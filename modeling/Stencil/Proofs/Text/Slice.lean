import Stencil.Proofs.Text.Search
import Stencil.Text.Blank

/-!
# Slices at byte offsets

A place in a text is given by its offset, the number of bytes in front of it.  Not every
number is the offset of a place: it may lie within a character or beyond the end of the
text.  A slice is the part of a text between two offsets, and there is none if one of
them is no place, or if they are in the wrong order (`slice?_eq_some_iff`).

`find?` tells at which offset a mark first occurs.
-/

set_option autoImplicit false

namespace Stencil.Text

/-- The parts of the text in front of a byte offset and behind it, if the offset is a place. -/
def splitAt? : Nat → Text → Option (Text × Text)
  | 0, s => some ([], s)
  | _ + 1, [] => none
  | n + 1, c :: s =>
    if n + 1 < c.utf8Size then none
    else (splitAt? (n + 1 - c.utf8Size) s).map fun parts => (c :: parts.1, parts.2)

/-- The part of the text between two byte offsets. -/
def slice? (s : Text) (start stop : Nat) : Option Text := do
  let (_, rest) ← splitAt? start s
  if start ≤ stop then
    let (part, _) ← splitAt? (stop - start) rest
    return part
  else none

/-- The byte offset at which the mark first occurs. -/
def find? (mark s : Text) : Option Nat :=
  (splitFirst? mark s).map fun parts => byteLength parts.1

variable {s a b part : Text} {n start stop : Nat}

/-! ## Byte lengths -/

@[simp] theorem byteLength_eq_zero_iff : byteLength s = 0 ↔ s = [] := by
  cases s with
  | nil => simp
  | cons c s =>
      have hc := c.utf8Size_pos
      simp only [byteLength_cons, reduceCtorEq, iff_false]
      omega

/-- Of two beginnings of a text the one with fewer bytes is a beginning of the other. -/
theorem prefix_of_byteLength_le (ha : a <+: s) (hb : b <+: s) (h : byteLength a ≤ byteLength b) :
    a <+: b := by
  rcases List.prefix_or_prefix_of_prefix ha hb with hab | ⟨more, rfl⟩
  · exact hab
  · rw [byteLength_append] at h
    have hmore : byteLength more = 0 := by omega
    simp [byteLength_eq_zero_iff.1 hmore]

/-- So many blank characters are trimmed off. -/
theorem byteLength_sub_trimStart {w : Text} (h : s = w ++ trimStart s) :
    byteLength s - byteLength (trimStart s) = byteLength w := by
  have hlength := congrArg byteLength h
  rw [byteLength_append] at hlength
  omega

/-! ## Places -/

theorem splitAt?_byteLength (a b : Text) : splitAt? (byteLength a) (a ++ b) = some (a, b) := by
  induction a with
  | nil => rw [byteLength_nil, List.nil_append, splitAt?]
  | cons c a ih =>
      obtain ⟨n, hn⟩ : ∃ n, byteLength (c :: a) = n + 1 := by
        refine Nat.exists_eq_succ_of_ne_zero fun hzero => ?_
        cases byteLength_eq_zero_iff.1 hzero
      have hrest : n + 1 - c.utf8Size = byteLength a := by
        rw [← hn, byteLength_cons]
        omega
      have hfits : ¬ n + 1 < c.utf8Size := by
        rw [← hn, byteLength_cons]
        omega
      rw [hn, List.cons_append, splitAt?, if_neg hfits, hrest, ih]
      rfl

theorem eq_append_of_splitAt? (h : splitAt? n s = some (a, b)) : s = a ++ b ∧ byteLength a = n := by
  fun_induction splitAt? n s generalizing a with
  | case1 s => cases h; exact ⟨rfl, rfl⟩
  | case2 n => cases h
  | case3 n c s hcut => cases h
  | case4 n c s hfits ih =>
      obtain ⟨parts, hparts, heq⟩ := Option.map_eq_some_iff.1 h
      cases heq
      obtain ⟨hs, hlength⟩ := ih hparts
      refine ⟨congrArg (c :: ·) hs, ?_⟩
      rw [byteLength_cons, hlength]
      omega

/-! ## Slices -/

/-- **A slice lies between two places**, and their offsets are the bytes in front of them. -/
theorem slice?_eq_some_iff :
    slice? s start stop = some part ↔
      ∃ a b, s = a ++ part ++ b ∧ start = byteLength a ∧ stop = byteLength (a ++ part) := by
  unfold slice?
  simp only [Option.bind_eq_bind, Option.bind_eq_some_iff]
  refine ⟨fun ⟨⟨a, rest⟩, hstart, h⟩ => ?_, ?_⟩
  · obtain ⟨rfl, rfl⟩ := eq_append_of_splitAt? hstart
    dsimp only at h
    split at h
    · next hle =>
      obtain ⟨⟨part', b⟩, hstop, heq⟩ := Option.bind_eq_some_iff.1 h
      cases heq
      obtain ⟨rfl, hlength⟩ := eq_append_of_splitAt? hstop
      refine ⟨a, b, (List.append_assoc _ _ _).symm, rfl, ?_⟩
      rw [byteLength_append, hlength]
      omega
    · cases h
  · rintro ⟨a, b, rfl, rfl, rfl⟩
    have hlength : byteLength (a ++ part) - byteLength a = byteLength part := by
      rw [byteLength_append]
      omega
    refine ⟨(a, part ++ b), by rw [List.append_assoc, splitAt?_byteLength], ?_⟩
    rw [if_pos (by rw [byteLength_append]; exact Nat.le_add_right _ _), hlength, splitAt?_byteLength]
    rfl

theorem slice?_of_eq (hs : s = a ++ part ++ b) (hstart : start = byteLength a)
    (hstop : stop = byteLength a + byteLength part) : slice? s start stop = some part :=
  slice?_eq_some_iff.2 ⟨a, b, hs, hstart, by rw [hstop, byteLength_append]⟩

/-- The slice that goes up to the end of the text. -/
theorem slice?_end (hs : s = a ++ b) (hstart : start = byteLength a) :
    slice? s start (byteLength s) = some b :=
  slice?_of_eq (hs.trans (List.append_nil _).symm) hstart (by rw [hs, byteLength_append])

/-! ## Finding -/

theorem find?_eq_of_splitFirst? {mark : Text} (h : splitFirst? mark s = some (a, b)) :
    find? mark s = some (byteLength a) := by
  rw [find?, h]
  rfl

theorem find?_eq_none_of_splitFirst? {mark : Text} (h : splitFirst? mark s = none) :
    find? mark s = none := by
  rw [find?, h]
  rfl

end Stencil.Text
