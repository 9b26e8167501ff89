import Mathlib.Data.List.TakeWhile
import Stencil.Cast
import Stencil.Proofs.Json.Locality
import Stencil.Proofs.Text.Blank

/-!
# The ends of a rendered value

The text of a value starts and ends with a character that is not blank, so it is
trimmed (`trimmed_render`).  The text of a string, an array or an object also starts
with a mark that shows where the value ends.  So such a text is read from the front
of any text that it starts (`readFront?_render`), and no beginning of it is a document
(`parse?_eq_none_of_render`).
-/

set_option autoImplicit false

namespace Stencil

open Json (isNumberChar)

/-! ## Numbers -/

theorem isNumberChar_of_mem_toDigits {n : Nat} {c : Char} (h : c ∈ Nat.toDigits 10 n) :
    isNumberChar c = true := by
  simp [isNumberChar, Nat.isDigit_of_mem_toDigits (by decide) (by decide) h]

theorem isNumberChar_of_mem_replicate {n : Nat} {c : Char} (h : c ∈ List.replicate n '0') :
    isNumberChar c = true := by
  rw [List.eq_of_mem_replicate h]
  rfl

/-- A text of characters of numbers, and not the empty one. -/
structure NumberText (s : Text) : Prop where
  nonempty : s ≠ []
  chars : ∀ c ∈ s, isNumberChar c = true

theorem numberText_toDigits (n : Nat) : NumberText (Nat.toDigits 10 n) :=
  ⟨Nat.toDigits_ne_nil, fun _ h => isNumberChar_of_mem_toDigits h⟩

theorem NumberText.cons {s : Text} {c : Char} (hc : isNumberChar c = true) (h : NumberText s) :
    NumberText (c :: s) :=
  ⟨List.cons_ne_nil c s, List.forall_mem_cons.2 ⟨hc, h.chars⟩⟩

theorem NumberText.exists_cons {s : Text} (h : NumberText s) :
    ∃ c s', s = c :: s' ∧ isNumberChar c = true := by
  obtain ⟨c, s', rfl⟩ := List.exists_cons_of_ne_nil h.nonempty
  exact ⟨c, s', rfl, h.chars c List.mem_cons_self⟩

theorem numberText_positional {ds : Text} (hds : NumberText ds) (point : Int) :
    NumberText (Double.positional ds point) := by
  unfold Double.positional
  split
  · refine ⟨List.cons_ne_nil _ _, fun c hc => ?_⟩
    simp only [List.mem_cons, List.mem_append] at hc
    rcases hc with rfl | rfl | hc | hc
    · rfl
    · rfl
    · exact isNumberChar_of_mem_replicate hc
    · exact hds.chars c hc
  · split
    · refine ⟨by simp, fun c hc => ?_⟩
      simp only [List.mem_cons, List.mem_append, List.not_mem_nil, or_false] at hc
      rcases hc with (hc | hc) | rfl | rfl
      · exact hds.chars c hc
      · exact isNumberChar_of_mem_replicate hc
      · rfl
      · rfl
    · refine ⟨by simp, fun c hc => ?_⟩
      simp only [List.mem_cons, List.mem_append] at hc
      rcases hc with hc | rfl | hc
      · exact hds.chars c (List.mem_of_mem_take hc)
      · rfl
      · exact hds.chars c (List.mem_of_mem_drop hc)

theorem numberText_scientific {ds : Text} (hds : NumberText ds) (exponent : Int) :
    NumberText (Double.scientific ds exponent) := by
  unfold Double.scientific
  refine ⟨by simp, fun c hc => ?_⟩
  simp only [List.mem_cons, List.mem_append] at hc
  rcases hc with (hc | hc) | rfl | rfl | hc
  · exact hds.chars c (List.mem_of_mem_take hc)
  · split at hc
    · cases hc
    · rcases List.mem_cons.1 hc with rfl | hc
      · rfl
      · exact hds.chars c (List.mem_of_mem_drop hc)
  · rfl
  · split <;> rfl
  · exact isNumberChar_of_mem_toDigits hc

theorem numberText_magnitudeText (x : Double) : NumberText x.magnitudeText := by
  unfold Double.magnitudeText
  split
  · exact ⟨by simp, List.all_eq_true.1 rfl⟩
  · dsimp only
    split
    · exact numberText_positional (numberText_toDigits _) _
    · exact numberText_scientific (numberText_toDigits _) _

/-- **The text of a number has characters of numbers only.** -/
theorem numberText_toText (n : Number) : NumberText n.toText := by
  cases n with
  | int n lower upper =>
      show NumberText (Number.intText n)
      unfold Number.intText
      split
      · exact numberText_toDigits _ |>.cons (by decide)
      · exact numberText_toDigits _
  | float x =>
      show NumberText x.toText
      unfold Double.toText
      split
      · exact numberText_magnitudeText x |>.cons (by decide)
      · exact numberText_magnitudeText x

theorem not_isBlank_of_isNumberChar {c : Char} (h : isNumberChar c = true) :
    Text.isBlank c = false := by
  simp only [isNumberChar, Bool.or_eq_true, beq_iff_eq] at h
  rcases h with ((((h | rfl) | rfl) | rfl) | rfl) | rfl
  · exact Text.not_isBlank_of_isDigit h
  all_goals decide

theorem NumberText.trimmed {s : Text} (h : NumberText s) : s.Trimmed :=
  Text.trimmed_of_forall h.nonempty fun c hc => not_isBlank_of_isNumberChar (h.chars c hc)

/-! ## The ends of a text -/

namespace Json

theorem exists_renderItems (xs : List Json) : ∃ s, renderItems xs = s ++ [']'] := by
  induction xs with
  | nil => exact ⟨[], rfl⟩
  | cons x xs ih =>
      obtain ⟨s, hs⟩ := ih
      exact ⟨',' :: (render x ++ s), by rw [renderItems, hs]; simp⟩

theorem exists_renderFields (fs : List (String × Json)) : ∃ s, renderFields fs = s ++ ['\x7d'] := by
  induction fs with
  | nil => exact ⟨[], rfl⟩
  | cons f fs ih =>
      obtain ⟨k, v⟩ := f
      obtain ⟨s, hs⟩ := ih
      exact ⟨',' :: (Quoted.quote k.toList ++ ':' :: (render v ++ s)), by
        rw [renderFields, hs]; simp⟩

/-- The text of the value shows where it ends: the value is a string, an array or an object. -/
def isClosed : Json → Bool
  | str _ | arr _ | obj _ => true
  | _ => false

/-- The text of such a value has marks at its ends. -/
theorem exists_render_of_isClosed {v : Json} (h : v.isClosed = true) :
    ∃ c s c', v.render = c :: (s ++ [c']) ∧ isSelfClosing c = true ∧ Text.isBlank c' = false := by
  cases v with
  | str s =>
      exact ⟨'"', Quoted.escape s.toList, '"', by rw [render, Quoted.quote]; rfl, by decide,
        by decide⟩
  | arr xs =>
      cases xs with
      | nil => exact ⟨'[', [], ']', rfl, by decide, by decide⟩
      | cons x xs =>
          obtain ⟨s, hs⟩ := exists_renderItems xs
          exact ⟨'[', render x ++ s, ']', by rw [render, hs, List.append_assoc], by decide,
            by decide⟩
  | obj fs =>
      cases fs with
      | nil => exact ⟨'\x7b', [], '\x7d', rfl, by decide, by decide⟩
      | cons f fs =>
          obtain ⟨k, v⟩ := f
          obtain ⟨s, hs⟩ := exists_renderFields fs
          exact ⟨'\x7b', Quoted.quote k.toList ++ ':' :: (render v ++ s), '\x7d', by
            rw [render, hs]; simp, by decide, by decide⟩
  | null => cases h
  | bool b => cases h
  | num n => cases h

theorem not_isBlank_of_isSelfClosing {c : Char} (h : isSelfClosing c = true) :
    Text.isBlank c = false := by
  simp only [isSelfClosing, Bool.or_eq_true, beq_iff_eq] at h
  rcases h with (rfl | rfl) | rfl <;> decide

/-- **The text of a value is trimmed.** -/
theorem trimmed_render (v : Json) : v.render.Trimmed := by
  cases hclosed : v.isClosed with
  | true =>
      obtain ⟨c, s, c', hv, hc, hc'⟩ := exists_render_of_isClosed hclosed
      rw [hv]
      exact ⟨⟨c, _, rfl, not_isBlank_of_isSelfClosing hc⟩, ⟨c :: s, c', rfl, hc'⟩⟩
  | false =>
      cases v with
      | null => exact ⟨⟨'n', _, rfl, by decide⟩, ⟨"nul".toList, 'l', rfl, by decide⟩⟩
      | bool b =>
          cases b with
          | true => exact ⟨⟨'t', _, rfl, by decide⟩, ⟨"tru".toList, 'e', rfl, by decide⟩⟩
          | false => exact ⟨⟨'f', _, rfl, by decide⟩, ⟨"fals".toList, 'e', rfl, by decide⟩⟩
      | num n => rw [render]; exact (numberText_toText n).trimmed
      | str s => cases hclosed
      | arr xs => cases hclosed
      | obj fs => cases hclosed

/-! ## Reading a rendered value -/

theorem skipSpace_of_trimmed {s : Text} (h : s.Trimmed) : skipSpace s = s := by
  obtain ⟨c, s', rfl, hc⟩ := h.first
  have hspace : c.isWhitespace = false := by
    cases hw : c.isWhitespace with
    | false => rfl
    | true => rw [Text.isBlank_of_isWhitespace hw] at hc; cases hc
  rw [skipSpace, List.dropWhile_cons, hspace]
  rfl

/-- No end of a trimmed text is space. -/
theorem eq_nil_of_skipSpace {s rest : Text} (h : s.Trimmed) (hsuffix : rest <:+ s)
    (hspace : skipSpace rest = []) : rest = [] := by
  obtain ⟨s', c, rfl, hc⟩ := h.last
  obtain ⟨before, hbefore⟩ := hsuffix
  rcases List.eq_nil_or_concat rest with hnil | ⟨rest', c', rfl⟩
  · exact hnil
  · rw [List.concat_eq_append, ← List.append_assoc] at hbefore
    have hcc : c' = c := by
      have := List.append_inj_right' hbefore rfl
      simpa using this
    have hmem := List.dropWhile_eq_nil_iff.1 hspace c' (by simp)
    rw [hcc] at hmem
    rw [Text.isBlank_of_isWhitespace hmem] at hc
    cases hc

/-- A trimmed document is read with nothing left. -/
theorem readValue_of_parse? {s : Text} {v : Json} (hs : s.Trimmed) (h : parse? s = some v) :
    readValue maxDepth s = some (v, []) := by
  unfold parse? at h
  rw [skipSpace_of_trimmed hs] at h
  split at h
  · next w rest hread =>
    split at h
    · next hspace =>
      cases h
      rw [hread, eq_nil_of_skipSpace hs (leavesSuffix_readValue _ hread) hspace]
    · cases h
  · cases h

theorem skipSpace_of_isSelfClosing {c : Char} (h : isSelfClosing c = true) (s : Text) :
    skipSpace (c :: s) = c :: s := by
  simp only [isSelfClosing, Bool.or_eq_true, beq_iff_eq] at h
  rcases h with (rfl | rfl) | rfl <;> rfl

variable {v : Json}

/-- **A string, an array or an object is read from the front of any text that starts with it.** -/
theorem readFront?_render (closed : v.isClosed = true) (h : parse? v.render = some v)
    (more : Text) : readFront? (v.render ++ more) = some (v, more) := by
  have hread := readValue_of_parse? (trimmed_render v) h
  obtain ⟨c, s, c', hv, hc, -⟩ := exists_render_of_isClosed closed
  rw [hv] at hread ⊢
  have hmore := readValue_append (local_readValue 126) hread (.inl hc) more
  rw [readFront?, List.cons_append, skipSpace_of_isSelfClosing hc, ← List.cons_append,
    show readValue maxDepth = readValue (126 + 1) from rfl, hmore]
  simp [hc]

/-- **No beginning of the text of a string, an array or an object is a document.** -/
theorem parse?_eq_none_of_render (closed : v.isClosed = true) (h : parse? v.render = some v)
    {s : Text} (more : Text) (hs : v.render = s ++ more) (hmore : more ≠ []) : parse? s = none := by
  have hread := readValue_of_parse? (trimmed_render v) h
  obtain ⟨c, s', c', hv, hc, -⟩ := exists_render_of_isClosed closed
  rw [hs] at hread
  cases s with
  | nil => rfl
  | cons c₁ s =>
      obtain rfl : c₁ = c := by
        rw [hv, List.cons_append, List.cons.injEq] at hs
        exact hs.1.symm
      unfold parse?
      rw [skipSpace_of_isSelfClosing hc]
      cases hbegin : readValue maxDepth (c₁ :: s) with
      | none => rfl
      | some parts =>
          -- what the beginning leaves would be left of the whole text, which leaves nothing
          have hwhole := readValue_append (local_readValue 126) hbegin (.inl hc) more
          have hleft := congrArg Prod.snd (Option.some.inj (hread.symm.trans hwhole))
          exact absurd (List.append_eq_nil_iff.1 hleft.symm).2 hmore

end Json

end Stencil
