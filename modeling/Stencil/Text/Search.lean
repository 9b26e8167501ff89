import Stencil.Text.Basic

/-!
# Finding a mark in a text

`splitFirst?` and `splitLast?` cut a text around the first and around the last
place where a mark occurs.  In both cases the two parts, with the mark between
them, are the whole text; in both cases there is an answer exactly when the mark
occurs at all.  An empty mark occurs at every place, so its first occurrence is
at the start of the text and its last one at the end.
-/

namespace Stencil.Text

set_option autoImplicit false

/-- The parts of the text before and after the first occurrence of `mark`. -/
def splitFirst? (mark : Text) : Text → Option (Text × Text)
  | [] => (mark.isPrefixOf? []).map fun rest => ([], rest)
  | c :: s =>
    match mark.isPrefixOf? (c :: s) with
    | some rest => some ([], rest)
    | none => (splitFirst? mark s).map fun parts => (c :: parts.1, parts.2)

/-- The parts of the text before and after the last occurrence of `mark`. -/
def splitLast? (mark : Text) : Text → Option (Text × Text)
  | [] => (mark.isPrefixOf? []).map fun rest => ([], rest)
  | c :: s =>
    match splitLast? mark s with
    | some parts => some (c :: parts.1, parts.2)
    | none => (mark.isPrefixOf? (c :: s)).map fun rest => ([], rest)

/-! ## The mark lies between the two parts -/

theorem eq_append_of_isPrefixOf? {mark s rest : Text} (h : mark.isPrefixOf? s = some rest) :
    s = mark ++ rest := by
  induction mark generalizing s with
  | nil => exact Option.some.inj h
  | cons m mark ih =>
    cases s with
    | nil => exact absurd h (Option.some_ne_none rest).symm
    | cons c s =>
      change (if m == c then mark.isPrefixOf? s else none) = some rest at h
      split at h
      · next hm =>
        rw [beq_iff_eq] at hm
        rw [hm, List.cons_append, ih h]
      · cases h

theorem isPrefixOf?_append (mark rest : Text) : mark.isPrefixOf? (mark ++ rest) = some rest := by
  induction mark with
  | nil => rfl
  | cons m mark ih =>
    show (if m == m then mark.isPrefixOf? (mark ++ rest) else none) = some rest
    rw [if_pos (beq_self_eq_true m), ih]

/-- Putting the mark back between the two parts gives the text. -/
theorem eq_append_of_splitFirst? {mark s a b : Text} (h : splitFirst? mark s = some (a, b)) :
    s = a ++ mark ++ b := by
  induction s generalizing a with
  | nil =>
    simp only [splitFirst?, Option.map_eq_some_iff, Prod.mk.injEq] at h
    obtain ⟨rest, hrest, rfl, rfl⟩ := h
    simpa using eq_append_of_isPrefixOf? hrest
  | cons c s ih =>
    simp only [splitFirst?] at h
    split at h
    · next rest hrest =>
      simp only [Option.some.injEq, Prod.mk.injEq] at h
      obtain ⟨rfl, rfl⟩ := h
      simpa using eq_append_of_isPrefixOf? hrest
    · simp only [Option.map_eq_some_iff, Prod.mk.injEq] at h
      obtain ⟨⟨a', b'⟩, hparts, rfl, rfl⟩ := h
      simpa using ih hparts

/-- Putting the mark back between the two parts gives the text. -/
theorem eq_append_of_splitLast? {mark s a b : Text} (h : splitLast? mark s = some (a, b)) :
    s = a ++ mark ++ b := by
  induction s generalizing a with
  | nil =>
    simp only [splitLast?, Option.map_eq_some_iff, Prod.mk.injEq] at h
    obtain ⟨rest, hrest, rfl, rfl⟩ := h
    simpa using eq_append_of_isPrefixOf? hrest
  | cons c s ih =>
    simp only [splitLast?] at h
    split at h
    · next parts hparts =>
      simp only [Option.some.injEq, Prod.mk.injEq] at h
      obtain ⟨rfl, rfl⟩ := h
      simpa using ih (a := parts.1) hparts
    · simp only [Option.map_eq_some_iff, Prod.mk.injEq] at h
      obtain ⟨rest, hrest, rfl, rfl⟩ := h
      simpa using eq_append_of_isPrefixOf? hrest

/-- What follows an occurrence of a mark that is not empty is shorter than the text. -/
theorem length_lt_of_splitFirst? {mark s a b : Text} (hmark : mark ≠ [])
    (h : splitFirst? mark s = some (a, b)) : b.length < s.length := by
  have hpos : 0 < mark.length := List.length_pos_iff.2 hmark
  rw [eq_append_of_splitFirst? h]
  simp only [List.length_append]
  omega

end Stencil.Text
