import Mathlib.Data.List.Basic
import Stencil.Text.Search

/-!
# The first and the last place of a mark

Cutting a text around a mark succeeds exactly where the mark occurs, and no
occurrence lies in front of the one that `splitFirst?` finds, nor behind the one
that `splitLast?` finds.  An occurrence is given by the text in front of it, so its
place is the length of that text.
-/

set_option autoImplicit false

namespace Stencil.Text

theorem isPrefixOf?_eq_some_iff {mark s rest : Text} :
    mark.isPrefixOf? s = some rest ↔ s = mark ++ rest :=
  ⟨eq_append_of_isPrefixOf?, fun h => h ▸ isPrefixOf?_append mark rest⟩

theorem isPrefixOf?_of_nil_append {mark s rest : Text} (h : s = [] ++ mark ++ rest) :
    mark.isPrefixOf? s = some rest :=
  isPrefixOf?_eq_some_iff.2 h

/-! ## The first place -/

/-- No occurrence of the mark lies in front of the one that is found. -/
theorem length_le_of_splitFirst? {mark s a b a' b' : Text} (h : splitFirst? mark s = some (a, b))
    (hs : s = a' ++ mark ++ b') : a.length ≤ a'.length := by
  induction s generalizing a a' with
  | nil =>
      simp only [splitFirst?, Option.map_eq_some_iff, Prod.mk.injEq] at h
      obtain ⟨rest, -, rfl, -⟩ := h
      exact Nat.zero_le _
  | cons c s ih =>
      simp only [splitFirst?] at h
      split at h
      · cases h
        exact Nat.zero_le _
      · next hnot =>
        obtain ⟨parts, hparts, heq⟩ := Option.map_eq_some_iff.1 h
        cases heq
        cases a' with
        | nil => rw [isPrefixOf?_of_nil_append hs] at hnot; cases hnot
        | cons c' a' =>
            rw [List.cons_append, List.cons_append, List.cons.injEq] at hs
            exact Nat.succ_le_succ (ih hparts hs.2)

/-- Where a mark occurs it is found. -/
theorem exists_splitFirst? {mark s a b : Text} (hs : s = a ++ mark ++ b) :
    ∃ parts, splitFirst? mark s = some parts := by
  induction s generalizing a with
  | nil =>
      obtain ⟨rfl, rfl, rfl⟩ : a = [] ∧ mark = [] ∧ b = [] := by simpa using hs.symm
      exact ⟨([], []), rfl⟩
  | cons c s ih =>
      cases hfound : mark.isPrefixOf? (c :: s) with
      | some rest => exact ⟨([], rest), by rw [splitFirst?, hfound]⟩
      | none =>
          cases a with
          | nil => rw [isPrefixOf?_of_nil_append hs] at hfound; cases hfound
          | cons c' a =>
              rw [List.cons_append, List.cons_append, List.cons.injEq] at hs
              obtain ⟨parts, hparts⟩ := ih hs.2
              exact ⟨(c :: parts.1, parts.2), by rw [splitFirst?, hfound, hparts]; rfl⟩

/-- **A mark is found at an occurrence that no other one precedes.** -/
theorem splitFirst?_eq_some {mark s a b : Text} (hs : s = a ++ mark ++ b)
    (first : ∀ a' b', s = a' ++ mark ++ b' → a.length ≤ a'.length) :
    splitFirst? mark s = some (a, b) := by
  obtain ⟨⟨a', b'⟩, hfound⟩ := exists_splitFirst? hs
  have hs' := eq_append_of_splitFirst? hfound
  have hlength : a'.length = a.length :=
    Nat.le_antisymm (length_le_of_splitFirst? hfound hs) (first a' b' hs')
  obtain ⟨rfl, hrest⟩ := List.append_inj
    (by simpa only [List.append_assoc] using hs.symm.trans hs') hlength.symm
  rw [hfound, List.append_cancel_left hrest]

theorem splitFirst?_eq_none_iff {mark s : Text} : splitFirst? mark s = none ↔ ¬ mark <:+: s := by
  refine ⟨fun h ⟨a, b, hs⟩ => ?_, fun h => ?_⟩
  · obtain ⟨parts, hparts⟩ := exists_splitFirst? hs.symm
    rw [h] at hparts
    cases hparts
  · cases hfound : splitFirst? mark s with
    | none => rfl
    | some parts => exact absurd ⟨parts.1, parts.2, (eq_append_of_splitFirst? hfound).symm⟩ h

/-- A mark that first occurs in a text behind a literal text still does so whatever follows. -/
theorem splitFirst?_append {mark literal : Text}
    (first : ∀ a b, literal ++ mark = a ++ mark ++ b → literal.length ≤ a.length) (rest : Text) :
    splitFirst? mark (literal ++ mark ++ rest) = some (literal, rest) := by
  refine splitFirst?_eq_some rfl fun a b heq => Nat.le_of_not_lt fun hlt => ?_
  have hprefix : a ++ mark <+: literal ++ mark := by
    refine List.prefix_of_prefix_length_le ⟨b, heq.symm⟩ ⟨rest, rfl⟩ ?_
    simp only [List.length_append]
    omega
  obtain ⟨b', hb'⟩ := hprefix
  exact absurd (first a b' hb'.symm) (Nat.not_le.2 hlt)

/-- A mark that was found is found at the same place whatever stands behind it. -/
theorem splitFirst?_behind {mark s a b : Text} (h : splitFirst? mark s = some (a, b))
    (rest : Text) : splitFirst? mark (a ++ mark ++ rest) = some (a, rest) := by
  refine splitFirst?_append (fun a' b' heq => ?_) rest
  have hs : s = a' ++ mark ++ (b' ++ b) := by
    rw [eq_append_of_splitFirst? h, heq, List.append_assoc]
  exact length_le_of_splitFirst? h hs

theorem splitFirst?_append_of_some {mark s a b : Text} (h : splitFirst? mark s = some (a, b))
    (more : Text) : splitFirst? mark (s ++ more) = some (a, b ++ more) := by
  rw [eq_append_of_splitFirst? h, List.append_assoc]
  exact splitFirst?_behind h (b ++ more)

/-- The mark does not occur in front of the place where it was found. -/
theorem not_infix_of_splitFirst? {mark s a b : Text} (hmark : mark ≠ [])
    (h : splitFirst? mark s = some (a, b)) : ¬ mark <:+: a := by
  rintro ⟨x, y, rfl⟩
  have hs : s = x ++ mark ++ (y ++ mark ++ b) := by
    rw [eq_append_of_splitFirst? h]
    simp only [List.append_assoc]
  have hle := length_le_of_splitFirst? h hs
  have hpos := List.length_pos_iff.2 hmark
  simp only [List.length_append] at hle
  omega

/-- No mark starts in a text that does not contain its first character. -/
theorem splitFirst?_append_of_not_mem {c : Char} {mark s : Text} (h : c ∉ s) (rest : Text) :
    splitFirst? (c :: mark) (s ++ rest) =
      (splitFirst? (c :: mark) rest).map fun parts => (s ++ parts.1, parts.2) := by
  induction s with
  | nil => simp
  | cons x s ih =>
      rw [List.mem_cons, not_or] at h
      rw [List.cons_append, splitFirst?, ih h.2]
      simp [List.isPrefixOf?, h.1, Function.comp_def]

/-! ## The last place -/

/-- **Where a mark occurs it is found, at this occurrence or behind it.** -/
theorem exists_splitLast? {mark s a b : Text} (hs : s = a ++ mark ++ b) :
    ∃ a' b', splitLast? mark s = some (a', b') ∧ a.length ≤ a'.length := by
  induction s generalizing a with
  | nil =>
      obtain ⟨rfl, rfl, rfl⟩ : a = [] ∧ mark = [] ∧ b = [] := by simpa using hs.symm
      exact ⟨[], [], rfl, Nat.le_refl _⟩
  | cons c s ih =>
      cases a with
      | nil =>
          cases hlater : splitLast? mark s with
          | some parts => exact ⟨_, _, by rw [splitLast?, hlater], Nat.zero_le _⟩
          | none =>
              refine ⟨[], b, ?_, Nat.le_refl _⟩
              rw [splitLast?, hlater, isPrefixOf?_of_nil_append hs]
              rfl
      | cons c' a =>
          rw [List.cons_append, List.cons_append, List.cons.injEq] at hs
          obtain ⟨a', b', hlater, hle⟩ := ih hs.2
          exact ⟨c :: a', b', by rw [splitLast?, hlater], Nat.succ_le_succ hle⟩

end Stencil.Text
