import Stencil.Cast
import Stencil.Proofs.Json.Readable
import Stencil.Proofs.Json.Retext

/-!
# Values that are the same but for what their texts say

A cast reads a text as a number or as a document, or fails.  Whether it fails depends on
the text alone, so all texts can be told apart into four kinds, and a specimen can stand
for each kind (`Cast.specimen`).

Values that are the same may have different texts, but these are of one kind
(`Cast.specimen_inline_eq`): inside a longer text scalars that are the same leave the same
text, and of an array or an object the text is never a number, and a document exactly
for all that is the same.

So if texts of values that are the same are put into data that is the same, the data is
not the same any more, but it is kin (`Json.Kin`): it is the same value once each string
gives way to its specimen.
-/

set_option autoImplicit false

namespace Stencil

/-- The text of an array or an object is no number. -/
theorem Reading.ofText?_eq_none {c : Char} (h : c = '[' ∨ c = '\x7b') (s : Text) :
    ofText? (c :: s) = none := by
  have numeral : Numeral.ofText? (c :: s) = none := by
    rcases h with rfl | rfl <;> rfl
  rcases h with rfl | rfl <;> simp [ofText?, Sign.takeFrom, special?, numeral]

namespace Cast

/-- A text of which there is only one for all texts that can be cast to the same types. -/
def specimen (s : String) : String :=
  match (readNumber s.toList).toOption.isSome, (readObject s.toList).toOption.isSome with
  | true, true => "0"
  | true, false => "+0"
  | false, true => "[]"
  | false, false => ""

theorem isSome_readNumber_specimen (s : String) :
    (readNumber (specimen s).toList).toOption.isSome = (readNumber s.toList).toOption.isSome := by
  unfold specimen
  split <;> rename_i h _ <;> rw [h] <;> decide +kernel

theorem isSome_readObject_specimen (s : String) :
    (readObject (specimen s).toList).toOption.isSome = (readObject s.toList).toOption.isSome := by
  unfold specimen
  split <;> rename_i _ h <;> rw [h] <;> decide +kernel

theorem isSome_readObject (s : Text) :
    (readObject s).toOption.isSome = (Json.parse? s).isSome := by
  unfold readObject
  cases Json.parse? s <;> rfl

theorem readNumber_render_eq_error {v : Json} (h : ¬ v.IsScalar) :
    (readNumber v.render).toOption.isSome = false := by
  have first : ∃ c s, v.render = c :: s ∧ (c = '[' ∨ c = '\x7b') := by
    cases v with
    | arr xs => exact ⟨_, _, Json.render_arr_eq xs, .inl rfl⟩
    | obj fs => exact ⟨_, _, Json.render_obj_eq fs, .inr rfl⟩
    | null | bool _ | num _ | str _ => exact (h trivial).elim
  obtain ⟨c, s, hs, hc⟩ := first
  rw [readNumber, (Json.trimmed_render v).trim, hs, Reading.ofText?_eq_none hc]
  rfl

theorem specimen_inline_eq {v w : Json} (h : v.Same w) :
    specimen (String.ofList v.inline) = specimen (String.ofList w.inline) := by
  by_cases scalar : v.IsScalar
  · rw [Json.FixedText.inline_eq (.inl scalar) h.same]
  · have scalar' : ¬ w.IsScalar := fun hw => scalar (h.symm.alike.isScalar hw)
    have inline : ∀ v : Json, ¬ v.IsScalar → v.inline = v.render := by
      intro v hv
      cases v <;> first | rfl | exact (hv trivial).elim
    have documents : (Json.parse? v.render).isSome = (Json.parse? w.render).isSome := by
      rw [Bool.eq_iff_iff, Option.isSome_iff_exists, Option.isSome_iff_exists]
      exact h.exists_parse?_iff
    simp only [specimen, String.toList_ofList, inline v scalar, inline w scalar', isSome_readObject,
      readNumber_render_eq_error scalar, readNumber_render_eq_error scalar', documents]

end Cast

namespace Json

variable {v w : Json}

/-- The trees are the same value but for strings, and the strings can be cast to the same types. -/
def Kin (v w : Json) : Prop :=
  (v.retext Cast.specimen).Same (w.retext Cast.specimen)

theorem Same.kin (h : v.Same w) : v.Kin w :=
  h.retext

/-- **The texts of values that are the same are kin.** -/
theorem Same.kin_inline (h : v.Same w) :
    (str (String.ofList v.inline)).Kin (str (String.ofList w.inline)) := by
  rw [Kin, retext_str, retext_str, Cast.specimen_inline_eq h]
  exact .refl trivial

/-- Merging part after part gives kin for kin. -/
theorem Kin.foldl_merge {parts parts' : List Json} (h : v.Kin w)
    (hs : List.Forall₂ Kin parts parts') :
    (parts.foldl merge v).Kin (parts'.foldl merge w) := by
  rw [Kin, ← foldl_merge_retext, ← foldl_merge_retext]
  refine Same.foldl_merge h ?_
  rw [List.forall₂_map_left_iff, List.forall₂_map_right_iff]
  exact hs

/-- Assigning kin at a path of an empty object gives kin. -/
theorem Kin.assign {p : Path} (h : v.Kin w) (bounded : p.Bounded) :
    (Json.assign v p (obj [])).tree.Kin (Json.assign w p (obj [])).tree := by
  rw [Kin, ← assign_retext, ← assign_retext]
  exact Same.assign h bounded (wellFormed_retext (by simp))

end Json

end Stencil
