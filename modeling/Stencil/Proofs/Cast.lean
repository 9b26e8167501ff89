import Stencil.Cast
import Stencil.Proofs.Json.Locality

/-!
# Casting again

Recovering casts values that were cast before, so what matters of a cast is that it
leaves its own results alone.  A number stays a number and a text stays a text, so
casts to the two do.  A cast to an object does too, unless its result is a text: it
reads a text as a document, and when that document denotes a text, a second cast reads
this one as well.  It never gives the same text, since a document with quotes around a
text is longer than the text (`length_lt_of_parse?`).  So a value that was cast stays as
it is exactly if it is not a text that comes from a cast to an object
(`apply_again_iff`).
-/

set_option autoImplicit false

namespace Stencil

/-! ## A text is shorter than the documents that denote it -/

namespace Quoted

variable {s t raw rest : Text}

theorem length_lt_of_cutAtQuote (h : cutAtQuote s = some (raw, rest)) : raw.length < s.length := by
  fun_induction cutAtQuote s generalizing raw
  case case1 => cases h
  case case2 =>
    cases h
    exact Nat.zero_lt_succ _
  case case3 ih | case4 ih =>
    obtain ⟨parts, hparts, heq⟩ := Option.map_eq_some_iff.1 h
    cases heq
    have hlt := ih hparts
    simp only [List.length_cons]
    omega

/-- Each escape stands for one character. -/
theorem length_unescape_le (h : unescape s = some t) : t.length ≤ s.length := by
  have push : ∀ {x : Option Text} {c : Char} {n : Nat} {t : Text}, x.map (c :: ·) = some t →
      (∀ {t : Text}, x = some t → t.length ≤ n) → t.length ≤ n + 1 := by
    intro x c n t ht hn
    obtain ⟨t', ht', rfl⟩ := Option.map_eq_some_iff.1 ht
    exact Nat.succ_le_succ (hn ht')
  fun_induction unescape s generalizing t
  case case1 =>
    cases h
    exact Nat.le_refl _
  case case4 ih | case8 ih | case10 ih | case12 ih =>
    refine Nat.le_trans (push h ih) ?_
    simp only [List.length_cons]
    omega
  all_goals cases h

theorem length_lt_of_read (h : read s = some (t, rest)) : t.length < s.length := by
  simp only [read, Option.bind_eq_bind, Option.bind_eq_some_iff] at h
  obtain ⟨⟨raw, rest'⟩, hcut, t', ht, heq⟩ := h
  cases heq
  exact Nat.lt_of_le_of_lt (length_unescape_le ht) (length_lt_of_cutAtQuote hcut)

end Quoted

namespace Json

variable {s rest : Text} {t : String}

theorem length_lt_of_readScalar (h : readScalar s = some (.str t, rest)) :
    t.toList.length < s.length := by
  unfold readScalar at h
  split at h
  · next s' =>
    obtain ⟨parts, hparts, heq⟩ := Option.map_eq_some_iff.1 h
    obtain ⟨parts', hread, rfl⟩ := Option.map_eq_some_iff.1 hparts
    cases heq
    rw [String.toList_ofList, List.length_cons]
    exact Nat.lt_succ_of_lt (Quoted.length_lt_of_read hread)
  · split at h
    · next parts hword =>
      cases h
      obtain ⟨word, hmem, -⟩ := readWord_eq_some hword
      simp [words] at hmem
    · obtain ⟨n, -, heq⟩ := Option.map_eq_some_iff.1 h
      cases heq

theorem length_lt_of_readValue {depth : Nat} (h : readValue depth s = some (.str t, rest)) :
    t.toList.length < s.length := by
  cases depth with
  | zero => exact length_lt_of_readScalar h
  | succ depth =>
      unfold readValue at h
      split at h
      · obtain ⟨parts, -, heq⟩ := Option.map_eq_some_iff.1 h
        cases heq
      · obtain ⟨parts, -, heq⟩ := Option.map_eq_some_iff.1 h
        cases heq
      · exact length_lt_of_readScalar h

/-- **A document that denotes a text is longer than the text.** -/
theorem length_lt_of_parse? (h : parse? s = some (.str t)) : t.toList.length < s.length := by
  unfold parse? at h
  split at h
  · next v rest hv =>
    split at h
    · cases h
      exact Nat.lt_of_lt_of_le (length_lt_of_readValue hv) (skipSpace_suffix s).length_le
    · cases h
  · cases h

end Json

/-! ## Casting what was cast -/

namespace Cast

variable {c : Cast} {s : Text} {v w : Json}

theorem exists_num_of_readNumber (h : readNumber s = .ok w) : ∃ n, w = .num n := by
  unfold readNumber at h
  split at h <;> cases h
  exact ⟨_, rfl⟩

/-- A number is all that a cast to numbers can give. -/
theorem exists_num_of_apply (h : number.apply v = .ok w) : ∃ n, w = .num n := by
  cases v with
  | num n => cases h; exact ⟨n, rfl⟩
  | str s => exact exists_num_of_readNumber h
  | null => cases h
  | bool b => cases h
  | arr xs => cases h
  | obj fs => cases h

theorem parse?_of_readObject (h : readObject s = .ok w) : Json.parse? s = some w := by
  unfold readObject at h
  split at h
  · cases h
  · next hparse =>
    cases h
    exact hparse

/-- A cast to an object leaves everything but texts alone. -/
theorem apply_object_of_ne (h : ∀ s, w ≠ .str s) : object.apply w = .ok w := by
  cases w with
  | str s => exact absurd rfl (h s)
  | null => rfl
  | bool b => rfl
  | num n => rfl
  | arr xs => rfl
  | obj fs => rfl

theorem apply_again (h : c.apply v = .ok w) (text : c = .object → ∀ s, w ≠ .str s) :
    c.apply w = .ok w := by
  cases c with
  | asIs => exact apply_asIs w
  | string =>
      rw [apply_string] at h
      cases h
      rw [apply_string, Json.inline, String.ofList_toList]
  | number =>
      obtain ⟨n, rfl⟩ := exists_num_of_apply h
      rfl
  | object => exact apply_object_of_ne (text rfl)

/-- **A value that was cast is what casting it again gives, exactly if it is not a text that a cast
to an object gave.** -/
theorem apply_again_iff (h : c.apply v = .ok w) :
    c.apply w = .ok w ↔ ¬ (c = .object ∧ ∃ s, w = .str s) := by
  refine ⟨?_, fun hnot => apply_again h fun hc s hw => hnot ⟨hc, s, hw⟩⟩
  rintro hagain ⟨rfl, s, rfl⟩
  have hlt := Json.length_lt_of_parse? (parse?_of_readObject hagain)
  exact absurd hlt (Nat.lt_irrefl _)

theorem apply_again_iff_list :
    object.apply (.str "[\"1\"]") = .ok (.arr [.str "1"]) ∧
      object.apply (.arr [.str "1"]) = .ok (.arr [.str "1"]) := by
  have h : object.apply (.str "[\"1\"]") = .ok (.arr [.str "1"]) := by with_unfolding_all rfl
  exact ⟨h, (apply_again_iff h).2 (by simp)⟩

/-- A document that denotes the text of another document. -/
theorem apply_object_twice :
    object.apply (.str "\"5\"") = .ok (.str "5") ∧
      object.apply (.str "5") = .ok (.num (.int 5 (by decide) (by decide))) := by
  constructor <;> with_unfolding_all rfl

end Cast

end Stencil
