import Stencil.Proofs.Json.Kin
import Stencil.Proofs.Token.Place

/-!
# Tokens and values that are the same

A token that casts to another type than a string makes values that are the same of
values that are the same, or fails for both.  A cast to a string writes the value,
and so does a token with text around it, and the text may tell values apart that are
the same.  It does not where the value has a fixed text.

Whether a token fails is never a matter of the order of members
(`Token.agree_applyCast`, `Token.agree_resolve`), and a variable is missing either on
both sides or on neither (`Fault.Akin`).  What a token gives back is at least kin
(`Token.agree_recoverValue`), and that is enough for the token not to fail on one side
alone (`Token.fareAlike_resolve`).
-/

set_option autoImplicit false

namespace Stencil

/-- A variable is missing on both sides, or on neither. -/
def Fault.Akin (fault fault' : Fault) : Prop :=
  fault.isMissing = fault'.isMissing

theorem Fault.Akin.refl (fault : Fault) : fault.Akin fault := rfl

/-- Both have answers, or both fail, and a variable is missing on both sides or on neither. -/
def FareAlike {α β : Type} (x : Except Fault α) (y : Except Fault β) : Prop :=
  Agree (fun _ _ => True) Fault.Akin x y

namespace FareAlike

variable {α β γ : Type} {x : Except Fault α} {y : Except Fault β} {z : Except Fault γ}

theorem of_agree {p : α → β → Prop} (h : Agree p Fault.Akin x y) : FareAlike x y :=
  h.imp fun _ _ _ _ _ => trivial

theorem refl (x : Except Fault α) : FareAlike x x :=
  Agree.refl (fun _ _ => trivial) .refl

theorem symm (h : FareAlike x y) : FareAlike y x := by
  cases h with
  | ok _ => exact .ok trivial
  | error h => exact .error (Eq.symm h)

theorem trans (h : FareAlike x y) (h' : FareAlike y z) : FareAlike x z := by
  cases h with
  | ok _ => cases h' with | ok _ => exact .ok trivial
  | error h => cases h' with | error h' => exact .error (Eq.trans h h')

end FareAlike

namespace Token

variable {t : Token} {v w data data' : Json}

/-- What the data holds at the path of the token has a fixed text. -/
def FixedIn (t : Token) (data : Json) : Prop :=
  ∀ v, data.get? t.target = some v → v.FixedText

/-- Values that are the same are cast to the same value, or each stays as it is, or each becomes its
text, or neither can be cast. -/
theorem agree_applyCast (h : v.same w = true) :
    Agree (fun a b => a = b ∨ (a = v ∧ b = w) ∨
        t.cast = .string ∧ a = .str (String.ofList v.inline) ∧ b = .str (String.ofList w.inline))
      Fault.Akin (t.applyCast v) (t.applyCast w) := by
  cases hcast : t.cast with
  | asIs =>
      rw [applyCast_asIs hcast, applyCast_asIs hcast]
      exact .ok (.inr (.inl ⟨rfl, rfl⟩))
  | string =>
      rw [applyCast_string hcast, applyCast_string hcast]
      exact .ok (.inr (.inr ⟨rfl, rfl, rfl⟩))
  | number =>
      rw [applyCast, applyCast, hcast]
      cases v <;> cases w <;> try cases h
      case num.num m n => exact .ok (.inr (.inl ⟨rfl, rfl⟩))
      case str.str r s =>
        rw [beq_iff_eq.1 h]
        exact .refl (fun _ _ => .inl rfl) .refl
      all_goals exact .error rfl
  | object =>
      rw [applyCast, applyCast, hcast]
      cases v <;> cases w <;> try cases h
      case str.str r s =>
        rw [beq_iff_eq.1 h]
        exact .refl (fun _ _ => .inl rfl) .refl
      all_goals exact .ok (.inr (.inl ⟨rfl, rfl⟩))

/-- What values with the same text are cast to has the same text. -/
theorem agree_applyCast_inline (h : v.Same w) :
    Agree (fun a b => v.inline = w.inline → a.inline = b.inline) Fault.Akin
      (t.applyCast v) (t.applyCast w) := by
  refine (agree_applyCast h.same).imp fun a b _ _ hab text => ?_
  rcases hab with rfl | ⟨rfl, rfl⟩ | ⟨-, rfl, rfl⟩
  · rfl
  · exact text
  · rw [text]

/-- Values that are the same are cast to values that are the same, if they have the same text or the
cast is to another type than a string. -/
theorem agree_applyCast_same (h : v.Same w) :
    Agree (fun a b => (t.cast = .string → v.inline = w.inline) → a.Same b) Fault.Akin
      (t.applyCast v) (t.applyCast w) := by
  refine (agree_applyCast h.same).imp fun a b ha _ hab text => ?_
  have wf : a.WellFormed := wellFormed_of_applyCast h.left ha
  rcases hab with rfl | ⟨rfl, rfl⟩ | ⟨hcast, rfl, rfl⟩
  · exact .refl wf
  · exact h
  · rw [text hcast]
    exact .refl trivial

/-- What values that are the same are cast to is kin. -/
theorem agree_applyCast_kin (h : v.Same w) :
    Agree Json.Kin Fault.Akin (t.applyCast v) (t.applyCast w) := by
  refine (agree_applyCast h.same).imp fun a b ha _ hab => ?_
  have wf : a.WellFormed := wellFormed_of_applyCast h.left ha
  rcases hab with rfl | ⟨rfl, rfl⟩ | ⟨-, rfl, rfl⟩
  · exact (Json.Same.refl wf).kin
  · exact h.kin
  · exact h.kin_inline

/-! ## Resolving -/

/-- The values that the token finds are the same, and they have the same text if the text of what
the data holds is fixed. -/
theorem source?_of_same (hdefault : ∀ d, t.fallback = some d → d.WellFormed)
    (h : data.Same data') :
    Json.Both (fun v w => v.Same w ∧ (t.FixedIn data → v.inline = w.inline))
      (t.source? data t.target) (t.source? data' t.target) := by
  have default : Json.Both (fun v w => v.Same w ∧ (t.FixedIn data → v.inline = w.inline))
      t.fallback t.fallback := by
    cases hd : t.fallback with
    | none => trivial
    | some d => exact ⟨.refl (hdefault d hd), fun _ => rfl⟩
  rcases Json.both_iff.1 (h.get? t.target) with ⟨hnone, hnone'⟩ | ⟨v, w, hv, hw, hvw⟩
  · rw [source?, source?, hnone, hnone']
    exact default
  · rw [source?, source?, hv, hw]
    dsimp only
    rw [hvw.isNull_eq]
    split
    · exact default
    · exact ⟨hvw, fun fixed => (fixed v hv).inline_eq hvw.same⟩

/-- **A token becomes a value in both of two data that are the same, or fails in both.**  If the
text of what the data holds is fixed, the values have the same text, and they are the same whatever
the cast. -/
theorem agree_resolve (hdefault : ∀ d, t.fallback = some d → d.WellFormed)
    (h : data.Same data') :
    Agree (fun a b => (t.FixedIn data → a.inline = b.inline) ∧
        ((t.cast = .string → t.FixedIn data) → a.Same b))
      Fault.Akin (t.resolve data) (t.resolve data') := by
  unfold resolve
  cases hpath : t.readPath with
  | error fault => exact .error (.refl fault)
  | ok p =>
      obtain rfl := target_of_readPath hpath
      rw [ok_bind, ok_bind]
      rcases Json.both_iff.1 (source?_of_same hdefault h) with
        ⟨hnone, hnone'⟩ | ⟨v, w, hv, hw, hvw, text⟩
      · rw [hnone, hnone']
        exact .error (.refl _)
      · rw [hv, hw]
        refine ((agree_applyCast_inline hvw).and (agree_applyCast_same hvw)).imp ?_
        rintro a b - - ⟨inline, same⟩
        exact ⟨fun fixed => inline (text fixed), fun fixed => same fun hcast => text (fixed hcast)⟩

/-- A cast fails for both values, or for neither. -/
theorem fareAlike_applyCast
    (h : (t.cast.apply v).toOption.isSome = (t.cast.apply w).toOption.isSome) :
    FareAlike (t.applyCast v) (t.applyCast w) := by
  unfold applyCast
  cases hv : t.cast.apply v <;> cases hw : t.cast.apply w <;> rw [hv, hw] at h
  · exact .error rfl
  · cases h
  · cases h
  · exact .ok trivial

/-- A cast fares alike with a value and with the specimens of its strings. -/
theorem fareAlike_applyCast_retext (v : Json) :
    FareAlike (t.applyCast v) (t.applyCast (v.retext Cast.specimen)) := by
  apply fareAlike_applyCast
  cases t.cast with
  | asIs => rw [Cast.apply_asIs, Cast.apply_asIs]; rfl
  | string => rw [Cast.apply_string, Cast.apply_string]; rfl
  | number =>
      cases v with
      | str s => rw [Json.retext_str]; exact (Cast.isSome_readNumber_specimen s).symm
      | null | bool _ | num _ | arr _ | obj _ => rfl
  | object =>
      cases v with
      | str s => rw [Json.retext_str]; exact (Cast.isSome_readObject_specimen s).symm
      | null | bool _ | num _ | arr _ | obj _ => rfl

theorem fareAlike_resolve_retext (data : Json) :
    FareAlike (t.resolve data) (t.resolve (data.retext Cast.specimen)) := by
  unfold resolve
  cases t.readPath with
  | error fault => exact .error rfl
  | ok p =>
      rw [ok_bind, ok_bind, source?, source?, Json.get?_retext]
      cases data.get? p with
      | none => exact .refl _
      | some v =>
          simp only [Option.map_some, Json.isNull_retext]
          cases v.isNull with
          | true => exact .refl _
          | false => exact fareAlike_applyCast_retext v

/-- **A token fares alike with data that is kin.** -/
theorem fareAlike_resolve (hdefault : ∀ d, t.fallback = some d → d.WellFormed)
    (h : data.Kin data') : FareAlike (t.resolve data) (t.resolve data') :=
  ((fareAlike_resolve_retext data).trans (.of_agree (agree_resolve hdefault h))).trans
    (fareAlike_resolve_retext data').symm

/-! ## Recovering -/

/-- What is recovered for a token from values that are the same is kin.  It is the same if the
values have the same text or the cast is to another type than a string. -/
theorem agree_recoverValue (hdefault : ∀ d, t.fallback = some d → d.WellFormed) (h : v.Same w) :
    Agree (fun a b => a.Kin b ∧ ((t.cast = .string → v.inline = w.inline) → a.Same b)) Fault.Akin
      (t.recoverValue v) (t.recoverValue w) := by
  have cast := (agree_applyCast_kin (t := t) h).and (agree_applyCast_same h)
  unfold recoverValue
  cases hd : t.fallback with
  | none => exact cast
  | some d =>
      have wf : d.WellFormed := hdefault d hd
      have hsame : d.same v = d.same w := by
        rw [Bool.eq_iff_iff]
        exact ⟨fun hv => (Json.Same.trans ⟨wf, h.left, hv⟩ h).same,
          fun hw => (Json.Same.trans ⟨wf, h.right, hw⟩ h.symm).same⟩
      dsimp only
      rw [hsame]
      split
      · exact .ok ⟨(Json.Same.refl wf).kin, fun _ => .refl wf⟩
      · exact cast

theorem Writable.same_piece (writable : t.Writable) (h : v.Same w) :
    (t.piece v).Same (t.piece w) :=
  h.assign writable.bounded (by simp)

theorem Writable.kin_piece (writable : t.Writable) (h : v.Kin w) :
    (t.piece v).Kin (t.piece w) :=
  h.assign writable.bounded

end Token

end Stencil
