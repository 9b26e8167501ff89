import Stencil.Proofs.Json.PartOf

/-!
# Outlines

A tree is an outline of another if it is a partial copy of it but for what lies at
certain paths.  A partial copy is an outline without such paths, and an outline whose
values at the paths are partial copies too is a partial copy (`Outline.partOf`).

Assigning keeps an outline an outline if the value is one for the rest of the way
(`Outline.assign`).  So assigning partial copies makes partial copies
(`PartOf.assign`), and a tree that is built by assignments at some paths, in any
order and even if places are assigned again, is an outline of every tree in which
the paths lead somewhere.
-/

set_option autoImplicit false

namespace Stencil.Json

/-- The tree is a partial copy of the other one but for what lies at the ends of the paths. -/
inductive Outline : (Path → Prop) → Json → Json → Prop where
  | place {at' : Path → Prop} {t d : Json} (here : at' []) : Outline at' t d
  | inner {at' : Path → Prop} {t d : Json} (alike : Alike t d)
      (present : ∀ s w, t.step? s = some w → ∃ v, d.step? s = some v)
      (inner : ∀ s w v, t.step? s = some w → d.step? s = some v → hole s w ≠ true →
        Outline (fun p => at' (s :: p)) w v) : Outline at' t d

namespace Outline

variable {at' : Path → Prop} {t d u v : Json}

theorem of_partOf (h : PartOf t d) : Outline at' t d := by
  induction h generalizing at' with
  | intro alike present _ ih =>
      exact .inner alike present fun s w v hw hv hnot => ih s w v hw hv hnot

/-- Where an outline is not itself at the end of a path, what lies one step into it is a hole or an
outline. -/
theorem step {s : Segment} {w : Json} (h : Outline at' t d) (here : ¬ at' [])
    (hw : t.step? s = some w) :
    ∃ u, d.step? s = some u ∧ (hole s w = true ∨ Outline (fun p => at' (s :: p)) w u) := by
  cases h with
  | place found => exact absurd found here
  | inner _ present inner =>
      obtain ⟨u, hu⟩ := present s w hw
      by_cases hhole : hole s w = true
      · exact ⟨u, hu, .inl hhole⟩
      · exact ⟨u, hu, .inr (inner s w u hw hu hhole)⟩

theorem of_step (alike : Alike t d)
    (steps : ∀ s w, t.step? s = some w →
      ∃ u, d.step? s = some u ∧ (hole s w = true ∨ Outline (fun p => at' (s :: p)) w u)) :
    Outline at' t d := by
  refine .inner alike (fun s w hw => ?_) fun s w v hw hv hnot => ?_
  · obtain ⟨u, hu, -⟩ := steps s w hw
    exact ⟨u, hu⟩
  · obtain ⟨u, hu, h⟩ := steps s w hw
    cases hv.symm.trans hu
    exact h.resolve_left hnot

/-- **Assigning an outline of what the other tree has at the path gives an outline**, also if there
was nothing yet to assign in. -/
theorem assign {p : Path} (bounded : p.Bounded) (ht : t = null ∨ Outline at' t d)
    (hd : d.walk? p = some u) (hv : Outline (fun q => at' (p ++ q)) v u) :
    Outline at' (Json.assign v p t).tree d := by
  induction p generalizing t d at' with
  | nil => cases hd; exact hv
  | cons s p ih =>
      obtain ⟨d', hd', hu⟩ := walk?_cons_eq_some.1 hd
      have alike := (admits_assign (v := v) (t := t) bounded).alike (admits_of_step? hd')
      by_cases here : at' []
      · exact .place here
      · have steps : ∀ s' w, t.step? s' = some w → ∃ x, d.step? s' = some x ∧
            (hole s' w = true ∨ Outline (fun p => at' (s' :: p)) w x) := by
          intro s' w hw
          rcases ht with rfl | ht
          · cases s' <;> cases hw
          · exact ht.step here hw
        refine of_step alike fun s' w hw => ?_
        by_cases same : s' = s
        · subst same
          rw [step?_assign_self bounded, Option.some.injEq] at hw
          refine ⟨d', hd', .inr (hw ▸ ih bounded.tail ?_ hu hv)⟩
          cases hold : t.step? s' with
          | none => exact .inl rfl
          | some old =>
              obtain ⟨d'', hd'', h⟩ := steps s' old hold
              cases hd'.symm.trans hd''
              exact h.imp (fun h => (hole_iff.1 h).1) id
        · rcases step?_assign_of_ne bounded same hw with hold | hhole
          · exact steps s' w hold
          · obtain ⟨rfl, i, j, rfl, rfl, hlt⟩ := hhole
            obtain ⟨x, hx⟩ := step?_of_lt hd' hlt
            exact ⟨x, hx, .inl rfl⟩

/-- **An outline whose values at the paths are partial copies is a partial copy.** -/
theorem partOf (h : Outline at' t d)
    (values : ∀ p v, at' p → t.walk? p = some v → ∃ u, d.walk? p = some u ∧ PartOf v u) :
    PartOf t d := by
  induction h with
  | @place at' t d here =>
      obtain ⟨u, hu, h⟩ := values [] t here rfl
      cases hu
      exact h
  | @inner at' t d alike present _ ih =>
      refine .intro alike present fun s w v hw hv hnot => ih s w v hw hv hnot fun p x hp hx => ?_
      obtain ⟨u, hu, h⟩ := values (s :: p) x hp (walk?_cons_eq_some.2 ⟨w, hw, hx⟩)
      obtain ⟨v', hv', hu⟩ := walk?_cons_eq_some.1 hu
      cases hv.symm.trans hv'
      exact ⟨u, hu, h⟩

end Outline

/-- **Assigning at a path a partial copy of what the other tree has there gives a partial copy.** -/
theorem PartOf.assign {t d v w : Json} {p : Path} (bounded : p.Bounded) (ht : PartOf t d)
    (hd : d.walk? p = some v) (hw : PartOf w v) : PartOf (Json.assign w p t).tree d := by
  have outline : Outline (fun _ => False) (Json.assign w p t).tree d :=
    .assign bounded (.inr (.of_partOf ht)) hd (.of_partOf hw)
  exact outline.partOf fun _ _ nowhere => nowhere.elim

end Stencil.Json
