import Stencil.Proofs.Json.Assign

/-!
# Partial copies

A tree is a partial copy of another if it can be completed to it: the two are
alike, and whatever lies one step into the copy is a hole where the other has
something, or is itself a partial copy of what lies there.  A hole is told apart
from a null of the other tree by its place only: a null that the copy has under a
key must be there, one that it has at an index need not.

Copies are ordered by what they leave out.  Trees that are partial copies of each
other are the same value (`PartOf.antisymm`), and the merge of partial copies of
one tree is their least upper bound: it is a partial copy of that tree
(`PartOf.merge`), and both are partial copies of it (`PartOf.le_merge_left`,
`PartOf.le_merge_right`).  So whatever has been recovered of a tree stays recovered
while more of it is merged in, in any order.
-/

set_option autoImplicit false

namespace Stencil.Json

/-- The tree becomes the other one if it is completed at places where it has nothing or a hole. -/
inductive PartOf : Json → Json → Prop where
  | intro {t d : Json} (alike : Alike t d)
      (present : ∀ s w, t.step? s = some w → ∃ v, d.step? s = some v)
      (inner : ∀ s w v, t.step? s = some w → d.step? s = some v → hole s w ≠ true → PartOf w v) :
      PartOf t d

namespace PartOf

variable {t s d u v w : Json}

theorem alike (h : PartOf t d) : Alike t d := by
  cases h with
  | intro alike _ _ => exact alike

/-- What lies one step into a partial copy is a hole or a partial copy. -/
theorem step {seg : Segment} (h : PartOf t d) (hw : t.step? seg = some w) :
    ∃ v, d.step? seg = some v ∧ (hole seg w = true ∨ PartOf w v) := by
  cases h with
  | intro _ present inner =>
      obtain ⟨v, hv⟩ := present seg w hw
      by_cases hhole : hole seg w = true
      · exact ⟨v, hv, .inl hhole⟩
      · exact ⟨v, hv, .inr (inner seg w v hw hv hhole)⟩

theorem of_step (alike : Alike t d)
    (steps : ∀ seg w, t.step? seg = some w →
      ∃ v, d.step? seg = some v ∧ (hole seg w = true ∨ PartOf w v)) : PartOf t d := by
  refine .intro alike (fun seg w hw => ?_) fun seg w v hw hv hnot => ?_
  · obtain ⟨v, hv, -⟩ := steps seg w hw
    exact ⟨v, hv⟩
  · obtain ⟨v', hv', h⟩ := steps seg w hw
    cases hv.symm.trans hv'
    exact h.resolve_left hnot

theorem refl (t : Json) : PartOf t t := by
  induction t using stepInduction with
  | step t ih => exact of_step (.refl t) fun seg w hw => ⟨w, hw, .inr (ih seg w hw)⟩

/-- A tree that is alike to a hole is a hole. -/
theorem hole_of_alike {seg : Segment} (h : Alike w v) (hv : hole seg v = true) :
    hole seg w = true := by
  obtain ⟨rfl, hseg⟩ := hole_iff.1 hv
  exact hole_iff.2 ⟨alike_null.1 h, hseg⟩

theorem trans (htd : PartOf t d) (hdu : PartOf d u) : PartOf t u := by
  induction htd generalizing u with
  | @intro t d alike present inner ih =>
      refine of_step (alike.trans hdu.alike) fun seg w hw => ?_
      obtain ⟨v, hv⟩ := present seg w hw
      obtain ⟨x, hx, h⟩ := hdu.step hv
      refine ⟨x, hx, ?_⟩
      by_cases hhole : hole seg w = true
      · exact .inl hhole
      · rcases h with hv' | hvx
        · exact .inl (hole_of_alike (inner seg w v hw hv hhole).alike hv')
        · exact .inr (ih seg w v hw hv hhole hvx)

/-- The same value is a partial copy. -/
theorem of_same (ht : t.WellFormed) (hd : d.WellFormed) (h : t.same d = true) : PartOf t d := by
  induction t using stepInduction generalizing d with
  | step t ih =>
      obtain ⟨alike, steps⟩ := (same_iff ht hd).1 h
      refine of_step alike fun seg w hw => ?_
      have hseg := steps seg
      rw [hw] at hseg
      cases hv : d.step? seg with
      | none => rw [hv] at hseg; exact hseg.elim
      | some v =>
          rw [hv] at hseg
          exact ⟨v, rfl, .inr (ih seg w hw (ht.step? hw) (hd.step? hv) hseg)⟩

/-- **Trees that are partial copies of each other are the same value.** -/
theorem antisymm (ht : t.WellFormed) (hd : d.WellFormed) (htd : PartOf t d) (hdt : PartOf d t) :
    t.same d = true := by
  induction htd with
  | @intro t d alike present inner ih =>
      refine (same_iff ht hd).2 ⟨alike, fun seg => ?_⟩
      cases hw : t.step? seg with
      | none =>
          cases hv : d.step? seg with
          | none => trivial
          | some v =>
              obtain ⟨w, hw', -⟩ := hdt.step hv
              cases hw.symm.trans hw'
      | some w =>
          obtain ⟨v, hv⟩ := present seg w hw
          rw [hv]
          obtain ⟨w', hw', h⟩ := hdt.step hv
          cases hw.symm.trans hw'
          show w.same v = true
          by_cases hhole : hole seg w = true
          · -- the other tree has a hole there too, so both have null
            obtain ⟨rfl, -⟩ := hole_iff.1 hhole
            have hnull : v = null := h.elim (fun hv => (hole_iff.1 hv).1) fun hvw =>
              alike_null.1 hvw.alike
            subst hnull
            rfl
          · have hvw := h.resolve_left fun hv' =>
              hhole (hole_of_alike (inner seg w v hw hv hhole).alike hv')
            exact ih seg w v hw hv hhole (ht.step? hw) (hd.step? hv) hvw

/-- Where a walk in a partial copy arrives, a walk in the other tree arrives, and what it finds in
the copy is null or a partial copy. -/
theorem walk {p : Path} (h : PartOf t d) (hw : t.walk? p = some w) :
    ∃ v, d.walk? p = some v ∧ (w = null ∨ PartOf w v) := by
  induction p generalizing t d with
  | nil => cases hw; exact ⟨d, rfl, .inr h⟩
  | cons seg p ih =>
      obtain ⟨t', ht', hw⟩ := walk?_cons_eq_some.1 hw
      obtain ⟨d', hd', hhole | hpart⟩ := h.step ht'
      · rw [(hole_iff.1 hhole).1] at hw
        cases p with
        | nil =>
            cases hw
            exact ⟨d', walk?_cons_eq_some.2 ⟨d', hd', rfl⟩, .inl rfl⟩
        | cons seg' p => cases seg' <;> cases hw
      · obtain ⟨v, hv, hwv⟩ := ih hpart hw
        exact ⟨v, walk?_cons_eq_some.2 ⟨d', hd', hv⟩, hwv⟩

/-! ## Merging partial copies of one tree -/

/-- **The merge of partial copies is a partial copy.** -/
theorem merge (hs : s.WellFormed) (htd : PartOf t d) (hsd : PartOf s d) :
    PartOf (t.merge s) d := by
  induction htd generalizing s with
  | @intro t d alike present inner ih =>
      have hts : Alike t s := alike.trans hsd.alike.symm
      refine of_step ((merge_alike t s).trans hsd.alike) fun seg w hw => ?_
      rw [step?_merge hs hts] at hw
      cases hold : t.step? seg with
      | none =>
          rw [hold, overlay_none_left] at hw
          exact hsd.step hw
      | some old =>
          obtain ⟨v, hv⟩ := present seg old hold
          refine ⟨v, hv, ?_⟩
          have hleft : hole seg old = true ∨ PartOf old v :=
            or_iff_not_imp_left.2 fun hnot => inner seg old v hold hv hnot
          cases hnew : s.step? seg with
          | none =>
              rw [hold, hnew] at hw
              cases hw
              exact hleft
          | some new =>
              obtain ⟨v', hv', hright⟩ := hsd.step hnew
              cases hv.symm.trans hv'
              rw [hold, hnew, overlay, Option.some.injEq] at hw
              split at hw
              · exact hw ▸ hleft
              · next hnot =>
                subst hw
                have hnewv := hright.resolve_left hnot
                by_cases hhole : hole seg old = true
                · rw [(hole_iff.1 hhole).1, merge_null]
                  exact .inr hnewv
                · exact .inr (ih seg old v hold hv hhole (hs.step? hnew) hnewv)

/-- A partial copy is one of its merge with another partial copy. -/
theorem le_merge_left (hs : s.WellFormed) (htd : PartOf t d) (hsd : PartOf s d) :
    PartOf t (t.merge s) := by
  induction htd generalizing s with
  | @intro t d alike present inner ih =>
      have hts : Alike t s := alike.trans hsd.alike.symm
      refine of_step (hts.trans (merge_alike t s).symm) fun seg old hold => ?_
      rw [step?_merge hs hts, hold]
      by_cases hhole : hole seg old = true
      · cases s.step? seg <;> exact ⟨_, rfl, .inl hhole⟩
      · cases hnew : s.step? seg with
        | none => exact ⟨old, rfl, .inr (refl old)⟩
        | some new =>
            obtain ⟨v, hv⟩ := present seg old hold
            obtain ⟨v', hv', hright⟩ := hsd.step hnew
            cases hv.symm.trans hv'
            refine ⟨_, rfl, .inr ?_⟩
            split
            · exact refl old
            · next hnot =>
              exact ih seg old v hold hv hhole (hs.step? hnew) (hright.resolve_left hnot)

/-- A partial copy is one of the merge of another partial copy with it. -/
theorem le_merge_right (hs : s.WellFormed) (htd : PartOf t d) (hsd : PartOf s d) :
    PartOf s (t.merge s) := by
  induction htd generalizing s with
  | @intro t d alike present inner ih =>
      have hts : Alike t s := alike.trans hsd.alike.symm
      refine of_step (merge_alike t s).symm fun seg new hnew => ?_
      rw [step?_merge hs hts, hnew]
      cases hold : t.step? seg with
      | none => exact ⟨new, rfl, .inr (refl new)⟩
      | some old =>
          refine ⟨_, rfl, ?_⟩
          split
          · next hhole => exact .inl hhole
          · next hnot =>
            obtain ⟨v, hv⟩ := present seg old hold
            obtain ⟨v', hv', hright⟩ := hsd.step hnew
            cases hv.symm.trans hv'
            by_cases hhole : hole seg old = true
            · rw [(hole_iff.1 hhole).1, merge_null]
              exact .inr (refl new)
            · exact .inr
                (ih seg old v hold hv hhole (hs.step? hnew) (hright.resolve_left hnot))

/-- **Merging a partial copy into its tree changes nothing.** -/
theorem merge_same (hs : s.WellFormed) (hd : d.WellFormed) (hsd : PartOf s d) :
    (d.merge s).same d = true :=
  antisymm (wellFormed_merge hd hs) hd ((refl d).merge hs hsd) (le_merge_left hs (refl d) hsd)

/-- A tree of which something is a partial copy keeps it while partial copies are merged in. -/
theorem foldl_merge {parts : List Json} (ht : PartOf t d)
    (hparts : ∀ part ∈ parts, part.WellFormed ∧ PartOf part d) :
    PartOf (parts.foldl Json.merge t) d ∧ PartOf t (parts.foldl Json.merge t) ∧
      ∀ part ∈ parts, PartOf part (parts.foldl Json.merge t) := by
  induction parts generalizing t with
  | nil => exact ⟨ht, refl t, by simp⟩
  | cons part parts ih =>
      obtain ⟨⟨hwf, hpart⟩, hrest⟩ := List.forall_mem_cons.1 hparts
      obtain ⟨hbelow, hkept, hall⟩ := ih (ht.merge hwf hpart) hrest
      refine ⟨hbelow, (le_merge_left hwf ht hpart).trans hkept,
        List.forall_mem_cons.2 ⟨(le_merge_right hwf ht hpart).trans hkept, hall⟩⟩

end PartOf

end Stencil.Json
