import Stencil.Proofs.Json.Assign

/-!
# Paths that diverge, and places that a tree avoids

Two paths diverge if at the first step in which they differ both have a key or
both have an index.  Then neither is the beginning of the other, and one tree can
hold a value at the end of each.

A tree avoids a path if it holds nothing at its end and nothing that a merge or an
assignment along the path would have to replace: following the path through the
tree one meets containers that the steps can lead into, until a key or an index is
absent or a hole.  Merging keeps what lies at the end of a path when the other tree
avoids it, whichever of the two is the source (`walk?_merge_of_avoids`,
`walk?_merge_into_avoids`), and trees that avoid a path have a merge that avoids it
(`avoids_merge`).  An assignment keeps away from every path that diverges from its
own (`avoids_assign`).
-/

set_option autoImplicit false

namespace Stencil

namespace Path

/-- At the first step in which the paths differ both have a key or both have an index. -/
def Diverges : Path → Path → Prop
  | .key k :: p, .key l :: q => k = l → Diverges p q
  | .index i :: p, .index j :: q => i = j → Diverges p q
  | _, _ => False

instance decidableDiverges : (p q : Path) → Decidable (Diverges p q)
  | .key k :: p, .key l :: q =>
    have := decidableDiverges p q
    inferInstanceAs (Decidable (k = l → Diverges p q))
  | .index i :: p, .index j :: q =>
    have := decidableDiverges p q
    inferInstanceAs (Decidable (i = j → Diverges p q))
  | .key _ :: _, .index _ :: _ => isFalse id
  | .index _ :: _, .key _ :: _ => isFalse id
  | .key _ :: _, [] => isFalse id
  | .index _ :: _, [] => isFalse id
  | [], _ => isFalse id

theorem Diverges.symm {p q : Path} (h : Diverges p q) : Diverges q p := by
  fun_induction Diverges p q with
  | case1 k p l q ih => exact fun same => ih (h same.symm)
  | case2 i p j q ih => exact fun same => ih (h same.symm)
  | case3 => exact h.elim

/-- Behind a common step paths that diverge still diverge. -/
theorem Diverges.tail {s : Segment} {p q : Path} (h : Diverges (s :: p) (s :: q)) :
    Diverges p q := by
  cases s <;> exact h rfl

/-- A path does not diverge from its continuations. -/
theorem not_diverges_append (p rest : Path) : ¬ Diverges p (p ++ rest) := by
  induction p with
  | nil => cases rest <;> exact id
  | cons s p ih => exact fun h => ih h.tail

theorem not_diverges_self (p : Path) : ¬ Diverges p p := by
  simpa using not_diverges_append p []

/-- One of the paths is the beginning of the other. -/
def Overlaps (p q : Path) : Prop :=
  p <+: q ∨ q <+: p

theorem Diverges.not_overlaps {p q : Path} (h : Diverges p q) : ¬ Overlaps p q := by
  rintro (⟨rest, rfl⟩ | ⟨rest, rfl⟩)
  · exact not_diverges_append p rest h
  · exact not_diverges_append q rest h.symm

/-- The path starts with a key. -/
def Rooted : Path → Prop
  | .key _ :: _ => True
  | _ => False

instance : (p : Path) → Decidable p.Rooted
  | .key _ :: _ => isTrue trivial
  | .index _ :: _ => isFalse id
  | [] => isFalse id

/-- The path starts with an index. -/
def StartsWithIndex : Path → Prop
  | .index _ :: _ => True
  | _ => False

instance : (p : Path) → Decidable p.StartsWithIndex
  | .index _ :: _ => isTrue trivial
  | .key _ :: _ => isFalse id
  | [] => isFalse id

theorem rooted_of_not_startsWithIndex {p : Path} (hne : p ≠ []) (h : ¬ p.StartsWithIndex) :
    p.Rooted := by
  cases p with
  | nil => exact absurd rfl hne
  | cons s p =>
      cases s with
      | key k => trivial
      | index i => exact absurd trivial h

/-- The path starts with a key and has no index that is too large. -/
structure Assignable (p : Path) : Prop where
  rooted : p.Rooted
  bounded : p.Bounded

instance (p : Path) : Decidable p.Assignable :=
  decidable_of_iff (p.Rooted ∧ p.Bounded) ⟨fun h => ⟨h.1, h.2⟩, fun h => ⟨h.rooted, h.bounded⟩⟩

end Path

namespace Json

/-- The tree holds nothing along the path but containers that its steps can lead into, and these
come to an end before the path does. -/
def Avoids : Path → Json → Prop
  | [], _ => False
  | s :: p, t => t.Admits s ∧ ∀ w, t.step? s = some w → hole s w = true ∨ Avoids p w

theorem avoids_obj_nil {p : Path} (h : p.Rooted) : (obj []).Avoids p := by
  cases p with
  | nil => exact h.elim
  | cons s p =>
      cases s with
      | key k => exact ⟨trivial, fun w hw => by cases hw⟩
      | index i => exact h.elim

/-- In a tree that avoids the path the lenient lookup finds nothing, or a hole. -/
theorem get?_of_avoids {t w : Json} {p : Path} (avoids : t.Avoids p) (h : t.get? p = some w) :
    w = null := by
  induction p generalizing t with
  | nil => exact avoids.elim
  | cons s p ih =>
      obtain ⟨admits, steps⟩ := avoids
      obtain ⟨u, hu, hw⟩ := Option.bind_eq_some_iff.1 h
      rcases steps u (admits.child?_eq ▸ hu) with hhole | inner
      · obtain ⟨rfl, -⟩ := hole_iff.1 hhole
        cases p with
        | nil => cases hw; rfl
        | cons s' p => cases s' <;> simp [get?_cons, child?] at hw
      · exact ih inner hw

/-! ## Merging away from a path -/

/-- Merging a source that avoids the path keeps what lies at its end. -/
theorem walk?_merge_of_avoids {t s v : Json} {p : Path} (hs : s.WellFormed)
    (holds : t.walk? p = some v) (avoids : s.Avoids p) : (merge t s).walk? p = some v := by
  induction p generalizing t s with
  | nil => exact avoids.elim
  | cons seg p ih =>
      obtain ⟨old, hold, hv⟩ := walk?_cons_eq_some.1 holds
      obtain ⟨admits, steps⟩ := avoids
      refine walk?_cons_eq_some.2 ?_
      rw [step?_merge hs ((admits_of_step? hold).alike admits), hold]
      cases hnew : s.step? seg with
      | none => exact ⟨old, rfl, hv⟩
      | some new =>
          rcases steps new hnew with hhole | inner
          · exact ⟨old, by rw [overlay, if_pos hhole], hv⟩
          · have hkept : hole seg new ≠ true := fun hhole => by
              cases p with
              | nil => exact inner.elim
              | cons s' p =>
                  rw [(hole_iff.1 hhole).1] at inner
                  exact inner.1.elim
            exact ⟨merge old new, by rw [overlay, if_neg hkept],
              ih (hs.step? hnew) hv inner⟩

/-- Merging into a target that avoids the path gives what the source holds at its end. -/
theorem walk?_merge_into_avoids {t s v : Json} {p : Path} (hs : s.WellFormed)
    (avoids : t.Avoids p) (holds : s.walk? p = some v) : (merge t s).walk? p = some v := by
  induction p generalizing t s with
  | nil => exact avoids.elim
  | cons seg p ih =>
      obtain ⟨new, hnew, hv⟩ := walk?_cons_eq_some.1 holds
      obtain ⟨admits, steps⟩ := avoids
      refine walk?_cons_eq_some.2 ?_
      rw [step?_merge hs (admits.alike (admits_of_step? hnew)), hnew]
      cases hold : t.step? seg with
      | none => exact ⟨new, rfl, hv⟩
      | some old =>
          rcases steps old hold with hhole | inner
          · -- a hole of the target gives way, and if the source has a hole too it is the same one
            obtain ⟨rfl, -⟩ := hole_iff.1 hhole
            refine ⟨new, ?_, hv⟩
            rw [overlay, merge_null]
            split
            · next hboth => rw [(hole_iff.1 hboth).1]
            · rfl
          · have hkept : hole seg new ≠ true := fun hhole => by
              rw [(hole_iff.1 hhole).1] at hv
              cases p with
              | nil => exact inner.elim
              | cons s' p => cases s' <;> cases hv
            exact ⟨merge old new, by rw [overlay, if_neg hkept],
              ih (hs.step? hnew) inner hv⟩

theorem Admits.merge {t s : Json} {seg : Segment} (hs : s.Admits seg) :
    (Json.merge t s).Admits seg :=
  hs.of_alike (merge_alike t s).symm

/-- Trees that avoid a path have a merge that avoids it. -/
theorem avoids_merge {t s : Json} {p : Path} (hs : s.WellFormed) (ht : t.Avoids p)
    (avoids : s.Avoids p) : (merge t s).Avoids p := by
  induction p generalizing t s with
  | nil => exact avoids.elim
  | cons seg p ih =>
      obtain ⟨admits, steps⟩ := ht
      obtain ⟨admits', steps'⟩ := avoids
      refine ⟨admits'.merge, fun w hw => ?_⟩
      rw [step?_merge hs (admits.alike admits')] at hw
      cases hold : t.step? seg with
      | none =>
          rw [hold, overlay_none_left] at hw
          exact steps' w hw
      | some old =>
          cases hnew : s.step? seg with
          | none =>
              rw [hold, hnew] at hw
              exact steps w (hold.trans hw)
          | some new =>
              rw [hold, hnew, overlay, Option.some.injEq] at hw
              split at hw
              · exact hw ▸ steps old hold
              · next hnot =>
                have inner' := (steps' new hnew).resolve_left hnot
                subst hw
                rcases steps old hold with hhole | inner
                · rw [(hole_iff.1 hhole).1, merge_null]
                  exact .inr inner'
                · exact .inr (ih (hs.step? hnew) inner inner')

/-! ## Assigning away from a path -/

/-- Paths that diverge start with steps of the same kind. -/
theorem Admits.of_diverges {t : Json} {s s' : Segment} {p q : Path} (h : t.Admits s)
    (apart : Path.Diverges (s :: p) (s' :: q)) : t.Admits s' := by
  cases s <;> cases s' <;> cases t <;> simp_all [Admits, Path.Diverges]

/-- An assignment in a tree that avoids the path, or in none, avoids the path if its own path
diverges from it. -/
theorem avoids_assign {v t : Json} {p q : Path} (bounded : p.Bounded) (apart : p.Diverges q)
    (avoids : t = null ∨ t.Avoids q) : (assign v p t).tree.Avoids q := by
  induction p generalizing t q with
  | nil => cases q <;> exact apart.elim
  | cons s p ih =>
      cases q with
      | nil => cases s <;> exact apart.elim
      | cons s' q =>
          refine ⟨(admits_assign bounded).of_diverges apart, fun w hw => ?_⟩
          by_cases same : s' = s
          · subst same
            rw [step?_assign_self bounded, Option.some.injEq] at hw
            subst hw
            refine .inr (ih bounded.tail apart.tail ?_)
            rcases avoids with rfl | ⟨-, steps⟩
            · cases s' <;> exact .inl rfl
            · cases hold : t.step? s' with
              | none => exact .inl rfl
              | some old => exact (steps old hold).imp (fun h => (hole_iff.1 h).1) id
          · rcases step?_assign_of_ne bounded same hw with hold | hhole
            · rcases avoids with rfl | ⟨-, steps⟩
              · cases s' <;> cases hold
              · exact steps w hold
            · obtain ⟨rfl, i, j, -, rfl, -⟩ := hhole
              exact .inl rfl

/-- An assignment keeps what lies at the end of a path that diverges from its own. -/
theorem walk?_assign_of_diverges {v t w : Json} {p q : Path} (bounded : p.Bounded)
    (apart : p.Diverges q) (holds : t.walk? q = some w) :
    (assign v p t).tree.walk? q = some w := by
  induction p generalizing t q with
  | nil => cases q <;> exact apart.elim
  | cons s p ih =>
      cases q with
      | nil => cases s <;> exact apart.elim
      | cons s' q =>
          obtain ⟨u, hu, hw⟩ := walk?_cons_eq_some.1 holds
          refine walk?_cons_eq_some.2 ?_
          by_cases same : s' = s
          · subst same
            refine ⟨_, step?_assign_self bounded, ?_⟩
            rw [hu]
            exact ih bounded.tail apart.tail hw
          · have admits : t.Admits s := (admits_of_step? hu).of_diverges apart.symm
            exact ⟨u, step?_assign_of_step? bounded same admits hu, hw⟩

end Json

end Stencil
