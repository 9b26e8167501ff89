import Stencil.Proofs.Path.Diverge

/-!
# What a merge puts at the end of a path

A tree is vacant at a path if it has nothing there, or null.  What the source of a
merge holds at such a place is what the merge holds there, whatever the target has
on the way (`walk?_merge_of_vacant`).

At a place that is not vacant the source must prevail by itself.  A scalar does,
since it is never merged with anything.  The one exception is a null at an index,
which a merge takes for a hole (`walk?_merge_of_prevails`): the target keeps what it
has there (`walk?_merge_of_hole`).  A null under a key is no exception.

Nothing comes from nowhere: a place at which both sides of a merge are vacant is
vacant in the merge (`vacant_merge`), and an assignment fills no place but those on
its path and those inside the value (`vacant_assign`).
-/

set_option autoImplicit false

namespace Stencil

/-- The path ends with a key. -/
def Path.EndsWithKey (p : Path) : Prop :=
  ∃ k, p.getLast? = some (.key k)

instance (p : Path) : Decidable p.EndsWithKey :=
  match h : p.getLast? with
  | some (.key k) => isTrue ⟨k, h⟩
  | some (.index i) => isFalse fun ⟨k, hk⟩ => by rw [h] at hk; cases hk
  | none => isFalse fun ⟨k, hk⟩ => by rw [h] at hk; cases hk

theorem Path.EndsWithKey.tail {s s' : Segment} {p : Path}
    (h : Path.EndsWithKey (s :: s' :: p)) : Path.EndsWithKey (s' :: p) := by
  simpa only [EndsWithKey, List.getLast?_cons_cons] using h

theorem Path.not_endsWithKey_index (i : Nat) : ¬ Path.EndsWithKey [.index i] := by
  rintro ⟨k, hk⟩
  cases hk

namespace Json

/-- The tree is neither an array nor an object. -/
def IsScalar : Json → Prop
  | arr _ => False
  | obj _ => False
  | _ => True

instance : (v : Json) → Decidable v.IsScalar
  | arr _ => isFalse id
  | obj _ => isFalse id
  | null => isTrue trivial
  | bool _ => isTrue trivial
  | num _ => isTrue trivial
  | str _ => isTrue trivial

/-- The tree has nothing at the end of the path, or null. -/
def Vacant (p : Path) (t : Json) : Prop :=
  ∀ w, t.walk? p = some w → w = null

/-- A merge puts the value at the end of the path whatever the target has there: the value is a
scalar, and it is not null at an index. -/
structure Prevails (p : Path) (v : Json) : Prop where
  scalar : v.IsScalar
  noHole : v = null → p.EndsWithKey

theorem vacant_obj_nil {p : Path} (h : p ≠ []) : (obj []).Vacant p := by
  cases p with
  | nil => exact absurd rfl h
  | cons s p => intro w hw; cases s <;> cases hw

theorem Vacant.step? {t w : Json} {s : Segment} {p : Path} (h : t.Vacant (s :: p))
    (hw : t.step? s = some w) : w.Vacant p :=
  fun u hu => h u (walk?_cons_eq_some.2 ⟨w, hw, hu⟩)

/-- From null a walk arrives only where it starts. -/
theorem walk?_null {p : Path} {w : Json} (h : null.walk? p = some w) : p = [] ∧ w = null := by
  cases p with
  | nil => cases h; exact ⟨rfl, rfl⟩
  | cons s p => cases s <;> cases h

theorem merge_scalar {v : Json} (t : Json) (h : v.IsScalar) : merge t v = v := by
  cases v <;> first | exact h.elim | cases t <;> rfl

/-! ## The value of the source -/

/-- **At a vacant place a merge holds what its source holds there.** -/
theorem walk?_merge_of_vacant {t s v : Json} {p : Path} (hs : s.WellFormed)
    (vacant : t.Vacant p) (holds : s.walk? p = some v) : (merge t s).walk? p = some v := by
  induction p generalizing t s with
  | nil =>
      cases vacant t rfl
      rw [merge_null]
      exact holds
  | cons seg p ih =>
      by_cases alike : Alike t s
      · obtain ⟨new, hnew, hv⟩ := walk?_cons_eq_some.1 holds
        refine walk?_cons_eq_some.2 ?_
        rw [step?_merge hs alike, hnew]
        cases hold : t.step? seg with
        | none => exact ⟨new, rfl, hv⟩
        | some old =>
            have vacantOld : old.Vacant p := vacant.step? hold
            by_cases hhole : hole seg new = true
            · -- the source has a hole at the very place, and there the target has null too
              obtain ⟨rfl, -⟩ := hole_iff.1 hhole
              obtain ⟨rfl, rfl⟩ := walk?_null hv
              exact ⟨old, by rw [overlay, if_pos hhole], by rw [vacantOld old rfl]; rfl⟩
            · exact ⟨merge old new, by rw [overlay, if_neg hhole],
                ih (hs.step? hnew) vacantOld hv⟩
      · rw [merge_of_not_alike alike]
        exact holds

/-- **A merge holds a scalar of its source, whatever the target has, unless it is null at an
index.** -/
theorem walk?_merge_of_prevails {t s v : Json} {p : Path} (hs : s.WellFormed)
    (prevails : Prevails p v) (holds : s.walk? p = some v) : (merge t s).walk? p = some v := by
  induction p generalizing t s with
  | nil =>
      cases holds
      exact congrArg some (merge_scalar t prevails.scalar)
  | cons seg p ih =>
      by_cases alike : Alike t s
      · obtain ⟨new, hnew, hv⟩ := walk?_cons_eq_some.1 holds
        have notHole : hole seg new ≠ true := fun hhole => by
          obtain ⟨rfl, i, rfl⟩ := hole_iff.1 hhole
          obtain ⟨rfl, rfl⟩ := walk?_null hv
          exact Path.not_endsWithKey_index i (prevails.noHole rfl)
        refine walk?_cons_eq_some.2 ?_
        rw [step?_merge hs alike, hnew]
        cases hold : t.step? seg with
        | none => exact ⟨new, rfl, hv⟩
        | some old =>
            refine ⟨merge old new, by rw [overlay, if_neg notHole], ?_⟩
            cases p with
            | nil =>
                cases hv
                exact congrArg some (merge_scalar old prevails.scalar)
            | cons s' p =>
                exact ih (hs.step? hnew) ⟨prevails.scalar, fun h => (prevails.noHole h).tail⟩ hv
      · rw [merge_of_not_alike alike]
        exact holds

/-! ## The value of the target -/

/-- **A null at an index leaves what the target has there.** -/
theorem walk?_merge_of_hole {t s w : Json} {p : Path} (hs : s.WellFormed) (hp : p ≠ [])
    (index : ¬ p.EndsWithKey) (hole : s.walk? p = some null) (holds : t.walk? p = some w) :
    (merge t s).walk? p = some w := by
  induction p generalizing t s with
  | nil => exact absurd rfl hp
  | cons seg p ih =>
      obtain ⟨new, hnew, hnull⟩ := walk?_cons_eq_some.1 hole
      obtain ⟨old, hold, hw⟩ := walk?_cons_eq_some.1 holds
      have alike : Alike t s := (admits_of_step? hold).alike (admits_of_step? hnew)
      refine walk?_cons_eq_some.2 ?_
      rw [step?_merge hs alike, hold, hnew]
      cases p with
      | nil =>
          cases hnull
          cases seg with
          | key k => exact absurd ⟨k, rfl⟩ index
          | index i => exact ⟨old, by rw [overlay, if_pos (by rfl)], hw⟩
      | cons s' p =>
          have notHole : Json.hole seg new ≠ true := by
            intro hhole
            obtain ⟨rfl, -⟩ := hole_iff.1 hhole
            cases (walk?_null hnull).1
          have indexTail : ¬ Path.EndsWithKey (s' :: p) := by
            rintro ⟨k, hk⟩
            exact index ⟨k, by rw [List.getLast?_cons_cons, hk]⟩
          exact ⟨merge old new, by rw [overlay, if_neg notHole],
            ih (hs.step? hnew) (List.cons_ne_nil _ _) indexTail hnull hw⟩

/-! ## Vacant places -/

theorem vacant_null (p : Path) : null.Vacant p :=
  fun _ hw => (walk?_null hw).2

/-- **A merge has nothing at a place where neither of its two sides has anything.** -/
theorem vacant_merge {t s : Json} {p : Path} (hs : s.WellFormed) (ht : t.Vacant p)
    (vacant : s.Vacant p) : (merge t s).Vacant p := by
  induction p generalizing t s with
  | nil =>
      cases vacant s rfl
      intro w hw
      cases hw
      exact alike_null.1 (merge_alike t null)
  | cons seg p ih =>
      by_cases alike : Alike t s
      · intro w hw
        obtain ⟨u, hu, hw⟩ := walk?_cons_eq_some.1 hw
        rw [step?_merge hs alike] at hu
        cases hnew : s.step? seg with
        | none =>
            rw [hnew, overlay_none_right] at hu
            exact ht.step? hu w hw
        | some new =>
            have vacantNew : new.Vacant p := vacant.step? hnew
            cases hold : t.step? seg with
            | none =>
                rw [hold, hnew, overlay_none_left] at hu
                cases hu
                exact vacantNew w hw
            | some old =>
                rw [hold, hnew, overlay, Option.some.injEq] at hu
                subst hu
                split at hw
                · exact ht.step? hold w hw
                · exact ih (hs.step? hnew) (ht.step? hold) vacantNew w hw
      · rw [merge_of_not_alike alike]
        exact vacant

/-- Parts that have nothing at a place, merged one after the other, leave it vacant. -/
theorem Vacant.foldl_merge {t : Json} {parts : List Json} {p : Path} (ht : t.Vacant p)
    (hparts : ∀ part ∈ parts, part.WellFormed ∧ part.Vacant p) :
    (parts.foldl merge t).Vacant p := by
  refine List.foldlRecOn parts merge ht fun t ht part hpart => ?_
  obtain ⟨hwf, vacant⟩ := hparts part hpart
  exact vacant_merge hwf ht vacant

/-- **An assignment leaves a place vacant that lies neither on its path nor behind it.** -/
theorem vacant_assign {v t : Json} {p q : Path} (bounded : p.Bounded) (off : ¬ p.Overlaps q)
    (vacant : t.Vacant q) : (assign v p t).tree.Vacant q := by
  induction p generalizing t q with
  | nil => exact absurd (.inl List.nil_prefix) off
  | cons s p ih =>
      cases q with
      | nil => exact absurd (.inr List.nil_prefix) off
      | cons s' q =>
          intro w hw
          obtain ⟨u, hu, hw⟩ := walk?_cons_eq_some.1 hw
          by_cases same : s' = s
          · subst same
            have offTail : ¬ Path.Overlaps p q := fun h => off (h.imp
              (fun h => List.cons_prefix_cons.2 ⟨rfl, h⟩)
              (fun h => List.cons_prefix_cons.2 ⟨rfl, h⟩))
            rw [step?_assign_self bounded, Option.some.injEq] at hu
            subst hu
            refine ih bounded.tail offTail ?_ w hw
            cases hold : t.step? s' with
            | none => exact vacant_null q
            | some old => exact vacant.step? hold
          · rcases step?_assign_of_ne bounded same hu with hold | ⟨rfl, -⟩
            · exact vacant.step? hold w hw
            · exact vacant_null q w hw

end Json

end Stencil
