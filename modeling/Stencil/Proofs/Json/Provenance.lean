import Stencil.Proofs.Json.Overwrite

/-!
# Where the scalars of a merge come from

A merge keeps what it should and invents nothing.  Every scalar of the source is in the
merge, at its place, and every scalar of the merge is that of the source or of the
target at the same place (`walk?_merge_scalar`).  Null is left out of this, since in an
array it may stand for no value.

A scalar of the target can get lost, but only for a reason: at its place or somewhere on
the way to it the source displaces what the target has.  There the source has a value
that is no null among the elements of an array, and the two trees are not both objects
or both arrays, so that merging cannot go on inside them (`Displaces`).  At such a place
the merge is what the source is.
-/

set_option autoImplicit false

namespace Stencil.Json

variable {t s v : Json} {seg : Segment} {p : Path}

/-- Both are objects, or both are arrays, so merging goes on inside them. -/
def Joins : Json → Json → Prop
  | obj _, obj _ => True
  | arr _, arr _ => True
  | _, _ => False

theorem Joins.alike {v w : Json} (h : Joins v w) : Alike v w := by
  cases v <;> cases w <;> first | exact h.elim | trivial

theorem Joins.not_isScalar {v w : Json} (h : Joins v w) : ¬ v.IsScalar := by
  cases v <;> cases w <;> first | exact h.elim | exact id

/-- Where merging does not go on inside, the source wins. -/
theorem merge_of_not_joins {v w : Json} (h : ¬ Joins v w) : merge v w = w := by
  cases v <;> cases w <;> first | exact absurd trivial h | rfl

theorem IsScalar.of_alike {v w : Json} (hv : v.IsScalar) (alike : Alike v w) : w.IsScalar := by
  cases v <;> cases w <;> first | exact hv.elim | exact alike.elim | trivial

/-- The value is null and an element of an array, if it lies at the end of the path. -/
def IsGap (p : Path) (v : Json) : Prop :=
  v = null ∧ ∃ i, p.getLast? = some (.index i)

theorem isGap_singleton : IsGap [seg] v ↔ hole seg v = true := by
  rw [hole_iff, IsGap, List.getLast?_singleton]
  simp only [Option.some.injEq]

theorem isGap_cons_cons {seg' : Segment} : IsGap (seg :: seg' :: p) v ↔ IsGap (seg' :: p) v := by
  rw [IsGap, IsGap, List.getLast?_cons_cons]

/-- At the end of the path the source has a value other than a null among elements, and what the
target has there cannot take it in. -/
def Displaces (p : Path) (t s : Json) : Prop :=
  ∃ old new, t.walk? p = some old ∧ s.walk? p = some new ∧ ¬ IsGap p new ∧ ¬ Joins old new

theorem not_isGap_nil : ¬ IsGap [] v := by
  rintro ⟨-, i, hi⟩
  cases hi

theorem displaces_nil (h : ¬ Joins t s) : Displaces [] t s :=
  ⟨t, s, rfl, rfl, not_isGap_nil, h⟩

theorem Displaces.cons {old new : Json} (hold : t.step? seg = some old)
    (hnew : s.step? seg = some new) (notHole : hole seg new ≠ true) (h : Displaces p old new) :
    Displaces (seg :: p) t s := by
  obtain ⟨u, w, hu, hw, notGap, notJoins⟩ := h
  refine ⟨u, w, walk?_cons_eq_some.2 ⟨old, hold, hu⟩, walk?_cons_eq_some.2 ⟨new, hnew, hw⟩, ?_,
    notJoins⟩
  cases p with
  | nil =>
      cases hw
      exact fun gap => notHole (isGap_singleton.1 gap)
  | cons seg' p => exact fun gap => notGap (isGap_cons_cons.1 gap)

/-! ## Scalars of the merge -/

/-- **A scalar of the merge is that of the source or of the target at its place.** -/
theorem walk?_of_walk?_merge (hs : s.WellFormed) (scalar : v.IsScalar)
    (holds : (merge t s).walk? p = some v) : s.walk? p = some v ∨ t.walk? p = some v := by
  induction p generalizing t s with
  | nil =>
      cases holds
      have hscalar : s.IsScalar := scalar.of_alike (merge_alike t s)
      exact .inl (congrArg some (merge_scalar t hscalar).symm)
  | cons seg p ih =>
      by_cases joins : Joins t s
      · obtain ⟨u, hu, hv⟩ := walk?_cons_eq_some.1 holds
        rw [step?_merge hs joins.alike] at hu
        cases hnew : s.step? seg with
        | none =>
            rw [hnew, overlay_none_right] at hu
            exact .inr (walk?_cons_eq_some.2 ⟨u, hu, hv⟩)
        | some new =>
            cases hold : t.step? seg with
            | none =>
                rw [hold, hnew, overlay_none_left] at hu
                exact .inl (walk?_cons_eq_some.2 ⟨u, hnew.trans hu, hv⟩)
            | some old =>
                rw [hold, hnew, overlay, Option.some.injEq] at hu
                subst hu
                split at hv
                · exact .inr (walk?_cons_eq_some.2 ⟨old, hold, hv⟩)
                · exact (ih (hs.step? hnew) hv).imp
                    (fun h => walk?_cons_eq_some.2 ⟨new, hnew, h⟩)
                    (fun h => walk?_cons_eq_some.2 ⟨old, hold, h⟩)
      · rw [merge_of_not_joins joins] at holds
        exact .inl holds

/-! ## Scalars of the target -/

/-- **A scalar of the target that the merge does not hold was displaced by the source.** -/
theorem exists_displaces (hs : s.WellFormed) (scalar : v.IsScalar) (holds : t.walk? p = some v)
    (lost : (merge t s).walk? p ≠ some v) : ∃ q, q <+: p ∧ Displaces q t s := by
  induction p generalizing t s with
  | nil =>
      cases holds
      exact ⟨[], List.nil_prefix, displaces_nil fun joins => joins.not_isScalar scalar⟩
  | cons seg p ih =>
      by_cases joins : Joins t s
      · obtain ⟨old, hold, hv⟩ := walk?_cons_eq_some.1 holds
        have hstep := step?_merge hs joins.alike seg
        cases hnew : s.step? seg with
        | none =>
            rw [hold, hnew] at hstep
            exact absurd (walk?_cons_eq_some.2 ⟨old, hstep, hv⟩) lost
        | some new =>
            rw [hold, hnew, overlay] at hstep
            split at hstep
            · exact absurd (walk?_cons_eq_some.2 ⟨old, hstep, hv⟩) lost
            · next notHole =>
              have lostInside : (merge old new).walk? p ≠ some v := fun h =>
                lost (walk?_cons_eq_some.2 ⟨_, hstep, h⟩)
              obtain ⟨q, hq, displaces⟩ := ih (hs.step? hnew) hv lostInside
              exact ⟨seg :: q, (List.prefix_cons_inj seg).2 hq, displaces.cons hold hnew notHole⟩
      · exact ⟨[], List.nil_prefix, displaces_nil joins⟩

/-- **A merge keeps the scalars of its source, has no scalar that neither side has, and loses one of
the target only where the source displaces it**, at its place or on the way there. -/
theorem walk?_merge_scalar (t : Json) {s : Json} (hs : s.WellFormed) (p : Path) {v : Json}
    (scalar : v.IsScalar) (solid : v ≠ null) :
    (s.walk? p = some v → (merge t s).walk? p = some v) ∧
      ((merge t s).walk? p = some v → s.walk? p = some v ∨ t.walk? p = some v) ∧
      (t.walk? p = some v → (merge t s).walk? p ≠ some v → ∃ q, q <+: p ∧ Displaces q t s) :=
  ⟨walk?_merge_of_prevails hs ⟨scalar, fun hnull => absurd hnull solid⟩,
    walk?_of_walk?_merge hs scalar, exists_displaces hs scalar⟩

/-- Two rows, the last of which has a part. -/
def twoRows : Json :=
  obj [("rows", arr [.str "a", obj [("part", .str "b")]])]

/-- Nothing for the first row and a text for the second. -/
def lastRow : Json :=
  obj [("rows", arr [null, .str "c"])]

theorem walk?_merge_scalar_lastRow :
    lastRow.WellFormed ∧ (str "b").IsScalar ∧ str "b" ≠ null ∧
      twoRows.walk? [.key "rows", .index 1, .key "part"] = some (.str "b") ∧
      (merge twoRows lastRow).walk? [.key "rows", .index 1, .key "part"] ≠ some (.str "b") ∧
      ∃ q, q <+: [.key "rows", .index 1, .key "part"] ∧ Displaces q twoRows lastRow := by
  have wf : lastRow.WellFormed := by simp [lastRow, WellFormed, WellFormedItems]
  have solid : str "b" ≠ null := by simp
  have lost : (merge twoRows lastRow).walk? [.key "rows", .index 1, .key "part"] ≠ some (.str "b") := by
    simp [twoRows, lastRow, mergeFields, mergeItems, putKey, walk?, step?, isNull, merge]
  obtain ⟨-, -, displaced⟩ :=
    walk?_merge_scalar twoRows wf [.key "rows", .index 1, .key "part"] (v := .str "b") trivial solid
  exact ⟨wf, trivial, solid, rfl, lost, displaced rfl lost⟩

end Stencil.Json
