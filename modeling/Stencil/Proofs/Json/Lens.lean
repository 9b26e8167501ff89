import Stencil.Proofs.Json.Put

/-!
# Looking up and assigning as a lens

What was assigned is what the lookup finds, and the second of two assignments at one
path wins, whatever the tree.  A lookup along a diverging path is not disturbed either
if the tree suits the path, that is if an assignment finds no container of the wrong
kind on its way (`assign_lens`).  A container of the wrong kind would give way, and
all that it holds would be lost.

The remaining law, that assigning what the lookup found changes nothing, holds exactly
where the lookup was strict (`assign_found_iff`).  A lookup takes a key for an index in
an array and an index for a key in an object, while an assignment replaces the array
or the object.
-/

set_option autoImplicit false

namespace Stencil.Json

variable {t u v w : Json} {s s' : Segment} {p q : Path}

/-- Every container that one meets on the path is one that the next step can lead into. -/
def Suits : Path → Json → Prop
  | [], _ => True
  | s :: p, t => (t.IsScalar ∨ t.Admits s) ∧ ∀ w, t.step? s = some w → Suits p w

theorem suits_null (p : Path) : null.Suits p := by
  cases p with
  | nil => trivial
  | cons s p => exact ⟨.inl trivial, fun w hw => by cases s <;> cases hw⟩

/-- What lies at the end of the first step suits the rest of the path, and so does null. -/
theorem Suits.tail (h : t.Suits (s :: p)) : ((t.step? s).getD null).Suits p := by
  cases hold : t.step? s with
  | none => exact suits_null p
  | some old => exact h.2 old hold

/-! ## Lookups in a tree that suits the path -/

/-- A scalar has nothing in it for either lookup. -/
theorem IsScalar.child?_eq (h : t.IsScalar) (s : Segment) : t.child? s = t.step? s := by
  cases t <;> cases s <;> first | rfl | exact h.elim

theorem getD_get?_null (p : Path) : (null.get? p).getD null = null := by
  cases p with
  | nil => rfl
  | cons s p => cases s <;> rfl

theorem getD_get?_cons (h : t.child? s = t.step? s) :
    (t.get? (s :: q)).getD null = (((t.step? s).getD null).get? q).getD null := by
  rw [get?_cons, h]
  cases t.step? s with
  | some u => rfl
  | none => exact (getD_get?_null q).symm

/-! ## What an assignment leaves alone -/

/-- Putting leaves alone what lies at the end of any other step, but for what it fills up. -/
theorem getD_step?_put_of_ne (fits : t.IsScalar ∨ t.Admits s) (hne : s' ≠ s) :
    ((put s v t).step? s').getD null = (t.step? s').getD null := by
  cases s with
  | key k =>
      cases s' with
      | key l =>
          have hlk : l ≠ k := fun hlk => hne (by rw [hlk])
          rw [put, step?, lookup_putKey_of_ne _ _ hlk, lookup_fields]
      | index j => cases t <;> simp_all [put, step?, IsScalar, Admits]
  | index i =>
      cases s' with
      | key l => cases t <;> simp_all [put, step?, IsScalar, Admits]
      | index j =>
          have hji : j ≠ i := fun hji => hne (by rw [hji])
          rw [put, step?, getElem?_putIndex, if_neg hji, ← getElem?_items]
          split
          · next hj => rw [List.getElem?_eq_none hj.2]; rfl
          · rfl

/-- **An assignment in a tree that suits its path does not disturb a lookup along a diverging
path**; nothing and null count as the same. -/
theorem getD_get?_assign_of_diverges (bounded : p.Bounded) (apart : p.Diverges q)
    (suits : t.Suits p) :
    ((assign v p t).tree.get? q).getD null = (t.get? q).getD null := by
  induction p generalizing t q with
  | nil => cases q <;> exact apart.elim
  | cons s p ih =>
      cases q with
      | nil => cases s <;> exact apart.elim
      | cons s' q =>
          have admits : (assign v (s :: p) t).tree.Admits s' :=
            (admits_assign bounded).of_diverges apart
          have strict : t.child? s' = t.step? s' := by
            rcases suits.1 with scalar | admits
            · exact scalar.child?_eq s'
            · exact (admits.of_diverges apart).child?_eq
          rw [getD_get?_cons admits.child?_eq, getD_get?_cons strict]
          by_cases same : s' = s
          · subst same
            rw [step?_assign_self bounded, Option.getD_some]
            exact ih bounded.tail apart.tail suits.tail
          · rw [assign_cons bounded.singleton, getD_step?_put_of_ne suits.1 same]

/-- **The second of two assignments at one path wins.** -/
theorem assign_assign (bounded : p.Bounded) : assign w p (assign v p t).tree = assign w p t := by
  induction p generalizing t with
  | nil => rfl
  | cons s p ih =>
      rw [assign_cons bounded.singleton, step?_assign_self bounded, Option.getD_some,
        ih bounded.tail, assign_cons bounded.singleton, put_put, ← assign_cons bounded.singleton]

/-- **Assigning never fails if no index is too large, and then it obeys the laws of a lens.**  The
lookup finds what was assigned, a second assignment at the path makes the first one void, and a tree
that suits the path looks as before along every path that diverges from it. -/
theorem assign_lens (t v w : Json) {p : Path} (bounded : p.Bounded) :
    (assign v p t).refused = none ∧
      (assign v p t).tree.get? p = some v ∧
      assign w p (assign v p t).tree = assign w p t ∧
      (t.Suits p → ∀ q, p.Diverges q →
        ((assign v p t).tree.get? q).getD null = (t.get? q).getD null) :=
  ⟨refused_assign_of_bounded bounded, get?_of_walk? (walk?_assign_self bounded),
    assign_assign bounded, fun suits _ apart => getD_get?_assign_of_diverges bounded apart suits⟩

/-- An object with one row. -/
def oneRow : Json :=
  obj [("rows", arr [.str "x"])]

/-- Behind the end of the rows. -/
def thirdRow : Path :=
  [.key "rows", .index 2]

theorem assign_lens_thirdRow :
    thirdRow.Bounded ∧ oneRow.Suits thirdRow ∧ thirdRow.Diverges [.key "rows", .index 0] ∧
      (assign (.str "y") thirdRow oneRow).refused = none ∧
      (assign (.str "y") thirdRow oneRow).tree.get? thirdRow = some (.str "y") ∧
      assign (.str "z") thirdRow (assign (.str "y") thirdRow oneRow).tree =
        assign (.str "z") thirdRow oneRow ∧
      ((assign (.str "y") thirdRow oneRow).tree.get? [.key "rows", .index 0]).getD null =
        .str "x" := by
  have bounded : thirdRow.Bounded := by decide
  have apart : thirdRow.Diverges [.key "rows", .index 0] := by decide
  have suits : oneRow.Suits thirdRow :=
    ⟨.inr trivial, fun w hw => by
      cases hw
      exact ⟨.inr trivial, fun w hw => by cases hw⟩⟩
  obtain ⟨accepted, found, again, kept⟩ := assign_lens oneRow (.str "y") (.str "z") bounded
  exact ⟨bounded, suits, apart, accepted, found, again, kept suits _ apart⟩

/-! ## Assigning what the lookup found -/

/-- Assigning what a walk arrives at changes nothing. -/
theorem assign_of_walk? (bounded : p.Bounded) (h : t.walk? p = some v) :
    (assign v p t).tree = t := by
  induction p generalizing t with
  | nil => cases h; rfl
  | cons s p ih =>
      obtain ⟨u, hu, hv⟩ := walk?_cons_eq_some.1 h
      rw [assign_cons bounded.singleton, hu, Option.getD_some, ih bounded.tail hv]
      exact put_of_step? hu

/-- If assigning what the lookup found gives the same value as before, every step was strict. -/
theorem walk?_of_same_assign (ht : t.WellFormed) (bounded : p.Bounded) (found : t.get? p = some v)
    (same : (assign v p t).tree.same t = true) : t.walk? p = some v := by
  induction p generalizing t with
  | nil => exact found
  | cons s p ih =>
      have hassigned : (assign v (s :: p) t).tree.WellFormed :=
        wellFormed_assign bounded (ht.get? found) ht
      obtain ⟨alike, steps⟩ := (same_iff hassigned ht).1 same
      -- an assignment leaves a container of the kind that the step asks for, so the tree was one
      have admits : t.Admits s := (admits_assign bounded).of_alike alike
      obtain ⟨u, hu, hv⟩ := Option.bind_eq_some_iff.1 found
      rw [admits.child?_eq] at hu
      have inner := steps s
      rw [step?_assign_self bounded, hu] at inner
      exact walk?_cons_eq_some.2 ⟨u, hu, ih (ht.step? hu) bounded.tail hv inner⟩

/-- **Assigning what the lookup found never fails if no index is too large, and it leaves the tree
as it was exactly if the lookup was strict all the way**, that is if every key led into an object
and every index into an array. -/
theorem assign_found_iff (ht : t.WellFormed) (bounded : p.Bounded) (found : t.get? p = some v) :
    (assign v p t).refused = none ∧
      ((assign v p t).tree = t ↔ t.walk? p = some v) ∧
      ((assign v p t).tree.same t = true ↔ t.walk? p = some v) := by
  have unchanged : t.walk? p = some v → (assign v p t).tree = t := assign_of_walk? bounded
  have same_of_eq : (assign v p t).tree = t → (assign v p t).tree.same t = true := fun h => by
    rw [h]
    exact same_refl ht
  exact ⟨refused_assign_of_bounded bounded,
    ⟨fun h => walk?_of_same_assign ht bounded found (same_of_eq h), unchanged⟩,
    walk?_of_same_assign ht bounded found, fun h => same_of_eq (unchanged h)⟩

theorem assign_found_iff_oneRow :
    oneRow.WellFormed ∧ Path.Bounded [.key "rows", .index 0] ∧
      oneRow.get? [.key "rows", .index 0] = some (.str "x") ∧
      (assign (.str "x") [.key "rows", .index 0] oneRow).refused = none ∧
      (assign (.str "x") [.key "rows", .index 0] oneRow).tree = oneRow := by
  have wf : oneRow.WellFormed := by simp [oneRow, WellFormed, WellFormedItems]
  have bounded : Path.Bounded [.key "rows", .index 0] := by decide
  have found : oneRow.get? [.key "rows", .index 0] = some (.str "x") := rfl
  obtain ⟨accepted, unchanged, -⟩ := assign_found_iff wf bounded found
  exact ⟨wf, bounded, found, accepted, unchanged.2 rfl⟩

/-- A key that the lookup took for an index puts an object in the place of the array, and an index
that it took for a key puts an array in the place of the object. -/
theorem assign_found_replaces :
    Path.Bounded [.key "0"] ∧
      (arr [.str "x", .str "y"]).get? [.key "0"] = some (.str "x") ∧
      (assign (.str "x") [.key "0"] (arr [.str "x", .str "y"])).tree = obj [("0", .str "x")] ∧
      (assign (.str "x") [.key "0"] (arr [.str "x", .str "y"])).tree.same
        (arr [.str "x", .str "y"]) = false ∧
      Path.Bounded [.index 0] ∧
      (obj [("0", .str "x"), ("k", .str "y")]).get? [.index 0] = some (.str "x") ∧
      (assign (.str "x") [.index 0] (obj [("0", .str "x"), ("k", .str "y")])).tree =
        arr [.str "x"] ∧
      (assign (.str "x") [.index 0] (obj [("0", .str "x"), ("k", .str "y")])).tree.same
        (obj [("0", .str "x"), ("k", .str "y")]) = false :=
  ⟨by decide, rfl, rfl, rfl, by decide, rfl, rfl, rfl⟩

end Stencil.Json
