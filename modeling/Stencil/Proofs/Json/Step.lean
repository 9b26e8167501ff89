import Stencil.Path.Basic

/-!
# Places in a tree

Looking a path up (`Json.get?`) is lenient: a key may name an index and an index
may name a key.  A step here is strict: a key leads into an object and an index
into an array, and nowhere else.  A walk follows a path by strict steps, and
where it arrives the lenient lookup arrives too (`get?_of_walk?`).

A tree is larger than each tree one step into it, so a statement about trees may
be proved by assuming it one step in (`stepInduction`).  Containers then need no
cases of their own, and neither do the lists nested in them.
-/

set_option autoImplicit false

namespace Stencil.Json

/-- What lies one strict step into the tree. -/
def step? : Json → Segment → Option Json
  | obj fs, .key k => fs.lookup k
  | arr xs, .index i => xs[i]?
  | _, _ => none

/-- What lies at the end of the path, all of whose steps are strict. -/
def walk? (v : Json) : Path → Option Json
  | [] => some v
  | s :: p => (v.step? s).bind fun w => w.walk? p

@[simp] theorem walk?_nil (v : Json) : v.walk? [] = some v := rfl

theorem walk?_cons (v : Json) (s : Segment) (p : Path) :
    v.walk? (s :: p) = (v.step? s).bind fun w => w.walk? p := rfl

theorem walk?_cons_eq_some {v x : Json} {s : Segment} {p : Path} :
    v.walk? (s :: p) = some x ↔ ∃ w, v.step? s = some w ∧ w.walk? p = some x := by
  simp [walk?_cons, Option.bind_eq_some_iff]

theorem child?_of_step? {v w : Json} {s : Segment} (h : v.step? s = some w) :
    v.child? s = some w := by
  cases v <;> cases s <;> simp_all [step?, child?]

/-- **The lenient lookup finds whatever a walk arrives at.** -/
theorem get?_of_walk? {v w : Json} {p : Path} (h : v.walk? p = some w) : v.get? p = some w := by
  induction p generalizing v with
  | nil => exact h
  | cons s p ih =>
      obtain ⟨u, hu, hw⟩ := walk?_cons_eq_some.1 h
      rw [get?_cons, child?_of_step? hu]
      exact ih hw

/-! ## Lookup in a list of members -/

theorem mem_of_lookup {k : String} {v : Json} {fs : List (String × Json)}
    (h : fs.lookup k = some v) : (k, v) ∈ fs := by
  obtain ⟨before, after, rfl, -⟩ := List.lookup_eq_some_iff.1 h
  simp

theorem lookup_of_mem {k : String} {v : Json} {fs : List (String × Json)}
    (distinct : (fs.map Prod.fst).Nodup) (h : (k, v) ∈ fs) : fs.lookup k = some v := by
  obtain ⟨before, after, rfl⟩ := List.append_of_mem h
  refine List.lookup_eq_some_iff.2 ⟨before, after, rfl, fun p hp => ?_⟩
  simp only [List.map_append, List.map_cons, List.nodup_append] at distinct
  have hne := distinct.2.2 p.1 (List.mem_map_of_mem hp) k List.mem_cons_self
  simpa using Ne.symm hne

theorem lookup_isSome_iff_mem {k : String} {fs : List (String × Json)} :
    (fs.lookup k).isSome = true ↔ k ∈ fs.map Prod.fst := by
  simp

/-! ## Induction over the places of a tree -/

theorem sizeOf_lt_of_step? {v w : Json} {s : Segment} (h : v.step? s = some w) :
    sizeOf w < sizeOf v := by
  cases v with
  | obj fs =>
      cases s with
      | key k =>
          have hmem := List.sizeOf_lt_of_mem (mem_of_lookup h)
          simp only [Prod.mk.sizeOf_spec, obj.sizeOf_spec] at hmem ⊢
          omega
      | index i => cases h
  | arr xs =>
      cases s with
      | key k => cases h
      | index i =>
          have hmem := List.sizeOf_lt_of_mem (List.mem_of_getElem? h)
          simp only [arr.sizeOf_spec]
          omega
  | null => cases s <;> cases h
  | bool b => cases s <;> cases h
  | num n => cases s <;> cases h
  | str t => cases s <;> cases h

/-- **What holds of a tree whenever it holds of every tree one step into it holds of all trees.** -/
theorem stepInduction {motive : Json → Prop}
    (step : ∀ v, (∀ s w, v.step? s = some w → motive w) → motive v) (v : Json) : motive v :=
  step v fun _ w h =>
    have := sizeOf_lt_of_step? h
    stepInduction step w
termination_by sizeOf v

/-- What holds of the scalars, of an array whenever of its elements and of an object whenever of the
values of its members, holds of all trees. -/
theorem memberInduction {motive : Json → Prop} (null : motive .null) (bool : ∀ b, motive (.bool b))
    (num : ∀ n, motive (.num n)) (str : ∀ s, motive (.str s))
    (arr : ∀ xs, (∀ x ∈ xs, motive x) → motive (.arr xs))
    (obj : ∀ fs, (∀ f ∈ fs, motive f.2) → motive (.obj fs)) (v : Json) : motive v :=
  match v with
  | .null => null
  | .bool b => bool b
  | .num n => num n
  | .str s => str s
  | .arr xs => arr xs fun x hx =>
      have := List.sizeOf_lt_of_mem hx
      memberInduction null bool num str arr obj x
  | .obj fs => obj fs fun f hf =>
      have := List.sizeOf_lt_of_mem hf
      have : sizeOf f.2 < sizeOf f := by
        obtain ⟨k, w⟩ := f
        simp only [Prod.mk.sizeOf_spec]
        omega
      memberInduction null bool num str arr obj f.2
termination_by sizeOf v
decreasing_by
  · simp only [Json.arr.sizeOf_spec]
    omega
  · simp only [Json.obj.sizeOf_spec]
    omega

/-! ## Well-formed trees, one step at a time -/

theorem wellFormedItems_iff (xs : List Json) : WellFormedItems xs ↔ ∀ x ∈ xs, x.WellFormed := by
  induction xs with
  | nil => simp [WellFormedItems]
  | cons x xs ih => simp [WellFormedItems, ih]

theorem wellFormedFields_iff (fs : List (String × Json)) :
    WellFormedFields fs ↔ ∀ f ∈ fs, f.2.WellFormed := by
  induction fs with
  | nil => simp [WellFormedFields]
  | cons f fs ih =>
      obtain ⟨k, v⟩ := f
      simp [WellFormedFields, ih]

@[simp] theorem wellFormed_obj (fs : List (String × Json)) :
    (obj fs).WellFormed ↔ (fs.map Prod.fst).Nodup ∧ ∀ f ∈ fs, f.2.WellFormed := by
  rw [WellFormed, wellFormedFields_iff]

@[simp] theorem wellFormed_arr (xs : List Json) :
    (arr xs).WellFormed ↔ ∀ x ∈ xs, x.WellFormed := by
  rw [WellFormed, wellFormedItems_iff]

@[simp] theorem wellFormed_null : null.WellFormed := by
  simp [WellFormed]

/-- A tree is well-formed if its own keys are distinct and all trees one step in are well-formed. -/
theorem wellFormed_iff {v : Json} :
    v.WellFormed ↔
      (v.fields.map Prod.fst).Nodup ∧ ∀ s w, v.step? s = some w → w.WellFormed := by
  cases v with
  | obj fs =>
      simp only [wellFormed_obj, fields]
      refine and_congr_right fun distinct => ⟨fun all s w h => ?_, fun steps f hf => ?_⟩
      · cases s with
        | key k => exact all (k, w) (mem_of_lookup h)
        | index i => cases h
      · exact steps (.key f.1) f.2 (lookup_of_mem distinct hf)
  | arr xs =>
      simp only [wellFormed_arr, fields, List.map_nil, List.nodup_nil, true_and]
      refine ⟨fun all s w h => ?_, fun steps x hx => ?_⟩
      · cases s with
        | key k => cases h
        | index i => exact all w (List.mem_of_getElem? h)
      · obtain ⟨i, hi⟩ := List.getElem?_of_mem hx
        exact steps (.index i) x hi
  | null => simp [WellFormed, fields, step?]
  | bool b => simp [WellFormed, fields, step?]
  | num n => simp [WellFormed, fields, step?]
  | str t => simp [WellFormed, fields, step?]

theorem WellFormed.keys_nodup {fs : List (String × Json)} (h : (obj fs).WellFormed) :
    (fs.map Prod.fst).Nodup :=
  ((wellFormed_obj fs).1 h).1

theorem WellFormed.step? {v w : Json} {s : Segment} (hv : v.WellFormed)
    (h : v.step? s = some w) : w.WellFormed :=
  (wellFormed_iff.1 hv).2 s w h

/-- What the lenient lookup finds in a well-formed tree is well-formed. -/
theorem WellFormed.get? {v w : Json} {p : Path} (hv : v.WellFormed) (h : v.get? p = some w) :
    w.WellFormed := by
  induction p generalizing v with
  | nil => cases h; exact hv
  | cons s p ih =>
      obtain ⟨u, hu, hw⟩ := Option.bind_eq_some_iff.1 h
      refine ih ?_ hw
      cases v with
      | obj fs =>
          have all := ((wellFormed_obj fs).1 hv).2
          cases s with
          | key k => exact all (k, u) (mem_of_lookup hu)
          | index i => exact all (_, u) (mem_of_lookup hu)
      | arr xs =>
          have all := (wellFormed_arr xs).1 hv
          cases s with
          | index i => exact all u (List.mem_of_getElem? hu)
          | key k =>
              obtain ⟨i, -, hi⟩ := Option.bind_eq_some_iff.1 hu
              exact all u (List.mem_of_getElem? hi)
      | null => cases hu
      | bool b => cases hu
      | num n => cases hu
      | str t => cases hu

end Stencil.Json
