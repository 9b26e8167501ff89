import Stencil.Path.Assign
import Stencil.Proofs.Json.Merge

/-!
# What an assignment holds

An assignment changes what lies at the end of the first step of its path and
leaves what lies at the end of any other step of that kind
(`step?_assign_self`, `step?_assign_of_ne`), except that an array may be
lengthened with holes.  A path whose indexes are all small enough is never refused
(`refused_assign_of_bounded`), and then its end holds what was assigned
(`walk?_assign_self`).
-/

set_option autoImplicit false

namespace Stencil

/-- The path has no index that is too large to be assigned. -/
def Path.Bounded (p : Path) : Prop :=
  ∀ i, Segment.index i ∈ p → i ≤ maxIndex

theorem Path.bounded_iff {p : Path} :
    p.Bounded ↔ p.findSome? (fun
      | .index i => if maxIndex < i then some i else none
      | .key _ => none) = none := by
  rw [List.findSome?_eq_none_iff]
  refine ⟨fun h s hs => ?_, fun h i hi => ?_⟩
  · cases s with
    | key k => rfl
    | index i => exact if_neg (Nat.not_lt.2 (h i hs))
  · by_contra hlt
    have found : (if maxIndex < i then some i else none) = none := h (.index i) hi
    rw [if_pos (Nat.lt_of_not_le hlt)] at found
    cases found

instance (p : Path) : Decidable p.Bounded :=
  decidable_of_iff _ Path.bounded_iff.symm

theorem Path.Bounded.head {i : Nat} {p : Path} (h : Path.Bounded (.index i :: p)) : i ≤ maxIndex :=
  h i List.mem_cons_self

theorem Path.Bounded.tail {s : Segment} {p : Path} (h : Path.Bounded (s :: p)) : Path.Bounded p :=
  fun i hi => h i (List.mem_cons_of_mem s hi)

namespace Json

/-- The tree is a container that the step can lead into. -/
def Admits : Json → Segment → Prop
  | obj _, .key _ => True
  | arr _, .index _ => True
  | _, _ => False

theorem admits_of_step? {v w : Json} {s : Segment} (h : v.step? s = some w) : v.Admits s := by
  cases v <;> cases s <;> simp_all [step?, Admits]

/-- In a container that the step can lead into the lenient lookup takes the strict step. -/
theorem Admits.child?_eq {v : Json} {s : Segment} (h : v.Admits s) : v.child? s = v.step? s := by
  cases v <;> cases s <;> first | rfl | exact h.elim

theorem step?_of_lt {v w : Json} {i j : Nat} (h : v.step? (.index i) = some w) (hlt : j < i) :
    ∃ u, v.step? (.index j) = some u := by
  cases v <;> try cases h
  case arr xs =>
    have hi : i < xs.length := (List.getElem?_eq_some_iff.1 h).1
    exact ⟨_, List.getElem?_eq_getElem (Nat.lt_trans hlt hi)⟩

/-- Containers that one step can lead into are alike. -/
theorem Admits.alike {v w : Json} {s : Segment} (hv : v.Admits s) (hw : w.Admits s) :
    Alike v w := by
  cases s <;> cases v <;> cases w <;> simp_all [Admits, Alike]

theorem Admits.of_alike {v w : Json} {s : Segment} (hv : v.Admits s) (alike : Alike v w) :
    w.Admits s := by
  cases s <;> cases v <;> cases w <;> simp_all [Admits, Alike]

/-! ## The elements of an array with one index set -/

theorem getElem?_putIndex (v : Json) (i j : Nat) (xs : List Json) :
    (putIndex v i xs)[j]? =
      if j = i then some v else if j < i ∧ xs.length ≤ j then some null else xs[j]? := by
  induction i generalizing j xs with
  | zero => cases xs <;> cases j <;> simp [putIndex]
  | succ i ih => cases xs <;> cases j <;> simp [putIndex, ih]

/-! ## One step into the tree that an assignment leaves -/

/-- An assignment is refused exactly if some index of its path is too large. -/
theorem refused_assign_eq_none_iff {v t : Json} {p : Path} :
    (assign v p t).refused = none ↔ p.Bounded := by
  rw [refused_assign]
  exact Path.bounded_iff.symm

theorem refused_assign_of_bounded {v t : Json} {p : Path} (h : p.Bounded) :
    (assign v p t).refused = none :=
  refused_assign_eq_none_iff.2 h

/-- In an empty object an assignment finds as little as in null. -/
theorem assign_obj_nil {v : Json} {p : Path} (h : p.Bounded) :
    assign v p (obj []) = assign v p null := by
  cases p with
  | nil => rfl
  | cons s p =>
      cases s with
      | key k => rfl
      | index i =>
          rw [assign, assign, if_neg (Nat.not_lt.2 h.head), if_neg (Nat.not_lt.2 h.head)]
          rfl

theorem admits_assign {v t : Json} {s : Segment} {p : Path} (h : Path.Bounded (s :: p)) :
    (assign v (s :: p) t).tree.Admits s := by
  cases s with
  | key k => trivial
  | index i =>
      rw [assign, if_neg (Nat.not_lt.2 h.head)]
      trivial

theorem step?_assign_self {v t : Json} {s : Segment} {p : Path} (h : Path.Bounded (s :: p)) :
    (assign v (s :: p) t).tree.step? s = some (assign v p ((t.step? s).getD null)).tree := by
  cases s with
  | key k => cases t <;> simp [assign, fields, step?]
  | index i =>
      have hi := Nat.not_lt.2 h.head
      cases t <;> simp [assign, hi, items, step?]

/-- At the end of any other step lies what lay there, or a hole in front of the index that was
assigned. -/
theorem step?_assign_of_ne {v t w : Json} {s s' : Segment} {p : Path}
    (h : Path.Bounded (s :: p)) (hne : s' ≠ s)
    (hw : (assign v (s :: p) t).tree.step? s' = some w) :
    t.step? s' = some w ∨ w = null ∧ ∃ i j, s = .index i ∧ s' = .index j ∧ j < i := by
  cases s with
  | key k =>
      cases s' with
      | key l =>
          have hlk : l ≠ k := fun hlk => hne (by rw [hlk])
          have hlookup : t.fields.lookup l = some w := by
            simpa only [assign, step?, lookup_putKey_of_ne _ _ hlk] using hw
          cases t <;> simp_all [fields, step?]
      | index j => cases hw
  | index i =>
      rw [assign, if_neg (Nat.not_lt.2 h.head)] at hw
      cases s' with
      | key l => cases hw
      | index j =>
          have hji : j ≠ i := fun hji => hne (by rw [hji])
          simp only [step?, getElem?_putIndex, if_neg hji] at hw
          split at hw
          · next hj =>
            cases hw
            exact .inr ⟨rfl, i, j, rfl, rfl, hj.1⟩
          · cases t <;> simp_all [items, step?]

/-- What lay at the end of another step of the same kind still lies there. -/
theorem step?_assign_of_step? {v t w : Json} {s s' : Segment} {p : Path}
    (h : Path.Bounded (s :: p)) (hne : s' ≠ s) (admits : t.Admits s) (hw : t.step? s' = some w) :
    (assign v (s :: p) t).tree.step? s' = some w := by
  cases s with
  | key k =>
      cases t <;> try exact admits.elim
      case obj fs =>
        cases s' with
        | key l =>
            have hlk : l ≠ k := fun hlk => hne (by rw [hlk])
            simpa only [assign, step?, fields, lookup_putKey_of_ne _ _ hlk] using hw
        | index j => cases hw
  | index i =>
      rw [assign, if_neg (Nat.not_lt.2 h.head)]
      cases t <;> try exact admits.elim
      case arr xs =>
        cases s' with
        | key l => cases hw
        | index j =>
            have hji : j ≠ i := fun hji => hne (by rw [hji])
            have hj : ¬ (j < i ∧ xs.length ≤ j) := fun hj => by
              have hlt : j < xs.length := (List.getElem?_eq_some_iff.1 hw).1
              omega
            simpa only [step?, items, getElem?_putIndex, if_neg hji, if_neg hj] using hw

/-- **Where an assignment is not refused, its path leads to what was assigned.** -/
theorem walk?_assign_self {v t : Json} {p : Path} (h : p.Bounded) :
    (assign v p t).tree.walk? p = some v := by
  induction p generalizing t with
  | nil => rfl
  | cons s p ih => exact walk?_cons_eq_some.2 ⟨_, step?_assign_self h, ih h.tail⟩

theorem keys_assign_nodup {v t : Json} {s : Segment} {p : Path} (h : Path.Bounded (s :: p))
    (ht : t.WellFormed) : ((assign v (s :: p) t).tree.fields.map Prod.fst).Nodup := by
  cases s with
  | key k => exact nodup_putKey (wellFormed_iff.1 ht).1
  | index i =>
      rw [assign, if_neg (Nat.not_lt.2 h.head)]
      exact List.nodup_nil

/-- Assigning a well-formed tree in a well-formed tree gives a well-formed tree. -/
theorem wellFormed_assign {v t : Json} {p : Path} (h : p.Bounded) (hv : v.WellFormed)
    (ht : t.WellFormed) : (assign v p t).tree.WellFormed := by
  induction p generalizing t with
  | nil => exact hv
  | cons s p ih =>
      refine wellFormed_iff.2 ⟨keys_assign_nodup h ht, fun s' w hw => ?_⟩
      by_cases hs : s' = s
      · subst hs
        rw [step?_assign_self h, Option.some.injEq] at hw
        refine hw ▸ ih h.tail ?_
        cases hold : t.step? s' with
        | none => exact wellFormed_null
        | some old => exact ht.step? hold
      · rcases step?_assign_of_ne h hs hw with hold | hhole
        · exact ht.step? hold
        · rw [hhole.1]
          exact wellFormed_null

end Json

end Stencil
