import Stencil.Proofs.Json.Congruence
import Stencil.Proofs.Json.Overwrite

/-!
# Assigning, one step at a time

To put a value one step into a tree is to set one key or one index of it, after the
tree has given way to an empty container if the step cannot lead into it.  At the
first step of its path an assignment puts what the rest of the path makes of what was
there, or of null if nothing was (`assign_cons`).  So the laws of assigning are laws
of putting, carried along the path: a tree of the wrong kind leaves nothing behind
(`put_of_not_admits`), putting what is there changes nothing (`put_of_step?`) and the
second of two puts wins (`put_put`).

Along the same lines, what a walk finds, or null, is what the rest of the walk finds
in what the first step leads to, or in null (`getD_walk?_cons`).
-/

set_option autoImplicit false

namespace Stencil

theorem Path.Bounded.singleton {s : Segment} {p : Path} (h : Path.Bounded (s :: p)) :
    Path.Bounded [s] :=
  fun i hi => h i (List.mem_cons.2 (.inl (List.mem_singleton.1 hi)))

namespace Json

/-- The tree with the value one step into it. -/
def put : Segment → Json → Json → Json
  | .key k, v, t => obj (putKey k v t.fields)
  | .index i, v, t => arr (putIndex v i t.items)

variable {v w t : Json} {s : Segment} {p : Path}

/-- **At its first step an assignment puts what the rest of its path makes of what was there.** -/
theorem assign_cons (small : Path.Bounded [s]) :
    assign v (s :: p) t =
      ⟨put s (assign v p ((t.step? s).getD null)).tree t,
        (assign v p ((t.step? s).getD null)).refused⟩ := by
  cases s with
  | key k => rw [assign, lookup_fields, put]
  | index i => rw [assign, if_neg (Nat.not_lt.2 small.head), getElem?_items, put]

theorem getD_walk?_cons :
    (t.walk? (s :: p)).getD null = (((t.step? s).getD null).walk? p).getD null := by
  rw [walk?_cons]
  cases t.step? s with
  | some u => rfl
  | none =>
      cases h : null.walk? p with
      | none => simp [h]
      | some w => simp [h, (walk?_null h).2]

/-! ## Laws of putting -/

theorem putKey_of_lookup {k : String} {fs : List (String × Json)} (h : fs.lookup k = some v) :
    putKey k v fs = fs := by
  induction fs with
  | nil => cases h
  | cons f fs ih =>
      obtain ⟨l, x⟩ := f
      by_cases hl : l = k
      · subst hl
        rw [List.lookup_cons_self, Option.some.injEq] at h
        rw [putKey, if_pos rfl, h]
      · rw [List.lookup_cons, beq_false_of_ne (Ne.symm hl)] at h
        rw [putKey, if_neg hl, ih h]

theorem putKey_putKey (k : String) (v w : Json) (fs : List (String × Json)) :
    putKey k w (putKey k v fs) = putKey k w fs := by
  induction fs with
  | nil => simp [putKey]
  | cons f fs ih =>
      obtain ⟨l, x⟩ := f
      by_cases hl : l = k
      · simp [putKey, hl]
      · simp [putKey, hl, ih]

theorem putIndex_of_getElem? {i : Nat} {xs : List Json} (h : xs[i]? = some v) :
    putIndex v i xs = xs := by
  induction i generalizing xs with
  | zero => cases xs <;> simp_all [putIndex]
  | succ i ih => cases xs <;> simp_all [putIndex]

theorem putIndex_putIndex (i : Nat) (v w : Json) (xs : List Json) :
    putIndex w i (putIndex v i xs) = putIndex w i xs := by
  induction i generalizing xs with
  | zero => cases xs <;> rfl
  | succ i ih => cases xs <;> simp [putIndex, ih]

/-- A tree that the step cannot lead into gives way with all that it holds. -/
theorem put_of_not_admits (h : ¬ t.Admits s) : put s v t = put s v null := by
  cases s <;> cases t <;> first | rfl | exact absurd trivial h

/-- Putting what is there changes nothing. -/
theorem put_of_step? (h : t.step? s = some v) : put s v t = t := by
  cases s with
  | key k =>
      cases t <;> try cases h
      case obj fs => rw [put, fields, putKey_of_lookup h]
  | index i =>
      cases t <;> try cases h
      case arr xs => rw [put, items, putIndex_of_getElem? h]

/-- The second of two puts wins. -/
theorem put_put : put s w (put s v t) = put s w t := by
  cases s with
  | key k => simp only [put, fields, putKey_putKey]
  | index i => simp only [put, items, putIndex_putIndex]

end Json

end Stencil
