import Stencil.Proofs.Json.Put

/-!
# Merging a piece is assigning in place

A piece is a tree in which one value was assigned and nothing else: containers with one
way through them, and nulls in front of the indexes on that way.  Merging a piece into a
tree does what assigning in the tree does, if what is assigned is the value merged into
what the tree has at the end of the path (`merge_assign`).  The order of keys and the
lengths of arrays come out the same.

The value must not be null, since a null at an index would pass for one of the nulls in
front of it.  Nothing is asked of the tree.
-/

set_option autoImplicit false

namespace Stencil.Json

variable {t v w : Json} {s : Segment} {p : Path}

/-- An array that is filled up with nulls in front of a value merges that value in at its index. -/
theorem mergeItems_putIndex (hw : w ≠ null) (i : Nat) (xs : List Json) :
    mergeItems xs (putIndex w i []) = putIndex ((xs[i]?.getD null).merge w) i xs := by
  have solid : w.isNull = false := by cases w <;> first | rfl | exact absurd rfl hw
  induction i generalizing xs with
  | zero => cases xs <;> simp [putIndex, mergeItems, solid]
  | succ i ih => cases xs <;> simp [putIndex, mergeItems, isNull, ih]

/-- **Merging a value that stands one step into nothing is putting it**, merged with what is
there. -/
theorem merge_put (hw : w ≠ null) :
    t.merge (put s w null) = put s (((t.step? s).getD null).merge w) t := by
  have piece_admits : (put s w null).Admits s := by cases s <;> trivial
  by_cases admits : t.Admits s
  · cases s with
    | key k =>
        cases t <;> try exact admits.elim
        case obj fs =>
          have single : put (.key k) w null = obj [(k, w)] := rfl
          rw [single, put, merge_obj, step?, fields, mergeFields, mergeFields]
          cases fs.lookup k with
          | some old => rfl
          | none => rw [Option.getD_none, merge_null]
    | index i =>
        cases t <;> try exact admits.elim
        case arr xs =>
          have padded : put (.index i) w null = arr (putIndex w i []) := rfl
          rw [padded, put, merge_arr, step?, items, mergeItems_putIndex hw]
  · -- the tree is of another kind than the piece, so nothing of it is left on either side
    have notAlike : ¬ Alike t (put s w null) := fun alike =>
      admits (piece_admits.of_alike alike.symm)
    have nothing : t.step? s = none :=
      Option.eq_none_iff_forall_ne_some.2 fun u hu => admits (admits_of_step? hu)
    rw [merge_of_not_alike notAlike, put_of_not_admits admits, nothing, Option.getD_none,
      merge_null]

/-- Only null can leave null behind. -/
theorem assign_ne_null (bounded : p.Bounded) (hv : v ≠ null) : (assign v p t).tree ≠ null :=
  fun hnull => by
    have arrives : (assign v p t).tree.walk? p = some v := walk?_assign_self bounded
    rw [hnull] at arrives
    exact hv (walk?_null arrives).2

/-- What an assignment makes of null is merged as if it were assigned in place. -/
theorem merge_assign_null (bounded : p.Bounded) (hv : v ≠ null) :
    t.merge (assign v p null).tree = (assign (((t.walk? p).getD null).merge v) p t).tree := by
  induction p generalizing t with
  | nil => rfl
  | cons s p ih =>
      have small := bounded.singleton
      have nothing : (null.step? s).getD null = null := by cases s <;> rfl
      calc t.merge (assign v (s :: p) null).tree
          = t.merge (put s (assign v p null).tree null) := by rw [assign_cons small, nothing]
        _ = put s (((t.step? s).getD null).merge (assign v p null).tree) t :=
              merge_put (assign_ne_null bounded.tail hv)
        _ = put s (assign (((((t.step? s).getD null).walk? p).getD null).merge v) p
              ((t.step? s).getD null)).tree t := by rw [ih bounded.tail]
        _ = (assign (((t.walk? (s :: p)).getD null).merge v) (s :: p) t).tree := by
              rw [getD_walk?_cons, assign_cons small]

/-- **Merging the piece with one value is assigning in place**: what is assigned is the value merged
into what a walk along the path arrives at, or the value itself where the walk stops. -/
theorem merge_assign (t : Json) {v : Json} {p : Path} (bounded : p.Bounded) (hv : v ≠ null) :
    (assign v p (obj [])).refused = none ∧
      assign ((t.walk? p).elim v fun old => old.merge v) p t =
        ⟨t.merge (assign v p (obj [])).tree, none⟩ := by
  have value : (t.walk? p).elim v (fun old => old.merge v) = ((t.walk? p).getD null).merge v := by
    cases t.walk? p with
    | some old => rfl
    | none => exact (merge_null v).symm
  refine ⟨refused_assign_of_bounded bounded, ?_⟩
  rw [assign_obj_nil bounded, merge_assign_null bounded hv, value,
    ← refused_assign_of_bounded bounded]

/-- A table whose first row is missing. -/
def table : Json :=
  obj [("rows", arr [null, obj [("x", .str "1")]])]

/-- The path of its second row. -/
def secondRow : Path :=
  [.key "rows", .index 1]

theorem merge_assign_secondRow :
    secondRow.Bounded ∧ obj [("y", .str "2")] ≠ null ∧
      (assign (obj [("y", .str "2")]) secondRow (obj [])).refused = none ∧
      assign (obj [("x", .str "1"), ("y", .str "2")]) secondRow table =
        ⟨table.merge (assign (obj [("y", .str "2")]) secondRow (obj [])).tree, none⟩ := by
  have bounded : secondRow.Bounded := by decide
  have hv : obj [("y", .str "2")] ≠ null := nofun
  obtain ⟨accepted, inPlace⟩ := merge_assign table bounded hv
  exact ⟨bounded, hv, accepted, inPlace⟩

end Stencil.Json
