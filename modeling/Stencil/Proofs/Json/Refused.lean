import Stencil.Fault
import Stencil.Proofs.Json.Put

/-!
# Refused assignments

An assignment is refused exactly if some index of its path is too large, and it names
the first one.  By then it has walked the path up to that index and made what was
missing on the way.  So it leaves what an assignment at the path up to there would
leave, if that assigned what was there already, or null if nothing was
(`assign_of_large`).  Neither the rest of the path nor the value has any part in it.
-/

set_option autoImplicit false

namespace Stencil

/-- A path with an index that is too large has a first one. -/
theorem Path.exists_large {p : Path} (h : ¬ p.Bounded) :
    ∃ (r : Path) (i : Nat) (rest : Path),
      p = r ++ .index i :: rest ∧ r.Bounded ∧ maxIndex < i := by
  rw [bounded_iff, ← ne_eq, Option.ne_none_iff_exists'] at h
  obtain ⟨j, hj⟩ := h
  obtain ⟨r, s, rest, hp, hs, hr⟩ := List.findSome?_eq_some_iff.1 hj
  cases s with
  | key k => cases hs
  | index i =>
      refine ⟨r, i, rest, hp, bounded_iff.2 (List.findSome?_eq_none_iff.2 hr), ?_⟩
      by_contra hle
      simp [hle] at hs

theorem Path.not_bounded_iff {p : Path} :
    ¬ p.Bounded ↔ ∃ i, Segment.index i ∈ p ∧ maxIndex < i := by
  simp [Bounded]

namespace Json

variable {v t : Json} {r rest : Path} {i : Nat}

/-- **At an index that is too large an assignment stops**, and it leaves what assigning what is
there, or null, at the path up to there would leave. -/
theorem assign_of_large (small : r.Bounded) (large : maxIndex < i) :
    assign v (r ++ .index i :: rest) t =
      ⟨(assign ((t.walk? r).getD null) r t).tree, some i⟩ := by
  induction r generalizing t with
  | nil => exact if_pos large
  | cons s r ih =>
      rw [List.cons_append, assign_cons small.singleton, ih small.tail, getD_walk?_cons,
        assign_cons small.singleton]

/-- **An assignment fails exactly if some index of its path is too large**, whatever the tree and
the value, and the fault names the first one.  The tree is left as an assignment at the path up to
that index would leave it, if it assigned what a walk finds there, or null where the walk stops.  So
the index itself changes nothing, and the tree that is left does not depend on the value. -/
theorem fault?_assign (v t : Json) (p : Path) :
    ((assign v p t).fault? ≠ none ↔ ∃ i, Segment.index i ∈ p ∧ maxIndex < i) ∧
      ((assign v p t).fault? ≠ none →
        ∃ (r : Path) (i : Nat) (rest : Path),
          p = r ++ .index i :: rest ∧ r.Bounded ∧ maxIndex < i ∧
            (assign v p t).fault? =
              some (.badPath ('[' :: indexText i ++ [']']) .indexTooLarge) ∧
            (assign v p t).tree = (assign ((t.walk? r).getD null) r t).tree ∧
            (assign v p t).tree.walk? r = some ((t.walk? r).getD null) ∧
            ∀ w, assign w p t = assign v p t) := by
  have fails_iff : (assign v p t).fault? ≠ none ↔ ¬ p.Bounded := by
    rw [Assignment.fault?, ne_eq, Option.map_eq_none_iff, refused_assign_eq_none_iff]
  refine ⟨fails_iff.trans Path.not_bounded_iff, fun fails => ?_⟩
  obtain ⟨r, i, rest, rfl, small, large⟩ := Path.exists_large (fails_iff.1 fails)
  refine ⟨r, i, rest, rfl, small, large, ?_, ?_, ?_, fun w => ?_⟩
  · rw [assign_of_large small large]
    rfl
  · rw [assign_of_large small large]
  · rw [assign_of_large small large]
    exact walk?_assign_self small
  · rw [assign_of_large small large, assign_of_large small large]

/-- What the first steps of the path made stays. -/
example :
    assign (.bool true) [.key "a", .index 1, .key "b", .index 70000, .index 0]
        (obj [("a", .str "x")]) =
      ⟨obj [("a", arr [null, obj [("b", null)]])], some 70000⟩ := rfl

end Json

end Stencil
