import Stencil.Proofs.Json.Provenance
import Stencil.Proofs.Json.Put

/-!
# Merging again

Merging the same source a second time changes nothing at all, neither a value nor the
order of keys nor the length of an array, and a tree merged into itself stays as it is
(`merge_again`).

A target stays as it is if it has something wherever the source has something, and
merging the one into the other there changes nothing; where the source has a hole
nothing is merged (`merge_of_absorbed`).  After a merge that is so at every step.  What
the target lacked has been taken over, so it is merged into itself; what it had has been
merged once already; and in front of a hole it has the same null, or what it had before.
-/

set_option autoImplicit false

namespace Stencil.Json

variable {t s : Json}

/-! ## When merging changes nothing -/

theorem mergeFields_of_absorbed {fs gs : List (String × Json)}
    (h : ∀ g ∈ gs, ∃ old, fs.lookup g.1 = some old ∧ merge old g.2 = old) :
    mergeFields fs gs = fs := by
  induction gs with
  | nil => simp [mergeFields]
  | cons g gs ih =>
      obtain ⟨k, v⟩ := g
      obtain ⟨⟨old, hold, absorbed⟩, hgs⟩ := List.forall_mem_cons.1 h
      dsimp only at hold absorbed
      rw [mergeFields, hold]
      dsimp only
      rw [absorbed, putKey_of_lookup hold]
      exact ih hgs

theorem mergeItems_of_absorbed {xs ys : List Json}
    (h : ∀ (i : Nat) (new : Json), ys[i]? = some new →
      ∃ old, xs[i]? = some old ∧ (hole (.index i) new = true ∨ merge old new = old)) :
    mergeItems xs ys = xs := by
  refine List.ext_getElem? fun i => ?_
  rw [getElem?_mergeItems]
  cases hnew : ys[i]? with
  | none => exact overlay_none_right _ _
  | some new =>
      obtain ⟨old, hold, isHole | absorbed⟩ := h i new hnew
      · rw [hold, overlay, if_pos isHole]
      · rw [hold, overlay, absorbed, ite_self]

/-- **A merge changes nothing if it changes nothing one step in.** -/
theorem merge_of_absorbed (hs : s.WellFormed) (joins : Joins t s)
    (h : ∀ seg new, s.step? seg = some new →
      ∃ old, t.step? seg = some old ∧ (hole seg new = true ∨ merge old new = old)) :
    merge t s = t := by
  cases t <;> cases s <;> try exact joins.elim
  case obj.obj fs gs =>
    rw [merge_obj, mergeFields_of_absorbed]
    intro g hg
    obtain ⟨old, hold, isHole | absorbed⟩ := h (.key g.1) g.2 (lookup_of_mem hs.keys_nodup hg)
    · cases isHole
    · exact ⟨old, hold, absorbed⟩
  case arr.arr xs ys =>
    rw [merge_arr, mergeItems_of_absorbed]
    exact fun i => h (.index i)

theorem Joins.merge (h : Joins t s) : Joins (merge t s) s := by
  cases t <;> cases s <;> try exact h.elim
  case obj.obj fs gs => rw [merge_obj]; trivial
  case arr.arr xs ys => rw [merge_arr]; trivial

/-! ## Merging into itself and merging again -/

theorem merge_self (hs : s.WellFormed) : merge s s = s := by
  induction s using stepInduction with
  | step s ih =>
      by_cases joins : Joins s s
      · exact merge_of_absorbed hs joins fun seg v hv => ⟨v, hv, .inr (ih seg v hv (hs.step? hv))⟩
      · exact merge_of_not_joins joins

/-- What a merge holds one step in takes in what its source has there. -/
theorem exists_absorbed_overlay {seg : Segment} {held : Option Json} {new : Json}
    (hnew : new.WellFormed) (again : ∀ old, merge (merge old new) new = merge old new) :
    ∃ old, overlay seg held (some new) = some old ∧ (hole seg new = true ∨ merge old new = old) := by
  cases held with
  | none => exact ⟨new, rfl, .inr (merge_self hnew)⟩
  | some old =>
      by_cases isHole : hole seg new = true
      · exact ⟨_, rfl, .inl isHole⟩
      · refine ⟨_, rfl, .inr ?_⟩
        rw [if_neg isHole, again]

/-- **Merging the same source again changes nothing, and neither does merging a tree into itself.** -/
theorem merge_again (t : Json) {s : Json} (hs : s.WellFormed) :
    merge (merge t s) s = merge t s ∧ merge s s = s := by
  refine ⟨?_, merge_self hs⟩
  induction s using stepInduction generalizing t with
  | step s ih =>
      by_cases joins : Joins t s
      · have joins' : Joins (merge t s) s := joins.merge
        refine merge_of_absorbed hs joins' fun seg new hnew => ?_
        rw [step?_merge hs joins.alike, hnew]
        exact exists_absorbed_overlay (hs.step? hnew) fun old => ih seg new hnew old (hs.step? hnew)
      · rw [merge_of_not_joins joins, merge_self hs]

/-- A row with one element, and a text. -/
def shortRow : Json :=
  obj [("row", arr [.str "a"]), ("k", .str "b")]

/-- The keys in the other order: an object in the place of the text, and nulls in front of the last
element of the row. -/
def longRow : Json :=
  obj [("k", obj []), ("row", arr [null, null, .str "c"]), ("l", null)]

theorem merge_again_longRow :
    longRow.WellFormed ∧
      merge (merge shortRow longRow) longRow = merge shortRow longRow ∧
      merge longRow longRow = longRow := by
  have wf : longRow.WellFormed := by simp [longRow, WellFormed, WellFormedItems, WellFormedFields]
  exact ⟨wf, merge_again shortRow wf⟩

end Stencil.Json
