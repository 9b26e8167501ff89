import Stencil.Json.Merge
import Stencil.Proofs.Json.Same

/-!
# What a merge holds

The merge of two trees is described place by place.  If the two are alike, what
lies one step into the merge depends only on what lies one step into each of them
(`step?_merge`): with nothing on one side it is what the other side has, a hole of
the source leaves the target as it is, and otherwise the two are merged.  If they
are not alike the source wins (`merge_of_not_alike`).

A hole is a null at an index.  It fills the gap in front of an index that was
assigned, so it stands for no value; a null under a key is a value.
-/

set_option autoImplicit false

namespace Stencil.Json

/-- Whether the tree, at the end of such a step, is a hole. -/
def hole : Segment → Json → Bool
  | .index _, null => true
  | _, _ => false

@[simp] theorem hole_key (k : String) (v : Json) : hole (.key k) v = false := rfl

@[simp] theorem hole_index (i : Nat) (v : Json) : hole (.index i) v = v.isNull := by
  cases v <;> rfl

theorem hole_iff {s : Segment} {v : Json} : hole s v = true ↔ v = null ∧ ∃ i, s = .index i := by
  cases s <;> cases v <;> simp [hole]

/-- What the merge holds at the end of a step, given what the target and the source hold there. -/
def overlay (s : Segment) : Option Json → Option Json → Option Json
  | old, none => old
  | none, some new => some new
  | some old, some new => some (if hole s new then old else merge old new)

@[simp] theorem overlay_none_right (s : Segment) (old : Option Json) :
    overlay s old none = old := by
  cases old <;> rfl

@[simp] theorem overlay_none_left (s : Segment) (new : Option Json) :
    overlay s none new = new := by
  cases new <;> rfl

@[simp] theorem merge_null (v : Json) : merge null v = v := by
  cases v <;> simp [merge]

theorem merge_of_not_alike {v w : Json} (h : ¬ Alike v w) : merge v w = w := by
  cases v <;> cases w <;> simp_all [merge, Alike]

/-- The merge is of the kind of its source. -/
theorem merge_alike (v w : Json) : Alike (merge v w) w := by
  cases v <;> cases w <;> simp [merge, Alike]

theorem isObj_merge (v w : Json) : (merge v w).isObj = w.isObj :=
  (merge_alike v w).isObj_eq

/-- Objects merged into an object make an object. -/
theorem isObj_foldl_merge {t : Json} {parts : List Json} (ht : t.isObj = true)
    (hparts : ∀ part ∈ parts, part.isObj = true) : (parts.foldl merge t).isObj = true := by
  refine List.foldlRecOn (motive := fun t => t.isObj = true) parts merge ht fun t _ part hpart => ?_
  rw [isObj_merge]
  exact hparts part hpart

/-- Merging an empty object into an object changes nothing. -/
theorem merge_obj_nil {v : Json} (h : v.isObj = true) : merge v (obj []) = v := by
  cases v with
  | obj fs => rw [merge_obj, mergeFields]
  | null | bool _ | num _ | str _ | arr _ => cases h

/-! ## The members of a merge -/

theorem lookup_putKey (k l : String) (v : Json) (fs : List (String × Json)) :
    (putKey k v fs).lookup l = if l = k then some v else fs.lookup l := by
  split
  · next h => rw [h, lookup_putKey_self]
  · next h => exact lookup_putKey_of_ne v fs h

theorem keys_putKey (k : String) (v : Json) (fs : List (String × Json)) :
    (putKey k v fs).map Prod.fst =
      if k ∈ fs.map Prod.fst then fs.map Prod.fst else fs.map Prod.fst ++ [k] := by
  induction fs with
  | nil => simp [putKey]
  | cons f fs ih =>
      obtain ⟨l, w⟩ := f
      by_cases h : l = k
      · simp [putKey, h]
      · simp only [putKey, if_neg h, List.map_cons, ih, List.mem_cons, Ne.symm h, false_or]
        split <;> simp

/-- Setting a key keeps the keys of an object distinct. -/
theorem nodup_putKey {k : String} {v : Json} {fs : List (String × Json)}
    (h : (fs.map Prod.fst).Nodup) : ((putKey k v fs).map Prod.fst).Nodup := by
  rw [keys_putKey]
  split
  · exact h
  · next hk => exact List.nodup_append.2 ⟨h, by simp, fun a ha b hb => by
      rintro rfl
      exact hk (List.mem_singleton.1 hb ▸ ha)⟩

theorem nodup_mergeFields {fs : List (String × Json)} (gs : List (String × Json))
    (h : (fs.map Prod.fst).Nodup) : ((mergeFields fs gs).map Prod.fst).Nodup := by
  induction gs generalizing fs with
  | nil => simpa [mergeFields] using h
  | cons g gs ih =>
      obtain ⟨k, v⟩ := g
      rw [mergeFields]
      exact ih (nodup_putKey h)

theorem lookup_mergeFields (fs : List (String × Json)) {gs : List (String × Json)}
    (distinct : (gs.map Prod.fst).Nodup) (k : String) :
    (mergeFields fs gs).lookup k = overlay (.key k) (fs.lookup k) (gs.lookup k) := by
  induction gs generalizing fs with
  | nil => simp [mergeFields]
  | cons g gs ih =>
      obtain ⟨l, v⟩ := g
      simp only [List.map_cons, List.nodup_cons] at distinct
      rw [mergeFields, ih _ distinct.2, lookup_putKey]
      by_cases h : k = l
      · subst h
        have hk : gs.lookup k = none := by
          cases hg : gs.lookup k with
          | none => rfl
          | some w => exact absurd (lookup_isSome_iff_mem.1 (by rw [hg]; rfl)) distinct.1
        rw [if_pos rfl, hk, List.lookup_cons_self, overlay_none_right]
        cases fs.lookup k <;> simp [overlay]
      · rw [if_neg h, List.lookup_cons, beq_false_of_ne h]

/-! ## The elements of a merge -/

theorem getElem?_mergeItems (xs ys : List Json) (i : Nat) :
    (mergeItems xs ys)[i]? = overlay (.index i) xs[i]? ys[i]? := by
  induction i generalizing xs ys with
  | zero =>
      cases xs with
      | nil => cases ys <;> simp [mergeItems]
      | cons x xs =>
          cases ys with
          | nil => simp [mergeItems]
          | cons y ys => cases y <;> simp [mergeItems, overlay, isNull]
  | succ i ih =>
      cases xs with
      | nil => cases ys <;> simp [mergeItems]
      | cons x xs =>
          cases ys with
          | nil => simp [mergeItems]
          | cons y ys =>
              simp only [mergeItems, List.getElem?_cons_succ, ih]
              cases xs[i]? <;> cases ys[i]? <;> simp [overlay]

/-! ## One step into a merge -/

/-- **One step into the merge of trees that are alike lies the overlay of what lies there in the
two.** -/
theorem step?_merge {v w : Json} (hw : w.WellFormed) (alike : Alike v w) (s : Segment) :
    (merge v w).step? s = overlay s (v.step? s) (w.step? s) := by
  cases v <;> cases w <;> try exact alike.elim
  case obj.obj fs gs =>
    rw [merge_obj]
    cases s with
    | key k => exact lookup_mergeFields fs hw.keys_nodup k
    | index i => rfl
  case arr.arr xs ys =>
    rw [merge_arr]
    cases s with
    | key k => rfl
    | index i => exact getElem?_mergeItems xs ys i
  all_goals simp [merge, step?]

/-- Merging well-formed trees gives a well-formed tree. -/
theorem wellFormed_merge {v w : Json} (hv : v.WellFormed) (hw : w.WellFormed) :
    (merge v w).WellFormed := by
  induction w using stepInduction generalizing v with
  | step w ih =>
      by_cases alike : Alike v w
      · refine wellFormed_iff.2 ⟨?_, fun s x hx => ?_⟩
        · cases v <;> cases w <;> try exact alike.elim
          case obj.obj fs gs =>
            rw [merge_obj]
            exact nodup_mergeFields gs hv.keys_nodup
          all_goals simp [merge, fields]
        · rw [step?_merge hw alike] at hx
          cases hold : v.step? s with
          | none => rw [hold, overlay_none_left] at hx; exact hw.step? hx
          | some old =>
              cases hnew : w.step? s with
              | none => rw [hold, hnew] at hx; cases hx; exact hv.step? hold
              | some new =>
                  rw [hold, hnew, overlay, Option.some.injEq] at hx
                  split at hx
                  · exact hx ▸ hv.step? hold
                  · exact hx ▸ ih s new hnew (hv.step? hold) (hw.step? hnew)
      · rw [merge_of_not_alike alike]
        exact hw

theorem wellFormed_foldl_merge {parts : List Json} {t : Json} (ht : t.WellFormed)
    (hparts : ∀ part ∈ parts, part.WellFormed) : (parts.foldl merge t).WellFormed :=
  List.foldlRecOn parts merge ht fun _ ht part hpart => wellFormed_merge ht (hparts part hpart)

end Stencil.Json
