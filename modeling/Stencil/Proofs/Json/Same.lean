import Mathlib.Data.List.Perm.Subperm
import Stencil.Json.Equality
import Stencil.Proofs.Json.Step

/-!
# Equality of values, one step at a time

Two trees are alike when they agree as far as can be seen without a step: both
are arrays, or both are objects, or they are the same scalar.  Well-formed trees
are the same value exactly when they are alike and, whatever the step, what lies
one step into the one is the same as what lies one step into the other
(`same_iff`).  The order of the members of an object leaves no trace in that
description, so it gives at once that being the same value is an equivalence.
-/

set_option autoImplicit false

namespace Stencil

theorem Double.same_trans {x y z : Double} (hxy : x.same y = true) (hyz : y.same z = true) :
    x.same z = true := by
  simp only [Double.same, Bool.or_eq_true, beq_iff_eq, Bool.and_eq_true] at *
  rcases hxy with rfl | ⟨hx, hy⟩
  · exact hyz
  · rcases hyz with rfl | ⟨-, hz⟩
    · exact .inr ⟨hx, hy⟩
    · exact .inr ⟨hx, hz⟩

theorem Number.same_comm (m n : Number) : m.same n = n.same m := by
  cases m <;> cases n <;> simp [Number.same, BEq.comm, Double.same_comm]

theorem Number.same_trans {l m n : Number} (hlm : l.same m = true) (hmn : m.same n = true) :
    l.same n = true := by
  cases l <;> cases m <;> cases n <;> simp_all [Number.same]
  exact Double.same_trans hlm hmn

namespace Json

/-- Both are arrays, or both objects, or they are the same scalar. -/
def Alike : Json → Json → Prop
  | null, null => True
  | bool a, bool b => a = b
  | num m, num n => m.same n = true
  | str s, str t => s = t
  | arr _, arr _ => True
  | obj _, obj _ => True
  | _, _ => False

@[simp] theorem Alike.refl (v : Json) : Alike v v := by
  cases v <;> simp [Alike]

theorem Alike.symm {v w : Json} (h : Alike v w) : Alike w v := by
  cases v <;> cases w <;> simp_all [Alike, Number.same_comm]

theorem Alike.trans {u v w : Json} (huv : Alike u v) (hvw : Alike v w) : Alike u w := by
  cases u <;> cases v <;> cases w <;> simp_all [Alike]
  exact Number.same_trans huv hvw

theorem Alike.isObj_eq {v w : Json} (h : Alike v w) : v.isObj = w.isObj := by
  cases v <;> cases w <;> simp_all [Alike, isObj]

@[simp] theorem alike_null {v : Json} : Alike v null ↔ v = null := by
  cases v <;> simp [Alike]

@[simp] theorem null_alike {v : Json} : Alike null v ↔ v = null := by
  cases v <;> simp [Alike]

/-- There is nothing on either side, or there are two trees that the relation holds between. -/
def Both (r : Json → Json → Prop) : Option Json → Option Json → Prop
  | none, none => True
  | some v, some w => r v w
  | _, _ => False

/-! ## One step of the comparison -/

theorem sameItems_iff (xs ys : List Json) :
    sameItems xs ys = true ↔ ∀ i : Nat, Both (fun v w => v.same w = true) (xs[i]? : Option Json) ys[i]? := by
  induction xs generalizing ys with
  | nil =>
      cases ys with
      | nil => simp [sameItems, Both]
      | cons y ys =>
          simp only [sameItems, Bool.false_eq_true, false_iff, not_forall]
          exact ⟨0, by simp [Both]⟩
  | cons x xs ih =>
      cases ys with
      | nil =>
          simp only [sameItems, Bool.false_eq_true, false_iff, not_forall]
          exact ⟨0, by simp [Both]⟩
      | cons y ys =>
          simp only [sameItems, Bool.and_eq_true, ih]
          refine ⟨fun h i => ?_, fun h => ⟨h 0, fun i => h (i + 1)⟩⟩
          cases i with
          | zero => exact h.1
          | succ i => exact h.2 i

theorem sameFields_iff {fs gs : List (String × Json)} :
    sameFields fs gs = true ↔
      ∀ f ∈ fs, ∃ w, gs.lookup f.1 = some w ∧ f.2.same w = true := by
  induction fs with
  | nil => simp [sameFields]
  | cons f fs ih =>
      obtain ⟨k, v⟩ := f
      simp only [sameFields, Bool.and_eq_true, ih, List.forall_mem_cons]
      refine and_congr_left fun _ => ?_
      cases gs.lookup k <;> simp

/-- Members with distinct keys, and no more of them than there are in a list that has all their
keys, have all the keys of that list. -/
theorem mem_keys_of_subset {fs gs : List (String × Json)} (hf : (fs.map Prod.fst).Nodup)
    (hlength : gs.length ≤ fs.length) (hsub : fs.map Prod.fst ⊆ gs.map Prod.fst) {k : String}
    (hk : k ∈ gs.map Prod.fst) : k ∈ fs.map Prod.fst :=
  ((List.subperm_of_subset hf hsub).perm_of_length_le (by simpa using hlength)).mem_iff.2 hk

theorem same_obj_iff {fs gs : List (String × Json)} (hf : (fs.map Prod.fst).Nodup)
    (hg : (gs.map Prod.fst).Nodup) :
    (obj fs).same (obj gs) = true ↔
      ∀ k, Both (fun v w => v.same w = true) (fs.lookup k) (gs.lookup k) := by
  simp only [same, Bool.and_eq_true, beq_iff_eq, sameFields_iff]
  refine ⟨fun ⟨hlength, hfields⟩ k => ?_, fun h => ⟨?_, fun f hf' => ?_⟩⟩
  · have hsub : fs.map Prod.fst ⊆ gs.map Prod.fst := by
      intro l hl
      obtain ⟨f, hf', rfl⟩ := List.mem_map.1 hl
      obtain ⟨w, hw, -⟩ := hfields f hf'
      exact lookup_isSome_iff_mem.1 (by rw [hw]; rfl)
    cases hfk : fs.lookup k with
    | some v =>
        obtain ⟨w, hw, hvw⟩ := hfields (k, v) (mem_of_lookup hfk)
        rw [hw]
        exact hvw
    | none =>
        cases hgk : gs.lookup k with
        | none => trivial
        | some w =>
            have hk := mem_keys_of_subset hf (Nat.le_of_eq hlength.symm) hsub
              (lookup_isSome_iff_mem.1 (by rw [hgk]; rfl))
            rw [← lookup_isSome_iff_mem, hfk] at hk
            cases hk
  · have hkeys : ∀ k, k ∈ fs.map Prod.fst ↔ k ∈ gs.map Prod.fst := by
      intro k
      have hk := h k
      rw [← lookup_isSome_iff_mem, ← lookup_isSome_iff_mem]
      cases hfk : fs.lookup k <;> cases hgk : gs.lookup k <;> simp_all [Both]
    simpa using ((List.perm_ext_iff_of_nodup hf hg).2 hkeys).length_eq
  · have hk := h f.1
    rw [lookup_of_mem hf hf'] at hk
    cases hgk : gs.lookup f.1 with
    | none => rw [hgk] at hk; exact hk.elim
    | some w => rw [hgk] at hk; exact ⟨w, rfl, hk⟩

/-- **Well-formed trees are the same value exactly when they are alike and the same one step
in.** -/
theorem same_iff {v w : Json} (hv : v.WellFormed) (hw : w.WellFormed) :
    v.same w = true ↔
      Alike v w ∧ ∀ s, Both (fun a b => a.same b = true) (v.step? s) (w.step? s) := by
  cases v <;> cases w
  case arr.arr xs ys =>
    simp only [same, Alike, true_and, sameItems_iff]
    refine ⟨fun h s => ?_, fun h i => h (.index i)⟩
    cases s with
    | key k => trivial
    | index i => exact h i
  case obj.obj fs gs =>
    simp only [Alike, true_and, same_obj_iff hv.keys_nodup hw.keys_nodup]
    refine ⟨fun h s => ?_, fun h k => h (.key k)⟩
    cases s with
    | key k => exact h k
    | index i => trivial
  all_goals simp [same, Alike, step?, Both]

theorem alike_of_same {v w : Json} (h : v.same w = true) : Alike v w := by
  cases v <;> cases w <;> simp_all [same, Alike]

/-! ## Being the same value is an equivalence -/

theorem same_refl {v : Json} (hv : v.WellFormed) : v.same v = true := by
  induction v using stepInduction with
  | step v ih =>
      refine (same_iff hv hv).2 ⟨.refl v, fun s => ?_⟩
      cases h : v.step? s with
      | none => trivial
      | some w => exact ih s w h (hv.step? h)

theorem same_symm {v w : Json} (hv : v.WellFormed) (hw : w.WellFormed)
    (h : v.same w = true) : w.same v = true := by
  induction v using stepInduction generalizing w with
  | step v ih =>
      obtain ⟨alike, steps⟩ := (same_iff hv hw).1 h
      refine (same_iff hw hv).2 ⟨alike.symm, fun s => ?_⟩
      have hs := steps s
      cases hvs : v.step? s with
      | none => rw [hvs] at hs; cases hws : w.step? s <;> simp_all [Both]
      | some a =>
          cases hws : w.step? s with
          | none => rw [hvs, hws] at hs; exact hs.elim
          | some b =>
              rw [hvs, hws] at hs
              exact ih s a hvs (hv.step? hvs) (hw.step? hws) hs

theorem same_trans {u v w : Json} (hu : u.WellFormed) (hv : v.WellFormed) (hw : w.WellFormed)
    (huv : u.same v = true) (hvw : v.same w = true) : u.same w = true := by
  induction u using stepInduction generalizing v w with
  | step u ih =>
      obtain ⟨alike, steps⟩ := (same_iff hu hv).1 huv
      obtain ⟨alike', steps'⟩ := (same_iff hv hw).1 hvw
      refine (same_iff hu hw).2 ⟨alike.trans alike', fun s => ?_⟩
      have hs := steps s
      have hs' := steps' s
      cases hus : u.step? s <;> cases hvs : v.step? s <;> cases hws : w.step? s <;>
        simp only [hus, hvs, hws, Both] at hs hs' ⊢
      exact ih s _ hus (hu.step? hus) (hv.step? hvs) (hw.step? hws) hs hs'

end Json

end Stencil
