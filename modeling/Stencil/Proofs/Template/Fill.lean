import Stencil.Proofs.Json.Retext
import Stencil.Proofs.Steps
import Stencil.Template.Fill

/-!
# Filling a template, string by string

A tree that a template became has, at the place of every string, what the string
became (`fillString_of_mem_leaves`), and the places are those of the strings in the
order of the document (`map_fst_leaves`).  So whatever is known of the strings is
known of the template: if every string can be filled, so can the template
(`exists_fill`), and if with other data every string becomes the same value, the
template becomes the same tree (`exists_refill`).

The tree is the template with every string replaced (`fill_eq_mapStrings`), and if
there is none, it is the first string that cannot be filled which decides
(`fill_eq_error_iff`).
-/

set_option autoImplicit false

namespace Stencil.Template

variable {o : Options} {data data' : Json}

/-! ## The answers of filling -/

theorem fill_arr_eq_ok_iff {xs : List Json} {r : Json} :
    fill o data (.arr xs) = .ok r ↔ ∃ ys, fillItems o data xs = .ok ys ∧ .arr ys = r := by
  rw [fill, bind_eq_ok_iff]
  simp [pure, Except.pure]

theorem fill_obj_eq_ok_iff {fs : List (String × Json)} {r : Json} :
    fill o data (.obj fs) = .ok r ↔ ∃ gs, fillFields o data fs = .ok gs ∧ .obj gs = r := by
  rw [fill, bind_eq_ok_iff]
  simp [pure, Except.pure]

/-- The elements are filled one by one. -/
theorem fillItems_eq_ok_iff {xs ys : List Json} :
    fillItems o data xs = .ok ys ↔ List.Forall₂ (fun x y => fill o data x = .ok y) xs ys := by
  induction xs generalizing ys with
  | nil =>
      rw [fillItems, List.forall₂_nil_left_iff]
      exact ⟨fun h => by cases h; rfl, fun h => by rw [h]⟩
  | cons x xs ih =>
      simp only [fillItems, bind_eq_ok_iff, List.forall₂_cons_left_iff, ← ih]
      refine exists_congr fun y => ⟨fun ⟨hy, ys', hys, h⟩ => ?_, fun ⟨ys', hy, hys, h⟩ => ?_⟩
      · cases h
        exact ⟨ys', hy, hys, rfl⟩
      · exact ⟨hy, ys', hys, by rw [h]; rfl⟩

/-- The members keep their keys and are filled one by one. -/
theorem fillFields_eq_ok_iff {fs gs : List (String × Json)} :
    fillFields o data fs = .ok gs ↔
      List.Forall₂ (fun f g => g.1 = f.1 ∧ fill o data f.2 = .ok g.2) fs gs := by
  induction fs generalizing gs with
  | nil =>
      rw [fillFields, List.forall₂_nil_left_iff]
      exact ⟨fun h => by cases h; rfl, fun h => by rw [h]⟩
  | cons f fs ih =>
      obtain ⟨k, v⟩ := f
      simp only [fillFields, bind_eq_ok_iff, List.forall₂_cons_left_iff, ← ih]
      refine ⟨fun ⟨w, hw, gs', hgs, h⟩ => ?_, fun ⟨g, gs', ⟨hk, hv⟩, hgs, h⟩ => ?_⟩
      · cases h
        exact ⟨(k, w), gs', ⟨rfl, hw⟩, hgs, rfl⟩
      · refine ⟨g.2, hv, gs', hgs, ?_⟩
        rw [h, ← hk]
        rfl

/-- The members that come out have the keys that went in. -/
theorem keys_of_fillFields {fs gs : List (String × Json)}
    (h : fillFields o data fs = .ok gs) : gs.map Prod.fst = fs.map Prod.fst := by
  have hkeys : List.Forall₂ Eq (gs.map Prod.fst) (fs.map Prod.fst) := by
    rw [List.forall₂_map_left_iff, List.forall₂_map_right_iff]
    exact ((fillFields_eq_ok_iff.1 h).imp fun _ _ hf => hf.1.symm).flip.imp fun _ _ => Eq.symm
  rwa [List.forall₂_eq_eq_eq] at hkeys

/-! ## The places of the strings -/

theorem mem_leavesFields {fs gs : List (String × Json)} {leaf : String × Option Json} :
    leaf ∈ leavesFields fs gs ↔ ∃ f ∈ fs, leaf ∈ leaves f.2 (gs.lookup f.1) := by
  induction fs with
  | nil => simp [leavesFields]
  | cons f fs ih =>
      obtain ⟨k, v⟩ := f
      simp only [leavesFields, List.mem_append, ih, List.exists_mem_cons_iff]

theorem mem_leavesItems {p : Json → Json → Prop} {xs ys : List Json}
    {leaf : String × Option Json} (h : List.Forall₂ p xs ys) (hleaf : leaf ∈ leavesItems xs ys) :
    ∃ x ∈ xs, ∃ y, p x y ∧ leaf ∈ leaves x (some y) := by
  induction h with
  | nil => cases hleaf
  | @cons x y xs ys hxy _ ih =>
      rw [leavesItems, List.head?_cons, List.tail_cons] at hleaf
      rcases List.mem_append.1 hleaf with hleaf | hleaf
      · exact ⟨x, List.mem_cons_self, y, hxy, hleaf⟩
      · obtain ⟨x', hx', found⟩ := ih hleaf
        exact ⟨x', List.mem_cons_of_mem x hx', found⟩

theorem exists_of_mem_leavesItems {xs ys : List Json} {leaf : String × Option Json}
    (hleaf : leaf ∈ leavesItems xs ys) :
    ∃ x ∈ xs, ∃ r : Option Json, (∀ y ∈ r, y ∈ ys) ∧ leaf ∈ leaves x r := by
  induction xs generalizing ys with
  | nil => cases hleaf
  | cons x xs ih =>
      rw [leavesItems] at hleaf
      rcases List.mem_append.1 hleaf with hleaf | hleaf
      · exact ⟨x, List.mem_cons_self, _, fun y hy => List.mem_of_head? hy, hleaf⟩
      · obtain ⟨x', hx', r, hr, hleaf⟩ := ih hleaf
        exact ⟨x', List.mem_cons_of_mem x hx', r, fun y hy => List.mem_of_mem_tail (hr y hy), hleaf⟩

/-- What a well-formed tree has at the place of a string is well-formed. -/
theorem wellFormed_of_mem_leaves {t : Template} {r : Option Json}
    (hr : ∀ v ∈ r, v.WellFormed) {leaf : String × Option Json} (hleaf : leaf ∈ leaves t r) :
    ∀ v ∈ leaf.2, v.WellFormed := by
  induction t using Json.memberInduction generalizing r with
  | null => cases hleaf
  | bool b => cases hleaf
  | num n => cases hleaf
  | str s =>
      cases List.mem_singleton.1 hleaf
      exact hr
  | arr xs ih =>
      obtain ⟨x, hx, r', hr', hleaf⟩ := exists_of_mem_leavesItems hleaf
      refine ih x hx (fun v hv => ?_) hleaf
      cases r with
      | none => cases hr' v hv
      | some w =>
          cases w with
          | arr ys => exact (Json.wellFormed_arr ys).1 (hr _ rfl) v (hr' v hv)
          | null | bool _ | num _ | str _ | obj _ => cases hr' v hv
  | obj fs ih =>
      obtain ⟨f, hf, hleaf⟩ := mem_leavesFields.1 hleaf
      refine ih f hf (fun v hv => ?_) hleaf
      cases r with
      | none => cases hv
      | some w =>
          cases w with
          | obj gs => exact ((Json.wellFormed_obj gs).1 (hr _ rfl)).2 _ (Json.mem_of_lookup hv)
          | null | bool _ | num _ | str _ | arr _ => cases hv

theorem map_fst_leavesItems {xs ys : List Json}
    (h : ∀ x ∈ xs, ∀ r, (leaves x r).map Prod.fst = strings x) :
    (leavesItems xs ys).map Prod.fst = xs.flatMap strings := by
  induction xs generalizing ys with
  | nil => rfl
  | cons x xs ih =>
      obtain ⟨hx, hxs⟩ := List.forall_mem_cons.1 h
      rw [leavesItems, List.map_append, hx, ih hxs, List.flatMap_cons]

theorem map_fst_leavesFields {fs gs : List (String × Json)}
    (h : ∀ f ∈ fs, ∀ r, (leaves f.2 r).map Prod.fst = strings f.2) :
    (leavesFields fs gs).map Prod.fst = fs.flatMap fun f => strings f.2 := by
  induction fs with
  | nil => rfl
  | cons f fs ih =>
      obtain ⟨hf, hfs⟩ := List.forall_mem_cons.1 h
      obtain ⟨k, v⟩ := f
      rw [leavesFields, List.map_append, hf, ih hfs, List.flatMap_cons]

/-- **The strings beside a tree are those of the template, in their order.** -/
theorem map_fst_leaves (t : Template) (r : Option Json) :
    (leaves t r).map Prod.fst = t.strings := by
  induction t using Json.memberInduction generalizing r with
  | null => rfl
  | bool b => rfl
  | num n => rfl
  | str s => rfl
  | arr xs ih => exact (map_fst_leavesItems ih).trans (map_fst_leavesItems ih).symm
  | obj fs ih => exact (map_fst_leavesFields ih).trans (map_fst_leavesFields ih).symm

theorem strings_arr (xs : List Json) : strings (.arr xs) = xs.flatMap strings :=
  map_fst_leavesItems fun x _ r => map_fst_leaves x r

theorem strings_obj (fs : List (String × Json)) :
    strings (.obj fs) = fs.flatMap fun f => strings f.2 :=
  map_fst_leavesFields fun f _ r => map_fst_leaves f.2 r

/-- **A tree that the template became has, at the place of every string, what the string became.** -/
theorem fillString_of_mem_leaves {t : Template} {r : Json} (wf : t.WellFormed)
    (h : fill o data t = .ok r) {leaf : String × Option Json}
    (hleaf : leaf ∈ leaves t (some r)) :
    ∃ v, leaf.2 = some v ∧ fillString o data leaf.1 = .ok v := by
  induction t using Json.memberInduction generalizing r with
  | null => cases hleaf
  | bool b => cases hleaf
  | num n => cases hleaf
  | str s =>
      cases List.mem_singleton.1 hleaf
      exact ⟨r, rfl, h⟩
  | arr xs ih =>
      obtain ⟨ys, hys, rfl⟩ := fill_arr_eq_ok_iff.1 h
      obtain ⟨x, hx, y, hxy, hleaf⟩ := mem_leavesItems (fillItems_eq_ok_iff.1 hys) hleaf
      exact ih x hx ((Json.wellFormed_arr xs).1 wf x hx) hxy hleaf
  | obj fs ih =>
      obtain ⟨gs, hgs, rfl⟩ := fill_obj_eq_ok_iff.1 h
      obtain ⟨distinct, all⟩ := (Json.wellFormed_obj fs).1 wf
      obtain ⟨f, hf, hleaf⟩ := mem_leavesFields.1 hleaf
      obtain ⟨g, hg, hkey, hfill⟩ := exists_right_of_forall₂ (fillFields_eq_ok_iff.1 hgs) hf
      have hlookup : gs.lookup f.1 = some g.2 := by
        rw [← hkey]
        exact Json.lookup_of_mem (keys_of_fillFields hgs ▸ distinct) hg
      rw [Option.map_some, Option.getD_some, Json.fields, hlookup] at hleaf
      exact ih f hf (all f hf) hfill hleaf

/-! ## The first string that cannot be filled -/

variable {fault : Fault}

theorem fill_arr_eq_error_iff {xs : List Json} :
    fill o data (.arr xs) = .error fault ↔ fillItems o data xs = .error fault := by
  rw [fill, bind_eq_error_iff]
  simp [pure, Except.pure]

theorem fill_obj_eq_error_iff {fs : List (String × Json)} :
    fill o data (.obj fs) = .error fault ↔ fillFields o data fs = .error fault := by
  rw [fill, bind_eq_error_iff]
  simp [pure, Except.pure]

theorem exists_fill_iff {t : Template}
    (h : ∀ fault, fill o data t = .error fault ↔
      FirstFault (fun _ => False) (fillString o data) t.strings fault) :
    (∃ r, fill o data t = .ok r) ↔
      ∀ s ∈ t.strings, FailsWith (fun _ => False) (fillString o data s) := by
  rw [forall_failsWith_iff, ← failsWith_false_iff]
  exact forall_congr' fun fault => not_congr (h fault)

theorem fillItems_eq_error_iff {xs : List Json}
    (h : ∀ x ∈ xs, ∀ fault, fill o data x = .error fault ↔
      FirstFault (fun _ => False) (fillString o data) (strings x) fault) :
    fillItems o data xs = .error fault ↔
      FirstFault (fun _ => False) (fillString o data) (xs.flatMap strings) fault := by
  induction xs with
  | nil => exact ⟨nofun, fun h => (not_firstFault_nil h).elim⟩
  | cons x xs ih =>
      obtain ⟨hx, hxs⟩ := List.forall_mem_cons.1 h
      rw [fillItems, List.flatMap_cons, firstFault_append_iff, ← exists_fill_iff hx, ← hx, ← ih hxs,
        seq_eq_error_iff]

theorem fillFields_eq_error_iff {fs : List (String × Json)}
    (h : ∀ f ∈ fs, ∀ fault, fill o data f.2 = .error fault ↔
      FirstFault (fun _ => False) (fillString o data) (strings f.2) fault) :
    fillFields o data fs = .error fault ↔
      FirstFault (fun _ => False) (fillString o data) (fs.flatMap fun f => strings f.2) fault := by
  induction fs with
  | nil => exact ⟨nofun, fun h => (not_firstFault_nil h).elim⟩
  | cons f fs ih =>
      obtain ⟨hf, hfs⟩ := List.forall_mem_cons.1 h
      obtain ⟨k, v⟩ := f
      rw [fillFields, List.flatMap_cons, firstFault_append_iff, ← exists_fill_iff hf, ← hf,
        ← ih hfs, seq_eq_error_iff]

/-- **A template cannot be filled exactly if one of its strings cannot, and the first of these
decides.** -/
theorem fill_eq_error_iff {t : Template} :
    fill o data t = .error fault ↔
      FirstFault (fun _ => False) (fillString o data) t.strings fault := by
  induction t using Json.memberInduction generalizing fault with
  | null => exact ⟨nofun, fun h => (not_firstFault_nil h).elim⟩
  | bool b => exact ⟨nofun, fun h => (not_firstFault_nil h).elim⟩
  | num n => exact ⟨nofun, fun h => (not_firstFault_nil h).elim⟩
  | str s =>
      rw [show strings (.str s) = [s] from rfl, firstFault_cons_iff]
      simp [fill, not_firstFault_nil]
  | arr xs ih =>
      rw [strings_arr, fill_arr_eq_error_iff]
      exact fillItems_eq_error_iff fun x hx _ => ih x hx
  | obj fs ih =>
      rw [strings_obj, fill_obj_eq_error_iff]
      exact fillFields_eq_error_iff fun f hf _ => ih f hf

/-! ## The template with its strings replaced -/

theorem fillItems_eq_mapStringsItems {g : String → Json} {xs : List Json}
    (h : ∀ x ∈ xs, fill o data x = .ok (mapStrings g x)) :
    fillItems o data xs = .ok (mapStringsItems g xs) := by
  induction xs with
  | nil => rfl
  | cons x xs ih =>
      obtain ⟨hx, hxs⟩ := List.forall_mem_cons.1 h
      rw [fillItems, hx, ih hxs]
      rfl

theorem fillFields_eq_mapStringsFields {g : String → Json} {fs : List (String × Json)}
    (h : ∀ f ∈ fs, fill o data f.2 = .ok (mapStrings g f.2)) :
    fillFields o data fs = .ok (mapStringsFields g fs) := by
  induction fs with
  | nil => rfl
  | cons f fs ih =>
      obtain ⟨hf, hfs⟩ := List.forall_mem_cons.1 h
      rw [fillFields, hf, ih hfs]
      rfl

/-- **A template becomes itself with every string replaced by what the string becomes.** -/
theorem fill_eq_mapStrings {g : String → Json} {t : Template}
    (h : ∀ s ∈ t.strings, fillString o data s = .ok (g s)) :
    fill o data t = .ok (mapStrings g t) := by
  induction t using Json.memberInduction with
  | null => rfl
  | bool b => rfl
  | num n => rfl
  | str s => exact h s List.mem_cons_self
  | arr xs ih =>
      rw [strings_arr] at h
      rw [fill, fillItems_eq_mapStringsItems fun x hx => ih x hx fun s hs =>
        h s (List.mem_flatMap.2 ⟨x, hx, hs⟩)]
      rfl
  | obj fs ih =>
      rw [strings_obj] at h
      rw [fill, fillFields_eq_mapStringsFields fun f hf => ih f hf fun s hs =>
        h s (List.mem_flatMap.2 ⟨f, hf, hs⟩)]
      rfl

/-! ## From the strings to the template -/

/-- **A template can be filled if each of its strings can.** -/
theorem exists_fill {t : Template} (h : ∀ s ∈ t.strings, ∃ v, fillString o data s = .ok v) :
    ∃ r, fill o data t = .ok r := by
  refine (exists_fill_iff fun fault => fill_eq_error_iff).2 fun s hs => ?_
  exact failsWith_false_iff.2 (h s hs)

theorem sameItems_of_forall₂ {xs ys : List Json}
    (h : List.Forall₂ (fun x y => x.same y = true) xs ys) : Json.sameItems xs ys = true := by
  induction h with
  | nil => rfl
  | cons hxy _ ih => rw [Json.sameItems, hxy, ih]; rfl

/-- Members with the same distinct keys in the same order are the same if their values are. -/
theorem same_obj_of_forall₂ {fs gs : List (String × Json)} (distinct : (gs.map Prod.fst).Nodup)
    (h : List.Forall₂ (fun f g => f.1 = g.1 ∧ f.2.same g.2 = true) fs gs) :
    (Json.obj fs).same (.obj gs) = true := by
  rw [Json.same, h.length_eq, beq_self_eq_true, Bool.true_and, Json.sameFields_iff]
  intro f hf
  obtain ⟨g, hg, hkey, hsame⟩ := exists_right_of_forall₂ h hf
  exact ⟨g.2, hkey ▸ Json.lookup_of_mem distinct hg, hsame⟩

/-- **A template becomes the same tree with other data if each of its strings becomes the same
value.** -/
theorem exists_refill {t : Template} {r : Json} (wf : t.WellFormed) (h : fill o data t = .ok r)
    (refills : ∀ s ∈ t.strings, ∀ v, fillString o data s = .ok v →
      ∃ v', fillString o data' s = .ok v' ∧ v'.same v = true) :
    ∃ r', fill o data' t = .ok r' ∧ r'.same r = true := by
  induction t using Json.memberInduction generalizing r with
  | null => cases h; exact ⟨_, rfl, rfl⟩
  | bool b => cases h; exact ⟨_, rfl, beq_self_eq_true b⟩
  | num n => cases h; exact ⟨_, rfl, Number.same_self n⟩
  | str s => exact refills s List.mem_cons_self r h
  | arr xs ih =>
      obtain ⟨ys, hys, rfl⟩ := fill_arr_eq_ok_iff.1 h
      rw [strings_arr] at refills
      obtain ⟨ys', hys', hsame⟩ := exists_forall₂_comp (fillItems_eq_ok_iff.1 hys)
        fun x hx y hxy => ih x hx ((Json.wellFormed_arr xs).1 wf x hx) hxy fun s hs =>
          refills s (List.mem_flatMap.2 ⟨x, hx, hs⟩)
      exact ⟨_, fill_arr_eq_ok_iff.2 ⟨ys', fillItems_eq_ok_iff.2 hys', rfl⟩,
        sameItems_of_forall₂ hsame⟩
  | obj fs ih =>
      obtain ⟨gs, hgs, rfl⟩ := fill_obj_eq_ok_iff.1 h
      obtain ⟨distinct, all⟩ := (Json.wellFormed_obj fs).1 wf
      rw [strings_obj] at refills
      obtain ⟨gs', hgs', hsame⟩ := exists_forall₂_comp (fillFields_eq_ok_iff.1 hgs)
        (p := fun f (g : String × Json) => g.1 = f.1 ∧ fill o data' f.2 = .ok g.2)
        (q := fun g' g => g'.1 = g.1 ∧ g'.2.same g.2 = true) fun f hf g ⟨hkey, hfill⟩ => by
          obtain ⟨w, hw, hsame⟩ := ih f hf (all f hf) hfill fun s hs =>
            refills s (List.mem_flatMap.2 ⟨f, hf, hs⟩)
          exact ⟨(f.1, w), ⟨rfl, hw⟩, hkey.symm, hsame⟩
      refine ⟨_, fill_obj_eq_ok_iff.2 ⟨gs', fillFields_eq_ok_iff.2 hgs', rfl⟩, ?_⟩
      exact same_obj_of_forall₂ (keys_of_fillFields hgs ▸ distinct) hsame

end Stencil.Template
