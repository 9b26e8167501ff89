import Mathlib.Data.List.Perm.Basic
import Stencil.Proofs.Template.Copy
import Stencil.Proofs.Template.Linear

/-!
# The order of the members

The strings of a template are learned from in the order of the document, and merging
is not commutative.  It is if nothing collides: when the paths of any two tokens
diverge, data that was merged in one order holds every value at its path, so what is
merged in another order, whose pieces are put at the same paths, is a partial copy
of it (`partOf_merged_of_subset`).  Each of the two is a partial copy of the other
then, and they are the same value.

Reordering the members of objects in a template reorders its strings and leaves each
beside what it was beside, because members are looked up by their keys
(`leaves_perm`).  So whether data is recovered, and which data, does not depend on
the order of the members (`recover_reordered`).
-/

set_option autoImplicit false

namespace Stencil

variable {placed placed' : List (List (Token × Json))}

/-! ## Merging in another order -/

theorem Linear.rooted {placed : List (List (Token × Json))}
    (linear : Linear (placed.flatten.map Prod.fst)) :
    ∀ values ∈ placed, ∀ c ∈ values, c.1.target.Rooted := by
  intro values hvalues c hc
  have hmem : c ∈ placed.flatten := List.mem_flatten.2 ⟨values, hvalues, hc⟩
  exact (linear.place c.1 (List.mem_map_of_mem hmem)).assignable.rooted

/-- Values merged at paths that start with keys make an object. -/
theorem isObj_merged (rooted : ∀ values ∈ placed, ∀ c ∈ values, c.1.target.Rooted) :
    (merged placed).isObj = true := by
  refine Json.isObj_foldl_merge rfl fun part hpart => ?_
  obtain ⟨values, hvalues, rfl⟩ := List.mem_map.1 hpart
  exact isObj_gather (rooted values hvalues)

/-- **What is merged of some of the values is a partial copy of what is merged of all**, in whatever
order, if nothing collides. -/
theorem partOf_merged_of_subset (linear : Linear (placed.flatten.map Prod.fst))
    (wf : ∀ c ∈ placed.flatten, c.2.WellFormed) (subset : placed' ⊆ placed) :
    (merged placed').WellFormed ∧ Json.PartOf (merged placed') (merged placed) := by
  have carries := carries_merged linear wf
  have held : ∀ values ∈ placed', ∀ c ∈ values, Held (merged placed) c := by
    intro values hvalues c hc
    have hmem : c ∈ placed.flatten := List.mem_flatten.2 ⟨values, subset hvalues, hc⟩
    have hwf := wf c hmem
    have bounded := (linear.place c.1 (List.mem_map_of_mem hmem)).assignable.bounded
    exact ⟨bounded, hwf, c.2, carries.holds _ (List.mem_map_of_mem hmem), Json.same_refl hwf⟩
  have hobj := isObj_merged linear.rooted
  obtain ⟨hwf, hpart, -⟩ := partOf_merged_of_held hobj carries.wellFormed held
  exact ⟨hwf, hpart⟩

theorem Linear.perm {tokens tokens' : List Token} (linear : Linear tokens)
    (perm : tokens.Perm tokens') : Linear tokens' where
  place t ht := linear.place t (perm.mem_iff.2 ht)
  apart := perm.pairwise linear.apart fun h => h.symm

/-- **Merging in another order gives the same value** if nothing collides. -/
theorem same_merged_of_perm (linear : Linear (placed.flatten.map Prod.fst))
    (wf : ∀ c ∈ placed.flatten, c.2.WellFormed) (perm : placed.Perm placed') :
    (merged placed).same (merged placed') = true := by
  have flat : placed.flatten.Perm placed'.flatten := perm.flatten
  -- each order is compared with the other one as the tree that holds all values
  obtain ⟨hwf', hpart'⟩ := partOf_merged_of_subset linear wf perm.symm.subset
  obtain ⟨hwf, hpart⟩ := partOf_merged_of_subset (linear.perm (flat.map Prod.fst))
    (fun c hc => wf c (flat.mem_iff.2 hc)) perm.subset
  exact Json.PartOf.antisymm hwf hwf' hpart hpart'

namespace Template

/-! ## Reordered templates -/

/-- The second tree is the first with the members of some of its objects in another order. -/
inductive Reordered : Json → Json → Prop where
  | refl (t : Json) : Reordered t t
  | trans {t t' t'' : Json} : Reordered t t' → Reordered t' t'' → Reordered t t''
  | members {fs gs : List (String × Json)} : fs.Perm gs → Reordered (.obj fs) (.obj gs)
  | member {v w : Json} (before : List (String × Json)) (k : String)
      (after : List (String × Json)) : Reordered v w →
      Reordered (.obj (before ++ (k, v) :: after)) (.obj (before ++ (k, w) :: after))
  | element {v w : Json} (before after : List Json) : Reordered v w →
      Reordered (.arr (before ++ v :: after)) (.arr (before ++ w :: after))

theorem leavesFields_eq_flatMap (fs gs : List (String × Json)) :
    leavesFields fs gs = fs.flatMap fun f => leaves f.2 (gs.lookup f.1) := by
  induction fs with
  | nil => rfl
  | cons f fs ih =>
      obtain ⟨k, v⟩ := f
      rw [leavesFields, ih, List.flatMap_cons]

theorem leavesItems_append (xs zs ys : List Json) :
    leavesItems (xs ++ zs) ys = leavesItems xs ys ++ leavesItems zs (ys.drop xs.length) := by
  induction xs generalizing ys with
  | nil => rfl
  | cons x xs ih =>
      rw [List.cons_append, leavesItems, leavesItems, ih, List.append_assoc, List.drop_tail,
        List.length_cons]

variable {d : Delimiters} {t t' : Template} {result data : Json}

/-- **Reordering members reorders the strings, each of which stays beside what it was beside.** -/
theorem leaves_perm (reordered : Reordered t t') (r : Option Json) :
    (leaves t r).Perm (leaves t' r) := by
  induction reordered generalizing r with
  | refl t => exact .refl _
  | trans _ _ first second => exact (first r).trans (second r)
  | members perm =>
      rw [leaves, leaves, leavesFields_eq_flatMap, leavesFields_eq_flatMap]
      exact perm.flatMap_right _
  | member before k after _ ih =>
      rw [leaves, leaves, leavesFields_eq_flatMap, leavesFields_eq_flatMap, List.flatMap_append,
        List.flatMap_append, List.flatMap_cons, List.flatMap_cons]
      exact ((ih _).append_right _).append_left _
  | element before after _ ih =>
      -- elements are found by their positions, which stay
      rw [leaves, leaves, leavesItems_append, leavesItems_append, leavesItems, leavesItems]
      exact ((ih _).append_right _).append_left _

/-! ## Recovering from reordered templates -/

/-- The paths of the template start with keys, and any two of them diverge. -/
def Apart (d : Delimiters) (t : Template) : Prop :=
  ∀ lines, t.lines d = .ok lines →
    (∀ token ∈ lines.flatMap Line.tokens, token.target.Rooted) ∧
      (lines.flatMap Line.tokens).Pairwise fun a b => a.target.Diverges b.target

instance (d : Delimiters) (t : Template) : Decidable (Apart d t) :=
  match h : t.lines d with
  | .error _ => isTrue fun _ hlines => nomatch h.symm.trans hlines
  | .ok lines =>
    decidable_of_iff ((∀ token ∈ lines.flatMap Line.tokens, token.target.Rooted) ∧
        (lines.flatMap Line.tokens).Pairwise fun a b => a.target.Diverges b.target)
      ⟨fun apart _ hlines => by cases h.symm.trans hlines; exact apart, fun apart => apart lines h⟩

theorem sublist_tokens {lines : List Line}
    (h : List.Forall₂ (fun l values => (values.map Prod.fst).Sublist l.tokens) lines placed) :
    (placed.flatten.map Prod.fst).Sublist (lines.flatMap Line.tokens) := by
  induction h with
  | nil => exact .refl _
  | cons hvalues _ ih =>
      rw [List.flatten_cons, List.map_append, List.flatMap_cons]
      exact hvalues.append ih

/-- The values of a template whose paths do not collide are put at linear paths. -/
theorem Apart.linear [Engine] (apart : Apart d t) {r : Option Json}
    (h : List.Forall₂ (GivesBack d) (leaves t r) placed) :
    Linear (placed.flatten.map Prod.fst) := by
  obtain ⟨lines, hlines, htokens⟩ := exists_lines_of_givesBack h
  obtain ⟨rooted, diverge⟩ := apart lines hlines
  have sublist := sublist_tokens (htokens.imp fun _ _ h => h.1)
  refine ⟨fun token htoken => ?_, diverge.sublist sublist⟩
  obtain ⟨c, hc, rfl⟩ := List.mem_map.1 htoken
  obtain ⟨values, hvalues, hc⟩ := List.mem_flatten.1 hc
  obtain ⟨_, -, -, writable⟩ := exists_left_of_forall₂ htokens hvalues
  exact ⟨(writable c hc).readPath, rooted _ (sublist.subset htoken), (writable c hc).bounded⟩

/-- From the same strings in another order the same values are given back, in another order. -/
theorem exists_perm_of_recover [Engine]
    (perm : (leaves t (some result)).Perm (leaves t' (some result)))
    (h : recover d t result = .ok data) :
    ∃ placed placed', List.Forall₂ (GivesBack d) (leaves t (some result)) placed ∧
      merged placed = data ∧ placed.Perm placed' ∧
      recover d t' result = .ok (merged placed') := by
  obtain ⟨placed, hplaced, hdata⟩ := recover_eq_ok_iff.1 h
  obtain ⟨placed', hplaced', perm'⟩ := List.perm_comp_forall₂ perm.symm hplaced
  exact ⟨placed, placed', hplaced, hdata, perm'.symm, recover_eq_ok_iff.2 ⟨placed', hplaced', rfl⟩⟩

/-- **The order of the members does not matter if no paths collide.**  Data is recovered from the
reordered template whenever it is from the template, and it is the same value. -/
theorem recover_reordered [Engine] (hresult : result.WellFormed) (apart : Apart d t)
    (reordered : Reordered t t') :
    ((∃ data, recover d t result = .ok data) ↔ ∃ data', recover d t' result = .ok data') ∧
      ∀ data data', recover d t result = .ok data → recover d t' result = .ok data' →
        data.same data' = true := by
  have perm := leaves_perm reordered (some result)
  refine ⟨⟨fun ⟨data, h⟩ => ?_, fun ⟨data', h'⟩ => ?_⟩, fun data data' h h' => ?_⟩
  · obtain ⟨_, placed', -, -, -, h'⟩ := exists_perm_of_recover perm h
    exact ⟨_, h'⟩
  · obtain ⟨_, placed, -, -, -, h⟩ := exists_perm_of_recover perm.symm h'
    exact ⟨_, h⟩
  · obtain ⟨placed, placed', hplaced, rfl, permPlaced, hrecover⟩ := exists_perm_of_recover perm h
    cases hrecover.symm.trans h'
    refine same_merged_of_perm (apart.linear hplaced) (fun c hc => ?_) permPlaced
    obtain ⟨values, hvalues, hc⟩ := List.mem_flatten.1 hc
    exact (gatherable_of_givesBack hresult hplaced values hvalues c hc).2

/-- Strings at two depths, with paths that extend one array from both sides. -/
def form : Template :=
  .obj [("head", .str "<a[2]>/<b>"),
    ("rows", .arr [.obj [("x", .str "<a[0].k>"), ("y", .str "<c>")]])]

/-- The form with the members of both objects in another order. -/
def formReordered : Template :=
  .obj [("rows", .arr [.obj [("y", .str "<c>"), ("x", .str "<a[0].k>")]]),
    ("head", .str "<a[2]>/<b>")]

/-- A tree beside both. -/
def formResult : Json :=
  .obj [("rows", .arr [.obj [("x", .bool true), ("y", .null)]]), ("head", .str "u/v")]

theorem recover_reordered_form :
    ∃ data data', recover angles.delimiters form formResult = .ok data ∧
      recover angles.delimiters formReordered formResult = .ok data' ∧
      data.same data' = true := by
  have wf : formResult.WellFormed := by
    simp [formResult, Json.WellFormed, Json.WellFormedItems, Json.WellFormedFields]
  have apart : Apart angles.delimiters form := by decide +kernel
  have reordered : Reordered form formReordered := by
    refine .trans (.member [("head", .str "<a[2]>/<b>")] "rows" [] (.element [] [] ?_))
      (.members (.swap _ _ _))
    exact .members (.swap _ _ _)
  obtain ⟨iff, same⟩ := recover_reordered wf apart reordered
  have first := @eq_ok_get _ _ (recover angles.delimiters form formResult) (by decide +kernel)
  obtain ⟨data', second⟩ := iff.1 ⟨_, first⟩
  exact ⟨_, data', first, second, same _ _ first second⟩

end Template

end Stencil
