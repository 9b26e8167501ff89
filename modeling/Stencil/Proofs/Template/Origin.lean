import Stencil.Proofs.Template.Paths

/-!
# Where recovered values come from

A place is off a list of tokens if it lies neither on the path of one of them nor
behind it.  The piece of each token is vacant there: assigning fills up arrays with
nulls and makes containers on its way, but puts values nowhere else.  Merging,
whatever it replaces, gives a place nothing that neither side has.  So nothing is
recovered off the tokens (`vacant_merged`), and every value that is recovered is on
one of the paths that the template refers to (`exists_path_of_recover`).
-/

set_option autoImplicit false

namespace Stencil

variable {p q : Path} {placed : List (List (Token × Json))}

/-- **What the lines give back has nothing at a place off all tokens**, however often the values
that are merged replace each other. -/
theorem vacant_merged (ready : ∀ values ∈ placed, Gatherable values) (hp : p ≠ [])
    (off : ∀ values ∈ placed, ∀ c ∈ values, ¬ c.1.target.Overlaps p) :
    (merged placed).Vacant p := by
  refine Json.Vacant.foldl_merge (Json.vacant_obj_nil hp) fun part hpart => ?_
  obtain ⟨values, hvalues, rfl⟩ := List.mem_map.1 hpart
  exact ⟨wellFormed_gather (ready values hvalues),
    vacant_gather (ready values hvalues) hp (off values hvalues)⟩

namespace Template

variable {d : Delimiters} {t : Template} {result data v : Json}

/-- **Everything that is recovered is on a path that the template refers to**: on the way to the end
of one, or behind it. -/
theorem exists_path_of_recover [Engine] (hresult : result.WellFormed) (h : recover d t result = .ok data)
    (hq : q ≠ []) (held : data.walk? q = some v) (hv : v ≠ .null) :
    ∃ ps, t.paths d = .ok ps ∧
      ∃ text ∈ ps, ∃ p, Path.ofText text = .ok p ∧ (q <+: p ∨ p <+: q) := by
  obtain ⟨placed, hplaced, rfl⟩ := recover_eq_ok_iff.1 h
  obtain ⟨lines, hlines, htokens⟩ := exists_lines_of_givesBack hplaced
  have hpaths := paths_eq_ok_iff.2 ⟨lines, hlines, rfl⟩
  refine ⟨_, hpaths, ?_⟩
  -- a place off all paths would be vacant, and what is held there null
  by_contra elsewhere
  have off : ∀ values ∈ placed, ∀ c ∈ values, ¬ c.1.target.Overlaps q := by
    intro values hvalues c hc overlaps
    obtain ⟨l, hl, sublist, writable⟩ := exists_left_of_forall₂ htokens hvalues
    have htoken : c.1 ∈ l.tokens := sublist.subset (List.mem_map_of_mem hc)
    exact elsewhere ⟨c.1.path, mem_of_paths hpaths hlines hl htoken, c.1.target,
      Token.ofText_of_readPath (writable c hc).readPath, overlaps.symm⟩
  have vacant := vacant_merged (gatherable_of_givesBack hresult hplaced) hq off
  exact hv (vacant v held)

/-- Two tokens whose paths collide. -/
def collision : Template :=
  .arr [.str "<a.b>", .str "<a>"]

/-- A tree beside it. -/
def collisionResult : Json :=
  .arr [.bool true, .obj [("c", .str "x")]]

theorem exists_path_of_recover_collision :
    recover angles.delimiters collision collisionResult =
        .ok (.obj [("a", .obj [("b", .bool true), ("c", .str "x")])]) ∧
      ∃ ps, collision.paths angles.delimiters = .ok ps ∧ ∃ text ∈ ps, ∃ p,
        Path.ofText text = .ok p ∧
          ([.key "a", .key "c"] <+: p ∨ p <+: [.key "a", .key "c"]) := by
  have recovered : recover angles.delimiters collision collisionResult =
      .ok (.obj [("a", .obj [("b", .bool true), ("c", .str "x")])]) := by
    with_unfolding_all rfl
  refine ⟨recovered, exists_path_of_recover (v := .str "x") ?_ recovered ?_ rfl ?_⟩
  · simp [collisionResult, Json.WellFormed, Json.WellFormedFields]
  · exact List.cons_ne_nil _ _
  · exact fun h => by cases h

end Template

end Stencil
