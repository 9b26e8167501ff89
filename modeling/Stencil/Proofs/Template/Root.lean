import Stencil.Proofs.Template.Plain

/-!
# Objects and arrays at the root

The data starts as an empty object, but it need not stay one.  A token whose path
starts with an index puts its value into an array, and where a merge meets trees of
different kinds its source wins.  So the last value decides what a string gives back
(`hasRoot_gather`), and the last string decides what a template gives back, whether
or not there is a value for it (`hasRoot_of_recover`).
-/

set_option autoImplicit false

namespace Stencil

/-- The tree is an array if the path starts with an index, and an object otherwise. -/
structure HasRoot (p : Path) (v : Json) : Prop where
  isObj_iff : v.isObj = true ↔ ¬ p.StartsWithIndex
  exists_arr : p.StartsWithIndex → ∃ xs, v = .arr xs

/-- The path of the last token. -/
def lastTarget (tokens : List Token) : Path :=
  (tokens.getLast?.map Token.target).getD []

variable {v w : Json} {p : Path} {t : Token} {placed : List (Token × Json)}

theorem hasRoot_obj_nil : HasRoot [] (.obj []) where
  isObj_iff := ⟨fun _ => id, fun _ => rfl⟩
  exists_arr := False.elim

theorem HasRoot.of_alike (h : HasRoot p w) (alike : Json.Alike v w) : HasRoot p v where
  isObj_iff := by rw [alike.isObj_eq, h.isObj_iff]
  exists_arr hp := by
    obtain ⟨xs, rfl⟩ := h.exists_arr hp
    cases v with
    | arr ys => exact ⟨ys, rfl⟩
    | null | bool _ | num _ | str _ | obj _ => exact alike.elim

/-- A merge has the root of its source. -/
theorem HasRoot.merge (h : HasRoot p w) (v : Json) : HasRoot p (v.merge w) :=
  h.of_alike (Json.merge_alike v w)

/-- The first step of a path decides what its piece is. -/
theorem Token.Writable.hasRoot_piece (h : t.Writable) : HasRoot t.target (t.piece v) := by
  have bounded := h.bounded
  unfold Token.piece
  cases htarget : t.target with
  | nil => exact absurd htarget h.target_ne_nil
  | cons s p =>
      rw [htarget] at bounded
      cases s with
      | key k => exact ⟨⟨fun _ => id, fun _ => rfl⟩, False.elim⟩
      | index i =>
          rw [Json.assign, if_neg (Nat.not_lt.2 bounded.head)]
          exact ⟨⟨fun h => (by cases h), fun h => absurd trivial h⟩, fun _ => ⟨_, rfl⟩⟩

/-- **The path of the last token decides what a gathering is.** -/
theorem hasRoot_gather (writable : ∀ c ∈ placed, c.1.Writable) :
    HasRoot (lastTarget (placed.map Prod.fst)) (gather placed) := by
  -- only the last piece counts, so the list is taken apart at its end
  rcases List.eq_nil_or_concat' placed with rfl | ⟨before, c, rfl⟩
  · exact hasRoot_obj_nil
  · rw [gather_append, lastTarget, List.map_append, List.map_singleton, List.getLast?_concat]
    have hc : c.1.Writable := writable c (List.mem_append_right before List.mem_cons_self)
    exact hc.hasRoot_piece.merge (gather before)

namespace Template

variable {d : Delimiters}

/-- The path of the last token of a string, if there is a value for it. -/
def lastPath (d : Delimiters) (leaf : String × Option Json) : Path :=
  match leaf.2 with
  | none => []
  | some _ => lastTarget (((lineOf? d leaf.1).map Line.tokens).getD [])

theorem hasRoot_of_recoverString [Engine] {leaf : String × Option Json} {fragment : Json}
    (h : recoverString d leaf.1 leaf.2 = .ok fragment) : HasRoot (lastPath d leaf) fragment := by
  obtain ⟨s, produced⟩ := leaf
  obtain ⟨l, placed, hline, hvalues, writable, rfl⟩ := recoverString_eq_ok_iff.1 h
  have root := hasRoot_gather writable
  cases produced with
  | none =>
      rw [Line.eq_nil_of_values_none hvalues]
      exact hasRoot_obj_nil
  | some r =>
      rw [(Line.map_fst_values hvalues).resolve_right fun h => nomatch h.1] at root
      rw [lastPath, lineOf?, hline]
      exact root

/-- What is learned last decides what the data is. -/
theorem hasRoot_of_foldlM_learn [Engine] {leaves : List (String × Option Json)} {data : Json}
    (h : leaves.foldlM (learn d) (.obj []) = .ok data) :
    HasRoot ((leaves.getLast?.map (lastPath d)).getD []) data := by
  rcases List.eq_nil_or_concat' leaves with rfl | ⟨before, leaf, rfl⟩
  · cases h
    exact hasRoot_obj_nil
  · rw [List.foldlM_append] at h
    obtain ⟨learned, -, h⟩ := bind_eq_ok_iff.1 h
    rw [List.foldlM_cons] at h
    obtain ⟨_, hleaf, h⟩ := bind_eq_ok_iff.1 h
    cases h
    obtain ⟨fragment, hfragment, rfl⟩ := learn_eq_ok_iff.1 hleaf
    rw [List.getLast?_concat]
    exact (hasRoot_of_recoverString hfragment).merge learned

/-- **What is recovered is an object unless the last path starts with an index**, and then it is an
array.  A string gives the root that its last token asks for, and a template the root that its last
string gives. -/
theorem hasRoot_of_recover [Engine] (d : Delimiters) :
    (∀ s produced fragment, recoverString d s produced = .ok fragment →
        HasRoot (lastPath d (s, produced)) fragment) ∧
      ∀ t result data, recover d t result = .ok data →
        HasRoot (((leaves t (some result)).getLast?.map (lastPath d)).getD []) data :=
  ⟨fun _ _ _ h => hasRoot_of_recoverString h, fun _ _ _ h => hasRoot_of_foldlM_learn h⟩

/-- The last path starts with an index. -/
def indexLast : Template :=
  .obj [("n", .str "<a>"), ("list", .str "<b>/<[1].c>")]

/-- A tree beside it. -/
def indexLastResult : Json :=
  .obj [("n", .null), ("list", .str "x/y")]

theorem hasRoot_of_recover_indexLast :
    (∃ fragment, recoverString angles.delimiters "<[1]>/<a>" (some (.str "x/y")) = .ok fragment ∧
        HasRoot [.key "a"] fragment) ∧
      ∃ data, recover angles.delimiters indexLast indexLastResult = .ok data ∧
        HasRoot [.index 1, .key "c"] data := by
  have line := @eq_ok_get _ _
    (recoverString angles.delimiters "<[1]>/<a>" (some (.str "x/y"))) (by decide +kernel)
  have tree := @eq_ok_get _ _ (recover angles.delimiters indexLast indexLastResult)
    (by decide +kernel)
  refine ⟨⟨_, line, ?_⟩, _, tree, ?_⟩
  · have root := (hasRoot_of_recover angles.delimiters).1 _ _ _ line
    rwa [show lastPath angles.delimiters ("<[1]>/<a>", some (.str "x/y")) = [.key "a"] by
      decide +kernel] at root
  · have root := (hasRoot_of_recover angles.delimiters).2 _ _ _ tree
    rwa [show ((leaves indexLast (some indexLastResult)).getLast?.map
      (lastPath angles.delimiters)).getD [] = [.index 1, .key "c"] by decide +kernel] at root

/-- One token is enough to make the data an array. -/
theorem isObj_recover_index :
    ∃ fragment data,
      recoverString angles.delimiters "<[0]>" (some (.bool true)) = .ok fragment ∧
        recover angles.delimiters (.str "<[0]>") (.bool true) = .ok data ∧
        fragment.isObj = false ∧ data.isObj = false := by
  have line := @eq_ok_get _ _ (recoverString angles.delimiters "<[0]>" (some (.bool true)))
    (by decide +kernel)
  have tree := @eq_ok_get _ _ (recover angles.delimiters (.str "<[0]>") (.bool true))
    (by decide +kernel)
  exact ⟨_, _, line, tree, by decide +kernel, by decide +kernel⟩

end Template

end Stencil
