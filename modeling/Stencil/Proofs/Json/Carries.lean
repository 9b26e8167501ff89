import Stencil.Proofs.Path.Diverge

/-!
# Trees that carry values at given paths

A tree carries a list of placements if it holds each value at the end of its path
and avoids every path that diverges from all of these.  A tree with one value
assigned carries it, and the merge of trees with placements that diverge from each
other carries them all (`Carries.merge`), so merging any number of such trees
loses nothing, whatever the order and however the trees were merged before
(`Carries.foldl`).
-/

set_option autoImplicit false

namespace Stencil.Json

/-- The tree holds each value at the end of its path and avoids all paths that diverge from
these. -/
structure Carries (placed : List (Path × Json)) (t : Json) : Prop where
  wellFormed : t.WellFormed
  assignable : ∀ c ∈ placed, c.1.Assignable
  holds : ∀ c ∈ placed, t.walk? c.1 = some c.2
  avoids : ∀ q : Path, q.Rooted → (∀ c ∈ placed, c.1.Diverges q) → t.Avoids q

theorem carries_obj_nil : Carries [] (obj []) where
  wellFormed := by simp
  assignable := by simp
  holds := by simp
  avoids _ rooted _ := avoids_obj_nil rooted

/-- The tree in which only one value was assigned carries it. -/
theorem carries_assign {v : Json} {p : Path} (h : p.Assignable) (hv : v.WellFormed) :
    Carries [(p, v)] (assign v p (obj [])).tree where
  wellFormed := wellFormed_assign h.bounded hv carries_obj_nil.wellFormed
  assignable := by simpa using h
  holds := by simpa using walk?_assign_self h.bounded
  avoids q rooted apart :=
    avoids_assign h.bounded (apart (p, v) List.mem_cons_self) (.inr (avoids_obj_nil rooted))

/-- **A merge carries what its two sides carry, if their paths diverge.** -/
theorem Carries.merge {placed placed' : List (Path × Json)} {t s : Json}
    (ht : Carries placed t) (hs : Carries placed' s)
    (apart : ∀ c ∈ placed, ∀ c' ∈ placed', c.1.Diverges c'.1) :
    Carries (placed ++ placed') (t.merge s) where
  wellFormed := wellFormed_merge ht.wellFormed hs.wellFormed
  assignable c hc := (List.mem_append.1 hc).elim (ht.assignable c) (hs.assignable c)
  holds c hc := by
    rcases List.mem_append.1 hc with hc | hc
    · exact walk?_merge_of_avoids hs.wellFormed (ht.holds c hc)
        (hs.avoids c.1 (ht.assignable c hc).rooted fun c' hc' => (apart c hc c' hc').symm)
    · exact walk?_merge_into_avoids hs.wellFormed
        (ht.avoids c.1 (hs.assignable c hc).rooted fun c' hc' => apart c' hc' c hc)
        (hs.holds c hc)
  avoids q rooted diverges :=
    avoids_merge hs.wellFormed
      (ht.avoids q rooted fun c hc => diverges c (List.mem_append_left _ hc))
      (hs.avoids q rooted fun c hc => diverges c (List.mem_append_right _ hc))

/-- **Merging one tree after the other carries what all of them carry, if their paths
diverge.** -/
theorem Carries.foldl {α : Type} {held : α → List (Path × Json)} {tree : α → Json} {parts : List α}
    {placed : List (Path × Json)} {t : Json} (ht : Carries placed t)
    (hparts : ∀ part ∈ parts, Carries (held part) (tree part))
    (apart : (placed ++ parts.flatMap held).Pairwise fun c c' => c.1.Diverges c'.1) :
    Carries (placed ++ parts.flatMap held) ((parts.map tree).foldl Json.merge t) := by
  induction parts generalizing placed t with
  | nil => simpa using ht
  | cons part parts ih =>
      obtain ⟨hpart, hrest⟩ := List.forall_mem_cons.1 hparts
      rw [List.flatMap_cons, ← List.append_assoc] at apart ⊢
      have hnow : Carries (placed ++ held part) (t.merge (tree part)) :=
        ht.merge hpart (List.pairwise_append.1 (List.pairwise_append.1 apart).1).2.2
      exact ih hnow hrest apart

end Stencil.Json
