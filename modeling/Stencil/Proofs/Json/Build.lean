import Stencil.Proofs.Json.Outline
import Stencil.Proofs.Path.Diverge

/-!
# Trees built by assignments

Starting with an empty object, values are assigned at some of a list of paths, any
two of which are equal or diverge.  Whatever the order, and even if a path is
assigned again, the tree holds a value at the end of every path that was assigned
and avoids the others.  It has nothing else: it is an outline of every object in
which all the paths lead somewhere (`Built`).
-/

set_option autoImplicit false

namespace Stencil.Json

/-- The tree after the assignments, one after the other. -/
def assignAll (placed : List (Path × Json)) (t : Json) : Json :=
  placed.foldl (fun t c => (assign c.2 c.1 t).tree) t

variable {placed : List (Path × Json)} {t w : Json} {q : Path}

theorem walk?_assignAll_of_diverges (bounded : ∀ c ∈ placed, c.1.Bounded)
    (apart : ∀ c ∈ placed, c.1.Diverges q) (h : t.walk? q = some w) :
    (assignAll placed t).walk? q = some w := by
  induction placed generalizing t with
  | nil => exact h
  | cons c placed ih =>
      obtain ⟨hc, hrest⟩ := List.forall_mem_cons.1 bounded
      obtain ⟨hdiv, hdivs⟩ := List.forall_mem_cons.1 apart
      exact ih hrest hdivs (walk?_assign_of_diverges hc hdiv h)

/-- Values assigned at diverging paths are all held. -/
theorem walk?_assignAll_of_mem (bounded : ∀ c ∈ placed, c.1.Bounded)
    (apart : placed.Pairwise fun c c' => c.1.Diverges c'.1) {c : Path × Json} (hc : c ∈ placed) :
    (assignAll placed t).walk? c.1 = some c.2 := by
  induction placed generalizing t with
  | nil => cases hc
  | cons c' placed ih =>
      obtain ⟨hc', hrest⟩ := List.forall_mem_cons.1 bounded
      obtain ⟨hdiv, hdivs⟩ := List.pairwise_cons.1 apart
      rcases List.mem_cons.1 hc with rfl | hc
      · have hself : (assign c.2 c.1 t).tree.walk? c.1 = some c.2 := walk?_assign_self hc'
        show (assignAll placed (assign c.2 c.1 t).tree).walk? c.1 = some c.2
        exact walk?_assignAll_of_diverges hrest (fun c' hmem => (hdiv c' hmem).symm) hself
      · exact ih hrest hdivs hc

/-- The tree holds values at the paths that were assigned and nothing at or along the others. -/
structure Built (paths assigned : List Path) (t : Json) : Prop where
  wellFormed : t.WellFormed
  isObj : t.isObj = true
  holds : ∀ p ∈ paths, p ∈ assigned → ∃ v, t.walk? p = some v ∧ v ≠ null
  avoids : ∀ p ∈ paths, p ∉ assigned → t.Avoids p
  outline : ∀ d : Json, d.isObj = true → (∀ p ∈ paths, ∃ u, d.walk? p = some u) →
    Outline (· ∈ paths) t d

/-- Paths at which values can be assigned, any two of which are equal or diverge. -/
structure Separate (paths : List Path) : Prop where
  assignable : ∀ p ∈ paths, p.Assignable
  apart : ∀ p ∈ paths, ∀ q ∈ paths, p = q ∨ p.Diverges q

variable {paths assigned : List Path}

theorem partOf_of_isObj {d : Json} (h : d.isObj = true) : PartOf (obj []) d := by
  cases d with
  | obj fs => exact .of_step trivial fun s w hw => by cases s <;> cases hw
  | null => cases h
  | bool b => cases h
  | num n => cases h
  | str s => cases h
  | arr xs => cases h

theorem built_obj_nil (separate : Separate paths) : Built paths [] (obj []) where
  wellFormed := by simp
  isObj := rfl
  holds := by simp
  avoids p hp _ := avoids_obj_nil (separate.assignable p hp).rooted
  outline _ hobj _ := .of_partOf (partOf_of_isObj hobj)

theorem isObj_assign {v : Json} {p : Path} (rooted : p.Rooted) :
    (Json.assign v p t).tree.isObj = true := by
  cases p with
  | nil => exact rooted.elim
  | cons s p =>
      cases s with
      | key k => rfl
      | index i => exact rooted.elim

/-- **An assignment at one of the paths makes the tree hold one value more.** -/
theorem Built.assign (separate : Separate paths) (built : Built paths assigned t) {p : Path}
    {v : Json} (hp : p ∈ paths) (hv : v.WellFormed) (hnull : v ≠ null) :
    Built paths (p :: assigned) (Json.assign v p t).tree := by
  have bounded := (separate.assignable p hp).bounded
  refine ⟨wellFormed_assign bounded hv built.wellFormed,
    isObj_assign (separate.assignable p hp).rooted, fun q hq hassigned => ?_,
    fun q hq hfree => ?_, fun d hobj leads => ?_⟩
  · rcases separate.apart p hp q hq with rfl | hdiv
    · exact ⟨v, walk?_assign_self bounded, hnull⟩
    · have hold : q ∈ assigned := by
        rcases List.mem_cons.1 hassigned with rfl | hold
        · exact absurd hdiv (Path.not_diverges_self q)
        · exact hold
      obtain ⟨w, hw, hwnull⟩ := built.holds q hq hold
      exact ⟨w, walk?_assign_of_diverges bounded hdiv hw, hwnull⟩
  · have hne : p ≠ q := fun hpq => hfree (hpq ▸ List.mem_cons_self)
    have hold : q ∉ assigned := fun hmem => hfree (List.mem_cons_of_mem p hmem)
    have hdiv := (separate.apart p hp q hq).resolve_left hne
    exact avoids_assign bounded hdiv (.inr (built.avoids q hq hold))
  · obtain ⟨u, hu⟩ := leads p hp
    refine Outline.assign bounded (.inr (built.outline d hobj leads)) hu (.place ?_)
    rwa [List.append_nil]

/-- **Assignments at some of the paths, in any order, make the tree hold a value at each of
these.** -/
theorem Built.assignAll (separate : Separate paths) (built : Built paths assigned t)
    (h : ∀ c ∈ placed, c.1 ∈ paths ∧ c.2.WellFormed ∧ c.2 ≠ null) :
    Built paths (placed.reverse.map Prod.fst ++ assigned) (Json.assignAll placed t) := by
  induction placed generalizing t assigned with
  | nil => exact built
  | cons c placed ih =>
      obtain ⟨⟨hp, hv, hnull⟩, hrest⟩ := List.forall_mem_cons.1 h
      have hnow := ih (built.assign separate hp hv hnull) hrest
      rw [List.reverse_cons, List.map_append, List.append_assoc]
      exact hnow

/-- **A tree that was built at the paths is a partial copy of every object that holds the same values
at the paths.** -/
theorem Built.partOf {d : Json} (built : Built paths assigned t) (hd : d.WellFormed)
    (hobj : d.isObj = true)
    (held : ∀ p ∈ paths, ∃ v u, t.walk? p = some v ∧ d.walk? p = some u ∧ u.same v = true) :
    PartOf t d := by
  have outline := built.outline d hobj fun p hp => by
    obtain ⟨v, u, -, hu, -⟩ := held p hp
    exact ⟨u, hu⟩
  refine outline.partOf fun p v hp hv => ?_
  obtain ⟨v', u, hv', hu, hsame⟩ := held p hp
  cases hv.symm.trans hv'
  have hvwf := built.wellFormed.get? (get?_of_walk? hv)
  have huwf := hd.get? (get?_of_walk? hu)
  exact ⟨u, hu, .of_same hvwf huwf (same_symm huwf hvwf hsame)⟩

end Stencil.Json
