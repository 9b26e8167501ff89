import Stencil.Proofs.Template.Recover

/-!
# Linear templates

In a linear template every token names a place of its own: the paths of any two
tokens diverge.  Then the values that are recovered from the lines of the template
do not disturb each other, and data that is merged from them holds each of them at
the path of its token (`carries_gather`).

So a tree that such a template became always fits the template (`fits_fill`).  The
data recovered from it may differ from the data that the template was filled with:
a text may have several cuts along the literal texts, and a default is preferred to
a value that looks like it.
-/

set_option autoImplicit false

namespace Stencil

/-- Every token names a path at which a value can be put, and the paths of any two diverge. -/
structure Linear (tokens : List Token) : Prop where
  place : ∀ t ∈ tokens, t.Placeable
  apart : tokens.Pairwise fun t t' => t.target.Diverges t'.target

instance (tokens : List Token) : Decidable (Linear tokens) :=
  decidable_of_iff
    ((∀ t ∈ tokens, t.Placeable) ∧ tokens.Pairwise fun t t' => t.target.Diverges t'.target)
    ⟨fun h => ⟨h.1, h.2⟩, fun h => ⟨h.place, h.apart⟩⟩

/-- The value with the path of its token. -/
def placement (c : Token × Json) : Path × Json :=
  (c.1.target, c.2)

theorem Linear.pairwise_placement {placed : List (Token × Json)}
    (linear : Linear (placed.map Prod.fst)) :
    (placed.map placement).Pairwise fun c c' => c.1.Diverges c'.1 := by
  have apart := List.pairwise_map.1 linear.apart
  exact List.pairwise_map.2 apart

/-- **Values gathered at diverging paths are all held.** -/
theorem carries_gather {placed : List (Token × Json)} (linear : Linear (placed.map Prod.fst))
    (wf : ∀ c ∈ placed, c.2.WellFormed) :
    Json.Carries (placed.map placement) (gather placed) := by
  have apart := linear.pairwise_placement
  rw [List.map_eq_flatMap] at apart ⊢
  refine Json.carries_obj_nil.foldl (fun c hc => ?_) apart
  exact Json.carries_assign (linear.place c.1 (List.mem_map_of_mem hc)).assignable (wf c hc)

/-- The part of a linear list that one of its lists of tokens makes up is linear. -/
theorem Linear.of_mem {tokens : List (List Token)} (linear : Linear tokens.flatten)
    {ts : List Token} (h : ts ∈ tokens) : Linear ts where
  place t ht := linear.place t (List.mem_flatten.2 ⟨ts, h, ht⟩)
  apart := (List.pairwise_flatten.1 linear.apart).1 ts h

/-- **Gatherings at diverging paths, merged, still hold all values.** -/
theorem carries_merged {placed : List (List (Token × Json))}
    (linear : Linear (placed.flatten.map Prod.fst))
    (wf : ∀ c ∈ placed.flatten, c.2.WellFormed) :
    Json.Carries (placed.flatten.map placement) (merged placed) := by
  have apart := linear.pairwise_placement
  rw [List.map_flatten, ← List.flatMap_def] at apart ⊢
  refine Json.carries_obj_nil.foldl (fun cs hcs => carries_gather ?_ fun c hc => ?_) apart
  · rw [List.map_flatten] at linear
    exact linear.of_mem (List.mem_map_of_mem hcs)
  · exact wf c (List.mem_flatten.2 ⟨cs, hcs, hc⟩)

namespace Template

variable {o : Options} {data result : Json} {t : Template} {lines : List Line}

/-- The values that belong to the tokens of the lines belong to the tokens of the template. -/
theorem map_fst_flatten {placed : List (List (Token × Json))}
    (h : List.Forall₂ (fun l cs => cs.map Prod.fst = Line.tokens l) lines placed) :
    placed.flatten.map Prod.fst = lines.flatMap Line.tokens := by
  rw [List.map_flatten, List.flatMap_def]
  refine congrArg List.flatten ?_
  rw [← List.forall₂_eq_eq_eq, List.forall₂_map_left_iff, List.forall₂_map_right_iff]
  exact h.flip

/-- **A tree that a linear template became fits the template**, if the engine takes the patterns of
its strings.  Data is recovered from it, and filling the template with that data gives the tree
again. -/
theorem fits_fill [Engine] (ht : t.WellFormed) (hdata : data.WellFormed)
    (hlines : t.lines o.delimiters = .ok lines) (linear : Linear (lines.flatMap Line.tokens))
    (casts : ∀ l ∈ lines, l.MildCasts) (accepted : ∀ l ∈ lines, l.Accepted)
    (h : fill o.strict data t = .ok result) :
    (∃ data', recover o.delimiters t result = .ok data') ∧ fits o t result = .ok true := by
  obtain ⟨placed, hplaced, hrecover⟩ := exists_recover (o := o.strict)
    (p := fun l cs => ∃ v, l.fill data = .ok v ∧ l.Restores v cs) ht rfl hlines h
    fun l hl v hv => by
      obtain ⟨cs, hcs⟩ := Line.exists_restores (casts l hl) (accepted l hl)
        (fun t ht => linear.place t (List.mem_flatMap.2 ⟨l, hl, ht⟩))
        (wellFormed_of_mem_lines hlines hl) hdata hv
      exact ⟨cs, hcs.recover, v, hv, hcs⟩
  have htokens : placed.flatten.map Prod.fst = lines.flatMap Line.tokens :=
    map_fst_flatten (hplaced.imp fun l cs ⟨v, _, hcs⟩ => hcs.tokens)
  have carries := carries_merged (htokens ▸ linear) fun c hc => by
    obtain ⟨cs, hcs, hc⟩ := List.mem_flatten.1 hc
    obtain ⟨l, -, v, -, restores⟩ := exists_left_of_forall₂ hplaced hcs
    exact restores.wellFormed c hc
  obtain ⟨again, hagain, hsame⟩ := exists_refill_of_lines (o := o.strict) ht rfl hlines h
    fun l hl v hv => by
      obtain ⟨cs, hcs, v', hv', restores⟩ := exists_right_of_forall₂ hplaced hl
      cases hv.symm.trans hv'
      refine restores.refill _ fun c hc => Json.get?_of_walk? (carries.holds (placement c) ?_)
      exact List.mem_map_of_mem (List.mem_flatten.2 ⟨cs, hcs, hc⟩)
  exact ⟨⟨_, hrecover⟩, fits_of_refill hrecover hagain hsame⟩

/-! A text with two cuts: what is recovered is not what the template was filled with. -/

/-- Delimiters of one character. -/
def angles : Options where
  delimiters := ⟨['<'], ['>'], by decide, by decide, by decide⟩

/-- A template with two tokens in a text and one that is a whole string. -/
def card : Template :=
  .obj [("id", .str "<x.a>-<x.b>"), ("n", .str "<number: n>")]

/-- The lines of the card. -/
def cardLines : List Line :=
  [⟨[([], ⟨.asIs, "x.a".toList, none, "x.a".toList, "<x.a>".toList⟩),
     (['-'], ⟨.asIs, "x.b".toList, none, "x.b".toList, "<x.b>".toList⟩)], []⟩,
   ⟨[([], ⟨.number, "n".toList, none, "n".toList, "<number: n>".toList⟩)], []⟩]

/-- The data of the card. -/
def cardData : Json :=
  .obj [("x", .obj [("a", .str "1"), ("b", .str "2-3")]),
    ("n", .num (.int 5 (by decide) (by decide)))]

/-- What the card becomes. -/
def cardResult : Json :=
  .obj [("id", .str "1-2-3"), ("n", .num (.int 5 (by decide) (by decide)))]

theorem fits_fill_card :
    fill angles.strict cardData card = .ok cardResult ∧
      (∃ data', recover angles.delimiters card cardResult = .ok data') ∧
        fits angles card cardResult = .ok true := by
  have filled : fill angles.strict cardData card = .ok cardResult := by with_unfolding_all rfl
  have hlines : lines angles.delimiters card = .ok cardLines := by with_unfolding_all rfl
  refine ⟨filled, fits_fill ?_ ?_ hlines ?_ ?_ ?_ filled⟩
  · simp [card, Json.WellFormed]
  · simp [cardData, Json.WellFormed, Json.WellFormedFields]
  · decide +kernel
  · decide +kernel
  · decide +kernel

end Template

end Stencil
