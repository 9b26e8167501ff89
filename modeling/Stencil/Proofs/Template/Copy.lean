import Stencil.Proofs.Json.Build
import Stencil.Proofs.Template.Recover

/-!
# Recovering a copy

If every value that is recovered is the same as the value that some data holds at
the path of its token, then everything that is recovered is a partial copy of that
data, wherever the paths lie and whether or not they overlap.  The pieces are
partial copies because assigning makes them so, and merging keeps it that way, in
any order.  None of the values is lost on the way, because a piece stays a partial
copy of what it was merged into.  So at the path of each token what was recovered
holds the value that the data holds there (`exists_same_of_merged`).
-/

set_option autoImplicit false

namespace Stencil

/-- The data has a value at the token's path, by strict steps, and it is not null. -/
structure Token.Found (data : Json) (t : Token) : Prop where
  readPath : t.readPath = .ok t.target
  bounded : t.target.Bounded
  value : ∃ v, data.walk? t.target = some v ∧ v ≠ .null

theorem ne_null_iff {v : Json} : v ≠ .null ↔ v.isNull = false := by
  cases v <;> simp [Json.isNull]

instance (data : Json) (t : Token) : Decidable (t.Found data) :=
  decidable_of_iff (t.readPath = .ok t.target ∧ t.target.Bounded ∧
      (data.walk? t.target).any (fun v => !v.isNull) = true)
    ⟨fun h => ⟨h.1, h.2.1, by simpa [Option.any_eq_true, ne_null_iff] using h.2.2⟩,
      fun h => ⟨h.readPath, h.bounded, by simpa [Option.any_eq_true, ne_null_iff] using h.value⟩⟩

/-- The value is the same as the one that the data has at the token's path. -/
structure Copies (data : Json) (c : Token × Json) : Prop where
  found : c.1.Found data
  wellFormed : c.2.WellFormed
  same : ∀ v, data.walk? c.1.target = some v → c.2.same v = true

variable {data : Json} {placed : List (Token × Json)}

/-- The data holds the same value at the token's path, null or not. -/
structure Held (data : Json) (c : Token × Json) : Prop where
  bounded : c.1.target.Bounded
  wellFormed : c.2.WellFormed
  value : ∃ v, data.walk? c.1.target = some v ∧ c.2.same v = true

theorem Copies.held {c : Token × Json} (h : Copies data c) : Held data c := by
  obtain ⟨v, hv, -⟩ := h.found.value
  exact ⟨h.found.bounded, h.wellFormed, v, hv, h.same v hv⟩

/-- The piece of a value that the data holds is a partial copy. -/
theorem Held.piece {c : Token × Json} (h : Held data c) (hobj : data.isObj = true)
    (hdata : data.WellFormed) :
    (c.1.piece c.2).WellFormed ∧ Json.PartOf (c.1.piece c.2) data := by
  obtain ⟨v, hv, hsame⟩ := h.value
  have hwf : v.WellFormed := hdata.get? (Json.get?_of_walk? hv)
  refine ⟨Json.wellFormed_assign h.bounded h.wellFormed Json.carries_obj_nil.wellFormed, ?_⟩
  exact Json.PartOf.assign h.bounded (Json.partOf_of_isObj hobj) hv
    (.of_same h.wellFormed hwf hsame)

/-- **Values that the data holds, gathered, make a partial copy, of which each piece is a partial
copy.** -/
theorem partOf_gather (hobj : data.isObj = true) (hdata : data.WellFormed)
    (held : ∀ c ∈ placed, Held data c) :
    (gather placed).WellFormed ∧ Json.PartOf (gather placed) data ∧
      ∀ c ∈ placed, Json.PartOf (c.1.piece c.2) (gather placed) := by
  have pieces : ∀ part ∈ placed.map fun c => c.1.piece c.2,
      part.WellFormed ∧ Json.PartOf part data := by
    intro part hpart
    obtain ⟨c, hc, rfl⟩ := List.mem_map.1 hpart
    exact (held c hc).piece hobj hdata
  obtain ⟨hpart, -, hall⟩ := Json.PartOf.foldl_merge (Json.partOf_of_isObj hobj) pieces
  refine ⟨Json.wellFormed_foldl_merge Json.carries_obj_nil.wellFormed fun part h =>
    (pieces part h).1, hpart, fun c hc => ?_⟩
  exact hall _ (List.mem_map_of_mem hc)

theorem partOf_merged_of_held {placed : List (List (Token × Json))} (hobj : data.isObj = true)
    (hdata : data.WellFormed) (held : ∀ cs ∈ placed, ∀ c ∈ cs, Held data c) :
    (merged placed).WellFormed ∧ Json.PartOf (merged placed) data ∧
      ∀ cs ∈ placed, ∀ c ∈ cs, Json.PartOf (c.1.piece c.2) (merged placed) := by
  have parts : ∀ part ∈ placed.map gather, part.WellFormed ∧ Json.PartOf part data := by
    intro part hpart
    obtain ⟨cs, hcs, rfl⟩ := List.mem_map.1 hpart
    obtain ⟨hwf, hle, -⟩ := partOf_gather hobj hdata (held cs hcs)
    exact ⟨hwf, hle⟩
  obtain ⟨hpart, -, hall⟩ := Json.PartOf.foldl_merge (Json.partOf_of_isObj hobj) parts
  refine ⟨Json.wellFormed_foldl_merge Json.carries_obj_nil.wellFormed fun part h =>
    (parts part h).1, hpart, fun cs hcs c hc => ?_⟩
  obtain ⟨-, -, inner⟩ := partOf_gather hobj hdata (held cs hcs)
  exact (inner c hc).trans (hall _ (List.mem_map_of_mem hcs))

/-- Copies merged make a partial copy, of which each piece is a partial copy. -/
theorem partOf_merged {placed : List (List (Token × Json))} (hobj : data.isObj = true)
    (hdata : data.WellFormed) (copies : ∀ cs ∈ placed, ∀ c ∈ cs, Copies data c) :
    (merged placed).WellFormed ∧ Json.PartOf (merged placed) data ∧
      ∀ cs ∈ placed, ∀ c ∈ cs, Json.PartOf (c.1.piece c.2) (merged placed) :=
  partOf_merged_of_held hobj hdata fun cs hcs c hc => (copies cs hcs c hc).held

/-- **At the path of each token what was recovered holds the value that the data holds there.** -/
theorem exists_same_of_merged {placed : List (List (Token × Json))} (hobj : data.isObj = true)
    (hdata : data.WellFormed) (copies : ∀ cs ∈ placed, ∀ c ∈ cs, Copies data c)
    {cs : List (Token × Json)} (hcs : cs ∈ placed) {c : Token × Json} (hc : c ∈ cs) :
    ∃ v w, data.walk? c.1.target = some v ∧ v ≠ .null ∧
      (merged placed).walk? c.1.target = some w ∧ w.same v = true := by
  obtain ⟨hwf, hle, hall⟩ := partOf_merged hobj hdata copies
  have copy := copies cs hcs c hc
  obtain ⟨v, hv, hnull⟩ := copy.found.value
  have hvwf : v.WellFormed := hdata.get? (Json.get?_of_walk? hv)
  have hcv := copy.same v hv
  -- the value stands in the piece, the piece is part of the whole, and that of the data
  have hpiece : (c.1.piece c.2).walk? c.1.target = some c.2 :=
    Json.walk?_assign_self copy.found.bounded
  obtain ⟨w, hw, hcw⟩ := (hall cs hcs c hc).walk hpiece
  have hcnull : c.2 ≠ .null := by
    intro h
    rw [h] at hcv
    exact hnull (Json.null_alike.1 (Json.alike_of_same hcv))
  have hcw := hcw.resolve_left hcnull
  obtain ⟨v', hv', hwv⟩ := hle.walk hw
  cases hv.symm.trans hv'
  have hwnull : w ≠ .null := by
    intro h
    rw [h] at hcw
    exact hcnull (Json.alike_null.1 hcw.alike)
  have hvc : Json.PartOf v c.2 :=
    .of_same hvwf copy.wellFormed (Json.same_symm copy.wellFormed hvwf hcv)
  have hwwf : w.WellFormed := hwf.get? (Json.get?_of_walk? hw)
  exact ⟨v, w, hv, hnull, hw,
    Json.PartOf.antisymm hwwf hvwf (hwv.resolve_left hwnull) (hvc.trans hcw)⟩

/-! ## Lines that show copies -/

namespace Line

variable {l : Line} {t : Token} {expected : Json}

theorem whole?_of_tokens_nil (h : l.tokens = []) : l.whole? = none := by
  cases hwhole : l.whole? with
  | none => rfl
  | some t => rw [tokens_of_whole? hwhole] at h; cases h

/-- A line without tokens becomes the string that it was. -/
theorem fill_of_tokens_nil (h : l.tokens = []) (data : Json) :
    l.fill data = .ok (.str (String.ofList l.tail)) := by
  refine (fill_eq_ok_iff (whole?_of_tokens_nil h)).2 ⟨[], by rw [h]; exact .nil, ?_⟩
  rw [List.map_nil, weaving, literals, List.map_eq_nil_iff.1 h]
  rfl

theorem fill_whole_asIs (whole : l.whole? = some t) (cast : t.cast = .asIs)
    (reads : t.readPath = .ok t.target) {v : Json} (hv : t.source? data t.target = some v) :
    l.fill data = .ok v := by
  rw [fill_whole whole, Token.resolve_of_source? reads hv, Token.applyCast_asIs cast]

variable [Engine]

/-- The line can be filled, and from what it becomes copies of the expected data at the paths of
its tokens are recovered. -/
def Shows (l : Line) (data expected : Json) : Prop :=
  ∃ v cs, l.fill data = .ok v ∧ l.recover (some v) = .ok (gather cs) ∧
    cs.map Prod.fst = l.tokens ∧ ∀ c ∈ cs, Copies expected c

theorem shows_of_tokens_nil (h : l.tokens = []) : l.Shows data expected := by
  refine ⟨_, [], fill_of_tokens_nil h data, ?_, h.symm, by simp⟩
  rw [recover, List.map_eq_nil_iff.1 h]
  rfl

/-- **From a whole token without a cast the value itself is recovered, or a default that is the
same.** -/
theorem shows_of_whole (whole : l.whole? = some t) (cast : t.cast = .asIs) (hl : l.WellFormed)
    (hexpected : expected.WellFormed) (found : t.Found expected)
    (agrees : ∀ v, expected.walk? t.target = some v → t.source? data t.target = some v) :
    l.Shows data expected := by
  obtain ⟨v, hv, -⟩ := found.value
  have hvwf : v.WellFormed := hexpected.get? (Json.get?_of_walk? hv)
  have htokens := tokens_of_whole? whole
  have ht : t ∈ l.tokens := by
    rw [htokens]
    exact List.mem_cons_self
  obtain ⟨c, hc, hcwf, hsame⟩ : ∃ c, t.recoverValue v = .ok c ∧ c.WellFormed ∧
      c.same v = true := by
    unfold Token.recoverValue
    rw [Token.applyCast_asIs cast]
    split
    · next d hd =>
      split
      · next hsame => exact ⟨d, rfl, hl t ht d hd, hsame⟩
      · exact ⟨v, rfl, hvwf, Json.same_refl hvwf⟩
    · exact ⟨v, rfl, hvwf, Json.same_refl hvwf⟩
  refine ⟨v, [(t, c)], fill_whole_asIs whole cast found.readPath (agrees v hv),
    recover_whole whole found.readPath found.bounded hc, htokens.symm, ?_⟩
  intro c' hc'
  cases List.mem_singleton.1 hc'
  refine ⟨found, hcwf, fun v' hv' => ?_⟩
  cases hv.symm.trans hv'
  exact hsame

end Line

/-! ## Templates whose lines show copies -/

namespace Template

variable {o : Options} {expected : Json} {t : Template} {lines : List Line}

/-- **If every line shows copies of the expected data, the template can be filled, and from what it
becomes all these copies are recovered.** -/
theorem exists_recover_copies [Engine] (ht : t.WellFormed) (hlines : t.lines o.delimiters = .ok lines)
    (each : ∀ l ∈ lines, l.Shows data expected) :
    ∃ result placed, fill o.strict data t = .ok result ∧
      recover o.delimiters t result = .ok (merged placed) ∧
      (∀ cs ∈ placed, ∀ c ∈ cs, Copies expected c) ∧
      ∀ token ∈ lines.flatMap Line.tokens, ∃ cs ∈ placed, ∃ c ∈ cs, c.1 = token := by
  obtain ⟨result, hresult⟩ := exists_fill_of_lines (o := o.strict) rfl hlines fun l hl => by
    obtain ⟨v, -, hv, -⟩ := each l hl
    exact ⟨v, hv⟩
  obtain ⟨placed, hplaced, hrecover⟩ := exists_recover (o := o.strict)
    (p := fun l cs => cs.map Prod.fst = l.tokens ∧ ∀ c ∈ cs, Copies expected c) ht rfl hlines
    hresult fun l hl v hv => by
      obtain ⟨v', cs, hv', hrecover, hcs⟩ := each l hl
      cases hv.symm.trans hv'
      exact ⟨cs, hrecover, hcs⟩
  refine ⟨result, placed, hresult, hrecover, fun cs hcs => ?_, fun token htoken => ?_⟩
  · obtain ⟨l, -, -, copies⟩ := exists_left_of_forall₂ hplaced hcs
    exact copies
  · obtain ⟨l, hl, htoken⟩ := List.mem_flatMap.1 htoken
    obtain ⟨cs, hcs, htokens, -⟩ := exists_right_of_forall₂ hplaced hl
    obtain ⟨c, hc, hctoken⟩ := List.mem_map.1 (htokens ▸ htoken)
    exact ⟨cs, hcs, c, hc, hctoken⟩

end Template

end Stencil
