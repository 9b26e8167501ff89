import Stencil.Proofs.Template.Copy
import Stencil.Proofs.Template.Linear

/-!
# Templates whose tokens overlap

Several tokens may name the same path, and a path may be the beginning of another.
As long as every token makes up its whole string and has no cast, everything that
the template shows of the data can be learned from what it became: the fragments
agree with each other because all are partial copies of the same data, so neither
the order of the document nor the overlaps matter (`learn_fill`).  What was learned
tells nothing that the data does not hold already, and fills the template again.
-/

set_option autoImplicit false

namespace Stencil

namespace Line

variable {l : Line} {data data' v : Json}

/-- The line is literal text, or one whole token without a cast. -/
def Whole (l : Line) : Prop :=
  l.tokens ≠ [] → ∃ t ∈ l.whole?, t.cast = .asIs

instance (l : Line) : Decidable l.Whole :=
  inferInstanceAs (Decidable (_ → _))

theorem Whole.shows [Engine] (whole : l.Whole) (hl : l.WellFormed) (hdata : data.WellFormed)
    (found : ∀ t ∈ l.tokens, t.Found data) : l.Shows data data := by
  by_cases hnil : l.tokens = []
  · exact shows_of_tokens_nil hnil
  · obtain ⟨t, hwhole, cast⟩ := whole hnil
    have hfound : t.Found data := found t (mem_tokens_of_whole? hwhole)
    obtain ⟨v, hv, hnull⟩ := hfound.value
    refine shows_of_whole hwhole cast hl hdata hfound fun w hw => ?_
    cases hv.symm.trans hw
    exact Token.source?_of_settles (fun h => absurd h hnull) (Json.get?_of_walk? hv)

/-- With data that holds the same values, none of them null, the line becomes the same value. -/
theorem Whole.exists_refill (whole : l.Whole) (reads : ∀ t ∈ l.tokens, t.readPath = .ok t.target)
    (held : ∀ t ∈ l.tokens, ∃ v w, data.get? t.target = some v ∧ v ≠ .null ∧
      data'.get? t.target = some w ∧ w.same v = true)
    (h : l.fill data = .ok v) : ∃ v', l.fill data' = .ok v' ∧ v'.same v = true := by
  by_cases hnil : l.tokens = []
  · rw [fill_of_tokens_nil hnil] at h ⊢
    cases h
    exact ⟨_, rfl, Json.same_refl trivial⟩
  · obtain ⟨t, hwhole, cast⟩ := whole hnil
    have ht := mem_tokens_of_whole? hwhole
    obtain ⟨u, w, hu, hnull, hw, hwu⟩ := held t ht
    have hwnull : w ≠ .null := by
      rintro rfl
      exact hnull (Json.null_alike.1 (Json.alike_of_same hwu))
    rw [fill_whole_asIs hwhole cast (reads t ht)
      (Token.source?_of_settles (fun h => absurd h hnull) hu)] at h
    cases h
    exact ⟨w, fill_whole_asIs hwhole cast (reads t ht)
      (Token.source?_of_settles (fun h => absurd h hwnull) hw), hwu⟩

end Line

namespace Template

variable {o : Options} {data : Json} {t : Template} {lines : List Line}

/-- **What was learned from the tree that a template became is a part of the data that fills the
template again.**  It holds the values of the data at the paths of all tokens, merging it into the
data changes nothing, and the tree fits the template. -/
theorem learn_fill [Engine] (ht : t.WellFormed) (hdata : data.WellFormed) (hobj : data.isObj = true)
    (hlines : t.lines o.delimiters = .ok lines) (whole : ∀ l ∈ lines, l.Whole)
    (found : ∀ token ∈ lines.flatMap Line.tokens, token.Found data) :
    ∃ result data' result', fill o.strict data t = .ok result ∧
      recover o.delimiters t result = .ok data' ∧
      (∀ token ∈ lines.flatMap Line.tokens, ∃ v v', data.get? token.target = some v ∧
        data'.get? token.target = some v' ∧ v'.same v = true) ∧
      (data.merge data').same data = true ∧
      fill o.strict data' t = .ok result' ∧ result'.same result = true ∧
      fits o t result = .ok true := by
  have mem : ∀ l ∈ lines, ∀ token ∈ l.tokens, token ∈ lines.flatMap Line.tokens :=
    fun l hl token htoken => List.mem_flatMap.2 ⟨l, hl, htoken⟩
  obtain ⟨result, placed, hresult, hrecover, copies, covered⟩ :=
    exists_recover_copies ht hlines fun l hl => (whole l hl).shows
      (wellFormed_of_mem_lines hlines hl) hdata fun token htoken => found token (mem l hl token htoken)
  have held : ∀ token ∈ lines.flatMap Line.tokens, ∃ v w, data.get? token.target = some v ∧
      v ≠ .null ∧ (merged placed).get? token.target = some w ∧ w.same v = true := by
    intro token htoken
    obtain ⟨cs, hcs, c, hc, rfl⟩ := covered token htoken
    obtain ⟨v, w, hv, hnull, hw, hwv⟩ := exists_same_of_merged hobj hdata copies hcs hc
    exact ⟨v, w, Json.get?_of_walk? hv, hnull, Json.get?_of_walk? hw, hwv⟩
  obtain ⟨result', hresult', hsame⟩ : ∃ result', fill o.strict (merged placed) t = .ok result' ∧
      result'.same result = true := by
    refine exists_refill_of_lines ht rfl hlines hresult fun l hl v hv => ?_
    exact (whole l hl).exists_refill
      (fun token htoken => (found token (mem l hl token htoken)).readPath)
      (fun token htoken => held token (mem l hl token htoken)) hv
  obtain ⟨hwf, hle, -⟩ := partOf_merged hobj hdata copies
  refine ⟨result, merged placed, result', hresult, hrecover, fun token htoken => ?_,
    Json.PartOf.merge_same hwf hdata hle, hresult', hsame, fits_of_refill hrecover hresult' hsame⟩
  obtain ⟨v, w, hv, -, hw, hwv⟩ := held token htoken
  exact ⟨v, w, hv, hw, hwv⟩

/-- A template with a path that occurs twice and two that lie behind it. -/
def nested : Template :=
  .arr [.str "<a.b[2]>", .str "<a>", .obj [("again", .str "<a>")], .str "<a.b>", .str "plain"]

/-- The lines of the nested template. -/
def nestedLines : List Line :=
  [token "a.b[2]", token "a", token "a", token "a.b", ⟨[], "plain".toList⟩]
where
  /-- A line that is one token. -/
  token (path : String) : Line :=
    ⟨[([], ⟨.asIs, path.toList, none, path.toList, '<' :: path.toList ++ ['>']⟩)], []⟩

/-- Data with a null of its own in an array. -/
def nestedData : Json :=
  .obj [("z", .null), ("a", .obj [("b", .arr [.null, .bool true, .str "x"])])]

theorem learn_fill_nested :
    ∃ result data', fill angles.strict nestedData nested = .ok result ∧
      recover angles.delimiters nested result = .ok data' ∧
      (nestedData.merge data').same nestedData = true ∧ fits angles nested result = .ok true := by
  have hlines : lines angles.delimiters nested = .ok nestedLines := by with_unfolding_all rfl
  obtain ⟨result, data', -, hfill, hrecover, -, hmerge, -, -, hfits⟩ :=
    @learn_fill angles nestedData nested nestedLines _
      (by simp [nested, Json.WellFormed, Json.WellFormedFields])
      (by simp [nestedData, Json.WellFormed, Json.WellFormedFields, Json.WellFormedItems])
      rfl hlines (by decide +kernel) (by decide +kernel)
  exact ⟨result, data', hfill, hrecover, hmerge, hfits⟩

end Template

end Stencil
