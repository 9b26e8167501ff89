import Stencil.Proofs.Template.Copy
import Stencil.Proofs.Template.Linear

/-!
# The round trip

Filling a template and recovering the data from the result gives the data back, if
the template shows all of it and hides nothing.  The paths of the tokens diverge,
and the data has values at these paths and nothing else.  A path that was left out
has a token with a default, and the default counts as data.  A token in a text must
let its value be read back from the text (`Token.Legible`), and the text must have
one cut only along the literal texts of its string (`Line.Legible`).

The recovered data is a partial copy of what the template showed, since every value
is (`Template.exists_recover_copies`).  Conversely that data was built by
assignments at the paths of the tokens, so it is an outline of the recovered data,
which has the same values there, and hence a partial copy of it.
-/

set_option autoImplicit false

namespace Stencil

/-! ## Tokens whose values can be read back -/

/-- The value at the token's path, or its default if the path was not assigned, can be read back
from the text that it becomes. -/
def Token.Legible (assigned : List Path) (data : Json) (t : Token) : Prop :=
  ((t.cast = .asIs ∨ t.cast = .string) ∧
    (t.target ∉ assigned ∨ t.fallback = none ∧ ∃ s, data.get? t.target = some (.str s))) ∨
  (t.cast = .object ∧ t.fallback = none ∧ ∃ v, data.get? t.target = some v ∧
    ((∃ xs, v = .arr xs) ∨ ∃ fs, v = .obj fs) ∧
    ∃ w, Json.parse? v.render = some w ∧ w.same v = true)

namespace Token

variable {t : Token} {assigned : List Path} {data expected v : Json}

/-- Where the data has nothing along the token's path, the token takes its default. -/
theorem source?_of_avoids {p : Path} (avoids : data.Avoids p) :
    t.source? data p = t.fallback := by
  unfold source?
  cases hget : data.get? p with
  | none => rfl
  | some v => rw [Json.get?_of_avoids avoids hget]; rfl

theorem source?_of_get? {p : Path} (h : data.get? p = some v) (hnull : v ≠ .null) :
    t.source? data p = some v :=
  source?_of_settles (fun h => absurd h hnull) h

theorem recoverText_of_none (h : t.fallback = none) (s : Text) :
    t.recoverText s = t.applyCast (.str (String.ofList s)) := by
  rw [recoverText, h]

theorem inline_of_container (h : (∃ xs, v = .arr xs) ∨ ∃ fs, v = .obj fs) :
    v.inline = v.render := by
  rcases h with ⟨xs, rfl⟩ | ⟨fs, rfl⟩ <;> rfl

theorem applyCast_object {t : Token} (h : t.cast = .object)
    (hv : (∃ xs, v = .arr xs) ∨ ∃ fs, v = .obj fs) : t.applyCast v = .ok v := by
  rw [applyCast_eq_ok_iff, h]
  rcases hv with ⟨xs, rfl⟩ | ⟨fs, rfl⟩ <;> rfl

theorem applyCast_object_str {t : Token} {w : Json} {s : Text} (h : t.cast = .object)
    (hw : Json.parse? s = some w) : t.applyCast (.str (String.ofList s)) = .ok w := by
  rw [applyCast_eq_ok_iff, h]
  simp only [Cast.apply, Cast.readObject, String.toList_ofList, hw]

/-- **A token whose value can be read back gives that value back.** -/
theorem Legible.exists_copy (legible : t.Legible assigned data)
    (hdefault : ∀ v, t.fallback = some v → v.WellFormed) (found : t.Found expected)
    (agrees : ∀ v, expected.walk? t.target = some v → t.source? data t.target = some v)
    (left : t.target ∉ assigned → t.source? data t.target = t.fallback) :
    ∃ r c, t.resolve data = .ok r ∧ t.recoverText r.inline = .ok c ∧ Copies expected (t, c) := by
  obtain ⟨v, hv, hnull⟩ := found.value
  have hsource := agrees v hv
  have copies : ∀ c : Json, c.WellFormed → c.same v = true → Copies expected (t, c) :=
    fun c hwf hsame => ⟨found, hwf, fun v' hv' => by cases hv.symm.trans hv'; exact hsame⟩
  rcases legible with ⟨cast, hleft | ⟨hnone, s, hs⟩⟩ | ⟨cast, hnone, w, hw, container, u, hu, hsame⟩
  · -- the default is found in the text again
    have hd : t.fallback = some v := (left hleft).symm.trans hsource
    obtain ⟨r, hr, hinline⟩ := exists_applyCast_inline cast v
    refine ⟨r, v, (resolve_of_source? found.readPath hsource).trans hr, ?_,
      copies v (hdefault v hd) (Json.same_refl (hdefault v hd))⟩
    simp only [recoverText, hd, if_pos hinline.symm]
  · -- the text is the value
    cases (source?_of_get? hs (by simp)).symm.trans hsource
    have hstr := applyCast_str cast s.toList
    rw [String.ofList_toList] at hstr
    refine ⟨.str s, .str s, (resolve_of_source? found.readPath hsource).trans hstr, ?_,
      copies (.str s) trivial (Json.same_refl trivial)⟩
    rw [recoverText_of_none hnone, Json.inline, String.ofList_toList]
    exact hstr
  · -- the value is read from its own text
    have hwnull : w ≠ .null := by
      rcases container with ⟨xs, rfl⟩ | ⟨fs, rfl⟩ <;> simp
    cases (source?_of_get? hw hwnull).symm.trans hsource
    refine ⟨v, u, (resolve_of_source? found.readPath hsource).trans
      (applyCast_object cast container), ?_, copies u (Json.wellFormed_of_parse? hu) hsame⟩
    rw [recoverText_of_none hnone, inline_of_container container]
    exact applyCast_object_str cast hu

end Token

/-! ## Lines whose values can be read back -/

namespace Line

variable {l : Line} {assigned : List Path} {data expected : Json}

/-- A whole token has no cast; in a text the values of all tokens can be read back, and the text
that the line becomes has one cut only along its literal texts. -/
structure Legible (assigned : List Path) (data : Json) (l : Line) : Prop where
  whole : ∀ t ∈ l.whole?, t.cast = .asIs
  inText : l.whole? = none → ∀ t ∈ l.tokens, t.Legible assigned data
  oneCut : l.whole? = none → ∀ s, l.fill data = .ok (.str s) →
    ∀ texts texts' : List Text, texts.length = l.tokens.length →
      texts'.length = l.tokens.length → l.weaving texts = s.toList → l.weaving texts' = s.toList →
        texts = texts'

/-- Along the literal texts of a line with one token a text has one cut at most. -/
theorem eq_of_weaving_eq_of_one (one : l.tokens.length = 1) {texts texts' : List Text} {s : Text}
    (hlength : texts.length = l.tokens.length) (hlength' : texts'.length = l.tokens.length)
    (h : l.weaving texts = s) (h' : l.weaving texts' = s) : texts = texts' := by
  obtain ⟨x, rfl⟩ := List.length_eq_one_iff.1 (hlength.trans one)
  obtain ⟨x', rfl⟩ := List.length_eq_one_iff.1 (hlength'.trans one)
  obtain ⟨literal, hliteral⟩ := List.length_eq_one_iff.1 (l.length_literals.trans one)
  simp only [weaving, hliteral, weave, List.append_assoc] at h h'
  rw [List.append_cancel_right (List.append_cancel_left (h.trans h'.symm))]

/-- A text with one cut shows copies if each of its tokens does. -/
theorem shows_of_text [Engine] (notWhole : l.whole? = none) (accepted : l.Accepted)
    (oneCut : l.OneCut data)
    (each : ∀ t ∈ l.tokens, ∃ r c, t.resolve data = .ok r ∧ t.recoverText r.inline = .ok c ∧
      Copies expected (t, c)) : l.Shows data expected := by
  obtain ⟨values, hvalues⟩ : ∃ values,
      List.Forall₂ (fun t r => t.resolve data = .ok r) l.tokens values := by
    refine exists_forall₂ fun t ht => ?_
    obtain ⟨r, -, hr, -⟩ := each t ht
    exact ⟨r, hr⟩
  have hfill := (fill_eq_ok_iff notWhole).2 ⟨values, hvalues, rfl⟩
  obtain ⟨s, values, hs, hvalues, captured⟩ := exists_captured_of_oneCut notWhole oneCut hfill
  rw [hs] at hfill
  obtain ⟨placed, htokens, hrecover, hplaced⟩ := exists_recover_text
    (p := fun pair c => Copies expected (pair.1, c)) notWhole accepted captured
    (by rw [List.length_map, hvalues.length_eq])
    (fun t ht => by
      obtain ⟨_, _, -, -, copies⟩ := each t ht
      exact ⟨copies.found.readPath, copies.found.bounded⟩) fun pair hpair => by
      obtain ⟨r, hr, hinline⟩ := exists_resolve_of_mem_zip hvalues hpair
      obtain ⟨r', c, hr', hc, copies⟩ := each pair.1 (List.of_mem_zip hpair).1
      cases hr.symm.trans hr'
      exact ⟨c, hinline ▸ hc, copies⟩
  refine ⟨_, placed, hfill, hrecover, htokens, fun c hc => ?_⟩
  obtain ⟨pair, -, hpair, copies⟩ := exists_left_of_forall₂ hplaced hc
  rwa [← hpair] at copies

/-- **A line whose values can be read back shows copies of them.** -/
theorem Legible.shows [Engine] (legible : l.Legible assigned data) (accepted : l.Accepted)
    (hl : l.WellFormed) (hexpected : expected.WellFormed) (found : ∀ t ∈ l.tokens, t.Found expected)
    (agrees : ∀ t ∈ l.tokens, ∀ v, expected.walk? t.target = some v →
      t.source? data t.target = some v)
    (left : ∀ t ∈ l.tokens, t.target ∉ assigned → t.source? data t.target = t.fallback) :
    l.Shows data expected := by
  cases hwhole : l.whole? with
  | none =>
      exact shows_of_text hwhole accepted (legible.oneCut hwhole) fun t ht =>
        (legible.inText hwhole t ht).exists_copy (hl t ht) (found t ht) (agrees t ht) (left t ht)
  | some t =>
      have ht := mem_tokens_of_whole? hwhole
      exact shows_of_whole hwhole (legible.whole t hwhole) hl hexpected (found t ht) (agrees t ht)

end Line

/-! ## The template -/

/-- The tokens whose paths are not among the paths. -/
def leftOut (assigned : List Path) (tokens : List Token) : List Token :=
  tokens.filter fun t => t.target ∉ assigned

/-- The defaults of the tokens, at their paths. -/
def defaults (tokens : List Token) : List (Path × Json) :=
  tokens.map fun t => (t.target, t.fallback.getD .null)

/-- The paths of the tokens of a linear template are equal or diverge. -/
theorem Linear.separate {tokens : List Token} (linear : Linear tokens) :
    Json.Separate (tokens.map Token.target) where
  assignable p hp := by
    obtain ⟨t, ht, rfl⟩ := List.mem_map.1 hp
    exact (linear.place t ht).assignable
  apart p hp q hq := by
    obtain ⟨t, ht, rfl⟩ := List.mem_map.1 hp
    obtain ⟨t', ht', rfl⟩ := List.mem_map.1 hq
    have related : tokens.Pairwise fun t t' =>
        t.target = t'.target ∨ t.target.Diverges t'.target := linear.apart.imp .inr
    exact List.Pairwise.forall_of_forall_of_flip (fun _ _ => .inl rfl) related
      (related.imp fun h => h.imp Eq.symm Path.Diverges.symm) ht ht'

namespace Template

variable {o : Options} {t : Template} {lines : List Line} {tokens : List Token}
  {chosen : List (Path × Json)}

/-- What the template shows, given values for some of its paths: these values, and the defaults of
the other tokens. -/
def shown (tokens : List Token) (chosen : List (Path × Json)) : Json :=
  Json.assignAll (defaults (leftOut (chosen.map Prod.fst) tokens))
    (Json.assignAll chosen (.obj []))

/-- The values are for paths of the tokens, and none of them is null. -/
structure Chosen (tokens : List Token) (chosen : List (Path × Json)) : Prop where
  mem : ∀ c ∈ chosen, c.1 ∈ tokens.map Token.target
  wellFormed : ∀ c ∈ chosen, c.2.WellFormed
  notNull : ∀ c ∈ chosen, c.2 ≠ .null

theorem mem_defaults {assigned : List Path}
    (fallback : ∀ t ∈ leftOut assigned tokens, ∃ d, t.fallback = some d ∧ d ≠ .null)
    {c : Path × Json} (hc : c ∈ defaults (leftOut assigned tokens)) :
    ∃ t ∈ leftOut assigned tokens, c.1 = t.target ∧ t.fallback = some c.2 ∧ c.2 ≠ .null := by
  obtain ⟨t, ht, rfl⟩ := List.mem_map.1 hc
  obtain ⟨d, hd, hnull⟩ := fallback t ht
  exact ⟨t, ht, rfl, by rw [hd]; rfl, by rw [hd]; exact hnull⟩

theorem pairwise_defaults (linear : Linear tokens) (assigned : List Path) :
    (defaults (leftOut assigned tokens)).Pairwise fun c c' => c.1.Diverges c'.1 :=
  List.pairwise_map.2 (linear.apart.filter _)

/-- Everything that the template shows is at the paths of its tokens. -/
theorem built_shown (linear : Linear tokens) (hchosen : Chosen tokens chosen)
    (wf : ∀ t ∈ tokens, ∀ v, t.fallback = some v → v.WellFormed)
    (fallback : ∀ t ∈ leftOut (chosen.map Prod.fst) tokens, ∃ d, t.fallback = some d ∧ d ≠ .null) :
    Json.Built (tokens.map Token.target) (chosen.reverse.map Prod.fst)
        (Json.assignAll chosen (.obj [])) ∧
      ∃ assigned, Json.Built (tokens.map Token.target) assigned (shown tokens chosen) := by
  have separate := linear.separate
  have built := (Json.built_obj_nil separate).assignAll separate fun c hc =>
    ⟨hchosen.mem c hc, hchosen.wellFormed c hc, hchosen.notNull c hc⟩
  rw [List.append_nil] at built
  refine ⟨built, _, built.assignAll separate fun c hc => ?_⟩
  obtain ⟨t, ht, hpath, hd, hnull⟩ := mem_defaults fallback hc
  have ht := List.mem_of_mem_filter ht
  exact ⟨hpath ▸ List.mem_map_of_mem ht, wf t ht c.2 hd, hnull⟩

/-- **At the path of every token the template shows the value that the token takes.** -/
theorem walk?_shown (linear : Linear tokens) (hchosen : Chosen tokens chosen)
    (wf : ∀ t ∈ tokens, ∀ v, t.fallback = some v → v.WellFormed)
    (fallback : ∀ t ∈ leftOut (chosen.map Prod.fst) tokens, ∃ d, t.fallback = some d ∧ d ≠ .null)
    {t : Token} (ht : t ∈ tokens) :
    ∃ v, (shown tokens chosen).walk? t.target = some v ∧ v ≠ .null ∧
      t.source? (Json.assignAll chosen (.obj [])) t.target = some v := by
  obtain ⟨built, -⟩ := built_shown linear hchosen wf fallback
  have hpath : t.target ∈ tokens.map Token.target := List.mem_map_of_mem ht
  have bounded : ∀ c ∈ defaults (leftOut (chosen.map Prod.fst) tokens), c.1.Bounded := by
    intro c hc
    obtain ⟨t', ht', hc', -⟩ := mem_defaults fallback hc
    rw [hc']
    exact (linear.place t' (List.mem_of_mem_filter ht')).assignable.bounded
  by_cases hassigned : t.target ∈ chosen.map Prod.fst
  · obtain ⟨v, hv, hnull⟩ := built.holds t.target hpath (by simpa using hassigned)
    refine ⟨v, Json.walk?_assignAll_of_diverges bounded (fun c hc => ?_) hv, hnull,
      Token.source?_of_get? (Json.get?_of_walk? hv) hnull⟩
    obtain ⟨t', ht', hc', -⟩ := mem_defaults fallback hc
    obtain ⟨hmem, hfree⟩ := List.mem_filter.1 ht'
    rw [hc']
    refine (linear.separate.apart _ (List.mem_map_of_mem hmem) _ hpath).resolve_left fun same => ?_
    rw [same] at hfree
    simp [hassigned] at hfree
  · have hleft : t ∈ leftOut (chosen.map Prod.fst) tokens :=
      List.mem_filter.2 ⟨ht, by simpa using hassigned⟩
    obtain ⟨d, hd, hnull⟩ := fallback t hleft
    refine ⟨d, ?_, hnull, ?_⟩
    · have hmem : (t.target, d) ∈ defaults (leftOut (chosen.map Prod.fst) tokens) :=
        List.mem_map.2 ⟨t, hleft, by rw [hd]; rfl⟩
      exact Json.walk?_assignAll_of_mem bounded (pairwise_defaults linear _) hmem
    · rw [Token.source?_of_avoids (built.avoids t.target hpath (by simpa using hassigned))]
      exact hd

/-- **Recovering undoes filling**, if the engine takes the patterns of the strings. A template that
is filled with data at some of its paths becomes a tree, and what is recovered from the tree is that
data with the defaults at the other paths; so it is that data itself if no path was left out. -/
theorem recover_fill [Engine] (ht : t.WellFormed) (hlines : t.lines o.delimiters = .ok lines)
    (linear : Linear (lines.flatMap Line.tokens))
    (hchosen : Chosen (lines.flatMap Line.tokens) chosen)
    (fallback : ∀ token ∈ leftOut (chosen.map Prod.fst) (lines.flatMap Line.tokens),
      ∃ d, token.fallback = some d ∧ d ≠ .null)
    (legible : ∀ l ∈ lines, l.Legible (chosen.map Prod.fst) (Json.assignAll chosen (.obj [])))
    (accepted : ∀ l ∈ lines, l.Accepted) :
    ∃ result data', fill o.strict (Json.assignAll chosen (.obj [])) t = .ok result ∧
      recover o.delimiters t result = .ok data' ∧
      data'.same (shown (lines.flatMap Line.tokens) chosen) = true ∧
      (leftOut (chosen.map Prod.fst) (lines.flatMap Line.tokens) = [] →
        data'.same (Json.assignAll chosen (.obj [])) = true) := by
  have wf : ∀ token ∈ lines.flatMap Line.tokens, ∀ v, token.fallback = some v → v.WellFormed := by
    intro token htoken
    obtain ⟨l, hl, htoken⟩ := List.mem_flatMap.1 htoken
    exact wellFormed_of_mem_lines hlines hl token htoken
  have takes := fun token htoken => walk?_shown (t := token) linear hchosen wf fallback htoken
  obtain ⟨built, _, builtShown⟩ := built_shown linear hchosen wf fallback
  have mem : ∀ l ∈ lines, ∀ token ∈ l.tokens, token ∈ lines.flatMap Line.tokens :=
    fun l hl token htoken => List.mem_flatMap.2 ⟨l, hl, htoken⟩
  have found : ∀ token ∈ lines.flatMap Line.tokens,
      token.Found (shown (lines.flatMap Line.tokens) chosen) := by
    intro token htoken
    have place := linear.place token htoken
    obtain ⟨v, hv, hnull, -⟩ := takes token htoken
    exact ⟨place.readPath, place.assignable.bounded, v, hv, hnull⟩
  have each : ∀ l ∈ lines, l.Shows (Json.assignAll chosen (.obj []))
      (shown (lines.flatMap Line.tokens) chosen) := by
    intro l hl
    refine (legible l hl).shows (accepted l hl) (wellFormed_of_mem_lines hlines hl) builtShown.wellFormed
      (fun token htoken => found token (mem l hl token htoken)) (fun token htoken v hv => ?_)
      fun token htoken hfree => ?_
    · obtain ⟨v', hv', -, hsource⟩ := takes token (mem l hl token htoken)
      cases hv.symm.trans hv'
      exact hsource
    · exact Token.source?_of_avoids (built.avoids token.target
        (List.mem_map_of_mem (mem l hl token htoken)) (by simpa using hfree))
  obtain ⟨result, placed, hresult, hrecover, copies, covered⟩ := exists_recover_copies ht hlines each
  obtain ⟨hwf, hle, -⟩ := partOf_merged builtShown.isObj builtShown.wellFormed copies
  have held : ∀ p ∈ (lines.flatMap Line.tokens).map Token.target, ∃ v w,
      (shown (lines.flatMap Line.tokens) chosen).walk? p = some v ∧
        (merged placed).walk? p = some w ∧ w.same v = true := by
    intro p hp
    obtain ⟨token, htoken, rfl⟩ := List.mem_map.1 hp
    obtain ⟨cs, hcs, c, hc, rfl⟩ := covered token htoken
    obtain ⟨v, w, hv, -, hw, hwv⟩ :=
      exists_same_of_merged builtShown.isObj builtShown.wellFormed copies hcs hc
    exact ⟨v, w, hv, hw, hwv⟩
  have hge := builtShown.partOf hwf (hle.alike.isObj_eq.trans builtShown.isObj) held
  have hsame := hle.antisymm hwf builtShown.wellFormed hge
  refine ⟨result, merged placed, hresult, hrecover, hsame, fun none => ?_⟩
  rwa [shown, none] at hsame

/-- A template with a path through an array, a default, and two tokens in texts. -/
def letter : Template :=
  .arr [.str "<list[1].name>", .str "Hi <who>!", .str "<x||[]>", .str "=<object: cfg>"]

/-- The lines of the letter. -/
def letterLines : List Line :=
  [⟨[([], ⟨.asIs, "list[1].name".toList, none, "list[1].name".toList,
      "<list[1].name>".toList⟩)], []⟩,
   ⟨[("Hi ".toList, ⟨.asIs, "who".toList, none, "who".toList, "<who>".toList⟩)], ['!']⟩,
   ⟨[([], ⟨.asIs, "x".toList, some (.arr []), "x||[]".toList,
      "<x||[]>".toList⟩)], []⟩,
   ⟨[(['='], ⟨.object, "cfg".toList, none, "cfg".toList, "<object: cfg>".toList⟩)], []⟩]

/-- Values for all paths of the letter but the one with a default. -/
def letterChosen : List (Path × Json) :=
  [([.key "cfg"], .obj [("on", .arr [.bool true])]), ([.key "who"], .str "Ann"),
    ([.key "list", .index 1, .key "name"], .bool false)]

theorem legible_letter : ∀ l ∈ letterLines,
    l.Legible (letterChosen.map Prod.fst) (Json.assignAll letterChosen (.obj [])) := by
  intro l hl
  simp only [letterLines, List.mem_cons, List.not_mem_nil, or_false] at hl
  rcases hl with rfl | rfl | rfl | rfl
  all_goals refine ⟨by decide, fun notWhole t ht => ?_, fun _ s _ texts texts' hlength hlength' =>
    Line.eq_of_weaving_eq_of_one rfl hlength hlength'⟩
  · cases notWhole
  · cases List.mem_singleton.1 ht
    exact .inl ⟨.inl rfl, .inr ⟨rfl, "Ann", by with_unfolding_all rfl⟩⟩
  · cases notWhole
  · cases List.mem_singleton.1 ht
    exact .inr ⟨rfl, rfl, _, by with_unfolding_all rfl, .inr ⟨_, rfl⟩, _,
      by with_unfolding_all rfl, by with_unfolding_all rfl⟩

theorem recover_fill_letter :
    ∃ result data', fill angles.strict (Json.assignAll letterChosen (.obj [])) letter = .ok result ∧
      recover angles.delimiters letter result = .ok data' ∧
      data'.same (shown (letterLines.flatMap Line.tokens) letterChosen) = true := by
  have hlines : lines angles.delimiters letter = .ok letterLines := by with_unfolding_all rfl
  have chosen : Chosen (letterLines.flatMap Line.tokens) letterChosen :=
    ⟨by decide +kernel, by simp [letterChosen, Json.WellFormed, Json.WellFormedFields,
      Json.WellFormedItems], by simp [letterChosen]⟩
  have left : leftOut (letterChosen.map Prod.fst) (letterLines.flatMap Line.tokens) =
      [⟨.asIs, "x".toList, some (.arr []), "x||[]".toList,
        "<x||[]>".toList⟩] := by with_unfolding_all rfl
  obtain ⟨result, data', hfill, hrecover, hsame, -⟩ := recover_fill (t := letter)
    (by simp [letter, Json.WellFormed]) hlines (by decide +kernel) chosen
    (by rw [left]; simp) legible_letter (by decide +kernel)
  exact ⟨result, data', hfill, hrecover, hsame⟩

end Template

end Stencil
