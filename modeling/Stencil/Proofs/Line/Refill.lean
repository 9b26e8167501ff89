import Stencil.Proofs.Line.Gather
import Stencil.Proofs.Template.Linear

/-!
# From a text to data and back to the text

Filling and recovering make a round trip from either side.  Here it starts with a
text: any text at all, whether or not a string was ever filled to give it.  If data
can be recovered from the text, filling the string with that data gives the text
again (`fillString_of_recoverString`).

Three facts make the round trip.  The pieces that the text is cut into weave it
again.  From each piece a value is recovered that leaves this piece, even where it
is a default that looks like the piece, and even where this default is null.  And
each value comes to stand at the path of its token, because the paths diverge.
-/

set_option autoImplicit false

namespace Stencil

variable {o : Options} {source s : String} {fragment : Json}

/-- The values that are recovered from a text return the pieces of the text. -/
theorem Line.exists_returns_of_values [Engine] {l : Line} {placed : List (Token × Json)}
    (hne : l.tokens ≠ []) (notWhole : l.whole? = none) (hl : l.WellFormed)
    (casts : ∀ t ∈ l.tokens, t.cast = .asIs ∨ t.cast = .string)
    (h : l.values (some (.str s)) = .ok placed) :
    ∃ texts, texts.length = l.tokens.length ∧ l.weaving texts = s.toList ∧
      List.Forall₂ (fun pair c => c.1 = pair.1 ∧ pair.1.Returns pair.2 c.2)
        (l.tokens.zip texts) placed := by
  rcases values_cases h with ⟨hnil | hnone, -⟩ | ⟨t, _, _, whole, -⟩ |
    ⟨-, -, s', texts, hs, captured, hplaced⟩
  · exact absurd hnil hne
  · cases hnone
  · cases notWhole.symm.trans whole
  · cases hs
    obtain ⟨hlength, hweave⟩ := weave_of_capture? captured
    refine ⟨texts, hlength.trans l.length_literals, hweave, ?_⟩
    have recovers := (List.forall₂_and_left _ _).2
      ⟨fun pair hpair => (List.of_mem_zip hpair).1, hplaced⟩
    refine recovers.imp ?_
    rintro pair c ⟨ht, hc, hv⟩
    exact ⟨hc, Token.returns_of_recoverText (casts pair.1 ht) (hl pair.1 ht) hv⟩

/-- **Whatever text data is recovered from, filling the string with the data gives the text
again**, if the tokens have no cast or are cast to strings and their paths diverge. -/
theorem fillString_of_recoverString [Engine] {l : Line}
    (hline : Line.ofText o.delimiters source.toList = .ok l) (hne : l.tokens ≠ [])
    (notWhole : l.whole? = none)
    (casts : ∀ t ∈ l.tokens, t.cast = .asIs ∨ t.cast = .string)
    (apart : l.tokens.Pairwise fun t t' => t.target.Diverges t'.target)
    (h : recoverString o.delimiters source (some (.str s)) = .ok fragment) :
    fillString o.strict fragment source = .ok (.str s) := by
  obtain ⟨l', placed, hline', hvalues, writable, rfl⟩ := recoverString_eq_ok_iff.1 h
  cases hline.symm.trans hline'
  have hl : l.WellFormed := Line.wellFormed_of_ofText hline
  have htokens : placed.map Prod.fst = l.tokens :=
    (Line.map_fst_values hvalues).resolve_right fun hnone => by cases hnone.1
  have hwf : ∀ c ∈ placed, c.2.WellFormed := by
    apply Line.wellFormed_values hl _ hvalues
    rintro r hr
    cases hr
    trivial
  have held : ∀ c ∈ placed, (gather placed).get? c.1.target = some c.2 := by
    intro c hc
    apply Json.get?_of_walk?
    rw [← htokens] at apart
    have apartPlaced := List.pairwise_map.1 apart
    exact walk?_gather_of_mem (fun c hc => ⟨writable c hc, hwf c hc⟩) apartPlaced hc
  have reads : ∀ t ∈ l.tokens, t.readPath = .ok t.target := by
    intro t ht
    rw [← htokens] at ht
    obtain ⟨c, hc, rfl⟩ := List.mem_map.1 ht
    exact (writable c hc).readPath
  obtain ⟨texts, hlength, hweave, returns⟩ :=
    Line.exists_returns_of_values hne notWhole hl casts hvalues
  obtain ⟨values, hresolve, htexts⟩ :=
    Line.exists_values_of_returns hlength reads returns held
  have hfill : l.fill (gather placed) = .ok (.str s) := by
    refine (Line.fill_eq_ok_iff notWhole).2 ⟨values, hresolve, ?_⟩
    rw [htexts, hweave, String.ofList_toList]
  exact (fillString_eq_ok_iff rfl).2 ⟨l, hline, hfill⟩

/-- The text shows the default of the first token, and the values go to the two places of one
array, the later place first. -/
theorem fillString_of_recoverString_pair :
    ∃ fragment, recoverString Template.angles.delimiters "<x[1]||[]>:<string:x[0].a>"
        (some (.str "[]:ab")) = .ok fragment ∧
      fillString Template.angles.strict fragment "<x[1]||[]>:<string:x[0].a>" =
        .ok (.str "[]:ab") := by
  have hline := @eq_ok_get _ _
    (Line.ofText Template.angles.delimiters "<x[1]||[]>:<string:x[0].a>".toList)
    (by decide +kernel)
  have h := @eq_ok_get _ _ (recoverString Template.angles.delimiters
    "<x[1]||[]>:<string:x[0].a>" (some (.str "[]:ab"))) (by decide +kernel)
  exact ⟨_, h, fillString_of_recoverString hline (by decide +kernel) (by decide +kernel)
    (by decide +kernel) (by decide +kernel) h⟩

end Stencil
