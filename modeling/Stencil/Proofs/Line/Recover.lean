import Stencil.Proofs.Json.Carries
import Stencil.Proofs.Line.Values

/-!
# What a line gives back

A line that is filled becomes the value of its one token, or the text that its
literal texts and the texts of the values are woven to (`fill_eq_ok_iff`).  What is
recovered from it are values placed at the paths of its tokens, gathered in one
tree (`recover_whole`, `recover_text`).  From a text with one cut along the literal
texts each token gets back the text that it left there (`exists_captured_of_oneCut`).

The values need not be those that the line was filled with, since a text can have
several cuts along the literal texts.  But they make the line become the same
again: any data that holds them at the paths of the tokens will do
(`exists_restores`).
-/

set_option autoImplicit false

namespace Stencil

namespace Line

/-- The text that the line becomes if its tokens become the texts. -/
def weaving (l : Line) (texts : List Text) : Text :=
  weave l.tail l.literals texts

/-! ## Filling -/

theorem fillRuns_eq_ok_iff {data : Json} {tail s : Text} {runs : List (Text × Token)} :
    fillRuns data tail runs = .ok s ↔
      ∃ values, List.Forall₂ (fun t v => t.resolve data = .ok v) (runs.map Prod.snd) values ∧
        weave tail (runs.map Prod.fst) (values.map Json.inline) = s := by
  induction runs generalizing s with
  | nil =>
      refine ⟨fun h => ?_, fun ⟨values, hvalues, hs⟩ => ?_⟩
      · cases h
        exact ⟨[], .nil, rfl⟩
      · rw [← hs]
        rfl
  | cons run runs ih =>
      obtain ⟨literal, t⟩ := run
      refine ⟨fun h => ?_, fun ⟨values, hvalues, hs⟩ => ?_⟩
      · simp only [fillRuns, bind_eq_ok_iff] at h
        obtain ⟨v, hv, rest, hrest, hs⟩ := h
        obtain ⟨values, hvalues, hweave⟩ := ih.1 hrest
        cases hs
        exact ⟨v :: values, .cons hv hvalues, by rw [← hweave]; rfl⟩
      · cases hvalues with
        | cons hv hvalues =>
            unfold fillRuns
            rw [hv, ih.2 ⟨_, hvalues, rfl⟩, ← hs]
            rfl

/-- **A line with text around its tokens becomes the weaving of the texts of their values.** -/
theorem fill_eq_ok_iff {l : Line} {data r : Json} (notWhole : l.whole? = none) :
    l.fill data = .ok r ↔
      ∃ values, List.Forall₂ (fun t v => t.resolve data = .ok v) l.tokens values ∧
        r = .str (String.ofList (l.weaving (values.map Json.inline))) := by
  unfold fill
  rw [notWhole]
  refine ⟨fun h => ?_, fun ⟨values, hvalues, hr⟩ => ?_⟩
  · obtain ⟨s, hs, h⟩ := bind_eq_ok_iff.1 h
    obtain ⟨values, hvalues, hweave⟩ := fillRuns_eq_ok_iff.1 hs
    cases h
    exact ⟨values, hvalues, by rw [← hweave]; rfl⟩
  · dsimp only
    rw [fillRuns_eq_ok_iff.2 ⟨values, hvalues, rfl⟩, hr]
    rfl

theorem fill_whole {l : Line} {t : Token} (whole : l.whole? = some t) (data : Json) :
    l.fill data = t.resolve data := by
  rw [fill, whole]

theorem wellFormed_of_fill {l : Line} {data r : Json}
    (wf : ∀ t ∈ l.tokens, ∀ d, t.fallback = some d → d.WellFormed) (hdata : data.WellFormed)
    (h : l.fill data = .ok r) : r.WellFormed := by
  cases hwhole : l.whole? with
  | some t =>
      rw [fill_whole hwhole] at h
      exact Token.wellFormed_of_resolve hdata (wf t (mem_tokens_of_whole? hwhole)) h
  | none =>
      obtain ⟨values, -, rfl⟩ := (fill_eq_ok_iff hwhole).1 h
      trivial

/-- **The text that a line became is captured**: one text for each token, and the captured texts
weave it again. -/
theorem exists_capture_of_fill {l : Line} {data r : Json} (notWhole : l.whole? = none)
    (h : l.fill data = .ok r) :
    ∃ s texts, r = .str (String.ofList s) ∧ l.capture? s = some texts ∧
      texts.length = l.tokens.length ∧ l.weaving texts = s := by
  obtain ⟨values, hvalues, hr⟩ := (fill_eq_ok_iff notWhole).1 h
  have hcount : (values.map Json.inline).length = l.literals.length := by
    rw [List.length_map, ← hvalues.length_eq, length_literals]
  obtain ⟨texts, captured⟩ := exists_capture? hcount
  obtain ⟨hlength, hweave⟩ := weave_of_capture? captured
  exact ⟨_, texts, hr, captured, hlength.trans l.length_literals, hweave⟩

/-! ## Recovering -/

section Recovering

variable [Engine]

/-- **From a whole token its value is recovered.** -/
theorem recover_whole {l : Line} {t : Token} {r v : Json} (whole : l.whole? = some t)
    (reads : t.readPath = .ok t.target) (bounded : t.target.Bounded)
    (hv : t.recoverValue r = .ok v) : l.recover (some r) = .ok (gather [(t, v)]) := by
  refine recover_eq_ok_iff.2 ⟨_, values_whole whole hv, ?_, rfl⟩
  exact List.forall_mem_singleton.2 ⟨reads, bounded⟩

/-- **From a text the values are recovered that its pieces stand for.** -/
theorem recover_text {l : Line} {s : Text} {texts : List Text} {placed : List (Token × Json)}
    (notWhole : l.whole? = none) (accepted : l.Accepted) (captured : l.capture? s = some texts)
    (place : ∀ t ∈ l.tokens, t.readPath = .ok t.target ∧ t.target.Bounded)
    (h : List.Forall₂ (fun pair c => c.1 = pair.1 ∧ pair.1.recoverText pair.2 = .ok c.2)
      (l.tokens.zip texts) placed) :
    l.recover (some (.str (String.ofList s))) = .ok (gather placed) := by
  have hs : producedText? (some (.str (String.ofList s))) = some s := by
    simp [producedText?, Json.isNull, Json.inline]
  refine recover_eq_ok_iff.2 ⟨_, values_text notWhole accepted hs captured h, ?_, rfl⟩
  intro c hc
  obtain ⟨pair, hpair, htoken, -⟩ := exists_left_of_forall₂ h hc
  obtain ⟨reads, bounded⟩ := place pair.1 (List.of_mem_zip hpair).1
  rw [htoken]
  exact ⟨reads, bounded⟩

/-- **If each token recovers a value from its text, these values are what the line recovers.** -/
theorem exists_recover_text {l : Line} {s : Text} {texts : List Text}
    {p : Token × Text → Json → Prop} (notWhole : l.whole? = none) (accepted : l.Accepted)
    (captured : l.capture? s = some texts) (hlength : texts.length = l.tokens.length)
    (place : ∀ t ∈ l.tokens, t.readPath = .ok t.target ∧ t.target.Bounded)
    (each : ∀ pair ∈ l.tokens.zip texts, ∃ v, pair.1.recoverText pair.2 = .ok v ∧ p pair v) :
    ∃ placed, placed.map Prod.fst = l.tokens ∧
      l.recover (some (.str (String.ofList s))) = .ok (gather placed) ∧
      List.Forall₂ (fun pair c => c.1 = pair.1 ∧ p pair c.2) (l.tokens.zip texts) placed := by
  obtain ⟨placed, hplaced⟩ : ∃ placed : List (Token × Json), List.Forall₂
      (fun pair c => c.1 = pair.1 ∧ pair.1.recoverText pair.2 = .ok c.2 ∧ p pair c.2)
      (l.tokens.zip texts) placed := by
    refine exists_forall₂ fun pair hpair => ?_
    obtain ⟨v, hv, hp⟩ := each pair hpair
    exact ⟨(pair.1, v), rfl, hv, hp⟩
  refine ⟨placed, map_fst_of_forall₂_zip hlength hplaced, ?_, ?_⟩
  · exact recover_text notWhole accepted captured place (hplaced.imp fun _ _ hc => ⟨hc.1, hc.2.1⟩)
  · exact hplaced.imp fun _ _ hc => ⟨hc.1, hc.2.2⟩

end Recovering

/-! ## Texts with one cut -/

/-- The text that the line becomes can be cut along its literal texts in one way only. -/
def OneCut (l : Line) (data : Json) : Prop :=
  ∀ s, l.fill data = .ok (.str s) → ∀ texts texts' : List Text,
    texts.length = l.tokens.length → texts'.length = l.tokens.length →
      l.weaving texts = s.toList → l.weaving texts' = s.toList → texts = texts'

variable {l : Line} {data r : Json}

/-- A text with one cut is cut into the texts of the values that it was filled with. -/
theorem exists_captured_of_oneCut (notWhole : l.whole? = none) (oneCut : l.OneCut data)
    (h : l.fill data = .ok r) :
    ∃ s values, r = .str (String.ofList s) ∧
      List.Forall₂ (fun t r => t.resolve data = .ok r) l.tokens values ∧
      l.capture? s = some (values.map Json.inline) := by
  obtain ⟨values, hvalues, rfl⟩ := (fill_eq_ok_iff notWhole).1 h
  obtain ⟨s, texts, hs, captured, hlength, hweave⟩ := exists_capture_of_fill notWhole h
  have hwoven := String.ofList_injective (Json.str.inj hs)
  refine ⟨s, values, hs, hvalues, ?_⟩
  rw [captured, oneCut _ h texts (values.map Json.inline) hlength
    (by rw [List.length_map, hvalues.length_eq]) (by rw [hweave, hwoven, String.toList_ofList])
    (by rw [String.toList_ofList])]

theorem exists_resolve_of_mem_zip {values : List Json} {pair : Token × Text}
    (h : List.Forall₂ (fun t r => t.resolve data = .ok r) l.tokens values)
    (hpair : pair ∈ l.tokens.zip (values.map Json.inline)) :
    ∃ r, pair.1.resolve data = .ok r ∧ pair.2 = r.inline := by
  rw [List.zip_map_right] at hpair
  obtain ⟨⟨t, r⟩, hmem, rfl⟩ := List.mem_map.1 hpair
  exact ⟨r, List.forall₂_zip h hmem, rfl⟩

/-! ## What is recovered fills the line again -/

/-- The casts of the line leave what they give as it is: a token in a text is cast to a string at
most, and one that is the whole string to a string or a number at most. -/
structure MildCasts (l : Line) : Prop where
  whole : ∀ t ∈ l.whole?, t.cast = .asIs ∨ t.cast = .string ∨ t.cast = .number
  inText : l.whole? = none → ∀ t ∈ l.tokens, t.cast = .asIs ∨ t.cast = .string

instance (l : Line) : Decidable l.MildCasts :=
  decidable_of_iff
    ((∀ t ∈ l.whole?, t.cast = .asIs ∨ t.cast = .string ∨ t.cast = .number) ∧
      (l.whole? = none → ∀ t ∈ l.tokens, t.cast = .asIs ∨ t.cast = .string))
    ⟨fun h => ⟨h.1, h.2⟩, fun h => ⟨h.whole, h.inText⟩⟩

/-- Values that the pieces of a text return leave these pieces again. -/
theorem exists_values_of_returns {data' : Json} {tokens : List Token} {texts : List Text}
    {placed : List (Token × Json)} (hlength : texts.length = tokens.length)
    (reads : ∀ t ∈ tokens, t.readPath = .ok t.target)
    (h : List.Forall₂ (fun pair c => c.1 = pair.1 ∧ pair.1.Returns pair.2 c.2)
      (tokens.zip texts) placed)
    (holds : ∀ c ∈ placed, data'.get? c.1.target = some c.2) :
    ∃ values, List.Forall₂ (fun t v => t.resolve data' = .ok v) tokens values ∧
      values.map Json.inline = texts := by
  induction tokens generalizing texts placed with
  | nil => exact ⟨[], .nil, (List.eq_nil_of_length_eq_zero hlength).symm⟩
  | cons t tokens ih =>
      obtain ⟨hreads, readsRest⟩ := List.forall_mem_cons.1 reads
      cases texts with
      | nil => cases hlength
      | cons s texts =>
          cases h with
          | @cons _ c _ placed hc hrest =>
              obtain ⟨t', v⟩ := c
              obtain ⟨rfl, returns⟩ := hc
              obtain ⟨hholds, holdsRest⟩ := List.forall_mem_cons.1 holds
              obtain ⟨values, hvalues, htexts⟩ :=
                ih (Nat.succ.inj hlength) readsRest hrest holdsRest
              obtain ⟨w, hw, hinline⟩ := returns.again
              refine ⟨w :: values, .cons ?_ hvalues, ?_⟩
              · rw [Token.resolve_of_get? hreads returns.settles hholds, hw]
              · rw [List.map_cons, hinline, htexts]

variable [Engine]

/-- The values are recovered from what the line became: there is one for each token, their gathering
is the answer, and data that holds them makes the line become the same again. -/
structure Restores (l : Line) (r : Json) (placed : List (Token × Json)) : Prop where
  tokens : placed.map Prod.fst = l.tokens
  recover : l.recover (some r) = .ok (gather placed)
  wellFormed : ∀ c ∈ placed, c.2.WellFormed
  refill : ∀ data', (∀ c ∈ placed, data'.get? c.1.target = some c.2) →
    ∃ r', l.fill data' = .ok r' ∧ r'.same r = true

theorem exists_restores_whole {t : Token} (whole : l.whole? = some t)
    (cast : t.cast = .asIs ∨ t.cast = .string ∨ t.cast = .number) (place : t.Placeable)
    (wf : ∀ v, t.fallback = some v → v.WellFormed) (hdata : data.WellFormed)
    (h : l.fill data = .ok r) : ∃ placed, l.Restores r placed := by
  rw [fill_whole whole] at h
  obtain ⟨v, hv, hwf, settles, w, hw, hsame⟩ := Token.exists_recoverValue cast wf hdata h
  refine ⟨[(t, v)], ?_, ?_, ?_, fun data' holds => ⟨w, ?_, hsame⟩⟩
  · rw [tokens_of_whole? whole]
    rfl
  · exact recover_whole whole place.readPath place.assignable.bounded hv
  · simpa using hwf
  · rw [fill_whole whole, Token.resolve_of_get? place.readPath settles
      (holds (t, v) List.mem_cons_self)]
    exact hw

theorem exists_restores_text (notWhole : l.whole? = none) (accepted : l.Accepted)
    (cast : ∀ t ∈ l.tokens, t.cast = .asIs ∨ t.cast = .string)
    (place : ∀ t ∈ l.tokens, t.Placeable)
    (wf : ∀ t ∈ l.tokens, ∀ v, t.fallback = some v → v.WellFormed)
    (h : l.fill data = .ok r) : ∃ placed, l.Restores r placed := by
  obtain ⟨s, texts, rfl, captured, hlength, hweave⟩ := exists_capture_of_fill notWhole h
  obtain ⟨placed, htokens, hrecover, hplaced⟩ := exists_recover_text notWhole accepted captured
    hlength
    (p := fun pair v => pair.1.Returns pair.2 v)
    (fun t ht => ⟨(place t ht).readPath, (place t ht).assignable.bounded⟩) fun pair hpair => by
      have ht := (List.of_mem_zip hpair).1
      obtain ⟨v, hv⟩ := Token.exists_returns (cast pair.1 ht) (wf pair.1 ht) pair.2
      exact ⟨v, hv.recovers, hv⟩
  refine ⟨placed, htokens, hrecover, fun c hc => ?_, fun data' holds => ?_⟩
  · obtain ⟨pair, -, hpair⟩ := exists_left_of_forall₂ hplaced hc
    exact hpair.2.wellFormed
  · obtain ⟨values, hvalues, htexts⟩ := exists_values_of_returns hlength
      (fun t ht => (place t ht).readPath) hplaced holds
    refine ⟨_, (fill_eq_ok_iff notWhole).2 ⟨values, hvalues, rfl⟩, ?_⟩
    rw [htexts, hweave]
    exact Json.same_refl trivial

/-- **From what a line became, values are recovered that make it become the same again.** -/
theorem exists_restores (casts : l.MildCasts) (accepted : l.Accepted)
    (place : ∀ t ∈ l.tokens, t.Placeable)
    (wf : ∀ t ∈ l.tokens, ∀ v, t.fallback = some v → v.WellFormed) (hdata : data.WellFormed)
    (h : l.fill data = .ok r) : ∃ placed, l.Restores r placed := by
  cases hwhole : l.whole? with
  | none => exact exists_restores_text hwhole accepted (casts.inText hwhole) place wf h
  | some t =>
      have ht := mem_tokens_of_whole? hwhole
      exact exists_restores_whole hwhole (casts.whole t hwhole) (place t ht) (wf t ht) hdata h

end Line

end Stencil
