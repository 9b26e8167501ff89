import Stencil.Proofs.Line.Capture
import Stencil.Proofs.Token.Place

/-!
# The values that a line gives back

Recovering does two things at once: it finds a value for each token, and it puts
the value at the token's path.  `Line.values` does the first alone, and `gather`
puts given values at the paths of their tokens.  Recovering has an answer exactly
if there is a value for each token and each token has a path that can be written,
and then the answer is the gathering of these values (`recover_eq_ok_iff`).
-/

set_option autoImplicit false

namespace Stencil

/-- The tree in which each value was put at the path of its token, one after the other. -/
def gather (placed : List (Token × Json)) : Json :=
  (placed.map fun c => c.1.piece c.2).foldl Json.merge (.obj [])

namespace Line

/-- The token with a value for it. -/
def withValue (t : Token) (v : Except Fault Json) : Except Fault (Token × Json) := do
  let v ← v
  return (t, v)

/-- The tokens of the line, each with the value that is recovered for it.  A line that is one whole
token gives no value if there is nothing at its place. -/
def values [Engine] (l : Line) (produced : Option Json) : Except Fault (List (Token × Json)) :=
  match l.runs with
  | [] => .ok []
  | _ =>
    match l.whole? with
    | some t => produced.toList.mapM fun v => withValue t (t.recoverValue v)
    | none => do
      let texts ← l.captures produced
      (l.tokens.zip texts).mapM fun pair => withValue pair.1 (pair.1.recoverText pair.2)

variable {l : Line} {t : Token} {produced : Option Json} {v data fragment : Json}
  {placed : List (Token × Json)}

theorem withValue_eq_ok_iff {x : Except Fault Json} {c : Token × Json} :
    withValue t x = .ok c ↔ c.1 = t ∧ x = .ok c.2 := by
  obtain ⟨t', v⟩ := c
  cases x with
  | error fault => exact ⟨nofun, fun ⟨_, h⟩ => nomatch h⟩
  | ok w =>
      refine ⟨fun h => ?_, fun ⟨ht, hv⟩ => ?_⟩
      · cases h
        exact ⟨rfl, rfl⟩
      · cases ht
        cases hv
        rfl

/-! ## Recovering is gathering the values -/

theorem placeTexts_eq_ok_iff {pairs : List (Token × Text)} :
    placeTexts fragment pairs = .ok data ↔
      ∃ placed, pairs.mapM (fun pair => withValue pair.1 (pair.1.recoverText pair.2)) = .ok placed ∧
        (∀ c ∈ placed, c.1.Writable) ∧
        data = (placed.map fun c => c.1.piece c.2).foldl Json.merge fragment := by
  induction pairs generalizing fragment with
  | nil =>
      refine ⟨fun h => ?_, fun ⟨placed, hplaced, _, hdata⟩ => ?_⟩
      · cases h
        exact ⟨[], rfl, by simp, rfl⟩
      · cases hplaced
        rw [hdata]
        rfl
  | cons pair pairs ih =>
      obtain ⟨t, s⟩ := pair
      simp only [placeTexts, List.mapM_cons, bind_eq_ok_iff, withValue_eq_ok_iff,
        Token.place_eq_ok_iff, ih]
      refine ⟨fun ⟨v, hv, _, ⟨writable, hnext⟩, placed, hplaced, hwritable, hdata⟩ => ?_,
        fun ⟨_, ⟨c, ⟨ht, hv⟩, placed, hplaced, h⟩, hwritable, hdata⟩ => ?_⟩
      · refine ⟨(t, v) :: placed, ⟨(t, v), ⟨rfl, hv⟩, placed, hplaced, rfl⟩, ?_, ?_⟩
        · exact List.forall_mem_cons.2 ⟨writable, hwritable⟩
        · rw [hdata, hnext]
          rfl
      · cases h
        cases ht
        obtain ⟨writable, hwritable⟩ := List.forall_mem_cons.1 hwritable
        exact ⟨c.2, hv, _, ⟨writable, rfl⟩, placed, hplaced, hwritable, hdata⟩

section Recovering

variable [Engine]

/-- The engine takes the pattern of the line, if it is asked for it: if the line has tokens and text
around them. -/
def Accepted (l : Line) : Prop :=
  l.tokens ≠ [] → l.whole? = none → Engine.refusal? l.pattern = none

instance (l : Line) : Decidable l.Accepted :=
  inferInstanceAs (Decidable (_ → _ → _))

theorem captures_eq_ok_iff {texts : List Text} :
    l.captures produced = .ok texts ↔
      Engine.refusal? l.pattern = none ∧
        ∃ s, producedText? produced = some s ∧ l.capture? s = some texts := by
  unfold captures
  cases producedText? produced with
  | none => simp
  | some s =>
      cases Engine.refusal? l.pattern with
      | some reason => simp
      | none => cases h : l.capture? s <;> simp [h]

/-- From a line with text around its tokens, values are recovered that its texts stand for. -/
theorem recover_of_notWhole (htokens : l.tokens ≠ []) (notWhole : l.whole? = none) :
    l.recover produced =
      l.captures produced >>= fun texts => placeTexts (.obj []) (l.tokens.zip texts) := by
  unfold recover
  split
  · next hruns => exact absurd (by rw [tokens, hruns]; rfl) htokens
  · rw [notWhole]

/-- Where no texts are captured, nothing is recovered. -/
theorem recover_of_captures_eq_error {fault : Fault} (htokens : l.tokens ≠ [])
    (notWhole : l.whole? = none) (h : l.captures produced = .error fault) :
    l.recover produced = .error fault := by
  rw [recover_of_notWhole htokens notWhole, h]
  rfl

/-- **What is recovered from a line is the gathering of its values, all of whose paths can be
written.** -/
theorem recover_eq_ok_iff :
    l.recover produced = .ok data ↔
      ∃ placed, l.values produced = .ok placed ∧ (∀ c ∈ placed, c.1.Writable) ∧
        data = gather placed := by
  have nothing : (Except.ok (Json.obj []) : Except Fault Json) = .ok data ↔
      ∃ placed, (Except.ok [] : Except Fault (List (Token × Json))) = .ok placed ∧
        (∀ c ∈ placed, c.1.Writable) ∧ data = gather placed := by
    refine ⟨fun h => ?_, fun ⟨placed, hplaced, _, hdata⟩ => ?_⟩
    · cases h
      exact ⟨[], rfl, by simp, rfl⟩
    · cases hplaced
      rw [hdata]
      rfl
  unfold recover values
  cases l.runs with
  | nil => exact nothing
  | cons run runs =>
      cases l.whole? with
      | some t =>
          cases produced with
          | none => exact nothing
          | some r =>
              simp only [bind_eq_ok_iff, Token.place_eq_ok_iff, mapM_eq_ok_iff, Option.toList_some,
                List.forall₂_cons_left_iff, List.forall₂_nil_left_iff, withValue_eq_ok_iff]
              refine ⟨fun ⟨v, hv, writable, hdata⟩ => ?_,
                fun ⟨_, ⟨c, _, ⟨ht, hv⟩, hnil, hplaced⟩, hwritable, hdata⟩ => ?_⟩
              · exact ⟨_, ⟨(t, v), [], ⟨rfl, hv⟩, rfl, rfl⟩, by simpa using writable, hdata⟩
              · cases hnil
                cases hplaced
                cases ht
                exact ⟨c.2, hv, hwritable c List.mem_cons_self, hdata⟩
      | none =>
          simp only [bind_eq_ok_iff, placeTexts_eq_ok_iff]
          refine ⟨fun ⟨texts, htexts, placed, hplaced, h⟩ => ?_,
            fun ⟨placed, ⟨texts, htexts, hplaced⟩, h⟩ => ?_⟩
          · exact ⟨placed, ⟨texts, htexts, hplaced⟩, h⟩
          · exact ⟨texts, htexts, placed, hplaced, h⟩

end Recovering

/-! ## Which values there are -/

theorem tokens_of_whole? (whole : l.whole? = some t) : l.tokens = [t] := by
  unfold whole? at whole
  split at whole
  · next hruns htail => cases whole; rw [tokens, hruns]; rfl
  · cases whole

theorem mem_tokens_of_whole? (whole : l.whole? = some t) : t ∈ l.tokens := by
  rw [tokens_of_whole? whole]
  exact List.mem_cons_self

theorem map_fst_of_forall₂_zip {tokens : List Token} {texts : List Text}
    {placed : List (Token × Json)} {p : Token × Text → Token × Json → Prop}
    (hlength : texts.length = tokens.length)
    (h : List.Forall₂ (fun pair c => c.1 = pair.1 ∧ p pair c) (tokens.zip texts) placed) :
    placed.map Prod.fst = tokens := by
  have hfst : (tokens.zip texts).map Prod.fst = placed.map Prod.fst := by
    rw [← List.forall₂_eq_eq_eq, List.forall₂_map_left_iff, List.forall₂_map_right_iff]
    exact h.imp fun _ _ hc => hc.1.symm
  rw [← hfst, List.map_fst_zip (Nat.le_of_eq hlength.symm)]

variable [Engine]

/-- **A line gives no value, or that of its one token, or those that the pieces of a text stand
for.** -/
theorem values_cases (h : l.values produced = .ok placed) :
    ((l.tokens = [] ∨ produced = none) ∧ placed = []) ∨
      (∃ t r v, l.whole? = some t ∧ produced = some r ∧ t.recoverValue r = .ok v ∧
        placed = [(t, v)]) ∨
      (l.whole? = none ∧ l.Accepted ∧ ∃ s texts, producedText? produced = some s ∧
        l.capture? s = some texts ∧
        List.Forall₂ (fun pair c => c.1 = pair.1 ∧ pair.1.recoverText pair.2 = .ok c.2)
          (l.tokens.zip texts) placed) := by
  unfold values at h
  cases hruns : l.runs with
  | nil =>
      rw [hruns] at h
      cases h
      exact .inl ⟨.inl (by rw [tokens, hruns]; rfl), rfl⟩
  | cons run runs =>
      rw [hruns] at h
      cases hwhole : l.whole? with
      | some t =>
          rw [hwhole] at h
          cases produced with
          | none => cases h; exact .inl ⟨.inr rfl, rfl⟩
          | some r =>
              simp only [mapM_eq_ok_iff, Option.toList_some, List.forall₂_cons_left_iff,
                List.forall₂_nil_left_iff, withValue_eq_ok_iff] at h
              obtain ⟨⟨t', v⟩, _, ⟨rfl, hv⟩, rfl, rfl⟩ := h
              exact .inr (.inl ⟨t', r, v, rfl, rfl, hv, rfl⟩)
      | none =>
          rw [hwhole] at h
          obtain ⟨texts, hcaptures, hvalues⟩ := bind_eq_ok_iff.1 h
          obtain ⟨accepted, s, hs, captured⟩ := captures_eq_ok_iff.1 hcaptures
          refine .inr (.inr ⟨rfl, fun _ _ => accepted, s, texts, hs, captured, ?_⟩)
          exact (mapM_eq_ok_iff.1 hvalues).imp fun _ _ => withValue_eq_ok_iff.1

/-- A whole token gives its value. -/
theorem values_whole {r : Json} (whole : l.whole? = some t) (hv : t.recoverValue r = .ok v) :
    l.values (some r) = .ok [(t, v)] := by
  unfold values
  cases hruns : l.runs with
  | nil =>
      have hnil := tokens_of_whole? whole
      rw [tokens, hruns] at hnil
      cases hnil
  | cons run runs =>
      dsimp only
      rw [whole]
      exact mapM_eq_ok_iff.2 (.cons (withValue_eq_ok_iff.2 ⟨rfl, hv⟩) .nil)

/-- A text gives the values that its pieces stand for. -/
theorem values_text {s : Text} {texts : List Text} (notWhole : l.whole? = none)
    (accepted : l.Accepted) (hs : producedText? produced = some s)
    (captured : l.capture? s = some texts)
    (h : List.Forall₂ (fun pair c => c.1 = pair.1 ∧ pair.1.recoverText pair.2 = .ok c.2)
      (l.tokens.zip texts) placed) : l.values produced = .ok placed := by
  unfold values
  cases hruns : l.runs with
  | nil =>
      rw [tokens, hruns] at h
      cases h
      rfl
  | cons run runs =>
      have htokens : l.tokens ≠ [] := by
        rw [tokens, hruns]
        exact List.cons_ne_nil _ _
      have hcaptures : l.captures produced = .ok texts :=
        captures_eq_ok_iff.2 ⟨accepted htokens notWhole, s, hs, captured⟩
      dsimp only
      rw [notWhole]
      exact bind_eq_ok_iff.2
        ⟨texts, hcaptures, mapM_eq_ok_iff.2 (h.imp fun _ _ => withValue_eq_ok_iff.2)⟩

/-- **Each value belongs to a token of the line, and there is one for every token unless nothing is
at the place of the line.** -/
theorem map_fst_values (h : l.values produced = .ok placed) :
    placed.map Prod.fst = l.tokens ∨ produced = none ∧ placed = [] := by
  rcases values_cases h with ⟨hnone, rfl⟩ | ⟨t, r, v, whole, -, -, rfl⟩ |
    ⟨-, -, s, texts, -, captured, hplaced⟩
  · exact hnone.imp (fun hnil => hnil.symm) fun hnone => ⟨hnone, rfl⟩
  · exact .inl (tokens_of_whole? whole).symm
  · refine .inl (map_fst_of_forall₂_zip ?_ hplaced)
    rw [(weave_of_capture? captured).1, length_literals]

/-- With nothing at the place of the line there are no values. -/
theorem eq_nil_of_values_none (h : l.values none = .ok placed) : placed = [] := by
  rcases values_cases h with ⟨-, hnil⟩ | ⟨_, _, _, _, hnone, _⟩ | ⟨_, _, _, _, hnone, _⟩
  · exact hnil
  · cases hnone
  · cases hnone

theorem mem_tokens_of_values (h : l.values produced = .ok placed) {c : Token × Json}
    (hc : c ∈ placed) : c.1 ∈ l.tokens := by
  rcases map_fst_values h with htokens | ⟨-, rfl⟩
  · rw [← htokens]
    exact List.mem_map_of_mem hc
  · cases hc

/-- The values of a line with well-formed defaults are well-formed. -/
theorem wellFormed_values (wf : ∀ t ∈ l.tokens, ∀ d, t.fallback = some d → d.WellFormed)
    (hproduced : ∀ r, produced = some r → r.WellFormed) (h : l.values produced = .ok placed) :
    ∀ c ∈ placed, c.2.WellFormed := by
  intro c hc
  have hdefault := wf c.1 (mem_tokens_of_values h hc)
  rcases values_cases h with ⟨-, rfl⟩ | ⟨t, r, v, -, rfl, hv, rfl⟩ |
    ⟨-, -, s, texts, -, -, hplaced⟩
  · cases hc
  · cases List.mem_singleton.1 hc
    exact Token.wellFormed_of_recoverValue (hproduced r rfl) hdefault hv
  · obtain ⟨pair, -, htoken, hv⟩ := exists_left_of_forall₂ hplaced hc
    rw [← htoken] at hv
    exact Token.wellFormed_of_recoverText hdefault hv

end Line

/-- The data of a string is the gathering of the values of its line. -/
theorem recoverString_eq_ok_iff [Engine] {d : Delimiters} {source : String} {produced : Option Json}
    {fragment : Json} :
    recoverString d source produced = .ok fragment ↔
      ∃ l placed, Line.ofText d source.toList = .ok l ∧ l.values produced = .ok placed ∧
        (∀ c ∈ placed, c.1.Writable) ∧ fragment = gather placed := by
  rw [recoverString, bind_eq_ok_iff]
  simp only [Line.recover_eq_ok_iff, exists_and_left]

end Stencil
