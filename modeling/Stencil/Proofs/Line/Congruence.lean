import Stencil.Proofs.Line.Faults
import Stencil.Proofs.Line.Gather
import Stencil.Proofs.Line.Recover
import Stencil.Proofs.Token.Congruence

/-!
# Lines and values that are the same

A line writes the value of a token if there is text around the token, or if the token
is the whole line and casts to a string (`Line.Renders`).  These are the places where
the order of members can show.

Where there is no text around the tokens of a line, or a fixed text beside it, values
that are the same give back values that are kin.  If the line writes no value, or a fixed
text stands beside it, they give back values that are the same
(`Line.exists_values_of_same`).  Gathered they are data that is kin or the same
(`kin_gather`, `same_gather`).

Data that is kin lets a line become a value or fail alike (`Line.fareAlike_fill`).  With
data that is the same the values are the same if all that is written has a fixed text
(`Line.agree_fill`).
-/

set_option autoImplicit false

namespace Stencil

variable {data data' : Json} {placed placed' : List (Token × Json)}

/-- The same tokens, with values that are related. -/
def PlacedAlike (r : Json → Json → Prop) (placed placed' : List (Token × Json)) : Prop :=
  List.Forall₂ (fun c c' => c.1 = c'.1 ∧ r c.2 c'.2) placed placed'

namespace PlacedAlike

variable {r : Json → Json → Prop}

theorem refl (h : ∀ c ∈ placed, r c.2 c.2) : PlacedAlike r placed placed :=
  List.forall₂_same.2 fun c hc => ⟨rfl, h c hc⟩

theorem writable (h : PlacedAlike r placed placed') (writable : ∀ c ∈ placed, c.1.Writable) :
    ∀ c ∈ placed', c.1.Writable := by
  intro c' hc'
  obtain ⟨c, hc, htoken, -⟩ := exists_left_of_forall₂ h hc'
  exact htoken ▸ writable c hc

theorem pieces (h : PlacedAlike r placed placed') (writable : ∀ c ∈ placed, c.1.Writable)
    (hr : ∀ (t : Token) (v w : Json), t.Writable → r v w → r (t.piece v) (t.piece w)) :
    List.Forall₂ r (placed.map fun c => c.1.piece c.2) (placed'.map fun c => c.1.piece c.2) := by
  induction h with
  | nil => exact .nil
  | @cons c c' _ _ hc _ ih =>
      obtain ⟨here, writable⟩ := List.forall_mem_cons.1 writable
      refine .cons ?_ (ih writable)
      dsimp only
      rw [← hc.1]
      exact hr c.1 c.2 c'.2 here hc.2

end PlacedAlike

/-- **Values that are the same are gathered to data that is the same.** -/
theorem same_gather (h : PlacedAlike Json.Same placed placed')
    (writable : ∀ c ∈ placed, c.1.Writable) : (gather placed).Same (gather placed') :=
  (Json.Same.refl (by simp)).foldl_merge
    (h.pieces writable fun _ _ _ writable hvw => writable.same_piece hvw)

/-- Values that are kin are gathered to data that is kin. -/
theorem kin_gather (h : PlacedAlike Json.Kin placed placed')
    (writable : ∀ c ∈ placed, c.1.Writable) : (gather placed).Kin (gather placed') :=
  (Json.Same.refl (by simp)).kin.foldl_merge
    (h.pieces writable fun _ _ _ writable hvw => writable.kin_piece hvw)

namespace Line

variable {l : Line} {t : Token} {produced produced' : Option Json}

/-- The line writes the value of the token: there is text around the token, or it casts to a
string. -/
def Renders (l : Line) (t : Token) : Prop :=
  t ∈ l.tokens ∧ (l.whole? = none ∨ t.cast = .string)

/-- The line writes the value of a token. -/
def Writes (l : Line) : Prop :=
  ∃ t, l.Renders t

/-- The line has tokens with text around them. -/
def Embeds (l : Line) : Prop :=
  ∃ t ∈ l.tokens, l.whole? = none

theorem Embeds.writes (h : l.Embeds) : l.Writes := by
  obtain ⟨t, ht, notWhole⟩ := h
  exact ⟨t, ht, .inl notWhole⟩

/-- All that the line writes from the data has a fixed text. -/
def FixedIn (l : Line) (data : Json) : Prop :=
  ∀ t, l.Renders t → t.FixedIn data

/-! ## Recovering -/

/-- A fixed text is that of whatever is the same. -/
theorem producedText?_eq {r r' : Json} (fixed : r.FixedText) (h : r.Same r') :
    producedText? (some r) = producedText? (some r') := by
  rw [producedText?, producedText?, h.isNull_eq, fixed.inline_eq h.same]

section Recovering

variable [Engine]

theorem values_of_tokens_nil (h : l.tokens = []) : l.values produced = .ok [] := by
  rw [values, List.map_eq_nil_iff.1 h]

/-- **What is given back beside values that are the same is kin**, if there is no text around the
tokens or the values have a fixed text.  It is the same if the line writes no value or the values
have a fixed text. -/
theorem exists_values_of_same (wf : ∀ t ∈ l.tokens, ∀ d, t.fallback = some d → d.WellFormed)
    (h : Json.Both Json.Same produced produced')
    (fixed : l.Embeds → ∀ r, produced = some r → r.FixedText)
    (hvalues : l.values produced = .ok placed) :
    ∃ placed', l.values produced' = .ok placed' ∧ PlacedAlike Json.Kin placed placed' ∧
      ((l.Writes → ∀ r, produced = some r → r.FixedText) →
        PlacedAlike Json.Same placed placed') := by
  rcases Json.both_iff.1 h with ⟨rfl, rfl⟩ | ⟨r, r', rfl, rfl, hrr⟩
  · cases eq_nil_of_values_none hvalues
    exact ⟨[], hvalues, .nil, fun _ => .nil⟩
  · rcases values_cases hvalues with ⟨hnil | hnone, rfl⟩ | ⟨t, r, v, whole, ⟨⟩, hv, rfl⟩ |
      ⟨notWhole, accepted, s, texts, hs, captured, hplaced⟩
    · exact ⟨[], values_of_tokens_nil hnil, .nil, fun _ => .nil⟩
    · cases hnone
    · have ht := mem_tokens_of_whole? whole
      obtain ⟨v', hv', kin, same⟩ := (Token.agree_recoverValue (wf t ht) hrr).exists_ok hv
      refine ⟨[(t, v')], values_whole whole hv', .cons ⟨rfl, kin⟩ .nil, fun beside => ?_⟩
      refine .cons ⟨rfl, same fun hcast => ?_⟩ .nil
      exact (beside ⟨t, ht, .inr hcast⟩ r rfl).inline_eq hrr.same
    · cases htokens : l.tokens with
      | nil =>
          rw [htokens] at hplaced
          cases hplaced
          exact ⟨[], values_of_tokens_nil htokens, .nil, fun _ => .nil⟩
      | cons t ts =>
          have ht : t ∈ l.tokens := by
            rw [htokens]
            exact List.mem_cons_self
          rw [producedText?_eq (fixed ⟨t, ht, notWhole⟩ r rfl) hrr] at hs
          have hvalues' := values_text notWhole accepted hs captured hplaced
          have all : ∀ c ∈ placed, c.2.WellFormed := by
            refine wellFormed_values wf (fun x hx => ?_) hvalues'
            cases hx
            exact hrr.right
          exact ⟨placed, hvalues', .refl fun c hc => (Json.Same.refl (all c hc)).kin,
            fun _ => .refl fun c hc => .refl (all c hc)⟩

end Recovering

/-! ## Filling -/

theorem agree_fillRuns {tail : Text} {runs : List (Text × Token)}
    (wf : ∀ run ∈ runs, ∀ d, run.2.fallback = some d → d.WellFormed) (h : data.Same data') :
    Agree (fun s s' => (∀ run ∈ runs, run.2.FixedIn data) → s = s') Fault.Akin
      (fillRuns data tail runs) (fillRuns data' tail runs) := by
  induction runs with
  | nil => exact .ok fun _ => rfl
  | cons run runs ih =>
      obtain ⟨hrun, hruns⟩ := List.forall_mem_cons.1 wf
      rw [fillRuns, fillRuns]
      refine (Token.agree_resolve hrun h).bind fun v v' _ _ hv => ?_
      refine (ih hruns).bind fun s s' _ _ hs => .ok fun fixed => ?_
      obtain ⟨fixedRun, fixedRuns⟩ := List.forall_mem_cons.1 fixed
      rw [hv.1 fixedRun, hs fixedRuns]

/-- **A line becomes a value in both of two data that are the same, or fails in both**, and the
values are the same if all that the line writes has a fixed text. -/
theorem agree_fill (wf : ∀ t ∈ l.tokens, ∀ d, t.fallback = some d → d.WellFormed)
    (h : data.Same data') :
    Agree (fun a b => l.FixedIn data → a.Same b) Fault.Akin (l.fill data) (l.fill data') := by
  cases hwhole : l.whole? with
  | some t =>
      have ht := mem_tokens_of_whole? hwhole
      rw [fill_whole hwhole, fill_whole hwhole]
      refine (Token.agree_resolve (wf t ht) h).imp fun a b _ _ hab fixed => ?_
      exact hab.2 fun hcast => fixed t ⟨ht, .inr hcast⟩
  | none =>
      unfold fill
      rw [hwhole]
      have wfRuns : ∀ run ∈ l.runs, ∀ d, run.2.fallback = some d → d.WellFormed :=
        fun run hrun => wf run.2 (List.mem_map_of_mem hrun)
      refine (agree_fillRuns wfRuns h).bind fun s s' _ _ hs => .ok fun fixed => ?_
      rw [hs fun run hrun => fixed run.2 ⟨List.mem_map_of_mem hrun, .inl hwhole⟩]
      exact .refl trivial

/-- **A line fares alike with data that is kin.** -/
theorem fareAlike_fill (wf : ∀ t ∈ l.tokens, ∀ d, t.fallback = some d → d.WellFormed)
    (h : data.Kin data') : FareAlike (l.fill data) (l.fill data') :=
  Agree.of_firstFault (fun _ => fill_eq_error_iff) (fun _ => fill_eq_error_iff)
    fun t ht => Token.fareAlike_resolve (wf t ht) h

/-- A line that writes a value becomes a string. -/
theorem exists_str_of_renders (h : l.Renders t) {r : Json} (hr : l.fill data = .ok r) :
    ∃ s, r = .str s := by
  cases hwhole : l.whole? with
  | none =>
      obtain ⟨values, -, rfl⟩ := (fill_eq_ok_iff hwhole).1 hr
      exact ⟨_, rfl⟩
  | some t' =>
      obtain ⟨ht, notWhole | hcast⟩ := h
      · cases notWhole.symm.trans hwhole
      · rw [tokens_of_whole? hwhole] at ht
        cases List.mem_singleton.1 ht
        rw [fill_whole hwhole] at hr
        obtain ⟨v, -, hv, -⟩ := Token.settles_of_resolve hr
        rw [Token.applyCast_string hcast] at hv
        cases hv
        exact ⟨_, rfl⟩

end Line

end Stencil
