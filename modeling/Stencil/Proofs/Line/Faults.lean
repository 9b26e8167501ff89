import Stencil.Proofs.Line.Values

/-!
# What a line can fail with

Taking a string apart fails only with a default that cannot be read
(`Line.failsWith_ofText`).  Filling a line that was read fails only with a missing
variable, with a value that cannot be cast or with a path that cannot be read
(`Line.failsWith_fill`), and it is the first token without a value that decides
(`Line.fill_eq_error_iff`).

Recovering from a line that was read can fail for three kinds of reasons.  A value
that was found may be one that cannot be cast, or the path of its token may be one
that cannot be read or written (`Fault.OfData`).  Or there is no value to be found,
because the line, with text around its tokens, cannot have become what stands in
its place (`Line.Mismatches`).  Or nothing is looked for, because the engine refuses
the pattern of the line (`Line.Refused`).  The last two faults are mismatches; the
first names a token, the other the string and the reason (`Line.failsWith_recover`).
-/

set_option autoImplicit false

namespace Stencil

/-- The faults of a value that is put in or found: it cannot be cast, or its path cannot be read or
written. -/
inductive Fault.OfData : Fault → Prop where
  | uncastable (cause : CastFault) : OfData (.uncastable cause)
  | badPath (path : Text) (cause : PathFault) : OfData (.badPath path cause)

/-- The faults of a string that is taken apart: a default cannot be read. -/
inductive Fault.OfReading : Fault → Prop where
  | badDefault (expression : Text) : OfReading (.badDefault expression)

namespace Token

variable {t : Token}

theorem failsWith_read? (d : Delimiters) (body : Text) :
    FailsWith Fault.OfReading (read? d body) := by
  unfold read?
  split
  · exact failsWith_ok _
  · dsimp only
    split
    · split <;> exact failsWith_ok _
    · split
      · exact failsWith_ok _
      · split
        · exact failsWith_error (.badDefault _)
        · exact failsWith_ok _

theorem failsWith_readPath : FailsWith Fault.OfData t.readPath := by
  unfold readPath
  split
  · next cause _ => exact failsWith_error (.badPath t.path cause)
  · next path _ => exact failsWith_ok path

theorem failsWith_applyCast (v : Json) : FailsWith Fault.OfData (t.applyCast v) := by
  unfold applyCast
  split
  · next cause _ => exact failsWith_error (.uncastable cause)
  · next w _ => exact failsWith_ok w

/-- A token has no value because its variable is missing, because the value cannot be cast or
because the path cannot be read. -/
theorem failsWith_resolve (data : Json) :
    FailsWith (fun fault => fault.OfData ∨ fault = .missing t.expression) (t.resolve data) := by
  apply FailsWith.bind
  · intro fault h
    exact .inl (failsWith_readPath fault h)
  · intro path _
    split
    · intro fault h
      exact .inl (failsWith_applyCast _ fault h)
    · exact failsWith_error (.inr rfl)

theorem failsWith_recoverValue (v : Json) : FailsWith Fault.OfData (t.recoverValue v) := by
  unfold recoverValue
  split
  · split
    · exact failsWith_ok _
    · exact failsWith_applyCast v
  · exact failsWith_applyCast v

theorem failsWith_recoverText (s : Text) : FailsWith Fault.OfData (t.recoverText s) := by
  unfold recoverText
  split
  · split
    · exact failsWith_ok _
    · exact failsWith_applyCast _
  · exact failsWith_applyCast _

theorem failsWith_place (v fragment : Json) : FailsWith Fault.OfData (t.place v fragment) := by
  apply failsWith_readPath.bind
  intro path _
  dsimp only
  split
  · exact failsWith_error (.badPath t.path .indexTooLarge)
  · exact failsWith_ok _

end Token

namespace Line

/-- **A string that is taken apart fails only with a default that cannot be read.** -/
theorem failsWith_ofText (d : Delimiters) (s : Text) : FailsWith Fault.OfReading (ofText d s) := by
  fun_induction ofText d s with
  | case1 s hopen => exact failsWith_ok _
  | case2 s literal body hopen fault htoken =>
      exact failsWith_error (Token.failsWith_read? d body fault htoken)
  | case3 s literal body hopen htoken ih => exact ih.map _
  | case4 s literal body hopen token rest htoken ih => exact ih.map _

/-! ## Filling -/

variable {l : Line} {data : Json} {fault : Fault}

theorem fillRuns_eq_error_iff {tail : Text} {runs : List (Text × Token)} :
    fillRuns data tail runs = .error fault ↔
      FirstFault (fun _ => False) (fun t => t.resolve data) (runs.map Prod.snd) fault := by
  induction runs with
  | nil => exact ⟨nofun, fun h => (not_firstFault_nil h).elim⟩
  | cons run runs ih =>
      obtain ⟨literal, t⟩ := run
      rw [fillRuns, List.map_cons, firstFault_cons_iff, failsWith_false_iff, ← ih,
        seq_eq_error_iff, not_false_iff, and_true]

/-- **A line cannot be filled exactly if one of its tokens has no value, and the first of these
decides.** -/
theorem fill_eq_error_iff :
    l.fill data = .error fault ↔
      FirstFault (fun _ => False) (fun t => t.resolve data) l.tokens fault := by
  unfold fill
  cases whole : l.whole? with
  | some t =>
      rw [tokens_of_whole? whole, firstFault_cons_iff]
      simp [not_firstFault_nil]
  | none =>
      dsimp only
      rw [bind_eq_error_iff, fillRuns_eq_error_iff]
      refine or_iff_left ?_
      rintro ⟨text, -, hpure⟩
      cases hpure

/-- Filling a line fails only with a missing variable, a value that cannot be cast or a path that
cannot be read. -/
theorem failsWith_fill (l : Line) (data : Json) :
    FailsWith (fun fault => fault.OfData ∨ fault.isMissing = true) (l.fill data) := by
  intro fault h
  obtain ⟨-, t, -, -, -, ht, -⟩ := fill_eq_error_iff.1 h
  rcases Token.failsWith_resolve data fault ht with ofData | rfl
  · exact .inl ofData
  · exact .inr rfl

end Line

/-- A string fails to become a value because it cannot be taken apart or because its line cannot be
filled. -/
theorem fault_of_fillString {o : Options} {data : Json} {s : String} {fault : Fault}
    (h : fillString o data s = .error fault) :
    Line.ofText o.delimiters s.toList = .error fault ∨
      ∃ l, Line.ofText o.delimiters s.toList = .ok l ∧ l.fill data = .error fault := by
  rcases bind_eq_error_iff.1 h with hline | ⟨l, hline, hfill⟩
  · exact .inl hline
  · refine .inr ⟨l, hline, ?_⟩
    split at hfill
    · next expression hmissing =>
      split at hfill
      · cases hfill
      · cases hfill
        exact hmissing
    · exact hfill

namespace Line

/-! ## Recovering -/

/-- The line has text around its tokens and cannot have become what stands in its place. -/
structure Mismatches (l : Line) (produced : Option Json) : Prop where
  tokens : l.tokens ≠ []
  notWhole : l.whole? = none
  uncaptured : (producedText? produced).bind l.capture? = none

theorem failsWith_placeTexts (pairs : List (Token × Text)) (fragment : Json) :
    FailsWith Fault.OfData (placeTexts fragment pairs) := by
  induction pairs generalizing fragment with
  | nil => exact failsWith_ok fragment
  | cons pair pairs ih =>
      obtain ⟨t, s⟩ := pair
      apply (Token.failsWith_recoverText s).bind
      intro v _
      apply (Token.failsWith_place v fragment).bind
      intro fragment' _
      exact ih fragment'

section Recovering

variable [Engine] {l : Line}

/-- The line has text around its tokens, and the engine refuses its pattern. -/
structure Refused (l : Line) (reason : Text) : Prop where
  tokens : l.tokens ≠ []
  notWhole : l.whole? = none
  refusal : Engine.refusal? l.pattern = some reason

theorem not_accepted_iff : ¬ l.Accepted ↔ ∃ reason, l.Refused reason := by
  refine ⟨fun h => ?_, fun ⟨reason, refused⟩ accepted => ?_⟩
  · simp only [Accepted, Classical.not_imp] at h
    obtain ⟨htokens, notWhole, hrefusal⟩ := h
    obtain ⟨reason, hreason⟩ := Option.ne_none_iff_exists'.1 hrefusal
    exact ⟨reason, htokens, notWhole, hreason⟩
  · cases (accepted refused.tokens refused.notWhole).symm.trans refused.refusal

/-- Where no texts are captured, the fault names the first token, or the string and why the engine
refuses its pattern. -/
theorem failsWith_captures (l : Line) (produced : Option Json) :
    FailsWith (fun fault =>
      (producedText? produced).bind l.capture? = none ∧ fault = .mismatch l.firstExpression ∨
        ∃ reason, Engine.refusal? l.pattern = some reason ∧ fault = l.refusedFault reason)
      (l.captures produced) := by
  unfold captures
  split
  · next absent => exact failsWith_error (.inl ⟨by rw [absent, Option.bind_none], rfl⟩)
  · next s hs =>
    split
    · next reason refusal => exact failsWith_error (.inr ⟨reason, refusal, rfl⟩)
    · split
      · next uncaptured =>
        exact failsWith_error (.inl ⟨by rw [hs, Option.bind_some, uncaptured], rfl⟩)
      · exact failsWith_ok _

/-- **Recovering from a line fails with a mismatch only where the line cannot have become what
stands in its place or its pattern is refused**, and else only with a value that cannot be cast or a
path that cannot be used. -/
theorem failsWith_recover (l : Line) (produced : Option Json) :
    FailsWith (fun fault => fault.OfData ∨
      l.Mismatches produced ∧ fault = .mismatch l.firstExpression ∨
        ∃ reason, l.Refused reason ∧ fault = l.refusedFault reason) (l.recover produced) := by
  unfold recover
  split
  · exact failsWith_ok _
  · next hruns =>
    have htokens : l.tokens ≠ [] := by
      rw [tokens, Ne, List.map_eq_nil_iff]
      exact hruns
    split
    · next t _ =>
      split
      · exact failsWith_ok _
      · next v =>
        have hplace : FailsWith Fault.OfData
            (t.recoverValue v >>= fun w => t.place w (.obj [])) := by
          apply (Token.failsWith_recoverValue v).bind
          intro w _
          exact Token.failsWith_place w _
        exact fun fault h => .inl (hplace fault h)
    · next notWhole =>
      apply FailsWith.bind
      · intro fault h
        rcases failsWith_captures l produced fault h with ⟨uncaptured, rfl⟩ | ⟨reason, refusal, rfl⟩
        · exact .inr (.inl ⟨⟨htokens, notWhole, uncaptured⟩, rfl⟩)
        · exact .inr (.inr ⟨reason, ⟨htokens, notWhole, refusal⟩, rfl⟩)
      · exact fun texts _ fault h => .inl (failsWith_placeTexts _ _ fault h)

/-- **A line whose pattern is refused recovers nothing from a text**, and the fault says why. -/
theorem Refused.recover_eq_error {reason : Text} (refused : l.Refused reason)
    {produced : Option Json} {s : Text} (hs : producedText? produced = some s) :
    l.recover produced = .error (l.refusedFault reason) := by
  apply recover_of_captures_eq_error refused.tokens refused.notWhole
  unfold captures
  rw [hs]
  dsimp only
  rw [refused.refusal]

/-- Whatever stands in its place, nothing is recovered by a line whose pattern is refused. -/
theorem Refused.exists_fault {reason : Text} (refused : l.Refused reason)
    (produced : Option Json) : ∃ fault, l.recover produced = .error fault := by
  cases hs : producedText? produced with
  | some s => exact ⟨_, refused.recover_eq_error hs⟩
  | none =>
      refine ⟨.mismatch l.firstExpression, ?_⟩
      apply recover_of_captures_eq_error refused.tokens refused.notWhole
      rw [captures, hs]

end Recovering

end Line

end Stencil
