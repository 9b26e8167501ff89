import Stencil.Proofs.Line.Faults
import Stencil.Proofs.Template.Fill

/-!
# Keeping strings with a missing variable

Filling is strict or lenient.  Strict filling fails with a missing variable like with
any other fault.  Lenient filling keeps the string with the missing variable as it was
written, the whole string, and goes on behind it.  There is no other difference.

So both kinds are told by what strict filling makes of each string.  A template is
filled leniently if no string has another fault than a missing variable, and then each
string becomes what it becomes strictly, or stays (`fill_lenient_of_missing`).  If
there is another fault, the first one decides (`fill_lenient_eq_error_iff`); strictly
it is the first fault of any kind.

Within a string it is always the first token without a value that decides, whatever is
wrong with those behind it.  So a string stays exactly if that token lacks its variable,
and it is this token that the fault of strict filling names (`exists_firstUnresolved`).
-/

set_option autoImplicit false

namespace Stencil

/-- The same options, under which a string with a missing variable stays as it is. -/
def Options.lenient (o : Options) : Options :=
  { o with allowMissing := true }

/-- The token is the first of the line that has no value. -/
def Line.FirstUnresolved (l : Line) (data : Json) (token : Token) : Prop :=
  ∃ before after, l.tokens = before ++ token :: after ∧
    (∀ t ∈ before, ∃ v, t.resolve data = .ok v) ∧ ∀ v, token.resolve data ≠ .ok v

variable {o : Options} {data : Json} {s : String} {fault : Fault}

/-! ## One string -/

/-- Strictly and leniently a string becomes the same, except that a missing variable keeps it. -/
theorem fillString_lenient_eq (o : Options) (data : Json) (s : String) :
    fillString o.lenient data s =
      match fillString o.strict data s with
      | .error (.missing _) => .ok (.str s)
      | answer => answer := by
  unfold fillString
  simp only [Options.lenient, Options.strict]
  cases hline : Line.ofText o.delimiters s.toList with
  | error fault =>
      cases Line.failsWith_ofText _ _ fault hline
      rfl
  | ok l =>
      simp only [ok_bind]
      cases l.fill data with
      | ok v => rfl
      | error fault => cases fault <;> rfl

theorem fillString_lenient_eq_error_iff :
    fillString o.lenient data s = .error fault ↔
      fillString o.strict data s = .error fault ∧ ¬ fault.isMissing = true := by
  rw [fillString_lenient_eq]
  cases fillString o.strict data s with
  | ok v => simp
  | error fault' => cases fault' <;> simp [Fault.isMissing] <;> rintro rfl <;> simp

/-- **A missing variable is that of the first token without a value.** -/
theorem exists_firstUnresolved {expression : Text}
    (h : fillString o.strict data s = .error (.missing expression)) :
    ∃ l token, Line.ofText o.delimiters s.toList = .ok l ∧ l.FirstUnresolved data token ∧
      token.expression = expression := by
  rcases fault_of_fillString h with hline | ⟨l, hline, hfill⟩
  · cases Line.failsWith_ofText _ _ _ hline
  · obtain ⟨before, token, after, htokens, hbefore, htoken, -⟩ := Line.fill_eq_error_iff.1 hfill
    refine ⟨l, token, hline, ⟨before, after, htokens, ?_, ?_⟩, ?_⟩
    · intro t ht
      exact failsWith_false_iff.1 (hbefore t ht)
    · intro v hv
      cases hv.symm.trans htoken
    · rcases Token.failsWith_resolve data _ htoken with ofData | heq
      · cases ofData
      · cases heq
        rfl

namespace Template

/-! ## The whole template -/

variable {t : Template}

/-- **Lenient filling fails with the first fault that is no missing variable.** -/
theorem fill_lenient_eq_error_iff :
    fill o.lenient data t = .error fault ↔
      FirstFault (fun fault => fault.isMissing = true) (fillString o.strict data) t.strings fault := by
  rw [fill_eq_error_iff]
  apply firstFault_congr
  intro s fault
  rw [not_false_iff, and_true, fillString_lenient_eq_error_iff]

/-- **Without another fault than missing variables a template is filled leniently**, and the strings
that strict filling fails for stay as they are. -/
theorem fill_lenient_of_missing
    (h : ∀ s ∈ t.strings,
      FailsWith (fun fault => fault.isMissing = true) (fillString o.strict data s)) :
    fill o.lenient data t =
      .ok (mapStrings (fun s => (fillString o.strict data s).toOption.getD (.str s)) t) := by
  apply fill_eq_mapStrings
  intro s hs
  have missing := h s hs
  rw [fillString_lenient_eq]
  cases hstrict : fillString o.strict data s with
  | ok v => rfl
  | error fault =>
      have hfault := missing fault hstrict
      cases fault <;> first | rfl | cases hfault

/-- What is filled strictly is filled leniently, and becomes the same. -/
theorem fill_lenient_of_strict {r : Json} (h : fill o.strict data t = .ok r) :
    fill o.lenient data t = .ok r := by
  have filled := (exists_fill_iff fun fault => fill_eq_error_iff).1 ⟨r, h⟩
  rw [fill_lenient_of_missing fun s hs fault hfault => (filled s hs fault hfault).elim, ← h]
  refine (fill_eq_mapStrings ?_).symm
  intro s hs
  obtain ⟨v, hv⟩ := failsWith_false_iff.1 (filled s hs)
  rw [hv]
  rfl

/-- **Leave to miss variables only turns strings with a missing variable into themselves.**  Lenient
filling fails exactly with the first fault of strict filling that is no missing variable, and never
with a missing variable; if there is none, each string becomes what it becomes strictly, or stays.
What is filled strictly becomes the same leniently.  Strict filling fails with the first fault of a
string, and a missing variable is that of the first token of the string without a value. -/
theorem fill_lenient (o : Options) (data : Json) (t : Template) :
    (∀ fault, fill o.lenient data t = .error fault ↔
        FirstFault (fun fault => fault.isMissing = true) (fillString o.strict data) t.strings
          fault) ∧
      (∀ fault, fill o.lenient data t = .error fault → fault.isMissing = false) ∧
      ((∀ s ∈ t.strings,
          FailsWith (fun fault => fault.isMissing = true) (fillString o.strict data s)) →
        fill o.lenient data t =
          .ok (mapStrings (fun s => (fillString o.strict data s).toOption.getD (.str s)) t)) ∧
      (∀ r, fill o.strict data t = .ok r → fill o.lenient data t = .ok r) ∧
      (∀ fault, fill o.strict data t = .error fault ↔
        FirstFault (fun _ => False) (fillString o.strict data) t.strings fault) ∧
      ∀ s expression, fillString o.strict data s = .error (.missing expression) →
        ∃ l token, Line.ofText o.delimiters s.toList = .ok l ∧ l.FirstUnresolved data token ∧
          token.expression = expression := by
  refine ⟨fun _ => fill_lenient_eq_error_iff, ?_, fill_lenient_of_missing,
    fun _ => fill_lenient_of_strict, fun _ => fill_eq_error_iff, fun _ _ => exists_firstUnresolved⟩
  intro fault h
  obtain ⟨-, -, -, -, -, -, notMissing⟩ := fill_lenient_eq_error_iff.1 h
  exact Bool.eq_false_iff.2 notMissing

end Template

end Stencil
