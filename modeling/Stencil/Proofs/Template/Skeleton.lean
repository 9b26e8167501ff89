import Stencil.Proofs.Line.Faults
import Stencil.Proofs.Template.Linear

/-!
# What a template became fits around its tokens

A tree that a template became can be cut along the literal texts of the template
again, at the place of every string.  Either the tokens of the string were replaced
by texts, and these make a cut, or the string was left as it was written, and then
the tokens themselves make one.  So if the engine takes the patterns of the strings,
recovering from what a template became never ends in a mismatch (`recover_of_fill`),
whatever delimiters, literal texts or line breaks the data holds.  It can still fail,
because a text can be cut in another place than the one where its parts were put
together, and what is then found need not be castable.

If the engine refuses the pattern of a string, nothing is recovered.  The fault is
then a mismatch, although the text fits: a string of many tokens is filled without
any trouble, but its pattern takes more memory than the engine allows
(`recover_crowd`).
-/

set_option autoImplicit false

namespace Stencil

variable {o : Options} {data : Json}

namespace Line

variable {l : Line}

/-- A line is its literal texts, woven with its tokens as they were written. -/
theorem text_eq_weaving (l : Line) : l.text = l.weaving (l.tokens.map Token.written) := by
  obtain ⟨runs, tail⟩ := l
  induction runs with
  | nil => rfl
  | cons run runs ih =>
      have hrest : runs.flatMap (fun run => run.1 ++ run.2.written) ++ tail =
          weave tail (runs.map Prod.fst) ((runs.map Prod.snd).map Token.written) := ih
      simp only [text, weaving, literals, tokens, List.map_cons, List.flatMap_cons, weave,
        List.append_assoc, ← hrest]

/-- A weaving of the line is no mismatch. -/
theorem not_mismatches_weaving {texts : List Text} (hlength : texts.length = l.literals.length) :
    ¬ l.Mismatches (some (.str (String.ofList (l.weaving texts)))) := by
  intro mismatches
  obtain ⟨texts', captured⟩ := exists_capture? hlength
  have uncaptured := mismatches.uncaptured
  simp only [producedText?, Json.isNull, Json.inline, String.toList_ofList] at uncaptured
  cases captured.symm.trans uncaptured

theorem not_mismatches_of_fill {r : Json} (h : l.fill data = .ok r) :
    ¬ l.Mismatches (some r) := by
  intro mismatches
  obtain ⟨values, hvalues, rfl⟩ := (fill_eq_ok_iff mismatches.notWhole).1 h
  refine not_mismatches_weaving ?_ mismatches
  rw [List.length_map, ← hvalues.length_eq, length_literals]

theorem not_mismatches_text : ¬ l.Mismatches (some (.str (String.ofList l.text))) := by
  rw [text_eq_weaving]
  apply not_mismatches_weaving
  rw [List.length_map, length_literals]

end Line

/-- The strings of a template that was filled denote lines. -/
theorem Template.exists_lines_of_fill {t : Template} {result : Json}
    (wf : t.WellFormed) (h : fill o data t = .ok result) :
    ∃ lines, t.lines o.delimiters = .ok lines := by
  have each : ∀ leaf ∈ leaves t (some result),
      ∃ l, Line.ofText o.delimiters leaf.1.toList = .ok l := by
    intro leaf hleaf
    obtain ⟨v, -, hstring⟩ := fillString_of_mem_leaves wf h hleaf
    obtain ⟨l, hline, -⟩ := bind_eq_ok_iff.1 hstring
    exact ⟨l, hline⟩
  obtain ⟨lines, hlines⟩ := exists_forall₂ each
  exact ⟨lines, (lines_eq_ok_iff (some result)).2 hlines⟩

section Recovering

variable [Engine]

/-- Recovering from what a string became fails only with a value that cannot be cast, with a path
that cannot be used, or because the engine refuses the pattern of the string. -/
theorem failsWith_recoverString_of_fillString {s : String} {v : Json}
    (h : fillString o data s = .ok v) :
    FailsWith (fun fault => fault.OfData ∨ ∃ l reason, Line.ofText o.delimiters s.toList = .ok l ∧
      l.Refused reason ∧ fault = l.refusedFault reason) (recoverString o.delimiters s (some v)) := by
  obtain ⟨l, hline, hfill⟩ := bind_eq_ok_iff.1 h
  have fits : ¬ l.Mismatches (some v) := by
    split at hfill
    · split at hfill
      · -- the string was left as it was written
        cases hfill
        have htext := Line.text_of_ofText hline
        rw [← String.ofList_toList (s := s), ← htext]
        exact Line.not_mismatches_text
      · cases hfill
    · exact Line.not_mismatches_of_fill hfill
  intro fault hfault
  rw [recoverString, hline, ok_bind] at hfault
  rcases Line.failsWith_recover l (some v) fault hfault with
    ofData | ⟨mismatches, -⟩ | ⟨reason, refused, rfl⟩
  · exact .inl ofData
  · exact absurd mismatches fits
  · exact .inr ⟨l, reason, hline, refused, rfl⟩

namespace Template

variable {t : Template} {result : Json} {lines : List Line}

/-- Recovering from what a template became fails only with a value that cannot be cast, with a path
that cannot be used, or because the engine refuses the pattern of a string. -/
theorem failsWith_recover_of_fill (wf : t.WellFormed) (h : fill o data t = .ok result)
    (hlines : t.lines o.delimiters = .ok lines) :
    FailsWith (fun fault => fault.OfData ∨
        ∃ l ∈ lines, ∃ reason, l.Refused reason ∧ fault = l.refusedFault reason)
      (recover o.delimiters t result) := by
  apply FailsWith.foldlM
  intro leaf hleaf data'
  obtain ⟨v, hv, hfill⟩ := fillString_of_mem_leaves wf h hleaf
  obtain ⟨l, hl, hline⟩ := exists_right_of_forall₂ ((lines_eq_ok_iff (some result)).1 hlines) hleaf
  rw [learn, hv]
  apply FailsWith.bind
  · intro fault hfault
    rcases failsWith_recoverString_of_fillString hfill fault hfault with
      ofData | ⟨l', reason, hline', refused, rfl⟩
    · exact .inl ofData
    · cases hline.symm.trans hline'
      exact .inr ⟨l, hl, reason, refused, rfl⟩
  · intro fragment _
    exact failsWith_ok _

/-- From no tree data is recovered if the engine refuses the pattern of a string. -/
theorem exists_fault_of_refused (hlines : t.lines o.delimiters = .ok lines) {l : Line}
    (hl : l ∈ lines) {reason : Text} (refused : l.Refused reason) (v : Json) :
    ∃ fault, recover o.delimiters t v = .error fault := by
  cases hrecover : recover o.delimiters t v with
  | error fault => exact ⟨fault, rfl⟩
  | ok data' =>
      obtain ⟨leaf, hleaf, hline⟩ := exists_left_of_forall₂ ((lines_eq_ok_iff (some v)).1 hlines) hl
      obtain ⟨fragments, hfragments, -⟩ := foldlM_learn_eq_ok_iff.1 hrecover
      obtain ⟨fragment, -, hfragment⟩ := exists_right_of_forall₂ hfragments hleaf
      obtain ⟨fault, hfault⟩ := refused.exists_fault leaf.2
      rw [recoverString, hline, ok_bind, hfault] at hfragment
      cases hfragment

/-- **From what a template became data is recovered, or a value cannot be cast, or a path cannot be
used**, and nothing else goes wrong, if the engine takes the patterns of all strings. If it refuses
one of them, nothing is recovered; the fault can then also be a mismatch, which names a string and
why its pattern is refused. -/
theorem recover_of_fill (wf : t.WellFormed) (h : fill o data t = .ok result) :
    ∃ lines, t.lines o.delimiters = .ok lines ∧
      ((∀ l ∈ lines, l.Accepted) →
        (∃ data', recover o.delimiters t result = .ok data') ∨
          ∃ fault, recover o.delimiters t result = .error fault ∧ fault.OfData) ∧
      ((∃ l ∈ lines, ¬ l.Accepted) → ∃ fault, recover o.delimiters t result = .error fault) ∧
      ∀ fault, recover o.delimiters t result = .error fault → fault.OfData ∨
        ∃ l ∈ lines, ∃ reason, l.Refused reason ∧ fault = l.refusedFault reason := by
  obtain ⟨lines, hlines⟩ := exists_lines_of_fill wf h
  have fails := failsWith_recover_of_fill wf h hlines
  refine ⟨lines, hlines, fun accepted => ?_, ?_, fails⟩
  · cases hrecover : recover o.delimiters t result with
    | ok data' => exact .inl ⟨data', rfl⟩
    | error fault =>
        rcases fails fault hrecover with ofData | ⟨l, hl, reason, refused, -⟩
        · exact .inr ⟨fault, rfl, ofData⟩
        · exact absurd (accepted l hl) (Line.not_accepted_iff.2 ⟨reason, refused⟩)
  · rintro ⟨l, hl, refuses⟩
    obtain ⟨reason, refused⟩ := Line.not_accepted_iff.1 refuses
    exact exists_fault_of_refused hlines hl refused result

end Template

end Recovering

namespace Template

/-- Options under which a string with a missing variable stays as it is. -/
def lenient : Options :=
  ⟨angles.delimiters, true⟩

/-- A string whose text can be cut in two places, and one that stays as it was written, so that its
token stands where a number should be found. -/
def unfilled : Template :=
  .arr [.str "<a>/<b>", .str "n: <number:n>"]

/-- What it becomes. -/
def unfilledResult : Json :=
  .arr [.str "x/y/z", .str "n: <number:n>"]

theorem recover_of_fill_unfilled :
    fill lenient (.obj [("a", .str "x/y"), ("b", .str "z")]) unfilled = .ok unfilledResult ∧
      ((∃ data', recover lenient.delimiters unfilled unfilledResult = .ok data') ∨
        ∃ fault, recover lenient.delimiters unfilled unfilledResult = .error fault ∧
          fault.OfData) := by
  have filled : fill lenient (.obj [("a", .str "x/y"), ("b", .str "z")]) unfilled =
      .ok unfilledResult := by
    with_unfolding_all rfl
  have accepted : ∀ lines ∈ (unfilled.lines lenient.delimiters).toOption,
      ∀ l ∈ lines, l.Accepted := by
    decide +kernel
  obtain ⟨lines, hlines, taken, -⟩ :=
    recover_of_fill (by simp [unfilled, Json.WellFormed]) filled
  exact ⟨filled, taken (accepted lines (congrArg Except.toOption hlines))⟩

/-! A string of many tokens, whose pattern is refused. -/

/-- The token of the crowd. -/
def crowdToken : Token :=
  ⟨.asIs, ['a'], none, ['a'], "<a>".toList⟩

/-- A line of so many tokens, without any text between them. -/
def crowdLine (n : Nat) : Line :=
  ⟨List.replicate n ([], crowdToken), []⟩

/-- The string of the line. -/
def crowd (n : Nat) : Template :=
  .str (String.ofList (crowdLine n).text)

theorem crowdLine_succ (n : Nat) : crowdLine (n + 1) = Line.cons [] crowdToken (crowdLine n) := by
  rw [crowdLine, List.replicate_succ]
  rfl

theorem tokens_crowdLine (n : Nat) : (crowdLine n).tokens = List.replicate n crowdToken := by
  rw [Line.tokens, crowdLine, List.map_replicate]

theorem ofText_crowdLine (n : Nat) :
    Line.ofText angles.delimiters (crowdLine n).text = .ok (crowdLine n) := by
  induction n with
  | zero => exact Line.ofText_of_none rfl
  | succ n ih =>
      have hopen : Text.splitFirst? angles.delimiters.opening
          ("<a>".toList ++ (crowdLine n).text) =
            some ([], "a>".toList ++ (crowdLine n).text) := rfl
      have hread : Token.read? angles.delimiters ("a>".toList ++ (crowdLine n).text) =
          .ok (some (crowdToken, (crowdLine n).text)) := by
        with_unfolding_all rfl
      have htext : (crowdLine (n + 1)).text = "<a>".toList ++ (crowdLine n).text := by
        rw [crowdLine_succ, Line.text_cons]
        rfl
      rw [htext, Line.ofText_of_token hopen hread, ih, crowdLine_succ]
      rfl

/-- The crowd has more than one token, so it is no whole token. -/
theorem whole?_crowdLine {n : Nat} (h : 2 ≤ n) : (crowdLine n).whole? = none := by
  obtain ⟨n, rfl⟩ := Nat.exists_eq_add_of_le' h
  rfl

/-- The data that turns every token into nothing. -/
def crowdData : Json :=
  .obj [("a", .str "")]

theorem fillRuns_crowdLine (n : Nat) :
    Line.fillRuns crowdData [] (List.replicate n ([], crowdToken)) = .ok [] := by
  have hresolve : crowdToken.resolve crowdData = .ok (.str "") := by
    with_unfolding_all rfl
  induction n with
  | zero => rfl
  | succ n ih =>
      rw [List.replicate_succ, Line.fillRuns, hresolve, ih]
      rfl

theorem fill_crowd {n : Nat} (h : 2 ≤ n) :
    fill angles.strict crowdData (crowd n) = .ok (.str "") := by
  refine (fillString_eq_ok_iff rfl).2 ⟨crowdLine n, ?_, ?_⟩
  · rw [String.toList_ofList]
    exact ofText_crowdLine n
  · rw [Line.fill, whole?_crowdLine h]
    dsimp only
    rw [crowdLine, fillRuns_crowdLine]
    rfl

theorem pattern_crowdLine (n : Nat) :
    (crowdLine n).pattern =
      ['(', '?', 's', ')', '^'] ++ (List.replicate n Line.group).flatten ++ ['$'] := by
  have hruns : (crowdLine n).runs.flatMap (fun run => escapeMeta run.1 ++ Line.group) =
      (List.replicate n Line.group).flatten :=
    List.flatMap_replicate
  have htail : escapeMeta (crowdLine n).tail = [] := rfl
  rw [Line.pattern, hruns, htail, List.append_nil]

theorem memoryFrom_groups (n taken : Nat) :
    Engine.memoryFrom taken ((List.replicate n Line.group).flatten ++ ['$']) =
      taken + 520 * n + 32 := by
  induction n generalizing taken with
  | zero => rfl
  | succ n ih =>
      have hgroup : Engine.memoryFrom taken
          (Line.group ++ ((List.replicate n Line.group).flatten ++ ['$'])) =
            Engine.memoryFrom (taken + 520) ((List.replicate n Line.group).flatten ++ ['$']) := rfl
      rw [List.replicate_succ, List.flatten_cons, List.append_assoc, hgroup, ih]
      omega

theorem refused_crowdLine {n : Nat} (h : 20165 ≤ n) :
    (crowdLine n).Refused Engine.tooLarge where
  tokens := by
    rw [tokens_crowdLine]
    simp
    omega
  notWhole := whole?_crowdLine (by omega)
  refusal := by
    have hmemory : Engine.memoryFrom 0 (crowdLine n).pattern = 160 + 520 * n + 32 := by
      rw [pattern_crowdLine, List.append_assoc]
      exact memoryFrom_groups n 160
    refine if_pos ?_
    rw [hmemory, Engine.memoryLimit]
    omega

theorem recover_crowd_eq_error {n : Nat} (h : 20165 ≤ n) :
    recover angles.delimiters (crowd n) (.str "") =
      .error ((crowdLine n).refusedFault Engine.tooLarge) := by
  have hrecover : recoverString angles.delimiters (String.ofList (crowdLine n).text)
      (some (.str "")) = .error ((crowdLine n).refusedFault Engine.tooLarge) := by
    rw [recoverString, String.toList_ofList, ofText_crowdLine, ok_bind,
      (refused_crowdLine h).recover_eq_error rfl]
  rw [recover, crowd, leaves, List.foldlM_cons, learn, hrecover]
  rfl

/-- **A text that fits may still be refused.** A string of many tokens becomes the empty text, which
can be cut in one way only, but nothing is recovered from it. -/
theorem recover_crowd :
    fill angles.strict crowdData (crowd 40000) = .ok (.str "") ∧
      recover angles.delimiters (crowd 40000) (.str "") =
        .error (.mismatch ((crowdLine 40000).text ++ " (".toList ++ Engine.tooLarge ++ [')'])) :=
  ⟨fill_crowd (by decide), recover_crowd_eq_error (by decide)⟩

end Template

end Stencil
