import Stencil.Proofs.Line.Reader
import Stencil.Proofs.Token.Offsets

/-!
# The spans of the tokens

A text is scanned by a loop over offsets: it looks for the opening delimiter in the slice
that is left, reads the token there, and goes on at the offset at which the token stops,
or behind the delimiter if there is no token.  `scan?` is that loop.  It gives no answer
at all if a slice is out of range or cuts a character, or if it goes round more often than
there are characters.

It always answers (`scan?_sound`), with the spans of the line that the text denotes or
with its fault, so every slice is good and every round leaves less of the text.  The spans
follow each other without overlap, each holds the written token, and every token is sound.
-/

set_option autoImplicit false

namespace Stencil.Line

/-- The tokens from an offset of the text on, with the offsets at which they start and stop, found
in so many rounds. -/
def scanFrom? (d : Delimiters) (s : Text) :
    Nat → Nat → Option (Except Fault (List (Nat × Nat × Token)))
  | 0, _ => none
  | rounds + 1, pos => do
    let rest ← s.slice? pos s.byteLength
    match Text.find? d.opening rest with
    | none => return .ok []
    | some found =>
      match ← Token.readAt? d s (pos + found) with
      | .error fault => return .error fault
      | .ok none => scanFrom? d s rounds (pos + found + d.opening.byteLength)
      | .ok (some placed) =>
        (scanFrom? d s rounds placed.2.1).map fun answer => answer.map (placed :: ·)

/-- The tokens of the text, with the offsets at which they start and stop. -/
def scan? (d : Delimiters) (s : Text) : Option (Except Fault (List (Nat × Nat × Token))) :=
  scanFrom? d s (s.length + 1) 0

variable {d : Delimiters} {s : Text} {l : Line} {offset : Nat} {span : Nat × Nat × Token}

/-! ## The loop gives the spans of the line -/

theorem spans_go_prepend (literal : Text) (l : Line) :
    spans.go offset (l.prepend literal).runs = spans.go (offset + literal.byteLength) l.runs := by
  obtain ⟨runs, tail⟩ := l
  cases runs with
  | nil => rfl
  | cons run runs =>
      dsimp only [prepend, spans.go]
      simp only [Text.byteLength_append, Nat.add_assoc]

theorem spans_go_cons (front literal : Text) (token : Token) (runs : List (Text × Token)) :
    spans.go front.byteLength ((literal, token) :: runs) =
      ((front ++ literal).byteLength, (front ++ literal ++ token.written).byteLength, token) ::
        spans.go (front ++ literal ++ token.written).byteLength runs := by
  simp only [spans.go, Text.byteLength_append]

/-- One round in which the opening delimiter is found. -/
theorem scanFrom?_succ {front rest literal body : Text} {rounds : Nat} (hs : s = front ++ rest)
    (hopen : Text.splitFirst? d.opening rest = some (literal, body)) :
    scanFrom? d s (rounds + 1) front.byteLength =
      match Token.read? d body with
      | .error fault => some (.error fault)
      | .ok none => scanFrom? d s rounds (front ++ literal ++ d.opening).byteLength
      | .ok (some (token, _)) =>
        (scanFrom? d s rounds (front ++ literal ++ token.written).byteLength).map fun answer =>
          answer.map (((front ++ literal).byteLength,
            (front ++ literal ++ token.written).byteLength, token) :: ·) := by
  have hwhole : s = (front ++ literal) ++ d.opening ++ body := by
    rw [hs, Text.eq_append_of_splitFirst? hopen]
    simp only [List.append_assoc]
  have hread := Token.readAt?_eq d (front ++ literal) body
  rw [← hwhole] at hread
  rw [scanFrom?, Text.slice?_end hs rfl, Option.bind_eq_bind, Option.bind_some,
    Text.find?_eq_of_splitFirst? hopen]
  dsimp only
  rw [← Text.byteLength_append, hread, Option.bind_eq_bind, Option.bind_some]
  cases Token.read? d body with
  | error fault => rfl
  | ok found =>
      cases found with
      | none =>
          rw [Text.byteLength_append (front ++ literal)]
          rfl
      | some found => rfl

/-- **From the offset behind any part of the text the loop finds the tokens of the line that the rest
denotes.** -/
theorem scanFrom?_eq {front rest : Text} {rounds : Nat} (hs : s = front ++ rest)
    (enough : rest.length ≤ rounds) :
    scanFrom? d s (rounds + 1) front.byteLength =
      some ((ofText d rest).map fun l => spans.go front.byteLength l.runs) := by
  fun_induction ofText d rest generalizing front rounds with
  | case1 rest hopen =>
      rw [scanFrom?, Text.slice?_end hs rfl, Option.bind_eq_bind, Option.bind_some,
        Text.find?_eq_none_of_splitFirst? hopen]
      rfl
  | case2 rest literal body hopen fault hfault =>
      rw [scanFrom?_succ hs hopen, hfault]
      rfl
  | case3 rest literal body hopen hnone ih =>
      have hlength := Text.length_lt_of_splitFirst? d.opening_ne_nil hopen
      obtain ⟨rounds, rfl⟩ := Nat.exists_eq_succ_of_ne_zero (show rounds ≠ 0 by omega)
      have hbody : s = (front ++ literal ++ d.opening) ++ body := by
        rw [hs, Text.eq_append_of_splitFirst? hopen]
        simp only [List.append_assoc]
      have hspans (l : Line) : spans.go (front ++ literal ++ d.opening).byteLength l.runs =
          spans.go front.byteLength (l.prepend (literal ++ d.opening)).runs := by
        rw [spans_go_prepend, ← Text.byteLength_append, List.append_assoc]
      rw [scanFrom?_succ hs hopen, hnone]
      dsimp only
      rw [ih hbody (by omega)]
      cases ofText d body with
      | error fault => rfl
      | ok l => exact congrArg (fun placed => some (Except.ok placed)) (hspans l)
  | case4 rest literal body hopen token after htoken ih =>
      have hlength := length_lt_of_read? hopen htoken
      obtain ⟨rounds, rfl⟩ := Nat.exists_eq_succ_of_ne_zero (show rounds ≠ 0 by omega)
      have hafter : s = (front ++ literal ++ token.written) ++ after := by
        have hwritten := (Token.written_append_of_read? htoken).1
        rw [hs, Text.eq_append_of_splitFirst? hopen]
        simp only [List.append_assoc, hwritten]
      rw [scanFrom?_succ hs hopen, htoken]
      dsimp only
      rw [ih hafter (by omega), Option.map_some]
      cases ofText d after with
      | error fault => rfl
      | ok l =>
          exact congrArg (fun placed => some (Except.ok placed))
            (spans_go_cons front literal token l.runs).symm

/-! ## Where the spans are -/

theorem le_of_mem_spans_go {runs : List (Text × Token)} (h : span ∈ spans.go offset runs) :
    offset ≤ span.1 := by
  induction runs generalizing offset with
  | nil => cases h
  | cons run runs ih =>
      rcases List.mem_cons.1 h with rfl | h
      · exact Nat.le_add_right _ _
      · have hstop := ih h
        omega

theorem map_token_spans_go (offset : Nat) (runs : List (Text × Token)) :
    (spans.go offset runs).map (fun span => span.2.2) = runs.map Prod.snd := by
  induction runs generalizing offset with
  | nil => rfl
  | cons run runs ih => exact congrArg (run.2 :: ·) (ih _)

theorem text_append_cons (front literal tail : Text) (token : Token) (runs : List (Text × Token)) :
    front ++ text ⟨(literal, token) :: runs, tail⟩ =
      (front ++ literal ++ token.written) ++ text ⟨runs, tail⟩ := by
  rw [show text ⟨(literal, token) :: runs, tail⟩ = _ from text_cons literal token ⟨runs, tail⟩]
  simp only [List.append_assoc]

/-- **A token is written where its span is.** -/
theorem slice?_of_mem_spans_go {front tail : Text} {runs : List (Text × Token)}
    (hs : s = front ++ text ⟨runs, tail⟩) (h : span ∈ spans.go front.byteLength runs) :
    s.slice? span.1 span.2.1 = some span.2.2.written := by
  induction runs generalizing front with
  | nil => cases h
  | cons run runs ih =>
      obtain ⟨literal, token⟩ := run
      rw [text_append_cons] at hs
      rw [spans_go_cons, List.mem_cons] at h
      rcases h with rfl | h
      · exact Text.slice?_of_eq hs rfl (Text.byteLength_append _ _)
      · exact ih hs h

theorem slice?_of_mem_spans (h : ofText d s = .ok l) (hspan : span ∈ l.spans) :
    s.slice? span.1 span.2.1 = some span.2.2.written :=
  slice?_of_mem_spans_go (show s = [] ++ text ⟨l.runs, l.tail⟩ from (text_of_ofText h).symm) hspan

theorem token_mem_tokens (h : span ∈ l.spans) : span.2.2 ∈ l.tokens := by
  rw [tokens, ← map_token_spans_go 0]
  exact List.mem_map_of_mem h

theorem pairwise_spans_go {runs : List (Text × Token)}
    (written : ∀ run ∈ runs, run.2.written ≠ []) :
    (spans.go offset runs).Pairwise fun a b => a.1 < b.1 ∧ a.2.1 ≤ b.1 := by
  induction runs generalizing offset with
  | nil => exact .nil
  | cons run runs ih =>
      obtain ⟨hrun, hruns⟩ := List.forall_mem_cons.1 written
      refine List.pairwise_cons.2 ⟨fun span hspan => ?_, ih hruns⟩
      have hstop := le_of_mem_spans_go hspan
      have hlength := Nat.pos_of_ne_zero (mt Text.byteLength_eq_zero_iff.1 hrun)
      exact ⟨by omega, hstop⟩

/-! ## Every scan -/

/-- **Every scan has an answer, and its spans are good.**  No slice that is taken on the way is out of
range or cuts a character, and the loop ends, whether the answer is a list of spans or a fault.  The
spans lie within the text, in their order and without overlap; each goes over a written token, from
its opening to its closing delimiter and something between them; and the tokens are sound. -/
theorem scan?_sound (d : Delimiters) (s : Text) :
    scan? d s = some ((ofText d s).map spans) ∧
      ∀ l, ofText d s = .ok l →
        (l.spans.Pairwise fun a b => a.1 < b.1 ∧ a.2.1 ≤ b.1) ∧
          ∀ span ∈ l.spans, s.slice? span.1 span.2.1 = some span.2.2.written ∧
            span.1 + d.opening.byteLength + d.closing.byteLength + 1 ≤ span.2.1 ∧
            span.2.2.Sound d := by
  refine ⟨scanFrom?_eq (List.nil_append s).symm (Nat.le_refl _), fun l hl => ?_⟩
  have sound (t : Token) (ht : t ∈ l.tokens) : t.Sound d := by
    obtain ⟨body, rest, hread⟩ := exists_read?_of_mem_tokens hl ht
    exact Token.sound_of_heads (Token.heads_of_read? hread)
  refine ⟨pairwise_spans_go fun run hrun => ?_, fun span hspan => ?_⟩
  · obtain ⟨content, hne, hwritten⟩ := (sound run.2 (List.mem_map_of_mem hrun)).bounded
    simp [hwritten, hne]
  · have hsound := sound span.2.2 (token_mem_tokens hspan)
    have hslice := slice?_of_mem_spans hl hspan
    obtain ⟨content, hne, hwritten⟩ := hsound.bounded
    obtain ⟨a, b, -, hstart, hstop⟩ := Text.slice?_eq_some_iff.1 hslice
    have hlength := Nat.pos_of_ne_zero (mt Text.byteLength_eq_zero_iff.1 hne)
    refine ⟨hslice, ?_, hsound⟩
    rw [hstart, hstop, hwritten]
    simp only [Text.byteLength_append]
    omega

/-- A token with a closing delimiter in its default. -/
def bracedToken : Token :=
  ⟨.string, ['x'], some (.str "\x7d\x7d"), "x || \"\x7d\x7d\"".toList,
    "\x7b\x7bstring:x || \"\x7d\x7d\"\x7d\x7d".toList⟩

/-- The line of a text with that token, and with an opening delimiter in front of it that opens none. -/
def braced : Line :=
  ⟨[("é\x7b\x7b \x7d\x7d".toList, bracedToken)], ['b']⟩

theorem read?_braced : Token.read? .default "string:x || \"\x7d\x7d\"\x7d\x7db".toList =
    .ok (some (bracedToken, ['b'])) := by
  -- the closing delimiter in the default is the first one
  have first : Text.splitFirst? Delimiters.default.closing
      "string:x || \"\x7d\x7d\"\x7d\x7db".toList =
        some ("string:x || \"".toList, "\"\x7d\x7db".toList) := by decide
  have declared : Cast.splitTag "string:x || \"".toList = (.string, "x || \"".toList) := by decide
  have tagged : "string:x || \"".toList = "string:".toList ++ "x || \"".toList := by decide
  have mark : Text.splitFirst? Token.defaultMark "x || \"".toList =
      some ("x ".toList, " \"".toList) := by decide
  have fallback : Token.readDefault? Delimiters.default.closing " \"".toList
      "\"\x7d\x7db".toList = some (.str "\x7d\x7d", ['b']) := by
    with_unfolding_all rfl
  have goesOn : " \"".toList ++ Delimiters.default.closing ++ "\"\x7d\x7db".toList =
      " \"\x7d\x7d\"".toList ++ Delimiters.default.closing ++ ['b'] := by decide
  exact Token.read?_of_heads (.marked first declared tagged mark (by decide) fallback goesOn)

theorem ofText_braced : ofText .default braced.text = .ok braced := by
  have hopen : Text.splitFirst? Delimiters.default.opening braced.text =
      some (['é'], " \x7d\x7d\x7b\x7bstring:x || \"\x7d\x7d\"\x7d\x7db".toList) := by decide
  have hopen' : Text.splitFirst? Delimiters.default.opening
      " \x7d\x7d\x7b\x7bstring:x || \"\x7d\x7d\"\x7d\x7db".toList =
        some (" \x7d\x7d".toList, "string:x || \"\x7d\x7d\"\x7d\x7db".toList) := by decide
  rw [ofText_of_no_token hopen (by with_unfolding_all rfl), ofText_of_token hopen' read?_braced,
    ofText_of_none (by decide)]
  rfl

theorem spans_braced : braced.spans = [(7, 27, bracedToken)] :=
  rfl

theorem scan?_sound_braced :
    scan? .default braced.text = some (.ok [(7, 27, bracedToken)]) ∧
      braced.text.slice? 7 27 = some "\x7b\x7bstring:x || \"\x7d\x7d\"\x7d\x7d".toList ∧
      bracedToken.Sound .default := by
  obtain ⟨hscan, hgood⟩ := scan?_sound .default braced.text
  obtain ⟨-, hspans⟩ := hgood braced ofText_braced
  rw [ofText_braced, Except.map, spans_braced] at hscan
  rw [spans_braced] at hspans
  obtain ⟨hslice, -, hsound⟩ := hspans _ List.mem_cons_self
  exact ⟨hscan, hslice, hsound⟩

end Stencil.Line
