import Stencil.Proofs.Line.Spans
import Stencil.Proofs.Token.Cut

/-!
# The parts of a line, each alone

A line is made of literal texts and written tokens by turns.  Reading one of them looks
far beyond it into the text that follows, but taken out of the line and read alone each
part is what it was: a written token is a line that is this token and nothing else, and a
literal text is a line without tokens (`ofText_parts`).

For a token this is what the reader of tokens says (`ofText_written`).  A literal text may
contain opening delimiters at which no token was found, and none is found there if the
text ends before the next token begins (`plain_append`).
-/

set_option autoImplicit false

namespace Stencil.Line

variable {d : Delimiters} {s literal body rest : Text} {token : Token} {l : Line}

/-- The text is a line without tokens. -/
def Plain (d : Delimiters) (s : Text) : Prop :=
  ofText d s = .ok ⟨[], s⟩

/-! ## Tokens alone -/

theorem plain_of_not_infix (h : ¬ d.opening <:+: s) : Plain d s :=
  ofText_of_none (Text.splitFirst?_eq_none_iff.2 h)

/-- **A written token alone is a line that is this token.** -/
theorem ofText_written (h : Token.read? d body = .ok (some (token, rest))) :
    ofText d token.written = .ok ⟨[([], token)], []⟩ := by
  obtain ⟨taken, hwritten, -, hread⟩ := Token.exists_taken_of_read? h
  have hopen : Text.splitFirst? d.opening token.written = some ([], taken) := by
    rw [hwritten]
    exact Text.splitFirst?_eq_some rfl fun _ _ _ => Nat.zero_le _
  have halone := hread [] List.nil_prefix
  have hnil : Plain d [] := plain_of_not_infix fun h => d.opening_ne_nil (List.infix_nil.1 h)
  rw [List.append_nil] at halone
  rw [ofText_of_token hopen halone, hnil]
  rfl

/-! ## Literal texts alone -/

/-- A text in which no token is found is literal up to the end of the literal text behind it. -/
theorem plain_append {gap : Text} (hopen : Text.splitFirst? d.opening s = some (literal, body))
    (hnone : Token.read? d body = .ok none) (hbody : gap <+: body) (hgap : Plain d gap) :
    Plain d (literal ++ d.opening ++ gap) := by
  obtain ⟨more, rfl⟩ := hbody
  rw [Plain, ofText_of_no_token (Text.splitFirst?_behind hopen gap)
    (Token.read?_none_of_append hnone), hgap]
  rfl

/-- **Every literal text alone is a line without tokens.** -/
theorem plain_of_ofText (h : ofText d s = .ok l) :
    (∀ run ∈ l.runs, Plain d run.1) ∧ Plain d l.tail := by
  fun_induction ofText d s generalizing l with
  | case1 s hopen =>
      cases h
      exact ⟨List.forall_mem_nil _, ofText_of_none hopen⟩
  | case2 => cases h
  | case3 s literal body hopen hnone ih =>
      obtain ⟨⟨runs, tail⟩, hl, rfl⟩ := map_eq_ok_iff.1 h
      obtain ⟨hruns, htail⟩ := ih hl
      have hbody := text_of_ofText hl
      cases runs with
      | nil =>
          have htail' := plain_append hopen hnone (hbody ▸ List.prefix_refl _) htail
          exact ⟨List.forall_mem_nil _, htail'⟩
      | cons run runs =>
          obtain ⟨hfirst, hruns⟩ := List.forall_mem_cons.1 hruns
          rw [text, List.flatMap_cons, List.append_assoc, List.append_assoc] at hbody
          have hfirst' := plain_append hopen hnone ⟨_, hbody⟩ hfirst
          exact ⟨List.forall_mem_cons.2 ⟨hfirst', hruns⟩, htail⟩
  | case4 s literal body hopen token rest htoken ih =>
      obtain ⟨l', hl, rfl⟩ := map_eq_ok_iff.1 h
      obtain ⟨hruns, htail⟩ := ih hl
      have hliteral : Plain d literal :=
        plain_of_not_infix (Text.not_infix_of_splitFirst? d.opening_ne_nil hopen)
      exact ⟨List.forall_mem_cons.2 ⟨hliteral, hruns⟩, htail⟩

/-! ## All parts alone -/

/-- The offsets between which the literal texts stand: before the first token, between two tokens,
and behind the last one. -/
def gaps (l : Line) : List (Nat × Nat) :=
  List.zip (0 :: l.spans.map fun span => span.2.1)
    ((l.spans.map fun span => span.1) ++ [l.text.byteLength])

/-- A literal text stands in every gap. -/
theorem exists_slice?_of_mem_gaps_go {front tail : Text} {runs : List (Text × Token)}
    {gap : Nat × Nat} (hs : s = front ++ text ⟨runs, tail⟩)
    (h : gap ∈ List.zip (front.byteLength :: (spans.go front.byteLength runs).map fun span => span.2.1)
      (((spans.go front.byteLength runs).map fun span => span.1) ++ [s.byteLength])) :
    ∃ part, s.slice? gap.1 gap.2 = some part ∧ ((∃ run ∈ runs, run.1 = part) ∨ tail = part) := by
  induction runs generalizing front with
  | nil =>
      cases List.mem_singleton.1 h
      exact ⟨tail, Text.slice?_end hs rfl, .inr rfl⟩
  | cons run runs ih =>
      obtain ⟨literal, token⟩ := run
      rw [text_append_cons] at hs
      rw [spans_go_cons, List.map_cons, List.map_cons, List.cons_append, List.zip_cons_cons,
        List.mem_cons] at h
      rcases h with rfl | h
      · refine ⟨literal, Text.slice?_of_eq (b := token.written ++ text ⟨runs, tail⟩) ?_ rfl
          (Text.byteLength_append _ _), .inl ⟨_, List.mem_cons_self, rfl⟩⟩
        rw [hs, List.append_assoc]
      · obtain ⟨part, hslice, hpart⟩ := ih hs h
        exact ⟨part, hslice, hpart.imp_left fun ⟨run, hrun, heq⟩ =>
          ⟨run, List.mem_cons_of_mem _ hrun, heq⟩⟩

theorem exists_plain_of_mem_gaps {gap : Nat × Nat} (h : ofText d s = .ok l) (hgap : gap ∈ l.gaps) :
    ∃ part, s.slice? gap.1 gap.2 = some part ∧ Plain d part := by
  have htext := text_of_ofText h
  rw [gaps, htext] at hgap
  obtain ⟨hruns, htail⟩ := plain_of_ofText h
  obtain ⟨part, hslice, ⟨run, hrun, rfl⟩ | rfl⟩ := exists_slice?_of_mem_gaps_go
    (show s = [] ++ text ⟨l.runs, l.tail⟩ from htext.symm) hgap
  · exact ⟨_, hslice, hruns run hrun⟩
  · exact ⟨_, hslice, htail⟩

/-- **Each part of a line alone is what it is in the line.**  The text between the offsets of a token
is a line that is this token from its start to its end, and the text in a gap is a line without
tokens.  So the text is made of literal texts without tokens and of whole tokens by turns. -/
theorem ofText_parts (h : ofText d s = .ok l) :
    (∀ span ∈ l.spans, ∃ part l', s.slice? span.1 span.2.1 = some part ∧ ofText d part = .ok l' ∧
        l'.spans = [(0, part.byteLength, span.2.2)] ∧ l'.whole? = some span.2.2) ∧
      (∀ gap ∈ l.gaps, ∃ part l', s.slice? gap.1 gap.2 = some part ∧ ofText d part = .ok l' ∧
        l'.spans = []) ∧
      s = l.runs.flatMap (fun run => run.1 ++ run.2.written) ++ l.tail ∧
        (∀ run ∈ l.runs, Plain d run.1 ∧ ofText d run.2.written = .ok ⟨[([], run.2)], []⟩) ∧
        Plain d l.tail := by
  have whole (t : Token) (ht : t ∈ l.tokens) : ofText d t.written = .ok ⟨[([], t)], []⟩ := by
    obtain ⟨body, rest, hread⟩ := exists_read?_of_mem_tokens h ht
    exact ofText_written hread
  obtain ⟨hruns, htail⟩ := plain_of_ofText h
  refine ⟨fun span hspan => ?_, fun gap hgap => ?_, (text_of_ofText h).symm, fun run hrun => ?_, htail⟩
  · refine ⟨_, _, slice?_of_mem_spans h hspan, whole _ (token_mem_tokens hspan), ?_, rfl⟩
    simp [spans, spans.go]
  · obtain ⟨part, hslice, hplain⟩ := exists_plain_of_mem_gaps h hgap
    exact ⟨part, _, hslice, hplain, rfl⟩
  · exact ⟨hruns run hrun, whole run.2 (List.mem_map_of_mem hrun)⟩

theorem ofText_parts_braced :
    ofText .default braced.text = .ok braced ∧
      (∃ l', ofText .default "\x7b\x7bstring:x || \"\x7d\x7d\"\x7d\x7d".toList = .ok l' ∧
        l'.whole? = some bracedToken) ∧
      ∃ l', ofText .default "é\x7b\x7b \x7d\x7d".toList = .ok l' ∧ l'.spans = [] := by
  obtain ⟨hspans, hgaps, -⟩ := ofText_parts ofText_braced
  rw [spans_braced] at hspans
  refine ⟨ofText_braced, ?_, ?_⟩
  · obtain ⟨part, l', hslice, hline, -, hwhole⟩ := hspans _ List.mem_cons_self
    have hpart : braced.text.slice? 7 27 =
        some "\x7b\x7bstring:x || \"\x7d\x7d\"\x7d\x7d".toList := by decide
    cases hpart.symm.trans hslice
    exact ⟨l', hline, hwhole⟩
  · obtain ⟨part, l', hslice, hline, hnone⟩ := hgaps (0, 7) (by decide)
    have hpart : braced.text.slice? 0 7 = some "é\x7b\x7b \x7d\x7d".toList := by decide
    cases hpart.symm.trans hslice
    exact ⟨l', hline, hnone⟩

end Stencil.Line
