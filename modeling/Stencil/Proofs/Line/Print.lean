import Stencil.Proofs.Line.Reader
import Stencil.Proofs.Token.Print

/-!
# Printing a line and taking it apart

A line is printed by writing its literal texts and its slots one after the other.
Taking the printed text apart gives the literal texts and the tokens of the slots
again, with the offsets at which they were printed (`ofText_print`), whatever the
delimiters are.  The opening delimiter may occur in the slots, but it must not occur
in front of the place where it opens one, nor in the text behind the last slot.
-/

set_option autoImplicit false

namespace Stencil.Line

variable {d : Delimiters}

/-- The literal texts and the printed slots, one after the other. -/
def printRuns (d : Delimiters) (runs : List (Text × Slot)) : Text :=
  runs.flatMap fun run => run.1 ++ run.2.print d

/-! ## The offsets -/

/-- A token starts behind the text of the runs before it and its own literal text. -/
theorem getElem?_spans_go (offset : Nat) (before after : List (Text × Token)) (literal : Text)
    (token : Token) :
    (spans.go offset (before ++ (literal, token) :: after))[before.length]? =
      some (offset + Text.byteLength (text ⟨before, literal⟩),
        offset + Text.byteLength (text ⟨before, literal ++ token.written⟩), token) := by
  induction before generalizing offset with
  | nil =>
      rw [List.nil_append, spans.go]
      simp [text, Nat.add_assoc]
  | cons run before ih =>
      obtain ⟨first, token'⟩ := run
      rw [List.cons_append, spans.go, List.length_cons, List.getElem?_cons_succ, ih]
      simp [text, Nat.add_assoc]

/-! ## The printed line -/

/-- The runs that a printed line is taken apart into. -/
def readBack (d : Delimiters) (runs : List (Text × Slot)) : List (Text × Token) :=
  runs.map fun run => (run.1, run.2.token d)

theorem text_readBack (d : Delimiters) (runs : List (Text × Slot)) (tail : Text) :
    text ⟨readBack d runs, tail⟩ = printRuns d runs ++ tail := by
  rw [text, readBack, List.flatMap_map]
  rfl

theorem ofText_printRuns {runs : List (Text × Slot)} {tail : Text}
    (closing : ∀ c ∈ d.closing.head?, Text.isBlank c = false)
    (printable : ∀ run ∈ runs, run.2.Printable d)
    (opening_first : ∀ run ∈ runs, ∀ a b, run.1 ++ d.opening = a ++ d.opening ++ b →
      run.1.length ≤ a.length)
    (plain : ¬ d.opening <:+: tail) :
    ofText d (printRuns d runs ++ tail) = .ok ⟨readBack d runs, tail⟩ := by
  induction runs with
  | nil => exact ofText_of_none (Text.splitFirst?_eq_none_iff.2 plain)
  | cons run runs ih =>
      obtain ⟨literal, slot⟩ := run
      obtain ⟨hprint, hprints⟩ := List.forall_mem_cons.1 printable
      obtain ⟨hfirst, hfirsts⟩ := List.forall_mem_cons.1 opening_first
      have hprinted : printRuns d ((literal, slot) :: runs) ++ tail = literal ++ d.opening ++
          (slot.cast.written ++ slot.expression ++ d.closing ++ (printRuns d runs ++ tail)) := by
        simp only [printRuns, Slot.print, List.flatMap_cons, List.append_assoc]
      rw [hprinted, ofText_of_token (Text.splitFirst?_append hfirst _)
        (Token.read?_print closing hprint _), ih hprints hfirsts]
      rfl

/-- **A printed line is taken apart into what was printed**: the literal texts and the tokens in
their order, each token between the offsets at which it was printed. -/
theorem ofText_print {runs : List (Text × Slot)} {tail : Text}
    (closing : ∀ c ∈ d.closing.head?, Text.isBlank c = false)
    (printable : ∀ run ∈ runs, run.2.Printable d)
    (opening_first : ∀ run ∈ runs, ∀ a b, run.1 ++ d.opening = a ++ d.opening ++ b →
      run.1.length ≤ a.length)
    (plain : ¬ d.opening <:+: tail) :
    ∃ l, ofText d (printRuns d runs ++ tail) = .ok l ∧
      l.runs = runs.map (fun run => (run.1, run.2.token d)) ∧ l.tail = tail ∧
      ∀ before literal slot after, runs = before ++ (literal, slot) :: after →
        l.spans[before.length]? = some (Text.byteLength (printRuns d before ++ literal),
          Text.byteLength (printRuns d before ++ literal ++ slot.print d), slot.token d) := by
  refine ⟨_, ofText_printRuns closing printable opening_first plain, rfl, rfl, ?_⟩
  rintro before literal slot after rfl
  have hspan := getElem?_spans_go 0 (readBack d before) (readBack d after) literal (slot.token d)
  rw [text_readBack, text_readBack, Nat.zero_add, Nat.zero_add, ← List.append_assoc] at hspan
  have hlength : (readBack d before).length = before.length := List.length_map _
  rw [hlength] at hspan
  rw [spans, readBack, List.map_append, List.map_cons]
  exact hspan

/-- A default with both delimiters and a double bar in it. -/
def greeting : List (Text × Slot) :=
  [(['é'], ⟨.string, "x.y".toList, some (.str "\x7d\x7d || \x7b\x7b")⟩)]

theorem printable_greeting : ∀ run ∈ greeting, run.2.Printable .default := by
  intro run hrun
  rw [greeting, List.mem_singleton] at hrun
  subst hrun
  refine ⟨by decide, by decide, Text.splitFirst?_eq_none_iff.1 (by decide), nofun,
    fun v hv => ?_, fun a b h => ?_⟩
  · cases hv
    with_unfolding_all rfl
  · -- the closing delimiter in the default is the first one
    have hsplit : Text.splitFirst? Delimiters.default.closing
        "string:x.y || \"\x7d\x7d || \x7b\x7b\"\x7d\x7d".toList =
          some ("string:x.y || \"".toList, " || \x7b\x7b\"\x7d\x7d".toList) := by decide
    exact Nat.le_trans (by decide) (Text.length_le_of_splitFirst? hsplit h)

theorem ofText_print_greeting :
    ∃ l, ofText .default "é\x7b\x7bstring:x.y || \"\x7d\x7d || \x7b\x7b\"\x7d\x7d!".toList = .ok l ∧
      l.tokens.map Token.fallback = [some (.str "\x7d\x7d || \x7b\x7b")] ∧
      l.spans[0]?.map (fun span => (span.1, span.2.1)) = some (2, 30) := by
  obtain ⟨l, hl, hruns, -, hspans⟩ := @ofText_print .default greeting ['!']
    (fun c hc => by cases hc; rfl) printable_greeting (fun run hrun a b h => by
      rw [greeting, List.mem_singleton] at hrun
      subst hrun
      exact Text.length_le_of_splitFirst? (a := ['é']) (b := []) (by decide) h)
    (Text.splitFirst?_eq_none_iff.1 (by decide))
  refine ⟨l, hl, ?_, ?_⟩
  · rw [tokens, hruns]
    rfl
  · have hspan := hspans [] ['é'] _ [] rfl
    rw [List.length_nil] at hspan
    rw [hspan]
    decide

end Stencil.Line
