import Mathlib.Data.List.Lex
import Stencil.Proofs.Line.Recover
import Stencil.Proofs.Template.Linear

/-!
# The captured texts are the longest

A text can have many cuts along the literal texts of a line.  They are ordered by the
lengths of their texts: the first text counts first, then the second, and so on.
Capturing finds a cut whenever there is one, and it finds the one that is longer than
every other in this order.  Where there is none, nothing is recovered from the text,
and the first token is named (`capture?_eq_some_iff_longest`).

The order is decided from left to right, but the greedy search starts at the last
literal text.  The two agree because the search leaves as much as possible in front
of the literal texts it has placed.  If another cut has the same first text, then
both have the same text in front of the remaining literal texts, and the argument
repeats there (`eq_or_longer_of_cut`).
-/

set_option autoImplicit false

namespace Stencil

namespace Line

/-- The texts are as many as the tokens, and with the literal texts between them they make up the
text. -/
structure Cuts (l : Line) (s : Text) (texts : List Text) : Prop where
  length_eq : texts.length = l.tokens.length
  weaving : l.weaving texts = s

/-- The first text is longer, or it is equally long and the second is longer, and so on. -/
def Longer (texts other : List Text) : Prop :=
  other.map List.length < texts.map List.length

theorem longer_cons_iff {x y : Text} {xs ys : List Text} :
    Longer (x :: xs) (y :: ys) ↔ y.length < x.length ∨ y.length = x.length ∧ Longer xs ys := by
  rw [Longer, List.map_cons, List.map_cons, List.cons_lt_cons_iff, Longer]

theorem Longer.of_cons {x : Text} {xs ys : List Text} (h : Longer (x :: xs) (x :: ys)) :
    Longer xs ys := by
  rcases longer_cons_iff.1 h with hlt | ⟨-, hrest⟩
  · exact absurd hlt (Nat.lt_irrefl _)
  · exact hrest

theorem Longer.asymm {xs ys : List Text} (h : Longer xs ys) : ¬ Longer ys xs :=
  List.lt_asymm h

/-! ## The greedy cut is the longest -/

/-- The greedy cut leaves at least as much in front as any other. -/
theorem length_le_of_cut {literals texts greedy : List Text} {s before front : Text}
    (hcut : cut literals s = some (front, greedy)) (hlength : texts.length = literals.length)
    (hs : before ++ weave [] literals texts = s) : before.length ≤ front.length := by
  obtain ⟨front', greedy', hcut', hle⟩ := exists_cut hlength hs
  cases hcut.symm.trans hcut'
  exact hle

/-- **Any other cut leaves less in front than the greedy one, or has a shorter text where the two
first differ.** -/
theorem eq_or_longer_of_cut {literals texts greedy : List Text} {s before front : Text}
    (hcut : cut literals s = some (front, greedy)) (hlength : texts.length = literals.length)
    (hs : before ++ weave [] literals texts = s) :
    (before = front ∧ texts = greedy) ∨ Longer (front :: greedy) (before :: texts) := by
  induction literals generalizing texts greedy before front with
  | nil =>
      cases List.eq_nil_of_length_eq_zero hlength
      cases hcut
      have hbefore : before ++ [] = s := hs
      rw [List.append_nil] at hbefore
      exact .inl ⟨hbefore, rfl⟩
  | cons literal literals ih =>
      have hle := length_le_of_cut hcut hlength hs
      obtain ⟨after, rest, hrest, rfl⟩ := exists_of_cut_cons hcut
      cases texts with
      | nil => cases hlength
      | cons x texts =>
          have hlength' : texts.length = literals.length := Nat.succ.inj hlength
          have hs' : (before ++ literal ++ x) ++ weave [] literals texts = s := by
            simpa only [weave, List.append_assoc] using hs
          have hle' := length_le_of_cut hrest hlength' hs'
          simp only [List.length_append] at hle'
          rw [longer_cons_iff, longer_cons_iff]
          rcases Nat.lt_or_eq_of_le hle with hlt | hfront
          · exact .inr (.inl hlt)
          rcases Nat.lt_or_eq_of_le (show x.length ≤ after.length by omega) with hlt | hafter
          · exact .inr (.inr ⟨hfront, .inl hlt⟩)
          -- now the remaining literal texts have the same text in front of them in both cuts
          have hsame : before ++ literal ++ x = front ++ literal ++ after := by
            apply List.append_inj_left (hs'.trans (weave_of_cut hrest).2.symm)
            simp only [List.length_append]
            omega
          obtain ⟨hsameFront, rfl⟩ := List.append_inj hsame (by simp [hfront])
          obtain ⟨rfl, -⟩ := List.append_inj hsameFront hfront
          rcases ih hrest hlength' hs' with ⟨-, rfl⟩ | longer
          · exact .inl ⟨rfl, rfl⟩
          · exact .inr (.inr ⟨rfl, .inr ⟨rfl, longer.of_cons⟩⟩)

/-! ## Capturing finds the longest cut -/

variable {l : Line} {s : Text} {texts : List Text}

theorem cuts_of_capture? (captured : l.capture? s = some texts) : l.Cuts s texts := by
  obtain ⟨hlength, hweave⟩ := weave_of_capture? captured
  exact ⟨hlength.trans l.length_literals, hweave⟩

theorem Cuts.exists_capture? (h : l.Cuts s texts) : ∃ texts', l.capture? s = some texts' := by
  rw [← h.weaving]
  apply Line.exists_capture?
  rw [h.length_eq, length_literals]

theorem eq_or_longer_of_capture? {other : List Text} (captured : l.capture? s = some texts)
    (h : l.Cuts s other) : other = texts ∨ Longer texts other := by
  have hlength : other.length = l.literals.length := by rw [h.length_eq, length_literals]
  cases hliterals : l.literals with
  | nil =>
      have hcount := (weave_of_capture? captured).1
      rw [hliterals] at hlength hcount
      cases List.eq_nil_of_length_eq_zero hlength
      exact .inl (List.eq_nil_of_length_eq_zero hcount).symm
  | cons first literals =>
      obtain ⟨between, before, inner, hs, hcut, rfl⟩ := exists_cut_of_capture? hliterals captured
      have hweave := h.weaving
      rw [weaving, hliterals] at hweave
      rw [hliterals] at hlength
      cases other with
      | nil => cases hlength
      | cons x other =>
          rw [weave, weave_eq_append, hs, List.append_assoc] at hweave
          have htail : (x ++ weave [] literals other) ++ l.tail = between ++ l.tail := by
            rw [List.append_assoc]
            exact List.append_cancel_left hweave
          have hbetween := List.append_cancel_right htail
          rcases eq_or_longer_of_cut hcut (Nat.succ.inj hlength) hbetween with ⟨rfl, rfl⟩ | longer
          · exact .inl rfl
          · exact .inr longer

/-- A line that is one whole token captures every text. -/
theorem cuts_of_whole? {t : Token} (whole : l.whole? = some t) (s : Text) : l.Cuts s [s] := by
  obtain ⟨runs, tail⟩ := l
  unfold whole? at whole
  split at whole
  · next hruns htail =>
    cases hruns
    cases htail
    refine ⟨rfl, ?_⟩
    simp [weaving, literals, weave]
  · cases whole

/-- Nothing is recovered from a text that has no cut, and the first token is named. -/
theorem recover_eq_mismatch [Engine] {produced : Option Json} (htokens : l.tokens ≠ [])
    (accepted : l.Accepted) (hs : producedText? produced = some s)
    (uncaptured : l.capture? s = none) :
    l.recover produced = .error (.mismatch l.firstExpression) := by
  have notWhole : l.whole? = none := by
    cases whole : l.whole? with
    | none => rfl
    | some t =>
        obtain ⟨texts, captured⟩ := (cuts_of_whole? whole s).exists_capture?
        cases captured.symm.trans uncaptured
  apply recover_of_captures_eq_error htokens notWhole
  unfold captures
  rw [hs]
  dsimp only
  rw [accepted htokens notWhole, uncaptured]

/-- **Capturing finds the longest of all cuts.**  It finds texts exactly if there is a cut; these are
a cut, and any other cut has a shorter text where the two first differ.  If there is none and the
engine takes the pattern of the line, recovering from that text is a mismatch that names the first
token. -/
theorem capture?_eq_some_iff_longest [Engine] {d : Delimiters} {source : String}
    (hline : Line.ofText d source.toList = .ok l) (htokens : l.tokens ≠ []) (s : Text) :
    ((∃ texts, l.capture? s = some texts) ↔ ∃ texts, l.Cuts s texts) ∧
      (∀ texts, l.capture? s = some texts ↔
        l.Cuts s texts ∧ ∀ other, l.Cuts s other → other = texts ∨ Longer texts other) ∧
      (l.capture? s = none → l.Accepted → ∃ t, l.tokens.head? = some t ∧
        ∀ produced, producedText? produced = some s →
          recoverString d source produced = .error (.mismatch t.expression)) := by
  refine ⟨⟨?_, ?_⟩, ?_, ?_⟩
  · rintro ⟨texts, captured⟩
    exact ⟨texts, cuts_of_capture? captured⟩
  · rintro ⟨texts, h⟩
    exact h.exists_capture?
  · intro texts
    refine ⟨fun captured => ⟨cuts_of_capture? captured, fun other h => ?_⟩, fun ⟨h, longest⟩ => ?_⟩
    · exact eq_or_longer_of_capture? captured h
    · obtain ⟨texts', captured⟩ := h.exists_capture?
      rcases longest texts' (cuts_of_capture? captured) with rfl | longer
      · exact captured
      · rcases eq_or_longer_of_capture? captured h with rfl | longer'
        · exact captured
        · exact absurd longer longer'.asymm
  · intro uncaptured accepted
    obtain ⟨t, rest, ht⟩ := List.exists_cons_of_ne_nil htokens
    refine ⟨t, by rw [ht]; rfl, ?_⟩
    intro produced hs
    rw [recoverString, hline, ok_bind, recover_eq_mismatch htokens accepted hs uncaptured,
      firstExpression, ht]
    rfl

/-- The line of `[<a>-<b>.*<c>`. -/
def starred : Line :=
  ⟨[(['['], ⟨.asIs, "a".toList, none, "a".toList, "<a>".toList⟩),
    (['-'], ⟨.asIs, "b".toList, none, "b".toList, "<b>".toList⟩),
    (".*".toList, ⟨.asIs, "c".toList, none, "c".toList, "<c>".toList⟩)], []⟩

theorem capture?_eq_some_iff_longest_starred :
    Line.ofText Template.angles.delimiters "[<a>-<b>.*<c>".toList = .ok starred ∧
      starred.tokens ≠ [] ∧
      (∀ other, starred.Cuts "[1-2-3.*4.*\n5".toList other →
        other = ["1-2".toList, "3.*4".toList, "\n5".toList] ∨
          Longer ["1-2".toList, "3.*4".toList, "\n5".toList] other) ∧
      recoverString Template.angles.delimiters "[<a>-<b>.*<c>" (some (.str "[1-2.3")) =
        .error (.mismatch "a".toList) := by
  have hline : Line.ofText Template.angles.delimiters "[<a>-<b>.*<c>".toList = .ok starred := by
    with_unfolding_all rfl
  have htokens : starred.tokens ≠ [] := List.cons_ne_nil _ _
  obtain ⟨-, longest, -⟩ := capture?_eq_some_iff_longest hline htokens "[1-2-3.*4.*\n5".toList
  obtain ⟨-, -, mismatch⟩ := capture?_eq_some_iff_longest hline htokens "[1-2.3".toList
  refine ⟨hline, htokens, ((longest _).1 (by decide +kernel)).2, ?_⟩
  obtain ⟨t, ht, hrecover⟩ := mismatch (by decide +kernel) (by decide +kernel)
  cases ht
  exact hrecover _ rfl

end Line

end Stencil
