import Stencil.Line.Capture
import Stencil.Proofs.Text.Search

/-!
# Cutting a text along literal texts

Weaving puts a text behind each of a list of literal texts, and a tail behind them
all.  Capturing is an inverse of it in one direction: the texts that it finds,
woven again, give the text that was cut (`weave_of_capture?`).  It finds texts
wherever there are any (`exists_capture?`), but these need not be the ones that
were woven, since a text can have several cuts.

That the greedy search never misses a cut rests on its maximality: what it leaves
in front of the literal texts is at least as long as in any other cut, so there is
always room for the literal texts that come before.
-/

set_option autoImplicit false

namespace Stencil.Line

/-- The literal texts with a text behind each, and the tail. -/
def weave (tail : Text) : List Text → List Text → Text
  | literal :: literals, s :: texts => literal ++ s ++ weave tail literals texts
  | _, _ => tail

theorem weave_eq_append (tail : Text) (literals texts : List Text) :
    weave tail literals texts = weave [] literals texts ++ tail := by
  induction literals generalizing texts with
  | nil => rfl
  | cons literal literals ih =>
      cases texts with
      | nil => rfl
      | cons s texts => simp only [weave, ih texts, List.append_assoc]

/-! ## The greedy cut -/

/-- A greedy cut, taken apart at its first literal text. -/
theorem exists_of_cut_cons {literal : Text} {literals texts : List Text} {s before : Text}
    (h : cut (literal :: literals) s = some (before, texts)) :
    ∃ after rest, cut literals s = some (before ++ literal ++ after, rest) ∧
      texts = after :: rest := by
  simp only [cut, Option.bind_eq_bind, Option.bind_eq_some_iff] at h
  obtain ⟨⟨front, rest⟩, hcut, ⟨first, after⟩, hlast, heq⟩ := h
  cases heq
  have hfront : front = first ++ literal ++ after := Text.eq_append_of_splitLast? hlast
  exact ⟨after, rest, hfront ▸ hcut, rfl⟩

/-- The texts of a cut, woven again, give the text that was cut. -/
theorem weave_of_cut {literals : List Text} {s before : Text} {texts : List Text}
    (h : cut literals s = some (before, texts)) :
    texts.length = literals.length ∧ before ++ weave [] literals texts = s := by
  induction literals generalizing before texts with
  | nil =>
      cases h
      exact ⟨rfl, List.append_nil s⟩
  | cons literal literals ih =>
      obtain ⟨after, rest, hrest, rfl⟩ := exists_of_cut_cons h
      obtain ⟨hlength, hweave⟩ := ih hrest
      refine ⟨congrArg Nat.succ hlength, ?_⟩
      rw [← hweave]
      simp only [weave, List.append_assoc]

/-- **A text that was woven has a cut, and no cut leaves more in front than the greedy one.** -/
theorem exists_cut {literals texts : List Text} {s before : Text}
    (hlength : texts.length = literals.length) (hs : before ++ weave [] literals texts = s) :
    ∃ before' texts', cut literals s = some (before', texts') ∧
      before.length ≤ before'.length := by
  induction literals generalizing before texts with
  | nil =>
      refine ⟨s, [], rfl, ?_⟩
      rw [← hs, List.length_append]
      exact Nat.le_add_right _ _
  | cons literal literals ih =>
      cases texts with
      | nil => cases hlength
      | cons x texts =>
          have hs' : (before ++ literal ++ x) ++ weave [] literals texts = s := by
            simpa only [weave, List.append_assoc] using hs
          obtain ⟨front, inner, hcut, hle⟩ := ih (Nat.succ.inj hlength) hs'
          -- the greedy cut leaves so much in front that this literal text is still in it
          have hfront : before ++ literal ++ x <+: front :=
            List.prefix_of_prefix_length_le ⟨_, hs'⟩ ⟨_, (weave_of_cut hcut).2⟩ hle
          obtain ⟨more, hmore⟩ := hfront
          have hoccurs : front = before ++ literal ++ (x ++ more) := by
            simpa only [List.append_assoc] using hmore.symm
          obtain ⟨before', after, hlast, hle'⟩ := Text.exists_splitLast? hoccurs
          refine ⟨before', after :: inner, ?_, hle'⟩
          simp only [cut, hcut, hlast, Option.bind_eq_bind, Option.bind_some]
          rfl

/-! ## Capturing -/

theorem dropEnd?_eq_some_iff {literal s rest : Text} :
    dropEnd? literal s = some rest ↔ s = rest ++ literal := by
  simp only [dropEnd?, Option.map_eq_some_iff, Text.isPrefixOf?_eq_some_iff]
  refine ⟨fun ⟨r, hr, heq⟩ => ?_, fun h => ⟨rest.reverse, by rw [h, List.reverse_append], ?_⟩⟩
  · rw [← heq, ← List.reverse_reverse s, hr, List.reverse_append, List.reverse_reverse]
  · exact List.reverse_reverse rest

/-- The literal texts of the line. -/
def literals (l : Line) : List Text :=
  l.runs.map Prod.fst

theorem length_literals (l : Line) : l.literals.length = l.tokens.length := by
  simp [literals, tokens]

/-- What is captured, taken apart at the first literal text and at the tail. -/
theorem exists_cut_of_capture? {l : Line} {s first : Text} {literals texts : List Text}
    (hliterals : l.literals = first :: literals) (h : l.capture? s = some texts) :
    ∃ between before inner, s = first ++ (between ++ l.tail) ∧
      cut literals between = some (before, inner) ∧ texts = before :: inner := by
  rw [capture?, show l.runs.map Prod.fst = first :: literals from hliterals] at h
  simp only [Option.bind_eq_bind, Option.bind_eq_some_iff, Text.isPrefixOf?_eq_some_iff,
    dropEnd?_eq_some_iff] at h
  obtain ⟨_, rfl, between, rfl, ⟨before, inner⟩, hcut, heq⟩ := h
  cases heq
  exact ⟨between, before, inner, rfl, hcut, rfl⟩

/-- **What was captured, woven again, is the text.** -/
theorem weave_of_capture? {l : Line} {s : Text} {texts : List Text}
    (h : l.capture? s = some texts) :
    texts.length = l.literals.length ∧ weave l.tail l.literals texts = s := by
  cases hliterals : l.literals with
  | nil =>
      rw [capture?, show l.runs.map Prod.fst = [] from hliterals] at h
      dsimp only at h
      split at h
      · next hs => cases h; exact ⟨rfl, hs.symm⟩
      · cases h
  | cons first literals =>
      obtain ⟨between, before, inner, rfl, hcut, rfl⟩ := exists_cut_of_capture? hliterals h
      obtain ⟨hlength, hweave⟩ := weave_of_cut hcut
      refine ⟨congrArg Nat.succ hlength, ?_⟩
      rw [weave, weave_eq_append, ← hweave]
      simp only [List.append_assoc]

/-- **A text that was woven is captured.** -/
theorem exists_capture? {l : Line} {texts : List Text}
    (hlength : texts.length = l.literals.length) :
    ∃ texts', l.capture? (weave l.tail l.literals texts) = some texts' := by
  unfold capture?
  rw [show l.runs.map Prod.fst = l.literals from rfl]
  cases hliterals : l.literals with
  | nil => exact ⟨[], if_pos rfl⟩
  | cons first literals =>
      cases texts with
      | nil => rw [hliterals] at hlength; cases hlength
      | cons x texts =>
          rw [hliterals] at hlength
          obtain ⟨before, inner, hcut, -⟩ :=
            exists_cut (Nat.succ.inj hlength) (Eq.refl (x ++ weave [] literals texts))
          refine ⟨before :: inner, ?_⟩
          have hend : dropEnd? l.tail (x ++ weave l.tail literals texts) =
              some (x ++ weave [] literals texts) :=
            dropEnd?_eq_some_iff.2 (by rw [weave_eq_append, List.append_assoc])
          simp only [weave, List.append_assoc, Text.isPrefixOf?_append, hend, hcut,
            Option.bind_eq_bind, Option.bind_some]
          rfl

end Stencil.Line
