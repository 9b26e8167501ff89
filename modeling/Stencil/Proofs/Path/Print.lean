import Stencil.Proofs.Path.Reader

/-!
# Printing a path

A path is printed step by step.  An index stands in brackets.  A key stands behind a
point if it can be written without quotes, and else in brackets between double quotes.
A double quote in the key that a closing bracket follows would end the key, so a key
with one stands between single quotes.  A key that has such a quote of either kind
cannot be written at all.

The paths without such keys, and with indexes below the bound, are the `Printable` ones.
Reading gives back every printable path from its print, and it never gives any other
path, from whatever text (`printable_iff_ofText`).
-/

set_option autoImplicit false

namespace Stencil

variable {s rest k : Text} {segment : Segment} {p : Path} {q : Char}

/-! ## The printed text -/

namespace Path

/-- The key can be written without quotes. -/
def IsBareKey (k : Text) : Prop :=
  k ≠ [] ∧ ∀ c ∈ k, isBare c = true

instance (k : Text) : Decidable (IsBareKey k) :=
  decidable_of_iff (k ≠ [] ∧ k.all isBare = true) (and_congr_right' List.all_eq_true)

/-- The quote that the key is written between. -/
def quoteFor (k : Text) : Char :=
  if ClosesIn '"' k then '\'' else '"'

end Path

open Stencil.Path

/-- The step with the point or the bracket that it starts with. -/
def Segment.print : Segment → Text
  | .index i => '[' :: (indexText i ++ [']'])
  | .key k =>
    if IsBareKey k.toList then '.' :: k.toList
    else '[' :: quoteFor k.toList :: (k.toList ++ [quoteFor k.toList, ']'])

/-- The step can be written: an index below the bound, or a key that does without quotes or that one
of the quotes does not close. -/
def Segment.Printable : Segment → Prop
  | .index i => i < indexBound
  | .key k => IsBareKey k.toList ∨ ¬ ClosesIn '"' k.toList ∨ ¬ ClosesIn '\'' k.toList

namespace Path

/-- The text of the path.  The point in front of a key that comes first is left out. -/
def print (p : Path) : Text :=
  match p.flatMap Segment.print with
  | '.' :: s => s
  | s => s

/-- The path has a step, and all of its steps can be written. -/
structure Printable (p : Path) : Prop where
  nonempty : p ≠ []
  segments : ∀ segment ∈ p, segment.Printable

example : print [.key "a", .key "b.c", .index 7, .key "", .key "[d\"]", .key "it's]"] =
    "a[\"b.c\"][7][\"\"]['[d\"]'].it's]".toList := by decide +kernel

/-! ## What is printed is read back -/

theorem readBracket_quoteFor (h : ¬ ClosesIn '"' k ∨ ¬ ClosesIn '\'' k) (rest : Text) :
    readBracket (quoteFor k :: (k ++ [quoteFor k, ']'] ++ rest)) =
      .ok (.key (String.ofList k), rest) := by
  have hquote : isQuote (quoteFor k) = true ∧ ¬ ClosesIn (quoteFor k) k := by
    unfold quoteFor
    split
    · next hclose => exact ⟨rfl, h.resolve_left (not_not_intro hclose)⟩
    · next hopen => exact ⟨rfl, hopen⟩
  have hread := readBracket_quoted blank_nil hquote.1 (k ++ [quoteFor k, ']'] ++ rest)
  rw [List.nil_append] at hread
  rw [hread, readQuoted_key hquote.1 hquote.2]

theorem indexText_ne_nil (i : Nat) : indexText i ≠ [] :=
  Nat.toDigits_ne_nil

theorem isDigit_of_mem_indexText {i : Nat} : ∀ c ∈ indexText i, c.isDigit = true :=
  fun _ hc => Nat.isDigit_of_mem_toDigits (by decide) (by decide) hc

theorem indexOfText?_indexText {i : Nat} (h : i < indexBound) :
    indexOfText? (indexText i) = some i := by
  have hvalue : Nat.ofDigitChars 10 (indexText i) 0 = i := Nat.ofDigitChars_ten_toDigits
  rw [indexOfText?_of_digits (indexText_ne_nil i) isDigit_of_mem_indexText, hvalue, if_pos h]

theorem readBracket_indexText {i : Nat} (h : i < indexBound) (rest : Text) :
    readBracket (indexText i ++ ']' :: rest) = .ok (.index i, rest) := by
  have hread := readBracket_digits blank_nil blank_nil (indexText_ne_nil i) isDigit_of_mem_indexText
    rest
  rwa [List.nil_append, List.append_nil, indexOfText?_indexText h] at hread

/-- **A printed step is read back**, and reading goes on behind it. -/
theorem readSteps_print (printable : segment.Printable) (ended : Ended rest) :
    readSteps (segment.print ++ rest) = (readSteps rest).map (segment :: ·) := by
  cases segment with
  | index i =>
      rw [Segment.print, List.cons_append, List.append_assoc, readSteps_bracket,
        List.singleton_append, readBracket_indexText printable]
      rfl
  | key k =>
      by_cases bare : IsBareKey k.toList
      · rw [Segment.print, if_pos bare, List.cons_append, readSteps_point bare.1 bare.2 ended,
          String.ofList_toList]
      · rw [Segment.print, if_neg bare, List.cons_append, List.cons_append, readSteps_bracket,
          readBracket_quoteFor (printable.resolve_left bare), String.ofList_toList]
        rfl

theorem ended_print (segment : Segment) (rest : Text) : Ended (segment.print ++ rest) := by
  cases segment with
  | index i => exact ended_bracket _
  | key k =>
      by_cases bare : IsBareKey k.toList
      · rw [Segment.print, if_pos bare]
        exact ended_point _
      · rw [Segment.print, if_neg bare]
        exact ended_bracket _

theorem readSteps_flatMap_print (printable : ∀ segment ∈ p, segment.Printable) :
    readSteps (p.flatMap Segment.print) = .ok p := by
  induction p with
  | nil => exact readSteps_nil
  | cons segment p ih =>
      obtain ⟨hsegment, hp⟩ := List.forall_mem_cons.1 printable
      have ended : Ended (p.flatMap Segment.print) := by
        cases p with
        | nil => exact nofun
        | cons next p => exact ended_print next _
      rw [List.flatMap_cons, readSteps_print hsegment ended, ih hp]
      rfl

/-- **A printable path is read back from its print.** -/
theorem ofText_print_of_printable (printable : p.Printable) : ofText p.print = .ok p := by
  have hread := readSteps_flatMap_print printable.segments
  obtain ⟨segment, p, rfl⟩ := List.exists_cons_of_ne_nil printable.nonempty
  rw [List.flatMap_cons] at hread
  rw [print, List.flatMap_cons]
  cases segment with
  | index i => exact hread
  | key k =>
      by_cases bare : IsBareKey k.toList
      · obtain ⟨c, k', hk⟩ := List.exists_cons_of_ne_nil bare.1
        have hc : c ≠ '[' := by
          rintro rfl
          exact absurd (bare.2 '[' (hk ▸ List.mem_cons_self)) (by decide)
        rw [Segment.print, if_pos bare, hk] at hread ⊢
        exact (ofText_cons_of_ne hc _).trans hread
      · rw [Segment.print, if_neg bare] at hread ⊢
        exact hread

/-! ## What is read is printable -/

theorem printable_of_readBracket (h : readBracket s = .ok (segment, rest)) : segment.Printable := by
  unfold readBracket at h
  split at h
  · cases h
  · next c tail hs =>
    split at h
    · next hc =>
      unfold readQuoted at h
      split at h
      · cases h
      · next key rest' hsplit =>
        cases h
        have hopen : ¬ ClosesIn c key := Text.not_infix_of_splitFirst? (by simp) hsplit
        simp only [isQuote, Bool.or_eq_true, beq_iff_eq] at hc
        right
        rw [String.toList_ofList]
        rcases hc with rfl | rfl
        · exact .inl hopen
        · exact .inr hopen
    · unfold readIndex at h
      split at h
      · cases h
      · split at h
        · next i hi =>
          cases h
          exact lt_of_indexOfText? hi
        · cases h

theorem Spells.printable (h : Spells s p) : ∀ segment ∈ p, segment.Printable := by
  induction h with
  | nil => exact nofun
  | point nonempty bare ended later ih =>
      refine List.forall_mem_cons.2 ⟨.inl ?_, ih⟩
      rw [String.toList_ofList]
      exact ⟨nonempty, bare⟩
  | bracket read later ih => exact List.forall_mem_cons.2 ⟨printable_of_readBracket read, ih⟩

/-- **A path that was read is printable**, whatever the text. -/
theorem printable_of_ofText (h : ofText s = .ok p) : p.Printable := by
  obtain ⟨c, s', hspells⟩ := exists_spells_of_ofText h
  exact ⟨fun hnil => ofText_ne_nil s (hnil ▸ h), hspells.printable⟩

/-- **The printable paths are those that are read back from their prints, and these are all paths
that can be read.** -/
theorem printable_iff_ofText (p : Path) :
    (p.Printable ↔ ofText p.print = .ok p) ∧ (p.Printable ↔ ∃ s, ofText s = .ok p) :=
  ⟨⟨ofText_print_of_printable, printable_of_ofText⟩,
    fun h => ⟨_, ofText_print_of_printable h⟩, fun ⟨_, h⟩ => printable_of_ofText h⟩

end Path

end Stencil
