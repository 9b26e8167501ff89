import Stencil.Text.Basic

/-!
# Blank characters and trimming

A character is blank when it has the Unicode property `White_Space`.  These are
twenty-five characters, among them the no-break space and the ideographic space,
so the test is wider than the four characters that separate the tokens of a JSON
document (`Stencil.Json.Reader` has its own test for those).

Trimming removes the blank characters at the ends of a text.  What is left
starts and ends with a character that is not blank, and trimming it again
changes nothing.
-/

namespace Stencil.Text

set_option autoImplicit false

/-- The first and the last character of each run of blank characters. -/
def blankRanges : List (Char × Char) :=
  [('\x09', '\x0d'), (' ', ' '), ('\u0085', '\u0085'), ('\u00a0', '\u00a0'),
   ('\u1680', '\u1680'), ('\u2000', '\u200a'), ('\u2028', '\u2029'),
   ('\u202f', '\u202f'), ('\u205f', '\u205f'), ('\u3000', '\u3000')]

/-- Whether the character has the Unicode property `White_Space`. -/
def isBlank (c : Char) : Bool :=
  blankRanges.any fun r => decide (r.1 ≤ c) && decide (c ≤ r.2)

-- the table holds the twenty-five characters of the property
example : blankRanges.foldl (fun n r => n + (r.2.toNat + 1 - r.1.toNat)) 0 = 25 := by decide

/-- Every character that core calls whitespace is blank. -/
theorem isBlank_of_isWhitespace {c : Char} (h : c.isWhitespace = true) : isBlank c = true := by
  simp only [Char.isWhitespace, Bool.or_eq_true, decide_eq_true_eq] at h
  rcases h with ((h | h) | h) | h <;> subst h <;> decide

/-- The text without the blank characters at its start. -/
def trimStart (s : Text) : Text :=
  s.dropWhile isBlank

/-- The text without the blank characters at its end. -/
def trimEnd (s : Text) : Text :=
  (s.reverse.dropWhile isBlank).reverse

/-- The text without the blank characters at either end. -/
def trim (s : Text) : Text :=
  trimEnd (trimStart s)

@[simp] theorem trimStart_nil : trimStart [] = [] := rfl

theorem trimStart_cons_of_isBlank {c : Char} (s : Text) (h : isBlank c = true) :
    trimStart (c :: s) = trimStart s := by
  simp [trimStart, h]

theorem trimStart_cons_of_not_isBlank {c : Char} (s : Text) (h : isBlank c = false) :
    trimStart (c :: s) = c :: s := by
  simp [trimStart, h]

/-- Only characters at the front are dropped. -/
theorem trimStart_isSuffix (s : Text) : trimStart s <:+ s :=
  List.dropWhile_suffix _

theorem length_trimStart_le (s : Text) : (trimStart s).length ≤ s.length :=
  (trimStart_isSuffix s).length_le

/-- Only characters at the back are dropped. -/
theorem trimEnd_isPrefix (s : Text) : trimEnd s <+: s := by
  have h := List.dropWhile_suffix isBlank (l := s.reverse)
  simpa [trimEnd] using List.reverse_prefix.2 h

end Stencil.Text
