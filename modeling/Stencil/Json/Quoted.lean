import Stencil.Text.Basic

/-!
# Quoted strings

A string is written between double quotes.  The quote, the backslash and the
characters below `U+0020` are written as escapes: the seven that have a letter
as a backslash with the letter, the others as `\u` with four hexadecimal digits.

Reading goes in two steps.  `cutAtQuote` finds the closing quote, which is the
first quote that no backslash protects, and `unescape` replaces the escapes of
what lies before it.  The reader accepts more than the writer makes: `\/`, any
character in its `\u` form, and a character beyond `U+FFFF` as two `\u` escapes
that form a surrogate pair.  Half of such a pair alone is refused, and so is a
raw character below `U+0020`.
-/

namespace Stencil.Quoted

set_option autoImplicit false

/-- The letter that stands for the character in an escape. -/
def letter? : Char → Option Char
  | '"' => some '"'
  | '\\' => some '\\'
  | '\x08' => some 'b'
  | '\x0c' => some 'f'
  | '\n' => some 'n'
  | '\r' => some 'r'
  | '\t' => some 't'
  | _ => none

/-- The character that the letter of an escape stands for. -/
def unletter? : Char → Option Char
  | '"' => some '"'
  | '\\' => some '\\'
  | '/' => some '/'
  | 'b' => some '\x08'
  | 'f' => some '\x0c'
  | 'n' => some '\n'
  | 'r' => some '\r'
  | 't' => some '\t'
  | _ => none

/-! ## Writing -/

/-- The written form of one character. -/
def escapeChar (c : Char) : Text :=
  match letter? c with
  | some l => ['\\', l]
  | none =>
    if c.toNat < 0x20 then
      ['\\', 'u', '0', '0', Nat.digitChar (c.toNat / 16), Nat.digitChar (c.toNat % 16)]
    else [c]

/-- The written form of a string, without its quotes. -/
def escape (s : Text) : Text :=
  s.flatMap escapeChar

/-- The string between quotes. -/
def quote (s : Text) : Text :=
  '"' :: escape s ++ ['"']

/-! ## Reading -/

/-- The value of a hexadecimal digit in either case. -/
def hexDigit? (c : Char) : Option Nat :=
  if '0' ≤ c ∧ c ≤ '9' then some (c.toNat - '0'.toNat)
  else if 'a' ≤ c ∧ c ≤ 'f' then some (c.toNat - 'a'.toNat + 10)
  else if 'A' ≤ c ∧ c ≤ 'F' then some (c.toNat - 'A'.toNat + 10)
  else none

/-- The value of four hexadecimal digits. -/
def hexUnit? (a b c d : Char) : Option Nat := do
  let a ← hexDigit? a
  let b ← hexDigit? b
  let c ← hexDigit? c
  let d ← hexDigit? d
  return ((a * 16 + b) * 16 + c) * 16 + d

/-- Whether the unit is the first half of a surrogate pair. -/
def isHighUnit (n : Nat) : Bool := 0xd800 ≤ n && n < 0xdc00

/-- Whether the unit is the second half of a surrogate pair. -/
def isLowUnit (n : Nat) : Bool := 0xdc00 ≤ n && n < 0xe000

/-- The string with its escapes replaced, or none if an escape is malformed or a character that
needs one stands without. -/
def unescape : Text → Option Text
  | [] => some []
  | '\\' :: 'u' :: a :: b :: c :: d :: rest =>
    match hexUnit? a b c d with
    | none => none
    | some high =>
      if isHighUnit high then
        match rest with
        | '\\' :: 'u' :: e :: f :: g :: h :: rest =>
          match hexUnit? e f g h with
          | none => none
          | some low =>
            if isLowUnit low then
              let c := Char.ofNat (0x10000 + (high - 0xd800) * 0x400 + (low - 0xdc00))
              (unescape rest).map (c :: ·)
            else none
        | _ => none
      else if isLowUnit high then none
      else (unescape rest).map (Char.ofNat high :: ·)
  | '\\' :: l :: rest =>
    match unletter? l with
    | none => none
    | some c => (unescape rest).map (c :: ·)
  | c :: rest =>
    if c = '\\' ∨ c = '"' ∨ c.toNat < 0x20 then none else (unescape rest).map (c :: ·)

/-- Whether every escape in the text has its form, and no character stands there that needs one.
What the escapes stand for does not matter. -/
def isWellEscaped : Text → Bool
  | [] => true
  | '\\' :: 'u' :: a :: b :: c :: d :: rest => (hexUnit? a b c d).isSome && isWellEscaped rest
  | '\\' :: l :: rest => (unletter? l).isSome && isWellEscaped rest
  | c :: rest => c != '\\' && c != '"' && 0x20 ≤ c.toNat && isWellEscaped rest

/-- What lies before the first quote that no backslash protects, and what follows that quote. -/
def cutAtQuote : Text → Option (Text × Text)
  | [] => none
  | '"' :: rest => some ([], rest)
  | '\\' :: c :: rest => (cutAtQuote rest).map fun parts => ('\\' :: c :: parts.1, parts.2)
  | c :: rest => (cutAtQuote rest).map fun parts => (c :: parts.1, parts.2)

/-- What follows the closing quote is the end of the text. -/
theorem suffix_of_cutAtQuote {s raw rest : Text} (h : cutAtQuote s = some (raw, rest)) :
    rest <:+ s := by
  fun_induction cutAtQuote s generalizing raw with
  | case1 => cases h
  | case2 rest' => cases h; exact List.suffix_cons _ _
  | case3 c s' ih =>
    simp only [Option.map_eq_some_iff, Prod.mk.injEq] at h
    obtain ⟨parts, hparts, -, rfl⟩ := h
    exact ((ih hparts).trans (List.suffix_cons _ _)).trans (List.suffix_cons _ _)
  | case4 c s' _ _ ih =>
    simp only [Option.map_eq_some_iff, Prod.mk.injEq] at h
    obtain ⟨parts, hparts, -, rfl⟩ := h
    exact (ih hparts).trans (List.suffix_cons _ _)

/-- The string whose opening quote has been read, and what follows its closing quote. -/
def read (s : Text) : Option (Text × Text) := do
  let (raw, rest) ← cutAtQuote s
  let text ← unescape raw
  return (text, rest)

theorem suffix_of_read {s text rest : Text} (h : read s = some (text, rest)) : rest <:+ s := by
  simp only [read, Option.bind_eq_bind, Option.bind_eq_some_iff] at h
  obtain ⟨⟨raw, rest'⟩, hcut, text', -, heq⟩ := h
  cases heq
  exact suffix_of_cutAtQuote hcut

end Stencil.Quoted
