import Stencil.Json.Reader

/-!
# Skipping JSON

A value that nobody asks for is skipped: it is read for its form alone.  So a number
may be too large for any double, half a surrogate pair may stand alone in a string, and
arrays and objects may lie inside each other as deep as the text is long.
-/

namespace Stencil.Json

set_option autoImplicit false

/-- Reads the form of a value and nothing else. -/
abbrev Skipper := Reader Unit

/-- What is left behind a form. -/
def skipped {α : Type} (parts : α × Text) : Unit × Text :=
  ((), parts.2)

/-- Skips a string whose opening quote has been read. -/
def skipString : Skipper := fun s => do
  let (raw, rest) ← Quoted.cutAtQuote s
  if Quoted.isWellEscaped raw then some ((), rest) else none

/-- Skips a number, which goes as far as there are characters of numbers. -/
def skipNumber : Skipper := fun s => do
  let n ← Numeral.ofText? (s.takeWhile isNumberChar)
  if n.IsJson then some ((), s.dropWhile isNumberChar) else none

/-- Skips a word, a number or a string. -/
def skipScalar : Skipper
  | '"' :: s => skipString s
  | s =>
    match readWord s with
    | some parts => some (skipped parts)
    | none => skipNumber s

/-- Skips a key, the colon and the value. -/
def skipMember (value : Skipper) : Skipper
  | '"' :: s => do
    let (_, s) ← skipString s
    match skipSpace s with
    | ':' :: s => value (skipSpace s)
    | _ => none
  | _ => none

/-- Skips a value in which at most `depth` arrays and objects lie inside each other. -/
def skipValue : Nat → Skipper
  | 0 => skipScalar
  | depth + 1 => fun s =>
    match s with
    | '[' :: s => (readSequence (skipValue depth) ']' s).map skipped
    | '{' :: s => (readSequence (skipMember (skipValue depth)) '}' s).map skipped
    | s => skipScalar s

end Stencil.Json
