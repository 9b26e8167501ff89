import Stencil.Cast
import Stencil.Delimiters
import Stencil.Path.Assign
import Stencil.Path.Reader

/-!
# What can go wrong

A fault says why an operation on a template has no answer, with the piece of text
that is to blame.  `Fault.message` is the one place where the wording is decided.
Where a text is no JSON, the wording ends there: what the reader of JSON has to say
about the text, and at which line and column, is not part of the fault.

The only fault that an operation treats in a special way is a missing variable:
filling a template can be told to leave the string with such a variable as it is.
-/

namespace Stencil

set_option autoImplicit false

/-- Why an operation on a template has no answer. -/
inductive Fault where
  /-- The data has no value for a token that has no default either. -/
  | missing (expression : Text)
  /-- A value cannot be cast to the type that its token declares. -/
  | uncastable (cause : CastFault)
  /-- A value cannot have come from the string with this first token, or that cannot be told, and
  then the whole string is named and why. -/
  | mismatch (expression : Text)
  /-- The default of a token is no JSON; why it is none is left out. -/
  | badDefault (expression : Text)
  /-- A path cannot be read, or cannot be assigned to. -/
  | badPath (path : Text) (cause : PathFault)
  /-- Two marks are no delimiters. -/
  | badDelimiters (cause : DelimiterFault)
deriving DecidableEq

/-- The text between quotes as messages show them. -/
def quoted (s : Text) : String :=
  "`" ++ String.ofList s ++ "`"

/-- The wording of the fault. -/
def CastFault.message : CastFault → String
  | notANumber s => "Cannot cast value to number: " ++ quoted s ++ " is not a number"
  | notFinite s => "Cannot cast value to number: " ++ quoted s ++ " is not finite"
  | notJson s => "Cannot cast value to object: " ++ quoted s ++ " is not valid JSON"

/-- The wording of the fault. -/
def PathFault.message : PathFault → String
  | emptyPath => "empty path"
  | emptySegment => "empty segment"
  | unterminatedBracket => "unterminated bracket"
  | badBracket => "bad bracket"
  | missingSeparator => "expected `.` or `[` after `]`"
  | indexTooLarge => "index exceeds " ++ toString maxIndex

/-- The wording of the fault. -/
def DelimiterFault.message : DelimiterFault → String
  | empty => "delimiters must not be empty"
  | equal mark => "open and close delimiters are both " ++ quoted mark

namespace Fault

/-- The wording of the fault. -/
def message : Fault → String
  | missing expression => "Missing variable: " ++ String.ofList expression
  | uncastable cause => cause.message
  | mismatch expression => "No match for " ++ String.ofList expression
  | badDefault expression => "Invalid default in " ++ quoted expression
  | badPath path cause => "Invalid property path " ++ quoted path ++ ": " ++ cause.message
  | badDelimiters cause => "Invalid delimiters: " ++ cause.message

/-- Whether a variable is missing. -/
def isMissing : Fault → Bool
  | missing _ => true
  | _ => false

end Fault

/-- The fault of an assignment that was refused an index; it names that step of the path only. -/
def Assignment.fault? (a : Assignment) : Option Fault :=
  a.refused.map fun i => .badPath ('[' :: indexText i ++ [']']) .indexTooLarge

end Stencil
