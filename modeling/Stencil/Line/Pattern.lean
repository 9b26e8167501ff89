import Stencil.Line.Basic

/-!
# The pattern of a line

To find out what the tokens of a line stand for in a text, the text is matched against
a pattern: the literal texts of the line as they are, between them a group for each
token that matches anything, and all of it from the start of the text to its end.

An engine compiles the pattern before anything is matched.  The engine is not part of
this library.  How it matches these patterns is known (`Stencil.Line.capture?`), but
not which of them it takes, because it may refuse one whose program would take too
much memory.  So the engine is a parameter, and what is said of it here is only why it
refuses a pattern.
-/

namespace Stencil

set_option autoImplicit false

/-! ## Patterns -/

/-- Whether the character has a meaning of its own in patterns. -/
def isMeta (c : Char) : Bool :=
  ['\\', '.', '+', '*', '?', '(', ')', '|', '[', ']', '\x7b', '\x7d', '^', '$', '#', '&', '-',
    '~'].contains c

/-- The pattern that matches this text only. -/
def escapeMeta (s : Text) : Text :=
  s.flatMap fun c => if isMeta c then ['\\', c] else [c]

namespace Line

/-- The group that stands for a token. -/
def group : Text :=
  ['(', '.', '*', ')']

/-- The pattern that matches the texts that the line can become. -/
def pattern (l : Line) : Text :=
  ['(', '?', 's', ')', '^'] ++ l.runs.flatMap (fun run => escapeMeta run.1 ++ group) ++
    escapeMeta l.tail ++ ['$']

end Line

/-! ## The engine -/

/-- What matches texts against patterns. -/
class Engine where
  /-- Why the engine refuses the pattern, or none if it takes it. -/
  refusal? (pattern : Text) : Option Text

namespace Engine

/-- How much memory the program for a pattern may take, in bytes. -/
def memoryLimit : Nat := 10485760

/-- About how much memory the program for a pattern takes, added to what is taken already: one state
of 32 bytes for each byte of literal text, and some sixteen for a group. -/
def memoryFrom (taken : Nat) : Text → Nat
  | '(' :: '.' :: '*' :: ')' :: s => memoryFrom (taken + 520) s
  | '\\' :: c :: s => memoryFrom (taken + 32 * c.utf8Size) s
  | c :: s => memoryFrom (taken + 32 * c.utf8Size) s
  | [] => taken

/-- Why a pattern is refused whose program takes too much memory. -/
def tooLarge : Text :=
  "Compiled regex exceeds size limit of ".toList ++ Nat.toDigits 10 memoryLimit ++ " bytes.".toList

/-- The engine that the program runs with.  It refuses patterns whose programs take too much memory.
The real engine counts the memory of the program as it builds it; here it is only estimated, so the
two can differ on patterns that come close to the limit. -/
instance limited : Engine where
  refusal? pattern := if memoryLimit < memoryFrom 0 pattern then some tooLarge else none

end Engine

end Stencil
