import Stencil.Line.Basic
import Stencil.Text.Search

/-!
# What the tokens of a line stand for in a text

A text that was made from a line holds the literal texts of the line, in their
order, with the texts of the tokens between them.  Capturing finds those texts
again.  There can be several ways to cut the text along the literal texts; the
first token gets as much as it can, then the second, and so on.

The literal texts in front of the first token and behind the last one must be at
the ends of the text.  For those between, the greedy choice means that each is cut
out at its last occurrence, and that the last of them is cut out first: then every
one stands as far to the right as those behind it allow.
-/

namespace Stencil.Line

set_option autoImplicit false

/-- What lies before the first of the literal texts, and behind each of them, when each is cut out
at its last possible place. -/
def cut : List Text → Text → Option (Text × List Text)
  | [], s => some (s, [])
  | literal :: literals, s => do
    let (front, captures) ← cut literals s
    let (before, after) ← Text.splitLast? literal front
    return (before, after :: captures)

/-- The text without the given end. -/
def dropEnd? (literal s : Text) : Option Text :=
  (literal.reverse.isPrefixOf? s.reverse).map List.reverse

/-- The texts that the tokens of the line stand for in the text, from the first token on. -/
def capture? (l : Line) (s : Text) : Option (List Text) :=
  match l.runs.map Prod.fst with
  | [] => if s = l.tail then some [] else none
  | first :: literals => do
    let s ← first.isPrefixOf? s
    let s ← dropEnd? l.tail s
    let (before, captures) ← cut literals s
    return before :: captures

end Stencil.Line
