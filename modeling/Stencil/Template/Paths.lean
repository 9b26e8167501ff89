import Stencil.Line.Reader
import Stencil.Template.Basic

/-!
# The paths that a template refers to

The texts of the paths of all tokens, in the order of the document.  A text that
occurs more than once is listed where it occurs first.
-/

namespace Stencil.Template

set_option autoImplicit false

/-- The list with the text at its end, unless the list has it already. -/
def addNew (paths : List Text) (path : Text) : List Text :=
  if path ∈ paths then paths else paths ++ [path]

/-- The list with the paths of one string. -/
def addPaths (d : Delimiters) (paths : List Text) (s : String) : Except Fault (List Text) := do
  let line ← Line.ofText d s.toList
  return (line.tokens.map Token.path).foldl addNew paths

/-- The paths that the template refers to. -/
def paths (d : Delimiters) (t : Template) : Except Fault (List Text) :=
  t.strings.foldlM (addPaths d) []

end Stencil.Template
