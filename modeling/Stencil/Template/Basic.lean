import Stencil.Json.Basic

/-!
# Templates

A template is a JSON tree whose strings may hold tokens.  Keys of objects are not
looked at for tokens, so what matters of a template are its string leaves, in the
order in which they stand in the document.

A tree that the template became has the same shape around those leaves.
`leaves` pairs every string with what such a tree has at its place.  Keys are
looked up in objects and positions in arrays only; where the tree has another
shape there is nothing at the place of the string.
-/

namespace Stencil

set_option autoImplicit false

/-- A tree whose strings may hold tokens. -/
abbrev Template := Json

namespace Template

mutual

/-- The strings of the template, each with what the result has at its place. -/
def leaves : Json → Option Json → List (String × Option Json)
  | .str s, result => [(s, result)]
  | .arr xs, result => leavesItems xs ((result.map Json.items).getD [])
  | .obj fs, result => leavesFields fs ((result.map Json.fields).getD [])
  | _, _ => []

/-- The strings of the elements, each with what the elements of the result have at its place. -/
def leavesItems : List Json → List Json → List (String × Option Json)
  | [], _ => []
  | x :: xs, results => leaves x results.head? ++ leavesItems xs results.tail

/-- The strings of the members, each with what the members of the result have at its place. -/
def leavesFields : List (String × Json) → List (String × Json) → List (String × Option Json)
  | [], _ => []
  | (k, v) :: fs, results => leaves v (results.lookup k) ++ leavesFields fs results

end

/-- The strings of the template in the order of the document. -/
def strings (t : Template) : List String :=
  (leaves t none).map Prod.fst

end Template

end Stencil
