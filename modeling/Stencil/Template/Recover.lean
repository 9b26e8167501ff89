import Stencil.Line.Recover
import Stencil.Template.Basic
import Stencil.Template.Fill

/-!
# Recovering the data of a template

From a template and a tree that it became, the data it was filled with, as far as
the tokens show it.  Every string gives a fragment, and the fragments are merged in
the order of the document.

A tree fits a template if the template, filled with the data recovered from the
tree, becomes the tree again.
-/

namespace Stencil.Template

set_option autoImplicit false

variable [Engine]

/-- The data with the fragment that one string gives. -/
def learn (d : Delimiters) (data : Json) (leaf : String × Option Json) : Except Fault Json := do
  let fragment ← recoverString d leaf.1 leaf.2
  return data.merge fragment

/-- The data that the template was filled with, given the tree that it became. -/
def recover (d : Delimiters) (t : Template) (result : Json) : Except Fault Json :=
  (leaves t (some result)).foldlM (learn d) (.obj [])

/-- Whether the template can have become the tree. -/
def fits (o : Options) (t : Template) (v : Json) : Except Fault Bool := do
  let data ← recover o.delimiters t v
  match fill o.strict data t with
  | .ok again => .ok (again.same v)
  | .error (.missing _) => .ok false
  | .error fault => .error fault

end Stencil.Template
