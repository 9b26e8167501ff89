import Stencil.Line.Fill
import Stencil.Template.Basic

/-!
# Filling a template

Every string of the template is filled with the data, and everything else stays
as it is.  The strings are filled in the order of the document, and the first one
that cannot be filled decides.
-/

namespace Stencil.Template

set_option autoImplicit false

mutual

/-- The tree that the template becomes. -/
def fill (o : Options) (data : Json) : Json → Except Fault Json
  | .str s => fillString o data s
  | .arr xs => do
    let ys ← fillItems o data xs
    return .arr ys
  | .obj fs => do
    let gs ← fillFields o data fs
    return .obj gs
  | v => .ok v

/-- The elements that the elements of a template become. -/
def fillItems (o : Options) (data : Json) : List Json → Except Fault (List Json)
  | [] => .ok []
  | x :: xs => do
    let y ← fill o data x
    let ys ← fillItems o data xs
    return y :: ys

/-- The members that the members of a template become. -/
def fillFields (o : Options) (data : Json) :
    List (String × Json) → Except Fault (List (String × Json))
  | [] => .ok []
  | (k, v) :: fs => do
    let w ← fill o data v
    let gs ← fillFields o data fs
    return (k, w) :: gs

end

end Stencil.Template
