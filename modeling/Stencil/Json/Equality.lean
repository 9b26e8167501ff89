import Stencil.Json.Basic

/-!
# Equality of JSON values

Two trees are the same value if they differ at most in the order of the members
of their objects.  Objects are compared by looking up every key of the first in
the second, and by their numbers of members.  Numbers are compared as numbers,
but an integer never equals a double.
-/

namespace Stencil.Json

set_option autoImplicit false

mutual

/-- Whether the trees are the same value. -/
def same : Json → Json → Bool
  | null, null => true
  | bool a, bool b => a == b
  | num m, num n => m.same n
  | str s, str t => s == t
  | arr xs, arr ys => sameItems xs ys
  | obj fs, obj gs => fs.length == gs.length && sameFields fs gs
  | _, _ => false

/-- Whether the lists are as long as each other and the same value in every place. -/
def sameItems : List Json → List Json → Bool
  | [], [] => true
  | x :: xs, y :: ys => same x y && sameItems xs ys
  | _, _ => false

/-- Whether every key of the first members has the same value in the second. -/
def sameFields : List (String × Json) → List (String × Json) → Bool
  | [], _ => true
  | (k, v) :: fs, gs =>
    (match gs.lookup k with
      | some w => same v w
      | none => false) && sameFields fs gs

end

instance : BEq Json := ⟨same⟩

end Stencil.Json
