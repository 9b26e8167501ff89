import Stencil.Path.Basic

/-!
# Assigning a value at a path

An assignment walks along the path and makes what it needs.  At a step with a key
whatever is not an object gives way to an empty one, and at a step with an index
whatever is not an array gives way to an empty one.  A new key goes to the end of
its object, and an array that is too short is filled up with nulls.

An index above `maxIndex` is refused, so that a small text cannot ask for a huge
array.  The walk stops there.  What it has made up to that place stays, and the
place itself is left as it was; so an assignment answers with the tree that it
leaves in either case, and with the index that it refused.
-/

namespace Stencil

set_option autoImplicit false

/-- The largest index that can be assigned. -/
def maxIndex : Nat := 65536

/-- What an assignment leaves behind. -/
structure Assignment where
  /-- The tree after the assignment. -/
  tree : Json
  /-- The index at which the assignment stopped. -/
  refused : Option Nat

namespace Json

/-- Assigns the value `v` at the path. -/
def assign (v : Json) : Path → Json → Assignment
  | [], _ => ⟨v, none⟩
  | .key k :: p, t =>
    let inner := assign v p ((t.fields.lookup k).getD null)
    ⟨obj (putKey k inner.tree t.fields), inner.refused⟩
  | .index i :: p, t =>
    if maxIndex < i then ⟨t, some i⟩
    else
      let inner := assign v p (t.items[i]?.getD null)
      ⟨arr (putIndex inner.tree i t.items), inner.refused⟩

@[simp] theorem assign_nil (v t : Json) : assign v [] t = ⟨v, none⟩ := rfl

/-- An assignment is refused at the first index of its path that is too large, whatever the tree. -/
theorem refused_assign (v t : Json) (p : Path) :
    (assign v p t).refused = p.findSome? fun
      | .index i => if maxIndex < i then some i else none
      | .key _ => none := by
  induction p generalizing t with
  | nil => rfl
  | cons s p ih =>
    cases s with
    | key k => simp [assign, ih]
    | index i => by_cases h : maxIndex < i <;> simp [assign, h, ih]

end Json

end Stencil
