import Stencil.Json.Basic

/-!
# Paths into a tree

A path leads from the root of a tree to one place in it, a step at a time.  A
step names a key or an index.

Looking a path up is lenient about the two kinds of step.  In an object an index
stands for the key with its decimal text, and in an array a key stands for the
index that its text denotes, if it denotes one.  A scalar has no places in it.
-/

namespace Stencil

set_option autoImplicit false

/-- One step of a path. -/
inductive Segment where
  /-- The value of a key. -/
  | key (k : String)
  /-- The element at an index. -/
  | index (i : Nat)
deriving DecidableEq

/-- The steps from the root of a tree to a place in it. -/
abbrev Path := List Segment

/-- Indexes are numbers below this one. -/
def indexBound : Nat := 0x10000000000000000

/-- The index that a text denotes: decimal digits, which a plus sign may precede. -/
def indexOfText? (s : Text) : Option Nat :=
  let digits := match s with
    | '+' :: digits => digits
    | digits => digits
  if digits ≠ [] ∧ digits.all Char.isDigit = true ∧ Nat.ofDigitChars 10 digits 0 < indexBound then
    some (Nat.ofDigitChars 10 digits 0)
  else none

/-- The decimal text of an index. -/
def indexText (i : Nat) : Text :=
  Nat.toDigits 10 i

namespace Json

/-- What lies one step into the tree. -/
def child? : Json → Segment → Option Json
  | obj fs, .key k => fs.lookup k
  | obj fs, .index i => fs.lookup (String.ofList (indexText i))
  | arr xs, .index i => xs[i]?
  | arr xs, .key k => (indexOfText? k.toList).bind fun i => xs[i]?
  | _, _ => none

/-- What lies at the end of the path. -/
def get? (v : Json) : Path → Option Json
  | [] => some v
  | s :: p => (v.child? s).bind fun w => w.get? p

@[simp] theorem get?_nil (v : Json) : v.get? [] = some v := rfl

theorem get?_cons (v : Json) (s : Segment) (p : Path) :
    v.get? (s :: p) = (v.child? s).bind fun w => w.get? p := rfl

theorem get?_append (v : Json) (p q : Path) :
    v.get? (p ++ q) = (v.get? p).bind fun w => w.get? q := by
  induction p generalizing v with
  | nil => simp
  | cons s p ih =>
    simp only [List.cons_append, get?_cons, Option.bind_assoc]
    exact congrArg _ (funext ih)

end Json

end Stencil
