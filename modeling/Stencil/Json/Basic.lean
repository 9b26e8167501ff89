import Stencil.Json.Number

/-!
# JSON trees

A tree is null, a truth value, a number, a string, an array of trees or an
object.  The members of an object are a list of keys with their trees, in the
order in which the keys first arrived.

The type itself does not forbid that a key occurs twice, because the members are
nested inside it.  `Json.WellFormed` says that no object in the tree has a key
twice; reading, assigning and merging only make such trees.

Two operations change a container in one place.  `putKey` gives a key a value:
the key keeps its position, or goes to the end if it is new.  `putIndex` gives an
index a value: an array that is too short is first filled up with nulls.
-/

namespace Stencil

set_option autoImplicit false

/-- A JSON tree. -/
inductive Json where
  | null
  | bool (b : Bool)
  | num (n : Number)
  | str (s : String)
  | arr (items : List Json)
  | obj (fields : List (String × Json))

namespace Json

instance : Inhabited Json := ⟨null⟩

/-- Whether the tree is null. -/
def isNull : Json → Bool
  | null => true
  | _ => false

/-- Whether the tree is an object. -/
def isObj : Json → Bool
  | obj _ => true
  | _ => false

/-- The members of an object; no other tree has any. -/
def fields : Json → List (String × Json)
  | obj fs => fs
  | _ => []

/-- The elements of an array; no other tree has any. -/
def items : Json → List Json
  | arr xs => xs
  | _ => []

/-- The members with the key set to the tree. -/
def putKey (k : String) (v : Json) : List (String × Json) → List (String × Json)
  | [] => [(k, v)]
  | (l, w) :: fs => if l = k then (k, v) :: fs else (l, w) :: putKey k v fs

/-- The elements with the index set to the tree, filled up with nulls as far as needed. -/
def putIndex (v : Json) : Nat → List Json → List Json
  | 0, [] => [v]
  | 0, _ :: xs => v :: xs
  | i + 1, [] => null :: putIndex v i []
  | i + 1, x :: xs => x :: putIndex v i xs

mutual

/-- No object in the tree has a key twice. -/
def WellFormed : Json → Prop
  | arr xs => WellFormedItems xs
  | obj fs => (fs.map Prod.fst).Nodup ∧ WellFormedFields fs
  | _ => True

/-- No object in the elements has a key twice. -/
def WellFormedItems : List Json → Prop
  | [] => True
  | x :: xs => WellFormed x ∧ WellFormedItems xs

/-- No object in the values of the members has a key twice. -/
def WellFormedFields : List (String × Json) → Prop
  | [] => True
  | (_, v) :: fs => WellFormed v ∧ WellFormedFields fs

end

/-! ## What the changed container holds -/

@[simp] theorem lookup_putKey_self (k : String) (v : Json) (fs : List (String × Json)) :
    (putKey k v fs).lookup k = some v := by
  induction fs with
  | nil => simp [putKey]
  | cons f fs ih =>
    obtain ⟨l, w⟩ := f
    by_cases h : l = k
    · simp [putKey, h]
    · have h' : (k == l) = false := by simpa using Ne.symm h
      simp [putKey, h, List.lookup_cons, h', ih]

theorem lookup_putKey_of_ne {k l : String} (v : Json) (fs : List (String × Json)) (h : l ≠ k) :
    (putKey k v fs).lookup l = fs.lookup l := by
  induction fs with
  | nil =>
    have h' : (l == k) = false := by simpa using h
    simp [putKey, List.lookup_cons, h']
  | cons f fs ih =>
    obtain ⟨m, w⟩ := f
    by_cases hm : m = k
    · subst hm
      have h' : (l == m) = false := by simpa using h
      simp [putKey, List.lookup_cons, h']
    · simp [putKey, hm, List.lookup_cons, ih]

@[simp] theorem getElem?_putIndex_self (v : Json) (i : Nat) (xs : List Json) :
    (putIndex v i xs)[i]? = some v := by
  induction i generalizing xs with
  | zero => cases xs <;> rfl
  | succ i ih => cases xs <;> simp [putIndex, ih]

end Json

end Stencil
