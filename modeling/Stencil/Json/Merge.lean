import Stencil.Json.Basic

/-!
# Merging one tree into another

Merging adds what the source holds to the target.  Two objects are merged key by
key and two arrays index by index; new keys go to the end and elements past the
end of the target are appended.  Wherever the two trees are not containers of the
same kind the source wins.

A null in an array of the source is no value: it fills the gap in front of an
index that was assigned (`Json.putIndex`), so it leaves an element of the target
as it is.
-/

namespace Stencil.Json

set_option autoImplicit false

mutual

/-- The target with the source merged into it. -/
def merge : Json → Json → Json
  | obj fs, obj gs => obj (mergeFields fs gs)
  | arr xs, arr ys => arr (mergeItems xs ys)
  | _, v => v

/-- The members of the target with those of the source merged into them. -/
def mergeFields (fs : List (String × Json)) : List (String × Json) → List (String × Json)
  | [] => fs
  | (k, v) :: gs =>
    let merged := match fs.lookup k with
      | some old => merge old v
      | none => v
    mergeFields (putKey k merged fs) gs

/-- The elements of the target with those of the source merged into them. -/
def mergeItems : List Json → List Json → List Json
  | xs, [] => xs
  | [], ys => ys
  | x :: xs, y :: ys => (if y.isNull then x else merge x y) :: mergeItems xs ys

end

@[simp] theorem merge_obj (fs gs : List (String × Json)) :
    merge (obj fs) (obj gs) = obj (mergeFields fs gs) := by
  simp [merge]

@[simp] theorem merge_arr (xs ys : List Json) : merge (arr xs) (arr ys) = arr (mergeItems xs ys) := by
  simp [merge]

end Stencil.Json
