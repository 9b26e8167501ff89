import Stencil.Json.Printer
import Stencil.Proofs.Json.Overwrite

/-!
# Values whose text does not depend on the order of members

The text of an object shows the order of its members, and inside an array or an
object the text of a double zero shows its sign.  Equality of values sees neither.
A rigid tree has no object with more than one member and no double zero, so it is
equal to itself alone (`eq_of_same_of_isRigid`).

A scalar is written inside a longer text without its sign of zero, so scalars and
rigid trees are the values whose text there is that of every equal value
(`FixedText.inline_eq`).
-/

set_option autoImplicit false

namespace Stencil

namespace Double

theorem same_iff {x y : Double} : x.same y = true ↔ x = y ∨ x.rank = 0 ∧ y.rank = 0 := by
  simp [same]

theorem eq_zero_of_rank {x : Double} (h : x.rank = 0) : x = zero x.neg := by
  obtain ⟨neg, rank, rank_lt⟩ := x
  cases h
  rfl

end Double

/-- Both double zeros become the integer zero. -/
theorem Number.ofDouble_zero (neg : Bool) :
    ofDouble (.zero neg) = .int 0 (by decide) (by decide) := by
  cases neg <;> decide +kernel

theorem Number.ofDouble_eq_of_same {x y : Double} (h : x.same y = true) :
    ofDouble x = ofDouble y := by
  rcases Double.same_iff.1 h with rfl | ⟨hx, hy⟩
  · rfl
  · rw [Double.eq_zero_of_rank hx, Double.eq_zero_of_rank hy, ofDouble_zero, ofDouble_zero]

/-- The number is not a double zero. -/
def Number.isRigid : Number → Bool
  | .int _ _ _ => true
  | .float x => x.rank != 0

namespace Json

mutual

/-- No object in the tree has more than one member, and no number in it is a double zero. -/
def isRigid : Json → Bool
  | num n => n.isRigid
  | arr xs => isRigidItems xs
  | obj [] => true
  | obj [(_, v)] => isRigid v
  | obj (_ :: _ :: _) => false
  | _ => true

/-- All of the elements are rigid. -/
def isRigidItems : List Json → Bool
  | [] => true
  | x :: xs => isRigid x && isRigidItems xs

end

/-- The text that the value leaves inside a longer text is that of every equal value. -/
def FixedText (v : Json) : Prop :=
  v.IsScalar ∨ v.isRigid = true

instance (v : Json) : Decidable v.FixedText :=
  inferInstanceAs (Decidable (_ ∨ _))

variable {v w : Json}

theorem isRigidItems_iff {xs : List Json} :
    isRigidItems xs = true ↔ ∀ x ∈ xs, x.isRigid = true := by
  induction xs with
  | nil => simp [isRigidItems]
  | cons x xs ih => simp [isRigidItems, ih]

theorem eq_of_sameItems {xs ys : List Json} (h : ∀ x ∈ xs, ∀ y, x.same y = true → x = y)
    (hs : sameItems xs ys = true) : xs = ys := by
  induction xs generalizing ys with
  | nil =>
      cases ys with
      | nil => rfl
      | cons y ys => cases hs
  | cons x xs ih =>
      cases ys with
      | nil => cases hs
      | cons y ys =>
          obtain ⟨hx, hxs⟩ := List.forall_mem_cons.1 h
          obtain ⟨hxy, hs⟩ := Bool.and_eq_true_iff.1 hs
          rw [hx y hxy, ih hxs hs]

/-- **A rigid tree is the same value as no other tree.** -/
theorem eq_of_same_of_isRigid (rigid : v.isRigid = true) (h : v.same w = true) : v = w := by
  induction v using memberInduction generalizing w with
  | null => cases w <;> simp_all [same]
  | bool b => cases w <;> simp_all [same]
  | str s => cases w <;> simp_all [same]
  | num n =>
      cases w <;> try cases h
      case num m =>
        cases n <;> cases m <;> simp_all [same, Number.same, isRigid, Number.isRigid, Double.same]
  | arr xs ih =>
      cases w <;> try cases h
      case arr ys =>
        have all := isRigidItems_iff.1 rigid
        rw [eq_of_sameItems (fun x hx y hxy => ih x hx (all x hx) hxy) h]
  | obj fs ih =>
      cases w <;> try cases h
      case obj gs =>
        simp only [same, Bool.and_eq_true, beq_iff_eq, sameFields_iff] at h
        obtain ⟨hlength, members⟩ := h
        cases fs with
        | nil =>
            rw [List.length_eq_zero_iff.1 hlength.symm]
        | cons f fs =>
            obtain ⟨k, x⟩ := f
            cases fs with
            | cons f' fs => cases rigid
            | nil =>
                obtain ⟨⟨l, y⟩, rfl⟩ := List.length_eq_one_iff.1 hlength.symm
                obtain ⟨z, hz, hxz⟩ := members (k, x) List.mem_cons_self
                have found := mem_of_lookup hz
                simp only [List.mem_singleton, Prod.mk.injEq] at found
                obtain ⟨rfl, rfl⟩ := found
                have hx : x = z := ih (k, x) List.mem_cons_self rigid hxz
                rw [hx]

theorem Alike.isScalar (h : Alike v w) (scalar : v.IsScalar) : w.IsScalar := by
  cases v <;> cases w <;> trivial

namespace FixedText

/-- **A value with a fixed text and a value that is the same leave the same text.** -/
theorem inline_eq (fixed : v.FixedText) (h : v.same w = true) : v.inline = w.inline := by
  rcases fixed with scalar | rigid
  · cases v <;> cases w <;> try cases h
    case inl.null.null.refl => rfl
    case inl.bool.bool b c => rw [beq_iff_eq.1 h]
    case inl.str.str s t => rw [beq_iff_eq.1 h]
    case inl.num.num m n =>
      cases m <;> cases n <;> try cases h
      case int.int m _ _ n _ _ =>
        obtain rfl : m = n := beq_iff_eq.1 h
        rfl
      case float.float x y => rw [inline, inline, Number.ofDouble_eq_of_same h]
    case inl.arr.arr => exact scalar.elim
    case inl.obj.obj => exact scalar.elim
  · rw [eq_of_same_of_isRigid rigid h]

theorem of_same (fixed : v.FixedText) (h : v.same w = true) : w.FixedText := by
  rcases fixed with scalar | rigid
  · exact .inl ((alike_of_same h).isScalar scalar)
  · rw [← eq_of_same_of_isRigid rigid h]
    exact .inr rigid

end FixedText

end Json

end Stencil
