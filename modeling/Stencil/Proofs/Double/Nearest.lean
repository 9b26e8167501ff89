import Mathlib.Algebra.Group.Nat.Defs
import Stencil.Double.Nearest

/-!
# The nearest double is the nearest

The place of the double nearest to `num / den` is computed from one rounded quotient
(`nearestRank`).  That quotient counts the unit of the power of two in which the
number lies, and no multiple of this unit is nearer to the number
(`roundQuotient_nearest`).  A double is such a multiple, or it lies below that power
of two (`dvd_units_or_lt`), which is itself a multiple and not above the number.  So
no double is nearer (`nearestRank_nearest`).

A number that is a multiple of the unit is not rounded at all
(`units_of_nearestRank`).
-/

set_option autoImplicit false

namespace Stencil.Double

variable {x : Double} {num den q s : Nat}

/-! ## Rounded quotients -/

theorem roundQuotient_bounds (num den : Nat) :
    num / den ≤ roundQuotient num den ∧ roundQuotient num den ≤ num / den + 1 := by
  unfold roundQuotient
  dsimp only
  split
  · omega
  · split <;> omega

/-- No multiple of the divisor is nearer than the rounded quotient of it. -/
theorem roundQuotient_nearest (num : Nat) (h : 0 < den) (k : Nat) :
    ((roundQuotient num den * den : Nat) - num : Int).natAbs ≤
      ((k * den : Nat) - num : Int).natAbs := by
  have hnear := roundQuotient_near num den h
  rcases Nat.lt_trichotomy k (roundQuotient num den) with hlt | rfl | hlt
  · have hstep : (k + 1) * den ≤ roundQuotient num den * den := Nat.mul_le_mul_right den hlt
    rw [Nat.succ_mul] at hstep
    omega
  · exact Nat.le_refl _
  · have hstep : (roundQuotient num den + 1) * den ≤ k * den := Nat.mul_le_mul_right den hlt
    rw [Nat.succ_mul] at hstep
    omega

/-! ## Magnitudes by their places -/

/-- A significand has at most 53 binary digits. -/
theorem significand_lt (x : Double) : x.significand < 2 ^ 53 := by
  unfold significand shift
  omega

/-- A magnitude is a multiple of a unit, or it lies below the multiples with 53 binary digits. -/
theorem dvd_units_or_lt (x : Double) (s : Nat) :
    2 ^ s ∣ x.units ∨ x.units < 2 ^ 52 * 2 ^ s := by
  unfold units
  rw [Nat.pow_eq]
  by_cases hs : s ≤ x.shift
  · exact .inl (Nat.dvd_mul_left_of_dvd (Nat.pow_dvd_pow 2 hs) _)
  · refine .inr ?_
    calc x.significand * 2 ^ x.shift
        < 2 ^ 53 * 2 ^ x.shift := Nat.mul_lt_mul_of_pos_right x.significand_lt (Nat.two_pow_pos _)
      _ = 2 ^ 52 * 2 ^ (x.shift + 1) := by rw [Nat.pow_succ 2 x.shift]; omega
      _ ≤ 2 ^ 52 * 2 ^ s :=
          Nat.mul_le_mul_left _ (Nat.pow_le_pow_right Nat.two_pos (Nat.lt_of_not_le hs))

/-- The magnitude at a place, counted in the unit that the place was computed with.  A quotient of
`2 ^ 53` stands for the next power of two. -/
theorem units_of_rank (hrank : x.rank = q + s * 0x10000000000000) (hq : q ≤ 2 ^ 53)
    (hs : s = 0 ∨ 2 ^ 52 ≤ q) : x.units = q * 2 ^ s := by
  unfold units significand
  rw [Nat.pow_eq]
  by_cases hcarry : q = 2 ^ 53
  · have hshift : x.shift = s + 1 := by unfold shift; omega
    rw [hshift, Nat.pow_succ, Nat.mul_comm (2 ^ s) 2, ← Nat.mul_assoc]
    congr 1
    omega
  · have hshift : x.shift = s := by unfold shift; omega
    rw [hshift]
    congr 1
    omega

/-! ## The place of the nearest double -/

/-- The unit at the magnitude of `num / den`, as a power of two. -/
def unitShift (num den : Nat) : Nat :=
  (num * unitsPerOne / den).log2 - 52

/-- How many of these units the nearest double has. -/
def unitCount (num den : Nat) : Nat :=
  roundQuotient (num * unitsPerOne) (den * 2 ^ unitShift num den)

theorem nearestRank_eq (num den : Nat) :
    nearestRank num den = unitCount num den + unitShift num den * 0x10000000000000 := rfl

theorem unitCount_le (num den : Nat) : unitCount num den ≤ 2 ^ 53 := by
  have hscaled : num * unitsPerOne / den < 2 ^ (unitShift num den + 53) := by
    refine Nat.lt_of_lt_of_le Nat.lt_log2_self (Nat.pow_le_pow_right Nat.two_pos ?_)
    unfold unitShift
    omega
  have hquotient : num * unitsPerOne / (den * 2 ^ unitShift num den) < 2 ^ 53 := by
    rw [← Nat.div_div_eq_div_mul, Nat.div_lt_iff_lt_mul (Nat.two_pow_pos _), ← Nat.pow_add,
      Nat.add_comm]
    exact hscaled
  exact Nat.le_trans (roundQuotient_bounds _ _).2 hquotient

/-- Unless the unit is the least one, the power of two at the number is a multiple of it. -/
theorem unitShift_eq_zero_or_le (num : Nat) (h : 0 < den) :
    unitShift num den = 0 ∨ 2 ^ 52 * (den * 2 ^ unitShift num den) ≤ num * unitsPerOne := by
  rcases Nat.eq_zero_or_pos (unitShift num den) with hzero | hpos
  · exact .inl hzero
  · refine .inr ?_
    have hne : num * unitsPerOne / den ≠ 0 := by
      intro hzero
      rw [unitShift, hzero] at hpos
      exact absurd hpos (by decide)
    have hlog : (num * unitsPerOne / den).log2 = 52 + unitShift num den := by
      unfold unitShift at hpos ⊢
      omega
    have hle := Nat.log2_self_le hne
    rw [hlog, Nat.pow_add, Nat.le_div_iff_mul_le h] at hle
    calc 2 ^ 52 * (den * 2 ^ unitShift num den)
        = 2 ^ 52 * 2 ^ unitShift num den * den := by rw [Nat.mul_comm den, Nat.mul_assoc]
      _ ≤ num * unitsPerOne := hle

theorem units_of_nearestRank_eq (h : 0 < den) (hx : x.rank = nearestRank num den) :
    x.units * den = unitCount num den * (den * 2 ^ unitShift num den) := by
  rw [units_of_rank (hx.trans (nearestRank_eq num den)) (unitCount_le num den), Nat.mul_assoc,
    Nat.mul_comm den]
  refine (unitShift_eq_zero_or_le num h).imp_right fun hle => ?_
  refine Nat.le_trans ?_ (roundQuotient_bounds _ _).1
  exact (Nat.le_div_iff_mul_le (Nat.mul_pos h (Nat.two_pow_pos _))).2 hle

/-- **No magnitude is nearer to a number than that at the place computed for it.** -/
theorem nearestRank_nearest (h : 0 < den) (hx : x.rank = nearestRank num den) (y : Double) :
    ((x.units * den : Nat) - (num * unitsPerOne : Nat) : Int).natAbs ≤
      ((y.units * den : Nat) - (num * unitsPerOne : Nat) : Int).natAbs := by
  have nearest := roundQuotient_nearest (num * unitsPerOne)
    (Nat.mul_pos h (Nat.two_pow_pos (unitShift num den)))
  rw [units_of_nearestRank_eq h hx]
  rcases dvd_units_or_lt y (unitShift num den) with ⟨k, hk⟩ | hlt
  · have hy : y.units * den = k * (den * 2 ^ unitShift num den) := by
      rw [hk, Nat.mul_comm (2 ^ _) k, Nat.mul_assoc, Nat.mul_comm den]
    rw [hy]
    exact nearest k
  · rcases unitShift_eq_zero_or_le num h with hzero | hle
    · have hy : y.units * den = y.units * (den * 2 ^ unitShift num den) := by
        rw [hzero, Nat.pow_zero, Nat.mul_one]
      rw [hy]
      exact nearest y.units
    · -- the power of two lies between the magnitude and the number
      have hbelow : y.units * den ≤ 2 ^ 52 * (den * 2 ^ unitShift num den) := by
        rw [Nat.mul_comm den, ← Nat.mul_assoc]
        exact Nat.mul_le_mul_right den (Nat.le_of_lt hlt)
      refine Nat.le_trans (nearest (2 ^ 52)) ?_
      omega

/-- **A multiple of the unit is not rounded.** -/
theorem units_of_nearestRank (h : 0 < den) (hx : x.rank = nearestRank num den)
    (hdvd : den * 2 ^ unitShift num den ∣ num * unitsPerOne) :
    x.units * den = num * unitsPerOne := by
  obtain ⟨k, hk⟩ := hdvd
  rw [units_of_nearestRank_eq h hx, unitCount, hk, Nat.mul_comm _ k,
    roundQuotient_mul _ _ (Nat.mul_pos h (Nat.two_pow_pos _))]

end Stencil.Double
