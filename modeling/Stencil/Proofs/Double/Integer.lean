import Stencil.Json.Number
import Stencil.Proofs.Double.Nearest

/-!
# Integers as doubles

An integer is read as a double to which no other is nearer (`Reads.isNearest`).  That
double has the integer as its value exactly if the integer has no more than 53 binary
digits in front of its trailing zeros (`Reads.toInt?_eq_some_iff`), and these are the
integers that are the value of some double (`exact_iff_exists_toInt?`).

A double whose value is an integer becomes that integer again if it fits 64 bits with
a sign (`ofDouble_eq_int_iff`).
-/

set_option autoImplicit false

namespace Stencil

namespace Double

variable {x y : Double} {n : Int}

/-- The exponent is kept apart, so that nothing evaluates the power. -/
theorem exists_unitsPerOne_eq : ∃ k, k = 1074 ∧ unitsPerOne = 2 ^ k := by
  obtain ⟨k, hk⟩ : ∃ k, k = 1074 := ⟨_, rfl⟩
  refine ⟨k, hk, ?_⟩
  unfold unitsPerOne
  rw [← hk]
  exact Nat.pow_eq

theorem unitsPerOne_pos : 0 < unitsPerOne := by
  obtain ⟨k, -, hk⟩ := exists_unitsPerOne_eq
  rw [hk]
  exact Nat.two_pow_pos k

/-- The value of the number, counted in the least positive magnitude. -/
def signedUnits (x : Double) : Int :=
  if x.neg then -(x.units : Int) else x.units

/-- How far the number is from the integer, counted in the least positive magnitude. -/
def gap (x : Double) (n : Int) : Nat :=
  (x.signedUnits - n * unitsPerOne).natAbs

/-- No double is nearer to the integer. -/
def IsNearest (x : Double) (n : Int) : Prop :=
  ∀ y : Double, x.gap n ≤ y.gap n

/-- The integer has at most 53 binary digits in front of its trailing zeros. -/
def Exact (n : Int) : Prop :=
  2 ^ (n.natAbs.log2 - 52) ∣ n.natAbs

instance (n : Int) : Decidable (Exact n) :=
  inferInstanceAs (Decidable (_ ∣ _))

theorem exact_of_natAbs_lt (h : n.natAbs < 2 ^ 53) : Exact n := by
  have hlog : n.natAbs.log2 - 52 = 0 := by
    rcases Nat.eq_zero_or_pos n.natAbs with hzero | hpos
    · rw [hzero]
      rfl
    · have := (Nat.log2_lt (Nat.ne_of_gt hpos)).2 h
      omega
  rw [Exact, hlog]
  exact Nat.one_dvd _

/-! ## The value of a double as an integer -/

theorem toInt?_eq_some_iff_signedUnits :
    x.toInt? = some n ↔ x.signedUnits = n * unitsPerOne := by
  have hpos : (unitsPerOne : Int) ≠ 0 := Int.ofNat_ne_zero.2 (Nat.ne_of_gt unitsPerOne_pos)
  unfold toInt? signedUnits
  refine ⟨fun h => ?_, fun h => ?_⟩
  · split at h
    · next hmod =>
      cases h
      have hunits : ((x.units / unitsPerOne : Nat) : Int) * unitsPerOne = x.units := by
        rw [← Int.natCast_mul, Nat.div_mul_cancel (Nat.dvd_of_mod_eq_zero hmod)]
      split
      · rw [Int.neg_mul, hunits]
      · exact hunits.symm
    · cases h
  · have hunits : x.units = n.natAbs * unitsPerOne := by
      have habs := congrArg Int.natAbs h
      rw [Int.natAbs_mul, Int.natAbs_natCast] at habs
      rw [← habs]
      split <;> omega
    rw [if_pos (by rw [hunits, Nat.mul_mod_left]), hunits, Nat.mul_div_cancel _ unitsPerOne_pos]
    rw [hunits, Int.natCast_mul, ← Int.neg_mul] at h
    dsimp only
    split at h
    · next hneg => rw [if_pos hneg, Int.eq_of_mul_eq_mul_right hpos h]
    · next hneg => rw [if_neg hneg, Int.eq_of_mul_eq_mul_right hpos h]

theorem gap_eq_zero_iff : x.gap n = 0 ↔ x.toInt? = some n := by
  rw [toInt?_eq_some_iff_signedUnits, gap, Int.natAbs_eq_zero, Int.sub_eq_zero]

theorem units_of_toInt? (h : x.toInt? = some n) : x.units = n.natAbs * unitsPerOne := by
  have habs := congrArg Int.natAbs (toInt?_eq_some_iff_signedUnits.1 h)
  rw [Int.natAbs_mul, Int.natAbs_natCast] at habs
  rw [← habs, signedUnits]
  split <;> omega

/-! ## Which integers are doubles -/

theorem log2_mul_two_pow {n : Nat} (h : n ≠ 0) (k : Nat) :
    (n * 2 ^ k).log2 = n.log2 + k := by
  rw [Nat.log2_eq_iff (Nat.mul_ne_zero h (Nat.ne_of_gt (Nat.two_pow_pos k)))]
  refine ⟨?_, ?_⟩
  · rw [Nat.pow_add]
    exact Nat.mul_le_mul_right _ (Nat.log2_self_le h)
  · rw [Nat.add_right_comm, Nat.pow_add 2 (n.log2 + 1)]
    exact Nat.mul_lt_mul_of_pos_right Nat.lt_log2_self (Nat.two_pow_pos k)

/-- The unit at the magnitude of an integer. -/
theorem unitShift_one {n : Nat} (h : n ≠ 0) : unitShift n 1 = n.log2 + 1022 := by
  obtain ⟨k, hk, hone⟩ := exists_unitsPerOne_eq
  rw [unitShift, Nat.div_one, hone, log2_mul_two_pow h]
  omega

/-- The integer is a multiple of the unit at its magnitude exactly if it is so as an integer. -/
theorem dvd_natAbs_mul_iff_exact :
    2 ^ (n.natAbs.log2 + 1022) ∣ n.natAbs * unitsPerOne ↔ Exact n := by
  obtain ⟨k, hk, hone⟩ := exists_unitsPerOne_eq
  rw [hone, Exact]
  by_cases hlog : 52 ≤ n.natAbs.log2
  · rw [show n.natAbs.log2 + 1022 = n.natAbs.log2 - 52 + k by omega, Nat.pow_add,
      Nat.mul_dvd_mul_iff_right (Nat.two_pow_pos k)]
  · refine iff_of_true (Nat.dvd_mul_left_of_dvd (Nat.pow_dvd_pow 2 (by omega)) _) ?_
    rw [show n.natAbs.log2 - 52 = 0 by omega]
    exact Nat.one_dvd _

/-- The value of a double has at most 53 binary digits in front of its trailing zeros. -/
theorem exact_of_toInt? (h : x.toInt? = some n) : Exact n := by
  by_cases hzero : n.natAbs = 0
  · exact exact_of_natAbs_lt (by rw [hzero]; exact Nat.two_pow_pos 53)
  · obtain ⟨k, hk, hone⟩ := exists_unitsPerOne_eq
    rw [← dvd_natAbs_mul_iff_exact, ← units_of_toInt? h]
    refine (dvd_units_or_lt x _).resolve_right (Nat.not_lt.2 ?_)
    rw [units_of_toInt? h, hone, ← Nat.pow_add,
      show 52 + (n.natAbs.log2 + 1022) = n.natAbs.log2 + k by omega, Nat.pow_add]
    exact Nat.mul_le_mul_right _ (Nat.log2_self_le hzero)

/-! ## Reading an integer -/

/-- The double has the place and the sign that the reader computes for the integer. -/
structure Reads (x : Double) (n : Int) : Prop where
  neg : x.neg = decide (n < 0)
  rank : x.rank = nearestRank n.natAbs 1

theorem Reads.unique (hx : Reads x n) (hy : Reads y n) : x = y := by
  obtain ⟨neg, rank, rank_lt⟩ := x
  obtain ⟨neg', rank', rank_lt'⟩ := y
  obtain rfl : neg = neg' := hx.neg.trans hy.neg.symm
  obtain rfl : rank = rank' := hx.rank.trans hy.rank.symm
  rfl

theorem nearestRank_one_lt {n : Nat} (hne : n ≠ 0) (h : n < 2 ^ 64) :
    nearestRank n 1 < 0x7ff0000000000000 := by
  have hcount := unitCount_le n 1
  have hlog := (Nat.log2_lt hne).2 h
  rw [nearestRank_eq, unitShift_one hne]
  omega

/-- An integer of at most 64 binary digits is read as a double. -/
theorem exists_reads (h : n.natAbs < 2 ^ 64) :
    ∃ x, ofDecimal? (decide (n < 0)) ⟨n.natAbs, 0⟩ = some x ∧ Reads x n := by
  unfold ofDecimal?
  by_cases hzero : n.natAbs = 0
  · refine ⟨_, if_pos hzero, rfl, ?_⟩
    rw [hzero, nearestRank_eq, unitCount, unitShift]
    simp [zero, roundQuotient]
  · have hlt := nearestRank_one_lt hzero h
    refine ⟨⟨decide (n < 0), nearestRank n.natAbs 1, hlt⟩, ?_, rfl, rfl⟩
    rw [if_neg hzero, if_neg (by dsimp only; omega), if_neg (by dsimp only; omega)]
    simp only [Decimal.num, Decimal.den, Int.toNat_zero, Int.neg_zero, Nat.pow_eq, Nat.pow_zero,
      Nat.mul_one, ofRank?, dif_pos hlt]

theorem mul_unitsPerOne_of_neg (h : n < 0) :
    n * unitsPerOne = -((n.natAbs * unitsPerOne : Nat) : Int) := by
  rw [Int.natCast_mul, Int.ofNat_natAbs_of_nonpos (Int.le_of_lt h), Int.neg_mul, Int.neg_neg]

theorem mul_unitsPerOne_of_nonneg (h : 0 ≤ n) :
    n * unitsPerOne = ((n.natAbs * unitsPerOne : Nat) : Int) := by
  rw [Int.natCast_mul, Int.natAbs_of_nonneg h]

/-- Between a double and an integer of the same sign lies the difference of the magnitudes. -/
theorem gap_of_neg_eq (h : x.neg = decide (n < 0)) :
    x.gap n = ((x.units : Int) - (n.natAbs * unitsPerOne : Nat)).natAbs := by
  unfold gap signedUnits
  by_cases hn : n < 0
  · rw [h, if_pos (decide_eq_true hn), mul_unitsPerOne_of_neg hn]
    omega
  · rw [h, if_neg (by simpa using hn), mul_unitsPerOne_of_nonneg (Int.not_lt.1 hn)]

/-- Between a double and an integer of different signs lies zero. -/
theorem le_gap_of_neg_ne (h : x.neg ≠ decide (n < 0)) : n.natAbs * unitsPerOne ≤ x.gap n := by
  unfold gap signedUnits
  by_cases hn : n < 0
  · rw [if_neg (by simpa [hn] using h), mul_unitsPerOne_of_neg hn]
    omega
  · rw [if_pos (by simpa [hn] using h), mul_unitsPerOne_of_nonneg (Int.not_lt.1 hn)]
    omega

theorem gap_zero (n : Int) : (zero (decide (n < 0))).gap n = n.natAbs * unitsPerOne := by
  rw [gap_of_neg_eq rfl, show (zero (decide (n < 0))).units = 0 by simp [zero, units, significand]]
  omega

/-- **No double is nearer to an integer than the one that is read for it.** -/
theorem Reads.isNearest (h : Reads x n) : x.IsNearest n := by
  have nearest : ∀ y : Double, y.neg = decide (n < 0) → x.gap n ≤ y.gap n := by
    intro y hy
    rw [gap_of_neg_eq h.neg, gap_of_neg_eq hy]
    simpa only [Nat.mul_one] using nearestRank_nearest Nat.one_pos h.rank y
  intro y
  by_cases hy : y.neg = decide (n < 0)
  · exact nearest y hy
  · calc x.gap n
        ≤ (zero (decide (n < 0))).gap n := nearest _ rfl
      _ = n.natAbs * unitsPerOne := gap_zero n
      _ ≤ y.gap n := le_gap_of_neg_ne hy

/-- **An integer is read exactly if it has at most 53 binary digits in front of its trailing
zeros.** -/
theorem Reads.toInt?_eq_some_iff (h : Reads x n) : x.toInt? = some n ↔ Exact n := by
  refine ⟨exact_of_toInt?, fun exact => ?_⟩
  have hdvd : 1 * 2 ^ unitShift n.natAbs 1 ∣ n.natAbs * unitsPerOne := by
    by_cases hzero : n.natAbs = 0
    · rw [hzero, Nat.zero_mul]
      exact Nat.dvd_zero _
    · rw [Nat.one_mul, unitShift_one hzero]
      exact dvd_natAbs_mul_iff_exact.2 exact
  have hunits := units_of_nearestRank Nat.one_pos h.rank hdvd
  rw [Nat.mul_one] at hunits
  rw [← gap_eq_zero_iff, gap_of_neg_eq h.neg, hunits, Int.sub_self]
  rfl

/-- The integers with so few digits are those that are the value of a double. -/
theorem exact_iff_exists_toInt? (h : n.natAbs < 2 ^ 64) :
    Exact n ↔ ∃ x : Double, x.toInt? = some n := by
  refine ⟨fun exact => ?_, fun ⟨x, hx⟩ => exact_of_toInt? hx⟩
  obtain ⟨x, -, reads⟩ := exists_reads h
  exact ⟨x, reads.toInt?_eq_some_iff.2 exact⟩

end Double

namespace Number

variable {x : Double} {n : Int}

/-- What holds of an integer value that fits 64 bits with a sign, and of the double if it has none,
holds of what the double becomes. -/
theorem ofDouble_cases {p : Number → Prop}
    (int : ∀ n lower upper, x.toInt? = some n → n < 0x8000000000000000 → p (.int n lower upper))
    (float : (∀ n, x.toInt? = some n → ¬ (-0x8000000000000000 ≤ n ∧ n < 0x8000000000000000)) →
      p (.float x)) : p (ofDouble x) := by
  -- unfolded at a number, the definition would be evaluated down to the digits of the place
  suffices unfolded : ∀ f, f = ofDouble → p (f x) from unfolded _ rfl
  intro f hf
  delta ofDouble at hf
  rw [hf]
  dsimp only
  split
  · next n hn =>
    split
    · next h => exact int n h.1 _ hn h.2
    · next h =>
      refine float fun m hm => ?_
      rw [hn, Option.some.injEq] at hm
      rwa [← hm]
  · next hn => exact float fun m hm => by rw [hn] at hm; cases hm

/-- A double becomes its integer value exactly if that fits 64 bits with a sign. -/
theorem ofDouble_eq_int_iff {lower : -0x8000000000000000 ≤ n} {upper : n < 0x10000000000000000} :
    ofDouble x = .int n lower upper ↔ x.toInt? = some n ∧ n < 0x8000000000000000 := by
  refine ofDouble_cases (p := fun r => r = .int n lower upper ↔ _) (fun m _ _ hx hm => ?_) fun h => ?_
  · rw [hx, Number.int.injEq, Option.some.injEq]
    exact ⟨fun heq => ⟨heq, heq ▸ hm⟩, And.left⟩
  · exact iff_of_false nofun fun hx => h n hx.1 ⟨lower, hx.2⟩

end Number

end Stencil
