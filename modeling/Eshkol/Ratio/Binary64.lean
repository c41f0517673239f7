import Mathlib.Data.Int.Log
import Eshkol.Ratio.Fraction

/-!
# Doubles as Rationals

Rounding of a non-negative rational to a `double`, to nearest with ties to even, for values
in the range of normal numbers. Conversions from integers and quotients of such values stay
in that range, so a `double` is here the rational it stands for.
-/

namespace Ratio

/-- The integer nearest to `x`, the even one when two are. -/
def roundEven (x : ℚ) : ℤ :=
  if x - ⌊x⌋ < 1 / 2 then ⌊x⌋
  else if 1 / 2 < x - ⌊x⌋ then ⌊x⌋ + 1
  else if ⌊x⌋ % 2 = 0 then ⌊x⌋ else ⌊x⌋ + 1

/-- The `double` nearest to a non-negative `x`: a significand of 53 bits, at the exponent
of `x`. -/
def roundDouble (x : ℚ) : ℚ :=
  if x = 0 then 0
  else roundEven (x / 2 ^ (Int.log 2 x - 52)) * 2 ^ (Int.log 2 x - 52)

theorem roundEven_spec (x : ℚ) : NearestEven x (roundEven x) := by
  have hlo := Int.floor_le x
  have hhi := Int.lt_floor_add_one x
  rw [roundEven]
  split_ifs with hbelow habove heven
  · refine ⟨?_, ?_⟩
    · rw [abs_of_nonneg (by linarith)]
      exact hbelow.le
    · rw [abs_of_nonneg (by linarith)]
      exact fun h => absurd h hbelow.ne
  · have habs : |x - ((⌊x⌋ + 1 : ℤ) : ℚ)| = 1 - (x - ⌊x⌋) := by
      push_cast
      rw [abs_of_nonpos (by linarith)]
      ring
    refine ⟨?_, ?_⟩
    · rw [habs]
      linarith
    · rw [habs]
      intro h
      linarith
  · refine ⟨?_, fun _ => Int.even_iff.mpr heven⟩
    rw [abs_of_nonneg (by linarith)]
    exact not_lt.mp habove
  · refine ⟨?_, fun _ => Int.even_iff.mpr (by omega)⟩
    push_cast
    rw [abs_of_nonpos (by linarith)]
    linarith

theorem le_roundEven {x : ℚ} {z : ℤ} (h : (z : ℚ) ≤ x) : z ≤ roundEven x := by
  have hfloor : z ≤ ⌊x⌋ := Int.le_floor.mpr h
  rw [roundEven]
  split_ifs <;> omega

theorem zpow_log_le_roundDouble {x : ℚ} (hx : 0 < x) : (2 : ℚ) ^ Int.log 2 x ≤ roundDouble x := by
  have hulp : (0 : ℚ) < 2 ^ (Int.log 2 x - 52) := zpow_pos two_pos _
  have hlog : (2 : ℚ) ^ Int.log 2 x ≤ x := by exact_mod_cast Int.zpow_log_le_self one_lt_two hx
  have hsplit : (2 : ℚ) ^ Int.log 2 x = 2 ^ 52 * 2 ^ (Int.log 2 x - 52) := by
    rw [← zpow_natCast, ← zpow_add₀ two_ne_zero]
    congr 1
    omega
  -- the significand is at least `2 ^ 52`
  have hsig : ((2 ^ 52 : ℤ) : ℚ) ≤ x / 2 ^ (Int.log 2 x - 52) := by
    rw [le_div_iff₀ hulp, Int.cast_pow, Int.cast_ofNat, ← hsplit]
    exact hlog
  have hround : (2 : ℚ) ^ 52 ≤ roundEven (x / 2 ^ (Int.log 2 x - 52)) := by
    exact_mod_cast le_roundEven hsig
  rw [roundDouble, if_neg hx.ne', hsplit]
  exact mul_le_mul_of_nonneg_right hround hulp.le

theorem roundDouble_pos {x : ℚ} (hx : 0 < x) : 0 < roundDouble x :=
  (zpow_pos two_pos _).trans_le (zpow_log_le_roundDouble hx)

theorem one_le_roundDouble {x : ℚ} (hx : 1 ≤ x) : 1 ≤ roundDouble x := by
  have hpow : (2 : ℚ) ^ (0 : ℤ) ≤ 2 ^ Int.log 2 x :=
    zpow_le_zpow_right₀ one_le_two (Int.log_one_right (R := ℚ) 2 ▸ Int.log_mono_right one_pos hx)
  rw [zpow_zero] at hpow
  exact hpow.trans (zpow_log_le_roundDouble (one_pos.trans_le hx))

theorem roundDouble_one : roundDouble 1 = 1 := by
  have hint : (1 : ℚ) / 2 ^ (-52 : ℤ) = ((2 ^ 52 : ℤ) : ℚ) := by norm_num
  rw [roundDouble, if_neg one_ne_zero, Int.log_one_right, zero_sub, hint, roundEven,
    Int.floor_intCast, sub_self, if_pos (by norm_num)]
  norm_num

theorem abs_sub_roundDouble_le {x : ℚ} (hx : 0 < x) : |x - roundDouble x| ≤ x / 2 ^ 53 := by
  have hulp : (0 : ℚ) < 2 ^ (Int.log 2 x - 52) := zpow_pos two_pos _
  have hlog : (2 : ℚ) ^ Int.log 2 x ≤ x := by exact_mod_cast Int.zpow_log_le_self one_lt_two hx
  have hsplit : (2 : ℚ) ^ (Int.log 2 x - 52) = 2 ^ Int.log 2 x / 2 ^ 52 := by
    rw [zpow_sub₀ two_ne_zero]
    norm_cast
  have hnear := (roundEven_spec (x / 2 ^ (Int.log 2 x - 52))).1
  have hsub : x - roundDouble x =
      (x / 2 ^ (Int.log 2 x - 52) - roundEven (x / 2 ^ (Int.log 2 x - 52))) *
        2 ^ (Int.log 2 x - 52) := by
    rw [roundDouble, if_neg hx.ne', sub_mul, div_mul_cancel₀ _ hulp.ne']
  calc |x - roundDouble x|
      ≤ 1 / 2 * 2 ^ (Int.log 2 x - 52) := by
        rw [hsub, abs_mul, abs_of_pos hulp]
        exact mul_le_mul_of_nonneg_right hnear hulp.le
    _ ≤ x / 2 ^ 53 := by
        rw [hsplit]
        linarith

/-! ### Integers -/

/-- The `double` nearest to an integer. -/
def doubleOfInt (z : ℤ) : ℚ := z.sign * roundDouble (z.natAbs : ℕ)

theorem doubleOfInt_one : doubleOfInt 1 = 1 := by
  rw [doubleOfInt, Int.natAbs_one, Nat.cast_one, roundDouble_one]
  norm_num

theorem truncate_doubleOfInt_eq_zero_iff {z : ℤ} : truncate (doubleOfInt z) = 0 ↔ z = 0 := by
  constructor
  · intro h
    by_contra hz
    have hone : (1 : ℚ) ≤ roundDouble (z.natAbs : ℕ) := by
      refine one_le_roundDouble ?_
      exact_mod_cast Int.natAbs_pos.mpr hz
    rw [doubleOfInt, truncate] at h
    rcases lt_or_gt_of_ne hz with hneg | hpos
    · rw [Int.sign_eq_neg_one_of_neg hneg, Int.cast_neg, Int.cast_one, neg_one_mul,
        if_neg (by linarith), Int.ceil_neg, neg_eq_zero, Int.floor_eq_zero_iff] at h
      exact absurd h.2 hone.not_gt
    · rw [Int.sign_eq_one_of_pos hpos, Int.cast_one, one_mul, if_pos (by linarith),
        Int.floor_eq_zero_iff] at h
      exact absurd h.2 hone.not_gt
  · rintro rfl
    rw [doubleOfInt, Int.sign_zero, Int.cast_zero, zero_mul, truncate, if_pos le_rfl,
      Int.floor_zero]

end Ratio
