import Mathlib.Data.Rat.Floor
import Mathlib.Data.Rat.Lemmas
import Mathlib.Data.Sign.Basic
import Mathlib.Tactic.FieldSimp
import Mathlib.Tactic.Linarith
import Mathlib.Tactic.Ring

/-!
# Fractions of Integers

What programs compute with when they hold a rational number as a numerator and a
denominator: reduction to lowest terms with a positive denominator, and the four
roundings to an integer, each in terms of truncating or flooring integer division.
-/

namespace Ratio

/-- `n / d` has a positive denominator and no common factor. -/
structure LowestTerms (n d : ℤ) : Prop where
  den_pos : 0 < d
  coprime : Int.gcd n d = 1

instance (n d : ℤ) : Decidable (LowestTerms n d) :=
  decidable_of_iff (0 < d ∧ Int.gcd n d = 1) ⟨fun h => ⟨h.1, h.2⟩, fun h => ⟨h.1, h.2⟩⟩

variable {n d n' d' : ℤ}

theorem LowestTerms.eq_of_div_eq (h : LowestTerms n d) (h' : LowestTerms n' d')
    (heq : (n : ℚ) / d = n' / d') : n = n' ∧ d = d' :=
  Rat.div_int_inj h.den_pos h'.den_pos h.coprime h'.coprime heq

theorem lowestTerms_tdiv_gcd (hd : 0 < d) :
    LowestTerms (n.tdiv (Int.gcd n d)) (d.tdiv (Int.gcd n d)) ∧
      ((n.tdiv (Int.gcd n d) : ℤ) : ℚ) / (d.tdiv (Int.gcd n d) : ℤ) = n / d := by
  have hg : 0 < Int.gcd n d := Int.gcd_pos_of_ne_zero_right n hd.ne'
  have hg' : (0 : ℤ) < Int.gcd n d := by exact_mod_cast hg
  have hn : n.tdiv (Int.gcd n d) = n / Int.gcd n d := Int.tdiv_eq_ediv_of_dvd (Int.gcd_dvd_left ..)
  have hd' : d.tdiv (Int.gcd n d) = d / Int.gcd n d :=
    Int.tdiv_eq_ediv_of_dvd (Int.gcd_dvd_right ..)
  have hmuln : n / Int.gcd n d * Int.gcd n d = n := Int.ediv_mul_cancel (Int.gcd_dvd_left ..)
  have hmuld : d / Int.gcd n d * Int.gcd n d = d := Int.ediv_mul_cancel (Int.gcd_dvd_right ..)
  rw [hn, hd']
  have hpos : 0 < d / Int.gcd n d := Int.ediv_pos_of_pos_of_dvd hd hg'.le (Int.gcd_dvd_right ..)
  refine ⟨⟨hpos, Int.gcd_ediv_gcd_ediv_gcd hg⟩, ?_⟩
  have hgq : ((Int.gcd n d : ℤ) : ℚ) ≠ 0 := by exact_mod_cast hg'.ne'
  calc ((n / Int.gcd n d : ℤ) : ℚ) / (d / Int.gcd n d : ℤ)
      = ((n / Int.gcd n d : ℤ) * (Int.gcd n d : ℤ) : ℚ)
          / ((d / Int.gcd n d : ℤ) * (Int.gcd n d : ℤ)) := by
        rw [mul_div_mul_right _ _ hgq]
    _ = n / d := by
        rw [← Int.cast_mul, ← Int.cast_mul, hmuln, hmuld]

theorem threeWay_eq_sign (x y : ℤ) :
    (if x < y then -1 else if x > y then 1 else 0) = Int.sign (x - y) := by
  rcases lt_trichotomy x y with h | h | h
  · rw [if_pos h, Int.sign_eq_neg_one_of_neg (by omega)]
  · rw [if_neg h.not_lt, if_neg h.not_gt, h, sub_self, Int.sign_zero]
  · rw [if_neg h.not_gt, if_pos h, Int.sign_eq_one_of_pos (by omega)]

theorem sign_cross_mul (hd : 0 < d) (hd' : 0 < d') :
    Int.sign (n * d' - n' * d) = (SignType.sign ((n : ℚ) / d - n' / d') : ℤ) := by
  have hpos : (0 : ℚ) < d * d' := by exact_mod_cast mul_pos hd hd'
  have hq : (d : ℚ) ≠ 0 := by exact_mod_cast hd.ne'
  have hq' : (d' : ℚ) ≠ 0 := by exact_mod_cast hd'.ne'
  have hsub : (n : ℚ) / d - n' / d' = ((n * d' - n' * d : ℤ) : ℚ) / (d * d') := by
    push_cast
    field_simp
  rw [hsub]
  rcases lt_trichotomy (n * d' - n' * d) 0 with h | h | h
  · have hneg : ((n * d' - n' * d : ℤ) : ℚ) < 0 := by exact_mod_cast h
    rw [Int.sign_eq_neg_one_of_neg h, sign_neg (div_neg_of_neg_of_pos hneg hpos)]
    rfl
  · rw [h, Int.sign_zero, Int.cast_zero, zero_div, sign_zero]
    rfl
  · have hpos' : (0 : ℚ) < ((n * d' - n' * d : ℤ) : ℚ) := by exact_mod_cast h
    rw [Int.sign_eq_one_of_pos h, sign_pos (div_pos hpos' hpos)]
    rfl

/-! ### Directed rounding -/

/-- Round toward zero. -/
def truncate (x : ℚ) : ℤ := if 0 ≤ x then ⌊x⌋ else ⌈x⌉

theorem floor_div (hd : 0 < d) : ⌊(n : ℚ) / d⌋ = n / d := by
  lift d to ℕ using hd.le
  exact_mod_cast Rat.floor_intCast_div_natCast n d

theorem ceil_div (hd : 0 < d) : ⌈(n : ℚ) / d⌉ = -(-n / d) := by
  rw [← floor_div hd, ← Int.ceil_neg, Int.cast_neg]
  congr 1
  ring

theorem div_nonneg_iff (hd : 0 < d) : 0 ≤ (n : ℚ) / d ↔ 0 ≤ n := by
  have hd' : (0 : ℚ) < d := by exact_mod_cast hd
  rw [le_div_iff₀ hd', zero_mul]
  exact_mod_cast Iff.rfl

theorem truncate_div (hd : 0 < d) : truncate ((n : ℚ) / d) = n.tdiv d := by
  unfold truncate
  split
  next h =>
      rw [div_nonneg_iff hd] at h
      rw [floor_div hd, Int.tdiv_eq_ediv_of_nonneg h]
  next h =>
      rw [div_nonneg_iff hd, not_le] at h
      rw [ceil_div hd, ← Int.tdiv_eq_ediv_of_nonneg (by omega : 0 ≤ -n), Int.neg_tdiv, neg_neg]

theorem ediv_eq_tdiv_sub (hd : 0 < d) :
    n / d = if 0 ≤ n ∨ n.tmod d = 0 then n.tdiv d else n.tdiv d - 1 := by
  rw [Int.tdiv_eq_ediv, Int.sign_eq_one_of_pos hd]
  have hiff : n.tmod d = 0 ↔ d ∣ n := Int.dvd_iff_tmod_eq_zero.symm
  simp only [hiff]
  split <;> ring

theorem neg_ediv_eq_tdiv_add (hd : 0 < d) :
    -(-n / d) = if n ≤ 0 ∨ n.tmod d = 0 then n.tdiv d else n.tdiv d + 1 := by
  rw [ediv_eq_tdiv_sub hd, Int.neg_tdiv, Int.neg_tmod]
  simp only [neg_nonneg, neg_eq_zero]
  split <;> ring

theorem ediv_eq_neg_sub_one (hd : 0 < d) : n / d = -((-n - 1) / d) - 1 := by
  have hr := Int.emod_nonneg (-n - 1) hd.ne'
  have hlt := Int.emod_lt_of_pos (-n - 1) hd
  have hdm := Int.emod_add_mul_ediv (-n - 1) d
  refine ((Int.ediv_emod_unique hd (r := d - 1 - (-n - 1) % d)).mpr
    ⟨?_, by omega, by omega⟩).1
  linarith

theorem neg_ediv_eq_add_sub_one (hd : 0 < d) : -(-n / d) = (n + d - 1) / d := by
  have hr := Int.emod_nonneg (n + d - 1) hd.ne'
  have hlt := Int.emod_lt_of_pos (n + d - 1) hd
  have hdm := Int.emod_add_mul_ediv (n + d - 1) d
  have h := ((Int.ediv_emod_unique hd (a := -n) (q := -((n + d - 1) / d))
    (r := d - 1 - (n + d - 1) % d)).mpr ⟨by linarith, by omega, by omega⟩).1
  omega

theorem ediv_eq_zero_iff (hd : 0 < d) : n / d = 0 ↔ 0 ≤ n ∧ n < d := by
  rw [Int.ediv_eq_iff_of_pos hd]
  omega

theorem neg_ediv_eq_zero_iff (hd : 0 < d) : -(-n / d) = 0 ↔ -d < n ∧ n ≤ 0 := by
  rw [neg_eq_zero, Int.ediv_eq_iff_of_pos hd]
  omega

theorem tdiv_eq_zero_iff (hd : 0 < d) : n.tdiv d = 0 ↔ |n| < d := by
  rw [← Int.natAbs_eq_zero, Int.natAbs_tdiv, Int.abs_eq_natAbs]
  change n.natAbs / d.natAbs = 0 ↔ _
  rw [Nat.div_eq_zero_iff]
  omega

/-! ### Rounding to nearest -/

/-- `z` is an integer nearest to `x`, the even one when two are. -/
structure NearestEven (x : ℚ) (z : ℤ) : Prop where
  near : |x - z| ≤ 1 / 2
  even_of_tie : |x - z| = 1 / 2 → Even z

theorem abs_div_sub (hd : 0 < d) (z : ℤ) :
    |(n : ℚ) / d - z| = (|n - z * d| : ℤ) / (d : ℚ) := by
  have hd' : (0 : ℚ) < d := by exact_mod_cast hd
  have heq : (n : ℚ) / d - z = ((n - z * d : ℤ) : ℚ) / d := by
    push_cast
    field_simp
  rw [heq, abs_div, abs_of_pos hd', Int.cast_abs]

theorem nearestEven_div_iff (hd : 0 < d) {z : ℤ} :
    NearestEven ((n : ℚ) / d) z ↔ 2 * |n - z * d| ≤ d ∧ (2 * |n - z * d| = d → Even z) := by
  have hd' : (0 : ℚ) < d := by exact_mod_cast hd
  have hle : |(n : ℚ) / d - z| ≤ 1 / 2 ↔ 2 * |n - z * d| ≤ d := by
    rw [abs_div_sub hd, div_le_iff₀ hd', ← Int.cast_le (R := ℚ)]
    push_cast
    constructor <;> intro h <;> linarith
  have heq : |(n : ℚ) / d - z| = 1 / 2 ↔ 2 * |n - z * d| = d := by
    rw [abs_div_sub hd, div_eq_iff hd'.ne', ← Int.cast_inj (α := ℚ)]
    push_cast
    constructor <;> intro h <;> linarith
  constructor
  · intro h
    exact ⟨hle.mp h.near, fun ht => h.even_of_tie (heq.mpr ht)⟩
  · intro h
    exact ⟨hle.mpr h.1, fun ht => h.2 (heq.mp ht)⟩

theorem nearestEven_div_zero_iff (hd : 0 < d) : NearestEven ((n : ℚ) / d) 0 ↔ 2 * |n| ≤ d := by
  rw [nearestEven_div_iff hd]
  simp

theorem NearestEven.unique {x : ℚ} {y z : ℤ} (hy : NearestEven x y) (hz : NearestEven x z) :
    y = z := by
  have hy' := abs_le.mp hy.near
  have hz' := abs_le.mp hz.near
  have h1 : y - z ≤ 1 := by
    have : ((y - z : ℤ) : ℚ) ≤ (1 : ℤ) := by push_cast; linarith
    exact_mod_cast this
  have h2 : z - y ≤ 1 := by
    have : ((z - y : ℤ) : ℚ) ≤ (1 : ℤ) := by push_cast; linarith
    exact_mod_cast this
  -- Distinct candidates are neighbours, at distance one half each, so both are even.
  by_contra hne
  rcases (by omega : y = z + 1 ∨ z = y + 1) with h | h
  · subst h
    push_cast at hy'
    have hx : x - z = 1 / 2 := by linarith
    have he := hz.even_of_tie (by rw [hx]; norm_num)
    have he' := hy.even_of_tie (by push_cast; rw [show x - (z + 1) = -(1 / 2) by linarith]; norm_num)
    rw [Int.even_add_one] at he'
    exact he' he
  · subst h
    push_cast at hz'
    have hx : x - y = 1 / 2 := by linarith
    have he := hy.even_of_tie (by rw [hx]; norm_num)
    have he' := hz.even_of_tie (by push_cast; rw [show x - (y + 1) = -(1 / 2) by linarith]; norm_num)
    rw [Int.even_add_one] at he'
    exact he' he

theorem nearestEven_floor (hd : 0 < d) :
    (2 * (n % d) < d → NearestEven ((n : ℚ) / d) (n / d)) ∧
    (d < 2 * (n % d) → NearestEven ((n : ℚ) / d) (n / d + 1)) ∧
    (2 * (n % d) = d → NearestEven ((n : ℚ) / d) (if Even (n / d) then n / d else n / d + 1)) := by
  have hlo : 0 ≤ n % d := Int.emod_nonneg n hd.ne'
  have hhi : n % d < d := Int.emod_lt_of_pos n hd
  have hfl : n - n / d * d = n % d := by
    have := Int.emod_add_mul_ediv n d
    linarith [mul_comm d (n / d)]
  have hup : n - (n / d + 1) * d = n % d - d := by linarith
  have habs : |n - n / d * d| = n % d := by rw [hfl, abs_of_nonneg hlo]
  have habs' : |n - (n / d + 1) * d| = d - n % d := by
    rw [hup, abs_of_neg (by omega)]
    ring
  refine ⟨fun h => ?_, fun h => ?_, fun h => ?_⟩
  · rw [nearestEven_div_iff hd, habs]
    exact ⟨by omega, fun ht => by omega⟩
  · rw [nearestEven_div_iff hd, habs']
    exact ⟨by omega, fun ht => by omega⟩
  · by_cases he : Even (n / d)
    · rw [if_pos he, nearestEven_div_iff hd, habs]
      exact ⟨by omega, fun _ => he⟩
    · rw [if_neg he, nearestEven_div_iff hd, habs']
      exact ⟨by omega, fun _ => Int.even_add_one.mpr he⟩

/-- From the truncated quotient and the magnitude of its remainder: round away from zero
past the midpoint, and on it when the quotient is odd. -/
theorem nearestEven_tdiv (hd : 0 < d) :
    (2 * |n.tmod d| < d → NearestEven ((n : ℚ) / d) (n.tdiv d)) ∧
    (d < 2 * |n.tmod d| →
      NearestEven ((n : ℚ) / d) (if 0 ≤ n then n.tdiv d + 1 else n.tdiv d - 1)) ∧
    (2 * |n.tmod d| = d → NearestEven ((n : ℚ) / d)
      (if (n.tdiv d).tmod 2 ≠ 0 then if 0 ≤ n then n.tdiv d + 1 else n.tdiv d - 1
        else n.tdiv d)) := by
  have hn := Int.mul_tdiv_add_tmod n d
  have hq : n - n.tdiv d * d = n.tmod d := by linarith [mul_comm d (n.tdiv d)]
  have hlt : |n.tmod d| < d := by
    have := Int.tmod_lt_of_pos n hd
    have := Int.lt_tmod_of_pos n hd
    exact abs_lt.mpr ⟨by linarith, by linarith⟩
  -- The neighbour away from zero is at distance `d - |rem|`.
  have haway : |n - (if 0 ≤ n then n.tdiv d + 1 else n.tdiv d - 1) * d| = d - |n.tmod d| := by
    split
    next h =>
        have hr := Int.tmod_nonneg d h
        rw [abs_of_nonneg hr] at hlt ⊢
        rw [show n - (n.tdiv d + 1) * d = n.tmod d - d by linarith, abs_of_neg (by linarith)]
        ring
    next h =>
        have hr : n.tmod d ≤ 0 := by
          have := Int.tmod_nonneg d (by omega : 0 ≤ -n)
          rw [Int.neg_tmod] at this
          omega
        rw [abs_of_nonpos hr] at hlt ⊢
        rw [show n - (n.tdiv d - 1) * d = n.tmod d + d by linarith, abs_of_pos (by linarith)]
        ring
  refine ⟨fun h => ?_, fun h => ?_, fun h => ?_⟩
  · rw [nearestEven_div_iff hd, hq]
    exact ⟨h.le, fun ht => absurd ht h.ne⟩
  · rw [nearestEven_div_iff hd, haway]
    exact ⟨by linarith, fun ht => by omega⟩
  · split
    next hodd =>
        rw [nearestEven_div_iff hd, haway]
        refine ⟨by linarith, fun _ => ?_⟩
        rw [ne_eq, ← Int.dvd_iff_tmod_eq_zero, ← even_iff_two_dvd] at hodd
        split
        next => exact Int.even_add_one.mpr hodd
        next => exact Int.even_sub_one.mpr hodd
    next heven =>
        rw [nearestEven_div_iff hd, hq]
        refine ⟨by linarith, fun _ => ?_⟩
        rw [not_not, ← Int.dvd_iff_tmod_eq_zero, ← even_iff_two_dvd] at heven
        exact heven

end Ratio
