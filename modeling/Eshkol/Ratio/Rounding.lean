import Eshkol.Ratio.Fraction

/-!
# Rounding Quotients of Natural Numbers

A quotient of magnitudes is rounded by adding one or nothing to the whole quotient, and the
sign is put back afterwards: rounding toward zero and rounding to nearest, ties to even,
are symmetric.
-/

namespace Ratio

theorem truncate_neg (x : ℚ) : truncate (-x) = -truncate x := by
  rcases lt_trichotomy x 0 with h | rfl | h
  · rw [truncate, truncate, if_pos (by linarith), if_neg (not_le.mpr h), Int.floor_neg]
  · simp [truncate]
  · rw [truncate, truncate, if_neg (by linarith), if_pos h.le, Int.ceil_neg]

theorem NearestEven.neg {x : ℚ} {z : ℤ} (h : NearestEven x z) : NearestEven (-x) (-z) := by
  have habs : |-x - ((-z : ℤ) : ℚ)| = |x - z| := by
    rw [← abs_neg]
    congr 1
    push_cast
    ring
  exact ⟨by rw [habs]; exact h.near, fun ht => (h.even_of_tie (by rwa [← habs])).neg⟩

theorem truncate_natDiv (n : ℕ) {d : ℕ} (hd : 0 < d) : truncate ((n : ℚ) / d) = (n / d : ℕ) := by
  have hdiv := truncate_div (n := n) (d := d) (by exact_mod_cast hd)
  rwa [← Int.ofNat_tdiv, Int.cast_natCast, Int.cast_natCast] at hdiv

theorem nearestEven_natDiv (n : ℕ) {d : ℕ} (hd : 0 < d) {up : Prop} [Decidable up]
    (hup : up ↔ d < 2 * (n % d) ∨ 2 * (n % d) = d ∧ n / d % 2 = 1) :
    NearestEven ((n : ℚ) / d) ((n / d + if up then 1 else 0 : ℕ) : ℤ) := by
  obtain ⟨hbelow, habove, htie⟩ := nearestEven_floor (n := n) (d := d) (by exact_mod_cast hd)
  push_cast at hbelow habove htie ⊢
  rcases lt_trichotomy (2 * (n % d)) d with h | h | h
  · rw [if_neg (by rw [hup]; omega), add_zero]
    exact hbelow (by exact_mod_cast h)
  · have heven : Even ((n : ℤ) / d) ↔ ¬ up := by
      rw [hup, Int.even_iff]
      have : ((n : ℤ) / d) % 2 = ((n / d % 2 : ℕ) : ℤ) := by push_cast; rfl
      rw [this]
      omega
    have ht := htie (by exact_mod_cast h)
    by_cases hu : up
    · rw [if_pos hu]
      rwa [if_neg (by rw [heven]; exact not_not.mpr hu)] at ht
    · rw [if_neg hu, add_zero]
      rwa [if_pos (heven.mpr hu)] at ht
  · rw [if_pos (by rw [hup]; omega)]
    exact habove (by exact_mod_cast h)

theorem abs_sub_natDiv_lt (n : ℕ) {d : ℕ} (hd : 0 < d) {up : Prop} [Decidable up]
    (hup : up → 0 < n % d) :
    |(n : ℚ) / d - ((n / d + if up then 1 else 0 : ℕ) : ℤ)| < 1 := by
  have hd' : (0 : ℚ) < d := by exact_mod_cast hd
  have hlt := Nat.mod_lt n hd
  have hdm := Nat.div_add_mod n d
  generalize n / d = k at hdm ⊢
  generalize n % d = r at hup hlt hdm
  have hdiv : (n : ℚ) / d = k + r / d := by
    rw [div_eq_iff hd'.ne', add_mul, div_mul_cancel₀ _ hd'.ne', ← hdm]
    push_cast
    ring
  have hfrac : (r : ℚ) / d < 1 := (div_lt_one hd').mpr (by exact_mod_cast hlt)
  rw [hdiv, Int.cast_natCast, Nat.cast_add, abs_lt]
  split
  next h =>
      have hpos : (0 : ℚ) < r / d := div_pos (by exact_mod_cast hup h) hd'
      push_cast
      constructor <;> linarith
  next h =>
      have hnonneg : (0 : ℚ) ≤ r / d := by positivity
      push_cast
      constructor <;> linarith

end Ratio
