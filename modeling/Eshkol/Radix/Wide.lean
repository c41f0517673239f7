import Mathlib.Tactic.Linarith
import Mathlib.Tactic.LinearCombination
import Mathlib.Tactic.Ring

/-!
# Wide Arithmetic on Natural Numbers

Products and quotients twice as wide as a machine word, as programs form them when no wider
type is at hand: a product from four products of half words with the carries propagated by
hand, and a quotient by restoring division, which brings down one bit of the numerator at a
time.
-/

namespace Radix

/-! ### Products from half words -/

theorem halves_mul {B a₀ a₁ b₀ b₁ t₁ t₂ t₃ : ℕ}
    (h₁ : t₁ = a₀ * b₀ / B + a₀ * b₁ % B + a₁ * b₀ % B)
    (h₂ : t₂ = t₁ / B + a₀ * b₁ / B + a₁ * b₀ / B + a₁ * b₁ % B)
    (h₃ : t₃ = t₂ / B + a₁ * b₁ / B) :
    a₀ * b₀ % B + B * (t₁ % B) + B ^ 2 * (t₂ % B + B * t₃)
      = (a₀ + B * a₁) * (b₀ + B * b₁) := by
  have e₀ := Nat.mod_add_div (a₀ * b₀) B
  have e₁ := Nat.mod_add_div t₁ B
  have e₂ := Nat.mod_add_div t₂ B
  have c₁ := Nat.mod_add_div (a₀ * b₁) B
  have c₂ := Nat.mod_add_div (a₁ * b₀) B
  have c₃ := Nat.mod_add_div (a₁ * b₁) B
  zify at *
  linear_combination e₀ + B * e₁ + B ^ 2 * e₂ + B * c₁ + B * c₂ + B ^ 2 * c₃ + B * h₁
    + B ^ 2 * h₂ + B ^ 3 * h₃

/-! ### Restoring division -/

/-- With the bits of `n` from position `bit` up brought down: `quotient`, at the weight of
the last bit, and `remainder` divide that part of `n` by `d`. -/
structure RestoringState (n d bit quotient remainder : ℕ) : Prop where
  quotient_eq : quotient = n / 2 ^ bit / d * 2 ^ bit
  remainder_eq : remainder = n / 2 ^ bit % d

theorem RestoringState.start {n bit : ℕ} (d : ℕ) (h : n < 2 ^ bit) :
    RestoringState n d bit 0 0 where
  quotient_eq := by rw [Nat.div_eq_of_lt h, Nat.zero_div, Nat.zero_mul]
  remainder_eq := by rw [Nat.div_eq_of_lt h, Nat.zero_mod]

theorem div_two_pow_eq (n bit : ℕ) : n / 2 ^ bit = 2 * (n / 2 ^ (bit + 1)) + n / 2 ^ bit % 2 := by
  rw [pow_succ, ← Nat.div_div_eq_div_mul]
  omega

section

variable {n d bit quotient remainder : ℕ}

theorem RestoringState.shifted (h : RestoringState n d (bit + 1) quotient remainder) :
    n / 2 ^ bit
      = d * (2 * (n / 2 ^ (bit + 1) / d)) + (2 * remainder + n / 2 ^ bit % 2) := by
  have hdm := Nat.div_add_mod (n / 2 ^ (bit + 1)) d
  rw [← h.remainder_eq] at hdm
  calc n / 2 ^ bit = 2 * (n / 2 ^ (bit + 1)) + n / 2 ^ bit % 2 := div_two_pow_eq n bit
    _ = 2 * (d * (n / 2 ^ (bit + 1) / d) + remainder) + n / 2 ^ bit % 2 := by rw [hdm]
    _ = _ := by ring

theorem RestoringState.keep (h : RestoringState n d (bit + 1) quotient remainder)
    (hlt : 2 * remainder + n / 2 ^ bit % 2 < d) :
    RestoringState n d bit quotient (2 * remainder + n / 2 ^ bit % 2) := by
  have hdm := (Nat.div_mod_unique (by omega : 0 < d)).mpr
    ⟨(Nat.add_comm _ _).trans h.shifted.symm, hlt⟩
  refine ⟨?_, hdm.2.symm⟩
  rw [hdm.1, h.quotient_eq, pow_succ]
  ring

theorem RestoringState.subtract (h : RestoringState n d (bit + 1) quotient remainder)
    (hd : 0 < d) (hle : d ≤ 2 * remainder + n / 2 ^ bit % 2) :
    RestoringState n d bit (quotient + 2 ^ bit) (2 * remainder + n / 2 ^ bit % 2 - d) := by
  have hrem : remainder < d := by
    rw [h.remainder_eq]
    exact Nat.mod_lt _ hd
  have hsplit : 2 * remainder + n / 2 ^ bit % 2 - d + d * (2 * (n / 2 ^ (bit + 1) / d) + 1)
      = n / 2 ^ bit := by
    rw [Nat.mul_add, Nat.mul_one]
    have hshifted := h.shifted
    omega
  have hdm := (Nat.div_mod_unique hd).mpr ⟨hsplit, by omega⟩
  refine ⟨?_, hdm.2.symm⟩
  rw [hdm.1, h.quotient_eq, pow_succ]
  ring

end

end Radix
