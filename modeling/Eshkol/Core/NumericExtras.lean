import Eshkol.Machine.Exec

/-!
# Exact Integer Square Roots

`exact-integer-sqrt` runs Newton's iteration on exact integers of any size, from the number itself
downwards, and stops at the first iterate that does not decrease. No iterate falls below the root,
and one that does not decrease is at most the root.
-/

open Machine

namespace Eshkol.Core

/-- The loop of `exact-integer-sqrt`, with a bound on its calls. -/
def exactIntegerSqrtLoop (k : ℤ) : ℕ → ℤ → Exec (String × ℤ) (ℤ × ℤ)
  | 0, _ => .error .diverges
  | calls + 1, x =>
    let y := (x + k.tdiv x).tdiv 2
    if y ≥ x then .ok (x, k - x * x) else exactIntegerSqrtLoop k calls y

def exactIntegerSqrt (calls : ℕ) (k : ℤ) : Exec (String × ℤ) (ℤ × ℤ) :=
  if k < 0 then .error (.raised ("exact-integer-sqrt: argument must be non-negative", k))
  else if k = 0 then .ok (0, 0)
  else if k < 4 then .ok (1, k - 1)
  else exactIntegerSqrtLoop k calls k

variable {k x : ℤ}

theorem newton_above (hk : 0 ≤ k) (hx : 0 < x) :
    k < ((x + k.tdiv x).tdiv 2 + 1) * ((x + k.tdiv x).tdiv 2 + 1) := by
  have hq : 0 ≤ k.tdiv x := Int.tdiv_nonneg hk hx.le
  have hrem := Int.tmod_lt_of_pos k hx
  have hdiv := Int.mul_tdiv_add_tmod k x
  generalize k.tdiv x = q at hq hdiv ⊢
  have hlt : k < x * (q + 1) := by
    rw [mul_add, mul_one]
    omega
  have hy : x + q + 1 ≤ 2 * ((x + q).tdiv 2 + 1) := by
    rw [Int.tdiv_eq_ediv_of_nonneg (by omega)]
    omega
  generalize (x + q).tdiv 2 + 1 = y at hy ⊢
  have hmeans : 4 * (x * (q + 1)) ≤ (x + q + 1) * (x + q + 1) := by
    nlinarith [sq_nonneg (x - (q + 1))]
  have hsq : (x + q + 1) * (x + q + 1) ≤ (2 * y) * (2 * y) := mul_self_le_mul_self (by omega) hy
  calc k < x * (q + 1) := hlt
    _ ≤ y * y := by linarith

theorem newton_stop (hk : 0 ≤ k) (hx : 0 < x) (hstop : x ≤ (x + k.tdiv x).tdiv 2) : x * x ≤ k := by
  have hq : 0 ≤ k.tdiv x := Int.tdiv_nonneg hk hx.le
  have hrem := Int.tmod_nonneg x hk
  have hdiv := Int.mul_tdiv_add_tmod k x
  rw [Int.tdiv_eq_ediv_of_nonneg (by omega)] at hstop
  have hle : x ≤ k.tdiv x := by omega
  calc x * x ≤ x * k.tdiv x := mul_le_mul_of_nonneg_left hle hx.le
    _ ≤ k := by omega

theorem exactIntegerSqrtLoop_spec {calls : ℕ} (hk : 1 ≤ k) (hx : 0 < x)
    (habove : k < (x + 1) * (x + 1)) (hcalls : x < calls) :
    ∃ s, (∀ more, exactIntegerSqrtLoop k (calls + more) x = .ok (s, k - s * s)) ∧
      0 < s ∧ s * s ≤ k ∧ k < (s + 1) * (s + 1) := by
  induction calls generalizing x with
  | zero => omega
  | succ calls ih =>
    by_cases hstop : x ≤ (x + k.tdiv x).tdiv 2
    · refine ⟨x, fun more => ?_, hx, newton_stop (by omega) hx hstop, habove⟩
      rw [Nat.add_right_comm, exactIntegerSqrtLoop, if_pos hstop]
    · have hnext := newton_above (by omega : 0 ≤ k) hx
      have hpos : 0 < (x + k.tdiv x).tdiv 2 := by
        have hq : 0 ≤ k.tdiv x := Int.tdiv_nonneg (by omega) hx.le
        have hnonneg : 0 ≤ (x + k.tdiv x).tdiv 2 := Int.tdiv_nonneg (by omega) (by omega)
        refine lt_of_le_of_ne hnonneg fun hzero => ?_
        rw [← hzero] at hnext
        omega
      obtain ⟨s, hloop, hspec⟩ := ih hpos hnext (by omega)
      refine ⟨s, fun more => ?_, hspec⟩
      rw [Nat.add_right_comm, exactIntegerSqrtLoop, if_neg hstop, hloop]

/-- **The integer square root and its remainder**, of every exact integer that is not negative. -/
theorem exactIntegerSqrt_spec (hk : 0 ≤ k) :
    ∃ s r, Yields (fun calls => exactIntegerSqrt calls k) (s, r) ∧
      k = s * s + r ∧ 0 ≤ r ∧ r ≤ 2 * s := by
  rcases lt_or_ge k 4 with hsmall | hlarge
  · by_cases hzero : k = 0
    · refine ⟨0, 0, ⟨0, fun calls _ => ?_⟩, by omega, le_rfl, le_rfl⟩
      change exactIntegerSqrt calls k = _
      rw [exactIntegerSqrt, if_neg (by omega), if_pos hzero]
    · refine ⟨1, k - 1, ⟨0, fun calls _ => ?_⟩, by omega, by omega, by omega⟩
      change exactIntegerSqrt calls k = _
      rw [exactIntegerSqrt, if_neg (by omega), if_neg hzero, if_pos hsmall]
  · have habove : k < (k + 1) * (k + 1) := by nlinarith
    obtain ⟨s, hloop, hpos, hle, hlt⟩ := exactIntegerSqrtLoop_spec
      (by omega) (by omega) habove (show k < ((k.toNat + 1 : ℕ) : ℤ) by omega)
    refine ⟨s, k - s * s, ⟨k.toNat + 1, fun calls hcalls => ?_⟩, by omega, by omega, by linarith⟩
    obtain ⟨more, rfl⟩ := Nat.exists_eq_add_of_le hcalls
    change exactIntegerSqrt _ k = _
    rw [exactIntegerSqrt, if_neg (by omega), if_neg (by omega), if_neg (by omega), hloop]

/-- The root of a number beyond 64 bits. -/
theorem exactIntegerSqrt_large :
    (0 : ℤ) ≤ 10 ^ 50 ∧ ∃ s r, Yields (fun calls => exactIntegerSqrt calls (10 ^ 50)) (s, r) ∧
      10 ^ 50 = s * s + r ∧ 0 ≤ r ∧ r ≤ 2 * s :=
  ⟨by positivity, exactIntegerSqrt_spec (by positivity)⟩

end Eshkol.Core
