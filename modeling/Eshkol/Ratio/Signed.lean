import Eshkol.Machine.Exec
import Eshkol.Ratio.Fraction

/-!
# Fractions of Machine Integers

What a program does to a fraction of signed machine integers to bring it to lowest terms:
take absolute values, move the sign to the numerator, run Euclid's loop and divide. Every
signed temporary is checked, so each step comes with the bound under which it is defined.
-/

namespace Ratio

open Machine

variable {ε : Type}

/-! ### Reduction -/

/-- Negation of a negative signed integer of `w` bits. -/
def absSigned (w : ℕ) (a : ℤ) : Exec ε ℤ := if a < 0 then signed w (-a) else .ok a

theorem absSigned_eq {w : ℕ} {a : ℤ} (h : |a| < 2 ^ (w - 1)) :
    (absSigned w a : Exec ε ℤ) = .ok |a| := by
  unfold absSigned
  split
  next hneg =>
      rw [abs_of_neg hneg] at h ⊢
      exact signed_eq_ok (by linarith) h
  next hneg => rw [abs_of_nonneg (not_lt.mp hneg)]

theorem euclid_int {a b : ℤ} (ha : 0 ≤ a) (hb : 0 ≤ b) :
    (euclid (· == 0) (fun x y => .ok (x.tmod y)) (b.natAbs + 1) a b : Exec ε ℤ)
      = .ok (Int.gcd a b) := by
  obtain ⟨g, hg, hg0, hgm⟩ := euclid_spec (· == 0) (fun x y => (.ok (x.tmod y) : Exec ε ℤ))
    (0 ≤ ·) Int.natAbs (fun y _ => by simp)
    (fun x y hx _ _ => ⟨_, rfl, Int.tmod_nonneg _ hx, Int.natAbs_tmod ..⟩) ha hb
    (Nat.lt_succ_self _)
  rw [hg, Int.gcd, ← hgm, Int.natAbs_of_nonneg hg0]

/-- `if (denom < 0) { num = -num; denom = -denom; }` on signed integers of `w` bits. -/
def flipSign (w : ℕ) (num denom : ℤ) : Exec ε (ℤ × ℤ) :=
  if denom < 0 then do
    let num ← signed w (-num)
    let denom ← signed w (-denom)
    .ok (num, denom)
  else .ok (num, denom)

theorem flipSign_spec {w : ℕ} {num denom : ℤ} (hn : |num| < 2 ^ (w - 1))
    (hd : |denom| < 2 ^ (w - 1)) (hd0 : denom ≠ 0) :
    ∃ out, (flipSign w num denom : Exec ε (ℤ × ℤ)) = .ok out ∧ |out.1| < 2 ^ (w - 1) ∧
      |out.2| < 2 ^ (w - 1) ∧ 0 < out.2 ∧ (out.1 : ℚ) / out.2 = num / denom := by
  unfold flipSign
  split
  next hneg =>
      have hn' := abs_lt.mp hn
      have hd' := abs_lt.mp hd
      rw [signed_eq_ok (by omega) (by omega), ok_bind, signed_eq_ok (by omega) (by omega),
        ok_bind]
      refine ⟨_, rfl, by rwa [abs_neg], by rwa [abs_neg], by simpa using hneg, ?_⟩
      push_cast
      rw [neg_div_neg_eq]
  next hneg => exact ⟨_, rfl, hn, hd, by simp only; omega, rfl⟩

theorem reduce_eq_tdiv {g : ℕ} (hg : 0 < g) (x : ℤ) :
    (if (g : ℤ) > 1 then x.tdiv g else x) = x.tdiv g := by
  split
  next h => rfl
  next h => rw [show (g : ℤ) = 1 by omega, Int.tdiv_one]

/-! ### Bounds of intermediates -/

theorem int64_bounds (v : Int64) : -2 ^ 63 ≤ v.toInt ∧ v.toInt < 2 ^ 63 := ⟨v.le_toInt, v.toInt_lt⟩

theorem mul_int64_bounds (x y : Int64) :
    -(2 ^ 63 * 2 ^ 63) ≤ x.toInt * y.toInt ∧ x.toInt * y.toInt ≤ 2 ^ 63 * 2 ^ 63 := by
  have hx := int64_bounds x
  have hy := int64_bounds y
  constructor <;> nlinarith

theorem mul_bounds {x y : ℤ} (hx : -2 ^ 63 ≤ x ∧ x < 2 ^ 63) (hy : 0 < y ∧ y < 2 ^ 63) :
    -(2 ^ 63 * (2 ^ 63 - 1)) ≤ x * y ∧ x * y ≤ 2 ^ 63 * (2 ^ 63 - 1) := by
  constructor <;> nlinarith

theorem signed_128_eq_ok {x : ℤ} (hlo : -(2 ^ 127 - 2 ^ 64) ≤ x) (hhi : x ≤ 2 ^ 127 - 2 ^ 64) :
    (signed 128 x : Exec ε ℤ) = .ok x :=
  signed_eq_ok (by norm_num; omega) (by norm_num; omega)

theorem signedDiv_int64 {n d : Int64} (hd : 0 < d.toInt) :
    (signedDiv 64 n.toInt d.toInt : Exec ε ℤ) = .ok (n.toInt.tdiv d.toInt) ∧
      (signedRem 64 n.toInt d.toInt : Exec ε ℤ) = .ok (n.toInt.tmod d.toInt) :=
  ⟨signedDiv_eq_ok n.le_toInt n.toInt_lt hd, signedRem_eq_ok n.le_toInt n.toInt_lt hd⟩

theorem tdiv_bounds {n d : Int64} (hd : 0 < d.toInt) :
    -2 ^ 63 ≤ n.toInt.tdiv d.toInt ∧ n.toInt.tdiv d.toInt < 2 ^ 63 ∧
      (n.toInt.tmod d.toInt ≠ 0 →
        -2 ^ 62 ≤ n.toInt.tdiv d.toInt ∧ n.toInt.tdiv d.toInt ≤ 2 ^ 62) := by
  have hlo := n.le_toInt
  have hhi := n.toInt_lt
  have hn := Int.mul_tdiv_add_tmod n.toInt d.toInt
  have hok : (signedDiv 64 n.toInt d.toInt : Exec Empty ℤ) = .ok (n.toInt.tdiv d.toInt) :=
    signedDiv_eq_ok hlo hhi hd
  rw [signedDiv, if_neg hd.ne', signed_eq_ok_iff] at hok
  refine ⟨hok.2.1, hok.2.2, fun hrem => ?_⟩
  have hlt := Int.tmod_lt_of_pos n.toInt hd
  have hgt := Int.lt_tmod_of_pos n.toInt hd
  have hd2 : 2 ≤ d.toInt := by omega
  constructor <;> nlinarith

theorem abs_toInt_lt {v : Int64} (h : v ≠ Int64.minValue) : |v.toInt| < 2 ^ 63 := by
  have hne : v.toInt ≠ -2 ^ 63 := fun he => h (Int64.toInt_inj.mp he)
  have hlo := v.le_toInt
  exact abs_lt.mpr ⟨by omega, v.toInt_lt⟩

theorem toInt_neg_of_ne_minValue {v : Int64} (h : v ≠ Int64.minValue) : (-v).toInt = -v.toInt := by
  obtain ⟨hlo, hhi⟩ := abs_lt.mp (abs_toInt_lt h)
  rw [Int64.toInt_neg, Int.bmod_eq_of_le (by omega) (by omega)]

theorem abs_tdiv_natCast_le (x : ℤ) (g : ℕ) : |x.tdiv g| ≤ |x| := by
  rw [Int.abs_eq_natAbs, Int.abs_eq_natAbs]
  exact_mod_cast Int.natAbs_tdiv_le_natAbs x g

end Ratio
