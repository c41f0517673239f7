import Eshkol.Native.Divide
import Eshkol.Vm.Divide

/-!
# Agreement of the Two Bignum Engines

The native runtime (`lib/core/bignum.cpp`, 64-bit limbs, at least one) and the bytecode VM
(`lib/backend/vm_bignum.c`, 32-bit limbs, none for zero) have each their own arithmetic,
down to their own Algorithm D. They meet in the integers: `SameInteger` relates a native
number to a VM number when both are in normal form and denote the same integer, and every
operation of the one engine is matched by that of the other.
-/

namespace Eshkol

/-! ### The native engine -/

/-- **The native operations** on normalized numbers return normalized numbers of the right
value, and comparison is the sign of the difference. -/
theorem eshkolBignum_arith {a b : Bignum} (ha : a.Normalized) (hb : b.Normalized) :
    ((eshkolBignumAdd a b).Normalized ∧ (eshkolBignumAdd a b).toInt = a.toInt + b.toInt) ∧
    ((eshkolBignumSub a b).Normalized ∧ (eshkolBignumSub a b).toInt = a.toInt - b.toInt) ∧
    ((eshkolBignumMul a b).Normalized ∧ (eshkolBignumMul a b).toInt = a.toInt * b.toInt) ∧
    ((eshkolBignumNeg a).Normalized ∧ (eshkolBignumNeg a).toInt = -a.toInt) ∧
    eshkolBignumCompare a b = (a.toInt - b.toInt).sign :=
  ⟨⟨eshkolBignumAdd_normalized ha hb, toInt_eshkolBignumAdd ha hb⟩,
    ⟨eshkolBignumSub_normalized ha hb, toInt_eshkolBignumSub ha hb⟩,
    ⟨eshkolBignumMul_normalized a b, toInt_eshkolBignumMul a b⟩,
    ⟨eshkolBignumNeg_normalized ha, toInt_eshkolBignumNeg ha⟩,
    eshkolBignumCompare_eq ha hb⟩

/-- The operands `2 ^ 64` and `-1`: the sum loses its top limb. -/
theorem eshkolBignum_arith_borrow :
    (⟨false, [0, 1], by simp⟩ : Bignum).Normalized ∧ (⟨true, [1], by simp⟩ : Bignum).Normalized ∧
    (eshkolBignumAdd ⟨false, [0, 1], by simp⟩ ⟨true, [1], by simp⟩).Normalized ∧
    (eshkolBignumAdd ⟨false, [0, 1], by simp⟩ ⟨true, [1], by simp⟩).toInt
      = Bignum.toInt ⟨false, [0, 1], by simp⟩ + Bignum.toInt ⟨true, [1], by simp⟩ := by
  have ha : (⟨false, [0, 1], by simp⟩ : Bignum).Normalized := by decide
  have hb : (⟨true, [1], by simp⟩ : Bignum).Normalized := by decide
  exact ⟨ha, hb, (eshkolBignum_arith ha hb).1⟩

namespace Vm

open Machine

/-! ### Both engines -/

/-- A native number and a VM number in normal form that denote the same integer. -/
structure SameInteger (x : Bignum) (a : VmBignum) : Prop where
  native : x.Normalized
  vm : a.Normalized
  value : x.toInt = a.toInt

/-- **Exactness of the VM, and agreement.** The VM's operations on normalized numbers are
exact and normalized, and division truncates. On native numbers that hold the same integers
the native engine returns the same integers. -/
theorem bignum_arith_agrees {a b : VmBignum} (ha : a.Normalized) (hb : b.Normalized) :
    ((bignumAdd a b).Normalized ∧ (bignumAdd a b).toInt = a.toInt + b.toInt) ∧
    ((bignumSub a b).Normalized ∧ (bignumSub a b).toInt = a.toInt - b.toInt) ∧
    ((bignumMul a b).Normalized ∧ (bignumMul a b).toInt = a.toInt * b.toInt) ∧
    bignumCompare a b = (a.toInt - b.toInt).sign ∧
    (b.toInt ≠ 0 → ∃ q r, bignumDivmod a b = .ok (some q, r) ∧ q.Normalized ∧ r.Normalized ∧
      a.toInt = q.toInt * b.toInt + r.toInt ∧ |r.toInt| < |b.toInt| ∧
      (r.toInt = 0 ∨ r.toInt.sign = a.toInt.sign)) ∧
    ∀ x y : Bignum, SameInteger x a → SameInteger y b →
      SameInteger (eshkolBignumAdd x y) (bignumAdd a b) ∧
      SameInteger (eshkolBignumSub x y) (bignumSub a b) ∧
      SameInteger (eshkolBignumMul x y) (bignumMul a b) ∧
      eshkolBignumCompare x y = bignumCompare a b ∧
      (b.toInt ≠ 0 → ∃ q r q' r', bignumDivmod a b = .ok (some q, r) ∧
        eshkolBignumDiv x y = .ok q' ∧ eshkolBignumMod x y = .ok r' ∧
        SameInteger q' q ∧ SameInteger r' r) := by
  have hadd := bignumAdd_spec ha hb
  have hsub := bignumSub_spec ha hb
  have hmul := bignumMul_spec ha hb
  have hcmp := bignumCompare_eq ha hb
  refine ⟨hadd, hsub, hmul, hcmp, ?_, ?_⟩
  · intro hb0
    obtain ⟨q, r, hqr, hq, hr, hqv, hrv⟩ := bignumDivmod_spec ha hb hb0
    refine ⟨q, r, hqr, hq, hr, ?_, ?_, ?_⟩
    · rw [hqv, hrv, Int.mul_comm, Int.mul_tdiv_add_tmod]
    · rw [hrv, Int.abs_eq_natAbs, Int.abs_eq_natAbs, Int.natAbs_tmod]
      exact_mod_cast Nat.mod_lt _ (Int.natAbs_pos.mpr hb0)
    · have hsign := Int.sign_tmod a.toInt b.toInt
      rw [← hrv] at hsign
      split at hsign
      next h => exact Or.inl (Int.sign_eq_zero_iff_zero.mp hsign)
      next h => exact Or.inr hsign
  · intro x y hx hy
    refine ⟨⟨eshkolBignumAdd_normalized hx.native hy.native, hadd.1, ?_⟩,
      ⟨eshkolBignumSub_normalized hx.native hy.native, hsub.1, ?_⟩,
      ⟨eshkolBignumMul_normalized x y, hmul.1, ?_⟩, ?_, ?_⟩
    · rw [toInt_eshkolBignumAdd hx.native hy.native, hadd.2, hx.value, hy.value]
    · rw [toInt_eshkolBignumSub hx.native hy.native, hsub.2, hx.value, hy.value]
    · rw [toInt_eshkolBignumMul, hmul.2, hx.value, hy.value]
    · rw [eshkolBignumCompare_eq hx.native hy.native, hcmp, hx.value, hy.value]
    · intro hb0
      have hy0 : y.toInt ≠ 0 := by rwa [hy.value]
      obtain ⟨q, r, hqr, hq, hr, hqv, hrv⟩ := bignumDivmod_spec ha hb hb0
      obtain ⟨q', hq', hqn, hqv'⟩ := eshkolBignumDiv_eq hx.native hy.native hy0
      obtain ⟨r', hr', hrn, hrv'⟩ := eshkolBignumMod_eq hx.native hy.native hy0
      refine ⟨q, r, q', r', hqr, hq', hr', ⟨hqn, hq, ?_⟩, ⟨hrn, hr, ?_⟩⟩
      · rw [hqv', hqv, hx.value, hy.value]
      · rw [hrv', hrv, hx.value, hy.value]

/-- The operands `-(2 ^ 64 + 5)` and `2 ^ 32 + 3`, of three and two limbs in the VM and of
two and one in the native engine. -/
theorem bignum_arith_agrees_three_limbs_by_two :
    (⟨-1, [5, 0, 1]⟩ : VmBignum).Normalized ∧ (⟨1, [3, 1]⟩ : VmBignum).Normalized ∧
    ∃ q r q' r', bignumDivmod ⟨-1, [5, 0, 1]⟩ ⟨1, [3, 1]⟩ = .ok (some q, r) ∧
      eshkolBignumDiv ⟨true, [5, 1], by simp⟩ ⟨false, [4294967299], by simp⟩ = .ok q' ∧
      eshkolBignumMod ⟨true, [5, 1], by simp⟩ ⟨false, [4294967299], by simp⟩ = .ok r' ∧
      SameInteger q' q ∧ SameInteger r' r := by
  have ha : (⟨-1, [5, 0, 1]⟩ : VmBignum).Normalized := by decide
  have hb : (⟨1, [3, 1]⟩ : VmBignum).Normalized := by decide
  refine ⟨ha, hb, ?_⟩
  obtain ⟨-, -, -, -, -, h⟩ := bignum_arith_agrees ha hb
  exact (h ⟨true, [5, 1], by simp⟩ ⟨false, [4294967299], by simp⟩ ⟨by decide, ha, by decide⟩
    ⟨by decide, hb, by decide⟩).2.2.2.2 (by decide)

end Vm

end Eshkol
