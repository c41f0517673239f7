import Eshkol.Native.TaggedInteger
import Eshkol.Vm.Agreement

/-!
# Powers

Powers of exact integers in both engines. The native runtime squares the base itself
(`eshkol_bignum_pow` in `lib/core/bignum.cpp`); the VM squares its magnitude and sets the sign at
the end (`bignum_pow` in `lib/backend/vm_bignum.c`). The exponent of both is a `uint64_t`.

`eshkol_bignum_pow_tagged` takes an exponent tagged `INT64`, as the compiled code hands it one, and
takes the reciprocal for a negative one. An exponent of any other tag, a bignum among them, goes to
the `pow` of doubles.
-/

namespace Eshkol.Vm

open Machine

/-! ### The VM's power -/

/-- The squaring loop of `bignum_pow`. The exponent has 64 bits, so 65 passes suffice. -/
def bignumPowLoop : ℕ → VmBignum → VmBignum → ℕ → Exec Empty VmBignum
  | 0, _, _, _ => .error .diverges
  | fuel + 1, result, b, e =>
    if e = 0 then .ok result
    else
      let result := if e % 2 = 1 then bignumMul result b else result
      let e := e / 2
      let b := if 0 < e then bignumMul b b else b
      bignumPowLoop fuel result b e

def bignumPow (base : VmBignum) (exp : ℕ) : Exec Empty VmBignum :=
  if exp = 0 then .ok (bignumFromInt64 1)
  else if exp = 1 then .ok base
  else if bignumIsZero base then .ok (bignumFromInt64 0)
  else do
    let result ← bignumPowLoop 65 (bignumFromInt64 1) { base with sign := 1 } exp
    if base.sign = -1 ∧ exp % 2 = 1 then .ok { result with sign := -1 } else .ok result

theorem bignumPowLoop_spec {fuel e : ℕ} (he : e < 2 ^ fuel) {x y : VmBignum} (hx : x.Normalized)
    (hy : y.Normalized) :
    ∃ r, bignumPowLoop (fuel + 1) x y e = .ok r ∧ r.Normalized ∧
      r.toInt = x.toInt * y.toInt ^ e := by
  induction fuel generalizing e x y with
  | zero =>
    obtain rfl : e = 0 := by omega
    exact ⟨x, rfl, hx, by simp⟩
  | succ fuel ih =>
    rw [bignumPowLoop]
    by_cases h0 : e = 0
    · rw [if_pos h0]
      exact ⟨x, rfl, hx, by simp [h0]⟩
    · rw [if_neg h0]
      obtain ⟨hxyn, hxyv⟩ := bignumMul_spec hx hy
      obtain ⟨hyyn, hyyv⟩ := bignumMul_spec hy hy
      set x' := if e % 2 = 1 then bignumMul x y else x with hx'
      set y' := if 0 < e / 2 then bignumMul y y else y with hy'
      have hxn : x'.Normalized := by
        rw [hx']
        split
        · exact hxyn
        · exact hx
      have hyn : y'.Normalized := by
        rw [hy']
        split
        · exact hyyn
        · exact hy
      obtain ⟨r, hr, hrn, hval⟩ := ih (by omega : e / 2 < 2 ^ fuel) hxn hyn
      refine ⟨r, hr, hrn, ?_⟩
      rw [hval, hx', hy', apply_ite VmBignum.toInt, apply_ite VmBignum.toInt, hxyv, hyyv]
      exact squaring_pass x.toInt y.toInt e

theorem overwriteSign_spec {a : VmBignum} (ha : a.Normalized) (h0 : a.toInt ≠ 0) {s : SignType}
    (hs : s ≠ 0) :
    ({ a with sign := s } : VmBignum).Normalized ∧
      ({ a with sign := s } : VmBignum).toInt = (s : ℤ) * a.toInt.natAbs := by
  have hne : a.limbs ≠ [] := mt ha.toInt_eq_zero_iff.mpr h0
  refine ⟨⟨ha.top_ne_zero, iff_of_false hs hne⟩, ?_⟩
  rw [ha.natAbs_toInt]
  rfl

theorem signed_natAbs_pow {b : ℤ} {e : ℕ} :
    (if b < 0 ∧ e % 2 = 1 then -((b.natAbs : ℤ) ^ e) else (b.natAbs : ℤ) ^ e) = b ^ e := by
  rcases le_or_gt 0 b with hb | hb
  · rw [if_neg (by omega), Int.natAbs_of_nonneg hb]
  · have habs : (b.natAbs : ℤ) = -b := by omega
    rw [habs]
    split
    next h => rw [(Nat.odd_iff.mpr h.2).neg_pow, neg_neg]
    next h => rw [(Nat.even_iff.mpr (by omega)).neg_pow]

theorem bignumPow_spec {a : VmBignum} (ha : a.Normalized) {e : ℕ} (he : e < 2 ^ 64) :
    ∃ r, bignumPow a e = .ok r ∧ r.Normalized ∧ r.toInt = a.toInt ^ e := by
  obtain ⟨honen, honev⟩ := bignumFromInt64_spec 1
  obtain ⟨hzeron, hzerov⟩ := bignumFromInt64_spec 0
  rw [bignumPow]
  by_cases h0 : e = 0
  · rw [if_pos h0]
    exact ⟨_, rfl, honen, by rw [honev, h0, pow_zero]; rfl⟩
  rw [if_neg h0]
  by_cases h1 : e = 1
  · rw [if_pos h1]
    exact ⟨_, rfl, ha, by rw [h1, pow_one]⟩
  rw [if_neg h1]
  by_cases ha0 : a.toInt = 0
  · rw [if_pos ((bignumIsZero_iff ha).mpr ha0)]
    exact ⟨_, rfl, hzeron, by rw [hzerov, ha0, zero_pow h0]; rfl⟩
  · rw [if_neg (mt (bignumIsZero_iff ha).mp ha0)]
    obtain ⟨hmagn, hmagv⟩ := overwriteSign_spec ha ha0 (s := 1) one_ne_zero
    obtain ⟨r, hr, hrn, hrv⟩ := bignumPowLoop_spec he honen hmagn
    have hval : r.toInt = (a.toInt.natAbs : ℤ) ^ e := by
      rw [hrv, honev, hmagv]
      simp
    have hr0 : r.toInt ≠ 0 := by
      rw [hval]
      exact pow_ne_zero e (by omega)
    have hneg : a.sign = -1 ↔ a.toInt < 0 := by rw [ha.sign_eq, sign_eq_neg_one_iff]
    rw [hr, ok_bind, ← signed_natAbs_pow]
    simp only [hneg]
    split
    next h =>
        obtain ⟨hn, hv⟩ := overwriteSign_spec hrn hr0 (s := -1) (by decide)
        refine ⟨_, rfl, hn, ?_⟩
        rw [hv, hval, Int.natAbs_pow, Int.natAbs_natCast]
        simp
    next h => exact ⟨r, rfl, hrn, hval⟩

/-! ### Tagged exponents -/

section

variable {D : Type} (ops : DoubleOps D) {base : Tagged D} {b : ℤ} (hbase : base.IsInteger b)
include hbase

theorem eshkolBignumPowTagged_nonneg {n : Int64} (hn : 0 ≤ n.toInt) :
    ReturnsInteger (eshkolBignumPowTagged ops base (.int64 n)) (b ^ n.toInt.toNat) := by
  obtain ⟨hacc, -, -, x, -, hx, -, rfl⟩ := hbase.coerced
  have hexp : rejectFloat32Arithmetic "expt" (.int64 n : Tagged D) = .ok () := rfl
  have hlt := n.toInt_lt
  obtain ⟨r, hr, hrn, hrv⟩ := eshkolBignumPow_spec (x := x) (by omega : n.toInt.toNat < 2 ^ 64)
  simp only [eshkolBignumPowTagged, hacc, hexp, hx, if_pos hn, hr, ok_bind]
  exact returnsInteger_demoted hrn hrv

theorem eshkolBignumPowTagged_neg {n : Int64} (hn : n.toInt < 0) (hb0 : b ≠ 0)
    (hfit : -2 ^ 63 ≤ b ^ (-n.toInt).toNat ∧ b ^ (-n.toInt).toNat < 2 ^ 63) :
    ∃ r, eshkolBignumPowTagged ops base (.int64 n) = .ok (.rational r) ∧ r.Canonical ∧
      r.toRat = 1 / (b : ℚ) ^ (-n.toInt).toNat := by
  obtain ⟨hacc, -, -, x, -, hx, -, rfl⟩ := hbase.coerced
  have hexp : rejectFloat32Arithmetic "expt" (.int64 n : Tagged D) = .ok () := rfl
  have hlo := n.le_toInt
  have hmag : (-n.toInt % 2 ^ 64).toNat = (-n.toInt).toNat := by omega
  obtain ⟨r, hr, hcan, hval⟩ := powNegative_reciprocal ops base (.int64 n)
    (by omega : (-n.toInt).toNat < 2 ^ 64) hb0 hfit
  refine ⟨r, ?_, hcan, by rw [hval]; push_cast; rfl⟩
  simp only [eshkolBignumPowTagged, hacc, hexp, hx, if_neg (not_le.mpr hn), hmag, hr, ok_bind]

theorem eshkolBignumPowTagged_bignum (e : Bignum) :
    ∃ d, eshkolBignumPowTagged ops base (.bignum e) = .ok (.double d) := by
  cases base with
  | int64 _ | bignum _ => exact ⟨_, rfl⟩
  | double _ | float32 | rational _ | bool _ => exact False.elim hbase

end

/-- **Powers are exact** in both engines: to every `uint64_t` exponent of `eshkol_bignum_pow` and
`bignum_pow`, and to every exponent tagged `INT64`, a negative one giving the reciprocal over a
positive denominator where the power fits `int64_t`. A bignum exponent gives a double. -/
theorem power_exact {D : Type} (ops : DoubleOps D) {base : Tagged D} {b : ℤ}
    (hbase : base.IsInteger b) :
    (∀ x : Bignum, x.toInt = b → ∀ e < 2 ^ 64,
      ∃ r, eshkolBignumPow x e = .ok r ∧ r.Normalized ∧ r.toInt = b ^ e) ∧
    (∀ a : VmBignum, a.Normalized → a.toInt = b → ∀ e < 2 ^ 64,
      ∃ r, bignumPow a e = .ok r ∧ r.Normalized ∧ r.toInt = b ^ e) ∧
    (∀ n : Int64, 0 ≤ n.toInt →
      ReturnsInteger (eshkolBignumPowTagged ops base (.int64 n)) (b ^ n.toInt.toNat)) ∧
    (∀ n : Int64, n.toInt < 0 → b ≠ 0 →
      -2 ^ 63 ≤ b ^ (-n.toInt).toNat ∧ b ^ (-n.toInt).toNat < 2 ^ 63 →
      ∃ r, eshkolBignumPowTagged ops base (.int64 n) = .ok (.rational r) ∧
        r.toRat = 1 / (b : ℚ) ^ (-n.toInt).toNat ∧ 0 < r.den) ∧
    ∀ e : Bignum, ∃ d, eshkolBignumPowTagged ops base (.bignum e) = .ok (.double d) := by
  refine ⟨?_, ?_, ?_, ?_, eshkolBignumPowTagged_bignum ops hbase⟩
  · rintro x rfl e he
    exact eshkolBignumPow_spec he
  · rintro a ha rfl e he
    exact bignumPow_spec ha he
  · intro n hn
    exact eshkolBignumPowTagged_nonneg ops hbase hn
  · intro n hn hb0 hfit
    obtain ⟨r, hr, hcan, hval⟩ := eshkolBignumPowTagged_neg ops hbase hn hb0 hfit
    exact ⟨r, hr, hval, hcan.lowestTerms.den_pos⟩

/-- Minus two to an odd power, and to a negative one. -/
theorem power_exact_minus_two :
    ReturnsInteger (eshkolBignumPowTagged DoubleOps.unit (.int64 (-2)) (.int64 65)) ((-2) ^ 65) ∧
      (∃ r, bignumPow (bignumFromInt64 (-2)) 65 = .ok r ∧ r.Normalized ∧ r.toInt = (-2) ^ 65) ∧
      ∃ r, eshkolBignumPowTagged DoubleOps.unit (.int64 (-2)) (.int64 (-3)) = .ok (.rational r) ∧
        r.toRat = 1 / ((-2 : ℤ) : ℚ) ^ 3 ∧ 0 < r.den := by
  have hbase : (.int64 (-2) : Tagged Unit).IsInteger (-2) := by rfl
  obtain ⟨-, hvm, hpos, hneg, -⟩ := power_exact DoubleOps.unit hbase
  obtain ⟨hnorm, hval⟩ := bignumFromInt64_spec (-2)
  exact ⟨hpos 65 (by decide), hvm _ hnorm hval 65 (by decide),
    hneg (-3) (by decide) (by decide) (by decide)⟩

/-- One to the power `2 ^ 126` is not an exact one. -/
theorem eshkolBignumPowTagged_inexact :
    (.int64 1 : Tagged Unit).IsInteger 1 ∧
      (.bignum (eshkolBignumMul (eshkolBignumFromInt64 Int64.minValue)
        (eshkolBignumFromInt64 Int64.minValue)) : Tagged Unit).IsInteger (2 ^ 126) ∧
      ¬ ReturnsInteger (eshkolBignumPowTagged DoubleOps.unit (.int64 1)
        (.bignum (eshkolBignumMul (eshkolBignumFromInt64 Int64.minValue)
          (eshkolBignumFromInt64 Int64.minValue)))) (1 ^ 2 ^ 126) := by
  refine ⟨rfl, ⟨eshkolBignumMul_normalized _ _, ?_⟩, ?_⟩
  · rw [toInt_eshkolBignumMul, toInt_eshkolBignumFromInt64]
    rfl
  · rintro ⟨t, ht, hint⟩
    cases ht
    exact hint

end Eshkol.Vm
