import Eshkol.Native.Dispatch
import Mathlib.Data.Int.ModEq

/-!
# Integer Arithmetic on Tags

`eshkol_bignum_binary_tagged` (`lib/core/bignum.cpp`) on two exact integers. An integer
comes as an `INT64` or as a bignum, in any mix, and the bignum need not be out of the
range of `int64_t`: negation leaves small bignums behind.

The operations are numbered: addition, subtraction, multiplication, division, `modulo`,
`quotient`, `remainder` and negation are 0 to 7. Division leaves the integers when it has
to; the three integer divisions do not, and `modulo` moves a truncated remainder of the
wrong sign by one divisor.
-/

namespace Eshkol

open Machine Ratio

variable {D : Type}

/-! ### Integers and results -/

/-- An `INT64` or a normalized bignum of value `x`. -/
def Tagged.IsInteger : Tagged D → ℤ → Prop
  | int64 v, x => v.toInt = x
  | bignum b, x => b.Normalized ∧ b.toInt = x
  | _, _ => False

/-- The call returns the integer `x`. -/
def ReturnsInteger (e : Exec Exn (Tagged D)) (x : ℤ) : Prop := ∃ t, e = .ok t ∧ t.IsInteger x

/-- The call raises a division by zero. -/
def RaisesDivideByZero (e : Exec Exn (Tagged D)) : Prop :=
  ∃ message, e = .error (.raised (.divideByZero message))

/-- The floored remainder of `a` by `b`: congruent to `a`, and zero or of the sign of `b`. -/
structure FlooredRemainder (a b m : ℤ) : Prop where
  congruent : m ≡ a [ZMOD b]
  lt : |m| < |b|
  sign : m = 0 ∨ m.sign = b.sign

/-- What the numbered operations owe two integers `a` and `b`. -/
structure ExactOperations (run : ℤ → Exec Exn (Tagged D)) (a b : ℤ) : Prop where
  add : ReturnsInteger (run 0) (a + b)
  sub : ReturnsInteger (run 1) (a - b)
  mul : ReturnsInteger (run 2) (a * b)
  div : b ≠ 0 → ∃ t, run 3 = .ok t ∧ t.Canonical ∧ t.toRat = some ((a : ℚ) / b)
  modulo : b ≠ 0 → ∃ m, ReturnsInteger (run 4) m ∧ FlooredRemainder a b m
  quotient : b ≠ 0 → ReturnsInteger (run 5) (a.tdiv b)
  remainder : b ≠ 0 → ReturnsInteger (run 6) (a.tmod b)
  neg : ReturnsInteger (run 7) (-a)
  divideByZero : b = 0 → ∀ op, 3 ≤ op → op ≤ 6 → RaisesDivideByZero (run op)

theorem Tagged.IsInteger.coerced {t : Tagged D} {x : ℤ} (h : t.IsInteger x) :
    (∀ operation, rejectFloat32Arithmetic operation t = .ok ()) ∧
      eshkolIsRationalTagged t = false ∧ isDouble t = false ∧
      ∃ b, taggedToBignum t = .ok (some b) ∧ exactBase t = some b ∧ b.Normalized ∧ b.toInt = x := by
  cases t with
  | int64 v =>
    exact ⟨fun _ => rfl, rfl, rfl, _, rfl, rfl, eshkolBignumFromInt64_normalized v,
      (toInt_eshkolBignumFromInt64 v).trans h⟩
  | bignum b => exact ⟨fun _ => rfl, rfl, rfl, b, rfl, rfl, h.1, h.2⟩
  | double _ | float32 | rational _ | bool _ => exact False.elim h

theorem bignumToTaggedInt_isInteger {b : Bignum} (hb : b.Normalized) :
    (bignumToTaggedInt b : Tagged D).IsInteger b.toInt := by
  unfold bignumToTaggedInt
  split
  next v h => exact (eshkolBignumFitsInt64_eq_some_iff hb).mp h
  next h => exact ⟨hb, rfl⟩

theorem returnsInteger_demoted {b : Bignum} {x : ℤ} (hb : b.Normalized) (hx : b.toInt = x) :
    ReturnsInteger (.ok (bignumToTaggedInt b) : Exec Exn (Tagged D)) x :=
  ⟨_, rfl, hx ▸ bignumToTaggedInt_isInteger hb⟩

theorem toRat_rationalResultToTagged {r : Rational} (hr : r.Canonical) :
    (rationalResultToTagged r : Tagged D).toRat = some r.toRat := by
  cases r with
  | small n d =>
    rw [rationalResultToTagged]
    split
    next h =>
        rw [h]
        simp [Tagged.toRat, Rational.toRat, Rational.num, Rational.den]
    next h => rfl
  | big n d =>
    rw [rationalResultToTagged]
    split
    next h =>
        rw [bnEqualsI64, decide_eq_true_eq, eshkolBignumFitsInt64_eq_some_iff hr.2.1] at h
        simp [Tagged.toRat, Rational.toRat, Rational.num, Rational.den, ← h]
    next h => rfl

theorem flooredRemainder_of_tmod {a b : ℤ} (hb : b ≠ 0) :
    FlooredRemainder a b
      (if a.tmod b ≠ 0 ∧ (a.tmod b < 0 ↔ ¬ b < 0) then a.tmod b + b else a.tmod b) := by
  have hcong : a.tmod b ≡ a [ZMOD b] := by
    rw [Int.tmod_def, Int.modEq_iff_dvd]
    exact ⟨a.tdiv b, by omega⟩
  have hlt : (a.tmod b).natAbs < b.natAbs := by
    rw [Int.natAbs_tmod]
    exact Nat.mod_lt _ (Int.natAbs_pos.mpr hb)
  generalize a.tmod b = r at hcong hlt ⊢
  split
  next h =>
      refine ⟨?_, ?_, Or.inr ?_⟩
      · simpa using hcong
      · rw [Int.abs_eq_natAbs, Int.abs_eq_natAbs]
        omega
      · rcases lt_or_gt_of_ne hb with hneg | hpos
        · rw [Int.sign_eq_neg_one_of_neg hneg, Int.sign_eq_neg_one_of_neg (by omega)]
        · rw [Int.sign_eq_one_of_pos hpos, Int.sign_eq_one_of_pos (by omega)]
  next h =>
      refine ⟨hcong, ?_, ?_⟩
      · rw [Int.abs_eq_natAbs, Int.abs_eq_natAbs]
        omega
      · by_cases h0 : r = 0
        · exact Or.inl h0
        · right
          rcases lt_or_gt_of_ne hb with hneg | hpos
          · rw [Int.sign_eq_neg_one_of_neg hneg, Int.sign_eq_neg_one_of_neg (by omega)]
          · rw [Int.sign_eq_one_of_pos hpos, Int.sign_eq_one_of_pos (by omega)]

theorem bignumModulo_spec {x y : Bignum} (hx : x.Normalized) (hy : y.Normalized)
    (hy0 : y.toInt ≠ 0) :
    ∃ r, bignumModulo x y = .ok r ∧ r.Normalized ∧ FlooredRemainder x.toInt y.toInt r.toInt := by
  obtain ⟨m, hm, hmn, hmv⟩ := eshkolBignumMod_eq hx hy hy0
  have hmoved : (!eshkolBignumIsZero m && m.sign != y.sign) = true ↔
      x.toInt.tmod y.toInt ≠ 0 ∧ (x.toInt.tmod y.toInt < 0 ↔ ¬ y.toInt < 0) := by
    rw [← hmv, ← hmn.sign_eq_true_iff, ← hy.sign_eq_true_iff, ne_eq, ← eshkolBignumIsZero_iff hmn]
    cases eshkolBignumIsZero m <;> cases m.sign <;> cases y.sign <;> simp
  have hfloor := flooredRemainder_of_tmod (a := x.toInt) hy0
  rw [bignumModulo, hm, ok_bind]
  by_cases h : (!eshkolBignumIsZero m && m.sign != y.sign) = true
  · rw [if_pos h]
    rw [if_pos (hmoved.mp h), ← hmv, ← toInt_eshkolBignumAdd hmn hy] at hfloor
    exact ⟨_, rfl, eshkolBignumAdd_normalized hmn hy, hfloor⟩
  · rw [if_neg h]
    rw [if_neg (mt hmoved.mpr h), ← hmv] at hfloor
    exact ⟨_, rfl, hmn, hfloor⟩

/-! ### The dispatch -/

theorem eshkolBignumBinaryTagged_integers (ops : DoubleOps D) {left right : Tagged D}
    {a b : ℤ} (hl : left.IsInteger a) (hr : right.IsInteger b) :
    ∃ x y : Bignum, x.Normalized ∧ x.toInt = a ∧ y.Normalized ∧ y.toInt = b ∧
      ∀ op, eshkolBignumBinaryTagged ops left right op
        = if op = 7 then .ok (.bignum (eshkolBignumNeg x)) else bignumBinaryExact x y op := by
  obtain ⟨hla, hlr, hld, x, hx, -, hxn, hxv⟩ := hl.coerced
  obtain ⟨hra, hrr, hrd, y, hy, -, hyn, hyv⟩ := hr.coerced
  refine ⟨x, y, hxn, hxv, hyn, hyv, fun op => ?_⟩
  have hskip : rejectRightFloat32 "bignum arithmetic" right (op = 7) = .ok () := by
    rw [rejectRightFloat32, hra, ite_self]
  simp only [eshkolBignumBinaryTagged, hla, hskip, hlr, hrr, hld, hrd, Bool.or_self,
    Bool.false_eq_true, if_false, ok_bind, bignumNegTagged, hx, hy]

theorem bignumBinaryExact_zero {x y : Bignum} (hy : y.Normalized) (hy0 : y.toInt = 0) {op : ℤ}
    (hlo : 3 ≤ op) (hhi : op ≤ 6) :
    RaisesDivideByZero (bignumBinaryExact x y op : Exec Exn (Tagged D)) := by
  have hz := (eshkolBignumIsZero_iff hy).mpr hy0
  have hmod : eshkolBignumMod x y = .error (.raised (.divideByZero "bignum modulo by zero")) := by
    rw [eshkolBignumMod, if_pos hz]
  rw [bignumBinaryExact, if_neg (by omega), if_neg (by omega), if_neg (by omega)]
  split_ifs with h3 h4 h5 h6
  · exact ⟨_, rfl⟩
  · exact ⟨_, by rw [bignumModulo, hmod, error_bind, error_bind]⟩
  · exact ⟨_, by rw [eshkolBignumDiv, if_pos hz, error_bind]⟩
  · exact ⟨_, by rw [hmod, error_bind]⟩
  · omega

/-- **Integer arithmetic is exact.** In any mix of tags, every operation computes the exact
value, and the only error is a zero divisor. -/
theorem eshkolBignumBinaryTagged_exact (ops : DoubleOps D) {left right : Tagged D} {a b : ℤ}
    (hl : left.IsInteger a) (hr : right.IsInteger b) :
    ExactOperations (eshkolBignumBinaryTagged ops left right) a b := by
  obtain ⟨x, y, hx, rfl, hy, rfl, hrun⟩ := eshkolBignumBinaryTagged_integers ops hl hr
  constructor
  · rw [hrun]
    exact returnsInteger_demoted (eshkolBignumAdd_normalized hx hy) (toInt_eshkolBignumAdd hx hy)
  · rw [hrun]
    exact returnsInteger_demoted (eshkolBignumSub_normalized hx hy) (toInt_eshkolBignumSub hx hy)
  · rw [hrun]
    exact returnsInteger_demoted (eshkolBignumMul_normalized x y) (toInt_eshkolBignumMul x y)
  · intro hy0
    obtain ⟨r, hr, hcan, hval⟩ := eshkolRationalCreateBn_spec hx hy hy0
    have hz : ¬ eshkolBignumIsZero y = true := mt (eshkolBignumIsZero_iff hy).mp hy0
    refine ⟨rationalResultToTagged r, ?_, rationalResultToTagged_canonical hcan, ?_⟩
    · rw [hrun]
      simp [bignumBinaryExact, hz, eshkolRationalFromBignumsTagged, hr]
    · rw [toRat_rationalResultToTagged hcan, hval]
  · intro hy0
    obtain ⟨r, hr, hrn, hfloor⟩ := bignumModulo_spec hx hy hy0
    refine ⟨r.toInt, ?_, hfloor⟩
    rw [hrun]
    simpa [bignumBinaryExact, hr] using returnsInteger_demoted hrn rfl
  · intro hy0
    obtain ⟨q, hq, hqn, hqv⟩ := eshkolBignumDiv_eq hx hy hy0
    rw [hrun]
    simpa [bignumBinaryExact, hq] using returnsInteger_demoted hqn hqv
  · intro hy0
    obtain ⟨r, hr, hrn, hrv⟩ := eshkolBignumMod_eq hx hy hy0
    rw [hrun]
    simpa [bignumBinaryExact, hr] using returnsInteger_demoted hrn hrv
  · rw [hrun]
    exact ⟨_, rfl, eshkolBignumNeg_normalized hx, toInt_eshkolBignumNeg hx⟩
  · intro hy0 op hlo hhi
    rw [hrun, if_neg (by omega)]
    exact bignumBinaryExact_zero hy hy0 hlo hhi

/-- The most negative `int64_t` by a bignum that holds minus one. -/
theorem eshkolBignumBinaryTagged_exact_minValue :
    ExactOperations (eshkolBignumBinaryTagged DoubleOps.unit (.int64 Int64.minValue)
      (.bignum (eshkolBignumFromInt64 (-1)))) (-2 ^ 63) (-1) :=
  eshkolBignumBinaryTagged_exact _ rfl
    ⟨eshkolBignumFromInt64_normalized (-1), toInt_eshkolBignumFromInt64 (-1)⟩

end Eshkol
