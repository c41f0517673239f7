import Eshkol.Native.Parse

/-!
# Canonical Exact Numbers

An exact number has one canonical tagged value, so that equality, hashing and `integer?`
may look at the representation. The theorem below says of each operation that produces
exact numbers precisely when its result is canonical.
-/

namespace Eshkol

open Radix Machine Ratio

variable {D : Type}

/-! ### Uniqueness -/

theorem Bignum.Normalized.eq_of_toInt_eq {a b : Bignum} (ha : a.Normalized) (hb : b.Normalized)
    (h : a.toInt = b.toInt) : a = b := by
  have hmag : a.magnitude = b.magnitude := by rw [← a.natAbs_toInt, ← b.natAbs_toInt, h]
  have hsign : a.sign = b.sign := by
    rw [Bool.eq_iff_iff, ha.sign_eq_true_iff, hb.sign_eq_true_iff, h]
  have hlen : a.limbs.length = b.limbs.length :=
    Nat.le_antisymm (ha.numLimbs_le hmag.le) (hb.numLimbs_le hmag.ge)
  have hlimbs := value_inj_of_length_eq hlen hmag
  cases a
  cases b
  cases hsign
  cases hlimbs
  rfl

theorem Rational.Canonical.eq_of_toRat_eq {r s : Rational} (hr : r.Canonical)
    (hs : s.Canonical) (h : r.toRat = s.toRat) : r = s := by
  obtain ⟨hnum, hden⟩ := hr.lowestTerms.eq_of_div_eq hs.lowestTerms h
  have hfit : ∀ (v : Int64) (b : Bignum), b.Normalized → v.toInt = b.toInt →
      eshkolBignumFitsInt64 b ≠ none := by
    intro v b hb hv
    rw [(eshkolBignumFitsInt64_eq_some_iff hb).mpr hv]
    simp
  cases r with
  | small n d =>
    cases s with
    | small n' d' => rw [Int64.toInt_inj.mp hnum, Int64.toInt_inj.mp hden]
    | big n' d' =>
      rcases hs.2.2.2 with hbig | hbig
      · exact absurd hbig (hfit n n' hs.1 hnum)
      · exact absurd hbig (hfit d d' hs.2.1 hden)
  | big n d =>
    cases s with
    | small n' d' =>
      rcases hr.2.2.2 with hbig | hbig
      · exact absurd hbig (hfit n' n hr.1 hnum.symm)
      · exact absurd hbig (hfit d' d hr.2.1 hden.symm)
    | big n' d' => rw [hr.1.eq_of_toInt_eq hs.1 hnum, hr.2.1.eq_of_toInt_eq hs.2.1 hden]

theorem Tagged.Canonical.toRat_ne_intCast {r : Rational}
    (h : (Tagged.rational r : Tagged D).Canonical) (z : ℤ) : r.toRat ≠ z := by
  intro he
  have hdvd := (Tagged.canonical_rational_iff (D := D) h.1 one_ne_zero
    (by rw [he]; simp : r.toRat = (z : ℚ) / (1 : ℤ))).mp h
  exact hdvd (one_dvd z)

/-- Canonical numbers with one value are equal. -/
theorem Tagged.Canonical.eq_of_toRat_eq {s t : Tagged D} (hs : Operand s) (ht : Operand t)
    (h : s.toRat = t.toRat) : s = t := by
  have hfit : ∀ (v : Int64) (b : Bignum), (Tagged.bignum b : Tagged D).Canonical →
      (v.toInt : ℚ) ≠ b.toInt := by
    rintro v b ⟨hb, hnone⟩ he
    rw [(eshkolBignumFitsInt64_eq_some_iff hb).mpr (by exact_mod_cast he)] at hnone
    cases hnone
  cases s with
  | int64 v =>
    cases t with
    | int64 w =>
      have hvw : (v.toInt : ℚ) = w.toInt := Option.some.inj h
      have hvw' : v = w := Int64.toInt_inj.mp (by exact_mod_cast hvw)
      rw [hvw']
    | bignum b => exact absurd (Option.some.inj h) (hfit v b ht.canonical)
    | rational r =>
      exact absurd (Option.some.inj h).symm (ht.canonical.toRat_ne_intCast _)
    | double _ | float32 | bool _ => exact absurd ht.exact id
  | bignum b =>
    cases t with
    | int64 v => exact absurd (Option.some.inj h).symm (hfit v b hs.canonical)
    | bignum c =>
      have hbc : (b.toInt : ℚ) = c.toInt := Option.some.inj h
      rw [hs.canonical.1.eq_of_toInt_eq ht.canonical.1 (by exact_mod_cast hbc)]
    | rational r =>
      exact absurd (Option.some.inj h).symm (ht.canonical.toRat_ne_intCast _)
    | double _ | float32 | bool _ => exact absurd ht.exact id
  | rational r =>
    cases t with
    | int64 v => exact absurd (Option.some.inj h) (hs.canonical.toRat_ne_intCast _)
    | bignum b => exact absurd (Option.some.inj h) (hs.canonical.toRat_ne_intCast _)
    | rational q =>
      rw [hs.canonical.1.eq_of_toRat_eq ht.canonical.1 (Option.some.inj h)]
    | double _ | float32 | bool _ => exact absurd ht.exact id
  | double _ | float32 | bool _ => exact absurd hs.exact id

/-! ### Results -/

/-- **Canonical results, with exact conditions.** For exact operands with canonical tags,
rational dispatch always returns a canonical number or raises. Bignum dispatch does except
for a negation whose result fits `int64_t`; `gcd` unless an operand is a rational; `expt`
unless the base is a rational, or one or minus one under a negative exponent; bitwise
dispatch unless a shift is undefined; and `string->number` unless the text is a fraction
whose denominator divides its numerator. -/
theorem exact_results_canonical_iff (ops : DoubleOps D) {left right : Tagged D}
    (hl : Operand left) (hr : Operand right) (hobj : left.PayloadFits) :
    (∀ op, CanonicalResult (eshkolRationalBinaryTagged ops left right op)) ∧
    (∀ op, CanonicalResult (eshkolBignumBinaryTagged ops left right op) ↔
      ¬ (op = 7 ∧ eshkolIsRationalTagged right = false ∧
        ∃ x, left.toInt = some x ∧ -2 ^ 63 ≤ -x ∧ -x < 2 ^ 63)) ∧
    (CanonicalResult (eshkolGcdTagged left right) ↔
      eshkolIsRationalTagged left = false ∧ eshkolIsRationalTagged right = false) ∧
    (CanonicalResult (eshkolBignumPowTagged ops left right) ↔ eshkolIsRationalTagged left = false ∧
        ¬ ((left.toInt = some 1 ∨ left.toInt = some (-1)) ∧
          ∃ e : Int64, right = .int64 e ∧ e.toInt < 0)) ∧
    (∀ op, CanonicalResult (eshkolBignumBitwiseTagged left right op) ↔
      (op = 4 → ∀ x, toBignum left = some x → ShiftDefined x (shiftCount right))) ∧
    (∀ str radix, CanonicalResult (eshkolStringToNumberRadixTagged ops str radix) ↔
      ∀ n d, s2nFraction str radix = some (n, d) → ¬ d.toInt ∣ n.toInt) :=
  ⟨eshkolRationalBinaryTagged_canonical ops hl hr, eshkolBignumBinaryTagged_iff ops hl hr,
    eshkolGcdTagged_iff hl hr, eshkolBignumPowTagged_iff ops hl hr,
    eshkolBignumBitwiseTagged_iff hl hr hobj, eshkolStringToNumberRadixTagged_iff ops⟩

/-- The power and the sum of two and minus three. -/
theorem exact_results_canonical_iff_two :
    CanonicalResult (eshkolBignumPowTagged DoubleOps.unit (.int64 2) (.int64 (-3))) ∧
      CanonicalResult (eshkolBignumBinaryTagged DoubleOps.unit (.int64 2) (.int64 (-3)) 0) := by
  have hl : Operand (.int64 2 : Tagged Unit) := ⟨trivial, trivial⟩
  have hr : Operand (.int64 (-3) : Tagged Unit) := ⟨trivial, trivial⟩
  have h := exact_results_canonical_iff DoubleOps.unit hl hr trivial
  refine ⟨h.2.2.2.1.mpr ⟨rfl, ?_⟩, (h.2.1 0).mpr ?_⟩
  · rintro ⟨h1 | h1, -⟩
    · revert h1
      decide
    · revert h1
      decide
  · rintro ⟨h1, -⟩
    revert h1
    decide

/-- The negative of five comes back as a bignum, `(expt 1 -1)` as the rational `1/1`, and the
text `4/2` is read as the rational `2/1`. -/
theorem exact_results_not_canonical :
    ¬ CanonicalResult (eshkolBignumBinaryTagged DoubleOps.unit (.int64 5) (.int64 0) 7) ∧
    ¬ CanonicalResult (eshkolBignumPowTagged DoubleOps.unit (.int64 1) (.int64 (-1))) ∧
    ¬ CanonicalResult
      (eshkolStringToNumberRadixTagged DoubleOps.unit ['4', '/', '2'] 10) := by
  have hint : ∀ v, Operand (.int64 v : Tagged Unit) := fun v => ⟨trivial, trivial⟩
  refine ⟨fun h => ?_, fun h => ?_, fun h => ?_⟩
  · exact (eshkolBignumBinaryTagged_iff _ (hint 5) (hint 0) 7).mp h
      ⟨rfl, rfl, 5, rfl, by decide, by decide⟩
  · exact ((eshkolBignumPowTagged_iff _ (hint 1) (hint (-1))).mp h).2
      ⟨Or.inl rfl, -1, rfl, by decide⟩
  · exact (eshkolStringToNumberRadixTagged_iff _ _ _).mp h 4 2 (by decide) (by decide)

end Eshkol
