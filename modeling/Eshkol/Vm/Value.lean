import Eshkol.Vm.Rational

/-!
# VM Exact Numbers

The exact numbers among the values of the bytecode VM (`lib/backend/vm_native.c`): fixnums,
bignums and rationals, with the heap boxes of the last two read through. The helpers that
push a result bring it to canonical form; comparison coerces both operands to rationals or to
bignums.

`equal?` compares two rationals by their `int64_t` fields. In a bignum pair these are the
placeholders `0/1`, so any two bignum pairs are `equal?`.
-/

namespace Eshkol.Vm

open Machine Ratio

/-- An exact number of the VM: `VAL_INT`, `VAL_BIGNUM` or `VAL_RATIONAL`. -/
inductive ExactVal : Type
  | int (i : Int64)
  | bignum (b : VmBignum)
  | rational (r : VmRational)
  deriving DecidableEq

namespace ExactVal

/-- The rational number denoted. -/
def toRat : ExactVal → ℚ
  | int i => i.toInt
  | bignum b => b.toInt
  | rational r => r.toRat

/-- A fixnum, a normalized bignum that is no fixnum, or a canonical rational that is no
integer. -/
def Canonical : ExactVal → Prop
  | int _ => True
  | bignum b => b.Normalized ∧ ¬ VmRational.InInt64 b.toInt
  | rational r => r.Canonical ∧ r.denInt ≠ 1

instance (v : ExactVal) : Decidable v.Canonical :=
  match v with
  | int _ => inferInstanceAs (Decidable True)
  | bignum _ => inferInstanceAs (Decidable (_ ∧ _))
  | rational _ => inferInstanceAs (Decidable (_ ∧ _))

/-- A fixnum, a normalized bignum or a canonical rational of value `q`. The bignum may fit
`int64_t`, and the rational may be an integer. -/
def IsExact : ExactVal → ℚ → Prop
  | int i, q => (i.toInt : ℚ) = q
  | bignum b, q => b.Normalized ∧ (b.toInt : ℚ) = q
  | rational r, q => r.Canonical ∧ r.toRat = q

theorem Canonical.isExact {v : ExactVal} (h : v.Canonical) : v.IsExact v.toRat := by
  cases v with
  | int i => exact rfl
  | bignum b => exact ⟨h.1, rfl⟩
  | rational r => exact ⟨h.1, rfl⟩

/-- A rational held as a bignum pair. -/
def isBigRational : ExactVal → Bool
  | rational r => r.isBig
  | _ => false

end ExactVal

/-! ### Pushing results -/

/-- `vm_push_bignum_norm`, with the value it pushes. -/
def vmPushBignumNorm (b : VmBignum) : ExactVal :=
  let v := bignumToInt64 b
  if !v.2 then .int v.1 else .bignum b

/-- `vm_push_rational_norm`, with the value it pushes. -/
def vmPushRationalNorm : VmRational → ExactVal
  | .big num den => if vmBnIsI64 den 1 then vmPushBignumNorm num else .rational (.big num den)
  | .small num denom => if denom = 1 then .int num else .rational (.small num denom)

theorem vmPushBignumNorm_spec {b : VmBignum} (hb : b.Normalized) :
    (vmPushBignumNorm b).Canonical ∧ (vmPushBignumNorm b).toRat = b.toInt := by
  obtain ⟨hfit, hval⟩ := bignumToInt64_spec hb
  simp only [vmPushBignumNorm, Bool.not_eq_true']
  split
  next hov => exact ⟨trivial, by rw [ExactVal.toRat, hval hov]⟩
  next hov => exact ⟨⟨hb, mt hfit.mpr hov⟩, rfl⟩

theorem vmPushRationalNorm_spec {r : VmRational} (hr : r.Canonical) :
    (vmPushRationalNorm r).Canonical ∧ (vmPushRationalNorm r).toRat = r.toRat := by
  cases r with
  | small num denom =>
    rw [vmPushRationalNorm]
    split
    next h =>
        refine ⟨trivial, ?_⟩
        rw [ExactVal.toRat, VmRational.toRat, VmRational.numInt, VmRational.denInt, h]
        simp
    next h => exact ⟨⟨hr, fun h1 => h (Int64.toInt_inj.mp h1)⟩, rfl⟩
  | big num den =>
    have hone := vmBnIsI64_iff hr.2.1 1
    rw [vmPushRationalNorm]
    split
    next h =>
        obtain ⟨hcan, hval⟩ := vmPushBignumNorm_spec hr.1
        refine ⟨hcan, ?_⟩
        rw [hval, VmRational.toRat, VmRational.numInt, VmRational.denInt, hone.mp h]
        simp
    next h => exact ⟨⟨hr, mt hone.mpr h⟩, rfl⟩

/-! ### Comparison -/

/-- `vm_rational_compare`, on the `int64_t` fields. A product of two `int64_t` always fits
128 bits. -/
def vmRationalCompare (a b : VmRational) : ℤ :=
  let lhs := a.num.toInt * b.denom.toInt
  let rhs := b.num.toInt * a.denom.toInt
  if lhs < rhs then -1 else if lhs > rhs then 1 else 0

def vmRationalCompareExact (a b : VmRational) : ℤ :=
  if !a.isBig && !b.isBig then vmRationalCompare a b
  else
    bignumCompare (bignumMul (vmRatNumBn a) (vmRatDenBn b)) (bignumMul (vmRatNumBn b) (vmRatDenBn a))

def vmCoerceRational : ExactVal → VmRational
  | .rational r => r
  | .bignum b => .big b (bignumFromInt64 1)
  | .int i => .small i 1

/-- `vm_coerce_bignum`. A value that is no integer goes through `as_number`, which is zero. -/
def vmCoerceBignum : ExactVal → VmBignum
  | .bignum b => b
  | .int i => bignumFromInt64 i
  | .rational _ => bignumFromInt64 0

/-- `vm_bignum_compare_vals`, on exact numbers. -/
def vmBignumCompareVals (a b : ExactVal) : ℤ :=
  match a, b with
  | .rational _, _ | _, .rational _ =>
    vmRationalCompareExact (vmCoerceRational a) (vmCoerceRational b)
  | _, _ => bignumCompare (vmCoerceBignum a) (vmCoerceBignum b)

/-- `vm_deep_equal`, on exact numbers: values of different types are not equal. -/
def vmDeepEqual : ExactVal → ExactVal → Bool
  | .int i, .int j => i = j
  | .bignum x, .bignum y => bignumCompare x y = 0
  | .rational r, .rational s => r.num = s.num ∧ r.denom = s.denom
  | _, _ => false

theorem vmCoerceRational_spec {v : ExactVal} (hv : v.Canonical) :
    (vmCoerceRational v).Canonical ∧ (vmCoerceRational v).toRat = v.toRat := by
  obtain ⟨honen, honev⟩ := bignumFromInt64_spec 1
  have hone : (bignumFromInt64 1).toInt = 1 := honev
  cases v with
  | int i =>
    refine ⟨⟨by decide, ?_⟩, ?_⟩
    · rw [show ((1 : Int64).toInt) = 1 from rfl, Int.gcd_one_right]
    · simp [vmCoerceRational, VmRational.toRat, VmRational.numInt, VmRational.denInt,
        ExactVal.toRat]
  | bignum b =>
    refine ⟨⟨hv.1, honen, ⟨by rw [hone]; decide, by rw [hone, Int.gcd_one_right]⟩,
      fun h => hv.2 h.1⟩, ?_⟩
    rw [vmCoerceRational, VmRational.toRat, VmRational.numInt, VmRational.denInt, hone,
      ExactVal.toRat]
    simp
  | rational r => exact ⟨hv.1, rfl⟩

/-- What comparison needs of a pair: a positive denominator and normalized parts. -/
def VmRational.Comparable : VmRational → Prop
  | .small _ d => 0 < d.toInt
  | .big n d => n.Normalized ∧ d.Normalized ∧ 0 < d.toInt

section

variable {r : VmRational}

theorem VmRational.Canonical.comparable (h : r.Canonical) : r.Comparable := by
  have hpos := h.lowestTerms.den_pos
  cases r with
  | small n d => exact hpos
  | big n d => exact ⟨h.1, h.2.1, hpos⟩

variable (h : r.Comparable)
include h

theorem VmRational.Comparable.den_pos : 0 < r.denInt := by
  cases r with
  | small n d => exact h
  | big n d => exact h.2.2

theorem VmRational.Comparable.parts :
    ((vmRatNumBn r).Normalized ∧ (vmRatNumBn r).toInt = r.numInt) ∧
      (vmRatDenBn r).Normalized ∧ (vmRatDenBn r).toInt = r.denInt := by
  cases r with
  | small n d => exact ⟨bignumFromInt64_spec n, bignumFromInt64_spec d⟩
  | big n d => exact ⟨⟨h.1, rfl⟩, h.2.1, rfl⟩

end

theorem vmCoerceRational_comparable {v : ExactVal} {q : ℚ} (hv : v.IsExact q) :
    (vmCoerceRational v).Comparable ∧ (vmCoerceRational v).toRat = q := by
  obtain ⟨honen, honev⟩ := bignumFromInt64_spec 1
  have hone : (bignumFromInt64 1).toInt = 1 := honev
  cases v with
  | int i =>
    refine ⟨(Int.zero_lt_one : (0 : ℤ) < (1 : Int64).toInt), ?_⟩
    rw [← hv]
    simp [vmCoerceRational, VmRational.toRat, VmRational.numInt, VmRational.denInt]
  | bignum b =>
    refine ⟨⟨hv.1, honen, by rw [hone]; decide⟩, ?_⟩
    rw [vmCoerceRational, VmRational.toRat, VmRational.numInt, VmRational.denInt, hone, ← hv.2]
    simp
  | rational r => exact ⟨hv.1.comparable, hv.2⟩

theorem vmRationalCompare_eq (a b : VmRational) :
    vmRationalCompare a b
      = Int.sign (a.num.toInt * b.denom.toInt - b.num.toInt * a.denom.toInt) :=
  threeWay_eq_sign _ _

theorem vmRationalCompareExact_eq {a b : VmRational} (ha : a.Comparable) (hb : b.Comparable) :
    vmRationalCompareExact a b = (SignType.sign (a.toRat - b.toRat) : ℤ) := by
  obtain ⟨⟨han, hanv⟩, had, hadv⟩ := ha.parts
  obtain ⟨⟨hbn, hbnv⟩, hbd, hbdv⟩ := hb.parts
  obtain ⟨hl, hlv⟩ := bignumMul_spec han hbd
  obtain ⟨hr, hrv⟩ := bignumMul_spec hbn had
  rw [VmRational.toRat, VmRational.toRat, ← sign_cross_mul ha.den_pos hb.den_pos]
  have hbig : bignumCompare (bignumMul (vmRatNumBn a) (vmRatDenBn b))
      (bignumMul (vmRatNumBn b) (vmRatDenBn a))
      = Int.sign (a.numInt * b.denInt - b.numInt * a.denInt) := by
    rw [bignumCompare_eq hl hr, hlv, hrv, hanv, hbdv, hbnv, hadv]
  cases a with
  | big n d => exact hbig
  | small an ad =>
    cases b with
    | big n d => exact hbig
    | small bn bd => exact vmRationalCompare_eq _ _

theorem vmCoerceBignum_spec {v : ExactVal} {q : ℚ} (hv : v.IsExact q)
    (hint : ∀ r, v ≠ .rational r) :
    (vmCoerceBignum v).Normalized ∧ ((vmCoerceBignum v).toInt : ℚ) = q := by
  cases v with
  | int i =>
    obtain ⟨hn, hval⟩ := bignumFromInt64_spec i
    exact ⟨hn, by rw [vmCoerceBignum, hval]; exact hv⟩
  | bignum b => exact hv
  | rational r => exact absurd rfl (hint r)

theorem vmBignumCompareVals_sign {a b : ExactVal} {p q : ℚ} (ha : a.IsExact p)
    (hb : b.IsExact q) : vmBignumCompareVals a b = (SignType.sign (p - q) : ℤ) := by
  obtain ⟨har, hav⟩ := vmCoerceRational_comparable ha
  obtain ⟨hbr, hbv⟩ := vmCoerceRational_comparable hb
  have hrat : vmRationalCompareExact (vmCoerceRational a) (vmCoerceRational b)
      = (SignType.sign (p - q) : ℤ) := by
    rw [vmRationalCompareExact_eq har hbr, hav, hbv]
  have hint : (∀ r, a ≠ .rational r) → (∀ r, b ≠ .rational r) →
      bignumCompare (vmCoerceBignum a) (vmCoerceBignum b) = (SignType.sign (p - q) : ℤ) := by
    intro hna hnb
    obtain ⟨hn, hv⟩ := vmCoerceBignum_spec ha hna
    obtain ⟨hn', hv'⟩ := vmCoerceBignum_spec hb hnb
    have hcross : Int.sign ((vmCoerceBignum a).toInt * 1 - (vmCoerceBignum b).toInt * 1) = _ :=
      sign_cross_mul zero_lt_one zero_lt_one
    rw [bignumCompare_eq hn hn', ← hv, ← hv']
    simpa using hcross
  cases a with
  | rational r => exact hrat
  | int i =>
    cases b with
    | rational r => exact hrat
    | int j => exact hint (by simp) (by simp)
    | bignum y => exact hint (by simp) (by simp)
  | bignum x =>
    cases b with
    | rational r => exact hrat
    | int j => exact hint (by simp) (by simp)
    | bignum y => exact hint (by simp) (by simp)

theorem vmBignumCompareVals_eq {a b : ExactVal} (ha : a.Canonical) (hb : b.Canonical) :
    vmBignumCompareVals a b = (SignType.sign (a.toRat - b.toRat) : ℤ) :=
  vmBignumCompareVals_sign ha.isExact hb.isExact

theorem vmBignumCompareVals_eq_zero_iff {a b : ExactVal} (ha : a.Canonical) (hb : b.Canonical) :
    vmBignumCompareVals a b = 0 ↔ a.toRat = b.toRat := by
  rw [vmBignumCompareVals_eq ha hb, ← sub_eq_zero (a := a.toRat),
    ← sign_eq_zero_iff (a := a.toRat - b.toRat)]
  generalize SignType.sign (a.toRat - b.toRat) = s
  cases s <;> decide

/-! ### `equal?` -/

/-- The `int64_t` fields decide equality of rationals, unless both are bignum pairs. A bignum
pair shows the placeholder denominator one, which no `int64_t` pair here has. -/
theorem rational_fields_eq_iff {r s : VmRational} (hr : r.Canonical ∧ r.denInt ≠ 1)
    (hs : s.Canonical ∧ s.denInt ≠ 1) (h : ¬ (r.isBig = true ∧ s.isBig = true)) :
    (r.num = s.num ∧ r.denom = s.denom) ↔ r.toRat = s.toRat := by
  have hparts : r.toRat = s.toRat → r.numInt = s.numInt ∧ r.denInt = s.denInt :=
    hr.1.lowestTerms.eq_of_div_eq hs.1.lowestTerms
  cases r with
  | small n d =>
    cases s with
    | small n' d' =>
      constructor
      · rintro ⟨hn, hd⟩
        obtain rfl : n = n' := hn
        obtain rfl : d = d' := hd
        rfl
      · intro heq
        exact ⟨Int64.toInt_inj.mp (hparts heq).1, Int64.toInt_inj.mp (hparts heq).2⟩
    | big n' d' =>
      refine iff_of_false (fun hf => hr.2 ?_) fun heq => hs.1.2.2.2 ?_
      · obtain rfl : d = 1 := hf.2
        rfl
      · have hn' : n.toInt = n'.toInt := (hparts heq).1
        have hd' : d.toInt = d'.toInt := (hparts heq).2
        exact ⟨hn' ▸ int64_bounds n, hd' ▸ int64_bounds d⟩
  | big n d =>
    cases s with
    | small n' d' =>
      refine iff_of_false (fun hf => hs.2 ?_) fun heq => hr.1.2.2.2 ?_
      · obtain rfl : 1 = d' := hf.2
        rfl
      · have hn' : n.toInt = n'.toInt := (hparts heq).1
        have hd' : d.toInt = d'.toInt := (hparts heq).2
        exact ⟨hn' ▸ int64_bounds n', hd' ▸ int64_bounds d'⟩
    | big n' d' => exact absurd ⟨rfl, rfl⟩ h

section

variable {a b : ExactVal} (ha : a.Canonical) (hb : b.Canonical)
include ha hb

theorem parts_eq_of_toRat_eq (h : a.toRat = b.toRat) :
    (vmCoerceRational a).numInt = (vmCoerceRational b).numInt ∧
      (vmCoerceRational a).denInt = (vmCoerceRational b).denInt := by
  obtain ⟨har, hav⟩ := vmCoerceRational_spec ha
  obtain ⟨hbr, hbv⟩ := vmCoerceRational_spec hb
  exact har.lowestTerms.eq_of_div_eq hbr.lowestTerms (hav.trans (h.trans hbv.symm))

theorem toRat_ne_of_type_ne
    (h : (∃ i y, a = .int i ∧ b = .bignum y) ∨ (∃ i s, a = .int i ∧ b = .rational s) ∨
      ∃ x s, a = .bignum x ∧ b = .rational s) : a.toRat ≠ b.toRat := by
  intro heq
  obtain ⟨hn, hd⟩ := parts_eq_of_toRat_eq ha hb heq
  rcases h with ⟨i, y, rfl, rfl⟩ | ⟨i, s, rfl, rfl⟩ | ⟨x, s, rfl, rfl⟩
  · have hn' : i.toInt = y.toInt := hn
    exact hb.2 (hn' ▸ int64_bounds i)
  · exact hb.2 hd.symm
  · exact hb.2 (hd.symm.trans (bignumFromInt64_spec 1).2)

theorem vmDeepEqual_of_not_big (h : ¬ (a.isBigRational = true ∧ b.isBigRational = true)) :
    vmDeepEqual a b = true ↔ a.toRat = b.toRat := by
  have hne := toRat_ne_of_type_ne ha hb
  have hne' := toRat_ne_of_type_ne hb ha
  cases a with
  | int i =>
    cases b with
    | int j =>
      rw [vmDeepEqual, decide_eq_true_eq, ExactVal.toRat, ExactVal.toRat, Int.cast_inj,
        Int64.toInt_inj]
    | bignum y => exact iff_of_false Bool.false_ne_true (hne (Or.inl ⟨i, y, rfl, rfl⟩))
    | rational s =>
      exact iff_of_false Bool.false_ne_true (hne (Or.inr (Or.inl ⟨i, s, rfl, rfl⟩)))
  | bignum x =>
    cases b with
    | int j => exact iff_of_false Bool.false_ne_true (hne' (Or.inl ⟨j, x, rfl, rfl⟩)).symm
    | bignum y =>
      rw [vmDeepEqual, decide_eq_true_eq, bignumCompare_eq ha.1 hb.1, Int.sign_eq_zero_iff_zero,
        sub_eq_zero, ExactVal.toRat, ExactVal.toRat, Int.cast_inj]
    | rational s =>
      exact iff_of_false Bool.false_ne_true (hne (Or.inr (Or.inr ⟨x, s, rfl, rfl⟩)))
  | rational r =>
    cases b with
    | int j =>
      exact iff_of_false Bool.false_ne_true (hne' (Or.inr (Or.inl ⟨j, r, rfl, rfl⟩))).symm
    | bignum y =>
      exact iff_of_false Bool.false_ne_true (hne' (Or.inr (Or.inr ⟨y, r, rfl, rfl⟩))).symm
    | rational s =>
      rw [vmDeepEqual, decide_eq_true_eq]
      exact rational_fields_eq_iff ha hb h

end

theorem vmDeepEqual_of_big {a b : ExactVal} (ha : a.isBigRational = true)
    (hb : b.isBigRational = true) : vmDeepEqual a b = true := by
  cases a with
  | int i => cases ha
  | bignum x => cases ha
  | rational r =>
    cases b with
    | int j => cases hb
    | bignum y => cases hb
    | rational s =>
      cases r with
      | small n d => cases ha
      | big n d =>
        cases s with
        | small n' d' => cases hb
        | big n' d' => rfl

/-- **`equal?` on exact numbers, with the exact condition.** On canonical operands comparison
finds no difference exactly between equal numbers; `equal?` says the same, unless both
operands are bignum-pair rationals of different values. -/
theorem vmDeepEqual_iff {a b : ExactVal} (ha : a.Canonical) (hb : b.Canonical) :
    (vmBignumCompareVals a b = 0 ↔ a.toRat = b.toRat) ∧
    ((vmDeepEqual a b = true ↔ a.toRat = b.toRat) ↔
      (a.isBigRational = true → b.isBigRational = true → a.toRat = b.toRat)) ∧
    ((vmDeepEqual a b = true ↔ vmBignumCompareVals a b = 0) ↔
      (a.isBigRational = true → b.isBigRational = true → a.toRat = b.toRat)) := by
  have hcmp := vmBignumCompareVals_eq_zero_iff ha hb
  have heq : (vmDeepEqual a b = true ↔ a.toRat = b.toRat) ↔
      (a.isBigRational = true → b.isBigRational = true → a.toRat = b.toRat) := by
    constructor
    · intro h hab hbb
      exact h.mp (vmDeepEqual_of_big hab hbb)
    · intro h
      by_cases hbig : a.isBigRational = true ∧ b.isBigRational = true
      · exact iff_of_true (vmDeepEqual_of_big hbig.1 hbig.2) (h hbig.1 hbig.2)
      · exact vmDeepEqual_of_not_big ha hb hbig
  exact ⟨hcmp, heq, by rw [hcmp]; exact heq⟩

theorem vmDeepEqual_iff_thirds :
    vmDeepEqual (.rational (.small 1 3)) (.rational (.big ⟨1, [1, 0, 1]⟩ ⟨1, [3]⟩)) = true ↔
      ExactVal.toRat (.rational (.small 1 3))
        = ExactVal.toRat (.rational (.big ⟨1, [1, 0, 1]⟩ ⟨1, [3]⟩)) :=
  (vmDeepEqual_iff (by decide) (by decide)).2.1.mpr (fun h => by cases h)

/-- `2 ^ 64 / 3` and `2 ^ 65 / 3` are different numbers, and `equal?`. -/
theorem vmDeepEqual_conflates :
    ExactVal.Canonical (.rational (.big ⟨1, [0, 0, 1]⟩ ⟨1, [3]⟩)) ∧
    ExactVal.Canonical (.rational (.big ⟨1, [0, 0, 2]⟩ ⟨1, [3]⟩)) ∧
    vmDeepEqual (.rational (.big ⟨1, [0, 0, 1]⟩ ⟨1, [3]⟩))
      (.rational (.big ⟨1, [0, 0, 2]⟩ ⟨1, [3]⟩)) = true ∧
    ExactVal.toRat (.rational (.big ⟨1, [0, 0, 1]⟩ ⟨1, [3]⟩))
      ≠ ExactVal.toRat (.rational (.big ⟨1, [0, 0, 2]⟩ ⟨1, [3]⟩)) ∧
    vmBignumCompareVals (.rational (.big ⟨1, [0, 0, 1]⟩ ⟨1, [3]⟩))
      (.rational (.big ⟨1, [0, 0, 2]⟩ ⟨1, [3]⟩)) ≠ 0 := by
  have ha : ExactVal.Canonical (.rational (.big ⟨1, [0, 0, 1]⟩ ⟨1, [3]⟩)) := by decide
  have hb : ExactVal.Canonical (.rational (.big ⟨1, [0, 0, 2]⟩ ⟨1, [3]⟩)) := by decide
  have hcmp : vmBignumCompareVals (.rational (.big ⟨1, [0, 0, 1]⟩ ⟨1, [3]⟩))
      (.rational (.big ⟨1, [0, 0, 2]⟩ ⟨1, [3]⟩)) ≠ 0 := by decide
  exact ⟨ha, hb, rfl, mt (vmBignumCompareVals_eq_zero_iff ha hb).mpr hcmp, hcmp⟩

end Eshkol.Vm
