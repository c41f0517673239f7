import Eshkol.Native.Value

/-!
# Native Rounding of Exact Rationals

`floor`, `ceiling`, `truncate` and `round` of an exact rational (`lib/core/rational.cpp`),
each in three variants: on the `int64_t` fields, over bignums, and tagged, which picks one
of the two by the representation.

The variants on the `int64_t` fields read the inert pair `0/1` of a bignum pair. `round`
on the fields doubles the remainder in `int64_t`.
-/

namespace Eshkol

open Machine Ratio

variable {D : Type}

/-! ### On the `int64_t` fields -/

def eshkolRationalFloor (r : Rational) : Exec Exn Int64 := do
  let n := r.numerator.toInt
  let d := r.denominator.toInt
  let q ← signedDiv 64 n d
  let rem ← signedRem 64 n d
  if n ≥ 0 ∨ rem = 0 then int64 q else int64 (q - 1)

def eshkolRationalCeil (r : Rational) : Exec Exn Int64 := do
  let n := r.numerator.toInt
  let d := r.denominator.toInt
  let q ← signedDiv 64 n d
  let rem ← signedRem 64 n d
  if n ≤ 0 ∨ rem = 0 then int64 q else int64 (q + 1)

def eshkolRationalTruncate (r : Rational) : Exec Exn Int64 := do
  let q ← signedDiv 64 r.numerator.toInt r.denominator.toInt
  int64 q

def eshkolRationalRound (r : Rational) : Exec Exn Int64 := do
  let n := r.numerator.toInt
  let d := r.denominator.toInt
  let q ← signedDiv 64 n d
  let rem ← signedRem 64 n d
  let rem ← absSigned 64 rem
  let twiceRem ← signed 64 (2 * rem)
  if twiceRem > d then
    if n ≥ 0 then int64 (q + 1) else int64 (q - 1)
  else if twiceRem = d then
    if q.tmod 2 ≠ 0 then if n ≥ 0 then int64 (q + 1) else int64 (q - 1)
    else int64 q
  else int64 q

/-! ### Over bignums -/

def ratTruncBn (r : Rational) : Exec Exn Bignum := eshkolBignumDiv (ratNumBn r) (ratDenBn r)

def ratFloorBn (r : Rational) : Exec Exn Bignum := do
  let n := ratNumBn r
  let d := ratDenBn r
  let q ← eshkolBignumDiv n d
  let rem ← eshkolBignumMod n d
  if eshkolBignumIsNegative n && !eshkolBignumIsZero rem then
    .ok (eshkolBignumSub q (eshkolBignumFromInt64 1))
  else .ok q

def ratCeilBn (r : Rational) : Exec Exn Bignum := do
  let n := ratNumBn r
  let d := ratDenBn r
  let q ← eshkolBignumDiv n d
  let rem ← eshkolBignumMod n d
  if !eshkolBignumIsNegative n && !eshkolBignumIsZero rem then
    .ok (eshkolBignumAdd q (eshkolBignumFromInt64 1))
  else .ok q

def ratRoundBn (r : Rational) : Exec Exn Bignum := do
  let d := ratDenBn r
  let fl ← ratFloorBn r
  let rem := eshkolBignumSub (ratNumBn r) (eshkolBignumMul fl d)
  let twice := eshkolBignumMul rem (eshkolBignumFromInt64 2)
  let cmp := eshkolBignumCompare twice d
  if cmp < 0 then .ok fl
  else if cmp > 0 then .ok (eshkolBignumAdd fl (eshkolBignumFromInt64 1))
  else
    let half ← eshkolBignumMod fl (eshkolBignumFromInt64 2)
    if eshkolBignumIsZero half then .ok fl
    else .ok (eshkolBignumAdd fl (eshkolBignumFromInt64 1))

/-! ### Tagged -/

/-- The shape of the tagged variants. -/
def roundTagged (small : Rational → Exec Exn Int64) (big : Rational → Exec Exn Bignum)
    (r : Rational) : Exec Exn (Tagged D) :=
  match r with
  | .small _ _ => do
      let v ← small r
      .ok (.int64 v)
  | .big _ _ => do
      let b ← big r
      .ok (bignumToTaggedInt b)

def eshkolRationalFloorTagged (r : Rational) : Exec Exn (Tagged D) :=
  roundTagged eshkolRationalFloor ratFloorBn r

def eshkolRationalCeilTagged (r : Rational) : Exec Exn (Tagged D) :=
  roundTagged eshkolRationalCeil ratCeilBn r

def eshkolRationalTruncateTagged (r : Rational) : Exec Exn (Tagged D) :=
  roundTagged eshkolRationalTruncate ratTruncBn r

def eshkolRationalRoundTagged (r : Rational) : Exec Exn (Tagged D) :=
  roundTagged eshkolRationalRound ratRoundBn r

/-! ### What each variant returns -/

section Small

variable {n d : Int64}

theorem eshkolRationalTruncate_small (hd : 0 < d.toInt) :
    ∃ v, eshkolRationalTruncate (.small n d) = .ok v ∧ v.toInt = n.toInt.tdiv d.toInt := by
  obtain ⟨hlo, hhi, -⟩ := tdiv_bounds (n := n) hd
  obtain ⟨v, hv, hval⟩ := int64_eq_ok (ε := Exn) hlo hhi
  refine ⟨v, ?_, hval⟩
  simp only [eshkolRationalTruncate, Rational.numerator, Rational.denominator,
    (signedDiv_int64 (ε := Exn) hd).1, ok_bind, hv]

theorem eshkolRationalFloor_small (hd : 0 < d.toInt) :
    ∃ v, eshkolRationalFloor (.small n d) = .ok v ∧ v.toInt = n.toInt / d.toInt := by
  obtain ⟨hlo, hhi, hroom⟩ := tdiv_bounds (n := n) hd
  obtain ⟨hdiv, hrem⟩ := signedDiv_int64 (ε := Exn) (n := n) hd
  simp only [eshkolRationalFloor, Rational.numerator, Rational.denominator, hdiv, hrem, ok_bind,
    ge_iff_le, ediv_eq_tdiv_sub hd]
  by_cases h : 0 ≤ n.toInt ∨ n.toInt.tmod d.toInt = 0
  · simp only [h, if_true]
    exact int64_eq_ok hlo hhi
  · simp only [h, if_false]
    rw [not_or] at h
    have := hroom h.2
    exact int64_eq_ok (by omega) (by omega)

theorem eshkolRationalCeil_small (hd : 0 < d.toInt) :
    ∃ v, eshkolRationalCeil (.small n d) = .ok v ∧ v.toInt = -(-n.toInt / d.toInt) := by
  obtain ⟨hlo, hhi, hroom⟩ := tdiv_bounds (n := n) hd
  obtain ⟨hdiv, hrem⟩ := signedDiv_int64 (ε := Exn) (n := n) hd
  simp only [eshkolRationalCeil, Rational.numerator, Rational.denominator, hdiv, hrem, ok_bind,
    neg_ediv_eq_tdiv_add hd]
  by_cases h : n.toInt ≤ 0 ∨ n.toInt.tmod d.toInt = 0
  · simp only [h, if_true]
    exact int64_eq_ok hlo hhi
  · simp only [h, if_false]
    rw [not_or] at h
    have := hroom h.2
    exact int64_eq_ok (by omega) (by omega)

/-- So is a small one where nothing overflows. -/
theorem eshkolRationalRound_small (hd : 0 < d.toInt)
    (hfit : 2 * |n.toInt.tmod d.toInt| < 2 ^ 63) :
    ∃ v, eshkolRationalRound (.small n d) = .ok v ∧
      NearestEven ((n.toInt : ℚ) / d.toInt) v.toInt := by
  obtain ⟨hlo, hhi, hroom⟩ := tdiv_bounds (n := n) hd
  obtain ⟨hdiv, hrem⟩ := signedDiv_int64 (ε := Exn) (n := n) hd
  obtain ⟨hbelow, habove, htie⟩ := nearestEven_tdiv (n := n.toInt) hd
  have habs : (absSigned 64 (n.toInt.tmod d.toInt) : Exec Exn ℤ) = .ok |n.toInt.tmod d.toInt| :=
    absSigned_eq (by norm_num; linarith)
  have htwice : (signed 64 (2 * |n.toInt.tmod d.toInt|) : Exec Exn ℤ)
      = .ok (2 * |n.toInt.tmod d.toInt|) :=
    signed_eq_ok (by have := abs_nonneg (n.toInt.tmod d.toInt); norm_num; linarith)
      (by norm_num; linarith)
  simp only [eshkolRationalRound, Rational.numerator, Rational.denominator, hdiv, hrem, habs,
    htwice, ok_bind, gt_iff_lt, ge_iff_le]
  -- A remainder of at least half the divisor is nonzero, so the neighbours are in range.
  have hne : d.toInt ≤ 2 * |n.toInt.tmod d.toInt| → n.toInt.tmod d.toInt ≠ 0 := by
    intro h hz
    rw [hz, abs_zero] at h
    omega
  have hret : ∀ x : ℤ, -2 ^ 63 ≤ x → x < 2 ^ 63 → NearestEven ((n.toInt : ℚ) / d.toInt) x →
      ∃ v, (int64 x : Exec Exn Int64) = .ok v ∧ NearestEven ((n.toInt : ℚ) / d.toInt) v.toInt := by
    intro x h1 h2 h3
    obtain ⟨v, hv, hval⟩ := int64_eq_ok (ε := Exn) h1 h2
    exact ⟨v, hv, hval.symm ▸ h3⟩
  rcases lt_trichotomy (2 * |n.toInt.tmod d.toInt|) d.toInt with h | h | h
  · rw [if_neg h.not_gt, if_neg h.ne]
    exact hret _ hlo hhi (hbelow h)
  · have hrm := hroom (hne h.ge)
    have ht := htie h
    rw [if_neg h.le.not_gt, if_pos h]
    split
    next hodd =>
        rw [if_pos hodd] at ht
        split
        next hn => exact hret _ (by omega) (by omega) (by rwa [if_pos hn] at ht)
        next hn => exact hret _ (by omega) (by omega) (by rwa [if_neg hn] at ht)
    next heven =>
        rw [if_neg heven] at ht
        exact hret _ hlo hhi ht
  · have hrm := hroom (hne h.le)
    have ha := habove h
    rw [if_pos h]
    split
    next hn => exact hret _ (by omega) (by omega) (by rwa [if_pos hn] at ha)
    next hn => exact hret _ (by omega) (by omega) (by rwa [if_neg hn] at ha)

theorem eshkolRationalRound_small_undefined (hd : 0 < d.toInt)
    (hfit : 2 ^ 63 ≤ 2 * |n.toInt.tmod d.toInt|) :
    eshkolRationalRound (.small n d) = .error .undefined := by
  obtain ⟨hdiv, hrem⟩ := signedDiv_int64 (ε := Exn) (n := n) hd
  have hlt := abs_lt.mpr ⟨Int.lt_tmod_of_pos n.toInt hd, Int.tmod_lt_of_pos n.toInt hd⟩
  have habs : (absSigned 64 (n.toInt.tmod d.toInt) : Exec Exn ℤ) = .ok |n.toInt.tmod d.toInt| :=
    absSigned_eq (by have := d.toInt_lt; norm_num; linarith)
  have htwice : (signed 64 (2 * |n.toInt.tmod d.toInt|) : Exec Exn ℤ) = .error .undefined :=
    signed_eq_undefined (Or.inr hfit)
  simp only [eshkolRationalRound, Rational.numerator, Rational.denominator, hdiv, hrem, habs,
    htwice, ok_bind, error_bind]

end Small

section Bignums

variable {r : Rational}

theorem ratDivMod_spec (hr : r.Canonical) :
    ∃ q rem, eshkolBignumDiv (ratNumBn r) (ratDenBn r) = .ok q ∧
      eshkolBignumMod (ratNumBn r) (ratDenBn r) = .ok rem ∧ q.Normalized ∧ rem.Normalized ∧
      q.toInt = r.num.tdiv r.den ∧ rem.toInt = r.num.tmod r.den := by
  obtain ⟨hn, hnv⟩ := ratNumBn_spec hr
  obtain ⟨hd, hdv⟩ := ratDenBn_spec hr
  have hd0 : (ratDenBn r).toInt ≠ 0 := hdv ▸ hr.lowestTerms.den_pos.ne'
  obtain ⟨q, hq, hqn, hqv⟩ := eshkolBignumDiv_eq hn hd hd0
  obtain ⟨rem, hrem, hremn, hremv⟩ := eshkolBignumMod_eq hn hd hd0
  exact ⟨q, rem, hq, hrem, hqn, hremn, by rw [hqv, hnv, hdv], by rw [hremv, hnv, hdv]⟩

theorem ratTruncBn_spec (hr : r.Canonical) :
    ∃ b, ratTruncBn r = .ok b ∧ b.Normalized ∧ b.toInt = r.num.tdiv r.den := by
  obtain ⟨q, -, hq, -, hqn, -, hqv, -⟩ := ratDivMod_spec hr
  exact ⟨q, hq, hqn, hqv⟩

theorem ratFloorBn_spec (hr : r.Canonical) :
    ∃ b, ratFloorBn r = .ok b ∧ b.Normalized ∧ b.toInt = r.num / r.den := by
  obtain ⟨q, rem, hq, hrem, hqn, hremn, hqv, hremv⟩ := ratDivMod_spec hr
  obtain ⟨hn, hnv⟩ := ratNumBn_spec hr
  have hone := eshkolBignumFromInt64_normalized 1
  have hcond : (eshkolBignumIsNegative (ratNumBn r) && !eshkolBignumIsZero rem) = true ↔
      ¬ (0 ≤ r.num ∨ r.num.tmod r.den = 0) := by
    rw [Bool.and_eq_true, Bool.not_eq_true', ← Bool.not_eq_true, eshkolBignumIsNegative_iff hn,
      eshkolBignumIsZero_iff hremn, hnv, hremv, not_or, not_le]
  simp only [ratFloorBn, hq, hrem, ok_bind]
  rw [ediv_eq_tdiv_sub hr.lowestTerms.den_pos]
  by_cases h : 0 ≤ r.num ∨ r.num.tmod r.den = 0
  · rw [if_neg (mt hcond.mp (not_not.mpr h)), if_pos h]
    exact ⟨q, rfl, hqn, hqv⟩
  · rw [if_pos (hcond.mpr h), if_neg h]
    refine ⟨_, rfl, eshkolBignumSub_normalized hqn hone, ?_⟩
    rw [toInt_eshkolBignumSub hqn hone, hqv, toInt_eshkolBignumFromInt64]
    rfl

theorem ratCeilBn_spec (hr : r.Canonical) :
    ∃ b, ratCeilBn r = .ok b ∧ b.Normalized ∧ b.toInt = -(-r.num / r.den) := by
  obtain ⟨q, rem, hq, hrem, hqn, hremn, hqv, hremv⟩ := ratDivMod_spec hr
  obtain ⟨hn, hnv⟩ := ratNumBn_spec hr
  have hone := eshkolBignumFromInt64_normalized 1
  -- A zero numerator is not negative, but leaves no remainder.
  have hcond : (!eshkolBignumIsNegative (ratNumBn r) && !eshkolBignumIsZero rem) = true ↔
      ¬ (r.num ≤ 0 ∨ r.num.tmod r.den = 0) := by
    rw [Bool.and_eq_true, Bool.not_eq_true', Bool.not_eq_true', ← Bool.not_eq_true,
      ← Bool.not_eq_true, eshkolBignumIsNegative_iff hn, eshkolBignumIsZero_iff hremn, hnv,
      hremv, not_or, not_le, not_lt]
    constructor
    · rintro ⟨h1, h2⟩
      refine ⟨lt_of_le_of_ne h1 ?_, h2⟩
      intro h0
      rw [← h0, Int.zero_tmod] at h2
      exact h2 rfl
    · rintro ⟨h1, h2⟩
      exact ⟨h1.le, h2⟩
  simp only [ratCeilBn, hq, hrem, ok_bind]
  rw [neg_ediv_eq_tdiv_add hr.lowestTerms.den_pos]
  by_cases h : r.num ≤ 0 ∨ r.num.tmod r.den = 0
  · rw [if_neg (mt hcond.mp (not_not.mpr h)), if_pos h]
    exact ⟨q, rfl, hqn, hqv⟩
  · rw [if_pos (hcond.mpr h), if_neg h]
    refine ⟨_, rfl, eshkolBignumAdd_normalized hqn hone, ?_⟩
    rw [toInt_eshkolBignumAdd hqn hone, hqv, toInt_eshkolBignumFromInt64]
    rfl

/-- A big rational is rounded to the nearest integer, ties to even. -/
theorem ratRoundBn_spec (hr : r.Canonical) :
    ∃ b, ratRoundBn r = .ok b ∧ b.Normalized ∧ NearestEven r.toRat b.toInt := by
  obtain ⟨fl, hfl, hfln, hflv⟩ := ratFloorBn_spec hr
  obtain ⟨hn, hnv⟩ := ratNumBn_spec hr
  obtain ⟨hd, hdv⟩ := ratDenBn_spec hr
  have hpos := hr.lowestTerms.den_pos
  obtain ⟨hbelow, habove, htie⟩ := nearestEven_floor (n := r.num) hpos
  have hone := eshkolBignumFromInt64_normalized 1
  have htwo := eshkolBignumFromInt64_normalized 2
  have htwov : (eshkolBignumFromInt64 2).toInt = 2 := toInt_eshkolBignumFromInt64 2
  have hmul := eshkolBignumMul_normalized fl (ratDenBn r)
  have hrem : (eshkolBignumSub (ratNumBn r) (eshkolBignumMul fl (ratDenBn r))).toInt
      = r.num % r.den := by
    rw [toInt_eshkolBignumSub hn hmul, toInt_eshkolBignumMul, hnv, hdv, hflv]
    linarith [Int.emod_add_mul_ediv r.num r.den, mul_comm r.den (r.num / r.den)]
  have hcmp : eshkolBignumCompare (eshkolBignumMul
      (eshkolBignumSub (ratNumBn r) (eshkolBignumMul fl (ratDenBn r)))
      (eshkolBignumFromInt64 2)) (ratDenBn r) = Int.sign (2 * (r.num % r.den) - r.den) := by
    rw [eshkolBignumCompare_eq (eshkolBignumMul_normalized _ _) hd, toInt_eshkolBignumMul, hrem,
      htwov, hdv, mul_comm]
  have hup : (eshkolBignumAdd fl (eshkolBignumFromInt64 1)).Normalized ∧
      (eshkolBignumAdd fl (eshkolBignumFromInt64 1)).toInt = r.num / r.den + 1 :=
    ⟨eshkolBignumAdd_normalized hfln hone, by
      rw [toInt_eshkolBignumAdd hfln hone, hflv, toInt_eshkolBignumFromInt64]
      rfl⟩
  simp only [ratRoundBn, hfl, ok_bind, hcmp]
  rcases lt_trichotomy (2 * (r.num % r.den)) r.den with h | h | h
  · rw [Int.sign_eq_neg_one_of_neg (by omega), if_pos (by decide)]
    exact ⟨fl, rfl, hfln, hflv ▸ hbelow h⟩
  · rw [h, sub_self, Int.sign_zero, if_neg (by decide), if_neg (by decide)]
    obtain ⟨half, hhalf, hhalfn, hhalfv⟩ := eshkolBignumMod_eq hfln htwo (by rw [htwov]; decide)
    have heven : eshkolBignumIsZero half = true ↔ Even (r.num / r.den) := by
      rw [eshkolBignumIsZero_iff hhalfn, hhalfv, htwov, hflv, ← Int.dvd_iff_tmod_eq_zero,
        ← even_iff_two_dvd]
    have ht := htie h
    simp only [hhalf, ok_bind]
    by_cases he : Even (r.num / r.den)
    · rw [if_pos (heven.mpr he)]
      rw [if_pos he] at ht
      exact ⟨fl, rfl, hfln, hflv ▸ ht⟩
    · rw [if_neg (mt heven.mp he)]
      rw [if_neg he] at ht
      exact ⟨_, rfl, hup.1, hup.2.symm ▸ ht⟩
  · rw [Int.sign_eq_one_of_pos (by omega), if_neg (by decide), if_pos (by decide)]
    exact ⟨_, rfl, hup.1, hup.2.symm ▸ habove h⟩

end Bignums

/-! ### Exact conditions -/

section Conditions

variable {r : Rational}

theorem fields_of_big (n d : Bignum) :
    (∃ v, eshkolRationalFloor (.big n d) = .ok v ∧ v.toInt = 0) ∧
    (∃ v, eshkolRationalCeil (.big n d) = .ok v ∧ v.toInt = 0) ∧
    (∃ v, eshkolRationalTruncate (.big n d) = .ok v ∧ v.toInt = 0) ∧
    (∃ v, eshkolRationalRound (.big n d) = .ok v ∧ v.toInt = 0) :=
  ⟨eshkolRationalFloor_small (n := 0) (d := 1) (by decide),
    eshkolRationalCeil_small (n := 0) (d := 1) (by decide),
    eshkolRationalTruncate_small (n := 0) (d := 1) (by decide),
    ⟨0, show eshkolRationalRound (.small 0 1) = .ok 0 by decide, rfl⟩⟩

theorem eshkolRationalFloor_iff (hr : r.Canonical) :
    (∃ v, eshkolRationalFloor r = .ok v ∧ v.toInt = ⌊r.toRat⌋) ↔
      (r.isBig = true → 0 ≤ r.num ∧ r.num < r.den) := by
  have hpos := hr.lowestTerms.den_pos
  rw [Rational.toRat, floor_div hpos]
  cases r with
  | small n d =>
    simp only [Rational.isBig, Bool.false_eq_true, false_implies, iff_true]
    exact eshkolRationalFloor_small hpos
  | big n d =>
    rw [returns_iff (fields_of_big n d).1 (· = _)]
    simp only [Rational.isBig, true_implies]
    rw [eq_comm, ediv_eq_zero_iff hpos]

theorem eshkolRationalCeil_iff (hr : r.Canonical) :
    (∃ v, eshkolRationalCeil r = .ok v ∧ v.toInt = ⌈r.toRat⌉) ↔
      (r.isBig = true → -r.den < r.num ∧ r.num ≤ 0) := by
  have hpos := hr.lowestTerms.den_pos
  rw [Rational.toRat, ceil_div hpos]
  cases r with
  | small n d =>
    simp only [Rational.isBig, Bool.false_eq_true, false_implies, iff_true]
    exact eshkolRationalCeil_small hpos
  | big n d =>
    rw [returns_iff (fields_of_big n d).2.1 (· = _)]
    simp only [Rational.isBig, true_implies]
    rw [eq_comm, neg_ediv_eq_zero_iff hpos]

theorem eshkolRationalTruncate_iff (hr : r.Canonical) :
    (∃ v, eshkolRationalTruncate r = .ok v ∧ v.toInt = truncate r.toRat) ↔
      (r.isBig = true → |r.num| < r.den) := by
  have hpos := hr.lowestTerms.den_pos
  rw [Rational.toRat, truncate_div hpos]
  cases r with
  | small n d =>
    simp only [Rational.isBig, Bool.false_eq_true, false_implies, iff_true]
    exact eshkolRationalTruncate_small hpos
  | big n d =>
    rw [returns_iff (fields_of_big n d).2.2.1 (· = _)]
    simp only [Rational.isBig, true_implies]
    rw [eq_comm, tdiv_eq_zero_iff hpos]

theorem eshkolRationalRound_iff (hr : r.Canonical) :
    (∃ v, eshkolRationalRound r = .ok v ∧ NearestEven r.toRat v.toInt) ↔
      if r.isBig then 2 * |r.num| ≤ r.den else 2 * |r.num.tmod r.den| < 2 ^ 63 := by
  have hpos := hr.lowestTerms.den_pos
  rw [Rational.toRat]
  cases r with
  | small n d =>
    simp only [Rational.isBig, Bool.false_eq_true, if_false]
    constructor
    · rintro ⟨v, hv, -⟩
      by_contra hcon
      rw [eshkolRationalRound_small_undefined hpos (not_lt.mp hcon)] at hv
      simp at hv
    · exact eshkolRationalRound_small hpos
  | big n d =>
    rw [returns_iff (fields_of_big n d).2.2.2, nearestEven_div_zero_iff hpos]
    simp [Rational.isBig]

theorem roundTagged_iff {small : Rational → Exec Exn Int64} {big : Rational → Exec Exn Bignum}
    {P : ℤ → Prop} (hbig : ∃ b, big r = .ok b ∧ b.Normalized ∧ P b.toInt) :
    (∃ out z, (roundTagged small big r : Exec Exn (Tagged D)) = .ok out ∧ out.toInt = some z ∧
        P z) ↔
      (r.isBig = false → ∃ v, small r = .ok v ∧ P v.toInt) := by
  cases r with
  | small n d =>
    simp only [Rational.isBig, true_implies, roundTagged]
    constructor
    · rintro ⟨out, z, hout, hz, hP⟩
      obtain ⟨v, hv, hok⟩ := bind_eq_ok.mp hout
      cases hok
      cases hz
      exact ⟨v, hv, hP⟩
    · rintro ⟨v, hv, hP⟩
      exact ⟨.int64 v, v.toInt, by rw [hv, ok_bind], rfl, hP⟩
  | big n d =>
    simp only [Rational.isBig, Bool.true_eq_false, false_implies, iff_true, roundTagged]
    obtain ⟨b, hb, hnorm, hP⟩ := hbig
    exact ⟨_, _, by rw [hb, ok_bind], (bignumToTaggedInt_spec hnorm).2, hP⟩

end Conditions

/-- **Rounding, with exact conditions.** For a canonical rational: the variants on the
`int64_t` fields are right on every `int64_t` pair, and on a bignum pair only when the
answer is zero, except that `round` also needs twice the remainder to fit `int64_t`; the
bignum variants are always right; the tagged variants are always right, except that
`round` on an `int64_t` pair has the same need. -/
theorem eshkolRational_rounding_iff {r : Rational} (hr : r.Canonical) :
    ((∃ v, eshkolRationalFloor r = .ok v ∧ v.toInt = ⌊r.toRat⌋) ↔
      (r.isBig = true → 0 ≤ r.num ∧ r.num < r.den)) ∧
    ((∃ v, eshkolRationalCeil r = .ok v ∧ v.toInt = ⌈r.toRat⌉) ↔
      (r.isBig = true → -r.den < r.num ∧ r.num ≤ 0)) ∧
    ((∃ v, eshkolRationalTruncate r = .ok v ∧ v.toInt = truncate r.toRat) ↔
      (r.isBig = true → |r.num| < r.den)) ∧
    ((∃ v, eshkolRationalRound r = .ok v ∧ NearestEven r.toRat v.toInt) ↔
      if r.isBig then 2 * |r.num| ≤ r.den else 2 * |r.num.tmod r.den| < 2 ^ 63) ∧
    (∃ b, ratFloorBn r = .ok b ∧ b.toInt = ⌊r.toRat⌋) ∧
    (∃ b, ratCeilBn r = .ok b ∧ b.toInt = ⌈r.toRat⌉) ∧
    (∃ b, ratTruncBn r = .ok b ∧ b.toInt = truncate r.toRat) ∧
    (∃ b, ratRoundBn r = .ok b ∧ NearestEven r.toRat b.toInt) ∧
    (∃ out : Tagged D, eshkolRationalFloorTagged r = .ok out ∧ out.toInt = some ⌊r.toRat⌋) ∧
    (∃ out : Tagged D, eshkolRationalCeilTagged r = .ok out ∧ out.toInt = some ⌈r.toRat⌉) ∧
    (∃ out : Tagged D, eshkolRationalTruncateTagged r = .ok out ∧
      out.toInt = some (truncate r.toRat)) ∧
    ((∃ (out : Tagged D) (z : ℤ), eshkolRationalRoundTagged r = .ok out ∧
        out.toInt = some z ∧ NearestEven r.toRat z) ↔
      (r.isBig = false → 2 * |r.num.tmod r.den| < 2 ^ 63)) := by
  have hpos := hr.lowestTerms.den_pos
  have hfloor : ⌊r.toRat⌋ = r.num / r.den := floor_div hpos
  have hceil : ⌈r.toRat⌉ = -(-r.num / r.den) := ceil_div hpos
  have htrunc : truncate r.toRat = r.num.tdiv r.den := truncate_div hpos
  have hfl := ratFloorBn_spec hr
  have hce := ratCeilBn_spec hr
  have htr := ratTruncBn_spec hr
  have hro := ratRoundBn_spec hr
  rw [← hfloor] at hfl
  rw [← hceil] at hce
  rw [← htrunc] at htr
  -- A tagged variant that always answers `z`.
  have hall : ∀ {small : Rational → Exec Exn Int64} {big : Rational → Exec Exn Bignum} {z : ℤ},
      (r.isBig = false → ∃ v, small r = .ok v ∧ v.toInt = z) →
      (∃ b, big r = .ok b ∧ b.Normalized ∧ b.toInt = z) →
      ∃ out : Tagged D, roundTagged small big r = .ok out ∧ out.toInt = some z := by
    intro small big z hsmall hbig
    obtain ⟨out, z', hout, hz, rfl⟩ := (roundTagged_iff (P := (· = z)) hbig).mpr hsmall
    exact ⟨out, hout, hz⟩
  refine ⟨eshkolRationalFloor_iff hr, eshkolRationalCeil_iff hr, eshkolRationalTruncate_iff hr,
    eshkolRationalRound_iff hr, ?_, ?_, ?_, ?_, ?_, ?_, ?_, ?_⟩
  · obtain ⟨b, hb, -, hv⟩ := hfl
    exact ⟨b, hb, hv⟩
  · obtain ⟨b, hb, -, hv⟩ := hce
    exact ⟨b, hb, hv⟩
  · obtain ⟨b, hb, -, hv⟩ := htr
    exact ⟨b, hb, hv⟩
  · obtain ⟨b, hb, -, hv⟩ := hro
    exact ⟨b, hb, hv⟩
  · exact hall (fun h => (eshkolRationalFloor_iff hr).mpr (by simp [h])) hfl
  · exact hall (fun h => (eshkolRationalCeil_iff hr).mpr (by simp [h])) hce
  · exact hall (fun h => (eshkolRationalTruncate_iff hr).mpr (by simp [h])) htr
  · rw [eshkolRationalRoundTagged, roundTagged_iff hro]
    refine imp_congr_right fun h => ?_
    rw [eshkolRationalRound_iff hr, h]
    simp

theorem eshkolRational_rounding_iff_seven_thirds :
    (∃ v, eshkolRationalFloor (.small (-7) 3) = .ok v ∧
      v.toInt = ⌊Rational.toRat (.small (-7) 3)⌋) ∧
    (∃ v, eshkolRationalRound (.small (-7) 3) = .ok v ∧
      NearestEven (Rational.toRat (.small (-7) 3)) v.toInt) := by
  have h := eshkolRational_rounding_iff (D := Unit) (r := .small (-7) 3) (by decide)
  exact ⟨h.1.mpr (by decide), h.2.2.2.1.mpr (by decide)⟩

/-- `round` of `(2 ^ 63 - 2) / (2 ^ 63 - 1)`, a canonical `int64_t` pair, is undefined. -/
theorem eshkolRationalRound_overflows :
    Rational.Canonical (.small 9223372036854775806 9223372036854775807) ∧
    ¬ ∃ v, eshkolRationalRound (.small 9223372036854775806 9223372036854775807) = .ok v ∧
      NearestEven (Rational.toRat (.small 9223372036854775806 9223372036854775807))
        v.toInt := by
  refine ⟨by decide, ?_⟩
  rw [eshkolRationalRound_iff (by decide)]
  decide

end Eshkol
