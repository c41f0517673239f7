import Eshkol.Native.Divide
import Eshkol.Ratio.Signed

/-!
# Native Exact Rationals

The exact rationals of the native runtime (`lib/core/rational.cpp`). A value is a pair of
`int64_t`, or a pair of bignums when a reduced part leaves `int64_t`. Arithmetic on two
`int64_t` pairs goes through signed 128-bit intermediates first; when the reduced result
does not fit, or an operand is a bignum pair, the operation is done over bignums.
-/

namespace Eshkol

open Machine Ratio

/-- `eshkol_rational_t`. In a bignum pair the `int64_t` fields hold the inert pair `0/1`
and are not stored here; see `numerator` and `denominator`. -/
inductive Rational : Type
  | small (numerator denominator : Int64)
  | big (bigNum bigDen : Bignum)
  deriving DecidableEq

namespace Rational

/-- The `is_big` field. -/
def isBig : Rational → Bool
  | small _ _ => false
  | big _ _ => true

/-- The `numerator` field. -/
def numerator : Rational → Int64
  | small n _ => n
  | big _ _ => 0

/-- The `denominator` field. -/
def denominator : Rational → Int64
  | small _ d => d
  | big _ _ => 1

/-- The numerator denoted. -/
def num : Rational → ℤ
  | small n _ => n.toInt
  | big n _ => n.toInt

/-- The denominator denoted. -/
def den : Rational → ℤ
  | small _ d => d.toInt
  | big _ d => d.toInt

/-- The rational number denoted. -/
def toRat (r : Rational) : ℚ := (r.num : ℚ) / r.den

/-- A pair of `int64_t` in lowest terms, or a pair of normalized bignums in lowest terms
that does not fit. -/
def Canonical : Rational → Prop
  | small n d => LowestTerms n.toInt d.toInt
  | big n d => n.Normalized ∧ d.Normalized ∧ LowestTerms n.toInt d.toInt ∧
      (eshkolBignumFitsInt64 n = none ∨ eshkolBignumFitsInt64 d = none)

instance (r : Rational) : Decidable r.Canonical :=
  match r with
  | small _ _ => inferInstanceAs (Decidable (LowestTerms _ _))
  | big _ _ => inferInstanceAs (Decidable (_ ∧ _))

theorem Canonical.lowestTerms {r : Rational} (h : r.Canonical) : LowestTerms r.num r.den := by
  cases r with
  | small n d => exact h
  | big n d => exact h.2.2.1

theorem Canonical.den_ne_zero {r : Rational} (h : r.Canonical) : (r.den : ℚ) ≠ 0 := by
  exact_mod_cast h.lowestTerms.den_pos.ne'

end Rational

def rationalAllocSmall (num denom : Int64) : Rational := .small num denom

/-! ### The bignum constructor -/

def bnEqualsI64 (a : Bignum) (k : Int64) : Bool := eshkolBignumFitsInt64 a = some k

/-- `bn_gcd`. The remainder's sign is cleared before the next round. -/
def bnGcd (a b : Bignum) : Exec Exn Bignum := do
  let x := if a.sign then eshkolBignumNeg a else a
  let y := if b.sign then eshkolBignumNeg b else b
  let g ← euclid eshkolBignumIsZero
    (fun x y => do
      let r ← eshkolBignumMod x y
      .ok { r with sign := false }) (y.magnitude + 1) x y
  .ok { g with sign := false }

theorem magnitude_neg_of_sign {a : Bignum} (ha : a.Normalized) :
    (if a.sign then eshkolBignumNeg a else a).Normalized ∧
      (if a.sign then eshkolBignumNeg a else a).magnitude = a.magnitude := by
  cases a.sign with
  | true => exact ⟨eshkolBignumNeg_normalized ha, rfl⟩
  | false => exact ⟨ha, rfl⟩

theorem bnGcd_spec {a b : Bignum} (ha : a.Normalized) (hb : b.Normalized) :
    ∃ g, bnGcd a b = .ok g ∧ g.Normalized ∧ g.toInt = Int.gcd a.toInt b.toInt := by
  obtain ⟨hx, hxm⟩ := magnitude_neg_of_sign ha
  obtain ⟨hy, hym⟩ := magnitude_neg_of_sign hb
  obtain ⟨g, hg, hgn, hgm⟩ := euclid_spec eshkolBignumIsZero
    (fun x y => do
      let r ← eshkolBignumMod x y
      .ok { r with sign := false })
    Bignum.Normalized Bignum.magnitude
    (fun y hy => by rw [eshkolBignumIsZero_iff hy, Bignum.toInt_eq_zero_iff])
    (fun x y hx hy hne => by
      obtain ⟨r, hr, hrn, hrv⟩ := eshkolBignumMod_eq hx hy (mt Bignum.toInt_eq_zero_iff.mp hne)
      rw [hr, ok_bind]
      refine ⟨_, rfl, hrn.withSign (by simp), ?_⟩
      rw [← Bignum.natAbs_toInt x, ← Bignum.natAbs_toInt y, ← Int.natAbs_tmod, ← hrv,
        Bignum.natAbs_toInt]
      rfl)
    hx hy (Nat.lt_succ_self _)
  refine ⟨{ g with sign := false }, ?_, hgn.withSign (by simp), ?_⟩
  · rw [bnGcd, hg, ok_bind]
  · rw [toInt_withSign, hgm, hxm, hym, Int.gcd, Bignum.natAbs_toInt, Bignum.natAbs_toInt]
    simp

/-- The two parts divided by their greatest common divisor unless that is one. -/
def reduceBn (num denom g : Bignum) : Exec Exn (Bignum × Bignum) :=
  if !bnEqualsI64 g 1 && !eshkolBignumIsZero g then do
    let num ← eshkolBignumDiv num g
    let denom ← eshkolBignumDiv denom g
    .ok (num, denom)
  else .ok (num, denom)

/-- `eshkol_rational_create_bn`. A zero denominator is reported and yields `0/1`. -/
def eshkolRationalCreateBn (num denom : Bignum) : Exec Exn Rational :=
  if eshkolBignumIsZero denom then .ok (rationalAllocSmall 0 1)
  else do
    let num' := if denom.sign then eshkolBignumNeg num else num
    let denom' := if denom.sign then eshkolBignumNeg denom else denom
    let g ← bnGcd num' denom'
    let out ← reduceBn num' denom' g
    match eshkolBignumFitsInt64 out.1, eshkolBignumFitsInt64 out.2 with
    | some ni, some di => .ok (rationalAllocSmall ni di)
    | _, _ => .ok (.big out.1 out.2)

theorem reduceBn_spec {num denom g : Bignum} (hn : num.Normalized) (hd : denom.Normalized)
    (hg : g.Normalized) (hg0 : g.toInt ≠ 0) :
    ∃ out, reduceBn num denom g = .ok out ∧ out.1.Normalized ∧ out.2.Normalized ∧
      out.1.toInt = num.toInt.tdiv g.toInt ∧ out.2.toInt = denom.toInt.tdiv g.toInt := by
  unfold reduceBn
  split
  next h =>
      obtain ⟨q, hq, hqn, hqv⟩ := eshkolBignumDiv_eq hn hg hg0
      obtain ⟨q', hq', hqn', hqv'⟩ := eshkolBignumDiv_eq hd hg hg0
      rw [hq, ok_bind, hq', ok_bind]
      exact ⟨_, rfl, hqn, hqn', hqv, hqv'⟩
  next h =>
      have hone : g.toInt = 1 := by
        have hnz : eshkolBignumIsZero g = false := by
          rw [← Bool.not_eq_true, eshkolBignumIsZero_iff hg]
          exact hg0
        have heq : eshkolBignumFitsInt64 g = some 1 := by simpa [bnEqualsI64, hnz] using h
        exact ((eshkolBignumFitsInt64_eq_some_iff hg).mp heq).symm
      exact ⟨_, rfl, hn, hd, by rw [hone, Int.tdiv_one], by rw [hone, Int.tdiv_one]⟩

theorem flip_sign_spec {num denom : Bignum} (hn : num.Normalized) (hd : denom.Normalized)
    (hd0 : denom.toInt ≠ 0) :
    (if denom.sign then eshkolBignumNeg num else num).Normalized ∧
    (if denom.sign then eshkolBignumNeg denom else denom).Normalized ∧
    0 < (if denom.sign then eshkolBignumNeg denom else denom).toInt ∧
    (((if denom.sign then eshkolBignumNeg num else num).toInt : ℤ) : ℚ)
        / (if denom.sign then eshkolBignumNeg denom else denom).toInt
      = num.toInt / denom.toInt := by
  cases hs : denom.sign with
  | true =>
    have hneg := hd.sign_eq_true_iff.mp hs
    simp only [if_true, toInt_eshkolBignumNeg hn, toInt_eshkolBignumNeg hd]
    refine ⟨eshkolBignumNeg_normalized hn, eshkolBignumNeg_normalized hd, by omega, ?_⟩
    push_cast
    rw [neg_div_neg_eq]
  | false =>
    have hnonneg := hd.sign_eq_false_iff.mp hs
    simp only [Bool.false_eq_true, if_false]
    exact ⟨hn, hd, by omega, trivial⟩

theorem eshkolRationalCreateBn_spec {num denom : Bignum} (hn : num.Normalized)
    (hd : denom.Normalized) (hd0 : denom.toInt ≠ 0) :
    ∃ r, eshkolRationalCreateBn num denom = .ok r ∧ r.Canonical ∧
      r.toRat = (num.toInt : ℚ) / denom.toInt := by
  obtain ⟨hn', hd', hpos, hval⟩ := flip_sign_spec hn hd hd0
  rw [eshkolRationalCreateBn, if_neg (mt (eshkolBignumIsZero_iff hd).mp hd0)]
  set num' := if denom.sign then eshkolBignumNeg num else num
  set denom' := if denom.sign then eshkolBignumNeg denom else denom
  obtain ⟨g, hg, hgn, hgv⟩ := bnGcd_spec hn' hd'
  have hg0 : g.toInt ≠ 0 := by
    rw [hgv]
    exact_mod_cast (Int.gcd_pos_of_ne_zero_right _ hpos.ne').ne'
  obtain ⟨out, hout, hon, hod, honv, hodv⟩ := reduceBn_spec hn' hd' hgn hg0
  obtain ⟨hlow, hquot⟩ := lowestTerms_tdiv_gcd (n := num'.toInt) hpos
  rw [hgv] at honv hodv
  rw [← honv, ← hodv] at hlow hquot
  simp only [hg, hout, ok_bind]
  cases hfn : eshkolBignumFitsInt64 out.1 with
  | none =>
    refine ⟨.big out.1 out.2, rfl, ⟨hon, hod, hlow, Or.inl hfn⟩, ?_⟩
    rw [← hval, ← hquot]
    rfl
  | some ni =>
    cases hfd : eshkolBignumFitsInt64 out.2 with
    | none =>
      refine ⟨.big out.1 out.2, rfl, ⟨hon, hod, hlow, Or.inr hfd⟩, ?_⟩
      rw [← hval, ← hquot]
      rfl
    | some di =>
      have hni := (eshkolBignumFitsInt64_eq_some_iff hon).mp hfn
      have hdi := (eshkolBignumFitsInt64_eq_some_iff hod).mp hfd
      refine ⟨.small ni di, rfl, ?_, ?_⟩
      · rw [← hni, ← hdi] at hlow
        exact hlow
      · rw [← hval, ← hquot, ← hni, ← hdi]
        rfl

/-! ### The 128-bit constructor -/

def gcd128 (a b : ℤ) : Exec Exn ℤ := do
  let a ← absSigned 128 a
  let b ← absSigned 128 b
  euclid (· == 0) (fun x y => .ok (x.tmod y)) (b.natAbs + 1) a b

theorem gcd128_eq {a b : ℤ} (ha : |a| < 2 ^ 127) (hb : |b| < 2 ^ 127) :
    gcd128 a b = .ok (Int.gcd a b) := by
  rw [gcd128, absSigned_eq ha, ok_bind, absSigned_eq hb, ok_bind,
    euclid_int (abs_nonneg a) (abs_nonneg b)]
  simp [Int.gcd, Int.natAbs_abs]

def fitsInt64 (v : ℤ) : Bool := -2 ^ 63 ≤ v ∧ v ≤ 2 ^ 63 - 1

/-- `rational_create_safe`. `none` asks the caller for the bignum path. -/
def rationalCreateSafe (num denom : ℤ) : Exec Exn (Option Rational) := do
  let num := if denom = 0 then 0 else num
  let denom := if denom = 0 then 1 else denom
  let flipped ← flipSign 128 num denom
  let g ← gcd128 flipped.1 flipped.2
  let num := if g > 1 then flipped.1.tdiv g else flipped.1
  let denom := if g > 1 then flipped.2.tdiv g else flipped.2
  if !fitsInt64 num || !fitsInt64 denom then .ok none
  else .ok (some (rationalAllocSmall (Int64.ofInt num) (Int64.ofInt denom)))

theorem rationalCreateSafe_spec {num denom : ℤ} (hn : |num| < 2 ^ 127) (hd : |denom| < 2 ^ 127)
    (hd0 : denom ≠ 0) :
    ∃ out, rationalCreateSafe num denom = .ok out ∧
      ∀ r, out = some r → r.Canonical ∧ r.toRat = (num : ℚ) / denom := by
  obtain ⟨⟨num', denom'⟩, hflip, hn', hd', hpos, hval⟩ :=
    flipSign_spec (ε := Exn) (w := 128) hn hd hd0
  simp only at hn' hd' hpos hval
  obtain ⟨hlow, hquot⟩ := lowestTerms_tdiv_gcd (n := num') hpos
  have hg := gcd128_eq hn' hd'
  have hg1 : 0 < Int.gcd num' denom' := Int.gcd_pos_of_ne_zero_right _ hpos.ne'
  simp only [rationalCreateSafe, if_neg hd0, hflip, hg, ok_bind, reduce_eq_tdiv hg1]
  split
  next h => exact ⟨none, rfl, by simp⟩
  next h =>
      simp only [fitsInt64, Bool.or_eq_true, Bool.not_eq_true', decide_eq_false_iff_not, not_or,
        not_not] at h
      obtain ⟨⟨hn1, hn2⟩, ⟨hd1, hd2⟩⟩ := h
      refine ⟨_, rfl, ?_⟩
      rintro r ⟨rfl⟩
      have htn := Int64.toInt_ofInt_of_le hn1 (by omega)
      have htd := Int64.toInt_ofInt_of_le hd1 (by omega)
      refine ⟨?_, ?_⟩
      · rw [← htn, ← htd] at hlow
        exact hlow
      · rw [← hval, ← hquot]
        simp only [Rational.toRat, rationalAllocSmall, Rational.num, Rational.den, htn, htd]

/-! ### Arithmetic -/

def ratNumBn : Rational → Bignum
  | .small n _ => eshkolBignumFromInt64 n
  | .big n _ => n

def ratDenBn : Rational → Bignum
  | .small _ d => eshkolBignumFromInt64 d
  | .big _ d => d

def ratAddSubBig (ra rb : Rational) (subtract : Bool) : Exec Exn Rational :=
  let left := eshkolBignumMul (ratNumBn ra) (ratDenBn rb)
  let right := eshkolBignumMul (ratNumBn rb) (ratDenBn ra)
  let num := if subtract then eshkolBignumSub left right else eshkolBignumAdd left right
  eshkolRationalCreateBn num (eshkolBignumMul (ratDenBn ra) (ratDenBn rb))

def ratMulBig (ra rb : Rational) : Exec Exn Rational :=
  eshkolRationalCreateBn (eshkolBignumMul (ratNumBn ra) (ratNumBn rb))
    (eshkolBignumMul (ratDenBn ra) (ratDenBn rb))

def ratDivBig (ra rb : Rational) : Exec Exn Rational :=
  eshkolRationalCreateBn (eshkolBignumMul (ratNumBn ra) (ratDenBn rb))
    (eshkolBignumMul (ratDenBn ra) (ratNumBn rb))

/-- The shape of the four operations. On two `int64_t` pairs the parts `fast` computes in
128 bits go to `rational_create_safe`; when that gives up, or an operand is a bignum pair,
`slow` decides. -/
def fastOrBig (fast : ℤ → ℤ → ℤ → ℤ → Exec Exn (ℤ × ℤ))
    (slow : Rational → Rational → Exec Exn Rational) (ra rb : Rational) : Exec Exn Rational :=
  match ra, rb with
  | .small an ad, .small bn bd => do
      let parts ← fast an.toInt ad.toInt bn.toInt bd.toInt
      let r ← rationalCreateSafe parts.1 parts.2
      match r with
      | some r => .ok r
      | none => slow ra rb
  | _, _ => slow ra rb

def eshkolRationalAdd (ra rb : Rational) : Exec Exn Rational :=
  fastOrBig
    (fun an ad bn bd => do
      let left ← signed 128 (an * bd)
      let right ← signed 128 (bn * ad)
      let num ← signed 128 (left + right)
      let denom ← signed 128 (ad * bd)
      .ok (num, denom))
    (fun ra rb => ratAddSubBig ra rb false) ra rb

def eshkolRationalSub (ra rb : Rational) : Exec Exn Rational :=
  fastOrBig
    (fun an ad bn bd => do
      let left ← signed 128 (an * bd)
      let right ← signed 128 (bn * ad)
      let num ← signed 128 (left - right)
      let denom ← signed 128 (ad * bd)
      .ok (num, denom))
    (fun ra rb => ratAddSubBig ra rb true) ra rb

def eshkolRationalMul (ra rb : Rational) : Exec Exn Rational :=
  fastOrBig
    (fun an ad bn bd => do
      let num ← signed 128 (an * bn)
      let denom ← signed 128 (ad * bd)
      .ok (num, denom))
    ratMulBig ra rb

/-- The test `b_zero` of `eshkol_rational_div`. -/
def bZero : Rational → Bool
  | .big bn _ => eshkolBignumIsZero bn
  | .small bn _ => bn = 0

def eshkolRationalDiv (ra rb : Rational) : Exec Exn Rational :=
  if bZero rb then .error (.raised (.divideByZero "rational division by zero"))
  else
    fastOrBig
      (fun an ad bn bd => do
        let num ← signed 128 (an * bd)
        let denom ← signed 128 (ad * bn)
        .ok (num, denom))
      ratDivBig ra rb

section Arithmetic

variable {a b : Rational}

theorem ratNumBn_spec (ha : a.Canonical) :
    (ratNumBn a).Normalized ∧ (ratNumBn a).toInt = a.num := by
  cases a with
  | small n d => exact ⟨eshkolBignumFromInt64_normalized n, toInt_eshkolBignumFromInt64 n⟩
  | big n d => exact ⟨ha.1, rfl⟩

theorem ratDenBn_spec (ha : a.Canonical) :
    (ratDenBn a).Normalized ∧ (ratDenBn a).toInt = a.den := by
  cases a with
  | small n d => exact ⟨eshkolBignumFromInt64_normalized d, toInt_eshkolBignumFromInt64 d⟩
  | big n d => exact ⟨ha.2.1, rfl⟩

/-- The operation returns a canonical rational of value `x`. -/
def Yields (e : Exec Exn Rational) (x : ℚ) : Prop := ∃ r, e = .ok r ∧ r.Canonical ∧ r.toRat = x

theorem fastOrBig_spec {fast : ℤ → ℤ → ℤ → ℤ → Exec Exn (ℤ × ℤ)}
    {slow : Rational → Rational → Exec Exn Rational} {x : ℚ}
    (hfast : ∀ an ad bn bd, a = .small an ad → b = .small bn bd →
      ∃ parts, fast an.toInt ad.toInt bn.toInt bd.toInt = .ok parts ∧ |parts.1| < 2 ^ 127 ∧
        |parts.2| < 2 ^ 127 ∧ parts.2 ≠ 0 ∧ (parts.1 : ℚ) / parts.2 = x)
    (hslow : Yields (slow a b) x) : Yields (fastOrBig fast slow a b) x := by
  unfold fastOrBig
  split
  next an ad bn bd =>
      obtain ⟨parts, hparts, hn, hd, hd0, hval⟩ := hfast an ad bn bd rfl rfl
      obtain ⟨out, hout, hspec⟩ := rationalCreateSafe_spec hn hd hd0
      simp only [hparts, hout, ok_bind]
      cases out with
      | none => exact hslow
      | some r =>
        obtain ⟨hcan, hr⟩ := hspec r rfl
        exact ⟨r, rfl, hcan, hr.trans hval⟩
  next => exact hslow

theorem yields_createBn {num denom : Bignum} {x : ℚ} (hn : num.Normalized)
    (hd : denom.Normalized) (hd0 : denom.toInt ≠ 0) (hx : (num.toInt : ℚ) / denom.toInt = x) :
    Yields (eshkolRationalCreateBn num denom) x := by
  obtain ⟨r, hr, hcan, hval⟩ := eshkolRationalCreateBn_spec hn hd hd0
  exact ⟨r, hr, hcan, hval.trans hx⟩

theorem ratAddSubBig_spec (ha : a.Canonical) (hb : b.Canonical) (subtract : Bool) :
    Yields (ratAddSubBig a b subtract)
      (if subtract then a.toRat - b.toRat else a.toRat + b.toRat) := by
  obtain ⟨han, hanv⟩ := ratNumBn_spec ha
  obtain ⟨had, hadv⟩ := ratDenBn_spec ha
  obtain ⟨hbn, hbnv⟩ := ratNumBn_spec hb
  obtain ⟨hbd, hbdv⟩ := ratDenBn_spec hb
  have ha0 := ha.den_ne_zero
  have hb0 := hb.den_ne_zero
  have hleft := eshkolBignumMul_normalized (ratNumBn a) (ratDenBn b)
  have hright := eshkolBignumMul_normalized (ratNumBn b) (ratDenBn a)
  have hden : (eshkolBignumMul (ratDenBn a) (ratDenBn b)).toInt = a.den * b.den := by
    rw [toInt_eshkolBignumMul, hadv, hbdv]
  apply yields_createBn _ (eshkolBignumMul_normalized _ _)
  · rw [hden]
    exact mul_ne_zero ha.lowestTerms.den_pos.ne' hb.lowestTerms.den_pos.ne'
  · rw [hden]
    cases subtract with
    | true =>
      simp only [if_true, toInt_eshkolBignumSub hleft hright, toInt_eshkolBignumMul, hanv,
        hadv, hbnv, hbdv, Rational.toRat]
      push_cast
      field_simp
    | false =>
      simp only [Bool.false_eq_true, if_false, toInt_eshkolBignumAdd hleft hright,
        toInt_eshkolBignumMul, hanv, hadv, hbnv, hbdv, Rational.toRat]
      push_cast
      field_simp
  · cases subtract with
    | true => exact eshkolBignumSub_normalized hleft hright
    | false => exact eshkolBignumAdd_normalized hleft hright

theorem ratMulBig_spec (ha : a.Canonical) (hb : b.Canonical) :
    Yields (ratMulBig a b) (a.toRat * b.toRat) := by
  obtain ⟨-, hanv⟩ := ratNumBn_spec ha
  obtain ⟨-, hadv⟩ := ratDenBn_spec ha
  obtain ⟨-, hbnv⟩ := ratNumBn_spec hb
  obtain ⟨-, hbdv⟩ := ratDenBn_spec hb
  refine yields_createBn (eshkolBignumMul_normalized _ _) (eshkolBignumMul_normalized _ _) ?_ ?_
  · rw [toInt_eshkolBignumMul, hadv, hbdv]
    exact mul_ne_zero ha.lowestTerms.den_pos.ne' hb.lowestTerms.den_pos.ne'
  · rw [toInt_eshkolBignumMul, toInt_eshkolBignumMul, hanv, hadv, hbnv, hbdv, Rational.toRat,
      Rational.toRat, div_mul_div_comm]
    push_cast
    rfl

theorem ratDivBig_spec (ha : a.Canonical) (hb : b.Canonical) (hb0 : b.num ≠ 0) :
    Yields (ratDivBig a b) (a.toRat / b.toRat) := by
  obtain ⟨-, hanv⟩ := ratNumBn_spec ha
  obtain ⟨-, hadv⟩ := ratDenBn_spec ha
  obtain ⟨-, hbnv⟩ := ratNumBn_spec hb
  obtain ⟨-, hbdv⟩ := ratDenBn_spec hb
  refine yields_createBn (eshkolBignumMul_normalized _ _) (eshkolBignumMul_normalized _ _) ?_ ?_
  · rw [toInt_eshkolBignumMul, hadv, hbnv]
    exact mul_ne_zero ha.lowestTerms.den_pos.ne' hb0
  · rw [toInt_eshkolBignumMul, toInt_eshkolBignumMul, hanv, hadv, hbnv, hbdv, Rational.toRat,
      Rational.toRat, div_div_div_eq]
    push_cast
    rfl

theorem eshkolRationalAdd_spec (ha : a.Canonical) (hb : b.Canonical) :
    Yields (eshkolRationalAdd a b) (a.toRat + b.toRat) := by
  refine fastOrBig_spec ?_ (ratAddSubBig_spec ha hb false)
  rintro an ad bn bd rfl rfl
  have hl := mul_bounds (int64_bounds an) ⟨hb.lowestTerms.den_pos, bd.toInt_lt⟩
  have hr := mul_bounds (int64_bounds bn) ⟨ha.lowestTerms.den_pos, ad.toInt_lt⟩
  have hd := mul_bounds (int64_bounds ad) ⟨hb.lowestTerms.den_pos, bd.toInt_lt⟩
  have ha0 := ha.den_ne_zero
  have hb0 := hb.den_ne_zero
  simp only [Rational.den] at hl hr hd ha0 hb0
  refine ⟨(an.toInt * bd.toInt + bn.toInt * ad.toInt, ad.toInt * bd.toInt), ?_,
    abs_lt.mpr ⟨by simp only; omega, by simp only; omega⟩,
    abs_lt.mpr ⟨by simp only; omega, by simp only; omega⟩,
    mul_ne_zero ha.lowestTerms.den_pos.ne' hb.lowestTerms.den_pos.ne', ?_⟩
  · rw [signed_128_eq_ok (by omega) (by omega), ok_bind, signed_128_eq_ok (by omega) (by omega),
      ok_bind, signed_128_eq_ok (by omega) (by omega), ok_bind,
      signed_128_eq_ok (by omega) (by omega), ok_bind]
  · simp only [Rational.toRat, Rational.num, Rational.den]
    push_cast
    field_simp

theorem eshkolRationalSub_spec (ha : a.Canonical) (hb : b.Canonical) :
    Yields (eshkolRationalSub a b) (a.toRat - b.toRat) := by
  refine fastOrBig_spec ?_ (ratAddSubBig_spec ha hb true)
  rintro an ad bn bd rfl rfl
  have hl := mul_bounds (int64_bounds an) ⟨hb.lowestTerms.den_pos, bd.toInt_lt⟩
  have hr := mul_bounds (int64_bounds bn) ⟨ha.lowestTerms.den_pos, ad.toInt_lt⟩
  have hd := mul_bounds (int64_bounds ad) ⟨hb.lowestTerms.den_pos, bd.toInt_lt⟩
  have ha0 := ha.den_ne_zero
  have hb0 := hb.den_ne_zero
  simp only [Rational.den] at hl hr hd ha0 hb0
  refine ⟨(an.toInt * bd.toInt - bn.toInt * ad.toInt, ad.toInt * bd.toInt), ?_,
    abs_lt.mpr ⟨by simp only; omega, by simp only; omega⟩,
    abs_lt.mpr ⟨by simp only; omega, by simp only; omega⟩,
    mul_ne_zero ha.lowestTerms.den_pos.ne' hb.lowestTerms.den_pos.ne', ?_⟩
  · rw [signed_128_eq_ok (by omega) (by omega), ok_bind, signed_128_eq_ok (by omega) (by omega),
      ok_bind, signed_128_eq_ok (by omega) (by omega), ok_bind,
      signed_128_eq_ok (by omega) (by omega), ok_bind]
  · simp only [Rational.toRat, Rational.num, Rational.den]
    push_cast
    field_simp

theorem eshkolRationalMul_spec (ha : a.Canonical) (hb : b.Canonical) :
    Yields (eshkolRationalMul a b) (a.toRat * b.toRat) := by
  refine fastOrBig_spec ?_ (ratMulBig_spec ha hb)
  rintro an ad bn bd rfl rfl
  have hn := mul_int64_bounds an bn
  have hd := mul_bounds (int64_bounds ad) ⟨hb.lowestTerms.den_pos, bd.toInt_lt⟩
  simp only [Rational.den] at hd
  refine ⟨(an.toInt * bn.toInt, ad.toInt * bd.toInt), ?_,
    abs_lt.mpr ⟨by simp only; omega, by simp only; omega⟩,
    abs_lt.mpr ⟨by simp only; omega, by simp only; omega⟩,
    mul_ne_zero ha.lowestTerms.den_pos.ne' hb.lowestTerms.den_pos.ne', ?_⟩
  · rw [signed_128_eq_ok (by omega) (by omega), ok_bind, signed_128_eq_ok (by omega) (by omega),
      ok_bind]
  · simp only [Rational.toRat, Rational.num, Rational.den, div_mul_div_comm]
    push_cast
    rfl

theorem bZero_iff (hb : b.Canonical) : bZero b = true ↔ b.num = 0 := by
  cases b with
  | small bn bd =>
    rw [bZero, decide_eq_true_eq, Rational.num, ← Int64.toInt_inj]
    rfl
  | big bn bd => exact eshkolBignumIsZero_iff hb.1

theorem toRat_ne_zero_iff (hb : b.Canonical) : b.toRat ≠ 0 ↔ b.num ≠ 0 := by
  rw [Rational.toRat, ne_eq, div_eq_zero_iff, or_iff_left hb.den_ne_zero]
  exact_mod_cast Iff.rfl

theorem eshkolRationalDiv_spec (ha : a.Canonical) (hb : b.Canonical) (hb0 : b.toRat ≠ 0) :
    Yields (eshkolRationalDiv a b) (a.toRat / b.toRat) := by
  rw [toRat_ne_zero_iff hb] at hb0
  rw [eshkolRationalDiv, if_neg (mt (bZero_iff hb).mp hb0)]
  refine fastOrBig_spec ?_ (ratDivBig_spec ha hb hb0)
  rintro an ad bn bd rfl rfl
  have hn := mul_bounds (int64_bounds an) ⟨hb.lowestTerms.den_pos, bd.toInt_lt⟩
  have hd := mul_bounds (int64_bounds bn) ⟨ha.lowestTerms.den_pos, ad.toInt_lt⟩
  simp only [Rational.den] at hn hd
  rw [mul_comm bn.toInt] at hd
  refine ⟨(an.toInt * bd.toInt, ad.toInt * bn.toInt), ?_,
    abs_lt.mpr ⟨by simp only; omega, by simp only; omega⟩,
    abs_lt.mpr ⟨by simp only; omega, by simp only; omega⟩,
    mul_ne_zero ha.lowestTerms.den_pos.ne' hb0, ?_⟩
  · rw [signed_128_eq_ok (by omega) (by omega), ok_bind, signed_128_eq_ok (by omega) (by omega),
      ok_bind]
  · simp only [Rational.toRat, Rational.num, Rational.den, div_div_div_eq]
    push_cast
    rfl

end Arithmetic

/-! ### The `int64_t` constructor -/

/-- `gcd`. -/
def gcd64 (a b : ℤ) : Exec Exn ℤ := do
  let a ← absSigned 64 a
  let b ← absSigned 64 b
  if a = 0 then .ok b
  else if b = 0 then .ok a
  else euclid (· == 0) (fun x y => .ok (x.tmod y)) (b.natAbs + 1) a b

theorem gcd64_eq {a b : ℤ} (ha : |a| < 2 ^ 63) (hb : |b| < 2 ^ 63) :
    gcd64 a b = .ok (Int.gcd a b) := by
  have habs : Int.gcd |a| |b| = Int.gcd a b := by simp [Int.gcd, Int.natAbs_abs]
  rw [gcd64, absSigned_eq ha, ok_bind, absSigned_eq hb, ok_bind, ← habs]
  split
  next h => simp [h]
  next h =>
      split
      next h' => simp [h']
      next h' => exact euclid_int (abs_nonneg a) (abs_nonneg b)

/-- `eshkol_rational_create`. The least `int64_t` takes the bignum constructor. -/
def eshkolRationalCreate (num denom : Int64) : Exec Exn Rational :=
  let num' := if denom = 0 then 0 else num
  let denom' := if denom = 0 then 1 else denom
  if denom' = Int64.minValue ∨ num' = Int64.minValue then
    eshkolRationalCreateBn (eshkolBignumFromInt64 num') (eshkolBignumFromInt64 denom')
  else do
    let flipped ← flipSign 64 num'.toInt denom'.toInt
    let g ← gcd64 flipped.1 flipped.2
    let n := if g > 1 then flipped.1.tdiv g else flipped.1
    let d := if g > 1 then flipped.2.tdiv g else flipped.2
    .ok (rationalAllocSmall (Int64.ofInt n) (Int64.ofInt d))

theorem eshkolRationalCreate_spec {num denom : Int64} (hd0 : denom.toInt ≠ 0) :
    Yields (eshkolRationalCreate num denom) ((num.toInt : ℚ) / denom.toInt) := by
  have hd0' : denom ≠ 0 := fun h => hd0 (h ▸ rfl)
  simp only [eshkolRationalCreate, if_neg hd0']
  split
  next h =>
      refine yields_createBn (eshkolBignumFromInt64_normalized _)
        (eshkolBignumFromInt64_normalized _) ?_ ?_
      · rwa [toInt_eshkolBignumFromInt64]
      · rw [toInt_eshkolBignumFromInt64, toInt_eshkolBignumFromInt64]
  next h =>
      obtain ⟨hdmin, hnmin⟩ := not_or.mp h
      obtain ⟨⟨n, d⟩, hflip, hn, hd, hpos, hval⟩ :=
        flipSign_spec (ε := Exn) (w := 64) (abs_toInt_lt hnmin) (abs_toInt_lt hdmin) hd0
      simp only at hn hd hpos hval
      obtain ⟨hlow, hquot⟩ := lowestTerms_tdiv_gcd (n := n) hpos
      have hg1 : 0 < Int.gcd n d := Int.gcd_pos_of_ne_zero_right _ hpos.ne'
      have hn' := abs_lt.mp (lt_of_le_of_lt (abs_tdiv_natCast_le n (Int.gcd n d)) hn)
      have hd' := abs_lt.mp (lt_of_le_of_lt (abs_tdiv_natCast_le d (Int.gcd n d)) hd)
      have htn := Int64.toInt_ofInt_of_le hn'.1.le hn'.2
      have htd := Int64.toInt_ofInt_of_le hd'.1.le hd'.2
      simp only [hflip, gcd64_eq hn hd, ok_bind, reduce_eq_tdiv hg1]
      refine ⟨_, rfl, ?_, ?_⟩
      · rw [← htn, ← htd] at hlow
        exact hlow
      · rw [← hval, ← hquot]
        simp only [Rational.toRat, rationalAllocSmall, Rational.num, Rational.den, htn, htd]

/-- **Exact rational arithmetic.** Whatever the representations of two canonical operands,
each operation returns a canonical rational of exactly the right value; no 128-bit
intermediate overflows. -/
theorem eshkolRational_arith_exact {a b : Rational} (ha : a.Canonical) (hb : b.Canonical) :
    (∃ r, eshkolRationalAdd a b = .ok r ∧ r.Canonical ∧ r.toRat = a.toRat + b.toRat) ∧
    (∃ r, eshkolRationalSub a b = .ok r ∧ r.Canonical ∧ r.toRat = a.toRat - b.toRat) ∧
    (∃ r, eshkolRationalMul a b = .ok r ∧ r.Canonical ∧ r.toRat = a.toRat * b.toRat) ∧
    (b.toRat ≠ 0 →
      ∃ r, eshkolRationalDiv a b = .ok r ∧ r.Canonical ∧ r.toRat = a.toRat / b.toRat) :=
  ⟨eshkolRationalAdd_spec ha hb, eshkolRationalSub_spec ha hb, eshkolRationalMul_spec ha hb,
    eshkolRationalDiv_spec ha hb⟩

theorem eshkolRational_arith_exact_minValue :
    (∃ r, eshkolRationalAdd (.small Int64.minValue 3) (.small 1 Int64.maxValue) = .ok r ∧
      r.Canonical ∧ r.toRat = Rational.toRat (.small Int64.minValue 3)
        + Rational.toRat (.small 1 Int64.maxValue)) ∧
    (∃ r, eshkolRationalSub (.small Int64.minValue 3) (.small 1 Int64.maxValue) = .ok r ∧
      r.Canonical ∧ r.toRat = Rational.toRat (.small Int64.minValue 3)
        - Rational.toRat (.small 1 Int64.maxValue)) ∧
    (∃ r, eshkolRationalMul (.small Int64.minValue 3) (.small 1 Int64.maxValue) = .ok r ∧
      r.Canonical ∧ r.toRat = Rational.toRat (.small Int64.minValue 3)
        * Rational.toRat (.small 1 Int64.maxValue)) ∧
    (Rational.toRat (.small 1 Int64.maxValue) ≠ 0 →
      ∃ r, eshkolRationalDiv (.small Int64.minValue 3) (.small 1 Int64.maxValue) = .ok r ∧
        r.Canonical ∧ r.toRat = Rational.toRat (.small Int64.minValue 3)
          / Rational.toRat (.small 1 Int64.maxValue)) :=
  eshkolRational_arith_exact (by decide) (by decide)

end Eshkol
