import Eshkol.Native.Rounding
import Eshkol.Vm.Rational

/-!
# VM Rounding of Exact Rationals

`floor`, `ceiling`, `truncate` and `round` of the VM's exact rationals
(`lib/backend/vm_rational.c`), on the `int64_t` fields and over bignums.

The variants on the fields read the placeholder pair `0/1` of a bignum pair, and their
intermediates can leave `int64_t`: `-n` for the least numerator, `n + d` in the ceiling, and
`floor * d` in `round`, which can fall below the numerator.
-/

namespace Eshkol.Vm

open Machine Ratio

/-! ### On the `int64_t` fields -/

def vmRationalFloor (a : VmRational) : Exec Empty Int64 :=
  let n := a.num.toInt
  let d := a.denom.toInt
  if n ≥ 0 then do
    let q ← signedDiv 64 n d
    int64 q
  else do
    let m ← signed 64 (-n)
    let m ← signed 64 (m - 1)
    let q ← signedDiv 64 m d
    let q ← signed 64 (-q)
    int64 (q - 1)

def vmRationalCeil (a : VmRational) : Exec Empty Int64 :=
  let n := a.num.toInt
  let d := a.denom.toInt
  if n ≥ 0 then do
    let s ← signed 64 (n + d)
    let s ← signed 64 (s - 1)
    let q ← signedDiv 64 s d
    int64 q
  else do
    let m ← signed 64 (-n)
    let q ← signedDiv 64 m d
    int64 (-q)

def vmRationalTruncate (a : VmRational) : Exec Empty Int64 := do
  let q ← signedDiv 64 a.num.toInt a.denom.toInt
  int64 q

/-- `vm_rational_round`. The remainder is doubled in 128 bits. -/
def vmRationalRound (a : VmRational) : Exec Empty Int64 := do
  let n := a.num.toInt
  let d := a.denom.toInt
  let fl ← vmRationalFloor a
  let p ← signed 64 (fl.toInt * d)
  let rem ← signed 64 (n - p)
  let twiceRem ← signed 128 (2 * rem)
  if twiceRem < d then .ok fl
  else if twiceRem > d then int64 (fl.toInt + 1)
  else if fl.toInt.tmod 2 = 0 then .ok fl
  else int64 (fl.toInt + 1)

/-! ### Over bignums -/

def vmRationalFloorBn (a : VmRational) : Exec Empty (Option VmBignum) := do
  let n := vmRatNumBn a
  let d := vmRatDenBn a
  let q ← bignumDiv n d
  let rem ← bignumMod n d
  match q with
  | none => .ok none
  | some q =>
    if bignumSign n < 0 ∧ !bignumIsZero rem then .ok (some (bignumSub q (bignumFromInt64 1)))
    else .ok (some q)

def vmRationalTruncateBn (a : VmRational) : Exec Empty (Option VmBignum) :=
  bignumDiv (vmRatNumBn a) (vmRatDenBn a)

def vmRationalCeilBn (a : VmRational) : Exec Empty (Option VmBignum) := do
  let n := vmRatNumBn a
  let d := vmRatDenBn a
  let q ← bignumDiv n d
  let rem ← bignumMod n d
  match q with
  | none => .ok none
  | some q =>
    if bignumSign n > 0 ∧ !bignumIsZero rem then .ok (some (bignumAdd q (bignumFromInt64 1)))
    else .ok (some q)

def vmRationalRoundBn (a : VmRational) : Exec Empty (Option VmBignum) := do
  let n := vmRatNumBn a
  let d := vmRatDenBn a
  let fl ← vmRationalFloorBn a
  match fl with
  | none => .ok none
  | some fl =>
    let rem := bignumSub n (bignumMul fl d)
    let twice := bignumMul rem (bignumFromInt64 2)
    let cmp := bignumCompare twice d
    if cmp < 0 then .ok (some fl)
    else if cmp > 0 then .ok (some (bignumAdd fl (bignumFromInt64 1)))
    else do
      let half ← bignumMod fl (bignumFromInt64 2)
      if bignumIsZero half then .ok (some fl)
      else .ok (some (bignumAdd fl (bignumFromInt64 1)))

/-! ### An `int64_t` pair -/

section Small

variable {n d : Int64} (hd : 0 < d.toInt)
include hd

theorem vmRationalTruncate_small :
    ∃ v, vmRationalTruncate (.small n d) = .ok v ∧ v.toInt = n.toInt.tdiv d.toInt := by
  obtain ⟨hlo, hhi, -⟩ := tdiv_bounds (n := n) hd
  obtain ⟨v, hv, hval⟩ := int64_eq_ok (ε := Empty) hlo hhi
  refine ⟨v, ?_, hval⟩
  rw [vmRationalTruncate]
  simp only [VmRational.num, VmRational.denom, (signedDiv_int64 (ε := Empty) hd).1, ok_bind, hv]

theorem vmRationalFloor_small (hmin : n.toInt ≠ -2 ^ 63) :
    ∃ v, vmRationalFloor (.small n d) = .ok v ∧ v.toInt = n.toInt / d.toInt := by
  have hlo := n.le_toInt
  have hhi := n.toInt_lt
  simp only [vmRationalFloor, VmRational.num, VmRational.denom]
  by_cases hn : n.toInt ≥ 0
  · obtain ⟨hqlo, hqhi, -⟩ := tdiv_bounds (n := n) hd
    simp only [hn, if_true, (signedDiv_int64 (ε := Empty) hd).1, ok_bind]
    rw [← Int.tdiv_eq_ediv_of_nonneg hn]
    exact int64_eq_ok hqlo hqhi
  · have hm : 0 ≤ -n.toInt - 1 := by omega
    have hq0 : 0 ≤ (-n.toInt - 1) / d.toInt := Int.ediv_nonneg hm hd.le
    have hqle : (-n.toInt - 1) / d.toInt ≤ -n.toInt - 1 := Int.ediv_le_self _ hm
    simp only [hn, if_false]
    rw [signed_eq_ok (by omega) (by omega), ok_bind, signed_eq_ok (by omega) (by omega), ok_bind,
      signedDiv_eq_ok (by omega) (by omega) hd, Int.tdiv_eq_ediv_of_nonneg hm, ok_bind,
      signed_eq_ok (by omega) (by omega), ok_bind,
      (ediv_eq_neg_sub_one hd : n.toInt / d.toInt = _)]
    exact int64_eq_ok (by omega) (by omega)

omit hd in
theorem vmRationalFloor_small_undefined (hmin : n.toInt = -2 ^ 63) :
    vmRationalFloor (.small n d) = .error .undefined := by
  have hneg : (signed 64 (-n.toInt) : Exec Empty ℤ) = .error .undefined :=
    signed_eq_undefined (Or.inr (by omega))
  have hn : ¬ n.toInt ≥ 0 := by omega
  simp only [vmRationalFloor, VmRational.num, VmRational.denom, hn, if_false, hneg, error_bind]

theorem vmRationalCeil_small (hfit : n.toInt + d.toInt < 2 ^ 63) (hmin : n.toInt ≠ -2 ^ 63) :
    ∃ v, vmRationalCeil (.small n d) = .ok v ∧ v.toInt = -(-n.toInt / d.toInt) := by
  have hlo := n.le_toInt
  have hhi := n.toInt_lt
  simp only [vmRationalCeil, VmRational.num, VmRational.denom]
  by_cases hn : n.toInt ≥ 0
  · have hs : 0 ≤ n.toInt + d.toInt - 1 := by omega
    have hq0 : 0 ≤ (n.toInt + d.toInt - 1) / d.toInt := Int.ediv_nonneg hs hd.le
    have hqle : (n.toInt + d.toInt - 1) / d.toInt ≤ n.toInt + d.toInt - 1 := Int.ediv_le_self _ hs
    simp only [hn, if_true]
    rw [signed_eq_ok (by omega) (by omega), ok_bind, signed_eq_ok (by omega) (by omega), ok_bind,
      signedDiv_eq_ok (by omega) (by omega) hd, Int.tdiv_eq_ediv_of_nonneg hs, ok_bind,
      neg_ediv_eq_add_sub_one hd]
    exact int64_eq_ok (by omega) (by omega)
  · have hm : 0 ≤ -n.toInt := by omega
    have hq0 : 0 ≤ -n.toInt / d.toInt := Int.ediv_nonneg hm hd.le
    have hqle : -n.toInt / d.toInt ≤ -n.toInt := Int.ediv_le_self _ hm
    simp only [hn, if_false]
    rw [signed_eq_ok (by omega) (by omega), ok_bind, signedDiv_eq_ok (by omega) (by omega) hd,
      Int.tdiv_eq_ediv_of_nonneg hm, ok_bind]
    exact int64_eq_ok (by omega) (by omega)

theorem vmRationalCeil_small_undefined (h : 2 ^ 63 ≤ n.toInt + d.toInt ∨ n.toInt = -2 ^ 63) :
    vmRationalCeil (.small n d) = .error .undefined := by
  have hlt := d.toInt_lt
  simp only [vmRationalCeil, VmRational.num, VmRational.denom]
  rcases h with h | h
  · have hn : n.toInt ≥ 0 := by omega
    have hsum : (signed 64 (n.toInt + d.toInt) : Exec Empty ℤ) = .error .undefined :=
      signed_eq_undefined (Or.inr h)
    simp only [hn, if_true, hsum, error_bind]
  · have hn : ¬ n.toInt ≥ 0 := by omega
    have hneg : (signed 64 (-n.toInt) : Exec Empty ℤ) = .error .undefined :=
      signed_eq_undefined (Or.inr (by omega))
    simp only [hn, if_false, hneg, error_bind]

/-- A small rational is rounded to the nearest integer where nothing overflows. -/
theorem vmRationalRound_small (hmin : n.toInt ≠ -2 ^ 63)
    (hfit : -2 ^ 63 ≤ n.toInt / d.toInt * d.toInt) :
    ∃ v, vmRationalRound (.small n d) = .ok v ∧ NearestEven ((n.toInt : ℚ) / d.toInt) v.toInt := by
  have hlo := n.le_toInt
  have hhi := n.toInt_lt
  have hdlt := d.toInt_lt
  obtain ⟨fl, hfl, hflv⟩ := vmRationalFloor_small hd hmin
  obtain ⟨hbelow, habove, htie⟩ := nearestEven_floor (n := n.toInt) hd
  have hr0 := Int.emod_nonneg n.toInt hd.ne'
  have hrlt := Int.emod_lt_of_pos n.toInt hd
  have hrem : n.toInt - n.toInt / d.toInt * d.toInt = n.toInt % d.toInt := by
    linarith [Int.emod_add_mul_ediv n.toInt d.toInt, mul_comm d.toInt (n.toInt / d.toInt)]
  have hfllo := fl.le_toInt
  rw [hflv] at hfllo
  -- Rounding up leaves a remainder behind, so the floor is not the largest integer.
  have hup : n.toInt % d.toInt ≠ 0 → ∃ v, (int64 (n.toInt / d.toInt + 1) : Exec Empty Int64)
      = .ok v ∧ v.toInt = n.toInt / d.toInt + 1 := by
    intro hne
    have hlt : n.toInt / d.toInt < 2 ^ 63 - 1 := by
      have hd2 : 2 ≤ d.toInt := by omega
      rw [Int.ediv_lt_iff_lt_mul hd]
      nlinarith
    exact int64_eq_ok (by omega) (by omega)
  have hrun : vmRationalRound (.small n d) =
      if 2 * (n.toInt % d.toInt) < d.toInt then .ok fl
      else if 2 * (n.toInt % d.toInt) > d.toInt then int64 (n.toInt / d.toInt + 1)
      else if (n.toInt / d.toInt).tmod 2 = 0 then .ok fl
      else int64 (n.toInt / d.toInt + 1) := by
    have h128 : (signed 128 (2 * (n.toInt % d.toInt)) : Exec Empty ℤ)
        = .ok (2 * (n.toInt % d.toInt)) := signed_128_eq_ok (by omega) (by omega)
    rw [vmRationalRound, hfl, ok_bind]
    simp only [VmRational.num, VmRational.denom, hflv]
    rw [signed_eq_ok (by omega) (by omega), ok_bind, hrem, signed_eq_ok (by omega) (by omega),
      ok_bind, h128, ok_bind]
  rw [hrun]
  rcases lt_trichotomy (2 * (n.toInt % d.toInt)) d.toInt with h | h | h
  · rw [if_pos h]
    exact ⟨fl, rfl, hflv ▸ hbelow h⟩
  · rw [if_neg h.not_lt, if_neg h.not_gt]
    have ht := htie h
    have heven : (n.toInt / d.toInt).tmod 2 = 0 ↔ Even (n.toInt / d.toInt) := by
      rw [← Int.dvd_iff_tmod_eq_zero, ← even_iff_two_dvd]
    split
    next he =>
        rw [if_pos (heven.mp he)] at ht
        exact ⟨fl, rfl, hflv ▸ ht⟩
    next he =>
        obtain ⟨v, hv, hval⟩ := hup (by omega)
        rw [if_neg (mt heven.mpr he)] at ht
        exact ⟨v, hv, hval.symm ▸ ht⟩
  · rw [if_neg h.not_gt, if_pos h]
    obtain ⟨v, hv, hval⟩ := hup (by omega)
    exact ⟨v, hv, hval.symm ▸ habove h⟩

theorem vmRationalRound_small_undefined
    (h : n.toInt = -2 ^ 63 ∨ n.toInt / d.toInt * d.toInt < -2 ^ 63) :
    vmRationalRound (.small n d) = .error .undefined := by
  by_cases hmin : n.toInt = -2 ^ 63
  · rw [vmRationalRound, vmRationalFloor_small_undefined hmin, error_bind]
  · obtain ⟨fl, hfl, hflv⟩ := vmRationalFloor_small hd hmin
    have hprod : (signed 64 (n.toInt / d.toInt * d.toInt) : Exec Empty ℤ) = .error .undefined :=
      signed_eq_undefined (Or.inl (h.resolve_left hmin))
    rw [vmRationalRound, hfl, ok_bind]
    simp only [VmRational.denom, hflv, hprod, error_bind]

end Small

/-! ### Bignums -/

section Bignums

variable {a : VmRational} (ha : a.Canonical)
include ha

theorem vmRatDivMod_spec :
    ∃ q rem, bignumDiv (vmRatNumBn a) (vmRatDenBn a) = .ok (some q) ∧
      bignumMod (vmRatNumBn a) (vmRatDenBn a) = .ok rem ∧ q.Normalized ∧ rem.Normalized ∧
      q.toInt = a.numInt.tdiv a.denInt ∧ rem.toInt = a.numInt.tmod a.denInt := by
  obtain ⟨hn, hnv⟩ := vmRatNumBn_spec ha
  obtain ⟨hd, hdv⟩ := vmRatDenBn_spec ha
  have hd0 : (vmRatDenBn a).toInt ≠ 0 := hdv ▸ ha.lowestTerms.den_pos.ne'
  obtain ⟨q, hq, hqn, hqv⟩ := bignumDiv_spec hn hd hd0
  obtain ⟨rem, hrem, hremn, hremv⟩ := bignumMod_spec hn hd hd0
  exact ⟨q, rem, hq, hrem, hqn, hremn, by rw [hqv, hnv, hdv], by rw [hremv, hnv, hdv]⟩

theorem vmRationalTruncateBn_spec :
    ∃ b, vmRationalTruncateBn a = .ok (some b) ∧ b.Normalized ∧
      b.toInt = a.numInt.tdiv a.denInt := by
  obtain ⟨q, -, hq, -, hqn, -, hqv, -⟩ := vmRatDivMod_spec ha
  exact ⟨q, hq, hqn, hqv⟩

theorem vmRationalFloorBn_spec :
    ∃ b, vmRationalFloorBn a = .ok (some b) ∧ b.Normalized ∧ b.toInt = a.numInt / a.denInt := by
  obtain ⟨q, rem, hq, hrem, hqn, hremn, hqv, hremv⟩ := vmRatDivMod_spec ha
  obtain ⟨hn, hnv⟩ := vmRatNumBn_spec ha
  obtain ⟨honen, honev⟩ := bignumFromInt64_spec 1
  have hcond : (bignumSign (vmRatNumBn a) < 0 ∧ (!bignumIsZero rem) = true) ↔
      ¬ (0 ≤ a.numInt ∨ a.numInt.tmod a.denInt = 0) := by
    rw [bignumSign_eq hn, Bool.not_eq_true', ← Bool.not_eq_true, bignumIsZero_iff hremn, hnv, hremv,
      ← not_le, sign_nonneg_iff, not_or]
  simp only [vmRationalFloorBn, hq, hrem, ok_bind]
  rw [ediv_eq_tdiv_sub ha.lowestTerms.den_pos]
  by_cases h : 0 ≤ a.numInt ∨ a.numInt.tmod a.denInt = 0
  · rw [if_neg (mt hcond.mp (not_not.mpr h)), if_pos h]
    exact ⟨q, rfl, hqn, hqv⟩
  · obtain ⟨hsn, hsv⟩ := bignumSub_spec hqn honen
    rw [if_pos (hcond.mpr h), if_neg h]
    refine ⟨_, rfl, hsn, ?_⟩
    rw [hsv, hqv, honev]
    rfl

theorem vmRationalCeilBn_spec :
    ∃ b, vmRationalCeilBn a = .ok (some b) ∧ b.Normalized ∧ b.toInt = -(-a.numInt / a.denInt) := by
  obtain ⟨q, rem, hq, hrem, hqn, hremn, hqv, hremv⟩ := vmRatDivMod_spec ha
  obtain ⟨hn, hnv⟩ := vmRatNumBn_spec ha
  obtain ⟨honen, honev⟩ := bignumFromInt64_spec 1
  have hcond : (bignumSign (vmRatNumBn a) > 0 ∧ (!bignumIsZero rem) = true) ↔
      ¬ (a.numInt ≤ 0 ∨ a.numInt.tmod a.denInt = 0) := by
    rw [bignumSign_eq hn, Bool.not_eq_true', ← Bool.not_eq_true, bignumIsZero_iff hremn, hnv, hremv,
      gt_iff_lt, ← not_le, sign_nonpos_iff, not_or]
  simp only [vmRationalCeilBn, hq, hrem, ok_bind]
  rw [neg_ediv_eq_tdiv_add ha.lowestTerms.den_pos]
  by_cases h : a.numInt ≤ 0 ∨ a.numInt.tmod a.denInt = 0
  · rw [if_neg (mt hcond.mp (not_not.mpr h)), if_pos h]
    exact ⟨q, rfl, hqn, hqv⟩
  · obtain ⟨hsn, hsv⟩ := bignumAdd_spec hqn honen
    rw [if_pos (hcond.mpr h), if_neg h]
    refine ⟨_, rfl, hsn, ?_⟩
    rw [hsv, hqv, honev]
    rfl

/-- A big rational is rounded to the nearest integer, ties to even. -/
theorem vmRationalRoundBn_spec :
    ∃ b, vmRationalRoundBn a = .ok (some b) ∧ b.Normalized ∧ NearestEven a.toRat b.toInt := by
  obtain ⟨fl, hfl, hfln, hflv⟩ := vmRationalFloorBn_spec ha
  obtain ⟨hn, hnv⟩ := vmRatNumBn_spec ha
  obtain ⟨hd, hdv⟩ := vmRatDenBn_spec ha
  obtain ⟨hbelow, habove, htie⟩ := nearestEven_floor (n := a.numInt) ha.lowestTerms.den_pos
  obtain ⟨honen, honev⟩ := bignumFromInt64_spec 1
  obtain ⟨htwon, htwov⟩ := bignumFromInt64_spec 2
  obtain ⟨hmuln, hmulv⟩ := bignumMul_spec hfln hd
  obtain ⟨hremn, hremv⟩ := bignumSub_spec hn hmuln
  obtain ⟨htwicen, htwicev⟩ := bignumMul_spec hremn htwon
  obtain ⟨hupn, hupv⟩ := bignumAdd_spec hfln honen
  have hrem : a.numInt - a.numInt / a.denInt * a.denInt = a.numInt % a.denInt := by
    linarith [Int.emod_add_mul_ediv a.numInt a.denInt, mul_comm a.denInt (a.numInt / a.denInt)]
  have hcmp : bignumCompare (bignumMul (bignumSub (vmRatNumBn a) (bignumMul fl (vmRatDenBn a)))
      (bignumFromInt64 2)) (vmRatDenBn a) = Int.sign (2 * (a.numInt % a.denInt) - a.denInt) := by
    rw [bignumCompare_eq htwicen hd, htwicev, hremv, hmulv, hnv, hdv, hflv, hrem, htwov, mul_comm]
    rfl
  have hup : (bignumAdd fl (bignumFromInt64 1)).toInt = a.numInt / a.denInt + 1 := by
    rw [hupv, hflv, honev]
    rfl
  simp only [vmRationalRoundBn, hfl, ok_bind, hcmp]
  rcases lt_trichotomy (2 * (a.numInt % a.denInt)) a.denInt with h | h | h
  · rw [Int.sign_eq_neg_one_of_neg (by omega), if_pos (by decide)]
    exact ⟨fl, rfl, hfln, hflv ▸ hbelow h⟩
  · rw [h, sub_self, Int.sign_zero, if_neg (by decide), if_neg (by decide)]
    obtain ⟨half, hhalf, hhalfn, hhalfv⟩ := bignumMod_spec hfln htwon (by rw [htwov]; decide)
    have heven : bignumIsZero half = true ↔ Even (a.numInt / a.denInt) := by
      rw [bignumIsZero_iff hhalfn, hhalfv, htwov, hflv, even_iff_two_dvd]
      exact Int.dvd_iff_tmod_eq_zero.symm
    have ht := htie h
    simp only [hhalf, ok_bind]
    by_cases he : Even (a.numInt / a.denInt)
    · rw [if_pos (heven.mpr he)]
      rw [if_pos he] at ht
      exact ⟨fl, rfl, hfln, hflv ▸ ht⟩
    · rw [if_neg (mt heven.mp he)]
      rw [if_neg he] at ht
      exact ⟨_, rfl, hupn, hup.symm ▸ ht⟩
  · rw [Int.sign_eq_one_of_pos (by omega), if_neg (by decide), if_pos (by decide)]
    exact ⟨_, rfl, hupn, hup.symm ▸ habove h⟩

end Bignums

/-! ### Exact conditions -/

theorem vmFields_of_big (n d : VmBignum) :
    (∃ v, vmRationalFloor (.big n d) = .ok v ∧ v.toInt = 0) ∧
    (∃ v, vmRationalCeil (.big n d) = .ok v ∧ v.toInt = 0) ∧
    (∃ v, vmRationalTruncate (.big n d) = .ok v ∧ v.toInt = 0) ∧
    (∃ v, vmRationalRound (.big n d) = .ok v ∧ v.toInt = 0) :=
  ⟨vmRationalFloor_small (n := 0) (d := 1) (by decide) (by decide),
    vmRationalCeil_small (n := 0) (d := 1) (by decide) (by decide) (by decide),
    vmRationalTruncate_small (n := 0) (d := 1) (by decide),
    ⟨0, show vmRationalRound (.small 0 1) = .ok 0 by decide, rfl⟩⟩

section Conditions

variable {x : VmRational} (hx : x.Canonical)
include hx

theorem vmRationalFloor_iff :
    (∃ v, vmRationalFloor x = .ok v ∧ v.toInt = ⌊x.toRat⌋) ↔
      if x.isBig then 0 ≤ x.numInt ∧ x.numInt < x.denInt else x.numInt ≠ -2 ^ 63 := by
  have hpos := hx.lowestTerms.den_pos
  rw [VmRational.toRat, floor_div hpos]
  cases x with
  | small n d =>
    rw [VmRational.isBig, if_neg (by decide)]
    constructor
    · rintro ⟨v, hv, -⟩ hmin
      rw [vmRationalFloor_small_undefined hmin] at hv
      cases hv
    · exact vmRationalFloor_small hpos
  | big n d =>
    rw [returns_iff (vmFields_of_big n d).1 (· = _), eq_comm, ediv_eq_zero_iff hpos,
      VmRational.isBig, if_pos rfl]

theorem vmRationalCeil_iff :
    (∃ v, vmRationalCeil x = .ok v ∧ v.toInt = ⌈x.toRat⌉) ↔
      if x.isBig then -x.denInt < x.numInt ∧ x.numInt ≤ 0
      else x.numInt + x.denInt < 2 ^ 63 ∧ x.numInt ≠ -2 ^ 63 := by
  have hpos := hx.lowestTerms.den_pos
  rw [VmRational.toRat, ceil_div hpos]
  cases x with
  | small n d =>
    rw [VmRational.isBig, if_neg (by decide)]
    constructor
    · rintro ⟨v, hv, -⟩
      by_contra hcon
      rw [not_and_or, not_lt, not_not] at hcon
      rw [vmRationalCeil_small_undefined hpos hcon] at hv
      cases hv
    · rintro ⟨hfit, hmin⟩
      exact vmRationalCeil_small hpos hfit hmin
  | big n d =>
    rw [returns_iff (vmFields_of_big n d).2.1 (· = _), eq_comm, neg_ediv_eq_zero_iff hpos,
      VmRational.isBig, if_pos rfl]

theorem vmRationalTruncate_iff :
    (∃ v, vmRationalTruncate x = .ok v ∧ v.toInt = truncate x.toRat) ↔
      (x.isBig = true → |x.numInt| < x.denInt) := by
  have hpos := hx.lowestTerms.den_pos
  rw [VmRational.toRat, truncate_div hpos]
  cases x with
  | small n d =>
    refine iff_of_true (vmRationalTruncate_small hpos) ?_
    simp [VmRational.isBig]
  | big n d =>
    rw [returns_iff (vmFields_of_big n d).2.2.1 (· = _), eq_comm, tdiv_eq_zero_iff hpos]
    simp [VmRational.isBig]

theorem vmRationalRound_iff :
    (∃ v, vmRationalRound x = .ok v ∧ NearestEven x.toRat v.toInt) ↔
      if x.isBig then 2 * |x.numInt| ≤ x.denInt
      else x.numInt ≠ -2 ^ 63 ∧ -2 ^ 63 ≤ x.numInt / x.denInt * x.denInt := by
  have hpos := hx.lowestTerms.den_pos
  rw [VmRational.toRat]
  cases x with
  | small n d =>
    rw [VmRational.isBig, if_neg (by decide)]
    constructor
    · rintro ⟨v, hv, -⟩
      by_contra hcon
      rw [not_and_or, not_not, not_le] at hcon
      rw [vmRationalRound_small_undefined hpos hcon] at hv
      cases hv
    · rintro ⟨hmin, hfit⟩
      exact vmRationalRound_small hpos hmin hfit
  | big n d =>
    rw [returns_iff (vmFields_of_big n d).2.2.2, nearestEven_div_zero_iff hpos,
      VmRational.isBig, if_pos rfl]

end Conditions

/-! ### Agreement with the native runtime -/

theorem agree_of_characterized {ε ε' : Type} {e : Exec ε Int64} {e' : Exec ε' Int64} {P : ℤ → Prop}
    (huniq : ∀ y z, P y → P z → y = z) (h : ∃ v, e = .ok v ∧ P v.toInt)
    (h' : ∃ v, e' = .ok v ∧ P v.toInt) : ∃ v, e = .ok v ∧ e' = .ok v := by
  obtain ⟨v, hv, hP⟩ := h
  obtain ⟨v', hv', hP'⟩ := h'
  obtain rfl : v = v' := Int64.toInt_inj.mp (huniq _ _ hP hP')
  exact ⟨v, hv, hv'⟩

theorem same_parts {x : VmRational} {r : Rational} (hx : x.Canonical) (hr : r.Canonical)
    (h : r.toRat = x.toRat) : r.num = x.numInt ∧ r.den = x.denInt ∧ r.isBig = x.isBig := by
  obtain ⟨hn, hd⟩ := hr.lowestTerms.eq_of_div_eq hx.lowestTerms h
  refine ⟨hn, hd, ?_⟩
  cases r with
  | small n d =>
    cases x with
    | small n' d' => rfl
    | big n' d' =>
      have hn' : n.toInt = n'.toInt := hn
      have hd' : d.toInt = d'.toInt := hd
      exact absurd ⟨hn' ▸ int64_bounds n, hd' ▸ int64_bounds d⟩ hx.2.2.2
  | big n d =>
    cases x with
    | small n' d' =>
      have hn' : n.toInt = n'.toInt := hn
      have hd' : d.toInt = d'.toInt := hd
      have hnb := int64_bounds n'
      have hdb := int64_bounds d'
      have hfit := hr.2.2.2
      rw [eshkolBignumFitsInt64_eq_none_iff hr.1, eshkolBignumFitsInt64_eq_none_iff hr.2.1] at hfit
      omega
    | big n' d' => rfl

/-- When both engines round a small rational to one integer. -/
theorem small_fields_agree {n d : Int64} (hd : 0 < d.toInt) :
    ((∃ v, eshkolRationalFloor (.small n d) = .ok v ∧ vmRationalFloor (.small n d) = .ok v) ↔
      n.toInt ≠ -2 ^ 63) ∧
    ((∃ v, eshkolRationalCeil (.small n d) = .ok v ∧ vmRationalCeil (.small n d) = .ok v) ↔
      n.toInt + d.toInt < 2 ^ 63 ∧ n.toInt ≠ -2 ^ 63) ∧
    (∃ v, eshkolRationalTruncate (.small n d) = .ok v ∧ vmRationalTruncate (.small n d) = .ok v) ∧
    ((∃ v, eshkolRationalRound (.small n d) = .ok v ∧ vmRationalRound (.small n d) = .ok v) ↔
      2 * |n.toInt.tmod d.toInt| < 2 ^ 63 ∧
        n.toInt ≠ -2 ^ 63 ∧ -2 ^ 63 ≤ n.toInt / d.toInt * d.toInt) := by
  have huniq : ∀ z y y' : ℤ, y = z → y' = z → y = y' := fun z y y' hy hy' => hy.trans hy'.symm
  refine ⟨⟨?_, fun hmin => ?_⟩, ⟨?_, fun hfit => ?_⟩, ?_, ⟨?_, fun hfit => ?_⟩⟩
  · rintro ⟨v, -, hv⟩ hmin
    rw [vmRationalFloor_small_undefined hmin] at hv
    cases hv
  · exact agree_of_characterized (huniq _) (eshkolRationalFloor_small hd)
      (vmRationalFloor_small hd hmin)
  · rintro ⟨v, -, hv⟩
    by_contra hcon
    rw [not_and_or, not_lt, not_not] at hcon
    rw [vmRationalCeil_small_undefined hd hcon] at hv
    cases hv
  · exact agree_of_characterized (huniq _) (eshkolRationalCeil_small hd)
      (vmRationalCeil_small hd hfit.1 hfit.2)
  · exact agree_of_characterized (huniq _) (eshkolRationalTruncate_small hd)
      (vmRationalTruncate_small hd)
  · rintro ⟨v, hv, hv'⟩
    refine ⟨?_, ?_⟩
    · by_contra hcon
      rw [eshkolRationalRound_small_undefined hd (not_lt.mp hcon)] at hv
      cases hv
    · by_contra hcon
      rw [not_and_or, not_not, not_le] at hcon
      rw [vmRationalRound_small_undefined hd hcon] at hv'
      cases hv'
  · exact agree_of_characterized (fun _ _ hy hz => hy.unique hz)
      (eshkolRationalRound_small hd hfit.1) (vmRationalRound_small hd hfit.2.1 hfit.2.2)

section Agreement

variable {x : VmRational} {r : Rational} (hx : x.Canonical) (hr : r.Canonical)
  (h : r.toRat = x.toRat)
include hx hr h

theorem vmRationalBn_agree :
    (∃ b v, ratFloorBn r = .ok b ∧ vmRationalFloorBn x = .ok (some v) ∧ v.toInt = b.toInt) ∧
    (∃ b v, ratCeilBn r = .ok b ∧ vmRationalCeilBn x = .ok (some v) ∧ v.toInt = b.toInt) ∧
    (∃ b v, ratTruncBn r = .ok b ∧ vmRationalTruncateBn x = .ok (some v) ∧ v.toInt = b.toInt) ∧
    (∃ b v, ratRoundBn r = .ok b ∧ vmRationalRoundBn x = .ok (some v) ∧ v.toInt = b.toInt) := by
  obtain ⟨hn, hd, -⟩ := same_parts hx hr h
  obtain ⟨b₁, hb₁, -, hbv₁⟩ := ratFloorBn_spec hr
  obtain ⟨b₂, hb₂, -, hbv₂⟩ := ratCeilBn_spec hr
  obtain ⟨b₃, hb₃, -, hbv₃⟩ := ratTruncBn_spec hr
  obtain ⟨b₄, hb₄, -, hbv₄⟩ := ratRoundBn_spec hr
  obtain ⟨v₁, hv₁, -, hvv₁⟩ := vmRationalFloorBn_spec hx
  obtain ⟨v₂, hv₂, -, hvv₂⟩ := vmRationalCeilBn_spec hx
  obtain ⟨v₃, hv₃, -, hvv₃⟩ := vmRationalTruncateBn_spec hx
  obtain ⟨v₄, hv₄, -, hvv₄⟩ := vmRationalRoundBn_spec hx
  rw [hn, hd] at hbv₁ hbv₂ hbv₃
  rw [h] at hbv₄
  exact ⟨⟨b₁, v₁, hb₁, hv₁, hvv₁.trans hbv₁.symm⟩, ⟨b₂, v₂, hb₂, hv₂, hvv₂.trans hbv₂.symm⟩,
    ⟨b₃, v₃, hb₃, hv₃, hvv₃.trans hbv₃.symm⟩, ⟨b₄, v₄, hb₄, hv₄, hvv₄.unique hbv₄⟩⟩

/-- The variants on the fields agree on every bignum pair, where both read a zero, and on an
`int64_t` pair where both are defined. -/
theorem vmRational_fields_agree :
    ((∃ v, eshkolRationalFloor r = .ok v ∧ vmRationalFloor x = .ok v) ↔
      (x.isBig = false → x.numInt ≠ -2 ^ 63)) ∧
    ((∃ v, eshkolRationalCeil r = .ok v ∧ vmRationalCeil x = .ok v) ↔
      (x.isBig = false → x.numInt + x.denInt < 2 ^ 63 ∧ x.numInt ≠ -2 ^ 63)) ∧
    (∃ v, eshkolRationalTruncate r = .ok v ∧ vmRationalTruncate x = .ok v) ∧
    ((∃ v, eshkolRationalRound r = .ok v ∧ vmRationalRound x = .ok v) ↔
      (x.isBig = false → 2 * |x.numInt.tmod x.denInt| < 2 ^ 63 ∧
        x.numInt ≠ -2 ^ 63 ∧ -2 ^ 63 ≤ x.numInt / x.denInt * x.denInt)) := by
  obtain ⟨hn, hd, hbig⟩ := same_parts hx hr h
  have hpos := hx.lowestTerms.den_pos
  have huniq : ∀ z y y' : ℤ, y = z → y' = z → y = y' := fun z y y' hy hy' => hy.trans hy'.symm
  cases hxb : x.isBig with
  | true =>
    cases x with
    | small n d => cases hxb
    | big n d =>
      cases r with
      | small n' d' => cases hbig
      | big n' d' =>
        obtain ⟨h₁, h₂, h₃, h₄⟩ := fields_of_big n' d'
        obtain ⟨g₁, g₂, g₃, g₄⟩ := vmFields_of_big n d
        simp only [Bool.true_eq_false, false_imp_iff, iff_true]
        exact ⟨agree_of_characterized (huniq 0) h₁ g₁,
          agree_of_characterized (huniq 0) h₂ g₂, agree_of_characterized (huniq 0) h₃ g₃,
          agree_of_characterized (huniq 0) h₄ g₄⟩
  | false =>
    cases x with
    | big n d => cases hxb
    | small n d =>
      cases r with
      | big n' d' => cases hbig
      | small n' d' =>
        obtain rfl : n' = n := Int64.toInt_inj.mp hn
        obtain rfl : d' = d := Int64.toInt_inj.mp hd
        simp only [true_imp_iff]
        exact small_fields_agree hpos

end Agreement

/-- **Rounding, with exact conditions.** For a canonical rational: the variants on the fields
of an `int64_t` pair are right where their intermediates stay in `int64_t`, and on a bignum
pair only when the answer is zero; the bignum variants are always right. On the native
rational of the same value, the bignum variants give the same integers, and the variants on
the fields the same `int64_t` wherever both are defined. -/
theorem vmRational_rounding_iff {x : VmRational} (hx : x.Canonical) :
    ((∃ v, vmRationalFloor x = .ok v ∧ v.toInt = ⌊x.toRat⌋) ↔
      if x.isBig then 0 ≤ x.numInt ∧ x.numInt < x.denInt else x.numInt ≠ -2 ^ 63) ∧
    ((∃ v, vmRationalCeil x = .ok v ∧ v.toInt = ⌈x.toRat⌉) ↔
      if x.isBig then -x.denInt < x.numInt ∧ x.numInt ≤ 0
      else x.numInt + x.denInt < 2 ^ 63 ∧ x.numInt ≠ -2 ^ 63) ∧
    ((∃ v, vmRationalTruncate x = .ok v ∧ v.toInt = truncate x.toRat) ↔
      (x.isBig = true → |x.numInt| < x.denInt)) ∧
    ((∃ v, vmRationalRound x = .ok v ∧ NearestEven x.toRat v.toInt) ↔
      if x.isBig then 2 * |x.numInt| ≤ x.denInt
      else x.numInt ≠ -2 ^ 63 ∧ -2 ^ 63 ≤ x.numInt / x.denInt * x.denInt) ∧
    (∃ b, vmRationalFloorBn x = .ok (some b) ∧ b.toInt = ⌊x.toRat⌋) ∧
    (∃ b, vmRationalCeilBn x = .ok (some b) ∧ b.toInt = ⌈x.toRat⌉) ∧
    (∃ b, vmRationalTruncateBn x = .ok (some b) ∧ b.toInt = truncate x.toRat) ∧
    (∃ b, vmRationalRoundBn x = .ok (some b) ∧ NearestEven x.toRat b.toInt) ∧
    (∀ r : Rational, r.Canonical → r.toRat = x.toRat →
      ((∃ b v, ratFloorBn r = .ok b ∧ vmRationalFloorBn x = .ok (some v) ∧ v.toInt = b.toInt) ∧
        (∃ b v, ratCeilBn r = .ok b ∧ vmRationalCeilBn x = .ok (some v) ∧ v.toInt = b.toInt) ∧
        (∃ b v, ratTruncBn r = .ok b ∧ vmRationalTruncateBn x = .ok (some v) ∧ v.toInt = b.toInt) ∧
        (∃ b v, ratRoundBn r = .ok b ∧ vmRationalRoundBn x = .ok (some v) ∧ v.toInt = b.toInt)) ∧
      ((∃ v, eshkolRationalFloor r = .ok v ∧ vmRationalFloor x = .ok v) ↔
        (x.isBig = false → x.numInt ≠ -2 ^ 63)) ∧
      ((∃ v, eshkolRationalCeil r = .ok v ∧ vmRationalCeil x = .ok v) ↔
        (x.isBig = false → x.numInt + x.denInt < 2 ^ 63 ∧ x.numInt ≠ -2 ^ 63)) ∧
      (∃ v, eshkolRationalTruncate r = .ok v ∧ vmRationalTruncate x = .ok v) ∧
      ((∃ v, eshkolRationalRound r = .ok v ∧ vmRationalRound x = .ok v) ↔
        (x.isBig = false → 2 * |x.numInt.tmod x.denInt| < 2 ^ 63 ∧
          x.numInt ≠ -2 ^ 63 ∧ -2 ^ 63 ≤ x.numInt / x.denInt * x.denInt))) := by
  have hpos := hx.lowestTerms.den_pos
  have hfloor : ⌊x.toRat⌋ = x.numInt / x.denInt := floor_div hpos
  have hceil : ⌈x.toRat⌉ = -(-x.numInt / x.denInt) := ceil_div hpos
  have htrunc : truncate x.toRat = x.numInt.tdiv x.denInt := truncate_div hpos
  refine ⟨vmRationalFloor_iff hx, vmRationalCeil_iff hx, vmRationalTruncate_iff hx,
    vmRationalRound_iff hx, ?_, ?_, ?_, ?_, fun r hr h => ⟨vmRationalBn_agree hx hr h,
    vmRational_fields_agree hx hr h⟩⟩
  · obtain ⟨b, hb, -, hv⟩ := vmRationalFloorBn_spec hx
    exact ⟨b, hb, hv.trans hfloor.symm⟩
  · obtain ⟨b, hb, -, hv⟩ := vmRationalCeilBn_spec hx
    exact ⟨b, hb, hv.trans hceil.symm⟩
  · obtain ⟨b, hb, -, hv⟩ := vmRationalTruncateBn_spec hx
    exact ⟨b, hb, hv.trans htrunc.symm⟩
  · obtain ⟨b, hb, -, hv⟩ := vmRationalRoundBn_spec hx
    exact ⟨b, hb, hv⟩

theorem vmRational_rounding_iff_minus_five_halves :
    (∃ v, vmRationalFloor (.small (-5) 2) = .ok v ∧ v.toInt = ⌊VmRational.toRat (.small (-5) 2)⌋) ∧
    (∃ v, vmRationalRound (.small (-5) 2) = .ok v ∧
      NearestEven (VmRational.toRat (.small (-5) 2)) v.toInt) ∧
    (∃ v, eshkolRationalRound (.small (-5) 2) = .ok v ∧ vmRationalRound (.small (-5) 2) = .ok v) := by
  have h := vmRational_rounding_iff (x := .small (-5) 2) (by decide)
  refine ⟨h.1.mpr (by decide), h.2.2.2.1.mpr (by decide), ?_⟩
  exact (h.2.2.2.2.2.2.2.2 (.small (-5) 2) (by decide) rfl).2.2.2.2.mpr (by decide)

/-- The ceiling of `(2 ^ 63 - 1) / 2`, the floor of `-2 ^ 63 / 3` and the rounded value of
`(1 - 2 ^ 63) / 5` are undefined on the fields of these canonical pairs. -/
theorem vmRational_rounding_overflows :
    VmRational.Canonical (.small Int64.maxValue 2) ∧
    VmRational.Canonical (.small Int64.minValue 3) ∧
    VmRational.Canonical (.small (-9223372036854775807) 5) ∧
    (¬ ∃ v, vmRationalCeil (.small Int64.maxValue 2) = .ok v ∧
      v.toInt = ⌈VmRational.toRat (.small Int64.maxValue 2)⌉) ∧
    (¬ ∃ v, vmRationalFloor (.small Int64.minValue 3) = .ok v ∧
      v.toInt = ⌊VmRational.toRat (.small Int64.minValue 3)⌋) ∧
    (¬ ∃ v, vmRationalRound (.small (-9223372036854775807) 5) = .ok v ∧
      NearestEven (VmRational.toRat (.small (-9223372036854775807) 5)) v.toInt) := by
  refine ⟨by decide, by decide, by decide, ?_, ?_, ?_⟩
  · rw [vmRationalCeil_iff (by decide)]
    decide
  · rw [vmRationalFloor_iff (by decide)]
    decide
  · rw [vmRationalRound_iff (by decide)]
    decide

end Eshkol.Vm
