import Eshkol.Ratio.Signed
import Eshkol.Vm.Divide

/-!
# VM Exact Rationals

The exact rationals of the bytecode VM (`lib/backend/vm_rational.c`). A value is a pair of
`int64_t`, or a pair of bignums when a reduced part leaves `int64_t`. Arithmetic on two
`int64_t` pairs goes through 128-bit intermediates; a null result of that fast path, `none`
here, sends the operation to the bignums.

Normalization of an `int64_t` pair leaves a negative denominator in place when the sign
cannot be moved, because one of the parts is the least `int64_t`. The fast path of division
negates a negative numerator of the divisor, which overflows there.
-/

namespace Eshkol.Vm

open Machine Ratio

/-- `VmRational`. In a bignum pair the `int64_t` fields hold the placeholder pair `0/1` and
are not stored here; see `num` and `denom`. -/
inductive VmRational : Type
  | small (num denom : Int64)
  | big (bigNum bigDen : VmBignum)
  deriving DecidableEq

namespace VmRational

/-- The `is_big` field. -/
def isBig : VmRational → Bool
  | small _ _ => false
  | big _ _ => true

/-- The `num` field. -/
def num : VmRational → Int64
  | small n _ => n
  | big _ _ => 0

/-- The `denom` field. -/
def denom : VmRational → Int64
  | small _ d => d
  | big _ _ => 1

/-- The numerator denoted. -/
def numInt : VmRational → ℤ
  | small n _ => n.toInt
  | big n _ => n.toInt

/-- The denominator denoted. -/
def denInt : VmRational → ℤ
  | small _ d => d.toInt
  | big _ d => d.toInt

/-- The rational number denoted. -/
def toRat (r : VmRational) : ℚ := (r.numInt : ℚ) / r.denInt

/-- The integer fits `int64_t`. -/
def InInt64 (x : ℤ) : Prop := -2 ^ 63 ≤ x ∧ x < 2 ^ 63

instance (x : ℤ) : Decidable (InInt64 x) := inferInstanceAs (Decidable (_ ∧ _))

/-- A pair of `int64_t` in lowest terms, or a pair of normalized bignums in lowest terms
that does not fit. -/
def Canonical : VmRational → Prop
  | small n d => LowestTerms n.toInt d.toInt
  | big n d => n.Normalized ∧ d.Normalized ∧ LowestTerms n.toInt d.toInt ∧
      ¬ (InInt64 n.toInt ∧ InInt64 d.toInt)

instance (r : VmRational) : Decidable r.Canonical :=
  match r with
  | small _ _ => inferInstanceAs (Decidable (LowestTerms _ _))
  | big _ _ => inferInstanceAs (Decidable (_ ∧ _))

variable {r : VmRational}

theorem Canonical.lowestTerms (h : r.Canonical) : LowestTerms r.numInt r.denInt := by
  cases r with
  | small n d => exact h
  | big n d => exact h.2.2.1

theorem Canonical.denInt_ne_zero (h : r.Canonical) : (r.denInt : ℚ) ≠ 0 := by
  exact_mod_cast h.lowestTerms.den_pos.ne'

theorem Canonical.toRat_ne_zero_iff (h : r.Canonical) : r.toRat ≠ 0 ↔ r.numInt ≠ 0 := by
  rw [toRat, ne_eq, div_eq_zero_iff, or_iff_left h.denInt_ne_zero]
  exact_mod_cast Iff.rfl

theorem Canonical.eq_small (hr : r.Canonical) {n d : Int64} (hs : (small n d).Canonical)
    (h : r.toRat = (small n d).toRat) : r = small n d := by
  obtain ⟨hnum, hden⟩ := hr.lowestTerms.eq_of_div_eq hs.lowestTerms h
  cases r with
  | small n' d' => rw [Int64.toInt_inj.mp hnum, Int64.toInt_inj.mp hden]
  | big n' d' =>
    have hnum' : n'.toInt = n.toInt := hnum
    have hden' : d'.toInt = d.toInt := hden
    refine absurd ⟨?_, ?_⟩ hr.2.2.2
    · rw [hnum']
      exact ⟨n.le_toInt, n.toInt_lt⟩
    · rw [hden']
      exact ⟨d.le_toInt, d.toInt_lt⟩

end VmRational

/-- The function returns a canonical rational of value `x`. -/
def Yields (e : Exec Empty (Option VmRational)) (x : ℚ) : Prop :=
  ∃ r, e = .ok (some r) ∧ r.Canonical ∧ r.toRat = x

/-! ### Normalization -/

/-- `(a < 0) ? (uint64_t)(-(a + 1)) + 1u : (uint64_t)a`. -/
def magnitudeU64 (a : Int64) : ℕ :=
  if a.toInt < 0 then (-(a.toInt + 1)).toNat + 1 else a.toInt.toNat

/-- `vm_rational_gcd_i64`. The cast back to `int64_t` wraps. -/
def vmRationalGcdI64 (a b : Int64) : Exec Empty Int64 := do
  let g ← euclid (· == 0) (fun x y => .ok (x % y)) (magnitudeU64 b + 1) (magnitudeU64 a)
    (magnitudeU64 b)
  .ok (Int64.ofNat g)

/-- The first part of `vm_rational_normalize`: the sign moved to the numerator, `none` when
it returns early because a part is the least `int64_t`. -/
def normalizeSign (num denom : Int64) : Option (Int64 × Int64) :=
  if denom.toInt < 0 then
    if denom = Int64.minValue ∨ num = Int64.minValue then
      let n128 := -num.toInt
      let d128 := -denom.toInt
      if n128 > 2 ^ 63 - 1 ∨ n128 < -2 ^ 63 ∨ d128 > 2 ^ 63 - 1 ∨ d128 < -2 ^ 63 then none
      else some (Int64.ofInt n128, Int64.ofInt d128)
    else some (-num, -denom)
  else some (num, denom)

def vmRationalNormalize (num denom : Int64) : Exec Empty (Int64 × Int64) :=
  if denom = 0 then .ok (num, denom)
  else
    match normalizeSign num denom with
    | none => .ok (num, denom)
    | some (num, denom) =>
      if num = 0 then .ok (num, 1)
      else do
        let g ← vmRationalGcdI64 num denom
        if g.toInt > 1 then do
          let num ← signedDiv 64 num.toInt g.toInt
          let denom ← signedDiv 64 denom.toInt g.toInt
          .ok (Int64.ofInt num, Int64.ofInt denom)
        else .ok (num, denom)

def vmRationalAlloc (num denom : Int64) : Exec Empty (Option VmRational) :=
  if denom = 0 then .ok none
  else do
    let parts ← vmRationalNormalize num denom
    .ok (some (.small parts.1 parts.2))

theorem magnitudeU64_eq (a : Int64) : magnitudeU64 a = a.toInt.natAbs := by
  rw [magnitudeU64]
  split <;> omega

theorem vmRationalGcdI64_spec (a : Int64) {b : Int64} (hb : 0 < b.toInt) :
    ∃ g : Int64, vmRationalGcdI64 a b = .ok g ∧ g.toInt = Int.gcd a.toInt b.toInt := by
  obtain ⟨g, hg, -, hgm⟩ : ∃ g, (euclid (· == 0) (fun x y => .ok (x % y)) (magnitudeU64 b + 1)
      (magnitudeU64 a) (magnitudeU64 b) : Exec Empty ℕ) = .ok g ∧ True ∧
      g = Nat.gcd (magnitudeU64 a) (magnitudeU64 b) :=
    euclid_spec _ _ (fun _ => True) id (fun y _ => by simp)
      (fun x y _ _ _ => ⟨_, rfl, trivial, rfl⟩) trivial trivial (Nat.lt_succ_self _)
  have hgcd : g = Int.gcd a.toInt b.toInt := by rw [hgm, magnitudeU64_eq, magnitudeU64_eq, Int.gcd]
  have hle : Int.gcd a.toInt b.toInt ≤ b.toInt.natAbs :=
    Nat.le_of_dvd (by omega) (Nat.gcd_dvd_right ..)
  have hlt := b.toInt_lt
  refine ⟨Int64.ofNat g, by rw [vmRationalGcdI64, hg, ok_bind], ?_⟩
  rw [Int64.toInt_ofNat_of_lt (by omega), hgcd]

variable {num denom : Int64} {x : ℚ} {den : VmBignum}

theorem normalizeSign_spec (hd0 : denom.toInt ≠ 0)
    (h : 0 < denom.toInt ∨ num ≠ Int64.minValue ∧ denom ≠ Int64.minValue) :
    ∃ n d, normalizeSign num denom = some (n, d) ∧ 0 < d.toInt ∧
      (n.toInt : ℚ) / d.toInt = num.toInt / denom.toInt := by
  rw [normalizeSign]
  split
  next hneg =>
      obtain ⟨hnm, hdm⟩ := h.resolve_left (by omega)
      rw [if_neg (not_or.mpr ⟨hdm, hnm⟩)]
      have hn := toInt_neg_of_ne_minValue hnm
      have hd := toInt_neg_of_ne_minValue hdm
      refine ⟨_, _, rfl, by omega, ?_⟩
      rw [hn, hd]
      push_cast
      rw [neg_div_neg_eq]
  next hneg => exact ⟨_, _, rfl, by omega, rfl⟩

/-- Normalization gives lowest terms. -/
theorem vmRationalNormalize_spec (hd0 : denom.toInt ≠ 0)
    (h : 0 < denom.toInt ∨ num ≠ Int64.minValue ∧ denom ≠ Int64.minValue) :
    ∃ n d, vmRationalNormalize num denom = .ok (n, d) ∧ LowestTerms n.toInt d.toInt ∧
      (n.toInt : ℚ) / d.toInt = num.toInt / denom.toInt := by
  obtain ⟨n, d, hsign, hpos, hval⟩ := normalizeSign_spec hd0 h
  have hd0' : denom ≠ 0 := fun hz => hd0 (hz ▸ rfl)
  rw [← hval, vmRationalNormalize, if_neg hd0', hsign]
  simp only
  split
  next hz =>
      refine ⟨_, _, rfl, ⟨by decide, ?_⟩, ?_⟩
      · rw [hz]
        rfl
      · rw [hz]
        simp
  next hz =>
      obtain ⟨g, hg, hgv⟩ := vmRationalGcdI64_spec n hpos
      obtain ⟨hlow, hquot⟩ := lowestTerms_tdiv_gcd (n := n.toInt) hpos
      have hg1 : 0 < Int.gcd n.toInt d.toInt := Int.gcd_pos_of_ne_zero_right _ hpos.ne'
      rw [hg, ok_bind]
      rw [← hgv] at hlow hquot
      split
      next hgt =>
          have hn' := signedDiv_eq_ok (ε := Empty) (w := 64) n.le_toInt n.toInt_lt
            (by omega : 0 < g.toInt)
          have hd' := signedDiv_eq_ok (ε := Empty) (w := 64) d.le_toInt d.toInt_lt
            (by omega : 0 < g.toInt)
          have hnr := (signed_eq_ok_iff.mp (by rwa [signedDiv, if_neg (by omega)] at hn')).2
          have hdr := (signed_eq_ok_iff.mp (by rwa [signedDiv, if_neg (by omega)] at hd')).2
          rw [hn', ok_bind, hd', ok_bind]
          refine ⟨_, _, rfl, ?_, ?_⟩
          · rwa [Int64.toInt_ofInt_of_le hnr.1 hnr.2, Int64.toInt_ofInt_of_le hdr.1 hdr.2]
          · rwa [Int64.toInt_ofInt_of_le hnr.1 hnr.2, Int64.toInt_ofInt_of_le hdr.1 hdr.2]
      next hgt =>
          have hone : g.toInt = 1 := by omega
          rw [hone, Int.tdiv_one, Int.tdiv_one] at hlow
          exact ⟨_, _, rfl, hlow, rfl⟩

theorem vmRationalNormalize_minValue (hneg : denom.toInt < 0)
    (h : denom = Int64.minValue ∨ num = Int64.minValue) :
    vmRationalNormalize num denom = .ok (num, denom) := by
  have hd0 : denom ≠ 0 := fun hz => by rw [hz] at hneg; simp at hneg
  have hsign : normalizeSign num denom = none := by
    rw [normalizeSign, if_pos hneg, if_pos h]
    refine if_pos ?_
    rcases h with h | h
    · exact Or.inr (Or.inr (Or.inl (by rw [h]; decide)))
    · exact Or.inl (by rw [h]; decide)
  rw [vmRationalNormalize, if_neg hd0, hsign]

theorem vmRationalAlloc_spec (hd0 : denom.toInt ≠ 0)
    (h : 0 < denom.toInt ∨ num ≠ Int64.minValue ∧ denom ≠ Int64.minValue)
    (hx : (num.toInt : ℚ) / denom.toInt = x) : Yields (vmRationalAlloc num denom) x := by
  obtain ⟨n, d, hrun, hlow, hval⟩ := vmRationalNormalize_spec hd0 h
  have hd0' : denom ≠ 0 := fun hz => hd0 (hz ▸ rfl)
  rw [vmRationalAlloc, if_neg hd0', hrun, ok_bind]
  exact ⟨_, rfl, hlow, hval.trans hx⟩

/-! ### The bignum constructor -/

def vmRatNumBn : VmRational → VmBignum
  | .small n _ => bignumFromInt64 n
  | .big n _ => n

def vmRatDenBn : VmRational → VmBignum
  | .small _ d => bignumFromInt64 d
  | .big _ d => d

def vmBnIsI64 (b : VmBignum) (k : Int64) : Bool :=
  let v := bignumToInt64 b
  !v.2 && v.1 == k

/-- The two parts divided by `g` unless that is zero or one. -/
def reduceBn (num den g : VmBignum) : Exec Empty (Option (VmBignum × VmBignum)) :=
  if !bignumIsZero g && !vmBnIsI64 g 1 then do
    let num ← bignumDiv num g
    let den ← bignumDiv den g
    match num, den with
    | some num, some den => .ok (some (num, den))
    | _, _ => .ok none
  else .ok (some (num, den))

def vmRationalAllocBn (num den : VmBignum) : Exec Empty (Option VmRational) :=
  if bignumIsZero den then .ok none
  else
    let num' := if bignumSign den < 0 then bignumNeg num else num
    let den' := if bignumSign den < 0 then bignumNeg den else den
    if bignumIsZero num' then vmRationalAlloc 0 1
    else do
      let g ← bignumGcd num' den'
      let parts ← reduceBn num' den' g
      match parts with
      | none => .ok none
      | some (num, den) =>
        let ni := bignumToInt64 num
        let di := bignumToInt64 den
        if !ni.2 && !di.2 then vmRationalAlloc ni.1 di.1 else .ok (some (.big num den))

section

variable {a : VmRational} (ha : a.Canonical)
include ha

theorem vmRatNumBn_spec : (vmRatNumBn a).Normalized ∧ (vmRatNumBn a).toInt = a.numInt := by
  cases a with
  | small n d => exact bignumFromInt64_spec n
  | big n d => exact ⟨ha.1, rfl⟩

theorem vmRatDenBn_spec : (vmRatDenBn a).Normalized ∧ (vmRatDenBn a).toInt = a.denInt := by
  cases a with
  | small n d => exact bignumFromInt64_spec d
  | big n d => exact ⟨ha.2.1, rfl⟩

end

theorem vmBnIsI64_iff {b : VmBignum} (hb : b.Normalized) (k : Int64) :
    vmBnIsI64 b k = true ↔ b.toInt = k.toInt := by
  obtain ⟨hfit, hval⟩ := bignumToInt64_spec hb
  simp only [vmBnIsI64, Bool.and_eq_true, Bool.not_eq_true', beq_iff_eq]
  constructor
  · rintro ⟨hov, hk⟩
    rw [← hval hov, hk]
  · intro hk
    have hov := hfit.mpr (by rw [hk]; exact int64_bounds k)
    exact ⟨hov, Int64.toInt_inj.mp ((hval hov).trans hk)⟩

theorem reduceBn_spec {num g : VmBignum} (hn : num.Normalized) (hd : den.Normalized)
    (hg : g.Normalized) (hg0 : g.toInt ≠ 0) :
    ∃ n d, reduceBn num den g = .ok (some (n, d)) ∧ n.Normalized ∧ d.Normalized ∧
      n.toInt = num.toInt.tdiv g.toInt ∧ d.toInt = den.toInt.tdiv g.toInt := by
  have hz : bignumIsZero g = false := by
    rw [← Bool.not_eq_true]
    exact mt (bignumIsZero_iff hg).mp hg0
  rw [reduceBn, hz]
  by_cases hone : vmBnIsI64 g 1 = true
  · rw [hone]
    have hg1 : g.toInt = 1 := (vmBnIsI64_iff hg 1).mp hone
    exact ⟨_, _, rfl, hn, hd, by rw [hg1, Int.tdiv_one], by rw [hg1, Int.tdiv_one]⟩
  · rw [Bool.not_eq_true] at hone
    obtain ⟨n, hnr, hnn, hnv⟩ := bignumDiv_spec hn hg hg0
    obtain ⟨d, hdr, hdn, hdv⟩ := bignumDiv_spec hd hg hg0
    rw [hone, hnr, ok_bind, hdr, ok_bind]
    exact ⟨n, d, rfl, hnn, hdn, hnv, hdv⟩

theorem flipSignBn_spec {num : VmBignum} (hn : num.Normalized) (hd : den.Normalized)
    (hd0 : den.toInt ≠ 0) :
    (if bignumSign den < 0 then bignumNeg num else num).Normalized ∧
    (if bignumSign den < 0 then bignumNeg den else den).Normalized ∧
    0 < (if bignumSign den < 0 then bignumNeg den else den).toInt ∧
    (((if bignumSign den < 0 then bignumNeg num else num).toInt : ℤ) : ℚ)
        / (if bignumSign den < 0 then bignumNeg den else den).toInt
      = num.toInt / den.toInt := by
  obtain ⟨hnn, hnv⟩ := bignumNeg_spec hn
  obtain ⟨hdn, hdv⟩ := bignumNeg_spec hd
  rw [bignumSign_eq hd]
  rcases lt_or_gt_of_ne hd0 with h | h
  · simp only [sign_neg h, if_pos (by decide : (-1 : SignType) < 0)]
    refine ⟨hnn, hdn, by omega, ?_⟩
    rw [hnv, hdv]
    push_cast
    rw [neg_div_neg_eq]
  · simp only [sign_pos h, if_neg (by decide : ¬ (1 : SignType) < 0)]
    exact ⟨hn, hd, h, trivial⟩

theorem vmRationalAllocBn_spec {num : VmBignum} (hn : num.Normalized) (hd : den.Normalized)
    (hd0 : den.toInt ≠ 0) (hx : (num.toInt : ℚ) / den.toInt = x) :
    Yields (vmRationalAllocBn num den) x := by
  obtain ⟨hn', hd', hpos, hval⟩ := flipSignBn_spec hn hd hd0
  rw [vmRationalAllocBn, if_neg (mt (bignumIsZero_iff hd).mp hd0)]
  set num' := if bignumSign den < 0 then bignumNeg num else num
  set den' := if bignumSign den < 0 then bignumNeg den else den
  rw [← hx, ← hval]
  simp only
  split
  next hz =>
      rw [(bignumIsZero_iff hn').mp hz]
      exact vmRationalAlloc_spec (by decide) (Or.inl (by decide)) (by simp)
  next hz =>
      obtain ⟨g, hg, hgn, hgv⟩ := bignumGcd_spec hn' hd'
      have hg0 : g.toInt ≠ 0 := by
        rw [hgv]
        exact_mod_cast (Int.gcd_pos_of_ne_zero_right _ hpos.ne').ne'
      obtain ⟨n, d, hrun, hnn, hdn, hnv, hdv⟩ := reduceBn_spec hn' hd' hgn hg0
      obtain ⟨hlow, hquot⟩ := lowestTerms_tdiv_gcd (n := num'.toInt) hpos
      rw [hgv] at hnv hdv
      rw [← hnv, ← hdv] at hlow hquot
      obtain ⟨hnfit, hnval⟩ := bignumToInt64_spec hnn
      obtain ⟨hdfit, hdval⟩ := bignumToInt64_spec hdn
      simp only [hg, hrun, ok_bind]
      rw [← hquot]
      split
      next hov =>
          simp only [Bool.and_eq_true, Bool.not_eq_true'] at hov
          have hdpos := hlow.den_pos
          rw [← hnval hov.1, ← hdval hov.2] at hlow ⊢
          exact vmRationalAlloc_spec hlow.den_pos.ne' (Or.inl hlow.den_pos) rfl
      next hov =>
          simp only [Bool.and_eq_true, Bool.not_eq_true', hnfit, hdfit] at hov
          exact ⟨_, rfl, ⟨hnn, hdn, hlow, hov⟩, rfl⟩

/-- `vm_rational_pack128`. `none` asks the caller for the bignum path. -/
def vmRationalPack128 (num denom : ℤ) : Exec Empty (Option VmRational) :=
  if denom = 0 then .ok none
  else do
    let flipped ← flipSign 128 num denom
    if flipped.1 = 0 then vmRationalAlloc 0 1
    else do
      let a128 ← absSigned 128 flipped.1
      let g ← euclid (· == 0) (fun x y => .ok (x.tmod y)) (flipped.2.natAbs + 1) a128 flipped.2
      let num := if g > 1 then flipped.1.tdiv g else flipped.1
      let denom := if g > 1 then flipped.2.tdiv g else flipped.2
      if num > 2 ^ 63 - 1 ∨ num < -2 ^ 63 ∨ denom > 2 ^ 63 - 1 then .ok none
      else vmRationalAlloc (Int64.ofInt num) (Int64.ofInt denom)

theorem vmRationalPack128_spec {num denom : ℤ} (hn : |num| < 2 ^ 127) (hd : |denom| < 2 ^ 127)
    (hd0 : denom ≠ 0) :
    vmRationalPack128 num denom = .ok none ∨ Yields (vmRationalPack128 num denom) (num / denom) := by
  obtain ⟨⟨n, d⟩, hflip, hn', hd', hpos, hval⟩ := flipSign_spec (ε := Empty) (w := 128) hn hd hd0
  simp only at hn' hd' hpos hval
  rw [vmRationalPack128, if_neg hd0, hflip, ok_bind]
  simp only
  split
  next hz =>
      right
      exact vmRationalAlloc_spec (by decide) (Or.inl (by decide)) (by rw [← hval, hz]; simp)
  next hz =>
      obtain ⟨hlow, hquot⟩ := lowestTerms_tdiv_gcd (n := n) hpos
      have hgcd : (euclid (· == 0) (fun x y => .ok (x.tmod y)) (d.natAbs + 1) |n| d
          : Exec Empty ℤ) = .ok (Int.gcd n d) := by
        rw [euclid_int (abs_nonneg n) hpos.le]
        simp [Int.gcd, Int.natAbs_abs]
      have hg1 : 0 < Int.gcd n d := Int.gcd_pos_of_ne_zero_right _ hpos.ne'
      rw [absSigned_eq hn', ok_bind, hgcd, ok_bind, reduce_eq_tdiv hg1, reduce_eq_tdiv hg1]
      split
      next hbig => exact Or.inl rfl
      next hfit =>
          right
          have hdpos := hlow.den_pos
          have htn := Int64.toInt_ofInt_of_le (n := n.tdiv (Int.gcd n d)) (by omega) (by omega)
          have htd := Int64.toInt_ofInt_of_le (n := d.tdiv (Int.gcd n d)) (by omega) (by omega)
          refine vmRationalAlloc_spec (by omega) (Or.inl (by omega)) ?_
          rw [htn, htd, hquot, hval]

/-! ### The fast path -/

def vmRationalAdd (a b : VmRational) : Exec Empty (Option VmRational) := do
  let left ← signed 128 (a.num.toInt * b.denom.toInt)
  let right ← signed 128 (b.num.toInt * a.denom.toInt)
  let num ← signed 128 (left + right)
  let denom ← signed 128 (a.denom.toInt * b.denom.toInt)
  vmRationalPack128 num denom

def vmRationalSub (a b : VmRational) : Exec Empty (Option VmRational) := do
  let left ← signed 128 (a.num.toInt * b.denom.toInt)
  let right ← signed 128 (b.num.toInt * a.denom.toInt)
  let num ← signed 128 (left - right)
  let denom ← signed 128 (a.denom.toInt * b.denom.toInt)
  vmRationalPack128 num denom

/-- The product of two fractions, reduced crosswise before multiplying. -/
def crossMul (aNum aDenom bNum bDenom : Int64) : Exec Empty (Option VmRational) := do
  let g1 ← vmRationalGcdI64 aNum bDenom
  let g2 ← vmRationalGcdI64 bNum aDenom
  let x ← signedDiv 64 aNum.toInt g1.toInt
  let y ← signedDiv 64 bNum.toInt g2.toInt
  let num ← signed 128 (x * y)
  let u ← signedDiv 64 aDenom.toInt g2.toInt
  let v ← signedDiv 64 bDenom.toInt g1.toInt
  let denom ← signed 128 (u * v)
  vmRationalPack128 num denom

def vmRationalMul (a b : VmRational) : Exec Empty (Option VmRational) :=
  crossMul a.num a.denom b.num b.denom

/-- `vm_rational_div`. The sign of the divisor is moved to what becomes its numerator, in
64 bits. -/
def vmRationalDiv (a b : VmRational) : Exec Empty (Option VmRational) :=
  if b.num = 0 then .ok none
  else do
    let recip ← flipSign 64 b.denom.toInt b.num.toInt
    crossMul a.num a.denom (Int64.ofInt recip.1) (Int64.ofInt recip.2)

def vmRationalNeg (a : VmRational) : Exec Empty (Option VmRational) :=
  let num := -a.num.toInt
  if num > 2 ^ 63 - 1 ∨ num < -2 ^ 63 then .ok none else vmRationalAlloc (Int64.ofInt num) a.denom

def vmRationalAbs (a : VmRational) : Exec Empty (Option VmRational) :=
  if a.num.toInt < 0 then
    let neg := -a.num.toInt
    if neg > 2 ^ 63 - 1 then .ok none else vmRationalAlloc (Int64.ofInt neg) a.denom
  else vmRationalAlloc a.num a.denom

def vmRationalInv (a : VmRational) : Exec Empty (Option VmRational) :=
  if a.num = 0 then .ok none else vmRationalAlloc a.denom a.num

theorem vmRationalDiv_small (a : VmRational) {bn bd : Int64} (hbn : bn ≠ 0) :
    vmRationalDiv a (.small bn bd) = (do
      let recip ← flipSign 64 bd.toInt bn.toInt
      crossMul a.num a.denom (Int64.ofInt recip.1) (Int64.ofInt recip.2)) :=
  if_neg hbn

theorem vmRationalInv_small {n d : Int64} (hn : n ≠ 0) :
    vmRationalInv (.small n d) = vmRationalAlloc d n :=
  if_neg hn

/-- The outcome of a fast path: it gives up, or it is exact. -/
def FastExact (e : Exec Empty (Option VmRational)) (x : ℚ) : Prop := e = .ok none ∨ Yields e x

theorem pack128_fastExact {num denom : ℤ} (hn : |num| < 2 ^ 127) (hd : |denom| < 2 ^ 127)
    (hd0 : denom ≠ 0) (hx : (num : ℚ) / denom = x) : FastExact (vmRationalPack128 num denom) x :=
  hx ▸ vmRationalPack128_spec hn hd hd0

section FastPath

variable {an ad bn bd : Int64} (ha : 0 < ad.toInt) (hb : 0 < bd.toInt)
include ha hb

theorem vmRationalAdd_fast :
    FastExact (vmRationalAdd (.small an ad) (.small bn bd))
      ((an.toInt : ℚ) / ad.toInt + bn.toInt / bd.toInt) := by
  have hl := mul_bounds (int64_bounds an) ⟨hb, bd.toInt_lt⟩
  have hr := mul_bounds (int64_bounds bn) ⟨ha, ad.toInt_lt⟩
  have hd := mul_bounds (int64_bounds ad) ⟨hb, bd.toInt_lt⟩
  have ha0 : (ad.toInt : ℚ) ≠ 0 := by exact_mod_cast ha.ne'
  have hb0 : (bd.toInt : ℚ) ≠ 0 := by exact_mod_cast hb.ne'
  simp only [vmRationalAdd, VmRational.num, VmRational.denom]
  rw [signed_128_eq_ok (by omega) (by omega), ok_bind, signed_128_eq_ok (by omega) (by omega),
    ok_bind, signed_128_eq_ok (by omega) (by omega), ok_bind,
    signed_128_eq_ok (by omega) (by omega), ok_bind]
  refine pack128_fastExact (abs_lt.mpr ⟨by omega, by omega⟩) (abs_lt.mpr ⟨by omega, by omega⟩)
    (mul_ne_zero ha.ne' hb.ne') ?_
  push_cast
  field_simp

theorem vmRationalSub_fast :
    FastExact (vmRationalSub (.small an ad) (.small bn bd))
      ((an.toInt : ℚ) / ad.toInt - bn.toInt / bd.toInt) := by
  have hl := mul_bounds (int64_bounds an) ⟨hb, bd.toInt_lt⟩
  have hr := mul_bounds (int64_bounds bn) ⟨ha, ad.toInt_lt⟩
  have hd := mul_bounds (int64_bounds ad) ⟨hb, bd.toInt_lt⟩
  have ha0 : (ad.toInt : ℚ) ≠ 0 := by exact_mod_cast ha.ne'
  have hb0 : (bd.toInt : ℚ) ≠ 0 := by exact_mod_cast hb.ne'
  simp only [vmRationalSub, VmRational.num, VmRational.denom]
  rw [signed_128_eq_ok (by omega) (by omega), ok_bind, signed_128_eq_ok (by omega) (by omega),
    ok_bind, signed_128_eq_ok (by omega) (by omega), ok_bind,
    signed_128_eq_ok (by omega) (by omega), ok_bind]
  refine pack128_fastExact (abs_lt.mpr ⟨by omega, by omega⟩) (abs_lt.mpr ⟨by omega, by omega⟩)
    (mul_ne_zero ha.ne' hb.ne') ?_
  push_cast
  field_simp

/-- Multiplication crosswise is exact where it stays in 64 bits. -/
theorem crossMul_fast :
    FastExact (crossMul an ad bn bd) ((an.toInt : ℚ) / ad.toInt * (bn.toInt / bd.toInt)) := by
  obtain ⟨g₁, hg₁, hv₁⟩ := vmRationalGcdI64_spec an hb
  obtain ⟨g₂, hg₂, hv₂⟩ := vmRationalGcdI64_spec bn ha
  have hp₁ : 0 < g₁.toInt := by
    rw [hv₁]
    exact_mod_cast Int.gcd_pos_of_ne_zero_right _ hb.ne'
  have hp₂ : 0 < g₂.toInt := by
    rw [hv₂]
    exact_mod_cast Int.gcd_pos_of_ne_zero_right _ ha.ne'
  -- The parts are multiples of the divisors, so the quotients are exact.
  obtain ⟨x, hx⟩ : g₁.toInt ∣ an.toInt := hv₁ ▸ Int.gcd_dvd_left ..
  obtain ⟨v, hv⟩ : g₁.toInt ∣ bd.toInt := hv₁ ▸ Int.gcd_dvd_right ..
  obtain ⟨y, hy⟩ : g₂.toInt ∣ bn.toInt := hv₂ ▸ Int.gcd_dvd_left ..
  obtain ⟨u, hu⟩ : g₂.toInt ∣ ad.toInt := hv₂ ▸ Int.gcd_dvd_right ..
  have hq {z : Int64} {g k : ℤ} (hg : 0 < g) (hz : z.toInt = g * k) :
      (signedDiv 64 z.toInt g : Exec Empty ℤ) = .ok k ∧ |k| ≤ 2 ^ 63 := by
    have hdiv : z.toInt.tdiv g = k := by rw [hz, Int.mul_tdiv_cancel_left _ hg.ne']
    have habs := Int.natAbs_tdiv_le_natAbs z.toInt g
    have hb := int64_bounds z
    refine ⟨by rw [signedDiv_eq_ok hb.1 hb.2 hg, hdiv], ?_⟩
    rw [hdiv] at habs
    rw [Int.abs_eq_natAbs]
    omega
  obtain ⟨hqx, hbx⟩ := hq hp₁ hx
  obtain ⟨hqy, hby⟩ := hq hp₂ hy
  obtain ⟨hqu, hbu⟩ := hq hp₂ hu
  obtain ⟨hqv, hbv⟩ := hq hp₁ hv
  have hprod {i j : ℤ} (hi : |i| ≤ 2 ^ 63) (hj : |j| ≤ 2 ^ 63) : |i * j| ≤ 2 ^ 63 * 2 ^ 63 := by
    rw [abs_mul]
    exact mul_le_mul hi hj (abs_nonneg j) (by norm_num)
  have hnum := abs_le.mp (hprod hbx hby)
  have hden := abs_le.mp (hprod hbu hbv)
  have hu0 : u ≠ 0 := fun h => by rw [h, mul_zero] at hu; omega
  have hv0 : v ≠ 0 := fun h => by rw [h, mul_zero] at hv; omega
  simp only [crossMul, hg₁, hg₂, hqx, hqy, hqu, hqv, ok_bind]
  rw [signed_128_eq_ok (by omega) (by omega), ok_bind, signed_128_eq_ok (by omega) (by omega),
    ok_bind]
  refine pack128_fastExact (abs_lt.mpr ⟨by omega, by omega⟩) (abs_lt.mpr ⟨by omega, by omega⟩)
    (mul_ne_zero hu0 hv0) ?_
  have hg₁0 : (g₁.toInt : ℚ) ≠ 0 := by exact_mod_cast hp₁.ne'
  have hg₂0 : (g₂.toInt : ℚ) ≠ 0 := by exact_mod_cast hp₂.ne'
  have hu0' : (u : ℚ) ≠ 0 := by exact_mod_cast hu0
  have hv0' : (v : ℚ) ≠ 0 := by exact_mod_cast hv0
  rw [hx, hy, hu, hv]
  push_cast
  field_simp

theorem vmRationalDiv_fast (hbn : bn.toInt ≠ 0) (hmin : bn ≠ Int64.minValue) :
    FastExact (vmRationalDiv (.small an ad) (.small bn bd))
      ((an.toInt : ℚ) / ad.toInt / (bn.toInt / bd.toInt)) := by
  have hbn' : bn ≠ 0 := fun h => hbn (h ▸ rfl)
  have hbd := bd.toInt_lt
  obtain ⟨⟨n, d⟩, hflip, hn, hd, hpos, hval⟩ := flipSign_spec (ε := Empty) (w := 64)
    (abs_lt.mpr ⟨by norm_num; omega, bd.toInt_lt⟩) (abs_toInt_lt hmin) hbn
  simp only at hn hd hpos hval
  obtain ⟨hn1, hn2⟩ := abs_lt.mp hn
  obtain ⟨hd1, hd2⟩ := abs_lt.mp hd
  have htn := Int64.toInt_ofInt_of_le hn1.le hn2
  have htd := Int64.toInt_ofInt_of_le hd1.le hd2
  rw [vmRationalDiv_small _ hbn', hflip, ok_bind]
  have hfast : FastExact (crossMul an ad (Int64.ofInt n) (Int64.ofInt d)) _ :=
    crossMul_fast ha (by rwa [htd])
  rw [htn, htd, hval] at hfast
  rwa [div_eq_mul_inv _ ((bn.toInt : ℚ) / _), inv_div]

end FastPath

theorem vmRationalDiv_minValue (a : VmRational) {bd : Int64} (hb : 0 < bd.toInt) :
    vmRationalDiv a (.small Int64.minValue bd) = .error .undefined := by
  have hlt := bd.toInt_lt
  have hneg : (signed 64 (-bd.toInt) : Exec Empty ℤ) = .ok (-bd.toInt) :=
    signed_eq_ok (by norm_num; omega) (by norm_num; omega)
  have hover : (signed 64 (-Int64.minValue.toInt) : Exec Empty ℤ) = .error .undefined := rfl
  rw [vmRationalDiv_small a (by decide), flipSign, if_pos (by decide), hneg, ok_bind, hover,
    error_bind, error_bind]

/-! ### Exact operations -/

/-- The four fast paths of `vm_rational_arith_exact`; any other operator divides. -/
def vmRationalArithFast (a b : VmRational) (op : Char) : Exec Empty (Option VmRational) :=
  if a.isBig || b.isBig then .ok none
  else if op = '+' then vmRationalAdd a b
  else if op = '-' then vmRationalSub a b
  else if op = '*' then vmRationalMul a b
  else vmRationalDiv a b

/-- The bignum path of `vm_rational_arith_exact`. -/
def vmRationalArithBn (a b : VmRational) (op : Char) : Exec Empty (Option VmRational) :=
  let an := vmRatNumBn a
  let ad := vmRatDenBn a
  let bn := vmRatNumBn b
  let bd := vmRatDenBn b
  if op = '+' ∨ op = '-' then
    let l := bignumMul an bd
    let r := bignumMul bn ad
    vmRationalAllocBn (if op = '+' then bignumAdd l r else bignumSub l r) (bignumMul ad bd)
  else if op = '*' then vmRationalAllocBn (bignumMul an bn) (bignumMul ad bd)
  else if op = '/' then vmRationalAllocBn (bignumMul an bd) (bignumMul ad bn)
  else .ok none

/-- The test for an exact zero divisor. -/
def numIsZero : VmRational → Bool
  | .big n _ => bignumIsZero n
  | .small n _ => n = 0

/-- `if (fast) return fast;`, and otherwise the bignum path. -/
def orElseBn (fast slow : Exec Empty (Option VmRational)) : Exec Empty (Option VmRational) := do
  let r ← fast
  match r with
  | some r => .ok (some r)
  | none => slow

def vmRationalArithExact (a b : VmRational) (op : Char) : Exec Empty (Option VmRational) :=
  if op = '/' ∧ numIsZero b then .ok none
  else orElseBn (vmRationalArithFast a b op) (vmRationalArithBn a b op)

def vmRationalNegExact (a : VmRational) : Exec Empty (Option VmRational) :=
  orElseBn (if a.isBig then .ok none else vmRationalNeg a)
    (vmRationalAllocBn (bignumNeg (vmRatNumBn a)) (vmRatDenBn a))

def vmRationalAbsExact (a : VmRational) : Exec Empty (Option VmRational) :=
  orElseBn (if a.isBig then .ok none else vmRationalAbs a)
    (vmRationalAllocBn (bignumAbsVal (vmRatNumBn a)) (vmRatDenBn a))

def vmRationalInvExact (a : VmRational) : Exec Empty (Option VmRational) :=
  if numIsZero a then .ok none
  else
    orElseBn (if a.isBig then .ok none else vmRationalInv a)
      (vmRationalAllocBn (vmRatDenBn a) (vmRatNumBn a))

theorem orElseBn_spec {fast slow : Exec Empty (Option VmRational)} (hfast : FastExact fast x)
    (hslow : Yields slow x) : Yields (orElseBn fast slow) x := by
  rcases hfast with h | ⟨r, hr, hcan, hval⟩
  · rw [orElseBn, h, ok_bind]
    exact hslow
  · rw [orElseBn, hr, ok_bind]
    exact ⟨r, rfl, hcan, hval⟩

theorem minValue_not_pos : ¬ 0 < Int64.minValue.toInt := by decide

section Exact

variable {a b : VmRational} (ha : a.Canonical)
include ha

theorem numIsZero_iff : numIsZero a = true ↔ a.numInt = 0 := by
  cases a with
  | small n d =>
    rw [numIsZero, decide_eq_true_eq, VmRational.numInt, ← Int64.toInt_inj]
    rfl
  | big n d => exact bignumIsZero_iff ha.1

theorem vmRationalNegExact_spec : Yields (vmRationalNegExact a) (-a.toRat) := by
  obtain ⟨hn, hnv⟩ := vmRatNumBn_spec ha
  obtain ⟨hd, hdv⟩ := vmRatDenBn_spec ha
  obtain ⟨hneg, hnegv⟩ := bignumNeg_spec hn
  refine orElseBn_spec ?_ (vmRationalAllocBn_spec hneg hd
    (by rw [hdv]; exact ha.lowestTerms.den_pos.ne') ?_)
  · cases a with
    | big n d => exact Or.inl rfl
    | small n d =>
      simp only [VmRational.isBig, Bool.false_eq_true, if_false, vmRationalNeg]
      split
      next h => exact Or.inl rfl
      next h =>
          refine Or.inr (vmRationalAlloc_spec ha.den_pos.ne' (Or.inl ha.den_pos) ?_)
          rw [Int64.toInt_ofInt_of_le (by omega) (by omega), VmRational.toRat]
          push_cast
          rw [neg_div]
          rfl
  · rw [hnegv, hnv, hdv, VmRational.toRat]
    push_cast
    rw [neg_div]

theorem vmRationalAbsExact_spec : Yields (vmRationalAbsExact a) |a.toRat| := by
  obtain ⟨hn, hnv⟩ := vmRatNumBn_spec ha
  obtain ⟨hd, hdv⟩ := vmRatDenBn_spec ha
  obtain ⟨habs, habsv⟩ := bignumAbsVal_spec hn
  have hdpos := ha.lowestTerms.den_pos
  have hval : |a.toRat| = ((|a.numInt| : ℤ) : ℚ) / a.denInt := by
    have hd' : (0 : ℚ) < a.denInt := by exact_mod_cast hdpos
    rw [VmRational.toRat, abs_div, abs_of_pos hd', Int.cast_abs]
  refine orElseBn_spec ?_ (vmRationalAllocBn_spec habs hd (by rw [hdv]; exact hdpos.ne') ?_)
  · cases a with
    | big n d => exact Or.inl rfl
    | small n d =>
      have hlo := n.le_toInt
      rw [hval]
      simp only [VmRational.isBig, Bool.false_eq_true, if_false, vmRationalAbs]
      split
      next hneg =>
          rw [VmRational.num] at hneg
          split
          next h => exact Or.inl rfl
          next h =>
              rw [VmRational.num] at h ⊢
              refine Or.inr (vmRationalAlloc_spec hdpos.ne' (Or.inl hdpos) ?_)
              rw [Int64.toInt_ofInt_of_le (by omega) (by omega), VmRational.numInt,
                abs_of_neg hneg]
              rfl
      next hneg =>
          refine Or.inr (vmRationalAlloc_spec hdpos.ne' (Or.inl hdpos) ?_)
          rw [abs_of_nonneg (not_lt.mp hneg : 0 ≤ VmRational.numInt (.small n d))]
          rfl
  · rw [hval, habsv, hdv, ← hn.natAbs_toInt, hnv, Int.abs_eq_natAbs]

/-- **The reciprocal is exact** unless the numerator is the least `int64_t`: normalization
then leaves the denominator negative. -/
theorem vmRationalInvExact_iff (ha0 : a.toRat ≠ 0) :
    Yields (vmRationalInvExact a) (1 / a.toRat) ↔ ¬ ∃ d, a = .small Int64.minValue d := by
  rw [ha.toRat_ne_zero_iff] at ha0
  have hdpos := ha.lowestTerms.den_pos
  rw [vmRationalInvExact, if_neg (mt (numIsZero_iff ha).mp ha0)]
  constructor
  · rintro ⟨r, hr, hcan, -⟩ ⟨d, rfl⟩
    have hnorm : vmRationalNormalize d Int64.minValue = .ok (d, Int64.minValue) :=
      vmRationalNormalize_minValue (by decide) (Or.inl rfl)
    have hinv : vmRationalInv (.small Int64.minValue d) = .ok (some (.small d Int64.minValue)) := by
      rw [vmRationalInv_small (by decide), vmRationalAlloc, if_neg (by decide), hnorm, ok_bind]
    rw [VmRational.isBig, if_neg (by decide), hinv, orElseBn, ok_bind] at hr
    obtain rfl : VmRational.small d Int64.minValue = r := by simpa using hr
    exact minValue_not_pos hcan.den_pos
  · intro hmin
    obtain ⟨hn, hnv⟩ := vmRatNumBn_spec ha
    obtain ⟨hd, hdv⟩ := vmRatDenBn_spec ha
    refine orElseBn_spec ?_ (vmRationalAllocBn_spec hd hn (by rwa [hnv]) ?_)
    · cases a with
      | big n d => exact Or.inl rfl
      | small n d =>
        have hn0 : n ≠ 0 := fun h => ha0 (h ▸ rfl)
        have hdm : d ≠ Int64.minValue := by
          rintro rfl
          exact minValue_not_pos hdpos
        rw [VmRational.isBig, if_neg (by decide), vmRationalInv_small hn0]
        exact Or.inr (vmRationalAlloc_spec ha0 (Or.inr ⟨hdm, fun h => hmin ⟨d, h ▸ rfl⟩⟩)
          (by rw [VmRational.toRat, one_div_div]; rfl))
    · rw [hnv, hdv, VmRational.toRat, one_div_div]

end Exact

theorem vmRationalArithFast_spec {a b : VmRational} {op : Char}
    (h : ∀ an ad bn bd, a = .small an ad → b = .small bn bd →
      FastExact (vmRationalArithFast a b op) x) : FastExact (vmRationalArithFast a b op) x := by
  cases a with
  | big n d => exact Or.inl rfl
  | small an ad =>
    cases b with
    | big n d => exact Or.inl rfl
    | small bn bd => exact h an ad bn bd rfl rfl

section Arithmetic

variable {a b : VmRational} (ha : a.Canonical) (hb : b.Canonical)
include ha hb

theorem bignumMul_den_spec :
    (bignumMul (vmRatDenBn a) (vmRatDenBn b)).Normalized ∧
      (bignumMul (vmRatDenBn a) (vmRatDenBn b)).toInt = a.denInt * b.denInt ∧
      a.denInt * b.denInt ≠ 0 := by
  obtain ⟨had, hadv⟩ := vmRatDenBn_spec ha
  obtain ⟨hbd, hbdv⟩ := vmRatDenBn_spec hb
  obtain ⟨hn, hv⟩ := bignumMul_spec had hbd
  rw [hadv, hbdv] at hv
  exact ⟨hn, hv, mul_ne_zero ha.lowestTerms.den_pos.ne' hb.lowestTerms.den_pos.ne'⟩

theorem bignumMul_cross_spec :
    (bignumMul (vmRatNumBn a) (vmRatDenBn b)).Normalized ∧
      (bignumMul (vmRatNumBn a) (vmRatDenBn b)).toInt = a.numInt * b.denInt := by
  obtain ⟨hn, hnv⟩ := vmRatNumBn_spec ha
  obtain ⟨hd, hdv⟩ := vmRatDenBn_spec hb
  rw [← hnv, ← hdv]
  exact bignumMul_spec hn hd

theorem vmRationalArithExact_add : Yields (vmRationalArithExact a b '+') (a.toRat + b.toRat) := by
  obtain ⟨hl, hlv⟩ := bignumMul_cross_spec ha hb
  obtain ⟨hr, hrv⟩ := bignumMul_cross_spec hb ha
  obtain ⟨hs, hsv⟩ := bignumAdd_spec hl hr
  obtain ⟨hd, hdv, hd0⟩ := bignumMul_den_spec ha hb
  have ha0 := ha.denInt_ne_zero
  have hb0 := hb.denInt_ne_zero
  rw [vmRationalArithExact, if_neg (by simp)]
  refine orElseBn_spec (vmRationalArithFast_spec ?_) ?_
  · rintro an ad bn bd rfl rfl
    exact vmRationalAdd_fast ha.den_pos hb.den_pos
  · refine vmRationalAllocBn_spec hs hd (by rwa [hdv]) ?_
    rw [if_pos rfl, hsv, hlv, hrv, hdv, VmRational.toRat, VmRational.toRat]
    push_cast
    field_simp

theorem vmRationalArithExact_sub : Yields (vmRationalArithExact a b '-') (a.toRat - b.toRat) := by
  obtain ⟨hl, hlv⟩ := bignumMul_cross_spec ha hb
  obtain ⟨hr, hrv⟩ := bignumMul_cross_spec hb ha
  obtain ⟨hs, hsv⟩ := bignumSub_spec hl hr
  obtain ⟨hd, hdv, hd0⟩ := bignumMul_den_spec ha hb
  have ha0 := ha.denInt_ne_zero
  have hb0 := hb.denInt_ne_zero
  rw [vmRationalArithExact, if_neg (by simp)]
  refine orElseBn_spec (vmRationalArithFast_spec ?_) ?_
  · rintro an ad bn bd rfl rfl
    exact vmRationalSub_fast ha.den_pos hb.den_pos
  · refine vmRationalAllocBn_spec hs hd (by rwa [hdv]) ?_
    rw [if_neg (by decide), hsv, hlv, hrv, hdv, VmRational.toRat, VmRational.toRat]
    push_cast
    field_simp

theorem vmRationalArithExact_mul : Yields (vmRationalArithExact a b '*') (a.toRat * b.toRat) := by
  obtain ⟨han, hanv⟩ := vmRatNumBn_spec ha
  obtain ⟨hbn, hbnv⟩ := vmRatNumBn_spec hb
  obtain ⟨hn, hnv⟩ := bignumMul_spec han hbn
  obtain ⟨hd, hdv, hd0⟩ := bignumMul_den_spec ha hb
  rw [vmRationalArithExact, if_neg (by simp)]
  refine orElseBn_spec (vmRationalArithFast_spec ?_) ?_
  · rintro an ad bn bd rfl rfl
    exact crossMul_fast ha.den_pos hb.den_pos
  · refine vmRationalAllocBn_spec hn hd (by rwa [hdv]) ?_
    rw [hnv, hdv, hanv, hbnv, VmRational.toRat, VmRational.toRat, div_mul_div_comm]
    push_cast
    rfl

theorem vmRationalArithExact_div_iff (hb0 : b.toRat ≠ 0) :
    Yields (vmRationalArithExact a b '/') (a.toRat / b.toRat) ↔
      ¬ (a.isBig = false ∧ ∃ d, b = .small Int64.minValue d) := by
  rw [hb.toRat_ne_zero_iff] at hb0
  rw [vmRationalArithExact, if_neg (fun h => hb0 ((numIsZero_iff hb).mp h.2))]
  constructor
  · rintro ⟨r, hr, -⟩ ⟨hsmall, d, rfl⟩
    cases a with
    | big n d => cases hsmall
    | small an ad =>
      have hfast : vmRationalArithFast (.small an ad) (.small Int64.minValue d) '/'
          = .error .undefined := vmRationalDiv_minValue _ hb.den_pos
      rw [hfast, orElseBn, error_bind] at hr
      cases hr
  · intro hmin
    obtain ⟨had, hadv⟩ := vmRatDenBn_spec ha
    obtain ⟨hbn, hbnv⟩ := vmRatNumBn_spec hb
    obtain ⟨hn, hnv⟩ := bignumMul_cross_spec ha hb
    obtain ⟨hd, hdv⟩ := bignumMul_spec had hbn
    rw [hadv, hbnv] at hdv
    refine orElseBn_spec (vmRationalArithFast_spec ?_) ?_
    · rintro an ad bn bd rfl rfl
      exact vmRationalDiv_fast ha.den_pos hb.den_pos hb0 fun h => hmin ⟨rfl, bd, h ▸ rfl⟩
    · refine vmRationalAllocBn_spec hn hd ?_ ?_
      · rw [hdv]
        exact mul_ne_zero ha.lowestTerms.den_pos.ne' hb0
      · rw [hnv, hdv, VmRational.toRat, VmRational.toRat, div_div_div_eq]
        push_cast
        rfl

/-- **Exact arithmetic, with exact conditions.** On canonical operands of either
representation every operation returns the canonical rational of the right value, with two
exceptions: the quotient of `int64_t` pairs whose divisor has the least `int64_t` as
numerator, and the reciprocal of such a pair. -/
theorem vmRational_exact_iff :
    Yields (vmRationalArithExact a b '+') (a.toRat + b.toRat) ∧
    Yields (vmRationalArithExact a b '-') (a.toRat - b.toRat) ∧
    Yields (vmRationalArithExact a b '*') (a.toRat * b.toRat) ∧
    (b.toRat ≠ 0 → (Yields (vmRationalArithExact a b '/') (a.toRat / b.toRat) ↔
      ¬ (a.isBig = false ∧ ∃ d, b = .small Int64.minValue d))) ∧
    Yields (vmRationalNegExact a) (-a.toRat) ∧
    Yields (vmRationalAbsExact a) |a.toRat| ∧
    (a.toRat ≠ 0 → (Yields (vmRationalInvExact a) (1 / a.toRat) ↔
      ¬ ∃ d, a = .small Int64.minValue d)) :=
  ⟨vmRationalArithExact_add ha hb, vmRationalArithExact_sub ha hb,
    vmRationalArithExact_mul ha hb, vmRationalArithExact_div_iff ha hb,
    vmRationalNegExact_spec ha, vmRationalAbsExact_spec ha, vmRationalInvExact_iff ha⟩

end Arithmetic

theorem vmRational_exact_iff_minValue_maxValue :
    Yields (vmRationalArithExact (.small Int64.minValue 3) (.small Int64.maxValue 2) '+')
      (VmRational.toRat (.small Int64.minValue 3) + VmRational.toRat (.small Int64.maxValue 2)) ∧
    Yields (vmRationalArithExact (.small Int64.minValue 3) (.small Int64.maxValue 2) '/')
      (VmRational.toRat (.small Int64.minValue 3) / VmRational.toRat (.small Int64.maxValue 2)) := by
  have hb : VmRational.Canonical (.small Int64.maxValue 2) := by decide
  have h := vmRational_exact_iff (a := .small Int64.minValue 3) (by decide) hb
  refine ⟨h.1, (h.2.2.2.1 (hb.toRat_ne_zero_iff.mpr (by decide))).mpr ?_⟩
  rintro ⟨-, d, hd⟩
  cases hd

/-- The reciprocal of `-2 ^ 63 / 3` comes back with a negative denominator, and dividing by
`-2 ^ 63 / 3` is undefined. -/
theorem vmRational_not_exact :
    VmRational.Canonical (.small Int64.minValue 3) ∧
      VmRational.toRat (.small Int64.minValue 3) ≠ 0 ∧
    ¬ Yields (vmRationalInvExact (.small Int64.minValue 3))
      (1 / VmRational.toRat (.small Int64.minValue 3)) ∧
    ¬ Yields (vmRationalArithExact (.small 1 2) (.small Int64.minValue 3) '/')
      (VmRational.toRat (.small 1 2) / VmRational.toRat (.small Int64.minValue 3)) := by
  have hb : VmRational.Canonical (.small Int64.minValue 3) := by decide
  have hb0 := hb.toRat_ne_zero_iff.mpr (by decide)
  refine ⟨hb, hb0, ?_, ?_⟩
  · rw [vmRationalInvExact_iff hb hb0]
    exact not_not.mpr ⟨3, rfl⟩
  · rw [vmRationalArithExact_div_iff (by decide) hb hb0]
    exact not_not.mpr ⟨rfl, 3, rfl⟩

end Eshkol.Vm
