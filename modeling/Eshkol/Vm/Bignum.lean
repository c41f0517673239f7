import Mathlib.Data.Int.ConditionallyCompleteOrder
import Mathlib.Data.Sign.Basic
import Eshkol.Radix.Arith
import Eshkol.Machine.Exec

/-!
# VM Bignums

The arbitrary-precision integers of the bytecode VM (`lib/backend/vm_bignum.c`): a sign and
a little-endian array of 32-bit limbs, empty for zero. The capacity of the array, which only
allocation reads, is left out; allocation succeeds, and limb counts are natural numbers, which the
`int n_limbs` of the code holds below 2^31.
-/

namespace Eshkol.Vm

open Radix Machine

structure VmBignum where
  sign : SignType
  limbs : List (BitVec 32)
  deriving DecidableEq

namespace VmBignum

def nLimbs (a : VmBignum) : ℕ := a.limbs.length

/-- The absolute value. -/
def magnitude (a : VmBignum) : ℕ := value a.limbs

/-- The integer denoted. -/
def toInt (a : VmBignum) : ℤ := (a.sign : ℤ) * a.magnitude

/-- No zero limb at the top, and the sign is zero for the empty array only. -/
structure Normalized (a : VmBignum) : Prop where
  top_ne_zero : ∀ h : a.limbs ≠ [], a.limbs.getLast h ≠ 0
  sign_eq_zero_iff : a.sign = 0 ↔ a.limbs = []

instance (a : VmBignum) : Decidable a.Normalized :=
  decidable_of_iff ((∀ h : a.limbs ≠ [], a.limbs.getLast h ≠ 0) ∧ (a.sign = 0 ↔ a.limbs = []))
    ⟨fun h => ⟨h.1, h.2⟩, fun h => ⟨h.top_ne_zero, h.sign_eq_zero_iff⟩⟩

section

variable {a b : VmBignum} (ha : a.Normalized)
include ha

theorem Normalized.magnitude_eq_zero_iff : a.magnitude = 0 ↔ a.limbs = [] := by
  constructor
  · intro h
    by_contra hne
    exact ha.top_ne_zero hne (value_eq_zero_iff.mp h _ (List.getLast_mem hne))
  · intro h
    rw [magnitude, h, value_nil]

theorem Normalized.sign_eq : a.sign = SignType.sign a.toInt := by
  have hz := ha.sign_eq_zero_iff
  have hm := ha.magnitude_eq_zero_iff
  rw [toInt]
  cases hs : a.sign with
  | zero => simp
  | neg =>
    have hpos : 0 < (a.magnitude : ℤ) := by
      have : a.magnitude ≠ 0 := fun h => by simp [hz.mpr (hm.mp h)] at hs
      omega
    rw [show ((SignType.neg : SignType) : ℤ) = -1 from rfl, neg_one_mul, sign_neg (by omega)]
    rfl
  | pos =>
    have hpos : 0 < (a.magnitude : ℤ) := by
      have : a.magnitude ≠ 0 := fun h => by simp [hz.mpr (hm.mp h)] at hs
      omega
    rw [show ((SignType.pos : SignType) : ℤ) = 1 from rfl, one_mul, sign_pos hpos]
    rfl

theorem Normalized.toInt_eq_zero_iff : a.toInt = 0 ↔ a.limbs = [] := by
  rw [← ha.sign_eq_zero_iff, ha.sign_eq]
  simp

theorem Normalized.natAbs_toInt : a.toInt.natAbs = a.magnitude := by
  have hz := ha.sign_eq_zero_iff
  have hm := ha.magnitude_eq_zero_iff
  rw [toInt, Int.natAbs_mul, Int.natAbs_natCast]
  cases hs : a.sign with
  | zero => simp [hm.mpr (hz.mp hs)]
  | neg => simp
  | pos => simp

theorem Normalized.nLimbs_le (hle : a.magnitude ≤ b.magnitude) : a.nLimbs ≤ b.nLimbs := by
  by_contra hcon
  have hne : a.limbs ≠ [] := List.ne_nil_of_length_pos (by unfold nLimbs at hcon; omega)
  have := lt_of_length_lt hne (ha.top_ne_zero hne) (not_le.mp hcon)
  unfold magnitude at hle
  omega

end

theorem Normalized.eq_of_toInt_eq {a b : VmBignum} (ha : a.Normalized) (hb : b.Normalized)
    (h : a.toInt = b.toInt) : a = b := by
  have hsign : a.sign = b.sign := by rw [ha.sign_eq, hb.sign_eq, h]
  have hmag : a.magnitude = b.magnitude := by rw [← ha.natAbs_toInt, ← hb.natAbs_toInt, h]
  have hlen : a.limbs.length = b.limbs.length :=
    Nat.le_antisymm (ha.nLimbs_le hmag.le) (hb.nLimbs_le hmag.ge)
  have hlimbs := value_inj_of_length_eq hlen hmag
  cases a
  cases b
  cases hsign
  cases hlimbs
  rfl

end VmBignum

variable {s : SignType}

theorem sign_eq_neg_of_ne {t : SignType} (hs : s ≠ 0) (ht : t ≠ 0) (hne : s ≠ t) : t = -s := by
  revert hs ht hne
  cases s <;> cases t <;> decide

theorem neg_ne_zero_of_ne_zero (hs : s ≠ 0) : -s ≠ 0 := by
  revert hs
  cases s <;> decide

/-! ### Construction -/

def bignumNormalize (sign : SignType) (limbs : List (BitVec 32)) : VmBignum :=
  ⟨if trim limbs = [] then 0 else sign, trim limbs⟩

theorem bignumNormalize_spec (hs : s ≠ 0) (l : List (BitVec 32)) :
    (bignumNormalize s l).Normalized ∧ (bignumNormalize s l).magnitude = value l ∧
      (bignumNormalize s l).toInt = (s : ℤ) * value l := by
  refine ⟨⟨fun h => trim_getLast_ne_zero h, ?_⟩, value_trim l, ?_⟩
  · rw [bignumNormalize]
    constructor
    · intro h
      by_contra hne
      exact hs (by simpa [hne] using h)
    · intro h
      rw [if_pos h]
  · rw [VmBignum.toInt, VmBignum.magnitude, bignumNormalize]
    simp only [value_trim]
    split
    next h => simp [trim_eq_nil_iff.mp h]
    next h => rfl

theorem withSign_spec (hs : s ≠ 0) {l : List (BitVec 32)} (hl : value l ≠ 0) :
    (⟨s, trim l⟩ : VmBignum).Normalized ∧ (⟨s, trim l⟩ : VmBignum).toInt = (s : ℤ) * value l := by
  have hne : trim l ≠ [] := fun h => hl (trim_eq_nil_iff.mp h)
  refine ⟨⟨fun h => trim_getLast_ne_zero h, iff_of_false hs hne⟩, ?_⟩
  rw [VmBignum.toInt, VmBignum.magnitude, value_trim]

/-- The limbs of a 64-bit magnitude. -/
def limbsOfUint64 (mag : ℕ) : List (BitVec 32) :=
  let hi := BitVec.ofNat 32 (mag / 2 ^ 32)
  if hi ≠ 0 then [BitVec.ofNat 32 mag, hi] else [BitVec.ofNat 32 mag]

def bignumFromInt64 (v : Int64) : VmBignum :=
  if v = 0 then ⟨0, []⟩
  else if v.toInt < 0 then
    ⟨-1, limbsOfUint64 (if v = Int64.minValue then 2 ^ 63 else (-v.toInt).toNat)⟩
  else ⟨1, limbsOfUint64 v.toInt.toNat⟩

def bignumFromUint64 (v : ℕ) : VmBignum := if v = 0 then ⟨0, []⟩ else ⟨1, limbsOfUint64 v⟩

theorem limbsOfUint64_spec (hs : s ≠ 0) {mag : ℕ} (h0 : mag ≠ 0) (hlt : mag < 2 ^ 64) :
    (⟨s, limbsOfUint64 mag⟩ : VmBignum).Normalized ∧
      (⟨s, limbsOfUint64 mag⟩ : VmBignum).toInt = (s : ℤ) * mag := by
  have hhi : BitVec.ofNat 32 (mag / 2 ^ 32) = 0 ↔ mag / 2 ^ 32 = 0 := by
    rw [← BitVec.toNat_inj, BitVec.toNat_ofNat, Nat.mod_eq_of_lt (by omega)]
    rfl
  have hval : value (limbsOfUint64 mag) = mag := by
    rw [limbsOfUint64]
    simp only [ne_eq, hhi]
    split
    next h => simp only [value_cons, value_nil, BitVec.toNat_ofNat]; omega
    next h => simp only [value_cons, value_nil, BitVec.toNat_ofNat]; omega
  refine ⟨⟨?_, ?_⟩, by rw [VmBignum.toInt, VmBignum.magnitude, hval]⟩
  · intro hne
    have hlast : (limbsOfUint64 mag).getLast hne ≠ 0 := by
      unfold limbsOfUint64
      simp only [ne_eq]
      split
      next h => simpa using h
      next h =>
          intro hz
          have hzero := congrArg BitVec.toNat hz
          rw [not_not, hhi] at h
          simp only [List.getLast_singleton, BitVec.toNat_ofNat] at hzero
          rw [toNat_zero_word] at hzero
          omega
    exact hlast
  · refine iff_of_false hs ?_
    rw [limbsOfUint64]
    split <;> simp

theorem bignumFromInt64_spec (v : Int64) :
    (bignumFromInt64 v).Normalized ∧ (bignumFromInt64 v).toInt = v.toInt := by
  have hlo := v.le_toInt
  have hhi := v.toInt_lt
  rw [bignumFromInt64]
  split
  next h => rw [h]; exact ⟨by decide, by decide⟩
  next h =>
      have h0 : v.toInt ≠ 0 := fun he => h (Int64.toInt_inj.mp he)
      split
      next hneg =>
          set mag := if v = Int64.minValue then 2 ^ 63 else (-v.toInt).toNat with hmag
          have hval : (mag : ℤ) = -v.toInt := by
            rw [hmag]
            split
            next hmin => rw [hmin]; decide
            next hmin => omega
          obtain ⟨hn, hv⟩ := limbsOfUint64_spec (s := -1) (by decide)
            (by omega : mag ≠ 0) (by omega)
          exact ⟨hn, by rw [hv, SignType.coe_neg_one, hval]; ring⟩
      next hneg =>
          obtain ⟨hn, hv⟩ := limbsOfUint64_spec (s := 1) (by decide)
            (by omega : v.toInt.toNat ≠ 0) (by omega)
          refine ⟨hn, ?_⟩
          rw [hv, SignType.coe_one, one_mul]
          omega

theorem bignumFromUint64_spec {v : ℕ} (hv : v < 2 ^ 64) :
    (bignumFromUint64 v).Normalized ∧ (bignumFromUint64 v).toInt = v := by
  rw [bignumFromUint64]
  split
  next h => rw [h]; exact ⟨by decide, by decide⟩
  next h =>
      obtain ⟨hn, hval⟩ := limbsOfUint64_spec (s := 1) (by decide) h hv
      exact ⟨hn, by rw [hval, SignType.coe_one, one_mul]⟩

/-! ### Comparison -/

def bignumIsZero (b : VmBignum) : Bool := b.nLimbs = 0 ∨ b.sign = 0

def bignumSign (b : VmBignum) : SignType := if bignumIsZero b then 0 else b.sign

def bignumCompareMagnitude (a b : VmBignum) : ℤ :=
  if a.nLimbs ≠ b.nLimbs then if a.nLimbs > b.nLimbs then 1 else -1
  else compareWords a.limbs b.limbs

def bignumCompare (a b : VmBignum) : ℤ :=
  let sa := bignumSign a
  let sb := bignumSign b
  if sa ≠ sb then if sa > sb then 1 else -1
  else if sa = 0 then 0
  else
    let mag := bignumCompareMagnitude a b
    if sa > 0 then mag else -mag

section

variable {a b : VmBignum} (ha : a.Normalized) (hb : b.Normalized)
include ha

theorem bignumIsZero_iff : bignumIsZero a = true ↔ a.toInt = 0 := by
  rw [bignumIsZero, decide_eq_true_eq, ha.toInt_eq_zero_iff, ha.sign_eq_zero_iff,
    VmBignum.nLimbs, List.length_eq_zero_iff, or_self]

theorem bignumSign_eq : bignumSign a = SignType.sign a.toInt := by
  rw [bignumSign, ← ha.sign_eq]
  split
  next h =>
      rw [bignumIsZero_iff ha] at h
      rw [ha.sign_eq, h, sign_zero]
  next h => rfl

theorem toInt_cases :
    (a.sign = 0 ∧ a.toInt = 0 ∧ a.magnitude = 0) ∨
    (a.sign = 1 ∧ a.toInt = a.magnitude ∧ 0 < a.magnitude) ∨
    (a.sign = -1 ∧ a.toInt = -a.magnitude ∧ 0 < a.magnitude) := by
  have habs := ha.natAbs_toInt
  have hs := ha.sign_eq
  rcases lt_trichotomy a.toInt 0 with h | h | h
  · rw [sign_neg h] at hs
    exact Or.inr (Or.inr ⟨hs, by omega, by omega⟩)
  · rw [h, sign_zero] at hs
    exact Or.inl ⟨hs, h, by omega⟩
  · rw [sign_pos h] at hs
    exact Or.inr (Or.inl ⟨hs, by omega, by omega⟩)

include hb

theorem bignumCompareMagnitude_eq :
    bignumCompareMagnitude a b = Int.sign ((a.magnitude : ℤ) - b.magnitude) := by
  rw [bignumCompareMagnitude]
  split
  next h =>
      split
      next hgt =>
          have hne : a.limbs ≠ [] :=
            List.ne_nil_of_length_pos (by unfold VmBignum.nLimbs at hgt; omega)
          have := lt_of_length_lt hne (ha.top_ne_zero hne) hgt
          rw [Int.sign_eq_one_of_pos]
          unfold VmBignum.magnitude
          omega
      next hgt =>
          have hlt : a.nLimbs < b.nLimbs := by omega
          have hne : b.limbs ≠ [] :=
            List.ne_nil_of_length_pos (by unfold VmBignum.nLimbs at hlt; omega)
          have := lt_of_length_lt hne (hb.top_ne_zero hne) hlt
          rw [Int.sign_eq_neg_one_of_neg]
          unfold VmBignum.magnitude
          omega
  next h => exact compareWords_eq (not_not.mp h)

theorem bignumCompareMagnitude_cases :
    (bignumCompareMagnitude a b = 0 ∧ a.magnitude = b.magnitude) ∨
    (bignumCompareMagnitude a b = 1 ∧ b.magnitude < a.magnitude ∧ b.nLimbs ≤ a.nLimbs) ∨
    (bignumCompareMagnitude a b = -1 ∧ a.magnitude < b.magnitude ∧ a.nLimbs ≤ b.nLimbs) := by
  rw [bignumCompareMagnitude_eq ha hb]
  rcases lt_trichotomy a.magnitude b.magnitude with h | h | h
  · exact Or.inr (Or.inr ⟨Int.sign_eq_neg_one_of_neg (by omega), h, ha.nLimbs_le h.le⟩)
  · exact Or.inl ⟨by rw [h, sub_self, Int.sign_zero], h⟩
  · exact Or.inr (Or.inl ⟨Int.sign_eq_one_of_pos (by omega), h, hb.nLimbs_le h.le⟩)

theorem bignumCompare_eq : bignumCompare a b = Int.sign (a.toInt - b.toInt) := by
  have hmono : Monotone (fun x : ℤ => SignType.sign x) := SignType.sign.monotone
  simp only [bignumCompare, bignumSign_eq ha, bignumSign_eq hb, bignumCompareMagnitude_eq ha hb]
  split
  next h =>
      split
      next hgt =>
          have := hmono.reflect_lt hgt
          rw [Int.sign_eq_one_of_pos (by omega)]
      next hgt =>
          have := hmono.reflect_lt (lt_of_le_of_ne (not_lt.mp hgt) h)
          rw [Int.sign_eq_neg_one_of_neg (by omega)]
  next h =>
      rw [not_not, ← ha.sign_eq, ← hb.sign_eq] at h
      rw [← ha.sign_eq, VmBignum.toInt.eq_1 a, VmBignum.toInt.eq_1 b, ← h, ← mul_sub]
      cases a.sign with
      | zero => simp
      | pos => simp
      | neg => simp [← Int.sign_neg]

end

/-! ### Addition and subtraction -/

def bignumNeg (a : VmBignum) : VmBignum := if bignumIsZero a then a else { a with sign := -a.sign }

def bignumAbsVal (a : VmBignum) : VmBignum := if a.sign < 0 then { a with sign := 1 } else a

def magAdd (a b : VmBignum) : VmBignum :=
  let maxN := max a.nLimbs b.nLimbs + 1
  bignumNormalize 0 (ripple addStep ((extend maxN a.limbs).zip (extend maxN b.limbs)) 0).1

/-- One limb of `mag_sub`, in signed 64-bit temporaries that cannot overflow. -/
def magSubStep (borrow : ℤ) (x : BitVec 32 × BitVec 32) : BitVec 32 × ℤ :=
  let diff := (x.1.toNat : ℤ) - x.2.toNat - borrow
  if diff < 0 then (BitVec.ofInt 32 (diff + 2 ^ 32), 1) else (BitVec.ofInt 32 diff, 0)

/-- `mag_sub`, for `|a| >= |b|`. -/
def magSub (a b : VmBignum) : VmBignum :=
  bignumNormalize 0 (ripple magSubStep (a.limbs.zip (extend a.nLimbs b.limbs)) 0).1

def bignumAdd (a b : VmBignum) : VmBignum :=
  if bignumIsZero a then b
  else if bignumIsZero b then a
  else if a.sign = b.sign then { magAdd a b with sign := a.sign }
  else
    let cmp := bignumCompareMagnitude a b
    if cmp = 0 then bignumFromInt64 0
    else if cmp > 0 then { magSub a b with sign := a.sign }
    else { magSub b a with sign := b.sign }

def bignumSub (a b : VmBignum) : VmBignum :=
  if bignumIsZero b then a
  else if bignumIsZero a then bignumNeg b
  else if a.sign ≠ b.sign then { magAdd a b with sign := a.sign }
  else
    let cmp := bignumCompareMagnitude a b
    if cmp = 0 then bignumFromInt64 0
    else if cmp > 0 then { magSub a b with sign := a.sign }
    else { magSub b a with sign := -a.sign }

theorem magAdd_withSign (hs : s ≠ 0) {a b : VmBignum} (h0 : a.magnitude + b.magnitude ≠ 0) :
    ({ magAdd a b with sign := s } : VmBignum).Normalized ∧
      ({ magAdd a b with sign := s } : VmBignum).toInt
        = (s : ℤ) * ((a.magnitude : ℤ) + b.magnitude) := by
  set n := max a.nLimbs b.nLimbs + 1 with hn
  have hla : a.limbs.length ≤ n := by rw [hn, VmBignum.nLimbs]; omega
  have hlb : b.limbs.length ≤ n := by rw [hn, VmBignum.nLimbs, VmBignum.nLimbs]; omega
  obtain ⟨-, hval⟩ := value_ripple_addStep (by decide) (extend n a.limbs) (extend n b.limbs)
    (by simp)
  rw [value_extend hla, value_extend hlb, length_extend] at hval
  set out := ripple addStep ((extend n a.limbs).zip (extend n b.limbs)) 0 with hout
  have hsum : a.magnitude + b.magnitude < (2 ^ 32) ^ n := by
    have h1 : a.magnitude < (2 ^ 32) ^ (n - 1) :=
      lt_of_lt_of_le (value_lt _)
        (Nat.pow_le_pow_right (by decide) (by rw [hn, VmBignum.nLimbs]; omega))
    have h2 : b.magnitude < (2 ^ 32) ^ (n - 1) :=
      lt_of_lt_of_le (value_lt _)
        (Nat.pow_le_pow_right (by decide) (by rw [hn, VmBignum.nLimbs, VmBignum.nLimbs]; omega))
    rw [show n = n - 1 + 1 by omega, pow_succ]
    omega
  have hcarry : out.2 = 0 := by
    by_contra hne
    have : (2 ^ 32) ^ n * 1 ≤ (2 ^ 32) ^ n * out.2 :=
      Nat.mul_le_mul_left _ (Nat.one_le_iff_ne_zero.mpr hne)
    rw [VmBignum.magnitude, VmBignum.magnitude] at hsum
    omega
  rw [hcarry, Nat.mul_zero, Nat.add_zero] at hval
  obtain ⟨h1, h2⟩ := withSign_spec hs (l := out.1) (by rw [hval]; exact h0)
  refine ⟨h1, h2.trans ?_⟩
  rw [hval]
  push_cast
  rfl

theorem value_ripple_magSubStep {a b : VmBignum} (hle : b.nLimbs ≤ a.nLimbs)
    (hmag : b.magnitude ≤ a.magnitude) :
    value (ripple magSubStep (a.limbs.zip (extend a.nLimbs b.limbs)) 0).1
      = a.magnitude - b.magnitude := by
  have hlen : a.limbs.length = (extend a.nLimbs b.limbs).length := by
    rw [length_extend, VmBignum.nLimbs]
  obtain ⟨hb, hval⟩ := ripple_spec magSubStep (a.limbs.zip (extend a.nLimbs b.limbs))
    (fun x => 1 * (x.1.toNat : ℤ) + (-1) * (x.2.toNat : ℤ)) (fun s => -s)
    (fun s => 0 ≤ s ∧ s ≤ 1)
    (by
      intro s x _ hs
      have h1 := x.1.isLt
      have h2 := x.2.isLt
      rw [magSubStep]
      split
      next h => exact ⟨by simp, by rw [BitVec.toNat_ofInt]; omega⟩
      next h => exact ⟨by simp, by rw [BitVec.toNat_ofInt]; omega⟩)
    (s := 0) (by simp)
  rw [weigh_zip 1 (-1) hlen, List.length_zip, ← hlen, Nat.min_self, value_extend hle] at hval
  exact eq_sub_of_borrow (n := a.limbs.length) (by rw [length_ripple, List.length_zip, ← hlen,
    Nat.min_self]) hb.1 (by rw [VmBignum.magnitude, VmBignum.magnitude]; linarith) hmag

theorem magnitude_magSub {a b : VmBignum} (hle : b.nLimbs ≤ a.nLimbs)
    (hmag : b.magnitude ≤ a.magnitude) : (magSub a b).magnitude = a.magnitude - b.magnitude := by
  rw [← value_ripple_magSubStep hle hmag]
  exact value_trim _

theorem magSub_withSign (hs : s ≠ 0) {a b : VmBignum} (hle : b.nLimbs ≤ a.nLimbs)
    (hlt : b.magnitude < a.magnitude) :
    ({ magSub a b with sign := s } : VmBignum).Normalized ∧
      ({ magSub a b with sign := s } : VmBignum).toInt
        = (s : ℤ) * ((a.magnitude : ℤ) - b.magnitude) := by
  have hdiff := value_ripple_magSubStep hle hlt.le
  obtain ⟨h1, h2⟩ := withSign_spec hs
    (l := (ripple magSubStep (a.limbs.zip (extend a.nLimbs b.limbs)) 0).1) (by omega)
  refine ⟨h1, h2.trans ?_⟩
  rw [hdiff, Nat.cast_sub hlt.le]

section

variable {a b : VmBignum} (ha : a.Normalized) (hb : b.Normalized)
include ha

theorem sign_ne_zero_of_not_isZero (h : ¬ bignumIsZero a = true) : a.sign ≠ 0 := by
  rw [bignumIsZero_iff ha, ha.toInt_eq_zero_iff] at h
  exact mt ha.sign_eq_zero_iff.mp h

theorem magnitude_pos_of_not_isZero (h : ¬ bignumIsZero a = true) : 0 < a.magnitude := by
  rw [bignumIsZero_iff ha, ha.toInt_eq_zero_iff, ← ha.magnitude_eq_zero_iff] at h
  omega

theorem bignumNeg_spec : (bignumNeg a).Normalized ∧ (bignumNeg a).toInt = -a.toInt := by
  have hz := bignumIsZero_iff ha
  rw [bignumNeg]
  split
  next h => exact ⟨ha, by rw [hz.mp h, neg_zero]⟩
  next h =>
      have hs := sign_ne_zero_of_not_isZero ha h
      refine ⟨⟨ha.top_ne_zero, ?_⟩, ?_⟩
      · exact iff_of_false (neg_ne_zero_of_ne_zero hs) (mt ha.sign_eq_zero_iff.mpr hs)
      · rw [VmBignum.toInt, VmBignum.toInt, SignType.coe_neg, neg_mul]
        rfl

theorem bignumAbsVal_spec : (bignumAbsVal a).Normalized ∧ (bignumAbsVal a).toInt = a.magnitude := by
  rw [bignumAbsVal]
  rcases toInt_cases ha with ⟨hs, hv, hm⟩ | ⟨hs, hv, hm⟩ | ⟨hs, hv, hm⟩
  · rw [if_neg (by rw [hs]; decide)]
    exact ⟨ha, by omega⟩
  · rw [if_neg (by rw [hs]; decide)]
    exact ⟨ha, hv⟩
  · rw [if_pos (by rw [hs]; decide)]
    refine ⟨⟨ha.top_ne_zero, ?_⟩, by simp [VmBignum.toInt, VmBignum.magnitude]⟩
    exact iff_of_false one_ne_zero (mt ha.magnitude_eq_zero_iff.mpr (by omega))

include hb

theorem bignumAdd_spec :
    (bignumAdd a b).Normalized ∧ (bignumAdd a b).toInt = a.toInt + b.toInt := by
  rw [bignumAdd]
  split_ifs with hza hzb hs
  · exact ⟨hb, by rw [(bignumIsZero_iff ha).mp hza, zero_add]⟩
  · exact ⟨ha, by rw [(bignumIsZero_iff hb).mp hzb, add_zero]⟩
  · have h0 := sign_ne_zero_of_not_isZero ha hza
    have hpos := magnitude_pos_of_not_isZero ha hza
    obtain ⟨h1, h2⟩ := magAdd_withSign (b := b) h0 (by omega : a.magnitude + b.magnitude ≠ 0)
    refine ⟨h1, h2.trans ?_⟩
    rw [VmBignum.toInt, VmBignum.toInt, ← hs, mul_add]
  · have hsa := sign_ne_zero_of_not_isZero ha hza
    have hsb := sign_ne_zero_of_not_isZero hb hzb
    have hneg : b.sign = -a.sign := sign_eq_neg_of_ne hsa hsb hs
    have hval : a.toInt + b.toInt = (a.sign : ℤ) * (a.magnitude - b.magnitude) := by
      rw [VmBignum.toInt, VmBignum.toInt, hneg, SignType.coe_neg]
      ring
    rcases bignumCompareMagnitude_cases ha hb with ⟨hc, he⟩ | ⟨hc, hlt, hle⟩ | ⟨hc, hlt, hle⟩
    · simp only [hc, if_true]
      refine ⟨(bignumFromInt64_spec 0).1, ?_⟩
      rw [(bignumFromInt64_spec 0).2, hval, he, sub_self, mul_zero]
      rfl
    · simp only [hc]
      rw [if_neg (by decide), if_pos (by decide), hval]
      exact magSub_withSign hsa hle hlt
    · simp only [hc]
      rw [if_neg (by decide), if_neg (by decide), hval]
      obtain ⟨h1, h2⟩ := magSub_withSign hsb hle hlt
      refine ⟨h1, h2.trans ?_⟩
      rw [hneg, SignType.coe_neg]
      ring

theorem bignumSub_spec :
    (bignumSub a b).Normalized ∧ (bignumSub a b).toInt = a.toInt - b.toInt := by
  rw [bignumSub]
  split_ifs with hzb hza hs
  · exact ⟨ha, by rw [(bignumIsZero_iff hb).mp hzb, sub_zero]⟩
  · exact ⟨(bignumNeg_spec hb).1, by rw [(bignumIsZero_iff ha).mp hza, zero_sub,
      (bignumNeg_spec hb).2]⟩
  · have hsa := sign_ne_zero_of_not_isZero ha hza
    have hsb := sign_ne_zero_of_not_isZero hb hzb
    have hpos := magnitude_pos_of_not_isZero ha hza
    obtain ⟨h1, h2⟩ := magAdd_withSign (b := b) hsa (by omega : a.magnitude + b.magnitude ≠ 0)
    refine ⟨h1, h2.trans ?_⟩
    rw [VmBignum.toInt, VmBignum.toInt, sign_eq_neg_of_ne hsa hsb hs, SignType.coe_neg]
    ring
  · have hsa := sign_ne_zero_of_not_isZero ha hza
    have hval : a.toInt - b.toInt = (a.sign : ℤ) * (a.magnitude - b.magnitude) := by
      rw [VmBignum.toInt, VmBignum.toInt, ← not_not.mp hs, mul_sub]
    rcases bignumCompareMagnitude_cases ha hb with ⟨hc, he⟩ | ⟨hc, hlt, hle⟩ | ⟨hc, hlt, hle⟩
    · simp only [hc, if_true]
      refine ⟨(bignumFromInt64_spec 0).1, ?_⟩
      rw [(bignumFromInt64_spec 0).2, hval, he, sub_self, mul_zero]
      rfl
    · simp only [hc]
      rw [if_neg (by decide), if_pos (by decide), hval]
      exact magSub_withSign hsa hle hlt
    · simp only [hc]
      rw [if_neg (by decide), if_neg (by decide), hval]
      obtain ⟨h1, h2⟩ := magSub_withSign (neg_ne_zero_of_ne_zero hsa) hle hlt
      refine ⟨h1, h2.trans ?_⟩
      rw [SignType.coe_neg]
      ring

end

/-! ### Multiplication -/

def bignumMul (a b : VmBignum) : VmBignum :=
  if bignumIsZero a ∨ bignumIsZero b then bignumFromInt64 0
  else
    let result := mulLoop (fun result y i => addmulAt result b.limbs y i) a.limbs 0
      (List.replicate (a.nLimbs + b.nLimbs) 0)
    bignumNormalize (if a.sign = b.sign then 1 else -1) result

theorem value_mulLoop_addmulAt (a b : VmBignum) :
    value (mulLoop (fun result y i => addmulAt result b.limbs y i) a.limbs 0
      (List.replicate (a.nLimbs + b.nLimbs) 0)) = a.magnitude * b.magnitude := by
  rw [mulLoop_spec (a := b.limbs) ?_ (List.length_replicate ..) ?_ ?_]
  · rw [show List.replicate (a.nLimbs + b.nLimbs) (0 : BitVec 32)
      = List.replicate (a.nLimbs + b.nLimbs) 0#32 from rfl, value_replicate_zero]
    simp [VmBignum.magnitude, Nat.mul_comm]
  · intro result y i hlen hi hclear
    obtain ⟨h1, h2, h3⟩ := addmulAt_spec y (by omega) hclear
    exact ⟨h1.trans hlen, h2, h3⟩
  · rw [VmBignum.nLimbs, VmBignum.nLimbs, Nat.zero_add]
  · rw [List.drop_replicate]
    exact value_replicate_zero _

theorem coe_sign_mul {t : SignType} (hs : s ≠ 0) (ht : t ≠ 0) :
    ((if s = t then 1 else -1 : SignType) : ℤ) = (s : ℤ) * t := by
  revert hs ht
  cases s <;> cases t <;> decide

theorem bignumMul_spec {a b : VmBignum} (ha : a.Normalized) (hb : b.Normalized) :
    (bignumMul a b).Normalized ∧ (bignumMul a b).toInt = a.toInt * b.toInt := by
  rw [bignumMul]
  split
  next h =>
      have hzero : a.toInt * b.toInt = 0 := by
        rwa [bignumIsZero_iff ha, bignumIsZero_iff hb, ← mul_eq_zero] at h
      rw [hzero]
      exact bignumFromInt64_spec 0
  next h =>
      rw [not_or] at h
      have hsa := sign_ne_zero_of_not_isZero ha h.1
      have hsb := sign_ne_zero_of_not_isZero hb h.2
      obtain ⟨h1, -, h3⟩ := bignumNormalize_spec (s := if a.sign = b.sign then 1 else -1)
        (by split <;> decide) (mulLoop (fun result y i => addmulAt result b.limbs y i) a.limbs 0
          (List.replicate (a.nLimbs + b.nLimbs) 0))
      refine ⟨h1, h3.trans ?_⟩
      rw [value_mulLoop_addmulAt, coe_sign_mul hsa hsb, VmBignum.toInt, VmBignum.toInt]
      push_cast
      ring

/-! ### Conversion to `int64_t` -/

/-- `mag`, of at most two limbs. -/
def uint64OfLimbs : List (BitVec 32) → ℕ
  | [] => 0
  | [x] => x.toNat
  | x :: y :: _ => x.toNat ||| y.toNat * 2 ^ 32

/-- `bignum_to_int64`, with its overflow flag. -/
def bignumToInt64 (b : VmBignum) : Int64 × Bool :=
  if bignumIsZero b then (0, false)
  else if b.nLimbs > 2 then (if b.sign > 0 then Int64.maxValue else Int64.minValue, true)
  else
    let mag := uint64OfLimbs b.limbs
    if b.sign > 0 then
      if mag > 2 ^ 63 - 1 then (Int64.maxValue, true) else (Int64.ofInt mag, false)
    else if mag > 2 ^ 63 then (Int64.minValue, true)
    else if mag = 2 ^ 63 then (Int64.minValue, false)
    else (Int64.ofInt (-mag), false)

theorem uint64OfLimbs_eq {b : VmBignum} (h : b.nLimbs ≤ 2) :
    uint64OfLimbs b.limbs = b.magnitude := by
  rw [VmBignum.nLimbs] at h
  rw [VmBignum.magnitude]
  rcases hl : b.limbs with _ | ⟨x, _ | ⟨y, _ | ⟨z, l⟩⟩⟩
  · rfl
  · simp [uint64OfLimbs]
  · have := x.isLt
    rw [uint64OfLimbs, Nat.or_comm, or_eq_add this, value_cons, value_cons, value_nil]
    ring
  · rw [hl] at h
    simp at h

theorem le_magnitude_of_two_lt_nLimbs {b : VmBignum} (hb : b.Normalized) (h : 2 < b.nLimbs) :
    2 ^ 64 ≤ b.magnitude := by
  have hne : b.limbs ≠ [] := List.ne_nil_of_length_pos (by rw [VmBignum.nLimbs] at h; omega)
  calc 2 ^ 64 = (2 ^ 32) ^ 2 := by norm_num
    _ ≤ (2 ^ 32) ^ (b.limbs.length - 1) :=
        Nat.pow_le_pow_right (by decide) (by rw [VmBignum.nLimbs] at h; omega)
    _ ≤ b.magnitude := pow_le_value_of_getLast_ne_zero hne (hb.top_ne_zero hne)

theorem bignumToInt64_spec {b : VmBignum} (hb : b.Normalized) :
    ((bignumToInt64 b).2 = false ↔ -2 ^ 63 ≤ b.toInt ∧ b.toInt < 2 ^ 63) ∧
      ((bignumToInt64 b).2 = false → (bignumToInt64 b).1.toInt = b.toInt) := by
  rw [bignumToInt64]
  split
  next hz =>
      rw [(bignumIsZero_iff hb).mp hz]
      decide
  next hz =>
      have hs := sign_ne_zero_of_not_isZero hb hz
      split
      next h2 =>
          have hmag := le_magnitude_of_two_lt_nLimbs hb h2
          have habs := hb.natAbs_toInt
          simp only [Bool.true_eq_false, false_iff, false_imp_iff, and_true]
          omega
      next h2 =>
          simp only [uint64OfLimbs_eq (not_lt.mp h2)]
          rcases toInt_cases hb with ⟨ht, -, -⟩ | ⟨ht, hv, hm⟩ | ⟨ht, hv, hm⟩
          · exact absurd ht hs
          · rw [ht, if_pos (by decide)]
            split
            next hbig => exact ⟨by simp; omega, by simp⟩
            next hbig =>
                exact ⟨by simp; omega, fun _ => by
                  rw [Int64.toInt_ofInt_of_le (by omega) (by omega), hv]⟩
          · rw [ht, if_neg (by decide)]
            split_ifs with hbig hmin
            · exact ⟨by simp; omega, by simp⟩
            · exact ⟨by simp; omega, fun _ => by rw [hv, hmin]; decide⟩
            · exact ⟨by simp; omega, fun _ => by
                rw [Int64.toInt_ofInt_of_le (by omega) (by omega), hv]⟩

end Eshkol.Vm
