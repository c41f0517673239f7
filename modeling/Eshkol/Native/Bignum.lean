import Eshkol.Radix.Arith

/-!
# Native Bignums

The arbitrary-precision integers of the native runtime (`lib/core/bignum.cpp`): a sign
and a little-endian array of 64-bit limbs, at least one. The integer denoted is `toInt`;
`Normalized` is what `bignum_normalize` establishes — no zero limb at the top of a longer
number, and a non-negative zero.

Pointers are values here, so the guards against null arguments have nothing to guard, and
allocation succeeds: exhausting memory, or the four-gigabyte limit of an object, is
outside the model. A limb count is a natural number; below that object limit every
`uint32_t` and `int32_t` limb counter of the source is far from its range.
-/

namespace Eshkol

open Radix

/-- A sign (`true` is negative) and the limbs, least significant first. -/
structure Bignum where
  sign : Bool
  limbs : List (BitVec 64)
  limbs_ne_nil : limbs ≠ []
  deriving DecidableEq

namespace Bignum

/-- The number of limbs. -/
def numLimbs (a : Bignum) : ℕ := a.limbs.length

/-- The absolute value. -/
def magnitude (a : Bignum) : ℕ := value a.limbs

/-- The integer denoted. -/
def toInt (a : Bignum) : ℤ := if a.sign then -(a.magnitude : ℤ) else a.magnitude

/-- No zero limb on top of another limb, and zero is not negative. -/
def Normalized (a : Bignum) : Prop :=
  (1 < a.numLimbs → a.limbs.getLast a.limbs_ne_nil ≠ 0) ∧ (a.sign = true → a.magnitude ≠ 0)

instance (a : Bignum) : Decidable a.Normalized := inferInstanceAs (Decidable (_ ∧ _))

theorem numLimbs_pos (a : Bignum) : 0 < a.numLimbs := List.length_pos_iff.mpr a.limbs_ne_nil

@[simp] theorem natAbs_toInt (a : Bignum) : a.toInt.natAbs = a.magnitude := by
  unfold toInt
  split <;> simp

variable {a : Bignum}

theorem toInt_eq_zero_iff : a.toInt = 0 ↔ a.magnitude = 0 := by
  rw [← Int.natAbs_eq_zero, natAbs_toInt]

theorem toInt_of_sign_eq_false (h : a.sign = false) : a.toInt = a.magnitude := by simp [toInt, h]

theorem toInt_of_sign_eq_true (h : a.sign = true) : a.toInt = -a.magnitude := by simp [toInt, h]

theorem Normalized.sign_eq_true_iff (ha : a.Normalized) : a.sign = true ↔ a.toInt < 0 := by
  constructor
  · intro h
    have := ha.2 h
    rw [toInt_of_sign_eq_true h]
    omega
  · intro h
    by_contra hs
    rw [toInt_of_sign_eq_false (by simpa using hs)] at h
    omega

theorem Normalized.sign_eq_false_iff (ha : a.Normalized) : a.sign = false ↔ 0 ≤ a.toInt := by
  rw [← Bool.not_eq_true, ha.sign_eq_true_iff, not_lt]

theorem Normalized.le_magnitude (ha : a.Normalized) (h : 1 < a.numLimbs) :
    (2 ^ 64) ^ (a.numLimbs - 1) ≤ a.magnitude :=
  pow_le_value_of_getLast_ne_zero a.limbs_ne_nil (ha.1 h)

end Bignum

/-! ### Construction and normalization -/

/-- `bignum_alloc(arena, 1)`: the single limb zero. -/
def bignumZero : Bignum := ⟨false, [0], by simp⟩

/-- `bignum_normalize` on a fresh object: drop zero limbs at the top, keep at least one,
and make zero non-negative. -/
def bignumNormalize (sign : Bool) (limbs : List (BitVec 64)) : Bignum :=
  if h : trim limbs = [] then bignumZero else ⟨sign, trim limbs, h⟩

@[simp] theorem magnitude_bignumNormalize (s : Bool) (l : List (BitVec 64)) :
    (bignumNormalize s l).magnitude = value l := by
  unfold bignumNormalize
  split
  next h => rw [trim_eq_nil_iff.mp h]; rfl
  next h => exact value_trim l

theorem toInt_bignumNormalize (s : Bool) (l : List (BitVec 64)) :
    (bignumNormalize s l).toInt = if s then -(value l : ℤ) else value l := by
  unfold bignumNormalize
  split
  next h =>
      rw [trim_eq_nil_iff.mp h]
      simp [bignumZero, Bignum.toInt, Bignum.magnitude]
  next h => simp [Bignum.toInt, Bignum.magnitude]

theorem bignumNormalize_normalized (s : Bool) (l : List (BitVec 64)) :
    (bignumNormalize s l).Normalized := by
  unfold bignumNormalize
  split
  next h => decide
  next h =>
      refine ⟨fun _ => trim_getLast_ne_zero h, fun _ hz => h ?_⟩
      rw [trim_eq_nil_iff, ← value_trim]
      exact hz

/-- The trimming loop on its own, as the bitwise operations and the shift write it: the
sign stays. -/
def bignumTrim (sign : Bool) (limbs : List (BitVec 64)) : Bignum :=
  if h : trim limbs = [] then ⟨sign, [0], by simp⟩ else ⟨sign, trim limbs, h⟩

@[simp] theorem sign_bignumTrim (s : Bool) (l : List (BitVec 64)) : (bignumTrim s l).sign = s := by
  unfold bignumTrim
  split <;> rfl

@[simp] theorem magnitude_bignumTrim (s : Bool) (l : List (BitVec 64)) :
    (bignumTrim s l).magnitude = value l := by
  unfold bignumTrim
  split
  next h => rw [trim_eq_nil_iff.mp h]; rfl
  next h => exact value_trim l

theorem numLimbs_bignumTrim_le (s : Bool) {l : List (BitVec 64)} (hl : l ≠ []) :
    (bignumTrim s l).numLimbs ≤ l.length := by
  unfold bignumTrim
  split
  next h => exact List.length_pos_iff.mpr hl
  next h => exact length_trim_le l

theorem bignumTrim_normalized {s : Bool} {l : List (BitVec 64)} (hs : s = true → value l ≠ 0) :
    (bignumTrim s l).Normalized := by
  refine ⟨?_, by simpa using hs⟩
  unfold bignumTrim
  split
  next h => intro hlen; simp [Bignum.numLimbs] at hlen
  next h => exact fun _ => trim_getLast_ne_zero h

variable {a b : Bignum}

theorem Bignum.Normalized.withSign {a : Bignum} (ha : a.Normalized) {s : Bool}
    (hs : s = true → a.magnitude ≠ 0) : ({ a with sign := s } : Bignum).Normalized :=
  ⟨ha.1, hs⟩

def eshkolBignumFromInt64 (v : Int64) : Bignum :=
  if v.toInt < 0 then
    ⟨true, [if v = Int64.minValue then BitVec.ofNat 64 (2 ^ 63)
      else BitVec.ofInt 64 (-v.toInt)], by simp⟩
  else ⟨false, [BitVec.ofInt 64 v.toInt], by simp⟩

@[simp] theorem toInt_eshkolBignumFromInt64 (v : Int64) :
    (eshkolBignumFromInt64 v).toInt = v.toInt := by
  have hlo := v.le_toInt
  have hhi := v.toInt_lt
  unfold eshkolBignumFromInt64
  split
  next h =>
      split
      next hmin =>
          subst hmin
          decide
      next hmin =>
          simp only [Bignum.toInt, Bignum.magnitude, value_cons, value_nil,
            BitVec.toNat_ofInt, if_true]
          omega
  next h =>
      simp only [Bignum.toInt, Bignum.magnitude, value_cons, value_nil, BitVec.toNat_ofInt,
        Bool.false_eq_true, if_false]
      omega

theorem eshkolBignumFromInt64_normalized (v : Int64) : (eshkolBignumFromInt64 v).Normalized := by
  have hval := toInt_eshkolBignumFromInt64 v
  constructor
  · intro h
    unfold eshkolBignumFromInt64 at h
    split at h <;> simp [Bignum.numLimbs] at h
  · intro hs hz
    rw [← Bignum.toInt_eq_zero_iff, hval] at hz
    unfold eshkolBignumFromInt64 at hs
    rw [if_neg (by omega)] at hs
    simp at hs

/-! ### Predicates -/

def eshkolBignumIsZero (a : Bignum) : Bool := a.numLimbs = 1 ∧ a.limbs.head a.limbs_ne_nil = 0

theorem eshkolBignumIsZero_iff (ha : a.Normalized) : eshkolBignumIsZero a = true ↔ a.toInt = 0 := by
  rw [Bignum.toInt_eq_zero_iff, eshkolBignumIsZero, decide_eq_true_eq]
  constructor
  · rintro ⟨hlen, hhead⟩
    obtain ⟨x, hx⟩ := List.length_eq_one_iff.mp hlen
    simp only [hx, List.head_cons] at hhead
    rw [Bignum.magnitude, hx, hhead]
    simp
  · intro hz
    have hall := value_eq_zero_iff.mp hz
    refine ⟨?_, hall _ (List.head_mem _)⟩
    by_contra hne
    have hpos := a.numLimbs_pos
    exact ha.1 (by omega) (hall _ (List.getLast_mem _))

def eshkolBignumIsNegative (a : Bignum) : Bool := a.sign && !eshkolBignumIsZero a

theorem eshkolBignumIsNegative_iff (ha : a.Normalized) :
    eshkolBignumIsNegative a = true ↔ a.toInt < 0 := by
  rw [eshkolBignumIsNegative, Bool.and_eq_true, Bool.not_eq_true', ← Bool.not_eq_true,
    eshkolBignumIsZero_iff ha, ha.sign_eq_true_iff]
  omega

/-- `eshkol_bignum_fits_int64`: the `int64_t` written to `out` when the test succeeds. -/
def eshkolBignumFitsInt64 (a : Bignum) : Option Int64 :=
  if 1 < a.numLimbs then none
  else
    let val := (a.limbs.head a.limbs_ne_nil).toNat
    if a.sign = false then
      if val ≤ 2 ^ 63 - 1 then some (Int64.ofInt val) else none
    else if val = 2 ^ 63 then some Int64.minValue
    else if val ≤ 2 ^ 63 - 1 then some (Int64.ofInt (-(val : ℤ)))
    else none

theorem Bignum.magnitude_of_numLimbs_le_one (h : ¬ 1 < a.numLimbs) :
    a.magnitude = (a.limbs.head a.limbs_ne_nil).toNat := by
  have hpos := a.numLimbs_pos
  obtain ⟨x, hx⟩ := List.length_eq_one_iff.mp (show a.limbs.length = 1 by
    unfold Bignum.numLimbs at h hpos
    omega)
  simp [Bignum.magnitude, hx]

/-- **The demotion test is exact**: it succeeds with the `int64_t` of the same value, and
fails exactly on values outside the range. -/
theorem eshkolBignumFitsInt64_eq_some_iff (ha : a.Normalized) {v : Int64} :
    eshkolBignumFitsInt64 a = some v ↔ v.toInt = a.toInt := by
  have hlo := v.le_toInt
  have hhi := v.toInt_lt
  by_cases hlimbs : 1 < a.numLimbs
  · have hbig : 2 ^ 64 ≤ a.magnitude := by
      calc 2 ^ 64 = (2 ^ 64) ^ 1 := by ring
        _ ≤ (2 ^ 64) ^ (a.numLimbs - 1) := Nat.pow_le_pow_right (by positivity) (by omega)
        _ ≤ a.magnitude := ha.le_magnitude hlimbs
    have habs := a.natAbs_toInt
    rw [eshkolBignumFitsInt64, if_pos hlimbs]
    constructor
    · simp
    · intro h
      omega
  · have hmag := Bignum.magnitude_of_numLimbs_le_one hlimbs
    rw [eshkolBignumFitsInt64, if_neg hlimbs, ← hmag]
    have hof : ∀ x : ℤ, -2 ^ 63 ≤ x → x < 2 ^ 63 →
        (some (Int64.ofInt x) = some v ↔ v.toInt = x) := by
      intro x h1 h2
      rw [Option.some.injEq, ← Int64.toInt_inj, Int64.toInt_ofInt_of_le h1 h2, eq_comm]
    cases hs : a.sign with
    | false =>
      rw [Bignum.toInt_of_sign_eq_false hs, if_pos rfl]
      split
      next h => exact hof _ (by omega) (by omega)
      next h => simp only [reduceCtorEq, false_iff]; omega
    | true =>
      rw [Bignum.toInt_of_sign_eq_true hs, if_neg (by simp)]
      split
      next h =>
          rw [Option.some.injEq, ← Int64.toInt_inj, Int64.toInt_minValue, h]
          omega
      next h =>
          split
          next h' => exact hof _ (by omega) (by omega)
          next h' => simp only [reduceCtorEq, false_iff]; omega

theorem eshkolBignumFitsInt64_eq_none_iff (ha : a.Normalized) :
    eshkolBignumFitsInt64 a = none ↔ a.toInt < -2 ^ 63 ∨ 2 ^ 63 ≤ a.toInt := by
  constructor
  · intro h
    by_contra hcon
    have hv : (Int64.ofInt a.toInt).toInt = a.toInt := Int64.toInt_ofInt_of_le (by omega) (by omega)
    rw [(eshkolBignumFitsInt64_eq_some_iff ha).mpr hv] at h
    simp at h
  · intro h
    cases hf : eshkolBignumFitsInt64 a with
    | none => rfl
    | some v =>
      have hv := (eshkolBignumFitsInt64_eq_some_iff ha).mp hf
      have hlo := v.le_toInt
      have hhi := v.toInt_lt
      omega

/-! ### Comparison -/

/-- `bignum_compare_abs`: by limb count, then from the top limb down. -/
def bignumCompareAbs (a b : Bignum) : ℤ :=
  if a.numLimbs ≠ b.numLimbs then if a.numLimbs > b.numLimbs then 1 else -1
  else compareWords a.limbs b.limbs

theorem bignumCompareAbs_eq (ha : a.Normalized) (hb : b.Normalized) :
    bignumCompareAbs a b = Int.sign ((a.magnitude : ℤ) - b.magnitude) := by
  have hapos := a.numLimbs_pos
  have hbpos := b.numLimbs_pos
  unfold bignumCompareAbs
  split
  next h =>
      split
      next hgt =>
          have := lt_of_length_lt a.limbs_ne_nil (ha.1 (by omega)) hgt
          rw [Int.sign_eq_one_of_pos]
          unfold Bignum.magnitude
          omega
      next hgt =>
          have hlt : a.numLimbs < b.numLimbs := by omega
          have := lt_of_length_lt b.limbs_ne_nil (hb.1 (by omega)) hlt
          rw [Int.sign_eq_neg_one_of_neg]
          unfold Bignum.magnitude
          omega
  next h => exact compareWords_eq (not_not.mp h)

def eshkolBignumCompare (a b : Bignum) : ℤ :=
  if a.sign ≠ b.sign then
    if eshkolBignumIsZero a && eshkolBignumIsZero b then 0
    else if a.sign then -1 else 1
  else
    let cmp := bignumCompareAbs a b
    if a.sign then -cmp else cmp

theorem eshkolBignumCompare_eq (ha : a.Normalized) (hb : b.Normalized) :
    eshkolBignumCompare a b = Int.sign (a.toInt - b.toInt) := by
  have hsa := ha.sign_eq_true_iff
  have hsb := hb.sign_eq_true_iff
  unfold eshkolBignumCompare
  split
  next h =>
      have hzero : ¬ (eshkolBignumIsZero a && eshkolBignumIsZero b) = true := by
        rw [Bool.and_eq_true, eshkolBignumIsZero_iff ha, eshkolBignumIsZero_iff hb]
        rintro ⟨h1, h2⟩
        apply h
        rw [Bool.eq_iff_iff, hsa, hsb]
        omega
      rw [if_neg hzero]
      cases hsign : a.sign with
      | true =>
        have hb' : ¬ b.sign = true := fun hc => h (by rw [hsign, hc])
        rw [hsign] at hsa
        rw [hsb] at hb'
        rw [if_pos rfl, Int.sign_eq_neg_one_of_neg]
        have := hsa.mp rfl
        omega
      | false =>
        have hb' : b.sign = true := by
          cases hsb' : b.sign with
          | true => rfl
          | false => exact absurd (by rw [hsign, hsb']) h
        rw [hsign] at hsa
        rw [if_neg (by simp), Int.sign_eq_one_of_pos]
        have := hsb.mp hb'
        have := hsa.not.mp (by simp)
        omega
  next h =>
      rw [not_not] at h
      simp only [bignumCompareAbs_eq ha hb]
      cases hsign : a.sign with
      | true =>
        rw [hsign] at h
        rw [if_pos rfl, Bignum.toInt_of_sign_eq_true hsign,
          Bignum.toInt_of_sign_eq_true h.symm, ← Int.sign_neg]
        congr 1
        ring
      | false =>
        rw [hsign] at h
        rw [if_neg (by simp), Bignum.toInt_of_sign_eq_false hsign,
          Bignum.toInt_of_sign_eq_false h.symm]

/-! ### Addition and subtraction of magnitudes -/

def bignumAddAbs (a b : Bignum) : Bignum :=
  let maxLimbs := max a.numLimbs b.numLimbs
  let lr := ripple addStep ((extend maxLimbs a.limbs).zip (extend maxLimbs b.limbs)) 0
  bignumNormalize false (lr.1 ++ [BitVec.ofNat 64 lr.2])

@[simp] theorem magnitude_bignumAddAbs (a b : Bignum) :
    (bignumAddAbs a b).magnitude = a.magnitude + b.magnitude := by
  have hla : a.limbs.length ≤ max a.numLimbs b.numLimbs := Nat.le_max_left _ _
  have hlb : b.limbs.length ≤ max a.numLimbs b.numLimbs := Nat.le_max_right _ _
  obtain ⟨hcarry, hval⟩ := value_ripple_addStep (by decide)
    (extend (max a.numLimbs b.numLimbs) a.limbs) (extend (max a.numLimbs b.numLimbs) b.limbs)
    (by simp)
  rw [value_extend hla, value_extend hlb, length_extend] at hval
  rw [bignumAddAbs, magnitude_bignumNormalize, value_append, value_cons, BitVec.toNat_ofNat,
    Nat.mod_eq_of_lt (by omega)]
  simpa [Bignum.magnitude] using hval

/-- One limb of `bignum_sub_abs`: wrapping subtraction, and the borrow test
`av < bv + borrow || (borrow && bv == UINT64_MAX)`. -/
def subStep (borrow : BitVec 64) (x : BitVec 64 × BitVec 64) : BitVec 64 × BitVec 64 :=
  (x.1 - x.2 - borrow,
    if x.1 < x.2 + borrow ∨ (borrow ≠ 0 ∧ x.2 = BitVec.allOnes 64) then 1 else 0)

theorem subStep_ripple (l₁ l₂ : List (BitVec 64)) (hlen : l₁.length = l₂.length) :
    (value (ripple subStep (l₁.zip l₂) 0).1 : ℤ)
        - (2 ^ 64) ^ l₁.length * (ripple subStep (l₁.zip l₂) 0).2.toNat
      = value l₁ - value l₂ := by
  have hspec := ripple_spec subStep (l₁.zip l₂)
    (fun x => 1 * (x.1.toNat : ℤ) + (-1) * (x.2.toNat : ℤ)) (fun s => -(s.toNat : ℤ))
    (fun s => s.toNat ≤ 1)
    (by
      intro s x _ hs
      have h1 := x.1.isLt
      have h2 := x.2.isLt
      have hones : x.2 = BitVec.allOnes 64 ↔ x.2.toNat = 2 ^ 64 - 1 := by
        rw [← BitVec.toNat_inj, BitVec.toNat_allOnes]
      have hzero : s ≠ 0 ↔ s.toNat ≠ 0 := by
        rw [ne_eq, ← BitVec.toNat_inj]
        rfl
      have hlt : x.1 < x.2 + s ↔ x.1.toNat < (x.2.toNat + s.toNat) % 2 ^ 64 := by
        rw [BitVec.lt_def, BitVec.toNat_add]
      simp only [subStep, hones, hzero, hlt, BitVec.toNat_sub]
      split
      next h =>
          rw [show (1 : BitVec 64).toNat = 1 from rfl]
          exact ⟨le_refl _, by omega⟩
      next h =>
          rw [show (0 : BitVec 64).toNat = 0 from rfl]
          exact ⟨by omega, by omega⟩)
    (s := 0) (by simp)
  rw [weigh_zip 1 (-1) hlen, List.length_zip, ← hlen, Nat.min_self] at hspec
  have h := hspec.2
  simp only [BitVec.ofNat_eq_ofNat, BitVec.toNat_ofNat, Nat.zero_mod, Nat.cast_zero, neg_zero,
    add_zero] at h ⊢
  linarith

/-- `bignum_sub_abs`, for `|a| >= |b|`. -/
def bignumSubAbs (a b : Bignum) : Bignum :=
  bignumNormalize false (ripple subStep (a.limbs.zip (extend a.numLimbs b.limbs)) 0).1

theorem magnitude_bignumSubAbs (ha : b.numLimbs ≤ a.numLimbs) (hle : b.magnitude ≤ a.magnitude) :
    (bignumSubAbs a b).magnitude = a.magnitude - b.magnitude := by
  have h := subStep_ripple a.limbs (extend a.numLimbs b.limbs) (by simp [Bignum.numLimbs])
  rw [value_extend ha] at h
  rw [bignumSubAbs, magnitude_bignumNormalize]
  exact eq_sub_of_borrow (by simp [Bignum.numLimbs]) (Int.natCast_nonneg _) h hle

theorem Bignum.Normalized.numLimbs_le (hb : b.Normalized) (hle : b.magnitude ≤ a.magnitude) :
    b.numLimbs ≤ a.numLimbs := by
  by_contra hcon
  have hapos := a.numLimbs_pos
  have := lt_of_length_lt b.limbs_ne_nil (hb.1 (by omega)) (not_le.mp hcon)
  unfold Bignum.magnitude at hle
  omega

theorem bignumAddAbs_normalized (a b : Bignum) : (bignumAddAbs a b).Normalized :=
  bignumNormalize_normalized _ _

theorem bignumSubAbs_normalized (a b : Bignum) : (bignumSubAbs a b).Normalized :=
  bignumNormalize_normalized _ _

/-! ### Signed addition and subtraction -/

def eshkolBignumAdd (a b : Bignum) : Bignum :=
  if a.sign = b.sign then { bignumAddAbs a b with sign := a.sign }
  else
    let cmp := bignumCompareAbs a b
    if cmp = 0 then bignumZero
    else if cmp > 0 then { bignumSubAbs a b with sign := a.sign }
    else { bignumSubAbs b a with sign := b.sign }

def eshkolBignumSub (a b : Bignum) : Bignum :=
  if a.sign ≠ b.sign then { bignumAddAbs a b with sign := a.sign }
  else
    let cmp := bignumCompareAbs a b
    if cmp = 0 then bignumZero
    else if cmp > 0 then { bignumSubAbs a b with sign := a.sign }
    else { bignumSubAbs b a with sign := !a.sign }

theorem toInt_withSign (a : Bignum) (s : Bool) :
    ({ a with sign := s } : Bignum).toInt = if s then -(a.magnitude : ℤ) else a.magnitude :=
  rfl

theorem bignumCompareAbs_cases (ha : a.Normalized) (hb : b.Normalized) :
    (bignumCompareAbs a b = 0 ∧ a.magnitude = b.magnitude) ∨
    (bignumCompareAbs a b = 1 ∧ b.magnitude < a.magnitude ∧
      (bignumSubAbs a b).magnitude = a.magnitude - b.magnitude) ∨
    (bignumCompareAbs a b = -1 ∧ a.magnitude < b.magnitude ∧
      (bignumSubAbs b a).magnitude = b.magnitude - a.magnitude) := by
  rw [bignumCompareAbs_eq ha hb]
  rcases lt_trichotomy a.magnitude b.magnitude with h | h | h
  · exact Or.inr (Or.inr ⟨Int.sign_eq_neg_one_of_neg (by omega), h,
      magnitude_bignumSubAbs (ha.numLimbs_le h.le) h.le⟩)
  · exact Or.inl ⟨by rw [h, sub_self, Int.sign_zero], h⟩
  · exact Or.inr (Or.inl ⟨Int.sign_eq_one_of_pos (by omega), h,
      magnitude_bignumSubAbs (hb.numLimbs_le h.le) h.le⟩)

theorem toInt_eshkolBignumAdd (ha : a.Normalized) (hb : b.Normalized) :
    (eshkolBignumAdd a b).toInt = a.toInt + b.toInt := by
  unfold eshkolBignumAdd
  split
  next h =>
      rw [toInt_withSign, magnitude_bignumAddAbs, Bignum.toInt, Bignum.toInt, ← h]
      push_cast
      split <;> ring
  next h =>
      rw [Bignum.toInt.eq_1 a, Bignum.toInt.eq_1 b]
      rcases bignumCompareAbs_cases ha hb with ⟨hc, he⟩ | ⟨hc, hlt, hm⟩ | ⟨hc, hlt, hm⟩
      · rw [hc, he]
        revert h
        cases a.sign <;> cases b.sign <;>
          simp [bignumZero, Bignum.toInt, Bignum.magnitude]
      · rw [hc, if_neg (by decide), if_pos (by decide), toInt_withSign, hm]
        revert h
        cases a.sign <;> cases b.sign <;> simp <;> omega
      · rw [hc, if_neg (by decide), if_neg (by decide), toInt_withSign, hm]
        revert h
        cases a.sign <;> cases b.sign <;> simp <;> omega

theorem eshkolBignumAdd_normalized (ha : a.Normalized) (hb : b.Normalized) :
    (eshkolBignumAdd a b).Normalized := by
  unfold eshkolBignumAdd
  split
  next h =>
      refine (bignumAddAbs_normalized a b).withSign fun hs => ?_
      have := ha.2 hs
      rw [magnitude_bignumAddAbs]
      omega
  next h =>
      rcases bignumCompareAbs_cases ha hb with ⟨hc, he⟩ | ⟨hc, hlt, hm⟩ | ⟨hc, hlt, hm⟩
      · rw [hc, if_pos rfl]
        decide
      · rw [hc, if_neg (by decide), if_pos (by decide)]
        exact (bignumSubAbs_normalized a b).withSign fun _ => by omega
      · rw [hc, if_neg (by decide), if_neg (by decide)]
        exact (bignumSubAbs_normalized b a).withSign fun _ => by omega

theorem toInt_eshkolBignumSub (ha : a.Normalized) (hb : b.Normalized) :
    (eshkolBignumSub a b).toInt = a.toInt - b.toInt := by
  unfold eshkolBignumSub
  split
  next h =>
      rw [toInt_withSign, magnitude_bignumAddAbs, Bignum.toInt.eq_1 a, Bignum.toInt.eq_1 b]
      revert h
      push_cast
      cases a.sign <;> cases b.sign <;> simp
      omega
  next h =>
      rw [not_not] at h
      rw [Bignum.toInt.eq_1 a, Bignum.toInt.eq_1 b, ← h]
      rcases bignumCompareAbs_cases ha hb with ⟨hc, he⟩ | ⟨hc, hlt, hm⟩ | ⟨hc, hlt, hm⟩
      · rw [hc, he]
        cases a.sign <;> simp [bignumZero, Bignum.toInt, Bignum.magnitude]
      · rw [hc, if_neg (by decide), if_pos (by decide), toInt_withSign, hm]
        cases a.sign <;> simp <;> omega
      · rw [hc, if_neg (by decide), if_neg (by decide), toInt_withSign, hm]
        cases a.sign <;> simp <;> omega

theorem eshkolBignumSub_normalized (ha : a.Normalized) (hb : b.Normalized) :
    (eshkolBignumSub a b).Normalized := by
  unfold eshkolBignumSub
  split
  next h =>
      refine (bignumAddAbs_normalized a b).withSign fun hs => ?_
      have := ha.2 hs
      rw [magnitude_bignumAddAbs]
      omega
  next h =>
      rcases bignumCompareAbs_cases ha hb with ⟨hc, he⟩ | ⟨hc, hlt, hm⟩ | ⟨hc, hlt, hm⟩
      · rw [hc, if_pos rfl]
        decide
      · rw [hc, if_neg (by decide), if_pos (by decide)]
        exact (bignumSubAbs_normalized a b).withSign fun _ => by omega
      · rw [hc, if_neg (by decide), if_neg (by decide)]
        exact (bignumSubAbs_normalized b a).withSign fun _ => by omega

def eshkolBignumNeg (a : Bignum) : Bignum :=
  { a with sign := if eshkolBignumIsZero a then false else !a.sign }

theorem toInt_eshkolBignumNeg (ha : a.Normalized) : (eshkolBignumNeg a).toInt = -a.toInt := by
  rw [eshkolBignumNeg, toInt_withSign]
  by_cases hz : a.toInt = 0
  · rw [(eshkolBignumIsZero_iff ha).mpr hz, if_pos rfl, hz, Bignum.toInt_eq_zero_iff.mp hz]
    simp
  · rw [if_neg (mt (eshkolBignumIsZero_iff ha).mp hz), Bignum.toInt]
    cases a.sign <;> simp

theorem eshkolBignumNeg_normalized (ha : a.Normalized) : (eshkolBignumNeg a).Normalized := by
  refine ha.withSign fun hs => ?_
  by_cases hz : a.toInt = 0
  · rw [(eshkolBignumIsZero_iff ha).mpr hz] at hs
    simp at hs
  · rwa [ne_eq, ← Bignum.toInt_eq_zero_iff]

end Eshkol
