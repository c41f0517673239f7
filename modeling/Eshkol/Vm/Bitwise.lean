import Eshkol.Radix.TwosComplement
import Eshkol.Vm.Divide

/-!
# VM Bitwise Operations and Shifts

`bitwise-and`, `-or`, `-xor`, `-not` and the arithmetic shifts of the VM's bignums
(`lib/backend/vm_bignum.c`). Numbers are held as sign and magnitude; the operations act on
the infinite two's-complement expansion, in which `-n` is the complement of `n - 1`. Only
`and` is written out for every combination of signs. `or` and `xor` reduce to `and` and
`not` as soon as an operand is negative.

A shift count is a C `int`; a negative one turns the shift round.
-/

namespace Eshkol.Vm

open Radix Machine

/-! ### Definitions -/

def bignumBitwiseNot (a : VmBignum) : VmBignum :=
  let one := bignumFromInt64 1
  if 0 ≤ a.sign then { bignumAdd a one with sign := -1 }
  else bignumSub (bignumAbsVal a) one

/-- `mag_sub(bignum_abs_val(a), one)` of a negative operand, the limbs of `|a| - 1`. -/
def magMinusOne (a : VmBignum) : List (BitVec 32) :=
  (magSub (bignumAbsVal a) (bignumFromInt64 1)).limbs

def bignumBitwiseAnd (a b : VmBignum) : VmBignum :=
  if bignumIsZero a ∨ bignumIsZero b then bignumFromInt64 0
  else if 0 < a.sign ∧ 0 < b.sign then
    bignumNormalize 1 (wordwise (· &&& ·) (min a.nLimbs b.nLimbs) a.limbs b.limbs)
  else if 0 < a.sign ∧ b.sign < 0 then
    bignumNormalize 1 (wordwise (fun x y => x &&& ~~~y) a.nLimbs a.limbs (magMinusOne b))
  else if a.sign < 0 ∧ 0 < b.sign then
    bignumNormalize 1 (wordwise (fun x y => ~~~x &&& y) b.nLimbs (magMinusOne a) b.limbs)
  else
    -- ~(a-1) & ~(b-1) = ~((a-1)|(b-1)) = -(or_val + 1)
    let orVal := bignumNormalize 1
      (wordwise (· ||| ·) (max a.nLimbs b.nLimbs) (magMinusOne a) (magMinusOne b))
    { bignumAdd orVal (bignumFromInt64 1) with sign := -1 }

def bignumBitwiseOr (a b : VmBignum) : VmBignum :=
  if bignumIsZero a then b
  else if bignumIsZero b then a
  else if 0 < a.sign ∧ 0 < b.sign then
    bignumNormalize 1 (wordwise (· ||| ·) (max a.nLimbs b.nLimbs) a.limbs b.limbs)
  else bignumBitwiseNot (bignumBitwiseAnd (bignumBitwiseNot a) (bignumBitwiseNot b))

def bignumBitwiseXor (a b : VmBignum) : VmBignum :=
  if bignumIsZero a then b
  else if bignumIsZero b then a
  else if 0 < a.sign ∧ 0 < b.sign then
    bignumNormalize 1 (wordwise (· ^^^ ·) (max a.nLimbs b.nLimbs) a.limbs b.limbs)
  else
    bignumBitwiseAnd (bignumBitwiseOr a b) (bignumBitwiseNot (bignumBitwiseAnd a b))

/-- `bignum_shift_left` by a positive count: zero limbs below, the limbs moved up, and the
bits carried out of the top limb. -/
def shiftLeftBy (a : VmBignum) (shift : ℕ) : VmBignum :=
  let limbShift := shift / 32
  let bitShift := shift % 32
  let out := shiftedLimbs bitShift a.limbs
  bignumNormalize a.sign (List.replicate limbShift 0 ++ (out.1 ++ [out.2]))

/-- The loop of `bignum_shift_right` for a bit shift below 32: every limb takes its low bits
from the next one. -/
def shiftDown (bitShift : ℕ) : List (BitVec 32) → List (BitVec 32)
  | [] => []
  | [x] => [x >>> bitShift]
  | x :: y :: l => (x >>> bitShift ||| y <<< (32 - bitShift)) :: shiftDown bitShift (y :: l)

/-- `any_set`: whether a bit is shifted out. -/
def anySet (a : VmBignum) (limbShift bitShift : ℕ) : Bool :=
  (a.limbs.take limbShift).any (· ≠ 0) ||
    (0 < bitShift && a.limbs.getD limbShift 0 &&& (1#32 <<< bitShift - 1#32) ≠ 0)

/-- `bignum_shift_right` by a positive count. -/
def shiftRightBy (a : VmBignum) (shift : ℕ) : VmBignum :=
  let limbShift := shift / 32
  let bitShift := shift % 32
  if a.nLimbs ≤ limbShift then
    if a.sign < 0 then bignumFromInt64 (-1) else bignumFromInt64 0
  else
    let moved := a.limbs.drop limbShift
    let r := bignumNormalize a.sign (if bitShift = 0 then moved else shiftDown bitShift moved)
    if a.sign < 0 ∧ anySet a limbShift bitShift then
      { bignumAdd (bignumAbsVal r) (bignumFromInt64 1) with sign := -1 }
    else r

def bignumShiftLeft (a : VmBignum) (shift : Int32) : Exec Empty VmBignum :=
  if bignumIsZero a ∨ shift = 0 then .ok a
  else if shift < 0 then do
    let opposite ← signed 32 (-shift.toInt)
    .ok (shiftRightBy a opposite.toNat)
  else .ok (shiftLeftBy a shift.toInt.toNat)

def bignumShiftRight (a : VmBignum) (shift : Int32) : Exec Empty VmBignum :=
  if bignumIsZero a ∨ shift = 0 then .ok a
  else if shift < 0 then do
    let opposite ← signed 32 (-shift.toInt)
    .ok (shiftLeftBy a opposite.toNat)
  else .ok (shiftRightBy a shift.toInt.toNat)

/-! ### Complements -/

theorem neg_one_ne_zero : (-1 : SignType) ≠ 0 := by decide

theorem bignumFromInt64_one : (bignumFromInt64 1).Normalized ∧ (bignumFromInt64 1).toInt = 1 :=
  bignumFromInt64_spec 1

theorem addOne_withSign {x : VmBignum} (hx : x.Normalized) (h0 : 0 ≤ x.toInt) :
    ({ bignumAdd x (bignumFromInt64 1) with sign := -1 } : VmBignum).Normalized ∧
      ({ bignumAdd x (bignumFromInt64 1) with sign := -1 } : VmBignum).toInt
        = -x.toInt - 1 := by
  obtain ⟨hsum, hval⟩ := bignumAdd_spec hx bignumFromInt64_one.1
  rw [bignumFromInt64_one.2] at hval
  have hmag : ((bignumAdd x (bignumFromInt64 1)).magnitude : ℤ) = x.toInt + 1 := by
    rw [← hsum.natAbs_toInt]
    omega
  refine ⟨⟨hsum.top_ne_zero, iff_of_false neg_one_ne_zero ?_⟩, ?_⟩
  · intro hnil
    have := hsum.magnitude_eq_zero_iff.mpr hnil
    omega
  · rw [VmBignum.toInt]
    change ((-1 : SignType) : ℤ) * ((bignumAdd x (bignumFromInt64 1)).magnitude : ℤ) = _
    rw [hmag, SignType.coe_neg_one]
    ring

theorem bignumBitwiseNot_spec {a : VmBignum} (ha : a.Normalized) :
    (bignumBitwiseNot a).Normalized ∧ (bignumBitwiseNot a).toInt = -a.toInt - 1 := by
  rw [bignumBitwiseNot]
  rcases toInt_cases ha with ⟨hs, hv, hm⟩ | ⟨hs, hv, hm⟩ | ⟨hs, hv, hm⟩
  · rw [if_pos (by rw [hs])]
    exact addOne_withSign ha (by omega)
  · rw [if_pos (by rw [hs]; decide)]
    exact addOne_withSign ha (by omega)
  · rw [if_neg (by rw [hs]; decide)]
    obtain ⟨habs, habsv⟩ := bignumAbsVal_spec ha
    obtain ⟨hsub, hsubv⟩ := bignumSub_spec habs bignumFromInt64_one.1
    rw [habsv, bignumFromInt64_one.2] at hsubv
    exact ⟨hsub, by omega⟩

theorem value_magMinusOne {a : VmBignum} (ha : a.Normalized) (h : 0 < a.magnitude) :
    value (magMinusOne a) = a.magnitude - 1 := by
  obtain ⟨habs, habsv⟩ := bignumAbsVal_spec ha
  obtain ⟨hone, honev⟩ := bignumFromInt64_one
  have hmag : (bignumAbsVal a).magnitude = a.magnitude := by
    rw [← habs.natAbs_toInt, habsv, Int.natAbs_natCast]
  have hmagOne : (bignumFromInt64 1).magnitude = 1 := by
    rw [← hone.natAbs_toInt, honev]
    rfl
  have hle : (bignumFromInt64 1).magnitude ≤ (bignumAbsVal a).magnitude := by omega
  have hsub := magnitude_magSub (hone.nLimbs_le hle) hle
  rw [hmag, hmagOne] at hsub
  exact hsub

theorem length_magMinusOne_le (a : VmBignum) : (magMinusOne a).length ≤ a.nLimbs := by
  refine (length_trim_le _).trans ?_
  have hlen : (bignumAbsVal a).nLimbs = a.nLimbs := by
    rw [bignumAbsVal]
    split <;> rfl
  rw [length_ripple, List.length_zip, length_extend, hlen]
  exact Nat.min_le_right _ _

section

variable {a b : VmBignum}

theorem testBit_toInt_of_pos (hv : a.toInt = a.magnitude) (i : ℕ) :
    a.toInt.testBit i = (value a.limbs).testBit i := by
  rw [hv]
  rfl

theorem testBit_toInt_of_neg (ha : a.Normalized) (hv : a.toInt = -a.magnitude)
    (hm : 0 < a.magnitude) (i : ℕ) :
    a.toInt.testBit i = !(value (magMinusOne a)).testBit i := by
  have hneg : a.toInt = -((value (magMinusOne a) : ℕ) : ℤ) - 1 := by
    rw [value_magMinusOne ha hm]
    omega
  rw [hneg, testBit_neg_sub_one]
  rfl

theorem testBit_bignumNormalize_one (l : List (BitVec 32)) (i : ℕ) :
    (bignumNormalize 1 l).toInt.testBit i = (value l).testBit i := by
  rw [(bignumNormalize_spec (by decide) l).2.2, SignType.coe_one, one_mul]
  rfl

end

/-! ### Binary operations -/

theorem toInt_cases_of_not_isZero {a : VmBignum} (ha : a.Normalized)
    (h : ¬ bignumIsZero a = true) :
    (a.sign = 1 ∧ a.toInt = a.magnitude ∧ 0 < a.magnitude) ∨
    (a.sign = -1 ∧ a.toInt = -a.magnitude ∧ 0 < a.magnitude) := by
  rcases toInt_cases ha with ⟨-, hv, -⟩ | hpos | hneg
  · exact absurd ((bignumIsZero_iff ha).mpr hv) h
  · exact Or.inl hpos
  · exact Or.inr hneg

theorem toInt_of_sign_pos {a : VmBignum} (ha : a.Normalized) (h : 0 < a.sign) :
    a.toInt = a.magnitude := by
  rcases toInt_cases ha with ⟨hs, hv, hm⟩ | ⟨-, hv, -⟩ | ⟨hs, -, -⟩
  · omega
  · exact hv
  · rw [hs] at h
    exact absurd h (by decide)

theorem testBit_zero (i : ℕ) : Int.testBit 0 i = false := by simp [Int.testBit]

section

variable {a b : VmBignum} (ha : a.Normalized) (hb : b.Normalized)
include ha hb

/-- The bits of the result are those of both operands. -/
theorem bignumBitwiseAnd_spec :
    (bignumBitwiseAnd a b).Normalized ∧
      ∀ i, (bignumBitwiseAnd a b).toInt.testBit i = (a.toInt.testBit i && b.toInt.testBit i) := by
  have hnorm := fun l => (bignumNormalize_spec (s := 1) (by decide) l).1
  rw [bignumBitwiseAnd]
  by_cases hz : bignumIsZero a ∨ bignumIsZero b
  · rw [if_pos hz]
    refine ⟨(bignumFromInt64_spec 0).1, fun i => ?_⟩
    rw [(bignumFromInt64_spec 0).2]
    rcases hz with hz | hz
    · rw [(bignumIsZero_iff ha).mp hz]
      simp [testBit_zero]
    · rw [(bignumIsZero_iff hb).mp hz]
      simp [testBit_zero]
  rw [if_neg hz]
  rw [not_or] at hz
  rcases toInt_cases_of_not_isZero ha hz.1 with ⟨hs, hv, hm⟩ | ⟨hs, hv, hm⟩ <;>
    rcases toInt_cases_of_not_isZero hb hz.2 with ⟨hs', hv', hm'⟩ | ⟨hs', hv', hm'⟩ <;>
    simp only [hs, hs']
  · rw [if_pos (by decide)]
    refine ⟨hnorm _, fun i => ?_⟩
    rw [testBit_bignumNormalize_one, testBit_value_wordwise fun x y i _ => BitVec.getLsbD_and,
      testBit_toInt_of_pos hv, testBit_toInt_of_pos hv']
    by_cases hi : i < 32 * min a.nLimbs b.nLimbs
    · simp [hi]
    · rcases le_total a.nLimbs b.nLimbs with hle | hle
      · rw [Nat.min_eq_left hle] at hi
        simp [testBit_value_of_le (not_lt.mp hi)]
      · rw [Nat.min_eq_right hle] at hi
        simp [testBit_value_of_le (not_lt.mp hi)]
  · rw [if_neg (by decide), if_pos (by decide)]
    refine ⟨hnorm _, fun i => ?_⟩
    rw [testBit_bignumNormalize_one,
      testBit_value_wordwise (f := fun p q => p && !q) fun x y i hi => by simp [hi],
      testBit_toInt_of_pos hv, testBit_toInt_of_neg hb hv' hm']
    by_cases hi : i < 32 * a.nLimbs
    · simp [hi]
    · simp [testBit_value_of_le (not_lt.mp hi)]
  · rw [if_neg (by decide), if_neg (by decide), if_pos (by decide)]
    refine ⟨hnorm _, fun i => ?_⟩
    rw [testBit_bignumNormalize_one,
      testBit_value_wordwise (f := fun p q => !p && q) fun x y i hi => by simp [hi],
      testBit_toInt_of_neg ha hv hm, testBit_toInt_of_pos hv']
    by_cases hi : i < 32 * b.nLimbs
    · simp [hi]
    · simp [testBit_value_of_le (not_lt.mp hi)]
  · rw [if_neg (by decide), if_neg (by decide), if_neg (by decide)]
    set l := wordwise (· ||| ·) (max a.nLimbs b.nLimbs) (magMinusOne a) (magMinusOne b) with hl
    have hval := (bignumNormalize_spec (s := 1) (by decide) l).2.2
    rw [SignType.coe_one, one_mul] at hval
    obtain ⟨hres, hresv⟩ := addOne_withSign (hnorm l) (by omega)
    refine ⟨hres, fun i => ?_⟩
    rw [hresv, testBit_neg_sub_one, testBit_bignumNormalize_one, hl,
      testBit_value_wordwise fun x y i _ => BitVec.getLsbD_or,
      testBit_toInt_of_neg ha hv hm, testBit_toInt_of_neg hb hv' hm']
    by_cases hi : i < 32 * max a.nLimbs b.nLimbs
    · simp [hi]
    · have hla := length_magMinusOne_le a
      have hlb := length_magMinusOne_le b
      simp [hi, testBit_value_of_le (l := magMinusOne a) (i := i) (by omega),
        testBit_value_of_le (l := magMinusOne b) (i := i) (by omega)]

omit ha hb in
theorem testBit_wordwise_max {op : BitVec 32 → BitVec 32 → BitVec 32} {f : Bool → Bool → Bool}
    (hop : ∀ x y i, i < 32 → (op x y).getLsbD i = f (x.getLsbD i) (y.getLsbD i))
    (hf : f false false = false) (hv : a.toInt = a.magnitude) (hv' : b.toInt = b.magnitude)
    (i : ℕ) :
    (bignumNormalize 1 (wordwise op (max a.nLimbs b.nLimbs) a.limbs b.limbs)).toInt.testBit i
      = f (a.toInt.testBit i) (b.toInt.testBit i) := by
  rw [testBit_bignumNormalize_one, testBit_value_wordwise hop, testBit_toInt_of_pos hv,
    testBit_toInt_of_pos hv']
  by_cases hi : i < 32 * max a.nLimbs b.nLimbs
  · simp [hi]
  · have hia : 32 * a.limbs.length ≤ i :=
      (Nat.mul_le_mul_left 32 (Nat.le_max_left a.nLimbs b.nLimbs)).trans (not_lt.mp hi)
    have hib : 32 * b.limbs.length ≤ i :=
      (Nat.mul_le_mul_left 32 (Nat.le_max_right a.nLimbs b.nLimbs)).trans (not_lt.mp hi)
    rw [testBit_value_of_le hia, testBit_value_of_le hib, hf, Bool.and_false]

theorem bignumBitwiseOr_spec :
    (bignumBitwiseOr a b).Normalized ∧
      ∀ i, (bignumBitwiseOr a b).toInt.testBit i = (a.toInt.testBit i || b.toInt.testBit i) := by
  rw [bignumBitwiseOr]
  split_ifs with hza hzb hpos
  · exact ⟨hb, fun i => by rw [(bignumIsZero_iff ha).mp hza, testBit_zero, Bool.false_or]⟩
  · exact ⟨ha, fun i => by rw [(bignumIsZero_iff hb).mp hzb, testBit_zero, Bool.or_false]⟩
  · refine ⟨(bignumNormalize_spec (by decide) _).1, ?_⟩
    exact testBit_wordwise_max (fun x y i _ => BitVec.getLsbD_or) rfl
      (toInt_of_sign_pos ha hpos.1) (toInt_of_sign_pos hb hpos.2)
  · obtain ⟨hna, hnav⟩ := bignumBitwiseNot_spec ha
    obtain ⟨hnb, hnbv⟩ := bignumBitwiseNot_spec hb
    obtain ⟨hand, hbits⟩ := bignumBitwiseAnd_spec hna hnb
    obtain ⟨hnot, hnotv⟩ := bignumBitwiseNot_spec hand
    refine ⟨hnot, fun i => ?_⟩
    rw [hnotv, testBit_neg_sub_one, hbits, hnav, hnbv, testBit_neg_sub_one,
      testBit_neg_sub_one, Bool.not_and, Bool.not_not, Bool.not_not]

theorem bignumBitwiseXor_spec :
    (bignumBitwiseXor a b).Normalized ∧
      ∀ i, (bignumBitwiseXor a b).toInt.testBit i = (a.toInt.testBit i ^^ b.toInt.testBit i) := by
  rw [bignumBitwiseXor]
  split_ifs with hza hzb hpos
  · exact ⟨hb, fun i => by rw [(bignumIsZero_iff ha).mp hza, testBit_zero, Bool.false_xor]⟩
  · exact ⟨ha, fun i => by rw [(bignumIsZero_iff hb).mp hzb, testBit_zero, Bool.xor_false]⟩
  · refine ⟨(bignumNormalize_spec (by decide) _).1, ?_⟩
    exact testBit_wordwise_max (fun x y i _ => BitVec.getLsbD_xor) rfl
      (toInt_of_sign_pos ha hpos.1) (toInt_of_sign_pos hb hpos.2)
  · obtain ⟨hor, horv⟩ := bignumBitwiseOr_spec ha hb
    obtain ⟨hand, handv⟩ := bignumBitwiseAnd_spec ha hb
    obtain ⟨hnot, hnotv⟩ := bignumBitwiseNot_spec hand
    obtain ⟨hres, hbits⟩ := bignumBitwiseAnd_spec hor hnot
    refine ⟨hres, fun i => ?_⟩
    rw [hbits, horv, hnotv, testBit_neg_sub_one, handv]
    cases a.toInt.testBit i <;> cases b.toInt.testBit i <;> rfl

end

/-! ### Shifts -/

theorem value_shiftDown {s : ℕ} (hs : s ≤ 32) (l : List (BitVec 32)) :
    value (shiftDown s l) = value l / 2 ^ s := by
  have hw : 2 ^ 32 = 2 ^ s * 2 ^ (32 - s) := by rw [← pow_add, Nat.add_sub_cancel' hs]
  induction l with
  | nil => simp [shiftDown]
  | cons x l ih =>
    cases l with
    | nil => simp [shiftDown, Nat.shiftRight_eq_div_pow]
    | cons y l =>
      have hx : x.toNat / 2 ^ s < 2 ^ (32 - s) := Nat.div_lt_of_lt_mul (by rw [← hw]; exact x.isLt)
      -- The low bits of the rest are those of its first limb.
      have hlow : value (y :: l) % 2 ^ s = y.toNat % 2 ^ s := by
        rw [value_cons, hw, Nat.mul_assoc, Nat.add_mul_mod_self_left]
      have hlimb : (x >>> s ||| y <<< (32 - s)).toNat
          = value (y :: l) % 2 ^ s * 2 ^ (32 - s) + x.toNat / 2 ^ s := by
        rw [BitVec.toNat_or, BitVec.toNat_ushiftRight, BitVec.toNat_shiftLeft,
          Nat.shiftLeft_eq, Nat.shiftRight_eq_div_pow, hlow]
        conv_lhs => rw [hw, Nat.mul_mod_mul_right, Nat.or_comm, or_eq_add hx]
      rw [shiftDown, value_cons, ih, hlimb, value_cons x]
      have hdiv : (x.toNat + 2 ^ 32 * value (y :: l)) / 2 ^ s
          = x.toNat / 2 ^ s + 2 ^ (32 - s) * value (y :: l) := by
        rw [hw, Nat.mul_assoc, Nat.add_mul_div_left _ _ (by positivity)]
      rw [hdiv, hw]
      conv_rhs => rw [← Nat.mod_add_div (value (y :: l)) (2 ^ s)]
      ring

theorem shiftLeftBy_spec {a : VmBignum} (hs : a.sign ≠ 0) (k : ℕ) :
    (shiftLeftBy a k).Normalized ∧ (shiftLeftBy a k).toInt = a.toInt * 2 ^ k := by
  obtain ⟨hlen, hval⟩ := value_shiftedLimbs (s := k % 32) (by omega) a.limbs
  obtain ⟨hnorm, -, hv⟩ := bignumNormalize_spec hs (List.replicate (k / 32) 0
    ++ ((shiftedLimbs (k % 32) a.limbs).1 ++ [(shiftedLimbs (k % 32) a.limbs).2]))
  refine ⟨hnorm, hv.trans ?_⟩
  have hpow : 2 ^ k = (2 ^ 32) ^ (k / 32) * 2 ^ (k % 32) := by
    rw [← pow_mul, ← pow_add, Nat.div_add_mod]
  have hmag : value (List.replicate (k / 32) 0
      ++ ((shiftedLimbs (k % 32) a.limbs).1 ++ [(shiftedLimbs (k % 32) a.limbs).2]))
      = a.magnitude * 2 ^ k := by
    have hzeros : value (List.replicate (k / 32) (0 : BitVec 32)) = 0 := value_replicate_zero _
    rw [value_append, value_append, List.length_replicate, hzeros, Nat.zero_add, hlen,
      value_cons, value_nil, Nat.mul_zero, Nat.add_zero, hval, hpow, VmBignum.magnitude]
    ring
  rw [hmag, VmBignum.toInt]
  push_cast
  ring

/-- Whether a bit that is shifted out is set. -/
theorem anySet_iff (a : VmBignum) (limbShift : ℕ) {bitShift : ℕ} (hb : bitShift < 32) :
    anySet a limbShift bitShift = true
      ↔ a.magnitude % ((2 ^ 32) ^ limbShift * 2 ^ bitShift) ≠ 0 := by
  have hlow : a.magnitude % (2 ^ 32) ^ limbShift = value (a.limbs.take limbShift) := by
    rw [VmBignum.magnitude, ← value_extend_mod, extend, value_append]
    simp
  have hhigh : a.magnitude / (2 ^ 32) ^ limbShift % 2 ^ bitShift
      = (a.limbs.getD limbShift 0).toNat % 2 ^ bitShift := by
    rw [VmBignum.magnitude, ← value_drop, List.getD_eq_getElem?_getD, ← List.head?_drop]
    cases a.limbs.drop limbShift with
    | nil => rfl
    | cons x l =>
      have hw : 2 ^ 32 = 2 ^ bitShift * 2 ^ (32 - bitShift) := by
        rw [← pow_add, Nat.add_sub_cancel' (by omega)]
      rw [value_cons, hw, Nat.mul_assoc, Nat.add_mul_mod_self_left]
      rfl
  have hmask : (a.limbs.getD limbShift 0 &&& (1#32 <<< bitShift - 1#32)).toNat
      = (a.limbs.getD limbShift 0).toNat % 2 ^ bitShift := by
    have hlt : 2 ^ bitShift < 2 ^ 32 := Nat.pow_lt_pow_right (by omega) hb
    have hone : (1#32 <<< bitShift).toNat = 2 ^ bitShift := by
      rw [BitVec.toNat_shiftLeft, BitVec.toNat_one (by decide), Nat.one_shiftLeft,
        Nat.mod_eq_of_lt hlt]
    have hle : 1#32 ≤ 1#32 <<< bitShift := by
      rw [BitVec.le_def, hone]
      exact Nat.one_le_two_pow
    rw [BitVec.toNat_and, BitVec.toNat_sub_of_le hle, hone, BitVec.toNat_one (by decide),
      Nat.and_two_pow_sub_one_eq_mod]
  have hpos : (2 ^ 32) ^ limbShift ≠ 0 := by positivity
  have hany : (a.limbs.take limbShift).any (· ≠ 0) = true
      ↔ value (a.limbs.take limbShift) ≠ 0 := by
    rw [List.any_eq_true, ne_eq, value_eq_zero_iff]
    simp
  have hbit : (a.limbs.getD limbShift 0 &&& (1#32 <<< bitShift - 1#32)) ≠ 0
      ↔ (a.limbs.getD limbShift 0).toNat % 2 ^ bitShift ≠ 0 := by
    rw [← hmask, ne_eq, ← BitVec.toNat_inj, toNat_zero_word]
  rw [Nat.mod_mul, hlow, hhigh, anySet, Bool.or_eq_true, hany, Bool.and_eq_true,
    decide_eq_true_eq, decide_eq_true_eq, hbit, ne_eq (_ + _), Nat.add_eq_zero_iff,
    Nat.mul_eq_zero, or_iff_right hpos]
  rcases Nat.eq_zero_or_pos bitShift with rfl | h0
  · simp [Nat.mod_one]
  · simp only [h0, true_and]
    exact Decidable.not_and_iff_not_or_not.symm

theorem value_shiftDown_drop (a : VmBignum) (k : ℕ) :
    value (if k % 32 = 0 then a.limbs.drop (k / 32)
      else shiftDown (k % 32) (a.limbs.drop (k / 32))) = a.magnitude / 2 ^ k := by
  have hpow : 2 ^ k = (2 ^ 32) ^ (k / 32) * 2 ^ (k % 32) := by
    rw [← pow_mul, ← pow_add, Nat.div_add_mod]
  rw [hpow, ← Nat.div_div_eq_div_mul, VmBignum.magnitude, ← value_drop]
  split
  next h => rw [h, pow_zero, Nat.div_one]
  next h => exact value_shiftDown (by omega) _

/-- A right shift rounds down. -/
theorem shiftRightBy_spec {a : VmBignum} (ha : a.Normalized) (hs : a.sign ≠ 0) (k : ℕ) :
    (shiftRightBy a k).Normalized ∧ (shiftRightBy a k).toInt = a.toInt / 2 ^ k := by
  have hpow : (2 ^ 32) ^ (k / 32) * 2 ^ (k % 32) = 2 ^ k := by
    rw [← pow_mul, ← pow_add, Nat.div_add_mod]
  rw [shiftRightBy]
  split
  next hle =>
      have hlt : (a.magnitude : ℤ) < 2 ^ k := by
        have hbound : a.magnitude < 2 ^ k := by
          calc a.magnitude < (2 ^ 32) ^ a.nLimbs := value_lt a.limbs
            _ ≤ (2 ^ 32) ^ (k / 32) := Nat.pow_le_pow_right (by positivity) hle
            _ ≤ (2 ^ 32) ^ (k / 32) * 2 ^ (k % 32) := Nat.le_mul_of_pos_right _ (by positivity)
            _ = 2 ^ k := hpow
        exact_mod_cast hbound
      rcases toInt_cases ha with ⟨h0, -, -⟩ | ⟨h1, hv, hm⟩ | ⟨h1, hv, hm⟩
      · exact absurd h0 hs
      · rw [if_neg (by rw [h1]; decide), hv, Int.ediv_eq_zero_of_lt (by omega) hlt]
        exact bignumFromInt64_spec 0
      · rw [if_pos (by rw [h1]; decide), hv,
          Int.ediv_eq_neg_one_of_neg_of_le (by omega) (by omega)]
        exact bignumFromInt64_spec (-1)
  next hle =>
      obtain ⟨hnorm, hmag, hval⟩ := bignumNormalize_spec hs
        (if k % 32 = 0 then a.limbs.drop (k / 32)
          else shiftDown (k % 32) (a.limbs.drop (k / 32)))
      rw [value_shiftDown_drop] at hmag hval
      have hset := anySet_iff a (k / 32) (Nat.mod_lt k (by decide : 0 < 32))
      rw [hpow] at hset
      have hdvd : (2 ^ k : ℤ) ∣ a.magnitude ↔ a.magnitude % 2 ^ k = 0 := by
        rw [← Nat.dvd_iff_mod_eq_zero]
        exact_mod_cast Iff.rfl
      simp only
      rcases toInt_cases ha with ⟨h0, -, -⟩ | ⟨h1, hv, hm⟩ | ⟨h1, hv, hm⟩
      · exact absurd h0 hs
      · rw [if_neg (by rw [h1]; simp), hv]
        refine ⟨hnorm, hval.trans ?_⟩
        rw [h1, SignType.coe_one, one_mul]
        push_cast
        rfl
      · rw [hv, Int.neg_ediv, Int.sign_eq_one_of_pos (by positivity)]
        by_cases hbits : anySet a (k / 32) (k % 32) = true
        · rw [if_pos ⟨by rw [h1]; decide, hbits⟩, if_neg (mt hdvd.mp (hset.mp hbits))]
          obtain ⟨habs, habsv⟩ := bignumAbsVal_spec hnorm
          obtain ⟨hres, hresv⟩ := addOne_withSign habs (by omega)
          refine ⟨hres, hresv.trans ?_⟩
          rw [habsv, hmag]
          push_cast
          rfl
        · rw [if_neg (fun h => hbits h.2), if_pos (hdvd.mpr (not_not.mp (mt hset.mpr hbits)))]
          refine ⟨hnorm, hval.trans ?_⟩
          rw [h1, SignType.coe_neg_one]
          push_cast
          ring

/-! ### Main result -/

section

variable {a b : VmBignum} (ha : a.Normalized)
include ha

theorem bignumShiftLeft_spec {k : Int32} (hk : 0 ≤ k.toInt) :
    ∃ r, bignumShiftLeft a k = .ok r ∧ r.Normalized ∧ r.toInt = a.toInt * 2 ^ k.toInt.toNat := by
  rw [bignumShiftLeft]
  split
  next h =>
      refine ⟨a, rfl, ha, ?_⟩
      rcases h with h | rfl
      · rw [(bignumIsZero_iff ha).mp h, zero_mul]
      · simp
  next h =>
      rw [not_or] at h
      rw [if_neg (by rw [Int32.lt_iff_toInt_lt]; simpa using hk)]
      exact ⟨_, rfl, shiftLeftBy_spec (sign_ne_zero_of_not_isZero ha h.1) _⟩

theorem bignumShiftRight_spec {k : Int32} (hk : 0 ≤ k.toInt) :
    ∃ r, bignumShiftRight a k = .ok r ∧ r.Normalized ∧ r.toInt = a.toInt / 2 ^ k.toInt.toNat := by
  rw [bignumShiftRight]
  split
  next h =>
      refine ⟨a, rfl, ha, ?_⟩
      rcases h with h | rfl
      · rw [(bignumIsZero_iff ha).mp h, Int.zero_ediv]
      · simp
  next h =>
      rw [not_or] at h
      rw [if_neg (by rw [Int32.lt_iff_toInt_lt]; simpa using hk)]
      exact ⟨_, rfl, shiftRightBy_spec ha (sign_ne_zero_of_not_isZero ha h.1) _⟩

end

/-- **Bitwise operations and shifts.** The bits of `and`, `or`, `xor` and `not` are those of
the operands' infinite two's-complement expansions, and a shift by a non-negative `int`
multiplies by a power of two or divides by it, rounding down. All results are normalized. -/
theorem bignumBitwise_shift {a b : VmBignum} (ha : a.Normalized) (hb : b.Normalized)
    {k : Int32} (hk : 0 ≤ k.toInt) :
    ((bignumBitwiseAnd a b).Normalized ∧ ∀ i, (bignumBitwiseAnd a b).toInt.testBit i
      = (a.toInt.testBit i && b.toInt.testBit i)) ∧
    ((bignumBitwiseOr a b).Normalized ∧ ∀ i, (bignumBitwiseOr a b).toInt.testBit i
      = (a.toInt.testBit i || b.toInt.testBit i)) ∧
    ((bignumBitwiseXor a b).Normalized ∧ ∀ i, (bignumBitwiseXor a b).toInt.testBit i
      = (a.toInt.testBit i ^^ b.toInt.testBit i)) ∧
    ((bignumBitwiseNot a).Normalized ∧ ∀ i, (bignumBitwiseNot a).toInt.testBit i
      = !a.toInt.testBit i) ∧
    (∃ r, bignumShiftLeft a k = .ok r ∧ r.Normalized ∧ r.toInt = a.toInt * 2 ^ k.toInt.toNat) ∧
    (∃ r, bignumShiftRight a k = .ok r ∧ r.Normalized ∧ r.toInt = a.toInt / 2 ^ k.toInt.toNat) := by
  refine ⟨bignumBitwiseAnd_spec ha hb, bignumBitwiseOr_spec ha hb, bignumBitwiseXor_spec ha hb,
    ⟨(bignumBitwiseNot_spec ha).1, fun i => ?_⟩, bignumShiftLeft_spec ha hk,
    bignumShiftRight_spec ha hk⟩
  rw [(bignumBitwiseNot_spec ha).2, testBit_neg_sub_one]

/-- `-(2 ^ 32 + 1)` shifted right by 33 bits, and combined with `6`. -/
theorem bignumBitwise_shift_two_limbs :
    (⟨-1, [1, 1]⟩ : VmBignum).Normalized ∧ (⟨1, [6]⟩ : VmBignum).Normalized ∧
    (∀ i, (bignumBitwiseXor ⟨-1, [1, 1]⟩ ⟨1, [6]⟩).toInt.testBit i
      = ((VmBignum.toInt ⟨-1, [1, 1]⟩).testBit i ^^ (VmBignum.toInt ⟨1, [6]⟩).testBit i)) ∧
    ∃ r, bignumShiftRight ⟨-1, [1, 1]⟩ 33 = .ok r ∧ r.Normalized ∧
      r.toInt = VmBignum.toInt ⟨-1, [1, 1]⟩ / 2 ^ 33 := by
  have ha : (⟨-1, [1, 1]⟩ : VmBignum).Normalized := by decide
  have hb : (⟨1, [6]⟩ : VmBignum).Normalized := by decide
  obtain ⟨-, -, hxor, -, -, hright⟩ := bignumBitwise_shift ha hb (k := 33) (by decide)
  exact ⟨ha, hb, hxor.2, hright⟩

end Eshkol.Vm
