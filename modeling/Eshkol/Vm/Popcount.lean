import Eshkol.Native.Dispatch
import Eshkol.Radix.BitCount
import Eshkol.Vm.Agreement

/-!
# Population Count

`popcount` of exact integers in three places: over the 64-bit limbs of a native bignum
(`lib/core/bignum.cpp`), over the 32-bit limbs of a VM bignum (`lib/backend/vm_bignum.c`), and on an
`int64_t` (`lib/backend/vm_native.c`). A negative number stands for an infinite string of bits,
and its count is `-1` less the count of its complement. The complement `|a| - 1` is made limb by
limb while it is counted.

A limb count is a `uint32_t` in the native runtime and an `int` in the VM, so that the count is far
from the range of the `int64_t` it is returned in.
-/

namespace Eshkol

open Radix

/-- The number of one bits of an integer, and for a negative one `-1` less the number of one bits
of its complement. -/
def signedBitCount (a : ℤ) : ℤ := if 0 ≤ a then bitCount a.toNat else -1 - bitCount (-a - 1).toNat

theorem signedBitCount_natCast (n : ℕ) : signedBitCount n = bitCount n := by
  rw [signedBitCount, if_pos (Int.natCast_nonneg n), Int.toNat_natCast]

theorem signedBitCount_neg {n : ℕ} : signedBitCount (-((n + 1 : ℕ) : ℤ)) = -1 - bitCount n := by
  have hcomp : (-(-((n + 1 : ℕ) : ℤ)) - 1).toNat = n := by omega
  rw [signedBitCount, if_neg (by omega), hcomp]

/-! ### The native count -/

theorem bignumPopcount64_eq (v : BitVec 64) : bignumPopcount64 v = bitCount v.toNat := by
  set x := v - (v >>> 1 &&& 0x5555555555555555) with hxdef
  set y := (x &&& 0x3333333333333333) + (x >>> 2 &&& 0x3333333333333333) with hydef
  set z := (y + y >>> 4) &&& 0x0F0F0F0F0F0F0F0F with hzdef
  have hx : x.toNat = v.toNat - (v.toNat / 2 ^ 1 &&& 0x5555555555555555) := by
    have hle : v >>> 1 &&& 0x5555555555555555 ≤ v := by
      rw [BitVec.le_def, BitVec.toNat_and, BitVec.toNat_ushiftRight, Nat.shiftRight_eq_div_pow]
      exact Nat.and_le_left.trans (Nat.div_le_self _ _)
    rw [hxdef, BitVec.toNat_sub_of_le hle, BitVec.toNat_and, BitVec.toNat_ushiftRight,
      Nat.shiftRight_eq_div_pow]
    rfl
  have hmask (u : ℕ) : u &&& 0x3333333333333333 ≤ 0x3333333333333333 := Nat.and_le_right
  have hy : y.toNat = (x.toNat &&& 0x3333333333333333)
      + (x.toNat / 2 ^ 2 &&& 0x3333333333333333) := by
    rw [hydef, BitVec.toNat_add, BitVec.toNat_and, BitVec.toNat_and, BitVec.toNat_ushiftRight,
      Nat.shiftRight_eq_div_pow]
    refine Nat.mod_eq_of_lt ?_
    exact (Nat.add_le_add (hmask _) (hmask _)).trans_lt (by decide)
  have hz : z.toNat = (y.toNat + y.toNat / 2 ^ 4) &&& 0x0F0F0F0F0F0F0F0F := by
    have h1 := hmask x.toNat
    have h2 := hmask (x.toNat / 2 ^ 2)
    rw [hzdef, BitVec.toNat_and, BitVec.toNat_add, BitVec.toNat_ushiftRight,
      Nat.shiftRight_eq_div_pow, Nat.mod_eq_of_lt (by omega)]
    rfl
  have hcount : bignumPopcount64 v = ((z * 0x0101010101010101) >>> 56).toNat := rfl
  rw [hcount, BitVec.toNat_ushiftRight, Nat.shiftRight_eq_div_pow, BitVec.toNat_mul]
  exact fieldCount_eq v.isLt hx hy hz

theorem decrementLimbs_eq (l : List (BitVec 64)) : decrementLimbs l = decrement l := by
  induction l with
  | nil => rfl
  | cons x l ih => rw [decrementLimbs, decrement, ih]

theorem sum_bignumPopcount64 (l : List (BitVec 64)) :
    (l.map bignumPopcount64).sum = bitCount (value l) := by
  rw [bitCount_value, List.map_congr_left fun x _ => bignumPopcount64_eq x]

theorem eshkolBignumPopcount_eq {a : Bignum} (ha : a.Normalized) (hlen : a.numLimbs < 2 ^ 32) :
    (eshkolBignumPopcount a).toInt = signedBitCount a.toInt := by
  have hle := bitCount_value_le a.limbs
  rw [eshkolBignumPopcount]
  cases hs : a.sign with
  | false =>
    rw [Bool.not_false, if_pos rfl, sum_bignumPopcount64, Bignum.toInt_of_sign_eq_false hs,
      signedBitCount_natCast, Bignum.magnitude]
    rw [Bignum.numLimbs] at hlen
    exact Int64.toInt_ofNat_of_lt (by omega)
  | true =>
    have hdec := value_decrement (ha.2 hs)
    have hlt : value (decrement a.limbs) < 2 ^ (64 * a.limbs.length) := by
      have hval := value_lt a.limbs
      rw [pow_mul]
      omega
    have hle := bitCount_le hlt
    rw [Bool.not_true, if_neg Bool.false_ne_true, decrementLimbs_eq, sum_bignumPopcount64,
      Bignum.toInt_of_sign_eq_true hs, Bignum.magnitude, ← hdec, signedBitCount_neg]
    rw [Bignum.numLimbs] at hlen
    exact Int64.toInt_ofInt_of_le (by omega) (by omega)

namespace Vm

/-! ### The counts of the VM -/

/-- `while (limb) { count += (limb & 1u); limb >>= 1; }`, with what it adds to the count. -/
def limbPopcount (limb : BitVec 32) : ℕ :=
  if limb = 0 then 0 else (limb &&& 1).toNat + limbPopcount (limb >>> 1)
termination_by limb.toNat
decreasing_by
  rename_i h
  have hpos : limb.toNat ≠ 0 := fun h0 => h (BitVec.eq_of_toNat_eq h0)
  rw [BitVec.toNat_ushiftRight, Nat.shiftRight_eq_div_pow]
  omega

def vmBignumPopcount (b : VmBignum) : Int64 :=
  if bignumIsZero b then 0
  else if 0 ≤ b.sign then Int64.ofNat (b.limbs.map limbPopcount).sum
  else Int64.ofInt (-1 - ((decrement b.limbs).map limbPopcount).sum)

/-- `vm_popcount_i64`. The word is counted in the steps of `bignum_popcount64`. -/
def vmPopcountI64 (val : Int64) : Int64 :=
  let v := if val < 0 then ~~~val.toBitVec else val.toBitVec
  let bits := bignumPopcount64 v
  if val < 0 then Int64.ofInt (-1 - bits) else Int64.ofNat bits

theorem limbPopcount_eq (limb : BitVec 32) : limbPopcount limb = bitCount limb.toNat := by
  fun_induction limbPopcount limb with
  | case1 => rw [BitVec.ofNat_eq_ofNat, BitVec.toNat_zero, bitCount_zero]
  | case2 limb h ih =>
    rw [ih, BitVec.toNat_and, BitVec.toNat_ushiftRight, Nat.shiftRight_eq_div_pow, pow_one,
      bitCount_div_two limb.toNat]
    congr 1
    exact Nat.and_one_is_mod _

theorem sum_limbPopcount (l : List (BitVec 32)) :
    (l.map limbPopcount).sum = bitCount (value l) := by
  rw [bitCount_value, List.map_congr_left fun x _ => limbPopcount_eq x]

theorem vmBignumPopcount_eq {a : VmBignum} (ha : a.Normalized) (hlen : a.nLimbs < 2 ^ 31) :
    (vmBignumPopcount a).toInt = signedBitCount a.toInt := by
  have hval := value_lt a.limbs
  rw [← pow_mul] at hval
  rw [VmBignum.nLimbs] at hlen
  rw [vmBignumPopcount]
  rcases toInt_cases ha with ⟨hs, hv, hm⟩ | ⟨hs, hv, hm⟩ | ⟨hs, hv, hm⟩
  · rw [if_pos ((bignumIsZero_iff ha).mpr hv), hv]
    exact (signedBitCount_natCast 0).symm
  · rw [if_neg (mt (bignumIsZero_iff ha).mp (by omega)), if_pos (by rw [hs]; decide),
      sum_limbPopcount, hv, signedBitCount_natCast, VmBignum.magnitude]
    have hle := bitCount_le hval
    exact Int64.toInt_ofNat_of_lt (by omega)
  · have hdec := value_decrement (show value a.limbs ≠ 0 from hm.ne')
    have hle := bitCount_le (by omega : value (decrement a.limbs) < 2 ^ (32 * a.limbs.length))
    rw [if_neg (mt (bignumIsZero_iff ha).mp (by omega)), if_neg (by rw [hs]; decide),
      sum_limbPopcount, hv, VmBignum.magnitude, ← hdec, signedBitCount_neg]
    exact Int64.toInt_ofInt_of_le (by omega) (by omega)

theorem vmPopcountI64_eq (v : Int64) : (vmPopcountI64 v).toInt = signedBitCount v.toInt := by
  have hneg : v < 0 ↔ v.toInt < 0 := by rw [Int64.lt_iff_toInt_lt, Int64.toInt_zero]
  have hcond := BitVec.toInt_eq_toNat_cond v.toBitVec
  rw [Int64.toInt_toBitVec] at hcond
  rw [vmPopcountI64]
  rcases lt_or_ge v.toInt 0 with h | h
  · have hcomp : v.toInt = -(((~~~v.toBitVec).toNat + 1 : ℕ) : ℤ) := by
      rw [BitVec.toNat_not]
      omega
    have hle := bitCount_le (~~~v.toBitVec).isLt
    simp only [if_pos (hneg.mpr h)]
    rw [bignumPopcount64_eq, hcomp, signedBitCount_neg]
    exact Int64.toInt_ofInt_of_le (by omega) (by omega)
  · have hval : v.toInt = (v.toBitVec.toNat : ℤ) := by omega
    have hle := bitCount_le v.toBitVec.isLt
    simp only [if_neg (mt hneg.mp h.not_gt)]
    rw [bignumPopcount64_eq, hval, signedBitCount_natCast]
    exact Int64.toInt_ofNat_of_lt (by omega)

end Vm

end Eshkol
