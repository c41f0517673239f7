import Eshkol.Native.Divide
import Eshkol.Radix.TwosComplement

/-!
# Native Bitwise Operations

`bitwise-and`, `-or`, `-xor` and `-not` on bignums (`lib/core/bignum.cpp`). The binary
operations convert both operands to two's complement in a buffer of one limb more than the
longer operand, but never more than 127 limbs, combine the buffers word by word and
convert back.
-/

namespace Eshkol

open Radix

def toTwosComplement (a : Bignum) (n : ℕ) : List (BitVec 64) :=
  let out := extend n a.limbs
  if a.sign then negate out else out

/-- The sign-extension loop after `to_twos_complement`. -/
def signExtend (a : Bignum) (n : ℕ) (tc : List (BitVec 64)) : List (BitVec 64) :=
  tc.take a.numLimbs
    ++ List.replicate (n - a.numLimbs) (if a.sign then BitVec.allOnes 64 else 0)

def fromTwosComplement (tc : List (BitVec 64)) : Bignum :=
  let negative := (tc.getLastD 0).msb
  let work := if negative then negate tc else tc
  bignumTrim negative work

/-- The binary operations, for the operation `op` on a limb. -/
def bitwiseWords (op : BitVec 64 → BitVec 64 → BitVec 64) (a b : Bignum) : Bignum :=
  let n := max a.numLimbs b.numLimbs + 1
  let n := if n > 127 then 127 else n
  let tcA := signExtend a n (toTwosComplement a n)
  let tcB := signExtend b n (toTwosComplement b n)
  fromTwosComplement (List.zipWith op tcA tcB)

def eshkolBignumBitwiseAnd (a b : Bignum) : Bignum := bitwiseWords (· &&& ·) a b

def eshkolBignumBitwiseOr (a b : Bignum) : Bignum := bitwiseWords (· ||| ·) a b

def eshkolBignumBitwiseXor (a b : Bignum) : Bignum := bitwiseWords (· ^^^ ·) a b

def eshkolBignumBitwiseNot (a : Bignum) : Bignum :=
  let one := eshkolBignumFromInt64 1
  if a.sign then eshkolBignumSub (eshkolBignumNeg a) one
  else eshkolBignumNeg (eshkolBignumAdd a one)

/-! ### Conversion -/

variable {a : Bignum} {f : Bool → Bool → Bool}

/-- Sign extension keeps the two's complement value. -/
theorem value_signExtend (ha : a.Normalized) (n : ℕ) :
    (signExtend a n (toTwosComplement a n)).length = n ∧
      (value (signExtend a n (toTwosComplement a n)) : ℤ) = a.toInt % (2 ^ 64) ^ n := by
  unfold signExtend toTwosComplement
  rcases Nat.lt_or_ge a.numLimbs n with h | h
  · -- The operand leaves room: its limbs are followed by sign words.
    have hext : extend n a.limbs = a.limbs ++ List.replicate (n - a.numLimbs) 0 := by
      rw [extend, List.take_of_length_le h.le]
      rfl
    have hlt : value a.limbs < (2 ^ 64) ^ n :=
      lt_of_lt_of_le (value_lt a.limbs) (Nat.pow_le_pow_right (by positivity) h.le)
    cases hs : a.sign with
    | true =>
      have htake : (negate (extend n a.limbs)).take a.numLimbs = negate a.limbs := by
        rw [hext, negate, ripple_append]
        exact List.take_left' (length_ripple _ _ _)
      have hval := value_negate_append_allOnes (by decide) (ha.2 hs) (n - a.numLimbs)
      simp only [if_true, htake]
      rw [Bignum.toInt_of_sign_eq_true hs]
      refine ⟨?_, ?_⟩
      · rw [List.length_append, length_negate, List.length_replicate]
        exact Nat.add_sub_cancel' h.le
      · rw [hval, show a.limbs.length + (n - a.numLimbs) = n from Nat.add_sub_cancel' h.le]
        rfl
    | false =>
      have htake : (extend n a.limbs).take a.numLimbs = a.limbs := by
        rw [hext]
        exact List.take_left' rfl
      simp only [Bool.false_eq_true, if_false, htake]
      rw [← hext, Bignum.toInt_of_sign_eq_false hs]
      refine ⟨length_extend _ _, ?_⟩
      rw [value_extend_mod]
      push_cast
      rfl
  · -- The buffer is no longer than the operand: there is nothing to extend.
    rw [Nat.sub_eq_zero_of_le h, List.replicate_zero, List.append_nil]
    have hmod : (value (extend n a.limbs) : ℤ) = (a.magnitude : ℤ) % (2 ^ 64) ^ n := by
      rw [value_extend_mod]
      push_cast
      rfl
    cases hs : a.sign with
    | true =>
      simp only [if_true]
      rw [List.take_of_length_le (by simpa using h), value_negate (by decide), length_negate,
        length_extend, hmod, Bignum.toInt_of_sign_eq_true hs]
      refine ⟨rfl, ?_⟩
      rw [show -((a.magnitude : ℤ) % (2 ^ 64) ^ n)
        = -(a.magnitude : ℤ) + (2 ^ 64) ^ n * ((a.magnitude : ℤ) / (2 ^ 64) ^ n) by
          linarith [Int.emod_add_mul_ediv (a.magnitude : ℤ) ((2 ^ 64) ^ n)],
        Int.add_mul_emod_self_left]
    | false =>
      simp only [Bool.false_eq_true, if_false]
      rw [List.take_of_length_le (by simpa using h), hmod, Bignum.toInt_of_sign_eq_false hs]
      exact ⟨length_extend _ _, rfl⟩

theorem msb_getLastD_iff {tc : List (BitVec 64)} (htc : tc ≠ []) :
    (tc.getLastD 0).msb = true ↔ ¬ 2 * value tc < (2 ^ 64) ^ tc.length := by
  obtain ⟨lo, x, rfl⟩ : ∃ lo x, tc = lo ++ [x] := ⟨_, _, (List.dropLast_append_getLast htc).symm⟩
  have hlo := value_lt lo
  have hx := x.isLt
  have hval : value (lo ++ [x]) = value lo + (2 ^ 64) ^ lo.length * x.toNat := by
    rw [value_append, value_cons, value_nil, Nat.mul_zero, Nat.add_zero]
  rw [List.getLastD_concat, BitVec.msb_eq_decide, decide_eq_true_eq, hval, List.length_append,
    List.length_singleton, pow_succ]
  set P := (2 ^ 64) ^ lo.length with hP
  constructor
  · intro h
    have : P * 2 ^ 63 ≤ P * x.toNat := Nat.mul_le_mul_left _ (by omega)
    omega
  · intro h
    by_contra hcon
    have : P * (x.toNat + 1) ≤ P * 2 ^ 63 := Nat.mul_le_mul_left _ (by omega)
    rw [Nat.mul_add, Nat.mul_one] at this
    omega

theorem fromTwosComplement_spec {tc : List (BitVec 64)} (htc : tc ≠ []) :
    (fromTwosComplement tc).Normalized ∧ (fromTwosComplement tc).toInt = signedValue tc := by
  have hmsb := msb_getLastD_iff htc
  have hlt := value_lt tc
  set negative := (tc.getLastD 0).msb with hneg
  set work := if negative then negate tc else tc with hwork
  have hdef : fromTwosComplement tc = bignumTrim negative work := rfl
  -- In the upper half the magnitude is the distance to the weight of the buffer.
  have hupper : negative = true → value work + value tc = (2 ^ 64) ^ tc.length := by
    intro h
    have hpos : value tc ≠ 0 := by
      have := hmsb.mp h
      have hpow : 0 < (2 ^ 64) ^ tc.length := by positivity
      omega
    rw [hwork, if_pos h]
    exact value_negate_add (by decide) hpos
  have hlower : negative = false → value work = value tc := by
    intro h
    rw [hwork, if_neg (by simp [h])]
  rw [hdef]
  refine ⟨bignumTrim_normalized fun hs hz => ?_, ?_⟩
  · have := hupper hs
    omega
  · rw [Bignum.toInt, sign_bignumTrim, magnitude_bignumTrim, signedValue]
    cases hn : negative with
    | true =>
      rw [if_pos rfl, if_neg (hmsb.mp hn)]
      have h : (value work : ℤ) + value tc = (2 ^ 64) ^ tc.length := by exact_mod_cast hupper hn
      linarith
    | false =>
      rw [if_neg (by simp), if_pos, hlower hn]
      by_contra hcon
      rw [hmsb.mpr hcon] at hn
      simp at hn

/-! ### Exactness -/

theorem bitwise_of_signs {x y : ℤ} (hx : x = 0 ∨ x = -1) (hy : y = 0 ∨ y = -1) :
    Int.bitwise f x y = 0 ∨ Int.bitwise f x y = -1 := by
  have hzero : ∀ i, Int.testBit 0 i = false := fun i => by simp [Int.testBit]
  have hone : ∀ i, Int.testBit (-1) i = true := fun i => by
    change (!Nat.testBit 0 i) = true
    simp
  -- Every bit of the result is the same combination of the two signs.
  have hconst : ∀ b, (∀ i, (Int.bitwise f x y).testBit i = b) →
      Int.bitwise f x y = 0 ∨ Int.bitwise f x y = -1 := by
    intro b hb
    cases b with
    | false => exact Or.inl (eq_of_testBit_eq fun i => by rw [hb, hzero])
    | true => exact Or.inr (eq_of_testBit_eq fun i => by rw [hb, hone])
  rcases hx with rfl | rfl <;> rcases hy with rfl | rfl
  · exact hconst (f false false) fun i => by rw [Int.testBit_bitwise, hzero]
  · exact hconst (f false true) fun i => by rw [Int.testBit_bitwise, hzero, hone]
  · exact hconst (f true false) fun i => by rw [Int.testBit_bitwise, hzero, hone]
  · exact hconst (f true true) fun i => by rw [Int.testBit_bitwise, hone]

theorem toInt_ediv_of_numLimbs_le {k : ℕ} (h : 64 * a.numLimbs ≤ k) :
    a.toInt / 2 ^ k = 0 ∨ a.toInt / 2 ^ k = -1 := by
  have hlt : a.magnitude < 2 ^ k := by
    calc a.magnitude < (2 ^ 64) ^ a.numLimbs := value_lt a.limbs
      _ = 2 ^ (64 * a.numLimbs) := (pow_mul 2 64 _).symm
      _ ≤ 2 ^ k := Nat.pow_le_pow_right (by omega) h
  have hlt' : (a.magnitude : ℤ) < 2 ^ k := by exact_mod_cast hlt
  rw [Int.ediv_eq_iff_of_pos (by positivity), Int.ediv_eq_iff_of_pos (by positivity)]
  rcases le_or_gt 0 a.toInt with hs | hs
  · have := a.natAbs_toInt
    left
    omega
  · have := a.natAbs_toInt
    right
    omega

/-- The words have the bits of the operands, below the cap. -/
theorem bitwiseWords_spec {op : BitVec 64 → BitVec 64 → BitVec 64}
    (hop : ∀ x y i, i < 64 → (op x y).getLsbD i = f (x.getLsbD i) (y.getLsbD i)) {b : Bignum}
    (ha : a.Normalized) (hb : b.Normalized) :
    (bitwiseWords op a b).Normalized ∧
      ((bitwiseWords op a b).toInt = Int.bitwise f a.toInt b.toInt ↔
        Int.bitwise f (a.toInt / 2 ^ 8127) (b.toInt / 2 ^ 8127) = 0 ∨
        Int.bitwise f (a.toInt / 2 ^ 8127) (b.toInt / 2 ^ 8127) = -1) := by
  have hmaxa : a.numLimbs ≤ max a.numLimbs b.numLimbs := Nat.le_max_left _ _
  have hmaxb : b.numLimbs ≤ max a.numLimbs b.numLimbs := Nat.le_max_right _ _
  unfold bitwiseWords
  set n := if max a.numLimbs b.numLimbs + 1 > 127 then 127
    else max a.numLimbs b.numLimbs + 1 with hn
  have hnpos : 0 < n := by
    rw [hn]
    split <;> omega
  obtain ⟨hla, hva⟩ := value_signExtend ha n
  obtain ⟨hlb, hvb⟩ := value_signExtend hb n
  have hlen : (signExtend a n (toTwosComplement a n)).length
      = (signExtend b n (toTwosComplement b n)).length := by rw [hla, hlb]
  have hval := value_zipWith hop hlen (by rw [hva, hla]) (by rw [hvb, hlb])
  set words := List.zipWith op (signExtend a n (toTwosComplement a n))
    (signExtend b n (toTwosComplement b n)) with hwords
  have hwlen : words.length = n := by rw [hwords, List.length_zipWith, hla, hlb, Nat.min_self]
  have hne : words ≠ [] := List.ne_nil_of_length_pos (by omega)
  obtain ⟨hnorm, hsigned⟩ := fromTwosComplement_spec hne
  refine ⟨hnorm, ?_⟩
  rw [hsigned, signedValue_eq_iff (by decide) hne (by rw [hval, hla, hwlen]), hwlen,
    bitwise_ediv]
  by_cases hcap : max a.numLimbs b.numLimbs + 1 > 127
  · rw [hn, if_pos hcap]
  · -- Without the cap both sides hold: the operands have only sign bits up there.
    have hn' : n = max a.numLimbs b.numLimbs + 1 := by rw [hn, if_neg hcap]
    have hhigh : ∀ k, 64 * n - 1 ≤ k →
        (Int.bitwise f (a.toInt / 2 ^ k) (b.toInt / 2 ^ k) = 0 ∨
          Int.bitwise f (a.toInt / 2 ^ k) (b.toInt / 2 ^ k) = -1) := fun k hk =>
      bitwise_of_signs (toInt_ediv_of_numLimbs_le (by omega))
        (toInt_ediv_of_numLimbs_le (by omega))
    exact iff_of_true (hhigh _ le_rfl) (hhigh _ (by omega))

theorem testBit_bitwise_iff {x y z : ℤ} :
    (∀ i, z.testBit i = f (x.testBit i) (y.testBit i)) ↔ z = Int.bitwise f x y := by
  constructor
  · intro h
    exact eq_of_testBit_eq fun i => by rw [h, Int.testBit_bitwise]
  · rintro rfl i
    exact Int.testBit_bitwise f x y i

theorem eshkolBignumBitwiseNot_spec (ha : a.Normalized) :
    (eshkolBignumBitwiseNot a).Normalized ∧ (eshkolBignumBitwiseNot a).toInt = -a.toInt - 1 := by
  have hone := eshkolBignumFromInt64_normalized 1
  have honev : (eshkolBignumFromInt64 1).toInt = 1 := toInt_eshkolBignumFromInt64 1
  unfold eshkolBignumBitwiseNot
  split
  next h =>
      have hneg := eshkolBignumNeg_normalized ha
      refine ⟨eshkolBignumSub_normalized hneg hone, ?_⟩
      rw [toInt_eshkolBignumSub hneg hone, toInt_eshkolBignumNeg ha, honev]
  next h =>
      have hadd := eshkolBignumAdd_normalized ha hone
      refine ⟨eshkolBignumNeg_normalized hadd, ?_⟩
      rw [toInt_eshkolBignumNeg hadd, toInt_eshkolBignumAdd ha hone, honev]
      ring

/-- **Bitwise operations, with exact conditions.** `not` has the right bits always. A
binary operation has the right bits exactly when the bits of its result from position 8127
up are all equal: 8127 is the sign bit of a buffer of 127 limbs. -/
theorem eshkolBignumBitwise_iff {a b : Bignum} (ha : a.Normalized) (hb : b.Normalized) :
    ((∀ i, (eshkolBignumBitwiseAnd a b).toInt.testBit i
        = (a.toInt.testBit i && b.toInt.testBit i)) ↔
      Int.land (a.toInt / 2 ^ 8127) (b.toInt / 2 ^ 8127) = 0 ∨
      Int.land (a.toInt / 2 ^ 8127) (b.toInt / 2 ^ 8127) = -1) ∧
    ((∀ i, (eshkolBignumBitwiseOr a b).toInt.testBit i = (a.toInt.testBit i || b.toInt.testBit i)) ↔
      Int.lor (a.toInt / 2 ^ 8127) (b.toInt / 2 ^ 8127) = 0 ∨
      Int.lor (a.toInt / 2 ^ 8127) (b.toInt / 2 ^ 8127) = -1) ∧
    ((∀ i, (eshkolBignumBitwiseXor a b).toInt.testBit i
        = (a.toInt.testBit i ^^ b.toInt.testBit i)) ↔
      Int.xor (a.toInt / 2 ^ 8127) (b.toInt / 2 ^ 8127) = 0 ∨
      Int.xor (a.toInt / 2 ^ 8127) (b.toInt / 2 ^ 8127) = -1) ∧
    (∀ i, (eshkolBignumBitwiseNot a).toInt.testBit i = !a.toInt.testBit i) := by
  refine ⟨?_, ?_, ?_, ?_⟩
  · rw [testBit_bitwise_iff (f := and), ← Int.bitwise_and]
    exact (bitwiseWords_spec (fun x y i _ => BitVec.getLsbD_and) ha hb).2
  · rw [testBit_bitwise_iff (f := or), ← Int.bitwise_or]
    exact (bitwiseWords_spec (fun x y i _ => BitVec.getLsbD_or) ha hb).2
  · rw [testBit_bitwise_iff (f := xor), ← Int.bitwise_xor]
    exact (bitwiseWords_spec (fun x y i _ => BitVec.getLsbD_xor) ha hb).2
  · intro i
    rw [(eshkolBignumBitwiseNot_spec ha).2, testBit_neg_sub_one]

/-- At `-6` and `3` there are no bits above the buffer. -/
theorem eshkolBignumBitwise_iff_small :
    (eshkolBignumFromInt64 (-6)).Normalized ∧ (eshkolBignumFromInt64 3).Normalized ∧
    ∀ i, (eshkolBignumBitwiseXor (eshkolBignumFromInt64 (-6))
        (eshkolBignumFromInt64 3)).toInt.testBit i
      = ((eshkolBignumFromInt64 (-6)).toInt.testBit i
        ^^ (eshkolBignumFromInt64 3).toInt.testBit i) := by
  have ha := eshkolBignumFromInt64_normalized (-6)
  have hb := eshkolBignumFromInt64_normalized 3
  refine ⟨ha, hb, (eshkolBignumBitwise_iff ha hb).2.2.1.mpr ?_⟩
  rw [← Int.bitwise_xor]
  exact bitwise_of_signs (toInt_ediv_of_numLimbs_le (by decide))
    (toInt_ediv_of_numLimbs_le (by decide))

/-- `2 ^ 8127`, the smallest number that reaches the sign bit of a full buffer. -/
def twoPow8127 : Bignum := ⟨false, List.replicate 126 0 ++ [BitVec.ofNat 64 (2 ^ 63)], by simp⟩

theorem toInt_twoPow8127 : twoPow8127.toInt = 2 ^ 8127 := by
  have hmag : twoPow8127.magnitude = 2 ^ 8127 := by
    calc twoPow8127.magnitude
        = value (List.replicate 126 0#64) + (2 ^ 64) ^ (List.replicate 126 0#64).length
          * value [BitVec.ofNat 64 (2 ^ 63)] :=
            value_append (List.replicate 126 0#64) [BitVec.ofNat 64 (2 ^ 63)]
      _ = 2 ^ (64 * 126) * 2 ^ 63 := by
          rw [value_replicate_zero, List.length_replicate, Nat.zero_add, ← pow_mul, value_cons,
            value_nil, Nat.mul_zero, Nat.add_zero, BitVec.toNat_ofNat,
            Nat.mod_eq_of_lt (by decide : 2 ^ 63 < 2 ^ 64)]
      _ = 2 ^ 8127 := by rw [← pow_add]
  rw [Bignum.toInt_of_sign_eq_false rfl, hmag, Nat.cast_pow, Nat.cast_ofNat]

/-- `2 ^ 8127` and itself come out negative. -/
theorem eshkolBignumBitwiseAnd_loses_sign :
    twoPow8127.Normalized ∧
      ¬ ∀ i, (eshkolBignumBitwiseAnd twoPow8127 twoPow8127).toInt.testBit i
        = (twoPow8127.toInt.testBit i && twoPow8127.toInt.testBit i) := by
  have hnorm : twoPow8127.Normalized := by
    refine ⟨fun _ => ?_, by simp [twoPow8127]⟩
    simp only [twoPow8127, List.getLast_append_singleton]
    decide
  refine ⟨hnorm, ?_⟩
  rw [testBit_bitwise_iff (f := and), eshkolBignumBitwiseAnd,
    (bitwiseWords_spec (fun x y i _ => BitVec.getLsbD_and) hnorm hnorm).2, toInt_twoPow8127,
    Int.ediv_self (by positivity), Int.bitwise_and]
  decide

end Eshkol
