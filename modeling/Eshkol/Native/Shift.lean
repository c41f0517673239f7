import Eshkol.Native.Rational

/-!
# Native Arithmetic Shift

`eshkol_bignum_shift` (`lib/core/bignum.cpp`). Shifting up builds the result in a zeroed
array with one limb to spare; shifting down works on the magnitude and then corrects a
negative result that has become zero. Limb counts of the source are `uint32_t`, and an
object whose payload does not fit a `uint32_t` is not allocated, so both are explicit here.
-/

namespace Eshkol

open Radix Machine

/-- `eshkol_object_payload_fits`, for a bignum of so many limbs. -/
def payloadFits (numLimbs : ℕ) : Bool := 8 + numLimbs * 8 ≤ 2 ^ 32 - 1

/-- `bignum_alloc`: zeroed limbs, or a null pointer. -/
def bignumAlloc (numLimbs : ℕ) : Option (List (BitVec 64)) :=
  if payloadFits numLimbs then some (List.replicate numLimbs 0) else none

/-- `rl[j] |= x`. A write outside the array is undefined. -/
def orAt (rl : List (BitVec 64)) (j : ℕ) (x : BitVec 64) : Exec Exn (List (BitVec 64)) :=
  if h : j < rl.length then .ok (rl.set j (rl[j] ||| x)) else .error .undefined

/-- The second write of a pass of the left-shift loop: the bits moved into the next limb. -/
def orHigh (wordShift bitShift newLimbs i : ℕ) (x : BitVec 64) (rl : List (BitVec 64)) :
    Exec Exn (List (BitVec 64)) :=
  if 0 < bitShift ∧ (i + wordShift + 1) % 2 ^ 32 < newLimbs then
    orAt rl ((i + wordShift + 1) % 2 ^ 32) (x >>> (64 - bitShift))
  else .ok rl

/-- The left-shift loop, from limb `i` of the operand on. -/
def shiftLeftLoop (wordShift bitShift newLimbs : ℕ) :
    List (BitVec 64) → ℕ → List (BitVec 64) → Exec Exn (List (BitVec 64))
  | [], _, rl => .ok rl
  | x :: al, i, rl => do
      let rl ← orAt rl ((i + wordShift) % 2 ^ 32) (if bitShift = 0 then x else x <<< bitShift)
      let rl ← orHigh wordShift bitShift newLimbs i x rl
      shiftLeftLoop wordShift bitShift newLimbs al (i + 1) rl

/-- `eshkol_bignum_shift` of a nonzero number by `count > 0`. -/
def shiftLeft (a : Bignum) (count : Int64) : Exec Exn (Option Bignum) :=
  let wordShift := (count.toInt / 64).toNat % 2 ^ 32
  let bitShift := (count.toInt % 64).toNat
  let newLimbs := (a.numLimbs + wordShift + 1) % 2 ^ 32
  match bignumAlloc newLimbs with
  | none => .ok none
  | some rl => do
      let rl ← shiftLeftLoop wordShift bitShift newLimbs a.limbs 0 rl
      .ok (some (bignumTrim a.sign rl))

/-- The right-shift loop, over the limbs from `word_shift` on: each takes its low bits from
the next limb. -/
def shiftRightLoop (bitShift : ℕ) : List (BitVec 64) → List (BitVec 64)
  | [] => []
  | [x] => [if bitShift = 0 then x else x >>> bitShift]
  | x :: y :: al =>
    let r := if bitShift = 0 then x else x >>> bitShift
    (if 0 < bitShift then r ||| y <<< (64 - bitShift) else r)
      :: shiftRightLoop bitShift (y :: al)

/-- `eshkol_bignum_shift` of a nonzero number by `count < 0`. -/
def shiftRight (a : Bignum) (count : Int64) : Exec Exn (Option Bignum) := do
  let rcount ← signed 64 (-count.toInt)
  let wordShift := (rcount / 64).toNat % 2 ^ 32
  let bitShift := (rcount % 64).toNat
  if a.numLimbs ≤ wordShift then
    .ok (some (if a.sign then eshkolBignumFromInt64 (-1) else eshkolBignumFromInt64 0))
  else
    match bignumAlloc (a.numLimbs - wordShift) with
    | none => .ok none
    | some _ =>
      let result := bignumTrim a.sign (shiftRightLoop bitShift (a.limbs.drop wordShift))
      .ok (some (if a.sign && eshkolBignumIsZero result then eshkolBignumFromInt64 (-1)
        else result))

def eshkolBignumShift (a : Bignum) (count : Int64) : Exec Exn (Option Bignum) :=
  if eshkolBignumIsZero a || count == 0 then .ok (some (eshkolBignumFromInt64 0))
  else if 0 < count.toInt then shiftLeft a count
  else shiftRight a count

/-! ### Shifting up -/

theorem payloadFits_iff {n : ℕ} : payloadFits n = true ↔ n ≤ 2 ^ 29 - 2 := by
  rw [payloadFits, decide_eq_true_eq]
  omega

theorem orAt_eq (lo hi : List (BitVec 64)) (c x : BitVec 64) :
    orAt (lo ++ c :: hi) lo.length x = .ok (lo ++ (c ||| x) :: hi) := by
  rw [orAt, dif_pos (by simp)]
  simp

/-- The loop ripples the shifted words. -/
theorem shiftLeftLoop_eq {wordShift bitShift newLimbs : ℕ} (hb : bitShift < 64)
    (hn : newLimbs < 2 ^ 32) (al lo : List (BitVec 64)) (c : BitVec 64) {i : ℕ}
    (hlo : lo.length = i + wordShift) (hlen : lo.length + 1 + al.length = newLimbs) :
    shiftLeftLoop wordShift bitShift newLimbs al i (lo ++ c :: List.replicate al.length 0)
      = .ok (lo ++ ((ripple (shlStep bitShift) al c).1
        ++ [(ripple (shlStep bitShift) al c).2])) := by
  induction al generalizing lo c i with
  | nil => rfl
  | cons x al ih =>
    rw [List.length_cons] at hlen
    set c' := c ||| (if bitShift = 0 then x else x <<< bitShift) with hc'
    have hlow : orAt (lo ++ c :: List.replicate (al.length + 1) 0) ((i + wordShift) % 2 ^ 32)
        (if bitShift = 0 then x else x <<< bitShift)
        = .ok (lo ++ c' :: List.replicate (al.length + 1) 0) := by
      rw [Nat.mod_eq_of_lt (by omega), ← hlo, orAt_eq]
    have hhigh : orHigh wordShift bitShift newLimbs i x
        (lo ++ c' :: List.replicate (al.length + 1) 0)
        = .ok ((lo ++ [c']) ++ (x >>> (64 - bitShift)) :: List.replicate al.length 0) := by
      have hidx : (i + wordShift + 1) % 2 ^ 32 = (lo ++ [c']).length := by
        rw [Nat.mod_eq_of_lt (by omega), List.length_append, List.length_singleton, hlo]
      rw [orHigh, List.append_cons, List.replicate_succ, hidx]
      split
      next h =>
          have hor : (0 : BitVec 64) ||| x >>> (64 - bitShift) = x >>> (64 - bitShift) :=
            BitVec.zero_or
          rw [orAt_eq, hor]
      next h =>
          have hzero : bitShift = 0 := by
            rw [List.length_append, List.length_singleton] at h
            omega
          have hx : x >>> 64 = 0 := BitVec.ushiftRight_eq_zero (le_refl 64)
          rw [hzero, Nat.sub_zero, hx]
    have hstep : shlStep bitShift c x = (c', x >>> (64 - bitShift)) := by
      rw [shlStep, hc', BitVec.or_comm]
      congr 2
      split
      next h => rw [h, BitVec.shiftLeft_zero]
      next h => rfl
    rw [shiftLeftLoop, List.length_cons, hlow, ok_bind, hhigh, ok_bind,
      ih (lo ++ [c']) _ (by simp [hlo]; omega) (by simp; omega), ripple, hstep]
    simp

/-- A left shift multiplies, with the word count cut to 32 bits. -/
theorem shiftLeft_words_spec {a : Bignum} (ha : a.Normalized) {count : Int64}
    (hroom : payloadFits (a.numLimbs + (count.toInt / 64).toNat % 2 ^ 32 + 1) = true) :
    ∃ r, shiftLeft a count = .ok (some r) ∧ r.Normalized ∧ payloadFits r.numLimbs = true ∧
      r.toInt = a.toInt
        * 2 ^ (64 * ((count.toInt / 64).toNat % 2 ^ 32) + (count.toInt % 64).toNat) := by
  set ws := (count.toInt / 64).toNat % 2 ^ 32 with hws
  set bs := (count.toInt % 64).toNat with hbs
  have hroom' := payloadFits_iff.mp hroom
  have hnew : (a.numLimbs + ws + 1) % 2 ^ 32 = a.numLimbs + ws + 1 := Nat.mod_eq_of_lt (by omega)
  have halloc : List.replicate (a.numLimbs + ws + 1) (0 : BitVec 64)
      = List.replicate ws 0 ++ 0 :: List.replicate a.limbs.length 0 := by
    rw [← List.replicate_succ, List.replicate_append_replicate]
    congr 1
    change a.numLimbs + ws + 1 = ws + (a.numLimbs + 1)
    omega
  have hloop : shiftLeftLoop ws bs (a.numLimbs + ws + 1) a.limbs 0
      (List.replicate ws 0 ++ 0 :: List.replicate a.limbs.length 0)
      = .ok (List.replicate ws 0 ++ ((ripple (shlStep bs) a.limbs 0).1
        ++ [(ripple (shlStep bs) a.limbs 0).2])) := by
    apply shiftLeftLoop_eq (by omega) (by omega)
    · simp
    · rw [List.length_replicate]
      change ws + 1 + a.numLimbs = _
      omega
  set out := List.replicate ws 0 ++ ((ripple (shlStep bs) a.limbs 0).1
    ++ [(ripple (shlStep bs) a.limbs 0).2]) with hout
  have hne : out ≠ [] := by simp [hout]
  have hval : value out = a.magnitude * 2 ^ (64 * ws + bs) := by
    have hshl := value_ripple_shlStep (by omega : bs ≤ 64) a.limbs
    have hzero : value (List.replicate ws (0 : BitVec 64)) = 0 := value_replicate_zero ws
    rw [hout, value_append, value_append, length_ripple, hzero, value_cons, value_nil,
      Nat.mul_zero, Nat.add_zero, Nat.zero_add, List.length_replicate, hshl, pow_add, pow_mul,
      Bignum.magnitude]
    ring
  refine ⟨bignumTrim a.sign out, ?_, bignumTrim_normalized fun hs => ?_, ?_, ?_⟩
  · simp only [shiftLeft, ← hws, ← hbs, hnew, bignumAlloc, hroom, if_true, halloc, hloop,
      ok_bind]
  · rw [hval]
    exact Nat.mul_ne_zero (ha.2 hs) (by positivity)
  · rw [payloadFits_iff]
    have hlen : out.length = ws + (a.numLimbs + 1) := by
      rw [hout, List.length_append, List.length_append, length_ripple, List.length_replicate]
      rfl
    have := numLimbs_bignumTrim_le a.sign hne
    omega
  · rw [Bignum.toInt, sign_bignumTrim, magnitude_bignumTrim, hval, Bignum.toInt]
    push_cast
    split
    · ring
    · rfl

theorem shiftLeft_spec {a : Bignum} (ha : a.Normalized) {count : Int64}
    (hpos : 0 < count.toInt)
    (hroom : payloadFits (a.numLimbs + (count.toInt / 64).toNat + 1) = true) :
    ∃ r, shiftLeft a count = .ok (some r) ∧ r.Normalized ∧ payloadFits r.numLimbs = true ∧
      r.toInt = a.toInt * 2 ^ count.toInt.toNat := by
  have hroom' := payloadFits_iff.mp hroom
  have hmod : (count.toInt / 64).toNat % 2 ^ 32 = (count.toInt / 64).toNat :=
    Nat.mod_eq_of_lt (by omega)
  have hcount : 64 * (count.toInt / 64).toNat + (count.toInt % 64).toNat = count.toInt.toNat := by
    omega
  have hspec := shiftLeft_words_spec ha (by rwa [hmod])
  rwa [hmod, hcount] at hspec

theorem shiftLeft_undefined {a : Bignum} (hfit : payloadFits a.numLimbs = true) {count : Int64}
    (hwrap : 2 ^ 32 ≤ a.numLimbs + (count.toInt / 64).toNat % 2 ^ 32 + 1) :
    shiftLeft a count = .error .undefined := by
  set ws := (count.toInt / 64).toNat % 2 ^ 32 with hws
  have hle := payloadFits_iff.mp hfit
  have hlt : ws < 2 ^ 32 := Nat.mod_lt _ (by norm_num)
  have hnew : (a.numLimbs + ws + 1) % 2 ^ 32 = a.numLimbs + ws + 1 - 2 ^ 32 := by
    rw [Nat.mod_eq_sub_mod hwrap, Nat.mod_eq_of_lt (by omega)]
  have hroom : payloadFits (a.numLimbs + ws + 1 - 2 ^ 32) = true := by
    rw [payloadFits_iff]
    omega
  have hcons : a.limbs = a.limbs.head a.limbs_ne_nil :: a.limbs.tail :=
    (List.cons_head_tail a.limbs_ne_nil).symm
  simp only [shiftLeft, ← hws, hnew, bignumAlloc, hroom, if_true]
  rw [hcons, shiftLeftLoop, orAt, dif_neg, error_bind, error_bind]
  rw [List.length_replicate, Nat.zero_add, Nat.mod_eq_of_lt hlt]
  omega

/-! ### Shifting down -/

theorem shiftRightLoop_eq {bitShift : ℕ} (l : List (BitVec 64)) :
    shiftRightLoop bitShift l = (rippleDown (shrStep bitShift) l 0).1 := by
  have hshift : ∀ x : BitVec 64, (if bitShift = 0 then x else x >>> bitShift) = x >>> bitShift := by
    intro x
    split
    next h => rw [h, BitVec.ushiftRight_zero]
    next h => rfl
  induction l with
  | nil => rfl
  | cons x l ih =>
    cases l with
    | nil =>
      have hor : x >>> bitShift ||| (0 : BitVec 64) = x >>> bitShift := BitVec.or_zero
      simp only [shiftRightLoop, hshift, rippleDown, shrStep, hor]
    | cons y al =>
      have hcarry : (rippleDown (shrStep bitShift) (y :: al) 0).2 = y <<< (64 - bitShift) := rfl
      have hdown : (rippleDown (shrStep bitShift) (x :: y :: al) 0).1
          = (x >>> bitShift ||| (rippleDown (shrStep bitShift) (y :: al) 0).2)
            :: (rippleDown (shrStep bitShift) (y :: al) 0).1 := rfl
      rw [hdown, hcarry, shiftRightLoop, ih]
      simp only [hshift]
      split
      next h => rfl
      next h =>
          have hzero : bitShift = 0 := by omega
          have hy : y <<< 64 = 0 := BitVec.shiftLeft_eq_zero (le_refl 64)
          have hor : x >>> 0 ||| (0 : BitVec 64) = x >>> 0 := BitVec.or_zero
          rw [hzero, Nat.sub_zero, hy, hor]

theorem value_shiftRightLoop {bitShift : ℕ} (hb : bitShift ≤ 64) (l : List (BitVec 64)) :
    value (shiftRightLoop bitShift l) = value l / 2 ^ bitShift := by
  rw [shiftRightLoop_eq, value_rippleDown_shrStep hb]

theorem eshkolBignumIsZero_bignumTrim (s : Bool) (l : List (BitVec 64)) :
    eshkolBignumIsZero (bignumTrim s l) = true ↔ value l = 0 := by
  -- The test ignores the sign, and without a sign the trimmed number is normalized.
  have hsign : eshkolBignumIsZero (bignumTrim s l) = eshkolBignumIsZero (bignumTrim false l) := by
    unfold bignumTrim
    split <;> rfl
  rw [hsign, eshkolBignumIsZero_iff (bignumTrim_normalized (by simp)), Bignum.toInt_eq_zero_iff,
    magnitude_bignumTrim]

/-- The number of bits a right shift by `count` moves: its limb count is cut to 32 bits. -/
def rightShiftBits (count : ℤ) : ℕ := 64 * ((-count / 64).toNat % 2 ^ 32) + (-count % 64).toNat

/-- A right shift truncates, but for negative numbers that are shifted out. -/
theorem shiftRight_spec {a : Bignum} (ha : a.Normalized) (hfit : payloadFits a.numLimbs = true)
    {count : Int64} (hneg : count.toInt < 0) (hmin : count.toInt ≠ -2 ^ 63) :
    ∃ r, shiftRight a count = .ok (some r) ∧ r.Normalized ∧
      r.toInt = if a.toInt < 0 ∧ a.magnitude < 2 ^ rightShiftBits count.toInt then -1
        else a.toInt.tdiv (2 ^ rightShiftBits count.toInt) := by
  have hlo := count.le_toInt
  set ws := (-count.toInt / 64).toNat % 2 ^ 32 with hws
  set bs := (-count.toInt % 64).toNat with hbs
  have hbits : rightShiftBits count.toInt = 64 * ws + bs := rfl
  have hsigned : (signed 64 (-count.toInt) : Exec Exn ℤ) = .ok (-count.toInt) :=
    signed_eq_ok (by norm_num; omega) (by norm_num; omega)
  have hzero : a.magnitude / 2 ^ rightShiftBits count.toInt = 0
      ↔ a.magnitude < 2 ^ rightShiftBits count.toInt :=
    Nat.div_eq_zero_iff_lt (by positivity)
  -- A truncating quotient, by the sign of the operand.
  have htdiv : a.toInt.tdiv (2 ^ rightShiftBits count.toInt)
      = if a.sign then -((a.magnitude / 2 ^ rightShiftBits count.toInt : ℕ) : ℤ)
        else (a.magnitude / 2 ^ rightShiftBits count.toInt : ℕ) := by
    rw [Bignum.toInt]
    push_cast
    split
    · rw [Int.neg_tdiv, Int.tdiv_eq_ediv_of_nonneg (by positivity)]
    · rw [Int.tdiv_eq_ediv_of_nonneg (by positivity)]
  rw [shiftRight, hsigned, ok_bind]
  simp only [← hws, ← hbs, htdiv, ← ha.sign_eq_true_iff, ← hzero]
  split
  next hall =>
      have hmag : a.magnitude / 2 ^ rightShiftBits count.toInt = 0 := by
        rw [hzero]
        calc a.magnitude < (2 ^ 64) ^ a.numLimbs := value_lt a.limbs
          _ = 2 ^ (64 * a.numLimbs) := (pow_mul 2 64 _).symm
          _ ≤ 2 ^ rightShiftBits count.toInt := Nat.pow_le_pow_right (by omega) (by omega)
      refine ⟨_, rfl, ?_, ?_⟩
      · split <;> exact eshkolBignumFromInt64_normalized _
      · cases hs : a.sign with
        | true => simp [hmag]
        | false => simp [hmag]
  next hsome =>
      have hfit' : payloadFits (a.numLimbs - ws) = true := by
        rw [payloadFits_iff] at hfit ⊢
        omega
      have hval : value (shiftRightLoop bs (a.limbs.drop ws))
          = a.magnitude / 2 ^ rightShiftBits count.toInt := by
        rw [value_shiftRightLoop (by omega), value_drop, Nat.div_div_eq_div_mul, hbits, pow_add,
          pow_mul, Bignum.magnitude]
      have hisZero := eshkolBignumIsZero_bignumTrim a.sign (shiftRightLoop bs (a.limbs.drop ws))
      rw [hval] at hisZero
      simp only [bignumAlloc, hfit', if_true, Bool.and_eq_true, hisZero]
      refine ⟨_, rfl, ?_, ?_⟩
      · split
        next h => exact eshkolBignumFromInt64_normalized _
        next h => exact bignumTrim_normalized fun hs hz => h ⟨hs, hval ▸ hz⟩
      · split
        next h => rfl
        next h => rw [Bignum.toInt, sign_bignumTrim, magnitude_bignumTrim, hval]

/-! ### Exactness -/

/-- The arithmetic shift: a product, or a quotient rounded down. -/
def arithmeticShift (x count : ℤ) : ℤ :=
  if 0 ≤ count then x * 2 ^ count.toNat else x / 2 ^ (-count).toNat

/-- There is an object that holds the integer. -/
def Allocatable (x : ℤ) : Prop :=
  ∃ r : Bignum, r.Normalized ∧ payloadFits r.numLimbs = true ∧ r.toInt = x

/-- The shift returns the arithmetic shift. -/
def ShiftExact (a : Bignum) (count : Int64) : Prop :=
  ∃ r, eshkolBignumShift a count = .ok (some r) ∧ r.Normalized ∧
    r.toInt = arithmeticShift a.toInt count.toInt

theorem truncated_eq_ediv_iff (x : ℤ) (s : ℕ) :
    (if x < 0 ∧ x.natAbs < 2 ^ s then -1 else x.tdiv (2 ^ s)) = x / 2 ^ s ↔
      0 ≤ x ∨ 2 ^ s ∣ x ∨ x.natAbs < 2 ^ s := by
  have hpos : (0 : ℤ) < 2 ^ s := by positivity
  rcases le_or_gt 0 x with hx | hx
  · rw [if_neg (by omega), Int.tdiv_eq_ediv_of_nonneg hx]
    exact iff_of_true rfl (Or.inl hx)
  · by_cases hs : x.natAbs < 2 ^ s
    · have hle : -x ≤ 2 ^ s := by
        have : (x.natAbs : ℤ) < 2 ^ s := by exact_mod_cast hs
        omega
      rw [if_pos ⟨hx, hs⟩, Int.ediv_eq_neg_one_of_neg_of_le hx hle]
      exact iff_of_true rfl (Or.inr (Or.inr hs))
    · rw [if_neg (fun h => hs h.2), Int.tdiv_eq_ediv, Int.sign_eq_one_of_pos hpos]
      constructor
      · intro h
        split at h
        next hd => exact hd.imp_right Or.inl
        next hd => omega
      · rintro (h | h | h)
        · omega
        · rw [if_pos (Or.inr h), add_zero]
        · exact absurd h hs

theorem truncated_eq_sign_iff {x : ℤ} (hx : x ≠ 0) (s : ℕ) :
    (if x < 0 ∧ x.natAbs < 2 ^ s then -1 else x.tdiv (2 ^ s)) = (if x < 0 then -1 else 0) ↔
      x.natAbs < 2 ^ s ∨ (x < 0 ∧ x.natAbs < 2 ^ (s + 1)) := by
  have hpow : (2 : ℕ) ^ (s + 1) = 2 * 2 ^ s := pow_succ' 2 s
  rcases lt_or_gt_of_ne hx with hneg | hpos
  · rw [if_pos hneg]
    by_cases hs : x.natAbs < 2 ^ s
    · rw [if_pos ⟨hneg, hs⟩]
      exact iff_of_true rfl (Or.inl hs)
    · have htdiv : x.tdiv (2 ^ s) = -((x.natAbs / 2 ^ s : ℕ) : ℤ) := by
        rw [show x = -(x.natAbs : ℤ) by omega, Int.neg_tdiv,
          Int.tdiv_eq_ediv_of_nonneg (by positivity)]
        push_cast
        simp
      have hone : x.natAbs / 2 ^ s = 1 ↔ x.natAbs < 2 ^ (s + 1) := by
        rw [Nat.div_eq_iff (by positivity), hpow]
        omega
      rw [if_neg (fun h => hs h.2), htdiv, ← hone]
      omega
  · have htdiv : x.tdiv (2 ^ s) = ((x.natAbs / 2 ^ s : ℕ) : ℤ) := by
      rw [show x = (x.natAbs : ℤ) by omega, Int.tdiv_eq_ediv_of_nonneg (by positivity)]
      push_cast
      simp
    have hzero : x.natAbs / 2 ^ s = 0 ↔ x.natAbs < 2 ^ s := Nat.div_eq_zero_iff_lt (by positivity)
    rw [if_neg (by omega), if_neg (by omega), htdiv, ← hzero]
    omega

theorem numLimbs_add_le_of_allocatable {a : Bignum} (ha : a.Normalized) (ha0 : a.toInt ≠ 0)
    {k : ℕ} (h : Allocatable (a.toInt * 2 ^ k)) : a.numLimbs + k / 64 ≤ 2 ^ 29 - 2 := by
  obtain ⟨r, -, hfit, hr⟩ := h
  have hmag : r.magnitude = a.magnitude * 2 ^ k := by
    rw [← r.natAbs_toInt, hr, Int.natAbs_mul, a.natAbs_toInt, Int.natAbs_pow]
    rfl
  have hlow : (2 ^ 64) ^ (a.numLimbs - 1) ≤ a.magnitude := by
    by_cases h1 : 1 < a.numLimbs
    · exact ha.le_magnitude h1
    · rw [show a.numLimbs - 1 = 0 by omega, pow_zero]
      exact Nat.one_le_iff_ne_zero.mpr fun h => ha0 (Bignum.toInt_eq_zero_iff.mpr h)
  have hlt : 2 ^ (64 * (a.numLimbs - 1) + k) < 2 ^ (64 * r.numLimbs) :=
    calc 2 ^ (64 * (a.numLimbs - 1) + k)
        = (2 ^ 64) ^ (a.numLimbs - 1) * 2 ^ k := by rw [pow_add, pow_mul]
      _ ≤ a.magnitude * 2 ^ k := Nat.mul_le_mul_right _ hlow
      _ = r.magnitude := hmag.symm
      _ < (2 ^ 64) ^ r.numLimbs := value_lt r.limbs
      _ = 2 ^ (64 * r.numLimbs) := (pow_mul 2 64 _).symm
  have hexp := (Nat.pow_lt_pow_iff_right (by decide)).mp hlt
  have hpos := a.numLimbs_pos
  have := payloadFits_iff.mp hfit
  omega

theorem shiftLeft_eq_none {a : Bignum} {count : Int64}
    (hlt : a.numLimbs + (count.toInt / 64).toNat % 2 ^ 32 + 1 < 2 ^ 32)
    (hroom : ¬ payloadFits (a.numLimbs + (count.toInt / 64).toNat % 2 ^ 32 + 1) = true) :
    shiftLeft a count = .ok none := by
  simp only [shiftLeft, Nat.mod_eq_of_lt hlt, bignumAlloc, if_neg hroom]

section

variable {a : Bignum} (ha : a.Normalized) {count : Int64}
include ha

theorem eshkolBignumShift_zero (h : a.toInt = 0 ∨ count.toInt = 0) :
    eshkolBignumShift a count = .ok (some (eshkolBignumFromInt64 0)) := by
  rw [eshkolBignumShift, if_pos]
  rw [Bool.or_eq_true, eshkolBignumIsZero_iff ha, beq_iff_eq, ← Int64.toInt_inj]
  exact h

theorem eshkolBignumShift_left (ha0 : a.toInt ≠ 0) (h : 0 < count.toInt) :
    eshkolBignumShift a count = shiftLeft a count := by
  rw [eshkolBignumShift, if_neg, if_pos h]
  rw [Bool.or_eq_true, eshkolBignumIsZero_iff ha, beq_iff_eq, ← Int64.toInt_inj]
  rintro (h1 | h1)
  · exact ha0 h1
  · rw [h1] at h
    exact lt_irrefl _ h

theorem eshkolBignumShift_right (ha0 : a.toInt ≠ 0) (h : count.toInt < 0) :
    eshkolBignumShift a count = shiftRight a count := by
  rw [eshkolBignumShift, if_neg, if_neg h.not_gt]
  rw [Bool.or_eq_true, eshkolBignumIsZero_iff ha, beq_iff_eq, ← Int64.toInt_inj]
  rintro (h1 | h1)
  · exact ha0 h1
  · rw [h1] at h
    exact lt_irrefl _ h

theorem shiftExact_of_zero (h : a.toInt = 0) : ShiftExact a count := by
  refine ⟨_, eshkolBignumShift_zero ha (Or.inl h), eshkolBignumFromInt64_normalized 0, ?_⟩
  rw [arithmeticShift, h]
  split <;> simp

theorem shiftExact_count_zero_iff (hk : count.toInt = 0) : ShiftExact a count ↔ a.toInt = 0 := by
  constructor
  · rintro ⟨r, hr, -, hval⟩
    rw [eshkolBignumShift_zero ha (Or.inr hk)] at hr
    cases hr
    rw [arithmeticShift, hk] at hval
    simpa using hval.symm
  · exact shiftExact_of_zero ha

theorem shiftExact_left_iff (ha0 : a.toInt ≠ 0) (hk : 0 < count.toInt)
    (halloc : Allocatable (arithmeticShift a.toInt count.toInt)) :
    ShiftExact a count ↔ payloadFits (a.numLimbs + (count.toInt / 64).toNat + 1) = true := by
  rw [arithmeticShift, if_pos hk.le] at halloc
  constructor
  · rintro ⟨r, hr, -⟩
    by_contra hroom
    have hle := numLimbs_add_le_of_allocatable ha ha0 halloc
    have hmod : (count.toInt / 64).toNat % 2 ^ 32 = (count.toInt / 64).toNat :=
      Nat.mod_eq_of_lt (by omega)
    rw [eshkolBignumShift_left ha ha0 hk,
      shiftLeft_eq_none (by omega) (by rwa [hmod])] at hr
    cases hr
  · intro hroom
    obtain ⟨r, hr, hnorm, -, hval⟩ := shiftLeft_spec ha hk hroom
    refine ⟨r, by rw [eshkolBignumShift_left ha ha0 hk, hr], hnorm, ?_⟩
    rw [hval, arithmeticShift, if_pos hk.le]

theorem shiftExact_right_iff (hfit : payloadFits a.numLimbs = true) (ha0 : a.toInt ≠ 0)
    (hk : count.toInt < 0) :
    ShiftExact a count ↔ count.toInt ≠ -2 ^ 63 ∧
      (if a.toInt < 0 ∧ a.toInt.natAbs < 2 ^ rightShiftBits count.toInt then -1
        else a.toInt.tdiv (2 ^ rightShiftBits count.toInt))
      = a.toInt / 2 ^ (-count.toInt).toNat := by
  have hshift := eshkolBignumShift_right ha ha0 hk
  have hgoal : arithmeticShift a.toInt count.toInt = a.toInt / 2 ^ (-count.toInt).toNat := by
    rw [arithmeticShift, if_neg (by omega)]
  rw [a.natAbs_toInt]
  constructor
  · rintro ⟨r, hr, -, hval⟩
    rw [hshift] at hr
    have hmin : count.toInt ≠ -2 ^ 63 := by
      intro h
      rw [shiftRight, h, signed_eq_undefined (by norm_num), error_bind] at hr
      cases hr
    obtain ⟨r', hr', -, hval'⟩ := shiftRight_spec ha hfit hk hmin
    rw [hr] at hr'
    cases hr'
    exact ⟨hmin, by rw [← hval', hval, hgoal]⟩
  · rintro ⟨hmin, heq⟩
    obtain ⟨r, hr, hnorm, hval⟩ := shiftRight_spec ha hfit hk hmin
    exact ⟨r, by rw [hshift, hr], hnorm, by rw [hval, heq, hgoal]⟩

end

theorem rightShiftBits_eq {k : ℤ} (hlo : -2 ^ 38 < k) (hk : k < 0) :
    rightShiftBits k = (-k).toNat := by
  rw [rightShiftBits, Nat.mod_eq_of_lt (by omega)]
  omega

theorem ediv_of_payloadFits {a : Bignum} (hfit : payloadFits a.numLimbs = true) {k : ℕ}
    (hk : 2 ^ 38 ≤ k) : a.toInt / 2 ^ k = if a.toInt < 0 then -1 else 0 := by
  have hle := payloadFits_iff.mp hfit
  have hlt : a.magnitude < 2 ^ k :=
    calc a.magnitude < (2 ^ 64) ^ a.numLimbs := value_lt a.limbs
      _ = 2 ^ (64 * a.numLimbs) := (pow_mul 2 64 _).symm
      _ ≤ 2 ^ k := Nat.pow_le_pow_right (by omega) (by omega)
  have hlt' : (a.magnitude : ℤ) < 2 ^ k := by exact_mod_cast hlt
  have habs := a.natAbs_toInt
  split
  next h => exact Int.ediv_eq_neg_one_of_neg_of_le h (by omega)
  next h => exact Int.ediv_eq_zero_of_lt (by omega) (by omega)

/-- The counts for which a shift is defined: the negated count is in range, and the limb
count of the array does not wrap. -/
def ShiftDefined (a : Bignum) (count : Int64) : Prop :=
  a.toInt = 0 ∨ (count.toInt ≠ -2 ^ 63 ∧
    (0 < count.toInt → a.numLimbs + (count.toInt / 64).toNat % 2 ^ 32 + 1 < 2 ^ 32))

theorem eshkolBignumShift_normalized {a : Bignum} (ha : a.Normalized)
    (hfit : payloadFits a.numLimbs = true) {count : Int64} (h : ShiftDefined a count) :
    ∃ out, eshkolBignumShift a count = .ok out ∧ ∀ r, out = some r → r.Normalized := by
  by_cases hzero : a.toInt = 0 ∨ count.toInt = 0
  · refine ⟨_, eshkolBignumShift_zero ha hzero, ?_⟩
    rintro r ⟨rfl⟩
    exact eshkolBignumFromInt64_normalized 0
  · obtain ⟨ha0, hk0⟩ := not_or.mp hzero
    obtain ⟨hmin, hwrap⟩ := h.resolve_left ha0
    rcases lt_or_gt_of_ne hk0 with hk | hk
    · obtain ⟨r, hr, hnorm, -⟩ := shiftRight_spec ha hfit hk hmin
      refine ⟨some r, by rw [eshkolBignumShift_right ha ha0 hk, hr], ?_⟩
      rintro r' ⟨rfl⟩
      exact hnorm
    · rw [eshkolBignumShift_left ha ha0 hk]
      by_cases hroom : payloadFits (a.numLimbs + (count.toInt / 64).toNat % 2 ^ 32 + 1) = true
      · obtain ⟨r, hr, hnorm, -⟩ := shiftLeft_words_spec ha hroom
        refine ⟨some r, hr, ?_⟩
        rintro r' ⟨rfl⟩
        exact hnorm
      · exact ⟨none, shiftLeft_eq_none (hwrap hk) hroom, by simp⟩

theorem eshkolBignumShift_undefined {a : Bignum} (ha : a.Normalized)
    (hfit : payloadFits a.numLimbs = true) {count : Int64} (h : ¬ ShiftDefined a count) :
    eshkolBignumShift a count = .error .undefined := by
  obtain ⟨ha0, hbad⟩ := not_or.mp h
  by_cases hmin : count.toInt = -2 ^ 63
  · rw [eshkolBignumShift_right ha ha0 (by omega), shiftRight, hmin,
      signed_eq_undefined (by norm_num), error_bind]
  · have hwrap : ¬ (0 < count.toInt →
        a.numLimbs + (count.toInt / 64).toNat % 2 ^ 32 + 1 < 2 ^ 32) :=
      fun h' => hbad ⟨hmin, h'⟩
    obtain ⟨hk, hle⟩ := Classical.not_imp.mp hwrap
    rw [eshkolBignumShift_left ha ha0 hk, shiftLeft_undefined hfit (not_lt.mp hle)]

/-- A left shift is undone by the right shift. -/
theorem shift_round_trip {a : Bignum} (ha : a.Normalized) {count : Int64}
    (hk : 0 ≤ count.toInt) (h : ShiftExact a count)
    (hroom : count.toInt ≠ 0 → a.toInt ≠ 0 →
      payloadFits (a.numLimbs + (count.toInt / 64).toNat + 1) = true) :
    ∃ r s, eshkolBignumShift a count = .ok (some r) ∧
      eshkolBignumShift r (-count) = .ok (some s) ∧ s.toInt = a.toInt := by
  by_cases ha0 : a.toInt = 0
  · have hzero : eshkolBignumShift (eshkolBignumFromInt64 0) (-count)
        = .ok (some (eshkolBignumFromInt64 0)) :=
      eshkolBignumShift_zero (eshkolBignumFromInt64_normalized 0)
        (Or.inl (toInt_eshkolBignumFromInt64 0))
    exact ⟨_, _, eshkolBignumShift_zero ha (Or.inl ha0), hzero, by rw [ha0]; rfl⟩
  · have hpos : 0 < count.toInt := by
      rcases hk.lt_or_eq with h1 | h1
      · exact h1
      · exact absurd ((shiftExact_count_zero_iff ha h1.symm).mp h) ha0
    have hroom' := hroom hpos.ne' ha0
    obtain ⟨r, hr, hnorm, hfit, hval⟩ := shiftLeft_spec ha hpos hroom'
    have hsmall := payloadFits_iff.mp hroom'
    have hr0 : r.toInt ≠ 0 := by
      rw [hval]
      exact mul_ne_zero ha0 (by positivity)
    have hneg : (-count).toInt = -count.toInt := by
      rw [Int64.toInt_neg, Int.bmod_eq_of_le (by omega) (by omega)]
    have hbits : rightShiftBits (-count.toInt) = count.toInt.toNat := by
      rw [rightShiftBits_eq (by omega) (by omega), neg_neg]
    have hneg' : (-count).toInt < 0 := by omega
    obtain ⟨s, hs, -, hsval⟩ := shiftRight_spec hnorm hfit hneg' (by omega)
    refine ⟨r, s, by rw [eshkolBignumShift_left ha ha0 hpos, hr],
      by rw [eshkolBignumShift_right hnorm hr0 hneg', hs], ?_⟩
    rw [hsval, hneg, hbits, ← r.natAbs_toInt, (truncated_eq_ediv_iff _ _).mpr, hval,
      Int.mul_ediv_cancel _ (by positivity)]
    exact Or.inr (Or.inl (hval ▸ Dvd.intro_left _ rfl))

/-- **Arithmetic shift, with exact conditions.** For a number that is an object and a count
whose result is one, the shift is right for zero; to the left, when the array with its spare
limb can be allocated; to the right, when nothing is lost below a negative number or all of
it is, and for counts whose limb count does not fit 32 bits, when the bits that are moved
leave what they should. It is wrong for the count zero. Where a left shift is right, shifting
back is, too. -/
theorem eshkolBignumShift_iff {a : Bignum} (ha : a.Normalized)
    (hfit : payloadFits a.numLimbs = true) {count : Int64}
    (halloc : Allocatable (arithmeticShift a.toInt count.toInt)) :
    (ShiftExact a count ↔ a.toInt = 0 ∨
      (0 < count.toInt ∧ payloadFits (a.numLimbs + (count.toInt / 64).toNat + 1) = true) ∨
      (-2 ^ 38 < count.toInt ∧ count.toInt < 0 ∧ (0 ≤ a.toInt ∨ 2 ^ (-count.toInt).toNat ∣ a.toInt ∨
          a.toInt.natAbs < 2 ^ (-count.toInt).toNat)) ∨
      (-2 ^ 63 < count.toInt ∧ count.toInt ≤ -2 ^ 38 ∧
        (a.toInt.natAbs < 2 ^ rightShiftBits count.toInt ∨
          (a.toInt < 0 ∧ a.toInt.natAbs < 2 ^ (rightShiftBits count.toInt + 1))))) ∧
    (0 ≤ count.toInt → ShiftExact a count → ∃ r s, eshkolBignumShift a count = .ok (some r) ∧
        eshkolBignumShift r (-count) = .ok (some s) ∧ s.toInt = a.toInt) := by
  have hlo := count.le_toInt
  constructor
  · by_cases ha0 : a.toInt = 0
    · exact iff_of_true (shiftExact_of_zero ha ha0) (Or.inl ha0)
    rcases lt_trichotomy count.toInt 0 with hk | hk | hk
    · rw [shiftExact_right_iff ha hfit ha0 hk]
      rcases lt_or_ge (-2 ^ 38) count.toInt with hbig | hbig
      · rw [rightShiftBits_eq hbig hk, truncated_eq_ediv_iff]
        constructor
        · rintro ⟨-, h⟩
          exact Or.inr (Or.inr (Or.inl ⟨hbig, hk, h⟩))
        · rintro (h | ⟨h, -⟩ | ⟨-, -, h⟩ | ⟨-, h, -⟩)
          · exact absurd h ha0
          · omega
          · exact ⟨by omega, h⟩
          · omega
      · rw [ediv_of_payloadFits hfit (by omega), truncated_eq_sign_iff ha0]
        constructor
        · rintro ⟨hmin, h⟩
          exact Or.inr (Or.inr (Or.inr ⟨by omega, hbig, h⟩))
        · rintro (h | ⟨h, -⟩ | ⟨h, -⟩ | ⟨h, -, h'⟩)
          · exact absurd h ha0
          · omega
          · omega
          · exact ⟨by omega, h'⟩
    · rw [shiftExact_count_zero_iff ha hk]
      constructor
      · exact fun h => absurd h ha0
      · rintro (h | ⟨h, -⟩ | ⟨-, h, -⟩ | ⟨-, h, -⟩)
        · exact h
        · omega
        · omega
        · omega
    · rw [shiftExact_left_iff ha ha0 hk halloc]
      constructor
      · exact fun h => Or.inr (Or.inl ⟨hk, h⟩)
      · rintro (h | ⟨-, h⟩ | ⟨-, h, -⟩ | ⟨-, h, -⟩)
        · exact absurd h ha0
        · exact h
        · omega
        · omega
  · intro hk h
    refine shift_round_trip ha hk h fun hk0 ha0 => ?_
    exact (shiftExact_left_iff ha ha0 (by omega) halloc).mp h

/-- `-12` moved down by two bits: nothing is lost. -/
theorem eshkolBignumShift_iff_neg_twelve : ShiftExact (eshkolBignumFromInt64 (-12)) (-2) :=
  (eshkolBignumShift_iff (eshkolBignumFromInt64_normalized _) (by decide)
    ⟨eshkolBignumFromInt64 (-3), by decide, by decide, by decide⟩).1.mpr
    (Or.inr (Or.inr (Or.inl (by decide))))

/-- A shift by zero is not the identity, and `-3` moved down by one bit is not `-2`. -/
theorem eshkolBignumShift_not_arithmetic :
    Allocatable (arithmeticShift (eshkolBignumFromInt64 1).toInt 0) ∧
    eshkolBignumShift (eshkolBignumFromInt64 1) 0 = .ok (some (eshkolBignumFromInt64 0)) ∧
    ¬ ShiftExact (eshkolBignumFromInt64 1) 0 ∧
    Allocatable (arithmeticShift (eshkolBignumFromInt64 (-3)).toInt (-1)) ∧
    eshkolBignumShift (eshkolBignumFromInt64 (-3)) (-1)
      = .ok (some (eshkolBignumFromInt64 (-1))) ∧
    ¬ ShiftExact (eshkolBignumFromInt64 (-3)) (-1) := by
  have hzero : eshkolBignumShift (eshkolBignumFromInt64 1) 0
      = .ok (some (eshkolBignumFromInt64 0)) := rfl
  have hneg : eshkolBignumShift (eshkolBignumFromInt64 (-3)) (-1)
      = .ok (some (eshkolBignumFromInt64 (-1))) := rfl
  refine ⟨⟨eshkolBignumFromInt64 1, by decide, by decide, by decide⟩, hzero, ?_,
    ⟨eshkolBignumFromInt64 (-2), by decide, by decide, by decide⟩, hneg, ?_⟩
  · rintro ⟨r, hr, -, hval⟩
    rw [hzero] at hr
    cases hr
    revert hval
    decide
  · rintro ⟨r, hr, -, hval⟩
    rw [hneg] at hr
    cases hr
    revert hval
    decide

end Eshkol
