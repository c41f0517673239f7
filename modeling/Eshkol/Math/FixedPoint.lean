import Eshkol.Machine.Exec
import Eshkol.Radix.Arith
import Eshkol.Radix.Wide
import Eshkol.Ratio.Rounding

/-!
# Fixed-Point Arithmetic

The parametric fixed-point engine (`lib/math/fixed_point/eshkol_fixed_point.c`). A value is
an integer `raw`, held in 128 bits whatever its format, that stands for `raw / 2 ^ F`; in a
format of width `W` it lies in the signed range of `W` bits. Results that leave the range
are wrapped or clamped, and reported.

Words of type `esk_u128` and `esk_i128` are both `BitVec 128`. Unsigned operations and the
`__builtin` operations wrap; the one signed operation that can overflow is the negation at
the end of `signmag_to_W`, which is checked. The out parameter `overflow` is a component of
the result, and the generator of the stochastic mode is passed through.
-/

namespace Eshkol.FixedPoint

open Machine Ratio Radix

/-! ### Definitions -/

/-- `esk_round_mode`. -/
inductive RoundMode
  | truncate
  | nearestEven
  | stochastic
  deriving DecidableEq, Repr

/-- `esk_overflow_mode`. -/
inductive OverflowMode
  | wrap
  | saturate
  deriving DecidableEq, Repr

structure EskFixed where
  raw : BitVec 128
  W : ℕ
  F : ℕ
  deriving DecidableEq

/-- The invariant of `esk_fixed`: a supported width, a fraction below it, and a raw value in
range. -/
structure EskFixed.Valid (a : EskFixed) : Prop where
  width : a.W = 32 ∨ a.W = 64 ∨ a.W = 128
  frac_lt : a.F < a.W
  lower : -2 ^ (a.W - 1) ≤ a.raw.toInt
  upper : a.raw.toInt < 2 ^ (a.W - 1)

def eskI128Max : BitVec 128 := 1#128 <<< 127 - 1#128

def eskI128Min : BitVec 128 := 1#128 <<< 127

def eskFixedWmax (W : ℕ) : BitVec 128 := if 128 ≤ W then eskI128Max else 1#128 <<< (W - 1) - 1#128

/-- `esk_fixed_wmin`. The negated word is positive. -/
def eskFixedWmin (W : ℕ) : BitVec 128 := if 128 ≤ W then eskI128Min else -(1#128 <<< (W - 1))

/-- `clamp_to_W`, with the overflow flag. -/
def clampToW (v : BitVec 128) (W : ℕ) (of : OverflowMode) (dirHint : ℤ) (wrapped128 : Bool) :
    BitVec 128 × Bool :=
  let lo := eskFixedWmin W
  let hi := eskFixedWmax W
  if 128 ≤ W then
    if !wrapped128 then (v, false)
    else
      match of with
      | .saturate => (if 0 ≤ dirHint then hi else lo, true)
      | .wrap => (v, true)
  else if lo.toInt ≤ v.toInt ∧ v.toInt ≤ hi.toInt then (v, false)
  else
    match of with
    | .saturate => (if hi.toInt < v.toInt then hi else lo, true)
    | .wrap =>
      let mask := 1#128 <<< W - 1#128
      let u := v &&& mask
      (if u &&& 1#128 <<< (W - 1) ≠ 0 then u ||| ~~~mask else u, true)

def eskFixedAdd (a b : EskFixed) (of : OverflowMode) : EskFixed × Bool :=
  let dir := if 0 < a.raw.toInt ∧ 0 < b.raw.toInt then 1 else -1
  let out := clampToW (a.raw + b.raw) a.W of dir (a.raw.saddOverflow b.raw)
  (⟨out.1, a.W, a.F⟩, out.2)

def eskFixedSub (a b : EskFixed) (of : OverflowMode) : EskFixed × Bool :=
  let dir := if 0 ≤ a.raw.toInt ∧ b.raw.toInt < 0 then 1 else -1
  let out := clampToW (a.raw - b.raw) a.W of dir (a.raw.ssubOverflow b.raw)
  (⟨out.1, a.W, a.F⟩, out.2)

def eskFixedNeg (a : EskFixed) (of : OverflowMode) : EskFixed × Bool :=
  eskFixedSub ⟨0, a.W, a.F⟩ a of

/-- `esk_rng_next_u64` (SplitMix64): the output and the next state. -/
def eskRngNextU64 (state : BitVec 64) : BitVec 64 × BitVec 64 :=
  let state := state + 0x9E3779B97F4A7C15#64
  let z := (state ^^^ state >>> 30) * 0xBF58476D1CE4E5B9#64
  let z := (z ^^^ z >>> 27) * 0x94D049BB133111EB#64
  (z ^^^ z >>> 31, state)

def rngUniformBits (state : BitVec 64) (bits : ℕ) : BitVec 128 × BitVec 64 :=
  if bits = 0 then (0, state)
  else
    let hi := eskRngNextU64 state
    let lo := eskRngNextU64 hi.2
    let v := hi.1.setWidth 128 <<< 64 ||| lo.1.setWidth 128
    (if 128 ≤ bits then v else v &&& (1#128 <<< bits - 1#128), lo.2)

structure EskU256 where
  hi : BitVec 128
  lo : BitVec 128

/-- The number held. -/
def EskU256.toNat (p : EskU256) : ℕ := p.lo.toNat + 2 ^ 128 * p.hi.toNat

def umulU128 (a b : BitVec 128) : EskU256 :=
  let a0 := (a.setWidth 64).setWidth 128
  let a1 := ((a >>> 64).setWidth 64).setWidth 128
  let b0 := (b.setWidth 64).setWidth 128
  let b1 := ((b >>> 64).setWidth 64).setWidth 128
  let p00 := a0 * b0
  let p01 := a0 * b1
  let p10 := a1 * b0
  let p11 := a1 * b1
  let low (t : BitVec 128) : BitVec 128 := (t.setWidth 64).setWidth 128
  let t0 := p00
  let t1 := t0 >>> 64 + low p01 + low p10
  let t2 := t1 >>> 64 + p01 >>> 64 + p10 >>> 64 + low p11
  let t3 := t2 >>> 64 + p11 >>> 64
  ⟨low t3 <<< 64 ||| low t2, low t1 <<< 64 ||| low t0⟩

/-- Whether rounding adds one to the quotient `q`, and the state of the generator. -/
def roundsUp (mode : RoundMode) (q rem half : BitVec 128) (F : ℕ) (rng : BitVec 64) :
    Bool × BitVec 64 :=
  match mode with
  | .truncate => (false, rng)
  | .nearestEven => (half < rem ∨ rem = half ∧ 0 < F ∧ q &&& 1#128 ≠ 0, rng)
  | .stochastic =>
    let r := rngUniformBits rng F
    (r.1 < rem, r.2)

/-- `u256_round_shift`: the magnitude, `*ovf_hi`, and the state of the generator. -/
def u256RoundShift (p : EskU256) (F : ℕ) (mode : RoundMode) (rng : BitVec 64) :
    BitVec 128 × Bool × BitVec 64 :=
  let q := if F = 0 then p.lo else p.lo >>> F ||| p.hi <<< (128 - F)
  let rem := if F = 0 then 0 else p.lo &&& (1#128 <<< F - 1#128)
  let half := if F = 0 then 0 else 1#128 <<< (F - 1)
  let hipart := if F = 0 then p.hi else p.hi >>> F
  let up := roundsUp mode q rem half F rng
  let carried : Bool := up.1 ∧ q + 1#128 = 0
  (if up.1 then q + 1#128 else q, hipart ≠ 0 || carried, up.2)

/-- `signmag_to_W`, with the overflow flag. -/
def signmagToW (sign : ℤ) (mag : BitVec 128) (ovfHi : Bool) (W : ℕ) (of : OverflowMode) :
    Exec Empty (BitVec 128 × Bool) :=
  let maxPos := eskFixedWmax W
  let maxNeg := if 128 ≤ W then 1#128 <<< 127 else 1#128 <<< (W - 1)
  let exceeds : Bool := ovfHi || (if 0 ≤ sign then maxPos < mag else maxNeg < mag)
  if exceeds then
    match of with
    | .saturate => .ok (if 0 ≤ sign then eskFixedWmax W else eskFixedWmin W, true)
    | .wrap =>
      let v := if 0 ≤ sign then mag else ~~~mag + 1#128
      .ok ((clampToW v W .wrap sign (128 ≤ W)).1, true)
  else if 0 ≤ sign then .ok (mag, false)
  else do
    let negated ← signed 128 (-mag.toInt)
    .ok (BitVec.ofInt 128 negated, false)

/-- The magnitude of an operand in unsigned arithmetic. -/
def magnitude (v : BitVec 128) : BitVec 128 := if v.toInt < 0 then ~~~v + 1#128 else v

/-- The sign of the product or quotient of two operands. -/
def resultSign (a b : BitVec 128) : ℤ :=
  let sign := if a.toInt < 0 then -1 else 1
  if b.toInt < 0 then -sign else sign

def eskFixedMul (a b : EskFixed) (mode : RoundMode) (of : OverflowMode) (rng : BitVec 64) :
    Exec Empty ((EskFixed × Bool) × BitVec 64) := do
  let p := umulU128 (magnitude a.raw) (magnitude b.raw)
  let mag := u256RoundShift p a.F mode rng
  let out ← signmagToW (resultSign a.raw b.raw) mag.1 mag.2.1 a.W of
  .ok ((⟨out.1, a.W, a.F⟩, out.2), mag.2.2)

/-! ### What the operations are for -/

/-- `n` is the exact value `x` rounded: toward zero, to nearest with ties to even, or to one
of the two neighbours. -/
def Rounds : RoundMode → ℚ → ℤ → Prop
  | .truncate, x, n => n = truncate x
  | .nearestEven, x, n => NearestEven x n
  | .stochastic, x, n => |x - n| < 1

/-- `n` leaves the signed range of `W` bits. -/
def OutOfRange (W : ℕ) (n : ℤ) : Prop := n < -2 ^ (W - 1) ∨ 2 ^ (W - 1) ≤ n

/-- `n` reduced into the signed range of `W` bits, or clamped to it. -/
def narrow (of : OverflowMode) (W : ℕ) (n : ℤ) : ℤ :=
  match of with
  | .wrap => n.bmod (2 ^ W)
  | .saturate => max (-2 ^ (W - 1)) (min n (2 ^ (W - 1) - 1))

/-- A word and an overflow flag that hold `n` in `W` bits. -/
structure Narrowed (of : OverflowMode) (W : ℕ) (n : ℤ) (out : BitVec 128 × Bool) : Prop where
  raw : out.1.toInt = narrow of W n
  overflow : out.2 = true ↔ OutOfRange W n

/-! ### Narrowing -/

theorem eskFixedWmax_eq {W : ℕ} (hW : W = 32 ∨ W = 64 ∨ W = 128) :
    (eskFixedWmax W).toInt = 2 ^ (W - 1) - 1 ∧ (eskFixedWmax W).toNat = 2 ^ (W - 1) - 1 := by
  rcases hW with rfl | rfl | rfl <;> decide

theorem eskFixedWmin_eq {W : ℕ} (hW : W = 32 ∨ W = 64 ∨ W = 128) :
    (eskFixedWmin W).toInt = -2 ^ (W - 1) := by
  rcases hW with rfl | rfl | rfl <;> decide

theorem narrow_eq_self {of : OverflowMode} {W : ℕ} (hW : 0 < W) {n : ℤ}
    (h : ¬ OutOfRange W n) : narrow of W n = n := by
  rw [OutOfRange] at h
  cases of with
  | saturate =>
    change max (-2 ^ (W - 1)) (min n (2 ^ (W - 1) - 1)) = n
    omega
  | wrap =>
    have hpow : ((2 ^ W : ℕ) : ℤ) = 2 * 2 ^ (W - 1) := by
      push_cast
      rw [← pow_succ', Nat.sub_add_cancel hW]
    exact Int.bmod_eq_of_le_mul_two (by omega) (by omega)

theorem toNat_one_shiftLeft {i : ℕ} (hi : i < 128) : (1#128 <<< i).toNat = 2 ^ i := by
  rw [BitVec.toNat_shiftLeft, BitVec.toNat_one (by decide), Nat.one_shiftLeft,
    Nat.mod_eq_of_lt (Nat.pow_lt_pow_right (by omega) hi)]

theorem toNat_mask {i : ℕ} (hi : i < 128) : (1#128 <<< i - 1#128).toNat = 2 ^ i - 1 := by
  have hle : 1#128 ≤ 1#128 <<< i := by
    rw [BitVec.le_def, toNat_one_shiftLeft hi]
    exact Nat.one_le_two_pow
  rw [BitVec.toNat_sub_of_le hle, toNat_one_shiftLeft hi, BitVec.toNat_one (by decide)]

theorem toNat_and_mask (v : BitVec 128) {i : ℕ} (hi : i < 128) :
    (v &&& (1#128 <<< i - 1#128)).toNat = v.toNat % 2 ^ i := by
  rw [BitVec.toNat_and, toNat_mask hi, Nat.and_two_pow_sub_one_eq_mod]

theorem getLsbD_mask {W : ℕ} (hW : W < 128) (i : ℕ) :
    (1#128 <<< W - 1#128).getLsbD i = decide (i < W) := by
  rw [BitVec.getLsbD, toNat_mask hW, Nat.testBit_two_pow_sub_one]

theorem signExtend_mask (v : BitVec 128) {W : ℕ} (hpos : 0 < W) (hW : W < 128) :
    (if v &&& (1#128 <<< W - 1#128) &&& 1#128 <<< (W - 1) ≠ 0
        then v &&& (1#128 <<< W - 1#128) ||| ~~~(1#128 <<< W - 1#128)
        else v &&& (1#128 <<< W - 1#128)) = (v.setWidth W).signExtend 128 := by
  have hmask := getLsbD_mask hW
  have hsign : v &&& (1#128 <<< W - 1#128) &&& 1#128 <<< (W - 1) ≠ 0
      ↔ v.getLsbD (W - 1) = true := by
    rw [← BitVec.twoPow_eq _ (W - 1), BitVec.and_twoPow, BitVec.getLsbD_and, hmask]
    have hne : BitVec.twoPow 128 (W - 1) ≠ 0 := by
      intro h
      have hbit := congrArg (fun x => x.getLsbD (W - 1)) h
      simp [show W - 1 < 128 by omega] at hbit
    cases v.getLsbD (W - 1) with
    | false => simp
    | true => simpa [show W - 1 < W by omega] using hne
  have hmsb : (v.setWidth W).msb = v.getLsbD (W - 1) := by
    rw [BitVec.msb_eq_getLsbD_last, BitVec.getLsbD_setWidth]
    simp [hpos]
  apply BitVec.eq_of_getLsbD_eq
  intro i hi
  rw [BitVec.getLsbD_signExtend, hmsb, BitVec.getLsbD_setWidth]
  simp only [hsign]
  cases v.getLsbD (W - 1) with
  | false =>
    rw [if_neg (by simp), BitVec.getLsbD_and, hmask]
    by_cases h : i < W <;> simp [h, hi]
  | true =>
    rw [if_pos rfl, BitVec.getLsbD_or, BitVec.getLsbD_and, BitVec.getLsbD_not, hmask]
    by_cases h : i < W <;> simp [h, hi]

theorem clampToW_spec (v : BitVec 128) {W : ℕ} (hW : W = 32 ∨ W = 64) (of : OverflowMode)
    (dirHint : ℤ) (wrapped128 : Bool) :
    Narrowed of W v.toInt (clampToW v W of dirHint wrapped128) := by
  have hlo := eskFixedWmin_eq (W := W) (by omega)
  have hhi := (eskFixedWmax_eq (W := W) (by omega)).1
  unfold clampToW
  rw [if_neg (by omega)]
  by_cases h : OutOfRange W v.toInt
  · rw [if_neg (by rw [hlo, hhi]; rw [OutOfRange] at h; omega)]
    cases of with
    | saturate =>
      refine ⟨?_, iff_of_true rfl h⟩
      change (if (eskFixedWmax W).toInt < v.toInt then eskFixedWmax W else eskFixedWmin W).toInt
        = max (-2 ^ (W - 1)) (min v.toInt (2 ^ (W - 1) - 1))
      have hpos : (0 : ℤ) < 2 ^ (W - 1) := by positivity
      rw [OutOfRange] at h
      split
      next hgt => rw [hhi] at hgt ⊢; omega
      next hgt => rw [hhi] at hgt; rw [hlo]; omega
    | wrap =>
      refine ⟨?_, iff_of_true rfl h⟩
      change (if v &&& (1#128 <<< W - 1#128) &&& 1#128 <<< (W - 1) ≠ 0
        then v &&& (1#128 <<< W - 1#128) ||| ~~~(1#128 <<< W - 1#128)
        else v &&& (1#128 <<< W - 1#128)).toInt = v.toInt.bmod (2 ^ W)
      rw [signExtend_mask v (by omega) (by omega), BitVec.toInt_signExtend_of_le (by omega),
        BitVec.toInt_setWidth, BitVec.toInt_eq_toNat_bmod,
        Int.bmod_bmod_of_dvd (Nat.pow_dvd_pow 2 (by omega))]
  · rw [if_pos (by rw [hlo, hhi]; rw [OutOfRange] at h; omega)]
    exact ⟨(narrow_eq_self (by omega) h).symm, iff_of_false (by simp) h⟩

theorem clampToW_128_spec {v : BitVec 128} {n : ℤ} (hv : v.toInt = n.bmod (2 ^ 128))
    (of : OverflowMode) {dirHint : ℤ} {wrapped128 : Bool}
    (hwrapped : wrapped128 = true ↔ OutOfRange 128 n)
    (hdir : OutOfRange 128 n → (0 ≤ dirHint ↔ 0 ≤ n)) :
    Narrowed of 128 n (clampToW v 128 of dirHint wrapped128) := by
  unfold clampToW
  rw [if_pos le_rfl]
  cases wrapped128 with
  | false =>
    have h : ¬ OutOfRange 128 n := by
      rw [← hwrapped]
      simp
    refine ⟨?_, iff_of_false (by simp) h⟩
    rw [narrow_eq_self (by omega) h]
    exact hv.trans (@narrow_eq_self .wrap 128 (by omega) n h)
  | true =>
    have h : OutOfRange 128 n := hwrapped.mp rfl
    cases of with
    | wrap => exact ⟨hv, iff_of_true rfl h⟩
    | saturate =>
      refine ⟨?_, iff_of_true rfl h⟩
      have hhi := (eskFixedWmax_eq (W := 128) (by omega)).1
      have hlo := eskFixedWmin_eq (W := 128) (by omega)
      change (if 0 ≤ dirHint then eskFixedWmax 128 else eskFixedWmin 128).toInt
        = max (-2 ^ 127) (min n (2 ^ 127 - 1))
      have hd := hdir h
      rw [OutOfRange] at h
      split
      next hpos => rw [hhi]; omega
      next hpos => rw [hlo]; omega

theorem clampToW_of_bmod {W : ℕ} (hW : W = 32 ∨ W = 64 ∨ W = 128) {v : BitVec 128} {n : ℤ}
    (hv : v.toInt = n.bmod (2 ^ 128)) (hsmall : W ≠ 128 → ¬ OutOfRange 128 n)
    (of : OverflowMode) {dirHint : ℤ} {wrapped128 : Bool}
    (hwrapped : wrapped128 = true ↔ OutOfRange 128 n)
    (hdir : OutOfRange 128 n → (0 ≤ dirHint ↔ 0 ≤ n)) :
    Narrowed of W n (clampToW v W of dirHint wrapped128) := by
  by_cases h : W = 128
  · rw [h]
    exact clampToW_128_spec hv of hwrapped hdir
  · have hn : v.toInt = n := hv.trans (@narrow_eq_self .wrap 128 (by omega) n (hsmall h))
    rw [← hn]
    exact clampToW_spec v (by omega) of dirHint wrapped128

/-! ### Addition, subtraction and negation -/

/-- The result of an operation in the format `(W, F)` whose rounded exact outcome is `n`. -/
structure Delivers (of : OverflowMode) (W F : ℕ) (n : ℤ) (out : EskFixed × Bool) : Prop where
  width : out.1.W = W
  frac : out.1.F = F
  raw : out.1.raw.toInt = narrow of W n
  overflow : out.2 = true ↔ OutOfRange W n

theorem Narrowed.delivers {of : OverflowMode} {W : ℕ} {n : ℤ} {out : BitVec 128 × Bool}
    (h : Narrowed of W n out) (F : ℕ) : Delivers of W F n (⟨out.1, W, F⟩, out.2) :=
  ⟨rfl, rfl, h.raw, h.overflow⟩

theorem narrow_bounds (of : OverflowMode) {W : ℕ} (hW : 0 < W) (n : ℤ) :
    -2 ^ (W - 1) ≤ narrow of W n ∧ narrow of W n < 2 ^ (W - 1) := by
  have hpos : (0 : ℤ) < 2 ^ (W - 1) := by positivity
  cases of with
  | saturate =>
    change -2 ^ (W - 1) ≤ max (-2 ^ (W - 1)) (min n (2 ^ (W - 1) - 1)) ∧
      max (-2 ^ (W - 1)) (min n (2 ^ (W - 1) - 1)) < 2 ^ (W - 1)
    omega
  | wrap =>
    have hpow : ((2 ^ W : ℕ) : ℤ) = 2 * 2 ^ (W - 1) := by
      push_cast
      rw [← pow_succ', Nat.sub_add_cancel hW]
    have hle := Int.le_bmod (x := n) (m := 2 ^ W) (by positivity)
    have hlt := Int.bmod_lt (x := n) (m := 2 ^ W) (by positivity)
    change -2 ^ (W - 1) ≤ n.bmod (2 ^ W) ∧ n.bmod (2 ^ W) < 2 ^ (W - 1)
    omega

theorem EskFixed.Valid.small {a : EskFixed} (ha : a.Valid) (h : a.W ≠ 128) :
    -2 ^ 63 ≤ a.raw.toInt ∧ a.raw.toInt < 2 ^ 63 := by
  have hlo := ha.lower
  have hhi := ha.upper
  rcases ha.width with hw | hw | hw
  · rw [hw] at hlo hhi
    omega
  · rw [hw] at hlo hhi
    omega
  · exact absurd hw h

theorem toInt_bounds (v : BitVec 128) : -2 ^ 127 ≤ v.toInt ∧ v.toInt < 2 ^ 127 :=
  ⟨BitVec.le_toInt v, BitVec.toInt_lt⟩

section

variable {a b : EskFixed} (ha : a.Valid) (hb : b.Valid) (hW : b.W = a.W) (of : OverflowMode)
include ha hb hW

theorem eskFixedAdd_spec :
    Delivers of a.W a.F (a.raw.toInt + b.raw.toInt) (eskFixedAdd a b of) := by
  have hba := toInt_bounds a.raw
  have hbb := toInt_bounds b.raw
  refine (clampToW_of_bmod ha.width (BitVec.toInt_add a.raw b.raw) ?_ of ?_ ?_).delivers a.F
  · intro h
    have h1 := ha.small h
    have h2 := hb.small (by rwa [hW])
    rw [OutOfRange]
    omega
  · rw [BitVec.saddOverflow, OutOfRange]
    simp [or_comm]
  · rw [OutOfRange]
    intro h
    split <;> omega

theorem eskFixedSub_spec :
    Delivers of a.W a.F (a.raw.toInt - b.raw.toInt) (eskFixedSub a b of) := by
  have hba := toInt_bounds a.raw
  have hbb := toInt_bounds b.raw
  refine (clampToW_of_bmod ha.width BitVec.toInt_sub ?_ of ?_ ?_).delivers a.F
  · intro h
    have h1 := ha.small h
    have h2 := hb.small (by rwa [hW])
    rw [OutOfRange]
    omega
  · rw [BitVec.ssubOverflow, OutOfRange]
    simp [or_comm]
  · rw [OutOfRange]
    intro h
    split <;> omega

end

theorem eskFixedNeg_spec {a : EskFixed} (ha : a.Valid) (of : OverflowMode) :
    Delivers of a.W a.F (-a.raw.toInt) (eskFixedNeg a of) := by
  have hz : (⟨0, a.W, a.F⟩ : EskFixed).Valid := ⟨ha.width, ha.frac_lt, by simp, by simp⟩
  have h := eskFixedSub_spec hz ha rfl of
  rwa [show (0 : BitVec 128).toInt = 0 from BitVec.toInt_zero, zero_sub] at h

theorem toNat_lowHalf (t : BitVec 128) :
    ((t.setWidth 64).setWidth 128).toNat = t.toNat % 2 ^ 64 := by
  rw [BitVec.toNat_setWidth, BitVec.toNat_setWidth]
  exact Nat.mod_eq_of_lt (lt_of_lt_of_le (Nat.mod_lt _ (by decide)) (by decide))

theorem toNat_joinHalves (t s : BitVec 128) :
    ((t.setWidth 64).setWidth 128 <<< 64 ||| (s.setWidth 64).setWidth 128).toNat
      = s.toNat % 2 ^ 64 + 2 ^ 64 * (t.toNat % 2 ^ 64) := by
  have ht : t.toNat % 2 ^ 64 < 2 ^ 64 := Nat.mod_lt _ (by decide)
  have hs : s.toNat % 2 ^ 64 < 2 ^ 64 := Nat.mod_lt _ (by decide)
  rw [BitVec.toNat_or, BitVec.toNat_shiftLeft, toNat_lowHalf, toNat_lowHalf, Nat.shiftLeft_eq,
    Nat.mod_eq_of_lt (by omega), or_eq_add hs]
  ring

/-- The product of two words in 256 bits is exact. -/
theorem umulU128_spec (a b : BitVec 128) : (umulU128 a b).toNat = a.toNat * b.toNat := by
  set a0 := (a.setWidth 64).setWidth 128 with ha0
  set a1 := ((a >>> 64).setWidth 64).setWidth 128 with ha1
  set b0 := (b.setWidth 64).setWidth 128 with hb0
  set b1 := ((b >>> 64).setWidth 64).setWidth 128 with hb1
  have hhigh : ∀ v : BitVec 128, (v >>> 64).toNat = v.toNat / 2 ^ 64 := fun v => by
    rw [BitVec.toNat_ushiftRight, Nat.shiftRight_eq_div_pow]
  -- Every operand of a product is a half word, so no product and no column sum wraps.
  have hhalf : ∀ v : BitVec 128, ((v.setWidth 64).setWidth 128).toNat < 2 ^ 64 := fun v => by
    rw [toNat_lowHalf]
    exact Nat.mod_lt _ (by decide)
  have hmul : ∀ v w : BitVec 128, v.toNat < 2 ^ 64 → w.toNat < 2 ^ 64 →
      (v * w).toNat = v.toNat * w.toNat ∧ v.toNat * w.toNat ≤ (2 ^ 64 - 1) * (2 ^ 64 - 1) := by
    intro v w hv hw
    have hle : v.toNat * w.toNat ≤ (2 ^ 64 - 1) * (2 ^ 64 - 1) :=
      Nat.mul_le_mul (by omega) (by omega)
    exact ⟨by rw [BitVec.toNat_mul, Nat.mod_eq_of_lt (by omega)], hle⟩
  obtain ⟨e00, l00⟩ := hmul a0 b0 (hhalf _) (hhalf _)
  obtain ⟨e01, l01⟩ := hmul a0 b1 (hhalf _) (hhalf _)
  obtain ⟨e10, l10⟩ := hmul a1 b0 (hhalf _) (hhalf _)
  obtain ⟨e11, l11⟩ := hmul a1 b1 (hhalf _) (hhalf _)
  set t1 := (a0 * b0) >>> 64 + ((a0 * b1).setWidth 64).setWidth 128
    + ((a1 * b0).setWidth 64).setWidth 128 with ht1
  have e1 : t1.toNat = a0.toNat * b0.toNat / 2 ^ 64 + a0.toNat * b1.toNat % 2 ^ 64
      + a1.toNat * b0.toNat % 2 ^ 64 := by
    rw [ht1, BitVec.toNat_add, BitVec.toNat_add, hhigh, toNat_lowHalf, toNat_lowHalf, e00, e01, e10]
    omega
  set t2 := t1 >>> 64 + (a0 * b1) >>> 64 + (a1 * b0) >>> 64
    + ((a1 * b1).setWidth 64).setWidth 128 with ht2
  have e2 : t2.toNat = t1.toNat / 2 ^ 64 + a0.toNat * b1.toNat / 2 ^ 64
      + a1.toNat * b0.toNat / 2 ^ 64 + a1.toNat * b1.toNat % 2 ^ 64 := by
    rw [ht2, BitVec.toNat_add, BitVec.toNat_add, BitVec.toNat_add, hhigh, hhigh, hhigh,
      toNat_lowHalf, e01, e10, e11]
    omega
  set t3 := t2 >>> 64 + (a1 * b1) >>> 64 with ht3
  have e3 : t3.toNat = t2.toNat / 2 ^ 64 + a1.toNat * b1.toNat / 2 ^ 64 := by
    rw [ht3, BitVec.toNat_add, hhigh, hhigh, e11]
    omega
  have hprod := halves_mul e1 e2 e3
  have hsplit : ∀ v : BitVec 128, ((v.setWidth 64).setWidth 128).toNat
      + 2 ^ 64 * (((v >>> 64).setWidth 64).setWidth 128).toNat = v.toNat := by
    intro v
    have hlt := v.isLt
    rw [toNat_lowHalf, toNat_lowHalf, hhigh]
    omega
  rw [hsplit a, hsplit b] at hprod
  have h3 : t3.toNat < 2 ^ 64 := by omega
  change ((t1.setWidth 64).setWidth 128 <<< 64 ||| ((a0 * b0).setWidth 64).setWidth 128).toNat
    + 2 ^ 128 * ((t3.setWidth 64).setWidth 128 <<< 64 ||| (t2.setWidth 64).setWidth 128).toNat = _
  rw [toNat_joinHalves, toNat_joinHalves, e00, Nat.mod_eq_of_lt h3, ← hprod]
  ring

/-! ### Rounding -/

theorem Rounds.neg {mode : RoundMode} {x : ℚ} {n : ℤ} (h : Rounds mode x n) :
    Rounds mode (-x) (-n) := by
  cases mode with
  | truncate => exact (congrArg Neg.neg h).trans (truncate_neg x).symm
  | nearestEven => exact NearestEven.neg h
  | stochastic =>
    change |-x - ((-n : ℤ) : ℚ)| < 1
    rw [Int.cast_neg, ← abs_neg, show -(-x - -(n : ℚ)) = x - n by ring]
    exact h

theorem Rounds.unique {mode : RoundMode} (hmode : mode ≠ .stochastic) {x : ℚ} {n k : ℤ}
    (hn : Rounds mode x n) (hk : Rounds mode x k) : n = k := by
  cases mode with
  | truncate => exact hn.trans hk.symm
  | nearestEven => exact NearestEven.unique hn hk
  | stochastic => exact absurd rfl hmode

theorem roundsUp_spec {P F : ℕ} {q rem half : BitVec 128} (mode : RoundMode) (rng : BitVec 64)
    (hq : q.toNat % 2 = P / 2 ^ F % 2) (hrem : rem.toNat = P % 2 ^ F)
    (hhalf : 0 < F → half.toNat = 2 ^ (F - 1)) :
    Rounds mode ((P : ℚ) / (2 ^ F : ℕ))
      ((P / 2 ^ F + if (roundsUp mode q rem half F rng).1 then 1 else 0 : ℕ) : ℤ) := by
  have hpos : 0 < 2 ^ F := by positivity
  cases mode with
  | truncate =>
    change ((P / 2 ^ F + 0 : ℕ) : ℤ) = truncate _
    rw [truncate_natDiv P hpos, Nat.add_zero]
  | nearestEven =>
    have hodd : q &&& 1#128 ≠ 0 ↔ P / 2 ^ F % 2 = 1 := by
      rw [ne_eq, ← BitVec.toNat_inj, BitVec.toNat_and, BitVec.toNat_one (by decide),
        Nat.and_one_is_mod, hq, toNat_zero_word]
      omega
    refine nearestEven_natDiv P hpos ?_
    rw [roundsUp, decide_eq_true_eq, hodd, ← BitVec.toNat_inj, BitVec.lt_def, hrem]
    rcases Nat.eq_zero_or_pos F with rfl | hF
    · have := Nat.mod_one P
      rw [pow_zero]
      omega
    · have hpow : 2 ^ F = 2 * 2 ^ (F - 1) := by rw [← pow_succ', Nat.sub_add_cancel hF]
      rw [hhalf hF]
      omega
  | stochastic =>
    refine abs_sub_natDiv_lt P hpos fun hup => ?_
    have hr : (rngUniformBits rng F).1 < rem := by simpa [roundsUp] using hup
    rw [BitVec.lt_def, hrem] at hr
    omega

/-- A shift of 256 bits, by its halves. -/
theorem shifted_parts (p : EskU256) {F : ℕ} (hF : F < 128) :
    (if F = 0 then p.lo else p.lo >>> F ||| p.hi <<< (128 - F)).toNat
        = p.toNat / 2 ^ F % 2 ^ 128 ∧
      (if F = 0 then p.hi else p.hi >>> F).toNat = p.toNat / 2 ^ F / 2 ^ 128 ∧
      (if F = 0 then 0 else p.lo &&& (1#128 <<< F - 1#128)).toNat = p.toNat % 2 ^ F := by
  have hlo := p.lo.isLt
  rcases Nat.eq_zero_or_pos F with rfl | hpos
  · simp only [if_true, pow_zero, Nat.div_one, Nat.mod_one, EskU256.toNat]
    exact ⟨by omega, by omega, rfl⟩
  have hw : 2 ^ 128 = 2 ^ F * 2 ^ (128 - F) := by rw [← pow_add, Nat.add_sub_cancel' hF.le]
  have hsmall : p.lo.toNat / 2 ^ F < 2 ^ (128 - F) := Nat.div_lt_of_lt_mul (by rw [← hw]; exact hlo)
  have hdiv : p.toNat / 2 ^ F = p.lo.toNat / 2 ^ F + 2 ^ (128 - F) * p.hi.toNat := by
    rw [EskU256.toNat, hw, Nat.mul_assoc, Nat.add_mul_div_left _ _ (by positivity)]
  have hhi := Nat.mod_add_div p.hi.toNat (2 ^ F)
  -- The shifted number in base `2 ^ 128`.
  have hsum : p.toNat / 2 ^ F = (p.hi.toNat % 2 ^ F * 2 ^ (128 - F) + p.lo.toNat / 2 ^ F)
      + 2 ^ 128 * (p.hi.toNat / 2 ^ F) := by
    rw [hdiv]
    calc p.lo.toNat / 2 ^ F + 2 ^ (128 - F) * p.hi.toNat
        = p.lo.toNat / 2 ^ F
            + 2 ^ (128 - F) * (p.hi.toNat % 2 ^ F + 2 ^ F * (p.hi.toNat / 2 ^ F)) := by rw [hhi]
      _ = _ := by rw [hw]; ring
  have hlt : p.hi.toNat % 2 ^ F * 2 ^ (128 - F) + p.lo.toNat / 2 ^ F < 2 ^ 128 := by
    have hm : p.hi.toNat % 2 ^ F + 1 ≤ 2 ^ F := Nat.mod_lt _ (by positivity)
    calc p.hi.toNat % 2 ^ F * 2 ^ (128 - F) + p.lo.toNat / 2 ^ F
        < (p.hi.toNat % 2 ^ F + 1) * 2 ^ (128 - F) := by rw [Nat.add_mul, Nat.one_mul]; omega
      _ ≤ 2 ^ F * 2 ^ (128 - F) := Nat.mul_le_mul_right _ hm
      _ = 2 ^ 128 := hw.symm
  rw [if_neg hpos.ne', if_neg hpos.ne', if_neg hpos.ne']
  refine ⟨?_, ?_, ?_⟩
  · rw [hsum, Nat.add_mul_mod_self_left, Nat.mod_eq_of_lt hlt, BitVec.toNat_or,
      BitVec.toNat_ushiftRight, BitVec.toNat_shiftLeft, Nat.shiftRight_eq_div_pow,
      Nat.shiftLeft_eq, hw, Nat.mul_mod_mul_right, Nat.or_comm, or_eq_add hsmall]
  · rw [hsum, Nat.add_mul_div_left _ _ (by positivity), Nat.div_eq_of_lt hlt, Nat.zero_add,
      BitVec.toNat_ushiftRight, Nat.shiftRight_eq_div_pow]
  · rw [toNat_and_mask _ hF, EskU256.toNat, hw, Nat.mul_assoc, Nat.add_mul_mod_self_left]

theorem u256RoundShift_spec (p : EskU256) {F : ℕ} (hF : F < 128) (mode : RoundMode)
    (rng : BitVec 64) :
    ∃ m : ℕ, Rounds mode ((p.toNat : ℚ) / (2 ^ F : ℕ)) m ∧
      (u256RoundShift p F mode rng).1.toNat = m % 2 ^ 128 ∧
      ((u256RoundShift p F mode rng).2.1 = true ↔ 2 ^ 128 ≤ m) := by
  obtain ⟨hq, hhi, hrem⟩ := shifted_parts p hF
  rw [u256RoundShift]
  set q := if F = 0 then p.lo else p.lo >>> F ||| p.hi <<< (128 - F)
  set rem := if F = 0 then 0 else p.lo &&& (1#128 <<< F - 1#128)
  set half := if F = 0 then 0 else 1#128 <<< (F - 1) with hhalf
  set hipart := if F = 0 then p.hi else p.hi >>> F
  have hrounds := @roundsUp_spec p.toNat F q rem half mode rng
    (by rw [hq]; omega) hrem (fun h => by rw [hhalf, if_neg h.ne', toNat_one_shiftLeft (by omega)])
  have hhine : hipart ≠ 0 ↔ 2 ^ 128 ≤ p.toNat / 2 ^ F := by
    rw [ne_eq, ← BitVec.toNat_inj, toNat_zero_word, hhi]
    omega
  have hcarry : q + 1#128 = 0 ↔ p.toNat / 2 ^ F % 2 ^ 128 = 2 ^ 128 - 1 := by
    rw [← hq, ← BitVec.toNat_inj, BitVec.toNat_add, toNat_zero_word,
      BitVec.toNat_one (by decide)]
    have := q.isLt
    omega
  refine ⟨_, hrounds, ?_⟩
  simp only [Bool.or_eq_true, decide_eq_true_eq, hhine, hcarry]
  cases (roundsUp mode q rem half F rng).1 with
  | false => exact ⟨by simpa using hq, by simp⟩
  | true =>
    rw [if_pos rfl, if_pos rfl, BitVec.toNat_add, hq, BitVec.toNat_one (by decide)]
    exact ⟨by omega, by simp only [true_and]; omega⟩

/-! ### Sign and magnitude -/

theorem toNat_magnitude (v : BitVec 128) : (magnitude v).toNat = v.toInt.natAbs := by
  have hlt := v.isLt
  have hcond := BitVec.toInt_eq_toNat_cond v
  rw [magnitude, ← BitVec.neg_eq_not_add]
  split
  next h =>
      rw [BitVec.toNat_neg]
      split at hcond <;> omega
  next h => split at hcond <;> omega

theorem resultSign_mul (a b : BitVec 128) :
    a.toInt * b.toInt = resultSign a b * (a.toInt.natAbs * b.toInt.natAbs : ℕ) := by
  rw [resultSign, Nat.cast_mul, Int.natCast_natAbs, Int.natCast_natAbs]
  split_ifs with hb ha ha
  · rw [abs_of_neg ha, abs_of_neg hb]
    ring
  · rw [abs_of_nonneg (not_lt.mp ha), abs_of_neg hb]
    ring
  · rw [abs_of_neg ha, abs_of_nonneg (not_lt.mp hb)]
    ring
  · rw [abs_of_nonneg (not_lt.mp ha), abs_of_nonneg (not_lt.mp hb)]
    ring

theorem resultSign_cases (a b : BitVec 128) : resultSign a b = 1 ∨ resultSign a b = -1 := by
  rw [resultSign]
  split_ifs <;> simp

theorem toInt_signmag {sign : ℤ} (hs : sign = 1 ∨ sign = -1) {mag : BitVec 128} {m : ℕ}
    (hm : mag.toNat = m % 2 ^ 128) :
    (if 0 ≤ sign then mag else ~~~mag + 1#128).toInt = (sign * m).bmod (2 ^ 128) := by
  have hmag : mag.toInt = (m : ℤ).bmod (2 ^ 128) := by
    rw [BitVec.toInt_eq_toNat_bmod, hm, Int.natCast_emod, Int.emod_bmod]
  rcases hs with rfl | rfl
  · rw [if_pos (by decide), one_mul, hmag]
  · rw [if_neg (by decide), ← BitVec.neg_eq_not_add, BitVec.toInt_neg, hmag, Int.bmod_neg_bmod,
      neg_one_mul]

theorem half_range {W : ℕ} (hW : W = 32 ∨ W = 64 ∨ W = 128) :
    2 ^ (W - 1) ≤ 2 ^ 127 ∧ (2 ^ (W - 1) = 2 ^ 127 ↔ W = 128) ∧ 0 < 2 ^ (W - 1) := by
  rcases hW with rfl | rfl | rfl <;> decide

theorem signmag_over_iff {W : ℕ} (hW : W = 32 ∨ W = 64 ∨ W = 128) {sign : ℤ}
    (hs : sign = 1 ∨ sign = -1) {mag : BitVec 128} {ovfHi : Bool} {m : ℕ}
    (hm : mag.toNat = m % 2 ^ 128) (hovf : ovfHi = true ↔ 2 ^ 128 ≤ m) :
    (ovfHi || (if 0 ≤ sign then decide (eskFixedWmax W < mag)
      else decide ((if 128 ≤ W then 1#128 <<< 127 else 1#128 <<< (W - 1)) < mag))) = true
      ↔ OutOfRange W (sign * m) := by
  obtain ⟨hhalf, -, hpos⟩ := half_range hW
  have hcast : (2 : ℤ) ^ (W - 1) = ((2 ^ (W - 1) : ℕ) : ℤ) := by push_cast; rfl
  have hmaxNeg : (if 128 ≤ W then 1#128 <<< 127 else 1#128 <<< (W - 1)).toNat = 2 ^ (W - 1) := by
    rcases hW with rfl | rfl | rfl <;> decide
  rw [Bool.or_eq_true, hovf, OutOfRange, hcast]
  rcases hs with rfl | rfl
  · rw [if_pos (by decide), decide_eq_true_eq, BitVec.lt_def, (eskFixedWmax_eq hW).2, hm]
    omega
  · rw [if_neg (by decide), decide_eq_true_eq, BitVec.lt_def, hmaxNeg, hm]
    omega

/-- **Narrowing a signed magnitude.** The magnitude `2 ^ 127` under a minus sign, which is in
range at 128 bits, is negated in signed arithmetic. -/
theorem signmagToW_spec {W : ℕ} (hW : W = 32 ∨ W = 64 ∨ W = 128) {sign : ℤ}
    (hs : sign = 1 ∨ sign = -1) {mag : BitVec 128} {ovfHi : Bool} {m : ℕ}
    (hm : mag.toNat = m % 2 ^ 128) (hovf : ovfHi = true ↔ 2 ^ 128 ≤ m) (of : OverflowMode) :
    (W = 128 ∧ sign * m = -2 ^ 127 → signmagToW sign mag ovfHi W of = .error .undefined) ∧
    (¬ (W = 128 ∧ sign * m = -2 ^ 127) →
      ∃ out, signmagToW sign mag ovfHi W of = .ok out ∧ Narrowed of W (sign * m) out) := by
  obtain ⟨hhalf, hfull, hpos⟩ := half_range hW
  have hcast : (2 : ℤ) ^ (W - 1) = ((2 ^ (W - 1) : ℕ) : ℤ) := by push_cast; rfl
  have hover := signmag_over_iff hW hs hm hovf
  unfold signmagToW
  by_cases h : OutOfRange W (sign * m)
  · rw [if_pos (hover.mpr h)]
    rw [OutOfRange, hcast] at h
    refine ⟨fun hexc => by omega, fun _ => ?_⟩
    have hout : OutOfRange W (sign * m) := by rwa [OutOfRange, hcast]
    cases of with
    | saturate =>
      refine ⟨_, rfl, ?_, iff_of_true rfl hout⟩
      change (if 0 ≤ sign then eskFixedWmax W else eskFixedWmin W).toInt
        = max (-2 ^ (W - 1)) (min (sign * m) (2 ^ (W - 1) - 1))
      rcases hs with rfl | rfl
      · rw [if_pos (by decide), (eskFixedWmax_eq hW).1, hcast]
        omega
      · rw [if_neg (by decide), eskFixedWmin_eq hW, hcast]
        omega
    | wrap =>
      refine ⟨_, rfl, ?_, iff_of_true rfl hout⟩
      have hv := toInt_signmag hs hm
      by_cases h128 : W = 128
      · subst h128
        exact hv
      · rw [(clampToW_spec _ (by omega) .wrap _ _).raw, narrow, hv]
        exact Int.bmod_bmod_of_dvd (Nat.pow_dvd_pow 2 (by omega))
  · rw [if_neg (mt hover.mp h)]
    have hself := @narrow_eq_self of W (by omega) _ h
    have hkeep := h
    rw [OutOfRange, hcast] at hkeep
    have hsmall : mag.toNat = m := by
      rcases hs with rfl | rfl
      · omega
      · omega
    have hcond := BitVec.toInt_eq_toNat_cond mag
    rw [hsmall] at hcond
    clear hm hovf hover hsmall
    rcases hs with rfl | rfl
    · rw [if_pos (by decide)]
      refine ⟨fun hexc => by omega, fun _ => ⟨_, rfl, ?_, iff_of_false (by simp) h⟩⟩
      rw [hself, hcond]
      omega
    · rw [if_neg (by decide)]
      constructor
      · intro hexc
        rw [signed_eq_undefined (by omega)]
        rfl
      · intro hexc
        have hmag : mag.toInt = m := by omega
        rw [signed_eq_ok (by omega) (by omega), ok_bind]
        refine ⟨_, rfl, ?_, iff_of_false (by simp) h⟩
        rw [hself, hmag, BitVec.toInt_ofInt, neg_one_mul]
        exact Int.bmod_eq_of_le_mul_two (by omega) (by omega)

/-! ### Multiplication -/

theorem Rounds.sign {mode : RoundMode} {x : ℚ} {n sign : ℤ} (hs : sign = 1 ∨ sign = -1)
    (h : Rounds mode x n) : Rounds mode (sign * x) (sign * n) := by
  rcases hs with rfl | rfl
  · simpa using h
  · simpa using h.neg

/-- **Multiplication** rounds the exact product and narrows it, unless the rounded product is
`-2 ^ 127` in a format of 128 bits. -/
theorem eskFixedMul_spec {a : EskFixed} (ha : a.Valid) (b : EskFixed) (mode : RoundMode)
    (of : OverflowMode) (rng : BitVec 64) :
    ∃ n : ℤ, Rounds mode ((a.raw.toInt * b.raw.toInt : ℤ) / 2 ^ a.F) n ∧
      (a.W = 128 ∧ n = -2 ^ 127 → eskFixedMul a b mode of rng = .error .undefined) ∧
      (¬ (a.W = 128 ∧ n = -2 ^ 127) → ∃ out rng', eskFixedMul a b mode of rng = .ok (out, rng') ∧
          Delivers of a.W a.F n out) := by
  have hF : a.F < 128 := by
    have := ha.frac_lt
    rcases ha.width with h | h | h <;> omega
  obtain ⟨m, hrounds, hmag, hovf⟩ := u256RoundShift_spec
    (umulU128 (magnitude a.raw) (magnitude b.raw)) hF mode rng
  rw [umulU128_spec, toNat_magnitude, toNat_magnitude] at hrounds
  have hsign := resultSign_cases a.raw b.raw
  obtain ⟨hundef, hok⟩ := signmagToW_spec ha.width hsign hmag hovf of
  refine ⟨resultSign a.raw b.raw * m, ?_, ?_, ?_⟩
  · have h := hrounds.sign hsign
    rw [resultSign_mul, Int.cast_mul, mul_div_assoc]
    simpa using h
  · intro hexc
    rw [eskFixedMul, hundef hexc]
    rfl
  · intro hexc
    obtain ⟨out, hout, hnarrow⟩ := hok hexc
    exact ⟨_, _, by rw [eskFixedMul, hout, ok_bind], hnarrow.delivers a.F⟩

/-- **Addition, subtraction, negation and multiplication.** In every supported format, for
operands in range and both deterministic rounding modes, each operation delivers the rounded
exact result, if and only if the product is not rounded to `-2 ^ 127` at 128 bits: there the
negation of the magnitude overflows. -/
theorem eskFixed_arith_iff {a b : EskFixed} (ha : a.Valid) (hb : b.Valid) (hW : b.W = a.W)
    {mode : RoundMode} (hmode : mode ≠ .stochastic) (of : OverflowMode) (rng : BitVec 64) :
    (Delivers of a.W a.F (a.raw.toInt + b.raw.toInt) (eskFixedAdd a b of) ∧
      Delivers of a.W a.F (a.raw.toInt - b.raw.toInt) (eskFixedSub a b of) ∧
      Delivers of a.W a.F (-a.raw.toInt) (eskFixedNeg a of) ∧
      ∃ n out rng', Rounds mode ((a.raw.toInt * b.raw.toInt : ℤ) / 2 ^ a.F) n ∧
        eskFixedMul a b mode of rng = .ok (out, rng') ∧ Delivers of a.W a.F n out) ↔
    ¬ (a.W = 128 ∧ Rounds mode ((a.raw.toInt * b.raw.toInt : ℤ) / 2 ^ a.F) (-2 ^ 127)) := by
  obtain ⟨n, hn, hundef, hok⟩ := eskFixedMul_spec ha b mode of rng
  constructor
  · rintro ⟨-, -, -, k, out, rng', -, hmul, -⟩ ⟨hw, hk⟩
    rw [hundef ⟨hw, hn.unique hmode hk⟩] at hmul
    cases hmul
  · intro h
    obtain ⟨out, rng', hmul, hout⟩ := hok fun hexc => h ⟨hexc.1, hexc.2 ▸ hn⟩
    exact ⟨eskFixedAdd_spec ha hb hW of, eskFixedSub_spec ha hb hW of, eskFixedNeg_spec ha of,
      n, out, rng', hn, hmul, hout⟩

/-- `1.5 * -2.25` in the format `(32, 16)`. -/
theorem eskFixed_arith_iff_q16 :
    (⟨98304#128, 32, 16⟩ : EskFixed).Valid ∧ (⟨-147456#128, 32, 16⟩ : EskFixed).Valid ∧
    ∃ n out rng', Rounds .nearestEven
        (((98304#128).toInt * (-147456#128).toInt : ℤ) / 2 ^ 16) n ∧
      eskFixedMul ⟨98304#128, 32, 16⟩ ⟨-147456#128, 32, 16⟩ .nearestEven .saturate 0
        = .ok (out, rng') ∧ Delivers .saturate 32 16 n out := by
  have ha : (⟨98304#128, 32, 16⟩ : EskFixed).Valid := ⟨by decide, by decide, by decide, by decide⟩
  have hb : (⟨-147456#128, 32, 16⟩ : EskFixed).Valid := ⟨by decide, by decide, by decide, by decide⟩
  refine ⟨ha, hb, ?_⟩
  have h := (eskFixed_arith_iff ha hb rfl (by decide : RoundMode.nearestEven ≠ .stochastic)
    .saturate 0).mpr
    fun hexc => absurd hexc.1 (by decide)
  exact h.2.2.2

/-- At 128 bits without a fraction, `-2 ^ 127 * 1` is in range and has no value. -/
theorem eskFixedMul_least :
    (⟨eskI128Min, 128, 0⟩ : EskFixed).Valid ∧ (⟨1#128, 128, 0⟩ : EskFixed).Valid ∧
    ¬ OutOfRange 128 (eskI128Min.toInt * (1#128).toInt) ∧
    eskFixedMul ⟨eskI128Min, 128, 0⟩ ⟨1#128, 128, 0⟩ .truncate .wrap 0 = .error .undefined ∧
    ¬ ∃ n out rng', Rounds .truncate ((eskI128Min.toInt * (1#128).toInt : ℤ) / 2 ^ 0) n ∧
      eskFixedMul ⟨eskI128Min, 128, 0⟩ ⟨1#128, 128, 0⟩ .truncate .wrap 0 = .ok (out, rng') ∧
      Delivers .wrap 128 0 n out := by
  have hmul : eskFixedMul ⟨eskI128Min, 128, 0⟩ ⟨1#128, 128, 0⟩ .truncate .wrap 0
      = .error .undefined := by rfl
  refine ⟨⟨by decide, by decide, by decide, by decide⟩,
    ⟨by decide, by decide, by decide, by decide⟩, ?_, hmul, ?_⟩
  · rw [OutOfRange]
    decide
  · rintro ⟨n, out, rng', -, hok, -⟩
    rw [hmul] at hok
    cases hok

end Eshkol.FixedPoint
