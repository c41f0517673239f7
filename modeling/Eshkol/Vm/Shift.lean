import Eshkol.Ratio.Binary64
import Eshkol.Vm.Bitwise
import Eshkol.Vm.Value

/-!
# VM Arithmetic Shift

`vm_push_shift_exact` (`lib/backend/vm_native.c`), the body of `arithmetic-shift`,
`bit-shift-left` and `bit-shift-right` in the bytecode VM. A fixnum is shifted as an
`int64_t`, unless a left shift loses bits; it is read through `as_number`, which converts it
to a `double`. Everything else is done over bignums, whose shifts take the count as an `int`.

The result is the floor of `a * 2 ^ count`, but not for every count and not for every fixnum.
A count beyond the range of `int` is narrowed, the negation of the least `int64_t` overflows,
and a fixnum of more than 53 bits is rounded before it is shifted.

An allocation that fails, which is the only error the function reports, is left out.
-/

namespace Eshkol.Vm

open Machine Ratio VmRational

/-! ### Definitions -/

/-- `as_number`, on exact numbers. -/
def asNumber : ExactVal → ℚ
  | .int i => doubleOfInt i.toInt
  | _ => 0

/-- `(int64_t)as_number(v)`. A value that does not fit is undefined. -/
def asInt64 (v : ExactVal) : Exec Empty Int64 := int64 (truncate (asNumber v))

/-- `(int64_t)((uint64_t)val << count)`. -/
def shiftedUp (val : Int64) (count : ℕ) : Int64 := Int64.ofBitVec (val.toBitVec <<< count)

/-- `val >> amt`, with the sign propagated. -/
def shiftedDown (val : Int64) (amt : ℕ) : Int64 := Int64.ofBitVec (val.toBitVec.sshiftRight amt)

def vmArithShiftI64 (val count : Int64) : Exec Empty Int64 :=
  if 0 ≤ count.toInt then .ok (shiftedUp val (min count.toInt 63).toNat)
  else do
    let amt ← signed 64 (-count.toInt)
    .ok (shiftedDown val (min amt 63).toNat)

/-- The exact path of `vm_push_shift_exact`: the count is narrowed to an `int`. -/
def vmShiftBignum (ab : VmBignum) (count : Int64) : Exec Empty ExactVal := do
  let r ←
    if 0 ≤ count.toInt then bignumShiftLeft ab (Int32.ofInt count.toInt)
    else do
      let opposite ← signed 64 (-count.toInt)
      bignumShiftRight ab (Int32.ofInt opposite)
  .ok (vmPushBignumNorm r)

/-- `vm_push_shift_exact` of a value that is no bignum. -/
def vmShiftFixnum (a : ExactVal) (count : Int64) : Exec Empty ExactVal := do
  let val ← asInt64 a
  if count.toInt < 0 then
    let shifted ← vmArithShiftI64 val count
    .ok (.int shifted)
  else if val = 0 then .ok (.int 0)
  else
    let shifted := shiftedUp val count.toInt.toNat
    if count.toInt ≤ 62 ∧ shiftedDown shifted count.toInt.toNat = val then .ok (.int shifted)
    else vmShiftBignum (vmCoerceBignum a) count

/-- `vm_push_shift_exact`, with the value it pushes. -/
def vmPushShiftExact (a : ExactVal) (count : Int64) : Exec Empty ExactVal :=
  match a with
  | .bignum b => vmShiftBignum b count
  | .int _ | .rational _ => vmShiftFixnum a count

/-! ### Powers of two -/

/-- The shift of an integer by a signed count. -/
def floorShift (a k : ℤ) : ℤ := ⌊(a : ℚ) * 2 ^ k⌋

theorem floorShift_natCast (a : ℤ) (n : ℕ) : floorShift a n = a * 2 ^ n := by
  have hcast : (a : ℚ) * 2 ^ (n : ℤ) = ((a * 2 ^ n : ℤ) : ℚ) := by
    push_cast
    rw [zpow_natCast]
  rw [floorShift, hcast, Int.floor_intCast]

theorem floorShift_neg_natCast (a : ℤ) (n : ℕ) : floorShift a (-n) = a / 2 ^ n := by
  have hcast : (a : ℚ) * 2 ^ (-(n : ℤ)) = (a : ℚ) / ((2 ^ n : ℤ) : ℚ) := by
    push_cast
    rw [zpow_neg, zpow_natCast, div_eq_mul_inv]
  rw [floorShift, hcast, floor_div (by positivity)]

theorem ediv_two_pow_eq_iff {a : ℤ} {c m : ℕ} (h : c < m) :
    a / 2 ^ c = a / 2 ^ m ↔ -2 ^ c ≤ a ∧ a < 2 ^ c := by
  have hc : (0 : ℤ) < 2 ^ c := by positivity
  have hsplit : a / 2 ^ m = a / 2 ^ c / 2 ^ (m - c) := by
    rw [Int.ediv_ediv_of_nonneg hc.le, ← pow_add, Nat.add_sub_cancel' h.le]
  have htwo : (2 : ℤ) ≤ 2 ^ (m - c) := by
    calc (2 : ℤ) = 2 ^ 1 := (pow_one 2).symm
      _ ≤ 2 ^ (m - c) := pow_le_pow_right₀ one_le_two (by omega)
  rw [hsplit]
  generalize hq : a / 2 ^ c = q
  have hquot : (-2 ^ c ≤ a ∧ a < 2 ^ c) ↔ q = 0 ∨ q = -1 := by
    have hmod := Int.emod_add_mul_ediv a (2 ^ c)
    have h0 := Int.emod_nonneg a hc.ne'
    have h1 := Int.emod_lt_of_pos a hc
    rw [hq] at hmod
    constructor
    · rintro ⟨hlo, hhi⟩
      by_contra hne
      rcases lt_or_ge q 0 with hneg | hpos
      · nlinarith [show q ≤ -2 by omega]
      · nlinarith [show 1 ≤ q by omega]
    · rintro (rfl | rfl) <;> omega
  rw [hquot]
  constructor
  · intro heq
    have hmod := Int.emod_add_mul_ediv q (2 ^ (m - c))
    have h0 := Int.emod_nonneg q (by positivity : (2 ^ (m - c) : ℤ) ≠ 0)
    have h1 := Int.emod_lt_of_pos q (by positivity : (0 : ℤ) < 2 ^ (m - c))
    rw [← heq] at hmod
    by_contra hne
    rcases lt_or_ge q 0 with hneg | hpos
    · nlinarith [show q ≤ -2 by omega]
    · nlinarith [show 1 ≤ q by omega]
  · rintro (rfl | rfl)
    · rw [Int.zero_ediv]
    · exact (Int.ediv_eq_neg_one_of_neg_of_le (by omega) (by omega)).symm

theorem floorShift_ne {a j k : ℤ} (ha : a ≠ 0) (hjk : j < k) (hk : 0 < k) :
    floorShift a j ≠ floorShift a k := by
  obtain ⟨n, rfl⟩ := Int.eq_ofNat_of_zero_le hk.le
  have hn : (2 : ℤ) ≤ 2 ^ n := by
    calc (2 : ℤ) = 2 ^ 1 := (pow_one 2).symm
      _ ≤ 2 ^ n := pow_le_pow_right₀ one_le_two (by omega)
  rw [floorShift_natCast]
  rcases lt_or_ge j 0 with hj | hj
  · obtain ⟨m, hm⟩ := Int.eq_ofNat_of_zero_le (by omega : 0 ≤ -j)
    rw [show j = -(m : ℤ) by omega, floorShift_neg_natCast]
    have hm : (0 : ℤ) < 2 ^ m := by positivity
    intro heq
    rcases lt_or_gt_of_ne ha with hneg | hpos
    · have hle : a ≤ a / 2 ^ m := by
        rw [Int.le_ediv_iff_mul_le hm]
        nlinarith
      nlinarith
    · have hle := Int.ediv_le_self (2 ^ m) hpos.le
      nlinarith
  · obtain ⟨m, rfl⟩ := Int.eq_ofNat_of_zero_le hj
    rw [floorShift_natCast]
    intro heq
    have hpow := Int.eq_of_mul_eq_mul_left ha heq
    exact absurd (Int.pow_right_injective (le_refl 2) hpow) (by omega)

/-! ### Shifts over bignums -/

theorem toInt_int32_ofInt (x : ℤ) :
    (Int32.ofInt x).toInt = if x % 2 ^ 32 < 2 ^ 31 then x % 2 ^ 32 else x % 2 ^ 32 - 2 ^ 32 :=
  Int32.toInt_ofInt

section

variable {a : VmBignum} (ha : a.Normalized) (h0 : a.toInt ≠ 0)
include ha h0

theorem bignumShiftLeft_floorShift {c : Int32} (hc : c.toInt ≠ -2 ^ 31) :
    ∃ r, bignumShiftLeft a c = .ok r ∧ r.Normalized ∧ r.toInt = floorShift a.toInt c.toInt := by
  have hlo := c.le_toInt
  have hhi := c.toInt_lt
  rcases lt_or_ge c.toInt 0 with hneg | hpos
  · have hz := mt (bignumIsZero_iff ha).mp h0
    have hne : c ≠ 0 := fun h => by rw [h] at hneg; exact absurd hneg (by decide)
    obtain ⟨hnorm, hval⟩ := shiftRightBy_spec ha (sign_ne_zero_of_not_isZero ha hz)
      (-c.toInt).toNat
    refine ⟨_, ?_, hnorm, ?_⟩
    · rw [bignumShiftLeft, if_neg (by rw [not_or]; exact ⟨hz, hne⟩),
        if_pos (by rw [Int32.lt_iff_toInt_lt]; exact hneg),
        signed_eq_ok (by omega) (by omega), ok_bind]
    · rw [hval, ← floorShift_neg_natCast, Int.toNat_of_nonneg (by omega), neg_neg]
  · obtain ⟨r, hr, hnorm, hval⟩ := bignumShiftLeft_spec ha hpos
    refine ⟨r, hr, hnorm, ?_⟩
    rw [hval, ← floorShift_natCast, Int.toNat_of_nonneg hpos]

theorem bignumShiftRight_floorShift {c : Int32} (hc : c.toInt ≠ -2 ^ 31) :
    ∃ r, bignumShiftRight a c = .ok r ∧ r.Normalized ∧ r.toInt = floorShift a.toInt (-c.toInt) := by
  have hlo := c.le_toInt
  have hhi := c.toInt_lt
  rcases lt_or_ge c.toInt 0 with hneg | hpos
  · have hz := mt (bignumIsZero_iff ha).mp h0
    have hne : c ≠ 0 := fun h => by rw [h] at hneg; exact absurd hneg (by decide)
    obtain ⟨hnorm, hval⟩ := shiftLeftBy_spec (sign_ne_zero_of_not_isZero ha hz) (-c.toInt).toNat
    refine ⟨_, ?_, hnorm, ?_⟩
    · rw [bignumShiftRight, if_neg (by rw [not_or]; exact ⟨hz, hne⟩),
        if_pos (by rw [Int32.lt_iff_toInt_lt]; exact hneg),
        signed_eq_ok (by omega) (by omega), ok_bind]
    · rw [hval, ← floorShift_natCast, Int.toNat_of_nonneg (by omega)]
  · obtain ⟨r, hr, hnorm, hval⟩ := bignumShiftRight_spec ha hpos
    refine ⟨r, hr, hnorm, ?_⟩
    rw [hval, ← floorShift_neg_natCast, Int.toNat_of_nonneg hpos]

theorem bignumShift_undefined {c : Int32} (hc : c.toInt = -2 ^ 31) :
    bignumShiftLeft a c = .error .undefined ∧ bignumShiftRight a c = .error .undefined := by
  have hz := mt (bignumIsZero_iff ha).mp h0
  have hne : c ≠ 0 := fun h => by rw [h] at hc; exact absurd hc (by decide)
  have hneg : c < 0 := by
    rw [Int32.lt_iff_toInt_lt, hc]
    decide
  rw [bignumShiftLeft, bignumShiftRight, if_neg (by rw [not_or]; exact ⟨hz, hne⟩), if_pos hneg,
    if_neg (by rw [not_or]; exact ⟨hz, hne⟩), if_pos hneg, hc, signed_eq_undefined (by omega)]
  exact ⟨rfl, rfl⟩

end

/-- A computation pushes the canonical form of an integer. -/
def Pushes (e : Exec Empty ExactVal) (z : ℤ) : Prop := ∃ v, e = .ok v ∧ v.Canonical ∧ v.toRat = z

theorem pushes_ok_iff {v : ExactVal} (hv : v.Canonical) {z : ℤ} :
    Pushes (.ok v) z ↔ v.toRat = z := by
  constructor
  · rintro ⟨w, hw, -, hval⟩
    rw [Except.ok.inj hw, hval]
  · exact fun h => ⟨v, rfl, hv, h⟩

theorem not_pushes_error {e : Fault Empty} {z : ℤ} : ¬ Pushes (.error e) z := by
  rintro ⟨v, hv, -⟩
  cases hv

theorem pushes_norm_iff {e : Exec Empty VmBignum} {r : VmBignum} (he : e = .ok r)
    (hr : r.Normalized) {z : ℤ} :
    Pushes (do let r ← e; .ok (vmPushBignumNorm r)) z ↔ r.toInt = z := by
  obtain ⟨hcan, hval⟩ := vmPushBignumNorm_spec hr
  rw [he, ok_bind, pushes_ok_iff hcan, hval]
  norm_cast

/-- When the shift over bignums is exact: the count, or its negation, fits an `int`, or a right
shift is narrowed to one that also leaves nothing but the sign. -/
def BignumShiftHolds (a : ℤ) (k : Int64) : Prop :=
  if 0 ≤ k.toInt then k.toInt < 2 ^ 31
  else k.toInt ≠ -2 ^ 63 ∧ (-k.toInt < 2 ^ 31 ∨
    (-k.toInt % 2 ^ 32 < 2 ^ 31 ∧
      -2 ^ (-k.toInt % 2 ^ 32).toNat ≤ a ∧ a < 2 ^ (-k.toInt % 2 ^ 32).toNat))

instance (a : ℤ) (k : Int64) : Decidable (BignumShiftHolds a k) :=
  inferInstanceAs (Decidable (ite _ _ _))

/-- When a shift of a bignum is the floor of the product. -/
theorem vmShiftBignum_iff {a : VmBignum} (ha : a.Normalized) (h0 : a.toInt ≠ 0) (k : Int64) :
    Pushes (vmShiftBignum a k) (floorShift a.toInt k.toInt) ↔ BignumShiftHolds a.toInt k := by
  have hlo := k.le_toInt
  have hhi := k.toInt_lt
  rw [vmShiftBignum, BignumShiftHolds]
  rcases le_or_gt 0 k.toInt with hk | hk
  · rw [if_pos hk, if_pos hk]
    have hc := toInt_int32_ofInt k.toInt
    by_cases hmin : (Int32.ofInt k.toInt).toInt = -2 ^ 31
    · rw [(bignumShift_undefined ha h0 hmin).1]
      refine iff_of_false not_pushes_error ?_
      omega
    · obtain ⟨r, hr, hnorm, hval⟩ := bignumShiftLeft_floorShift ha h0 hmin
      rw [pushes_norm_iff hr hnorm, hval]
      constructor
      · intro heq
        by_contra hbig
        exact floorShift_ne h0 (by omega) (by omega) heq
      · intro hsmall
        congr 1
        omega
  · rw [if_neg hk.not_ge, if_neg hk.not_ge]
    by_cases hleast : k.toInt = -2 ^ 63
    · rw [signed_eq_undefined (by omega), error_bind]
      exact iff_of_false not_pushes_error fun h => h.1 hleast
    · rw [signed_eq_ok (by omega) (by omega), ok_bind]
      have hc := toInt_int32_ofInt (-k.toInt)
      by_cases hmin : (Int32.ofInt (-k.toInt)).toInt = -2 ^ 31
      · rw [(bignumShift_undefined ha h0 hmin).2]
        refine iff_of_false not_pushes_error ?_
        rintro ⟨-, hsmall | ⟨hmod, -⟩⟩ <;> omega
      · obtain ⟨r, hr, hnorm, hval⟩ := bignumShiftRight_floorShift ha h0 hmin
        rw [pushes_norm_iff hr hnorm, hval, and_iff_right hleast]
        rcases lt_or_ge (-k.toInt % 2 ^ 32) (2 ^ 31) with hmod | hmod
        · rw [if_pos hmod] at hc
          obtain ⟨m, hm⟩ := Int.eq_ofNat_of_zero_le (by omega : 0 ≤ -k.toInt)
          obtain ⟨n, hn⟩ := Int.eq_ofNat_of_zero_le (by omega : 0 ≤ -k.toInt % 2 ^ 32)
          rw [hc, hn, Int.toNat_natCast, floorShift_neg_natCast, show k.toInt = -(m : ℤ) by omega,
            floorShift_neg_natCast]
          rcases Nat.lt_or_ge n m with hlt | hge
          · rw [ediv_two_pow_eq_iff hlt]
            omega
          · rw [show n = m by omega]
            exact iff_of_true rfl (by omega)
        · rw [if_neg hmod.not_gt] at hc
          exact iff_of_false (floorShift_ne h0 (by omega) (by omega)).symm (by omega)

/-! ### Shifts of fixnums -/

theorem toInt_shiftedDown (val : Int64) (n : ℕ) :
    (shiftedDown val n).toInt = val.toInt / 2 ^ n := by
  rw [shiftedDown, Int64.toInt_ofBitVec, BitVec.toInt_sshiftRight, Int.shiftRight_eq_div_pow,
    Int64.toInt_toBitVec]
  norm_cast

theorem toInt_shiftedUp (val : Int64) (n : ℕ) :
    (shiftedUp val n).toInt = (val.toInt * 2 ^ n).bmod (2 ^ 64) := by
  rw [shiftedUp, Int64.toInt_ofBitVec, BitVec.toInt_shiftLeft, ← Int64.toInt_toBitVec,
    BitVec.toInt_eq_toNat_bmod, Int.bmod_mul_bmod, Nat.shiftLeft_eq, Nat.cast_mul, Nat.cast_pow,
    Nat.cast_ofNat]

theorem shiftedDown_shiftedUp_iff (val : Int64) {n : ℕ} (hn : n ≤ 63) :
    shiftedDown (shiftedUp val n) n = val ↔ InInt64 (val.toInt * 2 ^ n) := by
  have hpos : (0 : ℤ) < 2 ^ n := by positivity
  rw [← Int64.toInt_inj, toInt_shiftedDown]
  constructor
  · intro h
    have hdvd : (2 ^ n : ℤ) ∣ (shiftedUp val n).toInt := by
      rw [toInt_shiftedUp, Int.bmod_eq_self_sub_bdiv_mul]
      refine Dvd.dvd.sub (Dvd.intro_left _ rfl) (Dvd.dvd.mul_left ?_ _)
      exact_mod_cast pow_dvd_pow 2 (by omega : n ≤ 64)
    have heq : (shiftedUp val n).toInt = val.toInt * 2 ^ n := by rw [← h, Int.ediv_mul_cancel hdvd]
    rw [← heq]
    exact ⟨Int64.le_toInt _, Int64.toInt_lt _⟩
  · rintro ⟨hlo, hhi⟩
    rw [toInt_shiftedUp, Int.bmod_eq_of_le (by omega) (by omega),
      Int.mul_ediv_cancel _ hpos.ne']

theorem vmArithShiftI64_of_neg (val : Int64) {k : Int64} (hk : k.toInt < 0)
    (hmin : k.toInt ≠ -2 ^ 63) :
    ∃ r, vmArithShiftI64 val k = .ok r ∧ r.toInt = val.toInt / 2 ^ (-k.toInt).toNat := by
  have hlo := k.le_toInt
  refine ⟨shiftedDown val (min (-k.toInt) 63).toNat, ?_, ?_⟩
  · rw [vmArithShiftI64, if_neg hk.not_ge, signed_eq_ok (by omega) (by omega), ok_bind]
  · rw [toInt_shiftedDown]
    rcases le_or_gt (-k.toInt) 63 with hsmall | hbig
    · rw [min_eq_left hsmall]
    · rw [min_eq_right hbig.le]
      exact (ediv_two_pow_eq_iff (by omega : (63 : ℤ).toNat < _)).mpr
        ⟨val.le_toInt, val.toInt_lt⟩

/-- The integer that `(int64_t)as_number` makes of a fixnum. -/
def nearest (i : Int64) : ℤ := truncate (doubleOfInt i.toInt)

/-- When the shift of a fixnum is exact. The `double` nearest to it must fit an `int64_t`. A right
shift must not see the rounding; a left shift must take the exact path, or nothing must be
rounded. -/
def FixnumShiftHolds (i k : Int64) : Prop :=
  InInt64 (nearest i) ∧
    if k.toInt < 0 then
      k.toInt ≠ -2 ^ 63 ∧ nearest i / 2 ^ (-k.toInt).toNat = i.toInt / 2 ^ (-k.toInt).toNat
    else
      i = 0 ∨ (k.toInt < 2 ^ 31 ∧
        (62 < k.toInt ∨ nearest i = i.toInt ∨ ¬ InInt64 (nearest i * 2 ^ k.toInt.toNat)))

/-- When `arithmetic-shift` is exact. -/
def ShiftHolds : ExactVal → Int64 → Prop
  | .int i, k => FixnumShiftHolds i k
  | .bignum b, k => BignumShiftHolds b.toInt k
  | .rational _, _ => False

theorem pushes_int_iff {v : Int64} {z : ℤ} : Pushes (.ok (.int v)) z ↔ v.toInt = z := by
  rw [@pushes_ok_iff (.int v) trivial, ExactVal.toRat]
  norm_cast

theorem pushes_left_iff {i k val : Int64} (hk : 0 ≤ k.toInt) (h0 : i ≠ 0) :
    Pushes
      (if k.toInt ≤ 62 ∧ shiftedDown (shiftedUp val k.toInt.toNat) k.toInt.toNat = val then
        .ok (.int (shiftedUp val k.toInt.toNat))
      else vmShiftBignum (bignumFromInt64 i) k) (floorShift i.toInt k.toInt) ↔
    k.toInt < 2 ^ 31 ∧
      (62 < k.toInt ∨ val.toInt = i.toInt ∨ ¬ InInt64 (val.toInt * 2 ^ k.toInt.toNat)) := by
  have hpos : (0 : ℤ) < 2 ^ k.toInt.toNat := by positivity
  obtain ⟨hnorm, hval⟩ := bignumFromInt64_spec i
  have hexact := vmShiftBignum_iff hnorm
    (by rw [hval]; exact fun h => h0 (Int64.toInt_inj.mp h)) k
  rw [hval, BignumShiftHolds, if_pos hk] at hexact
  rcases le_or_gt k.toInt 62 with hle | hgt
  · have hround := shiftedDown_shiftedUp_iff val (by omega : k.toInt.toNat ≤ 63)
    by_cases hfit : InInt64 (val.toInt * 2 ^ k.toInt.toNat)
    · rw [if_pos ⟨hle, hround.mpr hfit⟩, pushes_int_iff, toInt_shiftedUp,
        Int.bmod_eq_of_le (by have := hfit.1; omega) (by have := hfit.2; omega),
        ← Int.toNat_of_nonneg hk, floorShift_natCast, Int.toNat_of_nonneg hk,
        Int.mul_eq_mul_right_iff hpos.ne']
      constructor
      · exact fun h => ⟨by omega, .inr (.inl h)⟩
      · rintro ⟨-, h | h | h⟩
        · omega
        · exact h
        · exact absurd hfit h
    · rw [if_neg fun h => hfit (hround.mp h.2), hexact]
      exact ⟨fun h => ⟨h, .inr (.inr hfit)⟩, And.left⟩
  · rw [if_neg fun h => hgt.not_ge h.1, hexact]
    exact ⟨fun h => ⟨h, .inl hgt⟩, And.left⟩

theorem vmPushShiftExact_int_iff (i k : Int64) :
    Pushes (vmPushShiftExact (.int i) k) (floorShift i.toInt k.toInt) ↔ FixnumShiftHolds i k := by
  have hconv : asInt64 (.int i) = int64 (nearest i) := rfl
  rw [FixnumShiftHolds, vmPushShiftExact, vmShiftFixnum, hconv]
  by_cases hfit : InInt64 (nearest i)
  · obtain ⟨val, hok, hval⟩ := @int64_eq_ok Empty _ hfit.1 hfit.2
    rw [hok, ok_bind, and_iff_right hfit, ← hval]
    rcases lt_or_ge k.toInt 0 with hneg | hpos
    · rw [if_pos hneg, if_pos hneg]
      by_cases hmin : k.toInt = -2 ^ 63
      · rw [vmArithShiftI64, if_neg hneg.not_ge, signed_eq_undefined (by omega)]
        exact iff_of_false not_pushes_error fun h => h.1 hmin
      · obtain ⟨r, hr, hrv⟩ := vmArithShiftI64_of_neg val hneg hmin
        rw [hr, ok_bind, pushes_int_iff, hrv, and_iff_right hmin, ← floorShift_neg_natCast i.toInt,
          Int.toNat_of_nonneg (by omega), neg_neg]
    · rw [if_neg hpos.not_gt, if_neg hpos.not_gt]
      have hzero : val = 0 ↔ i = 0 := by
        rw [← Int64.toInt_inj, hval, nearest, Int64.toInt_zero, truncate_doubleOfInt_eq_zero_iff,
          ← Int64.toInt_zero, Int64.toInt_inj]
      by_cases h0 : i = 0
      · rw [if_pos (hzero.mpr h0), pushes_int_iff, h0]
        refine iff_of_true ?_ (.inl rfl)
        rw [Int64.toInt_zero, floorShift, Int.cast_zero, zero_mul, Int.floor_zero]
      · rw [if_neg (mt hzero.mp h0), or_iff_right h0]
        exact pushes_left_iff hpos h0
  · refine iff_of_false ?_ fun h => hfit h.1
    rw [int64, signed_eq_undefined (by rw [InInt64] at hfit; omega)]
    exact not_pushes_error

/-! ### Main result -/

/-- An exact integer: a fixnum or a canonical bignum. -/
def ExactVal.IsInteger (v : ExactVal) : Prop := v.Canonical ∧ ∀ r, v ≠ .rational r

/-- **`arithmetic-shift`** pushes the canonical floor of `a * 2 ^ k` exactly under the condition
`ShiftHolds`. -/
theorem vmPushShiftExact_iff {a : ExactVal} (ha : a.IsInteger) (k : Int64) :
    Pushes (vmPushShiftExact a k) ⌊a.toRat * 2 ^ k.toInt⌋ ↔ ShiftHolds a k := by
  cases a with
  | int i => exact vmPushShiftExact_int_iff i k
  | bignum b =>
    obtain ⟨⟨hnorm, hbig⟩, -⟩ := ha
    refine vmShiftBignum_iff hnorm (fun h => hbig ?_) k
    rw [h]
    decide
  | rational r => exact absurd rfl (ha.2 r)

/-- `1` shifted left by 64 bits. -/
theorem vmPushShiftExact_iff_promotes :
    ExactVal.IsInteger (.int 1) ∧ ShiftHolds (.int 1) 64 ∧
      Pushes (vmPushShiftExact (.int 1) 64) ⌊ExactVal.toRat (.int 1) * 2 ^ (64 : Int64).toInt⌋ := by
  have hint : ExactVal.IsInteger (.int 1) := ⟨trivial, fun r h => by cases h⟩
  have hnear : nearest 1 = 1 := by
    rw [nearest, show (1 : Int64).toInt = 1 from rfl, doubleOfInt_one, truncate,
      if_pos zero_le_one, Int.floor_one]
  have hholds : ShiftHolds (.int 1) 64 := by
    refine ⟨by rw [hnear]; decide, ?_⟩
    rw [if_neg (by decide)]
    exact .inr ⟨by decide, .inl (by decide)⟩
  exact ⟨hint, hholds, (vmPushShiftExact_iff hint 64).mpr hholds⟩

/-- `2 ^ 64` shifted left by `2 ^ 32` bits is `2 ^ 64`: the count is narrowed to zero. -/
theorem vmPushShiftExact_narrowed :
    ExactVal.IsInteger (.bignum ⟨1, [0, 0, 1]⟩) ∧
      vmPushShiftExact (.bignum ⟨1, [0, 0, 1]⟩) 4294967296 = .ok (.bignum ⟨1, [0, 0, 1]⟩) ∧
      ¬ Pushes (vmPushShiftExact (.bignum ⟨1, [0, 0, 1]⟩) 4294967296)
        ⌊ExactVal.toRat (.bignum ⟨1, [0, 0, 1]⟩) * 2 ^ (4294967296 : Int64).toInt⌋ := by
  have hcan : ExactVal.Canonical (.bignum ⟨1, [0, 0, 1]⟩) := by decide
  have hne : (⟨1, [0, 0, 1]⟩ : VmBignum).toInt ≠ 0 := by decide
  refine ⟨⟨hcan, fun r h => by cases h⟩, by decide, ?_⟩
  refine mt (vmShiftBignum_iff hcan.1 hne 4294967296).mp ?_
  decide

end Eshkol.Vm
