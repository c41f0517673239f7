import Eshkol.Vm.Bignum
import Eshkol.Radix.Knuth

/-!
# VM Bignum Division

Division of the VM's bignums (`lib/backend/vm_bignum.c`): by one limb, and by Knuth's
Algorithm D over 32-bit limbs with 64-bit temporaries. Unlike the native division the
running borrow is held positive, and the shift is found by doubling the divisor's top limb
until its top bit is set, which runs for ever on a zero limb.

A quotient is `none` where the source returns a null pointer.
-/

namespace Eshkol.Vm

open Radix Machine

/-! ### Division of magnitudes -/

def magDivSingle (a : VmBignum) (d : BitVec 32) : Option (VmBignum × BitVec 32) :=
  if d = 0 then none
  else
    let out := rippleDown (shortDivStep d) a.limbs 0
    some (bignumNormalize 1 out.1, BitVec.ofNat 32 out.2)

/-- `while (t < 0x80000000U) { t <<= 1; s++; }`. A nonzero `t` is doubled at most 31 times. -/
def doublingLoop : ℕ → ℕ → ℕ → Exec Empty ℕ
  | 0, _, _ => .error .diverges
  | fuel + 1, t, s => if t < 2 ^ 31 then doublingLoop fuel (t * 2 % 2 ^ 32) (s + 1) else .ok s

/-- The shift that sets the top bit of the divisor's top limb. -/
def normalizationShift (msb : BitVec 32) : Exec Empty ℕ := doublingLoop 32 msb.toNat 0

/-- Limbs moved up by `s` bits, and the bits carried out. -/
def shiftedLimbs (s : ℕ) (l : List (BitVec 32)) : List (BitVec 32) × BitVec 32 :=
  if s > 0 then ripple (shlWideStep s) l 0 else (l, 0)

/-- Limbs moved down by `s` bits. -/
def unshiftedLimbs (s : ℕ) (l : List (BitVec 32)) : List (BitVec 32) :=
  if s > 0 then (rippleDown (shrStep s) l 0).1 else l

/-- One limb of the multiply-and-subtract loop. `borrow` is never negative. -/
def knuthMulSub (qhat : ℕ) (borrow : ℤ) (x : BitVec 32 × BitVec 32) :
    Exec Empty (BitVec 32 × ℤ) := do
  let prod := qhat * x.2.toNat % 2 ^ 64
  let diff ← signed 64 ((x.1.toNat : ℤ) - (prod % 2 ^ 32 : ℕ))
  let diff ← signed 64 (diff - borrow)
  let borrow ← signed 64 ((prod / 2 ^ 32 : ℕ) - diff >>> (32 : ℕ))
  .ok (BitVec.ofInt 32 diff, borrow)

/-- The top limb of the window less the last borrow. -/
def knuthTopDiff (top : BitVec 32) (borrow : ℤ) : Exec Empty ℤ :=
  signed 64 ((top.toNat : ℤ) - borrow)

/-- `(r_hat << 32) | un[j + n - 2]`. -/
def knuthJoin (rhat u : ℕ) : ℕ := rhat ||| u

/-- The body of the main loop, over one window of the shifted dividend. -/
def knuthStep (vn win : List (BitVec 32)) : Exec Empty (BitVec 32 × List (BitVec 32)) :=
  digitStep knuthJoin knuthMulSub knuthTopDiff vn win

def magDivKnuth (a b : VmBignum) : Exec Empty (VmBignum × VmBignum) :=
  if a.nLimbs < b.nLimbs then .ok (bignumFromInt64 0, a)
  else do
    let n := b.nLimbs
    let m := a.nLimbs - n
    let s ← normalizationShift (b.limbs.getLastD 0)
    let vn := (shiftedLimbs s b.limbs).1
    let ua := shiftedLimbs s a.limbs
    let out ← divLoop n (knuthStep vn) (m + 1) (ua.1 ++ [ua.2])
    .ok (bignumNormalize 1 out.1, bignumNormalize 1 (unshiftedLimbs s (out.2.take n)))

/-- The quotient and the remainder of `bignum_divmod` before their signs are set. -/
def divmodUnsigned (a b : VmBignum) : Exec Empty (Option VmBignum × VmBignum) :=
  if b.nLimbs = 1 then
    match magDivSingle a (b.limbs.headD 0) with
    | some (q, rem32) => .ok (some q, bignumFromUint64 rem32.toNat)
    | none => .ok (none, bignumFromUint64 0)
  else
    let cmp := bignumCompareMagnitude a b
    if cmp < 0 then .ok (some (bignumFromInt64 0), a)
    else if cmp = 0 then .ok (some (bignumFromInt64 1), bignumFromInt64 0)
    else do
      let out ← magDivKnuth a b
      .ok (some out.1, out.2)

theorem knuthMulSub_spec : MulSubSpec (fun b => -b) knuthMulSub knuthTopDiff where
  zero := rfl
  pass := by
    intro qhat b x hq hb
    have h1 := x.1.isLt
    have h2 := x.2.isLt
    have hprod : qhat * x.2.toNat ≤ (2 ^ 32 - 1) * (2 ^ 32 - 1) :=
      Nat.mul_le_mul (by omega) (by omega)
    have hp' : qhat * x.2.toNat % 2 ^ 64 = qhat * x.2.toNat := Nat.mod_eq_of_lt (by omega)
    have hcast : -(qhat : ℤ) * (x.2.toNat : ℤ) = -((qhat * x.2.toNat : ℕ) : ℤ) := by
      push_cast
      ring
    simp only [knuthMulSub, hp', hcast]
    set p := qhat * x.2.toNat with hp
    rw [signed_eq_ok (by omega) (by omega), ok_bind, signed_eq_ok (by omega) (by omega), ok_bind,
      Int.shiftRight_eq_div_pow, signed_eq_ok (by omega) (by omega), ok_bind]
    refine ⟨_, rfl, ?_, ?_⟩
    · omega
    · rw [BitVec.toNat_ofInt]
      omega
  top := by
    intro t b hb
    have ht := t.isLt
    exact signed_eq_ok (by omega) (by omega)

theorem knuthJoin_eq {r u : ℕ} (hu : u < 2 ^ 32) : knuthJoin (r * 2 ^ 32) u = r * 2 ^ 32 + u := by
  rw [knuthJoin, or_eq_add hu]

theorem doublingLoop_spec (fuel : ℕ) {t : ℕ} (s : ℕ) (hlt : t < 2 ^ 32) (hfuel : 2 ^ 31 ≤ t * 2 ^ fuel) :
    ∃ k ≤ fuel, doublingLoop (fuel + 1) t s = .ok (s + k) ∧
      2 ^ 31 ≤ t * 2 ^ k ∧ t * 2 ^ k < 2 ^ 32 := by
  induction fuel generalizing t s with
  | zero =>
    rw [pow_zero, Nat.mul_one] at hfuel
    exact ⟨0, le_refl _, by rw [doublingLoop, if_neg (by omega), Nat.add_zero], by omega,
      by omega⟩
  | succ fuel ih =>
    rw [doublingLoop]
    split
    next h =>
        rw [pow_succ 2 fuel, Nat.mul_comm _ 2, ← Nat.mul_assoc] at hfuel
        obtain ⟨k, hk, hrun, hlo, hhi⟩ := ih (s + 1) (by omega) hfuel
        refine ⟨k + 1, by omega, ?_, ?_, ?_⟩
        · rw [Nat.mod_eq_of_lt (by omega), hrun, Nat.add_assoc, Nat.add_comm 1 k]
        · rwa [pow_succ 2 k, Nat.mul_comm _ 2, ← Nat.mul_assoc]
        · rwa [pow_succ 2 k, Nat.mul_comm _ 2, ← Nat.mul_assoc]
    next h => exact ⟨0, by omega, by rw [Nat.add_zero], by omega, by omega⟩

theorem normalizationShift_spec {msb : BitVec 32} (hne : msb ≠ 0) :
    ∃ s < 32, normalizationShift msb = .ok s ∧ 2 ^ 31 ≤ msb.toNat * 2 ^ s ∧
      msb.toNat * 2 ^ s + 2 ^ s ≤ 2 ^ 32 := by
  have hpos : 0 < msb.toNat := by
    rcases Nat.eq_zero_or_pos msb.toNat with h | h
    · exact absurd (BitVec.eq_of_toNat_eq h) hne
    · exact h
  obtain ⟨s, hs, hrun, hlo, hhi⟩ := doublingLoop_spec 31 0 msb.isLt (by omega)
  refine ⟨s, by omega, by rw [normalizationShift, hrun, Nat.zero_add], hlo, ?_⟩
  -- A multiple of `2 ^ s` below `2 ^ 32`, itself a multiple, is below by `2 ^ s` at least.
  have hw : 2 ^ 32 = 2 ^ (32 - s) * 2 ^ s := by rw [← pow_add, Nat.sub_add_cancel (by omega)]
  rw [hw] at hhi ⊢
  calc msb.toNat * 2 ^ s + 2 ^ s = (msb.toNat + 1) * 2 ^ s := by ring
    _ ≤ 2 ^ (32 - s) * 2 ^ s := Nat.mul_le_mul_right _ (Nat.lt_of_mul_lt_mul_right hhi)

theorem value_shiftedLimbs {s : ℕ} (hs : s ≤ 32) (l : List (BitVec 32)) :
    (shiftedLimbs s l).1.length = l.length ∧
      value (shiftedLimbs s l).1 + (2 ^ 32) ^ l.length * (shiftedLimbs s l).2.toNat
        = value l * 2 ^ s := by
  rw [shiftedLimbs]
  split
  next h => exact ⟨length_ripple _ _ _, value_ripple_shlWideStep hs l⟩
  next h =>
      obtain rfl : s = 0 := by omega
      simp

theorem value_unshiftedLimbs {s : ℕ} (hs : s ≤ 32) (l : List (BitVec 32)) :
    value (unshiftedLimbs s l) = value l / 2 ^ s := by
  rw [unshiftedLimbs]
  split
  next h => exact value_rippleDown_shrStep hs l
  next h =>
      obtain rfl : s = 0 := by omega
      simp

/-- Division of magnitudes by Knuth's algorithm. -/
theorem magDivKnuth_spec {a b : VmBignum} (hb : b.Normalized) (h : 1 < b.nLimbs)
    (hle : b.magnitude ≤ a.magnitude) :
    ∃ q r, magDivKnuth a b = .ok (q, r) ∧ q.Normalized ∧ r.Normalized ∧
      q.magnitude = a.magnitude / b.magnitude ∧ r.magnitude = a.magnitude % b.magnitude := by
  have hlimbs := hb.nLimbs_le hle
  have hne : b.limbs ≠ [] := List.ne_nil_of_length_pos (by rw [VmBignum.nLimbs] at h; omega)
  obtain ⟨s, hs, hrun, hlo, hhi⟩ := normalizationShift_spec (hb.top_ne_zero hne)
  obtain ⟨hvl, hv⟩ := value_shiftedLimbs hs.le b.limbs
  obtain ⟨hul, hu⟩ := value_shiftedLimbs hs.le a.limbs
  have hshift : Shifted a.limbs b.limbs ((shiftedLimbs s a.limbs).1 ++ [(shiftedLimbs s a.limbs).2])
      (shiftedLimbs s b.limbs).1 s (shiftedLimbs s b.limbs).2.toNat := by
    refine ⟨hne, hs, hlo, hhi, h, hlimbs, hvl, by rwa [hvl], ?_, ?_⟩
    · rw [List.length_append, List.length_singleton, hul]
    · rw [value_append, hul, value_cons, value_nil, Nat.mul_zero, Nat.add_zero, hu]
  obtain ⟨out, hout, hq, hr⟩ := hshift.divLoop_spec (fun _ _ _ => knuthJoin_eq) knuthMulSub_spec
  have hdiv : divLoop b.nLimbs (knuthStep (shiftedLimbs s b.limbs).1) (a.nLimbs - b.nLimbs + 1)
      ((shiftedLimbs s a.limbs).1 ++ [(shiftedLimbs s a.limbs).2]) = .ok out := hout
  obtain ⟨hqn, hqm, -⟩ := bignumNormalize_spec (s := 1) (by decide) out.1
  obtain ⟨hrn, hrm, -⟩ := bignumNormalize_spec (s := 1) (by decide)
    (unshiftedLimbs s (out.2.take b.nLimbs))
  refine ⟨_, _, ?_, hqn, hrn, ?_, ?_⟩
  · rw [magDivKnuth, if_neg (not_lt.mpr hlimbs), List.getLastD_eq_getLast?,
      List.getLast?_eq_some_getLast hne, Option.getD_some, hrun]
    simp only [ok_bind, hdiv]
  · rw [hqm, hq, VmBignum.magnitude, VmBignum.magnitude]
  · rw [hrm, value_unshiftedLimbs hs.le, VmBignum.nLimbs, hr,
      Nat.mul_div_cancel _ (by positivity), VmBignum.magnitude, VmBignum.magnitude]

/-- Quotient and remainder of the magnitudes. -/
theorem divmodUnsigned_spec {a b : VmBignum} (ha : a.Normalized) (hb : b.Normalized)
    (hb0 : b.magnitude ≠ 0) :
    ∃ q r, divmodUnsigned a b = .ok (some q, r) ∧ q.Normalized ∧ r.Normalized ∧
      q.magnitude = a.magnitude / b.magnitude ∧ r.magnitude = a.magnitude % b.magnitude := by
  have hpos : 0 < b.nLimbs := List.length_pos_of_ne_nil (mt hb.magnitude_eq_zero_iff.mpr hb0)
  rw [divmodUnsigned]
  split
  next h1 =>
      obtain ⟨d, hd⟩ := List.length_eq_one_iff.mp h1
      have hmag : b.magnitude = d.toNat := by rw [VmBignum.magnitude, hd]; simp
      have hd0 : d.toNat ≠ 0 := by omega
      have hne : d ≠ 0 := fun hz => hd0 (by rw [hz]; rfl)
      obtain ⟨hq, hr⟩ := value_rippleDown_shortDivStep hd0 a.limbs
      have hlt : value a.limbs % d.toNat < 2 ^ 32 := lt_trans (Nat.mod_lt _ (by omega)) d.isLt
      obtain ⟨hqn, hqm, -⟩ := bignumNormalize_spec (s := 1) (by decide)
        (rippleDown (shortDivStep d) a.limbs 0).1
      obtain ⟨hrn, hrv⟩ := bignumFromUint64_spec (v := value a.limbs % d.toNat) (by omega)
      rw [hd, List.headD_cons, magDivSingle, if_neg hne]
      simp only [hr, BitVec.toNat_ofNat, Nat.mod_eq_of_lt hlt]
      refine ⟨_, _, rfl, hqn, hrn, ?_, ?_⟩
      · rw [hqm, hq, hmag, VmBignum.magnitude]
      · rw [← hrn.natAbs_toInt, hrv, hmag, VmBignum.magnitude, Int.natAbs_natCast]
  next h1 =>
      obtain ⟨h0n, h0v⟩ := bignumFromInt64_spec 0
      obtain ⟨h1n, h1v⟩ := bignumFromInt64_spec 1
      rcases bignumCompareMagnitude_cases ha hb with ⟨hc, he⟩ | ⟨hc, hlt, -⟩ | ⟨hc, hlt, -⟩
      · simp only [hc, lt_irrefl, if_false, if_true]
        refine ⟨_, _, rfl, h1n, h0n, ?_, ?_⟩
        · rw [he, Nat.div_self (by omega), ← h1n.natAbs_toInt, h1v]
          rfl
        · rw [he, Nat.mod_self, ← h0n.natAbs_toInt, h0v]
          rfl
      · obtain ⟨q, r, hqr, hspec⟩ := magDivKnuth_spec hb (by omega) hlt.le
        simp only [hc, hqr, ok_bind]
        exact ⟨q, r, rfl, hspec⟩
      · simp only [hc]
        refine ⟨_, _, rfl, h0n, ha, ?_, ?_⟩
        · rw [Nat.div_eq_of_lt hlt, ← h0n.natAbs_toInt, h0v]
          rfl
        · rw [Nat.mod_eq_of_lt hlt]

/-! ### Signed division -/

/-- `if (x && !bignum_is_zero(x)) x->sign = s`. -/
def applySign (s : SignType) (x : VmBignum) : VmBignum :=
  if bignumIsZero x then x else { x with sign := s }

/-- `bignum_divmod`. A zero divisor is reported and yields two zeros. -/
def bignumDivmod (a b : VmBignum) : Exec Empty (Option VmBignum × VmBignum) :=
  if bignumIsZero b then .ok (some (bignumFromInt64 0), bignumFromInt64 0)
  else if bignumIsZero a then .ok (some (bignumFromInt64 0), bignumFromInt64 0)
  else do
    let out ← divmodUnsigned a b
    .ok (out.1.map (applySign (if a.sign = b.sign then 1 else -1)), applySign a.sign out.2)

def bignumDiv (a b : VmBignum) : Exec Empty (Option VmBignum) := do
  let out ← bignumDivmod a b
  .ok out.1

def bignumMod (a b : VmBignum) : Exec Empty VmBignum := do
  let out ← bignumDivmod a b
  .ok out.2

theorem applySign_spec {s : SignType} (hs : s ≠ 0) {x : VmBignum} (hx : x.Normalized) :
    (applySign s x).Normalized ∧ (applySign s x).toInt = (s : ℤ) * x.magnitude := by
  rw [applySign]
  split
  next h =>
      have hzero := (bignumIsZero_iff hx).mp h
      have hmag := hx.natAbs_toInt
      rw [hzero, Int.natAbs_zero] at hmag
      exact ⟨hx, by rw [hzero, ← hmag, Nat.cast_zero, mul_zero]⟩
  next h =>
      have hne := sign_ne_zero_of_not_isZero hx h
      exact ⟨⟨hx.top_ne_zero, iff_of_false hs (mt hx.sign_eq_zero_iff.mpr hne)⟩, rfl⟩

theorem sign_mul_tdiv {s t : SignType} (hs : s ≠ 0) (ht : t ≠ 0) (m n : ℕ) :
    ((s : ℤ) * m).tdiv ((t : ℤ) * n) = (s : ℤ) * t * (m / n : ℕ) ∧
      ((s : ℤ) * m).tmod ((t : ℤ) * n) = (s : ℤ) * (m % n : ℕ) := by
  rw [Int.ofNat_tmod]
  revert hs ht
  cases s <;> cases t <;> simp [Int.neg_tdiv, Int.tdiv_neg, Int.neg_tmod, Int.tmod_neg]

theorem bignumDivmod_spec {a b : VmBignum} (ha : a.Normalized) (hb : b.Normalized)
    (hb0 : b.toInt ≠ 0) :
    ∃ q r, bignumDivmod a b = .ok (some q, r) ∧ q.Normalized ∧ r.Normalized ∧
      q.toInt = a.toInt.tdiv b.toInt ∧ r.toInt = a.toInt.tmod b.toInt := by
  have hzb := mt (bignumIsZero_iff hb).mp hb0
  have hsb := sign_ne_zero_of_not_isZero hb hzb
  have hmb := magnitude_pos_of_not_isZero hb hzb
  rw [bignumDivmod, if_neg hzb]
  split
  next hza =>
      obtain ⟨h0n, h0v⟩ := bignumFromInt64_spec 0
      refine ⟨_, _, rfl, h0n, h0n, ?_, ?_⟩
      · rw [h0v, (bignumIsZero_iff ha).mp hza, Int.zero_tdiv]
        rfl
      · rw [h0v, (bignumIsZero_iff ha).mp hza, Int.zero_tmod]
        rfl
  next hza =>
      have hsa := sign_ne_zero_of_not_isZero ha hza
      obtain ⟨q, r, hqr, hqn, hrn, hqm, hrm⟩ := divmodUnsigned_spec ha hb hmb.ne'
      obtain ⟨htd, htm⟩ := sign_mul_tdiv hsa hsb a.magnitude b.magnitude
      obtain ⟨hq, hqv⟩ := applySign_spec (s := if a.sign = b.sign then 1 else -1)
        (by split <;> decide) hqn
      obtain ⟨hr, hrv⟩ := applySign_spec hsa hrn
      rw [hqr, ok_bind]
      refine ⟨_, _, rfl, hq, hr, ?_, ?_⟩
      · rw [hqv, coe_sign_mul hsa hsb, hqm, VmBignum.toInt.eq_1 a, VmBignum.toInt.eq_1 b, htd]
      · rw [hrv, hrm, VmBignum.toInt.eq_1 a, VmBignum.toInt.eq_1 b, htm]

section

variable {a b : VmBignum} (ha : a.Normalized) (hb : b.Normalized)
include ha hb

theorem bignumDiv_spec (hb0 : b.toInt ≠ 0) :
    ∃ q, bignumDiv a b = .ok (some q) ∧ q.Normalized ∧ q.toInt = a.toInt.tdiv b.toInt := by
  obtain ⟨q, r, hqr, hq, -, hqv, -⟩ := bignumDivmod_spec ha hb hb0
  exact ⟨q, by rw [bignumDiv, hqr, ok_bind], hq, hqv⟩

theorem bignumMod_spec (hb0 : b.toInt ≠ 0) :
    ∃ r, bignumMod a b = .ok r ∧ r.Normalized ∧ r.toInt = a.toInt.tmod b.toInt := by
  obtain ⟨q, r, hqr, -, hr, -, hrv⟩ := bignumDivmod_spec ha hb hb0
  exact ⟨r, by rw [bignumMod, hqr, ok_bind], hr, hrv⟩

end

def bignumGcd (a b : VmBignum) : Exec Empty VmBignum :=
  if bignumIsZero a then .ok (bignumAbsVal b)
  else if bignumIsZero b then .ok (bignumAbsVal a)
  else
    euclid bignumIsZero
      (fun x y => do
        let r ← bignumMod x y
        .ok (applySign 1 r)) ((bignumAbsVal b).magnitude + 1) (bignumAbsVal a) (bignumAbsVal b)

/-- The greatest common divisor. -/
theorem bignumGcd_spec {a b : VmBignum} (ha : a.Normalized) (hb : b.Normalized) :
    ∃ g, bignumGcd a b = .ok g ∧ g.Normalized ∧ g.toInt = Int.gcd a.toInt b.toInt := by
  obtain ⟨hx, hxv⟩ := bignumAbsVal_spec ha
  obtain ⟨hy, hyv⟩ := bignumAbsVal_spec hb
  rw [bignumGcd]
  split
  next hz =>
      refine ⟨_, rfl, hy, ?_⟩
      rw [hyv, (bignumIsZero_iff ha).mp hz, Int.gcd_zero_left, hb.natAbs_toInt]
  next hza =>
      split
      next hz =>
          refine ⟨_, rfl, hx, ?_⟩
          rw [hxv, (bignumIsZero_iff hb).mp hz, Int.gcd_zero_right, ha.natAbs_toInt]
      next hzb =>
          -- The operands stay normalized and non-negative.
          obtain ⟨g, hg, ⟨hgn, hg0⟩, hgm⟩ := euclid_spec bignumIsZero
            (fun x y => do
              let r ← bignumMod x y
              .ok (applySign 1 r))
            (fun x => x.Normalized ∧ x.toInt = x.magnitude) VmBignum.magnitude
            (fun y hy => by rw [bignumIsZero_iff hy.1, hy.2, Nat.cast_eq_zero])
            (fun x y hx hy hne => by
              obtain ⟨r, hr, hrn, hrv⟩ := bignumMod_spec hx.1 hy.1 (by rw [hy.2]; exact_mod_cast hne)
              obtain ⟨hsn, hsv⟩ := applySign_spec (s := 1) (by decide) hrn
              have hmag := hsn.natAbs_toInt
              rw [hsv, SignType.coe_one, one_mul, Int.natAbs_natCast] at hmag
              rw [hr, ok_bind]
              refine ⟨_, rfl, ⟨hsn, by rw [hsv, SignType.coe_one, one_mul, hmag]⟩, ?_⟩
              rw [← hmag, ← hrn.natAbs_toInt, hrv, hx.2, hy.2, Int.natAbs_tmod, Int.natAbs_natCast,
                Int.natAbs_natCast])
            ⟨hx, by rw [hxv, ← hx.natAbs_toInt, hxv, Int.natAbs_natCast]⟩
            ⟨hy, by rw [hyv, ← hy.natAbs_toInt, hyv, Int.natAbs_natCast]⟩ (Nat.lt_succ_self _)
          refine ⟨g, hg, hgn, ?_⟩
          rw [hg0, hgm, ← hx.natAbs_toInt, ← hy.natAbs_toInt, hxv, hyv, Int.natAbs_natCast,
            Int.natAbs_natCast, Int.gcd, ha.natAbs_toInt, hb.natAbs_toInt]

end Eshkol.Vm
