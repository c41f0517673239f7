import Eshkol.Native.Bignum
import Eshkol.Radix.Knuth

/-!
# Native Bignum Multiplication and Division

Schoolbook multiplication and Knuth's Algorithm D over 64-bit limbs with 128-bit
temporaries (`lib/core/bignum.cpp`). The running borrow of the multiply-and-subtract loop
is a signed 128-bit integer and is checked at every assignment, so that a division that
returns has overflowed nowhere.
-/

namespace Eshkol

open Radix Machine

/-- Exceptions raised by the arithmetic runtime (`eshkol_make_exception`,
`eshkol_runtime_fatal`), with their message. -/
inductive Exn : Type
  | divideByZero (message : String)
  | typeError (message : String)
  | error (message : String)
  deriving DecidableEq, Repr

/-! ### Multiplication -/

def bignumAddmulLimb (result a : List (BitVec 64)) (bLimb : BitVec 64) (offset : ℕ) :
    List (BitVec 64) :=
  addmulAt result a bLimb offset

/-- `eshkol_bignum_mul`. Zero limbs of `b` are skipped; the sign is chosen before
normalization, which clears it on zero. -/
def eshkolBignumMul (a b : Bignum) : Bignum :=
  let result := mulLoop
    (fun result y i => if y ≠ 0 then bignumAddmulLimb result a.limbs y i else result)
    b.limbs 0 (List.replicate (a.numLimbs + b.numLimbs) 0)
  let isZero : Bool := result.length = 1 ∧ result.head? = some 0
  bignumNormalize (a.sign ≠ b.sign && !isZero) result

theorem value_mulLoop_bignumAddmulLimb (a b : Bignum) :
    value (mulLoop
      (fun result y i => if y ≠ 0 then bignumAddmulLimb result a.limbs y i else result)
      b.limbs 0 (List.replicate (a.numLimbs + b.numLimbs) 0)) = a.magnitude * b.magnitude := by
  rw [mulLoop_spec (a := a.limbs) ?_ (List.length_replicate ..) ?_ ?_]
  · rw [show List.replicate (a.numLimbs + b.numLimbs) (0 : BitVec 64)
      = List.replicate (a.numLimbs + b.numLimbs) 0#64 from rfl, value_replicate_zero]
    simp [Bignum.magnitude]
  · intro result y i hlen hi hclear
    by_cases hy : y = 0
    · rw [if_neg (by simp [hy])]
      refine ⟨hlen, by simp [hy], ?_⟩
      rw [show i + 1 + a.limbs.length = (i + a.limbs.length) + 1 by omega, ← List.drop_drop]
      exact value_eq_zero_iff.mpr fun x hx =>
        value_eq_zero_iff.mp hclear x (List.mem_of_mem_drop hx)
    · rw [if_pos hy]
      obtain ⟨h1, h2, h3⟩ := addmulAt_spec y (by omega) hclear
      exact ⟨h1.trans hlen, h2, h3⟩
  · simp only [Bignum.numLimbs]
    omega
  · rw [List.drop_replicate]
    exact value_replicate_zero _

theorem toInt_eshkolBignumMul (a b : Bignum) : (eshkolBignumMul a b).toInt = a.toInt * b.toInt := by
  have hval := value_mulLoop_bignumAddmulLimb a b
  unfold eshkolBignumMul
  set result := mulLoop
    (fun result y i => if y ≠ 0 then bignumAddmulLimb result a.limbs y i else result)
    b.limbs 0 (List.replicate (a.numLimbs + b.numLimbs) 0) with hresult
  rw [toInt_bignumNormalize, hval, Bignum.toInt.eq_1 a, Bignum.toInt.eq_1 b]
  by_cases hz : result.length = 1 ∧ result.head? = some 0
  · obtain ⟨x, hx⟩ := List.length_eq_one_iff.mp hz.1
    have hzero : a.magnitude * b.magnitude = 0 := by
      rw [← hval, hx, (by simpa [hx] using hz.2 : x = 0)]
      simp
    rw [hzero]
    rcases Nat.mul_eq_zero.mp hzero with h | h <;> simp [h]
  · simp only [hz, decide_false, Bool.not_false, Bool.and_true, decide_eq_true_eq]
    cases a.sign <;> cases b.sign <;> simp

theorem eshkolBignumMul_normalized (a b : Bignum) : (eshkolBignumMul a b).Normalized :=
  bignumNormalize_normalized _ _

def bignumDivLimb (a : Bignum) (divisor : BitVec 64) : Exec Exn (Bignum × BitVec 64) :=
  if divisor = 0 then .error .undefined
  else
    let out := rippleDown (shortDivStep divisor) a.limbs 0
    .ok (bignumNormalize false out.1, BitVec.ofNat 64 out.2)

theorem bignumDivLimb_spec (a : Bignum) {divisor : BitVec 64} (hd : divisor.toNat ≠ 0) :
    ∃ q r, bignumDivLimb a divisor = .ok (q, r) ∧ q.Normalized ∧
      q.magnitude = a.magnitude / divisor.toNat ∧ r.toNat = a.magnitude % divisor.toNat := by
  obtain ⟨hq, hr⟩ := value_rippleDown_shortDivStep hd a.limbs
  have hne : divisor ≠ 0 := fun hz => hd (by rw [hz]; rfl)
  refine ⟨_, _, by rw [bignumDivLimb, if_neg hne], bignumNormalize_normalized _ _, ?_, ?_⟩
  · rw [magnitude_bignumNormalize, hq, Bignum.magnitude]
  · have hmod : value a.limbs % divisor.toNat < 2 ^ 64 :=
      lt_trans (Nat.mod_lt _ (by omega)) (BitVec.isLt _)
    rw [BitVec.toNat_ofNat, hr, Nat.mod_eq_of_lt hmod, Bignum.magnitude]

/-! ### Knuth's Algorithm D -/

/-- One limb of the multiply-and-subtract loop. `borrow_s` is never positive. -/
def divmodMulSub (qhat : ℕ) (borrow : ℤ) (x : BitVec 64 × BitVec 64) :
    Exec Exn (BitVec 64 × ℤ) := do
  let prod := qhat % 2 ^ 64 * x.2.toNat % 2 ^ 128
  let plo : ℕ := prod % 2 ^ 64
  let phi : ℕ := prod / 2 ^ 64 % 2 ^ 64
  let diff ← signed 128 ((x.1.toNat : ℤ) - plo)
  let diff ← signed 128 (diff + borrow)
  let borrow ← signed 128 (diff >>> (64 : ℕ) - phi)
  .ok (BitVec.ofInt 64 diff, borrow)

/-- The top limb of the window less the last borrow. -/
def divmodTopDiff (top : BitVec 64) (borrow : ℤ) : Exec Exn ℤ :=
  signed 128 ((top.toNat : ℤ) + borrow)

/-- `(rhat << 64) + un[j + n - 2]`. -/
def divmodJoin (rhat u : ℕ) : ℕ := (rhat + u) % 2 ^ 128

/-- The body of the main loop, over one window of the shifted dividend. -/
def divmodStep (vn win : List (BitVec 64)) : Exec Exn (BitVec 64 × List (BitVec 64)) :=
  digitStep divmodJoin divmodMulSub divmodTopDiff vn win

/-- Limbs moved up by `shift` bits, and the bits carried out. -/
def shiftedLimbs (shift : ℕ) (l : List (BitVec 64)) : List (BitVec 64) × BitVec 64 :=
  if shift > 0 then ripple (shlStep shift) l 0 else (l, 0)

/-- Limbs moved down by `shift` bits. -/
def unshiftedLimbs (shift : ℕ) (l : List (BitVec 64)) : List (BitVec 64) :=
  if shift > 0 then (rippleDown (shrStep shift) l 0).1 else l

/-- The shift that sets the top bit of the divisor's top limb. -/
def normalizationShift (b : Bignum) : ℕ :=
  let dTop := b.limbs.getLast b.limbs_ne_nil
  if dTop ≠ 0 then dTop.clz.toNat else 0

/-- `vn_shifted`. -/
def shiftedDivisor (b : Bignum) : List (BitVec 64) :=
  (shiftedLimbs (normalizationShift b) b.limbs).1

/-- `un`, one limb longer than `a`. -/
def shiftedDividend (a b : Bignum) : List (BitVec 64) :=
  let ua := shiftedLimbs (normalizationShift b) a.limbs
  ua.1 ++ [ua.2]

/-- `bignum_divmod_abs`, with both its results. -/
def bignumDivmodAbs (a b : Bignum) : Exec Exn (Bignum × Bignum) :=
  if b.numLimbs = 1 then do
    let out ← bignumDivLimb a (b.limbs.head b.limbs_ne_nil)
    .ok (out.1, ⟨false, [out.2], by simp⟩)
  else
    let cmp := bignumCompareAbs a b
    if cmp < 0 then .ok (bignumZero, { a with sign := false })
    else if cmp = 0 then .ok (⟨false, [1], by simp⟩, bignumZero)
    else do
      let n := b.numLimbs
      let m := a.numLimbs - n
      let out ← divLoop n (divmodStep (shiftedDivisor b)) (m + 1) (shiftedDividend a b)
      .ok (bignumNormalize false out.1,
        bignumNormalize false (unshiftedLimbs (normalizationShift b) (out.2.take n)))

theorem divmodMulSub_spec : MulSubSpec id divmodMulSub divmodTopDiff where
  zero := rfl
  pass := by
    intro qhat b x hq hb
    simp only [id_eq] at hb ⊢
    have h1 := x.1.isLt
    have h2 := x.2.isLt
    have hprod : qhat * x.2.toNat ≤ (2 ^ 64 - 1) * (2 ^ 64 - 1) :=
      Nat.mul_le_mul (by omega) (by omega)
    have hq' : qhat % 2 ^ 64 = qhat := Nat.mod_eq_of_lt hq
    have hp' : qhat * x.2.toNat % 2 ^ 128 = qhat * x.2.toNat := Nat.mod_eq_of_lt (by omega)
    have hcast : -(qhat : ℤ) * (x.2.toNat : ℤ) = -((qhat * x.2.toNat : ℕ) : ℤ) := by
      push_cast
      ring
    simp only [divmodMulSub, hq', hp', hcast]
    set p := qhat * x.2.toNat with hp
    rw [signed_eq_ok (by omega) (by omega), ok_bind, signed_eq_ok (by omega) (by omega), ok_bind,
      Int.shiftRight_eq_div_pow, signed_eq_ok (by omega) (by omega), ok_bind]
    refine ⟨_, rfl, ?_, ?_⟩
    · omega
    · rw [BitVec.toNat_ofInt]
      omega
  top := by
    intro t b hb
    have ht := t.isLt
    simp only [id_eq] at hb ⊢
    exact signed_eq_ok (by omega) (by omega)

theorem divmodJoin_eq {r u : ℕ} (hr : r < 2 ^ 64) (hu : u < 2 ^ 64) :
    divmodJoin (r * 2 ^ 64) u = r * 2 ^ 64 + u :=
  Nat.mod_eq_of_lt (by omega)

theorem value_shiftedLimbs {shift : ℕ} (hs : shift ≤ 64) (l : List (BitVec 64)) :
    (shiftedLimbs shift l).1.length = l.length ∧
      value (shiftedLimbs shift l).1 + (2 ^ 64) ^ l.length * (shiftedLimbs shift l).2.toNat
        = value l * 2 ^ shift := by
  unfold shiftedLimbs
  split
  next h => exact ⟨length_ripple _ _ _, value_ripple_shlStep hs l⟩
  next h =>
      obtain rfl : shift = 0 := by omega
      simp

theorem value_unshiftedLimbs {shift : ℕ} (hs : shift ≤ 64) (l : List (BitVec 64)) :
    value (unshiftedLimbs shift l) = value l / 2 ^ shift := by
  unfold unshiftedLimbs
  split
  next h => exact value_rippleDown_shrStep hs l
  next h =>
      obtain rfl : shift = 0 := by omega
      simp

variable {b a : Bignum}

theorem normalizationShift_spec (hb : b.Normalized) (h : 1 < b.numLimbs) :
    normalizationShift b < 64 ∧
      2 ^ 63 ≤ (b.limbs.getLast b.limbs_ne_nil).toNat * 2 ^ normalizationShift b ∧
      (b.limbs.getLast b.limbs_ne_nil).toNat * 2 ^ normalizationShift b
        + 2 ^ normalizationShift b ≤ 2 ^ 64 := by
  have hne := hb.1 h
  rw [normalizationShift, if_pos hne]
  set d := b.limbs.getLast b.limbs_ne_nil with hd
  have hlt : d.clz.toNat < 64 := by
    have := BitVec.clz_lt_iff_ne_zero.mpr hne
    simpa [BitVec.lt_def] using this
  have hlow := BitVec.two_pow_sub_clz_le_toNat_of_ne_zero (by decide) hne
  have hhigh := BitVec.toNat_lt_two_pow_sub_clz (x := d)
  refine ⟨hlt, ?_, ?_⟩
  · calc 2 ^ 63 = 2 ^ (64 - 1 - d.clz.toNat) * 2 ^ d.clz.toNat := by
          rw [← pow_add]
          congr 1
          omega
      _ ≤ d.toNat * 2 ^ d.clz.toNat := Nat.mul_le_mul_right _ hlow
  · calc d.toNat * 2 ^ d.clz.toNat + 2 ^ d.clz.toNat
        = (d.toNat + 1) * 2 ^ d.clz.toNat := by ring
      _ ≤ 2 ^ (64 - d.clz.toNat) * 2 ^ d.clz.toNat := Nat.mul_le_mul_right _ hhigh
      _ = 2 ^ 64 := by
          rw [← pow_add]
          congr 1
          omega

theorem shifted_operands {a b : Bignum} (hb : b.Normalized) (h : 1 < b.numLimbs)
    (hle : b.magnitude ≤ a.magnitude) :
    Shifted a.limbs b.limbs (shiftedDividend a b) (shiftedDivisor b) (normalizationShift b)
      (shiftedLimbs (normalizationShift b) b.limbs).2.toNat := by
  obtain ⟨hs, hlo, hhi⟩ := normalizationShift_spec hb h
  obtain ⟨hvl, hv⟩ := value_shiftedLimbs hs.le b.limbs
  obtain ⟨hul, hu⟩ := value_shiftedLimbs hs.le a.limbs
  refine ⟨b.limbs_ne_nil, hs, hlo, hhi, h, hb.numLimbs_le hle, hvl, ?_, ?_, ?_⟩
  · rwa [shiftedDivisor, hvl]
  · rw [shiftedDividend, List.length_append, List.length_singleton, hul]
  · rw [shiftedDividend, value_append, hul, value_cons, value_nil, Nat.mul_zero, Nat.add_zero, hu]

/-- Quotient and remainder of the magnitudes. -/
theorem bignumDivmodAbs_spec (ha : a.Normalized) (hb : b.Normalized) (hb0 : b.magnitude ≠ 0) :
    ∃ q r, bignumDivmodAbs a b = .ok (q, r) ∧ q.Normalized ∧ r.Normalized ∧
      q.magnitude = a.magnitude / b.magnitude ∧ r.magnitude = a.magnitude % b.magnitude := by
  have hpos := b.numLimbs_pos
  unfold bignumDivmodAbs
  split
  next h1 =>
      have hhead := Bignum.magnitude_of_numLimbs_le_one (a := b) (by omega)
      have hd : (b.limbs.head b.limbs_ne_nil).toNat ≠ 0 := by omega
      obtain ⟨q, r, hrun, hqn, hq, hr⟩ := bignumDivLimb_spec a hd
      rw [hrun, ok_bind]
      refine ⟨_, _, rfl, hqn, ⟨by simp [Bignum.numLimbs], by simp⟩, ?_, ?_⟩
      · rw [hq, hhead]
      · rw [Bignum.magnitude, value_cons, value_nil, hr, hhead]
        omega
  next h1 =>
      rcases bignumCompareAbs_cases ha hb with ⟨hc, he⟩ | ⟨hc, hlt, -⟩ | ⟨hc, hlt, -⟩
      · rw [hc, if_neg (by decide), if_pos rfl]
        refine ⟨_, _, rfl, by decide, by decide, ?_, ?_⟩
        · rw [he, Nat.div_self (by omega)]
          rfl
        · rw [he, Nat.mod_self]
          rfl
      · rw [hc, if_neg (by decide), if_neg (by decide)]
        have hshift := (normalizationShift_spec hb (by omega)).1
        obtain ⟨out, hout, hq, hr⟩ :=
          (shifted_operands hb (by omega) hlt.le).divLoop_spec (fun _ _ => divmodJoin_eq)
            divmodMulSub_spec
        have hrun : divLoop b.numLimbs (divmodStep (shiftedDivisor b))
            (a.numLimbs - b.numLimbs + 1) (shiftedDividend a b) = .ok out := hout
        simp only [hrun, ok_bind]
        refine ⟨_, _, rfl, bignumNormalize_normalized _ _, bignumNormalize_normalized _ _, ?_, ?_⟩
        · rw [magnitude_bignumNormalize, hq, Bignum.magnitude, Bignum.magnitude]
        · rw [magnitude_bignumNormalize, value_unshiftedLimbs hshift.le, Bignum.numLimbs, hr,
            Nat.mul_div_cancel _ (by positivity), Bignum.magnitude, Bignum.magnitude]
      · rw [hc, if_pos (by decide)]
        refine ⟨_, _, rfl, by decide, ha.withSign (by simp), ?_, ?_⟩
        · rw [Nat.div_eq_of_lt hlt]
          rfl
        · rw [Nat.mod_eq_of_lt hlt]
          rfl

/-! ### Signed division -/

def eshkolBignumDiv (a b : Bignum) : Exec Exn Bignum :=
  if eshkolBignumIsZero b then .error (.raised (.divideByZero "bignum division by zero"))
  else do
    let out ← bignumDivmodAbs a b
    .ok { out.1 with sign := a.sign ≠ b.sign && !eshkolBignumIsZero out.1 }

def eshkolBignumMod (a b : Bignum) : Exec Exn Bignum :=
  if eshkolBignumIsZero b then .error (.raised (.divideByZero "bignum modulo by zero"))
  else do
    let out ← bignumDivmodAbs a b
    .ok { out.2 with sign := a.sign && !eshkolBignumIsZero out.2 }

theorem withSign_unless_zero (ha : a.Normalized) (s : Bool) :
    ({ a with sign := s && !eshkolBignumIsZero a } : Bignum).Normalized ∧
      ({ a with sign := s && !eshkolBignumIsZero a } : Bignum).toInt
        = if s then -(a.magnitude : ℤ) else a.magnitude := by
  have hz := eshkolBignumIsZero_iff ha
  rw [Bignum.toInt_eq_zero_iff] at hz
  refine ⟨ha.withSign fun hs hm => ?_, ?_⟩
  · simp [hz.mpr hm] at hs
  · rw [toInt_withSign]
    by_cases hm : a.magnitude = 0
    · simp [hm]
    · simp [mt hz.mp hm]

theorem magnitude_ne_zero_of_toInt_ne_zero (h : b.toInt ≠ 0) : b.magnitude ≠ 0 :=
  mt Bignum.toInt_eq_zero_iff.mpr h

theorem eshkolBignumDiv_eq (ha : a.Normalized) (hb : b.Normalized) (hb0 : b.toInt ≠ 0) :
    ∃ q, eshkolBignumDiv a b = .ok q ∧ q.Normalized ∧ q.toInt = a.toInt.tdiv b.toInt := by
  obtain ⟨q, r, hqr, hq, -, hqm, -⟩ :=
    bignumDivmodAbs_spec ha hb (magnitude_ne_zero_of_toInt_ne_zero hb0)
  obtain ⟨hnorm, hval⟩ := withSign_unless_zero hq (a.sign ≠ b.sign)
  rw [eshkolBignumDiv, if_neg (mt (eshkolBignumIsZero_iff hb).mp hb0), hqr, ok_bind]
  refine ⟨_, rfl, hnorm, ?_⟩
  rw [hval, hqm, Bignum.toInt.eq_1 a, Bignum.toInt.eq_1 b]
  cases a.sign <;> cases b.sign <;> simp [Int.neg_tdiv, Int.tdiv_neg]

theorem eshkolBignumMod_eq (ha : a.Normalized) (hb : b.Normalized) (hb0 : b.toInt ≠ 0) :
    ∃ r, eshkolBignumMod a b = .ok r ∧ r.Normalized ∧ r.toInt = a.toInt.tmod b.toInt := by
  obtain ⟨q, r, hqr, -, hr, -, hrm⟩ :=
    bignumDivmodAbs_spec ha hb (magnitude_ne_zero_of_toInt_ne_zero hb0)
  obtain ⟨hnorm, hval⟩ := withSign_unless_zero hr a.sign
  rw [eshkolBignumMod, if_neg (mt (eshkolBignumIsZero_iff hb).mp hb0), hqr, ok_bind]
  refine ⟨_, rfl, hnorm, ?_⟩
  rw [hval, hrm, Int.ofNat_tmod, Bignum.toInt.eq_1 a, Bignum.toInt.eq_1 b]
  cases a.sign <;> cases b.sign <;> simp [Int.neg_tmod, Int.tmod_neg]

/-- **Truncating division.** Quotient and remainder of normalized operands are normalized
and satisfy the division identity, the remainder is smaller than the divisor and takes the
sign of the dividend. Where the main loop runs, every window it comes to is turned into
its true quotient digit and its remainder. -/
theorem eshkolBignumDiv_mod {a b : Bignum} (ha : a.Normalized) (hb : b.Normalized)
    (hb0 : b.toInt ≠ 0) :
    (∃ q r, eshkolBignumDiv a b = .ok q ∧ eshkolBignumMod a b = .ok r ∧
      q.Normalized ∧ r.Normalized ∧ a.toInt = q.toInt * b.toInt + r.toInt ∧
      |r.toInt| < |b.toInt| ∧ (r.toInt = 0 ∨ r.toInt.sign = a.toInt.sign)) ∧
    (1 < b.numLimbs → b.magnitude < a.magnitude →
      ∀ win, Visits b.numLimbs (divmodStep (shiftedDivisor b)) (a.numLimbs - b.numLimbs + 1)
          (shiftedDividend a b) win →
        ∃ out, divmodStep (shiftedDivisor b) win = .ok out ∧
          out.1.toNat = value win / value (shiftedDivisor b) ∧
          value out.2 = value win % value (shiftedDivisor b)) := by
  constructor
  · obtain ⟨q, hq, hqn, hqv⟩ := eshkolBignumDiv_eq ha hb hb0
    obtain ⟨r, hr, hrn, hrv⟩ := eshkolBignumMod_eq ha hb hb0
    refine ⟨q, r, hq, hr, hqn, hrn, ?_, ?_, ?_⟩
    · rw [hqv, hrv, Int.mul_comm, Int.mul_tdiv_add_tmod]
    · rw [hrv, Int.abs_eq_natAbs, Int.abs_eq_natAbs, Int.natAbs_tmod]
      exact_mod_cast Nat.mod_lt _ (Int.natAbs_pos.mpr hb0)
    · by_cases hz : r.toInt = 0
      · exact Or.inl hz
      · right
        rcases le_total 0 a.toInt with h | h
        · have hr0 : 0 ≤ r.toInt := hrv ▸ Int.tmod_nonneg _ h
          have ha0 : a.toInt ≠ 0 := fun h0 => hz (by rw [hrv, h0, Int.zero_tmod])
          rw [Int.sign_eq_one_of_pos (by omega), Int.sign_eq_one_of_pos (by omega)]
        · have hr0 : r.toInt ≤ 0 := by
            have := Int.tmod_nonneg b.toInt (a := -a.toInt) (by omega)
            rw [Int.neg_tmod] at this
            omega
          have ha0 : a.toInt ≠ 0 := fun h0 => hz (by rw [hrv, h0, Int.zero_tmod])
          rw [Int.sign_eq_neg_one_of_neg (by omega), Int.sign_eq_neg_one_of_neg (by omega)]
  · intro hn hlt win hvisit
    exact (shifted_operands hb hn hlt.le).digit_of_visits (fun _ _ => divmodJoin_eq)
      divmodMulSub_spec hvisit

theorem eshkolBignumDiv_mod_three_limbs_by_two :
    (∃ q r, eshkolBignumDiv ⟨true, [5, 0, 1], by simp⟩ ⟨false, [3, 1], by simp⟩ = .ok q ∧
      eshkolBignumMod ⟨true, [5, 0, 1], by simp⟩ ⟨false, [3, 1], by simp⟩ = .ok r ∧
      q.Normalized ∧ r.Normalized ∧
      Bignum.toInt ⟨true, [5, 0, 1], by simp⟩
        = q.toInt * Bignum.toInt ⟨false, [3, 1], by simp⟩ + r.toInt ∧
      |r.toInt| < |Bignum.toInt ⟨false, [3, 1], by simp⟩| ∧
      (r.toInt = 0 ∨ r.toInt.sign = (Bignum.toInt ⟨true, [5, 0, 1], by simp⟩).sign)) :=
  (eshkolBignumDiv_mod (by decide) (by decide) (by decide)).1

end Eshkol
