import Eshkol.Math.FixedPoint

/-!
# Fixed-Point Division

`esk_fixed_div` (`lib/math/fixed_point/eshkol_fixed_point.c`): the magnitude of the dividend,
shifted up by the fraction into 256 bits, is divided by the magnitude of the divisor one bit
at a time. The remainder is exact. Of the quotient only the low 128 bits are kept, and the
bits above are dropped without a mark, so that narrowing sees the rounded quotient modulo
`2 ^ 128`.
-/

namespace Eshkol.FixedPoint

open Machine Ratio Radix

/-! ### Definitions -/

/-- One turn of the division loop: the quotient and the remainder so far. -/
def divBit (num : EskU256) (db : BitVec 128) (bit : ℕ) (st : BitVec 128 × BitVec 128) :
    BitVec 128 × BitVec 128 :=
  let nbit := if 128 ≤ bit then num.hi >>> (bit - 128) &&& 1#128 else num.lo >>> bit &&& 1#128
  let remHi := st.2 >>> 127
  let rem := st.2 <<< 1 ||| nbit
  if remHi ≠ 0 ∨ db ≤ rem then
    -- A quotient bit from position 128 up is dropped.
    (if bit < 128 then st.1 ||| 1#128 <<< bit else st.1, rem - db)
  else (st.1, rem)

/-- `for (int bit = 255; bit >= 0; --bit)`, with `bit` turns to go. -/
def divLoop (num : EskU256) (db : BitVec 128) :
    ℕ → BitVec 128 × BitVec 128 → BitVec 128 × BitVec 128
  | 0, st => st
  | bit + 1, st => divLoop num db bit (divBit num db bit st)

/-- Rounding of the quotient `q` with remainder `rem`. -/
def roundQuotient (mode : RoundMode) (q rem db : BitVec 128) : BitVec 128 :=
  if mode = .nearestEven ∨ mode = .stochastic then
    let twoRem := rem <<< 1
    let remHi : Bool := rem >>> 127 ≠ 0
    if remHi ∨ db < twoRem then q + 1#128
    else if !remHi ∧ twoRem = db then if q &&& 1#128 ≠ 0 then q + 1#128 else q
    else q
  else q

/-- The rounded magnitude of the quotient: the dividend is shifted up by `F` into 256 bits. -/
def quotientMagnitude (na db : BitVec 128) (F : ℕ) (mode : RoundMode) : BitVec 128 :=
  let num : EskU256 := if F = 0 then ⟨0, na⟩ else ⟨na >>> (128 - F), na <<< F⟩
  let out := divLoop num db 256 (0, 0)
  roundQuotient mode out.1 out.2 db

/-- `esk_fixed_div`; `none` is the answer `false` to a zero divisor. -/
def eskFixedDiv (a b : EskFixed) (mode : RoundMode) (of : OverflowMode) :
    Exec Empty (Option (EskFixed × Bool)) :=
  if b.raw = 0 then .ok none
  else do
    let q := quotientMagnitude (magnitude a.raw) (magnitude b.raw) a.F mode
    let res ← signmagToW (resultSign a.raw b.raw) q false a.W of
    .ok (some (⟨res.1, a.W, a.F⟩, res.2))

/-! ### The loop -/

/-- The machine's state with `bit` turns to go: the remainder of restoring division, and its
quotient modulo `2 ^ 128`. -/
def LoopState (num : EskU256) (db : BitVec 128) (bit : ℕ) (st : BitVec 128 × BitVec 128) : Prop :=
  ∃ quotient, RestoringState num.toNat db.toNat bit quotient st.2.toNat ∧
    st.1.toNat = quotient % 2 ^ 128

theorem toNat_nbit (num : EskU256) (bit : ℕ) :
    (if 128 ≤ bit then num.hi >>> (bit - 128) &&& 1#128 else num.lo >>> bit &&& 1#128).toNat
      = num.toNat / 2 ^ bit % 2 := by
  have hlo := num.lo.isLt
  split
  next h =>
      have hpow : 2 ^ bit = 2 ^ 128 * 2 ^ (bit - 128) := by rw [← pow_add, Nat.add_sub_cancel' h]
      rw [BitVec.toNat_and, BitVec.toNat_ushiftRight, Nat.shiftRight_eq_div_pow,
        BitVec.toNat_one (by decide), Nat.and_one_is_mod, EskU256.toNat, hpow,
        ← Nat.div_div_eq_div_mul, Nat.add_mul_div_left _ _ (by decide), Nat.div_eq_of_lt hlo,
        Nat.zero_add]
  next h =>
      have hpow : 2 ^ 128 = 2 ^ bit * (2 * 2 ^ (127 - bit)) := by
        rw [← pow_succ', ← pow_add]
        congr 1
        omega
      rw [BitVec.toNat_and, BitVec.toNat_ushiftRight, Nat.shiftRight_eq_div_pow,
        BitVec.toNat_one (by decide), Nat.and_one_is_mod, EskU256.toNat, hpow, Nat.mul_assoc,
        Nat.add_mul_div_left _ _ (by positivity), Nat.mul_assoc, Nat.add_mul_mod_self_left]

theorem toNat_or_bit {q : BitVec 128} {k bit : ℕ} (hbit : bit < 128)
    (hq : q.toNat = k * 2 ^ (bit + 1) % 2 ^ 128) :
    (q ||| 1#128 <<< bit).toNat = (k * 2 ^ (bit + 1) + 2 ^ bit) % 2 ^ 128 := by
  have hlt : 2 ^ bit < 2 ^ (bit + 1) := Nat.pow_lt_pow_right (by omega) (by omega)
  have hw : 2 ^ 128 = 2 ^ (127 - bit) * 2 ^ (bit + 1) := by
    rw [← pow_add]
    congr 1
    omega
  have hmod : k * 2 ^ (bit + 1) % 2 ^ 128 = k % 2 ^ (127 - bit) * 2 ^ (bit + 1) := by
    rw [hw, Nat.mul_mod_mul_right]
  have hroom : k % 2 ^ (127 - bit) * 2 ^ (bit + 1) + 2 ^ (bit + 1) ≤ 2 ^ 128 := by
    calc k % 2 ^ (127 - bit) * 2 ^ (bit + 1) + 2 ^ (bit + 1)
        = (k % 2 ^ (127 - bit) + 1) * 2 ^ (bit + 1) := by ring
      _ ≤ 2 ^ (127 - bit) * 2 ^ (bit + 1) :=
          Nat.mul_le_mul_right _ (Nat.mod_lt _ (by positivity))
      _ = 2 ^ 128 := hw.symm
  rw [BitVec.toNat_or, toNat_one_shiftLeft hbit, hq, hmod, or_eq_add hlt, ← hmod]
  rw [← hmod] at hroom
  omega

variable {db : BitVec 128} {mode : RoundMode}

/-- One bit of the long division. -/
theorem divBit_spec {num : EskU256} (hdb : db ≠ 0) {bit : ℕ} {st : BitVec 128 × BitVec 128}
    (h : LoopState num db (bit + 1) st) : LoopState num db bit (divBit num db bit st) := by
  obtain ⟨quotient, hstate, hq⟩ := h
  have hd : 0 < db.toNat := by
    rw [ne_eq, ← BitVec.toNat_inj, toNat_zero_word] at hdb
    omega
  have hdlt := db.isLt
  have hrem : st.2.toNat < db.toNat := by
    rw [hstate.remainder_eq]
    exact Nat.mod_lt _ hd
  have hnbit := toNat_nbit num bit
  rw [divBit]
  set nbit := if 128 ≤ bit then num.hi >>> (bit - 128) &&& 1#128 else num.lo >>> bit &&& 1#128
  have hnlt : nbit.toNat < 2 := by omega
  have hshift : (st.2 <<< 1 ||| nbit).toNat = 2 * st.2.toNat % 2 ^ 128 + nbit.toNat := by
    have heven : st.2.toNat * 2 % 2 ^ 128 = st.2.toNat % 2 ^ 127 * 2 ^ 1 := by omega
    rw [BitVec.toNat_or, BitVec.toNat_shiftLeft, Nat.shiftLeft_eq, pow_one, heven,
      or_eq_add (by omega)]
    omega
  have hhi : st.2 >>> 127 ≠ 0 ↔ 2 ^ 127 ≤ st.2.toNat := by
    rw [ne_eq, ← BitVec.toNat_inj, BitVec.toNat_ushiftRight, Nat.shiftRight_eq_div_pow,
      toNat_zero_word]
    have := st.2.isLt
    omega
  have hcond : st.2 >>> 127 ≠ 0 ∨ db ≤ st.2 <<< 1 ||| nbit
      ↔ db.toNat ≤ 2 * st.2.toNat + nbit.toNat := by
    rw [hhi, BitVec.le_def, hshift]
    omega
  by_cases hle : db.toNat ≤ 2 * st.2.toNat + nbit.toNat
  · rw [if_pos (hcond.mpr hle)]
    have hnext := hstate.subtract hd (by rwa [← hnbit])
    rw [← hnbit] at hnext
    refine ⟨quotient + 2 ^ bit, ?_, ?_⟩
    · have hsub : ((st.2 <<< 1 ||| nbit) - db).toNat = 2 * st.2.toNat + nbit.toNat - db.toNat := by
        rw [BitVec.toNat_sub, hshift]
        omega
      rw [hsub]
      exact hnext
    · rw [hstate.quotient_eq] at hq ⊢
      split
      next hbit => exact toNat_or_bit hbit hq
      next hbit =>
          have hpow : 2 ^ bit = 2 ^ 128 * 2 ^ (bit - 128) := by
            rw [← pow_add, Nat.add_sub_cancel' (not_lt.mp hbit)]
          rw [hq]
          conv_rhs => rw [hpow, Nat.add_mul_mod_self_left]
  · rw [if_neg (mt hcond.mp hle)]
    have hnext := hstate.keep (by rw [← hnbit]; omega)
    refine ⟨quotient, ?_, hq⟩
    rw [← hnbit] at hnext
    rw [show (st.2 <<< 1 ||| nbit).toNat = 2 * st.2.toNat + nbit.toNat by rw [hshift]; omega]
    exact hnext

theorem divLoop_invariant {num : EskU256} (hdb : db ≠ 0) (bit : ℕ) {st : BitVec 128 × BitVec 128}
    (h : LoopState num db bit st) : LoopState num db 0 (divLoop num db bit st) := by
  induction bit generalizing st with
  | zero => exact h
  | succ bit ih => exact ih (divBit_spec hdb h)

theorem divLoop_spec (num : EskU256) (hdb : db ≠ 0) :
    (divLoop num db 256 (0, 0)).1.toNat = num.toNat / db.toNat % 2 ^ 128 ∧
      (divLoop num db 256 (0, 0)).2.toNat = num.toNat % db.toNat := by
  have hlo := num.lo.isLt
  have hhi := num.hi.isLt
  have hlt : num.toNat < 2 ^ 256 := by
    rw [EskU256.toNat]
    omega
  have hstart : LoopState num db 256 (0, 0) := ⟨0, RestoringState.start _ hlt, rfl⟩
  obtain ⟨quotient, hstate, hq⟩ := divLoop_invariant hdb 256 hstart
  have hquot := hstate.quotient_eq
  have hrem := hstate.remainder_eq
  rw [pow_zero, Nat.div_one] at hquot hrem
  rw [Nat.mul_one] at hquot
  exact ⟨by rw [hq, hquot], hrem⟩

/-- The quotient is rounded as the mode says. -/
theorem roundQuotient_spec (hmode : mode ≠ .stochastic) {N : ℕ} {q rem : BitVec 128}
    (hd : 0 < db.toNat) (hq : q.toNat = N / db.toNat % 2 ^ 128) (hrem : rem.toNat = N % db.toNat) :
    ∃ m : ℕ, Rounds mode ((N : ℚ) / db.toNat) m ∧ m ≤ N + 1 ∧
      (roundQuotient mode q rem db).toNat = m % 2 ^ 128 := by
  have hle : N / db.toNat ≤ N := Nat.div_le_self _ _
  cases mode with
  | stochastic => exact absurd rfl hmode
  | truncate => exact ⟨_, (truncate_natDiv N hd).symm, by omega, hq⟩
  | nearestEven =>
    have hdlt := db.isLt
    have hlt : rem.toNat < db.toNat := by
      rw [hrem]
      exact Nat.mod_lt _ hd
    have hhi : rem >>> 127 ≠ 0 ↔ 2 ^ 127 ≤ rem.toNat := by
      rw [ne_eq, ← BitVec.toNat_inj, BitVec.toNat_ushiftRight, Nat.shiftRight_eq_div_pow,
        toNat_zero_word]
      omega
    have htwo : (rem <<< 1).toNat = 2 * rem.toNat % 2 ^ 128 := by
      rw [BitVec.toNat_shiftLeft, Nat.shiftLeft_eq, pow_one, Nat.mul_comm]
    have hodd : q &&& 1#128 ≠ 0 ↔ N / db.toNat % 2 = 1 := by
      rw [ne_eq, ← BitVec.toNat_inj, BitVec.toNat_and, BitVec.toNat_one (by decide),
        Nat.and_one_is_mod, toNat_zero_word, hq]
      omega
    have hplus : (q + 1#128).toNat = (N / db.toNat + 1) % 2 ^ 128 := by
      rw [BitVec.toNat_add, hq, BitVec.toNat_one (by decide)]
      omega
    refine ⟨_, nearestEven_natDiv N hd Iff.rfl, ?_, ?_⟩
    · split <;> omega
    rw [roundQuotient, if_pos (Or.inl rfl)]
    simp only [decide_eq_true_eq, hhi, BitVec.lt_def, htwo, ← BitVec.toNat_inj, hodd,
      Bool.not_eq_true', decide_eq_false_iff_not]
    rw [← hrem]
    by_cases hup : db.toNat < 2 * rem.toNat ∨ 2 * rem.toNat = db.toNat ∧ N / db.toNat % 2 = 1
    · rw [if_pos hup, ← hplus]
      split_ifs <;> first | rfl | omega
    · rw [if_neg hup, Nat.add_zero, ← hq]
      split_ifs <;> first | rfl | omega

theorem toNat_scaled (na : BitVec 128) {F : ℕ} (hF : F < 128) :
    (if F = 0 then (⟨0, na⟩ : EskU256) else ⟨na >>> (128 - F), na <<< F⟩).toNat
      = na.toNat * 2 ^ F := by
  rcases Nat.eq_zero_or_pos F with rfl | hpos
  · simp [EskU256.toNat]
  have hw : 2 ^ 128 = 2 ^ (128 - F) * 2 ^ F := by rw [← pow_add, Nat.sub_add_cancel hF.le]
  rw [if_neg hpos.ne', EskU256.toNat]
  simp only [BitVec.toNat_shiftLeft, BitVec.toNat_ushiftRight, Nat.shiftLeft_eq,
    Nat.shiftRight_eq_div_pow]
  have hdm := Nat.mod_add_div na.toNat (2 ^ (128 - F))
  calc na.toNat * 2 ^ F % 2 ^ 128 + 2 ^ 128 * (na.toNat / 2 ^ (128 - F))
      = (na.toNat % 2 ^ (128 - F) + 2 ^ (128 - F) * (na.toNat / 2 ^ (128 - F))) * 2 ^ F := by
        rw [hw, Nat.mul_mod_mul_right]
        ring
    _ = na.toNat * 2 ^ F := by rw [hdm]

theorem resultSign_div (a b : BitVec 128) (F : ℕ) :
    (a.toInt * 2 ^ F : ℚ) / b.toInt
      = resultSign a b * (((a.toInt.natAbs * 2 ^ F : ℕ) : ℚ) / (b.toInt.natAbs : ℕ)) := by
  have hcast : ∀ z : ℤ, ((z.natAbs : ℕ) : ℚ) = |(z : ℚ)| := fun z => by
    rw [← Int.cast_abs, ← Int.natCast_natAbs, Int.cast_natCast]
  rw [Nat.cast_mul, hcast, hcast, resultSign]
  have hneg : ∀ z : ℤ, z < 0 → |(z : ℚ)| = -z := fun z hz =>
    abs_of_neg (by exact_mod_cast hz)
  have hpos : ∀ z : ℤ, ¬ z < 0 → |(z : ℚ)| = z := fun z hz =>
    abs_of_nonneg (by exact_mod_cast not_lt.mp hz)
  push_cast
  split_ifs with hb ha ha
  · rw [hneg _ ha, hneg _ hb, div_neg]
    ring
  · rw [hpos _ ha, hneg _ hb, div_neg]
    ring
  · rw [hneg _ ha, hpos _ hb]
    ring
  · rw [hpos _ ha, hpos _ hb]
    ring

/-! ### Division -/

theorem quotientMagnitude_spec (na : BitVec 128) (hdb : db ≠ 0) {F : ℕ} (hF : F < 128)
    (hmode : mode ≠ .stochastic) :
    ∃ m : ℕ, Rounds mode (((na.toNat * 2 ^ F : ℕ) : ℚ) / db.toNat) m ∧
      m ≤ na.toNat * 2 ^ F + 1 ∧ (quotientMagnitude na db F mode).toNat = m % 2 ^ 128 := by
  obtain ⟨hq, hrem⟩ := divLoop_spec (if F = 0 then (⟨0, na⟩ : EskU256)
    else ⟨na >>> (128 - F), na <<< F⟩) hdb
  rw [toNat_scaled _ hF] at hq hrem
  have hpos : 0 < db.toNat := by
    rw [ne_eq, ← BitVec.toNat_inj, toNat_zero_word] at hdb
    omega
  exact roundQuotient_spec hmode hpos hq hrem

theorem tmod_signmag {sign : ℤ} (hs : sign = 1 ∨ sign = -1) (m : ℕ) :
    (sign * m).tmod (2 ^ 128) = sign * ((m % 2 ^ 128 : ℕ) : ℤ) := by
  have hnat : (m : ℤ).tmod (2 ^ 128) = ((m % 2 ^ 128 : ℕ) : ℤ) := by
    rw [Int.ofNat_tmod]
    rfl
  rcases hs with rfl | rfl
  · rw [one_mul, one_mul, hnat]
  · rw [neg_one_mul, neg_one_mul, Int.neg_tmod, hnat]

theorem eskFixedDiv_eq {a b : EskFixed} (hb : b.raw ≠ 0) (mode : RoundMode)
    (of : OverflowMode) :
    eskFixedDiv a b mode of = (do
      let res ← signmagToW (resultSign a.raw b.raw)
        (quotientMagnitude (magnitude a.raw) (magnitude b.raw) a.F mode) false a.W of
      .ok (some (⟨res.1, a.W, a.F⟩, res.2))) :=
  if_neg hb

/-- **Division** delivers the rounded quotient reduced modulo `2 ^ 128` toward zero. Below 128
bits there is nothing to reduce. -/
theorem eskFixedDiv_spec {a b : EskFixed} (ha : a.Valid) (hb0 : b.raw.toInt ≠ 0)
    (hmode : mode ≠ .stochastic) (of : OverflowMode) :
    ∃ n : ℤ, Rounds mode ((a.raw.toInt * 2 ^ a.F : ℚ) / b.raw.toInt) n ∧
      (a.W ≠ 128 → |n| < 2 ^ 128) ∧
      (a.W = 128 ∧ n.tmod (2 ^ 128) = -2 ^ 127 → eskFixedDiv a b mode of = .error .undefined) ∧
      (¬ (a.W = 128 ∧ n.tmod (2 ^ 128) = -2 ^ 127) →
        ∃ out, eskFixedDiv a b mode of = .ok (some out) ∧
          Delivers of a.W a.F (n.tmod (2 ^ 128)) out) := by
  have hF : a.F < 128 := by
    have := ha.frac_lt
    rcases ha.width with h | h | h <;> omega
  have hbraw : b.raw ≠ 0 := fun h => hb0 (by rw [h]; rfl)
  have hdb : magnitude b.raw ≠ 0 := by
    intro h
    have hmag := toNat_magnitude b.raw
    rw [h, toNat_zero_word] at hmag
    omega
  obtain ⟨m, hrounds, hmle, hmag⟩ := quotientMagnitude_spec (magnitude a.raw) hdb hF hmode
  rw [toNat_magnitude, toNat_magnitude] at hrounds
  have hsign := resultSign_cases a.raw b.raw
  have hovf : false = true ↔ 2 ^ 128 ≤ m % 2 ^ 128 := by
    have := Nat.mod_lt m (by decide : 0 < 2 ^ 128)
    simp only [Bool.false_eq_true, false_iff]
    omega
  obtain ⟨hundef, hok⟩ := signmagToW_spec ha.width hsign (m := m % 2 ^ 128)
    (by rw [hmag, Nat.mod_mod]) hovf of
  have htmod := tmod_signmag hsign m
  refine ⟨resultSign a.raw b.raw * m, ?_, ?_, ?_, ?_⟩
  · rw [resultSign_div]
    exact hrounds.sign hsign
  · intro hw
    have hsmall := ha.small hw
    have hF' : a.F < 64 := by
      have := ha.frac_lt
      rcases ha.width with h | h | h <;> omega
    have hbound : (magnitude a.raw).toNat * 2 ^ a.F ≤ 2 ^ 63 * 2 ^ 63 :=
      Nat.mul_le_mul (by rw [toNat_magnitude]; omega) (Nat.pow_le_pow_right (by omega) (by omega))
    have habs : |resultSign a.raw b.raw * (m : ℤ)| = m := by
      rw [abs_mul, abs_of_nonneg (by positivity : (0 : ℤ) ≤ m)]
      rcases hsign with h | h <;> rw [h] <;> simp
    rw [habs]
    omega
  · intro hexc
    rw [htmod] at hexc
    rw [eskFixedDiv_eq hbraw, hundef hexc]
    rfl
  · intro hexc
    rw [htmod] at hexc ⊢
    obtain ⟨out, hout, hnarrow⟩ := hok hexc
    exact ⟨_, by rw [eskFixedDiv_eq hbraw, hout, ok_bind], hnarrow.delivers a.F⟩

theorem tmod_of_abs_lt {n : ℤ} (h : |n| < 2 ^ 128) : n.tmod (2 ^ 128) = n := by
  have hq : n.tdiv (2 ^ 128) = 0 := (tdiv_eq_zero_iff (by decide)).mpr h
  have hdm := Int.mul_tdiv_add_tmod n (2 ^ 128)
  rwa [hq, mul_zero, zero_add] at hdm

theorem narrow_tmod (of : OverflowMode) {n : ℤ} (h : OutOfRange 128 (n.tmod (2 ^ 128))) :
    OutOfRange 128 n ∧ narrow of 128 (n.tmod (2 ^ 128)) = narrow of 128 n := by
  have hdm := Int.mul_tdiv_add_tmod n (2 ^ 128)
  set r := n.tmod (2 ^ 128)
  set q := n.tdiv (2 ^ 128)
  -- The part cut off has the sign of what is left.
  have hsides : 0 ≤ r ∧ 0 ≤ q ∨ r ≤ 0 ∧ q ≤ 0 := by
    rcases le_total 0 n with hn | hn
    · exact Or.inl ⟨Int.tmod_nonneg _ hn, Int.tdiv_nonneg hn (by decide)⟩
    · have h1 := Int.tmod_nonneg (2 ^ 128) (by omega : 0 ≤ -n)
      have h2 := Int.tdiv_nonneg (by omega : 0 ≤ -n) (by decide : (0 : ℤ) ≤ 2 ^ 128)
      rw [Int.neg_tmod] at h1
      rw [Int.neg_tdiv] at h2
      exact Or.inr ⟨by omega, by omega⟩
  rw [OutOfRange] at h
  refine ⟨by rw [OutOfRange]; omega, ?_⟩
  cases of with
  | saturate =>
    change max (-2 ^ 127) (min r (2 ^ 127 - 1)) = max (-2 ^ 127) (min n (2 ^ 127 - 1))
    omega
  | wrap =>
    change r.bmod (2 ^ 128) = n.bmod (2 ^ 128)
    rw [← hdm, add_comm]
    exact (Int.add_mul_bmod_self_left r (2 ^ 128) q).symm

/-- **Division, with its exact condition.** For operands in range, a divisor that is not zero
and both deterministic rounding modes, division delivers the rounded exact quotient always
below 128 bits. At 128 bits it does so exactly when the quotient fits 128 bits of magnitude,
or what is left of it modulo `2 ^ 128` is out of range too, and what is left is not the one
magnitude whose negation overflows. -/
theorem eskFixedDiv_iff {a b : EskFixed} (ha : a.Valid) (hb0 : b.raw.toInt ≠ 0)
    {mode : RoundMode} (hmode : mode ≠ .stochastic) (of : OverflowMode) :
    (∃ n out, Rounds mode ((a.raw.toInt * 2 ^ a.F : ℚ) / b.raw.toInt) n ∧
      eskFixedDiv a b mode of = .ok (some out) ∧ Delivers of a.W a.F n out) ↔
    (a.W = 128 → ∀ n, Rounds mode ((a.raw.toInt * 2 ^ a.F : ℚ) / b.raw.toInt) n →
      (|n| < 2 ^ 128 ∨ OutOfRange 128 (n.tmod (2 ^ 128))) ∧ n.tmod (2 ^ 128) ≠ -2 ^ 127) := by
  obtain ⟨n, hn, hsmall, hundef, hok⟩ := eskFixedDiv_spec ha hb0 hmode of
  constructor
  · rintro ⟨k, out, hk, hdiv, hout⟩ hw j hj
    obtain rfl := hn.unique hmode hk
    obtain rfl := hn.unique hmode hj
    have hne : n.tmod (2 ^ 128) ≠ -2 ^ 127 := by
      intro h
      rw [hundef ⟨hw, h⟩] at hdiv
      cases hdiv
    refine ⟨?_, hne⟩
    obtain ⟨out', hdiv', hout'⟩ := hok fun h => hne h.2
    obtain rfl : out = out' := Option.some.inj (Except.ok.inj (hdiv.symm.trans hdiv'))
    by_cases hlt : |n| < 2 ^ 128
    · exact Or.inl hlt
    · right
      rw [hw] at hout hout'
      refine hout'.overflow.mp (hout.overflow.mpr ?_)
      rw [OutOfRange]
      rw [not_lt, le_abs] at hlt
      omega
  · intro hcond
    have hne : ¬ (a.W = 128 ∧ n.tmod (2 ^ 128) = -2 ^ 127) := fun h => (hcond h.1 n hn).2 h.2
    obtain ⟨out, hdiv, hout⟩ := hok hne
    refine ⟨n, out, hn, hdiv, ?_⟩
    by_cases hlt : |n| < 2 ^ 128
    · rwa [tmod_of_abs_lt hlt] at hout
    · have hw : a.W = 128 := by
        by_contra hw
        exact hlt (hsmall hw)
      have hover := (hcond hw n hn).1.resolve_left hlt
      obtain ⟨hn', hnarrow⟩ := narrow_tmod of hover
      rw [hw] at hout ⊢
      exact ⟨hout.width, hout.frac, hout.raw.trans hnarrow,
        iff_of_true (hout.overflow.mpr hover) hn'⟩

/-- `1 / -3` in the format `(64, 32)`. -/
theorem eskFixedDiv_iff_q32 :
    (⟨4294967296#128, 64, 32⟩ : EskFixed).Valid ∧ (-12884901888#128).toInt ≠ 0 ∧
    ∃ n out, Rounds .nearestEven
        (((4294967296#128).toInt * 2 ^ 32 : ℚ) / (-12884901888#128).toInt) n ∧
      eskFixedDiv ⟨4294967296#128, 64, 32⟩ ⟨-12884901888#128, 64, 32⟩ .nearestEven .wrap
        = .ok (some out) ∧ Delivers .wrap 64 32 n out := by
  have ha : (⟨4294967296#128, 64, 32⟩ : EskFixed).Valid :=
    ⟨by decide, by decide, by decide, by decide⟩
  have hb0 : (-12884901888#128).toInt ≠ 0 := by decide
  exact ⟨ha, hb0, (eskFixedDiv_iff (b := ⟨-12884901888#128, 64, 32⟩) ha hb0
    (by decide : RoundMode.nearestEven ≠ .stochastic) .wrap).mpr fun h => absurd h (by decide)⟩

/-- In the format `(128, 127)`, `1/2` divided by the least positive value is `2 ^ 253`, out of
range; division returns zero and reports no overflow. -/
theorem eskFixedDiv_dropped :
    (⟨1#128 <<< 126, 128, 127⟩ : EskFixed).Valid ∧ (⟨1#128, 128, 127⟩ : EskFixed).Valid ∧
    eskFixedDiv ⟨1#128 <<< 126, 128, 127⟩ ⟨1#128, 128, 127⟩ .truncate .saturate
      = .ok (some (⟨0, 128, 127⟩, false)) ∧
    ¬ ∃ n out, Rounds .truncate (((1#128 <<< 126).toInt * 2 ^ 127 : ℚ) / (1#128).toInt) n ∧
      eskFixedDiv ⟨1#128 <<< 126, 128, 127⟩ ⟨1#128, 128, 127⟩ .truncate .saturate
        = .ok (some out) ∧ Delivers .saturate 128 127 n out := by
  have hdiv : eskFixedDiv ⟨1#128 <<< 126, 128, 127⟩ ⟨1#128, 128, 127⟩ .truncate .saturate
      = .ok (some (⟨0, 128, 127⟩, false)) := by decide +kernel
  refine ⟨⟨by decide, by decide, by decide, by decide⟩,
    ⟨by decide, by decide, by decide, by decide⟩, hdiv, ?_⟩
  rintro ⟨n, out, hn, hok, hout⟩
  obtain rfl := Option.some.inj (Except.ok.inj (hdiv.symm.trans hok))
  have hn' : n = 2 ^ 253 := by
    rw [show n = truncate _ from hn, show (1#128 <<< 126).toInt = 2 ^ 126 by decide,
      show (1#128).toInt = 1 by decide]
    norm_num [truncate]
  have hover := hout.overflow.mpr (Or.inr (by rw [hn']; decide))
  cases hover

end Eshkol.FixedPoint
