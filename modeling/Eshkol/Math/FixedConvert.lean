import Eshkol.Math.FixedPoint

/-!
# Conversions to a Fixed-Point Format

`esk_fixed_from_i64` and `esk_fixed_convert` report whether the result denotes the number that was
given. A conversion to fewer fraction bits rounds and compares magnitudes, and reports the truth.
A conversion to as many or more shifts to the left inside a word of 128 bits first and looks at
the range afterwards: what the shift has lost is not noticed. A shift keeps the low bits of a
signed word, as the compilers that have `__int128` define it.
-/

namespace Eshkol.FixedPoint

open Machine Ratio Radix

/-! ### Definitions -/

/-- `esk_fixed_from_i64`, with the flag `exact`. -/
def eskFixedFromI64 (v : BitVec 64) (W F : ℕ) (of : OverflowMode) : EskFixed × Bool :=
  let raw := v.signExtend 128 <<< F
  let out := clampToW raw W of (if 0 ≤ v.toInt then 1 else -1) false
  (⟨out.1, W, F⟩, !out.2)

/-- `esk_fixed_convert`, with the flag `exact` and the state of the generator. -/
def eskFixedConvert (a : EskFixed) (W F : ℕ) (mode : RoundMode) (of : OverflowMode)
    (rng : BitVec 64) : Exec Empty ((EskFixed × Bool) × BitVec 64) :=
  if a.F ≤ F then
    let raw := a.raw <<< (F - a.F)
    let out := clampToW raw W of (if 0 ≤ a.raw.toInt then 1 else -1) false
    .ok ((⟨out.1, W, F⟩, !out.2), rng)
  else do
    let s := a.F - F
    let sign := if a.raw.toInt < 0 then -1 else 1
    let m := magnitude a.raw
    let q := u256RoundShift ⟨0, m⟩ s mode rng
    let inexact : Bool := m &&& (1#128 <<< s - 1#128) ≠ 0
    let out ← signmagToW sign q.1 q.2.1 W of
    .ok ((⟨out.1, W, F⟩, !inexact && !out.2), q.2.2)

/-- The rational number that a fixed-point value denotes. -/
def EskFixed.value (a : EskFixed) : ℚ := a.raw.toInt / 2 ^ a.F

/-- A conversion of `x` to the format `(W, F)` is truthful: a result that is reported as exact
denotes `x`, and any other is `x` rounded and then wrapped or clamped. -/
structure Truthful (mode : RoundMode) (of : OverflowMode) (W F : ℕ) (x : ℚ)
    (out : EskFixed × Bool) : Prop where
  width : out.1.W = W
  frac : out.1.F = F
  exact : out.2 = true → out.1.value = x
  rounded : out.2 = false → ∃ n, Rounds mode (x * 2 ^ F) n ∧ out.1.raw.toInt = narrow of W n

theorem Rounds.intCast (mode : RoundMode) (n : ℤ) : Rounds mode (n : ℚ) n := by
  cases mode with
  | truncate =>
    change n = truncate n
    simp [truncate]
  | nearestEven => exact ⟨by simp, fun h => absurd h (by norm_num)⟩
  | stochastic =>
    change |(n : ℚ) - n| < 1
    simp

variable {mode : RoundMode} {n : ℤ} {a : EskFixed} {W F : ℕ}

theorem Rounds.near {x : ℚ} (h : Rounds mode x n) : |x - n| < 1 := by
  cases mode with
  | truncate =>
    obtain rfl : n = truncate x := h
    rw [truncate]
    split
    next => rw [Int.self_sub_floor, Int.abs_fract]; exact Int.fract_lt_one x
    next =>
      rw [abs_sub_comm, abs_of_nonneg (by linarith [Int.le_ceil x])]
      linarith [Int.ceil_lt_add_one x]
  | nearestEven => exact (NearestEven.near h).trans_lt (by norm_num)
  | stochastic => exact h

theorem value_eq_iff : a.value = (n : ℚ) / 2 ^ a.F ↔ a.raw.toInt = n := by
  rw [EskFixed.value, div_left_inj' (by positivity), Int.cast_inj]

/-! ### Shifting to the left -/

theorem clampToW_fits {W : ℕ} (hW : W = 32 ∨ W = 64 ∨ W = 128) {v : BitVec 128} {n : ℤ}
    (hv : v.toInt = n.bmod (2 ^ 128)) (hfits : ¬ OutOfRange 128 n) (of : OverflowMode)
    (dirHint : ℤ) : Narrowed of W n (clampToW v W of dirHint false) :=
  clampToW_of_bmod hW hv (fun _ => hfits) of (iff_of_false (by simp) hfits)
    fun h => absurd h hfits

theorem Narrowed.truthful (hW : 0 < W) {of : OverflowMode} {out : BitVec 128 × Bool}
    (h : Narrowed of W n out) (F : ℕ) (mode : RoundMode) :
    Truthful mode of W F (n / 2 ^ F) (⟨out.1, W, F⟩, !out.2) := by
  refine ⟨rfl, rfl, fun hexact => ?_, fun hinexact => ⟨n, ?_, h.raw⟩⟩
  · have hin : ¬ OutOfRange W n := by
      rw [← h.overflow]
      simpa using hexact
    exact value_eq_iff.mpr (h.raw.trans (narrow_eq_self hW hin))
  · rw [div_mul_cancel₀ _ (by positivity)]
    exact Rounds.intCast mode n

theorem bmod_ne_of_outOfRange (h : OutOfRange 128 n) : n.bmod (2 ^ 128) ≠ n := by
  intro heq
  have hbounds := narrow_bounds .wrap (W := 128) (by omega) n
  rw [narrow, heq] at hbounds
  rw [OutOfRange] at h
  omega

theorem narrow_bmod_iff (hW : W = 32 ∨ W = 64 ∨ W = 128) (hlost : OutOfRange 128 n)
    (hout : OutOfRange W (n.bmod (2 ^ 128))) (of : OverflowMode) :
    narrow of W (n.bmod (2 ^ 128)) = narrow of W n ↔
      of = .wrap ∨ (0 ≤ n.bmod (2 ^ 128) ↔ 0 ≤ n) := by
  cases of with
  | wrap =>
    refine iff_of_true ?_ (.inl rfl)
    exact Int.bmod_bmod_of_dvd (Nat.pow_dvd_pow 2 (by omega))
  | saturate =>
    obtain ⟨hhalf, -, hpos⟩ := half_range hW
    have hcast : (2 : ℤ) ^ (W - 1) = ((2 ^ (W - 1) : ℕ) : ℤ) := by push_cast; rfl
    rw [or_iff_right (by simp)]
    change max (-2 ^ (W - 1)) (min (n.bmod (2 ^ 128)) (2 ^ (W - 1) - 1)) =
      max (-2 ^ (W - 1)) (min n (2 ^ (W - 1) - 1)) ↔ _
    rw [OutOfRange, hcast] at hout
    rw [OutOfRange] at hlost
    rw [hcast]
    generalize n.bmod (2 ^ 128) = r at hout ⊢
    omega

/-- **The test after the shift.** The word that the shift leaves holds `n` modulo `2 ^ 128`. The
result is truthful when `n` fits the word, and otherwise below 128 bits when what is left is out
of range, and is clamped to the right end. -/
theorem clampToW_shifted_iff {W : ℕ} (hW : W = 32 ∨ W = 64 ∨ W = 128) (F : ℕ) {v : BitVec 128}
    {n : ℤ} (hv : v.toInt = n.bmod (2 ^ 128)) {mode : RoundMode} (hmode : mode ≠ .stochastic)
    (of : OverflowMode) (dirHint : ℤ) :
    Truthful mode of W F (n / 2 ^ F)
        (⟨(clampToW v W of dirHint false).1, W, F⟩, !(clampToW v W of dirHint false).2) ↔
      ¬ OutOfRange 128 n ∨ W ≠ 128 ∧ OutOfRange W (n.bmod (2 ^ 128)) ∧
        (of = .wrap ∨ (0 ≤ n.bmod (2 ^ 128) ↔ 0 ≤ n)) := by
  by_cases hfits : OutOfRange 128 n
  · rw [or_iff_right (not_not.mpr hfits)]
    have hne := bmod_ne_of_outOfRange hfits
    by_cases h128 : W = 128
    · refine iff_of_false (fun h => ?_) fun h => h.1 h128
      subst h128
      exact hne (hv.symm.trans (value_eq_iff.mp (h.exact rfl)))
    · have hnarrowed := clampToW_spec v (W := W) (by omega) of dirHint false
      generalize clampToW v W of dirHint false = out at hnarrowed ⊢
      rw [hv] at hnarrowed
      by_cases hout : OutOfRange W (n.bmod (2 ^ 128))
      · have hflag : out.2 = true := hnarrowed.overflow.mpr hout
        have htruthful : Truthful mode of W F (n / 2 ^ F) (⟨out.1, W, F⟩, !out.2) ↔
            narrow of W (n.bmod (2 ^ 128)) = narrow of W n := by
          constructor
          · intro h
            obtain ⟨k, hk, hraw⟩ := h.rounded (by rw [hflag]; rfl)
            rw [div_mul_cancel₀ _ (by positivity)] at hk
            rw [hk.unique hmode (Rounds.intCast mode n)] at hraw
            rw [← hraw]
            exact hnarrowed.raw.symm
          · intro h
            refine ⟨rfl, rfl, fun hexact => ?_, fun _ => ⟨n, ?_, hnarrowed.raw.trans h⟩⟩
            · rw [hflag] at hexact
              simp at hexact
            · rw [div_mul_cancel₀ _ (by positivity)]
              exact Rounds.intCast mode n
        rw [htruthful, and_iff_right h128, and_iff_right hout]
        exact narrow_bmod_iff hW hfits hout of
      · refine iff_of_false (fun h => ?_) fun h => hout h.2.1
        have hflag : out.2 = false := by
          rw [← Bool.not_eq_true, hnarrowed.overflow]
          exact hout
        have hraw := value_eq_iff.mp (h.exact (by rw [hflag]; rfl))
        exact hne ((narrow_eq_self (by omega) hout).symm.trans (hnarrowed.raw.symm.trans hraw))
  · refine iff_of_true ?_ (.inl hfits)
    exact (clampToW_fits hW hv hfits of dirHint).truthful (by omega) F mode

theorem toInt_shifted (v : BitVec 128) (k : ℕ) :
    (v <<< k).toInt = (v.toInt * 2 ^ k).bmod (2 ^ 128) := by
  rw [BitVec.toInt_shiftLeft, BitVec.toInt_eq_toNat_bmod, Int.bmod_mul_bmod, Nat.shiftLeft_eq]
  push_cast
  rfl

theorem eskFixedFromI64_iff (v : BitVec 64) (hW : W = 32 ∨ W = 64 ∨ W = 128) (hF : F < W)
    (hmode : mode ≠ .stochastic) (of : OverflowMode) :
    Truthful mode of W F v.toInt (eskFixedFromI64 v W F of) ↔
      W ≠ 128 ∨ ¬ OutOfRange 128 (v.toInt * 2 ^ F) := by
  have hv : (v.signExtend 128 <<< F).toInt = (v.toInt * 2 ^ F).bmod (2 ^ 128) := by
    rw [toInt_shifted, BitVec.toInt_signExtend_of_le (by omega)]
  have hx : (v.toInt : ℚ) = ((v.toInt * 2 ^ F : ℤ) : ℚ) / 2 ^ F := by
    push_cast
    rw [mul_div_cancel_right₀ _ (by positivity)]
  rw [hx]
  refine (clampToW_shifted_iff hW F hv hmode of _).trans ?_
  constructor
  · rintro (hfits | ⟨h128, -⟩)
    · exact .inr hfits
    · exact .inl h128
  · rintro (h128 | hfits)
    · left
      have hpow : (2 : ℤ) ^ F ≤ 2 ^ 63 := pow_le_pow_right₀ (by omega) (by omega)
      have hlo : -2 ^ 63 ≤ v.toInt := BitVec.le_toInt v
      have hhi : v.toInt < 2 ^ 63 := BitVec.toInt_lt
      have habs : |v.toInt * 2 ^ F| ≤ 2 ^ 63 * 2 ^ 63 := by
        rw [abs_mul, abs_of_pos (by positivity : (0 : ℤ) < 2 ^ F)]
        exact mul_le_mul (abs_le.mpr ⟨hlo, hhi.le⟩) hpow (by positivity) (by positivity)
      obtain ⟨hge, hle⟩ := abs_le.mp habs
      rw [OutOfRange]
      omega
    · exact .inl hfits

/-! ### Shifting to the right -/

theorem EskFixed.value_mul (a : EskFixed) (hF : F ≤ a.F) :
    a.value * 2 ^ F = a.raw.toInt / 2 ^ (a.F - F) := by
  rw [EskFixed.value, ← Nat.sub_add_cancel hF, pow_add, Nat.add_sub_cancel]
  field_simp

theorem Rounds.shifted_lt {P s m : ℕ} (hs : 0 < s) (hP : P ≤ 2 ^ 127)
    (h : Rounds mode ((P : ℚ) / (2 ^ s : ℕ)) m) : m < 2 ^ 127 := by
  have htwo : (2 : ℚ) ≤ (2 ^ s : ℕ) := by exact_mod_cast Nat.le_self_pow hs.ne' 2
  have hP' : (P : ℚ) ≤ 2 ^ 127 := by exact_mod_cast hP
  have hquot : (P : ℚ) / (2 ^ s : ℕ) ≤ 2 ^ 126 := by
    rw [div_le_iff₀ (by linarith)]
    linarith
  have hnear := (abs_lt.mp h.near).1
  have hm : (m : ℚ) < 2 ^ 127 := by
    push_cast at hnear hquot
    linarith
  exact_mod_cast hm

/-- A conversion to fewer fraction bits rounds and clamps as its modes say. -/
theorem eskFixedConvert_narrow (ha : a.Valid) (hW : W = 32 ∨ W = 64 ∨ W = 128) (hF : F < a.F)
    (hmode : mode ≠ .stochastic) (of : OverflowMode) (rng : BitVec 64) :
    ∃ out rng', eskFixedConvert a W F mode of rng = .ok (out, rng') ∧
      Truthful mode of W F a.value out := by
  have hs : a.F - F < 128 := by
    have := ha.frac_lt
    rcases ha.width with h | h | h <;> omega
  have hsign : (if a.raw.toInt < 0 then -1 else 1 : ℤ) = 1 ∨
      (if a.raw.toInt < 0 then -1 else 1 : ℤ) = -1 := by
    split
    next => exact .inr rfl
    next => exact .inl rfl
  have hraw : a.raw.toInt = (if a.raw.toInt < 0 then -1 else 1 : ℤ) * (a.raw.toInt.natAbs : ℤ) := by
    split <;> omega
  obtain ⟨m, hrounds, hmag, hovf⟩ := u256RoundShift_spec ⟨0, magnitude a.raw⟩ hs mode rng
  have hP : (⟨0, magnitude a.raw⟩ : EskU256).toNat = a.raw.toInt.natAbs := by
    rw [EskU256.toNat, toNat_magnitude, toNat_zero_word, Nat.mul_zero, Nat.add_zero]
  rw [hP] at hrounds
  unfold eskFixedConvert
  rw [if_neg (by omega)]
  generalize (if a.raw.toInt < 0 then -1 else 1 : ℤ) = sign at hsign hraw ⊢
  have hlt : m < 2 ^ 127 := by
    refine hrounds.shifted_lt (by omega) ?_
    have := toInt_bounds a.raw
    omega
  have hscaled : a.value * 2 ^ F = sign * ((a.raw.toInt.natAbs : ℚ) / (2 ^ (a.F - F) : ℕ)) := by
    have hcast : (a.raw.toInt : ℚ) = sign * (a.raw.toInt.natAbs : ℚ) := by
      have h := congrArg (Int.cast : ℤ → ℚ) hraw
      rwa [Int.cast_mul, Int.cast_natCast] at h
    rw [a.value_mul hF.le, hcast, mul_div_assoc, Nat.cast_pow, Nat.cast_ofNat]
  obtain ⟨out, hout, hnarrowed⟩ := (signmagToW_spec hW hsign hmag hovf of).2 (by
    rcases hsign with rfl | rfl <;> omega)
  refine ⟨_, _, by simp only [hout, ok_bind]; rfl, rfl, rfl, fun hexact => ?_, fun _ => ?_⟩
  · obtain ⟨hclean, hflag⟩ : magnitude a.raw &&& (1#128 <<< (a.F - F) - 1#128) = 0 ∧
        out.2 = false := by simpa using hexact
    have hmod : a.raw.toInt.natAbs % 2 ^ (a.F - F) = 0 := by
      rw [← toNat_magnitude, ← toNat_and_mask _ hs, hclean, toNat_zero_word]
    have hin : ¬ OutOfRange W (sign * m) := by
      rw [← hnarrowed.overflow, hflag]
      simp
    -- nothing was shifted out, so the quotient is a number that needs no rounding
    obtain ⟨k, hk⟩ := Nat.dvd_of_mod_eq_zero hmod
    have hquot : (a.raw.toInt.natAbs : ℚ) / (2 ^ (a.F - F) : ℕ) = ((k : ℤ) : ℚ) := by
      rw [hk, Nat.cast_mul, mul_div_cancel_left₀ _ (by positivity), Int.cast_natCast]
    rw [hquot] at hrounds hscaled
    have hm := hrounds.unique hmode (Rounds.intCast mode _)
    rw [← hm] at hscaled
    have hvalue : a.value = ((sign * m : ℤ) : ℚ) / 2 ^ F := by
      rw [eq_div_iff (by positivity), hscaled, Int.cast_mul]
    rw [hvalue]
    exact value_eq_iff.mpr (hnarrowed.raw.trans (narrow_eq_self (by omega) hin))
  · exact ⟨sign * m, by rw [hscaled]; exact hrounds.sign hsign, hnarrowed.raw⟩

theorem eskFixedConvert_iff (ha : a.Valid) (hW : W = 32 ∨ W = 64 ∨ W = 128)
    (hmode : mode ≠ .stochastic) (of : OverflowMode) (rng : BitVec 64) :
    (∃ out rng', eskFixedConvert a W F mode of rng = .ok (out, rng') ∧
      Truthful mode of W F a.value out) ↔
    (a.F ≤ F → ¬ OutOfRange 128 (a.raw.toInt * 2 ^ (F - a.F)) ∨
      W ≠ 128 ∧ OutOfRange W ((a.raw.toInt * 2 ^ (F - a.F)).bmod (2 ^ 128)) ∧
        (of = .wrap ∨ (0 ≤ (a.raw.toInt * 2 ^ (F - a.F)).bmod (2 ^ 128) ↔ 0 ≤ a.raw.toInt))) := by
  by_cases hF : a.F ≤ F
  · have hvalue : a.value = ((a.raw.toInt * 2 ^ (F - a.F) : ℤ) : ℚ) / 2 ^ F := by
      have hpow : (2 : ℚ) ^ F = 2 ^ a.F * 2 ^ (F - a.F) := by rw [← pow_add, Nat.add_sub_cancel' hF]
      rw [EskFixed.value, Int.cast_mul, Int.cast_pow, Int.cast_ofNat, hpow,
        mul_div_mul_right _ _ (by positivity)]
    have hnonneg : 0 ≤ a.raw.toInt * 2 ^ (F - a.F) ↔ 0 ≤ a.raw.toInt :=
      mul_nonneg_iff_of_pos_right (by positivity)
    have hiff := clampToW_shifted_iff hW F (toInt_shifted a.raw (F - a.F)) hmode of
      (if 0 ≤ a.raw.toInt then 1 else -1)
    rw [← hvalue, hnonneg] at hiff
    rw [imp_iff_right hF, ← hiff, eskFixedConvert, if_pos hF]
    constructor
    · rintro ⟨out, rng', hok, h⟩
      obtain ⟨rfl, -⟩ := Prod.mk.inj (Except.ok.inj hok)
      exact h
    · exact fun h => ⟨_, _, rfl, h⟩
  · exact iff_of_true (eskFixedConvert_narrow ha hW (by omega) hmode of rng) fun h => absurd h hF

/-- **Conversions report exactness truthfully**, if and only if the shift to the left loses nothing
that the test of the range after it would have found. -/
theorem eskFixedFromI64_convert_iff (v : BitVec 64) {a : EskFixed} (ha : a.Valid) {W F : ℕ}
    (hW : W = 32 ∨ W = 64 ∨ W = 128) (hF : F < W) {mode : RoundMode} (hmode : mode ≠ .stochastic)
    (of : OverflowMode) (rng : BitVec 64) :
    (Truthful mode of W F v.toInt (eskFixedFromI64 v W F of) ↔
      W ≠ 128 ∨ ¬ OutOfRange 128 (v.toInt * 2 ^ F)) ∧
    ((∃ out rng', eskFixedConvert a W F mode of rng = .ok (out, rng') ∧
      Truthful mode of W F a.value out) ↔
    (a.F ≤ F → ¬ OutOfRange 128 (a.raw.toInt * 2 ^ (F - a.F)) ∨
      W ≠ 128 ∧ OutOfRange W ((a.raw.toInt * 2 ^ (F - a.F)).bmod (2 ^ 128)) ∧
        (of = .wrap ∨ (0 ≤ (a.raw.toInt * 2 ^ (F - a.F)).bmod (2 ^ 128) ↔ 0 ≤ a.raw.toInt)))) :=
  ⟨eskFixedFromI64_iff v hW hF hmode of, eskFixedConvert_iff ha hW hmode of rng⟩

/-- A conversion that rounds, and an integer, in the format `(64, 32)`. -/
theorem eskFixedFromI64_convert_iff_q32 :
    (⟨98304#128, 128, 120⟩ : EskFixed).Valid ∧
    Truthful .nearestEven .saturate 64 32 (-3#64).toInt
      (eskFixedFromI64 (-3#64) 64 32 .saturate) ∧
    ∃ out rng', eskFixedConvert ⟨98304#128, 128, 120⟩ 64 32 .nearestEven .saturate 0
        = .ok (out, rng') ∧
      Truthful .nearestEven .saturate 64 32 (⟨98304#128, 128, 120⟩ : EskFixed).value out := by
  have ha : (⟨98304#128, 128, 120⟩ : EskFixed).Valid := ⟨by decide, by decide, by decide, by decide⟩
  have h := eskFixedFromI64_convert_iff (-3#64) ha (W := 64) (F := 32) (by decide) (by decide)
    (by decide : RoundMode.nearestEven ≠ .stochastic) .saturate 0
  exact ⟨ha, h.1.mpr (.inl (by decide)), h.2.mpr fun hF => absurd hF (by decide)⟩

/-- At 128 bits of which 127 are a fraction, the integer `1` is stored as `-1`, and reported as
exact. -/
theorem eskFixedFromI64_lost :
    eskFixedFromI64 1#64 128 127 .saturate = (⟨eskI128Min, 128, 127⟩, true) ∧
    (⟨eskI128Min, 128, 127⟩ : EskFixed).value = -1 ∧
    ¬ Truthful .truncate .saturate 128 127 (1#64).toInt
      (eskFixedFromI64 1#64 128 127 .saturate) := by
  have hvalue : (⟨eskI128Min, 128, 127⟩ : EskFixed).value = -1 := by
    have hraw : eskI128Min.toInt = -2 ^ 127 := by decide
    rw [EskFixed.value, hraw]
    norm_num
  have hout : eskFixedFromI64 1#64 128 127 .saturate = (⟨eskI128Min, 128, 127⟩, true) := by rfl
  refine ⟨hout, hvalue, fun h => ?_⟩
  have hexact := h.exact (by rw [hout])
  rw [hout, hvalue] at hexact
  norm_num at hexact

end Eshkol.FixedPoint
