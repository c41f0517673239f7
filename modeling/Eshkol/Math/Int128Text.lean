import Eshkol.Math.FixedPoint
import Eshkol.Native.Print

/-!
# Decimal Texts of 128-bit Integers

`esk_i128_to_string` divides the magnitude by ten into a local buffer of 41 characters and copies
the digits out. `esk_i128_from_string` multiplies by ten in unsigned words and goes on after an
overflow, with a word that has wrapped; the flag that it has set stays set. Digits that follow do
not make a number smaller, so the flag is right for texts of any length.
-/

namespace Eshkol.FixedPoint

open Machine Radix

/-! ### Definitions -/

/-- The loop of `esk_i128_to_string`, with the number of characters for which `tmp` has room. -/
def i128ToStringLoop : ℕ → BitVec 128 → List Char → Exec Empty (List Char)
  | 0, m, tmp => if 0 < m then .error .undefined else .ok tmp
  | room + 1, m, tmp =>
    if 0 < m then i128ToStringLoop room (m / 10) (tmp ++ [digitChar (m % 10).toNat]) else .ok tmp

/-- The digits in `tmp`, with the least significant first. -/
def i128Digits (m : BitVec 128) : Exec Empty (List Char) :=
  if m = 0 then .ok ['0'] else i128ToStringLoop 41 m []

/-- `esk_i128_to_string` into a buffer of `buflen` bytes; `none` is the answer `-1`. -/
def eskI128ToString (v : BitVec 128) (buflen : ℕ) : Exec Empty (Option (List Char)) := do
  let neg : Bool := v.toInt < 0
  let tmp ← i128Digits (magnitude v)
  let need := tmp.length + if neg then 1 else 0
  if buflen < need + 1 then .ok none
  else .ok (some (signedText neg tmp.reverse))

/-- The loop of `esk_i128_from_string`: the accumulator, the flag, and what follows the digits. -/
def i128FromStringLoop (lim : BitVec 128) :
    List Char → BitVec 128 → Bool → BitVec 128 × Bool × List Char
  | [], m, ovf => (m, ovf, [])
  | c :: s, m, ovf =>
    if c.isDigit then
      let d := BitVec.ofNat 128 (c.toNat - 48)
      let ovf := ovf || decide (-1#128 / 10 < m)
      let m10 := m * 10
      let ovf := ovf || decide (-1#128 - d < m10)
      let m := m10 + d
      i128FromStringLoop lim s m (ovf || decide (lim < m))
    else (m, ovf, c :: s)

/-- `esk_i128_from_string` after the sign. -/
def i128FromDigits (neg : Bool) (s : List Char) : Option (BitVec 128 × Bool) :=
  match s with
  | [] => none
  | c :: _ =>
    if !c.isDigit then none
    else
      let lim := if neg then 1#128 <<< 127 else eskI128Max
      let out := i128FromStringLoop lim s 0 false
      if out.2.2 ≠ [] then none
      else if out.2.1 then some (if neg then eskI128Min else eskI128Max, true)
      else some (if neg then ~~~out.1 + 1#128 else out.1, false)

/-- `esk_i128_from_string`: the number and the flag `overflow`, or `none` for the answer `false`. -/
def eskI128FromString (s : List Char) : Option (BitVec 128 × Bool) :=
  let signed := splitSign (s.dropWhile isBlank)
  i128FromDigits signed.1 signed.2

/-! ### Printing -/

theorem word_pos_iff (m : BitVec 128) : 0 < m ↔ 0 < m.toNat := by
  rw [BitVec.lt_def]
  rfl

variable {m : BitVec 128} {s : List Char}

theorem i128ToStringLoop_spec {room : ℕ} (hroom : (Nat.digits 10 m.toNat).length ≤ room)
    (tmp : List Char) :
    i128ToStringLoop room m tmp = .ok (tmp ++ (Nat.digits 10 m.toNat).map digitChar) := by
  induction room generalizing m tmp with
  | zero =>
    have hm : m.toNat = 0 := by
      rw [← Nat.digits_eq_nil_iff_eq_zero (b := 10)]
      exact List.length_eq_zero_iff.mp (Nat.le_zero.mp hroom)
    rw [i128ToStringLoop, if_neg (by rw [word_pos_iff]; omega), hm, Nat.digits_zero, List.map_nil,
      List.append_nil]
  | succ room ih =>
    rw [i128ToStringLoop]
    split
    next h =>
      have hten : (10 : BitVec 128).toNat = 10 := rfl
      have hdigits := Nat.digits_def' (b := 10) (by omega) ((word_pos_iff m).mp h)
      rw [hdigits, List.length_cons] at hroom
      have hdiv : (m / 10).toNat = m.toNat / 10 := by rw [BitVec.toNat_udiv, hten]
      rw [ih (by rw [hdiv]; omega), hdiv, hdigits, BitVec.toNat_umod, hten, List.map_cons,
        List.append_assoc]
      rfl
    next h =>
      have hm : m.toNat = 0 := by rw [word_pos_iff] at h; omega
      rw [hm, Nat.digits_zero, List.map_nil, List.append_nil]

theorem length_digits_magnitude_le (v : BitVec 128) :
    (Nat.digits 10 (magnitude v).toNat).length ≤ 39 := by
  rw [Nat.digits_length_le_iff (by omega)]
  exact (magnitude v).isLt.trans (by norm_num)

theorem i128Digits_spec (v : BitVec 128) :
    i128Digits (magnitude v) = .ok (natText v.toInt.natAbs).reverse := by
  have hlen := length_digits_magnitude_le v
  rw [natText, i128Digits]
  split
  next h =>
    rw [if_pos (by rw [← toNat_magnitude, h]; rfl)]
    rfl
  next h =>
    have hne : v.toInt.natAbs ≠ 0 := by
      rw [← toNat_magnitude]
      exact fun hzero => h (BitVec.eq_of_toNat_eq (by rw [hzero]; rfl))
    rw [if_neg hne, i128ToStringLoop_spec (by omega), toNat_magnitude, List.nil_append,
      List.reverse_reverse]

theorem eskI128ToString_spec (v : BitVec 128) (buflen : ℕ) :
    eskI128ToString v buflen =
      .ok (if buflen < (intText v.toInt).length + 1 then none else some (intText v.toInt)) := by
  have hlen : (intText v.toInt).length =
      (natText v.toInt.natAbs).length + if decide (v.toInt < 0) = true then 1 else 0 := by
    rw [intText_eq_signedText, signedText, List.length_append, Nat.add_comm]
    split
    next => rfl
    next => rfl
  simp only [eskI128ToString, i128Digits_spec, ok_bind, List.length_reverse, List.reverse_reverse]
  rw [← hlen, ← intText_eq_signedText]
  split
  next => rfl
  next => rfl

/-! ### Reading -/

/-- What the flag and the accumulator say of the number `x` that has been read. -/
structure Accumulates (lim : BitVec 128) (x : ℕ) (m : BitVec 128) (ovf : Bool) : Prop where
  flag : ovf = true ↔ lim.toNat < x
  value : ovf = false → m.toNat = x

/-- One digit more is accumulated. -/
theorem Accumulates.digit {lim : BitVec 128} {x : ℕ} {ovf : Bool} (h : Accumulates lim x m ovf)
    {d : ℕ} (hd : d < 10) :
    Accumulates lim (x * 10 + d) (m * 10 + BitVec.ofNat 128 d)
      (((ovf || decide (-1#128 / 10 < m)) || decide (-1#128 - BitVec.ofNat 128 d < m * 10)) ||
        decide (lim < m * 10 + BitVec.ofNat 128 d)) := by
  have hten : (10 : BitVec 128).toNat = 10 := rfl
  have hones : (-1#128).toNat = 2 ^ 128 - 1 := rfl
  have hdw : (BitVec.ofNat 128 d).toNat = d := by
    rw [BitVec.toNat_ofNat]
    omega
  have hlim := lim.isLt
  have hmlt := m.isLt
  have hm10 : (m * 10).toNat = m.toNat * 10 % 2 ^ 128 := by rw [BitVec.toNat_mul, hten]
  have hsum : (m * 10 + BitVec.ofNat 128 d).toNat = (m.toNat * 10 % 2 ^ 128 + d) % 2 ^ 128 := by
    rw [BitVec.toNat_add, hm10, hdw]
  have hsub : (-1#128 - BitVec.ofNat 128 d).toNat = 2 ^ 128 - 1 - d := by
    rw [BitVec.toNat_sub_of_le (by rw [BitVec.le_def, hones, hdw]; omega), hones, hdw]
  have hflag := h.flag
  have hvalue := h.value
  have hdiv : (-1#128 / 10 : BitVec 128).toNat = (2 ^ 128 - 1) / 10 := by
    rw [BitVec.toNat_udiv, hones, hten]
  cases ovf with
  | true =>
    have hx : lim.toNat < x := hflag.mp rfl
    exact ⟨iff_of_true rfl (by omega), fun hfalse => by simp at hfalse⟩
  | false =>
    have hmx : m.toNat = x := hvalue rfl
    have hle : x ≤ lim.toNat := not_lt.mp fun hlt => by simpa using hflag.mpr hlt
    refine ⟨?_, fun hfalse => ?_⟩
    · simp only [Bool.false_or, Bool.or_eq_true, decide_eq_true_eq, BitVec.lt_def, hsum, hsub,
        hm10, hdiv, hmx]
      omega
    · simp only [Bool.false_or, Bool.or_eq_false_iff, decide_eq_false_iff_not, BitVec.lt_def,
        hsum, hsub, hm10, hdiv, hmx] at hfalse
      rw [hsum, hmx]
      omega

theorem i128FromStringLoop_spec {lim : BitVec 128} (hdigits : ∀ c ∈ s, c.isDigit = true) {x : ℕ}
    {ovf : Bool} (h : Accumulates lim x m ovf) :
    ∃ m' ovf', i128FromStringLoop lim s m ovf = (m', ovf', []) ∧
      Accumulates lim (decimalValue x s) m' ovf' := by
  induction s generalizing x m ovf with
  | nil => exact ⟨m, ovf, rfl, h⟩
  | cons c s ih =>
    have hc := hdigits c (by simp)
    have hd := toNat_of_isDigit hc
    rw [i128FromStringLoop, if_pos hc]
    exact ih (fun c' hc' => hdigits c' (by simp [hc'])) (h.digit (d := c.toNat - 48) (by omega))

/-- A text of an optional sign and digits: the flag says whether the number is out of range, and
if it is not the number is returned. -/
theorem i128FromDigits_spec (neg : Bool) (hne : s ≠ []) (hdigits : ∀ c ∈ s, c.isDigit = true) :
    ∃ out ovf, i128FromDigits neg s = some (out, ovf) ∧
      (ovf = true ↔ OutOfRange 128 (signedDecimal (neg, s))) ∧
      (ovf = false → out.toInt = signedDecimal (neg, s)) := by
  have hlimit : (if neg then 1#128 <<< 127 else eskI128Max : BitVec 128).toNat =
      if neg then 2 ^ 127 else 2 ^ 127 - 1 := by
    cases neg <;> rfl
  have hdecimal : signedDecimal (neg, s) =
      (if neg then -1 else 1 : ℤ) * (decimalValue 0 s : ℕ) := by
    rw [signedDecimal]
    cases neg <;> simp
  obtain ⟨c, cs, rfl⟩ := List.exists_cons_of_ne_nil hne
  rw [i128FromDigits, hdigits c (by simp), if_neg (by simp)]
  have hstart : Accumulates (if neg then 1#128 <<< 127 else eskI128Max) 0 0 false :=
    ⟨iff_of_false (by simp) (by omega), fun _ => rfl⟩
  obtain ⟨m, ovf, hloop, h⟩ := i128FromStringLoop_spec hdigits hstart
  have hflag : ovf = true ↔ OutOfRange 128 (signedDecimal (neg, c :: cs)) := by
    rw [h.flag, hlimit, hdecimal, OutOfRange]
    cases neg <;> simp <;> omega
  simp only [hloop]
  rw [if_neg (by simp)]
  cases ovf with
  | true => exact ⟨_, true, rfl, hflag, fun hfalse => by simp at hfalse⟩
  | false =>
    refine ⟨_, false, rfl, hflag, fun _ => ?_⟩
    have hin : ¬ OutOfRange 128 (signedDecimal (neg, c :: cs)) := by
      rw [← hflag]
      simp
    have hm : m.toNat = decimalValue 0 (c :: cs) % 2 ^ 128 := by
      rw [← h.value rfl, Nat.mod_eq_of_lt m.isLt]
    have hsign : (if neg then -1 else 1 : ℤ) = 1 ∨ (if neg then -1 else 1 : ℤ) = -1 := by
      cases neg <;> simp
    have hword := toInt_signmag hsign hm
    rw [← hdecimal] at hword
    rw [← @narrow_eq_self .wrap 128 (by omega) _ hin]
    cases neg with
    | true => exact hword
    | false => exact hword

theorem dropWhile_isBlank_signed (hdigits : ∀ c ∈ (splitSign s).2, c.isDigit = true) :
    s.dropWhile isBlank = s := by
  cases s with
  | nil => rfl
  | cons c cs =>
    refine List.dropWhile_cons_of_neg fun hblank => ?_
    have hc : c = ' ' ∨ c = '\t' := by simpa [isBlank] using hblank
    have hsplit : (splitSign (c :: cs)).2 = c :: cs := by rcases hc with rfl | rfl <;> rfl
    have hdigit := hdigits c (by rw [hsplit]; simp)
    rw [isBlank_of_isDigit hdigit] at hblank
    simp at hblank

theorem eskI128FromString_spec (hne : (splitSign s).2 ≠ [])
    (hdigits : ∀ c ∈ (splitSign s).2, c.isDigit = true) :
    ∃ out ovf, eskI128FromString s = some (out, ovf) ∧
      (ovf = true ↔ OutOfRange 128 (signedDecimal (splitSign s))) ∧
      (ovf = false → out.toInt = signedDecimal (splitSign s)) := by
  rw [eskI128FromString, dropWhile_isBlank_signed hdigits]
  exact i128FromDigits_spec _ hne hdigits

theorem length_intText_le (v : BitVec 128) : (intText v.toInt).length ≤ 40 := by
  have hlen := length_digits_magnitude_le v
  rw [toNat_magnitude] at hlen
  have hnat : (natText v.toInt.natAbs).length ≤ 39 := by
    rw [natText]
    split
    next => simp
    next => simpa using hlen
  rw [intText]
  split
  next =>
    rw [List.length_cons]
    omega
  next => omega

/-- **Texts of 128-bit integers.** Every integer is printed, into a buffer of 41 bytes, as a text
that is read back; and of every text of an optional sign and digits the flag says whether the
integer is out of range, which is returned if it is not. -/
theorem eskI128_text (v : BitVec 128) (buflen : ℕ) (s : List Char) (hne : (splitSign s).2 ≠ [])
    (hdigits : ∀ c ∈ (splitSign s).2, c.isDigit = true) :
    (∃ out, eskI128ToString v buflen = .ok out ∧ (41 ≤ buflen → out.isSome) ∧
      ∀ text ∈ out, eskI128FromString text = some (v, false)) ∧
    ∃ out ovf, eskI128FromString s = some (out, ovf) ∧
      (ovf = true ↔ OutOfRange 128 (signedDecimal (splitSign s))) ∧
      (ovf = false → out.toInt = signedDecimal (splitSign s)) := by
  refine ⟨⟨_, eskI128ToString_spec v buflen, fun hbuf => ?_, fun text htext => ?_⟩,
    eskI128FromString_spec hne hdigits⟩
  · have hlen := length_intText_le v
    rw [if_neg (by omega)]
    rfl
  · have hsplit : splitSign (intText v.toInt) = (decide (v.toInt < 0), natText v.toInt.natAbs) := by
      have h := splitSign_append v.toInt []
      rwa [List.append_nil, List.append_nil] at h
    split at htext
    next => simp at htext
    next =>
      obtain rfl : intText v.toInt = text := by simpa using htext
      obtain ⟨out, ovf, hread, hflag, hvalue⟩ := eskI128FromString_spec (s := intText v.toInt)
        (by rw [hsplit]; exact natText_ne_nil _)
        (by rw [hsplit]; exact fun _ => isDigit_of_mem_natText)
      rw [hsplit, signedDecimal_natText] at hflag hvalue
      have hovf : ovf = false := by
        have hbounds := toInt_bounds v
        rw [← Bool.not_eq_true, hflag, OutOfRange]
        omega
      rw [hread, hovf, BitVec.eq_of_toInt_eq (hvalue hovf)]

/-- The least integer, and the text of one more than the greatest with a sign and a leading zero. -/
theorem eskI128_text_limits :
    (∃ out, eskI128ToString eskI128Min 41 = .ok out ∧ (41 ≤ 41 → out.isSome) ∧
      ∀ text ∈ out, eskI128FromString text = some (eskI128Min, false)) ∧
    ∃ out ovf,
      eskI128FromString "+0170141183460469231731687303715884105728".toList = some (out, ovf) ∧
      ovf = true := by
  obtain ⟨hprint, out, ovf, hread, hflag, -⟩ := eskI128_text eskI128Min 41
    "+0170141183460469231731687303715884105728".toList (by decide)
      (List.forall_iff_forall_mem.mp (by decide))
  refine ⟨hprint, out, ovf, hread, hflag.mpr ?_⟩
  rw [OutOfRange]
  decide

end Eshkol.FixedPoint
