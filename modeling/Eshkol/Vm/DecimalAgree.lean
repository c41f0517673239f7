import Eshkol.Vm.Agreement
import Eshkol.Vm.Decimal

/-!
# Decimal Texts in Both Engines

The native printer takes one digit at a time and the VM nine, and so do the readers. Both printers
give the shortest decimal text of an integer, and both readers give the integer back.

The VM sizes its buffers in `int`: ten characters for each limb when it prints, and 34 / 320 of a
limb for each digit when it reads. The second product overflows at 63161275 digits, which is a
number of some 26 MB. Below that no other temporary overflows.
-/

namespace Eshkol

/-! ### Shortest texts -/

/-- A decimal text of an integer: digits, a minus before them exactly for a negative number, no
leading zeros, and no shorter text with the same value. -/
structure ShortestDecimal (x : ℤ) (text : List Char) : Prop where
  minus : text.head? = some '-' ↔ x < 0
  digits_ne_nil : (splitSign text).2 ≠ []
  digits : ∀ c ∈ (splitSign text).2, c.isDigit = true
  value : signedDecimal (splitSign text) = x
  leading : (splitSign text).2.head? = some '0' → (splitSign text).2 = ['0']
  shortest : ∀ other, (splitSign other).2 ≠ [] → (∀ c ∈ (splitSign other).2, c.isDigit = true) →
    signedDecimal (splitSign other) = x → text.length ≤ other.length

theorem splitSign_intText (x : ℤ) : splitSign (intText x) = (decide (x < 0), natText x.natAbs) := by
  have h := splitSign_signedText (natText_ne_nil x.natAbs) (fun _ => isDigit_of_mem_natText)
    (decide (x < 0)) []
  rwa [List.append_nil, List.append_nil, ← intText_eq_signedText] at h

theorem length_splitSign_le (text : List Char) :
    (splitSign text).2.length + (if (splitSign text).1 then 1 else 0) ≤ text.length := by
  unfold splitSign
  split <;> simp

theorem head_natText {n : ℕ} (h : (natText n).head? = some '0') : natText n = ['0'] := by
  rw [natText] at h ⊢
  split
  next => rfl
  next hn =>
    rw [if_neg hn, List.head?_reverse, List.getLast?_map] at h
    obtain ⟨d, hd, hchar⟩ := Option.map_eq_some_iff.mp h
    have hne : Nat.digits 10 n ≠ [] := Nat.digits_ne_nil_iff_ne_zero.mpr hn
    have hlt : d < 10 := Nat.digits_lt_base (by omega) (List.mem_of_getLast? hd)
    have hzero : d = 0 := by
      have := toNat_digitChar hlt
      rw [hchar] at this
      change 48 = 48 + d at this
      omega
    rw [List.getLast?_eq_some_getLast hne, hzero] at hd
    exact absurd (Option.some.inj hd) (Nat.getLast_digit_ne_zero 10 hn)

theorem length_natText_le_of_value {ds : List Char} (hne : ds ≠ [])
    (hds : ∀ c ∈ ds, c.isDigit = true) : (natText (decimalValue 0 ds)).length ≤ ds.length := by
  rw [natText]
  split
  next => exact List.length_pos_iff.mpr hne
  next =>
    rw [List.length_reverse, List.length_map, Nat.digits_length_le_iff (by omega)]
    exact Vm.decimalValue_lt hds

theorem intText_shortest (x : ℤ) : ShortestDecimal x (intText x) where
  minus := by
    obtain ⟨d, ds, hd⟩ := List.exists_cons_of_ne_nil (natText_ne_nil x.natAbs)
    rw [intText]
    split
    next h => exact iff_of_true rfl h
    next h =>
      refine iff_of_false (fun hhead => ?_) h
      rw [hd, List.head?_cons, Option.some.injEq] at hhead
      have hdigit := isDigit_of_mem_natText (n := x.natAbs) (by rw [hd]; exact List.mem_cons_self)
      rw [hhead] at hdigit
      exact absurd hdigit (by decide)
  digits_ne_nil := by
    rw [splitSign_intText]
    exact natText_ne_nil _
  digits := by
    rw [splitSign_intText]
    exact fun _ => isDigit_of_mem_natText
  value := by rw [splitSign_intText, signedDecimal_natText]
  leading := by
    rw [splitSign_intText]
    exact head_natText
  shortest := by
    intro other hne hdigits hval
    have hother := length_splitSign_le other
    have hle := length_natText_le_of_value hne hdigits
    have habs : decimalValue 0 (splitSign other).2 = x.natAbs := by
      rw [← hval, signedDecimal]
      split <;> simp
    rw [habs] at hle
    rw [intText]
    split
    next hneg =>
      have hsign : (splitSign other).1 = true := by
        by_contra hs
        rw [signedDecimal, if_neg hs] at hval
        omega
      rw [hsign, if_pos rfl] at hother
      rw [List.length_cons]
      omega
    next => omega

namespace Vm

open Machine Radix

/-! ### The temporaries of the VM -/

/-- `bignum_to_string`, with the sizes of its buffers computed in `int`. -/
def bignumToStringInt (b : VmBignum) : Exec Empty (Option (List Char)) :=
  if bignumIsZero b then .ok (some ['0'])
  else do
    let _estLen ← signed 32 (b.nLimbs * 10 + 2)
    let _maxChunks ← signed 32 (b.nLimbs * 2 + 2)
    bignumToString b

/-- `bignum_from_string`, with the length of the text narrowed to an `int` and the capacity
computed in `int`. No digit beyond the narrowed length is read. -/
def bignumFromStringInt (s : List Char) : Exec Empty VmBignum :=
  let digits := skipZeros (splitSign s).2
  let len := (Int32.ofInt digits.length).toInt
  if len = 0 then .ok (bignumFromInt64 0)
  else do
    let scaled ← signed 32 (len * 34)
    let _estLimbs ← signed 32 (scaled + 319)
    match appendChunks (digits.take len.toNat) (firstChunkLen len.toNat) [] with
    | none => .ok (bignumFromInt64 0)
    | some limbs => .ok (bignumNormalize (if (splitSign s).1 then -1 else 1) limbs)

theorem bignumToStringInt_eq {b : VmBignum} (h : b.nLimbs * 10 + 2 < 2 ^ 31) :
    bignumToStringInt b = bignumToString b := by
  rw [bignumToStringInt]
  split
  next hz => rw [bignumToString, if_pos hz]
  next =>
    rw [signed_eq_ok (by omega) (by omega), ok_bind, signed_eq_ok (by omega) (by omega), ok_bind]

theorem bignumToStringInt_undefined {b : VmBignum} (h0 : ¬ bignumIsZero b = true)
    (h : 2 ^ 31 ≤ b.nLimbs * 10 + 2) : bignumToStringInt b = .error .undefined := by
  rw [bignumToStringInt, if_neg h0, signed_eq_undefined (by omega)]
  rfl

section

variable {s : List Char}

theorem toInt_int32_length (h : (skipZeros (splitSign s).2).length < 2 ^ 31) :
    (Int32.ofInt (skipZeros (splitSign s).2).length).toInt
      = ((skipZeros (splitSign s).2).length : ℤ) :=
  Int32.toInt_ofInt_of_le (by omega) (by omega)

theorem bignumFromStringInt_eq (h : (skipZeros (splitSign s).2).length ≤ 63161274) :
    bignumFromStringInt s = .ok (bignumFromString s) := by
  simp only [bignumFromStringInt, bignumFromString, toInt_int32_length (s := s) (by omega)]
  by_cases hnil : skipZeros (splitSign s).2 = []
  · rw [if_pos hnil, if_pos (by rw [hnil]; rfl)]
  · have hpos := List.length_pos_iff.mpr hnil
    rw [if_neg hnil, if_neg (by omega), signed_eq_ok (by omega) (by omega), ok_bind,
      signed_eq_ok (by omega) (by omega), ok_bind, Int.toNat_natCast, List.take_length]
    cases appendChunks _ (firstChunkLen _) [] with
    | none => rfl
    | some limbs => rfl

theorem bignumFromStringInt_undefined (h : 63161274 < (skipZeros (splitSign s).2).length)
    (hint : (skipZeros (splitSign s).2).length < 2 ^ 31) :
    bignumFromStringInt s = .error .undefined := by
  simp only [bignumFromStringInt, toInt_int32_length hint]
  rw [if_neg (by omega)]
  rcases lt_or_ge (((skipZeros (splitSign s).2).length : ℤ) * 34) (2 ^ 31) with hlt | hge
  · rw [signed_eq_ok (by omega) (by omega), ok_bind, signed_eq_undefined (by omega)]
    rfl
  · rw [signed_eq_undefined (by omega)]
    rfl

end

/-! ### The round trip -/

/-- An integer is printed alike in both engines, as its shortest decimal text, and each reads the
text back. -/
def RoundTrips (x : Bignum) (a : VmBignum) : Prop :=
  ∃ text, ShortestDecimal x.toInt text ∧
    eshkolBignumToString x = .ok text ∧
    (∃ x', eshkolBignumFromString text = some x' ∧ x'.Normalized ∧ x'.toInt = x.toInt) ∧
    bignumToStringInt a = .ok (some text) ∧
    ∃ a', bignumFromStringInt text = .ok a' ∧ a'.Normalized ∧ a'.toInt = a.toInt

theorem skipZeros_intText (x : ℤ) : skipZeros (splitSign (intText x)).2 = natText x.natAbs := by
  have hlead := @head_natText x.natAbs
  rw [splitSign_intText]
  dsimp only
  generalize natText x.natAbs = cs at hlead
  unfold skipZeros
  split
  next c cs => cases hlead rfl
  next => rfl

theorem natText_length_eq (n : ℕ) :
    (natText n).length = if n = 0 then 1 else (Nat.digits 10 n).length := by
  rw [natText]
  split
  next => rfl
  next => rw [List.length_reverse, List.length_map]

theorem nLimbs_le {a : VmBignum} (ha : a.Normalized) :
    9 * (a.nLimbs - 1) ≤ (Nat.digits 10 a.magnitude).length := by
  by_cases hne : a.limbs = []
  · rw [VmBignum.nLimbs, hne]
    exact Nat.zero_le _
  · have hle := pow_le_value_of_getLast_ne_zero hne (ha.top_ne_zero hne)
    have hlt : a.magnitude < 10 ^ (Nat.digits 10 a.magnitude).length :=
      (Nat.digits_length_le_iff (by omega) _).mp le_rfl
    have hpow : 10 ^ (9 * (a.nLimbs - 1)) ≤ (2 ^ 32) ^ (a.limbs.length - 1) := by
      rw [pow_mul]
      exact Nat.pow_le_pow_left (by norm_num) _
    exact ((Nat.pow_lt_pow_iff_right (by omega)).mp ((hpow.trans hle).trans_lt hlt)).le

section

variable {x : Bignum} {a : VmBignum} (h : SameInteger x a)
include h

theorem SameInteger.natAbs_eq : x.toInt.natAbs = a.magnitude := by rw [h.value, h.vm.natAbs_toInt]

theorem roundTrips_of_le (hdigits : (Nat.digits 10 x.toInt.natAbs).length ≤ 63161274) :
    RoundTrips x a := by
  have hshort := intText_shortest x.toInt
  have hlen := natText_length_eq x.toInt.natAbs
  rw [← skipZeros_intText] at hlen
  obtain ⟨x', hx', hxnorm, hxval⟩ := eshkolBignumFromString_spec hshort.digits_ne_nil hshort.digits
  obtain ⟨hanorm, haval⟩ := bignumFromString_spec hshort.digits_ne_nil hshort.digits
  have hlimbs := nLimbs_le h.vm
  rw [← h.natAbs_eq] at hlimbs
  refine ⟨intText x.toInt, hshort, eshkolBignumToString_spec h.native,
    ⟨x', hx', hxnorm, hxval.trans hshort.value⟩, ?_, bignumFromString (intText x.toInt), ?_,
    hanorm, ?_⟩
  · rw [bignumToStringInt_eq (by omega), bignumToString_spec h.vm, h.value]
  · exact bignumFromStringInt_eq (by split at hlen <;> omega)
  · rw [haval, hshort.value, h.value]

theorem not_roundTrips_of_lt (hlong : 63161274 < (Nat.digits 10 x.toInt.natAbs).length) :
    ¬ RoundTrips x a := by
  rintro ⟨text, -, htext, -, hprint, a', hread, -⟩
  rw [eshkolBignumToString_spec h.native] at htext
  cases htext
  have hne : x.toInt.natAbs ≠ 0 := by
    intro h0
    rw [h0] at hlong
    exact absurd hlong (Nat.not_lt_zero _)
  have hlen := natText_length_eq x.toInt.natAbs
  rw [← skipZeros_intText, if_neg hne] at hlen
  have hdigits := length_digits_vmMagnitude a
  rw [← h.natAbs_eq] at hdigits
  rcases lt_or_ge (a.nLimbs * 10 + 2) (2 ^ 31) with hsmall | hbig
  · rw [bignumFromStringInt_undefined (by omega) (by omega)] at hread
    cases hread
  · have hzero := mt (bignumIsZero_iff_magnitude h.vm).mp (h.natAbs_eq ▸ hne)
    rw [bignumToStringInt_undefined hzero hbig] at hprint
    cases hprint

end

/-- **Decimal texts.** The two engines print an integer alike, as its shortest decimal text, and
read it back, exactly when it has at most 63161274 digits. -/
theorem decimal_roundTrip_iff {x : Bignum} {a : VmBignum} (h : SameInteger x a) :
    RoundTrips x a ↔ (Nat.digits 10 x.toInt.natAbs).length ≤ 63161274 := by
  constructor
  · intro htrip
    by_contra hlong
    exact not_roundTrips_of_lt h (not_le.mp hlong) htrip
  · exact roundTrips_of_le h

/-- The integer `-2 ^ 64` is printed and read back. -/
theorem decimal_roundTrip_iff_two_limbs :
    SameInteger ⟨true, [0, 1], by simp⟩ ⟨-1, [0, 0, 1]⟩ ∧
      RoundTrips ⟨true, [0, 1], by simp⟩ ⟨-1, [0, 0, 1]⟩ := by
  have h : SameInteger ⟨true, [0, 1], by simp⟩ ⟨-1, [0, 0, 1]⟩ := ⟨by decide, by decide, by decide⟩
  have hdigits : (Nat.digits 10 (Bignum.toInt ⟨true, [0, 1], by simp⟩).natAbs).length ≤ 20 :=
    (Nat.digits_length_le_iff (by omega) _).mpr (by decide)
  exact ⟨h, (decimal_roundTrip_iff h).mpr (hdigits.trans (by omega))⟩

theorem exists_sameInteger (n : ℕ) : ∃ x a, SameInteger x a ∧ x.toInt = n := by
  have hshort := intText_shortest n
  obtain ⟨x, -, hx, hxval⟩ := eshkolBignumFromString_spec hshort.digits_ne_nil hshort.digits
  obtain ⟨ha, haval⟩ := bignumFromString_spec hshort.digits_ne_nil hshort.digits
  rw [hshort.value] at hxval haval
  exact ⟨x, _, ⟨hx, ha, hxval.trans haval.symm⟩, hxval⟩

theorem exists_not_roundTrips {n : ℕ} (hn : 63161274 ≤ n) :
    ∃ x a, SameInteger x a ∧ x.toInt = ((10 ^ n : ℕ) : ℤ) ∧ ¬ RoundTrips x a := by
  obtain ⟨x, a, h, hval⟩ := exists_sameInteger (10 ^ n)
  refine ⟨x, a, h, hval, not_roundTrips_of_lt h ?_⟩
  rw [hval, Int.natAbs_natCast, Nat.lt_digits_length_iff (by omega)]
  exact Nat.pow_le_pow_right (by omega) hn

/-- The number `10 ^ 63161274` is not read back by the VM. -/
theorem decimal_roundTrip_overflows :
    ∃ x a, SameInteger x a ∧ x.toInt = ((10 ^ 63161274 : ℕ) : ℤ) ∧ ¬ RoundTrips x a :=
  exists_not_roundTrips (Nat.le_refl _)

end Vm

end Eshkol
