import Mathlib.Data.Nat.Digits.Lemmas
import Eshkol.Native.Canonical

/-!
# Printing Numbers

`number->string` in radix 10 on exact numbers: `%lld` on an `INT64`,
`eshkol_bignum_to_string` (`lib/core/bignum.cpp`) and `eshkol_rational_to_string`
(`lib/core/rational.cpp`). A bignum is divided by ten until it is zero; the digits go to a
buffer of 20 characters for each limb and two more, with the least significant first.

An integer that is printed is read back. So is a fraction of two `int64_t`, but the reader
takes numerator and denominator for `int64_t`, and refuses the text of a rational with a
bignum part.
-/

namespace Eshkol

open Radix Machine Ratio

variable {D : Type}

/-! ### Decimal texts -/

/-- `'0' + d`. -/
def digitChar (d : ℕ) : Char := Char.ofNat (48 + d)

/-- The decimal text of a natural number, without leading zeros. -/
def natText (n : ℕ) : List Char :=
  if n = 0 then ['0'] else ((Nat.digits 10 n).map digitChar).reverse

/-- The decimal text of an integer: what `%lld` prints. -/
def intText (x : ℤ) : List Char := if x < 0 then '-' :: natText x.natAbs else natText x.natAbs

theorem toNat_digitChar {d : ℕ} (h : d < 10) : (digitChar d).toNat = 48 + d := by
  revert d
  decide

theorem isDigit_digitChar {d : ℕ} (h : d < 10) : (digitChar d).isDigit = true := by
  have hd := toNat_digitChar h
  refine Char.isDigit_iff_toNat.mpr (show 48 ≤ _ ∧ _ ≤ 57 from ?_)
  omega

theorem isDigit_of_mem_natText {n : ℕ} {c : Char} (h : c ∈ natText n) : c.isDigit = true := by
  rw [natText] at h
  split at h
  next =>
    rw [List.mem_singleton.mp h]
    rfl
  next =>
    obtain ⟨d, hd, rfl⟩ := List.mem_map.mp (List.mem_reverse.mp h)
    exact isDigit_digitChar (Nat.digits_lt_base (by omega) hd)

theorem natText_ne_nil (n : ℕ) : natText n ≠ [] := by
  rw [natText]
  split
  next => simp
  next hn => simpa [Nat.digits_eq_nil_iff_eq_zero] using hn

theorem decimalValue_natText (n : ℕ) : decimalValue 0 (natText n) = n := by
  rw [natText]
  split
  next hn =>
    rw [hn]
    rfl
  next =>
    have hdigit : ∀ d ∈ Nat.digits 10 n, (digitChar d).toNat - 48 = d := by
      intro d hd
      rw [toNat_digitChar (Nat.digits_lt_base (by omega) hd)]
      omega
    calc decimalValue 0 ((Nat.digits 10 n).map digitChar).reverse
        = (Nat.digits 10 n).foldr (fun d acc => acc * 10 + ((digitChar d).toNat - 48)) 0 := by
          rw [decimalValue, List.foldl_reverse, List.foldr_map]
      _ = (Nat.digits 10 n).foldr (fun d acc => d + 10 * acc) 0 := by
          refine List.foldr_ext _ _ _ fun d hd acc => ?_
          rw [hdigit d hd]
          ring
      _ = n := by
          conv_rhs => rw [← Nat.ofDigits_digits 10 n]
          exact (Nat.ofDigits_eq_foldr 10 _).symm

theorem signedDecimal_natText (x : ℤ) : signedDecimal (decide (x < 0), natText x.natAbs) = x := by
  rw [signedDecimal, decimalValue_natText]
  by_cases h : x < 0
  · rw [decide_eq_true h, if_pos rfl]
    omega
  · rw [decide_eq_false h, if_neg (by simp)]
    omega

/-! ### Bignums -/

/-- The loop of `eshkol_bignum_to_string`, with the number of characters for which the buffer
has room. Beyond it the source writes past the buffer. -/
def toStringLoop : ℕ → Bignum → List Char → Exec Exn (List Char)
  | 0, temp, buf => if eshkolBignumIsZero temp then .ok buf else .error .undefined
  | room + 1, temp, buf =>
    if eshkolBignumIsZero temp then .ok buf
    else do
      let out ← bignumDivLimb temp 10
      toStringLoop room out.1 (buf ++ [digitChar out.2.toNat])

/-- `eshkol_bignum_to_string`. The terminating zero must fit into the buffer too. -/
def eshkolBignumToString (a : Bignum) : Exec Exn (List Char) :=
  if eshkolBignumIsZero a then .ok ['0']
  else do
    let maxDigits := a.numLimbs * 20 + 2
    let digits ← toStringLoop maxDigits { a with sign := false } []
    let buf := if a.sign then digits ++ ['-'] else digits
    if buf.length < maxDigits then .ok buf.reverse else .error .undefined

theorem isZero_iff_magnitude {a : Bignum} (ha : a.Normalized) :
    eshkolBignumIsZero a = true ↔ a.magnitude = 0 :=
  (eshkolBignumIsZero_iff ha).trans Bignum.toInt_eq_zero_iff

theorem toStringLoop_spec {room : ℕ} {temp : Bignum} (htemp : temp.Normalized)
    (hroom : (Nat.digits 10 temp.magnitude).length ≤ room) (buf : List Char) :
    toStringLoop room temp buf = .ok (buf ++ (Nat.digits 10 temp.magnitude).map digitChar) := by
  induction room generalizing temp buf with
  | zero =>
    have hmag : temp.magnitude = 0 := by
      rw [← Nat.digits_eq_nil_iff_eq_zero (b := 10)]
      exact List.length_eq_zero_iff.mp (Nat.le_zero.mp hroom)
    rw [toStringLoop, if_pos ((isZero_iff_magnitude htemp).mpr hmag), hmag, Nat.digits_zero, List.map_nil,
      List.append_nil]
  | succ room ih =>
    rw [toStringLoop]
    split
    next h =>
      rw [(isZero_iff_magnitude htemp).mp h, Nat.digits_zero, List.map_nil, List.append_nil]
    next h =>
      obtain ⟨q, r, hrun, hq, hmag, hrem⟩ := @bignumDivLimb_spec temp 10 (by decide)
      have hten : (10 : BitVec 64).toNat = 10 := rfl
      rw [hten] at hmag hrem
      have hpos : 0 < temp.magnitude := Nat.pos_of_ne_zero (mt (isZero_iff_magnitude htemp).mpr h)
      have hdigits := Nat.digits_def' (b := 10) (by omega) hpos
      rw [hdigits, List.length_cons, ← hmag] at hroom
      rw [hrun, ok_bind, ih hq (by omega), hdigits, hmag, hrem, List.map_cons, List.append_assoc]
      rfl

theorem length_digits_magnitude (a : Bignum) :
    (Nat.digits 10 a.magnitude).length ≤ a.numLimbs * 20 := by
  rw [Nat.digits_length_le_iff (by omega)]
  calc a.magnitude < (2 ^ 64) ^ a.numLimbs := value_lt a.limbs
    _ ≤ (10 ^ 20) ^ a.numLimbs := Nat.pow_le_pow_left (by norm_num) _
    _ = 10 ^ (a.numLimbs * 20) := by rw [← pow_mul, Nat.mul_comm]

theorem eshkolBignumToString_spec {a : Bignum} (ha : a.Normalized) :
    eshkolBignumToString a = .ok (intText a.toInt) := by
  rw [eshkolBignumToString]
  split
  next h =>
    rw [(eshkolBignumIsZero_iff ha).mp h]
    rfl
  next h =>
    have hne : a.magnitude ≠ 0 := mt (isZero_iff_magnitude ha).mpr h
    have hlen := length_digits_magnitude a
    have habs : ({ a with sign := false } : Bignum).Normalized := ⟨ha.1, by simp⟩
    have hloop : toStringLoop (a.numLimbs * 20 + 2) { a with sign := false } [] =
        .ok ((Nat.digits 10 a.magnitude).map digitChar) :=
      toStringLoop_spec habs (hlen.trans (by omega)) []
    have htext : intText a.toInt = (if a.sign then ['-'] else []) ++
        ((Nat.digits 10 a.magnitude).map digitChar).reverse := by
      rw [intText, a.natAbs_toInt, natText, if_neg hne]
      have hsign := ha.sign_eq_true_iff
      cases hs : a.sign with
      | true => rw [if_pos (hsign.mp hs)]; rfl
      | false => rw [if_neg (mt hsign.mpr (by simp [hs]))]; rfl
    simp only [hloop, ok_bind]
    rw [if_pos, htext]
    · cases a.sign <;> simp
    · cases a.sign <;> simp <;> omega

def eshkolRationalToString : Rational → Exec Exn (List Char)
  | .big num den => do
      let numS ← eshkolBignumToString num
      if bnEqualsI64 den 1 then .ok numS
      else do
        let denS ← eshkolBignumToString den
        .ok (numS ++ '/' :: denS)
  | .small num den =>
    if den = 1 then .ok (intText num.toInt)
    else .ok (intText num.toInt ++ '/' :: intText den.toInt)

/-- `number->string` with one argument. The texts of inexact numbers are parameters; a value of
any other type is printed as its payload. -/
def numberToString (formatDouble : D → List Char) (formatFloat32 : List Char) :
    Tagged D → Exec Exn (List Char)
  | .int64 v => .ok (intText v.toInt)
  | .double x => .ok (formatDouble x)
  | .float32 => .ok formatFloat32
  | .bignum b => eshkolBignumToString b
  | .rational r => eshkolRationalToString r
  | .bool b => .ok (intText (if b then 1 else 0))

theorem eshkolRationalToString_spec {r : Rational} (hr : r.Canonical) (hden : 2 ≤ r.den) :
    eshkolRationalToString r = .ok (intText r.num ++ '/' :: intText r.den) := by
  cases r with
  | small n d =>
    have hd : d ≠ 1 := by
      rintro rfl
      exact absurd (show (2 : ℤ) ≤ (1 : Int64).toInt from hden) (by decide)
    rw [eshkolRationalToString, if_neg hd]
    rfl
  | big n d =>
    have hd : bnEqualsI64 d 1 = false := by
      rw [bnEqualsI64, decide_eq_false_iff_not, eshkolBignumFitsInt64_eq_some_iff hr.2.1]
      have hone : (1 : Int64).toInt = 1 := by decide
      change 2 ≤ d.toInt at hden
      omega
    rw [eshkolRationalToString, eshkolBignumToString_spec hr.1, ok_bind, hd,
      eshkolBignumToString_spec hr.2.1]
    rfl

/-! ### Reading signs and digits -/

/-- Digits with an optional minus before them. -/
def signedText (negative : Bool) (ds : List Char) : List Char :=
  (if negative then ['-'] else []) ++ ds

theorem intText_eq_signedText (x : ℤ) :
    intText x = signedText (decide (x < 0)) (natText x.natAbs) := by
  rw [intText, signedText]
  split
  next h => simp [h]
  next h => simp [h]

theorem isBlank_of_isDigit {c : Char} (h : c.isDigit = true) : isBlank c = false := by
  have hspace := isSpace_of_isDigit h
  rw [isBlank, decide_eq_false_iff_not]
  rintro (rfl | rfl)
  · exact absurd hspace (by decide)
  · exact absurd hspace (by decide)

theorem scanLoop_append {ds : List Char} (h : ∀ c ∈ ds, c.isDigit = true) (rest : List Char) :
    scanLoop (ds ++ rest) = scanLoop rest := by
  induction ds with
  | nil => rfl
  | cons c ds ih =>
    have hc := h c (by simp)
    have hne (c' : Char) (hc' : c'.isDigit = false) : c ≠ c' := ne_of_isDigit hc hc'
    rw [List.cons_append, scanLoop, if_neg (hne '/' rfl), if_neg, if_pos hc,
      ih fun c' hc' => h c' (by simp [hc'])]
    rintro (h | h | h)
    · exact hne '.' rfl h
    · exact hne 'e' rfl h
    · exact hne 'E' rfl h

section SignedText

variable {ds : List Char} (hne : ds ≠ []) (hdigits : ∀ c ∈ ds, c.isDigit = true)

include hne hdigits

theorem eshkolStringToNumberTagged_signedText (ops : DoubleOps D) (negative : Bool)
    (rest : List Char) :
    eshkolStringToNumberTagged ops (signedText negative ds ++ rest) =
      eshkolS2nDecimal ops (signedText negative ds ++ rest) := by
  obtain ⟨d, ds, rfl⟩ := List.exists_cons_of_ne_nil hne
  have hd := hdigits d (by simp)
  have hne (c : Char) (hc : c.isDigit = false) : d ≠ c := ne_of_isDigit hd hc
  have hs2n : s2nText (signedText negative (d :: ds) ++ rest) 10 =
      some (signedText negative (d :: ds) ++ rest, 10) := by
    cases negative with
    | true => rfl
    | false =>
      change s2nText (d :: (ds ++ rest)) 10 = some (d :: (ds ++ rest), 10)
      rw [s2nText, List.dropWhile_cons_of_neg (by simp [isBlank_of_isDigit hd])]
      split
      next h => cases h
      next h => exact absurd (List.cons.inj h).1 (hne '#' rfl)
      next h => exact absurd (List.cons.inj h).1 (hne '#' rfl)
      next => rfl
  have hinfnan : infnanToken (signedText negative (d :: ds) ++ rest) = none := by
    cases negative with
    | true =>
      have hi : ('i' == d) = false := by simpa using (hne 'i' rfl).symm
      have hn : ('n' == d) = false := by simpa using (hne 'n' rfl).symm
      simp [signedText, infnanToken, List.isPrefixOf, hi, hn]
    | false => simp [signedText, infnanToken, hne '+' rfl, hne '-' rfl]
  have hten : (10 : Int64).toInt = 10 := by decide
  rw [eshkolStringToNumberTagged, eshkolStringToNumberRadixTagged, hten, hs2n]
  simp only [hinfnan, if_pos]

theorem splitSign_signedText (negative : Bool) (rest : List Char) :
    splitSign (signedText negative ds ++ rest) = (negative, ds ++ rest) := by
  obtain ⟨d, ds, rfl⟩ := List.exists_cons_of_ne_nil hne
  have hne (c : Char) (hc : c.isDigit = false) : d ≠ c := ne_of_isDigit (hdigits d (by simp)) hc
  cases negative with
  | true => rfl
  | false =>
    change splitSign (d :: (ds ++ rest)) = (false, d :: (ds ++ rest))
    rw [splitSign]
    · exact fun cs hcs => hne '-' rfl (List.cons.inj hcs).1
    · exact fun cs hcs => hne '+' rfl (List.cons.inj hcs).1

theorem scanDecimal_signedText (negative : Bool) (rest : List Char) :
    scanDecimal (signedText negative ds ++ rest) = scanLoop rest := by
  rw [scanDecimal, splitSign_signedText hne hdigits, ← scanLoop_append hdigits rest]
  obtain ⟨d, ds, rfl⟩ := List.exists_cons_of_ne_nil hne
  simp [hdigits d (by simp)]

theorem strtoll_signedText (negative : Bool) {rest : List Char}
    (hrest : ∀ acc, readDigits 10 rest acc = (acc, rest)) :
    strtoll 10 (signedText negative ds ++ rest) =
      clampStrtoll (signedDecimal (negative, ds)) rest := by
  have hsplit := splitSign_signedText hne hdigits negative rest
  rw [strtoll_append (congrArg Prod.snd hsplit) hne hdigits hrest, hsplit]

end SignedText

theorem clampStrtoll_of_range {x : ℤ} (hlo : -2 ^ 63 ≤ x) (hhi : x < 2 ^ 63) (rest : List Char) :
    clampStrtoll x rest = ⟨Int64.ofInt x, rest, false⟩ := by
  rw [clampStrtoll, if_neg (by omega), if_neg (by omega)]

theorem erange_clampStrtoll {x : ℤ} (h : x < -2 ^ 63 ∨ 2 ^ 63 ≤ x) (rest : List Char) :
    (clampStrtoll x rest).erange = true := by
  rw [clampStrtoll]
  split
  next => rfl
  next hlo => rw [if_pos (h.resolve_left hlo)]

theorem read_signedText (ops : DoubleOps D) (negative : Bool) {ds : List Char} (hne : ds ≠ [])
    (hdigits : ∀ c ∈ ds, c.isDigit = true) :
    ∃ t, eshkolStringToNumberTagged ops (signedText negative ds) = .ok t ∧ Operand t ∧
      t.toInt = some (signedDecimal (negative, ds)) := by
  have hread := eshkolStringToNumberTagged_signedText hne hdigits ops negative []
  have hscan := scanDecimal_signedText hne hdigits negative []
  have hsplit := splitSign_signedText hne hdigits negative []
  have hstrtoll := @strtoll_signedText ds hne hdigits negative [] fun _ => rfl
  have hstart : [] ≠ signedText negative ds := by simp [signedText, hne]
  rw [List.append_nil] at hread hscan hsplit hstrtoll
  rw [List.append_nil] at hsplit
  rw [hread, eshkolS2nDecimal, hscan]
  refine ⟨_, rfl, ?_⟩
  obtain ⟨bn, hbn, hnorm, hbnval⟩ := @eshkolBignumFromString_spec (signedText negative ds)
    (by rw [hsplit]; exact hne) (by rw [hsplit]; exact hdigits)
  rw [hsplit] at hbnval
  generalize signedDecimal (negative, ds) = x at hstrtoll hbnval ⊢
  by_cases hrange : -2 ^ 63 ≤ x ∧ x < 2 ^ 63
  · have hint : decimalInteger (signedText negative ds) = (.int64 (Int64.ofInt x) : Tagged D) := by
      simp only [decimalInteger, hstrtoll, clampStrtoll_of_range hrange.1 hrange.2,
        List.dropWhile_nil]
      rw [if_pos ⟨rfl, hstart, trivial⟩]
    rw [hint]
    refine ⟨⟨trivial, trivial⟩, ?_⟩
    rw [Tagged.toInt, Int64.toInt_ofInt_of_le hrange.1 hrange.2]
  · have herange := @erange_clampStrtoll x (by omega) []
    have hbig : decimalInteger (signedText negative ds) = (.bignum bn : Tagged D) := by
      simp only [decimalInteger, hstrtoll, herange, hbn]
      rw [if_neg (by simp), if_pos trivial]
    rw [hbig]
    refine ⟨⟨trivial, hnorm, ?_⟩, ?_⟩
    · rw [eshkolBignumFitsInt64_eq_none_iff hnorm, hbnval]
      omega
    · rw [Tagged.toInt, hbnval]

/-! ### Reading what was printed -/

theorem intText_append (x : ℤ) (rest : List Char) :
    ∃ d ds, d.isDigit = true ∧ natText x.natAbs = d :: ds ∧
      intText x ++ rest = (if x < 0 then ['-'] else []) ++ d :: (ds ++ rest) := by
  obtain ⟨d, ds, hd⟩ := List.exists_cons_of_ne_nil (natText_ne_nil x.natAbs)
  refine ⟨d, ds, isDigit_of_mem_natText (by rw [hd]; simp), hd, ?_⟩
  rw [intText, hd]
  split
  next => rfl
  next => rfl

theorem splitSign_append (x : ℤ) (rest : List Char) :
    splitSign (intText x ++ rest) = (decide (x < 0), natText x.natAbs ++ rest) := by
  rw [intText_eq_signedText]
  exact splitSign_signedText (natText_ne_nil _) (fun _ => isDigit_of_mem_natText) _ rest

theorem strtoll_intText (x : ℤ) {rest : List Char}
    (hrest : ∀ acc, readDigits 10 rest acc = (acc, rest)) :
    strtoll 10 (intText x ++ rest) = clampStrtoll x rest := by
  rw [intText_eq_signedText,
    strtoll_signedText (natText_ne_nil _) (fun _ => isDigit_of_mem_natText) _ hrest,
    signedDecimal_natText]

theorem intText_ne_nil (x : ℤ) : intText x ≠ [] := by
  rw [intText]
  split
  next => simp
  next => exact natText_ne_nil _

theorem Tagged.toRat_of_toInt {t : Tagged D} {x : ℤ} (h : t.toInt = some x) :
    t.toRat = some (x : ℚ) := by
  cases t with
  | int64 v => cases h; rfl
  | bignum b => cases h; rfl
  | rational _ | double _ | float32 | bool _ => cases h

theorem read_intText (ops : DoubleOps D) (x : ℤ) :
    ∃ t, eshkolStringToNumberTagged ops (intText x) = .ok t ∧ Operand t ∧ t.toRat = some (x : ℚ) := by
  obtain ⟨t, ht, hop, hval⟩ := read_signedText ops (decide (x < 0)) (natText_ne_nil x.natAbs)
    fun _ => isDigit_of_mem_natText
  rw [signedDecimal_natText] at hval
  rw [intText_eq_signedText]
  exact ⟨t, ht, hop, Tagged.toRat_of_toInt hval⟩

theorem numberToString_integer (formatDouble : D → List Char) (formatFloat32 : List Char)
    {x : Tagged D} {z : ℤ} (h : Operand x) (hz : x.toInt = some z) :
    numberToString formatDouble formatFloat32 x = .ok (intText z) := by
  cases x with
  | int64 v =>
    obtain rfl : v.toInt = z := Option.some.inj hz
    rfl
  | bignum b =>
    obtain rfl : b.toInt = z := Option.some.inj hz
    exact eshkolBignumToString_spec h.canonical.1
  | rational _ | double _ | float32 | bool _ => cases hz

theorem stringToNumber_integer (ops : DoubleOps D) {x : Tagged D} {z : ℤ} (h : Operand x)
    (hz : x.toInt = some z) : eshkolStringToNumberTagged ops (intText z) = .ok x := by
  obtain ⟨t, ht, hop, hval⟩ := read_intText ops z
  rw [ht, Tagged.Canonical.eq_of_toRat_eq hop h (hval.trans (Tagged.toRat_of_toInt hz).symm)]

theorem scanLoop_ne_fraction {cs : List Char} (h : '/' ∉ cs) (den : List Char) :
    scanLoop cs ≠ .fraction den := by
  induction cs with
  | nil => simp [scanLoop]
  | cons c cs ih =>
    rw [List.mem_cons, not_or] at h
    rw [scanLoop, if_neg (Ne.symm h.1)]
    split_ifs
    · simp
    · exact ih h.2
    · simp

theorem scanDecimal_ne_fraction {start : List Char} (h : '/' ∉ start) (den : List Char) :
    scanDecimal start ≠ .fraction den := by
  have hrest : '/' ∉ (splitSign start).2 := by
    unfold splitSign
    split
    next => exact fun hmem => h (List.mem_cons_of_mem _ hmem)
    next => exact fun hmem => h (List.mem_cons_of_mem _ hmem)
    next => exact h
  rw [scanDecimal]
  split
  next => simp
  next c cs heq =>
    rw [heq] at hrest
    split_ifs
    · exact scanLoop_ne_fraction hrest den
    · simp

theorem stringToNumber_total (ops : DoubleOps D) {text : List Char}
    (h : '/' ∉ text ∧ '#' ∉ text) : ∃ t, eshkolStringToNumberTagged ops text = .ok t := by
  have htext : s2nText text 10 = none ∨ s2nText text 10 = some (text.dropWhile isBlank, 10) := by
    have hhash : '#' ∉ text.dropWhile isBlank := fun hmem =>
      h.2 ((List.dropWhile_suffix isBlank).subset hmem)
    rw [s2nText]
    split
    next => exact .inl rfl
    next heq => simp [heq] at hhash
    next heq => simp [heq] at hhash
    next => exact .inr rfl
  have hslash : '/' ∉ text.dropWhile isBlank := fun hmem =>
    h.1 ((List.dropWhile_suffix isBlank).subset hmem)
  have hten : (10 : Int64).toInt = 10 := by decide
  rw [eshkolStringToNumberTagged, eshkolStringToNumberRadixTagged, hten]
  rcases htext with htext | htext
  · rw [htext]
    exact ⟨_, rfl⟩
  · rw [htext]
    dsimp only
    split
    next => exact ⟨_, rfl⟩
    next =>
      rw [if_pos rfl, eshkolS2nDecimal]
      split
      next => exact ⟨_, rfl⟩
      next den hscan =>
        exact absurd hscan (scanDecimal_ne_fraction hslash den)
      next => exact ⟨_, rfl⟩
      next => exact ⟨_, rfl⟩

theorem read_fraction (ops : DoubleOps D) {n d : ℤ} (hd : d ≠ 0) :
    eshkolStringToNumberTagged ops (intText n ++ '/' :: intText d) =
      fractionResult (if (-2 ^ 63 ≤ n ∧ n < 2 ^ 63) ∧ (-2 ^ 63 ≤ d ∧ d < 2 ^ 63) then
        some (Int64.ofInt n, Int64.ofInt d) else none) := by
  have hnum := @strtoll_intText n ('/' :: intText d) fun _ => rfl
  have hden := @strtoll_intText d [] fun _ => rfl
  rw [List.append_nil] at hden
  have hread := eshkolStringToNumberTagged_signedText (natText_ne_nil n.natAbs)
    (fun _ => isDigit_of_mem_natText) ops (decide (n < 0)) ('/' :: intText d)
  have hscan := scanDecimal_signedText (natText_ne_nil n.natAbs)
    (fun _ => isDigit_of_mem_natText) (decide (n < 0)) ('/' :: intText d)
  rw [← intText_eq_signedText] at hread hscan
  rw [hread, eshkolS2nDecimal, hscan]
  change fractionResult (decimalFraction _ (intText d)) = _
  simp only [decimalFraction, hnum, hden]
  by_cases hn : -2 ^ 63 ≤ n ∧ n < 2 ^ 63
  · rw [clampStrtoll_of_range hn.1 hn.2]
    by_cases hd' : -2 ^ 63 ≤ d ∧ d < 2 ^ 63
    · have hne : Int64.ofInt d ≠ 0 := by
        rw [ne_eq, ← Int64.toInt_inj, Int64.toInt_ofInt_of_le hd'.1 hd'.2]
        exact hd
      rw [clampStrtoll_of_range hd'.1 hd'.2, if_pos ⟨rfl, rfl⟩, if_pos ⟨rfl, rfl, hne⟩,
        if_pos ⟨hn, hd'⟩]
    · rw [if_pos ⟨rfl, rfl⟩, if_neg, if_neg fun h => hd' h.2]
      rw [erange_clampStrtoll (by omega)]
      simp
  · rw [if_neg, if_neg fun h => hn h.1]
    rw [erange_clampStrtoll (by omega)]
    simp

/-! ### The round trip -/

theorem read_small (ops : DoubleOps D) {n d : Int64}
    (h : (Tagged.rational (.small n d) : Tagged D).Canonical) :
    eshkolStringToNumberTagged ops (intText n.toInt ++ '/' :: intText d.toInt) =
      .ok (.rational (.small n d)) := by
  have hd : d.toInt ≠ 0 := by
    have := h.2
    change 2 ≤ d.toInt at this
    omega
  have hrange (v : Int64) : -2 ^ 63 ≤ v.toInt ∧ v.toInt < 2 ^ 63 := ⟨v.le_toInt, v.toInt_lt⟩
  rw [read_fraction ops hd, if_pos ⟨hrange n, hrange d⟩, Int64.ofInt_toInt, Int64.ofInt_toInt]
  obtain ⟨r, hr, hcanonical, hval⟩ := @eshkolRationalCreate_spec n d hd
  have hsmall : r = .small n d := hcanonical.eq_of_toRat_eq h.1 hval
  rw [fractionResult, hr, hsmall]
  rfl

theorem read_big (ops : DoubleOps D) {n d : Bignum}
    (h : (Tagged.rational (.big n d) : Tagged D).Canonical) :
    eshkolStringToNumberTagged ops (intText n.toInt ++ '/' :: intText d.toInt) = .ok falseVal := by
  have hd : d.toInt ≠ 0 := by
    have := h.2
    change 2 ≤ d.toInt at this
    omega
  obtain ⟨hn, hd', -, hbig⟩ := h.1
  rw [read_fraction ops hd, if_neg]
  · rfl
  · rintro ⟨hnr, hdr⟩
    rw [eshkolBignumFitsInt64_eq_none_iff hn, eshkolBignumFitsInt64_eq_none_iff hd'] at hbig
    omega

/-- `string->number` of `number->string`. -/
def readBack (ops : DoubleOps D) (formatDouble : D → List Char) (formatFloat32 : List Char)
    (x : Tagged D) : Exec Exn (Tagged D) := do
  let text ← numberToString formatDouble formatFloat32 x
  eshkolStringToNumberTagged ops text

theorem readBack_rational (ops : DoubleOps D) (formatDouble : D → List Char)
    (formatFloat32 : List Char) {r : Rational} (h : (Tagged.rational r : Tagged D).Canonical) :
    readBack ops formatDouble formatFloat32 (.rational r) =
      eshkolStringToNumberTagged ops (intText r.num ++ '/' :: intText r.den) := by
  rw [readBack, numberToString, eshkolRationalToString_spec h.1 h.2, ok_bind]

/-- **Exact numbers are read back from their text**, except rationals with a bignum part. -/
theorem number_round_trip_iff (ops : DoubleOps D) (formatDouble : D → List Char)
    (formatFloat32 : List Char) {x : Tagged D} (hx : Operand x) :
    readBack ops formatDouble formatFloat32 x = .ok x ↔ ∀ r, x = .rational r → r.isBig = false := by
  have hint {z : ℤ} (h : numberToString formatDouble formatFloat32 x = .ok (intText z))
      (hz : x.toRat = some (z : ℚ)) : readBack ops formatDouble formatFloat32 x = .ok x := by
    obtain ⟨t, ht, hop, hval⟩ := read_intText ops z
    rw [readBack, h, ok_bind, ht, Tagged.Canonical.eq_of_toRat_eq hop hx (hval.trans hz.symm)]
  cases x with
  | int64 v => exact iff_of_true (hint rfl rfl) (by simp)
  | bignum b =>
    exact iff_of_true (hint (eshkolBignumToString_spec hx.canonical.1) rfl) (by simp)
  | rational r =>
    rw [readBack_rational ops formatDouble formatFloat32 hx.canonical]
    cases r with
    | small n d =>
      refine iff_of_true (read_small ops hx.canonical) ?_
      rintro r hr
      cases hr
      rfl
    | big n d =>
      refine iff_of_false ?_ fun h => absurd (h _ rfl) (by simp [Rational.isBig])
      rw [Rational.num, Rational.den, read_big ops hx.canonical]
      intro h
      cases h
  | double _ | float32 | bool _ => exact absurd hx.exact id

/-- Minus one half. -/
theorem number_round_trip_iff_half :
    readBack DoubleOps.unit (fun _ => []) [] (.rational (.small (-1) 2)) =
      .ok (.rational (.small (-1) 2)) := by
  have hx : Operand (.rational (.small (-1) 2) : Tagged Unit) := ⟨trivial, by decide⟩
  refine (number_round_trip_iff DoubleOps.unit (fun _ => []) [] hx).mpr ?_
  intro r hr
  cases hr
  rfl

/-- A third of `2 ^ 64` is printed and not read. -/
theorem readBack_third :
    ∃ x : Tagged Unit, x = .rational (.big ⟨false, [0, 1], by simp⟩ ⟨false, [3], by simp⟩) ∧
      Operand x ∧ readBack DoubleOps.unit (fun _ => []) [] x = .ok falseVal ∧
      readBack DoubleOps.unit (fun _ => []) [] x ≠ .ok x := by
  have hx : Operand
      (.rational (.big ⟨false, [0, 1], by simp⟩ ⟨false, [3], by simp⟩) : Tagged Unit) :=
    ⟨trivial, by decide⟩
  have hfalse := (readBack_rational DoubleOps.unit (fun _ => []) [] hx.canonical).trans
    (read_big DoubleOps.unit hx.canonical)
  refine ⟨_, rfl, hx, hfalse, ?_⟩
  rw [hfalse]
  intro h
  cases h

end Eshkol
