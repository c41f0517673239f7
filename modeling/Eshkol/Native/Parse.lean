import Eshkol.Native.Dispatch

/-!
# Reading Numbers

`string->number` (`lib/core/bignum.cpp`): blanks and a radix prefix are skipped, infinities
and not-a-number are recognized, and the rest is read as a decimal or, in another radix, as
an integer or a fraction. A string is the list of its characters before the terminating
zero, and a pointer into it is the suffix it points to.

`strtoll` follows the C standard. `strtod` belongs to the inexact half of the runtime.
-/

namespace Eshkol

open Radix Machine Ratio

variable {D : Type}

/-! ### The C library -/

/-- `isspace` in the C locale. -/
def isSpace (c : Char) : Bool := c = ' ' ∨ (9 ≤ c.toNat ∧ c.toNat ≤ 13)

/-- The value of a digit in radix 36, or 36. -/
def digitValue (c : Char) : ℕ :=
  if c.isDigit then c.toNat - 48
  else if c.isLower then c.toNat - 87
  else if c.isUpper then c.toNat - 55
  else 36

/-- An optional sign: whether it is a minus, and what follows. -/
def splitSign : List Char → Bool × List Char
  | '-' :: cs => (true, cs)
  | '+' :: cs => (false, cs)
  | cs => (false, cs)

/-- The longest run of digits, accumulated, and what follows. -/
def readDigits (base : ℕ) : List Char → ℕ → ℕ × List Char
  | [], acc => (acc, [])
  | c :: cs, acc =>
    if digitValue c < base then readDigits base cs (acc * base + digitValue c)
    else (acc, c :: cs)

/-- The optional `0x` of radix 16, skipped when a digit follows it. -/
def skipHex (base : ℕ) : List Char → List Char
  | '0' :: x :: d :: cs =>
    if base = 16 ∧ (x = 'x' ∨ x = 'X') ∧ digitValue d < 16 then d :: cs else '0' :: x :: d :: cs
  | cs => cs

/-- What `strtoll` returns: the value, the end pointer, and whether it set `ERANGE`. -/
structure Strtoll where
  value : Int64
  rest : List Char
  erange : Bool
  deriving DecidableEq

/-- The value clamped to the range of `long long`. -/
def clampStrtoll (x : ℤ) (rest : List Char) : Strtoll :=
  if x < -2 ^ 63 then ⟨Int64.minValue, rest, true⟩
  else if 2 ^ 63 ≤ x then ⟨Int64.maxValue, rest, true⟩
  else ⟨Int64.ofInt x, rest, false⟩

/-- `strtoll`. Without a digit the end pointer is the start. -/
def strtoll (base : ℕ) (s : List Char) : Strtoll :=
  let signed := splitSign (s.dropWhile isSpace)
  let digits := skipHex base signed.2
  match digits with
  | [] => ⟨0, s, false⟩
  | c :: _ =>
    if digitValue c < base then
      let out := readDigits base digits 0
      clampStrtoll (if signed.1 then -(out.1 : ℤ) else out.1) out.2
    else ⟨0, s, false⟩

/-- `result = result * 10 + digit`, with a further limb for a carry. -/
def appendDigit (limbs : List (BitVec 64)) (digit : ℕ) : List (BitVec 64) :=
  let out := ripple (mulStep 10) limbs digit
  if 0 < out.2 then out.1 ++ [BitVec.ofNat 64 out.2] else out.1

/-- The loop of `eshkol_bignum_from_string`. -/
def fromStringLoop : List Char → List (BitVec 64) → Option (List (BitVec 64))
  | [], limbs => some limbs
  | c :: cs, limbs =>
    if c.isDigit then fromStringLoop cs (appendDigit limbs (c.toNat - 48)) else none

def eshkolBignumFromString (str : List Char) : Option Bignum :=
  if (splitSign str).2 = [] then none
  else (fromStringLoop (splitSign str).2 [0]).map (bignumNormalize (splitSign str).1)

/-! ### `string->number` -/

/-- A blank: space or tab. -/
def isBlank (c : Char) : Bool := c = ' ' ∨ c = '\t'

/-- `#f`. -/
def falseVal : Tagged D := .bool false

/-- `eshkol_s2n_infnan`: the sign, and whether it is an infinity. -/
def infnanToken : List Char → Option (Bool × Bool)
  | sign :: s =>
    if sign = '+' ∨ sign = '-' then
      if ['i', 'n', 'f', '.', '0'].isPrefixOf s ∧ (s.drop 5).dropWhile isBlank = [] then
        some (sign = '-', true)
      else if ['n', 'a', 'n', '.', '0'].isPrefixOf s ∧ (s.drop 5).dropWhile isBlank = [] then
        some (sign = '-', false)
      else none
    else none
  | [] => none

/-- The double of an infinity or not-a-number token. -/
def infnanDouble (ops : DoubleOps D) (token : Bool × Bool) : D :=
  let magnitude := if token.2 then ops.inf else ops.nan
  if token.1 then ops.neg magnitude else magnitude

/-- What the scan of `eshkol_s2n_decimal` finds: a fraction comes with the text of its
denominator. -/
inductive DecimalShape : Type
  | notNumber
  | fraction (den : List Char)
  | float
  | integer
  deriving DecidableEq

/-- The scanning loop of `eshkol_s2n_decimal`. -/
def scanLoop : List Char → DecimalShape
  | [] => .integer
  | c :: cs =>
    if c = '/' then .fraction cs
    else if c = '.' ∨ c = 'e' ∨ c = 'E' then .float
    else if c.isDigit then scanLoop cs
    else .notNumber

/-- The scan: a digit or a point must follow the optional sign. -/
def scanDecimal (start : List Char) : DecimalShape :=
  match (splitSign start).2 with
  | [] => .notNumber
  | c :: cs => if c.isDigit ∨ c = '.' then scanLoop (c :: cs) else .notNumber

/-- The numerator and denominator of a decimal fraction with denominator text `den`. -/
def decimalFraction (start den : List Char) : Option (Int64 × Int64) :=
  let num := strtoll 10 start
  let denom := strtoll 10 den
  if num.rest = '/' :: den ∧ !num.erange then
    if denom.rest = [] ∧ !denom.erange ∧ denom.value ≠ 0 then some (num.value, denom.value)
    else none
  else none

/-- A fraction read becomes a rational object, without a demotion. -/
def fractionResult : Option (Int64 × Int64) → Exec Exn (Tagged D)
  | some (num, denom) => do
      let rat ← eshkolRationalCreate num denom
      .ok (.rational rat)
  | none => .ok falseVal

/-- The float branch of `eshkol_s2n_decimal`. -/
def decimalFloat (ops : DoubleOps D) (start : List Char) : Tagged D :=
  let out := ops.strtod start
  let rest := out.2.dropWhile isBlank
  if rest ≠ [] ∨ rest = start then falseVal else .double out.1

/-- The integer branch of `eshkol_s2n_decimal`. -/
def decimalInteger (start : List Char) : Tagged D :=
  let val := strtoll 10 start
  let rest := val.rest.dropWhile isBlank
  if !val.erange ∧ rest ≠ start ∧ rest = [] then .int64 val.value
  else if val.erange then
    match eshkolBignumFromString start with
    | some bn => .bignum bn
    | none => falseVal
  else falseVal

def eshkolS2nDecimal (ops : DoubleOps D) (start : List Char) : Exec Exn (Tagged D) :=
  match scanDecimal start with
  | .notNumber => .ok falseVal
  | .fraction den => fractionResult (decimalFraction start den)
  | .float => .ok (decimalFloat ops start)
  | .integer => .ok (decimalInteger start)

/-- The numerator and denominator of a fraction in another radix; `slash` is the text from
the separator on. -/
def radixFraction (radix : ℕ) (start slash : List Char) : Option (Int64 × Int64) :=
  let num := strtoll radix start
  let denom := strtoll radix slash.tail
  let rest := denom.rest.dropWhile isBlank
  if num.rest ≠ slash ∨ num.rest = start ∨ num.erange then none
  else if rest = slash.tail ∨ rest ≠ [] ∨ denom.erange ∨ denom.value = 0 then none
  else some (num.value, denom.value)

/-- The integer branch of `eshkol_s2n_radix_int`. -/
def radixInteger (radix : ℕ) (start : List Char) : Tagged D :=
  let val := strtoll radix start
  let rest := val.rest.dropWhile isBlank
  if rest = start ∨ rest ≠ [] ∨ val.erange then falseVal else .int64 val.value

def eshkolS2nRadixInt (radix : ℕ) (start : List Char) : Exec Exn (Tagged D) :=
  match start.dropWhile (· ≠ '/') with
  | [] => .ok (radixInteger radix start)
  | c :: den => fractionResult (radixFraction radix start (c :: den))

/-- The radix of a prefix letter. -/
def prefixRadix (c : Char) : Option ℤ :=
  if c = 'b' ∨ c = 'B' then some 2
  else if c = 'o' ∨ c = 'O' then some 8
  else if c = 'd' ∨ c = 'D' then some 10
  else if c = 'x' ∨ c = 'X' then some 16
  else none

/-- The text to read and its radix, after blanks and a radix letter; nothing when the
string is refused before it is read. -/
def s2nText (str : List Char) (radix : ℤ) : Option (List Char × ℕ) :=
  let accept (start : List Char) (radix : ℤ) : Option (List Char × ℕ) :=
    if radix < 2 ∨ 36 < radix then none else some (start, radix.toNat)
  match str.dropWhile isBlank with
  | [] => none
  | ['#'] => accept ['#'] radix
  | '#' :: c :: start =>
    match prefixRadix c with
    | none => none
    | some radix => if start = [] then none else accept start radix
  | start => accept start radix

def eshkolStringToNumberRadixTagged (ops : DoubleOps D) (str : List Char) (radix : Int64) :
    Exec Exn (Tagged D) :=
  match s2nText str radix.toInt with
  | none => .ok falseVal
  | some (start, radix) =>
    match infnanToken start with
    | some token => .ok (.double (infnanDouble ops token))
    | none => if radix = 10 then eshkolS2nDecimal ops start else eshkolS2nRadixInt radix start

def eshkolStringToNumberTagged (ops : DoubleOps D) (str : List Char) : Exec Exn (Tagged D) :=
  eshkolStringToNumberRadixTagged ops str 10

/-! ### Digits -/

variable {c : Char} {rest cs str start : List Char}

theorem toNat_of_isDigit (h : c.isDigit = true) : 48 ≤ c.toNat ∧ c.toNat ≤ 57 :=
  Char.isDigit_iff_toNat.mp h

theorem digitValue_of_isDigit (h : c.isDigit = true) :
    digitValue c = c.toNat - 48 ∧ digitValue c < 10 := by
  have hval : digitValue c = c.toNat - 48 := if_pos h
  have := toNat_of_isDigit h
  exact ⟨hval, by omega⟩

theorem isSpace_of_isDigit (h : c.isDigit = true) : isSpace c = false := by
  have := toNat_of_isDigit h
  rw [isSpace, decide_eq_false_iff_not]
  rintro (rfl | hc)
  · simp at this
  · omega

theorem ne_of_isDigit {c' : Char} (h : c.isDigit = true) (h' : c'.isDigit = false) : c ≠ c' := by
  rintro rfl
  rw [h] at h'
  cases h'

/-- The value of a run of decimal digits after `acc`. -/
def decimalValue (acc : ℕ) (cs : List Char) : ℕ :=
  cs.foldl (fun acc c => acc * 10 + (c.toNat - 48)) acc

/-- The integer a sign and digits denote. -/
def signedDecimal (signed : Bool × List Char) : ℤ :=
  if signed.1 then -(decimalValue 0 signed.2 : ℤ) else decimalValue 0 signed.2

theorem readDigits_append {ds : List Char} (h : ∀ c ∈ ds, c.isDigit = true)
    (hrest : ∀ acc, readDigits 10 rest acc = (acc, rest)) (acc : ℕ) :
    readDigits 10 (ds ++ rest) acc = (decimalValue acc ds, rest) := by
  induction ds generalizing acc with
  | nil => exact hrest acc
  | cons c ds ih =>
    obtain ⟨hval, hlt⟩ := digitValue_of_isDigit (h c (by simp))
    rw [List.cons_append, readDigits, if_pos hlt, ih fun c' hc' => h c' (by simp [hc']), hval]
    rfl

theorem value_appendDigit (limbs : List (BitVec 64)) {digit : ℕ} (h : digit < 2 ^ 64) :
    value (appendDigit limbs digit) = value limbs * 10 + digit := by
  obtain ⟨hlt, hval⟩ := value_ripple_mulStep (10 : BitVec 64) limbs h
  have hten : (10 : BitVec 64).toNat = 10 := rfl
  rw [hten] at hval
  rw [appendDigit]
  split
  next hc =>
      rw [value_append, length_ripple, value_cons, value_nil, Nat.mul_zero, Nat.add_zero,
        BitVec.toNat_ofNat, Nat.mod_eq_of_lt hlt, hval]
  next hc =>
      rw [Nat.eq_zero_of_not_pos hc, Nat.mul_zero, Nat.add_zero] at hval
      exact hval

theorem fromStringLoop_spec (h : ∀ c ∈ cs, c.isDigit = true) (limbs : List (BitVec 64)) :
    ∃ out, fromStringLoop cs limbs = some out ∧ value out = decimalValue (value limbs) cs := by
  induction cs generalizing limbs with
  | nil => exact ⟨limbs, rfl, rfl⟩
  | cons c cs ih =>
    have hc := h c (by simp)
    have hdigit := toNat_of_isDigit hc
    obtain ⟨out, hout, hval⟩ := ih (fun c' hc' => h c' (by simp [hc']))
      (appendDigit limbs (c.toNat - 48))
    refine ⟨out, by rw [fromStringLoop, if_pos hc, hout], ?_⟩
    rw [hval, value_appendDigit limbs (by omega)]
    rfl

theorem eshkolBignumFromString_spec (hne : (splitSign str).2 ≠ [])
    (hdigits : ∀ c ∈ (splitSign str).2, c.isDigit = true) :
    ∃ bn, eshkolBignumFromString str = some bn ∧ bn.Normalized ∧
      bn.toInt = signedDecimal (splitSign str) := by
  obtain ⟨out, hout, hval⟩ := fromStringLoop_spec hdigits [0]
  refine ⟨bignumNormalize (splitSign str).1 out, ?_, bignumNormalize_normalized _ _, ?_⟩
  · rw [eshkolBignumFromString, if_neg hne, hout]
    rfl
  · have hzero : value [(0 : BitVec 64)] = 0 := rfl
    rw [toInt_bignumNormalize, hval, hzero, signedDecimal]

theorem dropWhile_isSpace (hsplit : (splitSign str).2 = c :: cs) (hc : c.isDigit = true) :
    str.dropWhile isSpace = str := by
  cases str with
  | nil => rfl
  | cons x xs =>
    have hspace : isSpace x = false := by
      unfold splitSign at hsplit
      split at hsplit
      next heq => cases heq; decide
      next heq => cases heq; decide
      next =>
        rw [(List.cons.inj hsplit).1]
        exact isSpace_of_isDigit hc
    rw [List.dropWhile_cons, hspace]
    rfl

theorem skipHex_ten (cs : List Char) : skipHex 10 cs = cs := by
  unfold skipHex
  split
  · rw [if_neg]
    rintro ⟨h, -⟩
    omega
  · rfl

theorem strtoll_append {ds : List Char} (hsplit : (splitSign str).2 = ds ++ rest) (hne : ds ≠ [])
    (hdigits : ∀ c ∈ ds, c.isDigit = true) (hrest : ∀ acc, readDigits 10 rest acc = (acc, rest)) :
    strtoll 10 str = clampStrtoll (signedDecimal ((splitSign str).1, ds)) rest := by
  obtain ⟨c, cs, rfl⟩ := List.exists_cons_of_ne_nil hne
  have hc := hdigits c (by simp)
  have hread := readDigits_append hdigits hrest 0
  rw [List.cons_append] at hsplit hread
  simp only [strtoll, dropWhile_isSpace hsplit hc, skipHex_ten, hsplit,
    if_pos (digitValue_of_isDigit hc).2, hread, signedDecimal]

theorem strtoll_eq (hne : (splitSign str).2 ≠ [])
    (hdigits : ∀ c ∈ (splitSign str).2, c.isDigit = true) :
    strtoll 10 str = clampStrtoll (signedDecimal (splitSign str)) [] :=
  strtoll_append (List.append_nil _).symm hne hdigits fun _ => rfl

theorem clampStrtoll_erange {x : ℤ} (h : (clampStrtoll x rest).erange = true) :
    x < -2 ^ 63 ∨ 2 ^ 63 ≤ x := by
  unfold clampStrtoll at h
  split_ifs at h with h1 h2
  · exact Or.inl h1
  · exact Or.inr h2

/-! ### Canonical numbers -/

theorem scanLoop_eq_integer (h : scanLoop cs = .integer) : ∀ c ∈ cs, c.isDigit = true := by
  induction cs with
  | nil => simp
  | cons c cs ih =>
    rw [scanLoop] at h
    split_ifs at h with h1 h2 h3
    intro c' hc'
    rcases List.mem_cons.mp hc' with rfl | hmem
    · exact h3
    · exact ih h c' hmem

theorem scanDecimal_eq_integer (h : scanDecimal start = .integer) :
    (splitSign start).2 ≠ [] ∧ ∀ c ∈ (splitSign start).2, c.isDigit = true := by
  unfold scanDecimal at h
  split at h
  next heq => cases h
  next c cs heq =>
      rw [heq]
      split_ifs at h with hc
      exact ⟨by simp, scanLoop_eq_integer h⟩

theorem decimalInteger_canonical (h : scanDecimal start = .integer) :
    (decimalInteger start : Tagged D).Canonical := by
  obtain ⟨hne, hdigits⟩ := scanDecimal_eq_integer h
  obtain ⟨bn, hbn, hnorm, hval⟩ := eshkolBignumFromString_spec hne hdigits
  rw [decimalInteger]
  simp only [hbn]
  split_ifs with h1 h2
  · exact trivial
  · refine ⟨hnorm, ?_⟩
    rw [strtoll_eq hne hdigits] at h2
    rw [eshkolBignumFitsInt64_eq_none_iff hnorm, hval]
    exact clampStrtoll_erange h2
  · exact trivial

theorem fractionResult_some {n d : Int64} (hd : d ≠ 0) :
    ∃ r : Rational, fractionResult (some (n, d)) = .ok (.rational r : Tagged D) ∧ r.Canonical ∧
      r.toRat = (n.toInt : ℚ) / d.toInt := by
  have hd' : d.toInt ≠ 0 := fun h => hd (Int64.toInt_inj.mp h)
  have hyields : Yields (eshkolRationalCreate n d) _ := eshkolRationalCreate_spec hd'
  obtain ⟨r, hr, hcan, hval⟩ := hyields
  exact ⟨r, by rw [fractionResult, hr, ok_bind], hcan, hval⟩

theorem fractionResult_iff {o : Option (Int64 × Int64)} (ho : ∀ n d, o = some (n, d) → d ≠ 0) :
    CanonicalResult (fractionResult o : Exec Exn (Tagged D)) ↔
      ∀ n d, o = some (n, d) → ¬ d.toInt ∣ n.toInt := by
  cases o with
  | none => exact iff_of_true trivial (by simp)
  | some p =>
    obtain ⟨n, d⟩ := p
    have hd : d.toInt ≠ 0 := fun h => ho n d rfl (Int64.toInt_inj.mp h)
    obtain ⟨r, hr, hcan, hval⟩ := fractionResult_some (D := D) (n := n) (ho n d rfl)
    rw [hr]
    change (Tagged.rational r : Tagged D).Canonical ↔ _
    rw [Tagged.canonical_rational_iff hcan hd hval]
    constructor
    · rintro h n' d' ⟨rfl, rfl⟩
      exact h
    · exact fun h => h n d rfl

theorem decimalFraction_ne_zero {den : List Char} :
    ∀ n d, decimalFraction start den = some (n, d) → d ≠ 0 := by
  intro n d h
  rw [decimalFraction] at h
  split_ifs at h with h1 h2
  cases h
  exact h2.2.2

theorem radixFraction_ne_zero {radix : ℕ} {slash : List Char} :
    ∀ n d, radixFraction radix start slash = some (n, d) → d ≠ 0 := by
  intro n d h
  rw [radixFraction] at h
  split_ifs at h with h1 h2
  cases h
  exact fun hz => h2 (Or.inr (Or.inr (Or.inr hz)))

/-- The fraction a text spells in a radix, if it spells one. -/
def fractionOf (start : List Char) (radix : ℕ) : Option (Int64 × Int64) :=
  if radix = 10 then
    match scanDecimal start with
    | .fraction den => decimalFraction start den
    | _ => none
  else
    match start.dropWhile (· ≠ '/') with
    | [] => none
    | c :: den => radixFraction radix start (c :: den)

/-- The fraction a string spells, if it spells one. -/
def s2nFraction (str : List Char) (radix : Int64) : Option (Int64 × Int64) :=
  match s2nText str radix.toInt with
  | none => none
  | some (start, radix) =>
    match infnanToken start with
    | some _ => none
    | none => fractionOf start radix

theorem eshkolS2nDecimal_iff (ops : DoubleOps D) (start : List Char) :
    CanonicalResult (eshkolS2nDecimal ops start) ↔
      ∀ n d, fractionOf start 10 = some (n, d) → ¬ d.toInt ∣ n.toInt := by
  rw [eshkolS2nDecimal, fractionOf, if_pos rfl]
  cases h : scanDecimal start with
  | notNumber => exact iff_of_true trivial (by simp)
  | fraction den => exact fractionResult_iff decimalFraction_ne_zero
  | float =>
    refine iff_of_true ?_ (by simp)
    change (decimalFloat ops start).Canonical
    rw [decimalFloat]
    split <;> exact trivial
  | integer => exact iff_of_true (decimalInteger_canonical h) (by simp)

theorem eshkolS2nRadixInt_iff {radix : ℕ} (hradix : radix ≠ 10) (start : List Char) :
    CanonicalResult (eshkolS2nRadixInt radix start : Exec Exn (Tagged D)) ↔
      ∀ n d, fractionOf start radix = some (n, d) → ¬ d.toInt ∣ n.toInt := by
  rw [eshkolS2nRadixInt, fractionOf, if_neg hradix]
  cases start.dropWhile (· ≠ '/') with
  | nil =>
    refine iff_of_true ?_ (by simp)
    change (radixInteger radix start : Tagged D).Canonical
    rw [radixInteger]
    split <;> exact trivial
  | cons c den => exact fractionResult_iff radixFraction_ne_zero

theorem eshkolStringToNumberRadixTagged_iff (ops : DoubleOps D) (str : List Char)
    (radix : Int64) :
    CanonicalResult (eshkolStringToNumberRadixTagged ops str radix) ↔
      ∀ n d, s2nFraction str radix = some (n, d) → ¬ d.toInt ∣ n.toInt := by
  rw [eshkolStringToNumberRadixTagged, s2nFraction]
  cases s2nText str radix.toInt with
  | none => exact iff_of_true trivial (by simp)
  | some text =>
    obtain ⟨start, radix⟩ := text
    simp only
    cases infnanToken start with
    | some token => exact iff_of_true trivial (by simp)
    | none =>
      simp only
      split
      next h => rw [h]; exact eshkolS2nDecimal_iff ops start
      next h => exact eshkolS2nRadixInt_iff h start

end Eshkol
