import Eshkol.Native.Reader

/-!
# The Writer of Data

`write` on native ports (`lib/core/runtime_display_hosted.cpp`), on the data that `read` makes. Beyond
`max_depth` nested lists the writer prints dots. The texts of inexact numbers are parameters.
-/

namespace Eshkol.Reader

open Machine

variable {D : Type}

/-! ### Atoms -/

/-- The digits of `eshkol_bignum_display`: a bignum of one limb is printed at once, a longer one
is divided by ten in a buffer of 256 characters, and one too long for the buffer is not printed. -/
def bignumDisplayDigits (a : Bignum) : Exec Exn (List Char) :=
  if a.numLimbs = 1 then .ok (natText a.magnitude)
  else if a.numLimbs * 20 + 2 ≤ 256 then do
    let digits ← toStringLoop 256 { a with sign := false } []
    .ok digits.reverse
  else .ok ("<bignum:".toList ++ natText a.numLimbs ++ "-limbs>".toList)

def eshkolBignumDisplay (a : Bignum) : Exec Exn (List Char) :=
  if eshkolBignumIsZero a then .ok ['0']
  else do
    let digits ← bignumDisplayDigits a
    .ok (if a.sign then '-' :: digits else digits)

def eshkolRationalDisplay : Rational → Exec Exn (List Char)
  | .big num den => do
      let numText ← eshkolBignumDisplay num
      if bnEqualsI64 den 1 then .ok numText
      else do
        let denText ← eshkolBignumDisplay den
        .ok (numText ++ '/' :: denText)
  | .small num den =>
    if den = 1 then .ok (intText num.toInt)
    else .ok (intText num.toInt ++ '/' :: intText den.toInt)

/-- `display_char`, for `write`. -/
def displayChar (c : Int32) : List Char :=
  if c = 32 then "#\\space".toList
  else if c = 10 then "#\\newline".toList
  else if c = 9 then "#\\tab".toList
  else if c = 13 then "#\\return".toList
  else if c = 0 then "#\\null".toList
  else if c.toUInt32 < 128 ∧ 32 ≤ c.toUInt32 then '#' :: '\\' :: [Char.ofNat c.toUInt32.toNat]
  else "#\\x".toList ++ (Nat.toDigits 16 c.toUInt32.toNat).map Char.toUpper

/-- A byte in `write_escaped_string`. -/
def stringElement (c : UInt8) : List UInt8 :=
  if c = byte '"' then [byte '\\', byte '"']
  else if c = byte '\\' then [byte '\\', byte '\\']
  else
    match eshkolSymbolMnemonicEscape c with
    | some letter => [byte '\\', letter]
    | none =>
      if c < 0x20 ∨ c = 0x7F then
        byte '\\' :: byte 'x' :: (asciiBytes (Nat.toDigits 16 c.toNat) ++ [byte ';'])
      else [c]

def writeEscapedString (bytes : List UInt8) : List UInt8 :=
  byte '"' :: (bytes.flatMap stringElement ++ [byte '"'])

/-- How inexact numbers are printed. -/
structure FloatFormat (D : Type) where
  double : D → List UInt8
  float32 : List UInt8

/-- The numbers and the booleans in `eshkol_display_value_opts`. -/
def displayNumber (fmt : FloatFormat D) : Tagged D → Exec Exn (List UInt8)
  | .int64 v => .ok (asciiBytes (intText v.toInt))
  | .double x => .ok (fmt.double x)
  | .float32 => .ok fmt.float32
  | .bignum b => do
      let text ← eshkolBignumDisplay b
      .ok (asciiBytes text)
  | .rational r => do
      let text ← eshkolRationalDisplay r
      .ok (asciiBytes text)
  | .bool b => .ok (asciiBytes (if b then ['#', 't'] else ['#', 'f']))

/-! ### Lists and vectors -/

section Display

variable (fmt : FloatFormat D) (maxDepth : ℕ)

/-- The check of the depth in `eshkol_display_value_opts`. -/
def limited (depth : ℕ) (text : Exec Exn (List UInt8)) : Exec Exn (List UInt8) :=
  if maxDepth < depth then .ok (asciiBytes ['.', '.', '.']) else text

/-- What is no list, behind the elements of a list or on its own. -/
def behindDot (tail : Bool) (text : Exec Exn (List UInt8)) : Exec Exn (List UInt8) :=
  if tail then do
    let text ← text
    .ok (asciiBytes [' ', '.', ' '] ++ text)
  else text

mutual

/-- A datum on its own (`eshkol_display_value_opts`, for `write`), or as what follows an element of
a list (the loop of `eshkol_display_list`). -/
def displayDatum : Bool → ℕ → Datum D → Exec Exn (List UInt8)
  | false, depth, .null => limited maxDepth depth (.ok (asciiBytes ['(', ')']))
  | true, _, .null => .ok []
  | false, depth, .cons car cdr => limited maxDepth depth do
      let head ← displayDatum false (depth + 1) car
      let tail ← displayDatum true (depth + 1) cdr
      .ok (byte '(' :: (head ++ tail ++ [byte ')']))
  | true, depth, .cons car cdr => do
      let head ← displayDatum false depth car
      let tail ← displayDatum true depth cdr
      .ok (byte ' ' :: (head ++ tail))
  | tail, depth, .number x => behindDot tail (limited maxDepth depth (displayNumber fmt x))
  | tail, depth, .char c =>
    behindDot tail (limited maxDepth depth (.ok (asciiBytes (displayChar c))))
  | tail, depth, .string bytes =>
    behindDot tail (limited maxDepth depth (.ok (writeEscapedString bytes)))
  | tail, depth, .symbol name =>
    behindDot tail (limited maxDepth depth (.ok (symbolText name)))
  | tail, depth, .eof =>
    behindDot tail (limited maxDepth depth (.ok (asciiBytes "#<unknown>".toList)))
  | tail, depth, .vector elements => behindDot tail (limited maxDepth depth do
      if 10000 < elements.length then .ok (asciiBytes "#<invalid-vector>".toList)
      else do
        let items ← displayElements depth elements
        .ok (byte '#' :: byte '(' :: (items ++ [byte ')'])))

/-- The elements of `display_vector`, with blanks between them. -/
def displayElements : ℕ → List (Datum D) → Exec Exn (List UInt8)
  | _, [] => .ok []
  | depth, [e] => displayDatum false depth e
  | depth, e :: e' :: es => do
      let item ← displayDatum false depth e
      let items ← displayElements depth (e' :: es)
      .ok (item ++ byte ' ' :: items)

end

/-- `eshkol_write_value_to_port`, with the options of `eshkol_display_default_opts`. -/
def eshkolWriteValue (x : Datum D) : Exec Exn (List UInt8) := displayDatum fmt 100 false 0 x

end Display

end Eshkol.Reader
