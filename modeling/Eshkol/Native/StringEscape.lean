import Eshkol.Native.CString

/-!
# Escapes

The escapes in string literals (`inc/eshkol/core/string_escape.h`) and in symbols between vertical
lines, and which symbols need vertical lines (`inc/eshkol/core/symbol_syntax.h`). The readers and
the writers of the native runtime and of the virtual machine share them. The number of bytes that
`eshkol_decode_string_escape` reports as consumed is left out, since the readers of data pass it
one escape and ignore it.
-/

namespace Eshkol

/-! ### Digits and code points -/

/-- `eshkol_string_escape_hex_digit` and `eshkol_symbol_hex_value`. -/
def hexDigit (c : UInt8) : Option ℕ :=
  if byte '0' ≤ c ∧ c ≤ byte '9' then some (c.toNat - 48)
  else if byte 'a' ≤ c ∧ c ≤ byte 'f' then some (c.toNat - 87)
  else if byte 'A' ≤ c ∧ c ≤ byte 'F' then some (c.toNat - 55)
  else none

/-- An octal digit. -/
def isOctal (c : UInt8) : Bool := byte '0' ≤ c ∧ c ≤ byte '7'

/-- A blank between words of a line. -/
def isIntraline (c : UInt8) : Bool := c = byte ' ' ∨ c = byte '\t'

/-- The number that hexadecimal digits spell. -/
def hexValue (digits : List UInt8) : ℕ :=
  digits.foldl (fun acc c => acc * 16 + (hexDigit c).getD 0) 0

/-- The number that octal digits spell. -/
def octalValue (digits : List UInt8) : ℕ := digits.foldl (fun acc c => acc * 8 + (c.toNat - 48)) 0

/-- The UTF-8 encoding of a code point up to `U+10FFFF`. -/
def utf8Bytes (cp : ℕ) : List UInt8 :=
  if cp < 0x80 then [UInt8.ofNat cp]
  else if cp < 0x800 then [UInt8.ofNat (0xC0 ||| cp >>> 6), UInt8.ofNat (0x80 ||| cp &&& 0x3F)]
  else if cp < 0x10000 then
    [UInt8.ofNat (0xE0 ||| cp >>> 12), UInt8.ofNat (0x80 ||| cp >>> 6 &&& 0x3F),
      UInt8.ofNat (0x80 ||| cp &&& 0x3F)]
  else
    [UInt8.ofNat (0xF0 ||| cp >>> 18), UInt8.ofNat (0x80 ||| cp >>> 12 &&& 0x3F),
      UInt8.ofNat (0x80 ||| cp >>> 6 &&& 0x3F), UInt8.ofNat (0x80 ||| cp &&& 0x3F)]

def eshkolStringEscapeAppendUtf8 (cp : ℕ) : Option (List UInt8) :=
  if 0x10FFFF < cp ∨ (0xD800 ≤ cp ∧ cp ≤ 0xDFFF) then none else some (utf8Bytes cp)

def eshkolSymbolUtf8Encode (cp : ℕ) : Option (List UInt8) :=
  if cp ≤ 0x10FFFF then some (utf8Bytes cp) else none

/-! ### String literals -/

/-- The status of an escape, with the bytes decoded. -/
inductive StringEscape : Type
  | malformed
  | incomplete
  | ok (out : List UInt8)
  deriving DecidableEq

/-- Escapes of one letter. -/
def letterEscape (esc : UInt8) : Option UInt8 :=
  if esc = byte 'a' then some 7
  else if esc = byte 'b' then some 8
  else if esc = byte 't' then some 9
  else if esc = byte 'n' then some 10
  else if esc = byte 'r' then some 13
  else if esc = byte 'v' then some 11
  else if esc = byte 'f' then some 12
  else if esc = byte 'e' then some 27
  else if esc = byte '\\' then some (byte '\\')
  else if esc = byte '"' then some (byte '"')
  else if esc = byte '|' then some (byte '|')
  else none

/-- A code point that was spelled in an escape. -/
def escapedCodepoint (cp : ℕ) : StringEscape :=
  match eshkolStringEscapeAppendUtf8 cp with
  | some out => .ok out
  | none => .malformed

/-- An escape of more than one letter: octal, `\x...;`, `\u....`, or a line continuation. -/
def longEscape (esc : UInt8) (more : List UInt8) : StringEscape :=
  if isOctal esc then
    let value := octalValue (esc :: (more.take 2).takeWhile isOctal)
    if 0xFF < value then .malformed else .ok [UInt8.ofNat value]
  else if esc = byte 'x' ∨ esc = byte 'X' then
    let digits := (more.take 8).takeWhile fun c => (hexDigit c).isSome
    if digits = [] ∨ (more.drop digits.length).head? ≠ some (byte ';') then .malformed
    else escapedCodepoint (hexValue digits)
  else if esc = byte 'u' then
    if more.length < 4 then .incomplete
    else if (more.take 4).all fun c => (hexDigit c).isSome then
      escapedCodepoint (hexValue (more.take 4))
    else .malformed
  else if isIntraline esc then
    match (more.dropWhile isIntraline).head? with
    | some c => if c = byte '\n' ∨ c = byte '\r' then .ok [] else .ok [esc]
    | none => .ok [esc]
  else if esc = byte '\n' ∨ esc = byte '\r' then .ok []
  else .malformed

/-- `eshkol_decode_string_escape`, behind the backslash. -/
def eshkolDecodeStringEscape : List UInt8 → StringEscape
  | [] => .incomplete
  | esc :: more =>
    match letterEscape esc with
    | some out => .ok [out]
    | none => longEscape esc more

/-! ### Symbols between vertical lines -/

def eshkolSymbolEscapeValue (c : UInt8) : Option UInt8 :=
  if c = byte 'a' then some 7
  else if c = byte 'b' then some 8
  else if c = byte 't' then some 9
  else if c = byte 'n' then some 10
  else if c = byte 'r' then some 13
  else if c = byte '|' then some (byte '|')
  else if c = byte '\\' then some (byte '\\')
  else none

/-- `\x...;` in a symbol, behind the `x`: the bytes, if it is well formed, and what is left. The
eighth digit ends the loop, so that no semicolon is read behind it. -/
def symbolHexEscape (s : List UInt8) : Option (List UInt8) × List UInt8 :=
  let digits := (s.take 8).takeWhile fun c => (hexDigit c).isSome
  if digits.length = 8 then (none, s.drop 8)
  else
    match s.drop digits.length with
    | [] => (none, [])
    | term :: rest =>
      if digits = [] ∨ term ≠ byte ';' then (none, rest)
      else (eshkolSymbolUtf8Encode (hexValue digits), rest)

/-- One element of a symbol between vertical lines, behind a backslash. -/
def symbolEscape : List UInt8 → Option (List UInt8) × List UInt8
  | [] => (none, [])
  | esc :: s =>
    if esc = byte 'x' ∨ esc = byte 'X' then symbolHexEscape s
    else ((eshkolSymbolEscapeValue esc).map ([·]), s)

theorem length_symbolHexEscape (s : List UInt8) : (symbolHexEscape s).2.length ≤ s.length := by
  rw [symbolHexEscape]
  split
  next => simp
  next =>
    have hdrop := (List.drop_sublist
      ((s.take 8).takeWhile fun c => (hexDigit c).isSome).length s).length_le
    split
    next => simp
    next term rest heq =>
      rw [heq, List.length_cons] at hdrop
      split
      next => exact (Nat.le_succ _).trans hdrop
      next => exact (Nat.le_succ _).trans hdrop

theorem length_symbolEscape (s : List UInt8) : (symbolEscape s).2.length ≤ s.length := by
  cases s with
  | nil => simp [symbolEscape]
  | cons esc s =>
    rw [symbolEscape]
    split
    next => exact (length_symbolHexEscape s).trans (Nat.le_succ _)
    next => exact Nat.le_succ _

/-! ### Symbols that need vertical lines -/

def eshkolSymbolIsLetter (c : UInt8) : Bool :=
  (byte 'a' ≤ c ∧ c ≤ byte 'z') ∨ (byte 'A' ≤ c ∧ c ≤ byte 'Z') ∨ 0x80 ≤ c

def eshkolSymbolIsSpecialInitial (c : UInt8) : Bool := c ∈ asciiBytes "!$%&*/<=>?^_~".toList

def eshkolSymbolIsInitial (c : UInt8) : Bool :=
  eshkolSymbolIsLetter c ∨ eshkolSymbolIsSpecialInitial c

def eshkolSymbolIsDigit (c : UInt8) : Bool := byte '0' ≤ c ∧ c ≤ byte '9'

def eshkolSymbolIsSubsequent (c : UInt8) : Bool :=
  eshkolSymbolIsInitial c ∨ eshkolSymbolIsDigit c ∨ c ∈ asciiBytes "+-.@".toList

def eshkolSymbolIsSignSubsequent (c : UInt8) : Bool :=
  eshkolSymbolIsInitial c ∨ c ∈ asciiBytes "+-@".toList

def eshkolSymbolIsDotSubsequent (c : UInt8) : Bool := eshkolSymbolIsSignSubsequent c ∨ c = byte '.'

/-- What may follow a sign in a peculiar identifier. -/
def isSignTail : List UInt8 → Bool
  | [] => true
  | [c] => eshkolSymbolIsSignSubsequent c
  | c :: d :: cs =>
    if c = byte '.' then eshkolSymbolIsDotSubsequent d && cs.all eshkolSymbolIsSubsequent
    else eshkolSymbolIsSignSubsequent c && (d :: cs).all eshkolSymbolIsSubsequent

/-- What may follow a dot in a peculiar identifier. -/
def isDotTail : List UInt8 → Bool
  | [] => false
  | c :: cs => eshkolSymbolIsDotSubsequent c && cs.all eshkolSymbolIsSubsequent

/-- A name that is an identifier without vertical lines, up to a leading colon. -/
def isPlainIdentifier : List UInt8 → Bool
  | [] => false
  | c :: cs =>
    if eshkolSymbolIsInitial c then cs.all eshkolSymbolIsSubsequent
    else if c = byte '+' ∨ c = byte '-' then isSignTail cs
    else if c = byte '.' then isDotTail cs
    else false

/-- Names that another token claims. -/
def isReservedName (name : List UInt8) : Bool :=
  (["->", "+inf.0", "-inf.0", "+nan.0", "-nan.0"].map fun s => asciiBytes s.toList).contains name

/-- A name without a leading colon. -/
def withoutColon : List UInt8 → List UInt8
  | c :: cs => if c = byte ':' then cs else c :: cs
  | [] => []

def eshkolSymbolNeedsBars (name : List UInt8) : Bool :=
  isReservedName name || byte ':' ∈ withoutColon name || !isPlainIdentifier (withoutColon name)

def eshkolSymbolMnemonicEscape (c : UInt8) : Option UInt8 :=
  if c = 7 then some (byte 'a')
  else if c = 8 then some (byte 'b')
  else if c = 9 then some (byte 't')
  else if c = 10 then some (byte 'n')
  else if c = 13 then some (byte 'r')
  else none

def eshkolSymbolElementNeedsEscape (c : UInt8) : Bool :=
  c = byte '|' ∨ c = byte '\\' ∨ c < 0x20 ∨ c = 0x7F

/-- A digit of `kHex`. -/
def lowerHexDigit (d : ℕ) : UInt8 := if d < 10 then UInt8.ofNat (48 + d) else UInt8.ofNat (87 + d)

/-- One element of `eshkol_symbol_escape_body`. -/
def symbolElement (c : UInt8) : List UInt8 :=
  if c = byte '|' then [byte '\\', byte '|']
  else if eshkolSymbolElementNeedsEscape c then
    match eshkolSymbolMnemonicEscape c with
    | some letter => [byte '\\', letter]
    | none =>
      [byte '\\', byte 'x', lowerHexDigit (c.toNat / 16), lowerHexDigit (c.toNat % 16), byte ';']
  else [c]

def eshkolSymbolEscapeBody (name : List UInt8) : List UInt8 := name.flatMap symbolElement

/-- The bytes that `eshkol_symbol_escaped_body_len` counts for an element. -/
def symbolElementLen (c : UInt8) : UInt64 :=
  if c = byte '|' then 2
  else if eshkolSymbolElementNeedsEscape c then
    if (eshkolSymbolMnemonicEscape c).isSome then 2 else 5
  else 1

def eshkolSymbolEscapedBodyLen (name : List UInt8) : UInt64 :=
  name.foldl (fun total c => total + symbolElementLen c) 0

/-- The external representation of a symbol, as `write` prints it. -/
def symbolText (name : List UInt8) : List UInt8 :=
  if eshkolSymbolNeedsBars name then byte '|' :: (eshkolSymbolEscapeBody name ++ [byte '|'])
  else name

end Eshkol
