import Eshkol.Native.Reader
import Eshkol.Vm.Decimal
import Eshkol.Vm.Value

/-!
# The Reader and the Writer of the VM

`read` and `write` of the bytecode VM (`lib/backend/vm_native.c`), on the values that the reader makes.
Heap objects are read through. A port is the list of the bytes that are left in it or that were
written to it. Recursion is bounded by the depth of nesting and tokens are bounded by their length;
when the reader fails it sets a flag, and the result is the empty list. Allocation succeeds, and
what the reader reports on `stderr` is left out.
-/

namespace Eshkol.Vm.Reader

open Machine

variable {D : Type}

/-- The values that are read. -/
inductive Datum (D : Type) : Type
  | nil
  | eof
  | bool (b : Bool)
  | char (c : ℕ)
  | exact (x : ExactVal)
  | float (x : D)
  | string (bytes : List UInt8)
  | symbol (name : List UInt8)
  | pair (car cdr : Datum D)
  | vector (elements : List (Datum D))

/-- A port. -/
abbrev Port : Type := List UInt8

/-- A computation of the reader; what it raises is the flag `*ok`. -/
abbrev Read (α : Type) : Type := Exec Unit α

/-- The flag `*ok` is cleared. -/
def fail {α : Type} : Read α := .error (.raised ())

def vmReaderMaxDepth : ℕ := 512

def vmReaderMaxToken : ℕ := 1024 * 1024

/-! ### Blanks and tokens -/

/-- `isspace` of a byte, in the C locale. -/
def isSpaceByte (c : UInt8) : Bool := c = byte ' ' ∨ (9 ≤ c ∧ c ≤ 13)

/-- `vm_reader_delimiter` of a byte. -/
def isDelimiter (c : UInt8) : Bool :=
  isSpaceByte c ∨ c ∈ [byte '(', byte ')', byte '"', byte ';', byte '\'', byte '`', byte ',']

/-- `vm_reader_delimiter` of what comes next. -/
def vmReaderDelimiter (port : Port) : Bool := port.head?.all isDelimiter

mutual

def vmReaderSkipSpace : Port → Port
  | [] => []
  | c :: port =>
    if isSpaceByte c then vmReaderSkipSpace port
    else if c = byte ';' then skipComment port
    else c :: port

/-- The rest of a comment, and the blanks behind it. -/
def skipComment : Port → Port
  | [] => []
  | c :: port => if c = byte '\n' then vmReaderSkipSpace port else skipComment port

end

/-! ### Strings and symbols between vertical lines -/

/-- The digits of `\x...;` in a string literal, with the semicolon. -/
def hexEscapeBytes (port : Port) : List UInt8 × Port :=
  let digits := (port.take 13).takeWhile fun c => (hexDigit c).isSome
  let rest := port.drop digits.length
  if rest.head? = some (byte ';') then (digits ++ [byte ';'], rest.tail) else (digits, rest)

/-- The blanks of a line continuation in a string literal. -/
def continuationBytes (port : Port) : List UInt8 × Port :=
  let blanks := (port.take 13).takeWhile isIntraline
  let rest := port.drop blanks.length
  let newline := if blanks.length = 13 then [] else Eshkol.Reader.readNewlineBytes rest
  let rest' := rest.drop newline.length
  if newline = [] then (blanks, rest)
  else
    let more := (rest'.take (13 - blanks.length - newline.length)).takeWhile isIntraline
    (blanks ++ newline ++ more, rest'.drop more.length)

/-- The bytes of an escape in a string literal, behind the backslash, and what is left. -/
def escapeBytes : Port → List UInt8 × Port
  | [] => ([], [])
  | c :: port =>
    if c = byte 'x' ∨ c = byte 'X' then (c :: (hexEscapeBytes port).1, (hexEscapeBytes port).2)
    else if c = byte 'u' then (c :: port.take 4, port.drop 4)
    else if isOctal c then
      (c :: (port.take 2).takeWhile isOctal, port.drop ((port.take 2).takeWhile isOctal).length)
    else if isIntraline c then
      (c :: (continuationBytes port).1, (continuationBytes port).2)
    else if c = byte '\r' then
      (c :: (port.take 1).filter (· = byte '\n'),
        port.drop ((port.take 1).filter (· = byte '\n')).length)
    else ([c], port)

def vmReaderDecodeEscape (port : Port) : Read (List UInt8 × Port) :=
  match eshkolDecodeStringEscape (escapeBytes port).1 with
  | .ok out => .ok (out, (escapeBytes port).2)
  | _ => fail

/-- The loop of `vm_reader_string`, with the bytes that were read. The port becomes shorter with
every byte and every escape, so that the loop ends. -/
def vmReaderString (port : Port) (bytes : List UInt8) : Read (Datum D × Port) :=
  match port with
  | [] => fail
  | c :: port =>
    if c = byte '"' then .ok (.string bytes, port)
    else if c = byte '\\' then do
      let (out, rest) ← vmReaderDecodeEscape port
      if vmReaderMaxToken < bytes.length + out.length then fail
      else if rest.length ≤ port.length then vmReaderString rest (bytes ++ out)
      else .error .diverges
    else if vmReaderMaxToken ≤ bytes.length then fail
    else vmReaderString port (bytes ++ [c])
termination_by port.length

/-- The loop of `vm_reader_vertical_line_symbol`. -/
def vmReaderVerticalLineSymbol (port : Port) (bytes : List UInt8) : Read (Datum D × Port) :=
  match port with
  | [] => fail
  | c :: port =>
    if c = byte '|' then .ok (.symbol bytes, port)
    else if c = byte '\\' then
      match (symbolEscape port).1 with
      | some out =>
        if vmReaderMaxToken < bytes.length + out.length then fail
        else vmReaderVerticalLineSymbol (symbolEscape port).2 (bytes ++ out)
      | none => fail
    else if vmReaderMaxToken ≤ bytes.length then fail
    else vmReaderVerticalLineSymbol port (bytes ++ [c])
termination_by port.length
decreasing_by
  · exact Nat.lt_succ_of_le (length_symbolEscape port)
  · exact Nat.lt_succ_self _

/-! ### Tokens -/

/-- The code point of a character that is spelled behind `#\`: a name, the hexadecimal digits
behind an `x`, or else the first byte. -/
def charCodepoint (spelling : List UInt8) : ℕ :=
  let named :=
    if spelling = asciiBytes "space".toList then 32
    else if spelling = asciiBytes "newline".toList then 10
    else if spelling = asciiBytes "tab".toList then 9
    else if spelling = asciiBytes "return".toList then 13
    else if spelling = asciiBytes "null".toList then 0
    else (spelling.headD 0).toNat
  if spelling.head? = some (byte 'x') ∧ spelling.tail ≠ [] then
    let parsed := strtoll 16 (cString spelling.tail)
    if !parsed.erange ∧ parsed.rest = [] ∧ 0 ≤ parsed.value.toInt ∧
        parsed.value.toInt ≤ 0x10FFFF then parsed.value.toInt.toNat
    else named
  else named

/-- What a fraction is read as, if a token is one. -/
def fractionParts (text : List Char) : Option (Int64 × Int64) :=
  let num := text.takeWhile (· ≠ '/')
  let den := (text.dropWhile (· ≠ '/')).tail
  if '/' ∈ text ∧ num ≠ [] ∧ den ≠ [] ∧ '/' ∉ den then
    let numerator := strtoll 10 num
    let denominator := strtoll 10 den
    if (!numerator.erange ∧ numerator.rest = []) ∧
        (!denominator.erange ∧ denominator.rest = [] ∧ denominator.value ≠ 0) then
      some (numerator.value, denominator.value)
    else none
  else none

/-- A rational that the reader makes is an integer if its `denom` field is one. -/
def rationalDatum : Exec Empty (Option VmRational) → Read (Datum D)
  | .ok (some r) =>
    .ok (if r.denom = 1 then .exact (.int r.num) else .exact (.rational r))
  | .ok none => fail
  | .error .undefined => .error .undefined
  | .error .diverges => .error .diverges

/-- A text that is a decimal integer of any size. -/
def isDecimalInteger (text : List Char) : Bool :=
  (splitSign text).2 ≠ [] ∧ (splitSign text).2.all Char.isDigit

/-- A token that is neither a boolean nor a character: a number, or else a symbol. The value of an
inexact literal is a parameter, which is undefined if `strtod` reports a range error. -/
def numberOrSymbol (readDouble : List Char → Option D) (token : List UInt8) : Read (Datum D) :=
  let text := cString token
  let integer := strtoll 10 text
  if integer.rest = [] ∧ text ≠ [] ∧ !integer.erange then .ok (.exact (.int integer.value))
  else if isDecimalInteger text ∧ integer.erange then .ok (.exact (.bignum (bignumFromString text)))
  else
    match fractionParts text with
    | some (num, den) => rationalDatum (vmRationalAlloc num den)
    | none =>
      if strtodEnd text = [] ∧ text ≠ [] ∧ ('.' ∈ text ∨ 'e' ∈ text ∨ 'E' ∈ text) then
        .ok ((readDouble text).elim (.symbol token) .float)
      else .ok (.symbol token)

/-- What a token denotes. Booleans and characters are compared as C strings. -/
def tokenDatum (readDouble : List Char → Option D) (token : List UInt8) : Read (Datum D) :=
  let text := token.takeWhile (· ≠ 0)
  if text = asciiBytes ['#', 't'] ∨ text = asciiBytes "#true".toList then .ok (.bool true)
  else if text = asciiBytes ['#', 'f'] ∨ text = asciiBytes "#false".toList then .ok (.bool false)
  else if text.take 2 = [byte '#', byte '\\'] then .ok (.char (charCodepoint (text.drop 2)))
  else numberOrSymbol readDouble token

def vmReaderToken (readDouble : List Char → Option D) (first : UInt8) (port : Port) :
    Read (Datum D × Port) := do
  let run := port.takeWhile fun c => !isDelimiter c
  if vmReaderMaxToken < run.length + 1 then fail
  else do
    let datum ← tokenDatum readDouble (first :: run)
    .ok (datum, port.dropWhile fun c => !isDelimiter c)

/-! ### Lists and vectors -/

section Read

variable (readDouble : List Char → Option D)

/-- The end of the input, where a datum is wanted. -/
def requireDatum : Datum D × Port → Read (Datum D × Port)
  | (.eof, _) => fail
  | out => .ok out

/-- `vm_reader_list`, from an element on: what is left of the list. A dot may stand behind an
element only. The port becomes shorter with every element, so that the loop ends. -/
def vmReaderList (element : Port → Read (Datum D × Port)) (nonempty : Bool) (port : Port) :
    Read (Datum D × Port) :=
  match vmReaderSkipSpace port with
  | [] => fail
  | c :: rest =>
    if c = byte ')' then .ok (.nil, rest)
    else if c = byte '.' ∧ vmReaderDelimiter rest then
      if nonempty then do
        let (cdr, port₁) ← element rest >>= requireDatum
        match vmReaderSkipSpace port₁ with
        | d :: port₂ => if d = byte ')' then .ok (cdr, port₂) else fail
        | [] => fail
      else fail
    else do
      let (item, port₁) ←
        if c = byte '.' then vmReaderToken readDouble (byte '.') rest
        else element (c :: rest) >>= requireDatum
      if port₁.length < port.length then do
        let (cdr, port₂) ← vmReaderList element true port₁
        .ok (.pair item cdr, port₂)
      else .error .diverges
termination_by port.length

/-- The elements of a list. -/
def Datum.elements : Datum D → List (Datum D)
  | .pair car cdr => car :: cdr.elements
  | _ => []

def vmReaderVector (element : Port → Read (Datum D × Port)) (port : Port) :
    Read (Datum D × Port) := do
  let (list, rest) ← vmReaderList readDouble element false port
  .ok (.vector list.elements, rest)

def vmReaderPrefixed (name : String) (datum : Datum D) : Datum D :=
  .pair (.symbol (asciiBytes name.toList)) (.pair datum .nil)

/-- `vm_reader_datum`, with what is left of the depth. -/
def vmReaderDatum : ℕ → Port → Read (Datum D × Port)
  | 0, _ => fail
  | room + 1, port =>
    match vmReaderSkipSpace port with
    | [] => .ok (.eof, [])
    | c :: rest =>
      if c = byte '(' then vmReaderList readDouble (vmReaderDatum room) false rest
      else if c = byte ')' then fail
      else if c = byte '"' then vmReaderString rest []
      else if c = byte '|' then vmReaderVerticalLineSymbol rest []
      else if c = byte '#' ∧ rest.head? = some (byte '(') then
        vmReaderVector readDouble (vmReaderDatum room) rest.tail
      else if c = byte '\'' then do
        let (datum, rest) ← vmReaderDatum room rest >>= requireDatum
        .ok (vmReaderPrefixed "quote" datum, rest)
      else if c = byte '`' then do
        let (datum, rest) ← vmReaderDatum room rest >>= requireDatum
        .ok (vmReaderPrefixed "quasiquote" datum, rest)
      else if c = byte ',' then
        if rest.head? = some (byte '@') then do
          let (datum, rest) ← vmReaderDatum room rest.tail >>= requireDatum
          .ok (vmReaderPrefixed "unquote-splicing" datum, rest)
        else do
          let (datum, rest) ← vmReaderDatum room rest >>= requireDatum
          .ok (vmReaderPrefixed "unquote" datum, rest)
      else vmReaderToken readDouble c rest

/-- `vm_reader_from_port`: the datum, or the empty list if the reader failed. -/
def vmReaderFromPort (port : Port) : Exec Empty (Datum D) :=
  match vmReaderDatum readDouble (vmReaderMaxDepth + 1) port with
  | .ok (datum, _) => .ok datum
  | .error (.raised _) => .ok .nil
  | .error .undefined => .error .undefined
  | .error .diverges => .error .diverges

end Read

/-! ### The writer -/

def vmUtf8Encode (cp : ℕ) : List UInt8 :=
  if (0xD800 ≤ cp ∧ cp ≤ 0xDFFF) ∨ 0x10FFFF < cp then [0xEF, 0xBF, 0xBD] else utf8Bytes cp

/-- A character, as `write` prints it. -/
def charText (c : ℕ) : List UInt8 :=
  if c = 32 then asciiBytes "#\\space".toList
  else if c = 10 then asciiBytes "#\\newline".toList
  else if c = 9 then asciiBytes "#\\tab".toList
  else byte '#' :: byte '\\' :: vmUtf8Encode c

/-- A byte of a string, as `write` prints it. -/
def stringElement (c : UInt8) : List UInt8 :=
  if c = byte '"' then [byte '\\', byte '"']
  else if c = byte '\\' then [byte '\\', byte '\\']
  else if c = byte '\n' then [byte '\\', byte 'n']
  else if c = byte '\r' then [byte '\\', byte 'r']
  else if c = byte '\t' then [byte '\\', byte 't']
  else [c]

/-- A string, as `write` prints it. -/
def stringText (bytes : List UInt8) : List UInt8 :=
  byte '"' :: (bytes.flatMap stringElement ++ [byte '"'])

/-- An exact number. Of a rational the `int64_t` fields are printed. -/
def exactText : ExactVal → Exec Empty (List Char)
  | .int i => .ok (intText i.toInt)
  | .bignum b => do
      let text ← bignumToString b
      .ok (text.getD "#<bignum>".toList)
  | .rational r => .ok (intText r.num.toInt ++ '/' :: intText r.denom.toInt)

section Write

variable (formatDouble : D → List UInt8)

/-- What is no list, behind the elements of a list or on its own. -/
def behindDot (tail : Bool) (text : List UInt8) : List UInt8 :=
  if tail then asciiBytes [' ', '.', ' '] ++ text else text

mutual

/-- `vm_write_value_port` for `write`: a value on its own, or as what follows an element of a
list. -/
def vmWriteValuePort : Bool → Datum D → Exec Empty (List UInt8)
  | false, .nil => .ok (asciiBytes ['(', ')'])
  | true, .nil => .ok []
  | false, .pair car cdr => do
      let head ← vmWriteValuePort false car
      let tail ← vmWriteValuePort true cdr
      .ok (byte '(' :: (head ++ tail ++ [byte ')']))
  | true, .pair car cdr => do
      let head ← vmWriteValuePort false car
      let tail ← vmWriteValuePort true cdr
      .ok (byte ' ' :: (head ++ tail))
  | tail, .vector [] => .ok (behindDot tail (asciiBytes ['#', '(', ')']))
  | tail, .vector (e :: es) => do
      let item ← vmWriteValuePort false e
      let items ← vmWriteElements es
      .ok (behindDot tail (byte '#' :: byte '(' :: (item ++ items ++ [byte ')'])))
  | tail, .eof => .ok (behindDot tail (asciiBytes "#<eof>".toList))
  | tail, .bool b => .ok (behindDot tail (asciiBytes (if b then ['#', 't'] else ['#', 'f'])))
  | tail, .char c => .ok (behindDot tail (charText c))
  | tail, .exact x => do
      let text ← exactText x
      .ok (behindDot tail (asciiBytes text))
  | tail, .float x => .ok (behindDot tail (formatDouble x))
  | tail, .string bytes => .ok (behindDot tail (stringText bytes))
  | tail, .symbol name => .ok (behindDot tail (symbolText name))

/-- The elements of a vector behind the first. -/
def vmWriteElements : List (Datum D) → Exec Empty (List UInt8)
  | [] => .ok []
  | e :: es => do
      let item ← vmWriteValuePort false e
      let items ← vmWriteElements es
      .ok (byte ' ' :: (item ++ items))

end

end Write

section Equal

variable (eqFloat : D → D → Bool)

mutual

/-- `vm_deep_equal`. Two end-of-file objects have the same (zero) pointer. -/
def vmDeepEqual : Datum D → Datum D → Bool
  | .nil, .nil => true
  | .eof, .eof => true
  | .bool a, .bool b => a = b
  | .char a, .char b => a = b
  | .exact a, .exact b => Vm.vmDeepEqual a b
  | .float a, .float b => eqFloat a b
  | .string a, .string b => a = b
  | .symbol a, .symbol b => a = b
  | .pair a b, .pair c d => vmDeepEqual a c && vmDeepEqual b d
  | .vector as, .vector bs => vmDeepEqualElements as bs
  | _, _ => false

/-- The elements of two vectors. -/
def vmDeepEqualElements : List (Datum D) → List (Datum D) → Bool
  | [], [] => true
  | a :: as, b :: bs => vmDeepEqual a b && vmDeepEqualElements as bs
  | _, _ => false

end

end Equal

end Eshkol.Vm.Reader
