import Eshkol.Core.JsonText
import Mathlib.Data.Rat.Cast.Order

/-!
# The Grammar of JSON

RFC 8259 over the code points of a text, rule by rule, with the value that a text denotes. A
relation takes a text to a value and to what follows it. Integer literals denote integers and all
other numbers rationals; a string denotes the characters of its literal, with the two halves of a
surrogate pair put together.

`Represents` says when a datum of the program stands for a JSON value. An object is read as a finite
map, in which the last of several members of one name counts.
-/

namespace Eshkol.Core.Json

variable {D : Type}

/-- A JSON value. -/
inductive JsonValue : Type
  | null
  | bool (b : Bool)
  | integer (x : ℤ)
  | real (x : ℚ)
  | string (s : List Char)
  | array (items : List JsonValue)
  | object (members : List (List Char × JsonValue))

/-- The value of a member, where there is one of that name. -/
def lastMember (members : List (List Char × JsonValue)) (name : List Char) : Option JsonValue :=
  (members.reverse.find? (·.1 = name)).map Prod.snd

/-- A datum stands for a JSON value. `round` takes a rational to a double. -/
inductive Represents (round : ℚ → D) : Datum D → JsonValue → Prop
  | null : Represents round .null .null
  | bool (b : Bool) : Represents round (.bool b) (.bool b)
  | integer {t : Tagged D} {x : ℤ} (h : Operand t) (hx : t.toInt = some x) :
      Represents round (.number t) (.integer x)
  | real (x : ℚ) : Represents round (.number (.double (round x))) (.real x)
  | string (s : List Char) : Represents round (.string (Codec.Utf8.encode s)) (.string s)
  | array {items : List (Datum D)} {values : List JsonValue}
      (h : List.Forall₂ (Represents round) items values) :
      Represents round (.list items) (.array values)
  | object {entries : List (List UInt8 × Datum D)} {members : List (List Char × JsonValue)}
      (hkeys : ∀ key, hashTableContains entries key = true ↔
        ∃ name, key = Codec.Utf8.encode name ∧ (lastMember members name).isSome)
      (hvalues : ∀ name v x, hashTableRef entries (Codec.Utf8.encode name) = some v →
        lastMember members name = some x → Represents round v x) :
      Represents round (.table entries) (.object members)

/-! ### Numbers -/

/-- `exp = e [ minus / plus ] 1*DIGIT`. -/
structure Exponent where
  upper : Bool
  /-- Whether there is a sign, and whether it is a minus. -/
  sign : Option Bool
  digits : List Char
  ne_nil : digits ≠ []
  isDigit : ∀ c ∈ digits, c.isDigit = true

/-- `number = [ minus ] int [ frac ] [ exp ]`. Without a fraction its digits are empty. -/
structure Numeral where
  negative : Bool
  whole : List Char
  fraction : List Char
  exponent : Option Exponent
  ne_nil : whole ≠ []
  whole_isDigit : ∀ c ∈ whole, c.isDigit = true
  /-- `int = zero / ( digit1-9 *DIGIT )`. -/
  zero : whole = ['0'] ∨ whole.head? ≠ some '0'
  fraction_isDigit : ∀ c ∈ fraction, c.isDigit = true

namespace Exponent

/-- `e = %x65 / %x45`. -/
def letter (e : Exponent) : Char := if e.upper then 'E' else 'e'

/-- The text of an exponent after its letter. -/
def tail (e : Exponent) : List Char :=
  (match e.sign with
    | none => []
    | some true => ['-']
    | some false => ['+']) ++ e.digits

/-- The text of an exponent, with a choice of its letter. -/
def text (letter : Exponent → Char) : Option Exponent → List Char
  | none => []
  | some e => letter e :: e.tail

end Exponent

namespace Numeral

/-- The text of a number after its sign, with a choice of the letter for an exponent. -/
def body (letter : Exponent → Char) (n : Numeral) : List Char :=
  n.whole ++ (if n.fraction = [] then [] else '.' :: n.fraction) ++
    Exponent.text letter n.exponent

/-- The text of a number. -/
def text (n : Numeral) : List Char := signedText n.negative (n.body Exponent.letter)

/-- The text that the parser collects for a number: its exponent begins with a small letter. -/
def lowerText (n : Numeral) : List Char := signedText n.negative (n.body fun _ => 'e')

/-- A number without fraction and exponent. -/
def isInteger (n : Numeral) : Bool := n.fraction = [] && n.exponent.isNone

/-- The power of ten that a number has for its exponent. -/
def scale (n : Numeral) : ℤ :=
  match n.exponent with
  | none => 0
  | some e => signedDecimal (e.sign = some true, e.digits)

/-- The rational that a number denotes. -/
def toRat (n : Numeral) : ℚ :=
  signedDecimal (n.negative, n.whole ++ n.fraction) * 10 ^ (n.scale - n.fraction.length)

/-- The value that a number denotes. -/
def value (n : Numeral) : JsonValue :=
  if n.isInteger then .integer (signedDecimal (n.negative, n.whole)) else .real n.toRat

end Numeral

/-! ### Strings -/

/-- The value of a hexadecimal digit. -/
def hexDigit (c : ℕ) : Option ℕ :=
  if 48 ≤ c ∧ c ≤ 57 then some (c - 48)
  else if 97 ≤ c ∧ c ≤ 102 then some (c - 87)
  else if 65 ≤ c ∧ c ≤ 70 then some (c - 55)
  else none

/-- `4HEXDIG`. -/
def hex4 : List ℕ → Option ℕ
  | [a, b, c, d] => do
      let a ← hexDigit a
      let b ← hexDigit b
      let c ← hexDigit c
      let d ← hexDigit d
      some (a * 4096 + b * 256 + c * 16 + d)
  | _ => none

/-- The escapes of two characters. -/
def escapes : List (ℕ × Char) :=
  [(34, Char.ofNat 34), (92, Char.ofNat 92), (47, '/'), (98, Char.ofNat 8), (102, Char.ofNat 12),
    (110, '\n'), (114, '\r'), (116, '\t')]

/-- The characters of a string literal after its opening quote. -/
inductive Chars : List ℕ → List Char → List ℕ → Prop
  | close (rest : List ℕ) : Chars (34 :: rest) [] rest
  | unescaped {c : Char} {cs rest : List ℕ} {s : List Char}
      (hc : 0x20 ≤ c.toNat ∧ c.toNat ≠ 34 ∧ c.toNat ≠ 92) (h : Chars cs s rest) :
      Chars (c.toNat :: cs) (c :: s) rest
  | escape {e : ℕ} {c : Char} {cs rest : List ℕ} {s : List Char} (hc : (e, c) ∈ escapes)
      (h : Chars cs s rest) : Chars (92 :: e :: cs) (c :: s) rest
  | unicode {hex cs rest : List ℕ} {c : Char} {s : List Char} (hc : hex4 hex = some c.toNat)
      (h : Chars cs s rest) : Chars (92 :: 117 :: (hex ++ cs)) (c :: s) rest
  | surrogates {hex hex' cs rest : List ℕ} {high low : ℕ} {c : Char} {s : List Char}
      (hhigh : hex4 hex = some (0xD800 + high)) (hlow : hex4 hex' = some (0xDC00 + low))
      (hlt : high < 0x400 ∧ low < 0x400) (hc : c.toNat = 0x10000 + high * 0x400 + low)
      (h : Chars cs s rest) :
      Chars (92 :: 117 :: (hex ++ 92 :: 117 :: (hex' ++ cs))) (c :: s) rest

/-! ### Texts -/

inductive Ws : List ℕ → List ℕ → Prop
  | nil (cs : List ℕ) : Ws cs cs
  | cons {c : ℕ} {cs rest : List ℕ} (hc : c ∈ [32, 9, 10, 13]) (h : Ws cs rest) : Ws (c :: cs) rest

mutual

/-- `value`. -/
inductive ValueAt : List ℕ → JsonValue → List ℕ → Prop
  | null (rest : List ℕ) : ValueAt ([110, 117, 108, 108] ++ rest) .null rest
  | true (rest : List ℕ) : ValueAt ([116, 114, 117, 101] ++ rest) (.bool true) rest
  | false (rest : List ℕ) : ValueAt ([102, 97, 108, 115, 101] ++ rest) (.bool false) rest
  | number (n : Numeral) (rest : List ℕ) : ValueAt (n.text.map Char.toNat ++ rest) n.value rest
  | string {cs rest : List ℕ} {s : List Char} (h : Chars cs s rest) :
      ValueAt (34 :: cs) (.string s) rest
  | emptyArray {cs rest : List ℕ} (h : Ws cs (93 :: rest)) : ValueAt (91 :: cs) (.array []) rest
  | array {cs rest : List ℕ} {values : List JsonValue} (h : Elements cs values rest) :
      ValueAt (91 :: cs) (.array values) rest
  | emptyObject {cs rest : List ℕ} (h : Ws cs (125 :: rest)) :
      ValueAt (123 :: cs) (.object []) rest
  | object {cs rest : List ℕ} {members : List (List Char × JsonValue)}
      (h : Members cs members rest) : ValueAt (123 :: cs) (.object members) rest

/-- `value *( value-separator value ) end-array`. -/
inductive Elements : List ℕ → List JsonValue → List ℕ → Prop
  | last {cs cs₁ cs₂ rest : List ℕ} {x : JsonValue} (h : Ws cs cs₁) (hx : ValueAt cs₁ x cs₂)
      (hend : Ws cs₂ (93 :: rest)) : Elements cs [x] rest
  | cons {cs cs₁ cs₂ cs₃ rest : List ℕ} {x : JsonValue} {xs : List JsonValue} (h : Ws cs cs₁)
      (hx : ValueAt cs₁ x cs₂) (hcomma : Ws cs₂ (44 :: cs₃)) (hxs : Elements cs₃ xs rest) :
      Elements cs (x :: xs) rest

/-- `member *( value-separator member ) end-object`. -/
inductive Members : List ℕ → List (List Char × JsonValue) → List ℕ → Prop
  | last {cs cs₁ rest : List ℕ} {name : List Char} {x : JsonValue}
      (h : MemberAt cs name x cs₁) (hend : Ws cs₁ (125 :: rest)) : Members cs [(name, x)] rest
  | cons {cs cs₁ cs₂ rest : List ℕ} {name : List Char} {x : JsonValue}
      {xs : List (List Char × JsonValue)} (h : MemberAt cs name x cs₁)
      (hcomma : Ws cs₁ (44 :: cs₂)) (hxs : Members cs₂ xs rest) : Members cs ((name, x) :: xs) rest

/-- `member = string name-separator value`. -/
inductive MemberAt : List ℕ → List Char → JsonValue → List ℕ → Prop
  | mk {cs cs₁ cs₂ cs₃ cs₄ rest : List ℕ} {name : List Char} {x : JsonValue}
      (h : Ws cs (34 :: cs₁)) (hname : Chars cs₁ name cs₂) (hcolon : Ws cs₂ (58 :: cs₃))
      (hgap : Ws cs₃ cs₄) (hx : ValueAt cs₄ x rest) : MemberAt cs name x rest

end

/-- `JSON-text = ws value ws`. -/
def JsonText (cs : List ℕ) (x : JsonValue) : Prop :=
  ∃ cs₁ rest, Ws cs cs₁ ∧ ValueAt cs₁ x rest ∧ Ws rest []

end Eshkol.Core.Json
