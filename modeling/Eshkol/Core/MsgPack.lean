import Eshkol.Core.Strings

/-!
# MessagePack

The encoder and the decoder of `lib/core/msgpack.esk`. A value is null, a boolean, an integer, a
string, a bytevector, a list or a map; a map holds the list of its entries, which the encoder
wants to be lists of two. The encoder makes a list of bytes and then a bytevector of it; the
decoder walks over the bytevector with a position.

The conversions between strings and UTF-8 are parameters, and so is the type of strings.
-/

namespace Eshkol.Core.MsgPack

open Machine

/-- A value. -/
inductive Value (S : Type) : Type
  | null
  | bool (b : Bool)
  | int (n : ℤ)
  | str (s : S)
  | bytes (bv : List UInt8)
  | list (values : List (Value S))
  | map (entries : List (Value S))

variable {S : Type}

/-! ### Encoding -/

def msgpackU16Bytes (n : ℕ) : List ℕ := [n / 256, n % 256]

def msgpackU32Bytes (n : ℕ) : List ℕ :=
  let r₁ := n % 16777216
  let r₂ := r₁ % 65536
  [n / 16777216, r₁ / 65536, r₂ / 256, r₂ % 256]

def msgpackEncodeInt (n : ℤ) : Exec String (List ℕ) :=
  if 0 ≤ n ∧ n ≤ 127 then .ok [n.toNat]
  else if 0 ≤ n ∧ n ≤ 255 then .ok [204, n.toNat]
  else if 0 ≤ n ∧ n ≤ 65535 then .ok (205 :: msgpackU16Bytes n.toNat)
  else if 0 ≤ n ∧ n ≤ 4294967295 then .ok (206 :: msgpackU32Bytes n.toNat)
  else if -32 ≤ n ∧ n < 0 then .ok [(256 + n).toNat]
  else if -128 ≤ n ∧ n < -32 then .ok [208, (256 + n).toNat]
  else if -32768 ≤ n ∧ n < -128 then .ok (209 :: msgpackU16Bytes (65536 + n).toNat)
  else if -2147483648 ≤ n ∧ n < -32768 then .ok (210 :: msgpackU32Bytes (4294967296 + n).toNat)
  else raise "msgpack-encode: integer outside supported 32-bit wire range"

def msgpackEncodeBinBytes (payload : List ℕ) : Exec String (List ℕ) :=
  let len := payload.length
  if len ≤ 255 then .ok ([196, len] ++ payload)
  else if len ≤ 65535 then .ok (197 :: msgpackU16Bytes len ++ payload)
  else raise "msgpack-encode: bin payload too large for current substrate"

/-- `msgpack-encode-string`, from the UTF-8 bytes of the string on. -/
def msgpackEncodeUtf8 (payload : List ℕ) : Exec String (List ℕ) :=
  let len := payload.length
  if len ≤ 31 then .ok ([160 + len] ++ payload)
  else if len ≤ 255 then .ok ([217, len] ++ payload)
  else if len ≤ 65535 then .ok (218 :: msgpackU16Bytes len ++ payload)
  else raise "msgpack-encode: string payload too large for current substrate"

/-- The header that `msgpack-encode-array` and `msgpack-encode-map-value` put before the
encodings of `len` members. -/
def msgpackEncodeCounted (short long : ℕ) (message : String) (len : ℕ)
    (members : Exec String (List ℕ)) : Exec String (List ℕ) :=
  if len ≤ 15 then do
    let body ← members
    .ok ([short + len] ++ body)
  else if len ≤ 65535 then do
    let body ← members
    .ok (long :: msgpackU16Bytes len ++ body)
  else raise message

mutual

def msgpackEncodeValue (stringToUtf8 : S → List UInt8) : Value S → Exec String (List ℕ)
  | .null => .ok [192]
  | .bool b => if b then .ok [195] else .ok [194]
  | .int n => msgpackEncodeInt n
  | .str s => msgpackEncodeUtf8 ((stringToUtf8 s).map UInt8.toNat)
  | .bytes bv => msgpackEncodeBinBytes (bv.map UInt8.toNat)
  | .map entries =>
    msgpackEncodeCounted 128 222 "msgpack-encode: map too large for current substrate"
      entries.length (msgpackEncodeMapEntries stringToUtf8 entries)
  | .list values =>
    msgpackEncodeCounted 144 220 "msgpack-encode: array too large for current substrate"
      values.length (msgpackEncodeArrayElements stringToUtf8 values)

def msgpackEncodeArrayElements (stringToUtf8 : S → List UInt8) :
    List (Value S) → Exec String (List ℕ)
  | [] => .ok []
  | value :: values => do
      let first ← msgpackEncodeValue stringToUtf8 value
      let rest ← msgpackEncodeArrayElements stringToUtf8 values
      .ok (first ++ rest)

/-- `msgpack-encode-map-entries`, with `msgpack-encode-map-entry` in its place. -/
def msgpackEncodeMapEntries (stringToUtf8 : S → List UInt8) : List (Value S) → Exec String (List ℕ)
  | [] => .ok []
  | .list [key, value] :: entries => do
      let k ← msgpackEncodeValue stringToUtf8 key
      let v ← msgpackEncodeValue stringToUtf8 value
      let rest ← msgpackEncodeMapEntries stringToUtf8 entries
      .ok (k ++ v ++ rest)
  | _ :: _ => raise "msgpack-encode: map entries must be two-element lists"

end

/-- `msgpack-bytes->bytevector`. -/
def msgpackBytesToBytevector : List ℕ → Exec String (List UInt8)
  | [] => .ok []
  | b :: rest =>
    if b ≤ 255 then do
      let bv ← msgpackBytesToBytevector rest
      .ok (UInt8.ofNat b :: bv)
    else raise "msgpack-bytes->bytevector"

def msgpackEncode (stringToUtf8 : S → List UInt8) (value : Value S) : Exec String (List UInt8) := do
  let bytes ← msgpackEncodeValue stringToUtf8 value
  msgpackBytesToBytevector bytes

/-! ### Decoding -/

def msgpackRequireAvailable (bv : List UInt8) (pos n : ℕ) : Exec String Unit :=
  if pos + n ≤ bv.length then .ok () else raise "msgpack-decode: truncated input"

def bytevectorU8Ref (bv : List UInt8) (k : ℕ) : Exec String ℕ :=
  match bv[k]? with
  | none => raise "bytevector-u8-ref: index out of bounds"
  | some b => .ok b.toNat

def bytevectorCopy (bv : List UInt8) (start stop : ℕ) : List UInt8 :=
  (bv.drop start).take (stop - start)

/-- The check and the reference with which the decoder reads one byte. -/
def msgpackReadU8 (bv : List UInt8) (pos : ℕ) : Exec String ℕ := do
  msgpackRequireAvailable bv pos 1
  bytevectorU8Ref bv pos

def msgpackReadU16 (bv : List UInt8) (pos : ℕ) : Exec String ℕ := do
  msgpackRequireAvailable bv pos 2
  let b₁ ← bytevectorU8Ref bv pos
  let b₂ ← bytevectorU8Ref bv (pos + 1)
  .ok (b₁ * 256 + b₂)

def msgpackReadU32 (bv : List UInt8) (pos : ℕ) : Exec String ℕ := do
  msgpackRequireAvailable bv pos 4
  let b₁ ← bytevectorU8Ref bv pos
  let b₂ ← bytevectorU8Ref bv (pos + 1)
  let b₃ ← bytevectorU8Ref bv (pos + 2)
  let b₄ ← bytevectorU8Ref bv (pos + 3)
  .ok (b₁ * 16777216 + b₂ * 65536 + b₃ * 256 + b₄)

def msgpackDecodeBin (bv : List UInt8) (pos len : ℕ) : Exec String (Value S × ℕ) := do
  msgpackRequireAvailable bv pos len
  .ok (.bytes (bytevectorCopy bv pos (pos + len)), pos + len)

def msgpackDecodeString (utf8ToString : List UInt8 → S) (bv : List UInt8) (pos len : ℕ) :
    Exec String (Value S × ℕ) := do
  msgpackRequireAvailable bv pos len
  .ok (.str (utf8ToString (bytevectorCopy bv pos (pos + len))), pos + len)

/-- `msgpack-decode-array-elements`, over the decoder of one value. -/
def msgpackDecodeArrayElements (decodeAt : ℕ → Exec String (Value S × ℕ)) (pos : ℕ) :
    ℕ → List (Value S) → Exec String (Value S × ℕ)
  | 0, acc => .ok (.list acc.reverse, pos)
  | count + 1, acc => do
      let (value, next) ← decodeAt pos
      msgpackDecodeArrayElements decodeAt next count (value :: acc)

/-- `msgpack-decode-map-entries`, over the decoder of one value. -/
def msgpackDecodeMapEntries (decodeAt : ℕ → Exec String (Value S × ℕ)) (pos : ℕ) :
    ℕ → List (Value S) → Exec String (Value S × ℕ)
  | 0, acc => .ok (.map acc.reverse, pos)
  | count + 1, acc => do
      let (key, mid) ← decodeAt pos
      let (value, next) ← decodeAt mid
      msgpackDecodeMapEntries decodeAt next count (.list [key, value] :: acc)

/-- The dispatch of `msgpack-decode-at` on the marker before `next`, over the decoder of one
value. -/
def msgpackDecodeTag (decodeAt : ℕ → Exec String (Value S × ℕ)) (utf8ToString : List UInt8 → S)
    (bv : List UInt8) (next tag : ℕ) : Exec String (Value S × ℕ) :=
  if tag ≤ 127 then .ok (.int tag, next)
  else if 128 ≤ tag ∧ tag ≤ 143 then msgpackDecodeMapEntries decodeAt next (tag - 128) []
  else if 144 ≤ tag ∧ tag ≤ 159 then msgpackDecodeArrayElements decodeAt next (tag - 144) []
  else if 160 ≤ tag ∧ tag ≤ 191 then msgpackDecodeString utf8ToString bv next (tag - 160)
  else if tag = 192 then .ok (.null, next)
  else if tag = 194 then .ok (.bool false, next)
  else if tag = 195 then .ok (.bool true, next)
  else if tag = 196 then do
    let len ← msgpackReadU8 bv next
    msgpackDecodeBin bv (next + 1) len
  else if tag = 197 then do
    let len ← msgpackReadU16 bv next
    msgpackDecodeBin bv (next + 2) len
  else if tag = 204 then do
    let v ← msgpackReadU8 bv next
    .ok (.int v, next + 1)
  else if tag = 205 then do
    let v ← msgpackReadU16 bv next
    .ok (.int v, next + 2)
  else if tag = 206 then do
    let v ← msgpackReadU32 bv next
    .ok (.int v, next + 4)
  else if tag = 208 then do
    let v ← msgpackReadU8 bv next
    .ok (.int (if 128 ≤ v then v - 256 else v), next + 1)
  else if tag = 209 then do
    let v ← msgpackReadU16 bv next
    .ok (.int (if 32768 ≤ v then v - 65536 else v), next + 2)
  else if tag = 210 then do
    let v ← msgpackReadU32 bv next
    .ok (.int (if 2147483648 ≤ v then v - 4294967296 else v), next + 4)
  else if tag = 217 then do
    let len ← msgpackReadU8 bv next
    msgpackDecodeString utf8ToString bv (next + 1) len
  else if tag = 218 then do
    let len ← msgpackReadU16 bv next
    msgpackDecodeString utf8ToString bv (next + 2) len
  else if tag = 220 then do
    let count ← msgpackReadU16 bv next
    msgpackDecodeArrayElements decodeAt (next + 2) count []
  else if tag = 222 then do
    let count ← msgpackReadU16 bv next
    msgpackDecodeMapEntries decodeAt (next + 2) count []
  else if 224 ≤ tag then .ok (.int (tag - 256), next)
  else raise "msgpack-decode: unsupported type marker"

/-- `msgpack-decode-at`. The members of a list or a map lie behind its marker, so that the
recursion ends. -/
def msgpackDecodeAt (utf8ToString : List UInt8 → S) (bv : List UInt8) (pos : ℕ) :
    Exec String (Value S × ℕ) :=
  if hpos : pos < bv.length then
    let decodeAt := fun p =>
      if _ : pos < p then msgpackDecodeAt utf8ToString bv p else .error .diverges
    msgpackDecodeTag decodeAt utf8ToString bv (pos + 1) bv[pos].toNat
  else raise "msgpack-decode: truncated input"
termination_by bv.length - pos

def msgpackDecodePrefix (utf8ToString : List UInt8 → S) (bv : List UInt8) :
    Exec String (Value S × ℕ) :=
  msgpackDecodeAt utf8ToString bv 0

def msgpackDecode (utf8ToString : List UInt8 → S) (bv : List UInt8) : Exec String (Value S) := do
  let (value, next) ← msgpackDecodeAt utf8ToString bv 0
  if next = bv.length then .ok value
  else raise "msgpack-decode: trailing bytes after one object"

end Eshkol.Core.MsgPack
