import Eshkol.Core.Strings

/-!
# Percent-Encoding

`url-encode` and `url-decode` of `lib/core/url.esk`. The encoder writes the UTF-8 bytes of a
character as `%XX` triples, by quotients and remainders; the decoder reads a byte at a time and
puts the bytes of a character together again. The decoder's functions take the characters from
`i` on; a decoded string is the list of its code points, since malformed triples can decode to
surrogates.
-/

namespace Eshkol.Core

open Machine

/-! ### Encoding -/

/-- The digits that `byte->hex2` writes. -/
def hexDigits : List Char := "0123456789ABCDEF".toList

/-- `byte->hex2`. -/
def byteToHex2 (b : ℕ) : Exec String (List Char) := do
  let hi ← stringRef hexDigits (b / 16)
  let lo ← stringRef hexDigits (b % 16)
  .ok [hi, lo]

def urlUnreserved (b : ℕ) : Bool :=
  (65 ≤ b && b ≤ 90) || (97 ≤ b && b ≤ 122) || (48 ≤ b && b ≤ 57) || b = 45 || b = 95 ||
    b = 46 || b = 126

/-- The expression `(string-append "%" (byte->hex2 b) ...)` over the bytes of a character. -/
def percentBytes : List ℕ → Exec String (List Char)
  | [] => .ok []
  | b :: bytes => do
      let hex ← byteToHex2 b
      let rest ← percentBytes bytes
      .ok ('%' :: (hex ++ rest))

def encodeCodepoint (cp : ℕ) : Exec String (List Char) :=
  if cp < 128 then
    if urlUnreserved cp then .ok [Char.ofNat cp] else percentBytes [cp]
  else if cp < 2048 then
    percentBytes [192 + cp / 64, 128 + cp % 64]
  else if cp < 65536 then
    let rest := cp % 4096
    percentBytes [224 + cp / 4096, 128 + rest / 64, 128 + rest % 64]
  else
    let rest₁ := cp % 262144
    let rest₂ := rest₁ % 4096
    percentBytes [240 + cp / 262144, 128 + rest₁ / 4096, 128 + rest₂ / 64, 128 + rest₂ % 64]

/-- The loop of `url-encode`, over the characters from `i` on. -/
def urlEncodeLoop : List Char → List Char → Exec String (List Char)
  | [], acc => .ok acc
  | c :: str, acc => do
      let text ← encodeCodepoint c.toNat
      urlEncodeLoop str (acc ++ text)

def urlEncode (str : List Char) : Exec String (List Char) := urlEncodeLoop str []

/-! ### Decoding -/

def hexDigit (ch : Char) : Bool :=
  (48 ≤ ch.toNat && ch.toNat ≤ 57) || (65 ≤ ch.toNat && ch.toNat ≤ 70) ||
    (97 ≤ ch.toNat && ch.toNat ≤ 102)

/-- `hex-digit->int`. -/
def hexDigitToInt (ch : Char) : ℕ :=
  if 48 ≤ ch.toNat ∧ ch.toNat ≤ 57 then ch.toNat - 48
  else if 65 ≤ ch.toNat ∧ ch.toNat ≤ 70 then ch.toNat - 55
  else if 97 ≤ ch.toNat ∧ ch.toNat ≤ 102 then ch.toNat - 87
  else 0

/-- The first clause of `url-read-byte`: a triple `%XX`. -/
def urlReadTriple : List Char → Option (ℕ × List Char)
  | ch :: hi :: lo :: rest =>
    if ch = '%' && hexDigit hi && hexDigit lo then
      some (hexDigitToInt hi * 16 + hexDigitToInt lo, rest)
    else none
  | _ => none

/-- `url-read-byte`. No byte is read from a character that is not ASCII. -/
def urlReadByte (str : List Char) : Exec String (Option ℕ × List Char) :=
  match str with
  | [] => raise "string-ref: index out of bounds"
  | ch :: rest =>
    match urlReadTriple str with
    | some (b, rest) => .ok (some b, rest)
    | none =>
      if ch = '+' then .ok (some 32, rest)
      else if ch.toNat < 128 then .ok (some ch.toNat, rest)
      else .ok (none, str)

/-- A continuation byte from `url-read-byte`. -/
def continuation : Option ℕ → Option ℕ
  | some b => if 128 ≤ b ∧ b < 192 then some b else none
  | none => none

/-- `utf8-combine`. Where a continuation byte is missing, the answer is the first byte alone. -/
def utf8Combine (b₁ nExtra : ℕ) (str : List Char) : Exec String (ℕ × List Char) :=
  match nExtra with
  | 0 => .ok (b₁, str)
  | 1 => do
      let (p₂, str₂) ← urlReadByte str
      match continuation p₂ with
      | none => .ok (b₁, str)
      | some b₂ => .ok ((b₁ - 192) * 64 + (b₂ - 128), str₂)
  | 2 => do
      let (p₂, str₂) ← urlReadByte str
      match continuation p₂ with
      | none => .ok (b₁, str)
      | some b₂ => do
          let (p₃, str₃) ← urlReadByte str₂
          match continuation p₃ with
          | none => .ok (b₁, str)
          | some b₃ => .ok ((b₁ - 224) * 4096 + (b₂ - 128) * 64 + (b₃ - 128), str₃)
  | 3 => do
      let (p₂, str₂) ← urlReadByte str
      match continuation p₂ with
      | none => .ok (b₁, str)
      | some b₂ => do
          let (p₃, str₃) ← urlReadByte str₂
          match continuation p₃ with
          | none => .ok (b₁, str)
          | some b₃ => do
              let (p₄, str₄) ← urlReadByte str₃
              match continuation p₄ with
              | none => .ok (b₁, str)
              | some b₄ =>
                .ok ((b₁ - 240) * 262144 + (b₂ - 128) * 4096 + (b₃ - 128) * 64 + (b₄ - 128), str₄)
  | _ => .ok (b₁, str)

/-- The code point that `(string (integer->char cp))` stores. -/
def stringCodepoint (cp : ℕ) : ℕ := if cp < 0x110000 then cp else 0xFFFD

/-- One round of the loop of `url-decode` at a character: the code point it appends and the
characters from which it goes on. -/
def urlDecodeStep (ch : Char) (rest : List Char) : Exec String (ℕ × List Char) := do
  let (p₁, str₁) ← urlReadByte (ch :: rest)
  match p₁ with
  | none => .ok (ch.toNat, rest)
  | some b₁ =>
    if b₁ < 128 then .ok (b₁, str₁)
    else if 192 ≤ b₁ ∧ b₁ < 224 then utf8Combine b₁ 1 str₁
    else if 224 ≤ b₁ ∧ b₁ < 240 then utf8Combine b₁ 2 str₁
    else if 240 ≤ b₁ ∧ b₁ < 248 then utf8Combine b₁ 3 str₁
    else .ok (b₁, str₁)

/-- The loop of `url-decode`. Every round leaves fewer characters, so that it ends. -/
def urlDecodeLoop (str : List Char) (acc : List ℕ) : Exec String (List ℕ) :=
  match str with
  | [] => .ok acc
  | ch :: rest => do
      let (cp, next) ← urlDecodeStep ch rest
      if _ : next.length < (ch :: rest).length then
        urlDecodeLoop next (acc ++ [stringCodepoint cp])
      else .error .diverges
termination_by str.length
decreasing_by assumption

def urlDecode (str : List Char) : Exec String (List ℕ) := urlDecodeLoop str []

/-- The unreserved characters. -/
def unreservedChar (c : Char) : Bool := c.isAlphanum || c = '-' || c = '_' || c = '.' || c = '~'

/-- Unreserved characters and triples `%XX` with hexadecimal digits. -/
inductive PercentEncoded : List Char → Prop
  | nil : PercentEncoded []
  | unreserved {c : Char} {text : List Char} (hc : unreservedChar c = true)
      (h : PercentEncoded text) : PercentEncoded (c :: text)
  | triple {hi lo : Char} {text : List Char} (hhi : hexDigit hi = true) (hlo : hexDigit lo = true)
      (h : PercentEncoded text) : PercentEncoded ('%' :: hi :: lo :: text)

variable {text : List Char} {b b₁ b₂ : ℕ}

theorem PercentEncoded.append {rest : List Char} (h : PercentEncoded text)
    (hrest : PercentEncoded rest) : PercentEncoded (text ++ rest) := by
  induction h with
  | nil => exact hrest
  | unreserved hc _ ih => exact .unreserved hc ih
  | triple hhi hlo _ ih => exact .triple hhi hlo ih

/-! ### Triples -/

theorem map_hexDigitToInt : hexDigits.map hexDigitToInt = List.range 16 := rfl

theorem hexDigit_hexDigits : hexDigits.all hexDigit = true := rfl

theorem exists_hexDigit {i : ℕ} (h : i < 16) :
    ∃ c, stringRef hexDigits i = .ok c ∧ hexDigit c = true ∧ hexDigitToInt c = i := by
  have hget : hexDigits[i]? = some hexDigits[i] := List.getElem?_eq_getElem h
  refine ⟨hexDigits[i], ?_, ?_, ?_⟩
  · rw [stringRef, hget]
  · exact List.all_eq_true.mp hexDigit_hexDigits _ (List.getElem_mem h)
  · have hvalue : (hexDigits.map hexDigitToInt)[i]? = some (hexDigitToInt hexDigits[i]) := by
      rw [List.getElem?_map, hget]
      rfl
    rw [map_hexDigitToInt, List.getElem?_range h] at hvalue
    exact (Option.some.inj hvalue).symm

/-- The triple of a byte. -/
structure Escapes (b : ℕ) (hi lo : Char) : Prop where
  high : hexDigit hi = true
  low : hexDigit lo = true
  value : hexDigitToInt hi * 16 + hexDigitToInt lo = b

theorem Escapes.read {hi lo : Char} (h : Escapes b hi lo) (rest : List Char) :
    urlReadByte ('%' :: hi :: lo :: rest) = .ok (some b, rest) := by
  simp [urlReadByte, urlReadTriple, h.high, h.low, h.value]

theorem byteToHex2_spec (h : b < 256) : ∃ hi lo, byteToHex2 b = .ok [hi, lo] ∧ Escapes b hi lo := by
  obtain ⟨hi, hhi, hhex, hvalue⟩ := @exists_hexDigit (b / 16) (by omega)
  obtain ⟨lo, hlo, lhex, lvalue⟩ := @exists_hexDigit (b % 16) (by omega)
  refine ⟨hi, lo, ?_, hhex, lhex, by omega⟩
  rw [byteToHex2, hhi, ok_bind, hlo]
  rfl

/-- The triples of some bytes. -/
inductive EscapesAll : List ℕ → List Char → Prop
  | nil : EscapesAll [] []
  | cons {b : ℕ} {hi lo : Char} {bytes : List ℕ} {text : List Char} (h : Escapes b hi lo)
      (hrest : EscapesAll bytes text) : EscapesAll (b :: bytes) ('%' :: hi :: lo :: text)

theorem percentBytes_spec {bytes : List ℕ} (h : ∀ b ∈ bytes, b < 256) :
    ∃ text, percentBytes bytes = .ok text ∧ EscapesAll bytes text := by
  induction bytes with
  | nil => exact ⟨[], rfl, .nil⟩
  | cons b bytes ih =>
    obtain ⟨hi, lo, hhex, hescapes⟩ := byteToHex2_spec (h b (by simp))
    obtain ⟨text, htext, hrest⟩ := ih fun x hx => h x (by simp [hx])
    refine ⟨_, ?_, .cons hescapes hrest⟩
    rw [percentBytes, hhex, ok_bind, htext]
    rfl

theorem EscapesAll.percentEncoded {bytes : List ℕ} (h : EscapesAll bytes text) :
    PercentEncoded text := by
  induction h with
  | nil => exact .nil
  | cons h _ ih => exact .triple h.high h.low ih

/-! ### One character -/

theorem continuation_eq_some (hlo : 128 ≤ b) (hhi : b < 192) : continuation (some b) = some b :=
  if_pos ⟨hlo, hhi⟩

/-- The decoder appends `cp` for the front `text` of its input. -/
def Decodes (text : List Char) (cp : ℕ) : Prop :=
  ∃ ch front, text = ch :: front ∧ ∀ rest, urlDecodeStep ch (front ++ rest) = .ok (cp, rest)

theorem decodes_unreserved {c : Char} (h : urlUnreserved c.toNat = true) :
    unreservedChar c = true ∧ Decodes [c] c.toNat := by
  have heq {d : Char} : c = d ↔ c.toNat = d.toNat := Char.ext_iff.trans UInt32.toNat_inj.symm
  simp only [urlUnreserved, Bool.or_eq_true, Bool.and_eq_true, decide_eq_true_eq] at h
  constructor
  · have halpha : c.isAlpha = (decide (c.val ≥ 65 ∧ c.val ≤ 90) ||
        (decide (c.val ≥ 97) && decide (c.val ≤ 122))) := rfl
    simp only [unreservedChar, Char.isAlphanum, halpha, Char.isDigit, Bool.or_eq_true,
      Bool.and_eq_true, decide_eq_true_eq, heq, ge_iff_le, UInt32.le_iff_toNat_le,
      Char.toNat_val, Char.reduceToNat, UInt32.reduceToNat]
    omega
  · refine ⟨c, [], rfl, fun rest => ?_⟩
    have hpercent : c ≠ '%' := fun hc => by simp [hc] at h
    have hplus : c ≠ '+' := fun hc => by simp [hc] at h
    have htriple : urlReadTriple (c :: rest) = none := by
      rcases rest with _ | ⟨hi, _ | ⟨lo, rest⟩⟩ <;> simp [urlReadTriple, hpercent]
    have hlt : c.toNat < 128 := by omega
    simp [urlDecodeStep, urlReadByte, htriple, hplus, hlt]

theorem decodes_one (h : EscapesAll [b] text) (hb : b < 128) : Decodes text b := by
  obtain _ | ⟨h₁, ⟨⟩⟩ := h
  refine ⟨_, _, rfl, fun rest => ?_⟩
  simp only [List.cons_append, List.nil_append, urlDecodeStep, h₁.read, ok_bind, if_pos hb]

theorem decodes_two (h : EscapesAll [b₁, b₂] text) (hb₁ : 192 ≤ b₁ ∧ b₁ < 224)
    (hb₂ : 128 ≤ b₂ ∧ b₂ < 192) : Decodes text ((b₁ - 192) * 64 + (b₂ - 128)) := by
  obtain _ | ⟨h₁, _ | ⟨h₂, ⟨⟩⟩⟩ := h
  refine ⟨_, _, rfl, fun rest => ?_⟩
  simp only [List.cons_append, List.nil_append, urlDecodeStep, h₁.read, ok_bind,
    if_neg (show ¬b₁ < 128 by omega), if_pos hb₁, utf8Combine, h₂.read,
    continuation_eq_some hb₂.1 hb₂.2]

theorem decodes_three {b₃ : ℕ} (h : EscapesAll [b₁, b₂, b₃] text) (hb₁ : 224 ≤ b₁ ∧ b₁ < 240)
    (hb₂ : 128 ≤ b₂ ∧ b₂ < 192) (hb₃ : 128 ≤ b₃ ∧ b₃ < 192) :
    Decodes text ((b₁ - 224) * 4096 + (b₂ - 128) * 64 + (b₃ - 128)) := by
  obtain _ | ⟨h₁, _ | ⟨h₂, _ | ⟨h₃, ⟨⟩⟩⟩⟩ := h
  refine ⟨_, _, rfl, fun rest => ?_⟩
  simp only [List.cons_append, List.nil_append, urlDecodeStep, h₁.read, ok_bind,
    if_neg (show ¬b₁ < 128 by omega), if_neg (show ¬(192 ≤ b₁ ∧ b₁ < 224) by omega), if_pos hb₁,
    utf8Combine, h₂.read, h₃.read, continuation_eq_some hb₂.1 hb₂.2,
    continuation_eq_some hb₃.1 hb₃.2]

theorem decodes_four {b₃ b₄ : ℕ} (h : EscapesAll [b₁, b₂, b₃, b₄] text) (hb₁ : 240 ≤ b₁ ∧ b₁ < 248)
    (hb₂ : 128 ≤ b₂ ∧ b₂ < 192) (hb₃ : 128 ≤ b₃ ∧ b₃ < 192) (hb₄ : 128 ≤ b₄ ∧ b₄ < 192) :
    Decodes text ((b₁ - 240) * 262144 + (b₂ - 128) * 4096 + (b₃ - 128) * 64 + (b₄ - 128)) := by
  obtain _ | ⟨h₁, _ | ⟨h₂, _ | ⟨h₃, _ | ⟨h₄, ⟨⟩⟩⟩⟩⟩ := h
  refine ⟨_, _, rfl, fun rest => ?_⟩
  simp only [List.cons_append, List.nil_append, urlDecodeStep, h₁.read, ok_bind,
    if_neg (show ¬b₁ < 128 by omega), if_neg (show ¬(192 ≤ b₁ ∧ b₁ < 224) by omega),
    if_neg (show ¬(224 ≤ b₁ ∧ b₁ < 240) by omega), if_pos hb₁, utf8Combine, h₂.read, h₃.read,
    h₄.read, continuation_eq_some hb₂.1 hb₂.2, continuation_eq_some hb₃.1 hb₃.2,
    continuation_eq_some hb₄.1 hb₄.2]

/-- A code point is encoded by its UTF-8 bytes. -/
theorem encodeCodepoint_spec (c : Char) :
    ∃ text, encodeCodepoint c.toNat = .ok text ∧ PercentEncoded text ∧ Decodes text c.toNat := by
  have hmax : c.toNat < 0x110000 := Codec.Utf8.toNat_lt c
  generalize hcp : c.toNat = cp at hmax
  rw [encodeCodepoint]
  split
  · split
    · next hunreserved =>
        obtain ⟨hchar, hdecodes⟩ := decodes_unreserved (hcp ▸ hunreserved)
        rw [← hcp, Char.ofNat_toNat]
        exact ⟨_, rfl, .unreserved hchar .nil, hdecodes⟩
    · next hlt _ =>
        obtain ⟨text, htext, hall⟩ := @percentBytes_spec [cp] (by simp; omega)
        exact ⟨text, htext, hall.percentEncoded, decodes_one hall hlt⟩
  split
  · obtain ⟨text, htext, hall⟩ := @percentBytes_spec [192 + cp / 64, 128 + cp % 64]
      (by simp; omega)
    refine ⟨text, htext, hall.percentEncoded, ?_⟩
    have hdecodes := decodes_two hall (by omega) (by omega)
    rwa [show (192 + cp / 64 - 192) * 64 + (128 + cp % 64 - 128) = cp by omega] at hdecodes
  split
  · obtain ⟨text, htext, hall⟩ := @percentBytes_spec
      [224 + cp / 4096, 128 + cp % 4096 / 64, 128 + cp % 4096 % 64] (by simp; omega)
    refine ⟨text, htext, hall.percentEncoded, ?_⟩
    have hdecodes := decodes_three hall (by omega) (by omega) (by omega)
    rwa [show (224 + cp / 4096 - 224) * 4096 + (128 + cp % 4096 / 64 - 128) * 64 +
      (128 + cp % 4096 % 64 - 128) = cp by omega] at hdecodes
  · obtain ⟨text, htext, hall⟩ := @percentBytes_spec
      [240 + cp / 262144, 128 + cp % 262144 / 4096, 128 + cp % 262144 % 4096 / 64,
        128 + cp % 262144 % 4096 % 64] (by simp; omega)
    refine ⟨text, htext, hall.percentEncoded, ?_⟩
    have hdecodes := decodes_four hall (by omega) (by omega) (by omega) (by omega)
    rwa [show (240 + cp / 262144 - 240) * 262144 + (128 + cp % 262144 / 4096 - 128) * 4096 +
      (128 + cp % 262144 % 4096 / 64 - 128) * 64 + (128 + cp % 262144 % 4096 % 64 - 128) = cp by
        omega] at hdecodes

theorem urlDecodeLoop_decodes {cp : ℕ} (h : Decodes text cp) (hcp : cp < 0x110000)
    (rest : List Char) (acc : List ℕ) :
    urlDecodeLoop (text ++ rest) acc = urlDecodeLoop rest (acc ++ [cp]) := by
  obtain ⟨ch, front, rfl, hstep⟩ := h
  rw [List.cons_append, urlDecodeLoop, hstep, ok_bind]
  have hshorter : rest.length < (ch :: (front ++ rest)).length := by
    rw [List.length_cons, List.length_append]
    omega
  simp only
  rw [dif_pos hshorter, stringCodepoint, if_pos hcp]

theorem urlEncodeLoop_spec (s acc : List Char) :
    ∃ text, urlEncodeLoop s acc = .ok (acc ++ text) ∧ PercentEncoded text ∧
      ∀ rest done, urlDecodeLoop (text ++ rest) done =
        urlDecodeLoop rest (done ++ s.map Char.toNat) := by
  induction s generalizing acc with
  | nil => exact ⟨[], by simp [urlEncodeLoop], .nil, by simp⟩
  | cons c s ih =>
    obtain ⟨front, hfront, hform, hdecodes⟩ := encodeCodepoint_spec c
    obtain ⟨text, htext, hrest, hloop⟩ := ih (acc ++ front)
    refine ⟨front ++ text, ?_, hform.append hrest, fun rest done => ?_⟩
    · rw [urlEncodeLoop, hfront, ok_bind, htext, List.append_assoc]
    · rw [List.append_assoc, urlDecodeLoop_decodes hdecodes (Codec.Utf8.toNat_lt c), hloop]
      simp

/-- Every string is encoded into unreserved characters and triples, and comes back. -/
theorem urlDecode_urlEncode (s : List Char) :
    ∃ text, urlEncode s = .ok text ∧ PercentEncoded text ∧
      urlDecode text = .ok (s.map Char.toNat) := by
  obtain ⟨text, htext, hform, hloop⟩ := urlEncodeLoop_spec s []
  refine ⟨text, htext, hform, ?_⟩
  have hdecode := hloop [] []
  rw [List.append_nil] at hdecode
  rw [urlDecode, hdecode, urlDecodeLoop, List.nil_append]

end Eshkol.Core
