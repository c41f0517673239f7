import Eshkol.Core.Base64

/-!
# Base64 for URLs

`base64url-encode` and `base64url-decode` of `lib/core/url.esk`, with the string forms of
`lib/core/data/base64.esk` under them. The encoder takes the code point of a character for a byte;
the decoder makes its string byte by byte with `make-string`.

A character past ASCII is therefore lost: where its code point is past `255` an index leaves the
alphabet or runs into its neighbour, and below it comes back as one byte of an encoding that has
two.
-/

namespace Eshkol.Core

open Machine

/-- `string->bytes`. -/
def stringToBytes (str : List Char) : List ℕ := str.map Char.toNat

def base64EncodeString (str : List Char) : Exec String (List Char) :=
  base64Encode (stringToBytes str)

/-- `bytes->string`. -/
def bytesToString : List ℕ → List UInt8
  | [] => []
  | b :: bytes => makeString 1 (Char.ofNat b) ++ bytesToString bytes

def base64DecodeString (str : List Char) : Exec String (List UInt8) := do
  let bytes ← base64Decode str
  .ok (bytesToString bytes)

def b64urlStripPadding (s : List Char) : List Char := s.rdropWhile (· = '=')

def b64urlRestorePadding (s : List Char) : List Char :=
  let rem := s.length % 4
  if rem = 0 then s
  else if rem = 2 then s ++ "==".toList
  else if rem = 3 then s ++ "=".toList
  else s

def b64urlReplaceEncode (s : List Char) : List Char :=
  stringReplace (stringReplace s "+".toList "-".toList) "/".toList "_".toList

def b64urlReplaceDecode (s : List Char) : List Char :=
  stringReplace (stringReplace s "-".toList "+".toList) "_".toList "/".toList

def base64urlEncode (str : List Char) : Exec String (List Char) := do
  let text ← base64EncodeString str
  .ok (b64urlStripPadding (b64urlReplaceEncode text))

def base64urlDecode (str : List Char) : Exec String (List UInt8) :=
  base64DecodeString (b64urlRestorePadding (b64urlReplaceDecode str))

/-- A letter, a digit, `-` or `_`. -/
def urlSafe (c : Char) : Bool := c.isAlphanum || c = '-' || c = '_'

/-! ### The substitutions of characters -/

/-- The digit of the URL alphabet. -/
def urlDigit (c : Char) : Char := if c = '+' then '-' else if c = '/' then '_' else c

/-- The digit of the standard alphabet. -/
def standardDigit (c : Char) : Char := if c = '-' then '+' else if c = '_' then '/' else c

theorem urlDigit_alphabet :
    base64Alphabet.all (fun c => urlSafe (urlDigit c) && standardDigit (urlDigit c) == c &&
      urlDigit c != '=' && c != '\x00' && urlDigit c != '\x00') = true := rfl

theorem urlDigit_spec {c : Char} (h : c ∈ base64Alphabet) :
    urlSafe (urlDigit c) = true ∧ standardDigit (urlDigit c) = c ∧ urlDigit c ≠ '=' ∧
      c ≠ '\x00' ∧ urlDigit c ≠ '\x00' := by
  have hc := List.all_eq_true.mp urlDigit_alphabet c h
  simpa [and_assoc] using hc

theorem b64urlReplaceEncode_eq {s : List Char} (h : '\x00' ∉ s) :
    b64urlReplaceEncode s = s.map urlDigit := by
  have hne : ∀ c ∈ s, c ≠ '\x00' := fun c hc heq => h (heq ▸ hc)
  rw [b64urlReplaceEncode, show "+".toList = ['+'] from rfl, show "-".toList = ['-'] from rfl,
    show "/".toList = ['/'] from rfl, show "_".toList = ['_'] from rfl,
    stringReplace_char_char (by decide) h, stringReplace_char_char (by decide), List.map_map]
  · refine List.map_congr_left fun c _ => ?_
    by_cases hplus : c = '+' <;> simp [urlDigit, hplus]
  · simp only [List.mem_map, not_exists, not_and]
    intro c hc
    split
    · decide
    · exact hne c hc

theorem b64urlReplaceDecode_eq {s : List Char} (h : '\x00' ∉ s) :
    b64urlReplaceDecode s = s.map standardDigit := by
  have hne : ∀ c ∈ s, c ≠ '\x00' := fun c hc heq => h (heq ▸ hc)
  rw [b64urlReplaceDecode, show "+".toList = ['+'] from rfl, show "-".toList = ['-'] from rfl,
    show "/".toList = ['/'] from rfl, show "_".toList = ['_'] from rfl,
    stringReplace_char_char (by decide) h, stringReplace_char_char (by decide), List.map_map]
  · refine List.map_congr_left fun c _ => ?_
    by_cases hminus : c = '-' <;> simp [standardDigit, hminus]
  · simp only [List.mem_map, not_exists, not_and]
    intro c hc
    split
    · decide
    · exact hne c hc

/-! ### The text of a string -/

theorem b64url_of_digits {bytes : List ℕ} {digits : List Char} (h : Digits bytes digits) (k : ℕ) :
    b64urlStripPadding (b64urlReplaceEncode (digits ++ List.replicate k '=')) =
      digits.map urlDigit := by
  have hspec := fun c hc => urlDigit_spec (h.mem_alphabet c hc)
  have hzero : '\x00' ∉ digits ++ List.replicate k '=' := by
    rw [List.mem_append, not_or]
    exact ⟨fun hmem => (hspec _ hmem).2.2.2.1 rfl, fun hmem => by
      simpa using List.eq_of_mem_replicate hmem⟩
  rw [b64urlReplaceEncode_eq hzero, List.map_append, List.map_replicate,
    show urlDigit '=' = '=' from rfl, b64urlStripPadding, List.rdropWhile, List.reverse_append,
    List.reverse_replicate, List.dropWhile_append_of_pos (by simp), ← List.rdropWhile,
    List.rdropWhile_eq_self_iff]
  intro hne
  obtain ⟨c, hc, heq⟩ := List.mem_map.mp (List.getLast_mem hne)
  simpa [← heq] using (hspec c hc).2.2.1

theorem b64urlRestorePadding_eq (s : List Char) :
    ∃ k, b64urlRestorePadding s = s ++ List.replicate k '=' := by
  rw [b64urlRestorePadding]
  split_ifs
  · exact ⟨0, (List.append_nil s).symm⟩
  · exact ⟨2, rfl⟩
  · exact ⟨1, rfl⟩
  · exact ⟨0, (List.append_nil s).symm⟩

theorem base64urlDecode_of_digits {bytes : List ℕ} {digits : List Char} (h : Digits bytes digits) :
    ∃ bytes', base64urlDecode (digits.map urlDigit) = .ok (bytesToString bytes') ∧
      bytes'.length = bytes.length ∧ ((∀ b ∈ bytes, b < 256) → bytes' = bytes) := by
  have hspec := fun c hc => urlDigit_spec (h.mem_alphabet c hc)
  have hzero : '\x00' ∉ digits.map urlDigit := by
    intro hmem
    obtain ⟨c, hc, heq⟩ := List.mem_map.mp hmem
    exact (hspec c hc).2.2.2.2 heq
  have hback : (digits.map urlDigit).map standardDigit = digits := by
    rw [List.map_map]
    exact (List.map_congr_left fun c hc => (hspec c hc).2.1).trans (List.map_id digits)
  obtain ⟨k, hk⟩ := b64urlRestorePadding_eq digits
  obtain ⟨bytes', hdecode, hlength, hbytes'⟩ := h.decode k
  refine ⟨bytes', ?_, hlength, hbytes'⟩
  rw [base64urlDecode, b64urlReplaceDecode_eq hzero, hback, hk, base64DecodeString, hdecode]
  rfl

theorem length_bytesToString (bytes : List ℕ) : (bytesToString bytes).length = bytes.length := by
  induction bytes with
  | nil => rfl
  | cons b bytes ih => simp [bytesToString, makeString, ih]

theorem base64urlDecode_length {s text : List Char} {bytes : List UInt8}
    (hencode : base64urlEncode s = .ok text) (hdecode : base64urlDecode text = .ok bytes) :
    bytes.length = s.length := by
  obtain ⟨encoded, hencoded, htext⟩ := bind_eq_ok.mp hencode
  obtain ⟨digits, hdigits, rfl⟩ := base64Encode_eq_ok_iff.mp hencoded
  obtain rfl := Except.ok.inj htext
  obtain ⟨bytes', hread, hlength, -⟩ := base64urlDecode_of_digits hdigits
  rw [b64url_of_digits hdigits, hread] at hdecode
  rw [← Except.ok.inj hdecode, length_bytesToString, hlength, stringToBytes, List.length_map]

theorem bytesToString_stringToBytes {s : List Char} (h : ∀ c ∈ s, c.toNat < 128) :
    bytesToString (stringToBytes s) = Codec.Utf8.encode s := by
  induction s with
  | nil => rfl
  | cons c s ih =>
    have hc := h c (by simp)
    rw [stringToBytes, List.map_cons, bytesToString, Char.ofNat_toNat, makeString_ascii hc]
    rw [← stringToBytes, ih fun d hd => h d (by simp [hd]), ← Codec.Utf8.encode_append]
    rfl

/-- A string is encoded into letters, digits, `-` and `_` and comes back exactly when it is
ASCII. -/
theorem base64url_round_trip_iff (s : List Char) :
    (∃ text, base64urlEncode s = .ok text ∧ (∀ c ∈ text, urlSafe c = true) ∧
      base64urlDecode text = .ok (Codec.Utf8.encode s)) ↔ ∀ c ∈ s, c.toNat < 128 := by
  constructor
  · rintro ⟨text, hencode, -, hdecode⟩
    exact (length_encode_eq_iff s).mp (base64urlDecode_length hencode hdecode)
  · intro h
    have hbytes : ∀ b ∈ stringToBytes s, b < 256 := by
      intro b hb
      obtain ⟨c, hc, rfl⟩ := List.mem_map.mp hb
      exact lt_trans (h c hc) (by decide)
    obtain ⟨digits, hdigits⟩ := exists_digits hbytes
    obtain ⟨bytes', hread, -, hbytes'⟩ := base64urlDecode_of_digits hdigits
    refine ⟨digits.map urlDigit, ?_, ?_, ?_⟩
    · rw [base64urlEncode, base64EncodeString,
        base64Encode_eq_ok_iff.mpr ⟨digits, hdigits, rfl⟩, ok_bind, b64url_of_digits hdigits]
    · intro c hc
      obtain ⟨d, hd, rfl⟩ := List.mem_map.mp hc
      exact (urlDigit_spec (hdigits.mem_alphabet d hd)).1
    · rw [hread, hbytes' hbytes, bytesToString_stringToBytes h]

/-- The letter é comes back as the single byte `E9`, which is not its encoding. -/
theorem base64url_accented :
    ¬∃ text, base64urlEncode ['é'] = .ok text ∧ (∀ c ∈ text, urlSafe c = true) ∧
      base64urlDecode text = .ok (Codec.Utf8.encode ['é']) := by
  rintro ⟨text, hencode, -, hdecode⟩
  have htext : base64urlEncode ['é'] = .ok "6Q".toList := rfl
  have hbytes : base64urlDecode "6Q".toList = .ok [0xE9] := rfl
  have hutf : Codec.Utf8.encode ['é'] = [0xC3, 0xA9] := rfl
  obtain rfl := Except.ok.inj (hencode.symm.trans htext)
  rw [hbytes, hutf] at hdecode
  simp at hdecode

end Eshkol.Core
