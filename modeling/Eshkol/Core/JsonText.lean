import Eshkol.Core.JsonValue
import Eshkol.Core.Strings
import Eshkol.Native.Print
import Eshkol.Native.Utf8

/-!
# JSON Strings and Numbers

The leaves of `lib/core/json.esk`: white space, string literals and numbers, as the parser reads
them and as the printer writes them. A string is the bytes of its payload, which `string-ref` shows
as a list of code points. The printer and the parser put their strings together with
`(make-string 1 c)`, one byte for a character, so that only ASCII goes through them unchanged.

The parser works on the code points from its position on. A number is collected character by
character, without regard to the grammar, and handed to `string->number`; where that answers `#f`
the number has been read as false.
-/

namespace Eshkol.Core.Json

open Machine

/-- A datum of the program: exact and inexact numbers, and strings by their payload. -/
abbrev Datum (D : Type) : Type := Value (Tagged D) (List UInt8)

variable {D : Type}

/-! ### Code points -/

def stringLength (str : List UInt8) : ℕ := utf8StrlenLoop str 0

/-- The part of a payload that the decoder may look at from offset `i` on. -/
def decodeWindow (str : List UInt8) (i : ℕ) : StringObject where
  bytes := (str.drop i).take 4
  fits := by
    rw [List.length_take]
    omega

/-- `(char->integer (string-ref str k))`. -/
def stringRefCode (str : List UInt8) (k : ℕ) : Exec Exn ℕ :=
  if stringLength str ≤ k then .error (.raised (.error "string-ref: index out of bounds"))
  else
    match decodeUtf8Codepoint (decodeWindow str (utf8RefLoop k str 0 0)) 0 with
    | .ok (cp, _) => .ok cp.toNat
    | .error _ => .error .undefined

/-- The code points of a string, one for each index. -/
def stringCodes (str : List UInt8) : Exec Exn (List ℕ) :=
  (List.range (stringLength str)).mapM (stringRefCode str)

/-- A payload of ASCII characters. -/
def Ascii (str : List UInt8) : Prop := ∀ b ∈ str, b < 0x80

/-- `(make-string 1 (integer->char c))`. -/
def makeStringCode (c : ℕ) : List UInt8 := [UInt8.ofNat c]

def jsonWhitespace (c : ℕ) : Bool := c = 32 || c = 9 || c = 10 || c = 13

def jsonDigit (c : ℕ) : Bool := 48 ≤ c && c ≤ 57

/-- `json-skip-ws` and `json-skip-trailing-ws`. -/
def jsonSkipWs : List ℕ → List ℕ
  | [] => []
  | c :: cs => if jsonWhitespace c then jsonSkipWs cs else c :: cs

/-! ### String literals -/

/-- What the parser reads for the character after a backslash. -/
def jsonUnescape (next : ℕ) : List UInt8 :=
  if next = 110 then [10]
  else if next = 116 then [9]
  else if next = 114 then [13]
  else if next = 92 then [92]
  else if next = 34 then [34]
  else if next = 47 then [47]
  else makeStringCode next

/-- `json-parse-str`, after the opening quote. -/
def jsonParseStr : List ℕ → List UInt8 → List UInt8 × List ℕ
  | [], result => (result, [])
  | c :: cs, result =>
    if c = 34 then (result, cs)
    else if c = 92 then
      match cs with
      | [] => (result, [c])
      | next :: cs => jsonParseStr cs (result ++ jsonUnescape next)
    else jsonParseStr cs (result ++ makeStringCode c)

/-- What the printer writes for a character. -/
def jsonEscape (c : ℕ) : List UInt8 :=
  if c = 34 then [92, 34]
  else if c = 92 then [92, 92]
  else if c = 10 then [92, 110]
  else if c = 9 then [92, 116]
  else if c = 13 then [92, 114]
  else makeStringCode c

def jsonEscapeStr (str : List UInt8) : Exec Exn (List UInt8) := do
  let codes ← stringCodes str
  .ok ([34] ++ codes.flatMap jsonEscape ++ [34])

/-- The loop of `json-parse-num`: the text collected, and what follows. -/
def jsonNumLoop : List ℕ → List Char → Bool → Bool → List Char × List ℕ
  | [], result, _, _ => (result, [])
  | c :: cs, result, hasDot, hasExp =>
    if jsonDigit c then jsonNumLoop cs (result ++ [Char.ofNat c]) hasDot hasExp
    else if c = 46 && !hasDot && !hasExp then jsonNumLoop cs (result ++ ['.']) true hasExp
    else if (c = 101 || c = 69) && !hasExp then jsonNumLoop cs (result ++ ['e']) hasDot true
    else if (c = 43 || c = 45) && hasExp then
      jsonNumLoop cs (result ++ [Char.ofNat c]) hasDot hasExp
    else (result, c :: cs)

/-- A tagged value as a datum: `string->number` answers a number or `#f`. -/
def ofTagged : Tagged D → Datum D
  | .bool b => .bool b
  | x => .number x

def jsonParseNum (ops : DoubleOps D) (cs : List ℕ) : Exec Exn (Datum D × List ℕ) := do
  let neg := cs.head? = some 45
  let out := jsonNumLoop (if neg then cs.tail else cs) [] false false
  let x ← eshkolStringToNumberTagged ops (if neg then '-' :: out.1 else out.1)
  .ok (ofTagged x, out.2)

/-! ### ASCII -/

theorem startsChar_ascii {b : UInt8} (h : b < 0x80) : startsChar b = true := by
  rw [startsChar_iff, Codec.Utf8.Continues]
  rw [lt_0x80_iff] at h
  omega

variable {str : List UInt8} {c : ℕ} {rest : List ℕ}

theorem stringLength_ascii (h : Ascii str) : stringLength str = str.length := by
  rw [stringLength, utf8StrlenLoop_eq, Nat.zero_add]
  exact List.countP_eq_length.mpr fun b hb => startsChar_ascii (h b hb)

theorem utf8RefLoop_ascii (h : Ascii str) {n : ℕ} (hn : n ≤ str.length) (cpIdx i : ℕ) :
    utf8RefLoop ((cpIdx + n : ℕ) : ℤ) str cpIdx i = i + n := by
  induction n generalizing str cpIdx i with
  | zero => exact utf8RefLoop_stop (by simp) _ _
  | succ n ih =>
    cases str with
    | nil => simp at hn
    | cons b str =>
      rw [Ascii, List.forall_mem_cons] at h
      rw [utf8RefLoop_first (by push_cast; omega) (startsChar_iff.mp (startsChar_ascii h.1)),
        show cpIdx + (n + 1) = cpIdx + 1 + n by omega, ih h.2 (Nat.le_of_succ_le_succ hn)]
      omega

theorem stringRefCode_ascii (h : Ascii str) {k : ℕ} (hk : k < str.length) :
    stringRefCode str k = .ok str[k].toNat := by
  have hstop := utf8RefLoop_ascii h hk.le 0 0
  rw [Nat.zero_add] at hstop
  have hfirst : (decodeWindow str k).bytes[0]? = some str[k] := by
    rw [decodeWindow, List.getElem?_take_of_lt (by omega), List.getElem?_drop, Nat.add_zero,
      List.getElem?_eq_getElem hk]
  rw [stringRefCode, if_neg (by rw [stringLength_ascii h]; omega), hstop, decodeUtf8Codepoint,
    read_eq_ok hfirst, ok_bind, if_pos (h _ (List.getElem_mem hk))]
  rfl

/-- The code points of an ASCII payload. -/
def codes (text : List UInt8) : List ℕ := text.map UInt8.toNat

@[simp] theorem codes_append (s t : List UInt8) : codes (s ++ t) = codes s ++ codes t :=
  List.map_append

@[simp] theorem codes_cons (b : UInt8) (t : List UInt8) : codes (b :: t) = b.toNat :: codes t := rfl

@[simp] theorem codes_nil : codes [] = [] := rfl

@[simp] theorem length_codes (t : List UInt8) : (codes t).length = t.length := List.length_map ..

theorem stringCodes_ascii (h : Ascii str) : stringCodes str = .ok (codes str) := by
  rw [stringCodes, stringLength_ascii h, codes, mapM_eq_ok, List.forall₂_iff_get]
  refine ⟨by simp, fun k hk hk' => ?_⟩
  have hk : k < str.length := by simpa using hk
  simpa using stringRefCode_ascii h hk

theorem toNat_ofNat_ascii (h : c < 128) : (UInt8.ofNat c).toNat = c :=
  Codec.Utf8.toNat_ofNat (by omega)

theorem toNat_char_ofNat (h : c < 128) : (Char.ofNat c).toNat = c := by
  have hvalid : c.isValidChar := Or.inl (by omega)
  rw [Char.ofNat, dif_pos hvalid]
  rfl

theorem encode_ascii {cs : List Char} (h : ∀ c ∈ cs, c.toNat < 128) :
    Ascii (Codec.Utf8.encode cs) ∧ codes (Codec.Utf8.encode cs) = cs.map Char.toNat := by
  induction cs with
  | nil => simp [Ascii]
  | cons c cs ih =>
    rw [List.forall_mem_cons] at h
    obtain ⟨hascii, hcodes⟩ := ih h.2
    have hbyte := toNat_ofNat_ascii h.1
    rw [encode_cons_ascii h.1, makeString, List.replicate_one, List.singleton_append]
    constructor
    · rw [Ascii, List.forall_mem_cons, lt_0x80_iff, hbyte]
      exact ⟨h.1, hascii⟩
    · rw [codes_cons, hbyte, hcodes, List.map_cons]

/-! ### Reading what was escaped -/

theorem ascii_jsonEscape (h : c < 128) : Ascii (jsonEscape c) := by
  have hchar : UInt8.ofNat c < 0x80 := by
    rw [lt_0x80_iff, toNat_ofNat_ascii h]
    exact h
  rw [Ascii, jsonEscape]
  split_ifs
  all_goals simp [makeStringCode, hchar]

theorem jsonParseStr_quote (rest : List ℕ) (result : List UInt8) :
    jsonParseStr (34 :: rest) result = (result, rest) := by
  rw [jsonParseStr.eq_def]
  rfl

theorem jsonParseStr_char {c : ℕ} (hquote : c ≠ 34) (hslash : c ≠ 92) (rest : List ℕ)
    (result : List UInt8) :
    jsonParseStr (c :: rest) result = jsonParseStr rest (result ++ makeStringCode c) := by
  rw [jsonParseStr.eq_def]
  simp [hquote, hslash]

theorem jsonParseStr_jsonEscape (h : c < 128) (rest : List ℕ) (result : List UInt8) :
    jsonParseStr (codes (jsonEscape c) ++ rest) result =
      jsonParseStr rest (result ++ [UInt8.ofNat c]) := by
  rw [jsonEscape]
  split_ifs with h₁ h₂ h₃ h₄ h₅
  · rw [h₁]; rfl
  · rw [h₂]; rfl
  · rw [h₃]; rfl
  · rw [h₄]; rfl
  · rw [h₅]; rfl
  · rw [makeStringCode, codes_cons, codes_nil, toNat_ofNat_ascii h, List.singleton_append,
      jsonParseStr_char h₁ h₂, makeStringCode]

/-- The literal that the printer writes for an ASCII string. -/
def jsonLiteral (str : List UInt8) : List UInt8 := (codes str).flatMap jsonEscape ++ [34]

theorem jsonLiteral_cons (b : UInt8) (str : List UInt8) :
    jsonLiteral (b :: str) = jsonEscape b.toNat ++ jsonLiteral str := by
  simp [jsonLiteral]

theorem jsonEscapeStr_ascii (h : Ascii str) : jsonEscapeStr str = .ok (34 :: jsonLiteral str) := by
  rw [jsonEscapeStr, stringCodes_ascii h, ok_bind]
  rfl

theorem ascii_jsonLiteral (h : Ascii str) : Ascii (jsonLiteral str) := by
  intro b hb
  rcases List.mem_append.mp hb with hb | hb
  · obtain ⟨c, hc, hb⟩ := List.mem_flatMap.mp hb
    obtain ⟨b', hb', rfl⟩ := List.mem_map.mp hc
    exact ascii_jsonEscape ((lt_0x80_iff b').mp (h b' hb')) b hb
  · rw [List.mem_singleton.mp hb]
    decide

theorem jsonParseStr_escape (h : Ascii str) (rest : List ℕ) (result : List UInt8) :
    jsonParseStr (codes (jsonLiteral str) ++ rest) result = (result ++ str, rest) := by
  induction str generalizing result with
  | nil =>
    rw [List.append_nil]
    exact jsonParseStr_quote rest result
  | cons b str ih =>
    rw [Ascii, List.forall_mem_cons] at h
    rw [jsonLiteral_cons, codes_append, List.append_assoc,
      jsonParseStr_jsonEscape ((lt_0x80_iff b).mp h.1), ih h.2]
    simp

/-! ### Reading a number -/

/-- A character at which the parser may go on with a number. -/
def numberChar (c : ℕ) : Bool := jsonDigit c || c = 46 || c = 101 || c = 69 || c = 43 || c = 45

/-- A text at which a number ends. -/
def NumberEnds (cs : List ℕ) : Prop := ∀ c, cs.head? = some c → numberChar c = false

theorem jsonDigit_toNat {c : Char} (h : c.isDigit = true) : jsonDigit c.toNat = true := by
  have := toNat_of_isDigit h
  simp [jsonDigit, this]

theorem jsonNumLoop_digits {ds : List Char} (h : ∀ c ∈ ds, c.isDigit = true) (rest : List ℕ)
    (result : List Char) (hasDot hasExp : Bool) :
    jsonNumLoop (ds.map Char.toNat ++ rest) result hasDot hasExp =
      jsonNumLoop rest (result ++ ds) hasDot hasExp := by
  induction ds generalizing result with
  | nil => simp
  | cons c ds ih =>
    rw [List.forall_mem_cons] at h
    rw [List.map_cons, List.cons_append, jsonNumLoop, if_pos (jsonDigit_toNat h.1), ih h.2,
      Char.ofNat_toNat]
    simp

theorem jsonNumLoop_ends (h : NumberEnds rest) (result : List Char) (hasDot hasExp : Bool) :
    jsonNumLoop rest result hasDot hasExp = (result, rest) := by
  cases rest with
  | nil => rfl
  | cons c rest =>
    have hc : numberChar c = false := h c rfl
    simp only [numberChar, Bool.or_eq_false_iff, decide_eq_false_iff_not] at hc
    simp [jsonNumLoop, hc]

theorem number_first (h : (jsonDigit c || c = 45) = true) :
    jsonWhitespace c = false ∧ c ≠ 93 ∧ c ≠ 34 := by
  simp only [jsonDigit, Bool.or_eq_true, Bool.and_eq_true, decide_eq_true_eq] at h
  refine ⟨?_, by omega, by omega⟩
  simp only [jsonWhitespace, Bool.or_eq_false_iff, decide_eq_false_iff_not]
  omega

theorem jsonParseNum_signedText {ops : DoubleOps D} {negative : Bool} {c : Char}
    {cs collected : List Char} {t : Tagged D} (hc : c.isDigit = true)
    (hloop : jsonNumLoop ((c :: cs).map Char.toNat ++ rest) [] false false = (collected, rest))
    (ht : eshkolStringToNumberTagged ops (signedText negative collected) = .ok t) :
    jsonParseNum ops ((signedText negative (c :: cs)).map Char.toNat ++ rest) =
      .ok (ofTagged t, rest) := by
  have hne : c.toNat ≠ 45 := by
    have := toNat_of_isDigit hc
    omega
  rw [List.map_cons, List.cons_append] at hloop
  rw [jsonParseNum]
  cases negative with
  | true =>
    change eshkolStringToNumberTagged ops ('-' :: collected) = .ok t at ht
    simp [signedText, hloop, ht]
  | false =>
    change eshkolStringToNumberTagged ops collected = .ok t at ht
    simp [signedText, hloop, hne, ht]

theorem jsonParseNum_intText (ops : DoubleOps D) {x : ℤ} {t : Tagged D}
    (ht : eshkolStringToNumberTagged ops (intText x) = .ok t) (h : NumberEnds rest) :
    jsonParseNum ops ((intText x).map Char.toNat ++ rest) = .ok (ofTagged t, rest) := by
  have hdigits : ∀ c ∈ natText x.natAbs, c.isDigit = true := fun _ => isDigit_of_mem_natText
  have hloop : jsonNumLoop ((natText x.natAbs).map Char.toNat ++ rest) [] false false =
      (natText x.natAbs, rest) := by
    rw [jsonNumLoop_digits hdigits, jsonNumLoop_ends h, List.nil_append]
  obtain ⟨c, cs, hcs⟩ := List.exists_cons_of_ne_nil (natText_ne_nil x.natAbs)
  rw [intText_eq_signedText] at ht ⊢
  rw [hcs] at hdigits hloop ht ⊢
  exact jsonParseNum_signedText (hdigits c (by simp)) hloop ht

end Eshkol.Core.Json
