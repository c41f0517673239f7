import Eshkol.Codec.Utf8
import Eshkol.Machine.Exec

/-!
# String Indexing

The native string helpers of `lib/core/runtime_string.cpp`. A string is a heap object: a
header that counts the payload with its terminator, the UTF-8 bytes, and a zero byte.
`string-length` counts the bytes that start a character. `string-ref` walks byte by byte,
counting such bytes, and decodes where it stops.

The walk stops one byte after the first byte of the character before the one asked for. Where
that character has one byte this is the right place; otherwise it is a continuation byte, and
the decoder answers the replacement character.
-/

open Codec.Utf8 Machine

namespace Eshkol

/-- A string on the heap. The allocator refuses payloads a `uint32_t` cannot count. -/
structure StringObject where
  /-- The bytes before the terminator. -/
  bytes : List UInt8
  fits : bytes.length + 1 < 2 ^ 32

namespace StringObject

/-- The `size` field of the header, which counts the terminator. -/
def headerSize (s : StringObject) : UInt32 := UInt32.ofNat (s.bytes.length + 1)

/-- The byte at an offset: a byte of the payload or the terminator. -/
def read (s : StringObject) (i : ℕ) : Exec Empty UInt8 :=
  if h : i < s.bytes.length then .ok s.bytes[i]
  else if i = s.bytes.length then .ok 0
  else .error .undefined

/-- `strlen` of the payload. -/
def cLength (s : StringObject) : ℕ := (s.bytes.takeWhile (· ≠ 0)).length

end StringObject

def eshkolStringByteLength (s : StringObject) : ℕ :=
  if 0 < s.headerSize then s.headerSize.toNat - 1 else s.cLength

/-- The test `(s[i] & 0xC0) != 0x80`. -/
def startsChar (b : UInt8) : Bool := b.toNat &&& 0xC0 != 0x80

/-- The loop of `eshkol_utf8_strlen`, over the bytes still to come. -/
def utf8StrlenLoop : List UInt8 → ℕ → ℕ
  | [], count => count
  | b :: rest, count => utf8StrlenLoop rest (if startsChar b then count + 1 else count)

/-- `eshkol_utf8_strlen`. A null pointer is `none`. -/
def eshkolUtf8Strlen : Option StringObject → ℕ
  | none => 0
  | some s => utf8StrlenLoop (s.bytes.take (eshkolStringByteLength s)) 0

/-- `decode_utf8_codepoint` with the cursor at offset `i`: the code point, and the cursor
after it. -/
def decodeUtf8Codepoint (s : StringObject) (i : ℕ) : Exec Empty (ℤ × ℕ) := do
  let p ← s.read i
  if p < 0x80 then
    .ok (p.toNat, i + 1)
  else if p.toNat &&& 0xE0 = 0xC0 then
    let p₁ ← s.read (i + 1)
    .ok (((p.toNat &&& 0x1F) <<< 6 ||| (p₁.toNat &&& 0x3F) : ℕ), i + 2)
  else if p.toNat &&& 0xF0 = 0xE0 then
    let p₁ ← s.read (i + 1)
    let p₂ ← s.read (i + 2)
    .ok (((p.toNat &&& 0x0F) <<< 12 ||| (p₁.toNat &&& 0x3F) <<< 6 ||| (p₂.toNat &&& 0x3F) : ℕ),
      i + 3)
  else if p.toNat &&& 0xF8 = 0xF0 then
    let p₁ ← s.read (i + 1)
    let p₂ ← s.read (i + 2)
    let p₃ ← s.read (i + 3)
    .ok (((p.toNat &&& 0x07) <<< 18 ||| (p₁.toNat &&& 0x3F) <<< 12 |||
      (p₂.toNat &&& 0x3F) <<< 6 ||| (p₃.toNat &&& 0x3F) : ℕ), i + 4)
  else
    .ok (0xFFFD, i + 1)

/-- The loop of `eshkol_utf8_ref`, over the bytes still to come: the offset where it stops. -/
def utf8RefLoop (k : ℤ) : List UInt8 → ℕ → ℕ → ℕ
  | [], _, i => i
  | b :: rest, cpIdx, i =>
    if (cpIdx : ℤ) < k then utf8RefLoop k rest (if startsChar b then cpIdx + 1 else cpIdx) (i + 1)
    else i

def eshkolUtf8Ref (s : Option StringObject) (k : Int64) : Exec Empty ℤ :=
  match s with
  | none => .ok (-1)
  | some s =>
    if k < 0 then .ok (-1)
    else
      let byteLen := eshkolStringByteLength s
      let i := utf8RefLoop k.toInt (s.bytes.take byteLen) 0 0
      if byteLen ≤ i then .ok (-1)
      else do
        let (cp, _) ← decodeUtf8Codepoint s i
        .ok cp

/-! ### Bytes -/

theorem eshkolStringByteLength_eq (s : StringObject) :
    eshkolStringByteLength s = s.bytes.length := by
  have hsize : s.headerSize.toNat = s.bytes.length + 1 := by
    rw [StringObject.headerSize, UInt32.toNat_ofNat']
    exact Nat.mod_eq_of_lt s.fits
  have hpos : 0 < s.headerSize := by
    rw [UInt32.lt_iff_toNat_lt, hsize]
    exact Nat.succ_pos _
  rw [eshkolStringByteLength, if_pos hpos, hsize, Nat.add_sub_cancel]

theorem take_byteLength (s : StringObject) : s.bytes.take (eshkolStringByteLength s) = s.bytes := by
  rw [eshkolStringByteLength_eq, List.take_length]

variable {b : UInt8} {s : StringObject} {i cpIdx : ℕ} {cs : List Char} {k : ℤ}

theorem startsChar_eq_false_iff : startsChar b = false ↔ Continues b := by
  have h := @and_high_eq_iff b.toNat 6 2 (by norm_num) b.toNat_lt
  rw [startsChar, bne_eq_false_iff_eq]
  exact h

theorem startsChar_iff : startsChar b = true ↔ ¬Continues b := by
  rw [← startsChar_eq_false_iff, Bool.not_eq_false]

theorem read_eq_ok (h : s.bytes[i]? = some b) : s.read i = .ok b := by
  obtain ⟨hlt, rfl⟩ := List.getElem?_eq_some_iff.mp h
  rw [StringObject.read, dif_pos hlt]

/-! ### Length -/

theorem utf8StrlenLoop_eq (bs : List UInt8) (count : ℕ) :
    utf8StrlenLoop bs count = count + bs.countP startsChar := by
  induction bs generalizing count with
  | nil => rfl
  | cons b bs ih =>
    rw [utf8StrlenLoop, ih, List.countP_cons]
    split
    next => omega
    next => omega

theorem countP_utf8EncodeChar (c : Char) : (String.utf8EncodeChar c).countP startsChar = 1 := by
  obtain ⟨a, rest, heq, ha, hrest, -⟩ := (encodesChar c).cases_first
  rw [heq, List.countP_cons, if_pos (startsChar_iff.mpr ha)]
  rw [List.countP_eq_zero.mpr fun b hb => by simpa using startsChar_eq_false_iff.mpr (hrest b hb)]

theorem countP_encode (cs : List Char) : (encode cs).countP startsChar = cs.length := by
  induction cs with
  | nil => rfl
  | cons c cs ih =>
    rw [encode_cons, List.countP_append, countP_utf8EncodeChar, ih, List.length_cons]
    omega

theorem eshkolUtf8Strlen_encode (h : s.bytes = encode cs) :
    eshkolUtf8Strlen (some s) = cs.length := by
  rw [eshkolUtf8Strlen, take_byteLength, utf8StrlenLoop_eq, h, countP_encode, Nat.zero_add]

/-! ### The walk -/

theorem utf8RefLoop_stop (h : k ≤ cpIdx) (bs : List UInt8) (i : ℕ) :
    utf8RefLoop k bs cpIdx i = i := by
  cases bs with
  | nil => rfl
  | cons b bs => rw [utf8RefLoop, if_neg (by omega)]

theorem utf8RefLoop_first (h : cpIdx < k) (hb : ¬Continues b) (bs : List UInt8) (i : ℕ) :
    utf8RefLoop k (b :: bs) cpIdx i = utf8RefLoop k bs (cpIdx + 1) (i + 1) := by
  rw [utf8RefLoop, if_pos h, if_pos (startsChar_iff.mpr hb)]

theorem utf8RefLoop_continues (h : cpIdx < k) {bs : List UInt8} (hbs : ∀ b ∈ bs, Continues b)
    (rest : List UInt8) (i : ℕ) :
    utf8RefLoop k (bs ++ rest) cpIdx i = utf8RefLoop k rest cpIdx (i + bs.length) := by
  induction bs generalizing i with
  | nil => rfl
  | cons b bs ih =>
    rw [List.forall_mem_cons] at hbs
    rw [List.cons_append, utf8RefLoop, if_pos h, if_neg (by
      rw [startsChar_eq_false_iff.mpr hbs.1]
      exact Bool.false_ne_true), ih hbs.2, List.length_cons]
    congr 1
    omega

/-- **Where the walk stops**, with `n + 1` characters still to count: one byte after the start
of the `n`-th of them, or at the end. -/
theorem utf8RefLoop_encode (cs : List Char) {n : ℕ} (hn : cpIdx + n + 1 = k) (i : ℕ) :
    utf8RefLoop k (encode cs) cpIdx i =
      if n < cs.length then i + (encode (cs.take n)).length + 1
      else i + (encode cs).length := by
  induction cs generalizing cpIdx n i with
  | nil => simp [utf8RefLoop]
  | cons c cs ih =>
    obtain ⟨a, rest, heq, ha, hrest, -⟩ := (encodesChar c).cases_first
    rw [encode_cons, heq, List.cons_append, utf8RefLoop_first (by omega) ha]
    cases n with
    | zero =>
      rw [utf8RefLoop_stop (by push_cast; omega), if_pos (by simp)]
      rfl
    | succ n =>
      rw [utf8RefLoop_continues (by push_cast; omega) hrest,
        ih (n := n) (by push_cast at hn ⊢; omega), List.length_cons, List.take_succ_cons, encode_cons,
        heq]
      simp only [Nat.add_lt_add_iff_right, List.length_append, List.length_cons]
      split
      next => omega
      next => omega

/-! ### Decoding -/

theorem mask_two (p : UInt8) : p.toNat &&& 0xE0 = 0xC0 ↔ p.toNat / 32 = 6 :=
  @and_high_eq_iff p.toNat 5 6 (by norm_num) p.toNat_lt

theorem mask_three (p : UInt8) : p.toNat &&& 0xF0 = 0xE0 ↔ p.toNat / 16 = 14 :=
  @and_high_eq_iff p.toNat 4 14 (by norm_num) p.toNat_lt

theorem mask_four (p : UInt8) : p.toNat &&& 0xF8 = 0xF0 ↔ p.toNat / 8 = 30 :=
  @and_high_eq_iff p.toNat 3 30 (by norm_num) p.toNat_lt

theorem lt_0x80_iff (p : UInt8) : p < 0x80 ↔ p.toNat < 128 := UInt8.lt_iff_toNat_lt

/-- An encoded character is decoded. -/
theorem decodeUtf8Codepoint_encodesChar {pre bs post : List UInt8} {v : ℕ}
    (h : s.bytes = pre ++ (bs ++ post)) (hv : EncodesChar v bs) :
    ∃ j, decodeUtf8Codepoint s pre.length = .ok ((v : ℤ), j) := by
  -- the bytes the decoder reads are those of the character
  have hread : ∀ i b, bs[i]? = some b → s.read (pre.length + i) = .ok b := by
    intro i b hi
    have hlt := (List.getElem?_eq_some_iff.mp hi).1
    apply read_eq_ok
    rw [h, List.getElem?_append_right (by omega), List.getElem?_append_left (by omega), ← hi]
    congr 1
    omega
  cases hv with
  | @one a ha hv =>
    refine ⟨pre.length + 1, ?_⟩
    rw [decodeUtf8Codepoint, show s.read pre.length = .ok a from hread 0 a rfl, ok_bind, if_pos ((lt_0x80_iff a).mpr ha), hv]
  | @two a b ha hb hv =>
    refine ⟨pre.length + 2, ?_⟩
    rw [decodeUtf8Codepoint, show s.read pre.length = .ok a from hread 0 a rfl, ok_bind, if_neg (by rw [lt_0x80_iff]; omega),
      if_pos ((mask_two a).mpr ha), hread 1 b rfl, ok_bind, assemble_two, hv]
  | @three a b c ha hb hc hv =>
    refine ⟨pre.length + 3, ?_⟩
    rw [decodeUtf8Codepoint, show s.read pre.length = .ok a from hread 0 a rfl, ok_bind, if_neg (by rw [lt_0x80_iff]; omega),
      if_neg (by rw [mask_two]; omega), if_pos ((mask_three a).mpr ha), hread 1 b rfl, ok_bind,
      hread 2 c rfl, ok_bind, assemble_three, hv]
  | @four a b c d ha hb hc hd hv =>
    refine ⟨pre.length + 4, ?_⟩
    rw [decodeUtf8Codepoint, show s.read pre.length = .ok a from hread 0 a rfl, ok_bind, if_neg (by rw [lt_0x80_iff]; omega),
      if_neg (by rw [mask_two]; omega), if_neg (by rw [mask_three]; omega),
      if_pos ((mask_four a).mpr ha), hread 1 b rfl, ok_bind, hread 2 c rfl, ok_bind,
      hread 3 d rfl, ok_bind, assemble_four, hv]

theorem decodeUtf8Codepoint_continues (h : s.bytes[i]? = some b) (hb : Continues b) :
    decodeUtf8Codepoint s i = .ok (0xFFFD, i + 1) := by
  rw [Continues] at hb
  rw [decodeUtf8Codepoint, read_eq_ok h, ok_bind, if_neg (by rw [lt_0x80_iff]; omega),
    if_neg (by rw [mask_two]; omega), if_neg (by rw [mask_three]; omega),
    if_neg (by rw [mask_four]; omega)]

/-! ### Indexing -/

/-- What `string-ref` is to answer: the code point of a character of the text, or -1. -/
def stringRef (cs : List Char) (k : ℤ) : ℤ :=
  if 0 ≤ k then
    match cs[k.toNat]? with
    | some c => c.val.toNat
    | none => -1
  else -1

theorem stringRef_zero_cons (c : Char) (cs : List Char) : stringRef (c :: cs) 0 = c.val.toNat := rfl

theorem stringRef_zero_eq_iff : 0xFFFD = stringRef cs 0 ↔ cs[0]? = some '\uFFFD' := by
  cases cs with
  | nil => simp [stringRef]
  | cons c cs =>
    rw [stringRef_zero_cons, List.getElem?_cons_zero, Option.some.injEq, Char.ext_iff,
      ← UInt32.toNat_inj]
    change _ ↔ _ = 0xFFFD
    omega

theorem eshkolUtf8Ref_eq {k : Int64} (hk : 0 ≤ k.toInt)
    (hloop : utf8RefLoop k.toInt s.bytes 0 0 = i) :
    eshkolUtf8Ref (some s) k =
      if s.bytes.length ≤ i then .ok (-1) else Prod.fst <$> decodeUtf8Codepoint s i := by
  have hneg : ¬k < 0 := by
    rw [Int64.lt_iff_toInt_lt]
    exact not_lt.mpr hk
  simp only [eshkolUtf8Ref, if_neg hneg, eshkolStringByteLength_eq, List.take_length, hloop]
  cases decodeUtf8Codepoint s i <;> rfl

theorem eshkolUtf8Ref_of_boundary {pre post : List Char} {k : Int64}
    (h : s.bytes = encode (pre ++ post)) (hk : 0 ≤ k.toInt)
    (hloop : utf8RefLoop k.toInt s.bytes 0 0 = (encode pre).length) :
    eshkolUtf8Ref (some s) k = .ok (stringRef post 0) := by
  rw [encode_append] at h
  rw [eshkolUtf8Ref_eq hk hloop, h, List.length_append]
  cases post with
  | nil => rw [if_pos (by simp), stringRef]; rfl
  | cons c post =>
    obtain ⟨a, rest, heq, -⟩ := (encodesChar c).cases_first
    rw [encode_cons] at h ⊢
    obtain ⟨j, hj⟩ := decodeUtf8Codepoint_encodesChar h (encodesChar c)
    rw [if_neg (by simp [heq]), hj, stringRef_zero_cons]
    rfl

theorem eshkolUtf8Ref_succ {pre post : List Char} {c : Char} {k : Int64}
    (h : s.bytes = encode (pre ++ c :: post)) (hk : k.toInt = pre.length + 1) :
    eshkolUtf8Ref (some s) k = .ok (if c.val.toNat < 128 then stringRef post 0 else 0xFFFD) := by
  obtain ⟨a, rest, heq, -, hrest, hascii⟩ := (encodesChar c).cases_first
  have hloop : utf8RefLoop k.toInt s.bytes 0 0 = (encode pre).length + 1 := by
    rw [h, utf8RefLoop_encode (n := pre.length) _ (by omega), if_pos (by simp), List.take_left,
      Nat.zero_add]
  split
  next hlt =>
    -- one byte, so the walk stops between two characters
    obtain rfl := hascii.mpr hlt
    refine @eshkolUtf8Ref_of_boundary s (pre ++ [c]) post k ?_ (by omega) ?_
    · rw [h, List.append_assoc]
      rfl
    · rw [hloop, encode_append, encode_cons, heq]
      simp
  next hge =>
    obtain ⟨b, rest, rfl⟩ := List.exists_cons_of_ne_nil (mt hascii.mp hge)
    have hb : s.bytes[(encode pre).length + 1]? = some b := by
      rw [h, encode_append, encode_cons, heq]
      simp
    rw [eshkolUtf8Ref_eq (by omega) hloop,
      if_neg (not_le.mpr (List.getElem?_eq_some_iff.mp hb).1),
      decodeUtf8Codepoint_continues hb (hrest b (by simp))]
    rfl

theorem eshkolUtf8Ref_of_length_lt {s : StringObject} {cs : List Char} {k : Int64}
    (h : s.bytes = encode cs) (hk : cs.length < k.toInt) :
    eshkolUtf8Ref (some s) k = .ok (-1) := by
  refine @eshkolUtf8Ref_of_boundary s cs [] k (by rw [h, List.append_nil])
    (by omega) ?_
  rw [h, utf8RefLoop_encode (n := k.toInt.toNat - 1) _ (by omega), if_neg (by omega),
    Nat.zero_add]

/-- **Exactly when `string-ref` is right**: the character before the one asked for is ASCII, or
the one asked for is the replacement character. -/
theorem eshkolUtf8Ref_eq_iff {s : StringObject} {cs : List Char} (h : s.bytes = encode cs)
    (k : Int64) :
    (eshkolUtf8Strlen (some s) = cs.length ∧
        eshkolUtf8Ref (some s) k = .ok (stringRef cs k.toInt)) ↔
      ∀ c, 0 < k.toInt → cs[k.toInt.toNat - 1]? = some c → 128 ≤ c.val.toNat →
        cs[k.toInt.toNat]? = some '\uFFFD' := by
  rw [and_iff_right (eshkolUtf8Strlen_encode h)]
  rcases lt_trichotomy k.toInt 0 with hneg | hzero | hpos
  · rw [eshkolUtf8Ref, if_pos (by rw [Int64.lt_iff_toInt_lt]; exact hneg), stringRef,
      if_neg (by omega)]
    exact iff_of_true rfl fun c hk => absurd hk (by omega)
  · have hloop : utf8RefLoop k.toInt s.bytes 0 0 = (encode []).length :=
      utf8RefLoop_stop (by omega) _ _
    rw [@eshkolUtf8Ref_of_boundary s [] cs k h (by omega) hloop, hzero]
    exact iff_of_true rfl fun c hk => absurd hk (by omega)
  by_cases hlen : cs.length < k.toInt
  · rw [eshkolUtf8Ref_of_length_lt h hlen, stringRef, if_pos hpos.le,
      List.getElem?_eq_none (by omega)]
    refine iff_of_true rfl fun c _ hc => ?_
    rw [List.getElem?_eq_none (by omega)] at hc
    cases hc
  · obtain ⟨n, hn⟩ : ∃ n : ℕ, k.toInt = n + 1 := ⟨k.toInt.toNat - 1, by omega⟩
    have hnlt : n < cs.length := by omega
    have hsplit : cs = cs.take n ++ cs[n] :: cs.drop (n + 1) := by
      rw [List.getElem_cons_drop, List.take_append_drop]
    have htoNat : k.toInt.toNat = n + 1 := by omega
    have hnext : stringRef cs k.toInt = stringRef (cs.drop (n + 1)) 0 := by
      rw [stringRef, stringRef, if_pos hpos.le, if_pos le_rfl, htoNat, List.getElem?_drop]
      rfl
    rw [eshkolUtf8Ref_succ (hsplit ▸ h) (by rw [List.length_take]; omega), hnext, htoNat,
      Nat.add_sub_cancel, List.getElem?_eq_getElem hnlt, Except.ok.injEq]
    split
    next hlt => exact iff_of_true rfl fun c _ hc hge => absurd hlt (by cases hc; omega)
    next hge =>
      rw [stringRef_zero_eq_iff, List.getElem?_drop]
      exact ⟨fun hd _ _ _ _ => hd, fun hd => hd _ hpos rfl (by omega)⟩

/-- Behind an ASCII character the text is read right. -/
theorem eshkolUtf8Ref_eq_iff_one :
    eshkolUtf8Strlen (some ⟨encode ['a', 'é'], by decide⟩) = 2 ∧
      eshkolUtf8Ref (some ⟨encode ['a', 'é'], by decide⟩) 1 = .ok 0xE9 :=
  (@eshkolUtf8Ref_eq_iff ⟨encode ['a', 'é'], by decide⟩ ['a', 'é'] rfl 1).mpr fun c _ hc hge => by
    obtain rfl : 'a' = c := Option.some.inj hc
    exact absurd hge (by decide)

/-- The text `éa`, whose first character has two bytes. -/
def accented : StringObject := ⟨encode ['é', 'a'], by decide⟩

/-- At index 1 the replacement character is answered for `a`. -/
theorem eshkolUtf8Ref_accented :
    accented.bytes = encode ['é', 'a'] ∧ eshkolUtf8Ref (some accented) 1 = .ok 0xFFFD ∧
      stringRef ['é', 'a'] (1 : Int64).toInt = 0x61 :=
  ⟨rfl, rfl, rfl⟩

end Eshkol
