import Mathlib.Data.Char
import Eshkol.Native.Substring
import Eshkol.Vm.Reader

/-!
# Strings of the VM

The string operations of the bytecode VM (`lib/backend/vm_string.c`). A string is its UTF-8
bytes with the number of its characters; both counts are `int`s. A cursor into a buffer is what
is left of the buffer.

Every operation acts on the characters, although the search compares bytes. What goes wrong is
the arithmetic on sizes: `string-append` and `string-set!` add `int`s without a check, so that
a result of `2 ^ 31 - 1` bytes or more overflows.
-/

open Codec.Utf8 Machine

namespace Eshkol.Vm

/-! ### Encoding and decoding -/

def vmUnicodeReplacement : ℤ := 0xFFFD

/-- The checks at the end of `vm_utf8_decode`, with so many continuation bytes. -/
def decodeFinish (expect cp : ℕ) : ℤ :=
  if expect = 1 ∧ cp < 0x80 then vmUnicodeReplacement
  else if expect = 2 ∧ cp < 0x800 then vmUnicodeReplacement
  else if expect = 3 ∧ cp < 0x10000 then vmUnicodeReplacement
  else if 0xD800 ≤ cp ∧ cp ≤ 0xDFFF then vmUnicodeReplacement
  else if 0x10FFFF < cp then vmUnicodeReplacement
  else cp

/-- The loop of `vm_utf8_decode`, with the continuation bytes still to be read. -/
def decodeLoop (expect : ℕ) : ℕ → ℕ → List UInt8 → ℤ × List UInt8
  | 0, cp, buf => (decodeFinish expect cp, buf)
  | _ + 1, _, [] => (vmUnicodeReplacement, [])
  | n + 1, cp, c :: buf =>
    if c.toNat &&& 0xC0 ≠ 0x80 then (vmUnicodeReplacement, c :: buf)
    else decodeLoop expect n (cp <<< 6 ||| (c.toNat &&& 0x3F)) buf

/-- `vm_utf8_decode`: the code point, and the cursor behind it. -/
def vmUtf8Decode : List UInt8 → ℤ × List UInt8
  | [] => (-1, [])
  | b₀ :: buf =>
    if b₀.toNat < 0x80 then (b₀.toNat, buf)
    else if b₀.toNat &&& 0xE0 = 0xC0 then
      if b₀.toNat &&& 0x1F < 2 then (vmUnicodeReplacement, buf)
      else decodeLoop 1 1 (b₀.toNat &&& 0x1F) buf
    else if b₀.toNat &&& 0xF0 = 0xE0 then decodeLoop 2 2 (b₀.toNat &&& 0x0F) buf
    else if b₀.toNat &&& 0xF8 = 0xF0 then decodeLoop 3 3 (b₀.toNat &&& 0x07) buf
    else (vmUnicodeReplacement, buf)

theorem length_decodeLoop (expect n cp : ℕ) (buf : List UInt8) :
    (decodeLoop expect n cp buf).2.length ≤ buf.length := by
  induction n generalizing cp buf with
  | zero => exact le_rfl
  | succ n ih =>
    cases buf with
    | nil => exact le_rfl
    | cons c buf =>
      rw [decodeLoop]
      split
      next => exact le_rfl
      next => exact (ih _ _).trans (Nat.le_succ _)

theorem length_vmUtf8Decode (b : UInt8) (buf : List UInt8) :
    (vmUtf8Decode (b :: buf)).2.length ≤ buf.length := by
  rw [vmUtf8Decode]
  split_ifs
  · exact le_rfl
  · exact le_rfl
  · exact length_decodeLoop _ _ _ _
  · exact length_decodeLoop _ _ _ _
  · exact length_decodeLoop _ _ _ _
  · exact le_rfl

def vmUtf8CharCount (buf : List UInt8) : ℕ :=
  match buf with
  | [] => 0
  | b :: buf => vmUtf8CharCount (vmUtf8Decode (b :: buf)).2 + 1
termination_by buf.length
decreasing_by exact Nat.lt_succ_of_le (length_vmUtf8Decode b buf)

/-- `vm_utf8_byte_offset`: the cursor at a character, or -1. -/
def vmUtf8ByteOffset : ℕ → List UInt8 → Option (List UInt8)
  | 0, buf => some buf
  | idx + 1, buf => if buf = [] then none else vmUtf8ByteOffset idx (vmUtf8Decode buf).2

def vmUtf8Encode (cp : ℤ) : List UInt8 :=
  if cp < 0 then [0xEF, 0xBF, 0xBD] else Reader.vmUtf8Encode cp.toNat

/-! ### Strings -/

/-- `VmString`. The size of its buffer, the terminator included, is an `int`. -/
structure VmString where
  data : List UInt8
  charLen : ℕ
  size_lt : data.length + 1 < 2 ^ 31

/-- A string of the given bytes. The number of bytes is a sum of `int`s, and one more is
allocated. -/
def vmStringAlloc (data : List UInt8) (charLen : ℕ) : Exec Unit VmString :=
  if h : data.length + 1 < 2 ^ 31 then .ok ⟨data, charLen, h⟩ else .error .undefined

def vmStringNew (data : List UInt8) : Exec Unit VmString :=
  vmStringAlloc data (vmUtf8CharCount data)

def vmStringFromList (cps : List ℤ) : Exec Unit VmString :=
  if cps = [] then vmStringNew [] else vmStringAlloc (cps.flatMap vmUtf8Encode) cps.length

/-- The loop of `vm_string_to_list`. -/
def toListLoop : ℕ → List UInt8 → List ℤ
  | 0, _ => []
  | n + 1, buf => (vmUtf8Decode buf).1 :: toListLoop n (vmUtf8Decode buf).2

def vmStringToList (s : VmString) : List ℤ := toListLoop s.charLen s.data

def vmStringRef (s : VmString) (idx : ℤ) : ℤ :=
  if idx < 0 ∨ s.charLen ≤ idx then -1
  else
    match vmUtf8ByteOffset idx.toNat s.data with
    | none => -1
    | some pos => if pos = [] then -1 else (vmUtf8Decode pos).1

/-- `vm_string_set`; a null pointer is the exception `()`. -/
def vmStringSet (s : VmString) (idx cp : ℤ) : Exec Unit VmString :=
  if idx < 0 ∨ s.charLen ≤ idx then .error (.raised ())
  else
    match vmUtf8ByteOffset idx.toNat s.data with
    | none => .error (.raised ())
    | some start => vmStringAlloc (s.data.take (s.data.length - start.length) ++
        (vmUtf8Encode cp ++ (vmUtf8Decode start).2)) s.charLen

def vmStringSubstring (s : VmString) (start stop : ℤ) : Exec Unit VmString :=
  let start := max start 0
  let stop := min stop s.charLen
  if stop ≤ start then vmStringNew []
  else
    let first := (vmUtf8ByteOffset start.toNat s.data).getD s.data
    let last := (vmUtf8ByteOffset stop.toNat s.data).getD []
    vmStringNew ((s.data.drop (s.data.length - first.length)).take (first.length - last.length))

def vmStringAppend (a b : VmString) : Exec Unit VmString :=
  vmStringAlloc (a.data ++ b.data) (a.charLen + b.charLen)

def vmStringReverse (s : VmString) : Exec Unit VmString :=
  if s.charLen ≤ 1 then vmStringNew s.data else vmStringFromList (vmStringToList s).reverse

def vmStringContains (s substr : VmString) : ℤ := indexOfBytes vmUtf8CharCount s.data substr.data

/-- The loop of `vm_string_lt`. -/
def stringLtLoop (a b : List UInt8) : Bool :=
  match a, b with
  | _, [] => false
  | [], _ :: _ => true
  | x :: a, y :: b =>
    let ca := vmUtf8Decode (x :: a)
    let cb := vmUtf8Decode (y :: b)
    if ca.1 < cb.1 then true
    else if cb.1 < ca.1 then false
    else stringLtLoop ca.2 cb.2
termination_by a.length
decreasing_by exact Nat.lt_succ_of_le (length_vmUtf8Decode x a)

def vmStringLt (a b : VmString) : Bool := stringLtLoop a.data b.data

/-! ### Decoding undoes encoding -/

theorem or_marker {m b k : ℕ} (hb : b < 2 ^ k) : m * 2 ^ k ||| b = b + m * 2 ^ k := by
  rw [← Nat.shiftLeft_eq, shift_or hb, Nat.shiftLeft_eq, Nat.add_comm]

theorem utf8Bytes_char (c : Char) : utf8Bytes c.val.toNat = String.utf8EncodeChar c := by
  have hmax := toNat_lt c
  have hmask (n : ℕ) : n &&& 0x3F = n % 64 := Nat.and_two_pow_sub_one_eq_mod n 6
  have hlow (n : ℕ) : 0x80 ||| n % 64 = n % 64 + 128 := @or_marker 2 (n % 64) 6 (by omega)
  rw [utf8Bytes, String.utf8EncodeChar]
  generalize c.val.toNat = v at hmax ⊢
  simp only [hmask, hlow, Nat.shiftRight_eq_div_pow]
  by_cases h₁ : v < 0x80
  · rw [if_pos h₁, if_pos (by omega)]
  rw [if_neg h₁, if_neg (show ¬ v ≤ 127 by omega)]
  by_cases h₂ : v < 0x800
  · have hhigh : 0xC0 ||| v / 2 ^ 6 = v / 64 % 32 + 192 :=
      (@or_marker 6 (v / 2 ^ 6) 5 (by omega)).trans (by omega)
    rw [if_pos h₂, if_pos (by omega), hhigh]
  rw [if_neg h₂, if_neg (show ¬ v ≤ 2047 by omega)]
  by_cases h₃ : v < 0x10000
  · have hhigh : 0xE0 ||| v / 2 ^ 12 = v / 4096 % 16 + 224 :=
      (@or_marker 14 (v / 2 ^ 12) 4 (by omega)).trans (by omega)
    rw [if_pos h₃, if_pos (by omega), hhigh]
  · have hhigh : 0xF0 ||| v / 2 ^ 18 = v / 262144 % 8 + 240 :=
      (@or_marker 30 (v / 2 ^ 18) 3 (by omega)).trans (by omega)
    rw [if_neg h₃, if_neg (by omega), hhigh]

/-- The code point of a character. -/
def codePoint (c : Char) : ℤ := c.val.toNat

theorem scalar (c : Char) : c.val.toNat < 0xD800 ∨ 0xDFFF < c.val.toNat ∧ c.val.toNat < 0x110000 :=
  c.valid

theorem vmUtf8Encode_char (c : Char) : vmUtf8Encode (codePoint c) = String.utf8EncodeChar c := by
  have hscalar := scalar c
  rw [vmUtf8Encode, codePoint, if_neg (by omega), Int.toNat_natCast, Reader.vmUtf8Encode,
    if_neg (by omega), utf8Bytes_char]

theorem flatMap_vmUtf8Encode (cs : List Char) :
    (cs.map codePoint).flatMap vmUtf8Encode = encode cs := by
  rw [List.flatMap_map, encode]
  simp only [vmUtf8Encode_char]

theorem decodeFinish_char (c : Char) (expect : ℕ)
    (hexpect : (String.utf8EncodeChar c).length = expect + 1) :
    decodeFinish expect c.val.toNat = codePoint c := by
  have hscalar := scalar c
  have hwidth : c.val.toNat < 0x80 ∧ expect = 0 ∨ 0x80 ≤ c.val.toNat ∧ expect = 1 ∨
      0x800 ≤ c.val.toNat ∧ expect = 2 ∨ 0x10000 ≤ c.val.toNat ∧ expect = 3 := by
    rw [String.utf8EncodeChar] at hexpect
    split_ifs at hexpect <;> simp at hexpect <;> omega
  rw [decodeFinish, if_neg (by omega), if_neg (by omega), if_neg (by omega), if_neg (by omega),
    if_neg (by omega), codePoint]

theorem decodeLoop_continues {expect n cp : ℕ} {b : UInt8} (hb : Continues b) (buf : List UInt8) :
    decodeLoop expect (n + 1) cp (b :: buf) = decodeLoop expect n (cp * 64 + b.toNat % 64) buf := by
  have hstart := startsChar_eq_false_iff.mpr hb
  rw [startsChar, bne_eq_false_iff_eq] at hstart
  rw [decodeLoop, if_neg (not_not.mpr hstart), Nat.and_two_pow_sub_one_eq_mod b.toNat 6,
    shift_or (Nat.mod_lt _ (Nat.two_pow_pos 6))]
  rfl

/-- An encoded character is decoded. -/
theorem vmUtf8Decode_char (c : Char) (post : List UInt8) :
    vmUtf8Decode (String.utf8EncodeChar c ++ post) = (codePoint c, post) := by
  have hc := encodesChar c
  have hfinish := decodeFinish_char c
  generalize String.utf8EncodeChar c = bs at hc hfinish
  cases hc with
  | @one a ha hv => rw [List.cons_append, vmUtf8Decode, if_pos ha, codePoint, hv, List.nil_append]
  | @two a b ha hb hv hmin =>
    have hlow : a.toNat &&& 0x1F = a.toNat % 32 := Nat.and_two_pow_sub_one_eq_mod a.toNat 5
    rw [List.cons_append, vmUtf8Decode, if_neg (by omega), if_pos ((mask_two a).mpr ha),
      if_neg (by omega), hlow, List.cons_append, decodeLoop_continues hb, decodeLoop, ← hv,
      hfinish 1 rfl, List.nil_append]
  | @three a b d ha hb hd hv =>
    have hlow : a.toNat &&& 0x0F = a.toNat % 16 := Nat.and_two_pow_sub_one_eq_mod a.toNat 4
    have hsum : (a.toNat % 16 * 64 + b.toNat % 64) * 64 + d.toNat % 64 = c.val.toNat := by omega
    rw [List.cons_append, vmUtf8Decode, if_neg (by omega), if_neg (by rw [mask_two]; omega),
      if_pos ((mask_three a).mpr ha), hlow, List.cons_append, decodeLoop_continues hb,
      List.cons_append, decodeLoop_continues hd, decodeLoop, hsum, hfinish 2 rfl, List.nil_append]
  | @four a b d e ha hb hd he hv =>
    have hlow : a.toNat &&& 0x07 = a.toNat % 8 := Nat.and_two_pow_sub_one_eq_mod a.toNat 3
    have hsum : ((a.toNat % 8 * 64 + b.toNat % 64) * 64 + d.toNat % 64) * 64 + e.toNat % 64 =
        c.val.toNat := by
      omega
    rw [List.cons_append, vmUtf8Decode, if_neg (by omega), if_neg (by rw [mask_two]; omega),
      if_neg (by rw [mask_three]; omega), if_pos ((mask_four a).mpr ha), hlow, List.cons_append,
      decodeLoop_continues hb, List.cons_append, decodeLoop_continues hd, List.cons_append,
      decodeLoop_continues he, decodeLoop, hsum, hfinish 3 rfl, List.nil_append]

theorem vmUtf8Decode_encode (c : Char) (cs : List Char) :
    vmUtf8Decode (encode (c :: cs)) = (codePoint c, encode cs) := by
  rw [encode_cons, vmUtf8Decode_char]

/-! ### Cursors -/

theorem vmUtf8CharCount_encode (cs : List Char) : vmUtf8CharCount (encode cs) = cs.length := by
  induction cs with
  | nil => rw [encode_nil, vmUtf8CharCount, List.length_nil]
  | cons c cs ih =>
    have hdecode := vmUtf8Decode_encode c cs
    obtain ⟨b, rest, hbytes⟩ := List.exists_cons_of_ne_nil
      (encode_eq_nil_iff.not.mpr (List.cons_ne_nil c cs))
    rw [hbytes] at hdecode
    rw [hbytes, vmUtf8CharCount, hdecode, ih, List.length_cons]

theorem vmUtf8ByteOffset_encode {cs : List Char} {k : ℕ} (hk : k ≤ cs.length) :
    vmUtf8ByteOffset k (encode cs) = some (encode (cs.drop k)) := by
  induction k generalizing cs with
  | zero => rfl
  | succ k ih =>
    cases cs with
    | nil => simp at hk
    | cons c cs =>
      rw [vmUtf8ByteOffset, if_neg (encode_eq_nil_iff.not.mpr (List.cons_ne_nil c cs)),
        vmUtf8Decode_encode, ih (Nat.le_of_succ_le_succ hk), List.drop_succ_cons]

theorem toListLoop_encode (cs : List Char) :
    toListLoop cs.length (encode cs) = cs.map codePoint := by
  induction cs with
  | nil => rfl
  | cons c cs ih => rw [List.length_cons, toListLoop, vmUtf8Decode_encode, ih, List.map_cons]

theorem codePoint_lt_iff {c d : Char} : codePoint c < codePoint d ↔ c < d := by
  rw [codePoint, codePoint, Char.lt_def, UInt32.lt_iff_toNat_lt]
  exact Int.ofNat_lt

theorem stringLtLoop_encode (cs ds : List Char) :
    stringLtLoop (encode cs) (encode ds) = true ↔ cs < ds := by
  induction cs generalizing ds with
  | nil =>
    cases ds with
    | nil => simp [stringLtLoop]
    | cons d ds =>
      obtain ⟨b, rest, hbytes⟩ := List.exists_cons_of_ne_nil
        (encode_eq_nil_iff.not.mpr (List.cons_ne_nil d ds))
      rw [encode_nil, hbytes, stringLtLoop]
      simp
  | cons c cs ih =>
    have hc := vmUtf8Decode_encode c cs
    obtain ⟨a, tail, hcs⟩ := List.exists_cons_of_ne_nil
      (encode_eq_nil_iff.not.mpr (List.cons_ne_nil c cs))
    rw [hcs] at hc
    cases ds with
    | nil =>
      rw [hcs, encode_nil, stringLtLoop]
      simp
    | cons d ds =>
      have hd := vmUtf8Decode_encode d ds
      obtain ⟨b, rest, hds⟩ := List.exists_cons_of_ne_nil
        (encode_eq_nil_iff.not.mpr (List.cons_ne_nil d ds))
      rw [hds] at hd
      rw [hcs, hds, stringLtLoop, hc, hd, List.cons_lt_cons_iff]
      simp only [codePoint_lt_iff]
      rcases lt_trichotomy c d with h | rfl | h
      · simp [h]
      · simpa using ih ds
      · simp [h, h.asymm, h.ne']

/-! ### Operations -/

/-- The string of a text. -/
structure VmString.Holds (s : VmString) (cs : List Char) : Prop where
  data : s.data = encode cs
  charLen : s.charLen = cs.length

/-- A text whose buffer has a size that is an `int`. -/
def Fits (cs : List Char) : Prop := (encode cs).length + 1 < 2 ^ 31

instance (cs : List Char) : Decidable (Fits cs) := inferInstanceAs (Decidable (_ < _))

theorem vmStringAlloc_holds_iff {cs : List Char} :
    (∃ u, vmStringAlloc (encode cs) cs.length = .ok u ∧ u.Holds cs) ↔ Fits cs := by
  rw [vmStringAlloc]
  split
  next hfits => exact iff_of_true ⟨_, rfl, rfl, rfl⟩ hfits
  next hfits =>
      refine iff_of_false ?_ hfits
      rintro ⟨u, hu, -⟩
      cases hu

theorem vmStringNew_holds {cs : List Char} (h : Fits cs) :
    ∃ u, vmStringNew (encode cs) = .ok u ∧ u.Holds cs := by
  rw [vmStringNew, vmUtf8CharCount_encode]
  exact vmStringAlloc_holds_iff.mpr h

theorem vmStringFromList_eq (cs : List Char) :
    vmStringFromList (cs.map codePoint) = vmStringAlloc (encode cs) cs.length := by
  rw [vmStringFromList]
  cases cs with
  | nil =>
    have hcount := vmUtf8CharCount_encode []
    rw [List.map_nil, if_pos rfl, vmStringNew]
    exact congrArg (vmStringAlloc []) hcount
  | cons c cs =>
    rw [List.map_cons, if_neg (List.cons_ne_nil _ _), ← List.map_cons, flatMap_vmUtf8Encode,
      List.length_map]

theorem holds_of_fromList {cs : List Char} {s : VmString}
    (h : vmStringFromList (cs.map codePoint) = .ok s) : s.Holds cs := by
  rw [vmStringFromList_eq, vmStringAlloc] at h
  split at h
  next =>
      obtain rfl := Except.ok.inj h
      exact ⟨rfl, rfl⟩
  next => cases h

section

variable {s t : VmString} {cs ds : List Char} (hs : s.Holds cs) (ht : t.Holds ds)
include hs

theorem VmString.Holds.fits : Fits cs := by
  have := s.size_lt
  rwa [hs.data] at this

theorem vmStringToList_holds : vmStringToList s = cs.map codePoint := by
  rw [vmStringToList, hs.data, hs.charLen, toListLoop_encode]

theorem vmStringRef_holds (k : ℤ) : vmStringRef s k = stringRef cs k := by
  rw [vmStringRef, stringRef, hs.charLen, hs.data]
  by_cases hneg : k < 0
  · rw [if_pos (.inl hneg), if_neg (by omega)]
  rw [if_pos (by omega : 0 ≤ k)]
  by_cases hlen : (cs.length : ℤ) ≤ k
  · rw [if_pos (.inr hlen), List.getElem?_eq_none (by omega)]
  · have hlt : k.toNat < cs.length := by omega
    have hdrop : cs.drop k.toNat = cs[k.toNat] :: cs.drop (k.toNat + 1) :=
      List.drop_eq_getElem_cons hlt
    rw [if_neg (by omega), vmUtf8ByteOffset_encode hlt.le, hdrop]
    simp only
    rw [if_neg (encode_eq_nil_iff.not.mpr (List.cons_ne_nil _ _)), vmUtf8Decode_encode,
      List.getElem?_eq_getElem hlt]
    rfl

theorem vmStringSet_holds_iff {k : ℕ} (hk : k < cs.length) (c : Char) :
    (∃ u, vmStringSet s k (codePoint c) = .ok u ∧ u.Holds (cs.set k c)) ↔ Fits (cs.set k c) := by
  have hdrop : cs.drop k = cs[k] :: cs.drop (k + 1) := List.drop_eq_getElem_cons hk
  have htext : (encode cs).take ((encode cs).length - (encode (cs.drop k)).length) ++
      (String.utf8EncodeChar c ++ encode (cs.drop (k + 1))) = encode (cs.set k c) := by
    have hlen : (encode cs).length - (encode (cs.drop k)).length = (encode (cs.take k)).length := by
      rw [← encode_take_append_drop cs k, List.length_append]
      omega
    rw [hlen]
    conv_lhs => rw [← encode_take_append_drop cs k, List.take_left]
    rw [← encode_cons, ← encode_append, List.set_eq_take_append_cons_drop, if_pos hk]
  rw [vmStringSet, hs.charLen, hs.data, if_neg (by omega), Int.toNat_natCast,
    vmUtf8ByteOffset_encode hk.le]
  simp only
  have hnext : (vmUtf8Decode (encode (cs.drop k))).2 = encode (cs.drop (k + 1)) := by
    rw [hdrop, vmUtf8Decode_encode]
  have hlen : cs.length = (cs.set k c).length := List.length_set.symm
  rw [hnext, vmUtf8Encode_char, htext, hlen]
  exact vmStringAlloc_holds_iff

theorem vmStringSubstring_holds {i j : ℕ} (hij : i ≤ j) (hj : j ≤ cs.length) :
    ∃ u, vmStringSubstring s i j = .ok u ∧ u.Holds (textBetween cs i j) := by
  have hfits : Fits (textBetween cs i j) := by
    have hcs := hs.fits
    have hle := congrArg List.length (encode_take_append_drop cs i)
    have hle' := congrArg List.length (encode_take_append_drop (cs.drop i) (j - i))
    rw [List.length_append] at hle hle'
    rw [Fits, textBetween] at *
    omega
  rw [vmStringSubstring, hs.charLen, hs.data]
  simp only [Int.natCast_nonneg, max_eq_left, Nat.cast_le, hj, min_eq_left]
  split
  next hle =>
      obtain rfl : i = j := le_antisymm hij hle
      have hempty : textBetween cs i i = [] := by rw [textBetween, Nat.sub_self, List.take_zero]
      rw [hempty]
      exact @vmStringNew_holds [] (by decide)
  next =>
      rw [Int.toNat_natCast, Int.toNat_natCast, vmUtf8ByteOffset_encode (hij.trans hj),
        vmUtf8ByteOffset_encode hj, Option.getD_some, Option.getD_some]
      have hdrop : cs.drop j = (cs.drop i).drop (j - i) := by
        rw [List.drop_drop, Nat.add_sub_cancel' hij]
      rw [hdrop, encode_textBetween]
      exact vmStringNew_holds hfits

theorem vmStringReverse_holds : ∃ u, vmStringReverse s = .ok u ∧ u.Holds cs.reverse := by
  have hfits := hs.fits
  rw [vmStringReverse, hs.charLen]
  split
  next hshort =>
      have hrev : cs.reverse = cs := by
        match cs, hshort with
        | [], _ => rfl
        | [c], _ => rfl
      rw [hs.data, hrev]
      exact vmStringNew_holds hfits
  next =>
      rw [vmStringToList_holds hs, ← List.map_reverse, vmStringFromList_eq]
      refine vmStringAlloc_holds_iff.mpr ?_
      rw [Fits] at *
      have hperm : (encode cs.reverse).length = (encode cs).length :=
        ((List.reverse_perm cs).flatMap_right _).length_eq
      omega

include ht

theorem vmStringAppend_holds_iff :
    (∃ u, vmStringAppend s t = .ok u ∧ u.Holds (cs ++ ds)) ↔ Fits (cs ++ ds) := by
  rw [vmStringAppend, hs.data, hs.charLen, ht.data, ht.charLen, ← encode_append,
    ← List.length_append]
  exact vmStringAlloc_holds_iff

theorem vmStringLt_holds : vmStringLt s t = true ↔ cs < ds := by
  rw [vmStringLt, hs.data, ht.data, stringLtLoop_encode]

theorem vmStringContains_holds : LeastIndex cs ds (vmStringContains s t) := by
  rw [vmStringContains, hs.data, ht.data]
  exact indexOfBytes_encode vmUtf8CharCount_encode cs ds

end

/-! ### Strings and texts -/

/-- The operations on two strings, with one character to store, are those on their texts. -/
structure Correspond (s t : VmString) (cs ds : List Char) (k : ℕ) (c : Char) : Prop where
  toList : vmStringToList s = cs.map codePoint
  ref : ∀ i, vmStringRef s i = stringRef cs i
  substring : ∀ i j : ℕ, i ≤ j → j ≤ cs.length →
    ∃ u, vmStringSubstring s i j = .ok u ∧ u.Holds (textBetween cs i j)
  append : ∃ u, vmStringAppend s t = .ok u ∧ u.Holds (cs ++ ds)
  set : k < cs.length → ∃ u, vmStringSet s k (codePoint c) = .ok u ∧ u.Holds (cs.set k c)
  reverse : ∃ u, vmStringReverse s = .ok u ∧ u.Holds cs.reverse
  lt : vmStringLt s t = true ↔ cs < ds
  contains : LeastIndex cs ds (vmStringContains s t)
  /-- The native functions, on objects of the same bytes. -/
  indexOf : ∀ a b : StringObject, a.bytes = s.data → b.bytes = t.data →
    LeastIndex cs ds (eshkolUtf8IndexOf (some a) (some b))
  nativeSubstring : ∀ a : StringObject, a.bytes = s.data → ∀ i j : ℕ, i ≤ j → j ≤ cs.length →
    ∃ u v, vmStringSubstring s i j = .ok u ∧ eshkolUtf8Substring (some a) i j = some v ∧
      v.bytes = u.data

/-- **String operations act on characters**, exactly if the strings that `string-append` and
`string-set!` make have a size that is an `int`. -/
theorem vmStrings_correspond_iff {cs ds : List Char} {s t : VmString}
    (hs : vmStringFromList (cs.map codePoint) = .ok s)
    (ht : vmStringFromList (ds.map codePoint) = .ok t) (k : ℕ) (c : Char) :
    Correspond s t cs ds k c ↔ Fits (cs ++ ds) ∧ (k < cs.length → Fits (cs.set k c)) := by
  have hcs := holds_of_fromList hs
  have hds := holds_of_fromList ht
  constructor
  · intro h
    exact ⟨(vmStringAppend_holds_iff hcs hds).mp h.append,
      fun hk => (vmStringSet_holds_iff hcs hk c).mp (h.set hk)⟩
  · rintro ⟨happend, hset⟩
    exact {
      toList := vmStringToList_holds hcs
      ref := vmStringRef_holds hcs
      substring := fun i j => vmStringSubstring_holds hcs
      append := (vmStringAppend_holds_iff hcs hds).mpr happend
      set := fun hk => (vmStringSet_holds_iff hcs hk c).mpr (hset hk)
      reverse := vmStringReverse_holds hcs
      lt := vmStringLt_holds hcs hds
      contains := vmStringContains_holds hcs hds
      indexOf := fun a b ha hb =>
        eshkolUtf8IndexOf_encode (ha.trans hcs.data) (hb.trans hds.data)
      nativeSubstring := by
        intro a ha i j hij hj
        obtain ⟨u, hu, hholds⟩ := vmStringSubstring_holds hcs hij hj
        obtain ⟨v, hv, hbytes⟩ := eshkolUtf8Substring_encode (ha.trans hcs.data) hij
        exact ⟨u, v, hu, hv, hbytes.trans hholds.data.symm⟩ }

/-- The texts `éa` and `a`, with the character `€` to store. -/
theorem vmStrings_correspond_iff_accented :
    ∃ s t, vmStringFromList (['é', 'a'].map codePoint) = .ok s ∧
      vmStringFromList (['a'].map codePoint) = .ok t ∧ Correspond s t ['é', 'a'] ['a'] 0 '€' := by
  have hs : Fits ['é', 'a'] := by decide
  have ht : Fits ['a'] := by decide
  obtain ⟨s, hs, -⟩ := vmStringAlloc_holds_iff.mpr hs
  obtain ⟨t, ht, -⟩ := vmStringAlloc_holds_iff.mpr ht
  rw [← vmStringFromList_eq] at hs ht
  exact ⟨s, t, hs, ht, (vmStrings_correspond_iff hs ht 0 '€').mpr
    ⟨by decide, fun _ => by decide⟩⟩

theorem fits_replicate_iff (n : ℕ) : Fits (List.replicate n 'a') ↔ n + 1 < 2 ^ 31 := by
  have hlen : (encode (List.replicate n 'a')).length = n := by
    rw [encode, List.length_flatMap, List.map_replicate, List.sum_replicate_nat]
    exact Nat.mul_one n
  rw [Fits, hlen]

/-- Two strings of `2 ^ 30` characters can be made, and their size overflows when they are
appended. -/
theorem vmStringAppend_overflows :
    ∃ s t, vmStringFromList ((List.replicate (2 ^ 30) 'a').map codePoint) = .ok s ∧
      vmStringFromList ((List.replicate (2 ^ 30) 'a').map codePoint) = .ok t ∧
      vmStringAppend s t = .error .undefined ∧
      ¬ Correspond s t (List.replicate (2 ^ 30) 'a') (List.replicate (2 ^ 30) 'a') 0 'a' := by
  obtain ⟨s, hs, hholds⟩ := vmStringAlloc_holds_iff.mpr ((fits_replicate_iff (2 ^ 30)).mpr
    (by norm_num))
  rw [← vmStringFromList_eq] at hs
  have hfits : ¬ Fits (List.replicate (2 ^ 30) 'a' ++ List.replicate (2 ^ 30) 'a') := by
    rw [List.replicate_append_replicate, fits_replicate_iff]
    norm_num
  have hoverflow : vmStringAppend s s = .error .undefined := by
    rw [vmStringAppend, vmStringAlloc, dif_neg]
    rwa [hholds.data, ← encode_append]
  refine ⟨s, s, hs, hs, hoverflow, fun h => ?_⟩
  obtain ⟨u, hu, -⟩ := h.append
  rw [hoverflow] at hu
  cases hu

end Eshkol.Vm
