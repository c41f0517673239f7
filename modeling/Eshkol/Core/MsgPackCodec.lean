import Eshkol.Codec.Parser
import Eshkol.Core.MsgPack

/-!
# The MessagePack Decoder Inverts the Encoder

What the decoder answers at a position where the encoding of a value stands, for every value that
the encoder accepts. `Holds bv pos bytes` says that `bytes` stand in the bytevector at `pos`; the
decoder is then followed marker by marker.
-/

namespace Eshkol.Core.MsgPack

open Machine

variable {S : Type} {bv : List UInt8} {pos : ℕ}

/-! ### Bytes at a position -/

/-- The bytes that stand in a bytevector at a position. -/
def Holds (bv : List UInt8) (pos : ℕ) (bytes : List ℕ) : Prop :=
  ∃ front back, bv.map UInt8.toNat = front ++ bytes ++ back ∧ front.length = pos

namespace Holds

variable {b : ℕ} {bytes rest : List ℕ}

theorem left (h : Holds bv pos (bytes ++ rest)) : Holds bv pos bytes := by
  obtain ⟨front, back, heq, hfront⟩ := h
  exact ⟨front, rest ++ back, by simp [heq], hfront⟩

theorem right (h : Holds bv pos (bytes ++ rest)) : Holds bv (pos + bytes.length) rest := by
  obtain ⟨front, back, heq, rfl⟩ := h
  exact ⟨front ++ bytes, back, by simp [heq], by simp⟩

theorem tail (h : Holds bv pos (b :: bytes)) : Holds bv (pos + 1) bytes := @right bv pos [b] bytes h

theorem length_le (h : Holds bv pos bytes) : pos + bytes.length ≤ bv.length := by
  obtain ⟨front, back, heq, rfl⟩ := h
  have hlength := congrArg List.length heq
  simp only [List.length_map, List.length_append] at hlength
  omega

theorem getElem? (h : Holds bv pos (b :: bytes)) :
    ∃ c : UInt8, bv[pos]? = some c ∧ c.toNat = b := by
  obtain ⟨front, back, heq, rfl⟩ := h
  have hget : (bv.map UInt8.toNat)[front.length]? = some b := by simp [heq]
  rw [List.getElem?_map] at hget
  simpa using hget

theorem requireAvailable (h : Holds bv pos bytes) :
    msgpackRequireAvailable bv pos bytes.length = .ok () :=
  if_pos h.length_le

theorem u8Ref (h : Holds bv pos (b :: bytes)) : bytevectorU8Ref bv pos = .ok b := by
  obtain ⟨c, hget, rfl⟩ := h.getElem?
  rw [bytevectorU8Ref, hget]

theorem copy {payload : List UInt8} (h : Holds bv pos (payload.map UInt8.toNat)) :
    bytevectorCopy bv pos (pos + payload.length) = payload := by
  obtain ⟨front, back, heq, rfl⟩ := h
  refine List.map_injective_iff.mpr (fun a b => UInt8.toNat_inj.mp) ?_
  rw [bytevectorCopy, List.map_take, List.map_drop, heq]
  simp

theorem readU8 (h : Holds bv pos (b :: bytes)) : msgpackReadU8 bv pos = .ok b := by
  have hone : Holds bv pos [b] := @left bv pos [b] bytes h
  rw [msgpackReadU8, show (1 : ℕ) = [b].length from rfl, hone.requireAvailable, ok_bind, h.u8Ref]

theorem readU16 {n : ℕ} (h : Holds bv pos (msgpackU16Bytes n ++ bytes)) :
    msgpackReadU16 bv pos = .ok n := by
  rw [msgpackReadU16, show (2 : ℕ) = (msgpackU16Bytes n).length from rfl,
    h.left.requireAvailable, ok_bind, h.u8Ref, ok_bind, h.tail.u8Ref, ok_bind]
  exact congrArg Except.ok (by omega)

theorem readU32 {n : ℕ} (h : Holds bv pos (msgpackU32Bytes n ++ bytes)) :
    msgpackReadU32 bv pos = .ok n := by
  rw [msgpackReadU32, show (4 : ℕ) = (msgpackU32Bytes n).length from rfl,
    h.left.requireAvailable, ok_bind, h.u8Ref, ok_bind, h.tail.u8Ref, ok_bind,
    h.tail.tail.u8Ref, ok_bind, h.tail.tail.tail.u8Ref, ok_bind]
  exact congrArg Except.ok (by omega)

theorem header8 {tag len : ℕ} (h : Holds bv pos ([tag, len] ++ bytes)) :
    msgpackReadU8 bv (pos + 1) = .ok len ∧ Holds bv (pos + 1 + 1) bytes :=
  ⟨h.tail.readU8, h.tail.tail⟩

theorem header16 {tag len : ℕ} (h : Holds bv pos (tag :: msgpackU16Bytes len ++ bytes)) :
    msgpackReadU16 bv (pos + 1) = .ok len ∧ Holds bv (pos + 1 + 2) bytes :=
  ⟨h.tail.readU16, h.tail.right⟩

end Holds

/-! ### Markers -/

/-- The decoder of the members behind the marker at a position. -/
def decodeBehind (utf8ToString : List UInt8 → S) (bv : List UInt8) (pos p : ℕ) :
    Exec String (Value S × ℕ) :=
  if _ : pos < p then msgpackDecodeAt utf8ToString bv p else .error .diverges

theorem msgpackDecodeAt_eq {tag : ℕ} {bytes : List ℕ} (utf8ToString : List UInt8 → S)
    (h : Holds bv pos (tag :: bytes)) :
    msgpackDecodeAt utf8ToString bv pos =
      msgpackDecodeTag (decodeBehind utf8ToString bv pos) utf8ToString bv (pos + 1) tag := by
  obtain ⟨c, hget, rfl⟩ := h.getElem?
  obtain ⟨hpos, rfl⟩ := List.getElem?_eq_some_iff.mp hget
  rw [msgpackDecodeAt, dif_pos hpos]
  rfl

section Markers

variable (decodeAt : ℕ → Exec String (Value S × ℕ)) (utf8ToString : List UInt8 → S)
  (bv : List UInt8) (next : ℕ)

theorem decodeTag_positive {tag : ℕ} (h : tag ≤ 127) :
    msgpackDecodeTag decodeAt utf8ToString bv next tag = .ok (.int tag, next) := by
  rw [msgpackDecodeTag, if_pos h]

theorem decodeTag_fixmap {len : ℕ} (h : len ≤ 15) :
    msgpackDecodeTag decodeAt utf8ToString bv next (128 + len) =
      msgpackDecodeMapEntries decodeAt next len [] := by
  rw [msgpackDecodeTag, if_neg (by omega), if_pos (by omega), Nat.add_sub_cancel_left]

theorem decodeTag_fixarray {len : ℕ} (h : len ≤ 15) :
    msgpackDecodeTag decodeAt utf8ToString bv next (144 + len) =
      msgpackDecodeArrayElements decodeAt next len [] := by
  rw [msgpackDecodeTag, if_neg (by omega), if_neg (by omega), if_pos (by omega),
    Nat.add_sub_cancel_left]

theorem decodeTag_fixstr {len : ℕ} (h : len ≤ 31) :
    msgpackDecodeTag decodeAt utf8ToString bv next (160 + len) =
      msgpackDecodeString utf8ToString bv next len := by
  rw [msgpackDecodeTag, if_neg (by omega), if_neg (by omega), if_neg (by omega),
    if_pos (by omega), Nat.add_sub_cancel_left]

theorem decodeTag_bin8 :
    msgpackDecodeTag decodeAt utf8ToString bv next 196 =
      (msgpackReadU8 bv next >>= fun len => msgpackDecodeBin bv (next + 1) len) := rfl

theorem decodeTag_bin16 :
    msgpackDecodeTag decodeAt utf8ToString bv next 197 =
      (msgpackReadU16 bv next >>= fun len => msgpackDecodeBin bv (next + 2) len) := rfl

theorem decodeTag_str8 :
    msgpackDecodeTag decodeAt utf8ToString bv next 217 =
      (msgpackReadU8 bv next >>= fun len =>
        msgpackDecodeString utf8ToString bv (next + 1) len) := rfl

theorem decodeTag_str16 :
    msgpackDecodeTag decodeAt utf8ToString bv next 218 =
      (msgpackReadU16 bv next >>= fun len =>
        msgpackDecodeString utf8ToString bv (next + 2) len) := rfl

theorem decodeTag_array16 :
    msgpackDecodeTag decodeAt utf8ToString bv next 220 =
      (msgpackReadU16 bv next >>= fun count =>
        msgpackDecodeArrayElements decodeAt (next + 2) count []) := rfl

theorem decodeTag_map16 :
    msgpackDecodeTag decodeAt utf8ToString bv next 222 =
      (msgpackReadU16 bv next >>= fun count =>
        msgpackDecodeMapEntries decodeAt (next + 2) count []) := rfl

theorem decodeTag_negative {tag : ℕ} (h : 224 ≤ tag) :
    msgpackDecodeTag decodeAt utf8ToString bv next tag = .ok (.int (tag - 256), next) := by
  rw [msgpackDecodeTag]
  iterate 19 rw [if_neg (by omega)]
  rw [if_pos h]

end Markers

/-- An encoded integer is decoded. -/
theorem decodeAt_int {n : ℤ} {bytes : List ℕ} (utf8ToString : List UInt8 → S)
    (h : msgpackEncodeInt n = .ok bytes) (hbytes : Holds bv pos bytes) :
    msgpackDecodeAt utf8ToString bv pos = .ok (.int n, pos + bytes.length) := by
  rw [msgpackEncodeInt] at h
  rcases ite_eq_iff.mp h with ⟨h₁, h⟩ | ⟨-, h⟩
  · obtain rfl := Except.ok.inj h
    rw [msgpackDecodeAt_eq _ hbytes, decodeTag_positive _ _ _ _ (by omega)]
    simp [h₁.1]
  rcases ite_eq_iff.mp h with ⟨h₂, h⟩ | ⟨-, h⟩
  · obtain rfl := Except.ok.inj h
    rw [msgpackDecodeAt_eq _ hbytes]
    simp [msgpackDecodeTag, hbytes.tail.readU8, h₂.1]
  rcases ite_eq_iff.mp h with ⟨h₃, h⟩ | ⟨-, h⟩
  · obtain rfl := Except.ok.inj h
    have hread := @Holds.readU16 bv (pos + 1) [] n.toNat (by simpa using hbytes.tail)
    rw [msgpackDecodeAt_eq _ hbytes]
    simp [msgpackDecodeTag, hread, h₃.1, msgpackU16Bytes]
  rcases ite_eq_iff.mp h with ⟨h₄, h⟩ | ⟨-, h⟩
  · obtain rfl := Except.ok.inj h
    have hread := @Holds.readU32 bv (pos + 1) [] n.toNat (by simpa using hbytes.tail)
    rw [msgpackDecodeAt_eq _ hbytes]
    simp [msgpackDecodeTag, hread, h₄.1, msgpackU32Bytes]
  rcases ite_eq_iff.mp h with ⟨hn, h⟩ | ⟨-, h⟩
  · obtain rfl := Except.ok.inj h
    have hvalue : ((256 + n).toNat : ℤ) - 256 = n := by omega
    rw [msgpackDecodeAt_eq _ hbytes, decodeTag_negative _ _ _ _ (by omega), hvalue]
    rfl
  rcases ite_eq_iff.mp h with ⟨hn, h⟩ | ⟨-, h⟩
  · obtain rfl := Except.ok.inj h
    generalize hm : (256 + n).toNat = m at hbytes ⊢
    have hvalue : (if 128 ≤ m then (m : ℤ) - 256 else m) = n := by split_ifs <;> omega
    rw [msgpackDecodeAt_eq _ hbytes]
    simp [msgpackDecodeTag, hbytes.tail.readU8, hvalue]
  rcases ite_eq_iff.mp h with ⟨hn, h⟩ | ⟨-, h⟩
  · obtain rfl := Except.ok.inj h
    generalize hm : (65536 + n).toNat = m at hbytes ⊢
    have hvalue : (if 32768 ≤ m then (m : ℤ) - 65536 else m) = n := by split_ifs <;> omega
    have hread := @Holds.readU16 bv (pos + 1) [] m (by simpa using hbytes.tail)
    rw [msgpackDecodeAt_eq _ hbytes]
    simp [msgpackDecodeTag, hread, hvalue, msgpackU16Bytes]
  rcases ite_eq_iff.mp h with ⟨hn, h⟩ | ⟨-, h⟩
  · obtain rfl := Except.ok.inj h
    generalize hm : (4294967296 + n).toNat = m at hbytes ⊢
    have hvalue : (if 2147483648 ≤ m then (m : ℤ) - 4294967296 else m) = n := by split_ifs <;> omega
    have hread := @Holds.readU32 bv (pos + 1) [] m (by simpa using hbytes.tail)
    rw [msgpackDecodeAt_eq _ hbytes]
    simp [msgpackDecodeTag, hread, hvalue, msgpackU32Bytes]
  exact absurd h (by simp [raise])

/-! ### Payloads -/

theorem decodeBin_spec {payload : List UInt8} (h : Holds bv pos (payload.map UInt8.toNat)) :
    (msgpackDecodeBin bv pos payload.length : Exec String (Value S × ℕ)) =
      .ok (.bytes payload, pos + payload.length) := by
  have havailable := h.requireAvailable
  rw [List.length_map] at havailable
  rw [msgpackDecodeBin, havailable, ok_bind, h.copy]

theorem decodeString_spec {payload : List UInt8} (utf8ToString : List UInt8 → S)
    (h : Holds bv pos (payload.map UInt8.toNat)) :
    msgpackDecodeString utf8ToString bv pos payload.length =
      .ok (.str (utf8ToString payload), pos + payload.length) := by
  have havailable := h.requireAvailable
  rw [List.length_map] at havailable
  rw [msgpackDecodeString, havailable, ok_bind, h.copy]

theorem ok_at {v : Value S} {p q : ℕ} (h : p = q) :
    (.ok (v, p) : Exec String (Value S × ℕ)) = .ok (v, q) := by
  rw [h]

theorem decodeAt_bin {payload : List UInt8} {bytes : List ℕ} (utf8ToString : List UInt8 → S)
    (h : msgpackEncodeBinBytes (payload.map UInt8.toNat) = .ok bytes)
    (hbytes : Holds bv pos bytes) :
    msgpackDecodeAt utf8ToString bv pos = .ok (.bytes payload, pos + bytes.length) := by
  rw [msgpackEncodeBinBytes, List.length_map] at h
  split_ifs at h
  · obtain rfl := Except.ok.inj h
    obtain ⟨hread, hpayload⟩ := hbytes.header8
    rw [msgpackDecodeAt_eq _ hbytes, decodeTag_bin8, hread, ok_bind, decodeBin_spec hpayload]
    exact ok_at (by simp; omega)
  · obtain rfl := Except.ok.inj h
    obtain ⟨hread, hpayload⟩ := hbytes.header16
    rw [msgpackDecodeAt_eq _ hbytes, decodeTag_bin16, hread, ok_bind, decodeBin_spec hpayload]
    exact ok_at (by simp [msgpackU16Bytes]; omega)
  · exact absurd h (by simp [raise])

theorem decodeAt_utf8 {payload : List UInt8} {bytes : List ℕ} (utf8ToString : List UInt8 → S)
    (h : msgpackEncodeUtf8 (payload.map UInt8.toNat) = .ok bytes) (hbytes : Holds bv pos bytes) :
    msgpackDecodeAt utf8ToString bv pos =
      .ok (.str (utf8ToString payload), pos + bytes.length) := by
  rw [msgpackEncodeUtf8, List.length_map] at h
  split_ifs at h with hfix
  · obtain rfl := Except.ok.inj h
    have hpayload := hbytes.tail
    rw [msgpackDecodeAt_eq _ hbytes, decodeTag_fixstr _ _ _ _ hfix, decodeString_spec _ hpayload]
    exact ok_at (by simp; omega)
  · obtain rfl := Except.ok.inj h
    obtain ⟨hread, hpayload⟩ := hbytes.header8
    rw [msgpackDecodeAt_eq _ hbytes, decodeTag_str8, hread, ok_bind, decodeString_spec _ hpayload]
    exact ok_at (by simp; omega)
  · obtain rfl := Except.ok.inj h
    obtain ⟨hread, hpayload⟩ := hbytes.header16
    rw [msgpackDecodeAt_eq _ hbytes, decodeTag_str16, hread, ok_bind, decodeString_spec _ hpayload]
    exact ok_at (by simp [msgpackU16Bytes]; omega)
  · exact absurd h (by simp [raise])

/-! ### Lists and maps -/

/-- A decoder reads the encoding of a value from `lo` on. -/
def Reads (stringToUtf8 : S → List UInt8) (bv : List UInt8) (lo : ℕ)
    (decodeAt : ℕ → Exec String (Value S × ℕ)) (v : Value S) : Prop :=
  ∀ ⦃pos bytes⦄, lo ≤ pos → msgpackEncodeValue stringToUtf8 v = .ok bytes → Holds bv pos bytes →
    decodeAt pos = .ok (v, pos + bytes.length)

section Members

variable {stringToUtf8 : S → List UInt8} {decodeAt : ℕ → Exec String (Value S × ℕ)} {lo : ℕ}

theorem decodeArrayElements_spec {values : List (Value S)}
    (hdecode : ∀ v ∈ values, Reads stringToUtf8 bv lo decodeAt v) {pos : ℕ} {bytes : List ℕ}
    (hpos : lo ≤ pos) (h : msgpackEncodeArrayElements stringToUtf8 values = .ok bytes)
    (hbytes : Holds bv pos bytes) (acc : List (Value S)) :
    msgpackDecodeArrayElements decodeAt pos values.length acc =
      .ok (.list (acc.reverse ++ values), pos + bytes.length) := by
  induction values generalizing pos bytes acc with
  | nil =>
    obtain rfl := Except.ok.inj h
    rw [List.append_nil]
    rfl
  | cons value values ih =>
    obtain ⟨first, hfirst, h⟩ := bind_eq_ok.mp h
    obtain ⟨rest, hrest, h⟩ := bind_eq_ok.mp h
    obtain rfl := Except.ok.inj h
    have hvalue := hdecode value (by simp) hpos hfirst hbytes.left
    rw [List.length_cons, msgpackDecodeArrayElements, hvalue, ok_bind]
    simp only
    rw [ih (fun v hv => hdecode v (by simp [hv])) (by omega) hrest hbytes.right]
    simp [Nat.add_assoc]

theorem encodeMapEntries_cons_eq_ok {entry : Value S} {entries : List (Value S)} {bytes : List ℕ}
    (h : msgpackEncodeMapEntries stringToUtf8 (entry :: entries) = .ok bytes) :
    ∃ key value k v rest, entry = .list [key, value] ∧
      msgpackEncodeValue stringToUtf8 key = .ok k ∧
      msgpackEncodeValue stringToUtf8 value = .ok v ∧
      msgpackEncodeMapEntries stringToUtf8 entries = .ok rest ∧ bytes = k ++ v ++ rest := by
  rw [msgpackEncodeMapEntries.eq_def] at h
  split at h
  · next heq => exact absurd heq (by simp)
  · next key value entries' heq =>
      obtain ⟨rfl, rfl⟩ := List.cons.inj heq
      obtain ⟨k, hk, h⟩ := bind_eq_ok.mp h
      obtain ⟨v, hv, h⟩ := bind_eq_ok.mp h
      obtain ⟨rest, hrest, h⟩ := bind_eq_ok.mp h
      exact ⟨key, value, k, v, rest, rfl, hk, hv, hrest, (Except.ok.inj h).symm⟩
  · exact absurd h (by simp [raise])

theorem decodeMapEntries_spec {entries : List (Value S)}
    (hdecode : ∀ k v, .list [k, v] ∈ entries →
      Reads stringToUtf8 bv lo decodeAt k ∧ Reads stringToUtf8 bv lo decodeAt v)
    {pos : ℕ} {bytes : List ℕ} (hpos : lo ≤ pos)
    (h : msgpackEncodeMapEntries stringToUtf8 entries = .ok bytes) (hbytes : Holds bv pos bytes)
    (acc : List (Value S)) :
    msgpackDecodeMapEntries decodeAt pos entries.length acc =
      .ok (.map (acc.reverse ++ entries), pos + bytes.length) := by
  induction entries generalizing pos bytes acc with
  | nil =>
    obtain rfl := Except.ok.inj h
    rw [List.append_nil]
    rfl
  | cons entry entries ih =>
    obtain ⟨key, value, k, v, rest, rfl, hk, hv, hrest, rfl⟩ := encodeMapEntries_cons_eq_ok h
    obtain ⟨hkey, hvalue⟩ := hdecode key value (by simp)
    rw [List.append_assoc] at hbytes
    have hfirst := hkey hpos hk hbytes.left
    have hsecond := hvalue (by omega) hv hbytes.right.left
    rw [List.length_cons, msgpackDecodeMapEntries, hfirst, ok_bind]
    simp only
    rw [hsecond, ok_bind]
    simp only
    rw [ih (fun k v hmem => hdecode k v (by simp [hmem])) (by omega) hrest hbytes.right.right]
    simp [Nat.add_assoc]

end Members

/-! ### Values -/

theorem encodeCounted_eq_ok {short long len : ℕ} {message : String}
    {members : Exec String (List ℕ)} {bytes : List ℕ}
    (h : msgpackEncodeCounted short long message len members = .ok bytes) :
    ∃ body, members = .ok body ∧
      (len ≤ 15 ∧ bytes = [short + len] ++ body ∨ bytes = long :: msgpackU16Bytes len ++ body) := by
  rw [msgpackEncodeCounted] at h
  split_ifs at h with hshort
  · obtain ⟨body, hbody, h⟩ := bind_eq_ok.mp h
    exact ⟨body, hbody, .inl ⟨hshort, (Except.ok.inj h).symm⟩⟩
  · obtain ⟨body, hbody, h⟩ := bind_eq_ok.mp h
    exact ⟨body, hbody, .inr (Except.ok.inj h).symm⟩
  · exact absurd h (by simp [raise])

theorem decodeBehind_of_lt {utf8ToString : List UInt8 → S} {p : ℕ} (h : pos + 1 ≤ p) :
    decodeBehind utf8ToString bv pos p = msgpackDecodeAt utf8ToString bv p :=
  dif_pos h

section Values

variable {stringToUtf8 : S → List UInt8} {utf8ToString : List UInt8 → S}

theorem decodeAt_list {values : List (Value S)} {bytes : List ℕ}
    (ih : ∀ v ∈ values, Reads stringToUtf8 bv 0 (msgpackDecodeAt utf8ToString bv) v)
    (h : msgpackEncodeValue stringToUtf8 (.list values) = .ok bytes) (hbytes : Holds bv pos bytes) :
    msgpackDecodeAt utf8ToString bv pos = .ok (.list values, pos + bytes.length) := by
  have hbehind : ∀ v ∈ values, Reads stringToUtf8 bv (pos + 1)
      (decodeBehind utf8ToString bv pos) v := by
    intro v hv p bytes hp hencode hholds
    rw [decodeBehind_of_lt hp]
    exact ih v hv (Nat.zero_le p) hencode hholds
  rw [msgpackEncodeValue] at h
  obtain ⟨body, hbody, ⟨hlen, rfl⟩ | rfl⟩ := encodeCounted_eq_ok h
  · rw [msgpackDecodeAt_eq _ hbytes, decodeTag_fixarray _ _ _ _ hlen,
      decodeArrayElements_spec hbehind le_rfl hbody hbytes.tail]
    exact ok_at (by simp; omega)
  · obtain ⟨hread, hmembers⟩ := hbytes.header16
    rw [msgpackDecodeAt_eq _ hbytes, decodeTag_array16, hread, ok_bind,
      decodeArrayElements_spec hbehind (by omega) hbody hmembers]
    exact ok_at (by simp [msgpackU16Bytes]; omega)

theorem decodeAt_map {entries : List (Value S)} {bytes : List ℕ}
    (ih : ∀ k v, .list [k, v] ∈ entries →
      Reads stringToUtf8 bv 0 (msgpackDecodeAt utf8ToString bv) k ∧
        Reads stringToUtf8 bv 0 (msgpackDecodeAt utf8ToString bv) v)
    (h : msgpackEncodeValue stringToUtf8 (.map entries) = .ok bytes) (hbytes : Holds bv pos bytes) :
    msgpackDecodeAt utf8ToString bv pos = .ok (.map entries, pos + bytes.length) := by
  have hbehind : ∀ k v, .list [k, v] ∈ entries →
      Reads stringToUtf8 bv (pos + 1) (decodeBehind utf8ToString bv pos) k ∧
        Reads stringToUtf8 bv (pos + 1) (decodeBehind utf8ToString bv pos) v := by
    intro k v hmem
    refine ⟨fun p bytes hp hencode hholds => ?_, fun p bytes hp hencode hholds => ?_⟩
    · rw [decodeBehind_of_lt hp]
      exact (ih k v hmem).1 (Nat.zero_le p) hencode hholds
    · rw [decodeBehind_of_lt hp]
      exact (ih k v hmem).2 (Nat.zero_le p) hencode hholds
  rw [msgpackEncodeValue] at h
  obtain ⟨body, hbody, ⟨hlen, rfl⟩ | rfl⟩ := encodeCounted_eq_ok h
  · rw [msgpackDecodeAt_eq _ hbytes, decodeTag_fixmap _ _ _ _ hlen,
      decodeMapEntries_spec hbehind le_rfl hbody hbytes.tail]
    exact ok_at (by simp; omega)
  · obtain ⟨hread, hmembers⟩ := hbytes.header16
    rw [msgpackDecodeAt_eq _ hbytes, decodeTag_map16, hread, ok_bind,
      decodeMapEntries_spec hbehind (by omega) hbody hmembers]
    exact ok_at (by simp [msgpackU16Bytes]; omega)

theorem msgpackDecodeAt_spec (hinverse : ∀ s, utf8ToString (stringToUtf8 s) = s)
    (bv : List UInt8) (v : Value S) :
    Reads stringToUtf8 bv 0 (msgpackDecodeAt utf8ToString bv) v := by
  intro pos bytes _ h hbytes
  match v with
  | .null =>
    obtain rfl := Except.ok.inj h
    exact msgpackDecodeAt_eq _ hbytes
  | .bool true =>
    obtain rfl := Except.ok.inj h
    exact msgpackDecodeAt_eq _ hbytes
  | .bool false =>
    obtain rfl := Except.ok.inj h
    exact msgpackDecodeAt_eq _ hbytes
  | .int n => exact decodeAt_int _ h hbytes
  | .str s =>
    rw [decodeAt_utf8 utf8ToString h hbytes, hinverse]
  | .bytes payload => exact decodeAt_bin _ h hbytes
  | .list values =>
    exact decodeAt_list (fun w hw => msgpackDecodeAt_spec hinverse bv w) h hbytes
  | .map entries =>
    refine decodeAt_map (fun key value hmem => ?_) h hbytes
    have hsize := List.sizeOf_lt_of_mem hmem
    exact ⟨msgpackDecodeAt_spec hinverse bv key, msgpackDecodeAt_spec hinverse bv value⟩
termination_by sizeOf v
decreasing_by
  · have hsize := List.sizeOf_lt_of_mem hw
    simp
    omega
  · simp at hsize ⊢
    omega
  · simp at hsize ⊢
    omega

/-! ### The codec -/

theorem map_toNat_of_bytesToBytevector {bytes : List ℕ} {bv : List UInt8}
    (h : msgpackBytesToBytevector bytes = .ok bv) : bv.map UInt8.toNat = bytes := by
  induction bytes generalizing bv with
  | nil => rw [← Except.ok.inj h, List.map_nil]
  | cons b bytes ih =>
    rw [msgpackBytesToBytevector] at h
    split_ifs at h with hb
    · obtain ⟨rest, hrest, h⟩ := bind_eq_ok.mp h
      rw [← Except.ok.inj h, List.map_cons, ih hrest, Codec.Utf8.toNat_ofNat (by omega)]
    · exact absurd h (by simp [raise])

theorem decodeAt_encode (hinverse : ∀ s, utf8ToString (stringToUtf8 s) = s) {v : Value S}
    {bv : List UInt8} (h : msgpackEncode stringToUtf8 v = .ok bv) (rest : List UInt8) :
    msgpackDecodeAt utf8ToString (bv ++ rest) 0 = .ok (v, bv.length) := by
  obtain ⟨bytes, hbytes, hbv⟩ := bind_eq_ok.mp h
  have hmap := map_toNat_of_bytesToBytevector hbv
  have hholds : Holds (bv ++ rest) 0 bytes := ⟨[], rest.map UInt8.toNat, by simp [hmap], rfl⟩
  rw [msgpackDecodeAt_spec hinverse (bv ++ rest) v (Nat.zero_le 0) hbytes hholds, ← hmap]
  exact ok_at (by simp)

theorem prefixFree_encode (hinverse : ∀ s, utf8ToString (stringToUtf8 s) = s) :
    Codec.PrefixFree fun bv v => msgpackEncode stringToUtf8 v = .ok bv := by
  intro u w r s a b hu hw heq
  have hfirst := decodeAt_encode hinverse hu r
  have hsecond := decodeAt_encode hinverse hw s
  rw [heq, hsecond] at hfirst
  obtain ⟨hvalue, hlength⟩ := Prod.mk.inj (Except.ok.inj hfirst)
  exact ⟨(List.append_inj heq hlength.symm).1, hvalue.symm⟩

end Values

/-- **The codec.** Where the conversions of strings are inverse, the decoder of a prefix answers
every value the encoder accepts, with the length of its encoding, whatever follows; the decoder
inverts the encoder; encodings are prefix free; and bytes behind an encoding are refused. -/
theorem msgpack_codec (stringToUtf8 : S → List UInt8) (utf8ToString : List UInt8 → S)
    (hinverse : ∀ s, utf8ToString (stringToUtf8 s) = s) :
    (∀ v bv rest, msgpackEncode stringToUtf8 v = .ok bv →
      msgpackDecodePrefix utf8ToString (bv ++ rest) = .ok (v, bv.length)) ∧
    (∀ v bv, msgpackEncode stringToUtf8 v = .ok bv → msgpackDecode utf8ToString bv = .ok v) ∧
    (Codec.PrefixFree fun bv v => msgpackEncode stringToUtf8 v = .ok bv) ∧
    (∀ v bv rest, msgpackEncode stringToUtf8 v = .ok bv → rest ≠ [] →
      msgpackDecode utf8ToString (bv ++ rest) =
        raise "msgpack-decode: trailing bytes after one object") := by
  refine ⟨fun v bv rest h => decodeAt_encode hinverse h rest, fun v bv h => ?_,
    prefixFree_encode hinverse, fun v bv rest h hrest => ?_⟩
  · have hdecode := decodeAt_encode hinverse h []
    rw [List.append_nil] at hdecode
    rw [msgpackDecode, hdecode, ok_bind]
    exact if_pos rfl
  · have hlength : bv.length ≠ (bv ++ rest).length := by
      have hpos := List.length_pos_iff.mpr hrest
      rw [List.length_append]
      omega
    rw [msgpackDecode, decodeAt_encode hinverse h rest, ok_bind]
    exact if_neg hlength

/-- The codec at a list with a map in it, over strings that are their own bytes. -/
theorem msgpack_codec_sample :
    msgpackEncode id (.list [.int (-5), .map [.list [.str [104, 105], .null]]]) =
        .ok [146, 251, 129, 162, 104, 105, 192] ∧
      msgpackDecodePrefix id ([146, 251, 129, 162, 104, 105, 192] ++ [7]) =
        .ok (.list [.int (-5), .map [.list [.str [104, 105], .null]]], 7) :=
  ⟨rfl, (msgpack_codec id id fun _ => rfl).1 _ _ [7] rfl⟩

end Eshkol.Core.MsgPack
