import Eshkol.Native.Utf8

/-!
# Searching and Cutting Strings

`eshkol_utf8_index_of` and `eshkol_utf8_substring` (`lib/core/runtime_string.cpp`).

The search compares bytes. A character begins exactly where a byte is no continuation byte, so
that the bytes of a text are found only where its characters stand, and the first byte that
matches is the first character that does. `substring` walks over the characters by the width
that their first bytes tell.
-/

open Codec.Utf8 Machine

namespace Eshkol

/-! ### The search -/

/-- The loop that looks for `sub` in the bytes from offset `i` on, by `memcmp`. -/
def byteSearch (sub : List UInt8) : List UInt8 → ℕ → Option ℕ
  | [], i => if sub = [] then some i else none
  | b :: rest, i =>
    if (b :: rest).length < sub.length then none
    else if sub <+: b :: rest then some i
    else byteSearch sub rest (i + 1)

/-- A search for bytes, with the offset that is found converted to an index by `count`. -/
def indexOfBytes (count : List UInt8 → ℕ) (bs sub : List UInt8) : ℤ :=
  if sub.length = 0 then 0
  else if bs.length < sub.length then -1
  else
    match byteSearch sub bs 0 with
    | some i => count (bs.take i)
    | none => -1

def eshkolUtf8IndexOf (s sub : Option StringObject) : ℤ :=
  match s, sub with
  | some s, some sub =>
    indexOfBytes (List.countP startsChar) (s.bytes.take (eshkolStringByteLength s))
      (sub.bytes.take (eshkolStringByteLength sub))
  | _, _ => -1

/-- The least index at which a text stands in another one, or -1. -/
structure LeastIndex (cs ds : List Char) (r : ℤ) : Prop where
  found (k : ℕ) : r = k → k ≤ cs.length ∧ ds <+: cs.drop k ∧ ∀ j < k, ¬ ds <+: cs.drop j
  absent : (∀ k : ℕ, r ≠ k) → r = -1 ∧ ∀ j ≤ cs.length, ¬ ds <+: cs.drop j

variable {cs ds : List Char} {i : ℕ}

theorem LeastIndex.of_found {k : ℕ} (hk : k ≤ cs.length) (hds : ds <+: cs.drop k)
    (hleast : ∀ j < k, ¬ ds <+: cs.drop j) : LeastIndex cs ds k :=
  ⟨fun j hj => by
    obtain rfl : k = j := by exact_mod_cast hj
    exact ⟨hk, hds, hleast⟩, fun h => absurd rfl (h k)⟩

theorem LeastIndex.of_absent (h : ∀ j ≤ cs.length, ¬ ds <+: cs.drop j) : LeastIndex cs ds (-1) :=
  ⟨fun k hk => absurd hk (by omega), fun _ => ⟨rfl, h⟩⟩

theorem byteSearch_eq_some {sub bs : List UInt8} {r : ℕ} (h : byteSearch sub bs i = some r) :
    ∃ k, r = i + k ∧ k ≤ bs.length ∧ sub <+: bs.drop k ∧ ∀ j < k, ¬ sub <+: bs.drop j := by
  induction bs generalizing i with
  | nil =>
    rw [byteSearch] at h
    split at h
    next hnil =>
        obtain rfl := Option.some.inj h
        exact ⟨0, rfl, le_rfl, by simp [hnil], fun j hj => absurd hj (Nat.not_lt_zero j)⟩
    next => cases h
  | cons b rest ih =>
    rw [byteSearch] at h
    split at h
    next => cases h
    split at h
    next hmatch =>
        obtain rfl := Option.some.inj h
        exact ⟨0, rfl, Nat.zero_le _, hmatch, fun j hj => absurd hj (Nat.not_lt_zero j)⟩
    next hno =>
        obtain ⟨k, rfl, hk, hmatch, hleast⟩ := ih h
        refine ⟨k + 1, by omega, Nat.succ_le_succ hk, hmatch, ?_⟩
        intro j hj
        cases j with
        | zero => exact hno
        | succ j => exact hleast j (by omega)

theorem byteSearch_eq_none {sub bs : List UInt8} (h : byteSearch sub bs i = none) (k : ℕ) :
    ¬ sub <+: bs.drop k := by
  induction bs generalizing i k with
  | nil =>
    rw [byteSearch] at h
    split at h
    next => cases h
    next hne => rwa [List.drop_nil, List.prefix_nil]
  | cons b rest ih =>
    rw [byteSearch] at h
    split at h
    next hshort =>
        intro hmatch
        have := hmatch.length_le
        rw [List.length_drop] at this
        omega
    split at h
    next => cases h
    next hno =>
        cases k with
        | zero => exact hno
        | succ k => exact ih h k

theorem length_encode_pos (h : cs ≠ []) : 0 < (encode cs).length := by
  obtain ⟨c, cs, rfl⟩ := List.exists_cons_of_ne_nil h
  obtain ⟨a, rest, hc, -⟩ := (encodesChar c).cases_first
  rw [encode_cons, hc]
  exact Nat.succ_pos _

theorem encode_eq_nil_iff : encode cs = [] ↔ cs = [] := by
  constructor
  · intro h
    by_contra hne
    exact absurd (length_encode_pos hne) (by rw [h]; simp)
  · rintro rfl
    rfl

theorem encode_take_append_drop (cs : List Char) (k : ℕ) :
    encode (cs.take k) ++ encode (cs.drop k) = encode cs := by
  rw [← encode_append, List.take_append_drop]

theorem prefix_drop_encode (hds : ds ≠ []) {k : ℕ} (h : encode ds <+: (encode cs).drop k) :
    ∃ cs₁ cs₂, cs = cs₁ ++ cs₂ ∧ (encode cs).take k = encode cs₁ ∧ ds <+: cs₂ := by
  obtain ⟨d, ds, rfl⟩ := List.exists_cons_of_ne_nil hds
  obtain ⟨a, rest, hd, ha, -⟩ := (encodesChar d).cases_first
  obtain ⟨t, ht⟩ := h
  have hsplit : encode cs = (encode cs).take k ++ a :: (rest ++ (encode ds ++ t)) := by
    rw [encode_cons, hd, List.cons_append, List.cons_append, List.append_assoc] at ht
    rw [ht, List.take_append_drop]
  obtain ⟨cs₁, cs₂, rfl, hpre, hpost⟩ := boundary_of_split hsplit ha
  refine ⟨cs₁, cs₂, rfl, hpre, encode_prefix_iff.mp ⟨t, ?_⟩⟩
  rw [← hpost, encode_cons, hd]
  simp

/-- **A search for bytes is one for characters.** The offset found is between two characters,
and no earlier character begins a match. -/
theorem byteSearch_encode (cs : List Char) (hds : ds ≠ []) :
    (∃ k ≤ cs.length, byteSearch (encode ds) (encode cs) 0 = some (encode (cs.take k)).length ∧
        ds <+: cs.drop k ∧ ∀ j < k, ¬ ds <+: cs.drop j) ∨
      (byteSearch (encode ds) (encode cs) 0 = none ∧ ∀ j, ¬ ds <+: cs.drop j) := by
  have hbytes {j : ℕ} (h : ds <+: cs.drop j) :
      encode ds <+: (encode cs).drop (encode (cs.take j)).length := by
    rw [← encode_take_append_drop cs j, List.drop_left]
    exact encode_prefix_iff.mpr h
  cases hsearch : byteSearch (encode ds) (encode cs) 0 with
  | none => exact .inr ⟨rfl, fun j hj => byteSearch_eq_none hsearch _ (hbytes hj)⟩
  | some r =>
    obtain ⟨k, rfl, -, hmatch, hleast⟩ := byteSearch_eq_some hsearch
    obtain ⟨cs₁, cs₂, rfl, hpre, hds₂⟩ := prefix_drop_encode hds hmatch
    have hk : (encode cs₁).length = k := by
      rw [← hpre, List.length_take]
      have := hmatch.length_le
      rw [List.length_drop] at this
      have := length_encode_pos hds
      omega
    refine .inl ⟨cs₁.length, by simp, ?_, by simpa using hds₂, ?_⟩
    · rw [List.take_left, hk, Nat.zero_add]
    · intro j hj hmatch'
      refine hleast _ ?_ (hbytes hmatch')
      rw [List.take_append_of_le_length hj.le, ← hk]
      have hrest : cs₁.drop j ≠ [] := List.drop_eq_nil_iff.not.mpr (Nat.not_le.mpr hj)
      have := length_encode_pos hrest
      rw [← encode_take_append_drop cs₁ j, List.length_append]
      omega

theorem indexOfBytes_encode {count : List UInt8 → ℕ} (hcount : ∀ cs, count (encode cs) = cs.length)
    (cs ds : List Char) : LeastIndex cs ds (indexOfBytes count (encode cs) (encode ds)) := by
  rw [indexOfBytes]
  by_cases hds : ds = []
  · subst hds
    rw [if_pos (show (encode []).length = 0 from rfl)]
    exact .of_found (k := 0) (Nat.zero_le _) List.nil_prefix
      fun j hj => absurd hj (Nat.not_lt_zero j)
  rw [if_neg (length_encode_pos hds).ne']
  split
  next hshort =>
      refine .of_absent fun j _ hmatch => ?_
      have hle := (encode_prefix_iff.mpr hmatch).length_le
      have hcs := congrArg List.length (encode_take_append_drop cs j)
      rw [List.length_append] at hcs
      omega
  next =>
      rcases byteSearch_encode cs hds with ⟨k, hk, hsearch, hmatch, hleast⟩ | ⟨hsearch, hno⟩
      · have htake : (encode cs).take (encode (cs.take k)).length = encode (cs.take k) := by
          rw [← encode_take_append_drop cs k, List.take_left]
        rw [hsearch]
        simp only
        rw [htake, hcount, List.length_take, Nat.min_eq_left hk]
        exact .of_found hk hmatch hleast
      · rw [hsearch]
        exact .of_absent fun j _ => hno j

theorem eshkolUtf8IndexOf_encode {s sub : StringObject} (hs : s.bytes = encode cs)
    (hsub : sub.bytes = encode ds) : LeastIndex cs ds (eshkolUtf8IndexOf (some s) (some sub)) := by
  rw [eshkolUtf8IndexOf, take_byteLength, take_byteLength, hs, hsub]
  exact indexOfBytes_encode countP_encode cs ds

/-! ### Substrings -/

/-- `advance_one_codepoint`, on the bytes from the cursor on. -/
def advanceOneCodepoint : List UInt8 → List UInt8
  | [] => []
  | b :: rest =>
    if b.toNat &&& 0x80 = 0 then rest
    else if b.toNat &&& 0xE0 = 0xC0 then rest.drop 1
    else if b.toNat &&& 0xF0 = 0xE0 then rest.drop 2
    else if b.toNat &&& 0xF8 = 0xF0 then rest.drop 3
    else rest

/-- The loops of `eshkol_utf8_substring`: the bytes that are left after so many characters. -/
def advanceCodepoints : ℕ → List UInt8 → List UInt8
  | 0, bs => bs
  | n + 1, bs => if bs = [] then [] else advanceCodepoints n (advanceOneCodepoint bs)

theorem length_between_lt (start stop : ℤ) (s : StringObject) :
    let first := advanceCodepoints start.toNat s.bytes
    let last := advanceCodepoints (stop.toNat - start.toNat) first
    ((s.bytes.drop (s.bytes.length - first.length)).take (first.length - last.length)).length + 1 <
      2 ^ 32 := by
  intro first last
  have := s.fits
  rw [List.length_take, List.length_drop]
  omega

/-- `eshkol_utf8_substring`. A null pointer is `none`. -/
def eshkolUtf8Substring (s : Option StringObject) (start stop : ℤ) : Option StringObject :=
  match s with
  | none => none
  | some s =>
    if start < 0 ∨ stop < start then none
    else
      let first := advanceCodepoints start.toNat s.bytes
      let last := advanceCodepoints (stop.toNat - start.toNat) first
      some ⟨(s.bytes.drop (s.bytes.length - first.length)).take (first.length - last.length),
        length_between_lt start stop s⟩

theorem mask_one (p : UInt8) : p.toNat &&& 0x80 = 0 ↔ p.toNat < 128 := by
  have h := @and_high_eq_iff p.toNat 7 0 (by norm_num) p.toNat_lt
  rw [Nat.zero_mul] at h
  exact h.trans (by omega)

theorem advanceOneCodepoint_char (c : Char) (post : List UInt8) :
    advanceOneCodepoint (String.utf8EncodeChar c ++ post) = post := by
  have hc := encodesChar c
  generalize String.utf8EncodeChar c = bs at hc
  cases hc with
  | @one a ha hv =>
    rw [List.cons_append, advanceOneCodepoint, if_pos ((mask_one a).mpr ha), List.nil_append]
  | @two a b ha hb hv =>
    rw [List.cons_append, advanceOneCodepoint, if_neg (by rw [mask_one]; omega),
      if_pos ((mask_two a).mpr ha)]
    rfl
  | @three a b c ha hb hc hv =>
    rw [List.cons_append, advanceOneCodepoint, if_neg (by rw [mask_one]; omega),
      if_neg (by rw [mask_two]; omega), if_pos ((mask_three a).mpr ha)]
    rfl
  | @four a b c d ha hb hc hd hv =>
    rw [List.cons_append, advanceOneCodepoint, if_neg (by rw [mask_one]; omega),
      if_neg (by rw [mask_two]; omega), if_neg (by rw [mask_three]; omega),
      if_pos ((mask_four a).mpr ha)]
    rfl

theorem advanceCodepoints_encode (cs : List Char) (n : ℕ) :
    advanceCodepoints n (encode cs) = encode (cs.drop n) := by
  induction n generalizing cs with
  | zero => rfl
  | succ n ih =>
    rw [advanceCodepoints]
    cases cs with
    | nil => rfl
    | cons c cs =>
      rw [if_neg (encode_eq_nil_iff.not.mpr (List.cons_ne_nil c cs)), encode_cons,
        advanceOneCodepoint_char, ih, List.drop_succ_cons]

/-- The text between two indices. -/
def textBetween (cs : List Char) (i j : ℕ) : List Char := (cs.drop i).take (j - i)

theorem encode_textBetween (cs : List Char) (i j : ℕ) :
    ((encode cs).drop ((encode cs).length - (encode (cs.drop i)).length)).take
        ((encode (cs.drop i)).length - (encode ((cs.drop i).drop (j - i))).length) =
      encode (textBetween cs i j) := by
  have hfirst : (encode cs).length - (encode (cs.drop i)).length = (encode (cs.take i)).length := by
    rw [← encode_take_append_drop cs i, List.length_append]
    omega
  have hlast : (encode (cs.drop i)).length - (encode ((cs.drop i).drop (j - i))).length =
      (encode (textBetween cs i j)).length := by
    rw [← encode_take_append_drop (cs.drop i) (j - i), List.length_append, textBetween]
    omega
  rw [hfirst, hlast]
  conv_lhs => rw [← encode_take_append_drop cs i, List.drop_left]
  rw [← encode_take_append_drop (cs.drop i) (j - i)]
  exact List.take_left

theorem eshkolUtf8Substring_encode {s : StringObject} (hs : s.bytes = encode cs) {j : ℕ}
    (hij : i ≤ j) :
    ∃ u, eshkolUtf8Substring (some s) i j = some u ∧ u.bytes = encode (textBetween cs i j) := by
  rw [eshkolUtf8Substring, if_neg (by omega)]
  refine ⟨_, rfl, ?_⟩
  simp only [Int.toNat_natCast, hs, advanceCodepoints_encode]
  exact encode_textBetween cs i j

end Eshkol
