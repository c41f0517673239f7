import Mathlib.Data.Nat.Bitwise
import Mathlib.Tactic.NormNum

/-!
# UTF-8

The UTF-8 encoding of a text, as a grammar of byte sequences. `EncodesChar v bs` says that
`bs` are the bytes of the scalar value `v`: a first byte that tells how many bytes there are,
and continuation bytes of six bits each.
-/

namespace Codec.Utf8

/-- The bytes of a text. -/
def encode (cs : List Char) : List UInt8 := cs.flatMap String.utf8EncodeChar

@[simp] theorem encode_nil : encode [] = [] := rfl

theorem encode_cons (c : Char) (cs : List Char) :
    encode (c :: cs) = String.utf8EncodeChar c ++ encode cs := rfl

theorem encode_append (cs ds : List Char) : encode (cs ++ ds) = encode cs ++ encode ds := by
  rw [encode, List.flatMap_append]
  rfl

theorem encode_injective : Function.Injective encode := by
  intro cs ds h
  have hbytes : cs.utf8Encode = ds.utf8Encode := congrArg List.toByteArray h
  rw [← String.toByteArray_ofList, ← String.toByteArray_ofList, String.toByteArray_inj] at hbytes
  have hlist := congrArg String.toList hbytes
  rwa [String.toList_ofList, String.toList_ofList] at hlist

/-- A continuation byte, `10xxxxxx`. -/
def Continues (b : UInt8) : Prop := b.toNat / 64 = 2

instance (b : UInt8) : Decidable (Continues b) := inferInstanceAs (Decidable (_ = _))

/-- The bytes of a scalar value. -/
inductive EncodesChar (v : ℕ) : List UInt8 → Prop
  | one {a : UInt8} (ha : a.toNat < 128) (hv : v = a.toNat) : EncodesChar v [a]
  | two {a b : UInt8} (ha : a.toNat / 32 = 6) (hb : Continues b)
      (hv : v = a.toNat % 32 * 64 + b.toNat % 64) (hmin : 128 ≤ v) : EncodesChar v [a, b]
  | three {a b c : UInt8} (ha : a.toNat / 16 = 14) (hb : Continues b) (hc : Continues c)
      (hv : v = a.toNat % 16 * 4096 + b.toNat % 64 * 64 + c.toNat % 64) (hmin : 128 ≤ v) :
      EncodesChar v [a, b, c]
  | four {a b c d : UInt8} (ha : a.toNat / 8 = 30) (hb : Continues b) (hc : Continues c)
      (hd : Continues d)
      (hv : v = a.toNat % 8 * 262144 + b.toNat % 64 * 4096 + c.toNat % 64 * 64 + d.toNat % 64)
      (hmin : 128 ≤ v) : EncodesChar v [a, b, c, d]

theorem toNat_lt (c : Char) : c.val.toNat < 0x110000 := by
  rcases c.valid with h | ⟨-, h⟩
  · exact lt_trans h (by norm_num)
  · exact h

theorem toNat_ofNat {n : ℕ} (h : n < 256) : (UInt8.ofNat n).toNat = n := by
  rw [UInt8.toNat_ofNat']
  exact Nat.mod_eq_of_lt h

theorem encodesChar (c : Char) : EncodesChar c.val.toNat (String.utf8EncodeChar c) := by
  have hmax := toNat_lt c
  rw [String.utf8EncodeChar]
  generalize c.val.toNat = v at hmax ⊢
  split
  · have ha := @toNat_ofNat v (by omega)
    exact .one (by omega) ha.symm
  split
  · have ha := @toNat_ofNat (v / 64 % 32 + 192) (by omega)
    have hb := @toNat_ofNat (v % 64 + 128) (by omega)
    exact .two (by omega) (by rw [Continues]; omega) (by omega) (by omega)
  split
  · have ha := @toNat_ofNat (v / 4096 % 16 + 224) (by omega)
    have hb := @toNat_ofNat (v / 64 % 64 + 128) (by omega)
    have hc := @toNat_ofNat (v % 64 + 128) (by omega)
    exact .three (by omega) (by rw [Continues]; omega) (by rw [Continues]; omega) (by omega)
      (by omega)
  · have ha := @toNat_ofNat (v / 262144 % 8 + 240) (by omega)
    have hb := @toNat_ofNat (v / 4096 % 64 + 128) (by omega)
    have hc := @toNat_ofNat (v / 64 % 64 + 128) (by omega)
    have hd := @toNat_ofNat (v % 64 + 128) (by omega)
    exact .four (by omega) (by rw [Continues]; omega) (by rw [Continues]; omega)
      (by rw [Continues]; omega) (by omega) (by omega)

theorem EncodesChar.cases_first {v : ℕ} {bs : List UInt8} (h : EncodesChar v bs) :
    ∃ a rest, bs = a :: rest ∧ ¬Continues a ∧ (∀ b ∈ rest, Continues b) ∧
      (rest = [] ↔ v < 128) := by
  cases h with
  | one ha hv => exact ⟨_, [], rfl, by rw [Continues]; omega, by simp, by simp; omega⟩
  | two ha hb hv hmin =>
    exact ⟨_, _, rfl, by rw [Continues]; omega, by simpa using hb, by simp; omega⟩
  | three ha hb hc hv hmin =>
    exact ⟨_, _, rfl, by rw [Continues]; omega, by simpa using ⟨hb, hc⟩, by simp; omega⟩
  | four ha hb hc hd hv hmin =>
    exact ⟨_, _, rfl, by rw [Continues]; omega, by simpa using ⟨hb, hc, hd⟩, by simp; omega⟩

/-! ### The masks of a decoder -/

theorem and_high {b k : ℕ} (hk : k ≤ 8) (hb : b < 2 ^ 8) :
    b &&& (2 ^ 8 - 2 ^ k) = b / 2 ^ k * 2 ^ k := by
  have hpos : 0 < 2 ^ k := Nat.two_pow_pos k
  have hle : 2 ^ k ≤ 2 ^ 8 := Nat.pow_le_pow_right (by norm_num) hk
  apply Nat.eq_of_testBit_eq
  intro i
  rw [Nat.testBit_and, Nat.testBit_mul_two_pow, Nat.testBit_div_two_pow,
    show 2 ^ 8 - 2 ^ k = 2 ^ 8 - ((2 ^ k - 1) + 1) by omega,
    Nat.testBit_two_pow_sub_succ (by omega), Nat.testBit_two_pow_sub_one]
  by_cases hi : i < 8
  · by_cases hik : k ≤ i
    · simp [hi, hik, Nat.sub_add_cancel hik]
    · simp [hik, Nat.lt_of_not_le hik]
  · have hzero : b.testBit i = false :=
      Nat.testBit_lt_two_pow (lt_of_lt_of_le hb (Nat.pow_le_pow_right (by norm_num) (by omega)))
    by_cases hik : k ≤ i
    · simp [hi, hzero, Nat.sub_add_cancel hik]
    · simp [hi, hik]

theorem and_high_eq_iff {b k m : ℕ} (hk : k ≤ 8) (hb : b < 2 ^ 8) :
    b &&& (2 ^ 8 - 2 ^ k) = m * 2 ^ k ↔ b / 2 ^ k = m := by
  rw [and_high hk hb]
  exact Nat.mul_left_inj (Nat.two_pow_pos k).ne'

theorem shift_or {a b k : ℕ} (hb : b < 2 ^ k) : a <<< k ||| b = a * 2 ^ k + b := by
  rw [← Nat.shiftLeft_add_eq_or_of_lt hb, Nat.shiftLeft_eq]

theorem assemble_two (a b : ℕ) : (a &&& 0x1F) <<< 6 ||| (b &&& 0x3F) = a % 32 * 64 + b % 64 := by
  rw [Nat.and_two_pow_sub_one_eq_mod a 5, Nat.and_two_pow_sub_one_eq_mod b 6,
    shift_or (Nat.mod_lt _ (Nat.two_pow_pos 6))]
  omega

theorem assemble_three (a b c : ℕ) :
    (a &&& 0x0F) <<< 12 ||| (b &&& 0x3F) <<< 6 ||| (c &&& 0x3F) =
      a % 16 * 4096 + b % 64 * 64 + c % 64 := by
  rw [Nat.and_two_pow_sub_one_eq_mod a 4, Nat.and_two_pow_sub_one_eq_mod b 6,
    Nat.and_two_pow_sub_one_eq_mod c 6, Nat.shiftLeft_add _ 6 6, ← Nat.shiftLeft_or_distrib,
    shift_or (Nat.mod_lt _ (Nat.two_pow_pos 6)), shift_or (Nat.mod_lt _ (Nat.two_pow_pos 6))]
  omega

theorem assemble_four (a b c d : ℕ) :
    (a &&& 0x07) <<< 18 ||| (b &&& 0x3F) <<< 12 ||| (c &&& 0x3F) <<< 6 ||| (d &&& 0x3F) =
      a % 8 * 262144 + b % 64 * 4096 + c % 64 * 64 + d % 64 := by
  rw [Nat.and_two_pow_sub_one_eq_mod a 3, Nat.and_two_pow_sub_one_eq_mod b 6,
    Nat.and_two_pow_sub_one_eq_mod c 6, Nat.and_two_pow_sub_one_eq_mod d 6,
    Nat.shiftLeft_add _ 12 6, Nat.shiftLeft_add _ 6 6, Nat.shiftLeft_add _ 6 6,
    ← Nat.shiftLeft_or_distrib, ← Nat.shiftLeft_or_distrib, ← Nat.shiftLeft_or_distrib,
    shift_or (Nat.mod_lt _ (Nat.two_pow_pos 6)), shift_or (Nat.mod_lt _ (Nat.two_pow_pos 6)),
    shift_or (Nat.mod_lt _ (Nat.two_pow_pos 6))]
  omega

/-! ### Boundaries -/

/-- The number of bytes of a character, from its first byte. -/
def widthOf (a : UInt8) : ℕ :=
  if a.toNat < 128 then 1 else if a.toNat / 32 = 6 then 2 else if a.toNat / 16 = 14 then 3 else 4

theorem EncodesChar.length_eq {v : ℕ} {a : UInt8} {rest : List UInt8}
    (h : EncodesChar v (a :: rest)) : (a :: rest).length = widthOf a := by
  cases h with
  | one ha hv => rw [widthOf, if_pos ha]; rfl
  | two ha hb hv hmin => rw [widthOf, if_neg (by omega), if_pos ha]; rfl
  | three ha hb hc hv hmin =>
    rw [widthOf, if_neg (by omega), if_neg (by omega), if_pos ha]; rfl
  | four ha hb hc hd hv hmin =>
    rw [widthOf, if_neg (by omega), if_neg (by omega), if_neg (by omega)]; rfl

theorem utf8EncodeChar_append_inj {c d : Char} {s t : List UInt8}
    (h : String.utf8EncodeChar c ++ s = String.utf8EncodeChar d ++ t) : c = d ∧ s = t := by
  obtain ⟨a, rest, hc, -⟩ := (encodesChar c).cases_first
  obtain ⟨b, rest', hd, -⟩ := (encodesChar d).cases_first
  have hwc := (hc ▸ encodesChar c).length_eq
  have hwd := (hd ▸ encodesChar d).length_eq
  have hab : a = b := by
    rw [hc, hd] at h
    exact (List.cons.inj h).1
  have hlen : (String.utf8EncodeChar c).length = (String.utf8EncodeChar d).length := by
    rw [hc, hd, hwc, hwd, hab]
  obtain ⟨hbytes, hrest⟩ := List.append_inj h hlen
  have hchar : encode [c] = encode [d] := by rw [encode_cons, encode_cons, hbytes]
  exact ⟨(List.cons.inj (encode_injective hchar)).1, hrest⟩

theorem encode_prefix_iff {cs ds : List Char} : encode ds <+: encode cs ↔ ds <+: cs := by
  constructor
  · rintro ⟨t, ht⟩
    induction ds generalizing cs with
    | nil => exact List.nil_prefix
    | cons d ds ih =>
      cases cs with
      | nil =>
        obtain ⟨a, rest, hd, -⟩ := (encodesChar d).cases_first
        rw [encode_cons, hd] at ht
        cases ht
      | cons c cs =>
        rw [encode_cons, encode_cons, List.append_assoc] at ht
        obtain ⟨rfl, hrest⟩ := utf8EncodeChar_append_inj ht
        exact List.cons_prefix_cons.mpr ⟨rfl, ih hrest⟩
  · rintro ⟨t, rfl⟩
    exact ⟨encode t, (encode_append ds t).symm⟩

theorem boundary_of_split {cs : List Char} {pre post : List UInt8} {a : UInt8}
    (h : encode cs = pre ++ a :: post) (ha : ¬Continues a) :
    ∃ cs₁ cs₂, cs = cs₁ ++ cs₂ ∧ pre = encode cs₁ ∧ a :: post = encode cs₂ := by
  induction cs generalizing pre with
  | nil => simp at h
  | cons c cs ih =>
    obtain ⟨b, rest, hc, -, hrest, -⟩ := (encodesChar c).cases_first
    cases pre with
    | nil => exact ⟨[], c :: cs, rfl, rfl, h.symm⟩
    | cons x pre =>
      -- the byte is not among the continuation bytes of the first character
      have hcut : ∃ pre', pre = rest ++ pre' ∧ encode cs = pre' ++ a :: post := by
        rw [encode_cons, hc, List.cons_append, List.cons_append] at h
        have htail := (List.cons.inj h).2
        rcases List.append_eq_append_iff.mp htail with ⟨pre', hpre, hcs⟩ | ⟨tail, hr, htail⟩
        · exact ⟨pre', hpre, hcs⟩
        · cases tail with
          | nil => exact ⟨[], by simpa using hr.symm, by simpa using htail.symm⟩
          | cons y tail =>
            have hy : a = y := (List.cons.inj htail).1
            exact absurd (hrest y (hr ▸ by simp)) (hy ▸ ha)
      obtain ⟨pre', rfl, hcs⟩ := hcut
      obtain ⟨cs₁, cs₂, rfl, rfl, hpost⟩ := ih hcs
      refine ⟨c :: cs₁, cs₂, rfl, ?_, hpost⟩
      rw [encode_cons, hc] at h
      rw [encode_cons, hc, (List.cons.inj h).1.symm]
      rfl

end Codec.Utf8
