import Eshkol.Core.Strings
import Mathlib.Algebra.Order.Floor.Div
import Mathlib.GroupTheory.GroupAction.Ring
import Mathlib.Data.List.DropRight

/-!
# Base64

The encoder and the decoder of `lib/core/data/base64.esk`. The encoder takes three bytes at a
time, with a case of its own for one and for two bytes at the end; the decoder removes the padding
and takes four characters at a time. `Digits bytes digits` is the relation between a list of bytes
and its characters without padding, one constructor for each case.
-/

namespace Eshkol.Core

open Machine

/-! ### The alphabet -/

/-- The characters of the sixty-four digits. -/
def base64Alphabet : List Char :=
  "ABCDEFGHIJKLMNOPQRSTUVWXYZabcdefghijklmnopqrstuvwxyz0123456789+/".toList

def base64CharAt (index : ℕ) : Exec String Char := stringRef base64Alphabet index

def base64Value (ch : Char) : ℕ :=
  if 'A' ≤ ch ∧ ch ≤ 'Z' then ch.toNat - 'A'.toNat
  else if 'a' ≤ ch ∧ ch ≤ 'z' then 26 + (ch.toNat - 'a'.toNat)
  else if '0' ≤ ch ∧ ch ≤ '9' then 52 + (ch.toNat - '0'.toNat)
  else if ch = '+' then 62
  else if ch = '/' then 63
  else if ch = '=' then 0
  else 0

theorem map_base64Value_alphabet : base64Alphabet.map base64Value = List.range 64 := rfl

theorem base64CharAt_eq_ok_iff {i : ℕ} {c : Char} :
    base64CharAt i = .ok c ↔ base64Alphabet[i]? = some c := by
  rw [base64CharAt, stringRef]
  cases base64Alphabet[i]? with
  | none => simp [raise]
  | some d => simp

theorem base64Value_of_charAt {i : ℕ} {c : Char} (h : base64CharAt i = .ok c) :
    c ∈ base64Alphabet ∧ base64Value c = i := by
  rw [base64CharAt_eq_ok_iff] at h
  have hvalue : (base64Alphabet.map base64Value)[i]? = some (base64Value c) := by
    rw [List.getElem?_map, h]
    rfl
  rw [map_base64Value_alphabet] at hvalue
  obtain ⟨hi, heq⟩ := List.getElem?_eq_some_iff.mp hvalue
  rw [List.getElem_range] at heq
  exact ⟨List.mem_of_getElem? h, heq.symm⟩

theorem exists_base64CharAt {i : ℕ} (h : i < 64) : ∃ c, base64CharAt i = .ok c := by
  refine ⟨base64Alphabet[i], ?_⟩
  exact base64CharAt_eq_ok_iff.mpr (List.getElem?_eq_getElem h)

theorem padding_notMem_alphabet : '=' ∉ base64Alphabet := by decide

def base64EncodeHelper : List ℕ → List Char → Exec String (List Char)
  | [], result => .ok result
  | [b₁], result => do
      let c₁ ← base64CharAt (b₁ / 4)
      let c₂ ← base64CharAt (b₁ % 4 * 16)
      .ok (result ++ [c₁] ++ [c₂] ++ "==".toList)
  | [b₁, b₂], result => do
      let c₁ ← base64CharAt (b₁ / 4)
      let c₂ ← base64CharAt (b₁ % 4 * 16 + b₂ / 16)
      let c₃ ← base64CharAt (b₂ % 16 * 4)
      .ok (result ++ [c₁] ++ [c₂] ++ [c₃] ++ "=".toList)
  | b₁ :: b₂ :: b₃ :: bytes, result => do
      let c₁ ← base64CharAt (b₁ / 4)
      let c₂ ← base64CharAt (b₁ % 4 * 16 + b₂ / 16)
      let c₃ ← base64CharAt (b₂ % 16 * 4 + b₃ / 64)
      let c₄ ← base64CharAt (b₃ % 64)
      base64EncodeHelper bytes (result ++ [c₁] ++ [c₂] ++ [c₃] ++ [c₄])

def base64Encode (bytes : List ℕ) : Exec String (List Char) := base64EncodeHelper bytes []

def base64RemovePadding (str : List Char) : List Char := str.rdropWhile (· = '=')

/-- `base64-decode-helper`, over the characters from `pos` on. -/
def base64DecodeHelper : List Char → List ℕ → Exec String (List ℕ)
  | [], result => .ok result.reverse
  | [_], _ => raise "string-ref: index out of bounds"
  | [c₁, c₂], result =>
    let v₁ := base64Value c₁
    let v₂ := base64Value c₂
    .ok (((v₁ * 4 + v₂ / 16) :: result).reverse)
  | [c₁, c₂, c₃], result =>
    let v₁ := base64Value c₁
    let v₂ := base64Value c₂
    let v₃ := base64Value c₃
    .ok (((v₂ % 16 * 16 + v₃ / 4) :: (v₁ * 4 + v₂ / 16) :: result).reverse)
  | c₁ :: c₂ :: c₃ :: c₄ :: str, result =>
    let v₁ := base64Value c₁
    let v₂ := base64Value c₂
    let v₃ := base64Value c₃
    let v₄ := base64Value c₄
    base64DecodeHelper str
      ((v₃ % 4 * 64 + v₄) :: (v₂ % 16 * 16 + v₃ / 4) :: (v₁ * 4 + v₂ / 16) :: result)

def base64Decode (str : List Char) : Exec String (List ℕ) :=
  base64DecodeHelper (base64RemovePadding str) []

/-! ### Digits -/

/-- The digits of a list of bytes, without padding. -/
inductive Digits : List ℕ → List Char → Prop
  | nil : Digits [] []
  | one {b₁ : ℕ} {c₁ c₂ : Char} (h₁ : base64CharAt (b₁ / 4) = .ok c₁)
      (h₂ : base64CharAt (b₁ % 4 * 16) = .ok c₂) : Digits [b₁] [c₁, c₂]
  | two {b₁ b₂ : ℕ} {c₁ c₂ c₃ : Char} (h₁ : base64CharAt (b₁ / 4) = .ok c₁)
      (h₂ : base64CharAt (b₁ % 4 * 16 + b₂ / 16) = .ok c₂)
      (h₃ : base64CharAt (b₂ % 16 * 4) = .ok c₃) : Digits [b₁, b₂] [c₁, c₂, c₃]
  | three {b₁ b₂ b₃ : ℕ} {c₁ c₂ c₃ c₄ : Char} {bytes : List ℕ} {digits : List Char}
      (h₁ : base64CharAt (b₁ / 4) = .ok c₁)
      (h₂ : base64CharAt (b₁ % 4 * 16 + b₂ / 16) = .ok c₂)
      (h₃ : base64CharAt (b₂ % 16 * 4 + b₃ / 64) = .ok c₃)
      (h₄ : base64CharAt (b₃ % 64) = .ok c₄) (hrest : Digits bytes digits) :
      Digits (b₁ :: b₂ :: b₃ :: bytes) (c₁ :: c₂ :: c₃ :: c₄ :: digits)

/-- The number of padding characters behind the digits of `n` bytes: none, two or one, as `n` is
`0`, `1` or `2` modulo `3`. -/
def base64Padding (n : ℕ) : ℕ := (3 - n % 3) % 3

theorem base64Padding_add_three (n : ℕ) : base64Padding (n + 3) = base64Padding n := by
  rw [base64Padding, base64Padding, Nat.add_mod_right]

theorem exists_digits : ∀ {bytes : List ℕ}, (∀ b ∈ bytes, b < 256) → ∃ digits, Digits bytes digits
  | [], _ => ⟨[], .nil⟩
  | [b₁], h => by
      have hb₁ := h b₁ (by simp)
      obtain ⟨c₁, h₁⟩ := @exists_base64CharAt (b₁ / 4) (by omega)
      obtain ⟨c₂, h₂⟩ := @exists_base64CharAt (b₁ % 4 * 16) (by omega)
      exact ⟨_, .one h₁ h₂⟩
  | [b₁, b₂], h => by
      have hb₁ := h b₁ (by simp)
      have hb₂ := h b₂ (by simp)
      obtain ⟨c₁, h₁⟩ := @exists_base64CharAt (b₁ / 4) (by omega)
      obtain ⟨c₂, h₂⟩ := @exists_base64CharAt (b₁ % 4 * 16 + b₂ / 16) (by omega)
      obtain ⟨c₃, h₃⟩ := @exists_base64CharAt (b₂ % 16 * 4) (by omega)
      exact ⟨_, .two h₁ h₂ h₃⟩
  | b₁ :: b₂ :: b₃ :: bytes, h => by
      have hb₁ := h b₁ (by simp)
      have hb₂ := h b₂ (by simp)
      have hb₃ := h b₃ (by simp)
      obtain ⟨c₁, h₁⟩ := @exists_base64CharAt (b₁ / 4) (by omega)
      obtain ⟨c₂, h₂⟩ := @exists_base64CharAt (b₁ % 4 * 16 + b₂ / 16) (by omega)
      obtain ⟨c₃, h₃⟩ := @exists_base64CharAt (b₂ % 16 * 4 + b₃ / 64) (by omega)
      obtain ⟨c₄, h₄⟩ := @exists_base64CharAt (b₃ % 64) (by omega)
      obtain ⟨digits, hrest⟩ := @exists_digits bytes fun b hb => h b (by simp [hb])
      exact ⟨_, .three h₁ h₂ h₃ h₄ hrest⟩

theorem base64EncodeHelper_eq_ok_iff (bytes : List ℕ) (result text : List Char) :
    base64EncodeHelper bytes result = .ok text ↔
      ∃ digits, Digits bytes digits ∧
        text = result ++ digits ++ List.replicate (base64Padding bytes.length) '=' := by
  fun_induction base64EncodeHelper bytes result with
  | case1 result =>
    constructor
    · rintro ⟨⟩
      exact ⟨[], .nil, by simp [base64Padding]⟩
    · rintro ⟨digits, ⟨⟩, rfl⟩
      simp [base64Padding]
  | case2 b₁ result =>
    simp only [bind_eq_ok]
    constructor
    · rintro ⟨c₁, h₁, c₂, h₂, ⟨⟩⟩
      exact ⟨_, .one h₁ h₂, by simp [base64Padding]⟩
    · rintro ⟨digits, hdigits, rfl⟩
      cases hdigits with
      | one h₁ h₂ => exact ⟨_, h₁, _, h₂, by simp [base64Padding]⟩
  | case3 b₁ b₂ result =>
    simp only [bind_eq_ok]
    constructor
    · rintro ⟨c₁, h₁, c₂, h₂, c₃, h₃, ⟨⟩⟩
      exact ⟨_, .two h₁ h₂ h₃, by simp [base64Padding]⟩
    · rintro ⟨digits, hdigits, rfl⟩
      cases hdigits with
      | two h₁ h₂ h₃ => exact ⟨_, h₁, _, h₂, _, h₃, by simp [base64Padding]⟩
  | case4 b₁ b₂ b₃ bytes result ih =>
    simp only [bind_eq_ok, ih]
    constructor
    · rintro ⟨c₁, h₁, c₂, h₂, c₃, h₃, c₄, h₄, digits, hrest, rfl⟩
      exact ⟨_, .three h₁ h₂ h₃ h₄ hrest, by simp [base64Padding_add_three]⟩
    · rintro ⟨digits, hdigits, rfl⟩
      cases hdigits with
      | three h₁ h₂ h₃ h₄ hrest =>
        exact ⟨_, h₁, _, h₂, _, h₃, _, h₄, _, hrest, by simp [base64Padding_add_three]⟩

theorem base64Encode_eq_ok_iff {bytes : List ℕ} {text : List Char} :
    base64Encode bytes = .ok text ↔
      ∃ digits, Digits bytes digits ∧
        text = digits ++ List.replicate (base64Padding bytes.length) '=' :=
  base64EncodeHelper_eq_ok_iff bytes [] text

namespace Digits

variable {bytes : List ℕ} {digits : List Char}

theorem length_add_padding (h : Digits bytes digits) :
    digits.length + base64Padding bytes.length = 4 * (bytes.length ⌈/⌉ 3) := by
  rw [Nat.ceilDiv_eq_add_pred_div]
  induction h with
  | nil => rfl
  | one => simp [base64Padding]
  | two => simp [base64Padding]
  | three _ _ _ _ _ ih =>
    simp only [List.length_cons, base64Padding_add_three] at ih ⊢
    omega

theorem mem_alphabet (h : Digits bytes digits) : ∀ c ∈ digits, c ∈ base64Alphabet := by
  induction h with
  | nil => simp
  | one h₁ h₂ =>
    simp [(base64Value_of_charAt h₁).1, (base64Value_of_charAt h₂).1]
  | two h₁ h₂ h₃ =>
    simp [(base64Value_of_charAt h₁).1, (base64Value_of_charAt h₂).1, (base64Value_of_charAt h₃).1]
  | three h₁ h₂ h₃ h₄ _ ih =>
    simpa [(base64Value_of_charAt h₁).1, (base64Value_of_charAt h₂).1,
      (base64Value_of_charAt h₃).1, (base64Value_of_charAt h₄).1] using ih

theorem decodeHelper (h : Digits bytes digits) (result : List ℕ) :
    ∃ bytes', base64DecodeHelper digits result = .ok (result.reverse ++ bytes') ∧
      bytes'.length = bytes.length ∧ ((∀ b ∈ bytes, b < 256) → bytes' = bytes) := by
  induction h generalizing result with
  | nil => exact ⟨[], by simp [base64DecodeHelper], rfl, fun _ => rfl⟩
  | @one b₁ c₁ c₂ h₁ h₂ =>
    have hv₁ := (base64Value_of_charAt h₁).2
    have hv₂ := (base64Value_of_charAt h₂).2
    refine ⟨[base64Value c₁ * 4 + base64Value c₂ / 16], by simp [base64DecodeHelper], rfl,
      fun hbytes => ?_⟩
    rw [hv₁, hv₂, List.cons.injEq]
    exact ⟨by omega, rfl⟩
  | @two b₁ b₂ c₁ c₂ c₃ h₁ h₂ h₃ =>
    have hv₁ := (base64Value_of_charAt h₁).2
    have hv₂ := (base64Value_of_charAt h₂).2
    have hv₃ := (base64Value_of_charAt h₃).2
    refine ⟨[base64Value c₁ * 4 + base64Value c₂ / 16,
      base64Value c₂ % 16 * 16 + base64Value c₃ / 4], by simp [base64DecodeHelper], rfl,
      fun hbytes => ?_⟩
    simp only [List.forall_mem_cons] at hbytes
    rw [hv₁, hv₂, hv₃, List.cons.injEq, List.cons.injEq]
    exact ⟨by omega, by omega, rfl⟩
  | @three b₁ b₂ b₃ c₁ c₂ c₃ c₄ bytes digits h₁ h₂ h₃ h₄ _ ih =>
    have hv₁ := (base64Value_of_charAt h₁).2
    have hv₂ := (base64Value_of_charAt h₂).2
    have hv₃ := (base64Value_of_charAt h₃).2
    have hv₄ := (base64Value_of_charAt h₄).2
    obtain ⟨bytes', hread, hlength, hbytes'⟩ := ih _
    refine ⟨(base64Value c₁ * 4 + base64Value c₂ / 16) ::
      (base64Value c₂ % 16 * 16 + base64Value c₃ / 4) ::
      (base64Value c₃ % 4 * 64 + base64Value c₄) :: bytes',
      by rw [base64DecodeHelper, hread]; simp, by simp [hlength], fun hbytes => ?_⟩
    simp only [List.forall_mem_cons] at hbytes
    rw [hbytes' hbytes.2.2.2, hv₁, hv₂, hv₃, hv₄, List.cons.injEq, List.cons.injEq, List.cons.injEq]
    exact ⟨by omega, by omega, by omega, rfl⟩

theorem removePadding (h : Digits bytes digits) (k : ℕ) :
    base64RemovePadding (digits ++ List.replicate k '=') = digits := by
  rw [base64RemovePadding, List.rdropWhile, List.reverse_append, List.reverse_replicate,
    List.dropWhile_append_of_pos (by simp)]
  rw [← List.rdropWhile, List.rdropWhile_eq_self_iff]
  intro hne
  have hmem := h.mem_alphabet _ (List.getLast_mem hne)
  simpa using fun heq : digits.getLast hne = '=' => padding_notMem_alphabet (heq ▸ hmem)

theorem decode (h : Digits bytes digits) (k : ℕ) :
    ∃ bytes', base64Decode (digits ++ List.replicate k '=') = .ok bytes' ∧
      bytes'.length = bytes.length ∧ ((∀ b ∈ bytes, b < 256) → bytes' = bytes) := by
  rw [base64Decode, h.removePadding]
  exact h.decodeHelper []

end Digits

/-- Encoding of a list of bytes: the length, the alphabet and the padding of the text, and that
the decoder reads the bytes back. -/
theorem base64_round_trip (bytes : List ℕ) (h : ∀ b ∈ bytes, b < 256) :
    ∃ text, base64Encode bytes = .ok text ∧ text.length = 4 * (bytes.length ⌈/⌉ 3) ∧
      (∃ digits, text = digits ++ List.replicate (base64Padding bytes.length) '=' ∧
        ∀ c ∈ digits, c ∈ base64Alphabet) ∧
      base64Decode text = .ok bytes := by
  obtain ⟨digits, hdigits⟩ := exists_digits h
  obtain ⟨bytes', hdecode, -, hbytes'⟩ := hdigits.decode (base64Padding bytes.length)
  refine ⟨_, base64Encode_eq_ok_iff.mpr ⟨digits, hdigits, rfl⟩, ?_, ?_, ?_⟩
  · rw [List.length_append, List.length_replicate, hdigits.length_add_padding]
  · exact ⟨digits, rfl, hdigits.mem_alphabet⟩
  · rw [hdecode, hbytes' h]

/-- Four bytes, with two padding characters. -/
theorem base64_round_trip_four :
    ∃ text, base64Encode [0, 255, 16, 7] = .ok text ∧ text.length = 4 * (4 ⌈/⌉ 3) ∧
      (∃ digits, text = digits ++ List.replicate (base64Padding 4) '=' ∧
        ∀ c ∈ digits, c ∈ base64Alphabet) ∧
      base64Decode text = .ok [0, 255, 16, 7] :=
  base64_round_trip [0, 255, 16, 7] (by simp)

end Eshkol.Core
