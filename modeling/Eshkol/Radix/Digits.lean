import Mathlib.Data.Nat.Digits.Defs
import Mathlib.Data.List.DropRight
import Mathlib.Tactic.Ring
import Mathlib.Tactic.Linarith

/-!
# Positional Values of Word Lists

A little-endian list of `w`-bit words is read as a natural number in radix `2 ^ w`:
`value l` is Mathlib's `Nat.ofDigits` over the words of `l`. Words are `BitVec w`, so a
digit out of range cannot be written down.
-/

namespace Radix

variable {w : ℕ}

/-- The value of a little-endian list of `w`-bit words. -/
def value (l : List (BitVec w)) : ℕ := Nat.ofDigits (2 ^ w) (l.map BitVec.toNat)

@[simp] theorem value_nil : value ([] : List (BitVec w)) = 0 := rfl

@[simp] theorem value_cons (x : BitVec w) (l : List (BitVec w)) :
    value (x :: l) = x.toNat + 2 ^ w * value l := by
  simp [value, Nat.ofDigits_cons]

theorem value_append (l₁ l₂ : List (BitVec w)) :
    value (l₁ ++ l₂) = value l₁ + (2 ^ w) ^ l₁.length * value l₂ := by
  simp [value, Nat.ofDigits_append]

theorem value_lt (l : List (BitVec w)) : value l < (2 ^ w) ^ l.length := by
  induction l with
  | nil => simp
  | cons x l ih =>
    have hx : x.toNat < 2 ^ w := x.isLt
    have h1 : x.toNat + 2 ^ w * value l < 2 ^ w * (value l + 1) := by
      rw [Nat.mul_add, Nat.mul_one]
      omega
    have h2 : 2 ^ w * (value l + 1) ≤ 2 ^ w * (2 ^ w) ^ l.length := Nat.mul_le_mul_left _ ih
    calc value (x :: l) = x.toNat + 2 ^ w * value l := value_cons x l
      _ < 2 ^ w * (2 ^ w) ^ l.length := lt_of_lt_of_le h1 h2
      _ = (2 ^ w) ^ (x :: l).length := by rw [List.length_cons, pow_succ, Nat.mul_comm]

@[simp] theorem value_replicate_zero (n : ℕ) : value (List.replicate n (0#w)) = 0 := by
  simp [value]

variable {l l₁ l₂ : List (BitVec w)}

theorem value_eq_zero_iff : value l = 0 ↔ ∀ x ∈ l, x = 0 := by
  induction l with
  | nil => simp
  | cons x l ih =>
    have hw : 2 ^ w ≠ 0 := by positivity
    rw [value_cons, Nat.add_eq_zero_iff, Nat.mul_eq_zero, List.forall_mem_cons, ← ih]
    constructor
    · rintro ⟨hx, h⟩
      exact ⟨BitVec.eq_of_toNat_eq (by simpa using hx), h.resolve_left hw⟩
    · rintro ⟨rfl, h⟩
      exact ⟨by simp, Or.inr h⟩

theorem pow_le_value_of_getLast_ne_zero (hl : l ≠ []) (htop : l.getLast hl ≠ 0) :
    (2 ^ w) ^ (l.length - 1) ≤ value l := by
  obtain ⟨lo, x, rfl⟩ : ∃ lo x, l = lo ++ [x] :=
    ⟨l.dropLast, l.getLast hl, (List.dropLast_append_getLast hl).symm⟩
  have hx : x.toNat ≠ 0 := by
    intro h
    exact htop (by simpa using BitVec.eq_of_toNat_eq (y := (0 : BitVec w)) (by simpa using h))
  rw [value_append]
  simp only [List.length_append, List.length_singleton, Nat.add_sub_cancel, value_cons,
    value_nil, Nat.mul_zero, Nat.add_zero]
  calc (2 ^ w) ^ lo.length = (2 ^ w) ^ lo.length * 1 := (Nat.mul_one _).symm
    _ ≤ (2 ^ w) ^ lo.length * x.toNat := Nat.mul_le_mul_left _ (Nat.one_le_iff_ne_zero.mpr hx)
    _ ≤ value lo + (2 ^ w) ^ lo.length * x.toNat := Nat.le_add_left _ _

theorem lt_of_length_lt (hl : l₂ ≠ []) (htop : l₂.getLast hl ≠ 0) (h : l₁.length < l₂.length) :
    value l₁ < value l₂ :=
  calc value l₁ < (2 ^ w) ^ l₁.length := value_lt l₁
    _ ≤ (2 ^ w) ^ (l₂.length - 1) := Nat.pow_le_pow_right (by positivity) (by omega)
    _ ≤ value l₂ := pow_le_value_of_getLast_ne_zero hl htop

theorem value_inj_of_length_eq (hlen : l₁.length = l₂.length) (h : value l₁ = value l₂) :
    l₁ = l₂ := by
  induction l₁ generalizing l₂ with
  | nil => exact (List.length_eq_zero_iff.mp hlen.symm).symm
  | cons x l₁ ih =>
    cases l₂ with
    | nil => simp at hlen
    | cons y l₂ =>
      rw [value_cons, value_cons] at h
      have hx : x.toNat < 2 ^ w := x.isLt
      have hy : y.toNat < 2 ^ w := y.isLt
      have hmod : x.toNat = y.toNat := by
        have := congrArg (· % 2 ^ w) h
        simpa [Nat.add_mul_mod_self_left, Nat.mod_eq_of_lt hx, Nat.mod_eq_of_lt hy]
          using this
      have hrest : value l₁ = value l₂ := by
        have hw : 0 < 2 ^ w := by positivity
        rw [hmod] at h
        exact Nat.eq_of_mul_eq_mul_left hw (Nat.add_left_cancel h)
      rw [BitVec.eq_of_toNat_eq hmod, ih (by simpa using hlen) hrest]

theorem value_drop (l : List (BitVec w)) (n : ℕ) : value (l.drop n) = value l / (2 ^ w) ^ n := by
  rcases le_total l.length n with h | h
  · rw [List.drop_of_length_le h, value_nil, Nat.div_eq_of_lt]
    exact lt_of_lt_of_le (value_lt l) (Nat.pow_le_pow_right (by positivity) h)
  · have hlt : value (l.take n) < (2 ^ w) ^ n := by
      simpa [List.length_take_of_le h] using value_lt (l.take n)
    conv_rhs => rw [← List.take_append_drop n l]
    rw [value_append, List.length_take_of_le h, Nat.add_mul_div_left _ _ (by positivity),
      Nat.div_eq_of_lt hlt, Nat.zero_add]

/-! ### Trimming zero words at the top -/

/-- Remove the zero words at the most significant end. -/
def trim (l : List (BitVec w)) : List (BitVec w) := l.rdropWhile (· == 0)

@[simp] theorem value_trim (l : List (BitVec w)) : value (trim l) = value l := by
  induction l using List.reverseRecOn with
  | nil => rfl
  | append_singleton l x ih =>
    rw [trim, List.rdropWhile_concat]
    split
    next h =>
        have hx : x = 0 := by simpa using h
        rw [← trim, ih, value_append, hx]
        simp
    next => rfl

theorem trim_getLast_ne_zero (hl : trim l ≠ []) : (trim l).getLast hl ≠ 0 := by
  intro h
  exact List.rdropWhile_last_not _ l hl (by simpa [trim] using h)

theorem trim_eq_nil_iff : trim l = [] ↔ value l = 0 := by
  rw [trim, List.rdropWhile_eq_nil_iff, value_eq_zero_iff]
  simp

theorem length_trim_le (l : List (BitVec w)) : (trim l).length ≤ l.length :=
  (List.rdropWhile_prefix _ l).length_le

/-! ### Zero extension -/

/-- Read a list at width `n`, with zeros past its end and words past `n` cut off. -/
def extend (n : ℕ) (l : List (BitVec w)) : List (BitVec w) :=
  l.take n ++ List.replicate (n - l.length) 0

@[simp] theorem length_extend (n : ℕ) (l : List (BitVec w)) : (extend n l).length = n := by
  rw [extend, List.length_append, List.length_take, List.length_replicate]
  omega

theorem value_extend {n : ℕ} (h : l.length ≤ n) : value (extend n l) = value l := by
  rw [extend, List.take_of_length_le h, value_append]
  simp

theorem value_extend_mod (n : ℕ) (l : List (BitVec w)) :
    value (extend n l) = value l % (2 ^ w) ^ n := by
  rcases le_total l.length n with h | h
  · rw [value_extend h, Nat.mod_eq_of_lt]
    exact lt_of_lt_of_le (value_lt l) (Nat.pow_le_pow_right (by positivity) h)
  · have hsplit : value l = value (l.take n) + (2 ^ w) ^ n * value (l.drop n) := by
      conv_lhs => rw [← List.take_append_drop n l]
      rw [value_append, List.length_take_of_le h]
    have hlt : value (l.take n) < (2 ^ w) ^ n := by
      simpa [List.length_take_of_le h] using value_lt (l.take n)
    rw [extend, Nat.sub_eq_zero_of_le h, List.replicate_zero, List.append_nil, hsplit,
      Nat.add_mul_mod_self_left, Nat.mod_eq_of_lt hlt]

/-- Compare two equally long lists from the most significant word down: the sign of the
first difference, `0` when there is none. -/
def compareWords : List (BitVec w) → List (BitVec w) → ℤ
  | x :: xs, y :: ys =>
    let high := compareWords xs ys
    if high ≠ 0 then high
    else if x ≠ y then if x.toNat > y.toNat then 1 else -1
    else 0
  | _, _ => 0

theorem value_cons_lt_of_lt (x y : BitVec w) (h : value l₁ < value l₂) :
    value (x :: l₁) < value (y :: l₂) := by
  have hx : x.toNat < 2 ^ w := x.isLt
  have hmul : 2 ^ w * (value l₁ + 1) ≤ 2 ^ w * value l₂ := Nat.mul_le_mul_left _ h
  rw [Nat.mul_add, Nat.mul_one] at hmul
  rw [value_cons, value_cons]
  omega

theorem compareWords_eq (hlen : l₁.length = l₂.length) :
    compareWords l₁ l₂ = Int.sign ((value l₁ : ℤ) - value l₂) := by
  induction l₁ generalizing l₂ with
  | nil =>
    obtain rfl := List.length_eq_zero_iff.mp hlen.symm
    simp [compareWords]
  | cons x l₁ ih =>
    cases l₂ with
    | nil => simp at hlen
    | cons y l₂ =>
      have hrec := @ih l₂ (by simpa using hlen)
      simp only [compareWords, hrec]
      rcases lt_trichotomy (value l₁) (value l₂) with h | h | h
      · have hcons := value_cons_lt_of_lt x y h
        rw [Int.sign_eq_neg_one_of_neg (by omega), if_pos (by decide),
          Int.sign_eq_neg_one_of_neg (by omega)]
      · rw [h, sub_self, Int.sign_zero, if_neg (by simp), value_cons, value_cons, h]
        by_cases hxy : x = y
        · simp [hxy]
        · rw [if_pos hxy]
          have hne : x.toNat ≠ y.toNat := fun he => hxy (BitVec.eq_of_toNat_eq he)
          split
          next hgt => rw [Int.sign_eq_one_of_pos (by push_cast; omega)]
          next hgt => rw [Int.sign_eq_neg_one_of_neg (by push_cast; omega)]
      · have hcons := value_cons_lt_of_lt y x h
        rw [Int.sign_eq_one_of_pos (by omega), if_pos (by decide),
          Int.sign_eq_one_of_pos (by omega)]

end Radix
