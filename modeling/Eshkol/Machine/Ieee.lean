import Mathlib.Data.Nat.Log
import Mathlib.Tactic.Linarith
import Mathlib.Tactic.Ring

/-!
# Binary Interchange Formats

The value of a bit pattern of an IEEE 754 binary format with `e` exponent bits and `p`
fraction bits. Finite values are counted in units of the least positive subnormal number,
so a conversion to a wider format multiplies by a power of two. Equality is equality of
values: no NaN equals anything, and the two zeros are equal.

## Main results

* `ieeeUnits_inj`: exponent and fraction are determined by the value.
* `eq_or_isZero_of_decode_eq`: equal patterns are the same pattern, or both zeros.
-/

namespace Machine

/-- What a bit pattern stands for. -/
inductive IeeeValue : Type
  | nan
  | infinite (negative : Bool)
  | finite (negative : Bool) (units : ℕ)
  deriving DecidableEq, Repr

/-- A finite magnitude in units of the least subnormal number. -/
def ieeeUnits (p exponent fraction : ℕ) : ℕ :=
  if exponent = 0 then fraction else (2 ^ p + fraction) * 2 ^ (exponent - 1)

/-- The value of a pattern with sign bit, `e` exponent bits and `p` fraction bits. -/
def ieeeDecode (e p bits : ℕ) : IeeeValue :=
  if bits / 2 ^ p % 2 ^ e = 2 ^ e - 1 then
    if bits % 2 ^ p = 0 then .infinite (decide (2 ^ (e + p) ≤ bits)) else .nan
  else .finite (decide (2 ^ (e + p) ≤ bits)) (ieeeUnits p (bits / 2 ^ p % 2 ^ e) (bits % 2 ^ p))

/-- Equality of values. -/
def IeeeValue.eq : IeeeValue → IeeeValue → Bool
  | infinite s, infinite t => s == t
  | finite s m, finite t n => m == n && (s == t || m == 0)
  | _, _ => false

/-- The same value in a format whose unit is smaller by the factor `k`. -/
def IeeeValue.scale (k : ℕ) : IeeeValue → IeeeValue
  | finite s m => finite s (m * k)
  | v => v

/-- The bits of a pattern below the sign are zero. -/
def ieeeIsZero (e p bits : ℕ) : Bool := bits % 2 ^ (e + p) = 0

theorem IeeeValue.scale_eq {k : ℕ} (hk : 0 < k) (v w : IeeeValue) :
    (v.scale k).eq (w.scale k) = v.eq w := by
  cases v with
  | nan => rfl
  | infinite s => cases w <;> rfl
  | finite s m =>
    cases w with
    | nan => rfl
    | infinite t => rfl
    | finite t n =>
      have hmn : (m * k == n * k) = (m == n) := by
        rw [Bool.eq_iff_iff, beq_iff_eq, beq_iff_eq, Nat.mul_left_inj hk.ne']
      have hm : (m * k == 0) = (m == 0) := by
        rw [Bool.eq_iff_iff, beq_iff_eq, beq_iff_eq, Nat.mul_eq_zero]
        exact or_iff_left hk.ne'
      rw [IeeeValue.scale, IeeeValue.scale, IeeeValue.eq, IeeeValue.eq, hmn, hm]

variable {e p : ℕ}

theorem ieeeUnits_bounds {exponent fraction : ℕ} (hf : fraction < 2 ^ p)
    (he : exponent ≠ 0) :
    2 ^ (p + (exponent - 1)) ≤ ieeeUnits p exponent fraction ∧
      ieeeUnits p exponent fraction < 2 ^ (p + (exponent - 1) + 1) := by
  rw [ieeeUnits, if_neg he]
  constructor
  · rw [pow_add]
    exact Nat.mul_le_mul_right _ (Nat.le_add_right _ _)
  · calc (2 ^ p + fraction) * 2 ^ (exponent - 1)
        < (2 ^ p + 2 ^ p) * 2 ^ (exponent - 1) :=
          Nat.mul_lt_mul_of_pos_right (by omega) (by positivity)
      _ = 2 ^ (p + (exponent - 1) + 1) := by ring

theorem ieeeUnits_inj {x f x' f' : ℕ} (hf : f < 2 ^ p) (hf' : f' < 2 ^ p)
    (h : ieeeUnits p x f = ieeeUnits p x' f') : x = x' ∧ f = f' := by
  have hlow : ∀ {y g : ℕ}, y ≠ 0 → g < 2 ^ p → 2 ^ p ≤ ieeeUnits p y g := by
    intro y g hy hg
    exact le_trans (Nat.pow_le_pow_right two_pos (Nat.le_add_right _ _))
      (ieeeUnits_bounds hg hy).1
  by_cases hx : x = 0
  · by_cases hx' : x' = 0
    · rw [ieeeUnits, ieeeUnits, if_pos hx, if_pos hx'] at h
      exact ⟨hx.trans hx'.symm, h⟩
    · have := hlow hx' hf'
      rw [← h, ieeeUnits, if_pos hx] at this
      omega
  · by_cases hx' : x' = 0
    · have := hlow hx hf
      rw [h, ieeeUnits, if_pos hx'] at this
      omega
    · -- both are normal, so the exponent is the logarithm
      have hlog : ∀ {y g : ℕ}, y ≠ 0 → g < 2 ^ p → Nat.log 2 (ieeeUnits p y g) = p + (y - 1) := by
        intro y g hy hg
        obtain ⟨hlo, hhi⟩ := ieeeUnits_bounds hg hy
        exact Nat.log_eq_of_pow_le_of_lt_pow hlo hhi
      have hxx : x = x' := by
        have h₁ := hlog hx hf
        rw [h, hlog hx' hf'] at h₁
        omega
      subst hxx
      rw [ieeeUnits, ieeeUnits, if_neg hx, if_neg hx] at h
      have := Nat.eq_of_mul_eq_mul_right (by positivity) h
      exact ⟨rfl, by omega⟩

theorem ieee_fields_inj {a b : ℕ} (ha : a < 2 ^ (e + p + 1)) (hb : b < 2 ^ (e + p + 1))
    (hs : 2 ^ (e + p) ≤ a ↔ 2 ^ (e + p) ≤ b) (hx : a / 2 ^ p % 2 ^ e = b / 2 ^ p % 2 ^ e)
    (hf : a % 2 ^ p = b % 2 ^ p) : a = b := by
  have hmod : ∀ c : ℕ, c % 2 ^ (e + p) = c / 2 ^ p % 2 ^ e * 2 ^ p + c % 2 ^ p := by
    intro c
    rw [Nat.add_comm e p, pow_add, Nat.mod_mul, Nat.add_comm, Nat.mul_comm]
  have hrest : a % 2 ^ (e + p) = b % 2 ^ (e + p) := by rw [hmod a, hmod b, hx, hf]
  have htop : ∀ {c : ℕ}, c < 2 ^ (e + p + 1) →
      c = (if 2 ^ (e + p) ≤ c then 2 ^ (e + p) else 0) + c % 2 ^ (e + p) := by
    intro c hc
    rw [pow_succ] at hc
    split
    next h =>
      rw [Nat.mod_eq_sub_mod h, Nat.mod_eq_of_lt (by omega)]
      omega
    next h => rw [Nat.mod_eq_of_lt (by omega), Nat.zero_add]
  rw [htop ha, htop hb, hrest]
  by_cases h : 2 ^ (e + p) ≤ a
  · rw [if_pos h, if_pos (hs.mp h)]
  · rw [if_neg h, if_neg (mt hs.mpr h)]

theorem ieeeIsZero_of_units {a : ℕ} (h : ieeeUnits p (a / 2 ^ p % 2 ^ e) (a % 2 ^ p) = 0) :
    ieeeIsZero e p a = true := by
  have hx : a / 2 ^ p % 2 ^ e = 0 := by
    by_contra hx
    have hlt : a % 2 ^ p < 2 ^ p := Nat.mod_lt a (by positivity)
    have hlo := (ieeeUnits_bounds hlt hx).1
    rw [h] at hlo
    have : 0 < 2 ^ (p + (a / 2 ^ p % 2 ^ e - 1)) := by positivity
    omega
  rw [ieeeUnits, if_pos hx] at h
  rw [ieeeIsZero, decide_eq_true_eq, Nat.add_comm e p, pow_add, Nat.mod_mul, hx, h]
  simp

theorem eq_or_isZero_of_decode_eq {a b : ℕ} (ha : a < 2 ^ (e + p + 1))
    (hb : b < 2 ^ (e + p + 1))
    (h : (ieeeDecode e p a).eq (ieeeDecode e p b) = true) :
    a = b ∨ ieeeIsZero e p a = true ∧ ieeeIsZero e p b = true := by
  rw [ieeeDecode, ieeeDecode] at h
  split_ifs at h with hxa hfa hxb hfb hxb hfb hxb
  · refine Or.inl (ieee_fields_inj ha hb ?_ (hxa.trans hxb.symm) (hfa.trans hfb.symm))
    simpa [IeeeValue.eq] using h
  · cases h
  · cases h
  · cases h
  · cases h
  · cases h
  · cases h
  · cases h
  · simp only [IeeeValue.eq, Bool.and_eq_true, beq_iff_eq, Bool.or_eq_true] at h
    obtain ⟨hunits, hsign | hzero⟩ := h
    · obtain ⟨hx, hf⟩ := ieeeUnits_inj (Nat.mod_lt a (by positivity))
        (Nat.mod_lt b (by positivity)) hunits
      exact Or.inl (ieee_fields_inj ha hb (by simpa using hsign) hx hf)
    · exact Or.inr ⟨ieeeIsZero_of_units hzero, ieeeIsZero_of_units (hunits ▸ hzero)⟩

end Machine
