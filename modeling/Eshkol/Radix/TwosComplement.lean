import Mathlib.Data.Int.Bitwise
import Eshkol.Radix.Arith

/-!
# Two's Complement

The bits of an integer in infinite two's complement are Mathlib's `Int.testBit`. A list of
`n` words of `w` bits holds an integer modulo `(2 ^ w) ^ n`, and is read back with the top
bit as the sign. Between the two, a bitwise operation on words is the bitwise operation on
integers, cut to the width of the list.
-/

namespace Radix

variable {w : ℕ}

/-! ### Bits of integers -/

theorem testBit_eq_decide (x : ℤ) (i : ℕ) : x.testBit i = decide (x / 2 ^ i % 2 = 1) := by
  cases x with
  | ofNat m =>
    rw [Int.testBit, Nat.testBit_eq_decide_div_mod_eq]
    congr 1
    have : (Int.ofNat m / 2 ^ i % 2 : ℤ) = ((m / 2 ^ i % 2 : ℕ) : ℤ) := by push_cast; rfl
    rw [this]
    exact propext (by omega)
  | negSucc m =>
    rw [Int.testBit, Nat.testBit_eq_decide_div_mod_eq, ← decide_not]
    congr 1
    have hdiv : Int.negSucc m / 2 ^ i = -((m / 2 ^ i : ℕ) : ℤ) - 1 := by
      rw [Int.negSucc_ediv m (by positivity : (0 : ℤ) < 2 ^ i)]
      change -((m : ℤ) / 2 ^ i + 1) = _
      push_cast
      ring
    rw [hdiv]
    exact propext (by omega)

theorem testBit_ediv (x : ℤ) (k i : ℕ) : (x / 2 ^ k).testBit i = x.testBit (i + k) := by
  rw [testBit_eq_decide, testBit_eq_decide, Int.ediv_ediv_of_nonneg (by positivity), ← pow_add,
    Nat.add_comm]

theorem eq_of_testBit_eq {x y : ℤ} (h : ∀ i, x.testBit i = y.testBit i) : x = y := by
  have hhigh : ∀ m k : ℕ, m ≤ k → Nat.testBit m k = false := fun m k hle =>
    Nat.testBit_eq_false_of_lt (lt_of_le_of_lt hle Nat.lt_two_pow_self)
  cases x with
  | ofNat m =>
    cases y with
    | ofNat m' => exact congrArg Int.ofNat (Nat.eq_of_testBit_eq h)
    | negSucc m' =>
      have hi := h (m + m')
      simp [Int.testBit, hhigh m _ (Nat.le_add_right m m'), hhigh m' _ (Nat.le_add_left m' m)] at hi
  | negSucc m =>
    cases y with
    | ofNat m' =>
      have hi := h (m + m')
      simp [Int.testBit, hhigh m _ (Nat.le_add_right m m'), hhigh m' _ (Nat.le_add_left m' m)] at hi
    | negSucc m' =>
      refine congrArg Int.negSucc (Nat.eq_of_testBit_eq fun i => ?_)
      simpa [Int.testBit] using h i

theorem bitwise_ediv (f : Bool → Bool → Bool) (x y : ℤ) (k : ℕ) :
    Int.bitwise f x y / 2 ^ k = Int.bitwise f (x / 2 ^ k) (y / 2 ^ k) := by
  apply eq_of_testBit_eq
  intro i
  rw [testBit_ediv, Int.testBit_bitwise, Int.testBit_bitwise, testBit_ediv, testBit_ediv]

variable {i : ℕ} {l : List (BitVec w)} {op : BitVec w → BitVec w → BitVec w}
  {f : Bool → Bool → Bool}

theorem testBit_emod (x : ℤ) {k : ℕ} (hi : i < k) : (x % 2 ^ k).toNat.testBit i = x.testBit i := by
  have hnonneg : 0 ≤ x % 2 ^ k := Int.emod_nonneg x (by positivity)
  have hbit : (x % 2 ^ k).toNat.testBit i = (x % 2 ^ k).testBit i := by
    conv_rhs => rw [← Int.toNat_of_nonneg hnonneg]
    rfl
  rw [hbit, testBit_eq_decide, testBit_eq_decide]
  congr 1
  have hsplit : (2 : ℤ) ^ k = 2 ^ i * 2 * 2 ^ (k - i - 1) := by
    rw [← pow_succ, ← pow_add]
    congr 1
    omega
  have hx : x / 2 ^ i = x % 2 ^ k / 2 ^ i + 2 * (2 ^ (k - i - 1) * (x / 2 ^ k)) := by
    conv_lhs => rw [← Int.emod_add_mul_ediv x (2 ^ k)]
    rw [show (2 : ℤ) ^ k * (x / 2 ^ k) = 2 ^ i * (2 * (2 ^ (k - i - 1) * (x / 2 ^ k))) by
      rw [hsplit]; ring, Int.add_mul_ediv_left _ _ (by positivity)]
  rw [hx]
  exact propext (by omega)

theorem testBit_neg_sub_one (x : ℤ) (i : ℕ) : (-x - 1).testBit i = !x.testBit i := by
  cases x with
  | ofNat m =>
    rw [show -Int.ofNat m - 1 = Int.negSucc m by rw [Int.negSucc_eq]; simp; ring]
    rfl
  | negSucc m =>
    rw [show -Int.negSucc m - 1 = Int.ofNat m by rw [Int.negSucc_eq]; simp]
    simp [Int.testBit]

/-! ### Negation of word lists -/

/-- `~x` plus the carry. -/
def negateStep (carry : ℕ) (x : BitVec w) : BitVec w × ℕ :=
  let sum := ((~~~x).toNat + carry) % 2 ^ (2 * w)
  (BitVec.ofNat w sum, sum / 2 ^ w)

/-- Flip all bits and add one. -/
def negate (l : List (BitVec w)) : List (BitVec w) := (ripple negateStep l 1).1

@[simp] theorem length_negate (l : List (BitVec w)) : (negate l).length = l.length :=
  length_ripple _ _ _

theorem value_ripple_negateStep (hw : 0 < w) (l : List (BitVec w)) :
    value (negate l) + (2 ^ w) ^ l.length * (ripple negateStep l 1).2 + value l
      = (2 ^ w) ^ l.length := by
  have hspec := ripple_spec negateStep l (fun x => (2 ^ w - 1 : ℤ) - x.toNat) (fun s => (s : ℤ))
    (fun s => s ≤ 1)
    (by
      intro s x _ hs
      have hx := x.isLt
      have hlt : (2 ^ w - 1 - x.toNat) + s < 2 * 2 ^ w := by omega
      have hsq : 2 * 2 ^ w ≤ 2 ^ (2 * w) := by
        rw [two_pow_two_mul]
        exact Nat.mul_le_mul_right _ (Nat.le_self_pow hw.ne' 2)
      have hval := toNat_ofNat_add_mul_div (w := w) ((2 ^ w - 1 - x.toNat) + s)
      simp only [negateStep, BitVec.toNat_not, Nat.mod_eq_of_lt (lt_of_lt_of_le hlt hsq)]
      refine ⟨Nat.lt_succ_iff.mp (Nat.div_lt_of_lt_mul (by rwa [Nat.mul_comm])), ?_⟩
      have hcast : ((2 ^ w - 1 - x.toNat : ℕ) : ℤ) = (2 ^ w - 1 : ℤ) - x.toNat := by
        rw [Nat.cast_sub (by omega), Nat.cast_sub Nat.one_le_two_pow]
        push_cast
        ring
      rw [← hcast]
      exact_mod_cast hval)
    (s := 1) le_rfl
  -- All-ones words weigh one less than the next power.
  have hones : weigh w (fun x => (2 ^ w - 1 : ℤ) - (x.toNat : ℤ)) l
      = ((2 ^ w) ^ l.length - 1) - value l := by
    clear hspec
    induction l with
    | nil => simp
    | cons x l ih =>
      rw [weigh_cons, ih, value_cons, List.length_cons, pow_succ]
      push_cast
      ring
  have h := hspec.2
  rw [hones] at h
  have hgoal : (value (negate l) : ℤ) + (2 ^ w) ^ l.length * (ripple negateStep l 1).2 + value l
      = (2 ^ w) ^ l.length := by
    rw [negate]
    push_cast at h
    linarith
  exact_mod_cast hgoal

theorem value_negate (hw : 0 < w) (l : List (BitVec w)) :
    (value (negate l) : ℤ) = (-(value l : ℤ)) % (2 ^ w) ^ l.length := by
  have h := value_ripple_negateStep hw l
  have hlt : value (negate l) < (2 ^ w) ^ l.length := by simpa using value_lt (negate l)
  have h' : (value (negate l) : ℤ) + (2 ^ w) ^ l.length * (ripple negateStep l 1).2 + value l
      = (2 ^ w) ^ l.length := by exact_mod_cast h
  have hlt' : (value (negate l) : ℤ) < (2 ^ w) ^ l.length := by exact_mod_cast hlt
  have hneg : -(value l : ℤ)
      = value (negate l) + (2 ^ w) ^ l.length * ((ripple negateStep l 1).2 - 1) := by linarith
  rw [hneg, Int.add_mul_emod_self_left, Int.emod_eq_of_lt (by positivity) hlt']

theorem value_negate_add (hw : 0 < w) (hl : value l ≠ 0) :
    value (negate l) + value l = (2 ^ w) ^ l.length := by
  have h := value_ripple_negateStep hw l
  have hnoc : (ripple negateStep l 1).2 = 0 := by
    by_contra hne
    have : (2 ^ w) ^ l.length * 1 ≤ (2 ^ w) ^ l.length * (ripple negateStep l 1).2 :=
      Nat.mul_le_mul_left _ (Nat.one_le_iff_ne_zero.mpr hne)
    omega
  rwa [hnoc, Nat.mul_zero, Nat.add_zero] at h

theorem value_negate_append_allOnes (hw : 0 < w) (hl : value l ≠ 0) (k : ℕ) :
    (value (negate l ++ List.replicate k (BitVec.allOnes w)) : ℤ)
      = (-(value l : ℤ)) % (2 ^ w) ^ (l.length + k) := by
  have h := value_negate_add hw hl
  have hones : value (List.replicate k (BitVec.allOnes w)) + 1 = (2 ^ w) ^ k := by
    induction k with
    | zero => simp
    | succ k ih =>
      rw [List.replicate_succ, value_cons, BitVec.toNat_allOnes, pow_succ, ← ih]
      have : 1 ≤ 2 ^ w := Nat.one_le_two_pow
      rw [Nat.add_mul, Nat.one_mul, Nat.mul_comm]
      omega
  have hval : value (negate l ++ List.replicate k (BitVec.allOnes w)) + value l
      = (2 ^ w) ^ (l.length + k) := by
    rw [value_append, length_negate, pow_add, ← hones]
    calc value (negate l) + (2 ^ w) ^ l.length * value (List.replicate k (BitVec.allOnes w))
          + value l
        = (value (negate l) + value l)
          + (2 ^ w) ^ l.length * value (List.replicate k (BitVec.allOnes w)) := by ring
      _ = _ := by rw [h]; ring
  have hval' : (value (negate l ++ List.replicate k (BitVec.allOnes w)) : ℤ) + value l
      = (2 ^ w) ^ (l.length + k) := by exact_mod_cast hval
  have hpos : (0 : ℤ) < value l := by exact_mod_cast Nat.pos_of_ne_zero hl
  rw [show -(value l : ℤ) = value (negate l ++ List.replicate k (BitVec.allOnes w))
    + (2 ^ w) ^ (l.length + k) * (-1) by linarith, Int.add_mul_emod_self_left,
    Int.emod_eq_of_lt (by positivity) (by linarith)]

/-! ### Word-by-word operations -/

theorem testBit_value_cons (x : BitVec w) (l : List (BitVec w)) (i : ℕ) :
    (value (x :: l)).testBit i = if i < w then x.getLsbD i else (value l).testBit (i - w) := by
  rw [value_cons, Nat.add_comm, Nat.testBit_two_pow_mul_add _ x.isLt]
  rfl

theorem testBit_value_zipWith
    (hop : ∀ x y i, i < w → (op x y).getLsbD i = f (x.getLsbD i) (y.getLsbD i))
    {l₁ l₂ : List (BitVec w)} (hlen : l₁.length = l₂.length) (hi : i < w * l₁.length) :
    (value (List.zipWith op l₁ l₂)).testBit i
      = f ((value l₁).testBit i) ((value l₂).testBit i) := by
  induction l₁ generalizing l₂ i with
  | nil => simp at hi
  | cons x l₁ ih =>
    cases l₂ with
    | nil => simp at hlen
    | cons y l₂ =>
      rw [List.zipWith_cons_cons, testBit_value_cons, testBit_value_cons, testBit_value_cons]
      split
      next h => exact hop x y i h
      next h =>
          rw [List.length_cons, Nat.mul_add, Nat.mul_one] at hi
          exact ih (by simpa using hlen) (by omega)

/-- A bitwise operation on words is one on their two's complement values. -/
theorem value_zipWith {op : BitVec w → BitVec w → BitVec w} {f : Bool → Bool → Bool}
    (hop : ∀ x y i, i < w → (op x y).getLsbD i = f (x.getLsbD i) (y.getLsbD i))
    {l₁ l₂ : List (BitVec w)} {x y : ℤ} (hlen : l₁.length = l₂.length)
    (h₁ : (value l₁ : ℤ) = x % (2 ^ w) ^ l₁.length)
    (h₂ : (value l₂ : ℤ) = y % (2 ^ w) ^ l₂.length) :
    (value (List.zipWith op l₁ l₂) : ℤ) = Int.bitwise f x y % (2 ^ w) ^ l₁.length := by
  have hpow : ∀ n : ℕ, ((2 : ℤ) ^ w) ^ n = 2 ^ (w * n) := fun n => (pow_mul _ _ _).symm
  rw [hpow] at h₁ h₂ ⊢
  have hz : 0 ≤ Int.bitwise f x y % 2 ^ (w * l₁.length) := Int.emod_nonneg _ (by positivity)
  have hx : value l₁ = (x % 2 ^ (w * l₁.length)).toNat := by omega
  have hy : value l₂ = (y % 2 ^ (w * l₁.length)).toNat := by
    rw [← hlen] at h₂
    omega
  have hnat : value (List.zipWith op l₁ l₂)
      = (Int.bitwise f x y % 2 ^ (w * l₁.length)).toNat := by
    apply Nat.eq_of_testBit_eq
    intro i
    by_cases hi : i < w * l₁.length
    · rw [testBit_value_zipWith hop hlen hi, hx, hy, testBit_emod _ hi, testBit_emod _ hi,
        testBit_emod _ hi, Int.testBit_bitwise]
    · have hbig : (2 : ℕ) ^ (w * l₁.length) ≤ 2 ^ i := Nat.pow_le_pow_right (by omega) (by omega)
      have hlt : value (List.zipWith op l₁ l₂) < 2 ^ (w * l₁.length) := by
        have := value_lt (List.zipWith op l₁ l₂)
        rwa [List.length_zipWith, ← hlen, Nat.min_self, ← pow_mul] at this
      have hlt' : (Int.bitwise f x y % 2 ^ (w * l₁.length)).toNat < 2 ^ (w * l₁.length) := by
        have h3 : Int.bitwise f x y % 2 ^ (w * l₁.length) < 2 ^ (w * l₁.length) :=
          Int.emod_lt_of_pos _ (by positivity)
        have h4 : ((2 ^ (w * l₁.length) : ℕ) : ℤ) = 2 ^ (w * l₁.length) := by push_cast; rfl
        omega
      rw [Nat.testBit_eq_false_of_lt (by omega), Nat.testBit_eq_false_of_lt (by omega)]
  rw [hnat, Int.toNat_of_nonneg hz]

theorem testBit_value_of_le (hi : w * l.length ≤ i) : (value l).testBit i = false := by
  refine Nat.testBit_eq_false_of_lt (lt_of_lt_of_le (value_lt l) ?_)
  rw [← pow_mul]
  exact Nat.pow_le_pow_right (by omega) hi

/-- An operation applied to the first `n` words of two lists, a missing word read as zero. -/
def wordwise (op : BitVec w → BitVec w → BitVec w) (n : ℕ) (l₁ l₂ : List (BitVec w)) :
    List (BitVec w) :=
  List.zipWith op (extend n l₁) (extend n l₂)

theorem testBit_value_wordwise
    (hop : ∀ x y i, i < w → (op x y).getLsbD i = f (x.getLsbD i) (y.getLsbD i)) (n : ℕ)
    (l₁ l₂ : List (BitVec w)) (i : ℕ) :
    (value (wordwise op n l₁ l₂)).testBit i
      = (decide (i < w * n) && f ((value l₁).testBit i) ((value l₂).testBit i)) := by
  by_cases hi : i < w * n
  · rw [wordwise, testBit_value_zipWith hop (by simp) (by simpa using hi), value_extend_mod,
      value_extend_mod, ← pow_mul, Nat.testBit_mod_two_pow, Nat.testBit_mod_two_pow]
    simp [hi]
  · rw [testBit_value_of_le (by simpa [wordwise] using not_lt.mp hi)]
    simp [hi]

/-- The value of a word list with its top bit as the sign. -/
def signedValue (l : List (BitVec w)) : ℤ :=
  if 2 * value l < (2 ^ w) ^ l.length then value l else (value l : ℤ) - (2 ^ w) ^ l.length

theorem signedValue_eq_iff (hw : 0 < w) (hl : l ≠ []) {z : ℤ}
    (h : (value l : ℤ) = z % (2 ^ w) ^ l.length) :
    signedValue l = z ↔ z / 2 ^ (w * l.length - 1) = 0 ∨ z / 2 ^ (w * l.length - 1) = -1 := by
  have hN : 0 < w * l.length := Nat.mul_pos hw (List.length_pos_iff.mpr hl)
  set N := w * l.length with hNdef
  set H : ℤ := 2 ^ (N - 1) with hH
  have hHpos : 0 < H := by positivity
  have hpow : ((2 : ℤ) ^ w) ^ l.length = 2 * H := by
    rw [← pow_mul, ← hNdef, hH, ← pow_succ']
    congr 1
    omega
  have hcond : 2 * value l < (2 ^ w) ^ l.length ↔ (value l : ℤ) < H := by
    have : (2 * value l : ℕ) < (2 ^ w) ^ l.length ↔ ((2 * value l : ℕ) : ℤ) < 2 * H := by
      rw [← hpow]
      exact_mod_cast Iff.rfl
    rw [this]
    push_cast
    omega
  have hrange : (z / H = 0 ∨ z / H = -1) ↔ -H ≤ z ∧ z < H := by
    rw [Int.ediv_eq_iff_of_pos hHpos, Int.ediv_eq_iff_of_pos hHpos]
    omega
  rw [hrange, signedValue]
  simp only [hcond, hpow] at h ⊢
  have hlo : 0 ≤ z % (2 * H) := Int.emod_nonneg _ (by omega)
  have hhi : z % (2 * H) < 2 * H := Int.emod_lt_of_pos _ (by omega)
  have hz := Int.emod_add_mul_ediv z (2 * H)
  rw [h]
  constructor
  · intro he
    split at he <;> omega
  · rintro ⟨h1, h2⟩
    by_cases hneg : z < 0
    · rw [show z % (2 * H) = z + 2 * H by
        rw [← Int.add_emod_right, Int.emod_eq_of_lt (by omega) (by omega)], if_neg (by omega)]
      ring
    · rw [Int.emod_eq_of_lt (by omega) (by omega), if_pos (by omega)]

end Radix
