import Mathlib.Data.Nat.BitIndices
import Eshkol.Radix.Arith

/-!
# Counting One Bits

The number of one bits of a natural number, and the count of a 64-bit word by adding neighbouring
fields: two bits, then two pairs, then two nibbles, and at last all bytes at once by a
multiplication. A number is read as fields of `k` bits; a mask with every second field set picks
the fields in even places.
-/

namespace Radix

/-- The number of one bits. -/
def bitCount (n : ℕ) : ℕ := n.bitIndices.length

@[simp] theorem bitCount_zero : bitCount 0 = 0 := by
  rw [bitCount, Nat.bitIndices_zero, List.length_nil]

theorem bitCount_div_two (n : ℕ) : bitCount n = n % 2 + bitCount (n / 2) := by
  rcases Nat.even_or_odd' n with ⟨m, rfl | rfl⟩
  · rw [bitCount, Nat.bitIndices_two_mul, List.length_map, Nat.mul_mod_right,
      Nat.mul_div_cancel_left m two_pos, Nat.zero_add, bitCount]
  · rw [bitCount, Nat.bitIndices_two_mul_add_one, List.length_cons, List.length_map,
      show (2 * m + 1) % 2 = 1 by omega, show (2 * m + 1) / 2 = m by omega, Nat.add_comm, bitCount]

variable {k n v : ℕ}

theorem bitCount_add {a : ℕ} (ha : a < 2 ^ k) (b : ℕ) :
    bitCount (a + 2 ^ k * b) = bitCount a + bitCount b := by
  induction k generalizing a with
  | zero =>
    rw [pow_zero, Nat.lt_one_iff] at ha
    rw [ha, pow_zero, one_mul, Nat.zero_add, bitCount_zero, Nat.zero_add]
  | succ k ih =>
    have hsum : a + 2 ^ (k + 1) * b = a + 2 * (2 ^ k * b) := by
      rw [pow_succ']
      ring
    rw [bitCount_div_two, bitCount_div_two a, hsum, Nat.add_mul_mod_self_left,
      Nat.add_mul_div_left _ _ two_pos, ih (by rw [pow_succ] at ha; omega)]
    ring

theorem bitCount_le (h : n < 2 ^ k) : bitCount n ≤ k := by
  induction k generalizing n with
  | zero =>
    rw [pow_zero, Nat.lt_one_iff] at h
    rw [h, bitCount_zero]
  | succ k ih =>
    have hhalf := @ih (n / 2) (by rw [pow_succ] at h; omega)
    rw [bitCount_div_two]
    omega

/-! ### Lists of words -/

section

variable {w : ℕ}

theorem bitCount_value (l : List (BitVec w)) :
    bitCount (value l) = (l.map fun x => bitCount x.toNat).sum := by
  induction l with
  | nil => rw [value_nil, bitCount_zero, List.map_nil, List.sum_nil]
  | cons x l ih => rw [value_cons, bitCount_add x.isLt, ih, List.map_cons, List.sum_cons]

theorem bitCount_value_le (l : List (BitVec w)) : bitCount (value l) ≤ w * l.length := by
  refine bitCount_le ?_
  rw [pow_mul]
  exact value_lt l

/-- One less than a list of words: the borrow goes on from a zero word. -/
def decrement : List (BitVec w) → List (BitVec w)
  | [] => []
  | x :: l => if x = 0 then BitVec.allOnes w :: decrement l else (x - 1) :: l

theorem value_decrement {l : List (BitVec w)} (h : value l ≠ 0) :
    value (decrement l) + 1 = value l := by
  induction l with
  | nil => exact absurd value_nil h
  | cons x l ih =>
    have hw : 0 < 2 ^ w := by positivity
    rw [decrement]
    split
    next hx =>
        have hx0 : x.toNat = 0 := by rw [hx]; exact BitVec.toNat_zero
        rw [value_cons, hx0, Nat.zero_add] at h
        have hrest := ih fun h0 => h (by rw [h0, Nat.mul_zero])
        rw [value_cons, value_cons, hx0, BitVec.toNat_allOnes, ← hrest, Nat.mul_add]
        omega
    next hx =>
        have hpos : x.toNat ≠ 0 := fun h0 => hx (BitVec.eq_of_toNat_eq h0)
        have hlt := x.isLt
        have hone : (1 : BitVec w).toNat = 1 := Nat.mod_eq_of_lt (show 1 < 2 ^ w by omega)
        have hle : (1 : BitVec w) ≤ x := by
          rw [BitVec.le_def, hone]
          omega
        rw [value_cons, value_cons, BitVec.toNat_sub_of_le hle, hone]
        omega

end

/-! ### Neighbouring fields -/

/-- The fields in even places, each in its place, of `n` pairs of fields of `k` bits. -/
def evenFields (k : ℕ) : ℕ → ℕ → ℕ
  | 0, _ => 0
  | n + 1, v => v % 2 ^ k + 2 ^ (2 * k) * evenFields k n (v / 2 ^ (2 * k))

/-- The mask of the fields in even places. -/
def fieldMask (k : ℕ) : ℕ → ℕ
  | 0 => 0
  | n + 1 => 2 ^ k - 1 + 2 ^ (2 * k) * fieldMask k n

/-- The sum of `n` fields of `k` bits. -/
def fieldSum (k : ℕ) : ℕ → ℕ → ℕ
  | 0, _ => 0
  | n + 1, v => v % 2 ^ k + fieldSum k n (v / 2 ^ k)

theorem and_fieldMask (k n v : ℕ) : v &&& fieldMask k n = evenFields k n v := by
  induction n generalizing v with
  | zero => rw [fieldMask, evenFields, Nat.and_zero]
  | succ n ih =>
    have hpos : 0 < 2 ^ (2 * k) := by positivity
    have hlt : 2 ^ k - 1 < 2 ^ (2 * k) := by
      have : 2 ^ k ≤ 2 ^ (2 * k) := Nat.pow_le_pow_right two_pos (by omega)
      omega
    have hmod : fieldMask k (n + 1) % 2 ^ (2 * k) = 2 ^ k - 1 := by
      rw [fieldMask, Nat.add_mul_mod_self_left, Nat.mod_eq_of_lt hlt]
    have hdiv : fieldMask k (n + 1) / 2 ^ (2 * k) = fieldMask k n := by
      rw [fieldMask, Nat.add_mul_div_left _ _ hpos, Nat.div_eq_of_lt hlt, Nat.zero_add]
    have hdvd : 2 ^ k ∣ 2 ^ (2 * k) := pow_dvd_pow 2 (by omega)
    rw [← Nat.mod_add_div (v &&& fieldMask k (n + 1)) (2 ^ (2 * k)), Nat.and_mod_two_pow,
      Nat.and_div_two_pow, hmod, hdiv, ih, Nat.and_two_pow_sub_one_eq_mod,
      Nat.mod_mod_of_dvd _ hdvd, evenFields]

theorem div_two_pow_comm (k v : ℕ) : v / 2 ^ k / 2 ^ (2 * k) = v / 2 ^ (2 * k) / 2 ^ k := by
  rw [Nat.div_div_eq_div_mul, Nat.mul_comm, ← Nat.div_div_eq_div_mul]

theorem evenFields_add_odd (hv : v < 2 ^ (2 * k * n)) :
    evenFields k n v + 2 ^ k * evenFields k n (v / 2 ^ k) = v := by
  induction n generalizing v with
  | zero =>
    rw [Nat.mul_zero, pow_zero, Nat.lt_one_iff] at hv
    rw [hv, evenFields, evenFields, Nat.mul_zero]
  | succ n ih =>
    have hrest := @ih (v / 2 ^ (2 * k)) (Nat.div_lt_of_lt_mul (by
      rw [← pow_add, show 2 * k + 2 * k * n = 2 * k * (n + 1) by ring]
      exact hv))
    have hlow : v / 2 ^ k / 2 ^ k = v / 2 ^ (2 * k) := by
      rw [Nat.div_div_eq_div_mul, two_pow_two_mul]
    rw [evenFields, evenFields, div_two_pow_comm]
    calc v % 2 ^ k + 2 ^ (2 * k) * evenFields k n (v / 2 ^ (2 * k))
          + 2 ^ k * (v / 2 ^ k % 2 ^ k + 2 ^ (2 * k) * evenFields k n (v / 2 ^ (2 * k) / 2 ^ k))
        = v % 2 ^ k + 2 ^ k * (v / 2 ^ k % 2 ^ k) + 2 ^ (2 * k)
            * (evenFields k n (v / 2 ^ (2 * k))
              + 2 ^ k * evenFields k n (v / 2 ^ (2 * k) / 2 ^ k)) := by ring
      _ = v % 2 ^ k + 2 ^ k * (v / 2 ^ k % 2 ^ k + 2 ^ k * (v / 2 ^ k / 2 ^ k)) := by
          rw [hrest, hlow, two_pow_two_mul]
          ring
      _ = v := by rw [Nat.mod_add_div, Nat.mod_add_div]

theorem evenFields_succ_add (k n v : ℕ) :
    evenFields k (n + 1) v + evenFields k (n + 1) (v / 2 ^ k)
      = v % 2 ^ k + v / 2 ^ k % 2 ^ k + 2 ^ (2 * k)
        * (evenFields k n (v / 2 ^ (2 * k)) + evenFields k n (v / 2 ^ (2 * k) / 2 ^ k)) := by
  rw [evenFields, evenFields, div_two_pow_comm]
  ring

theorem pair_lt (hk : 0 < k) (v : ℕ) : v % 2 ^ k + v / 2 ^ k % 2 ^ k < 2 ^ (2 * k) := by
  have h0 := Nat.mod_lt v (by positivity : 0 < 2 ^ k)
  have h1 := Nat.mod_lt (v / 2 ^ k) (by positivity : 0 < 2 ^ k)
  have htwo : 2 ≤ 2 ^ k := by
    calc 2 = 2 ^ 1 := (pow_one 2).symm
      _ ≤ 2 ^ k := Nat.pow_le_pow_right two_pos hk
  calc v % 2 ^ k + v / 2 ^ k % 2 ^ k < 2 * 2 ^ k := by omega
    _ ≤ 2 ^ (2 * k) := by rw [two_pow_two_mul]; exact Nat.mul_le_mul_right _ htwo

theorem fieldSum_pairs (hk : 0 < k) (n v : ℕ) :
    fieldSum (2 * k) n (evenFields k n v + evenFields k n (v / 2 ^ k)) = fieldSum k (2 * n) v := by
  have hpos : 0 < 2 ^ (2 * k) := by positivity
  induction n generalizing v with
  | zero => rfl
  | succ n ih =>
    have hlt := pair_lt hk v
    have hlow : v / 2 ^ k / 2 ^ k = v / 2 ^ (2 * k) := by
      rw [Nat.div_div_eq_div_mul, two_pow_two_mul]
    rw [evenFields_succ_add, fieldSum, Nat.add_mul_mod_self_left, Nat.mod_eq_of_lt hlt,
      Nat.add_mul_div_left _ _ hpos, Nat.div_eq_of_lt hlt, Nat.zero_add, ih,
      show 2 * (n + 1) = 2 * n + 1 + 1 by ring, fieldSum, fieldSum, hlow, Nat.add_assoc]

theorem fieldSum_one (hv : v < 2 ^ n) : fieldSum 1 n v = bitCount v := by
  induction n generalizing v with
  | zero =>
    rw [pow_zero, Nat.lt_one_iff] at hv
    rw [hv, fieldSum, bitCount_zero]
  | succ n ih =>
    rw [fieldSum, pow_one, ih (by rw [pow_succ] at hv; omega), bitCount_div_two v]

theorem pairs_le (hk : 0 < k) (n v i : ℕ) :
    (evenFields k n v + evenFields k n (v / 2 ^ k)) / (2 ^ (2 * k)) ^ i % 2 ^ (2 * k)
      ≤ 2 * (2 ^ k - 1) := by
  have hpos : 0 < 2 ^ (2 * k) := by positivity
  induction n generalizing v i with
  | zero => simp [evenFields]
  | succ n ih =>
    rw [evenFields_succ_add]
    have hlt := pair_lt hk v
    cases i with
    | zero =>
      have h0 := Nat.mod_lt v (by positivity : 0 < 2 ^ k)
      have h1 := Nat.mod_lt (v / 2 ^ k) (by positivity : 0 < 2 ^ k)
      rw [pow_zero, Nat.div_one, Nat.add_mul_mod_self_left, Nat.mod_eq_of_lt hlt]
      omega
    | succ i =>
      rw [pow_succ', ← Nat.div_div_eq_div_mul, Nat.add_mul_div_left _ _ hpos,
        Nat.div_eq_of_lt hlt, Nat.zero_add]
      exact ih _ _

/-! ### A word of 64 bits -/

theorem evenFields_nibbles (h : ∀ i, v / 16 ^ i % 16 ≤ 7) (n : ℕ) :
    evenFields 4 n (v + v / 16) = evenFields 4 n v + evenFields 4 n (v / 16) := by
  induction n generalizing v with
  | zero => rfl
  | succ n ih =>
    have h0 := h 0
    have h1 := h 1
    have h2 := h 2
    rw [pow_zero, Nat.div_one] at h0
    rw [pow_one] at h1
    rw [show 16 ^ 2 = 256 by norm_num] at h2
    have hrest := @ih (v / 256) fun i => by
      have := h (i + 2)
      rwa [pow_add, show 16 ^ 2 = 256 by norm_num, Nat.mul_comm, ← Nat.div_div_eq_div_mul] at this
    have hbyte : v / 16 / 16 = v / 256 := Nat.div_div_eq_div_mul v 16 16
    have hcomm : v / 16 / 256 = v / 256 / 16 := div_two_pow_comm 4 v
    have hdiv : (v + v / 16) / 256 = v / 256 + v / 256 / 16 := by omega
    have hmod : (v + v / 16) % 16 = v % 16 + v / 16 % 16 := by omega
    change (v + v / 16) % 16 + 256 * evenFields 4 n ((v + v / 16) / 256)
      = v % 16 + 256 * evenFields 4 n (v / 256)
        + (v / 16 % 16 + 256 * evenFields 4 n (v / 16 / 256))
    rw [hdiv, hmod, hrest, hcomm]
    ring

/-- The top byte of the product with `0x01...01` is the sum of the bytes: the byte in place `j` of
the product is the sum of the bytes up to that place. -/
theorem topByte_eq {a b c d e f g h : ℕ} (ha : a ≤ 30) (hb : b ≤ 30) (hc : c ≤ 30) (hd : d ≤ 30)
    (he : e ≤ 30) (hf : f ≤ 30) (hg : g ≤ 30) (hh : h ≤ 30) :
    (a + 256 * (b + 256 * (c + 256 * (d + 256 * (e + 256 * (f + 256 * (g + 256 * h)))))))
      * 0x0101010101010101 % 2 ^ 64 / 2 ^ 56
      = a + (b + (c + (d + (e + (f + (g + h)))))) := by
  have hprod : (a + 256 * (b + 256 * (c + 256 * (d + 256 * (e + 256 * (f + 256 * (g + 256 * h)))))))
      * 0x0101010101010101
      = (a + 256 * (a + b) + 256 ^ 2 * (a + b + c) + 256 ^ 3 * (a + b + c + d)
          + 256 ^ 4 * (a + b + c + d + e) + 256 ^ 5 * (a + b + c + d + e + f)
          + 256 ^ 6 * (a + b + c + d + e + f + g))
        + 2 ^ 56 * ((a + (b + (c + (d + (e + (f + (g + h))))))) + 256
          * ((b + c + d + e + f + g + h) + 256 * (c + d + e + f + g + h)
            + 256 ^ 2 * (d + e + f + g + h) + 256 ^ 3 * (e + f + g + h) + 256 ^ 4 * (f + g + h)
            + 256 ^ 5 * (g + h) + 256 ^ 6 * h)) := by ring
  rw [hprod, show 2 ^ 64 = 2 ^ 56 * 256 by norm_num, Nat.mod_mul_right_div_self,
    Nat.add_mul_div_left _ _ (by positivity), Nat.div_eq_of_lt (by omega), Nat.zero_add,
    Nat.add_mul_mod_self_left, Nat.mod_eq_of_lt (by omega)]

theorem fieldSum_topByte {u : ℕ} (hu : u < 2 ^ 64) (h : ∀ i, u / 256 ^ i % 256 ≤ 30) :
    u * 0x0101010101010101 % 2 ^ 64 / 2 ^ 56 = fieldSum 8 8 u := by
  have hdiv (i : ℕ) : u / 256 ^ (i + 1) = u / 256 ^ i / 256 := by
    rw [pow_succ, Nat.div_div_eq_div_mul]
  have hsplit (i : ℕ) : u / 256 ^ i = u / 256 ^ i % 256 + 256 * (u / 256 ^ (i + 1)) := by
    rw [hdiv, Nat.mod_add_div]
  have hword : u = u / 256 ^ 0 % 256 + 256 * (u / 256 ^ 1 % 256 + 256 * (u / 256 ^ 2 % 256
      + 256 * (u / 256 ^ 3 % 256 + 256 * (u / 256 ^ 4 % 256 + 256 * (u / 256 ^ 5 % 256
      + 256 * (u / 256 ^ 6 % 256 + 256 * (u / 256 ^ 7 % 256))))))) := by
    have htop : u / 256 ^ 7 % 256 = u / 256 ^ 7 := Nat.mod_eq_of_lt (by omega)
    rw [htop, ← hsplit 6, ← hsplit 5, ← hsplit 4, ← hsplit 3, ← hsplit 2, ← hsplit 1, ← hsplit 0,
      pow_zero, Nat.div_one]
  conv_lhs => rw [hword]
  rw [topByte_eq (h 0) (h 1) (h 2) (h 3) (h 4) (h 5) (h 6) (h 7)]
  simp only [fieldSum, Nat.add_zero, hdiv, pow_zero, Nat.div_one]
  norm_num

theorem fieldCount_eq (hv : v < 2 ^ 64) {x y z : ℕ}
    (hx : x = v - (v / 2 ^ 1 &&& 0x5555555555555555))
    (hy : y = (x &&& 0x3333333333333333) + (x / 2 ^ 2 &&& 0x3333333333333333))
    (hz : z = (y + y / 2 ^ 4) &&& 0x0F0F0F0F0F0F0F0F) :
    z * 0x0101010101010101 % 2 ^ 64 / 2 ^ 56 = bitCount v := by
  have hmask1 : 0x5555555555555555 = fieldMask 1 32 := by rfl
  have hmask2 : 0x3333333333333333 = fieldMask 2 16 := by rfl
  have hmask4 : 0x0F0F0F0F0F0F0F0F = fieldMask 4 8 := by rfl
  have hv' := @evenFields_add_odd 1 32 v hv
  have hx' : x = evenFields 1 32 v + evenFields 1 32 (v / 2 ^ 1) := by
    rw [hx, hmask1, and_fieldMask]
    omega
  have hy' : y = evenFields 2 16 x + evenFields 2 16 (x / 2 ^ 2) := by
    rw [hy, hmask2, and_fieldMask, and_fieldMask]
  have hz' : z = evenFields 4 8 y + evenFields 4 8 (y / 2 ^ 4) := by
    have hnibble : ∀ i, y / 16 ^ i % 16 ≤ 7 := fun i => by
      rw [hy']
      exact (pairs_le (by decide) 16 x i).trans (by decide)
    rw [hz, hmask4, and_fieldMask]
    exact evenFields_nibbles hnibble 8
  have hzlt : z < 2 ^ 64 := by
    rw [hz]
    exact Nat.and_le_right.trans_lt (by decide)
  have hbyte : ∀ i, z / 256 ^ i % 256 ≤ 30 := fun i => by
    rw [hz']
    exact pairs_le (by decide) 8 y i
  calc z * 0x0101010101010101 % 2 ^ 64 / 2 ^ 56 = fieldSum 8 8 z := fieldSum_topByte hzlt hbyte
    _ = fieldSum 4 16 y := by rw [hz']; exact fieldSum_pairs (by decide) 8 y
    _ = fieldSum 2 32 x := by rw [hy']; exact fieldSum_pairs (by decide) 16 x
    _ = fieldSum 1 64 v := by rw [hx']; exact fieldSum_pairs (by decide) 32 v
    _ = bitCount v := fieldSum_one hv

end Radix
