import Mathlib.Tactic.Ring
import Mathlib.Tactic.Linarith
import Eshkol.Machine.Exec
import Eshkol.Radix.Arith

/-!
# Long Division by Trial Digits

Division of word lists in the manner of Knuth's Algorithm D, for words of any width `w`
and double-width temporaries. The dividend is consumed from the top in windows of `n + 1`
words, `n` the length of the divisor; each window yields one quotient digit.

A digit is guessed from the two top words of the window over the top word of the divisor,
corrected by the second word of the divisor, and is then at most one too large; the
multiply-and-subtract pass finds out which, and adds the divisor back if needed.
-/

namespace Radix

open Machine

variable {w : ℕ} {ε : Type}

/-! ### The trial digit -/

section TrialDigit

variable {B v₁ v₂ u u₂ P Vlo Wlo qhat rhat : ℕ}

theorem lt_succ_div_mul (hWlo : Wlo < P) (hu₂ : u₂ < B) (hv₁ : 0 < v₁) :
    (u * B + u₂) * P + Wlo < (u / v₁ + 1) * ((v₁ * B + v₂) * P + Vlo) := by
  have hu : u + 1 ≤ (u / v₁ + 1) * v₁ := by
    rw [Nat.add_mul, Nat.one_mul]
    exact Nat.lt_div_mul_add hv₁
  have hW : (u * B + u₂) * P + Wlo < (u + 1) * B * P := by
    calc (u * B + u₂) * P + Wlo < (u * B + u₂) * P + P := by omega
      _ = (u * B + (u₂ + 1)) * P := by ring
      _ ≤ (u * B + B) * P := Nat.mul_le_mul_right _ (by omega)
      _ = (u + 1) * B * P := by ring
  calc (u * B + u₂) * P + Wlo < (u + 1) * B * P := hW
    _ ≤ (u / v₁ + 1) * v₁ * B * P := by gcongr
    _ ≤ (u / v₁ + 1) * v₁ * B * P + (u / v₁ + 1) * (v₂ * P + Vlo) := Nat.le_add_right _ _
    _ = (u / v₁ + 1) * ((v₁ * B + v₂) * P + Vlo) := by ring

theorem lt_mul_of_test (hWlo : Wlo < P) (hu : qhat * v₁ + rhat = u)
    (htest : rhat * B + u₂ < qhat * v₂) :
    (u * B + u₂) * P + Wlo < qhat * ((v₁ * B + v₂) * P + Vlo) := by
  subst hu
  calc ((qhat * v₁ + rhat) * B + u₂) * P + Wlo
      < (qhat * v₁ * B + (rhat * B + u₂) + 1) * P := by nlinarith
    _ ≤ (qhat * v₁ * B + qhat * v₂) * P := Nat.mul_le_mul_right _ (by omega)
    _ ≤ (qhat * v₁ * B + qhat * v₂) * P + qhat * Vlo := Nat.le_add_right _ _
    _ = qhat * ((v₁ * B + v₂) * P + Vlo) := by ring

theorem mul_le_add_of_pass (hVlo : Vlo < P) (hu : qhat * v₁ + rhat = u)
    (hq : qhat < B) (hv₁ : 0 < v₁) (hpass : qhat * v₂ ≤ rhat * B + u₂) :
    qhat * ((v₁ * B + v₂) * P + Vlo)
      ≤ ((u * B + u₂) * P + Wlo) + ((v₁ * B + v₂) * P + Vlo) := by
  subst hu
  have hqV : qhat * Vlo ≤ v₁ * B * P := by
    calc qhat * Vlo ≤ B * P := Nat.mul_le_mul hq.le hVlo.le
      _ ≤ v₁ * B * P := by
          rw [Nat.mul_assoc]
          exact Nat.le_mul_of_pos_left _ hv₁
  calc qhat * ((v₁ * B + v₂) * P + Vlo)
      = (qhat * v₁ * B + qhat * v₂) * P + qhat * Vlo := by ring
    _ ≤ (qhat * v₁ * B + (rhat * B + u₂)) * P + v₁ * B * P :=
        Nat.add_le_add (Nat.mul_le_mul_right _ (by omega)) hqV
    _ ≤ ((qhat * v₁ * B + (rhat * B + u₂)) * P + Wlo)
          + (v₁ * B * P + (v₂ * P + Vlo)) := by omega
    _ = _ := by ring

theorem mul_le_of_break (hVlo : Vlo < P) (hu : qhat * v₁ + rhat = u)
    (hq : qhat < B) (hv₂ : v₂ < B) (hr : B ≤ rhat) :
    qhat * ((v₁ * B + v₂) * P + Vlo) ≤ (u * B + u₂) * P + Wlo := by
  subst hu
  have hv : qhat * (v₂ + 1) ≤ rhat * B := Nat.mul_le_mul (by omega) (by omega)
  have hVlo' : v₂ * P + Vlo ≤ (v₂ + 1) * P := by
    rw [Nat.add_mul, Nat.one_mul]
    omega
  calc qhat * ((v₁ * B + v₂) * P + Vlo)
      = qhat * v₁ * B * P + qhat * (v₂ * P + Vlo) := by ring
    _ ≤ qhat * v₁ * B * P + qhat * ((v₂ + 1) * P) := by gcongr
    _ = qhat * v₁ * B * P + qhat * (v₂ + 1) * P := by ring
    _ ≤ qhat * v₁ * B * P + rhat * B * P := by gcongr
    _ ≤ ((qhat * v₁ + rhat) * B + u₂) * P + Wlo := by nlinarith [Nat.zero_le (u₂ * P)]

theorem lt_base_of_break (hu : qhat * v₁ + rhat = u) (hr : B ≤ rhat)
    (huv : u < v₁ * B + B) : qhat < B := by
  by_contra hcon
  have : B * v₁ ≤ qhat * v₁ := Nat.mul_le_mul_right _ (by omega)
  rw [Nat.mul_comm] at this
  omega

theorem top_words_lt (hVlo : Vlo < P) (hv₂ : v₂ < B)
    (hW : (u * B + u₂) * P + Wlo < B * ((v₁ * B + v₂) * P + Vlo)) : u < v₁ * B + B := by
  by_contra hcon
  have hV : (v₁ * B + v₂) * P + Vlo ≤ (v₁ * B + B) * P := by
    calc (v₁ * B + v₂) * P + Vlo ≤ (v₁ * B + v₂ + 1) * P := by
          rw [Nat.add_mul _ 1, Nat.one_mul]
          omega
      _ ≤ (v₁ * B + B) * P := Nat.mul_le_mul_right _ (by omega)
  have hle : B * ((v₁ * B + v₂) * P + Vlo) ≤ (u * B + u₂) * P + Wlo := by
    calc B * ((v₁ * B + v₂) * P + Vlo) ≤ B * ((v₁ * B + B) * P) := Nat.mul_le_mul_left _ hV
      _ = (v₁ * B + B) * B * P := by ring
      _ ≤ u * B * P := by gcongr; omega
      _ ≤ (u * B + u₂) * P + Wlo := by
          rw [Nat.add_mul]
          omega
  omega

end TrialDigit

/-- The correction loop of a trial digit:
`while (qhat >= 2^w || qhat * v2 > join(rhat << w, u2)) { qhat--; rhat += v1;
if (rhat >= 2^w) break; }`, in unsigned temporaries of `2 * w` bits. `join` is how the
program puts `u2` under the shifted remainder. -/
def refineTrial (w : ℕ) (join : ℕ → ℕ → ℕ) (v₁ v₂ u₂ : ℕ) : ℕ → ℕ → ℕ → Exec ε ℕ
  | 0, _, _ => .error .diverges
  | fuel + 1, qhat, rhat =>
    if 2 ^ w ≤ qhat ∨
        join (rhat * 2 ^ w % 2 ^ (2 * w)) u₂ < qhat * v₂ % 2 ^ (2 * w) then
      let qhat' := (qhat - 1) % 2 ^ (2 * w)
      let rhat' := (rhat + v₁) % 2 ^ (2 * w)
      if 2 ^ w ≤ rhat' then .ok qhat'
      else refineTrial w join v₁ v₂ u₂ fuel qhat' rhat'
    else .ok qhat

/-- **The corrected guess.** `W` is the window and `V` the divisor, split below their
leading words; `W` is below `V` moved up one word. Three rounds suffice, because each adds
a divisor word with its top bit set to the remainder; the result fits a word, and is the
quotient digit of `W` by `V` or one more. -/
theorem refineTrial_spec {join : ℕ → ℕ → ℕ} {v₁ v₂ u u₂ P Vlo Wlo : ℕ}
    (hjoin : ∀ r, r < 2 ^ w → join (r * 2 ^ w) u₂ = r * 2 ^ w + u₂)
    (hw : 0 < w) (hv₁ : 2 ^ (w - 1) ≤ v₁) (hv₁' : v₁ < 2 ^ w) (hv₂ : v₂ < 2 ^ w)
    (hu₂ : u₂ < 2 ^ w) (hVlo : Vlo < P) (hWlo : Wlo < P)
    (hW : (u * 2 ^ w + u₂) * P + Wlo < 2 ^ w * ((v₁ * 2 ^ w + v₂) * P + Vlo))
    (huv : u < v₁ * 2 ^ w + 2 ^ w) :
    ∃ qhat, (refineTrial w join v₁ v₂ u₂ 3 (u / v₁) (u % v₁) : Exec ε ℕ) = .ok qhat ∧
      qhat < 2 ^ w ∧
      (u * 2 ^ w + u₂) * P + Wlo < (qhat + 1) * ((v₁ * 2 ^ w + v₂) * P + Vlo) ∧
      qhat * ((v₁ * 2 ^ w + v₂) * P + Vlo)
        ≤ ((u * 2 ^ w + u₂) * P + Wlo) + ((v₁ * 2 ^ w + v₂) * P + Vlo) := by
  set B := 2 ^ w with hB
  set W := (u * B + u₂) * P + Wlo with hWdef
  set V := (v₁ * B + v₂) * P + Vlo with hVdef
  have hBhalf : B = 2 * 2 ^ (w - 1) := by
    rw [hB, ← pow_succ']
    congr 1
    omega
  have hBB : 2 ^ (2 * w) = B * B := by rw [hB, two_mul, pow_add]
  have hv₁0 : 0 < v₁ := lt_of_lt_of_le (by positivity) hv₁
  -- The loop invariant: `qhat` and `rhat` still divide `u`, and `qhat` is not too small.
  -- `k` counts the rounds left; a remainder below `B` leaves at least one.
  have key : ∀ k qhat rhat, qhat * v₁ + rhat = u → W < (qhat + 1) * V → rhat < B →
      B ≤ rhat + k * v₁ → 0 < k →
      ∃ q, (refineTrial w join v₁ v₂ u₂ k qhat rhat : Exec ε ℕ) = .ok q ∧ q < B ∧
        W < (q + 1) * V ∧ q * V ≤ W + V := by
    intro k
    induction k with
    | zero => intro _ _ _ _ _ _ h; omega
    | succ k ih =>
      intro qhat rhat hu hup hr hk _
      have hrB : rhat * B < B * B := Nat.mul_lt_mul_of_pos_right hr (by omega)
      rw [refineTrial, ← hB, hBB, Nat.mod_eq_of_lt hrB, hjoin rhat hr]
      have htest : ∀ h : qhat < B, qhat * v₂ % (B * B) = qhat * v₂ := fun h =>
        Nat.mod_eq_of_lt (lt_of_le_of_lt (Nat.mul_le_mul_left _ hv₂.le)
          (Nat.mul_lt_mul_of_pos_right h (by omega)))
      by_cases hcond : B ≤ qhat ∨ rhat * B + u₂ < qhat * v₂ % (B * B)
      · have hlt : W < qhat * V := by
          rcases hcond with h | h
          · exact lt_of_lt_of_le hW (Nat.mul_le_mul_right _ h)
          · rcases Nat.lt_or_ge qhat B with hq | hq
            · rw [htest hq] at h
              exact lt_mul_of_test hWlo hu h
            · exact lt_of_lt_of_le hW (Nat.mul_le_mul_right _ hq)
        have hq1 : 1 ≤ qhat := by
          rcases Nat.eq_zero_or_pos qhat with h | h
          · rw [h, Nat.zero_mul] at hlt
            omega
          · exact h
        have hqu : qhat ≤ u := by
          calc qhat = qhat * 1 := (Nat.mul_one _).symm
            _ ≤ qhat * v₁ := Nat.mul_le_mul_left _ hv₁0
            _ ≤ u := by omega
        have huB : u < B * B := by
          have : v₁ * B + B ≤ B * B := by
            calc v₁ * B + B = (v₁ + 1) * B := by ring
              _ ≤ B * B := Nat.mul_le_mul_right _ hv₁'
          omega
        have hq' : (qhat - 1) % (B * B) = qhat - 1 := Nat.mod_eq_of_lt (by omega)
        have hBle : 2 * B ≤ B * B := Nat.mul_le_mul_right _ (by omega)
        have hr' : (rhat + v₁) % (B * B) = rhat + v₁ := Nat.mod_eq_of_lt (by omega)
        have hu' : (qhat - 1) * v₁ + (rhat + v₁) = u := by
          obtain ⟨q, rfl⟩ : ∃ q, qhat = q + 1 := ⟨qhat - 1, by omega⟩
          rw [Nat.add_sub_cancel]
          rw [Nat.add_mul, Nat.one_mul] at hu
          omega
        have hup' : W < (qhat - 1 + 1) * V := by rwa [Nat.sub_add_cancel hq1]
        rw [if_pos hcond]
        simp only [hq', hr']
        by_cases hbreak : B ≤ rhat + v₁
        · have hqB : qhat - 1 < B := lt_base_of_break hu' hbreak huv
          rw [if_pos hbreak]
          exact ⟨qhat - 1, rfl, hqB, hup',
            le_trans (mul_le_of_break hVlo hu' hqB hv₂ hbreak) (Nat.le_add_right _ _)⟩
        · rw [if_neg hbreak]
          refine ih (qhat - 1) (rhat + v₁) hu' hup' (by omega) ?_ ?_
          · rw [Nat.add_mul, Nat.one_mul] at hk
            omega
          · rcases Nat.eq_zero_or_pos k with h | h
            · subst h
              omega
            · exact h
      · rw [if_neg hcond]
        rw [not_or, not_le, not_lt] at hcond
        obtain ⟨hqB, hpass⟩ := hcond
        rw [htest hqB] at hpass
        exact ⟨qhat, rfl, hqB, hup, mul_le_add_of_pass hVlo hu hqB hv₁0 hpass⟩
  have hdiv : u / v₁ * v₁ + u % v₁ = u := by
    rw [Nat.mul_comm]
    exact Nat.div_add_mod u v₁
  have hmod : u % v₁ < v₁ := Nat.mod_lt _ hv₁0
  refine key 3 (u / v₁) (u % v₁) hdiv (lt_succ_div_mul hWlo hu₂ hv₁0) (by omega) ?_ (by omega)
  omega

section Window

variable {lo lo' lo'' vn : List (BitVec w)} {top qhat : ℕ} {borrow : ℤ}

/-- The subtraction pass, read over the whole window: the low words and the signed top
difference hold the window less `qhat` divisors. -/
theorem window_sub (hlen : lo.length = vn.length)
    (hsub : (value lo' : ℤ) + (2 ^ w) ^ vn.length * borrow = value lo - qhat * value vn) :
    (value lo' : ℤ) + (2 ^ w) ^ vn.length * (top + borrow)
      = (value lo + (2 ^ w) ^ lo.length * top : ℕ) - qhat * value vn := by
  rw [hlen]
  push_cast
  linear_combination hsub

theorem digit_eq_of_nonneg {W : ℕ} {diff : ℤ}
    (hW : (value lo' : ℤ) + (2 ^ w) ^ vn.length * diff = W - qhat * value vn)
    (hup : W < (qhat + 1) * value vn) (hdiff : 0 ≤ diff) :
    diff = 0 ∧ qhat = W / value vn ∧ value lo' = W % value vn := by
  have hV : (value vn : ℤ) < (2 ^ w) ^ vn.length := by exact_mod_cast value_lt vn
  have hup' : (W : ℤ) < (qhat + 1) * value vn := by exact_mod_cast hup
  have hBpos : (0 : ℤ) < (2 ^ w) ^ vn.length := by positivity
  have hdiff0 : diff = 0 := by
    by_contra hne
    have h1 : (2 ^ w) ^ vn.length * 1 ≤ (2 ^ w) ^ vn.length * diff :=
      mul_le_mul_of_nonneg_left (by omega) hBpos.le
    have h2 : (0 : ℤ) ≤ value lo' := Int.natCast_nonneg _
    linarith
  subst hdiff0
  have hWeq : W = qhat * value vn + value lo' := by
    have : (W : ℤ) = qhat * value vn + value lo' := by linarith
    exact_mod_cast this
  have hlt : value lo' < value vn := by
    rw [Nat.add_mul, Nat.one_mul] at hup
    omega
  have hdm := div_mod_of_eq hWeq hlt
  exact ⟨rfl, hdm.1.symm, hdm.2.symm⟩

/-- A negative difference: the guess was one too large. After the divisor is added back
the low words hold the remainder, and the carry clears the top word. -/
theorem digit_eq_of_neg {W : ℕ} {diff carry : ℤ}
    (hlen : lo'.length = vn.length) (hlen' : lo''.length = vn.length)
    (hW : (value lo' : ℤ) + (2 ^ w) ^ vn.length * diff = W - qhat * value vn)
    (hadd : (value lo'' : ℤ) + (2 ^ w) ^ vn.length * carry = value lo' + value vn)
    (hle : qhat * value vn ≤ W + value vn) (hdiff : diff < 0) :
    diff + carry = 0 ∧ 1 ≤ qhat ∧ qhat - 1 = W / value vn ∧ value lo'' = W % value vn := by
  have hlo' : (value lo' : ℤ) < (2 ^ w) ^ vn.length := by
    rw [← hlen]
    exact_mod_cast value_lt lo'
  have hlo'' : (value lo'' : ℤ) < (2 ^ w) ^ vn.length := by
    rw [← hlen']
    exact_mod_cast value_lt lo''
  have hV : (value vn : ℤ) < (2 ^ w) ^ vn.length := by exact_mod_cast value_lt vn
  have hBpos : (0 : ℤ) < (2 ^ w) ^ vn.length := by positivity
  have hle' : (qhat * value vn : ℤ) ≤ W + value vn := by exact_mod_cast hle
  have hneg : (W : ℤ) < qhat * value vn := by
    have h1 : (2 ^ w) ^ vn.length * diff ≤ (2 ^ w) ^ vn.length * (-1) :=
      mul_le_mul_of_nonneg_left (by omega) hBpos.le
    linarith
  have hsum : (value lo'' : ℤ) + (2 ^ w) ^ vn.length * (diff + carry)
      = W + value vn - qhat * value vn := by linarith
  have hzero : diff + carry = 0 := by
    by_contra hne
    rcases lt_or_gt_of_ne hne with h | h
    · have h1 : (2 ^ w) ^ vn.length * (diff + carry) ≤ (2 ^ w) ^ vn.length * (-1) :=
        mul_le_mul_of_nonneg_left (by omega) hBpos.le
      linarith
    · have h1 : (2 ^ w) ^ vn.length * 1 ≤ (2 ^ w) ^ vn.length * (diff + carry) :=
        mul_le_mul_of_nonneg_left (by omega) hBpos.le
      have h2 : (0 : ℤ) ≤ value lo'' := Int.natCast_nonneg _
      linarith
  rw [hzero, mul_zero, add_zero] at hsum
  have hq1 : 1 ≤ qhat := by
    rcases Nat.eq_zero_or_pos qhat with h | h
    · rw [h] at hneg
      simp only [Nat.cast_zero, zero_mul] at hneg
      omega
    · exact h
  obtain ⟨q, rfl⟩ : ∃ q, qhat = q + 1 := ⟨qhat - 1, by omega⟩
  have hWeq : W = q * value vn + value lo'' := by
    have : (W : ℤ) = q * value vn + value lo'' := by
      push_cast at hsum
      linarith
    exact_mod_cast this
  have hlt : value lo'' < value vn := by
    have : W < (q + 1) * value vn := by exact_mod_cast hneg
    rw [Nat.add_mul, Nat.one_mul] at this
    omega
  have hdm := div_mod_of_eq hWeq hlt
  exact ⟨hzero, hq1, by rw [Nat.add_sub_cancel, hdm.1], hdm.2.symm⟩

end Window

/-! ### One quotient digit -/

theorem exists_eq_append_singleton {l : List (BitVec w)} {n : ℕ} (h : l.length = n + 1) :
    ∃ lo x, l = lo ++ [x] ∧ lo.length = n := by
  have hne : l ≠ [] := List.ne_nil_of_length_pos (by omega)
  exact ⟨l.dropLast, l.getLast hne, (List.dropLast_append_getLast hne).symm, by simp [h]⟩

/-- The corrected trial digit of the window `win` for the divisor `vn`. Division by a zero
word is undefined. -/
def trialDigit (join : ℕ → ℕ → ℕ) (vn win : List (BitVec w)) : Exec ε ℕ :=
  let n := vn.length
  let v₁ := (vn.getD (n - 1) 0).toNat
  -- Without a second divisor word the second test of the correction loop never fires.
  let v₂ := if 2 ≤ n then (vn.getD (n - 2) 0).toNat else 0
  let uhat := (win.getD n 0).toNat * 2 ^ w % 2 ^ (2 * w) ||| (win.getD (n - 1) 0).toNat
  if v₁ = 0 then .error .undefined
  else refineTrial w join v₁ v₂ (win.getD (n - 2) 0).toNat 3 (uhat / v₁) (uhat % v₁)

/-- For a divisor with its top bit set and a window below the divisor moved up one word,
the trial digit fits a word and is the quotient digit or one more. -/
theorem trialDigit_spec {join : ℕ → ℕ → ℕ}
    (hjoin : ∀ r u, r < 2 ^ w → u < 2 ^ w → join (r * 2 ^ w) u = r * 2 ^ w + u)
    (hw : 0 < w) {vn win : List (BitVec w)} (hn : 2 ≤ vn.length)
    (hlen : win.length = vn.length + 1)
    (hnorm : 2 ^ (w - 1) ≤ (vn.getD (vn.length - 1) 0).toNat)
    (hwin : value win < 2 ^ w * value vn) :
    ∃ qhat, (trialDigit join vn win : Exec ε ℕ) = .ok qhat ∧ qhat < 2 ^ w ∧
      value win < (qhat + 1) * value vn ∧ qhat * value vn ≤ value win + value vn := by
  obtain ⟨n, hn'⟩ : ∃ n, vn.length = n + 2 := ⟨vn.length - 2, by omega⟩
  obtain ⟨vlo', v₁, rfl, hvl'⟩ := exists_eq_append_singleton hn'
  obtain ⟨vlo, v₂, rfl, hvl⟩ := exists_eq_append_singleton hvl'
  rw [hn'] at hlen
  obtain ⟨wlo, top, rfl, hwlo⟩ := exists_eq_append_singleton hlen
  obtain ⟨ulo', u₁, rfl, hul'⟩ := exists_eq_append_singleton hwlo
  obtain ⟨ulo, u₂, rfl, hul⟩ := exists_eq_append_singleton hul'
  have hvalV : value (vlo ++ [v₂] ++ [v₁])
      = (v₁.toNat * 2 ^ w + v₂.toNat) * (2 ^ w) ^ n + value vlo := by
    simp only [value_append, List.length_append, List.length_singleton, hvl, value_cons,
      value_nil, Nat.mul_zero, Nat.add_zero, pow_succ]
    ring
  have hvalW : value (ulo ++ [u₂] ++ [u₁] ++ [top])
      = ((top.toNat * 2 ^ w + u₁.toNat) * 2 ^ w + u₂.toNat) * (2 ^ w) ^ n + value ulo := by
    simp only [value_append, List.length_append, List.length_singleton, hul, value_cons,
      value_nil, Nat.mul_zero, Nat.add_zero, pow_succ]
    ring
  have hVlo : value vlo < (2 ^ w) ^ n := hvl ▸ value_lt vlo
  have hWlo : value ulo < (2 ^ w) ^ n := hul ▸ value_lt ulo
  have hgv₁ : (vlo ++ [v₂] ++ [v₁]).getD (n + 1) 0 = v₁ := by simp [List.getD_eq_getElem?_getD, hvl]
  have hgv₂ : (vlo ++ [v₂] ++ [v₁]).getD n 0 = v₂ := by simp [List.getD_eq_getElem?_getD, hvl]
  have hgtop : (ulo ++ [u₂] ++ [u₁] ++ [top]).getD (n + 2) 0 = top := by
    simp [List.getD_eq_getElem?_getD, hul]
  have hgu₁ : (ulo ++ [u₂] ++ [u₁] ++ [top]).getD (n + 1) 0 = u₁ := by
    simp [List.getD_eq_getElem?_getD, hul]
  have hgu₂ : (ulo ++ [u₂] ++ [u₁] ++ [top]).getD n 0 = u₂ := by
    simp [List.getD_eq_getElem?_getD, hul]
  have hidx : n + 2 - 1 = n + 1 := by omega
  have htop : top.toNat * 2 ^ w % 2 ^ (2 * w) = top.toNat * 2 ^ w := by
    rw [two_pow_two_mul]
    exact Nat.mod_eq_of_lt (Nat.mul_lt_mul_of_pos_right top.isLt (by positivity))
  rw [hn', hidx, hgv₁] at hnorm
  rw [hvalV, hvalW] at hwin ⊢
  have hv₁ : v₁.toNat ≠ 0 := (lt_of_lt_of_le (by positivity) hnorm).ne'
  have huv := top_words_lt hVlo v₂.isLt hwin
  simp only [trialDigit, hn', hidx, Nat.add_sub_cancel, hgv₁, hgv₂, hgtop, hgu₁, hgu₂,
    if_pos (Nat.le_add_left 2 n), htop, or_eq_add u₁.isLt, if_neg hv₁]
  exact refineTrial_spec (fun r hr => hjoin r _ hr u₂.isLt) hw hnorm v₁.isLt v₂.isLt u₂.isLt
    hVlo hWlo hwin huv

/-- Take `qhat` divisors off the window, and add one back if that was too much. `mulSub`
is the body of the program's multiply-and-subtract loop, `topDiff` its top word less the
last borrow. -/
def subtractDigit (mulSub : ℕ → ℤ → BitVec w × BitVec w → Exec ε (BitVec w × ℤ))
    (topDiff : BitVec w → ℤ → Exec ε ℤ) (vn win : List (BitVec w)) (qhat : ℕ) :
    Exec ε (BitVec w × List (BitVec w)) := do
  let n := vn.length
  let low ← rippleM (mulSub qhat) ((win.take n).zip vn) 0
  let diff ← topDiff (win.getD n 0) low.2
  if diff < 0 then
    let back := ripple addStep (low.1.zip vn) 0
    .ok (BitVec.ofNat w qhat - 1, back.1 ++ [BitVec.ofInt w diff + BitVec.ofNat w back.2])
  else .ok (BitVec.ofNat w qhat, low.1 ++ [BitVec.ofInt w diff])

/-- What the multiply-and-subtract loop of a program has to do, with `c` reading its
running borrow as a number from `-2 ^ w` to `0`. -/
structure MulSubSpec (c : ℤ → ℤ)
    (mulSub : ℕ → ℤ → BitVec w × BitVec w → Exec ε (BitVec w × ℤ))
    (topDiff : BitVec w → ℤ → Exec ε ℤ) : Prop where
  zero : c 0 = 0
  pass : ∀ qhat b x, qhat < 2 ^ w → -2 ^ w ≤ c b ∧ c b ≤ 0 →
    ∃ out, mulSub qhat b x = .ok out ∧ (-2 ^ w ≤ c out.2 ∧ c out.2 ≤ 0) ∧
      (out.1.toNat : ℤ) + 2 ^ w * c out.2
        = 1 * (x.1.toNat : ℤ) + -(qhat : ℤ) * (x.2.toNat : ℤ) + c b
  top : ∀ t b, -2 ^ w ≤ c b ∧ c b ≤ 0 → topDiff t b = .ok ((t.toNat : ℤ) + c b)

/-- The trial digit, corrected at most once, is the digit of the quotient. -/
theorem subtractDigit_spec {c : ℤ → ℤ}
    {mulSub : ℕ → ℤ → BitVec w × BitVec w → Exec ε (BitVec w × ℤ)}
    {topDiff : BitVec w → ℤ → Exec ε ℤ} (hsub : MulSubSpec c mulSub topDiff) (hw : 0 < w)
    {vn win : List (BitVec w)} (hlen : win.length = vn.length + 1) {qhat : ℕ}
    (hq : qhat < 2 ^ w) (hup : value win < (qhat + 1) * value vn)
    (hle : qhat * value vn ≤ value win + value vn) :
    ∃ out, subtractDigit mulSub topDiff vn win qhat = .ok out ∧
      out.1.toNat = value win / value vn ∧ out.2.length = vn.length + 1 ∧
      value out.2 = value win % value vn := by
  obtain ⟨lo, top, rfl, hlo⟩ := exists_eq_append_singleton hlen
  have htake : (lo ++ [top]).take vn.length = lo := by simp [← hlo]
  have hget : (lo ++ [top]).getD vn.length 0 = top := by simp [List.getD_eq_getElem?_getD, hlo]
  have hW : value (lo ++ [top]) = value lo + (2 ^ w) ^ lo.length * top.toNat := by
    rw [value_append, value_cons, value_nil, Nat.mul_zero, Nat.add_zero]
  obtain ⟨low, hlow, hinv, hlowlen, hlowval⟩ := rippleM_spec (mulSub qhat) (lo.zip vn)
    (fun x => 1 * (x.1.toNat : ℤ) + -(qhat : ℤ) * (x.2.toNat : ℤ)) c
    (fun b => -2 ^ w ≤ c b ∧ c b ≤ 0) (fun b x _ hb => hsub.pass qhat b x hq hb) (s := 0)
    (by simp [hsub.zero])
  rw [weigh_zip 1 _ hlo, List.length_zip, hlo, Nat.min_self, hsub.zero] at hlowval
  rw [List.length_zip, hlo, Nat.min_self] at hlowlen
  have hwindow : (value low.1 : ℤ) + (2 ^ w) ^ vn.length * (top.toNat + c low.2)
      = (value (lo ++ [top]) : ℕ) - qhat * value vn := by
    rw [hW]
    exact window_sub hlo (by linarith)
  simp only [subtractDigit, htake, hget, hlow, hsub.top _ _ hinv, ok_bind]
  by_cases hneg : (top.toNat : ℤ) + c low.2 < 0
  · obtain ⟨hcarry, hback⟩ := value_ripple_addStep hw low.1 vn hlowlen
    set back := ripple addStep (low.1.zip vn) 0 with hbackdef
    have hbacklen : back.1.length = vn.length := by simp [hbackdef, hlowlen]
    obtain ⟨hzero, hq1, hdig, hrem⟩ := digit_eq_of_neg
      hlowlen hbacklen hwindow
      (show (value back.1 : ℤ) + (2 ^ w) ^ vn.length * (back.2 : ℤ) = value low.1 + value vn by
        rw [hlowlen] at hback
        exact_mod_cast hback) hle hneg
    refine ⟨_, if_pos hneg, ?_, ?_, ?_⟩
    · have hone : (1 : BitVec w).toNat = 1 := by simp [hw]
      rw [BitVec.toNat_sub, hone, BitVec.toNat_ofNat, Nat.mod_eq_of_lt hq, ← hdig]
      have hpos : 1 ≤ 2 ^ w := Nat.one_le_two_pow
      rw [show 2 ^ w - 1 + qhat = qhat - 1 + 2 ^ w by omega, Nat.add_mod_right,
        Nat.mod_eq_of_lt (by omega)]
    · simp [hbacklen]
    · have htop : BitVec.ofInt w ((top.toNat : ℤ) + c low.2) + BitVec.ofNat w back.2 = 0 := by
        rw [← BitVec.ofInt_natCast, ← BitVec.ofInt_add, hzero]
        rfl
      rw [htop, value_append]
      simpa using hrem
  · rw [not_lt] at hneg
    obtain ⟨hzero, hdig, hrem⟩ := digit_eq_of_nonneg hwindow hup hneg
    refine ⟨_, if_neg (not_lt.mpr hneg), ?_, ?_, ?_⟩
    · rw [BitVec.toNat_ofNat, Nat.mod_eq_of_lt hq, hdig]
    · simp [hlowlen]
    · rw [hzero, value_append]
      simpa using hrem

/-- One pass of the division loop. -/
def digitStep (join : ℕ → ℕ → ℕ)
    (mulSub : ℕ → ℤ → BitVec w × BitVec w → Exec ε (BitVec w × ℤ))
    (topDiff : BitVec w → ℤ → Exec ε ℤ) (vn win : List (BitVec w)) :
    Exec ε (BitVec w × List (BitVec w)) := do
  let qhat ← trialDigit join vn win
  subtractDigit mulSub topDiff vn win qhat

/-- **One pass yields the true digit.** For a divisor of at least two words with its top
bit set, every window below the divisor moved up one word is turned into its quotient
digit and its remainder. -/
theorem digitStep_spec {join : ℕ → ℕ → ℕ} {c : ℤ → ℤ}
    {mulSub : ℕ → ℤ → BitVec w × BitVec w → Exec ε (BitVec w × ℤ)}
    {topDiff : BitVec w → ℤ → Exec ε ℤ}
    (hjoin : ∀ r u, r < 2 ^ w → u < 2 ^ w → join (r * 2 ^ w) u = r * 2 ^ w + u)
    (hsub : MulSubSpec c mulSub topDiff) (hw : 0 < w)
    {vn win : List (BitVec w)} (hn : 2 ≤ vn.length)
    (hnorm : 2 ^ (w - 1) ≤ (vn.getD (vn.length - 1) 0).toNat)
    (hlen : win.length = vn.length + 1) (hwin : value win < 2 ^ w * value vn) :
    ∃ out, digitStep join mulSub topDiff vn win = .ok out ∧
      out.1.toNat = value win / value vn ∧ out.2.length = vn.length + 1 ∧
      value out.2 = value win % value vn := by
  obtain ⟨qhat, htrial, hq, hup, hle⟩ := trialDigit_spec (ε := ε) hjoin hw hn hlen hnorm hwin
  rw [digitStep, htrial, ok_bind]
  exact subtractDigit_spec hsub hw hlen hq hup hle

/-! ### The loop over the windows -/

/-- `for (j = k - 1; j >= 0; j--)`: `step` turns the window `un[j .. j + n]` into a quotient
digit and a new window. The digits come out least significant first, with the final
contents of `un`. -/
def divLoop (n : ℕ) (step : List (BitVec w) → Exec ε (BitVec w × List (BitVec w))) :
    ℕ → List (BitVec w) → Exec ε (List (BitVec w) × List (BitVec w))
  | 0, un => .ok ([], un)
  | j + 1, un => do
      let out ← step ((un.drop j).take (n + 1))
      let rest ← divLoop n step j (un.take j ++ out.2 ++ un.drop (j + (n + 1)))
      .ok (rest.1 ++ [out.1], rest.2)

theorem value_window {un : List (BitVec w)} {n V j : ℕ} (hV : V ≤ (2 ^ w) ^ n)
    (hlen : j + (n + 1) ≤ un.length) (htop : value (un.drop (j + 1)) < V) :
    value ((un.drop j).take (n + 1)) = value (un.drop j) ∧
      value (un.drop j) < 2 ^ w * V ∧ value (un.drop (j + (n + 1))) = 0 := by
  have hcons : un.drop j = (un.drop j).head (by simp; omega) :: un.drop (j + 1) := by
    rw [← List.tail_drop, List.cons_head_tail]
  have hlt : value (un.drop j) < 2 ^ w * V := by
    rw [hcons, value_cons]
    have hx := ((un.drop j).head (by simp; omega)).isLt
    have : 2 ^ w * (value (un.drop (j + 1)) + 1) ≤ 2 ^ w * V := Nat.mul_le_mul_left _ htop
    rw [Nat.mul_add, Nat.mul_one] at this
    omega
  have hsplit : value (un.drop j) = value ((un.drop j).take (n + 1))
      + (2 ^ w) ^ (n + 1) * value (un.drop (j + (n + 1))) := by
    conv_lhs => rw [← List.take_append_drop (n + 1) (un.drop j)]
    rw [value_append, List.drop_drop, List.length_take_of_le (by simp; omega)]
  have hhigh : value (un.drop (j + (n + 1))) = 0 := by
    by_contra hne
    have h1 : (2 ^ w) ^ (n + 1) * 1 ≤ (2 ^ w) ^ (n + 1) * value (un.drop (j + (n + 1))) :=
      Nat.mul_le_mul_left _ (Nat.one_le_iff_ne_zero.mpr hne)
    have h2 : 2 ^ w * V ≤ (2 ^ w) ^ (n + 1) := by
      rw [pow_succ, Nat.mul_comm]
      exact Nat.mul_le_mul_right _ hV
    omega
  exact ⟨by rw [hsplit, hhigh]; simp, hlt, hhigh⟩

/-- **The loop divides.** If `step` yields the digit and the remainder of every window
below the divisor moved up one word, then from a list whose part above position `k` is
below the divisor the loop yields the quotient of the list and leaves its remainder. -/
theorem divLoop_spec {n V : ℕ} {step : List (BitVec w) → Exec ε (BitVec w × List (BitVec w))}
    (hV : V ≤ (2 ^ w) ^ n)
    (hstep : ∀ win : List (BitVec w), win.length = n + 1 → value win < 2 ^ w * V →
      ∃ out, step win = .ok out ∧ out.1.toNat = value win / V ∧
        out.2.length = n + 1 ∧ value out.2 = value win % V)
    {k : ℕ} {un : List (BitVec w)} (hlen : k + n ≤ un.length) (htop : value (un.drop k) < V) :
    ∃ out, divLoop n step k un = .ok out ∧ out.1.length = k ∧ out.2.length = un.length ∧
      value out.1 = value un / V ∧ value out.2 = value un % V := by
  suffices h : ∃ out, divLoop n step k un = .ok out ∧ out.1.length = k ∧
      out.2.length = un.length ∧ value out.2 < V ∧
      value un = value out.1 * V + value out.2 by
    obtain ⟨out, hout, hl1, hl2, hlt, hval⟩ := h
    have hdm := div_mod_of_eq hval hlt
    exact ⟨out, hout, hl1, hl2, hdm.1.symm, hdm.2.symm⟩
  induction k generalizing un with
  | zero => exact ⟨([], un), rfl, rfl, rfl, by simpa using htop, by simp⟩
  | succ j ih =>
    obtain ⟨hwin, hwlt, hhigh⟩ := value_window hV (by omega) htop
    obtain ⟨out, hout, hq, hwl, hwv⟩ := hstep ((un.drop j).take (n + 1))
      (by simp; omega) (by omega)
    have hVpos : 0 < V := by omega
    have htake : (un.take j).length = j := List.length_take_of_le (by omega)
    set un' := un.take j ++ out.2 ++ un.drop (j + (n + 1)) with hun'
    have hlen' : un'.length = un.length := by
      rw [hun', List.length_append, List.length_append, htake, hwl, List.length_drop]
      omega
    have hdrop : un'.drop j = out.2 ++ un.drop (j + (n + 1)) := by
      rw [hun', List.append_assoc, List.drop_left' htake]
    have hdropv : value (un'.drop j) = value out.2 := by
      rw [hdrop, value_append, hhigh]
      simp
    have hlow : value (out.2) < V := by
      rw [hwv]
      exact Nat.mod_lt _ hVpos
    obtain ⟨rest, hrest, hl1, hl2, hlt, hval⟩ := @ih un' (by omega) (by omega)
    refine ⟨(rest.1 ++ [out.1], rest.2), ?_, ?_, ?_, hlt, ?_⟩
    · rw [divLoop, hout, ok_bind, ← hun', hrest, ok_bind]
    · simp [hl1]
    · rw [hl2, hlen']
    · have hsplit : ∀ l : List (BitVec w), l.length = un.length →
          value l = value (l.take j) + (2 ^ w) ^ j * value (l.drop j) := by
        intro l hl
        conv_lhs => rw [← List.take_append_drop j l]
        rw [value_append, List.length_take_of_le (by omega)]
      have htake' : un'.take j = un.take j := by rw [hun', List.append_assoc, List.take_left' htake]
      have hwinv : value (un.drop j) = out.1.toNat * V + value out.2 := by
        rw [← hwin, hq, hwv, Nat.mul_comm]
        exact (Nat.div_add_mod _ _).symm
      have hun'v := hsplit un' hlen'
      rw [htake', hdropv] at hun'v
      simp only [value_append, hl1, value_cons, value_nil, Nat.mul_zero, Nat.add_zero]
      calc value un = value (un.take j) + (2 ^ w) ^ j * (out.1.toNat * V + value out.2) := by
            rw [hsplit un rfl, hwinv]
        _ = value un' + (2 ^ w) ^ j * out.1.toNat * V := by rw [hun'v]; ring
        _ = (value rest.1 + (2 ^ w) ^ j * out.1.toNat) * V + value rest.2 := by
            rw [hval]; ring

theorem value_drop_mul_le (l : List (BitVec w)) (k : ℕ) :
    value (l.drop k) * (2 ^ w) ^ k ≤ value l := by
  rw [value_drop]
  exact Nat.div_mul_le_self _ _

/-- Moving a divisor up until its top bit is set loses nothing: no bits are carried out,
and the top bit of the result is set. -/
theorem shifted_divisor {l vn : List (BitVec w)} {s carry : ℕ} (hne : l ≠ [])
    (hlo : 2 ^ (w - 1) ≤ (l.getLast hne).toNat * 2 ^ s)
    (hhi : (l.getLast hne).toNat * 2 ^ s + 2 ^ s ≤ 2 ^ w)
    (hlen : vn.length = l.length)
    (hval : value vn + (2 ^ w) ^ vn.length * carry = value l * 2 ^ s) :
    value vn = value l * 2 ^ s ∧ 2 ^ (w - 1) ≤ (vn.getD (vn.length - 1) 0).toNat ∧
      2 ^ (w - 1) * (2 ^ w) ^ (vn.length - 1) ≤ value vn := by
  obtain ⟨lo, d, rfl⟩ : ∃ lo d, l = lo ++ [d] := ⟨_, _, (List.dropLast_append_getLast hne).symm⟩
  rw [List.getLast_append_singleton] at hlo hhi
  rw [List.length_append, List.length_singleton] at hlen
  obtain ⟨vlo, v, rfl, hvlo⟩ := exists_eq_append_singleton hlen
  set P := (2 ^ w) ^ lo.length with hP
  have hlolt : value lo < P := value_lt lo
  have hvlolt : value vlo < P := by
    rw [hP, ← hvlo]
    exact value_lt vlo
  simp only [value_append, value_cons, value_nil, List.length_append, List.length_singleton,
    hvlo, Nat.mul_zero, Nat.add_zero, ← hP, Nat.add_sub_cancel, pow_succ] at hval ⊢
  -- The shifted value stays below the weight of the next word, so nothing is carried out.
  have hbound : (value lo + P * d.toNat) * 2 ^ s < P * 2 ^ w := by
    calc (value lo + P * d.toNat) * 2 ^ s < (P + P * d.toNat) * 2 ^ s :=
          Nat.mul_lt_mul_of_pos_right (by omega) (by positivity)
      _ = P * (d.toNat * 2 ^ s + 2 ^ s) := by ring
      _ ≤ P * 2 ^ w := Nat.mul_le_mul_left _ hhi
  have hcarry : carry = 0 := by
    by_contra hcon
    have : P * 2 ^ w * 1 ≤ P * 2 ^ w * carry :=
      Nat.mul_le_mul_left _ (Nat.one_le_iff_ne_zero.mpr hcon)
    omega
  rw [hcarry, Nat.mul_zero, Nat.add_zero] at hval
  have hlow : P * 2 ^ (w - 1) ≤ value vlo + P * v.toNat := by
    rw [hval]
    calc P * 2 ^ (w - 1) ≤ P * (d.toNat * 2 ^ s) := Nat.mul_le_mul_left _ hlo
      _ ≤ value lo * 2 ^ s + P * (d.toNat * 2 ^ s) := Nat.le_add_left _ _
      _ = (value lo + P * d.toNat) * 2 ^ s := by ring
  refine ⟨hval, ?_, by rwa [Nat.mul_comm]⟩
  have hget : (vlo ++ [v]).getD lo.length 0 = v := by simp [List.getD_eq_getElem?_getD, ← hvlo]
  rw [hget]
  by_contra hcon
  have : P * (v.toNat + 1) ≤ P * 2 ^ (w - 1) := Nat.mul_le_mul_left _ (by omega)
  rw [Nat.mul_add, Nat.mul_one] at this
  omega

/-- `win` is a window the loop comes to. -/
inductive Visits (n : ℕ) (step : List (BitVec w) → Exec ε (BitVec w × List (BitVec w))) :
    ℕ → List (BitVec w) → List (BitVec w) → Prop
  | here (j : ℕ) (un : List (BitVec w)) : Visits n step (j + 1) un ((un.drop j).take (n + 1))
  | later {j : ℕ} {un win : List (BitVec w)} {out : BitVec w × List (BitVec w)}
      (hstep : step ((un.drop j).take (n + 1)) = .ok out)
      (hnext : Visits n step j (un.take j ++ out.2 ++ un.drop (j + (n + 1))) win) :
      Visits n step (j + 1) un win

theorem Visits.lt {n V : ℕ} {step : List (BitVec w) → Exec ε (BitVec w × List (BitVec w))}
    (hV : V ≤ (2 ^ w) ^ n)
    (hstep : ∀ win : List (BitVec w), win.length = n + 1 → value win < 2 ^ w * V →
      ∃ out, step win = .ok out ∧ out.1.toNat = value win / V ∧
        out.2.length = n + 1 ∧ value out.2 = value win % V)
    {k : ℕ} {un win : List (BitVec w)} (hvisit : Visits n step k un win)
    (hlen : k + n ≤ un.length) (htop : value (un.drop k) < V) :
    win.length = n + 1 ∧ value win < 2 ^ w * V := by
  induction hvisit with
  | here j un =>
    obtain ⟨hwin, hlt, -⟩ := value_window hV (by omega) htop
    exact ⟨by simp; omega, by omega⟩
  | @later j un win out hok hnext ih =>
    obtain ⟨hwin, hlt, hhigh⟩ := value_window hV (by omega) htop
    have hwlen : ((un.drop j).take (n + 1)).length = n + 1 := by simp; omega
    obtain ⟨out', hout', -, hl, hv⟩ := hstep _ hwlen (by omega)
    obtain rfl : out' = out := by simpa [hout'] using hok
    have htake : (un.take j).length = j := List.length_take_of_le (by omega)
    apply ih
    · simp only [List.length_append, htake, hl, List.length_drop]
      omega
    · rw [List.append_assoc, List.drop_left' htake, value_append, hhigh, hv, Nat.mul_zero,
        Nat.add_zero]
      exact Nat.mod_lt _ (by omega)

section LongDivision

variable {join : ℕ → ℕ → ℕ} {c : ℤ → ℤ}
  {mulSub : ℕ → ℤ → BitVec w × BitVec w → Exec ε (BitVec w × ℤ)}
  {topDiff : BitVec w → ℤ → Exec ε ℤ} {la lb un vn : List (BitVec w)} {s carry : ℕ}

/-- Dividend `la` and divisor `lb` moved up by `s` bits, to `un` with one more word and to
`vn` with its top bit set. -/
structure Shifted (la lb un vn : List (BitVec w)) (s carry : ℕ) : Prop where
  ne_nil : lb ≠ []
  shift_lt : s < w
  top_ge : 2 ^ (w - 1) ≤ (lb.getLast ne_nil).toNat * 2 ^ s
  top_le : (lb.getLast ne_nil).toNat * 2 ^ s + 2 ^ s ≤ 2 ^ w
  two_le : 2 ≤ lb.length
  length_le : lb.length ≤ la.length
  length_divisor : vn.length = lb.length
  value_divisor : value vn + (2 ^ w) ^ vn.length * carry = value lb * 2 ^ s
  length_dividend : un.length = la.length + 1
  value_dividend : value un = value la * 2 ^ s

theorem Shifted.top_lt (h : Shifted la lb un vn s carry) :
    value (un.drop (la.length - lb.length + 1)) < value vn := by
  have hs := h.shift_lt
  have hle := h.length_le
  have h2 := h.two_le
  have hvlen := h.length_divisor
  obtain ⟨-, -, hVlow⟩ :=
    shifted_divisor h.ne_nil h.top_ge h.top_le h.length_divisor h.value_divisor
  have hdrop := value_drop_mul_le un (la.length - lb.length + 1)
  have hpow : (2 ^ w) ^ la.length
      = (2 ^ w) ^ (vn.length - 1) * (2 ^ w) ^ (la.length - lb.length + 1) := by
    rw [← pow_add]
    congr 1
    omega
  have hult : value un < 2 ^ (w - 1) * (2 ^ w) ^ la.length := by
    rw [h.value_dividend, Nat.mul_comm]
    exact Nat.mul_lt_mul_of_le_of_lt (Nat.pow_le_pow_right (by omega) (by omega))
      (value_lt la) (by positivity)
  rw [hpow, ← Nat.mul_assoc] at hult
  exact lt_of_lt_of_le (Nat.lt_of_mul_lt_mul_right (lt_of_le_of_lt hdrop hult)) hVlow

variable (hjoin : ∀ r u, r < 2 ^ w → u < 2 ^ w → join (r * 2 ^ w) u = r * 2 ^ w + u)
  (hsub : MulSubSpec c mulSub topDiff) (h : Shifted la lb un vn s carry)

include hjoin hsub h

theorem Shifted.digitStep_spec (win : List (BitVec w)) (hlen : win.length = lb.length + 1)
    (hwin : value win < 2 ^ w * value vn) :
    ∃ out, digitStep join mulSub topDiff vn win = .ok out ∧
      out.1.toNat = value win / value vn ∧ out.2.length = lb.length + 1 ∧
      value out.2 = value win % value vn := by
  have hw : 0 < w := lt_of_le_of_lt (Nat.zero_le _) h.shift_lt
  obtain ⟨-, hnorm, -⟩ :=
    shifted_divisor h.ne_nil h.top_ge h.top_le h.length_divisor h.value_divisor
  rw [← h.length_divisor] at hlen ⊢
  exact Radix.digitStep_spec hjoin hsub hw (h.length_divisor ▸ h.two_le) hnorm hlen hwin

theorem Shifted.digit_of_visits {win : List (BitVec w)}
    (hvisit : Visits lb.length (digitStep join mulSub topDiff vn)
      (la.length - lb.length + 1) un win) :
    ∃ out, digitStep join mulSub topDiff vn win = .ok out ∧
      out.1.toNat = value win / value vn ∧ value out.2 = value win % value vn := by
  have hle := h.length_le
  have hul := h.length_dividend
  have hV : value vn ≤ (2 ^ w) ^ lb.length := h.length_divisor ▸ (value_lt vn).le
  obtain ⟨hlen, hlt⟩ := hvisit.lt hV (h.digitStep_spec hjoin hsub) (by omega) h.top_lt
  obtain ⟨out, hout, hq, -, hr⟩ := h.digitStep_spec hjoin hsub win hlen hlt
  exact ⟨out, hout, hq, hr⟩

/-- **Long division of shifted operands.** The loop yields the quotient and leaves the
remainder, moved up by `s` bits, in the low words. -/
theorem Shifted.divLoop_spec :
    ∃ out, divLoop lb.length (digitStep join mulSub topDiff vn) (la.length - lb.length + 1) un
        = .ok out ∧
      value out.1 = value la / value lb ∧
      value (out.2.take lb.length) = value la % value lb * 2 ^ s := by
  have hle := h.length_le
  have hul := h.length_dividend
  obtain ⟨hV, -, -⟩ := shifted_divisor h.ne_nil h.top_ge h.top_le h.length_divisor h.value_divisor
  have hvlt : value vn < (2 ^ w) ^ lb.length := h.length_divisor ▸ value_lt vn
  obtain ⟨out, hout, -, houtlen, hquot, hrem⟩ :=
    Radix.divLoop_spec hvlt.le (h.digitStep_spec hjoin hsub)
      (show la.length - lb.length + 1 + lb.length ≤ un.length by omega) h.top_lt
  refine ⟨out, hout, ?_, ?_⟩
  · rw [hquot, h.value_dividend, hV, Nat.mul_div_mul_right _ _ (by positivity)]
  · have hsmall : value out.2 < (2 ^ w) ^ lb.length := by
      rw [hrem]
      exact lt_trans (Nat.mod_lt _ (lt_of_le_of_lt (Nat.zero_le _) h.top_lt)) hvlt
    have htake := value_extend_mod lb.length out.2
    rw [Nat.mod_eq_of_lt hsmall, extend, Nat.sub_eq_zero_of_le (by omega), List.replicate_zero,
      List.append_nil] at htake
    rw [htake, hrem, h.value_dividend, hV, Nat.mul_mod_mul_right]

end LongDivision

end Radix
