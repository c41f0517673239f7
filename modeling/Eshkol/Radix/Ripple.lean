import Eshkol.Radix.Digits
import Mathlib.Tactic.LinearCombination

/-!
# Carry Loops over Word Lists

Multi-word arithmetic runs one loop shape over and over: visit the words in order, emit
one word, hand a carry to the next position. `ripple` runs such a loop from the least
significant word up and `rippleDown` from the most significant word down; `rippleM` is
`ripple` for a body that may fail.

Each has one rule. If every pass conserves value — what is emitted plus the outgoing
carry one position up accounts for the input and the incoming carry — then so does the
whole loop. Addition, subtraction, multiplication by a word, shifts and negation are the
rule at different bodies; the loop's input is weighed by `weigh g`, where `g` is what one
position contributes.
-/

namespace Radix

variable {w : ℕ} {α σ ε : Type}

/-- The total of the contributions `g x`, the `i`-th weighted by `(2 ^ w) ^ i`. -/
def weigh (w : ℕ) (g : α → ℤ) : List α → ℤ
  | [] => 0
  | x :: xs => g x + 2 ^ w * weigh w g xs

@[simp] theorem weigh_nil (g : α → ℤ) : weigh w g [] = 0 := rfl

@[simp] theorem weigh_cons (g : α → ℤ) (x : α) (xs : List α) :
    weigh w g (x :: xs) = g x + 2 ^ w * weigh w g xs := rfl

theorem weigh_mul (p : ℤ) (l : List (BitVec w)) :
    weigh w (fun x => p * (x.toNat : ℤ)) l = p * (value l : ℤ) := by
  induction l with
  | nil => simp
  | cons x l ih =>
    rw [weigh_cons, ih, value_cons]
    push_cast
    ring

theorem weigh_zip (p q : ℤ) {l₁ l₂ : List (BitVec w)} (hlen : l₁.length = l₂.length) :
    weigh w (fun x => p * (x.1.toNat : ℤ) + q * (x.2.toNat : ℤ)) (l₁.zip l₂)
      = p * (value l₁ : ℤ) + q * (value l₂ : ℤ) := by
  induction l₁ generalizing l₂ with
  | nil =>
    obtain rfl := List.length_eq_zero_iff.mp hlen.symm
    simp
  | cons x l₁ ih =>
    cases l₂ with
    | nil => simp at hlen
    | cons y l₂ =>
      rw [List.zip_cons_cons, weigh_cons, ih (by simpa using hlen), value_cons, value_cons]
      push_cast
      ring

/-! ### From the low end -/

/-- Run `step` over the list from its head, threading a carry. -/
def ripple (step : σ → α → BitVec w × σ) : List α → σ → List (BitVec w) × σ
  | [], s => ([], s)
  | x :: xs, s =>
    let out := step s x
    let rest := ripple step xs out.2
    (out.1 :: rest.1, rest.2)

@[simp] theorem length_ripple (step : σ → α → BitVec w × σ) (xs : List α) (s : σ) :
    (ripple step xs s).1.length = xs.length := by
  induction xs generalizing s with
  | nil => rfl
  | cons x xs ih => simp [ripple, ih]

theorem ripple_append (step : σ → α → BitVec w × σ) (xs ys : List α) (s : σ) :
    (ripple step (xs ++ ys) s).1
      = (ripple step xs s).1 ++ (ripple step ys (ripple step xs s).2).1 := by
  induction xs generalizing s with
  | nil => rfl
  | cons x xs ih => simp [ripple, ih]

/-- **Conservation.** `c` reads a carry as a number and `Inv` bounds it. If one pass
emits a word and a carry that together account for `g x` and the incoming carry, the
whole loop accounts for the weighed input. -/
theorem ripple_spec (step : σ → α → BitVec w × σ) (xs : List α) (g : α → ℤ) (c : σ → ℤ)
    (Inv : σ → Prop)
    (hstep : ∀ s, ∀ x ∈ xs, Inv s → Inv (step s x).2 ∧
      ((step s x).1.toNat : ℤ) + 2 ^ w * c (step s x).2 = g x + c s)
    {s : σ} (hs : Inv s) :
    Inv (ripple step xs s).2 ∧
      (value (ripple step xs s).1 : ℤ) + (2 ^ w) ^ xs.length * c (ripple step xs s).2
        = weigh w g xs + c s := by
  induction xs generalizing s with
  | nil => exact ⟨hs, by simp [ripple]⟩
  | cons x xs ih =>
    obtain ⟨hinv, hval⟩ := hstep s x (by simp) hs
    obtain ⟨hinv', hval'⟩ := ih (fun s y hy => hstep s y (by simp [hy])) hinv
    refine ⟨hinv', ?_⟩
    simp only [ripple, value_cons, weigh_cons, List.length_cons, pow_succ]
    push_cast
    linear_combination hval + 2 ^ w * hval'

/-- `ripple` for a body that may fail; the loop fails with the first failing pass. -/
def rippleM (step : σ → α → Except ε (BitVec w × σ)) : List α → σ → Except ε (List (BitVec w) × σ)
  | [], s => .ok ([], s)
  | x :: xs, s => do
      let out ← step s x
      let rest ← rippleM step xs out.2
      .ok (out.1 :: rest.1, rest.2)

/-- **Conservation** for a body that may fail: under the invariant no pass fails, and the
loop accounts for the weighed input. -/
theorem rippleM_spec (step : σ → α → Except ε (BitVec w × σ)) (xs : List α) (g : α → ℤ)
    (c : σ → ℤ) (Inv : σ → Prop)
    (hstep : ∀ s, ∀ x ∈ xs, Inv s → ∃ out, step s x = .ok out ∧ Inv out.2 ∧
      (out.1.toNat : ℤ) + 2 ^ w * c out.2 = g x + c s)
    {s : σ} (hs : Inv s) :
    ∃ out, rippleM step xs s = .ok out ∧ Inv out.2 ∧ out.1.length = xs.length ∧
      (value out.1 : ℤ) + (2 ^ w) ^ xs.length * c out.2 = weigh w g xs + c s := by
  induction xs generalizing s with
  | nil => exact ⟨([], s), rfl, hs, rfl, by simp⟩
  | cons x xs ih =>
    obtain ⟨out, hout, hinv, hval⟩ := hstep s x (by simp) hs
    obtain ⟨rest, hrest, hinv', hlen, hval'⟩ := ih (fun s y hy => hstep s y (by simp [hy])) hinv
    refine ⟨(out.1 :: rest.1, rest.2), ?_, hinv', by simp [hlen], ?_⟩
    · simp only [rippleM, hout, hrest, bind, Except.bind]
    · simp only [value_cons, weigh_cons, List.length_cons, pow_succ]
      push_cast
      linear_combination hval + 2 ^ w * hval'

/-! ### From the high end -/

/-- Run `step` over the list from its last element, threading a carry downwards. -/
def rippleDown (step : σ → α → BitVec w × σ) : List α → σ → List (BitVec w) × σ
  | [], s => ([], s)
  | x :: xs, s =>
    let high := rippleDown step xs s
    let out := step high.2 x
    (out.1 :: high.1, out.2)

/-- **Conservation of a division.** If one pass divides the incoming remainder, moved one
position up, plus its word by `d`, leaving the outgoing remainder, then the whole loop
divides the value by `d`. -/
theorem rippleDown_spec (step : σ → BitVec w → BitVec w × σ) (d : ℕ) (c : σ → ℕ)
    (Inv : σ → Prop)
    (hstep : ∀ s x, Inv s → Inv (step s x).2 ∧
      c s * 2 ^ w + x.toNat = (step s x).1.toNat * d + c (step s x).2)
    {s : σ} (hs : Inv s) (xs : List (BitVec w)) :
    Inv (rippleDown step xs s).2 ∧
      c s * (2 ^ w) ^ xs.length + value xs
        = value (rippleDown step xs s).1 * d + c (rippleDown step xs s).2 := by
  induction xs with
  | nil => exact ⟨hs, by simp [rippleDown]⟩
  | cons x xs ih =>
    obtain ⟨hinv, hval⟩ := ih
    obtain ⟨hinv', hval'⟩ := hstep _ x hinv
    refine ⟨hinv', ?_⟩
    simp only [rippleDown, value_cons, List.length_cons, pow_succ]
    calc c s * ((2 ^ w) ^ xs.length * 2 ^ w) + (x.toNat + 2 ^ w * value xs)
        = (c s * (2 ^ w) ^ xs.length + value xs) * 2 ^ w + x.toNat := by ring
      _ = value (rippleDown step xs s).1 * d * 2 ^ w
            + (c (rippleDown step xs s).2 * 2 ^ w + x.toNat) := by rw [hval]; ring
      _ = _ := by rw [hval']; ring

end Radix
