import Mathlib.Data.List.Forall2
import Mathlib.Data.Nat.GCD.Basic
import Mathlib.Tactic.Linarith

/-!
# Executions of C Functions

A C function either returns a value, raises an exception of the program's own, loops for
ever, or has undefined behaviour. `Exec ε α` is `Except` over these outcomes: `ε` is the
program's exception type.

Signed arithmetic is checked: `signed w x` is the value `x` when it fits a `w`-bit signed
integer and undefined behaviour otherwise, so a theorem that a computation returns says
in particular that none of its signed temporaries overflows. Unsigned arithmetic wraps and
is written with an explicit remainder where it occurs.

## Main results

* `signed_eq_ok`, `signedDiv_eq_ok`: signed temporaries in range are defined.
* `Yields.unique`: what a procedure yields does not depend on how many calls it may make.
* `bind_eq_ok`: inversion of a sequence of two computations that returns.
* `euclid_spec`: Euclid's loop computes the greatest common divisor, at any fuel above
  the second operand.
-/

namespace Machine

variable {α β ε : Type}

/-- Why an execution yields no value. -/
inductive Fault (ε : Type) : Type
  | undefined
  | diverges
  | raised (e : ε)
  deriving DecidableEq, Repr

/-- An execution that may raise an exception of type `ε`. -/
abbrev Exec (ε α : Type) : Type := Except (Fault ε) α

@[simp] theorem ok_bind (a : α) (f : α → Exec ε β) : ((Except.ok a : Exec ε α) >>= f) = f a := rfl

@[simp] theorem error_bind (e : Fault ε) (f : α → Exec ε β) :
    ((Except.error e : Exec ε α) >>= f) = Except.error e := rfl

variable {f : α → Exec ε β} {as : List α} {bs : List β} {w : ℕ} {x y : ℤ}

theorem bind_eq_ok {x : Exec ε α} {r : β} : (x >>= f) = .ok r ↔ ∃ a, x = .ok a ∧ f a = .ok r := by
  cases x with
  | error e => simp
  | ok a => simp

theorem mapM_eq_ok : as.mapM f = .ok bs ↔ List.Forall₂ (fun a b => f a = .ok b) as bs := by
  induction as generalizing bs with
  | nil =>
    rw [List.mapM_nil, List.forall₂_nil_left_iff]
    change Except.ok [] = Except.ok bs ↔ _
    simp [eq_comm]
  | cons a as ih =>
    rw [List.mapM_cons, bind_eq_ok, List.forall₂_cons_left_iff]
    constructor
    · rintro ⟨b, hb, h⟩
      obtain ⟨bs', hbs, h⟩ := bind_eq_ok.mp h
      exact ⟨b, bs', hb, ih.mp hbs, (Except.ok.inj h).symm⟩
    · rintro ⟨b, bs', hb, hbs, rfl⟩
      exact ⟨b, hb, bind_eq_ok.mpr ⟨bs', ih.mpr hbs, rfl⟩⟩

theorem mapM_ok_of_mem (h : as.mapM f = .ok bs) {a : α} (ha : a ∈ as) : ∃ b, f a = .ok b := by
  replace h := mapM_eq_ok.mp h
  induction h with
  | nil => simp at ha
  | cons hb _ ih =>
    rcases List.mem_cons.mp ha with rfl | ha
    · exact ⟨_, hb⟩
    · exact ih ha

theorem map_of_mapM_eq_ok {γ : Type} {g : β → γ} {k : α → γ} (h : as.mapM f = .ok bs)
    (hg : ∀ a ∈ as, ∀ b, f a = .ok b → g b = k a) : bs.map g = as.map k := by
  replace h := mapM_eq_ok.mp h
  induction h with
  | nil => rfl
  | @cons a b as bs hb _ ih =>
    rw [List.map_cons, List.map_cons, hg a (by simp) b hb]
    rw [ih fun x hx => hg x (by simp [hx])]

theorem mapM_total (h : ∀ a ∈ as, ∃ b, f a = .ok b) : ∃ bs, as.mapM f = .ok bs := by
  induction as with
  | nil => exact ⟨[], rfl⟩
  | cons a as ih =>
    obtain ⟨b, hb⟩ := h a (by simp)
    obtain ⟨bs, hbs⟩ := ih fun x hx => h x (by simp [hx])
    exact ⟨b :: bs, mapM_eq_ok.mpr (.cons hb (mapM_eq_ok.mp hbs))⟩

/-! ### Signed temporaries -/

/-- A `w`-bit signed temporary of mathematical value `x`. Overflow is undefined. -/
def signed (w : ℕ) (x : ℤ) : Exec ε ℤ :=
  if -2 ^ (w - 1) ≤ x ∧ x < 2 ^ (w - 1) then .ok x else .error .undefined

theorem signed_eq_ok (hlo : -2 ^ (w - 1) ≤ x) (hhi : x < 2 ^ (w - 1)) :
    (signed w x : Exec ε ℤ) = .ok x :=
  if_pos ⟨hlo, hhi⟩

theorem signed_eq_undefined (h : x < -2 ^ (w - 1) ∨ 2 ^ (w - 1) ≤ x) :
    (signed w x : Exec ε ℤ) = .error .undefined :=
  if_neg (by omega)

theorem signed_eq_ok_iff :
    (signed w x : Exec ε ℤ) = .ok y ↔ y = x ∧ -2 ^ (w - 1) ≤ x ∧ x < 2 ^ (w - 1) := by
  unfold signed
  split
  next h => simp [h, eq_comm]
  next h => simp [h]

/-- Division of `w`-bit signed integers, truncating. Division by zero is undefined, and so
is the one quotient out of range. -/
def signedDiv (w : ℕ) (x y : ℤ) : Exec ε ℤ :=
  if y = 0 then .error .undefined else signed w (x.tdiv y)

/-- Remainder of `w`-bit signed integers, defined when the quotient is. -/
def signedRem (w : ℕ) (x y : ℤ) : Exec ε ℤ := do
  let _ ← signedDiv w x y
  .ok (x.tmod y)

theorem signedDiv_eq_ok (hlo : -2 ^ (w - 1) ≤ x) (hhi : x < 2 ^ (w - 1)) (hy : 0 < y) :
    (signedDiv w x y : Exec ε ℤ) = .ok (x.tdiv y) := by
  have habs := Int.natAbs_tdiv_le_natAbs x y
  rw [signedDiv, if_neg hy.ne', signed_eq_ok]
  · rcases le_total 0 x with h | h
    · have := Int.tdiv_nonneg h hy.le
      omega
    · omega
  · rcases le_total 0 x with h | h
    · omega
    · have hneg := Int.tdiv_nonneg (Int.neg_nonneg.mpr h) hy.le
      rw [Int.neg_tdiv] at hneg
      have : (0 : ℤ) < 2 ^ (w - 1) := by positivity
      omega

theorem signedRem_eq_ok (hlo : -2 ^ (w - 1) ≤ x) (hhi : x < 2 ^ (w - 1)) (hy : 0 < y) :
    (signedRem w x y : Exec ε ℤ) = .ok (x.tmod y) := by
  rw [signedRem, signedDiv_eq_ok hlo hhi hy, ok_bind]

/-- A value returned as an `int64_t`. -/
def int64 (x : ℤ) : Exec ε Int64 := do
  let x ← signed 64 x
  .ok (Int64.ofInt x)

theorem int64_eq_ok (hlo : -2 ^ 63 ≤ x) (hhi : x < 2 ^ 63) :
    ∃ v : Int64, (int64 x : Exec ε Int64) = .ok v ∧ v.toInt = x :=
  ⟨Int64.ofInt x, by rw [int64, signed_eq_ok hlo hhi, ok_bind],
    Int64.toInt_ofInt_of_le hlo hhi⟩

theorem returns_iff {e : Exec ε Int64} {z : ℤ} (h : ∃ v, e = .ok v ∧ v.toInt = z)
    (P : ℤ → Prop) : (∃ v, e = .ok v ∧ P v.toInt) ↔ P z := by
  obtain ⟨v, hv, rfl⟩ := h
  constructor
  · rintro ⟨v', hv', hP⟩
    rw [hv] at hv'
    cases hv'
    exact hP
  · intro hP
    exact ⟨v, hv, hP⟩

/-! ### Bounded numbers of calls -/

/-- A procedure that returns once it may make enough calls. -/
def Yields (f : ℕ → Exec ε α) (out : α) : Prop :=
  ∃ enough, ∀ calls, enough ≤ calls → f calls = .ok out

theorem Yields.unique {f : ℕ → Exec ε α} {out out' : α} (h : Yields f out)
    (h' : Yields f out') : out = out' := by
  obtain ⟨n, hn⟩ := h
  obtain ⟨m, hm⟩ := h'
  have heq := (hn _ (Nat.le_max_left n m)).symm.trans (hm _ (Nat.le_max_right n m))
  exact Except.ok.inj heq

/-! ### Euclid's loop -/

/-- `while (y != 0) { r = x % y; x = y; y = r; }`, for operands of any type with a test
for zero and a remainder. -/
def euclid (isZero : α → Bool) (rem : α → α → Exec ε α) : ℕ → α → α → Exec ε α
  | 0, _, _ => .error .diverges
  | fuel + 1, x, y =>
    if isZero y then .ok x
    else do
      let r ← rem x y
      euclid isZero rem fuel y r

/-- **Euclid's loop computes the gcd.** `P` holds of the operands and is kept by the
remainder; `m` is the magnitude the remainder acts on. -/
theorem euclid_spec (isZero : α → Bool) (rem : α → α → Exec ε α) (P : α → Prop) (m : α → ℕ)
    (hzero : ∀ y, P y → (isZero y = true ↔ m y = 0))
    (hrem : ∀ x y, P x → P y → m y ≠ 0 → ∃ r, rem x y = .ok r ∧ P r ∧ m r = m x % m y)
    {fuel : ℕ} {x y : α} (hx : P x) (hy : P y) (hfuel : m y < fuel) :
    ∃ g, euclid isZero rem fuel x y = .ok g ∧ P g ∧ m g = Nat.gcd (m x) (m y) := by
  induction fuel generalizing x y with
  | zero => omega
  | succ fuel ih =>
    rw [euclid]
    by_cases hz : m y = 0
    · exact ⟨x, by rw [if_pos ((hzero y hy).mpr hz)], hx, by simp [hz]⟩
    · obtain ⟨r, hr, hPr, hmr⟩ := hrem x y hx hy hz
      have hlt : m r < m y := hmr ▸ Nat.mod_lt _ (Nat.pos_of_ne_zero hz)
      obtain ⟨g, hg, hPg, hmg⟩ := ih hy hPr (by omega)
      refine ⟨g, ?_, hPg, ?_⟩
      · rw [if_neg (fun h => hz ((hzero y hy).mp h)), hr, ok_bind, hg]
      · rw [hmg, hmr, Nat.gcd_comm, ← Nat.gcd_rec, Nat.gcd_comm]

end Machine
