import Mathlib.Data.Nat.Notation
import Mathlib.Order.Basic

/-!
# Lambda Terms

Terms of the untyped lambda calculus with de Bruijn indices that start at zero. Renamings and
substitutions act on all free variables at once, so that substitution avoids capture by
construction: below a binder the substituted terms are renamed past it.
-/

namespace Lambda

/-- A term. -/
inductive Term : Type
  | var (i : ℕ)
  | lam (b : Term)
  | app (f a : Term)
  deriving DecidableEq

namespace Term

/-! ### Renaming and substitution -/

/-- A renaming below a binder. -/
def upRen (ρ : ℕ → ℕ) : ℕ → ℕ
  | 0 => 0
  | i + 1 => ρ i + 1

/-- The free variables are renamed. -/
def rename : (ℕ → ℕ) → Term → Term
  | ρ, var i => var (ρ i)
  | ρ, lam b => lam (rename (upRen ρ) b)
  | ρ, app f a => app (rename ρ f) (rename ρ a)

/-- A term for the innermost variable, and a substitution for the others. -/
def scons (t : Term) (σ : ℕ → Term) : ℕ → Term
  | 0 => t
  | i + 1 => σ i

/-- A substitution below a binder: what is substituted is renamed past it. -/
def up (σ : ℕ → Term) : ℕ → Term := scons (var 0) fun i => (σ i).rename Nat.succ

/-- Terms are substituted for the free variables. -/
def inst : (ℕ → Term) → Term → Term
  | σ, var i => σ i
  | σ, lam b => lam (inst (up σ) b)
  | σ, app f a => app (inst σ f) (inst σ a)

/-- What the redex `(λ b) a` is contracted to. -/
def contract (b a : Term) : Term := b.inst (scons a var)

theorem upRen_comp (ρ ρ' : ℕ → ℕ) : upRen ρ' ∘ upRen ρ = upRen (ρ' ∘ ρ) := by
  funext i
  cases i with
  | zero => rfl
  | succ i => rfl

theorem rename_rename (ρ ρ' : ℕ → ℕ) (t : Term) : (t.rename ρ).rename ρ' = t.rename (ρ' ∘ ρ) := by
  induction t generalizing ρ ρ' with
  | var i => rfl
  | lam b ih => rw [rename, rename, rename, ih, upRen_comp]
  | app f a ihf iha => rw [rename, rename, rename, ihf, iha]

theorem up_comp_upRen (ρ : ℕ → ℕ) (σ : ℕ → Term) : up σ ∘ upRen ρ = up (σ ∘ ρ) := by
  funext i
  cases i with
  | zero => rfl
  | succ i => rfl

theorem inst_rename (ρ : ℕ → ℕ) (σ : ℕ → Term) (t : Term) :
    (t.rename ρ).inst σ = t.inst (σ ∘ ρ) := by
  induction t generalizing ρ σ with
  | var i => rfl
  | lam b ih => rw [rename, inst, inst, ih, up_comp_upRen]
  | app f a ihf iha => rw [rename, inst, inst, ihf, iha]

theorem rename_up (ρ : ℕ → ℕ) (σ : ℕ → Term) :
    (fun i => (up σ i).rename (upRen ρ)) = up fun i => (σ i).rename ρ := by
  funext i
  cases i with
  | zero => rfl
  | succ i =>
    change ((σ i).rename Nat.succ).rename (upRen ρ) = ((σ i).rename ρ).rename Nat.succ
    rw [rename_rename, rename_rename]
    rfl

theorem rename_inst (ρ : ℕ → ℕ) (σ : ℕ → Term) (t : Term) :
    (t.inst σ).rename ρ = t.inst fun i => (σ i).rename ρ := by
  induction t generalizing ρ σ with
  | var i => rfl
  | lam b ih => rw [inst, rename, inst, ih, rename_up]
  | app f a ihf iha => rw [inst, rename, inst, ihf, iha]

theorem inst_up (σ τ : ℕ → Term) : (fun i => (up σ i).inst (up τ)) = up fun i => (σ i).inst τ := by
  funext i
  cases i with
  | zero => rfl
  | succ i =>
    change ((σ i).rename Nat.succ).inst (up τ) = ((σ i).inst τ).rename Nat.succ
    rw [inst_rename, rename_inst]
    rfl

theorem inst_inst (σ τ : ℕ → Term) (t : Term) :
    (t.inst σ).inst τ = t.inst fun i => (σ i).inst τ := by
  induction t generalizing σ τ with
  | var i => rfl
  | lam b ih => rw [inst, inst, inst, ih, inst_up]
  | app f a ihf iha => rw [inst, inst, inst, ihf, iha]

theorem up_var : up var = var := by
  funext i
  cases i with
  | zero => rfl
  | succ i => rfl

theorem inst_var (t : Term) : t.inst var = t := by
  induction t with
  | var i => rfl
  | lam b ih => rw [inst, up_var, ih]
  | app f a ihf iha => rw [inst, ihf, iha]

theorem inst_scons_rename (t a : Term) (σ : ℕ → Term) :
    (t.rename Nat.succ).inst (scons a σ) = t.inst σ := by
  rw [inst_rename]
  rfl

theorem inst_contract (b a : Term) (σ : ℕ → Term) :
    (contract b a).inst σ = contract (b.inst (up σ)) (a.inst σ) := by
  rw [contract, contract, inst_inst, inst_inst]
  congr 1
  funext i
  cases i with
  | zero => rfl
  | succ i =>
    change σ i = ((σ i).rename Nat.succ).inst (scons (a.inst σ) var)
    rw [inst_scons_rename, inst_var]

/-! ### Free variables -/

/-- Every free variable is below a bound. -/
def FreeBelow : ℕ → Term → Prop
  | k, var i => i < k
  | k, lam b => FreeBelow (k + 1) b
  | k, app f a => FreeBelow k f ∧ FreeBelow k a

instance FreeBelow.decidable : (k : ℕ) → (t : Term) → Decidable (FreeBelow k t)
  | k, var i => inferInstanceAs (Decidable (i < k))
  | k, lam b => FreeBelow.decidable (k + 1) b
  | k, app f a =>
    haveI := FreeBelow.decidable k f
    haveI := FreeBelow.decidable k a
    inferInstanceAs (Decidable (_ ∧ _))

/-- A term without free variables. -/
def Closed (t : Term) : Prop := FreeBelow 0 t

instance (t : Term) : Decidable t.Closed := inferInstanceAs (Decidable (FreeBelow 0 t))

variable {k k' : ℕ} {t : Term}

theorem FreeBelow.mono (h : FreeBelow k t) (hk : k ≤ k') : FreeBelow k' t := by
  induction t generalizing k k' with
  | var i => exact Nat.lt_of_lt_of_le h hk
  | lam b ih => exact ih h (Nat.succ_le_succ hk)
  | app f a ihf iha => exact ⟨ihf h.1 hk, iha h.2 hk⟩

theorem FreeBelow.rename {ρ : ℕ → ℕ} (h : FreeBelow k t) (hρ : ∀ i, i < k → ρ i < k') :
    FreeBelow k' (t.rename ρ) := by
  induction t generalizing k k' ρ with
  | var i => exact hρ i h
  | lam b ih =>
    refine ih h fun i hi => ?_
    cases i with
    | zero => exact Nat.succ_pos k'
    | succ i => exact Nat.succ_lt_succ (hρ i (Nat.lt_of_succ_lt_succ hi))
  | app f a ihf iha => exact ⟨ihf h.1 hρ, iha h.2 hρ⟩

theorem FreeBelow.inst {σ : ℕ → Term} (h : FreeBelow k t) (hσ : ∀ i, i < k → FreeBelow k' (σ i)) :
    FreeBelow k' (t.inst σ) := by
  induction t generalizing k k' σ with
  | var i => exact hσ i h
  | lam b ih =>
    refine ih h fun i hi => ?_
    cases i with
    | zero => exact Nat.succ_pos k'
    | succ i =>
      exact (hσ i (Nat.lt_of_succ_lt_succ hi)).rename fun j hj => Nat.succ_lt_succ hj
  | app f a ihf iha => exact ⟨ihf h.1 hσ, iha h.2 hσ⟩

theorem FreeBelow.contract {b a : Term} (hb : FreeBelow (k + 1) b) (ha : FreeBelow k a) :
    FreeBelow k (contract b a) := by
  refine hb.inst fun i hi => ?_
  cases i with
  | zero => exact ha
  | succ i => exact Nat.lt_of_succ_lt_succ hi

theorem inst_congr {σ τ : ℕ → Term} (h : FreeBelow k t) (hστ : ∀ i, i < k → σ i = τ i) :
    t.inst σ = t.inst τ := by
  induction t generalizing k σ τ with
  | var i => exact hστ i h
  | lam b ih =>
    rw [inst, inst, ih h fun i hi => ?_]
    cases i with
    | zero => rfl
    | succ i => exact congrArg (rename Nat.succ) (hστ i (Nat.lt_of_succ_lt_succ hi))
  | app f a ihf iha => rw [inst, inst, ihf h.1 hστ, iha h.2 hστ]

theorem Closed.inst_eq (h : t.Closed) (σ : ℕ → Term) : t.inst σ = t := by
  rw [inst_congr h fun i hi => absurd hi (Nat.not_lt_zero i), inst_var]

theorem rename_eq_inst (ρ : ℕ → ℕ) (t : Term) : t.rename ρ = t.inst fun i => var (ρ i) := by
  have h := rename_inst ρ var t
  rwa [inst_var] at h

theorem Closed.rename_eq (h : t.Closed) (ρ : ℕ → ℕ) : t.rename ρ = t := by
  rw [rename_eq_inst, h.inst_eq]

end Term

end Lambda
