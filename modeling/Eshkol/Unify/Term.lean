import Mathlib.Algebra.GroupWithZero.Nat
import Mathlib.Algebra.Order.BigOperators.Group.List
import Mathlib.Algebra.Order.Group.Nat

/-!
# First-Order Terms

Terms over variables and symbols, and the substitutions that act on them. A substitution here
is any function from variables to terms; bindings as a unification algorithm holds them are
in `Unify.Triangular`.
-/

namespace Unify

/-- A variable, or a symbol applied to arguments. Constants have none. -/
inductive Term (V F : Type) : Type
  | var (v : V)
  | app (f : F) (args : List (Term V F))

namespace Term

variable {V F : Type}

@[elab_as_elim, induction_eliminator]
theorem induct {p : Term V F → Prop} (var : ∀ v, p (.var v))
    (app : ∀ f args, (∀ t ∈ args, p t) → p (.app f args)) : ∀ t, p t
  | .var v => var v
  | .app f args => app f args fun t _ => induct var app t

/-- The variables of a term. -/
def vars : Term V F → List V
  | .var v => [v]
  | .app _ args => args.flatMap vars

/-- The value of a term under a substitution. -/
def apply (θ : V → Term V F) : Term V F → Term V F
  | .var v => θ v
  | .app f args => .app f (args.map (apply θ))

/-- The number of nodes. -/
def size : Term V F → ℕ
  | .var _ => 1
  | .app _ args => 1 + (args.map size).sum

/-- How deep arguments are nested. -/
def depth : Term V F → ℕ
  | .var _ => 0
  | .app _ args => (args.map fun t => depth t + 1).foldr max 0

@[simp] theorem vars_var (v : V) : (var v : Term V F).vars = [v] := by rw [vars]

variable {f : F} {args : List (Term V F)} {v : V} {t : Term V F}

@[simp] theorem mem_vars_app : v ∈ (app f args).vars ↔ ∃ t ∈ args, v ∈ t.vars := by
  rw [vars, List.mem_flatMap]

@[simp] theorem apply_var (θ : V → Term V F) (v : V) : (var v).apply θ = θ v := by rw [apply]

@[simp] theorem apply_app (θ : V → Term V F) (f : F) (args : List (Term V F)) :
    (app f args).apply θ = app f (args.map (apply θ)) := by
  rw [apply]

theorem size_lt_of_mem (h : t ∈ args) : t.size < (app f args).size := by
  have hle : t.size ≤ (args.map size).sum :=
    List.single_le_sum (fun _ _ => Nat.zero_le _) _ (List.mem_map_of_mem h)
  rw [size]
  omega

theorem apply_congr {θ η : V → Term V F} (h : ∀ v ∈ t.vars, θ v = η v) : t.apply θ = t.apply η := by
  induction t with
  | var v => simpa using h v (by simp)
  | app f args ih =>
    rw [apply_app, apply_app, List.map_congr_left]
    intro t ht
    exact ih t ht fun v hv => h v (mem_vars_app.mpr ⟨t, ht, hv⟩)

theorem apply_apply (θ η : V → Term V F) (t : Term V F) :
    (t.apply η).apply θ = t.apply fun v => (η v).apply θ := by
  induction t with
  | var v => simp
  | app f args ih =>
    rw [apply_app, apply_app, apply_app, List.map_map, List.map_congr_left]
    exact fun t ht => ih t ht

theorem size_le_of_mem_vars (θ : V → Term V F) (h : v ∈ t.vars) :
    (θ v).size ≤ (t.apply θ).size := by
  induction t with
  | var w =>
    rw [vars_var, List.mem_singleton] at h
    rw [h, apply_var]
  | app f args ih =>
    obtain ⟨t, ht, hv⟩ := mem_vars_app.mp h
    rw [apply_app]
    exact (ih t ht hv).trans (size_lt_of_mem (List.mem_map_of_mem ht)).le

theorem size_lt_of_occurs (θ : V → Term V F) (h : v ∈ (app f args).vars) :
    (θ v).size < ((app f args).apply θ).size := by
  obtain ⟨t, ht, hv⟩ := mem_vars_app.mp h
  rw [apply_app]
  exact (size_le_of_mem_vars θ hv).trans_lt (size_lt_of_mem (List.mem_map_of_mem ht))

/-! ### Depth -/

theorem depth_le_iff {d : ℕ} : (app f args).depth ≤ d ↔ ∀ t ∈ args, t.depth + 1 ≤ d := by
  rw [depth]
  induction args with
  | nil => simp
  | cons t ts ih => simp [ih]

theorem depth_le_apply (θ : V → Term V F) (t : Term V F) : t.depth ≤ (t.apply θ).depth := by
  induction t with
  | var v => simp [depth]
  | app f args ih =>
    rw [depth_le_iff]
    intro t ht
    rw [apply_app]
    have hle : (t.apply θ).depth + 1 ≤ (app f (args.map (apply θ))).depth :=
      depth_le_iff.mp le_rfl _ (List.mem_map_of_mem ht)
    exact (Nat.add_le_add_right (ih t ht) 1).trans hle

end Term

end Unify
