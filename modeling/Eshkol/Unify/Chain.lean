import Eshkol.Unify.Correct

/-!
# Chains of Bindings

Bindings `x₀ = g(x₁), x₁ = g(x₂), …, xₘ₋₁ = g(xₘ)`. Each term is one level deep, but `x₀`
resolves to a term of depth `m`. An occurs check that looks at fewer levels does not find
`xₘ` there, so that `xₘ` and `g(x₀)` are unified by a binding that closes a cycle.
-/

namespace Unify

open Machine Relation

variable {T V L F : Type} [DecidableEq V]

/-- Variables `xᵢ` and compounds `g(xᵢ)` of an engine, for `i` up to a bound. -/
structure Links (E : Engine T V L) where
  bound : ℕ
  name : ℕ → V
  name_inj : ∀ {i j}, i ≤ bound → j ≤ bound → name i = name j → i = j
  var : ℕ → T
  link : ℕ → T
  label : L
  shape_var : ∀ i, E.shape (var i) = .var (name i)
  shape_link : ∀ i, E.shape (link i) = .compound label [var i]
  canonical_var : ∀ i, E.canonical (var i) = var i
  canonical_link : ∀ i, E.canonical (link i) = link i
  equal_link : ∀ i j, E.equal (var i) (link j) = false

namespace Links

variable {E : Engine T V L} (K : Links E) {S : Semantics E F}

/-- The chain from `x₀` to `xₘ`. -/
def chain (m : ℕ) : List (V × T) := (List.range m).map fun i => (K.name i, K.link (i + 1))

omit [DecidableEq V] in
theorem chain_succ (m : ℕ) : K.chain (m + 1) = K.chain m ++ [(K.name m, K.link (m + 1))] := by
  rw [chain, List.range_succ, List.map_append]
  rfl

variable {K}

variable {s : List (V × T)} {m j n : ℕ}

theorem lookup_append_none {v w : V} {t : T} (h : s.lookup w = none) (hne : w ≠ v) :
    (s ++ [(v, t)]).lookup w = none := by
  have hbeq : (w == v) = false := by simpa using hne
  simp [List.lookup_append, h, List.lookup_cons, hbeq]

theorem lookup_end (hm : m ≤ j) (hj : j ≤ K.bound) : (K.chain m).lookup (K.name j) = none := by
  induction m with
  | zero => rfl
  | succ m ih =>
    rw [chain_succ]
    refine lookup_append_none (ih (by omega)) ?_
    intro h
    have := K.name_inj hj (by omega) h
    omega

theorem lookup_link (hj : j < m) (hm : m ≤ K.bound + 1) :
    (K.chain m).lookup (K.name j) = some (K.link (j + 1)) := by
  induction m with
  | zero => omega
  | succ m ih =>
    rw [chain_succ, List.lookup_append]
    by_cases hjm : j = m
    · subst hjm
      rw [lookup_end le_rfl (by omega)]
      simp
    · rw [ih (by omega) (by omega)]
      rfl

theorem walk_link (s : List (V × T)) (j : ℕ) : E.walk s (K.link j) = .ok (K.link j) := by
  rw [Engine.walk, K.canonical_link, Engine.follow, K.shape_link]

theorem walk_free (h : s.lookup (K.name j) = none) : E.walk s (K.var j) = .ok (K.var j) := by
  rw [Engine.walk, K.canonical_var, Engine.follow, K.shape_var]
  simp only [h]

theorem walk_bound (hj : j < m) (hm : m ≤ K.bound + 1) :
    E.walk (K.chain m) (K.var j) = .ok (K.link (j + 1)) := by
  have hlen : (K.chain m).length = m := by rw [chain, List.length_map, List.length_range]
  obtain ⟨k, rfl⟩ : ∃ k, m = k + 1 := ⟨m - 1, by omega⟩
  rw [Engine.walk, hlen, K.canonical_var, Engine.follow, K.shape_var]
  simp only [lookup_link hj hm]
  rw [Engine.follow, K.shape_link]

/-! ### Chains are acyclic -/

theorem edge_link (hj : j < m) (hm : m ≤ K.bound + 1) :
    Edge (S.bindings (K.chain m)) (K.name j) (K.name (j + 1)) := by
  refine ⟨S.den (K.link (j + 1)), ?_, ?_⟩
  · rw [Semantics.lookup_bindings, lookup_link hj hm, Option.map_some]
  · rw [S.den_compound (K.shape_link (j + 1)), Term.mem_vars_app]
    refine ⟨S.den (K.var (j + 1)), by simp, ?_⟩
    rw [S.den_var (K.shape_var (j + 1))]
    simp

theorem path_chain (hj : j ≤ m) (hm : m ≤ K.bound + 1) :
    ReflTransGen (Edge (S.bindings (K.chain m))) (K.name 0) (K.name j) := by
  induction j with
  | zero => exact .refl
  | succ j ih => exact (ih (by omega)).tail (edge_link (by omega) hm)

theorem not_occurs_link (hm : m < K.bound) :
    ¬ Occurs (S.bindings (K.chain m)) (K.name m) (S.den (K.link (m + 1))) := by
  -- the next variable is free, and leads nowhere
  rw [S.den_compound (K.shape_link (m + 1)), occurs_app]
  rintro ⟨t, ht, u, hu, hpath⟩
  rw [List.map_cons, List.map_nil, List.mem_singleton] at ht
  subst ht
  rw [S.den_var (K.shape_var (m + 1)), Term.vars_var, List.mem_singleton] at hu
  subst hu
  rcases ReflTransGen.cases_head hpath with h | ⟨x, ⟨r, hr, -⟩, -⟩
  · have := K.name_inj hm (by omega) h
    omega
  · rw [Semantics.lookup_bindings, lookup_end (by omega) hm] at hr
    cases hr

theorem acyclic_chain (hm : m ≤ K.bound) : Acyclic (S.bindings (K.chain m)) := by
  induction m with
  | zero => exact acyclic_nil
  | succ m ih =>
    rw [chain_succ, Semantics.bindings_append]
    refine (ih (by omega)).append ?_ (not_occurs_link hm)
    rw [Semantics.lookup_bindings, lookup_end le_rfl (by omega), Option.map_none]

/-! ### Chains that are too long -/

theorem occursWithin_chain {k : ℕ} (hk : j + k ≤ m) (hm : m ≤ K.bound) :
    E.occursWithin (K.chain m) (K.name m) k (K.var j) = .ok false := by
  induction k generalizing j with
  | zero => rfl
  | succ k ih =>
    rw [Engine.occursWithin, walk_bound (by omega) (by omega), ok_bind, K.shape_link]
    simp only [Engine.anyM, ih (j := j + 1) (by omega), ok_bind]
    rfl

omit [DecidableEq V] in
theorem next_bind_link (i j : ℕ) : E.next (K.var i) (K.link j) = .bind (K.name i) (K.link j) := by
  rw [Engine.next, K.equal_link, K.shape_var]
  rfl

theorem unify_bind {i : ℕ} (hfree : s.lookup (K.name i) = none)
    (hocc : E.occursWithin s (K.name i) E.levels (K.link j) = .ok false) :
    E.unify (n + 1) (K.var i) (K.link j) (some s) = .ok (some (s ++ [(K.name i, K.link j)])) := by
  rw [Engine.unify, Option.getD_some, walk_free hfree, walk_link, ok_bind, ok_bind,
    next_bind_link, Engine.proceed, Engine.bindVar, Option.getD_some, hocc]
  rfl

theorem unify_extend (hm : m < K.bound) :
    E.unify (n + 1) (K.var m) (K.link (m + 1)) (some (K.chain m)) =
      .ok (some (K.chain (m + 1))) := by
  rw [chain_succ]
  refine unify_bind (lookup_end le_rfl (by omega)) ?_
  have hvar (k : ℕ) : E.occursWithin (K.chain m) (K.name m) k (K.var (m + 1)) = .ok false := by
    cases k with
    | zero => rfl
    | succ k =>
      rw [Engine.occursWithin, walk_free (lookup_end (by omega) (by omega)), ok_bind,
        K.shape_var]
      have hne : K.name (m + 1) ≠ K.name m := by
        intro h
        have := K.name_inj (by omega) (by omega) h
        omega
      simp [hne]
  cases E.levels with
  | zero => rfl
  | succ k =>
    rw [Engine.occursWithin, walk_link, ok_bind, K.shape_link]
    simp only [Engine.anyM, hvar, ok_bind]
    rfl

theorem checked_extend (hm : m < K.bound) (n : ℕ) :
    S.Checked n (K.var m) (K.link (m + 1)) (K.chain m) :=
  Semantics.checked_bind (walk_free (lookup_end le_rfl (by omega))) (walk_link _ _)
    (next_bind_link _ _) (.of_not_occurs (not_occurs_link hm)) n

theorem obtained_chain (S : Semantics E F) (hm : m ≤ K.bound) :
    Semantics.Obtained E (fun t₁ t₂ s => ∀ n, S.Checked n t₁ t₂ s) (some (K.chain m)) := by
  induction m with
  | zero => exact .empty
  | succ m ih =>
    exact .call (ih (by omega)) (checked_extend (by omega)) (unify_extend (n := 0) (by omega))

theorem unify_close (hlevels : E.levels = m + 1) (hm : m ≤ K.bound) :
    E.unify (n + 1) (K.var m) (K.link 0) (some (K.chain m)) =
      .ok (some (K.chain m ++ [(K.name m, K.link 0)])) := by
  refine unify_bind (lookup_end le_rfl hm) ?_
  rw [hlevels, Engine.occursWithin, walk_link, ok_bind, K.shape_link]
  simp only [Engine.anyM, occursWithin_chain (j := 0) (k := m) (by omega) hm, ok_bind]
  rfl

theorem occurs_close (hm : m ≤ K.bound) :
    Occurs (S.bindings (K.chain m)) (K.name m) (S.den (K.link 0)) := by
  rw [S.den_compound (K.shape_link 0), occurs_app]
  refine ⟨S.den (K.var 0), by simp, K.name 0, ?_, path_chain le_rfl (by omega)⟩
  rw [S.den_var (K.shape_var 0)]
  simp

theorem not_solves_close (hm : m ≤ K.bound) {θ : V → Term V F}
    (hθ : Solves θ (S.bindings (K.chain m))) :
    (S.den (K.var m)).apply θ ≠ (S.den (K.link 0)).apply θ := by
  have hocc := occurs_close (S := S) hm
  rw [S.den_compound (K.shape_link 0)] at hocc ⊢
  rw [S.den_var (K.shape_var m), Term.apply_var]
  exact hθ.ne_of_occurs hocc

theorem not_acyclic_close (hm : m ≤ K.bound) :
    ¬ Acyclic (S.bindings (K.chain m ++ [(K.name m, K.link 0)])) := by
  rw [Semantics.bindings_append]
  refine not_acyclic_append ?_ (occurs_close hm)
  rw [Semantics.lookup_bindings, lookup_end le_rfl hm, Option.map_none]

theorem obtained_cycle (hlevels : E.levels = m + 1) (hm : m ≤ K.bound) :
    ∃ s, Semantics.Obtained E (fun _ _ _ => True) (some s) ∧ ¬ Acyclic (S.bindings s) :=
  ⟨_, .call ((obtained_chain S hm).mono fun _ _ _ _ => trivial) trivial
    (unify_close (n := 0) hlevels hm), not_acyclic_close hm⟩

end Links

end Unify
