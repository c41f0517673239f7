import Mathlib.Data.Finset.Card
import Mathlib.Data.Finset.Dedup
import Mathlib.Logic.Relation
import Eshkol.Unify.Term

/-!
# Triangular Substitutions

A unification algorithm that does not apply its substitution to itself keeps a list of
bindings in which the terms may hold variables that are bound further on. Such a list is a
set of equations. A substitution solves it if it gives both sides of each equation the same
value, and every solution is an instance of `solution`, which looks variables up again and
again. That one is itself a solution when no variable is reachable from its own binding.
-/

namespace Unify

open Relation

variable {V F : Type} [DecidableEq V]

/-- Bindings of variables to terms. The first binding of a variable counts. -/
abbrev Bindings (V F : Type) : Type := List (V × Term V F)

/-- A substitution under which both sides of each binding have the same value. -/
def Solves (θ : V → Term V F) (B : Bindings V F) : Prop :=
  ∀ v t, B.lookup v = some t → θ v = t.apply θ

/-- The variables in the term that a variable is bound to. -/
def Edge (B : Bindings V F) (v u : V) : Prop := ∃ t, B.lookup v = some t ∧ u ∈ t.vars

/-- No variable is reachable from its own binding. -/
def Acyclic (B : Bindings V F) : Prop := ∀ v, ¬ TransGen (Edge B) v v

/-- A variable occurs in a term, or in what the variables of the term are bound to. -/
def Occurs (B : Bindings V F) (v : V) (t : Term V F) : Prop :=
  ∃ u ∈ t.vars, ReflTransGen (Edge B) u v

/-- A variable occurs in a term below so many symbols, where the variables of the term are resolved
as far as they are bound. -/
inductive OccursAt (B : Bindings V F) (v : V) : ℕ → Term V F → Prop
  | here : OccursAt B v 0 (.var v)
  | bound {k : ℕ} {u : V} {t : Term V F} (hu : B.lookup u = some t) (ht : OccursAt B v k t) :
      OccursAt B v k (.var u)
  | arg {k : ℕ} {f : F} {args : List (Term V F)} {t : Term V F} (ht : t ∈ args)
      (hocc : OccursAt B v k t) : OccursAt B v (k + 1) (.app f args)

/-! ### A further binding -/

theorem lookup_append_single (B : Bindings V F) (v w : V) (t : Term V F) :
    (B ++ [(v, t)]).lookup w = (B.lookup w).or (if w = v then some t else none) := by
  rw [List.lookup_append]
  by_cases h : w = v
  · simp [h]
  · have hne : (w == v) = false := by simpa using h
    simp [h, List.lookup_cons, hne]

section Append

variable {B : Bindings V F} {v : V} {t : Term V F}

theorem lookup_append_of_ne {w : V} (h : w ≠ v) : (B ++ [(v, t)]).lookup w = B.lookup w := by
  rw [lookup_append_single, if_neg h, Option.or_none]

theorem lookup_append_self (h : B.lookup v = none) : (B ++ [(v, t)]).lookup v = some t := by
  rw [lookup_append_single, h, if_pos rfl, Option.none_or]

theorem solves_append (h : B.lookup v = none) {θ : V → Term V F} :
    Solves θ (B ++ [(v, t)]) ↔ Solves θ B ∧ θ v = t.apply θ := by
  constructor
  · intro hθ
    refine ⟨?_, hθ v t (lookup_append_self h)⟩
    intro w u hw
    have hne : w ≠ v := by
      rintro rfl
      simp [h] at hw
    exact hθ w u (by rw [lookup_append_of_ne hne, hw])
  · rintro ⟨hθ, hv⟩ w u hw
    by_cases hwv : w = v
    · subst hwv
      rw [lookup_append_self h, Option.some.injEq] at hw
      rw [hv, hw]
    · rw [lookup_append_of_ne hwv] at hw
      exact hθ w u hw

theorem edge_append_of_ne {w u : V} (h : w ≠ v) : Edge (B ++ [(v, t)]) w u ↔ Edge B w u := by
  rw [Edge, Edge, lookup_append_of_ne h]

theorem edge_append_self (h : B.lookup v = none) {u : V} :
    Edge (B ++ [(v, t)]) v u ↔ u ∈ t.vars := by
  simp [Edge, lookup_append_self h]

theorem path_append {u w : V} (h : ReflTransGen (Edge (B ++ [(v, t)])) u w) :
    ReflTransGen (Edge B) u w ∨
      ReflTransGen (Edge B) u v ∧ ReflTransGen (Edge (B ++ [(v, t)])) v w := by
  induction h with
  | refl => exact .inl .refl
  | @tail x y hpath hedge ih =>
    rcases ih with hold | ⟨hold, hnew⟩
    · by_cases hx : x = v
      · subst hx
        exact .inr ⟨hold, .single hedge⟩
      · exact .inl (hold.tail ((edge_append_of_ne hx).mp hedge))
    · exact .inr ⟨hold, hnew.tail hedge⟩

theorem edge_append_of_edge (h : B.lookup v = none) {w u : V} (he : Edge B w u) :
    Edge (B ++ [(v, t)]) w u := by
  obtain ⟨s, hs, -⟩ := id he
  have hne : w ≠ v := by
    rintro rfl
    simp [h] at hs
  exact (edge_append_of_ne hne).mpr he

theorem path_append_of_path (h : B.lookup v = none) {u w : V} (hpath : ReflTransGen (Edge B) u w) :
    ReflTransGen (Edge (B ++ [(v, t)])) u w := by
  induction hpath with
  | refl => exact .refl
  | tail _ hedge ih => exact ih.tail (edge_append_of_edge h hedge)

theorem Acyclic.append (hB : Acyclic B) (hfree : B.lookup v = none) (hocc : ¬ Occurs B v t) :
    Acyclic (B ++ [(v, t)]) := by
  have hself : ¬ TransGen (Edge (B ++ [(v, t)])) v v := by
    intro hcycle
    obtain ⟨u, hedge, hback⟩ := TransGen.head'_iff.mp hcycle
    refine hocc ⟨u, (edge_append_self hfree).mp hedge, ?_⟩
    rcases path_append hback with hpath | ⟨hpath, -⟩
    · exact hpath
    · exact hpath
  intro w hcycle
  obtain ⟨u, hedge, hback⟩ := TransGen.head'_iff.mp hcycle
  by_cases hw : w = v
  · subst hw
    exact hself hcycle
  · rcases path_append hback with hpath | ⟨hpath, hnew⟩
    · exact hB w (TransGen.head' ((edge_append_of_ne hw).mp hedge) hpath)
    · -- the cycle goes through the bound variable
      have hpath' : ReflTransGen (Edge (B ++ [(v, t)])) u v := path_append_of_path hfree hpath
      exact hself (TransGen.trans_right hnew (TransGen.head' hedge hpath'))

theorem not_acyclic_append (hfree : B.lookup v = none) (hocc : Occurs B v t) :
    ¬ Acyclic (B ++ [(v, t)]) := by
  obtain ⟨u, hu, hpath⟩ := hocc
  intro h
  exact h v (TransGen.head' ((edge_append_self hfree).mpr hu) (path_append_of_path hfree hpath))

end Append

theorem acyclic_nil : Acyclic ([] : Bindings V F) := by
  intro v h
  obtain ⟨u, ⟨t, ht, -⟩, -⟩ := TransGen.head'_iff.mp h
  simp at ht

/-! ### Looking up -/

/-- The values of variables after looking up `n` times. -/
def resolve (B : Bindings V F) : ℕ → V → Term V F
  | 0, v => .var v
  | n + 1, v => match B.lookup v with
    | none => .var v
    | some t => t.apply (resolve B n)

/-- Looking up as often as there are bindings. -/
def solution (B : Bindings V F) : V → Term V F := resolve B (B.length + 1)

section Resolve

variable {B : Bindings V F}

theorem resolve_of_free {v : V} (h : B.lookup v = none) (n : ℕ) : resolve B n v = .var v := by
  cases n with
  | zero => rfl
  | succ n => rw [resolve, h]

theorem resolve_of_bound {v : V} {t : Term V F} (h : B.lookup v = some t) (n : ℕ) :
    resolve B (n + 1) v = t.apply (resolve B n) := by
  rw [resolve, h]

theorem Solves.apply_resolve {θ : V → Term V F} (hθ : Solves θ B) (n : ℕ) (v : V) :
    (resolve B n v).apply θ = θ v := by
  induction n generalizing v with
  | zero => rw [resolve, Term.apply_var]
  | succ n ih =>
    cases h : B.lookup v with
    | none => rw [resolve_of_free h, Term.apply_var]
    | some t =>
      rw [resolve_of_bound h, Term.apply_apply, hθ v t h]
      exact Term.apply_congr fun u _ => ih u

open Classical in
/-- The bound variables that a variable leads to. -/
noncomputable def reach (B : Bindings V F) (v : V) : Finset V :=
  (B.map Prod.fst).toFinset.filter fun u => ReflTransGen (Edge B) v u

theorem mem_dom_of_lookup {v : V} {t : Term V F} (h : B.lookup v = some t) :
    v ∈ (B.map Prod.fst).toFinset := by
  rw [List.mem_toFinset, List.mem_map]
  obtain ⟨l₁, l₂, hB, -⟩ := List.lookup_eq_some_iff.mp h
  exact ⟨(v, t), by simp [hB], rfl⟩

theorem Acyclic.card_reach_lt (hB : Acyclic B) {v u : V} (h : Edge B v u) :
    (reach B u).card < (reach B v).card := by
  apply Finset.card_lt_card
  rw [Finset.ssubset_iff_of_subset]
  · obtain ⟨t, ht, -⟩ := id h
    refine ⟨v, ?_, ?_⟩
    · simp only [reach, Finset.mem_filter]
      exact ⟨mem_dom_of_lookup ht, .refl⟩
    · simp only [reach, Finset.mem_filter, not_and]
      exact fun _ hback => hB v (TransGen.head' h hback)
  · intro w hw
    simp only [reach, Finset.mem_filter] at hw ⊢
    exact ⟨hw.1, .head h hw.2⟩

open Classical in
theorem card_reach_le (B : Bindings V F) (v : V) : (reach B v).card ≤ B.length := by
  calc (reach B v).card ≤ (B.map Prod.fst).toFinset.card :=
        Finset.card_le_card (Finset.filter_subset _ _)
    _ ≤ (B.map Prod.fst).length := List.toFinset_card_le _
    _ = B.length := List.length_map _

theorem Acyclic.resolve_succ (hB : Acyclic B) {n : ℕ} {v : V} (h : (reach B v).card < n) :
    resolve B (n + 1) v = resolve B n v := by
  induction n generalizing v with
  | zero => omega
  | succ n ih =>
    cases hv : B.lookup v with
    | none => rw [resolve_of_free hv, resolve_of_free hv]
    | some t =>
      rw [resolve_of_bound hv, resolve_of_bound hv]
      apply Term.apply_congr
      intro u hu
      have hlt := hB.card_reach_lt ⟨t, hv, hu⟩
      exact ih (by omega)

theorem solution_of_free {v : V} (h : B.lookup v = none) : solution B v = .var v :=
  resolve_of_free h _

theorem Acyclic.solves_solution (hB : Acyclic B) : Solves (solution B) B := by
  intro v t h
  rw [solution, resolve_of_bound h]
  apply Term.apply_congr
  intro u hu
  have hlt := hB.card_reach_lt ⟨t, h, hu⟩
  have hle := card_reach_le B v
  exact (hB.resolve_succ (by omega)).symm

end Resolve

/-! ### Occurrences -/

section Occurrences

variable {B : Bindings V F} {θ : V → Term V F}

theorem Solves.size_le_of_edge (hθ : Solves θ B) {u v : V} (h : Edge B u v) :
    (θ v).size ≤ (θ u).size := by
  obtain ⟨t, ht, hv⟩ := h
  rw [hθ u t ht]
  exact Term.size_le_of_mem_vars θ hv

theorem Solves.size_le_of_path (hθ : Solves θ B) {u v : V}
    (h : ReflTransGen (Edge B) u v) : (θ v).size ≤ (θ u).size := by
  induction h with
  | refl => rfl
  | tail _ hedge ih => exact (hθ.size_le_of_edge hedge).trans ih

theorem Solves.ne_of_occurs (hθ : Solves θ B) {v : V} {f : F} {args : List (Term V F)}
    (h : Occurs B v (.app f args)) : θ v ≠ (Term.app f args).apply θ := by
  obtain ⟨u, hu, hpath⟩ := h
  intro heq
  have hle := hθ.size_le_of_path hpath
  have hlt := Term.size_lt_of_occurs θ hu
  rw [← heq] at hlt
  omega


theorem occurs_app {v : V} {f : F} {args : List (Term V F)} :
    Occurs B v (.app f args) ↔ ∃ t ∈ args, Occurs B v t := by
  simp only [Occurs, Term.mem_vars_app]
  constructor
  · rintro ⟨u, ⟨t, ht, hu⟩, hpath⟩
    exact ⟨t, ht, u, hu, hpath⟩
  · rintro ⟨t, ht, u, hu, hpath⟩
    exact ⟨u, ⟨t, ht, hu⟩, hpath⟩

theorem occursAt_of_lookup {v w : V} {t : Term V F} {k : ℕ} (hw : B.lookup w = some t)
    (hne : w ≠ v) : OccursAt B v k (.var w) ↔ OccursAt B v k t := by
  constructor
  · intro h
    cases h with
    | here => exact absurd rfl hne
    | bound hu ht =>
      obtain rfl := Option.some.inj (hw.symm.trans hu)
      exact ht
  · exact .bound hw

theorem OccursAt.of_mem_vars {v u : V} {t : Term V F} {k : ℕ} (h : OccursAt B v k (.var u))
    (hu : u ∈ t.vars) : ∃ m, OccursAt B v m t := by
  induction t with
  | var w =>
    rw [Term.vars_var, List.mem_singleton] at hu
    exact ⟨k, hu ▸ h⟩
  | app f args ih =>
    obtain ⟨a, ha, hu⟩ := Term.mem_vars_app.mp hu
    obtain ⟨m, hm⟩ := ih a ha hu
    exact ⟨m + 1, .arg ha hm⟩

/-- What occurs, occurs at some level. -/
theorem occurs_iff_occursAt {v : V} {t : Term V F} : Occurs B v t ↔ ∃ k, OccursAt B v k t := by
  constructor
  · rintro ⟨u, hu, hpath⟩
    obtain ⟨k, hk⟩ : ∃ k, OccursAt B v k (.var u) := by
      clear hu
      induction hpath using ReflTransGen.head_induction_on with
      | refl => exact ⟨0, .here⟩
      | head hedge _ ih =>
        obtain ⟨k, hk⟩ := ih
        obtain ⟨r, hr, hx⟩ := hedge
        obtain ⟨m, hm⟩ := hk.of_mem_vars hx
        exact ⟨m, .bound hr hm⟩
    exact hk.of_mem_vars hu
  · rintro ⟨k, h⟩
    induction h with
    | here => exact ⟨v, by simp, .refl⟩
    | bound hu _ ih =>
      obtain ⟨x, hx, hpath⟩ := ih
      exact ⟨_, by simp, .head ⟨_, hu, hx⟩ hpath⟩
    | arg ht _ ih => exact occurs_app.mpr ⟨_, ht, ih⟩

end Occurrences

end Unify
