import Eshkol.Unify.Engine

/-!
# What a Deep Walk Leaves

A deep walk replaces the bound variables of a value. What it returns it leaves alone when it
is called again, and no bound variable stands in it above the level at which it stops. This
needs of the engine that a compound made from other arguments is again that compound, which
`Rebuilds` says.
-/

namespace Unify

open Machine

variable {T V L F : Type} [DecidableEq V]

/-! ### Resolved terms -/

omit [DecidableEq V] in
theorem Term.mem_vars_apply {θ : V → Term V F} {t : Term V F} {v : V} :
    v ∈ (t.apply θ).vars ↔ ∃ u ∈ t.vars, v ∈ (θ u).vars := by
  induction t with
  | var u => simp
  | app f args ih =>
    rw [Term.apply_app, Term.mem_vars_app]
    constructor
    · rintro ⟨r, hr, hv⟩
      obtain ⟨a, ha, rfl⟩ := List.mem_map.mp hr
      obtain ⟨u, hu, huv⟩ := (ih a ha).mp hv
      exact ⟨u, Term.mem_vars_app.mpr ⟨a, ha, hu⟩, huv⟩
    · rintro ⟨u, hu, huv⟩
      obtain ⟨a, ha, hua⟩ := Term.mem_vars_app.mp hu
      exact ⟨a.apply θ, List.mem_map_of_mem ha, (ih a ha).mpr ⟨u, hua, huv⟩⟩

section Resolved

variable {B : Bindings V F}

theorem Acyclic.free_of_mem_resolve (hB : Acyclic B) {n : ℕ} {u v : V}
    (hn : (reach B u).card < n) (hv : v ∈ (resolve B n u).vars) : B.lookup v = none := by
  induction n generalizing u with
  | zero => omega
  | succ n ih =>
    cases hu : B.lookup u with
    | none =>
      rw [resolve_of_free hu, Term.vars_var, List.mem_singleton] at hv
      rw [hv, hu]
    | some t =>
      rw [resolve_of_bound hu] at hv
      obtain ⟨w, hw, hvw⟩ := Term.mem_vars_apply.mp hv
      have hlt := hB.card_reach_lt ⟨t, hu, hw⟩
      exact ih (by omega) hvw

theorem Acyclic.free_of_mem_vars (hB : Acyclic B) {t : Term V F} {v : V}
    (hv : v ∈ (t.apply (solution B)).vars) : B.lookup v = none := by
  obtain ⟨u, -, huv⟩ := Term.mem_vars_apply.mp hv
  exact hB.free_of_mem_resolve (Nat.lt_succ_of_le (card_reach_le B u)) huv

end Resolved

/-! ### Walked values -/

namespace Engine

/-- A variable stands in a value, below `d` compounds that are walked inside. -/
inductive HasVarAt (E : Engine T V L) (v : V) : ℕ → T → Prop
  | here {t : T} (h : E.shape (E.canonical t) = .var v) : HasVarAt E v 0 t
  | inside {t a : T} {args : List T} {rebuild : List T → T} {d : ℕ}
      (h : E.parts t = some (args, rebuild)) (ha : a ∈ args) (hv : HasVarAt E v d a) :
      HasVarAt E v (d + 1) t

/-- With other arguments, a compound is still a compound, of these arguments. -/
structure Rebuilds (E : Engine T V L) : Prop where
  parts : ∀ {t args rebuild}, E.parts t = some (args, rebuild) →
    ∀ args', E.parts (rebuild args') = some (args', rebuild)
  canonical : ∀ {t args rebuild}, E.parts t = some (args, rebuild) → E.canonical t = t
  not_var : ∀ {t args rebuild v}, E.parts t = some (args, rebuild) → E.shape t ≠ .var v

end Engine

namespace Semantics

open Engine

variable {E : Engine T V L} {S : Semantics E F} {s : List (V × T)} {t u w : T} {k : ℕ}

theorem exists_of_mem_mapM {α β : Type} {f : α → Exec Unit β} {as : List α} {bs : List β}
    (h : as.mapM f = .ok bs) {b : β} (hb : b ∈ bs) : ∃ a, f a = .ok b := by
  replace h := mapM_eq_ok.mp h
  induction h with
  | nil => simp at hb
  | cons hab _ ih =>
    rcases List.mem_cons.mp hb with rfl | hb
    · exact ⟨_, hab⟩
    · exact ih hb

theorem walk_eq_self (hcanonical : E.canonical t = t)
    (hfree : ∀ v, E.shape t = .var v → s.lookup v = none) : E.walk s t = .ok t := by
  rw [Engine.walk, hcanonical, Engine.follow]
  split
  next v hv => rw [hfree v hv]
  next => rfl

theorem deepWalk_idem (S : Semantics E F) (hE : E.Rebuilds) (hs : Settled E s)
    (h : E.deepWalk s k t = .ok u) : E.deepWalk s k u = .ok u := by
  induction k generalizing t u with
  | zero => rfl
  | succ k ih =>
    rw [Engine.deepWalk] at h
    obtain ⟨w, hw, h⟩ := bind_eq_ok.mp h
    have hwalked := walk_spec (S := S) hs hw
    split at h
    next hnone =>
      obtain rfl := Except.ok.inj h
      rw [Engine.deepWalk, walk_eq_self hwalked.canonical hwalked.free, ok_bind, hnone]
    next args rebuild hparts =>
      obtain ⟨args', hargs', h⟩ := bind_eq_ok.mp h
      obtain rfl := Except.ok.inj h
      have hparts' := hE.parts hparts args'
      have hself : E.walk s (rebuild args') = .ok (rebuild args') :=
        walk_eq_self (hE.canonical hparts') fun v hv => absurd hv (hE.not_var hparts')
      have hagain : args'.mapM (E.deepWalk s k) = .ok args' := by
        refine mapM_eq_ok.mpr (List.forall₂_same.mpr ?_)
        intro b hb
        obtain ⟨a, hab⟩ := exists_of_mem_mapM hargs' hb
        exact ih hab
      rw [Engine.deepWalk, hself, ok_bind, hparts']
      simp only
      rw [hagain]
      rfl

theorem deepWalk_free (S : Semantics E F) (hE : E.Rebuilds) (hs : Settled E s) {v : V} {d : ℕ}
    (h : E.deepWalk s k t = .ok u) (hv : E.HasVarAt v d u) (hd : d < k) :
    s.lookup v = none := by
  induction k generalizing t u d with
  | zero => omega
  | succ k ih =>
    rw [Engine.deepWalk] at h
    obtain ⟨w, hw, h⟩ := bind_eq_ok.mp h
    have hwalked := walk_spec (S := S) hs hw
    split at h
    next hnone =>
      obtain rfl := Except.ok.inj h
      cases hv with
      | here hvar =>
        rw [hwalked.canonical] at hvar
        exact hwalked.free v hvar
      | inside hparts =>
        rw [hnone] at hparts
        cases hparts
    next args rebuild hparts =>
      obtain ⟨args', hargs', h⟩ := bind_eq_ok.mp h
      obtain rfl := Except.ok.inj h
      have hparts' := hE.parts hparts args'
      cases hv with
      | here hvar =>
        rw [hE.canonical hparts'] at hvar
        exact absurd hvar (hE.not_var hparts')
      | inside hsame ha hva =>
        rw [hparts'] at hsame
        cases hsame
        obtain ⟨b, hb⟩ := exists_of_mem_mapM hargs' ha
        exact ih hb hva (by omega)

end Semantics

end Unify
