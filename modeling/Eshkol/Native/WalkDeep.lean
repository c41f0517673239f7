import Eshkol.Native.Unification
import Eshkol.Unify.DeepWalk

/-!
# Native Deep Walks

What `eshkol_walk_deep` leaves of the variables that a substitution binds. It goes down to
`WALK_DEEP_MAX_DEPTH` and returns what is deeper as it is, with a warning. It enters facts,
and no cons cells.

Whatever the term, a second walk changes nothing: it stops where the first one stopped.
-/

namespace Eshkol

open Machine Unify

/-- Values built from logic variables, facts and atoms of any kind. -/
inductive Datum.WithoutCons : Datum → Prop
  | var (id : UInt64) : WithoutCons (.var id)
  | atom {t : Datum} {f : Symbol} (h : t.atomSymbol = some f) : WithoutCons t
  | fact (p : UInt64) (args : List Datum) (h : ∀ a ∈ args, WithoutCons a) :
      WithoutCons (.fact p args)

theorem Datum.WithoutCons.transparent (env : LogicEnv) :
    Semantics.Transparent (logicEngine env) Datum.WithoutCons where
  canonical := by
    intro t ht
    cases t with
    | sym s =>
      simp only [logicEngine, canonicalizeLogicVar]
      split
      next => exact .var _
      next => exact ht
    | _ => exact ht
  not_compound := by
    intro t l args ht hparts hshape
    obtain ⟨p, rfl, -⟩ | ⟨a, d, rfl, -⟩ := shape_eq_compound hshape
    · cases hparts
    · cases ht with
      | atom h => cases h
  args := by
    intro t args rebuild ht hparts
    obtain ⟨p, rfl, -⟩ := parts_eq_some hparts
    cases ht with
    | atom h => cases h
    | fact _ _ h => exact h

theorem logicEngine_rebuilds (env : LogicEnv) : (logicEngine env).Rebuilds where
  parts := by
    intro t args rebuild h args'
    obtain ⟨p, -, rfl⟩ := parts_eq_some h
    rfl
  canonical := by
    intro t args rebuild h
    obtain ⟨p, rfl, -⟩ := parts_eq_some h
    rfl
  not_var := by
    intro t args rebuild v h hshape
    obtain ⟨p, rfl, -⟩ := parts_eq_some h
    cases hshape

theorem eshkolWalkDeep_spec {env : LogicEnv} {s : Substitution}
    (hs : Semantics.Settled (logicEngine env) s) (hacyclic : Acyclic (s.bindings env))
    (hsubst : ∀ b ∈ s, b.2.WithoutCons) {t u : Datum} (ht : t.WithoutCons)
    (hdepth : ((t.term env).apply (solution (s.bindings env))).depth ≤ walkDeepMaxDepth)
    (hu : eshkolWalkDeep env t s = .ok u) :
    u.term env = (t.term env).apply (solution (s.bindings env)) :=
  Semantics.deepWalk_spec (S := logicSemantics env) (Datum.WithoutCons.transparent env) hs
    hacyclic hsubst ht (Nat.lt_succ_of_le hdepth) hu

/-- What a deep walk is asked for: it returns a term without bound variables, which a second
walk does not change. -/
def WalksFully (env : LogicEnv) (t : Datum) (s : Substitution) : Prop :=
  ∃ u, eshkolWalkDeep env t s = .ok u ∧ (∀ v ∈ (u.term env).vars, s.lookup v = none) ∧
    eshkolWalkDeep env u s = .ok u

/-- **Deep walks are idempotent and resolve the levels that they enter.** The substitution
binds variables to walked values, as `eshkol_unify` does. The term returned is not changed by
a second walk, and no variable that is bound stands in it below at most 10000 facts. If there
are no cons cells and no more levels, there is none at all. -/
theorem eshkolWalkDeep_resolves (env : LogicEnv) {s : Substitution}
    (hs : Semantics.Settled (logicEngine env) s) (hacyclic : Acyclic (s.bindings env))
    (t : Datum) :
    ∃ u, eshkolWalkDeep env t s = .ok u ∧ eshkolWalkDeep env u s = .ok u ∧
      (∀ v d, (logicEngine env).HasVarAt v d u → d ≤ walkDeepMaxDepth → s.lookup v = none) ∧
      (t.WithoutCons → (∀ b ∈ s, b.2.WithoutCons) →
        ((t.term env).apply (solution (s.bindings env))).depth ≤ walkDeepMaxDepth →
        ∀ v ∈ (u.term env).vars, s.lookup v = none) := by
  obtain ⟨u, hu⟩ := Semantics.deepWalk_total (S := logicSemantics env) hacyclic
    (walkDeepMaxDepth + 1) t
  refine ⟨u, hu, Semantics.deepWalk_idem (logicSemantics env) (logicEngine_rebuilds env) hs hu,
    ?_, ?_⟩
  · intro v d hv hd
    exact Semantics.deepWalk_free (logicSemantics env) (logicEngine_rebuilds env) hs hu hv
      (Nat.lt_succ_of_le hd)
  · intro ht hsubst hdepth v hv
    rw [eshkolWalkDeep_spec hs hacyclic hsubst ht hdepth hu] at hv
    have hfree := hacyclic.free_of_mem_vars hv
    rw [Substitution.bindings, Semantics.lookup_bindings, Option.map_eq_none_iff] at hfree
    exact hfree

/-- The substitution in which `?x₀` is 5. -/
def fiveForX : Substitution := [(0, .int 5)]

theorem bindings_fiveForX (env : LogicEnv) : fiveForX.bindings env = [(0, .app (.int 5) [])] := by
  simp only [fiveForX, Substitution.bindings, Semantics.bindings, List.map_cons, List.map_nil,
    logicSemantics, Datum.term]
  rfl

theorem settled_fiveForX (env : LogicEnv) : Semantics.Settled (logicEngine env) fiveForX := by
  intro b hb
  rw [fiveForX, List.mem_singleton] at hb
  rw [hb]
  rfl

theorem acyclic_fiveForX (env : LogicEnv) : Acyclic (fiveForX.bindings env) := by
  rw [bindings_fiveForX]
  refine acyclic_nil.append rfl ?_
  rw [occurs_app]
  simp

/-- `(g ?x₀ ?x₁)` is resolved to a term without `?x₀`. -/
theorem eshkolWalkDeep_resolves_five :
    WalksFully oneFunctor (.fact 1 [.var 0, .var 1]) fiveForX := by
  obtain ⟨u, hu, hidem, -, hfree⟩ := eshkolWalkDeep_resolves oneFunctor
    (settled_fiveForX oneFunctor) (acyclic_fiveForX oneFunctor) (.fact 1 [.var 0, .var 1])
  refine ⟨u, hu, hfree ?_ ?_ ?_, hidem⟩
  · refine .fact 1 _ ?_
    intro a ha
    simp only [List.mem_cons, List.not_mem_nil, or_false] at ha
    rcases ha with rfl | rfl
    · exact .var 0
    · exact .var 1
  · intro b hb
    rw [fiveForX, List.mem_singleton] at hb
    rw [hb]
    exact .atom rfl
  · have hunbound : solution (fiveForX.bindings oneFunctor) 1 = .var 1 := solution_of_free rfl
    have hfive : solution (fiveForX.bindings oneFunctor) 0 = .app (.int 5) [] := by
      rw [bindings_fiveForX]
      simp [solution, resolve]
    simp [Datum.term, Term.depth, hfive, hunbound, walkDeepMaxDepth]

/-- A value below a number of facts `(g …)`. -/
def nestFacts : ℕ → Datum → Datum
  | 0, t => t
  | k + 1, t => .fact 1 [nestFacts k t]

theorem deepWalk_nestFacts (env : LogicEnv) (s : Substitution) (k : ℕ) (t : Datum) :
    (logicEngine env).deepWalk s k (nestFacts k t) = .ok (nestFacts k t) := by
  induction k with
  | zero => rfl
  | succ k ih =>
    have hself : (logicEngine env).walk s (nestFacts (k + 1) t) = .ok (nestFacts (k + 1) t) :=
      Semantics.walk_eq_self rfl fun v hv => by cases hv
    have hargs : [nestFacts k t].mapM ((logicEngine env).deepWalk s k) =
        .ok [nestFacts k t] := mapM_eq_ok.mpr (.cons ih .nil)
    rw [Engine.deepWalk, hself, ok_bind]
    change ([nestFacts k t].mapM ((logicEngine env).deepWalk s k) >>= fun args' =>
      Except.ok (Datum.fact 1 args')) = _
    rw [hargs, ok_bind, nestFacts]

theorem mem_vars_nestFacts (env : LogicEnv) (k : ℕ) (v : UInt64) :
    v ∈ ((nestFacts k (.var v)).term env).vars := by
  induction k with
  | zero => simp [nestFacts, Datum.term]
  | succ k ih =>
    rw [nestFacts, Datum.term, Term.mem_vars_app]
    exact ⟨_, by simp, ih⟩

/-- The variable `?x₀` is left where it is bound to 5: below the facts that are entered, and in
the list of `?x₀` alone. -/
theorem not_walksFully :
    ¬ WalksFully oneFunctor (nestFacts (walkDeepMaxDepth + 1) (.var 0)) fiveForX ∧
    ¬ WalksFully oneFunctor (.cons (.var 0) .null) fiveForX := by
  constructor
  · rintro ⟨u, hu, hfree, -⟩
    rw [eshkolWalkDeep, deepWalk_nestFacts] at hu
    obtain rfl := Except.ok.inj hu
    cases hfree 0 (mem_vars_nestFacts oneFunctor _ 0)
  · rintro ⟨u, hu, hfree, -⟩
    have hself : eshkolWalkDeep oneFunctor (.cons (.var 0) .null) fiveForX =
        .ok (.cons (.var 0) .null) := rfl
    rw [hself] at hu
    obtain rfl := Except.ok.inj hu
    cases hfree 0 (by simp [Datum.term])

end Eshkol
