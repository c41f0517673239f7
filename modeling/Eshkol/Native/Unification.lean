import Eshkol.Native.Logic
import Eshkol.Unify.Chain
import Eshkol.Unify.Unifier

/-!
# Correctness of Native Unification

What `eshkol_unify` returns on variables, facts and comparable atoms: a most general unifier
that extends the given substitution, or failure when there is none.

The occurs check looks at 1001 levels of a term, bindings included, and takes a deeper
occurrence for none. A call that misses one binds a variable to a term that contains it: the
two have no unifier, but the call succeeds. `ChecksHold` excludes this. The other call that
goes wrong is given `NULL` for the empty substitution and two terms that are equal: `NULL` is
returned, and stands for failure.
-/

namespace Eshkol

open Machine Unify

/-- The equations that a substitution stands for. -/
def Substitution.bindings (env : LogicEnv) (s : Substitution) : Bindings UInt64 Symbol :=
  (logicSemantics env).bindings s

/-- The substitutions that the engine makes, on plain values: variables are bound to walked
values, and none is reachable from its own binding. -/
structure Substitution.Valid (env : LogicEnv) (s : Substitution) : Prop where
  plain : ∀ b ∈ s, b.2.Plain
  settled : Semantics.Settled (logicEngine env) s
  acyclic : Acyclic (s.bindings env)

theorem Substitution.valid_nil (env : LogicEnv) : Substitution.Valid env [] where
  plain := by simp
  settled := by
    intro b hb
    cases hb
  acyclic := acyclic_nil

/-- A unifier of two values that extends a substitution: it satisfies the bindings as
equations, and gives both values the same instance. -/
def IsUnifier (env : LogicEnv) (s : Substitution) (t₁ t₂ : Datum)
    (θ : UInt64 → Term UInt64 Symbol) : Prop :=
  Solves θ (s.bindings env) ∧ (t₁.term env).apply θ = (t₂.term env).apply θ

/-- No occurs check of a call misses an occurrence below the levels it looks at. -/
def ChecksHold (env : LogicEnv) (t₁ t₂ : Datum) (s : Substitution) : Prop :=
  ∀ n, (logicSemantics env).Checked n t₁ t₂ s

/-- If there is a unifier, there is one under which the first value is not deeper than
`eshkol_walk_deep` goes. -/
def WithinWalk (env : LogicEnv) (t₁ t₂ : Datum) (s : Substitution) : Prop :=
  (∃ θ, IsUnifier env s t₁ t₂ θ) →
    ∃ θ, IsUnifier env s t₁ t₂ θ ∧ ((t₁.term env).apply θ).depth ≤ walkDeepMaxDepth

/-- What is asked of a substitution that extends `s` and unifies two values: they are resolved
to the same term, the substitution unifies them, and each unifier is an instance of it. -/
structure MostGeneral (env : LogicEnv) (s : Substitution) (t₁ t₂ : Datum) (s' : Substitution) :
    Prop where
  extending : s <+: s'
  walked : ∃ u₁ u₂, eshkolWalkDeep env t₁ s' = .ok u₁ ∧ eshkolWalkDeep env t₂ s' = .ok u₂ ∧
    u₁.term env = u₂.term env
  unifies : IsUnifier env s t₁ t₂ (solution (s'.bindings env))
  general : ∀ θ, IsUnifier env s t₁ t₂ θ → ∃ σ, ∀ t : Term UInt64 Symbol,
    t.apply θ = (t.apply (solution (s'.bindings env))).apply σ

/-- What is asked of a call of `eshkol_unify`: it returns, with a most general unifier, or with
`NULL` if there is none. A `NULL` substitution given is the empty one. -/
def UnifiesCorrectly (env : LogicEnv) (t₁ t₂ : Datum) (subst : Option Substitution) : Prop :=
  ∃ n r, eshkolUnify env n t₁ t₂ subst = .ok r ∧
    (∀ s', r = some s' → MostGeneral env (subst.getD []) t₁ t₂ s') ∧
    (r = none → ∀ θ, ¬ IsUnifier env (subst.getD []) t₁ t₂ θ)

theorem Datum.Plain.transparent (env : LogicEnv) :
    Semantics.Transparent (logicEngine env) Datum.Plain where
  canonical := (Datum.Plain.decides env).canonical
  not_compound := by
    intro t l args ht hparts hshape
    cases ht with
    | fact => cases hparts
    | _ => cases hshape
  args := by
    intro t args rebuild ht hparts
    cases ht with
    | fact p args h =>
      cases hparts
      exact h
    | _ => cases hparts

section

variable {env : LogicEnv} {s s' : Substitution} (hs : s.Valid env) {t₁ t₂ : Datum}
  (h₁ : t₁.Plain) (h₂ : t₂.Plain) {n : ℕ}

include hs h₁ h₂

theorem isUnifier_iff {r : Option Substitution} (h : eshkolUnify env n t₁ t₂ (some s) = .ok r)
    (θ : UInt64 → Term UInt64 Symbol) :
    IsUnifier env s t₁ t₂ θ ↔ ∃ s', r = some s' ∧ Solves θ (s'.bindings env) :=
  Semantics.unifier_iff (Datum.Plain.decides env) hs.settled hs.plain h₁ h₂ h θ

theorem Substitution.Valid.of_unify (hchecks : ChecksHold env t₁ t₂ s)
    (h : eshkolUnify env n t₁ t₂ (some s) = .ok (some s')) : s <+: s' ∧ s'.Valid env := by
  have hgrows := Semantics.unify_grows (logicSemantics env) (Datum.Plain.decides env).toClosed
    hs.settled hs.plain h₁ h₂ h
  have hacyclic := Semantics.unify_acyclic (S := logicSemantics env) hs.settled hs.acyclic
    (hchecks n) h
  exact ⟨hgrows.isPrefix, hgrows.closed, hgrows.settled, hacyclic⟩

theorem mostGeneral_of_unify (hchecks : ChecksHold env t₁ t₂ s) (hdepth : WithinWalk env t₁ t₂ s)
    (h : eshkolUnify env n t₁ t₂ (some s) = .ok (some s')) : MostGeneral env s t₁ t₂ s' := by
  obtain ⟨hgrown, hvalid⟩ := hs.of_unify h₁ h₂ hchecks h
  have hdecides := Datum.Plain.decides env
  have hunifies : IsUnifier env s t₁ t₂ (solution (s'.bindings env)) :=
    Semantics.unifier_solution hdecides hs.settled hs.plain h₁ h₂ hvalid.acyclic h
  obtain ⟨θ, hθ, hd⟩ := hdepth ⟨_, hunifies⟩
  exact ⟨hgrown, Semantics.deepWalk_unified hdecides hs.settled hs.plain h₁ h₂
    (Datum.Plain.transparent env) hvalid.acyclic h hθ (Nat.lt_succ_of_le hd), hunifies,
    fun θ hθ => ⟨θ, Semantics.Unifier.general hdecides hs.settled hs.plain h₁ h₂ hθ h⟩⟩

end

/-- **Native unification is correct** when no occurrence is missed, no result is deeper than
`eshkol_walk_deep` goes, and `NULL` is not returned as the empty substitution. -/
theorem eshkolUnify_correct (env : LogicEnv) {subst : Option Substitution}
    (hs : (subst.getD []).Valid env) {t₁ t₂ : Datum} (h₁ : t₁.Plain) (h₂ : t₂.Plain)
    (hnull : subst = none → (logicEngine env).Leads t₁ t₂)
    (hchecks : ChecksHold env t₁ t₂ (subst.getD []))
    (hdepth : WithinWalk env t₁ t₂ (subst.getD [])) : UnifiesCorrectly env t₁ t₂ subst := by
  obtain ⟨n, r, hrun⟩ := Semantics.unify_total (S := logicSemantics env) hs.settled hs.acyclic
    hchecks
  have hsome : eshkolUnify env n t₁ t₂ subst = .ok r := by
    cases subst with
    | none => exact (Engine.unify_none (hnull rfl) n).trans hrun
    | some s => exact hrun
  refine ⟨n, r, hsome, ?_, ?_⟩
  · rintro s' rfl
    exact mostGeneral_of_unify hs h₁ h₂ hchecks hdepth hrun
  · rintro rfl θ hθ
    obtain ⟨s', hs', -⟩ := (isUnifier_iff hs h₁ h₂ hrun θ).mp hθ
    cases hs'

/-- A process in which one predicate, at address 1, is called `g` and no variable has been
registered by name. -/
def oneFunctor : LogicEnv where
  predicateText _ := ⟨[103], by decide⟩
  makeLogicVar _ := 0
  toDouble _ := 0
  otherEqual _ _ := false

/-- `(g ?x₀)` and `(g 5)` are unified from `NULL`. -/
theorem eshkolUnify_correct_bind :
    UnifiesCorrectly oneFunctor (.fact 1 [.var 0]) (.fact 1 [.int 5]) none := by
  have hnext : (logicEngine oneFunctor).next (.fact 1 [.var 0]) (.fact 1 [.int 5]) =
      .descend [.var 0] [.int 5] := by
    simp [Engine.next, logicEngine, taggedValuesEqual, eshkolDeepEqual, Datum.isEmptyList,
      samePredicate]
  have hbind : (logicEngine oneFunctor).next (.var 0) (.int 5) = .bind 0 (.int 5) := by
    simp [Engine.next, logicEngine, taggedValuesEqual, eshkolDeepEqual, Datum.isEmptyList]
  have hfirst (n : ℕ) : (logicSemantics oneFunctor).Checked n (.var 0) (.int 5) [] :=
    Semantics.checked_bind (Engine.walk_nil _) (Engine.walk_nil _) hbind
      (Semantics.caught_atom rfl rfl) n
  refine @eshkolUnify_correct oneFunctor none (Substitution.valid_nil oneFunctor) _ _
    (.fact 1 _ (by simpa using .var 0)) (.fact 1 _ (by simpa using .int 5))
    (fun _ => .descend hnext (.bind hbind)) ?_ ?_
  · exact Semantics.checked_descend (Engine.walk_nil _) (Engine.walk_nil _) hnext
      fun n => ⟨hfirst n, fun _ _ => trivial⟩
  · intro _
    refine ⟨fun _ => .app (.int 5) [], ⟨?_, ?_⟩, ?_⟩
    · intro v t hv
      cases hv
    · simp [Datum.term]
    · simp [Datum.term, Term.depth, walkDeepMaxDepth]

/-! ### Calls that go wrong -/
/-- The variables `?x₀`, `?x₁`, … and the facts `(g ?xᵢ)`. -/
def factLinks (env : LogicEnv) : Links (logicEngine env) where
  bound := occursCheckMaxDepth
  name i := UInt64.ofNat i
  name_inj := by
    intro i j hi hj h
    have hlt {k : ℕ} (hk : k ≤ occursCheckMaxDepth) : k < 2 ^ 64 := lt_of_le_of_lt hk (by decide)
    have := congrArg UInt64.toNat h
    rwa [UInt64.toNat_ofNat_of_lt' (hlt hi), UInt64.toNat_ofNat_of_lt' (hlt hj)] at this
  var i := .var (UInt64.ofNat i)
  link i := .fact 1 [.var (UInt64.ofNat i)]
  label := .fact 1
  shape_var _ := rfl
  shape_link _ := rfl
  canonical_var _ := rfl
  canonical_link _ := rfl
  equal_link _ _ := by simp [logicEngine, taggedValuesEqual, eshkolDeepEqual, Datum.isEmptyList]

/-- **A missed occurrence.** After 1000 bindings `?xᵢ = (g ?xᵢ₊₁)`, the terms `?x₁₀₀₀` and
`(g ?x₀)` have no unifier, and are unified. -/
theorem eshkolUnify_missed (env : LogicEnv) :
    Acyclic (Substitution.bindings env ((factLinks env).chain 1000)) ∧
    (∀ n, eshkolUnify env (n + 1) (.var 1000) (.fact 1 [.var 0])
      (some ((factLinks env).chain 1000)) =
        .ok (some ((factLinks env).chain 1000 ++ [(1000, .fact 1 [.var 0])]))) ∧
    ∀ θ, ¬ IsUnifier env ((factLinks env).chain 1000) (.var 1000) (.fact 1 [.var 0]) θ := by
  refine ⟨Links.acyclic_chain (S := logicSemantics env) le_rfl, ?_, ?_⟩
  · intro n
    exact Links.unify_close (K := factLinks env) rfl le_rfl
  · rintro θ ⟨hθ, heq⟩
    exact Links.not_solves_close (K := factLinks env) (S := logicSemantics env) le_rfl hθ heq

/-- The two ways in which a call goes wrong: `NULL` for the empty substitution is returned as
it is when 5 and 5 are equal, and a chain of bindings hides an occurrence. -/
theorem not_unifiesCorrectly :
    ¬ UnifiesCorrectly oneFunctor (.int 5) (.int 5) none ∧
    ¬ UnifiesCorrectly oneFunctor (.var 1000) (.fact 1 [.var 0])
      (some ((factLinks oneFunctor).chain 1000)) := by
  constructor
  · rintro ⟨n, r, hrun, -, hfail⟩
    have hr : r = none := by
      cases n with
      | zero => cases hrun
      | succ n =>
        have : eshkolUnify oneFunctor (n + 1) (.int 5) (.int 5) none = .ok none := by
          simp [eshkolUnify, Engine.unify, Engine.walk_nil, ok_bind, logicEngine,
            canonicalizeLogicVar, Engine.next, taggedValuesEqual, eshkolDeepEqual,
            Engine.proceed]
        rw [this] at hrun
        exact (Except.ok.inj hrun).symm
    refine hfail hr .var ⟨?_, rfl⟩
    intro v t hv
    cases hv
  · rintro ⟨n, r, hrun, hsuccess, -⟩
    rw [Option.getD_some] at hsuccess
    obtain ⟨-, hclose, hnone⟩ := eshkolUnify_missed oneFunctor
    cases n with
    | zero => cases hrun
    | succ n =>
      rw [hclose n] at hrun
      have hgeneral := hsuccess _ (Except.ok.inj hrun).symm
      exact hnone _ hgeneral.unifies

end Eshkol
