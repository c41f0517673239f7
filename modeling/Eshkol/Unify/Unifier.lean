import Eshkol.Unify.Correct

/-!
# Unifiers

What a call of the engine says about the unifiers of two values: the substitutions that
satisfy the bindings as equations and give both values the same instance. A call that returns
bindings has found all of them, as the solutions of these bindings; a call that fails has
shown that there is none.

A missed occurrence matters only for values without a unifier, since values that have one
have no occurrence to miss.
-/

namespace Unify

open Machine

namespace Semantics

open Engine

variable {T V L F : Type} [DecidableEq V] {E : Engine T V L} {S : Semantics E F} {P : T → Prop}
  {s s' : List (V × T)} {t₁ t₂ : T} {n : ℕ} {θ : V → Term V F}

/-- A unifier of two values that satisfies bindings. -/
def Unifier (S : Semantics E F) (s : List (V × T)) (t₁ t₂ : T) (θ : V → Term V F) : Prop :=
  Solves θ (S.bindings s) ∧ (S.den t₁).apply θ = (S.den t₂).apply θ

section

variable (hP : Decides S P) (hs : Settled E s) (hPs : ∀ b ∈ s, P b.2) (h₁ : P t₁) (h₂ : P t₂)

include hP hs hPs h₁ h₂

theorem unifier_iff {r : Option (List (V × T))} (h : E.unify n t₁ t₂ (some s) = .ok r)
    (θ : V → Term V F) :
    S.Unifier s t₁ t₂ θ ↔ ∃ s', r = some s' ∧ Solves θ (S.bindings s') := by
  constructor
  · rintro ⟨hθ, heq⟩
    exact (unify_solves hP hs hPs h₁ h₂ h hθ).mp heq
  · rintro ⟨s', rfl, hθ⟩
    have hgrows := unify_grows S hP.toClosed hs hPs h₁ h₂ h
    have hθs := solves_mono S hgrows.isPrefix hθ
    exact ⟨hθs, (unify_solves hP hs hPs h₁ h₂ h hθs).mpr ⟨s', rfl, hθ⟩⟩

theorem Unifier.general (hθ : S.Unifier s t₁ t₂ θ)
    (h : E.unify n t₁ t₂ (some s) = .ok (some s')) (t : Term V F) :
    t.apply θ = (t.apply (solution (S.bindings s'))).apply θ := by
  obtain ⟨s'', hs'', hθ'⟩ := (unifier_iff hP hs hPs h₁ h₂ h θ).mp hθ
  obtain rfl := Option.some.inj hs''
  rw [Term.apply_apply]
  exact Term.apply_congr fun v _ => (hθ'.apply_resolve _ v).symm

theorem unifier_solution (hacyclic : Acyclic (S.bindings s'))
    (h : E.unify n t₁ t₂ (some s) = .ok (some s')) :
    S.Unifier s t₁ t₂ (solution (S.bindings s')) :=
  (unifier_iff hP hs hPs h₁ h₂ h _).mpr ⟨s', rfl, hacyclic.solves_solution⟩

/-- **Unified values are resolved to the same term**, if a unifier resolves the first one to
fewer levels than a deep walk goes down. -/
theorem deepWalk_unified (hT : Transparent E P) (hacyclic : Acyclic (S.bindings s'))
    (h : E.unify n t₁ t₂ (some s) = .ok (some s')) {k : ℕ} (hθ : S.Unifier s t₁ t₂ θ)
    (hdepth : ((S.den t₁).apply θ).depth < k) :
    ∃ u₁ u₂, E.deepWalk s' k t₁ = .ok u₁ ∧ E.deepWalk s' k t₂ = .ok u₂ ∧ S.den u₁ = S.den u₂ := by
  have hgrows := unify_grows S hP.toClosed hs hPs h₁ h₂ h
  have hunifies := unifier_solution hP hs hPs h₁ h₂ hacyclic h
  -- any other unifier resolves the first value to an instance, which is at least as deep
  have hle₁ : ((S.den t₁).apply (solution (S.bindings s'))).depth < k := by
    rw [hθ.general hP hs hPs h₁ h₂ h] at hdepth
    exact (Term.depth_le_apply θ _).trans_lt hdepth
  have hle₂ : ((S.den t₂).apply (solution (S.bindings s'))).depth < k := by
    rw [← hunifies.2]
    exact hle₁
  obtain ⟨u₁, hu₁⟩ := deepWalk_total hacyclic k t₁
  obtain ⟨u₂, hu₂⟩ := deepWalk_total hacyclic k t₂
  have hden₁ := deepWalk_spec hT hgrows.settled hacyclic hgrows.closed h₁ hle₁ hu₁
  have hden₂ := deepWalk_spec hT hgrows.settled hacyclic hgrows.closed h₂ hle₂ hu₂
  exact ⟨u₁, u₂, hu₁, hu₂, hden₁.trans (hunifies.2.trans hden₂.symm)⟩

theorem checked_of_no_unifier
    (hchecked : (∀ θ, ¬ S.Unifier s t₁ t₂ θ) → ∀ n, Checked S n t₁ t₂ s) (n : ℕ) :
    Checked S n t₁ t₂ s := by
  by_cases hθ : ∃ θ, S.Unifier s t₁ t₂ θ
  · obtain ⟨θ, hsolves, heq⟩ := hθ
    exact .of_unifier hP hs hPs h₁ h₂ hsolves heq n
  · exact hchecked (not_exists.mp hθ) n

theorem unify_decides (hacyclic : Acyclic (S.bindings s)) (hchecked : ∀ n, Checked S n t₁ t₂ s) :
    ∃ n r, E.unify n t₁ t₂ (some s) = .ok r ∧ ((∃ s', r = some s') ↔ ∃ θ, S.Unifier s t₁ t₂ θ) := by
  obtain ⟨n, r, hrun⟩ := unify_total (S := S) hs hacyclic hchecked
  refine ⟨n, r, hrun, ?_⟩
  constructor
  · rintro ⟨s', rfl⟩
    have hacyclic' := unify_acyclic hs hacyclic (hchecked n) hrun
    exact ⟨_, unifier_solution hP hs hPs h₁ h₂ hacyclic' hrun⟩
  · rintro ⟨θ, hθ⟩
    obtain ⟨s', hs', -⟩ := (unifier_iff hP hs hPs h₁ h₂ hrun θ).mp hθ
    exact ⟨s', hs'⟩

end

end Semantics

end Unify
