import Eshkol.Native.Unification

/-!
# Unification without a Substitution

The entry point of compiled code, `eshkol_unify_tagged`. A substitution argument that is not a
heap pointer, such as `'()`, is passed on as `NULL`, which stands for the empty substitution.
`eshkol_unify` returns `NULL` for failure, and the substitution that it was given when nothing
is left to bind: two terms that are equal to begin with do not unify under `NULL`. With facts,
the first arguments decide. If a variable is bound there, a substitution is passed on to the
others; if they are equal, `NULL` is, which is taken for failure.
-/

namespace Eshkol

open Machine Unify

/-- The substitution argument: a missing one, one of another type, or a heap pointer, which
may be null. -/
inductive SubstTv : Type
  | missing
  | immediate (type : UInt8)
  | heapPtr (s : Option Substitution)

/-- The pointer that is passed on. -/
def SubstTv.subst : SubstTv → Option Substitution
  | .missing => none
  | .immediate _ => none
  | .heapPtr s => s

/-- The result: a heap pointer to a substitution, or `#f`. -/
inductive UnifyResult : Type
  | heapPtr (s : Substitution)
  | false

/-- The tagged value for what `eshkol_unify` returns. -/
def UnifyResult.ofPointer : Option Substitution → UnifyResult
  | some s => .heapPtr s
  | none => .false

/-- `eshkol_unify_tagged`, to a depth of `n` calls. -/
def eshkolUnifyTagged (env : LogicEnv) (n : ℕ) (t₁ t₂ : Datum) (substTv : SubstTv) :
    Exec Unit UnifyResult := do
  let unified ← eshkolUnify env n t₁ t₂ substTv.subst
  .ok (.ofPointer unified)

/-- Without a substitution, a call returns what it returns with the empty one. -/
def NullIsEmpty (env : LogicEnv) (t₁ t₂ : Datum) : Prop :=
  ∀ substTv : SubstTv, substTv.subst = none → ∀ r,
    (∃ n, eshkolUnifyTagged env n t₁ t₂ substTv = .ok r) ↔
      ∃ n, eshkolUnifyTagged env n t₁ t₂ (.heapPtr (some [])) = .ok r

/-- Two terms are not unified under the empty substitution. -/
def Rejected (env : LogicEnv) (t₁ t₂ : Datum) : Prop :=
  ∃ n, eshkolUnifyTagged env n t₁ t₂ (.heapPtr (some [])) = .ok .false

theorem UnifyResult.ofPointer_inj {p q : Option Substitution} (h : ofPointer p = ofPointer q) :
    p = q := by
  cases p <;> cases q <;> cases h <;> rfl

section

variable {env : LogicEnv} {t₁ t₂ : Datum} {n : ℕ}

theorem eshkolUnifyTagged_eq_ok {substTv : SubstTv} {p : Option Substitution} :
    eshkolUnifyTagged env n t₁ t₂ substTv = .ok (.ofPointer p) ↔
      eshkolUnify env n t₁ t₂ substTv.subst = .ok p := by
  rw [eshkolUnifyTagged, bind_eq_ok]
  constructor
  · rintro ⟨q, hq, h⟩
    rw [hq, UnifyResult.ofPointer_inj (Except.ok.inj h)]
  · intro h
    exact ⟨p, h, rfl⟩

theorem exists_ofPointer (r : UnifyResult) : ∃ p, UnifyResult.ofPointer p = r := by
  cases r with
  | heapPtr s => exact ⟨some s, rfl⟩
  | false => exact ⟨none, rfl⟩

theorem nullIsEmpty_iff : NullIsEmpty env t₁ t₂ ↔
    ∀ p, (∃ n, eshkolUnify env n t₁ t₂ none = .ok p) ↔
      ∃ n, eshkolUnify env n t₁ t₂ (some []) = .ok p := by
  constructor
  · intro h p
    have hp := h .missing rfl (.ofPointer p)
    simp only [eshkolUnifyTagged_eq_ok] at hp
    exact hp
  · intro h substTv hnone r
    obtain ⟨p, rfl⟩ := exists_ofPointer r
    simp only [eshkolUnifyTagged_eq_ok, hnone]
    exact h p

theorem rejected_iff : Rejected env t₁ t₂ ↔ ∃ n, eshkolUnify env n t₁ t₂ (some []) = .ok none :=
  exists_congr fun _ => eshkolUnifyTagged_eq_ok (p := none)

theorem eshkolUnify_unique {m : ℕ} {subst p q : Option Substitution}
    (hp : eshkolUnify env n t₁ t₂ subst = .ok p) (hq : eshkolUnify env m t₁ t₂ subst = .ok q) :
    p = q := by
  have hp' := Semantics.unify_mono (Nat.le_max_left n m) hp
  have hq' := Semantics.unify_mono (Nat.le_max_right n m) hq
  exact Except.ok.inj (hp'.symm.trans hq')

theorem rejected_iff_of_plain (h₁ : t₁.Plain) (h₂ : t₂.Plain) (hchecks : ChecksHold env t₁ t₂ []) :
    Rejected env t₁ t₂ ↔ ∀ θ, ¬ IsUnifier env [] t₁ t₂ θ := by
  have hvalid := Substitution.valid_nil env
  rw [rejected_iff]
  constructor
  · rintro ⟨n, hn⟩ θ hθ
    obtain ⟨s', hs', -⟩ := (isUnifier_iff hvalid h₁ h₂ hn θ).mp hθ
    cases hs'
  · intro hnone
    obtain ⟨n, r, hn⟩ := Semantics.unify_total (S := logicSemantics env) hvalid.settled
      hvalid.acyclic hchecks
    cases r with
    | none => exact ⟨n, hn⟩
    | some s' =>
      have hacyclic := (hvalid.of_unify h₁ h₂ hchecks hn).2.acyclic
      exact absurd ((isUnifier_iff hvalid h₁ h₂ hn _).mpr ⟨s', rfl, hacyclic.solves_solution⟩)
        (hnone _)

end

theorem nullIsEmpty_of_leads {env : LogicEnv} {t₁ t₂ : Datum}
    (h : (logicEngine env).Leads t₁ t₂) : NullIsEmpty env t₁ t₂ := by
  rw [nullIsEmpty_iff]
  intro p
  exact exists_congr fun n => by rw [eshkolUnify, eshkolUnify, Engine.unify_none h]

theorem nullIsEmpty_iff_rejected {env : LogicEnv} {t₁ t₂ : Datum}
    (h : ¬ (logicEngine env).Leads t₁ t₂) : NullIsEmpty env t₁ t₂ ↔ Rejected env t₁ t₂ := by
  rw [nullIsEmpty_iff, rejected_iff]
  have hnull := Engine.unify_none_total h (logicSemantics env)
  constructor
  · intro hsame
    exact (hsame none).mp hnull
  · rintro ⟨n, hn⟩ p
    constructor
    · rintro ⟨m, hm⟩
      rw [Engine.unify_none_of_not_leads h hm]
      exact ⟨n, hn⟩
    · rintro ⟨m, hm⟩
      rw [eshkolUnify_unique hm hn]
      exact hnull

/-- **When `NULL` is the empty substitution.** The outcomes agree exactly if the parts compared
first are not equal to begin with, or the terms are rejected. If no occurs check misses an
occurrence, terms of variables, facts and comparable atoms are rejected exactly if they have
no unifier. -/
theorem eshkolUnifyTagged_null (env : LogicEnv) (t₁ t₂ : Datum) :
    (NullIsEmpty env t₁ t₂ ↔ (logicEngine env).Leads t₁ t₂ ∨ Rejected env t₁ t₂) ∧
    (t₁.Plain → t₂.Plain → ChecksHold env t₁ t₂ [] → (NullIsEmpty env t₁ t₂ ↔
        (logicEngine env).Leads t₁ t₂ ∨ ∀ θ, ¬ IsUnifier env [] t₁ t₂ θ)) := by
  have hiff : NullIsEmpty env t₁ t₂ ↔ (logicEngine env).Leads t₁ t₂ ∨ Rejected env t₁ t₂ := by
    by_cases hleads : (logicEngine env).Leads t₁ t₂
    · exact iff_of_true (nullIsEmpty_of_leads hleads) (.inl hleads)
    · rw [nullIsEmpty_iff_rejected hleads, or_iff_right hleads]
  refine ⟨hiff, ?_⟩
  intro h₁ h₂ hchecks
  rw [hiff, rejected_iff_of_plain h₁ h₂ hchecks]

/-- `?x₀` is bound to 5 without a substitution as it is with the empty one. -/
theorem eshkolUnifyTagged_null_bind : NullIsEmpty oneFunctor (.var 0) (.int 5) := by
  have hbind : (logicEngine oneFunctor).next (.var 0) (.int 5) = .bind 0 (.int 5) := by
    simp [Engine.next, logicEngine, taggedValuesEqual, eshkolDeepEqual, Datum.isEmptyList]
  have hchecks : ChecksHold oneFunctor (.var 0) (.int 5) [] :=
    Semantics.checked_bind (Engine.walk_nil _) (Engine.walk_nil _) hbind
      (Semantics.caught_atom rfl rfl)
  exact ((eshkolUnifyTagged_null oneFunctor (.var 0) (.int 5)).2 (.var 0) (.int 5) hchecks).mpr
    (.inl (.bind hbind))

/-- 5 and 5 are equal: they unify under the empty substitution, and not without one. -/
theorem not_nullIsEmpty : ¬ NullIsEmpty oneFunctor (.int 5) (.int 5) := by
  have hequal : (logicEngine oneFunctor).next (.int 5) (.int 5) = .done := by
    simp [Engine.next, logicEngine, taggedValuesEqual, eshkolDeepEqual]
  have hrun (subst : Option Substitution) (hnil : subst.getD [] = []) :
      eshkolUnify oneFunctor 1 (.int 5) (.int 5) subst = .ok subst := by
    rw [eshkolUnify, Engine.unify, hnil, Engine.walk_nil, ok_bind, ok_bind]
    exact congrArg (Engine.proceed _ _ subst) hequal
  rw [nullIsEmpty_iff]
  intro h
  obtain ⟨n, hn⟩ := (h none).mp ⟨1, hrun none rfl⟩
  cases eshkolUnify_unique hn (hrun (some []) rfl)

end Eshkol
