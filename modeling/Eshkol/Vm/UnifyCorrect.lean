import Eshkol.Unify.Simulate
import Eshkol.Vm.Logic

/-!
# Correctness of VM Unification

What `vm_unify` returns on variables, facts, integers, booleans, symbols and strings, and that
`eshkol_unify` returns the same on the same terms.

The occurs check of the VM looks at 501 levels of a term, bindings included, and takes a deeper
occurrence for none. The native one looks at 1001 levels. A call that misses an occurrence may
succeed although there is no unifier; natively the same call may fail. Terms that have a
unifier have no occurrence to miss.
-/

namespace Eshkol.Vm

open Machine Unify
open Eskb (CString)

variable {predicateText : UInt64 → CString}

/-! ### Terms that are compared exactly -/

/-- Terms built from logic variables, facts, and atoms that `vm_values_equal` compares
exactly. -/
inductive VmTerm.Plain : VmTerm → Prop
  | null : Plain .null
  | int64 (i : Int64) : Plain (.int64 i)
  | bool (i : Int64) : Plain (.bool i)
  | logicVar (id : UInt64) : Plain (.logicVar id)
  | text (kind : TextKind) (s : CString) : Plain (.text kind s)
  | fact (p : UInt64) (args : List VmTerm) (h : ∀ a ∈ args, Plain a) : Plain (.fact p args)

theorem vmSamePredicate_iff (predicateText : UInt64 → CString) (p q : UInt64) :
    vmSamePredicate predicateText p q = true ↔
      vmPredicateName predicateText p = vmPredicateName predicateText q :=
  samePredicate_iff { oneFunctor with predicateText := predicateText } p q

theorem VmTerm.Plain.decides (predicateText : UInt64 → CString) :
    (vmLogicSemantics predicateText).Decides VmTerm.Plain where
  canonical := id
  args := by
    intro t l as ht hshape
    cases ht with
    | fact p args h =>
      cases hshape
      exact h
    | _ => cases hshape
  equal := by
    intro t u ht hu h
    change vmValuesEqual t u = true at h
    cases ht <;> cases hu <;>
      simp only [vmValuesEqual, Bool.false_eq_true, beq_iff_eq, Bool.and_eq_true] at h
    case null.null => rfl
    case text.text => rw [h.1, h.2]
    all_goals rw [h]
  atoms := by
    intro t u ht hu _ _ hat hau h
    change t.term predicateText = u.term predicateText at h
    change vmValuesEqual t u = true
    cases ht <;> cases hat <;> cases hu <;> cases hau <;>
      simp only [VmTerm.term, Term.app.injEq, VmSymbol.int64.injEq, VmSymbol.bool.injEq,
        VmSymbol.text.injEq, and_true, reduceCtorEq] at h
    case null.refl.null.refl => rfl
    all_goals simpa only [vmValuesEqual, beq_iff_eq, Bool.and_eq_true] using h
  atom_label := by
    intro t u l as f ht _ hatom _ hden
    change t.term predicateText = .app f [] at hden
    rintro rfl
    cases ht <;> simp [vmLogicEngine, vmLogicSemantics, VmTerm.term] at hatom hden
  sameLabel_iff := by
    intro l l'
    simp [vmLogicEngine, vmLogicSemantics, vmSamePredicate_iff]

theorem VmTerm.Plain.transparent (predicateText : UInt64 → CString) :
    Semantics.Transparent (vmLogicEngine predicateText) VmTerm.Plain where
  canonical := id
  not_compound := by
    intro t l args ht hparts hshape
    cases ht with
    | fact => cases hparts
    | _ => cases hshape
  args := by
    intro t args rebuild ht hparts
    cases ht with
    | fact p args h =>
      cases hparts
      exact h
    | _ => cases hparts

/-- A VM term and a native value that are the same term. Variables have other ids in the two
engines, and predicates other addresses. The arguments of a native fact may be `?`-symbols. -/
inductive SameTerm (env : LogicEnv) (predicateText : UInt64 → CString) (ρ : UInt64 → UInt64) :
    VmTerm → Datum → Prop
  | null : SameTerm env predicateText ρ .null .null
  | int64 (i : Int64) : SameTerm env predicateText ρ (.int64 i) (.int i)
  | bool (i : Int64) : SameTerm env predicateText ρ (.bool i) (.bool i)
  | logicVar (id : UInt64) : SameTerm env predicateText ρ (.logicVar id) (.var (ρ id))
  | symbol (s : CString) (h : isVarName s = false) :
      SameTerm env predicateText ρ (.text .symbol s) (.sym s)
  | string (s : CString) : SameTerm env predicateText ρ (.text .string s) (.str s)
  | fact {p q : UInt64} {args : List VmTerm} {args' : List Datum}
      (hname : vmPredicateName predicateText p = predicateName env q)
      (hlen : args.length = args'.length)
      (h : ∀ a ∈ args.zip args', SameTerm env predicateText ρ a.1 (canonicalizeLogicVar env a.2)) :
      SameTerm env predicateText ρ (.fact p args) (.fact q args')

/-- The same predicate, at other addresses. -/
def SameCompound (env : LogicEnv) (predicateText : UInt64 → CString) (p : UInt64)
    (l : Compound) : Prop :=
  ∃ q, l = .fact q ∧ vmPredicateName predicateText p = predicateName env q

theorem vmLogicEngine_mirrors (env : LogicEnv) (predicateText : UInt64 → CString)
    {ρ : UInt64 → UInt64} (hρ : Function.Injective ρ) :
    Mirrors (vmLogicEngine predicateText) (logicEngine env) ρ (SameTerm env predicateText ρ)
      (SameCompound env predicateText) where
  injective := hρ
  canonical := by
    intro t t' h
    refine ⟨rfl, ?_⟩
    cases h with
    | symbol s h => simp [logicEngine, canonicalizeLogicVar, h]
    | _ => rfl
  shape := by
    intro t t' h
    cases h with
    | logicVar i => exact .var i
    | @fact p q _ _ hname hlen h =>
      refine .compound ⟨q, rfl, hname⟩ (List.forall₂_iff_zip.mpr ⟨hlen, ?_⟩)
      intro a a' ha
      exact h (a, a') ha
    | _ => exact .atom
  equal := by
    intro t t' u u' h h'
    change vmValuesEqual t u = taggedValuesEqual env t' u'
    cases h <;> cases h' <;>
      simp [vmValuesEqual, taggedValuesEqual, eshkolDeepEqual, Datum.isEmptyList, hρ.eq_iff]
  sameLabel := by
    rintro p _ p' _ ⟨q, rfl, hq⟩ ⟨q', rfl, hq'⟩
    change vmSamePredicate predicateText p p' = samePredicate env q q'
    rw [Bool.eq_iff_iff, vmSamePredicate_iff, samePredicate_iff, hq, hq']

/-! ### Correctness -/

/-- The substitutions that `vm_unify` makes, on plain terms. -/
structure VmSubstitution.Valid (predicateText : UInt64 → CString) (s : VmSubstitution) : Prop where
  plain : ∀ b ∈ s, b.2.Plain
  acyclic : Acyclic (s.bindings predicateText)

/-- A unifier of two terms that extends a substitution. -/
def VmIsUnifier (predicateText : UInt64 → CString) (s : VmSubstitution) (t₁ t₂ : VmTerm)
    (θ : UInt64 → Term UInt64 VmSymbol) : Prop :=
  Solves θ (s.bindings predicateText) ∧
    (t₁.term predicateText).apply θ = (t₂.term predicateText).apply θ

/-- No occurs check of a call misses an occurrence below the levels it looks at. -/
def VmChecksHold (predicateText : UInt64 → CString) (t₁ t₂ : VmTerm) (s : VmSubstitution) : Prop :=
  ∀ n, (vmLogicSemantics predicateText).Checked n t₁ t₂ s

/-- If there is a unifier, there is one under which the first term is not deeper than
`vm_walk_deep_full` goes. -/
def VmWithinWalk (predicateText : UInt64 → CString) (t₁ t₂ : VmTerm) (s : VmSubstitution) : Prop :=
  (∃ θ, VmIsUnifier predicateText s t₁ t₂ θ) →
    ∃ θ, VmIsUnifier predicateText s t₁ t₂ θ ∧ ((t₁.term predicateText).apply θ).depth ≤ walkDeepMax

/-- What is asked of a call of `vm_unify`: it returns, and succeeds exactly if there is a unifier
that extends the substitution; both terms are then resolved to the same term. -/
def VmUnifiesCorrectly (predicateText : UInt64 → CString) (t₁ t₂ : VmTerm) (s : VmSubstitution) :
    Prop :=
  ∃ n r, vmUnify predicateText n t₁ t₂ (some s) = .ok r ∧
    ((∃ s', r = some s') ↔ ∃ θ, VmIsUnifier predicateText s t₁ t₂ θ) ∧
    ∀ s', r = some s' → s <+: s' ∧
      ∃ u₁ u₂, vmWalkDeepFull predicateText t₁ s' = .ok u₁ ∧
        vmWalkDeepFull predicateText t₂ s' = .ok u₂ ∧ u₁.term predicateText = u₂.term predicateText

/-- On the same terms under the same substitution, both engines return: both fail, or both
succeed, with the same bindings. -/
def AgreesWithNative (predicateText : UInt64 → CString) (t₁ t₂ : VmTerm) (s : VmSubstitution) :
    Prop :=
  ∀ (env : LogicEnv) (ρ : UInt64 → UInt64) (d₁ d₂ : Datum) (subst : Substitution),
    Function.Injective ρ → SameTerm env predicateText ρ t₁ (canonicalizeLogicVar env d₁) →
    SameTerm env predicateText ρ t₂ (canonicalizeLogicVar env d₂) →
    Paired ρ (SameTerm env predicateText ρ) s subst →
    ∃ n r r', vmUnify predicateText n t₁ t₂ (some s) = .ok r ∧
      eshkolUnify env n d₁ d₂ (some subst) = .ok r' ∧
      Option.Rel (Paired ρ (SameTerm env predicateText ρ)) r r'

theorem settled_vm (s : VmSubstitution) : Semantics.Settled (vmLogicEngine predicateText) s :=
  fun _ _ => rfl

section

variable {s : VmSubstitution} (hs : s.Valid predicateText) {t₁ t₂ : VmTerm} (h₁ : t₁.Plain)
  (h₂ : t₂.Plain)

include hs h₁ h₂

theorem vmChecksHold_of_no_unifier
    (hchecks : (∀ θ, ¬ VmIsUnifier predicateText s t₁ t₂ θ) → VmChecksHold predicateText t₁ t₂ s) :
    VmChecksHold predicateText t₁ t₂ s :=
  Semantics.checked_of_no_unifier (VmTerm.Plain.decides predicateText) (settled_vm s) hs.plain
    h₁ h₂ hchecks

theorem vmUnifiesCorrectly (hchecks : VmChecksHold predicateText t₁ t₂ s)
    (hdepth : VmWithinWalk predicateText t₁ t₂ s) : VmUnifiesCorrectly predicateText t₁ t₂ s := by
  have hdecides := VmTerm.Plain.decides predicateText
  obtain ⟨n, r, hrun, hiff⟩ := Semantics.unify_decides hdecides (settled_vm s) hs.plain h₁ h₂
    hs.acyclic hchecks
  refine ⟨n, r, hrun, hiff, ?_⟩
  rintro s' rfl
  have hgrows := Semantics.unify_grows (vmLogicSemantics predicateText) hdecides.toClosed
    (settled_vm s) hs.plain h₁ h₂ hrun
  have hacyclic := Semantics.unify_acyclic (settled_vm s) hs.acyclic (hchecks n) hrun
  obtain ⟨θ, hθ, hd⟩ := hdepth (hiff.mp ⟨s', rfl⟩)
  exact ⟨hgrows.isPrefix, Semantics.deepWalk_unified hdecides (settled_vm s) hs.plain h₁ h₂
    (VmTerm.Plain.transparent predicateText) hacyclic hrun hθ (Nat.lt_succ_of_le hd)⟩

end

theorem agreesWithNative {s : VmSubstitution} {t₁ t₂ : VmTerm}
    (hacyclic : Acyclic (s.bindings predicateText)) (hchecks : VmChecksHold predicateText t₁ t₂ s) :
    AgreesWithNative predicateText t₁ t₂ s := by
  intro env ρ d₁ d₂ subst hρ h₁ h₂ hpaired
  obtain ⟨n, r, hrun⟩ := Semantics.unify_total (S := vmLogicSemantics predicateText)
    (settled_vm s) hacyclic hchecks
  have hlevels : (vmLogicEngine predicateText).levels ≤ (logicEngine env).levels := by
    change occursMaxDepth / 2 + 1 ≤ occursCheckMaxDepth + 1
    decide
  obtain ⟨r', hrun', hrel⟩ := (vmLogicEngine_mirrors env predicateText hρ).unify
    (S := vmLogicSemantics predicateText) hlevels h₁ h₂ (settled_vm s) hacyclic hpaired
    (hchecks n) hrun
  exact ⟨n, r, r', hrun, hrun', hrel⟩

/-- **VM unification is correct and agrees with the native engine**, if no occurrence is missed
in terms without a unifier, and no result is deeper than `vm_walk_deep_full` goes. -/
theorem vmUnify_correct (predicateText : UInt64 → CString) {s : VmSubstitution}
    (hs : s.Valid predicateText) {t₁ t₂ : VmTerm} (h₁ : t₁.Plain) (h₂ : t₂.Plain)
    (hchecks : (∀ θ, ¬ VmIsUnifier predicateText s t₁ t₂ θ) → VmChecksHold predicateText t₁ t₂ s)
    (hdepth : VmWithinWalk predicateText t₁ t₂ s) :
    VmUnifiesCorrectly predicateText t₁ t₂ s ∧ AgreesWithNative predicateText t₁ t₂ s := by
  have hall := vmChecksHold_of_no_unifier hs h₁ h₂ hchecks
  exact ⟨vmUnifiesCorrectly hs h₁ h₂ hall hdepth, agreesWithNative hs.acyclic hall⟩

/-- `(g ?x₀)` and `(g 5)` are unified. -/
theorem vmUnify_correct_bind :
    VmUnifiesCorrectly oneFunctor.predicateText (.fact 1 [.logicVar 0]) (.fact 1 [.int64 5]) [] ∧
    AgreesWithNative oneFunctor.predicateText (.fact 1 [.logicVar 0]) (.fact 1 [.int64 5]) [] := by
  have hunifier : VmIsUnifier oneFunctor.predicateText [] (.fact 1 [.logicVar 0])
      (.fact 1 [.int64 5]) (fun _ => .app (.int64 5) []) := by
    refine ⟨?_, ?_⟩
    · intro v t hv
      cases hv
    · simp [VmTerm.term]
  refine @vmUnify_correct oneFunctor.predicateText [] ⟨by simp, acyclic_nil⟩ _ _
    (.fact 1 _ (by simpa using .logicVar 0)) (.fact 1 _ (by simpa using .int64 5))
    (fun hnone => absurd hunifier (hnone _)) ?_
  intro _
  exact ⟨_, hunifier, by simp [VmTerm.term, Term.depth, walkDeepMax]⟩

/-- **A missed occurrence.** After 500 bindings `?xᵢ = (g ?xᵢ₊₁)`, which are acyclic, the terms
`?x₅₀₀` and `(g ?x₀)` have no unifier, and are unified. -/
theorem not_vmUnifiesCorrectly :
    Acyclic (VmSubstitution.bindings oneFunctor.predicateText
      ((vmFactLinks oneFunctor.predicateText).chain 500)) ∧
    ¬ VmUnifiesCorrectly oneFunctor.predicateText (.logicVar 500) (.fact 1 [.logicVar 0])
      ((vmFactLinks oneFunctor.predicateText).chain 500) := by
  refine ⟨Links.acyclic_chain (S := vmLogicSemantics oneFunctor.predicateText) le_rfl, ?_⟩
  rintro ⟨n, r, hrun, hiff, -⟩
  have hsuccess : ∃ s', r = some s' := by
    cases n with
    | zero => cases hrun
    | succ n =>
      have hclose := Links.unify_close (K := vmFactLinks oneFunctor.predicateText) (n := n)
        (m := 500) rfl le_rfl
      exact ⟨_, Except.ok.inj (hrun.symm.trans hclose)⟩
  obtain ⟨θ, hθ, heq⟩ := hiff.mp hsuccess
  exact Links.not_solves_close (K := vmFactLinks oneFunctor.predicateText)
    (S := vmLogicSemantics oneFunctor.predicateText) (m := 500) le_rfl hθ heq

end Eshkol.Vm
