import Eshkol.Native.Unification

/-!
# VM Logic Terms

The logic engine of the bytecode VM (`lib/backend/vm_logic.c`): terms, substitutions,
`vm_walk`, `vm_walk_deep_full`, the occurs check and `vm_unify`. The algorithm is
`Unify.Engine`, as for the native runtime. Here `?`-symbols become variables when a value is
made a term, so that walking does not rename them, and a fact is equal at once only to
itself. As in the native model, a fact is taken apart even then.

The occurs check enters a fact through two functions, each of which counts one level of its
depth of 1000. It looks at 501 levels of a term.
-/

namespace Eshkol.Vm

open Machine Unify
open Eskb (CString)

/-! ### Terms -/

/-- `VM_TERM_KIND_SYMBOL` and `VM_TERM_KIND_STRING`. -/
inductive TextKind : Type
  | symbol
  | string
  deriving DecidableEq, Repr

/-- `VmValue`. A term of kind `VM_TERM_KIND_OPAQUE` is a `slot`: a type tag and a heap index.
A fact has the address of its predicate's text, or 0. -/
inductive VmTerm : Type
  | null
  | int64 (i : Int64)
  | double (bits : UInt64)
  | float32 (bits : UInt32)
  | bool (i : Int64)
  | logicVar (id : UInt64)
  | text (kind : TextKind) (s : CString)
  | fact (predicate : UInt64) (args : List VmTerm)
  | slot (tag index : UInt32)

def vmValuesEqual : VmTerm → VmTerm → Bool
  | .null, .null => true
  | .int64 i, .int64 j => i == j
  | .double a, .double b => doubleEqual a b
  | .float32 a, .float32 b => (ieeeDecode 8 23 a.toNat).eq (ieeeDecode 8 23 b.toNat)
  | .bool i, .bool j => i == j
  | .logicVar i, .logicVar j => i == j
  | .text k s, .text k' s' => k == k' && s == s'
  | .slot t i, .slot t' i' => t == t' && i == i'
  | _, _ => false

/-- The comparison of predicates in `vm_unify_facts`, given the text at each address. -/
def vmSamePredicate (predicateText : UInt64 → CString) (p q : UInt64) : Bool :=
  p == q || (p != 0 && q != 0 && predicateText p == predicateText q)

def occursMaxDepth : ℕ := 1000

def walkDeepMax : ℕ := 10000

/-- VM terms as terms of the unification engine. -/
def vmLogicEngine (predicateText : UInt64 → CString) : Engine VmTerm UInt64 UInt64 where
  canonical := id
  shape
    | .logicVar i => .var i
    | .fact p args => .compound p args
    | _ => .atom
  equal := vmValuesEqual
  sameLabel := vmSamePredicate predicateText
  parts
    | .fact p args => some (args, .fact p)
    | _ => none
  levels := occursMaxDepth / 2 + 1

abbrev VmSubstitution : Type := List (UInt64 × VmTerm)

section Operations

variable (predicateText : UInt64 → CString)

def vmWalk (term : VmTerm) (subst : VmSubstitution) : Exec Unit VmTerm :=
  (vmLogicEngine predicateText).walk subst term

def vmWalkDeepFull (term : VmTerm) (subst : VmSubstitution) : Exec Unit VmTerm :=
  (vmLogicEngine predicateText).deepWalk subst (walkDeepMax + 1) term

/-- `vm_unify`, to a depth of `n` calls. -/
def vmUnify (n : ℕ) (t₁ t₂ : VmTerm) (subst : Option VmSubstitution) :
    Exec Unit (Option VmSubstitution) :=
  (vmLogicEngine predicateText).unify n t₁ t₂ subst

/-- `vm_occurs_impl` and `vm_occurs_in_fact`, with the number of depths that are left. -/
def vmOccursImpl (varId : UInt64) (subst : VmSubstitution) : ℕ → VmTerm → Exec Unit Bool
  | 0, _ => .ok false
  | 1, term => do
      match ← vmWalk predicateText term subst with
      | .logicVar i => .ok (decide (i = varId))
      | _ => .ok false
  | depth + 2, term => do
      match ← vmWalk predicateText term subst with
      | .logicVar i => .ok (decide (i = varId))
      | .fact _ args => Engine.anyM (vmOccursImpl varId subst depth) args
      | _ => .ok false

end Operations

theorem vmOccursImpl_eq (predicateText : UInt64 → CString) (varId : UInt64)
    (subst : VmSubstitution) (k : ℕ) (term : VmTerm) :
    vmOccursImpl predicateText varId subst (2 * k + 1) term =
      (vmLogicEngine predicateText).occursWithin subst varId (k + 1) term := by
  induction k generalizing term with
  | zero =>
    rw [vmOccursImpl, Engine.occursWithin, vmWalk]
    refine bind_congr fun w => ?_
    cases w with
    | fact p args => exact (Semantics.anyM_eq_false fun _ _ => rfl).symm
    | _ => rfl
  | succ k ih =>
    rw [Nat.mul_succ, Nat.add_right_comm, vmOccursImpl, Engine.occursWithin, vmWalk]
    refine bind_congr fun w => ?_
    cases w with
    | fact p args => exact congrArg (Engine.anyM · args) (funext ih)
    | _ => rfl

/-! ### The terms represented -/

/-- The symbols of terms. -/
inductive VmSymbol : Type
  | null
  | int64 (i : Int64)
  | double (bits : UInt64)
  | float32 (bits : UInt32)
  | bool (i : Int64)
  | text (kind : TextKind) (s : CString)
  | fact (predicate : Option CString)
  | slot (tag index : UInt32)

/-- The name of a fact's predicate. -/
def vmPredicateName (predicateText : UInt64 → CString) (p : UInt64) : Option CString :=
  if p = 0 then none else some (predicateText p)

/-- The term that a VM term represents. -/
def VmTerm.term (predicateText : UInt64 → CString) : VmTerm → Term UInt64 VmSymbol
  | .null => .app .null []
  | .int64 i => .app (.int64 i) []
  | .double b => .app (.double b) []
  | .float32 b => .app (.float32 b) []
  | .bool i => .app (.bool i) []
  | .logicVar i => .var i
  | .text k s => .app (.text k s) []
  | .fact p args =>
    .app (.fact (vmPredicateName predicateText p)) (args.map (VmTerm.term predicateText))
  | .slot t i => .app (.slot t i) []

/-- **VM terms represent terms.** -/
def vmLogicSemantics (predicateText : UInt64 → CString) :
    Semantics (vmLogicEngine predicateText) VmSymbol where
  den := VmTerm.term predicateText
  label p := .fact (vmPredicateName predicateText p)
  canonical_canonical _ := rfl
  den_canonical _ := rfl
  den_var := by
    intro t v h
    cases t <;> simp [vmLogicEngine] at h
    rw [VmTerm.term, h]
  den_compound := by
    intro t l args h
    cases t <;> simp [vmLogicEngine] at h
    obtain ⟨rfl, rfl⟩ := h
    rw [VmTerm.term]
  den_atom := by
    intro t _ h
    cases t with
    | logicVar | fact => simp [vmLogicEngine] at h
    | _ => exact ⟨_, by rw [VmTerm.term]⟩
  equal_var := by
    intro t u v ht hu
    cases t <;> simp [vmLogicEngine] at ht
    cases u <;> simp [vmLogicEngine] at hu
    simp [vmLogicEngine, vmValuesEqual, ht, hu]
  den_parts := by
    intro t args rebuild h
    cases t <;> simp [vmLogicEngine] at h
    obtain ⟨rfl, rfl⟩ := h
    exact ⟨_, fun args' _ => ⟨by rw [VmTerm.term], by rw [VmTerm.term]⟩⟩

/-- The equations that a substitution stands for. -/
def VmSubstitution.bindings (predicateText : UInt64 → CString) (s : VmSubstitution) :
    Bindings UInt64 VmSymbol :=
  (vmLogicSemantics predicateText).bindings s

/-! ### Runs of calls -/

/-- A substitution is obtained by native calls of `eshkol_unify`, from `NULL` or the empty
one, in none of which an occurs check misses an occurrence. -/
def NativeRun (env : LogicEnv) (s : Substitution) : Prop :=
  Semantics.Obtained (logicEngine env) (fun t₁ t₂ s => ChecksHold env t₁ t₂ s) (some s)

/-- A substitution is obtained by calls of `vm_unify`, from `NULL` or the empty one, in none
of which an occurs check misses an occurrence. -/
def VmRun (predicateText : UInt64 → CString) (s : VmSubstitution) : Prop :=
  Semantics.Obtained (vmLogicEngine predicateText)
    (fun t₁ t₂ s => ∀ n, (vmLogicSemantics predicateText).Checked n t₁ t₂ s) (some s)

/-- **Unification builds acyclic substitutions** in both engines, in runs that miss no
occurrence. Walking and deep walking then end. -/
theorem unify_runs_acyclic (env : LogicEnv) (s : Substitution)
    (predicateText : UInt64 → CString) (s' : VmSubstitution) :
    (NativeRun env s → Acyclic (s.bindings env) ∧
      ∀ t, (∃ w, eshkolWalk env t s = .ok w) ∧ ∃ w, eshkolWalkDeep env t s = .ok w) ∧
    (VmRun predicateText s' → Acyclic (s'.bindings predicateText) ∧
      ∀ t, (∃ w, vmWalk predicateText t s' = .ok w) ∧
        ∃ w, vmWalkDeepFull predicateText t s' = .ok w) := by
  constructor
  · intro hs
    have hacyclic := (Semantics.Obtained.acyclic (S := logicSemantics env) hs).2
    refine ⟨hacyclic, ?_⟩
    intro t
    exact ⟨Semantics.walk_total hacyclic t, Semantics.deepWalk_total hacyclic _ t⟩
  · intro hs
    have hacyclic := (Semantics.Obtained.acyclic (S := vmLogicSemantics predicateText) hs).2
    refine ⟨hacyclic, ?_⟩
    intro t
    exact ⟨Semantics.walk_total hacyclic t, Semantics.deepWalk_total hacyclic _ t⟩

/-- The variables `?x₀`, `?x₁`, … and the facts `(g ?xᵢ)`, for half of the depth that the
occurs check counts. -/
def vmFactLinks (predicateText : UInt64 → CString) : Links (vmLogicEngine predicateText) where
  bound := occursMaxDepth / 2
  name i := UInt64.ofNat i
  name_inj := by
    intro i j hi hj h
    have hlt {k : ℕ} (hk : k ≤ occursMaxDepth / 2) : k < 2 ^ 64 := lt_of_le_of_lt hk (by decide)
    have := congrArg UInt64.toNat h
    rwa [UInt64.toNat_ofNat_of_lt' (hlt hi), UInt64.toNat_ofNat_of_lt' (hlt hj)] at this
  var i := .logicVar (UInt64.ofNat i)
  link i := .fact 1 [.logicVar (UInt64.ofNat i)]
  label := 1
  shape_var _ := rfl
  shape_link _ := rfl
  canonical_var _ := rfl
  canonical_link _ := rfl
  equal_link _ _ := rfl

/-- `?x₀ = (g ?x₁)`, natively. -/
def oneLink : Substitution := (factLinks oneFunctor).chain 1

/-- Under `?x₀ = (g ?x₁)`, the facts `(g ?x₀)` and `(g (g 5))` are unified by `?x₁ = 5`. -/
theorem oneLink_unify :
    (∀ n, (logicSemantics oneFunctor).Checked n (.fact 1 [.var 0]) (.fact 1 [.fact 1 [.int 5]])
      oneLink) ∧
    (logicEngine oneFunctor).unify 3 (.fact 1 [.var 0]) (.fact 1 [.fact 1 [.int 5]])
      (some oneLink) = .ok (some (oneLink ++ [(1, .int 5)])) := by
  have hwalk (args : List Datum) :
      (logicEngine oneFunctor).walk oneLink (.fact 1 args) = .ok (.fact 1 args) := rfl
  have hwalk₀ : (logicEngine oneFunctor).walk oneLink (.var 0) = .ok (.fact 1 [.var 1]) := rfl
  have hwalk₁ : (logicEngine oneFunctor).walk oneLink (.var 1) = .ok (.var 1) := rfl
  have hwalk₅ : (logicEngine oneFunctor).walk oneLink (.int 5) = .ok (.int 5) := rfl
  have hnext : (logicEngine oneFunctor).next (.fact 1 [.var 0]) (.fact 1 [.fact 1 [.int 5]]) =
      .descend [.var 0] [.fact 1 [.int 5]] := by
    simp [Engine.next, logicEngine, taggedValuesEqual, eshkolDeepEqual, Datum.isEmptyList,
      samePredicate]
  have hnext' : (logicEngine oneFunctor).next (.fact 1 [.var 1]) (.fact 1 [.int 5]) =
      .descend [.var 1] [.int 5] := by
    simp [Engine.next, logicEngine, taggedValuesEqual, eshkolDeepEqual, Datum.isEmptyList,
      samePredicate]
  have hbind : (logicEngine oneFunctor).next (.var 1) (.int 5) = .bind 1 (.int 5) := by
    simp [Engine.next, logicEngine, taggedValuesEqual, eshkolDeepEqual, Datum.isEmptyList]
  constructor
  · refine Semantics.checked_descend (hwalk _) (hwalk _) hnext fun n => ⟨?_, fun _ _ => trivial⟩
    refine Semantics.checked_descend hwalk₀ (hwalk _) hnext' (fun n => ⟨?_, fun _ _ => trivial⟩) n
    exact Semantics.checked_bind hwalk₁ hwalk₅ hbind (Semantics.caught_atom rfl rfl) n
  · rw [Engine.unify, Option.getD_some, hwalk, hwalk, ok_bind, ok_bind, hnext, Engine.proceed,
      Engine.unifyArgs, Engine.unify, Option.getD_some, hwalk₀, hwalk, ok_bind, ok_bind, hnext',
      Engine.proceed, Engine.unifyArgs, Engine.unify, Option.getD_some, hwalk₁, hwalk₅, ok_bind,
      ok_bind, hbind]
    rfl

/-- Two native calls, the second of which binds a variable inside of two facts; and a chain of 500
bindings in the VM, where every occurs check looks for a variable in a fact. -/
theorem unify_runs_acyclic_chain :
    Acyclic (Substitution.bindings oneFunctor (oneLink ++ [(1, .int 5)])) ∧
      Acyclic (VmSubstitution.bindings oneFunctor.predicateText
        ((vmFactLinks oneFunctor.predicateText).chain 500)) := by
  have hruns := unify_runs_acyclic oneFunctor (oneLink ++ [(1, .int 5)])
    oneFunctor.predicateText ((vmFactLinks oneFunctor.predicateText).chain 500)
  have hlink : NativeRun oneFunctor oneLink :=
    Links.obtained_chain (logicSemantics oneFunctor) (by decide : 1 ≤ occursCheckMaxDepth)
  exact ⟨(hruns.1 (.call hlink oneLink_unify.1 oneLink_unify.2)).1,
    (hruns.2 (Links.obtained_chain (vmLogicSemantics oneFunctor.predicateText) le_rfl)).1⟩

/-- After 1000 native bindings, or 500 of the VM, a call closes a cycle. -/
theorem unify_runs_cyclic :
    (∃ s, Semantics.Obtained (logicEngine oneFunctor) (fun _ _ _ => True) (some s) ∧
      ¬ Acyclic (Substitution.bindings oneFunctor s)) ∧
    ∃ s, Semantics.Obtained (vmLogicEngine oneFunctor.predicateText) (fun _ _ _ => True)
      (some s) ∧ ¬ Acyclic (VmSubstitution.bindings oneFunctor.predicateText s) :=
  ⟨Links.obtained_cycle (K := factLinks oneFunctor) (S := logicSemantics oneFunctor) rfl le_rfl,
    Links.obtained_cycle (K := vmFactLinks oneFunctor.predicateText)
      (S := vmLogicSemantics oneFunctor.predicateText) rfl le_rfl⟩

end Eshkol.Vm
