import Eshkol.Eskb.Format
import Eshkol.Native.HashKeys
import Eshkol.Unify.Correct

/-!
# Logic Terms and Unification

The logic engine of the native runtime (`lib/core/logic.cpp`): logic variables, facts and
cons cells as terms, substitutions, `eshkol_walk`, `eshkol_walk_deep`, the occurs check and
`eshkol_unify`. The algorithm is `Unify.Engine`; this module says how tagged values represent
terms.

A logic variable is an immediate, or a symbol whose spelling begins with `?`, which is
replaced by the immediate when it is met. What the engine reads of the rest of the process is
`LogicEnv`: the text at a predicate's address, and the id that the registry of variables has
for a name. Doubles are compared as IEEE numbers; values of other types (vectors, rationals,
closures and so on) are `other`, and their equality is a parameter. Two facts at one address
are equal at once in the source; here they are taken apart.

The substitution given may be `NULL`, for the empty one. It is also what a failure returns,
so two terms that are equal to begin with do not unify under `NULL`.
-/

namespace Eshkol

open Machine Unify
open Eskb (CString)

/-! ### Terms -/

/-- A tagged value, as the logic engine sees it. Strings and symbols are their text; a fact
has the address of its predicate's text, or 0. -/
inductive Datum : Type
  | null
  | int (i : Int64)
  | double (bits : UInt64)
  | bool (i : Int64)
  | char (i : Int64)
  | var (id : UInt64)
  | nullPtr
  | str (s : CString)
  | sym (s : CString)
  | bignum (b : { b : Bignum // b.Normalized })
  | cons (car cdr : Datum)
  | fact (predicate : UInt64) (args : List Datum)
  | other (type : UInt8) (id : UInt64)

/-- What the logic engine reads of the rest of the process. -/
structure LogicEnv where
  /-- The text at the address of a predicate. -/
  predicateText : UInt64 → CString
  /-- `eshkol_make_logic_var`: the id registered for a name. -/
  makeLogicVar : CString → UInt64
  /-- `(double)i`. -/
  toDouble : Int64 → UInt64
  /-- `eshkol_deep_equal` on two values of which one is `other`. -/
  otherEqual : Datum → Datum → Bool

/-- The spelling of a variable: `?` and at least one more character. -/
def isVarName (s : CString) : Bool :=
  match s.1 with
  | 63 :: _ :: _ => true
  | _ => false

def canonicalizeLogicVar (env : LogicEnv) : Datum → Datum
  | .sym s => if isVarName s then .var (env.makeLogicVar s) else .sym s
  | t => t

/-- `is_empty_list` in `eshkol_deep_equal`. -/
def Datum.isEmptyList : Datum → Bool
  | .null => true
  | .nullPtr => true
  | _ => false

def eshkolBignumCompareInt64 (a : Bignum) (b : Int64) : ℤ :=
  if a.numLimbs = 1 ∧ a.sign = false ∧ 0 ≤ b.toInt then
    if b.toInt < a.magnitude then 1 else if (a.magnitude : ℤ) < b.toInt then -1 else 0
  else if a.numLimbs = 1 ∧ a.sign = true ∧ b.toInt < 0 then
    if -b.toInt < a.magnitude then -1 else if (a.magnitude : ℤ) < -b.toInt then 1 else 0
  else eshkolBignumCompare a (eshkolBignumFromInt64 b)

def eshkolDeepEqual (env : LogicEnv) : Datum → Datum → Bool
  | .other t i, b => env.otherEqual (.other t i) b
  | a, .other t i => env.otherEqual a (.other t i)
  | .cons a d, .cons a' d' => eshkolDeepEqual env a a' && eshkolDeepEqual env d d'
  | .str s, .str s' => s == s'
  | .sym s, .sym s' => s == s'
  | .int i, .double d => doubleEqual (env.toDouble i) d
  | .double d, .int i => doubleEqual d (env.toDouble i)
  | .bignum a, .bignum b => eshkolBignumCompare a.1 b.1 == 0
  | .bignum a, .int i => eshkolBignumCompareInt64 a.1 i == 0
  | .int i, .bignum b => eshkolBignumCompareInt64 b.1 i == 0
  | .int i, .int j => i == j
  | .bool i, .bool j => i == j
  | .char i, .char j => i == j
  | .var i, .var j => i == j
  | .double d, .double d' => doubleEqual d d'
  | a, b => a.isEmptyList && b.isEmptyList

def taggedValuesEqual (env : LogicEnv) : Datum → Datum → Bool
  | .var i, .var j => i == j
  | a, b => eshkolDeepEqual env a b

/-- The compounds of the engine: facts, with the address of the predicate, and cons cells. -/
inductive Compound : Type
  | fact (predicate : UInt64)
  | cons

/-- The comparison of predicates in `eshkol_unify`: by address, then by text. -/
def samePredicate (env : LogicEnv) (p q : UInt64) : Bool :=
  p == q || (p != 0 && q != 0 && env.predicateText p == env.predicateText q)

/-- `OCCURS_CHECK_MAX_DEPTH`. Depths 0 to this one are looked at. -/
def occursCheckMaxDepth : ℕ := 1000

def walkDeepMaxDepth : ℕ := 10000

/-- Tagged values as terms of the unification engine. -/
def logicEngine (env : LogicEnv) : Engine Datum UInt64 Compound where
  canonical := canonicalizeLogicVar env
  shape
    | .var i => .var i
    | .fact p args => .compound (.fact p) args
    | .cons a d => .compound .cons [a, d]
    | _ => .atom
  equal := taggedValuesEqual env
  sameLabel
    | .fact p, .fact q => samePredicate env p q
    | .cons, .cons => true
    | _, _ => false
  parts
    | .fact p args => some (args, .fact p)
    | _ => none
  levels := occursCheckMaxDepth + 1

/-- `eshkol_substitution_t`: the bindings in the order in which they were made. -/
abbrev Substitution : Type := List (UInt64 × Datum)

def eshkolWalk (env : LogicEnv) (t : Datum) (subst : Substitution) : Exec Unit Datum :=
  (logicEngine env).walk subst t

def eshkolWalkDeep (env : LogicEnv) (t : Datum) (subst : Substitution) : Exec Unit Datum :=
  (logicEngine env).deepWalk subst (walkDeepMaxDepth + 1) t

/-- `eshkol_unify`, to a depth of `n` calls. `none` is `NULL`. -/
def eshkolUnify (env : LogicEnv) (n : ℕ) (t₁ t₂ : Datum) (subst : Option Substitution) :
    Exec Unit (Option Substitution) :=
  (logicEngine env).unify n t₁ t₂ subst

/-! ### The terms represented -/

/-- The symbols of terms. Fixnums and bignums are integers. -/
inductive Symbol : Type
  | null
  | int (i : ℤ)
  | double (bits : UInt64)
  | bool (i : Int64)
  | char (i : Int64)
  | str (s : CString)
  | sym (s : CString)
  | fact (predicate : Option CString)
  | cons
  | other (type : UInt8) (id : UInt64)

/-- The name of a fact's predicate. -/
def predicateName (env : LogicEnv) (p : UInt64) : Option CString :=
  if p = 0 then none else some (env.predicateText p)

/-- The symbol of a value that is neither a variable nor a compound. -/
def Datum.atomSymbol : Datum → Option Symbol
  | .null => some .null
  | .int i => some (.int i.toInt)
  | .double d => some (.double d)
  | .bool i => some (.bool i)
  | .char i => some (.char i)
  | .nullPtr => some .null
  | .str s => some (.str s)
  | .sym s => some (.sym s)
  | .bignum b => some (.int b.1.toInt)
  | .other t i => some (.other t i)
  | .var _ | .cons _ _ | .fact _ _ => none

/-- The term that a value represents. -/
def Datum.term (env : LogicEnv) : Datum → Term UInt64 Symbol
  | .null => .app .null []
  | .int i => .app (.int i.toInt) []
  | .double d => .app (.double d) []
  | .bool i => .app (.bool i) []
  | .char i => .app (.char i) []
  | .var i => .var i
  | .nullPtr => .app .null []
  | .str s => .app (.str s) []
  | .sym s => if isVarName s then .var (env.makeLogicVar s) else .app (.sym s) []
  | .bignum b => .app (.int b.1.toInt) []
  | .cons a d => .app .cons [a.term env, d.term env]
  | .fact p args => .app (.fact (predicateName env p)) (args.map (Datum.term env))
  | .other t i => .app (.other t i) []

/-- The symbol of a compound. -/
def Compound.symbol (env : LogicEnv) : Compound → Symbol
  | .fact p => .fact (predicateName env p)
  | .cons => .cons

theorem canonicalizeLogicVar_idem (env : LogicEnv) (t : Datum) :
    canonicalizeLogicVar env (canonicalizeLogicVar env t) = canonicalizeLogicVar env t := by
  cases t with
  | sym s =>
    by_cases h : isVarName s = true
    · simp [canonicalizeLogicVar, h]
    · simp [canonicalizeLogicVar, h]
  | _ => rfl

variable {env : LogicEnv} {t : Datum}

theorem Datum.term_of_atom (hcanonical : canonicalizeLogicVar env t = t)
    (h : (logicEngine env).shape t = .atom) :
    ∃ f, t.atomSymbol = some f ∧ t.term env = .app f [] := by
  cases t with
  | sym s =>
    have hs : isVarName s = false := by
      by_contra hs
      simp [canonicalizeLogicVar, hs] at hcanonical
    exact ⟨.sym s, rfl, by simp [Datum.term, hs]⟩
  | var | fact | cons => cases h
  | _ => exact ⟨_, rfl, by rw [Datum.term]⟩

theorem shape_eq_var {v : UInt64} (h : (logicEngine env).shape t = .var v) : t = .var v := by
  cases t with
  | var i =>
    cases h
    rfl
  | _ => cases h

theorem shape_eq_compound {l : Compound} {args : List Datum}
    (h : (logicEngine env).shape t = .compound l args) :
    (∃ p, t = .fact p args ∧ l = .fact p) ∨ ∃ a d, t = .cons a d ∧ l = .cons ∧ args = [a, d] := by
  cases t with
  | fact p args' =>
    cases h
    exact .inl ⟨p, rfl, rfl⟩
  | cons a d =>
    cases h
    exact .inr ⟨a, d, rfl, rfl, rfl⟩
  | _ => cases h

theorem parts_eq_some {args : List Datum} {rebuild : List Datum → Datum}
    (h : (logicEngine env).parts t = some (args, rebuild)) :
    ∃ p, t = .fact p args ∧ rebuild = .fact p := by
  cases t with
  | fact p args' =>
    cases h
    exact ⟨p, rfl, rfl⟩
  | _ => cases h

/-- **Tagged values represent terms.** -/
def logicSemantics (env : LogicEnv) : Semantics (logicEngine env) Symbol where
  den := Datum.term env
  label := Compound.symbol env
  canonical_canonical := canonicalizeLogicVar_idem env
  den_canonical := by
    intro t
    cases t with
    | sym s =>
      by_cases h : isVarName s = true
      · simp [logicEngine, canonicalizeLogicVar, Datum.term, h]
      · simp [logicEngine, canonicalizeLogicVar, Datum.term, h]
    | _ => rfl
  den_var := by
    intro t v h
    rw [shape_eq_var h, Datum.term]
  den_compound := by
    intro t l args h
    obtain ⟨p, rfl, rfl⟩ | ⟨a, d, rfl, rfl, rfl⟩ := shape_eq_compound h
    · rw [Datum.term, Compound.symbol]
    · rw [Datum.term, Compound.symbol, List.map_cons, List.map_cons, List.map_nil]
  den_atom := by
    intro t hcanonical h
    obtain ⟨f, -, hf⟩ := Datum.term_of_atom hcanonical h
    exact ⟨f, hf⟩
  equal_var := by
    intro t u v ht hu
    rw [shape_eq_var ht, shape_eq_var hu]
    simp [logicEngine, taggedValuesEqual]
  den_parts := by
    intro t args rebuild h
    obtain ⟨p, rfl, rfl⟩ := parts_eq_some h
    exact ⟨_, fun args' _ => ⟨by rw [Datum.term], by rw [Datum.term]⟩⟩

/-! ### Comparable atoms -/

theorem eshkolBignumCompareInt64_eq {a : Bignum} (ha : a.Normalized) (b : Int64) :
    eshkolBignumCompareInt64 a b = Int.sign (a.toInt - b.toInt) := by
  rw [eshkolBignumCompareInt64]
  split
  next h =>
    rw [Bignum.toInt_of_sign_eq_false h.2.1]
    split
    next hlt => rw [Int.sign_eq_one_of_pos (by omega)]
    next hge =>
      split
      next hlt => rw [Int.sign_eq_neg_one_of_neg (by omega)]
      next hge' => rw [Int.sign_eq_zero_iff_zero.mpr (by omega)]
  next =>
    split
    next h =>
      rw [Bignum.toInt_of_sign_eq_true h.2.1]
      split
      next hlt => rw [Int.sign_eq_neg_one_of_neg (by omega)]
      next hge =>
        split
        next hlt => rw [Int.sign_eq_one_of_pos (by omega)]
        next hge' => rw [Int.sign_eq_zero_iff_zero.mpr (by omega)]
    next =>
      rw [eshkolBignumCompare_eq ha (eshkolBignumFromInt64_normalized b),
        toInt_eshkolBignumFromInt64]

/-- Values built from logic variables, facts and atoms that are compared exactly. -/
inductive Datum.Plain : Datum → Prop
  | null : Plain .null
  | int (i : Int64) : Plain (.int i)
  | bool (i : Int64) : Plain (.bool i)
  | char (i : Int64) : Plain (.char i)
  | var (id : UInt64) : Plain (.var id)
  | nullPtr : Plain .nullPtr
  | str (s : CString) : Plain (.str s)
  | sym (s : CString) : Plain (.sym s)
  | bignum (b : { b : Bignum // b.Normalized }) : Plain (.bignum b)
  | fact (p : UInt64) (args : List Datum) (h : ∀ a ∈ args, Plain a) : Plain (.fact p args)

theorem samePredicate_iff (env : LogicEnv) (p q : UInt64) :
    samePredicate env p q = true ↔ predicateName env p = predicateName env q := by
  by_cases hpq : p = q
  · simp [samePredicate, hpq]
  by_cases hp : p = 0
  · have hq : q ≠ 0 := fun hq => hpq (hp.trans hq.symm)
    simp [samePredicate, predicateName, hp, hq, Ne.symm hq]
  by_cases hq : q = 0
  · simp [samePredicate, predicateName, hp, hq]
  · simp [samePredicate, predicateName, hpq, hp, hq, Subtype.ext_iff]

theorem Datum.Plain.equal_of_atomSymbol {u : Datum} {f : Symbol} (ht : t.Plain) (hu : u.Plain)
    (hf : t.atomSymbol = some f) (hg : u.atomSymbol = some f) :
    taggedValuesEqual env t u = true := by
  rw [← hf] at hg
  cases ht <;> cases hu <;>
    simp only [Datum.atomSymbol, reduceCtorEq, Option.some.injEq, Symbol.int.injEq,
      Symbol.bool.injEq, Symbol.char.injEq, Symbol.str.injEq, Symbol.sym.injEq] at hf hg <;>
    simp only [taggedValuesEqual, eshkolDeepEqual, Datum.isEmptyList, Bool.and_self, beq_iff_eq]
  case int.int i j => exact (Int64.toInt_inj.mp hg).symm
  case int.bignum i b =>
      rw [eshkolBignumCompareInt64_eq b.2, hg, sub_self, Int.sign_zero]
  case bignum.int b i =>
      rw [eshkolBignumCompareInt64_eq b.2, hg, sub_self, Int.sign_zero]
  case bignum.bignum a b => rw [eshkolBignumCompare_eq a.2 b.2, hg, sub_self, Int.sign_zero]
  all_goals exact hg.symm

/-- The comparison of atoms decides equality of plain data. -/
theorem Datum.Plain.decides (env : LogicEnv) : (logicSemantics env).Decides Datum.Plain where
  canonical := by
    intro t ht
    cases ht with
    | sym s =>
      simp only [logicEngine, canonicalizeLogicVar]
      split
      · exact .var _
      · exact .sym s
    | fact p args h => exact .fact p args h
    | null | int | bool | char | var | nullPtr | str | bignum => constructor
  args := by
    intro t l as ht hshape
    cases ht with
    | fact p args h =>
      cases hshape
      exact h
    | _ => cases hshape
  equal := by
    intro t u ht hu h
    change taggedValuesEqual env t u = true at h
    change t.term env = u.term env
    cases ht <;> cases hu <;>
      simp only [taggedValuesEqual, eshkolDeepEqual, Datum.isEmptyList, Bool.and_true,
        Bool.and_false, Bool.false_eq_true, beq_iff_eq] at h
    case null.null | null.nullPtr | nullPtr.null | nullPtr.nullPtr => simp only [Datum.term]
    case int.bignum i b =>
        rw [eshkolBignumCompareInt64_eq b.2, Int.sign_eq_zero_iff_zero, sub_eq_zero] at h
        rw [Datum.term, Datum.term, h]
    case bignum.int b i =>
        rw [eshkolBignumCompareInt64_eq b.2, Int.sign_eq_zero_iff_zero, sub_eq_zero] at h
        rw [Datum.term, Datum.term, h]
    case bignum.bignum a b =>
        rw [eshkolBignumCompare_eq a.2 b.2, Int.sign_eq_zero_iff_zero, sub_eq_zero] at h
        rw [Datum.term, Datum.term, h]
    all_goals rw [h]
  atoms := by
    intro t u ht hu hct hcu hat hau h
    obtain ⟨f, hf, htf⟩ := Datum.term_of_atom hct hat
    obtain ⟨g, hg, htg⟩ := Datum.term_of_atom hcu hau
    change t.term env = u.term env at h
    rw [htf, htg] at h
    obtain rfl := (Term.app.inj h).1
    exact ht.equal_of_atomSymbol hu hf hg
  atom_label := by
    intro t u l as f ht hcanonical hatom hshape hden
    obtain ⟨g, hg, htg⟩ := Datum.term_of_atom hcanonical hatom
    change t.term env = .app f [] at hden
    rw [htg] at hden
    obtain rfl := (Term.app.inj hden).1
    rintro rfl
    cases l <;> cases t <;> simp [Datum.atomSymbol, logicSemantics, Compound.symbol] at hg
  sameLabel_iff := by
    intro l l'
    cases l <;> cases l' <;>
      simp [logicEngine, logicSemantics, Compound.symbol, samePredicate_iff]

end Eshkol
