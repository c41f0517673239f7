import Eshkol.Frontend.ModuleVisibility

/-!
# References and Their Contexts

Every reference of a module stands in a context: the binders around it, innermost first, with
what sort of binder each is. A binder of a `let` that comes before an init is not in force in the
init, but the renamer takes it for one; the definitions in a body, the variables of a `match`
pattern and the name of a named `let` are in force, but the renamer does not see them; and it does
not look at the tests in patterns at all.

`rewrite` replaces the references of a form, by a function of their contexts.
-/

namespace Eshkol.Frontend

/-! ### Contexts -/

/-- Sorts of binders around a reference: the variables of a form over its body, the variables of a
plain `let` over the inits behind them, definitions in a body, the variables of a `match` pattern
and the name of a named `let`. A test in a pattern is marked with a binder without names. -/
inductive BinderKind : Type
  | parameter
  | earlier
  | definition
  | pattern
  | loop
  | test
  deriving DecidableEq

/-- A binder around a reference. -/
structure Binder where
  kind : BinderKind
  names : List String

/-- The binders around a reference. -/
abbrev Context : Type := List Binder

/-- A name is bound in the context of a reference. -/
def LexicallyBound (Γ : Context) (name : String) : Prop :=
  ∃ b ∈ Γ, b.kind ≠ .earlier ∧ name ∈ b.names

/-- The renamer leaves a name alone: it stands in a test, or a binder that the renamer sees binds
it. -/
def LeftAlone (Γ : Context) (name : String) : Prop :=
  ∃ b ∈ Γ, b.kind = .test ∨ (b.kind = .parameter ∨ b.kind = .earlier) ∧ name ∈ b.names

instance (Γ : Context) (name : String) : Decidable (LexicallyBound Γ name) :=
  inferInstanceAs (Decidable (∃ b ∈ Γ, _))

instance (Γ : Context) (name : String) : Decidable (LeftAlone Γ name) :=
  inferInstanceAs (Decidable (∃ b ∈ Γ, _))

mutual

/-- The names that a form defines in the body it stands in. -/
def definedNames : Ast → List String
  | .define name _ _ _ _ => [name]
  | .sequence .sequence expressions => definedNamesOf expressions
  | _ => []

/-- The names that several forms define. -/
def definedNamesOf : List Ast → List String
  | [] => []
  | a :: as => definedNames a ++ definedNamesOf as

end

mutual

/-- The variables of a pattern. -/
def Pattern.vars : Pattern → List String
  | .variable name => [name]
  | .cons car cdr => car.vars ++ cdr.vars
  | .list patterns => patternsVars patterns
  | .or patterns => patternsVars patterns
  | .predicate _ name => name.toList
  | .literal _ => []
  | .wildcard => []

/-- The variables of several patterns. -/
def patternsVars : List Pattern → List String
  | [] => []
  | p :: ps => p.vars ++ patternsVars ps

end

/-- A form as a body. -/
def inBody (Γ : Context) (body : Ast) : Context := ⟨.definition, definedNames body⟩ :: Γ

/-- The context of the inits of a `let`, behind its earlier binders. -/
def inInits (Γ : Context) (op : LetOp) (bindings : List LetBinding) : Context :=
  if op = .letrec ∨ op = .letrecStar then ⟨.parameter, bindings.filterMap bindingName⟩ :: Γ else Γ

/-- The binders before an init. -/
def beforeInit (Γ : Context) (op : LetOp) (earlier : List String) : Context :=
  ⟨if op = .plain then .earlier else .parameter, earlier⟩ :: Γ

/-- The binders before a producer. -/
def beforeProducer (Γ : Context) (sequential : Bool) (earlier : List String) : Context :=
  if sequential then ⟨.parameter, earlier⟩ :: Γ else Γ

/-! ### Rewriting references -/

section Rewrite

variable (f : Context → String → String)

mutual

/-- A form with its references replaced. -/
def rewrite : Ast → Context → Ast
  | .literal value, _ => .literal value
  | .var id, Γ => .var (f Γ id)
  | .cons car cdr, Γ => .cons (rewrite car Γ) (rewrite cdr Γ)
  | .call op none args, Γ =>
    if op = .quasiquote then .call op none (rewriteQuasiquotes args Γ)
    else if op.isRenamed then .call op none (rewriteAll args Γ)
    else .call op none args
  | .call op (some func) args, Γ =>
    if op = .quasiquote then .call op (some func) (rewriteQuasiquotes args Γ)
    else if op.isRenamed then .call op (some (rewrite func Γ)) (rewriteAll args Γ)
    else .call op (some func) args
  | .sequence op expressions, Γ => .sequence op (rewriteAll expressions Γ)
  | .define name isFunction parameters rest value, Γ =>
    .define name isFunction parameters rest
      (if isFunction then
        rewrite value (inBody (⟨.parameter, parameterNames parameters rest⟩ :: Γ) value)
      else rewrite value Γ)
  | .lambda parameters rest body, Γ =>
    .lambda parameters rest
      (rewrite body (inBody (⟨.parameter, parameterNames parameters rest⟩ :: Γ) body))
  | .letForm op name bindings body, Γ =>
    .letForm op name (rewriteBindings bindings op (inInits Γ op bindings) [])
      (rewrite body (inBody (⟨.parameter, bindings.filterMap bindingName⟩ ::
        ⟨.loop, name.toList⟩ :: Γ) body))
  | .letValues sequential bindings body, Γ =>
    .letValues sequential (rewriteProducers bindings sequential Γ [])
      (rewrite body (inBody (⟨.parameter, bindings.flatMap ValuesBinding.vars⟩ :: Γ) body))
  | .setForm name value, Γ => .setForm (f Γ name) (rewrite value Γ)
  | .matchForm expr clauses, Γ => .matchForm (rewrite expr Γ) (rewriteClauses clauses Γ)
  | .guardForm varName clauses body, Γ =>
    .guardForm varName (rewriteAll clauses (⟨.parameter, varName.toList⟩ :: Γ))
      (rewriteAll body (⟨.definition, definedNamesOf body⟩ :: Γ))
  | .operands op args, Γ =>
    if op = .other then .operands op args else .operands op (rewriteAll args Γ)
  | .defineSyntax (.mk name literals rules), Γ =>
    .defineSyntax (.mk name literals (rewriteTemplates rules Γ))
  | .letSyntax definitions body, Γ => .letSyntax definitions (rewrite body Γ)

/-- Forms in one context. -/
def rewriteAll : List Ast → Context → List Ast
  | [], _ => []
  | a :: as, Γ => rewrite a Γ :: rewriteAll as Γ

/-- The bindings of a `let`, behind earlier binders. -/
def rewriteBindings : List LetBinding → LetOp → Context → List String → List LetBinding
  | [], _, _, _ => []
  | .mk binder init :: bindings, op, Γ, earlier =>
    .mk binder (rewrite init (beforeInit Γ op earlier)) ::
      rewriteBindings bindings op Γ ((astName binder).toList ++ earlier)

/-- The bindings of a `let-values`, behind earlier binders. -/
def rewriteProducers : List ValuesBinding → Bool → Context → List String → List ValuesBinding
  | [], _, _, _ => []
  | .mk vars producer :: bindings, sequential, Γ, earlier =>
    .mk vars (rewrite producer (beforeProducer Γ sequential earlier)) ::
      rewriteProducers bindings sequential Γ (vars ++ earlier)

/-- The clauses of a `match`. -/
def rewriteClauses : List MatchClause → Context → List MatchClause
  | [], _ => []
  | .mk pattern none body :: clauses, Γ =>
    .mk (rewritePattern pattern Γ) none
        (rewrite body (inBody (⟨.pattern, pattern.vars⟩ :: Γ) body)) ::
      rewriteClauses clauses Γ
  | .mk pattern (some guard) body :: clauses, Γ =>
    .mk (rewritePattern pattern Γ) (some (rewrite guard (⟨.pattern, pattern.vars⟩ :: Γ)))
        (rewrite body (inBody (⟨.pattern, pattern.vars⟩ :: Γ) body)) ::
      rewriteClauses clauses Γ

/-- The tests of a pattern. -/
def rewritePattern : Pattern → Context → Pattern
  | .predicate test name, Γ => .predicate (rewrite test (⟨.test, []⟩ :: Γ)) name
  | .cons car cdr, Γ => .cons (rewritePattern car Γ) (rewritePattern cdr Γ)
  | .list patterns, Γ => .list (rewritePatterns patterns Γ)
  | .or patterns, Γ => .or (rewritePatterns patterns Γ)
  | .literal value, _ => .literal value
  | .variable name, _ => .variable name
  | .wildcard, _ => .wildcard

/-- The tests of several patterns. -/
def rewritePatterns : List Pattern → Context → List Pattern
  | [], _ => []
  | p :: ps, Γ => rewritePattern p Γ :: rewritePatterns ps Γ

/-- The unquoted parts of a quasiquoted form. -/
def rewriteQuasiquote : Ast → Context → Ast
  | .cons car cdr, Γ => .cons (rewriteQuasiquote car Γ) (rewriteQuasiquote cdr Γ)
  | .call op none args, Γ =>
    if op = .unquote ∨ op = .unquoteSplicing then .call op none (rewriteAll args Γ)
    else if op.isQuasi then .call op none (rewriteQuasiquotes args Γ)
    else .call op none args
  | .call op (some func) args, Γ =>
    if op = .unquote ∨ op = .unquoteSplicing then .call op (some func) (rewriteAll args Γ)
    else if op.isQuasi then
      .call op (some (rewriteQuasiquote func Γ)) (rewriteQuasiquotes args Γ)
    else .call op (some func) args
  | .operands op args, Γ =>
    if op = .tensor then .operands op (rewriteQuasiquotes args Γ) else .operands op args
  | a, _ => a

/-- The unquoted parts of several quasiquoted forms. -/
def rewriteQuasiquotes : List Ast → Context → List Ast
  | [], _ => []
  | a :: as, Γ => rewriteQuasiquote a Γ :: rewriteQuasiquotes as Γ

/-- The templates of macro rules. -/
def rewriteTemplates : List MacroRule → Context → List MacroRule
  | [], _ => []
  | .mk pattern (.literal ast) :: rules, Γ =>
    .mk pattern (.literal (rewrite ast Γ)) :: rewriteTemplates rules Γ
  | rule :: rules, Γ => rule :: rewriteTemplates rules Γ

end

end Rewrite

section References

variable (p : Context → String → Prop)

mutual

/-- Every reference of a form has a property, in its context. -/
def AllReferences : Ast → Context → Prop
  | .literal _, _ => True
  | .var id, Γ => p Γ id
  | .cons car cdr, Γ => AllReferences car Γ ∧ AllReferences cdr Γ
  | .call op none args, Γ =>
    if op = .quasiquote then AllUnquoted args Γ
    else if op.isRenamed then AllReferencesIn args Γ else True
  | .call op (some func) args, Γ =>
    if op = .quasiquote then AllUnquoted args Γ
    else if op.isRenamed then AllReferences func Γ ∧ AllReferencesIn args Γ else True
  | .sequence _ expressions, Γ => AllReferencesIn expressions Γ
  | .define _ isFunction parameters rest value, Γ =>
    if isFunction then
      AllReferences value (inBody (⟨.parameter, parameterNames parameters rest⟩ :: Γ) value)
    else AllReferences value Γ
  | .lambda parameters rest body, Γ =>
    AllReferences body (inBody (⟨.parameter, parameterNames parameters rest⟩ :: Γ) body)
  | .letForm op name bindings body, Γ =>
    AllInits bindings op (inInits Γ op bindings) [] ∧
      AllReferences body (inBody (⟨.parameter, bindings.filterMap bindingName⟩ ::
        ⟨.loop, name.toList⟩ :: Γ) body)
  | .letValues sequential bindings body, Γ =>
    AllProducers bindings sequential Γ [] ∧
      AllReferences body
        (inBody (⟨.parameter, bindings.flatMap ValuesBinding.vars⟩ :: Γ) body)
  | .setForm name value, Γ => p Γ name ∧ AllReferences value Γ
  | .matchForm expr clauses, Γ => AllReferences expr Γ ∧ AllClauses clauses Γ
  | .guardForm varName clauses body, Γ =>
    AllReferencesIn clauses (⟨.parameter, varName.toList⟩ :: Γ) ∧
      AllReferencesIn body (⟨.definition, definedNamesOf body⟩ :: Γ)
  | .operands op args, Γ => if op = .other then True else AllReferencesIn args Γ
  | .defineSyntax (.mk _ _ rules), Γ => AllTemplates rules Γ
  | .letSyntax _ body, Γ => AllReferences body Γ

/-- Every reference of several forms. -/
def AllReferencesIn : List Ast → Context → Prop
  | [], _ => True
  | a :: as, Γ => AllReferences a Γ ∧ AllReferencesIn as Γ

/-- Every reference of the inits of a `let`. -/
def AllInits : List LetBinding → LetOp → Context → List String → Prop
  | [], _, _, _ => True
  | .mk binder init :: bindings, op, Γ, earlier =>
    AllReferences init (beforeInit Γ op earlier) ∧
      AllInits bindings op Γ ((astName binder).toList ++ earlier)

/-- Every reference of the producers of a `let-values`. -/
def AllProducers : List ValuesBinding → Bool → Context → List String → Prop
  | [], _, _, _ => True
  | .mk vars producer :: bindings, sequential, Γ, earlier =>
    AllReferences producer (beforeProducer Γ sequential earlier) ∧
      AllProducers bindings sequential Γ (vars ++ earlier)

/-- Every reference of the clauses of a `match`. -/
def AllClauses : List MatchClause → Context → Prop
  | [], _ => True
  | .mk pattern none body :: clauses, Γ =>
    AllTests pattern Γ ∧
      AllReferences body (inBody (⟨.pattern, pattern.vars⟩ :: Γ) body) ∧ AllClauses clauses Γ
  | .mk pattern (some guard) body :: clauses, Γ =>
    AllTests pattern Γ ∧ AllReferences guard (⟨.pattern, pattern.vars⟩ :: Γ) ∧
      AllReferences body (inBody (⟨.pattern, pattern.vars⟩ :: Γ) body) ∧ AllClauses clauses Γ

/-- Every reference of the tests of a pattern. -/
def AllTests : Pattern → Context → Prop
  | .predicate test _, Γ => AllReferences test (⟨.test, []⟩ :: Γ)
  | .cons car cdr, Γ => AllTests car Γ ∧ AllTests cdr Γ
  | .list patterns, Γ => AllTestsIn patterns Γ
  | .or patterns, Γ => AllTestsIn patterns Γ
  | .literal _, _ => True
  | .variable _, _ => True
  | .wildcard, _ => True

/-- Every reference of the tests of several patterns. -/
def AllTestsIn : List Pattern → Context → Prop
  | [], _ => True
  | p :: ps, Γ => AllTests p Γ ∧ AllTestsIn ps Γ

/-- Every reference of the unquoted parts of a quasiquoted form. -/
def AllUnquotedIn : Ast → Context → Prop
  | .cons car cdr, Γ => AllUnquotedIn car Γ ∧ AllUnquotedIn cdr Γ
  | .call op none args, Γ =>
    if op = .unquote ∨ op = .unquoteSplicing then AllReferencesIn args Γ
    else if op.isQuasi then AllUnquoted args Γ else True
  | .call op (some func) args, Γ =>
    if op = .unquote ∨ op = .unquoteSplicing then AllReferencesIn args Γ
    else if op.isQuasi then AllUnquotedIn func Γ ∧ AllUnquoted args Γ else True
  | .operands op args, Γ => if op = .tensor then AllUnquoted args Γ else True
  | _, _ => True

/-- Every reference of the unquoted parts of several quasiquoted forms. -/
def AllUnquoted : List Ast → Context → Prop
  | [], _ => True
  | a :: as, Γ => AllUnquotedIn a Γ ∧ AllUnquoted as Γ

/-- Every reference of the templates of macro rules. -/
def AllTemplates : List MacroRule → Context → Prop
  | [], _ => True
  | .mk _ (.literal ast) :: rules, Γ => AllReferences ast Γ ∧ AllTemplates rules Γ
  | _ :: rules, Γ => AllTemplates rules Γ

end

end References

section Agree

variable (f g : Context → String → String)

mutual

/-- Two rules rewrite a tree alike if they agree on its references. -/
theorem rewrite_eq_iff : ∀ (a : Ast) (Γ : Context), rewrite f a Γ = rewrite g a Γ ↔
    AllReferences (fun Γ x => f Γ x = g Γ x) a Γ
  | .literal value, _ => by simp only [rewrite, AllReferences]
  | .var id, Γ => by simp only [rewrite, AllReferences, Ast.var.injEq]
  | .cons car cdr, Γ => by
      simp only [rewrite, AllReferences, Ast.cons.injEq, rewrite_eq_iff car Γ, rewrite_eq_iff cdr Γ]
  | .call op none args, Γ => by
      simp only [rewrite, AllReferences]
      split_ifs with h₁ h₂
      · simp only [Ast.call.injEq, true_and, rewriteQuasiquotes_eq_iff args Γ]
      · simp only [Ast.call.injEq, true_and, rewriteAll_eq_iff args Γ]
      · exact iff_of_true rfl trivial
  | .call op (some func) args, Γ => by
      simp only [rewrite, AllReferences]
      split_ifs with h₁ h₂
      · simp only [Ast.call.injEq, true_and, rewriteQuasiquotes_eq_iff args Γ]
      · simp only [Ast.call.injEq, true_and, Option.some.injEq, rewrite_eq_iff func Γ,
          rewriteAll_eq_iff args Γ]
      · exact iff_of_true rfl trivial
  | .sequence op expressions, Γ => by
      simp only [rewrite, AllReferences, Ast.sequence.injEq, true_and,
        rewriteAll_eq_iff expressions Γ]
  | .define name isFunction parameters rest value, Γ => by
      simp only [rewrite, AllReferences, Ast.define.injEq, true_and]
      split_ifs
      · exact rewrite_eq_iff value _
      · exact rewrite_eq_iff value _
  | .lambda parameters rest body, Γ => by
      simp only [rewrite, AllReferences, Ast.lambda.injEq, true_and, rewrite_eq_iff body _]
  | .letForm op name bindings body, Γ => by
      simp only [rewrite, AllReferences, Ast.letForm.injEq, true_and, rewrite_eq_iff body _,
        rewriteBindings_eq_iff bindings op _ _]
  | .letValues sequential bindings body, Γ => by
      simp only [rewrite, AllReferences, Ast.letValues.injEq, true_and, rewrite_eq_iff body _,
        rewriteProducers_eq_iff bindings sequential _ _]
  | .setForm name value, Γ => by
      simp only [rewrite, AllReferences, Ast.setForm.injEq, rewrite_eq_iff value Γ]
  | .matchForm expr clauses, Γ => by
      simp only [rewrite, AllReferences, Ast.matchForm.injEq, rewrite_eq_iff expr Γ,
        rewriteClauses_eq_iff clauses Γ]
  | .guardForm varName clauses body, Γ => by
      simp only [rewrite, AllReferences, Ast.guardForm.injEq, true_and,
        rewriteAll_eq_iff clauses _, rewriteAll_eq_iff body _]
  | .operands op args, Γ => by
      simp only [rewrite, AllReferences]
      split_ifs
      · exact iff_of_true rfl trivial
      · simp only [Ast.operands.injEq, true_and, rewriteAll_eq_iff args Γ]
  | .defineSyntax (.mk name literals rules), Γ => by
      simp only [rewrite, AllReferences, Ast.defineSyntax.injEq, MacroDef.mk.injEq, true_and,
        rewriteTemplates_eq_iff rules Γ]
  | .letSyntax definitions body, Γ => by
      simp only [rewrite, AllReferences, Ast.letSyntax.injEq, true_and, rewrite_eq_iff body Γ]

theorem rewriteAll_eq_iff : ∀ (as : List Ast) (Γ : Context),
    rewriteAll f as Γ = rewriteAll g as Γ ↔ AllReferencesIn (fun Γ x => f Γ x = g Γ x) as Γ
  | [], _ => by simp only [rewriteAll, AllReferencesIn]
  | a :: as, Γ => by
      simp only [rewriteAll, AllReferencesIn, List.cons.injEq, rewrite_eq_iff a Γ,
        rewriteAll_eq_iff as Γ]

theorem rewriteBindings_eq_iff : ∀ (bs : List LetBinding) (op : LetOp) (Γ : Context)
    (earlier : List String), rewriteBindings f bs op Γ earlier = rewriteBindings g bs op Γ earlier ↔
      AllInits (fun Γ x => f Γ x = g Γ x) bs op Γ earlier
  | [], _, _, _ => by simp only [rewriteBindings, AllInits]
  | .mk binder init :: bs, op, Γ, earlier => by
      simp only [rewriteBindings, AllInits, List.cons.injEq, LetBinding.mk.injEq, true_and,
        rewrite_eq_iff init _, rewriteBindings_eq_iff bs op Γ _]

theorem rewriteProducers_eq_iff : ∀ (bs : List ValuesBinding) (sequential : Bool) (Γ : Context)
    (earlier : List String),
    rewriteProducers f bs sequential Γ earlier = rewriteProducers g bs sequential Γ earlier ↔
      AllProducers (fun Γ x => f Γ x = g Γ x) bs sequential Γ earlier
  | [], _, _, _ => by simp only [rewriteProducers, AllProducers]
  | .mk vars producer :: bs, sequential, Γ, earlier => by
      simp only [rewriteProducers, AllProducers, List.cons.injEq, ValuesBinding.mk.injEq, true_and,
        rewrite_eq_iff producer _, rewriteProducers_eq_iff bs sequential Γ _]

theorem rewriteClauses_eq_iff : ∀ (cs : List MatchClause) (Γ : Context),
    rewriteClauses f cs Γ = rewriteClauses g cs Γ ↔ AllClauses (fun Γ x => f Γ x = g Γ x) cs Γ
  | [], _ => by simp only [rewriteClauses, AllClauses]
  | .mk pattern none body :: cs, Γ => by
      simp only [rewriteClauses, AllClauses, List.cons.injEq, MatchClause.mk.injEq, true_and,
        rewritePattern_eq_iff pattern Γ, rewrite_eq_iff body _, rewriteClauses_eq_iff cs Γ,
        and_assoc]
  | .mk pattern (some guard) body :: cs, Γ => by
      simp only [rewriteClauses, AllClauses, List.cons.injEq, MatchClause.mk.injEq,
        Option.some.injEq, rewritePattern_eq_iff pattern Γ, rewrite_eq_iff guard _,
        rewrite_eq_iff body _, rewriteClauses_eq_iff cs Γ, and_assoc]

theorem rewritePattern_eq_iff : ∀ (q : Pattern) (Γ : Context),
    rewritePattern f q Γ = rewritePattern g q Γ ↔ AllTests (fun Γ x => f Γ x = g Γ x) q Γ
  | .predicate test name, Γ => by
      simp only [rewritePattern, AllTests, Pattern.predicate.injEq, and_true, rewrite_eq_iff test _]
  | .cons car cdr, Γ => by
      simp only [rewritePattern, AllTests, Pattern.cons.injEq, rewritePattern_eq_iff car Γ,
        rewritePattern_eq_iff cdr Γ]
  | .list patterns, Γ => by
      simp only [rewritePattern, AllTests, Pattern.list.injEq, rewritePatterns_eq_iff patterns Γ]
  | .or patterns, Γ => by
      simp only [rewritePattern, AllTests, Pattern.or.injEq, rewritePatterns_eq_iff patterns Γ]
  | .literal value, _ => by simp only [rewritePattern, AllTests]
  | .variable name, _ => by simp only [rewritePattern, AllTests]
  | .wildcard, _ => by simp only [rewritePattern, AllTests]

theorem rewritePatterns_eq_iff : ∀ (qs : List Pattern) (Γ : Context),
    rewritePatterns f qs Γ = rewritePatterns g qs Γ ↔ AllTestsIn (fun Γ x => f Γ x = g Γ x) qs Γ
  | [], _ => by simp only [rewritePatterns, AllTestsIn]
  | q :: qs, Γ => by
      simp only [rewritePatterns, AllTestsIn, List.cons.injEq, rewritePattern_eq_iff q Γ,
        rewritePatterns_eq_iff qs Γ]

theorem rewriteQuasiquote_eq_iff : ∀ (a : Ast) (Γ : Context),
    rewriteQuasiquote f a Γ = rewriteQuasiquote g a Γ ↔ AllUnquotedIn (fun Γ x => f Γ x = g Γ x) a Γ
  | .cons car cdr, Γ => by
      simp only [rewriteQuasiquote, AllUnquotedIn, Ast.cons.injEq, rewriteQuasiquote_eq_iff car Γ,
        rewriteQuasiquote_eq_iff cdr Γ]
  | .call op none args, Γ => by
      simp only [rewriteQuasiquote, AllUnquotedIn]
      split_ifs
      · simp only [Ast.call.injEq, true_and, rewriteAll_eq_iff args Γ]
      · simp only [Ast.call.injEq, true_and, rewriteQuasiquotes_eq_iff args Γ]
      · exact iff_of_true rfl trivial
  | .call op (some func) args, Γ => by
      simp only [rewriteQuasiquote, AllUnquotedIn]
      split_ifs
      · simp only [Ast.call.injEq, true_and, rewriteAll_eq_iff args Γ]
      · simp only [Ast.call.injEq, true_and, Option.some.injEq, rewriteQuasiquote_eq_iff func Γ,
          rewriteQuasiquotes_eq_iff args Γ]
      · exact iff_of_true rfl trivial
  | .operands op args, Γ => by
      simp only [rewriteQuasiquote, AllUnquotedIn]
      split_ifs
      · simp only [Ast.operands.injEq, true_and, rewriteQuasiquotes_eq_iff args Γ]
      · exact iff_of_true rfl trivial
  | .literal _, _ | .var _, _ | .sequence _ _, _ | .define _ _ _ _ _, _ | .lambda _ _ _, _
  | .letForm _ _ _ _, _ | .letValues _ _ _, _ | .setForm _ _, _ | .matchForm _ _, _
  | .guardForm _ _ _, _ | .defineSyntax _, _ | .letSyntax _ _, _ => by
      simp only [rewriteQuasiquote, AllUnquotedIn]

theorem rewriteQuasiquotes_eq_iff : ∀ (as : List Ast) (Γ : Context),
    rewriteQuasiquotes f as Γ = rewriteQuasiquotes g as Γ ↔
      AllUnquoted (fun Γ x => f Γ x = g Γ x) as Γ
  | [], _ => by simp only [rewriteQuasiquotes, AllUnquoted]
  | a :: as, Γ => by
      simp only [rewriteQuasiquotes, AllUnquoted, List.cons.injEq, rewriteQuasiquote_eq_iff a Γ,
        rewriteQuasiquotes_eq_iff as Γ]

theorem rewriteTemplates_eq_iff : ∀ (rs : List MacroRule) (Γ : Context),
    rewriteTemplates f rs Γ = rewriteTemplates g rs Γ ↔ AllTemplates (fun Γ x => f Γ x = g Γ x) rs Γ
  | [], _ => by simp only [rewriteTemplates, AllTemplates]
  | .mk pattern (.literal ast) :: rs, Γ => by
      simp only [rewriteTemplates, AllTemplates, List.cons.injEq, MacroRule.mk.injEq, true_and,
        MacroTemplate.literal.injEq, rewrite_eq_iff ast Γ, rewriteTemplates_eq_iff rs Γ]
  | .mk pattern (.variable name) :: rs, Γ => by
      simp only [rewriteTemplates, AllTemplates, List.cons.injEq, true_and,
        rewriteTemplates_eq_iff rs Γ]
  | .mk pattern (.list elements) :: rs, Γ => by
      simp only [rewriteTemplates, AllTemplates, List.cons.injEq, true_and,
        rewriteTemplates_eq_iff rs Γ]

end

end Agree

/-! ### References that are left alone -/

/-- A property of contexts that holds under further binders. -/
def Inherited (c : Context → Prop) : Prop := ∀ Γ b, c Γ → c (b :: Γ)

namespace Inherited

variable {c : Context → Prop} {Γ : Context}

theorem inBody (hc : Inherited c) (h : c Γ) (body : Ast) : c (inBody Γ body) := hc _ _ h

theorem beforeInit (hc : Inherited c) (h : c Γ) (op : LetOp) (earlier : List String) :
    c (beforeInit Γ op earlier) :=
  hc _ _ h

theorem inInits (hc : Inherited c) (h : c Γ) (op : LetOp) (bs : List LetBinding) :
    c (inInits Γ op bs) := by
  rw [Frontend.inInits]
  split
  · exact hc _ _ h
  · exact h

theorem beforeProducer (hc : Inherited c) (h : c Γ) (sequential : Bool)
    (earlier : List String) : c (beforeProducer Γ sequential earlier) := by
  rw [Frontend.beforeProducer]
  split
  · exact hc _ _ h
  · exact h

end Inherited

section Fixed

variable {f : Context → String → String} {c : Context → Prop} (hc : Inherited c)
  (hf : ∀ Γ x, c Γ → f Γ x = x)

include hc hf

set_option linter.unusedSectionVars false

mutual

/-- A rule that keeps all references keeps the tree. -/
theorem rewrite_eq_self : ∀ (a : Ast) (Γ : Context), c Γ → rewrite f a Γ = a
  | .literal value, _, _ => by rw [rewrite]
  | .var id, Γ, h => by rw [rewrite, hf Γ id h]
  | .cons car cdr, Γ, h => by rw [rewrite, rewrite_eq_self car Γ h, rewrite_eq_self cdr Γ h]
  | .call op none args, Γ, h => by
      rw [rewrite, rewriteQuasiquotes_eq_self args Γ h, rewriteAll_eq_self args Γ h, ite_self,
        ite_self]
  | .call op (some func) args, Γ, h => by
      rw [rewrite, rewriteQuasiquotes_eq_self args Γ h, rewrite_eq_self func Γ h,
        rewriteAll_eq_self args Γ h, ite_self, ite_self]
  | .sequence op expressions, Γ, h => by rw [rewrite, rewriteAll_eq_self expressions Γ h]
  | .define name isFunction parameters rest value, Γ, h => by
      rw [rewrite, rewrite_eq_self value _ (hc.inBody (hc _ _ h) value), rewrite_eq_self value Γ h, ite_self]
  | .lambda parameters rest body, Γ, h => by
      rw [rewrite, rewrite_eq_self body _ (hc.inBody (hc _ _ h) body)]
  | .letForm op name bindings body, Γ, h => by
      rw [rewrite, rewriteBindings_eq_self bindings op _ _ (hc.inInits h op bindings),
        rewrite_eq_self body _ (hc.inBody (hc _ _ (hc _ _ h)) body)]
  | .letValues sequential bindings body, Γ, h => by
      rw [rewrite, rewriteProducers_eq_self bindings sequential Γ _ h,
        rewrite_eq_self body _ (hc.inBody (hc _ _ h) body)]
  | .setForm name value, Γ, h => by rw [rewrite, hf Γ name h, rewrite_eq_self value Γ h]
  | .matchForm expr clauses, Γ, h => by
      rw [rewrite, rewrite_eq_self expr Γ h, rewriteClauses_eq_self clauses Γ h]
  | .guardForm varName clauses body, Γ, h => by
      rw [rewrite, rewriteAll_eq_self clauses _ (hc _ _ h), rewriteAll_eq_self body _ (hc _ _ h)]
  | .operands op args, Γ, h => by rw [rewrite, rewriteAll_eq_self args Γ h, ite_self]
  | .defineSyntax (.mk name literals rules), Γ, h => by
      rw [rewrite, rewriteTemplates_eq_self rules Γ h]
  | .letSyntax definitions body, Γ, h => by rw [rewrite, rewrite_eq_self body Γ h]

theorem rewriteAll_eq_self : ∀ (as : List Ast) (Γ : Context), c Γ → rewriteAll f as Γ = as
  | [], _, _ => by rw [rewriteAll]
  | a :: as, Γ, h => by rw [rewriteAll, rewrite_eq_self a Γ h, rewriteAll_eq_self as Γ h]

theorem rewriteBindings_eq_self : ∀ (bs : List LetBinding) (op : LetOp) (Γ : Context)
    (earlier : List String), c Γ → rewriteBindings f bs op Γ earlier = bs
  | [], _, _, _, _ => by rw [rewriteBindings]
  | .mk binder init :: bs, op, Γ, earlier, h => by
      rw [rewriteBindings, rewrite_eq_self init _ (hc.beforeInit h op earlier), rewriteBindings_eq_self bs op Γ _ h]

theorem rewriteProducers_eq_self : ∀ (bs : List ValuesBinding) (sequential : Bool) (Γ : Context)
    (earlier : List String), c Γ → rewriteProducers f bs sequential Γ earlier = bs
  | [], _, _, _, _ => by rw [rewriteProducers]
  | .mk vars producer :: bs, sequential, Γ, earlier, h => by
      rw [rewriteProducers, rewrite_eq_self producer _ (hc.beforeProducer h sequential earlier),
        rewriteProducers_eq_self bs sequential Γ _ h]

theorem rewriteClauses_eq_self : ∀ (cs : List MatchClause) (Γ : Context), c Γ →
    rewriteClauses f cs Γ = cs
  | [], _, _ => by rw [rewriteClauses]
  | .mk pattern none body :: cs, Γ, h => by
      rw [rewriteClauses, rewritePattern_eq_self pattern Γ (hc _ _ h),
        rewrite_eq_self body _ (hc.inBody (hc _ _ h) body), rewriteClauses_eq_self cs Γ h]
  | .mk pattern (some guard) body :: cs, Γ, h => by
      rw [rewriteClauses, rewritePattern_eq_self pattern Γ (hc _ _ h), rewrite_eq_self guard _ (hc _ _ h),
        rewrite_eq_self body _ (hc.inBody (hc _ _ h) body), rewriteClauses_eq_self cs Γ h]

theorem rewritePattern_eq_self : ∀ (q : Pattern) (Γ : Context), c (⟨.test, []⟩ :: Γ) →
    rewritePattern f q Γ = q
  | .predicate test name, Γ, h => by rw [rewritePattern, rewrite_eq_self test _ h]
  | .cons car cdr, Γ, h => by
      rw [rewritePattern, rewritePattern_eq_self car Γ h, rewritePattern_eq_self cdr Γ h]
  | .list patterns, Γ, h => by rw [rewritePattern, rewritePatterns_eq_self patterns Γ h]
  | .or patterns, Γ, h => by rw [rewritePattern, rewritePatterns_eq_self patterns Γ h]
  | .literal value, _, _ => by rw [rewritePattern]
  | .variable name, _, _ => by rw [rewritePattern]
  | .wildcard, _, _ => by rw [rewritePattern]

theorem rewritePatterns_eq_self : ∀ (qs : List Pattern) (Γ : Context), c (⟨.test, []⟩ :: Γ) →
    rewritePatterns f qs Γ = qs
  | [], _, _ => by rw [rewritePatterns]
  | q :: qs, Γ, h => by
      rw [rewritePatterns, rewritePattern_eq_self q Γ h, rewritePatterns_eq_self qs Γ h]

theorem rewriteQuasiquote_eq_self : ∀ (a : Ast) (Γ : Context), c Γ → rewriteQuasiquote f a Γ = a
  | .cons car cdr, Γ, h => by
      rw [rewriteQuasiquote, rewriteQuasiquote_eq_self car Γ h, rewriteQuasiquote_eq_self cdr Γ h]
  | .call op none args, Γ, h => by
      rw [rewriteQuasiquote, rewriteQuasiquotes_eq_self args Γ h, rewriteAll_eq_self args Γ h,
        ite_self, ite_self]
  | .call op (some func) args, Γ, h => by
      rw [rewriteQuasiquote, rewriteQuasiquotes_eq_self args Γ h, rewriteAll_eq_self args Γ h,
        rewriteQuasiquote_eq_self func Γ h, ite_self, ite_self]
  | .operands op args, Γ, h => by
      rw [rewriteQuasiquote, rewriteQuasiquotes_eq_self args Γ h, ite_self]
  | .literal _, _, _ | .var _, _, _ | .sequence _ _, _, _ | .define _ _ _ _ _, _, _
  | .lambda _ _ _, _, _ | .letForm _ _ _ _, _, _ | .letValues _ _ _, _, _ | .setForm _ _, _, _
  | .matchForm _ _, _, _ | .guardForm _ _ _, _, _ | .defineSyntax _, _, _ | .letSyntax _ _, _, _ => by
      simp only [rewriteQuasiquote]

theorem rewriteQuasiquotes_eq_self : ∀ (as : List Ast) (Γ : Context), c Γ →
    rewriteQuasiquotes f as Γ = as
  | [], _, _ => by rw [rewriteQuasiquotes]
  | a :: as, Γ, h => by
      rw [rewriteQuasiquotes, rewriteQuasiquote_eq_self a Γ h, rewriteQuasiquotes_eq_self as Γ h]

theorem rewriteTemplates_eq_self : ∀ (rs : List MacroRule) (Γ : Context), c Γ →
    rewriteTemplates f rs Γ = rs
  | [], _, _ => by rw [rewriteTemplates]
  | .mk pattern (.literal ast) :: rs, Γ, h => by
      rw [rewriteTemplates, rewrite_eq_self ast Γ h, rewriteTemplates_eq_self rs Γ h]
  | .mk pattern (.variable name) :: rs, Γ, h => by
      simp only [rewriteTemplates, rewriteTemplates_eq_self rs Γ h]
  | .mk pattern (.list elements) :: rs, Γ, h => by
      simp only [rewriteTemplates, rewriteTemplates_eq_self rs Γ h]

end

end Fixed

end Eshkol.Frontend
