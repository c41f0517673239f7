import Eshkol.Frontend.Ast

/-!
# Module Privacy

The renaming of the names that a module does not export (`lib/core/module_visibility.cpp`). The
top-level definitions of a module that are not exported get names with the name of the module in
front, and so do the references to them. The traversal carries two environments: the names that
are renamed and the names that are bound around the form.
-/

namespace Eshkol.Frontend

abbrev RenameMap : Type := List (String × String)

abbrev BoundNames : Type := List String

def privateName (moduleName name : String) : String :=
  "__" ++ moduleName.map (fun c => if c = '.' then '_' else c) ++ "__" ++ name

theorem privateName_ne (moduleName name : String) : privateName moduleName name ≠ name := by
  intro h
  have := congrArg String.length h
  simp [privateName] at this

def eraseBound (names : RenameMap) (bound : BoundNames) : RenameMap := names.filter (·.1 ∉ bound)

def astName : Ast → Option String
  | .var id => if id = "" then none else some id
  | _ => none

/-- The names of the parameters of a function. -/
def parameterNames (parameters : List Ast) (rest : Option String) : List String :=
  parameters.filterMap astName ++ rest.toList

/-- The name of a binding of `let`. -/
def bindingName : LetBinding → Option String
  | .mk binder _ => astName binder

/-- The names of a binding of `let-values`. -/
def ValuesBinding.vars : ValuesBinding → List String
  | .mk vars _ => vars

/-- A reference or a target of `set!`. -/
def renameReference (names : RenameMap) (bound : BoundNames) (name : String) : String :=
  if name ∈ bound then name else (names.lookup name).getD name

/-- Operations in the layout of a call whose operands are renamed. -/
def CallOp.isRenamed : CallOp → Bool
  | .call | .cond | .ifThenElse | .case | .doLoop | .when | .unless => true
  | .makeParameter | .engine => true
  | .quote | .quasiquote | .unquote | .unquoteSplicing => false

/-- Operations in the layout of a call that are searched for unquotations. -/
def CallOp.isQuasi : CallOp → Bool
  | .call | .cond | .ifThenElse => true
  | _ => false

mutual

def renameAst : Ast → RenameMap → BoundNames → Ast
  | .literal value, _, _ => .literal value
  | .var id, names, bound => .var (renameReference names bound id)
  | .cons car cdr, names, bound => .cons (renameAst car names bound) (renameAst cdr names bound)
  | .call op none args, names, bound =>
    if op = .quasiquote then .call op none (renameQuasiquotes args names bound)
    else if op.isRenamed then .call op none (renameAsts args names bound)
    else .call op none args
  | .call op (some func) args, names, bound =>
    if op = .quasiquote then .call op (some func) (renameQuasiquotes args names bound)
    else if op.isRenamed then
      .call op (some (renameAst func names bound)) (renameAsts args names bound)
    else .call op (some func) args
  | .sequence op expressions, names, bound => .sequence op (renameAsts expressions names bound)
  | .define name isFunction parameters rest value, names, bound =>
    if isFunction then
      let functionBound := parameterNames parameters rest ++ bound
      .define name isFunction parameters rest
        (renameAst value (eraseBound names functionBound) functionBound)
    else .define name isFunction parameters rest (renameAst value names bound)
  | .lambda parameters rest body, names, bound =>
    let lambdaBound := parameterNames parameters rest ++ bound
    .lambda parameters rest (renameAst body (eraseBound names lambdaBound) lambdaBound)
  | .letForm op name bindings body, names, bound =>
    let letBound := bindings.filterMap bindingName ++ bound
    .letForm op name
      (if op = .letrec ∨ op = .letrecStar then
        renameBindings bindings op names (eraseBound names letBound) letBound
      else renameBindings bindings op names names bound)
      (renameAst body (eraseBound names letBound) letBound)
  | .letValues sequential bindings body, names, bound =>
    let valuesBound := bindings.flatMap ValuesBinding.vars ++ bound
    .letValues sequential (renameProducers bindings sequential bound names bound)
      (renameAst body (eraseBound names valuesBound) valuesBound)
  | .setForm name value, names, bound =>
    .setForm (renameReference names bound name) (renameAst value names bound)
  | .matchForm expr clauses, names, bound =>
    .matchForm (renameAst expr names bound) (renameClauses clauses names bound)
  | .guardForm varName clauses body, names, bound =>
    let clauseBound := varName.toList ++ bound
    .guardForm varName (renameAsts clauses (eraseBound names clauseBound) clauseBound)
      (renameAsts body names bound)
  | .operands op args, names, bound =>
    if op = .other then .operands op args else .operands op (renameAsts args names bound)
  | .defineSyntax (.mk name literals rules), names, bound =>
    .defineSyntax (.mk name literals (renameMacroTemplates rules names bound))
  | .letSyntax definitions body, names, bound =>
    .letSyntax definitions (renameAst body names bound)

/-- `rename_ast` on each form of an array. -/
def renameAsts : List Ast → RenameMap → BoundNames → List Ast
  | [], _, _ => []
  | a :: as, names, bound => renameAst a names bound :: renameAsts as names bound

/-- The bindings in `rename_let`, with `value_names` and `let_bound`. -/
def renameBindings : List LetBinding → LetOp → RenameMap → RenameMap → BoundNames → List LetBinding
  | [], _, _, _, _ => []
  | .mk binder init :: bindings, op, names, valueNames, letBound =>
    .mk binder (renameAst init valueNames letBound) ::
      match astName binder with
      | none => renameBindings bindings op names valueNames letBound
      | some name =>
        if op = .plain ∨ op = .star then
          renameBindings bindings op names (eraseBound names (name :: letBound))
            (name :: letBound)
        else renameBindings bindings op names valueNames (name :: letBound)

/-- The producers in `rename_let_values`, with `producer_names` and `values_bound`. -/
def renameProducers : List ValuesBinding → Bool → BoundNames → RenameMap → BoundNames →
    List ValuesBinding
  | [], _, _, _, _ => []
  | .mk vars producer :: bindings, sequential, bound, producerNames, valuesBound =>
    .mk vars (renameAst producer producerNames (if sequential then valuesBound else bound)) ::
      renameProducers bindings sequential bound
        (if sequential then eraseBound producerNames (vars ++ valuesBound) else producerNames)
        (vars ++ valuesBound)

/-- The clauses of `match`. -/
def renameClauses : List MatchClause → RenameMap → BoundNames → List MatchClause
  | [], _, _ => []
  | .mk pattern none body :: clauses, names, bound =>
    .mk pattern none (renameAst body names bound) :: renameClauses clauses names bound
  | .mk pattern (some guard) body :: clauses, names, bound =>
    .mk pattern (some (renameAst guard names bound)) (renameAst body names bound) ::
      renameClauses clauses names bound

def renameQuasiquote : Ast → RenameMap → BoundNames → Ast
  | .cons car cdr, names, bound =>
    .cons (renameQuasiquote car names bound) (renameQuasiquote cdr names bound)
  | .call op none args, names, bound =>
    if op = .unquote ∨ op = .unquoteSplicing then .call op none (renameAsts args names bound)
    else if op.isQuasi then .call op none (renameQuasiquotes args names bound)
    else .call op none args
  | .call op (some func) args, names, bound =>
    if op = .unquote ∨ op = .unquoteSplicing then
      .call op (some func) (renameAsts args names bound)
    else if op.isQuasi then
      .call op (some (renameQuasiquote func names bound)) (renameQuasiquotes args names bound)
    else .call op (some func) args
  | .operands op args, names, bound =>
    if op = .tensor then .operands op (renameQuasiquotes args names bound)
    else .operands op args
  | a, _, _ => a

/-- `rename_quasiquote` on each form of an array. -/
def renameQuasiquotes : List Ast → RenameMap → BoundNames → List Ast
  | [], _, _ => []
  | a :: as, names, bound => renameQuasiquote a names bound :: renameQuasiquotes as names bound

def renameMacroTemplates : List MacroRule → RenameMap → BoundNames → List MacroRule
  | [], _, _ => []
  | .mk pattern (.literal ast) :: rules, names, bound =>
    .mk pattern (.literal (renameAst ast names bound)) :: renameMacroTemplates rules names bound
  | rule :: rules, names, bound => rule :: renameMacroTemplates rules names bound

end

/-- The names that a module renames. -/
def privateNames (asts : List Ast) (moduleName : String) (exports : List String) : RenameMap :=
  asts.filterMap fun
    | .define name _ _ _ _ =>
      if name ∈ exports then none else some (name, privateName moduleName name)
    | _ => none

/-- The name of a definition at the top level. -/
def renameDefinition (names : RenameMap) : Ast → Ast
  | .define name isFunction parameters rest value =>
    .define ((names.lookup name).getD name) isFunction parameters rest value
  | a => a

def renamePrivateSymbols (asts : List Ast) (moduleName : String) (exports : List String) :
    List Ast :=
  let names := privateNames asts moduleName exports
  if names.isEmpty then asts
  else asts.map fun a => renameAst (renameDefinition names a) names []

end Eshkol.Frontend
