import Eshkol.Frontend.MacroMatch
import Eshkol.Machine.Exec

/-!
# Instantiation of Macro Templates

What the native expander makes of the template of a rule (`MacroExpander::instantiateTemplate` and
`substituteBindings`, `lib/frontend/macro_expander.cpp`). Pattern variables are replaced by what
they matched, elements followed by ellipses are repeated, and the names that the template binds
get fresh ones, where the binding forms make them visible.

A variable that matched under an ellipsis stands for its first repetition where no ellipsis
follows it; the code takes the front of an empty list when there is none further down.

The code writes the bodies of `match` clauses in place, so that a template with one is changed by
its first use. Trees are values here, and every use finds the template as it was defined.
-/

namespace Eshkol.Frontend

open Machine

/-! ### State -/

/-- `rename_counter_`, `active_renames_` and the errors that were reported. -/
structure Substitution where
  counter : ℕ
  renames : List (String × String)
  errors : List String

/-- Computations of the substitution. -/
abbrev SubstM : Type → Type := StateT Substitution (Exec Empty)

/-- `eshkol_error`. -/
def reportError (message : String) : SubstM Unit :=
  modify fun s => { s with errors := s.errors ++ [message] }

def freshName (name : String) : SubstM String := do
  let s ← get
  let fresh := "_h" ++ toString s.counter ++ "." ++ name
  set { s with counter := s.counter + 1, renames := (name, fresh) :: s.renames }
  return fresh

def isRenameableBinder (name : String) (bindings : Bindings) : Bool :=
  name ≠ "" && name ≠ "_" && (bindings.lookup name).isNone

/-- A binder of a template gets a fresh name. -/
def renameBinder (bindings : Bindings) (binder : Ast) : SubstM Unit :=
  match binder with
  | .var id => if isRenameableBinder id bindings then discard (freshName id) else pure ()
  | _ => pure ()

/-- The binder of a binding of `let`. -/
def renameBinding (bindings : Bindings) : LetBinding → SubstM Unit
  | .mk binder _ => renameBinder bindings binder

/-- An optional name that a form binds. -/
def renameName (bindings : Bindings) : Option String → SubstM (Option String)
  | some name =>
    if isRenameableBinder name bindings then do return some (← freshName name)
    else return some name
  | none => return none

/-! ### What variables matched -/

def matchTreeHasValue : MatchTree → Bool
  | .mk depth _ elements => depth = 0 || !elements.isEmpty

def matchTreeFirstScalar : MatchTree → Exec Empty Ast
  | .mk 0 scalar _ => .ok scalar
  | .mk (_ + 1) _ (first :: _) => matchTreeFirstScalar first
  | .mk (_ + 1) _ [] => .error .undefined

/-- `peelBindingsAtIndex` for one tree. -/
def peelTree (index : ℕ) : MatchTree → MatchTree
  | .mk 0 scalar elements => .mk 0 scalar elements
  | .mk (depth + 1) _ elements =>
    match elements[min index (elements.length - 1)]? with
    | some tree => tree
    | none => .mk depth (.literal .null) []

def peelBindingsAtIndex (bindings : Bindings) (index : ℕ) : Bindings :=
  bindings.map fun b => (b.1, peelTree index b.2)

def isEllipsisSymbol (ast : Ast) : Bool := isSymbol ast "..."

/-- Operations in the layout of a call whose parts a template is searched and substituted in. -/
def CallOp.isTemplated : CallOp → Bool
  | .call | .cond | .case | .doLoop | .when | .unless => true
  | .quote | .quasiquote | .unquote | .unquoteSplicing => true
  | .ifThenElse | .makeParameter | .engine => false

/-- Operations with operands whose parts a template is searched and substituted in. -/
def OperandOp.isTemplated : OperandOp → Bool
  | .raise | .values | .callCc | .dynamicWind => true
  | _ => false

mutual

def findEllipsisDriver (bindings : Bindings) : Ast → Option String
  | .var id =>
    match bindings.lookup id with
    | some (.mk (_ + 1) _ _) => some id
    | _ => none
  | .cons car cdr => (findEllipsisDriver bindings car).or (findEllipsisDriver bindings cdr)
  | .call op none args => if op.isTemplated then findDriverIn bindings args else none
  | .call op (some func) args =>
    if op.isTemplated then (findEllipsisDriver bindings func).or (findDriverIn bindings args)
    else none
  | .sequence _ expressions => findDriverIn bindings expressions
  | .define _ _ _ _ value => findEllipsisDriver bindings value
  | .lambda _ _ body => findEllipsisDriver bindings body
  | .letForm _ _ lets body =>
    (findDriverInLets bindings lets).or (findEllipsisDriver bindings body)
  | .setForm _ value => findEllipsisDriver bindings value
  | .matchForm expr clauses =>
    (findEllipsisDriver bindings expr).or (findDriverInClauses bindings clauses)
  | .guardForm _ clauses body => (findDriverIn bindings clauses).or (findDriverIn bindings body)
  | .operands op args => if op.isTemplated then findDriverIn bindings args else none
  | .literal _ | .letValues _ _ _ | .defineSyntax _ | .letSyntax _ _ => none

/-- The first driver in several forms. -/
def findDriverIn (bindings : Bindings) : List Ast → Option String
  | [] => none
  | a :: as => (findEllipsisDriver bindings a).or (findDriverIn bindings as)

/-- The first driver in the bindings of a `let`. -/
def findDriverInLets (bindings : Bindings) : List LetBinding → Option String
  | [] => none
  | .mk binder init :: lets =>
    ((findEllipsisDriver bindings binder).or (findEllipsisDriver bindings init)).or
      (findDriverInLets bindings lets)

/-- The first driver in the bodies of clauses. -/
def findDriverInClauses (bindings : Bindings) : List MatchClause → Option String
  | [] => none
  | .mk _ _ body :: cs => (findEllipsisDriver bindings body).or (findDriverInClauses bindings cs)

end

/-! ### Substitution -/

/-- The number of repetitions that a driver matched. -/
def repetitions (bindings : Bindings) (driver : String) : ℕ :=
  match bindings.lookup driver with
  | some (.mk _ _ elements) => elements.length
  | none => 0

/-- `expandEllipsisElementN`, with the ellipses after the first; `substitute` is the substitution
in the element. -/
def expandEllipsisElementN (substitute : Bindings → SubstM Ast) (ast : Ast) :
    ℕ → Bindings → SubstM (List Ast)
  | more, bindings =>
    match findEllipsisDriver bindings ast with
    | none => do
        reportError "misplaced ellipsis in macro template"
        return [← substitute bindings]
    | some driver =>
      let peeled := (List.range (repetitions bindings driver)).map
        (peelBindingsAtIndex bindings)
      match more with
      | 0 => peeled.mapM substitute
      | more + 1 => do
          let parts ← peeled.mapM (expandEllipsisElementN substitute ast more)
          return parts.flatten

/-- The datum flag inside an operation. -/
def CallOp.datum (op : CallOp) (datum : Bool) : Bool :=
  match op with
  | .quote | .quasiquote => true
  | .unquote | .unquoteSplicing => false
  | _ => datum

/-- The target of a `set!`: an identifier that a variable matched, or a fresh name. -/
def substituteTarget (bindings : Bindings) (name : String) : SubstM String :=
  match bindings.lookup name with
  | some tree =>
    if matchTreeHasValue tree then do
      match ← matchTreeFirstScalar tree with
      | .var id => return id
      | _ => return name
    else do return ((← get).renames.lookup name).getD name
  | none => do return ((← get).renames.lookup name).getD name

mutual

def substituteBindings : Ast → Bool → Bindings → SubstM Ast
  | .literal value, _, _ => return .literal value
  | .var id, datum, bindings => do
      match bindings.lookup id with
      | some tree => if matchTreeHasValue tree then return (← matchTreeFirstScalar tree)
      | none => pure ()
      let s ← get
      if datum then return .var id else return .var ((s.renames.lookup id).getD id)
  | .cons car cdr, datum, bindings => do
      return .cons (← substituteBindings car datum bindings)
        (← substituteBindings cdr datum bindings)
  | .call op none args, datum, bindings =>
    if op.isTemplated then do
      return .call op none (← substituteBindingsInList args 0 (op.datum datum) bindings)
    else return .call op none args
  | .call op (some func) args, datum, bindings =>
    if op.isTemplated then do
      let func ← substituteBindings func (op.datum datum) bindings
      return .call op (some func) (← substituteBindingsInList args 0 (op.datum datum) bindings)
    else return .call op (some func) args
  | .sequence op expressions, datum, bindings => do
      return .sequence op (← substituteBindingsInList expressions 0 datum bindings)
  | .define name isFunction parameters rest value, datum, bindings => do
      return .define name isFunction parameters rest (← substituteBindings value datum bindings)
  | .lambda parameters rest body, datum, bindings => do
      let saved := (← get).renames
      let parameters ← substituteParameters parameters datum bindings
      let rest ← renameName bindings rest
      let body ← substituteBindings body datum bindings
      modify fun s => { s with renames := saved }
      return .lambda parameters rest body
  | .letForm op name lets body, datum, bindings => do
      let saved := (← get).renames
      if op = .letrec ∨ op = .letrecStar then lets.forM (renameBinding bindings)
      -- the name of a named let is fresh before the inits are substituted
      let name ← renameName bindings name
      let inits ← substituteInits lets (op = .star) datum bindings
      if op = .plain then lets.forM (renameBinding bindings)
      let lets ← substituteBinders lets inits datum bindings
      let body ← substituteBindings body datum bindings
      modify fun s => { s with renames := saved }
      return .letForm op name lets body
  | .letValues sequential valuesBindings body, _, _ =>
    return .letValues sequential valuesBindings body
  | .setForm name value, datum, bindings => do
      let name ← substituteTarget bindings name
      return .setForm name (← substituteBindings value datum bindings)
  | .matchForm expr clauses, datum, bindings => do
      let expr ← substituteBindings expr datum bindings
      return .matchForm expr (← substituteClauses clauses datum bindings)
  | .guardForm varName clauses body, datum, bindings => do
      let clauses ← substituteEach clauses datum bindings
      return .guardForm varName clauses (← substituteBindingsInList body 0 datum bindings)
  | .operands op args, datum, bindings =>
    if op = .values then do
      return .operands op (← substituteBindingsInList args 0 datum bindings)
    else if op.isTemplated then do return .operands op (← substituteEach args datum bindings)
    else return .operands op args
  | .defineSyntax definition, _, _ => return .defineSyntax definition
  | .letSyntax definitions body, _, _ => return .letSyntax definitions body

/-- `substituteBindingsInList`, after the ellipses that the last element took. -/
def substituteBindingsInList : List Ast → ℕ → Bool → Bindings → SubstM (List Ast)
  | [], _, _, _ => return []
  | _ :: items, skip + 1, datum, bindings => substituteBindingsInList items skip datum bindings
  | item :: items, 0, datum, bindings =>
    match (items.takeWhile isEllipsisSymbol).length with
    | more + 1 => do
        let expanded ←
          expandEllipsisElementN (fun b => substituteBindings item datum b) item more bindings
        return expanded ++ (← substituteBindingsInList items (more + 1) datum bindings)
    | 0 =>
      if isEllipsisSymbol item then do
        reportError "misplaced ellipsis in macro template"
        substituteBindingsInList items 0 datum bindings
      else do
        let item ← substituteBindings item datum bindings
        return item :: (← substituteBindingsInList items 0 datum bindings)

/-- Forms without ellipses. -/
def substituteEach : List Ast → Bool → Bindings → SubstM (List Ast)
  | [], _, _ => return []
  | item :: items, datum, bindings => do
      let item ← substituteBindings item datum bindings
      return item :: (← substituteEach items datum bindings)

/-- The parameters of a `lambda`. -/
def substituteParameters : List Ast → Bool → Bindings → SubstM (List Ast)
  | [], _, _ => return []
  | p :: ps, datum, bindings => do
      renameBinder bindings p
      let p ← substituteBindings p datum bindings
      return p :: (← substituteParameters ps datum bindings)

/-- The inits of `let` bindings; in a `let*` each binder is renamed after its init. -/
def substituteInits : List LetBinding → Bool → Bool → Bindings → SubstM (List Ast)
  | [], _, _, _ => return []
  | .mk binder init :: lets, sequential, datum, bindings => do
      let init ← substituteBindings init datum bindings
      if sequential then renameBinder bindings binder
      return init :: (← substituteInits lets sequential datum bindings)

/-- The bindings of a `let`, with their inits. -/
def substituteBinders : List LetBinding → List Ast → Bool → Bindings → SubstM (List LetBinding)
  | .mk binder _ :: lets, init :: inits, datum, bindings => do
      let binder ← substituteBindings binder datum bindings
      return .mk binder init :: (← substituteBinders lets inits datum bindings)
  | _, _, _, _ => return []

/-- The bodies of `match` clauses. -/
def substituteClauses : List MatchClause → Bool → Bindings → SubstM (List MatchClause)
  | [], _, _ => return []
  | .mk pattern guard body :: clauses, datum, bindings => do
      let body ← substituteBindings body datum bindings
      return .mk pattern guard body :: (← substituteClauses clauses datum bindings)

end

mutual

def instantiateTemplate : MacroTemplate → Bindings → SubstM Ast
  | .literal ast, bindings => do
      modify fun s => { s with renames := [] }
      substituteBindings ast false bindings
  | .variable name, bindings => do
      modify fun s => { s with renames := [] }
      match bindings.lookup name with
      | some tree =>
        if matchTreeHasValue tree then matchTreeFirstScalar tree else return .var name
      | none => return .var name
  | .list elements, bindings => do
      modify fun s => { s with renames := [] }
      match ← instantiateElements elements bindings with
      | [] => return .literal .null
      | func :: args => return .call .call (some func) args

/-- The elements of a list template. -/
def instantiateElements : List MacroTemplate → Bindings → SubstM (List Ast)
  | [], _ => return []
  | t :: ts, bindings => do
      let element ← instantiateTemplate t bindings
      return element :: (← instantiateElements ts bindings)

end

end Eshkol.Frontend
