import Mathlib.Data.List.Basic

/-!
# Abstract Syntax Trees

The trees that the native frontend works on (`eshkol_ast_t`, `inc/eshkol/eshkol.h`), with the
patterns of `match` and the macros of `syntax-rules` in them. Of a node only the fields that the
macro expander and the module renamer read or write are modelled: source positions, types and
linkage are not. A pointer that the parser always sets is not optional here.

Operations that store their operands in the layout of a call are one constructor, and so are
those that both passes treat as a plain list of operands.
-/

namespace Eshkol.Frontend

/-! ### Operations -/

/-- Nodes without parts and names. -/
inductive Literal : Type
  | null
  | int64 (value : Int64)
  | double (bits : UInt64)
  | bool (b : Bool)
  | char (c : UInt32)
  | string (bytes : List UInt8)
  deriving DecidableEq

/-- Operations in the layout of `call_op`. The operations of the logic and workspace engine are one
here. -/
inductive CallOp : Type
  | call
  | cond
  | ifThenElse
  | case
  | doLoop
  | when
  | unless
  | makeParameter
  | engine
  | quote
  | quasiquote
  | unquote
  | unquoteSplicing
  deriving DecidableEq

/-- Operations in the layout of `sequence_op`. -/
inductive SequenceOp : Type
  | sequence
  | and
  | or
  deriving DecidableEq

/-- Operations in the layout of `let_op`. -/
inductive LetOp : Type
  | plain
  | star
  | letrec
  | letrecStar
  deriving DecidableEq

/-- Operations that hold operands and bind nothing. The derivative operators are one here; `other`
are the operations whose parts neither pass looks at. -/
inductive OperandOp : Type
  | raise
  | values
  | callCc
  | dynamicWind
  | the
  | callWithValues
  | withRegion
  | borrow
  | tensor
  | external
  | derivative
  | ownership
  | other
  deriving DecidableEq

/-- `eshkol_macro_pattern_t`, each with `followed_by_ellipsis`. The parser builds no pattern of the
kinds `MACRO_PAT_ELLIPSIS` and `MACRO_PAT_IMPROPER`. -/
inductive MacroPattern : Type
  | literal (identifier : String) (ellipsis : Bool)
  | variable (identifier : String) (ellipsis : Bool)
  | list (elements : List MacroPattern) (ellipsis : Bool)

/-! ### Trees -/

mutual

/-- `eshkol_ast_t`. -/
inductive Ast : Type
  | literal (value : Literal)
  | var (id : String)
  | cons (car cdr : Ast)
  | call (op : CallOp) (func : Option Ast) (args : List Ast)
  | sequence (op : SequenceOp) (expressions : List Ast)
  | define (name : String) (isFunction : Bool) (parameters : List Ast) (rest : Option String)
      (value : Ast)
  | lambda (parameters : List Ast) (rest : Option String) (body : Ast)
  | letForm (op : LetOp) (name : Option String) (bindings : List LetBinding) (body : Ast)
  | letValues (sequential : Bool) (bindings : List ValuesBinding) (body : Ast)
  | setForm (name : String) (value : Ast)
  | matchForm (expr : Ast) (clauses : List MatchClause)
  | guardForm (varName : Option String) (clauses body : List Ast)
  | operands (op : OperandOp) (args : List Ast)
  | defineSyntax (definition : MacroDef)
  | letSyntax (definitions : List MacroDef) (body : Ast)

/-- A binding of `let`: the code has a cons cell of the variable and the value. -/
inductive LetBinding : Type
  | mk (binder init : Ast)

/-- A binding of `let-values`. -/
inductive ValuesBinding : Type
  | mk (vars : List String) (producer : Ast)

/-- `eshkol_match_clause_t`. -/
inductive MatchClause : Type
  | mk (pattern : Pattern) (guard : Option Ast) (body : Ast)

/-- `eshkol_pattern_t`. -/
inductive Pattern : Type
  | literal (value : Ast)
  | variable (name : String)
  | wildcard
  | cons (car cdr : Pattern)
  | list (patterns : List Pattern)
  | predicate (test : Ast) (name : Option String)
  | or (patterns : List Pattern)

/-- `eshkol_macro_def_t`. -/
inductive MacroDef : Type
  | mk (name : String) (literals : List String) (rules : List MacroRule)

/-- `eshkol_macro_rule_t`. -/
inductive MacroRule : Type
  | mk (pattern : MacroPattern) (template : MacroTemplate)

/-- `eshkol_macro_template_t`. -/
inductive MacroTemplate : Type
  | literal (ast : Ast)
  | variable (name : String)
  | list (elements : List MacroTemplate)

end

end Eshkol.Frontend
