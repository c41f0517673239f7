import Eshkol.Vm.Syntax

/-!
# Macro Matching and Instantiation

The patterns and templates of `syntax-rules` (`lib/backend/vm_macro.c`): `vm_macro_match` and
`vm_macro_instantiate`. A match records its variables in a table of at most 64 entries, under
the first 63 bytes of their names.

Allocation is assumed to succeed.
-/

namespace Eshkol.Vm

/-! ### The binding table -/

/-- What a pattern variable is bound to: a form, or the forms of an ellipsis. -/
inductive Bound : Type
  | one (value : Node)
  | many (items : List Node)

structure MacroBinding where
  name : Name
  bound : Bound

abbrev MacroBindings : Type := List MacroBinding

/-- A name as the table keeps it, cut to 63 bytes. -/
def cutName (name : Name) : Name := name.take 63

/-- `macro_bindings_add` and `macro_bindings_add_ellipsis`. -/
def macroBindingsAdd (bindings : MacroBindings) (name : Name) (bound : Bound) :
    Option MacroBindings :=
  if bindings.length < 64 then some (bindings ++ [⟨cutName name, bound⟩]) else none

def macroBindingsLookup (bindings : MacroBindings) (name : Name) : Option Bound :=
  (bindings.find? fun b => b.name = name).map MacroBinding.bound

/-! ### Matching -/

def isLiteral (name : Name) (literals : List Name) : Bool := literals.contains name

def isEllipsis (n : Node) : Bool := isSym n (ascii "...")

def isUnderscore (name : Name) : Bool := name = ascii "_"

/-- The name of a pattern variable. -/
def patternVariable (literals : List Name) (p : Node) : Option Name :=
  match p with
  | .symbol name _ => if isUnderscore name || isLiteral name literals then none else some name
  | _ => none

/-- Whether a node is a list. -/
def Node.isList : Node → Bool
  | .list _ _ => true
  | _ => false

section Match

variable (literals : List Name)

mutual

/-- `vm_macro_match`: the table after a match, if the pattern matches. -/
def vmMacroMatch : Node → Node → MacroBindings → Option MacroBindings
  | .symbol name _, input, bindings =>
    if isUnderscore name then some bindings
    else if isLiteral name literals then
      if isSym input name then some bindings else none
    else macroBindingsAdd bindings name (.one input)
  | .number n, input, bindings =>
    match input with
    | .number m => if numvalEqual n m then some bindings else none
    | _ => none
  | .string s, input, bindings =>
    match input with
    | .string t => if s = t then some bindings else none
    | _ => none
  | .bool b, input, bindings =>
    match input with
    | .bool c => if b = c then some bindings else none
    | _ => none
  | .list _ ps, input, bindings =>
    match input with
    | .list _ xs =>
      match ps.findIdx? isEllipsis with
      | none => if ps.length ≠ xs.length then none else matchFrom ps 0 ps.length xs bindings
      | some 0 => none
      | some (prefixLen + 1) =>
        let suffixLen := ps.length - (prefixLen + 1) - 1
        if xs.length < prefixLen + suffixLen then none
        else do
          let bindings ← matchFrom ps 0 prefixLen xs bindings
          let bindings ← matchFrom ps (prefixLen + 2) suffixLen
            (xs.drop (xs.length - suffixLen)) bindings
          matchRepeat ps prefixLen
            ((xs.drop prefixLen).take (xs.length - (prefixLen + suffixLen))) bindings
    | _ => none

/-- The loops over the elements before and after an ellipsis: `count` patterns, from the pattern
at `start` on, against the inputs from the first one on. -/
def matchFrom : List Node → ℕ → ℕ → List Node → MacroBindings → Option MacroBindings
  | _ :: ps, start + 1, count, xs, bindings => matchFrom ps start count xs bindings
  | p :: ps, 0, count + 1, x :: xs, bindings => do
      let bindings ← vmMacroMatch p x bindings
      matchFrom ps 0 count xs bindings
  | _, _, _, _, bindings => some bindings

/-- The repeated elements, against the pattern at `index`. -/
def matchRepeat : List Node → ℕ → List Node → MacroBindings → Option MacroBindings
  | _ :: ps, index + 1, items, bindings => matchRepeat ps index items bindings
  | p :: _, 0, items, bindings =>
    match patternVariable literals p with
    | some name => macroBindingsAdd bindings name (.many items)
    | none =>
      if p.isList then items.foldlM (fun bindings x => vmMacroMatch p x bindings) bindings
      else if items.all fun x => (vmMacroMatch p x []).isSome then some bindings else none
  | [], _, _, bindings => some bindings

end

end Match

/-! ### Instantiation -/

/-- The first child that is bound by an ellipsis. -/
def ellipsisChild (children : List Node) (bindings : MacroBindings) : Option (Name × List Node) :=
  children.findSome? fun c =>
    match c.symbolName with
    | none => none
    | some name =>
      match macroBindingsLookup bindings name with
      | some (.many items) => some (name, items)
      | _ => none

/-- The table with one form in place of those that an ellipsis binds. -/
def bindItem (name : Name) (item : Node) : MacroBindings → MacroBindings
  | [] => []
  | b :: bindings =>
    match b.bound with
    | .many _ =>
      if b.name = name then ⟨b.name, .one item⟩ :: bindings
      else b :: bindItem name item bindings
    | .one _ => b :: bindItem name item bindings

mutual

def vmMacroInstantiate : Node → MacroBindings → Node
  | .symbol name verbatim, bindings =>
    match macroBindingsLookup bindings name with
    | some (.one value) => value
    | _ => .symbol name verbatim
  | .list _ ts, bindings => .list false (instantiateList ts bindings)
  | .number n, _ => .number n
  | .string s, _ => .string s
  | .bool b, _ => .bool b

/-- The loop over the elements of a list template. -/
def instantiateList : List Node → MacroBindings → List Node
  | [], _ => []
  | [t], bindings => [vmMacroInstantiate t bindings]
  | t :: e :: ts, bindings =>
    if isEllipsis e then instantiateEllipsis t bindings ++ instantiateList ts bindings
    else vmMacroInstantiate t bindings :: instantiateList (e :: ts) bindings

/-- The elements that a sub-template with an ellipsis stands for. -/
def instantiateEllipsis : Node → MacroBindings → List Node
  | .symbol name _, bindings =>
    match macroBindingsLookup bindings name with
    | some (.many items) => items
    | _ => []
  | .list _ ts, bindings =>
    match ellipsisChild ts bindings with
    | some (name, items) =>
      items.map fun item => .list false (instantiateList ts (bindItem name item bindings))
    | none => []
  | .number _, _ => []
  | .string _, _ => []
  | .bool _, _ => []

end

end Eshkol.Vm
