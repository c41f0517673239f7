import Mathlib.Data.List.Basic
import Eshkol.Machine.Ieee

/-!
# Syntax Trees

The nodes that the parser of the VM builds (`lib/backend/vm_parser.c`) and that macro expansion
and the compiler work on. Of a node only the fields that its type uses are modelled; the storage
of its children is not.
-/

namespace Eshkol.Vm

open Machine

/-- A symbol name: the bytes of a C string before its terminating NUL. -/
abbrev Name : Type := List UInt8

/-- A name of ASCII characters. -/
def ascii (s : String) : Name := s.toList.map fun c => c.val.toUInt8

/-- The fields of an `N_NUMBER` node: the bits of `numval`, the tags `is_char`, `is_inexact` and
`is_int`, and `ival`. -/
structure NumLit where
  numval : UInt64
  isChar : Bool
  isInexact : Bool
  isInt : Bool
  ival : UInt64
  deriving DecidableEq

/-- `==` of two `numval` fields. -/
def numvalEqual (a b : NumLit) : Bool :=
  (ieeeDecode 11 52 a.numval.toNat).eq (ieeeDecode 11 52 b.numval.toNat)

/-- `Node`. A symbol has the tag `is_verbatim`, a list the tag `is_vector`. -/
inductive Node : Type
  | number (n : NumLit)
  | symbol (name : Name) (verbatim : Bool)
  | list (vector : Bool) (children : List Node)
  | string (data : List UInt8)
  | bool (b : Bool)

@[elab_as_elim]
theorem Node.induct {motive : Node → Prop} (number : ∀ n, motive (.number n))
    (symbol : ∀ name verbatim, motive (.symbol name verbatim))
    (list : ∀ vector children, (∀ c ∈ children, motive c) → motive (.list vector children))
    (string : ∀ data, motive (.string data)) (bool : ∀ b, motive (.bool b)) : ∀ n, motive n
  | .number n => number n
  | .symbol name verbatim => symbol name verbatim
  | .list vector children =>
    list vector children fun c _ => Node.induct number symbol list string bool c
  | .string data => string data
  | .bool b => bool b

/-- A statement holds of a node and of its children. -/
def WithChildren (motive : Node → Prop) (n : Node) : Prop :=
  motive n ∧ ∀ vector cs, n = .list vector cs → ∀ c ∈ cs, motive c

/-- Induction over a tree, with hypotheses for the children of a list and, since the bindings of a
form are lists in a list, for what is two and three levels below it. -/
@[elab_as_elim]
theorem Node.deepInduct {motive : Node → Prop} (number : ∀ n, motive (.number n))
    (symbol : ∀ name verbatim, motive (.symbol name verbatim))
    (list : ∀ vector ts, (∀ t ∈ ts, WithChildren (WithChildren motive) t) →
      motive (.list vector ts))
    (string : ∀ data, motive (.string data)) (bool : ∀ b, motive (.bool b)) (t : Node) :
    motive t := by
  have hall : ∀ t, WithChildren (WithChildren motive) t ∧ motive t := by
    intro t
    induction t using Node.induct with
    | number n => exact ⟨⟨⟨number n, nofun⟩, nofun⟩, number n⟩
    | symbol name verbatim => exact ⟨⟨⟨symbol name verbatim, nofun⟩, nofun⟩, symbol name verbatim⟩
    | string data => exact ⟨⟨⟨string data, nofun⟩, nofun⟩, string data⟩
    | bool b => exact ⟨⟨⟨bool b, nofun⟩, nofun⟩, bool b⟩
    | list vector ts ih =>
      have hts := list vector ts fun t ht => (ih t ht).1
      refine ⟨⟨⟨hts, ?_⟩, ?_⟩, hts⟩
      · rintro _ _ ⟨⟩ c hc
        exact (ih c hc).2
      · rintro _ _ ⟨⟩ c hc
        exact (ih c hc).1.1
  exact (hall t).2

/-- The name of a symbol node. -/
def Node.symbolName : Node → Option Name
  | .symbol name _ => some name
  | _ => none

/-- The node at a path. -/
def Node.subtree : Node → List ℕ → Option Node
  | n, [] => some n
  | .list _ ts, i :: path =>
    match ts[i]? with
    | some t => t.subtree path
    | none => none
  | _, _ :: _ => none

def isSym (n : Node) (name : Name) : Bool := n.symbolName = some name

end Eshkol.Vm
