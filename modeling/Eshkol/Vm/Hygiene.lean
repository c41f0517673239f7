import Eshkol.Native.Print
import Eshkol.Vm.MacroRebuild

/-!
# Hygienic Renaming

The renaming of the names that a macro template binds itself (`vm_macro_alpha_rename`,
`lib/backend/vm_macro.c`). A table holds the first 64 binders in scope, under the first 63 bytes
of their names, each with a new name that a global counter makes distinct: `_h<counter>.<name>`.

The template is annotated with the binders that are in scope at each of its symbols, all of them
and with their whole names, and with the symbols that are binders themselves. The renamed template
is read off the annotated one.
-/

namespace Eshkol.Vm

/-! ### The renamer -/

/-- `MacroRenames`: old and new names, outermost first, and whether the symbols are data. -/
structure MacroRenames where
  entries : List (Name × Name)
  datum : Bool

/-- The new name for a counter value: at most 40 bytes of the old one, in a buffer of 64. -/
def hygienicName (counter : ℕ) (name : Name) : Name :=
  (ascii "_h" ++ (natText counter).map (fun c => c.val.toUInt8) ++ ascii "." ++ name.take 40).take 63

def macroRenamesLookup (rn : MacroRenames) (name : Name) : Option Name :=
  if rn.datum then none else (rn.entries.reverse.find? fun e => e.1 = name).map Prod.snd

/-- `macro_renames_push`. A binder that the table has no room for is left out. -/
def macroRenamesPush (rn : MacroRenames) (counter : ℕ) (name : Name) : MacroRenames × ℕ :=
  if rn.entries.length < 64 then
    ({ rn with entries := rn.entries ++ [(cutName name, hygienicName counter name)] }, counter + 1)
  else (rn, counter)

/-- A symbol that can be bound: not an ellipsis, an underscore or a bare dot. -/
def bindable (n : Node) : Bool :=
  match n with
  | .symbol name verbatim =>
    !isEllipsis n && !isUnderscore name && (verbatim || name ≠ ascii ".")
  | _ => false

def macroIsTemplateBinder (bindings : MacroBindings) (n : Node) : Bool :=
  match n with
  | .symbol name _ => bindable n && (macroBindingsLookup bindings name).isNone
  | _ => false

/-- Binds a name for the current scope if the template introduces it. -/
def pushBinder (bindings : MacroBindings) (rn : MacroRenames) (counter : ℕ) (n : Node) :
    MacroRenames × ℕ :=
  match n with
  | .symbol name _ =>
    if macroIsTemplateBinder bindings n then macroRenamesPush rn counter name else (rn, counter)
  | _ => (rn, counter)

/-- Binds several names. -/
def pushBinders (bindings : MacroBindings) : MacroRenames → ℕ → List Node → MacroRenames × ℕ
  | rn, counter, [] => (rn, counter)
  | rn, counter, n :: ns =>
    let next := pushBinder bindings rn counter n
    pushBinders bindings next.1 next.2 ns

/-- The nodes that the formals of a `lambda` may bind: a symbol, or the children of a list. -/
def formalNodes : Node → List Node
  | .symbol name verbatim => [.symbol name verbatim]
  | .list _ ns => ns
  | _ => []

/-- The first child of each binding of a `letrec`. -/
def bindingHeads (bs : List Node) : List Node :=
  bs.filterMap fun
    | .list _ (n :: _) => some n
    | _ => none

/-- The forms that the renamer knows. -/
inductive FormKind : Type
  | data (datum : Bool)
  | lambda
  | namedLet
  | binding (recursive sequential : Bool)
  | other

/-- Which form a list is. Within data, only `quote` and `unquote` are forms. -/
def formKind (datum : Bool) (ts : List Node) : FormKind :=
  match ts with
  | .symbol h _ :: args =>
    if h = ascii "quote" ∨ h = ascii "quasiquote" then .data true
    else if h = ascii "unquote" ∨ h = ascii "unquote-splicing" then .data false
    else if datum then .other
    else if h = ascii "lambda" then
      match args with
      | _ :: _ => .lambda
      | [] => .other
    else if h = ascii "let" then
      match args with
      | .symbol _ _ :: .list _ _ :: _ => .namedLet
      | .list _ _ :: _ => .binding false false
      | _ => .other
    else if h = ascii "let*" then
      match args with
      | .list _ _ :: _ => .binding false true
      | _ => .other
    else if h = ascii "letrec" ∨ h = ascii "letrec*" then
      match args with
      | .list _ _ :: _ => .binding true false
      | _ => .other
    else .other
  | _ => .other

section Rename

variable (bindings : MacroBindings)

mutual

/-- `vm_macro_alpha_rename`: the renamed template and the counter. -/
def vmMacroAlphaRename : Node → MacroRenames → ℕ → Node × ℕ
  | .symbol name verbatim, rn, counter =>
    (.symbol ((macroRenamesLookup rn name).getD name) verbatim, counter)
  | .list _ ts, rn, counter =>
    match formKind rn.datum ts, ts with
    | .data datum, h :: args =>
      let rest := macroRenameRest args { rn with datum := datum } counter
      (.list false (h :: rest.1), rest.2)
    | .lambda, h :: formals :: body =>
      let inner := pushBinders bindings rn counter (formalNodes formals)
      let formals := vmMacroAlphaRename formals inner.1 inner.2
      let rest := macroRenameRest body inner.1 formals.2
      (.list false (h :: formals.1 :: rest.1), rest.2)
    | .namedLet, h :: name :: .list _ bs :: body =>
      let inner := pushBinder bindings rn counter name
      let name := vmMacroAlphaRename name inner.1 inner.2
      let bs := renameBindings bs false false rn inner.1 name.2
      let rest := macroRenameRest body bs.2.1 bs.2.2
      (.list false (h :: name.1 :: .list false bs.1 :: rest.1), rest.2)
    | .binding recursive sequential, h :: .list _ bs :: body =>
      let inner := if recursive then pushBinders bindings rn counter (bindingHeads bs)
        else (rn, counter)
      let bs := renameBindings bs recursive sequential rn inner.1 inner.2
      let rest := macroRenameRest body bs.2.1 bs.2.2
      (.list false (h :: .list false bs.1 :: rest.1), rest.2)
    | _, ts =>
      let rest := macroRenameRest ts rn counter
      (.list false rest.1, rest.2)
  | .number n, _, counter => (.number n, counter)
  | .string s, _, counter => (.string s, counter)
  | .bool b, _, counter => (.bool b, counter)

def macroRenameRest : List Node → MacroRenames → ℕ → List Node × ℕ
  | [], _, counter => ([], counter)
  | t :: ts, rn, counter =>
    let first := vmMacroAlphaRename t rn counter
    let rest := macroRenameRest ts rn first.2
    (first.1 :: rest.1, rest.2)

/-- The loop over the bindings of a `let`: the renamed bindings, the table for the body, and the
counter. At most eight initial values of a binding are kept. -/
def renameBindings : List Node → Bool → Bool → MacroRenames → MacroRenames → ℕ →
    List Node × MacroRenames × ℕ
  | [], _, _, _, inner, counter => ([], inner, counter)
  | b :: bs, recursive, sequential, rn, inner, counter =>
    match b with
    | .list _ (n :: inits) =>
      let env := if recursive || sequential then inner else rn
      let inits := renameInits inits 8 env counter
      let inner := if recursive then (inner, inits.2)
        else pushBinder bindings inner inits.2 n
      let n := vmMacroAlphaRename n inner.1 inner.2
      let rest := renameBindings bs recursive sequential rn inner.1 n.2
      (.list false (n.1 :: inits.1) :: rest.1, rest.2)
    | b =>
      let b := vmMacroAlphaRename b inner counter
      let rest := renameBindings bs recursive sequential rn inner b.2
      (b.1 :: rest.1, rest.2)

/-- The first `count` initial values of a binding. -/
def renameInits : List Node → ℕ → MacroRenames → ℕ → List Node × ℕ
  | t :: ts, count + 1, rn, counter =>
    let first := vmMacroAlphaRename t rn counter
    let rest := renameInits ts count rn first.2
    (first.1 :: rest.1, rest.2)
  | _, _, _, counter => ([], counter)

end

end Rename

/-! ### The annotated template -/

/-- The binders in scope, outermost first, with the values of the counter for them. -/
abbrev Scope : Type := List (Name × ℕ)

/-- A template whose symbols are annotated: whether the template introduces the symbol as a binder,
and the binders in scope there; none where the renamer copies the symbol, in quoted data and as
the keyword of a form. -/
inductive Annotated : Type
  | symbol (name : Name) (verbatim binder : Bool) (scope : Option Scope)
  | atom (n : Node)
  | list (children : List Annotated)

/-- One more binder in scope. The counter only counts those that the table has room for. -/
def enterScope (scope : Scope) (next : ℕ) (name : Name) : Scope × ℕ :=
  (scope ++ [(name, next)], if scope.length < 64 then next + 1 else next)

/-- One more binder in scope, if the node is one. -/
def enterBinder (bindings : MacroBindings) (scope : Scope) (next : ℕ) (n : Node) : Scope × ℕ :=
  match n with
  | .symbol name _ =>
    if macroIsTemplateBinder bindings n then enterScope scope next name else (scope, next)
  | _ => (scope, next)

/-- More binders in scope. -/
def enterBinders (bindings : MacroBindings) : Scope → ℕ → List Node → Scope × ℕ
  | scope, next, [] => (scope, next)
  | scope, next, n :: ns =>
    let entered := enterBinder bindings scope next n
    enterBinders bindings entered.1 entered.2 ns

/-- Where a node stands: in an expression, as a binder, or as the formals of a `lambda`, whose
children are binders. -/
inductive Position : Type
  | expression
  | binder
  | formals

/-- Where the children of a node stand. -/
def Position.child : Position → Position
  | .formals => .binder
  | _ => .expression

/-- Whether a node at a position is a binder that the template introduces: a name that can be
bound and that is no pattern variable. -/
def introduces (vars : List Name) (pos : Position) (n : Node) : Bool :=
  match pos, n with
  | .expression, _ => false
  | _, .symbol name _ => bindable n && !vars.contains name
  | _, _ => false

/-- A node that the renamer copies. -/
def copied (vars : List Name) (pos : Position) (n : Node) : Annotated :=
  match n with
  | .symbol name verbatim => .symbol name verbatim (introduces vars pos n) none
  | n => .atom n

section Annotate

variable (bindings : MacroBindings) (vars : List Name)

mutual

/-- Annotates a template, given the binders in scope and the counter. -/
def annotate : Node → Position → Bool → Scope → ℕ → Annotated × ℕ
  | .symbol name verbatim, pos, datum, scope, next =>
    (.symbol name verbatim (introduces vars pos (.symbol name verbatim))
      (if datum then none else some scope), next)
  | .list _ ts, pos, datum, scope, next =>
    match formKind datum ts, ts with
    | .data datum, h :: args =>
      let rest := annotateRest args pos.child datum scope next
      (.list (copied vars pos.child h :: rest.1), rest.2)
    | .lambda, h :: formals :: body =>
      let inner := enterBinders bindings scope next (formalNodes formals)
      let formals := annotate formals .formals datum inner.1 inner.2
      let rest := annotateRest body pos.child datum inner.1 formals.2
      (.list (copied vars pos.child h :: formals.1 :: rest.1), rest.2)
    | .namedLet, h :: name :: .list _ bs :: body =>
      let inner := enterBinder bindings scope next name
      let name := annotate name .binder datum inner.1 inner.2
      let bs := annotateBindings bs false false datum scope inner.1 name.2
      let rest := annotateRest body pos.child datum bs.2.1 bs.2.2
      (.list (copied vars pos.child h :: name.1 :: .list bs.1 :: rest.1), rest.2)
    | .binding recursive sequential, h :: .list _ bs :: body =>
      let inner := if recursive then enterBinders bindings scope next (bindingHeads bs)
        else (scope, next)
      let bs := annotateBindings bs recursive sequential datum scope inner.1 inner.2
      let rest := annotateRest body pos.child datum bs.2.1 bs.2.2
      (.list (copied vars pos.child h :: .list bs.1 :: rest.1), rest.2)
    | _, ts =>
      let rest := annotateRest ts pos.child datum scope next
      (.list rest.1, rest.2)
  | .number n, _, _, _, next => (.atom (.number n), next)
  | .string s, _, _, _, next => (.atom (.string s), next)
  | .bool b, _, _, _, next => (.atom (.bool b), next)

/-- Annotates the children of a list. -/
def annotateRest : List Node → Position → Bool → Scope → ℕ → List Annotated × ℕ
  | [], _, _, _, next => ([], next)
  | t :: ts, pos, datum, scope, next =>
    let first := annotate t pos datum scope next
    let rest := annotateRest ts pos datum scope first.2
    (first.1 :: rest.1, rest.2)

/-- Annotates the bindings of a `let`, with the binders in scope outside of it and inside. -/
def annotateBindings : List Node → Bool → Bool → Bool → Scope → Scope → ℕ →
    List Annotated × Scope × ℕ
  | [], _, _, _, _, inner, next => ([], inner, next)
  | b :: bs, recursive, sequential, datum, scope, inner, next =>
    match b with
    | .list _ (n :: inits) =>
      let env := if recursive || sequential then inner else scope
      let inits := annotateInits inits 8 datum env next
      let inner := if recursive then (inner, inits.2)
        else enterBinder bindings inner inits.2 n
      let n := annotate n .binder datum inner.1 inner.2
      let rest := annotateBindings bs recursive sequential datum scope inner.1 n.2
      (.list (n.1 :: inits.1) :: rest.1, rest.2)
    | b =>
      let b := annotate b .expression datum inner next
      let rest := annotateBindings bs recursive sequential datum scope inner b.2
      (b.1 :: rest.1, rest.2)

/-- Annotates the initial values of a binding. -/
def annotateInits : List Node → ℕ → Bool → Scope → ℕ → List Annotated × ℕ
  | t :: ts, count + 1, datum, scope, next =>
    let first := annotate t .expression datum scope next
    let rest := annotateInits ts count datum scope first.2
    (first.1 :: rest.1, rest.2)
  | _, _, _, _, next => ([], next)

end

end Annotate

/-- The innermost of the first 64 binders in scope whose first 63 bytes are the name. -/
def Scope.inForce (scope : Scope) (name : Name) : Option (Name × ℕ) :=
  (scope.take 64).reverse.find? fun e => cutName e.1 = name

/-- The name that the renamer gives to a symbol. -/
def renamed (name : Name) (scope : Option Scope) : Name :=
  match scope.bind (Scope.inForce · name) with
  | some (binder, counter) => hygienicName counter binder
  | none => name

mutual

/-- The renamed template. -/
def Annotated.render : Annotated → Node
  | .symbol name verbatim _ scope => .symbol (renamed name scope) verbatim
  | .atom n => n
  | .list as => .list false (renderAll as)

/-- The renamed children. -/
def renderAll : List Annotated → List Node
  | [] => []
  | a :: as => a.render :: renderAll as

end

/-! ### The renamed template -/

/-- The table for the binders in scope. -/
def renamesOf (datum : Bool) (scope : Scope) : MacroRenames :=
  ⟨(scope.take 64).map fun e => (cutName e.1, hygienicName e.2 e.1), datum⟩

theorem macroRenamesPush_renamesOf (datum : Bool) (scope : Scope) (next : ℕ) (name : Name) :
    macroRenamesPush (renamesOf datum scope) next name =
      (renamesOf datum (enterScope scope next name).1, (enterScope scope next name).2) := by
  rw [macroRenamesPush, enterScope, renamesOf]
  have hlen : ((scope.take 64).map fun e => (cutName e.1, hygienicName e.2 e.1)).length =
      min 64 scope.length := by
    rw [List.length_map, List.length_take]
  by_cases hroom : scope.length < 64
  · have hall (l : Scope) (hl : l.length ≤ 64) : l.take 64 = l := List.take_of_length_le hl
    rw [hlen, if_pos (by omega), if_pos hroom, renamesOf, hall scope hroom.le,
      hall (scope ++ [(name, next)]) (by simpa using hroom), List.map_append]
    rfl
  · rw [hlen, if_neg (by omega), if_neg hroom, renamesOf,
      List.take_append_of_le_length (Nat.not_lt.mp hroom)]

theorem pushBinder_renamesOf (bindings : MacroBindings) (datum : Bool) (scope : Scope) (next : ℕ)
    (n : Node) : pushBinder bindings (renamesOf datum scope) next n =
      (renamesOf datum (enterBinder bindings scope next n).1,
        (enterBinder bindings scope next n).2) := by
  cases n with
  | symbol name verbatim =>
    rw [pushBinder, enterBinder]
    split
    next => exact macroRenamesPush_renamesOf datum scope next name
    next => rfl
  | number | list | string | bool => rfl

theorem pushBinders_renamesOf (bindings : MacroBindings) (datum : Bool) (scope : Scope) (next : ℕ)
    (ns : List Node) : pushBinders bindings (renamesOf datum scope) next ns =
      (renamesOf datum (enterBinders bindings scope next ns).1,
        (enterBinders bindings scope next ns).2) := by
  induction ns generalizing scope next with
  | nil => rfl
  | cons n ns ih => rw [pushBinders, enterBinders, pushBinder_renamesOf, ih]

theorem macroRenamesLookup_renamesOf (datum : Bool) (scope : Scope) (name : Name) :
    (macroRenamesLookup (renamesOf datum scope) name).getD name =
      renamed name (if datum then none else some scope) := by
  cases datum with
  | true => rfl
  | false =>
    rw [macroRenamesLookup, renamesOf, if_neg (by simp), renamed, ← List.map_reverse,
      List.find?_map, Option.map_map]
    simp only [Bool.false_eq_true, if_false, Option.bind_some, Scope.inForce]
    cases hfind : (scope.take 64).reverse.find? fun e => cutName e.1 = name with
    | none =>
      have : (scope.take 64).reverse.find?
          ((fun e => decide (e.1 = name)) ∘ fun e => (cutName e.1, hygienicName e.2 e.1)) =
          none := hfind
      rw [this]
      rfl
    | some e =>
      have : (scope.take 64).reverse.find?
          ((fun e => decide (e.1 = name)) ∘ fun e => (cutName e.1, hygienicName e.2 e.1)) =
          some e := hfind
      rw [this]
      rfl

theorem render_copied (vars : List Name) (pos : Position) (n : Node) :
    (copied vars pos n).render = n := by
  cases n with
  | symbol name verbatim => simp only [copied, Annotated.render, renamed, Option.bind_none]
  | number | list | string | bool => simp only [copied, Annotated.render]

/-! ### Forms -/

theorem formKind_cases (datum : Bool) (ts : List Node) :
    (∃ datum' h args, ts = h :: args ∧ formKind datum ts = .data datum') ∨
    (∃ h formals body, ts = h :: formals :: body ∧ formKind datum ts = .lambda) ∨
    (∃ h name vector bs body, ts = h :: name :: .list vector bs :: body ∧
      formKind datum ts = .namedLet) ∨
    (∃ recursive sequential h vector bs body, ts = h :: .list vector bs :: body ∧
      formKind datum ts = .binding recursive sequential) ∨
    formKind datum ts = .other := by
  rcases ts with _ | ⟨⟨⟩ | ⟨h, verbatim⟩ | ⟨⟩ | ⟨⟩ | ⟨⟩, args⟩
  case cons.symbol =>
    -- the branches of `formKind`, in its order
    generalize hk : formKind datum (.symbol h verbatim :: args) = k
    simp only [formKind] at hk
    split at hk
    next => exact .inl ⟨true, _, args, rfl, hk.symm⟩
    next =>
      split at hk
      next => exact .inl ⟨false, _, args, rfl, hk.symm⟩
      next =>
        split at hk
        next => exact .inr (.inr (.inr (.inr hk.symm)))
        next =>
          split at hk
          next =>
            split at hk
            next formals body => exact .inr (.inl ⟨_, formals, body, rfl, hk.symm⟩)
            next => exact .inr (.inr (.inr (.inr hk.symm)))
          next =>
            split at hk
            next =>
              split at hk
              next name verbatim' vector bs body =>
                exact .inr (.inr (.inl ⟨_, _, vector, bs, body, rfl, hk.symm⟩))
              next vector bs body =>
                exact .inr (.inr (.inr (.inl ⟨false, false, _, vector, bs, body, rfl, hk.symm⟩)))
              next => exact .inr (.inr (.inr (.inr hk.symm)))
            next =>
              split at hk
              next =>
                split at hk
                next vector bs body =>
                  exact .inr (.inr (.inr (.inl ⟨false, true, _, vector, bs, body, rfl, hk.symm⟩)))
                next => exact .inr (.inr (.inr (.inr hk.symm)))
              next =>
                split at hk
                next =>
                  split at hk
                  next vector bs body =>
                    exact .inr (.inr (.inr (.inl ⟨true, false, _, vector, bs, body, rfl, hk.symm⟩)))
                  next => exact .inr (.inr (.inr (.inr hk.symm)))
                next => exact .inr (.inr (.inr (.inr hk.symm)))
  all_goals exact .inr (.inr (.inr (.inr rfl)))

section Renamed

variable {bindings : MacroBindings} {vars : List Name}

/-- The renamed template is read off the annotated one. -/
def Rendered (bindings : MacroBindings) (vars : List Name) (t : Node) : Prop :=
  ∀ pos datum scope next, vmMacroAlphaRename bindings t (renamesOf datum scope) next =
    ((annotate bindings vars t pos datum scope next).1.render,
      (annotate bindings vars t pos datum scope next).2)

theorem macroRenameRest_eq {ts : List Node} (hts : ∀ t ∈ ts, Rendered bindings vars t)
    (pos : Position) (datum : Bool) (scope : Scope) (next : ℕ) :
    macroRenameRest bindings ts (renamesOf datum scope) next =
      (renderAll (annotateRest bindings vars ts pos datum scope next).1,
        (annotateRest bindings vars ts pos datum scope next).2) := by
  induction ts generalizing next with
  | nil => rw [macroRenameRest, annotateRest, renderAll]
  | cons t ts ih =>
    rw [List.forall_mem_cons] at hts
    rw [macroRenameRest, annotateRest, renderAll, hts.1 pos, ih hts.2]

theorem renameInits_eq {ts : List Node} (hts : ∀ t ∈ ts, Rendered bindings vars t) (count : ℕ)
    (datum : Bool) (scope : Scope) (next : ℕ) :
    renameInits bindings ts count (renamesOf datum scope) next =
      (renderAll (annotateInits bindings vars ts count datum scope next).1,
        (annotateInits bindings vars ts count datum scope next).2) := by
  induction ts generalizing count next with
  | nil => simp only [renameInits, annotateInits, renderAll]
  | cons t ts ih =>
    rw [List.forall_mem_cons] at hts
    cases count with
    | zero => simp only [renameInits, annotateInits, renderAll]
    | succ count =>
      rw [renameInits, annotateInits, renderAll, hts.1 .expression, ih hts.2]

/-- The renamed bindings render theirs. -/
theorem renameBindings_eq {bs : List Node}
    (hbs : ∀ b ∈ bs, WithChildren (Rendered bindings vars) b) (recursive sequential datum : Bool)
    (scope inner : Scope) (next : ℕ) :
    renameBindings bindings bs recursive sequential (renamesOf datum scope)
        (renamesOf datum inner) next =
      (renderAll (annotateBindings bindings vars bs recursive sequential datum scope inner next).1,
        renamesOf datum
          (annotateBindings bindings vars bs recursive sequential datum scope inner next).2.1,
        (annotateBindings bindings vars bs recursive sequential datum scope inner next).2.2) := by
  induction bs generalizing inner next with
  | nil => simp only [renameBindings, annotateBindings, renderAll]
  | cons b bs ih =>
    rw [List.forall_mem_cons] at hbs
    have hother (hb : ∀ vector n inits, b ≠ .list vector (n :: inits)) :
        renameBindings bindings (b :: bs) recursive sequential (renamesOf datum scope)
            (renamesOf datum inner) next =
          (renderAll (annotateBindings bindings vars (b :: bs) recursive sequential datum scope
              inner next).1,
            renamesOf datum (annotateBindings bindings vars (b :: bs) recursive sequential datum
              scope inner next).2.1,
            (annotateBindings bindings vars (b :: bs) recursive sequential datum scope inner
              next).2.2) := by
      rw [renameBindings, annotateBindings, renderAll, hbs.1.1 .expression, ih hbs.2]
      · exact fun vector n inits h => hb vector n inits h
      · exact fun vector n inits h => hb vector n inits h
    rcases b with _ | _ | ⟨vector, _ | ⟨n, inits⟩⟩ | _ | _
    case list.cons =>
      have hchild := hbs.1.2 vector (n :: inits) rfl
      rw [List.forall_mem_cons] at hchild
      have henv : (if (recursive || sequential) = true then renamesOf datum inner
          else renamesOf datum scope) =
          renamesOf datum (if (recursive || sequential) = true then inner else scope) := by
        split <;> rfl
      rw [renameBindings, annotateBindings, renderAll, henv, renameInits_eq hchild.2]
      cases recursive with
      | true =>
        simp only [if_true]
        rw [hchild.1 .binder, ih hbs.2, Annotated.render, renderAll]
      | false =>
        simp only [Bool.false_eq_true, if_false]
        rw [pushBinder_renamesOf, hchild.1 .binder, ih hbs.2, Annotated.render, renderAll]
    all_goals exact hother nofun

/-- The renamed template renders its annotation. -/
theorem vmMacroAlphaRename_eq (t : Node) : Rendered bindings vars t := by
  induction t using Node.deepInduct with
  | number | string | bool =>
    intro pos datum scope next
    rw [vmMacroAlphaRename, annotate, Annotated.render]
  | symbol name verbatim =>
    intro pos datum scope next
    rw [vmMacroAlphaRename, annotate, Annotated.render, macroRenamesLookup_renamesOf]
  | list vector ts ih =>
    intro pos datum scope next
    have hdatum : (renamesOf datum scope).datum = datum := rfl
    rcases formKind_cases datum ts with ⟨datum', h, args, rfl, hk⟩ | ⟨h, formals, body, rfl, hk⟩ |
      ⟨h, name, vector', bs, body, rfl, hk⟩ |
      ⟨recursive, sequential, h, vector', bs, body, rfl, hk⟩ | hk
    · rw [List.forall_mem_cons] at ih
      have hargs t (ht : t ∈ args) := (ih.2 t ht).1.1
      have hrn : { renamesOf datum scope with datum := datum' } = renamesOf datum' scope := rfl
      rw [vmMacroAlphaRename.eq_def, annotate.eq_def]
      simp only [hdatum, hk, hrn, Annotated.render, renderAll, render_copied,
        macroRenameRest_eq hargs pos.child]
    · rw [List.forall_mem_cons, List.forall_mem_cons] at ih
      have hbody t (ht : t ∈ body) := (ih.2.2 t ht).1.1
      rw [vmMacroAlphaRename.eq_def, annotate.eq_def]
      simp only [hdatum, hk, Annotated.render, renderAll, render_copied, pushBinders_renamesOf,
        ih.2.1.1.1 .formals, macroRenameRest_eq hbody pos.child]
    · rw [List.forall_mem_cons, List.forall_mem_cons, List.forall_mem_cons] at ih
      have hbs := ih.2.2.1.2 vector' bs rfl
      have hbody t (ht : t ∈ body) := (ih.2.2.2 t ht).1.1
      rw [vmMacroAlphaRename.eq_def, annotate.eq_def]
      simp only [hdatum, hk, Annotated.render, renderAll, render_copied, pushBinder_renamesOf,
        ih.2.1.1.1 .binder, renameBindings_eq hbs, macroRenameRest_eq hbody pos.child]
    · rw [List.forall_mem_cons, List.forall_mem_cons] at ih
      have hbs := ih.2.1.2 vector' bs rfl
      have hbody t (ht : t ∈ body) := (ih.2.2 t ht).1.1
      rw [vmMacroAlphaRename.eq_def, annotate.eq_def]
      simp only [hdatum, hk]
      cases recursive with
      | true =>
        simp only [if_true, Annotated.render, renderAll, render_copied,
          pushBinders_renamesOf, renameBindings_eq hbs, macroRenameRest_eq hbody pos.child]
      | false =>
        simp only [Bool.false_eq_true, if_false, Annotated.render, renderAll, render_copied,
          renameBindings_eq hbs, macroRenameRest_eq hbody pos.child]
    · have hts t (ht : t ∈ ts) := (ih t ht).1.1
      rw [vmMacroAlphaRename.eq_def, annotate.eq_def]
      simp only [hdatum, hk, Annotated.render, macroRenameRest_eq hts pos.child]

end Renamed

end Eshkol.Vm
