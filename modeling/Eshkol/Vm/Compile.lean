import Eshkol.Machine.Scoping
import Eshkol.Vm.Boxing
import Eshkol.Vm.Macro

/-!
# Scopes in the Compiler

What the compiler of the VM does with the names in scope (`lib/backend/vm_compiler.c`): a
`FuncChunk` has the locals of a procedure, and the chunk around it. `compile_expr` looks names up
in the chunks around the code, adds locals, and drops them where a scope ends. The instructions
that it emits are left out.

The core forms are modelled. The others (macro uses, primitives, modules) are parameters: any
program over the same operations.
-/

namespace Eshkol.Vm

open Machine

/-- What the compiler does with its scopes. A local is known to be boxed or not. -/
abbrev Compilation : Type := ScopeProg Name Bool

/-- The locals of the chunks around the code. -/
abbrev Locals : Type := ScopeChain Name Bool

/-- The rest of the compiler: what it does with macro uses and `cond-expand`, before it looks at
the node, and with the forms that are not modelled, at a nesting depth; which names are defined
again at top level; and `g_vm_user_locals_base`. -/
structure OtherForms where
  expanded : ℕ → Node → Option Compilation
  special : ℕ → List Node → Option Compilation
  redefined : Name → Bool
  userLocalsBase : ℕ

/-- Programs one after the other. -/
def inOrder : List Compilation → Compilation
  | [] => .done
  | p :: ps => p.seq (inOrder ps)

/-! ### Look-ups -/

/-- Looks a name up in `count` chunks, from the chunk at `level` on. -/
def searchChain (name : Name) : ℕ → ℕ → (Option (ℕ × ℕ) → Compilation) → Compilation
  | 0, _, next => next none
  | count + 1, level, next =>
    .resolve level name fun
      | some (slot, _) => next (some (level, slot))
      | none => searchChain name count (level + 1) next

/-- The search of `compile_expr` for a variable, in at most 32 chunks. -/
def findVariable (name : Name) (next : Option (ℕ × ℕ) → Compilation) : Compilation :=
  .depth fun n => searchChain name (min n 32) 0 next

def vmHeadUserRebound (base : ℕ) (name : Name) (next : Bool → Compilation) : Compilation :=
  .depth fun n => searchChain name n 0 fun
    | some (level, slot) => next (if level + 1 = n then 0 < base && base ≤ slot else true)
    | none => next false

def vmRedefinitionTargetSlot (o : OtherForms) (name : Name) (next : Option ℕ → Compilation) :
    Compilation :=
  .depth fun n =>
    if n = 1 ∧ o.redefined name then
      .resolve 0 name fun
        | some (slot, boxed) => next (if slot < o.userLocalsBase || boxed then none else some slot)
        | none => next none
    else next none

/-! ### Forms -/

/-- The `symbol` field of a node. -/
def Node.symbolField : Node → Name
  | .symbol name _ => name
  | .bool b => if b then ascii "#t" else ascii "#f"
  | _ => []

def paramName : Node → Name
  | .symbol name _ => name
  | .list _ (.symbol name _ :: _) => name
  | _ => []

/-- Whether a node is the dot before a rest parameter. -/
def isDot : Node → Bool
  | .symbol name verbatim => !verbatim && name = ascii "."
  | _ => false

/-- The names that the parameters of a procedure bind: those before a dot, and the one after. -/
def parameterNames (name : Node → Name) (params : List Node) : List Name :=
  (params.takeWhile fun p => !isDot p).map name ++
    (((params.dropWhile fun p => !isDot p).drop 1).take 1).map name

/-- Adds locals, boxed if the nodes in their scope need it. -/
def bindAll (names : List Name) (scope : List Node) : Compilation :=
  inOrder (names.map fun name => .bind name (needsBoxing (scope.take 64) name) .done)

section Forms

variable (compile : Node → Compilation)

/-- The body of a procedure, in a chunk of its own. -/
def compileProcedure (params : List Name) (body : List Node) : Compilation :=
  .frame ((bindAll params body).seq (inOrder (body.map compile))) .done

/-- A call: the operator and the operands take anonymous locals. -/
def compileCall (h : Node) (args : List Node) : Compilation :=
  .block ((compile h).seq (.bind (ascii "__call_func__") false
    (inOrder (args.map fun a => (compile a).seq (.bind (ascii "__call_arg__") false .done))))) .done

/-- A binding of a `let`, in the form that the compiler takes: others are skipped. -/
def letBinding : Node → Option (Name × Node)
  | .list _ [.symbol name _, init] => some (name, init)
  | _ => none

/-- The bindings of a `let`: each initial value is compiled, and the name is added. -/
def compileBindings (box : Name → Bool) (bs : List (Name × Node)) : Compilation :=
  inOrder (bs.map fun b => (compile b.2).seq (.bind b.1 (box b.1) .done))

def compileFormLet (bs body : List Node) : Compilation :=
  .block ((compileBindings compile (letBoxes body) (bs.filterMap letBinding)).seq
    (inOrder (body.map compile))) .done

/-- The bindings of a `let*`: a name is boxed for what the nodes after it do. -/
def compileSequential (body : List Node) : List Node → Compilation
  | [] => .done
  | b :: bs =>
    match letBinding b with
    | some (name, init) =>
      (compile init).seq (.bind name (needsBoxing ((bs ++ body).take 64) name)
        (compileSequential body bs))
    | none => compileSequential body bs

def compileFormLetStar (bs body : List Node) : Compilation :=
  .block ((compileSequential compile body bs).seq (inOrder (body.map compile))) .done

/-- `compile_form_letrec` and `compile_form_letrec_star`. -/
def compileFormLetrec (bs body : List Node) : Compilation :=
  let pairs := bs.filterMap letBinding
  .block ((bindAll (pairs.map Prod.fst) (bs ++ body)).seq
    ((inOrder (pairs.map fun b => .resolve 0 b.1 fun _ => compile b.2)).seq
      (inOrder (body.map compile)))) .done

/-- The named `let` of `compile_expr`. -/
def compileNamedLet (loop : Name) (bs body : List Node) : Compilation :=
  .block (.bind loop false ((.frame ((inOrder ((bs.filterMap fun b => b.children.head?).map
      fun v => .bind v.symbolField false .done)).seq (inOrder (body.map compile))) .done :
        Compilation).seq
    (inOrder (bs.filterMap fun b => b.children[1]?.map compile)))) .done

def compileFormDefine (o : OtherForms) (target : Node) (rest : List Node) : Compilation :=
  match target with
  | .symbol name _ =>
    vmRedefinitionTargetSlot o name fun slot =>
      (inOrder ((rest.take 1).map compile)).seq
        (if slot.isSome then .done else .bind name false .done)
  | .list _ (f :: params) =>
    let body := match rest with
      | .symbol colon _ :: _ :: body => if colon = ascii ":" then body else rest
      | _ => rest
    vmRedefinitionTargetSlot o f.symbolField fun slot =>
      (if slot.isSome then .done else .bind f.symbolField false .done : Compilation).seq
        (compileProcedure compile (parameterNames paramName params) body)
  | _ => .done

def compileFormDo (vars test : Node) (body : List Node) : Compilation :=
  let steps := vars.children.filter fun b => 3 ≤ b.children.length
  let scope := test.children ++ body ++ steps.filterMap fun b => b.children[2]?
  let inits := vars.children.filterMap fun b =>
    match b.children with
    | .symbol name _ :: init :: _ => some (name, init)
    | _ => none
  let update : Compilation :=
    (inOrder (steps.map fun b => (inOrder ((b.children[2]?.map compile).toList)).seq
      (.bind (ascii " do step") false .done))).seq
    (inOrder (steps.map fun b =>
      .resolve 0 ((b.children.head?.map Node.symbolField).getD []) fun _ => .done))
  .block ((compileBindings compile (needsBoxing (scope.take 64)) inits).seq
    (if test.children = [] then .done
      else (inOrder (test.children.map compile)).seq
        ((inOrder (body.map compile)).seq (.block update .done)))) .done

/-- The clauses of a `cond`, up to an `else`. -/
def compileCondClauses : List Node → Compilation
  | [] => .done
  | clause :: clauses =>
    match clause.children with
    | [] => compileCondClauses clauses
    | test :: body =>
      if isSym test (ascii "else") then
        if body = [] then compileCondClauses clauses else inOrder (body.map compile)
      else (inOrder ((test :: body).map compile)).seq (compileCondClauses clauses)

/-- The clauses of a `case`, up to an `else`. -/
def compileCaseClauses : List Node → Compilation
  | [] => .done
  | clause :: clauses =>
    match clause.children with
    | vals :: b :: body =>
      if isSym vals (ascii "else") then inOrder ((b :: body).map compile)
      else if vals.isList then
        (inOrder ((b :: body).map compile)).seq (compileCaseClauses clauses)
      else compileCaseClauses clauses
    | _ => compileCaseClauses clauses

/-- The expression of an `(unquote-splicing e)`: `vm_qq_is_splice`. -/
def spliced : Node → Option Node
  | .list _ [.symbol k _, e] => if k = ascii "unquote-splicing" then some e else none
  | _ => none

mutual

def compileQuasiquote : Node → Compilation
  | .list _ ts =>
    match ts with
    | [.symbol k verbatim, e] =>
      if k = ascii "unquote" then compile e
      else compileSegments [.symbol k verbatim, e] .done
    | ts => compileSegments ts .done
  | .symbol _ _ => .done
  | .number _ => .done
  | .string _ => .done
  | .bool _ => .done

/-- The elements of a list template. Those between two spliced expressions are compiled from the
last one on. -/
def compileSegments : List Node → Compilation → Compilation
  | [], segment => segment
  | t :: ts, segment =>
    match spliced t with
    | some e => segment.seq ((compile e).seq (compileSegments ts .done))
    | none => compileSegments ts ((compileQuasiquote t).seq segment)

end

/-- The core forms of `compile_expr`, where the head is not a variable of the user. -/
def coreForm (o : OtherForms) (h : Node) (args : List Node) : Option Compilation :=
  match h.symbolName with
  | none => none
  | some k =>
    if k = ascii "cond" ∧ args ≠ [] then some (compileCondClauses compile args)
    else if k = ascii "case" then
      match args with
      | key :: c :: clauses => some ((compile key).seq (compileCaseClauses compile (c :: clauses)))
      | _ => none
    else if k = ascii "when" ∨ k = ascii "unless" then
      if 2 ≤ args.length then some (inOrder (args.map compile)) else none
    else if k = ascii "if" then
      if 2 ≤ args.length then some (inOrder ((args.take 3).map compile)) else none
    else if k = ascii "begin" then some (inOrder (args.map compile))
    else if k = ascii "let" then
      match args with
      | .symbol loop _ :: .list _ bs :: b :: body => some (compileNamedLet compile loop bs (b :: body))
      | .list _ bs :: b :: body => some (compileFormLet compile bs (b :: body))
      | _ => none
    else if k = ascii "let*" then
      match args with
      | .list _ bs :: b :: body => some (compileFormLetStar compile bs (b :: body))
      | _ => none
    else if k = ascii "letrec" ∨ k = ascii "letrec*" then
      match args with
      | .list _ bs :: b :: body => some (compileFormLetrec compile bs (b :: body))
      | _ => none
    else if k = ascii "define" then
      match args with
      | target :: e :: rest => some (compileFormDefine compile o target (e :: rest))
      | _ => none
    else if k = ascii "set!" then
      match args with
      | [.symbol name _, e] =>
        some (findVariable name fun found => if found.isSome then compile e else .done)
      | _ => none
    else if k = ascii "do" then
      match args with
      | vars :: test :: body => some (compileFormDo compile vars test body)
      | _ => none
    else if (k = ascii "and" ∨ k = ascii "or") ∧ args ≠ [] then some (inOrder (args.map compile))
    else if k = ascii "lambda" then
      match args with
      | .symbol rest _ :: b :: body => some (compileProcedure compile [rest] (b :: body))
      | .list _ params :: b :: body =>
        some (compileProcedure compile (parameterNames Node.symbolField params) (b :: body))
      | _ => none
    else if k = ascii "quote" ∧ args.length = 1 then some .done
    else if k = ascii "quasiquote" then
      match args with
      | [template] => some (compileQuasiquote compile template)
      | _ => none
    else none

end Forms

/-- `compile_expr`, at most so many levels below the outermost expression. -/
def compileExpr (o : OtherForms) : ℕ → Node → Compilation
  | 0, _ => .done
  | depth + 1, node =>
    match o.expanded depth node with
    | some p => p
    | none =>
      match node with
      | .symbol name _ =>
        if name = ascii "#t" ∨ name = ascii "#f" then .done
        else findVariable name fun _ => .done
      | .list _ (h :: args) =>
        let call := compileCall (compileExpr o depth) h args
        let form : Compilation :=
          match coreForm (compileExpr o depth) o h args with
          | some p => p
          | none =>
            match o.special depth (h :: args) with
            | some p => p
            | none => if h.symbolName.isSome || h.isList then call else .done
        match h.symbolName with
        | some name =>
          vmHeadUserRebound o.userLocalsBase name fun
            | true => call
            | false => form
        | none => form
      | _ => .done

/-! ### The initial values of a let -/

/-- The locals of chunks, given by their names and whether they are boxed, last first. -/
def localsOf (frames : List (List (Name × Bool))) : Locals :=
  frames.map fun f => f.map fun e => ⟨e.1, e.2, true⟩

/-- `n_locals` of the chunk at hand. -/
def nLocals (c : Locals) : ℕ := (c.headD []).length

section Let

variable (compile : Node → Compilation)

/-- The initial values of a `let`, each with the locals when it is compiled. -/
def initStates (box : Name → Bool) : List (Name × Node) → Locals → List (Locals × Node)
  | [], _ => []
  | b :: bs, c => (c, b.2) :: initStates box bs (((compile b.2).final c).bind b.1 (box b.1))

/-- The initial values of a `let` form. -/
def letInits (bs body : List Node) (c : Locals) : List (Locals × Node) :=
  initStates compile (letBoxes body) (bs.filterMap letBinding) c

/-- The look-ups of the body of a `let`. -/
def bodyResolutions (bs body : List Node) (c : Locals) : List (Resolution Name Bool) :=
  (inOrder (body.map compile)).resolutions
    ((compileBindings compile (letBoxes body) (bs.filterMap letBinding)).final c)

/-- The look-ups of a `let` that binds in parallel: those of an initial value are made with the
locals hidden that the `let` has added. -/
def parallelResolutions (bs body : List Node) (c : Locals) : List (Resolution Name Bool) :=
  ((letInits compile bs body c).flatMap fun s =>
    (compile s.2).resolutions (s.1.hideFrom (nLocals c))) ++ bodyResolutions compile bs body c

variable {compile}

theorem compileBindings_resolutions (box : Name → Bool) (bs : List (Name × Node)) (c : Locals) :
    (compileBindings compile box bs).resolutions c =
      (initStates compile box bs c).flatMap fun s => (compile s.2).resolutions s.1 := by
  induction bs generalizing c with
  | nil => rfl
  | cons b bs ih =>
    rw [compileBindings, List.map_cons, inOrder, ScopeProg.resolutions_seq,
      ScopeProg.resolutions_seq, ScopeProg.final_seq, initStates, List.flatMap_cons, ← ih]
    rw [ScopeProg.resolutions, ScopeProg.resolutions, List.append_nil]
    rfl

theorem compileFormLet_resolutions (bs body : List Node) (c : Locals) :
    (compileFormLet compile bs body).resolutions c =
      ((letInits compile bs body c).flatMap fun s => (compile s.2).resolutions s.1) ++
        bodyResolutions compile bs body c := by
  rw [compileFormLet, ScopeProg.resolutions, ScopeProg.resolutions_seq,
    compileBindings_resolutions, ScopeProg.resolutions, List.append_nil]
  rfl

theorem reveal_initStates {box : Name → Bool} {bs : List (Name × Node)} {c : Locals}
    (hc : c.reveal = c) {s : Locals × Node} (hs : s ∈ initStates compile box bs c) :
    s.1.reveal = s.1 := by
  induction bs generalizing c with
  | nil => cases hs
  | cons b bs ih =>
    rw [initStates, List.mem_cons] at hs
    rcases hs with rfl | hs
    · exact hc
    · exact ih (by rw [reveal_bind, ScopeProg.reveal_final _ hc]) hs

theorem reveal_localsOf (frames : List (List (Name × Bool))) :
    (localsOf frames).reveal = localsOf frames := by
  rw [localsOf, ScopeChain.reveal, List.map_map]
  refine List.map_congr_left fun f _ => ?_
  change ScopeFrame.reveal (f.map _) = _
  rw [ScopeFrame.reveal, List.map_map]
  rfl

theorem flatMap_hideFrom {states : List (Locals × Node)} (count : ℕ)
    (hstates : ∀ s ∈ states, s.1.reveal = s.1) :
    (¬ (∃ s ∈ states, (compile s.2).MeetsHidden (s.1.hideFrom count)) →
      (states.flatMap fun s => (compile s.2).resolutions s.1) =
        states.flatMap fun s => (compile s.2).resolutions (s.1.hideFrom count)) ∧
    ((∃ s ∈ states, (compile s.2).MeetsHidden (s.1.hideFrom count)) →
      Diverge (states.flatMap fun s => (compile s.2).resolutions s.1)
        (states.flatMap fun s => (compile s.2).resolutions (s.1.hideFrom count))) := by
  induction states with
  | nil => simp
  | cons s states ih =>
    rw [List.forall_mem_cons] at hstates
    have hfirst := (compile s.2).resolutions_reveal (s.1.hideFrom count)
    rw [reveal_hideFrom, hstates.1] at hfirst
    rw [List.flatMap_cons, List.flatMap_cons, List.exists_mem_cons_iff]
    exact agree_or_diverge_append hfirst (ih hstates.2)

end Let

/-- **Parallel binding.** The compiler resolves the names in a `let` as if it bound in parallel
exactly if no initial value, compiled in the scope around the `let`, looks up a name whose last
local is one that the `let` has added before: a variable of an earlier binding. -/
theorem compileFormLet_parallel_iff (o : OtherForms) (depth : ℕ) (bs body : List Node)
    (frames : List (List (Name × Bool))) :
    (compileFormLet (compileExpr o depth) bs body).resolutions (localsOf frames) =
        parallelResolutions (compileExpr o depth) bs body (localsOf frames) ↔
      ∀ s ∈ letInits (compileExpr o depth) bs body (localsOf frames),
        ¬ (compileExpr o depth s.2).MeetsHidden (s.1.hideFrom (nLocals (localsOf frames))) := by
  obtain ⟨hsame, hdiverge⟩ := @flatMap_hideFrom (compileExpr o depth)
    (letInits (compileExpr o depth) bs body (localsOf frames)) (nLocals (localsOf frames))
    fun s hs => reveal_initStates (reveal_localsOf frames) hs
  rw [compileFormLet_resolutions, parallelResolutions]
  constructor
  · intro heq s hs hmeets
    exact ((hdiverge ⟨s, hs, hmeets⟩).append _ _).ne heq
  · intro h
    rw [hsame fun ⟨s, hs, hmeets⟩ => h s hs hmeets]

/-- The compiler with no other forms. -/
def coreOnly : OtherForms := ⟨fun _ _ => none, fun _ _ => none, fun _ => false, 0⟩

/-- In `(let ((x #t) (y x)) y)` the second `x` is looked up in the `let`: it gets the slot of the
first binding, not that of the `x` outside. -/
theorem compileFormLet_sees_earlier :
    ∃ (o : OtherForms) (depth : ℕ) (bs body : List Node) (frames : List (List (Name × Bool))),
      (compileFormLet (compileExpr o depth) bs body).resolutions (localsOf frames) ≠
        parallelResolutions (compileExpr o depth) bs body (localsOf frames) := by
  let x : Node := .symbol (ascii "x") false
  let y : Node := .symbol (ascii "y") false
  refine ⟨coreOnly, 1, [.list false [x, .bool true], .list false [y, x]], [y],
    [[(ascii "x", false)]], fun heq => ?_⟩
  have hfirst := congrArg (fun l => l.head?.map Resolution.slot) heq
  exact absurd hfirst (by decide)

end Eshkol.Vm
