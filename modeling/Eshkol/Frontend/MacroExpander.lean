import Eshkol.Frontend.MacroTemplate
import Mathlib.Data.List.Perm.Subperm
import Mathlib.Data.List.Nodup

/-!
# The Native Macro Expander

`MacroExpander::expandNode` (`lib/frontend/macro_expander.cpp`). A call of a macro is replaced by
the instantiated template of its first matching rule until the form is no macro call; then the
parts of the form are expanded. The names of the macros that one chain of replacements goes through
are kept, and a chain that comes back to one of them is reported as circular. Expansions nest at
most 1000 deep, so the recursion is over the depth that is left.
-/

namespace Eshkol.Frontend

open Machine

/-! ### Macros -/

/-- The scope stack, innermost first, the counter of fresh names and the errors reported. -/
structure Expander where
  scopes : List (List (String × MacroDef))
  counter : ℕ
  errors : List String

/-- Computations of the expander. -/
abbrev ExpandM : Type → Type := StateT Expander (Exec Empty)

namespace Expander

def lookupMacro (s : Expander) (name : String) : Option MacroDef :=
  s.scopes.findSome? (·.lookup name)

def registerMacro (s : Expander) : MacroDef → Expander
  | .mk name literals rules =>
    match s.scopes with
    | scope :: scopes => { s with scopes := ((name, .mk name literals rules) :: scope) :: scopes }
    | [] => s

def pushScope (s : Expander) : Expander := { s with scopes := [] :: s.scopes }

def popScope (s : Expander) : Expander :=
  if 1 < s.scopes.length then { s with scopes := s.scopes.tail } else s

/-- `eshkol_error`. -/
def report (s : Expander) (message : String) : Expander :=
  { s with errors := s.errors ++ [message] }

/-- A call of a macro: its name and its arguments. -/
def macroCall (s : Expander) : Ast → Option (String × List Ast)
  | .call .call (some (.var id)) args => if (s.lookupMacro id).isSome then some (id, args) else none
  | _ => none

end Expander

/-- The first rule of a macro that matches arguments: its template and the bindings. -/
def matchingRule : List MacroRule → List Ast → Option (MacroTemplate × Bindings)
  | [], _ => none
  | .mk (.list elements _) template :: rules, args =>
    match matchPatternSeq elements.tail args [] with
    | some bindings => some (template, bindings)
    | none => matchingRule rules args
  | .mk _ _ :: rules, args => matchingRule rules args

/-- A substitution as a computation of the expander. -/
def runSubst {α : Type} (x : SubstM α) : ExpandM α := fun s => do
  let (a, t) ← x ⟨s.counter, [], s.errors⟩
  .ok (a, { s with counter := t.counter, errors := t.errors })

def tryExpandMacroCall (call : Ast) (name : String) (args : List Ast) : ExpandM Ast := do
  match (← get).lookupMacro name with
  | none => return call
  | some (.mk _ _ rules) =>
    match matchingRule rules args with
    | some (template, bindings) => runSubst (instantiateTemplate template bindings)
    | none =>
      modify (·.report ("syntax error: no matching pattern for macro '" ++ name ++ "'"))
      return call

/-! ### Expansion -/

/-- How the loop of `expandNode` ends. -/
inductive Head : Type
  | form (ast : Ast)
  | circular (name : String) (ast : Ast)

/-- The loop of `expandNode`, with the macros that the chain went through. -/
def expandHead : ℕ → List String → Ast → ExpandM Head
  | 0, _, _ => throw .diverges
  | fuel + 1, chain, current => do
      match (← get).macroCall current with
      | none => return .form current
      | some (name, args) =>
        if name ∈ chain then return .circular name current
        else expandHead fuel (name :: chain) (← tryExpandMacroCall current name args)

/-- Operations in the layout of a call whose parts are expanded. -/
def CallOp.isExpanded : CallOp → Bool
  | .call | .cond | .case | .doLoop | .when | .unless => true
  | .quasiquote | .unquote | .unquoteSplicing => true
  | .quote | .ifThenElse | .makeParameter | .engine => false

/-- Operations with operands whose parts are expanded. -/
def OperandOp.isExpanded : OperandOp → Bool
  | .raise | .values | .callCc | .dynamicWind | .the => true
  | _ => false

/-- The init of a binding of `let`. -/
def expandBinding (expand : Ast → ExpandM Ast) : LetBinding → ExpandM LetBinding
  | .mk binder init => return .mk binder (← expand init)

/-- The body of a `match` clause. -/
def expandClause (expand : Ast → ExpandM Ast) : MatchClause → ExpandM MatchClause
  | .mk pattern guard body => return .mk pattern guard (← expand body)

/-- What `expandNode` does with a form that is no macro call. -/
def expandForm (expand : Ast → ExpandM Ast) : Ast → ExpandM Ast
  | .defineSyntax definition => do
      modify (·.registerMacro definition)
      return .literal .null
  | .letSyntax definitions body => do
      modify (·.pushScope)
      definitions.forM fun d => modify (·.registerMacro d)
      let body ← expand body
      modify (·.popScope)
      return body
  | .call op func args =>
    if op.isExpanded then return .call op (← func.mapM expand) (← args.mapM expand)
    else return .call op func args
  | .sequence op expressions => return .sequence op (← expressions.mapM expand)
  | .define name isFunction parameters rest value =>
    return .define name isFunction parameters rest (← expand value)
  | .lambda parameters rest body => return .lambda parameters rest (← expand body)
  | .letForm op name bindings body =>
    return .letForm op name (← bindings.mapM (expandBinding expand)) (← expand body)
  | .setForm name value => return .setForm name (← expand value)
  | .matchForm expr clauses =>
    return .matchForm (← expand expr) (← clauses.mapM (expandClause expand))
  | .guardForm varName clauses body =>
    return .guardForm varName (← clauses.mapM expand) (← body.mapM expand)
  | .operands op args =>
    if op.isExpanded then return .operands op (← args.mapM expand) else return .operands op args
  | .literal value => return .literal value
  | .var id => return .var id
  | .cons car cdr => return .cons car cdr
  | .letValues sequential bindings body => return .letValues sequential bindings body

/-- The macros that are registered, and one: a chain is not longer. -/
def Expander.loopFuel (s : Expander) : ℕ := s.scopes.flatten.length + 1

/-- `expandNode`, with the depth that is left of 1000. -/
def expandNode : ℕ → Ast → ExpandM Ast
  | 0, ast => do
      modify (·.report "macro expansion depth limit exceeded (>1000)")
      return ast
  | depth + 1, ast => do
      match ← expandHead (← get).loopFuel [] ast with
      | .circular name current =>
        modify (·.report ("Circular macro expansion detected: '" ++ name ++
          "' expands back to itself"))
        return current
      | .form current => expandForm (expandNode depth) current

/-- `expandAll`: the macros of the top level are registered before any form is expanded. -/
def expandAll (asts : List Ast) : ExpandM (List Ast) := do
  asts.forM fun
    | .defineSyntax definition => modify (·.registerMacro definition)
    | _ => pure ()
  (asts.filter fun | .defineSyntax _ => false | _ => true).mapM (expandNode 1000)

/-! ### Chains of replacements -/

/-- Each form is the call of a macro, and the template of its first matching rule gives the next. -/
structure Rewrites (σ : ℕ → Ast × Expander) (names : ℕ → String) (n : ℕ) : Prop where
  step : ∀ j < n, ∃ args name literals rules template bindings,
    (σ j).2.macroCall (σ j).1 = some (names j, args) ∧
    (σ j).2.lookupMacro (names j) = some (.mk name literals rules) ∧
    matchingRule rules args = some (template, bindings) ∧
    runSubst (instantiateTemplate template bindings) (σ j).2 = .ok (σ (j + 1))

/-- The macros of a chain, last first. -/
def macroNames (names : ℕ → String) (k : ℕ) : List String := (List.range k).reverse.map names

theorem macroNames_succ (names : ℕ → String) (k : ℕ) :
    macroNames names (k + 1) = names k :: macroNames names k := by
  rw [macroNames, List.range_succ, List.reverse_append, List.reverse_singleton,
    List.singleton_append, List.map_cons, macroNames]

theorem mem_macroNames {names : ℕ → String} {k : ℕ} {name : String} :
    name ∈ macroNames names k ↔ ∃ i < k, names i = name := by
  simp [macroNames]

theorem runSubst_scopes {α : Type} {x : SubstM α} {s : Expander} {r : α × Expander}
    (h : runSubst x s = .ok r) : r.2.scopes = s.scopes := by
  rw [runSubst] at h
  obtain ⟨t, -, h⟩ := bind_eq_ok.mp h
  cases h
  rfl

theorem get_bind_apply {α : Type} (f : Expander → ExpandM α) (s : Expander) :
    (get >>= f) s = f s s :=
  rfl

theorem bind_apply_of_ok {α β : Type} {x : ExpandM α} {s : Expander} {r : α × Expander}
    (h : x s = .ok r) (f : α → ExpandM β) : (x >>= f) s = f r.1 r.2 := by
  change (x s >>= fun r => f r.1 r.2) = _
  rw [h, ok_bind]

section Loop

variable {chain : List String} {current : Ast} {s : Expander} {name : String} {args : List Ast}

theorem expandHead_form (fuel : ℕ) (h : s.macroCall current = none) :
    expandHead (fuel + 1) chain current s = .ok (.form current, s) := by
  rw [expandHead, get_bind_apply, h]
  rfl

theorem expandHead_circular (fuel : ℕ) (h : s.macroCall current = some (name, args))
    (hmem : name ∈ chain) :
    expandHead (fuel + 1) chain current s = .ok (.circular name current, s) := by
  rw [expandHead, get_bind_apply, h]
  dsimp only
  rw [if_pos hmem]
  rfl

theorem expandHead_next (fuel : ℕ) (h : s.macroCall current = some (name, args))
    (hmem : name ∉ chain) {r : Ast × Expander}
    (hr : tryExpandMacroCall current name args s = .ok r) :
    expandHead (fuel + 1) chain current s = expandHead fuel (name :: chain) r.1 r.2 := by
  rw [expandHead, get_bind_apply, h]
  dsimp only
  rw [if_neg hmem]
  exact bind_apply_of_ok hr _

end Loop

section Rewrites

variable {σ : ℕ → Ast × Expander} {names : ℕ → String} {n : ℕ}

theorem Rewrites.scopes_eq (h : Rewrites σ names n) {j : ℕ} (hj : j ≤ n) :
    (σ j).2.scopes = (σ 0).2.scopes := by
  induction j with
  | zero => rfl
  | succ j ih =>
    obtain ⟨_, _, _, _, _, _, -, -, -, hrun⟩ := h.step j hj
    rw [runSubst_scopes hrun, ih (Nat.le_of_succ_le hj)]

theorem Rewrites.expandHead_succ (h : Rewrites σ names n) {j : ℕ} (hj : j < n) (fuel : ℕ)
    {chain : List String} (hnew : names j ∉ chain) :
    expandHead (fuel + 1) chain (σ j).1 (σ j).2 =
      expandHead fuel (names j :: chain) (σ (j + 1)).1 (σ (j + 1)).2 := by
  obtain ⟨args, name, literals, rules, template, bindings, hcall, hlookup, hrule, hrun⟩ :=
    h.step j hj
  refine expandHead_next fuel hcall hnew ?_
  rw [tryExpandMacroCall, get_bind_apply, hlookup]
  dsimp only
  rw [hrule]
  exact hrun

theorem Rewrites.expandHead_add (h : Rewrites σ names n) {k : ℕ} (hk : k ≤ n)
    (hdistinct : (macroNames names k).Nodup) (fuel : ℕ) :
    expandHead (fuel + k) [] (σ 0).1 (σ 0).2 =
      expandHead fuel (macroNames names k) (σ k).1 (σ k).2 := by
  induction k generalizing fuel with
  | zero => rfl
  | succ k ih =>
    rw [macroNames_succ, List.nodup_cons] at hdistinct
    rw [← Nat.add_assoc, Nat.add_right_comm, ih (Nat.le_of_succ_le hk) hdistinct.2,
      h.expandHead_succ hk fuel hdistinct.1, macroNames_succ]

theorem Rewrites.mem_scopes (h : Rewrites σ names n) {j : ℕ} (hj : j < n) :
    names j ∈ (σ 0).2.scopes.flatten.map Prod.fst := by
  obtain ⟨_, _, _, _, _, _, -, hlookup, -⟩ := h.step j hj
  rw [Expander.lookupMacro, h.scopes_eq hj.le] at hlookup
  obtain ⟨scope, hscope, hfound⟩ := List.exists_of_findSome?_eq_some hlookup
  obtain ⟨before, after, rfl, -⟩ := List.lookup_eq_some_iff.mp hfound
  exact List.mem_map.mpr
    ⟨_, List.mem_flatten.mpr ⟨_, hscope, List.mem_append_right before List.mem_cons_self⟩, rfl⟩

theorem Rewrites.length_le (h : Rewrites σ names n) {k : ℕ} (hk : k ≤ n)
    (hdistinct : (macroNames names k).Nodup) : k + 1 ≤ (σ 0).2.loopFuel := by
  have hsub : macroNames names k ⊆ (σ 0).2.scopes.flatten.map Prod.fst := by
    intro name hname
    obtain ⟨j, hj, rfl⟩ := mem_macroNames.mp hname
    exact h.mem_scopes (hj.trans_le hk)
  have hle := (List.subperm_of_subset hdistinct hsub).length_le
  simp only [macroNames, List.length_map, List.length_reverse, List.length_range] at hle
  exact Nat.succ_le_succ hle

theorem expandNode_of_head {depth : ℕ} {ast : Ast} {s : Expander} {r : Head × Expander}
    (h : expandHead s.loopFuel [] ast s = .ok r) :
    expandNode (depth + 1) ast s =
      match r.1 with
      | .circular name current =>
        .ok (current, r.2.report ("Circular macro expansion detected: '" ++ name ++
          "' expands back to itself"))
      | .form current => expandForm (expandNode depth) current r.2 := by
  rw [expandNode, get_bind_apply, bind_apply_of_ok h]
  cases r.1 with
  | circular name current => rfl
  | form current => rfl

/-- **A chain of replacements through different macros is followed to its end**: the call expands
to what the form at the end does. A chain in which a macro comes again is reported as circular, and
the call reached is left. -/
theorem expandNode_rewrites (h : Rewrites σ names n)
    (hend : (σ n).2.macroCall (σ n).1 = none) (depth : ℕ) :
    ((macroNames names n).Nodup → expandNode (depth + 1) (σ 0).1 (σ 0).2 =
      expandNode (depth + 1) (σ n).1 (σ n).2) ∧
    ∀ k < n, (macroNames names k).Nodup → names k ∈ macroNames names k →
      expandNode (depth + 1) (σ 0).1 (σ 0).2 =
        .ok ((σ k).1, (σ k).2.report ("Circular macro expansion detected: '" ++ names k ++
          "' expands back to itself")) := by
  constructor
  · intro hdistinct
    obtain ⟨fuel, hfuel⟩ := Nat.exists_eq_add_of_le (h.length_le le_rfl hdistinct)
    have hhead : expandHead (σ 0).2.loopFuel [] (σ 0).1 (σ 0).2 = .ok (.form (σ n).1, (σ n).2) := by
      rw [hfuel, Nat.add_comm, ← Nat.add_assoc, Nat.add_right_comm, h.expandHead_add le_rfl hdistinct,
        expandHead_form _ hend]
    rw [expandNode_of_head hhead, expandNode_of_head (expandHead_form _ hend)]
  · intro k hk hdistinct hagain
    obtain ⟨fuel, hfuel⟩ := Nat.exists_eq_add_of_le (h.length_le hk.le hdistinct)
    obtain ⟨args, _, _, _, _, _, hcall, -⟩ := h.step k hk
    have hhead : expandHead (σ 0).2.loopFuel [] (σ 0).1 (σ 0).2 =
        .ok (.circular (names k) (σ k).1, (σ k).2) := by
      rw [hfuel, Nat.add_comm, ← Nat.add_assoc, Nat.add_right_comm, h.expandHead_add hk.le hdistinct,
        expandHead_circular _ hcall hagain]
    rw [expandNode_of_head hhead]

end Rewrites

/-- A call of a function by name. -/
def callOf (name : String) (args : List Ast) : Ast := .call .call (some (.var name)) args

/-- A rule with pattern variables for all arguments. -/
def sampleRule (vars : List String) (template : Ast) : MacroRule :=
  .mk (.list (("_" :: vars).map (.variable · false)) false) (.literal template)

/-- `one` makes `(one a)` to `(two a)` and `two` makes `(two a)` to `a`; `drop` makes `(drop a b)` to
`(drop a)` and that to `a`. -/
def sampleExpander : Expander where
  scopes :=
    [[("one", .mk "one" [] [sampleRule ["a"] (callOf "two" [.var "a"])]),
      ("two", .mk "two" [] [sampleRule ["a"] (.var "a")]),
      ("drop", .mk "drop" [] [sampleRule ["a", "b"] (callOf "drop" [.var "a"]),
        sampleRule ["a"] (.var "a")])]]
  counter := 0
  errors := []

theorem expandNode_one_two :
    expandNode 1000 (callOf "one" [.var "p"]) sampleExpander =
      expandNode 1000 (.var "p") sampleExpander := by
  let σ : ℕ → Ast × Expander := fun j =>
    (if j = 0 then callOf "one" [.var "p"] else if j = 1 then callOf "two" [.var "p"]
      else .var "p", sampleExpander)
  let names : ℕ → String := fun j => if j = 0 then "one" else "two"
  have h : Rewrites σ names 2 := by
    refine ⟨fun j hj => ?_⟩
    match j with
    | 0 => exact ⟨_, _, _, _, _, _, rfl, rfl, rfl, rfl⟩
    | 1 => exact ⟨_, _, _, _, _, _, rfl, rfl, rfl, rfl⟩
  exact (expandNode_rewrites h rfl 999).1 (by simp [macroNames, names, List.range_succ])

/-- The expansion of `(drop p q)` stops at `(drop p)` with a report, although one more step gives
`p`. -/
theorem expandNode_reports_circularity :
    (Rewrites
        (fun j => (if j = 0 then callOf "drop" [.var "p", .var "q"]
          else if j = 1 then callOf "drop" [.var "p"] else .var "p", sampleExpander))
        (fun _ => "drop") 2 ∧ sampleExpander.macroCall (.var "p") = none) ∧
    expandNode 1000 (callOf "drop" [.var "p", .var "q"]) sampleExpander =
      .ok (callOf "drop" [.var "p"], sampleExpander.report
        ("Circular macro expansion detected: '" ++ "drop" ++ "' expands back to itself")) ∧
    expandNode 1000 (.var "p") sampleExpander = .ok (.var "p", sampleExpander) := by
  refine ⟨⟨⟨fun j hj => ?_⟩, rfl⟩, rfl, rfl⟩
  match j with
  | 0 => exact ⟨_, _, _, _, _, _, rfl, rfl, rfl, rfl⟩
  | 1 => exact ⟨_, _, _, _, _, _, rfl, rfl, rfl, rfl⟩

end Eshkol.Frontend
