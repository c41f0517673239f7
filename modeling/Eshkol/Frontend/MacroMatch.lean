import Eshkol.Frontend.Ast
import Mathlib.Data.List.Forall2

/-!
# Matching of Macro Patterns

The matcher of `syntax-rules` patterns (`MacroExpander::matchPattern` and `matchPatternSeq`,
`lib/frontend/macro_expander.cpp`). A variable under ellipses is bound to a tree of the forms it
matched, one level for each ellipsis. An element that is followed by an ellipsis takes all the
arguments that are left: the grammar of the expander has an ellipsis only at the end of a list.

`Matches` is the relation of the language report, where an ellipsis may stand anywhere in a list.
-/

namespace Eshkol.Frontend

/-! ### Bindings -/

inductive MatchTree : Type
  | mk (depth : ℕ) (scalar : Ast) (elements : List MatchTree)

/-- `Bindings`: the entry of a name nearest to the front is the one in force. -/
abbrev Bindings : Type := List (String × MatchTree)

namespace MacroPattern

def followedByEllipsis : MacroPattern → Bool
  | .literal _ ellipsis | .variable _ ellipsis | .list _ ellipsis => ellipsis

@[elab_as_elim]
theorem induct {p : MacroPattern → Prop} (literal : ∀ id e, p (.literal id e))
    (var : ∀ id e, p (.variable id e))
    (list : ∀ es e, (∀ q ∈ es, p q) → p (.list es e)) : ∀ q, p q
  | .literal id e => literal id e
  | .variable id e => var id e
  | .list es e => list es e fun q _ => induct literal var list q
termination_by q => sizeOf q
decreasing_by
  have := List.sizeOf_lt_of_mem ‹q ∈ es›
  rw [MacroPattern.list.sizeOf_spec]
  omega

end MacroPattern

mutual

def collectPatternVarDepths : MacroPattern → ℕ → List (String × ℕ) → List (String × ℕ)
  | .variable id _, depth, out =>
    if id = "" ∨ id = "_" then out else (id, depth) :: out.filter (·.1 ≠ id)
  | .literal _ _, _, out => out
  | .list elements _, depth, out => collectElementDepths elements depth out

/-- The depths of the variables of several elements. -/
def collectElementDepths : List MacroPattern → ℕ → List (String × ℕ) → List (String × ℕ)
  | [], _, out => out
  | e :: es, depth, out =>
    collectElementDepths es depth
      (collectPatternVarDepths e (if e.followedByEllipsis then depth + 1 else depth) out)

end

/-- The binding of a variable to what it matched in each repetition. -/
def mergeVariable (repetitions : List Bindings) (name : String) (depth : ℕ) : MatchTree :=
  .mk (depth + 1) (.literal .null)
    (repetitions.map fun r => (r.lookup name).getD (.mk depth (.literal .null) []))

/-- The bindings of an element under an ellipsis, from those of its repetitions. -/
def mergeRepetitions (e : MacroPattern) (repetitions : List Bindings) (bindings : Bindings) :
    Bindings :=
  (collectPatternVarDepths e 0 []).map (fun v => (v.1, mergeVariable repetitions v.1 v.2)) ++
    bindings

/-! ### The matcher -/

def isSymbol (ast : Ast) (name : String) : Bool :=
  match ast with
  | .var id => id = name
  | _ => false

/-- The items of a call, with the function first. -/
def callItems : Ast → Option (List Ast)
  | .call .call (some func) args => some (func :: args)
  | _ => none

mutual

def matchPattern : MacroPattern → Ast → Bindings → Option Bindings
  | .variable id _, ast, bindings =>
    if id = "_" then some bindings else some ((id, .mk 0 ast []) :: bindings)
  | .literal id _, ast, bindings => if isSymbol ast id then some bindings else none
  | .list elements _, ast, bindings =>
    match callItems ast with
    | some items => matchPatternSeq elements items bindings
    | none => none

/-- `matchPatternSeq`, from an element and an argument on. -/
def matchPatternSeq : List MacroPattern → List Ast → Bindings → Option Bindings
  | [], args, bindings => if args.isEmpty then some bindings else none
  | e :: es, args, bindings =>
    if e.followedByEllipsis then
      match args.mapM fun a => matchPattern e a [] with
      | some repetitions => matchPatternSeq es [] (mergeRepetitions e repetitions bindings)
      | none => none
    else match args with
      | [] => none
      | a :: args =>
        match matchPattern e a bindings with
        | some bindings => matchPatternSeq es args bindings
        | none => none

end

theorem matchPatternSeq_cons (e : MacroPattern) (es : List MacroPattern) (args : List Ast)
    (bindings : Bindings) :
    matchPatternSeq (e :: es) args bindings =
      if e.followedByEllipsis then
        match args.mapM fun a => matchPattern e a [] with
        | some repetitions => matchPatternSeq es [] (mergeRepetitions e repetitions bindings)
        | none => none
      else match args with
        | [] => none
        | a :: args =>
          match matchPattern e a bindings with
          | some bindings => matchPatternSeq es args bindings
          | none => none :=
  rfl

/-- What the parser makes of `()`: a call of `list`. -/
def emptyList : Ast := .call .call (some (.var "list")) []

/-! ### The relation of the report -/

mutual

/-- A form matches a pattern. -/
def Matches : MacroPattern → Ast → Prop
  | .variable _ _, _ => True
  | .literal id _, ast => ast = .var id
  | .list elements _, ast => ∃ items, callItems ast = some items ∧ MatchesSeq elements items

/-- Forms match the elements of a list: an element followed by an ellipsis any number of forms,
another element one. -/
def MatchesSeq : List MacroPattern → List Ast → Prop
  | [], args => args = []
  | e :: es, args =>
    ∃ repetitions rest, args = repetitions ++ rest ∧
      (e.followedByEllipsis = false → repetitions.length = 1) ∧
      (∀ a ∈ repetitions, Matches e a) ∧ MatchesSeq es rest

end

mutual

/-- In every list of a pattern only the last element is followed by an ellipsis. -/
def EllipsisLast : MacroPattern → Prop
  | .variable _ _ => True
  | .literal _ _ => True
  | .list elements _ => AllEllipsisLast elements

/-- Of the elements of a list only the last is followed by an ellipsis. -/
def AllEllipsisLast : List MacroPattern → Prop
  | [] => True
  | e :: es => (e.followedByEllipsis = true → es = []) ∧ EllipsisLast e ∧ AllEllipsisLast es

end

/-! ### The matcher and the relation -/

theorem mapM_isSome {α β : Type} (f : α → Option β) (as : List α) :
    (as.mapM f).isSome = true ↔ ∀ a ∈ as, (f a).isSome = true := by
  induction as with
  | nil => simp
  | cons a as ih =>
    rw [List.forall_mem_cons, ← ih, List.mapM_cons]
    cases f a with
    | none => simp
    | some b => cases as.mapM f <;> simp

theorem matchesSeq_cons_of_not {e : MacroPattern} (he : e.followedByEllipsis = false)
    (es : List MacroPattern) (args : List Ast) :
    MatchesSeq (e :: es) args ↔ ∃ a rest, args = a :: rest ∧ Matches e a ∧ MatchesSeq es rest := by
  rw [MatchesSeq]
  constructor
  · rintro ⟨reps, rest, rfl, hone, hreps, hrest⟩
    obtain ⟨a, rfl⟩ := List.length_eq_one_iff.mp (hone he)
    exact ⟨a, rest, rfl, hreps a (List.mem_singleton.mpr rfl), hrest⟩
  · rintro ⟨a, rest, rfl, ha, hrest⟩
    exact ⟨[a], rest, rfl, fun _ => rfl, by simpa using ha, hrest⟩

theorem matchesSeq_singleton {e : MacroPattern} (he : e.followedByEllipsis = true)
    (args : List Ast) : MatchesSeq [e] args ↔ ∀ a ∈ args, Matches e a := by
  simp [MatchesSeq, he]

section Seq

variable {es : List MacroPattern}

theorem matchPatternSeq_isSome
    (hes : ∀ e ∈ es, ∀ a b, (matchPattern e a b).isSome = true ↔ Matches e a)
    (hlast : AllEllipsisLast es) (args : List Ast) (bindings : Bindings) :
    (matchPatternSeq es args bindings).isSome = true ↔ MatchesSeq es args := by
  induction es generalizing args bindings with
  | nil => cases args <;> simp [matchPatternSeq, MatchesSeq]
  | cons e es ih =>
    rw [List.forall_mem_cons] at hes
    rw [AllEllipsisLast] at hlast
    cases he : e.followedByEllipsis with
    | true =>
      obtain rfl : es = [] := hlast.1 he
      simp only [matchesSeq_singleton he, ← fun a => hes.1 a [], ← mapM_isSome,
        matchPatternSeq, he, if_true]
      cases args.mapM fun a => matchPattern e a [] <;> rfl
    | false =>
      rw [matchesSeq_cons_of_not he]
      cases args with
      | nil => simp [matchPatternSeq, he]
      | cons a args =>
        have ha := hes.1 a bindings
        simp only [matchPatternSeq, he, Bool.false_eq_true, if_false]
        cases hm : matchPattern e a bindings with
        | none =>
          simp only [hm, Option.isSome_none, Bool.false_eq_true, false_iff] at ha
          simp [ha]
        | some bindings =>
          simp only [hm, Option.isSome_some, true_iff] at ha
          simp [ha, ih hes.2 hlast.2.2]

theorem matchPatternSeq_append {pre : List MacroPattern} {pe : MacroPattern}
    (hpre : ∀ p ∈ pre, p.followedByEllipsis = false) (hpe : pe.followedByEllipsis = true)
    (args : List Ast) :
    MatchesSeq (pre ++ [pe]) args ↔ pre.length ≤ args.length ∧
      List.Forall₂ Matches pre (args.take pre.length) ∧
        ∀ a ∈ args.drop pre.length, Matches pe a := by
  induction pre generalizing args with
  | nil => simp [matchesSeq_singleton hpe]
  | cons p pre ih =>
    rw [List.forall_mem_cons] at hpre
    rw [List.cons_append, matchesSeq_cons_of_not hpre.1]
    constructor
    · rintro ⟨a, rest, rfl, ha, hrest⟩
      obtain ⟨hlen, htake, hdrop⟩ := (ih hpre.2 rest).mp hrest
      exact ⟨Nat.succ_le_succ hlen, .cons ha htake, hdrop⟩
    · rintro ⟨hlen, htake, hdrop⟩
      cases args with
      | nil => cases hlen
      | cons a rest =>
        obtain ⟨ha, htake⟩ := List.forall₂_cons.mp htake
        exact ⟨a, rest, rfl, ha, (ih hpre.2 rest).mpr ⟨Nat.le_of_succ_le_succ hlen, htake, hdrop⟩⟩

theorem matchPatternSeq_eq_none {pre post : List MacroPattern} {pe : MacroPattern}
    (hpe : pe.followedByEllipsis = true) (hpost : post ≠ [])
    (hpost' : ∀ p ∈ post, p.followedByEllipsis = false) (args : List Ast) (bindings : Bindings) :
    matchPatternSeq (pre ++ pe :: post) args bindings = none := by
  have hnone : ∀ b, matchPatternSeq post [] b = none := by
    intro b
    cases post with
    | nil => exact absurd rfl hpost
    | cons p post => simp [matchPatternSeq, hpost' p List.mem_cons_self]
  induction pre generalizing args bindings with
  | nil =>
    rw [List.nil_append, matchPatternSeq_cons, if_pos hpe]
    cases args.mapM fun a => matchPattern pe a [] with
    | none => rfl
    | some repetitions => exact hnone _
  | cons p pre ih =>
    rw [List.cons_append, matchPatternSeq_cons]
    by_cases hp : p.followedByEllipsis = true
    · rw [if_pos hp]
      cases args.mapM fun a => matchPattern p a [] with
      | none => rfl
      | some repetitions => exact ih _ _
    · rw [if_neg hp]
      cases args with
      | nil => rfl
      | cons a args =>
        dsimp only
        cases matchPattern p a bindings with
        | none => rfl
        | some bindings => exact ih _ _

end Seq

theorem AllEllipsisLast.of_mem {es : List MacroPattern} (h : AllEllipsisLast es)
    {e : MacroPattern} (he : e ∈ es) : EllipsisLast e := by
  induction es with
  | nil => cases he
  | cons d es ih =>
    rw [AllEllipsisLast] at h
    rcases List.mem_cons.mp he with rfl | he
    · exact h.2.1
    · exact ih h.2.2 he

theorem matchPattern_isSome {q : MacroPattern} (hlast : EllipsisLast q) (ast : Ast)
    (bindings : Bindings) : (matchPattern q ast bindings).isSome = true ↔ Matches q ast := by
  induction q using MacroPattern.induct generalizing ast bindings with
  | literal id e =>
    cases ast <;> simp [matchPattern, isSymbol, Matches]
  | var id e =>
    rw [matchPattern, Matches]
    split <;> simp
  | list es e ih =>
    rw [EllipsisLast] at hlast
    have hes : ∀ q ∈ es, ∀ a b, (matchPattern q a b).isSome = true ↔ Matches q a :=
      fun q hq a b => ih q hq (hlast.of_mem hq) a b
    rw [Matches]
    cases hitems : callItems ast with
    | none => simp [matchPattern, hitems]
    | some items => simp [matchPattern, hitems, matchPatternSeq_isSome hes hlast]

/-- **A list pattern with an ellipsis** matches if nothing stands behind the ellipsis, the elements
before it match the first arguments and the repeated element matches each of the others. The empty
list matches a pattern of one element with an ellipsis. -/
theorem matchPatternSeq_iff {pre post : List MacroPattern} {pe : MacroPattern}
    (hpre : ∀ p ∈ pre, p.followedByEllipsis = false) (hpe : pe.followedByEllipsis = true)
    (hpost : ∀ p ∈ post, p.followedByEllipsis = false)
    (hlast : EllipsisLast pe ∧ ∀ p ∈ pre, EllipsisLast p) (args : List Ast)
    (bindings : Bindings) :
    ((matchPatternSeq (pre ++ pe :: post) args bindings).isSome = true ↔
      post = [] ∧ pre.length ≤ args.length ∧ List.Forall₂ Matches pre (args.take pre.length) ∧
        ∀ a ∈ args.drop pre.length, Matches pe a) ∧
    ∀ x ellipsis bindings,
      (matchPattern (.list [.variable x true] ellipsis) emptyList bindings).isSome = true := by
  constructor
  · by_cases hnil : post = []
    · subst hnil
      have hall : AllEllipsisLast (pre ++ [pe]) := by
        clear bindings args
        induction pre with
        | nil => exact ⟨fun _ => rfl, hlast.1, trivial⟩
        | cons p pre ih =>
          rw [List.forall_mem_cons] at hpre hlast
          exact ⟨fun hp => absurd hp (by simp [hpre.1]), hlast.2.1,
            ih hpre.2 ⟨hlast.1, hlast.2.2⟩⟩
      rw [matchPatternSeq_isSome (fun e he a b => matchPattern_isSome (hall.of_mem he) a b) hall,
        matchPatternSeq_append hpre hpe]
      simp
    · rw [matchPatternSeq_eq_none hpe hnil hpost]
      simp [hnil]
  · intro x ellipsis b
    have hx : EllipsisLast (.list [.variable x true] ellipsis) := ⟨fun _ => rfl, trivial, trivial⟩
    rw [matchPattern_isSome hx]
    exact ⟨[.var "list"], rfl, (matchesSeq_singleton rfl _).mpr (by simp [Matches])⟩

theorem matchPatternSeq_two_args :
    ((matchPatternSeq ([.variable "a" false] ++ .variable "b" true :: []) [.var "p", .var "q"]
        []).isSome = true ↔
      ([] : List MacroPattern) = [] ∧ 1 ≤ 2 ∧
        List.Forall₂ Matches [.variable "a" false] [.var "p"] ∧
          ∀ a ∈ [Ast.var "q"], Matches (.variable "b" true) a) ∧
    ∀ x ellipsis bindings,
      (matchPattern (.list [.variable x true] ellipsis) emptyList bindings).isSome = true :=
  matchPatternSeq_iff (by simp [MacroPattern.followedByEllipsis]) rfl (List.forall_mem_nil _)
    (by simp [EllipsisLast]) [.var "p", .var "q"] []

/-- With an element behind the ellipsis, arguments that match by the report are rejected. -/
theorem matchPatternSeq_rejects_tail :
    (matchPatternSeq ([] ++ .variable "x" true :: [.variable "y" false]) [.var "p", .var "q"]
        []).isSome = false ∧
      (0 + 1 ≤ 2 ∧ Matches (.variable "x" true) (.var "p") ∧
        Matches (.variable "y" false) (.var "q")) ∧
      MatchesSeq [.variable "x" true, .variable "y" false] [.var "p", .var "q"] := by
  refine ⟨rfl, ⟨by omega, trivial, trivial⟩, ?_⟩
  exact ⟨[.var "p"], [.var "q"], rfl, by simp [MacroPattern.followedByEllipsis],
    by simp [Matches], [.var "q"], [], rfl, fun _ => rfl, by simp [Matches], rfl⟩

end Eshkol.Frontend
