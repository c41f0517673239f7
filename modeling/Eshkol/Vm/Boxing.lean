import Mathlib.Logic.Relation
import Eshkol.Vm.Syntax

/-!
# Boxing of Captured Variables

A variable that a `let` of the VM binds is put in a box, that closures share, if the body both
assigns it and captures it. The compiler decides that by a scan of the body: `scan_for_set`,
`scan_for_capture` and `needs_boxing` (`lib/backend/vm_parser.c`), on the first 64 expressions of
the body (`compile_form_let`, `lib/backend/vm_compiler.c`).

Against the scan stands the scope of the variable: `VisiblePart` goes from an expression to a part
of it in which the variable is visible. The scan follows it, but for the forms that are
`Overlooked`. It does not look into a `let`, `let*` or `letrec` that binds the variable again,
neither at its body nor at its initial values; but an initial value of a `let` is outside of the
scope of its variables, and may capture the outer one.
-/

namespace Eshkol.Vm

/-! ### The scan -/

/-- Whether a list is `(set! x e ...)`. -/
def setsHere (x : Name) (ts : List Node) : Bool :=
  match ts with
  | h :: y :: _ :: _ => isSym h (ascii "set!") && isSym y x
  | _ => false

mutual

def scanForSet (x : Name) : Node → Bool
  | .list _ ts => setsHere x ts || scanForSetAny x ts
  | .symbol _ _ => false
  | .number _ => false
  | .string _ => false
  | .bool _ => false

/-- The loop over the children. -/
def scanForSetAny (x : Name) : List Node → Bool
  | [] => false
  | t :: ts => scanForSet x t || scanForSetAny x ts

end

/-- The forms that `scan_for_capture` knows. -/
inductive CaptureForm : Type
  | define
  | lambda
  | shortLambda
  | namedLet
  | binding
  | other
  deriving DecidableEq

/-- Which form a list is. -/
def captureForm : List Node → CaptureForm
  | [] => .other
  | h :: args =>
    if isSym h (ascii "define") then
      match args with
      | .list _ _ :: _ :: _ => .define
      | _ => .other
    else if isSym h (ascii "lambda") then
      match args with
      | _ :: _ :: _ => .lambda
      | _ => .shortLambda
    else if isSym h (ascii "let") then
      match args with
      | .symbol _ _ :: .list _ _ :: _ :: _ => .namedLet
      | .list _ _ :: _ :: _ => .binding
      | _ => .other
    else if isSym h (ascii "let*") || isSym h (ascii "letrec") then
      match args with
      | .list _ _ :: _ :: _ => .binding
      | _ => .other
    else .other

/-- The children of a list. -/
def Node.children : Node → List Node
  | .list _ ts => ts
  | _ => []

/-- Whether a name is among some parameters. -/
def rebinds (x : Name) (params : List Node) : Bool := params.any fun p => isSym p x

/-- Whether a name is bound by some bindings of a `let`. -/
def bindsName (x : Name) (bs : List Node) : Bool :=
  bs.any fun b =>
    match b.children with
    | v :: _ => isSym v x
    | [] => false

/-- The bindings of a `let`. -/
def letBindings (ts : List Node) : List Node :=
  match ts with
  | _ :: bs :: _ => bs.children
  | _ => []

mutual

def scanForCapture (x : Name) : Node → Bool → Bool
  | .symbol name _, inLambda => inLambda && name = x
  | .list _ ts, inLambda =>
    match captureForm ts, ts with
    | .define, _ :: .list _ sig :: body => !rebinds x sig.tail && scanForCaptureAny x body true
    | .lambda, _ :: params :: body =>
      !rebinds x params.children && scanForCaptureAny x body true
    | .namedLet, _ :: loop :: .list _ bs :: body =>
      scanInits x bs inLambda ||
        (!(isSym loop x || bindsName x bs) && scanForCaptureAny x body true)
    | .binding, ts => !bindsName x (letBindings ts) && scanForCaptureAny x ts inLambda
    | .shortLambda, ts => scanForCaptureAny x ts true
    | _, ts => scanForCaptureAny x ts inLambda
  | .number _, _ => false
  | .string _, _ => false
  | .bool _, _ => false

/-- The loop over the children. -/
def scanForCaptureAny (x : Name) : List Node → Bool → Bool
  | [], _ => false
  | t :: ts, inLambda => scanForCapture x t inLambda || scanForCaptureAny x ts inLambda

/-- The loop over the initial values of a named `let`. -/
def scanInits (x : Name) : List Node → Bool → Bool
  | [], _ => false
  | .list _ (_ :: init :: _) :: bs, inLambda =>
    scanForCapture x init inLambda || scanInits x bs inLambda
  | _ :: bs, inLambda => scanInits x bs inLambda

end

def needsBoxing (bodies : List Node) (x : Name) : Bool :=
  bodies.any (scanForSet x) && bodies.any fun b => scanForCapture x b false

/-- The use of `needs_boxing` in `compile_form_let`: at most 64 expressions of the body are
collected for the scan. -/
def letBoxes (bodies : List Node) (x : Name) : Bool := needsBoxing (bodies.take 64) x

/-! ### Lexical scope -/

/-- The names that formal parameters bind; a bare dot is no name. -/
def formalNames (formals : List Node) : List Name :=
  formals.filterMap fun
    | .symbol name verbatim => if !verbatim && name = ascii "." then none else some name
    | _ => none

/-- The keyword that a form begins with, if no variable in scope has its name. -/
def keyword (env : List Name) (h : Node) : Option Name :=
  h.symbolName.bind fun k => if k ∈ env then none else some k

/-- The bindings of a `let`, if they are well formed. -/
def bindingPairs (bs : List Node) : Option (List (Name × Node)) :=
  bs.mapM fun
    | .list _ [.symbol name _, init] => some (name, init)
    | _ => none

/-- The variables of a `do`, with their initial values and steps, if they are well formed. -/
def doSpecs (bs : List Node) : Option (List (Name × Node × List Node)) :=
  bs.mapM fun
    | .list _ [.symbol name _, init] => some (name, init, [])
    | .list _ [.symbol name _, init, step] => some (name, init, [step])
    | _ => none

mutual

/-- The expressions in a quasi-quoted template, below a number of inner quasi-quotations. -/
def unquoted : ℕ → Node → List Node
  | depth, .list _ [.symbol k verbatim, e] =>
    if k = ascii "unquote" ∨ k = ascii "unquote-splicing" then
      match depth with
      | 0 => [e]
      | depth + 1 => unquoted depth e
    else if k = ascii "quasiquote" then unquoted (depth + 1) e
    else unquotedAll depth [.symbol k verbatim, e]
  | depth, .list _ ts => unquotedAll depth ts
  | _, .symbol _ _ => []
  | _, .number _ => []
  | _, .string _ => []
  | _, .bool _ => []

/-- The expressions in the elements of a template. -/
def unquotedAll : ℕ → List Node → List Node
  | _, [] => []
  | depth, t :: ts => unquoted depth t ++ unquotedAll depth ts

end

mutual

/-- The names that an expression of a body defines for the whole of the body. -/
def definedNames (env : List Name) : Node → List Name
  | .list _ (h :: args) =>
    if keyword env h = some (ascii "define") then
      match args with
      | .symbol name _ :: _ => [name]
      | .list _ (.symbol name _ :: _) :: _ => [name]
      | _ => []
    else if keyword env h = some (ascii "begin") then definedNamesAll env args
    else []
  | _ => []

/-- The names that the expressions of a body define. -/
def definedNamesAll (env : List Name) : List Node → List Name
  | [] => []
  | t :: ts => definedNames env t ++ definedNamesAll env ts

end

/-- The names that are bound in the body of a form, by the form and by definitions in the body. -/
def bodyNames (bound env : List Name) (body : List Node) : List Name :=
  definedNamesAll (bound ++ env) body ++ bound

/-- A keyword of a form that is not made of expressions in one scope. -/
def scopingKeywords : List Name :=
  [ascii "quote", ascii "quasiquote", ascii "lambda", ascii "define", ascii "let", ascii "let*",
    ascii "letrec", ascii "letrec*", ascii "do"]

/-- A form binds names in its body, that is the body of a closure or not. -/
inductive BindsIn (env : List Name) : List Node → List Name → Bool → List Node → Prop
  | lambda {h : Node} {v : Bool} {formals body : List Node}
      (hk : keyword env h = some (ascii "lambda")) :
      BindsIn env (h :: .list v formals :: body) (formalNames formals) true body
  | variadic {h : Node} {rest : Name} {verbatim : Bool} {body : List Node}
      (hk : keyword env h = some (ascii "lambda")) :
      BindsIn env (h :: .symbol rest verbatim :: body) [rest] true body
  | define {h f : Node} {v : Bool} {formals body : List Node}
      (hk : keyword env h = some (ascii "define")) :
      BindsIn env (h :: .list v (f :: formals) :: body) (formalNames formals) true body
  | namedLet {h : Node} {name : Name} {verbatim v : Bool} {bs body : List Node}
      {pairs : List (Name × Node)} (hk : keyword env h = some (ascii "let"))
      (hbs : bindingPairs bs = some pairs) :
      BindsIn env (h :: .symbol name verbatim :: .list v bs :: body)
        (name :: pairs.map Prod.fst) true body
  | binding {h : Node} {k : Name} {v : Bool} {bs body : List Node} {pairs : List (Name × Node)}
      (hk : keyword env h = some k)
      (hlet : k ∈ [ascii "let", ascii "let*", ascii "letrec", ascii "letrec*"])
      (hbs : bindingPairs bs = some pairs) :
      BindsIn env (h :: .list v bs :: body) (pairs.map Prod.fst) false body

/-- A variable is visible in an initial value of a `let`, `let*` or `letrec`, with the names that
are bound for it. -/
inductive VisibleInit (x : Name) : Name → List (Name × Node) → List Name → Node → Prop
  | parallel {pairs : List (Name × Node)} {p : Name × Node} (hp : p ∈ pairs) :
      VisibleInit x (ascii "let") pairs [] p.2
  | sequential {before after : List (Name × Node)} {p : Name × Node}
      (hx : x ∉ before.map Prod.fst) :
      VisibleInit x (ascii "let*") (before ++ p :: after) (before.map Prod.fst) p.2
  | recursive {k : Name} {pairs : List (Name × Node)} {p : Name × Node}
      (hk : k ∈ [ascii "letrec", ascii "letrec*"]) (hx : x ∉ pairs.map Prod.fst)
      (hp : p ∈ pairs) : VisibleInit x k pairs (pairs.map Prod.fst) p.2

/-- An expression in a body, with the variables in scope and whether it is within the body of a
closure that the body makes. -/
structure Site where
  env : List Name
  closure : Bool
  node : Node

/-- An outer variable is visible in a part of an expression. -/
inductive VisiblePart (x : Name) : Site → Site → Prop
  | call {env : List Name} {c v : Bool} {h e : Node} {args : List Node}
      (hk : ∀ k ∈ scopingKeywords, keyword env h ≠ some k) (he : e ∈ h :: args) :
      VisiblePart x ⟨env, c, .list v (h :: args)⟩ ⟨env, c, e⟩
  | template {env : List Name} {c v : Bool} {h e : Node} {args : List Node}
      (hk : keyword env h = some (ascii "quasiquote")) (he : e ∈ unquotedAll 0 args) :
      VisiblePart x ⟨env, c, .list v (h :: args)⟩ ⟨env, c, e⟩
  | definition {env : List Name} {c v verbatim : Bool} {h e : Node} {name : Name} {es : List Node}
      (hk : keyword env h = some (ascii "define")) (he : e ∈ es) :
      VisiblePart x ⟨env, c, .list v (h :: .symbol name verbatim :: es)⟩ ⟨env, c, e⟩
  | body {env bound : List Name} {c c' v : Bool} {e : Node} {ts body : List Node}
      (hform : BindsIn env ts bound c' body) (hx : x ∉ bodyNames bound env body) (he : e ∈ body) :
      VisiblePart x ⟨env, c, .list v ts⟩ ⟨bodyNames bound env body ++ env, c || c', e⟩
  | init {env bound : List Name} {c v w : Bool} {h e : Node} {k : Name} {bs body : List Node}
      {pairs : List (Name × Node)} (hk : keyword env h = some k)
      (hbs : bindingPairs bs = some pairs) (he : VisibleInit x k pairs bound e) :
      VisiblePart x ⟨env, c, .list v (h :: .list w bs :: body)⟩ ⟨bound ++ env, c, e⟩
  | namedInit {env : List Name} {c v w verbatim : Bool} {h b : Node} {name : Name}
      {bs body : List Node} {pairs : List (Name × Node)} {p : Name × Node}
      (hk : keyword env h = some (ascii "let")) (hbs : bindingPairs bs = some pairs)
      (hp : p ∈ pairs) :
      VisiblePart x ⟨env, c, .list v (h :: .symbol name verbatim :: .list w bs :: b :: body)⟩
        ⟨env, c, p.2⟩
  | loopInit {env : List Name} {c v w : Bool} {h : Node} {bs rest : List Node}
      {specs : List (Name × Node × List Node)} {spec : Name × Node × List Node}
      (hk : keyword env h = some (ascii "do")) (hspecs : doSpecs bs = some specs)
      (hspec : spec ∈ specs) :
      VisiblePart x ⟨env, c, .list v (h :: .list w bs :: rest)⟩ ⟨env, c, spec.2.1⟩
  | loopBody {env : List Name} {c v w w' : Bool} {h e : Node} {bs clause body : List Node}
      {specs : List (Name × Node × List Node)} (hk : keyword env h = some (ascii "do"))
      (hspecs : doSpecs bs = some specs) (hx : x ∉ specs.map Prod.fst)
      (he : e ∈ specs.flatMap (fun spec => spec.2.2) ++ clause ++ body) :
      VisiblePart x ⟨env, c, .list v (h :: .list w bs :: .list w' clause :: body)⟩
        ⟨specs.map Prod.fst ++ env, c, e⟩

/-- An expression of a body, seen from around it. -/
def bodySite (env : List Name) (bodies : List Node) (b : Node) : Site :=
  ⟨bodyNames [] env bodies ++ env, false, b⟩

/-- A variable in scope around a body is assigned in one of its expressions. -/
def AssignedAt (env : List Name) (x : Name) (bodies : List Node) (b : Node) : Prop :=
  x ∉ bodyNames [] env bodies ∧ ∃ env' closure v h verbatim value,
    Relation.ReflTransGen (VisiblePart x) (bodySite env bodies b)
      ⟨env', closure, .list v [h, .symbol x verbatim, value]⟩ ∧
    keyword env' h = some (ascii "set!")

/-- A variable in scope around a body is captured in one of its expressions: it occurs free in the
body of a `lambda`, of a procedure definition or of a named `let`. The ways down to the occurrence
may be restricted. -/
def CapturedAt (step : Site → Site → Prop) (env : List Name) (x : Name) (bodies : List Node)
    (b : Node) : Prop :=
  x ∉ bodyNames [] env bodies ∧ ∃ env' verbatim,
    Relation.ReflTransGen step (bodySite env bodies b) ⟨env', true, .symbol x verbatim⟩

/-- A variable in scope around a body is assigned in it. -/
def AssignedIn (env : List Name) (x : Name) (bodies : List Node) : Prop :=
  ∃ b ∈ bodies, AssignedAt env x bodies b

/-- A variable in scope around a body is captured in it. -/
def CapturedIn (env : List Name) (x : Name) (bodies : List Node) : Prop :=
  ∃ b ∈ bodies, CapturedAt (VisiblePart x) env x bodies b

/-! ### Where the scan follows the scope -/

/-- A node is part of another one, at any depth. -/
def Inside : Node → Node → Prop := Relation.ReflTransGen fun n m => m ∈ n.children

/-- The names of the forms that the scan for captures knows. -/
def scanKeywords : List Name :=
  [ascii "define", ascii "lambda", ascii "let", ascii "let*", ascii "letrec"]

/-- A list begins with one of these names. -/
def keywordHeaded : List Node → Bool
  | h :: _ => scanKeywords.any (isSym h)
  | [] => false

/-- A form in whose parts the scan for captures does not follow the scope of a variable: its keyword
is a variable there; it is a `let`, `let*` or `letrec` that binds the variable again, so that its
initial values are passed by; or a list that is no form begins with a keyword, among the bindings
of a `let`, among the variables and the clause of a `do` or in the template of a
quasi-quotation. -/
inductive Overlooked (x : Name) : Site → Prop
  | shadowed {env : List Name} {c v : Bool} {h : Node} {args : List Node} {k : Name}
      (hk : k ∈ scanKeywords) (hh : h.symbolName = some k) (henv : k ∈ env) :
      Overlooked x ⟨env, c, .list v (h :: args)⟩
  | rebound {env : List Name} {c v : Bool} {ts : List Node} (hform : captureForm ts = .binding)
      (hx : bindsName x (letBindings ts) = true) : Overlooked x ⟨env, c, .list v ts⟩
  | binding {env : List Name} {c v w : Bool} {h b : Node} {bs rest : List Node} (hb : b ∈ bs)
      (hkey : keywordHeaded b.children = true) :
      Overlooked x ⟨env, c, .list v (h :: .list w bs :: rest)⟩
  | clause {env : List Name} {c v : Bool} {h bs : Node} {w : Bool} {clause body : List Node}
      (hh : isSym h (ascii "do") = true) (hkey : keywordHeaded clause = true) :
      Overlooked x ⟨env, c, .list v (h :: bs :: .list w clause :: body)⟩
  | template {env : List Name} {c v w : Bool} {h t : Node} {args ts : List Node}
      (hh : isSym h (ascii "quasiquote") = true) (ht : t ∈ args) (hin : Inside t (.list w ts))
      (hkey : keywordHeaded ts = true) : Overlooked x ⟨env, c, .list v (h :: args)⟩

/-- A part to which the scan for captures follows the scope of a variable. -/
def ScannedPart (x : Name) (s t : Site) : Prop := VisiblePart x s t ∧ ¬Overlooked x s

variable {x : Name} {c c' v w : Bool} {h n m t b : Node} {k name : Name}
  {ts args formals body bs : List Node} {env bound : List Name} {pairs : List (Name × Node)}
  {specs : List (Name × Node × List Node)} {s s' : Site}

theorem scanForSetAny_eq_any (x : Name) (ts : List Node) :
    scanForSetAny x ts = ts.any (scanForSet x) := by
  induction ts with
  | nil => rw [scanForSetAny, List.any_nil]
  | cons t ts ih => rw [scanForSetAny, List.any_cons, ih]

theorem scanForSet_of_inside (h : Inside n m) (hm : scanForSet x m = true) :
    scanForSet x n = true := by
  induction h using Relation.ReflTransGen.head_induction_on with
  | refl => exact hm
  | @head n t ht _ ih =>
    cases n with
    | list v ts =>
      rw [scanForSet, scanForSetAny_eq_any, Bool.or_eq_true, List.any_eq_true]
      exact .inr ⟨t, ht, ih⟩
    | number | symbol | string | bool => cases ht

theorem scanForCaptureAny_of_mem (ht : t ∈ ts) (hscan : scanForCapture x t c = true) :
    scanForCaptureAny x ts c = true := by
  induction ts with
  | nil => cases ht
  | cons t' ts ih =>
    rw [scanForCaptureAny, Bool.or_eq_true]
    rcases List.mem_cons.mp ht with rfl | ht
    · exact .inl hscan
    · exact .inr (ih ht)

theorem scanInits_of_mem {verbatim : Bool} {init : Node}
    (hb : .list v [.symbol name verbatim, init] ∈ bs) (hscan : scanForCapture x init c = true) :
    scanInits x bs c = true := by
  induction bs with
  | nil => cases hb
  | cons b bs ih =>
    rcases List.mem_cons.mp hb with rfl | hb
    · rw [scanInits, hscan, Bool.true_or]
    · rw [scanInits.eq_def]
      split
      next heq => cases heq
      next heq =>
        cases heq
        rw [ih ‹_›, Bool.or_true]
      next heq =>
        cases heq
        exact ih ‹_›

/-- What the scan for captures finds at one place, it finds from another one. -/
def Reaches (x : Name) (c : Bool) (n : Node) (c' : Bool) (m : Node) : Prop :=
  scanForCapture x m c' = true → scanForCapture x n c = true

theorem reaches_child (hform : captureForm ts = .other) (ht : t ∈ ts) :
    Reaches x c (.list v ts) c t := by
  intro hscan
  rw [scanForCapture.eq_def]
  simp only [hform]
  exact scanForCaptureAny_of_mem ht hscan

theorem isSym_of_keyword (hk : keyword env h = some k) : isSym h k = true := by
  obtain ⟨name, hname, hk⟩ := Option.bind_eq_some_iff.mp hk
  split at hk
  next => cases hk
  next =>
    cases hk
    exact decide_eq_true hname

theorem isSym_eq_false (hh : isSym n k = true) (hne : k ≠ name) : isSym n name = false := by
  rw [isSym, decide_eq_true_eq] at hh
  rw [isSym, hh, decide_eq_false_iff_not]
  exact fun heq => hne (Option.some.inj heq)

theorem keywordHeaded_of_lists (hlists : ∀ b ∈ bs, ∃ v cs, b = Node.list v cs) :
    keywordHeaded bs = false := by
  cases bs with
  | nil => rfl
  | cons b bs =>
    obtain ⟨v, cs, rfl⟩ := hlists b List.mem_cons_self
    rfl

theorem captureForm_eq_other (hts : keywordHeaded ts = false) : captureForm ts = .other := by
  cases ts with
  | nil => rfl
  | cons n args =>
    rw [keywordHeaded, List.any_eq_false] at hts
    have hno (k : Name) (hk : k ∈ scanKeywords) : isSym n k = false := by
      rw [← Bool.not_eq_true]
      exact hts k hk
    simp [captureForm, hno (ascii "define") (by simp [scanKeywords]),
      hno (ascii "lambda") (by simp [scanKeywords]), hno (ascii "let") (by simp [scanKeywords]),
      hno (ascii "let*") (by simp [scanKeywords]), hno (ascii "letrec") (by simp [scanKeywords])]

theorem reaches_other (hh : isSym h k = true) (hk : k ∉ scanKeywords) (ht : t ∈ h :: args) :
    Reaches x c (.list v (h :: args)) c t := by
  refine reaches_child (captureForm_eq_other ?_) ht
  rw [keywordHeaded, List.any_eq_false]
  intro k' hk'
  rw [isSym_eq_false hh fun heq => hk (heq ▸ hk')]
  exact Bool.false_ne_true

theorem reaches_inside (hin : Inside n m)
    (hplain : ∀ v ts, Inside n (.list v ts) → keywordHeaded ts = false) : Reaches x c n c m := by
  induction hin with
  | refl => exact id
  | @tail k m hin hchild ih =>
    cases k with
    | list v ts => exact ih ∘ reaches_child (captureForm_eq_other (hplain v ts hin)) hchild
    | number | symbol | string | bool => cases hchild

/-! ### Bindings as they are written -/

theorem mem_of_mapM {α β : Type} {f : α → Option β} {xs : List α} {ys : List β}
    (h : xs.mapM f = some ys) :
    (∀ y ∈ ys, ∃ a ∈ xs, f a = some y) ∧ ∀ a ∈ xs, ∃ y ∈ ys, f a = some y := by
  induction xs generalizing ys with
  | nil =>
    cases h
    exact ⟨by simp, by simp⟩
  | cons a xs ih =>
    rw [List.mapM_cons] at h
    obtain ⟨y, hy, h⟩ := Option.bind_eq_some_iff.mp h
    obtain ⟨ys', hys, h⟩ := Option.bind_eq_some_iff.mp h
    cases h
    obtain ⟨hsrc, himg⟩ := ih hys
    exact ⟨by simpa [hy] using fun z hz => .inr (hsrc z hz),
      by simpa [hy] using fun z hz => .inr (himg z hz)⟩

theorem bindingPair_eq_some {p : Name × Node}
    (hb : (match b with
      | .list _ [.symbol name _, init] => some (name, init)
      | _ => none) = some p) :
    ∃ v verbatim, b = .list v [.symbol p.1 verbatim, p.2] := by
  split at hb
  next v name verbatim init =>
    cases hb
    exact ⟨v, verbatim, rfl⟩
  next => cases hb

theorem mem_bindingPairs (hbs : bindingPairs bs = some pairs) {p : Name × Node} (hp : p ∈ pairs) :
    ∃ v verbatim, .list v [.symbol p.1 verbatim, p.2] ∈ bs := by
  obtain ⟨b, hb, hbp⟩ := (mem_of_mapM hbs).1 p hp
  obtain ⟨v, verbatim, rfl⟩ := bindingPair_eq_some hbp
  exact ⟨v, verbatim, hb⟩

theorem of_mem_bindings (hbs : bindingPairs bs = some pairs) (hb : b ∈ bs) :
    ∃ v verbatim, ∃ p ∈ pairs, b = .list v [.symbol p.1 verbatim, p.2] := by
  obtain ⟨p, hp, hbp⟩ := (mem_of_mapM hbs).2 b hb
  obtain ⟨v, verbatim, rfl⟩ := bindingPair_eq_some hbp
  exact ⟨v, verbatim, p, hp, rfl⟩

theorem bindsName_eq_false (hbs : bindingPairs bs = some pairs) (hx : x ∉ pairs.map Prod.fst) :
    bindsName x bs = false := by
  rw [bindsName, List.any_eq_false]
  intro b hb
  obtain ⟨v, verbatim, p, hp, rfl⟩ := of_mem_bindings hbs hb
  intro hsym
  have hname : p.1 = x := by simpa [Node.children, isSym, Node.symbolName] using hsym
  exact hx (hname ▸ List.mem_map_of_mem hp)

theorem of_mem_doSpecs (hspecs : doSpecs bs = some specs) (hb : b ∈ bs) :
    ∃ v cs, b = .list v cs := by
  obtain ⟨spec, -, hbs⟩ := (mem_of_mapM hspecs).2 b hb
  split at hbs
  next v name verbatim init => exact ⟨v, _, rfl⟩
  next v name verbatim init step => exact ⟨v, _, rfl⟩
  next => cases hbs

theorem mem_doSpecs (hspecs : doSpecs bs = some specs) {spec : Name × Node × List Node}
    (hspec : spec ∈ specs) :
    ∃ v cs, .list v cs ∈ bs ∧ spec.2.1 ∈ cs ∧ ∀ step ∈ spec.2.2, step ∈ cs := by
  obtain ⟨b, hb, hbs⟩ := (mem_of_mapM hspecs).1 spec hspec
  split at hbs
  next v name verbatim init =>
    cases hbs
    exact ⟨v, _, hb, by simp, by simp⟩
  next v name verbatim init step =>
    cases hbs
    exact ⟨v, _, hb, by simp, by simp⟩
  next => cases hbs

theorem VisibleInit.keyword {e : Node} (he : VisibleInit x k pairs bound e) :
    k ∈ [ascii "let", ascii "let*", ascii "letrec", ascii "letrec*"] := by
  cases he with
  | parallel | sequential => simp
  | recursive hk _ _ => simp_all

theorem VisibleInit.mem {e : Node} (he : VisibleInit x k pairs bound e) : ∃ p ∈ pairs, e = p.2 := by
  cases he with
  | parallel hp => exact ⟨_, hp, rfl⟩
  | sequential => exact ⟨_, by simp, rfl⟩
  | recursive _ _ hp => exact ⟨_, hp, rfl⟩

theorem inside_of_mem_unquoted (t : Node) : ∀ d, ∀ e ∈ unquoted d t, Inside t e := by
  induction t using Node.induct with
  | number | symbol | string | bool =>
    intro d e he
    rw [unquoted] at he
    cases he
  | list v ts ih =>
    have hall (d : ℕ) (ts' : List Node) (hsub : ∀ t ∈ ts', t ∈ ts) :
        ∀ e ∈ unquotedAll d ts', Inside (.list v ts) e := by
      induction ts' with
      | nil =>
        intro e he
        rw [unquotedAll] at he
        cases he
      | cons t ts' ih' =>
        intro e he
        rw [unquotedAll] at he
        rcases List.mem_append.mp he with he | he
        · exact .head (hsub t List.mem_cons_self) (ih t (hsub t List.mem_cons_self) d e he)
        · exact ih' (fun t ht => hsub t (List.mem_cons_of_mem _ ht)) e he
    intro d e he
    rw [unquoted.eq_def] at he
    split at he
    next d v' k verbatim e' heq =>
      cases heq
      have hmem : e' ∈ [Node.symbol k verbatim, e'] := by simp
      split_ifs at he
      · split at he
        next =>
          rw [List.mem_singleton] at he
          rw [he]
          exact .single hmem
        next => exact .head hmem (ih e' hmem _ e he)
      · exact .head hmem (ih e' hmem _ e he)
      · exact hall _ _ (fun t ht => ht) e he
    next heq =>
      cases heq
      exact hall _ _ (fun t ht => ht) e he
    all_goals cases he

theorem mem_unquotedAll {d : ℕ} {ts : List Node} {e : Node} (h : e ∈ unquotedAll d ts) :
    ∃ t ∈ ts, Inside t e := by
  induction ts with
  | nil =>
    rw [unquotedAll] at h
    cases h
  | cons t ts ih =>
    rw [unquotedAll] at h
    rcases List.mem_append.mp h with he | he
    · exact ⟨t, List.mem_cons_self, inside_of_mem_unquoted t d e he⟩
    · obtain ⟨t', ht', hin⟩ := ih he
      exact ⟨t', List.mem_cons_of_mem _ ht', hin⟩

/-! ### One step down the scope of a variable -/

theorem mem_second : t ∈ n :: t :: ts := List.mem_cons_of_mem n List.mem_cons_self

theorem BindsIn.mem (hform : BindsIn env ts bound c body) (hb : b ∈ body) : b ∈ ts := by
  cases hform <;> simp [hb]

theorem inside_binding (hbs : bindingPairs bs = some pairs) {p : Name × Node} (hp : p ∈ pairs) :
    Inside (.list v bs) p.2 := by
  obtain ⟨u, verbatim, hb⟩ := mem_bindingPairs hbs hp
  have hinit : p.2 ∈ (Node.list u [.symbol p.1 verbatim, p.2]).children := by simp [Node.children]
  exact .head hb (.single hinit)

theorem inside_spec (hspecs : doSpecs bs = some specs) {spec : Name × Node × List Node}
    (hspec : spec ∈ specs) (ht : t = spec.2.1 ∨ t ∈ spec.2.2) : Inside (.list v bs) t := by
  obtain ⟨u, cs, hcs, hinit, hstep⟩ := mem_doSpecs hspecs hspec
  refine .head hcs (.single ?_)
  rcases ht with rfl | ht
  · exact hinit
  · exact hstep t ht

theorem VisiblePart.inside (hpart : VisiblePart x s s') : Inside s.node s'.node := by
  cases hpart with
  | call hk he => exact .single he
  | template hk he =>
    obtain ⟨t, ht, hin⟩ := mem_unquotedAll he
    exact .head (List.mem_cons_of_mem _ ht) hin
  | definition hk he => exact .single (List.mem_cons_of_mem _ (List.mem_cons_of_mem _ he))
  | body hform hx he => exact .single (hform.mem he)
  | init hk hbs he =>
    obtain ⟨p, hp, rfl⟩ := he.mem
    exact .head mem_second (inside_binding hbs hp)
  | namedInit hk hbs hp =>
    exact .head (List.mem_cons_of_mem _ mem_second) (inside_binding hbs hp)
  | loopInit hk hspecs hspec => exact .head mem_second (inside_spec hspecs hspec (.inl rfl))
  | loopBody hk hspecs hx he =>
    rcases List.mem_append.mp he with he | he
    · rcases List.mem_append.mp he with he | he
      · obtain ⟨spec, hspec, he⟩ := List.mem_flatMap.mp he
        exact .head mem_second (inside_spec hspecs hspec (.inr he))
      · exact .head (List.mem_cons_of_mem _ mem_second) (.single he)
    · exact .single (by simp [Node.children, he])

theorem reaches_lambda {params : Node} (hk : isSym h (ascii "lambda") = true)
    (hx : rebinds x params.children = false) (hb : b ∈ body) :
    Reaches x c (.list v (h :: params :: body)) true b := by
  intro hscan
  obtain ⟨b', body', rfl⟩ := List.exists_cons_of_ne_nil (List.ne_nil_of_mem hb)
  have hform : captureForm (h :: params :: b' :: body') = .lambda := by
    simp [captureForm, hk, isSym_eq_false hk (show _ ≠ ascii "define" by decide)]
  rw [scanForCapture.eq_def]
  simp only [hform, hx, scanForCaptureAny_of_mem hb hscan]
  rfl

theorem reaches_define {f : Node} (hk : isSym h (ascii "define") = true)
    (hx : rebinds x formals = false) (hb : b ∈ body) :
    Reaches x c (.list v (h :: .list w (f :: formals) :: body)) true b := by
  intro hscan
  obtain ⟨b', body', rfl⟩ := List.exists_cons_of_ne_nil (List.ne_nil_of_mem hb)
  have hform : captureForm (h :: .list w (f :: formals) :: b' :: body') = .define := by
    rw [captureForm, if_pos hk]
  rw [scanForCapture.eq_def]
  simp only [hform, List.tail_cons, hx, scanForCaptureAny_of_mem hb hscan]
  rfl

theorem captureForm_namedLet {verbatim : Bool} (hk : isSym h (ascii "let") = true) :
    captureForm (h :: .symbol name verbatim :: .list w bs :: b :: body) = .namedLet := by
  simp [captureForm, hk, isSym_eq_false hk (show _ ≠ ascii "define" by decide),
    isSym_eq_false hk (show _ ≠ ascii "lambda" by decide)]

theorem reaches_namedLet {verbatim : Bool} (hk : isSym h (ascii "let") = true)
    (hbs : bindingPairs bs = some pairs) (hx : x ∉ name :: pairs.map Prod.fst) (hb : b ∈ body) :
    Reaches x c (.list v (h :: .symbol name verbatim :: .list w bs :: body)) true b := by
  intro hscan
  obtain ⟨b', body', rfl⟩ := List.exists_cons_of_ne_nil (List.ne_nil_of_mem hb)
  rw [List.mem_cons, not_or] at hx
  have hname : isSym (.symbol name verbatim) x = false :=
    decide_eq_false fun heq => hx.1 (Option.some.inj heq).symm
  rw [scanForCapture.eq_def]
  simp only [captureForm_namedLet hk, hname, bindsName_eq_false hbs hx.2,
    scanForCaptureAny_of_mem hb hscan]
  exact Bool.or_true _

/-- A `let`, `let*` or `letrec` that does not bind the variable again. -/
theorem reaches_let (hk : isSym h k = true)
    (hlet : k ∈ [ascii "let", ascii "let*", ascii "letrec", ascii "letrec*"])
    (hno : ¬Overlooked x ⟨env, c, .list v (h :: .list w bs :: body)⟩)
    (ht : t ∈ h :: .list w bs :: body) :
    Reaches x c (.list v (h :: .list w bs :: body)) c t := by
  have hform : captureForm (h :: .list w bs :: body) = .other ∨
      captureForm (h :: .list w bs :: body) = .binding := by
    have hdefine : isSym h (ascii "define") = false :=
      isSym_eq_false hk fun heq => absurd (heq ▸ hlet) (by decide)
    have hlambda : isSym h (ascii "lambda") = false :=
      isSym_eq_false hk fun heq => absurd (heq ▸ hlet) (by decide)
    simp only [captureForm, hdefine, hlambda, Bool.false_eq_true, if_false]
    cases body <;> split_ifs <;> simp
  rcases hform with hform | hform
  · exact reaches_child hform ht
  · intro hscan
    have hx : bindsName x (letBindings (h :: .list w bs :: body)) = false := by
      rw [← Bool.not_eq_true]
      exact fun hx => hno (.rebound hform hx)
    rw [scanForCapture.eq_def]
    simp only [hform, hx, scanForCaptureAny_of_mem ht hscan]
    rfl

/-- From the bindings of a form to an initial value. -/
theorem reaches_binding (hbs : bindingPairs bs = some pairs)
    (hkey : ∀ b ∈ bs, keywordHeaded b.children = false) {p : Name × Node} (hp : p ∈ pairs) :
    Reaches x c (.list w bs) c p.2 := by
  obtain ⟨u, verbatim, hb⟩ := mem_bindingPairs hbs hp
  have hlists := keywordHeaded_of_lists fun b hb => by
    obtain ⟨v, verbatim, p, -, rfl⟩ := of_mem_bindings hbs hb
    exact ⟨v, _, rfl⟩
  exact reaches_child (captureForm_eq_other hlists) hb ∘
    reaches_child (captureForm_eq_other (hkey _ hb)) (by simp)

/-- From the variables of a `do` to an initial value or a step. -/
theorem reaches_spec (hspecs : doSpecs bs = some specs)
    (hkey : ∀ b ∈ bs, keywordHeaded b.children = false) {spec : Name × Node × List Node}
    (hspec : spec ∈ specs) (ht : t = spec.2.1 ∨ t ∈ spec.2.2) : Reaches x c (.list w bs) c t := by
  obtain ⟨u, cs, hcs, hinit, hstep⟩ := mem_doSpecs hspecs hspec
  have hlists := keywordHeaded_of_lists fun b hb => of_mem_doSpecs hspecs hb
  refine reaches_child (captureForm_eq_other hlists) hcs ∘
    reaches_child (captureForm_eq_other (hkey _ hcs)) ?_
  rcases ht with rfl | ht
  · exact hinit
  · exact hstep t ht

theorem rebinds_eq_false (hdot : x ≠ ascii ".") (hx : x ∉ formalNames formals) :
    rebinds x formals = false := by
  rw [rebinds, List.any_eq_false]
  intro p hp hsym
  cases p with
  | symbol name verbatim =>
    have hname : name = x := by simpa [isSym, Node.symbolName] using hsym
    refine hx (List.mem_filterMap.mpr ⟨_, hp, ?_⟩)
    simp [hname, hdot]
  | number | list | string | bool => cases hsym

theorem BindsIn.reaches (hdot : x ≠ ascii ".") (hform : BindsIn env ts bound c' body)
    (hx : x ∉ bound) (hno : ¬Overlooked x ⟨env, c, .list v ts⟩) (hb : b ∈ body) :
    Reaches x c (.list v ts) (c || c') b := by
  cases hform with
  | lambda hk =>
    rw [Bool.or_true]
    exact reaches_lambda (isSym_of_keyword hk) (rebinds_eq_false hdot hx) hb
  | variadic hk =>
    rw [Bool.or_true]
    exact reaches_lambda (isSym_of_keyword hk) rfl hb
  | define hk =>
    rw [Bool.or_true]
    exact reaches_define (isSym_of_keyword hk) (rebinds_eq_false hdot hx) hb
  | namedLet hk hbs =>
    rw [Bool.or_true]
    exact reaches_namedLet (isSym_of_keyword hk) hbs hx hb
  | binding hk hlet hbs =>
    rw [Bool.or_false]
    exact reaches_let (isSym_of_keyword hk) hlet hno (by simp [hb])

theorem not_keywordHeaded_of_binding {rest : List Node}
    (hno : ¬Overlooked x ⟨env, c, .list v (h :: .list w bs :: rest)⟩) :
    ∀ b ∈ bs, keywordHeaded b.children = false := by
  intro b hb
  rw [← Bool.not_eq_true]
  exact fun hkey => hno (.binding hb hkey)

/-- The scan follows one step down the scope of a variable. -/
theorem ScannedPart.reaches (hdot : x ≠ ascii ".") (hpart : ScannedPart x s s') :
    Reaches x s.closure s.node s'.closure s'.node := by
  obtain ⟨hpart, hno⟩ := hpart
  cases hpart with
  | @call env c v head e args hk he =>
    refine reaches_child (captureForm_eq_other ?_) he
    rw [keywordHeaded, List.any_eq_false]
    intro k hkey hsym
    have hname : head.symbolName = some k := of_decide_eq_true hsym
    have henv : k ∉ env := fun henv => hno (.shadowed hkey hname henv)
    have hscoping : scanKeywords ⊆ scopingKeywords := by decide
    exact hk k (hscoping hkey) (by simp [keyword, hname, henv])
  | template hk he =>
    obtain ⟨t, ht, hin⟩ := mem_unquotedAll he
    have hquote := isSym_of_keyword hk
    refine reaches_other hquote (by decide) (List.mem_cons_of_mem _ ht) ∘
      reaches_inside hin fun w ts hts => ?_
    rw [← Bool.not_eq_true]
    exact fun hkey => hno (.template hquote ht hts hkey)
  | definition hk he =>
    refine reaches_child ?_ (List.mem_cons_of_mem _ (List.mem_cons_of_mem _ he))
    simp [captureForm, isSym_of_keyword hk]
  | body hform hx he =>
    exact hform.reaches hdot (fun hmem => hx (List.mem_append_right _ hmem)) hno he
  | init hk hbs he =>
    obtain ⟨p, hp, rfl⟩ := he.mem
    exact reaches_let (isSym_of_keyword hk) he.keyword hno mem_second ∘
      reaches_binding hbs (not_keywordHeaded_of_binding hno) hp
  | namedInit hk hbs hp =>
    obtain ⟨u, verbatim, hb⟩ := mem_bindingPairs hbs hp
    intro hscan
    rw [scanForCapture.eq_def]
    simp only [captureForm_namedLet (isSym_of_keyword hk), scanInits_of_mem hb hscan]
    rfl
  | loopInit hk hspecs hspec =>
    exact reaches_other (isSym_of_keyword hk) (by decide) mem_second ∘
      reaches_spec hspecs (not_keywordHeaded_of_binding hno) hspec (.inl rfl)
  | loopBody hk hspecs hx he =>
    have hdo := isSym_of_keyword hk
    rcases List.mem_append.mp he with he | he
    · rcases List.mem_append.mp he with he | he
      · obtain ⟨spec, hspec, he⟩ := List.mem_flatMap.mp he
        exact reaches_other hdo (by decide) mem_second ∘
          reaches_spec hspecs (not_keywordHeaded_of_binding hno) hspec (.inr he)
      · have hclause := Bool.eq_false_of_not_eq_true fun hkey => hno (.clause hdo hkey)
        exact reaches_other hdo (by decide) (List.mem_cons_of_mem _ mem_second) ∘
          reaches_child (captureForm_eq_other hclause) he
    · exact reaches_other hdo (by decide) (by simp [he])

/-! ### Which variables are put in boxes -/

/-- A variable is assigned in one of the first 64 expressions of a body. -/
def AssignedEarly (env : List Name) (x : Name) (bodies : List Node) : Prop :=
  ∃ b ∈ bodies.take 64, AssignedAt env x bodies b

/-- A variable is captured in one of the first 64 expressions of a body, at a place to which the
scan follows its scope. -/
def CapturedEarly (env : List Name) (x : Name) (bodies : List Node) : Prop :=
  ∃ b ∈ bodies.take 64, CapturedAt (ScannedPart x) env x bodies b

variable {bodies : List Node}

theorem AssignedAt.scanForSet (hset : AssignedAt env x bodies b) : scanForSet x b = true := by
  obtain ⟨-, env', closure, v, head, verbatim, value, hpath, hk⟩ := hset
  have hin : Inside b (.list v [head, .symbol x verbatim, value]) :=
    hpath.lift' Site.node fun _ _ hpart => hpart.inside
  refine scanForSet_of_inside hin ?_
  have hx : isSym (.symbol x verbatim) x = true := decide_eq_true rfl
  rw [Vm.scanForSet, setsHere, isSym_of_keyword hk, hx]
  rfl

theorem CapturedAt.scanForCapture (hdot : x ≠ ascii ".")
    (hcapture : CapturedAt (ScannedPart x) env x bodies b) : scanForCapture x b false = true := by
  obtain ⟨-, env', verbatim, hpath⟩ := hcapture
  have hback (s : Site)
      (hpath : Relation.ReflTransGen (ScannedPart x) s ⟨env', true, .symbol x verbatim⟩) :
      Vm.scanForCapture x s.node s.closure = true := by
    induction hpath using Relation.ReflTransGen.head_induction_on with
    | refl => simp [Vm.scanForCapture]
    | head hpart _ ih => exact hpart.reaches hdot ih
  exact hback _ hpath

/-- The node of a symbol. -/
def sym (name : String) : Node := .symbol (ascii name) false

/-- The form `(let ((y x)) y)`. -/
def sampleLet (y : String) : Node :=
  .list false [sym "let", .list false [.list false [sym y, sym "x"]], sym y]

/-- The body `(set! x #t) (lambda () (let ((y x)) y))`, for a name `y`. -/
def sampleBody (y : String) : List Node :=
  [.list false [sym "set!", sym "x", .bool true],
    .list false [sym "lambda", .list false [], sampleLet y]]

theorem assignedAt_sample (y : String) :
    AssignedAt [ascii "x"] (ascii "x") (sampleBody y)
      (.list false [sym "set!", sym "x", .bool true]) :=
  ⟨List.not_mem_nil, _, _, _, _, _, _, .refl, rfl⟩

theorem visiblePart_sample_closure (y : String) :
    VisiblePart (ascii "x") (bodySite [ascii "x"] (sampleBody y)
      (.list false [sym "lambda", .list false [], sampleLet y]))
      ⟨[ascii "x"], true, sampleLet y⟩ :=
  .body (.lambda rfl) List.not_mem_nil List.mem_cons_self

theorem visiblePart_sample_init (y : String) :
    VisiblePart (ascii "x") ⟨[ascii "x"], true, sampleLet y⟩ ⟨[ascii "x"], true, sym "x"⟩ := by
  have hinit : VisibleInit (ascii "x") (ascii "let") [(ascii y, sym "x")] [] (sym "x") :=
    .parallel (p := (ascii y, sym "x")) List.mem_cons_self
  exact .init rfl rfl hinit

end Eshkol.Vm
