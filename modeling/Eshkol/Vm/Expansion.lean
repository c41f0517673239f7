import Eshkol.Vm.Hygiene

/-!
# Macro Expansion and Capture

The expansion of one macro use (`vm_macro_expand_once`, `lib/backend/vm_macro.c`): the first rule
of the macro whose pattern matches is taken, the names that its template binds are renamed, and
the result is instantiated. A session expands one use after another with one counter.

A name that the renamer makes is distinct from those of the other expansions, but nothing keeps it
out of the user's forms; and a binder keeps its name if the table has no room for it, or if its
name is longer than what the table keeps of it.
-/

namespace Eshkol.Vm

open Machine

/-! ### Expansion -/

structure MacroRule where
  pattern : Node
  template : Node

structure VmMacro where
  name : Name
  rules : List MacroRule
  literals : List Name

def vmMacroLookup (macros : List VmMacro) (name : Name) : Option VmMacro :=
  macros.find? fun m => m.name = name

/-- A form to expand, with the macros that are registered then. -/
structure Use where
  macros : List VmMacro
  form : Node

/-- The rule that expands a form, with the literals of its macro and the table of the match. -/
structure Expansion where
  literals : List Name
  rule : MacroRule
  bindings : MacroBindings

/-- The first rule of a macro that matches. -/
def VmMacro.expansion (m : VmMacro) (form : Node) : Option Expansion :=
  m.rules.findSome? fun r =>
    (vmMacroMatch m.literals r.pattern form []).map fun bindings => ⟨m.literals, r, bindings⟩

/-- The rule that expands a form, if its head is a macro. -/
def Use.expansion (u : Use) : Option Expansion :=
  match u.form with
  | .list _ (.symbol name _ :: _) => (vmMacroLookup u.macros name).bind (·.expansion u.form)
  | _ => none

/-- The renamed template of an expansion and the counter. -/
def Expansion.hygienic (x : Expansion) (counter : ℕ) : Node × ℕ :=
  vmMacroAlphaRename x.bindings x.rule.template ⟨[], false⟩ counter

/-- The counter after the expansion of a form. -/
def Use.next (u : Use) (counter : ℕ) : ℕ :=
  match u.expansion with
  | some x => (x.hygienic counter).2
  | none => counter

/-- `vm_macro_expand_once`. The counter is an `int`. -/
def vmMacroExpandOnce (u : Use) (counter : ℕ) : Exec Empty (Node × ℕ) :=
  match u.expansion with
  | some x => do
      let hygienic := x.hygienic counter
      let _ ← signed 32 hygienic.2
      .ok (vmMacroInstantiate hygienic.1 x.bindings, hygienic.2)
  | none => .ok (u.form, counter)

/-- The expansions of a session, one after another. -/
def expandAll : List Use → ℕ → Exec Empty (List Node × ℕ)
  | [], counter => .ok ([], counter)
  | u :: us, counter => do
      let first ← vmMacroExpandOnce u counter
      let rest ← expandAll us first.2
      .ok (first.1 :: rest.1, rest.2)

/-- The uses of a session, each with the counter before its expansion. -/
def withCounters : List Use → ℕ → List (Use × ℕ)
  | [], _ => []
  | u :: us, counter => (u, counter) :: withCounters us (u.next counter)

mutual

/-- The symbols of a form. -/
def Node.names : Node → List Name
  | .symbol name _ => [name]
  | .list _ ts => namesOf ts
  | .number _ => []
  | .string _ => []
  | .bool _ => []

/-- The symbols of several forms. -/
def namesOf : List Node → List Name
  | [] => []
  | t :: ts => t.names ++ namesOf ts

end

/-- The symbols of the argument forms of a macro use. -/
def Use.argumentNames (u : Use) : List Name :=
  match u.form with
  | .list _ (_ :: args) => namesOf args
  | _ => []

/-- The pattern variables of a rule. The keyword that its pattern begins with is none. -/
def Expansion.vars (x : Expansion) : List Name :=
  match x.rule.pattern with
  | .list _ (_ :: ps) => (patternVarsList x.literals ps).map Prod.fst
  | p => (patternVars x.literals p false).map Prod.fst

/-- The annotated template of an expansion. -/
def Expansion.annotated (x : Expansion) (counter : ℕ) : Annotated × ℕ :=
  annotate x.bindings x.vars x.rule.template .expression false [] counter

/-- The annotated node at a path. -/
def Annotated.subtree : Annotated → List ℕ → Option Annotated
  | a, [] => some a
  | .list as, i :: path =>
    match as[i]? with
    | some a => a.subtree path
    | none => none
  | _, _ :: _ => none

theorem renderAll_eq_map (as : List Annotated) : renderAll as = as.map Annotated.render := by
  induction as with
  | nil => rw [renderAll, List.map_nil]
  | cons a as ih => rw [renderAll, List.map_cons, ih]

theorem subtree_render {a b : Annotated} {path : List ℕ} (h : a.subtree path = some b) :
    a.render.subtree path = some b.render := by
  induction path generalizing a with
  | nil =>
    have hab : a = b := Option.some.inj h
    rw [hab, Node.subtree]
  | cons i path ih =>
    cases a with
    | symbol | atom => cases h
    | list as =>
      rw [Annotated.subtree] at h
      rw [Annotated.render, Node.subtree, renderAll_eq_map, List.getElem?_map]
      cases hi : as[i]? with
      | none => simp only [hi, reduceCtorEq] at h
      | some a =>
        simp only [hi] at h
        exact ih h

/-! ### The values of the counter -/

/-- The numbers of the binders that the table holds. -/
def InRange (lo hi : ℕ) (scope : Scope) : Prop := ∀ e ∈ scope.take 64, lo ≤ e.2 ∧ e.2 < hi

/-- The numbers of all binders that the table holds somewhere in a template. -/
def Numbered (lo hi : ℕ) (a : Annotated) : Prop :=
  ∀ path name verbatim binder scope,
    a.subtree path = some (.symbol name verbatim binder (some scope)) → InRange lo hi scope

variable {hi next k counter : ℕ} {scope : Scope} {name : Name} {u : Use} {us : List Use}

theorem InRange.mono {lo hi' : ℕ} (h : InRange lo hi scope) (hle : hi ≤ hi') :
    InRange lo hi' scope :=
  fun e he => ⟨(h e he).1, (h e he).2.trans_le hle⟩

theorem Numbered.mono {lo hi' : ℕ} {a : Annotated} (h : Numbered lo hi a) (hle : hi ≤ hi') :
    Numbered lo hi' a :=
  fun path name verbatim binder scope ha => (h path name verbatim binder scope ha).mono hle

theorem numbered_atom (lo hi : ℕ) (n : Node) : Numbered lo hi (.atom n) := by
  intro path name verbatim binder scope h
  cases path with
  | nil => cases h
  | cons => cases h

theorem numbered_symbol {lo : ℕ} {scope : Option Scope} (h : ∀ s, scope = some s → InRange lo hi s)
    (name : Name) (verbatim binder : Bool) :
    Numbered lo hi (.symbol name verbatim binder scope) := by
  intro path name' verbatim' binder' s hs
  cases path with
  | nil =>
    cases hs
    exact h s rfl
  | cons => cases hs

theorem numbered_list {lo : ℕ} {as : List Annotated} (h : ∀ a ∈ as, Numbered lo hi a) :
    Numbered lo hi (.list as) := by
  intro path name verbatim binder scope hs
  cases path with
  | nil => cases hs
  | cons i path =>
    rw [Annotated.subtree] at hs
    cases hi : as[i]? with
    | none => simp only [hi, reduceCtorEq] at hs
    | some a =>
      simp only [hi] at hs
      exact h a (List.mem_of_getElem? hi) path name verbatim binder scope hs

theorem numbered_copied (lo hi : ℕ) (vars : List Name) (pos : Position) (n : Node) :
    Numbered lo hi (copied vars pos n) := by
  cases n with
  | symbol name verbatim =>
    refine numbered_symbol (fun s hs => ?_) name verbatim _
    cases hs
  | number | list | string | bool => exact numbered_atom lo hi _

/-- A scope that is entered with the counter. -/
def Entered (lo next : ℕ) (entered : Scope × ℕ) : Prop :=
  next ≤ entered.2 ∧ InRange lo entered.2 entered.1

theorem entered_enterScope {lo : ℕ} (h : InRange lo next scope) (hlo : lo ≤ next) (name : Name) :
    Entered lo next (enterScope scope next name) := by
  rw [enterScope]
  by_cases hroom : scope.length < 64
  · rw [if_pos hroom]
    refine ⟨Nat.le_succ next, fun e he => ?_⟩
    rw [List.take_of_length_le (by simpa using hroom), List.mem_append] at he
    rcases he with he | he
    · have := h e (by rwa [List.take_of_length_le hroom.le])
      dsimp only
      omega
    · rw [List.mem_singleton.mp he]
      exact ⟨hlo, Nat.lt_succ_self next⟩
  · rw [if_neg hroom]
    refine ⟨le_rfl, fun e he => h e ?_⟩
    rwa [List.take_append_of_le_length (Nat.not_lt.mp hroom)] at he

theorem entered_enterBinder {lo : ℕ} (h : InRange lo next scope) (hlo : lo ≤ next)
    (bindings : MacroBindings) (n : Node) :
    Entered lo next (enterBinder bindings scope next n) := by
  cases n with
  | symbol name verbatim =>
    rw [enterBinder]
    split
    next => exact entered_enterScope h hlo name
    next => exact ⟨le_rfl, h⟩
  | number | list | string | bool => exact ⟨le_rfl, h⟩

theorem entered_enterBinders {lo : ℕ} (h : InRange lo next scope) (hlo : lo ≤ next)
    (bindings : MacroBindings) (ns : List Node) :
    Entered lo next (enterBinders bindings scope next ns) := by
  induction ns generalizing scope next with
  | nil => exact ⟨le_rfl, h⟩
  | cons n ns ih =>
    obtain ⟨hle, hin⟩ := entered_enterBinder h hlo bindings n
    obtain ⟨hle', hin'⟩ := ih hin (hlo.trans hle)
    rw [enterBinders]
    exact ⟨hle.trans hle', hin'⟩

section Annotate

variable {bindings : MacroBindings} {vars : List Name} {lo : ℕ}

/-- Annotating a template moves the counter on, over the numbers of the binders in it. -/
def Counts (bindings : MacroBindings) (vars : List Name) (lo : ℕ) (t : Node) : Prop :=
  ∀ pos datum scope next, InRange lo next scope → lo ≤ next →
    next ≤ (annotate bindings vars t pos datum scope next).2 ∧
      Numbered lo (annotate bindings vars t pos datum scope next).2
        (annotate bindings vars t pos datum scope next).1

variable {scope : Scope} {next : ℕ}

theorem annotateRest_numbered {ts : List Node} (hts : ∀ t ∈ ts, Counts bindings vars lo t)
    (pos : Position) (datum : Bool) (h : InRange lo next scope) (hlo : lo ≤ next) :
    next ≤ (annotateRest bindings vars ts pos datum scope next).2 ∧
      ∀ a ∈ (annotateRest bindings vars ts pos datum scope next).1,
        Numbered lo (annotateRest bindings vars ts pos datum scope next).2 a := by
  induction ts generalizing next with
  | nil =>
    rw [annotateRest]
    exact ⟨le_rfl, List.forall_mem_nil _⟩
  | cons t ts ih =>
    rw [List.forall_mem_cons] at hts
    obtain ⟨hle, hfirst⟩ := hts.1 pos datum scope next h hlo
    obtain ⟨hle', hrest⟩ := ih hts.2 (h.mono hle) (hlo.trans hle)
    rw [annotateRest]
    exact ⟨hle.trans hle', List.forall_mem_cons.mpr ⟨hfirst.mono hle', hrest⟩⟩

theorem annotateInits_numbered {ts : List Node} (hts : ∀ t ∈ ts, Counts bindings vars lo t)
    (count : ℕ) (datum : Bool) (h : InRange lo next scope) (hlo : lo ≤ next) :
    next ≤ (annotateInits bindings vars ts count datum scope next).2 ∧
      ∀ a ∈ (annotateInits bindings vars ts count datum scope next).1,
        Numbered lo (annotateInits bindings vars ts count datum scope next).2 a := by
  induction ts generalizing count next with
  | nil =>
    simp only [annotateInits]
    exact ⟨le_rfl, List.forall_mem_nil _⟩
  | cons t ts ih =>
    rw [List.forall_mem_cons] at hts
    cases count with
    | zero =>
      simp only [annotateInits]
      exact ⟨le_rfl, List.forall_mem_nil _⟩
    | succ count =>
      obtain ⟨hle, hfirst⟩ := hts.1 .expression datum scope next h hlo
      obtain ⟨hle', hrest⟩ := ih hts.2 count (h.mono hle) (hlo.trans hle)
      rw [annotateInits]
      exact ⟨hle.trans hle', List.forall_mem_cons.mpr ⟨hfirst.mono hle', hrest⟩⟩

/-- So do those of the bindings of a `let`. -/
theorem annotateBindings_numbered {bs : List Node}
    (hbs : ∀ b ∈ bs, WithChildren (Counts bindings vars lo) b) (recursive sequential datum : Bool)
    {inner : Scope} (h : InRange lo next scope) (hinner : InRange lo next inner) (hlo : lo ≤ next) :
    next ≤ (annotateBindings bindings vars bs recursive sequential datum scope inner next).2.2 ∧
      InRange lo (annotateBindings bindings vars bs recursive sequential datum scope inner next).2.2
        (annotateBindings bindings vars bs recursive sequential datum scope inner next).2.1 ∧
      ∀ a ∈ (annotateBindings bindings vars bs recursive sequential datum scope inner next).1,
        Numbered lo
          (annotateBindings bindings vars bs recursive sequential datum scope inner next).2.2 a := by
  induction bs generalizing inner next with
  | nil =>
    rw [annotateBindings]
    exact ⟨le_rfl, hinner, List.forall_mem_nil _⟩
  | cons b bs ih =>
    rw [List.forall_mem_cons] at hbs
    by_cases hb : ∃ vector n inits, b = .list vector (n :: inits)
    · obtain ⟨vector, n, inits, rfl⟩ := hb
      have hchild := hbs.1.2 vector (n :: inits) rfl
      rw [List.forall_mem_cons] at hchild
      have henv : InRange lo next (if (recursive || sequential) = true then inner else scope) := by
        split
        next => exact hinner
        next => exact h
      obtain ⟨hle, hinits⟩ := annotateInits_numbered hchild.2 8 datum henv hlo
      rw [annotateBindings]
      -- the counter after the initial values, and the scope for the name
      generalize annotateInits bindings vars inits 8 datum
        (if (recursive || sequential) = true then inner else scope) next = r at hle hinits ⊢
      have hentered : Entered lo r.2 (if recursive = true then (inner, r.2)
          else enterBinder bindings inner r.2 n) := by
        split
        next => exact ⟨le_rfl, hinner.mono hle⟩
        next => exact entered_enterBinder (hinner.mono hle) (hlo.trans hle) bindings n
      generalize (if recursive = true then (inner, r.2) else enterBinder bindings inner r.2 n) =
        entered at hentered ⊢
      obtain ⟨hle₁, hin₁⟩ := hentered
      obtain ⟨hle₂, hname⟩ := hchild.1 .binder datum entered.1 entered.2 hin₁
        (hlo.trans (hle.trans hle₁))
      have hle₃ := hle.trans (hle₁.trans hle₂)
      obtain ⟨hle₄, hin₄, hrest⟩ := ih hbs.2 (h.mono hle₃) (hin₁.mono hle₂) (hlo.trans hle₃)
      refine ⟨hle₃.trans hle₄, hin₄, List.forall_mem_cons.mpr ⟨?_, hrest⟩⟩
      refine (numbered_list (List.forall_mem_cons.mpr ⟨hname, fun a ha => ?_⟩)).mono hle₄
      exact (hinits a ha).mono (hle₁.trans hle₂)
    · obtain ⟨hle, hfirst⟩ := hbs.1.1 .expression datum inner next hinner hlo
      obtain ⟨hle', hin, hrest⟩ := ih hbs.2 (h.mono hle) (hinner.mono hle) (hlo.trans hle)
      rw [annotateBindings]
      · exact ⟨hle.trans hle', hin, List.forall_mem_cons.mpr ⟨hfirst.mono hle', hrest⟩⟩
      · exact fun vector n inits hlist => hb ⟨vector, n, inits, hlist⟩

/-- The binders of a template have distinct numbers. -/
theorem annotate_numbered (t : Node) : Counts bindings vars lo t := by
  induction t using Node.deepInduct with
  | number | string | bool =>
    intro pos datum scope next h hlo
    rw [annotate]
    exact ⟨le_rfl, numbered_atom lo next _⟩
  | symbol name verbatim =>
    intro pos datum scope next h hlo
    rw [annotate]
    refine ⟨le_rfl, numbered_symbol (fun s hs => ?_) name verbatim _⟩
    cases datum with
    | true => cases hs
    | false =>
      cases hs
      exact h
  | list vector ts ih =>
    intro pos datum scope next h hlo
    rcases formKind_cases datum ts with ⟨datum', k, args, rfl, hk⟩ | ⟨k, formals, body, rfl, hk⟩ |
      ⟨k, name, vector', bs, body, rfl, hk⟩ |
      ⟨recursive, sequential, k, vector', bs, body, rfl, hk⟩ | hk
    · rw [List.forall_mem_cons] at ih
      obtain ⟨hle, hrest⟩ :=
        annotateRest_numbered (fun t ht => (ih.2 t ht).1.1) pos.child datum' h hlo
      rw [annotate.eq_def]
      simp only [hk]
      exact ⟨hle, numbered_list (List.forall_mem_cons.mpr ⟨numbered_copied _ _ _ _ _, hrest⟩)⟩
    · rw [List.forall_mem_cons, List.forall_mem_cons] at ih
      obtain ⟨hle, hin⟩ := entered_enterBinders h hlo bindings (formalNodes formals)
      obtain ⟨hle₁, hformals⟩ := ih.2.1.1.1 .formals datum _ _ hin (hlo.trans hle)
      obtain ⟨hle₂, hrest⟩ := annotateRest_numbered (fun t ht => (ih.2.2 t ht).1.1) pos.child
        datum (hin.mono hle₁) (hlo.trans (hle.trans hle₁))
      rw [annotate.eq_def]
      simp only [hk]
      exact ⟨hle.trans (hle₁.trans hle₂), numbered_list (List.forall_mem_cons.mpr
        ⟨numbered_copied _ _ _ _ _, List.forall_mem_cons.mpr ⟨hformals.mono hle₂, hrest⟩⟩)⟩
    · rw [List.forall_mem_cons, List.forall_mem_cons, List.forall_mem_cons] at ih
      obtain ⟨hle, hin⟩ := entered_enterBinder h hlo bindings name
      obtain ⟨hle₁, hname⟩ := ih.2.1.1.1 .binder datum _ _ hin (hlo.trans hle)
      have hle₂ := hle.trans hle₁
      obtain ⟨hle₃, hin₃, hbs⟩ := annotateBindings_numbered (ih.2.2.1.2 vector' bs rfl) false false
        datum (h.mono hle₂) (hin.mono hle₁) (hlo.trans hle₂)
      have hle₄ := hle₂.trans hle₃
      obtain ⟨hle₅, hrest⟩ := annotateRest_numbered (fun t ht => (ih.2.2.2 t ht).1.1) pos.child
        datum hin₃ (hlo.trans hle₄)
      rw [annotate.eq_def]
      simp only [hk]
      exact ⟨hle₄.trans hle₅, numbered_list (List.forall_mem_cons.mpr
        ⟨numbered_copied _ _ _ _ _, List.forall_mem_cons.mpr ⟨hname.mono (hle₃.trans hle₅),
          List.forall_mem_cons.mpr ⟨(numbered_list hbs).mono hle₅, hrest⟩⟩⟩)⟩
    · rw [List.forall_mem_cons, List.forall_mem_cons] at ih
      have hentered : Entered lo next (if recursive = true then
          enterBinders bindings scope next (bindingHeads bs) else (scope, next)) := by
        split
        next => exact entered_enterBinders h hlo bindings (bindingHeads bs)
        next => exact ⟨le_rfl, h⟩
      rw [annotate.eq_def]
      simp only [hk]
      generalize (if recursive = true then enterBinders bindings scope next (bindingHeads bs)
        else (scope, next)) = entered at hentered ⊢
      obtain ⟨hle, hin⟩ := hentered
      obtain ⟨hle₁, hin₁, hbs⟩ := annotateBindings_numbered (ih.2.1.2 vector' bs rfl) recursive
        sequential datum (h.mono hle) hin (hlo.trans hle)
      have hle₂ := hle.trans hle₁
      obtain ⟨hle₃, hrest⟩ := annotateRest_numbered (fun t ht => (ih.2.2 t ht).1.1) pos.child
        datum hin₁ (hlo.trans hle₂)
      exact ⟨hle₂.trans hle₃, numbered_list (List.forall_mem_cons.mpr ⟨numbered_copied _ _ _ _ _,
          List.forall_mem_cons.mpr ⟨(numbered_list hbs).mono hle₃, hrest⟩⟩)⟩
    · obtain ⟨hle, hrest⟩ :=
        annotateRest_numbered (fun t ht => (ih t ht).1.1) pos.child datum h hlo
      rw [annotate.eq_def]
      simp only [hk]
      exact ⟨hle, numbered_list hrest⟩

end Annotate

/-! ### Generated names -/

theorem length_natText_le (h : k < 2 ^ 31) : (natText k).length ≤ 10 := by
  rw [natText]
  split
  next => simp
  next =>
    rw [List.length_reverse, List.length_map, Nat.digits_length_le_iff (by omega)]
    omega

theorem hygienicName_eq (h : k < 2 ^ 31) (name : Name) :
    hygienicName k name =
      ascii "_h" ++ ((natText k).map (fun c => c.val.toUInt8) ++ 46 :: name.take 40) := by
  have hlen := length_natText_le h
  have htake : (name.take 40).length ≤ 40 := List.length_take_le 40 name
  have hdot : ascii "." = [46] := rfl
  have hh : (ascii "_h").length = 2 := rfl
  rw [hygienicName, hdot, List.append_assoc, List.append_assoc, List.singleton_append,
    List.take_of_length_le]
  rw [List.length_append, List.length_append, List.length_map, List.length_cons, hh]
  omega

theorem toUInt8_natText {c : Char} (h : c ∈ natText k) :
    c.val.toUInt8.toNat = c.toNat ∧ 48 ≤ c.toNat ∧ c.toNat ≤ 57 := by
  have hdigit := toNat_of_isDigit (isDigit_of_mem_natText h)
  refine ⟨?_, hdigit⟩
  have hval : c.val.toNat = c.toNat := rfl
  rw [UInt32.toNat_toUInt8, hval]
  exact Nat.mod_eq_of_lt (by omega)

theorem map_natText_inj {k' : ℕ}
    (h : (natText k).map (fun c => c.val.toUInt8) = (natText k').map (fun c => c.val.toUInt8)) :
    k = k' := by
  have htext : natText k = natText k' := by
    have hread (k : ℕ) : ((natText k).map (fun c => c.val.toUInt8)).map
        (fun b => Char.ofNat b.toNat) = natText k := by
      rw [List.map_map]
      refine (List.map_congr_left fun c hc => ?_).trans (List.map_id _)
      change Char.ofNat c.val.toUInt8.toNat = c
      rw [(toUInt8_natText hc).1, Char.ofNat_toNat]
    rw [← hread k, h, hread k']
  rw [← decimalValue_natText k, htext, decimalValue_natText]

theorem takeWhile_natText (k : ℕ) (rest : Name) :
    ((natText k).map (fun c => c.val.toUInt8) ++ 46 :: rest).takeWhile (fun b => b ≠ 46) =
      (natText k).map (fun c => c.val.toUInt8) := by
  rw [List.takeWhile_append_of_pos]
  · rw [List.takeWhile_cons_of_neg (by simp), List.append_nil]
  · intro b hb
    obtain ⟨c, hc, rfl⟩ := List.mem_map.mp hb
    have hdigit := toUInt8_natText hc
    have h46 : (46 : UInt8).toNat = 46 := rfl
    rw [decide_eq_true_eq]
    intro hdot
    rw [hdot] at hdigit
    omega

theorem hygienicName_inj {k' : ℕ} (hk : k < 2 ^ 31) (hk' : k' < 2 ^ 31) {name' : Name}
    (h : hygienicName k name = hygienicName k' name') : k = k' := by
  rw [hygienicName_eq hk, hygienicName_eq hk'] at h
  have hdigits := congrArg (List.takeWhile fun b => b ≠ 46) (List.append_cancel_left h)
  rw [takeWhile_natText, takeWhile_natText] at hdigits
  exact map_natText_inj hdigits

/-! ### Sessions -/

theorem Expansion.hygienic_eq (x : Expansion) (counter : ℕ) :
    x.hygienic counter = ((x.annotated counter).1.render, (x.annotated counter).2) :=
  vmMacroAlphaRename_eq x.rule.template .expression false [] counter

theorem Expansion.annotated_numbered (x : Expansion) (counter : ℕ) :
    counter ≤ (x.hygienic counter).2 ∧
      Numbered counter (x.hygienic counter).2 (x.annotated counter).1 := by
  rw [x.hygienic_eq]
  exact annotate_numbered x.rule.template .expression false [] counter nofun le_rfl

theorem Use.le_next (u : Use) (counter : ℕ) : counter ≤ u.next counter := by
  rw [Use.next]
  split
  next x _ => exact (x.annotated_numbered counter).1
  next => exact le_rfl

theorem vmMacroExpandOnce_next {r : Node × ℕ} (h : vmMacroExpandOnce u counter = .ok r) :
    r.2 = u.next counter ∧ (u.expansion.isSome → u.next counter < 2 ^ 31) := by
  rw [vmMacroExpandOnce] at h
  rw [Use.next]
  cases hx : u.expansion with
  | none =>
    simp only [hx] at h
    cases h
    exact ⟨rfl, nofun⟩
  | some x =>
    simp only [hx] at h
    by_cases hint : -2 ^ (32 - 1) ≤ ((x.hygienic counter).2 : ℤ) ∧
        ((x.hygienic counter).2 : ℤ) < 2 ^ (32 - 1)
    · rw [signed, if_pos hint, ok_bind] at h
      cases h
      refine ⟨rfl, fun _ => ?_⟩
      dsimp only
      omega
    · rw [signed, if_neg hint, error_bind] at h
      cases h

theorem expandAll_next_lt {r : List Node × ℕ} (h : expandAll us counter = .ok r)
    (hu : (u, k) ∈ withCounters us counter) (hx : u.expansion.isSome) : u.next k < 2 ^ 31 := by
  induction us generalizing counter r with
  | nil => cases hu
  | cons v us ih =>
    rw [expandAll] at h
    cases hfirst : vmMacroExpandOnce v counter with
    | error e =>
      rw [hfirst, error_bind] at h
      cases h
    | ok first =>
      obtain ⟨hnext, hlt⟩ := vmMacroExpandOnce_next hfirst
      rw [hfirst, ok_bind, hnext] at h
      cases hrest : expandAll us (v.next counter) with
      | error e =>
        rw [hrest, error_bind] at h
        cases h
      | ok rest =>
        rw [withCounters, List.mem_cons] at hu
        rcases hu with hu | hu
        · cases hu
          exact hlt hx
        · exact ih hrest hu

theorem le_of_mem_withCounters {e : Use × ℕ} (h : e ∈ withCounters us counter) : counter ≤ e.2 := by
  induction us generalizing counter with
  | nil => cases h
  | cons u us ih =>
    rw [withCounters, List.mem_cons] at h
    rcases h with rfl | h
    · exact le_rfl
    · exact (u.le_next counter).trans (ih h)

theorem pairwise_withCounters (us : List Use) (counter : ℕ) :
    (withCounters us counter).Pairwise fun a b => a.1.next a.2 ≤ b.2 := by
  induction us generalizing counter with
  | nil => exact .nil
  | cons u us ih =>
    rw [withCounters]
    exact .cons (fun e he => le_of_mem_withCounters he) (ih (u.next counter))

/-! ### Hygiene -/

/-- A symbol that a template introduces as a binder, with the binders in scope there. -/
def Expansion.BinderAt (x : Expansion) (counter : ℕ) (path : List ℕ) (name : Name)
    (verbatim : Bool) (scope : Option Scope) : Prop :=
  (x.annotated counter).1.subtree path = some (.symbol name verbatim true scope)

/-- A name that the renamer gives to a symbol of the template. -/
def Expansion.Generates (x : Expansion) (counter : ℕ) (new : Name) : Prop :=
  ∃ path name verbatim binder scope e,
    (x.annotated counter).1.subtree path = some (.symbol name verbatim binder (some scope)) ∧
      scope.inForce name = some e ∧ hygienicName e.2 e.1 = new

/-- A name that neither the argument forms of an expansion nor the table of its match has, nor the
renamed templates of the other expansions. -/
structure Fresh (session : List (Use × ℕ)) (i : ℕ) (u : Use) (x : Expansion) (new : Name) :
    Prop where
  arguments : new ∉ u.argumentNames
  unbound : macroBindingsLookup x.bindings new = none
  others : ∀ j u' counter' x', j ≠ i → session[j]? = some (u', counter') →
    u'.expansion = some x' → ¬ x'.Generates counter' new

/-- The renamer gives fresh names to all binders that the template of an expansion introduces. -/
def Hygienic (session : List (Use × ℕ)) (i : ℕ) (u : Use) (x : Expansion) (counter : ℕ) : Prop :=
  ∀ path name verbatim scope, x.BinderAt counter path name verbatim scope →
    ∃ new, (x.hygienic counter).1.subtree path = some (.symbol new verbatim) ∧ new ≠ name ∧
      Fresh session i u x new

/-- The table holds a binder, and the name for its number is free. -/
def Separable (u : Use) (x : Expansion) (name : Name) (scope : Option Scope) : Prop :=
  ∃ s e, scope = some s ∧ s.inForce name = some e ∧ hygienicName e.2 name ≠ name ∧
    hygienicName e.2 name ∉ u.argumentNames ∧
    macroBindingsLookup x.bindings (hygienicName e.2 name) = none

theorem hygienicName_inForce {e : Name × ℕ} (h : scope.inForce name = some e) :
    hygienicName e.2 e.1 = hygienicName e.2 name := by
  have hcut : cutName e.1 = name := by simpa using List.find?_some h
  rw [← hcut, hygienicName, hygienicName, cutName, List.take_take, Nat.min_eq_left (by omega)]

theorem renamed_inForce {e : Name × ℕ} (h : scope.inForce name = some e) :
    renamed name (some scope) = hygienicName e.2 name := by
  rw [← hygienicName_inForce h, renamed, Option.bind_some, h]

theorem Expansion.Generates.number {x : Expansion} {new : Name} (h : x.Generates counter new) :
    ∃ k other, counter ≤ k ∧ k < (x.hygienic counter).2 ∧ hygienicName k other = new := by
  obtain ⟨path, name, verbatim, binder, scope, e, hpath, he, rfl⟩ := h
  have hmem : e ∈ scope.take 64 := List.mem_reverse.mp (List.mem_of_find?_eq_some he)
  have hrange := (x.annotated_numbered counter).2 path name verbatim binder scope hpath e hmem
  exact ⟨e.2, e.1, hrange.1, hrange.2, rfl⟩

theorem not_generates_of_ne {start : ℕ} {r : List Node × ℕ} (hrun : expandAll us start = .ok r)
    {i j : ℕ} {u' : Use} {counter' : ℕ} {x x' : Expansion}
    (hi : (withCounters us start)[i]? = some (u, counter)) (hx : u.expansion = some x)
    (hj : (withCounters us start)[j]? = some (u', counter')) (hx' : u'.expansion = some x')
    (hne : j ≠ i) {new : Name} (hnew : x.Generates counter new) : ¬ x'.Generates counter' new := by
  intro hnew'
  obtain ⟨k, other, hlo, hhi, rfl⟩ := hnew.number
  obtain ⟨k', other', hlo', hhi', hname⟩ := hnew'.number
  have hnext : u.next counter = (x.hygienic counter).2 := by rw [Use.next, hx]
  have hnext' : u'.next counter' = (x'.hygienic counter').2 := by rw [Use.next, hx']
  have hlt := expandAll_next_lt hrun (List.mem_of_getElem? hi) (by rw [hx]; rfl)
  have hlt' := expandAll_next_lt hrun (List.mem_of_getElem? hj) (by rw [hx']; rfl)
  have hk : k' = k := hygienicName_inj (by omega) (by omega) hname
  have horder := List.pairwise_iff_getElem.mp (pairwise_withCounters us start)
  obtain ⟨hil, hi⟩ := List.getElem?_eq_some_iff.mp hi
  obtain ⟨hjl, hj⟩ := List.getElem?_eq_some_iff.mp hj
  -- the earlier one has stopped counting before the later one begins
  rcases Nat.lt_or_gt_of_ne hne with hlt | hlt
  · have := horder j i hjl hil hlt
    rw [hi, hj] at this
    dsimp only at this
    omega
  · have := horder i j hil hjl hlt
    rw [hi, hj] at this
    dsimp only at this
    omega

/-- **Capture.** In every session, the binders that the template of an expansion introduces all get
names that neither the argument forms nor other expansions have exactly if each of them is, with
its whole name, among the first 64 binders in scope that the renamer knows, and the name for its
number differs from it, is not in the argument forms and is not bound by the match. -/
theorem expansion_hygienic_iff {us : List Use} {start : ℕ} {r : List Node × ℕ}
    (hrun : expandAll us start = .ok r) {i : ℕ} {u : Use} {counter : ℕ}
    (hi : (withCounters us start)[i]? = some (u, counter)) {x : Expansion}
    (hx : u.expansion = some x) :
    Hygienic (withCounters us start) i u x counter ↔
      ∀ path name verbatim scope, x.BinderAt counter path name verbatim scope →
        Separable u x name scope := by
  refine forall₄_congr fun path name verbatim scope => forall_congr' fun hat => ?_
  have hnode : (x.hygienic counter).1.subtree path =
      some (.symbol (renamed name scope) verbatim) := by
    rw [x.hygienic_eq, subtree_render hat, Annotated.render]
  constructor
  · rintro ⟨new, hnew, hne, hfresh⟩
    rw [hnode] at hnew
    cases hnew
    cases hs : scope with
    | none =>
      rw [hs] at hne
      exact absurd rfl hne
    | some s =>
      cases he : s.inForce name with
      | none =>
        rw [hs, renamed, Option.bind_some, he] at hne
        exact absurd rfl hne
      | some e =>
        rw [hs, renamed_inForce he] at hne hfresh
        exact ⟨s, e, rfl, he, hne, hfresh.arguments, hfresh.unbound⟩
  · rintro ⟨s, e, rfl, he, hne, harg, hunbound⟩
    rw [renamed_inForce he] at hnode
    have hgen : x.Generates counter (hygienicName e.2 name) :=
      ⟨path, name, verbatim, true, s, e, hat, he, hygienicName_inForce he⟩
    refine ⟨hygienicName e.2 name, hnode, hne, harg, hunbound, ?_⟩
    intro j u' counter' x' hne' hj hx'
    exact not_generates_of_ne hrun hi hx hj hx' hne' hgen

/-- The use `(hyg arg)` of a macro with the rule `((_ e) (lambda (tmp) e))`. -/
def hygUse (arg : Name) : Use where
  macros := [⟨ascii "hyg", [⟨.list false [.symbol (ascii "_") false, .symbol (ascii "e") false],
    .list false [.symbol (ascii "lambda") false, .list false [.symbol (ascii "tmp") false],
      .symbol (ascii "e") false]⟩], []⟩]
  form := .list false [.symbol (ascii "hyg") false, .symbol arg false]

/-- The expansion of `(hyg x)` and then `(hyg tmp)`: `tmp` is renamed to `_h1.tmp`. -/
theorem expansion_hygienic_iff_tmp :
    ∃ x r, expandAll [hygUse (ascii "x"), hygUse (ascii "tmp")] 0 = .ok r ∧
      (hygUse (ascii "tmp")).expansion = some x ∧
      Hygienic (withCounters [hygUse (ascii "x"), hygUse (ascii "tmp")] 0) 1
        (hygUse (ascii "tmp")) x 1 := by
  refine ⟨_, _, rfl, rfl, (expansion_hygienic_iff rfl rfl rfl).mpr ?_⟩
  intro path name verbatim scope hat
  have hfirst : (hygienicName 1 (ascii "tmp")).head? = some 95 := rfl
  have hne (n : Name) (h : n.head? ≠ some 95) : n ≠ hygienicName 1 (ascii "tmp") :=
    fun heq => h (heq ▸ hfirst)
  -- the only binder is at the path `[1, 0]`
  rcases path with _ | ⟨_ | _ | _ | i, _ | ⟨_ | j, _ | ⟨k, path⟩⟩⟩
  case cons.succ.zero.cons.zero.nil =>
    cases hat
    refine ⟨[(ascii "tmp", 1)], (ascii "tmp", 1), rfl, rfl, ?_, ?_, ?_⟩
    · exact (hne _ (by decide)).symm
    · exact fun hmem => hne _ (by decide) (List.mem_singleton.mp hmem).symm
    · have hfind : [(⟨ascii "e", .one (.symbol (ascii "tmp") false)⟩ : MacroBinding)].find?
          (fun b => b.name = hygienicName 1 (ascii "tmp")) = none := by
        rw [List.find?_cons_of_neg, List.find?_nil]
        simpa using hne (ascii "e") (by decide)
      exact congrArg (Option.map MacroBinding.bound) hfind
  all_goals cases hat

/-- The symbol `_h0.tmp` of a program is captured by the first binder that is renamed. -/
theorem expansion_captures :
    ∃ x r, expandAll [hygUse (ascii "_h0.tmp")] 0 = .ok r ∧
      (hygUse (ascii "_h0.tmp")).expansion = some x ∧
      ¬ Hygienic (withCounters [hygUse (ascii "_h0.tmp")] 0) 0 (hygUse (ascii "_h0.tmp")) x 0 := by
  refine ⟨_, _, rfl, rfl, fun h => ?_⟩
  obtain ⟨new, hnode, -, hfresh⟩ := h [1, 0] (ascii "tmp") false (some [(ascii "tmp", 0)]) rfl
  cases hnode
  exact hfresh.arguments (List.mem_singleton.mpr rfl)

end Eshkol.Vm
