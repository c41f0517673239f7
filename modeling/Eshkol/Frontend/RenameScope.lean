import Eshkol.Frontend.LexicalRename

/-!
# Module Privacy and Lexical Scope

What the renamer of private names does with a reference depends on the context of the reference:
it is left alone if it stands in the test of a pattern or if a binder that the renamer sees binds
its name. By lexical scope it is left alone if a binder in force binds its name.
-/

namespace Eshkol.Frontend

/-! ### The renamer -/

/-- What the renamer does with a reference in a context. -/
def renamerRule (privates : RenameMap) (Γ : Context) (name : String) : String :=
  if LeftAlone Γ name then name else (privates.lookup name).getD name

/-- What becomes of a reference by lexical scope. -/
def lexicalRule (privates : RenameMap) (Γ : Context) (name : String) : String :=
  if LexicallyBound Γ name then name else (privates.lookup name).getD name

/-- The environments of the renamer in a context: the names it takes for bound, and the private
names that are not. -/
structure Agrees (privates names : RenameMap) (bound : BoundNames) (Γ : Context) : Prop where
  mem_bound : ∀ x, x ∈ bound ↔ LeftAlone Γ x
  lookup_eq : ∀ x, x ∉ bound → names.lookup x = privates.lookup x

variable {x moduleName : String} {asts : List Ast} {exports : List String}

theorem lookup_eraseBound {names : RenameMap} {bound : BoundNames} (hx : x ∉ bound) :
    (eraseBound names bound).lookup x = names.lookup x := by
  induction names with
  | nil => rfl
  | cons n names ih =>
    rw [eraseBound, List.filter_cons]
    by_cases hn : n.1 ∈ bound
    · have hne : (x == n.1) = false := by
        rw [beq_eq_false_iff_ne]
        rintro rfl
        exact hx hn
      rw [if_neg (by simpa using hn), ← eraseBound, ih, List.lookup_cons, hne]
    · rw [if_pos (by simpa using hn), List.lookup_cons, List.lookup_cons, ← eraseBound, ih]

theorem leftAlone_cons {b : Binder} {Γ : Context} :
    LeftAlone (b :: Γ) x ↔
      (b.kind = .test ∨ (b.kind = .parameter ∨ b.kind = .earlier) ∧ x ∈ b.names) ∨
        LeftAlone Γ x := by
  simp only [LeftAlone, List.exists_mem_cons_iff]

namespace Agrees

variable {privates names : RenameMap} {bound : BoundNames} {Γ : Context}

theorem reference (h : Agrees privates names bound Γ) (x : String) :
    renameReference names bound x = renamerRule privates Γ x := by
  rw [renameReference, renamerRule]
  by_cases hx : x ∈ bound
  · rw [if_pos hx, if_pos ((h.mem_bound x).mp hx)]
  · rw [if_neg hx, if_neg fun hl => hx ((h.mem_bound x).mpr hl), h.lookup_eq x hx]

theorem seen (h : Agrees privates names bound Γ) {names' : RenameMap} {kind : BinderKind}
    (hkind : kind = .parameter ∨ kind = .earlier) (ns : List String)
    (hnames : ∀ x, x ∉ ns ++ bound → names'.lookup x = privates.lookup x) :
    Agrees privates names' (ns ++ bound) (⟨kind, ns⟩ :: Γ) := by
  refine ⟨fun x => ?_, hnames⟩
  rw [List.mem_append, leftAlone_cons, h.mem_bound]
  rcases hkind with rfl | rfl
  · simp
  · simp

theorem erased (h : Agrees privates names bound Γ) (ns : List String) :
    ∀ x, x ∉ ns ++ bound → (eraseBound names (ns ++ bound)).lookup x = privates.lookup x := by
  intro x hx
  rw [lookup_eraseBound hx, h.lookup_eq x fun hb => hx (List.mem_append_right ns hb)]

theorem bind (h : Agrees privates names bound Γ) (ns : List String) :
    Agrees privates (eraseBound names (ns ++ bound)) (ns ++ bound) (⟨.parameter, ns⟩ :: Γ) :=
  h.seen (.inl rfl) ns (h.erased ns)

theorem unseen (h : Agrees privates names bound Γ) {kind : BinderKind}
    (hkind : kind = .definition ∨ kind = .pattern ∨ kind = .loop) (ns : List String) :
    Agrees privates names bound (⟨kind, ns⟩ :: Γ) := by
  refine ⟨fun x => ?_, h.lookup_eq⟩
  rw [leftAlone_cons, h.mem_bound]
  rcases hkind with rfl | rfl | rfl
  · simp
  · simp
  · simp

theorem beforeInit (h : Agrees privates names bound Γ) {names' : RenameMap} (op : LetOp)
    (earlier : List String)
    (hnames : ∀ x, x ∉ earlier ++ bound → names'.lookup x = privates.lookup x) :
    Agrees privates names' (earlier ++ bound) (beforeInit Γ op earlier) := by
  refine h.seen ?_ earlier hnames
  split
  · exact .inr rfl
  · exact .inl rfl

theorem inBody (h : Agrees privates names bound Γ) (body : Ast) :
    Agrees privates names bound (inBody Γ body) :=
  h.unseen (.inl rfl) _

end Agrees

/-- A context inside a test. -/
def InTest (Γ : Context) : Prop := ∃ b ∈ Γ, b.kind = .test

theorem inherited_inTest : Inherited InTest := by
  rintro Γ b ⟨c, hc, hk⟩
  exact ⟨c, List.mem_cons_of_mem b hc, hk⟩

theorem rewritePattern_renamerRule (privates : RenameMap) (q : Pattern) (Γ : Context) :
    rewritePattern (renamerRule privates) q Γ = q := by
  refine rewritePattern_eq_self inherited_inTest (fun Δ x h => ?_) q Γ
    ⟨_, List.mem_cons_self, rfl⟩
  obtain ⟨b, hb, hk⟩ := h
  rw [renamerRule, if_pos ⟨b, hb, .inl hk⟩]

section Renamer

variable {privates : RenameMap}

mutual

/-- The renaming is the rewriting of references by a rule on their scopes. -/
theorem renameAst_eq_rewrite : ∀ (a : Ast) {names : RenameMap} {bound : BoundNames} {Γ : Context},
    Agrees privates names bound Γ → renameAst a names bound = rewrite (renamerRule privates) a Γ
  | .literal value, _, _, _, _ => by rw [renameAst, rewrite]
  | .var id, _, _, _, h => by rw [renameAst, rewrite, h.reference]
  | .cons car cdr, _, _, _, h => by
      rw [renameAst, rewrite, renameAst_eq_rewrite car h, renameAst_eq_rewrite cdr h]
  | .call op none args, _, _, _, h => by
      rw [renameAst, rewrite, renameQuasiquotes_eq_rewrite args h, renameAsts_eq_rewrite args h]
  | .call op (some func) args, _, _, _, h => by
      rw [renameAst, rewrite, renameQuasiquotes_eq_rewrite args h, renameAst_eq_rewrite func h,
        renameAsts_eq_rewrite args h]
  | .sequence op expressions, _, _, _, h => by
      rw [renameAst, rewrite, renameAsts_eq_rewrite expressions h]
  | .define name isFunction parameters rest value, _, _, _, h => by
      rw [renameAst, rewrite]
      dsimp only
      rw [renameAst_eq_rewrite value ((h.bind (parameterNames parameters rest)).inBody value),
        renameAst_eq_rewrite value h]
      split
      · rfl
      · rfl
  | .lambda parameters rest body, _, _, _, h => by
      rw [renameAst, rewrite,
        renameAst_eq_rewrite body ((h.bind (parameterNames parameters rest)).inBody body)]
  | .letForm op name bindings body, names, bound, Γ, h => by
      rw [renameAst, rewrite, renameAst_eq_rewrite body (((h.unseen (.inr (.inr rfl)) name.toList).bind
        (bindings.filterMap bindingName)).inBody body)]
      congr 1
      by_cases hop : op = .letrec ∨ op = .letrecStar
      · have hbase := h.bind (bindings.filterMap bindingName)
        rw [if_pos hop, inInits, if_pos hop]
        refine renameBindings_eq_rewrite bindings op [] hbase (fun hp => ?_) hbase.lookup_eq
        rcases hop with rfl | rfl
        · simp at hp
        · simp at hp
      · rw [if_neg hop, inInits, if_neg hop]
        exact renameBindings_eq_rewrite bindings op [] h (fun _ => rfl) h.lookup_eq
  | .letValues sequential bindings body, names, bound, Γ, h => by
      rw [renameAst, rewrite,
        renameAst_eq_rewrite body ((h.bind (bindings.flatMap ValuesBinding.vars)).inBody body)]
      congr 1
      exact renameProducers_eq_rewrite bindings sequential [] h (fun _ => h.lookup_eq)
        (fun _ => h.lookup_eq)
  | .setForm name value, _, _, _, h => by
      rw [renameAst, rewrite, h.reference, renameAst_eq_rewrite value h]
  | .matchForm expr clauses, _, _, _, h => by
      rw [renameAst, rewrite, renameAst_eq_rewrite expr h, renameClauses_eq_rewrite clauses h]
  | .guardForm varName clauses body, _, _, _, h => by
      rw [renameAst, rewrite, renameAsts_eq_rewrite clauses (h.bind varName.toList),
        renameAsts_eq_rewrite body (h.unseen (.inl rfl) _)]
  | .operands op args, _, _, _, h => by rw [renameAst, rewrite, renameAsts_eq_rewrite args h]
  | .defineSyntax (.mk name literals rules), _, _, _, h => by
      rw [renameAst, rewrite, renameMacroTemplates_eq_rewrite rules h]
  | .letSyntax definitions body, _, _, _, h => by
      rw [renameAst, rewrite, renameAst_eq_rewrite body h]

theorem renameAsts_eq_rewrite : ∀ (as : List Ast) {names : RenameMap} {bound : BoundNames}
    {Γ : Context}, Agrees privates names bound Γ →
      renameAsts as names bound = rewriteAll (renamerRule privates) as Γ
  | [], _, _, _, _ => by rw [renameAsts, rewriteAll]
  | a :: as, _, _, _, h => by
      rw [renameAsts, rewriteAll, renameAst_eq_rewrite a h, renameAsts_eq_rewrite as h]

theorem renameBindings_eq_rewrite : ∀ (bs : List LetBinding) (op : LetOp)
    {names base valueNames : RenameMap} {bound : BoundNames} {Γ : Context} (earlier : List String),
    Agrees privates base bound Γ → (op = .plain ∨ op = .star → names = base) →
    (∀ x, x ∉ earlier ++ bound → valueNames.lookup x = privates.lookup x) →
      renameBindings bs op names valueNames (earlier ++ bound) =
        rewriteBindings (renamerRule privates) bs op Γ earlier
  | [], _, _, _, _, _, _, _, _, _, _ => by rw [renameBindings, rewriteBindings]
  | .mk binder init :: bs, op, names, base, valueNames, bound, Γ, earlier, h, hop, hv => by
      rw [renameBindings, rewriteBindings, renameAst_eq_rewrite init (h.beforeInit op earlier hv)]
      congr 1
      cases astName binder with
      | none => exact renameBindings_eq_rewrite bs op earlier h hop hv
      | some name =>
        dsimp only [Option.toList_some, List.singleton_append]
        split
        next hps =>
          obtain rfl := hop hps
          exact renameBindings_eq_rewrite bs op (name :: earlier) h hop
            (h.erased (name :: earlier))
        next =>
          exact renameBindings_eq_rewrite bs op (name :: earlier) h hop
            fun x hx => hv x (List.not_mem_of_not_mem_cons hx)

theorem renameProducers_eq_rewrite : ∀ (bs : List ValuesBinding) (sequential : Bool)
    {base names : RenameMap} {bound : BoundNames} {Γ : Context} (earlier : List String),
    Agrees privates base bound Γ →
    (sequential = true → ∀ x, x ∉ earlier ++ bound → names.lookup x = privates.lookup x) →
    (sequential = false → ∀ x, x ∉ bound → names.lookup x = privates.lookup x) →
      renameProducers bs sequential bound names (earlier ++ bound) =
        rewriteProducers (renamerRule privates) bs sequential Γ earlier
  | [], _, _, _, _, _, _, _, _, _ => by rw [renameProducers, rewriteProducers]
  | .mk vars producer :: bs, true, base, names, bound, Γ, earlier, h, hs, hp => by
      have hagree := h.seen (.inl rfl) earlier (hs rfl)
      rw [renameProducers, rewriteProducers, if_pos rfl, if_pos rfl, beforeProducer, if_pos rfl,
        renameAst_eq_rewrite producer hagree, ← List.append_assoc]
      rw [renameProducers_eq_rewrite bs true (vars ++ earlier) h
        (fun _ x hx => ?_) (fun hf => absurd hf (by simp))]
      rw [List.append_assoc] at hx
      rw [List.append_assoc]
      exact hagree.erased vars x hx
  | .mk vars producer :: bs, false, base, names, bound, Γ, earlier, h, hs, hp => by
      have hagree : Agrees privates names bound Γ := ⟨h.mem_bound, hp rfl⟩
      rw [renameProducers, rewriteProducers, if_neg (by simp), if_neg (by simp), beforeProducer,
        if_neg (by simp), renameAst_eq_rewrite producer hagree, ← List.append_assoc,
        renameProducers_eq_rewrite bs false (vars ++ earlier) h (fun ht => absurd ht (by simp)) hp]

theorem renameClauses_eq_rewrite : ∀ (cs : List MatchClause) {names : RenameMap}
    {bound : BoundNames} {Γ : Context}, Agrees privates names bound Γ →
      renameClauses cs names bound = rewriteClauses (renamerRule privates) cs Γ
  | [], _, _, _, _ => by rw [renameClauses, rewriteClauses]
  | .mk pattern none body :: cs, _, _, _, h => by
      rw [renameClauses, rewriteClauses, renameClauses_eq_rewrite cs h,
        rewritePattern_renamerRule privates,
        renameAst_eq_rewrite body ((h.unseen (.inr (.inl rfl)) pattern.vars).inBody body)]
  | .mk pattern (some guard) body :: cs, _, _, _, h => by
      rw [renameClauses, rewriteClauses, renameClauses_eq_rewrite cs h,
        rewritePattern_renamerRule privates,
        renameAst_eq_rewrite guard (h.unseen (.inr (.inl rfl)) pattern.vars),
        renameAst_eq_rewrite body ((h.unseen (.inr (.inl rfl)) pattern.vars).inBody body)]

theorem renameQuasiquote_eq_rewrite : ∀ (a : Ast) {names : RenameMap} {bound : BoundNames}
    {Γ : Context}, Agrees privates names bound Γ →
      renameQuasiquote a names bound = rewriteQuasiquote (renamerRule privates) a Γ
  | .cons car cdr, _, _, _, h => by
      rw [renameQuasiquote, rewriteQuasiquote, renameQuasiquote_eq_rewrite car h,
        renameQuasiquote_eq_rewrite cdr h]
  | .call op none args, _, _, _, h => by
      rw [renameQuasiquote, rewriteQuasiquote, renameAsts_eq_rewrite args h,
        renameQuasiquotes_eq_rewrite args h]
  | .call op (some func) args, _, _, _, h => by
      rw [renameQuasiquote, rewriteQuasiquote, renameAsts_eq_rewrite args h,
        renameQuasiquote_eq_rewrite func h, renameQuasiquotes_eq_rewrite args h]
  | .operands op args, _, _, _, h => by
      rw [renameQuasiquote, rewriteQuasiquote, renameQuasiquotes_eq_rewrite args h]
  | .literal _, _, _, _, _ | .var _, _, _, _, _ | .sequence _ _, _, _, _, _
  | .define _ _ _ _ _, _, _, _, _ | .lambda _ _ _, _, _, _, _ | .letForm _ _ _ _, _, _, _, _
  | .letValues _ _ _, _, _, _, _ | .setForm _ _, _, _, _, _ | .matchForm _ _, _, _, _, _
  | .guardForm _ _ _, _, _, _, _ | .defineSyntax _, _, _, _, _ | .letSyntax _ _, _, _, _, _ => by
      simp only [renameQuasiquote, rewriteQuasiquote]

theorem renameQuasiquotes_eq_rewrite : ∀ (as : List Ast) {names : RenameMap} {bound : BoundNames}
    {Γ : Context}, Agrees privates names bound Γ →
      renameQuasiquotes as names bound = rewriteQuasiquotes (renamerRule privates) as Γ
  | [], _, _, _, _ => by rw [renameQuasiquotes, rewriteQuasiquotes]
  | a :: as, _, _, _, h => by
      rw [renameQuasiquotes, rewriteQuasiquotes, renameQuasiquote_eq_rewrite a h,
        renameQuasiquotes_eq_rewrite as h]

theorem renameMacroTemplates_eq_rewrite : ∀ (rs : List MacroRule) {names : RenameMap}
    {bound : BoundNames} {Γ : Context}, Agrees privates names bound Γ →
      renameMacroTemplates rs names bound = rewriteTemplates (renamerRule privates) rs Γ
  | [], _, _, _, _ => by rw [renameMacroTemplates, rewriteTemplates]
  | .mk pattern (.literal ast) :: rs, _, _, _, h => by
      rw [renameMacroTemplates, rewriteTemplates, renameAst_eq_rewrite ast h,
        renameMacroTemplates_eq_rewrite rs h]
  | .mk pattern (.variable name) :: rs, _, _, _, h => by
      simp only [renameMacroTemplates, rewriteTemplates, renameMacroTemplates_eq_rewrite rs h]
  | .mk pattern (.list elements) :: rs, _, _, _, h => by
      simp only [renameMacroTemplates, rewriteTemplates, renameMacroTemplates_eq_rewrite rs h]

end

end Renamer

/-! ### Private names -/

/-- A name is private to a module: it is defined at the top level and not exported. -/
def IsPrivate (asts : List Ast) (exports : List String) (x : String) : Prop :=
  x ∉ exports ∧ ∃ isFunction parameters rest value,
    Ast.define x isFunction parameters rest value ∈ asts

theorem mem_privateNames {n : String × String} (h : n ∈ privateNames asts moduleName exports) :
    n.2 = privateName moduleName n.1 ∧ IsPrivate asts exports n.1 := by
  obtain ⟨a, ha, hn⟩ := List.mem_filterMap.mp h
  split at hn
  case h_1 name isFunction parameters rest value =>
      split at hn
      case isTrue => simp at hn
      case isFalse hx =>
          obtain rfl := Option.some.inj hn
          exact ⟨rfl, hx, isFunction, parameters, rest, value, ha⟩
  case h_2 => simp at hn

theorem privateNames_lookup (h : IsPrivate asts exports x) :
    (privateNames asts moduleName exports).lookup x = some (privateName moduleName x) := by
  obtain ⟨hx, isFunction, parameters, rest, value, ha⟩ := h
  have hmem : (x, privateName moduleName x) ∈ privateNames asts moduleName exports :=
    List.mem_filterMap.mpr ⟨_, ha, by simp [hx]⟩
  cases hl : (privateNames asts moduleName exports).lookup x with
  | none =>
    have := List.lookup_eq_none_iff.mp hl _ hmem
    simp at this
  | some y =>
    obtain ⟨l, r, heq, -⟩ := List.lookup_eq_some_iff.mp hl
    have hy : (x, y) ∈ privateNames asts moduleName exports := by
      rw [heq]
      exact List.mem_append_right l List.mem_cons_self
    exact congrArg some (mem_privateNames hy).1

theorem privateNames_lookup_of_not (h : ¬ IsPrivate asts exports x) :
    (privateNames asts moduleName exports).lookup x = none := by
  refine List.lookup_eq_none_iff.mpr fun n hn => ?_
  rw [bne_iff_ne]
  rintro rfl
  exact h (mem_privateNames hn).2

/-- The renamer and lexical scope agree on a reference exactly if the name is not private or both
take it for bound or both do not. -/
theorem renamerRule_eq_iff (asts : List Ast) (moduleName : String) (exports : List String)
    (Γ : Context) (x : String) :
    renamerRule (privateNames asts moduleName exports) Γ x =
        lexicalRule (privateNames asts moduleName exports) Γ x ↔
      (IsPrivate asts exports x → (LeftAlone Γ x ↔ LexicallyBound Γ x)) := by
  rw [renamerRule, lexicalRule]
  by_cases hp : IsPrivate asts exports x
  · have hne := privateName_ne moduleName x
    rw [privateNames_lookup hp, Option.getD_some]
    by_cases hr : LeftAlone Γ x <;> by_cases hl : LexicallyBound Γ x <;>
      simp [hp, hr, hl, hne, hne.symm]
  · rw [privateNames_lookup_of_not hp, Option.getD_none, ite_self, ite_self]
    exact iff_of_true rfl fun h => absurd h hp

/-! ### Modules -/

/-- A module with its private names renamed by lexical scope. -/
def lexicalRename (asts : List Ast) (moduleName : String) (exports : List String) : List Ast :=
  let names := privateNames asts moduleName exports
  asts.map fun a => rewrite (lexicalRule names) (renameDefinition names a) []

theorem agrees_nil (names : RenameMap) : Agrees names names [] [] :=
  ⟨fun x => by simp [LeftAlone], fun _ _ => rfl⟩

theorem renameDefinition_nil (a : Ast) : renameDefinition [] a = a := by cases a <;> rfl

theorem rewrite_renamerRule_nil (a : Ast) : rewrite (renamerRule []) a [] = a :=
  rewrite_eq_self (c := fun _ => True) (fun _ _ _ => trivial)
    (fun Γ x _ => by rw [renamerRule, List.lookup_nil, Option.getD_none, ite_self]) a [] trivial

theorem renamePrivateSymbols_eq (asts : List Ast) (moduleName : String)
    (exports : List String) :
    renamePrivateSymbols asts moduleName exports =
      asts.map fun a => rewrite (renamerRule (privateNames asts moduleName exports))
        (renameDefinition (privateNames asts moduleName exports) a) [] := by
  rw [renamePrivateSymbols]
  split
  case isTrue h =>
      rw [List.isEmpty_iff.mp h]
      simp only [renameDefinition_nil, rewrite_renamerRule_nil, List.map_id']
  case isFalse h =>
      exact List.map_congr_left fun a _ => renameAst_eq_rewrite _ (agrees_nil _)

theorem allReferences_renameDefinition {p : Context → String → Prop} (names : RenameMap) (a : Ast)
    (Γ : Context) : AllReferences p (renameDefinition names a) Γ ↔ AllReferences p a Γ := by
  cases a <;> simp only [renameDefinition, AllReferences]

/-- **Module privacy and lexical scope**: the renamer renames the references to the private names
of a module as lexical scope has it, exactly if it leaves those references alone that are bound
in their contexts. -/
theorem renamePrivateSymbols_eq_iff (asts : List Ast) (moduleName : String)
    (exports : List String) :
    renamePrivateSymbols asts moduleName exports = lexicalRename asts moduleName exports ↔
      ∀ a ∈ asts, AllReferences
        (fun Γ x => IsPrivate asts exports x → (LeftAlone Γ x ↔ LexicallyBound Γ x)) a [] := by
  rw [renamePrivateSymbols_eq, lexicalRename, List.map_inj_left]
  refine forall₂_congr fun a _ => ?_
  rw [rewrite_eq_iff, allReferences_renameDefinition]
  simp only [renamerRule_eq_iff]

/-- `(define x 1) (define (f) (let ((x 2) (y x)) y))`. -/
def shadowingLet : List Ast :=
  [.define "x" false [] none (.literal (.int64 1)),
    .define "f" true [] none
      (.letForm .plain none
        [.mk (.var "x") (.literal (.int64 2)), .mk (.var "y") (.var "x")] (.var "y"))]

/-- In `(let ((x 2) (y x)) y)` the init of `y` refers to the private `x`, and the renamer leaves
it alone. -/
theorem renamePrivateSymbols_not_lexical :
    renamePrivateSymbols shadowingLet "m" ["f"] ≠ lexicalRename shadowingLet "m" ["f"] := by
  intro h
  rw [renamePrivateSymbols_eq, lexicalRename, List.map_inj_left] at h
  have hf := (rewrite_eq_iff _ _ _ _).mp (h _ (.tail _ (.head _)))
  simp only [renamerRule_eq_iff, allReferences_renameDefinition] at hf
  have hinit : AllReferences (fun Γ x => IsPrivate shadowingLet ["f"] x →
      (LeftAlone Γ x ↔ LexicallyBound Γ x)) (.var "x")
      [⟨.earlier, ["x"]⟩, ⟨.definition, []⟩, ⟨.parameter, []⟩] := hf.1.2.1
  have hprivate : IsPrivate shadowingLet ["f"] "x" := ⟨by simp, false, [], none, _, .head _⟩
  simpa [LeftAlone, LexicallyBound] using hinit hprivate

end Eshkol.Frontend
