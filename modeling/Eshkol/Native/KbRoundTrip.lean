import Eshkol.Native.KbFile

/-!
# Saving and Loading a Knowledge Base

When a knowledge base that was saved comes back from its file.

All of this takes place in one process, whose table of predicate names is the one at the time
of the load. Three things are lost on the way. The predicate 0 is written as the empty name,
and the empty name is interned; a name that is in no table is interned, or left in the reader's
buffer, and has another address than before; and the limits of the reader make it refuse files
that were written. A NaN comes back, and is not equal to itself.
-/

namespace Eshkol

open Codec Machine Unify
open Eskb (CString)

/-! ### Equality -/

/-- `eshkol_fact_equal`, on facts at different addresses. -/
def eshkolFactEqual (env : LogicEnv) (a b : Fact) : Bool :=
  a.args.length == b.args.length && samePredicate env a.predicate b.predicate &&
    (a.args.zip b.args).all fun p => taggedValuesEqual env p.1 p.2

/-- A NaN. -/
def Datum.isNan : Datum → Bool
  | .double d => !doubleEqual d d
  | _ => false

theorem taggedValuesEqual_self (env : LogicEnv) {a : UInt8 × Datum} {u : Bytes}
    (hu : writeArg a = some u) :
    taggedValuesEqual env a.2 a.2 = !a.2.isNan ∧
      taggedValuesEqual env (canonicalizeLogicVar env a.2) (canonicalizeLogicVar env a.2) =
        !a.2.isNan := by
  obtain ⟨flags, v⟩ := a
  cases v with
  | sym s =>
    by_cases hs : isVarName s = true
    · simp [canonicalizeLogicVar, hs, taggedValuesEqual, eshkolDeepEqual, Datum.isNan]
    · simp [canonicalizeLogicVar, hs, taggedValuesEqual, eshkolDeepEqual, Datum.isNan]
  | null | int | double | bool | char | var | nullPtr | str =>
    simp [canonicalizeLogicVar, taggedValuesEqual, eshkolDeepEqual, Datum.isNan, Datum.isEmptyList]
  | bignum | cons | fact | other => cases hu

theorem eshkolUnify_self {env : LogicEnv} {v : Datum}
    (h : taggedValuesEqual env (canonicalizeLogicVar env v) (canonicalizeLogicVar env v) = true)
    (n : ℕ) : eshkolUnify env (n + 1) v v (some []) = .ok (some []) := by
  have hnext : (logicEngine env).next (canonicalizeLogicVar env v) (canonicalizeLogicVar env v) =
      .done := if_pos h
  rw [eshkolUnify, Engine.unify, Option.getD_some, Engine.walk_nil, ok_bind, ok_bind]
  exact congrArg _ hnext

theorem unifyArgs_self {env : LogicEnv} {vs : List Datum}
    (h : ∀ v ∈ vs, taggedValuesEqual env (canonicalizeLogicVar env v)
      (canonicalizeLogicVar env v) = true) :
    Engine.unifyArgs (eshkolUnify env 1) vs vs (some []) = .ok (some []) := by
  induction vs with
  | nil => rfl
  | cons v vs ih =>
    rw [Engine.unifyArgs, eshkolUnify_self (h v (by simp)), ok_bind]
    exact ih fun w hw => h w (by simp [hw])

theorem ArgsUnify.unique {env : LogicEnv} {pattern fact : Fact} {s : Substitution}
    {r r' : Option Substitution} (h : ArgsUnify env pattern fact s r)
    (h' : ArgsUnify env pattern fact s r') : r = r' := by
  obtain ⟨n, hn⟩ := h
  obtain ⟨m, hm⟩ := h'
  have hn' := Semantics.unifyArgs_mono (fun _ _ _ _ => Semantics.unify_mono (le_max_left n m)) hn
  have hm' := Semantics.unifyArgs_mono (fun _ _ _ _ => Semantics.unify_mono (le_max_right n m)) hm
  exact Except.ok.inj (hn'.symm.trans hm')

/-! ### The round trip -/

/-- What is asked of a knowledge base that was saved: it is loaded, each fact has its name and
is equal to what it was, and queries give the same answers. -/
def RoundTrips (env : LogicEnv) (pool nameBuf : UInt64) (table : PredicateTable)
    (kb : List TaggedFact) (file : Bytes) : Prop :=
  ∃ kb', (eshkolKbLoad pool nameBuf table file).2 = some kb' ∧
    List.Forall₂ (fun fact fact' =>
      predicateName env fact.predicate = predicateName env fact'.predicate ∧
        eshkolFactEqual env fact.fact fact'.fact = true) kb kb' ∧
    ∀ pattern initial results,
      (∃ n, eshkolKbQuery env n (kb.map TaggedFact.fact) pattern initial = .ok results) ↔
        ∃ n, eshkolKbQuery env n (kb'.map TaggedFact.fact) pattern initial = .ok results

/-- A fact that comes back: its predicate is in the table of names, it is within the limits of
the reader, and it has no NaN. -/
structure TaggedFact.Keeps (env : LogicEnv) (table : PredicateTable) (fact : TaggedFact) :
    Prop where
  interned : table.Holds fact.predicate
  name : (env.predicateText fact.predicate).1.length ≤ 255
  arity : fact.args.length ≤ 4096
  texts : ∀ arg ∈ fact.args, arg.2.textLength ≤ 16 * 1024 * 1024
  numbers : ∀ arg ∈ fact.args, arg.2.isNan = false

/-- Where things are: neither the pool nor the buffer of the reader is at 0, and a text that
is in no entry of the table is in neither. -/
structure Layout (pool nameBuf : UInt64) (table : PredicateTable) (kb : List TaggedFact) :
    Prop where
  pool_ne_null : ¬ PredicateTable.InPool pool 0
  nameBuf_ne_null : nameBuf ≠ 0
  outside : ∀ fact ∈ kb, table.Holds fact.predicate ∨
    ¬ PredicateTable.InPool pool fact.predicate ∧ fact.predicate ≠ nameBuf

section Restore

variable {env : LogicEnv} {pool nameBuf : UInt64}

theorem restore_reached {table : PredicateTable} (h : table.Reached pool)
    (kb : List TaggedFact) : (restore pool nameBuf env table kb).1.Reached pool := by
  induction kb generalizing table with
  | nil => exact h
  | cons fact kb ih => exact ih (h.intern nameBuf _)

theorem subset_restore (table : PredicateTable) (kb : List TaggedFact) :
    table.entries ⊆ (restore pool nameBuf env table kb).1.entries := by
  induction kb generalizing table with
  | nil => exact fun e he => he
  | cons fact kb ih =>
    exact List.Subset.trans (PredicateTable.subset_intern pool table nameBuf _) (ih _)

theorem restore_args (table : PredicateTable) (kb : List TaggedFact) :
    List.Forall₂ (fun fact fact' => fact'.args = fact.args) kb
      (restore pool nameBuf env table kb).2 := by
  induction kb generalizing table with
  | nil => exact .nil
  | cons fact kb ih => exact .cons rfl (ih _)

theorem restore_predicate (table : PredicateTable) (kb : List TaggedFact) :
    ∀ fact ∈ (restore pool nameBuf env table kb).2,
      (restore pool nameBuf env table kb).1.Holds fact.predicate ∨ fact.predicate = nameBuf := by
  induction kb generalizing table with
  | nil =>
    intro fact hfact
    cases hfact
  | cons fact kb ih =>
    intro fact' hfact'
    rcases List.mem_cons.mp hfact' with rfl | hrest
    · rcases PredicateTable.intern_cases pool table nameBuf (loadedName env fact.predicate) with
        ⟨e, he, -, heq⟩ | ⟨-, -, heq⟩ | ⟨-, -, heq⟩
      · refine .inl ⟨e.2, subset_restore _ kb ?_⟩
        rw [heq]
        exact he
      · refine .inl ⟨loadedName env fact.predicate, subset_restore _ kb ?_⟩
        rw [heq]
        exact List.mem_append_right _ (List.mem_singleton_self _)
      · refine .inr ?_
        rw [heq]
    · exact ih _ fact' hrest

theorem restore_predicate_ne {table : PredicateTable} (htable : table.Reached pool)
    {kb : List TaggedFact} {fact : TaggedFact}
    (hfact : fact ∈ (restore pool nameBuf env table kb).2) {a : UInt64}
    (hpool : ¬ PredicateTable.InPool pool a) (hbuf : a ≠ nameBuf) : fact.predicate ≠ a := by
  rintro rfl
  rcases restore_predicate table kb fact hfact with ⟨text, htext⟩ | hbuf'
  · exact hpool ((restore_reached htable kb).stored _ htext).1
  · exact hbuf hbuf'

theorem loadedName_eq {predicate : UInt64} (hne : predicate ≠ 0)
    (hlen : (env.predicateText predicate).1.length < 2 ^ 32) :
    loadedName env predicate = env.predicateText predicate := by
  rw [loadedName, storedName, if_neg hne, Nat.mod_eq_of_lt hlen, List.take_length, textOf_eq]

theorem restore_eq_self {table : PredicateTable} (htable : table.Reached pool)
    (henv : table.Agrees env) {kb : List TaggedFact}
    (hkb : ∀ fact ∈ kb, fact.predicate ≠ 0 ∧ table.Holds fact.predicate) :
    restore pool nameBuf env table kb = (table, kb) := by
  induction kb with
  | nil => rfl
  | cons fact kb ih =>
    obtain ⟨hne, text, htext⟩ := hkb fact (by simp)
    have hname : env.predicateText fact.predicate = text := henv _ htext
    have hlen := (htable.stored _ htext).2
    have hloaded : loadedName env fact.predicate = text := by
      rw [loadedName_eq hne, hname]
      rw [hname]
      exact lt_trans hlen (by decide)
    have hintern : eshkolInternPredicate pool table nameBuf text = (table, fact.predicate) := by
      rcases PredicateTable.intern_cases pool table nameBuf text with ⟨e, he, het, heq⟩ |
        ⟨hnew, -, -⟩ | ⟨hnew, -, -⟩
      · rw [heq, List.inj_on_of_nodup_map htable.nodup he htext het]
      · exact absurd (List.mem_map_of_mem htext) hnew
      · exact absurd (List.mem_map_of_mem htext) hnew
    rw [restore, hloaded, hintern]
    dsimp only
    rw [ih fun f hf => hkb f (by simp [hf])]

end Restore

section

variable {env : LogicEnv} {pool nameBuf : UInt64} {table : PredicateTable}
  {kb : List TaggedFact} {file : Bytes}

theorem TaggedFact.Keeps.predicate_ne_zero (htable : table.Reached pool)
    (hlayout : Layout pool nameBuf table kb) {fact : TaggedFact} (h : fact.Keeps env table) :
    fact.predicate ≠ 0 := by
  obtain ⟨text, htext⟩ := h.interned
  intro hzero
  rw [hzero] at htext
  exact hlayout.pool_ne_null (htable.stored _ htext).1

theorem TaggedFact.Keeps.loadable {fact : TaggedFact} (h : fact.Keeps env table) :
    fact.Loadable env := by
  refine ⟨?_, h.arity, h.texts⟩
  rw [storedName]
  split
  · exact Nat.zero_le _
  · rw [List.length_take]
    exact (min_le_right _ _).trans h.name

theorem eshkolFactEqual_iff {fact fact' : TaggedFact} (hargs : fact'.args = fact.args) :
    eshkolFactEqual env fact.fact fact'.fact = true ↔
      predicateName env fact.predicate = predicateName env fact'.predicate ∧
        ∀ arg ∈ fact.args, taggedValuesEqual env arg.2 arg.2 = true := by
  rw [eshkolFactEqual, TaggedFact.fact, TaggedFact.fact, hargs, beq_self_eq_true, Bool.true_and,
    Bool.and_eq_true, samePredicate_iff, List.zip_map', List.all_map, List.all_eq_true]
  exact Iff.rfl

theorem roundTrips_of_keeps (htable : table.Reached pool) (hlayout : Layout pool nameBuf table kb)
    (hcount : kb.length < 2 ^ 32) (harity : ∀ fact ∈ kb, fact.args.length < 2 ^ 32)
    (henv : (eshkolKbLoad pool nameBuf table file).1.Agrees env)
    (hsave : eshkolKbSave env kb = some file) (hkb : ∀ fact ∈ kb, fact.Keeps env table) :
    RoundTrips env pool nameBuf table kb file := by
  have hload := (@eshkolKbLoad_saved pool nameBuf env table kb file hsave hcount harity).1
    fun fact hfact => (hkb fact hfact).loadable
  have hagrees : table.Agrees env := by
    intro e he
    refine henv e ?_
    rw [hload]
    exact subset_restore table kb he
  have hself := @restore_eq_self env pool nameBuf table htable hagrees kb fun fact hfact =>
    ⟨(hkb fact hfact).predicate_ne_zero htable hlayout, (hkb fact hfact).interned⟩
  rw [hself] at hload
  refine ⟨kb, by rw [hload], ?_, fun _ _ _ => Iff.rfl⟩
  rw [List.forall₂_same]
  intro fact hfact
  refine ⟨rfl, (eshkolFactEqual_iff rfl).mpr ⟨rfl, fun arg harg => ?_⟩⟩
  obtain ⟨u, hu⟩ := writeArg_of_save hsave hfact harg
  rw [(taggedValuesEqual_self env hu).1, (hkb fact hfact).numbers arg harg]
  rfl

theorem answers_nil {pattern : Fact} {kb : KnowledgeBase} {s : Substitution}
    (h : ∀ fact ∈ kb, ¬ Passes pattern fact) : Answers env (Passes pattern) kb pattern s [] := by
  refine ⟨kb.map fun _ => none, ?_, ?_⟩
  · rw [List.forall₂_map_right_iff, List.forall₂_same]
    exact fun fact hfact => .unfit (h fact hfact)
  · induction kb with
    | nil => rfl
    | cons fact kb ih => exact ih fun f hf => h f (by simp [hf])

theorem not_answers_nil {kb : KnowledgeBase} {fact : Fact} (hfact : fact ∈ kb)
    (hunify : ArgsUnify env fact fact [] (some [])) :
    ¬ Answers env (Passes fact) kb fact [] [] := by
  rintro ⟨outcomes, hall, hnil⟩
  induction hall with
  | nil => cases hfact
  | @cons f r facts outcomes hr _ ih =>
    cases r with
    | some s => cases hnil
    | none =>
      rcases List.mem_cons.mp hfact with rfl | hfact
      · rcases hr with ⟨-, hnone⟩ | hpasses
        · cases hnone.unique hunify
        · exact hpasses ⟨.inr (.inr rfl), rfl⟩
      · exact ih hfact hnil

/-- A fact whose predicate is at another address afterwards answers the query that it is
itself, before the save and not after the load. -/
theorem answers_differ (htable : table.Reached pool) (hlayout : Layout pool nameBuf table kb)
    (hzero : ∀ fact ∈ kb, fact.predicate ≠ 0) {fact : TaggedFact} (hfact : fact ∈ kb)
    (hpool : ¬ PredicateTable.InPool pool fact.predicate) (hbuf : fact.predicate ≠ nameBuf)
    (hself : ∀ arg ∈ fact.args, taggedValuesEqual env (canonicalizeLogicVar env arg.2)
      (canonicalizeLogicVar env arg.2) = true) :
    ¬ ∀ pattern initial results,
      (∃ n, eshkolKbQuery env n (kb.map TaggedFact.fact) pattern initial = .ok results) ↔
        ∃ n, eshkolKbQuery env n ((restore pool nameBuf env table kb).2.map TaggedFact.fact)
          pattern initial = .ok results := by
  intro hqueries
  have hafter : Answers env (Passes fact.fact)
      ((restore pool nameBuf env table kb).2.map TaggedFact.fact) fact.fact [] [] := by
    refine answers_nil ?_
    rintro _ hf ⟨hpasses, -⟩
    obtain ⟨fact', hfact', rfl⟩ := List.mem_map.mp hf
    rcases hpasses with h | h | h
    · exact hzero fact hfact h
    · exact restore_predicate_ne htable hfact' hlayout.pool_ne_null
        hlayout.nameBuf_ne_null.symm h
    · exact restore_predicate_ne htable hfact' hpool hbuf h.symm
  have hbefore := eshkolKbQuery_iff.mp ((hqueries fact.fact none []).mpr
    (eshkolKbQuery_iff.mpr hafter))
  refine not_answers_nil (List.mem_map_of_mem hfact) ⟨1, unifyArgs_self ?_⟩ hbefore
  intro v hv
  obtain ⟨arg, harg, rfl⟩ := List.mem_map.mp hv
  exact hself arg harg

/-- A file that is loaded back keeps each of its facts. -/
theorem keeps_of_roundTrips (htable : table.Reached pool) (hlayout : Layout pool nameBuf table kb)
    (hcount : kb.length < 2 ^ 32) (harity : ∀ fact ∈ kb, fact.args.length < 2 ^ 32)
    (henv : (eshkolKbLoad pool nameBuf table file).1.Agrees env)
    (hsave : eshkolKbSave env kb = some file) (h : RoundTrips env pool nameBuf table kb file) :
    ∀ fact ∈ kb, fact.Keeps env table := by
  obtain ⟨kb', hload, hsame, hqueries⟩ := h
  have hsaved := @eshkolKbLoad_saved pool nameBuf env table kb file hsave hcount harity
  have hall : ∀ fact ∈ kb, fact.Loadable env := by
    by_contra hall
    rw [hsaved.2 hall] at hload
    cases hload
  rw [hsaved.1 hall] at hload henv
  obtain rfl := Option.some.inj hload
  -- each fact is equal to what came back, which has the same arguments
  have hequal : ∀ fact ∈ kb, ∃ fact' ∈ (restore pool nameBuf env table kb).2,
      predicateName env fact.predicate = predicateName env fact'.predicate ∧
        ∀ arg ∈ fact.args, taggedValuesEqual env arg.2 arg.2 = true := by
    intro fact hfact
    obtain ⟨i, hi, rfl⟩ := List.getElem_of_mem hfact
    have hi' : i < (restore pool nameBuf env table kb).2.length := by
      rw [← hsame.length_eq]
      exact hi
    have hargs := (restore_args table kb).get hi hi'
    exact ⟨_, List.getElem_mem hi', (eshkolFactEqual_iff hargs).mp (hsame.get hi hi').2⟩
  have hnumbers : ∀ fact ∈ kb, ∀ arg ∈ fact.args, arg.2.isNan = false := by
    intro fact hfact arg harg
    obtain ⟨u, hu⟩ := writeArg_of_save hsave hfact harg
    obtain ⟨-, -, -, hargs⟩ := hequal fact hfact
    have hself := hargs arg harg
    rw [(taggedValuesEqual_self env hu).1] at hself
    simpa using hself
  have hzero : ∀ fact ∈ kb, fact.predicate ≠ 0 := by
    intro fact hfact hzero
    obtain ⟨fact', hfact', hname, -⟩ := hequal fact hfact
    have hne := restore_predicate_ne htable hfact' hlayout.pool_ne_null
      hlayout.nameBuf_ne_null.symm
    rw [predicateName, predicateName, if_pos hzero, if_neg hne] at hname
    cases hname
  have hheld : ∀ fact ∈ kb, table.Holds fact.predicate := by
    intro fact hfact
    refine (hlayout.outside fact hfact).resolve_right ?_
    rintro ⟨hpool, hbuf⟩
    refine answers_differ htable hlayout hzero hfact hpool hbuf ?_ hqueries
    intro arg harg
    obtain ⟨u, hu⟩ := writeArg_of_save hsave hfact harg
    rw [(taggedValuesEqual_self env hu).2, hnumbers fact hfact arg harg]
    rfl
  intro fact hfact
  refine ⟨hheld fact hfact, ?_, (hall fact hfact).arity, (hall fact hfact).texts,
    hnumbers fact hfact⟩
  obtain ⟨text, htext⟩ := hheld fact hfact
  have hname : env.predicateText fact.predicate = text := henv _ (subset_restore table kb htext)
  have hlen : (env.predicateText fact.predicate).1.length < 2 ^ 32 := by
    rw [hname]
    exact lt_trans (htable.stored _ htext).2 (by decide)
  have hstored := (hall fact hfact).name
  rwa [storedName, if_neg (hzero fact hfact), Nat.mod_eq_of_lt hlen, List.take_length] at hstored

end

/-- **A knowledge base that was saved comes back** exactly when all its predicates are in the
table of names, it is within the limits of the reader, and it has no NaN. -/
theorem kb_round_trip_iff (env : LogicEnv) {pool nameBuf : UInt64} {table : PredicateTable}
    {kb : List TaggedFact} {file : Bytes} (htable : table.Reached pool)
    (hlayout : Layout pool nameBuf table kb) (hcount : kb.length < 2 ^ 32)
    (harity : ∀ fact ∈ kb, fact.args.length < 2 ^ 32)
    (henv : (eshkolKbLoad pool nameBuf table file).1.Agrees env)
    (hsave : eshkolKbSave env kb = some file) :
    RoundTrips env pool nameBuf table kb file ↔ ∀ fact ∈ kb, fact.Keeps env table :=
  ⟨keeps_of_roundTrips htable hlayout hcount harity henv hsave,
    roundTrips_of_keeps htable hlayout hcount harity henv hsave⟩

/-- With the name `g` interned, `(g 5)` comes back. -/
theorem kb_round_trip_iff_one :
    ∃ file, eshkolKbSave oneFunctor [⟨1, [(0, .int 5)]⟩] = some file ∧
      RoundTrips oneFunctor 1 1048576 ⟨[(1, ⟨[103], by decide⟩)], 2⟩ [⟨1, [(0, .int 5)]⟩] file := by
  have htable : PredicateTable.Reached 1 ⟨[(1, ⟨[103], by decide⟩)], 2⟩ :=
    @PredicateTable.Reached.intern 1 _ .empty 7 ⟨[103], by decide⟩
  have hheld : PredicateTable.Holds ⟨[(1, ⟨[103], by decide⟩)], 2⟩ 1 := ⟨_, List.mem_singleton_self _⟩
  have hnull : ¬ PredicateTable.InPool 1 0 := by
    rintro ⟨k, hk, h⟩
    have hk' : k < 64 * 1024 := hk
    have hsum := congrArg UInt64.toNat h
    rw [UInt64.toNat_add, UInt64.toNat_ofNat', UInt64.toNat_zero, UInt64.toNat_one] at hsum
    omega
  refine ⟨_, rfl, (kb_round_trip_iff oneFunctor htable ⟨hnull, by decide, ?_⟩ (by decide) ?_ ?_
    rfl).mpr ?_⟩
  · intro fact hfact
    obtain rfl := List.mem_singleton.mp hfact
    exact .inl hheld
  · intro fact hfact
    obtain rfl := List.mem_singleton.mp hfact
    decide
  · intro e he
    obtain rfl := List.mem_singleton.mp (show e ∈ [(1, ⟨[103], by decide⟩)] from he)
    rfl
  · intro fact hfact
    obtain rfl := List.mem_singleton.mp hfact
    refine ⟨hheld, by decide, by decide, ?_, ?_⟩
    · intro arg harg
      obtain rfl := List.mem_singleton.mp harg
      exact Nat.zero_le _
    · intro arg harg
      obtain rfl := List.mem_singleton.mp harg
      rfl

/-- A process in which no predicate has a name. -/
def noNames : LogicEnv where
  predicateText _ := ⟨[], by decide⟩
  makeLogicVar _ := 0
  toDouble _ := 0
  otherEqual _ _ := false

/-- The fact made from the list `(1)` has no predicate, and comes back with the empty name. -/
theorem not_roundTrips :
    ∃ file, eshkolKbSave noNames [⟨0, [(0, .int 1)]⟩] = some file ∧
      (eshkolKbLoad 1 1048576 .empty file).2 = some [⟨1, [(0, .int 1)]⟩] ∧
      ¬ RoundTrips noNames 1 1048576 .empty [⟨0, [(0, .int 1)]⟩] file := by
  refine ⟨_, rfl, rfl, ?_⟩
  rintro ⟨kb', hload, hsame, -⟩
  obtain rfl := Option.some.inj hload
  obtain _ | ⟨⟨hname, -⟩, -⟩ := hsame
  cases hname

end Eshkol
