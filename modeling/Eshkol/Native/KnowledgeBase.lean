import Mathlib.Data.List.Forall2
import Mathlib.Data.List.ReduceOption
import Eshkol.Native.Unification

/-!
# Knowledge Bases

Facts, the table of predicate names, `eshkol_kb_assert` and `eshkol_kb_query`
(`lib/core/logic.cpp`).

A query passes over a fact whose predicate is at another address than the pattern's. It
compares addresses only, and relies on `eshkol_intern_predicate` to give each name one
address. A predicate of 0 is that of a list without a name at its head, and passes the
comparison on either side. The table has 1024 entries and a pool of 64 KiB; when either is
used up, the address of the caller's own text is returned, and is no longer the same for the
same name.
-/

namespace Eshkol

open Machine Unify
open Eskb (CString)

/-! ### Predicate names -/

/-- `g_pred_table`, as the address and the text of each entry, and `g_pred_pool_offset`. -/
structure PredicateTable : Type where
  entries : List (UInt64 × CString)
  poolOffset : ℕ

namespace PredicateTable

/-- `PRED_TABLE_SIZE`. -/
def tableSize : ℕ := 1024

/-- `PRED_POOL_SIZE`. -/
def poolSize : ℕ := 64 * 1024

/-- The table of a new process. -/
def empty : PredicateTable := ⟨[], 0⟩

/-- Whether a name that is not in the table fits into it. -/
def HasRoom (table : PredicateTable) (text : CString) : Prop :=
  table.entries.length < tableSize ∧ table.poolOffset + (text.1.length + 1) ≤ poolSize

instance (table : PredicateTable) (text : CString) : Decidable (table.HasRoom text) :=
  inferInstanceAs (Decidable (_ ∧ _))

end PredicateTable

/-- `eshkol_intern_predicate`, given the address of the pool, the address of a name and its
text. -/
def eshkolInternPredicate (pool : UInt64) (table : PredicateTable) (name : UInt64)
    (text : CString) : PredicateTable × UInt64 :=
  match table.entries.find? fun e => e.2 = text with
  | some e => (table, e.1)
  | none =>
    if table.HasRoom text then
      let slot := pool + UInt64.ofNat table.poolOffset
      (⟨table.entries ++ [(slot, text)], table.poolOffset + (text.1.length + 1)⟩, slot)
    else (table, name)

namespace PredicateTable

/-- The tables that calls of `eshkol_intern_predicate` make. -/
inductive Reached (pool : UInt64) : PredicateTable → Prop
  | empty : Reached pool empty
  | intern {table : PredicateTable} (h : Reached pool table) (name : UInt64) (text : CString) :
      Reached pool (eshkolInternPredicate pool table name text).1

theorem intern_cases (pool : UInt64) (table : PredicateTable) (name : UInt64) (text : CString) :
    (∃ e ∈ table.entries, e.2 = text ∧ eshkolInternPredicate pool table name text = (table, e.1)) ∨
    (text ∉ table.entries.map Prod.snd ∧ table.HasRoom text ∧
      eshkolInternPredicate pool table name text =
        (⟨table.entries ++ [(pool + UInt64.ofNat table.poolOffset, text)],
          table.poolOffset + (text.1.length + 1)⟩, pool + UInt64.ofNat table.poolOffset)) ∨
    (text ∉ table.entries.map Prod.snd ∧ ¬ table.HasRoom text ∧
      eshkolInternPredicate pool table name text = (table, name)) := by
  rw [eshkolInternPredicate]
  cases hfind : table.entries.find? fun e => e.2 = text with
  | some e =>
    have he : e.2 = text := by simpa using List.find?_some hfind
    exact .inl ⟨e, List.mem_of_find?_eq_some hfind, he, rfl⟩
  | none =>
    have hnew : text ∉ table.entries.map Prod.snd := by
      rw [List.find?_eq_none] at hfind
      rintro hmem
      obtain ⟨e, he, rfl⟩ := List.mem_map.mp hmem
      simpa using hfind e he
    by_cases hroom : table.HasRoom text
    · exact .inr (.inl ⟨hnew, hroom, if_pos hroom⟩)
    · exact .inr (.inr ⟨hnew, hroom, if_neg hroom⟩)

variable {pool : UInt64} {table : PredicateTable}

theorem Reached.nodup (h : Reached pool table) : (table.entries.map Prod.snd).Nodup := by
  induction h with
  | empty => exact List.nodup_nil
  | @intern table _ name text ih =>
    rcases intern_cases pool table name text with ⟨e, -, -, heq⟩ | ⟨hnew, -, heq⟩ |
      ⟨-, -, heq⟩
    · rw [heq]
      exact ih
    · rw [heq, List.map_append]
      exact ih.append (List.nodup_singleton _) (by simpa using hnew)
    · rw [heq]
      exact ih

/-- An address in `g_pred_pool`. -/
def InPool (pool address : UInt64) : Prop := ∃ k < poolSize, address = pool + UInt64.ofNat k

theorem Reached.stored (h : Reached pool table) :
    ∀ e ∈ table.entries, InPool pool e.1 ∧ e.2.1.length < poolSize := by
  induction h with
  | empty =>
    intro e he
    cases he
  | @intern table _ name text ih =>
    rcases intern_cases pool table name text with ⟨e, -, -, heq⟩ | ⟨-, hroom, heq⟩ |
      ⟨-, -, heq⟩
    · rw [heq]
      exact ih
    · rw [heq]
      intro e he
      rcases List.mem_append.mp he with he | he
      · exact ih e he
      · obtain rfl := List.mem_singleton.mp he
        obtain ⟨-, hfits⟩ := hroom
        have hlength : text.1.length < poolSize := by omega
        exact ⟨⟨table.poolOffset, by omega, rfl⟩, hlength⟩
    · rw [heq]
      exact ih

/-- An address is that of an entry. -/
def Holds (table : PredicateTable) (predicate : UInt64) : Prop :=
  ∃ text, (predicate, text) ∈ table.entries

theorem subset_intern (pool : UInt64) (table : PredicateTable) (name : UInt64) (text : CString) :
    table.entries ⊆ (eshkolInternPredicate pool table name text).1.entries := by
  intro e he
  rcases intern_cases pool table name text with ⟨e', -, -, heq⟩ | ⟨-, -, heq⟩ |
    ⟨-, -, heq⟩
  · rw [heq]
    exact he
  · rw [heq]
    exact List.mem_append_left _ he
  · rw [heq]
    exact he

/-- The text at the address of an entry is its name. -/
def Agrees (table : PredicateTable) (env : LogicEnv) : Prop :=
  ∀ e ∈ table.entries, env.predicateText e.1 = e.2

theorem Reached.eq_iff (h : Reached pool table) {env : LogicEnv} (henv : table.Agrees env)
    {p q : UInt64} (hp : table.Holds p) (hq : table.Holds q) :
    p = q ↔ env.predicateText p = env.predicateText q := by
  constructor
  · rintro rfl
    rfl
  · obtain ⟨s, hs⟩ := hp
    obtain ⟨t, ht⟩ := hq
    intro heq
    rw [henv _ hs, henv _ ht] at heq
    exact congrArg Prod.fst (List.inj_on_of_nodup_map h.nodup hs ht heq)

end PredicateTable

/-! ### Queries -/

/-- `eshkol_fact_t`. -/
structure Fact : Type where
  predicate : UInt64
  args : List Datum

/-- `eshkol_knowledge_base_t`: the facts in the order of their assertion. -/
abbrev KnowledgeBase : Type := List Fact

def eshkolKbAssert (kb : KnowledgeBase) (fact : Fact) : KnowledgeBase := kb ++ [fact]

/-- One round of the loop of `eshkol_kb_query`: the substitution to be prepended. -/
def kbTry (env : LogicEnv) (n : ℕ) (pattern : Fact) (base : Substitution) (fact : Fact) :
    Exec Unit (Option Substitution) :=
  if pattern.predicate ≠ 0 ∧ fact.predicate ≠ 0 ∧ pattern.predicate ≠ fact.predicate then .ok none
  else if pattern.args.length ≠ fact.args.length then .ok none
  else Engine.unifyArgs (eshkolUnify env n) pattern.args fact.args (some base)

/-- The loop of `eshkol_kb_query`, on the facts in the order of the scan. -/
def kbScan (round : Fact → Exec Unit (Option Substitution)) :
    List Fact → List Substitution → Exec Unit (List Substitution)
  | [], result => .ok result
  | fact :: facts, result => do
      match ← round fact with
      | none => kbScan round facts result
      | some subst => kbScan round facts (subst :: result)

/-- `eshkol_kb_query`, with unifications to a depth of `n` calls: the facts are scanned
backwards, and each answer is put before the others. -/
def eshkolKbQuery (env : LogicEnv) (n : ℕ) (kb : KnowledgeBase) (pattern : Fact)
    (initial : Option Substitution) : Exec Unit (List Substitution) :=
  kbScan (kbTry env n pattern (initial.getD [])) kb.reverse []

/-- The arguments of two facts are unified from left to right, with the given outcome. -/
def ArgsUnify (env : LogicEnv) (pattern fact : Fact) (s : Substitution)
    (r : Option Substitution) : Prop :=
  ∃ n, Engine.unifyArgs (eshkolUnify env n) pattern.args fact.args (some s) = .ok r

/-- What a fact adds to the answers: a substitution, if it fits and the arguments unify, and
nothing otherwise. -/
inductive Contributes (env : LogicEnv) (fits : Fact → Prop) (pattern : Fact) (s : Substitution) :
    Fact → Option Substitution → Prop
  | fit {fact : Fact} {r : Option Substitution} (hfits : fits fact)
      (h : ArgsUnify env pattern fact s r) : Contributes env fits pattern s fact r
  | unfit {fact : Fact} (hfits : ¬ fits fact) : Contributes env fits pattern s fact none

/-- The answers to a query, one for each fact that adds one, in the order of the facts. -/
def Answers (env : LogicEnv) (fits : Fact → Prop) (kb : KnowledgeBase) (pattern : Fact)
    (s : Substitution) (results : List Substitution) : Prop :=
  ∃ outcomes, List.Forall₂ (Contributes env fits pattern s) kb outcomes ∧
    results = outcomes.reduceOption

theorem Contributes.congr {env : LogicEnv} {fits fits' : Fact → Prop} {pattern fact : Fact}
    {s : Substitution} {r : Option Substitution} (h : fits fact ↔ fits' fact)
    (hr : Contributes env fits pattern s fact r) : Contributes env fits' pattern s fact r := by
  cases hr with
  | fit hfits hunify => exact .fit (h.mp hfits) hunify
  | unfit hfits => exact .unfit fun hfits' => hfits (h.mpr hfits')

theorem Answers.congr {env : LogicEnv} {fits fits' : Fact → Prop} {kb : KnowledgeBase}
    {pattern : Fact} {s : Substitution} {results : List Substitution}
    (h : ∀ fact ∈ kb, (fits fact ↔ fits' fact)) (ha : Answers env fits kb pattern s results) :
    Answers env fits' kb pattern s results := by
  obtain ⟨outcomes, hall, rfl⟩ := ha
  refine ⟨outcomes, ?_, rfl⟩
  induction hall with
  | nil => exact .nil
  | @cons fact r facts outcomes hr _ ih =>
    exact .cons (hr.congr (h fact (by simp))) (ih fun f hf => h f (by simp [hf]))

section Scan

variable {env : LogicEnv} {pattern : Fact} {base : Substitution}

/-- The quick checks of a round. -/
def Passes (pattern fact : Fact) : Prop :=
  (pattern.predicate = 0 ∨ fact.predicate = 0 ∨ pattern.predicate = fact.predicate) ∧
    pattern.args.length = fact.args.length

variable {n : ℕ} {fact : Fact} {facts : List Fact} {result results : List Substitution}

theorem kbTry_of_passes (h : Passes pattern fact) :
    kbTry env n pattern base fact =
      Engine.unifyArgs (eshkolUnify env n) pattern.args fact.args (some base) := by
  obtain ⟨hpredicate, harity⟩ := h
  rw [kbTry, if_neg, if_neg (not_not_intro harity)]
  rintro ⟨hp, hf, hne⟩
  rcases hpredicate with h | h | h
  · exact hp h
  · exact hf h
  · exact hne h

theorem kbTry_of_not_passes (h : ¬ Passes pattern fact) :
    kbTry env n pattern base fact = .ok none := by
  rw [kbTry]
  split
  next => rfl
  next hpredicate =>
    rw [if_pos]
    intro harity
    apply h
    refine ⟨?_, harity⟩
    by_contra hne
    simp only [not_or] at hne
    exact hpredicate hne

theorem kbTry_mono {m : ℕ} (hnm : n ≤ m) {r : Option Substitution}
    (h : kbTry env n pattern base fact = .ok r) : kbTry env m pattern base fact = .ok r := by
  by_cases hpasses : Passes pattern fact
  · rw [kbTry_of_passes hpasses] at h ⊢
    exact Semantics.unifyArgs_mono (fun _ _ _ _ => Semantics.unify_mono hnm) h
  · rw [kbTry_of_not_passes hpasses] at h ⊢
    exact h

theorem contributes_iff {r : Option Substitution} :
    Contributes env (Passes pattern) pattern base fact r ↔
      ∃ n, kbTry env n pattern base fact = .ok r := by
  constructor
  · rintro (⟨hpasses, n, hn⟩ | hpasses)
    · exact ⟨n, (kbTry_of_passes hpasses).trans hn⟩
    · exact ⟨0, kbTry_of_not_passes hpasses⟩
  · rintro ⟨n, hn⟩
    by_cases hpasses : Passes pattern fact
    · exact .fit hpasses ⟨n, (kbTry_of_passes hpasses).symm.trans hn⟩
    · rw [kbTry_of_not_passes hpasses] at hn
      cases hn
      exact .unfit hpasses

theorem kbScan_cons {round : Fact → Exec Unit (Option Substitution)} :
    kbScan round (fact :: facts) result = .ok results ↔
      ∃ r, round fact = .ok r ∧ kbScan round facts (r.toList ++ result) = .ok results := by
  rw [kbScan, bind_eq_ok]
  refine exists_congr fun r => and_congr_right fun _ => ?_
  cases r with
  | none => rfl
  | some s => rfl

theorem kbScan_mono {m : ℕ} (hnm : n ≤ m)
    (h : kbScan (kbTry env n pattern base) facts result = .ok results) :
    kbScan (kbTry env m pattern base) facts result = .ok results := by
  induction facts generalizing result with
  | nil => exact h
  | cons fact facts ih =>
    obtain ⟨r, hr, hrest⟩ := kbScan_cons.mp h
    exact kbScan_cons.mpr ⟨r, kbTry_mono hnm hr, ih hrest⟩

theorem kbScan_iff :
    (∃ n, kbScan (kbTry env n pattern base) facts result = .ok results) ↔
      ∃ outcomes, List.Forall₂ (Contributes env (Passes pattern) pattern base) facts outcomes ∧
        results = outcomes.reverse.reduceOption ++ result := by
  induction facts generalizing result with
  | nil =>
    constructor
    · rintro ⟨n, hn⟩
      exact ⟨[], .nil, (Except.ok.inj hn).symm⟩
    · rintro ⟨outcomes, hall, rfl⟩
      cases hall
      exact ⟨0, rfl⟩
  | cons fact facts ih =>
    have hsplit (r : Option Substitution) (outcomes : List (Option Substitution)) :
        (r :: outcomes).reverse.reduceOption ++ result =
          outcomes.reverse.reduceOption ++ (r.toList ++ result) := by
      rw [List.reverse_cons, List.reduceOption_append, List.append_assoc]
      cases r <;> rfl
    constructor
    · rintro ⟨n, hn⟩
      obtain ⟨r, hr, hrest⟩ := kbScan_cons.mp hn
      obtain ⟨outcomes, hall, rfl⟩ := ih.mp ⟨n, hrest⟩
      exact ⟨r :: outcomes, .cons (contributes_iff.mpr ⟨n, hr⟩) hall, (hsplit r outcomes).symm⟩
    · rintro ⟨outcomes, hall, rfl⟩
      cases hall with
      | @cons _ r _ outcomes hr hall =>
        obtain ⟨n, hn⟩ := contributes_iff.mp hr
        obtain ⟨m, hm⟩ := ih.mpr ⟨outcomes, hall, hsplit r outcomes⟩
        exact ⟨max n m, kbScan_cons.mpr ⟨r, kbTry_mono (le_max_left n m) hn,
          kbScan_mono (le_max_right n m) hm⟩⟩

theorem eshkolKbQuery_iff {kb : KnowledgeBase} {initial : Option Substitution} :
    (∃ n, eshkolKbQuery env n kb pattern initial = .ok results) ↔
      Answers env (Passes pattern) kb pattern (initial.getD []) results := by
  simp only [eshkolKbQuery]
  rw [kbScan_iff]
  constructor
  · rintro ⟨outcomes, hall, rfl⟩
    refine ⟨outcomes.reverse, ?_, by rw [List.append_nil]⟩
    rwa [← List.forall₂_reverse_iff, List.reverse_reverse]
  · rintro ⟨outcomes, hall, rfl⟩
    exact ⟨outcomes.reverse, List.forall₂_reverse_iff.mpr hall, by simp⟩

end Scan

/-- A fact fits a pattern: their predicates have the same name, or one of them has no
predicate, and they have the same number of arguments. -/
def Fits (env : LogicEnv) (pattern fact : Fact) : Prop :=
  (predicateName env pattern.predicate = predicateName env fact.predicate ∨
    pattern.predicate = 0 ∨ fact.predicate = 0) ∧
    pattern.args.length = fact.args.length

/-- A fact has no predicate, or an interned one. -/
def Fact.Interned (table : PredicateTable) (fact : Fact) : Prop :=
  fact.predicate = 0 ∨ table.Holds fact.predicate

theorem passes_iff_fits {env : LogicEnv} {pool : UInt64} {table : PredicateTable}
    (htable : table.Reached pool) (henv : table.Agrees env) {pattern fact : Fact}
    (hpattern : pattern.Interned table) (hfact : fact.Interned table) :
    Passes pattern fact ↔ Fits env pattern fact := by
  refine and_congr_left fun _ => ?_
  by_cases hp : pattern.predicate = 0
  · simp [hp]
  by_cases hf : fact.predicate = 0
  · simp [hf]
  have heq := htable.eq_iff henv (hpattern.resolve_left hp) (hfact.resolve_left hf)
  simp [hp, hf, predicateName, heq]

/-- **The answers to a query**, for predicates that were interned: one for each fact that fits
the pattern and unifies with it, in the order of assertion, and no others. -/
theorem eshkolKbQuery_answers (env : LogicEnv) {pool : UInt64} {table : PredicateTable}
    (htable : table.Reached pool) (henv : table.Agrees env) {kb : KnowledgeBase} {pattern : Fact}
    (hkb : ∀ fact ∈ kb, fact.Interned table) (hpattern : pattern.Interned table)
    (initial : Option Substitution) (results : List Substitution) :
    (∃ n, eshkolKbQuery env n kb pattern initial = .ok results) ↔
      Answers env (Fits env pattern) kb pattern (initial.getD []) results := by
  rw [eshkolKbQuery_iff]
  have hfits (fact : Fact) (h : fact ∈ kb) : Passes pattern fact ↔ Fits env pattern fact :=
    passes_iff_fits htable henv hpattern (hkb fact h)
  exact ⟨Answers.congr hfits, Answers.congr fun fact h => (hfits fact h).symm⟩

/-- Facts of an interned name `g`: `(g 5)`, `(g 6 7)` and `(g 8)`. -/
def threeFacts : KnowledgeBase := [⟨1, [.int 5]⟩, ⟨1, [.int 6, .int 7]⟩, ⟨1, [.int 8]⟩]

/-- With the name `g` interned, `(g ?x₀)` has two answers among them. -/
theorem eshkolKbQuery_answers_two :
    (∃ n, eshkolKbQuery oneFunctor n threeFacts ⟨1, [.var 0]⟩ none =
      .ok [[(0, .int 5)], [(0, .int 8)]]) ∧
    Answers oneFunctor (Fits oneFunctor ⟨1, [.var 0]⟩) threeFacts ⟨1, [.var 0]⟩ []
      [[(0, .int 5)], [(0, .int 8)]] := by
  have hquery : ∃ n, eshkolKbQuery oneFunctor n threeFacts ⟨1, [.var 0]⟩ none =
      .ok [[(0, .int 5)], [(0, .int 8)]] := ⟨1, rfl⟩
  have htable := @PredicateTable.Reached.intern 1 _ .empty 7 ⟨[103], by decide⟩
  have hholds : (eshkolInternPredicate 1 .empty 7 ⟨[103], by decide⟩).1.Holds 1 :=
    ⟨⟨[103], by decide⟩, by decide⟩
  refine ⟨hquery, (eshkolKbQuery_answers oneFunctor htable ?_ ?_ (.inr hholds) none _).mp hquery⟩
  · intro e he
    obtain rfl := List.mem_singleton.mp (show e ∈ [(1, ⟨[103], by decide⟩)] from he)
    rfl
  · intro fact hfact
    have hname : fact.predicate = 1 := by
      rcases List.mem_cons.mp hfact with rfl | hfact
      · rfl
      · rcases List.mem_pair.mp hfact with rfl | rfl <;> rfl
    exact .inr (hname ▸ hholds)

/-- What a query is said to return: one answer for each fact whose predicate has the same name
as the pattern's, whose arity is the same and whose arguments unify, and no others. -/
def AnswersByName (env : LogicEnv) (kb : KnowledgeBase) (pattern : Fact)
    (initial : Option Substitution) : Prop :=
  ∀ results, (∃ n, eshkolKbQuery env n kb pattern initial = .ok results) ↔
    Answers env (fun fact => predicateName env pattern.predicate =
      predicateName env fact.predicate ∧ pattern.args.length = fact.args.length)
      kb pattern (initial.getD []) results

/-- The fact made from the list `(1)` has no predicate, and answers the query `(g 1)`. -/
theorem not_answersByName : ¬ AnswersByName oneFunctor [⟨0, [.int 1]⟩] ⟨1, [.int 1]⟩ none := by
  intro h
  obtain ⟨outcomes, hall, hresults⟩ := (h [[]]).mp ⟨1, rfl⟩
  obtain _ | ⟨hr, hrest⟩ := hall
  cases hrest
  rcases hr with ⟨⟨hname, -⟩, -⟩ | -
  · exact absurd hname (by decide)
  · cases hresults

end Eshkol
