import Mathlib.Data.List.Nodup
import Mathlib.Logic.Function.Basic
import Eshkol.Eskb.Format
import Eshkol.Machine.Exec

/-!
# Interning Symbols

`eshkol_intern_symbol_lookup` (`lib/core/symbol_intern.cpp`), called by any number of threads. The
table is looked at twice under its mutex. In between the block of a new symbol is allocated without
the mutex, and a thread that finds the name in the table the second time frees its own block. Other
threads may run between these three parts of a call.

`malloc` answers any address at which no block stands, or nothing; the address of a block that was
freed may be answered again. To free an address at which no block stands is undefined. The table is
a list of entries: the order in which an `unordered_map` is iterated does not matter.
-/

namespace Eshkol.Symbols

open Machine Function Codec Eskb

/-! ### The interner -/

/-- The fields of the header of a symbol, and the bytes behind it. -/
structure SymbolBlock : Type where
  subtype : UInt8
  flags : UInt8
  refCount : UInt16
  size : UInt32
  data : Bytes

/-- `HEAP_SUBTYPE_SYMBOL`. -/
def heapSubtypeSymbol : UInt8 := 10

/-- What `alloc_symbol_block` writes. -/
def symbolBlock (name : CString) : SymbolBlock :=
  ⟨heapSubtypeSymbol, 0, 0, UInt32.ofNat (name.val.length + 1), name.val ++ [0]⟩

/-- `alloc_symbol_block`, where `malloc` answers `fresh`. -/
def allocSymbolBlock (fresh : Option ℕ) (name : CString) : Option ℕ :=
  if 2 ^ 32 - 1 - 1 < name.val.length ∨ 2 ^ 64 - 1 - 8 - 1 < name.val.length then none else fresh

/-- The blocks at the addresses of the heap. -/
abbrev Heap : Type := ℕ → Option SymbolBlock

def freeSymbolBlock (heap : Heap) (symbol : ℕ) : Exec Empty Heap :=
  if (heap symbol).isSome then .ok (update heap symbol none) else .error .undefined

/-- Where a call stands: before the fast path, behind it, or before the insertion of a block. -/
inductive Call : Type
  | idle
  | lookup (name : CString)
  | allocate (name : CString)
  | insert (name : CString) (symbol : ℕ)

/-- The heap, `g_interned_symbols`, the calls of the threads, and the pointers that calls have
returned for names. -/
structure Interner (ι : Type) : Type where
  heap : Heap
  table : List (CString × ℕ)
  calls : ι → Call
  returned : List (CString × ℕ)

variable {ι : Type} [DecidableEq ι]

/-- The call of a thread returns a pointer. -/
def Interner.answer (s : Interner ι) (t : ι) (name : CString) (symbol : ℕ) : Interner ι :=
  { s with calls := update s.calls t .idle, returned := (name, symbol) :: s.returned }

/-- The next part of the call of a thread. -/
def Interner.step (s : Interner ι) (t : ι) (fresh : Option ℕ) : Exec Empty (Interner ι) :=
  match s.calls t with
  | .idle => .ok s
  | .lookup name =>
    match s.table.lookup name with
    | some symbol => .ok (s.answer t name symbol)
    | none => .ok { s with calls := update s.calls t (.allocate name) }
  | .allocate name =>
    match allocSymbolBlock fresh name with
    | none => .ok { s with calls := update s.calls t .idle }
    | some symbol => .ok { s with
        heap := update s.heap symbol (some (symbolBlock name)),
        calls := update s.calls t (.insert name symbol) }
  | .insert name symbol =>
    match s.table.lookup name with
    | some first => do
      let heap ← freeSymbolBlock s.heap symbol
      .ok ({ s with heap := heap }.answer t name first)
    | none => .ok ({ s with table := (name, symbol) :: s.table }.answer t name symbol)

/-- The loop of `cleanup_symbol_table`. -/
def freeEntries : List (CString × ℕ) → Heap → Exec Empty Heap
  | [], heap => .ok heap
  | e :: entries, heap => do
    let heap ← freeSymbolBlock heap e.2
    freeEntries entries heap

def cleanupSymbolTable (s : Interner ι) : Exec Empty (Interner ι) := do
  let heap ← freeEntries s.table s.heap
  .ok { s with heap := heap, table := [] }

/-- `malloc` answers no address at which a block stands. -/
def Fresh (s : Interner ι) (fresh : Option ℕ) : Prop :=
  ∀ symbol, fresh = some symbol → s.heap symbol = none

/-- The states that threads can bring about, whatever the order of their steps. -/
inductive Reachable : Interner ι → Prop
  | start : Reachable ⟨fun _ => none, [], fun _ => .idle, []⟩
  | call {s : Interner ι} {t : ι} (h : Reachable s) (hidle : s.calls t = .idle) (name : CString) :
      Reachable { s with calls := update s.calls t (.lookup name) }
  | step {s s' : Interner ι} {t : ι} {fresh : Option ℕ} (h : Reachable s) (hfresh : Fresh s fresh)
      (hstep : s.step t fresh = .ok s') : Reachable s'

/-! ### Who owns a block -/

/-- The block of a symbol with a name, whatever its flags. -/
structure Spells (block : SymbolBlock) (name : CString) : Prop where
  subtype : block.subtype = heapSubtypeSymbol
  data : block.data = name.val ++ [0]
  size : block.size.toNat = name.val.length + 1

/-- Every block has one owner, for whom it stands for a name. -/
structure Sole {ω : Type} (heap : Heap) (owns : ω → CString × ℕ → Prop) : Prop where
  stands : ∀ o e, owns o e → ∃ block, heap e.2 = some block ∧ Spells block e.1
  owned : ∀ symbol, heap symbol ≠ none → ∃ o name, owns o (name, symbol)
  alone : ∀ o o' e e', owns o e → owns o' e' → e.2 = e'.2 → o = o'

section Owners

variable {ω : Type} {heap : Heap} {owns owns' : ω → CString × ℕ → Prop} {o : ω} {name : CString}
  {symbol : ℕ}

theorem Spells.unique {block : SymbolBlock} {name' : CString} (h : Spells block name)
    (h' : Spells block name') : name = name' :=
  Subtype.ext (List.append_cancel_right (h.data.symm.trans h'.data))

theorem Sole.ne_of_none (h : Sole heap owns) {e : CString × ℕ} (he : owns o e)
    (hnone : heap symbol = none) : e.2 ≠ symbol := by
  rintro rfl
  obtain ⟨block, hblock, -⟩ := h.stands o e he
  rw [hblock] at hnone
  cases hnone

theorem Sole.unique (h : Sole heap owns) {o' : ω} {e e' : CString × ℕ} (he : owns o e)
    (he' : owns o' e') (heq : e.2 = e'.2) : e = e' := by
  obtain ⟨block, hblock, hspells⟩ := h.stands o e he
  obtain ⟨block', hblock', hspells'⟩ := h.stands o' e' he'
  rw [heq, hblock'] at hblock
  cases hblock
  exact Prod.ext (hspells.unique hspells') heq

theorem Sole.allocate (h : Sole heap owns) (hnone : heap symbol = none) {block : SymbolBlock}
    (hblock : Spells block name)
    (howns : ∀ o' e, owns' o' e ↔ owns o' e ∨ o' = o ∧ e = (name, symbol)) :
    Sole (update heap symbol (some block)) owns' := by
  refine ⟨fun o' e he => ?_, fun p hp => ?_, fun o₁ o₂ e e' he he' heq => ?_⟩
  · rcases (howns o' e).mp he with he | ⟨-, rfl⟩
    · rw [update_of_ne (h.ne_of_none he hnone)]
      exact h.stands o' e he
    · exact ⟨block, update_self _ _ _, hblock⟩
  · by_cases hps : p = symbol
    · exact ⟨o, name, (howns _ _).mpr (.inr ⟨rfl, by rw [hps]⟩)⟩
    · rw [update_of_ne hps] at hp
      obtain ⟨o', n, he⟩ := h.owned p hp
      exact ⟨o', n, (howns _ _).mpr (.inl he)⟩
  · rcases (howns o₁ e).mp he with he | ⟨rfl, rfl⟩
    · rcases (howns o₂ e').mp he' with he' | ⟨-, rfl⟩
      · exact h.alone o₁ o₂ e e' he he' heq
      · exact absurd heq (h.ne_of_none he hnone)
    · rcases (howns o₂ e').mp he' with he' | ⟨rfl, -⟩
      · exact absurd heq.symm (h.ne_of_none he' hnone)
      · rfl

theorem Sole.free (h : Sole heap owns) (howner : owns o (name, symbol))
    (howns : ∀ o' e, owns' o' e ↔ owns o' e ∧ e ≠ (name, symbol)) :
    Sole (update heap symbol none) owns' := by
  have hne {o' : ω} {e : CString × ℕ} (he : owns' o' e) : e.2 ≠ symbol := fun heq =>
    ((howns o' e).mp he).2 (h.unique ((howns o' e).mp he).1 howner heq)
  refine ⟨fun o' e he => ?_, fun p hp => ?_, fun o₁ o₂ e e' he he' => ?_⟩
  · rw [update_of_ne (hne he)]
    exact h.stands o' e ((howns o' e).mp he).1
  · by_cases hps : p = symbol
    · rw [hps, update_self] at hp
      exact absurd rfl hp
    · rw [update_of_ne hps] at hp
      obtain ⟨o', n, he⟩ := h.owned p hp
      exact ⟨o', n, (howns _ _).mpr ⟨he, fun heq => hps (congrArg Prod.snd heq)⟩⟩
  · exact h.alone o₁ o₂ e e' ((howns o₁ e).mp he).1 ((howns o₂ e').mp he').1

theorem Sole.handOn (h : Sole heap owns) (howner : owns o (name, symbol)) (new : ω)
    (howns : ∀ o' e, owns' o' e ↔
      owns o' e ∧ e ≠ (name, symbol) ∨ o' = new ∧ e = (name, symbol)) : Sole heap owns' := by
  refine ⟨fun o' e he => ?_, fun p hp => ?_, fun o₁ o₂ e e' he he' heq => ?_⟩
  · rcases (howns o' e).mp he with ⟨he, -⟩ | ⟨-, rfl⟩
    · exact h.stands o' e he
    · exact h.stands o _ howner
  · obtain ⟨o', n, he⟩ := h.owned p hp
    by_cases heq : (n, p) = (name, symbol)
    · exact ⟨new, n, (howns _ _).mpr (.inr ⟨rfl, heq⟩)⟩
    · exact ⟨o', n, (howns _ _).mpr (.inl ⟨he, heq⟩)⟩
  · rcases (howns o₁ e).mp he with ⟨he, hne⟩ | ⟨rfl, rfl⟩
    · rcases (howns o₂ e').mp he' with ⟨he', -⟩ | ⟨-, rfl⟩
      · exact h.alone o₁ o₂ e e' he he' heq
      · exact absurd (h.unique he howner heq) hne
    · rcases (howns o₂ e').mp he' with ⟨he', hne⟩ | ⟨rfl, -⟩
      · exact absurd (h.unique he' howner heq.symm) hne
      · rfl

end Owners

/-! ### Runs -/

/-- The table owns its blocks, and so does a call the block that it is to insert. -/
def Owns (table : List (CString × ℕ)) (calls : ι → Call) : Option ι → CString × ℕ → Prop
  | none, e => e ∈ table
  | some t, e => calls t = .insert e.1 e.2

/-- What holds between the parts of calls. -/
structure Invariant (s : Interner ι) : Prop where
  sole : Sole s.heap (Owns s.table s.calls)
  names : (s.table.map Prod.fst).Nodup
  returned : ∀ e ∈ s.returned, e ∈ s.table

variable {s : Interner ι} {t : ι} {name : CString} {symbol : ℕ} {fresh : Option ℕ}

omit [DecidableEq ι] in
theorem mem_of_lookup (h : s.table.lookup name = some symbol) : (name, symbol) ∈ s.table := by
  obtain ⟨l, l', heq, -⟩ := List.lookup_eq_some_iff.mp h
  rw [heq]
  exact List.mem_append_right l List.mem_cons_self

omit [DecidableEq ι] in
theorem Invariant.mem_returned (h : Invariant s) {table : List (CString × ℕ)}
    (htable : ∀ e ∈ s.table, e ∈ table) (hmem : (name, symbol) ∈ table) :
    ∀ e ∈ (name, symbol) :: s.returned, e ∈ table := by
  intro e he
  rcases List.mem_cons.mp he with rfl | he
  · exact hmem
  · exact htable e (h.returned e he)

/-- Whether a call has a block. -/
def Call.hasBlock : Call → Bool
  | .insert _ _ => true
  | _ => false

theorem Invariant.move (h : Invariant s) {c : Call} (hold : (s.calls t).hasBlock = false)
    (hnew : c.hasBlock = false) {returned : List (CString × ℕ)}
    (hreturned : ∀ e ∈ returned, e ∈ s.table) :
    Invariant { s with calls := update s.calls t c, returned := returned } := by
  have howns : Owns s.table (update s.calls t c) = Owns s.table s.calls := by
    funext o e
    cases o with
    | none => rfl
    | some u =>
      by_cases hu : u = t
      · rw [hu, Owns, Owns, update_self]
        refine propext ⟨fun h => ?_, fun h => ?_⟩
        · rw [h] at hnew
          cases hnew
        · rw [h] at hold
          cases hold
      · rw [Owns, Owns, update_of_ne hu]
  refine ⟨?_, h.names, hreturned⟩
  dsimp only
  rw [howns]
  exact h.sole

theorem spells_symbolBlock (h : allocSymbolBlock fresh name = some symbol) :
    fresh = some symbol ∧ Spells (symbolBlock name) name := by
  rw [allocSymbolBlock] at h
  split_ifs at h with hlength
  exact ⟨h, rfl, rfl, UInt32.toNat_ofNat_of_lt' (by rw [UInt32.size]; omega)⟩

theorem Invariant.allocate (h : Invariant s) (hcall : s.calls t = .allocate name)
    (hfresh : Fresh s fresh) (halloc : allocSymbolBlock fresh name = some symbol) :
    Invariant { s with
      heap := update s.heap symbol (some (symbolBlock name)),
      calls := update s.calls t (.insert name symbol) } := by
  obtain ⟨hsome, hspells⟩ := spells_symbolBlock halloc
  refine ⟨h.sole.allocate (o := some t) (hfresh symbol hsome) hspells fun o e => ?_, h.names,
    h.returned⟩
  cases o with
  | none => simp [Owns]
  | some u =>
    by_cases hu : u = t
    · simp [Owns, hu, hcall, Prod.ext_iff, eq_comm]
    · simp [Owns, hu]

theorem owns_idle (h : Invariant s) (hcall : s.calls t = .insert name symbol) (o : Option ι)
    (e : CString × ℕ) :
    Owns s.table (update s.calls t .idle) o e ↔ Owns s.table s.calls o e ∧ e ≠ (name, symbol) := by
  have howner : Owns s.table s.calls (some t) (name, symbol) := hcall
  by_cases ho : o = some t
  · subst ho
    simp [Owns, hcall, Prod.ext_iff, eq_comm]
  · have hne (he : Owns s.table s.calls o e) : e ≠ (name, symbol) := fun heq =>
      ho (h.sole.alone _ _ e _ he howner (congrArg Prod.snd heq))
    cases o with
    | none => exact (and_iff_left_of_imp hne).symm
    | some u =>
      have hu : u ≠ t := fun hu => ho (congrArg some hu)
      rw [and_iff_left_of_imp hne, Owns, Owns, update_of_ne hu]

theorem Invariant.free (h : Invariant s) (hcall : s.calls t = .insert name symbol) :
    Sole (update s.heap symbol none) (Owns s.table (update s.calls t .idle)) :=
  h.sole.free (o := some t) hcall (owns_idle h hcall)

theorem Invariant.insert (h : Invariant s) (hcall : s.calls t = .insert name symbol) :
    Sole s.heap (Owns ((name, symbol) :: s.table) (update s.calls t .idle)) := by
  refine h.sole.handOn (o := some t) hcall none fun o e => ?_
  rw [← owns_idle h hcall]
  cases o with
  | none => simp [Owns, or_comm]
  | some u => simp [Owns]

theorem freeSymbolBlock_eq {heap : Heap} (h : heap symbol ≠ none) :
    freeSymbolBlock heap symbol = .ok (update heap symbol none) := by
  rw [freeSymbolBlock, if_pos (Option.isSome_iff_ne_none.mpr h)]

omit [DecidableEq ι] in
theorem Invariant.stands (h : Invariant s) {o : Option ι} {e : CString × ℕ}
    (he : Owns s.table s.calls o e) : s.heap e.2 ≠ none := by
  obtain ⟨block, hblock, -⟩ := h.sole.stands o e he
  rw [hblock]
  exact Option.some_ne_none block

theorem Invariant.step (h : Invariant s) (t : ι) (hfresh : Fresh s fresh) :
    ∃ s', s.step t fresh = .ok s' ∧ Invariant s' := by
  rw [Interner.step]
  cases hcall : s.calls t with
  | idle => exact ⟨s, rfl, h⟩
  | lookup name =>
    have hold : (s.calls t).hasBlock = false := by rw [hcall]; rfl
    dsimp only
    cases hlookup : s.table.lookup name with
    | some symbol =>
      exact ⟨_, rfl, h.move hold rfl (h.mem_returned (fun _ => id) (mem_of_lookup hlookup))⟩
    | none => exact ⟨_, rfl, h.move hold rfl h.returned⟩
  | allocate name =>
    have hold : (s.calls t).hasBlock = false := by rw [hcall]; rfl
    dsimp only
    cases halloc : allocSymbolBlock fresh name with
    | none => exact ⟨_, rfl, h.move hold rfl h.returned⟩
    | some symbol => exact ⟨_, rfl, h.allocate hcall hfresh halloc⟩
  | insert name symbol =>
    dsimp only
    cases hlookup : s.table.lookup name with
    | some first =>
      have hstands : s.heap symbol ≠ none := h.stands (o := some t) (e := (name, symbol)) hcall
      rw [freeSymbolBlock_eq hstands]
      exact ⟨_, rfl, h.free hcall, h.names,
        h.mem_returned (fun _ => id) (mem_of_lookup hlookup)⟩
    | none =>
      refine ⟨_, rfl, h.insert hcall, List.nodup_cons.mpr ⟨fun hmem => ?_, h.names⟩,
        h.mem_returned (fun _ => List.mem_cons_of_mem _) List.mem_cons_self⟩
      obtain ⟨e, he, heq⟩ := List.mem_map.mp hmem
      simpa [heq] using List.lookup_eq_none_iff.mp hlookup e he

theorem Reachable.invariant (h : Reachable s) : Invariant s := by
  induction h with
  | start =>
    have hnone (o : Option ι) (e : CString × ℕ) : ¬Owns [] (fun _ : ι => .idle) o e := by
      cases o with
      | none => exact List.not_mem_nil
      | some t => exact nofun
    exact ⟨⟨fun o e he => absurd he (hnone o e), fun _ h => absurd rfl h,
      fun o _ e _ he => absurd he (hnone o e)⟩, List.nodup_nil, nofun⟩
  | @call s t _ hidle name ih =>
    have hold : (s.calls t).hasBlock = false := by rw [hidle]; rfl
    exact ih.move hold rfl ih.returned
  | @step s s' t fresh _ hfresh hstep ih =>
    obtain ⟨s'', hstep', h⟩ := ih.step t hfresh
    obtain rfl := Except.ok.inj (hstep.symm.trans hstep')
    exact h

omit [DecidableEq ι] in
theorem Invariant.unique (h : Invariant s) {e e' : CString × ℕ} (he : e ∈ s.table)
    (he' : e' ∈ s.table) (heq : e.2 = e'.2) : e = e' := by
  have howns (e : CString × ℕ) (he : e ∈ s.table) : Owns s.table s.calls none e := he
  exact h.sole.unique (howns e he) (howns e' he') heq

omit [DecidableEq ι] in
theorem Invariant.symbols_nodup (h : Invariant s) : (s.table.map Prod.snd).Nodup :=
  h.names.of_map.map_on fun _ he _ he' => h.unique he he'

theorem freeEntries_spec {entries : List (CString × ℕ)} {heap : Heap}
    (hnodup : (entries.map Prod.snd).Nodup) (h : ∀ e ∈ entries, heap e.2 ≠ none) :
    ∃ heap', freeEntries entries heap = .ok heap' ∧
      ∀ symbol, heap' symbol ≠ none → heap symbol ≠ none ∧ symbol ∉ entries.map Prod.snd := by
  induction entries generalizing heap with
  | nil => exact ⟨heap, rfl, fun _ hs => ⟨hs, List.not_mem_nil⟩⟩
  | cons e entries ih =>
    obtain ⟨hnew, hnodup⟩ := List.nodup_cons.mp hnodup
    obtain ⟨he, hentries⟩ := List.forall_mem_cons.mp h
    have hrest : ∀ e' ∈ entries, update heap e.2 none e'.2 ≠ none := by
      intro e' he'
      have hne : e'.2 ≠ e.2 := fun heq => hnew (heq ▸ List.mem_map_of_mem he')
      rw [update_of_ne hne]
      exact hentries e' he'
    obtain ⟨heap', hfree, hheap'⟩ := ih hnodup hrest
    refine ⟨heap', by rw [freeEntries, freeSymbolBlock_eq he, ok_bind, hfree], fun symbol hs => ?_⟩
    obtain ⟨hsome, hmem⟩ := hheap' symbol hs
    by_cases heq : symbol = e.2
    · rw [heq, update_self] at hsome
      exact absurd rfl hsome
    · rw [update_of_ne heq] at hsome
      exact ⟨hsome, List.not_mem_cons_of_ne_of_not_mem heq hmem⟩

/-- What callers rely on in a state. -/
structure Canonical (s : Interner ι) : Prop where
  /-- Pointers are equal exactly if the names are. -/
  same : ∀ e ∈ s.returned, ∀ e' ∈ s.returned, e.2 = e'.2 ↔ e.1 = e'.1
  /-- A pointer that was returned is that of a symbol with the name, and has not been freed. -/
  stands : ∀ e ∈ s.returned, ∃ block, s.heap e.2 = some block ∧ Spells block e.1
  /-- The next part of each call is defined. -/
  defined : ∀ t fresh, Fresh s fresh → ∃ s', s.step t fresh = .ok s'
  /-- Between calls, `cleanup_symbol_table` frees every block, and each one once. -/
  cleanup : (∀ t, s.calls t = .idle) →
    ∃ s', cleanupSymbolTable s = .ok s' ∧ ∀ symbol, s'.heap symbol = none

/-- **Symbols are canonical**, whatever the number of threads and the order of their steps. -/
theorem eshkolInternSymbolLookup_canonical (hs : Reachable s) : Canonical s := by
  have h := hs.invariant
  refine ⟨fun e he e' he' => ⟨fun heq => ?_, fun heq => ?_⟩, fun e he => ?_,
    fun t fresh hfresh => ?_, fun hidle => ?_⟩
  · rw [h.unique (h.returned e he) (h.returned e' he') heq]
  · rw [List.inj_on_of_nodup_map h.names (h.returned e he) (h.returned e' he') heq]
  · exact h.sole.stands none e (h.returned e he)
  · obtain ⟨s', hstep, -⟩ := h.step t hfresh
    exact ⟨s', hstep⟩
  · obtain ⟨heap, hfree, hheap⟩ :=
      freeEntries_spec h.symbols_nodup fun e he => h.stands (o := none) he
    refine ⟨_, by rw [cleanupSymbolTable, hfree]; rfl, fun symbol => ?_⟩
    by_contra hsome
    obtain ⟨hstands, hmem⟩ := hheap symbol hsome
    obtain ⟨o, name, he⟩ := h.sole.owned symbol hstands
    cases o with
    | none => exact hmem (List.mem_map_of_mem he)
    | some t => simp [Owns, hidle t] at he

/-- The name `a`. -/
def symbolA : CString := ⟨[97], by decide⟩

/-- Two threads allocate a block for one name; the second to insert frees its own. -/
theorem eshkolInternSymbolLookup_race :
    ∃ s : Interner Bool, Reachable s ∧ s.returned = [(symbolA, 1), (symbolA, 1)] ∧
      s.heap 2 = none ∧ Canonical s := by
  have h₁ := (Reachable.start.call (t := false) rfl symbolA).call (t := true) rfl symbolA
  have h₂ := (h₁.step (t := false) (nofun : Fresh _ none) rfl).step (t := true)
    (nofun : Fresh _ none) rfl
  have h₃ := (h₂.step (t := true) (fun _ _ => rfl : Fresh _ (some 1)) rfl).step (t := false)
    (by rintro _ ⟨⟩; rfl : Fresh _ (some 2)) rfl
  have h₄ := (h₃.step (t := true) (nofun : Fresh _ none) rfl).step (t := false)
    (nofun : Fresh _ none) rfl
  exact ⟨_, h₄, rfl, rfl, eshkolInternSymbolLookup_canonical h₄⟩

end Eshkol.Symbols
