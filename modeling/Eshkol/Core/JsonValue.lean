import Mathlib.Data.List.Forall2
import Mathlib.Data.Nat.Notation
import Mathlib.Tactic.Common

/-!
# JSON Data

The data with which `lib/core/json.esk` represents JSON values: booleans, numbers, strings, lists
for arrays and hash tables with string keys for objects. The empty list stands for the empty array
and for `null`. The type of numbers is left open, and so is that of strings: they are their
characters, or the bytes of their payload where the code makes strings that are no text.

A hash table is the list of its entries in the order of `hash-table-keys`; `hash-table-ref` reads it
as a finite map from keys to values. The hash tables of the program compare string keys with
`strcmp`, so that keys with a NUL are told apart up to it only: the parser and the printer are taken
over tables that are finite maps, while `tableRef` of the schema validator models the comparison.
-/

namespace Eshkol.Core.Json

/-- A datum that represents a JSON value. -/
inductive Value (N : Type) (S : Type := List Char) : Type
  | bool (b : Bool)
  | number (x : N)
  | string (s : S)
  | list (items : List (Value N S))
  | table (entries : List (S × Value N S))

variable {N S : Type}

/-- `null`, and the empty array. -/
abbrev Value.null : Value N S := .list []

/-! ### Size -/

mutual

/-- The number of data in a datum. -/
def Value.size : Value N S → ℕ
  | .list items => sizeItems items + 1
  | .table entries => sizeEntries entries + 1
  | _ => 1

/-- The number of data in the elements of a list. -/
def sizeItems : List (Value N S) → ℕ
  | [] => 0
  | item :: items => item.size + sizeItems items

/-- The number of data in the values of a table. -/
def sizeEntries : List (S × Value N S) → ℕ
  | [] => 0
  | entry :: entries => entry.2.size + sizeEntries entries

end

variable {entries : List (S × Value N S)} {k : S} {v : Value N S}

theorem sizeEntries_le (h : (k, v) ∈ entries) : v.size ≤ sizeEntries entries := by
  induction entries with
  | nil => simp at h
  | cons entry entries ih =>
    rw [sizeEntries]
    rcases List.mem_cons.mp h with rfl | h
    · exact Nat.le_add_right _ _
    · exact Nat.le_trans (ih h) (Nat.le_add_left _ _)

theorem sizeItems_le {items : List (Value N S)} (h : v ∈ items) : v.size ≤ sizeItems items := by
  induction items with
  | nil => simp at h
  | cons item items ih =>
    rw [sizeItems]
    rcases List.mem_cons.mp h with rfl | h
    · exact Nat.le_add_right _ _
    · exact Nat.le_trans (ih h) (Nat.le_add_left _ _)

theorem size_lt_of_mem {items : List (Value N S)} (h : v ∈ items) :
    v.size < (Value.list items).size := by
  rw [Value.size]
  exact Nat.lt_succ_of_le (sizeItems_le h)

/-! ### Entries -/

def hashTableKeys (entries : List (S × Value N S)) : List S := entries.map Prod.fst

variable [DecidableEq S]

/-- `hash-table-ref`, where the key is there. -/
def hashTableRef (entries : List (S × Value N S)) (key : S) : Option (Value N S) :=
  (entries.find? (·.1 = key)).map Prod.snd

def hashTableContains (entries : List (S × Value N S)) (key : S) : Bool :=
  (hashTableRef entries key).isSome

/-- `hash-set!`. A new key comes last. -/
def hashSet (entries : List (S × Value N S)) (key : S) (value : Value N S) : List (S × Value N S) :=
  if hashTableContains entries key then
    entries.map fun entry => if entry.1 = key then (key, value) else entry
  else entries ++ [(key, value)]

/-- Two data that represent the same JSON value, over an equality of numbers. Objects are compared
as finite maps. -/
inductive Same (num : N → N → Prop) : Value N S → Value N S → Prop
  | bool (b : Bool) : Same num (.bool b) (.bool b)
  | number {x y : N} (h : num x y) : Same num (.number x) (.number y)
  | string (s : S) : Same num (.string s) (.string s)
  | list {xs ys : List (Value N S)} (h : List.Forall₂ (Same num) xs ys) :
      Same num (.list xs) (.list ys)
  | table {entries entries' : List (S × Value N S)}
      (keys : ∀ k, hashTableContains entries k = hashTableContains entries' k)
      (values : ∀ k v w, hashTableRef entries k = some v → hashTableRef entries' k = some w →
        Same num v w) : Same num (.table entries) (.table entries')

theorem mem_of_hashTableRef (h : hashTableRef entries k = some v) : (k, v) ∈ entries := by
  rw [hashTableRef, Option.map_eq_some_iff] at h
  obtain ⟨entry, hfound, hvalue⟩ := h
  have hkey := List.find?_some hfound
  rw [decide_eq_true_iff] at hkey
  rw [← hkey, ← hvalue]
  exact List.mem_of_find?_eq_some hfound

theorem mem_hashTableKeys_iff : k ∈ hashTableKeys entries ↔ hashTableContains entries k = true := by
  simp [hashTableKeys, hashTableContains, hashTableRef, List.find?_isSome]

theorem hashTableRef_of_mem (hkeys : (hashTableKeys entries).Nodup) (h : (k, v) ∈ entries) :
    hashTableRef entries k = some v := by
  induction entries with
  | nil => simp at h
  | cons entry entries ih =>
    rw [hashTableKeys, List.map_cons, List.nodup_cons] at hkeys
    rcases List.mem_cons.mp h with rfl | h
    · simp [hashTableRef]
    · have hne : entry.1 ≠ k := fun heq => hkeys.1 (heq ▸ List.mem_map_of_mem h)
      have hskip : hashTableRef (entry :: entries) k = hashTableRef entries k := by
        simp [hashTableRef, hne]
      rw [hskip, ih hkeys.2 h]

theorem hashSet_of_new (h : hashTableContains entries k = false) (v : Value N S) :
    hashSet entries k v = entries ++ [(k, v)] := by
  rw [hashSet, h]
  rfl

theorem hashTableRef_append (entries entries' : List (S × Value N S)) (k : S) :
    hashTableRef (entries ++ entries') k = (hashTableRef entries k).or (hashTableRef entries' k) := by
  simp [hashTableRef, List.find?_append, Option.map_or]

theorem hashTableRef_map_replace (entries : List (S × Value N S)) (key : S) (value : Value N S)
    (k : S) :
    hashTableRef (entries.map fun entry => if entry.1 = key then (key, value) else entry) k =
      if k = key then (hashTableRef entries k).map fun _ => value else hashTableRef entries k := by
  induction entries with
  | nil => simp [hashTableRef]
  | cons entry entries ih =>
    simp only [hashTableRef, List.map_cons, List.find?_cons] at ih ⊢
    by_cases hentry : entry.1 = key
    · by_cases hk : k = key
      · simp [hentry, hk]
      · simpa [hentry, hk, Ne.symm hk] using ih
    · by_cases hk : entry.1 = k
      · have hne : k ≠ key := fun h => hentry (hk.trans h)
        simp [hk, hne]
      · simpa [hentry, hk] using ih

theorem hashTableRef_hashSet (entries : List (S × Value N S)) (key : S) (value : Value N S) (k : S) :
    hashTableRef (hashSet entries key value) k =
      if k = key then some value else hashTableRef entries k := by
  rw [hashSet]
  split
  next hold =>
    rw [hashTableRef_map_replace]
    split
    next hk =>
      obtain ⟨old, hfound⟩ := Option.isSome_iff_exists.mp hold
      rw [hk, hfound]
      rfl
    next => rfl
  next hnew =>
    have hnone : hashTableRef entries key = none := by simpa [hashTableContains] using hnew
    rw [hashTableRef_append]
    split
    next hk =>
      rw [hk, hnone]
      simp [hashTableRef]
    next hk => simp [hashTableRef, Ne.symm hk]

theorem Same.table_of_forall₂ {num : N → N → Prop} {entries' : List (S × Value N S)}
    (h : List.Forall₂ (fun e e' => e.1 = e'.1 ∧ Same num e.2 e'.2) entries entries') :
    Same num (.table entries) (.table entries') := by
  have hlookup : ∀ k, hashTableRef entries k = none ∧ hashTableRef entries' k = none ∨
      ∃ v w, hashTableRef entries k = some v ∧ hashTableRef entries' k = some w ∧ Same num v w := by
    intro k
    induction h with
    | nil => exact .inl ⟨rfl, rfl⟩
    | @cons e e' _ _ hhead _ ih =>
      by_cases hk : e.1 = k
      · refine .inr ⟨e.2, e'.2, ?_, ?_, hhead.2⟩
        · simp [hashTableRef, hk]
        · simp [hashTableRef, ← hhead.1, hk]
      · simpa [hashTableRef, ← hhead.1, hk] using ih
  refine .table (fun k => ?_) fun k v w hv hw => ?_
  · rcases hlookup k with ⟨hnone, hnone'⟩ | ⟨v, w, hv, hw, -⟩
    · rw [hashTableContains, hashTableContains, hnone, hnone']
    · rw [hashTableContains, hashTableContains, hv, hw]
      rfl
  · rcases hlookup k with ⟨hnone, -⟩ | ⟨v', w', hv', hw', hsame⟩
    · rw [hnone] at hv
      cases hv
    · rw [hv] at hv'
      rw [hw] at hw'
      cases hv'
      cases hw'
      exact hsame

theorem size_lt_of_hashTableRef (h : hashTableRef entries k = some v) :
    v.size < (Value.table entries).size := by
  rw [Value.size]
  exact Nat.lt_succ_of_le (sizeEntries_le (mem_of_hashTableRef h))

end Eshkol.Core.Json
