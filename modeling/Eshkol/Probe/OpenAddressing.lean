import Mathlib.Data.List.TakeWhile
import Mathlib.Data.List.Perm.Basic
import Mathlib.Data.Set.Card
import Mathlib.Tactic.Linarith

/-!
# Open Addressing with Tombstones

A table is a list of slots; the slot of a key is looked for along the probe sequence from
the key's hash, up to the first empty slot. Keys are compared by an equivalence that may
identify different keys, so a table stands for a map on the classes of that equivalence.

The invariant `Chained` says that every entry lies on the run of non-empty slots that
starts at its own hash. Writing a non-empty slot only lengthens the runs, which is why
removal leaves a tombstone behind.
-/

namespace Probe

variable {K V : Type}

/-- A slot of the table. -/
inductive Slot (K V : Type) : Type
  | empty
  | occupied (key : K) (value : V)
  | deleted
  deriving DecidableEq, Repr

namespace Slot

/-- The entry in the slot, if it has one. -/
def toEntry : Slot K V → Option (K × V)
  | occupied k v => some (k, v)
  | _ => none

/-- The slot was never used. -/
def isEmpty : Slot K V → Bool
  | empty => true
  | _ => false

/-- The slot is a tombstone. -/
def isDeleted : Slot K V → Bool
  | deleted => true
  | _ => false

/-- The slot holds a key equal to `key`. -/
def holds (eq : K → K → Bool) (key : K) : Slot K V → Bool
  | occupied k _ => eq k key
  | _ => false

variable {s : Slot K V}

theorem toEntry_eq_some {k : K} {v : V} : s.toEntry = some (k, v) ↔ s = occupied k v := by
  cases s with
  | empty => simp [toEntry]
  | occupied k' v' => simp [toEntry]
  | deleted => simp [toEntry]

theorem isEmpty_eq_true : s.isEmpty = true ↔ s = empty := by
  cases s with
  | empty => simp [isEmpty]
  | occupied k v => simp [isEmpty]
  | deleted => simp [isEmpty]

theorem isDeleted_eq_true : s.isDeleted = true ↔ s = deleted := by
  cases s with
  | empty => simp [isDeleted]
  | occupied k v => simp [isDeleted]
  | deleted => simp [isDeleted]

theorem holds_eq_true {eq : K → K → Bool} {key : K} :
    s.holds eq key = true ↔ ∃ k v, s = occupied k v ∧ eq k key = true := by
  cases s with
  | empty => simp [holds]
  | occupied k v => simp [holds]
  | deleted => simp [holds]

end Slot

open Slot

/-- The slot at an index. Outside the table nothing is stored. -/
def slotAt (slots : List (Slot K V)) (j : ℕ) : Slot K V := slots.getD j .empty

/-- The entries of a table, in slot order. -/
def entries (slots : List (Slot K V)) : List (K × V) := slots.filterMap Slot.toEntry

/-- The slots a probe visits from `start` on, wrapping around. -/
def probeSeq (capacity start : ℕ) : List ℕ :=
  (List.range capacity).map fun i => (start + i) % capacity

/-- The slots a probe visits before the first empty one. -/
def probeRun (slots : List (Slot K V)) (start : ℕ) : List ℕ :=
  (probeSeq slots.length start).takeWhile fun j => !(slotAt slots j).isEmpty

/-- The slot of a key equal to `key` on the probe run from `start`. -/
def lookup (eq : K → K → Bool) (slots : List (Slot K V)) (start : ℕ) (key : K) : Option ℕ :=
  (probeRun slots start).find? fun j => (slotAt slots j).holds eq key

/-! ### Slots and entries -/

variable {j start : ℕ} {k key : K} {v : V} {x : Slot K V}

theorem slotAt_eq_occupied {slots : List (Slot K V)} :
    slotAt slots j = .occupied k v ↔ slots[j]? = some (.occupied k v) := by
  rw [slotAt, List.getD_eq_getElem?_getD]
  cases slots[j]? with
  | none => simp
  | some s => simp

theorem slotAt_of_lt {slots : List (Slot K V)} (hj : j < slots.length) :
    slotAt slots j = slots[j] := by
  rw [slotAt, List.getD_eq_getElem?_getD, List.getElem?_eq_getElem hj, Option.getD_some]

theorem slotAt_set {slots : List (Slot K V)} (hj : j < slots.length) (x : Slot K V) (i : ℕ) :
    slotAt (slots.set j x) i = if j = i then x else slotAt slots i := by
  simp only [slotAt, List.getD_eq_getElem?_getD, List.getElem?_set]
  by_cases h : j = i
  · subst h
    simp [hj]
  · simp [h]

theorem mem_entries {slots : List (Slot K V)} :
    (k, v) ∈ entries slots ↔ ∃ j, slotAt slots j = .occupied k v := by
  simp only [entries, List.mem_filterMap, toEntry_eq_some, exists_eq_right, slotAt_eq_occupied]
  exact List.mem_iff_getElem?

theorem entries_set_perm {slots : List (Slot K V)} (hj : j < slots.length) (x : Slot K V) :
    (entries (slots.set j x)).Perm (x.toEntry.toList ++ entries (slots.set j .deleted)) := by
  rw [List.set_eq_take_append_cons_drop, List.set_eq_take_append_cons_drop, if_pos hj, if_pos hj]
  simp only [entries, List.filterMap_append, List.filterMap_cons]
  cases x with
  | empty => simp [toEntry]
  | occupied k v => simp [toEntry]
  | deleted => simp [toEntry]

theorem entries_perm {slots : List (Slot K V)} (hj : j < slots.length) :
    (entries slots).Perm ((slotAt slots j).toEntry.toList ++ entries (slots.set j .deleted)) := by
  have h := entries_set_perm hj slots[j]
  rwa [List.set_getElem_self, ← slotAt_of_lt hj] at h

theorem entries_insert_perm {slots : List (Slot K V)} (hj : j < slots.length)
    (hfree : (slotAt slots j).toEntry = none) (k : K) (v : V) :
    (entries (slots.set j (.occupied k v))).Perm ((k, v) :: entries slots) := by
  have hold := entries_perm hj
  rw [hfree, Option.toList_none, List.nil_append] at hold
  exact (entries_set_perm hj _).trans (hold.symm.cons (k, v))

theorem length_entries_set {slots : List (Slot K V)} (hj : j < slots.length) (x : Slot K V) :
    (entries (slots.set j x)).length + (slotAt slots j).toEntry.toList.length =
      (entries slots).length + x.toEntry.toList.length := by
  rw [(entries_set_perm hj x).length_eq, (entries_perm hj).length_eq, List.length_append,
    List.length_append]
  omega

theorem countP_isDeleted_set {slots : List (Slot K V)} (hj : j < slots.length) (x : Slot K V) :
    (slots.set j x).countP isDeleted =
      slots.countP isDeleted - (if (slotAt slots j).isDeleted then 1 else 0) +
        if x.isDeleted then 1 else 0 := by
  rw [List.countP_set hj, slotAt_of_lt hj]

theorem length_eq_add (slots : List (Slot K V)) :
    slots.length = (entries slots).length + slots.countP isDeleted + slots.countP isEmpty := by
  induction slots with
  | nil => rfl
  | cons s slots ih =>
    rw [entries] at ih
    cases s with
    | empty =>
      simp only [entries, toEntry, List.filterMap_cons, List.length_cons, List.countP_cons,
        isDeleted, isEmpty]
      simp
      omega
    | occupied k v =>
      simp only [entries, toEntry, List.filterMap_cons, List.length_cons, List.countP_cons,
        isDeleted, isEmpty]
      simp
      omega
    | deleted =>
      simp only [entries, toEntry, List.filterMap_cons, List.length_cons, List.countP_cons,
        isDeleted, isEmpty]
      simp
      omega

/-! ### Probe sequences -/

theorem mem_probeSeq {capacity : ℕ} (hj : j < capacity) : j ∈ probeSeq capacity start := by
  have hs := Nat.mod_lt start (by omega : 0 < capacity)
  rw [probeSeq, List.mem_map]
  refine ⟨(j + (capacity - start % capacity)) % capacity, ?_, ?_⟩
  · exact List.mem_range.mpr (Nat.mod_lt _ (by omega))
  · rw [Nat.add_mod_mod, ← Nat.mod_add_mod, show start % capacity +
      (j + (capacity - start % capacity)) = j + capacity by omega, Nat.add_mod_right,
      Nat.mod_eq_of_lt hj]

theorem lt_of_mem_probeSeq {capacity : ℕ} (hj : j ∈ probeSeq capacity start) : j < capacity := by
  obtain ⟨i, hi, rfl⟩ := List.mem_map.mp hj
  exact Nat.mod_lt _ (by have := List.mem_range.mp hi; omega)

theorem map_range_succ_mod (capacity start n : ℕ) :
    ((List.range (n + 1)).map fun i => (start + i) % capacity) =
      start % capacity :: (List.range n).map fun i => (start + 1 + i) % capacity := by
  rw [List.range_succ_eq_map, List.map_cons, List.map_map, Nat.add_zero]
  congr 2
  funext i
  simp [Nat.add_assoc, Nat.add_comm 1]

theorem probeSeq_mod (capacity start : ℕ) :
    probeSeq capacity (start % capacity) = probeSeq capacity start := by
  simp [probeSeq, Nat.mod_add_mod]

theorem mem_takeWhile_iff {α : Type} {p : α → Bool} {l : List α} {a : α} :
    a ∈ l.takeWhile p ↔ ∃ l₁ l₂, l = l₁ ++ a :: l₂ ∧ p a = true ∧ ∀ b ∈ l₁, p b = true := by
  constructor
  · intro h
    obtain ⟨s, t, hst⟩ := List.append_of_mem h
    refine ⟨s, t ++ l.dropWhile p, ?_, List.mem_takeWhile_imp h, ?_⟩
    · rw [← List.cons_append, ← List.append_assoc, ← hst, List.takeWhile_append_dropWhile]
    · intro b hb
      exact List.mem_takeWhile_imp (hst ▸ List.mem_append_left _ hb)
  · rintro ⟨l₁, l₂, rfl, ha, hl⟩
    rw [List.takeWhile_append_of_pos hl, List.takeWhile_cons_of_pos ha]
    simp

theorem lt_of_mem_probeRun {slots : List (Slot K V)} (hj : j ∈ probeRun slots start) :
    j < slots.length :=
  lt_of_mem_probeSeq ((List.takeWhile_sublist _).subset hj)

theorem mem_probeRun_set {slots : List (Slot K V)} {i : ℕ} (hj : j < slots.length)
    (hx : x.isEmpty = false) (hi : i ∈ probeRun slots start) :
    i ∈ probeRun (slots.set j x) start := by
  rw [probeRun, mem_takeWhile_iff] at hi ⊢
  obtain ⟨l₁, l₂, hl, hp, hall⟩ := hi
  have hkeep : ∀ b, (!(slotAt slots b).isEmpty) = true →
      (!(slotAt (slots.set j x) b).isEmpty) = true := by
    intro b hb
    rw [slotAt_set hj]
    split
    next => simp [hx]
    next => exact hb
  refine ⟨l₁, l₂, by rw [List.length_set, hl], hkeep i hp, ?_⟩
  intro b hb
  exact hkeep b (hall b hb)

theorem mem_probeRun_set_of_find {slots : List (Slot K V)} (hx : x.isEmpty = false)
    (hj : (probeSeq slots.length start).find? (fun j => (slotAt slots j).isEmpty) = some j) :
    j ∈ probeRun (slots.set j x) start := by
  have hlt := lt_of_mem_probeSeq (List.mem_of_find?_eq_some hj)
  obtain ⟨-, l₁, l₂, hl, hall⟩ := List.find?_eq_some_iff_append.mp hj
  rw [probeRun, mem_takeWhile_iff]
  refine ⟨l₁, l₂, by rw [List.length_set, hl], by simp [slotAt_set hlt, hx], ?_⟩
  intro b hb
  rw [slotAt_set hlt]
  split
  next => simp [hx]
  next => exact hall b hb

theorem exists_empty_of_lt {slots : List (Slot K V)}
    (h : (entries slots).length + slots.countP isDeleted < slots.length) (start : ℕ) :
    ∃ j, (probeSeq slots.length start).find? (fun j => (slotAt slots j).isEmpty) = some j := by
  have hpos : 0 < slots.countP isEmpty := by
    have := length_eq_add slots
    omega
  obtain ⟨s, hs, he⟩ := List.countP_pos_iff.mp hpos
  obtain ⟨j, hj, rfl⟩ := List.getElem_of_mem hs
  rw [← Option.isSome_iff_exists, List.find?_isSome]
  exact ⟨j, mem_probeSeq hj, by rw [slotAt_of_lt hj, he]⟩

/-- With fewer entries than slots there is a tombstone on the run or an empty slot after it,
and the first of them joins the run once it is written. -/
theorem exists_free_of_lt {slots : List (Slot K V)}
    (h : (entries slots).length < slots.length) (start : ℕ) :
    ∃ j, ((probeRun slots start).find? fun j => (slotAt slots j).isDeleted).or
        ((probeSeq slots.length start).find? fun j => (slotAt slots j).isEmpty) = some j ∧
      (slotAt slots j).toEntry = none ∧
      ∀ x : Slot K V, x.isEmpty = false → j ∈ probeRun (slots.set j x) start := by
  cases ht : (probeRun slots start).find? fun j => (slotAt slots j).isDeleted with
  | some j =>
    have hmem := List.mem_of_find?_eq_some ht
    have hdel : slotAt slots j = .deleted :=
      isDeleted_eq_true.mp (by simpa using List.find?_some ht)
    refine ⟨j, rfl, by rw [hdel]; rfl, ?_⟩
    intro x hx
    exact mem_probeRun_set (lt_of_mem_probeRun hmem) hx hmem
  | none =>
    cases he : (probeSeq slots.length start).find? fun j => (slotAt slots j).isEmpty with
    | some j =>
      have hempty : slotAt slots j = .empty :=
        isEmpty_eq_true.mp (by simpa using List.find?_some he)
      exact ⟨j, rfl, by rw [hempty]; rfl, fun x hx => mem_probeRun_set_of_find hx he⟩
    | none =>
      -- no slot is empty, so the run is the whole table, and no slot is a tombstone
      rw [List.find?_eq_none] at ht he
      have hnoEmpty : slots.countP isEmpty = 0 := by
        rw [List.countP_eq_zero]
        intro s hs
        obtain ⟨j, hj, rfl⟩ := List.getElem_of_mem hs
        have := he j (mem_probeSeq hj)
        rwa [slotAt_of_lt hj] at this
      have hrun : probeRun slots start = probeSeq slots.length start := by
        rw [probeRun, List.takeWhile_eq_self_iff]
        intro j hj
        simpa using he j hj
      have hnoDeleted : slots.countP isDeleted = 0 := by
        rw [List.countP_eq_zero]
        intro s hs
        obtain ⟨j, hj, rfl⟩ := List.getElem_of_mem hs
        have := ht j (hrun ▸ mem_probeSeq hj)
        rwa [slotAt_of_lt hj] at this
      have := length_eq_add slots
      omega

/-! ### The probe-chain invariant -/

/-- Every entry lies on the probe run from its hash, and no two entries have equal keys. -/
structure Chained (hash : K → ℕ) (eq : K → K → Bool) (slots : List (Slot K V)) : Prop where
  onRun : ∀ j k v, slotAt slots j = .occupied k v → j ∈ probeRun slots (hash k)
  distinct : (entries slots).Pairwise fun e e' => eq e.1 e'.1 = false

/-- An equivalence of keys under which equal keys have equal hashes. -/
structure KeyEquiv (hash : K → ℕ) (eq : K → K → Bool) : Prop where
  equiv : Equivalence fun a b => eq a b = true
  hash_eq : ∀ a b, eq a b = true → hash a = hash b

/-- The table stands for the map `m`, which does not tell equal keys apart. -/
def Denotes (eq : K → K → Bool) (slots : List (Slot K V)) (m : K → Option V) : Prop :=
  ∀ key v, m key = some v ↔ ∃ j k, slotAt slots j = .occupied k v ∧ eq k key = true

variable {hash : K → ℕ} {eq : K → K → Bool} {slots : List (Slot K V)} {m : K → Option V}

theorem KeyEquiv.eq_comm (hk : KeyEquiv hash eq) (a b : K) : eq a b = eq b a := by
  rw [Bool.eq_iff_iff]
  exact ⟨hk.equiv.symm, hk.equiv.symm⟩

theorem KeyEquiv.holds_eq_false (hk : KeyEquiv hash eq) (h : ∀ e ∈ entries slots, eq k e.1 = false)
    (i : ℕ) : (slotAt slots i).holds eq k = false := by
  rw [Bool.eq_false_iff]
  intro hi
  obtain ⟨k', v', hi, hek⟩ := holds_eq_true.mp hi
  have := h (k', v') (mem_entries.mpr ⟨i, hi⟩)
  rw [hk.eq_comm, hek] at this
  cases this

theorem Chained.eq_of_holds (hc : Chained hash eq slots) (hk : KeyEquiv hash eq) {i : ℕ}
    (hi : (slotAt slots i).holds eq key = true) (hj : (slotAt slots j).holds eq key = true) :
    i = j := by
  obtain ⟨k, v, hik, hek⟩ := holds_eq_true.mp hi
  obtain ⟨k', v', hjk, hek'⟩ := holds_eq_true.mp hj
  have hkk' : eq k k' = true := hk.equiv.trans hek (hk.equiv.symm hek')
  have hd := hc.distinct
  rw [entries, List.pairwise_filterMap, List.pairwise_iff_getElem] at hd
  rw [slotAt_eq_occupied, List.getElem?_eq_some_iff] at hik hjk
  obtain ⟨hil, hik⟩ := hik
  obtain ⟨hjl, hjk⟩ := hjk
  rcases lt_trichotomy i j with h | h | h
  · have := hd i j hil hjl h (k, v) (by rw [hik]; rfl) (k', v') (by rw [hjk]; rfl)
    simp [hkk'] at this
  · exact h
  · have := hd j i hjl hil h (k', v') (by rw [hjk]; rfl) (k, v) (by rw [hik]; rfl)
    rw [hk.eq_comm] at this
    simp [hkk'] at this

theorem holds_of_lookup (h : lookup eq slots start key = some j) :
    (slotAt slots j).holds eq key = true := by
  rw [lookup] at h
  simpa using List.find?_some h

theorem Chained.lookup_eq_some_iff (hc : Chained hash eq slots) (hk : KeyEquiv hash eq) :
    lookup eq slots (hash key) key = some j ↔ (slotAt slots j).holds eq key = true := by
  constructor
  · exact holds_of_lookup
  · intro h
    obtain ⟨k, v, hjk, hek⟩ := holds_eq_true.mp h
    have hrun := hc.onRun j k v hjk
    rw [hk.hash_eq k key hek] at hrun
    have hsome : (lookup eq slots (hash key) key).isSome = true := by
      rw [lookup, List.find?_isSome]
      exact ⟨j, hrun, h⟩
    obtain ⟨i, hi⟩ := Option.isSome_iff_exists.mp hsome
    rw [hi, hc.eq_of_holds hk (holds_of_lookup hi) h]

theorem Chained.lookup_eq_none_iff (hc : Chained hash eq slots) (hk : KeyEquiv hash eq) :
    lookup eq slots (hash key) key = none ↔ ∀ j, (slotAt slots j).holds eq key = false := by
  rw [Option.eq_none_iff_forall_ne_some]
  simp only [ne_eq, hc.lookup_eq_some_iff hk, Bool.not_eq_true]

theorem Chained.set (hc : Chained hash eq slots) (hk : KeyEquiv hash eq) (hj : j < slots.length)
    (hx : x.isEmpty = false)
    (hrun : ∀ k v, x = .occupied k v → j ∈ probeRun (slots.set j x) (hash k))
    (hnew : ∀ k v, x = .occupied k v → ∀ i, i ≠ j → (slotAt slots i).holds eq k = false) :
    Chained hash eq (slots.set j x) := by
  constructor
  · intro i k v hi
    rw [slotAt_set hj] at hi
    split at hi
    next h => exact h ▸ hrun k v hi
    next h => exact mem_probeRun_set hj hx (hc.onRun i k v hi)
  · have hsymm : ∀ e e' : K × V, eq e.1 e'.1 = false → eq e'.1 e.1 = false := by
      intro e e' h
      rwa [hk.eq_comm]
    -- the entries of the other slots are a part of the old entries
    have hrest : (entries (slots.set j .deleted)).Pairwise
        fun e e' => eq e.1 e'.1 = false := by
      have h := ((entries_perm hj).pairwise_iff (hsymm _ _)).mp hc.distinct
      exact (List.pairwise_append.mp h).2.1
    rw [(entries_set_perm hj x).pairwise_iff (hsymm _ _)]
    cases x with
    | empty => simp [isEmpty] at hx
    | deleted => simpa [toEntry] using hrest
    | occupied k v =>
      rw [toEntry, Option.toList_some, List.singleton_append, List.pairwise_cons]
      refine ⟨?_, hrest⟩
      rintro ⟨k', v'⟩ hmem
      obtain ⟨i, hi⟩ := mem_entries.mp hmem
      rw [slotAt_set hj] at hi
      split at hi
      next => cases hi
      next h =>
        have := hnew k v rfl i (Ne.symm h)
        rw [hi] at this
        rw [hk.eq_comm]
        exact this

theorem Chained.insert (hc : Chained hash eq slots) (hk : KeyEquiv hash eq)
    (habsent : ∀ i, (slotAt slots i).holds eq k = false)
    (hrun : j ∈ probeRun (slots.set j (.occupied k v)) (hash k)) :
    Chained hash eq (slots.set j (.occupied k v)) := by
  have hj : j < slots.length := by simpa using lt_of_mem_probeRun hrun
  refine hc.set hk hj rfl ?_ ?_
  · rintro _ _ ⟨rfl, rfl⟩
    exact hrun
  · rintro _ _ ⟨rfl, rfl⟩ i -
    exact habsent i

theorem Chained.replicate (n : ℕ) : Chained hash eq (List.replicate n (.empty : Slot K V)) := by
  have hent : entries (List.replicate n (.empty : Slot K V)) = [] := by
    simp [entries, List.filterMap_replicate, toEntry]
  constructor
  · intro j k v h
    have hmem : (k, v) ∈ entries (List.replicate n (.empty : Slot K V)) := mem_entries.mpr ⟨j, h⟩
    simp [hent] at hmem
  · simp [hent]

/-! ### The map a table stands for -/

theorem Denotes.eq_of_lookup (hd : Denotes eq slots m) (hc : Chained hash eq slots)
    (hk : KeyEquiv hash eq) (key : K) :
    m key = (lookup eq slots (hash key) key).bind
      fun j => (slotAt slots j).toEntry.map Prod.snd := by
  cases hl : lookup eq slots (hash key) key with
  | none =>
    rw [hc.lookup_eq_none_iff hk] at hl
    rw [Option.bind_none, Option.eq_none_iff_forall_ne_some]
    intro v hv
    obtain ⟨j, k, hj, hek⟩ := (hd key v).mp hv
    have := hl j
    rw [hj, holds, hek] at this
    cases this
  | some j =>
    obtain ⟨k, v, hj, hek⟩ := holds_eq_true.mp ((hc.lookup_eq_some_iff hk).mp hl)
    rw [(hd key v).mpr ⟨j, k, hj, hek⟩]
    simp [hj, toEntry]

/-- Writing slot `j` gives its value to the keys equal to `key`, provided no other slot
holds such a key and slot `j` holds no other key, before or after. -/
theorem Denotes.set (hd : Denotes eq slots m) (hk : KeyEquiv hash eq) (hj : j < slots.length)
    (hother : ∀ i, i ≠ j → (slotAt slots i).holds eq key = false)
    (hold : ∀ k v, slotAt slots j = .occupied k v → eq k key = true)
    (hnew : ∀ k v, x = .occupied k v → eq k key = true) :
    Denotes eq (slots.set j x)
      fun q => if eq key q then x.toEntry.map Prod.snd else m q := by
  intro q v
  by_cases hq : eq key q = true
  · simp only [hq, if_true]
    constructor
    · intro h
      obtain ⟨⟨k, v'⟩, hx, rfl⟩ := Option.map_eq_some_iff.mp h
      rw [toEntry_eq_some] at hx
      exact ⟨j, k, by simp [slotAt_set hj, hx], hk.equiv.trans (hnew k v' hx) hq⟩
    · rintro ⟨i, k, hi, hek⟩
      rw [slotAt_set hj] at hi
      split at hi
      next => simp [hi, toEntry]
      next h =>
        have := hother i (Ne.symm h)
        rw [hi, holds, hk.equiv.trans hek (hk.equiv.symm hq)] at this
        cases this
  · simp only [hq, if_false, Bool.false_eq_true]
    rw [hd q v]
    constructor
    · rintro ⟨i, k, hi, hek⟩
      have hij : j ≠ i := by
        rintro rfl
        exact hq (hk.equiv.trans (hk.equiv.symm (hold k v hi)) hek)
      exact ⟨i, k, by rw [slotAt_set hj, if_neg hij, hi], hek⟩
    · rintro ⟨i, k, hi, hek⟩
      rw [slotAt_set hj] at hi
      split at hi
      next => exact absurd (hk.equiv.trans (hk.equiv.symm (hnew k v hi)) hek) hq
      next => exact ⟨i, k, hi, hek⟩

theorem Denotes.erase_of_absent (hd : Denotes eq slots m) (hk : KeyEquiv hash eq)
    (habsent : ∀ i, (slotAt slots i).holds eq key = false) :
    Denotes eq slots fun q => if eq key q then none else m q := by
  have hsame : (fun q => if eq key q then none else m q) = m := by
    funext q
    split
    next hq =>
      symm
      rw [Option.eq_none_iff_forall_ne_some]
      intro v hv
      obtain ⟨j, k, hj, hek⟩ := (hd q v).mp hv
      have := habsent j
      rw [hj, holds, hk.equiv.trans hek (hk.equiv.symm hq)] at this
      cases this
    next => rfl
  rwa [hsame]

theorem Denotes.of_perm {slots' : List (Slot K V)} (hd : Denotes eq slots m)
    (hp : (entries slots').Perm (entries slots)) : Denotes eq slots' m := by
  have hmem : ∀ k v, (∃ j, slotAt slots' j = .occupied k v) ↔
      ∃ j, slotAt slots j = .occupied k v := by
    intro k v
    rw [← mem_entries, ← mem_entries, hp.mem_iff]
  intro key v
  rw [hd key v]
  constructor
  · rintro ⟨j, k, hj, hek⟩
    obtain ⟨i, hi⟩ := (hmem k v).mpr ⟨j, hj⟩
    exact ⟨i, k, hi, hek⟩
  · rintro ⟨j, k, hj, hek⟩
    obtain ⟨i, hi⟩ := (hmem k v).mp ⟨j, hj⟩
    exact ⟨i, k, hi, hek⟩

theorem Denotes.replicate (n : ℕ) :
    Denotes eq (List.replicate n (.empty : Slot K V)) fun _ => none := by
  intro key v
  have hempty : ∀ j, slotAt (List.replicate n (.empty : Slot K V)) j = .empty := by
    intro j
    rw [slotAt, List.getD_eq_getElem?_getD, List.getElem?_replicate]
    split <;> rfl
  simp [hempty]

theorem Chained.write_found (hc : Chained hash eq slots) (hk : KeyEquiv hash eq)
    (hd : Denotes eq slots m) (hjk : slotAt slots j = .occupied k v) (hek : eq k key = true)
    (hx : x.isEmpty = false) (hxk : ∀ k' v', x = .occupied k' v' → k' = k) :
    Chained hash eq (slots.set j x) ∧
      Denotes eq (slots.set j x) (fun q => if eq key q then x.toEntry.map Prod.snd else m q) ∧
      (entries (slots.set j x)).length + 1 = (entries slots).length + x.toEntry.toList.length := by
  have hrun := hc.onRun j k v hjk
  have hj := lt_of_mem_probeRun hrun
  have hother : ∀ q, eq q key = true → ∀ i, i ≠ j → (slotAt slots i).holds eq q = false := by
    intro q hq i hij
    rw [Bool.eq_false_iff]
    intro h
    obtain ⟨k', v', hi, hek'⟩ := holds_eq_true.mp h
    exact hij (hc.eq_of_holds hk (holds_eq_true.mpr ⟨k', v', hi, hk.equiv.trans hek' hq⟩)
      (holds_eq_true.mpr ⟨k, v, hjk, hek⟩))
  have hnew : ∀ k' v', x = .occupied k' v' → eq k' key = true := by
    intro k' v' h
    rw [hxk k' v' h]
    exact hek
  refine ⟨hc.set hk hj hx ?_ ?_, hd.set hk hj (hother key (hk.equiv.refl key)) ?_ hnew, ?_⟩
  · intro k' v' h
    rw [hxk k' v' h]
    exact mem_probeRun_set hj hx hrun
  · intro k' v' h
    exact hother k' (hnew k' v' h)
  · intro k' v' h
    rw [hjk] at h
    cases h
    exact hek
  · have h₁ := (entries_set_perm hj x).length_eq
    have h₂ := (entries_perm hj).length_eq
    rw [hjk, toEntry, Option.toList_some, List.length_append, List.length_singleton] at h₂
    rw [List.length_append] at h₁
    omega

theorem Chained.write_free (hc : Chained hash eq slots) (hk : KeyEquiv hash eq)
    (hd : Denotes eq slots m) (value : V) (habsent : ∀ i, (slotAt slots i).holds eq key = false)
    (hfree : (slotAt slots j).toEntry = none)
    (hrun : j ∈ probeRun (slots.set j (.occupied key value)) (hash key)) :
    Chained hash eq (slots.set j (.occupied key value)) ∧
      Denotes eq (slots.set j (.occupied key value))
        (fun q => if eq key q then some value else m q) ∧
      (entries (slots.set j (.occupied key value))).length = (entries slots).length + 1 := by
  have hj : j < slots.length := by simpa using lt_of_mem_probeRun hrun
  refine ⟨hc.insert hk habsent hrun, hd.set hk hj (fun i _ => habsent i) ?_ ?_, ?_⟩
  · intro k v h
    rw [h] at hfree
    cases hfree
  · rintro _ _ ⟨rfl, rfl⟩
    exact hk.equiv.refl key
  · rw [(entries_insert_perm hj hfree key value).length_eq, List.length_cons]

/-! ### Live keys -/

/-- The keys of a table, in slot order. -/
def keys (slots : List (Slot K V)) : List K := (entries slots).map Prod.fst

theorem Denotes.isSome_iff (hd : Denotes eq slots m) (key : K) :
    (m key).isSome = true ↔ ∃ k ∈ keys slots, eq k key = true := by
  simp only [Option.isSome_iff_exists, hd key, keys, List.mem_map, Prod.exists, mem_entries]
  constructor
  · rintro ⟨v, j, k, hj, hek⟩
    exact ⟨k, ⟨k, v, ⟨j, hj⟩, rfl⟩, hek⟩
  · rintro ⟨_, ⟨k, v, ⟨j, hj⟩, rfl⟩, hek⟩
    exact ⟨v, j, k, hj, hek⟩

theorem Chained.pairwise_keys (hc : Chained hash eq slots) :
    (keys slots).Pairwise fun k k' => eq k k' = false :=
  List.pairwise_map.mpr hc.distinct

/-- The classes of keys. -/
def KeyEquiv.setoid (hk : KeyEquiv hash eq) : Setoid K := ⟨fun a b => eq a b = true, hk.equiv⟩

theorem Denotes.length_eq_ncard (hd : Denotes eq slots m) (hc : Chained hash eq slots)
    (hk : KeyEquiv hash eq) :
    (entries slots).length =
      {c : Quotient hk.setoid | ∃ key, c = Quotient.mk _ key ∧ (m key).isSome = true}.ncard := by
  have hnodup : ((keys slots).map (Quotient.mk hk.setoid)).Nodup := by
    rw [List.Nodup, List.pairwise_map]
    refine hc.pairwise_keys.imp fun {a b} hab heq => ?_
    have : eq a b = true := Quotient.exact heq
    rw [hab] at this
    cases this
  have hset : {c : Quotient hk.setoid | ∃ key, c = Quotient.mk _ key ∧ (m key).isSome = true} =
      {c | c ∈ (keys slots).map (Quotient.mk hk.setoid)} := by
    ext c
    simp only [Set.mem_ofPred_eq, List.mem_map]
    constructor
    · rintro ⟨key, rfl, hlive⟩
      obtain ⟨k, hmem, hek⟩ := (hd.isSome_iff key).mp hlive
      exact ⟨k, hmem, Quotient.sound hek⟩
    · rintro ⟨k, hmem, rfl⟩
      exact ⟨k, rfl, (hd.isSome_iff k).mpr ⟨k, hmem, hk.equiv.refl k⟩⟩
  classical
  rw [hset, ← List.coe_toFinset, Set.ncard_coe_finset, List.toFinset_card_of_nodup hnodup]
  simp [keys]

end Probe
