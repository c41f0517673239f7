import Eshkol.Native.HashTable

/-!
# Load of the Native Hash Table

`hash_table_set` compares the load with three quarters before it inserts, and the load
counts the tombstones. A table starts with sixteen slots and grows by doubling, so an
insertion below that load leaves a slot empty: the probe loops, which stop at an empty slot
only, stop from every reachable state. Nothing here depends on the hash or on the equality
of keys.
-/

namespace Eshkol

open Machine Probe Ratio

variable {K V : Type} {hash : K → ℕ} {eq : K → K → Bool} {table : HashTable K V}

/-- The tables that a program can have: a new one, and what an operation makes of one. -/
inductive HashTable.Reachable (hash : K → ℕ) (eq : K → K → Bool) : HashTable K V → Prop
  | create {table : HashTable K V} (hnew : arenaHashTableCreate = some table) :
      Reachable hash eq table
  | step {table table' : HashTable K V} {returned : Bool} (op : Op K V)
      (hreach : Reachable hash eq table)
      (hrun : op.run hash eq table = .ok (returned, table')) : Reachable hash eq table'

/-- The counters are those of the slots. -/
structure HashTable.Counted (table : HashTable K V) : Prop where
  size_eq : table.size = (entries table.slots).length
  tombstones_eq : table.tombstones = table.slots.countP Slot.isDeleted

/-- The load invariant: a power of two of slots, one of them empty. -/
structure HashTable.Roomy (table : HashTable K V) : Prop extends table.Counted where
  pow_two : ∃ k, 4 ≤ k ∧ table.capacity = 2 ^ k
  lt_capacity : table.size + table.tombstones < table.capacity

/-- With at most one empty slot of sixteen or more the quotient is near enough to one that
no rounding brings it to three quarters. -/
theorem overloaded_of_tight (hcap : 16 ≤ table.capacity)
    (htight : table.capacity ≤ table.size + table.tombstones + 1) : overloaded table = true := by
  rw [overloaded, decide_eq_true_iff]
  generalize hn : table.size + table.tombstones = n at htight ⊢
  generalize hc : table.capacity = c at hcap htight ⊢
  have hcq : (16 : ℚ) ≤ (c : ℚ) := by exact_mod_cast hcap
  have hnq : (c : ℚ) ≤ n + 1 := by exact_mod_cast htight
  have hn0 : (0 : ℚ) < n := by linarith
  have hc0 : (0 : ℚ) < c := by linarith
  have hnr := abs_le.mp (abs_sub_roundDouble_le hn0)
  have hcr := abs_le.mp (abs_sub_roundDouble_le hc0)
  have hquot : 4 / 5 ≤ roundDouble (n : ℚ) / roundDouble (c : ℚ) := by
    rw [le_div_iff₀ (roundDouble_pos hc0)]
    linarith [hnr.2, hcr.1]
  have hqr := abs_le.mp (abs_sub_roundDouble_le
    (by linarith : 0 < roundDouble (n : ℚ) / roundDouble (c : ℚ)))
  linarith [hqr.2]

/-! ### Writing one slot -/

theorem HashTable.Roomy.capacity_ge (hr : table.Roomy) : 16 ≤ table.capacity := by
  obtain ⟨k, hk, hpow⟩ := hr.pow_two
  rw [hpow]
  exact Nat.pow_le_pow_right two_pos hk

theorem HashTable.Counted.set (hc : table.Counted) {j size tombstones : ℕ} {x : Slot K V}
    (hj : j < table.slots.length)
    (hsize : size + (slotAt table.slots j).toEntry.toList.length =
      table.size + x.toEntry.toList.length)
    (htomb : tombstones = table.tombstones -
      (if (slotAt table.slots j).isDeleted then 1 else 0) + if x.isDeleted then 1 else 0) :
    (⟨table.slots.set j x, size, tombstones⟩ : HashTable K V).Counted where
  size_eq := by
    have hlen := length_entries_set hj x
    rw [← hc.size_eq] at hlen
    change size = (entries (table.slots.set j x)).length
    omega
  tombstones_eq := by rw [htomb, hc.tombstones_eq, countP_isDeleted_set hj]

theorem HashTable.Counted.set_roomy (hc : table.Counted)
    (hpow : ∃ k, 4 ≤ k ∧ table.capacity = 2 ^ k) {j size tombstones : ℕ} {x : Slot K V}
    (hj : j < table.slots.length)
    (hsize : size + (slotAt table.slots j).toEntry.toList.length =
      table.size + x.toEntry.toList.length)
    (htomb : tombstones = table.tombstones -
      (if (slotAt table.slots j).isDeleted then 1 else 0) + if x.isDeleted then 1 else 0)
    (hlt : size + tombstones < table.capacity) :
    (⟨table.slots.set j x, size, tombstones⟩ : HashTable K V).Roomy where
  toCounted := hc.set hj hsize htomb
  pow_two := by simpa [HashTable.capacity] using hpow
  lt_capacity := by simpa [HashTable.capacity] using hlt

theorem findSlot_found {key : K} {slot : ℕ} (h : (findSlot hash eq table key).1 = some slot) :
    slot < table.slots.length ∧ ∃ k v, slotAt table.slots slot = .occupied k v := by
  rw [findSlot_fst] at h
  obtain ⟨k, v, hkv, -⟩ := Slot.holds_eq_true.mp (holds_of_lookup h)
  refine ⟨?_, k, v, hkv⟩
  rw [lookup] at h
  exact lt_of_mem_probeRun (List.mem_of_find?_eq_some h)

theorem findSlot_tombstone {key : K} {slot : ℕ}
    (h : findSlot hash eq table key = (none, some slot)) :
    slot < table.slots.length ∧ slotAt table.slots slot = .deleted := by
  rw [findSlot_eq] at h
  cases hl : lookup eq table.slots (hash key) key with
  | some j => simp [hl] at h
  | none =>
    simp only [hl, Prod.mk.injEq, true_and] at h
    exact ⟨lt_of_mem_probeRun (List.mem_of_find?_eq_some h),
      Slot.isDeleted_eq_true.mp (by simpa using List.find?_some h)⟩

/-! ### The operations -/

theorem hashTableStore_roomy (hash : K → ℕ) (eq : K → K → Bool) (hc : table.Counted)
    (hpow : ∃ k, 4 ≤ k ∧ table.capacity = 2 ^ k)
    (hroom : table.size + table.tombstones + 1 < table.capacity) (key : K) (value : V) :
    ∃ table', hashTableStore hash eq table key value = .ok table' ∧ table'.Roomy := by
  rw [hashTableStore]
  rcases hfind : findSlot hash eq table key with ⟨found, tombstone⟩
  cases found with
  | some slot =>
    obtain ⟨hj, k, v, hkv⟩ := findSlot_found (congrArg Prod.fst hfind)
    refine ⟨_, rfl, hc.set_roomy hpow hj ?_ ?_ (by omega)⟩
    · rw [hkv]
      rfl
    · rw [hkv]
      rfl
  | none =>
    cases tombstone with
    | some slot =>
      obtain ⟨hj, hdel⟩ := findSlot_tombstone hfind
      refine ⟨_, rfl, hc.set_roomy hpow hj ?_ ?_ (by omega)⟩
      · rw [hdel]
        rfl
      · rw [hdel]
        rfl
    | none =>
      obtain ⟨j, hprobe, hfirst⟩ := probeEmpty_spec table.slots (hash key)
        (by rw [← hc.size_eq, ← hc.tombstones_eq, ← HashTable.capacity]; omega)
      have hempty : slotAt table.slots j = .empty :=
        Slot.isEmpty_eq_true.mp (by simpa using List.find?_some hfirst)
      have hj := lt_of_mem_probeSeq (List.mem_of_find?_eq_some hfirst)
      rw [HashTable.capacity, hprobe, ok_bind]
      refine ⟨_, rfl, hc.set_roomy hpow hj ?_ ?_ (by omega)⟩
      · rw [hempty]
        rfl
      · rw [hempty]
        rfl

theorem hashTableResize_roomy (hash : K → ℕ) (hr : table.Roomy) :
    ∃ grown, hashTableResize hash table (table.capacity * 2) = .ok grown ∧ grown.Roomy ∧
      grown.capacity = table.capacity * 2 ∧ grown.size = table.size ∧ grown.tombstones = 0 ∧
      (entries grown.slots).Perm (entries table.slots) := by
  have hlt := hr.lt_capacity
  obtain ⟨grown, hresize, hcap, hsize, htomb, hdel, hent⟩ :=
    hashTableResize_entries hash hr.size_eq (by omega : table.size < table.capacity * 2)
  obtain ⟨k, hk, hpow⟩ := hr.pow_two
  refine ⟨grown, hresize, ⟨⟨?_, by rw [htomb, hdel]⟩, ⟨k + 1, by omega, ?_⟩, by omega⟩, hcap,
    hsize, htomb, hent⟩
  · rw [hsize, hr.size_eq, hent.length_eq]
  · rw [hcap, hpow, pow_succ]

theorem hashTableSet_roomy (hash : K → ℕ) (eq : K → K → Bool) (hr : table.Roomy)
    (allocOk : Bool) (key : K) (value : V) :
    ∃ returned table', hashTableSet hash eq allocOk table key value = .ok (returned, table') ∧
      table'.Roomy := by
  have hge := hr.capacity_ge
  have hlt := hr.lt_capacity
  rw [hashTableSet]
  cases hload : overloaded table with
  | false =>
    have hroom : table.size + table.tombstones + 1 < table.capacity := by
      by_contra htight
      rw [overloaded_of_tight hge (by omega)] at hload
      cases hload
    obtain ⟨table', hstore, hr'⟩ :=
      hashTableStore_roomy hash eq hr.toCounted hr.pow_two hroom key value
    exact ⟨true, table', by simp [hstore], hr'⟩
  | true =>
    cases allocOk with
    | false => exact ⟨false, table, rfl, hr⟩
    | true =>
      obtain ⟨grown, hresize, hrg, hcap, hsize, htomb, -⟩ := hashTableResize_roomy hash hr
      obtain ⟨table', hstore, hr'⟩ := hashTableStore_roomy hash eq
        hrg.toCounted hrg.pow_two (by omega) key value
      exact ⟨true, table', by simp [hresize, hstore], hr'⟩

theorem hashTableRemove_roomy (hr : table.Roomy) (key : K) :
    (hashTableRemove hash eq table key).2.Roomy := by
  rw [hashTableRemove]
  cases hfind : (findSlot hash eq table key).1 with
  | none => exact hr
  | some slot =>
    obtain ⟨hj, k, v, hkv⟩ := findSlot_found hfind
    have hpos : 0 < table.size := by
      rw [hr.size_eq]
      exact List.length_pos_of_mem (mem_entries.mpr ⟨slot, hkv⟩)
    have hlt := hr.lt_capacity
    refine hr.toCounted.set_roomy hr.pow_two hj ?_ ?_ (by omega)
    · rw [hkv]
      simp only [Slot.toEntry, Option.toList_some, Option.toList_none, List.length_singleton,
        List.length_nil]
      omega
    · rw [hkv]
      rfl

theorem HashTable.Roomy.replicate {capacity : ℕ} (hpow : ∃ k, 4 ≤ k ∧ capacity = 2 ^ k) :
    (⟨List.replicate capacity .empty, 0, 0⟩ : HashTable K V).Roomy where
  size_eq := by simp [entries, List.filterMap_replicate, Slot.toEntry]
  tombstones_eq := by simp [List.countP_replicate, Slot.isDeleted]
  pow_two := by simpa [HashTable.capacity] using hpow
  lt_capacity := by
    obtain ⟨k, -, rfl⟩ := hpow
    simp [HashTable.capacity]

theorem Op.run_roomy (hash : K → ℕ) (eq : K → K → Bool) (hr : table.Roomy) (op : Op K V) :
    ∃ returned table', op.run hash eq table = .ok (returned, table') ∧ table'.Roomy := by
  cases op with
  | set key value allocOk => exact hashTableSet_roomy hash eq hr allocOk key value
  | remove key => exact ⟨_, _, rfl, hashTableRemove_roomy hr key⟩
  | clear => exact ⟨_, _, rfl, HashTable.Roomy.replicate hr.pow_two⟩

theorem HashTable.Reachable.roomy (hreach : table.Reachable hash eq) : table.Roomy := by
  induction hreach with
  | create hnew =>
    cases hnew
    exact HashTable.Roomy.replicate ⟨4, le_rfl, rfl⟩
  | step op _ hrun ih =>
    obtain ⟨returned, table', hrun', hr'⟩ := op.run_roomy hash eq ih
    cases hrun'.symm.trans hrun
    exact hr'

theorem findSlotLoop_stops (eq : K → K → Bool) (slots : List (Slot K V)) (key : K)
    (ps : List ℕ) (t : Option ℕ)
    (hempty : ∃ p ∈ ps, (slotAt slots p).isEmpty = true) :
    ∃ passed slot rest, ps = passed ++ slot :: rest ∧
      (∀ p ∈ passed, (slotAt slots p).isEmpty = false ∧ (slotAt slots p).holds eq key = false) ∧
      (slotAt slots slot = .empty ∧ (findSlotLoop eq slots key ps t).1 = none ∨
        (slotAt slots slot).holds eq key = true ∧
          findSlotLoop eq slots key ps t = (some slot, none)) := by
  induction ps generalizing t with
  | nil => simp at hempty
  | cons p ps ih =>
    have hnext : (slotAt slots p).isEmpty = false → ∃ p ∈ ps, (slotAt slots p).isEmpty = true := by
      intro hp
      simpa [hp] using hempty
    rw [findSlotLoop]
    cases hp : slotAt slots p with
    | empty => exact ⟨[], p, ps, rfl, by simp, Or.inl ⟨hp, rfl⟩⟩
    | deleted =>
      obtain ⟨passed, slot, rest, rfl, hpassed, hstop⟩ :=
        ih (t.or (some p)) (hnext (by rw [hp]; rfl))
      refine ⟨p :: passed, slot, rest, rfl, ?_, hstop⟩
      exact List.forall_mem_cons.mpr ⟨by rw [hp]; exact ⟨rfl, rfl⟩, hpassed⟩
    | occupied k v =>
      cases hk : eq k key with
      | true =>
        refine ⟨[], p, ps, rfl, by simp, Or.inr ⟨by rw [hp]; exact hk, ?_⟩⟩
        simp [hk]
      | false =>
        obtain ⟨passed, slot, rest, rfl, hpassed, hstop⟩ := ih t (hnext (by rw [hp]; rfl))
        refine ⟨p :: passed, slot, rest, rfl, ?_, by simpa [hk] using hstop⟩
        exact List.forall_mem_cons.mpr ⟨by rw [hp]; exact ⟨rfl, hk⟩, hpassed⟩

/-- In every reachable state the counters count the occupied slots and the tombstones, their
sum is below the capacity, and the capacity is a power of two. `find_slot` stops at the
first slot of its probe that is empty or holds the key, the insertion probe of
`hash_table_set` stops at an empty slot wherever it starts, a resize returns with the same
live entries in twice the slots and without tombstones, and every operation returns. -/
theorem hashTable_load (hreach : table.Reachable hash eq) :
    (table.size = (entries table.slots).length ∧
      table.tombstones = table.slots.countP Slot.isDeleted ∧
      table.size + table.tombstones < table.capacity ∧
      ∃ k, table.capacity = 2 ^ k) ∧
    (∀ key, ∃ passed slot rest, probeSeq table.capacity (hash key) = passed ++ slot :: rest ∧
      (∀ p ∈ passed, (slotAt table.slots p).isEmpty = false ∧
        (slotAt table.slots p).holds eq key = false) ∧
      (slotAt table.slots slot = .empty ∧ (findSlot hash eq table key).1 = none ∨
        (slotAt table.slots slot).holds eq key = true ∧
          findSlot hash eq table key = (some slot, none))) ∧
    (∀ start, ∃ slot, slotAt table.slots slot = .empty ∧
      probeEmpty table.slots table.capacity (start % table.capacity) = .ok slot) ∧
    (∃ grown, hashTableResize hash table (table.capacity * 2) = .ok grown ∧
      (entries grown.slots).Perm (entries table.slots) ∧
      grown.slots.countP Slot.isDeleted = 0 ∧ grown.tombstones = 0 ∧
      grown.capacity = table.capacity * 2) ∧
    ∀ op : Op K V, ∃ returned table', op.run hash eq table = .ok (returned, table') := by
  have hr := hreach.roomy
  have hroom : (entries table.slots).length + table.slots.countP Slot.isDeleted <
      table.slots.length := by
    have hlt := hr.lt_capacity
    rwa [hr.size_eq, hr.tombstones_eq] at hlt
  refine ⟨⟨hr.size_eq, hr.tombstones_eq, hr.lt_capacity, ?_⟩, ?_, ?_, ?_, ?_⟩
  · obtain ⟨k, -, hpow⟩ := hr.pow_two
    exact ⟨k, hpow⟩
  · intro key
    obtain ⟨j, hj⟩ := exists_empty_of_lt hroom (hash key)
    have hstop := findSlotLoop_stops eq table.slots key
      (probeSeq table.capacity (hash key)) none
      ⟨j, List.mem_of_find?_eq_some hj, by simpa using List.find?_some hj⟩
    rwa [findSlot, probeSeq_mod]
  · intro start
    obtain ⟨j, hprobe, hfirst⟩ := probeEmpty_spec table.slots start hroom
    exact ⟨j, Slot.isEmpty_eq_true.mp (by simpa using List.find?_some hfirst), hprobe⟩
  · obtain ⟨grown, hresize, hrg, hcap, -, htomb, hent⟩ := hashTableResize_roomy hash hr
    exact ⟨grown, hresize, hent, by rw [← hrg.tombstones_eq, htomb], htomb, hcap⟩
  · intro op
    obtain ⟨returned, table', hrun, -⟩ := op.run_roomy hash eq hr
    exact ⟨returned, table', hrun⟩

/-- A table with one tombstone: a key set and removed. -/
theorem hashTable_load_removed :
    ∃ table : HashTable ℕ ℕ, table.Reachable id (fun a b => a == b) ∧ table.tombstones = 1 ∧
      table.size + table.tombstones < table.capacity := by
  have hload : overloaded (⟨List.replicate 16 .empty, 0, 0⟩ : HashTable ℕ ℕ) = false := by
    rw [overloaded, decide_eq_false_iff_not]
    norm_num [roundDouble]
  have hset : hashTableSet id (fun a b => a == b) true
      (⟨List.replicate 16 .empty, 0, 0⟩ : HashTable ℕ ℕ) 3 7 =
        .ok (true, ⟨(List.replicate 16 .empty).set 3 (.occupied 3 7), 1, 0⟩) := by
    rw [hashTableSet, hload]
    rfl
  have hreach : HashTable.Reachable id (fun a b => a == b)
      (⟨(List.replicate 16 .empty).set 3 .deleted, 0, 1⟩ : HashTable ℕ ℕ) :=
    .step (.remove 3) (.step (.set 3 7 true) (.create rfl) hset) rfl
  exact ⟨_, hreach, rfl, (hashTable_load hreach).1.2.2.1⟩

end Eshkol
