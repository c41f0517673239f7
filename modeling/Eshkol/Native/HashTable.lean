import Eshkol.Machine.Exec
import Eshkol.Probe.OpenAddressing
import Eshkol.Ratio.Binary64

/-!
# Native Hash Table

`lib/core/runtime_hash_table.cpp`: open addressing with linear probing, tombstones and
doubling. The key, value and status arrays of a table are one list of slots here: the
source reads a key or a value only where the status is occupied. `hash_tagged_value` and
`hash_keys_equal` are parameters. Capacities and counters are natural numbers.

The allocation of the new arrays may fail, in which case `hash_table_set` returns false;
each set operation says whether its allocation succeeds. The cons cells of the key and
value lists are allocated.
-/

namespace Eshkol

open Machine Probe Ratio

variable {K V : Type}

/-- `eshkol_hash_table_t`. -/
structure HashTable (K V : Type) : Type where
  slots : List (Slot K V)
  size : ℕ
  tombstones : ℕ
  deriving DecidableEq, Repr

/-- `table->capacity`. -/
def HashTable.capacity (table : HashTable K V) : ℕ := table.slots.length

/-- `arena_allocate_hash_table`: zeroed arrays; a capacity of zero is refused. -/
def arenaAllocateHashTable (initialCapacity : ℕ) : Option (HashTable K V) :=
  if initialCapacity = 0 then none
  else some ⟨List.replicate initialCapacity .empty, 0, 0⟩

/-- `arena_hash_table_create`, with `HASH_TABLE_INITIAL_CAPACITY` slots. -/
def arenaHashTableCreate : Option (HashTable K V) := arenaAllocateHashTable 16

/-- `values[slot] = value`: the status and the key stay. -/
def withValue (value : V) : Slot K V → Slot K V
  | .occupied k _ => .occupied k value
  | s => s

section Operations

variable (hash : K → ℕ) (eq : K → K → Bool)

/-- The loop of `find_slot` over the remaining probe indices. -/
def findSlotLoop (slots : List (Slot K V)) (key : K) : List ℕ → Option ℕ → Option ℕ × Option ℕ
  | [], firstTombstone => (none, firstTombstone)
  | probeIndex :: rest, firstTombstone =>
    match slotAt slots probeIndex with
    | .empty => (none, firstTombstone)
    | .deleted => findSlotLoop slots key rest (firstTombstone.or (some probeIndex))
    | .occupied k _ =>
      if eq k key then (some probeIndex, none)
      else findSlotLoop slots key rest firstTombstone

/-- `find_slot`: the slot of the key, and the first tombstone on the way when there is
none. -/
def findSlot (table : HashTable K V) (key : K) : Option ℕ × Option ℕ :=
  findSlotLoop eq table.slots key
    (probeSeq table.capacity (hash key % table.capacity)) none

/-- `while (status[index] != HASH_ENTRY_EMPTY) index = (index + 1) % capacity`. After as
many passes as there are slots the loop is back where it began, and never stops. -/
def probeEmpty (slots : List (Slot K V)) : ℕ → ℕ → Exec Empty ℕ
  | 0, _ => .error .diverges
  | passes + 1, index =>
    if (slotAt slots index).isEmpty then .ok index
    else probeEmpty slots passes ((index + 1) % slots.length)

/-- The loop of `hash_table_resize` over the remaining old slots. -/
def rehash : List (Slot K V) → List (Slot K V) → Exec Empty (List (Slot K V))
  | [], new => .ok new
  | .occupied k v :: old, new => do
      let index ← probeEmpty new new.length (hash k % new.length)
      rehash old (new.set index (.occupied k v))
  | _ :: old, new => rehash old new

/-- `hash_table_resize`, its allocation having succeeded. -/
def hashTableResize (table : HashTable K V) (newCapacity : ℕ) :
    Exec Empty (HashTable K V) := do
  let slots ← rehash hash table.slots (List.replicate newCapacity .empty)
  .ok { slots, size := table.size, tombstones := 0 }

/-- `(double)(size + tombstones) / capacity > HASH_TABLE_LOAD_FACTOR`. -/
def overloaded (table : HashTable K V) : Bool :=
  3 / 4 < roundDouble
    (roundDouble (table.size + table.tombstones : ℕ) / roundDouble (table.capacity : ℕ))

/-- `hash_table_set` after the resize. -/
def hashTableStore (table : HashTable K V) (key : K) (value : V) : Exec Empty (HashTable K V) :=
  match findSlot hash eq table key with
  | (some slot, _) =>
    .ok { table with
          slots := table.slots.set slot (withValue value (slotAt table.slots slot)) }
  | (none, some tombstone) =>
    .ok { slots := table.slots.set tombstone (.occupied key value)
          size := table.size + 1
          tombstones := table.tombstones - 1 }
  | (none, none) => do
      let index ← probeEmpty table.slots table.capacity (hash key % table.capacity)
      .ok { table with
            slots := table.slots.set index (.occupied key value)
            size := table.size + 1 }

/-- `hash_table_set`. `allocOk` says whether a resize finds the memory it needs. -/
def hashTableSet (allocOk : Bool) (table : HashTable K V) (key : K) (value : V) :
    Exec Empty (Bool × HashTable K V) :=
  if overloaded table then
    if allocOk then do
      let table ← hashTableResize hash table (table.capacity * 2)
      let table ← hashTableStore hash eq table key value
      .ok (true, table)
    else .ok (false, table)
  else do
    let table ← hashTableStore hash eq table key value
    .ok (true, table)

/-- `hash_table_get`: the value copied out, or false. -/
def hashTableGet (table : HashTable K V) (key : K) : Option V :=
  (findSlot hash eq table key).1.bind fun slot => (slotAt table.slots slot).toEntry.map Prod.snd

def hashTableHasKey (table : HashTable K V) (key : K) : Bool :=
  (findSlot hash eq table key).1.isSome

def hashTableRemove (table : HashTable K V) (key : K) : Bool × HashTable K V :=
  match (findSlot hash eq table key).1 with
  | none => (false, table)
  | some slot =>
    (true, { slots := table.slots.set slot .deleted
             size := table.size - 1
             tombstones := table.tombstones + 1 })

end Operations

/-- `hash_table_clear`: the statuses become empty, the capacity stays. -/
def hashTableClear (table : HashTable K V) : HashTable K V :=
  ⟨List.replicate table.capacity .empty, 0, 0⟩

def hashTableCount (table : HashTable K V) : ℕ := table.size

/-- `hash_table_keys`: the keys of the occupied slots in slot order; the empty list at
once when the size is zero. -/
def hashTableKeys (table : HashTable K V) : List K :=
  if table.size = 0 then [] else keys table.slots

/-- `hash_table_values`, in the same order. -/
def hashTableValues (table : HashTable K V) : List V :=
  if table.size = 0 then [] else (entries table.slots).map Prod.snd

/-! ### The probe loops -/

variable {hash : K → ℕ} {eq : K → K → Bool} {table : HashTable K V} {m : K → Option V}

theorem findSlotLoop_eq (slots : List (Slot K V)) (key : K) (ps : List ℕ) (t : Option ℕ) :
    findSlotLoop eq slots key ps t =
      match (ps.takeWhile fun j => !(slotAt slots j).isEmpty).find?
          fun j => (slotAt slots j).holds eq key with
      | some j => (some j, none)
      | none => (none, t.or ((ps.takeWhile fun j => !(slotAt slots j).isEmpty).find?
          fun j => (slotAt slots j).isDeleted)) := by
  induction ps generalizing t with
  | nil => simp [findSlotLoop]
  | cons p ps ih =>
    rw [findSlotLoop]
    cases hp : slotAt slots p with
    | empty => simp [hp, Slot.isEmpty]
    | deleted =>
      simp only [ih, List.takeWhile_cons, hp, Slot.isEmpty, Bool.not_false, if_true,
        List.find?_cons, Slot.holds, Slot.isDeleted, Option.or_assoc, Option.some_or]
    | occupied k v =>
      by_cases hk : eq k key = true
      · simp [hp, hk, Slot.isEmpty, Slot.holds]
      · simp [hp, hk, ih, Slot.isEmpty, Slot.holds, Slot.isDeleted]

theorem findSlot_eq (table : HashTable K V) (key : K) :
    findSlot hash eq table key =
      match lookup eq table.slots (hash key) key with
      | some j => (some j, none)
      | none => (none, (probeRun table.slots (hash key)).find?
          fun j => (slotAt table.slots j).isDeleted) := by
  rw [findSlot, probeSeq_mod, findSlotLoop_eq]
  rfl

theorem findSlot_fst (table : HashTable K V) (key : K) :
    (findSlot hash eq table key).1 = lookup eq table.slots (hash key) key := by
  rw [findSlot_eq]
  cases lookup eq table.slots (hash key) key with
  | none => rfl
  | some j => rfl

theorem probeEmpty_eq (slots : List (Slot K V)) (passes start : ℕ) :
    probeEmpty slots passes (start % slots.length) =
      match ((List.range passes).map fun i => (start + i) % slots.length).find?
          fun j => (slotAt slots j).isEmpty with
      | some j => .ok j
      | none => .error .diverges := by
  induction passes generalizing start with
  | zero => rfl
  | succ passes ih =>
    rw [probeEmpty, map_range_succ_mod, List.find?_cons, Nat.mod_add_mod, ih]
    cases (slotAt slots (start % slots.length)).isEmpty with
    | false => rfl
    | true => rfl

theorem probeEmpty_spec (slots : List (Slot K V)) (start : ℕ)
    (hroom : (entries slots).length + slots.countP Slot.isDeleted < slots.length) :
    ∃ j, probeEmpty slots slots.length (start % slots.length) = .ok j ∧
      (probeSeq slots.length start).find? (fun j => (slotAt slots j).isEmpty) = some j := by
  obtain ⟨j, hj⟩ := exists_empty_of_lt hroom start
  refine ⟨j, ?_, hj⟩
  rw [probeSeq] at hj
  rw [probeEmpty_eq, hj]

/-! ### The invariant of a table -/

/-- What holds of a table between operations. -/
structure HashTable.Wf (hash : K → ℕ) (eq : K → K → Bool) (table : HashTable K V) : Prop where
  chained : Chained hash eq table.slots
  size_eq : table.size = (entries table.slots).length
  tombstones_eq : table.tombstones = table.slots.countP Slot.isDeleted
  capacity_pos : 0 < table.capacity

theorem HashTable.Wf.size_add_tombstones_le (hw : table.Wf hash eq) :
    table.size + table.tombstones ≤ table.capacity := by
  have := length_eq_add table.slots
  rw [hw.size_eq, hw.tombstones_eq, HashTable.capacity]
  omega

/-- A table that is not overloaded has a slot to spare: were it full, both conversions
would round alike and the quotient would be one. -/
theorem HashTable.Wf.lt_capacity (hw : table.Wf hash eq) (hload : overloaded table = false) :
    table.size + table.tombstones < table.capacity := by
  refine lt_of_le_of_ne hw.size_add_tombstones_le fun hfull => ?_
  have hpos : 0 < roundDouble (table.capacity : ℕ) :=
    roundDouble_pos (by exact_mod_cast hw.capacity_pos)
  rw [overloaded, hfull, div_self hpos.ne', roundDouble_one] at hload
  norm_num at hload

theorem HashTable.Wf.replicate {capacity : ℕ} (hpos : 0 < capacity) :
    (⟨List.replicate capacity .empty, 0, 0⟩ : HashTable K V).Wf hash eq where
  chained := Chained.replicate capacity
  size_eq := by simp [entries, List.filterMap_replicate, Slot.toEntry]
  tombstones_eq := by simp [List.countP_replicate, Slot.isDeleted]
  capacity_pos := by simpa [HashTable.capacity] using hpos

/-! ### Resize -/

theorem rehash_occupied (hash : K → ℕ) (k : K) (v : V) (old new : List (Slot K V))
    (hroom : (entries new).length + new.countP Slot.isDeleted < new.length) :
    ∃ j, j < new.length ∧ slotAt new j = .empty ∧
      j ∈ probeRun (new.set j (.occupied k v)) (hash k) ∧
      rehash hash (.occupied k v :: old) new = rehash hash old (new.set j (.occupied k v)) := by
  obtain ⟨j, hprobe, hfind⟩ := probeEmpty_spec new (hash k) hroom
  have hrun := mem_probeRun_set_of_find (x := .occupied k v) rfl hfind
  refine ⟨j, by simpa using lt_of_mem_probeRun hrun,
    Slot.isEmpty_eq_true.mp (by simpa using List.find?_some hfind), hrun, ?_⟩
  rw [rehash, hprobe, ok_bind]

theorem rehash_entries (hash : K → ℕ) (old new : List (Slot K V))
    (hnew : new.countP Slot.isDeleted = 0)
    (hroom : (entries old).length + (entries new).length < new.length) :
    ∃ slots, rehash hash old new = .ok slots ∧ slots.length = new.length ∧
      slots.countP Slot.isDeleted = 0 ∧ (entries slots).Perm (entries old ++ entries new) := by
  induction old generalizing new with
  | nil => exact ⟨new, rfl, rfl, hnew, List.Perm.refl _⟩
  | cons s old ih =>
    cases s with
    | empty => exact ih new hnew hroom
    | deleted => exact ih new hnew hroom
    | occupied k v =>
      have hcons : entries (.occupied k v :: old) = (k, v) :: entries old := rfl
      rw [hcons] at hroom ⊢
      rw [List.length_cons] at hroom
      obtain ⟨j, hj, hempty, -, hstep⟩ := rehash_occupied hash k v old new (by omega)
      have hperm := entries_insert_perm hj (by rw [hempty]; rfl) k v
      obtain ⟨slots, hre, hlen, hdel, hent⟩ := ih (new.set j (.occupied k v))
        (by rw [countP_isDeleted_set hj, hempty, hnew]; rfl)
        (by rw [hperm.length_eq, List.length_set, List.length_cons]; omega)
      refine ⟨slots, hstep.trans hre, by rw [hlen, List.length_set], hdel, hent.trans ?_⟩
      exact (hperm.append_left _).trans List.perm_middle

theorem rehash_chained (hk : KeyEquiv hash eq) (old new : List (Slot K V))
    (hc : Chained hash eq new) (hnew : new.countP Slot.isDeleted = 0)
    (hdistinct : (entries old ++ entries new).Pairwise fun e e' => eq e.1 e'.1 = false)
    (hroom : (entries old).length + (entries new).length < new.length) {slots : List (Slot K V)}
    (hre : rehash hash old new = .ok slots) : Chained hash eq slots := by
  induction old generalizing new with
  | nil =>
    cases hre
    exact hc
  | cons s old ih =>
    cases s with
    | empty => exact ih new hc hnew hdistinct hroom hre
    | deleted => exact ih new hc hnew hdistinct hroom hre
    | occupied k v =>
      have hcons : entries (.occupied k v :: old) = (k, v) :: entries old := rfl
      rw [hcons] at hdistinct hroom
      rw [List.length_cons] at hroom
      obtain ⟨j, hj, hempty, hrun, hstep⟩ := rehash_occupied hash k v old new (by omega)
      rw [hstep] at hre
      have hperm := entries_insert_perm hj (by rw [hempty]; rfl) k v
      have habsent : ∀ i, (slotAt new i).holds eq k = false :=
        hk.holds_eq_false fun e he =>
          (List.pairwise_cons.mp hdistinct).1 e (List.mem_append_right _ he)
      have hmove : (entries old ++ entries (new.set j (.occupied k v))).Perm
          ((k, v) :: entries old ++ entries new) :=
        (hperm.append_left _).trans List.perm_middle
      exact ih (new.set j (.occupied k v)) (hc.insert hk habsent hrun)
        (by rw [countP_isDeleted_set hj, hempty, hnew]; rfl)
        ((hmove.pairwise_iff fun {a b} h => by rwa [hk.eq_comm]).mpr hdistinct)
        (by rw [hperm.length_eq, List.length_set, List.length_cons]; omega) hre

theorem hashTableResize_entries (hash : K → ℕ)
    (hsize : table.size = (entries table.slots).length)
    {newCapacity : ℕ} (hroom : table.size < newCapacity) :
    ∃ table', hashTableResize hash table newCapacity = .ok table' ∧
      table'.capacity = newCapacity ∧ table'.size = table.size ∧ table'.tombstones = 0 ∧
      table'.slots.countP Slot.isDeleted = 0 ∧
      (entries table'.slots).Perm (entries table.slots) := by
  have hnil : entries (List.replicate newCapacity (.empty : Slot K V)) = [] := by
    simp [entries, List.filterMap_replicate, Slot.toEntry]
  obtain ⟨slots, hre, hlen, hdel, hent⟩ :=
    rehash_entries hash table.slots (List.replicate newCapacity .empty)
      (by simp [List.countP_replicate, Slot.isDeleted])
      (by rw [hnil, ← hsize]; simpa using hroom)
  rw [hnil, List.append_nil] at hent
  rw [List.length_replicate] at hlen
  exact ⟨⟨slots, table.size, 0⟩, by rw [hashTableResize, hre]; rfl, hlen, rfl, rfl, hdel, hent⟩

theorem hashTableResize_wf (hk : KeyEquiv hash eq) (hw : table.Wf hash eq)
    {newCapacity : ℕ} (hroom : table.size < newCapacity) {table' : HashTable K V}
    (hresize : hashTableResize hash table newCapacity = .ok table') : table'.Wf hash eq := by
  have hfresh : (⟨List.replicate newCapacity .empty, 0, 0⟩ : HashTable K V).Wf hash eq :=
    HashTable.Wf.replicate (Nat.zero_lt_of_lt hroom)
  have hnil : entries (List.replicate newCapacity (.empty : Slot K V)) = [] :=
    List.eq_nil_of_length_eq_zero hfresh.size_eq.symm
  obtain ⟨grown, hgrown, hcap, hsize, htomb, hdel, hent⟩ :=
    hashTableResize_entries hash hw.size_eq hroom
  cases hgrown.symm.trans hresize
  rw [hashTableResize] at hresize
  obtain ⟨slots, hre, heq⟩ := bind_eq_ok.mp hresize
  cases heq
  refine ⟨?_, by rw [hsize, hw.size_eq, hent.length_eq], by rw [htomb, hdel], by omega⟩
  exact rehash_chained hk table.slots (List.replicate newCapacity .empty) hfresh.chained
    hfresh.tombstones_eq.symm
    (by rw [hnil, List.append_nil]; exact hw.chained.distinct)
    (by rw [hnil, ← hw.size_eq]; simpa using hroom) hre

theorem HashTable.Wf.write_found (hk : KeyEquiv hash eq) (hw : table.Wf hash eq)
    (hd : Denotes eq table.slots m) {key k : K} {v : V} {j size tombstones : ℕ}
    (hjk : slotAt table.slots j = .occupied k v) (hek : eq k key = true)
    {x : Slot K V} (hx : x.isEmpty = false) (hxk : ∀ k' v', x = .occupied k' v' → k' = k)
    (hsize : size + 1 = table.size + x.toEntry.toList.length)
    (htomb : tombstones = table.tombstones + if x.isDeleted then 1 else 0) :
    (⟨table.slots.set j x, size, tombstones⟩ : HashTable K V).Wf hash eq ∧
      Denotes eq (table.slots.set j x)
        fun q => if eq key q then x.toEntry.map Prod.snd else m q := by
  have hj := lt_of_mem_probeRun (hw.chained.onRun j k v hjk)
  obtain ⟨hch, hden, hlen⟩ := hw.chained.write_found hk hd hjk hek hx hxk
  refine ⟨⟨hch, ?_, ?_, ?_⟩, hden⟩
  · change size = (entries (table.slots.set j x)).length
    have := hw.size_eq
    omega
  · rw [htomb, hw.tombstones_eq, countP_isDeleted_set hj, hjk]
    rfl
  · simpa [HashTable.capacity] using hw.capacity_pos

theorem HashTable.Wf.write_free (hk : KeyEquiv hash eq) (hw : table.Wf hash eq)
    (hd : Denotes eq table.slots m) {key : K} (value : V) {j : ℕ}
    (habsent : ∀ i, (slotAt table.slots i).holds eq key = false)
    (hfree : (slotAt table.slots j).toEntry = none)
    (hrun : j ∈ probeRun (table.slots.set j (.occupied key value)) (hash key)) :
    (⟨table.slots.set j (.occupied key value), table.size + 1,
        table.tombstones - if (slotAt table.slots j).isDeleted then 1 else 0⟩ :
          HashTable K V).Wf hash eq ∧
      Denotes eq (table.slots.set j (.occupied key value))
        fun q => if eq key q then some value else m q := by
  have hj : j < table.slots.length := by simpa using lt_of_mem_probeRun hrun
  obtain ⟨hch, hden, hlen⟩ := hw.chained.write_free hk hd value habsent hfree hrun
  refine ⟨⟨hch, by rw [hw.size_eq, hlen], ?_, ?_⟩, hden⟩
  · rw [hw.tombstones_eq, countP_isDeleted_set hj]
    rfl
  · simpa [HashTable.capacity] using hw.capacity_pos

/-! ### The operations on the map -/

theorem hashTableStore_spec (hk : KeyEquiv hash eq) (hw : table.Wf hash eq)
    (hd : Denotes eq table.slots m) (hroom : table.size + table.tombstones < table.capacity)
    (key : K) (value : V) :
    ∃ table', hashTableStore hash eq table key value = .ok table' ∧ table'.Wf hash eq ∧
      Denotes eq table'.slots fun q => if eq key q then some value else m q := by
  rw [hashTableStore, findSlot_eq]
  cases hl : lookup eq table.slots (hash key) key with
  | some j =>
    obtain ⟨k, v, hjk, hek⟩ := Slot.holds_eq_true.mp ((hw.chained.lookup_eq_some_iff hk).mp hl)
    simp only [hjk, withValue]
    refine ⟨_, rfl, HashTable.Wf.write_found hk hw hd hjk hek rfl ?_ rfl rfl⟩
    rintro _ _ ⟨rfl, rfl⟩
    rfl
  | none =>
    have habsent := (hw.chained.lookup_eq_none_iff hk).mp hl
    cases ht : (probeRun table.slots (hash key)).find?
        fun j => (slotAt table.slots j).isDeleted with
    | some j =>
      -- the first tombstone of the run is reused
      have hdel : slotAt table.slots j = .deleted :=
        Slot.isDeleted_eq_true.mp (by simpa using List.find?_some ht)
      have hmem := List.mem_of_find?_eq_some ht
      have hwrite := HashTable.Wf.write_free hk hw hd value habsent
        (by rw [hdel]; rfl) (mem_probeRun_set (lt_of_mem_probeRun hmem) rfl hmem)
      rw [hdel] at hwrite
      exact ⟨_, rfl, hwrite⟩
    | none =>
      -- the insertion probe runs to the first empty slot
      obtain ⟨j, hprobe, hfind⟩ := probeEmpty_spec table.slots (hash key)
        (by rwa [hw.size_eq, hw.tombstones_eq, HashTable.capacity] at hroom)
      have hempty : slotAt table.slots j = .empty :=
        Slot.isEmpty_eq_true.mp (by simpa using List.find?_some hfind)
      have hwrite := HashTable.Wf.write_free hk hw hd value habsent
        (by rw [hempty]; rfl) (mem_probeRun_set_of_find rfl hfind)
      rw [hempty] at hwrite
      refine ⟨_, ?_, hwrite⟩
      rw [HashTable.capacity, hprobe]
      rfl

theorem hashTableSet_spec (hk : KeyEquiv hash eq) (hw : table.Wf hash eq)
    (hd : Denotes eq table.slots m) (allocOk : Bool) (key : K) (value : V) :
    (∃ table', hashTableSet hash eq allocOk table key value = .ok (true, table') ∧
      table'.Wf hash eq ∧
      Denotes eq table'.slots fun q => if eq key q then some value else m q) ∨
    (allocOk = false ∧ hashTableSet hash eq allocOk table key value = .ok (false, table)) := by
  rw [hashTableSet]
  cases hload : overloaded table with
  | false =>
    obtain ⟨table', hstore, hw', hd'⟩ :=
      hashTableStore_spec hk hw hd (hw.lt_capacity hload) key value
    refine Or.inl ⟨table', ?_, hw', hd'⟩
    rw [hstore]
    rfl
  | true =>
    cases allocOk with
    | false => exact Or.inr ⟨rfl, rfl⟩
    | true =>
      have hle := hw.size_add_tombstones_le
      have hpos := hw.capacity_pos
      have hroom : table.size < table.capacity * 2 := by omega
      obtain ⟨grown, hresize, hcap, hsize, htomb, -, hperm⟩ :=
        hashTableResize_entries hash hw.size_eq hroom
      have hwg := hashTableResize_wf hk hw hroom hresize
      obtain ⟨table', hstore, hw', hd'⟩ :=
        hashTableStore_spec hk hwg (hd.of_perm hperm) (by omega) key value
      refine Or.inl ⟨table', ?_, hw', hd'⟩
      simp only [if_true, hresize, ok_bind, hstore]

theorem hashTableRemove_spec (hk : KeyEquiv hash eq) (hw : table.Wf hash eq)
    (hd : Denotes eq table.slots m) (key : K) :
    (hashTableRemove hash eq table key).1 = (m key).isSome ∧
      (hashTableRemove hash eq table key).2.Wf hash eq ∧
      Denotes eq (hashTableRemove hash eq table key).2.slots
        fun q => if eq key q then none else m q := by
  have hm := hd.eq_of_lookup hw.chained hk key
  rw [hashTableRemove, findSlot_fst]
  cases hl : lookup eq table.slots (hash key) key with
  | none =>
    rw [hl, Option.bind_none] at hm
    exact ⟨by simp [hm], hw,
      hd.erase_of_absent hk ((hw.chained.lookup_eq_none_iff hk).mp hl)⟩
  | some j =>
    obtain ⟨k, v, hjk, hek⟩ := Slot.holds_eq_true.mp ((hw.chained.lookup_eq_some_iff hk).mp hl)
    have hpos : 0 < table.size := by
      rw [hw.size_eq]
      exact List.length_pos_of_mem (mem_entries.mpr ⟨j, hjk⟩)
    refine ⟨by simp [hm, hl, hjk, Slot.toEntry], ?_⟩
    refine HashTable.Wf.write_found hk hw hd hjk hek rfl (fun _ _ h => by cases h) ?_ rfl
    simp only [Slot.toEntry, Option.toList_none, List.length_nil]
    omega

theorem hashTableGet_eq (hk : KeyEquiv hash eq) (hw : table.Wf hash eq)
    (hd : Denotes eq table.slots m) (key : K) : hashTableGet hash eq table key = m key := by
  rw [hashTableGet, findSlot_fst, hd.eq_of_lookup hw.chained hk key]

theorem hashTableHasKey_eq (hk : KeyEquiv hash eq) (hw : table.Wf hash eq)
    (hd : Denotes eq table.slots m) (key : K) :
    hashTableHasKey hash eq table key = (m key).isSome := by
  rw [hashTableHasKey, findSlot_fst, hd.eq_of_lookup hw.chained hk key]
  cases hl : lookup eq table.slots (hash key) key with
  | none => rfl
  | some j =>
    obtain ⟨k, v, hjk, -⟩ := Slot.holds_eq_true.mp ((hw.chained.lookup_eq_some_iff hk).mp hl)
    simp [hjk, Slot.toEntry]

theorem hashTableKeys_eq (hw : table.Wf hash eq) : hashTableKeys table = keys table.slots := by
  rw [hashTableKeys]
  split
  next h =>
    rw [hw.size_eq, List.length_eq_zero_iff] at h
    rw [keys, h]
    rfl
  next => rfl

/-! ### Runs -/

/-- The operations that change a table. A set says whether a resize would find the memory
it needs. -/
inductive Op (K V : Type) : Type
  | set (key : K) (value : V) (allocOk : Bool)
  | remove (key : K)
  | clear
  deriving DecidableEq, Repr

/-- One operation, with what it returns; `hash_table_clear` returns nothing. -/
def Op.run (hash : K → ℕ) (eq : K → K → Bool) (table : HashTable K V) :
    Op K V → Exec Empty (Bool × HashTable K V)
  | .set key value allocOk => hashTableSet hash eq allocOk table key value
  | .remove key => .ok (hashTableRemove hash eq table key)
  | .clear => .ok (true, hashTableClear table)

/-- A sequence of operations. The history grows at the head: each operation with what it
returned. -/
def runOps (hash : K → ℕ) (eq : K → K → Bool) :
    List (Op K V) → List (Op K V × Bool) → HashTable K V →
      Exec Empty (List (Op K V × Bool) × HashTable K V)
  | [], history, table => .ok (history, table)
  | op :: ops, history, table => do
      let (returned, table) ← op.run hash eq table
      runOps hash eq ops ((op, returned) :: history) table

/-- The value of the last successful set of a key equal to `key` that no remove of an equal
key and no clear follows. -/
def lastValue (eq : K → K → Bool) (key : K) : List (Op K V × Bool) → Option V
  | [] => none
  | (.set k value _, returned) :: history =>
    if returned && eq k key then some value else lastValue eq key history
  | (.remove k, _) :: history => if eq k key then none else lastValue eq key history
  | (.clear, _) :: _ => none

theorem Op.run_spec (hk : KeyEquiv hash eq) (hw : table.Wf hash eq)
    {history : List (Op K V × Bool)}
    (hd : Denotes eq table.slots fun q => lastValue eq q history) (op : Op K V) :
    ∃ returned table', op.run hash eq table = .ok (returned, table') ∧ table'.Wf hash eq ∧
      Denotes eq table'.slots (fun q => lastValue eq q ((op, returned) :: history)) ∧
      ∀ key value, (op, returned) ≠ (.set key value true, false) := by
  cases op with
  | set key value allocOk =>
    rcases hashTableSet_spec hk hw hd allocOk key value with
      ⟨table', hrun, hw', hd'⟩ | ⟨rfl, hrun⟩
    · exact ⟨true, table', hrun, hw', by simpa [lastValue] using hd', by simp⟩
    · exact ⟨false, table, hrun, hw, by simpa [lastValue] using hd, by simp⟩
  | remove key =>
    obtain ⟨-, hw', hd'⟩ := hashTableRemove_spec hk hw hd key
    exact ⟨_, _, rfl, hw', hd', by simp⟩
  | clear =>
    exact ⟨true, hashTableClear table, rfl, HashTable.Wf.replicate hw.capacity_pos,
      Denotes.replicate _, by simp⟩

theorem runOps_spec (hk : KeyEquiv hash eq) (ops : List (Op K V))
    (history : List (Op K V × Bool)) (table : HashTable K V) (hw : table.Wf hash eq)
    (hd : Denotes eq table.slots fun q => lastValue eq q history)
    (hset : ∀ key value, (.set key value true, false) ∉ history) :
    ∃ history' table', runOps hash eq ops history table = .ok (history', table') ∧
      history'.map Prod.fst = ops.reverse ++ history.map Prod.fst ∧
      table'.Wf hash eq ∧ Denotes eq table'.slots (fun q => lastValue eq q history') ∧
      ∀ key value, (.set key value true, false) ∉ history' := by
  induction ops generalizing history table with
  | nil => exact ⟨history, table, rfl, rfl, hw, hd, hset⟩
  | cons op ops ih =>
    obtain ⟨returned, table₁, hrun, hw₁, hd₁, hne⟩ := Op.run_spec hk hw hd op
    have hset₁ : ∀ key value, (.set key value true, false) ∉ (op, returned) :: history := by
      intro key value hmem
      rcases List.mem_cons.mp hmem with h | h
      · exact hne key value h.symm
      · exact hset key value h
    obtain ⟨history', table', hruns, hops, hw', hd', hset'⟩ :=
      ih ((op, returned) :: history) table₁ hw₁ hd₁ hset₁
    refine ⟨history', table', ?_, ?_, hw', hd', hset'⟩
    · rw [runOps, hrun]
      exact hruns
    · rw [hops]
      simp

/-- After any sequence of sets, removals and clears of a new table, whatever the resizes
and tombstones on the way: every operation returned, a set with memory to grow succeeded,
lookup gives the last value set and not removed or cleared since, the size is the number of
distinct live keys, and the key list has exactly one key for each of them. -/
theorem hashTable_refines_map (hk : KeyEquiv hash eq) {initialCapacity : ℕ}
    (hnew : arenaAllocateHashTable initialCapacity = some table) (ops : List (Op K V)) :
    ∃ history table', runOps hash eq ops [] table = .ok (history, table') ∧
      history.map Prod.fst = ops.reverse ∧
      (∀ key value, (.set key value true, false) ∉ history) ∧
      (∀ key, hashTableGet hash eq table' key = lastValue eq key history) ∧
      (∀ key, hashTableHasKey hash eq table' key = (lastValue eq key history).isSome) ∧
      hashTableCount table' =
        {c : Quotient hk.setoid |
          ∃ key, c = Quotient.mk _ key ∧ (lastValue eq key history).isSome = true}.ncard ∧
      (hashTableKeys table').Pairwise (fun k k' => eq k k' = false) ∧
      ∀ key, (lastValue eq key history).isSome = true ↔
        ∃ k ∈ hashTableKeys table', eq k key = true := by
  rw [arenaAllocateHashTable] at hnew
  split at hnew
  next => cases hnew
  next hpos =>
    cases hnew
    obtain ⟨history, table', hrun, hops, hw, hd, hset⟩ :=
      runOps_spec hk ops [] _ (HashTable.Wf.replicate (Nat.pos_of_ne_zero hpos))
        (Denotes.replicate _) (by simp)
    refine ⟨history, table', hrun, by simpa using hops, hset, hashTableGet_eq hk hw hd,
      hashTableHasKey_eq hk hw hd, ?_, ?_, ?_⟩
    · rw [hashTableCount, hw.size_eq, hd.length_eq_ncard hw.chained hk]
    · rw [hashTableKeys_eq hw]
      exact hw.chained.pairwise_keys
    · rw [hashTableKeys_eq hw]
      exact hd.isSome_iff

/-- Decimal numbers equal up to their last digit, hashed to its parity. -/
theorem hashTable_refines_map_last_digit :
    ∃ history table', runOps (fun k : ℕ => k % 10 % 2) (fun a b => a % 10 == b % 10)
        [.set 3 7 true, .set 15 8 true, .remove 23, .set 13 9 true] []
        ⟨List.replicate 16 .empty, 0, 0⟩ = .ok (history, table') ∧
      ∀ key, hashTableGet (fun k : ℕ => k % 10 % 2) (fun a b => a % 10 == b % 10) table' key =
        lastValue (V := ℕ) (fun a b => a % 10 == b % 10) key history := by
  have hk : KeyEquiv (fun k : ℕ => k % 10 % 2) (fun a b => a % 10 == b % 10) := by
    refine ⟨⟨?_, ?_, ?_⟩, ?_⟩
    · intro a
      simp
    · intro a b h
      simpa using (by simpa using h : a % 10 = b % 10).symm
    · intro a b c h h'
      simp only [beq_iff_eq] at h h' ⊢
      exact h.trans h'
    · intro a b h
      simp only [beq_iff_eq] at h
      rw [h]
  obtain ⟨history, table', hrun, -, -, hget, -⟩ :=
    hashTable_refines_map hk (rfl : arenaAllocateHashTable 16 = some _)
      [.set 3 7 true, .set 15 8 true, .remove 23, .set 13 9 true]
  exact ⟨history, table', hrun, hget⟩

/-- **Keys and values correspond.** After any operations on a new table, `hash_table_values` lists
what `hash_table_get` returns for the keys of `hash_table_keys`, in their order. -/
theorem hashTableValues_eq_get (hk : KeyEquiv hash eq) {initialCapacity : ℕ}
    (hnew : arenaAllocateHashTable initialCapacity = some table) (ops : List (Op K V))
    {history : List (Op K V × Bool)} {table' : HashTable K V}
    (hrun : runOps hash eq ops [] table = .ok (history, table')) :
    (hashTableValues table').map some =
      (hashTableKeys table').map (hashTableGet hash eq table') := by
  rw [arenaAllocateHashTable] at hnew
  split_ifs at hnew with hpos
  cases hnew
  obtain ⟨history', final, hrun', -, hw, hd, -⟩ :=
    runOps_spec hk ops [] _ (HashTable.Wf.replicate (Nat.pos_of_ne_zero hpos))
      (Denotes.replicate _) (by simp)
  cases hrun.symm.trans hrun'
  have hvalues : hashTableValues table' = (entries table'.slots).map Prod.snd := by
    rw [hashTableValues]
    split_ifs with h
    · rw [hw.size_eq, List.length_eq_zero_iff] at h
      rw [h]
      rfl
    · rfl
  rw [hvalues, hashTableKeys_eq hw, keys, List.map_map, List.map_map]
  refine List.map_congr_left fun e he => ?_
  obtain ⟨j, hj⟩ := mem_entries.mp he
  exact ((hashTableGet_eq hk hw hd e.1).trans
    ((hd e.1 e.2).mpr ⟨j, e.1, hj, hk.equiv.refl e.1⟩)).symm

/-- Two keys with one hash; the first is removed and set again. -/
theorem hashTableValues_eq_get_two :
    ∃ history table', runOps (fun _ : ℕ => 5) (· == ·)
        [.set 3 (7 : ℕ) true, .set 4 8 true, .remove 3, .set 3 9 true] []
        ⟨List.replicate 16 .empty, 0, 0⟩ = .ok (history, table') ∧
      (hashTableValues table').map some =
        (hashTableKeys table').map (hashTableGet (fun _ => 5) (· == ·) table') := by
  have hk : KeyEquiv (fun _ : ℕ => 5) (· == ·) :=
    ⟨⟨fun a => beq_self_eq_true a, fun h => beq_iff_eq.mpr (beq_iff_eq.mp h).symm,
      fun h h' => beq_iff_eq.mpr ((beq_iff_eq.mp h).trans (beq_iff_eq.mp h'))⟩, fun _ _ _ => rfl⟩
  obtain ⟨history, table', hrun, -⟩ :=
    runOps_spec hk [.set 3 (7 : ℕ) true, .set 4 8 true, .remove 3, .set 3 9 true] [] _
      (HashTable.Wf.replicate (Nat.succ_pos 15)) (Denotes.replicate _) (by simp)
  exact ⟨history, table', hrun,
    hashTableValues_eq_get hk (rfl : arenaAllocateHashTable 16 = some _) _ hrun⟩

end Eshkol
