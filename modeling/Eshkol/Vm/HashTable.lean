import Eshkol.Machine.Exec
import Eshkol.Probe.OpenAddressing

/-!
# VM Hash Table

`lib/backend/vm_hashtable.c`: open addressing with linear probing on a capacity that is a
power of two. A slot stores the hash of its key beside key and value; the stored hashes 0
and 1 mark empty slots and tombstones, and every key hash is moved out of their way. Hash
and equality are the table's callbacks. Counters are of type `int`, so the load test
`count * 4 >= capacity * 3` is checked arithmetic. Allocation succeeds.
-/

namespace Eshkol.Vm

open Machine Probe

variable {K V : Type}

/-- `VmHashTable`: the arrays as one list of slots, each key with its stored hash. -/
structure VmHashTable (K V : Type) : Type where
  slots : List (Slot (ℕ × K) V)
  count : ℕ
  deriving DecidableEq, Repr

/-- `ht->capacity`. -/
def VmHashTable.capacity (ht : VmHashTable K V) : ℕ := ht.slots.length

def vmHtAlloc (capacity : ℕ) : VmHashTable K V := ⟨List.replicate capacity .empty, 0⟩

/-- `vm_ht_make`, with `HT_INITIAL_CAP` slots. -/
def vmHtMake : VmHashTable K V := vmHtAlloc 16

/-- `vm_ht_hash_value`: the hash of the table's callback, out of the way of
`HT_EMPTY_HASH` and `HT_TOMBSTONE`. -/
def vmHtHashValue (hashFn : K → ℕ) (val : K) : ℕ :=
  if hashFn val ≤ 1 then hashFn val + 2 else hashFn val

/-- `values[idx] = value`. -/
def withValue (value : V) : Slot (ℕ × K) V → Slot (ℕ × K) V
  | .occupied k _ => .occupied k value
  | s => s

section Operations

variable (hashFn : K → ℕ) (eqFn : K → K → Bool)

/-- The loop of `vm_ht_probe`, with the passes that are left. -/
def vmHtProbeLoop (slots : List (Slot (ℕ × K) V)) (key : K) (h : ℕ) : ℕ → ℕ → Option ℕ → ℕ × Bool
  | 0, _, firstTombstone => (firstTombstone.getD 0, false)
  | passes + 1, idx, firstTombstone =>
    match slotAt slots idx with
    | .empty => (firstTombstone.getD idx, false)
    | .deleted =>
      vmHtProbeLoop slots key h passes ((idx + 1) &&& (slots.length - 1))
        (firstTombstone.or (some idx))
    | .occupied (sh, k) _ =>
      if sh == h && eqFn k key then (idx, true)
      else vmHtProbeLoop slots key h passes ((idx + 1) &&& (slots.length - 1)) firstTombstone

/-- `vm_ht_probe`: an index, and whether the key is there. -/
def vmHtProbe (ht : VmHashTable K V) (key : K) (h : ℕ) : ℕ × Bool :=
  vmHtProbeLoop eqFn ht.slots key h ht.capacity (h &&& (ht.capacity - 1)) none

/-- The loop of `vm_ht_rehash` over the remaining old slots. -/
def vmHtRehashLoop : List (Slot (ℕ × K) V) → VmHashTable K V → VmHashTable K V
  | [], ht => ht
  | .occupied (h, k) v :: old, ht =>
    vmHtRehashLoop old
      ⟨ht.slots.set (vmHtProbe eqFn ht k h).1 (.occupied (h, k) v), ht.count + 1⟩
  | _ :: old, ht => vmHtRehashLoop old ht

def vmHtRehash (ht : VmHashTable K V) : Exec Empty (VmHashTable K V) := do
  let newCap ← signed 32 (ht.capacity * 2)
  .ok (vmHtRehashLoop eqFn ht.slots (vmHtAlloc newCap.toNat))

/-- The load check of `vm_ht_set`. -/
def vmHtGrow (ht : VmHashTable K V) : Exec Empty (VmHashTable K V) := do
  let load ← signed 32 (ht.count * 4)
  let limit ← signed 32 (ht.capacity * 3)
  if limit ≤ load then vmHtRehash eqFn ht else .ok ht

/-- `vm_ht_set` after the load check. -/
def vmHtStore (ht : VmHashTable K V) (key : K) (value : V) : VmHashTable K V :=
  let h := vmHtHashValue hashFn key
  match vmHtProbe eqFn ht key h with
  | (idx, true) => { ht with slots := ht.slots.set idx (withValue value (slotAt ht.slots idx)) }
  | (idx, false) => ⟨ht.slots.set idx (.occupied (h, key) value), ht.count + 1⟩

def vmHtSet (ht : VmHashTable K V) (key : K) (value : V) : Exec Empty (VmHashTable K V) := do
  let ht ← vmHtGrow eqFn ht
  .ok (vmHtStore hashFn eqFn ht key value)

def vmHtRef (ht : VmHashTable K V) (key : K) (dflt : V) : V :=
  match vmHtProbe eqFn ht key (vmHtHashValue hashFn key) with
  | (idx, true) => ((slotAt ht.slots idx).toEntry.map Prod.snd).getD dflt
  | (_, false) => dflt

def vmHtHasKey (ht : VmHashTable K V) (key : K) : Bool :=
  (vmHtProbe eqFn ht key (vmHtHashValue hashFn key)).2

def vmHtRemove (ht : VmHashTable K V) (key : K) : VmHashTable K V :=
  match vmHtProbe eqFn ht key (vmHtHashValue hashFn key) with
  | (idx, true) => ⟨ht.slots.set idx .deleted, ht.count - 1⟩
  | (_, false) => ht

end Operations

/-- `vm_ht_keys`: the live keys in slot order, no more than `count`. -/
def vmHtKeys (ht : VmHashTable K V) : List K :=
  if ht.count = 0 then [] else ((entries ht.slots).map fun e => e.1.2).take ht.count

/-- `vm_ht_values`, in the same order. -/
def vmHtValues (ht : VmHashTable K V) : List V :=
  if ht.count = 0 then [] else ((entries ht.slots).map Prod.snd).take ht.count

def vmHtCount (ht : VmHashTable K V) : ℕ := ht.count

def vmHtClear (ht : VmHashTable K V) : VmHashTable K V := vmHtAlloc ht.capacity

/-! ### Slots without their stored hashes -/

/-- A slot without the stored hash. -/
def plainSlot : Slot (ℕ × K) V → Slot K V
  | .empty => .empty
  | .occupied (_, k) v => .occupied k v
  | .deleted => .deleted

/-- The table without the stored hashes. -/
def VmHashTable.plain (ht : VmHashTable K V) : List (Slot K V) := ht.slots.map plainSlot

theorem slotAt_map_plain (slots : List (Slot (ℕ × K) V)) (j : ℕ) :
    slotAt (slots.map plainSlot) j = plainSlot (slotAt slots j) := by
  simp only [slotAt, List.getD_eq_getElem?_getD, List.getElem?_map]
  cases slots[j]? with
  | none => rfl
  | some s => rfl

theorem entries_map_plain (slots : List (Slot (ℕ × K) V)) :
    entries (slots.map plainSlot) = (entries slots).map fun e => (e.1.2, e.2) := by
  rw [entries, entries, List.filterMap_map, List.map_filterMap]
  congr 1
  funext s
  cases s with
  | empty => rfl
  | occupied k v => rfl
  | deleted => rfl

/-- Every stored hash is the hash of its key. -/
def HashesStored (hash : K → ℕ) (slots : List (Slot (ℕ × K) V)) : Prop :=
  ∀ j h k v, slotAt slots j = .occupied (h, k) v → h = hash k

theorem HashesStored.set {hash : K → ℕ} {slots : List (Slot (ℕ × K) V)}
    (hs : HashesStored hash slots) {j : ℕ} (hj : j < slots.length) {x : Slot (ℕ × K) V}
    (hx : ∀ h k v, x = .occupied (h, k) v → h = hash k) : HashesStored hash (slots.set j x) := by
  intro i h k v hi
  rw [slotAt_set hj] at hi
  split at hi
  next => exact hx h k v hi
  next => exact hs i h k v hi

variable {hash : K → ℕ} {eq : K → K → Bool}

/-- The loop finds what a probe sequence finds. -/
theorem vmHtProbeLoop_eq {slots : List (Slot (ℕ × K) V)} {n : ℕ} (hcap : slots.length = 2 ^ n)
    (hs : HashesStored hash slots) (hk : KeyEquiv hash eq) (key : K) (passes start : ℕ)
    (t : Option ℕ) :
    vmHtProbeLoop eq slots key (hash key) passes (start % slots.length) t =
      let ps := (List.range passes).map fun i => (start + i) % slots.length
      let run := ps.takeWhile fun j => !(slotAt (slots.map plainSlot) j).isEmpty
      match run.find? fun j => (slotAt (slots.map plainSlot) j).holds eq key with
      | some j => (j, true)
      | none =>
        (((t.or (run.find? fun j => (slotAt (slots.map plainSlot) j).isDeleted)).or
          (ps.find? fun j => (slotAt (slots.map plainSlot) j).isEmpty)).getD 0, false) := by
  have hmask : ∀ i, (i % slots.length + 1) &&& (slots.length - 1) = (i + 1) % slots.length := by
    intro i
    rw [hcap, Nat.and_two_pow_sub_one_eq_mod, Nat.mod_add_mod]
  induction passes generalizing start t with
  | zero => simp [vmHtProbeLoop]
  | succ passes ih =>
    simp only [vmHtProbeLoop, map_range_succ_mod, List.takeWhile_cons, List.find?_cons,
      slotAt_map_plain, hmask]
    cases hp : slotAt slots (start % slots.length) with
    | empty =>
      have he : (plainSlot (.empty : Slot (ℕ × K) V)).isEmpty = true := rfl
      cases t with
      | none => simp [he]
      | some j => simp [he]
    | deleted =>
      have he : (plainSlot (.deleted : Slot (ℕ × K) V)).isEmpty = false := rfl
      have hh : (plainSlot (.deleted : Slot (ℕ × K) V)).holds eq key = false := rfl
      have hd : (plainSlot (.deleted : Slot (ℕ × K) V)).isDeleted = true := rfl
      rw [ih]
      simp only [slotAt_map_plain, hp, he, hh, hd, Bool.not_false, if_true, List.find?_cons,
        Option.or_assoc, Option.some_or]
    | occupied stored v =>
      obtain ⟨sh, k⟩ := stored
      have he : (plainSlot (.occupied (sh, k) v)).isEmpty = false := rfl
      have hh : (plainSlot (.occupied (sh, k) v)).holds eq key = eq k key := rfl
      have hd : (plainSlot (.occupied (sh, k) v)).isDeleted = false := rfl
      cases hek : eq k key with
      | true =>
        -- the stored hash of an equal key passes the test on hashes
        obtain rfl : sh = hash key := (hs _ sh k v hp).trans (hk.hash_eq k key hek)
        simp [hp, he, hh, hek]
      | false =>
        simp only [hek, Bool.and_false, Bool.false_eq_true, if_false]
        rw [ih]
        simp only [slotAt_map_plain, hp, he, hh, hd, hek, Bool.not_false, if_true, List.find?_cons]

theorem vmHtProbe_eq {ht : VmHashTable K V} {n : ℕ} (hcap : ht.capacity = 2 ^ n)
    (hs : HashesStored hash ht.slots) (hk : KeyEquiv hash eq) (key : K) :
    vmHtProbe eq ht key (hash key) =
      match lookup eq ht.plain (hash key) key with
      | some j => (j, true)
      | none =>
        ((((probeRun ht.plain (hash key)).find? fun j => (slotAt ht.plain j).isDeleted).or
          ((probeSeq ht.plain.length (hash key)).find?
            fun j => (slotAt ht.plain j).isEmpty)).getD 0, false) := by
  have hmask : hash key &&& (ht.capacity - 1) = hash key % ht.slots.length := by
    rw [hcap, Nat.and_two_pow_sub_one_eq_mod, ← hcap, VmHashTable.capacity]
  rw [vmHtProbe, hmask, vmHtProbeLoop_eq hcap hs hk, lookup, probeRun, VmHashTable.plain,
    List.length_map]
  rfl

/-! ### The invariant of a table -/

/-- What holds of a table between operations, and while it is being filled. -/
structure VmHashTable.Wf (hash : K → ℕ) (eq : K → K → Bool) (ht : VmHashTable K V) : Prop where
  stored : HashesStored hash ht.slots
  chained : Chained hash eq ht.plain
  count_eq : ht.count = (entries ht.plain).length
  capacity_eq : ∃ n, ht.capacity = 2 ^ n

theorem VmHashTable.length_plain (ht : VmHashTable K V) : ht.plain.length = ht.capacity :=
  List.length_map _

theorem plain_set (slots : List (Slot (ℕ × K) V)) (count j : ℕ) (x : Slot (ℕ × K) V) :
    (⟨slots.set j x, count⟩ : VmHashTable K V).plain =
      (slots.map plainSlot).set j (plainSlot x) := by
  rw [VmHashTable.plain, List.map_set]

theorem vmHtAlloc_wf {n : ℕ} : (vmHtAlloc (2 ^ n) : VmHashTable K V).Wf hash eq := by
  have hplain : (vmHtAlloc (2 ^ n) : VmHashTable K V).plain = List.replicate (2 ^ n) .empty := by
    simp [vmHtAlloc, VmHashTable.plain, plainSlot]
  refine ⟨?_, ?_, ?_, n, by simp [vmHtAlloc, VmHashTable.capacity]⟩
  · intro j h k v hj
    rw [vmHtAlloc, slotAt, List.getD_eq_getElem?_getD, List.getElem?_replicate] at hj
    split at hj <;> cases hj
  · rw [hplain]
    exact Chained.replicate _
  · rw [hplain]
    simp [vmHtAlloc, entries, List.filterMap_replicate, Slot.toEntry]

variable {ht : VmHashTable K V} {m : K → Option V}

theorem VmHashTable.Wf.insert (hk : KeyEquiv hash eq) (hw : ht.Wf hash eq)
    (hroom : ht.count < ht.capacity) {key : K} (value : V)
    (habsent : ∀ i, (slotAt ht.plain i).holds eq key = false) :
    ∃ j, vmHtProbe eq ht key (hash key) = (j, false) ∧
      (⟨ht.slots.set j (.occupied (hash key, key) value), ht.count + 1⟩ :
        VmHashTable K V).Wf hash eq ∧
      (entries (⟨ht.slots.set j (.occupied (hash key, key) value), ht.count + 1⟩ :
        VmHashTable K V).plain).Perm ((key, value) :: entries ht.plain) ∧
      ∀ m, Denotes eq ht.plain m →
        Denotes eq (⟨ht.slots.set j (.occupied (hash key, key) value), ht.count + 1⟩ :
          VmHashTable K V).plain (fun q => if eq key q then some value else m q) := by
  obtain ⟨n, hcap⟩ := hw.capacity_eq
  obtain ⟨j, hj, hfree, hrun⟩ := exists_free_of_lt
    (by rwa [ht.length_plain, ← hw.count_eq] : (entries ht.plain).length < ht.plain.length)
    (hash key)
  have hjrun := hrun (.occupied key value) rfl
  have hlt : j < ht.plain.length := by simpa using lt_of_mem_probeRun hjrun
  have hperm := entries_insert_perm hlt hfree key value
  simp only [plain_set]
  refine ⟨j, ?_, ⟨?_, ?_, ?_, n, ?_⟩, hperm, ?_⟩
  · rw [vmHtProbe_eq hcap hw.stored hk, (hw.chained.lookup_eq_none_iff hk).mpr habsent, hj]
    rfl
  · refine hw.stored.set (by rwa [ht.length_plain] at hlt) ?_
    rintro _ _ _ ⟨rfl, rfl⟩
    rfl
  · rw [plain_set]
    exact hw.chained.insert hk habsent hjrun
  · rw [plain_set, hw.count_eq]
    exact hperm.length_eq.symm
  · simpa [VmHashTable.capacity] using hcap
  · intro m hd
    exact (hw.chained.write_free hk hd value habsent hfree hjrun).2.1

/-- Rehashing keeps the map. -/
theorem vmHtRehashLoop_spec (hk : KeyEquiv hash eq) (old : List (Slot (ℕ × K) V))
    (ht : VmHashTable K V) (hw : ht.Wf hash eq)
    (hstored : ∀ h k v, .occupied (h, k) v ∈ old → h = hash k)
    (hdistinct : (entries (old.map plainSlot) ++ entries ht.plain).Pairwise
      fun e e' => eq e.1 e'.1 = false)
    (hroom : (entries (old.map plainSlot)).length + ht.count ≤ ht.capacity) :
    (vmHtRehashLoop eq old ht).Wf hash eq ∧
      (vmHtRehashLoop eq old ht).capacity = ht.capacity ∧
      (entries (vmHtRehashLoop eq old ht).plain).Perm
        (entries (old.map plainSlot) ++ entries ht.plain) := by
  induction old generalizing ht with
  | nil => exact ⟨hw, rfl, List.Perm.refl _⟩
  | cons s old ih =>
    have htail : ∀ h k v, .occupied (h, k) v ∈ old → h = hash k :=
      fun h k v hmem => hstored h k v (List.mem_cons_of_mem _ hmem)
    cases s with
    | empty => exact ih ht hw htail hdistinct hroom
    | deleted => exact ih ht hw htail hdistinct hroom
    | occupied stored v =>
      obtain ⟨h, k⟩ := stored
      obtain rfl : h = hash k := hstored h k v List.mem_cons_self
      have hcons : entries ((.occupied (hash k, k) v :: old).map plainSlot) =
          (k, v) :: entries (old.map plainSlot) := rfl
      rw [hcons] at hdistinct hroom ⊢
      rw [List.length_cons] at hroom
      have habsent : ∀ i, (slotAt ht.plain i).holds eq k = false :=
        hk.holds_eq_false fun e he =>
          (List.pairwise_cons.mp hdistinct).1 e (List.mem_append_right _ he)
      obtain ⟨j, hprobe, hw', hperm, -⟩ := hw.insert hk (by omega) v habsent
      have hmove := (hperm.append_left (entries (old.map plainSlot))).trans List.perm_middle
      rw [vmHtRehashLoop, hprobe]
      obtain ⟨hwf, hcap, hent⟩ := ih _ hw' htail
        ((hmove.pairwise_iff fun {a b} h => by rwa [hk.eq_comm]).mpr hdistinct)
        (by simp only [VmHashTable.capacity, List.length_set] at hroom ⊢; omega)
      refine ⟨hwf, ?_, hent.trans hmove⟩
      rw [hcap]
      simp [VmHashTable.capacity]

theorem vmHtRehash_spec (hk : KeyEquiv hash eq) (hw : ht.Wf hash eq)
    (hcap : ht.capacity ≤ 2 ^ 29) :
    ∃ ht', vmHtRehash eq ht = .ok ht' ∧ ht'.Wf hash eq ∧ ht'.capacity = ht.capacity * 2 ∧
      (entries ht'.plain).Perm (entries ht.plain) := by
  obtain ⟨n, hn⟩ := hw.capacity_eq
  have hle : (entries ht.plain).length ≤ ht.capacity := by
    have := length_eq_add ht.plain
    rw [ht.length_plain] at this
    omega
  have hnil : entries (vmHtAlloc (ht.capacity * 2) : VmHashTable K V).plain = [] := by
    simp [vmHtAlloc, VmHashTable.plain, plainSlot, entries, List.filterMap_replicate, Slot.toEntry]
  have hfresh : (vmHtAlloc (ht.capacity * 2) : VmHashTable K V).Wf hash eq := by
    rw [hn, ← pow_succ]
    exact vmHtAlloc_wf
  obtain ⟨hwf, hcap', hent⟩ := vmHtRehashLoop_spec hk ht.slots (vmHtAlloc (ht.capacity * 2))
    hfresh
    (fun h k v hmem => by
      obtain ⟨j, hj⟩ := List.mem_iff_getElem?.mp hmem
      exact hw.stored j h k v (slotAt_eq_occupied.mpr hj))
    (by rw [hnil, List.append_nil]; exact hw.chained.distinct)
    (by
      change (entries ht.plain).length + 0 ≤ (List.replicate _ _).length
      rw [List.length_replicate]
      omega)
  rw [hnil, List.append_nil] at hent
  refine ⟨_, ?_, hwf, ?_, hent⟩
  · rw [vmHtRehash, signed_eq_ok (by omega) (by omega), ok_bind]
    rfl
  · rw [hcap']
    simp [vmHtAlloc, VmHashTable.capacity]

/-! ### The operations on the map -/

theorem vmHtGrow_spec (hk : KeyEquiv hash eq) (hw : ht.Wf hash eq)
    (hload : 4 * ht.count < 3 * ht.capacity + 4) (hcap : ht.capacity ≤ 2 ^ 29) :
    ∃ ht', vmHtGrow eq ht = .ok ht' ∧ ht'.Wf hash eq ∧ 4 * ht'.count < 3 * ht'.capacity ∧
      (entries ht'.plain).Perm (entries ht.plain) ∧
      (ht'.capacity ≤ 2 ^ 29 ↔ ht.count < 3 * 2 ^ 27) := by
  obtain ⟨n, hn⟩ := hw.capacity_eq
  have hpos : 0 < ht.capacity := by
    rw [hn]
    positivity
  rw [vmHtGrow, signed_eq_ok (by omega) (by omega), ok_bind, signed_eq_ok (by omega) (by omega),
    ok_bind]
  split
  next hfull =>
    obtain ⟨ht', hre, hw', hcap', hperm⟩ := vmHtRehash_spec hk hw hcap
    have hcount : ht'.count = ht.count := by rw [hw'.count_eq, hperm.length_eq, hw.count_eq]
    have hroom : 4 * ht'.count < 3 * ht'.capacity := by by_cases hone : ht.capacity = 1 <;> omega
    refine ⟨ht', hre, hw', hroom, hperm, ?_⟩
    -- a power of two below `2 ^ 29` is at most `2 ^ 28`
    have hpow : ht.capacity < 2 ^ 29 → ht.capacity ≤ 2 ^ 28 := by
      rw [hn]
      intro h
      exact Nat.pow_le_pow_right two_pos
        (Nat.lt_succ_iff.mp ((Nat.pow_lt_pow_iff_right one_lt_two).mp h))
    constructor
    · intro h
      omega
    · intro h
      have := hpow (by omega)
      omega
  next hroom => exact ⟨ht, rfl, hw, by omega, List.Perm.refl _, by omega⟩

theorem vmHtGrow_undefined (hcap : 2 ^ 29 < ht.capacity) (hn : ∃ n, ht.capacity = 2 ^ n) :
    vmHtGrow eq ht = .error .undefined := by
  obtain ⟨n, hn⟩ := hn
  have hbig : 2 ^ 30 ≤ ht.capacity := by
    rw [hn] at hcap ⊢
    exact Nat.pow_le_pow_right two_pos ((Nat.pow_lt_pow_iff_right one_lt_two).mp hcap)
  have hlimit : (signed 32 (ht.capacity * 3) : Exec Empty ℤ) = .error .undefined :=
    signed_eq_undefined (by omega)
  rw [vmHtGrow]
  by_cases h : (ht.count * 4 : ℤ) < 2 ^ 31
  · rw [signed_eq_ok (by omega) (by omega), ok_bind, hlimit]
    rfl
  · rw [signed_eq_undefined (by omega)]
    rfl

section Steps

variable {hashFn : K → ℕ}

theorem keyEquiv_vmHtHashValue (hk : KeyEquiv hashFn eq) : KeyEquiv (vmHtHashValue hashFn) eq := by
  refine ⟨hk.equiv, ?_⟩
  intro a b h
  rw [vmHtHashValue, vmHtHashValue, hk.hash_eq a b h]

/-- A store below the load limit sets the key in the map. -/
theorem vmHtStore_spec (hk : KeyEquiv (vmHtHashValue hashFn) eq)
    (hw : ht.Wf (vmHtHashValue hashFn) eq) (hd : Denotes eq ht.plain m)
    (hroom : 4 * ht.count < 3 * ht.capacity) (key : K) (value : V) :
    (vmHtStore hashFn eq ht key value).Wf (vmHtHashValue hashFn) eq ∧
      (vmHtStore hashFn eq ht key value).capacity = ht.capacity ∧
      (vmHtStore hashFn eq ht key value).count ≤ ht.count + 1 ∧
      Denotes eq (vmHtStore hashFn eq ht key value).plain
        fun q => if eq key q then some value else m q := by
  obtain ⟨n, hcap⟩ := hw.capacity_eq
  cases hl : lookup eq ht.plain (vmHtHashValue hashFn key) key with
  | none =>
    obtain ⟨j, hprobe, hw', -, hd'⟩ := hw.insert hk (by omega) value
      ((hw.chained.lookup_eq_none_iff hk).mp hl)
    simp only [vmHtStore, hprobe]
    exact ⟨hw', by simp [VmHashTable.capacity], le_refl _, hd' m hd⟩
  | some j =>
    obtain ⟨k, v, hjk, hek⟩ := Slot.holds_eq_true.mp ((hw.chained.lookup_eq_some_iff hk).mp hl)
    have hlt := lt_of_mem_probeRun (hw.chained.onRun j k v hjk)
    obtain ⟨hch, hden, hlen⟩ := hw.chained.write_found hk hd hjk hek
      (x := .occupied k value) rfl (by rintro _ _ ⟨rfl, rfl⟩; rfl)
    -- the slot behind the plain one
    rw [VmHashTable.plain, slotAt_map_plain] at hjk
    have hphys : ∃ h, slotAt ht.slots j = .occupied (h, k) v := by
      cases hs : slotAt ht.slots j with
      | empty => simp [hs, plainSlot] at hjk
      | deleted => simp [hs, plainSlot] at hjk
      | occupied stored v' =>
        obtain ⟨h, k'⟩ := stored
        rw [hs, plainSlot] at hjk
        cases hjk
        exact ⟨h, rfl⟩
    obtain ⟨h, hphys⟩ := hphys
    simp only [vmHtStore, vmHtProbe_eq hcap hw.stored hk, hl, hphys, withValue]
    refine ⟨⟨?_, ?_, ?_, n, ?_⟩, by simp [VmHashTable.capacity], Nat.le_succ _, ?_⟩
    · refine hw.stored.set (by rwa [ht.length_plain] at hlt) ?_
      rintro _ _ _ ⟨rfl, rfl⟩
      exact hw.stored j h k v hphys
    · rw [plain_set]
      exact hch
    · rw [plain_set, hw.count_eq]
      exact (Nat.succ.inj hlen).symm
    · simpa [VmHashTable.capacity] using hcap
    · rw [plain_set]
      exact hden

theorem vmHtRemove_spec (hk : KeyEquiv (vmHtHashValue hashFn) eq)
    (hw : ht.Wf (vmHtHashValue hashFn) eq) (hd : Denotes eq ht.plain m) (key : K) :
    (vmHtRemove hashFn eq ht key).Wf (vmHtHashValue hashFn) eq ∧
      (vmHtRemove hashFn eq ht key).capacity = ht.capacity ∧
      (vmHtRemove hashFn eq ht key).count ≤ ht.count ∧
      Denotes eq (vmHtRemove hashFn eq ht key).plain
        fun q => if eq key q then none else m q := by
  obtain ⟨n, hcap⟩ := hw.capacity_eq
  cases hl : lookup eq ht.plain (vmHtHashValue hashFn key) key with
  | none =>
    have hsame : vmHtRemove hashFn eq ht key = ht := by
      simp only [vmHtRemove, vmHtProbe_eq hcap hw.stored hk, hl]
    rw [hsame]
    exact ⟨hw, rfl, le_refl _, hd.erase_of_absent hk ((hw.chained.lookup_eq_none_iff hk).mp hl)⟩
  | some j =>
    obtain ⟨k, v, hjk, hek⟩ := Slot.holds_eq_true.mp ((hw.chained.lookup_eq_some_iff hk).mp hl)
    have hlt := lt_of_mem_probeRun (hw.chained.onRun j k v hjk)
    obtain ⟨hch, hden, hlen⟩ := hw.chained.write_found hk hd hjk hek
      (x := .deleted) rfl (fun _ _ h => by cases h)
    simp only [vmHtRemove, vmHtProbe_eq hcap hw.stored hk, hl]
    refine ⟨⟨?_, ?_, ?_, n, ?_⟩, by simp [VmHashTable.capacity], Nat.sub_le _ _, ?_⟩
    · exact hw.stored.set (by rwa [ht.length_plain] at hlt) (fun _ _ _ h => by cases h)
    · rw [plain_set]
      exact hch
    · rw [plain_set]
      change ht.count - 1 = (entries (ht.plain.set j .deleted)).length
      have := hw.count_eq
      simp only [Slot.toEntry, Option.toList_none, List.length_nil] at hlen
      omega
    · simpa [VmHashTable.capacity] using hcap
    · rw [plain_set]
      exact hden

end Steps

theorem vmHtHasKey_eq {hashFn : K → ℕ} (hk : KeyEquiv (vmHtHashValue hashFn) eq)
    (hw : ht.Wf (vmHtHashValue hashFn) eq) (hd : Denotes eq ht.plain m) (key : K) :
    vmHtHasKey hashFn eq ht key = (m key).isSome := by
  obtain ⟨n, hcap⟩ := hw.capacity_eq
  rw [vmHtHasKey, vmHtProbe_eq hcap hw.stored hk, hd.eq_of_lookup hw.chained hk key]
  cases hl : lookup eq ht.plain (vmHtHashValue hashFn key) key with
  | none => rfl
  | some j =>
    obtain ⟨k, v, hjk, -⟩ := Slot.holds_eq_true.mp ((hw.chained.lookup_eq_some_iff hk).mp hl)
    simp [hjk, Slot.toEntry]

theorem vmHtRef_eq {hashFn : K → ℕ} (hk : KeyEquiv (vmHtHashValue hashFn) eq)
    (hw : ht.Wf (vmHtHashValue hashFn) eq) (hd : Denotes eq ht.plain m) (key : K) (dflt : V) :
    vmHtRef hashFn eq ht key dflt = (m key).getD dflt := by
  obtain ⟨n, hcap⟩ := hw.capacity_eq
  rw [vmHtRef, vmHtProbe_eq hcap hw.stored hk, hd.eq_of_lookup hw.chained hk key]
  cases lookup eq ht.plain (vmHtHashValue hashFn key) key with
  | none => rfl
  | some j =>
    simp only [Option.bind_some, VmHashTable.plain, slotAt_map_plain]
    cases slotAt ht.slots j with
    | empty => rfl
    | deleted => rfl
    | occupied k v => rfl

theorem vmHtKeys_eq (hw : ht.Wf hash eq) :
    vmHtKeys ht = (entries ht.plain).map Prod.fst ∧
      vmHtValues ht = (entries ht.plain).map Prod.snd := by
  have hcount := hw.count_eq
  rw [VmHashTable.plain, entries_map_plain, List.length_map] at hcount
  rw [vmHtKeys, vmHtValues, VmHashTable.plain, entries_map_plain, List.map_map, List.map_map]
  split
  next h =>
    rw [hcount, List.length_eq_zero_iff] at h
    rw [h]
    exact ⟨rfl, rfl⟩
  next =>
    constructor
    · exact List.take_of_length_le (by simp [hcount])
    · exact List.take_of_length_le (by simp [hcount])

/-! ### Runs -/

/-- The operations that change a table. -/
inductive Op (K V : Type) : Type
  | set (key : K) (value : V)
  | remove (key : K)
  | clear
  deriving DecidableEq, Repr

section Runs

variable (hashFn : K → ℕ) (eq : K → K → Bool)

/-- One operation. -/
def Op.run (ht : VmHashTable K V) : Op K V → Exec Empty (VmHashTable K V)
  | .set key value => vmHtSet hashFn eq ht key value
  | .remove key => .ok (vmHtRemove hashFn eq ht key)
  | .clear => .ok (vmHtClear ht)

/-- A sequence of operations. -/
def runOps : List (Op K V) → VmHashTable K V → Exec Empty (VmHashTable K V)
  | [], ht => .ok ht
  | op :: ops, ht => do
      let ht ← op.run hashFn eq ht
      runOps ops ht

/-- The value of the last set of a key equal to `key` that no remove of an equal key and no
clear follows, in a history with the latest operation first. -/
def lastValue (key : K) : List (Op K V) → Option V
  | [] => none
  | .set k value :: history => if eq k key then some value else lastValue key history
  | .remove k :: history => if eq k key then none else lastValue key history
  | .clear :: _ => none

end Runs

/-- The number of classes of keys that are live after a history. -/
noncomputable def liveKeys {hash : K → ℕ} {eq : K → K → Bool} (hk : KeyEquiv hash eq)
    (history : List (Op K V)) : ℕ :=
  {c : Quotient hk.setoid |
    ∃ key, c = Quotient.mk _ key ∧ (lastValue eq key history).isSome = true}.ncard

/-- Some set of the history was made with `3 * 2 ^ 27` keys live or more. -/
def Outgrown {hash : K → ℕ} {eq : K → K → Bool} (hk : KeyEquiv hash eq)
    (history : List (Op K V)) : Prop :=
  ∃ later key value earlier, history = later ++ .set key value :: earlier ∧
    3 * 2 ^ 27 ≤ liveKeys hk earlier

/-- Table and history in step. -/
structure InStep {hashFn : K → ℕ} {eq : K → K → Bool} (hk : KeyEquiv hashFn eq)
    (history : List (Op K V)) (ht : VmHashTable K V) : Prop where
  wf : ht.Wf (vmHtHashValue hashFn) eq
  denotes : Denotes eq ht.plain fun key => lastValue eq key history
  load : 4 * ht.count < 3 * ht.capacity + 4
  capacity_le_iff : ht.capacity ≤ 2 ^ 29 ↔ ¬ Outgrown hk history

section Refinement

variable {hashFn : K → ℕ} {hk : KeyEquiv hashFn eq} {history : List (Op K V)}

theorem InStep.count_eq (h : InStep hk history ht) : ht.count = liveKeys hk history := by
  rw [h.wf.count_eq]
  exact h.denotes.length_eq_ncard h.wf.chained (keyEquiv_vmHtHashValue hk)

theorem outgrown_cons_iff {op : Op K V} :
    Outgrown hk (op :: history) ↔
      (∃ key value, op = .set key value ∧ 3 * 2 ^ 27 ≤ liveKeys hk history) ∨
        Outgrown hk history := by
  constructor
  · rintro ⟨later, key, value, earlier, heq, hlive⟩
    cases later with
    | nil =>
      rw [List.nil_append, List.cons.injEq] at heq
      obtain ⟨rfl, rfl⟩ := heq
      exact Or.inl ⟨key, value, rfl, hlive⟩
    | cons op' later =>
      rw [List.cons_append, List.cons.injEq] at heq
      exact Or.inr ⟨later, key, value, earlier, heq.2, hlive⟩
  · rintro (⟨key, value, rfl, hlive⟩ | ⟨later, key, value, earlier, rfl, hlive⟩)
    · exact ⟨[], key, value, history, rfl, hlive⟩
    · exact ⟨op :: later, key, value, earlier, rfl, hlive⟩

theorem InStep.set (h : InStep hk history ht) (key : K) (value : V) :
    (¬ Outgrown hk history → ∃ ht', vmHtSet hashFn eq ht key value = .ok ht' ∧
      InStep hk (.set key value :: history) ht') ∧
    (Outgrown hk history → vmHtSet hashFn eq ht key value = .error .undefined) := by
  have hk' := keyEquiv_vmHtHashValue hk
  constructor
  · intro hsmall
    have hcap := h.capacity_le_iff.mpr hsmall
    obtain ⟨grown, hgrow, hwg, hroom, hperm, hcapg⟩ := vmHtGrow_spec hk' h.wf h.load hcap
    obtain ⟨hw', hcap', hcount', hd'⟩ :=
      vmHtStore_spec hk' hwg (h.denotes.of_perm hperm) hroom key value
    refine ⟨_, by rw [vmHtSet, hgrow, ok_bind], hw', hd', by omega, ?_⟩
    rw [hcap', hcapg, outgrown_cons_iff, ← h.count_eq]
    constructor
    · rintro hlt (⟨k, v, -, hle⟩ | hout)
      · omega
      · exact hsmall hout
    · intro hnot
      by_contra hle
      exact hnot (Or.inl ⟨key, value, rfl, by omega⟩)
  · intro hout
    have hcap : 2 ^ 29 < ht.capacity := by
      by_contra hle
      exact h.capacity_le_iff.mp (by omega) hout
    rw [vmHtSet, vmHtGrow_undefined hcap h.wf.capacity_eq]
    rfl

theorem InStep.remove (h : InStep hk history ht) (key : K) :
    InStep hk (.remove key :: history) (vmHtRemove hashFn eq ht key) := by
  obtain ⟨hw', hcap', hcount', hd'⟩ :=
    vmHtRemove_spec (keyEquiv_vmHtHashValue hk) h.wf h.denotes key
  have := h.load
  refine ⟨hw', hd', by omega, ?_⟩
  rw [hcap', h.capacity_le_iff, outgrown_cons_iff]
  simp

theorem InStep.clear (h : InStep hk history ht) : InStep hk (.clear :: history) (vmHtClear ht) := by
  obtain ⟨n, hn⟩ := h.wf.capacity_eq
  have hcap : (vmHtClear ht).capacity = ht.capacity := by
    simp [vmHtClear, vmHtAlloc, VmHashTable.capacity]
  refine ⟨?_, ?_, ?_, ?_⟩
  · rw [vmHtClear, hn]
    exact vmHtAlloc_wf
  · simp only [vmHtClear, vmHtAlloc, VmHashTable.plain, List.map_replicate]
    exact Denotes.replicate _
  · rw [hcap]
    simp [vmHtClear, vmHtAlloc]
  · rw [hcap, h.capacity_le_iff, outgrown_cons_iff]
    simp

theorem inStep_vmHtMake : InStep hk ([] : List (Op K V)) vmHtMake := by
  refine ⟨?_, Denotes.replicate 16, by simp [vmHtMake, vmHtAlloc], ?_⟩
  · exact vmHtAlloc_wf (n := 4)
  · simp [vmHtMake, vmHtAlloc, VmHashTable.capacity, Outgrown]

/-- No set of the run comes after a set that was made with `3 * 2 ^ 27` keys live. -/
def WithinInt (hk : KeyEquiv hashFn eq) (history ops : List (Op K V)) : Prop :=
  ∀ earlier key value later, ops = earlier ++ .set key value :: later →
    ¬ Outgrown hk (earlier.reverse ++ history)

theorem withinInt_nil : WithinInt hk history [] := by
  intro earlier key value later heq
  cases earlier <;> cases heq

theorem withinInt_cons_iff {op : Op K V} {ops : List (Op K V)} :
    WithinInt hk history (op :: ops) ↔
      (∀ key value, op = .set key value → ¬ Outgrown hk history) ∧
        WithinInt hk (op :: history) ops := by
  constructor
  · intro h
    refine ⟨?_, ?_⟩
    · rintro key value rfl
      exact h [] key value ops rfl
    · rintro earlier key value later rfl
      have := h (op :: earlier) key value later rfl
      rwa [List.reverse_cons, List.append_assoc] at this
  · rintro ⟨hop, hops⟩ earlier key value later heq
    cases earlier with
    | nil =>
      rw [List.nil_append, List.cons.injEq] at heq
      exact hop key value heq.1
    | cons op' earlier =>
      rw [List.cons_append, List.cons.injEq] at heq
      obtain ⟨rfl, heq⟩ := heq
      have := hops earlier key value later heq
      rwa [List.reverse_cons, List.append_assoc]

theorem InStep.run (h : InStep hk history ht) (op : Op K V) :
    ((∀ key value, op = .set key value → ¬ Outgrown hk history) →
      ∃ ht', op.run hashFn eq ht = .ok ht' ∧ InStep hk (op :: history) ht') ∧
    (¬ (∀ key value, op = .set key value → ¬ Outgrown hk history) →
      op.run hashFn eq ht = .error .undefined) := by
  cases op with
  | set key value =>
    refine ⟨fun hop => (h.set key value).1 (hop key value rfl), fun hop => ?_⟩
    refine (h.set key value).2 ?_
    by_contra hout
    exact hop fun _ _ _ => hout
  | remove key =>
    exact ⟨fun _ => ⟨_, rfl, h.remove key⟩, fun hop => absurd (fun _ _ he => by cases he) hop⟩
  | clear =>
    exact ⟨fun _ => ⟨_, rfl, h.clear⟩, fun hop => absurd (fun _ _ he => by cases he) hop⟩

theorem InStep.runOps (h : InStep hk history ht) (ops : List (Op K V)) :
    (WithinInt hk history ops →
      ∃ ht', runOps hashFn eq ops ht = .ok ht' ∧ InStep hk (ops.reverse ++ history) ht') ∧
    (¬ WithinInt hk history ops → runOps hashFn eq ops ht = .error .undefined) := by
  induction ops generalizing history ht with
  | nil =>
    exact ⟨fun _ => ⟨ht, rfl, h⟩, fun hnot => absurd withinInt_nil hnot⟩
  | cons op ops ih =>
    rw [withinInt_cons_iff, Vm.runOps]
    by_cases hop : ∀ key value, op = .set key value → ¬ Outgrown hk history
    · obtain ⟨ht₁, hrun, h₁⟩ := (h.run op).1 hop
      obtain ⟨hok, hundef⟩ := ih h₁
      rw [hrun, ok_bind, List.reverse_cons, List.append_assoc]
      refine ⟨fun hall => hok hall.2, fun hnot => hundef ?_⟩
      exact fun hops => hnot ⟨hop, hops⟩
    · rw [(h.run op).2 hop, error_bind]
      exact ⟨fun hall => absurd hall.1 hop, fun _ => rfl⟩

/-- The table after a run is the finite map of the live keys. -/
def RefinesMap (hk : KeyEquiv hashFn eq) (ops : List (Op K V)) : Prop :=
  ∃ ht, runOps hashFn eq ops vmHtMake = .ok ht ∧
    (∀ key dflt, vmHtRef hashFn eq ht key dflt = (lastValue eq key ops.reverse).getD dflt) ∧
    (∀ key, vmHtHasKey hashFn eq ht key = (lastValue eq key ops.reverse).isSome) ∧
    vmHtCount ht = liveKeys hk ops.reverse ∧
    (vmHtKeys ht).length = vmHtCount ht ∧ (vmHtValues ht).length = vmHtCount ht ∧
    (vmHtKeys ht).Pairwise (fun k k' => eq k k' = false) ∧
    (∀ key, (lastValue eq key ops.reverse).isSome = true ↔ ∃ k ∈ vmHtKeys ht, eq k key = true) ∧
    ∀ k v, (k, v) ∈ (vmHtKeys ht).zip (vmHtValues ht) → lastValue eq k ops.reverse = some v

theorem InStep.observe {ops : List (Op K V)} (h : InStep hk ops.reverse ht)
    (hrun : Vm.runOps hashFn eq ops vmHtMake = .ok ht) : RefinesMap hk ops := by
  have hk' := keyEquiv_vmHtHashValue hk
  obtain ⟨hkeys, hvalues⟩ := vmHtKeys_eq h.wf
  refine ⟨ht, hrun, vmHtRef_eq hk' h.wf h.denotes, vmHtHasKey_eq hk' h.wf h.denotes, h.count_eq,
    ?_, ?_, ?_, ?_, ?_⟩
  · rw [hkeys, List.length_map, vmHtCount, h.wf.count_eq]
  · rw [hvalues, List.length_map, vmHtCount, h.wf.count_eq]
  · rw [hkeys]
    exact h.wf.chained.pairwise_keys
  · rw [hkeys]
    exact h.denotes.isSome_iff
  · intro k v hmem
    rw [hkeys, hvalues, List.zip_map', List.mem_map] at hmem
    obtain ⟨e, he, heq⟩ := hmem
    obtain rfl : e = (k, v) := heq
    obtain ⟨j, hj⟩ := mem_entries.mp he
    exact (h.denotes k v).mpr ⟨j, k, hj, hk.equiv.refl k⟩

/-- **Refinement, with the exact condition.** After a sequence of sets, removals and clears
of a new table, the table is the finite map of its live keys, if and only if no set follows
a set that was made with `3 * 2 ^ 27` keys live: then the load check no longer fits `int`. -/
theorem vmHashTable_refines_map_iff (hk : KeyEquiv hashFn eq) (ops : List (Op K V)) :
    RefinesMap hk ops ↔ WithinInt hk [] ops := by
  have hmake : InStep hk ([] : List (Op K V)) vmHtMake := inStep_vmHtMake
  obtain ⟨hok, hundef⟩ := hmake.runOps ops
  rw [List.append_nil] at hok
  constructor
  · rintro ⟨ht, hrun, -⟩
    by_contra hnot
    rw [hundef hnot] at hrun
    cases hrun
  · intro hall
    obtain ⟨ht, hrun, h⟩ := hok hall
    exact h.observe hrun

end Refinement

theorem keyEquiv_nat : KeyEquiv (fun k : ℕ => k) (fun a b => a == b) := by
  refine ⟨⟨?_, ?_, ?_⟩, ?_⟩
  · intro a
    simp
  · intro a b h
    exact beq_iff_eq.mpr (beq_iff_eq.mp h).symm
  · intro a b c h h'
    exact beq_iff_eq.mpr ((beq_iff_eq.mp h).trans (beq_iff_eq.mp h'))
  · intro a b h
    exact beq_iff_eq.mp h

theorem vmHashTable_refines_map_iff_set_remove :
    RefinesMap keyEquiv_nat [.set 3 7, .remove 3, .set 3 9] := by
  refine (vmHashTable_refines_map_iff keyEquiv_nat _).mpr ?_
  -- the one earlier set found the table empty
  have hnone : ¬ Outgrown keyEquiv_nat ([] : List (Op ℕ ℕ)) := by
    rintro ⟨later, key, value, earlier, heq, -⟩
    cases later <;> cases heq
  have hempty : liveKeys keyEquiv_nat ([] : List (Op ℕ ℕ)) = 0 := by simp [liveKeys, lastValue]
  simp [withinInt_cons_iff, outgrown_cons_iff, hnone, hempty, withinInt_nil]

theorem liveKeys_range (n : ℕ) :
    liveKeys keyEquiv_nat ((List.range n).map fun i => Op.set i 0).reverse = n := by
  have hlast : ∀ key, (lastValue (fun a b => a == b) key
      ((List.range n).map fun i => Op.set i 0).reverse).isSome = true ↔ key < n := by
    intro key
    induction n with
    | zero => simp [lastValue]
    | succ n ih =>
      rw [List.range_succ, List.map_append, List.reverse_append]
      simp only [List.map_cons, List.map_nil, List.reverse_singleton, List.singleton_append,
        lastValue]
      split
      next h =>
        have := beq_iff_eq.mp h
        simp
        omega
      next h =>
        have : n ≠ key := fun he => h (beq_iff_eq.mpr he)
        rw [ih]
        omega
  have hinj : Function.Injective (Quotient.mk keyEquiv_nat.setoid) := by
    intro a b h
    exact beq_iff_eq.mp (Quotient.exact h)
  have hset : {c : Quotient keyEquiv_nat.setoid | ∃ key, c = Quotient.mk _ key ∧
      (lastValue (fun a b => a == b) key
        ((List.range n).map fun i => Op.set i 0).reverse).isSome = true} =
      Quotient.mk keyEquiv_nat.setoid '' (Finset.range n : Set ℕ) := by
    ext c
    simp only [hlast, Set.mem_ofPred_eq, Set.mem_image, Finset.coe_range, Set.mem_Iio]
    constructor
    · rintro ⟨key, rfl, hlt⟩
      exact ⟨key, hlt, rfl⟩
    · rintro ⟨key, hlt, rfl⟩
      exact ⟨key, rfl, hlt⟩
  rw [liveKeys, hset, Set.ncard_image_of_injective _ hinj, Set.ncard_coe_finset, Finset.card_range]

theorem not_withinInt_range {n : ℕ} (hn : 3 * 2 ^ 27 ≤ n) :
    ¬ WithinInt keyEquiv_nat [] ((List.range (n + 2)).map fun i => Op.set i 0) := by
  intro h
  refine h ((List.range (n + 1)).map fun i => Op.set i 0) (n + 1) 0 [] ?_ ?_
  · rw [List.range_succ, List.map_append]
    rfl
  · refine ⟨[], n, 0, ((List.range n).map fun i => Op.set i 0).reverse, ?_, ?_⟩
    · rw [List.range_succ, List.map_append, List.reverse_append, List.append_nil]
      rfl
    · rw [liveKeys_range]
      exact hn

/-- Setting that many different keys overflows. -/
theorem vmHashTable_overflows :
    ¬ RefinesMap keyEquiv_nat ((List.range (3 * 2 ^ 27 + 2)).map fun i => Op.set i 0) := by
  intro h
  have hmake : InStep keyEquiv_nat ([] : List (Op ℕ ℕ)) vmHtMake := inStep_vmHtMake
  obtain ⟨ht, hrun, -⟩ := h
  rw [(hmake.runOps _).2 (not_withinInt_range (le_refl _))] at hrun
  cases hrun

end Eshkol.Vm
