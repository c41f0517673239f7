import Eshkol.Machine.Exec
import Mathlib.Data.List.AList
import Mathlib.Data.List.Perm.Basic

/-!
# A Cache that Drops the Least Recently Used Key

A cache is a hash table from keys to mutable pairs of a value and a timestamp. Every write of a
key, and every read that finds it, stamps the pair of the key with the next value of a counter;
a new key in a full cache makes room by deleting the key with the lowest timestamp, which a scan
of the keys looks for. The pairs are kept by address, as `set-car!` and `set-cdr!` write them, and
the hash table is any implementation of a finite map.
-/

open Machine

namespace Eshkol.Core

/-- A hash table from `K` to `A` that implements a finite map. -/
class FiniteMap (T : Type) (K A : outParam Type) [DecidableEq K] where
  make : T
  ref : T → K → Option A
  set : T → K → A → T
  delete : T → K → T
  clear : T → T
  size : T → ℕ
  keys : T → List K
  ref_make : ∀ key, ref make key = none
  ref_set : ∀ t key a key', ref (set t key a) key' = if key' = key then some a else ref t key'
  ref_delete : ∀ t key key', ref (delete t key) key' = if key' = key then none else ref t key'
  ref_clear : ∀ t key, ref (clear t) key = none
  nodup_keys : ∀ t, (keys t).Nodup
  mem_keys : ∀ t key, key ∈ keys t ↔ (ref t key).isSome
  size_eq : ∀ t, size t = (keys t).length

namespace FiniteMap

variable {T K A : Type} [DecidableEq K] [FiniteMap T K A] {t : T} {key : K}

theorem size_set (a : A) (h : ref t key = none) : size (set t key a) = size t + 1 := by
  have hperm : (keys (set t key a)).Perm (key :: keys t) := by
    have hnew : key ∉ keys t := by
      rw [mem_keys, h]
      simp
    refine (List.perm_ext_iff_of_nodup (nodup_keys _) ((nodup_keys t).cons hnew)).mpr ?_
    intro key'
    rw [mem_keys, ref_set, List.mem_cons, mem_keys]
    by_cases hkey : key' = key
    · simp [hkey]
    · simp [hkey]
  rw [size_eq, size_eq, hperm.length_eq, List.length_cons]

theorem size_delete (h : (ref t key).isSome) : size (delete t key) + 1 = size t := by
  have hperm : (key :: keys (delete t key)).Perm (keys t) := by
    have hnew : key ∉ keys (delete t key) := by
      rw [mem_keys, ref_delete, if_pos rfl]
      simp
    refine (List.perm_ext_iff_of_nodup ((nodup_keys _).cons hnew) (nodup_keys t)).mpr ?_
    intro key'
    rw [List.mem_cons, mem_keys, ref_delete, mem_keys]
    by_cases hkey : key' = key
    · simp [hkey, h]
    · simp [hkey]
  rw [size_eq, size_eq, ← hperm.length_eq, List.length_cons]

theorem size_clear (t : T) : size (clear t) = 0 := by
  have hempty : keys (clear t) = [] := by
    refine List.eq_nil_iff_forall_not_mem.mpr fun key hkey => ?_
    rw [mem_keys, ref_clear] at hkey
    simp at hkey
  rw [size_eq, hempty, List.length_nil]

end FiniteMap

variable {T K V : Type} [DecidableEq K] [FiniteMap T K ℕ]

/-- A cache: `counter` is the number in the counter's box, `table` gives the address of a key's
entry, and `pairs` are the entries that have been allocated, a value and a timestamp each. -/
structure LruCache (T V : Type) where
  capacity : ℤ
  counter : ℤ
  table : T
  pairs : List (V × ℤ)

namespace LruCache

/-- `car` and `cdr` of an entry. -/
def entryAt (cache : LruCache T V) (entry : ℕ) : Exec String (V × ℤ) :=
  match cache.pairs[entry]? with
  | some pair => .ok pair
  | none => .error .undefined

/-- `set-car!` of an entry. -/
def setCar (cache : LruCache T V) (entry : ℕ) (value : V) : Exec String (LruCache T V) := do
  let (_, stamp) ← cache.entryAt entry
  .ok { cache with pairs := cache.pairs.set entry (value, stamp) }

/-- `set-cdr!` of an entry. -/
def setCdr (cache : LruCache T V) (entry : ℕ) (stamp : ℤ) : Exec String (LruCache T V) := do
  let (value, _) ← cache.entryAt entry
  .ok { cache with pairs := cache.pairs.set entry (value, stamp) }

end LruCache

def makeLruCache (capacity : ℤ) : Exec String (LruCache T V) :=
  if capacity ≤ 0 then
    .error (.raised "make-lru-cache: capacity must be a positive integer")
  else .ok ⟨capacity, 0, FiniteMap.make, []⟩

def lruTick (cache : LruCache T V) : LruCache T V × ℤ :=
  let next := cache.counter + 1
  ({ cache with counter := next }, next)

def lruSize (cache : LruCache T V) : ℕ := FiniteMap.size cache.table

def lruHas (cache : LruCache T V) (key : K) : Bool := (FiniteMap.ref cache.table key).isSome

/-- `lru-get/default`; `lru-get` is the one whose default is `#f`. -/
def lruGetDefault (cache : LruCache T V) (key : K) (default : V) : Exec String (V × LruCache T V) :=
  match FiniteMap.ref cache.table key with
  | some entry => do
      let (cache, now) := lruTick cache
      let cache ← cache.setCdr entry now
      let (value, _) ← cache.entryAt entry
      .ok (value, cache)
  | none => .ok (default, cache)

/-- The timestamp of a key, `(cdr (hash-table-ref ht key))`. -/
def lruStamp (cache : LruCache T V) (key : K) : Exec String ℤ :=
  match FiniteMap.ref cache.table key with
  | some entry => do
      let (_, stamp) ← cache.entryAt entry
      .ok stamp
  | none => .error .undefined

/-- The loop of `lru-evict-oldest!`. -/
def lruEvictLoop (cache : LruCache T V) : List K → K → ℤ → Exec String (LruCache T V)
  | [], oldestKey, _ =>
    .ok { cache with table := FiniteMap.delete cache.table oldestKey }
  | key :: rest, oldestKey, oldestTs => do
      let ts ← lruStamp cache key
      if ts < oldestTs then lruEvictLoop cache rest key ts
      else lruEvictLoop cache rest oldestKey oldestTs

def lruEvictOldest (cache : LruCache T V) : Exec String (LruCache T V) :=
  match FiniteMap.keys cache.table with
  | [] => .ok cache
  | key :: rest => do
      let ts ← lruStamp cache key
      lruEvictLoop cache rest key ts

def lruSet (cache : LruCache T V) (key : K) (value : V) : Exec String (LruCache T V) :=
  match FiniteMap.ref cache.table key with
  | some entry => do
      let cache ← cache.setCar entry value
      let (cache, now) := lruTick cache
      cache.setCdr entry now
  | none => do
      let cache ← if cache.capacity ≤ lruSize cache then lruEvictOldest cache else .ok cache
      let (cache, now) := lruTick cache
      -- the new entry is consed and then put into the table
      .ok { cache with
        pairs := cache.pairs ++ [(value, now)]
        table := FiniteMap.set cache.table key cache.pairs.length }

def lruDelete (cache : LruCache T V) (key : K) : Bool × LruCache T V :=
  if lruHas cache key then
    (true, { cache with table := FiniteMap.delete cache.table key })
  else (false, cache)

def lruClear (cache : LruCache T V) : LruCache T V :=
  { cache with table := FiniteMap.clear cache.table }

/-! ### Runs -/

/-- An operation on a cache. -/
inductive LruOp (K V : Type)
  | set (key : K) (value : V)
  | get (key : K) (default : V)
  | delete (key : K)
  | clear

/-- The cache after an operation. -/
def LruOp.apply (cache : LruCache T V) : LruOp K V → Exec String (LruCache T V)
  | .set key value => lruSet cache key value
  | .get key default => do
      let (_, cache) ← lruGetDefault cache key default
      .ok cache
  | .delete key => .ok (lruDelete cache key).2
  | .clear => .ok (lruClear cache)

/-- The key that an operation uses: the one it sets, or the one it reads and finds. -/
def LruOp.uses (cache : LruCache T V) : LruOp K V → Option K
  | .set key _ => some key
  | .get key _ => if lruHas cache key then some key else none
  | .delete _ => none
  | .clear => none

/-- The cache after some operations, of which the last one is the first of the list, and the keys
that they used in the same order. -/
def lruRun (cache : LruCache T V) : List (LruOp K V) → Exec String (LruCache T V × List (Option K))
  | [] => .ok (cache, [])
  | op :: ops => do
      let (cache, used) ← lruRun cache ops
      let cache' ← op.apply cache
      .ok (cache', op.uses cache :: used)

/-- An operation sets the key, or takes it out. -/
def LruOp.Renews (key : K) : LruOp K V → Prop
  | .set key' _ => key' = key
  | .get _ _ => False
  | .delete key' => key' = key
  | .clear => True

/-- An operation evicts a key: it sets a new key in a full cache, which then no longer has it. -/
def LruOp.Evicts (cache : LruCache T V) (op : LruOp K V) (key : K) : Prop :=
  ∃ key' value cache', op = .set key' value ∧ lruHas cache key' = false ∧
    cache.capacity ≤ lruSize cache ∧ lruSet cache key' value = .ok cache' ∧
    lruHas cache key = true ∧ lruHas cache' key = false

/-! ### The entries of a cache -/

namespace LruCache

variable {cache : LruCache T V} {key : K} {value : V} {stamp : ℤ} {a : ℕ}

/-- The value and the timestamp of a key. -/
def entry (cache : LruCache T V) (key : K) : Option (V × ℤ) :=
  (FiniteMap.ref cache.table key).bind fun a => cache.pairs[a]?

/-- The entries of the keys are allocated, and no two keys share one. -/
structure WellFormed (cache : LruCache T V) : Prop where
  allocated : ∀ {key : K} {a : ℕ}, FiniteMap.ref cache.table key = some a → a < cache.pairs.length
  separate : ∀ {key key' : K} {a : ℕ}, FiniteMap.ref cache.table key = some a →
    FiniteMap.ref cache.table key' = some a → key = key'

theorem WellFormed.pair (h : cache.WellFormed) (ha : FiniteMap.ref cache.table key = some a) :
    ∃ pair, cache.pairs[a]? = some pair ∧ cache.entry key = some pair := by
  have hpair := List.getElem?_eq_getElem (h.allocated ha)
  refine ⟨_, hpair, ?_⟩
  rw [entry, ha, Option.bind_some, hpair]

theorem WellFormed.lruHas_eq (h : cache.WellFormed) (key : K) :
    lruHas cache key = (cache.entry key).isSome := by
  unfold lruHas
  cases ha : FiniteMap.ref cache.table key with
  | none =>
    rw [entry, ha, Option.bind_none]
    rfl
  | some a =>
    obtain ⟨pair, -, hentry⟩ := h.pair ha
    rw [hentry]
    rfl

theorem WellFormed.write (h : cache.WellFormed) (ha : FiniteMap.ref cache.table key = some a)
    (pair : V × ℤ) (counter : ℤ) :
    let cache' : LruCache T V := { cache with counter := counter, pairs := cache.pairs.set a pair }
    cache'.WellFormed ∧ ∀ key', cache'.entry key' =
      if key' = key then some pair else cache.entry key' := by
  refine ⟨⟨fun hb => ?_, h.separate⟩, fun key' => ?_⟩
  · rw [List.length_set]
    exact h.allocated hb
  · by_cases hkey : key' = key
    · rw [if_pos hkey, entry, hkey, ha, Option.bind_some]
      exact List.getElem?_set_self (h.allocated ha)
    · rw [if_neg hkey]
      unfold entry
      change (FiniteMap.ref cache.table key').bind _ = _
      cases hb : FiniteMap.ref cache.table key' with
      | none => rfl
      | some b =>
        have hne : a ≠ b := by
          rintro rfl
          exact hkey (h.separate hb ha)
        exact List.getElem?_set_ne hne

theorem WellFormed.cons (h : cache.WellFormed) (key : K) (pair : V × ℤ) (counter : ℤ) :
    let cache' : LruCache T V := { cache with
      counter := counter
      pairs := cache.pairs ++ [pair]
      table := FiniteMap.set cache.table key cache.pairs.length }
    cache'.WellFormed ∧ ∀ key', cache'.entry key' =
      if key' = key then some pair else cache.entry key' := by
  have hrefs {key' : K} {b : ℕ}
      (hb : FiniteMap.ref (FiniteMap.set cache.table key cache.pairs.length) key' = some b) :
      (key' = key ∧ b = cache.pairs.length) ∨
        (b < cache.pairs.length ∧ FiniteMap.ref cache.table key' = some b) := by
    rw [FiniteMap.ref_set] at hb
    split at hb
    next hkey => exact .inl ⟨hkey, (Option.some.inj hb).symm⟩
    next => exact .inr ⟨h.allocated hb, hb⟩
  refine ⟨⟨fun hb => ?_, fun hb hc => ?_⟩, fun key' => ?_⟩
  · rw [List.length_append, List.length_singleton]
    rcases hrefs hb with ⟨-, rfl⟩ | ⟨hlt, -⟩ <;> omega
  · rcases hrefs hb with ⟨rfl, rfl⟩ | ⟨hlt, hb⟩
    · rcases hrefs hc with ⟨rfl, -⟩ | ⟨hlt, -⟩
      · rfl
      · omega
    · rcases hrefs hc with ⟨rfl, rfl⟩ | ⟨-, hc⟩
      · omega
      · exact h.separate hb hc
  · unfold entry
    change (FiniteMap.ref (FiniteMap.set cache.table key cache.pairs.length) key').bind _ = _
    rw [FiniteMap.ref_set]
    by_cases hkey : key' = key
    · rw [if_pos hkey, if_pos hkey, Option.bind_some]
      exact List.getElem?_concat_length
    · rw [if_neg hkey, if_neg hkey]
      cases hb : FiniteMap.ref cache.table key' with
      | none => rfl
      | some b => exact List.getElem?_append_left (h.allocated hb)

theorem WellFormed.remove (h : cache.WellFormed) {table : T} {gone : K → Prop} [DecidablePred gone]
    (hrefs : ∀ key, FiniteMap.ref table key =
      if gone key then none else FiniteMap.ref cache.table key) :
    let cache' : LruCache T V := { cache with table := table }
    cache'.WellFormed ∧ ∀ key', cache'.entry key' =
      if gone key' then none else cache.entry key' := by
  have hold {key : K} {a : ℕ} (ha : FiniteMap.ref table key = some a) :
      FiniteMap.ref cache.table key = some a := by
    rw [hrefs] at ha
    split at ha
    next => simp at ha
    next => exact ha
  refine ⟨⟨fun ha => h.allocated (hold ha), fun ha hb => h.separate (hold ha) (hold hb)⟩,
    fun key' => ?_⟩
  unfold entry
  change (FiniteMap.ref table key').bind _ = _
  rw [hrefs]
  split
  next => rfl
  next => rfl

/-! ### The operations -/

theorem WellFormed.lruGetDefault_eq (h : cache.WellFormed)
    (ha : FiniteMap.ref cache.table key = some a) (hentry : cache.entry key = some (value, stamp))
    (default : V) :
    lruGetDefault cache key default = .ok (value, { cache with
      counter := cache.counter + 1
      pairs := cache.pairs.set a (value, cache.counter + 1) }) := by
  obtain ⟨pair, hpair, hentry'⟩ := h.pair ha
  obtain rfl := Option.some.inj (hentry'.symm.trans hentry)
  have hset : (cache.pairs.set a (value, cache.counter + 1))[a]? =
      some (value, cache.counter + 1) := List.getElem?_set_self (h.allocated ha)
  simp only [lruGetDefault, ha, lruTick, setCdr, entryAt, hpair, hset, ok_bind]

theorem lruGetDefault_miss (ha : FiniteMap.ref cache.table key = none) (default : V) :
    lruGetDefault cache key default = .ok (default, cache) := by
  rw [lruGetDefault, ha]

theorem WellFormed.lruSet_hit (h : cache.WellFormed)
    (ha : FiniteMap.ref cache.table key = some a) (value : V) :
    lruSet cache key value = .ok { cache with
      counter := cache.counter + 1
      pairs := cache.pairs.set a (value, cache.counter + 1) } := by
  obtain ⟨pair, hpair, -⟩ := h.pair ha
  have hset : (cache.pairs.set a (value, pair.2))[a]? = some (value, pair.2) :=
    List.getElem?_set_self (h.allocated ha)
  simp only [lruSet, ha, lruTick, setCar, setCdr, entryAt, hpair, hset, ok_bind, List.set_set]

theorem WellFormed.lruStamp_eq (h : cache.WellFormed)
    (hentry : cache.entry key = some (value, stamp)) : lruStamp cache key = .ok stamp := by
  unfold lruStamp
  cases ha : FiniteMap.ref cache.table key with
  | none => simp [entry, ha] at hentry
  | some a =>
    obtain ⟨pair, hpair, hentry'⟩ := h.pair ha
    obtain rfl := Option.some.inj (hentry'.symm.trans hentry)
    simp only [entryAt, hpair, ok_bind]

/-- The loop evicts an entry with the least stamp. -/
theorem WellFormed.lruEvictLoop_spec (h : cache.WellFormed) {rest : List K} {oldest : K}
    (hrest : ∀ key ∈ rest, (cache.entry key).isSome)
    (holdest : cache.entry oldest = some (value, stamp)) :
    ∃ key value' stamp', cache.entry key = some (value', stamp') ∧
      (∀ key' ∈ oldest :: rest, ∀ v t, cache.entry key' = some (v, t) → stamp' ≤ t) ∧
      lruEvictLoop cache rest oldest stamp =
        .ok { cache with table := FiniteMap.delete cache.table key } := by
  induction rest generalizing oldest value stamp with
  | nil =>
    refine ⟨oldest, value, stamp, holdest, fun key' hkey' v t ht => ?_, rfl⟩
    rw [List.mem_singleton.mp hkey', holdest] at ht
    rw [(Prod.mk.inj (Option.some.inj ht)).2]
  | cons key rest ih =>
    obtain ⟨⟨v, ts⟩, hkey⟩ := Option.isSome_iff_exists.mp (hrest key List.mem_cons_self)
    have htail := fun key' hkey' => hrest key' (List.mem_cons_of_mem _ hkey')
    rw [lruEvictLoop, h.lruStamp_eq hkey, ok_bind]
    by_cases hlt : ts < stamp
    · obtain ⟨k, v', t', hk, hmin, hloop⟩ := ih htail hkey
      refine ⟨k, v', t', hk, ?_, by rw [if_pos hlt, hloop]⟩
      intro key' hkey' w u hu
      rcases List.mem_cons.mp hkey' with rfl | hkey'
      · obtain ⟨-, rfl⟩ := Prod.mk.inj (Option.some.inj (holdest.symm.trans hu))
        exact (hmin key List.mem_cons_self v ts hkey).trans hlt.le
      · exact hmin key' hkey' w u hu
    · obtain ⟨k, v', t', hk, hmin, hloop⟩ := ih htail holdest
      refine ⟨k, v', t', hk, ?_, by rw [if_neg hlt, hloop]⟩
      intro key' hkey' w u hu
      rcases List.mem_cons.mp hkey' with rfl | hkey'
      · exact hmin key' List.mem_cons_self w u hu
      · rcases List.mem_cons.mp hkey' with rfl | hkey'
        · obtain ⟨-, rfl⟩ := Prod.mk.inj (Option.some.inj (hkey.symm.trans hu))
          exact (hmin oldest List.mem_cons_self value stamp holdest).trans (not_lt.mp hlt)
        · exact hmin key' (List.mem_cons_of_mem _ hkey') w u hu

/-- The entry has the lowest timestamp of the cache. -/
def Oldest (cache : LruCache T V) (oldest : K) : Prop :=
  ∃ value stamp, cache.entry oldest = some (value, stamp) ∧
    ∀ key v t, cache.entry key = some (v, t) → stamp ≤ t

theorem WellFormed.lruEvictOldest_spec (h : cache.WellFormed) (hsize : 1 ≤ lruSize cache) :
    ∃ oldest, cache.Oldest oldest ∧ lruEvictOldest cache =
      .ok { cache with table := FiniteMap.delete cache.table oldest } := by
  have hkeys (key : K) : key ∈ FiniteMap.keys cache.table ↔ (cache.entry key).isSome := by
    rw [FiniteMap.mem_keys, ← h.lruHas_eq]
    rfl
  rw [lruSize, FiniteMap.size_eq] at hsize
  unfold lruEvictOldest
  cases hlist : FiniteMap.keys cache.table with
  | nil => simp [hlist] at hsize
  | cons first rest =>
    rw [hlist] at hkeys
    obtain ⟨⟨v, t⟩, hfirst⟩ := Option.isSome_iff_exists.mp ((hkeys first).mp List.mem_cons_self)
    have hrest := fun key hkey => (hkeys key).mp (List.mem_cons_of_mem _ hkey)
    obtain ⟨oldest, v', t', holdest, hmin, hloop⟩ := h.lruEvictLoop_spec hrest hfirst
    refine ⟨oldest, ⟨v', t', holdest, fun key v t hkey => ?_⟩, ?_⟩
    · exact hmin key ((hkeys key).mpr (by rw [hkey]; rfl)) v t hkey
    · simp only [h.lruStamp_eq hfirst, ok_bind, hloop]

/-! ### One step -/

/-- The cache holds no more keys than it may. -/
structure Bounded (cache : LruCache T V) : Prop extends cache.WellFormed where
  positive : 1 ≤ cache.capacity
  size_le : lruSize cache ≤ cache.capacity

theorem Bounded.write (h : cache.Bounded) (ha : FiniteMap.ref cache.table key = some a)
    (pair : V × ℤ) (counter : ℤ) :
    { cache with counter := counter, pairs := cache.pairs.set a pair : LruCache T V }.Bounded :=
  ⟨(h.toWellFormed.write ha pair counter).1, h.positive, h.size_le⟩

theorem Bounded.lruSet_room (h : cache.Bounded)
    (hroom : lruHas cache key = true ∨ lruSize cache < cache.capacity) (value : V) :
    ∃ cache', lruSet cache key value = .ok cache' ∧ cache'.Bounded ∧
      cache'.capacity = cache.capacity ∧ cache'.counter = cache.counter + 1 ∧
      ∀ key', cache'.entry key' =
        if key' = key then some (value, cache.counter + 1) else cache.entry key' := by
  cases ha : FiniteMap.ref cache.table key with
  | some a =>
    exact ⟨_, h.lruSet_hit ha value, h.write ha _ _, rfl, rfl, (h.toWellFormed.write ha _ _).2⟩
  | none =>
    have hless : ¬ cache.capacity ≤ lruSize cache := by
      rw [lruHas, ha] at hroom
      simpa using hroom
    obtain ⟨hwf, hentry⟩ := h.toWellFormed.cons key (value, cache.counter + 1) (cache.counter + 1)
    refine ⟨_, ?_, ⟨hwf, h.positive, ?_⟩, rfl, rfl, hentry⟩
    · simp only [lruSet, ha, if_neg hless, lruTick, ok_bind]
    · have hsize := FiniteMap.size_set cache.pairs.length ha
      change ((FiniteMap.size (FiniteMap.set cache.table key cache.pairs.length) : ℕ) : ℤ) ≤
        cache.capacity
      rw [hsize]
      have hlt := not_le.mp hless
      rw [lruSize] at hlt
      omega

/-- A full cache evicts its oldest entry. -/
theorem Bounded.lruSet_full (h : cache.Bounded) (hnew : lruHas cache key = false)
    (hfull : cache.capacity ≤ lruSize cache) (value : V) :
    ∃ oldest cache', cache.Oldest oldest ∧ lruSet cache key value = .ok cache' ∧ cache'.Bounded ∧
      cache'.capacity = cache.capacity ∧ cache'.counter = cache.counter + 1 ∧
      ∀ key', cache'.entry key' =
        if key' = key then some (value, cache.counter + 1)
        else if key' = oldest then none else cache.entry key' := by
  have hpositive := h.positive
  have ha : FiniteMap.ref cache.table key = none := by simpa [lruHas] using hnew
  obtain ⟨oldest, holdest, hevict⟩ := h.lruEvictOldest_spec (by omega)
  have hhas : (FiniteMap.ref cache.table oldest).isSome := by
    obtain ⟨v, t, hentry, -⟩ := holdest
    have := h.lruHas_eq oldest
    rwa [hentry] at this
  have hne : key ≠ oldest := by
    rintro rfl
    rw [ha] at hhas
    simp at hhas
  obtain ⟨hwf, hentry⟩ := h.toWellFormed.remove (FiniteMap.ref_delete cache.table oldest)
  obtain ⟨hwf', hentry'⟩ := hwf.cons key (value, cache.counter + 1) (cache.counter + 1)
  refine ⟨oldest, _, holdest, ?_, ⟨hwf', h.positive, ?_⟩, rfl, rfl, fun key' => ?_⟩
  · simp only [lruSet, ha, if_pos hfull, hevict, lruTick, ok_bind]
  · have hdelete := FiniteMap.size_delete hhas
    have hset := FiniteMap.size_set (t := FiniteMap.delete cache.table oldest)
      cache.pairs.length (by rw [FiniteMap.ref_delete, if_neg hne, ha])
    have hsize := h.size_le
    change ((FiniteMap.size (FiniteMap.set (FiniteMap.delete cache.table oldest) key
      cache.pairs.length) : ℕ) : ℤ) ≤ _
    rw [lruSize] at hsize
    rw [hset, hdelete]
    exact hsize
  · rw [hentry', hentry]

theorem Bounded.entry_lruSet {cache' : LruCache T V} (h : cache.Bounded)
    (hset : lruSet cache key value = .ok cache') :
    cache'.entry key = some (value, cache.counter + 1) := by
  by_cases hroom : lruHas cache key = true ∨ lruSize cache < cache.capacity
  · obtain ⟨cache'', hset', -, -, -, hentry⟩ := h.lruSet_room hroom value
    obtain rfl := Except.ok.inj (hset'.symm.trans hset)
    rw [hentry, if_pos rfl]
  · obtain ⟨hnew, hfull⟩ := not_or.mp hroom
    obtain ⟨oldest, cache'', -, hset', -, -, -, hentry⟩ :=
      h.lruSet_full (Bool.not_eq_true _ ▸ hnew) (not_lt.mp hfull) value
    obtain rfl := Except.ok.inj (hset'.symm.trans hset)
    rw [hentry, if_pos rfl]

/-- What the use of a key, or of none, does to the counter and the entries: entries may go, but
none is stamped but that of the used key. -/
def Advances (cache cache' : LruCache T V) : Option K → Prop
  | none => cache'.counter = cache.counter ∧
      ∀ key pair, cache'.entry key = some pair → cache.entry key = some pair
  | some key => cache'.counter = cache.counter + 1 ∧
      (∃ value, cache'.entry key = some (value, cache.counter + 1)) ∧
      ∀ key' ≠ key, ∀ pair, cache'.entry key' = some pair → cache.entry key' = some pair

/-- The value of a key is the same in both caches. -/
def Keeps (cache cache' : LruCache T V) (key : K) : Prop :=
  ∀ value stamp, cache.entry key = some (value, stamp) →
    ∃ stamp', cache'.entry key = some (value, stamp')

theorem advances_of_write {cache' : LruCache T V} {rest : K → Option (V × ℤ)}
    (hcounter : cache'.counter = cache.counter + 1)
    (hentry : ∀ key', cache'.entry key' =
      if key' = key then some (value, cache.counter + 1) else rest key')
    (hrest : ∀ key' pair, rest key' = some pair → cache.entry key' = some pair) :
    cache.Advances cache' (some key) := by
  refine ⟨hcounter, ⟨value, by rw [hentry, if_pos rfl]⟩, fun key' hne pair hpair => ?_⟩
  rw [hentry, if_neg hne] at hpair
  exact hrest key' pair hpair

theorem Bounded.apply_set (h : cache.Bounded) (key : K) (value : V) :
    ∃ cache', lruSet cache key value = .ok cache' ∧ cache'.Bounded ∧
      cache'.capacity = cache.capacity ∧ cache.Advances cache' (some key) ∧
      ∀ key', ¬ (LruOp.set key value).Renews key' → ¬ (LruOp.set key value).Evicts cache key' →
        cache.Keeps cache' key' := by
  by_cases hroom : lruHas cache key = true ∨ lruSize cache < cache.capacity
  · obtain ⟨cache', hset, hbounded, hcapacity, hcounter, hentry⟩ := h.lruSet_room hroom value
    refine ⟨cache', hset, hbounded, hcapacity, ?_, fun key' hne _ v t hkey' => ⟨t, ?_⟩⟩
    · exact advances_of_write hcounter hentry fun _ _ hpair => hpair
    · rw [hentry, if_neg fun heq => hne heq.symm, hkey']
  · obtain ⟨hnew, hfull⟩ := not_or.mp hroom
    rw [Bool.not_eq_true] at hnew
    obtain ⟨oldest, cache', -, hset, hbounded, hcapacity, hcounter, hentry⟩ :=
      h.lruSet_full hnew (not_lt.mp hfull) value
    refine ⟨cache', hset, hbounded, hcapacity, advances_of_write hcounter hentry ?_,
      fun key' hne hevicts v t hkey' => ⟨t, ?_⟩⟩
    · intro key' pair hpair
      split at hpair
      next => simp at hpair
      next => exact hpair
    have hne' : key' ≠ key := fun heq => hne heq.symm
    have hkept : key' ≠ oldest := by
      rintro rfl
      refine hevicts ⟨key, value, cache', rfl, hnew, not_lt.mp hfull, hset, ?_, ?_⟩
      · rw [h.lruHas_eq, hkey']
        rfl
      · rw [hbounded.lruHas_eq, hentry, if_neg hne', if_pos rfl]
        rfl
    rw [hentry, if_neg hne', if_neg hkept, hkey']

theorem Bounded.apply_get (h : cache.Bounded) (key : K) (default : V) :
    ∃ value cache', lruGetDefault cache key default = .ok (value, cache') ∧ cache'.Bounded ∧
      cache'.capacity = cache.capacity ∧
      cache.Advances cache' (if lruHas cache key then some key else none) ∧
      ∀ key', cache.Keeps cache' key' := by
  cases ha : FiniteMap.ref cache.table key with
  | none =>
    refine ⟨default, cache, lruGetDefault_miss ha default, h, rfl, ?_, fun key' v t hkey' => ?_⟩
    · rw [lruHas, ha]
      exact ⟨rfl, fun _ _ hpair => hpair⟩
    · exact ⟨t, hkey'⟩
  | some a =>
    obtain ⟨⟨value, stamp⟩, -, hkey⟩ := h.pair ha
    have hentry := (h.toWellFormed.write ha (value, cache.counter + 1) (cache.counter + 1)).2
    refine ⟨value, _, h.lruGetDefault_eq ha hkey default, h.write ha _ _, rfl, ?_,
      fun key' v t hkey' => ?_⟩
    · rw [lruHas, ha]
      exact advances_of_write rfl hentry fun _ _ hpair => hpair
    · rw [hentry]
      split
      next heq =>
        rw [heq, hkey] at hkey'
        obtain ⟨rfl, -⟩ := Prod.mk.inj (Option.some.inj hkey')
        exact ⟨_, rfl⟩
      next => exact ⟨t, hkey'⟩

theorem Bounded.remove (h : cache.Bounded) {table : T} {gone : K → Prop} [DecidablePred gone]
    (hrefs : ∀ key, FiniteMap.ref table key =
      if gone key then none else FiniteMap.ref cache.table key)
    (hsize : FiniteMap.size table ≤ FiniteMap.size cache.table) :
    let cache' : LruCache T V := { cache with table := table }
    cache'.Bounded ∧ cache.Advances cache' none ∧ ∀ key', ¬ gone key' → cache.Keeps cache' key' := by
  obtain ⟨hwf, hentry⟩ := h.toWellFormed.remove hrefs
  have hle := h.size_le
  refine ⟨⟨hwf, h.positive, ?_⟩, ⟨rfl, fun key' pair hpair => ?_⟩, fun key' hkey' v t hpair => ?_⟩
  · exact (Int.ofNat_le.mpr hsize).trans hle
  · rw [hentry] at hpair
    split at hpair
    next => simp at hpair
    next => exact hpair
  · exact ⟨t, by rw [hentry, if_neg hkey', hpair]⟩

/-- Every operation returns; it stamps the key it uses, and keeps the values of those that it
neither sets, deletes nor evicts. -/
theorem Bounded.apply (h : cache.Bounded) (op : LruOp K V) :
    ∃ cache', op.apply cache = .ok cache' ∧ cache'.Bounded ∧
      cache'.capacity = cache.capacity ∧ cache.Advances cache' (op.uses cache) ∧
      ∀ key, ¬ op.Renews key → ¬ op.Evicts cache key → cache.Keeps cache' key := by
  cases op with
  | set key value => exact h.apply_set key value
  | get key default =>
    obtain ⟨value, cache', hget, hbounded, hcapacity, hadvances, hkeeps⟩ := h.apply_get key default
    refine ⟨cache', ?_, hbounded, hcapacity, hadvances, fun key' _ _ => hkeeps key'⟩
    rw [LruOp.apply, hget, ok_bind]
  | delete key =>
    by_cases hhas : lruHas cache key
    · obtain ⟨hbounded, hadvances, hkeeps⟩ := h.remove (FiniteMap.ref_delete cache.table key)
        (by rw [← FiniteMap.size_delete hhas]; exact Nat.le_succ _)
      refine ⟨_, rfl, ?_⟩
      rw [lruDelete, if_pos hhas]
      exact ⟨hbounded, rfl, hadvances, fun key' hne _ => hkeeps key' fun heq => hne heq.symm⟩
    · refine ⟨_, rfl, ?_⟩
      rw [lruDelete, if_neg hhas]
      exact ⟨h, rfl, ⟨rfl, fun _ _ hpair => hpair⟩, fun key' _ _ v t hkey' => ⟨t, hkey'⟩⟩
  | clear =>
    have hrefs (key : K) : FiniteMap.ref (FiniteMap.clear cache.table) key =
        if True then none else FiniteMap.ref cache.table key := by
      rw [FiniteMap.ref_clear, if_pos trivial]
    obtain ⟨hbounded, hadvances, -⟩ := h.remove hrefs
      (by rw [FiniteMap.size_clear]; exact Nat.zero_le _)
    exact ⟨_, rfl, hbounded, rfl, hadvances, fun key' hne => absurd trivial hne⟩

/-! ### Whole runs -/

variable {cache' : LruCache T V} {used : List (Option K)}

/-- After uses, of which the last is the first of the list: every entry is that of a key that has
been used, and the longer ago that was, the lower is its timestamp. -/
structure Stamped (cache : LruCache T V) (used : List (Option K)) : Prop where
  bound : ∀ {key : K} {v : V} {t : ℤ}, cache.entry key = some (v, t) → t ≤ cache.counter
  mem : ∀ {key : K} {pair : V × ℤ}, cache.entry key = some pair → some key ∈ used
  order : ∀ {key key' : K} {v v' : V} {t t' : ℤ}, cache.entry key = some (v, t) →
    cache.entry key' = some (v', t') → used.idxOf (some key') < used.idxOf (some key) → t < t'

/-- A use that advances the cache is the newest one. -/
theorem Stamped.advance {use : Option K} (h : cache.Stamped used)
    (hadvances : cache.Advances cache' use) : cache'.Stamped (use :: used) := by
  cases use with
  | none =>
    obtain ⟨hcounter, hold⟩ := hadvances
    refine ⟨fun hkey => ?_, fun hkey => ?_, fun hkey hkey' hage => ?_⟩
    · rw [hcounter]
      exact h.bound (hold _ _ hkey)
    · exact List.mem_cons_of_mem _ (h.mem (hold _ _ hkey))
    · rw [List.idxOf_cons_ne _ (by simp), List.idxOf_cons_ne _ (by simp)] at hage
      exact h.order (hold _ _ hkey) (hold _ _ hkey') (Nat.lt_of_succ_lt_succ hage)
  | some used' =>
    obtain ⟨hcounter, ⟨value, hused⟩, hold⟩ := hadvances
    refine ⟨fun {key v t} hkey => ?_, fun {key pair} hkey => ?_,
      fun {key key' v v' t t'} hkey hkey' hage => ?_⟩
    · by_cases heq : key = used'
      · rw [heq, hused] at hkey
        rw [hcounter, (Prod.mk.inj (Option.some.inj hkey)).2]
      · exact (h.bound (hold key heq _ hkey)).trans (by rw [hcounter]; omega)
    · by_cases heq : key = used'
      · rw [heq]
        exact List.mem_cons_self
      · exact List.mem_cons_of_mem _ (h.mem (hold key heq _ hkey))
    · -- the key that was used just now is not the older of the two
      have hne : key ≠ used' := by
        rintro rfl
        rw [List.idxOf_cons_self] at hage
        exact absurd hage (Nat.not_lt_zero _)
      by_cases heq : key' = used'
      · rw [heq, hused] at hkey'
        rw [← (Prod.mk.inj (Option.some.inj hkey')).2]
        exact Int.lt_add_one_of_le (h.bound (hold key hne _ hkey))
      · rw [List.idxOf_cons_ne _ fun hsome => hne (Option.some.inj hsome).symm,
          List.idxOf_cons_ne _ fun hsome => heq (Option.some.inj hsome).symm] at hage
        exact h.order (hold key hne _ hkey) (hold key' heq _ hkey') (Nat.lt_of_succ_lt_succ hage)

theorem Stamped.oldest {oldest : K} (h : cache.Stamped used) (holdest : cache.Oldest oldest)
    {pair : V × ℤ} (hkey : cache.entry key = some pair) (hne : key ≠ oldest) :
    used.idxOf (some key) < used.idxOf (some oldest) := by
  obtain ⟨value, stamp, hentry, hmin⟩ := holdest
  have hle := hmin key pair.1 pair.2 hkey
  refine lt_of_le_of_ne (not_lt.mp fun hlt => ?_) fun heq => ?_
  · exact absurd (h.order hkey hentry hlt) (not_lt.mpr hle)
  · exact hne (Option.some.inj ((List.idxOf_inj (h.mem hkey)).mp heq))

theorem makeLruCache_spec {capacity : ℤ} (hcapacity : 1 ≤ capacity) :
    ∃ start : LruCache T V, makeLruCache capacity = .ok start ∧ start.Bounded ∧
      start.capacity = capacity ∧ start.Stamped ([] : List (Option K)) := by
  have hempty (key : K) : (⟨capacity, 0, FiniteMap.make, []⟩ : LruCache T V).entry key = none := by
    rw [entry, FiniteMap.ref_make, Option.bind_none]
  refine ⟨⟨capacity, 0, FiniteMap.make, []⟩, if_neg (by omega), ⟨⟨?_, ?_⟩, hcapacity, ?_⟩, rfl,
    ⟨?_, ?_, ?_⟩⟩
  · intro key a ha
    rw [FiniteMap.ref_make] at ha
    simp at ha
  · intro key key' a ha
    rw [FiniteMap.ref_make] at ha
    simp at ha
  · have hkeys : FiniteMap.keys (FiniteMap.make : T) = [] := by
      refine List.eq_nil_iff_forall_not_mem.mpr fun key hkey => ?_
      rw [FiniteMap.mem_keys, FiniteMap.ref_make] at hkey
      simp at hkey
    change ((FiniteMap.size (FiniteMap.make : T) : ℕ) : ℤ) ≤ capacity
    rw [FiniteMap.size_eq, hkeys, List.length_nil]
    omega
  all_goals intros; simp_all

theorem Bounded.run (h : cache.Bounded) (hstamped : cache.Stamped ([] : List (Option K)))
    (ops : List (LruOp K V)) :
    ∃ cache' used, lruRun cache ops = .ok (cache', used) ∧ cache'.Bounded ∧
      cache'.capacity = cache.capacity ∧ cache'.Stamped used := by
  induction ops with
  | nil => exact ⟨cache, [], rfl, h, rfl, hstamped⟩
  | cons op ops ih =>
    obtain ⟨cache', used, hrun, hbounded, hcapacity, hstamped'⟩ := ih
    obtain ⟨cache'', happly, hbounded', hcapacity', hadvances, -⟩ := hbounded.apply op
    refine ⟨cache'', op.uses cache' :: used, ?_, hbounded', hcapacity'.trans hcapacity,
      hstamped'.advance hadvances⟩
    simp only [lruRun, hrun, happly, ok_bind]

theorem lruRun_cons {op : LruOp K V} {ops : List (LruOp K V)}
    (h : lruRun cache (op :: ops) = .ok (cache', used)) :
    ∃ past used', lruRun cache ops = .ok (past, used') ∧ op.apply past = .ok cache' := by
  rw [lruRun] at h
  obtain ⟨⟨past, used'⟩, hpast, h⟩ := bind_eq_ok.mp h
  obtain ⟨cache'', happly, h⟩ := bind_eq_ok.mp h
  obtain ⟨rfl, -⟩ := Prod.mk.inj (Except.ok.inj h)
  exact ⟨past, used', hpast, happly⟩

theorem Bounded.run_keeps (h : cache.Bounded) (hstamped : cache.Stamped ([] : List (Option K)))
    {key : K} {value : V} {before after : List (LruOp K V)}
    (hkept : ∀ later op past cache' used', after = later ++ op :: past →
      lruRun cache (past ++ .set key value :: before) = .ok (cache', used') →
        ¬ op.Renews key ∧ ¬ op.Evicts cache' key)
    (hrun : lruRun cache (after ++ .set key value :: before) = .ok (cache', used)) :
    ∃ stamp, cache'.entry key = some (value, stamp) := by
  induction after generalizing cache' used with
  | nil =>
    obtain ⟨past, used', hpast, hset⟩ := lruRun_cons hrun
    obtain ⟨_, _, hpast', hbounded, -, -⟩ := h.run hstamped before
    obtain ⟨rfl, -⟩ := Prod.mk.inj (Except.ok.inj (hpast.symm.trans hpast'))
    exact ⟨_, hbounded.entry_lruSet hset⟩
  | cons op after ih =>
    obtain ⟨past, used', hpast, happly⟩ := lruRun_cons hrun
    obtain ⟨_, _, hpast', hbounded, -, -⟩ := h.run hstamped (after ++ .set key value :: before)
    obtain ⟨rfl, -⟩ := Prod.mk.inj (Except.ok.inj (hpast.symm.trans hpast'))
    obtain ⟨stamp, hentry⟩ := ih (fun later op' past' cache' used' hsplit => hkept (op :: later)
      op' past' cache' used' (by rw [hsplit, List.cons_append])) hpast
    obtain ⟨hrenews, hevicts⟩ := hkept [] op after past used' rfl hpast
    obtain ⟨_, happly', -, -, -, hkeeps⟩ := hbounded.apply op
    obtain rfl := Except.ok.inj (happly.symm.trans happly')
    exact hkeeps key hrenews hevicts value stamp hentry

end LruCache

/-- **The least recently used key goes.** After any operations on a new cache: it holds no more
keys than it may; a read returns the value that was last set for a key that has since been neither
deleted nor evicted; and a new key in a full cache evicts exactly the key whose last use, a set or
a read that found it, is the longest ago. -/
theorem lruCache_spec {capacity : ℤ} (hcapacity : 1 ≤ capacity) (ops : List (LruOp K V)) :
    ∃ (start cache : LruCache T V) (used : List (Option K)),
      makeLruCache capacity = .ok start ∧ lruRun start ops = .ok (cache, used) ∧
      lruSize cache ≤ capacity ∧
      (∀ after key value before, ops = after ++ .set key value :: before →
        (∀ later op past cache' used', after = later ++ op :: past →
          lruRun start (past ++ .set key value :: before) = .ok (cache', used') →
            ¬ op.Renews key ∧ ¬ op.Evicts cache' key) →
        ∀ default, ∃ cache', lruGetDefault cache key default = .ok (value, cache')) ∧
      ∀ key value, lruHas cache key = false → capacity ≤ lruSize cache →
        ∃ oldest cache', lruSet cache key value = .ok cache' ∧ lruHas cache oldest = true ∧
          (∀ key', lruHas cache key' = true → key' ≠ oldest →
            used.idxOf (some key') < used.idxOf (some oldest)) ∧
          ∀ key', lruHas cache' key' = true ↔
            key' = key ∨ (lruHas cache key' = true ∧ key' ≠ oldest) := by
  obtain ⟨start, hmake, hstart, rfl, hempty⟩ := LruCache.makeLruCache_spec (T := T) (V := V) hcapacity
  obtain ⟨cache, used, hrun, hbounded, hcap, hstamped⟩ := hstart.run hempty ops
  refine ⟨start, cache, used, hmake, hrun, hcap ▸ hbounded.size_le, ?_, ?_⟩
  · rintro after key value before rfl hkept default
    obtain ⟨stamp, hentry⟩ := hstart.run_keeps hempty hkept hrun
    cases ha : FiniteMap.ref cache.table key with
    | none => simp [LruCache.entry, ha] at hentry
    | some a => exact ⟨_, hbounded.lruGetDefault_eq ha hentry default⟩
  · intro key value hnew hfull
    obtain ⟨oldest, cache', holdest, hset, hbounded', -, -, hentry⟩ :=
      hbounded.lruSet_full hnew (hcap ▸ hfull) value
    have hhas : lruHas cache oldest = true := by
      obtain ⟨v, t, hold, -⟩ := holdest
      rw [hbounded.lruHas_eq, hold]
      rfl
    refine ⟨oldest, cache', hset, hhas, fun key' hkey' hne => ?_, fun key' => ?_⟩
    · rw [hbounded.lruHas_eq] at hkey'
      obtain ⟨pair, hpair⟩ := Option.isSome_iff_exists.mp hkey'
      exact hstamped.oldest holdest hpair hne
    · rw [hbounded'.lruHas_eq, hentry, hbounded.lruHas_eq]
      by_cases hkey : key' = key
      · simp [hkey]
      · by_cases hold : key' = oldest
        · simp [hold]
        · simp [hkey, hold]

/-- Association lists without duplicate keys implement finite maps. -/
instance AList.instFiniteMap {A : Type} : FiniteMap (AList fun _ : K => A) K A where
  make := ∅
  ref t key := t.lookup key
  set t key a := t.insert key a
  delete t key := t.erase key
  clear _ := ∅
  size t := t.keys.length
  keys t := t.keys
  ref_make key := AList.lookup_empty key
  ref_set t key a key' := by
    split
    next h => rw [h, AList.lookup_insert]
    next h => rw [AList.lookup_insert_ne h]
  ref_delete t key key' := by
    split
    next h => rw [h, AList.lookup_erase]
    next h => rw [AList.lookup_erase_ne h]
  ref_clear _ key := AList.lookup_empty key
  nodup_keys t := t.keys_nodup
  mem_keys t key := by rw [AList.lookup_isSome]; rfl
  size_eq _ := rfl

/-- In a cache of two keys, the one that was set last goes when the other has been read since. -/
theorem lruCache_spec_two :
    ∃ cache cache' : LruCache (AList fun _ : ℕ => ℕ) ℕ, ∃ used,
      lruRun ⟨2, 0, ∅, []⟩ [.get 1 0, .set 2 20, .set 1 10] = .ok (cache, used) ∧
      lruSet cache 3 30 = .ok cache' ∧ lruHas cache' 1 = true ∧ lruHas cache' 2 = false := by
  obtain ⟨start, cache, used, hmake, hrun, -, -, hevict⟩ :=
    lruCache_spec (T := AList fun _ : ℕ => ℕ) (show (1 : ℤ) ≤ 2 by omega)
      [.get 1 0, .set 2 20, .set 1 10]
  obtain rfl := Except.ok.inj hmake
  obtain ⟨rfl, rfl⟩ := Prod.mk.inj (Except.ok.inj hrun)
  obtain ⟨oldest, cache', hset, hhas, hage, hkeys⟩ := hevict 3 30 rfl (by decide)
  have holdest : oldest = 2 := by
    have hmem : oldest ∈ [2, 1] := (FiniteMap.mem_keys _ oldest).mpr hhas
    rcases List.mem_pair.mp hmem with rfl | rfl
    · rfl
    · exact absurd (hage 2 rfl (by decide)) (by decide)
  subst holdest
  refine ⟨_, cache', _, rfl, hset, ?_, ?_⟩
  · exact (hkeys 1).mpr (.inr ⟨rfl, by decide⟩)
  · rw [← Bool.not_eq_true, hkeys 2]
    decide

end Eshkol.Core
