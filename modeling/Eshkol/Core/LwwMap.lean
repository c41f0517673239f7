import Eshkol.Core.TextOrder
import Eshkol.Replication.Network
import Mathlib.Data.List.Nodup
import Mathlib.Data.Prod.Lex

/-!
# Last-Writer-Wins Maps

The last-writer-wins registers and maps of `lib/core/distributed.esk`. A register is a value or a
tombstone with a timestamp and a writer; of two registers the newer one is found by timestamp,
then by the texts of the writers, then tombstones are newer than values, then by the texts of
the values. Merging maps keeps the newer register of every key.

`lww-map-set` and `lww-map-remove` store their register without comparing it with the one that
is there: a write with an old timestamp, made where a newer one is already known, replaces it.

Keys are taken up to `equal?`; timestamps are any numbers in a linear order.
-/

open Replication

namespace Eshkol.Core

variable {K V T W : Type} [DecidableEq K] [DecidableEq V] [LinearOrder T] [DecidableEq W]
  [Canonical V] [Canonical W]

/-! ### The source -/

/-- `#(lww-register value timestamp writer deleted?)`. The value of a tombstone is `#f`, for
which `none` stands. -/
structure LwwRegister (V T W : Type) : Type where
  value : Option V
  timestamp : T
  writer : W
  deleted : Bool
  deriving DecidableEq

def makeLwwRegister (value : Option V) (timestamp : T) (writer : W) : LwwRegister V T W :=
  ⟨value, timestamp, writer, false⟩

def lwwRegisterPresent (register : LwwRegister V T W) : Bool := !register.deleted

def lwwRegisterDelete (_ : LwwRegister V T W) (timestamp : T) (writer : W) : LwwRegister V T W :=
  ⟨none, timestamp, writer, true⟩

def lwwRegisterNewer (a b : LwwRegister V T W) : Bool :=
  if a.timestamp > b.timestamp then true
  else if a.timestamp < b.timestamp then false
  else if distributedKeyGreater a.writer b.writer then true
  else if distributedKeyLess a.writer b.writer then false
  else if a.deleted && !b.deleted then true
  else if !a.deleted && b.deleted then false
  else distributedKeyGreater a.value b.value

def lwwRegisterMerge (a b : LwwRegister V T W) : LwwRegister V T W :=
  if lwwRegisterNewer b a then b else a

/-- `#(lww-map entries)`. -/
structure LwwMap (K V T W : Type) : Type where
  entries : List (K × LwwRegister V T W)
  deriving DecidableEq

def makeLwwMap : LwwMap K V T W := ⟨[]⟩

def lwwMapEntryRef (key : K) : List (K × LwwRegister V T W) → Option (K × LwwRegister V T W)
  | [] => none
  | entry :: entries => if entry.1 = key then some entry else lwwMapEntryRef key entries

def lwwMapEntrySet (key : K) (register : LwwRegister V T W) :
    List (K × LwwRegister V T W) → List (K × LwwRegister V T W)
  | [] => [(key, register)]
  | entry :: entries =>
    if entry.1 = key then (key, register) :: entries
    else entry :: lwwMapEntrySet key register entries

def lwwMapSet (map : LwwMap K V T W) (key : K) (value : V) (timestamp : T) (writer : W) :
    LwwMap K V T W :=
  ⟨lwwMapEntrySet key (makeLwwRegister (some value) timestamp writer) map.entries⟩

def lwwMapRemove (map : LwwMap K V T W) (key : K) (timestamp : T) (writer : W) : LwwMap K V T W :=
  ⟨lwwMapEntrySet key (lwwRegisterDelete (makeLwwRegister none timestamp writer) timestamp writer)
    map.entries⟩

def lwwMapVisibleEntriesLoop :
    List (K × LwwRegister V T W) → List (K × Option V) → List (K × Option V)
  | [], acc => acc
  | entry :: entries, acc =>
    if lwwRegisterPresent entry.2 then
      lwwMapVisibleEntriesLoop entries ((entry.1, entry.2.value) :: acc)
    else lwwMapVisibleEntriesLoop entries acc

def lwwMapVisibleEntries (map : LwwMap K V T W) : List (K × Option V) :=
  lwwMapVisibleEntriesLoop map.entries []

def lwwMapMergeEntries :
    List (K × LwwRegister V T W) → List (K × LwwRegister V T W) → List (K × LwwRegister V T W)
  | [], acc => acc
  | entry :: entries, acc =>
    lwwMapMergeEntries entries (lwwMapEntrySet entry.1
      (match lwwMapEntryRef entry.1 acc with
        | some existing => lwwRegisterMerge existing.2 entry.2
        | none => entry.2) acc)

def lwwMapMerge (a b : LwwMap K V T W) : LwwMap K V T W := ⟨lwwMapMergeEntries b.entries a.entries⟩

/-! ### The order of registers -/

/-- What registers are compared by. -/
def LwwRegister.stamp (register : LwwRegister V T W) : T ×ₗ List ℕ ×ₗ Bool ×ₗ List ℕ :=
  toLex (register.timestamp, toLex (distributedKey register.writer,
    toLex (register.deleted, distributedKey register.value)))

omit [DecidableEq V] [DecidableEq W] in
theorem lwwRegisterNewer_iff {a b : LwwRegister V T W} :
    lwwRegisterNewer a b = true ↔ b.stamp < a.stamp := by
  simp only [LwwRegister.stamp, Prod.Lex.toLex_lt_toLex]
  unfold lwwRegisterNewer
  rcases lt_trichotomy a.timestamp b.timestamp with ht | ht | ht
  · simp [ht, ht.not_gt, ht.ne']
  · rw [if_neg ht.le.not_gt, if_neg ht.ge.not_gt]
    simp only [distributedKeyGreater_iff, distributedKeyLess_iff]
    rcases lt_trichotomy (distributedKey a.writer) (distributedKey b.writer) with hw | hw | hw
    · simp [ht, hw, hw.not_gt, hw.ne']
    · rw [if_neg hw.le.not_gt, if_neg hw.ge.not_gt]
      cases a.deleted <;> cases b.deleted <;> simp [ht, hw, distributedKeyGreater_iff]
    · simp [ht, hw]
  · simp [ht]

omit [DecidableEq V] [DecidableEq W] in
theorem lwwRegisterNewer_eq_false {a b : LwwRegister V T W} :
    lwwRegisterNewer a b = false ↔ a.stamp ≤ b.stamp := by
  rw [← Bool.not_eq_true, lwwRegisterNewer_iff, not_lt]

omit [DecidableEq V] [DecidableEq W] in
theorem lwwRegisterMerge_stamp (a b : LwwRegister V T W) :
    (lwwRegisterMerge a b).stamp = max a.stamp b.stamp := by
  unfold lwwRegisterMerge
  split
  next h => rw [max_eq_right (lwwRegisterNewer_iff.mp h).le]
  next h => rw [max_eq_left (lwwRegisterNewer_eq_false.mp (Bool.not_eq_true _ ▸ h))]

/-! ### What the operations do -/

section Entries

omit [DecidableEq V] [LinearOrder T] [DecidableEq W] [Canonical V] [Canonical W]

/-- The register that a map holds for a key. -/
def lwwHeld (key : K) (entries : List (K × LwwRegister V T W)) : Option (LwwRegister V T W) :=
  (lwwMapEntryRef key entries).map Prod.snd

/-- The keys of a list of entries, which are all different in every map. -/
def lwwKeys (entries : List (K × LwwRegister V T W)) : List K := entries.map Prod.fst

variable {entries : List (K × LwwRegister V T W)} {key k : K} {register : LwwRegister V T W}

theorem lwwHeld_cons (entry : K × LwwRegister V T W) :
    lwwHeld k (entry :: entries) = if entry.1 = k then some entry.2 else lwwHeld k entries := by
  unfold lwwHeld
  rw [lwwMapEntryRef]
  split <;> rfl

theorem lwwHeld_set : lwwHeld k (lwwMapEntrySet key register entries) =
    if key = k then some register else lwwHeld k entries := by
  induction entries with
  | nil => rw [lwwMapEntrySet, lwwHeld_cons]
  | cons entry entries ih =>
    rw [lwwMapEntrySet]
    split
    next h => simp only [lwwHeld_cons, h]; split <;> rfl
    next h =>
      rw [lwwHeld_cons, lwwHeld_cons, ih]
      by_cases hk : entry.1 = k
      · subst hk
        simp [Ne.symm h]
      · simp [hk]

theorem mem_lwwKeys_set : k ∈ lwwKeys (lwwMapEntrySet key register entries) ↔
    k = key ∨ k ∈ lwwKeys entries := by
  induction entries with
  | nil => simp [lwwMapEntrySet, lwwKeys]
  | cons entry entries ih =>
    rw [lwwMapEntrySet]
    split
    next h => simp [lwwKeys, h]
    next h =>
      simp only [lwwKeys, List.map_cons, List.mem_cons] at ih ⊢
      rw [ih]
      tauto

theorem nodup_lwwKeys_set (h : (lwwKeys entries).Nodup) :
    (lwwKeys (lwwMapEntrySet key register entries)).Nodup := by
  induction entries with
  | nil => exact List.nodup_singleton key
  | cons entry entries ih =>
    simp only [lwwKeys, List.map_cons, List.nodup_cons] at h
    rw [lwwMapEntrySet]
    split
    next hk => subst hk; exact List.nodup_cons.mpr h
    next hk =>
      refine List.nodup_cons.mpr ⟨fun hm => ?_, ih h.2⟩
      rcases mem_lwwKeys_set.mp hm with heq | hm
      · exact hk heq
      · exact h.1 hm

theorem lwwHeld_eq_none (h : k ∉ lwwKeys entries) : lwwHeld k entries = none := by
  induction entries with
  | nil => rfl
  | cons entry entries ih =>
    simp only [lwwKeys, List.map_cons, List.mem_cons, not_or] at h
    rw [lwwHeld_cons, if_neg (Ne.symm h.1), ih h.2]

theorem mem_iff_lwwHeld (h : (lwwKeys entries).Nodup) :
    (k, register) ∈ entries ↔ lwwHeld k entries = some register := by
  induction entries with
  | nil => simp [lwwHeld, lwwMapEntryRef]
  | cons entry entries ih =>
    obtain ⟨key, existing⟩ := entry
    simp only [lwwKeys, List.map_cons, List.nodup_cons] at h
    rw [List.mem_cons, lwwHeld_cons, Prod.mk.injEq, ih h.2]
    by_cases hk : key = k
    · subst hk
      simp [lwwHeld_eq_none h.1, eq_comm]
    · simp [hk, Ne.symm hk]

omit [DecidableEq K] in
theorem mem_lwwMapVisibleEntriesLoop {acc : List (K × Option V)} {shown : K × Option V} :
    shown ∈ lwwMapVisibleEntriesLoop entries acc ↔ shown ∈ acc ∨ ∃ register,
      (shown.1, register) ∈ entries ∧ register.deleted = false ∧ shown.2 = register.value := by
  induction entries generalizing acc with
  | nil => simp [lwwMapVisibleEntriesLoop]
  | cons entry entries ih =>
    rw [lwwMapVisibleEntriesLoop]
    simp only [lwwRegisterPresent, Bool.not_eq_true']
    split
    next h =>
      rw [ih, List.mem_cons]
      constructor
      · rintro ((rfl | hacc) | ⟨register, hm, hr⟩)
        · exact .inr ⟨entry.2, .head _, h, rfl⟩
        · exact .inl hacc
        · exact .inr ⟨register, .tail _ hm, hr⟩
      · rintro (hacc | ⟨register, hm, hr⟩)
        · exact .inl (.inr hacc)
        · rcases List.mem_cons.mp hm with rfl | hm
          · exact .inl (.inl (Prod.ext rfl hr.2))
          · exact .inr ⟨register, hm, hr⟩
    next h =>
      rw [ih]
      constructor
      · rintro (hacc | ⟨register, hm, hr⟩)
        · exact .inl hacc
        · exact .inr ⟨register, .tail _ hm, hr⟩
      · rintro (hacc | ⟨register, hm, hr⟩)
        · exact .inl hacc
        · rcases List.mem_cons.mp hm with rfl | hm
          · exact absurd hr.1 h
          · exact .inr ⟨register, hm, hr⟩

theorem mem_lwwMapVisibleEntries {map : LwwMap K V T W} (h : (lwwKeys map.entries).Nodup)
    {shown : K × Option V} : shown ∈ lwwMapVisibleEntries map ↔ ∃ register,
      lwwHeld shown.1 map.entries = some register ∧ register.deleted = false ∧
        shown.2 = register.value := by
  rw [lwwMapVisibleEntries, mem_lwwMapVisibleEntriesLoop]
  simp [mem_iff_lwwHeld h]

end Entries

section Merge

omit [DecidableEq V] [DecidableEq W]

theorem nodup_lwwKeys_merge {entries acc : List (K × LwwRegister V T W)}
    (h : (lwwKeys acc).Nodup) : (lwwKeys (lwwMapMergeEntries entries acc)).Nodup := by
  induction entries generalizing acc with
  | nil => exact h
  | cons entry entries ih => exact ih (nodup_lwwKeys_set h)

theorem lwwHeld_merge {entries acc : List (K × LwwRegister V T W)} (h : (lwwKeys entries).Nodup)
    (k : K) : lwwHeld k (lwwMapMergeEntries entries acc) =
      Option.merge lwwRegisterMerge (lwwHeld k acc) (lwwHeld k entries) := by
  induction entries generalizing acc with
  | nil => simp [lwwMapMergeEntries, lwwHeld, lwwMapEntryRef]
  | cons entry entries ih =>
    simp only [lwwKeys, List.map_cons, List.nodup_cons] at h
    rw [lwwMapMergeEntries, ih h.2, lwwHeld_set, lwwHeld_cons]
    split
    next hk =>
      subst hk
      rw [lwwHeld_eq_none h.1, lwwHeld]
      cases lwwMapEntryRef entry.1 acc <;> rfl
    next => rfl

theorem mergeRegister_cases {x y : Option (LwwRegister V T W)} {register : LwwRegister V T W}
    (h : Option.merge lwwRegisterMerge x y = some register) :
    x = some register ∨ y = some register := by
  cases x with
  | none => exact .inr ((Option.merge_none_left).symm.trans h)
  | some a =>
    cases y with
    | none => exact .inl h
    | some b =>
      have hmerge : lwwRegisterMerge a b = register := Option.some.inj h
      unfold lwwRegisterMerge at hmerge
      split at hmerge
      next => exact .inr (congrArg some hmerge)
      next => exact .inl (congrArg some hmerge)

theorem mergeRegister_left {x y : Option (LwwRegister V T W)} {register : LwwRegister V T W}
    (h : x = some register) : ∃ merged, Option.merge lwwRegisterMerge x y = some merged ∧
      lwwRegisterNewer register merged = false := by
  subst h
  cases y with
  | none => exact ⟨register, rfl, lwwRegisterNewer_eq_false.mpr le_rfl⟩
  | some b =>
    refine ⟨_, rfl, lwwRegisterNewer_eq_false.mpr ?_⟩
    rw [lwwRegisterMerge_stamp]
    exact le_max_left _ _

theorem mergeRegister_right {x y : Option (LwwRegister V T W)} {register : LwwRegister V T W}
    (h : y = some register) : ∃ merged, Option.merge lwwRegisterMerge x y = some merged ∧
      lwwRegisterNewer register merged = false := by
  subst h
  cases x with
  | none => exact ⟨register, rfl, lwwRegisterNewer_eq_false.mpr le_rfl⟩
  | some a =>
    refine ⟨_, rfl, lwwRegisterNewer_eq_false.mpr ?_⟩
    rw [lwwRegisterMerge_stamp]
    exact le_max_right _ _

theorem lwwRegisterNewer_false_trans {a b c : LwwRegister V T W}
    (hab : lwwRegisterNewer a b = false) (hbc : lwwRegisterNewer b c = false) :
    lwwRegisterNewer a c = false := by
  rw [lwwRegisterNewer_eq_false] at *
  exact hab.trans hbc

end Merge

/-! ### Maps as replicated data -/

/-- An operation on a map. -/
inductive LwwOp (K V T W : Type) : Type
  | set (key : K) (value : V) (timestamp : T) (writer : W)
  | remove (key : K) (timestamp : T) (writer : W)
  deriving DecidableEq

def LwwOp.key : LwwOp K V T W → K
  | .set key _ _ _ => key
  | .remove key _ _ => key

/-- The register that an operation stores. -/
def LwwOp.register : LwwOp K V T W → LwwRegister V T W
  | .set _ value timestamp writer => ⟨some value, timestamp, writer, false⟩
  | .remove _ timestamp writer => ⟨none, timestamp, writer, true⟩

/-- The map as replicated data; writers are no nodes that replicas own. -/
def lwwMap (K V T W : Type) [DecidableEq K] [LinearOrder T] [Canonical V] [Canonical W] :
    DataType (LwwMap K V T W) (LwwOp K V T W) Empty where
  init := makeLwwMap
  perform map op map' := match op with
    | .set key value timestamp writer => map' = lwwMapSet map key value timestamp writer
    | .remove key timestamp writer => map' = lwwMapRemove map key timestamp writer
  merge := lwwMapMerge
  author _ := none

/-- The register that is held for the key is not newer than the one to be stored. -/
def NotOlder (map : LwwMap K V T W) (op : LwwOp K V T W) : Prop :=
  ∀ register, lwwHeld op.key map.entries = some register →
    lwwRegisterNewer register op.register = false

omit [DecidableEq V] [DecidableEq W] in
theorem entries_of_perform {map map' : LwwMap K V T W} {op : LwwOp K V T W}
    (h : (lwwMap K V T W).perform map op map') :
    map'.entries = lwwMapEntrySet op.key op.register map.entries := by
  cases op with
  | set key value timestamp writer =>
    cases h
    rfl
  | remove key timestamp writer =>
    cases h
    rfl

variable {E F : Finset (Event (LwwOp K V T W))} {e : Event (LwwOp K V T W)}

/-- Every register held is one that was written to the key, and none written is newer. -/
structure LwwMap.HoldsNewest (E : Finset (Event (LwwOp K V T W))) (map : LwwMap K V T W) :
    Prop where
  nodup : (lwwKeys map.entries).Nodup
  written : ∀ key register, lwwHeld key map.entries = some register →
    ∃ e ∈ E, e.op.key = key ∧ e.op.register = register
  newest : ∀ e ∈ E, ∃ register, lwwHeld e.op.key map.entries = some register ∧
    lwwRegisterNewer e.op.register register = false

theorem LwwMap.HoldsNewest.write {map map' : LwwMap K V T W} (h : map.HoldsNewest E)
    (hold : NotOlder map e.op)
    (hmap : map'.entries = lwwMapEntrySet e.op.key e.op.register map.entries) :
    map'.HoldsNewest (insert e E) where
  nodup := by
    rw [hmap]
    exact nodup_lwwKeys_set h.nodup
  written := by
    intro key register hheld
    rw [hmap, lwwHeld_set] at hheld
    split at hheld
    next hkey =>
      cases hheld
      exact ⟨e, Finset.mem_insert_self _ _, hkey, rfl⟩
    next =>
      obtain ⟨f, hf, hfr⟩ := h.written key register hheld
      exact ⟨f, Finset.mem_insert_of_mem hf, hfr⟩
  newest := by
    intro f hf
    rw [hmap, lwwHeld_set]
    rcases Finset.mem_insert.mp hf with rfl | hf
    · exact ⟨_, if_pos rfl, lwwRegisterNewer_eq_false.mpr le_rfl⟩
    · obtain ⟨register, hheld, hnewer⟩ := h.newest f hf
      by_cases hkey : e.op.key = f.op.key
      · refine ⟨_, if_pos hkey, ?_⟩
        exact lwwRegisterNewer_false_trans hnewer (hold register (hkey ▸ hheld))
      · exact ⟨register, by rw [if_neg hkey, hheld], hnewer⟩

theorem LwwMap.HoldsNewest.merge {a b : LwwMap K V T W} (ha : a.HoldsNewest E)
    (hb : b.HoldsNewest F) : (lwwMapMerge a b).HoldsNewest (E ∪ F) where
  nodup := nodup_lwwKeys_merge ha.nodup
  written := by
    intro key register hheld
    rw [lwwMapMerge, lwwHeld_merge hb.nodup] at hheld
    rcases mergeRegister_cases hheld with h | h
    · obtain ⟨e, he, her⟩ := ha.written key register h
      exact ⟨e, Finset.mem_union_left _ he, her⟩
    · obtain ⟨e, he, her⟩ := hb.written key register h
      exact ⟨e, Finset.mem_union_right _ he, her⟩
  newest := by
    intro e he
    rw [lwwMapMerge, lwwHeld_merge hb.nodup]
    rcases Finset.mem_union.mp he with he | he
    · obtain ⟨register, hheld, hnewer⟩ := ha.newest e he
      obtain ⟨merged, hmerged, hle⟩ := mergeRegister_left hheld
      exact ⟨merged, hmerged, lwwRegisterNewer_false_trans hnewer hle⟩
    · obtain ⟨register, hheld, hnewer⟩ := hb.newest e he
      obtain ⟨merged, hmerged, hle⟩ := mergeRegister_right hheld
      exact ⟨merged, hmerged, lwwRegisterNewer_false_trans hnewer hle⟩

theorem lwwMap_tracks :
    Tracks ((lwwMap K V T W).restrict NotOlder) fun E map => map.HoldsNewest E where
  init := ⟨List.nodup_nil, by simp [lwwHeld, lwwMapEntryRef, DataType.restrict, lwwMap, makeLwwMap],
    by simp⟩
  perform := fun _ _ _ h hop => h.write hop.1 (entries_of_perform hop.2)
  merge := fun _ _ _ ha hb => ha.merge hb

/-! ### Newest writes -/

/-- Writes of one key of which neither is newer have one value. -/
def Untied (E : Finset (Event (LwwOp K V T W))) : Prop :=
  ∀ e ∈ E, ∀ f ∈ E, e.op.key = f.op.key →
    lwwRegisterNewer e.op.register f.op.register = false →
      lwwRegisterNewer f.op.register e.op.register = false →
        e.op.register.value = f.op.register.value

omit [DecidableEq V] [DecidableEq W] in
theorem deleted_eq_of_tied {a b : LwwRegister V T W} (hab : lwwRegisterNewer a b = false)
    (hba : lwwRegisterNewer b a = false) : a.deleted = b.deleted := by
  rw [lwwRegisterNewer_eq_false] at hab hba
  have hstamp := le_antisymm hab hba
  simp only [LwwRegister.stamp, EmbeddingLike.apply_eq_iff_eq, Prod.mk.injEq] at hstamp
  exact hstamp.2.2.1

omit [DecidableEq V] [DecidableEq W] in
theorem LwwMap.HoldsNewest.visible {a b : LwwMap K V T W} (ha : a.HoldsNewest E)
    (hb : b.HoldsNewest E) (hE : Untied E) {shown : K × Option V}
    (h : shown ∈ lwwMapVisibleEntries a) : shown ∈ lwwMapVisibleEntries b := by
  rw [mem_lwwMapVisibleEntries ha.nodup] at h
  obtain ⟨register, hheld, hlive, hvalue⟩ := h
  obtain ⟨e, he, hkey, rfl⟩ := ha.written _ _ hheld
  obtain ⟨register', hheld', hnewer⟩ := hb.newest e he
  obtain ⟨f, hf, hfkey, rfl⟩ := hb.written _ _ hheld'
  -- the register that `a` holds is the newest there, so the two are tied
  obtain ⟨register'', hheld'', hnewer'⟩ := ha.newest f hf
  rw [hfkey, hkey, hheld] at hheld''
  cases hheld''
  rw [mem_lwwMapVisibleEntries hb.nodup]
  refine ⟨_, by rw [← hkey, hheld'], ?_, ?_⟩
  · rw [← deleted_eq_of_tied hnewer hnewer', hlive]
  · rw [hvalue, hE e he f hf hfkey.symm hnewer hnewer']

variable {R : Type} [DecidableEq R] {owner : Empty → R}
  {sys : System R (LwwMap K V T W) (LwwOp K V T W)}

/-- A step puts no older register at a key. -/
theorem lwwMap_step_newer (hsys : Reachable ((lwwMap K V T W).restrict NotOlder) owner sys)
    {sys' : System R (LwwMap K V T W) (LwwOp K V T W)}
    (hstep : Step ((lwwMap K V T W).restrict NotOlder) owner sys sys') (r : R) {key : K}
    {register : LwwRegister V T W}
    (h : lwwHeld key (sys.replica r).state.entries = some register) :
    ∃ register', lwwHeld key (sys'.replica r).state.entries = some register' ∧
      lwwRegisterNewer register register' = false := by
  have hsame : ∃ register', lwwHeld key (sys.replica r).state.entries = some register' ∧
      lwwRegisterNewer register register' = false :=
    ⟨register, h, lwwRegisterNewer_eq_false.mpr le_rfl⟩
  cases hstep with
  | operate q op map _ hop =>
    by_cases hr : r = q
    · subst hr
      simp only [System.operate, System.hold, Function.update_self]
      rw [entries_of_perform hop.2, lwwHeld_set]
      split
      next hkey =>
        subst hkey
        exact ⟨_, rfl, hop.1 register h⟩
      next => exact hsame
    · simpa [System.operate, System.hold, Function.update_of_ne hr] using hsame
  | send q => exact hsame
  | receive q m hm =>
    by_cases hr : r = q
    · subst hr
      simp only [System.hold, Function.update_self, Version.merge]
      change ∃ register', lwwHeld key (lwwMapMergeEntries _ _) = _ ∧ _
      rw [lwwHeld_merge (hsys.tracks lwwMap_tracks (.inr hm)).nodup]
      exact mergeRegister_left h
    · simpa [System.hold, Function.update_of_ne hr] using hsame
  | receiveFirst q m hm =>
    by_cases hr : r = q
    · subst hr
      simp only [System.hold, Function.update_self, Version.merge]
      change ∃ register', lwwHeld key (lwwMapMergeEntries _ _) = _ ∧ _
      rw [lwwHeld_merge (hsys.tracks lwwMap_tracks (.inl ⟨r, rfl⟩)).nodup]
      exact mergeRegister_right h
    · simpa [System.hold, Function.update_of_ne hr] using hsame

/-- **Last writer wins.** In a run in which every write is made where no newer one is held for
its key: the register held for a key is one that was written and has reached the replica, and
none that has reached it is newer; versions that the same writes have reached show the same,
unless writes of different values are tied; and no step replaces a register by an older one. -/
theorem lwwMap_newest (hsys : Reachable ((lwwMap K V T W).restrict NotOlder) owner sys) :
    (∀ v, sys.Holds v → (∀ key register, lwwHeld key v.state.entries = some register →
        ∃ e ∈ v.known, e.op.key = key ∧ e.op.register = register) ∧
      ∀ e ∈ v.known, ∃ register, lwwHeld e.op.key v.state.entries = some register ∧
        lwwRegisterNewer e.op.register register = false) ∧
    (∀ v w, sys.Holds v → sys.Holds w → v.known = w.known → Untied v.known →
      ∀ shown, shown ∈ lwwMapVisibleEntries v.state ↔ shown ∈ lwwMapVisibleEntries w.state) ∧
    ∀ sys', Step ((lwwMap K V T W).restrict NotOlder) owner sys sys' → ∀ r key register,
      lwwHeld key (sys.replica r).state.entries = some register →
        ∃ register', lwwHeld key (sys'.replica r).state.entries = some register' ∧
          lwwRegisterNewer register register' = false := by
  refine ⟨fun v hv => ?_, fun v w hv hw heq hE shown => ?_, fun sys' hstep r key register => ?_⟩
  · have h := hsys.tracks lwwMap_tracks hv
    exact ⟨h.written, h.newest⟩
  · have hnv := hsys.tracks lwwMap_tracks hv
    have hnw := hsys.tracks lwwMap_tracks hw
    rw [← heq] at hnw
    exact ⟨hnv.visible hnw hE, hnw.visible hnv hE⟩
  · exact lwwMap_step_newer hsys hstep r

/-- A value is set and sent, and set anew at a later time where it was received. -/
theorem lwwMap_newest_exchanged :
    ∃ sys : System Bool (LwwMap ℕ Memory.Sexp ℤ Memory.Sexp) (LwwOp ℕ Memory.Sexp ℤ Memory.Sexp),
      Reachable ((lwwMap ℕ Memory.Sexp ℤ Memory.Sexp).restrict NotOlder) Empty.elim sys ∧
        ∃ v, sys.Holds v ∧ v.known.card = 2 ∧ ∀ e ∈ v.known, ∃ register,
          lwwHeld e.op.key v.state.entries = some register ∧
            lwwRegisterNewer e.op.register register = false := by
  have hinit : Reachable ((lwwMap ℕ Memory.Sexp ℤ Memory.Sexp).restrict NotOlder)
    (Empty.elim : Empty → Bool) (.initial _) := .initial
  have hset := hinit.operate false (.set 0 (.sym ['x']) 5 (.sym ['b']))
    ⟨[(0, ⟨some (.sym ['x']), 5, .sym ['b'], false⟩)]⟩ (by simp [DataType.restrict, lwwMap])
    ⟨by simp [NotOlder, System.initial, DataType.restrict, lwwMap, makeLwwMap, lwwHeld,
      lwwMapEntryRef], by rfl⟩
  have hreceived := (hset.send false).receive true (.head _)
  have hrun := hreceived.operate true (.set 0 (.sym ['y']) 10 (.sym ['a']))
    ⟨[(0, ⟨some (.sym ['y']), 10, .sym ['a'], false⟩)]⟩ (by simp [DataType.restrict, lwwMap])
    ⟨by rintro register h; cases h; decide, by rfl⟩
  exact ⟨_, hrun, _, .inl ⟨true, rfl⟩, by decide,
    ((lwwMap_newest hrun).1 _ (.inl ⟨true, rfl⟩)).2⟩

/-- **An older write replaces a newer one.** A value set at time 10 is sent; the replica that has
received it sets the key at time 5, and holds the older register. -/
theorem lwwMapSet_overwrites :
    ∃ sys : System Bool (LwwMap ℕ Memory.Sexp ℤ Memory.Sexp) (LwwOp ℕ Memory.Sexp ℤ Memory.Sexp),
      Reachable (lwwMap ℕ Memory.Sexp ℤ Memory.Sexp) Empty.elim sys ∧
        ∃ v, sys.Holds v ∧ ∃ e ∈ v.known, ∃ register,
          lwwHeld e.op.key v.state.entries = some register ∧
            lwwRegisterNewer e.op.register register = true := by
  have hinit : Reachable (lwwMap ℕ Memory.Sexp ℤ Memory.Sexp) (Empty.elim : Empty → Bool)
    (.initial _) := .initial
  have hset := hinit.operate false (.set 0 (.sym ['x']) 10 (.sym ['a']))
    ⟨[(0, ⟨some (.sym ['x']), 10, .sym ['a'], false⟩)]⟩ (by simp [lwwMap]) (by rfl)
  have hreceived := (hset.send false).receive true (.head _)
  have hrun := hreceived.operate true (.set 0 (.sym ['y']) 5 (.sym ['b']))
    ⟨[(0, ⟨some (.sym ['y']), 5, .sym ['b'], false⟩)]⟩ (by simp [lwwMap]) (by rfl)
  exact ⟨_, hrun, _, .inl ⟨true, rfl⟩,
    ⟨0, .set 0 (.sym ['x']) 10 (.sym ['a']), ∅⟩, by decide, _, rfl, by decide⟩

end Eshkol.Core
