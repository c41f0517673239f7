import Eshkol.Core.TextOrder
import Eshkol.Core.VectorClock
import Eshkol.Replication.Forest
import Mathlib.Data.List.Sort
import Mathlib.Data.Prod.Lex

/-!
# Replicated Sequences

The replicated growable array of `lib/core/distributed.esk`. An entry has an id, the node that
inserted it and the counter of that node, and names the entry it was inserted after. Deleting an
entry marks it. The sequence is read by a walk from the root id: the entries inserted after one
entry are visited by increasing counter, then by the texts of their nodes, each followed by what
was inserted after it.

The walk calls itself without a bound of its own: it takes the number of calls that may be
nested, and diverges when there are none left.

Nodes are taken up to `equal?`.
-/

open Machine Replication

namespace Eshkol.Core

variable {N V α : Type} [DecidableEq N]

/-! ### The source -/

/-- A type of nodes, with the symbol `rga-root` among them. -/
class RgaNode (N : Type) extends Canonical N where
  rgaRoot : N

/-- `(node counter)`. -/
abbrev RgaId (N : Type) : Type := N × ℤ

/-- `(id prev-id value deleted?)`. -/
structure RgaEntry (N V : Type) : Type where
  id : RgaId N
  prev : RgaId N
  value : V
  deleted : Bool
  deriving DecidableEq

/-- `#(rga entries clock)`. -/
structure Rga (N V : Type) : Type where
  entries : List (RgaEntry N V)
  clock : VectorClock N
  deriving DecidableEq

def rgaRootId [RgaNode N] : RgaId N := (RgaNode.rgaRoot, 0)

def makeRga : Rga N V := ⟨[], []⟩

def rgaEntryRef (id : RgaId N) : List (RgaEntry N V) → Option (RgaEntry N V)
  | [] => none
  | entry :: entries => if entry.id = id then some entry else rgaEntryRef id entries

def rgaMergeEntry (a b : RgaEntry N V) : RgaEntry N V :=
  ⟨a.id, a.prev, a.value, a.deleted || b.deleted⟩

def rgaEntrySet (entry : RgaEntry N V) : List (RgaEntry N V) → List (RgaEntry N V)
  | [] => [entry]
  | existing :: entries =>
    if existing.id = entry.id then rgaMergeEntry existing entry :: entries
    else existing :: rgaEntrySet entry entries

def rgaEntryDelete (id : RgaId N) : List (RgaEntry N V) → List (RgaEntry N V)
  | [] => []
  | entry :: entries =>
    if entry.id = id then ⟨entry.id, entry.prev, entry.value, true⟩ :: entries
    else entry :: rgaEntryDelete id entries

def rgaIdLess [Canonical N] (a b : RgaId N) : Bool :=
  if a.2 < b.2 then true
  else if a.2 > b.2 then false
  else distributedKeyLess a.1 b.1

def rgaEntryLess [Canonical N] (a b : RgaEntry N V) : Bool := rgaIdLess a.id b.id

def rgaInsertEntrySorted [Canonical N] (entry : RgaEntry N V) :
    List (RgaEntry N V) → List (RgaEntry N V)
  | [] => [entry]
  | first :: sorted =>
    if rgaEntryLess entry first then entry :: first :: sorted
    else first :: rgaInsertEntrySorted entry sorted

def rgaSortEntries [Canonical N] : List (RgaEntry N V) → List (RgaEntry N V)
  | [] => []
  | entry :: entries => rgaInsertEntrySorted entry (rgaSortEntries entries)

def rgaChildren (parent : RgaId N) : List (RgaEntry N V) → List (RgaEntry N V)
  | [] => []
  | entry :: entries =>
    if entry.prev = parent then entry :: rgaChildren parent entries
    else rgaChildren parent entries

/-- `rga-values-from-children` and `rga-ids-from-children`: `item` is what they list of an entry,
and `walk` the walk from its id. -/
def rgaFromChildren (item : RgaEntry N V → List α) (walk : RgaId N → Exec AmountError (List α)) :
    List (RgaEntry N V) → Exec AmountError (List α)
  | [] => .ok []
  | child :: children => do
      let inner ← walk child.id
      let rest ← rgaFromChildren item walk children
      .ok (item child ++ (inner ++ rest))

/-- `rga-values-from` and `rga-ids-from`. -/
def rgaFrom [Canonical N] (item : RgaEntry N V → List α) (entries : List (RgaEntry N V)) :
    ℕ → RgaId N → Exec AmountError (List α)
  | 0, _ => .error .diverges
  | calls + 1, parent =>
    rgaFromChildren item (rgaFrom item entries calls)
      (rgaSortEntries (rgaChildren parent entries))

def rgaValueItem (entry : RgaEntry N V) : List V := if entry.deleted then [] else [entry.value]

def rgaIdItem (entry : RgaEntry N V) : List (RgaId N) := if entry.deleted then [] else [entry.id]

def rgaValuesFrom [Canonical N] (entries : List (RgaEntry N V)) (calls : ℕ) (parent : RgaId N) :
    Exec AmountError (List V) :=
  rgaFrom rgaValueItem entries calls parent

def rgaIdsFrom [Canonical N] (entries : List (RgaEntry N V)) (calls : ℕ) (parent : RgaId N) :
    Exec AmountError (List (RgaId N)) :=
  rgaFrom rgaIdItem entries calls parent

def rgaInsertAfter (rga : Rga N V) (node : N) (prev : RgaId N) (value : V) :
    Exec AmountError (Rga N V) := do
  let clock ← vectorClockTick rga.clock node []
  .ok ⟨rgaEntrySet ⟨(node, vectorClockRef clock node), prev, value, false⟩ rga.entries, clock⟩

section Root

variable [RgaNode N]

def rgaValues (calls : ℕ) (rga : Rga N V) : Exec AmountError (List V) :=
  rgaValuesFrom rga.entries calls rgaRootId

def rgaLastId (calls : ℕ) (rga : Rga N V) : Exec AmountError (RgaId N) := do
  let ids ← rgaIdsFrom rga.entries calls rgaRootId
  .ok (ids.getLastD rgaRootId)

def rgaAppend (calls : ℕ) (rga : Rga N V) (node : N) (value : V) :
    Exec AmountError (Rga N V) := do
  let last ← rgaLastId calls rga
  rgaInsertAfter rga node last value

end Root

def rgaDelete (rga : Rga N V) (id : RgaId N) : Rga N V := ⟨rgaEntryDelete id rga.entries, rga.clock⟩

def rgaMergeEntries : List (RgaEntry N V) → List (RgaEntry N V) → List (RgaEntry N V)
  | [], acc => acc
  | entry :: entries, acc => rgaMergeEntries entries (rgaEntrySet entry acc)

def rgaMerge (a b : Rga N V) : Rga N V :=
  ⟨rgaMergeEntries b.entries a.entries, vectorClockMerge a.clock b.clock⟩

/-! ### Sorting siblings -/

section Sorting

variable [Canonical N]

omit [DecidableEq N]

/-- What ids are compared by. -/
def rgaStamp (id : RgaId N) : ℤ ×ₗ List ℕ := toLex (id.2, distributedKey id.1)

theorem rgaIdLess_iff {a b : RgaId N} : rgaIdLess a b = true ↔ rgaStamp a < rgaStamp b := by
  simp only [rgaStamp, Prod.Lex.toLex_lt_toLex]
  unfold rgaIdLess
  rcases lt_trichotomy a.2 b.2 with h | h | h
  · simp [h]
  · rw [if_neg h.ge.not_gt, if_neg h.le.not_gt, distributedKeyLess_iff]
    simp [h]
  · simp [h, h.not_gt, h.ne']

theorem rgaEntryLess_eq_false {a b : RgaEntry N V} :
    rgaEntryLess a b = false ↔ rgaStamp b.id ≤ rgaStamp a.id := by
  rw [rgaEntryLess, ← Bool.not_eq_true, rgaIdLess_iff, not_lt]

theorem rgaInsertEntrySorted_perm (entry : RgaEntry N V) (sorted : List (RgaEntry N V)) :
    (rgaInsertEntrySorted entry sorted).Perm (entry :: sorted) := by
  induction sorted with
  | nil => exact .refl _
  | cons first sorted ih =>
    rw [rgaInsertEntrySorted]
    split
    next => exact .refl _
    next => exact (ih.cons first).trans (.swap entry first sorted)

theorem rgaSortEntries_perm (entries : List (RgaEntry N V)) :
    (rgaSortEntries entries).Perm entries := by
  induction entries with
  | nil => exact .refl _
  | cons entry entries ih => exact (rgaInsertEntrySorted_perm entry _).trans (ih.cons entry)

/-- Entries in the order of their ids. -/
def Ascending (entries : List (RgaEntry N V)) : Prop :=
  entries.Pairwise fun a b => rgaStamp a.id ≤ rgaStamp b.id

theorem Ascending.insert {entry : RgaEntry N V} {sorted : List (RgaEntry N V)}
    (h : Ascending sorted) : Ascending (rgaInsertEntrySorted entry sorted) := by
  induction sorted with
  | nil => exact List.pairwise_singleton _ _
  | cons first sorted ih =>
    rw [Ascending, List.pairwise_cons] at h
    rw [rgaInsertEntrySorted]
    split
    next hless =>
      have hle := (rgaIdLess_iff.mp hless).le
      refine List.pairwise_cons.mpr ⟨fun x hx => ?_, List.pairwise_cons.mpr h⟩
      rcases List.mem_cons.mp hx with rfl | hx
      · exact hle
      · exact hle.trans (h.1 x hx)
    next hless =>
      refine List.pairwise_cons.mpr ⟨fun x hx => ?_, ih h.2⟩
      rcases List.mem_cons.mp ((rgaInsertEntrySorted_perm entry sorted).mem_iff.mp hx)
        with rfl | hx
      · exact rgaEntryLess_eq_false.mp (Bool.not_eq_true _ ▸ hless)
      · exact h.1 x hx

theorem rgaSortEntries_ascending (entries : List (RgaEntry N V)) :
    Ascending (rgaSortEntries entries) := by
  induction entries with
  | nil => exact .nil
  | cons entry entries ih => exact ih.insert

theorem rgaSortEntries_congr {entries entries' : List (RgaEntry N V)}
    (hperm : entries.Perm entries')
    (h : ∀ a ∈ entries, ∀ b ∈ entries, rgaStamp a.id = rgaStamp b.id → a = b) :
    rgaSortEntries entries = rgaSortEntries entries' := by
  have hp := (rgaSortEntries_perm entries).trans (hperm.trans (rgaSortEntries_perm entries').symm)
  refine hp.eq_of_pairwise (fun a b ha hb hab hba => ?_) (rgaSortEntries_ascending entries)
    (rgaSortEntries_ascending entries')
  rw [(rgaSortEntries_perm entries).mem_iff] at ha
  rw [(rgaSortEntries_perm entries').mem_iff, ← hperm.mem_iff] at hb
  exact h a ha b hb (le_antisymm hab hba)

theorem rgaInsertEntrySorted_left {entry : RgaEntry N V} {S T : List (RgaEntry N V)}
    (h : ∀ x ∈ T, rgaEntryLess entry x = true) :
    rgaInsertEntrySorted entry (S ++ T) = rgaInsertEntrySorted entry S ++ T := by
  induction S with
  | nil =>
    cases T with
    | nil => rfl
    | cons first T => exact if_pos (h first (.head _))
  | cons first S ih =>
    rw [List.cons_append, rgaInsertEntrySorted, rgaInsertEntrySorted, ih]
    split <;> rfl

theorem rgaInsertEntrySorted_append {entry : RgaEntry N V} {S T : List (RgaEntry N V)}
    (h : ∀ x ∈ S, rgaEntryLess entry x = false) :
    rgaInsertEntrySorted entry (S ++ T) = S ++ rgaInsertEntrySorted entry T := by
  induction S with
  | nil => rfl
  | cons first S ih =>
    rw [List.cons_append, rgaInsertEntrySorted, h first (.head _), if_neg Bool.false_ne_true,
      ih fun x hx => h x (.tail _ hx), List.cons_append]

theorem rgaSortEntries_snoc (entries : List (RgaEntry N V)) (entry : RgaEntry N V) :
    ∃ S T, rgaSortEntries entries = S ++ T ∧
      rgaSortEntries (entries ++ [entry]) = S ++ entry :: T ∧
      (∀ x ∈ S, rgaEntryLess x entry = true) ∧ ∀ x ∈ T, rgaEntryLess x entry = false := by
  induction entries with
  | nil => exact ⟨[], [], rfl, rfl, by simp, by simp⟩
  | cons x entries ih =>
    obtain ⟨S, T, hold, hnew, hS, hT⟩ := ih
    rw [List.cons_append, rgaSortEntries, rgaSortEntries, hold, hnew]
    by_cases hx : rgaEntryLess x entry = true
    · have hTx : ∀ y ∈ T, rgaEntryLess x y = true := by
        intro y hy
        exact rgaIdLess_iff.mpr
          ((rgaIdLess_iff.mp hx).trans_le (rgaEntryLess_eq_false.mp (hT y hy)))
      refine ⟨rgaInsertEntrySorted x S, T, rgaInsertEntrySorted_left hTx,
        rgaInsertEntrySorted_left (by simpa using ⟨hx, hTx⟩), fun y hy => ?_, hT⟩
      rcases List.mem_cons.mp ((rgaInsertEntrySorted_perm x S).mem_iff.mp hy) with rfl | hy
      · exact hx
      · exact hS y hy
    · rw [Bool.not_eq_true] at hx
      have hSx : ∀ y ∈ S, rgaEntryLess x y = false := by
        intro y hy
        exact rgaEntryLess_eq_false.mpr
          ((rgaIdLess_iff.mp (hS y hy)).le.trans (rgaEntryLess_eq_false.mp hx))
      refine ⟨S, rgaInsertEntrySorted x T, rgaInsertEntrySorted_append hSx, ?_, hS,
        fun y hy => ?_⟩
      · rw [rgaInsertEntrySorted_append hSx, rgaInsertEntrySorted, hx, if_neg Bool.false_ne_true]
      · rcases List.mem_cons.mp ((rgaInsertEntrySorted_perm x T).mem_iff.mp hy) with rfl | hy
        · exact hx
        · exact hT y hy

end Sorting

/-! ### The entries as a forest -/

section Forest

variable [RgaNode N]

/-- Symbols and other data as nodes. -/
instance : RgaNode Memory.Sexp where
  rgaRoot := .sym "rga-root".toList

/-- Entries name the entry they were inserted after, and are visited as they are sorted. -/
def rgaForest : Forest (RgaEntry N V) (RgaId N) where
  ident := RgaEntry.id
  parent := RgaEntry.prev
  root := rgaRootId
  arrange := rgaSortEntries
  arrange_perm := rgaSortEntries_perm

theorem rgaChildren_eq (parent : RgaId N) (entries : List (RgaEntry N V)) :
    rgaChildren parent entries = rgaForest.children entries parent := by
  induction entries with
  | nil => rfl
  | cons entry entries ih =>
    rw [rgaChildren, ih, Forest.children, Forest.children, List.filter_cons]
    by_cases h : entry.prev = parent <;> simp [h, rgaForest]

variable {item : RgaEntry N V → List α} {parent : RgaId N} {out : List α}

omit [DecidableEq N] [RgaNode N] in
theorem rgaFromChildren_eq {walk : RgaId N → Exec AmountError (List α)}
    {out : RgaEntry N V → List α} {children : List (RgaEntry N V)}
    (h : ∀ x ∈ children, walk x.id = .ok (out x)) :
    rgaFromChildren item walk children = .ok (children.flatMap fun x => item x ++ out x) := by
  induction children with
  | nil => rfl
  | cons child children ih =>
    rw [rgaFromChildren, h child (.head _), ok_bind, ih fun x hx => h x (.tail _ hx), ok_bind,
      List.flatMap_cons, List.append_assoc]

theorem rgaFrom_eq {entries : List (RgaEntry N V)} (h : rgaForest.Grown entries)
    (item : RgaEntry N V → List α) {calls : ℕ} (hcalls : rgaForest.height entries parent < calls) :
    rgaFrom item entries calls parent = .ok ((rgaForest.walk entries parent).flatMap item) := by
  induction calls generalizing parent with
  | zero => exact absurd hcalls (Nat.not_lt_zero _)
  | succ calls ih =>
    have hchild : ∀ x ∈ rgaSortEntries (rgaChildren parent entries),
        rgaFrom item entries calls x.id = .ok ((rgaForest.walk entries x.id).flatMap item) := by
      intro x hx
      rw [(rgaSortEntries_perm _).mem_iff, rgaChildren_eq, Forest.mem_children] at hx
      have hlt := h.height_lt hx.1
      rw [hx.2] at hlt
      exact ih (by exact lt_of_lt_of_le hlt (Nat.le_of_lt_succ hcalls))
    rw [rgaFrom, rgaFromChildren_eq hchild, h.walk_eq, List.flatMap_assoc, rgaChildren_eq]
    rfl

omit [RgaNode N] [DecidableEq N] in
theorem rgaFromChildren_mono {walk walk' : RgaId N → Exec AmountError (List α)}
    (h : ∀ id out, walk id = .ok out → walk' id = .ok out) {children : List (RgaEntry N V)}
    (hout : rgaFromChildren item walk children = .ok out) :
    rgaFromChildren item walk' children = .ok out := by
  induction children generalizing out with
  | nil => exact hout
  | cons child children ih =>
    rw [rgaFromChildren] at hout ⊢
    obtain ⟨inner, hinner, hout⟩ := bind_eq_ok.mp hout
    obtain ⟨rest, hrest, hout⟩ := bind_eq_ok.mp hout
    rw [h _ _ hinner, ok_bind, ih hrest, ok_bind]
    exact hout

theorem rgaFrom_mono {entries : List (RgaEntry N V)} {n m : ℕ} (hnm : n ≤ m)
    (h : rgaFrom item entries n parent = .ok out) : rgaFrom item entries m parent = .ok out := by
  induction n generalizing m parent out with
  | zero => cases h
  | succ n ih =>
    obtain ⟨m, rfl⟩ := Nat.exists_eq_add_of_le' (Nat.one_le_of_lt hnm)
    rw [rgaFrom] at h ⊢
    exact rgaFromChildren_mono (fun id out => ih (Nat.le_of_succ_le_succ hnm)) h

theorem yields_rgaFrom {entries : List (RgaEntry N V)} (h : rgaForest.Grown entries)
    (item : RgaEntry N V → List α) (parent : RgaId N) :
    Machine.Yields (fun calls => rgaFrom item entries calls parent)
      ((rgaForest.walk entries parent).flatMap item) :=
  ⟨rgaForest.height entries parent + 1, fun _ hcalls => rgaFrom_eq h item hcalls⟩

theorem rgaFrom_eq_ok {entries : List (RgaEntry N V)} (h : rgaForest.Grown entries) {calls : ℕ}
    (hout : rgaFrom item entries calls parent = .ok out) :
    out = (rgaForest.walk entries parent).flatMap item := by
  have hmore := rgaFrom_mono (Nat.le_max_left calls (rgaForest.height entries parent + 1)) hout
  rw [rgaFrom_eq h item (lt_of_lt_of_le (Nat.lt_succ_self _) (Nat.le_max_right _ _))] at hmore
  exact (Except.ok.inj hmore).symm

end Forest

/-! ### What the operations do to the entries -/

section Entries

variable {entries : List (RgaEntry N V)} {entry : RgaEntry N V} {id : RgaId N}

omit [DecidableEq N] in
theorem mem_rgaIdItem : id ∈ rgaIdItem entry ↔ entry.deleted = false ∧ id = entry.id := by
  unfold rgaIdItem
  cases entry.deleted <;> simp

omit [DecidableEq N] in
theorem sublist_items (visited : List (RgaEntry N V)) :
    (visited.flatMap rgaIdItem).Sublist (visited.map RgaEntry.id) := by
  induction visited with
  | nil => exact .slnil
  | cons x visited ih =>
    rw [List.flatMap_cons, List.map_cons, rgaIdItem]
    split
    next => exact ih.cons _
    next => exact ih.cons_cons _

/-- The ids of the entries of a sequence. -/
def rgaIdsOf (entries : List (RgaEntry N V)) : List (RgaId N) := entries.map RgaEntry.id

theorem rgaEntrySet_of_notMem (h : entry.id ∉ rgaIdsOf entries) :
    rgaEntrySet entry entries = entries ++ [entry] := by
  induction entries with
  | nil => rfl
  | cons existing entries ih =>
    simp only [rgaIdsOf, List.map_cons, List.mem_cons, not_or] at h
    rw [rgaEntrySet, if_neg (Ne.symm h.1), ih h.2, List.cons_append]

theorem map_update_of_notMem {f : RgaEntry N V → RgaEntry N V} (h : id ∉ rgaIdsOf entries) :
    entries.map (fun x => if x.id = id then f x else x) = entries := by
  rw [List.map_congr_left (g := fun x => x), List.map_id']
  intro x hx
  rw [if_neg]
  rintro rfl
  exact h (List.mem_map_of_mem hx)

theorem rgaEntrySet_of_mem (hnodup : (rgaIdsOf entries).Nodup)
    (h : entry.id ∈ rgaIdsOf entries) :
    rgaEntrySet entry entries =
      entries.map fun x => if x.id = entry.id then rgaMergeEntry x entry else x := by
  induction entries with
  | nil => cases h
  | cons existing entries ih =>
    simp only [rgaIdsOf, List.map_cons, List.nodup_cons, List.mem_cons] at hnodup h
    rw [rgaEntrySet, List.map_cons]
    split
    next heq =>
      rw [map_update_of_notMem]
      exact heq ▸ hnodup.1
    next hne => rw [ih hnodup.2 (h.resolve_left (Ne.symm hne))]

theorem rgaEntryDelete_eq (hnodup : (rgaIdsOf entries).Nodup) :
    rgaEntryDelete id entries = entries.map fun x =>
      if x.id = id then ⟨x.id, x.prev, x.value, true⟩ else x := by
  induction entries with
  | nil => rfl
  | cons existing entries ih =>
    simp only [rgaIdsOf, List.map_cons, List.nodup_cons] at hnodup
    rw [rgaEntryDelete, List.map_cons]
    split
    next heq =>
      rw [map_update_of_notMem]
      exact heq ▸ hnodup.1
    next hne => rw [ih hnodup.2]

theorem rgaIdsOf_delete (entries : List (RgaEntry N V)) (id : RgaId N) :
    rgaIdsOf (rgaEntryDelete id entries) = rgaIdsOf entries := by
  induction entries with
  | nil => rfl
  | cons entry entries ih =>
    rw [rgaEntryDelete]
    split
    next => rfl
    next => exact congrArg (entry.id :: ·) ih

theorem mem_rgaIdsOf_set : id ∈ rgaIdsOf (rgaEntrySet entry entries) ↔
    id = entry.id ∨ id ∈ rgaIdsOf entries := by
  induction entries with
  | nil => simp [rgaEntrySet, rgaIdsOf]
  | cons existing entries ih =>
    rw [rgaEntrySet]
    split
    next heq => simp [rgaIdsOf, rgaMergeEntry, heq]
    next hne =>
      simp only [rgaIdsOf, List.map_cons, List.mem_cons] at ih ⊢
      rw [ih]
      tauto

theorem rgaMergeEntries_snoc (acc : List (RgaEntry N V)) :
    rgaMergeEntries (entries ++ [entry]) acc = rgaEntrySet entry (rgaMergeEntries entries acc) := by
  induction entries generalizing acc with
  | nil => rfl
  | cons x entries ih => exact ih _

theorem mem_rgaIdsOf_merge {acc : List (RgaEntry N V)} :
    id ∈ rgaIdsOf (rgaMergeEntries entries acc) ↔ id ∈ rgaIdsOf acc ∨ id ∈ rgaIdsOf entries := by
  induction entries generalizing acc with
  | nil => simp [rgaMergeEntries, rgaIdsOf]
  | cons x entries ih =>
    rw [rgaMergeEntries, ih, mem_rgaIdsOf_set]
    simp only [rgaIdsOf, List.map_cons, List.mem_cons]
    tauto

variable [RgaNode N]

theorem grown_set (h : rgaForest.Grown entries)
    (hprev : entry.prev = rgaRootId ∨ entry.prev ∈ rgaIdsOf entries)
    (hroot : entry.id ≠ rgaRootId) : rgaForest.Grown (rgaEntrySet entry entries) := by
  by_cases hid : entry.id ∈ rgaIdsOf entries
  · rw [rgaEntrySet_of_mem h.nodup hid]
    apply h.map
    · intro x
      split <;> rfl
    · intro x
      split <;> rfl
  · rw [rgaEntrySet_of_notMem hid]
    exact h.snoc hprev hid hroot

theorem grown_delete (h : rgaForest.Grown entries) :
    rgaForest.Grown (rgaEntryDelete id entries) := by
  rw [rgaEntryDelete_eq h.nodup]
  apply h.map
  · intro x
    split <;> rfl
  · intro x
    split <;> rfl

theorem grown_merge {acc : List (RgaEntry N V)} (hacc : rgaForest.Grown acc)
    (h : rgaForest.Grown entries) : rgaForest.Grown (rgaMergeEntries entries acc) := by
  induction h with
  | nil => exact hacc
  | snoc hl hparent _ hroot ih =>
    rw [rgaMergeEntries_snoc]
    refine grown_set ih (hparent.imp id fun hmem => ?_) hroot
    exact mem_rgaIdsOf_merge.mpr (.inr hmem)

end Entries

/-! ### Sequences that the operations build -/

section Built

variable [RgaNode N]

/-- The sequences that can be made with the operations, by any nodes; an insertion names the root
or an entry that is present. -/
inductive Built : Rga N V → Prop
  | make : Built makeRga
  | insertAfter {rga rga' : Rga N V} {node : N} {prev : RgaId N} {value : V} (h : Built rga)
      (hprev : prev = rgaRootId ∨ prev ∈ rgaIdsOf rga.entries)
      (hinsert : rgaInsertAfter rga node prev value = .ok rga') : Built rga'
  | append {rga rga' : Rga N V} {calls : ℕ} {node : N} {value : V} (h : Built rga)
      (happend : rgaAppend calls rga node value = .ok rga') : Built rga'
  | delete {rga : Rga N V} (h : Built rga) (id : RgaId N) : Built (rgaDelete rga id)
  | merge {a b : Rga N V} (ha : Built a) (hb : Built b) : Built (rgaMerge a b)

/-- The entries form a forest, and the clock covers their ids. -/
structure Rga.WellFormed (rga : Rga N V) : Prop where
  grown : rgaForest.Grown rga.entries
  covered : ∀ id ∈ rgaIdsOf rga.entries, 1 ≤ id.2 ∧ id.2 ≤ vectorClockRef rga.clock id.1
  nodup : (vectorClockNodes rga.clock).Nodup
  nonneg : ∀ n, 0 ≤ vectorClockRef rga.clock n

variable {rga rga' : Rga N V} {node : N} {prev : RgaId N} {value : V}

/-- The entry that an insertion makes. -/
def newEntry (rga : Rga N V) (node : N) (prev : RgaId N) (value : V) : RgaEntry N V :=
  ⟨(node, vectorClockRef rga.clock node + 1), prev, value, false⟩

omit [RgaNode N] in
theorem rgaInsertAfter_eq (rga : Rga N V) (node : N) (prev : RgaId N) (value : V) :
    rgaInsertAfter rga node prev value =
      .ok ⟨rgaEntrySet (newEntry rga node prev value) rga.entries,
        vectorClockSet rga.clock node (vectorClockRef rga.clock node + 1)⟩ := by
  rw [rgaInsertAfter, vectorClockTick_nil, ok_bind, vectorClockRef_set, if_pos rfl]
  rfl

theorem Rga.WellFormed.newEntry_notMem (h : rga.WellFormed) (node : N) (prev : RgaId N)
    (value : V) :
    (newEntry rga node prev value).id ∉ rgaIdsOf rga.entries := by
  intro hmem
  have := (h.covered _ hmem).2
  simp only [newEntry] at this
  omega

theorem Rga.WellFormed.newEntry_ne_root (h : rga.WellFormed) (node : N) (prev : RgaId N)
    (value : V) :
    (newEntry rga node prev value).id ≠ rgaRootId := by
  intro heq
  have hcount := congrArg Prod.snd heq
  have := h.nonneg node
  simp only [newEntry, rgaRootId] at hcount
  omega

theorem Rga.WellFormed.insertAfter_eq (h : rga.WellFormed) (node : N) (prev : RgaId N)
    (value : V) :
    rgaInsertAfter rga node prev value = .ok ⟨rga.entries ++ [newEntry rga node prev value],
      vectorClockSet rga.clock node (vectorClockRef rga.clock node + 1)⟩ := by
  rw [rgaInsertAfter_eq, rgaEntrySet_of_notMem (h.newEntry_notMem node prev value)]

theorem Rga.WellFormed.insertAfter (h : rga.WellFormed)
    (hprev : prev = rgaRootId ∨ prev ∈ rgaIdsOf rga.entries)
    (hinsert : rgaInsertAfter rga node prev value = .ok rga') : rga'.WellFormed := by
  rw [h.insertAfter_eq] at hinsert
  cases hinsert
  refine ⟨h.grown.snoc hprev (h.newEntry_notMem node prev value)
    (h.newEntry_ne_root node prev value), fun id hid => ?_,
    nodup_vectorClockNodes_set h.nodup _ _, fun n => ?_⟩
  · rw [rgaIdsOf, List.map_append, List.map_singleton, List.mem_append, List.mem_singleton] at hid
    have hnode := h.nonneg node
    rw [vectorClockRef_set]
    rcases hid with hid | rfl
    · have := h.covered id hid
      split
      next heq =>
        rw [heq] at this
        omega
      next => exact this
    · simp only [newEntry, if_true]
      omega
  · rw [vectorClockRef_set]
    split
    next => exact (h.nonneg node).trans (by omega)
    next => exact h.nonneg n

theorem Rga.WellFormed.delete (h : rga.WellFormed) (id : RgaId N) :
    (rgaDelete rga id).WellFormed := by
  refine ⟨grown_delete h.grown, fun id' hid => ?_, h.nodup, h.nonneg⟩
  rw [rgaDelete, rgaIdsOf_delete] at hid
  exact h.covered id' hid

theorem Rga.WellFormed.merge {a b : Rga N V} (ha : a.WellFormed) (hb : b.WellFormed) :
    (rgaMerge a b).WellFormed := by
  have href : ∀ n, vectorClockRef (rgaMerge a b).clock n =
      max (vectorClockRef a.clock n) (vectorClockRef b.clock n) :=
    vectorClockRef_merge ha.nonneg hb.nodup
  refine ⟨grown_merge ha.grown hb.grown, fun id hid => ?_, nodup_vectorClockNodes_merge ha.nodup _,
    fun n => ?_⟩
  · rw [href]
    rcases mem_rgaIdsOf_merge.mp hid with hid | hid
    · exact ⟨(ha.covered id hid).1, (ha.covered id hid).2.trans (le_max_left _ _)⟩
    · exact ⟨(hb.covered id hid).1, (hb.covered id hid).2.trans (le_max_right _ _)⟩
  · rw [href]
    exact (ha.nonneg n).trans (le_max_left _ _)

theorem Rga.WellFormed.lastId (h : rga.WellFormed) {calls : ℕ} {last : RgaId N}
    (hlast : rgaLastId calls rga = .ok last) :
    last = rgaRootId ∨ last ∈ rgaIdsOf rga.entries := by
  obtain ⟨ids, hids, hlast⟩ := bind_eq_ok.mp hlast
  cases hlast
  rw [rgaFrom_eq_ok h.grown hids]
  refine (List.mem_cons.mp List.getLastD_mem_cons).imp_right fun hmem => ?_
  obtain ⟨x, hx, hmem⟩ := List.mem_flatMap.mp hmem
  rw [(mem_rgaIdItem.mp hmem).2]
  exact List.mem_map_of_mem (h.grown.mem_of_mem_walk _ hx)

theorem Built.wellFormed (h : Built rga) : rga.WellFormed := by
  induction h with
  | make => exact ⟨.nil, by simp [makeRga, rgaIdsOf], List.nodup_nil, by simp [makeRga]⟩
  | insertAfter _ hprev hinsert ih => exact ih.insertAfter hprev hinsert
  | append _ happend ih =>
    obtain ⟨last, hlast, hinsert⟩ := bind_eq_ok.mp happend
    exact ih.insertAfter (ih.lastId hlast) hinsert
  | delete _ id ih => exact ih.delete id
  | merge _ _ iha ihb => exact iha.merge ihb

end Built

end Eshkol.Core
