import Eshkol.Machine.Exec
import Eshkol.Replication.Network
import Mathlib.Data.Int.ConditionallyCompleteOrder
import Mathlib.Data.List.Nodup

/-!
# Vector Clocks

The vector clocks of `lib/core/distributed.esk`: association lists of nodes and counters, with
nodes compared by `equal?`. It is taken as an equivalence, which it is not on NaN or between doubles
and integers beyond 2^53. Counters, sets and sequences keep one to count what each node has
done, so the invariant they share is stated here: a clock `Counts` a weight of the events that
are known when it holds, for every node, the sum over the events of that node.
-/

open Machine Replication

namespace Eshkol.Core

variable {N : Type} [DecidableEq N]

/-! ### The source -/

/-- What `error` is called with for a negative amount. -/
structure AmountError : Type where
  who : String
  message : String
  amount : ℤ
  deriving DecidableEq, Repr

def distributedMax (a b : ℤ) : ℤ := if a > b then a else b

/-- The optional last argument of a procedure, one unless it is given. -/
def distributedAmount : List ℤ → ℤ
  | [] => 1
  | amount :: _ => amount

def distributedRequireNonnegative (who : String) (amount : ℤ) : Exec AmountError ℤ :=
  if amount < 0 then .error (.raised ⟨who, "expected a non-negative amount", amount⟩)
  else .ok amount

/-- A list of nodes with their counters. -/
abbrev VectorClock (N : Type) : Type := List (N × ℤ)

def vectorClockRef (clock : VectorClock N) (node : N) : ℤ := (clock.lookup node).getD 0

def vectorClockSet : VectorClock N → N → ℤ → VectorClock N
  | [], node, counter => [(node, counter)]
  | entry :: clock, node, counter =>
    if node = entry.1 then (node, counter) :: clock
    else entry :: vectorClockSet clock node counter

def vectorClockTick (clock : VectorClock N) (node : N) (amount : List ℤ) :
    Exec AmountError (VectorClock N) := do
  let delta ← distributedRequireNonnegative "vector-clock-tick" (distributedAmount amount)
  .ok (vectorClockSet clock node (vectorClockRef clock node + delta))

def vectorClockMerge : VectorClock N → VectorClock N → VectorClock N
  | a, [] => a
  | a, entry :: b =>
    vectorClockMerge
      (vectorClockSet a entry.1 (distributedMax (vectorClockRef a entry.1) entry.2)) b

def vectorClockNodes (clock : VectorClock N) : List N := clock.map Prod.fst

def vectorClockNodeUnion : List N → List N → List N
  | a, [] => a
  | a, n :: b => if n ∈ a then vectorClockNodeUnion a b else vectorClockNodeUnion (n :: a) b

/-- What a comparison of clocks answers. -/
inductive ClockOrder : Type
  | equal
  | before
  | after
  | concurrent
  deriving DecidableEq, Repr

def vectorClockCompareNodes (a b : VectorClock N) : List N → Bool → Bool → ClockOrder
  | [], sawLess, sawGreater =>
    if sawLess && sawGreater then .concurrent
    else if sawLess then .before
    else if sawGreater then .after
    else .equal
  | node :: nodes, sawLess, sawGreater =>
    vectorClockCompareNodes a b nodes
      (sawLess || vectorClockRef a node < vectorClockRef b node)
      (sawGreater || vectorClockRef a node > vectorClockRef b node)

def vectorClockCompare (a b : VectorClock N) : ClockOrder :=
  vectorClockCompareNodes a b (vectorClockNodeUnion (vectorClockNodes a) (vectorClockNodes b))
    false false

def vectorClockSum : VectorClock N → ℤ
  | [] => 0
  | entry :: clock => entry.2 + vectorClockSum clock

/-! ### What the operations do -/

theorem distributedMax_eq (a b : ℤ) : distributedMax a b = max a b := by
  unfold distributedMax
  split <;> omega

theorem distributedRequireNonnegative_eq_ok {who : String} {amount delta : ℤ} :
    distributedRequireNonnegative who amount = .ok delta ↔ 0 ≤ amount ∧ delta = amount := by
  unfold distributedRequireNonnegative
  split
  next h => simp [h]
  next h => simp [not_lt.mp h, eq_comm]

theorem vectorClockTick_nil (clock : VectorClock N) (node : N) :
    vectorClockTick clock node [] =
      .ok (vectorClockSet clock node (vectorClockRef clock node + 1)) := rfl

@[simp] theorem vectorClockRef_nil (n : N) : vectorClockRef [] n = 0 := rfl

theorem vectorClockRef_cons (entry : N × ℤ) (clock : VectorClock N) (n : N) :
    vectorClockRef (entry :: clock) n =
      if n = entry.1 then entry.2 else vectorClockRef clock n := by
  unfold vectorClockRef
  rw [List.lookup_cons]
  by_cases h : n = entry.1
  · simp [h]
  · simp [h, beq_eq_false_iff_ne.mpr h]

theorem vectorClockRef_of_notMem {clock : VectorClock N} {n : N}
    (h : n ∉ vectorClockNodes clock) : vectorClockRef clock n = 0 := by
  induction clock with
  | nil => rfl
  | cons entry clock ih =>
    simp only [vectorClockNodes, List.map_cons, List.mem_cons, not_or] at h
    rw [vectorClockRef_cons, if_neg h.1, ih h.2]

theorem vectorClockRef_set (clock : VectorClock N) (node : N) (counter : ℤ) (n : N) :
    vectorClockRef (vectorClockSet clock node counter) n =
      if n = node then counter else vectorClockRef clock n := by
  induction clock with
  | nil => rw [vectorClockSet, vectorClockRef_cons]
  | cons entry clock ih =>
    rw [vectorClockSet]
    split
    next h => subst h; simp only [vectorClockRef_cons]; split <;> rfl
    next h =>
      simp only [vectorClockRef_cons, ih]
      by_cases hn : n = entry.1
      · subst hn
        simp [Ne.symm h]
      · simp [hn]

theorem mem_vectorClockNodes_set {clock : VectorClock N} {node n : N} {counter : ℤ} :
    n ∈ vectorClockNodes (vectorClockSet clock node counter) ↔
      n = node ∨ n ∈ vectorClockNodes clock := by
  induction clock with
  | nil => simp [vectorClockSet, vectorClockNodes]
  | cons entry clock ih =>
    rw [vectorClockSet]
    split
    next h => simp [vectorClockNodes, h]
    next h =>
      simp only [vectorClockNodes, List.map_cons, List.mem_cons] at ih ⊢
      rw [ih]
      tauto

theorem nodup_vectorClockNodes_set {clock : VectorClock N}
    (h : (vectorClockNodes clock).Nodup) (node : N) (counter : ℤ) :
    (vectorClockNodes (vectorClockSet clock node counter)).Nodup := by
  induction clock with
  | nil => exact List.nodup_singleton node
  | cons entry clock ih =>
    simp only [vectorClockNodes, List.map_cons, List.nodup_cons] at h
    rw [vectorClockSet]
    split
    next hn => subst hn; exact List.nodup_cons.mpr h
    next hn =>
      refine List.nodup_cons.mpr ⟨fun hm => ?_, ih h.2⟩
      rcases mem_vectorClockNodes_set.mp hm with heq | hm
      · exact hn heq.symm
      · exact h.1 hm

variable {a b : VectorClock N}

theorem nodup_vectorClockNodes_merge (ha : (vectorClockNodes a).Nodup) (b : VectorClock N) :
    (vectorClockNodes (vectorClockMerge a b)).Nodup := by
  induction b generalizing a with
  | nil => exact ha
  | cons entry b ih => exact ih (nodup_vectorClockNodes_set ha _ _)

theorem vectorClockRef_merge (ha : ∀ n, 0 ≤ vectorClockRef a n) (hb : (vectorClockNodes b).Nodup)
    (n : N) :
    vectorClockRef (vectorClockMerge a b) n = max (vectorClockRef a n) (vectorClockRef b n) := by
  induction b generalizing a with
  | nil => simp [vectorClockMerge, ha n]
  | cons entry b ih =>
    simp only [vectorClockNodes, List.map_cons, List.nodup_cons] at hb
    have hset : ∀ m, 0 ≤ vectorClockRef (vectorClockSet a entry.1
        (distributedMax (vectorClockRef a entry.1) entry.2)) m := by
      intro m
      rw [vectorClockRef_set, distributedMax_eq]
      split
      next => exact le_max_of_le_left (ha _)
      next => exact ha m
    rw [vectorClockMerge, ih hset hb.2, vectorClockRef_set, vectorClockRef_cons, distributedMax_eq]
    split
    next h =>
      subst h
      rw [vectorClockRef_of_notMem hb.1, max_eq_left (le_max_of_le_left (ha _))]
    next => rfl

/-! ### The order of clocks -/

theorem mem_vectorClockNodeUnion {a b : List N} {n : N} :
    n ∈ vectorClockNodeUnion a b ↔ n ∈ a ∨ n ∈ b := by
  induction b generalizing a with
  | nil => simp [vectorClockNodeUnion]
  | cons m b ih =>
    rw [vectorClockNodeUnion]
    split
    next h =>
      rw [ih, List.mem_cons]
      grind
    next =>
      rw [ih, List.mem_cons, List.mem_cons]
      tauto

/-- The order that was seen at some nodes, by whether a smaller and a greater counter was. -/
def ClockOrder.seen (less greater : Prop) : ClockOrder → Prop
  | .equal => ¬ less ∧ ¬ greater
  | .before => less ∧ ¬ greater
  | .after => ¬ less ∧ greater
  | .concurrent => less ∧ greater

theorem vectorClockCompareNodes_seen (a b : VectorClock N) (nodes : List N)
    (sawLess sawGreater : Bool) (order : ClockOrder) :
    vectorClockCompareNodes a b nodes sawLess sawGreater = order ↔
      order.seen (sawLess = true ∨ ∃ n ∈ nodes, vectorClockRef a n < vectorClockRef b n)
        (sawGreater = true ∨ ∃ n ∈ nodes, vectorClockRef b n < vectorClockRef a n) := by
  induction nodes generalizing sawLess sawGreater with
  | nil =>
    cases sawLess <;> cases sawGreater <;> cases order <;>
      simp [vectorClockCompareNodes, ClockOrder.seen]
  | cons node nodes ih =>
    rw [vectorClockCompareNodes, ih]
    simp only [Bool.or_eq_true, decide_eq_true_eq, List.exists_mem_cons_iff, or_assoc, gt_iff_lt]

theorem exists_node_lt :
    (∃ n ∈ vectorClockNodeUnion (vectorClockNodes a) (vectorClockNodes b),
        vectorClockRef a n < vectorClockRef b n) ↔
      ¬ vectorClockRef b ≤ vectorClockRef a := by
  rw [Pi.le_def, not_forall]
  constructor
  · rintro ⟨n, -, hn⟩
    exact ⟨n, not_le.mpr hn⟩
  · rintro ⟨n, hn⟩
    refine ⟨n, ?_, not_le.mp hn⟩
    by_contra hmem
    rw [mem_vectorClockNodeUnion, not_or] at hmem
    rw [vectorClockRef_of_notMem hmem.1, vectorClockRef_of_notMem hmem.2] at hn
    exact hn le_rfl

theorem exists_node_gt :
    (∃ n ∈ vectorClockNodeUnion (vectorClockNodes a) (vectorClockNodes b),
        vectorClockRef b n < vectorClockRef a n) ↔
      ¬ vectorClockRef a ≤ vectorClockRef b := by
  rw [← exists_node_lt]
  simp only [mem_vectorClockNodeUnion, or_comm]

theorem vectorClockCompare_eq_iff (a b : VectorClock N) (order : ClockOrder) :
    vectorClockCompare a b = order ↔
      order.seen (¬ vectorClockRef b ≤ vectorClockRef a) (¬ vectorClockRef a ≤ vectorClockRef b) := by
  rw [vectorClockCompare, vectorClockCompareNodes_seen, exists_node_lt, exists_node_gt]
  simp

theorem vectorClockCompare_eq_equal_iff :
    vectorClockCompare a b = .equal ↔ vectorClockRef a = vectorClockRef b := by
  rw [vectorClockCompare_eq_iff, ClockOrder.seen, not_not, not_not, le_antisymm_iff, and_comm]

/-- A clock with one entry for a node and no negative counter. -/
structure ValidClock (clock : VectorClock N) : Prop where
  nodup : (vectorClockNodes clock).Nodup
  nonneg : ∀ entry ∈ clock, 0 ≤ entry.2

theorem ValidClock.ref_nonneg {clock : VectorClock N} (h : ValidClock clock) (n : N) :
    0 ≤ vectorClockRef clock n := by
  have hnonneg := h.nonneg
  clear h
  induction clock with
  | nil => exact le_rfl
  | cons entry clock ih =>
    rw [List.forall_mem_cons] at hnonneg
    rw [vectorClockRef_cons]
    split
    next => exact hnonneg.1
    next => exact ih hnonneg.2

theorem nonneg_vectorClockSet {clock : VectorClock N} (h : ∀ entry ∈ clock, 0 ≤ entry.2)
    (node : N) {counter : ℤ} (hcounter : 0 ≤ counter) :
    ∀ entry ∈ vectorClockSet clock node counter, 0 ≤ entry.2 := by
  induction clock with
  | nil => simpa [vectorClockSet] using hcounter
  | cons entry clock ih =>
    rw [List.forall_mem_cons] at h
    rw [vectorClockSet]
    split
    next => exact List.forall_mem_cons.mpr ⟨hcounter, h.2⟩
    next => exact List.forall_mem_cons.mpr ⟨h.1, ih h.2⟩

theorem ValidClock.merge (ha : ValidClock a) (hb : ValidClock b) :
    ValidClock (vectorClockMerge a b) := by
  refine ⟨nodup_vectorClockNodes_merge ha.nodup b, ?_⟩
  have hnonneg := ha.nonneg
  have hb' := hb.nonneg
  clear ha hb
  induction b generalizing a with
  | nil => exact hnonneg
  | cons entry b ih =>
    rw [List.forall_mem_cons] at hb'
    refine ih (nonneg_vectorClockSet hnonneg entry.1 ?_) hb'.2
    rw [distributedMax_eq]
    exact le_max_of_le_right hb'.1

theorem ValidClock.ref_merge (ha : ValidClock a) (hb : ValidClock b) :
    vectorClockRef (vectorClockMerge a b) = vectorClockRef a ⊔ vectorClockRef b :=
  funext fun n => vectorClockRef_merge ha.ref_nonneg hb.nodup n

section Counts

variable {Op : Type} {author : Op → Option N} {w : Event Op → ℤ}
  {K L : Finset (Event Op)} {e : Event Op} {n : N} {clock clock' : VectorClock N}

/-- The clock holds, for every node, the sum of the weights of its events. -/
structure Counts (author : Op → Option N) (w : Event Op → ℤ) (K : Finset (Event Op))
    (clock : VectorClock N) : Prop where
  nodup : (vectorClockNodes clock).Nodup
  nonneg : ∀ e ∈ K, 0 ≤ w e
  ref_eq : ∀ n, vectorClockRef clock n = ∑ e ∈ byAuthor author K n, w e

theorem Counts.empty : Counts author w ∅ ([] : VectorClock N) :=
  ⟨List.nodup_nil, by simp, by simp [byAuthor]⟩

theorem Counts.ref_nonneg (h : Counts author w K clock) (n : N) : 0 ≤ vectorClockRef clock n := by
  rw [h.ref_eq]
  exact Finset.sum_nonneg fun e he => h.nonneg e (mem_byAuthor.mp he).1

theorem Counts.ref_eq_count (h : Counts author (fun _ => 1) K clock) (n : N) :
    vectorClockRef clock n = count author K n := by
  rw [h.ref_eq, count]
  simp

theorem Counts.set [DecidableEq Op] (h : Counts author w K clock) (hnext : Next K e)
    (he : author e.op = some n) (hw : 0 ≤ w e) :
    Counts author w (insert e K) (vectorClockSet clock n (vectorClockRef clock n + w e)) where
  nodup := nodup_vectorClockNodes_set h.nodup _ _
  nonneg := by
    intro f hf
    rcases Finset.mem_insert.mp hf with rfl | hf
    · exact hw
    · exact h.nonneg f hf
  ref_eq := by
    intro m
    rw [vectorClockRef_set]
    split
    next hm =>
      subst hm
      rw [byAuthor_insert_self he, Finset.sum_insert, h.ref_eq, add_comm]
      exact fun hmem => hnext.notMem (mem_byAuthor.mp hmem).1
    next hm =>
      rw [byAuthor_insert_of_ne, h.ref_eq]
      exact fun hme => hm (Option.some.inj (hme.symm.trans he))

theorem Counts.skip [DecidableEq Op] (h : Counts author w K clock) (hnext : Next K e)
    (hw : w e = 0) : Counts author w (insert e K) clock where
  nodup := h.nodup
  nonneg := by
    intro f hf
    rcases Finset.mem_insert.mp hf with rfl | hf
    · exact hw.ge
    · exact h.nonneg f hf
  ref_eq := by
    intro m
    by_cases hm : author e.op = some m
    · rw [byAuthor_insert_self hm, Finset.sum_insert, h.ref_eq, hw, zero_add]
      exact fun hmem => hnext.notMem (mem_byAuthor.mp hmem).1
    · rw [byAuthor_insert_of_ne hm, h.ref_eq]

theorem Counts.anonymous [DecidableEq Op] (h : Counts author w K clock)
    (he : author e.op = none) (hw : 0 ≤ w e) : Counts author w (insert e K) clock where
  nodup := h.nodup
  nonneg := by
    intro f hf
    rcases Finset.mem_insert.mp hf with rfl | hf
    · exact hw
    · exact h.nonneg f hf
  ref_eq := by
    intro m
    rw [byAuthor_insert_of_ne (by simp [he]), h.ref_eq]

theorem Counts.merge [DecidableEq Op] (hcon : Consistent author (K ∪ L)) (hK : Closed K)
    (hL : Closed L) (h : Counts author w K clock) (h' : Counts author w L clock') :
    Counts author w (K ∪ L) (vectorClockMerge clock clock') := by
  have hnonneg : ∀ e ∈ K ∪ L, 0 ≤ w e := by
    intro e he
    rcases Finset.mem_union.mp he with he | he
    · exact h.nonneg e he
    · exact h'.nonneg e he
  refine ⟨nodup_vectorClockNodes_merge h.nodup _, hnonneg, fun n => ?_⟩
  rw [vectorClockRef_merge h.ref_nonneg h'.nodup, h.ref_eq, h'.ref_eq, max_sum hcon hK hL hnonneg]

theorem vectorClockSum_eq {clock : VectorClock N} (h : (vectorClockNodes clock).Nodup) :
    vectorClockSum clock = ∑ n ∈ (vectorClockNodes clock).toFinset, vectorClockRef clock n := by
  induction clock with
  | nil => rfl
  | cons entry clock ih =>
    simp only [vectorClockNodes, List.map_cons, List.nodup_cons] at h
    simp only [vectorClockSum, vectorClockNodes, List.map_cons, List.toFinset_cons]
    rw [Finset.sum_insert (by simpa using h.1), vectorClockRef_cons, if_pos rfl, ih h.2]
    congr 1
    refine Finset.sum_congr rfl fun n hn => ?_
    rw [vectorClockRef_cons, if_neg]
    rintro rfl
    exact h.1 (List.mem_toFinset.mp hn)

theorem Counts.sum (h : Counts author w K clock) (hK : ∀ e ∈ K, ∃ n, author e.op = some n) :
    vectorClockSum clock = ∑ e ∈ K, w e := by
  -- nodes without a counter count as zero, so the authors of all events may be added
  let T := (vectorClockNodes clock).toFinset ∪ K.biUnion fun e => (author e.op).toFinset
  have hT : ∀ e ∈ K, ∃ n ∈ T, author e.op = some n := by
    intro e he
    obtain ⟨n, hn⟩ := hK e he
    exact ⟨n, Finset.mem_union_right _ (Finset.mem_biUnion.mpr ⟨e, he, by simp [hn]⟩), hn⟩
  have hzero : ∀ n ∈ T, n ∉ (vectorClockNodes clock).toFinset → vectorClockRef clock n = 0 :=
    fun n _ hn => vectorClockRef_of_notMem fun hm => hn (List.mem_toFinset.mpr hm)
  calc vectorClockSum clock
      = ∑ n ∈ (vectorClockNodes clock).toFinset, vectorClockRef clock n := vectorClockSum_eq h.nodup
    _ = ∑ n ∈ T, vectorClockRef clock n :=
        Finset.sum_subset Finset.subset_union_left hzero
    _ = ∑ n ∈ T, ∑ e ∈ byAuthor author K n, w e := Finset.sum_congr rfl fun n _ => h.ref_eq n
    _ = ∑ e ∈ K, w e := sum_byAuthor hT

end Counts

end Eshkol.Core
