import Eshkol.Core.VectorClock
import Mathlib.Algebra.BigOperators.Group.Finset.Basic

/-!
# Replicated Counters

The grow-only and positive-negative counters of `lib/core/distributed.esk`. A grow-only counter
is a vector clock of what each node has added; a positive-negative counter is a pair of them,
for increments and decrements.
-/

open Machine Replication

namespace Eshkol.Core

variable {N : Type} [DecidableEq N]

/-! ### The source -/

/-- `#(g-counter counts)`. -/
structure GCounter (N : Type) : Type where
  counts : VectorClock N
  deriving DecidableEq

def makeGCounter : GCounter N := ⟨[]⟩

def gCounterInc (counter : GCounter N) (node : N) (amount : List ℤ) :
    Exec AmountError (GCounter N) := do
  let delta ← distributedRequireNonnegative "g-counter-inc" (distributedAmount amount)
  let counts ← vectorClockTick counter.counts node [delta]
  .ok ⟨counts⟩

def gCounterValue (counter : GCounter N) : ℤ := vectorClockSum counter.counts

def gCounterMerge (a b : GCounter N) : GCounter N := ⟨vectorClockMerge a.counts b.counts⟩

/-- `#(pn-counter positive negative)`. -/
structure PnCounter (N : Type) : Type where
  positive : GCounter N
  negative : GCounter N
  deriving DecidableEq

def makePnCounter : PnCounter N := ⟨makeGCounter, makeGCounter⟩

def pnCounterInc (counter : PnCounter N) (node : N) (amount : List ℤ) :
    Exec AmountError (PnCounter N) := do
  let delta ← distributedRequireNonnegative "pn-counter-inc" (distributedAmount amount)
  let positive ← gCounterInc counter.positive node [delta]
  .ok ⟨positive, counter.negative⟩

def pnCounterDec (counter : PnCounter N) (node : N) (amount : List ℤ) :
    Exec AmountError (PnCounter N) := do
  let delta ← distributedRequireNonnegative "pn-counter-dec" (distributedAmount amount)
  let negative ← gCounterInc counter.negative node [delta]
  .ok ⟨counter.positive, negative⟩

def pnCounterValue (counter : PnCounter N) : ℤ :=
  gCounterValue counter.positive - gCounterValue counter.negative

def pnCounterMerge (a b : PnCounter N) : PnCounter N :=
  ⟨gCounterMerge a.positive b.positive, gCounterMerge a.negative b.negative⟩

/-! ### Counters as replicated data -/

/-- An operation on a counter, with its optional amount. -/
inductive CounterOp (N : Type) : Type
  | inc (node : N) (amount : List ℤ)
  | dec (node : N) (amount : List ℤ)
  deriving DecidableEq

/-- The node an operation is performed under. -/
def CounterOp.node : CounterOp N → N
  | .inc node _ => node
  | .dec node _ => node

/-- By how much an operation increments. -/
def CounterOp.increment : CounterOp N → ℤ
  | .inc _ amount => distributedAmount amount
  | .dec _ _ => 0

/-- By how much an operation decrements. -/
def CounterOp.decrement : CounterOp N → ℤ
  | .inc _ _ => 0
  | .dec _ amount => distributedAmount amount

/-- The grow-only counter, which can only be incremented. -/
def gCounter (N : Type) [DecidableEq N] : DataType (GCounter N) (CounterOp N) N where
  init := makeGCounter
  perform counter op counter' := match op with
    | .inc node amount => gCounterInc counter node amount = .ok counter'
    | .dec _ _ => False
  merge := gCounterMerge
  author op := some op.node

/-- The positive-negative counter. -/
def pnCounter (N : Type) [DecidableEq N] : DataType (PnCounter N) (CounterOp N) N where
  init := makePnCounter
  perform counter op counter' := match op with
    | .inc node amount => pnCounterInc counter node amount = .ok counter'
    | .dec node amount => pnCounterDec counter node amount = .ok counter'
  merge := pnCounterMerge
  author op := some op.node

/-! ### What the clocks count -/

variable {counter : GCounter N} {node : N} {amount : List ℤ} {K : Finset (Event (CounterOp N))}

theorem gCounterInc_eq_ok {counter' : GCounter N} :
    gCounterInc counter node amount = .ok counter' ↔
      0 ≤ distributedAmount amount ∧ counter' = ⟨vectorClockSet counter.counts node
        (vectorClockRef counter.counts node + distributedAmount amount)⟩ := by
  simp only [gCounterInc, vectorClockTick, bind_eq_ok, distributedRequireNonnegative_eq_ok]
  constructor
  · rintro ⟨delta, ⟨hle, rfl⟩, clock, ⟨delta', ⟨_, rfl⟩, hclock⟩, hok⟩
    cases hclock
    cases hok
    exact ⟨hle, rfl⟩
  · rintro ⟨hle, rfl⟩
    exact ⟨_, ⟨hle, rfl⟩, _, ⟨_, ⟨hle, rfl⟩, rfl⟩, rfl⟩

theorem pnCounterInc_eq_ok {counter counter' : PnCounter N} :
    pnCounterInc counter node amount = .ok counter' ↔ ∃ positive,
      gCounterInc counter.positive node amount = .ok positive ∧
        counter' = ⟨positive, counter.negative⟩ := by
  simp only [pnCounterInc, bind_eq_ok, distributedRequireNonnegative_eq_ok, gCounterInc_eq_ok]
  constructor
  · rintro ⟨delta, ⟨hle, rfl⟩, positive, ⟨_, rfl⟩, hok⟩
    cases hok
    exact ⟨_, ⟨hle, rfl⟩, rfl⟩
  · rintro ⟨positive, ⟨hle, rfl⟩, rfl⟩
    exact ⟨_, ⟨hle, rfl⟩, _, ⟨hle, rfl⟩, rfl⟩

theorem pnCounterDec_eq_ok {counter counter' : PnCounter N} :
    pnCounterDec counter node amount = .ok counter' ↔ ∃ negative,
      gCounterInc counter.negative node amount = .ok negative ∧
        counter' = ⟨counter.positive, negative⟩ := by
  simp only [pnCounterDec, bind_eq_ok, distributedRequireNonnegative_eq_ok, gCounterInc_eq_ok]
  constructor
  · rintro ⟨delta, ⟨hle, rfl⟩, negative, ⟨_, rfl⟩, hok⟩
    cases hok
    exact ⟨_, ⟨hle, rfl⟩, rfl⟩
  · rintro ⟨negative, ⟨hle, rfl⟩, rfl⟩
    exact ⟨_, ⟨hle, rfl⟩, _, ⟨hle, rfl⟩, rfl⟩

/-- The known events and the counter, for a part of what the operations do. -/
abbrev GCounter.CountsBy (w : CounterOp N → ℤ) (K : Finset (Event (CounterOp N)))
    (counter : GCounter N) : Prop :=
  Counts (fun op => some op.node) (fun e => w e.op) K counter.counts

theorem GCounter.CountsBy.inc {w : CounterOp N → ℤ} {e : Event (CounterOp N)}
    {counter' : GCounter N} (h : counter.CountsBy w K) (hnext : Next K e)
    (hw : w e.op = distributedAmount amount)
    (hinc : gCounterInc counter e.op.node amount = .ok counter') :
    counter'.CountsBy w (insert e K) := by
  obtain ⟨hle, rfl⟩ := gCounterInc_eq_ok.mp hinc
  rw [← hw] at hle ⊢
  exact Counts.set h hnext rfl hle

theorem gCounter_tracks :
    Tracks (gCounter N) fun K counter => counter.CountsBy CounterOp.increment K ∧
      ∀ e ∈ K, e.op.decrement = 0 where
  init := ⟨.empty, by simp⟩
  perform := by
    rintro K counter ⟨i, op, seen⟩ counter' _ hnext _ ⟨h, hdec⟩ hop
    cases op with
    | inc node amount =>
      exact ⟨h.inc hnext rfl hop, by simpa using ⟨rfl, hdec⟩⟩
    | dec node amount => exact hop.elim
  merge := by
    rintro K L counter counter' hK hL hcoh ⟨h, hdec⟩ ⟨h', hdec'⟩
    refine ⟨.merge hcoh.toConsistent hK hL h h', fun e he => ?_⟩
    rcases Finset.mem_union.mp he with he | he
    · exact hdec e he
    · exact hdec' e he

theorem pnCounter_tracks :
    Tracks (pnCounter N) fun K counter => counter.positive.CountsBy CounterOp.increment K ∧
      counter.negative.CountsBy CounterOp.decrement K where
  init := ⟨.empty, .empty⟩
  perform := by
    rintro K counter ⟨i, op, seen⟩ counter' _ hnext _ ⟨hpos, hneg⟩ hop
    cases op with
    | inc node amount =>
      obtain ⟨positive, hinc, rfl⟩ := pnCounterInc_eq_ok.mp hop
      exact ⟨hpos.inc hnext rfl hinc, hneg.skip hnext rfl⟩
    | dec node amount =>
      obtain ⟨negative, hdec, rfl⟩ := pnCounterDec_eq_ok.mp hop
      exact ⟨hpos.skip hnext rfl, hneg.inc hnext rfl hdec⟩
  merge := by
    rintro K L counter counter' hK hL hcoh ⟨hpos, hneg⟩ ⟨hpos', hneg'⟩
    exact ⟨.merge hcoh.toConsistent hK hL hpos hpos', .merge hcoh.toConsistent hK hL hneg hneg'⟩

/-! ### Values -/

theorem GCounter.CountsBy.value {w : CounterOp N → ℤ} (h : counter.CountsBy w K) :
    gCounterValue counter = ∑ e ∈ K, w e.op :=
  h.sum fun _ _ => ⟨_, rfl⟩

theorem pnCounterValue_eq {counter : PnCounter N}
    (h : counter.positive.CountsBy CounterOp.increment K ∧
      counter.negative.CountsBy CounterOp.decrement K) :
    pnCounterValue counter = ∑ e ∈ K, e.op.increment - ∑ e ∈ K, e.op.decrement := by
  rw [pnCounterValue, h.1.value, h.2.value]

variable {R : Type} [DecidableEq R]

end Eshkol.Core
