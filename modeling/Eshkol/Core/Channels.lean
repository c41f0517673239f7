import Eshkol.Core.Vectors
import Eshkol.Machine.Monitor
import Eshkol.Machine.RingBuffer

/-!
# Channels

The bounded channels of `lib/core/channels.esk`: a ring buffer under a mutex, with a
condition variable for "not empty" and one for "not full". Each operation is one critical
section of a monitor, the part of the procedure from taking the mutex, or from the start of
its loop when a wait returns, to releasing it. The values sent are of any type, with `#f`
among them.

`Fifo` is what a channel is for: a queue of the values sent and not yet received, and whether
it is closed. The channel is related to it by what the slots of the buffer hold.
-/

namespace Eshkol.Core.Channels

open Machine Monitor RingBuffer

variable {α ι : Type}

/-! ### Channels -/

/-- The vector of a channel, less its tag, condition variables and mutex. -/
structure Channel (α : Type) where
  capacity : ℕ
  buffer : List α
  head : ℕ
  tail : ℕ
  count : ℤ
  closed : Bool

def makeChannel (falseVal : α) (cap : ℤ) : Exec String (Channel α) :=
  if cap < 1 then .error (.raised "make-channel: capacity must be >= 1")
  else .ok
    { capacity := cap.toNat
      buffer := List.replicate cap.toNat falseVal
      head := 0
      tail := 0
      count := 0
      closed := false }

def chBufferPush (ch : Channel α) (val : α) : Exec String (Channel α) := do
  let buf ← Vectors.vectorSet ch.buffer ch.tail val
  .ok { ch with
    buffer := buf
    tail := (ch.tail + 1) % ch.capacity
    count := ch.count + 1 }

/-- `-ch-buffer-pop!`: the value and the channel afterwards. -/
def chBufferPop (falseVal : α) (ch : Channel α) : Exec String (α × Channel α) := do
  let val ← Vectors.vectorRef ch.buffer ch.head
  let buf ← Vectors.vectorSet ch.buffer ch.head falseVal
  .ok (val, { ch with
    buffer := buf
    head := (ch.head + 1) % ch.capacity
    count := ch.count - 1 })

/-- The condition variables of a channel. -/
inductive Cond : Type
  | notEmpty
  | notFull
  deriving DecidableEq

/-- The operations on a channel. -/
inductive Op (α : Type) : Type
  | send (val : α)
  | recv
  | trySend (val : α)
  | tryRecv
  | close

/-- How an operation returned, by the branch it returned from. `channel-try-send!` returns
`#t` or `#f`, and `channel-try-recv!` returns `#f` when there is nothing to receive. -/
inductive Answer (α : Type) : Type
  | done
  | delivered
  | refused
  | value (val : α)
  | nothing
  | sentinel

/-- The section of `channel-send!`. -/
def channelSend (ch : Channel α) (val : α) : Exec String (Channel α × Outcome Cond (Answer α)) :=
  if ch.closed then .error (.raised "channel-send!: send on closed channel")
  else if ch.count ≥ ch.capacity then .ok (ch, .waits .notFull)
  else do
    let ch ← chBufferPush ch val
    .ok (ch, .answers .done [.signal .notEmpty])

/-- The section of `channel-recv!`. -/
def channelRecv (falseVal : α) (ch : Channel α) :
    Exec String (Channel α × Outcome Cond (Answer α)) :=
  if ch.count > 0 then do
    let (v, ch) ← chBufferPop falseVal ch
    .ok (ch, .answers (.value v) [.signal .notFull])
  else if ch.closed then .ok (ch, .answers .sentinel [])
  else .ok (ch, .waits .notEmpty)

/-- The section of `channel-try-send!`. -/
def channelTrySend (ch : Channel α) (val : α) : Exec String (Channel α × Outcome Cond (Answer α)) :=
  if ch.closed then .ok (ch, .answers .refused [])
  else if ch.count ≥ ch.capacity then .ok (ch, .answers .refused [])
  else do
    let ch ← chBufferPush ch val
    .ok (ch, .answers .delivered [.signal .notEmpty])

/-- The section of `channel-try-recv!`. -/
def channelTryRecv (falseVal : α) (ch : Channel α) :
    Exec String (Channel α × Outcome Cond (Answer α)) :=
  if ch.count > 0 then do
    let (v, ch) ← chBufferPop falseVal ch
    .ok (ch, .answers (.value v) [.signal .notFull])
  else if ch.closed then .ok (ch, .answers .sentinel [])
  else .ok (ch, .answers .nothing [])

/-- The section of `channel-close!`. -/
def channelClose (ch : Channel α) : Exec String (Channel α × Outcome Cond (Answer α)) :=
  if ch.closed then .ok (ch, .answers .done [])
  else .ok ({ ch with closed := true },
    .answers .done [.broadcast .notEmpty, .broadcast .notFull])

/-- The sections of the operations. -/
def channelSection (falseVal : α) : Sections (Channel α) (Op α) Cond (Answer α) String
  | .send val, ch => channelSend ch val
  | .recv, ch => channelRecv falseVal ch
  | .trySend val, ch => channelTrySend ch val
  | .tryRecv, ch => channelTryRecv falseVal ch
  | .close, ch => channelClose ch

/-- A channel that threads of `ι` use. -/
abbrev System (ι α : Type) : Type := State ι (Channel α) (Op α) Cond (Answer α) String

/-! ### What the calls did -/

/-- A call that has ended, with how it ended. -/
abbrev Call (α : Type) : Type := Op α × Exec String (Answer α)

/-- The value a call has sent. -/
def Call.sent : Call α → Option α
  | (.send val, .ok .done) => some val
  | (.trySend val, .ok .delivered) => some val
  | _ => none

/-- The value a call has received. -/
def Call.received : Call α → Option α
  | (_, .ok (.value val)) => some val
  | _ => none

/-- The operations that receive. -/
def Op.receives : Op α → Bool
  | .recv => true
  | .tryRecv => true
  | _ => false

/-- How a call that receives ended. -/
def Call.toReceiver (call : Call α) : Option (Exec String (Answer α)) :=
  if call.1.receives then some call.2 else none

/-- The values successfully sent, in order. -/
def sent (history : List (Call α)) : List α := history.filterMap Call.sent

/-- The values received, in order. -/
def received (history : List (Call α)) : List α := history.filterMap Call.received

/-- How the calls that receive ended, in order. -/
def receivers (history : List (Call α)) : List (Exec String (Answer α)) :=
  history.filterMap Call.toReceiver

/-- The values sent and not received. -/
def unreceived (history : List (Call α)) : List α := (sent history).drop (received history).length

/-- What a closed channel answers a receiver: the next value that remains, or the sentinel. -/
def closedAnswer : Option α → Answer α
  | some val => .value val
  | none => .sentinel

/-! ### The queue of a channel -/

/-- The values sent and not received, and whether the channel is closed. -/
structure Fifo (α : Type) where
  pending : List α
  closed : Bool

/-- Sending to a queue of capacity `cap`, with the answer for a value accepted and the outcomes
when the channel is closed and when it is full. -/
def Fifo.put (cap : ℕ) (q : Fifo α) (val : α) (accepted : Answer α)
    (refuses blocks : Exec String (Fifo α × Outcome Cond (Answer α))) :
    Exec String (Fifo α × Outcome Cond (Answer α)) :=
  if q.closed then refuses
  else if q.pending.length ≥ cap then blocks
  else .ok ({ q with pending := q.pending ++ [val] }, .answers accepted [.signal .notEmpty])

/-- Receiving from a queue, with the outcome when it is open and empty. -/
def Fifo.get (q : Fifo α) (blocks : Outcome Cond (Answer α)) :
    Exec String (Fifo α × Outcome Cond (Answer α)) :=
  match q.pending with
  | val :: rest => .ok ({ q with pending := rest }, .answers (.value val) [.signal .notFull])
  | [] => .ok (q, if q.closed then .answers .sentinel [] else blocks)

/-- The operations on a queue of capacity `cap`. -/
def Fifo.sections (cap : ℕ) : Sections (Fifo α) (Op α) Cond (Answer α) String
  | .send val, q => q.put cap val .done
      (.error (.raised "channel-send!: send on closed channel")) (.ok (q, .waits .notFull))
  | .recv, q => q.get (.waits .notEmpty)
  | .trySend val, q => q.put cap val .delivered
      (.ok (q, .answers .refused [])) (.ok (q, .answers .refused []))
  | .tryRecv, q => q.get (.answers .nothing [])
  | .close, q =>
    .ok ({ q with closed := true }, .answers .done
      (if q.closed then [] else [.broadcast .notEmpty, .broadcast .notFull]))

/-- A channel of capacity `cap` that holds the queue. -/
structure Represents (cap : ℕ) (ch : Channel α) (q : Fifo α) : Prop where
  capacity_eq : ch.capacity = cap
  length_eq : ch.buffer.length = cap
  tail_eq : ch.tail = slot ch.buffer ch.head q.pending.length
  count_eq : ch.count = q.pending.length
  closed_eq : ch.closed = q.closed
  holds : Holds ch.buffer ch.head q.pending

theorem makeChannel_spec (falseVal : α) {cap : ℤ} (hcap : 1 ≤ cap) :
    ∃ ch, makeChannel falseVal cap = .ok ch ∧ Represents cap.toNat ch ⟨[], false⟩ := by
  have hpos : 0 < (List.replicate cap.toNat falseVal).length := by
    rw [List.length_replicate]
    omega
  refine ⟨_, if_neg (by omega), rfl, List.length_replicate, ?_, rfl, rfl, .nil hpos⟩
  exact (slot_zero hpos).symm

section

variable {cap : ℕ} {ch : Channel α} {q : Fifo α}

theorem chBufferPush_spec (h : Represents cap ch q) (hroom : q.pending.length < cap) (val : α) :
    ∃ ch', chBufferPush ch val = .ok ch' ∧
      Represents cap ch' { q with pending := q.pending ++ [val] } := by
  have hroom' : q.pending.length < ch.buffer.length := by rwa [h.length_eq]
  have htail : ch.tail < ch.buffer.length := h.tail_eq ▸ slot_lt h.holds.head_lt _
  have hpush : chBufferPush ch val = .ok { ch with
      buffer := ch.buffer.set ch.tail val
      tail := (ch.tail + 1) % ch.capacity
      count := ch.count + 1 } := by
    rw [chBufferPush, Vectors.vectorSet_eq htail, ok_bind]
  refine ⟨_, hpush, h.capacity_eq, ?_, ?_, ?_, h.closed_eq, ?_⟩
  · rw [List.length_set]
    exact h.length_eq
  · change (ch.tail + 1) % ch.capacity = slot (ch.buffer.set ch.tail val) ch.head
      (q.pending ++ [val]).length
    rw [slot, List.length_set, List.length_append, List.length_singleton, h.capacity_eq,
      ← h.length_eq, h.tail_eq, slot, Nat.mod_add_mod, Nat.add_assoc]
  · change ch.count + 1 = ((q.pending ++ [val]).length : ℤ)
    rw [h.count_eq, List.length_append, List.length_singleton]
    rfl
  · rw [h.tail_eq]
    exact h.holds.push hroom' val

theorem chBufferPop_spec (falseVal : α) {val : α} {rest : List α} {closed : Bool}
    (h : Represents cap ch ⟨val :: rest, closed⟩) :
    ∃ ch', chBufferPop falseVal ch = .ok (val, ch') ∧ Represents cap ch' ⟨rest, closed⟩ := by
  have hhead := h.holds.head_eq
  have hpop : chBufferPop falseVal ch = .ok (val, { ch with
      buffer := ch.buffer.set ch.head falseVal
      head := (ch.head + 1) % ch.capacity
      count := ch.count - 1 }) := by
    rw [chBufferPop, Vectors.vectorRef_eq hhead, ok_bind, Vectors.vectorSet_eq h.holds.head_lt,
      ok_bind]
  refine ⟨_, hpop, h.capacity_eq, ?_, ?_, ?_, h.closed_eq, ?_⟩
  · rw [List.length_set]
    exact h.length_eq
  · change ch.tail = slot (ch.buffer.set ch.head falseVal) ((ch.head + 1) % ch.capacity) rest.length
    rw [h.tail_eq, slot, slot, List.length_set, h.capacity_eq, ← h.length_eq, Nat.mod_add_mod,
      List.length_cons, Nat.add_assoc, Nat.add_comm 1]
  · change ch.count - 1 = (rest.length : ℤ)
    rw [h.count_eq, List.length_cons]
    omega
  · rw [h.capacity_eq, ← h.length_eq]
    exact h.holds.pop falseVal

theorem agree_put (h : Represents cap ch q) (val : α) (accepted : Answer α)
    {refuses blocks : Exec String (Channel α × Outcome Cond (Answer α))}
    {refuses' blocks' : Exec String (Fifo α × Outcome Cond (Answer α))}
    (hrefuses : Agree (Represents cap) refuses refuses')
    (hblocks : Agree (Represents cap) blocks blocks') :
    Agree (Represents cap)
      (if ch.closed then refuses
        else if ch.count ≥ ch.capacity then blocks
        else do
          let ch ← chBufferPush ch val
          .ok (ch, .answers accepted [.signal .notEmpty]))
      (q.put cap val accepted refuses' blocks') := by
  rw [Fifo.put, h.closed_eq, h.count_eq, h.capacity_eq]
  by_cases hclosed : q.closed = true
  · rw [if_pos hclosed, if_pos hclosed]
    exact hrefuses
  · rw [if_neg hclosed, if_neg hclosed]
    by_cases hfull : q.pending.length ≥ cap
    · rw [if_pos (Int.ofNat_le.mpr hfull), if_pos hfull]
      exact hblocks
    · obtain ⟨ch', hpush, hch'⟩ := chBufferPush_spec h (not_le.mp hfull) val
      rw [if_neg fun hle => hfull (Int.ofNat_le.mp hle), if_neg hfull, hpush, ok_bind]
      exact .ok hch' _

theorem agree_get (falseVal : α) (h : Represents cap ch q) (blocks : Outcome Cond (Answer α)) :
    Agree (Represents cap)
      (if ch.count > 0 then do
          let (v, ch) ← chBufferPop falseVal ch
          .ok (ch, .answers (.value v) [.signal .notFull])
        else if ch.closed then .ok (ch, .answers .sentinel [])
        else .ok (ch, blocks))
      (q.get blocks) := by
  obtain ⟨pending, closed⟩ := q
  rw [h.count_eq, h.closed_eq]
  cases pending with
  | nil =>
    rw [if_neg (by simp)]
    cases closed with
    | true => exact .ok h _
    | false => exact .ok h _
  | cons val rest =>
    obtain ⟨ch', hpop, hch'⟩ := chBufferPop_spec falseVal h
    rw [if_pos (by simp), hpop, ok_bind]
    exact .ok hch' _

end

theorem channelSection_simulated (falseVal : α) (cap : ℕ) :
    Simulates (channelSection falseVal) (Fifo.sections cap) (Represents cap) := by
  intro op ch q h
  cases op with
  | send val => exact agree_put h val .done (.error _) (.ok h _)
  | recv => exact agree_get falseVal h (.waits .notEmpty)
  | trySend val => exact agree_put h val .delivered (.ok h _) (.ok h _)
  | tryRecv => exact agree_get falseVal h (.answers .nothing [])
  | close =>
    change Agree _ (channelClose ch) _
    rw [channelClose, h.closed_eq]
    cases hclosed : q.closed with
    | true =>
      rw [Fifo.sections]
      rw [if_pos rfl, if_pos hclosed]
      exact .ok ⟨h.capacity_eq, h.length_eq, h.tail_eq, h.count_eq, h.closed_eq.trans hclosed,
        h.holds⟩ _
    | false =>
      rw [Fifo.sections]
      rw [if_neg (by simp), if_neg (by simp [hclosed])]
      exact .ok ⟨h.capacity_eq, h.length_eq, h.tail_eq, h.count_eq, rfl, h.holds⟩ _

/-! ### Runs of the queue -/

/-- What an operation that ends does to the queue, read off its call. -/
structure Answered (cap : ℕ) (q q' : Fifo α) (call : Call α) : Prop where
  moved : q.pending ++ call.sent.toList = call.received.toList ++ q'.pending
  room : q.pending.length ≤ cap → q'.pending.length ≤ cap
  closed : q.closed = true → q'.closed = true ∧ call.sent = none ∧
    (call.1.receives = true → call.2 = .ok (closedAnswer q.pending.head?)) ∧
    (call.1.receives = false → call.received = none)

section

variable {cap : ℕ} {q q' : Fifo α} {op : Op α}

theorem Fifo.put_cases (cap : ℕ) (q : Fifo α) (val : α) (accepted : Answer α)
    (refuses blocks : Exec String (Fifo α × Outcome Cond (Answer α))) :
    (q.closed = true ∧ q.put cap val accepted refuses blocks = refuses) ∨
      (q.closed = false ∧ q.put cap val accepted refuses blocks = blocks) ∨
      (q.closed = false ∧ q.pending.length < cap ∧ q.put cap val accepted refuses blocks =
        .ok ({ q with pending := q.pending ++ [val] }, .answers accepted [.signal .notEmpty])) := by
  rw [put]
  cases q.closed with
  | true => exact .inl ⟨rfl, rfl⟩
  | false =>
    by_cases hfull : q.pending.length ≥ cap
    · exact .inr (.inl ⟨rfl, if_pos hfull⟩)
    · exact .inr (.inr ⟨rfl, not_le.mp hfull, if_neg hfull⟩)

theorem Fifo.get_cases (q : Fifo α) (blocks : Outcome Cond (Answer α)) :
    (∃ val rest, q.pending = val :: rest ∧ q.get blocks =
        .ok ({ q with pending := rest }, .answers (.value val) [.signal .notFull])) ∨
      (q.pending = [] ∧ q.closed = true ∧ q.get blocks = .ok (q, .answers .sentinel [])) ∨
      (q.closed = false ∧ q.get blocks = .ok (q, blocks)) := by
  obtain ⟨pending, closed⟩ := q
  cases pending with
  | cons val rest => exact .inl ⟨val, rest, rfl, rfl⟩
  | nil =>
    cases closed with
    | true => exact .inr (.inl ⟨rfl, rfl, rfl⟩)
    | false => exact .inr (.inr ⟨rfl, rfl⟩)

theorem Answered.accepted {val : α} {call : Call α} (hopen : q.closed = false)
    (hroom : q.pending.length < cap) (hsent : call.sent = some val) (hrec : call.received = none) :
    Answered cap q { q with pending := q.pending ++ [val] } call where
  moved := by rw [hsent, hrec]; rfl
  room _ := by
    rw [List.length_append, List.length_singleton]
    exact hroom
  closed h := by
    rw [hopen] at h
    cases h

theorem Answered.unchanged {call : Call α} (hsent : call.sent = none)
    (hrec : call.received = none)
    (hanswer : q.closed = true → call.1.receives = true →
      call.2 = .ok (closedAnswer q.pending.head?)) : Answered cap q q call where
  moved := by rw [hsent, hrec, Option.toList_none, List.append_nil, List.nil_append]
  room h := h
  closed h := ⟨h, hsent, hanswer h, fun _ => hrec⟩

theorem Answered.popped {val : α} {rest : List α} (hpending : q.pending = val :: rest)
    (hop : op.receives = true) (hsent : ∀ r, Call.sent (op, r) = none) :
    Answered cap q { q with pending := rest } (op, .ok (.value val)) where
  moved := by
    rw [hsent, hpending]
    exact List.append_nil _
  room h := by
    rw [hpending, List.length_cons] at h
    exact Nat.le_of_succ_le h
  closed h := by
    refine ⟨h, hsent _, fun _ => ?_, fun hno => ?_⟩
    · rw [hpending]
      rfl
    · rw [hop] at hno
      cases hno

theorem Answered.pending_eq_tail {call : Call α} (h : Answered cap q q' call)
    (hclosed : q.closed = true) (hop : call.1.receives = true) : q'.pending = q.pending.tail := by
  obtain ⟨op, r⟩ := call
  obtain ⟨-, hsent, hanswer, -⟩ := h.closed hclosed
  have hmoved := h.moved
  obtain rfl : r = _ := hanswer hop
  rw [hsent] at hmoved
  cases hq : q.pending with
  | nil =>
    rw [hq] at hmoved
    exact hmoved.symm
  | cons val rest =>
    rw [hq] at hmoved
    have hrest : val :: (rest ++ []) = val :: q'.pending := hmoved
    rw [List.append_nil] at hrest
    exact (List.cons.inj hrest).2.symm

/-- The ways in which an operation on a queue can go. -/
inductive Goes (cap : ℕ) (q : Fifo α) (op : Op α) :
    Exec String (Fifo α × Outcome Cond (Answer α)) → Prop
  | answers {q' : Fifo α} {a : Answer α} {ns : List (Notice Cond)}
      (h : Answered cap q q' (op, .ok a))
      (hns : q'.closed = true → q.closed = true ∨ ∀ c, Notice.broadcast c ∈ ns) :
      Goes cap q op (.ok (q', .answers a ns))
  | raises (hclosed : q.closed = true) (hop : ∃ val, op = .send val) :
      Goes cap q op (.error (.raised "channel-send!: send on closed channel"))
  | waits (hopen : q.closed = false) (c : Cond) : Goes cap q op (.ok (q, .waits c))

/-- **An operation on a queue** moves at most one value, into the queue or out of it; it raises
an error only when it sends to a closed channel, and waits only on an open one. -/
theorem Fifo.goes (cap : ℕ) (q : Fifo α) (op : Op α) : Goes cap q op (sections cap op q) := by
  cases op with
  | send val =>
    rcases put_cases cap q val .done (.error (.raised "channel-send!: send on closed channel"))
      (.ok (q, .waits .notFull)) with ⟨hclosed, h⟩ | ⟨hopen, h⟩ | ⟨hopen, hroom, h⟩
    · rw [sections, h]
      exact .raises hclosed ⟨val, rfl⟩
    · rw [sections, h]
      exact .waits hopen _
    · rw [sections, h]
      exact .answers (.accepted hopen hroom rfl rfl) .inl
  | recv =>
    rcases get_cases q (.waits .notEmpty) with ⟨val, rest, hq, h⟩ | ⟨hq, -, h⟩ | ⟨hopen, h⟩
    · rw [sections, h]
      exact .answers (.popped hq rfl fun _ => rfl) .inl
    · rw [sections, h]
      exact .answers (.unchanged rfl rfl fun _ _ => by rw [hq]; rfl) .inl
    · rw [sections, h]
      exact .waits hopen _
  | trySend val =>
    rcases put_cases cap q val .delivered (.ok (q, .answers .refused []))
      (.ok (q, .answers .refused [])) with ⟨-, h⟩ | ⟨-, h⟩ | ⟨hopen, hroom, h⟩
    · rw [sections, h]
      exact .answers (.unchanged rfl rfl fun _ hop => by cases hop) .inl
    · rw [sections, h]
      exact .answers (.unchanged rfl rfl fun _ hop => by cases hop) .inl
    · rw [sections, h]
      exact .answers (.accepted hopen hroom rfl rfl) .inl
  | tryRecv =>
    rcases get_cases q (.answers .nothing []) with ⟨val, rest, hq, h⟩ | ⟨hq, -, h⟩ | ⟨hopen, h⟩
    · rw [sections, h]
      exact .answers (.popped hq rfl fun _ => rfl) .inl
    · rw [sections, h]
      exact .answers (.unchanged rfl rfl fun _ _ => by rw [hq]; rfl) .inl
    · rw [sections, h]
      refine .answers (.unchanged rfl rfl fun hclosed => ?_) .inl
      rw [hopen] at hclosed
      cases hclosed
  | close =>
    rw [sections]
    refine .answers ⟨List.append_nil _, id, fun _ => ⟨rfl, rfl, ?_, fun _ => rfl⟩⟩ fun _ => ?_
    · intro hop
      cases hop
    · cases hclosed : q.closed with
      | true => exact .inl rfl
      | false => exact .inr fun c => by cases c <;> simp

theorem Fifo.answered {a : Answer α} {ns : List (Notice Cond)}
    (h : sections cap op q = .ok (q', .answers a ns)) :
    Answered cap q q' (op, .ok a) ∧
      (q'.closed = true → q.closed = true ∨ ∀ c, Notice.broadcast c ∈ ns) := by
  have hgoes := goes cap q op
  rw [h] at hgoes
  cases hgoes with
  | answers h hns => exact ⟨h, hns⟩

theorem Fifo.raised {e : Fault String} (h : sections cap op q = .error e) :
    q.closed = true ∧ (∃ val, op = .send val) ∧
      e = .raised "channel-send!: send on closed channel" := by
  have hgoes := goes cap q op
  rw [h] at hgoes
  cases hgoes with
  | raises hclosed hop => exact ⟨hclosed, hop, rfl⟩

theorem Fifo.waited {c : Cond} (h : sections cap op q = .ok (q', .waits c)) :
    q' = q ∧ q.closed = false := by
  have hgoes := goes cap q op
  rw [h] at hgoes
  cases hgoes with
  | waits hopen _ => exact ⟨rfl, hopen⟩

end

theorem filterMap_concat {β γ : Type} (f : β → Option γ) (l : List β) (b : β) :
    (l ++ [b]).filterMap f = l.filterMap f ++ (f b).toList := by
  rw [List.filterMap_append]
  cases h : f b with
  | none => simp [h]
  | some c => simp [h]

theorem Call.sent_error (op : Op α) (e : Fault String) : Call.sent (op, .error e) = none := by
  cases op <;> rfl

/-- What is sent has been received or is pending. -/
def InOrder (cap : ℕ) (q : Fifo α) (history : List (Call α)) : Prop :=
  sent history = received history ++ q.pending ∧ q.pending.length ≤ cap

theorem preserves_inOrder (cap : ℕ) :
    Preserves (Fifo.sections cap : Sections (Fifo α) _ _ _ _) (InOrder cap) where
  answers op q q' a ns h := by
    rintro ⟨hsent, hroom⟩ hsec
    obtain ⟨hans, -⟩ := Fifo.answered hsec
    refine ⟨?_, hans.room hroom⟩
    rw [sent, received, filterMap_concat, filterMap_concat, ← sent, ← received, hsent,
      List.append_assoc, hans.moved, List.append_assoc]
  fails op q e h := by
    rintro ⟨hsent, hroom⟩ -
    refine ⟨?_, hroom⟩
    rw [sent, received, filterMap_concat, filterMap_concat, Call.sent_error, ← sent, ← received,
      hsent]
    simp [Call.received]
  waits op q q' c h := by
    rintro hq hsec
    obtain ⟨rfl, -⟩ := Fifo.waited hsec
    exact hq

/-- What has happened to a closed channel since its calls were `history` and `remaining` was
pending: nothing was sent, and the receivers were answered from what remained. -/
def Drained (history : List (Call α)) (remaining : List α) (q : Fifo α) (now : List (Call α)) :
    Prop :=
  q.closed = true ∧ ∃ later, now = history ++ later ∧ sent later = [] ∧
    q.pending = remaining.drop (receivers later).length ∧
    receivers later = (List.range (receivers later).length).map fun i =>
      .ok (closedAnswer remaining[i]?)

/-- A step keeps what is drained. -/
theorem preserves_drained (cap : ℕ) (history : List (Call α)) (remaining : List α) :
    Preserves (Fifo.sections cap) (Drained history remaining) where
  answers op q q' a ns h := by
    rintro ⟨hclosed, later, rfl, hsent, hpending, hanswers⟩ hsec
    obtain ⟨hans, -⟩ := Fifo.answered hsec
    obtain ⟨hclosed', hnone, hyes, hno⟩ := hans.closed hclosed
    have hmoved := hans.moved
    rw [hnone, Option.toList_none, List.append_nil] at hmoved
    refine ⟨hclosed', later ++ [(op, .ok a)], List.append_assoc _ _ _, ?_, ?_⟩
    · rw [sent, filterMap_concat, ← sent, hsent, hnone]
      rfl
    · rw [receivers, filterMap_concat, ← receivers, Call.toReceiver]
      cases hop : op.receives with
      | false =>
        rw [hno hop] at hmoved
        rw [if_neg (by simp), Option.toList_none, List.append_nil]
        exact ⟨hmoved.symm.trans hpending, hanswers⟩
      | true =>
        have ha := hyes hop
        rw [hpending, List.head?_drop] at ha
        rw [if_pos rfl, Option.toList_some, List.length_append, List.length_singleton,
          List.range_succ, List.map_append, ← hanswers, List.map_singleton, ← ha]
        refine ⟨?_, rfl⟩
        rw [← List.tail_drop, ← hpending]
        exact hans.pending_eq_tail hclosed hop
  fails op q e h := by
    rintro ⟨hclosed, later, rfl, hsent, hpending, hanswers⟩ hsec
    obtain ⟨-, ⟨val, rfl⟩, -⟩ := Fifo.raised hsec
    refine ⟨hclosed, later ++ [(.send val, .error e)], List.append_assoc _ _ _, ?_, ?_⟩
    · rw [sent, filterMap_concat, ← sent, hsent]
      rfl
    · rw [receivers, filterMap_concat, ← receivers, Call.toReceiver, if_neg (by simp [Op.receives]),
        Option.toList_none, List.append_nil]
      exact ⟨hpending, hanswers⟩
  waits op q q' c h := by
    rintro hq hsec
    obtain ⟨rfl, -⟩ := Fifo.waited hsec
    exact hq

theorem announces_closed (cap : ℕ) :
    Announces (Fifo.sections cap : Sections (Fifo α) _ _ _ _) (fun q => q.closed = true) where
  onset _ _ _ _ _ h := (Fifo.answered h).2
  waits _ _ _ _ h := by
    obtain ⟨rfl, hopen⟩ := Fifo.waited h
    rw [hopen]
    simp

/-! ### Runs of a channel -/

/-- What holds of a channel of capacity `cap` in a state of the threads that use it. -/
structure Delivers [DecidableEq ι] (falseVal : α) (cap : ℤ) (s : System ι α) : Prop where
  /-- What is received is an initial part of what is sent. -/
  in_order : received s.history <+: sent s.history
  count_eq : s.shared.count = (sent s.history).length - (received s.history).length
  count_nonneg : 0 ≤ s.shared.count
  count_le : s.shared.count ≤ cap
  /-- Sending to a closed channel is the only error. -/
  raises : ∀ op e, channelSection falseVal op s.shared = .error e →
    s.shared.closed = true ∧ (∃ val, op = .send val) ∧
      e = .raised "channel-send!: send on closed channel"
  /-- A closed channel stays closed and accepts nothing. -/
  refuses : s.shared.closed = true → ∀ s', Steps (channelSection falseVal) s s' →
    s'.shared.closed = true ∧ sent s'.history = sent s.history
  awake : s.shared.closed = true → ¬ s.Waiting
  /-- A closed channel answers each receiver at once, from what remains. -/
  answers : s.shared.closed = true → ∀ op : Op α, op.receives = true →
    ∃ ch ns, channelSection falseVal op s.shared =
      .ok (ch, .answers (closedAnswer (unreceived s.history).head?) ns)
  /-- The receivers after closing get the values that remain, in order, then the sentinel. -/
  drains : s.shared.closed = true → ∀ s', Steps (channelSection falseVal) s s' →
    ∃ later, s'.history = s.history ++ later ∧ ∀ (i : ℕ) (r : Exec String (Answer α)),
      (receivers later)[i]? = some r → r = .ok (closedAnswer (unreceived s.history)[i]?)

section

variable [DecidableEq ι] {falseVal : α} {cap : ℕ} {q : Fifo α} {s s' : System ι α}

theorem InOrder.unreceived_eq {history : List (Call α)} (h : InOrder cap q history) :
    unreceived history = q.pending := by
  rw [unreceived, h.1, List.drop_left]

theorem Represents.drained (h : Represents cap s.shared q) (hclosed : s.shared.closed = true)
    (hsteps : Steps (channelSection falseVal) s s') :
    s'.shared.closed = true ∧ ∃ q', Drained s.history q.pending q' s'.history := by
  obtain ⟨q', hq', hrun⟩ := Steps.simulate (channelSection_simulated falseVal cap) hsteps h
  have hdrained := Steps.invariant (preserves_drained cap s.history q.pending) hrun
    ⟨h.closed_eq ▸ hclosed, [], (List.append_nil _).symm, rfl, rfl, rfl⟩
  exact ⟨hq'.closed_eq.trans hdrained.1, q', hdrained⟩

omit [DecidableEq ι] in
theorem Represents.answers (h : Represents cap s.shared q) (hclosed : s.shared.closed = true)
    {op : Op α} (hop : op.receives = true) :
    ∃ ch ns, channelSection falseVal op s.shared =
      .ok (ch, .answers (closedAnswer q.pending.head?) ns) := by
  rw [h.closed_eq] at hclosed
  have hagree := channelSection_simulated falseVal cap op s.shared q h
  have hgoes := Fifo.goes cap q op
  generalize channelSection falseVal op s.shared = r at hagree
  generalize Fifo.sections cap op q = r' at hagree hgoes
  cases hgoes with
  | answers hans hns =>
    obtain ⟨-, -, hyes, -⟩ := hans.closed hclosed
    obtain rfl := Except.ok.inj (hyes hop)
    cases hagree with
    | ok _ _ => exact ⟨_, _, rfl⟩
  | raises _ hsend =>
    obtain ⟨val, rfl⟩ := hsend
    cases hop
  | waits hopen c =>
    rw [hopen] at hclosed
    cases hclosed

end

/-- **Channels deliver in order, without loss**: for every capacity of at least one and every
interleaving of the operations of any threads. -/
theorem channel_delivers [DecidableEq ι] (falseVal : α) {cap : ℤ} (hcap : 1 ≤ cap) :
    ∃ ch, makeChannel falseVal cap = .ok ch ∧
      ∀ s : System ι α, Steps (channelSection falseVal) (start ch) s → Delivers falseVal cap s := by
  obtain ⟨ch, hmake, hrep⟩ := makeChannel_spec falseVal hcap
  refine ⟨ch, hmake, fun s hs => ?_⟩
  obtain ⟨q, hq, hrun⟩ := Steps.simulate (channelSection_simulated falseVal cap.toNat) hs hrep
  have horder : InOrder cap.toNat q s.history :=
    Steps.invariant (preserves_inOrder cap.toNat) hrun ⟨rfl, Nat.zero_le _⟩
  have hcount := hq.count_eq
  have hlength : (sent s.history).length = (received s.history).length + q.pending.length := by
    rw [horder.1, List.length_append]
  have hroom := horder.2
  refine ⟨⟨q.pending, horder.1.symm⟩, by omega, by omega, by omega, fun op e h => ?_,
    fun hclosed s' hsteps => ?_, fun hclosed => ?_, fun hclosed op hop => ?_,
    fun hclosed s' hsteps => ?_⟩
  · have herr := (channelSection_simulated falseVal cap.toNat).of_error hq h
    rw [hq.closed_eq]
    exact Fifo.raised herr
  · obtain ⟨hclosed', q', -, later, hlater, hsent, -⟩ := hq.drained hclosed hsteps
    refine ⟨hclosed', ?_⟩
    rw [hlater, sent, List.filterMap_append, ← sent, ← sent, hsent, List.append_nil]
  · rw [hq.closed_eq] at hclosed
    have hawake : ¬ (s.withShared q).Waiting :=
      Steps.no_waiters (announces_closed cap.toNat) hrun (start_not_waiting _) hclosed
    exact hawake
  · rw [horder.unreceived_eq]
    exact hq.answers hclosed hop
  · obtain ⟨-, q', -, later, hlater, -, -, hanswers⟩ := hq.drained hclosed hsteps
    refine ⟨later, hlater, fun i r hr => ?_⟩
    rw [horder.unreceived_eq]
    rw [hanswers, List.getElem?_map, Option.map_eq_some_iff] at hr
    obtain ⟨k, hk, rfl⟩ := hr
    obtain ⟨-, rfl⟩ := List.getElem?_eq_some_iff.mp hk
    rw [List.getElem_range]

/-- Two threads on a channel of capacity one: the first call receives and waits, the second
sends and wakes it. -/
theorem channel_delivers_woken :
    ∃ ch, makeChannel 0 1 = .ok ch ∧ ∃ s : System Bool ℕ,
      Steps (channelSection 0) (start ch) s ∧ sent s.history = [7] ∧ received s.history = [7] ∧
        Delivers 0 1 s := by
  obtain ⟨ch, hmake, hall⟩ := @channel_delivers ℕ Bool _ 0 1 le_rfl
  cases hmake
  refine ⟨_, rfl, ?_⟩
  obtain ⟨s, hrun, hhistory⟩ : ∃ s : System Bool ℕ,
      Steps (channelSection 0) (start ⟨1, [0], 0, 0, 0, false⟩) s ∧
        s.history = [(.send 7, .ok .done), (.recv, .ok (.value 7))] :=
    ⟨_, .head (.call (t := false) .recv rfl) <|
      .head (.wait (t := false) rfl rfl) <|
      .head (.call (t := true) (.send 7) rfl) <|
      .head (.finish (t := true) rfl rfl (.cons (.one (t := false) rfl) .nil)) <|
      .head (.finish (t := false) rfl rfl
        (.cons (.unheard fun t op => by cases t <;> simp) .nil)) .refl, rfl⟩
  exact ⟨s, hrun, by rw [hhistory]; rfl, by rw [hhistory]; rfl, hall s hrun⟩

end Eshkol.Core.Channels
