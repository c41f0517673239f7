import Eshkol.Replication.Events
import Mathlib.Logic.Function.Basic
import Mathlib.Logic.Relation

/-!
# Replicas and Messages

Replicas of a data type that perform operations locally and send each other their states. A
replica that receives a state merges it with its own, on either side; a message may be received
any number of times, by any replica, in any order, or never.

A version of the data carries, beside its state, the set of events that have reached it. The
events are a ghost: no operation reads them. Operations may be authored by a node; every node is
owned by one replica, which is the only one to perform operations in its name.
-/

namespace Replication

variable {R S Op N β : Type} [DecidableEq Op]

/-- A state of the data, with the events that have reached it. -/
structure Version (S Op : Type) where
  state : S
  known : Finset (Event Op)

/-- A replicated data type: `perform s op s'` says that the operation `op` takes the state `s`
to `s'`. -/
structure DataType (S Op N : Type) where
  init : S
  perform : S → Op → S → Prop
  merge : S → S → S
  author : Op → Option N

/-- The data type with operations performed only where they are allowed. -/
def DataType.restrict (D : DataType S Op N) (allowed : S → Op → Prop) : DataType S Op N :=
  { D with perform := fun s op s' => allowed s op ∧ D.perform s op s' }

/-- The replicas, the versions sent so far, and all events. -/
structure System (R S Op : Type) where
  replica : R → Version S Op
  sent : List (Version S Op)
  log : Finset (Event Op)

/-! ### Runs -/

section Runs

variable [DecidableEq R]

/-- Merging two versions. -/
def Version.merge (D : DataType S Op N) (v w : Version S Op) : Version S Op :=
  ⟨D.merge v.state w.state, v.known ∪ w.known⟩

/-- The system in which replica `r` holds another version. -/
def System.hold (sys : System R S Op) (r : R) (v : Version S Op) : System R S Op :=
  { sys with replica := Function.update sys.replica r v }

/-- The event of an operation at replica `r`. -/
def System.event (sys : System R S Op) (r : R) (op : Op) : Event Op :=
  ⟨sys.log.card, op, (sys.replica r).known.image Event.index⟩

/-- The system after an operation at replica `r` that gives the state `s`. -/
def System.operate (sys : System R S Op) (r : R) (op : Op) (s : S) : System R S Op :=
  { sys.hold r ⟨s, insert (sys.event r op) (sys.replica r).known⟩ with
    log := insert (sys.event r op) sys.log }

/-- No replica has performed or sent anything. -/
def System.initial (D : DataType S Op N) : System R S Op := ⟨fun _ => ⟨D.init, ∅⟩, [], ∅⟩

/-- One step of a run. -/
inductive Step (D : DataType S Op N) (owner : N → R) : System R S Op → System R S Op → Prop
  | operate {sys : System R S Op} (r : R) (op : Op) (s : S)
      (howner : ∀ n, D.author op = some n → owner n = r)
      (hop : D.perform (sys.replica r).state op s) : Step D owner sys (sys.operate r op s)
  | send {sys : System R S Op} (r : R) :
      Step D owner sys { sys with sent := sys.replica r :: sys.sent }
  | receive {sys : System R S Op} (r : R) (m : Version S Op) (hm : m ∈ sys.sent) :
      Step D owner sys (sys.hold r ((sys.replica r).merge D m))
  | receiveFirst {sys : System R S Op} (r : R) (m : Version S Op) (hm : m ∈ sys.sent) :
      Step D owner sys (sys.hold r (m.merge D (sys.replica r)))

/-- The systems that a run can lead to. -/
def Reachable (D : DataType S Op N) (owner : N → R) (sys : System R S Op) : Prop :=
  Relation.ReflTransGen (Step D owner) (.initial D) sys

section Constructors

variable {D : DataType S Op N} {owner : N → R} {sys : System R S Op}

theorem Reachable.initial : Reachable D owner (.initial D) := .refl

theorem Reachable.operate (h : Reachable D owner sys) (r : R) (op : Op) (s : S)
    (howner : ∀ n, D.author op = some n → owner n = r)
    (hop : D.perform (sys.replica r).state op s) : Reachable D owner (sys.operate r op s) :=
  h.tail (.operate r op s howner hop)

theorem Reachable.send (h : Reachable D owner sys) (r : R) :
    Reachable D owner { sys with sent := sys.replica r :: sys.sent } :=
  h.tail (.send r)

theorem Reachable.receive (h : Reachable D owner sys) (r : R) {m : Version S Op}
    (hm : m ∈ sys.sent) : Reachable D owner (sys.hold r ((sys.replica r).merge D m)) :=
  h.tail (.receive r m hm)

end Constructors

/-- A version that a replica holds, or has sent. -/
def System.Holds (sys : System R S Op) (v : Version S Op) : Prop :=
  (∃ r, sys.replica r = v) ∨ v ∈ sys.sent

end Runs

/-! ### What runs keep -/

/-- A relation between the events known to a version and its state that operations and merges
keep. -/
structure Tracks (D : DataType S Op N) (P : Finset (Event Op) → S → Prop) : Prop where
  init : P ∅ D.init
  perform : ∀ {K : Finset (Event Op)} {s : S} {e : Event Op} {s' : S},
    Coherent D.author K → Next K e → Coherent D.author (insert e K) → P K s →
      D.perform s e.op s' → P (insert e K) s'
  merge : ∀ {K L : Finset (Event Op)} {s t : S}, Closed K → Closed L →
    Coherent D.author (K ∪ L) → P K s → P L t → P (K ∪ L) (D.merge s t)

variable [DecidableEq R] {D : DataType S Op N} {owner : N → R} {sys sys' : System R S Op}
  {P : Finset (Event Op) → S → Prop}

/-- What is known to a version is closed and part of the log, and is tracked. -/
structure Sound (P : Finset (Event Op) → S → Prop) (log : Finset (Event Op))
    (v : Version S Op) : Prop where
  subset : v.known ⊆ log
  closed : Closed v.known
  tracked : P v.known v.state

/-- The invariant of runs. -/
structure Invariant (D : DataType S Op N) (owner : N → R) (P : Finset (Event Op) → S → Prop)
    (sys : System R S Op) : Prop where
  consistent : Consistent D.author sys.log
  bound : ∀ e ∈ sys.log, e.index < sys.log.card
  authored : ∀ e ∈ sys.log, ∀ n, D.author e.op = some n → e ∈ (sys.replica (owner n)).known
  sound : ∀ v, sys.Holds v → Sound P sys.log v

variable {log : Finset (Event Op)} {v : Version S Op} {r : R} {op : Op}

omit [DecidableEq Op] in
theorem Sound.mono {log' : Finset (Event Op)} (h : Sound P log v) (hlog : log ⊆ log') :
    Sound P log' v :=
  ⟨h.subset.trans hlog, h.closed, h.tracked⟩

omit [DecidableEq Op] in
theorem Sound.coherent (h : Sound P log v) (hlog : Consistent D.author log) :
    Coherent D.author v.known :=
  ⟨hlog.mono h.subset, h.closed⟩

theorem Sound.merge (hP : Tracks D P) (hlog : Consistent D.author log) {w : Version S Op}
    (hv : Sound P log v) (hw : Sound P log w) : Sound P log (v.merge D w) where
  subset := Finset.union_subset hv.subset hw.subset
  closed := hv.closed.union hw.closed
  tracked := hP.merge hv.closed hw.closed
    ⟨hlog.mono (Finset.union_subset hv.subset hw.subset), hv.closed.union hw.closed⟩
    hv.tracked hw.tracked

omit [DecidableEq R] in
theorem Invariant.initial (hP : Tracks D P) : Invariant D owner P (.initial D) where
  consistent := ⟨by simp [System.initial], by simp [System.initial], by simp [System.initial]⟩
  bound := by simp [System.initial]
  authored := by simp [System.initial]
  sound := by
    rintro v (⟨r, rfl⟩ | hv)
    · exact ⟨Finset.empty_subset _, fun e he => absurd he (Finset.notMem_empty e), hP.init⟩
    · cases hv

omit [DecidableEq Op] in
theorem hold_holds {w : Version S Op} (h : (sys.hold r v).Holds w) : w = v ∨ sys.Holds w := by
  rcases h with ⟨q, rfl⟩ | hw
  · by_cases hq : q = r
    · subst hq
      exact .inl (Function.update_self ..)
    · exact .inr (.inl ⟨q, (Function.update_of_ne hq ..).symm⟩)
  · exact .inr (.inr hw)

omit [DecidableEq Op] in
theorem Invariant.hold (h : Invariant D owner P sys) (hv : Sound P sys.log v)
    (hsub : (sys.replica r).known ⊆ v.known) :
    Invariant D owner P (sys.hold r v) where
  consistent := h.consistent
  bound := h.bound
  authored := by
    intro e he n hn
    have hmem := h.authored e he n hn
    by_cases hr : owner n = r
    · subst hr
      simpa [System.hold] using hsub hmem
    · simpa [System.hold, Function.update_of_ne hr] using hmem
  sound := by
    intro w hw
    rcases hold_holds hw with rfl | hw
    · exact hv
    · exact h.sound w hw

omit [DecidableEq Op] [DecidableEq R] in
theorem Invariant.next (h : Invariant D owner P sys) (r : R) (op : Op) :
    Next (sys.replica r).known (sys.event r op) where
  seen_eq := rfl
  later := fun f hf => h.bound f ((h.sound _ (.inl ⟨r, rfl⟩)).subset hf)

omit [DecidableEq R] in
theorem Invariant.consistent_insert (h : Invariant D owner P sys)
    (howner : ∀ n, D.author op = some n → owner n = r) :
    Consistent D.author (insert (sys.event r op) sys.log) where
  index_inj := by
    intro e he f hf hef
    rcases Finset.mem_insert.mp he with rfl | he <;> rcases Finset.mem_insert.mp hf with rfl | hf
    · rfl
    · exact absurd hef (h.bound f hf).ne'
    · exact absurd hef (h.bound e he).ne
    · exact h.consistent.index_inj e he f hf hef
  earlier := by
    intro e he i hi
    rcases Finset.mem_insert.mp he with rfl | he
    · obtain ⟨f, hf, rfl⟩ := Finset.mem_image.mp hi
      exact (h.next r op).later f hf
    · exact h.consistent.earlier e he i hi
  ordered := by
    intro e he f hf n hen hfn hlt
    rcases Finset.mem_insert.mp hf with rfl | hf
    · rcases Finset.mem_insert.mp he with rfl | he
      · exact absurd hlt (lt_irrefl _)
      · have hmem := h.authored e he n hen
        rw [howner n hfn] at hmem
        exact (h.next r op).mem_seen hmem
    · rcases Finset.mem_insert.mp he with rfl | he
      · exact absurd hlt (h.bound f hf).not_gt
      · exact h.consistent.ordered e he f hf n hen hfn hlt

omit [DecidableEq R] in
theorem Invariant.sound_operate (hP : Tracks D P) (h : Invariant D owner P sys) {r : R} {op : Op}
    {s : S} (howner : ∀ n, D.author op = some n → owner n = r)
    (hop : D.perform (sys.replica r).state op s) :
    Sound P (insert (sys.event r op) sys.log)
      ⟨s, insert (sys.event r op) (sys.replica r).known⟩ := by
  have hr := h.sound _ (.inl ⟨r, rfl⟩)
  have hsub : insert (sys.event r op) (sys.replica r).known ⊆ insert (sys.event r op) sys.log :=
    Finset.insert_subset_insert _ hr.subset
  have hclosed := hr.closed.insert (h.next r op)
  refine ⟨hsub, hclosed, ?_⟩
  exact hP.perform ⟨h.consistent.mono hr.subset, hr.closed⟩ (h.next r op)
    ⟨(h.consistent_insert howner).mono hsub, hclosed⟩ hr.tracked hop

theorem Invariant.operate (hP : Tracks D P) (h : Invariant D owner P sys) {r : R} {op : Op}
    {s : S} (howner : ∀ n, D.author op = some n → owner n = r)
    (hop : D.perform (sys.replica r).state op s) :
    Invariant D owner P (sys.operate r op s) where
  consistent := h.consistent_insert howner
  bound := by
    intro e he
    have hfresh : sys.event r op ∉ sys.log := fun hm => (h.bound _ hm).false
    change e.index < (insert (sys.event r op) sys.log).card
    rw [Finset.card_insert_of_notMem hfresh]
    rcases Finset.mem_insert.mp he with rfl | he
    · exact Nat.lt_succ_self _
    · exact (h.bound e he).trans (Nat.lt_succ_self _)
  authored := by
    intro e he n hn
    rcases Finset.mem_insert.mp he with rfl | he
    · simp [System.operate, System.hold, howner n hn]
    · have hmem := h.authored e he n hn
      by_cases hr : owner n = r
      · subst hr
        simpa [System.operate, System.hold] using Or.inr hmem
      · simpa [System.operate, System.hold, Function.update_of_ne hr] using hmem
  sound := by
    intro v hv
    rcases hold_holds hv with rfl | hv
    · exact h.sound_operate hP howner hop
    · exact (h.sound v hv).mono (Finset.subset_insert _ _)

theorem Invariant.step (hP : Tracks D P) (h : Invariant D owner P sys)
    (hstep : Step D owner sys sys') : Invariant D owner P sys' := by
  cases hstep with
  | operate r op s howner hop => exact h.operate hP howner hop
  | send r =>
    refine ⟨h.consistent, h.bound, h.authored, ?_⟩
    rintro v (⟨q, rfl⟩ | hv)
    · exact h.sound _ (.inl ⟨q, rfl⟩)
    · rcases List.mem_cons.mp hv with rfl | hv
      · exact h.sound _ (.inl ⟨r, rfl⟩)
      · exact h.sound v (.inr hv)
  | receive r m hm =>
    have hr := h.sound _ (.inl ⟨r, rfl⟩)
    exact h.hold (hr.merge hP h.consistent (h.sound m (.inr hm))) Finset.subset_union_left
  | receiveFirst r m hm =>
    have hr := h.sound _ (.inl ⟨r, rfl⟩)
    exact h.hold ((h.sound m (.inr hm)).merge hP h.consistent hr) Finset.subset_union_right

theorem Reachable.invariant (hP : Tracks D P) (h : Reachable D owner sys) :
    Invariant D owner P sys := by
  induction h with
  | refl => exact .initial hP
  | tail _ hstep ih => exact ih.step hP hstep

theorem Reachable.tracks (hP : Tracks D P) (h : Reachable D owner sys) (hv : sys.Holds v) :
    P v.known v.state :=
  ((h.invariant hP).sound v hv).tracked

theorem Reachable.tracks_merge (hP : Tracks D P) (h : Reachable D owner sys)
    {a b : Version S Op} (ha : sys.Holds a) (hb : sys.Holds b) :
    Coherent D.author (a.known ∪ b.known) ∧ P (a.known ∪ b.known) (D.merge a.state b.state) := by
  have hinv := h.invariant hP
  have hab := (hinv.sound a ha).merge hP hinv.consistent (hinv.sound b hb)
  exact ⟨hab.coherent hinv.consistent, hab.tracked⟩

theorem Reachable.coherent (hP : Tracks D P) (h : Reachable D owner sys) (hv : sys.Holds v) :
    Coherent D.author v.known :=
  ((h.invariant hP).sound v hv).coherent (h.invariant hP).consistent

/-- Merging versions of a system is commutative, associative and idempotent, as far as
`observe` shows. -/
def MergeLaws (D : DataType S Op N) (sys : System R S Op) (observe : S → β) : Prop :=
  ∀ a b c : Version S Op, sys.Holds a → sys.Holds b → sys.Holds c →
    observe (D.merge a.state b.state) = observe (D.merge b.state a.state) ∧
      observe (D.merge (D.merge a.state b.state) c.state) =
        observe (D.merge a.state (D.merge b.state c.state)) ∧
      observe (D.merge a.state a.state) = observe a.state

/-- **Merge laws.** What is determined by the known events does not depend on the order in which
versions of one run are merged, nor on how often. -/
theorem Tracks.merge_laws (hP : Tracks D P) {observe : S → β}
    (hobs : ∀ {K : Finset (Event Op)} {s t : S}, Coherent D.author K → P K s → P K t →
      observe s = observe t)
    (h : Reachable D owner sys) : MergeLaws D sys observe := by
  intro a b c ha hb hc
  have hinv := h.invariant hP
  have hsa := hinv.sound a ha
  have hsb := hinv.sound b hb
  have hsc := hinv.sound c hc
  have hunique : ∀ {v w : Version S Op}, Sound P sys.log v → Sound P sys.log w →
      v.known = w.known → observe v.state = observe w.state := by
    intro v w hv hw hvw
    exact hobs (hv.coherent hinv.consistent) hv.tracked (hvw ▸ hw.tracked)
  refine ⟨?_, ?_, ?_⟩
  · exact hunique (hsa.merge hP hinv.consistent hsb) (hsb.merge hP hinv.consistent hsa)
      (Finset.union_comm _ _)
  · exact hunique ((hsa.merge hP hinv.consistent hsb).merge hP hinv.consistent hsc)
      (hsa.merge hP hinv.consistent (hsb.merge hP hinv.consistent hsc))
      (Finset.union_assoc _ _ _)
  · exact hunique (hsa.merge hP hinv.consistent hsa) hsa (Finset.union_self _)

end Replication
