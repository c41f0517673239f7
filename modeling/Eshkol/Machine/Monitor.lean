import Mathlib.Logic.Function.Basic
import Mathlib.Logic.Relation
import Eshkol.Machine.Exec

/-!
# Monitors

Threads that share a state under one mutex, with condition variables. A call runs one
critical section at a time: the section either ends the call with an answer, after notifying
condition variables, or raises an error, or waits on a condition variable. Waiting releases
the mutex; a thread that is woken runs its section again from the start. A signal wakes one
of the threads that wait, a broadcast all of them, and a thread may also wake without being
notified. The steps of the threads interleave in any order.

The history lists the calls that have ended, in the order of their last sections.

## Main results

* `Steps.invariant`: what every section preserves holds throughout a run.
* `Steps.simulate`: a monitor whose sections are simulated by those of another has only its
  runs.
* `Steps.no_waiters`: a condition whose onset is broadcast, and in which no section waits,
  leaves no thread waiting.
-/

namespace Monitor

open Machine Function

variable {ι S T Op C A ε : Type}

/-- What a section asks of a condition variable. -/
inductive Notice (C : Type) : Type
  | signal (c : C)
  | broadcast (c : C)
  deriving DecidableEq

/-- How a section that raises no error ends. -/
inductive Outcome (C A : Type) : Type
  | answers (a : A) (notices : List (Notice C))
  | waits (c : C)

/-- What a thread is doing: nothing, a call whose section is to run, or waiting. -/
inductive Thread (Op C : Type) : Type
  | idle
  | ready (op : Op)
  | waiting (op : Op) (c : C)

/-- The section of each operation on the shared state. -/
abbrev Sections (S Op C A ε : Type) : Type := Op → S → Exec ε (S × Outcome C A)

/-- A monitor with its threads and the calls that have ended. -/
structure State (ι S Op C A ε : Type) where
  shared : S
  threads : ι → Thread Op C
  history : List (Op × Exec ε A)

/-- No call has been made. -/
def start (x : S) : State ι S Op C A ε := ⟨x, fun _ => .idle, []⟩

/-! ### Waking threads -/

section

variable [DecidableEq C]

/-- Waking a thread if it waits on `c`. -/
def Thread.wake (c : C) : Thread Op C → Thread Op C
  | .idle => .idle
  | .ready op => .ready op
  | .waiting op c' => if c' = c then .ready op else .waiting op c'

theorem Thread.wake_eq_waiting {c c' : C} {op : Op} {th : Thread Op C}
    (h : th.wake c = .waiting op c') : th = .waiting op c' ∧ c' ≠ c := by
  cases th with
  | idle => cases h
  | ready o => cases h
  | waiting o d =>
    rw [wake] at h
    by_cases hd : d = c
    · rw [if_pos hd] at h
      cases h
    · rw [if_neg hd] at h
      cases h
      exact ⟨rfl, hd⟩

variable [DecidableEq ι]

/-- The effect of one notice on the threads. -/
inductive Notified : Notice C → (ι → Thread Op C) → (ι → Thread Op C) → Prop
  | unheard {c : C} {threads : ι → Thread Op C} (h : ∀ t op, threads t ≠ .waiting op c) :
      Notified (.signal c) threads threads
  | one {c : C} {threads : ι → Thread Op C} {t : ι} {op : Op} (h : threads t = .waiting op c) :
      Notified (.signal c) threads (update threads t (.ready op))
  | all {c : C} {threads : ι → Thread Op C} :
      Notified (.broadcast c) threads fun t => (threads t).wake c

/-- The effect of the notices of a section, in order. -/
inductive NotifiedAll : List (Notice C) → (ι → Thread Op C) → (ι → Thread Op C) → Prop
  | nil {threads : ι → Thread Op C} : NotifiedAll [] threads threads
  | cons {n : Notice C} {ns : List (Notice C)} {before between after : ι → Thread Op C} :
      Notified n before between → NotifiedAll ns between after → NotifiedAll (n :: ns) before after

omit [DecidableEq C] in
theorem waiting_of_update {threads : ι → Thread Op C} {t u : ι} {th : Thread Op C} {op : Op} {c : C}
    (hth : th ≠ .waiting op c) (hu : update threads t th u = .waiting op c) :
    threads u = .waiting op c := by
  by_cases hut : u = t
  · rw [hut, update_self] at hu
    exact absurd hu hth
  · rwa [update_of_ne hut] at hu

theorem Notified.waiting_before {n : Notice C} {before after : ι → Thread Op C}
    (h : Notified n before after) {t : ι} {op : Op} {c : C} (hw : after t = .waiting op c) :
    before t = .waiting op c ∧ n ≠ .broadcast c := by
  cases h with
  | unheard _ => exact ⟨hw, fun hn => by cases hn⟩
  | one _ => exact ⟨waiting_of_update (fun h => by cases h) hw, fun hn => by cases hn⟩
  | @all d =>
    obtain ⟨hb, hne⟩ := Thread.wake_eq_waiting hw
    exact ⟨hb, fun hn => by cases hn; exact hne rfl⟩

theorem NotifiedAll.waiting_before {ns : List (Notice C)} {before after : ι → Thread Op C}
    (h : NotifiedAll ns before after) {t : ι} {op : Op} {c : C} (hw : after t = .waiting op c) :
    before t = .waiting op c ∧ Notice.broadcast c ∉ ns := by
  induction h with
  | nil => exact ⟨hw, List.not_mem_nil⟩
  | cons hn _ ih =>
    obtain ⟨hb, hns⟩ := ih hw
    obtain ⟨hb', hne⟩ := hn.waiting_before hb
    refine ⟨hb', fun hmem => ?_⟩
    rcases List.mem_cons.mp hmem with he | hmem
    · exact hne he.symm
    · exact hns hmem

/-! ### Steps -/

/-- One step of one thread. -/
inductive Step (sec : Sections S Op C A ε) : State ι S Op C A ε → State ι S Op C A ε → Prop
  /-- An idle thread makes a call. -/
  | call {x : S} {threads : ι → Thread Op C} {h : List (Op × Exec ε A)} {t : ι} (op : Op)
      (ht : threads t = .idle) :
      Step sec ⟨x, threads, h⟩ ⟨x, update threads t (.ready op), h⟩
  /-- A section ends its call. -/
  | finish {x x' : S} {threads woken : ι → Thread Op C} {h : List (Op × Exec ε A)} {t : ι} {op : Op}
      {a : A} {ns : List (Notice C)} (ht : threads t = .ready op)
      (hsec : sec op x = .ok (x', .answers a ns)) (hns : NotifiedAll ns threads woken) :
      Step sec ⟨x, threads, h⟩ ⟨x', update woken t .idle, h ++ [(op, .ok a)]⟩
  /-- A section raises an error, which ends its call. -/
  | fail {x : S} {threads : ι → Thread Op C} {h : List (Op × Exec ε A)} {t : ι} {op : Op}
      {e : Fault ε} (ht : threads t = .ready op) (hsec : sec op x = .error e) :
      Step sec ⟨x, threads, h⟩ ⟨x, update threads t .idle, h ++ [(op, .error e)]⟩
  /-- A section waits. -/
  | wait {x x' : S} {threads : ι → Thread Op C} {h : List (Op × Exec ε A)} {t : ι} {op : Op}
      {c : C} (ht : threads t = .ready op) (hsec : sec op x = .ok (x', .waits c)) :
      Step sec ⟨x, threads, h⟩ ⟨x', update threads t (.waiting op c), h⟩
  /-- A thread wakes without being notified. -/
  | spurious {x : S} {threads : ι → Thread Op C} {h : List (Op × Exec ε A)} {t : ι} {op : Op}
      {c : C} (ht : threads t = .waiting op c) :
      Step sec ⟨x, threads, h⟩ ⟨x, update threads t (.ready op), h⟩

/-- A run: any number of steps of any threads. -/
abbrev Steps (sec : Sections S Op C A ε) : State ι S Op C A ε → State ι S Op C A ε → Prop :=
  Relation.ReflTransGen (Step sec)

variable {sec : Sections S Op C A ε} {s s' : State ι S Op C A ε}

/-- What every section preserves of the shared state and the history. -/
structure Preserves (sec : Sections S Op C A ε) (inv : S → List (Op × Exec ε A) → Prop) :
    Prop where
  answers : ∀ op x x' a ns h, inv x h → sec op x = .ok (x', .answers a ns) →
    inv x' (h ++ [(op, .ok a)])
  fails : ∀ op x e h, inv x h → sec op x = .error e → inv x (h ++ [(op, .error e)])
  waits : ∀ op x x' c h, inv x h → sec op x = .ok (x', .waits c) → inv x' h

theorem Step.invariant {inv : S → List (Op × Exec ε A) → Prop} (hinv : Preserves sec inv)
    (h : Step sec s s') (hs : inv s.shared s.history) : inv s'.shared s'.history := by
  cases h with
  | call _ _ => exact hs
  | finish _ hsec _ => exact hinv.answers _ _ _ _ _ _ hs hsec
  | fail _ hsec => exact hinv.fails _ _ _ _ hs hsec
  | wait _ hsec => exact hinv.waits _ _ _ _ _ hs hsec
  | spurious _ => exact hs

theorem Steps.invariant {inv : S → List (Op × Exec ε A) → Prop} (hinv : Preserves sec inv)
    (h : Steps sec s s') (hs : inv s.shared s.history) : inv s'.shared s'.history := by
  induction h with
  | refl => exact hs
  | tail _ hstep ih => exact hstep.invariant hinv ih

/-! ### Simulation -/

/-- Two results of sections that differ in the shared state only, and there as `rel` allows. -/
inductive Agree (rel : S → T → Prop) : Exec ε (S × Outcome C A) → Exec ε (T × Outcome C A) → Prop
  | ok {x : S} {y : T} (h : rel x y) (out : Outcome C A) : Agree rel (.ok (x, out)) (.ok (y, out))
  | error (e : Fault ε) : Agree rel (.error e) (.error e)

/-- The sections of one monitor are simulated by those of another. -/
def Simulates (sec : Sections S Op C A ε) (spec : Sections T Op C A ε) (rel : S → T → Prop) :
    Prop :=
  ∀ op x y, rel x y → Agree rel (sec op x) (spec op y)

section

variable {spec : Sections T Op C A ε} {rel : S → T → Prop} (hsim : Simulates sec spec rel)
include hsim

omit [DecidableEq C] [DecidableEq ι] in
theorem Simulates.of_ok {op : Op} {x x' : S} {y : T} {out : Outcome C A} (hy : rel x y)
    (hsec : sec op x = .ok (x', out)) : ∃ y', spec op y = .ok (y', out) ∧ rel x' y' := by
  have h := hsim op x y hy
  rw [hsec] at h
  generalize hspec : spec op y = r at h
  cases h with
  | ok h _ => exact ⟨_, rfl, h⟩

omit [DecidableEq C] [DecidableEq ι] in
theorem Simulates.of_error {op : Op} {x : S} {y : T} {e : Fault ε} (hy : rel x y)
    (hsec : sec op x = .error e) : spec op y = .error e := by
  have h := hsim op x y hy
  rw [hsec] at h
  generalize hspec : spec op y = r at h
  cases h with
  | error _ => rfl

end

/-- The state with another shared part. -/
def State.withShared (s : State ι S Op C A ε) (y : T) : State ι T Op C A ε :=
  ⟨y, s.threads, s.history⟩

theorem Step.simulate {spec : Sections T Op C A ε} {rel : S → T → Prop}
    (hsim : Simulates sec spec rel) (h : Step sec s s') {y : T} (hy : rel s.shared y) :
    ∃ y', rel s'.shared y' ∧ Step spec (s.withShared y) (s'.withShared y') := by
  cases h with
  | call op ht => exact ⟨y, hy, .call op ht⟩
  | finish ht hsec hns =>
    obtain ⟨y', hspec, hy'⟩ := hsim.of_ok hy hsec
    exact ⟨y', hy', .finish ht hspec hns⟩
  | fail ht hsec => exact ⟨y, hy, .fail ht (hsim.of_error hy hsec)⟩
  | wait ht hsec =>
    obtain ⟨y', hspec, hy'⟩ := hsim.of_ok hy hsec
    exact ⟨y', hy', .wait ht hspec⟩
  | spurious ht => exact ⟨y, hy, .spurious ht⟩

theorem Steps.simulate {spec : Sections T Op C A ε} {rel : S → T → Prop}
    (hsim : Simulates sec spec rel) (h : Steps sec s s') {y : T} (hy : rel s.shared y) :
    ∃ y', rel s'.shared y' ∧ Steps spec (s.withShared y) (s'.withShared y') := by
  induction h with
  | refl => exact ⟨y, hy, .refl⟩
  | tail _ hstep ih =>
    obtain ⟨z, hz, hsteps⟩ := ih
    obtain ⟨y', hy', hstep'⟩ := hstep.simulate hsim hz
    exact ⟨y', hy', hsteps.tail hstep'⟩

/-! ### Threads that wait -/

/-- No section waits when `p` holds, and the section that brings it about broadcasts every
condition. -/
structure Announces (sec : Sections S Op C A ε) (p : S → Prop) : Prop where
  onset : ∀ op x x' a ns, sec op x = .ok (x', .answers a ns) → p x' →
    p x ∨ ∀ c, Notice.broadcast c ∈ ns
  waits : ∀ op x x' c, sec op x = .ok (x', .waits c) → ¬ p x'

/-- Some thread waits. -/
def State.Waiting (s : State ι S Op C A ε) : Prop := ∃ t op c, s.threads t = .waiting op c

omit [DecidableEq C] [DecidableEq ι] in
theorem start_not_waiting (x : S) : ¬ (start x : State ι S Op C A ε).Waiting := by
  rintro ⟨t, op, c, h⟩
  cases h

theorem Step.no_waiters {p : S → Prop} (hp : Announces sec p) (h : Step sec s s')
    (hs : p s.shared → ¬ s.Waiting) (hs' : p s'.shared) : ¬ s'.Waiting := by
  rintro ⟨u, o, d, hu⟩
  cases h with
  | call _ _ => exact hs hs' ⟨u, o, d, waiting_of_update (fun h => by cases h) hu⟩
  | finish _ hsec hns =>
    obtain ⟨hb, hne⟩ := hns.waiting_before (waiting_of_update (fun h => by cases h) hu)
    rcases hp.onset _ _ _ _ _ hsec hs' with hx | hall
    · exact hs hx ⟨u, o, d, hb⟩
    · exact hne (hall d)
  | fail _ _ => exact hs hs' ⟨u, o, d, waiting_of_update (fun h => by cases h) hu⟩
  | wait _ hsec => exact hp.waits _ _ _ _ hsec hs'
  | spurious _ => exact hs hs' ⟨u, o, d, waiting_of_update (fun h => by cases h) hu⟩

theorem Steps.no_waiters {p : S → Prop} (hp : Announces sec p) (h : Steps sec s s')
    (hs : ¬ s.Waiting) (hs' : p s'.shared) : ¬ s'.Waiting := by
  induction h with
  | refl => exact hs
  | tail _ hstep ih => exact hstep.no_waiters hp ih hs'

end

end Monitor
