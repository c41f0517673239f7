import Eshkol.Vm.Control

/-!
# Assignments and Continuations

Where the variables of a program live, and what becomes of assignments when a continuation is
resumed. A variable that `needs_boxing` (`lib/backend/vm_parser.c`) finds to be assigned and
captured is kept in a cell on the heap. Any other variable is a slot of the stack, which `SET_LOCAL`
writes, and which a continuation saves unless it is below the store boundary `global_top`, where
the variables of the top level are. A closure that captures such a variable has an upvalue for it:
a copy of its own, or an open slot, which is the number of the slot that it reads and writes instead
(`SET_UPVALUE`, `lib/backend/vm_frame.c`; the native calls 151, 152 and 252,
`lib/backend/vm_native.c`). The parameters of a named `let` are never put in cells.

Which variable a slot or an upvalue holds, and which value a variable was last assigned, is not
part of the state of the VM; it is recorded here beside it.
-/

namespace Eshkol.Vm

/-! ### Variables -/

/-- An upvalue of a closure, by the place of the closure on the heap. -/
structure ClosureCell where
  closure : Int32
  index : ℕ
  deriving DecidableEq

/-- Where a value of a variable is kept that is not in a cell on the heap. -/
inductive Location : Type
  | slot (i : ℕ)
  | upvalue (u : ClosureCell)
  deriving DecidableEq

/-- A captured continuation, with the variables of its slots. -/
structure SavedStack where
  cont : VmContinuation
  owner : ℕ → Option ℕ

/-- The control state; the contents of the cells, one for each variable that has one; the upvalues
of the closures with their open slots; the variables that the slots and the upvalues hold, which
variables have a cell, and what each variable was last assigned (or bound to); the number of
variables; and the captured continuations. -/
structure StoreState where
  control : Control
  boxes : ℕ → Value
  upvalues : ClosureCell → Value
  openSlots : ClosureCell → Option ℕ
  owner : ℕ → Option ℕ
  upvalueOwner : ClosureCell → Option ℕ
  boxed : ℕ → Bool
  assigned : ℕ → Value
  count : ℕ
  captured : List SavedStack

/-- The variable that a location holds. -/
def StoreState.variable (s : StoreState) : Location → Option ℕ
  | .slot i => s.owner i
  | .upvalue u => s.upvalueOwner u

/-- The location that is read and written for another one: for an open upvalue, its slot. -/
def StoreState.target (s : StoreState) : Location → Location
  | .slot i => .slot i
  | .upvalue u =>
    match s.openSlots u with
    | some i => .slot i
    | none => .upvalue u

def StoreState.contents (s : StoreState) : Location → Value
  | .slot i => s.control.stack i
  | .upvalue u => s.upvalues u

/-- `GET_LOCAL` and `GET_UPVALUE`. -/
def StoreState.read (s : StoreState) (p : Location) : Value := s.contents (s.target p)

/-- A new variable in a slot. -/
def StoreState.bindSlot (s : StoreState) (i : ℕ) (v : Value) : StoreState :=
  { s with
    control := { s.control with stack := Function.update s.control.stack i v }
    owner := Function.update s.owner i (some s.count)
    boxed := Function.update s.boxed s.count false
    assigned := Function.update s.assigned s.count v
    count := s.count + 1 }

/-- A new variable in a cell. -/
def StoreState.bindBox (s : StoreState) (v : Value) : StoreState :=
  { s with
    boxes := Function.update s.boxes s.count v
    boxed := Function.update s.boxed s.count true
    assigned := Function.update s.assigned s.count v
    count := s.count + 1 }

/-- The value on top of the stack is popped and written to a location, which assigns the variable
of this. -/
def StoreState.write (s : StoreState) (p : Location) : StoreState :=
  let v := s.control.stack (s.control.sp - 1)
  { s with
    control := { s.control with
      stack := fun i => if s.target p = .slot i then v else s.control.stack i
      sp := s.control.sp - 1 }
    upvalues := fun u => if s.target p = .upvalue u then v else s.upvalues u
    assigned := fun x => if s.variable p = some x then v else s.assigned x }

/-- An assignment to a variable in a cell. -/
def StoreState.setBox (s : StoreState) (x : ℕ) (v : Value) : StoreState :=
  { s with
    boxes := Function.update s.boxes x v
    assigned := Function.update s.assigned x v }

/-- An upvalue gets a copy of a value: of a slot or of an upvalue of the running closure when a
closure is made (`CLOSURE`), of its own open slot when that is closed (native call 152), of the
closure itself, which is in a slot, for its own name (`CLOSE_UPVALUE`). -/
def StoreState.copyUpvalue (s : StoreState) (u : ClosureCell) (p : Location) : StoreState :=
  { s with
    upvalues := Function.update s.upvalues u (s.read p)
    openSlots := Function.update s.openSlots u none
    upvalueOwner := Function.update s.upvalueOwner u (s.variable p) }

/-- An upvalue gets an open slot (native calls 151 and 252). -/
def StoreState.openUpvalue (s : StoreState) (u : ClosureCell) (i : ℕ) : StoreState :=
  { s with
    openSlots := Function.update s.openSlots u (some i)
    upvalueOwner := Function.update s.upvalueOwner u (s.owner i) }

def StoreState.callcc (s : StoreState) (proc cont : Value) (funcPc : ℤ) : StoreState :=
  { s with
    control := callWithContinuation s.control proc cont funcPc
    owner := Function.update (Function.update s.owner s.control.sp none) (s.control.sp + 1) none
    captured := ⟨vmCaptureContinuation s.control, s.owner⟩ :: s.captured }

/-- The variables in the slots after a continuation is resumed: with the slots, the variables in
them come back. -/
def resumedOwner (s : StoreState) (k : SavedStack) : ℕ → Option ℕ :=
  Function.update (fun i =>
    if max s.control.globalTop k.cont.stackBase ≤ i ∧ i < k.cont.sp then k.owner i
    else s.owner i) k.cont.sp none

/-- The steps of a run. The locations that `SET_LOCAL` and `SET_UPVALUE` write may be restricted to
those that are `allowed`. An instruction that neither binds nor assigns a variable is an `other`
one; what it writes to the stack or to upvalues is no variable. -/
inductive StoreStep (allowed : StoreState → Location → Prop) (s : StoreState) : StoreState → Prop
  | other (c : Control) (owner : ℕ → Option ℕ) (upvalues : ClosureCell → Value)
      (openSlots : ClosureCell → Option ℕ) (upvalueOwner : ClosureCell → Option ℕ)
      (htop : c.globalTop = s.control.globalTop)
      (howner : ∀ i, owner i = none ∨ owner i = s.owner i ∧ c.stack i = s.control.stack i)
      (hupvalues : ∀ u, upvalueOwner u = none ∨ upvalueOwner u = s.upvalueOwner u ∧
        openSlots u = s.openSlots u ∧ (openSlots u = none → upvalues u = s.upvalues u)) :
      StoreStep allowed s { s with
        control := c, owner := owner, upvalues := upvalues, openSlots := openSlots
        upvalueOwner := upvalueOwner }
  | bindSlot (i : ℕ) (v : Value) : StoreStep allowed s (s.bindSlot i v)
  | bindBox (v : Value) : StoreStep allowed s (s.bindBox v)
  | setLocal (operand : ℕ) (hallowed : allowed s (.slot (s.control.fp + operand))) :
      StoreStep allowed s (s.write (.slot (s.control.fp + operand)))
  | setUpvalue (ptr : Int32) (operand : ℕ) (hfp : 0 < s.control.fp)
      (hclosure : s.control.stack (s.control.fp - 1) = closureVal ptr)
      (hallowed : allowed s (.upvalue ⟨ptr, operand⟩)) :
      StoreStep allowed s (s.write (.upvalue ⟨ptr, operand⟩))
  | setBox (x : ℕ) (v : Value) (hbox : s.boxed x = true) : StoreStep allowed s (s.setBox x v)
  | copyUpvalue (u : ClosureCell) (p : Location) : StoreStep allowed s (s.copyUpvalue u p)
  | openUpvalue (u : ClosureCell) (i : ℕ) : StoreStep allowed s (s.openUpvalue u i)
  | globalMark (operand : ℕ) : StoreStep allowed s { s with
      control := { s.control with globalTop := max s.control.globalTop operand } }
  | callcc (proc cont : Value) (funcPc : ℤ) : StoreStep allowed s (s.callcc proc cont funcPc)
  | resume (k : SavedStack) (hk : k ∈ s.captured) (val : Value) (c : Control)
      (hresume : vmContinuationResume s.control k.cont val = some c) :
      StoreStep allowed s { s with control := c, owner := resumedOwner s k }

/-- The runs of these steps through states that are `kept`. -/
inductive StoreRun (allowed : StoreState → Location → Prop) (kept : StoreState → Prop) :
    StoreState → StoreState → Prop
  | refl (s : StoreState) : StoreRun allowed kept s s
  | step {s s₁ s₂ : StoreState} : StoreRun allowed kept s s₁ → StoreStep allowed s₁ s₂ →
      kept s₂ → StoreRun allowed kept s s₂

/-- Reading a variable gives the value that it was last assigned, wherever it is read. -/
structure UpToDate (s : StoreState) : Prop where
  reads : ∀ p x, s.variable p = some x → s.read p = s.assigned x
  boxes : ∀ x < s.count, s.boxed x = true → s.boxes x = s.assigned x

/-- The condition on `SET_LOCAL` and `SET_UPVALUE`: the location is one of a variable, and this is
kept nowhere else, neither in a slot, nor in an upvalue that is not an alias of the slot, nor in the
slots that resuming a captured continuation puts back. -/
def Unshared (s : StoreState) (p : Location) : Prop :=
  ∃ x, s.variable p = some x ∧ (∀ q, s.variable q = some x → s.target q = s.target p) ∧
    ∀ k ∈ s.captured, ∀ i, max s.control.globalTop k.cont.stackBase ≤ i → i < k.cont.sp →
      k.owner i ≠ some x

/-- The condition on the open slots: such a slot still holds the variable of the upvalue. -/
def Anchored (s : StoreState) : Prop :=
  ∀ u i x, s.openSlots u = some i → s.upvalueOwner u = some x → s.owner i = some x

/-- The start of a program: no variables and no continuations. -/
def StoreState.init (c : Control) : StoreState :=
  ⟨c, fun _ => .nil, fun _ => .nil, fun _ => none, fun _ => none, fun _ => none, fun _ => true,
    fun _ => .nil, 0, []⟩

/-! ### The invariant -/

/-- The invariant: the slots, the closed upvalues and the cells have the last values of their
variables, no variable has both a cell and a location, and what resuming a continuation puts back
are last values too. -/
structure Current (s : StoreState) : Prop where
  slots : ∀ i x, s.owner i = some x → s.control.stack i = s.assigned x
  closed : ∀ u x, s.openSlots u = none → s.upvalueOwner u = some x → s.upvalues u = s.assigned x
  boxes : ∀ x < s.count, s.boxed x = true → s.boxes x = s.assigned x
  unboxed : ∀ p x, s.variable p = some x → s.boxed x = false ∧ x < s.count
  savedUnboxed : ∀ k ∈ s.captured, ∀ i x, k.owner i = some x → s.boxed x = false ∧ x < s.count
  saved : ∀ k ∈ s.captured, ∀ i x, max s.control.globalTop k.cont.stackBase ≤ i →
    i < k.cont.sp → k.owner i = some x → k.cont.savedStack (i - k.cont.stackBase) = s.assigned x

variable {s : StoreState}

theorem target_upvalue_closed {u : ClosureCell} (h : s.openSlots u = none) :
    s.target (.upvalue u) = .upvalue u := by
  rw [StoreState.target, h]

theorem target_upvalue_open {u : ClosureCell} {i : ℕ} (h : s.openSlots u = some i) :
    s.target (.upvalue u) = .slot i := by
  rw [StoreState.target, h]

theorem Current.read_eq (h : Current s) (hanchored : Anchored s) {p : Location} {x : ℕ}
    (hx : s.variable p = some x) : s.read p = s.assigned x := by
  cases p with
  | slot i => exact h.slots i x hx
  | upvalue u =>
    cases hopen : s.openSlots u with
    | none =>
      rw [StoreState.read, target_upvalue_closed hopen]
      exact h.closed u x hopen hx
    | some i =>
      rw [StoreState.read, target_upvalue_open hopen]
      exact h.slots i x (hanchored u i x hopen hx)

theorem Current.upToDate (h : Current s) (hanchored : Anchored s) : UpToDate s :=
  ⟨fun _ _ => h.read_eq hanchored, h.boxes⟩

theorem Current.init (c : Control) : Current (.init c) := by
  refine ⟨nofun, nofun, nofun, ?_, nofun, nofun⟩
  intro p x hx
  cases p <;> cases hx

theorem Current.other (h : Current s) {c : Control} {owner : ℕ → Option ℕ}
    {upvalues : ClosureCell → Value} {openSlots upvalueOwner : ClosureCell → Option ℕ}
    (htop : c.globalTop = s.control.globalTop)
    (howner : ∀ i, owner i = none ∨ owner i = s.owner i ∧ c.stack i = s.control.stack i)
    (hupvalues : ∀ u, upvalueOwner u = none ∨ upvalueOwner u = s.upvalueOwner u ∧
      openSlots u = s.openSlots u ∧ (openSlots u = none → upvalues u = s.upvalues u)) :
    Current { s with
      control := c, owner := owner, upvalues := upvalues, openSlots := openSlots
      upvalueOwner := upvalueOwner } := by
  have hslot {i x} (hx : owner i = some x) :
      s.owner i = some x ∧ c.stack i = s.control.stack i := by
    rcases howner i with hnone | ⟨hsame, hstack⟩
    · exact absurd (hnone.symm.trans hx) nofun
    · exact ⟨hsame.symm.trans hx, hstack⟩
  have hupvalue {u x} (hx : upvalueOwner u = some x) : s.upvalueOwner u = some x ∧
      openSlots u = s.openSlots u ∧ (openSlots u = none → upvalues u = s.upvalues u) := by
    rcases hupvalues u with hnone | ⟨hsame, hrest⟩
    · exact absurd (hnone.symm.trans hx) nofun
    · exact ⟨hsame.symm.trans hx, hrest⟩
  refine ⟨?_, ?_, h.boxes, ?_, h.savedUnboxed, fun k hk i x hi => h.saved k hk i x (htop ▸ hi)⟩
  · intro i x hx
    exact (hslot hx).2.trans (h.slots i x (hslot hx).1)
  · intro u x hclosed hx
    obtain ⟨hx, hopen, hsame⟩ := hupvalue hx
    exact (hsame hclosed).trans (h.closed u x (hopen.symm.trans hclosed) hx)
  · intro p x hx
    cases p with
    | slot i => exact h.unboxed (.slot i) x (hslot hx).1
    | upvalue u => exact h.unboxed (.upvalue u) x (hupvalue hx).1

theorem update_assigned_of_lt {x : ℕ} (hx : x < s.count) (v : Value) :
    Function.update s.assigned s.count v x = s.assigned x :=
  Function.update_of_ne (Nat.ne_of_lt hx) _ _

theorem unboxed_update {x : ℕ} (hx : s.boxed x = false ∧ x < s.count) (b : Bool) :
    Function.update s.boxed s.count b x = false ∧ x < s.count + 1 :=
  ⟨(Function.update_of_ne (Nat.ne_of_lt hx.2) _ _).trans hx.1, hx.2.trans (Nat.lt_succ_self _)⟩

theorem Current.bindSlot (h : Current s) (i : ℕ) (v : Value) : Current (s.bindSlot i v) := by
  refine ⟨?_, ?_, ?_, ?_, ?_, ?_⟩
  · intro j x hx
    simp only [StoreState.bindSlot] at hx ⊢
    by_cases hj : j = i
    · rw [hj, Function.update_self] at hx
      rw [hj, ← Option.some.inj hx, Function.update_self, Function.update_self]
    · rw [Function.update_of_ne hj] at hx
      rw [Function.update_of_ne hj, update_assigned_of_lt (h.unboxed (.slot j) x hx).2]
      exact h.slots j x hx
  · intro u x hclosed hx
    exact (h.closed u x hclosed hx).trans
      (update_assigned_of_lt (h.unboxed (.upvalue u) x hx).2 v).symm
  · intro x hx hbox
    simp only [StoreState.bindSlot] at hx hbox ⊢
    rcases Nat.lt_succ_iff_lt_or_eq.mp hx with hx | rfl
    · rw [Function.update_of_ne (Nat.ne_of_lt hx)] at hbox
      rw [update_assigned_of_lt hx]
      exact h.boxes x hx hbox
    · rw [Function.update_self] at hbox
      exact absurd hbox nofun
  · intro p x hx
    cases p with
    | slot j =>
      simp only [StoreState.variable, StoreState.bindSlot] at hx ⊢
      by_cases hj : j = i
      · rw [hj, Function.update_self] at hx
        rw [← Option.some.inj hx, Function.update_self]
        exact ⟨rfl, Nat.lt_succ_self _⟩
      · rw [Function.update_of_ne hj] at hx
        exact unboxed_update (h.unboxed (.slot j) x hx) false
    | upvalue u => exact unboxed_update (h.unboxed (.upvalue u) x hx) false
  · intro k hk j x hx
    exact unboxed_update (h.savedUnboxed k hk j x hx) false
  · intro k hk j x hlo hhi hx
    exact (h.saved k hk j x hlo hhi hx).trans
      (update_assigned_of_lt (h.savedUnboxed k hk j x hx).2 v).symm

theorem Current.bindBox (h : Current s) (v : Value) : Current (s.bindBox v) := by
  refine ⟨?_, ?_, ?_, ?_, ?_, ?_⟩
  · intro j x hx
    exact (h.slots j x hx).trans (update_assigned_of_lt (h.unboxed (.slot j) x hx).2 v).symm
  · intro u x hclosed hx
    exact (h.closed u x hclosed hx).trans
      (update_assigned_of_lt (h.unboxed (.upvalue u) x hx).2 v).symm
  · intro x hx hbox
    simp only [StoreState.bindBox] at hx hbox ⊢
    rcases Nat.lt_succ_iff_lt_or_eq.mp hx with hx | rfl
    · rw [Function.update_of_ne (Nat.ne_of_lt hx)] at hbox
      rw [update_assigned_of_lt hx, Function.update_of_ne (Nat.ne_of_lt hx)]
      exact h.boxes x hx hbox
    · rw [Function.update_self, Function.update_self]
  · intro p x hx
    have hold : s.variable p = some x := by cases p <;> exact hx
    exact unboxed_update (h.unboxed p x hold) true
  · intro k hk j x hx
    exact unboxed_update (h.savedUnboxed k hk j x hx) true
  · intro k hk j x hlo hhi hx
    exact (h.saved k hk j x hlo hhi hx).trans
      (update_assigned_of_lt (h.savedUnboxed k hk j x hx).2 v).symm

/-- A location that is written where another one is kept is one of the same variable. -/
theorem variable_eq_of_target (hanchored : Anchored s) {p q : Location} {x y : ℕ}
    (hp : s.variable p = some x) (hq : s.variable q = some y) (htarget : s.target p = s.target q) :
    x = y := by
  have hslot {p : Location} {x i : ℕ} (hp : s.variable p = some x) (hi : s.target p = .slot i) :
      s.owner i = some x := by
    cases p with
    | slot j =>
      cases hi
      exact hp
    | upvalue u =>
      cases hopen : s.openSlots u with
      | none =>
        rw [target_upvalue_closed hopen] at hi
        cases hi
      | some j =>
        rw [target_upvalue_open hopen] at hi
        cases hi
        exact hanchored u i x hopen hp
  have hclosed {p : Location} {u : ClosureCell} (hu : s.target p = .upvalue u) :
      p = .upvalue u := by
    cases p with
    | slot j => cases hu
    | upvalue v =>
      cases hopen : s.openSlots v with
      | none => exact (target_upvalue_closed hopen).symm.trans hu
      | some j =>
        rw [target_upvalue_open hopen] at hu
        cases hu
  cases hq' : s.target q with
  | slot i => exact Option.some.inj ((hslot hp (htarget.trans hq')).symm.trans (hslot hq hq'))
  | upvalue u =>
    rw [hclosed (htarget.trans hq')] at hp
    rw [hclosed hq'] at hq
    exact Option.some.inj (hp.symm.trans hq)

/-- An assignment to an unshared place keeps the store current. -/
theorem Current.write (h : Current s) (hanchored : Anchored s) {p : Location}
    (hunshared : Unshared s p) : Current (s.write p) := by
  obtain ⟨y, hy, honly, hsaved⟩ := hunshared
  generalize hv : s.control.stack (s.control.sp - 1) = v
  -- a location is written exactly if it is one of the variable
  have hassigned (x : ℕ) (hx : x ≠ y) : (s.write p).assigned x = s.assigned x :=
    if_neg fun heq => hx (Option.some.inj (heq.symm.trans hy))
  have hassigned_self : (s.write p).assigned y = v := (if_pos hy).trans hv
  refine ⟨?_, ?_, ?_, ?_, h.savedUnboxed, ?_⟩
  · intro i x hx
    by_cases hxy : x = y
    · have htarget : s.target p = .slot i := (honly (.slot i) (hxy ▸ hx)).symm
      rw [hxy, hassigned_self]
      exact (if_pos htarget).trans hv
    · rw [hassigned x hxy]
      refine Eq.trans (if_neg fun htarget => hxy ?_) (h.slots i x hx)
      exact variable_eq_of_target (q := p) hanchored (p := .slot i) hx hy htarget.symm
  · intro u x hclosed hx
    have hu : s.target (.upvalue u) = .upvalue u := target_upvalue_closed hclosed
    by_cases hxy : x = y
    · have htarget : s.target p = .upvalue u := by
        rw [← honly (.upvalue u) (hxy ▸ hx), hu]
      rw [hxy, hassigned_self]
      exact (if_pos htarget).trans hv
    · rw [hassigned x hxy]
      refine Eq.trans (if_neg fun htarget => hxy ?_) (h.closed u x hclosed hx)
      exact variable_eq_of_target (q := p) hanchored (p := .upvalue u) hx hy (hu.trans htarget.symm)
  · intro x hx hbox
    have hxy : x ≠ y := by
      rintro rfl
      exact absurd ((h.unboxed p x hy).1.symm.trans hbox) nofun
    exact (h.boxes x hx hbox).trans (hassigned x hxy).symm
  · intro q x hx
    exact h.unboxed q x (by cases q <;> exact hx)
  · intro k hk i x hlo hhi hx
    have hxy : x ≠ y := fun heq => hsaved k hk i hlo hhi (heq ▸ hx)
    exact (h.saved k hk i x hlo hhi hx).trans (hassigned x hxy).symm

theorem Current.setBox (h : Current s) {x : ℕ} (hbox : s.boxed x = true) (v : Value) :
    Current (s.setBox x v) := by
  have hother {y} (hy : s.boxed y = false) : Function.update s.assigned x v y = s.assigned y := by
    refine Function.update_of_ne ?_ _ _
    rintro rfl
    exact absurd (hbox.symm.trans hy) nofun
  refine ⟨?_, ?_, ?_, ?_, h.savedUnboxed, ?_⟩
  · intro i y hy
    exact (h.slots i y hy).trans (hother (h.unboxed (.slot i) y hy).1).symm
  · intro u y hclosed hy
    exact (h.closed u y hclosed hy).trans (hother (h.unboxed (.upvalue u) y hy).1).symm
  · intro y hy hbox
    simp only [StoreState.setBox] at hy hbox ⊢
    by_cases hyx : y = x
    · rw [hyx, Function.update_self, Function.update_self]
    · rw [Function.update_of_ne hyx, Function.update_of_ne hyx]
      exact h.boxes y hy hbox
  · intro p y hy
    exact h.unboxed p y (by cases p <;> exact hy)
  · intro k hk i y hlo hhi hy
    exact (h.saved k hk i y hlo hhi hy).trans (hother (h.savedUnboxed k hk i y hy).1).symm

theorem Current.copyUpvalue (h : Current s) (hanchored : Anchored s) (u : ClosureCell)
    (p : Location) : Current (s.copyUpvalue u p) := by
  refine ⟨h.slots, ?_, h.boxes, ?_, h.savedUnboxed, h.saved⟩
  · intro w x hclosed hx
    simp only [StoreState.copyUpvalue] at hclosed hx ⊢
    by_cases hw : w = u
    · rw [hw, Function.update_self] at hx
      rw [hw, Function.update_self]
      exact h.read_eq hanchored hx
    · rw [Function.update_of_ne hw] at hclosed hx
      rw [Function.update_of_ne hw]
      exact h.closed w x hclosed hx
  · intro q x hx
    cases q with
    | slot i => exact h.unboxed (.slot i) x hx
    | upvalue w =>
      simp only [StoreState.variable, StoreState.copyUpvalue] at hx
      by_cases hw : w = u
      · rw [hw, Function.update_self] at hx
        exact h.unboxed p x hx
      · rw [Function.update_of_ne hw] at hx
        exact h.unboxed (.upvalue w) x hx

theorem Current.openUpvalue (h : Current s) (u : ClosureCell) (i : ℕ) :
    Current (s.openUpvalue u i) := by
  refine ⟨h.slots, ?_, h.boxes, ?_, h.savedUnboxed, h.saved⟩
  · intro w x hclosed hx
    simp only [StoreState.openUpvalue] at hclosed hx ⊢
    by_cases hw : w = u
    · rw [hw, Function.update_self] at hclosed
      cases hclosed
    · rw [Function.update_of_ne hw] at hclosed hx
      exact h.closed w x hclosed hx
  · intro q x hx
    cases q with
    | slot j => exact h.unboxed (.slot j) x hx
    | upvalue w =>
      simp only [StoreState.variable, StoreState.openUpvalue] at hx
      by_cases hw : w = u
      · rw [hw, Function.update_self] at hx
        exact h.unboxed (.slot i) x hx
      · rw [Function.update_of_ne hw] at hx
        exact h.unboxed (.upvalue w) x hx

theorem Current.callcc (h : Current s) (proc cont : Value) (funcPc : ℤ) :
    Current (s.callcc proc cont funcPc) := by
  have hold {i x} (hx : (s.callcc proc cont funcPc).owner i = some x) : s.owner i = some x ∧
      (s.callcc proc cont funcPc).control.stack i = s.control.stack i := by
    simp only [StoreState.callcc, callWithContinuation] at hx ⊢
    by_cases hi : i = s.control.sp + 1
    · rw [hi, Function.update_self] at hx
      exact absurd hx nofun
    · rw [Function.update_of_ne hi] at hx ⊢
      by_cases hi' : i = s.control.sp
      · rw [hi', Function.update_self] at hx
        exact absurd hx nofun
      · rw [Function.update_of_ne hi'] at hx ⊢
        exact ⟨hx, rfl⟩
  refine ⟨?_, h.closed, h.boxes, ?_, ?_, ?_⟩
  · intro i x hx
    exact (hold hx).2.trans (h.slots i x (hold hx).1)
  · intro p x hx
    cases p with
    | slot i => exact h.unboxed (.slot i) x (hold hx).1
    | upvalue u => exact h.unboxed (.upvalue u) x hx
  · intro k hk i x hx
    rcases List.mem_cons.mp hk with rfl | hk
    · exact h.unboxed (.slot i) x hx
    · exact h.savedUnboxed k hk i x hx
  · intro k hk i x hlo hhi hx
    rcases List.mem_cons.mp hk with rfl | hk
    · have hbase : s.control.globalTop ≤ i := (le_max_right _ _).trans hlo
      refine Eq.trans ?_ (h.slots i x hx)
      exact congrArg s.control.stack (Nat.add_sub_cancel' hbase)
    · exact h.saved k hk i x hlo hhi hx

theorem Current.resume (h : Current s) {k : SavedStack} (hk : k ∈ s.captured) {val : Value}
    {c : Control} (hresume : vmContinuationResume s.control k.cont val = some c) :
    Current { s with control := c, owner := resumedOwner s k } := by
  obtain ⟨params, -, -, rfl⟩ := vmContinuationResume_eq_some hresume
  have howner {i x} (hx : resumedOwner s k i = some x) :
      i ≠ k.cont.sp ∧ ((max s.control.globalTop k.cont.stackBase ≤ i ∧ i < k.cont.sp ∧
          k.owner i = some x) ∨
        ¬ (max s.control.globalTop k.cont.stackBase ≤ i ∧ i < k.cont.sp) ∧ s.owner i = some x) := by
    rw [resumedOwner] at hx
    by_cases hi : i = k.cont.sp
    · rw [hi, Function.update_self] at hx
      exact absurd hx nofun
    · rw [Function.update_of_ne hi] at hx
      split at hx
      next hrange => exact ⟨hi, .inl ⟨hrange.1, hrange.2, hx⟩⟩
      next hrange => exact ⟨hi, .inr ⟨hrange, hx⟩⟩
  refine ⟨?_, h.closed, h.boxes, ?_, h.savedUnboxed, h.saved⟩
  · intro i x hx
    obtain ⟨hi, hcase⟩ := howner hx
    rcases hcase with ⟨hlo, hhi, hx⟩ | ⟨hrange, hx⟩
    · exact (resumedStack_saved hlo hhi val).trans (h.saved k hk i x hlo hhi hx)
    · exact (resumedStack_other hrange hi val).trans (h.slots i x hx)
  · intro p x hx
    cases p with
    | slot i =>
      rcases (howner hx).2 with ⟨-, -, hx⟩ | ⟨-, hx⟩
      · exact h.savedUnboxed k hk i x hx
      · exact h.unboxed (.slot i) x hx
    | upvalue u => exact h.unboxed (.upvalue u) x hx

theorem Current.globalMark (h : Current s) (operand : ℕ) : Current { s with
    control := { s.control with globalTop := max s.control.globalTop operand } } := by
  refine ⟨h.slots, h.closed, h.boxes, ?_, h.savedUnboxed, ?_⟩
  · intro p x hx
    exact h.unboxed p x (by cases p <;> exact hx)
  · intro k hk i x hlo
    exact h.saved k hk i x ((max_le_max_right _ (le_max_left _ _)).trans hlo)

/-! ### Runs -/

theorem Current.step (h : Current s) (hanchored : Anchored s) {s' : StoreState}
    (hstep : StoreStep Unshared s s') : Current s' := by
  cases hstep with
  | other c owner upvalues openSlots upvalueOwner htop howner hupvalues =>
    exact h.other htop howner hupvalues
  | bindSlot i v => exact h.bindSlot i v
  | bindBox v => exact h.bindBox v
  | setLocal operand hallowed => exact h.write hanchored hallowed
  | setUpvalue ptr operand hfp hclosure hallowed => exact h.write hanchored hallowed
  | setBox x v hbox => exact h.setBox hbox v
  | copyUpvalue u p => exact h.copyUpvalue hanchored u p
  | openUpvalue u i => exact h.openUpvalue u i
  | globalMark operand => exact h.globalMark operand
  | callcc proc cont funcPc => exact h.callcc proc cont funcPc
  | resume k hk val c hresume => exact h.resume hk hresume

theorem Current.run {s' : StoreState} (hrun : StoreRun Unshared Anchored s s') (h : Current s)
    (hanchored : Anchored s) : Current s' ∧ Anchored s' := by
  induction hrun with
  | refl => exact ⟨h, hanchored⟩
  | step _ hstep hkept ih => exact ⟨ih.1.step ih.2 hstep, hkept⟩

/-- **Assignments survive continuations.** In every run in which `SET_LOCAL` and `SET_UPVALUE`
assign no variable that has a second copy, in a slot, in a closed upvalue or in the slots that
resuming a captured continuation puts back, and in which open slots keep their variables, reading a
variable gives the value that it was last assigned, whichever continuations have been resumed. -/
theorem upToDate_run {c : Control} {s : StoreState}
    (hrun : StoreRun Unshared Anchored (.init c) s) : UpToDate s := by
  obtain ⟨hcurrent, hanchored⟩ := (Current.init c).run hrun fun _ _ _ hopen => by cases hopen
  exact hcurrent.upToDate hanchored

/-- In `(define k #f) (call/cc (lambda (c) (set! k c)))` the closure assigns the variable of the top
level through its open upvalue. The assignment is there when the continuation is resumed. -/
theorem upToDate_run_open : ∃ s, StoreRun Unshared Anchored (.init startControl) s ∧
    s.owner 0 = some 0 ∧ s.control.stack 0 = .boxed (.other 15) 2 ∧ UpToDate s := by
  let u : ClosureCell := ⟨1, 0⟩
  let s₁ := (StoreState.init startControl).bindSlot 0 (.bool 0)
  let s₂ : StoreState := { s₁ with control := { s₁.control with sp := 1 } }
  let s₃ : StoreState := { s₂ with control := { s₂.control with globalTop := 1 } }
  let s₄ := s₃.copyUpvalue u (.slot 0)
  let s₅ := s₄.openUpvalue u 0
  let s₆ := s₅.callcc (closureVal 1) (.boxed (.other 15) 2) 7
  -- the only upvalue of a variable is the one of the closure
  have howner {w x} (hx : s₅.upvalueOwner w = some x) : w = u ∧ x = 0 := by
    by_cases hw : w = u
    · refine ⟨hw, ?_⟩
      rw [hw] at hx
      exact (Option.some.inj hx).symm
    · have hopened : s₅.upvalueOwner w = s₄.upvalueOwner w := Function.update_of_ne hw _ _
      have hcopied : s₄.upvalueOwner w = none := Function.update_of_ne hw _ _
      exact absurd ((hopened.trans hcopied).symm.trans hx) nofun
  have hkept {s : StoreState} (hopen : s.openSlots = s₅.openSlots)
      (hupvalues : s.upvalueOwner = s₅.upvalueOwner) (hslot : s.owner 0 = some 0) :
      Anchored s := by
    intro w i x hw hx
    rw [hupvalues] at hx
    obtain ⟨rfl, rfl⟩ := howner hx
    rw [hopen] at hw
    obtain rfl : 0 = i := Option.some.inj hw
    exact hslot
  have hslots (i : ℕ) : s₆.owner (i + 1) = none := by
    match i with
    | 0 => rfl
    | 1 => rfl
    | i + 2 => rfl
  have hunshared : Unshared s₆ (.upvalue u) := by
    refine ⟨0, rfl, ?_, ?_⟩
    · intro q hq
      cases q with
      | slot i =>
        cases i with
        | zero => rfl
        | succ i => exact absurd ((hslots i).symm.trans hq) nofun
      | upvalue w => rw [(howner hq).1]
    · intro k hk i hlo hhi
      rcases hk with _ | ⟨_, ⟨⟩⟩
      exact absurd (hlo.trans_lt hhi) (lt_irrefl 1)
  have h₁ : StoreRun Unshared Anchored (.init startControl) s₁ :=
    (StoreRun.refl _).step (.bindSlot 0 _) nofun
  have h₂ : StoreRun Unshared Anchored (.init startControl) s₂ :=
    h₁.step (.other _ _ _ _ _ rfl (fun _ => .inr ⟨rfl, rfl⟩)
      fun _ => .inr ⟨rfl, rfl, fun _ => rfl⟩) nofun
  have h₃ : StoreRun Unshared Anchored (.init startControl) s₃ := h₂.step (.globalMark 1) nofun
  have h₄ : StoreRun Unshared Anchored (.init startControl) s₄ :=
    h₃.step (.copyUpvalue u (.slot 0)) fun w i x hw => by
      simp only [s₄, StoreState.copyUpvalue, Function.update_apply] at hw
      split at hw <;> cases hw
  have h₅ : StoreRun Unshared Anchored (.init startControl) s₅ :=
    h₄.step (.openUpvalue u 0) (hkept rfl rfl rfl)
  have h₆ : StoreRun Unshared Anchored (.init startControl) s₆ :=
    h₅.step (.callcc _ _ _) (hkept rfl rfl rfl)
  have h₇ : StoreRun Unshared Anchored (.init startControl) (s₆.write (.upvalue u)) :=
    h₆.step (.setUpvalue 1 0 (by decide) rfl hunshared) (hkept rfl rfl rfl)
  have h₈ := h₇.step (.resume _ List.mem_cons_self .nil _ rfl) (hkept rfl rfl rfl)
  exact ⟨_, h₈, rfl, rfl, upToDate_run h₈⟩

/-- A local variable that no closure captures is in a slot of the stack: `(let ((x 1)) (call/cc
(lambda (c) (set! k c))) (set! x 2) (k #f))`. Resuming the continuation undoes its assignment. -/
theorem resume_undoes_assignment : ∃ s,
    StoreRun (fun _ _ => True) Anchored (.init startControl) s ∧
      s.owner 0 = some 0 ∧ s.assigned 0 = .int 2 ∧ s.read (.slot 0) = .int 1 := by
  let c₁ : Control := { startControl with stack := Function.update startControl.stack 0 (.int 1) }
  let s₁ := (StoreState.init startControl).bindSlot 0 (.int 1)
  let s₂ : StoreState := { s₁ with control := { c₁ with sp := 1 } }
  let s₃ := s₂.callcc .nil .nil 7
  let s₄ : StoreState := { s₃ with control := { c₁ with
    sp := 2, stack := Function.update c₁.stack 1 (.int 2) } }
  have hupvalues {s : StoreState} (u : ClosureCell) : s.upvalueOwner u = none ∨
      s.upvalueOwner u = s.upvalueOwner u ∧ s.openSlots u = s.openSlots u ∧
        (s.openSlots u = none → s.upvalues u = s.upvalues u) :=
    .inr ⟨rfl, rfl, fun _ => rfl⟩
  have h₁ : StoreRun (fun _ _ => True) Anchored (.init startControl) s₁ :=
    (StoreRun.refl _).step (.bindSlot 0 _) nofun
  have h₂ : StoreRun (fun _ _ => True) Anchored (.init startControl) s₂ :=
    h₁.step (.other _ _ _ _ _ rfl (fun i => .inr ⟨rfl, rfl⟩) hupvalues) nofun
  have h₃ : StoreRun (fun _ _ => True) Anchored (.init startControl) s₃ :=
    h₂.step (.callcc _ _ _) nofun
  have h₄ : StoreRun (fun _ _ => True) Anchored (.init startControl) s₄ := by
    refine h₃.step (.other _ _ _ _ _ rfl (fun i => ?_) hupvalues) nofun
    match i with
    | 0 => exact .inr ⟨rfl, rfl⟩
    | 1 => exact .inl rfl
    | 2 => exact .inl rfl
    | i + 3 =>
    left
    simp [s₃, s₂, s₁, StoreState.callcc, StoreState.bindSlot, StoreState.init]
  have h₅ := h₄.step (.setLocal 0 trivial) nofun
  have h₆ := h₅.step (.resume _ List.mem_cons_self .nil _ rfl) nofun
  exact ⟨_, h₆, rfl, rfl, rfl⟩

end Eshkol.Vm
