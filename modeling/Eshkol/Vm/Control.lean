import Eshkol.Vm.Winds

/-!
# Continuations and Handlers

The control state of the VM, and how `call/cc` captures it and a continuation puts it back
(`lib/backend/vm_control.c`, `lib/backend/vm_run.c`), with the exception handlers and the
bindings of `parameterize` (`lib/backend/vm_native.c`, `lib/backend/vm_parameter.c`).

The stack, the frames and the handlers are arrays of which a number of entries is in use; what is
above it stays in the array until it is overwritten. Promises, regions and the tape are left
out.
-/

namespace Eshkol.Vm

/-! ### The control state -/

def maxFrames : ℕ := 256

structure CallFrame where
  returnPc : ℤ
  returnFp : ℕ
  funcPc : ℤ
  deriving DecidableEq

/-- An entry of `handler_stack`. -/
structure Handler where
  pc : ℤ
  sp : ℕ
  fp : ℕ
  frameCount : ℕ
  nWinds : ℕ
  nParameterBindings : ℕ
  deriving DecidableEq

/-- `VmParameter`: the current value and the saved ones, the last saved first. -/
structure VmParameter where
  current : Value
  saveStack : List Value

/-- The control state. Parameters are named by their place on the heap; the wind stack and the
parameter bindings are written from the bottom up. -/
structure Control where
  pc : ℤ
  stack : ℕ → Value
  sp : ℕ
  fp : ℕ
  frames : ℕ → CallFrame
  frameCount : ℕ
  globalTop : ℕ
  handlers : ℕ → Handler
  nHandlers : ℕ
  winds : List Wind
  bindings : List Int32
  params : Int32 → VmParameter

/-- A control state at the start of a program. -/
def startControl : Control :=
  ⟨0, fun _ => .nil, 0, 0, fun _ => ⟨0, 0, 0⟩, 0, 0, fun _ => ⟨0, 0, 0, 0, 0, 0⟩, 0, [], [],
    fun _ => ⟨.nil, []⟩⟩

/-- `vm_push`. -/
def Control.push (c : Control) (v : Value) : Option Control :=
  if c.sp < stackSize then
    some { c with stack := Function.update c.stack c.sp v, sp := c.sp + 1 }
  else none

/-! ### Parameters -/

def vmParamPush (p : VmParameter) (v : Value) : VmParameter := ⟨v, p.current :: p.saveStack⟩

def vmParamPop (p : VmParameter) : VmParameter :=
  match p.saveStack with
  | [] => p
  | v :: rest => ⟨v, rest⟩

def vmParamSet (p : VmParameter) (v : Value) : VmParameter := { p with current := v }

/-- A change to one parameter. -/
def Control.modifyParam (c : Control) (p : Int32) (f : VmParameter → VmParameter) : Control :=
  { c with params := Function.update c.params p (f (c.params p)) }

def vmUnwindParameterBindings (c : Control) (target : ℕ) : Control :=
  (c.bindings.drop target).reverse.foldl (fun c p => c.modifyParam p vmParamPop)
    { c with bindings := c.bindings.take target }

def vmRecordParameterBinding (c : Control) (p : Int32) : Option Control :=
  if c.bindings.length < 64 then some { c with bindings := c.bindings ++ [p] } else none

def vmPopParameterBinding (c : Control) (p : Int32) : Control :=
  let c := c.modifyParam p vmParamPop
  if c.bindings.getLast? = some p then { c with bindings := c.bindings.dropLast } else c

/-- The native call that enters a binding of `parameterize` (702). -/
def parameterizePush (c : Control) (p : Int32) (v : Value) : Option Control :=
  if c.winds.length < 32 then do
    let c ← vmRecordParameterBinding (c.modifyParam p (vmParamPush · v)) p
    some { c with winds := c.winds ++ [⟨.nil, parameterVal p⟩] }
  else none

/-- The native call that leaves a binding of `parameterize` (703). -/
def parameterizePop (c : Control) (p : Int32) : Option Control :=
  if (c.winds.getLast?).map Wind.after = some (parameterVal p) then
    some (vmPopParameterBinding { c with winds := c.winds.dropLast } p)
  else none

/-! ### Handlers -/

def vmExecPushHandler (c : Control) (operand : ℤ) : Option Control :=
  if c.nHandlers < 16 then
    some { c with
      handlers := Function.update c.handlers c.nHandlers
        ⟨operand, c.sp, c.fp, c.frameCount, c.winds.length, c.bindings.length⟩
      nHandlers := c.nHandlers + 1 }
  else none

/-- `POP_HANDLER`, and the first thing that `vm_dispatch_exception` does. -/
def popHandler (c : Control) : Control := { c with nHandlers := c.nHandlers - 1 }

/-- The rest of `vm_dispatch_exception`, after the thunks of the extents that are left: the
handler that was taken off is entered. -/
def enterHandler (c : Control) : Control :=
  let h := c.handlers c.nHandlers
  { vmUnwindParameterBindings c h.nParameterBindings with
    sp := h.sp, fp := h.fp, frameCount := h.frameCount, pc := h.pc }

/-- The handler to which an exception goes. -/
def innermostHandler (c : Control) : Option Handler :=
  if 0 < c.nHandlers then some (c.handlers (c.nHandlers - 1)) else none

/-! ### Continuations -/

/-- `VmContinuation`. The saved slots are counted from `stackBase`. -/
structure VmContinuation where
  stackBase : ℕ
  pc : ℤ
  fp : ℕ
  sp : ℕ
  frameCount : ℕ
  nHandlers : ℕ
  savedStack : ℕ → Value
  savedFrames : ℕ → CallFrame
  savedWinds : List Wind
  savedParameters : List (Int32 × Value)

/-- What `CALLCC` captures: `vm_capture_continuation_stack`,
`vm_capture_continuation_dynamic_state` and the registers. -/
def vmCaptureContinuation (c : Control) : VmContinuation where
  stackBase := c.globalTop
  pc := c.pc
  fp := c.fp
  sp := c.sp
  frameCount := c.frameCount
  nHandlers := c.nHandlers
  savedStack := fun j => c.stack (c.globalTop + j)
  savedFrames := c.frames
  savedWinds := c.winds
  savedParameters := c.bindings.map fun p => (p, (c.params p).current)

/-- What `CALLCC` does after that: it calls the procedure with the continuation. -/
def callWithContinuation (c : Control) (proc cont : Value) (funcPc : ℤ) : Control :=
  { c with
    stack := Function.update (Function.update c.stack c.sp proc) (c.sp + 1) cont
    sp := c.sp + 2
    frames := Function.update c.frames c.frameCount ⟨c.pc, c.fp, funcPc⟩
    frameCount := c.frameCount + 1
    fp := c.sp + 1
    pc := funcPc }

/-- One binding in `vm_restore_continuation_dynamic_state`. -/
def restoreParameter (c : Control) (binding : Int32 × Value) : Option Control :=
  vmRecordParameterBinding (c.modifyParam binding.1 (vmParamPush · binding.2)) binding.1

def vmRestoreContinuationDynamicState (c : Control) (k : VmContinuation) : Option Control :=
  k.savedParameters.foldlM restoreParameter
    { vmUnwindParameterBindings c 0 with winds := k.savedWinds }

def vmRestoreContinuationStack (c : Control) (k : VmContinuation) : Option Control :=
  let base := max c.globalTop k.stackBase
  if base ≤ k.sp then
    some { c with
      stack := fun i =>
        if base ≤ i ∧ i < k.sp then k.savedStack (i - k.stackBase) else c.stack i
      frames := fun i => if i < k.frameCount then k.savedFrames i else c.frames i }
  else none

/-- `vm_continuation_resume`, after `vm_reroot_winds`; `none` if it sets `vm->error`. -/
def vmContinuationResume (c : Control) (k : VmContinuation) (val : Value) : Option Control :=
  if k.sp ≤ stackSize ∧ k.frameCount ≤ maxFrames then do
    let c ← vmRestoreContinuationDynamicState c k
    let c ← vmRestoreContinuationStack c k
    { c with
      sp := k.sp, fp := k.fp, frameCount := k.frameCount, nHandlers := k.nHandlers,
      pc := k.pc }.push val
  else none

/-! ### What resuming does -/

/-- The values of a parameter, the current one first. -/
def VmParameter.values (p : VmParameter) : List Value := p.current :: p.saveStack

theorem vmUnwindParameterBindings_eq (c : Control) (target : ℕ) :
    ∃ params, vmUnwindParameterBindings c target =
      { c with bindings := c.bindings.take target, params := params } := by
  have hfold (popped : List Int32) (c : Control) :
      ∃ params, popped.foldl (fun c p => c.modifyParam p vmParamPop) c =
        { c with params := params } := by
    induction popped generalizing c with
    | nil => exact ⟨c.params, rfl⟩
    | cons p popped ih =>
      obtain ⟨params, hparams⟩ := ih (c.modifyParam p vmParamPop)
      exact ⟨params, hparams⟩
  exact hfold _ _

theorem foldlM_restoreParameter {l : List (Int32 × Value)} {c c' : Control}
    (h : l.foldlM restoreParameter c = some c') :
    ∃ params, c' = { c with bindings := c.bindings ++ l.map Prod.fst, params := params } ∧
      ∀ p, (params p).values =
        ((l.filter (·.1 = p)).map Prod.snd).reverse ++ (c.params p).values := by
  induction l generalizing c with
  | nil =>
    obtain rfl := Option.some.inj h
    exact ⟨c.params, by rw [List.map_nil, List.append_nil], fun _ => rfl⟩
  | cons binding l ih =>
    obtain ⟨p, v⟩ := binding
    rw [List.foldlM_cons] at h
    obtain ⟨c₁, hc₁, hrest⟩ := Option.bind_eq_some_iff.mp h
    rw [restoreParameter, vmRecordParameterBinding] at hc₁
    split at hc₁
    next =>
      obtain rfl := Option.some.inj hc₁
      obtain ⟨params, rfl, hvalues⟩ := ih hrest
      refine ⟨params, ?_, fun q => ?_⟩
      · rw [List.map_cons]
        simp only [Control.modifyParam, List.append_assoc, List.singleton_append]
      · rw [hvalues q, List.filter_cons]
        by_cases hq : p = q
        · subst hq
          simp [Control.modifyParam, vmParamPush, VmParameter.values]
        · simp [Control.modifyParam, hq, Function.update_of_ne (Ne.symm hq)]
    next => exact absurd hc₁ nofun

/-- The stack after a continuation is resumed. -/
def resumedStack (c : Control) (k : VmContinuation) (val : Value) : ℕ → Value :=
  Function.update (fun i =>
    if max c.globalTop k.stackBase ≤ i ∧ i < k.sp then k.savedStack (i - k.stackBase)
    else c.stack i) k.sp val

theorem resumedStack_value (c : Control) (k : VmContinuation) (val : Value) :
    resumedStack c k val k.sp = val :=
  Function.update_self _ _ _

theorem resumedStack_saved {c : Control} {k : VmContinuation} {i : ℕ}
    (hlo : max c.globalTop k.stackBase ≤ i) (hhi : i < k.sp) (val : Value) :
    resumedStack c k val i = k.savedStack (i - k.stackBase) := by
  rw [resumedStack, Function.update_of_ne (Nat.ne_of_lt hhi), if_pos ⟨hlo, hhi⟩]

theorem resumedStack_other {c : Control} {k : VmContinuation} {i : ℕ}
    (h : ¬ (max c.globalTop k.stackBase ≤ i ∧ i < k.sp)) (hi : i ≠ k.sp) (val : Value) :
    resumedStack c k val i = c.stack i := by
  rw [resumedStack, Function.update_of_ne hi, if_neg h]

theorem vmContinuationResume_eq_some {c c' : Control} {k : VmContinuation} {val : Value}
    (h : vmContinuationResume c k val = some c') :
    ∃ params : Int32 → VmParameter,
      (∀ p, ∃ rest, (params p).values =
        ((k.savedParameters.filter (·.1 = p)).map Prod.snd).reverse ++ rest) ∧
      max c.globalTop k.stackBase ≤ k.sp ∧
      c' = {
        pc := k.pc
        stack := resumedStack c k val
        sp := k.sp + 1
        fp := k.fp
        frames := fun i => if i < k.frameCount then k.savedFrames i else c.frames i
        frameCount := k.frameCount
        globalTop := c.globalTop
        handlers := c.handlers
        nHandlers := k.nHandlers
        winds := k.savedWinds
        bindings := k.savedParameters.map Prod.fst
        params := params } := by
  rw [vmContinuationResume] at h
  split at h
  next =>
    obtain ⟨c₁, hdynamic, h⟩ := Option.bind_eq_some_iff.mp h
    obtain ⟨c₂, hstack, hpush⟩ := Option.bind_eq_some_iff.mp h
    obtain ⟨unwound, hunwound⟩ := vmUnwindParameterBindings_eq c 0
    rw [vmRestoreContinuationDynamicState, hunwound] at hdynamic
    obtain ⟨params, rfl, hvalues⟩ := foldlM_restoreParameter hdynamic
    rw [vmRestoreContinuationStack] at hstack
    split at hstack
    next hbase =>
      obtain rfl := Option.some.inj hstack
      rw [Control.push] at hpush
      split at hpush
      next =>
        obtain rfl := Option.some.inj hpush
        exact ⟨params, fun p => ⟨_, hvalues p⟩, hbase, rfl⟩
      next => exact absurd hpush nofun
    next => exact absurd hstack nofun
  next => exact absurd h nofun

end Eshkol.Vm
