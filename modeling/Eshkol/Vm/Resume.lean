import Mathlib.Data.List.Count
import Eshkol.Vm.Control

/-!
# Resuming Continuations

What a continuation puts back, over whole runs of the VM: between the capture and the resumption
any instructions may run, handlers may be installed and removed, extents and bindings of
parameters entered and left, and other continuations captured and resumed. The thunks that run
while exceptions are dispatched and continuations are resumed are steps of the run like any
others.

The number of handlers is saved with a continuation, but not the handlers themselves; and of a
parameter that is bound several times, only the current value.
-/

namespace Eshkol.Vm

/-! ### Runs -/

/-- A captured continuation, with the control state in which it was captured. -/
structure Captured where
  cont : VmContinuation
  origin : Control

/-- The control state and the continuations captured so far. -/
structure ControlState where
  control : Control
  captured : List Captured

/-- The steps of a run, as far as the control state goes. An instruction that is not listed by
itself leaves what it likes on the stack, in the frames and in the registers. -/
inductive ControlAction : Type
  | instruction (pc : ℤ) (stack : ℕ → Value) (sp fp : ℕ) (frames : ℕ → CallFrame)
      (frameCount : ℕ)
  | globalMark (operand : ℕ)
  | pushHandler (operand : ℤ)
  | popHandler
  | enterHandler
  | setWinds (winds : List Wind)
  | parameterizePush (p : Int32) (v : Value)
  | parameterizePop (p : Int32)
  | popParameter (p : Int32)
  | setParameter (p : Int32) (v : Value)
  | callcc (proc cont : Value) (funcPc : ℤ)
  | resume (index : ℕ) (val : Value)

/-- One step; `none` is an error, which ends the run. -/
def ControlState.step (s : ControlState) (a : ControlAction) : Option ControlState :=
  let c := s.control
  match a with
  | .instruction pc stack sp fp frames frameCount =>
    some { s with control := { c with pc, stack, sp, fp, frames, frameCount } }
  | .globalMark operand => some { s with control := { c with globalTop := max c.globalTop operand } }
  | .pushHandler operand => (vmExecPushHandler c operand).map fun c => { s with control := c }
  | .popHandler => some { s with control := Vm.popHandler c }
  | .enterHandler => some { s with control := Vm.enterHandler c }
  | .setWinds winds => some { s with control := { c with winds } }
  | .parameterizePush p v => (Vm.parameterizePush c p v).map fun c => { s with control := c }
  | .parameterizePop p => (Vm.parameterizePop c p).map fun c => { s with control := c }
  | .popParameter p => some { s with control := vmPopParameterBinding c p }
  | .setParameter p v => some { s with control := c.modifyParam p (vmParamSet · v) }
  | .callcc proc cont funcPc =>
    some ⟨callWithContinuation c proc cont funcPc, ⟨vmCaptureContinuation c, c⟩ :: s.captured⟩
  | .resume index val => do
      let k ← s.captured[index]?
      let c ← vmContinuationResume c k.cont val
      some { s with control := c }

/-- The values that a parameter is bound to, the innermost first. -/
def Control.boundValues (c : Control) (p : Int32) : List Value :=
  (c.params p).values.take (c.bindings.count p)

/-- The state `c` has the control state of `origin`, with the value that was passed. -/
structure Reestablished (origin c : Control) (val : Value) : Prop where
  pc : c.pc = origin.pc
  fp : c.fp = origin.fp
  sp : c.sp = origin.sp + 1
  frameCount : c.frameCount = origin.frameCount
  frames : ∀ i < origin.frameCount, c.frames i = origin.frames i
  operands : ∀ i, origin.globalTop ≤ i → i < origin.sp → c.stack i = origin.stack i
  value : c.stack origin.sp = val
  winds : c.winds = origin.winds
  bindings : c.bindings = origin.bindings
  boundValues : ∀ p, c.boundValues p = origin.boundValues p
  nHandlers : c.nHandlers = origin.nHandlers
  handlers : ∀ i < origin.nHandlers, c.handlers i = origin.handlers i
  innermost : innermostHandler c = innermostHandler origin

/-- All bindings of a parameter have its current value. -/
def BoundOnce (c : Control) : Prop :=
  ∀ p, c.boundValues p = List.replicate (c.bindings.count p) (c.params p).current

/-- The condition on a step: a handler that is installed in the place of one that a captured
continuation counts on is the same as that one, and a continuation is captured only while all
bindings of a parameter have its current value. -/
def Preserving (s : ControlState) : ControlAction → Prop
  | .pushHandler operand => ∀ k ∈ s.captured, ∀ c, vmExecPushHandler s.control operand = some c →
      s.control.nHandlers < k.origin.nHandlers →
        c.handlers s.control.nHandlers = k.origin.handlers s.control.nHandlers
  | .callcc _ _ _ => BoundOnce s.control
  | _ => True

/-- The states of the runs whose steps all meet the condition. -/
inductive PreservingRun : ControlState → ControlState → Prop
  | refl (s : ControlState) : PreservingRun s s
  | step {s s₁ s₂ : ControlState} {a : ControlAction} : PreservingRun s s₁ → Preserving s₁ a →
      s₁.step a = some s₂ → PreservingRun s s₂

/-! ### What is kept -/

/-- What is kept about a captured continuation. -/
structure Kept (c : Control) (k : Captured) : Prop where
  cont : k.cont = vmCaptureContinuation k.origin
  boundOnce : BoundOnce k.origin
  handlers : ∀ i < k.origin.nHandlers, c.handlers i = k.origin.handlers i

variable {c c' : Control} {k : Captured} {s s' : ControlState} {a : ControlAction}

theorem Kept.of_handlers (h : Kept c k) (hc : c'.handlers = c.handlers) : Kept c' k :=
  ⟨h.cont, h.boundOnce, fun i hi => (congrFun hc i).trans (h.handlers i hi)⟩

theorem handlers_vmUnwindParameterBindings (c : Control) (target : ℕ) :
    (vmUnwindParameterBindings c target).handlers = c.handlers := by
  obtain ⟨params, h⟩ := vmUnwindParameterBindings_eq c target
  rw [h]

theorem handlers_parameterizePush {c c' : Control} {p : Int32} {v : Value}
    (h : Vm.parameterizePush c p v = some c') : c'.handlers = c.handlers := by
  rw [Vm.parameterizePush] at h
  split at h
  next =>
    obtain ⟨c₁, hc₁, h⟩ := Option.bind_eq_some_iff.mp h
    obtain rfl := Option.some.inj h
    rw [vmRecordParameterBinding] at hc₁
    split at hc₁
    next =>
      obtain rfl := Option.some.inj hc₁
      rfl
    next => cases hc₁
  next => cases h

theorem handlers_vmPopParameterBinding (c : Control) (p : Int32) :
    (vmPopParameterBinding c p).handlers = c.handlers := by
  rw [vmPopParameterBinding]
  split
  next => rfl
  next => rfl

theorem handlers_parameterizePop {p : Int32} (h : Vm.parameterizePop c p = some c') :
    c'.handlers = c.handlers := by
  rw [Vm.parameterizePop] at h
  split at h
  next =>
    obtain rfl := Option.some.inj h
    exact handlers_vmPopParameterBinding _ p
  next => exact absurd h nofun

theorem ControlState.step_handlers (h : s.step a = some s')
    (hpush : ∀ operand, a ≠ .pushHandler operand) : s'.control.handlers = s.control.handlers := by
  cases a with
  | instruction | globalMark | popHandler | setWinds | setParameter | callcc =>
    obtain rfl := Option.some.inj h
    rfl
  | pushHandler operand => exact absurd rfl (hpush operand)
  | enterHandler =>
    obtain rfl := Option.some.inj h
    exact handlers_vmUnwindParameterBindings _ _
  | popParameter p =>
    obtain rfl := Option.some.inj h
    exact handlers_vmPopParameterBinding _ p
  | parameterizePush p v =>
    obtain ⟨c, hc, rfl⟩ := Option.map_eq_some_iff.mp h
    exact handlers_parameterizePush hc
  | parameterizePop p =>
    obtain ⟨c, hc, rfl⟩ := Option.map_eq_some_iff.mp h
    exact handlers_parameterizePop hc
  | resume index val =>
    obtain ⟨k, -, h⟩ := Option.bind_eq_some_iff.mp h
    obtain ⟨c, hc, h⟩ := Option.bind_eq_some_iff.mp h
    obtain rfl := Option.some.inj h
    obtain ⟨params, -, -, rfl⟩ := vmContinuationResume_eq_some hc
    rfl

theorem ControlState.step_captured (h : s.step a = some s') (hk : k ∈ s'.captured) :
    k ∈ s.captured ∨ (∃ proc cont funcPc, a = .callcc proc cont funcPc) ∧
      k = ⟨vmCaptureContinuation s.control, s.control⟩ := by
  cases a with
  | instruction | globalMark | popHandler | setWinds | setParameter | enterHandler
  | popParameter =>
    obtain rfl := Option.some.inj h
    exact .inl hk
  | pushHandler | parameterizePush | parameterizePop =>
    obtain ⟨c, -, rfl⟩ := Option.map_eq_some_iff.mp h
    exact .inl hk
  | callcc proc cont funcPc =>
    obtain rfl := Option.some.inj h
    rcases List.mem_cons.mp hk with rfl | hk
    · exact .inr ⟨⟨proc, cont, funcPc, rfl⟩, rfl⟩
    · exact .inl hk
  | resume index val =>
    obtain ⟨k, -, h⟩ := Option.bind_eq_some_iff.mp h
    obtain ⟨c, -, h⟩ := Option.bind_eq_some_iff.mp h
    obtain rfl := Option.some.inj h
    exact .inl hk

theorem Kept.pushHandler {operand : ℤ} (h : Kept c k)
    (hpush : vmExecPushHandler c operand = some c') (hsame : c.nHandlers < k.origin.nHandlers →
      c'.handlers c.nHandlers = k.origin.handlers c.nHandlers) : Kept c' k := by
  refine ⟨h.cont, h.boundOnce, fun i hi => ?_⟩
  by_cases hn : i = c.nHandlers
  · rw [hn] at hi ⊢
    exact hsame hi
  · rw [vmExecPushHandler] at hpush
    split at hpush
    next =>
      obtain rfl := Option.some.inj hpush
      exact (Function.update_of_ne hn _ _).trans (h.handlers i hi)
    next => exact absurd hpush nofun

theorem kept_step (hkept : ∀ k ∈ s.captured, Kept s.control k) (ha : Preserving s a)
    (h : s.step a = some s') : ∀ k ∈ s'.captured, Kept s'.control k := by
  intro k hk
  rcases s.step_captured h hk with hk | ⟨⟨proc, cont, funcPc, rfl⟩, rfl⟩
  · by_cases hpush : ∃ operand, a = .pushHandler operand
    · obtain ⟨operand, rfl⟩ := hpush
      obtain ⟨c, hc, rfl⟩ := Option.map_eq_some_iff.mp h
      exact (hkept k hk).pushHandler hc (ha k hk c hc)
    · exact (hkept k hk).of_handlers (s.step_handlers h fun o ho => hpush ⟨o, ho⟩)
  · exact ⟨rfl, ha, fun i _ => congrFun (s.step_handlers h nofun) i⟩

theorem PreservingRun.kept (h : PreservingRun s s') (hs : ∀ k ∈ s.captured, Kept s.control k) :
    ∀ k ∈ s'.captured, Kept s'.control k := by
  induction h with
  | refl => exact hs
  | step _ ha hstep ih => exact kept_step ih ha hstep

/-! ### What is put back -/

theorem savedParameters_filter (c : Control) (p : Int32) :
    ((vmCaptureContinuation c).savedParameters.filter (·.1 = p)).map Prod.snd =
      List.replicate (c.bindings.count p) (c.params p).current := by
  have hlist (bindings : List Int32) :
      ((bindings.map fun q => (q, (c.params q).current)).filter (·.1 = p)).map Prod.snd =
        List.replicate (bindings.count p) (c.params p).current := by
    induction bindings with
    | nil => rfl
    | cons q bindings ih =>
      rw [List.map_cons, List.filter_cons, List.count_cons]
      by_cases hq : q = p
      · simp [hq, ih, List.replicate_succ]
      · simp [hq, ih]
  exact hlist c.bindings

theorem map_fst_savedParameters (c : Control) :
    (vmCaptureContinuation c).savedParameters.map Prod.fst = c.bindings := by
  rw [vmCaptureContinuation, List.map_map]
  exact List.map_id _

theorem innermostHandler_congr (hn : c.nHandlers = c'.nHandlers)
    (h : ∀ i < c'.nHandlers, c.handlers i = c'.handlers i) :
    innermostHandler c = innermostHandler c' := by
  rw [innermostHandler, innermostHandler, hn]
  split
  next hpos => rw [h _ (by omega)]
  next => rfl

theorem Kept.reestablished {val : Value} (h : Kept c k)
    (hresume : vmContinuationResume c k.cont val = some c')
    (htop : c.globalTop = k.origin.globalTop) : Reestablished k.origin c' val := by
  rw [h.cont] at hresume
  obtain ⟨params, hvalues, -, rfl⟩ := vmContinuationResume_eq_some hresume
  refine ⟨rfl, rfl, rfl, rfl, ?_, ?_, ?_, rfl, map_fst_savedParameters _, ?_, rfl, h.handlers,
    innermostHandler_congr rfl h.handlers⟩
  · exact fun i hi => if_pos hi
  · intro i hlo hhi
    refine (resumedStack_saved (max_le (htop.trans_le hlo) hlo) hhi val).trans ?_
    exact congrArg k.origin.stack (Nat.add_sub_cancel' hlo)
  · exact resumedStack_value c (vmCaptureContinuation k.origin) val
  · intro p
    obtain ⟨rest, hrest⟩ := hvalues p
    rw [savedParameters_filter, List.reverse_replicate] at hrest
    rw [h.boundOnce p, Control.boundValues, map_fst_savedParameters, hrest,
      List.take_left' List.length_replicate]

/-- **Resuming a continuation re-establishes the control state of its capture** in every state of
a run whose steps all meet the condition. -/
theorem reestablished_run {c : Control} {s : ControlState} (hrun : PreservingRun ⟨c, []⟩ s)
    {k : Captured} (hk : k ∈ s.captured) {val : Value} {c' : Control}
    (hresume : vmContinuationResume s.control k.cont val = some c')
    (htop : s.control.globalTop = k.origin.globalTop) : Reestablished k.origin c' val :=
  (hrun.kept (List.forall_mem_nil _) k hk).reestablished hresume htop

/-- A run that captures a continuation within a handler and a binding of parameter 3, with an
operand on the stack; then another handler and another binding are entered, both handlers and
the inner binding are left, and the stack is overwritten. -/
def guardedCapture : List ControlAction :=
  [.pushHandler 10, .parameterizePush 3 (.int 5),
    .instruction 4 (Function.update (fun _ => .nil) 0 (.int 1)) 1 0 startControl.frames 0,
    .callcc .nil .nil 40, .pushHandler 30, .parameterizePush 3 (.int 6), .popHandler,
    .parameterizePop 3, .popHandler, .instruction 60 (fun _ => .nil) 0 0 startControl.frames 0]

/-- When the continuation of `guardedCapture` is resumed, its handler, its binding and its
operand are there again. -/
theorem reestablished_run_guarded :
    ∃ (s : ControlState) (k : Captured) (c' : Control),
      guardedCapture.foldlM ControlState.step ⟨startControl, []⟩ = some s ∧ k ∈ s.captured ∧
      vmContinuationResume s.control k.cont (.int 7) = some c' ∧
      innermostHandler c' = some ⟨10, 0, 0, 0, 0, 0⟩ ∧ c'.boundValues 3 = [.int 5] ∧
      c'.stack 0 = .int 1 ∧ Reestablished k.origin c' (.int 7) := by
  have honce : BoundOnce { startControl with
      bindings := [3]
      params := Function.update startControl.params 3 ⟨.int 5, [.nil]⟩ } := by
    intro p
    by_cases hp : p = 3
    · subst hp
      rfl
    · rw [Control.boundValues, List.count_eq_zero_of_not_mem (mt List.mem_singleton.mp hp)]
      rfl
  have hcapture : PreservingRun ⟨startControl, []⟩ _ :=
    .step (a := .callcc .nil .nil 40)
      (.step (a := .instruction 4 (Function.update (fun _ => .nil) 0 (.int 1)) 1 0
          startControl.frames 0)
        (.step (a := .parameterizePush 3 (.int 5))
          (.step (a := .pushHandler 10) (.refl _) (fun _ h => absurd h List.not_mem_nil) rfl)
          trivial rfl)
        trivial rfl)
      honce rfl
  have hrun : PreservingRun ⟨startControl, []⟩ _ :=
    .step (a := .instruction 60 (fun _ => .nil) 0 0 startControl.frames 0)
      (.step (a := .popHandler)
        (.step (a := .parameterizePop 3)
          (.step (a := .popHandler)
            (.step (a := .parameterizePush 3 (.int 6))
              (.step (a := .pushHandler 30) hcapture
                (fun k hk _ _ hlt => absurd hlt
                  (by obtain rfl := List.mem_singleton.mp hk; exact Nat.lt_irrefl 1)) rfl)
              trivial rfl)
            trivial rfl)
          trivial rfl)
        trivial rfl)
      trivial rfl
  exact ⟨_, _, _, rfl, List.mem_cons_self, rfl, rfl, rfl, rfl,
    reestablished_run hrun List.mem_cons_self rfl rfl⟩

/-- A continuation is captured within a handler; the handler is removed and another one is
installed. When the continuation is resumed, exceptions go to the other handler. -/
theorem resume_wrong_handler :
    ∃ (actions : List ControlAction) (s : ControlState) (k : Captured) (c' : Control),
      actions.foldlM ControlState.step ⟨startControl, []⟩ = some s ∧ k ∈ s.captured ∧
      vmContinuationResume s.control k.cont .nil = some c' ∧
      s.control.globalTop = k.origin.globalTop ∧
      innermostHandler k.origin = some ⟨10, 0, 0, 0, 0, 0⟩ ∧
      innermostHandler c' = some ⟨20, 2, 1, 1, 0, 0⟩ := by
  refine ⟨[.pushHandler 10, .callcc .nil .nil 7, .popHandler, .pushHandler 20], _, _, _, rfl,
    List.mem_cons_self, rfl, rfl, ?_, ?_⟩
  · rfl
  · rfl

end Eshkol.Vm
