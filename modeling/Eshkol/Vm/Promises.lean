import Eshkol.Machine.Calls

/-!
# Promises of the VM

`force` (`vm_force_promise_value` and its helpers in `lib/backend/vm_native.c`), with what it needs
of calls from native code (`vm_call_closure_from_native`), of handlers and of `dynamic-wind`. The
promises under evaluation form a chain: each holds the one before it in its last slot, and
`promise_eval_head` is the newest.

A closure is modelled by what its bytecode does to promises, handlers, winds and frames; the rest
of the memory is a type `W` that it reads and writes. Every step takes one from a bound on calls.
Continuations are left out. In the source a promise is a vector of three slots, which `vector-set!`
would write like those of any other vector; programs that do so are left out, too. A raise leaves
the bytecode up to the handler it goes to; where it crosses native frames, the outermost `vm_run`
continues with the handler, so that native calls below the handler never get their result back:
`escaped` says so of the innermost one.
-/

namespace Eshkol.Vm.Promises

open Machine

/-! ### Values and promises -/

/-- The empty list, a promise, or any other value. -/
inductive PromiseValue (α : Type) : Type
  | nil
  | promise (id : ℕ)
  | datum (a : α)
  deriving DecidableEq

/-- The states 0 to 4. -/
inductive PromiseState : Type
  | delayed
  | forced
  | delayForce
  | evaluating
  | evaluatingForce
  deriving DecidableEq

/-- What the bytecode of a closure does. -/
inductive Code (α W : Type) : Type
  /-- Returns a value. -/
  | ret (v : PromiseValue α)
  /-- `raise`. -/
  | raise (exn : PromiseValue α)
  /-- Reads and writes the memory. -/
  | access (write : W → W) (next : W → Code α W)
  /-- Calls a closure. -/
  | call (body : Code α W) (next : PromiseValue α → Code α W)
  /-- `delay`, or `delay-force` if `through`. -/
  | delay (through : Bool) (thunk : Code α W) (next : PromiseValue α → Code α W)
  /-- `make-promise`. -/
  | makePromise (v : PromiseValue α) (next : PromiseValue α → Code α W)
  /-- `force`. -/
  | force (v : PromiseValue α) (next : PromiseValue α → Code α W)
  /-- `OP_PUSH_HANDLER`, a body and `OP_POP_HANDLER`. -/
  | guard (body : Code α W) (handler next : PromiseValue α → Code α W)
  /-- `OP_WIND_PUSH`, a call, `OP_WIND_POP` and a call of the after thunk. -/
  | wind (body after : Code α W) (next : PromiseValue α → Code α W)

/-- The three slots of a promise. -/
structure Promise (α W : Type) : Type where
  state : PromiseState
  /-- The second slot, if it is a closure. -/
  thunk : Option (Code α W)
  /-- The value of a forced promise, the promise before in the chain of an evaluating one. -/
  slot : PromiseValue α

/-- What happens to the promise with a number. Nothing in the source keeps these; they count
calls. -/
inductive PromiseEvent : Type
  /-- It was made by `delay` or `delay-force`. -/
  | made (id : ℕ)
  /-- Its thunk was called. -/
  | entered (id : ℕ)
  /-- Its thunk was not called for want of a frame. -/
  | refused (id : ℕ)
  deriving DecidableEq

/-- The fields of the VM that matter here. -/
structure PromiseVm (α W : Type) : Type where
  promises : List (Promise α W)
  /-- `promise_eval_head`. -/
  head : PromiseValue α
  /-- `native_call_depth`. -/
  depth : ℕ
  /-- Whether the native call that the bytecode returns to was left by a raise. -/
  escaped : Bool
  /-- The rest of the memory. -/
  world : W
  trace : List PromiseEvent

/-- Where the bytecode runs: `frame_count`, `n_handlers`, `n_winds`, and how many native calls it
is in. -/
structure RunEnv : Type where
  frames : ℕ
  handlers : ℕ
  winds : ℕ
  natives : ℕ

/-- How a run ends. -/
inductive Outcome (α : Type) : Type
  /-- It returns. -/
  | value (v : PromiseValue α)
  /-- It raises to the handler with a number, with `frames` frames; `failed` says that an after
  thunk set `error`. -/
  | raised (handler frames : ℕ) (failed : Bool) (exn : PromiseValue α)
  /-- The outermost `vm_run` halts, or ends with an error, outside of the native calls. -/
  | stopped
  /-- `error` is set. -/
  | error

def maxFrames : ℕ := 256

variable {α W : Type}

/-- States 3 and 4. -/
def PromiseState.isEvaluating : PromiseState → Bool
  | .evaluating | .evaluatingForce => true
  | _ => false

/-- States 0 and 2. -/
def PromiseState.isUnforced : PromiseState → Bool
  | .delayed | .delayForce => true
  | _ => false

/-- `original_state == 0 ? 3 : 4`. -/
def PromiseState.begun : PromiseState → PromiseState
  | .delayed => .evaluating
  | _ => .evaluatingForce

/-- `state == 4 ? 2 : 0`. -/
def PromiseState.rolledBack : PromiseState → PromiseState
  | .evaluatingForce => .delayForce
  | _ => .delayed

/-- A promise that joins the chain. -/
def Promise.begin (p : Promise α W) (previous : PromiseValue α) : Promise α W :=
  { p with state := p.state.begun, slot := previous }

/-- A promise that leaves the chain with a value. -/
def Promise.commit (_ : Promise α W) (result : PromiseValue α) : Promise α W :=
  ⟨.forced, none, result⟩

/-- A promise that leaves the chain without one. -/
def Promise.rollBack (p : Promise α W) : Promise α W :=
  { p with state := p.state.rolledBack, slot := .nil }

/-! ### The chain -/

def vmIsPromiseValue (vm : PromiseVm α W) : PromiseValue α → Option (Promise α W)
  | .promise id => vm.promises[id]?
  | _ => none

def vmPromiseMarkEqual : PromiseValue α → PromiseValue α → Bool
  | .nil, .nil => true
  | .promise a, .promise b => a = b
  | _, _ => false

/-- `vm_promise_mark_reachable`, from a cursor on. -/
def vmPromiseMarkReachable (vm : PromiseVm α W) (mark : PromiseValue α) :
    ℕ → PromiseValue α → Exec Empty Bool
  | 0, _ => .error .diverges
  | calls + 1, cursor =>
    if vmPromiseMarkEqual cursor mark then .ok true
    else
      match vmIsPromiseValue vm cursor with
      | none => .ok false
      | some p =>
        if p.state.isEvaluating then vmPromiseMarkReachable vm mark calls p.slot
        else .ok false

/-- A promise put in the place of another. -/
def PromiseVm.setPromise (vm : PromiseVm α W) (id : ℕ) (p : Promise α W)
    (head : PromiseValue α) : PromiseVm α W :=
  { vm with promises := vm.promises.set id p, head := head }

/-- `vm_promise_eval_begin`; nothing if it sets `error`. -/
def vmPromiseEvalBegin (vm : PromiseVm α W) (value : PromiseValue α) (original : PromiseState) :
    Option (PromiseVm α W) :=
  match value with
  | .promise id =>
    if original.isUnforced then
      vm.promises[id]?.map fun p =>
        vm.setPromise id { p with state := original.begun, slot := vm.head } value
    else none
  | _ => none

/-- `vm_promise_eval_commit_one`; nothing if it sets `error`. -/
def vmPromiseEvalCommitOne (vm : PromiseVm α W) (value result : PromiseValue α) :
    Option (PromiseVm α W) :=
  if vmPromiseMarkEqual vm.head value then
    match value with
    | .promise id =>
      match vm.promises[id]? with
      | none => none
      | some p =>
        if p.state.isEvaluating then some (vm.setPromise id (p.commit result) p.slot)
        else none
    | _ => none
  else none

/-- The loop of `vm_promise_eval_commit_to`. -/
def commitLoop (mark result : PromiseValue α) :
    ℕ → PromiseVm α W → Exec Empty (Bool × PromiseVm α W)
  | 0, _ => .error .diverges
  | calls + 1, vm =>
    if vmPromiseMarkEqual vm.head mark then .ok (true, vm)
    else
      match vmPromiseEvalCommitOne vm vm.head result with
      | none => .ok (false, vm)
      | some vm => commitLoop mark result calls vm

/-- `vm_promise_eval_commit_to`: whether it leaves `error` unset. -/
def vmPromiseEvalCommitTo (calls : ℕ) (vm : PromiseVm α W) (mark result : PromiseValue α) :
    Exec Empty (Bool × PromiseVm α W) := do
  if ← vmPromiseMarkReachable vm mark calls vm.head then commitLoop mark result calls vm
  else .ok (false, vm)

/-- The loop of `vm_promise_eval_unwind_to`. -/
def unwindLoop (mark : PromiseValue α) : ℕ → PromiseVm α W → Exec Empty (PromiseVm α W)
  | 0, _ => .error .diverges
  | calls + 1, vm =>
    if vmPromiseMarkEqual vm.head mark then .ok vm
    else
      match vm.head with
      | .promise id =>
        match vm.promises[id]? with
        | none => .ok vm
        | some p => unwindLoop mark calls (vm.setPromise id p.rollBack p.slot)
      | _ => .ok vm

def vmPromiseEvalUnwindTo (calls : ℕ) (vm : PromiseVm α W) (mark : PromiseValue α) :
    Exec Empty (PromiseVm α W) := do
  if ← vmPromiseMarkReachable vm mark calls vm.head then unwindLoop mark calls vm else .ok vm

/-! ### Calls from native code -/

/-- A run of bytecode. -/
abbrev Run (α W : Type) : Type :=
  RunEnv → Code α W → PromiseVm α W → Exec Empty (Outcome α × PromiseVm α W)

/-- The part of `vm_call_closure_from_native` behind the test of the frames. Bytecode that was
reached by a raise returns to the frame with `return_pc` -1 in the outermost `vm_run`, which
halts. -/
def runClosure (run : Run α W) (env : RunEnv) (code : Code α W) (vm : PromiseVm α W) :
    Exec Empty (Outcome α × PromiseVm α W) := do
  let (outcome, after) ← run { env with frames := env.frames + 1, natives := env.natives + 1 } code
    { vm with depth := vm.depth + 1, escaped := false }
  match outcome with
  | .raised handler frames failed exn => .ok (.raised handler frames failed exn, after)
  | .stopped => .ok (.stopped, after)
  | outcome =>
    if after.escaped then .ok (.stopped, after)
    else .ok (outcome, { after with depth := after.depth - 1, escaped := vm.escaped })

/-- `vm_call_closure_from_native`, for the thunk of a promise. Without a free frame it returns
the empty list. -/
def vmCallClosureFromNative (run : Run α W) (env : RunEnv) (id : ℕ) (code : Code α W)
    (vm : PromiseVm α W) : Exec Empty (Outcome α × PromiseVm α W) :=
  if maxFrames ≤ env.frames then .ok (.value .nil, { vm with trace := vm.trace ++ [.refused id] })
  else runClosure run env code { vm with trace := vm.trace ++ [.entered id] }

/-- `vm_run_wind_after`, for an after thunk. -/
def runWindAfter (run : Run α W) (env : RunEnv) (code : Code α W) (vm : PromiseVm α W) :
    Exec Empty (Outcome α × PromiseVm α W) :=
  if maxFrames ≤ env.frames then .ok (.value .nil, vm) else runClosure run env code vm

/-! ### Force -/

/-- The end of `vm_force_promise_value` with a value. -/
def finishForce (calls : ℕ) (vm : PromiseVm α W) (mark final : PromiseValue α) :
    Exec Empty (Outcome α × PromiseVm α W) := do
  let (committed, vm) ← vmPromiseEvalCommitTo calls vm mark final
  .ok (if committed then .value final else .error, vm)

/-- The end of `vm_force_promise_value` with `error` set. -/
def failForce (calls : ℕ) (vm : PromiseVm α W) (mark : PromiseValue α) :
    Exec Empty (Outcome α × PromiseVm α W) := do
  let vm ← vmPromiseEvalUnwindTo calls vm mark
  .ok (.error, vm)

/-- The loop of `vm_force_promise_value` behind the call of a thunk. -/
def afterThunk (loop : PromiseValue α → PromiseVm α W → Exec Empty (Outcome α × PromiseVm α W))
    (calls : ℕ) (mark : PromiseValue α) (id : ℕ) (state : PromiseState) :
    Outcome α × PromiseVm α W → Exec Empty (Outcome α × PromiseVm α W)
  | (.value result, vm) =>
    if state = .delayed then
      match vmPromiseEvalCommitOne vm (.promise id) result with
      | none => failForce calls vm mark
      | some vm => finishForce calls vm mark result
    else loop result vm
  | (.error, vm) => failForce calls vm mark
  | (outcome, vm) => .ok (outcome, vm)

/-- The loop of `vm_force_promise_value`. -/
def forceLoop (run : Run α W) (env : RunEnv) (mark : PromiseValue α) :
    ℕ → PromiseValue α → PromiseVm α W → Exec Empty (Outcome α × PromiseVm α W)
  | 0, _, _ => .error .diverges
  | calls + 1, .promise id, vm =>
    match vm.promises[id]? with
    | none => finishForce calls vm mark (.promise id)
    | some p =>
      match p.state, p.thunk with
      | .forced, _ => finishForce calls vm mark p.slot
      | .evaluating, _ => failForce calls vm mark
      | .evaluatingForce, _ => failForce calls vm mark
      | _, none => failForce calls vm mark
      | state, some thunk =>
        match vmPromiseEvalBegin vm (.promise id) state with
        | none => failForce calls vm mark
        | some vm => do
            let result ← vmCallClosureFromNative run env id thunk vm
            afterThunk (forceLoop run env mark calls) calls mark id state result
  | calls + 1, v, vm => finishForce calls vm mark v

def vmForcePromiseValue (run : Run α W) (env : RunEnv) (calls : ℕ) (v : PromiseValue α)
    (vm : PromiseVm α W) : Exec Empty (Outcome α × PromiseVm α W) :=
  forceLoop run env vm.head calls v vm

/-! ### Bytecode -/

/-- The end of `vm_dispatch_exception` at a handler of `env`, installed when the head of the
chain was `mark`: the promises are unwound and any native frames are left, which clears `error`.
It returns whether `error` is still set. -/
def vmDispatchException (calls : ℕ) (env : RunEnv) (mark : PromiseValue α) (failed : Bool)
    (vm : PromiseVm α W) : Exec Empty (Bool × PromiseVm α W) := do
  let vm ← vmPromiseEvalUnwindTo calls vm mark
  .ok (failed && vm.depth = 0, { vm with depth := 0, escaped := 0 < env.natives })

/-- Continues with the value of a run; any other outcome is passed on. -/
def andThen (x : Exec Empty (Outcome α × PromiseVm α W))
    (f : PromiseValue α → PromiseVm α W → Exec Empty (Outcome α × PromiseVm α W)) :
    Exec Empty (Outcome α × PromiseVm α W) := do
  match ← x with
  | (.value v, vm) => f v vm
  | (outcome, vm) => .ok (outcome, vm)

/-- `VM_NATIVE_PROMISE_CREATE` on three slots. -/
def PromiseVm.makePromise (vm : PromiseVm α W) (p : Promise α W) (events : List PromiseEvent) :
    PromiseVm α W :=
  { vm with promises := vm.promises ++ [p], trace := vm.trace ++ events }

/-- A raise on its way from a body with an after thunk. -/
def windRaised (run : Run α W) (env : RunEnv) (after : Code α W) (handler frames : ℕ)
    (failed : Bool) (exn : PromiseValue α) (vm : PromiseVm α W) :
    Exec Empty (Outcome α × PromiseVm α W) := do
  match ← runWindAfter run { env with frames := frames, handlers := handler } after vm with
  | (.value _, vm) => .ok (.raised handler frames failed exn, vm)
  | (.error, vm) => .ok (.raised handler frames true exn, vm)
  | (outcome, vm) => .ok (outcome, vm)

/-- `vm_run`, on what bytecode does. -/
def runCode : ℕ → Run α W
  | 0, _, _, _ => .error .diverges
  | _ + 1, _, .ret v, vm => .ok (.value v, vm)
  | _ + 1, env, .raise exn, vm =>
    match env.handlers with
    | 0 => .ok (.error, vm)
    | handler + 1 => .ok (.raised handler env.frames false exn, vm)
  | calls + 1, env, .access write next, vm =>
    runCode calls env (next vm.world) { vm with world := write vm.world }
  | calls + 1, env, .call body next, vm =>
    if maxFrames ≤ env.frames then .ok (.error, vm)
    else
      andThen (runCode calls { env with frames := env.frames + 1 } body vm) fun v vm =>
        runCode calls env (next v) vm
  | calls + 1, env, .delay through thunk next, vm =>
    runCode calls env (next (.promise vm.promises.length))
      (vm.makePromise ⟨if through then .delayForce else .delayed, some thunk, .nil⟩
        [.made vm.promises.length])
  | calls + 1, env, .makePromise v next, vm =>
    runCode calls env (next (.promise vm.promises.length)) (vm.makePromise ⟨.forced, none, v⟩ [])
  | calls + 1, env, .force v next, vm =>
    andThen (vmForcePromiseValue (runCode calls) env calls v vm) fun v vm =>
      runCode calls env (next v) vm
  | calls + 1, env, .guard body handler next, vm =>
    if 16 ≤ env.handlers then .ok (.error, vm)
    else do
      match ← runCode calls { env with handlers := env.handlers + 1 } body vm with
      | (.raised target frames failed exn, after) =>
        if target = env.handlers then do
          let (failed, vm) ← vmDispatchException calls env vm.head failed after
          if failed then .ok (.error, vm)
          else
            andThen (runCode calls env (handler exn) vm) fun v vm =>
              runCode calls env (next v) vm
        else .ok (.raised target frames failed exn, after)
      | (.value v, vm) => runCode calls env (next v) vm
      | (outcome, vm) => .ok (outcome, vm)
  | calls + 1, env, .wind body after next, vm =>
    if 32 ≤ env.winds ∨ maxFrames ≤ env.frames then .ok (.error, vm)
    else do
      match ← runCode calls { env with frames := env.frames + 1, winds := env.winds + 1 } body
          vm with
      | (.raised target frames failed exn, vm) =>
        windRaised (runCode calls) env after target frames failed exn vm
      | (.value v, vm) =>
        andThen (runCode calls { env with frames := env.frames + 1 } after vm) fun _ vm =>
          runCode calls env (next v) vm
      | (outcome, vm) => .ok (outcome, vm)

end Eshkol.Vm.Promises
