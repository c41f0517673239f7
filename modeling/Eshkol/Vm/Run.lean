import Mathlib.Data.Set.Basic
import Mathlib.Logic.Function.Basic
import Eshkol.Machine.Exec

/-!
# The Dispatch Loop of the Bytecode VM

The interpreter of `lib/backend/vm_run.c`. The opcodes that the peephole optimizer removes
or moves across (`CONST`, `POP`, `DUP`, `ADD`, `MUL`, `NEG`, `NOT`, the jumps, the closure
opcodes) are modelled as they compute, down to the calls they make. What they call (native
functions, bignum arithmetic, exceptions, the tape of reverse-mode differentiation, double
arithmetic) and the bodies of the other opcodes are the parameter `Runtime`.

A body may run the interpreter again, as native functions do when they call a closure, so
its effect is a `Prog`: a new state, or a request to run from some state and what to do with
the outcome. The bodies that read the code are `OP_CLOSURE_LONG`, for the count that follows
it, which is modelled, and the look-aheads for native calls, coverage markers and workers.
These search for opcodes that the optimizer neither adds nor removes, or treat the opcodes it
exchanges alike, and are not modelled. Code addresses are never made up: `Runtime.addrs` are the
addresses a state holds (return addresses, closure entries, handlers, continuations), and
the laws of a `Runtime` say that a body leaves only addresses it was given.

The operand stack is the list of its live slots, the top first; slots above the stack
pointer are not read. The runaway-instruction guard and the timeout poll of `DISPATCH` are
not modelled.
-/

namespace Eshkol.Vm

open Machine

/-! ### Values and instructions -/

/-- Types of values that live on the heap. -/
inductive BoxTag : Type
  | complex
  | rational
  | bignum
  | dual
  | hyperDual
  | i128
  | other (type : UInt8)
  deriving DecidableEq, Repr

/-- A tagged value: doubles, binary32 words and booleans as their bits. -/
inductive Value : Type
  | nil
  | int (i : Int64)
  | float (f : UInt64)
  | bool (b : Int32)
  | char (i : Int64)
  | float32 (bits : UInt32)
  | boxed (tag : BoxTag) (ptr : Int32)
  deriving DecidableEq, Repr

/-- `OpCode`. The opcodes whose bodies are parameters are `other`. -/
inductive OpCode : Type
  | nop
  | const
  | nil
  | true
  | false
  | pop
  | dup
  | add
  | mul
  | neg
  | not
  | closure
  | closureLong
  | closureCount
  | jump
  | jumpIfFalse
  | loop
  | pushHandler
  | halt
  | other (op : UInt8)
  deriving DecidableEq, Repr

structure Instr where
  op : OpCode
  operand : ℤ
  deriving DecidableEq, Repr

/-- `FuncChunk`, as far as the optimizer and the interpreter read it: the code, the constants
and the offsets of the functions in the entry table. -/
structure FuncChunk where
  code : List Instr
  constants : List Value
  entries : List ℤ

/-- A constant, if the index is in the pool. -/
def constantAt (constants : List Value) (idx : ℤ) : Option Value :=
  if idx < 0 then none else constants[idx.toNat]?

def stackSize : ℕ := 262144

/-! ### States -/

/-- The state of the VM: program counter, operand stack, flags, whether a tape is active,
and which tape node each stack slot holds (`-1` for none). The heap, the frames, the
handlers and all else are `rest`. -/
structure VmState (ρ : Type) where
  pc : ℤ
  stack : List Value
  error : Bool
  halted : Bool
  activeTape : Bool
  adNodeMap : ℕ → ℤ
  rest : ρ

/-- What a body does: a new state, or a run of the interpreter and what follows it. -/
inductive Prog (ρ : Type) : Type
  | ret (s : VmState ρ)
  | run (s : VmState ρ) (k : VmState ρ → Prog ρ)

variable {ρ : Type}

/-- `vm_push`. -/
def VmState.push (s : VmState ρ) (v : Value) : VmState ρ :=
  if stackSize ≤ s.stack.length then { s with error := true }
  else { s with stack := v :: s.stack }

/-- `vm_pop`: the value and the state. -/
def VmState.pop (s : VmState ρ) : Value × VmState ρ :=
  match s.stack with
  | [] => (.nil, { s with error := true })
  | v :: st => (v, { s with stack := st })

/-- `vm_peek(vm, 0)`. -/
def VmState.peek (s : VmState ρ) : Value := s.stack.head?.getD .nil

/-- `vm->ad_node_map[slot] = node`. -/
def VmState.setNode (s : VmState ρ) (slot : ℕ) (node : ℤ) : VmState ρ :=
  { s with adNodeMap := Function.update s.adNodeMap slot node }

def isTruthy : Value → Bool
  | .bool b => b != 0
  | _ => true

def vmIsF32Value : Value → Bool
  | .float32 _ => true
  | _ => false

def vmIsF32ScalarPeer : Value → Bool
  | .int _ => true
  | .float _ => true
  | .float32 _ => true
  | _ => false

def vmIsArithmeticNumber : Value → Bool
  | .int _ => true
  | .float _ => true
  | .float32 _ => true
  | .boxed tag _ => match tag with
    | .other _ => false
    | _ => true
  | _ => false

/-- Whether a value is a heap value of the given type. -/
def Value.hasTag (tag : BoxTag) : Value → Bool
  | .boxed t _ => t == tag
  | _ => false

/-! ### The parameters of the interpreter -/

/-- The two binary operations of the removed pairs. -/
inductive ArithOp : Type
  | add
  | mul
  deriving DecidableEq, Repr

/-- The name of the operation in error messages. -/
def ArithOp.name : ArithOp → String
  | .add => "+"
  | .mul => "*"

/-- The operation on integers. -/
def ArithOp.onInt : ArithOp → ℤ → ℤ → ℤ
  | .add => (· + ·)
  | .mul => (· * ·)

/-- A state holds code addresses of `A` only: its program counter and those in `rest`. -/
def Holds (addrs : ρ → Set ℤ) (A : Set ℤ) (s : VmState ρ) : Prop := s.pc ∈ A ∧ addrs s.rest ⊆ A

/-- All states of a body hold addresses of `A` only, if the outcomes of its runs do. -/
def Within (addrs : ρ → Set ℤ) (A : Set ℤ) : Prog ρ → Prop
  | .ret s => Holds addrs A s
  | .run s k => Holds addrs A s ∧ ∀ t, Holds addrs A t → Within addrs A (k t)

/-- The address in a closure constant: the low 32 bits, signed. -/
def closureEntry : Value → Option ℤ
  | .int i => some (Int32.ofInt i.toInt).toInt
  | _ => none

/-- The parts of the VM that the interpreter calls. -/
structure Runtime (ρ : Type) where
  /-- `(double)i`. -/
  ofInt : Int64 → UInt64
  /-- `vm_float32_to_double`. -/
  ofFloat32 : UInt32 → UInt64
  /-- `as_number_vm` of a heap value. -/
  heapNumber : BoxTag → Int32 → ρ → UInt64
  /-- `+` and `*` of doubles. -/
  onDouble : ArithOp → UInt64 → UInt64 → UInt64
  /-- `number_val`. -/
  numberVal : UInt64 → Value
  /-- `ad_add` or `ad_mul` of two nodes, of which one may be a constant still to be recorded
  (`-1`), and `ad_neg`: the new node, and the state with the tape extended. -/
  adBinary : ArithOp → ℤ → ℤ → UInt64 → UInt64 → ρ → ℤ × ρ
  adNeg : ℤ → ρ → ℤ × ρ
  /-- `vm_dispatch_native`. -/
  dispatchNative : ℕ → VmState ρ → Prog ρ
  /-- `vm_bignum_arith`, and negation of a bignum or of `INT64_MIN`. -/
  bignumArith : ArithOp → Value → Value → VmState ρ → Prog ρ
  bignumNeg : Value → VmState ρ → Prog ρ
  /-- `vm_raise_error_msg`. -/
  raiseErrorMsg : String → VmState ρ → Prog ρ
  /-- `vm_exec_closure_with_count` on a constant and a count. -/
  execClosure : Value → ℤ → VmState ρ → Prog ρ
  /-- `vm_exec_push_handler`. -/
  execPushHandler : ℤ → VmState ρ → Prog ρ
  /-- The bodies of the other opcodes. -/
  execOther : UInt8 → ℤ → VmState ρ → Prog ρ
  /-- The code addresses held outside the program counter. -/
  addrs : ρ → Set ℤ
  /-- No body makes up a code address. -/
  adBinary_addrs : ∀ op an bn a b r, addrs (adBinary op an bn a b r).2 ⊆ addrs r
  adNeg_addrs : ∀ an r, addrs (adNeg an r).2 ⊆ addrs r
  dispatchNative_within : ∀ {A s} id, Holds addrs A s → Within addrs A (dispatchNative id s)
  bignumArith_within : ∀ {A s} op a b, Holds addrs A s → Within addrs A (bignumArith op a b s)
  bignumNeg_within : ∀ {A s} a, Holds addrs A s → Within addrs A (bignumNeg a s)
  raiseErrorMsg_within : ∀ {A s} msg, Holds addrs A s → Within addrs A (raiseErrorMsg msg s)
  execClosure_within : ∀ {A s} v n t, closureEntry v = some t → t ∈ A → Holds addrs A s →
    Within addrs A (execClosure v n s)
  execPushHandler_within : ∀ {A s} t, t ∈ A → Holds addrs A s → Within addrs A (execPushHandler t s)
  execOther_within : ∀ {A s} op x, Holds addrs A s → Within addrs A (execOther op x s)

namespace Runtime

variable (m : Runtime ρ)

/-! ### Opcode bodies -/

/-- `as_scalar_number_vm`. -/
def asScalarNumber (r : ρ) : Value → UInt64
  | .int i => m.ofInt i
  | .float f => f
  | .char i => m.ofInt i
  | .float32 b => m.ofFloat32 b
  | .boxed tag p => m.heapNumber tag p r
  | _ => 0

/-- `-x` for a double. -/
def fneg (x : UInt64) : UInt64 := x ^^^ 0x8000000000000000

/-- `VM_AD_BINARY`, after the operands have been popped from slots `aSp` and `aSp + 1`. -/
def recordBinary (op : ArithOp) (aSp : ℕ) (a b : Value) (s : VmState ρ) : VmState ρ :=
  if s.activeTape then
    let an := s.adNodeMap aSp
    let bn := s.adNodeMap (aSp + 1)
    if an ≠ -1 ∨ bn ≠ -1 then
      let (node, r) := m.adBinary op an bn (m.asScalarNumber s.rest a)
        (m.asScalarNumber s.rest b) s.rest
      { s with rest := r }.setNode s.stack.length node
    else s.setNode s.stack.length (-1)
  else s.setNode s.stack.length (-1)

/-- `VM_AD_UNARY` for `ad_neg`, after the operand has been popped from slot `aSp`. -/
def recordNeg (aSp : ℕ) (s : VmState ρ) : VmState ρ :=
  if s.activeTape ∧ s.adNodeMap aSp ≠ -1 then
    let (node, r) := m.adNeg (s.adNodeMap aSp) s.rest
    { s with rest := r }.setNode s.stack.length node
  else s.setNode s.stack.length (-1)

/-- The native functions for operands of the wider types. -/
def ArithOp.nativeId (op : ArithOp) (tag : BoxTag) : ℕ :=
  match op, tag with
  | .add, .hyperDual => 1905
  | .add, .dual => 373
  | .add, .rational => 331
  | .add, _ => 307
  | .mul, .hyperDual => 1907
  | .mul, .dual => 375
  | .mul, .rational => 333
  | .mul, _ => 309

/-- `lbl_ADD` and `lbl_MUL` on two operands. -/
def arithBinary (op : ArithOp) (aSp : ℕ) (a b : Value) (s : VmState ρ) : Prog ρ :=
  let either (tag : BoxTag) : Bool := a.hasTag tag || b.hasTag tag
  let native (tag : BoxTag) : Prog ρ :=
    m.dispatchNative (ArithOp.nativeId op tag) ((s.push a).push b)
  if ¬ (vmIsArithmeticNumber a ∧ vmIsArithmeticNumber b) then
    m.raiseErrorMsg (op.name ++ ": expected numeric operands") s
  else if (vmIsF32Value a ∨ vmIsF32Value b) ∧ s.activeTape then
    m.raiseErrorMsg (op.name ++ ": float32 is not supported by VM automatic differentiation") s
  else if (vmIsF32Value a ∨ vmIsF32Value b) ∧ ¬ (vmIsF32ScalarPeer a ∧ vmIsF32ScalarPeer b) then
    m.raiseErrorMsg (op.name ++
      ": float32 operands require an int64, f64, or float32 peer") s
  else if either .i128 then
    m.raiseErrorMsg (op.name ++ ": i128 arithmetic is not supported on the VM (no i128 opcodes " ++
      "are implemented in the bytecode interpreter); use the native backend") s
  else if either .hyperDual then native .hyperDual
  else if either .dual then native .dual
  else if either .rational then native .rational
  else if either .complex then native .complex
  else if either .bignum then m.bignumArith op a b (s.setNode s.stack.length (-1))
  else
    let s' := m.recordBinary op aSp a b s
    match a, b with
    | .int x, .int y =>
      let r := op.onInt x.toInt y.toInt
      if -2 ^ 63 ≤ r ∧ r < 2 ^ 63 then .ret (s'.push (.int (Int64.ofInt r)))
      else m.bignumArith op a b s'
    | _, _ => .ret (s'.push (.float (m.onDouble op (m.asScalarNumber s'.rest a)
        (m.asScalarNumber s'.rest b))))

/-- `lbl_ADD` and `lbl_MUL`. With operand 1 the operation is unary. -/
def arith (op : ArithOp) (operand : ℤ) (s : VmState ρ) : Prog ρ :=
  if operand = 1 then
    let (a, s) := s.pop
    if vmIsF32Value a ∧ s.activeTape then
      m.raiseErrorMsg (op.name ++ ": float32 is not supported by VM automatic differentiation") s
    else .ret (s.push (if vmIsF32Value a then .float (m.asScalarNumber s.rest a) else a))
  else
    let aSp := s.stack.length - 2
    let (b, s) := s.pop
    let (a, s) := s.pop
    m.arithBinary op aSp a b s

/-- `lbl_NEG`. -/
def execNeg (s : VmState ρ) : Prog ρ :=
  let aSp := s.stack.length - 1
  let (a, s) := s.pop
  if vmIsF32Value a ∧ s.activeTape then
    m.raiseErrorMsg "-: float32 is not supported by VM automatic differentiation" s
  else if a.hasTag .i128 then
    m.raiseErrorMsg ("-: i128 arithmetic is not supported on the VM (no i128 opcodes " ++
      "are implemented in the bytecode interpreter); use the native backend") s
  else if a.hasTag .hyperDual then m.dispatchNative 1909 (s.push a)
  else if a.hasTag .dual then m.dispatchNative 384 (s.push a)
  else if a.hasTag .rational then m.dispatchNative 335 (s.push a)
  else if a.hasTag .bignum then m.bignumNeg a (s.setNode s.stack.length (-1))
  else
    let s' := m.recordNeg aSp s
    match a with
    | .int x =>
      if x = Int64.minValue then m.bignumNeg a s'
      else .ret (s'.push (.int (-x)))
    | .float f => .ret (s'.push (.float (fneg f)))
    | .float32 b => .ret (s'.push (.float (fneg (m.ofFloat32 b))))
    | a => .ret (s'.push (m.numberVal (fneg (m.asScalarNumber s'.rest a))))

/-- `lbl_NOT`. -/
def execNot (s : VmState ρ) : Prog ρ :=
  let (a, s) := s.pop
  .ret (s.push (.bool (if isTruthy a then 0 else 1)))

/-- `lbl_CONST`. -/
def execConst (constants : List Value) (operand : ℤ) (s : VmState ρ) : Prog ρ :=
  match constantAt constants operand with
  | none => .ret { s with error := true }
  | some v =>
    let s := if s.activeTape ∧ s.stack.length < stackSize then s.setNode s.stack.length (-1)
      else s
    .ret (s.push v)

/-- `vm_exec_closure_with_count`, with its check of the constant index. -/
def execClosureAt (constants : List Value) (idx n : ℤ) (s : VmState ρ) : Prog ρ :=
  match constantAt constants idx with
  | none => .ret { s with error := true }
  | some v => m.execClosure v n s

/-- The operand of an `OP_CLOSURE_COUNT`, the rest of the code not being read. -/
def closureCount : Option Instr → Option ℤ
  | some ⟨.closureCount, n⟩ => some n
  | _ => none

/-- The instruction at an address that is not negative. -/
def fetch (code : List Instr) (pc : ℤ) : Option Instr := if pc < 0 then none else code[pc.toNat]?

/-- One instruction. The program counter is already past it; `next` is the instruction
there. -/
def exec (constants : List Value) (next : Option Instr) (i : Instr) (s : VmState ρ) : Prog ρ :=
  match i.op with
  | .nop => .ret s
  | .const => execConst constants i.operand s
  | .nil => .ret (s.push .nil)
  | .true => .ret (s.push (.bool 1))
  | .false => .ret (s.push (.bool 0))
  | .pop => .ret s.pop.2
  | .dup => .ret (s.push s.peek)
  | .add => m.arith .add i.operand s
  | .mul => m.arith .mul i.operand s
  | .neg => m.execNeg s
  | .not => execNot s
  | .closure => m.execClosureAt constants (i.operand % 2 ^ 16) (i.operand / 2 ^ 16 % 2 ^ 8) s
  | .closureLong =>
    match closureCount next with
    | none => .ret { s with error := true }
    | some n => m.execClosureAt constants i.operand n { s with pc := s.pc + 1 }
  | .closureCount => .ret { s with error := true }
  | .jump => .ret { s with pc := i.operand }
  | .jumpIfFalse =>
    let (cond, s) := s.pop
    .ret (if isTruthy cond then s else { s with pc := i.operand })
  | .loop => .ret { s with pc := i.operand }
  | .pushHandler => m.execPushHandler i.operand s
  | .halt => .ret { s with halted := true }
  | .other op => m.execOther op i.operand s

/-- Carries out a body, given how to run the interpreter. -/
def interp (run : VmState ρ → Exec Unit (VmState ρ)) : Prog ρ → Exec Unit (VmState ρ)
  | .ret s => .ok s
  | .run s k => do
      let t ← run s
      interp run (k t)

/-- Whether `DISPATCH` leaves the loop. -/
def stopped (code : List Instr) (s : VmState ρ) : Bool :=
  s.halted || s.error || decide ((code.length : ℤ) ≤ s.pc)

/-- `vm_run`, for at most `n` instructions in depth. -/
def vmRun (c : FuncChunk) : ℕ → VmState ρ → Exec Unit (VmState ρ)
  | 0, _ => .error .diverges
  | n + 1, s =>
    if stopped c.code s then .ok s
    else match fetch c.code s.pc with
      | none => .error .undefined
      | some i => do
          let t ← interp (vmRun c n)
            (m.exec c.constants (fetch c.code (s.pc + 1)) i { s with pc := s.pc + 1 })
          vmRun c n t

end Runtime

/-! ### Code addresses -/

section States

variable (s : VmState ρ) (v : Value) (slot : ℕ) (node : ℤ)

@[simp] theorem VmState.push_pc : (s.push v).pc = s.pc := by
  rw [VmState.push]
  split <;> rfl

@[simp] theorem VmState.push_rest : (s.push v).rest = s.rest := by
  rw [VmState.push]
  split <;> rfl

@[simp] theorem VmState.pop_pc : s.pop.2.pc = s.pc := by
  rw [VmState.pop]
  split <;> rfl

@[simp] theorem VmState.pop_rest : s.pop.2.rest = s.rest := by
  rw [VmState.pop]
  split <;> rfl

@[simp] theorem VmState.setNode_pc : (s.setNode slot node).pc = s.pc := rfl

@[simp] theorem VmState.setNode_rest : (s.setNode slot node).rest = s.rest := rfl

end States

section Addresses

variable {addrs : ρ → Set ℤ} {A : Set ℤ} {s t : VmState ρ}

theorem Holds.of_eq (h : Holds addrs A s) (hpc : t.pc = s.pc) (hrest : t.rest = s.rest) :
    Holds addrs A t :=
  ⟨hpc ▸ h.1, hrest ▸ h.2⟩

theorem Holds.push (h : Holds addrs A s) (v : Value) : Holds addrs A (s.push v) :=
  h.of_eq (s.push_pc v) (s.push_rest v)

theorem Holds.pop (h : Holds addrs A s) : Holds addrs A s.pop.2 := h.of_eq s.pop_pc s.pop_rest

theorem Holds.setNode (h : Holds addrs A s) (slot : ℕ) (node : ℤ) :
    Holds addrs A (s.setNode slot node) :=
  h.of_eq rfl rfl

theorem Within.ite {p q : Prog ρ} (c : Prop) [Decidable c] (hp : Within addrs A p)
    (hq : Within addrs A q) : Within addrs A (if c then p else q) := by
  split
  · exact hp
  · exact hq

end Addresses

namespace Runtime

variable (m : Runtime ρ) {A : Set ℤ} {s : VmState ρ}

theorem holds_recordBinary (op : ArithOp) (aSp : ℕ) (a b : Value) (h : Holds m.addrs A s) :
    Holds m.addrs A (m.recordBinary op aSp a b s) := by
  rw [recordBinary]
  split
  · simp only
    split
    · exact ⟨h.1, (m.adBinary_addrs _ _ _ _ _ _).trans h.2⟩
    · exact h.setNode _ _
  · exact h.setNode _ _

theorem holds_recordNeg (aSp : ℕ) (h : Holds m.addrs A s) :
    Holds m.addrs A (m.recordNeg aSp s) := by
  rw [recordNeg]
  split
  · exact ⟨h.1, (m.adNeg_addrs _ _).trans h.2⟩
  · exact h.setNode _ _

theorem within_arithBinary (op : ArithOp) (aSp : ℕ) (a b : Value) (h : Holds m.addrs A s) :
    Within m.addrs A (m.arithBinary op aSp a b s) := by
  have hraise (msg : String) : Within m.addrs A (m.raiseErrorMsg msg s) :=
    m.raiseErrorMsg_within msg h
  have hnative (id : ℕ) : Within m.addrs A (m.dispatchNative id ((s.push a).push b)) :=
    m.dispatchNative_within id ((h.push a).push b)
  have hs := m.holds_recordBinary op aSp a b h
  dsimp only [arithBinary]
  refine .ite _ (hraise _) (.ite _ (hraise _) (.ite _ (hraise _) (.ite _ (hraise _)
    (.ite _ (hnative _) (.ite _ (hnative _) (.ite _ (hnative _) (.ite _ (hnative _)
      (.ite _ (m.bignumArith_within _ _ _ (h.setNode _ _)) ?_))))))))
  split
  · exact .ite _ (hs.push _) (m.bignumArith_within _ _ _ hs)
  · exact hs.push _

theorem within_arith (op : ArithOp) (operand : ℤ) (h : Holds m.addrs A s) :
    Within m.addrs A (m.arith op operand s) := by
  dsimp only [arith]
  exact .ite _ (.ite _ (m.raiseErrorMsg_within _ h.pop) (h.pop.push _))
    (m.within_arithBinary _ _ _ _ h.pop.pop)

theorem within_execNeg (h : Holds m.addrs A s) : Within m.addrs A (m.execNeg s) := by
  have hraise (msg : String) : Within m.addrs A (m.raiseErrorMsg msg s.pop.2) :=
    m.raiseErrorMsg_within msg h.pop
  have hnative (id : ℕ) : Within m.addrs A (m.dispatchNative id (s.pop.2.push s.pop.1)) :=
    m.dispatchNative_within id (h.pop.push _)
  have hs := m.holds_recordNeg (s.stack.length - 1) h.pop
  dsimp only [execNeg]
  refine .ite _ (hraise _) (.ite _ (hraise _) (.ite _ (hnative _) (.ite _ (hnative _)
    (.ite _ (hnative _) (.ite _ (m.bignumNeg_within _ (h.pop.setNode _ _)) ?_)))))
  split
  · exact .ite _ (m.bignumNeg_within _ hs) (hs.push _)
  · exact hs.push _
  · exact hs.push _
  · exact hs.push _

theorem within_execConst (constants : List Value) (operand : ℤ) (h : Holds m.addrs A s) :
    Within m.addrs A (execConst constants operand s) := by
  rw [execConst]
  split
  · exact h.of_eq rfl rfl
  · refine Holds.push ?_ _
    split
    · exact h.setNode _ _
    · exact h

theorem within_execClosureAt {constants : List Value} {idx n : ℤ} (h : Holds m.addrs A s)
    (hentry : ∀ v, constantAt constants idx = some v → ∃ t, closureEntry v = some t ∧ t ∈ A) :
    Within m.addrs A (m.execClosureAt constants idx n s) := by
  rw [execClosureAt]
  split
  · exact h.of_eq rfl rfl
  next v hv =>
    obtain ⟨t, ht, hmem⟩ := hentry v hv
    exact m.execClosure_within v n t ht hmem h

end Runtime

end Eshkol.Vm
