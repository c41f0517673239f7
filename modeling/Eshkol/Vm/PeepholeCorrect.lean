import Eshkol.Vm.Peephole

/-!
# What the Peephole Optimizer Preserves

The optimized code runs in lockstep with the original: a removed pair takes two steps in
both, and the states agree again after it if the pair leaves the state as it was. That is
not so for operands of every type. `Idle` says of each removed pair in which states it does
nothing; `Meets` is the condition on the state before a step, and `MeetsRun` says that all
steps of a run meet it, those of nested runs included.

The pairs are only entered at their first instruction. Branch targets, handlers and closure
entries are marked by the optimizer; the addresses that the initial state holds are a
condition (`Holds` outside `seconds`).
-/

namespace Eshkol.Vm

open Machine

variable {ρ : Type}

/-! ### The condition -/

/-- The addresses of the second instructions of removed pairs. -/
def seconds (c : FuncChunk) : Set ℤ :=
  { t | ∃ j : ℕ, t = j ∧ secondAt c.constants (isEntry c) c.code j = true }

/-- The constant of a removed pair. -/
def ArithOp.unit : ArithOp → Int64
  | .add => 0
  | .mul => 1

/-- The operands that `CONST 0; ADD` or `CONST 1; MUL` gives back: integers, and the doubles
that the double operation gives back. -/
def Neutral (m : Runtime ρ) (op : ArithOp) (v : Value) : Prop :=
  (∃ x, v = .int x) ∨ ∃ f, v = .float f ∧ m.onDouble op f (m.ofInt op.unit) = f

/-- The states in which a removed pair `a; b` does nothing. -/
def Idle (m : Runtime ρ) (a b : Instr) (s : VmState ρ) : Prop :=
  match a.op with
  | .not => ∃ x st, s.stack = .bool x :: st ∧ (x = 0 ∨ x = 1) ∧ s.stack.length ≤ stackSize
  | .neg => ∃ v st, s.stack = v :: st ∧ s.stack.length ≤ stackSize ∧
      s.adNodeMap st.length = -1 ∧
      ((∃ x, v = .int x ∧ x ≠ Int64.minValue) ∨ ∃ f, v = .float f)
  | .dup => s.stack.length < stackSize
  | _ => b.operand ≠ 1 ∧ ∃ v st, s.stack = v :: st ∧ s.stack.length < stackSize ∧
      s.adNodeMap st.length = -1 ∧
      (s.activeTape = true → s.adNodeMap s.stack.length = -1) ∧
      Neutral m (if b.op = .add then .add else .mul) v

/-- The condition on the state before a step: a removed pair is idle, a `MUL` after `CONST 0`
is binary, and the constant of a closure is an integer. -/
structure Meets (m : Runtime ρ) (c : FuncChunk) (s : VmState ρ) : Prop where
  idle : ∀ (j : ℕ) (a b : Instr), s.pc = j → removedAt c.constants (isEntry c) c.code j = true →
    c.code[j]? = some a → c.code[j + 1]? = some b → Idle m a b s
  binary : ∀ (j : ℕ) (i : Instr), s.pc = j → clearedAt c.constants (isEntry c) c.code j = true →
    c.code[j]? = some i → i.operand ≠ 1
  closure : ∀ (j : ℕ) (i : Instr), s.pc = j → c.code[j]? = some i →
    i.op = .closure ∨ i.op = .closureLong →
    ∀ v, constantAt c.constants (vmClosureConstIndex i) = some v → ∃ t, closureEntry v = some t

/-- All runs that a body asks for are as `safe` says. -/
def SafeProg (safe : VmState ρ → Prop) (run : VmState ρ → Exec Unit (VmState ρ)) : Prog ρ → Prop
  | .ret _ => True
  | .run s k => safe s ∧ ∀ t, run s = .ok t → SafeProg safe run (k t)

/-- The instruction at the program counter, as `vmRun` carries it out. -/
def dispatch (m : Runtime ρ) (c : FuncChunk) (i : Instr) (s : VmState ρ) : Prog ρ :=
  m.exec c.constants (Runtime.fetch c.code (s.pc + 1)) i { s with pc := s.pc + 1 }

/-- All steps of a run of `n` instructions meet the condition. -/
def MeetsRun (m : Runtime ρ) (c : FuncChunk) : ℕ → VmState ρ → Prop
  | 0, _ => True
  | n + 1, s => Runtime.stopped c.code s = false → Meets m c s ∧
      ∀ i, Runtime.fetch c.code s.pc = some i →
        SafeProg (MeetsRun m c n) (m.vmRun c n) (dispatch m c i s) ∧
        ∀ t, Runtime.interp (m.vmRun c n) (dispatch m c i s) = .ok t → MeetsRun m c n t

/-! ### Removed pairs -/

theorem setNode_of_eq {s : VmState ρ} {slot : ℕ} {node : ℤ} (h : s.adNodeMap slot = node) :
    s.setNode slot node = s := by
  rw [VmState.setNode, ← h, Function.update_eq_self]

theorem push_of_lt {s : VmState ρ} {v : Value} (h : s.stack.length < stackSize) :
    s.push v = { s with stack := v :: s.stack } :=
  if_neg (by omega)

theorem fneg_fneg (f : UInt64) : Runtime.fneg (Runtime.fneg f) = f := by
  rw [Runtime.fneg, Runtime.fneg, UInt64.xor_assoc, UInt64.xor_self, UInt64.xor_zero]

theorem recordBinary_of_untracked {m : Runtime ρ} {op : ArithOp} {aSp : ℕ} {a b : Value}
    {s : VmState ρ} (ha : s.activeTape = true → s.adNodeMap aSp = -1)
    (hb : s.activeTape = true → s.adNodeMap (aSp + 1) = -1)
    (hs : s.adNodeMap s.stack.length = -1) : m.recordBinary op aSp a b s = s := by
  rw [Runtime.recordBinary]
  split
  next htape =>
    simp only [ha htape, hb htape, ne_eq, not_true_eq_false, or_self, if_false]
    exact setNode_of_eq hs
  next => exact setNode_of_eq hs

theorem arithBinary_unit {m : Runtime ρ} {op : ArithOp} {aSp : ℕ} {v : Value} {s : VmState ρ}
    (hv : Neutral m op v) (hrec : m.recordBinary op aSp v (.int op.unit) s = s) :
    m.arithBinary op aSp v (.int op.unit) s = .ret (s.push v) := by
  rcases hv with ⟨x, rfl⟩ | ⟨f, rfl, hf⟩
  · have hr : op.onInt x.toInt op.unit.toInt = x.toInt := by
      cases op <;> simp [ArithOp.onInt, ArithOp.unit]
    have hx := x.le_toInt
    have hx' := x.toInt_lt
    simp only [Runtime.arithBinary, vmIsArithmeticNumber, vmIsF32Value, Value.hasTag, hrec, hr]
    simp only [Bool.or_self, Bool.false_eq_true, and_self, not_true_eq_false, false_and, or_self,
      if_false]
    rw [if_pos ⟨hx, hx'⟩, Int64.ofInt_toInt]
  · simp [Runtime.arithBinary, vmIsArithmeticNumber, vmIsF32Value, Value.hasTag, hrec,
      Runtime.asScalarNumber, hf]

/-- Two bodies that follow one another leave the state as it was, up to the program counter,
and the first does not end the run. -/
def Cancels (first second : VmState ρ → Prog ρ) (s : VmState ρ) : Prop :=
  ∀ pc pc', ∃ s₁, first { s with pc := pc } = .ret s₁ ∧ s₁.pc = pc ∧
    s₁.error = s.error ∧ s₁.halted = s.halted ∧
    second { s₁ with pc := pc' } = .ret { s with pc := pc' }

section Pairs

variable {m : Runtime ρ} {s : VmState ρ} {v : Value} {st : List Value}

theorem cancels_const_arith {constants : List Value} {op : ArithOp} {k operand : ℤ}
    (hk : constantAt constants k = some (.int op.unit)) (hbinary : operand ≠ 1)
    (hst : s.stack = v :: st) (hlt : s.stack.length < stackSize)
    (hnode : s.adNodeMap st.length = -1)
    (htape : s.activeTape = true → s.adNodeMap s.stack.length = -1) (hv : Neutral m op v) :
    Cancels (Runtime.execConst constants k) (m.arith op operand) s := by
  obtain ⟨pc₀, stack, error, halted, tape, map, rest⟩ := s
  intro pc pc'
  simp only at hst hlt hnode htape
  subst hst
  have hkeep : (if tape = true ∧ (v :: st).length < stackSize then
      (⟨pc, v :: st, error, halted, tape, map, rest⟩ : VmState ρ).setNode (v :: st).length (-1)
      else ⟨pc, v :: st, error, halted, tape, map, rest⟩) =
      ⟨pc, v :: st, error, halted, tape, map, rest⟩ := by
    split
    next ht => exact setNode_of_eq (htape ht.1)
    next => rfl
  refine ⟨⟨pc, .int op.unit :: v :: st, error, halted, tape, map, rest⟩, ?_, rfl, rfl, rfl, ?_⟩
  · rw [Runtime.execConst, hk]
    simp only [hkeep]
    exact congrArg Prog.ret (push_of_lt hlt)
  · rw [Runtime.arith, if_neg hbinary]
    simp only [VmState.pop]
    rw [arithBinary_unit hv (recordBinary_of_untracked (fun _ => hnode) htape hnode)]
    have hlt' : st.length < stackSize := by
      simp only [List.length_cons] at hlt
      omega
    exact congrArg Prog.ret (push_of_lt hlt')

theorem cancels_not_not {x : Int32} (hst : s.stack = .bool x :: st) (hx : x = 0 ∨ x = 1)
    (hle : s.stack.length ≤ stackSize) :
    Cancels Runtime.execNot Runtime.execNot s := by
  obtain ⟨pc₀, stack, error, halted, tape, map, rest⟩ := s
  intro pc pc'
  simp only at hst hle
  subst hst
  have hlt : st.length < stackSize := by
    simp only [List.length_cons] at hle
    omega
  refine ⟨⟨pc, .bool (if isTruthy (.bool x) then 0 else 1) :: st, error, halted, tape, map,
    rest⟩, ?_, rfl, rfl, rfl, ?_⟩
  · exact congrArg Prog.ret (push_of_lt hlt)
  · rw [Runtime.execNot]
    simp only [VmState.pop]
    rw [push_of_lt hlt]
    rcases hx with rfl | rfl <;> rfl

theorem execNeg_untracked {w : Value} (hst : s.stack = v :: st)
    (hle : s.stack.length ≤ stackSize) (hnode : s.adNodeMap st.length = -1)
    (hw : (∃ x, v = .int x ∧ x ≠ Int64.minValue ∧ w = .int (-x)) ∨
      ∃ f, v = .float f ∧ w = .float (Runtime.fneg f)) :
    m.execNeg s = .ret { s with stack := w :: st } := by
  obtain ⟨pc, stack, error, halted, tape, map, rest⟩ := s
  simp only at hst hle hnode
  subst hst
  have hlt : st.length < stackSize := by
    simp only [List.length_cons] at hle
    omega
  have hrec : m.recordNeg st.length (⟨pc, st, error, halted, tape, map, rest⟩ : VmState ρ) =
      ⟨pc, st, error, halted, tape, map, rest⟩ := by
    rw [Runtime.recordNeg, if_neg (by simp [hnode])]
    exact setNode_of_eq hnode
  rcases hw with ⟨x, rfl, hx, rfl⟩ | ⟨f, rfl, rfl⟩
  · simp only [Runtime.execNeg, VmState.pop, vmIsF32Value, Value.hasTag, List.length_cons,
      Nat.add_sub_cancel, hrec, Bool.false_eq_true, false_and, if_false, hx]
    exact congrArg Prog.ret (push_of_lt hlt)
  · simp only [Runtime.execNeg, VmState.pop, vmIsF32Value, Value.hasTag, List.length_cons,
      Nat.add_sub_cancel, hrec, Bool.false_eq_true, false_and, if_false]
    exact congrArg Prog.ret (push_of_lt hlt)

theorem cancels_neg_neg (hst : s.stack = v :: st) (hle : s.stack.length ≤ stackSize)
    (hnode : s.adNodeMap st.length = -1)
    (hv : (∃ x, v = .int x ∧ x ≠ Int64.minValue) ∨ ∃ f, v = .float f) :
    Cancels m.execNeg m.execNeg s := by
  obtain ⟨pc₀, stack, error, halted, tape, map, rest⟩ := s
  intro pc pc'
  simp only at hst hle hnode
  subst hst
  -- the operand in between satisfies what the second `NEG` asks for
  obtain ⟨w, hw, hw'⟩ : ∃ w : Value,
      ((∃ x, v = .int x ∧ x ≠ Int64.minValue ∧ w = .int (-x)) ∨
        ∃ f, v = .float f ∧ w = .float (Runtime.fneg f)) ∧
      ((∃ x, w = .int x ∧ x ≠ Int64.minValue ∧ v = .int (-x)) ∨
        ∃ f, w = .float f ∧ v = .float (Runtime.fneg f)) := by
    rcases hv with ⟨x, rfl, hx⟩ | ⟨f, rfl⟩
    · have hneg : -x ≠ Int64.minValue := by
        intro h
        apply hx
        rw [← @Int64.neg_neg x, h]
        rfl
      exact ⟨.int (-x), .inl ⟨x, rfl, hx, rfl⟩, .inl ⟨-x, rfl, hneg, by rw [Int64.neg_neg]⟩⟩
    · exact ⟨.float (Runtime.fneg f), .inr ⟨f, rfl, rfl⟩, .inr ⟨_, rfl, by rw [fneg_fneg]⟩⟩
  exact ⟨⟨pc, w :: st, error, halted, tape, map, rest⟩, execNeg_untracked rfl hle hnode hw,
    rfl, rfl, rfl, execNeg_untracked rfl hle hnode hw'⟩

theorem cancels_dup_pop (hlt : s.stack.length < stackSize) :
    Cancels (fun s => .ret (s.push s.peek)) (fun s => .ret s.pop.2) s := by
  intro pc pc'
  exact ⟨_, congrArg Prog.ret (push_of_lt hlt), rfl, rfl, rfl, rfl⟩

theorem Idle.cancels {constants : List Value} {a b : Instr}
    (hremovable : removable constants a b = true) (h : Idle m a b s) (next next' : Option Instr) :
    Cancels (m.exec constants next a) (m.exec constants next' b) s := by
  obtain ⟨aop, ax⟩ := a
  obtain ⟨bop, bx⟩ := b
  simp only [removable, Bool.or_eq_true, Bool.and_eq_true, beq_iff_eq, pushesInt_iff] at hremovable
  rcases hremovable with
    (((⟨⟨rfl, hk⟩, rfl⟩ | ⟨⟨rfl, hk⟩, rfl⟩) | ⟨rfl, rfl⟩) | ⟨rfl, rfl⟩) | ⟨rfl, rfl⟩
  · obtain ⟨hbx, v, st, hst, hlt, hnode, htape, hv⟩ := h
    exact cancels_const_arith hk hbx hst hlt hnode htape hv
  · obtain ⟨hbx, v, st, hst, hlt, hnode, htape, hv⟩ := h
    exact cancels_const_arith hk hbx hst hlt hnode htape hv
  · obtain ⟨x, st, hst, hx, hle⟩ := h
    exact cancels_not_not hst hx hle
  · obtain ⟨v, st, hst, hle, hnode, hv⟩ := h
    exact cancels_neg_neg hst hle hnode hv
  · exact cancels_dup_pop h

end Pairs

/-! ### Instructions that stay -/

theorem fetch_eq_some {code : List Instr} {pc : ℤ} {i : Instr} :
    Runtime.fetch code pc = some i ↔ ∃ j : ℕ, pc = j ∧ code[j]? = some i := by
  rw [Runtime.fetch]
  split
  next h =>
    refine ⟨by simp, ?_⟩
    rintro ⟨j, rfl, -⟩
    omega
  next h =>
    constructor
    · intro hi
      exact ⟨pc.toNat, by omega, hi⟩
    · rintro ⟨j, rfl, hi⟩
      simpa using hi

theorem fetch_natCast (code : List Instr) (j : ℕ) : Runtime.fetch code (j : ℤ) = code[j]? := by
  rw [Runtime.fetch, if_neg (by omega), Int.toNat_natCast]

theorem length_peepholeOptimize (c : FuncChunk) :
    (peepholeOptimize c).code.length = c.code.length := by
  have h (k : ℕ) : (peepholeOptimize c).code.length ≤ k ↔ c.code.length ≤ k := by
    rw [← List.getElem?_eq_none_iff, ← List.getElem?_eq_none_iff, peepholeOptimize_code,
      Option.map_eq_none_iff]
  exact Nat.le_antisymm ((h _).mpr (le_refl _)) ((h _).mp (le_refl _))

section Stay

variable {c : FuncChunk} {j : ℕ} {i : Instr}

theorem removedAt_op (h : removedAt c.constants (isEntry c) c.code j = true)
    (hi : c.code[j]? = some i) :
    i.op = .const ∨ i.op = .not ∨ i.op = .neg ∨ i.op = .dup := by
  obtain ⟨-, a, b, ha, -, htest⟩ := pairAt_eq_true.mp (removedAt_iff.mp h).1
  rw [hi] at ha
  cases ha
  exact removable_first htest

theorem closureCount_optimized (c : FuncChunk) (j : ℕ) :
    Runtime.closureCount (peepholeOptimize c).code[j]? = Runtime.closureCount c.code[j]? := by
  rw [peepholeOptimize_code]
  cases hi : c.code[j]? with
  | none => rfl
  | some i =>
    rw [Option.map_some, optimizedInstr]
    split
    next hgone =>
      have hop : i.op ≠ .closureCount := by
        rw [Bool.or_eq_true] at hgone
        rcases hgone with h | h
        · rcases removedAt_op h hi with h | h | h | h <;> simp [h]
        · rcases secondAt_op h hi with h | h | h | h | h <;> simp [h]
      obtain ⟨op, n⟩ := i
      rw [Runtime.closureCount.eq_def, Runtime.closureCount.eq_def]
      cases op <;> first | rfl | exact absurd rfl hop
    · split
      next hcleared =>
        have hop := clearedAt_op hcleared hi
        obtain ⟨op, n⟩ := i
        simp only at hop
        subst hop
        rfl
      next => rfl

theorem exec_next {m : Runtime ρ} {constants : List Value} {next next' : Option Instr}
    (h : Runtime.closureCount next' = Runtime.closureCount next) (i : Instr) (s : VmState ρ) :
    m.exec constants next' i s = m.exec constants next i s := by
  obtain ⟨op, n⟩ := i
  cases op
  case closureLong => simp only [Runtime.exec, h]
  all_goals rfl

theorem exec_optimized {m : Runtime ρ} {s : VmState ρ} (hmeets : Meets m c s) (hpc : s.pc = j)
    (hi : c.code[j]? = some i) (hremoved : removedAt c.constants (isEntry c) c.code j = false)
    (hsecond : secondAt c.constants (isEntry c) c.code j = false) :
    dispatch m (peepholeOptimize c) (optimizedInstr c.constants (isEntry c) c.code j i) s =
      dispatch m c i s := by
  have hcount : Runtime.closureCount (Runtime.fetch (peepholeOptimize c).code (s.pc + 1)) =
      Runtime.closureCount (Runtime.fetch c.code (s.pc + 1)) := by
    rw [hpc, ← Nat.cast_succ, fetch_natCast, fetch_natCast, closureCount_optimized]
  rw [dispatch, dispatch, optimizedInstr, hremoved, hsecond]
  simp only [Bool.or_self, Bool.false_eq_true, if_false]
  split
  next hcleared =>
    -- the cleared operand is not 1 either, so both are binary
    have hbinary := hmeets.binary j i hpc hcleared hi
    have hop := clearedAt_op hcleared hi
    obtain ⟨op, n⟩ := i
    simp only at hop hbinary
    subst hop
    simp only [Runtime.exec, Runtime.arith, hbinary, if_false]
    rfl
  next => exact exec_next hcount i _

end Stay

/-! ### Addresses -/

section Confinement

variable {m : Runtime ρ} {c : FuncChunk} {j : ℕ} {i : Instr} {s : VmState ρ}

theorem natCast_mem_seconds :
    (j : ℤ) ∈ seconds c ↔ secondAt c.constants (isEntry c) c.code j = true := by
  simp [seconds]

theorem branchTarget_notMem_seconds (hi : i ∈ c.code) {t : ℤ}
    (ht : branchTarget c.constants i = some t) : t ∉ seconds c := by
  rintro ⟨k, rfl, hk⟩
  cases k with
  | zero => simp [secondAt] at hk
  | succ k =>
    have hentry := (pairAt_eq_true.mp (removedAt_iff.mp hk).1).1
    have hmark : isEntry c (k + 1) = true := by
      rw [isEntry, Bool.or_eq_true, List.any_eq_true]
      exact .inl ⟨i, hi, by simp [ht]⟩
    simp [hmark] at hentry

/-- An instruction stays within a set of addresses that has its targets. -/
theorem Runtime.within_exec {constants : List Value} {A : Set ℤ} {next : Option Instr}
    (h : Holds m.addrs A s) (htarget : ∀ t, branchTarget constants i = some t → t ∈ A)
    (hclosure : i.op = .closure ∨ i.op = .closureLong → ∀ v,
      constantAt constants (vmClosureConstIndex i) = some v → ∃ t, closureEntry v = some t)
    (hnext : i.op = .closureLong → ∀ n, closureCount next = some n → s.pc + 1 ∈ A) :
    Within m.addrs A (m.exec constants next i s) := by
  have hentry (hop : i.op = .closure ∨ i.op = .closureLong) (v : Value)
      (hv : constantAt constants (vmClosureConstIndex i) = some v) :
      ∃ t, closureEntry v = some t ∧ t ∈ A := by
    obtain ⟨t, ht⟩ := hclosure hop v hv
    refine ⟨t, ht, htarget t ?_⟩
    rcases hop with hop | hop <;> simp [branchTarget, hop, hv, ht]
  obtain ⟨op, x⟩ := i
  cases op with
  | nop => exact h
  | const => exact m.within_execConst _ _ h
  | nil => exact h.push _
  | true => exact h.push _
  | false => exact h.push _
  | pop => exact h.pop
  | dup => exact h.push _
  | add => exact m.within_arith _ _ h
  | mul => exact m.within_arith _ _ h
  | neg => exact m.within_execNeg h
  | not => exact h.pop.push _
  | closure => exact m.within_execClosureAt h (hentry (.inl rfl))
  | closureLong =>
    rw [exec]
    cases hn : closureCount next with
    | none => exact h.of_eq rfl rfl
    | some n => exact m.within_execClosureAt ⟨hnext rfl n hn, h.2⟩ (hentry (.inr rfl))
  | closureCount => exact h.of_eq rfl rfl
  | jump => exact ⟨htarget x rfl, h.2⟩
  | jumpIfFalse =>
    simp only [exec]
    split
    · exact h.pop
    · exact ⟨htarget x rfl, h.pop.2⟩
  | loop => exact ⟨htarget x rfl, h.2⟩
  | pushHandler => exact m.execPushHandler_within x (htarget x rfl) h
  | halt => exact h.of_eq rfl rfl
  | other op => exact m.execOther_within op x h

theorem within_dispatch (h : Holds m.addrs (seconds c)ᶜ s) (hmeets : Meets m c s)
    (hpc : s.pc = j) (hi : c.code[j]? = some i)
    (hremoved : removedAt c.constants (isEntry c) c.code j = false) :
    Within m.addrs (seconds c)ᶜ (dispatch m c i s) := by
  refine Runtime.within_exec ⟨?_, h.2⟩ ?_ (hmeets.closure j i hpc hi) ?_
  · simp only [hpc]
    rw [← Nat.cast_succ, Set.mem_compl_iff, natCast_mem_seconds, secondAt, hremoved]
    simp
  · exact fun t ht => branchTarget_notMem_seconds (List.mem_of_getElem? hi) ht
  · -- the count is passed over, and begins no pair
    intro _ n hn
    simp only [hpc] at hn ⊢
    rw [← Nat.cast_succ, fetch_natCast] at hn
    rw [← Nat.cast_succ, ← Nat.cast_succ, Set.mem_compl_iff, natCast_mem_seconds, secondAt]
    intro hr
    obtain ⟨-, a, -, ha, -⟩ := pairAt_eq_true.mp (removedAt_iff.mp hr).1
    have hop := removedAt_op hr ha
    rw [Nat.succ_eq_add_one, ha] at hn
    obtain ⟨op, x⟩ := a
    cases op <;> simp [Runtime.closureCount] at hn hop

end Confinement

/-! ### Runs -/

/-- Two outcomes are the same, and hold addresses of `A` only. -/
def Agree (addrs : ρ → Set ℤ) (A : Set ℤ) (x' x : Exec Unit (VmState ρ)) : Prop :=
  x' = x ∧ ∀ t, x = .ok t → Holds addrs A t

theorem agree_interp {addrs : ρ → Set ℤ} {A : Set ℤ} {safe : VmState ρ → Prop}
    {run run' : VmState ρ → Exec Unit (VmState ρ)}
    (hrun : ∀ s, Holds addrs A s → safe s → Agree addrs A (run' s) (run s)) {p : Prog ρ}
    (hp : Within addrs A p) (hsafe : SafeProg safe run p) :
    Agree addrs A (Runtime.interp run' p) (Runtime.interp run p) := by
  induction p with
  | ret s =>
    refine ⟨rfl, ?_⟩
    rintro t ht
    cases ht
    exact hp
  | run s k ih =>
    obtain ⟨hs, hk⟩ := hp
    obtain ⟨hsafe, hsafek⟩ := hsafe
    obtain ⟨heq, hheld⟩ := hrun s hs hsafe
    simp only [Runtime.interp, heq]
    cases ht : run s with
    | error e => exact ⟨rfl, fun t h => by cases h⟩
    | ok t => exact ih t (hk t (hheld t ht)) (hsafek t ht)

section Runs

variable {m : Runtime ρ} {c : FuncChunk} {s : VmState ρ} {n : ℕ}

theorem vmRun_succ {i : Instr} (hstop : Runtime.stopped c.code s = false)
    (hi : Runtime.fetch c.code s.pc = some i) :
    m.vmRun c (n + 1) s = (Runtime.interp (m.vmRun c n) (dispatch m c i s)).bind (m.vmRun c n) := by
  rw [Runtime.vmRun, hstop, hi]
  rfl

theorem vmRun_of_ret {i : Instr} {t : VmState ρ} (hstop : Runtime.stopped c.code s = false)
    (hi : Runtime.fetch c.code s.pc = some i) (ht : dispatch m c i s = .ret t) :
    m.vmRun c (n + 1) s = m.vmRun c n t := by
  rw [vmRun_succ hstop hi, ht]
  rfl

theorem MeetsRun.of_ret {i : Instr} {t : VmState ρ} (h : MeetsRun m c (n + 1) s)
    (hstop : Runtime.stopped c.code s = false) (hi : Runtime.fetch c.code s.pc = some i)
    (ht : dispatch m c i s = .ret t) : MeetsRun m c n t :=
  ((h hstop).2 i hi).2 t (by rw [ht]; rfl)

theorem stopped_optimized (s : VmState ρ) :
    Runtime.stopped (peepholeOptimize c).code s = Runtime.stopped c.code s := by
  rw [Runtime.stopped, Runtime.stopped, length_peepholeOptimize]

theorem fetch_optimized (j : ℕ) {i : Instr} (hi : c.code[j]? = some i) :
    Runtime.fetch (peepholeOptimize c).code (j : ℤ) =
      some (optimizedInstr c.constants (isEntry c) c.code j i) := by
  rw [fetch_natCast, peepholeOptimize_code, hi, Option.map_some]

theorem fetch_optimized_none {pc : ℤ} (h : Runtime.fetch c.code pc = none) :
    Runtime.fetch (peepholeOptimize c).code pc = none := by
  rw [Runtime.fetch] at h ⊢
  by_cases hpc : pc < 0
  · rw [if_pos hpc]
  · rw [if_neg hpc] at h ⊢
    rw [peepholeOptimize_code, h, Option.map_none]

/-- Both programs step over a removed pair of instructions. -/
theorem vmRun_removed {j : ℕ} {a : Instr} (hmeets : MeetsRun m c (n + 1) s)
    (hstop : Runtime.stopped c.code s = false) (hpc : s.pc = j) (ha : c.code[j]? = some a)
    (hremoved : removedAt c.constants (isEntry c) c.code j = true) :
    (n = 0 ∧ m.vmRun c (n + 1) s = .error .diverges ∧
      m.vmRun (peepholeOptimize c) (n + 1) s = .error .diverges) ∨
    ∃ k, n = k + 1 ∧ MeetsRun m c k { s with pc := (j + 2 : ℕ) } ∧
      m.vmRun c (n + 1) s = m.vmRun c k { s with pc := (j + 2 : ℕ) } ∧
      m.vmRun (peepholeOptimize c) (n + 1) s =
        m.vmRun (peepholeOptimize c) k { s with pc := (j + 2 : ℕ) } := by
  obtain ⟨-, a', b, ha', hb, htest⟩ := pairAt_eq_true.mp (removedAt_iff.mp hremoved).1
  rw [ha] at ha'
  cases ha'
  have hidle := (hmeets hstop).1.idle j a b hpc hremoved ha hb
  obtain ⟨s₁, hfirst, hpc₁, herror, hhalted, hsecond⟩ := hidle.cancels htest
    (Runtime.fetch c.code (s.pc + 1)) (Runtime.fetch c.code ((j + 1 : ℕ) + 1)) (s.pc + 1)
    ((j + 1 : ℕ) + 1)
  have hpc₁' : s₁.pc = (j + 1 : ℕ) := by rw [hpc₁, hpc, Nat.cast_succ]
  have hi : Runtime.fetch c.code s.pc = some a := by rw [hpc, fetch_natCast, ha]
  have hi' : Runtime.fetch (peepholeOptimize c).code s.pc = some nopInstr := by
    rw [hpc, fetch_optimized j ha, optimizedInstr, hremoved]
    rfl
  have hnop (t : VmState ρ) : dispatch m (peepholeOptimize c) nopInstr t =
      .ret { t with pc := t.pc + 1 } := rfl
  have hstop' : Runtime.stopped (peepholeOptimize c).code s = false := by
    rw [stopped_optimized, hstop]
  rw [vmRun_of_ret hstop hi hfirst, vmRun_of_ret hstop' hi' (hnop s)]
  cases n with
  | zero => exact .inl ⟨rfl, rfl, rfl⟩
  | succ k =>
    -- the run does not stop in the middle of the pair
    have hlive {t : VmState ρ} (hp : t.pc = (j + 1 : ℕ)) (he : t.error = s.error)
        (hh : t.halted = s.halted) : Runtime.stopped c.code t = false := by
      have hlt := (List.getElem?_eq_some_iff.mp hb).1
      simp only [Runtime.stopped, Bool.or_eq_false_iff, decide_eq_false_iff_not] at hstop ⊢
      rw [hh, he, hp]
      exact ⟨hstop.1, by omega⟩
    have hi₁ : Runtime.fetch c.code s₁.pc = some b := by rw [hpc₁', fetch_natCast, hb]
    have hret : dispatch m c b s₁ = .ret { s with pc := (j + 2 : ℕ) } := by
      rw [dispatch, hpc₁', hsecond]
      rfl
    have hstop₁ := hlive hpc₁' herror hhalted
    have hpc₂ : ({ s with pc := s.pc + 1 } : VmState ρ).pc = (j + 1 : ℕ) := by simp [hpc]
    have hstop₂ : Runtime.stopped (peepholeOptimize c).code { s with pc := s.pc + 1 } = false := by
      rw [stopped_optimized]
      exact hlive hpc₂ rfl rfl
    have hi₂ : Runtime.fetch (peepholeOptimize c).code
        ({ s with pc := s.pc + 1 } : VmState ρ).pc = some nopInstr := by
      rw [hpc₂, fetch_optimized _ hb, optimizedInstr, secondAt, hremoved, Bool.or_true]
      rfl
    refine .inr ⟨k, rfl, ?_, ?_, ?_⟩
    · exact (hmeets.of_ret hstop hi hfirst).of_ret hstop₁ hi₁ hret
    · exact vmRun_of_ret hstop₁ hi₁ hret
    · rw [vmRun_of_ret hstop₂ hi₂ (hnop _)]
      simp only [hpc]
      rfl

/-- The programs run in lockstep from every state. -/
theorem vmRun_lockstep (m : Runtime ρ) (c : FuncChunk) (n : ℕ) :
    ∀ s, Holds m.addrs (seconds c)ᶜ s → MeetsRun m c n s →
      Agree m.addrs (seconds c)ᶜ (m.vmRun (peepholeOptimize c) n s) (m.vmRun c n s) := by
  -- a removed pair takes two steps, hence strong induction on the fuel
  induction n using Nat.strong_induction_on with
  | _ n ih =>
    intro s hheld hmeets
    cases n with
    | zero => exact ⟨rfl, fun t h => by cases h⟩
    | succ n =>
      cases hstop : Runtime.stopped c.code s with
      | true =>
        have hsame : m.vmRun (peepholeOptimize c) (n + 1) s = m.vmRun c (n + 1) s := by
          rw [Runtime.vmRun, Runtime.vmRun, stopped_optimized, hstop]
          rfl
        refine ⟨hsame, ?_⟩
        intro t ht
        rw [Runtime.vmRun, hstop] at ht
        cases ht
        exact hheld
      | false =>
        have hstop' : Runtime.stopped (peepholeOptimize c).code s = false := by
          rw [stopped_optimized, hstop]
        cases hi : Runtime.fetch c.code s.pc with
        | none =>
          rw [Runtime.vmRun, Runtime.vmRun, hstop, hstop', hi, fetch_optimized_none hi]
          exact ⟨rfl, fun t h => by cases h⟩
        | some i =>
          obtain ⟨j, hpc, hj⟩ := fetch_eq_some.mp hi
          have hsecond : secondAt c.constants (isEntry c) c.code j = false := by
            rw [← Bool.not_eq_true, ← natCast_mem_seconds, ← hpc]
            exact hheld.1
          cases hremoved : removedAt c.constants (isEntry c) c.code j with
          | true =>
            rcases vmRun_removed hmeets hstop hpc hj hremoved with
              ⟨-, h, h'⟩ | ⟨k, rfl, hmeets', h, h'⟩
            · rw [h, h']
              exact ⟨rfl, fun t ht => by cases ht⟩
            · rw [h, h']
              refine ih k (by omega) _ ⟨?_, hheld.2⟩ hmeets'
              rw [Set.mem_compl_iff, natCast_mem_seconds, secondAt, removedAt]
              simp [hremoved]
          | false =>
            obtain ⟨hhere, hafter⟩ := hmeets hstop
            obtain ⟨hsafe, hnext⟩ := hafter i hi
            have hi' := fetch_optimized j hj
            rw [← hpc] at hi'
            obtain ⟨heq, hout⟩ := agree_interp (ih n (by omega))
              (within_dispatch hheld hhere hpc hj hremoved) hsafe
            rw [vmRun_succ hstop hi, vmRun_succ hstop' hi',
              exec_optimized hhere hpc hj hremoved hsecond, heq]
            cases ht : Runtime.interp (m.vmRun c n) (dispatch m c i s) with
            | error e => exact ⟨rfl, fun t h => by cases h⟩
            | ok t => exact ih n (by omega) t (hout t ht) (hnext t ht)

/-- **What the optimizer preserves.** The optimized code has the outcome of the original, at
every fuel, when all steps of the original run meet the condition. -/
theorem peepholeOptimize_preserves (m : Runtime ρ) (c : FuncChunk) (s : VmState ρ)
    (hheld : Holds m.addrs (seconds c)ᶜ s) (hmeets : ∀ n, MeetsRun m c n s) (n : ℕ) :
    m.vmRun (peepholeOptimize c) n s = m.vmRun c n s :=
  (vmRun_lockstep m c n s hheld (hmeets n)).1

theorem MeetsRun.step {i : Instr} {t : VmState ρ} (hmeets : Meets m c s)
    (hi : Runtime.fetch c.code s.pc = some i) (hret : dispatch m c i s = .ret t)
    (h : ∀ n, MeetsRun m c n t) : ∀ n, MeetsRun m c n s
  | 0 => trivial
  | n + 1 => by
      intro _
      refine ⟨hmeets, ?_⟩
      intro i' hi'
      rw [hi] at hi'
      cases hi'
      rw [hret]
      refine ⟨trivial, ?_⟩
      rintro t' ht'
      cases ht'
      exact h n

theorem MeetsRun.of_stopped (hstop : Runtime.stopped c.code s = true) : ∀ n, MeetsRun m c n s
  | 0 => trivial
  | _ + 1 => fun h => by simp [hstop] at h

end Runs

/-- A runtime without native functions, bignums, handlers and closures: to call one is an
error. -/
def bareRuntime : Runtime Unit where
  ofInt _ := 0
  ofFloat32 _ := 0
  heapNumber _ _ _ := 0
  onDouble _ x _ := x
  numberVal := .float
  adBinary _ _ _ _ _ r := (-1, r)
  adNeg _ r := (-1, r)
  dispatchNative _ s := .ret { s with error := true }
  bignumArith _ _ _ s := .ret { s with error := true }
  bignumNeg _ s := .ret { s with error := true }
  raiseErrorMsg _ s := .ret { s with error := true }
  execClosure _ _ s := .ret { s with error := true }
  execPushHandler _ s := .ret { s with error := true }
  execOther _ _ s := .ret { s with error := true }
  addrs _ := ∅
  adBinary_addrs _ _ _ _ _ _ := subset_rfl
  adNeg_addrs _ _ := subset_rfl
  dispatchNative_within _ h := h.of_eq rfl rfl
  bignumArith_within _ _ _ h := h.of_eq rfl rfl
  bignumNeg_within _ h := h.of_eq rfl rfl
  raiseErrorMsg_within _ h := h.of_eq rfl rfl
  execClosure_within _ _ _ _ _ h := h.of_eq rfl rfl
  execPushHandler_within _ _ h := h.of_eq rfl rfl
  execOther_within _ _ h := h.of_eq rfl rfl

def vmInit (rest : ρ) : VmState ρ := ⟨0, [], false, false, false, fun _ => -1, rest⟩

/-- `(+ 5 0)`. -/
def addZeroChunk : FuncChunk where
  code := [⟨.const, 0⟩, ⟨.const, 1⟩, ⟨.add, 0⟩, ⟨.halt, 0⟩]
  constants := [.int 5, .int 0]
  entries := []

/-- `(not (not 5))`. -/
def notNotChunk : FuncChunk where
  code := [⟨.const, 0⟩, ⟨.not, 0⟩, ⟨.not, 0⟩, ⟨.halt, 0⟩]
  constants := [.int 5]
  entries := []

theorem meets_addZero {s : VmState Unit} (h : s.pc = 1 → s.stack = [.int 5] ∧
    s.adNodeMap 0 = -1 ∧ s.activeTape = false) : Meets bareRuntime addZeroChunk s where
  idle := by
    intro j a b hpc hremoved ha hb
    have hlt := removedAt_lt hremoved
    have hj : j = 1 := by
      have : ∀ j < 4, removedAt addZeroChunk.constants (isEntry addZeroChunk)
          addZeroChunk.code j = true → j = 1 := by decide
      exact this j (by simp only [addZeroChunk, List.length_cons, List.length_nil] at hlt; omega)
        hremoved
    subst hj
    cases ha
    cases hb
    obtain ⟨hst, hnode, htape⟩ := h hpc
    refine ⟨by decide, .int 5, [], hst, ?_, hnode, ?_, .inl ⟨5, rfl⟩⟩
    · rw [hst]
      decide
    · simp [htape]
  binary := by
    intro j i _ hcleared hi
    have hop := clearedAt_op hcleared hi
    have : ∀ i ∈ addZeroChunk.code, i.op ≠ .mul := by decide
    exact absurd hop (this i (List.mem_of_getElem? hi))
  closure := by
    intro j i _ hi hop
    have : ∀ i ∈ addZeroChunk.code, ¬ (i.op = .closure ∨ i.op = .closureLong) := by decide
    exact absurd hop (this i (List.mem_of_getElem? hi))

/-- `(+ 5 0)` meets the condition, and is 5 after the optimizer. -/
theorem peepholeOptimize_preserves_addZero :
    (∃ t, bareRuntime.vmRun addZeroChunk 5 (vmInit ()) = .ok t ∧ t.stack = [.int 5]) ∧
    ∀ n, bareRuntime.vmRun (peepholeOptimize addZeroChunk) n (vmInit ()) =
      bareRuntime.vmRun addZeroChunk n (vmInit ()) := by
  refine ⟨⟨_, rfl, rfl⟩, ?_⟩
  refine peepholeOptimize_preserves bareRuntime addZeroChunk (vmInit ()) ⟨?_, ?_⟩ ?_
  · exact natCast_mem_seconds.not.mpr (by decide)
  · exact Set.empty_subset _
  · refine MeetsRun.step (meets_addZero ?_) rfl rfl (MeetsRun.step (meets_addZero ?_) rfl rfl
      (MeetsRun.step (meets_addZero ?_) rfl rfl (MeetsRun.step (meets_addZero ?_) rfl rfl
        (MeetsRun.of_stopped rfl))))
    · exact fun h => absurd h (by decide)
    · exact fun _ => ⟨rfl, rfl, rfl⟩
    · exact fun h => absurd h (by decide)
    · exact fun h => absurd h (by decide)

/-- `(not (not 5))` is true, and 5 after the optimizer. -/
theorem peepholeOptimize_not_not_five :
    ∃ t t', bareRuntime.vmRun notNotChunk 5 (vmInit ()) = .ok t ∧ t.stack = [.bool 1] ∧
      bareRuntime.vmRun (peepholeOptimize notNotChunk) 5 (vmInit ()) = .ok t' ∧
      t'.stack = [.int 5] :=
  ⟨_, _, rfl, rfl, rfl, rfl⟩

end Eshkol.Vm
