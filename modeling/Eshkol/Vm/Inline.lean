import Eshkol.Vm.Peephole

/-!
# Inlining Function Chunks

The body of a `lambda`, a `delay` or a handler is compiled to a chunk of its own, which is
then copied into the enclosing chunk (`lib/backend/vm_compiler.c`): its constants are appended
to the enclosing pool, and the instructions that refer to a constant or an address are
changed. A closure instruction holds its constant and its number of upvalues either in the
fields of one operand, or in the operands of two instructions (`chunk_emit_closure`); the
form is chosen for the index in the inner chunk and kept by `vm_remap_closure_constant`.

Chunks are taken after `compile_expr`, and allocation succeeds. An index outside the constant
map is undefined in the source; here it reads as zero. The constant of a closure is an
integer.
-/

namespace Eshkol.Vm

/-! ### Emitting code -/

def chunkEmit (c : FuncChunk) (op : OpCode) (operand : ℤ) : FuncChunk :=
  { c with code := c.code ++ [⟨op, operand⟩] }

/-- What `chunk_emit_closure` appends: one instruction for counts through 255 and indices
through 65535, else two. -/
def closureInstrs (constIdx nUpvalues : ℕ) : List Instr :=
  if nUpvalues ≤ 255 ∧ constIdx ≤ 0xFFFF then
    [⟨.closure, (constIdx ||| nUpvalues <<< 16 : ℕ)⟩]
  else [⟨.closureLong, constIdx⟩, ⟨.closureCount, nUpvalues⟩]

def chunkEmitClosure (c : FuncChunk) (constIdx nUpvalues : ℕ) : FuncChunk :=
  { c with code := c.code ++ closureInstrs constIdx nUpvalues }

/-- `chunk_add_const`: the chunk and the index of the constant. -/
def chunkAddConst (c : FuncChunk) (v : Value) : FuncChunk × ℕ :=
  ({ c with constants := c.constants ++ [v] }, c.constants.length)

/-- `placeholder`: the chunk and the slot. -/
def placeholder (c : FuncChunk) : FuncChunk × ℕ := (chunkEmit c .nop 0, c.code.length)

def patch (c : FuncChunk) (slot : ℕ) (op : OpCode) (target : ℤ) : FuncChunk :=
  { c with code := c.code.set slot ⟨op, target⟩ }

/-! ### Inlining -/

/-- `const_map[i]`. -/
def constMapAt (constMap : List ℕ) (i : ℤ) : ℕ := constMap.getD i.toNat 0

def vmRemapClosureConstant (constMap : List ℕ) (instr : Instr) : Instr :=
  match instr.op with
  | .closureLong => { instr with operand := constMapAt constMap instr.operand }
  | .closure =>
    let nUpvalues := (instr.operand / 2 ^ 16 % 2 ^ 8).toNat
    { instr with
      operand := (constMapAt constMap (instr.operand % 2 ^ 16) ||| nUpvalues <<< 16 : ℕ) }
  | _ => instr

/-- The loop over `func.constants` that fills the constant map. -/
def addConstants (c : FuncChunk) : List Value → FuncChunk × List ℕ
  | [] => (c, [])
  | v :: vs =>
    let (c, i) := chunkAddConst c v
    let (c, constMap) := addConstants c vs
    (c, i :: constMap)

/-- `value.as.i += offset`. -/
def addOffset (offset : ℕ) : Value → Value
  | .int i => .int (i + Int64.ofNat offset)
  | v => v

/-- The loop that moves the entries of the nested closures by `func_start`. -/
def rebaseClosures (constMap : List ℕ) (funcStart : ℕ) (code : List Instr)
    (constants : List Value) : List Value :=
  code.foldl
    (fun constants i =>
      if i.op = .closure ∨ i.op = .closureLong then
        constants.modify (constMapAt constMap (vmClosureConstIndex i)) (addOffset funcStart)
      else constants)
    constants

/-- An instruction of the inner chunk as it is copied. -/
def copyInstr (constMap : List ℕ) (funcStart : ℕ) (instr : Instr) : Instr :=
  match instr.op with
  | .const => { instr with operand := constMapAt constMap instr.operand }
  | .jump => { instr with operand := instr.operand + funcStart }
  | .jumpIfFalse => { instr with operand := instr.operand + funcStart }
  | .loop => { instr with operand := instr.operand + funcStart }
  | .pushHandler => { instr with operand := instr.operand + funcStart }
  | .closure => vmRemapClosureConstant constMap instr
  | .closureLong => vmRemapClosureConstant constMap instr
  | _ => instr

/-- The inner chunk `func` copied to the end of `c`. -/
def inlineChunk (c func : FuncChunk) : FuncChunk :=
  let funcStart := c.code.length
  let (c, constMap) := addConstants c func.constants
  { c with
    constants := rebaseClosures constMap funcStart func.code c.constants
    code := c.code ++ func.code.map (copyInstr constMap funcStart) }

/-- A captured variable: whether it is a local of the enclosing function, and its slot
there. -/
structure Upvalue where
  isLocal : Bool
  enclosingSlot : ℤ
  deriving DecidableEq, Repr

/-- `OP_GET_LOCAL` or `OP_GET_UPVALUE`. -/
def emitCapture (c : FuncChunk) (u : Upvalue) : FuncChunk :=
  chunkEmit c (.other (if u.isLocal then 20 else 22)) u.enclosingSlot

/-- The code that ties upvalue `i` of the closure on the stack to its slot, by a native
call. -/
def emitRelay (native : ℤ) (c : FuncChunk) (i : ℕ) (u : Upvalue) : FuncChunk :=
  let c := chunkEmit c .dup 0
  let (c, index) := chunkAddConst c (.int (Int64.ofNat i))
  let c := chunkEmit c .const index
  let (c, slot) := chunkAddConst c (.int (Int64.ofInt u.enclosingSlot))
  let c := chunkEmit c .const slot
  let c := chunkEmit c (.other 37) native
  chunkEmit c .pop 0

/-- The body of a `delay` form copied behind a jump over it, and the constant of its entry. -/
def inlineDelayed (c func : FuncChunk) : FuncChunk × ℕ :=
  let (c, cfunc) := chunkAddConst c (.int 0)
  let (c, jover) := placeholder c
  let funcStart := c.code.length
  let c := { c with constants := c.constants.set cfunc (.int (Int64.ofNat funcStart)) }
  let c := inlineChunk c func
  (patch c jover .jump c.code.length, cfunc)

/-- The promise of a `delay` form: the state, the closure and its captures, the empty
cache. -/
def emitPromise (topLevel forceThrough : Bool) (upvalues : List Upvalue) (c : FuncChunk)
    (cfunc : ℕ) : FuncChunk :=
  let (c, state) := chunkAddConst c (.int (if forceThrough then 2 else 0))
  let c := chunkEmit c .const state
  let c := upvalues.foldl emitCapture c
  let c := chunkEmitClosure c cfunc upvalues.length
  let c := upvalues.zipIdx.foldl
    (fun c (u, i) =>
      if topLevel then if u.isLocal then emitRelay 151 c i u else c
      else if u.isLocal then c else emitRelay 252 c i u) c
  let c := chunkEmit c .nil 0
  let c := chunkEmit c (.other 39) 3
  chunkEmit c (.other 37) 2098

/-- `compile_form_delay` from the compiled body on. `topLevel` is `c->enclosing == NULL`. -/
def compileFormDelay (topLevel forceThrough : Bool) (upvalues : List Upvalue)
    (c func : FuncChunk) : FuncChunk :=
  let (c, cfunc) := inlineDelayed c func
  emitPromise topLevel forceThrough upvalues c cfunc

/-- The constant index and the number of upvalues that the VM takes from a closure
instruction and the one after it. -/
def closureOperands (i : Instr) (next : Option Instr) : Option (ℤ × ℤ) :=
  match i.op with
  | .closure => some (i.operand % 2 ^ 16, i.operand / 2 ^ 16 % 2 ^ 8)
  | .closureLong => (Runtime.closureCount next).map fun n => (i.operand, n)
  | _ => none

/-- The closure instruction at an address. -/
def decodeClosure (code : List Instr) (pc : ℕ) : Option (ℤ × ℤ) :=
  code[pc]?.bind fun i => closureOperands i code[pc + 1]?

/-! ### The fields of an operand -/

theorem or_shiftLeft_mod (m n : ℕ) : (m ||| n <<< 16) % 2 ^ 16 = m % 2 ^ 16 := by
  refine Nat.eq_of_testBit_eq fun i => ?_
  rw [Nat.testBit_mod_two_pow, Nat.testBit_mod_two_pow, Nat.testBit_or, Nat.testBit_shiftLeft]
  by_cases hi : i < 16
  · simp [hi]
  · simp [hi]

theorem or_shiftLeft_div (m n : ℕ) : (m ||| n <<< 16) / 2 ^ 16 = m / 2 ^ 16 ||| n := by
  refine Nat.eq_of_testBit_eq fun i => ?_
  rw [Nat.testBit_div_two_pow, Nat.testBit_or, Nat.testBit_or, Nat.testBit_div_two_pow,
    Nat.testBit_shiftLeft]
  simp

theorem closureOperands_closure (m n : ℕ) (next : Option Instr) :
    closureOperands ⟨.closure, (m ||| n <<< 16 : ℕ)⟩ next =
      some (((m % 2 ^ 16 : ℕ) : ℤ), (((m / 2 ^ 16 ||| n) % 2 ^ 8 : ℕ) : ℤ)) := by
  rw [← or_shiftLeft_mod m n, ← or_shiftLeft_div, closureOperands]
  push_cast
  rfl

/-- What a remapped closure instruction holds, if it was emitted for constant `idx` and `n`
upvalues and the constant map gives `m`. -/
def remappedOperands (m idx n : ℕ) : ℕ × ℕ :=
  if n ≤ 255 ∧ idx ≤ 0xFFFF then (m % 2 ^ 16, (m / 2 ^ 16 ||| n) % 2 ^ 8) else (m, n)

/-- The compact form keeps both numbers exactly when the new index fits its field: a larger
one loses its high bits, which are added to the count. -/
theorem remappedOperands_eq_iff {m idx n : ℕ} :
    remappedOperands m idx n = (m, n) ↔ 255 < n ∨ 0xFFFF < idx ∨ m ≤ 0xFFFF := by
  rw [remappedOperands]
  split
  next h =>
    rw [Prod.mk.injEq]
    constructor
    · rintro ⟨hm, -⟩
      omega
    · intro hfits
      have hm : m < 2 ^ 16 := by omega
      rw [Nat.div_eq_of_lt hm, Nat.zero_or]
      omega
  next h => exact iff_of_true rfl (by omega)

/-! ### Copies -/

theorem addConstants_eq (c : FuncChunk) (vs : List Value) :
    addConstants c vs =
      ({ c with constants := c.constants ++ vs },
        List.range' c.constants.length vs.length) := by
  induction vs generalizing c with
  | nil => simp [addConstants]
  | cons v vs ih =>
    simp only [addConstants, chunkAddConst, ih, List.append_assoc, List.singleton_append,
      List.length_append, List.length_cons, List.length_nil, zero_add, List.range'_succ]

theorem constMapAt_addConstants (c : FuncChunk) {vs : List Value} {idx : ℕ}
    (hidx : idx < vs.length) :
    constMapAt (addConstants c vs).2 idx = c.constants.length + idx := by
  rw [addConstants_eq, constMapAt, Int.toNat_natCast, List.getD_eq_getElem?_getD,
    List.getElem?_range' hidx]
  simp

theorem inlineChunk_code (c func : FuncChunk) :
    (inlineChunk c func).code = c.code ++ func.code.map
      (copyInstr (addConstants c func.constants).2 c.code.length) := by
  rw [inlineChunk, addConstants_eq]

theorem decodeClosure_append (code code' : List Instr) :
    decodeClosure (code ++ code') code.length = decodeClosure code' 0 := by
  rw [decodeClosure, decodeClosure, List.getElem?_append_right le_rfl,
    List.getElem?_append_right (Nat.le_add_right _ 1), Nat.sub_self, Nat.add_sub_cancel_left]

theorem decodeClosure_closureInstrs (idx n : ℕ) (before after : List Instr) :
    decodeClosure (before ++ closureInstrs idx n ++ after) before.length =
      some ((idx : ℤ), (n : ℤ)) := by
  rw [List.append_assoc, decodeClosure_append, decodeClosure, closureInstrs]
  split
  next h =>
    rw [List.singleton_append, List.getElem?_cons_zero, Option.bind_some,
      closureOperands_closure, Nat.mod_eq_of_lt (by omega : idx < 2 ^ 16),
      Nat.div_eq_of_lt (by omega : idx < 2 ^ 16), Nat.zero_or,
      Nat.mod_eq_of_lt (by omega : n < 2 ^ 8)]
  next h => simp [closureOperands, Runtime.closureCount]

theorem map_copyInstr_closureInstrs (constMap : List ℕ) (funcStart idx n : ℕ) :
    (closureInstrs idx n).map (copyInstr constMap funcStart) =
      if n ≤ 255 ∧ idx ≤ 0xFFFF then
        [⟨.closure, (constMapAt constMap idx ||| n <<< 16 : ℕ)⟩]
      else [⟨.closureLong, constMapAt constMap idx⟩, ⟨.closureCount, n⟩] := by
  rw [closureInstrs]
  split
  next h =>
    have hheld := closureOperands_closure idx n none
    rw [Nat.mod_eq_of_lt (by omega : idx < 2 ^ 16), Nat.div_eq_of_lt (by omega : idx < 2 ^ 16),
      Nat.zero_or, Nat.mod_eq_of_lt (by omega : n < 2 ^ 8), closureOperands] at hheld
    simp only [Option.some.injEq, Prod.mk.injEq] at hheld
    simp only [List.map_cons, List.map_nil, copyInstr, vmRemapClosureConstant, hheld.1, hheld.2,
      Int.toNat_natCast]
  next h => rfl

theorem decodeClosure_copy (constMap : List ℕ) (funcStart idx n : ℕ)
    (code before after rest : List Instr) :
    decodeClosure (code ++ (before ++ closureInstrs idx n ++ after).map
        (copyInstr constMap funcStart) ++ rest) (code.length + before.length) =
      some (((remappedOperands (constMapAt constMap idx) idx n).1 : ℤ),
        ((remappedOperands (constMapAt constMap idx) idx n).2 : ℤ)) := by
  have hlen : code.length + before.length =
      (code ++ before.map (copyInstr constMap funcStart)).length := by simp
  rw [List.map_append, List.map_append, ← List.append_assoc, ← List.append_assoc,
    List.append_assoc _ _ rest, List.append_assoc _ _ (_ ++ rest), hlen, decodeClosure_append,
    decodeClosure, remappedOperands, map_copyInstr_closureInstrs]
  split
  next h => rw [List.singleton_append, List.getElem?_cons_zero, Option.bind_some,
      closureOperands_closure]
  next h => simp [closureOperands, Runtime.closureCount]

/-! ### The whole form -/

theorem prefix_foldl {β : Type} {f : FuncChunk → β → FuncChunk}
    (hf : ∀ c b, c.code <+: (f c b).code) (bs : List β) (c : FuncChunk) :
    c.code <+: (bs.foldl f c).code := by
  induction bs generalizing c with
  | nil => exact List.prefix_rfl
  | cons b bs ih => exact (hf c b).trans (ih (f c b))

theorem prefix_chunkEmit (c : FuncChunk) (op : OpCode) (operand : ℤ) :
    c.code <+: (chunkEmit c op operand).code :=
  List.prefix_append _ _

theorem prefix_emitRelay (native : ℤ) (c : FuncChunk) (i : ℕ) (u : Upvalue) :
    c.code <+: (emitRelay native c i u).code := by
  simp only [emitRelay, chunkAddConst, chunkEmit, List.append_assoc]
  exact List.prefix_append _ _

theorem prefix_emitPromise (topLevel forceThrough : Bool) (upvalues : List Upvalue)
    (c : FuncChunk) (cfunc : ℕ) :
    c.code <+: (emitPromise topLevel forceThrough upvalues c cfunc).code := by
  have hrelay : ∀ (c : FuncChunk) (p : Upvalue × ℕ), c.code <+:
      (if topLevel then if p.1.isLocal then emitRelay 151 c p.2 p.1 else c
        else if p.1.isLocal then c else emitRelay 252 c p.2 p.1).code := by
    intro c p
    cases topLevel with
    | true =>
      cases p.1.isLocal with
      | true => exact prefix_emitRelay 151 c p.2 p.1
      | false => exact List.prefix_rfl
    | false =>
      cases p.1.isLocal with
      | true => exact List.prefix_rfl
      | false => exact prefix_emitRelay 252 c p.2 p.1
  rw [emitPromise]
  refine List.IsPrefix.trans ?_ (prefix_chunkEmit _ _ _)
  refine List.IsPrefix.trans ?_ (prefix_chunkEmit _ _ _)
  refine List.IsPrefix.trans ?_ (prefix_chunkEmit _ _ _)
  refine List.IsPrefix.trans ?_ (prefix_foldl hrelay _ _)
  refine List.IsPrefix.trans ?_ (List.prefix_append _ _)
  refine List.IsPrefix.trans ?_ (prefix_foldl (fun c u => prefix_chunkEmit c _ _) _ _)
  exact prefix_chunkEmit _ _ _

theorem inlineDelayed_code (c func : FuncChunk) :
    ∃ target, (inlineDelayed c func).1.code = (c.code ++ [⟨.jump, target⟩]) ++
      func.code.map (copyInstr
        (List.range' (c.constants.length + 1) func.constants.length) (c.code.length + 1)) := by
  refine ⟨(c.code.length + (func.code.length + 1) : ℕ), ?_⟩
  simp only [inlineDelayed, chunkAddConst, placeholder, chunkEmit, patch, inlineChunk_code,
    addConstants_eq]
  simp

theorem decodeClosure_compileFormDelay (topLevel forceThrough : Bool)
    (upvalues : List Upvalue) (c func : FuncChunk) {before after : List Instr} {idx n : ℕ}
    (hcode : func.code = before ++ closureInstrs idx n ++ after)
    (hidx : idx < func.constants.length) :
    decodeClosure (compileFormDelay topLevel forceThrough upvalues c func).code
        (c.code.length + 1 + before.length) =
      some (((remappedOperands (c.constants.length + 1 + idx) idx n).1 : ℤ),
        ((remappedOperands (c.constants.length + 1 + idx) idx n).2 : ℤ)) := by
  obtain ⟨target, hbody⟩ := inlineDelayed_code c func
  obtain ⟨rest, hrest⟩ := prefix_emitPromise topLevel forceThrough upvalues
    (inlineDelayed c func).1 (inlineDelayed c func).2
  have hmap : constMapAt (List.range' (c.constants.length + 1) func.constants.length) idx =
      c.constants.length + 1 + idx := by
    simp [constMapAt, hidx]
  have hdecode := decodeClosure_copy
    (List.range' (c.constants.length + 1) func.constants.length) (c.code.length + 1) idx n
    (c.code ++ [⟨.jump, target⟩]) before after rest
  rw [hmap, ← hcode, ← hbody, hrest, List.length_append, List.length_singleton] at hdecode
  exact hdecode

theorem decodeClosure_inlineChunk (c func : FuncChunk) {before after : List Instr} {idx n : ℕ}
    (hcode : func.code = before ++ closureInstrs idx n ++ after)
    (hidx : idx < func.constants.length) :
    decodeClosure (inlineChunk c func).code (c.code.length + before.length) =
      some (((remappedOperands (c.constants.length + idx) idx n).1 : ℤ),
        ((remappedOperands (c.constants.length + idx) idx n).2 : ℤ)) := by
  have hdecode := decodeClosure_copy (addConstants c func.constants).2 c.code.length idx n c.code
    before after []
  rwa [List.append_nil, constMapAt_addConstants c hidx, ← hcode, ← inlineChunk_code] at hdecode

theorem some_remappedOperands_iff {m idx n : ℕ} :
    some (((remappedOperands m idx n).1 : ℤ), ((remappedOperands m idx n).2 : ℤ)) =
      some ((m : ℤ), (n : ℤ)) ↔ 255 < n ∨ 0xFFFF < idx ∨ m ≤ 0xFFFF := by
  rw [← remappedOperands_eq_iff, Option.some.injEq, Prod.mk.injEq, Prod.ext_iff, Nat.cast_inj,
    Nat.cast_inj]

/-- A closure that `chunk_emit_closure` puts into the inner chunk, for a constant of that
chunk, holds the constant and its number of upvalues. In the enclosing chunk it holds the
constant that the map gives and the same number of upvalues exactly when it has the long
form or the new constant fits in sixteen bits; so it is for the copied body on its own and
for the `delay` form around it. -/
theorem inlineChunk_closure_iff (c func : FuncChunk) {before after : List Instr} {idx n : ℕ}
    (hcode : func.code = before ++ closureInstrs idx n ++ after)
    (hidx : idx < func.constants.length) :
    decodeClosure func.code before.length = some ((idx : ℤ), (n : ℤ)) ∧
    (decodeClosure (inlineChunk c func).code (c.code.length + before.length) =
        some ((constMapAt (addConstants c func.constants).2 idx : ℤ), (n : ℤ)) ↔
      255 < n ∨ 0xFFFF < idx ∨ c.constants.length + idx ≤ 0xFFFF) ∧
    ∀ topLevel forceThrough upvalues,
      decodeClosure (compileFormDelay topLevel forceThrough upvalues c func).code
          (c.code.length + 1 + before.length) =
        some (((c.constants.length + 1 + idx : ℕ) : ℤ), (n : ℤ)) ↔
      255 < n ∨ 0xFFFF < idx ∨ c.constants.length + 1 + idx ≤ 0xFFFF := by
  refine ⟨by rw [hcode, decodeClosure_closureInstrs], ?_, fun topLevel forceThrough upvalues => ?_⟩
  · rw [decodeClosure_inlineChunk c func hcode hidx, constMapAt_addConstants c hidx,
      some_remappedOperands_iff]
  · rw [decodeClosure_compileFormDelay topLevel forceThrough upvalues c func hcode hidx,
      some_remappedOperands_iff]

/-- A chunk with an instruction and two constants. -/
def outerChunk : FuncChunk := ⟨[⟨.const, 1⟩], [.int 7, .int 8], []⟩

/-- A chunk whose second constant is the code of a closure with two upvalues. -/
def innerChunk : FuncChunk :=
  ⟨[⟨.const, 0⟩] ++ closureInstrs 1 2 ++ [⟨.pop, 0⟩], [.int 3, .int 0], []⟩

/-- The second constant of the inner chunk is the fourth one of the enclosing chunk, and the fifth
one in the `delay` form; the closure keeps its two upvalues. -/
theorem inlineChunk_closure_iff_two :
    decodeClosure (inlineChunk outerChunk innerChunk).code 2 = some (3, 2) ∧
    decodeClosure (compileFormDelay true false [] outerChunk innerChunk).code 3 = some (4, 2) := by
  have hcode : innerChunk.code = [⟨.const, 0⟩] ++ closureInstrs 1 2 ++ [⟨.pop, 0⟩] := rfl
  have h := inlineChunk_closure_iff outerChunk innerChunk hcode (by decide : 1 < 2)
  exact ⟨h.2.1.mpr (by decide), (h.2.2 true false []).mpr (by decide)⟩

/-- With 65536 constants in the enclosing pool the closure takes the constant zero and one
upvalue. -/
theorem inlineChunk_closure_lost :
    constMapAt (addConstants ⟨[], List.replicate 65536 .nil, []⟩ [.int 0]).2 0 = 65536 ∧
    decodeClosure (inlineChunk ⟨[], List.replicate 65536 .nil, []⟩
      ⟨closureInstrs 0 0, [.int 0], []⟩).code 0 = some (0, 1) := by
  refine ⟨?_, ?_⟩
  · have hlt : 0 < [Value.int 0].length := Nat.one_pos
    have hmap := constMapAt_addConstants ⟨[], List.replicate 65536 .nil, []⟩ hlt
    rw [List.length_replicate] at hmap
    exact hmap
  · have hdecode := decodeClosure_inlineChunk ⟨[], List.replicate 65536 .nil, []⟩
      ⟨closureInstrs 0 0, [.int 0], []⟩
      (by simp : closureInstrs 0 0 = [] ++ closureInstrs 0 0 ++ []) Nat.one_pos
    rw [List.length_replicate] at hdecode
    exact hdecode

end Eshkol.Vm
