import Eshkol.Vm.Run

/-!
# The Peephole Optimizer

`peephole_optimize` (`lib/backend/vm_peephole.c`). Passes over the code replace adjacent
pairs by `NOP`s until nothing changes: `CONST 0; ADD`, `CONST 1; MUL`, `NOT; NOT`,
`NEG; NEG` and `DUP; POP`. A pair is left alone when its second instruction is marked as the
target of a branch, a handler, a closure or an entry of the chunk. `CONST 0; MUL` is
replaced and put back, which clears the operand of the `MUL`.

A constant index outside the pool is undefined in the pattern tests; here it matches
nothing. Allocation of the entry map succeeds.
-/

namespace Eshkol.Vm

def vmClosureConstIndex (i : Instr) : ℤ :=
  if i.op = .closureLong then i.operand else i.operand % 2 ^ 16

/-- The code address an instruction refers to. -/
def branchTarget (constants : List Value) (i : Instr) : Option ℤ :=
  match i.op with
  | .jump => some i.operand
  | .jumpIfFalse => some i.operand
  | .loop => some i.operand
  | .pushHandler => some i.operand
  | .closure => (constantAt constants (vmClosureConstIndex i)).bind closureEntry
  | .closureLong => (constantAt constants (vmClosureConstIndex i)).bind closureEntry
  | _ => none

/-- The entry map: `is_entry[j]`. -/
def isEntry (c : FuncChunk) (j : ℕ) : Bool :=
  c.code.any (fun i => branchTarget c.constants i == some (j : ℤ)) || c.entries.contains (j : ℤ)

/-! ### One pair -/

/-- `OP_NOP` with operand 0. -/
def nopInstr : Instr := ⟨.nop, 0⟩

/-- Whether an instruction pushes the integer constant `k`. -/
def pushesInt (constants : List Value) (k : Int64) (i : Instr) : Bool :=
  i.op == .const && constantAt constants i.operand == some (.int k)

/-- The tests of the loop body on the pair `(i, i + 1)`, in the order of the source. The flag
is `changed`. -/
def visitPair (constants : List Value) (a b : Instr) : Instr × Instr × Bool :=
  let p : Instr × Instr × Bool := (a, b, false)
  let p := if pushesInt constants 0 p.1 ∧ p.2.1.op = .add then (nopInstr, nopInstr, true) else p
  let p := if pushesInt constants 1 p.1 ∧ p.2.1.op = .mul then (nopInstr, nopInstr, true) else p
  let p := if pushesInt constants 0 p.1 ∧ p.2.1.op = .mul then (p.1, ⟨.mul, 0⟩, p.2.2) else p
  let p := if p.1.op = .not ∧ p.2.1.op = .not then (nopInstr, nopInstr, true) else p
  let p := if p.1.op = .neg ∧ p.2.1.op = .neg then (nopInstr, nopInstr, true) else p
  if p.1.op = .dup ∧ p.2.1.op = .pop then (nopInstr, nopInstr, true) else p

/-- One iteration of the inner loop. -/
def passStep (constants : List Value) (entry : ℕ → Bool) (st : List Instr × Bool) (i : ℕ) :
    List Instr × Bool :=
  if entry (i + 1) then st
  else match st.1[i]?, st.1[i + 1]? with
    | some a, some b =>
      let r := visitPair constants a b
      ((st.1.set i r.1).set (i + 1) r.2.1, st.2 || r.2.2)
    | _, _ => st

/-- The inner loop. -/
def peepholePass (constants : List Value) (entry : ℕ → Bool) (code : List Instr) :
    List Instr × Bool :=
  (List.range (code.length - 1)).foldl (passStep constants entry) (code, false)

/-- The outer loop, `while (changed)`, for at most `n` passes. -/
def peepholeLoop (constants : List Value) (entry : ℕ → Bool) : ℕ → List Instr → List Instr
  | 0, code => code
  | n + 1, code =>
    let r := peepholePass constants entry code
    if r.2 then peepholeLoop constants entry n r.1 else r.1

/-- `peephole_optimize`. Every pass but the last removes a pair. -/
def peepholeOptimize (c : FuncChunk) : FuncChunk :=
  { c with code := peepholeLoop c.constants (isEntry c) (c.code.length + 1) c.code }

/-! ### What is removed -/

/-- The pairs that are removed when they are met. -/
def removable (constants : List Value) (a b : Instr) : Bool :=
  (pushesInt constants 0 a && b.op == .add) || (pushesInt constants 1 a && b.op == .mul) ||
    (a.op == .not && b.op == .not) || (a.op == .neg && b.op == .neg) ||
    (a.op == .dup && b.op == .pop)

/-- The pair whose second operand is cleared. -/
def clearable (constants : List Value) (a b : Instr) : Bool :=
  pushesInt constants 0 a && b.op == .mul

section Spec

variable (constants : List Value) (entry : ℕ → Bool) (code : List Instr)

/-- A test holds of the pair at `i`, whose second instruction is no entry. -/
def pairAt (test : Instr → Instr → Bool) (i : ℕ) : Bool :=
  !entry (i + 1) && match code[i]?, code[i + 1]? with
    | some a, some b => test a b
    | _, _ => false

/-- The pair at `i` is removed: it matches, and its first instruction has not gone with the
pair before. -/
def removedAt : ℕ → Bool
  | 0 => pairAt entry code (removable constants) 0
  | i + 1 => pairAt entry code (removable constants) (i + 1) && !removedAt i

/-- The instruction at `j` is the second of a removed pair. -/
def secondAt : ℕ → Bool
  | 0 => false
  | i + 1 => removedAt constants entry code i

/-- The instruction at `j` is a `MUL` after `CONST 0`. -/
def clearedAt : ℕ → Bool
  | 0 => false
  | i + 1 => pairAt entry code (clearable constants) i

/-- The instruction at `j` after a pass. -/
def optimizedInstr (j : ℕ) (i : Instr) : Instr :=
  if removedAt constants entry code j || secondAt constants entry code j then nopInstr
  else if clearedAt constants entry code j then ⟨.mul, 0⟩
  else i

end Spec

variable {constants : List Value} {entry : ℕ → Bool} {code : List Instr}

theorem pushesInt_iff {k : Int64} {i : Instr} :
    pushesInt constants k i = true ↔
      i.op = .const ∧ constantAt constants i.operand = some (.int k) := by
  simp [pushesInt]

theorem visitPair_eq (a b : Instr) : visitPair constants a b =
    if removable constants a b then (nopInstr, nopInstr, true)
    else if clearable constants a b then (a, ⟨.mul, 0⟩, false)
    else (a, b, false) := by
  obtain ⟨aop, ax⟩ := a
  cases aop
  case const =>
      by_cases hadd : b.op = .add
      · by_cases h0 : constantAt constants ax = some (.int 0) <;>
          simp [visitPair, removable, clearable, pushesInt, nopInstr, hadd, h0]
      by_cases hmul : b.op = .mul
      · by_cases h1 : constantAt constants ax = some (.int 1)
        · simp [visitPair, removable, pushesInt, nopInstr, hmul, h1]
        · by_cases h0 : constantAt constants ax = some (.int 0) <;>
            simp [visitPair, removable, clearable, pushesInt, hmul, h0, h1]
      · simp [visitPair, removable, clearable, pushesInt, hadd, hmul]
  case not =>
      by_cases hb : b.op = .not <;> simp [visitPair, removable, clearable, pushesInt, nopInstr, hb]
  case neg =>
      by_cases hb : b.op = .neg <;> simp [visitPair, removable, clearable, pushesInt, nopInstr, hb]
  case dup =>
      by_cases hb : b.op = .pop <;> simp [visitPair, removable, clearable, pushesInt, nopInstr, hb]
  all_goals simp [visitPair, removable, clearable, pushesInt]

/-! ### One pass -/

variable {a b : Instr} {i j k : ℕ}

theorem removable_first (h : removable constants a b = true) :
    a.op = .const ∨ a.op = .not ∨ a.op = .neg ∨ a.op = .dup := by
  simp only [removable, Bool.or_eq_true, Bool.and_eq_true, beq_iff_eq, pushesInt_iff] at h
  tauto

theorem removable_second (h : removable constants a b = true) :
    b.op = .add ∨ b.op = .mul ∨ b.op = .not ∨ b.op = .neg ∨ b.op = .pop := by
  simp only [removable, Bool.or_eq_true, Bool.and_eq_true, beq_iff_eq] at h
  tauto

theorem clearable_iff :
    clearable constants a b = true ↔ pushesInt constants 0 a = true ∧ b.op = .mul := by
  simp [clearable]

theorem inert_first (constants : List Value) (b : Instr)
    (h : a.op = .nop ∨ a.op = .add ∨ a.op = .mul ∨ a.op = .pop) :
    removable constants a b = false ∧ clearable constants a b = false := by
  rcases h with h | h | h | h <;> simp [removable, clearable, pushesInt, h]

theorem pairAt_eq_true {test : Instr → Instr → Bool} :
    pairAt entry code test i = true ↔ entry (i + 1) = false ∧
      ∃ a b, code[i]? = some a ∧ code[i + 1]? = some b ∧ test a b = true := by
  rw [pairAt]
  cases code[i]? <;> cases code[i + 1]? <;> simp

theorem removedAt_iff :
    removedAt constants entry code i = true ↔
      pairAt entry code (removable constants) i = true ∧
        secondAt constants entry code i = false := by
  cases i with
  | zero => simp [removedAt, secondAt]
  | succ i => simp [removedAt, secondAt]

theorem secondAt_op (h : secondAt constants entry code j = true) (hb : code[j]? = some b) :
    b.op = .add ∨ b.op = .mul ∨ b.op = .not ∨ b.op = .neg ∨ b.op = .pop := by
  cases j with
  | zero => simp [secondAt] at h
  | succ i =>
    obtain ⟨-, a, b', -, hb', htest⟩ := pairAt_eq_true.mp (removedAt_iff.mp h).1
    rw [hb] at hb'
    cases hb'
    exact removable_second htest

theorem clearedAt_op (h : clearedAt constants entry code j = true) (hb : code[j]? = some b) :
    b.op = .mul := by
  cases j with
  | zero => simp [clearedAt] at h
  | succ i =>
    obtain ⟨-, a, b', -, hb', htest⟩ := pairAt_eq_true.mp h
    rw [hb] at hb'
    cases hb'
    exact (clearable_iff.mp htest).2

section Pass

variable (constants entry code)

/-- The instruction at `j` after the pairs before `k` have been visited. -/
def visitedInstr (k j : ℕ) (i : Instr) : Instr :=
  if (removedAt constants entry code j && decide (j < k)) ||
      (secondAt constants entry code j && decide (j ≤ k)) then nopInstr
  else if clearedAt constants entry code j && decide (j ≤ k) then ⟨.mul, 0⟩
  else i

end Pass

theorem visitedInstr_self (k : ℕ) (a : Instr) :
    visitedInstr constants entry code k k a =
      if secondAt constants entry code k then nopInstr
      else if clearedAt constants entry code k then ⟨.mul, 0⟩ else a := by
  simp [visitedInstr]

theorem visitedInstr_next (k : ℕ) (b : Instr) :
    visitedInstr constants entry code k (k + 1) b = b := by
  simp [visitedInstr]

/-- What a visit does to the code. -/
theorem visitPair_visited (hentry : entry (k + 1) = false) (ha : code[k]? = some a)
    (hb : code[k + 1]? = some b) :
    visitPair constants (visitedInstr constants entry code k k a) b =
      if removedAt constants entry code k then (nopInstr, nopInstr, true)
      else (visitedInstr constants entry code k k a,
        if clearedAt constants entry code (k + 1) then ⟨.mul, 0⟩ else b, false) := by
  have hpair (test : Instr → Instr → Bool) : pairAt entry code test k = test a b := by
    simp [pairAt, hentry, ha, hb]
  have hcleared : clearedAt constants entry code (k + 1) = clearable constants a b := hpair _
  rw [visitPair_eq, visitedInstr_self, hcleared]
  by_cases hsecond : secondAt constants entry code k = true
  · -- the first instruction has gone with the pair before
    have hrem : removedAt constants entry code k = false := by
      rw [← Bool.not_eq_true, removedAt_iff]
      simp [hsecond]
    have hclear : clearable constants a b = false := by
      rw [← Bool.not_eq_true, clearable_iff, pushesInt_iff]
      rcases secondAt_op hsecond ha with h | h | h | h | h <;> simp [h]
    obtain ⟨hr, hc⟩ := inert_first constants b
      (Or.inl rfl : nopInstr.op = .nop ∨ _)
    simp [hsecond, hrem, hclear, hr, hc]
  · have hrem : removedAt constants entry code k = removable constants a b := by
      rw [Bool.eq_iff_iff, removedAt_iff, hpair]
      simp [hsecond]
    rw [Bool.not_eq_true] at hsecond
    by_cases hc : clearedAt constants entry code k = true
    · obtain ⟨hr, hcl⟩ := inert_first constants b
        (.inr (.inr (.inl (clearedAt_op hc ha))))
      obtain ⟨hr', hcl'⟩ := inert_first constants b
        (.inr (.inr (.inl rfl)) : (⟨.mul, 0⟩ : Instr).op = .nop ∨ _)
      simp [hsecond, hc, hrem, hr, hcl, hr', hcl']
    · simp only [hsecond, hc, hrem, Bool.false_eq_true, if_false]
      split
      · rfl
      · split <;> rfl

/-- What a pass has done to the code before a place. -/
theorem passStep_visited {st : List Instr × Bool} (hk : k + 1 < code.length)
    (hcode : ∀ j, st.1[j]? = code[j]?.map (visitedInstr constants entry code k j)) :
    (∀ j, (passStep constants entry st k).1[j]? =
      code[j]?.map (visitedInstr constants entry code (k + 1) j)) ∧
    (passStep constants entry st k).2 = (st.2 || removedAt constants entry code k) := by
  obtain ⟨a, ha⟩ : ∃ a, code[k]? = some a := ⟨_, List.getElem?_eq_getElem (by omega)⟩
  obtain ⟨b, hb⟩ : ∃ b, code[k + 1]? = some b := ⟨_, List.getElem?_eq_getElem hk⟩
  have hlen : st.1.length = code.length := by
    apply Nat.le_antisymm
    · have := hcode code.length
      rw [List.getElem?_eq_none (le_refl _), Option.map_none, List.getElem?_eq_none_iff] at this
      exact this
    · have := hcode st.1.length
      rw [List.getElem?_eq_none (le_refl _), eq_comm, Option.map_eq_none_iff,
        List.getElem?_eq_none_iff] at this
      exact this
  have hother {j : ℕ} (h₁ : j ≠ k) (h₂ : j ≠ k + 1) (i : Instr) :
      visitedInstr constants entry code (k + 1) j i = visitedInstr constants entry code k j i := by
    have hlt : j < k + 1 ↔ j < k := by omega
    have hle : j ≤ k + 1 ↔ j ≤ k := by omega
    simp only [visitedInstr, hlt, hle]
  rw [passStep]
  by_cases hentry : entry (k + 1) = true
  · have hpair (test : Instr → Instr → Bool) : pairAt entry code test k = false := by
      simp [pairAt, hentry]
    have hrem : removedAt constants entry code k = false := by
      rw [← Bool.not_eq_true, removedAt_iff, hpair]
      simp
    rw [if_pos hentry]
    refine ⟨fun j => ?_, by simp [hrem]⟩
    rw [hcode j]
    congr 1
    funext i
    by_cases h₁ : j = k
    · subst h₁
      simp [visitedInstr, hrem]
    by_cases h₂ : j = k + 1
    · subst h₂
      simp [visitedInstr, secondAt, clearedAt, hrem, hpair]
    · rw [hother h₁ h₂]
  · rw [Bool.not_eq_true] at hentry
    have hsta : st.1[k]? = some (visitedInstr constants entry code k k a) := by
      rw [hcode, ha, Option.map_some]
    have hstb : st.1[k + 1]? = some b := by rw [hcode, hb, Option.map_some, visitedInstr_next]
    simp only [hentry, hsta, hstb, visitPair_visited hentry ha hb, Bool.false_eq_true, if_false]
    constructor
    · intro j
      rw [List.getElem?_set, List.length_set, List.getElem?_set]
      by_cases h₂ : k + 1 = j
      · subst h₂
        rw [if_pos rfl, if_pos (by omega), hb, Option.map_some]
        by_cases hrem : removedAt constants entry code k = true
        · simp [hrem, visitedInstr, secondAt]
        · simp [hrem, visitedInstr, secondAt]
      by_cases h₁ : k = j
      · subst h₁
        rw [if_neg h₂, if_pos rfl, if_pos (by omega), ha, Option.map_some]
        by_cases hrem : removedAt constants entry code k = true
        · simp [hrem, visitedInstr]
        · simp [hrem, visitedInstr]
      · rw [if_neg h₂, if_neg h₁, hcode j]
        congr 1
        funext i
        rw [hother (Ne.symm h₁) (Ne.symm h₂)]
    · by_cases hrem : removedAt constants entry code k = true
      · simp [hrem]
      · simp [hrem]

/-- The code after a pass. -/
def optimizedCode (constants : List Value) (entry : ℕ → Bool) (code : List Instr) : List Instr :=
  code.mapIdx (optimizedInstr constants entry code)

theorem getElem?_optimizedCode (j : ℕ) :
    (optimizedCode constants entry code)[j]? =
      code[j]?.map (optimizedInstr constants entry code j) := by
  rw [optimizedCode, List.getElem?_mapIdx]

theorem foldl_passStep (constants : List Value) (entry : ℕ → Bool) (hk : k ≤ code.length - 1) :
    (∀ j, ((List.range k).foldl (passStep constants entry) (code, false)).1[j]? =
      code[j]?.map (visitedInstr constants entry code k j)) ∧
    ((List.range k).foldl (passStep constants entry) (code, false)).2 =
      (List.range k).any (removedAt constants entry code) := by
  induction k with
  | zero =>
    refine ⟨fun j => ?_, rfl⟩
    have hid : visitedInstr constants entry code 0 j = id := by
      funext i
      cases j with
      | zero => simp [visitedInstr, secondAt, clearedAt]
      | succ j => simp [visitedInstr]
    simp [hid]
  | succ k ih =>
    obtain ⟨hcode, hflag⟩ := ih (by omega)
    obtain ⟨hcode', hflag'⟩ := passStep_visited (by omega) hcode
    rw [List.range_succ, List.foldl_append, List.foldl_cons, List.foldl_nil]
    refine ⟨hcode', ?_⟩
    rw [hflag', hflag, List.any_append, List.any_cons, List.any_nil, Bool.or_false]

theorem removedAt_lt (h : removedAt constants entry code i = true) : i + 1 < code.length := by
  obtain ⟨-, -, b, -, hb, -⟩ := pairAt_eq_true.mp (removedAt_iff.mp h).1
  exact (List.getElem?_eq_some_iff.mp hb).1

theorem peepholePass_eq (constants : List Value) (entry : ℕ → Bool) (code : List Instr) :
    (peepholePass constants entry code).1 = optimizedCode constants entry code ∧
    (peepholePass constants entry code).2 =
      (List.range (code.length - 1)).any (removedAt constants entry code) := by
  obtain ⟨hcode, hflag⟩ := foldl_passStep constants entry (le_refl (code.length - 1))
  refine ⟨?_, hflag⟩
  apply List.ext_getElem?
  intro j
  rw [peepholePass, hcode, getElem?_optimizedCode]
  by_cases hj : j < code.length
  · rw [List.getElem?_eq_getElem hj, Option.map_some, Option.map_some, visitedInstr, optimizedInstr]
    have hle : j ≤ code.length - 1 := by omega
    have hrem : (removedAt constants entry code j && decide (j < code.length - 1)) =
        removedAt constants entry code j := by
      by_cases h : removedAt constants entry code j = true
      · have := removedAt_lt h
        simp [h]
        omega
      · simp [h]
    simp [hrem, hle]
  · rw [List.getElem?_eq_none (by omega)]
    rfl

/-! ### The second pass changes nothing -/

theorem optimizedInstr_cases (constants : List Value) (entry : ℕ → Bool) {x : Instr}
    (hx : code[j]? = some x) :
    optimizedInstr constants entry code j x = nopInstr ∨
    (removedAt constants entry code j = false ∧ secondAt constants entry code j = false ∧
      (optimizedInstr constants entry code j x).op = x.op ∧
      (x.op ≠ .mul → optimizedInstr constants entry code j x = x)) := by
  rw [optimizedInstr]
  split
  · exact .inl rfl
  next h =>
    simp only [Bool.or_eq_true, not_or, Bool.not_eq_true] at h
    refine .inr ⟨h.1, h.2, ?_⟩
    split
    next hc =>
      have hop := clearedAt_op hc hx
      exact ⟨hop.symm, fun hne => absurd hop hne⟩
    next => exact ⟨rfl, fun _ => rfl⟩

theorem removedAt_optimizedCode (i : ℕ) :
    removedAt constants entry (optimizedCode constants entry code) i = false := by
  rw [← Bool.not_eq_true]
  intro h
  obtain ⟨hentry, a, b, ha, hb, htest⟩ := pairAt_eq_true.mp (removedAt_iff.mp h).1
  rw [getElem?_optimizedCode] at ha hb
  obtain ⟨x, hx, rfl⟩ := Option.map_eq_some_iff.mp ha
  obtain ⟨y, hy, rfl⟩ := Option.map_eq_some_iff.mp hb
  have hfirst := removable_first htest
  have hsecond := removable_second htest
  rcases optimizedInstr_cases constants entry hx with hnop | ⟨hr, hs, hop, heq⟩
  · simp [hnop, nopInstr] at hfirst
  rcases optimizedInstr_cases constants entry hy with hnop | ⟨-, -, hop', -⟩
  · simp [hnop, nopInstr] at hsecond
  · have hxne : x.op ≠ .mul := by
      intro hm
      rw [hop, hm] at hfirst
      simp at hfirst
    rw [heq hxne] at htest
    have htest' : removable constants x y = true := by simpa [removable, hop'] using htest
    rw [← Bool.not_eq_true, removedAt_iff, pairAt_eq_true] at hr
    exact hr ⟨⟨hentry, x, y, hx, hy, htest'⟩, hs⟩

/-- Optimized code is not changed again. -/
theorem optimizedCode_idem :
    optimizedCode constants entry (optimizedCode constants entry code) =
      optimizedCode constants entry code := by
  apply List.ext_getElem?
  intro j
  rw [getElem?_optimizedCode]
  cases hj : (optimizedCode constants entry code)[j]? with
  | none => rfl
  | some x =>
    have hsecond : secondAt constants entry (optimizedCode constants entry code) j = false := by
      cases j with
      | zero => rfl
      | succ i => exact removedAt_optimizedCode i
    rw [Option.map_some, optimizedInstr, removedAt_optimizedCode, hsecond]
    simp only [Bool.or_self, Bool.false_eq_true, if_false]
    split
    next hc =>
      -- a `MUL` after `CONST 0` has been cleared by the first pass
      cases j with
      | zero => simp [clearedAt] at hc
      | succ i =>
        obtain ⟨hentry, a, b, ha, hb, htest⟩ := pairAt_eq_true.mp hc
        obtain ⟨hpush, hmul⟩ := clearable_iff.mp htest
        rw [hj] at hb
        cases hb
        rw [getElem?_optimizedCode] at ha hj
        obtain ⟨a', ha', rfl⟩ := Option.map_eq_some_iff.mp ha
        obtain ⟨b', hb', rfl⟩ := Option.map_eq_some_iff.mp hj
        have hconst := (pushesInt_iff.mp hpush).1
        rcases optimizedInstr_cases constants entry ha' with
          hnop | ⟨-, -, hop, heq⟩
        · simp [hnop, nopInstr] at hconst
        rcases optimizedInstr_cases constants entry hb' with
          hnop | ⟨hr, hs, hop', -⟩
        · simp [hnop, nopInstr] at hmul
        · rw [heq (by rw [← hop, hconst]; simp)] at hpush
          have hcl : clearedAt constants entry code (i + 1) = true :=
            pairAt_eq_true.mpr ⟨hentry, a', b', ha', hb',
              clearable_iff.mpr ⟨hpush, hop'.symm.trans hmul⟩⟩
          rw [optimizedInstr, hr, hs, hcl]
          rfl
    next => rfl

theorem peepholeOptimize_code (c : FuncChunk) (j : ℕ) :
    (peepholeOptimize c).code[j]? =
      c.code[j]?.map (optimizedInstr c.constants (isEntry c) c.code j) := by
  rw [← getElem?_optimizedCode, peepholeOptimize]
  congr 1
  rw [peepholeLoop]
  obtain ⟨hcode, hflag⟩ := peepholePass_eq c.constants (isEntry c) c.code
  simp only [hcode, hflag]
  split
  next hany =>
    obtain ⟨i, -, hi⟩ := List.any_eq_true.mp hany
    have hlen := removedAt_lt hi
    obtain ⟨n, hn⟩ : ∃ n, c.code.length = n + 1 := ⟨c.code.length - 1, by omega⟩
    obtain ⟨hcode', hflag'⟩ := peepholePass_eq c.constants (isEntry c)
      (optimizedCode c.constants (isEntry c) c.code)
    have hnone : (List.range ((optimizedCode c.constants (isEntry c) c.code).length - 1)).any
        (removedAt c.constants (isEntry c) (optimizedCode c.constants (isEntry c) c.code)) =
          false := by
      rw [List.any_eq_false]
      exact fun i _ => by simp [removedAt_optimizedCode]
    rw [hn, peepholeLoop]
    simp only [hcode', hflag', hnone, optimizedCode_idem, Bool.false_eq_true, if_false]
  next => rfl

end Eshkol.Vm
