import Eshkol.Eskb.Reader
import Eshkol.Eskb.Writer

/-!
# Writing and Loading a Bytecode Module

The writer and the loader check different things. `Loadable` says of a module what the
loader asks for beyond the writer's checks: names that differ, limits on counts and sizes,
and code targets inside their functions also where `code_base` is zero. A module that is
written is loaded back, with the same functions, instructions, constants and source file
name, exactly when it is loadable.

Code targets are compared from the start of their function, which is where the loader
places it on the one hand and `code_base` on the other.
-/

namespace Eshkol.Eskb

open Codec Machine

/-! ### The same module -/

/-- The loader's constant is the writer's. -/
structure SameConst (c : EskbConst) (l : LoadedConst) : Prop where
  type : l.type = c.type
  int64 : c.type = 1 → l.int = c.as
  f64 : c.type = 2 → l.float = c.as
  bool : c.type = 3 → (l.int ≠ 0 ↔ c.as.toNat % 2 ^ 32 ≠ 0)
  string : c.type = 6 → l.string = some c.str ∧ l.int.toNat = c.str.length

/-- The loaded instruction, of a function placed at `offset`, is the writer's. -/
structure SameInstr (fn : EskbFunctionDef) (offset : ℕ) (i : EskbInstr) (j : Instr) : Prop where
  op : j.op = i.op
  operand : ¬ eskbOperandIsCodeTarget i.op → j.operand = i.operand.toInt
  target : eskbOperandIsCodeTarget i.op → j.operand - offset = i.operand.toInt - fn.codeBase.toInt

/-- The loaded function, in a module of the given code, is the writer's. -/
structure SameFunction (code : List Instr) (fn : EskbFunctionDef) (g : EskbFunction) : Prop where
  name : g.name = fn.name.1
  nParams : g.nParams = fn.nParams.toNat
  nLocals : g.nLocals = fn.nLocals.toNat
  nUpvalues : g.nUpvalues = fn.nUpvalues.toNat
  codeLen : g.codeLen = fn.code.length
  code : List.Forall₂ (SameInstr fn g.codeOffset) fn.code
    ((code.drop g.codeOffset).take g.codeLen)

/-- The loaded module is the writer's. -/
structure SameModule (m : ModuleDef) (mod : EskbModule) : Prop where
  consts : ∃ ls, mod.consts = some ls ∧ List.Forall₂ SameConst m.constants ls
  functions : ∃ gs, mod.functions = some gs ∧ List.Forall₂ (SameFunction mod.code) m.functions gs
  code : mod.code.length = (m.functions.map fun fn => fn.code.length).sum
  source : mod.sourceFile = m.sourceFile.map Subtype.val

/-! ### Sizes -/

/-- The bytes of a string with its length. -/
def stringSize (s : Bytes) : ℕ := (writeSize s.length).length + s.length

/-- The bytes of a constant. -/
def EskbConst.size (c : EskbConst) : ℕ :=
  1 + (if c.type = 0 then 0 else if c.type = 1 ∨ c.type = 2 then 8
    else if c.type = 3 then 1 else stringSize c.str)

/-- The bytes of an instruction: its opcode and its zigzag operand. -/
def EskbFunctionDef.instrSize (fn : EskbFunctionDef) (i : EskbInstr) : ℕ :=
  1 + (eskbWriteLeb128 (zigzag (fn.relative i).operand)).length

/-- The bytes of a function. -/
def EskbFunctionDef.size (fn : EskbFunctionDef) : ℕ :=
  stringSize fn.name.1 + (1 + ((eskbWriteLeb128 fn.nLocals.toUInt64).length +
    ((eskbWriteLeb128 fn.nUpvalues.toUInt64).length +
      ((writeSize fn.code.length).length + (fn.code.map fn.instrSize).sum))))

/-- The bytes of the `CONST` section. -/
def ModuleDef.constSize (m : ModuleDef) : ℕ :=
  (writeSize m.constants.length).length + (m.constants.map EskbConst.size).sum

/-- The bytes of the `CODE` section. -/
def ModuleDef.codeSize (m : ModuleDef) : ℕ :=
  (writeSize m.functions.length).length + (m.functions.map EskbFunctionDef.size).sum

/-- The bytes of a section of `n` bytes and of its entry in the section table. -/
def sectionSize (n : ℕ) : ℕ := 1 + (writeSize n).length + n

/-- The bytes of everything after the header. -/
def ModuleDef.payloadSize (m : ModuleDef) : ℕ :=
  1 + sectionSize m.constSize + sectionSize m.codeSize +
    (match m.sourceFile with
    | none => 0
    | some s => sectionSize (stringSize s.1))

/-- The modules that can be loaded once they are written. -/
structure Loadable (m : ModuleDef) : Prop where
  /-- No two functions have one name. -/
  names : m.functions.Pairwise fun f g => f.name ≠ g.name
  /-- There are at most 4096 functions, of one million instructions together. -/
  count : m.functions.length ≤ 4096
  total : (m.functions.map fun fn => fn.code.length).sum ≤ vmMaxCode
  /-- Numbers of locals and of upvalues fit an `int`. -/
  locals : ∀ fn ∈ m.functions, fn.nLocals.toNat ≤ intMax
  upvalues : ∀ fn ∈ m.functions, fn.nUpvalues.toNat ≤ intMax
  /-- Code targets of functions with base zero lie inside the function. -/
  targets : ∀ fn ∈ m.functions, fn.codeBase = 0 → ∀ i ∈ fn.code,
    eskbOperandIsCodeTarget i.op → 0 ≤ i.operand.toInt ∧ i.operand.toInt < fn.code.length
  /-- The source file name has at most 255 bytes. -/
  source : ∀ s, m.sourceFile = some s → s.1.length ≤ 255
  /-- The payload has less than `2 ^ 31` bytes. -/
  size : m.payloadSize < 2 ^ 31

variable {fs : List FunctionEntry} {bs : Bytes} {functions : List Bytes}

/-- The checks on functions, taken one after another, say that each is well formed, that
names differ, and that the code is not too long. -/
theorem admits_functions_iff {mod : EskbModule} (hmod : mod.code.length ≤ vmMaxCode) :
    Admits FunctionEntry.Ok EskbModule.addFunction mod fs ↔
      (∀ f ∈ fs, f.name ≠ [] ∧ f.name.length ≤ 255 ∧ f.nLocals ≤ intMax ∧
        f.nUpvalues ≤ intMax ∧ ∀ i ∈ f.code, eskbOperandIsCodeTarget i.op →
          0 ≤ i.operand ∧ i.operand < f.code.length) ∧
      (∀ f ∈ fs, ∀ g ∈ mod.fns, cstr g.name ≠ cstr f.name) ∧
      (fs.Pairwise fun f g => cstr f.name ≠ cstr g.name) ∧
      mod.code.length + (fs.map fun f => f.code.length).sum ≤ vmMaxCode := by
  induction fs generalizing mod with
  | nil => simp [Admits, hmod]
  | cons f fs ih =>
    rw [Admits]
    constructor
    · rintro ⟨hf, hfs⟩
      have htot := hf.total
      obtain ⟨hwf, hfresh, hpair, hsum⟩ := (ih (by simpa using htot)).mp hfs
      refine ⟨?_, ?_, ?_, ?_⟩
      · rw [List.forall_mem_cons]
        exact ⟨⟨hf.name_ne, hf.name_le, hf.locals, hf.upvalues, hf.targets⟩, hwf⟩
      · rw [List.forall_mem_cons]
        refine ⟨hf.fresh, fun g hg g' hg' => hfresh g hg g' ?_⟩
        rw [fns_addFunction]
        exact List.mem_append_left _ hg'
      · rw [List.pairwise_cons]
        have hmem := List.mem_append_right mod.fns (List.mem_singleton_self
          (⟨f.name, f.nParams.toNat, f.nLocals, f.nUpvalues, mod.code.length,
            f.code.length⟩ : EskbFunction))
        exact ⟨fun g hg => hfresh g hg _ hmem, hpair⟩
      · rw [code_addFunction, List.length_append, List.length_map] at hsum
        rw [List.map_cons, List.sum_cons]
        omega
    · rintro ⟨hwf, hfresh, hpair, hsum⟩
      rw [List.forall_mem_cons] at hwf hfresh
      rw [List.pairwise_cons] at hpair
      rw [List.map_cons, List.sum_cons] at hsum
      obtain ⟨⟨hne, hle, hl, hu, ht⟩, hwf⟩ := hwf
      have htot : mod.code.length + f.code.length ≤ vmMaxCode := by omega
      refine ⟨⟨hne, hle, hfresh.1, hl, hu, htot, ht⟩, (ih (by simpa using htot)).mpr
        ⟨hwf, ?_, hpair.2, ?_⟩⟩
      · intro g hg g' hg'
        rw [fns_addFunction, List.mem_append, List.mem_singleton] at hg'
        rcases hg' with hg' | rfl
        · exact hfresh.2 g hg g' hg'
        · exact hpair.1 g hg
      · rw [code_addFunction, List.length_append, List.length_map]
        omega

/-- A function of the file, in a module of the given code. -/
structure Placed (code : List Instr) (f : FunctionEntry) (g : EskbFunction) : Prop where
  name : g.name = f.name
  nParams : g.nParams = f.nParams.toNat
  nLocals : g.nLocals = f.nLocals
  nUpvalues : g.nUpvalues = f.nUpvalues
  codeLen : g.codeLen = f.code.length
  code : (code.drop g.codeOffset).take g.codeLen = f.code.map (Instr.relocate g.codeOffset)

theorem foldl_addFunction_placed (fs : List FunctionEntry) (mod : EskbModule) :
    ∃ gs tail, (fs.foldl EskbModule.addFunction mod).fns = mod.fns ++ gs ∧
      (fs.foldl EskbModule.addFunction mod).code = mod.code ++ tail ∧
      tail.length = (fs.map fun f => f.code.length).sum ∧
      List.Forall₂ (Placed (mod.code ++ tail)) fs gs := by
  induction fs generalizing mod with
  | nil => exact ⟨[], [], by simp, by simp, rfl, .nil⟩
  | cons f fs ih =>
    obtain ⟨gs, tail, hfns, hcode, hlen, hplaced⟩ := ih (mod.addFunction f)
    rw [List.foldl_cons, hfns, hcode]
    simp only [fns_addFunction, code_addFunction, List.append_assoc] at hplaced ⊢
    refine ⟨_, _, rfl, rfl, ?_, .cons ?_ hplaced⟩
    · simp [hlen]
    · refine ⟨rfl, rfl, rfl, rfl, rfl, ?_⟩
      simp only
      rw [List.drop_left, List.take_left' (List.length_map _)]

theorem foldl_addFunction_rest (fs : List FunctionEntry) (mod : EskbModule) :
    (fs.foldl EskbModule.addFunction mod).sourceFile = mod.sourceFile ∧
      (fs.foldl EskbModule.addFunction mod).consts = mod.consts ∧
      (mod.functions = some mod.fns → (fs.foldl EskbModule.addFunction mod).functions =
        some (fs.foldl EskbModule.addFunction mod).fns) := by
  induction fs generalizing mod with
  | nil => exact ⟨rfl, rfl, id⟩
  | cons f fs ih =>
    obtain ⟨hsource, hconsts, hfns⟩ := ih (mod.addFunction f)
    exact ⟨hsource, hconsts, fun _ => hfns rfl⟩

/-! ### What is loaded is what was written -/

theorem sameConst_load {c : EskbConst} (hc : c.supported) : SameConst c c.content.load := by
  obtain ⟨type, as, str, hstr⟩ := c
  simp only [EskbConst.supported, Bool.or_eq_true, beq_iff_eq] at hc
  rcases hc with (((rfl | rfl) | rfl) | rfl) | rfl
  · exact ⟨rfl, by simp, by simp, by simp, by simp⟩
  · exact ⟨rfl, fun _ => rfl, by simp, by simp, by simp⟩
  · exact ⟨rfl, by simp, fun _ => rfl, by simp, by simp⟩
  · refine ⟨rfl, by simp, by simp, fun _ => ?_, by simp⟩
    change (if as.toNat % 2 ^ 32 = 0 then (0 : UInt8) else 1).toUInt64 ≠ 0 ↔ _
    by_cases h : as.toNat % 2 ^ 32 = 0
    · rw [if_pos h]
      exact ⟨fun h0 => absurd rfl h0, fun h' => absurd h h'⟩
    · rw [if_neg h]
      exact ⟨fun _ => h, fun _ => by decide⟩
  · refine ⟨rfl, by simp, by simp, by simp, fun _ => ⟨rfl, ?_⟩⟩
    exact UInt64.toNat_ofNat_of_lt' (lt_of_le_of_lt hstr (by norm_num [UInt64.size]))

theorem sameInstr_relocate (fn : EskbFunctionDef) (offset : ℕ) (i : EskbInstr) :
    SameInstr fn offset i ((fn.relative i).relocate offset) := by
  by_cases ht : eskbOperandIsCodeTarget i.op
  · refine ⟨op_relocate _ _, fun h => absurd ht h, fun _ => ?_⟩
    simp [Instr.relocate, EskbFunctionDef.relative, ht]
  · refine ⟨op_relocate _ _, fun _ => ?_, fun h => absurd h ht⟩
    simp [Instr.relocate, EskbFunctionDef.relative, ht]

theorem sameFunction_of_placed {code : List Instr} {fn : EskbFunctionDef} {g : EskbFunction}
    (h : Placed code fn.entry g) : SameFunction code fn g where
  name := h.name
  nParams := h.nParams
  nLocals := h.nLocals
  nUpvalues := h.nUpvalues
  codeLen := by simpa [EskbFunctionDef.entry] using h.codeLen
  code := by
    rw [h.code, EskbFunctionDef.entry, List.map_map, List.forall₂_map_right_iff, List.forall₂_same]
    exact fun i _ => sameInstr_relocate fn g.codeOffset i

theorem sameModule_contents {m : ModuleDef} (hsup : ∀ c ∈ m.constants, c.supported) :
    SameModule m (m.contents.foldl EskbModule.add EskbModule.empty) := by
  obtain ⟨constants, functions, sourceFile, _, _⟩ := m
  set mod₀ : EskbModule :=
    ⟨[], some ((constants.map EskbConst.content).map Const.load), some [], none⟩
  obtain ⟨gs, tail, hfns, hcode, hlen, hplaced⟩ :=
    foldl_addFunction_placed (functions.map EskbFunctionDef.entry) mod₀
  obtain ⟨hsource, hconsts, hfunctions⟩ :=
    foldl_addFunction_rest (functions.map EskbFunctionDef.entry) mod₀
  set mod₁ := (functions.map EskbFunctionDef.entry).foldl EskbModule.addFunction mod₀
  have hsame : SameModule ⟨constants, functions, none, by assumption, by assumption⟩ mod₁ := by
    refine ⟨⟨_, hconsts, ?_⟩, ⟨gs, ?_, ?_⟩, ?_, hsource⟩
    · rw [List.map_map, List.forall₂_map_right_iff, List.forall₂_same]
      exact fun c hc => sameConst_load (hsup c hc)
    · rw [hfunctions rfl, hfns]
      rfl
    · rw [hcode]
      exact (List.forall₂_map_left_iff.mp hplaced).imp fun _ _ => sameFunction_of_placed
    · rw [hcode, List.length_append, hlen, List.map_map]
      simp [mod₀, EskbFunctionDef.entry, Function.comp_def]
  cases sourceFile with
  | none => exact hsame
  | some s => exact ⟨hsame.consts, hsame.functions, hsame.code, rfl⟩

/-! ### Sizes of what is written -/

theorem length_flatten_of_forall₂ {α : Type} {f : α → ℕ} {as : List α} {bss : List Bytes}
    (h : List.Forall₂ (fun a bs => bs.length = f a) as bss) :
    bss.flatten.length = (as.map f).sum := by
  induction h with
  | nil => rfl
  | cons ha _ ih => rw [List.flatten_cons, List.length_append, ha, ih, List.map_cons, List.sum_cons]

theorem length_eskbWriteConst {c : EskbConst} (hc : c.supported) :
    (eskbWriteConst c).length = c.size := by
  obtain ⟨type, as, str, hstr⟩ := c
  simp only [EskbConst.supported, Bool.or_eq_true, beq_iff_eq] at hc
  rcases hc with (((rfl | rfl) | rfl) | rfl) | rfl <;>
    simp [eskbWriteConst, EskbConst.size, eskbBufWriteString, stringSize, Nat.add_comm]

theorem length_eskbWriteFunction {fn : EskbFunctionDef} (h : eskbWriteFunction fn = .ok bs) :
    bs.length = fn.size := by
  rw [eskbWriteFunction] at h
  split at h
  · cases h
  split at h
  · cases h
  obtain ⟨code, hcode, h⟩ := bind_eq_ok.mp h
  obtain rfl := Except.ok.inj h
  have hlen := length_flatten_of_forall₂ (f := fn.instrSize)
    ((mapM_eq_ok.mp hcode).imp fun i bs h => by
      rw [(eskbWriteCode_spec h).1, eskbWriteInstruction, List.length_cons, Nat.add_comm]
      rfl)
  simp only [List.length_append, List.length_cons, hlen, eskbBufWriteString,
    EskbFunctionDef.size, stringSize]
  omega

theorem length_constBuf {m : ModuleDef} (hsup : ∀ c ∈ m.constants, c.supported) :
    m.constBuf.length = m.constSize := by
  have hconst : (m.constants.map eskbWriteConst).flatten.length =
      (m.constants.map EskbConst.size).sum := by
    apply length_flatten_of_forall₂
    rw [List.forall₂_map_right_iff, List.forall₂_same]
    exact fun c hc => length_eskbWriteConst (hsup c hc)
  rw [ModuleDef.constBuf, List.length_append, hconst, ModuleDef.constSize]

theorem length_codeBuf {m : ModuleDef} (hfns : m.functions.mapM eskbWriteFunction = .ok functions) :
    (m.codeBuf functions).length = m.codeSize := by
  have hcode : functions.flatten.length = (m.functions.map EskbFunctionDef.size).sum :=
    length_flatten_of_forall₂ ((mapM_eq_ok.mp hfns).imp fun fn bs h =>
      length_eskbWriteFunction h)
  rw [ModuleDef.codeBuf, List.length_append, hcode, ModuleDef.codeSize]

theorem length_eskbPayload {m : ModuleDef}
    (hfns : m.functions.mapM eskbWriteFunction = .ok functions)
    (hsup : ∀ c ∈ m.constants, c.supported) :
    (eskbPayload (m.sections functions)).length = m.payloadSize := by
  have hconst := length_constBuf hsup
  have hcode := length_codeBuf hfns
  have hone : (writeSize 2).length = 1 ∧ (writeSize 3).length = 1 := by decide
  rw [ModuleDef.sections, ModuleDef.payloadSize]
  cases m.sourceFile with
  | none =>
    simp only [eskbSections, eskbPayload, List.length_append, List.length_cons, List.map_cons,
      List.map_nil, List.flatten_cons, List.flatten_nil, List.length_nil, hconst, hcode,
      sectionSize, hone.1]
    omega
  | some s =>
    simp only [eskbSections, eskbPayload, List.length_append, List.length_cons, List.map_cons,
      List.map_nil, List.flatten_cons, List.flatten_nil, List.length_nil, hconst, hcode,
      sectionSize, eskbBufWriteString, stringSize, hone.2]
    omega

/-- The functions of a module before the loader has read any. -/
def noFunctions (m : ModuleDef) : EskbModule :=
  ⟨[], some ((m.constants.map EskbConst.content).map Const.load), some [], none⟩

theorem admits_contents_iff (m : ModuleDef) :
    Admits (fun mod c => c.Ok mod) EskbModule.add EskbModule.empty m.contents ↔
      m.functions.length ≤ 4096 ∧
      Admits FunctionEntry.Ok EskbModule.addFunction (noFunctions m)
        (m.functions.map EskbFunctionDef.entry) ∧
      ∀ s, m.sourceFile = some s → s.1.length ≤ 255 := by
  have hnc := m.nConstants_lt
  obtain ⟨constants, functions, sourceFile, _, _⟩ := m
  have hrest := foldl_addFunction_rest (functions.map EskbFunctionDef.entry)
    ⟨[], some ((constants.map EskbConst.content).map Const.load), some [], none⟩
  have hconsts : (Content.consts (constants.map EskbConst.content)).Ok EskbModule.empty := by
    refine ⟨?_, rfl⟩
    rw [List.length_map, intMax]
    exact Nat.le_sub_one_of_lt hnc
  cases sourceFile with
  | none =>
    constructor
    · rintro ⟨-, ⟨hcount, -, hfs⟩, -⟩
      exact ⟨by simpa using hcount, hfs, by simp⟩
    · rintro ⟨hcount, hfs, -⟩
      exact ⟨hconsts, ⟨by simpa using hcount, rfl, hfs⟩, trivial⟩
  | some s =>
    constructor
    · rintro ⟨-, ⟨hcount, -, hfs⟩, ⟨hs, -⟩, -⟩
      refine ⟨by simpa using hcount, hfs, ?_⟩
      rintro _ ⟨⟩
      exact hs
    · rintro ⟨hcount, hfs, hs⟩
      exact ⟨hconsts, ⟨by simpa using hcount, rfl, hfs⟩, ⟨hs s rfl, hrest.1⟩, trivial⟩

/-- When the loader admits the functions of a chunk. -/
theorem admits_entries_iff {m : ModuleDef}
    (hfns : m.functions.mapM eskbWriteFunction = .ok functions) :
    Admits FunctionEntry.Ok EskbModule.addFunction (noFunctions m)
        (m.functions.map EskbFunctionDef.entry) ↔
      (m.functions.Pairwise fun f g => f.name ≠ g.name) ∧
      (m.functions.map fun fn => fn.code.length).sum ≤ vmMaxCode ∧
      (∀ fn ∈ m.functions, fn.nLocals.toNat ≤ intMax) ∧
      (∀ fn ∈ m.functions, fn.nUpvalues.toNat ≤ intMax) ∧
      ∀ fn ∈ m.functions, fn.codeBase = 0 → ∀ i ∈ fn.code, eskbOperandIsCodeTarget i.op →
        0 ≤ i.operand.toInt ∧ i.operand.toInt < fn.code.length := by
  have hcstr (fn : EskbFunctionDef) : cstr fn.name.1 = fn.name.1 := cstr_of_not_mem fn.name.2
  have hbase {fn : EskbFunctionDef} (hb : fn.codeBase = 0) {i : EskbInstr}
      (ht : eskbOperandIsCodeTarget i.op) : (fn.relative i).operand = i.operand.toInt := by
    simp [EskbFunctionDef.relative, ht, hb]
  rw [admits_functions_iff (Nat.zero_le _)]
  simp only [List.forall_mem_map, List.pairwise_map, List.map_map, Function.comp_def,
    EskbFunctionDef.entry, List.length_map, hcstr, noFunctions, List.length_nil, Nat.zero_add,
    ne_eq, Subtype.val_inj]
  constructor
  · rintro ⟨hwf, -, hpair, hsum⟩
    refine ⟨hpair, hsum, fun fn hfn => (hwf fn hfn).2.2.1, fun fn hfn => (hwf fn hfn).2.2.2.1, ?_⟩
    intro fn hfn hb i hi ht
    have := (hwf fn hfn).2.2.2.2 i hi ht
    rwa [hbase hb ht] at this
  · rintro ⟨hpair, hsum, hl, hu, ht⟩
    refine ⟨fun fn hfn => ?_, by simp [EskbModule.fns], hpair, hsum⟩
    obtain ⟨hne, hle, hrel⟩ := checked_of_mem hfns hfn
    refine ⟨hne, hle, hl fn hfn, hu fn hfn, fun i hi htgt => ?_⟩
    by_cases hb : fn.codeBase = 0
    · have := ht fn hfn hb i hi htgt
      change 0 ≤ (fn.relative i).operand ∧ (fn.relative i).operand < _
      rwa [hbase hb htgt]
    · exact hrel hb i hi htgt

/-! ### Sizes the loader accepts -/

theorem Leb.length_le {v : ℕ} (h : Leb bs v) : bs.length ≤ 10 := h.1

theorem IsInstr.length_le {i : Instr} (h : IsInstr bs i) : bs.length ≤ 11 := by
  obtain ⟨n, z, rfl, hn, -⟩ := h
  have := hn.length_le
  simp only [List.length_cons]
  omega

theorem IsFunction.length_le {f : FunctionEntry} (h : IsFunction bs f) :
    bs.length ≤ 41 + f.name.length + 11 * f.code.length := by
  obtain ⟨nm, l, u, c, rfl, ⟨n, rfl, hn⟩, hl, hu, k, code, rfl, hk, hcode⟩ := h
  have hcode := hcode.length_le (f := fun _ => 11) fun _ _ h => h.length_le
  have := hn.length_le
  have := hl.length_le
  have := hu.length_le
  have := hk.length_le
  simp only [List.map_const', List.sum_replicate_nat] at hcode
  simp only [List.length_append, List.length_cons]
  omega

theorem sum_function_bounds (hname : ∀ f ∈ fs, f.name.length ≤ 255) :
    (fs.map fun f => 41 + f.name.length + 11 * f.code.length).sum ≤
      296 * fs.length + 11 * (fs.map fun f => f.code.length).sum := by
  induction fs with
  | nil => simp
  | cons f fs ih =>
    obtain ⟨hf, hfs⟩ := List.forall_mem_cons.mp hname
    have := ih hfs
    rw [List.map_cons, List.sum_cons, List.map_cons, List.sum_cons, List.length_cons]
    omega

theorem length_code_section_le (h : Counted IsFunction bs fs)
    (hname : ∀ f ∈ fs, f.name.length ≤ 255) :
    bs.length ≤ 10 + (296 * fs.length + 11 * (fs.map fun f => f.code.length).sum) := by
  obtain ⟨n, body, rfl, hn, hbody⟩ := h
  have hbody := hbody.length_le fun _ _ h => h.length_le
  have hsum := sum_function_bounds hname
  have := hn.length_le
  rw [List.length_append]
  omega

theorem length_code_section (h : Counted IsFunction bs fs) (hcount : fs.length ≤ 4096)
    (hname : ∀ f ∈ fs, f.name.length ≤ 255)
    (htotal : (fs.map fun f => f.code.length).sum ≤ vmMaxCode) : bs.length < 2 ^ 24 := by
  have := length_code_section_le h hname
  rw [vmMaxCode] at htotal
  omega

theorem length_writeSize_le (n : ℕ) : (writeSize n).length ≤ 10 := (leb_eskbWriteLeb128 _).1

/-- A written payload that passes the loader's checks has less than `2 ^ 31` bytes: only the
constants can make it larger, and a larger `CONST` section or payload has a negative size as
an `int`. -/
theorem payloadSize_lt {m : ModuleDef} (hfns : m.functions.mapM eskbWriteFunction = .ok functions)
    (hadm : Admits (fun mod c => c.Ok mod) EskbModule.add EskbModule.empty m.contents)
    (hconst : m.constSize < 2 ^ 31) (hint : m.payloadSize % 2 ^ 32 < 2 ^ 31) :
    m.payloadSize < 2 ^ 31 := by
  obtain ⟨hcount, hfs, hsource⟩ := (admits_contents_iff m).mp hadm
  obtain ⟨-, htotal, -⟩ := (admits_entries_iff hfns).mp hfs
  have hcode : m.codeSize < 2 ^ 24 := by
    rw [← length_codeBuf hfns]
    refine length_code_section (counted_codeBuf hfns) (by simpa using hcount) ?_ ?_
    · rw [List.forall_mem_map]
      exact fun fn hfn => (checked_of_mem hfns hfn).2.1
    · simpa [Function.comp_def, EskbFunctionDef.entry] using htotal
  have hsmall : m.payloadSize < 2 ^ 31 + 2 ^ 25 := by
    have h₁ := length_writeSize_le m.constSize
    have h₂ := length_writeSize_le m.codeSize
    rw [ModuleDef.payloadSize]
    split
    next => simp only [sectionSize]; omega
    next s hs =>
      have h₃ := length_writeSize_le (stringSize s.1)
      have h₄ := length_writeSize_le s.1.length
      have h₅ := hsource s hs
      simp only [sectionSize]
      simp only [stringSize] at h₃ ⊢
      omega
  omega

/-! ### The round trip -/

theorem eskbLoadMemory_header (payload : Bytes) :
    eskbLoadMemory (eskbHeader payload ++ payload) = eskbParsePayload payload := by
  have hcrc := (eskbCrc32 payload).toNat_lt
  have hdrop : (eskbHeader payload ++ payload).drop 16 = payload :=
    List.drop_left' (by simp [eskbHeader])
  have hmagic : leValue ((eskbHeader payload ++ payload).take 4) = 0x45534B42 := by
    rw [eskbHeader, List.append_assoc, List.take_left' (by simp), leValue_littleEndian]
    norm_num
  have hversion : leValue (((eskbHeader payload ++ payload).drop 4).take 4) = 2 := by
    rw [eskbHeader, List.append_assoc, List.drop_left' (by simp), List.append_assoc,
      List.take_left' (by simp), leValue_littleEndian]
    norm_num
  have hsum : leValue (((eskbHeader payload ++ payload).drop 12).take 4) =
      (eskbCrc32 payload).toNat := by
    rw [eskbHeader, ← List.append_assoc, ← List.append_assoc, List.append_assoc _ _ payload,
      List.drop_left' (by simp), List.take_left' (by simp), leValue_littleEndian,
      Nat.mod_eq_of_lt (by omega)]
  have hlen : ¬ (eskbHeader payload ++ payload).length < 16 := by
    simp only [eskbHeader, List.length_append, length_littleEndian]
    omega
  rw [eskbLoadMemory, hdrop, if_neg hlen, if_neg (not_not.mpr hmagic),
    if_neg (not_not.mpr hversion), if_neg (not_not.mpr hsum)]

section

variable {m : ModuleDef} {data : Bytes} (h : eskbWriteFileWithFunctions m = .ok data)
include h

theorem loadable_of_load {mod : EskbModule} (hmod : eskbLoadMemory data = some mod) :
    Loadable m := by
  obtain ⟨functions, hfns, hsup, hlen, rfl⟩ := eskbWriteFileWithFunctions_eq_ok h
  obtain ⟨htable, hsections⟩ := isSection_sections hfns hsup hlen
  rw [eskbLoadMemory_header] at hmod
  obtain ⟨hint, ds, file, htable', -, -, hsmall, hfile, hadm, -⟩ := eskbParsePayload_sound hmod
  -- the payload stands for the written sections, and for no others
  obtain rfl := htable.unique htable'
  obtain rfl := IsPayload.unique ⟨_, htable, hsections⟩ ⟨_, htable, hfile⟩
  obtain ⟨hcount, hfs, hsource⟩ := (admits_contents_iff m).mp hadm
  obtain ⟨hnames, htotal, hl, hu, ht⟩ := (admits_entries_iff hfns).mp hfs
  have hconst := hsmall (0, m.constBuf) List.mem_cons_self (.inl rfl)
  rw [length_constBuf hsup] at hconst
  rw [length_eskbPayload hfns hsup] at hint
  exact ⟨hnames, hcount, htotal, hl, hu, ht, hsource, payloadSize_lt hfns hadm hconst hint⟩

theorem load_of_loadable (hload : Loadable m) :
    eskbLoadMemory data = some (m.contents.foldl EskbModule.add EskbModule.empty) := by
  obtain ⟨functions, hfns, hsup, hlen, rfl⟩ := eskbWriteFileWithFunctions_eq_ok h
  obtain ⟨htable, hsections⟩ := isSection_sections hfns hsup hlen
  rw [eskbLoadMemory_header]
  refine eskbParsePayload_complete htable ?_ hsections ?_
    (length_eskbPayload hfns hsup ▸ hload.size)
  · exact (length_eskbSections _ _ _).trans (by omega)
  · exact (admits_contents_iff m).mpr ⟨hload.count, (admits_entries_iff hfns).mpr
      ⟨hload.names, hload.total, hload.locals, hload.upvalues, hload.targets⟩, hload.source⟩

end

/-- **The round trip of bytecode modules.** A module that is written is loaded back as it was
exactly when it is loadable. -/
theorem eskbLoadMemory_written_iff {m : ModuleDef} {data : Bytes}
    (h : eskbWriteFileWithFunctions m = .ok data) :
    (∃ mod, eskbLoadMemory data = some mod ∧ SameModule m mod) ↔ Loadable m := by
  constructor
  · rintro ⟨mod, hmod, -⟩
    exact loadable_of_load h hmod
  · intro hload
    obtain ⟨_, _, hsup, _, _⟩ := eskbWriteFileWithFunctions_eq_ok h
    exact ⟨_, load_of_loadable h hload, sameModule_contents hsup⟩

/-- A module of functions with the given names, each of one instruction. -/
def namedModule (names : List CString) (h : names.length < 2 ^ 31) : ModuleDef where
  constants := [⟨1, 42, [], by decide⟩]
  functions := names.map fun name => ⟨name, 0, 0, 0, [⟨0, 7⟩], 0, by decide⟩
  sourceFile := none
  nConstants_lt := by decide
  nFunctions_lt := by simpa using h

theorem eskbLoadMemory_written_iff_main :
    ∃ data, eskbWriteFileWithFunctions (namedModule [⟨[109], by decide⟩] (by decide)) = .ok data ∧
      ((∃ mod, eskbLoadMemory data = some mod ∧
        SameModule (namedModule [⟨[109], by decide⟩] (by decide)) mod) ↔
          Loadable (namedModule [⟨[109], by decide⟩] (by decide))) := by
  have h : ∃ data, eskbWriteFileWithFunctions (namedModule [⟨[109], by decide⟩] (by decide)) =
      .ok data := ⟨_, rfl⟩
  obtain ⟨data, hdata⟩ := h
  exact ⟨data, hdata, eskbLoadMemory_written_iff hdata⟩

/-- The whole program is written as `main`, and so is a procedure of that name. -/
def twoMains : ModuleDef :=
  namedModule [⟨[109, 97, 105, 110], by decide⟩, ⟨[109, 97, 105, 110], by decide⟩] (by decide)

/-- Two functions of one name are written, and cannot be loaded. -/
theorem eskbLoadMemory_same_name :
    ∃ data, eskbWriteFileWithFunctions twoMains = .ok data ∧
      ¬ ∃ mod, eskbLoadMemory data = some mod ∧ SameModule twoMains mod := by
  obtain ⟨data, hdata, hnone⟩ : ∃ data, eskbWriteFileWithFunctions twoMains = .ok data ∧
      eskbLoadMemory data = none := ⟨_, rfl, by decide +kernel⟩
  refine ⟨data, hdata, ?_⟩
  rintro ⟨mod, hmod, -⟩
  rw [hnone] at hmod
  cases hmod

end Eshkol.Eskb
