import Mathlib.Data.List.Nodup
import Eshkol.Eskb.RoundTrip

/-!
# Emitting a Compiled Program

`emit_eskb_from_chunk` (`lib/backend/eshkol_vm.c`) writes the chunk that the compiler has made
of a program as a bytecode file. The whole program is the function `main`, and every top-level
procedure that `chunk_add_entry` (`lib/backend/vm_parser.c`) has recorded is written a second
time, as a function of its own.

A later definition of a name replaces the earlier one in the table, and the compiler does not
record a procedure of the name `main`, so that no two functions have one name. The loader has
two more limits that nothing in the emitter looks at: 4096 functions, and one million
instructions of all functions together. A program that is over them is written to a file that
cannot be loaded.
-/

namespace Eshkol.Eskb

open Codec Machine

/-! ### The compiler's chunk -/

/-- A constant of a chunk, as far as the emitter looks at it. Numbers are 64-bit patterns. -/
inductive ChunkValue : Type
  | nil
  | int (i : UInt64)
  | float (f : UInt64)
  | bool (b : UInt32)
  | float32 (f : UInt32)
  | other (type : UInt8) (as : UInt64)
  deriving DecidableEq

/-- `ChunkEntry`: a top-level procedure with the place of its code. -/
structure ChunkEntry where
  name : CString
  nParams : Int32
  nLocals : Int32
  nUpvalues : Int32
  codeOffset : Int32
  codeLen : Int32
  deriving DecidableEq

/-- Records an entry under its name: a later one takes the place of an earlier one. -/
def recordEntry (e : ChunkEntry) : List ChunkEntry → List ChunkEntry
  | [] => [e]
  | d :: ds => if d.name = e.name then e :: ds else d :: recordEntry e ds

def chunkAddEntry (entries : List ChunkEntry) (e : ChunkEntry) : Option (List ChunkEntry) :=
  if e.name.1 = [] ∨ e.codeOffset.toInt < 0 ∨ e.codeLen.toInt ≤ 0 then none
  else if e.nParams.toInt < 0 ∨ 255 < e.nParams.toInt then none
  else if e.nLocals.toInt < 0 ∨ e.nUpvalues.toInt < 0 then none
  else some (recordEntry e entries)

theorem zero_notMem_main : (0 : UInt8) ∉ [109, 97, 105, 110] := by decide

/-- The name of the whole program. -/
def mainName : CString := ⟨[109, 97, 105, 110], zero_notMem_main⟩

/-- The tables that `compile_form_define` makes: a procedure named `main` is not recorded. -/
inductive Registered : List ChunkEntry → Prop
  | nil : Registered []
  | add {es es' : List ChunkEntry} {e : ChunkEntry} (h : Registered es) (hname : e.name ≠ mainName)
      (hadd : chunkAddEntry es e = some es') : Registered es'

/-- `FuncChunk`, as far as the emitter looks at it. Counts are `int`s. -/
structure FuncChunk where
  code : List EskbInstr
  constants : List ChunkValue
  nLocals : Int32
  entries : List ChunkEntry
  codeLen_lt : code.length < 2 ^ 31
  nConstants_lt : constants.length < 2 ^ 31
  nLocals_nonneg : 0 ≤ nLocals.toInt
  nFunctions_lt : 1 + entries.length < 2 ^ 31
  registered : Registered entries

/-! ### Emission -/

/-- `ESHKOL_VM_IS_PACKED_LITERAL_FID`. -/
def isPackedLiteralFid (fid : ℤ) : Bool :=
  (2000000000 ≤ fid && fid < 2000000000 + 131072 + 1) ||
    (2100000000 ≤ fid && fid < 2100000000 + 131072 + 1)

/-- `validate_eskb_emit_policy`: an embedded program may call the host's natives only. -/
def validateEskbEmitPolicy (c : FuncChunk) (rejectDesktopNativeCalls : Bool) : Bool :=
  !rejectDesktopNativeCalls || !c.code.any fun i =>
    i.op == 37 && (decide (i.operand.toInt < 100000) || isPackedLiteralFid i.operand.toInt)

def vmValueToEskbConst (unknownAsNil : Bool) : ChunkValue → Option EskbConst
  | .float32 _ => none
  | .nil => some ⟨0, 0, [], by simp⟩
  | .int i => some ⟨1, i, [], by simp⟩
  | .float f => some ⟨2, f, [], by simp⟩
  | .bool b => some ⟨3, b.toUInt64, [], by simp⟩
  | .other _ as => some (if unknownAsNil then ⟨0, 0, [], by simp⟩ else ⟨1, as, [], by simp⟩)

/-- The check of an entry in `emit_eskb_from_chunk`. The end of the code is an `int`. -/
def entryFits (c : FuncChunk) (e : ChunkEntry) : Exec Unit Unit := do
  if e.codeOffset.toInt < 0 ∨ e.codeLen.toInt ≤ 0 then .error (.raised ())
  else do
    let stop ← signed 32 (e.codeOffset.toInt + e.codeLen.toInt)
    if (c.code.length : ℤ) < stop ∨ e.nParams.toInt < 0 ∨ 255 < e.nParams.toInt ∨
        e.nUpvalues.toInt < 0 then .error (.raised ())
    else .ok ()

/-- The code of an entry. -/
def FuncChunk.slice (c : FuncChunk) (e : ChunkEntry) : List EskbInstr :=
  (c.code.drop e.codeOffset.toInt.toNat).take e.codeLen.toInt.toNat

theorem FuncChunk.length_slice_lt (c : FuncChunk) (e : ChunkEntry) :
    (c.slice e).length < 2 ^ 31 := by
  have hlen := c.codeLen_lt
  rw [FuncChunk.slice, List.length_take, List.length_drop]
  omega

/-- The function `main`: the whole program. -/
def FuncChunk.mainFunction (c : FuncChunk) : EskbFunctionDef where
  name := mainName
  nParams := 0
  nLocals := UInt32.ofInt c.nLocals.toInt
  nUpvalues := 0
  code := c.code
  codeBase := 0
  codeLen_lt := c.codeLen_lt

/-- The function of an entry. -/
def FuncChunk.entryFunction (c : FuncChunk) (e : ChunkEntry) : EskbFunctionDef where
  name := e.name
  nParams := UInt8.ofInt e.nParams.toInt
  nLocals := UInt32.ofInt e.nLocals.toInt
  nUpvalues := UInt32.ofInt e.nUpvalues.toInt
  code := c.slice e
  codeBase := e.codeOffset
  codeLen_lt := c.length_slice_lt e

/-- What is handed to the writer. -/
def FuncChunk.moduleDef (c : FuncChunk) : ModuleDef where
  constants := c.constants.filterMap (vmValueToEskbConst true)
  functions := c.mainFunction :: c.entries.map c.entryFunction
  sourceFile := none
  nConstants_lt := (List.length_filterMap_le _ _).trans_lt c.nConstants_lt
  nFunctions_lt := by
    have := c.nFunctions_lt
    rw [List.length_cons, List.length_map]
    omega

/-- `emit_eskb_from_chunk`: the bytes of the file. -/
def emitEskbFromChunk (c : FuncChunk) (rejectDesktopNativeCalls : Bool) : Exec Unit Bytes := do
  if !validateEskbEmitPolicy c rejectDesktopNativeCalls then .error (.raised ())
  else if c.constants.any fun v => (vmValueToEskbConst true v).isNone then .error (.raised ())
  else do
    let _ ← c.entries.mapM (entryFits c)
    eskbWriteFileWithFunctions c.moduleDef

/-! ### The table of procedures -/

theorem map_name_recordEntry (e : ChunkEntry) (es : List ChunkEntry) :
    (recordEntry e es).map ChunkEntry.name =
      if e.name ∈ es.map ChunkEntry.name then es.map ChunkEntry.name
      else es.map ChunkEntry.name ++ [e.name] := by
  induction es with
  | nil => rfl
  | cons d ds ih =>
    rw [recordEntry]
    by_cases hd : d.name = e.name
    · simp [hd]
    · rw [if_neg hd, List.map_cons, ih, List.map_cons]
      by_cases hmem : e.name ∈ ds.map ChunkEntry.name
      · rw [if_pos hmem, if_pos (List.mem_cons_of_mem _ hmem)]
      · rw [if_neg hmem, if_neg (mt List.mem_cons.mp (not_or.mpr ⟨Ne.symm hd, hmem⟩))]
        rfl

variable {e : ChunkEntry} {es : List ChunkEntry}

theorem recordEntry_of_notMem (h : e.name ∉ es.map ChunkEntry.name) :
    recordEntry e es = es ++ [e] := by
  induction es with
  | nil => rfl
  | cons d ds ih =>
    rw [List.map_cons, List.mem_cons, not_or] at h
    rw [recordEntry, if_neg (Ne.symm h.1), ih h.2]
    rfl

theorem mem_recordEntry {d : ChunkEntry} (h : d ∈ recordEntry e es) : d ∈ es ∨ d = e := by
  induction es with
  | nil => simpa [recordEntry] using h
  | cons c cs ih =>
    rw [recordEntry] at h
    split at h
    next =>
        rcases List.mem_cons.mp h with rfl | h
        · exact .inr rfl
        · exact .inl (List.mem_cons_of_mem _ h)
    next =>
        rcases List.mem_cons.mp h with rfl | h
        · exact .inl List.mem_cons_self
        · exact (ih h).imp_left (List.mem_cons_of_mem _)

theorem chunkAddEntry_eq_some {es' : List ChunkEntry} :
    chunkAddEntry es e = some es' ↔
      (e.name.1 ≠ [] ∧ 0 ≤ e.codeOffset.toInt ∧ 0 < e.codeLen.toInt ∧ 0 ≤ e.nParams.toInt ∧
        e.nParams.toInt ≤ 255 ∧ 0 ≤ e.nLocals.toInt ∧ 0 ≤ e.nUpvalues.toInt) ∧
      recordEntry e es = es' := by
  rw [chunkAddEntry]
  split_ifs with h₁ h₂ h₃
  · refine iff_of_false (by simp) ?_
    rintro ⟨⟨hn, ho, hl, -⟩, -⟩
    rcases h₁ with h | h | h
    · exact hn h
    · omega
    · omega
  · exact iff_of_false (by simp) (by omega)
  · exact iff_of_false (by simp) (by omega)
  · push Not at h₁ h₂ h₃
    simp only [Option.some.injEq]
    exact ⟨fun h => ⟨⟨h₁.1, h₁.2.1, h₁.2.2, h₂.1, h₂.2, h₃.1, h₃.2⟩, h⟩, fun h => h.2⟩

theorem Registered.distinct (h : Registered es) : (mainName :: es.map ChunkEntry.name).Nodup := by
  induction h with
  | nil => simp
  | @add es es' e _ hname hadd ih =>
    obtain ⟨-, rfl⟩ := chunkAddEntry_eq_some.mp hadd
    rw [map_name_recordEntry]
    split
    next => exact ih
    next hmem =>
        rw [← List.cons_append, List.nodup_append]
        refine ⟨ih, List.nodup_singleton _, ?_⟩
        intro n hn _ hn'
        obtain rfl := List.mem_singleton.mp hn'
        rintro rfl
        rcases List.mem_cons.mp hn with h | h
        · exact hname h
        · exact hmem h

theorem Registered.checked (h : Registered es) {d : ChunkEntry} (hd : d ∈ es) :
    d.name.1 ≠ [] ∧ 0 ≤ d.codeOffset.toInt ∧ 0 < d.codeLen.toInt ∧
      0 ≤ d.nParams.toInt ∧ d.nParams.toInt ≤ 255 ∧ 0 ≤ d.nLocals.toInt ∧
      0 ≤ d.nUpvalues.toInt := by
  induction h with
  | nil => simp at hd
  | add _ _ hadd ih =>
    obtain ⟨hok, rfl⟩ := chunkAddEntry_eq_some.mp hadd
    rcases mem_recordEntry hd with hd | rfl
    · exact ih hd
    · exact hok

/-! ### The program that is loaded -/

/-- The instruction as the loader has it. -/
def EskbInstr.decoded (i : EskbInstr) : Instr := ⟨i.op, i.operand.toInt⟩

/-- The loaded constant is the chunk's. A value of another type has no constant. -/
def ChunkValue.Decodes : ChunkValue → LoadedConst → Prop
  | .nil, l => l.type = 0
  | .int i, l => l.type = 1 ∧ l.int = i
  | .float f, l => l.type = 2 ∧ l.float = f
  | .bool b, l => l.type = 3 ∧ (l.int ≠ 0 ↔ b ≠ 0)
  | .float32 _, _ => False
  | .other _ _, _ => False

/-- The loaded module begins with the code of the chunk and has its constants. -/
structure IsProgram (c : FuncChunk) (mod : EskbModule) : Prop where
  code : mod.code.take c.code.length = c.code.map EskbInstr.decoded
  consts : ∃ ls, mod.consts = some ls ∧ List.Forall₂ ChunkValue.Decodes c.constants ls

/-- The kinds of constants that ESKB has an encoding for. -/
def ChunkValue.encodable : ChunkValue → Bool
  | .float32 _ | .other _ _ => false
  | _ => true

/-- The programs that can be loaded once they are emitted. -/
structure Portable (c : FuncChunk) : Prop where
  /-- Fewer than 4096 procedures are recorded. -/
  count : c.entries.length < 4096
  /-- The program and the recorded procedures have one million instructions together. -/
  total : c.code.length + (c.entries.map fun e => e.codeLen.toInt.toNat).sum ≤ vmMaxCode
  /-- Every constant has an encoding. -/
  encodable : ∀ v ∈ c.constants, v.encodable = true
  /-- Code targets lie inside the program, and inside a procedure that begins it. -/
  targets : ∀ i ∈ c.code, eskbOperandIsCodeTarget i.op →
    0 ≤ i.operand.toInt ∧ i.operand.toInt < c.code.length
  entryTargets : ∀ e ∈ c.entries, e.codeOffset = 0 → ∀ i ∈ c.slice e,
    eskbOperandIsCodeTarget i.op → 0 ≤ i.operand.toInt ∧ i.operand.toInt < (c.slice e).length
  /-- The payload has less than `2 ^ 31` bytes. -/
  size : c.moduleDef.payloadSize < 2 ^ 31

theorem toNat_ofInt_int32 {x : Int32} (h : 0 ≤ x.toInt) :
    (UInt32.ofInt x.toInt).toNat = x.toInt.toNat := by
  have hlt := x.toInt_lt
  rw [UInt32.ofInt, UInt32.toNat_ofNat']
  omega

theorem emitEskbFromChunk_eq_ok {c : FuncChunk} {reject : Bool} {data : Bytes} :
    emitEskbFromChunk c reject = .ok data ↔
      validateEskbEmitPolicy c reject = true ∧
      (∀ v ∈ c.constants, (vmValueToEskbConst true v).isSome) ∧
      (∀ e ∈ c.entries, entryFits c e = .ok ()) ∧
      eskbWriteFileWithFunctions c.moduleDef = .ok data := by
  have hany : (c.constants.any fun v => (vmValueToEskbConst true v).isNone) = false ↔
      ∀ v ∈ c.constants, (vmValueToEskbConst true v).isSome := by
    rw [List.any_eq_false]
    refine forall₂_congr fun v _ => ?_
    cases vmValueToEskbConst true v <;> simp
  rw [emitEskbFromChunk]
  cases validateEskbEmitPolicy c reject with
  | false => simp
  | true =>
    cases hc : c.constants.any fun v => (vmValueToEskbConst true v).isNone with
    | true => simp [← hany, hc]
    | false =>
      simp only [Bool.not_true, Bool.false_eq_true, if_false, bind_eq_ok, true_and]
      constructor
      · rintro ⟨units, hunits, hwrite⟩
        refine ⟨hany.mp hc, fun e he => ?_, hwrite⟩
        obtain ⟨_, hu⟩ := mapM_ok_of_mem hunits he
        exact hu
      · rintro ⟨-, hfits, hwrite⟩
        obtain ⟨units, hunits⟩ := mapM_total fun e he => ⟨(), hfits e he⟩
        exact ⟨units, hunits, hwrite⟩

theorem entryFits_eq_ok {c : FuncChunk} (h : entryFits c e = .ok ()) :
    0 ≤ e.codeOffset.toInt ∧ 0 < e.codeLen.toInt ∧
      e.codeOffset.toInt + e.codeLen.toInt ≤ c.code.length := by
  rw [entryFits] at h
  split at h
  next => cases h
  next hpos =>
      obtain ⟨stop, hstop, h⟩ := bind_eq_ok.mp h
      obtain ⟨rfl, -⟩ := signed_eq_ok_iff.mp hstop
      split at h
      next => cases h
      next => omega

theorem length_slice {c : FuncChunk} (h : entryFits c e = .ok ()) :
    (c.slice e).length = e.codeLen.toInt.toNat := by
  have := entryFits_eq_ok h
  rw [FuncChunk.slice, List.length_take, List.length_drop]
  omega

theorem code_moduleDef (c : FuncChunk) :
    ∃ tail, (c.moduleDef.contents.foldl EskbModule.add EskbModule.empty).code =
      c.code.map EskbInstr.decoded ++ tail := by
  set mod₀ : EskbModule :=
    ⟨[], some ((c.moduleDef.constants.map EskbConst.content).map Const.load), some [], none⟩
  obtain ⟨-, tail, -, hcode, -, -⟩ := foldl_addFunction_placed
    ((c.entries.map c.entryFunction).map EskbFunctionDef.entry)
    (mod₀.addFunction c.mainFunction.entry)
  refine ⟨tail, hcode.trans ?_⟩
  rw [code_addFunction]
  have hmain : c.mainFunction.entry.code.map (Instr.relocate mod₀.code.length) =
      c.code.map EskbInstr.decoded := by
    rw [EskbFunctionDef.entry, List.map_map]
    refine List.map_congr_left fun i _ => ?_
    by_cases ht : eskbOperandIsCodeTarget i.op <;>
      simp [Instr.relocate, EskbFunctionDef.relative, EskbInstr.decoded, ht, mod₀,
        FuncChunk.mainFunction]
  rw [hmain]
  rfl

/-! ### Constants -/

theorem decodes_of_sameConst {v : ChunkValue} {k : EskbConst} {l : LoadedConst}
    (hk : vmValueToEskbConst true v = some k) (hl : SameConst k l) (hv : v.encodable = true) :
    v.Decodes l := by
  cases v with
  | float32 f | other type as => cases hv
  | nil =>
    obtain rfl := Option.some.inj hk
    exact hl.type
  | int i =>
    obtain rfl := Option.some.inj hk
    exact ⟨hl.type, hl.int64 rfl⟩
  | float f =>
    obtain rfl := Option.some.inj hk
    exact ⟨hl.type, hl.f64 rfl⟩
  | bool b =>
    obtain rfl := Option.some.inj hk
    refine ⟨hl.type, (hl.bool rfl).trans ?_⟩
    have hlt := b.toNat_lt
    rw [UInt32.toNat_toUInt64, Nat.mod_eq_of_lt hlt, ← UInt32.toNat_inj.ne]
    rfl

theorem encodable_of_decodes {v : ChunkValue} {l : LoadedConst} (h : v.Decodes l) :
    v.encodable = true := by
  cases v with
  | float32 f | other type as => exact h.elim
  | _ => rfl

theorem forall₂_decodes {vs : List ChunkValue} {ls : List LoadedConst}
    (hsome : ∀ v ∈ vs, (vmValueToEskbConst true v).isSome)
    (henc : ∀ v ∈ vs, v.encodable = true)
    (h : List.Forall₂ SameConst (vs.filterMap (vmValueToEskbConst true)) ls) :
    List.Forall₂ ChunkValue.Decodes vs ls := by
  induction vs generalizing ls with
  | nil => simpa using h
  | cons v vs ih =>
    obtain ⟨k, hk⟩ := Option.isSome_iff_exists.mp (hsome v List.mem_cons_self)
    rw [List.filterMap_cons_some hk] at h
    obtain _ | ⟨hl, hls⟩ := h
    exact .cons (decodes_of_sameConst hk hl (henc v List.mem_cons_self))
      (ih (fun w hw => hsome w (List.mem_cons_of_mem _ hw))
        (fun w hw => henc w (List.mem_cons_of_mem _ hw)) hls)

theorem forall_encodable {vs : List ChunkValue} {ls : List LoadedConst}
    (h : List.Forall₂ ChunkValue.Decodes vs ls) : ∀ v ∈ vs, v.encodable = true := by
  induction h with
  | nil => simp
  | cons hv _ ih => exact List.forall_mem_cons.mpr ⟨encodable_of_decodes hv, ih⟩

/-! ### Loading what was emitted -/

section

variable {c : FuncChunk} (hfits : ∀ e ∈ c.entries, entryFits c e = .ok ())
include hfits

theorem sum_code_lengths :
    (c.moduleDef.functions.map fun fn => fn.code.length).sum =
      c.code.length + (c.entries.map fun e => e.codeLen.toInt.toNat).sum := by
  rw [FuncChunk.moduleDef, List.map_cons, List.sum_cons, List.map_map]
  congr 2
  exact List.map_congr_left fun e he => length_slice (hfits e he)

theorem loadable_moduleDef (h : Portable c) : Loadable c.moduleDef where
  names := by
    have hdistinct := c.registered.distinct
    rw [FuncChunk.moduleDef, List.pairwise_cons, List.pairwise_map, List.forall_mem_map]
    rw [List.nodup_cons, List.Nodup, List.pairwise_map] at hdistinct
    refine ⟨fun e he heq => hdistinct.1 ?_, hdistinct.2⟩
    rw [show mainName = e.name from heq]
    exact List.mem_map_of_mem he
  count := by
    have := h.count
    rw [FuncChunk.moduleDef, List.length_cons, List.length_map]
    omega
  total := by
    rw [sum_code_lengths hfits]
    exact h.total
  locals := by
    rw [FuncChunk.moduleDef, List.forall_mem_cons, List.forall_mem_map]
    refine ⟨?_, fun e he => ?_⟩
    · have := c.nLocals.toInt_lt
      rw [FuncChunk.mainFunction, toNat_ofInt_int32 c.nLocals_nonneg, intMax]
      omega
    · have := e.nLocals.toInt_lt
      rw [FuncChunk.entryFunction, toNat_ofInt_int32 (c.registered.checked he).2.2.2.2.2.1, intMax]
      omega
  upvalues := by
    rw [FuncChunk.moduleDef, List.forall_mem_cons, List.forall_mem_map]
    refine ⟨Nat.zero_le _, fun e he => ?_⟩
    have := e.nUpvalues.toInt_lt
    rw [FuncChunk.entryFunction, toNat_ofInt_int32 (c.registered.checked he).2.2.2.2.2.2, intMax]
    omega
  targets := by
    rw [FuncChunk.moduleDef, List.forall_mem_cons, List.forall_mem_map]
    exact ⟨fun _ => h.targets, h.entryTargets⟩
  source := by rintro s ⟨⟩
  size := h.size

theorem portable_of_loadable (h : Loadable c.moduleDef)
    (henc : ∀ v ∈ c.constants, v.encodable = true) : Portable c where
  count := by
    have := h.count
    rw [FuncChunk.moduleDef, List.length_cons, List.length_map] at this
    omega
  total := by
    rw [← sum_code_lengths hfits]
    exact h.total
  encodable := henc
  targets := h.targets c.mainFunction List.mem_cons_self rfl
  entryTargets e he := h.targets (c.entryFunction e)
    (List.mem_cons_of_mem _ (List.mem_map_of_mem he))
  size := h.size

end

/-- **Emitting and loading a program.** The file that is emitted for a chunk is loaded, with
the instructions and the constants of the chunk, exactly when the program is portable. -/
theorem emitEskbFromChunk_loads_iff {c : FuncChunk} {reject : Bool} {data : Bytes}
    (h : emitEskbFromChunk c reject = .ok data) :
    (∃ mod, eskbLoadMemory data = some mod ∧ IsProgram c mod) ↔ Portable c := by
  obtain ⟨-, hsome, hfits, hwrite⟩ := emitEskbFromChunk_eq_ok.mp h
  constructor
  · rintro ⟨mod, hmod, -, ls, -, hls⟩
    exact portable_of_loadable hfits (loadable_of_load hwrite hmod) (forall_encodable hls)
  · intro hport
    obtain ⟨-, -, hsup, -, -⟩ := eskbWriteFileWithFunctions_eq_ok hwrite
    obtain ⟨tail, htail⟩ := code_moduleDef c
    obtain ⟨⟨ls, hls, hsame⟩, -, -, -⟩ := sameModule_contents hsup
    refine ⟨_, load_of_loadable hwrite (loadable_moduleDef hfits hport), ?_, ls, hls, ?_⟩
    · rw [htail, List.take_left' (List.length_map _)]
    · exact forall₂_decodes hsome hport.encodable hsame

/-! ### A program of too many procedures -/

theorem eskbWriteFunction_total {fn : EskbFunctionDef} (hname : fn.name.1 ≠ [])
    (hlen : fn.name.1.length ≤ 255) (hcode : fn.code ≠ [])
    (htargets : fn.codeBase = 0 ∨ ∀ i ∈ fn.code, eskbOperandIsCodeTarget i.op = false) :
    ∃ bs, eskbWriteFunction fn = .ok bs := by
  obtain ⟨code, hok⟩ : ∃ code, fn.code.mapM (eskbWriteCode fn) = .ok code := by
    refine mapM_total fun i hi => ⟨eskbWriteInstruction i.op i.operand.toInt, ?_⟩
    have hplain : ¬ (fn.codeBase ≠ 0 ∧ eskbOperandIsCodeTarget i.op) := by
      rintro ⟨hbase, htarget⟩
      rcases htargets with h | h
      · exact hbase h
      · rw [h i hi] at htarget
        cases htarget
    rw [eskbWriteCode, if_neg hplain]
  rw [eskbWriteFunction, if_neg (not_or.mpr ⟨hname, hcode⟩), if_neg (Nat.not_lt.mpr hlen), hok]
  exact ⟨_, rfl⟩

theorem totalCodeLen_total {fns : List EskbFunctionDef}
    (h : (fns.map fun fn => fn.code.length).sum < 2 ^ 31) :
    ∃ n, totalCodeLen fns = .ok n := by
  suffices hgen : ∀ total : ℕ, total + (fns.map fun fn => fn.code.length).sum < 2 ^ 31 →
      ∃ n, fns.foldlM (fun (total : ℤ) fn => (signed 32 (total + fn.code.length) : Exec Unit ℤ))
        total = .ok n from hgen 0 (by omega)
  clear h
  induction fns with
  | nil => exact fun total _ => ⟨total, rfl⟩
  | cons fn fns ih =>
    intro total htotal
    rw [List.map_cons, List.sum_cons] at htotal
    have hfn : (signed 32 ((total : ℤ) + fn.code.length) : Exec Unit ℤ) =
        .ok (total + fn.code.length : ℕ) := signed_eq_ok (by omega) (by omega)
    rw [List.foldlM_cons, hfn]
    exact ih _ (by omega)

theorem size_le {k : EskbConst} : k.size ≤ 267 := by
  have hstr := k.str_le
  have := length_writeSize_le k.str.length
  rw [EskbConst.size, stringSize]
  split_ifs <;> omega

/-- A module whose functions can be written is written. -/
theorem eskbWriteFileWithFunctions_total {m : ModuleDef} (hne : m.functions ≠ [])
    (hsup : ∀ k ∈ m.constants, k.supported) (hsource : m.sourceFile = none)
    (hfns : ∀ fn ∈ m.functions, ∃ bs, eskbWriteFunction fn = .ok bs)
    (htotal : (m.functions.map fun fn => fn.code.length).sum < 2 ^ 31) :
    ∃ data, eskbWriteFileWithFunctions m = .ok data := by
  obtain ⟨functions, hok⟩ := mapM_total hfns
  obtain ⟨n, hn⟩ := totalCodeLen_total htotal
  have hconst : m.constSize ≤ 10 + 267 * m.constants.length := by
    have := length_writeSize_le m.constants.length
    have hsum := List.sum_le_card_nsmul (m.constants.map EskbConst.size) 267
      (List.forall_mem_map.mpr fun _ _ => size_le)
    rw [List.length_map, Nat.nsmul_eq_mul] at hsum
    rw [ModuleDef.constSize]
    omega
  have hcode := length_code_section_le (counted_codeBuf hok)
    (List.forall_mem_map.mpr fun fn hfn => (checked_of_mem hok hfn).2.1)
  rw [length_codeBuf hok, List.length_map, List.map_map] at hcode
  have hcode : m.codeSize ≤ 10 + (296 * m.functions.length +
      11 * (m.functions.map fun fn => fn.code.length).sum) := by
    simpa [Function.comp_def, EskbFunctionDef.entry] using hcode
  have hsize : ¬ 2 ^ 63 ≤ (eskbPayload (m.sections functions)).length := by
    have h₁ := length_writeSize_le m.constSize
    have h₂ := length_writeSize_le m.codeSize
    have h₃ := m.nConstants_lt
    have h₄ := m.nFunctions_lt
    rw [length_eskbPayload hok hsup, ModuleDef.payloadSize, hsource]
    simp only [sectionSize]
    omega
  have hall : m.constants.all EskbConst.supported = true := List.all_eq_true.mpr hsup
  rw [eskbWriteFileWithFunctions, if_neg hne, if_neg (not_not.mpr hall), hok]
  change ∃ data, (if 2 ^ 63 ≤ (eskbPayload (m.sections functions)).length then _ else _) = _
  rw [if_neg hsize, hn]
  exact ⟨_, rfl⟩

/-- A letter from `a` to `p`. -/
def letter (k : ℕ) : UInt8 := UInt8.ofNat (97 + k % 16)

theorem toNat_letter (k : ℕ) : (letter k).toNat = 97 + k % 16 := by
  rw [letter, UInt8.toNat_ofNat']
  omega

theorem letter_ne_zero (k : ℕ) : 0 ≠ letter k := by
  intro h
  have h := congrArg UInt8.toNat h
  rw [toNat_letter] at h
  change 0 = _ at h
  omega

/-- The name of the procedure of a number below 4096. -/
def procName (i : ℕ) : CString :=
  ⟨[102, letter (i / 256), letter (i / 16), letter i], by simp [letter_ne_zero]⟩

theorem procName_inj {i j : ℕ} (hi : i < 4096) (hj : j < 4096) (h : procName i = procName j) :
    i = j := by
  have h := congrArg Subtype.val h
  simp only [procName, List.cons.injEq, ← UInt8.toNat_inj, toNat_letter] at h
  omega

/-- The code of the definition `(define (f...) #t)`: the procedure is jumped over. -/
def procCode (i : ℕ) : List EskbInstr :=
  [⟨28, Int32.ofNat (4 * i + 3)⟩, ⟨3, 0⟩, ⟨27, 0⟩, ⟨24, Int32.ofNat i⟩]

/-- The entry of the definition. -/
def procEntry (i : ℕ) : ChunkEntry := ⟨procName i, 0, 0, 0, Int32.ofNat (4 * i + 1), 2⟩

theorem registered_procEntry {n : ℕ} (h : n ≤ 4096) :
    Registered ((List.range n).map procEntry) := by
  induction n with
  | zero => exact .nil
  | succ n ih =>
    have hoff : (procEntry n).codeOffset.toInt = 4 * n + 1 := Int32.toInt_ofNat_of_lt (by omega)
    refine .add (ih (by omega)) (e := procEntry n) ?_ (chunkAddEntry_eq_some.mpr ⟨?_, ?_⟩)
    · intro heq
      have := congrArg Subtype.val heq
      simp [procEntry, procName, mainName] at this
    · exact ⟨by simp [procEntry, procName], by omega, (by decide : 0 < (2 : Int32).toInt),
        le_rfl, (by decide : (0 : Int32).toInt ≤ 255), le_rfl, le_rfl⟩
    · rw [recordEntry_of_notMem, List.range_succ, List.map_append]
      · rfl
      · rw [List.map_map]
        intro hmem
        obtain ⟨i, hi, heq⟩ := List.mem_map.mp hmem
        have hi := List.mem_range.mp hi
        exact absurd (procName_inj (by omega) (by omega) heq) (by omega)

/-- The code of the definitions, one after another. -/
def procsCode (n : ℕ) : List EskbInstr := (List.range n).flatMap procCode

theorem length_procsCode (n : ℕ) : (procsCode n).length = 4 * n := by
  simp [procsCode, procCode, Nat.mul_comm]

theorem toInt_ofNat_small {n : ℕ} (h : n ≤ 2 ^ 16) : (Int32.ofNat n).toInt = n :=
  Int32.toInt_ofNat_of_lt (by omega)

/-- The program of `n` definitions, as it is compiled for an embedded machine. The constants
are the descriptions of the procedures. -/
def procsChunk (n : ℕ) (h : n ≤ 4096) : FuncChunk where
  code := procsCode n ++ [⟨36, 0⟩]
  constants := (List.range n).map fun i =>
    .int (UInt64.ofNat (4 * i + 1 + 2 ^ 40 + 2 ^ 41 + 2 ^ 44 + 2 ^ 46))
  nLocals := Int32.ofNat n
  entries := (List.range n).map procEntry
  codeLen_lt := by
    rw [List.length_append, length_procsCode, List.length_singleton]
    omega
  nConstants_lt := by
    rw [List.length_map, List.length_range]
    omega
  nLocals_nonneg := by
    rw [toInt_ofNat_small (by omega)]
    omega
  nFunctions_lt := by
    rw [List.length_map, List.length_range]
    omega
  registered := registered_procEntry h

theorem procsCode_eq {i n : ℕ} (h : i < n) :
    ∃ rest, procsCode n = procsCode i ++ (procCode i ++ rest) := by
  obtain ⟨k, rfl⟩ := Nat.exists_eq_add_of_lt h
  refine ⟨((List.range k).map (i + 1 + ·)).flatMap procCode, ?_⟩
  rw [Nat.add_right_comm, procsCode, List.range_add, List.flatMap_append, List.range_succ,
    List.flatMap_append, List.flatMap_singleton, List.append_assoc]
  rfl

section

variable {n : ℕ} (hn : n ≤ 4096)

theorem code_procsChunk : (procsChunk n hn).code = procsCode n ++ [⟨36, 0⟩] := rfl

theorem length_code_procsChunk : (procsChunk n hn).code.length = 4 * n + 1 := by
  rw [code_procsChunk, List.length_append, length_procsCode]
  rfl

theorem length_functions_procsChunk : (procsChunk n hn).moduleDef.functions.length = n + 1 := by
  rw [FuncChunk.moduleDef, List.length_cons, List.length_map, procsChunk, List.length_map,
    List.length_range]

theorem slice_procsChunk {i : ℕ} (hi : i < n) :
    (procsChunk n hn).slice (procEntry i) = [⟨3, 0⟩, ⟨27, 0⟩] := by
  obtain ⟨rest, hrest⟩ := procsCode_eq hi
  have hoff : (procEntry i).codeOffset.toInt.toNat = (procsCode i).length + 1 := by
    rw [procEntry, toInt_ofNat_small (by omega), length_procsCode]
    omega
  rw [FuncChunk.slice, hoff, ← List.drop_drop, code_procsChunk, hrest, List.append_assoc,
    List.drop_left]
  rfl

theorem entryFits_procsChunk {i : ℕ} (hi : i < n) :
    entryFits (procsChunk n hn) (procEntry i) = .ok () := by
  have hoff : (procEntry i).codeOffset.toInt = (4 * i + 1 : ℕ) := toInt_ofNat_small (by omega)
  have hlen : (procEntry i).codeLen.toInt = 2 := rfl
  have hparams : (procEntry i).nParams.toInt = 0 := rfl
  have hups : (procEntry i).nUpvalues.toInt = 0 := rfl
  have hcode := length_code_procsChunk hn
  rw [entryFits, if_neg (by omega), hoff, hlen, signed_eq_ok (by omega) (by omega)]
  change (if _ then _ else _) = _
  rw [if_neg (by omega)]

theorem validateEskbEmitPolicy_procsChunk :
    validateEskbEmitPolicy (procsChunk n hn) true = true := by
  have hops : ∀ i ∈ (procsChunk n hn).code, i.op ≠ 37 := by
    simp only [code_procsChunk, procsCode, procCode, List.forall_mem_append, List.forall_mem_flatMap,
      List.forall_mem_cons]
    exact ⟨fun i _ => ⟨by decide, by decide, by decide, by decide, nofun⟩, by decide, nofun⟩
  have hany : ((procsChunk n hn).code.any fun i => i.op == 37 &&
      (decide (i.operand.toInt < 100000) || isPackedLiteralFid i.operand.toInt)) = false := by
    rw [List.any_eq_false]
    intro i hi
    rw [beq_eq_false_iff_ne.mpr (hops i hi)]
    simp
  rw [validateEskbEmitPolicy, hany]
  rfl

theorem emitEskbFromChunk_procsChunk : ∃ data,
    emitEskbFromChunk (procsChunk n hn) true = .ok data ∧
      eskbWriteFileWithFunctions (procsChunk n hn).moduleDef = .ok data := by
  have hfits : ∀ e ∈ (procsChunk n hn).entries, entryFits (procsChunk n hn) e = .ok () :=
    List.forall_mem_map.mpr fun i hi => entryFits_procsChunk hn (List.mem_range.mp hi)
  obtain ⟨data, hdata⟩ :
      ∃ data, eskbWriteFileWithFunctions (procsChunk n hn).moduleDef = .ok data := by
    refine eskbWriteFileWithFunctions_total (by simp [FuncChunk.moduleDef]) ?_ rfl ?_ ?_
    · intro k hk
      obtain ⟨v, hv, hk⟩ := List.mem_filterMap.mp hk
      obtain ⟨i, -, rfl⟩ := List.mem_map.mp hv
      obtain rfl := Option.some.inj hk
      rfl
    · rw [FuncChunk.moduleDef, List.forall_mem_cons, List.forall_mem_map]
      refine ⟨?_, List.forall_mem_map.mpr fun i hi => ?_⟩
      · exact eskbWriteFunction_total (List.cons_ne_nil _ _) (by simp [FuncChunk.mainFunction,
          mainName]) (by simp [FuncChunk.mainFunction, procsChunk]) (.inl rfl)
      · have hslice := slice_procsChunk hn (List.mem_range.mp hi)
        refine eskbWriteFunction_total (List.cons_ne_nil _ _) (by simp [FuncChunk.entryFunction,
          procEntry, procName]) ?_ (.inr ?_)
        · simp [FuncChunk.entryFunction, hslice]
        · change ∀ k ∈ (procsChunk n hn).slice (procEntry i), _
          rw [hslice]
          decide
    · have hsum : ((procsChunk n hn).entries.map fun e => e.codeLen.toInt.toNat).sum = n * 2 := by
        rw [procsChunk, List.map_map]
        change ((List.range n).map fun _ => 2).sum = n * 2
        simp
      rw [sum_code_lengths hfits, length_code_procsChunk, hsum]
      omega
  exact ⟨data, emitEskbFromChunk_eq_ok.mpr ⟨validateEskbEmitPolicy_procsChunk hn,
    List.forall_mem_map.mpr fun i _ => rfl, hfits, hdata⟩, hdata⟩

end

theorem emitEskbFromChunk_loads_iff_one :
    ∃ data, emitEskbFromChunk (procsChunk 1 (by omega)) true = .ok data ∧
      ((∃ mod, eskbLoadMemory data = some mod ∧ IsProgram (procsChunk 1 (by omega)) mod) ↔
        Portable (procsChunk 1 (by omega))) := by
  obtain ⟨data, hdata, -⟩ := emitEskbFromChunk_procsChunk (n := 1) (by omega)
  exact ⟨data, hdata, emitEskbFromChunk_loads_iff hdata⟩

/-- The program of 4096 definitions is emitted, with 4097 functions, and cannot be loaded. -/
theorem emitEskbFromChunk_many : ∃ data,
    emitEskbFromChunk (procsChunk 4096 le_rfl) true = .ok data ∧
      ¬ ∃ mod, eskbLoadMemory data = some mod ∧ IsProgram (procsChunk 4096 le_rfl) mod := by
  obtain ⟨data, hdata, hwrite⟩ := emitEskbFromChunk_procsChunk (n := 4096) le_rfl
  refine ⟨data, hdata, ?_⟩
  rintro ⟨mod, hmod, -⟩
  have hcount := (loadable_of_load hwrite hmod).count
  rw [length_functions_procsChunk] at hcount
  omega

end Eshkol.Eskb
