import Eshkol.Machine.Exec
import Eshkol.Eskb.Format

/-!
# The ESKB Writer

`eskb_write_file_with_functions` (`lib/backend/eskb_writer.c`). The buffers are byte
strings, and the result is the bytes of the file; `-1` is the exception `()`. Allocation and
output succeed, and no object is larger than `2 ^ 63` bytes. Pointers that must not be null
are not, by their types. Code targets of a function with a nonzero `code_base` are written
relative to it.
-/

namespace Eshkol.Eskb

open Codec Machine

/-! ### The module to be written -/

structure EskbInstr where
  op : UInt8
  operand : Int32
  deriving DecidableEq, Repr

/-- `EskbConst`. The union `as` is its 64 bits, of which `as.b` is the low 32; the string is
the first `str_len` bytes of a buffer of 256. -/
structure EskbConst where
  type : UInt8
  as : UInt64
  str : Bytes
  str_le : str.length ≤ 256
  deriving DecidableEq, Repr

/-- `EskbFunctionDef`. The length of the code is an `int`. -/
structure EskbFunctionDef where
  name : CString
  nParams : UInt8
  nLocals : UInt32
  nUpvalues : UInt32
  code : List EskbInstr
  codeBase : Int32
  codeLen_lt : code.length < 2 ^ 31

/-- The arguments of `eskb_write_file_with_functions`. The numbers of constants and of
functions are `int`s. -/
structure ModuleDef where
  constants : List EskbConst
  functions : List EskbFunctionDef
  sourceFile : Option CString
  nConstants_lt : constants.length < 2 ^ 31
  nFunctions_lt : functions.length < 2 ^ 31

/-! ### Writing -/

/-- The zigzag code of an operand: `(operand << 1) ^ (operand >> 63)` on 64 bits. -/
def zigzag (operand : ℤ) : UInt64 :=
  UInt64.ofInt (operand * 2) ^^^ UInt64.ofInt (operand >>> (63 : ℕ))

/-- `eskb_buf_write_leb128` of a count or a size. -/
def writeSize (n : ℕ) : Bytes := eskbWriteLeb128 (UInt64.ofNat n)

def eskbBufWriteString (s : Bytes) : Bytes := writeSize s.length ++ s

def eskbWriteInstruction (op : UInt8) (operand : ℤ) : Bytes :=
  op :: eskbWriteLeb128 (zigzag operand)

/-- One instruction of a function, its code target made relative. -/
def eskbWriteCode (fn : EskbFunctionDef) (i : EskbInstr) : Exec Unit Bytes := do
  if fn.codeBase ≠ 0 ∧ eskbOperandIsCodeTarget i.op then do
    let lo := fn.codeBase.toInt
    let hi ← signed 32 (fn.codeBase.toInt + fn.code.length)
    if i.operand.toInt < lo ∨ hi ≤ i.operand.toInt then .error (.raised ())
    else do
      let operand ← signed 32 (i.operand.toInt - fn.codeBase.toInt)
      .ok (eskbWriteInstruction i.op operand)
  else .ok (eskbWriteInstruction i.op i.operand.toInt)

def eskbWriteFunction (fn : EskbFunctionDef) : Exec Unit Bytes :=
  if fn.name.1 = [] ∨ fn.code = [] then .error (.raised ())
  else if 255 < fn.name.1.length then .error (.raised ())
  else do
    let code ← fn.code.mapM (eskbWriteCode fn)
    .ok (eskbBufWriteString fn.name.1 ++ fn.nParams :: (eskbWriteLeb128 fn.nLocals.toUInt64 ++
      (eskbWriteLeb128 fn.nUpvalues.toUInt64 ++ (writeSize fn.code.length ++ code.flatten))))

/-- One constant, after its tag. -/
def eskbWriteConst (c : EskbConst) : Bytes :=
  c.type :: (if c.type = 0 then []
    else if c.type = 1 ∨ c.type = 2 then littleEndian 8 c.as.toNat
    else if c.type = 3 then [if c.as.toNat % 2 ^ 32 = 0 then 0 else 1]
    else eskbBufWriteString c.str)

/-- The constant kinds there are: `NIL`, `INT64`, `F64`, `BOOL` and `STRING`. -/
def EskbConst.supported (c : EskbConst) : Bool :=
  c.type == 0 || c.type == 1 || c.type == 2 || c.type == 3 || c.type == 6

/-- The sections with their identifiers, in the order they are written. -/
def eskbSections (constBuf codeBuf : Bytes) (sourceFile : Option CString) : List (UInt8 × Bytes) :=
  (0, constBuf) :: (1, codeBuf) :: (match sourceFile with
    | none => []
    | some s => [(2, eskbBufWriteString s.1)])

/-- The payload: section table, then sections. -/
def eskbPayload (ds : List (UInt8 × Bytes)) : Bytes :=
  writeSize ds.length ++ ((ds.map fun d => d.1 :: writeSize d.2.length).flatten ++
    (ds.map Prod.snd).flatten)

/-- The sixteen bytes of `EskbHeader`. -/
def eskbHeader (payload : Bytes) : Bytes :=
  littleEndian 4 0x45534B42 ++ (littleEndian 4 2 ++ (littleEndian 4 1 ++
    littleEndian 4 (eskbCrc32 payload).toNat))

/-- The sum `total_code_len`, an `int`. -/
def totalCodeLen (functions : List EskbFunctionDef) : Exec Unit ℤ :=
  functions.foldlM (fun total fn => signed 32 (total + fn.code.length)) 0

/-- `eskb_write_file_with_functions`: the bytes of the file. -/
def eskbWriteFileWithFunctions (m : ModuleDef) : Exec Unit Bytes := do
  if m.functions = [] then .error (.raised ())
  else if ¬ m.constants.all EskbConst.supported then .error (.raised ())
  else do
    let constBuf := writeSize m.constants.length ++ (m.constants.map eskbWriteConst).flatten
    let functions ← m.functions.mapM eskbWriteFunction
    let codeBuf := writeSize m.functions.length ++ functions.flatten
    let payload := eskbPayload (eskbSections constBuf codeBuf m.sourceFile)
    if 2 ^ 63 ≤ payload.length then .error .undefined
    else do
      let _ ← totalCodeLen m.functions
      .ok (eskbHeader payload ++ payload)

/-! ### What is written -/

/-- The constant that is written. -/
def EskbConst.content (c : EskbConst) : Const :=
  if c.type = 0 then .nil
  else if c.type = 1 then .int64 c.as
  else if c.type = 2 then .f64 c.as
  else if c.type = 3 then .bool (if c.as.toNat % 2 ^ 32 = 0 then 0 else 1)
  else .string c.str

/-- An instruction with its code target counted from the start of the function. -/
def EskbFunctionDef.relative (fn : EskbFunctionDef) (i : EskbInstr) : Instr :=
  ⟨i.op, if eskbOperandIsCodeTarget i.op then i.operand.toInt - fn.codeBase.toInt
    else i.operand.toInt⟩

/-- The function that is written. -/
def EskbFunctionDef.entry (fn : EskbFunctionDef) : FunctionEntry :=
  ⟨fn.name.1, fn.nParams, fn.nLocals.toNat, fn.nUpvalues.toNat, fn.code.map fn.relative⟩

/-- The sections that are written. -/
def ModuleDef.contents (m : ModuleDef) : List Content :=
  .consts (m.constants.map EskbConst.content) :: .code (m.functions.map EskbFunctionDef.entry) ::
    (match m.sourceFile with
    | none => []
    | some s => [.source s.1])

theorem leb_writeSize {n : ℕ} (h : n < 2 ^ 64) : Leb (writeSize n) n := by
  have := leb_eskbWriteLeb128 (UInt64.ofNat n)
  rwa [UInt64.toNat_ofNat_of_lt' h] at this

theorem isString_eskbBufWriteString {s : Bytes} (h : s.length < 2 ^ 64) :
    IsString (eskbBufWriteString s) s :=
  ⟨_, rfl, leb_writeSize h⟩

theorem zigzag_spec {x : ℤ} (hlo : -2 ^ 31 ≤ x) (hhi : x < 2 ^ 31) :
    (zigzag x).toNat < 2 ^ 32 ∧ unzigzag (zigzag x).toNat = x := by
  have hofInt (y : ℤ) : (UInt64.ofInt y).toNat = (y % 2 ^ 64).toNat := by
    rw [UInt64.ofInt, UInt64.toNat_ofNat_of_lt']
    change (y % 2 ^ 64).toNat < 2 ^ 64
    omega
  rcases le_or_gt 0 x with hx | hx
  · have hshift : x >>> (63 : ℕ) = 0 := by
      rw [Int.shiftRight_eq_div_pow]
      omega
    have hval : (zigzag x).toNat = (x * 2).toNat := by
      rw [zigzag, hshift, show UInt64.ofInt 0 = 0 from rfl, UInt64.xor_zero, hofInt]
      omega
    rw [hval, unzigzag]
    refine ⟨by omega, ?_⟩
    rw [if_neg (by omega)]
    omega
  · have hshift : x >>> (63 : ℕ) = -1 := by
      rw [Int.shiftRight_eq_div_pow]
      omega
    have hval : (zigzag x).toNat = (-(x * 2) - 1).toNat := by
      rw [zigzag, hshift, show UInt64.ofInt (-1) = -1 from rfl, UInt64.xor_neg_one,
        UInt64.toNat_not, hofInt, UInt64.size]
      omega
    rw [hval, unzigzag]
    refine ⟨by omega, ?_⟩
    rw [if_pos (by omega)]
    omega

theorem isInstr_eskbWriteInstruction (op : UInt8) {x : ℤ} (hlo : -2 ^ 31 ≤ x)
    (hhi : x < 2 ^ 31) : IsInstr (eskbWriteInstruction op x) ⟨op, x⟩ := by
  obtain ⟨hlt, hval⟩ := zigzag_spec hlo hhi
  exact ⟨_, _, rfl, leb_eskbWriteLeb128 _, hlt, hval.symm⟩

variable {fn : EskbFunctionDef} {m : ModuleDef} {functions : List Bytes}

theorem eskbWriteCode_spec {i : EskbInstr} {bs : Bytes} (h : eskbWriteCode fn i = .ok bs) :
    bs = eskbWriteInstruction i.op (fn.relative i).operand ∧ IsInstr bs (fn.relative i) ∧
      (fn.codeBase ≠ 0 → eskbOperandIsCodeTarget i.op →
        0 ≤ (fn.relative i).operand ∧ (fn.relative i).operand < fn.code.length) := by
  have hlo := i.operand.le_toInt
  have hhi := i.operand.toInt_lt
  rw [eskbWriteCode] at h
  split at h
  next hc =>
    obtain ⟨hi, hsum, h⟩ := bind_eq_ok.mp h
    obtain ⟨rfl, -, -⟩ := signed_eq_ok_iff.mp hsum
    split at h
    · cases h
    next hin =>
      obtain ⟨x, hx, h⟩ := bind_eq_ok.mp h
      obtain ⟨rfl, hxlo, hxhi⟩ := signed_eq_ok_iff.mp hx
      obtain rfl := Except.ok.inj h
      rw [EskbFunctionDef.relative]
      simp only [hc.2, if_true]
      refine ⟨trivial, isInstr_eskbWriteInstruction i.op hxlo hxhi, ?_⟩
      intro _ _
      omega
  next hc =>
    obtain rfl := Except.ok.inj h
    have hrel : (fn.relative i).operand = i.operand.toInt := by
      rw [EskbFunctionDef.relative]
      simp only
      split
      next ht =>
        have : fn.codeBase = 0 := by
          by_contra hb
          exact hc ⟨hb, ht⟩
        rw [this]
        exact sub_zero _
      next => rfl
    have hop : fn.relative i = ⟨i.op, i.operand.toInt⟩ := by
      rw [← hrel]
      rfl
    refine ⟨by rw [hrel], ?_, ?_⟩
    · rw [hop]
      exact isInstr_eskbWriteInstruction i.op hlo hhi
    · intro hb ht
      exact absurd ⟨hb, ht⟩ hc

theorem concat_flatten {α β : Type} {R : Format β} {f : α → β} {as : List α}
    {bss : List Bytes} (h : List.Forall₂ (fun a bs => R bs (f a)) as bss) :
    Concat R bss.flatten (as.map f) := by
  induction h with
  | nil => exact .nil
  | cons ha _ ih => exact .cons ha ih

theorem eskbWriteFunction_spec {bs : Bytes} (h : eskbWriteFunction fn = .ok bs) :
    IsFunction bs fn.entry ∧ fn.name.1 ≠ [] ∧ fn.name.1.length ≤ 255 ∧
      (fn.codeBase ≠ 0 → ∀ i ∈ fn.code, eskbOperandIsCodeTarget i.op →
        0 ≤ (fn.relative i).operand ∧ (fn.relative i).operand < fn.code.length) := by
  rw [eskbWriteFunction] at h
  split at h
  · cases h
  next hne =>
    split at h
    · cases h
    next hlen =>
      obtain ⟨code, hcode, h⟩ := bind_eq_ok.mp h
      obtain rfl := Except.ok.inj h
      have hlt := fn.codeLen_lt
      have hlocals := leb_eskbWriteLeb128 fn.nLocals.toUInt64
      have hups := leb_eskbWriteLeb128 fn.nUpvalues.toUInt64
      rw [UInt32.toNat_toUInt64] at hlocals hups
      refine ⟨⟨_, _, _, _, rfl, isString_eskbBufWriteString (by omega), hlocals, hups, _, _,
        rfl, ?_, ?_⟩, by tauto, by omega, ?_⟩
      · rw [EskbFunctionDef.entry, List.length_map]
        exact leb_writeSize (by omega)
      · exact concat_flatten ((mapM_eq_ok.mp hcode).imp fun i bs h => (eskbWriteCode_spec h).2.1)
      · intro hb i hi
        obtain ⟨bs, hbs⟩ := mapM_ok_of_mem hcode hi
        exact (eskbWriteCode_spec hbs).2.2 hb

theorem isConst_eskbWriteConst {c : EskbConst} (hc : c.supported) :
    IsConst (eskbWriteConst c) c.content := by
  obtain ⟨type, as, str, hstr⟩ := c
  simp only [EskbConst.supported, Bool.or_eq_true, beq_iff_eq] at hc
  rcases hc with (((rfl | rfl) | rfl) | rfl) | rfl
  · exact .nil
  · exact .int64 as
  · exact .f64 as
  · exact .bool _
  · exact .string (isString_eskbBufWriteString (lt_of_le_of_lt hstr (by norm_num)))

theorem concat_map {α β : Type} {R : Format β} {f : α → β} {w : α → Bytes} {as : List α}
    (h : ∀ a ∈ as, R (w a) (f a)) : Concat R (as.map w).flatten (as.map f) := by
  apply concat_flatten
  rw [List.forall₂_map_right_iff, List.forall₂_same]
  exact h

theorem length_le_eskbPayload {ds : List (UInt8 × Bytes)} {d : UInt8 × Bytes} (hd : d ∈ ds) :
    d.2.length ≤ (eskbPayload ds).length := by
  have := length_le_flatten hd
  simp only [eskbPayload, List.length_append]
  omega

theorem isTable_eskbPayload {ds : List (UInt8 × Bytes)} (hds : ds.length ≤ 3)
    (h : (eskbPayload ds).length < 2 ^ 63) : IsTable (eskbPayload ds) ds := by
  refine ⟨_, _, rfl, leb_writeSize (by omega), concat_map fun d hd => ⟨_, rfl, leb_writeSize ?_⟩⟩
  have := length_le_eskbPayload hd
  omega

theorem length_eskbSections (constBuf codeBuf : Bytes) (sourceFile : Option CString) :
    (eskbSections constBuf codeBuf sourceFile).length ≤ 3 := by
  cases sourceFile <;> simp [eskbSections]

theorem isSection_eskbSections {constBuf codeBuf : Bytes}
    (hconsts : Counted IsConst constBuf (m.constants.map EskbConst.content))
    (hcode : Counted IsFunction codeBuf (m.functions.map EskbFunctionDef.entry))
    (hlen : (eskbPayload (eskbSections constBuf codeBuf m.sourceFile)).length < 2 ^ 63) :
    List.Forall₂ (fun d c => IsSection d.1 d.2 c) (eskbSections constBuf codeBuf m.sourceFile)
      m.contents := by
  obtain ⟨constants, functions, sourceFile, _, _⟩ := m
  cases sourceFile with
  | none => exact .cons (.consts hconsts) (.cons (.code hcode) .nil)
  | some s =>
    have hmem : (2, eskbBufWriteString s.1) ∈ eskbSections constBuf codeBuf (some s) := by
      simp [eskbSections]
    have := length_le_eskbPayload hmem
    simp only [eskbBufWriteString, List.length_append] at this hlen
    exact .cons (.consts hconsts) (.cons (.code hcode)
      (.cons (.source (isString_eskbBufWriteString (by omega))) .nil))

/-- The bytes of the `CONST` section. -/
def ModuleDef.constBuf (m : ModuleDef) : Bytes :=
  writeSize m.constants.length ++ (m.constants.map eskbWriteConst).flatten

/-- The bytes of the `CODE` section, for functions written as `functions`. -/
def ModuleDef.codeBuf (m : ModuleDef) (functions : List Bytes) : Bytes :=
  writeSize m.functions.length ++ functions.flatten

/-- The sections written for a module whose functions are written as `functions`. -/
def ModuleDef.sections (m : ModuleDef) (functions : List Bytes) : List (UInt8 × Bytes) :=
  eskbSections m.constBuf (m.codeBuf functions) m.sourceFile

theorem eskbWriteFileWithFunctions_eq_ok {data : Bytes}
    (h : eskbWriteFileWithFunctions m = .ok data) :
    ∃ functions, m.functions.mapM eskbWriteFunction = .ok functions ∧
      (∀ c ∈ m.constants, c.supported) ∧
      (eskbPayload (m.sections functions)).length < 2 ^ 63 ∧
      data = eskbHeader (eskbPayload (m.sections functions)) ++
        eskbPayload (m.sections functions) := by
  rw [eskbWriteFileWithFunctions] at h
  split at h
  · cases h
  split at h
  · cases h
  next hsup =>
    obtain ⟨functions, hfns, h⟩ := bind_eq_ok.mp h
    simp only at h
    split at h
    · cases h
    next hlen =>
      obtain ⟨_, -, h⟩ := bind_eq_ok.mp h
      simp only [List.all_eq_true, not_not] at hsup
      exact ⟨functions, hfns, hsup, Nat.not_le.mp hlen, (Except.ok.inj h).symm⟩

theorem checked_of_mem {fns : List EskbFunctionDef} (h : fns.mapM eskbWriteFunction = .ok functions)
    (hfn : fn ∈ fns) :
    fn.name.1 ≠ [] ∧ fn.name.1.length ≤ 255 ∧
      (fn.codeBase ≠ 0 → ∀ i ∈ fn.code, eskbOperandIsCodeTarget i.op →
        0 ≤ (fn.relative i).operand ∧ (fn.relative i).operand < fn.code.length) := by
  obtain ⟨bs, hbs⟩ := mapM_ok_of_mem h hfn
  exact (eskbWriteFunction_spec hbs).2

theorem counted_constBuf (hsup : ∀ c ∈ m.constants, c.supported) :
    Counted IsConst m.constBuf (m.constants.map EskbConst.content) := by
  have hnc := m.nConstants_lt
  refine ⟨_, _, rfl, ?_, concat_map fun c hc => isConst_eskbWriteConst (hsup c hc)⟩
  rw [List.length_map]
  exact leb_writeSize (by omega)

theorem counted_codeBuf (hfns : m.functions.mapM eskbWriteFunction = .ok functions) :
    Counted IsFunction (m.codeBuf functions) (m.functions.map EskbFunctionDef.entry) := by
  have hnf := m.nFunctions_lt
  refine ⟨_, _, rfl, ?_, concat_flatten ((mapM_eq_ok.mp hfns).imp fun fn bs h =>
    (eskbWriteFunction_spec h).1)⟩
  rw [List.length_map]
  exact leb_writeSize (by omega)

theorem isSection_sections (hfns : m.functions.mapM eskbWriteFunction = .ok functions)
    (hsup : ∀ c ∈ m.constants, c.supported)
    (hlen : (eskbPayload (m.sections functions)).length < 2 ^ 63) :
    IsTable (eskbPayload (m.sections functions)) (m.sections functions) ∧
      List.Forall₂ (fun d c => IsSection d.1 d.2 c) (m.sections functions) m.contents :=
  ⟨isTable_eskbPayload (length_eskbSections _ _ _) hlen,
    isSection_eskbSections (counted_constBuf hsup) (counted_codeBuf hfns) hlen⟩

end Eshkol.Eskb
