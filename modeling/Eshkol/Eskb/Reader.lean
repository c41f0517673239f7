import Eshkol.Eskb.Format

/-!
# The ESKB Loader

`eskb_load_memory` and `eskb_parse_payload` (`lib/backend/eskb_reader.c`). A failed check
returns `-1` wherever it stands, so the loader is a parser that fails. The arrays of the
loaded module are lists; `opcodes` and `operands` are one list of instructions. Allocation
succeeds, except that `malloc` never gives more than `PTRDIFF_MAX` bytes.

A file accepted by the loader is described twice over: by the sections its bytes stand for
(`IsPayload`), each of which passes the loader's checks (`Content.Ok`), and by the module,
which is the fold of the sections (`EskbModule.add`).
-/

namespace Eshkol.Eskb

open Codec

def intMax : ℕ := 2 ^ 31 - 1

/-- `ESHKOL_VM_MAX_CODE`. -/
def vmMaxCode : ℕ := 1000000

/-! ### The loaded module -/

/-- One entry of `const_types`, `const_ints`, `const_floats` and `const_strings`. -/
structure LoadedConst where
  type : UInt8
  int : UInt64
  float : UInt64
  string : Option Bytes
  deriving DecidableEq, Repr

/-- `EskbFunction`. The name is a buffer with a NUL after these bytes; no length is kept. -/
structure EskbFunction where
  name : Bytes
  nParams : ℕ
  nLocals : ℕ
  nUpvalues : ℕ
  codeOffset : ℕ
  codeLen : ℕ
  deriving DecidableEq, Repr

/-- `EskbModule`. An array that has not been allocated is `none`; `has_debug` is
`sourceFile.isSome`. -/
structure EskbModule where
  code : List Instr
  consts : Option (List LoadedConst)
  functions : Option (List EskbFunction)
  sourceFile : Option Bytes
  deriving DecidableEq, Repr

/-- The module after `memset`. -/
def EskbModule.empty : EskbModule := ⟨[], none, none, none⟩

/-- The functions read so far. -/
def EskbModule.fns (mod : EskbModule) : List EskbFunction := mod.functions.getD []

/-! ### Reading -/

/-- `eskb_read_i64` and `eskb_read_f64`: eight bytes, the lowest first. -/
def eskbReadI64 : Parser UInt64 := do
  let bs ← bytes 8
  pure (UInt64.ofNat (leValue bs))

def eskbReadStringAlloc : Parser Bytes := do
  let slen ← eskbReadLeb
  check (slen ≤ 2 ^ 64 - 2)
  -- `malloc(slen + 1)`
  check (slen + 1 < 2 ^ 63)
  bytes slen

/-- `eskb_read_string` into a buffer of `maxLen` bytes. -/
def eskbReadString (maxLen : ℕ) : Parser Bytes := do
  let slen ← eskbReadLeb
  check (slen ≤ maxLen - 1)
  bytes slen

def eskbReadInstruction : Parser Instr := do
  let op ← byte
  let zigzag ← eskbReadLeb
  check (zigzag ≤ 2 ^ 32 - 1)
  let decoded := unzigzag zigzag
  check (-2 ^ 31 ≤ decoded ∧ decoded ≤ 2 ^ 31 - 1)
  pure ⟨op, decoded⟩

/-- One constant of the pool. -/
def eskbReadConst : Parser LoadedConst := do
  let ctype ← byte
  if ctype = 0 then pure ⟨ctype, 0, 0, none⟩
  else if ctype = 1 then do
    let i ← eskbReadI64
    pure ⟨ctype, i, 0, none⟩
  else if ctype = 2 then do
    let f ← eskbReadI64
    pure ⟨ctype, 0, f, none⟩
  else if ctype = 3 then do
    let bv ← byte
    pure ⟨ctype, bv.toUInt64, 0, none⟩
  else if ctype = 6 then do
    let s ← eskbReadStringAlloc
    pure ⟨ctype, UInt64.ofNat s.length, 0, some s⟩
  else fun _ => none

/-- Code targets of a function that starts at `offset` count from there in the file. -/
def Instr.relocate (offset : ℕ) (i : Instr) : Instr :=
  if eskbOperandIsCodeTarget i.op then ⟨i.op, i.operand + offset⟩ else i

/-- One instruction of a function of `cl` instructions placed at `offset`. -/
def eskbReadCode (offset cl : ℕ) : Parser Instr := do
  let i ← eskbReadInstruction
  check (eskbOperandIsCodeTarget i.op → 0 ≤ i.operand ∧ i.operand < cl)
  pure (i.relocate offset)

/-- One function of the `CODE` section. -/
def eskbReadFunction (mod : EskbModule) : Parser EskbModule := do
  let fname ← eskbReadStringAlloc
  check (fname.length ≠ 0 ∧ fname.length ≤ 255)
  check (∀ g ∈ mod.fns, cstr g.name ≠ cstr fname)
  let np ← byte
  let nl ← eskbReadLeb
  check (nl ≤ intMax)
  let nuv ← eskbReadLeb
  check (nuv ≤ intMax)
  let cl ← eskbReadLeb
  check (cl ≤ vmMaxCode ∧ cl ≤ intMax)
  check (mod.code.length ≤ intMax - cl)
  let codeOffset := mod.code.length
  check (codeOffset + cl ≤ vmMaxCode)
  let code ← count cl (eskbReadCode codeOffset cl)
  pure { mod with
    code := mod.code ++ code
    functions := some (mod.fns ++ [⟨fname, np.toNat, nl, nuv, codeOffset, cl⟩]) }

/-- The `CONST` section. -/
def eskbReadConstSection (mod : EskbModule) : Parser EskbModule := do
  let nc ← eskbReadLeb
  check (nc ≤ intMax)
  check (mod.consts = none)
  let cs ← count nc eskbReadConst
  pure { mod with consts := some cs }

/-- The `CODE` section. -/
def eskbReadCodeSection (mod : EskbModule) : Parser EskbModule := do
  let nf ← eskbReadLeb
  check (nf ≤ 4096 ∧ nf ≤ intMax)
  check (mod.functions = none)
  iterate eskbReadFunction nf { mod with functions := some [] }

/-- The `META` section. -/
def eskbReadMetaSection (mod : EskbModule) : Parser EskbModule := do
  check (mod.sourceFile = none)
  let s ← eskbReadString 256
  pure { mod with sourceFile := some s }

/-- One section, given its identifier and its bytes. -/
def eskbParseSection (mod : EskbModule) (d : UInt8 × Bytes) : Option EskbModule :=
  if d.1 = 0 then exhaust (eskbReadConstSection mod) d.2
  else if d.1 = 1 then exhaust (eskbReadCodeSection mod) d.2
  else if d.1 = 2 then exhaust (eskbReadMetaSection mod) d.2
  else some mod

/-- One entry of the section table. -/
def eskbReadDesc : Parser (UInt8 × ℕ) := do
  let sid ← byte
  let ssize ← eskbReadLeb
  check (ssize ≤ 2 ^ 32 - 1)
  pure (sid, ssize)

/-- Cuts the sections out of the bytes after the table, which they must fill. -/
def sectionBodies : List (UInt8 × ℕ) → Bytes → Option (List (UInt8 × Bytes))
  | [], rest => if rest = [] then some [] else none
  | (id, size) :: ds, rest =>
    if rest.length < size then none
    else (sectionBodies ds (rest.drop size)).map ((id, rest.take size) :: ·)

def eskbParsePayload (payload : Bytes) : Option EskbModule := do
  let (nSections, r) ← eskbReadLeb payload
  if 16 < nSections then none
  else do
    let (table, r) ← count nSections eskbReadDesc r
    let ds ← sectionBodies table r
    ds.foldlM eskbParseSection EskbModule.empty

/-- `eskb_load_memory`: magic, version, flags and checksum are the four words of the
header. -/
def eskbLoadMemory (data : Bytes) : Option EskbModule :=
  if data.length < 16 then none
  else if leValue (data.take 4) ≠ 0x45534B42 then none
  else if leValue ((data.drop 4).take 4) ≠ 2 then none
  else if leValue ((data.drop 12).take 4) ≠ (eskbCrc32 (data.drop 16)).toNat then none
  else eskbParsePayload (data.drop 16)

/-! ### What the checks say -/

/-- How a constant is loaded. -/
def Const.load : Const → LoadedConst
  | .nil => ⟨0, 0, 0, none⟩
  | .int64 i => ⟨1, i, 0, none⟩
  | .f64 f => ⟨2, 0, f, none⟩
  | .bool b => ⟨3, b.toUInt64, 0, none⟩
  | .string s => ⟨6, UInt64.ofNat s.length, 0, some s⟩

/-- The checks on a function, after the functions already in the module. -/
structure FunctionEntry.Ok (mod : EskbModule) (f : FunctionEntry) : Prop where
  name_ne : f.name ≠ []
  name_le : f.name.length ≤ 255
  fresh : ∀ g ∈ mod.fns, cstr g.name ≠ cstr f.name
  locals : f.nLocals ≤ intMax
  upvalues : f.nUpvalues ≤ intMax
  total : mod.code.length + f.code.length ≤ vmMaxCode
  targets : ∀ i ∈ f.code, eskbOperandIsCodeTarget i.op → 0 ≤ i.operand ∧ i.operand < f.code.length

/-- The module with one more function. -/
def EskbModule.addFunction (mod : EskbModule) (f : FunctionEntry) : EskbModule :=
  { mod with
    code := mod.code ++ f.code.map (Instr.relocate mod.code.length)
    functions := some (mod.fns ++ [⟨f.name, f.nParams.toNat, f.nLocals, f.nUpvalues,
      mod.code.length, f.code.length⟩]) }

/-- The checks on a section, after the sections already read. -/
def Content.Ok (mod : EskbModule) : Content → Prop
  | .consts cs => cs.length ≤ intMax ∧ mod.consts = none
  | .code fs => fs.length ≤ 4096 ∧ mod.functions = none ∧
      Admits FunctionEntry.Ok EskbModule.addFunction { mod with functions := some [] } fs
  | .source s => s.length ≤ 255 ∧ mod.sourceFile = none
  | .skipped _ _ => True

/-- The module with one more section. -/
def EskbModule.add (mod : EskbModule) : Content → EskbModule
  | .consts cs => { mod with consts := some (cs.map Const.load) }
  | .code fs => fs.foldl EskbModule.addFunction { mod with functions := some [] }
  | .source s => { mod with sourceFile := some s }
  | .skipped _ _ => mod

/-! ### The readers read the format -/

theorem eskbReadI64_parses :
    Parses (2 ^ 31) eskbReadI64 fun bs v => bs = littleEndian 8 v.toNat := by
  refine ((Parses.bytes 8).bind fun bs => Parses.pure _).congr fun bs v => ?_
  constructor
  · rintro ⟨_, u, _, rfl, ⟨rfl, hlen⟩, rfl, rfl⟩
    have hlt := leValue_lt u
    rw [hlen] at hlt
    rw [List.append_nil, UInt64.toNat_ofNat_of_lt' hlt, ← hlen, littleEndian_leValue]
  · rintro rfl
    have hv := v.toNat_lt
    refine ⟨_, _, [], (List.append_nil _).symm, ⟨rfl, by simp⟩, rfl, ?_⟩
    rw [leValue_littleEndian, Nat.mod_eq_of_lt (by omega), UInt64.ofNat_toNat]

theorem eskbReadStringAlloc_parses : Parses (2 ^ 31) eskbReadStringAlloc IsString where
  sound h := by
    simp only [eskbReadStringAlloc, bind_eq_some, check_eq_some, bytes_eq_some] at h
    obtain ⟨slen, r, hleb, _, _, ⟨-, rfl⟩, _, _, ⟨-, rfl⟩, rfl, rfl⟩ := h
    obtain ⟨u, rfl, hu⟩ := eskbReadLeb_parses.sound hleb
    exact ⟨u ++ _, by simp, u, rfl, hu⟩
  complete := by
    rintro _ rest s ⟨n, rfl, hn⟩ hlen
    simp only [eskbReadStringAlloc, bind_eq_some, check_eq_some, bytes_eq_some]
    rw [List.append_assoc] at hlen ⊢
    have hlt := hn.lt
    refine ⟨_, _, eskbReadLeb_parses.complete hn hlen, (), _, ⟨?_, rfl⟩, (), _, ⟨?_, rfl⟩, rfl,
      rfl⟩ <;> simp only [List.length_append] at hlen <;> omega

theorem eskbReadString_parses :
    Parses (2 ^ 31) (eskbReadString 256) fun bs s => IsString bs s ∧ s.length ≤ 255 where
  sound h := by
    simp only [eskbReadString, bind_eq_some, check_eq_some, bytes_eq_some] at h
    obtain ⟨slen, r, hleb, _, _, ⟨hmax, rfl⟩, rfl, rfl⟩ := h
    obtain ⟨u, rfl, hu⟩ := eskbReadLeb_parses.sound hleb
    exact ⟨u ++ _, by simp, ⟨u, rfl, hu⟩, hmax⟩
  complete := by
    rintro _ rest s ⟨⟨n, rfl, hn⟩, hmax⟩ hlen
    simp only [eskbReadString, bind_eq_some, check_eq_some, bytes_eq_some]
    rw [List.append_assoc] at hlen ⊢
    exact ⟨_, _, eskbReadLeb_parses.complete hn hlen, (), _, ⟨hmax, rfl⟩, rfl, rfl⟩

theorem unzigzag_mem {z : ℕ} (hz : z < 2 ^ 32) :
    -2 ^ 31 ≤ unzigzag z ∧ unzigzag z ≤ 2 ^ 31 - 1 := by
  rw [unzigzag]
  split <;> omega

theorem eskbReadInstruction_parses : Parses (2 ^ 31) eskbReadInstruction IsInstr where
  sound h := by
    simp only [eskbReadInstruction, bind_eq_some, check_eq_some, byte_eq_some, pure_eq_some] at h
    obtain ⟨op, r, rfl, z, r', hleb, _, _, ⟨hz, rfl⟩, _, _, ⟨-, rfl⟩, rfl, rfl⟩ := h
    obtain ⟨u, rfl, hu⟩ := eskbReadLeb_parses.sound hleb
    exact ⟨op :: u, rfl, u, z, rfl, hu, by omega, rfl⟩
  complete := by
    rintro _ rest ⟨op, x⟩ ⟨n, z, rfl, hn, hz, hx⟩ hlen
    simp only at hx
    subst hx
    simp only [List.cons_append, List.length_cons] at hlen
    simp only [eskbReadInstruction, bind_eq_some, check_eq_some, byte_eq_some, pure_eq_some]
    exact ⟨op, n ++ rest, rfl, z, rest, eskbReadLeb_parses.complete hn (by omega), (), _,
      ⟨by omega, rfl⟩, (), _, ⟨unzigzag_mem hz, rfl⟩, rfl, rfl⟩

theorem eskbReadCode_parses (offset cl : ℕ) :
    Parses (2 ^ 31) (eskbReadCode offset cl) fun bs b => ∃ i, IsInstr bs i ∧
      (eskbOperandIsCodeTarget i.op → 0 ≤ i.operand ∧ i.operand < cl) ∧
      b = i.relocate offset := by
  refine (eskbReadInstruction_parses.bind fun i =>
    (Parses.check _).bind fun _ => Parses.pure _).congr fun bs b => ?_
  constructor
  · rintro ⟨i, u, _, rfl, hi, _, _, _, rfl, ⟨rfl, hc⟩, rfl, rfl⟩
    exact ⟨i, by simpa using hi, hc, rfl⟩
  · rintro ⟨i, hi, hc, rfl⟩
    exact ⟨i, bs, [], by simp, hi, (), [], [], rfl, ⟨rfl, hc⟩, rfl, rfl⟩

/-- The constant reader parses the constant format. -/
theorem eskbReadConst_parses :
    Parses (2 ^ 31) eskbReadConst fun bs b => ∃ c, IsConst bs c ∧ True ∧ b = c.load where
  sound h := by
    rw [eskbReadConst, bind_eq_some] at h
    obtain ⟨ctype, r, hbyte, h⟩ := h
    obtain rfl := byte_eq_some.mp hbyte
    split_ifs at h with h0 h1 h2 h3 h6
    · obtain ⟨rfl, rfl⟩ := pure_eq_some.mp h
      exact ⟨[ctype], rfl, .nil, h0 ▸ .nil, trivial, by rw [h0, Const.load]⟩
    · simp only [bind_eq_some, pure_eq_some] at h
      obtain ⟨i, r', hi, rfl, rfl⟩ := h
      obtain ⟨u, rfl, rfl⟩ := eskbReadI64_parses.sound hi
      exact ⟨_, List.cons_append.symm, .int64 i, h1 ▸ .int64 i, trivial, by rw [h1, Const.load]⟩
    · simp only [bind_eq_some, pure_eq_some] at h
      obtain ⟨f, r', hf, rfl, rfl⟩ := h
      obtain ⟨u, rfl, rfl⟩ := eskbReadI64_parses.sound hf
      exact ⟨_, List.cons_append.symm, .f64 f, h2 ▸ .f64 f, trivial, by rw [h2, Const.load]⟩
    · simp only [bind_eq_some, byte_eq_some, pure_eq_some] at h
      obtain ⟨b, r', rfl, rfl, rfl⟩ := h
      exact ⟨[ctype, b], rfl, .bool b, h3 ▸ .bool b, trivial, by rw [h3, Const.load]⟩
    · simp only [bind_eq_some, pure_eq_some] at h
      obtain ⟨s, r', hs, rfl, rfl⟩ := h
      obtain ⟨u, rfl, hu⟩ := eskbReadStringAlloc_parses.sound hs
      exact ⟨_, List.cons_append.symm, .string s, h6 ▸ .string hu, trivial,
        by rw [h6, Const.load]⟩
  complete := by
    rintro _ rest _ ⟨c, hc, -, rfl⟩ hlen
    rw [eskbReadConst, bind_eq_some]
    cases hc with
    | nil => exact ⟨0, rest, rfl, rfl⟩
    | int64 i =>
      simp only [List.cons_append, List.length_cons] at hlen
      refine ⟨1, _, rfl, ?_⟩
      change (eskbReadI64 >>= fun i => pure (LoadedConst.mk 1 i 0 none)) _ = _
      exact bind_eq_some.mpr ⟨i, rest, eskbReadI64_parses.complete rfl (by omega), rfl⟩
    | f64 f =>
      simp only [List.cons_append, List.length_cons] at hlen
      refine ⟨2, _, rfl, ?_⟩
      change (eskbReadI64 >>= fun f => pure (LoadedConst.mk 2 0 f none)) _ = _
      exact bind_eq_some.mpr ⟨f, rest, eskbReadI64_parses.complete rfl (by omega), rfl⟩
    | bool b => exact ⟨3, b :: rest, rfl, rfl⟩
    | @string bs s hs =>
      simp only [List.cons_append, List.length_cons] at hlen
      refine ⟨6, _, rfl, ?_⟩
      change (eskbReadStringAlloc >>= fun s =>
        pure (LoadedConst.mk 6 (UInt64.ofNat s.length) 0 (some s))) _ = _
      exact bind_eq_some.mpr
        ⟨s, rest, eskbReadStringAlloc_parses.complete hs (by omega), rfl⟩

/-- The function reader parses the function format. -/
theorem eskbReadFunction_parses (mod : EskbModule) :
    Parses (2 ^ 31) (eskbReadFunction mod) fun bs mod' => ∃ f, IsFunction bs f ∧
      f.Ok mod ∧ mod' = mod.addFunction f where
  sound h := by
    simp only [eskbReadFunction, bind_eq_some, check_eq_some, byte_eq_some, pure_eq_some] at h
    obtain ⟨fname, r₁, hname, _, _, ⟨hlen, rfl⟩, _, _, ⟨hfresh, rfl⟩, np, r₂, rfl, nl, r₃, hnl,
      _, _, ⟨hl, rfl⟩, nuv, r₄, hnuv, _, _, ⟨hu, rfl⟩, cl, r₅, hcl, _, _, ⟨-, rfl⟩, _, _,
      ⟨-, rfl⟩, _, _, ⟨htot, rfl⟩, code, r₆, hcode, rfl, rfl⟩ := h
    obtain ⟨u₁, rfl, h₁⟩ := eskbReadStringAlloc_parses.sound hname
    obtain ⟨u₂, rfl, h₂⟩ := eskbReadLeb_parses.sound hnl
    obtain ⟨u₃, rfl, h₃⟩ := eskbReadLeb_parses.sound hnuv
    obtain ⟨u₄, rfl, h₄⟩ := eskbReadLeb_parses.sound hcl
    obtain ⟨u₅, rfl, is, hc, rfl, htgt, rfl⟩ :=
      ((eskbReadCode_parses mod.code.length cl).count cl).sound hcode
    refine ⟨u₁ ++ np :: (u₂ ++ (u₃ ++ (u₄ ++ u₅))), by simp, ⟨fname, np, nl, nuv, is⟩,
      ⟨u₁, u₂, u₃, u₄ ++ u₅, rfl, h₁, h₂, h₃, u₄, u₅, rfl, h₄, hc⟩, ?_, rfl⟩
    exact ⟨List.length_pos_iff.mp (Nat.pos_of_ne_zero hlen.1), hlen.2, hfresh, hl, hu, htot, htgt⟩
  complete := by
    rintro _ rest _ ⟨f, ⟨u₁, u₂, u₃, _, rfl, h₁, h₂, h₃, u₄, u₅, rfl, h₄, hc⟩, hok, rfl⟩ hlen
    have htot := hok.total
    simp only [List.append_assoc, List.cons_append] at hlen ⊢
    simp only [List.length_append, List.length_cons] at hlen
    simp only [eskbReadFunction, bind_eq_some, check_eq_some, byte_eq_some, pure_eq_some]
    refine ⟨f.name, _, eskbReadStringAlloc_parses.complete h₁ ?_, (), _,
      ⟨⟨by simpa using hok.name_ne, hok.name_le⟩, rfl⟩, (), _, ⟨hok.fresh, rfl⟩, _, _, rfl,
      f.nLocals, _, eskbReadLeb_parses.complete h₂ ?_, (), _, ⟨hok.locals, rfl⟩,
      f.nUpvalues, _, eskbReadLeb_parses.complete h₃ ?_, (), _, ⟨hok.upvalues, rfl⟩,
      f.code.length, _, eskbReadLeb_parses.complete h₄ ?_, (), _, ⟨⟨?_, ?_⟩, rfl⟩, (), _,
      ⟨?_, rfl⟩, (), _, ⟨htot, rfl⟩, _, _,
      ((eskbReadCode_parses mod.code.length f.code.length).count f.code.length).complete
        ⟨f.code, hc, rfl, hok.targets, rfl⟩ ?_, rfl, rfl⟩ <;>
      simp only [List.length_append, List.length_cons, vmMaxCode, intMax] at htot ⊢ <;> omega

/-! ### Sections -/

theorem eskbReadConstSection_parses (mod : EskbModule) :
    Parses (2 ^ 31) (eskbReadConstSection mod) fun bs mod' => ∃ cs, Counted IsConst bs cs ∧
      (Content.consts cs).Ok mod ∧ mod' = mod.add (.consts cs) where
  sound h := by
    simp only [eskbReadConstSection, bind_eq_some, check_eq_some, pure_eq_some] at h
    obtain ⟨nc, r, hnc, _, _, ⟨hmax, rfl⟩, _, _, ⟨hnone, rfl⟩, _, _, hcs, rfl, rfl⟩ := h
    obtain ⟨n, rfl, hn⟩ := eskbReadLeb_parses.sound hnc
    obtain ⟨body, rfl, cs, hc, rfl, -, rfl⟩ := (eskbReadConst_parses.count nc).sound hcs
    exact ⟨n ++ body, by simp, cs, ⟨n, body, rfl, hn, hc⟩, ⟨hmax, hnone⟩, rfl⟩
  complete := by
    rintro _ rest _ ⟨cs, ⟨n, body, rfl, hn, hc⟩, ⟨hmax, hnone⟩, rfl⟩ hlen
    rw [List.append_assoc] at hlen ⊢
    simp only [eskbReadConstSection, bind_eq_some, check_eq_some, pure_eq_some]
    refine ⟨_, _, eskbReadLeb_parses.complete hn hlen, (), _, ⟨hmax, rfl⟩, (), _, ⟨hnone, rfl⟩,
      _, _, (eskbReadConst_parses.count cs.length).complete
        ⟨cs, hc, rfl, fun _ _ => trivial, rfl⟩ ?_, rfl, rfl⟩
    rw [List.length_append] at hlen
    omega

theorem eskbReadCodeSection_parses (mod : EskbModule) :
    Parses (2 ^ 31) (eskbReadCodeSection mod) fun bs mod' => ∃ fs, Counted IsFunction bs fs ∧
      (Content.code fs).Ok mod ∧ mod' = mod.add (.code fs) where
  sound h := by
    simp only [eskbReadCodeSection, bind_eq_some, check_eq_some] at h
    obtain ⟨nf, r, hnf, _, _, ⟨hmax, rfl⟩, _, _, ⟨hnone, rfl⟩, hfs⟩ := h
    obtain ⟨n, rfl, hn⟩ := eskbReadLeb_parses.sound hnf
    obtain ⟨body, rfl, fs, hc, rfl, hadm, rfl⟩ :=
      (Parses.iterate eskbReadFunction_parses nf _).sound hfs
    exact ⟨n ++ body, by simp, fs, ⟨n, body, rfl, hn, hc⟩, ⟨hmax.1, hnone, hadm⟩, rfl⟩
  complete := by
    rintro _ rest _ ⟨fs, ⟨n, body, rfl, hn, hc⟩, ⟨hmax, hnone, hadm⟩, rfl⟩ hlen
    rw [List.append_assoc] at hlen ⊢
    simp only [eskbReadCodeSection, bind_eq_some, check_eq_some]
    refine ⟨_, _, eskbReadLeb_parses.complete hn hlen, (), _, ⟨⟨hmax, ?_⟩, rfl⟩, (), _,
      ⟨hnone, rfl⟩, (Parses.iterate eskbReadFunction_parses fs.length _).complete
        ⟨fs, hc, rfl, hadm, rfl⟩ ?_⟩
    · rw [intMax]
      omega
    · rw [List.length_append] at hlen
      omega

theorem eskbReadMetaSection_parses (mod : EskbModule) :
    Parses (2 ^ 31) (eskbReadMetaSection mod) fun bs mod' => ∃ s, IsString bs s ∧
      (Content.source s).Ok mod ∧ mod' = mod.add (.source s) where
  sound h := by
    simp only [eskbReadMetaSection, bind_eq_some, check_eq_some, pure_eq_some] at h
    obtain ⟨_, _, ⟨hnone, rfl⟩, s, _, hs, rfl, rfl⟩ := h
    obtain ⟨u, rfl, hu, hmax⟩ := eskbReadString_parses.sound hs
    exact ⟨u, rfl, s, hu, ⟨hmax, hnone⟩, rfl⟩
  complete := by
    rintro _ rest _ ⟨s, hs, ⟨hmax, hnone⟩, rfl⟩ hlen
    simp only [eskbReadMetaSection, bind_eq_some, check_eq_some, pure_eq_some]
    exact ⟨(), _, ⟨hnone, rfl⟩, s, rest, eskbReadString_parses.complete ⟨hs, hmax⟩ hlen, rfl, rfl⟩

variable {mod mod' : EskbModule} {d : UInt8 × Bytes} {ds : List (UInt8 × Bytes)}
  {file : List Content}

theorem eskbParseSection_size (h : eskbParseSection mod d = some mod')
    (hid : d.1 = 0 ∨ d.1 = 1 ∨ d.1 = 2) : d.2.length % 2 ^ 32 < 2 ^ 31 := by
  rw [eskbParseSection] at h
  split_ifs at h with h0 h1 h2
  · rw [exhaust_eq_some, eskbReadConstSection, bind_eq_some] at h
    obtain ⟨_, _, hleb, -⟩ := h
    exact eskbReadLeb_size hleb
  · rw [exhaust_eq_some, eskbReadCodeSection, bind_eq_some] at h
    obtain ⟨_, _, hleb, -⟩ := h
    exact eskbReadLeb_size hleb
  · simp only [exhaust_eq_some, eskbReadMetaSection, eskbReadString, bind_eq_some,
      check_eq_some] at h
    obtain ⟨_, _, ⟨-, rfl⟩, _, _, ⟨_, _, hleb, -⟩, -⟩ := h
    exact eskbReadLeb_size hleb
  · rcases hid with h | h | h <;> contradiction

theorem eskbParseSection_sound (h : eskbParseSection mod d = some mod') :
    ∃ c, IsSection d.1 d.2 c ∧ c.Ok mod ∧ mod' = mod.add c := by
  obtain ⟨id, bs⟩ := d
  rw [eskbParseSection] at h
  split_ifs at h with h0 h1 h2
  · obtain ⟨u, hu, cs, hcs, hok, rfl⟩ :=
      (eskbReadConstSection_parses mod).sound (exhaust_eq_some.mp h)
    obtain rfl : bs = u := by simpa using hu
    exact ⟨.consts cs, h0 ▸ .consts hcs, hok, rfl⟩
  · obtain ⟨u, hu, fs, hfs, hok, rfl⟩ :=
      (eskbReadCodeSection_parses mod).sound (exhaust_eq_some.mp h)
    obtain rfl : bs = u := by simpa using hu
    exact ⟨.code fs, h1 ▸ .code hfs, hok, rfl⟩
  · obtain ⟨u, hu, s, hs, hok, rfl⟩ :=
      (eskbReadMetaSection_parses mod).sound (exhaust_eq_some.mp h)
    obtain rfl : bs = u := by simpa using hu
    exact ⟨.source s, h2 ▸ .source hs, hok, rfl⟩
  · obtain rfl := Option.some.inj h
    exact ⟨.skipped id bs, .skipped bs h0 h1 h2, trivial, rfl⟩

theorem eskbParseSection_complete {c : Content} (hc : IsSection d.1 d.2 c) (hok : c.Ok mod)
    (hlen : d.2.length < 2 ^ 31) : eskbParseSection mod d = some (mod.add c) := by
  obtain ⟨id, bs⟩ := d
  cases hc with
  | consts h =>
    exact exhaust_eq_some.mpr (((eskbReadConstSection_parses mod).iff hlen).mpr ⟨_, h, hok, rfl⟩)
  | code h =>
    exact exhaust_eq_some.mpr (((eskbReadCodeSection_parses mod).iff hlen).mpr ⟨_, h, hok, rfl⟩)
  | source h =>
    exact exhaust_eq_some.mpr (((eskbReadMetaSection_parses mod).iff hlen).mpr ⟨_, h, hok, rfl⟩)
  | skipped _ h0 h1 h2 => simp [eskbParseSection, h0, h1, h2, EskbModule.add]

/-! ### The payload -/

theorem eskbReadDesc_parses :
    Parses (2 ^ 31) eskbReadDesc fun bs d => ∃ e, IsDesc bs e ∧ e.2 ≤ 2 ^ 32 - 1 ∧ d = id e where
  sound h := by
    simp only [eskbReadDesc, bind_eq_some, check_eq_some, byte_eq_some, pure_eq_some] at h
    obtain ⟨sid, r, rfl, ssize, r', hleb, _, _, ⟨hmax, rfl⟩, rfl, rfl⟩ := h
    obtain ⟨u, rfl, hu⟩ := eskbReadLeb_parses.sound hleb
    exact ⟨sid :: u, rfl, (sid, ssize), ⟨u, rfl, hu⟩, hmax, rfl⟩
  complete := by
    rintro _ rest _ ⟨⟨sid, ssize⟩, ⟨u, rfl, hu⟩, hmax, rfl⟩ hlen
    simp only [List.cons_append, List.length_cons] at hlen
    simp only [eskbReadDesc, bind_eq_some, check_eq_some, byte_eq_some, pure_eq_some]
    exact ⟨sid, u ++ rest, rfl, ssize, rest, eskbReadLeb_parses.complete hu (by omega), (), _,
      ⟨hmax, rfl⟩, rfl, rfl⟩

theorem sectionBodies_eq_some {table : List (UInt8 × ℕ)} {rest : Bytes} :
    sectionBodies table rest = some ds ↔
      (ds.map fun d => (d.1, d.2.length)) = table ∧ (ds.map Prod.snd).flatten = rest := by
  induction table generalizing rest ds with
  | nil =>
    rw [sectionBodies]
    constructor
    · intro h
      split at h
      next hr =>
        cases h
        exact ⟨rfl, hr.symm⟩
      next => cases h
    · rintro ⟨hd, rfl⟩
      obtain rfl := List.map_eq_nil_iff.mp hd
      rfl
  | cons t table ih =>
    obtain ⟨id, size⟩ := t
    rw [sectionBodies]
    constructor
    · intro h
      split at h
      · cases h
      next hge =>
        obtain ⟨es, hes, rfl⟩ := Option.map_eq_some_iff.mp h
        obtain ⟨rfl, hrest⟩ := ih.mp hes
        refine ⟨?_, ?_⟩
        · simp only [List.map_cons, List.length_take]
          rw [min_eq_left (by omega)]
        · rw [List.map_cons, List.flatten_cons, hrest, List.take_append_drop]
    · rintro ⟨hd, rfl⟩
      obtain ⟨d, es, rfl, hd₁, rfl⟩ := List.map_eq_cons_iff.mp hd
      obtain ⟨rfl, rfl⟩ := Prod.mk.inj hd₁
      simp only [List.map_cons, List.flatten_cons, List.length_append, List.take_left,
        List.drop_left]
      rw [if_neg (by omega), ih.mpr ⟨rfl, rfl⟩]
      rfl

theorem foldlM_eskbParseSection (h : ds.foldlM eskbParseSection mod = some mod') :
    ∃ file, List.Forall₂ (fun d c => IsSection d.1 d.2 c) ds file ∧
      (∀ d ∈ ds, d.1 = 0 ∨ d.1 = 1 ∨ d.1 = 2 → d.2.length % 2 ^ 32 < 2 ^ 31) ∧
      Admits (fun mod c => c.Ok mod) EskbModule.add mod file ∧
      mod' = file.foldl EskbModule.add mod := by
  induction ds generalizing mod with
  | nil =>
    obtain rfl : mod = mod' := by simpa using h
    exact ⟨[], .nil, by simp, trivial, rfl⟩
  | cons d ds ih =>
    rw [List.foldlM_cons] at h
    obtain ⟨mod₁, h₁, h⟩ := Option.bind_eq_some_iff.mp h
    obtain ⟨c, hc, hok, rfl⟩ := eskbParseSection_sound h₁
    obtain ⟨file, hfile, hsize, hadm, rfl⟩ := ih h
    refine ⟨c :: file, .cons hc hfile, ?_, ⟨hok, hadm⟩, rfl⟩
    rw [List.forall_mem_cons]
    exact ⟨eskbParseSection_size h₁, hsize⟩

theorem foldlM_eskbParseSection_complete
    (hfile : List.Forall₂ (fun d c => IsSection d.1 d.2 c) ds file)
    (hlen : ∀ d ∈ ds, d.2.length < 2 ^ 31)
    (hadm : Admits (fun mod c => c.Ok mod) EskbModule.add mod file) :
    ds.foldlM eskbParseSection mod = some (file.foldl EskbModule.add mod) := by
  induction hfile generalizing mod with
  | nil => rfl
  | cons hc _ ih =>
    rw [List.forall_mem_cons] at hlen
    rw [List.foldlM_cons, eskbParseSection_complete hc hadm.1 hlen.1]
    exact ih hlen.2 hadm.2

/-- **What the loader accepts.** The payload stands for a list of sections, at most sixteen,
each of which passes the loader's checks, and the module is what they add up to. Sizes the
loader reads numbers from are not negative as an `int`. -/
theorem eskbParsePayload_sound {payload : Bytes} (h : eskbParsePayload payload = some mod) :
    payload.length % 2 ^ 32 < 2 ^ 31 ∧ ∃ ds file, IsTable payload ds ∧ ds.length ≤ 16 ∧
      (∀ d ∈ ds, d.2.length < 2 ^ 32) ∧
      (∀ d ∈ ds, d.1 = 0 ∨ d.1 = 1 ∨ d.1 = 2 → d.2.length < 2 ^ 31) ∧
      List.Forall₂ (fun d c => IsSection d.1 d.2 c) ds file ∧
      Admits (fun mod c => c.Ok mod) EskbModule.add EskbModule.empty file ∧
      mod = file.foldl EskbModule.add EskbModule.empty := by
  rw [eskbParsePayload] at h
  obtain ⟨⟨n, r⟩, hn, h⟩ := Option.bind_eq_some_iff.mp h
  refine ⟨eskbReadLeb_size hn, ?_⟩
  simp only at h
  split at h
  · cases h
  obtain ⟨⟨table, r'⟩, htable, h⟩ := Option.bind_eq_some_iff.mp h
  obtain ⟨ds, hds, hfold⟩ := Option.bind_eq_some_iff.mp h
  obtain ⟨u, rfl, hu⟩ := eskbReadLeb_parses.sound hn
  obtain ⟨v, rfl, es, hv, hlen, hmax, rfl⟩ := (eskbReadDesc_parses.count n).sound htable
  rw [List.map_id] at hds
  obtain ⟨rfl, rfl⟩ := sectionBodies_eq_some.mp hds
  obtain ⟨file, hfile, hsize, hadm, rfl⟩ := foldlM_eskbParseSection hfold
  rw [List.length_map] at hlen
  have hsmall : ∀ d ∈ ds, d.2.length < 2 ^ 32 := by
    intro d hd
    have := hmax _ (List.mem_map_of_mem hd)
    simp only at this
    omega
  refine ⟨ds, file, ⟨u, v, rfl, hlen ▸ hu, hv⟩, by omega, hsmall, ?_, hfile, hadm, rfl⟩
  intro d hd hid
  have := hsize d hd hid
  rwa [Nat.mod_eq_of_lt (hsmall d hd)] at this

theorem eskbParsePayload_complete {payload : Bytes} (htable : IsTable payload ds)
    (hds : ds.length ≤ 16) (hfile : List.Forall₂ (fun d c => IsSection d.1 d.2 c) ds file)
    (hadm : Admits (fun mod c => c.Ok mod) EskbModule.add EskbModule.empty file)
    (hlen : payload.length < 2 ^ 31) :
    eskbParsePayload payload = some (file.foldl EskbModule.add EskbModule.empty) := by
  obtain ⟨u, v, rfl, hu, hv⟩ := htable
  have hbodies : ∀ d ∈ ds, d.2.length < 2 ^ 31 := by
    intro d hd
    have := length_le_flatten hd
    simp only [List.length_append] at hlen
    omega
  have hcount : count ds.length eskbReadDesc (v ++ (ds.map Prod.snd).flatten) =
      some (ds.map fun d => (d.1, d.2.length), (ds.map Prod.snd).flatten) := by
    refine (eskbReadDesc_parses.count ds.length).complete ⟨_, hv, by simp, ?_, by simp⟩ ?_
    · intro e he
      obtain ⟨d, hd, rfl⟩ := List.mem_map.mp he
      have := hbodies d hd
      simp only
      omega
    · simp only [List.length_append] at hlen ⊢
      omega
  rw [eskbParsePayload, eskbReadLeb_parses.complete hu hlen]
  change (if 16 < ds.length then none else _) = _
  rw [if_neg (by omega), hcount]
  change (sectionBodies _ _).bind _ = _
  rw [sectionBodies_eq_some.mpr ⟨rfl, rfl⟩]
  exact foldlM_eskbParseSection_complete hfile hbodies hadm

/-! ### The invariant of a loaded module -/

/-- What the checks establish about a module, whatever sections have been read. -/
structure Sound (mod : EskbModule) : Prop where
  /-- Names have a length between 1 and 255. -/
  name_ne : ∀ f ∈ mod.fns, f.name ≠ []
  name_le : ∀ f ∈ mod.fns, f.name.length ≤ 255
  /-- No two names are equal as C strings. -/
  distinct : mod.fns.Pairwise fun f g => cstr f.name ≠ cstr g.name
  /-- Code ranges lie inside the code array. -/
  range : ∀ f ∈ mod.fns, f.codeOffset + f.codeLen ≤ mod.code.length
  /-- Code targets lie inside the range of their function. -/
  target : ∀ f ∈ mod.fns, ∀ k i, f.codeOffset ≤ k → k < f.codeOffset + f.codeLen →
    mod.code[k]? = some i → eskbOperandIsCodeTarget i.op →
    f.codeOffset ≤ i.operand ∧ i.operand < f.codeOffset + f.codeLen
  /-- Every instruction belongs to a function. -/
  covered : ∀ k < mod.code.length, ∃ f ∈ mod.fns, f.codeOffset ≤ k ∧ k < f.codeOffset + f.codeLen

theorem Sound.empty : Sound EskbModule.empty where
  name_ne := by simp [EskbModule.fns, EskbModule.empty]
  name_le := by simp [EskbModule.fns, EskbModule.empty]
  distinct := by simp [EskbModule.fns, EskbModule.empty]
  range := by simp [EskbModule.fns, EskbModule.empty]
  target := by simp [EskbModule.fns, EskbModule.empty]
  covered := by simp [EskbModule.empty]

@[simp] theorem fns_addFunction (mod : EskbModule) (f : FunctionEntry) :
    (mod.addFunction f).fns = mod.fns ++ [⟨f.name, f.nParams.toNat, f.nLocals, f.nUpvalues,
      mod.code.length, f.code.length⟩] := rfl

@[simp] theorem code_addFunction (mod : EskbModule) (f : FunctionEntry) :
    (mod.addFunction f).code = mod.code ++ f.code.map (Instr.relocate mod.code.length) := rfl

theorem op_relocate (offset : ℕ) (i : Instr) : (i.relocate offset).op = i.op := by
  rw [Instr.relocate]
  split <;> rfl

theorem relocate_target {offset cl : ℕ} {i : Instr}
    (hi : eskbOperandIsCodeTarget i.op → 0 ≤ i.operand ∧ i.operand < cl)
    (ht : eskbOperandIsCodeTarget (i.relocate offset).op) :
    offset ≤ (i.relocate offset).operand ∧ (i.relocate offset).operand < offset + cl := by
  rw [op_relocate] at ht
  have := hi ht
  rw [Instr.relocate, if_pos ht]
  simp only
  omega

/-- A function that passed its checks keeps the module sound. -/
theorem Sound.addFunction (h : Sound mod) {f : FunctionEntry} (hf : f.Ok mod) :
    Sound (mod.addFunction f) where
  name_ne := by
    intro g hg
    rw [fns_addFunction, List.mem_append, List.mem_singleton] at hg
    rcases hg with hg | rfl
    · exact h.name_ne g hg
    · exact hf.name_ne
  name_le := by
    intro g hg
    rw [fns_addFunction, List.mem_append, List.mem_singleton] at hg
    rcases hg with hg | rfl
    · exact h.name_le g hg
    · exact hf.name_le
  distinct := by
    rw [fns_addFunction, List.pairwise_append]
    refine ⟨h.distinct, List.pairwise_singleton _ _, ?_⟩
    intro g hg g' hg'
    obtain rfl := List.mem_singleton.mp hg'
    exact hf.fresh g hg
  range := by
    intro g hg
    rw [fns_addFunction, List.mem_append, List.mem_singleton] at hg
    rw [code_addFunction, List.length_append, List.length_map]
    rcases hg with hg | rfl
    · have := h.range g hg
      omega
    · exact le_rfl
  target := by
    intro g hg k i hlo hhi hk ht
    rw [fns_addFunction, List.mem_append, List.mem_singleton] at hg
    rw [code_addFunction] at hk
    rcases hg with hg | rfl
    · have := h.range g hg
      rw [List.getElem?_append_left (by omega)] at hk
      exact h.target g hg k i hlo hhi hk ht
    · simp only at hlo hhi
      rw [List.getElem?_append_right hlo, List.getElem?_map] at hk
      obtain ⟨j, hj, rfl⟩ := Option.map_eq_some_iff.mp hk
      exact relocate_target (hf.targets j (List.mem_of_getElem? hj)) ht
  covered := by
    intro k hk
    rw [code_addFunction, List.length_append, List.length_map] at hk
    rw [fns_addFunction]
    by_cases hlt : k < mod.code.length
    · obtain ⟨g, hg, hrange⟩ := h.covered k hlt
      exact ⟨g, List.mem_append_left _ hg, hrange⟩
    · exact ⟨_, List.mem_append_right _ (List.mem_singleton_self _), by simp only; omega⟩

theorem Sound.foldl_addFunction {fs : List FunctionEntry} (h : Sound mod)
    (hfs : Admits FunctionEntry.Ok EskbModule.addFunction mod fs) :
    Sound (fs.foldl EskbModule.addFunction mod) := by
  induction fs generalizing mod with
  | nil => exact h
  | cons f fs ih => exact ih (h.addFunction hfs.1) hfs.2

theorem Sound.of_eq (h : Sound mod) (hf : mod'.fns = mod.fns) (hc : mod'.code = mod.code) :
    Sound mod' where
  name_ne := hf ▸ h.name_ne
  name_le := hf ▸ h.name_le
  distinct := hf ▸ h.distinct
  range := hf ▸ hc ▸ h.range
  target := hf ▸ hc ▸ h.target
  covered := hf ▸ hc ▸ h.covered

theorem Sound.add (h : Sound mod) {c : Content} (hc : c.Ok mod) : Sound (mod.add c) := by
  cases c with
  | consts cs => exact h.of_eq rfl rfl
  | code fs =>
    obtain ⟨-, hnone, hfs⟩ := hc
    refine Sound.foldl_addFunction (h.of_eq ?_ rfl) hfs
    rw [EskbModule.fns, EskbModule.fns, hnone]
    rfl
  | source s => exact h.of_eq rfl rfl
  | skipped id bs => exact h

theorem Sound.foldl_add (h : Sound mod)
    (hfile : Admits (fun mod c => c.Ok mod) EskbModule.add mod file) :
    Sound (file.foldl EskbModule.add mod) := by
  induction file generalizing mod with
  | nil => exact h
  | cons c file ih => exact ih (h.add hfile.1) hfile.2

/-- The function names in a section. -/
def Content.names : Content → List Bytes
  | .code fs => fs.map FunctionEntry.name
  | _ => []

theorem names_foldl_addFunction (fs : List FunctionEntry) (mod : EskbModule) :
    (fs.foldl EskbModule.addFunction mod).fns.map EskbFunction.name =
      mod.fns.map EskbFunction.name ++ fs.map FunctionEntry.name := by
  induction fs generalizing mod with
  | nil => simp
  | cons f fs ih => simp [ih]

theorem names_foldl_add (hfile : Admits (fun mod c => c.Ok mod) EskbModule.add mod file) :
    (file.foldl EskbModule.add mod).fns.map EskbFunction.name =
      mod.fns.map EskbFunction.name ++ file.flatMap Content.names := by
  induction file generalizing mod with
  | nil => simp
  | cons c file ih =>
    have hadd : (mod.add c).fns.map EskbFunction.name =
        mod.fns.map EskbFunction.name ++ c.names := by
      cases c with
      | code fs =>
        have hnone := hfile.1.2.1
        rw [EskbModule.add, names_foldl_addFunction, EskbModule.fns, EskbModule.fns, hnone]
        rfl
      | consts cs => simp [EskbModule.add, EskbModule.fns, Content.names]
      | source s => simp [EskbModule.add, EskbModule.fns, Content.names]
      | skipped id bs => simp [EskbModule.add, Content.names]
    rw [List.foldl_cons, ih hfile.2, hadd, List.flatMap_cons, List.append_assoc]

/-! ### Safety of the loader -/

/-- What a caller may rely on after loading `data`. -/
structure Safe (data : Bytes) (mod : EskbModule) : Prop where
  /-- The header is there, with the magic number and the version. -/
  size : 16 ≤ data.length
  magic : leValue (data.take 4) = 0x45534B42
  version : leValue ((data.drop 4).take 4) = 2
  /-- The checksum is that of everything after the header. -/
  crc : leValue ((data.drop 12).take 4) = (eskbCrc32 (data.drop 16)).toNat
  /-- The bytes after the header are a section table and its sections, every one of which is
  its contents from the first byte to the last; the module is what they add up to. -/
  sections : ∃ file, IsPayload (data.drop 16) file ∧
    mod = file.foldl EskbModule.add EskbModule.empty
  /-- No function name is empty, and no two are equal. -/
  name_ne : ∀ f ∈ mod.fns, cstr f.name ≠ []
  distinct : mod.fns.Pairwise fun f g => cstr f.name ≠ cstr g.name
  /-- Code ranges lie inside the code array, and every instruction is in one. -/
  range : ∀ f ∈ mod.fns, f.codeOffset + f.codeLen ≤ mod.code.length
  covered : ∀ k < mod.code.length, ∃ f ∈ mod.fns, f.codeOffset ≤ k ∧ k < f.codeOffset + f.codeLen
  /-- Code targets lie inside the code range of their function. -/
  target : ∀ f ∈ mod.fns, ∀ k i, f.codeOffset ≤ k → k < f.codeOffset + f.codeLen →
    mod.code[k]? = some i → eskbOperandIsCodeTarget i.op →
    f.codeOffset ≤ i.operand ∧ i.operand < f.codeOffset + f.codeLen

/-- No function name in the file begins with a NUL byte. -/
def NamesBegin (data : Bytes) : Prop :=
  ∀ file, IsPayload (data.drop 16) file → ∀ name ∈ file.flatMap Content.names,
    name.head? ≠ some 0

theorem eskbLoadMemory_eq_some {data : Bytes} :
    eskbLoadMemory data = some mod ↔ 16 ≤ data.length ∧
      leValue (data.take 4) = 0x45534B42 ∧ leValue ((data.drop 4).take 4) = 2 ∧
      leValue ((data.drop 12).take 4) = (eskbCrc32 (data.drop 16)).toNat ∧
      eskbParsePayload (data.drop 16) = some mod := by
  rw [eskbLoadMemory]
  split_ifs with h1 h2 h3 h4
  · simp [h1]
  · simp [h2]
  · simp [h3]
  · simp [h4]
  · simp only [not_not] at h2 h3 h4
    simp only [h2, h3, h4, true_and, Nat.not_lt.mp h1]

/-- **Safety of the loader.** A file that is accepted is safe exactly when no function name
in it begins with a NUL byte: the length of a name is checked, but the name is kept as a C
string. -/
theorem eskbLoadMemory_safe_iff {data : Bytes} {mod : EskbModule}
    (h : eskbLoadMemory data = some mod) : Safe data mod ↔ NamesBegin data := by
  obtain ⟨hsize, hmagic, hversion, hcrc, hparse⟩ := eskbLoadMemory_eq_some.mp h
  obtain ⟨-, ds, file, htable, -, -, -, hfile, hadm, rfl⟩ := eskbParsePayload_sound hparse
  have hpayload : IsPayload (data.drop 16) file := ⟨ds, htable, hfile⟩
  have hsound := Sound.empty.foldl_add hadm
  have hnames := names_foldl_add hadm
  rw [show EskbModule.empty.fns = [] from rfl, List.map_nil, List.nil_append] at hnames
  constructor
  · intro hsafe file' hfile' name hname hhead
    obtain rfl := hpayload.unique hfile'
    rw [← hnames] at hname
    obtain ⟨f, hf, rfl⟩ := List.mem_map.mp hname
    exact hsafe.name_ne f hf (cstr_eq_nil_iff.mpr (.inr hhead))
  · intro hbegin
    refine ⟨hsize, hmagic, hversion, hcrc, ⟨file, hpayload, rfl⟩, ?_, hsound.distinct,
      hsound.range, hsound.covered, hsound.target⟩
    intro f hf hnil
    rcases cstr_eq_nil_iff.mp hnil with hempty | hhead
    · exact hsound.name_ne f hf hempty
    · exact hbegin file hpayload f.name (hnames ▸ List.mem_map_of_mem hf) hhead

/-- A file with one function, named by one NUL byte, of one instruction. -/
def nulNameFile : Bytes :=
  [66, 75, 83, 69, 2, 0, 0, 0, 1, 0, 0, 0, 224, 0, 248, 7, 1, 1, 9, 1, 1, 0, 0, 0, 0, 1, 0, 0]

/-- A file with one function, named `f`, of one instruction. -/
def oneFunctionFile : Bytes :=
  [66, 75, 83, 69, 2, 0, 0, 0, 1, 0, 0, 0, 63, 121, 158, 239, 1, 1, 9, 1, 1, 102, 0, 0, 0, 1, 0, 0]

theorem eskbLoadMemory_safe_iff_one :
    eskbLoadMemory oneFunctionFile = some ⟨[⟨0, 0⟩], none, some [⟨[102], 0, 0, 0, 0, 1⟩], none⟩ ∧
      (Safe oneFunctionFile ⟨[⟨0, 0⟩], none, some [⟨[102], 0, 0, 0, 0, 1⟩], none⟩ ↔
        NamesBegin oneFunctionFile) :=
  ⟨by decide +kernel, eskbLoadMemory_safe_iff (by decide +kernel)⟩

/-- A name that is one NUL byte is accepted, and is the empty string. -/
theorem eskbLoadMemory_nul_name :
    ∃ mod, eskbLoadMemory nulNameFile = some mod ∧ ¬ Safe nulNameFile mod := by
  refine ⟨⟨[⟨0, 0⟩], none, some [⟨[0], 0, 0, 0, 0, 1⟩], none⟩, by decide +kernel, ?_⟩
  intro hsafe
  exact hsafe.name_ne ⟨[0], 0, 0, 0, 0, 1⟩ (List.mem_singleton_self _) (by decide)

end Eshkol.Eskb
