import Mathlib.Algebra.Order.BigOperators.Group.List
import Mathlib.Data.List.TakeWhile
import Eshkol.Codec.Parser

/-!
# The ESKB Container

The format of compiled bytecode files (`lib/backend/eskb_format.h`): a header of sixteen
bytes with a checksum, a table of sections, and the sections, whose numbers are LEB128
numerals. The format is stated twice. The functions of `eskb_format.h` are modelled as they
compute, under their own names; and `IsPayload` says which byte strings stand for which
sections, with no reference to a reader. A reader is the remaining bytes of its buffer.
-/

namespace Eshkol.Eskb

open Codec

/-! ### Numbers -/

/-- `eskb_write_leb128`: seven bits a byte, the low ones first. -/
def eskbWriteLeb128 (val : UInt64) : Bytes := numeral 10 val.toNat

/-- A numeral of ten bytes at most, taken modulo `2 ^ 64`. -/
def Leb : Format ℕ := fun bs v =>
  bs.length ≤ 10 ∧ ∃ m, Numeral bs m ∧ v = m % 2 ^ 64

/-- `(int)n` for a `size_t`, as far as a count is concerned: a negative value is no bytes
at all. -/
def intOfSize (n : ℕ) : ℕ := if n % 2 ^ 32 < 2 ^ 31 then n % 2 ^ 32 else 0

/-- `eskb_read_leb`, with `eskb_read_leb128`. The loop runs while `n < (int)buf_len` and
`n < 10`. -/
def eskbReadLeb : Parser ℕ := fun bs =>
  readNumeral 64 (min (intOfSize bs.length) 10) 0 0 bs

theorem leb_eskbWriteLeb128 (val : UInt64) : Leb (eskbWriteLeb128 val) val.toNat := by
  have hval := val.toNat_lt
  obtain ⟨hnum, hlen⟩ := numeral_spec (n := 10) (v := val.toNat) (by omega) (by omega)
  exact ⟨hlen, _, hnum, (Nat.mod_eq_of_lt hval).symm⟩

variable {bs : Bytes} {v : ℕ} {ds : List (UInt8 × Bytes)}

theorem Leb.lt (h : Leb bs v) : v < 2 ^ 64 := by
  obtain ⟨-, m, -, rfl⟩ := h
  exact Nat.mod_lt _ (by positivity)

theorem Leb.prefixFree : PrefixFree Leb := by
  rintro u v r s _ _ ⟨-, m, hm, rfl⟩ ⟨-, m', hm', rfl⟩ h
  obtain ⟨rfl, rfl⟩ := Numeral.prefixFree hm hm' h
  exact ⟨rfl, rfl⟩

theorem eskbReadLeb_eq_some {rest : Bytes} :
    eskbReadLeb bs = some (v, rest) ↔
      ∃ u, bs = u ++ rest ∧ Leb u v ∧ u.length ≤ intOfSize bs.length := by
  rw [eskbReadLeb, readNumeral_eq_some]
  constructor
  · rintro ⟨u, m, hbs, hu, hlen, rfl⟩
    obtain ⟨hint, hten⟩ := le_min_iff.mp hlen
    exact ⟨u, hbs, ⟨hten, m, hu, by simp⟩, hint⟩
  · rintro ⟨u, hbs, ⟨hten, m, hu, rfl⟩, hint⟩
    exact ⟨u, m, hbs, hu, le_min hint hten, by simp⟩

theorem intOfSize_of_lt {n : ℕ} (h : n < 2 ^ 31) : intOfSize n = n := by
  rw [intOfSize, Nat.mod_eq_of_lt (by omega), if_pos h]

theorem eskbReadLeb_parses : Parses (2 ^ 31) eskbReadLeb Leb where
  sound h := by
    obtain ⟨u, hbs, hu, -⟩ := eskbReadLeb_eq_some.mp h
    exact ⟨u, hbs, hu⟩
  complete := by
    intro u rest v hu hlen
    refine eskbReadLeb_eq_some.mpr ⟨u, rfl, hu, ?_⟩
    rw [intOfSize_of_lt hlen, List.length_append]
    omega

theorem eskbReadLeb_size {rest : Bytes} (h : eskbReadLeb bs = some (v, rest)) :
    bs.length % 2 ^ 32 < 2 ^ 31 := by
  obtain ⟨u, -, ⟨-, m, hm, -⟩, hlen⟩ := eskbReadLeb_eq_some.mp h
  have hpos := hm.length_pos
  by_contra hge
  rw [intOfSize, if_neg hge] at hlen
  omega

/-- One bit of `eskb_crc32`. -/
def crcStep (crc : UInt32) : UInt32 := (crc >>> 1) ^^^ (0xEDB88320 &&& (-(crc &&& 1)))

def eskbCrc32 (data : Bytes) : UInt32 :=
  ~~~ data.foldl (fun crc b => crcStep^[8] (crc ^^^ b.toUInt32)) 0xFFFFFFFF

/-! ### Names -/

/-- The C string in a buffer: the bytes before the first NUL. -/
def cstr (bs : Bytes) : Bytes := bs.takeWhile (· ≠ 0)

/-- A C string, as the bytes before its terminator. -/
abbrev CString : Type := { s : Bytes // 0 ∉ s }

theorem cstr_of_not_mem (h : 0 ∉ bs) : cstr bs = bs := by
  rw [cstr, List.takeWhile_eq_self_iff]
  intro b hb
  simp only [decide_eq_true_eq]
  rintro rfl
  exact h hb

theorem cstr_eq_nil_iff : cstr bs = [] ↔ bs = [] ∨ bs.head? = some 0 := by
  cases bs with
  | nil => simp [cstr]
  | cons b bs =>
    rw [cstr, List.takeWhile_cons]
    by_cases hb : b = 0 <;> simp [hb]

/-! ### Contents of a file -/

/-- Whether the operand of an opcode is a code address: `JUMP`, `JUMP_IF_FALSE`, `LOOP` and
`PUSH_HANDLER` (`eskb_operand_is_code_target`). -/
def eskbOperandIsCodeTarget (op : UInt8) : Bool := op == 28 || op == 29 || op == 30 || op == 57

/-- An instruction with its operand. -/
structure Instr where
  op : UInt8
  operand : ℤ
  deriving DecidableEq, Repr

/-- A constant of the pool. Numbers are 64-bit patterns. -/
inductive Const : Type
  | nil
  | int64 (i : UInt64)
  | f64 (f : UInt64)
  | bool (b : UInt8)
  | string (s : Bytes)
  deriving DecidableEq, Repr

/-- A function as the file has it: its code targets count from its first instruction. -/
structure FunctionEntry where
  name : Bytes
  nParams : UInt8
  nLocals : ℕ
  nUpvalues : ℕ
  code : List Instr
  deriving DecidableEq, Repr

/-- What a section holds. Sections the loader does not know are kept as they are. -/
inductive Content : Type
  | consts (cs : List Const)
  | code (fs : List FunctionEntry)
  | source (s : Bytes)
  | skipped (id : UInt8) (bs : Bytes)
  deriving DecidableEq, Repr

/-! ### The format -/

/-- The operand a zigzag numeral stands for. -/
def unzigzag (z : ℕ) : ℤ := if z % 2 = 1 then -(z / 2 : ℕ) - 1 else (z / 2 : ℕ)

/-- A string after its length. -/
def IsString : Format Bytes := fun bs s =>
  ∃ n, bs = n ++ s ∧ Leb n s.length

/-- An opcode and a zigzag operand of 32 bits. -/
def IsInstr : Format Instr := fun bs i =>
  ∃ n z, bs = i.op :: n ∧ Leb n z ∧ z < 2 ^ 32 ∧ i.operand = unzigzag z

/-- A list after its length. -/
def Counted {α : Type} (R : Format α) : Format (List α) := fun bs as =>
  ∃ n body, bs = n ++ body ∧ Leb n as.length ∧ Concat R body as

/-- A constant after its tag. -/
inductive IsConst : Format Const
  | nil : IsConst [0] .nil
  | int64 (i : UInt64) : IsConst (1 :: littleEndian 8 i.toNat) (.int64 i)
  | f64 (f : UInt64) : IsConst (2 :: littleEndian 8 f.toNat) (.f64 f)
  | bool (b : UInt8) : IsConst [3, b] (.bool b)
  | string {bs s : Bytes} : IsString bs s → IsConst (6 :: bs) (.string s)

/-- Name, counts and instructions. -/
def IsFunction : Format FunctionEntry := fun bs f =>
  ∃ name locals upvalues code, bs = name ++ f.nParams :: (locals ++ (upvalues ++ code)) ∧
    IsString name f.name ∧ Leb locals f.nLocals ∧ Leb upvalues f.nUpvalues ∧
    Counted IsInstr code f.code

/-- An entry of the section table: identifier and size. -/
def IsDesc : Format (UInt8 × ℕ) := fun bs d =>
  ∃ n, bs = d.1 :: n ∧ Leb n d.2

/-- The bytes of a section with a given identifier. -/
inductive IsSection : UInt8 → Format Content
  | consts {bs : Bytes} {cs : List Const} : Counted IsConst bs cs → IsSection 0 bs (.consts cs)
  | code {bs : Bytes} {fs : List FunctionEntry} :
      Counted IsFunction bs fs → IsSection 1 bs (.code fs)
  | source {bs s : Bytes} : IsString bs s → IsSection 2 bs (.source s)
  | skipped {id : UInt8} (bs : Bytes) (h0 : id ≠ 0) (h1 : id ≠ 1) (h2 : id ≠ 2) :
      IsSection id bs (.skipped id bs)

/-- A payload with its sections cut out: the number of sections, the table of identifiers
and sizes, and the sections themselves, which fill the rest exactly. -/
def IsTable : Format (List (UInt8 × Bytes)) := fun bs ds =>
  ∃ n table, bs = n ++ (table ++ (ds.map Prod.snd).flatten) ∧ Leb n ds.length ∧
    Concat IsDesc table (ds.map fun d => (d.1, d.2.length))

/-- A payload and what its sections hold. -/
def IsPayload : Format (List Content) := fun bs file =>
  ∃ ds, IsTable bs ds ∧ List.Forall₂ (fun d c => IsSection d.1 d.2 c) ds file

theorem length_le_flatten {d : UInt8 × Bytes} (hd : d ∈ ds) :
    d.2.length ≤ (ds.map Prod.snd).flatten.length := by
  rw [List.length_flatten]
  exact List.single_le_sum (fun _ _ => Nat.zero_le _) _
    (List.mem_map_of_mem (List.mem_map_of_mem hd))

/-! ### A payload stands for one file -/

theorem IsString.prefixFree : PrefixFree IsString := by
  rintro _ _ r s a b ⟨n, rfl, hn⟩ ⟨m, rfl, hm⟩ h
  rw [List.append_assoc, List.append_assoc] at h
  obtain ⟨rfl, hlen⟩ := Leb.prefixFree hn hm h
  obtain ⟨rfl, -⟩ := List.append_inj (List.append_cancel_left h) hlen
  exact ⟨rfl, rfl⟩

theorem IsInstr.prefixFree : PrefixFree IsInstr := by
  rintro _ _ r s ⟨op, x⟩ ⟨op', x'⟩ ⟨n, z, rfl, hn, -, rfl⟩ ⟨n', z', rfl, hn', -, rfl⟩ h
  rw [List.cons_append, List.cons_append, List.cons.injEq] at h
  obtain ⟨rfl, h⟩ := h
  obtain ⟨rfl, rfl⟩ := Leb.prefixFree hn hn' h
  exact ⟨rfl, rfl⟩

theorem Counted.prefixFree {α : Type} {R : Format α} (hR : PrefixFree R) :
    PrefixFree (Counted R) := by
  rintro _ _ r s as bs ⟨n, u, rfl, hn, hu⟩ ⟨m, v, rfl, hm, hv⟩ h
  rw [List.append_assoc, List.append_assoc] at h
  obtain ⟨rfl, hlen⟩ := Leb.prefixFree hn hm h
  obtain ⟨rfl, rfl⟩ := hR.concat as.length ⟨hu, rfl⟩ ⟨hv, hlen.symm⟩
    (List.append_cancel_left h)
  exact ⟨rfl, rfl⟩

theorem IsFunction.prefixFree : PrefixFree IsFunction := by
  rintro _ _ r s f g ⟨nm, l, u, c, rfl, hnm, hl, hu, hc⟩ ⟨nm', l', u', c', rfl, hnm', hl', hu', hc'⟩ h
  simp only [List.append_assoc, List.cons_append] at h
  obtain ⟨rfl, hname⟩ := IsString.prefixFree hnm hnm' h
  have h := List.append_cancel_left h
  rw [List.cons.injEq] at h
  obtain ⟨hparams, h⟩ := h
  obtain ⟨rfl, hlocals⟩ := Leb.prefixFree hl hl' h
  have h := List.append_cancel_left h
  obtain ⟨rfl, hups⟩ := Leb.prefixFree hu hu' h
  obtain ⟨rfl, hcode⟩ := Counted.prefixFree IsInstr.prefixFree hc hc'
    (List.append_cancel_left h)
  cases f
  cases g
  simp_all

theorem littleEndian_inj {u v : UInt64} {r s : Bytes}
    (h : littleEndian 8 u.toNat ++ r = littleEndian 8 v.toNat ++ s) : u = v := by
  obtain ⟨h, -⟩ := List.append_inj h (by simp)
  have hval := congrArg leValue h
  have hu := u.toNat_lt
  have hv := v.toNat_lt
  rw [leValue_littleEndian, leValue_littleEndian] at hval
  apply UInt64.toNat_inj.mp
  omega

theorem IsConst.prefixFree : PrefixFree IsConst := by
  intro u v r s a b hu hv h
  -- two different tags cannot begin one string
  cases hu <;> cases hv <;>
    simp only [List.cons_append, List.nil_append, List.cons.injEq, true_and] at h <;>
    try exact absurd h.1 (by decide)
  case nil.nil => exact ⟨rfl, rfl⟩
  case int64.int64 i j =>
    obtain rfl := littleEndian_inj h
    exact ⟨rfl, rfl⟩
  case f64.f64 i j =>
    obtain rfl := littleEndian_inj h
    exact ⟨rfl, rfl⟩
  case bool.bool =>
    obtain ⟨rfl, -⟩ := h
    exact ⟨rfl, rfl⟩
  case string.string ha _ _ hb =>
    obtain ⟨rfl, rfl⟩ := IsString.prefixFree ha hb h
    exact ⟨rfl, rfl⟩

theorem IsDesc.prefixFree : PrefixFree IsDesc := by
  rintro _ _ r s ⟨i, n⟩ ⟨j, m⟩ ⟨u, rfl, hu⟩ ⟨v, rfl, hv⟩ h
  rw [List.cons_append, List.cons_append, List.cons.injEq] at h
  obtain ⟨rfl, h⟩ := h
  obtain ⟨rfl, rfl⟩ := Leb.prefixFree hu hv h
  exact ⟨rfl, rfl⟩

theorem IsSection.unique {id : UInt8} {c d : Content} (hc : IsSection id bs c)
    (hd : IsSection id bs d) : c = d := by
  cases hc <;> cases hd <;> try contradiction
  case consts.consts h _ h' => rw [(Counted.prefixFree IsConst.prefixFree).unique h h']
  case code.code h _ h' => rw [(Counted.prefixFree IsFunction.prefixFree).unique h h']
  case source.source h _ h' => rw [IsString.prefixFree.unique h h']
  case skipped.skipped => rfl

theorem sections_unique {es : List (UInt8 × Bytes)}
    (hdesc : (ds.map fun d => (d.1, d.2.length)) = es.map fun d => (d.1, d.2.length))
    (h : (ds.map Prod.snd).flatten = (es.map Prod.snd).flatten) : ds = es := by
  induction ds generalizing es with
  | nil => simpa using hdesc
  | cons d ds ih =>
    cases es with
    | nil => simp at hdesc
    | cons e es =>
      simp only [List.map_cons, List.cons.injEq, Prod.mk.injEq] at hdesc
      simp only [List.map_cons, List.flatten_cons] at h
      obtain ⟨hbody, hrest⟩ := List.append_inj h hdesc.1.2
      rw [ih hdesc.2 hrest, Prod.ext hdesc.1.1 hbody]

theorem IsTable.unique {es : List (UInt8 × Bytes)} (hd : IsTable bs ds) (he : IsTable bs es) :
    ds = es := by
  obtain ⟨n, t, rfl, hn, ht⟩ := hd
  obtain ⟨m, t', h, hm, ht'⟩ := he
  obtain ⟨rfl, hlen⟩ := Leb.prefixFree hn hm h
  have h := List.append_cancel_left h
  obtain ⟨rfl, hdesc⟩ := IsDesc.prefixFree.concat ds.length ⟨ht, by simp⟩
    ⟨ht', by simp [hlen]⟩ h
  exact sections_unique hdesc (List.append_cancel_left h)

theorem IsPayload.unique {f g : List Content} (hf : IsPayload bs f) (hg : IsPayload bs g) :
    f = g := by
  obtain ⟨ds, hds, hf⟩ := hf
  obtain ⟨es, hes, hg⟩ := hg
  obtain rfl := hds.unique hes
  clear hds hes
  induction hf generalizing g with
  | nil =>
    cases hg
    rfl
  | cons hc _ ih =>
    cases hg with
    | cons hd hg => rw [hc.unique hd, ih hg]

end Eshkol.Eskb
