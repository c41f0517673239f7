import Eshkol.Codec.Parser
import Eshkol.Native.KnowledgeBase
import Eshkol.Native.Parse

/-!
# Knowledge Base Files

`kb-save` and `kb-load` (`lib/core/kb_persistence.cpp`): the bytes that are written for a
knowledge base, and the facts that are read from a file.

Words are in the order of the machine, the low byte first. The file is written and read
without errors of the device, and a `NULL` value has a payload of 0. A bignum is printed with
no arena to put the text in, which fails, so that no knowledge base with a bignum is saved.
What a failed save leaves in the file is the subject of `Eshkol.Native.KbSave`.

The reader has limits that the writer does not have: names of 255 bytes, 4096 arguments and
texts of 16 MiB. It interns each name that it reads, the empty one too, which stands for a
predicate of 0. When the name does not fit into the table, the predicate is the address of the
reader's own buffer.
-/

namespace Eshkol

open Codec
open Eskb (CString cstr)

/-! ### Writing -/

/-- A fact with the `flags` of its arguments. -/
structure TaggedFact : Type where
  predicate : UInt64
  args : List (UInt8 × Datum)

/-- The fact without `flags`, which the logic engine does not look at. -/
def TaggedFact.fact (fact : TaggedFact) : Fact := ⟨fact.predicate, fact.args.map Prod.snd⟩

/-- `persistence_scan_result_t`. -/
inductive PersistenceScan : Type
  | clear
  | float32
  | invalid
  deriving DecidableEq

/-- A value of type `ESHKOL_VALUE_FLOAT32`. -/
def Datum.isFloat32 : Datum → Bool
  | .other type _ => type == 11
  | _ => false

/-- A value of type `ESHKOL_VALUE_HEAP_PTR` that is not `NULL`. -/
def Datum.onHeap : Datum → Bool
  | .str _ | .sym _ | .bignum _ | .cons _ _ | .fact _ _ => true
  | .other type _ => type == 8
  | _ => false

/-- The first result that is not `clear`. -/
def scanAll (scan : Datum → PersistenceScan) : List Datum → PersistenceScan
  | [] => .clear
  | v :: vs => match scan v with
    | .clear => scanAll scan vs
    | r => r

/-- `tagged_persistence_scan`, with `n` levels left. A value is not part of itself, so that no
object is met twice on the way down. -/
def taggedPersistenceScan : ℕ → Datum → PersistenceScan
  | 0, v => if v.isFloat32 then .float32 else if v.onHeap then .invalid else .clear
  | n + 1, v =>
    if v.isFloat32 then .float32
    else match v with
      | .cons car cdr => scanAll (taggedPersistenceScan n) [car, cdr]
      | .fact _ args =>
        if 4096 < args.length then .invalid else scanAll (taggedPersistenceScan n) args
      | _ => .clear

/-- An immediate value. -/
def writeImmediate (type flags : UInt8) (raw : UInt64) : Option Bytes :=
  some (type :: flags :: littleEndian 8 raw.toNat)

/-- A string or a symbol. -/
def writeText (subtype flags : UInt8) (s : CString) : Option Bytes :=
  if 0x7FFFFFFF < s.1.length then none
  else some (8 :: flags :: subtype :: (littleEndian 4 s.1.length ++ s.1))

def writeArg : UInt8 × Datum → Option Bytes
  | (flags, .null) => writeImmediate 0 flags 0
  | (flags, .int i) => writeImmediate 1 flags i.toUInt64
  | (flags, .double d) => writeImmediate 2 flags d
  | (flags, .bool i) => writeImmediate 3 flags i.toUInt64
  | (flags, .char i) => writeImmediate 4 flags i.toUInt64
  | (flags, .var i) => writeImmediate 10 flags i
  | (flags, .nullPtr) => some (8 :: flags :: 0xFF :: littleEndian 4 0)
  | (flags, .str s) => writeText 1 flags s
  | (flags, .sym s) => writeText 10 flags s
  -- `eshkol_bignum_to_string` is given no arena
  | (_, .bignum _) => none
  | (_, .cons _ _) | (_, .fact _ _) | (_, .other _ _) => none

/-- The name that is written for a predicate: its length is cut to 32 bits. -/
def storedName (env : LogicEnv) (predicate : UInt64) : Bytes :=
  if predicate = 0 then []
  else (env.predicateText predicate).1.take ((env.predicateText predicate).1.length % 2 ^ 32)

/-- One round of the loop of `eshkol_kb_save_tagged`. -/
def writeFact (env : LogicEnv) (fact : TaggedFact) : Option Bytes := do
  let args ← writeAll writeArg fact.args
  some (littleEndian 4 (storedName env fact.predicate).length ++
    (storedName env fact.predicate ++ (littleEndian 4 fact.args.length ++ args)))

/-- The header: `ESKB_MAGIC`, `ESKB_VERSION`, `num_facts` and the reserved word. -/
def kbHeader (numFacts : ℕ) : Bytes :=
  littleEndian 4 0x45534B42 ++ (littleEndian 4 2 ++ (littleEndian 4 numFacts ++ littleEndian 4 0))

/-- `eshkol_kb_save_tagged`: the file, if the save succeeds. -/
def eshkolKbSave (env : LogicEnv) (kb : List TaggedFact) : Option Bytes :=
  if ∀ fact ∈ kb, ∀ arg ∈ fact.args, taggedPersistenceScan 64 arg.2 = .clear then do
    let facts ← writeAll (writeFact env) kb
    some (kbHeader kb.length ++ facts)
  else none

/-! ### Reading -/

/-- The C string in a buffer. -/
def textOf (buf : Bytes) : CString := ⟨cstr buf, fun h => by simpa using List.mem_takeWhile_imp h⟩

/-- The value of an immediate type. -/
def immediate (raw : UInt64) : UInt8 → Option Datum
  | 0 => some .null
  | 1 => some (.int raw.toInt64)
  | 2 => some (.double raw)
  | 3 => some (.bool raw.toInt64)
  | 4 => some (.char raw.toInt64)
  | 10 => some (.var raw)
  | _ => none

theorem eshkolBignumFromString_normalized {s : List Char} {b : Bignum}
    (h : eshkolBignumFromString s = some b) : b.Normalized := by
  rw [eshkolBignumFromString] at h
  split at h
  · cases h
  · obtain ⟨limbs, -, rfl⟩ := Option.map_eq_some_iff.mp h
    exact bignumNormalize_normalized _ _

/-- The bignum whose decimal text is given. -/
def bignumOf (buf : Bytes) : Option { b : Bignum // b.Normalized } :=
  (eshkolBignumFromString (buf.map fun b => Char.ofNat b.toNat)).pmap Subtype.mk
    fun _ h => eshkolBignumFromString_normalized h

/-- The content of an object, from `len` bytes. -/
def readContent (subtype : UInt8) (len : ℕ) : Parser Datum := do
  check (len ≤ 16 * 1024 * 1024)
  let buf ← bytes len
  match subtype with
  | 1 => pure (.str (textOf buf))
  | 10 => pure (.sym (textOf buf))
  | 11 => fun rest => (bignumOf buf).map fun b => (.bignum b, rest)
  | _ => fun _ => none

/-- The `ESHKOL_VALUE_HEAP_PTR` case of `read_arg`. -/
def readHeap : Parser Datum := do
  let subtype ← Codec.byte
  let len ← word 4
  if subtype = 0xFF then pure .nullPtr else readContent subtype len

def readArg : Parser (UInt8 × Datum) := do
  let type ← Codec.byte
  let flags ← Codec.byte
  if type = 8 then do
    let v ← readHeap
    pure (flags, v)
  else do
    let raw ← word 8
    fun rest => (immediate (UInt64.ofNat raw) type).map fun v => ((flags, v), rest)

/-- The name and the arity of a fact, after the length of the name. -/
def readHead (nameLen : ℕ) : Parser (Bytes × ℕ) := do
  let name ← bytes nameLen
  let arity ← word 4
  pure (name, arity)

/-- The loop of `eshkol_kb_load_tagged`, for the `n` facts that are left. `nameBuf` is the
address of its buffer. A fact that is cut off before its arguments ends the loop; in all other
cases of failure nothing is returned. -/
def loadFacts (pool nameBuf : UInt64) : ℕ → PredicateTable → Bytes → List TaggedFact →
    PredicateTable × Option (List TaggedFact)
  | 0, table, _, kb => (table, some kb)
  | n + 1, table, bs, kb =>
    match word 4 bs with
    | none => (table, some kb)
    | some (nameLen, bs) =>
      if 255 < nameLen then (table, none)
      else match readHead nameLen bs with
        | none => (table, some kb)
        | some ((name, arity), bs) =>
          if 4096 < arity then (table, none)
          else
            let interned := eshkolInternPredicate pool table nameBuf (textOf name)
            match count arity readArg bs with
            | none => (interned.1, none)
            | some (args, bs) =>
              loadFacts pool nameBuf n interned.1 bs (kb ++ [⟨interned.2, args⟩])

/-- The header, of which the number of facts is used. -/
def readKbHeader : Parser ℕ := do
  let magic ← word 4
  check (magic = 0x45534B42)
  let version ← word 4
  let numFacts ← word 4
  let _ ← word 4
  check (version = 2)
  pure numFacts

/-- `eshkol_kb_load_tagged`: the table of predicates afterwards, and the knowledge base. -/
def eshkolKbLoad (pool nameBuf : UInt64) (table : PredicateTable) (file : Bytes) :
    PredicateTable × Option (List TaggedFact) :=
  match readKbHeader file with
  | none => (table, none)
  | some (numFacts, bs) => loadFacts pool nameBuf numFacts table bs []

/-! ### Arguments -/

/-- The length of a string or a symbol. -/
def Datum.textLength : Datum → ℕ
  | .str s | .sym s => s.1.length
  | _ => 0

/-- A value that is no text of more than 16 MiB. -/
def Datum.Short (v : Datum) : Prop := v.textLength ≤ 16 * 1024 * 1024

theorem textOf_eq (s : CString) : textOf s.1 = s := Subtype.ext (Eskb.cstr_of_not_mem s.2)

theorem word_four {v : ℕ} (hv : v < 2 ^ 32) (rest : Bytes) :
    word 4 (littleEndian 4 v ++ rest) = some (v, rest) :=
  word_append hv rest

theorem readArg_immediate {type flags : UInt8} {raw : UInt64} {v : Datum} {u : Bytes}
    (htype : type ≠ 8) (hv : immediate raw type = some v)
    (hu : writeImmediate type flags raw = some u) (rest : Bytes) :
    readArg (u ++ rest) = some ((flags, v), rest) := by
  obtain rfl := Option.some.inj hu
  have hraw : word 8 (littleEndian 8 raw.toNat ++ rest) = some (raw.toNat, rest) :=
    word_append raw.toNat_lt rest
  rw [readArg, List.cons_append, List.cons_append, bind_apply (rfl : Codec.byte _ = some (type, _)),
    bind_apply (rfl : Codec.byte _ = some (flags, _)), if_neg htype, bind_apply hraw,
    UInt64.ofNat_toNat, hv]
  rfl

theorem readArg_heap (flags : UInt8) (u rest : Bytes) :
    readArg (8 :: flags :: u ++ rest) =
      (readHeap (u ++ rest)).map fun r => ((flags, r.1), r.2) := by
  rw [readArg, List.cons_append, List.cons_append, bind_apply (rfl : Codec.byte _ = some (8, _)),
    bind_apply (rfl : Codec.byte _ = some (flags, _)), if_pos rfl]
  change (readHeap (u ++ rest)).bind (fun r => some ((flags, r.1), r.2)) = _
  cases readHeap (u ++ rest) <;> rfl

theorem readArg_text {subtype flags : UInt8} {s : CString} {v : Datum} {u : Bytes}
    (hsub : subtype = 1 ∧ v = .str s ∨ subtype = 10 ∧ v = .sym s)
    (hu : writeText subtype flags s = some u) (rest : Bytes) :
    (v.Short → readArg (u ++ rest) = some ((flags, v), rest)) ∧
      (¬ v.Short → readArg (u ++ rest) = none) := by
  rw [writeText] at hu
  split at hu
  · cases hu
  next hlen =>
    obtain rfl := Option.some.inj hu
    have hword := @word_four s.1.length (by omega) (s.1 ++ rest)
    have hne : subtype ≠ 0xFF := by
      rcases hsub with ⟨rfl, -⟩ | ⟨rfl, -⟩
      · decide
      · decide
    have hlength : v.textLength = s.1.length := by
      rcases hsub with ⟨-, rfl⟩ | ⟨-, rfl⟩
      · rfl
      · rfl
    have hhead : readHeap (subtype :: (littleEndian 4 s.1.length ++ s.1) ++ rest) =
        readContent subtype s.1.length (s.1 ++ rest) := by
      rw [readHeap, List.cons_append, bind_apply (rfl : Codec.byte _ = some (subtype, _)),
        List.append_assoc, bind_apply hword, if_neg hne]
    rw [readArg_heap, hhead, readContent]
    constructor
    · intro hshort
      rw [Datum.Short, hlength] at hshort
      rw [bind_apply (if_pos hshort : check _ _ = some ((), _)),
        bind_apply (bytes_append _ _ rfl), textOf_eq]
      rcases hsub with ⟨rfl, rfl⟩ | ⟨rfl, rfl⟩
      · rfl
      · rfl
    · intro hshort
      rw [Datum.Short, hlength] at hshort
      rw [bind_apply_none (if_neg hshort)]
      rfl

theorem readArg_written {a : UInt8 × Datum} {u : Bytes} (hu : writeArg a = some u) (rest : Bytes) :
    (a.2.Short → readArg (u ++ rest) = some (a, rest)) ∧
      (¬ a.2.Short → readArg (u ++ rest) = none) := by
  obtain ⟨flags, v⟩ := a
  have hplain {v : Datum} (hlength : v.textLength = 0)
      (h : readArg (u ++ rest) = some ((flags, v), rest)) :
      (v.Short → readArg (u ++ rest) = some ((flags, v), rest)) ∧
        (¬ v.Short → readArg (u ++ rest) = none) := by
    refine ⟨fun _ => h, fun hlong => absurd ?_ hlong⟩
    rw [Datum.Short, hlength]
    exact Nat.zero_le _
  cases v with
  | null => exact hplain rfl (readArg_immediate (by decide) rfl hu rest)
  | int i => exact hplain rfl (readArg_immediate (by decide) rfl hu rest)
  | double d => exact hplain rfl (readArg_immediate (by decide) rfl hu rest)
  | bool i => exact hplain rfl (readArg_immediate (by decide) rfl hu rest)
  | char i => exact hplain rfl (readArg_immediate (by decide) rfl hu rest)
  | var i => exact hplain rfl (readArg_immediate (by decide) rfl hu rest)
  | nullPtr =>
    obtain rfl := Option.some.inj hu
    exact hplain rfl rfl
  | str s => exact readArg_text (.inl ⟨rfl, rfl⟩) hu rest
  | sym s => exact readArg_text (.inr ⟨rfl, rfl⟩) hu rest
  | bignum | cons | fact | other => cases hu

/-! ### Facts -/

/-- The limits of the reader. -/
structure TaggedFact.Loadable (env : LogicEnv) (fact : TaggedFact) : Prop where
  name : (storedName env fact.predicate).length ≤ 255
  arity : fact.args.length ≤ 4096
  texts : ∀ arg ∈ fact.args, arg.2.Short

/-- The name that is read for a predicate. -/
def loadedName (env : LogicEnv) (predicate : UInt64) : CString := textOf (storedName env predicate)

theorem writeFact_eq_some {env : LogicEnv} {fact : TaggedFact} {u : Bytes} :
    writeFact env fact = some u ↔ ∃ args, Concat (fun u a => writeArg a = some u) args fact.args ∧
      u = littleEndian 4 (storedName env fact.predicate).length ++
        (storedName env fact.predicate ++ (littleEndian 4 fact.args.length ++ args)) := by
  simp only [writeFact, Option.bind_eq_bind, Option.bind_eq_some_iff, writeAll_eq_some,
    Option.some.injEq]
  exact exists_congr fun args => and_congr_right fun _ => eq_comm

theorem length_storedName_lt (env : LogicEnv) (predicate : UInt64) :
    (storedName env predicate).length < 2 ^ 32 := by
  rw [storedName]
  split
  · simp
  · rw [List.length_take]
    have := Nat.mod_lt (env.predicateText predicate).1.length (by decide : 0 < 2 ^ 32)
    omega

theorem readHead_append {name : Bytes} {arity : ℕ} (h : arity < 2 ^ 32) (rest : Bytes) :
    readHead name.length (name ++ (littleEndian 4 arity ++ rest)) = some ((name, arity), rest) := by
  rw [readHead, bind_apply (bytes_append name _ rfl), bind_apply (word_four h rest)]
  rfl

section Load

variable {pool nameBuf : UInt64} {env : LogicEnv} {n : ℕ} {table : PredicateTable}
  {kb : List TaggedFact}

/-- A written fact is loaded exactly if it is loadable. -/
theorem loadFacts_step {fact : TaggedFact} {u : Bytes} (hu : writeFact env fact = some u)
    (harity : fact.args.length < 2 ^ 32) (rest : Bytes) :
    (fact.Loadable env → loadFacts pool nameBuf (n + 1) table (u ++ rest) kb =
      loadFacts pool nameBuf n
        (eshkolInternPredicate pool table nameBuf (loadedName env fact.predicate)).1 rest
        (kb ++ [⟨(eshkolInternPredicate pool table nameBuf (loadedName env fact.predicate)).2,
          fact.args⟩])) ∧
    (¬ fact.Loadable env → (loadFacts pool nameBuf (n + 1) table (u ++ rest) kb).2 = none) := by
  obtain ⟨args, hargs, rfl⟩ := writeFact_eq_some.mp hu
  have hlength := word_four (length_storedName_lt env fact.predicate)
    (storedName env fact.predicate ++ (littleEndian 4 fact.args.length ++ (args ++ rest)))
  have hhead := @readHead_append (storedName env fact.predicate) _ harity (args ++ rest)
  simp only [List.append_assoc, loadFacts, hlength]
  by_cases hname : 255 < (storedName env fact.predicate).length
  · rw [if_pos hname]
    exact ⟨fun h => absurd h.name (Nat.not_le.mpr hname), fun _ => rfl⟩
  rw [if_neg hname, hhead]
  dsimp only
  by_cases hmany : 4096 < fact.args.length
  · rw [if_pos hmany]
    exact ⟨fun h => absurd h.arity (Nat.not_le.mpr hmany), fun _ => rfl⟩
  rw [if_neg hmany]
  constructor
  · intro h
    rw [count_written (fun hu h rest => (readArg_written hu rest).1 h) hargs h.texts rest]
    rfl
  · intro h
    have hlong : ¬ ∀ arg ∈ fact.args, arg.2.Short :=
      fun hshort => h ⟨Nat.not_lt.mp hname, Nat.not_lt.mp hmany, hshort⟩
    rw [count_rejected (fun hu h rest => (readArg_written hu rest).1 h)
      (fun hu h rest => (readArg_written hu rest).2 h) hargs hlong rest]

/-- What loading makes of facts: their names are interned, one after another. -/
def restore (pool nameBuf : UInt64) (env : LogicEnv) :
    PredicateTable → List TaggedFact → PredicateTable × List TaggedFact
  | table, [] => (table, [])
  | table, fact :: facts =>
    let interned := eshkolInternPredicate pool table nameBuf (loadedName env fact.predicate)
    let restored := restore pool nameBuf env interned.1 facts
    (restored.1, ⟨interned.2, fact.args⟩ :: restored.2)

theorem loadFacts_written {facts : List TaggedFact} {bs : Bytes}
    (h : Concat (fun u fact => writeFact env fact = some u) bs facts)
    (harity : ∀ fact ∈ facts, fact.args.length < 2 ^ 32)
    (hall : ∀ fact ∈ facts, fact.Loadable env) :
    loadFacts pool nameBuf facts.length table bs kb =
      ((restore pool nameBuf env table facts).1,
        some (kb ++ (restore pool nameBuf env table facts).2)) := by
  induction h generalizing table kb with
  | nil => simp [loadFacts, restore]
  | @cons u v fact facts hfact _ ih =>
    rw [List.length_cons, (loadFacts_step hfact (harity fact (by simp)) v).1 (hall fact (by simp)),
      ih (fun f hf => harity f (by simp [hf])) (fun f hf => hall f (by simp [hf]))]
    simp [restore]

theorem loadFacts_rejected {facts : List TaggedFact} {bs : Bytes}
    (h : Concat (fun u fact => writeFact env fact = some u) bs facts)
    (harity : ∀ fact ∈ facts, fact.args.length < 2 ^ 32)
    (hall : ¬ ∀ fact ∈ facts, fact.Loadable env) :
    (loadFacts pool nameBuf facts.length table bs kb).2 = none := by
  induction h generalizing table kb with
  | nil => simp at hall
  | @cons u v fact facts hfact _ ih =>
    have hstep := @loadFacts_step pool nameBuf env facts.length table kb fact u hfact
      (harity fact (by simp)) v
    by_cases hfirst : fact.Loadable env
    · rw [List.length_cons, hstep.1 hfirst]
      exact ih (fun f hf => harity f (by simp [hf])) (by simpa [hfirst] using hall)
    · exact hstep.2 hfirst

theorem readKbHeader_append {numFacts : ℕ} (h : numFacts < 2 ^ 32) (rest : Bytes) :
    readKbHeader (kbHeader numFacts ++ rest) = some (numFacts, rest) := by
  simp only [kbHeader, List.append_assoc]
  rw [readKbHeader, bind_apply (word_four (by decide) _),
    bind_apply (if_pos rfl : check _ _ = some ((), _)), bind_apply (word_four (by decide) _),
    bind_apply (word_four h _), bind_apply (word_four (by decide) _),
    bind_apply (if_pos rfl : check _ _ = some ((), _))]
  rfl

theorem eshkolKbSave_eq_some {file : Bytes} (h : eshkolKbSave env kb = some file) :
    ∃ facts, Concat (fun u fact => writeFact env fact = some u) facts kb ∧
      file = kbHeader kb.length ++ facts := by
  rw [eshkolKbSave] at h
  split at h
  next =>
    simp only [Option.bind_eq_bind, Option.bind_eq_some_iff, writeAll_eq_some,
      Option.some.injEq] at h
    obtain ⟨facts, hfacts, rfl⟩ := h
    exact ⟨facts, hfacts, rfl⟩
  next => cases h

theorem writeArg_of_save {file : Bytes} (h : eshkolKbSave env kb = some file) {fact : TaggedFact}
    (hfact : fact ∈ kb) {arg : UInt8 × Datum} (harg : arg ∈ fact.args) :
    ∃ u, writeArg arg = some u := by
  obtain ⟨facts, hfacts, -⟩ := eshkolKbSave_eq_some h
  obtain ⟨u, hu⟩ := hfacts.exists_of_mem hfact
  obtain ⟨args, hargs, -⟩ := writeFact_eq_some.mp hu
  exact hargs.exists_of_mem harg

theorem eshkolKbLoad_saved {file : Bytes} (h : eshkolKbSave env kb = some file)
    (hcount : kb.length < 2 ^ 32) (harity : ∀ fact ∈ kb, fact.args.length < 2 ^ 32) :
    ((∀ fact ∈ kb, fact.Loadable env) → eshkolKbLoad pool nameBuf table file =
      ((restore pool nameBuf env table kb).1, some (restore pool nameBuf env table kb).2)) ∧
    ((¬ ∀ fact ∈ kb, fact.Loadable env) → (eshkolKbLoad pool nameBuf table file).2 = none) := by
  obtain ⟨facts, hfacts, rfl⟩ := eshkolKbSave_eq_some h
  rw [eshkolKbLoad, readKbHeader_append hcount]
  exact ⟨fun hall => loadFacts_written hfacts harity hall,
    fun hall => loadFacts_rejected hfacts harity hall⟩

end Load

end Eshkol
