import Eshkol.Native.KbFile

/-!
# What a Save Leaves in the File

`kb-save` (`lib/core/kb_persistence.cpp`) with the destination file. The arguments of all
facts are scanned before the file is opened; `fopen` then cuts the file to nothing, and the
facts are written one field after another until one of them cannot be written. The file is
written without errors of the device; that it cannot be opened is part of the destination.

The comment at the scan promises that unsupported content is found before the destination is
opened. The scan looks for `FLOAT32` only, and for values that are nested too deep or have too
many arguments. `write_arg` refuses more than that: pairs, facts, bignums and every type that
has no encoding. On these the file has lost its contents when the save fails.
-/

namespace Eshkol

open Codec
open Eskb (CString)

/-! ### Writing until a failure -/

/-- What a function has put into the file, and whether it returned `true`. -/
structure Written where
  bytes : Bytes
  ok : Bool
  deriving DecidableEq

/-- One function after another: the second runs if the first returned `true`. -/
def Written.andThen (w next : Written) : Written :=
  if w.ok then ⟨w.bytes ++ next.bytes, next.ok⟩ else w

/-- A loop that returns at the first failure. -/
def writeEach {α : Type} (write : α → Written) : List α → Written
  | [] => ⟨[], true⟩
  | a :: as => (write a).andThen (writeEach write as)

/-- What a function that may fail without a trace would return. -/
def Written.toOption (w : Written) : Option Bytes := if w.ok then some w.bytes else none

@[simp] theorem Written.toOption_eq_some {w : Written} {u : Bytes} :
    w.toOption = some u ↔ w.ok = true ∧ w.bytes = u := by
  rw [Written.toOption]
  cases hw : w.ok <;> simp

theorem Written.toOption_andThen (w next : Written) :
    (w.andThen next).toOption = w.toOption.bind fun u => next.toOption.map fun v => u ++ v := by
  rcases w with ⟨u, _ | _⟩ <;> rcases next with ⟨v, _ | _⟩ <;> rfl

theorem toOption_writeEach {α : Type} (write : α → Written) (as : List α) :
    (writeEach write as).toOption = writeAll (fun a => (write a).toOption) as := by
  induction as with
  | nil => rfl
  | cons a as ih =>
    rw [writeEach, Written.toOption_andThen, ih, writeAll]
    cases (write a).toOption <;> cases writeAll (fun a => (write a).toOption) as <;> rfl

/-! ### The save -/

/-- What is written of a text: `write_arg` has put the tags into the file before it looks at
the length. -/
def writeTextTo (subtype flags : UInt8) (s : CString) : Written :=
  if 0x7FFFFFFF < s.1.length then ⟨[8, flags, subtype], false⟩
  else ⟨8 :: flags :: subtype :: (littleEndian 4 s.1.length ++ s.1), true⟩

/-- An immediate value. -/
def writeImmediateTo (type flags : UInt8) (raw : UInt64) : Written :=
  ⟨type :: flags :: littleEndian 8 raw.toNat, true⟩

section

-- the subtype in the header of an object that is neither a text nor a bignum, a pair or a fact
variable (subtypeOf : UInt64 → UInt8)

/-- `write_arg`. The type and the flags are written first, and for an object of the heap its
subtype, whether or not the value can be written. -/
def writeArgTo : UInt8 × Datum → Written
  | (flags, .null) => writeImmediateTo 0 flags 0
  | (flags, .int i) => writeImmediateTo 1 flags i.toUInt64
  | (flags, .double d) => writeImmediateTo 2 flags d
  | (flags, .bool i) => writeImmediateTo 3 flags i.toUInt64
  | (flags, .char i) => writeImmediateTo 4 flags i.toUInt64
  | (flags, .var i) => writeImmediateTo 10 flags i
  | (flags, .nullPtr) => ⟨8 :: flags :: 0xFF :: littleEndian 4 0, true⟩
  | (flags, .str s) => writeTextTo 1 flags s
  | (flags, .sym s) => writeTextTo 10 flags s
  -- `eshkol_bignum_to_string` is given no arena
  | (flags, .bignum _) => ⟨[8, flags, 11], false⟩
  | (flags, .cons _ _) => ⟨[8, flags, 0], false⟩
  | (flags, .fact _ _) => ⟨[8, flags, 13], false⟩
  | (flags, .other type id) =>
    if type = 8 then ⟨[8, flags, subtypeOf id], false⟩ else ⟨[type, flags], false⟩

/-- One round of the loop over the facts. -/
def writeFactTo (env : LogicEnv) (fact : TaggedFact) : Written :=
  let name := storedName env fact.predicate
  Written.andThen
    ⟨littleEndian 4 name.length ++ (name ++ littleEndian 4 fact.args.length), true⟩
    (writeEach (writeArgTo subtypeOf) fact.args)

/-- The destination of a save: whether `fopen(path, "wb")` succeeds, and what the file holds,
if there is one. -/
structure Destination where
  opens : Bool
  contents : Option Bytes

/-- What `eshkol_kb_save_tagged` does before it opens the file: it looks for an argument that
is not clear. -/
def passesScan (kb : List TaggedFact) : Bool :=
  kb.all fun fact => fact.args.all fun arg => taggedPersistenceScan 64 arg.2 = .clear

/-- `eshkol_kb_save_tagged`: the result, and what the file holds afterwards. -/
def eshkolKbSaveTagged (env : LogicEnv) (kb : List TaggedFact) (dest : Destination) :
    Bool × Option Bytes :=
  if !passesScan kb then (false, dest.contents)
  else if !dest.opens then (false, dest.contents)
  else
    -- the file is empty from here on
    let w := Written.andThen ⟨kbHeader kb.length, true⟩ (writeEach (writeFactTo subtypeOf env) kb)
    (w.ok, some w.bytes)

variable {kb : List TaggedFact} {env : LogicEnv}

theorem passesScan_iff :
    passesScan kb = true ↔
      ∀ fact ∈ kb, ∀ arg ∈ fact.args, taggedPersistenceScan 64 arg.2 = .clear := by
  simp [passesScan]

theorem toOption_writeArgTo (a : UInt8 × Datum) :
    (writeArgTo subtypeOf a).toOption = writeArg a := by
  obtain ⟨flags, v⟩ := a
  cases v with
  | str s | sym s =>
    rw [writeArgTo, writeArg, writeTextTo, writeText]
    split <;> rfl
  | other type id =>
    rw [writeArgTo, writeArg]
    split <;> rfl
  | _ => rfl

theorem toOption_writeFactTo (env : LogicEnv) (fact : TaggedFact) :
    (writeFactTo subtypeOf env fact).toOption = writeFact env fact := by
  rw [writeFactTo, Written.toOption_andThen, toOption_writeEach, writeFact]
  simp only [toOption_writeArgTo]
  cases writeAll writeArg fact.args with
  | none => rfl
  | some u => simp [Written.toOption]

variable {subtypeOf}

theorem eshkolKbSaveTagged_eq_true_iff {dest : Destination} {after : Option Bytes} :
    eshkolKbSaveTagged subtypeOf env kb dest = (true, after) ↔
      dest.opens = true ∧ ∃ file, eshkolKbSave env kb = some file ∧ after = some file := by
  have hfacts := toOption_writeEach (writeFactTo subtypeOf env) kb
  simp only [toOption_writeFactTo] at hfacts
  have hscan := @passesScan_iff kb
  rw [eshkolKbSaveTagged, eshkolKbSave, ← hfacts]
  cases hp : passesScan kb with
  | false =>
    rw [if_neg (mt hscan.mpr (by simp [hp]))]
    simp
  | true =>
    rw [if_pos (hscan.mp hp)]
    cases hopen : dest.opens with
    | false => simp
    | true =>
      rcases writeEach (writeFactTo subtypeOf env) kb with ⟨u, _ | _⟩
      · simp [Written.andThen, Written.toOption]
      · simp [Written.andThen, Written.toOption, eq_comm]

/-! ### Unsupported arguments -/

/-- The kinds of values that `write_arg` never writes. -/
def Datum.unsupported : Datum → Bool
  | .bignum _ | .cons _ _ | .fact _ _ | .other _ _ => true
  | _ => false

theorem writeArg_of_unsupported {a : UInt8 × Datum} (h : a.2.unsupported = true) :
    writeArg a = none := by
  obtain ⟨flags, v⟩ := a
  cases v <;> first | rfl | exact absurd h (by simp [Datum.unsupported])

/-- Some argument of some fact is of an unsupported kind. -/
def HasUnsupported (kb : List TaggedFact) : Prop :=
  ∃ fact ∈ kb, ∃ arg ∈ fact.args, arg.2.unsupported = true

/-- What the save should do with an argument of an unsupported kind: leave the file as it was,
whatever it held. -/
def KeepsContents (subtypeOf : UInt64 → UInt8) (env : LogicEnv) (kb : List TaggedFact) : Prop :=
  HasUnsupported kb → ∀ dest : Destination,
    (eshkolKbSaveTagged subtypeOf env kb dest).2 = dest.contents

theorem eshkolKbSave_of_unsupported (h : HasUnsupported kb) : eshkolKbSave env kb = none := by
  obtain ⟨fact, hfact, arg, harg, hun⟩ := h
  rw [Option.eq_none_iff_forall_ne_some]
  intro file hfile
  obtain ⟨u, hu⟩ := writeArg_of_save hfile hfact harg
  rw [writeArg_of_unsupported hun] at hu
  cases hu

theorem eshkolKbSaveTagged_fails (h : HasUnsupported kb) (dest : Destination) :
    (eshkolKbSaveTagged subtypeOf env kb dest).1 = false := by
  rw [← Bool.not_eq_true]
  intro htrue
  obtain ⟨-, file, hfile, -⟩ := eshkolKbSaveTagged_eq_true_iff.mp (Prod.ext htrue rfl)
  rw [eshkolKbSave_of_unsupported h] at hfile
  cases hfile

variable (subtypeOf)

/-- **A failing save.** With an argument of an unsupported kind every save fails. It keeps the
file exactly when the scan rejects one of the arguments. -/
theorem eshkolKbSaveTagged_keeps_iff (env : LogicEnv) (kb : List TaggedFact) :
    (HasUnsupported kb → ∀ dest, (eshkolKbSaveTagged subtypeOf env kb dest).1 = false) ∧
    (KeepsContents subtypeOf env kb ↔ (HasUnsupported kb →
        ∃ fact ∈ kb, ∃ arg ∈ fact.args, taggedPersistenceScan 64 arg.2 ≠ .clear)) := by
  refine ⟨eshkolKbSaveTagged_fails, imp_congr_right fun hun => ?_⟩
  constructor
  · intro hkeep
    by_contra hclear
    push Not at hclear
    have hscan := passesScan_iff.mpr hclear
    -- a file that does not exist yet is created
    have hcreated := hkeep ⟨true, none⟩
    simp [eshkolKbSaveTagged, hscan] at hcreated
  · rintro ⟨fact, hfact, arg, harg, hne⟩ dest
    have hscan : passesScan kb = false := by
      rw [← Bool.not_eq_true, passesScan_iff]
      exact fun hall => hne (hall fact hfact arg harg)
    simp [eshkolKbSaveTagged, hscan]

end

/-- A single float is found by the scan, and the old file stays. -/
theorem eshkolKbSaveTagged_keeps_iff_float32 :
    eshkolKbSaveTagged (fun _ => 0) oneFunctor [⟨1, [(0, .int 5), (0, .other 11 0)]⟩]
      ⟨true, some [1, 2, 3]⟩ = (false, some [1, 2, 3]) := by
  have hun : HasUnsupported [⟨1, [(0, .int 5), (0, .other 11 0)]⟩] :=
    ⟨_, List.mem_singleton_self _, (0, .other 11 0), by simp, rfl⟩
  obtain ⟨hfails, hkeeps⟩ := eshkolKbSaveTagged_keeps_iff (fun _ => 0) oneFunctor
    [⟨1, [(0, .int 5), (0, .other 11 0)]⟩]
  refine Prod.ext (hfails hun _) (hkeeps.mpr (fun _ => ?_) hun _)
  exact ⟨_, List.mem_singleton_self _, (0, .other 11 0), by simp, by decide⟩

/-- The fact `(g (5))` has a list as its argument. The save returns `#f`, and the file of three
bytes is now the header, the name, the arity and the three tags of the list. -/
theorem eshkolKbSaveTagged_truncates :
    ¬ KeepsContents (fun _ => 0) oneFunctor [⟨1, [(0, .cons (.int 5) .null)]⟩] ∧
      eshkolKbSaveTagged (fun _ => 0) oneFunctor [⟨1, [(0, .cons (.int 5) .null)]⟩]
        ⟨true, some [1, 2, 3]⟩ =
          (false, some (kbHeader 1 ++ [1, 0, 0, 0, 103, 1, 0, 0, 0, 8, 0, 0])) := by
  refine ⟨fun hkeep => ?_, rfl⟩
  have hsame := hkeep ⟨_, List.mem_singleton_self _, _, List.mem_singleton_self _, rfl⟩
    ⟨true, some [1, 2, 3]⟩
  exact absurd hsame (by decide)

end Eshkol
