import Eshkol.Memory.Rows

/-!
# The Streaming Audit

`memory-store-audit` (`lib/core/memory_store.esk`): goes through a journal row by row, derives
the hash of each event again and looks its parent up among the events before it. Two events
with one parent are counted, not refused.

One table holds the ids that were seen and, after `child:`, the parents. Nothing keeps an event
from naming a parent that begins with `child:`, so that the text `child:p` passes for an id once
some event has the parent `p`. Keys and hashes are compared as C strings, so that an id or a
parent may also go on after a NUL.

The table is a finite map whose keys are the strings up to their first NUL. `sha256` answers
hexadecimal digits.
-/

open Codec.Utf8 Machine

namespace Eshkol.Memory.Row

variable {D : Type}

/-! ### The audit -/

/-- The key under which a parent is noted. -/
def childKey (p : List UInt8) : List UInt8 := cText (encode "child:".toList ++ p)

/-- What an event adds to the table. -/
def Event.keys (ev : Event D) : List (List UInt8) :=
  cText ev.id :: match ev.prev with
    | .str p => [childKey p]
    | _ => []

theorem lawfulBEq_bytes : LawfulBEq (List UInt8) := inferInstance

attribute [local instance] lawfulBEq_bytes

/-- Whether a value is a key of the table, all of whose keys are strings. -/
def seenKey (seen : List (List UInt8)) : Item D → Bool
  | .str p => cText p ∈ seen
  | _ => false

/-- Whether the parent of an event has been noted. -/
def forked (seen : List (List UInt8)) (ev : Event D) : Bool :=
  match ev.prev with
  | .str p => childKey p ∈ seen
  | _ => false

/-- Why the audit refuses a row. -/
inductive Reason : Type
  | unparseable
  | hashMismatch
  | orphanParent

/-- What the audit returns. -/
inductive Report : Type
  | ok (links forks : ℕ)
  | refused (lineno : ℕ) (reason : Reason)

section Audit

variable (ops : DoubleOps D) (formatDouble : D → List Char) (formatFloat32 : List Char)
  (sha256 : List UInt8 → List UInt8)

/-- The loop of `memory-store-audit`. -/
def auditGo : List (Exec Exn StringObject) → ℕ → ℕ → ℕ → List (List UInt8) → Exec Exn Report
  | [], _, count, forks, _ => .ok (.ok count forks)
  | row :: rows, lineno, count, forks, seen => do
      let line ← row
      let x ← msParse ops line
      match msCanonicalEvent x with
      | none => .ok (.refused lineno .unparseable)
      | some ev => do
          let hash ← eventContentHash formatDouble formatFloat32 sha256 ev
          if cText ev.id ≠ cText hash then .ok (.refused lineno .hashMismatch)
          else if ¬ isFalse ev.prev ∧ ¬ seenKey seen ev.prev then
            .ok (.refused lineno .orphanParent)
          else
            auditGo rows (lineno + 1) (count + 1) (forks + if forked seen ev then 1 else 0)
              (ev.keys ++ seen)

def memoryStoreAudit (text : List UInt8) : Exec Exn Report :=
  auditGo ops formatDouble formatFloat32 sha256 (msRows text) 1 0 0 []

end Audit

/-! ### Judging each event by those before it -/

section Each

variable {E : Type}

/-- Each item is judged against the items before it, the last first. -/
def Each (P : List E → E → Prop) : List E → List E → Prop
  | _, [] => True
  | earlier, e :: es => P earlier e ∧ Each P (e :: earlier) es

open Classical in
/-- How many items pass against the items before them. -/
noncomputable def countEach (P : List E → E → Prop) : List E → List E → ℕ
  | _, [] => 0
  | earlier, e :: es => (if P earlier e then 1 else 0) + countEach P (e :: earlier) es

theorem countEach_cons {P : List E → E → Prop} {earlier : List E} {e : E} {b : Bool}
    (h : b = true ↔ P earlier e) (es : List E) :
    countEach P earlier (e :: es) = (if b then 1 else 0) + countEach P (e :: earlier) es := by
  classical rw [countEach, if_congr h rfl rfl]

theorem countEach_congr {P Q : List E → E → Prop} {earlier es : List E}
    (h : Each (fun earlier e => P earlier e ↔ Q earlier e) earlier es) :
    countEach P earlier es = countEach Q earlier es := by
  induction es generalizing earlier with
  | nil => rfl
  | cons e es ih => classical rw [countEach, countEach, ih h.2, if_congr h.1 rfl rfl]

end Each

/-! ### What the audit accepts -/

/-- The keys that some events have put into the table. -/
def keysOf (earlier : List (Event D)) : List (List UInt8) := earlier.flatMap Event.keys

section Judge

variable (formatDouble : D → List Char) (formatFloat32 : List Char)
  (sha256 : List UInt8 → List UInt8)

/-- What the audit checks of an event. -/
structure Passes (earlier : List (Event D)) (ev : Event D) : Prop where
  hash : ∃ hash, eventContentHash formatDouble formatFloat32 sha256 ev = .ok hash ∧
    cText ev.id = cText hash
  parent : ev.prev = falseItem ∨ ∃ p, ev.prev = .str p ∧ cText p ∈ keysOf earlier

/-- What the audit counts. -/
def CountedFork (earlier : List (Event D)) (ev : Event D) : Prop :=
  ∃ p, ev.prev = .str p ∧ childKey p ∈ keysOf earlier

/-- What is to be checked: the id is the hash of the contents, and the parent is the id of an
earlier event. -/
structure Genuine (earlier : List (Event D)) (ev : Event D) : Prop where
  hash : eventContentHash formatDouble formatFloat32 sha256 ev = .ok ev.id
  parent : ev.prev = falseItem ∨ ∃ e ∈ earlier, ev.prev = .str e.id

/-- What is to be counted: an event whose parent is that of an earlier one. -/
def Fork (earlier : List (Event D)) (ev : Event D) : Prop :=
  ev.prev ≠ falseItem ∧ ∃ e ∈ earlier, e.prev = ev.prev

/-- The journals to be accepted, with the numbers of their links and forks. -/
def GenuineJournal (ops : DoubleOps D) (text : List UInt8) (links forks : ℕ) : Prop :=
  ∃ evs, RowEvents ops text evs ∧ Each (Genuine formatDouble formatFloat32 sha256) [] evs ∧
    links = evs.length ∧ forks = countEach Fork [] evs

/-- An event whose id or parent goes on after a NUL, or whose parent looks like a noted one. -/
def Disguised (ev : Event D) : Prop :=
  0 ∈ ev.id ∨ ∃ p, ev.prev = .str p ∧ (0 ∈ p ∨ encode "child:".toList <+: p)

variable {formatDouble formatFloat32 sha256}

theorem seenKey_iff {seen : List (List UInt8)} {x : Item D} :
    seenKey seen x = true ↔ ∃ p, x = .str p ∧ cText p ∈ seen := by
  cases x <;> simp [seenKey]

variable {earlier : List (Event D)} {ev : Event D}

theorem forked_iff : forked (keysOf earlier) ev = true ↔ CountedFork earlier ev := by
  rw [forked, CountedFork]
  cases ev.prev <;> simp

/-- The loop accepts rows of events that all pass, and counts them. -/
theorem auditGo_eq_ok_iff {ops : DoubleOps D} {rows : List (Exec Exn StringObject)}
    {lineno count forks links total : ℕ} :
    auditGo ops formatDouble formatFloat32 sha256 rows lineno count forks (keysOf earlier) =
        .ok (.ok links total) ↔
      ∃ evs, List.Forall₂ (IsRow ops) rows evs ∧
        Each (Passes formatDouble formatFloat32 sha256) earlier evs ∧
        links = count + evs.length ∧ total = forks + countEach CountedFork earlier evs := by
  induction rows generalizing lineno count forks earlier with
  | nil =>
    rw [auditGo]
    constructor
    · intro h
      cases h
      exact ⟨[], .nil, trivial, rfl, rfl⟩
    · rintro ⟨evs, hrows, -, rfl, rfl⟩
      cases hrows
      rfl
  | cons row rows ih =>
    have hkeys (ev : Event D) : ev.keys ++ keysOf earlier = keysOf (ev :: earlier) := rfl
    rw [auditGo]
    constructor
    · intro h
      obtain ⟨line, hline, h⟩ := bind_eq_ok.mp h
      obtain ⟨x, hx, h⟩ := bind_eq_ok.mp h
      split at h
      next => cases h
      next ev hev =>
        obtain ⟨hash, hhash, h⟩ := bind_eq_ok.mp h
        split at h
        next => cases h
        next hid =>
          split at h
          next => cases h
          next hparent =>
            rw [hkeys] at h
            obtain ⟨evs, hrows, hpass, rfl, rfl⟩ := ih.mp h
            rw [not_not] at hid
            rw [not_and_or, not_not, not_not, isFalse_iff, seenKey_iff] at hparent
            refine ⟨ev :: evs, .cons ⟨line, x, hline, hx, hev⟩ hrows,
              ⟨⟨⟨hash, hhash, hid⟩, hparent⟩, hpass⟩, ?_, ?_⟩
            · rw [List.length_cons]
              omega
            · rw [countEach_cons forked_iff, Nat.add_assoc]
    · rintro ⟨evs, hrows, hpass, rfl, rfl⟩
      cases hrows with
      | @cons _ ev _ evs hrow hrows =>
        obtain ⟨line, x, rfl, hx, hev⟩ := hrow
        obtain ⟨⟨⟨hash, hhash, hid⟩, hparent⟩, hpass⟩ := hpass
        have hparent' : ¬ (¬ isFalse ev.prev = true ∧
            ¬ seenKey (keysOf earlier) ev.prev = true) := by
          rw [not_and_or, not_not, not_not, isFalse_iff, seenKey_iff]
          exact hparent
        rw [ok_bind, hx, ok_bind, hev]
        simp only
        rw [hhash, ok_bind, if_neg (not_not.mpr hid), if_neg hparent', hkeys]
        refine ih.mpr ⟨evs, hrows, hpass, ?_, ?_⟩
        · rw [List.length_cons]
          omega
        · rw [countEach_cons forked_iff, Nat.add_assoc]

theorem memoryStoreAudit_eq_ok_iff {ops : DoubleOps D} {text : List UInt8} {links forks : ℕ} :
    memoryStoreAudit ops formatDouble formatFloat32 sha256 text = .ok (.ok links forks) ↔
      ∃ evs, RowEvents ops text evs ∧ Each (Passes formatDouble formatFloat32 sha256) [] evs ∧
        links = evs.length ∧ forks = countEach CountedFork [] evs := by
  rw [memoryStoreAudit, show ([] : List (List UInt8)) = keysOf ([] : List (Event D)) from rfl,
    auditGo_eq_ok_iff]
  simp only [Nat.zero_add]
  rfl

/-! ### Genuine journals -/

theorem childKey_eq (p : List UInt8) : childKey p = encode "child:".toList ++ cText p :=
  List.takeWhile_append_of_pos (List.forall_iff_forall_mem.mp (by decide))

theorem mem_keysOf {k : List UInt8} :
    k ∈ keysOf earlier ↔ ∃ e ∈ earlier, k = cText e.id ∨ ∃ p, e.prev = .str p ∧ k = childKey p := by
  rw [keysOf, List.mem_flatMap]
  refine exists_congr fun e => and_congr_right fun _ => ?_
  rw [Event.keys, List.mem_cons]
  cases e.prev <;> simp

theorem HexadecimalBytes.id (hsha : HexadecimalBytes sha256)
    (h : eventContentHash formatDouble formatFloat32 sha256 ev = .ok ev.id) :
    0 ∉ ev.id ∧ ¬ encode "child:".toList <+: ev.id := by
  obtain ⟨text, -, hid⟩ := bind_eq_ok.mp h
  have hhex := hsha text
  rw [Except.ok.inj hid] at hhex
  refine ⟨fun hzero => ?_, fun hchild => ?_⟩
  · exact absurd (hhex 0 hzero) (by decide)
  · have hh : byte 'h' ∈ encode "child:".toList := by decide
    exact absurd (hhex _ (hchild.subset hh)) (by decide)

variable (formatDouble formatFloat32 sha256) in
/-- An event with its own hash, whose parent is not cut at a NUL. -/
structure Exact (ev : Event D) : Prop where
  hash : eventContentHash formatDouble formatFloat32 sha256 ev = .ok ev.id
  parent {p : List UInt8} : ev.prev = .str p → 0 ∉ p

/-- An event is genuine exactly if it passes and is not disguised. -/
theorem genuine_iff_passes (hsha : HexadecimalBytes sha256)
    (hearlier : ∀ e ∈ earlier, Exact formatDouble formatFloat32 sha256 e) :
    Genuine formatDouble formatFloat32 sha256 earlier ev ↔
      Passes formatDouble formatFloat32 sha256 earlier ev ∧ ¬ Disguised ev := by
  constructor
  · intro h
    obtain ⟨hzero, -⟩ := hsha.id h.hash
    refine ⟨⟨⟨ev.id, h.hash, rfl⟩, h.parent.imp_right ?_⟩, ?_⟩
    · rintro ⟨e, he, hprev⟩
      exact ⟨e.id, hprev, mem_keysOf.mpr ⟨e, he, .inl rfl⟩⟩
    · rintro (hid | ⟨p, hprev, hp⟩)
      · exact hzero hid
      · rcases h.parent with hnone | ⟨e, he, hprev'⟩
        · rw [hnone] at hprev
          cases hprev
        · obtain rfl := Item.str.inj (hprev'.symm.trans hprev)
          obtain ⟨hzero, hchild⟩ := hsha.id (hearlier e he).hash
          exact hp.elim hzero hchild
  · rintro ⟨⟨⟨hash, hhash, hid⟩, hparent⟩, hopen⟩
    rw [Disguised, not_or] at hopen
    have hcut : cText hash = hash := by
      obtain ⟨text, -, rfl⟩ : ∃ text, _ ∧ sha256 text = hash := by
        obtain ⟨text, htext, heq⟩ := bind_eq_ok.mp hhash
        exact ⟨text, htext, Except.ok.inj heq⟩
      exact cText_eq_self fun hzero => absurd (hsha text 0 hzero) (by decide)
    rw [cText_eq_self hopen.1, hcut] at hid
    refine ⟨hid ▸ hhash, hparent.imp_right ?_⟩
    rintro ⟨p, hprev, hkey⟩
    obtain ⟨hzero, hchild⟩ : 0 ∉ p ∧ ¬ encode "child:".toList <+: p := by
      rw [← not_or]
      exact fun h => hopen.2 ⟨p, hprev, h⟩
    rw [cText_eq_self hzero] at hkey
    obtain ⟨e, he, rfl | ⟨q, -, rfl⟩⟩ := mem_keysOf.mp hkey
    · exact ⟨e, he, by rw [hprev, cText_eq_self (hsha.id (hearlier e he).hash).1]⟩
    · rw [childKey_eq] at hchild
      exact absurd (List.prefix_append _ _) hchild

theorem Genuine.exact (hsha : HexadecimalBytes sha256)
    (hearlier : ∀ e ∈ earlier, Exact formatDouble formatFloat32 sha256 e)
    (h : Genuine formatDouble formatFloat32 sha256 earlier ev) :
    Exact formatDouble formatFloat32 sha256 ev := by
  obtain ⟨-, hopen⟩ := (genuine_iff_passes hsha hearlier).mp h
  exact ⟨h.hash, fun hprev hzero => hopen (.inr ⟨_, hprev, .inl hzero⟩)⟩

theorem Genuine.countedFork_iff (hsha : HexadecimalBytes sha256)
    (hearlier : ∀ e ∈ earlier, Exact formatDouble formatFloat32 sha256 e)
    (h : Genuine formatDouble formatFloat32 sha256 earlier ev) :
    CountedFork earlier ev ↔ Fork earlier ev := by
  have hexact := h.exact hsha hearlier
  constructor
  · rintro ⟨p, hprev, hkey⟩
    refine ⟨by rw [hprev]; exact nofun, ?_⟩
    obtain ⟨e, he, hid | ⟨q, hq, hchild⟩⟩ := mem_keysOf.mp hkey
    · -- a hash is no noted parent
      obtain ⟨hzero, hno⟩ := hsha.id (hearlier e he).hash
      rw [childKey_eq, cText_eq_self hzero] at hid
      exact absurd ⟨_, hid⟩ hno
    · refine ⟨e, he, ?_⟩
      rw [childKey_eq, childKey_eq, List.append_cancel_left_eq,
        cText_eq_self (hexact.parent hprev), cText_eq_self ((hearlier e he).parent hq)] at hchild
      rw [hq, hprev, hchild]
  · rintro ⟨hprev, e, he, heq⟩
    obtain ⟨e', -, hparent⟩ := h.parent.resolve_left hprev
    exact ⟨e'.id, hparent, mem_keysOf.mpr ⟨e, he, .inr ⟨e'.id, heq.trans hparent, rfl⟩⟩⟩

theorem genuine_iff (hsha : HexadecimalBytes sha256) {evs : List (Event D)}
    (hearlier : ∀ e ∈ earlier, Exact formatDouble formatFloat32 sha256 e) :
    Each (Genuine formatDouble formatFloat32 sha256) earlier evs ↔
      Each (Passes formatDouble formatFloat32 sha256) earlier evs ∧ ∀ ev ∈ evs, ¬ Disguised ev := by
  induction evs generalizing earlier with
  | nil => simp [Each]
  | cons ev evs ih =>
    rw [Each, Each, List.forall_mem_cons, and_and_and_comm, ← genuine_iff_passes hsha hearlier]
    refine and_congr_right fun h => ih ?_
    rw [List.forall_mem_cons]
    exact ⟨h.exact hsha hearlier, hearlier⟩

theorem countedForks (hsha : HexadecimalBytes sha256) {evs : List (Event D)}
    (hearlier : ∀ e ∈ earlier, Exact formatDouble formatFloat32 sha256 e)
    (h : Each (Genuine formatDouble formatFloat32 sha256) earlier evs) :
    countEach CountedFork earlier evs = countEach Fork earlier evs := by
  apply countEach_congr
  induction evs generalizing earlier with
  | nil => trivial
  | cons ev evs ih =>
    refine ⟨h.1.countedFork_iff hsha hearlier, ih ?_ h.2⟩
    rw [List.forall_mem_cons]
    exact ⟨h.1.exact hsha hearlier, hearlier⟩

/-- **Exactly which journals the audit judges right**: those that it refuses, and those in which
no event is disguised. -/
theorem memoryStoreAudit_iff (hsha : HexadecimalBytes sha256) (ops : DoubleOps D)
    (text : List UInt8) :
    (∀ links forks,
        memoryStoreAudit ops formatDouble formatFloat32 sha256 text = .ok (.ok links forks) ↔
          GenuineJournal formatDouble formatFloat32 sha256 ops text links forks) ↔
      ∀ evs, RowEvents ops text evs → Each (Passes formatDouble formatFloat32 sha256) [] evs →
        ∀ ev ∈ evs, ¬ Disguised ev := by
  have hnone : ∀ e ∈ ([] : List (Event D)), Exact formatDouble formatFloat32 sha256 e := nofun
  constructor
  · intro h evs hrows hpass
    obtain ⟨evs', hrows', hgenuine, -⟩ :=
      (h evs.length _).mp (memoryStoreAudit_eq_ok_iff.mpr ⟨evs, hrows, hpass, rfl, rfl⟩)
    obtain rfl := hrows.unique hrows'
    exact ((genuine_iff hsha hnone).mp hgenuine).2
  · intro h links forks
    rw [memoryStoreAudit_eq_ok_iff, GenuineJournal]
    refine exists_congr fun evs => and_congr_right fun hrows => ?_
    constructor
    · rintro ⟨hpass, hlinks, hforks⟩
      have hgenuine := (genuine_iff hsha hnone).mpr ⟨hpass, h evs hrows hpass⟩
      exact ⟨hgenuine, hlinks, by rw [hforks, countedForks hsha hnone hgenuine]⟩
    · rintro ⟨hgenuine, hlinks, hforks⟩
      exact ⟨((genuine_iff hsha hnone).mp hgenuine).1, hlinks,
        by rw [hforks, countedForks hsha hnone hgenuine]⟩

end Judge

/-! ### A forged journal -/

variable {t : List Char}

/-- The hash of the contents of a first event. -/
def firstHash : List Char :=
  "b00fdd3bba368e8de857b96a260681cc8d64ced0e6c6f50841bb402abe79fbda".toList

/-- The hash of the contents of an event after it. -/
def secondHash : List Char :=
  "0a7a2a70027cd4dfad12995fd32435c7f56e09b31459df7dccead10a74e057c5".toList

/-- The hash of the contents of an event whose parent is the note of the first event's child. -/
def forgedHash : List Char :=
  "e650ca125ae5fb5eb4a501ed0ed4ce59b14d7dcce7a305ec8e4ae17fde83e4b6".toList

/-- A parent that is no id. -/
def forgedParent : List Char := "child:".toList ++ firstHash

/-- SHA-256 of the contents of these three events. -/
def sampleSha256 (text : List UInt8) : List UInt8 :=
  if text = emptyBody (.bool false) then encode firstHash
  else if text = emptyBody (.str firstHash) then encode secondHash
  else if text = emptyBody (.str forgedParent) then encode forgedHash
  else []

theorem firstHash_hexadecimal : ∀ c ∈ firstHash, c ∈ "0123456789abcdef".toList :=
  List.forall_iff_forall_mem.mp (by decide)

theorem secondHash_hexadecimal : ∀ c ∈ secondHash, c ∈ "0123456789abcdef".toList :=
  List.forall_iff_forall_mem.mp (by decide)

theorem forgedHash_hexadecimal : ∀ c ∈ forgedHash, c ∈ "0123456789abcdef".toList :=
  List.forall_iff_forall_mem.mp (by decide)

theorem plainText_forgedParent : PlainText forgedParent := by
  rw [PlainText, forgedParent, List.forall_mem_append]
  exact ⟨List.forall_iff_forall_mem.mp (by decide), plainText_of_hexadecimal firstHash_hexadecimal⟩

theorem hexadecimalBytes_sampleSha256 : HexadecimalBytes sampleSha256 := by
  intro text
  rw [sampleSha256]
  split_ifs
  · exact fun b => mem_encode_hexadecimal firstHash_hexadecimal
  · exact fun b => mem_encode_hexadecimal secondHash_hexadecimal
  · exact fun b => mem_encode_hexadecimal forgedHash_hexadecimal
  · exact nofun

theorem sampleSha256_first : sampleSha256 (emptyBody (.bool false)) = encode firstHash := if_pos rfl

theorem sampleSha256_second : sampleSha256 (emptyBody (.str firstHash)) = encode secondHash := by
  rw [sampleSha256, if_neg fun h => absurd (emptyBody_inj h) (by decide), if_pos rfl]

theorem sampleSha256_forged : sampleSha256 (emptyBody (.str forgedParent)) = encode forgedHash := by
  rw [sampleSha256, if_neg fun h => absurd (emptyBody_inj h) (by decide),
    if_neg fun h => absurd (emptyBody_inj h) (by decide), if_pos rfl]

/-- The journal of the first event and one after it. -/
def firstJournal : List UInt8 :=
  emptyRow firstHash (.bool false) ++ emptyRow secondHash (.str firstHash)

/-- A journal whose third event names the parent that does not occur. -/
def forgedJournal : List UInt8 :=
  emptyRow firstHash (.bool false) ++ (emptyRow secondHash (.str firstHash) ++
    emptyRow forgedHash (.str forgedParent))

theorem firstHash_plain : PlainText firstHash := plainText_of_hexadecimal firstHash_hexadecimal

theorem secondHash_plain : PlainText secondHash := plainText_of_hexadecimal secondHash_hexadecimal

theorem forgedHash_plain : PlainText forgedHash := plainText_of_hexadecimal forgedHash_hexadecimal

theorem plainParent_first : PlainParent (.str (encode firstHash)) (.str firstHash) :=
  .some firstHash_plain (by decide)

theorem plainParent_forged : PlainParent (.str (encode forgedParent)) (.str forgedParent) :=
  .some plainText_forgedParent (by decide)

theorem rowEvents_firstJournal :
    RowEvents DoubleOps.unit firstJournal [emptyEventItem firstHash falseItem,
      emptyEventItem secondHash (.str (encode firstHash))] := by
  have hrows := msRows_emptyRow secondHash_plain plainParent_first (by decide) []
  rw [List.append_nil] at hrows
  rw [RowEvents, firstJournal, msRows_emptyRow firstHash_plain .none (by decide), hrows]
  exact .cons (isRow_emptyLine firstHash_plain .none (by decide))
    (.cons (isRow_emptyLine secondHash_plain plainParent_first (by decide)) .nil)

theorem rowEvents_forgedJournal :
    RowEvents DoubleOps.unit forgedJournal [emptyEventItem firstHash falseItem,
      emptyEventItem secondHash (.str (encode firstHash)),
      emptyEventItem forgedHash (.str (encode forgedParent))] := by
  have hrows := msRows_emptyRow forgedHash_plain plainParent_forged (by decide) []
  rw [List.append_nil] at hrows
  rw [RowEvents, forgedJournal, msRows_emptyRow firstHash_plain .none (by decide),
    msRows_emptyRow secondHash_plain plainParent_first (by decide), hrows]
  exact .cons (isRow_emptyLine firstHash_plain .none (by decide))
    (.cons (isRow_emptyLine secondHash_plain plainParent_first (by decide))
      (.cons (isRow_emptyLine forgedHash_plain plainParent_forged (by decide)) .nil))

theorem passes_first :
    Passes (fun _ => []) [] sampleSha256 [] (emptyEventItem firstHash falseItem) := by
  refine ⟨⟨_, eventContentHash_empty sampleSha256 .none, ?_⟩, .inl rfl⟩
  rw [sampleSha256_first]
  rfl

theorem passes_second : Passes (fun _ => []) [] sampleSha256 [emptyEventItem firstHash falseItem]
    (emptyEventItem secondHash (.str (encode firstHash))) := by
  refine ⟨⟨_, eventContentHash_empty sampleSha256 plainParent_first, ?_⟩, .inr ⟨_, rfl, ?_⟩⟩
  · rw [sampleSha256_second]
    rfl
  · exact mem_keysOf.mpr ⟨_, List.mem_singleton_self _, .inl rfl⟩

theorem passes_forged : Passes (fun _ => []) [] sampleSha256
    [emptyEventItem secondHash (.str (encode firstHash)), emptyEventItem firstHash falseItem]
    (emptyEventItem forgedHash (.str (encode forgedParent))) := by
  refine ⟨⟨_, eventContentHash_empty sampleSha256 plainParent_forged, ?_⟩, .inr ⟨_, rfl, ?_⟩⟩
  · rw [sampleSha256_forged]
    rfl
  · refine mem_keysOf.mpr ⟨_, List.mem_cons_self, .inr ⟨encode firstHash, rfl, ?_⟩⟩
    rw [childKey, forgedParent, encode_append]

/-- The journal of an event and its child is judged right. -/
theorem memoryStoreAudit_iff_first :
    HexadecimalBytes sampleSha256 ∧ ∀ links forks,
      memoryStoreAudit DoubleOps.unit (fun _ => []) [] sampleSha256 firstJournal =
          .ok (.ok links forks) ↔
        GenuineJournal (fun _ => []) [] sampleSha256 DoubleOps.unit firstJournal links forks := by
  refine ⟨hexadecimalBytes_sampleSha256,
    (memoryStoreAudit_iff hexadecimalBytes_sampleSha256 DoubleOps.unit firstJournal).mpr ?_⟩
  intro evs hrows _ ev hev
  obtain rfl := hrows.unique rowEvents_firstJournal
  have hzero : 0 ∉ encode firstHash ∧ 0 ∉ encode secondHash :=
    ⟨fun h => absurd (mem_encode_hexadecimal firstHash_hexadecimal h) (by decide),
      fun h => absurd (mem_encode_hexadecimal secondHash_hexadecimal h) (by decide)⟩
  have hchild : ¬ encode "child:".toList <+: encode firstHash := by
    rw [encode_prefix_iff]
    decide
  rcases List.mem_cons.mp hev with rfl | hev
  · rintro (hid | ⟨p, hprev, -⟩)
    · exact hzero.1 hid
    · cases hprev
  · obtain rfl := List.mem_singleton.mp hev
    rintro (hid | ⟨p, hprev, hp⟩)
    · exact hzero.2 hid
    · cases hprev
      exact hp.elim hzero.1 hchild

/-- The forged journal is accepted, and is not genuine. -/
theorem memoryStoreAudit_forged :
    HexadecimalBytes sampleSha256 ∧ ∃ forks,
      memoryStoreAudit DoubleOps.unit (fun _ => []) [] sampleSha256 forgedJournal =
        .ok (.ok 3 forks) ∧
      ¬ GenuineJournal (fun _ => []) [] sampleSha256 DoubleOps.unit forgedJournal 3 forks := by
  have hsha := hexadecimalBytes_sampleSha256
  refine ⟨hsha, _, memoryStoreAudit_eq_ok_iff.mpr ⟨_, rowEvents_forgedJournal,
    ⟨passes_first, passes_second, passes_forged, trivial⟩, rfl, rfl⟩, ?_⟩
  rintro ⟨evs, hrows, hgenuine, -⟩
  obtain rfl := hrows.unique rowEvents_forgedJournal
  refine ((genuine_iff hsha (List.forall_mem_nil _)).mp hgenuine).2 _ (List.mem_cons_of_mem _
    (List.mem_cons_of_mem _ List.mem_cons_self)) (.inr ⟨_, rfl, .inr ?_⟩)
  rw [forgedParent, encode_append]
  exact List.prefix_append _ _

end Eshkol.Memory.Row
