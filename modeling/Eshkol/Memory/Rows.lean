import Eshkol.Memory.RowRoundTrip

/-!
# Rows of a Journal

The rows of a journal file as `ms-read-canonical-line` (`lib/core/memory_store.esk`) returns
them, and the events that they hold. A file is a list of bytes; opening, reading and closing it
succeed. `sha256` is a parameter.
-/

open Codec.Utf8 Machine

namespace Eshkol.Memory.Row

variable {D : Type}

/-! ### Rows -/

def msMaxCanonicalEventLineBytes : ℕ := 131072

/-- The buffer of `ms-read-canonical-line` after some bytes have been stored. -/
def rowBuffer (bs : List UInt8) : StringObject where
  bytes := (bs ++ List.replicate (msMaxCanonicalEventLineBytes - 1) 32).take
    (msMaxCanonicalEventLineBytes - 1)
  fits := by
    have := List.length_take_le (msMaxCanonicalEventLineBytes - 1)
      (bs ++ List.replicate (msMaxCanonicalEventLineBytes - 1) 32)
    rw [msMaxCanonicalEventLineBytes] at this ⊢
    omega

/-- The row of these bytes, `(substring buf 0 i)`. -/
def rowLine (bs : List UInt8) : Exec Exn StringObject := substringAt (rowBuffer bs) 0 bs.length

/-- The rows that `ms-read-canonical-line` returns until the end of the file, after the bytes
`buf` of a row, the last first. A row that is too long is returned as an empty one. -/
def msRowsFrom : List UInt8 → List UInt8 → List (Exec Exn StringObject)
  | buf, [] => if buf = [] then [] else [rowLine buf.reverse]
  | buf, c :: text =>
    if c = 10 then rowLine buf.reverse :: msRowsFrom [] text
    else if msMaxCanonicalEventLineBytes - 1 ≤ buf.length then
      .ok ⟨[], Nat.one_lt_two_pow (by omega)⟩ :: msRowsFrom [] text
    else msRowsFrom (c :: buf) text

/-- The rows of a file. -/
def msRows (text : List UInt8) : List (Exec Exn StringObject) := msRowsFrom [] text

/-! ### Events -/

/-- An event, as the parser returns it. -/
structure Event (D : Type) : Type where
  id : List UInt8
  prev : Item D
  vclock : Item D
  node : Item D
  type : Item D
  payload : Item D

/-- `ms-canonical-event?` and the accessors of an event. -/
def msCanonicalEvent : Item D → Option (Event D)
  | .pair (.sym tag) (.pair (.str id) (.pair prev (.pair vclock (.pair node (.pair type
      (.pair payload .null)))))) =>
      if tag = encode "mem-ev-v1".toList then some ⟨id, prev, vclock, node, type, payload⟩
      else none
  | _ => none

/-- `#f`. -/
def falseItem : Item D := .tagged (.bool false)

/-- Whether a value counts as false. -/
def isFalse : Item D → Bool
  | .tagged (.bool false) => true
  | _ => false

theorem isFalse_iff {x : Item D} : isFalse x = true ↔ x = falseItem := by
  rw [isFalse.eq_def, falseItem]
  split
  next => simp
  next h => simpa using h

/-- A string up to its first NUL, as `strcmp` sees it. -/
def cText (bs : List UInt8) : List UInt8 := bs.takeWhile (· ≠ 0)

section Hash

variable (formatDouble : D → List Char) (formatFloat32 : List Char)
  (sha256 : List UInt8 → List UInt8)

/-- `event-content-hash` of an event. -/
def eventContentHash (ev : Event D) : Exec Exn (List UInt8) := do
  let text ← sexpToCanonicalString formatDouble formatFloat32
    (.pair ev.node (.pair ev.prev (.pair ev.vclock (.pair ev.type (.pair ev.payload .null)))))
  .ok (sha256 text)

end Hash

/-- The row of an event. -/
def IsRow (ops : DoubleOps D) (row : Exec Exn StringObject) (ev : Event D) : Prop :=
  ∃ line x, row = .ok line ∧ msParse ops line = .ok x ∧ msCanonicalEvent x = some ev

theorem IsRow.unique {ops : DoubleOps D} {row : Exec Exn StringObject} {ev ev' : Event D}
    (h : IsRow ops row ev) (h' : IsRow ops row ev') : ev = ev' := by
  obtain ⟨line, x, rfl, hx, hev⟩ := h
  obtain ⟨line', x', hline, hx', hev'⟩ := h'
  obtain rfl := Except.ok.inj hline
  obtain rfl := Except.ok.inj (hx.symm.trans hx')
  exact Option.some.inj (hev.symm.trans hev')

/-- The rows of a file are these events. -/
def RowEvents (ops : DoubleOps D) (text : List UInt8) (evs : List (Event D)) : Prop :=
  List.Forall₂ (IsRow ops) (msRows text) evs

theorem RowEvents.unique {ops : DoubleOps D} {text : List UInt8} {evs evs' : List (Event D)}
    (h : RowEvents ops text evs) (h' : RowEvents ops text evs') : evs = evs' := by
  rw [RowEvents] at h h'
  generalize msRows text = rows at h h'
  induction h generalizing evs' with
  | nil => cases h'; rfl
  | cons hrow _ ih =>
    cases h' with
    | cons hrow' h' => rw [hrow.unique hrow', ih h']

/-- The texts that a hash function returns. -/
def HexadecimalBytes (sha256 : List UInt8 → List UInt8) : Prop :=
  ∀ text, ∀ b ∈ sha256 text, b ∈ encode "0123456789abcdef".toList

theorem cText_eq_self {bs : List UInt8} (h : 0 ∉ bs) : cText bs = bs := by
  rw [cText, List.takeWhile_eq_self_iff]
  intro b hb
  rw [decide_eq_true_eq]
  rintro rfl
  exact h hb

/-! ### Rows of ASCII characters -/

theorem encode_spaces (k : ℕ) : encode (List.replicate k ' ') = List.replicate k 32 := by
  induction k with
  | zero => rfl
  | succ k ih => rw [List.replicate_succ, encode_cons, ih]; rfl

theorem rowLine_ascii {cs : List Char} (hascii : ∀ c ∈ cs, c.toNat < 128)
    (hlen : cs.length < msMaxCanonicalEventLineBytes) :
    ∃ u, rowLine (encode cs) = .ok u ∧ u.bytes = encode cs := by
  have hbytes : (encode cs).length = cs.length := by
    rw [encode_ascii hascii, asciiBytes, List.length_map]
  have hbuffer : (rowBuffer (encode cs)).bytes =
      encode (cs ++ List.replicate (msMaxCanonicalEventLineBytes - 1 - cs.length) ' ') := by
    change (encode cs ++ _).take _ = _
    rw [encode_append, encode_spaces, List.take_append, hbytes, List.take_of_length_le (by omega),
      List.take_replicate]
    congr 2
    omega
  have h : At (rowBuffer (encode cs)) _ []
      (cs ++ List.replicate (msMaxCanonicalEventLineBytes - 1 - cs.length) ' ') :=
    ⟨hbuffer, rfl⟩
  obtain ⟨u, hu, hcs⟩ := h.sub
  refine ⟨u, ?_, hcs⟩
  rw [rowLine, hbytes]
  exact hu

theorem msRowsFrom_append {buf line : List UInt8} (hline : 10 ∉ line)
    (hlen : buf.length + line.length < msMaxCanonicalEventLineBytes) (rest : List UInt8) :
    msRowsFrom buf (line ++ rest) = msRowsFrom (line.reverse ++ buf) rest := by
  induction line generalizing buf with
  | nil => rfl
  | cons c line ih =>
    rw [List.mem_cons, not_or] at hline
    rw [List.length_cons] at hlen
    rw [List.cons_append, msRowsFrom, if_neg (Ne.symm hline.1), if_neg (by omega),
      ih hline.2 (by rw [List.length_cons]; omega), List.reverse_cons, List.append_assoc]
    rfl

theorem msRows_line {line : List UInt8} (hline : 10 ∉ line)
    (hlen : line.length < msMaxCanonicalEventLineBytes) (rest : List UInt8) :
    msRows (line ++ 10 :: rest) = rowLine line :: msRows rest := by
  rw [msRows, msRowsFrom_append hline (by rwa [List.length_nil, Nat.zero_add]), msRowsFrom,
    if_pos rfl, List.append_nil, List.reverse_reverse, msRows]


/-! ### Events without contents -/

/-- An event without contents, with an id and a parent. -/
def emptyEvent (id : List Char) (prev : Sexp) : Sexp :=
  .pair (.sym "mem-ev-v1".toList) (.pair (.str id) (.pair prev (.pair .null
    (.pair (.sym ['n']) (.pair (.sym ['t']) (.pair .null .null))))))

/-- The event, as the parser returns it. -/
def emptyEventItem (id : List Char) (prev : Item Unit) : Event Unit where
  id := encode id
  prev := prev
  vclock := .null
  node := .sym (encode ['n'])
  type := .sym (encode ['t'])
  payload := .null

/-- The text of such an event. -/
def emptyLine (id : List Char) (prev : Sexp) : List UInt8 :=
  encode (canonicalString (emptyEvent id prev))

/-- Its row. -/
def emptyRow (id : List Char) (prev : Sexp) : List UInt8 := emptyLine id prev ++ [10]

/-- What such an event is hashed from. -/
def emptyContents (prev : Sexp) : Sexp :=
  .pair (.sym ['n']) (.pair prev (.pair .null (.pair (.sym ['t']) (.pair .null .null))))

/-- The text of its contents. -/
def emptyBody (prev : Sexp) : List UInt8 := encode (canonicalString (emptyContents prev))

/-- Characters that a hash or a parent has. -/
def PlainText (t : List Char) : Prop := ∀ c ∈ t, c.toNat < 128 ∧ c ≠ '\n' ∧ c ≠ '"'

instance (t : List Char) : Decidable (PlainText t) := List.decidableBAll _ t

/-- No parent, or a short one. -/
inductive PlainParent : Item Unit → Sexp → Prop
  | none : PlainParent falseItem (.bool false)
  | some {p : List Char} (hp : PlainText p) (hlen : p.length < 1000) :
      PlainParent (.str (encode p)) (.str p)

variable {t id : List Char} {prev : Sexp} {v : Item Unit}

theorem PlainText.endsAscii (h : PlainText t) : EndsAscii t :=
  fun c hc => (h c (List.mem_of_getLast? hc)).1

theorem PlainText.readable (h : PlainText t) : Readable (.str t) :=
  .str fun hmem => (h _ hmem).2.2 rfl

theorem mem_encode_hexadecimal (h : ∀ c ∈ t, c ∈ "0123456789abcdef".toList) {b : UInt8}
    (hb : b ∈ encode t) : b ∈ encode "0123456789abcdef".toList := by
  have hdigits : ∀ c ∈ "0123456789abcdef".toList, c.toNat < 128 :=
    List.forall_iff_forall_mem.mp (by decide)
  rw [encode_ascii fun c hc => hdigits c (h c hc)] at hb
  rw [encode_ascii hdigits]
  exact List.map_subset byte h hb

theorem plainText_of_hexadecimal (h : ∀ c ∈ t, c ∈ "0123456789abcdef".toList) : PlainText t := by
  have hdigits : PlainText "0123456789abcdef".toList := by decide
  exact fun c hc => hdigits c (h c hc)

theorem PlainParent.represents (h : PlainParent v prev) : v.Represents prev := by
  cases h with
  | none => exact .bool false
  | some => exact .str _

theorem PlainParent.readable (h : PlainParent v prev) : Readable prev := by
  cases h with
  | none => exact .bool false
  | some hp => exact hp.readable

theorem canonicalString_emptyEvent (id : List Char) (prev : Sexp) :
    canonicalString (emptyEvent id prev) = "(mem-ev-v1 \"".toList ++
      (id ++ ("\" ".toList ++ (canonicalString prev ++ " () n t ())".toList))) := by
  simp [emptyEvent, canonicalString, cdrString, atomString]

theorem PlainParent.chars (h : PlainParent v prev) :
    ∀ c ∈ canonicalString prev, c.toNat < 128 ∧ c ≠ '\n' := by
  cases h with
  | none => exact List.forall_iff_forall_mem.mp (by decide)
  | some hp =>
    intro c hc
    rcases List.mem_cons.mp hc with rfl | hc
    · decide
    · rcases List.mem_append.mp hc with hc | hc
      · exact ⟨(hp c hc).1, (hp c hc).2.1⟩
      · obtain rfl := List.mem_singleton.mp hc
        decide

theorem emptyEvent_chars (hid : PlainText id) (hprev : PlainParent v prev) :
    ∀ c ∈ canonicalString (emptyEvent id prev), c.toNat < 128 ∧ c ≠ '\n' := by
  rw [canonicalString_emptyEvent]
  simp only [List.forall_mem_append]
  exact ⟨List.forall_iff_forall_mem.mp (by decide), fun c hc => ⟨(hid c hc).1, (hid c hc).2.1⟩,
    List.forall_iff_forall_mem.mp (by decide), hprev.chars,
    List.forall_iff_forall_mem.mp (by decide)⟩

theorem length_emptyEvent (hprev : PlainParent v prev) (hlen : id.length < 1000) :
    (canonicalString (emptyEvent id prev)).length < msMaxCanonicalEventLineBytes := by
  have hprevLen : (canonicalString prev).length < 1002 := by
    cases hprev with
    | none => decide
    | @some p hp hplen =>
      change (p ++ ['"']).length + 1 < 1002
      rw [List.length_append, List.length_singleton]
      omega
  have hhead : "(mem-ev-v1 \"".toList.length = 12 := rfl
  have hmiddle : "\" ".toList.length = 2 := rfl
  have htail : " () n t ())".toList.length = 11 := rfl
  rw [canonicalString_emptyEvent, msMaxCanonicalEventLineBytes]
  simp only [List.length_append]
  omega

theorem emptyLine_eq (hid : PlainText id) (hprev : PlainParent v prev) :
    emptyLine id prev = asciiBytes (canonicalString (emptyEvent id prev)) :=
  encode_ascii fun c hc => (emptyEvent_chars hid hprev c hc).1

theorem length_emptyLine (hid : PlainText id) (hprev : PlainParent v prev)
    (hlen : id.length < 1000) : (emptyLine id prev).length < msMaxCanonicalEventLineBytes := by
  rw [emptyLine_eq hid hprev, asciiBytes, List.length_map]
  exact length_emptyEvent hprev hlen

theorem newline_notMem_emptyLine (hid : PlainText id) (hprev : PlainParent v prev) :
    10 ∉ emptyLine id prev := by
  rw [emptyLine_eq hid hprev]
  intro hmem
  obtain ⟨c, hc, hbyte⟩ := List.mem_map.mp hmem
  have hcode := congrArg UInt8.toNat hbyte
  rw [byte, toNat_ofNat (by have := (emptyEvent_chars hid hprev c hc).1; omega)] at hcode
  exact (emptyEvent_chars hid hprev c hc).2 (Char.toNat_inj.mp hcode)

theorem isRow_emptyLine (hid : PlainText id) (hprev : PlainParent v prev)
    (hlen : id.length < 1000) :
    IsRow DoubleOps.unit (rowLine (emptyLine id prev)) (emptyEventItem id v) := by
  obtain ⟨u, hu, hbytes⟩ := rowLine_ascii (fun c hc => (emptyEvent_chars hid hprev c hc).1)
    (length_emptyEvent hprev hlen)
  have hprevEnds : TextsEndAscii prev := by
    cases hprev with
    | none => trivial
    | some hp => exact hp.endsAscii
  have hread : Readable (emptyEvent id prev) :=
    .pair (.sym (by decide)) (.pair hid.readable (.pair hprev.readable (.pair .null
      (.pair (.sym (by decide)) (.pair (.sym (by decide)) (.pair .null .null))))))
  have hitem : Item.Represents (.pair (.sym (encode "mem-ev-v1".toList)) (.pair (.str (encode id))
      (.pair v (.pair .null (.pair (.sym (encode ['n'])) (.pair (.sym (encode ['t']))
        (.pair .null .null))))))) (emptyEvent id prev) :=
    .pair (.sym (by decide)) (.pair (.str id) (.pair hprev.represents (.pair .null
      (.pair (.sym (by decide)) (.pair (.sym (by decide)) (.pair .null .null))))))
  have hends : TextsEndAscii (emptyEvent id prev) :=
    ⟨show EndsAscii "mem-ev-v1".toList by decide, hid.endsAscii, hprevEnds, trivial,
      show EndsAscii ['n'] by decide, show EndsAscii ['t'] by decide, trivial, trivial⟩
  have hparse := (msParse_represents DoubleOps.unit hread hitem
    ((hitem.canonicalString (fun _ => []) []).1.trans (congrArg Except.ok hbytes.symm))).1
    (.inr hends)
  exact ⟨u, _, hu, hparse, rfl⟩

theorem msRows_emptyRow (hid : PlainText id) (hprev : PlainParent v prev)
    (hlen : id.length < 1000) (rest : List UInt8) :
    msRows (emptyRow id prev ++ rest) = rowLine (emptyLine id prev) :: msRows rest := by
  rw [emptyRow, List.append_assoc, List.singleton_append,
    msRows_line (newline_notMem_emptyLine hid hprev) (length_emptyLine hid hprev hlen)]

theorem PlainParent.contents (hprev : PlainParent v prev) :
    Item.Represents (.pair (.sym (encode ['n'])) (.pair v (.pair .null
      (.pair (.sym (encode ['t'])) (.pair .null .null))))) (emptyContents prev) :=
  .pair (.sym (by decide)) (.pair hprev.represents (.pair .null
    (.pair (.sym (by decide)) (.pair .null .null))))

theorem eventContentHash_empty (sha256 : List UInt8 → List UInt8) (hprev : PlainParent v prev) :
    eventContentHash (fun _ => []) [] sha256 (emptyEventItem id v) =
      .ok (sha256 (emptyBody prev)) :=
  bind_eq_ok.mpr ⟨_, (hprev.contents.canonicalString _ _).1, rfl⟩


theorem emptyBody_inj {p q : Sexp} (h : emptyBody p = emptyBody q) :
    canonicalString p = canonicalString q := by
  have htext (r : Sexp) : canonicalString (emptyContents r) =
      "(n ".toList ++ (canonicalString r ++ " () t ())".toList) := by
    simp [emptyContents, canonicalString, cdrString, atomString]
  have heq := encode_injective h
  rw [htext, htext] at heq
  exact List.append_cancel_right (List.append_cancel_left heq)

end Eshkol.Memory.Row
