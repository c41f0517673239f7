import Eshkol.Native.Print
import Eshkol.Native.StringEscape

/-!
# The Reader of Data

`read` on native ports (`lib/core/runtime_reader_hosted.cpp`): a tokenizer and a recursive descent
that make tagged values. A port is the list of the bytes that are left in it, and `ungetc` puts
bytes back in front. Recursion is bounded by `g_reader_depth`, which is here what is left of
`ESHKOL_READ_MAX_DEPTH`; the elements of a list and of a vector are read in loops. Allocation
succeeds, and what the reader reports on `stderr` is left out.
-/

namespace Eshkol.Reader

open Machine

variable {D : Type}

/-- What is read: tagged values, with the structure of lists and vectors. The end-of-file object
is also the mark of a malformed datum. -/
inductive Datum (D : Type) : Type
  | eof
  | null
  | number (x : Tagged D)
  | char (c : Int32)
  | string (bytes : List UInt8)
  | symbol (name : List UInt8)
  | cons (car cdr : Datum D)
  | vector (elements : List (Datum D))

/-- The bytes that are left in a port. -/
abbrev Port : Type := List UInt8

/-! ### Blanks and tokens -/

/-- The blanks between data. -/
def isBlankByte (c : UInt8) : Bool := c = byte ' ' ∨ c = byte '\t' ∨ c = byte '\n' ∨ c = byte '\r'

mutual

/-- `read_skip_whitespace`: the first byte behind blanks and comments, or the end. -/
def readSkipWhitespace : Port → Option UInt8 × Port
  | [] => (none, [])
  | c :: fp =>
    if c = byte ';' then readSkipComment fp
    else if isBlankByte c then readSkipWhitespace fp
    else (some c, fp)

/-- The rest of a comment, and the blanks behind it. -/
def readSkipComment : Port → Option UInt8 × Port
  | [] => (none, [])
  | c :: fp => if c = byte '\n' then readSkipWhitespace fp else readSkipComment fp

end

/-- A run of at most so many bytes, up to a delimiter. -/
def readRun (delimiter : UInt8 → Bool) : ℕ → Port → List UInt8 × Port
  | 0, fp => ([], fp)
  | _, [] => ([], [])
  | room + 1, c :: fp =>
    if delimiter c then ([], c :: fp)
    else (c :: (readRun delimiter room fp).1, (readRun delimiter room fp).2)

/-- The delimiters behind a number or a symbol. -/
def isTokenEnd (c : UInt8) : Bool :=
  isBlankByte c ∨ c = byte ')' ∨ c = byte '(' ∨ c = byte '"' ∨ c = byte ';'

/-- The delimiters behind a symbol that begins with `#`. -/
def isHashEnd (c : UInt8) : Bool := isBlankByte c ∨ c = byte ')' ∨ c = byte '(' ∨ c = byte '"'

/-- The delimiters behind `#t`, `#f` and a character of one byte. -/
def isShortEnd (c : UInt8) : Bool := isBlankByte c ∨ c = byte ')' ∨ c = byte '('

/-- The delimiters behind the name of a boolean or of a character. -/
def isNameEnd (c : UInt8) : Bool := c = byte ' ' ∨ c = byte '\n' ∨ c = byte ')' ∨ c = byte '('

/-- `make_symbol_tagged`. A name with a NUL in it is refused. -/
def makeSymbolTagged (name : List UInt8) : Datum D :=
  if 0 ∈ name then .symbol (asciiBytes "|invalid-symbol|".toList) else .symbol name

/-! ### Atoms -/

/-- The digits of `\x...;` in a string literal, with the semicolon. -/
def readHexBytes (fp : Port) : List UInt8 × Port :=
  let digits := (fp.take 13).takeWhile fun c => (hexDigit c).isSome
  if digits.length < 13 ∧ (fp.drop digits.length).head? = some (byte ';') then
    (digits ++ [byte ';'], fp.drop (digits.length + 1))
  else (digits, fp.drop digits.length)

/-- The end of a line in a string literal: `\n`, `\r` or both. -/
def readNewlineBytes : Port → List UInt8
  | c :: fp =>
    if c = byte '\n' then [c]
    else if c = byte '\r' then c :: (fp.take 1).filter (· = byte '\n')
    else []
  | [] => []

/-- The blanks of a line continuation in a string literal. When the buffer is full the last blank
is put back. -/
def readContinuationBytes (fp : Port) : List UInt8 × Port :=
  let blanks := (fp.take 13).takeWhile isIntraline
  let rest := fp.drop blanks.length
  if blanks.length = 13 then (blanks, blanks.getLast?.toList ++ rest)
  else
    let newline := readNewlineBytes rest
    let rest' := rest.drop newline.length
    if newline = [] then (blanks, rest)
    else
      let more := (rest'.take (13 - blanks.length - newline.length)).takeWhile isIntraline
      (blanks ++ newline ++ more, rest'.drop more.length)

/-- The bytes of an escape in a string literal, behind the backslash, and what is left. The buffer
has room for 15 of them with the backslash. -/
def readEscapeBytes : Port → List UInt8 × Port
  | [] => ([], [])
  | c :: fp =>
    if c = byte 'x' ∨ c = byte 'X' then (c :: (readHexBytes fp).1, (readHexBytes fp).2)
    else if c = byte 'u' then (c :: fp.take 4, fp.drop 4)
    else if isOctal c then
      (c :: (fp.take 2).takeWhile isOctal, fp.drop ((fp.take 2).takeWhile isOctal).length)
    else if isIntraline c then
      (c :: (readContinuationBytes fp).1, (readContinuationBytes fp).2)
    else if c = byte '\r' then
      (c :: (fp.take 1).filter (· = byte '\n'), fp.drop ((fp.take 1).filter (· = byte '\n')).length)
    else ([c], fp)

def readHostedStringEscape (fp : Port) : StringEscape × Port :=
  (eshkolDecodeStringEscape (readEscapeBytes fp).1, (readEscapeBytes fp).2)

theorem length_readContinuationBytes (fp : Port) :
    (readContinuationBytes fp).2.length ≤ fp.length := by
  simp only [readContinuationBytes]
  split_ifs with h
  · rw [List.length_append, List.length_drop, h]
    have hlen : 13 ≤ fp.length := by
      rw [← h]
      exact ((List.takeWhile_sublist _).trans (List.take_sublist _ _)).length_le
    have hlast : (((fp.take 13).takeWhile isIntraline).getLast?.toList).length ≤ 1 := by
      cases ((fp.take 13).takeWhile isIntraline).getLast? <;> simp
    omega
  · exact (List.drop_sublist _ _).length_le
  · exact ((List.drop_sublist _ _).trans ((List.drop_sublist _ _).trans
      (List.drop_sublist _ _))).length_le

theorem length_readEscapeBytes (fp : Port) : (readEscapeBytes fp).2.length ≤ fp.length := by
  cases fp with
  | nil => simp [readEscapeBytes]
  | cons c fp =>
    have hdrop (n : ℕ) : (fp.drop n).length ≤ fp.length + 1 :=
      (List.drop_sublist n fp).length_le.trans (Nat.le_succ _)
    rw [readEscapeBytes, List.length_cons]
    split_ifs
    · simp only [readHexBytes]
      split_ifs
      · exact hdrop _
      · exact hdrop _
    · exact hdrop _
    · exact hdrop _
    · exact (length_readContinuationBytes fp).trans (Nat.le_succ _)
    · exact hdrop _
    · exact Nat.le_succ _

/-- The loop of `read_atom_string_literal`, with what is in the buffer. -/
def readStringLoop (fp : Port) (buf : List UInt8) : Datum D × Port :=
  match fp with
  | [] => (.string buf, [])
  | c :: fp =>
    if c = byte '"' then (.string buf, fp)
    else if c = byte '\\' then
      match (readHostedStringEscape fp).1 with
      | .ok out =>
        if 1024 * 1024 < buf.length + out.length then (.null, (readHostedStringEscape fp).2)
        else readStringLoop (readHostedStringEscape fp).2 (buf ++ out)
      | _ => (.null, (readHostedStringEscape fp).2)
    else if buf.length = 1024 * 1024 then (.null, fp)
    else readStringLoop fp (buf ++ [c])
termination_by fp.length
decreasing_by
  · exact Nat.lt_succ_of_le (length_readEscapeBytes fp)
  · exact Nat.lt_succ_self _

def readAtomStringLiteral (fp : Port) : Datum D × Port := readStringLoop fp []

/-- The loop of `read_atom_vertical_line_symbol`. What does not fit into the buffer is dropped. -/
def readBarLoop (fp : Port) (buf : List UInt8) : Datum D × Port :=
  match fp with
  | [] => (.eof, [])
  | c :: fp =>
    if c = byte '|' then (makeSymbolTagged buf, fp)
    else if c = byte '\\' then
      match (symbolEscape fp).1 with
      | some out => readBarLoop (symbolEscape fp).2 ((buf ++ out).take 4095)
      | none => (.eof, (symbolEscape fp).2)
    else readBarLoop fp ((buf ++ [c]).take 4095)
termination_by fp.length
decreasing_by
  · exact Nat.lt_succ_of_le (length_symbolEscape fp)
  · exact Nat.lt_succ_self _

def readAtomVerticalLineSymbol (fp : Port) : Datum D × Port := readBarLoop fp []

/-- A character that was spelled by name. -/
def namedChar (name : List UInt8) : Int32 :=
  if name = asciiBytes "space".toList then 32
  else if name = asciiBytes "newline".toList then 10
  else if name = asciiBytes "tab".toList then 9
  else if name = asciiBytes "return".toList then 13
  else if name = asciiBytes "null".toList then 0
  else if name.head? = some (byte 'x') then (strtoll 16 (cString name.tail)).value.toInt32
  else Int32.ofNat (name.headD 0).toNat

/-- `#\\` and what it spells. -/
def readChar : Port → Datum D × Port
  | [] => (.eof, [])
  | [c1] => (.char (Int32.ofNat c1.toNat), [])
  | c1 :: c2 :: fp =>
    if isShortEnd c2 then (.char (Int32.ofNat c1.toNat), c2 :: fp)
    else
      let run := readRun isNameEnd 29 fp
      -- the name is compared as a C string
      (.char (namedChar ((c1 :: c2 :: run.1).takeWhile (· ≠ 0))), run.2)

/-- `#t` and `#f`, behind the letter: whatever follows up to a delimiter belongs to the name. The
buffer for the name of true has room for 14 bytes, and that of false has no end. -/
def readBool (b : Bool) (fp : Port) : Datum D × Port :=
  match fp with
  | [] => (.number (.bool b), [])
  | c :: _ =>
    if isShortEnd c then (.number (.bool b), fp)
    else (.number (.bool b), (readRun isNameEnd (if b then 14 else fp.length) fp).2)

def readAtomHashNonVector (ch : Option UInt8) (fp : Port) : Datum D × Port :=
  if ch = some (byte 't') then readBool true fp
  else if ch = some (byte 'f') then readBool false fp
  else if ch = some (byte '\\') then readChar fp
  else
    let run := readRun isHashEnd 253 fp
    -- the end of the file is stored as the byte `0xFF`
    (makeSymbolTagged (byte '#' :: ch.getD 0xFF :: run.1), run.2)

/-- A token that is no number of its own kind: a fraction, or a symbol. The fraction of an
`eshkol_rational_t` whose `denominator` field is one is an `INT64`. -/
def fractionOrSymbol (buf : List UInt8) : Exec Exn (Datum D) :=
  let text := cString buf
  let num := strtoll 10 (text.takeWhile (· ≠ '/'))
  let den := strtoll 10 ((text.dropWhile (· ≠ '/')).tail)
  if '/' ∈ text ∧ text.head? ≠ some '/' ∧ text.idxOf '/' ≠ buf.length - 1 ∧
      num.rest = [] ∧ den.rest = [] ∧ den.value ≠ 0 then do
    let rat ← eshkolRationalCreate num.value den.value
    .ok (.number (if rat.denominator = 1 then .int64 rat.numerator else .rational rat))
  else .ok (makeSymbolTagged buf)

/-- `read_atom_number_or_symbol`. The value of an inexact literal is a parameter. -/
def readAtomNumberOrSymbol (readDouble : List Char → D) (first : UInt8) (fp : Port) :
    Exec Exn (Datum D × Port) := do
  let run := readRun isTokenEnd 254 fp
  let buf := first :: run.1
  let text := cString buf
  let ival := strtoll 10 text
  if ival.rest = [] ∧ text.length = buf.length then .ok (.number (.int64 ival.value), run.2)
  else if strtodEnd text = [] ∧ text.length = buf.length then
    .ok (.number (.double (readDouble text)), run.2)
  else do
    let datum ← fractionOrSymbol buf
    .ok (datum, run.2)

/-! ### Lists and vectors -/

/-- A reader of data, from a first byte on. -/
abbrev Element (D : Type) : Type := Option UInt8 → Port → Exec Exn (Datum D × Port)

/-- The end-of-file object, and the mark of a malformed datum. -/
def Datum.isEof : Datum D → Bool
  | .eof => true
  | _ => false

/-- `read_list`, from an element on. The blanks behind an element are skipped to look for a dot, and
skipped again before the next element. The port becomes shorter with every element, so that the
loop ends. -/
def readList (element : Element D) (fp : Port) : Exec Exn (Datum D × Port) :=
  match readSkipWhitespace fp with
  | (none, rest) => .ok (.eof, rest)
  | (some ch, rest) =>
    if ch = byte ')' then .ok (.null, rest)
    else do
      let (car, fp₁) ← element (some ch) rest
      if car.isEof then .ok (.eof, fp₁)
      else
        match dotted fp₁ with
        | some fp₂ => do
            let (cdr, fp₃) ← element (readSkipWhitespace fp₂).1 (readSkipWhitespace fp₂).2
            .ok (.cons car cdr, (readSkipWhitespace fp₃).2)
        | none =>
          if fp₁.length < fp.length then do
            let (cdr, fp₂) ← readList element fp₁
            .ok (.cons car cdr, fp₂)
          else .error .diverges
termination_by fp.length
where
  /-- The port behind a dot that stands alone. -/
  dotted (fp : Port) : Option Port :=
    match readSkipWhitespace fp with
    | (some c, next :: rest) => if c = byte '.' ∧ isBlankByte next then some rest else none
    | _ => none

/-- The loop of `read_vector`: the elements, unless the end or a malformed datum is met. -/
def readVectorLoop (element : Element D) (fp : Port) : Exec Exn (Option (List (Datum D)) × Port) :=
  match readSkipWhitespace fp with
  | (none, rest) => .ok (none, rest)
  | (some ch, rest) =>
    if ch = byte ')' then .ok (some [], rest)
    else do
      let (elem, fp₁) ← element (some ch) rest
      if elem.isEof then .ok (none, fp₁)
      else if fp₁.length < fp.length then do
        let (elems, fp₂) ← readVectorLoop element fp₁
        .ok (elems.map (elem :: ·), fp₂)
      else .error .diverges
termination_by fp.length

def readVector (element : Element D) (fp : Port) : Exec Exn (Datum D × Port) := do
  let (elems, rest) ← readVectorLoop element fp
  .ok (elems.elim .eof .vector, rest)

/-! ### Data -/

section Read

variable (readDouble : List Char → D)

def readAtom (element : Element D) (first : UInt8) (fp : Port) : Exec Exn (Datum D × Port) :=
  if first = byte '"' then .ok (readAtomStringLiteral fp)
  else if first = byte '|' then .ok (readAtomVerticalLineSymbol fp)
  else if first = byte '#' then
    if fp.head? = some (byte '(') then readVector element fp.tail
    else .ok (readAtomHashNonVector fp.head? fp.tail)
  else readAtomNumberOrSymbol readDouble first fp

/-- `read_datum`, with what is left of `ESHKOL_READ_MAX_DEPTH`. -/
def readDatum : ℕ → Element D
  | _, none, fp => .ok (.eof, fp)
  | 0, some _, fp => .ok (.eof, fp)
  | room + 1, some first, fp =>
    if first = byte '\'' then do
      let (quoted, rest) ←
        readDatum room (readSkipWhitespace fp).1 (readSkipWhitespace fp).2
      .ok (.cons (makeSymbolTagged (asciiBytes "quote".toList)) (.cons quoted .null), rest)
    else if first = byte '(' then readList (readDatum room) fp
    else readAtom readDouble (readDatum room) first fp

/-- `ESHKOL_READ_MAX_DEPTH`. -/
def readMaxDepth : ℕ := 4096

/-- `eshkol_read_sexpr`: the datum, and what is left in the port. -/
def eshkolReadSexpr (fp : Port) : Exec Exn (Datum D × Port) :=
  readDatum readDouble readMaxDepth (readSkipWhitespace fp).1 (readSkipWhitespace fp).2

end Read

/-! ### What is read -/

/-- A number that is no bignum and has no bignum part. -/
def IsFixedNumber : Tagged D → Prop
  | .bignum _ => False
  | .rational r => r.isBig = false
  | _ => True

/-- A datum without bignums. -/
inductive Fixed : Datum D → Prop
  | eof : Fixed .eof
  | null : Fixed .null
  | number {x : Tagged D} (h : IsFixedNumber x) : Fixed (.number x)
  | char (c : Int32) : Fixed (.char c)
  | string (bytes : List UInt8) : Fixed (.string bytes)
  | symbol (name : List UInt8) : Fixed (.symbol name)
  | cons {car cdr : Datum D} (hcar : Fixed car) (hcdr : Fixed cdr) : Fixed (.cons car cdr)
  | vector {elements : List (Datum D)} (h : ∀ e ∈ elements, Fixed e) : Fixed (.vector elements)

/-- What a reader makes of a port: a datum without bignums, and a part of the port. -/
structure Sound (fp : Port) (out : Datum D × Port) : Prop where
  fixed : Fixed out.1
  length_le : out.2.length ≤ fp.length

theorem Sound.mono {fp fp' : Port} {out : Datum D × Port} (h : Sound fp out)
    (hle : fp.length ≤ fp'.length) : Sound fp' out :=
  ⟨h.fixed, h.length_le.trans hle⟩

theorem fixed_makeSymbolTagged (name : List UInt8) : Fixed (makeSymbolTagged name : Datum D) := by
  rw [makeSymbolTagged]
  split
  · exact .symbol _
  · exact .symbol _

mutual

theorem length_readSkipWhitespace : ∀ (fp : Port),
    (readSkipWhitespace fp).2.length + (readSkipWhitespace fp).1.toList.length ≤ fp.length
  | [] => by simp [readSkipWhitespace]
  | c :: fp => by
      rw [readSkipWhitespace]
      split_ifs
      · exact (length_readSkipComment fp).trans (Nat.le_succ _)
      · exact (length_readSkipWhitespace fp).trans (Nat.le_succ _)
      · exact le_rfl

theorem length_readSkipComment : ∀ (fp : Port),
    (readSkipComment fp).2.length + (readSkipComment fp).1.toList.length ≤ fp.length
  | [] => by simp [readSkipComment]
  | c :: fp => by
      rw [readSkipComment]
      split_ifs
      · exact (length_readSkipWhitespace fp).trans (Nat.le_succ _)
      · exact (length_readSkipComment fp).trans (Nat.le_succ _)

end

theorem length_readRun (delimiter : UInt8 → Bool) (room : ℕ) (fp : Port) :
    (readRun delimiter room fp).2.length ≤ fp.length := by
  fun_induction readRun delimiter room fp with
  | case1 fp => exact le_rfl
  | case2 => exact le_rfl
  | case3 room c fp h => exact le_rfl
  | case4 room c fp h ih => exact ih.trans (Nat.le_succ _)

theorem readStringLoop_sound (fp : Port) (buf : List UInt8) :
    Sound fp (readStringLoop fp buf : Datum D × Port) := by
  have hescape (fp : Port) : (readHostedStringEscape fp).2.length ≤ fp.length + 1 :=
    (length_readEscapeBytes fp).trans (Nat.le_succ _)
  fun_induction readStringLoop (D := D) fp buf with
  | case1 buf => exact ⟨.string _, le_rfl⟩
  | case2 buf fp => exact ⟨.string _, Nat.le_succ _⟩
  | case3 buf fp h out hout hlen => exact ⟨.null, hescape fp⟩
  | case4 buf fp h out hout hlen ih => exact ih.mono (hescape fp)
  | case5 buf fp h hout => exact ⟨.null, hescape fp⟩
  | case6 buf c fp h h' hlen => exact ⟨.null, Nat.le_succ _⟩
  | case7 buf c fp h h' hlen ih => exact ih.mono (Nat.le_succ _)

theorem readBarLoop_sound (fp : Port) (buf : List UInt8) :
    Sound fp (readBarLoop fp buf : Datum D × Port) := by
  have hescape (fp : Port) : (symbolEscape fp).2.length ≤ fp.length + 1 :=
    (length_symbolEscape fp).trans (Nat.le_succ _)
  fun_induction readBarLoop (D := D) fp buf with
  | case1 buf => exact ⟨.eof, le_rfl⟩
  | case2 buf fp => exact ⟨fixed_makeSymbolTagged _, Nat.le_succ _⟩
  | case3 buf fp h out hout ih => exact ih.mono (hescape fp)
  | case4 buf fp h hout => exact ⟨.eof, hescape fp⟩
  | case5 buf c fp h h' ih => exact ih.mono (Nat.le_succ _)

theorem readChar_sound (fp : Port) : Sound fp (readChar fp : Datum D × Port) := by
  unfold readChar
  split
  next => exact ⟨.eof, le_rfl⟩
  next c1 => exact ⟨.char _, Nat.zero_le _⟩
  next c1 c2 fp =>
    have hrun := length_readRun isNameEnd 29 fp
    split
    · exact ⟨.char _, Nat.le_succ _⟩
    · exact ⟨.char _, hrun.trans (by simp only [List.length_cons]; omega)⟩

theorem readBool_sound (b : Bool) (fp : Port) : Sound fp (readBool b fp : Datum D × Port) := by
  have hfixed : Fixed (.number (.bool b) : Datum D) := .number trivial
  unfold readBool
  split
  next => exact ⟨hfixed, le_rfl⟩
  next =>
    split
    · exact ⟨hfixed, le_rfl⟩
    · exact ⟨hfixed, length_readRun _ _ _⟩

theorem readAtomHashNonVector_sound (ch : Option UInt8) (fp : Port) :
    Sound fp (readAtomHashNonVector ch fp : Datum D × Port) := by
  rw [readAtomHashNonVector]
  split_ifs
  · exact readBool_sound true fp
  · exact readBool_sound false fp
  · exact readChar_sound fp
  · exact ⟨fixed_makeSymbolTagged _, length_readRun _ _ _⟩

theorem fractionOrSymbol_fixed (buf : List UInt8) :
    ∃ datum : Datum D, fractionOrSymbol buf = .ok datum ∧ Fixed datum := by
  rw [fractionOrSymbol]
  split_ifs with h
  · have hden : (strtoll 10 (((cString buf).dropWhile (· ≠ '/')).tail)).value.toInt ≠ 0 := by
      intro h0
      exact h.2.2.2.2.2 (Int64.toInt_inj.mp h0)
    obtain ⟨rat, hrat, -, -⟩ :=
      @eshkolRationalCreate_spec (strtoll 10 ((cString buf).takeWhile (· ≠ '/'))).value _ hden
    refine ⟨_, by rw [hrat]; rfl, .number ?_⟩
    cases rat with
    | big n d => exact trivial
    | small n d =>
      split_ifs
      · exact trivial
      · rfl
  · exact ⟨_, rfl, fixed_makeSymbolTagged _⟩

/-- A reader that returns from every port, with what it made of it. -/
def Returns (element : Element D) : Prop :=
  ∀ first fp, ∃ out, element first fp = .ok out ∧ Sound fp out

theorem readAtomNumberOrSymbol_returns (readDouble : List Char → D) (first : UInt8) (fp : Port) :
    ∃ out, readAtomNumberOrSymbol readDouble first fp = .ok out ∧ Sound fp out := by
  rw [readAtomNumberOrSymbol]
  have hrun := length_readRun isTokenEnd 254 fp
  split_ifs
  · exact ⟨_, rfl, .number trivial, hrun⟩
  · exact ⟨_, rfl, .number trivial, hrun⟩
  · obtain ⟨datum, hdatum, hfixed⟩ :=
      @fractionOrSymbol_fixed D (first :: (readRun isTokenEnd 254 fp).1)
    exact ⟨_, by rw [hdatum]; rfl, hfixed, hrun⟩

theorem length_dotted {fp rest : Port} (h : readList.dotted fp = some rest) :
    rest.length ≤ fp.length := by
  have hskip := length_readSkipWhitespace fp
  unfold readList.dotted at h
  split at h
  next c next fp' heq =>
    split_ifs at h
    obtain rfl := Option.some.inj h
    rw [heq] at hskip
    simp only [List.length_cons] at hskip
    omega
  next => simp at h

theorem readList_returns {element : Element D} (h : Returns element) (fp : Port) :
    ∃ out, readList element fp = .ok out ∧ Sound fp out := by
  induction hn : fp.length using Nat.strong_induction_on generalizing fp with
  | _ n ih =>
    have hskip := length_readSkipWhitespace fp
    rw [readList]
    split
    next rest heq =>
        rw [heq] at hskip
        exact ⟨_, rfl, .eof, hskip⟩
    next ch rest heq =>
        rw [heq] at hskip
        change rest.length + 1 ≤ fp.length at hskip
        split_ifs
        · exact ⟨_, rfl, .null, (Nat.le_succ _).trans hskip⟩
        · obtain ⟨⟨car, fp₁⟩, hcar, hfixed, hlen⟩ := h (some ch) rest
          change fp₁.length ≤ rest.length at hlen
          rw [hcar, ok_bind]
          simp only
          split_ifs with heof hlt
          · exact ⟨_, rfl, .eof, by simp only; omega⟩
          · split
            next fp₂ hdot =>
                have hdotted := length_dotted hdot
                have hskip₂ := length_readSkipWhitespace fp₂
                obtain ⟨⟨cdr, fp₃⟩, hcdr, hfixed', hlen'⟩ :=
                  h (readSkipWhitespace fp₂).1 (readSkipWhitespace fp₂).2
                change fp₃.length ≤ _ at hlen'
                have hskip₃ := length_readSkipWhitespace fp₃
                rw [hcdr, ok_bind]
                exact ⟨_, rfl, .cons hfixed hfixed', by simp only; omega⟩
            next =>
                obtain ⟨⟨cdr, fp₂⟩, hcdr, hfixed', hlen'⟩ := ih fp₁.length (by omega) fp₁ rfl
                change fp₂.length ≤ _ at hlen'
                rw [hcdr, ok_bind]
                exact ⟨_, rfl, .cons hfixed hfixed', by simp only; omega⟩
          · omega

theorem readVectorLoop_returns {element : Element D} (h : Returns element) (fp : Port) :
    ∃ elems rest, readVectorLoop element fp = .ok (elems, rest) ∧ rest.length ≤ fp.length ∧
      ∀ es, elems = some es → ∀ e ∈ es, Fixed e := by
  induction hn : fp.length using Nat.strong_induction_on generalizing fp with
  | _ n ih =>
    have hskip := length_readSkipWhitespace fp
    rw [readVectorLoop]
    split
    next rest heq =>
        rw [heq] at hskip
        exact ⟨none, rest, rfl, hn ▸ hskip, by simp⟩
    next ch rest heq =>
        rw [heq] at hskip
        change rest.length + 1 ≤ fp.length at hskip
        split_ifs
        · exact ⟨some [], rest, rfl, by omega, by simp⟩
        · obtain ⟨⟨elem, fp₁⟩, helem, hfixed, hlen⟩ := h (some ch) rest
          change fp₁.length ≤ rest.length at hlen
          rw [helem, ok_bind]
          simp only
          split_ifs with heof hlt
          · exact ⟨none, fp₁, rfl, by omega, by simp⟩
          · obtain ⟨elems, fp₂, helems, hlen', hfixed'⟩ := ih fp₁.length (by omega) fp₁ rfl
            rw [helems, ok_bind]
            refine ⟨_, fp₂, rfl, by omega, ?_⟩
            intro es hes e he
            obtain ⟨es', rfl, rfl⟩ := Option.map_eq_some_iff.mp hes
            rcases List.mem_cons.mp he with rfl | he
            · exact hfixed
            · exact hfixed' es' rfl e he
          · omega

theorem readVector_returns {element : Element D} (h : Returns element) (fp : Port) :
    ∃ out, readVector element fp = .ok out ∧ Sound fp out := by
  obtain ⟨elems, rest, helems, hlen, hfixed⟩ := readVectorLoop_returns h fp
  rw [readVector, helems, ok_bind]
  refine ⟨_, rfl, ?_, hlen⟩
  cases elems with
  | none => exact .eof
  | some es => exact .vector (hfixed es rfl)

theorem readAtom_returns (readDouble : List Char → D) {element : Element D} (h : Returns element)
    (first : UInt8) (fp : Port) :
    ∃ out, readAtom readDouble element first fp = .ok out ∧ Sound fp out := by
  have htail : fp.tail.length ≤ fp.length := (List.tail_sublist fp).length_le
  rw [readAtom]
  split_ifs
  · exact ⟨_, rfl, readStringLoop_sound fp []⟩
  · exact ⟨_, rfl, readBarLoop_sound fp []⟩
  · obtain ⟨out, hout, hsound⟩ := readVector_returns h fp.tail
    exact ⟨out, hout, hsound.mono htail⟩
  · exact ⟨_, rfl, (readAtomHashNonVector_sound fp.head? fp.tail).mono htail⟩
  · exact readAtomNumberOrSymbol_returns readDouble first fp

theorem readDatum_returns (readDouble : List Char → D) (room : ℕ) :
    Returns (readDatum readDouble room) := by
  induction room with
  | zero =>
    intro first fp
    cases first with
    | none => exact ⟨_, by rw [readDatum], .eof, le_rfl⟩
    | some first => exact ⟨_, by rw [readDatum], .eof, le_rfl⟩
  | succ room ih =>
    intro first fp
    cases first with
    | none => exact ⟨_, by rw [readDatum], .eof, le_rfl⟩
    | some first =>
      rw [readDatum]
      split_ifs
      · have hskip := length_readSkipWhitespace fp
        obtain ⟨⟨quoted, rest⟩, hquoted, hfixed, hlen⟩ :=
          ih (readSkipWhitespace fp).1 (readSkipWhitespace fp).2
        rw [hquoted, ok_bind]
        exact ⟨_, rfl, .cons (fixed_makeSymbolTagged _) (.cons hfixed .null),
          hlen.trans ((Nat.le_add_right _ _).trans hskip)⟩
      · exact readList_returns ih fp
      · exact readAtom_returns readDouble ih first fp

theorem eshkolReadSexpr_returns (readDouble : List Char → D) (fp : Port) :
    ∃ datum rest, eshkolReadSexpr readDouble fp = .ok (datum, rest) ∧ Fixed datum := by
  obtain ⟨⟨datum, rest⟩, h, hsound⟩ := readDatum_returns readDouble readMaxDepth
    (readSkipWhitespace fp).1 (readSkipWhitespace fp).2
  exact ⟨datum, rest, h, hsound.fixed⟩

end Eshkol.Reader
