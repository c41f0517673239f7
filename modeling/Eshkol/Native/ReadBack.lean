import Eshkol.Native.Write

/-!
# Reading What Was Written

`read` on the text of `write`, for exact numbers and proper lists of them. A number of two `int64_t`
parts is read back. The reader has no bignums: it takes what `strtoll` returns for the number, and
`strtoll` clamps. Beyond a hundred nested lists the writer prints dots, and these are read as a
symbol.
-/

namespace Eshkol.Reader

open Machine

variable {D : Type}

/-! ### Tokens -/

/-- A port at the end or at a delimiter. -/
def Delimited (fp : Port) : Prop := ∀ c ∈ fp.head?, isTokenEnd c = true

theorem delimited_nil : Delimited [] := by simp [Delimited]

theorem delimited_cons {c : UInt8} {fp : Port} (h : isTokenEnd c = true) : Delimited (c :: fp) := by
  simpa [Delimited] using h

theorem readRun_append {run fp : Port} {room : ℕ} (hrun : ∀ c ∈ run, isTokenEnd c = false)
    (hroom : run.length ≤ room) (hfp : Delimited fp) :
    readRun isTokenEnd room (run ++ fp) = (run, fp) := by
  induction run generalizing room with
  | nil =>
    cases room with
    | zero => rfl
    | succ room =>
      cases fp with
      | nil => rfl
      | cons c fp =>
        rw [List.nil_append, readRun, if_pos (hfp c rfl)]
  | cons c run ih =>
    obtain ⟨room, rfl⟩ : ∃ n, room = n + 1 := ⟨room - 1, by
      rw [List.length_cons] at hroom
      omega⟩
    have hc := hrun c List.mem_cons_self
    have ih := ih (fun d hd => hrun d (List.mem_cons_of_mem c hd))
      (Nat.le_of_succ_le_succ hroom)
    rw [List.cons_append, readRun, hc, if_neg Bool.false_ne_true, ih]

/-- The characters of numbers. -/
def IsNumberChar (c : Char) : Prop := c.isDigit = true ∨ c = '-' ∨ c = '/'

theorem IsNumberChar.isAscii {c : Char} (h : IsNumberChar c) : IsAscii c := by
  rcases h with h | rfl | rfl
  · exact isAscii_of_isDigit h
  · decide
  · decide

theorem IsNumberChar.toNat {c : Char} (h : IsNumberChar c) : 45 ≤ c.toNat ∧ c.toNat ≤ 57 := by
  rcases h with h | rfl | rfl
  · have := toNat_of_isDigit h
    omega
  · decide
  · decide

theorem IsNumberChar.byte_ne {c d : Char} (h : IsNumberChar c) (hd : IsAscii d)
    (hne : ¬ (45 ≤ d.toNat ∧ d.toNat ≤ 57)) : byte c ≠ byte d := by
  intro heq
  rw [byte_inj h.isAscii hd] at heq
  exact hne (heq ▸ h.toNat)

theorem IsNumberChar.isTokenEnd {c : Char} (h : IsNumberChar c) : isTokenEnd (byte c) = false := by
  have hne (d : Char) (hd : IsAscii d) (hd' : ¬ (45 ≤ d.toNat ∧ d.toNat ≤ 57)) := h.byte_ne hd hd'
  simp [Reader.isTokenEnd, isBlankByte, hne ' ' (by decide) (by decide),
    hne '\t' (by decide) (by decide), hne '\n' (by decide) (by decide),
    hne '\r' (by decide) (by decide), hne ')' (by decide) (by decide),
    hne '(' (by decide) (by decide), hne '"' (by decide) (by decide),
    hne ';' (by decide) (by decide)]

theorem isNumberChar_of_mem_intText {z : ℤ} {c : Char} (h : c ∈ intText z) : IsNumberChar c := by
  rw [intText] at h
  split at h
  · rcases List.mem_cons.mp h with rfl | h
    · exact .inr (.inl rfl)
    · exact .inl (isDigit_of_mem_natText h)
  · exact .inl (isDigit_of_mem_natText h)

/-! ### Fractions -/

theorem isNumberChar_of_mem_fraction {n d : ℤ} {c : Char}
    (h : c ∈ intText n ++ '/' :: intText d) : IsNumberChar c := by
  rcases List.mem_append.mp h with h | h
  · exact isNumberChar_of_mem_intText h
  · rcases List.mem_cons.mp h with rfl | h
    · exact .inr (.inr rfl)
    · exact isNumberChar_of_mem_intText h

theorem slash_not_mem_intText (z : ℤ) : '/' ∉ intText z := by
  intro h
  rw [intText] at h
  split at h
  · exact absurd (isDigit_of_mem_natText ((List.mem_cons.mp h).resolve_left (by decide)))
      (by decide)
  · exact absurd (isDigit_of_mem_natText h) (by decide)

theorem ne_slash_of_mem_intText {z : ℤ} {c : Char} (h : c ∈ intText z) :
    decide (c ≠ '/') = true := by
  refine decide_eq_true ?_
  rintro rfl
  exact slash_not_mem_intText z h

theorem takeWhile_fraction (n d : ℤ) :
    (intText n ++ '/' :: intText d).takeWhile (· ≠ '/') = intText n := by
  rw [List.takeWhile_append_of_pos fun c hc => ne_slash_of_mem_intText hc]
  simp

theorem dropWhile_fraction (n d : ℤ) :
    (intText n ++ '/' :: intText d).dropWhile (· ≠ '/') = '/' :: intText d := by
  rw [List.dropWhile_append_of_pos fun c hc => ne_slash_of_mem_intText hc]
  simp

theorem strtoll_int64 (v : Int64) : strtoll 10 (intText v.toInt) = ⟨v, [], false⟩ := by
  have hstrtoll := @strtoll_intText v.toInt [] fun _ => rfl
  rw [List.append_nil] at hstrtoll
  rw [hstrtoll, clampStrtoll_of_range v.le_toInt v.toInt_lt, Int64.ofInt_toInt]

/-! ### Numbers -/

theorem readAtomNumberOrSymbol_token (readDouble : List Char → D) {c : Char} {cs : List Char}
    {fp : Port} (hcs : ∀ d ∈ c :: cs, IsNumberChar d) (hlen : cs.length ≤ 254)
    (hfp : Delimited fp) :
    readAtomNumberOrSymbol readDouble (byte c) (asciiBytes cs ++ fp) =
      if (strtoll 10 (c :: cs)).rest = [] then
        .ok (.number (.int64 (strtoll 10 (c :: cs)).value), fp)
      else if strtodEnd (c :: cs) = [] then .ok (.number (.double (readDouble (c :: cs))), fp)
      else fractionOrSymbol (asciiBytes (c :: cs)) >>= fun datum => .ok (datum, fp) := by
  have hrun : readRun isTokenEnd 254 (asciiBytes cs ++ fp) = (asciiBytes cs, fp) := by
    refine readRun_append ?_ (by simpa [asciiBytes] using hlen) hfp
    intro b hb
    obtain ⟨d, hd, rfl⟩ := List.mem_map.mp hb
    exact (hcs d (List.mem_cons_of_mem c hd)).isTokenEnd
  have htext : cString (byte c :: asciiBytes cs) = c :: cs :=
    cString_asciiBytes fun d hd => (hcs d hd).isAscii
  have hlength : (c :: cs).length = (byte c :: asciiBytes cs).length := by simp [asciiBytes]
  rw [readAtomNumberOrSymbol, hrun]
  simp only [htext, hlength, and_true]
  rfl

theorem readAtomNumberOrSymbol_intText (readDouble : List Char → D) (z : ℤ) {c : Char}
    {cs : List Char} {fp : Port} (htext : intText z = c :: cs) (hlen : cs.length ≤ 254)
    (hfp : Delimited fp) :
    readAtomNumberOrSymbol readDouble (byte c) (asciiBytes cs ++ fp) =
      .ok (.number (.int64 (clampStrtoll z []).value), fp) := by
  have hstrtoll := @strtoll_intText z [] fun _ => rfl
  have hrest : (clampStrtoll z []).rest = [] := by
    rw [clampStrtoll]
    split_ifs <;> rfl
  rw [List.append_nil, htext] at hstrtoll
  rw [readAtomNumberOrSymbol_token readDouble
    (fun d hd => isNumberChar_of_mem_intText (htext ▸ hd)) hlen hfp, hstrtoll, if_pos hrest]

theorem length_natText {n : ℕ} (h : n < 10 ^ 19) : (natText n).length ≤ 19 := by
  rw [natText]
  split
  · simp
  · rw [List.length_reverse, List.length_map]
    exact (Nat.digits_length_le_iff (by omega) n).mpr h

theorem length_intText_int64 (v : Int64) : (intText v.toInt).length ≤ 20 := by
  have hlo := v.le_toInt
  have hhi := v.toInt_lt
  have := length_natText (n := v.toInt.natAbs) (by omega)
  rw [intText]
  split
  · rw [List.length_cons]
    omega
  · omega

theorem fractionOrSymbol_small {n d : Int64}
    (h : (Tagged.rational (.small n d) : Tagged D).Canonical) :
    fractionOrSymbol (asciiBytes (intText n.toInt ++ '/' :: intText d.toInt)) =
      .ok (.number (.rational (.small n d)) : Datum D) := by
  have hden : 2 ≤ d.toInt := h.2
  have hd0 : d.toInt ≠ 0 := by omega
  have hd1 : d ≠ 1 := by
    rintro rfl
    exact absurd hden (by decide)
  obtain ⟨c, cs, hcs⟩ := List.exists_cons_of_ne_nil (intText_ne_nil n.toInt)
  have hhead : (intText n.toInt ++ '/' :: intText d.toInt).head? ≠ some '/' := by
    rw [hcs]
    rintro heq
    obtain rfl : c = '/' := by simpa using heq
    exact slash_not_mem_intText n.toInt (hcs ▸ List.mem_cons_self)
  have hidx : (intText n.toInt ++ '/' :: intText d.toInt).idxOf '/' ≠
      (asciiBytes (intText n.toInt ++ '/' :: intText d.toInt)).length - 1 := by
    rw [List.idxOf_append_of_notMem (slash_not_mem_intText n.toInt), List.idxOf_cons_self]
    have := List.length_pos_iff.mpr (intText_ne_nil d.toInt)
    simp only [asciiBytes, List.length_map, List.length_append, List.length_cons]
    omega
  obtain ⟨r, hr, hcanonical, hval⟩ := @eshkolRationalCreate_spec n d hd0
  have hsmall : r = .small n d := hcanonical.eq_of_toRat_eq h.1 hval
  rw [fractionOrSymbol, cString_asciiBytes fun c hc => (isNumberChar_of_mem_fraction hc).isAscii]
  simp only [takeWhile_fraction, dropWhile_fraction, List.tail_cons, strtoll_int64]
  rw [if_pos ⟨by simp, hhead, hidx, trivial, trivial, fun h0 => hd0 (h0 ▸ rfl)⟩, hr, hsmall,
    ok_bind, Rational.denominator, if_neg hd1]

theorem IsNumberChar.byte_ne_dot {c : Char} (h : IsNumberChar c) : byte c ≠ byte '.' := by
  rw [ne_eq, byte_inj h.isAscii (by decide)]
  rintro rfl
  rcases h with h | h | h
  · exact absurd h (by decide)
  · exact absurd h (by decide)
  · exact absurd h (by decide)

/-- A displayed number is read as itself. -/
theorem displayNumber_read (fmt : FloatFormat D) (readDouble : List Char → D) {x : Tagged D}
    (hx : Operand x) (hfixed : IsFixedNumber x) :
    ∃ c cs, displayNumber fmt x = .ok (asciiBytes (c :: cs)) ∧ IsNumberChar c ∧
      ∀ fp, Delimited fp →
        readAtomNumberOrSymbol readDouble (byte c) (asciiBytes cs ++ fp) = .ok (.number x, fp) := by
  cases x with
  | int64 v =>
    obtain ⟨c, cs, hcs⟩ := List.exists_cons_of_ne_nil (intText_ne_nil v.toInt)
    have hlen := length_intText_int64 v
    rw [hcs, List.length_cons] at hlen
    refine ⟨c, cs, by rw [displayNumber, hcs],
      isNumberChar_of_mem_intText (hcs ▸ List.mem_cons_self), fun fp hfp => ?_⟩
    rw [readAtomNumberOrSymbol_intText readDouble v.toInt hcs (by omega) hfp,
      clampStrtoll_of_range v.le_toInt v.toInt_lt, Int64.ofInt_toInt]
  | rational r =>
    cases r with
    | big n d => exact absurd hfixed (by simp [IsFixedNumber, Rational.isBig])
    | small n d =>
      have hden : 2 ≤ d.toInt := hx.canonical.2
      have hd1 : d ≠ 1 := by
        rintro rfl
        exact absurd hden (by decide)
      obtain ⟨c, cs, hcs⟩ := List.exists_cons_of_ne_nil (intText_ne_nil n.toInt)
      have hnum := length_intText_int64 n
      have hdenl := length_intText_int64 d
      have htext : c :: (cs ++ '/' :: intText d.toInt) =
          intText n.toInt ++ '/' :: intText d.toInt := by rw [hcs, List.cons_append]
      have hchars : ∀ e ∈ c :: (cs ++ '/' :: intText d.toInt), IsNumberChar e := by
        rw [htext]
        exact fun e => isNumberChar_of_mem_fraction
      have hlen : (cs ++ '/' :: intText d.toInt).length ≤ 254 := by
        rw [hcs, List.length_cons] at hnum
        rw [List.length_append, List.length_cons]
        omega
      refine ⟨c, cs ++ '/' :: intText d.toInt, ?_, hchars c List.mem_cons_self, fun fp hfp => ?_⟩
      · rw [displayNumber, eshkolRationalDisplay, if_neg hd1, ok_bind, htext]
      · have hrest : (strtoll 10 (c :: (cs ++ '/' :: intText d.toInt))).rest ≠ [] := by
          rw [htext, @strtoll_intText n.toInt ('/' :: intText d.toInt) fun _ => rfl,
            clampStrtoll_of_range n.le_toInt n.toInt_lt]
          simp
        rw [readAtomNumberOrSymbol_token readDouble hchars hlen hfp, if_neg hrest,
          if_neg (strtodEnd_ne_nil (by simp)), htext, fractionOrSymbol_small hx.canonical,
          ok_bind]
  | bignum b => exact absurd hfixed id
  | double _ | float32 | bool _ => exact absurd hx.exact id

/-! ### Lists -/

section Lists

variable (readDouble : List Char → D)

/-- A text that is read as a datum, within so many levels of nesting. -/
def ReadsAs (room : ℕ) (text : List UInt8) (x : Datum D) : Prop :=
  ∃ first more, text = first :: more ∧ isBlankByte first = false ∧ first ≠ byte ';' ∧
    first ≠ byte ')' ∧ (first = byte '.' → more.head? = some (byte '.')) ∧ x.isEof = false ∧
    ∀ fp, Delimited fp → readDatum readDouble room (some first) (more ++ fp) = .ok (x, fp)

/-- A text that is read as what follows an element of a list. -/
def TailReadsAs (room : ℕ) (text : List UInt8) (x : Datum D) : Prop :=
  ∀ fp, Delimited (text ++ byte ')' :: fp) ∧ readList.dotted (text ++ byte ')' :: fp) = none ∧
    readList (readDatum readDouble room) (text ++ byte ')' :: fp) = .ok (x, fp)

theorem readSkipWhitespace_first {first : UInt8} (hblank : isBlankByte first = false)
    (hcomment : first ≠ byte ';') (fp : Port) :
    readSkipWhitespace (first :: fp) = (some first, fp) := by
  rw [readSkipWhitespace, if_neg hcomment, hblank, if_neg Bool.false_ne_true]

theorem readSkipWhitespace_space (fp : Port) :
    readSkipWhitespace (byte ' ' :: fp) = readSkipWhitespace fp := by
  rw [readSkipWhitespace, if_neg (by decide), if_pos (by decide)]

theorem readList_cons {element : Element D} {fp more rest fp' : Port} {first : UInt8}
    {car cdr : Datum D} (hskip : readSkipWhitespace fp = (some first, more))
    (hclose : first ≠ byte ')') (hcar : element (some first) more = .ok (car, rest))
    (heof : car.isEof = false) (hdot : readList.dotted rest = none) (hlen : rest.length < fp.length)
    (hcdr : readList element rest = .ok (cdr, fp')) :
    readList element fp = .ok (.cons car cdr, fp') := by
  rw [readList, hskip]
  simp only [if_neg hclose, hcar, ok_bind, heof, Bool.false_eq_true, if_false, hdot, if_pos hlen,
    hcdr]

theorem readList_close {element : Element D} (fp : Port) :
    readList element (byte ')' :: fp) = .ok (.null, fp) := by
  rw [readList, readSkipWhitespace_first (by decide) (by decide)]
  simp only [if_pos]

variable {readDouble}

theorem tailReadsAs_nil (room : ℕ) : TailReadsAs readDouble room [] (.null : Datum D) := by
  intro fp
  refine ⟨delimited_cons (by decide), ?_, readList_close fp⟩
  rw [List.nil_append, readList.dotted, readSkipWhitespace_first (by decide) (by decide)]
  cases fp with
  | nil => rfl
  | cons c fp => exact if_neg fun h => absurd h.1 (by decide)

theorem tailReadsAs_cons {room : ℕ} {head tail : List UInt8} {car cdr : Datum D}
    (hhead : ReadsAs readDouble room head car) (htail : TailReadsAs readDouble room tail cdr) :
    TailReadsAs readDouble room (byte ' ' :: (head ++ tail)) (.cons car cdr) := by
  obtain ⟨first, more, rfl, hblank, hcomment, hclose, hdot, heof, hread⟩ := hhead
  intro fp
  obtain ⟨hdelimited, hdotted, hlist⟩ := htail fp
  have htext : byte ' ' :: (first :: more ++ tail) ++ byte ')' :: fp =
      byte ' ' :: first :: (more ++ (tail ++ byte ')' :: fp)) := by simp
  have hskip : readSkipWhitespace (byte ' ' :: first :: (more ++ (tail ++ byte ')' :: fp))) =
      (some first, more ++ (tail ++ byte ')' :: fp)) := by
    rw [readSkipWhitespace_space, readSkipWhitespace_first hblank hcomment]
  rw [htext]
  refine ⟨delimited_cons (by decide), ?_,
    readList_cons hskip hclose (hread _ hdelimited) heof hdotted ?_ hlist⟩
  · rw [readList.dotted, hskip]
    cases hm : more ++ (tail ++ byte ')' :: fp) with
    | nil => rfl
    | cons next rest =>
      refine if_neg fun ⟨h, hnext⟩ => ?_
      obtain ⟨c, more', rfl⟩ : ∃ c more', more = c :: more' := by
        cases more with
        | nil => exact absurd (hdot h) (by simp)
        | cons c more' => exact ⟨c, more', rfl⟩
      have hc := hdot h
      rw [List.head?_cons, Option.some.injEq] at hc
      rw [List.cons_append, List.cons.injEq] at hm
      rw [← hm.1, hc] at hnext
      exact absurd hnext (by decide)
  · simp only [List.length_cons, List.length_append]
    omega

theorem readsAs_cons {room : ℕ} {head tail : List UInt8} {car cdr : Datum D}
    (hhead : ReadsAs readDouble room head car) (htail : TailReadsAs readDouble room tail cdr) :
    ReadsAs readDouble (room + 1) (byte '(' :: (head ++ tail ++ [byte ')'])) (.cons car cdr) := by
  obtain ⟨first, more, rfl, hblank, hcomment, hclose, hdot, heof, hread⟩ := hhead
  refine ⟨byte '(', _, rfl, by decide, by decide, by decide, fun h => absurd h (by decide), rfl, ?_⟩
  intro fp _
  obtain ⟨hdelimited, hdotted, hlist⟩ := htail fp
  have htext : first :: more ++ tail ++ [byte ')'] ++ fp =
      first :: (more ++ (tail ++ byte ')' :: fp)) := by simp
  rw [readDatum, if_neg (by decide), if_pos rfl, htext]
  refine readList_cons (readSkipWhitespace_first hblank hcomment _) hclose (hread _ hdelimited)
    heof hdotted ?_ hlist
  simp only [List.length_cons, List.length_append]
  omega

theorem readsAs_null (room : ℕ) :
    ReadsAs readDouble (room + 1) (asciiBytes ['(', ')']) (.null : Datum D) := by
  refine ⟨byte '(', [byte ')'], rfl, by decide, by decide, by decide,
    fun h => absurd h (by decide), rfl, fun fp _ => ?_⟩
  rw [readDatum, if_neg (by decide), if_pos rfl]
  exact readList_close fp

theorem IsNumberChar.isBlankByte {c : Char} (h : IsNumberChar c) :
    isBlankByte (byte c) = false := by
  have hne (d : Char) (hd : IsAscii d) (hd' : ¬ (45 ≤ d.toNat ∧ d.toNat ≤ 57)) := h.byte_ne hd hd'
  simp [Reader.isBlankByte, hne ' ' (by decide) (by decide), hne '\t' (by decide) (by decide),
    hne '\n' (by decide) (by decide), hne '\r' (by decide) (by decide)]

theorem readDatum_number (room : ℕ) {c : Char} (hc : IsNumberChar c) (fp : Port) :
    readDatum readDouble (room + 1) (some (byte c)) fp =
      readAtomNumberOrSymbol readDouble (byte c) fp := by
  have hne (d : Char) (hd : IsAscii d) (hd' : ¬ (45 ≤ d.toNat ∧ d.toNat ≤ 57)) :
      byte c ≠ byte d := hc.byte_ne hd hd'
  rw [readDatum, if_neg (hne '\'' (by decide) (by decide)),
    if_neg (hne '(' (by decide) (by decide)), readAtom, if_neg (hne '"' (by decide) (by decide)),
    if_neg (hne '|' (by decide) (by decide)), if_neg (hne '#' (by decide) (by decide))]

theorem readsAs_number (fmt : FloatFormat D) (room : ℕ) {x : Tagged D} (hx : Operand x)
    (hfixed : IsFixedNumber x) :
    ∃ text, displayNumber fmt x = .ok text ∧ ReadsAs readDouble (room + 1) text (.number x) := by
  obtain ⟨c, cs, htext, hc, hread⟩ := displayNumber_read fmt readDouble hx hfixed
  refine ⟨_, htext, byte c, asciiBytes cs, rfl, hc.isBlankByte, hc.byte_ne (by decide) (by decide),
    hc.byte_ne (by decide) (by decide), fun h => absurd h hc.byte_ne_dot, rfl, fun fp hfp => ?_⟩
  rw [readDatum_number room hc, hread fp hfp]

/-- The symbol that the dots of the writer are read as. -/
def dots : Datum D := .symbol (asciiBytes ['.', '.', '.'])

theorem readsAs_dots (room : ℕ) :
    ReadsAs readDouble (room + 1) (asciiBytes ['.', '.', '.']) (dots : Datum D) := by
  refine ⟨byte '.', asciiBytes ['.', '.'], rfl, by decide, by decide, by decide, fun _ => rfl, rfl,
    fun fp hfp => ?_⟩
  have hdot : ∀ c ∈ asciiBytes ['.', '.'], isTokenEnd c = false := by
    intro c hc
    obtain ⟨d, hd, rfl⟩ := List.mem_map.mp hc
    obtain rfl : d = '.' := by simpa using hd
    rfl
  have hrun : readRun isTokenEnd 254 (asciiBytes ['.', '.'] ++ fp) = (asciiBytes ['.', '.'], fp) :=
    readRun_append hdot (by decide) hfp
  rw [readDatum, if_neg (by decide), if_neg (by decide), readAtom, if_neg (by decide),
    if_neg (by decide), if_neg (by decide), readAtomNumberOrSymbol, hrun]
  rfl

end Lists

/-! ### Exact data -/

/-- A list: the empty list or a pair. -/
def IsList : Datum D → Prop
  | .null => True
  | .cons _ _ => True
  | _ => False

/-- Exact numbers and proper lists of exact data. -/
inductive ExactDatum : Datum D → Prop
  | number {x : Tagged D} (h : Operand x) : ExactDatum (.number x)
  | null : ExactDatum .null
  | cons {car cdr : Datum D} (hcar : ExactDatum car) (hcdr : ExactDatum cdr) (hlist : IsList cdr) :
      ExactDatum (.cons car cdr)

/-- How deep a datum is nested in lists. -/
def nesting : Datum D → ℕ
  | .cons car cdr => max (nesting car + 1) (nesting cdr)
  | _ => 0

mutual

/-- A datum with the parts beyond the depth replaced by dots. -/
def truncate (maxDepth : ℕ) : ℕ → Datum D → Datum D
  | depth, .cons car cdr =>
    if maxDepth < depth then dots
    else .cons (truncate maxDepth (depth + 1) car) (truncateTail maxDepth (depth + 1) cdr)
  | depth, x => if maxDepth < depth then dots else x

/-- What follows an element of a list, with the parts beyond the depth replaced by dots. -/
def truncateTail (maxDepth : ℕ) : ℕ → Datum D → Datum D
  | depth, .cons car cdr =>
    .cons (truncate maxDepth depth car) (truncateTail maxDepth depth cdr)
  | _, x => x

end

theorem truncate_of_lt {maxDepth depth : ℕ} (h : maxDepth < depth) (x : Datum D) :
    truncate maxDepth depth x = dots := by
  cases x <;> simp [truncate, h]

theorem displayDatum_of_lt (fmt : FloatFormat D) {maxDepth depth : ℕ} (h : maxDepth < depth)
    (x : Datum D) :
    displayDatum fmt maxDepth false depth x = .ok (asciiBytes ['.', '.', '.']) := by
  cases x <;> simp [displayDatum, behindDot, limited, h]

/-- A displayed datum is read as itself, cut at the depth where the printer stops. -/
theorem displayDatum_readsAs (fmt : FloatFormat D) (readDouble : List Char → D) {maxDepth : ℕ}
    {x : Datum D} (hx : ExactDatum x) (hfixed : Fixed x) :
    (∀ depth room, depth ≤ maxDepth + 1 → maxDepth + 2 ≤ depth + room →
      ∃ text, displayDatum fmt maxDepth false depth x = .ok text ∧
        ReadsAs readDouble room text (truncate maxDepth depth x)) ∧
    (IsList x → ∀ depth room, depth ≤ maxDepth + 1 → maxDepth + 2 ≤ depth + room →
      ∃ text, displayDatum fmt maxDepth true depth x = .ok text ∧
        TailReadsAs readDouble room text (truncateTail maxDepth depth x)) := by
  -- beyond the depth every datum is printed as dots
  have hbeyond (x : Datum D) {depth room : ℕ} (hroom : maxDepth + 2 ≤ depth + room)
      (hle : depth ≤ maxDepth + 1) (hlt : maxDepth < depth) :
      ∃ text, displayDatum fmt maxDepth false depth x = .ok text ∧
        ReadsAs readDouble room text (truncate maxDepth depth x) := by
    obtain ⟨room, rfl⟩ : ∃ n, room = n + 1 := ⟨room - 1, by omega⟩
    exact ⟨_, displayDatum_of_lt fmt hlt x, truncate_of_lt hlt x ▸ readsAs_dots room⟩
  induction hx with
  | @number x h =>
    refine ⟨fun depth room hdepth hroom => ?_, fun hlist => absurd hlist id⟩
    by_cases hlt : maxDepth < depth
    · exact hbeyond _ hroom hdepth hlt
    · obtain ⟨room, rfl⟩ : ∃ n, room = n + 1 := ⟨room - 1, by omega⟩
      obtain ⟨hnumber⟩ : IsFixedNumber x ∧ True := by
        cases hfixed with
        | number h => exact ⟨h, trivial⟩
      obtain ⟨text, htext, hread⟩ := @readsAs_number D readDouble fmt room x h hnumber
      refine ⟨text, ?_, ?_⟩
      · simp only [displayDatum, behindDot, limited, if_neg hlt, Bool.false_eq_true, if_false,
          htext]
      · simpa only [truncate, if_neg hlt] using hread
  | null =>
    refine ⟨fun depth room hdepth hroom => ?_, fun _ depth room _ _ => ?_⟩
    · by_cases hlt : maxDepth < depth
      · exact hbeyond _ hroom hdepth hlt
      · obtain ⟨room, rfl⟩ : ∃ n, room = n + 1 := ⟨room - 1, by omega⟩
        refine ⟨_, by rw [displayDatum, limited, if_neg hlt], ?_⟩
        simpa only [truncate, if_neg hlt] using readsAs_null room
    · exact ⟨[], by rw [displayDatum], by simpa only [truncateTail] using tailReadsAs_nil room⟩
  | @cons car cdr hcar hcdr hlist ihcar ihcdr =>
    obtain ⟨hfcar, hfcdr⟩ : Fixed car ∧ Fixed cdr := by
      cases hfixed with
      | cons hcar hcdr => exact ⟨hcar, hcdr⟩
    have ihcar := (ihcar hfcar).1
    have ihcdr := (ihcdr hfcdr).2 hlist
    constructor
    · intro depth room hdepth hroom
      by_cases hlt : maxDepth < depth
      · exact hbeyond _ hroom hdepth hlt
      · obtain ⟨room, rfl⟩ : ∃ n, room = n + 1 := ⟨room - 1, by omega⟩
        obtain ⟨head, hhead, hread⟩ := ihcar (depth + 1) room (by omega) (by omega)
        obtain ⟨tail, htail, hreads⟩ := ihcdr (depth + 1) room (by omega) (by omega)
        refine ⟨byte '(' :: (head ++ tail ++ [byte ')']), ?_, ?_⟩
        · rw [displayDatum, limited, if_neg hlt, hhead, ok_bind, htail, ok_bind]
        · rw [truncate, if_neg hlt]
          exact readsAs_cons hread hreads
    · intro _ depth room hdepth hroom
      obtain ⟨head, hhead, hread⟩ := ihcar depth room hdepth hroom
      obtain ⟨tail, htail, hreads⟩ := ihcdr depth room hdepth hroom
      refine ⟨byte ' ' :: (head ++ tail), ?_, ?_⟩
      · rw [displayDatum, hhead, ok_bind, htail, ok_bind]
      · rw [truncateTail]
        exact tailReadsAs_cons hread hreads

theorem truncate_eq_self_iff {maxDepth : ℕ} {x : Datum D} (hx : ExactDatum x) :
    (∀ depth, depth ≤ maxDepth + 1 →
      (truncate maxDepth depth x = x ↔ depth + nesting x ≤ maxDepth)) ∧
    (IsList x → ∀ depth, depth ≤ maxDepth + 1 →
      (truncateTail maxDepth depth x = x ↔ depth + nesting x ≤ maxDepth + 1)) := by
  have hdots (x : Datum D) (hx : dots ≠ x) {depth : ℕ} (hlt : maxDepth < depth) :
      truncate maxDepth depth x = x ↔ depth + nesting x ≤ maxDepth := by
    rw [truncate_of_lt hlt]
    exact iff_of_false hx (by omega)
  induction hx with
  | number h =>
    refine ⟨fun depth hdepth => ?_, fun hlist => absurd hlist id⟩
    by_cases hlt : maxDepth < depth
    · exact hdots _ (by simp [dots]) hlt
    · simp only [truncate, if_neg hlt, nesting, true_iff]
      omega
  | null =>
    refine ⟨fun depth hdepth => ?_, fun _ depth hdepth => ?_⟩
    · by_cases hlt : maxDepth < depth
      · exact hdots _ (by simp [dots]) hlt
      · simp only [truncate, if_neg hlt, nesting, true_iff]
        omega
    · simp only [truncateTail, nesting, true_iff]
      omega
  | @cons car cdr hcar hcdr hlist ihcar ihcdr =>
    refine ⟨fun depth hdepth => ?_, fun _ depth hdepth => ?_⟩
    · by_cases hlt : maxDepth < depth
      · exact hdots _ (by simp [dots]) hlt
      · rw [truncate, if_neg hlt, Datum.cons.injEq, ihcar.1 (depth + 1) (by omega),
          ihcdr.2 hlist (depth + 1) (by omega), nesting]
        omega
    · rw [truncateTail, Datum.cons.injEq, ihcar.1 depth hdepth, ihcdr.2 hlist depth hdepth, nesting]
      omega

/-! ### The round trip -/

/-- `read` on the text of `write`: the datum. -/
def readBack (fmt : FloatFormat D) (readDouble : List Char → D) (x : Datum D) :
    Exec Exn (Datum D) := do
  let text ← eshkolWriteValue fmt x
  let (datum, _) ← eshkolReadSexpr readDouble text
  .ok datum

theorem readBack_eq (fmt : FloatFormat D) (readDouble : List Char → D) {x : Datum D}
    (hx : ExactDatum x) (hfixed : Fixed x) :
    readBack fmt readDouble x = .ok (truncate 100 0 x) := by
  have hroom : 100 + 2 ≤ 0 + readMaxDepth := by rw [readMaxDepth]; omega
  obtain ⟨text, htext, first, more, rfl, hblank, hcomment, -, -, -, hread⟩ :=
    (displayDatum_readsAs fmt readDouble hx hfixed).1 0 readMaxDepth (by omega) hroom
  have hread := hread [] delimited_nil
  rw [List.append_nil] at hread
  rw [readBack, eshkolWriteValue, htext, ok_bind, eshkolReadSexpr,
    readSkipWhitespace_first hblank hcomment, hread, ok_bind]

theorem fixed_of_readBack {fmt : FloatFormat D} {readDouble : List Char → D} {x y : Datum D}
    (h : readBack fmt readDouble x = .ok y) : Fixed y := by
  obtain ⟨text, -, h⟩ := bind_eq_ok.mp h
  obtain ⟨⟨datum, rest⟩, hdatum, h⟩ := bind_eq_ok.mp h
  obtain ⟨datum', rest', hdatum', hfixed⟩ := eshkolReadSexpr_returns readDouble text
  rw [hdatum, Except.ok.injEq, Prod.mk.injEq] at hdatum'
  obtain rfl := Except.ok.inj h
  exact hdatum'.1 ▸ hfixed

/-- **Exact data are read back** exactly if no number in them needs a bignum and they are nested at
most a hundred levels deep. -/
theorem readBack_eq_iff (fmt : FloatFormat D) (readDouble : List Char → D) {x : Datum D}
    (hx : ExactDatum x) :
    readBack fmt readDouble x = .ok x ↔ Fixed x ∧ nesting x ≤ 100 := by
  have htruncate := (@truncate_eq_self_iff D 100 x hx).1 0 (by omega)
  constructor
  · intro h
    have hfixed := fixed_of_readBack h
    refine ⟨hfixed, ?_⟩
    rw [readBack_eq fmt readDouble hx hfixed, Except.ok.injEq, htruncate] at h
    omega
  · rintro ⟨hfixed, hdepth⟩
    rw [readBack_eq fmt readDouble hx hfixed, htruncate.mpr (by omega)]

/-- How the unit type is printed. -/
def FloatFormat.unit : FloatFormat Unit := ⟨fun _ => [], []⟩

/-- `(1/2 (-3))` is read back. -/
theorem readBack_eq_iff_sample :
    readBack FloatFormat.unit (fun _ => ())
        (.cons (.number (.rational (.small 1 2))) (.cons (.cons (.number (.int64 (-3))) .null) .null)) =
      .ok (.cons (.number (.rational (.small 1 2)))
        (.cons (.cons (.number (.int64 (-3))) .null) .null)) := by
  have hhalf : Operand (.rational (.small 1 2) : Tagged Unit) := ⟨trivial, by decide⟩
  have hthree : Operand (.int64 (-3) : Tagged Unit) := ⟨trivial, trivial⟩
  refine (readBack_eq_iff FloatFormat.unit (fun _ => ()) ?_).mpr ⟨?_, by decide⟩
  · exact .cons (.number hhalf) (.cons (.cons (.number hthree) .null trivial) .null trivial) trivial
  · exact .cons (.number rfl) (.cons (.cons (.number trivial) .null) .null)

/-- The number `2 ^ 63` is read back as `2 ^ 63 - 1`. -/
theorem readBack_clamps :
    ∃ x : Datum Unit, x = .number (.bignum ⟨false, [0x8000000000000000], by simp⟩) ∧ ExactDatum x ∧
      nesting x < 4096 ∧
      readBack FloatFormat.unit (fun _ => ()) x = .ok (.number (.int64 Int64.maxValue)) ∧
      readBack FloatFormat.unit (fun _ => ()) x ≠ .ok x := by
  have hx : ExactDatum (.number (.bignum ⟨false, [0x8000000000000000], by simp⟩) : Datum Unit) :=
    .number ⟨trivial, by decide⟩
  have hread : readBack FloatFormat.unit (fun _ => ())
      (.number (.bignum ⟨false, [0x8000000000000000], by simp⟩) : Datum Unit) =
        .ok (.number (.int64 Int64.maxValue)) := by
    have hdisplay : eshkolBignumDisplay ⟨false, [0x8000000000000000], by simp⟩ =
        .ok (intText (2 ^ 63)) := by
      rw [eshkolBignumDisplay, if_neg (by decide), bignumDisplayDigits, if_pos (by decide), intText,
        if_neg (by decide)]
      rfl
    obtain ⟨c, cs, hcs⟩ := List.exists_cons_of_ne_nil (intText_ne_nil (2 ^ 63))
    have hc : IsNumberChar c := isNumberChar_of_mem_intText (hcs ▸ List.mem_cons_self)
    have hlen : cs.length ≤ 254 := by
      have hlength : (intText (2 ^ 63)).length ≤ 19 := by
        rw [intText, if_neg (by decide)]
        exact length_natText (by decide)
      rw [hcs, List.length_cons] at hlength
      omega
    have hatom := @readAtomNumberOrSymbol_intText Unit (fun _ => ()) (2 ^ 63) c cs [] hcs hlen
      delimited_nil
    rw [List.append_nil] at hatom
    have hwrite : eshkolWriteValue FloatFormat.unit
        (.number (.bignum ⟨false, [0x8000000000000000], by simp⟩)) =
          .ok (byte c :: asciiBytes cs) := by
      simp only [eshkolWriteValue, displayDatum, behindDot, limited, displayNumber, hdisplay, hcs]
      rfl
    rw [readBack, hwrite, ok_bind, eshkolReadSexpr, readSkipWhitespace_first hc.isBlankByte
      (hc.byte_ne (by decide) (by decide)), readMaxDepth, readDatum_number 4095 hc, hatom]
    rfl
  refine ⟨_, rfl, hx, by decide, hread, ?_⟩
  rw [hread]
  intro h
  cases h

end Eshkol.Reader
