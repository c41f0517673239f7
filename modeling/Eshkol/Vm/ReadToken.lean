import Eshkol.Native.ReadBack
import Eshkol.Vm.Reader

/-!
# Reading Back Tokens

`read` of the bytecode VM on the text that `write` prints for a string, a symbol, a number or a
character. Every string and every symbol is read back. A character that `write` prints as it is
comes back only if it is one byte and no delimiter, since the reader looks at the first byte of a
token; and a rational with a bignum part is printed as the placeholders `0/1`.
-/

namespace Eshkol.Vm.Reader

open Machine

variable {D : Type}

theorem vmReaderDecodeEscape_letter {x out : UInt8} (hhex : ¬ (x = byte 'x' ∨ x = byte 'X'))
    (hu : x ≠ byte 'u') (hoctal : isOctal x = false) (hblank : isIntraline x = false)
    (hreturn : x ≠ byte '\r') (hout : letterEscape x = some out) (port : Port) :
    vmReaderDecodeEscape (x :: port) = .ok ([out], port) := by
  have hbytes : escapeBytes (x :: port) = ([x], port) := by
    rw [escapeBytes, if_neg hhex, if_neg hu, hoctal, if_neg Bool.false_ne_true, hblank,
      if_neg Bool.false_ne_true, if_neg hreturn]
  simp only [vmReaderDecodeEscape, hbytes, eshkolDecodeStringEscape, hout]

theorem vmReaderString_element (c : UInt8) (port : Port) {bytes : List UInt8}
    (h : bytes.length < vmReaderMaxToken) :
    (vmReaderString (stringElement c ++ port) bytes : Read (Datum D × Port)) =
      vmReaderString port (bytes ++ [c]) := by
  have hescape {x : UInt8} (hx : vmReaderDecodeEscape (x :: port) = .ok ([c], port)) :
      (vmReaderString (byte '\\' :: x :: port) bytes : Read (Datum D × Port)) =
        vmReaderString port (bytes ++ [c]) := by
    rw [vmReaderString, if_neg (by decide), if_pos rfl, hx, ok_bind]
    simp only [List.length_cons, List.length_nil]
    rw [if_neg (by omega), if_pos (by omega)]
  rw [stringElement]
  split_ifs with h₁ h₂ h₃ h₄ h₅
  · exact hescape (vmReaderDecodeEscape_letter (by decide) (by decide) (by decide) (by decide)
      (by decide) (by rw [h₁]; rfl) port)
  · exact hescape (vmReaderDecodeEscape_letter (by decide) (by decide) (by decide) (by decide)
      (by decide) (by rw [h₂]; rfl) port)
  · exact hescape (vmReaderDecodeEscape_letter (by decide) (by decide) (by decide) (by decide)
      (by decide) (by rw [h₃]; rfl) port)
  · exact hescape (vmReaderDecodeEscape_letter (by decide) (by decide) (by decide) (by decide)
      (by decide) (by rw [h₄]; rfl) port)
  · exact hescape (vmReaderDecodeEscape_letter (by decide) (by decide) (by decide) (by decide)
      (by decide) (by rw [h₅]; rfl) port)
  · rw [List.singleton_append, vmReaderString, if_neg h₁, if_neg h₂, if_neg (by omega)]

theorem vmReaderString_stringText {bytes acc : List UInt8}
    (h : acc.length + bytes.length ≤ vmReaderMaxToken) (port : Port) :
    (vmReaderString (bytes.flatMap stringElement ++ byte '"' :: port) acc : Read (Datum D × Port)) =
      .ok (.string (acc ++ bytes), port) := by
  induction bytes generalizing acc with
  | nil =>
    rw [List.flatMap_nil, List.nil_append, vmReaderString, if_pos rfl, List.append_nil]
  | cons c bytes ih =>
    rw [List.length_cons] at h
    rw [List.flatMap_cons, List.append_assoc, vmReaderString_element c _ (by omega), ih,
      List.append_assoc, List.singleton_append]
    rw [List.length_append, List.length_singleton]
    omega

/-! ### Symbols between vertical lines -/

theorem hexDigit_lowerHexDigit {d : ℕ} (h : d < 16) : hexDigit (lowerHexDigit d) = some d := by
  revert d
  decide

theorem symbolHexEscape_byte {c : UInt8} (hc : c.toNat < 0x80) (port : Port) :
    symbolHexEscape (lowerHexDigit (c.toNat / 16) :: lowerHexDigit (c.toNat % 16) :: byte ';' :: port) =
      (some [c], port) := by
  have hhi := hexDigit_lowerHexDigit (d := c.toNat / 16) (by omega)
  have hlo := hexDigit_lowerHexDigit (d := c.toNat % 16) (by omega)
  have hend : (hexDigit (byte ';')).isSome = false := rfl
  have hvalue : hexValue [lowerHexDigit (c.toNat / 16), lowerHexDigit (c.toNat % 16)] = c.toNat := by
    simp only [hexValue, List.foldl_cons, List.foldl_nil, hhi, hlo, Option.getD_some]
    omega
  have hencode : eshkolSymbolUtf8Encode c.toNat = some [c] := by
    rw [eshkolSymbolUtf8Encode, if_pos (by omega), utf8Bytes, if_pos hc, UInt8.ofNat_toNat]
  simp only [symbolHexEscape, List.take_succ_cons, List.takeWhile_cons, hhi, hlo, hend,
    Option.isSome_some, if_true, Bool.false_eq_true, if_false, List.length_cons, List.length_nil,
    List.drop_succ_cons, List.drop_zero, hvalue, hencode]
  simp

theorem toNat_lt_of_needsEscape {c : UInt8} (h : eshkolSymbolElementNeedsEscape c = true) :
    c.toNat < 0x80 := by
  rcases of_decide_eq_true h with rfl | rfl | hlt | rfl
  · decide
  · decide
  · exact (UInt8.lt_iff_toNat_lt.mp hlt).trans (by decide)
  · decide

theorem vmReaderVerticalLineSymbol_element (c : UInt8) (port : Port) {bytes : List UInt8}
    (h : bytes.length < vmReaderMaxToken) :
    (vmReaderVerticalLineSymbol (symbolElement c ++ port) bytes : Read (Datum D × Port)) =
      vmReaderVerticalLineSymbol port (bytes ++ [c]) := by
  have hescape {s : Port} (hs : symbolEscape s = (some [c], port)) :
      (vmReaderVerticalLineSymbol (byte '\\' :: s) bytes : Read (Datum D × Port)) =
        vmReaderVerticalLineSymbol port (bytes ++ [c]) := by
    rw [vmReaderVerticalLineSymbol, if_neg (by decide), if_pos rfl]
    simp only [hs, List.length_cons, List.length_nil]
    rw [if_neg (by omega)]
  rw [symbolElement]
  split_ifs with hbar hneeds
  · exact hescape (by rw [hbar]; rfl)
  · split
    next letter hletter =>
        refine hescape ?_
        rw [eshkolSymbolMnemonicEscape] at hletter
        split_ifs at hletter with h₁ h₂ h₃ h₄ h₅ <;> obtain rfl := Option.some.inj hletter
        · rw [h₁]; rfl
        · rw [h₂]; rfl
        · rw [h₃]; rfl
        · rw [h₄]; rfl
        · rw [h₅]; rfl
    next hnone =>
        refine hescape ?_
        change symbolEscape (byte 'x' :: _) = _
        rw [symbolEscape, if_pos (.inl rfl)]
        exact symbolHexEscape_byte (toNat_lt_of_needsEscape hneeds) port
  · have hslash : c ≠ byte '\\' := by
      rintro rfl
      exact hneeds rfl
    rw [List.singleton_append, vmReaderVerticalLineSymbol, if_neg hbar, if_neg hslash,
      if_neg (by omega)]

theorem vmReaderVerticalLineSymbol_body {name acc : List UInt8}
    (h : acc.length + name.length ≤ vmReaderMaxToken) (port : Port) :
    (vmReaderVerticalLineSymbol (eshkolSymbolEscapeBody name ++ byte '|' :: port) acc :
      Read (Datum D × Port)) = .ok (.symbol (acc ++ name), port) := by
  rw [eshkolSymbolEscapeBody]
  induction name generalizing acc with
  | nil =>
    rw [List.flatMap_nil, List.nil_append, vmReaderVerticalLineSymbol, if_pos rfl, List.append_nil]
  | cons c name ih =>
    rw [List.length_cons] at h
    rw [List.flatMap_cons, List.append_assoc, vmReaderVerticalLineSymbol_element c _ (by omega),
      ih, List.append_assoc, List.singleton_append]
    rw [List.length_append, List.length_singleton]
    omega

/-! ### Bare symbols -/

theorem isDelimiter_iff (c : UInt8) :
    isDelimiter c = true ↔ c.toNat = 32 ∨ (9 ≤ c.toNat ∧ c.toNat ≤ 13) ∨ c.toNat = 40 ∨
      c.toNat = 41 ∨ c.toNat = 34 ∨ c.toNat = 59 ∨ c.toNat = 39 ∨ c.toNat = 96 ∨ c.toNat = 44 := by
  rw [isDelimiter, isSpaceByte, decide_eq_true_iff, decide_eq_true_iff, or_assoc]
  simp only [List.mem_cons, List.not_mem_nil, or_false, ← UInt8.toNat_inj, UInt8.le_iff_toNat_le]
  rfl

theorem eshkolSymbolIsInitial_iff (c : UInt8) :
    eshkolSymbolIsInitial c = true ↔ (97 ≤ c.toNat ∧ c.toNat ≤ 122) ∨
      (65 ≤ c.toNat ∧ c.toNat ≤ 90) ∨ 128 ≤ c.toNat ∨ c.toNat = 33 ∨ c.toNat = 36 ∨ c.toNat = 37 ∨
      c.toNat = 38 ∨ c.toNat = 42 ∨ c.toNat = 47 ∨ c.toNat = 60 ∨ c.toNat = 61 ∨ c.toNat = 62 ∨
      c.toNat = 63 ∨ c.toNat = 94 ∨ c.toNat = 95 ∨ c.toNat = 126 := by
  have hspecial : asciiBytes "!$%&*/<=>?^_~".toList =
      [33, 36, 37, 38, 42, 47, 60, 61, 62, 63, 94, 95, 126] := rfl
  rw [eshkolSymbolIsInitial, eshkolSymbolIsLetter, eshkolSymbolIsSpecialInitial, hspecial,
    decide_eq_true_iff, decide_eq_true_iff, decide_eq_true_iff, or_assoc, or_assoc]
  simp only [List.mem_cons, List.not_mem_nil, or_false, ← UInt8.toNat_inj, UInt8.le_iff_toNat_le]
  rfl

theorem eshkolSymbolIsSubsequent_iff (c : UInt8) :
    eshkolSymbolIsSubsequent c = true ↔ eshkolSymbolIsInitial c = true ∨
      (48 ≤ c.toNat ∧ c.toNat ≤ 57) ∨ c.toNat = 43 ∨ c.toNat = 45 ∨ c.toNat = 46 ∨ c.toNat = 64 := by
  have hmarks : asciiBytes "+-.@".toList = [43, 45, 46, 64] := rfl
  rw [eshkolSymbolIsSubsequent, eshkolSymbolIsDigit, hmarks, decide_eq_true_iff, decide_eq_true_iff]
  simp only [List.mem_cons, List.not_mem_nil, or_false, ← UInt8.toNat_inj, UInt8.le_iff_toNat_le]
  rfl

theorem eshkolSymbolIsSignSubsequent_iff (c : UInt8) :
    eshkolSymbolIsSignSubsequent c = true ↔ eshkolSymbolIsInitial c = true ∨ c.toNat = 43 ∨
      c.toNat = 45 ∨ c.toNat = 64 := by
  have hmarks : asciiBytes "+-@".toList = [43, 45, 64] := rfl
  rw [eshkolSymbolIsSignSubsequent, hmarks, decide_eq_true_iff]
  simp only [List.mem_cons, List.not_mem_nil, or_false, ← UInt8.toNat_inj]
  rfl

theorem eshkolSymbolIsDotSubsequent_iff (c : UInt8) :
    eshkolSymbolIsDotSubsequent c = true ↔ eshkolSymbolIsSignSubsequent c = true ∨ c.toNat = 46 := by
  rw [eshkolSymbolIsDotSubsequent, decide_eq_true_iff, ← UInt8.toNat_inj]
  rfl

theorem not_digit_of_dotSubsequent {c : UInt8} (h : eshkolSymbolIsDotSubsequent c = true) :
    ¬ (48 ≤ c.toNat ∧ c.toNat ≤ 57) := by
  rw [eshkolSymbolIsDotSubsequent_iff, eshkolSymbolIsSignSubsequent_iff,
    eshkolSymbolIsInitial_iff] at h
  omega

theorem subsequent_of_dotSubsequent {c : UInt8} (h : eshkolSymbolIsDotSubsequent c = true) :
    eshkolSymbolIsSubsequent c = true := by
  rw [eshkolSymbolIsDotSubsequent_iff, eshkolSymbolIsSignSubsequent_iff] at h
  rw [eshkolSymbolIsSubsequent_iff]
  tauto

theorem dotSubsequent_of_signSubsequent {c : UInt8} (h : eshkolSymbolIsSignSubsequent c = true) :
    eshkolSymbolIsDotSubsequent c = true :=
  (eshkolSymbolIsDotSubsequent_iff c).mpr (.inl h)

/-- How an identifier starts: not like a number. -/
structure IdentifierStart (c : UInt8) (cs : List UInt8) : Prop where
  initial : eshkolSymbolIsInitial c = true ∨ c.toNat = 43 ∨ c.toNat = 45 ∨ c.toNat = 46
  sign : c.toNat = 43 ∨ c.toNat = 45 → ∀ d ∈ cs.head?, eshkolSymbolIsDotSubsequent d = true
  sign_dot : c.toNat = 43 ∨ c.toNat = 45 → ∀ d ds, cs = d :: ds → d.toNat = 46 →
    ∀ e ∈ ds.head?, eshkolSymbolIsDotSubsequent e = true
  dot : c.toNat = 46 → ∃ d ds, cs = d :: ds ∧ eshkolSymbolIsDotSubsequent d = true

theorem isSignTail_spec {cs : List UInt8} (h : isSignTail cs = true) :
    (∀ b ∈ cs, eshkolSymbolIsSubsequent b = true) ∧
      (∀ d ∈ cs.head?, eshkolSymbolIsDotSubsequent d = true) ∧
      ∀ d ds, cs = d :: ds → d.toNat = 46 → ∀ e ∈ ds.head?, eshkolSymbolIsDotSubsequent e = true := by
  unfold isSignTail at h
  split at h
  next => simp
  next c =>
      have hdot := dotSubsequent_of_signSubsequent h
      refine ⟨?_, ?_, ?_⟩
      · simpa using subsequent_of_dotSubsequent hdot
      · simpa using hdot
      · rintro d ds heq -
        obtain ⟨rfl, rfl⟩ := List.cons_eq_cons.mp heq
        simp
  next c d cs =>
      split at h
      next hc =>
          obtain ⟨hd, hcs⟩ := Bool.and_eq_true_iff.mp h
          have hc' : eshkolSymbolIsDotSubsequent c = true :=
            (eshkolSymbolIsDotSubsequent_iff c).mpr (.inr (hc ▸ rfl))
          refine ⟨?_, ?_, ?_⟩
          · simpa using ⟨subsequent_of_dotSubsequent hc', subsequent_of_dotSubsequent hd,
              List.all_eq_true.mp hcs⟩
          · simpa using hc'
          · rintro d' ds heq -
            obtain ⟨rfl, rfl⟩ := List.cons_eq_cons.mp heq
            simpa using hd
      next hc =>
          obtain ⟨hc', hcs⟩ := Bool.and_eq_true_iff.mp h
          have hdot := dotSubsequent_of_signSubsequent hc'
          refine ⟨?_, by simpa using hdot, ?_⟩
          · intro b hb
            rcases List.mem_cons.mp hb with rfl | hb
            · exact subsequent_of_dotSubsequent hdot
            · exact List.all_eq_true.mp hcs b hb
          · rintro d' ds heq hd'
            obtain ⟨rfl, rfl⟩ := List.cons_eq_cons.mp heq
            exact absurd (UInt8.toNat_inj.mp hd') hc

theorem isPlainIdentifier_spec {name : List UInt8} (h : isPlainIdentifier name = true) :
    ∃ c cs, name = c :: cs ∧ IdentifierStart c cs ∧
      ∀ b ∈ cs, eshkolSymbolIsSubsequent b = true := by
  unfold isPlainIdentifier at h
  split at h
  next => simp at h
  next c cs =>
      refine ⟨c, cs, rfl, ?_⟩
      split_ifs at h with hinitial hsign hdot
      · have hne := (eshkolSymbolIsInitial_iff c).mp hinitial
        exact ⟨⟨.inl hinitial, by omega, by omega, by omega⟩, List.all_eq_true.mp h⟩
      · obtain ⟨hall, hhead, hpoint⟩ := isSignTail_spec h
        have hc : c.toNat = 43 ∨ c.toNat = 45 := hsign.imp (congrArg UInt8.toNat) (congrArg UInt8.toNat)
        exact ⟨⟨by omega, fun _ => hhead, fun _ => hpoint, by omega⟩, hall⟩
      · have hc : c.toNat = 46 := congrArg UInt8.toNat hdot
        unfold isDotTail at h
        split at h
        next => simp at h
        next d ds =>
            obtain ⟨hd, hds⟩ := Bool.and_eq_true_iff.mp h
            refine ⟨⟨by omega, by omega, by omega, fun _ => ⟨d, ds, rfl, hd⟩⟩, ?_⟩
            intro b hb
            rcases List.mem_cons.mp hb with rfl | hb
            · exact subsequent_of_dotSubsequent hd
            · exact List.all_eq_true.mp hds b hb

/-- The character of a byte. -/
def latin (b : UInt8) : Char := Char.ofNat b.toNat

theorem toNat_latin (b : UInt8) : (latin b).toNat = b.toNat := by
  have hlt := b.toNat_lt
  have hvalid : b.toNat.isValidChar := .inl (by omega)
  rw [latin, Char.ofNat, dif_pos hvalid]
  rfl

theorem isDigit_latin (b : UInt8) : (latin b).isDigit = true ↔ 48 ≤ b.toNat ∧ b.toNat ≤ 57 := by
  rw [Char.isDigit_iff_toNat, toNat_latin]
  rfl

theorem isDigit_latin_of_dotSubsequent {b : UInt8} (h : eshkolSymbolIsDotSubsequent b = true) :
    (latin b).isDigit = false := by
  rw [Bool.eq_false_iff, ne_eq, isDigit_latin]
  exact not_digit_of_dotSubsequent h

theorem latin_eq_iff (b : UInt8) (c : Char) : latin b = c ↔ b.toNat = c.toNat := by
  rw [← toNat_latin]
  exact ⟨congrArg Char.toNat, fun h => Char.toNat_inj.mp h⟩

theorem isSpace_latin (b : UInt8) (h : b.toNat ≠ 32 ∧ ¬ (9 ≤ b.toNat ∧ b.toNat ≤ 13)) :
    isSpace (latin b) = false := by
  rw [isSpace, decide_eq_false_iff_not, latin_eq_iff, toNat_latin]
  exact fun hs => hs.elim h.1 h.2

theorem splitSign_cons {c : Char} (hminus : c ≠ '-') (hplus : c ≠ '+') (cs : List Char) :
    splitSign (c :: cs) = (false, c :: cs) := by
  unfold splitSign
  split
  next heq => exact absurd (List.cons_eq_cons.mp heq).1 hminus
  next heq => exact absurd (List.cons_eq_cons.mp heq).1 hplus
  next => rfl

/-- What begins an identifier is not read as a number. -/
theorem IdentifierStart.notNumeric {c : UInt8} {cs : List UInt8} (h : IdentifierStart c cs) :
    NotNumeric ((c :: cs).map latin) := by
  have hinitial := h.initial
  rw [eshkolSymbolIsInitial_iff] at hinitial
  have hspace : ∀ d ∈ ((c :: cs).map latin).head?, isSpace d = false := by
    intro d hd
    obtain rfl : latin c = d := by simpa using hd
    exact isSpace_latin c (by omega)
  have hhead (ds : List UInt8) (hds : ∀ d ∈ ds.head?, eshkolSymbolIsDotSubsequent d = true) :
      ∀ d ∈ (ds.map latin).head?, d.isDigit = false := by
    intro d hd
    rw [List.head?_map, Option.mem_map] at hd
    obtain ⟨b, hb, rfl⟩ := hd
    exact isDigit_latin_of_dotSubsequent (hds b hb)
  by_cases hsign : c.toNat = 43 ∨ c.toNat = 45
  · have hsplit : (splitSign ((c :: cs).map latin)).2 = cs.map latin := by
      rcases hsign with hc | hc
      · rw [List.map_cons, (latin_eq_iff c '+').mpr hc]
        rfl
      · rw [List.map_cons, (latin_eq_iff c '-').mpr hc]
        rfl
    refine ⟨hspace, ?_, ?_⟩
    · rw [hsplit]
      exact hhead cs (h.sign hsign)
    · intro frac hfrac
      rw [hsplit, List.map_eq_cons_iff] at hfrac
      obtain ⟨d, ds, rfl, hd, rfl⟩ := hfrac
      exact hhead ds (h.sign_dot hsign d ds rfl ((latin_eq_iff d '.').mp hd))
  · have hsplit : (splitSign ((c :: cs).map latin)).2 = latin c :: cs.map latin := by
      rw [List.map_cons, splitSign_cons]
      · rw [ne_eq, latin_eq_iff]
        exact fun hc => hsign (.inr hc)
      · rw [ne_eq, latin_eq_iff]
        exact fun hc => hsign (.inl hc)
    refine ⟨hspace, ?_, ?_⟩
    · rw [hsplit]
      intro d hd
      obtain rfl : latin c = d := by simpa using hd
      rw [Bool.eq_false_iff, ne_eq, isDigit_latin]
      omega
    · intro frac hfrac
      rw [hsplit, List.cons_eq_cons] at hfrac
      obtain ⟨hc, rfl⟩ := hfrac
      obtain ⟨d, ds, rfl, hd⟩ := h.dot ((latin_eq_iff c '.').mp hc)
      exact hhead _ (by simpa using hd)

/-- A name that is printed without vertical lines. -/
structure BareName (name : List UInt8) : Prop where
  notNumeric : NotNumeric (name.map latin)
  bytes : ∀ b ∈ name, eshkolSymbolIsSubsequent b = true ∨ b.toNat = 58
  head : ∃ c cs, name = c :: cs ∧
    (eshkolSymbolIsInitial c = true ∨ c.toNat = 43 ∨ c.toNat = 45 ∨ c.toNat = 46 ∨ c.toNat = 58)
  dot : ∀ c cs, name = c :: cs → c.toNat = 46 → cs ≠ []

theorem bareName_of_identifier {c : UInt8} {cs : List UInt8} (hstart : IdentifierStart c cs)
    (hcs : ∀ b ∈ cs, eshkolSymbolIsSubsequent b = true) : BareName (c :: cs) := by
  have hinitial := hstart.initial
  refine ⟨hstart.notNumeric, ?_, ⟨c, cs, rfl, by tauto⟩, ?_⟩
  · intro b hb
    rcases List.mem_cons.mp hb with rfl | hb
    · rw [eshkolSymbolIsSubsequent_iff]
      tauto
    · exact .inl (hcs b hb)
  · intro c' cs' heq hc'
    obtain ⟨rfl, rfl⟩ := List.cons_eq_cons.mp heq
    obtain ⟨d, ds, rfl, -⟩ := hstart.dot hc'
    exact List.cons_ne_nil d ds

theorem bareName_colon {c : UInt8} (hc : c.toNat = 58) {cs : List UInt8} (hcs : BareName cs) :
    BareName (c :: cs) := by
  have hne (d : Char) (hd : d.toNat ≠ 58) : latin c ≠ d := by
    rw [ne_eq, latin_eq_iff, hc]
    exact fun h => hd h.symm
  have hsplit : (splitSign ((c :: cs).map latin)).2 = latin c :: cs.map latin := by
    rw [List.map_cons, splitSign_cons (hne '-' (by decide)) (hne '+' (by decide))]
  refine ⟨⟨?_, ?_, ?_⟩, ?_, ⟨c, cs, rfl, by omega⟩, ?_⟩
  · intro d hd
    obtain rfl : latin c = d := by simpa using hd
    exact isSpace_latin c (by omega)
  · rw [hsplit]
    intro d hd
    obtain rfl : latin c = d := by simpa using hd
    rw [Bool.eq_false_iff, ne_eq, isDigit_latin]
    omega
  · rw [hsplit]
    intro frac hfrac
    exact absurd (List.cons_eq_cons.mp hfrac).1 (hne '.' (by decide))
  · intro b hb
    rcases List.mem_cons.mp hb with rfl | hb
    · exact .inr hc
    · exact hcs.bytes b hb
  · intro c' cs' heq hc'
    obtain ⟨rfl, rfl⟩ := List.cons_eq_cons.mp heq
    omega

theorem bareName_of_needsBars {name : List UInt8} (h : eshkolSymbolNeedsBars name = false) :
    BareName name := by
  rw [eshkolSymbolNeedsBars, Bool.or_eq_false_iff, Bool.not_eq_false'] at h
  have hplain {s : List UInt8} (hs : isPlainIdentifier s = true) : BareName s := by
    obtain ⟨c, cs, rfl, hstart, hcs⟩ := isPlainIdentifier_spec hs
    exact bareName_of_identifier hstart hcs
  have hname := h.2
  unfold withoutColon at hname
  split at hname
  next c cs =>
      split at hname
      next hc => exact bareName_colon (congrArg UInt8.toNat hc) (hplain hname)
      next => exact hplain hname
  next => exact hplain hname

theorem tokenDatum_of_head (readDouble : List Char → Option D) {token : List UInt8}
    (hzero : token.takeWhile (· ≠ 0) = token) (hhash : token.head? ≠ some (byte '#')) :
    tokenDatum readDouble token = numberOrSymbol readDouble token := by
  have hne {s : List UInt8} (hs : s.head? = some (byte '#')) : token ≠ s := by
    rintro rfl
    exact hhash hs
  have htake : token.take 2 ≠ [byte '#', byte '\\'] := by
    intro heq
    have hhead : (token.take 2).head? = token.head? := by
      cases token with
      | nil => rfl
      | cons c cs => rfl
    rw [heq] at hhead
    exact hhash hhead.symm
  rw [tokenDatum]
  simp only [hzero]
  rw [if_neg (not_or.mpr ⟨hne rfl, hne rfl⟩), if_neg (not_or.mpr ⟨hne rfl, hne rfl⟩), if_neg htake]

namespace BareName

variable {name : List UInt8} (h : BareName name)
include h

theorem toNat_of_mem {b : UInt8} (hb : b ∈ name) :
    33 ≤ b.toNat ∧ b.toNat ≠ 34 ∧ b.toNat ≠ 35 ∧ ¬ (39 ≤ b.toNat ∧ b.toNat ≤ 41) ∧ b.toNat ≠ 44 ∧
      b.toNat ≠ 59 ∧ b.toNat ≠ 96 ∧ b.toNat ≠ 124 := by
  have hbyte := h.bytes b hb
  rw [eshkolSymbolIsSubsequent_iff, eshkolSymbolIsInitial_iff] at hbyte
  omega

theorem isDelimiter_of_mem {b : UInt8} (hb : b ∈ name) : isDelimiter b = false := by
  have hbyte := h.toNat_of_mem hb
  rw [Bool.eq_false_iff, ne_eq, isDelimiter_iff]
  omega

theorem takeWhile_ne_zero : name.takeWhile (· ≠ 0) = name := by
  rw [List.takeWhile_eq_self_iff]
  intro b hb
  have hbyte := h.toNat_of_mem hb
  refine decide_eq_true ?_
  rintro rfl
  exact absurd hbyte.1 (by decide)

theorem ne_nil : name ≠ [] := by
  obtain ⟨c, cs, rfl, -⟩ := h.head
  exact List.cons_ne_nil c cs

theorem fractionParts_eq_none : fractionParts (name.map latin) = none := by
  have happend : NotNumeric ((name.map latin).takeWhile (· ≠ '/') ++
      (name.map latin).dropWhile (· ≠ '/')) := by
    rw [List.takeWhile_append_dropWhile]
    exact h.notNumeric
  rw [fractionParts]
  split
  next hslash =>
      simp only [happend.of_append.strtoll]
      exact if_neg fun hparts => hslash.2.1 hparts.1.2
  next => rfl

theorem numberOrSymbol (readDouble : List Char → Option D) :
    numberOrSymbol readDouble name = .ok (.symbol name) := by
  have htext : cString name = name.map latin := by
    rw [cString, h.takeWhile_ne_zero]
    rfl
  have hne : name.map latin ≠ [] := by simpa using h.ne_nil
  have hparen : '(' ∉ name.map latin := by
    intro hmem
    obtain ⟨b, hb, hlatin⟩ := List.mem_map.mp hmem
    have hbyte := h.toNat_of_mem hb
    rw [latin_eq_iff] at hlatin
    exact hbyte.2.2.2.1 (by rw [hlatin]; decide)
  have hdouble : ¬ (strtodEnd (name.map latin) = [] ∧ name.map latin ≠ [] ∧
      ('.' ∈ name.map latin ∨ 'e' ∈ name.map latin ∨ 'E' ∈ name.map latin)) := by
    rintro ⟨hend, -, hmem⟩
    have hnot {c : Char} (hsign : c ≠ '+' ∧ c ≠ '-')
        (hc : c.toLower ∉ ['i', 'n', 'f', 't', 'y', 'a']) : c ∉ name.map latin :=
      h.notNumeric.not_mem_of_strtodEnd hne hparen hend hsign hc
    rcases hmem with hmem | hmem | hmem
    · exact hnot (by decide) (by decide) hmem
    · exact hnot (by decide) (by decide) hmem
    · exact hnot (by decide) (by decide) hmem
  simp only [Reader.numberOrSymbol, htext, h.notNumeric.strtoll, h.fractionParts_eq_none]
  rw [if_neg (fun hrest => hne hrest.1), if_neg (by simp), if_neg hdouble]

theorem tokenDatum (readDouble : List Char → Option D) :
    tokenDatum readDouble name = .ok (.symbol name) := by
  have hhash : name.head? ≠ some (byte '#') := by
    obtain ⟨c, cs, rfl, -⟩ := h.head
    have hbyte := h.toNat_of_mem List.mem_cons_self
    intro heq
    obtain rfl := Option.some.inj heq
    exact hbyte.2.2.1 rfl
  rw [tokenDatum_of_head readDouble h.takeWhile_ne_zero hhash, h.numberOrSymbol]

end BareName

theorem vmReaderToken_run (readDouble : List Char → Option D) (first : UInt8) {run fp : Port}
    (hrun : ∀ c ∈ run, isDelimiter c = false) (hfp : vmReaderDelimiter fp = true)
    (hlen : run.length < vmReaderMaxToken) :
    vmReaderToken readDouble first (run ++ fp) =
      tokenDatum readDouble (first :: run) >>= fun datum => .ok (datum, fp) := by
  have hrun' : ∀ c ∈ run, (!isDelimiter c) = true := fun c hc => by rw [hrun c hc]; rfl
  have htake : (run ++ fp).takeWhile (fun c => !isDelimiter c) = run := by
    rw [List.takeWhile_append_of_pos hrun']
    cases fp with
    | nil => simp
    | cons c fp =>
      have hc : isDelimiter c = true := by simpa [vmReaderDelimiter] using hfp
      simp [hc]
  have hdrop : (run ++ fp).dropWhile (fun c => !isDelimiter c) = fp := by
    rw [List.dropWhile_append_of_pos hrun']
    cases fp with
    | nil => simp
    | cons c fp =>
      have hc : isDelimiter c = true := by simpa [vmReaderDelimiter] using hfp
      simp [hc]
  rw [vmReaderToken]
  simp only [htake, hdrop]
  rw [if_neg (by omega)]

theorem vmReaderToken_bare (readDouble : List Char → Option D) {c : UInt8} {cs fp : List UInt8}
    (h : BareName (c :: cs)) (hlen : (c :: cs).length ≤ vmReaderMaxToken)
    (hfp : vmReaderDelimiter fp = true) :
    vmReaderToken readDouble c (cs ++ fp) = .ok (.symbol (c :: cs), fp) := by
  rw [vmReaderToken_run readDouble c (fun b hb => h.isDelimiter_of_mem (List.mem_cons_of_mem c hb))
    hfp hlen, h.tokenDatum, ok_bind]

/-! ### Numbers -/

section Numbers

open Eshkol.Reader

variable (readDouble : List Char → Option D)

theorem vmReaderToken_number {c : Char} {cs : List Char} {fp : Port}
    (hcs : ∀ d ∈ c :: cs, IsNumberChar d) (hlen : (c :: cs).length ≤ vmReaderMaxToken)
    (hfp : vmReaderDelimiter fp = true) :
    vmReaderToken readDouble (byte c) (asciiBytes cs ++ fp) =
      numberOrSymbol readDouble (asciiBytes (c :: cs)) >>= fun datum => .ok (datum, fp) := by
  have hrun : ∀ b ∈ asciiBytes cs, isDelimiter b = false := by
    intro b hb
    obtain ⟨d, hd, rfl⟩ := List.mem_map.mp hb
    have hd' := hcs d (List.mem_cons_of_mem c hd)
    have hrange := hd'.toNat
    rw [Bool.eq_false_iff, ne_eq, isDelimiter_iff, toNat_byte hd'.isAscii]
    omega
  have hhash : (byte c :: asciiBytes cs).head? ≠ some (byte '#') := fun heq =>
    (hcs c List.mem_cons_self).byte_ne (by decide) (by decide) (Option.some.inj heq)
  rw [vmReaderToken_run readDouble (byte c) hrun hfp (by simpa [asciiBytes] using hlen),
    tokenDatum_of_head readDouble ?_ hhash]
  · rfl
  · exact takeWhile_asciiBytes fun d hd => (hcs d hd).isAscii

theorem cString_intText (z : ℤ) : cString (asciiBytes (intText z)) = intText z :=
  cString_asciiBytes fun _ hc => (isNumberChar_of_mem_intText hc).isAscii

theorem numberOrSymbol_int (v : Int64) :
    numberOrSymbol readDouble (asciiBytes (intText v.toInt)) = .ok (.exact (.int v)) := by
  simp only [numberOrSymbol, cString_intText, strtoll_int64]
  rw [if_pos ⟨trivial, intText_ne_nil _, rfl⟩]

theorem numberOrSymbol_bignum {b : VmBignum} (hb : (ExactVal.bignum b).Canonical) :
    numberOrSymbol readDouble (asciiBytes (intText b.toInt)) = .ok (.exact (.bignum b)) := by
  have hrange : b.toInt < -2 ^ 63 ∨ 2 ^ 63 ≤ b.toInt := by
    have hnot := hb.2
    rw [VmRational.InInt64] at hnot
    omega
  have hstrtoll := @strtoll_intText b.toInt [] fun _ => rfl
  have hsplit := splitSign_append b.toInt []
  rw [List.append_nil] at hstrtoll hsplit
  rw [List.append_nil] at hsplit
  have herange := erange_clampStrtoll hrange []
  have hdigits : isDecimalInteger (intText b.toInt) = true := by
    rw [isDecimalInteger, hsplit]
    exact decide_eq_true ⟨natText_ne_nil _, List.all_eq_true.mpr fun _ => isDigit_of_mem_natText⟩
  obtain ⟨hnorm, hval⟩ := @bignumFromString_spec (intText b.toInt)
    (by rw [hsplit]; exact natText_ne_nil _)
    (by rw [hsplit]; exact fun _ => isDigit_of_mem_natText)
  rw [hsplit, signedDecimal_natText] at hval
  simp only [numberOrSymbol, cString_intText, hstrtoll, herange]
  rw [if_neg (by simp), if_pos ⟨hdigits, trivial⟩, hnorm.eq_of_toInt_eq hb.1 hval]

theorem numberOrSymbol_fraction {n d : Int64} (hd : d ≠ 0) :
    numberOrSymbol readDouble (asciiBytes (intText n.toInt ++ '/' :: intText d.toInt)) =
      rationalDatum (vmRationalAlloc n d) := by
  have htext : cString (asciiBytes (intText n.toInt ++ '/' :: intText d.toInt)) =
      intText n.toInt ++ '/' :: intText d.toInt :=
    cString_asciiBytes fun _ hc => (isNumberChar_of_mem_fraction hc).isAscii
  have hparts : fractionParts (intText n.toInt ++ '/' :: intText d.toInt) = some (n, d) := by
    simp only [fractionParts, takeWhile_fraction, dropWhile_fraction, List.tail_cons, strtoll_int64]
    rw [if_pos ⟨by simp, intText_ne_nil _, intText_ne_nil _, slash_not_mem_intText _⟩,
      if_pos ⟨⟨rfl, trivial⟩, rfl, trivial, hd⟩]
  simp only [numberOrSymbol, htext, hparts,
    @strtoll_intText n.toInt ('/' :: intText d.toInt) fun _ => rfl,
    clampStrtoll_of_range n.le_toInt n.toInt_lt]
  rw [if_neg (by simp), if_neg (by simp)]

theorem numberOrSymbol_small {n d : Int64} (h : (ExactVal.rational (.small n d)).Canonical) :
    numberOrSymbol readDouble (asciiBytes (intText n.toInt ++ '/' :: intText d.toInt)) =
      .ok (.exact (.rational (.small n d))) := by
  have hpos : 0 < d.toInt := h.1.den_pos
  have hd : d ≠ 0 := by
    rintro rfl
    exact absurd hpos (by decide)
  have hd1 : d ≠ 1 := by
    rintro rfl
    exact h.2 rfl
  obtain ⟨r, hr, hcanonical, hval⟩ := @vmRationalAlloc_spec n d _ hpos.ne' (.inl hpos) rfl
  obtain rfl : r = .small n d := hcanonical.eq_small h.1 hval
  rw [numberOrSymbol_fraction readDouble hd, hr, rationalDatum]
  exact congrArg Except.ok (if_neg hd1)

theorem numberOrSymbol_placeholders :
    numberOrSymbol readDouble (asciiBytes (intText (0 : Int64).toInt ++ '/' :: intText (1 : Int64).toInt)) =
      .ok (.exact (.int 0)) := by
  rw [numberOrSymbol_fraction readDouble (by decide)]
  rfl

end Numbers

/-! ### Characters -/

section Characters

variable (readDouble : List Char → Option D)

theorem vmReaderToken_char {spelling fp : Port} (hrun : ∀ b ∈ spelling, isDelimiter b = false)
    (hfp : vmReaderDelimiter fp = true) (hlen : spelling.length ≤ 8) :
    vmReaderToken readDouble (byte '#') (byte '\\' :: (spelling ++ fp)) =
      .ok (.char (charCodepoint (spelling.takeWhile (· ≠ 0))), fp) := by
  have hrun' : ∀ b ∈ byte '\\' :: spelling, isDelimiter b = false := by
    intro b hb
    rcases List.mem_cons.mp hb with rfl | hb
    · rfl
    · exact hrun b hb
  have hlen' : (byte '\\' :: spelling).length < vmReaderMaxToken := by
    rw [List.length_cons, vmReaderMaxToken]
    omega
  have htext : (byte '#' :: byte '\\' :: spelling).takeWhile (· ≠ 0) =
      byte '#' :: byte '\\' :: spelling.takeWhile (· ≠ 0) := rfl
  have hne (d : Char) (ds : List Char) (hd : byte '\\' ≠ byte d) :
      byte '#' :: byte '\\' :: spelling.takeWhile (· ≠ 0) ≠ asciiBytes ('#' :: d :: ds) := by
    intro heq
    exact hd (List.cons_eq_cons.mp (List.cons_eq_cons.mp heq).2).1
  have htrue : byte '#' :: byte '\\' :: spelling.takeWhile (· ≠ 0) ≠ asciiBytes "#true".toList :=
    hne 't' ['r', 'u', 'e'] (by decide)
  have hfalse : byte '#' :: byte '\\' :: spelling.takeWhile (· ≠ 0) ≠ asciiBytes "#false".toList :=
    hne 'f' ['a', 'l', 's', 'e'] (by decide)
  rw [← List.cons_append, vmReaderToken_run readDouble _ hrun' hfp hlen', tokenDatum]
  simp only [htext]
  rw [if_neg (not_or.mpr ⟨hne 't' [] (by decide), htrue⟩),
    if_neg (not_or.mpr ⟨hne 'f' [] (by decide), hfalse⟩)]
  rfl

theorem charCodepoint_byte {b : UInt8} {more : List UInt8}
    (hname : ∀ c ∈ ['s', 'n', 't', 'r', 'x'], more = [] ∨ b ≠ byte c) :
    charCodepoint (b :: more) = b.toNat := by
  have hne (c d : Char) (ds : List Char) (hc : c ∈ ['s', 'n', 't', 'r', 'x']) :
      b :: more ≠ asciiBytes (c :: d :: ds) := by
    intro heq
    obtain ⟨hb, hmore⟩ := List.cons_eq_cons.mp heq
    rcases hname c hc with hnil | hb'
    · rw [hnil] at hmore
      exact absurd hmore (by simp)
    · exact hb' hb
  have hx : ¬ ((b :: more).head? = some (byte 'x') ∧ (b :: more).tail ≠ []) := by
    rintro ⟨hb, hmore⟩
    exact (hname 'x' (by simp)).elim hmore fun hb' => hb' (Option.some.inj hb)
  have hspace : b :: more ≠ asciiBytes "space".toList := hne 's' 'p' ['a', 'c', 'e'] (by simp)
  have hnewline : b :: more ≠ asciiBytes "newline".toList :=
    hne 'n' 'e' ['w', 'l', 'i', 'n', 'e'] (by simp)
  have htab : b :: more ≠ asciiBytes "tab".toList := hne 't' 'a' ['b'] (by simp)
  have hreturn : b :: more ≠ asciiBytes "return".toList :=
    hne 'r' 'e' ['t', 'u', 'r', 'n'] (by simp)
  have hnull : b :: more ≠ asciiBytes "null".toList := hne 'n' 'u' ['l', 'l'] (by simp)
  rw [charCodepoint]
  simp only [if_neg hx]
  rw [if_neg hspace, if_neg hnewline, if_neg htab, if_neg hreturn, if_neg hnull]
  rfl

/-- A character is a Unicode scalar value. -/
def IsScalar (c : ℕ) : Prop := c ≤ 0x10FFFF ∧ ¬ (0xD800 ≤ c ∧ c ≤ 0xDFFF)

/-- A character that is read back: a named one, an ASCII character that is no delimiter, or the
one beyond ASCII that is the first byte of its own encoding. -/
def ReadableChar (c : ℕ) : Prop :=
  c = 9 ∨ c = 10 ∨ c = 32 ∨ (c < 128 ∧ isDelimiter (UInt8.ofNat c) = false) ∨ c = 0xC3

instance (c : ℕ) : Decidable (ReadableChar c) := inferInstanceAs (Decidable (_ ∨ _))

theorem toNat_ofNat_or {a k : ℕ} (ha : 128 ≤ a) (ha' : a < 256) (hk : k < 256) :
    128 ≤ (UInt8.ofNat (a ||| k)).toNat := by
  have hor : a ||| k < 2 ^ 8 := Nat.or_lt_two_pow ha' hk
  rw [UInt8.toNat_ofNat', Nat.mod_eq_of_lt hor]
  exact ha.trans Nat.left_le_or

/-- The bytes of a character beyond ASCII. -/
theorem utf8Bytes_beyond {c : ℕ} (hlo : 128 ≤ c) (hhi : c ≤ 0x10FFFF) :
    ∃ b more, utf8Bytes c = b :: more ∧ more.length ≤ 3 ∧ (∀ d ∈ b :: more, 128 ≤ d.toNat) ∧
      (b.toNat = c ↔ c = 0xC3) := by
  have hcont (k : ℕ) : 128 ≤ (UInt8.ofNat (0x80 ||| k &&& 0x3F)).toNat :=
    toNat_ofNat_or (by omega) (by omega)
      (Nat.lt_of_le_of_lt Nat.and_le_right (by omega))
  rw [utf8Bytes, if_neg (by omega)]
  split_ifs with h2 h3
  · have hk : c >>> 6 < 2 ^ 5 := by
      rw [Nat.shiftRight_eq_div_pow]
      omega
    refine ⟨_, _, rfl, by simp, ?_, ?_⟩
    · intro d hd
      simp only [List.mem_cons, List.not_mem_nil, or_false] at hd
      rcases hd with rfl | rfl
      · exact toNat_ofNat_or (by omega) (by omega) (by omega)
      · exact hcont c
    · have hor : 0xC0 ||| c >>> 6 = 2 ^ 6 * 3 + c >>> 6 :=
        (Nat.two_pow_add_eq_or_of_lt (show c >>> 6 < 2 ^ 6 by omega) 3).symm
      have hdiv : c >>> 6 = c / 64 := Nat.shiftRight_eq_div_pow c 6
      rw [hor, UInt8.toNat_ofNat', Nat.mod_eq_of_lt (by omega), hdiv]
      omega
  · have hk : c >>> 12 < 16 := by
      rw [Nat.shiftRight_eq_div_pow]
      omega
    refine ⟨_, _, rfl, by simp, ?_, ?_⟩
    · intro d hd
      simp only [List.mem_cons, List.not_mem_nil, or_false] at hd
      rcases hd with rfl | rfl | rfl
      · exact toNat_ofNat_or (by omega) (by omega) (by omega)
      · exact hcont (c >>> 6)
      · exact hcont c
    · have := (UInt8.ofNat (0xE0 ||| c >>> 12)).toNat_lt
      omega
  · have hk : c >>> 18 < 8 := by
      rw [Nat.shiftRight_eq_div_pow]
      omega
    refine ⟨_, _, rfl, by simp, ?_, ?_⟩
    · intro d hd
      simp only [List.mem_cons, List.not_mem_nil, or_false] at hd
      rcases hd with rfl | rfl | rfl | rfl
      · exact toNat_ofNat_or (by omega) (by omega) (by omega)
      · exact hcont (c >>> 12)
      · exact hcont (c >>> 6)
      · exact hcont c
    · have := (UInt8.ofNat (0xF0 ||| c >>> 18)).toNat_lt
      omega

theorem vmReaderToken_named {name : List Char} {fp : Port} (hname : name.all Char.isLower = true)
    (hlen : name.length ≤ 8) (hfp : vmReaderDelimiter fp = true) :
    vmReaderToken readDouble (byte '#') (byte '\\' :: (asciiBytes name ++ fp)) =
      .ok (.char (charCodepoint (asciiBytes name)), fp) := by
  have hlower {d : Char} (hd : d ∈ name) : 97 ≤ d.toNat ∧ d.toNat ≤ 122 := by
    have hlow := Bool.and_eq_true_iff.mp (List.all_eq_true.mp hname d hd)
    exact ⟨of_decide_eq_true hlow.1, of_decide_eq_true hlow.2⟩
  have hascii : ∀ d ∈ name, IsAscii d := fun d hd => by
    have := hlower hd
    exact ⟨by omega, by omega⟩
  have hrun : ∀ b ∈ asciiBytes name, isDelimiter b = false := by
    intro b hb
    obtain ⟨d, hd, rfl⟩ := List.mem_map.mp hb
    have := hlower hd
    rw [Bool.eq_false_iff, ne_eq, isDelimiter_iff, toNat_byte (hascii d hd)]
    omega
  rw [vmReaderToken_char readDouble hrun hfp (by simpa [asciiBytes] using hlen),
    takeWhile_asciiBytes hascii]

theorem vmReaderToken_ascii {c : ℕ} (hc : c < 128) {fp : Port} (hfp : vmReaderDelimiter fp = true) :
    ∃ cp rest, vmReaderToken readDouble (byte '#') (byte '\\' :: ([UInt8.ofNat c] ++ fp)) =
        .ok (.char cp, rest) ∧
      if isDelimiter (UInt8.ofNat c) = true then cp ≠ c else cp = c ∧ rest = fp := by
  have htoNat : (UInt8.ofNat c).toNat = c := by rw [UInt8.toNat_ofNat', Nat.mod_eq_of_lt (by omega)]
  split
  next hd =>
      refine ⟨0, [UInt8.ofNat c] ++ fp, @vmReaderToken_char D readDouble [] _ (by simp) ?_ (by simp), ?_⟩
      · simpa [vmReaderDelimiter] using hd
      · rw [isDelimiter_iff, htoNat] at hd
        omega
  next hd =>
      refine ⟨c, fp, ?_, rfl, rfl⟩
      rw [vmReaderToken_char readDouble (by simpa using hd) hfp (by simp)]
      by_cases hzero : UInt8.ofNat c = 0
      · obtain rfl : c = 0 := by rw [← htoNat, hzero]; rfl
        rfl
      · rw [List.takeWhile_cons, if_pos (decide_eq_true hzero), List.takeWhile_nil,
          charCodepoint_byte fun _ _ => .inl rfl, htoNat]

theorem vmReaderToken_beyond {b : UInt8} {more : List UInt8} (hlen : more.length ≤ 3)
    (hbytes : ∀ d ∈ b :: more, 128 ≤ d.toNat) {fp : Port} (hfp : vmReaderDelimiter fp = true) :
    vmReaderToken readDouble (byte '#') (byte '\\' :: (b :: more ++ fp)) =
      .ok (.char b.toNat, fp) := by
  have hrun : ∀ d ∈ b :: more, isDelimiter d = false := by
    intro d hd
    have := hbytes d hd
    rw [Bool.eq_false_iff, ne_eq, isDelimiter_iff]
    omega
  have hzero : (b :: more).takeWhile (· ≠ 0) = b :: more := by
    rw [List.takeWhile_eq_self_iff]
    intro d hd
    refine decide_eq_true ?_
    rintro rfl
    exact absurd (hbytes 0 hd) (by decide)
  have hb := hbytes b List.mem_cons_self
  have hname : ∀ c ∈ ['s', 'n', 't', 'r', 'x'], more = [] ∨ b ≠ byte c := by
    intro c hc
    refine .inr ?_
    rintro rfl
    simp only [List.mem_cons, List.not_mem_nil, or_false] at hc
    rcases hc with rfl | rfl | rfl | rfl | rfl <;> exact absurd hb (by decide)
  rw [vmReaderToken_char readDouble hrun hfp (by rw [List.length_cons]; omega), hzero,
    charCodepoint_byte hname]

/-- A character text is read as its character exactly if it is a readable one. -/
theorem vmReaderToken_charText {c : ℕ} (hc : IsScalar c) :
    ∃ more, charText c = byte '#' :: byte '\\' :: more ∧
      ∀ fp, vmReaderDelimiter fp = true → ∃ cp rest,
        vmReaderToken readDouble (byte '#') (byte '\\' :: (more ++ fp)) = .ok (.char cp, rest) ∧
          if ReadableChar c then cp = c ∧ rest = fp else cp ≠ c := by
  by_cases hspace : c = 32
  · subst hspace
    refine ⟨asciiBytes ['s', 'p', 'a', 'c', 'e'], rfl, fun fp hfp => ⟨32, fp, ?_, rfl, rfl⟩⟩
    exact vmReaderToken_named readDouble rfl (by decide) hfp
  by_cases hnewline : c = 10
  · subst hnewline
    refine ⟨asciiBytes ['n', 'e', 'w', 'l', 'i', 'n', 'e'], rfl, fun fp hfp => ⟨10, fp, ?_, rfl, rfl⟩⟩
    exact vmReaderToken_named readDouble rfl (by decide) hfp
  by_cases htab : c = 9
  · subst htab
    refine ⟨asciiBytes ['t', 'a', 'b'], rfl, fun fp hfp => ⟨9, fp, ?_, rfl, rfl⟩⟩
    exact vmReaderToken_named readDouble rfl (by decide) hfp
  have htext : charText c = byte '#' :: byte '\\' :: utf8Bytes c := by
    rw [charText, if_neg hspace, if_neg hnewline, if_neg htab, vmUtf8Encode, if_neg]
    rintro (h | h)
    · exact hc.2 h
    · exact absurd hc.1 (by omega)
  refine ⟨utf8Bytes c, htext, fun fp hfp => ?_⟩
  by_cases hascii : c < 128
  · obtain ⟨cp, rest, hread, hcp⟩ := vmReaderToken_ascii readDouble hascii hfp
    refine ⟨cp, rest, ?_, ?_⟩
    · rw [utf8Bytes, if_pos hascii, hread]
    · have hiff : ReadableChar c ↔ isDelimiter (UInt8.ofNat c) = false := by
        have hC3 : c ≠ 0xC3 := by omega
        rw [ReadableChar]
        tauto
      by_cases hd : isDelimiter (UInt8.ofNat c) = true
      · rw [if_neg (by rw [hiff, hd]; simp)]
        rwa [if_pos hd] at hcp
      · rw [if_pos (hiff.mpr (Bool.eq_false_iff.mpr hd))]
        rwa [if_neg hd] at hcp
  · obtain ⟨b, more, hbytes, hlen, hall, hfirst⟩ := utf8Bytes_beyond (c := c) (by omega) hc.1
    refine ⟨b.toNat, fp, ?_, ?_⟩
    · rw [hbytes, vmReaderToken_beyond readDouble hlen hall hfp]
    · have hiff : ReadableChar c ↔ c = 0xC3 := by
        rw [ReadableChar]
        omega
      split
      next h => exact ⟨hfirst.mpr (hiff.mp h), rfl⟩
      next h => exact fun hb => h (hiff.mpr (hfirst.mp hb))

end Characters

end Eshkol.Vm.Reader
