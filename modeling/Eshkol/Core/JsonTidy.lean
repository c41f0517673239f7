import Eshkol.Core.JsonGrammar
import Eshkol.Core.JsonParse

/-!
# Tidy Texts

The leaves of a JSON text against the grammar. The parser accepts numbers and strings that are none
of JSON, and it does not mind a value that is missing. `Tidy` says of a text that it has nothing of
the kind, as far as can be seen without looking at how its parts are nested.

A tidy string or number is read as what it denotes. A string that the parser reads to the end of the
text without its quote is open for the scan too.
-/

namespace Eshkol.Core.Json

open Machine

variable {D : Type}

/-! ### Tidy texts -/

/-- What stands before a position outside of strings. -/
inductive Before : Type
  | opening
  | comma
  | colon
  | value
  | number
  deriving DecidableEq

/-- A position of a text. -/
inductive Place : Type
  | outside (before : Before)
  | inString
  | inEscape

/-- The text of a number of JSON. -/
def IsNumeral (cs : List ℕ) : Prop := ∃ n : Numeral, n.text.map Char.toNat = cs

/-- An ASCII text from a position on in which nothing looks wrong from close by: no value is missing
next to a comma or after a colon, the characters of a number are a number of JSON, and a string has
only printable characters and the escapes that the parser knows. Nothing is said about how the parts
fit together. -/
def Tidy : Place → List ℕ → Prop
  | _, [] => True
  | .inString, c :: cs =>
    if c = 34 then Tidy (.outside .value) cs
    else if c = 92 then Tidy .inEscape cs
    else (32 ≤ c ∧ c < 128) ∧ Tidy .inString cs
  | .inEscape, c :: cs => c ∈ [34, 92, 47, 110, 114, 116] ∧ Tidy .inString cs
  | .outside before, c :: cs =>
    if jsonWhitespace c then
      Tidy (.outside (if before = .number then .value else before)) cs
    else if before = .number ∧ numberChar c then Tidy (.outside .number) cs
    else if c = 34 then Tidy .inString cs
    else if jsonDigit c || c = 45 then
      IsNumeral (c :: cs.takeWhile numberChar) ∧ Tidy (.outside .number) cs
    else if c = 44 then (before = .value ∨ before = .number) ∧ Tidy (.outside .comma) cs
    else if c = 58 then Tidy (.outside .colon) cs
    else if c = 91 ∨ c = 123 then Tidy (.outside .opening) cs
    else if c = 93 ∨ c = 125 then
      (before ≠ .comma ∧ before ≠ .colon) ∧ Tidy (.outside .value) cs
    else c < 128 ∧ Tidy (.outside .value) cs

variable {cs rest : List ℕ}

theorem Tidy.ascii {place : Place} (h : Tidy place cs) : ∀ c ∈ cs, c < 128 := by
  induction cs generalizing place with
  | nil => simp
  | cons c cs ih =>
    have hnumber (hc : numberChar c = true) : c < 128 := by
      simp only [numberChar, jsonDigit, Bool.or_eq_true, Bool.and_eq_true, decide_eq_true_eq] at hc
      omega
    cases place with
    | inString =>
      rw [Tidy] at h
      split_ifs at h with hquote hslash
      · exact List.forall_mem_cons.mpr ⟨by omega, ih h⟩
      · exact List.forall_mem_cons.mpr ⟨by omega, ih h⟩
      · exact List.forall_mem_cons.mpr ⟨h.1.2, ih h.2⟩
    | inEscape =>
      obtain ⟨hc, h⟩ := h
      refine List.forall_mem_cons.mpr ⟨?_, ih h⟩
      simp only [List.mem_cons, List.not_mem_nil, or_false] at hc
      omega
    | outside before =>
      rw [Tidy] at h
      split at h
      next hws =>
        simp only [jsonWhitespace, Bool.or_eq_true, decide_eq_true_eq] at hws
        exact List.forall_mem_cons.mpr ⟨by omega, ih h⟩
      split_ifs at h with hrun hquote hfirst hcomma hcolon hopen hclose
      · exact List.forall_mem_cons.mpr ⟨hnumber hrun.2, ih h⟩
      · exact List.forall_mem_cons.mpr ⟨by omega, ih h⟩
      · simp only [jsonDigit, Bool.or_eq_true, Bool.and_eq_true, decide_eq_true_eq] at hfirst
        exact List.forall_mem_cons.mpr ⟨by omega, ih h.2⟩
      · exact List.forall_mem_cons.mpr ⟨by omega, ih h.2⟩
      · exact List.forall_mem_cons.mpr ⟨by omega, ih h⟩
      · exact List.forall_mem_cons.mpr ⟨by omega, ih h⟩
      · exact List.forall_mem_cons.mpr ⟨by omega, ih h.2⟩
      · exact List.forall_mem_cons.mpr ⟨h.1, ih h.2⟩

theorem Tidy.skip {before : Before} (h : Tidy (.outside before) cs) (hbefore : before ≠ .number) :
    Tidy (.outside before) (jsonSkipWs cs) := by
  induction cs with
  | nil => exact h
  | cons c cs ih =>
    rw [jsonSkipWs]
    split
    next hc =>
      rw [Tidy, if_pos hc, if_neg hbefore] at h
      exact ih h
    next => exact h

theorem Tidy.number {run : List ℕ} (hrun : ∀ c ∈ run, numberChar c = true)
    (h : Tidy (.outside .number) (run ++ rest)) : Tidy (.outside .number) rest := by
  induction run with
  | nil => exact h
  | cons c run ih =>
    rw [List.forall_mem_cons] at hrun
    have hws : jsonWhitespace c = false := by
      have hc := hrun.1
      simp only [numberChar, jsonDigit, Bool.or_eq_true, Bool.and_eq_true, decide_eq_true_eq] at hc
      simp only [jsonWhitespace, Bool.or_eq_false_iff, decide_eq_false_iff_not]
      omega
    rw [List.cons_append, Tidy, if_neg (by simp [hws]), if_pos ⟨rfl, hrun.1⟩] at h
    exact ih hrun.2 h

theorem Tidy.value_of_number (hends : NumberEnds rest) (h : Tidy (.outside .number) rest) :
    Tidy (.outside .value) rest := by
  cases rest with
  | nil => trivial
  | cons c rest =>
    have hc : numberChar c = false := hends c rfl
    rw [Tidy] at h ⊢
    simpa [hc] using h

theorem jsonUnescape_eq {e : ℕ} (h : e ∈ [34, 92, 47, 110, 114, 116]) :
    ∃ c, (e, c) ∈ escapes ∧ jsonUnescape e = Codec.Utf8.encode [c] := by
  simp only [List.mem_cons, List.not_mem_nil, or_false] at h
  rcases h with rfl | rfl | rfl | rfl | rfl | rfl
  · exact ⟨Char.ofNat 34, by simp [escapes], rfl⟩
  · exact ⟨Char.ofNat 92, by simp [escapes], rfl⟩
  · exact ⟨'/', by simp [escapes], rfl⟩
  · exact ⟨'\n', by simp [escapes], rfl⟩
  · exact ⟨'\r', by simp [escapes], rfl⟩
  · exact ⟨'\t', by simp [escapes], rfl⟩

theorem makeStringCode_eq {c : ℕ} (h : c < 128) :
    makeStringCode c = Codec.Utf8.encode [Char.ofNat c] := by
  have hc := toNat_char_ofNat h
  rw [← makeString_ascii (by rw [hc]; exact h), makeString, hc]
  rfl

/-- **A string literal.** Either it is open at the end of the text, which the scan finds, or it is
read up to its quote; then the scan passes over it, and where it is tidy it is read as what it
denotes. -/
theorem jsonParseStr_sound {acc s : List UInt8} (h : jsonParseStr cs acc = (s, rest)) :
    (∀ b k, jsonStructuralLoop cs b k true false ≠ none) ∨
      (∀ b k, jsonStructuralLoop cs b k true false = jsonStructuralLoop rest b k false false) ∧
      (Tidy .inString cs → ∃ chars, Chars cs chars rest ∧ s = acc ++ Codec.Utf8.encode chars ∧
        Tidy (.outside .value) rest) := by
  fun_induction jsonParseStr cs acc with
  | case1 acc =>
    refine .inl fun b k => ?_
    simp [jsonStructuralLoop]
  | case2 acc cs =>
    cases h
    exact .inr ⟨fun b k => rfl, fun htidy => ⟨[], .close _, by simp, htidy⟩⟩
  | case3 acc hne =>
    refine .inl fun b k => ?_
    simp [jsonStructuralLoop]
  | case4 acc next cs hne ih =>
    rcases ih h with hopen | ⟨hscan, hread⟩
    · exact .inl hopen
    · refine .inr ⟨hscan, fun htidy => ?_⟩
      obtain ⟨hnext, htidy⟩ : next ∈ [34, 92, 47, 110, 114, 116] ∧ Tidy .inString cs := htidy
      obtain ⟨c, hc, hunescape⟩ := jsonUnescape_eq hnext
      obtain ⟨chars, hchars, rfl, hrest⟩ := hread htidy
      refine ⟨c :: chars, .escape hc hchars, ?_, hrest⟩
      rw [hunescape, List.append_assoc, ← Codec.Utf8.encode_append]
      rfl
  | case5 c cs acc hquote hslash ih =>
    rcases ih h with hopen | ⟨hscan, hread⟩
    · refine .inl fun b k => ?_
      simpa [jsonStructuralLoop, hquote, hslash] using hopen b k
    · refine .inr ⟨fun b k => ?_, fun htidy => ?_⟩
      · simpa [jsonStructuralLoop, hquote, hslash] using hscan b k
      · rw [Tidy, if_neg hquote, if_neg hslash] at htidy
        obtain ⟨⟨hlow, hhigh⟩, htidy⟩ := htidy
        obtain ⟨chars, hchars, rfl, hrest⟩ := hread htidy
        have hc := toNat_char_ofNat hhigh
        refine ⟨Char.ofNat c :: chars, ?_, ?_, hrest⟩
        · have hunescaped := @Chars.unescaped (Char.ofNat c) _ _ _
            (by rw [hc]; exact ⟨hlow, hquote, hslash⟩) hchars
          rwa [hc] at hunescaped
        · rw [makeStringCode_eq hhigh, List.append_assoc, ← Codec.Utf8.encode_append]
          rfl

/-! ### Numbers -/

/-- `strtod` reads the text of a JSON number to its end and rounds the rational it denotes. -/
def ReadsNumerals (ops : DoubleOps D) (round : ℚ → D) : Prop :=
  ∀ n : Numeral, n.isInteger = false → ops.strtod n.lowerText = (round n.toRat, [])

theorem jsonNumLoop_fraction {fraction : List Char} (h : ∀ c ∈ fraction, c.isDigit = true)
    (rest : List ℕ) (result : List Char) :
    ∃ hasDot, jsonNumLoop
        ((if fraction = [] then [] else '.' :: fraction).map Char.toNat ++ rest) result false
        false =
      jsonNumLoop rest (result ++ if fraction = [] then [] else '.' :: fraction) hasDot false := by
  split
  next => exact ⟨false, by simp⟩
  next =>
    refine ⟨true, ?_⟩
    rw [List.map_cons, List.cons_append]
    refine (jsonNumLoop_digits h rest (result ++ ['.']) true false).trans ?_
    simp

theorem jsonNumLoop_exponent (e : Exponent) (h : NumberEnds rest) (result : List Char)
    (hasDot : Bool) :
    jsonNumLoop ((e.letter :: e.tail).map Char.toNat ++ rest) result hasDot false =
      (result ++ 'e' :: e.tail, rest) := by
  have hletter : ∀ cs, jsonNumLoop (e.letter.toNat :: cs) result hasDot false =
      jsonNumLoop cs (result ++ ['e']) hasDot true := by
    intro cs
    rw [Exponent.letter]
    cases e.upper <;> cases hasDot <;> rfl
  have hsign : ∀ cs, jsonNumLoop (e.tail.map Char.toNat ++ cs) (result ++ ['e']) hasDot true =
      jsonNumLoop cs (result ++ 'e' :: e.tail) hasDot true := by
    intro cs
    have hdigits := jsonNumLoop_digits e.isDigit cs
    rw [Exponent.tail]
    cases e.sign with
    | none => simp [hdigits]
    | some minus =>
      cases minus with
      | true => exact (hdigits _ hasDot true).trans (by simp)
      | false => exact (hdigits _ hasDot true).trans (by simp)
  rw [List.map_cons, List.cons_append, hletter, hsign, jsonNumLoop_ends h]

theorem jsonNumLoop_body (n : Numeral) (h : NumberEnds rest) :
    jsonNumLoop ((n.body Exponent.letter).map Char.toNat ++ rest) [] false false =
      (n.body fun _ => 'e', rest) := by
  rw [Numeral.body, Numeral.body, List.map_append, List.map_append, List.append_assoc,
    List.append_assoc, jsonNumLoop_digits n.whole_isDigit, List.nil_append]
  obtain ⟨hasDot, hfraction⟩ := jsonNumLoop_fraction n.fraction_isDigit
    ((Exponent.text Exponent.letter n.exponent).map Char.toNat ++ rest) n.whole
  rw [hfraction]
  cases n.exponent with
  | none =>
    rw [Exponent.text, Exponent.text, List.append_nil]
    exact jsonNumLoop_ends h _ _ _
  | some e => exact jsonNumLoop_exponent e h _ _

theorem ofTagged_of_toInt {t : Tagged D} {x : ℤ} (h : t.toInt = some x) :
    ofTagged t = .number t := by
  cases t with
  | bool b => cases h
  | int64 _ | double _ | float32 | bignum _ | rational _ => rfl

theorem scanLoop_tail {n : Numeral} (h : n.isInteger = false) :
    scanLoop ((if n.fraction = [] then [] else '.' :: n.fraction) ++
      Exponent.text (fun _ => 'e') n.exponent) = .float := by
  rw [Numeral.isInteger, Bool.and_eq_false_iff] at h
  split
  next hfraction =>
    cases hexp : n.exponent with
    | none => simp [hfraction, hexp] at h
    | some e => rfl
  next => rfl

theorem stringToNumber_lowerText {ops : DoubleOps D} {round : ℚ → D}
    (hops : ReadsNumerals ops round) (n : Numeral) :
    ∃ t, eshkolStringToNumberTagged ops n.lowerText = .ok t ∧
      Represents round (ofTagged t) n.value := by
  by_cases hint : n.isInteger = true
  · have hparts : n.fraction = [] ∧ n.exponent = none := by
      simpa [Numeral.isInteger] using hint
    have hbody : n.body (fun _ => 'e') = n.whole := by simp [Numeral.body, hparts, Exponent.text]
    obtain ⟨t, ht, hop, hval⟩ := read_signedText ops n.negative n.ne_nil n.whole_isDigit
    refine ⟨t, ?_, ?_⟩
    · rw [Numeral.lowerText, hbody, ht]
    · rw [ofTagged_of_toInt hval, Numeral.value, if_pos hint]
      exact .integer hop hval
  · rw [Bool.not_eq_true] at hint
    have hlower : n.lowerText = signedText n.negative n.whole ++
        ((if n.fraction = [] then [] else '.' :: n.fraction) ++
          Exponent.text (fun _ => 'e') n.exponent) := by
      simp [Numeral.lowerText, signedText, Numeral.body]
    have hne : [] ≠ n.lowerText := by simp [hlower, signedText, n.ne_nil]
    refine ⟨.double (round n.toRat), ?_, ?_⟩
    · rw [hlower, eshkolStringToNumberTagged_signedText n.ne_nil n.whole_isDigit, eshkolS2nDecimal,
        scanDecimal_signedText n.ne_nil n.whole_isDigit, scanLoop_tail hint, ← hlower]
      simp only [decimalFloat, hops n hint, List.dropWhile_nil]
      rw [if_neg (by simpa using hne)]
    · rw [Numeral.value, hint]
      exact .real n.toRat

theorem Numeral.body_first (n : Numeral) (letter : Exponent → Char) :
    ∃ c cs, n.body letter = c :: cs ∧ c.isDigit = true := by
  obtain ⟨c, cs, hwhole⟩ := List.exists_cons_of_ne_nil n.ne_nil
  refine ⟨c, cs ++ (if n.fraction = [] then [] else '.' :: n.fraction) ++
    Exponent.text letter n.exponent, ?_, n.whole_isDigit c (by simp [hwhole])⟩
  rw [Numeral.body, hwhole]
  rfl

theorem jsonParseNum_numeral {ops : DoubleOps D} {round : ℚ → D} (hops : ReadsNumerals ops round)
    (n : Numeral) (h : NumberEnds rest) :
    ∃ v, jsonParseNum ops (n.text.map Char.toNat ++ rest) = .ok (v, rest) ∧
      Represents round v n.value := by
  obtain ⟨t, ht, hvalue⟩ := stringToNumber_lowerText hops n
  refine ⟨ofTagged t, ?_, hvalue⟩
  obtain ⟨c, cs, hbody, hc⟩ := n.body_first Exponent.letter
  have hloop := jsonNumLoop_body n h
  rw [hbody] at hloop
  rw [Numeral.text, hbody]
  exact jsonParseNum_signedText hc hloop ht

theorem jsonNumLoop_rest {result text : List Char} {hasDot hasExp : Bool}
    (h : jsonNumLoop cs result hasDot hasExp = (text, rest)) :
    ∃ run, cs = run ++ rest ∧ ∀ c ∈ run, numberChar c = true := by
  have hstep {c : ℕ} {cs : List ℕ} (hc : numberChar c = true)
      (ih : ∃ run, cs = run ++ rest ∧ ∀ c ∈ run, numberChar c = true) :
      ∃ run, c :: cs = run ++ rest ∧ ∀ c ∈ run, numberChar c = true := by
    obtain ⟨run, rfl, hrun⟩ := ih
    exact ⟨c :: run, rfl, List.forall_mem_cons.mpr ⟨hc, hrun⟩⟩
  fun_induction jsonNumLoop cs result hasDot hasExp with
  | case1 => exact ⟨[], congrArg Prod.snd h, by simp⟩
  | case2 c cs result hasDot hasExp hc ih => exact hstep (by simp [numberChar, hc]) (ih h)
  | case3 c cs result hasDot hasExp _ hc ih =>
    simp only [Bool.and_eq_true, decide_eq_true_eq] at hc
    exact hstep (by simp [numberChar, hc]) (ih h)
  | case4 c cs result hasDot hasExp _ _ hc ih =>
    simp only [Bool.and_eq_true, Bool.or_eq_true, decide_eq_true_eq] at hc
    rcases hc.1 with rfl | rfl
    · exact hstep rfl (ih h)
    · exact hstep rfl (ih h)
  | case5 c cs result hasDot hasExp _ _ _ hc ih =>
    simp only [Bool.and_eq_true, Bool.or_eq_true, decide_eq_true_eq] at hc
    rcases hc.1 with rfl | rfl
    · exact hstep rfl (ih h)
    · exact hstep rfl (ih h)
  | case6 => exact ⟨[], congrArg Prod.snd h, by simp⟩

end Eshkol.Core.Json
