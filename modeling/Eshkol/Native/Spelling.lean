import Eshkol.Native.Parse

/-!
# The Spelling of Exact Numbers

Which strings `string->number` (`lib/core/bignum.cpp`) reads as an exact number, and as which one.
Blanks at the start are skipped and a radix letter is taken off; in a radix other than ten blanks
may also follow the number. What is left is an optional sign and digits, or these over digits, and
the number returned is the one they spell, of any size.

The digits are read by `strtoll`, which skips white space and, in radix 16, a `0x` on its own
account, and takes a sign of its own for the denominator. Nothing is said here of a text where it
does.
-/

namespace Eshkol

open Machine Ratio

variable {D : Type}

/-! ### Spelled numbers -/

/-- The number a run of digits denotes. -/
def radixValue (radix : ℕ) (ds : List Char) : ℕ :=
  ds.foldl (fun acc c => acc * radix + digitValue c) 0

/-- One digit or more, each below the radix. -/
structure DigitRun (radix : ℕ) (ds : List Char) : Prop where
  ne_nil : ds ≠ []
  digit_lt : ∀ c ∈ ds, digitValue c < radix

/-- An optional sign, and the factor it stands for. -/
inductive SignText : List Char → ℤ → Prop
  | none : SignText [] 1
  | plus : SignText ['+'] 1
  | minus : SignText ['-'] (-1)

/-- The text is an integer or a fraction in the radix, of value `q`. -/
inductive Spells (radix : ℕ) : List Char → ℚ → Prop
  | integer {sign ds : List Char} {k : ℤ} (hsign : SignText sign k) (hds : DigitRun radix ds) :
      Spells radix (sign ++ ds) ((k * radixValue radix ds : ℤ) : ℚ)
  | fraction {sign ds es : List Char} {k : ℤ} (hsign : SignText sign k) (hds : DigitRun radix ds)
      (hes : DigitRun radix es) (hne : radixValue radix es ≠ 0) :
      Spells radix (sign ++ (ds ++ '/' :: es))
        (((k * radixValue radix ds : ℤ) : ℚ) / (radixValue radix es : ℤ))

/-- A string without its leading blanks: the text to read, and its radix, which a letter
overrides. -/
inductive Prefixed (radix : ℤ) : List Char → List Char → ℕ → Prop
  | plain {text : List Char} (hradix : 2 ≤ radix ∧ radix ≤ 36)
      (hash : ¬ ∃ c cs, text = '#' :: c :: cs) : Prefixed radix text text radix.toNat
  | letter {c : Char} {r : ℤ} {text : List Char} (hc : prefixRadix c = some r) :
      Prefixed radix ('#' :: c :: text) text r.toNat

/-- `strtoll` skips white space or a `0x` before the digits. -/
def StrtollSkips (radix : ℕ) (cs : List Char) : Prop :=
  cs.dropWhile isSpace ≠ cs ∨ skipHex radix (splitSign cs).2 ≠ (splitSign cs).2

/-- `strtoll` skips nothing, before the slash or after it, and no sign follows the slash. -/
structure ReadPlainly (radix : ℕ) (text : List Char) : Prop where
  start : ¬ StrtollSkips radix text
  denominator : ∀ num den, text = num ++ '/' :: den → '/' ∉ num →
    ¬ StrtollSkips radix den ∧ (splitSign den).2 = den

/-! ### `strtoll` -/

theorem splitSign_spec (s : List Char) :
    ∃ sign, SignText sign (if (splitSign s).1 then -1 else 1) ∧ s = sign ++ (splitSign s).2 := by
  unfold splitSign
  split
  · exact ⟨['-'], .minus, rfl⟩
  · exact ⟨['+'], .plus, rfl⟩
  · exact ⟨[], .none, rfl⟩

theorem splitSign_fst_eq_false {s : List Char} (h : (splitSign s).2 = s) :
    (splitSign s).1 = false := by
  unfold splitSign at h ⊢
  split at h
  · exact absurd (congrArg List.length h) (by simp)
  · rfl
  · rfl

theorem readDigits_eq (base : ℕ) (cs : List Char) (acc : ℕ) :
    readDigits base cs acc
      = ((cs.takeWhile (digitValue · < base)).foldl (fun acc c => acc * base + digitValue c) acc,
        cs.dropWhile (digitValue · < base)) := by
  induction cs generalizing acc with
  | nil => rfl
  | cons c cs ih =>
    rw [readDigits]
    split
    next h => rw [ih, List.takeWhile_cons, List.dropWhile_cons]; simp [h]
    next h => rw [List.takeWhile_cons, List.dropWhile_cons]; simp [h]

variable {cs start : List Char} {radix : ℕ}

theorem digitRun_takeWhile {base : ℕ} (h : cs.takeWhile (digitValue · < base) ≠ []) :
    DigitRun base (cs.takeWhile (digitValue · < base)) where
  ne_nil := h
  digit_lt c hc := by simpa using List.mem_takeWhile_imp hc

theorem clampStrtoll_value {x : ℤ} {rest : List Char} (h : (clampStrtoll x rest).erange = false) :
    (clampStrtoll x rest).value.toInt = x := by
  unfold clampStrtoll at h ⊢
  split_ifs at h ⊢ with hlo hhi
  exact Int64.toInt_ofInt_of_le (by omega) (by omega)

theorem clampStrtoll_rest (x : ℤ) (rest : List Char) : (clampStrtoll x rest).rest = rest := by
  unfold clampStrtoll
  split_ifs <;> rfl

theorem strtoll_plain {base : ℕ} {s : List Char} (h : ¬ StrtollSkips base s) :
    strtoll base s = ⟨0, s, false⟩ ∨
      ∃ sign k ds rest, SignText sign k ∧ DigitRun base ds ∧ s = sign ++ (ds ++ rest) ∧
        ((splitSign s).2 = s → k = 1 ∧ sign = []) ∧
        strtoll base s = clampStrtoll (k * radixValue base ds) rest := by
  rw [StrtollSkips, not_or, not_ne_iff, not_ne_iff] at h
  obtain ⟨hspace, hhex⟩ := h
  obtain ⟨sign, hsign, hs⟩ := splitSign_spec s
  cases hbody : (splitSign s).2 with
  | nil =>
    rw [hbody] at hhex
    left
    simp only [strtoll, hspace, hbody, hhex]
  | cons c cs =>
    rw [hbody] at hhex hs
    by_cases hc : digitValue c < base
    · right
      have hne : (c :: cs).takeWhile (digitValue · < base) ≠ [] := by
        rw [List.takeWhile_cons]
        simp [hc]
      refine ⟨sign, _, _, (c :: cs).dropWhile (digitValue · < base), hsign,
        digitRun_takeWhile hne, ?_, ?_, ?_⟩
      · rw [List.takeWhile_append_dropWhile]
        exact hs
      · intro hself
        have hfst := splitSign_fst_eq_false (hbody.trans hself)
        rw [hself] at hs
        exact ⟨by simp [hfst], by simpa using hs.symm⟩
      · simp only [strtoll, hspace, hbody, hhex, if_pos hc, readDigits_eq, radixValue]
        congr 1
        split
        · rw [neg_one_mul]
        · rw [one_mul]
    · left
      simp only [strtoll, hspace, hbody, hhex, if_neg hc]

theorem digitValue_slash : digitValue '/' = 36 := by decide

theorem slash_notMem (hradix : radix ≤ 36) {sign ds : List Char} {k : ℤ} (hsign : SignText sign k)
    (hds : DigitRun radix ds) : '/' ∉ sign ++ ds := by
  intro hmem
  rcases List.mem_append.mp hmem with h | h
  · cases hsign with
    | none => cases h
    | plus => simp at h
    | minus => simp at h
  · have := hds.digit_lt _ h
    rw [digitValue_slash] at this
    omega

theorem strtoll_fraction (hradix : radix ≤ 36) {den : List Char} (hplain : ReadPlainly radix start)
    (hnum : (strtoll radix start).rest = '/' :: den) (hne : start ≠ '/' :: den)
    (hnumr : (strtoll radix start).erange = false) (hden0 : (strtoll radix den).value ≠ 0)
    (hdenr : (strtoll radix den).erange = false) :
    ∃ sign k ds es, SignText sign k ∧ DigitRun radix ds ∧ DigitRun radix es ∧
      start = sign ++ (ds ++ '/' :: (es ++ (strtoll radix den).rest)) ∧
      (strtoll radix start).value.toInt = k * radixValue radix ds ∧
      (strtoll radix den).value.toInt = radixValue radix es := by
  rcases strtoll_plain hplain.start with h | ⟨sign, k, ds, rest, hsign, hds, hstart, -, hval⟩
  · rw [h] at hnum
    exact absurd hnum hne
  · rw [hval, clampStrtoll_rest] at hnum
    subst hnum
    rw [hval] at hnumr
    obtain ⟨hskip, hself⟩ := hplain.denominator (sign ++ ds) den
      (by rw [hstart, List.append_assoc]) (slash_notMem hradix hsign hds)
    rcases strtoll_plain hskip with h | ⟨sign', k', es, rest, -, hes, hden, hunsigned, hval'⟩
    · rw [h] at hden0
      exact absurd rfl hden0
    · obtain ⟨rfl, rfl⟩ := hunsigned hself
      rw [hval'] at hdenr
      refine ⟨sign, k, ds, es, hsign, hds, hes, ?_, ?_, ?_⟩
      · rw [hval', clampStrtoll_rest, hstart, hden]
        rfl
      · rw [hval, clampStrtoll_value hnumr]
      · rw [hval', clampStrtoll_value hdenr, one_mul]

/-! ### Decimals -/

theorem decimalValue_eq_radixValue {ds : List Char} (h : ∀ c ∈ ds, c.isDigit = true) :
    decimalValue 0 ds = radixValue 10 ds :=
  List.foldl_ext _ _ _ fun acc c hc => by rw [(digitValue_of_isDigit (h c hc)).1]

theorem decimalInteger_toRat (h : scanDecimal start = .integer) :
    (decimalInteger start : Tagged D).toRat = some (signedDecimal (splitSign start) : ℚ) := by
  obtain ⟨hne, hdigits⟩ := scanDecimal_eq_integer h
  obtain ⟨bn, hbn, -, hval⟩ := eshkolBignumFromString_spec hne hdigits
  have hstart : [] ≠ start := by
    rintro rfl
    exact hne rfl
  rw [decimalInteger, strtoll_eq hne hdigits]
  simp only [hbn, clampStrtoll_rest, List.dropWhile_nil]
  cases hr : (clampStrtoll (signedDecimal (splitSign start)) []).erange with
  | false =>
    rw [if_pos ⟨rfl, hstart, trivial⟩, Tagged.toRat, clampStrtoll_value hr]
  | true =>
    rw [if_neg (by simp), if_pos rfl, Tagged.toRat, hval]

theorem decimalInteger_spells (h : scanDecimal start = .integer) :
    Spells 10 start (signedDecimal (splitSign start)) := by
  obtain ⟨hne, hdigits⟩ := scanDecimal_eq_integer h
  obtain ⟨sign, hsign, hs⟩ := splitSign_spec start
  have hrun : DigitRun 10 (splitSign start).2 :=
    ⟨hne, fun c hc => (digitValue_of_isDigit (hdigits c hc)).2⟩
  have hval : signedDecimal (splitSign start)
      = (if (splitSign start).1 then -1 else 1) * (radixValue 10 (splitSign start).2 : ℤ) := by
    rw [signedDecimal, decimalValue_eq_radixValue hdigits]
    split
    · rw [neg_one_mul]
    · rw [one_mul]
  have hspells := Spells.integer hsign hrun
  rw [← hs, ← hval] at hspells
  exact hspells

theorem eshkolS2nDecimal_spells (ops : DoubleOps D) (hplain : ReadPlainly 10 start) {t : Tagged D}
    (hok : eshkolS2nDecimal ops start = .ok t) (hexact : t.Exact) :
    ∃ q, Spells 10 start q ∧ t.toRat = some q := by
  rw [eshkolS2nDecimal] at hok
  cases hshape : scanDecimal start with
  | notNumber =>
    rw [hshape] at hok
    cases hok
    exact absurd hexact id
  | float =>
    rw [hshape] at hok
    cases hok
    rw [decimalFloat] at hexact
    split_ifs at hexact <;> exact absurd hexact id
  | integer =>
    rw [hshape] at hok
    cases hok
    exact ⟨_, decimalInteger_spells hshape, decimalInteger_toRat hshape⟩
  | fraction den =>
    rw [hshape] at hok
    simp only [decimalFraction] at hok
    split_ifs at hok with hnum hden
    · rw [Bool.not_eq_true'] at hnum hden
      obtain ⟨hrest, hnumr⟩ := hnum
      obtain ⟨hrest', hdenr, hden0⟩ := hden
      have hne : start ≠ '/' :: den := by
        rintro rfl
        simp [scanDecimal, splitSign] at hshape
      obtain ⟨sign, k, ds, es, hsign, hds, hes, hstart, hnv, hdv⟩ :=
        strtoll_fraction (by omega) hplain hrest hne hnumr hden0 hdenr
      have hes0 : radixValue 10 es ≠ 0 := by
        intro h0
        rw [h0] at hdv
        exact hden0 (Int64.toInt_inj.mp hdv)
      obtain ⟨q, hq, -, hval⟩ := fractionResult_some (D := D) (n := (strtoll 10 start).value) hden0
      rw [hq] at hok
      cases hok
      rw [hrest', List.append_nil] at hstart
      refine ⟨_, ?_, congrArg some hval⟩
      rw [hnv, hdv]
      conv_lhs => rw [hstart]
      exact .fraction hsign hds hes hes0
    all_goals
      cases hok
      exact absurd hexact id

/-! ### Other radices -/

theorem isBlank_of_dropWhile_eq_nil (h : cs.dropWhile isBlank = []) :
    ∀ c ∈ cs, isBlank c = true := by
  simpa using h

theorem dropWhile_isBlank_eq_self (h : cs.dropWhile isSpace = cs) : cs.dropWhile isBlank = cs := by
  cases cs with
  | nil => rfl
  | cons c cs =>
    have hspace : isSpace c = false := by
      by_contra hc
      rw [Bool.not_eq_false] at hc
      rw [List.dropWhile_cons, if_pos hc] at h
      have := congrArg List.length h
      have := (List.dropWhile_suffix isSpace (l := cs)).length_le
      simp only [List.length_cons] at *
      omega
    have hblank : isBlank c = false := by
      by_contra hc
      rw [Bool.not_eq_false, isBlank, decide_eq_true_eq] at hc
      rcases hc with rfl | rfl
      · exact absurd hspace (by decide)
      · exact absurd hspace (by decide)
    rw [List.dropWhile_cons, hblank]
    rfl

theorem radixFraction_eq_some {den : List Char} {n d : Int64}
    (h : radixFraction radix start ('/' :: den) = some (n, d)) :
    (n = (strtoll radix start).value ∧ (strtoll radix start).rest = '/' :: den ∧
        (strtoll radix start).rest ≠ start ∧ (strtoll radix start).erange = false) ∧
      d = (strtoll radix den).value ∧ (strtoll radix den).rest.dropWhile isBlank = [] ∧
        (strtoll radix den).erange = false ∧ (strtoll radix den).value ≠ 0 := by
  rw [radixFraction] at h
  split_ifs at h with hnum hden
  simp only [not_or, ne_eq, not_not, Bool.not_eq_true, List.tail_cons] at hnum hden
  cases h
  exact ⟨⟨rfl, hnum⟩, rfl, hden.2⟩

/-- What is read is spelled by the text, up to blanks at its end. -/
theorem eshkolS2nRadixInt_spells (hradix : radix ≤ 36) (hplain : ReadPlainly radix start)
    {t : Tagged D} (hok : eshkolS2nRadixInt radix start = .ok t) (hexact : t.Exact) :
    ∃ body blanks q, start = body ++ blanks ∧ (∀ c ∈ blanks, isBlank c = true) ∧
      Spells radix body q ∧ t.toRat = some q := by
  rw [eshkolS2nRadixInt] at hok
  cases hslash : start.dropWhile (· ≠ '/') with
  | nil =>
    rw [hslash] at hok
    cases hok
    rw [radixInteger] at hexact ⊢
    split_ifs at hexact ⊢ with hbad
    · exact absurd hexact id
    · simp only [not_or, not_not, Bool.not_eq_true] at hbad
      obtain ⟨hmoved, hend, hrange⟩ := hbad
      rcases strtoll_plain hplain.start with h | ⟨sign, k, ds, rest, hsign, hds, hs, -, hval⟩
      · rw [h, dropWhile_isBlank_eq_self (not_ne_iff.mp (not_or.mp hplain.start).1)] at hmoved
        exact absurd rfl hmoved
      · rw [hval, clampStrtoll_rest] at hend
        rw [hval] at hrange
        refine ⟨sign ++ ds, rest, _, by rw [hs, List.append_assoc],
          isBlank_of_dropWhile_eq_nil hend, .integer hsign hds, ?_⟩
        rw [Tagged.toRat, hval, clampStrtoll_value hrange]
  | cons c den =>
    have hc : c = '/' := by
      have := List.head?_dropWhile_not (fun c => decide (c ≠ '/')) start
      rw [hslash] at this
      simpa using this
    subst hc
    rw [hslash] at hok
    change fractionResult (radixFraction radix start ('/' :: den)) = .ok t at hok
    cases hfrac : radixFraction radix start ('/' :: den) with
    | none =>
      rw [hfrac] at hok
      cases hok
      exact absurd hexact id
    | some parts =>
      obtain ⟨n, d⟩ := parts
      obtain ⟨⟨rfl, hrest, hmoved, hnumr⟩, rfl, hend, hdenr, hden0⟩ := radixFraction_eq_some hfrac
      rw [hfrac] at hok
      have hne : start ≠ '/' :: den := by
        rw [← hrest]
        exact Ne.symm hmoved
      obtain ⟨sign, k, ds, es, hsign, hds, hes, hstart, hnv, hdv⟩ :=
        strtoll_fraction hradix hplain hrest hne hnumr hden0 hdenr
      have hes0 : radixValue radix es ≠ 0 := by
        intro h0
        rw [h0] at hdv
        exact hden0 (Int64.toInt_inj.mp hdv)
      obtain ⟨q, hq, -, hval⟩ :=
        fractionResult_some (D := D) (n := (strtoll radix start).value) hden0
      rw [hq] at hok
      cases hok
      refine ⟨sign ++ (ds ++ '/' :: es), (strtoll radix den).rest, _, ?_,
        isBlank_of_dropWhile_eq_nil hend, .fraction hsign hds hes hes0, ?_⟩
      · conv_lhs => rw [hstart]
        simp
      · rw [Tagged.toRat, hval, hnv, hdv]

/-! ### Strings -/

theorem s2nText_prefixed {str : List Char} {radix : ℤ} {text : List Char} {r : ℕ}
    (h : s2nText str radix = some (text, r)) :
    Prefixed radix (str.dropWhile isBlank) text r ∧ r ≤ 36 := by
  simp only [s2nText] at h
  split at h
  next => cases h
  next heq =>
      split_ifs at h with hradix
      cases h
      rw [heq]
      refine ⟨.plain (by omega) ?_, by omega⟩
      rintro ⟨c, cs, hcs⟩
      cases hcs
  next c start heq =>
      rw [heq]
      cases hc : prefixRadix c with
      | none =>
        rw [hc] at h
        cases h
      | some r' =>
        rw [hc] at h
        simp only at h
        split_ifs at h with hnil hradix
        cases h
        exact ⟨.letter hc, by omega⟩
  next start hnil hone htwo =>
      split_ifs at h with hradix
      cases h
      refine ⟨.plain (by omega) ?_, by omega⟩
      rintro ⟨c, cs, hcs⟩
      exact htwo c cs hcs

/-- **Exact numbers read.** When `string->number` returns an exact number, the string is blanks, an
optional radix letter and a text; unless `strtoll` skips a part of that text or takes a sign after
the slash, it is a spelled number, in a radix other than ten before further blanks, and the number
returned is the one it spells. -/
theorem eshkolStringToNumberRadixTagged_spells (ops : DoubleOps D) {str : List Char}
    {radix : Int64} {t : Tagged D}
    (hok : eshkolStringToNumberRadixTagged ops str radix = .ok t) (hexact : t.Exact) :
    ∃ text r, Prefixed radix.toInt (str.dropWhile isBlank) text r ∧
      (ReadPlainly r text → ∃ body blanks q, text = body ++ blanks ∧
        (∀ c ∈ blanks, isBlank c = true) ∧ (r = 10 → blanks = []) ∧ Spells r body q ∧
        t.toRat = some q) := by
  rw [eshkolStringToNumberRadixTagged] at hok
  cases htext : s2nText str radix.toInt with
  | none =>
    rw [htext] at hok
    cases hok
    exact absurd hexact id
  | some parts =>
    obtain ⟨text, r⟩ := parts
    obtain ⟨hpre, hr⟩ := s2nText_prefixed htext
    refine ⟨text, r, hpre, fun hplain => ?_⟩
    rw [htext] at hok
    simp only at hok
    cases htoken : infnanToken text with
    | some token =>
      rw [htoken] at hok
      cases hok
      exact absurd hexact id
    | none =>
      rw [htoken] at hok
      simp only at hok
      split_ifs at hok with hten
      · subst hten
        obtain ⟨q, hq, ht⟩ := eshkolS2nDecimal_spells ops hplain hok hexact
        exact ⟨text, [], q, (List.append_nil _).symm, by simp, fun _ => rfl, hq, ht⟩
      · obtain ⟨body, blanks, q, hbody, hblanks, hq, ht⟩ :=
          eshkolS2nRadixInt_spells hr hplain hok hexact
        exact ⟨body, blanks, q, hbody, hblanks, fun h => absurd h hten, hq, ht⟩

theorem Spells.not_isSpace (hradix : radix ≤ 36) {text : List Char} {q : ℚ}
    (h : Spells radix text q) : ∀ c ∈ text, isSpace c = false := by
  have hsign {sign : List Char} {k : ℤ} (hs : SignText sign k) : ∀ c ∈ sign, isSpace c = false := by
    cases hs with
    | none => simp
    | plus => simp [isSpace]
    | minus => simp [isSpace]
  have hdigit {ds : List Char} (hds : DigitRun radix ds) : ∀ c ∈ ds, isSpace c = false := by
    intro c hc
    have hlt := hds.digit_lt c hc
    by_contra hspace
    rw [Bool.not_eq_false, isSpace, decide_eq_true_eq] at hspace
    have hval : digitValue c = 36 := by
      rcases hspace with rfl | ⟨hlo, hhi⟩
      · rfl
      · have hcases : c.toNat = 9 ∨ c.toNat = 10 ∨ c.toNat = 11 ∨ c.toNat = 12 ∨ c.toNat = 13 := by
          omega
        rw [← Char.ofNat_toNat c]
        rcases hcases with h | h | h | h | h <;> rw [h] <;> rfl
    omega
  cases h with
  | integer hs hds =>
    intro c hc
    rcases List.mem_append.mp hc with hc | hc
    · exact hsign hs c hc
    · exact hdigit hds c hc
  | fraction hs hds hes hne =>
    intro c hc
    rcases List.mem_append.mp hc with hc | hc
    · exact hsign hs c hc
    rcases List.mem_append.mp hc with hc | hc
    · exact hdigit hds c hc
    rcases List.mem_cons.mp hc with rfl | hc
    · decide
    · exact hdigit hes c hc

/-- A fraction between a blank and a radix letter before it and a blank after it. -/
theorem eshkolStringToNumberRadixTagged_spells_fraction :
    ∃ body blanks q, ['-', 'f', '/', '1', '0', ' '] = body ++ blanks ∧
      (∀ c ∈ blanks, isBlank c = true) ∧ Spells 16 body q ∧
      (.rational (.small (-15) 16) : Tagged Unit).toRat = some q := by
  have hok : eshkolStringToNumberRadixTagged DoubleOps.unit
      [' ', '#', 'x', '-', 'f', '/', '1', '0', ' '] 10 = .ok (.rational (.small (-15) 16)) := rfl
  obtain ⟨text, r, hpre, hspells⟩ :=
    eshkolStringToNumberRadixTagged_spells DoubleOps.unit hok trivial
  cases hpre with
  | plain hradix hash => exact absurd ⟨_, _, rfl⟩ hash
  | letter hc =>
    cases hc
    have hplain : ReadPlainly 16 ['-', 'f', '/', '1', '0', ' '] := by
      refine ⟨by rintro (h | h) <;> exact h rfl, fun num den hsplit hnum => ?_⟩
      have hslash : '/' ∉ ['-', 'f'] ∧ '/' ∉ ['1', '0', ' '] := by decide
      obtain ⟨-, -, rfl⟩ := (List.append_cons_inj_of_notMem hslash.1 hslash.2).mp hsplit
      exact ⟨by rintro (h | h) <;> exact h rfl, rfl⟩
    obtain ⟨body, blanks, q, hbody, hblanks, -, hq, ht⟩ := hspells hplain
    exact ⟨body, blanks, q, hbody, hblanks, hq, ht⟩

/-- A blank before the number, and one after it. -/
theorem eshkolStringToNumberRadixTagged_blanks :
    eshkolStringToNumberRadixTagged DoubleOps.unit [' ', '7'] 10 = .ok (.int64 7) ∧
      (∀ text r, Prefixed 10 [' ', '7'] text r → ∀ q, ¬ Spells r text q) ∧
      eshkolStringToNumberRadixTagged DoubleOps.unit ['1', 'f', ' '] 16 = .ok (.int64 31) ∧
      ∀ text r, Prefixed 16 ['1', 'f', ' '] text r → ∀ q, ¬ Spells r text q := by
  refine ⟨rfl, ?_, rfl, ?_⟩
  · rintro text r (⟨hradix, -⟩ | ⟨hc⟩) q hq
    exact Bool.noConfusion (hq.not_isSpace (by decide) ' ' (by simp))
  · rintro text r (⟨hradix, -⟩ | ⟨hc⟩) q hq
    exact Bool.noConfusion (hq.not_isSpace (by decide) ' ' (by simp))

end Eshkol
