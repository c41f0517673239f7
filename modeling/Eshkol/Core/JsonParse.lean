import Eshkol.Core.JsonText

/-!
# Parsing JSON

The parser of `lib/core/json.esk`: a recursive descent that gives up silently wherever it meets
something it does not know, and a scan over the whole text that is to catch what was left open. The
descent always answers a value and a position; `json-try-parse` compares the position with the end
of the text.

The three functions of the descent call each other at most twice for each step forward, so that a
fuel of twice the length of the text is enough.
-/

namespace Eshkol.Core.Json

open Machine

variable {D : Type}

/-! ### The descent -/

/-- The rest of a literal after its first letter: the value, or null where it began. -/
def jsonLiteralValue (value : Datum D) (letters : List ℕ) (c : ℕ) (cs : List ℕ) :
    Datum D × List ℕ :=
  if letters <+: cs then (value, cs.drop letters.length) else (.null, c :: cs)

mutual

/-- `json-parse-value-impl`, over the characters from `pos` on. -/
def jsonParseValue (ops : DoubleOps D) : ℕ → List ℕ → Exec Exn (Datum D × List ℕ)
  | 0, _ => .error .diverges
  | fuel + 1, cs =>
    match jsonSkipWs cs with
    | [] => .ok (.null, [])
    | c :: cs =>
      if c = 34 then .ok ((jsonParseStr cs []).map Value.string id)
      else if jsonDigit c || c = 45 then jsonParseNum ops (c :: cs)
      else if c = 123 then jsonParseObjLoop ops fuel cs []
      else if c = 91 then jsonParseArr ops fuel cs []
      else if c = 116 then .ok (jsonLiteralValue (.bool true) [114, 117, 101] c cs)
      else if c = 102 then .ok (jsonLiteralValue (.bool false) [97, 108, 115, 101] c cs)
      else if c = 110 then .ok (jsonLiteralValue .null [117, 108, 108] c cs)
      else .ok (.null, c :: cs)

/-- The loop of `json-parse-arr`, after the opening bracket. -/
def jsonParseArr (ops : DoubleOps D) : ℕ → List ℕ → List (Datum D) → Exec Exn (Datum D × List ℕ)
  | 0, _, _ => .error .diverges
  | fuel + 1, cs, elements =>
    match jsonSkipWs cs with
    | [] => .ok (.list elements.reverse, [])
    | c :: cs =>
      if c = 93 then .ok (.list elements.reverse, cs)
      else do
        let (value, cs) ← jsonParseValue ops fuel (c :: cs)
        match jsonSkipWs cs with
        | [] => .ok (.list (value :: elements).reverse, [])
        | c :: cs =>
          if c = 44 then jsonParseArr ops fuel cs (value :: elements)
          else if c = 93 then .ok (.list (value :: elements).reverse, cs)
          else .ok (.list (value :: elements).reverse, c :: cs)

/-- `json-parse-obj-loop`, after the opening brace. -/
def jsonParseObjLoop (ops : DoubleOps D) : ℕ → List ℕ → List (List UInt8 × Datum D) →
    Exec Exn (Datum D × List ℕ)
  | 0, _, _ => .error .diverges
  | fuel + 1, cs, ht =>
    match jsonSkipWs cs with
    | [] => .ok (.table ht, [])
    | c :: cs =>
      if c = 125 then .ok (.table ht, cs)
      else if c = 34 then
        let (key, cs) := jsonParseStr cs []
        match jsonSkipWs cs with
        | [] => .ok (.table ht, [])
        | c :: cs =>
          if c ≠ 58 then .ok (.table ht, c :: cs)
          else do
            let (value, cs) ← jsonParseValue ops fuel cs
            let ht := hashSet ht key value
            match jsonSkipWs cs with
            | [] => .ok (.table ht, [])
            | c :: cs =>
              if c = 44 then jsonParseObjLoop ops fuel cs ht
              else if c = 125 then .ok (.table ht, cs)
              else .ok (.table ht, c :: cs)
      else .ok (.table ht, c :: cs)

end

def jsonParseDocument (ops : DoubleOps D) (cs : List ℕ) : Exec Exn (Datum D × List ℕ) :=
  jsonParseValue ops (2 * cs.length + 1) cs

/-- The loop of `json-structural-error`. -/
def jsonStructuralLoop : List ℕ → ℤ → ℤ → Bool → Bool → Option String
  | [], braceDepth, bracketDepth, inStr, _ =>
    if inStr then some "json-try-parse: unterminated string literal"
    else if 0 < braceDepth then some "json-try-parse: missing closing brace"
    else if 0 < bracketDepth then some "json-try-parse: missing closing bracket"
    else none
  | c :: cs, braceDepth, bracketDepth, inStr, escape =>
    if inStr then
      if escape then jsonStructuralLoop cs braceDepth bracketDepth true false
      else if c = 92 then jsonStructuralLoop cs braceDepth bracketDepth true true
      else if c = 34 then jsonStructuralLoop cs braceDepth bracketDepth false false
      else jsonStructuralLoop cs braceDepth bracketDepth true false
    else if c = 34 then jsonStructuralLoop cs braceDepth bracketDepth true false
    else if c = 123 then jsonStructuralLoop cs (braceDepth + 1) bracketDepth false false
    else if c = 125 then jsonStructuralLoop cs (braceDepth - 1) bracketDepth false false
    else if c = 91 then jsonStructuralLoop cs braceDepth (bracketDepth + 1) false false
    else if c = 93 then jsonStructuralLoop cs braceDepth (bracketDepth - 1) false false
    else jsonStructuralLoop cs braceDepth bracketDepth false false

def jsonStructuralError (cs : List ℕ) : Option String := jsonStructuralLoop cs 0 0 false false

/-- The part of `json-try-parse` that works on the characters of a string. Positions are given by
what follows them. -/
def jsonTryParseCodes (ops : DoubleOps D) (cs : List ℕ) : Exec Exn (Except String (Datum D)) :=
  if cs = [] then .ok (.error "json-try-parse: empty input")
  else
    let start := jsonSkipWs cs
    if start = [] then .ok (.error "json-try-parse: input is whitespace only")
    else
      match jsonStructuralError cs with
      | some message => .ok (.error message)
      | none => do
          let (value, rest) ← jsonParseDocument ops cs
          if start.length ≤ rest.length then
            .ok (.error "json-try-parse: no JSON value recognized")
          else if jsonSkipWs rest ≠ [] then
            .ok (.error "json-try-parse: trailing garbage after JSON value")
          else .ok (.ok value)

/-- `json-try-parse`: `json-err` with its message, or `json-ok` with the value. -/
def jsonTryParse (ops : DoubleOps D) : Datum D → Exec Exn (Except String (Datum D))
  | .string str => do
      let cs ← stringCodes str
      jsonTryParseCodes ops cs
  | _ => .ok (.error "json-try-parse: input is not a string")

def jsonParse (ops : DoubleOps D) (str : Datum D) : Exec Exn (Datum D) := do
  match ← jsonTryParse ops str with
  | .ok value => .ok value
  | .error _ => .ok .null

/-! ### White space -/

variable {c : ℕ} {cs : List ℕ}

theorem jsonSkipWs_of_not (h : jsonWhitespace c = false) (cs : List ℕ) :
    jsonSkipWs (c :: cs) = c :: cs := by
  rw [jsonSkipWs, h]
  rfl

theorem jsonWhitespace_of_skip {cs' : List ℕ} (h : jsonSkipWs cs = c :: cs') :
    jsonWhitespace c = false := by
  induction cs with
  | nil => simp [jsonSkipWs] at h
  | cons d cs ih =>
    rw [jsonSkipWs] at h
    split at h
    next => exact ih h
    next hd =>
      rw [← (List.cons.inj h).1]
      simpa using hd

theorem jsonSkipWs_skip (cs : List ℕ) : jsonSkipWs (jsonSkipWs cs) = jsonSkipWs cs := by
  cases h : jsonSkipWs cs with
  | nil => rfl
  | cons c rest => exact jsonSkipWs_of_not (jsonWhitespace_of_skip h) rest

theorem length_jsonSkipWs_le (cs : List ℕ) : (jsonSkipWs cs).length ≤ cs.length := by
  induction cs with
  | nil => simp [jsonSkipWs]
  | cons c cs ih =>
    rw [jsonSkipWs]
    split
    next => exact Nat.le_succ_of_le ih
    next => exact Nat.le_refl _

/-! ### The scan, part by part -/

/-- A character that the scan does not count. -/
def uncounted (c : ℕ) : Bool := c ≠ 34 && c ≠ 123 && c ≠ 125 && c ≠ 91 && c ≠ 93

theorem jsonStructuralLoop_uncounted (h : ∀ c ∈ cs, uncounted c = true) (rest : List ℕ) (b k : ℤ) :
    jsonStructuralLoop (cs ++ rest) b k false false = jsonStructuralLoop rest b k false false := by
  induction cs with
  | nil => rfl
  | cons c cs ih =>
    rw [List.forall_mem_cons] at h
    have hc := h.1
    simp only [uncounted, Bool.and_eq_true, decide_eq_true_eq] at hc
    rw [List.cons_append, jsonStructuralLoop]
    simp [hc, ih h.2]

theorem uncounted_of_whitespace (h : jsonWhitespace c = true) : uncounted c = true := by
  simp only [jsonWhitespace, Bool.or_eq_true, decide_eq_true_eq] at h
  simp only [uncounted, Bool.and_eq_true, decide_eq_true_eq]
  omega

theorem uncounted_of_numberChar (h : numberChar c = true) : uncounted c = true := by
  simp only [numberChar, jsonDigit, Bool.or_eq_true, Bool.and_eq_true, decide_eq_true_eq] at h
  simp only [uncounted, Bool.and_eq_true, decide_eq_true_eq]
  omega

theorem jsonStructuralLoop_skip (cs : List ℕ) (b k : ℤ) :
    jsonStructuralLoop (jsonSkipWs cs) b k false false = jsonStructuralLoop cs b k false false := by
  induction cs with
  | nil => rfl
  | cons c cs ih =>
    rw [jsonSkipWs]
    split
    next hc =>
      rw [ih]
      have hpass := @jsonStructuralLoop_uncounted [c] (by simpa using uncounted_of_whitespace hc)
      exact (hpass cs b k).symm
    next => rfl

/-! ### The descent ends -/

theorem length_jsonParseStr_le (cs : List ℕ) (result : List UInt8) :
    (jsonParseStr cs result).2.length ≤ cs.length := by
  fun_induction jsonParseStr cs result with
  | case1 => exact Nat.le_refl _
  | case2 => exact Nat.le_succ _
  | case3 => exact Nat.le_refl _
  | case4 result next cs _ ih => exact ih.trans (Nat.le_add_right _ 2)
  | case5 c cs result _ _ ih => exact ih.trans (Nat.le_succ _)

theorem length_jsonNumLoop_le (cs : List ℕ) (result : List Char) (hasDot hasExp : Bool) :
    (jsonNumLoop cs result hasDot hasExp).2.length ≤ cs.length := by
  fun_induction jsonNumLoop cs result hasDot hasExp with
  | case1 => exact Nat.le_refl _
  | case2 | case3 | case4 | case5 => exact Nat.le_succ_of_le (by assumption)
  | case6 => exact Nat.le_refl _

theorem ofNat_ne {d : Char} (hc : c < 128) (hd : c ≠ d.toNat) : Char.ofNat c ≠ d := by
  intro heq
  rw [← heq, toNat_char_ofNat hc] at hd
  exact hd rfl

theorem jsonNumLoop_text {result : List Char} {hasDot hasExp : Bool}
    (h : '/' ∉ result ∧ '#' ∉ result) :
    '/' ∉ (jsonNumLoop cs result hasDot hasExp).1 ∧ '#' ∉ (jsonNumLoop cs result hasDot hasExp).1 := by
  have hstep {d : Char} {result : List Char} (hd : d ≠ '/' ∧ d ≠ '#')
      (h : '/' ∉ result ∧ '#' ∉ result) : '/' ∉ result ++ [d] ∧ '#' ∉ result ++ [d] := by
    simp [h, Ne.symm hd.1, Ne.symm hd.2]
  fun_induction jsonNumLoop cs result hasDot hasExp with
  | case1 | case6 => exact h
  | case2 c cs result hasDot hasExp hc ih =>
    simp only [jsonDigit, Bool.and_eq_true, decide_eq_true_eq] at hc
    refine ih (hstep ⟨?_, ?_⟩ h)
    · exact ofNat_ne (by omega) (show c ≠ 47 by omega)
    · exact ofNat_ne (by omega) (show c ≠ 35 by omega)
  | case3 c cs result hasDot hasExp _ _ ih => exact ih (hstep (by simp) h)
  | case4 c cs result hasDot hasExp _ _ _ ih => exact ih (hstep (by simp) h)
  | case5 c cs result hasDot hasExp _ _ _ hc ih =>
    simp only [Bool.and_eq_true, Bool.or_eq_true, decide_eq_true_eq] at hc
    refine ih (hstep ⟨?_, ?_⟩ h)
    · exact ofNat_ne (by omega) (show c ≠ 47 by omega)
    · exact ofNat_ne (by omega) (show c ≠ 35 by omega)

theorem jsonParseNum_total (ops : DoubleOps D) (cs : List ℕ) :
    ∃ v rest, jsonParseNum ops cs = .ok (v, rest) ∧ rest.length ≤ cs.length := by
  by_cases hneg : cs.head? = some 45
  · obtain ⟨hbar, hhash⟩ := @jsonNumLoop_text cs.tail [] false false (by simp)
    obtain ⟨t, ht⟩ := @stringToNumber_total D ops
      ('-' :: (jsonNumLoop cs.tail [] false false).1) (by simp [hbar, hhash])
    refine ⟨ofTagged t, (jsonNumLoop cs.tail [] false false).2, ?_, ?_⟩
    · simp only [jsonParseNum, hneg, if_true, ht, ok_bind]
    · refine (length_jsonNumLoop_le cs.tail [] false false).trans ?_
      rw [List.length_tail]
      exact Nat.sub_le _ _
  · obtain ⟨t, ht⟩ := stringToNumber_total ops (@jsonNumLoop_text cs [] false false (by simp))
    refine ⟨ofTagged t, (jsonNumLoop cs [] false false).2, ?_, length_jsonNumLoop_le cs [] _ _⟩
    simp only [jsonParseNum, hneg, if_false, ht, ok_bind]

theorem length_jsonLiteralValue_le (value : Datum D) (letters : List ℕ) (c : ℕ) (cs : List ℕ) :
    (jsonLiteralValue value letters c cs).2.length ≤ cs.length + 1 := by
  rw [jsonLiteralValue]
  split_ifs
  · rw [List.length_drop]
    omega
  · exact Nat.le_refl _

/-- A parse answers, and leaves at most `n` characters. -/
def Answers (x : Exec Exn (Datum D × List ℕ)) (n : ℕ) : Prop :=
  ∃ v rest, x = .ok (v, rest) ∧ rest.length ≤ n

namespace Answers

variable {x y : Exec Exn (Datum D × List ℕ)} {m n : ℕ}

theorem ok {r : Datum D × List ℕ} (h : r.2.length ≤ n) : Answers (.ok r) n := ⟨r.1, r.2, rfl, h⟩

theorem mono (h : Answers x m) (hmn : m ≤ n) : Answers x n := by
  obtain ⟨v, rest, hx, hlen⟩ := h
  exact ⟨v, rest, hx, hlen.trans hmn⟩

theorem ite {c : Prop} [Decidable c] (hx : Answers x n) (hy : Answers y n) :
    Answers (if c then x else y) n := by
  split
  next => exact hx
  next => exact hy

end Answers

theorem jsonSkipWs_cases (cs : List ℕ) :
    jsonSkipWs cs = [] ∨ ∃ c cs', jsonSkipWs cs = c :: cs' ∧ cs'.length + 1 ≤ cs.length := by
  have hskip := length_jsonSkipWs_le cs
  cases h : jsonSkipWs cs with
  | nil => exact .inl rfl
  | cons c cs' =>
    rw [h] at hskip
    exact .inr ⟨c, cs', rfl, hskip⟩

section Descent

variable {ops : DoubleOps D} {fuel : ℕ}

variable {cs : List ℕ}

theorem jsonParseValue_answers (harray : ∀ cs elements, 2 * cs.length + 1 < fuel →
      Answers (jsonParseArr ops fuel cs elements) cs.length)
    (hobject : ∀ cs ht, 2 * cs.length < fuel →
      Answers (jsonParseObjLoop ops fuel cs ht) cs.length) (hfuel : 2 * cs.length < fuel + 1) :
    Answers (jsonParseValue ops (fuel + 1) cs) cs.length := by
  rw [jsonParseValue]
  rcases jsonSkipWs_cases cs with hskip | ⟨c, cs', hskip, hlen⟩
  · rw [hskip]
    exact .ok (Nat.zero_le _)
  rw [hskip]
  have hliteral (v : Datum D) (letters : List ℕ) :
      Answers (.ok (jsonLiteralValue v letters c cs')) cs.length :=
    .ok ((length_jsonLiteralValue_le v letters c cs').trans hlen)
  refine .ite (.ok ((length_jsonParseStr_le cs' []).trans (by omega))) (.ite ?_ (.ite ?_ (.ite ?_
    (.ite (hliteral _ _) (.ite (hliteral _ _) (.ite (hliteral _ _) (.ok hlen)))))))
  · exact .mono (jsonParseNum_total ops (c :: cs')) hlen
  · exact .mono (hobject cs' [] (by omega)) (by omega)
  · exact .mono (harray cs' [] (by omega)) (by omega)

theorem jsonParseArr_answers
    (hvalue : ∀ cs, 2 * cs.length < fuel → Answers (jsonParseValue ops fuel cs) cs.length)
    (harray : ∀ cs elements, 2 * cs.length + 1 < fuel →
      Answers (jsonParseArr ops fuel cs elements) cs.length) {elements : List (Datum D)}
    (hfuel : 2 * cs.length + 1 < fuel + 1) :
    Answers (jsonParseArr ops (fuel + 1) cs elements) cs.length := by
  rw [jsonParseArr]
  rcases jsonSkipWs_cases cs with hskip | ⟨c, cs', hskip, hlen⟩
  · rw [hskip]
    exact .ok (Nat.zero_le _)
  rw [hskip]
  refine .ite (.ok (by dsimp only; omega)) ?_
  obtain ⟨v, after, hread, hafter⟩ := hvalue (c :: cs') (by rw [List.length_cons]; omega)
  rw [List.length_cons] at hafter
  rw [hread, ok_bind]
  dsimp only
  rcases jsonSkipWs_cases after with hskip' | ⟨c₃, cs₃, hskip', hlen'⟩
  · rw [hskip']
    exact .ok (Nat.zero_le _)
  rw [hskip']
  refine .ite (.mono (harray cs₃ (v :: elements) (by omega)) (by omega)) (.ite (.ok ?_) (.ok ?_))
  · dsimp only
    omega
  · rw [List.length_cons]
    omega

theorem jsonParseObjLoop_answers
    (hvalue : ∀ cs, 2 * cs.length < fuel → Answers (jsonParseValue ops fuel cs) cs.length)
    (hobject : ∀ cs ht, 2 * cs.length < fuel →
      Answers (jsonParseObjLoop ops fuel cs ht) cs.length) {ht : List (List UInt8 × Datum D)}
    (hfuel : 2 * cs.length < fuel + 1) :
    Answers (jsonParseObjLoop ops (fuel + 1) cs ht) cs.length := by
  rw [jsonParseObjLoop]
  rcases jsonSkipWs_cases cs with hskip | ⟨c, cs', hskip, hlen⟩
  · rw [hskip]
    exact .ok (Nat.zero_le _)
  rw [hskip]
  refine .ite (.ok (by dsimp only; omega)) (.ite ?_ (.ok hlen))
  have hstr := length_jsonParseStr_le cs' []
  dsimp only
  rcases jsonSkipWs_cases (jsonParseStr cs' []).2 with hskip₃ | ⟨c₃, cs₃, hskip₃, hlen₃⟩
  · rw [hskip₃]
    exact .ok (Nat.zero_le _)
  rw [hskip₃]
  refine .ite (.ok (by rw [List.length_cons]; omega)) ?_
  obtain ⟨v, after, hread, hafter⟩ := hvalue cs₃ (by omega)
  rw [hread, ok_bind]
  dsimp only
  rcases jsonSkipWs_cases after with hskip₄ | ⟨c₄, cs₄, hskip₄, hlen₄⟩
  · rw [hskip₄]
    exact .ok (Nat.zero_le _)
  rw [hskip₄]
  refine .ite (.mono (hobject cs₄ _ (by omega)) (by omega)) (.ite (.ok ?_) (.ok ?_))
  · dsimp only
    omega
  · rw [List.length_cons]
    omega

end Descent

theorem jsonParse_total (ops : DoubleOps D) (fuel : ℕ) :
    (∀ cs, 2 * cs.length < fuel → Answers (jsonParseValue ops fuel cs) cs.length) ∧
    (∀ cs elements, 2 * cs.length + 1 < fuel →
      Answers (jsonParseArr ops fuel cs elements) cs.length) ∧
    (∀ cs ht, 2 * cs.length < fuel → Answers (jsonParseObjLoop ops fuel cs ht) cs.length) := by
  induction fuel with
  | zero => exact ⟨by omega, by omega, by omega⟩
  | succ fuel ih =>
    obtain ⟨hvalue, harray, hobject⟩ := ih
    exact ⟨fun cs hfuel => jsonParseValue_answers harray hobject hfuel,
      fun cs elements hfuel => jsonParseArr_answers hvalue harray hfuel,
      fun cs ht hfuel => jsonParseObjLoop_answers hvalue hobject hfuel⟩

/-- **`json-try-parse` answers for every string** that `string-ref` can read, and `json-parse` returns
the value of a success and null for an error. Neither raises an error, nor calls itself for ever. -/
theorem jsonTryParse_answers (ops : DoubleOps D) {str : List UInt8} {cs : List ℕ}
    (h : stringCodes str = .ok cs) :
    ∃ r, jsonTryParse ops (.string str) = .ok r ∧
      jsonParse ops (.string str) = .ok (r.toOption.getD .null) := by
  have htry : ∃ r, jsonTryParse ops (.string str) = .ok r := by
    obtain ⟨v, rest, hdocument, -⟩ := (jsonParse_total ops (2 * cs.length + 1)).1 cs (by omega)
    rw [jsonTryParse, h, ok_bind, jsonTryParseCodes]
    dsimp only
    split_ifs
    · exact ⟨_, rfl⟩
    · exact ⟨_, rfl⟩
    · cases jsonStructuralError cs with
      | some message => exact ⟨_, rfl⟩
      | none =>
        dsimp only
        rw [jsonParseDocument, hdocument, ok_bind]
        dsimp only
        split_ifs
        · exact ⟨_, rfl⟩
        · exact ⟨_, rfl⟩
        · exact ⟨_, rfl⟩
  obtain ⟨r, hr⟩ := htry
  refine ⟨r, hr, ?_⟩
  rw [jsonParse, hr, ok_bind]
  cases r with
  | ok value => rfl
  | error message => rfl

/-- The text `[1,{"a":null}]`. -/
def nestedText : List UInt8 := [91, 49, 44, 123, 34, 97, 34, 58, 110, 117, 108, 108, 125, 93]

/-- An array with an object in it is answered with its value. -/
theorem jsonTryParse_answers_nested :
    ∃ r, jsonTryParse DoubleOps.unit (.string nestedText) = .ok r ∧
      jsonParse DoubleOps.unit (.string nestedText) = .ok (r.toOption.getD .null) ∧
      r = .ok (.list [.number (.int64 1), .table [([97], .null)]]) := by
  have hcodes : stringCodes nestedText = .ok (codes nestedText) :=
    stringCodes_ascii (by simp [Ascii, nestedText])
  obtain ⟨r, hr, hparse⟩ := jsonTryParse_answers DoubleOps.unit hcodes
  refine ⟨r, hr, hparse, ?_⟩
  have hvalue : jsonTryParse DoubleOps.unit (.string nestedText) =
    .ok (.ok (.list [.number (.int64 1), .table [([97], .null)]])) := rfl
  exact Except.ok.inj (hr.symm.trans hvalue)

end Eshkol.Core.Json
