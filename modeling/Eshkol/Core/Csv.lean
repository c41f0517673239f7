import Eshkol.Core.Strings

/-!
# CSV

The generator and the parser of `lib/core/data/csv.esk`. The generator puts a field in quotes when
it has a comma, a quote or a newline in it. The parser first splits the text into lines, drops the
empty ones, and then walks over a line character by character; an empty field is read as null.

A parsed field is a list of bytes, since the parser makes it with `make-string`, which keeps one
byte of a character. Because the lines are split before the quotes are looked at, a newline in a
field ends its row. The round trip is therefore stated for fields of ASCII characters other than
NUL and newline.
-/

namespace Eshkol.Core

/-! ### Generation -/

/-- A field that the generator writes. -/
inductive CsvField (N : Type) : Type
  | null
  | string (s : List Char)
  | number (x : N)

def csvNeedsQuoting (str : List Char) : Bool :=
  stringContains str ",".toList || stringContains str "\"".toList || stringContains str "\n".toList

def csvEscapeQuotes (str : List Char) : List Char := stringReplace str "\"".toList "\"\"".toList

section Generation

variable {N : Type} (numberToString : N → List Char)

def csvEscapeField (field : CsvField N) : List Char :=
  let str := match field with
    | .null => []
    | .string s => s
    | .number x => numberToString x
  if csvNeedsQuoting str then "\"".toList ++ csvEscapeQuotes str ++ "\"".toList else str

def csvStringifyRowHelper : List (CsvField N) → Bool → List Char
  | [], _ => []
  | field :: row, first =>
    let field := csvEscapeField numberToString field
    let rest := csvStringifyRowHelper row false
    if first then field ++ rest else ",".toList ++ field ++ rest

def csvStringifyRow (row : List (CsvField N)) : List Char :=
  csvStringifyRowHelper numberToString row true

def csvStringifyHelper : List (List (CsvField N)) → Bool → List Char
  | [], _ => []
  | row :: rows, first =>
    let rowStr := csvStringifyRow numberToString row
    let rest := csvStringifyHelper rows false
    if first then rowStr ++ rest else "\n".toList ++ rowStr ++ rest

def csvStringify (rows : List (List (CsvField N))) : List Char :=
  csvStringifyHelper numberToString rows true

end Generation

/-! ### Parsing -/

/-- `csv-field-value`: null, or the bytes of a string. -/
def csvFieldValue (str : List UInt8) : Option (List UInt8) := if str = [] then none else some str

/-- `csv-split-fields-helper`, over the characters from `pos` on, read exactly (as ASCII is). -/
def csvSplitFieldsHelper : List Char → List UInt8 → List (Option (List UInt8)) → Bool →
    List (Option (List UInt8))
  | [], current, fields, _ => (csvFieldValue current :: fields).reverse
  | '"' :: '"' :: line, current, fields, true =>
    csvSplitFieldsHelper line (current ++ makeString 1 '"') fields true
  | '"' :: line, current, fields, inQuotes => csvSplitFieldsHelper line current fields !inQuotes
  | ch :: line, current, fields, inQuotes =>
    if ch = ',' && !inQuotes then
      csvSplitFieldsHelper line [] (csvFieldValue current :: fields) false
    else csvSplitFieldsHelper line (current ++ makeString 1 ch) fields inQuotes

/-- `csv-split-fields` and `csv-parse-line`. -/
def csvSplitFields (line : List Char) : List (Option (List UInt8)) :=
  if line = [] then [] else csvSplitFieldsHelper line [] [] false

def csvParseLines : List (List Char) → List (List (Option (List UInt8)))
  | [] => []
  | line :: lines =>
    if line = [] then csvParseLines lines else csvSplitFields line :: csvParseLines lines

def csvParse (str : List Char) : List (List (Option (List UInt8))) :=
  csvParseLines (stringSplit str ['\n'])

/-! ### One field -/

/-- A character that `make-string` keeps, that does not end a C string and does not end a line. -/
def csvSafe (c : Char) : Prop := c.toNat < 128 ∧ c ≠ '\x00' ∧ c ≠ '\n'

variable {str s : List Char}

theorem stringContains_char {c : Char} : stringContains str [c] = true ↔ c ∈ str := by
  rw [stringContains, decide_eq_true_eq]
  constructor
  · intro h
    exact h.subset (List.mem_singleton_self c)
  · intro h
    obtain ⟨front, back, rfl⟩ := List.append_of_mem h
    exact ⟨front, back, by simp⟩

theorem csvNeedsQuoting_eq_false (h : csvNeedsQuoting str = false) : ',' ∉ str ∧ '"' ∉ str := by
  rw [csvNeedsQuoting, Bool.or_eq_false_iff, Bool.or_eq_false_iff] at h
  constructor
  · intro hmem
    exact Bool.false_ne_true (h.1.1.symm.trans (stringContains_char.mpr hmem))
  · intro hmem
    exact Bool.false_ne_true (h.1.2.symm.trans (stringContains_char.mpr hmem))

theorem csvEscapeQuotes_eq (h : '\x00' ∉ str) :
    csvEscapeQuotes str = str.flatMap fun c => if c = '"' then ['"', '"'] else [c] :=
  stringReplace_char (by decide) h

theorem csvSplitFieldsHelper_char {c : Char} (hquote : c ≠ '"') {inQuotes : Bool}
    (hcomma : c = ',' → inQuotes = true) (line : List Char) (current : List UInt8)
    (fields : List (Option (List UInt8))) :
    csvSplitFieldsHelper (c :: line) current fields inQuotes =
      csvSplitFieldsHelper line (current ++ makeString 1 c) fields inQuotes := by
  rw [csvSplitFieldsHelper]
  · rw [if_neg]
    intro h
    simp only [Bool.and_eq_true, decide_eq_true_eq, Bool.not_eq_true'] at h
    rw [hcomma h.1] at h
    cases h.2
  · exact hquote
  · exact fun _ _ heq => absurd heq hquote

theorem csvSplitFieldsHelper_open (line : List Char) (current : List UInt8)
    (fields : List (Option (List UInt8))) :
    csvSplitFieldsHelper ('"' :: line) current fields false =
      csvSplitFieldsHelper line current fields true := by
  rw [csvSplitFieldsHelper]
  · rfl
  · exact fun _ h => absurd h Bool.false_ne_true

theorem csvSplitFieldsHelper_plain (hascii : ∀ c ∈ s, c.toNat < 128) (hcomma : ',' ∉ s)
    (hquote : '"' ∉ s) (rest : List Char) (current : List UInt8)
    (fields : List (Option (List UInt8))) :
    csvSplitFieldsHelper (s ++ rest) current fields false =
      csvSplitFieldsHelper rest (current ++ Codec.Utf8.encode s) fields false := by
  induction s generalizing current with
  | nil => simp
  | cons c s ih =>
    rw [List.mem_cons, not_or] at hcomma hquote
    rw [List.cons_append, csvSplitFieldsHelper_char (Ne.symm hquote.1)
      (fun h => absurd h.symm hcomma.1), ih (fun d hd => hascii d (by simp [hd])) hcomma.2 hquote.2,
      encode_cons_ascii (hascii c (by simp)), List.append_assoc]

theorem csvSplitFieldsHelper_quoted {rest : List Char} (hascii : ∀ c ∈ s, c.toNat < 128)
    (hrest : rest.head? ≠ some '"') (current : List UInt8) (fields : List (Option (List UInt8))) :
    csvSplitFieldsHelper ((s.flatMap fun c => if c = '"' then ['"', '"'] else [c]) ++ '"' :: rest)
        current fields true =
      csvSplitFieldsHelper rest (current ++ Codec.Utf8.encode s) fields false := by
  induction s generalizing current with
  | nil =>
    rw [List.flatMap_nil, List.nil_append, csvSplitFieldsHelper]
    · simp
    · rintro line _ rfl
      exact hrest rfl
  | cons c s ih =>
    have hrec := fun current => ih (fun d hd => hascii d (by simp [hd])) current
    rw [List.flatMap_cons, List.append_assoc, encode_cons_ascii (hascii c (by simp)),
      ← List.append_assoc current]
    by_cases hc : c = '"'
    · subst hc
      rw [if_pos rfl, ← hrec]
      rfl
    · rw [if_neg hc, ← hrec]
      exact csvSplitFieldsHelper_char hc (fun _ => rfl) _ _ _

theorem csvSplitFieldsHelper_escape {N : Type} {numberToString : N → List Char} {rest : List Char}
    (hsafe : ∀ c ∈ s, csvSafe c) (hrest : rest.head? ≠ some '"')
    (fields : List (Option (List UInt8))) :
    csvSplitFieldsHelper (csvEscapeField numberToString (.string s) ++ rest) [] fields false =
      csvSplitFieldsHelper rest (Codec.Utf8.encode s) fields false := by
  have hascii : ∀ c ∈ s, c.toNat < 128 := fun c hc => (hsafe c hc).1
  rw [csvEscapeField]
  split
  · have hzero : '\x00' ∉ s := fun hmem => (hsafe _ hmem).2.1 rfl
    rw [csvEscapeQuotes_eq hzero, List.append_assoc, List.append_assoc]
    exact (csvSplitFieldsHelper_open _ _ _).trans
      (csvSplitFieldsHelper_quoted hascii hrest [] fields)
  · next hneeds =>
      obtain ⟨hcomma, hquote⟩ := csvNeedsQuoting_eq_false (Bool.eq_false_of_not_eq_true hneeds)
      exact csvSplitFieldsHelper_plain hascii hcomma hquote rest [] fields

/-! ### Rows -/

/-- What the parser makes of a field. -/
def csvRead (s : List Char) : Option (List UInt8) :=
  if s = [] then none else some (Codec.Utf8.encode s)

theorem csvFieldValue_encode (s : List Char) : csvFieldValue (Codec.Utf8.encode s) = csvRead s := by
  have hnil : Codec.Utf8.encode s = [] ↔ s = [] := by
    have hlength := length_le_length_encode s
    constructor
    · intro h
      rw [h, List.length_nil] at hlength
      exact List.length_eq_zero_iff.mp (Nat.le_zero.mp hlength)
    · rintro rfl
      rfl
  rw [csvFieldValue, csvRead]
  simp only [hnil]

section RoundTrip

variable {N : Type} {numberToString : N → List Char}

theorem head?_csvStringifyRowHelper (row : List (List Char)) :
    (csvStringifyRowHelper numberToString (row.map .string) false).head? ≠ some '"' := by
  cases row with
  | nil => simp [csvStringifyRowHelper]
  | cons t row => simp [csvStringifyRowHelper]

variable {row : List (List Char)} {rows : List (List (List Char))}

theorem csvSplitFieldsHelper_row (hsafe : ∀ s ∈ row, ∀ c ∈ s, csvSafe c) (first : List Char)
    (fields : List (Option (List UInt8))) :
    csvSplitFieldsHelper (csvStringifyRowHelper numberToString (row.map .string) false)
        (Codec.Utf8.encode first) fields false =
      fields.reverse ++ csvRead first :: row.map csvRead := by
  induction row generalizing first fields with
  | nil =>
    rw [List.map_nil, csvStringifyRowHelper, csvSplitFieldsHelper, csvFieldValue_encode]
    simp
  | cons s row ih =>
    have hcomma : ∀ line : List Char, csvSplitFieldsHelper (',' :: line)
        (Codec.Utf8.encode first) fields false =
          csvSplitFieldsHelper line [] (csvFieldValue (Codec.Utf8.encode first) :: fields)
            false := by
      intro line
      rw [csvSplitFieldsHelper]
      · rfl
      · simp
      · simp
    rw [List.map_cons, csvStringifyRowHelper]
    simp only [Bool.false_eq_true, if_false]
    rw [List.append_assoc, show ",".toList = [','] from rfl, List.singleton_append, hcomma,
      csvSplitFieldsHelper_escape (hsafe s (by simp)) (head?_csvStringifyRowHelper row),
      ih (fun t ht => hsafe t (by simp [ht])), csvFieldValue_encode]
    simp

theorem csvEscapeField_eq_nil_iff {s : List Char} :
    csvEscapeField numberToString (.string s) = [] ↔ s = [] := by
  rw [csvEscapeField]
  split
  · next hneeds =>
      simp only [List.append_eq_nil_iff]
      constructor
      · rintro ⟨⟨h, -⟩, -⟩
        simp at h
      · rintro rfl
        simp [csvNeedsQuoting, stringContains] at hneeds
  · rfl

theorem csvStringifyRow_cons (s : List Char) (row : List (List Char)) :
    csvStringifyRow numberToString ((s :: row).map .string) =
      csvEscapeField numberToString (.string s) ++
        csvStringifyRowHelper numberToString (row.map .string) false := by
  rw [csvStringifyRow, List.map_cons, csvStringifyRowHelper]
  rfl

theorem csvStringifyRow_eq_nil_iff (hne : row ≠ []) :
    csvStringifyRow numberToString (row.map .string) = [] ↔ row = [[]] := by
  obtain ⟨s, row, rfl⟩ := List.exists_cons_of_ne_nil hne
  rw [csvStringifyRow_cons, List.append_eq_nil_iff, csvEscapeField_eq_nil_iff]
  cases row with
  | nil => simp [csvStringifyRowHelper]
  | cons t row => simp [csvStringifyRowHelper]

theorem csvSplitFields_row (hne : row ≠ []) (hsafe : ∀ s ∈ row, ∀ c ∈ s, csvSafe c)
    (hrow : row ≠ [[]]) :
    csvSplitFields (csvStringifyRow numberToString (row.map .string)) = row.map csvRead := by
  rw [csvSplitFields, if_neg (mt (csvStringifyRow_eq_nil_iff hne).mp hrow)]
  obtain ⟨s, row, rfl⟩ := List.exists_cons_of_ne_nil hne
  rw [csvStringifyRow_cons,
    csvSplitFieldsHelper_escape (hsafe s (by simp)) (head?_csvStringifyRowHelper row),
    csvSplitFieldsHelper_row fun t ht => hsafe t (by simp [ht])]
  simp

/-! ### Lines -/

theorem mem_csvEscapeField {s : List Char} (hsafe : ∀ c ∈ s, csvSafe c) {c : Char}
    (h : c ∈ csvEscapeField numberToString (.string s)) : c ∈ s ∨ c = '"' := by
  rw [csvEscapeField] at h
  split at h
  · have hzero : '\x00' ∉ s := fun hmem => (hsafe _ hmem).2.1 rfl
    rw [csvEscapeQuotes_eq hzero, List.mem_append, List.mem_append, List.mem_flatMap] at h
    rcases h with (h | ⟨d, hd, h⟩) | h
    · exact .inr (by simpa using h)
    · split at h
      · exact .inr (by simpa using h)
      · exact .inl (List.mem_singleton.mp h ▸ hd)
    · exact .inr (by simpa using h)
  · exact .inl h

theorem mem_csvStringifyRowHelper (hsafe : ∀ s ∈ row, ∀ c ∈ s, csvSafe c) {first : Bool} {c : Char}
    (h : c ∈ csvStringifyRowHelper numberToString (row.map .string) first) :
    c ≠ '\x00' ∧ c ≠ '\n' := by
  induction row generalizing first with
  | nil => simp [csvStringifyRowHelper] at h
  | cons s row ih =>
    have hfield : c ∈ csvEscapeField numberToString (.string s) → c ≠ '\x00' ∧ c ≠ '\n' := by
      intro hmem
      rcases mem_csvEscapeField (hsafe s (by simp)) hmem with hc | rfl
      · exact (hsafe s (by simp) c hc).2
      · decide
    have hrest := @ih (fun t ht => hsafe t (by simp [ht])) false
    rw [List.map_cons, csvStringifyRowHelper] at h
    split at h
    · rcases List.mem_append.mp h with h | h
      · exact hfield h
      · exact hrest h
    · rw [List.mem_append, List.mem_append] at h
      rcases h with (h | h) | h
      · obtain rfl : c = ',' := by simpa using h
        decide
      · exact hfield h
      · exact hrest h

theorem stringSplitLoop_rows (hsafe : ∀ row ∈ rows, ∀ s ∈ row, ∀ c ∈ s, csvSafe c)
    {line : List Char} (hline : '\n' ∉ line) :
    stringSplitLoop ['\n'] [] 0
        (line ++ csvStringifyHelper numberToString (rows.map (List.map .string)) false) =
      line :: rows.map fun row => csvStringifyRow numberToString (row.map .string) := by
  induction rows generalizing line with
  | nil =>
    rw [List.map_nil, csvStringifyHelper, List.append_nil, stringSplitLoop_char_notMem hline]
    rfl
  | cons row rows ih =>
    have hrow : '\n' ∉ csvStringifyRow numberToString (row.map .string) :=
      fun hmem => (mem_csvStringifyRowHelper (hsafe row (by simp)) hmem).2 rfl
    rw [List.map_cons, csvStringifyHelper]
    simp only [Bool.false_eq_true, if_false]
    rw [List.append_assoc, show "\n".toList = ['\n'] from rfl, List.singleton_append,
      stringSplitLoop_char_append hline, ih (fun r hr => hsafe r (by simp [hr])) hrow]
    rfl

theorem zero_notMem_csvStringifyHelper (hsafe : ∀ row ∈ rows, ∀ s ∈ row, ∀ c ∈ s, csvSafe c)
    (first : Bool) :
    '\x00' ∉ csvStringifyHelper numberToString (rows.map (List.map .string)) first := by
  induction rows generalizing first with
  | nil => simp [csvStringifyHelper]
  | cons row rows ih =>
    have hrow : '\x00' ∉ csvStringifyRow numberToString (row.map .string) :=
      fun hmem => (mem_csvStringifyRowHelper (hsafe row (by simp)) hmem).1 rfl
    have hrest := ih (fun r hr => hsafe r (by simp [hr])) false
    rw [List.map_cons, csvStringifyHelper]
    split
    · simp [hrow, hrest]
    · simp [hrow, hrest]

theorem csvParseLines_rows (hne : ∀ row ∈ rows, row ≠ [])
    (hsafe : ∀ row ∈ rows, ∀ s ∈ row, ∀ c ∈ s, csvSafe c) :
    csvParseLines (rows.map fun row => csvStringifyRow numberToString (row.map .string)) =
      (rows.filter (· ≠ [[]])).map (List.map csvRead) := by
  induction rows with
  | nil => rfl
  | cons row rows ih =>
    have hrest := ih (fun r hr => hne r (by simp [hr])) fun r hr => hsafe r (by simp [hr])
    rw [List.map_cons, csvParseLines, hrest]
    by_cases hrow : row = [[]]
    · rw [if_pos ((csvStringifyRow_eq_nil_iff (hne row (by simp))).mpr hrow),
        List.filter_cons_of_neg (by simpa using hrow)]
    · rw [if_neg (mt (csvStringifyRow_eq_nil_iff (hne row (by simp))).mp hrow),
        List.filter_cons_of_pos (by simpa using hrow), List.map_cons,
        csvSplitFields_row (hne row (by simp)) (hsafe row (by simp)) hrow]

/-- **The round trip.** Rows of string fields come back, except that an empty field is read as
null and a row of one empty field is left out. -/
theorem csvParse_csvStringify (numberToString : N → List Char) (rows : List (List (List Char)))
    (hne : ∀ row ∈ rows, row ≠ []) (hsafe : ∀ row ∈ rows, ∀ s ∈ row, ∀ c ∈ s, csvSafe c) :
    csvParse (csvStringify numberToString (rows.map (List.map .string))) =
      (rows.filter (· ≠ [[]])).map (List.map csvRead) := by
  rw [csvParse, stringSplit, csvStringify,
    cText_of_notMem (zero_notMem_csvStringifyHelper hsafe true), cText_of_notMem (by decide)]
  cases rows with
  | nil => rfl
  | cons row rows =>
    have hrow : '\n' ∉ csvStringifyRow numberToString (row.map .string) :=
      fun hmem => (mem_csvStringifyRowHelper (hsafe row (by simp)) hmem).2 rfl
    rw [← csvParseLines_rows hne hsafe, List.map_cons, csvStringifyHelper, List.map_cons,
      ← stringSplitLoop_rows (fun r hr => hsafe r (by simp [hr])) hrow]
    rfl

end RoundTrip

/-- Two rows with a comma, a quote and an empty field. -/
theorem csvParse_csvStringify_sample :
    csvParse (csvStringify (fun n : ℕ => (Nat.repr n).toList)
        ([["a,b".toList, "".toList], ["say \"hi\"".toList]].map (List.map .string))) =
      [[some (Codec.Utf8.encode "a,b".toList), none],
        [some (Codec.Utf8.encode "say \"hi\"".toList)]] :=
  csvParse_csvStringify _ [["a,b".toList, "".toList], ["say \"hi\"".toList]] (by simp)
    (by simp [csvSafe])

/-- An empty field does not come back as the empty string. -/
theorem csvParse_empty_field :
    csvParse (csvStringify (fun n : ℕ => (Nat.repr n).toList) [[.string "a".toList, .string []]]) ≠
      [[some (Codec.Utf8.encode "a".toList), some []]] := by
  have hparse : csvParse (csvStringify (fun n : ℕ => (Nat.repr n).toList)
      [[.string "a".toList, .string []]]) = [[some [97], none]] := rfl
  rw [hparse]
  simp

end Eshkol.Core
