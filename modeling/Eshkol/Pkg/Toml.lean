import Mathlib.Data.Char
import Mathlib.Data.List.DropRight
import Eshkol.Assoc.SortedMap
import Eshkol.Native.Parse

/-!
# The Manifest File Format

`TomlParser` of `tools/pkg/eshkol_pkg.cpp`: a parser of tables, `key = value` lines, strings
and arrays, line by line, and the serializer that writes such files. A string is the list of
its characters, one for each byte. `std::stod` and the text of a `double` are parameters; a
`double` is its bit pattern.

A value of the root table is found by its key only, so the root is a sorted map here although
the source has a hash map. The serializer takes the entries of that map in the order in which
they are iterated.
-/

namespace Eshkol.Pkg

open Assoc

inductive TomlValue : Type
  | string (s : List Char)
  | integer (i : Int64)
  | float (f : UInt64)
  | bool (b : Bool)
  | array (values : List TomlValue)
  | table (entries : List (List Char × TomlValue))

namespace TomlValue

def strVal : TomlValue → List Char
  | .string s => s
  | _ => []

def arrVal : TomlValue → List TomlValue
  | .array values => values
  | _ => []

def tableVal : TomlValue → List (List Char × TomlValue)
  | .table entries => entries
  | _ => []

/-- `type == TomlValue::Table`. -/
def isTable : TomlValue → Bool
  | .table _ => true
  | _ => false

end TomlValue

/-! ### Lines -/

/-- The lines that `std::getline` gives. -/
def getlines : List Char → List (List Char)
  | [] => []
  | c :: cs =>
    if c = '\n' then [] :: getlines cs
    else match getlines cs with
      | [] => [[c]]
      | line :: lines => (c :: line) :: lines

/-- The characters that `trim` removes. -/
def isTrimmed (c : Char) : Bool := c = ' ' ∨ c = '\t' ∨ c = '\r' ∨ c = '\n'

def trim (s : List Char) : List Char := (s.dropWhile isTrimmed).rdropWhile isTrimmed

/-- Whether a text ends inside a string: `in_string` after the loop over it. -/
def inString (s : List Char) : Bool := s.foldl (fun b c => if c = '"' then !b else b) false

/-- A line without its comment. Only the first `#` is looked at. -/
def stripComment (line : List Char) : List Char :=
  if '#' ∈ line then
    let before := line.takeWhile (· ≠ '#')
    if inString before then line else before
  else line

/-! ### Values -/

/-- A text that starts with a quote, after it: up to the last quote, or all of it. -/
def parseQuoted (s : List Char) : List Char :=
  if '"' ∈ s then (s.rdropWhile (· ≠ '"')).dropLast else s

/-- `s.substr(1, s.size() - 2)`. A single bracket leaves nothing. -/
def arrayInner (s : List Char) : List Char := s.tail.take (s.length - 2)

/-- The texts of the elements of an array: what stands between the commas, trimmed, unless
empty. -/
def arrayPieces (inner : List Char) : List (List Char) :=
  match _hrest : inner.dropWhile isBlank with
  | [] => []
  | c :: cs =>
    let piece := trim ((c :: cs).takeWhile (· ≠ ','))
    let pieces := arrayPieces ((c :: cs).dropWhile (· ≠ ',')).tail
    if piece = [] then pieces else piece :: pieces
termination_by inner.length
decreasing_by
  have hle := (List.dropWhile_suffix isBlank (l := inner)).length_le
  have hle' := (List.dropWhile_suffix (fun c : Char => decide (c ≠ ',')) (l := c :: cs)).length_le
  rw [_hrest, List.length_cons] at hle
  rw [List.length_cons] at hle'
  simp only [List.length_tail]
  omega

theorem length_trim_le (s : List Char) : (trim s).length ≤ s.length :=
  ((List.rdropWhile_prefix _ _).length_le).trans (List.dropWhile_suffix _).length_le

theorem length_le_of_mem_arrayPieces (inner : List Char) {piece : List Char}
    (h : piece ∈ arrayPieces inner) : piece.length ≤ inner.length := by
  have hpiece : ∀ {inner : List Char} {c : Char} {cs : List Char},
      inner.dropWhile isBlank = c :: cs →
      (trim ((c :: cs).takeWhile (· ≠ ','))).length ≤ inner.length := by
    intro inner c cs hrest
    have hle := (List.dropWhile_suffix isBlank (l := inner)).length_le
    rw [hrest] at hle
    exact (length_trim_le _).trans ((List.takeWhile_prefix _).length_le.trans hle)
  have hrest : ∀ {inner : List Char} {c : Char} {cs : List Char},
      inner.dropWhile isBlank = c :: cs →
      ((c :: cs).dropWhile (· ≠ ',')).tail.length ≤ inner.length := by
    intro inner c cs hrest
    have hle := (List.dropWhile_suffix isBlank (l := inner)).length_le
    rw [hrest] at hle
    exact (List.tail_suffix _).length_le.trans ((List.dropWhile_suffix _).length_le.trans hle)
  fun_induction arrayPieces inner with
  | case1 inner hdrop => cases h
  | case2 inner c cs hdrop piece' pieces hempty ih => exact (ih h).trans (hrest hdrop)
  | case3 inner c cs hdrop piece' pieces hempty ih =>
    rcases List.mem_cons.mp h with rfl | h
    · exact hpiece hdrop
    · exact (ih h).trans (hrest hdrop)

/-- `std::stoll`, which throws on a text without a number or with one out of range. -/
def stoll (s : List Char) : Option Int64 :=
  let r := strtoll 10 s
  if r.rest = s ∨ r.erange then none else some r.value

section Parser

variable (stod : List Char → Option UInt64)

def parseValue (s : List Char) : TomlValue :=
  match _hs : s with
  | [] => .string []
  | '"' :: rest => .string (parseQuoted rest)
  | '[' :: rest =>
    .array ((arrayPieces (arrayInner ('[' :: rest))).attach.map fun piece => parseValue piece.1)
  | _ =>
    if s = "true".toList then .bool true
    else if s = "false".toList then .bool false
    else if '.' ∈ s then ((stod s).map .float).getD (.string s)
    else ((stoll s).map .integer).getD (.string s)
termination_by s.length
decreasing_by
  have hle := length_le_of_mem_arrayPieces _ piece.2
  simp only [arrayInner, List.tail_cons, List.length_take, List.length_cons] at hle ⊢
  omega

/-- The state of the parser: the root table and the name of the current one. -/
structure ParseState where
  root : List (List Char × TomlValue)
  currentTable : List Char

/-- `root[table].table_val[key] = value`. The current table has been made by its header. -/
def setIn (root : List (List Char × TomlValue)) (table key : List Char) (value : TomlValue) :
    List (List Char × TomlValue) :=
  Assoc.set table (.table (Assoc.set key value ((lookup table root).elim [] TomlValue.tableVal)))
    root

/-- One iteration of the loop of `parse`. -/
def parseLine (st : ParseState) (line : List Char) : ParseState :=
  let line := trim (stripComment line)
  if line = [] then st
  else if line.head? = some '[' ∧ line.getLast? = some ']' then
    let currentTable := trim (line.tail.take (line.length - 2))
    ⟨Assoc.set currentTable (.table []) st.root, currentTable⟩
  else if '=' ∈ line then
    let key := trim (line.takeWhile (· ≠ '='))
    let value := parseValue stod (trim (line.dropWhile (· ≠ '=')).tail)
    if st.currentTable = [] then { st with root := Assoc.set key value st.root }
    else { st with root := setIn st.root st.currentTable key value }
  else st

/-- `TomlParser::parse`. -/
def parse (content : List Char) : List (List Char × TomlValue) :=
  ((getlines content).foldl (parseLine stod) ⟨[], []⟩).root

end Parser

/-! ### The serializer -/

section Serializer

variable (showDouble : UInt64 → List Char)

mutual

def serializeValue : TomlValue → List Char
  | .string s => '"' :: s ++ ['"']
  | .integer i => (toString i.toInt).toList
  | .float f => showDouble f
  | .bool b => (if b then "true" else "false").toList
  | .array values => '[' :: serializeValues values ++ [']']
  | .table entries => '{' :: serializeEntries entries ++ ['}']

/-- The elements of an array. -/
def serializeValues : List TomlValue → List Char
  | [] => []
  | [v] => serializeValue v
  | v :: v' :: values => serializeValue v ++ ", ".toList ++ serializeValues (v' :: values)

/-- The entries of an inline table. -/
def serializeEntries : List (List Char × TomlValue) → List Char
  | [] => []
  | [(k, v)] => k ++ " = ".toList ++ serializeValue v
  | (k, v) :: e :: entries =>
    k ++ " = ".toList ++ serializeValue v ++ ", ".toList ++ serializeEntries (e :: entries)

end

/-- A `key = value` line, without its end. -/
def serializeLine (e : List Char × TomlValue) : List Char :=
  e.1 ++ " = ".toList ++ serializeValue showDouble e.2

/-- `TomlParser::serialize`. -/
def serialize (data : List (List Char × TomlValue)) : List Char :=
  ((data.filter fun e => !e.2.isTable).flatMap fun e => serializeLine showDouble e ++ ['\n']) ++
  (data.filter fun e => e.2.isTable).flatMap fun e =>
    '\n' :: '[' :: e.1 ++ ']' :: '\n' ::
      e.2.tableVal.flatMap fun e => serializeLine showDouble e ++ ['\n']

end Serializer

/-! ### Quotes and comments -/

/-- The number of quotes before the first `#`, or in the whole text. -/
def quotesBefore (s : List Char) : ℕ := (s.takeWhile (· ≠ '#')).count '"'

/-- A `#` that stands inside of a string once the text is quoted. -/
def HashSafe (s : List Char) : Prop := '#' ∈ s → quotesBefore s % 2 = 0

instance (s : List Char) : Decidable (HashSafe s) :=
  inferInstanceAs (Decidable ('#' ∈ s → quotesBefore s % 2 = 0))

theorem inString_eq (s : List Char) : inString s = decide (s.count '"' % 2 = 1) := by
  have hloop : ∀ b : Bool, s.foldl (fun b c => if c = '"' then !b else b) b =
      decide ((b.toNat + s.count '"') % 2 = 1) := by
    induction s with
    | nil =>
      intro b
      cases b with
      | false => rfl
      | true => rfl
    | cons c s ih =>
      intro b
      rw [List.foldl_cons, ih]
      by_cases hc : c = '"'
      · subst hc
        rw [if_pos rfl, List.count_cons_self]
        cases b with
        | false => simp; omega
        | true => simp; omega
      · rw [if_neg hc, List.count_cons_of_ne hc]
  rw [inString, hloop]
  simp

theorem stripComment_eq_self {line : List Char}
    (h : '#' ∈ line → quotesBefore line % 2 = 1) : stripComment line = line := by
  rw [stripComment]
  split
  next hmem =>
    have hodd : inString (line.takeWhile (· ≠ '#')) = true := by
      rw [inString_eq]
      exact decide_eq_true (h hmem)
    exact if_pos hodd
  next => rfl

variable {s key : List Char} {c : Char}

theorem quotesBefore_append_of_not_mem (hs : '#' ∉ s) (t : List Char) :
    quotesBefore (s ++ t) = s.count '"' + quotesBefore t := by
  rw [quotesBefore, List.takeWhile_append_of_pos, List.count_append]
  · rfl
  · intro c hc
    exact decide_eq_true fun h => hs (h ▸ hc)

theorem quotesBefore_append_of_mem (hs : '#' ∈ s) (t : List Char) :
    quotesBefore (s ++ t) = quotesBefore s := by
  have htake : (s ++ t).takeWhile (fun c => decide (c ≠ '#')) =
      s.takeWhile (fun c => decide (c ≠ '#')) := by
    induction s with
    | nil => cases hs
    | cons c s ih =>
      by_cases hc : c = '#'
      · simp [hc]
      · rw [List.cons_append, List.takeWhile_cons, List.takeWhile_cons,
          ih ((List.mem_cons.mp hs).resolve_left (Ne.symm hc))]
  rw [quotesBefore, htake, quotesBefore]

/-! ### Quoted strings -/

/-- A string between quotes. -/
def quoted (s : List Char) : List Char := '"' :: s ++ ['"']

theorem quotesBefore_quoted_append (hs : '#' ∈ s) (t : List Char) :
    quotesBefore (quoted s ++ t) = 1 + quotesBefore s := by
  have hsplit : quoted s ++ t = ['"'] ++ (s ++ ('"' :: t)) := by simp [quoted]
  rw [hsplit, quotesBefore_append_of_not_mem (by simp), quotesBefore_append_of_mem hs]
  rfl

theorem parseValue_quoted (stod : List Char → Option UInt64) (s : List Char) :
    parseValue stod (quoted s) = .string s := by
  rw [quoted, List.cons_append, parseValue, parseQuoted, if_pos (by simp),
    List.rdropWhile_concat_neg _ _ _ (by simp), List.dropLast_concat]

theorem trim_eq_self (hhead : ∀ c ∈ s.head?, isTrimmed c = false)
    (hlast : ∀ c ∈ s.getLast?, isTrimmed c = false) : trim s = s := by
  have hdrop : s.dropWhile isTrimmed = s := by
    cases s with
    | nil => rfl
    | cons c s => exact List.dropWhile_cons_of_neg (by simp [hhead c rfl])
  rw [trim, hdrop, List.rdropWhile_eq_self_iff]
  intro hne
  simp [hlast _ (List.getLast?_eq_some_getLast hne)]

theorem trim_quoted (s : List Char) : trim (quoted s) = quoted s := by
  refine trim_eq_self ?_ ?_
  · rintro c ⟨⟩
    rfl
  · rw [quoted, List.getLast?_concat]
    rintro c ⟨⟩
    rfl

/-! ### Arrays of strings -/

theorem arrayPieces_of_ne_nil {inner rest : List Char} (h : inner.dropWhile isBlank = rest)
    (hne : rest ≠ []) :
    arrayPieces inner =
      if trim (rest.takeWhile (· ≠ ',')) = [] then arrayPieces (rest.dropWhile (· ≠ ',')).tail
      else trim (rest.takeWhile (· ≠ ',')) :: arrayPieces (rest.dropWhile (· ≠ ',')).tail := by
  rw [arrayPieces]
  split
  next h' => exact absurd (h.symm.trans h') hne
  next h' =>
    rw [h] at h'
    rw [h']

theorem arrayPieces_quoted {blanks : List Char} (hblanks : ∀ c ∈ blanks, isBlank c = true)
    (hs : ',' ∉ s) (rest : List Char) :
    arrayPieces (blanks ++ quoted s) = [quoted s] ∧
      arrayPieces (blanks ++ quoted s ++ ',' :: rest) = quoted s :: arrayPieces rest := by
  have hnot : ∀ c ∈ quoted s, decide (c ≠ ',') = true := by
    intro c hc
    refine decide_eq_true ?_
    rintro rfl
    simp [quoted, hs] at hc
  have hdrop : ∀ t : List Char,
      (blanks ++ (quoted s ++ t)).dropWhile isBlank = quoted s ++ t := by
    intro t
    rw [List.dropWhile_append_of_pos hblanks]
    rfl
  have hne : trim (quoted s) ≠ [] := by
    rw [trim_quoted]
    simp [quoted]
  constructor
  · have h := hdrop []
    rw [List.append_nil] at h
    rw [arrayPieces_of_ne_nil h (by simp [quoted]), List.takeWhile_eq_self_iff.mpr hnot,
      if_neg hne, trim_quoted, List.dropWhile_eq_nil_iff.mpr hnot, List.tail_nil, arrayPieces]
    rfl
  · rw [List.append_assoc, arrayPieces_of_ne_nil (hdrop (',' :: rest)) (by simp [quoted]),
      List.takeWhile_append_of_pos hnot, List.takeWhile_cons_of_neg (by simp), List.append_nil,
      if_neg hne, trim_quoted, List.dropWhile_append_of_pos hnot,
      List.dropWhile_cons_of_neg (by simp), List.tail_cons]

variable (showDouble : UInt64 → List Char) (stod : List Char → Option UInt64)

theorem serializeValues_cons (s s' : List Char) (ss : List (List Char)) :
    serializeValues showDouble ((s :: s' :: ss).map .string) =
      quoted s ++ ',' :: ' ' :: serializeValues showDouble ((s' :: ss).map .string) := by
  simp [serializeValues, serializeValue, quoted]

theorem serializeValues_singleton (s : List Char) :
    serializeValues showDouble ([s].map .string) = quoted s := by
  simp [serializeValues, serializeValue, quoted]

theorem arrayPieces_serializeValues {ss : List (List Char)} (hss : ∀ s ∈ ss, ',' ∉ s)
    (blanks : List Char) (hblanks : ∀ c ∈ blanks, isBlank c = true) :
    arrayPieces (blanks ++ serializeValues showDouble (ss.map .string)) = ss.map quoted := by
  induction ss generalizing blanks with
  | nil =>
    rw [List.map_nil, serializeValues, List.append_nil, arrayPieces]
    split
    next => rfl
    next h =>
      rw [List.dropWhile_eq_nil_iff.mpr hblanks] at h
      cases h
  | cons s ss ih =>
    obtain ⟨hs, hrest⟩ := List.forall_mem_cons.mp hss
    cases ss with
    | nil =>
      rw [serializeValues_singleton]
      exact (arrayPieces_quoted hblanks hs []).1
    | cons s' ss =>
      have hnext := ih hrest [' '] (by simp [isBlank])
      rw [List.singleton_append] at hnext
      rw [serializeValues_cons, ← List.append_assoc, (arrayPieces_quoted hblanks hs _).2, hnext]
      rfl

theorem parseValue_array (inner : List Char) :
    parseValue stod ('[' :: inner ++ [']']) =
      .array ((arrayPieces inner).map (parseValue stod)) := by
  have hinner : arrayInner ('[' :: (inner ++ [']'])) = inner := by simp [arrayInner]
  rw [List.cons_append, parseValue, List.attach_map_val, hinner]

/-- Quotes of a serialized array before a `#`: those around the elements before it come in
pairs, and one opens the element that holds it. -/
theorem quotesBefore_serializeValues {ss : List (List Char)} (hss : '#' ∈ ss.flatten)
    (rest : List Char) :
    quotesBefore (serializeValues showDouble (ss.map .string) ++ rest) % 2 =
      (1 + quotesBefore ss.flatten) % 2 := by
  induction ss with
  | nil => cases hss
  | cons s ss ih =>
    by_cases hs : '#' ∈ s
    · have hhead : ∃ t, serializeValues showDouble ((s :: ss).map .string) ++ rest =
          quoted s ++ t := by
        cases ss with
        | nil => exact ⟨rest, by rw [serializeValues_singleton]⟩
        | cons s' ss => exact ⟨_, by rw [serializeValues_cons, List.append_assoc]⟩
      obtain ⟨t, ht⟩ := hhead
      rw [ht, quotesBefore_quoted_append hs, List.flatten_cons, quotesBefore_append_of_mem hs]
    · have hrest : '#' ∈ ss.flatten := by
        rw [List.flatten_cons, List.mem_append] at hss
        exact hss.resolve_left hs
      cases ss with
      | nil => cases hrest
      | cons s' ss =>
        have hnot : '#' ∉ quoted s ++ [',', ' '] := by simp [quoted, hs]
        have hcount : (quoted s ++ [',', ' ']).count '"' = s.count '"' + 2 := by simp [quoted]
        have hsplit : serializeValues showDouble ((s :: s' :: ss).map .string) ++ rest =
            (quoted s ++ [',', ' ']) ++
              (serializeValues showDouble ((s' :: ss).map .string) ++ rest) := by
          rw [serializeValues_cons]
          simp
        rw [hsplit, quotesBefore_append_of_not_mem hnot, hcount, List.flatten_cons,
          quotesBefore_append_of_not_mem hs]
        have := ih hrest
        omega

theorem mem_serializeValues {c : Char} (hc : c ≠ '"') (hc' : c ≠ ',') (hc'' : c ≠ ' ')
    (ss : List (List Char)) :
    c ∈ serializeValues showDouble (ss.map .string) ↔ c ∈ ss.flatten := by
  induction ss with
  | nil => simp [serializeValues]
  | cons s ss ih =>
    cases ss with
    | nil =>
      rw [serializeValues_singleton]
      simp [quoted, hc]
    | cons s' ss =>
      rw [serializeValues_cons, List.mem_append, List.mem_cons, List.mem_cons, ih,
        List.flatten_cons, List.mem_append]
      simp [quoted, hc, hc', hc'']

/-! ### Lines of the serializer -/

/-- A value that the parser reads back: a string on one line, or an array of such strings
without commas, with any comment sign inside of the quotes. -/
def TomlValue.Plain : TomlValue → Prop
  | .string s => '\n' ∉ s ∧ HashSafe s
  | .array values => ∃ ss : List (List Char), values = ss.map .string ∧
      (∀ s ∈ ss, '\n' ∉ s ∧ ',' ∉ s) ∧ HashSafe ss.flatten
  | _ => False

theorem parseValue_serializeValue {v : TomlValue} (hv : v.Plain) :
    parseValue stod (serializeValue showDouble v) = v := by
  cases v with
  | string s => exact parseValue_quoted stod s
  | array values =>
    obtain ⟨ss, rfl, hss, -⟩ := hv
    have hpieces := arrayPieces_serializeValues showDouble (fun s hs => (hss s hs).2) []
      (by simp)
    rw [List.nil_append] at hpieces
    rw [serializeValue, parseValue_array, hpieces, List.map_map]
    exact congrArg _ (List.map_congr_left fun s _ => parseValue_quoted stod s)
  | integer i => cases hv
  | float f => cases hv
  | bool b => cases hv
  | table entries => cases hv

/-- A serialized value stays on one line, and its comment signs are quoted. -/
theorem serializeValue_shape {v : TomlValue} (hv : v.Plain) :
    '\n' ∉ serializeValue showDouble v ∧ trim (serializeValue showDouble v) =
      serializeValue showDouble v ∧ serializeValue showDouble v ≠ [] ∧
      ('#' ∈ serializeValue showDouble v → quotesBefore (serializeValue showDouble v) % 2 = 1) ∧
      ∀ c ∈ (serializeValue showDouble v).getLast?, isTrimmed c = false := by
  cases v with
  | string s =>
    obtain ⟨hline, hhash⟩ := hv
    refine ⟨?_, trim_quoted s, by simp [serializeValue], ?_, ?_⟩
    · simp [serializeValue, hline]
    · intro hmem
      have hs : '#' ∈ s := by simpa [serializeValue] using hmem
      have hq := quotesBefore_quoted_append hs []
      rw [List.append_nil] at hq
      have := hhash hs
      change quotesBefore (quoted s) % 2 = 1
      omega
    · rw [serializeValue, List.getLast?_concat]
      rintro c ⟨⟩
      rfl
  | array values =>
    obtain ⟨ss, rfl, hss, hhash⟩ := hv
    have hlast : ∀ c ∈ (serializeValue showDouble (.array (ss.map .string))).getLast?,
        isTrimmed c = false := by
      rw [serializeValue, List.getLast?_concat]
      rintro c ⟨⟩
      rfl
    refine ⟨?_, trim_eq_self ?_ hlast, by simp [serializeValue], ?_, hlast⟩
    · have hmem := mem_serializeValues showDouble (by decide : '\n' ≠ '"') (by decide)
        (by decide) ss
      have hnot : '\n' ∉ ss.flatten := by
        intro h
        obtain ⟨s, hs, hc⟩ := List.mem_flatten.mp h
        exact (hss s hs).1 hc
      simp [serializeValue, hmem, hnot]
    · rintro c ⟨⟩
      rfl
    · intro hmem
      have hin := mem_serializeValues showDouble (by decide : '#' ≠ '"') (by decide)
        (by decide) ss
      have hs : '#' ∈ ss.flatten := by simpa [serializeValue, hin] using hmem
      have hq := quotesBefore_serializeValues showDouble hs [']']
      have hsplit : serializeValue showDouble (.array (ss.map .string)) =
          ['['] ++ (serializeValues showDouble (ss.map .string) ++ [']']) := by
        simp [serializeValue]
      have hcount : List.count '"' ['['] = 0 := rfl
      rw [hsplit, quotesBefore_append_of_not_mem (by simp), hcount]
      have := hhash hs
      omega
  | integer i => cases hv
  | float f => cases hv
  | bool b => cases hv
  | table entries => cases hv

/-- The characters of a name. -/
def isNameChar (c : Char) : Bool := c.isAlphanum || c = '-' || c = '_' || c = '.'

/-- A key that the parser reads back. -/
def PlainKey (key : List Char) : Prop := key ≠ [] ∧ ∀ c ∈ key, isNameChar c = true

theorem plainKey_iff : PlainKey key ↔ key ≠ [] ∧ key.all isNameChar = true := by
  rw [PlainKey, List.all_eq_true]

theorem PlainKey.not_mem (hkey : PlainKey key) (hc : isNameChar c = false) : c ∉ key := by
  intro hmem
  rw [hkey.2 c hmem] at hc
  cases hc

theorem PlainKey.isTrimmed_eq_false (hkey : PlainKey key) (hmem : c ∈ key) :
    isTrimmed c = false := by
  rw [isTrimmed, decide_eq_false_iff_not]
  have hname := hkey.2 c hmem
  rintro (rfl | rfl | rfl | rfl)
  all_goals exact absurd hname (by decide)

theorem PlainKey.trim_append_blank (hkey : PlainKey key) : trim (key ++ [' ']) = key := by
  obtain ⟨c, cs, rfl⟩ := List.exists_cons_of_ne_nil hkey.1
  have hkeep : ¬isTrimmed c = true := by simp [hkey.isTrimmed_eq_false List.mem_cons_self]
  rw [trim, List.cons_append, List.dropWhile_cons_of_neg hkeep, ← List.cons_append,
    List.rdropWhile_concat_pos _ _ _ (by rfl), List.rdropWhile_eq_self_iff]
  intro hne
  simp [hkey.isTrimmed_eq_false (List.getLast_mem hne)]

theorem trim_blank_cons (s : List Char) : trim (' ' :: s) = trim s := rfl

/-- A serialized entry is parsed into the current table. -/
theorem parseLine_entry {e : List Char × TomlValue} (hkey : PlainKey e.1) (hv : e.2.Plain)
    {st : ParseState} (hst : st.currentTable ≠ []) :
    parseLine stod st (serializeLine showDouble e) =
      { st with root := setIn st.root st.currentTable e.1 e.2 } := by
  obtain ⟨key, v⟩ := e
  obtain ⟨-, htrim, hne, hquotes, hlast⟩ := serializeValue_shape showDouble hv
  have hvalue := parseValue_serializeValue showDouble stod hv
  generalize htext : serializeValue showDouble v = text at htrim hne hquotes hlast hvalue
  have hline : serializeLine showDouble (key, v) = key ++ [' '] ++ '=' :: ' ' :: text := by
    simp [serializeLine, htext]
  have hbefore : ∀ c ∈ key ++ [' '], decide (c ≠ '=') = true := by
    intro c hc
    refine decide_eq_true ?_
    rintro rfl
    simp [hkey.not_mem (by decide : isNameChar '=' = false)] at hc
  obtain ⟨k, ks, rfl⟩ : ∃ k ks, key = k :: ks := List.exists_cons_of_ne_nil hkey.1
  have hhead : (k :: ks ++ [' '] ++ '=' :: ' ' :: text).head? = some k := rfl
  -- the comment sign, if any, is in the value
  have hstrip : stripComment (k :: ks ++ [' '] ++ '=' :: ' ' :: text) =
      k :: ks ++ [' '] ++ '=' :: ' ' :: text := by
    have hsplit : k :: ks ++ [' '] ++ '=' :: ' ' :: text =
        (k :: ks ++ [' ', '=', ' ']) ++ text := by
      simp
    have hnot : '#' ∉ k :: ks ++ [' ', '=', ' '] := by
      rw [List.mem_append, not_or]
      exact ⟨hkey.not_mem (by decide), by decide⟩
    have hcount : (k :: ks ++ [' ', '=', ' ']).count '"' = 0 := by
      rw [List.count_eq_zero, List.mem_append, not_or]
      exact ⟨hkey.not_mem (by decide), by decide⟩
    refine stripComment_eq_self fun hmem => ?_
    rw [hsplit] at hmem ⊢
    rw [quotesBefore_append_of_not_mem hnot, hcount, zero_add]
    exact hquotes ((List.mem_append.mp hmem).resolve_left hnot)
  have hwhole : trim (k :: ks ++ [' '] ++ '=' :: ' ' :: text) =
      k :: ks ++ [' '] ++ '=' :: ' ' :: text := by
    refine trim_eq_self ?_ ?_
    · rw [hhead]
      rintro c ⟨⟩
      exact hkey.isTrimmed_eq_false List.mem_cons_self
    · rw [List.getLast?_append_of_ne_nil _ (by simp)]
      rw [List.getLast?_cons_cons, List.getLast?_cons_of_ne_nil hne]
      exact hlast
  have hnotHeader : ¬((k :: ks ++ [' '] ++ '=' :: ' ' :: text).head? = some '[' ∧
      (k :: ks ++ [' '] ++ '=' :: ' ' :: text).getLast? = some ']') := by
    rw [hhead]
    rintro ⟨hk, -⟩
    cases hk
    exact hkey.not_mem (by decide : isNameChar '[' = false) List.mem_cons_self
  rw [hline, parseLine, hstrip, hwhole, if_neg (by simp), if_neg hnotHeader, if_pos (by simp),
    List.takeWhile_append_of_pos hbefore, List.takeWhile_cons_of_neg (by simp), List.append_nil,
    hkey.trim_append_blank, List.dropWhile_append_of_pos hbefore,
    List.dropWhile_cons_of_neg (by simp), List.tail_cons, trim_blank_cons, htrim, hvalue,
    if_neg hst]

theorem newline_not_mem_serializeLine {e : List Char × TomlValue} (hkey : PlainKey e.1)
    (hv : e.2.Plain) : '\n' ∉ serializeLine showDouble e := by
  rw [serializeLine, List.mem_append, List.mem_append, not_or, not_or]
  exact ⟨⟨hkey.not_mem (by decide), by decide⟩, (serializeValue_shape showDouble hv).1⟩

theorem parseLine_nil (st : ParseState) : parseLine stod st [] = st := rfl

theorem parseLine_header {name : List Char} (hname : PlainKey name) (st : ParseState) :
    parseLine stod st ('[' :: name ++ [']']) = ⟨Assoc.set name (.table []) st.root, name⟩ := by
  have hstrip : stripComment ('[' :: name ++ [']']) = '[' :: name ++ [']'] := by
    refine stripComment_eq_self fun hmem => ?_
    simp [hname.not_mem (by decide : isNameChar '#' = false)] at hmem
  have hwhole : trim ('[' :: name ++ [']']) = '[' :: name ++ [']'] := by
    refine trim_eq_self ?_ ?_
    · rintro c ⟨⟩
      rfl
    · rw [List.getLast?_concat]
      rintro c ⟨⟩
      rfl
  have hinner : ('[' :: name ++ [']']).tail.take (('[' :: name ++ [']']).length - 2) = name := by
    simp
  have hname' : trim name = name := by
    refine trim_eq_self ?_ ?_
    · exact fun c hc => hname.isTrimmed_eq_false (List.mem_of_mem_head? hc)
    · exact fun c hc => hname.isTrimmed_eq_false (List.mem_of_getLast? hc)
  rw [parseLine, hstrip, hwhole, if_neg (by simp), if_pos ⟨rfl, List.getLast?_concat ..⟩, hinner,
    hname']

/-! ### Files -/

theorem getlines_append {line : List Char} (hline : '\n' ∉ line) (rest : List Char) :
    getlines (line ++ '\n' :: rest) = line :: getlines rest := by
  induction line with
  | nil => simp [getlines]
  | cons c line ih =>
    obtain ⟨hc, hline⟩ := not_or.mp (fun h => hline (List.mem_cons.mpr h))
    rw [List.cons_append, getlines, if_neg (Ne.symm hc), ih hline]

theorem getlines_flatMap {lines : List (List Char)} (hlines : ∀ line ∈ lines, '\n' ∉ line)
    (rest : List Char) :
    getlines ((lines.flatMap fun line => line ++ ['\n']) ++ rest) = lines ++ getlines rest := by
  induction lines with
  | nil => rfl
  | cons line lines ih =>
    obtain ⟨hline, hlines⟩ := List.forall_mem_cons.mp hlines
    rw [List.flatMap_cons, List.append_assoc, List.append_assoc, List.singleton_append,
      getlines_append hline, ih hlines]
    rfl

/-- A table as the serializer can write it and the parser can read it. -/
structure PlainTable (t : List Char × List (List Char × TomlValue)) : Prop where
  name : PlainKey t.1
  keys : ∀ e ∈ t.2, PlainKey e.1
  values : ∀ e ∈ t.2, e.2.Plain
  sorted : Sorted t.2

theorem foldl_parseLine_entries {name : List Char} (hname : name ≠ [])
    {entries : List (List Char × TomlValue)} (hkeys : ∀ e ∈ entries, PlainKey e.1)
    (hvalues : ∀ e ∈ entries, e.2.Plain) (m root : List (List Char × TomlValue)) :
    (entries.map (serializeLine showDouble)).foldl (parseLine stod)
        ⟨Assoc.set name (.table m) root, name⟩ =
      ⟨Assoc.set name (.table (entries.foldl (fun m e => Assoc.set e.1 e.2 m) m)) root,
        name⟩ := by
  induction entries generalizing m with
  | nil => rfl
  | cons e entries ih =>
    obtain ⟨hkey, hkeys⟩ := List.forall_mem_cons.mp hkeys
    obtain ⟨hv, hvalues⟩ := List.forall_mem_cons.mp hvalues
    have hset : setIn (Assoc.set name (.table m) root) name e.1 e.2 =
        Assoc.set name (.table (Assoc.set e.1 e.2 m)) root := by
      rw [setIn, lookup_set, if_pos rfl, set_set]
      rfl
    rw [List.map_cons, List.foldl_cons, parseLine_entry showDouble stod hkey hv hname, hset,
      ih hkeys hvalues, List.foldl_cons]

/-- The lines of a whole table, the empty one before it included. -/
def tableLines (t : List Char × List (List Char × TomlValue)) : List (List Char) :=
  [] :: ('[' :: t.1 ++ [']']) :: t.2.map (serializeLine showDouble)

theorem foldl_parseLine_table {t : List Char × List (List Char × TomlValue)}
    (ht : PlainTable t) (st : ParseState) :
    (tableLines showDouble t).foldl (parseLine stod) st =
      ⟨Assoc.set t.1 (.table t.2) st.root, t.1⟩ := by
  rw [tableLines, List.foldl_cons, List.foldl_cons, parseLine_nil, parseLine_header stod ht.name,
    foldl_parseLine_entries showDouble stod ht.name.1 ht.keys ht.values,
    foldl_set_sorted [] t.2 ht.sorted]
  rfl

theorem newline_not_mem_tableLines {t : List Char × List (List Char × TomlValue)}
    (ht : PlainTable t) : ∀ line ∈ tableLines showDouble t, '\n' ∉ line := by
  refine List.forall_mem_cons.mpr ⟨List.not_mem_nil, List.forall_mem_cons.mpr ⟨?_, ?_⟩⟩
  · simp [ht.name.not_mem (by decide : isNameChar '\n' = false)]
  · intro line hline
    obtain ⟨e, he, rfl⟩ := List.mem_map.mp hline
    exact newline_not_mem_serializeLine showDouble (ht.keys e he) (ht.values e he)

theorem serialize_tables (tables : List (List Char × List (List Char × TomlValue))) :
    serialize showDouble (tables.map fun t => (t.1, .table t.2)) =
      tables.flatMap fun t => (tableLines showDouble t).flatMap fun line => line ++ ['\n'] := by
  have hall : ∀ e ∈ tables.map fun t => ((t.1, .table t.2) : List Char × TomlValue),
      e.2.isTable = true := by
    intro e he
    obtain ⟨t, -, rfl⟩ := List.mem_map.mp he
    rfl
  rw [serialize, List.filter_eq_nil_iff.mpr (fun e he => by simp [hall e he]),
    List.filter_eq_self.mpr hall, List.flatMap_nil, List.nil_append, List.flatMap_map]
  simp [TomlValue.tableVal, tableLines, List.flatMap_map]

/-- A document of plain tables is parsed back from its text, table by table. -/
theorem parse_serialize {tables : List (List Char × List (List Char × TomlValue))}
    (htables : ∀ t ∈ tables, PlainTable t) :
    parse stod (serialize showDouble (tables.map fun t => (t.1, .table t.2))) =
      tables.foldl (fun root t => Assoc.set t.1 (.table t.2) root) [] := by
  have hrun : ∀ st : ParseState,
      ((getlines (tables.flatMap fun t =>
        (tableLines showDouble t).flatMap fun line => line ++ ['\n'])).foldl
          (parseLine stod) st).root =
        tables.foldl (fun root t => Assoc.set t.1 (.table t.2) root) st.root := by
    induction tables with
    | nil => exact fun _ => rfl
    | cons t tables ih =>
      intro st
      obtain ⟨ht, htables⟩ := List.forall_mem_cons.mp htables
      rw [List.flatMap_cons, getlines_flatMap (newline_not_mem_tableLines showDouble ht),
        List.foldl_append, foldl_parseLine_table showDouble stod ht, ih htables]
      rfl
  rw [parse, serialize_tables]
  exact hrun ⟨[], []⟩

end Eshkol.Pkg
