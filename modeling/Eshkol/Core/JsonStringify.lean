import Eshkol.Core.JsonParse

/-!
# Printing JSON

The printer of `lib/core/json.esk`, and what the parser makes of its output. A hash table is
printed as an object. So is a list that looks like an association list, each of whose elements is a
list that begins with a string; every other list with elements is printed as an array, and the
empty list as `null`.

The data of a `Datum` have neither symbols nor improper lists, since the parser makes none.
-/

namespace Eshkol.Core.Json

open Machine

variable {D : Type}

/-! ### The printer -/

/-- An element that `proper-alist?` takes for an entry: a pair with an `alist-key?` for its car. -/
def alistEntry : Datum D → Bool
  | .list (.string _ :: _) => true
  | _ => false

def properAlist : List (Datum D) → Bool
  | [] => false
  | [entry] => alistEntry entry
  | entry :: entries => alistEntry entry && properAlist entries

/-- The bytes of a text in the program. -/
def bytesOf (text : String) : List UInt8 := Codec.Utf8.encode text.toList

/-- The separator before an element or an entry. -/
def jsonComma (first : Bool) : List UInt8 := if first then [] else bytesOf ","

theorem Value.size_pos {N S : Type} (v : Value N S) : 0 < v.size := by cases v <;> simp [Value.size]

section Printer

variable (formatDouble : D → List Char)

mutual

/-- `json-stringify-val-impl`. -/
def jsonStringifyVal : Datum D → Exec Exn (List UInt8)
  | .number .float32 =>
    .error (.raised (.error "JSON serialization: float32 is unsupported in persistence"))
  | .list [] => .ok (bytesOf "null")
  | .bool b => .ok (if b then bytesOf "true" else bytesOf "false")
  | .string str => jsonEscapeStr str
  | .number x => do
      let text ← numberToString formatDouble [] x
      .ok (Codec.Utf8.encode text)
  | .table entries => jsonStringifyObj entries (hashTableKeys entries) true []
  | .list items =>
    if properAlist items then jsonStringifyAlist items true []
    else jsonStringifyArr items true []
termination_by v => (v.size, 1, 0)
decreasing_by
  all_goals simp [Value.size, Prod.lex_def]

/-- The loop of `json-stringify-arr`. -/
def jsonStringifyArr : List (Datum D) → Bool → List UInt8 → Exec Exn (List UInt8)
  | [], _, result => .ok (bytesOf "[" ++ result ++ bytesOf "]")
  | item :: items, first, result => do
      let text ← jsonStringifyVal item
      jsonStringifyArr items false (result ++ jsonComma first ++ text)
termination_by items => (sizeItems items + 1, 0, 0)
decreasing_by
  all_goals
    have := Value.size_pos item
    simp only [sizeItems, Prod.lex_def]
    omega

/-- The loop of `json-stringify-obj`. -/
def jsonStringifyObj (entries : List (List UInt8 × Datum D)) :
    List (List UInt8) → Bool → List UInt8 → Exec Exn (List UInt8)
  | [], _, result => .ok (bytesOf "\x7b" ++ result ++ bytesOf "\x7d")
  | key :: keys, first, result => do
      let name ← jsonEscapeStr key
      let text ← match _h : hashTableRef entries key with
        | some value => jsonStringifyVal value
        | none => .ok (bytesOf "false")
      jsonStringifyObj entries keys false (result ++ jsonComma first ++ name ++ bytesOf ":" ++ text)
termination_by keys => ((Value.table entries).size, 0, keys.length)
decreasing_by
  · simp_wf
    simp [Prod.lex_def]
  · simp_wf
    have := size_lt_of_hashTableRef _h
    simp only [Prod.lex_def]
    omega

/-- The loop of `json-stringify-alist`, where `proper-alist?` has answered true. -/
def jsonStringifyAlist : List (Datum D) → Bool → List UInt8 → Exec Exn (List UInt8)
  | [], _, result => .ok (bytesOf "\x7b" ++ result ++ bytesOf "\x7d")
  | .list (.string key :: items) :: entries, first, result => do
      let name ← jsonEscapeStr key
      let text ← jsonStringifyVal (.list items)
      jsonStringifyAlist entries false (result ++ jsonComma first ++ name ++ bytesOf ":" ++ text)
  | _, _, _ => .error .undefined
termination_by entries => (sizeItems entries + 1, 0, 0)
decreasing_by
  all_goals
    simp only [sizeItems, Value.size, Prod.lex_def]
    omega

end

def jsonStringify (val : Datum D) : Exec Exn (Datum D) := do
  let text ← jsonStringifyVal formatDouble val
  .ok (.string text)

end Printer

/-! ### Texts that are read back -/

/-- A text that is read back as a datum wherever it stands. -/
structure Reads (ops : DoubleOps D) (v : Datum D) (text : List UInt8) : Prop where
  ascii : Ascii text
  head : ∃ b bs, text = b :: bs ∧ jsonWhitespace b.toNat = false ∧ b.toNat ≠ 93
  scanned : ∀ rest b k, jsonStructuralLoop (codes text ++ rest) b k false false =
    jsonStructuralLoop rest b k false false
  parsed : ∃ w, Same Eq v w ∧ ∀ rest fuel, NumberEnds rest → 2 * text.length < fuel →
    jsonParseValue ops fuel (codes text ++ rest) = .ok (w, rest)

variable {v : Datum D} {text : List UInt8} {c : ℕ} {items : List (Datum D)}
  {texts : List (List UInt8)} {entries : List (List UInt8 × Datum D)}

theorem Reads.first {ops : DoubleOps D} (h : Reads ops v text) (rest : List ℕ) :
    ∃ c cs, codes text ++ rest = c :: cs ∧ jsonWhitespace c = false ∧ c ≠ 93 := by
  obtain ⟨b, bs, rfl, hws, hclose⟩ := h.head
  exact ⟨b.toNat, codes bs ++ rest, rfl, hws, hclose⟩

/-- Texts with commas between them. -/
def jsonJoin : Bool → List (List UInt8) → List UInt8
  | _, [] => []
  | first, text :: texts => jsonComma first ++ text ++ jsonJoin false texts

/-- The text of a member. -/
def memberText (key text : List UInt8) : List UInt8 := 34 :: jsonLiteral key ++ 58 :: text

theorem jsonJoin_true_cons (text : List UInt8) (texts : List (List UInt8)) :
    jsonJoin true (text :: texts) = text ++ jsonJoin false texts := rfl

theorem jsonJoin_false_cons (text : List UInt8) (texts : List (List UInt8)) :
    jsonJoin false (text :: texts) = 44 :: jsonJoin true (text :: texts) := rfl

theorem numberEnds_join (texts : List (List UInt8)) (hc : numberChar c = false) (rest : List ℕ) :
    NumberEnds (codes (jsonJoin false texts) ++ c :: rest) := by
  intro d hd
  cases texts with
  | nil =>
    obtain rfl : c = d := by simpa [jsonJoin] using hd
    exact hc
  | cons text texts =>
    obtain rfl : 44 = d := by simpa [jsonJoin_false_cons] using hd
    rfl

theorem jsonStructuralLoop_jsonEscape (h : c < 128) (rest : List ℕ) (b k : ℤ) :
    jsonStructuralLoop (codes (jsonEscape c) ++ rest) b k true false =
      jsonStructuralLoop rest b k true false := by
  rw [jsonEscape]
  split_ifs with h₁ h₂
  all_goals try rfl
  rw [makeStringCode, codes_cons, codes_nil, toNat_ofNat_ascii h, List.singleton_append,
    jsonStructuralLoop]
  simp [h₁, h₂]

theorem jsonStructuralLoop_literal {str : List UInt8} (h : Ascii str) (rest : List ℕ) (b k : ℤ) :
    jsonStructuralLoop (codes (jsonLiteral str) ++ rest) b k true false =
      jsonStructuralLoop rest b k false false := by
  induction str with
  | nil => rfl
  | cons a str ih =>
    rw [Ascii, List.forall_mem_cons] at h
    rw [jsonLiteral_cons, codes_append, List.append_assoc,
      jsonStructuralLoop_jsonEscape ((lt_0x80_iff a).mp h.1), ih h.2]

/-! ### Arrays -/

theorem jsonStringifyArr_texts {formatDouble : D → List Char}
    (h : List.Forall₂ (fun item text => jsonStringifyVal formatDouble item = .ok text) items texts)
    (first : Bool) (result : List UInt8) :
    jsonStringifyArr formatDouble items first result =
      .ok (bytesOf "[" ++ (result ++ jsonJoin first texts) ++ bytesOf "]") := by
  induction h generalizing first result with
  | nil => simp [jsonStringifyArr, jsonJoin]
  | cons hitem _ ih =>
    rw [jsonStringifyArr, hitem, ok_bind, ih, jsonJoin]
    simp

theorem jsonParseArr_comma {ops : DoubleOps D} {fuel : ℕ} {cs rest : List ℕ} {w : Datum D}
    (hws : jsonWhitespace c = false) (hclose : c ≠ 93)
    (hvalue : jsonParseValue ops fuel (c :: cs) = .ok (w, 44 :: rest)) (elements : List (Datum D)) :
    jsonParseArr ops (fuel + 1) (c :: cs) elements =
      jsonParseArr ops fuel rest (w :: elements) := by
  rw [jsonParseArr, jsonSkipWs_of_not hws]
  simp only [if_neg hclose, hvalue, ok_bind]
  rfl

theorem jsonParseArr_bracket {ops : DoubleOps D} {fuel : ℕ} {cs rest : List ℕ} {w : Datum D}
    (hws : jsonWhitespace c = false) (hclose : c ≠ 93)
    (hvalue : jsonParseValue ops fuel (c :: cs) = .ok (w, 93 :: rest)) (elements : List (Datum D)) :
    jsonParseArr ops (fuel + 1) (c :: cs) elements =
      .ok (.list (elements.reverse ++ [w]), rest) := by
  rw [jsonParseArr, jsonSkipWs_of_not hws]
  simp only [if_neg hclose, hvalue, ok_bind, ← List.reverse_cons]
  rfl

/-- The elements of a printed array are parsed, in their order. -/
theorem jsonParseArr_texts {ops : DoubleOps D} (h : List.Forall₂ (Reads ops) items texts)
    {item : Datum D} (hitem : Reads ops item text) :
    ∃ ws, List.Forall₂ (Same Eq) (item :: items) ws ∧ ∀ rest fuel elements,
      2 * (jsonJoin true (text :: texts)).length + 2 ≤ fuel →
      jsonParseArr ops fuel (codes (jsonJoin true (text :: texts)) ++ 93 :: rest) elements =
        .ok (.list (elements.reverse ++ ws), rest) := by
  obtain ⟨w, hsame, hparse⟩ := hitem.parsed
  induction h generalizing item text w with
  | nil =>
    refine ⟨[w], .cons hsame .nil, ?_⟩
    intro rest fuel elements hfuel
    rw [show jsonJoin true [text] = text from List.append_nil text] at hfuel ⊢
    obtain ⟨fuel, rfl⟩ : ∃ n, fuel = n + 1 := ⟨fuel - 1, by omega⟩
    have hvalue := hparse (93 :: rest) fuel (numberEnds_join [] rfl rest) (by omega)
    obtain ⟨c, cs, heq, hws, hclose⟩ := hitem.first (93 :: rest)
    rw [heq] at hvalue ⊢
    exact jsonParseArr_bracket hws hclose hvalue elements
  | @cons next nextText _ texts hnext _ ih =>
    obtain ⟨w', hsame', hparse'⟩ := hnext.parsed
    obtain ⟨ws, hws', hrest⟩ := ih hnext w' hsame' hparse'
    refine ⟨w :: ws, .cons hsame hws', ?_⟩
    intro rest fuel elements hfuel
    rw [jsonJoin_true_cons, jsonJoin_false_cons, List.length_append, List.length_cons] at hfuel
    rw [jsonJoin_true_cons, codes_append, List.append_assoc]
    obtain ⟨fuel, rfl⟩ : ∃ n, fuel = n + 1 := ⟨fuel - 1, by omega⟩
    have hvalue := hparse (codes (jsonJoin false (nextText :: texts)) ++ 93 :: rest) fuel
      (numberEnds_join (nextText :: texts) rfl rest) (by omega)
    obtain ⟨c, cs, heq, hws, hclose⟩ := hitem.first
      (codes (jsonJoin false (nextText :: texts)) ++ 93 :: rest)
    rw [heq] at hvalue ⊢
    rw [jsonJoin_false_cons, codes_cons, List.cons_append] at hvalue
    rw [jsonParseArr_comma hws hclose hvalue, hrest rest fuel _ (by omega)]
    simp

/-! ### Objects -/

theorem jsonStringifyObj_texts {formatDouble : D → List Char} {all : List (List UInt8 × Datum D)}
    (h : List.Forall₂ (fun entry text => ∃ value, Ascii entry.1 ∧
      hashTableRef all entry.1 = some entry.2 ∧
      jsonStringifyVal formatDouble entry.2 = .ok value ∧ text = memberText entry.1 value)
      entries texts) (first : Bool) (result : List UInt8) :
    jsonStringifyObj formatDouble all (hashTableKeys entries) first result =
      .ok (bytesOf "\x7b" ++ (result ++ jsonJoin first texts) ++ bytesOf "\x7d") := by
  induction h generalizing first result with
  | nil => simp [hashTableKeys, jsonStringifyObj, jsonJoin]
  | cons hentry _ ih =>
    obtain ⟨value, hascii, hfound, hvalue, rfl⟩ := hentry
    have hcolon : bytesOf ":" = [58] := rfl
    rw [hashTableKeys, List.map_cons, jsonStringifyObj, jsonEscapeStr_ascii hascii, ok_bind]
    split
    next value' hfound' =>
      rw [hfound] at hfound'
      cases hfound'
      rw [hvalue, ok_bind]
      refine (ih false _).trans ?_
      rw [jsonJoin, memberText, hcolon]
      simp
    next hnone =>
      rw [hfound] at hnone
      cases hnone

section Objects

variable {ops : DoubleOps D} {key : List UInt8} {fuel : ℕ} {cs rest : List ℕ} {w : Datum D}

theorem jsonParseObjLoop_comma (hkey : Ascii key)
    (hvalue : jsonParseValue ops fuel cs = .ok (w, 44 :: rest))
    (ht : List (List UInt8 × Datum D)) :
    jsonParseObjLoop ops (fuel + 1) (34 :: (codes (jsonLiteral key) ++ 58 :: cs)) ht =
      jsonParseObjLoop ops fuel rest (hashSet ht key w) := by
  rw [jsonParseObjLoop, jsonSkipWs_of_not rfl]
  have hstr : jsonParseStr (codes (jsonLiteral key) ++ 58 :: cs) [] = (key, 58 :: cs) :=
    jsonParseStr_escape hkey (58 :: cs) []
  simp only [hstr, jsonSkipWs_of_not (show jsonWhitespace 58 = false from rfl)]
  simp only [hvalue, ok_bind, jsonSkipWs_of_not (show jsonWhitespace 44 = false from rfl)]
  rfl

theorem jsonParseObjLoop_brace (hkey : Ascii key)
    (hvalue : jsonParseValue ops fuel cs = .ok (w, 125 :: rest))
    (ht : List (List UInt8 × Datum D)) :
    jsonParseObjLoop ops (fuel + 1) (34 :: (codes (jsonLiteral key) ++ 58 :: cs)) ht =
      .ok (.table (hashSet ht key w), rest) := by
  rw [jsonParseObjLoop, jsonSkipWs_of_not rfl]
  have hstr : jsonParseStr (codes (jsonLiteral key) ++ 58 :: cs) [] = (key, 58 :: cs) :=
    jsonParseStr_escape hkey (58 :: cs) []
  simp only [hstr, jsonSkipWs_of_not (show jsonWhitespace 58 = false from rfl)]
  simp only [hvalue, ok_bind, jsonSkipWs_of_not (show jsonWhitespace 125 = false from rfl)]
  rfl

end Objects

/-- The text of a member whose value is read back. -/
def MemberReads (ops : DoubleOps D) (entry : List UInt8 × Datum D) (text : List UInt8) : Prop :=
  ∃ value, Ascii entry.1 ∧ Reads ops entry.2 value ∧ text = memberText entry.1 value

theorem hashTableContains_append_single {ht : List (List UInt8 × Datum D)} {key key' : List UInt8}
    {w : Datum D} (h : hashTableContains ht key = false) (hne : key' ≠ key) :
    hashTableContains (ht ++ [(key', w)]) key = false := by
  simp only [hashTableContains, hashTableRef, Option.isSome_map, List.find?_append] at h ⊢
  simpa [hne] using h

/-- The members of a printed object are parsed, in their order. -/
theorem jsonParseObjLoop_texts {ops : DoubleOps D}
    (h : List.Forall₂ (MemberReads ops) entries texts) {entry : List UInt8 × Datum D}
    (hentry : MemberReads ops entry text) (hkeys : (hashTableKeys (entry :: entries)).Nodup) :
    ∃ entries', List.Forall₂ (fun e e' => e.1 = e'.1 ∧ Same Eq e.2 e'.2) (entry :: entries)
        entries' ∧
      ∀ rest fuel ht, (∀ e ∈ entry :: entries, hashTableContains ht e.1 = false) →
      2 * (jsonJoin true (text :: texts)).length + 2 ≤ fuel →
      jsonParseObjLoop ops fuel (codes (jsonJoin true (text :: texts)) ++ 125 :: rest) ht =
        .ok (.table (ht ++ entries'), rest) := by
  induction h generalizing entry text with
  | nil =>
    obtain ⟨value, hascii, hvalue, rfl⟩ := hentry
    obtain ⟨w, hsame, hparse⟩ := hvalue.parsed
    refine ⟨[(entry.1, w)], .cons ⟨rfl, hsame⟩ .nil, ?_⟩
    intro rest fuel ht hnew hfuel
    rw [show jsonJoin true [memberText entry.1 value] = memberText entry.1 value from
      List.append_nil _] at hfuel ⊢
    rw [memberText, List.length_append, List.length_cons, List.length_cons] at hfuel
    obtain ⟨fuel, rfl⟩ : ∃ n, fuel = n + 1 := ⟨fuel - 1, by omega⟩
    have hread := hparse (125 :: rest) fuel (numberEnds_join [] rfl rest) (by omega)
    rw [memberText, codes_append, List.append_assoc]
    refine (jsonParseObjLoop_brace hascii hread ht).trans ?_
    rw [hashSet_of_new (hnew entry (by simp))]
  | @cons next nextText entries texts hnext _ ih =>
    obtain ⟨value, hascii, hvalue, rfl⟩ := hentry
    obtain ⟨w, hsame, hparse⟩ := hvalue.parsed
    rw [hashTableKeys, List.map_cons, List.nodup_cons] at hkeys
    obtain ⟨entries', hentries', hloop⟩ := ih hnext hkeys.2
    refine ⟨(entry.1, w) :: entries', .cons ⟨rfl, hsame⟩ hentries', ?_⟩
    intro rest fuel ht hnew hfuel
    rw [jsonJoin_true_cons, jsonJoin_false_cons, memberText, List.length_append,
      List.length_append, List.length_cons, List.length_cons, List.length_cons] at hfuel
    rw [jsonJoin_true_cons, codes_append, List.append_assoc]
    obtain ⟨fuel, rfl⟩ : ∃ n, fuel = n + 1 := ⟨fuel - 1, by omega⟩
    have hread := hparse (codes (jsonJoin false (nextText :: texts)) ++ 125 :: rest) fuel
      (numberEnds_join (nextText :: texts) rfl rest) (by omega)
    have hnew' : ∀ e ∈ next :: entries, hashTableContains (ht ++ [(entry.1, w)]) e.1 = false := by
      intro e he
      refine hashTableContains_append_single (hnew e (List.mem_cons_of_mem _ he)) fun heq => ?_
      exact hkeys.1 (heq ▸ List.mem_map_of_mem he)
    rw [jsonJoin_false_cons, codes_cons, List.cons_append] at hread ⊢
    rw [memberText, codes_append, List.append_assoc]
    refine (jsonParseObjLoop_comma hascii hread ht).trans ?_
    rw [hashSet_of_new (hnew entry (by simp)), hloop rest fuel _ hnew' (by omega)]
    simp

/-! ### The round trip -/

/-- The data of the round trip: exact integers, ASCII strings, objects as finite maps, and arrays
that the printer does not take for an association list. -/
inductive Printable : Datum D → Prop
  | bool (b : Bool) : Printable (.bool b)
  | integer {x : Tagged D} {z : ℤ} (h : Operand x) (hz : x.toInt = some z) : Printable (.number x)
  | string {str : List UInt8} (h : Ascii str) : Printable (.string str)
  | list {items : List (Datum D)} (hshape : properAlist items = false)
      (h : ∀ item ∈ items, Printable item) : Printable (.list items)
  | table {entries : List (List UInt8 × Datum D)} (hkeys : (hashTableKeys entries).Nodup)
      (hascii : ∀ entry ∈ entries, Ascii entry.1) (h : ∀ entry ∈ entries, Printable entry.2) :
      Printable (.table entries)

theorem isDigit_ascii {c : Char} (h : c.isDigit = true) : c.toNat < 128 := by
  have := toNat_of_isDigit h
  omega

theorem ascii_intText {z : ℤ} {c : Char} (h : c ∈ intText z) :
    c.toNat < 128 ∧ numberChar c.toNat = true := by
  have hdigit (hc : c ∈ natText z.natAbs) : c.toNat < 128 ∧ numberChar c.toNat = true := by
    have hc := isDigit_of_mem_natText hc
    refine ⟨isDigit_ascii hc, ?_⟩
    rw [numberChar, jsonDigit_toNat hc]
    rfl
  rw [intText] at h
  split at h
  next =>
    rcases List.mem_cons.mp h with rfl | h
    · exact ⟨by decide, rfl⟩
    · exact hdigit h
  next => exact hdigit h

theorem intText_first (z : ℤ) :
    ∃ c cs, intText z = c :: cs ∧ (jsonDigit c.toNat || c.toNat = 45) = true := by
  obtain ⟨d, ds, hd, -, htext⟩ := intText_append z []
  rw [List.append_nil] at htext
  by_cases hz : z < 0
  · rw [if_pos hz] at htext
    exact ⟨'-', _, htext, rfl⟩
  · rw [if_neg hz] at htext
    exact ⟨d, _, htext, by rw [jsonDigit_toNat hd]; rfl⟩

theorem reads_integer (ops : DoubleOps D) {x : Tagged D} {z : ℤ} (h : Operand x)
    (hz : x.toInt = some z) : Reads ops (.number x) (Codec.Utf8.encode (intText z)) := by
  have hread := stringToNumber_integer ops h hz
  obtain ⟨hascii, hcodes⟩ := encode_ascii fun c (hc : c ∈ intText z) => (ascii_intText hc).1
  obtain ⟨c, cs, htext, hfirst⟩ := intText_first z
  obtain ⟨hws, hclose, hquote⟩ := number_first hfirst
  refine ⟨hascii, ?_, ?_, .number x, .number rfl, ?_⟩
  · rw [htext, List.map_cons] at hcodes
    obtain ⟨b, bs, heq, hb, -⟩ := List.map_eq_cons_iff.mp hcodes
    rw [← hb] at hws hclose
    exact ⟨b, bs, htext ▸ heq, hws, hclose⟩
  · intro rest b k
    rw [hcodes]
    refine jsonStructuralLoop_uncounted (fun d hd => ?_) rest b k
    obtain ⟨e, he, rfl⟩ := List.mem_map.mp hd
    exact uncounted_of_numberChar (ascii_intText he).2
  · intro rest fuel hends hfuel
    obtain ⟨fuel, rfl⟩ : ∃ n, fuel = n + 1 := ⟨fuel - 1, by omega⟩
    have htagged : ofTagged x = .number x := by
      cases x with
      | bool b => cases hz
      | int64 _ | double _ | float32 | bignum _ | rational _ => rfl
    have hnum := jsonParseNum_intText ops hread hends
    rw [htext, List.map_cons, List.cons_append] at hnum
    rw [hcodes, htext, List.map_cons, List.cons_append, jsonParseValue, jsonSkipWs_of_not hws]
    simp only [if_neg hquote, if_pos hfirst, hnum, htagged]

theorem reads_string (ops : DoubleOps D) {str : List UInt8} (h : Ascii str) :
    Reads ops (.string str) (34 :: jsonLiteral str) where
  ascii := by
    rw [Ascii, List.forall_mem_cons]
    exact ⟨by decide, ascii_jsonLiteral h⟩
  head := ⟨34, jsonLiteral str, rfl, rfl, by decide⟩
  scanned := fun rest b k => jsonStructuralLoop_literal h rest b k
  parsed := by
    refine ⟨.string str, .string str, fun rest fuel _ hfuel => ?_⟩
    obtain ⟨fuel, rfl⟩ : ∃ n, fuel = n + 1 := ⟨fuel - 1, by omega⟩
    have hstr : jsonParseStr (codes (jsonLiteral str) ++ rest) [] = (str, rest) :=
      jsonParseStr_escape h rest []
    rw [codes_cons, List.cons_append, jsonParseValue, jsonSkipWs_of_not rfl]
    simp only [hstr]
    rfl

theorem reads_word {ops : DoubleOps D} {b : UInt8} {bs : List UInt8} (hascii : Ascii (b :: bs))
    (hfirst : jsonWhitespace b.toNat = false ∧ b.toNat ≠ 93)
    (hplain : ∀ c ∈ codes (b :: bs), uncounted c = true) (hsame : Same Eq v v)
    (hparse : ∀ rest fuel,
      jsonParseValue ops (fuel + 1) (codes (b :: bs) ++ rest) = .ok (v, rest)) :
    Reads ops v (b :: bs) where
  ascii := hascii
  head := ⟨b, bs, rfl, hfirst⟩
  scanned := jsonStructuralLoop_uncounted hplain
  parsed := by
    refine ⟨v, hsame, fun rest fuel _ hfuel => ?_⟩
    obtain ⟨fuel, rfl⟩ : ∃ n, fuel = n + 1 := ⟨fuel - 1, by omega⟩
    exact hparse rest fuel

theorem reads_true (ops : DoubleOps D) : Reads ops (.bool true) (bytesOf "true") := by
  rw [show bytesOf "true" = [116, 114, 117, 101] from rfl]
  exact reads_word (by simp [Ascii]) ⟨rfl, by simp⟩ (by simp [uncounted]) (.bool true)
    fun _ _ => rfl

theorem reads_false (ops : DoubleOps D) : Reads ops (.bool false) (bytesOf "false") := by
  rw [show bytesOf "false" = [102, 97, 108, 115, 101] from rfl]
  exact reads_word (by simp [Ascii]) ⟨rfl, by simp⟩ (by simp [uncounted]) (.bool false)
    fun _ _ => rfl

theorem reads_null (ops : DoubleOps D) : Reads ops .null (bytesOf "null") := by
  rw [show bytesOf "null" = [110, 117, 108, 108] from rfl]
  exact reads_word (by simp [Ascii]) ⟨rfl, by simp⟩ (by simp [uncounted]) (.list .nil)
    fun _ _ => rfl

theorem ascii_append {s t : List UInt8} : Ascii (s ++ t) ↔ Ascii s ∧ Ascii t :=
  List.forall_mem_append

theorem ascii_jsonJoin (h : ∀ text ∈ texts, Ascii text) (first : Bool) :
    Ascii (jsonJoin first texts) := by
  induction texts generalizing first with
  | nil => simp [jsonJoin, Ascii]
  | cons text texts ih =>
    rw [List.forall_mem_cons] at h
    have hcomma : Ascii (jsonComma first) := by
      cases first with
      | true => simp [jsonComma, Ascii]
      | false =>
        rw [show jsonComma false = [44] from rfl]
        simp [Ascii]
    rw [jsonJoin, ascii_append, ascii_append]
    exact ⟨⟨hcomma, h.1⟩, ih h.2 false⟩

theorem jsonStructuralLoop_join
    (h : ∀ text ∈ texts, ∀ rest b k, jsonStructuralLoop (codes text ++ rest) b k false false =
      jsonStructuralLoop rest b k false false) (first : Bool) (rest : List ℕ) (b k : ℤ) :
    jsonStructuralLoop (codes (jsonJoin first texts) ++ rest) b k false false =
      jsonStructuralLoop rest b k false false := by
  induction texts generalizing first with
  | nil => rfl
  | cons text texts ih =>
    rw [List.forall_mem_cons] at h
    rw [jsonJoin, codes_append, codes_append, List.append_assoc, List.append_assoc]
    cases first with
    | true => exact (h.1 _ b k).trans (ih h.2 false)
    | false => exact (h.1 _ b k).trans (ih h.2 false)

theorem exists_forall₂ {α β : Type} {R : α → β → Prop} {as : List α} (h : ∀ a ∈ as, ∃ b, R a b) :
    ∃ bs, List.Forall₂ R as bs := by
  induction as with
  | nil => exact ⟨[], .nil⟩
  | cons a as ih =>
    rw [List.forall_mem_cons] at h
    obtain ⟨b, hb⟩ := h.1
    obtain ⟨bs, hbs⟩ := ih h.2
    exact ⟨b :: bs, .cons hb hbs⟩

theorem forall_texts {α : Type} {R : α → List UInt8 → Prop} {P : List UInt8 → Prop} {as : List α}
    (h : List.Forall₂ R as texts) (hP : ∀ a text, R a text → P text) : ∀ text ∈ texts, P text := by
  induction h with
  | nil => simp
  | cons hhead _ ih =>
    rw [List.forall_mem_cons]
    exact ⟨hP _ _ hhead, ih⟩

theorem reads_list {ops : DoubleOps D} {items : List (Datum D)} {texts : List (List UInt8)}
    (h : List.Forall₂ (Reads ops) items texts) (hne : items ≠ []) :
    Reads ops (.list items) (91 :: (jsonJoin true texts ++ [93])) := by
  have hascii := forall_texts h fun _ _ hread => hread.ascii
  have hscan := forall_texts h fun _ _ hread => hread.scanned
  cases h with
  | nil => exact absurd rfl hne
  | @cons item text items texts hitem htail =>
    obtain ⟨ws, hsame, hparse⟩ := jsonParseArr_texts htail hitem
    refine ⟨?_, ⟨91, _, rfl, rfl, by simp⟩, ?_, .list ws, .list hsame, ?_⟩
    · rw [Ascii, List.forall_mem_cons, List.forall_mem_append]
      exact ⟨by simp, ascii_jsonJoin hascii true, by simp⟩
    · intro rest b k
      rw [codes_cons, codes_append, List.cons_append, List.append_assoc, jsonStructuralLoop]
      refine (jsonStructuralLoop_join hscan true _ b (k + 1)).trans ?_
      refine congrArg (fun k => jsonStructuralLoop rest b k false false) ?_
      exact Int.add_sub_cancel k 1
    · intro rest fuel _ hfuel
      obtain ⟨fuel, rfl⟩ : ∃ n, fuel = n + 1 := ⟨fuel - 1, by omega⟩
      rw [List.length_cons, List.length_append, List.length_singleton] at hfuel
      rw [codes_cons, codes_append, List.cons_append, List.append_assoc]
      exact hparse rest fuel [] (by omega)

/-- A printed object is read back. -/
theorem reads_table {ops : DoubleOps D} (h : List.Forall₂ (MemberReads ops) entries texts)
    (hkeys : (hashTableKeys entries).Nodup) :
    Reads ops (.table entries) (123 :: (jsonJoin true texts ++ [125])) := by
  have hmember : ∀ entry text, MemberReads ops entry text → Ascii text ∧
      ∀ rest b k, jsonStructuralLoop (codes text ++ rest) b k false false =
        jsonStructuralLoop rest b k false false := by
    rintro entry text ⟨value, hascii, hvalue, rfl⟩
    constructor
    · rw [memberText, ascii_append]
      refine ⟨(reads_string ops hascii).ascii, ?_⟩
      rw [Ascii, List.forall_mem_cons]
      exact ⟨by simp, hvalue.ascii⟩
    · intro rest b k
      rw [memberText, codes_append, List.append_assoc, (reads_string ops hascii).scanned]
      exact hvalue.scanned rest b k
  have hascii := forall_texts h fun _ _ hread => (hmember _ _ hread).1
  have hscan := forall_texts h fun _ _ hread => (hmember _ _ hread).2
  refine ⟨?_, ⟨123, _, rfl, rfl, by simp⟩, ?_, ?_⟩
  · rw [Ascii, List.forall_mem_cons, List.forall_mem_append]
    exact ⟨by simp, ascii_jsonJoin hascii true, by simp⟩
  · intro rest b k
    rw [codes_cons, codes_append, List.cons_append, List.append_assoc, jsonStructuralLoop]
    refine (jsonStructuralLoop_join hscan true _ (b + 1) k).trans ?_
    refine congrArg (fun b => jsonStructuralLoop rest b k false false) ?_
    exact Int.add_sub_cancel b 1
  cases h with
  | nil =>
    refine ⟨.table [], .table_of_forall₂ .nil, fun rest fuel _ hfuel => ?_⟩
    obtain ⟨fuel, rfl⟩ : ∃ n, fuel = n + 2 := ⟨fuel - 2, by simp [jsonJoin] at hfuel; omega⟩
    rfl
  | @cons entry text entries texts hentry htail =>
    obtain ⟨entries', hsame, hparse⟩ := jsonParseObjLoop_texts htail hentry hkeys
    refine ⟨.table entries', .table_of_forall₂ hsame, fun rest fuel _ hfuel => ?_⟩
    obtain ⟨fuel, rfl⟩ : ∃ n, fuel = n + 1 := ⟨fuel - 1, by omega⟩
    rw [List.length_cons, List.length_append, List.length_singleton] at hfuel
    rw [codes_cons, codes_append, List.cons_append, List.append_assoc]
    exact hparse rest fuel [] (fun _ _ => rfl) (by omega)

/-- Every printable value has a text that is read back. -/
theorem jsonStringifyVal_reads (ops : DoubleOps D) (formatDouble : D → List Char) {v : Datum D}
    (h : Printable v) : ∃ text, jsonStringifyVal formatDouble v = .ok text ∧ Reads ops v text := by
  induction h with
  | bool b =>
    refine ⟨_, by rw [jsonStringifyVal], ?_⟩
    cases b with
    | true => exact reads_true ops
    | false => exact reads_false ops
  | @integer x z hx hz =>
    refine ⟨_, ?_, reads_integer ops hx hz⟩
    have hprint := numberToString_integer formatDouble [] hx hz
    rw [jsonStringifyVal]
    · rw [hprint, ok_bind]
    · rintro rfl
      cases hz
  | @string str hstr =>
    refine ⟨_, ?_, reads_string ops hstr⟩
    rw [jsonStringifyVal, jsonEscapeStr_ascii hstr]
  | @list items hshape _ ih =>
    obtain ⟨texts, htexts⟩ := exists_forall₂ ih
    by_cases hne : items = []
    · subst hne
      exact ⟨_, by rw [jsonStringifyVal], reads_null ops⟩
    · refine ⟨_, ?_, reads_list (htexts.imp fun _ _ h => h.2) hne⟩
      rw [jsonStringifyVal]
      · rw [hshape, if_neg Bool.false_ne_true]
        exact jsonStringifyArr_texts (htexts.imp fun _ _ h => h.1) true []
      · exact hne
  | @table entries hkeys hascii _ ih =>
    have hmember : ∀ entry ∈ entries, ∃ text, ∃ value, Ascii entry.1 ∧
        hashTableRef entries entry.1 = some entry.2 ∧
        jsonStringifyVal formatDouble entry.2 = .ok value ∧ Reads ops entry.2 value ∧
        text = memberText entry.1 value := by
      intro entry hentry
      obtain ⟨value, hvalue, hread⟩ := ih entry hentry
      exact ⟨_, value, hascii entry hentry, hashTableRef_of_mem hkeys hentry, hvalue, hread, rfl⟩
    obtain ⟨texts, htexts⟩ := exists_forall₂ hmember
    refine ⟨_, ?_, reads_table (htexts.imp ?_) hkeys⟩
    · rw [jsonStringifyVal]
      refine jsonStringifyObj_texts (htexts.imp ?_) true []
      rintro entry text ⟨value, hkey, hfound, hvalue, -, htext⟩
      exact ⟨value, hkey, hfound, hvalue, htext⟩
    · rintro entry text ⟨value, hkey, -, -, hread, htext⟩
      exact ⟨value, hkey, hread, htext⟩

theorem jsonTryParse_reads {ops : DoubleOps D} (h : Reads ops v text) :
    ∃ w, jsonTryParse ops (.string text) = .ok (.ok w) ∧ Same Eq v w := by
  obtain ⟨w, hsame, hparse⟩ := h.parsed
  obtain ⟨c, cs, hcodes, hws, -⟩ := h.first []
  have hscan : jsonStructuralError (codes text) = none := by
    rw [← List.append_nil (codes text)]
    exact h.scanned [] 0 0
  have hread := hparse [] (2 * (codes text).length + 1) (by simp [NumberEnds])
    (by rw [length_codes]; omega)
  rw [List.append_nil] at hcodes hread
  refine ⟨w, ?_, hsame⟩
  rw [jsonTryParse, stringCodes_ascii h.ascii, ok_bind, jsonTryParseCodes, hscan,
    jsonParseDocument, hread, hcodes, jsonSkipWs_of_not hws]
  rfl

/-- **The round trip.** -/
theorem jsonParse_jsonStringify (ops : DoubleOps D) (formatDouble : D → List Char) (v : Datum D)
    (h : Printable v) : ∃ text w, jsonStringify formatDouble v = .ok text ∧
      jsonParse ops text = .ok w ∧ Same Eq v w := by
  obtain ⟨text, htext, hreads⟩ := jsonStringifyVal_reads ops formatDouble h
  obtain ⟨w, hparse, hsame⟩ := jsonTryParse_reads hreads
  refine ⟨.string text, w, ?_, ?_, hsame⟩
  · rw [jsonStringify, htext, ok_bind]
  · rw [jsonParse, hparse, ok_bind]

/-- An object with an array in it. -/
theorem jsonParse_jsonStringify_object :
    ∃ text w, jsonStringify (fun _ : Unit => [])
        (.table [([97], .list [.number (.int64 (-1)), .null, .string [34]])]) = .ok text ∧
      jsonParse DoubleOps.unit text = .ok w ∧
      Same Eq (.table [([97], .list [.number (.int64 (-1)), .null, .string [34]])]) w := by
  refine jsonParse_jsonStringify DoubleOps.unit (fun _ => []) _ (.table ?_ ?_ ?_)
  · simp [hashTableKeys]
  · simp [Ascii]
  · refine List.forall_mem_singleton.mpr (.list rfl ?_)
    rw [List.forall_mem_cons, List.forall_mem_cons, List.forall_mem_singleton]
    exact ⟨.integer ⟨trivial, trivial⟩ rfl, .list rfl (by simp), .string (by simp [Ascii])⟩

/-- The array that holds the array of one string, which the parser makes and the printer takes for
an association list. -/
theorem jsonStringify_takes_array_for_object :
    jsonParse DoubleOps.unit (.string (bytesOf "[[\"a\"]]")) = .ok (.list [.list [.string [97]]]) ∧
      ¬∃ text w, jsonStringify (fun _ : Unit => []) (.list [.list [.string [97]]]) = .ok text ∧
        jsonParse DoubleOps.unit text = .ok w ∧ Same Eq (.list [.list [.string [97]]]) w := by
  have hkey : jsonEscapeStr [97] = .ok [34, 97, 34] := jsonEscapeStr_ascii (by simp [Ascii])
  have htext : jsonStringify (fun _ : Unit => []) (.list [.list [.string [97]]]) =
      .ok (.string (bytesOf "\x7b\"a\":null\x7d")) := by
    simp only [jsonStringify, jsonStringifyVal, properAlist, alistEntry, jsonStringifyAlist, hkey,
      if_true, ok_bind]
    rfl
  have hparse : jsonParse DoubleOps.unit (.string (bytesOf "\x7b\"a\":null\x7d")) =
      .ok (.table [([97], .null)]) := rfl
  refine ⟨rfl, ?_⟩
  rintro ⟨text, w, htext', hparse', hsame⟩
  rw [htext] at htext'
  cases htext'
  rw [hparse] at hparse'
  cases hparse'
  cases hsame

end Eshkol.Core.Json
