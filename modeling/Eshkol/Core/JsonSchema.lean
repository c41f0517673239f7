import Eshkol.Core.JsonValue
import Eshkol.Core.Strings

/-!
# JSON Schema Validation

The validator of `lib/core/json_schema.esk`. A schema is itself a JSON datum. Each check answers a
list of errors with their paths, and a value is valid when the lists are all empty. The checks
take the validator for sub-schemas as an argument; `validate` closes the recursion.

The builtins on numbers and `equal?` are parameters. Where a keyword does not have the form that
JSON Schema gives it and the builtins would raise, the model reads it as absent.
-/

namespace Eshkol.Core.Json

/-- The builtins that the validator calls on numbers, and `equal?`. -/
structure Builtins (N : Type) where
  /-- `integer?` -/
  isInteger : N → Bool
  /-- `<` -/
  less : N → N → Bool
  /-- `number->string` -/
  numberToString : N → List Char
  /-- `length` and `string-length` as numbers -/
  ofNat : ℕ → N
  /-- `equal?` -/
  equal : Value N → Value N → Bool

mutual

/-- `equal?` on data of which no hash table is shared, over its answer on numbers. Hash tables are
compared by their address. -/
def equalData {N : Type} (equalNumber : N → N → Bool) : Value N → Value N → Bool
  | .bool a, .bool b => a == b
  | .number x, .number y => equalNumber x y
  | .string s, .string t => cText s == cText t
  | .list xs, .list ys => equalItems equalNumber xs ys
  | _, _ => false

/-- `equal?` on lists. -/
def equalItems {N : Type} (equalNumber : N → N → Bool) : List (Value N) → List (Value N) → Bool
  | [], [] => true
  | x :: xs, y :: ys => equalData equalNumber x y && equalItems equalNumber xs ys
  | _, _ => false

end

variable {N : Type} (B : Builtins N)

/-! ### Types -/

def jsvTypeName : Value N → String
  | .bool _ => "boolean"
  | .list [] => "null"
  | .number x => if B.isInteger x then "integer" else "number"
  | .string _ => "string"
  | .table _ => "object"
  | .list _ => "array"

def jsvIsObject : Value N → Bool
  | .table _ => true
  | _ => false

def jsvIsArray : Value N → Bool
  | .list (_ :: _) => true
  | _ => false

/-- `jsv-is-empty-array?` and `jsv-is-null?`. -/
def jsvIsNull : Value N → Bool
  | .list [] => true
  | _ => false

def jsvIsString : Value N → Bool
  | .string _ => true
  | _ => false

def jsvIsInteger : Value N → Bool
  | .number x => B.isInteger x
  | _ => false

def jsvIsNumber : Value N → Bool
  | .number _ => true
  | _ => false

def jsvIsBoolean : Value N → Bool
  | .bool _ => true
  | _ => false

/-- `jsv-matches-type?`. `string=?` compares up to the first NUL. -/
def jsvMatchesType (v : Value N) (type : List Char) : Bool :=
  if cText type = "object".toList then jsvIsObject v
  else if cText type = "array".toList then jsvIsArray v || jsvIsNull v
  else if cText type = "string".toList then jsvIsString v
  else if cText type = "integer".toList then jsvIsInteger B v
  else if cText type = "number".toList then jsvIsNumber v
  else if cText type = "boolean".toList then jsvIsBoolean v
  else if cText type = "null".toList then jsvIsNull v
  else false

/-! ### Access and errors -/

/-- `hash-table-ref` on the hash tables of the program, which compare string keys with `strcmp`. -/
def tableRef (entries : List (List Char × Value N)) (key : List Char) : Option (Value N) :=
  (entries.find? fun entry => cText entry.1 = cText key).map Prod.snd

/-- `hash-table-contains?`. -/
def tableContains (entries : List (List Char × Value N)) (key : List Char) : Bool :=
  (tableRef entries key).isSome

/-- `s-get`, with the keyword's absence as `none`. -/
def sGet (schema : List (List Char × Value N)) (key : String) : Option (Value N) :=
  tableRef schema key.toList

/-- The elements of a list. -/
def elements : Value N → List (Value N)
  | .list items => items
  | _ => []

/-- The text of a string. -/
def text : Value N → List Char
  | .string s => s
  | _ => []

def pathExtend (path segment : List Char) : List Char := path ++ "/".toList ++ segment

def mkerr (path : List Char) (msg : List Char) : List Char := path ++ ": ".toList ++ msg

def checkType (schema : List (List Char × Value N)) (value : Value N) (path : List Char) :
    List (List Char) :=
  match sGet schema "type" with
  | none | some (.list []) => []
  | some (.string t) =>
    if jsvMatchesType B value t then []
    else
      [mkerr path ("expected ".toList ++ t ++ ", got ".toList ++ (jsvTypeName B value).toList)]
  | some (.list t) =>
    if t.any fun typename => jsvMatchesType B value (text typename) then []
    else
      [mkerr path ("expected one of [".toList ++ stringJoin (t.map text) ", ".toList ++
        "], got ".toList ++ (jsvTypeName B value).toList)]
  | some _ => []

def checkEnum (schema : List (List Char × Value N)) (value : Value N) (path : List Char) :
    List (List Char) :=
  match sGet schema "enum" with
  | none | some (.list []) => []
  | some e =>
    if (elements e).any fun allowed => B.equal value allowed then []
    else [mkerr path "value not in `enum`".toList]

def checkConst (schema : List (List Char × Value N)) (value : Value N) (path : List Char) :
    List (List Char) :=
  match sGet schema "const" with
  | none => []
  | some c =>
    if B.equal value c then [] else [mkerr path "value does not match `const`".toList]

/-! ### Combinators -/

section Combinators

variable (validate : Value N → Value N → List Char → List (List Char))
  (schema : List (List Char × Value N)) (value : Value N) (path : List Char)

def checkAllOf : List (List Char) :=
  match sGet schema "allOf" with
  | none => []
  | some subs => (elements subs).flatMap fun sub => validate sub value path

def checkAnyOf : List (List Char) :=
  match sGet schema "anyOf" with
  | none | some (.list []) => []
  | some subs =>
    if (elements subs).any fun sub => (validate sub value path).isEmpty then []
    else [mkerr path "did not match any subschema in `anyOf`".toList]

/-- The loop of `count-matching`. -/
def countMatching (value : Value N) (path : List Char) : List (Value N) → ℕ → ℕ
  | [], n => n
  | sub :: subs, n =>
    if (validate sub value path).isEmpty then countMatching value path subs (n + 1)
    else countMatching value path subs n

def checkOneOf : List (List Char) :=
  match sGet schema "oneOf" with
  | none | some (.list []) => []
  | some subs =>
    let n := countMatching validate value path (elements subs) 0
    if n = 1 then []
    else if n = 0 then [mkerr path "matched no subschema in `oneOf`".toList]
    else
      [mkerr path ("matched ".toList ++ (Nat.repr n).toList ++
        " subschemas in `oneOf` (expected 1)".toList)]

def checkNot : List (List Char) :=
  match sGet schema "not" with
  | none | some (.list []) => []
  | some sub =>
    if (validate sub value path).isEmpty then
      [mkerr path "value matched `not` subschema".toList]
    else []

def checkCombinators : List (List Char) :=
  checkAllOf validate schema value path ++ checkAnyOf validate schema value path ++
    checkOneOf validate schema value path ++ checkNot validate schema value path

end Combinators

/-- One bound of a rule: an error where the keyword is a number that fulfils the test. -/
def checkBound (schema : List (List Char × Value N)) (key : String) (test : N → Bool)
    (path : List Char) (msg : String) : List (List Char) :=
  match sGet schema key with
  | some (.number x) =>
    if test x then [mkerr path (msg.toList ++ B.numberToString x)] else []
  | _ => []

/-- `check-string-rules`. A pattern is a text that the string has to contain. -/
def checkStringRules (schema : List (List Char × Value N)) (value path : List Char) :
    List (List Char) :=
  let n := B.ofNat value.length
  checkBound B schema "minLength" (fun minl => B.isInteger minl && B.less n minl) path
      "string shorter than minLength=" ++
    checkBound B schema "maxLength" (fun maxl => B.isInteger maxl && B.less maxl n) path
      "string longer than maxLength=" ++
    match sGet schema "pattern" with
    | some (.string pat) =>
      if pat.length = 0 then []
      else if stringContains value pat then []
      else [mkerr path ("string does not contain pattern \"".toList ++ pat ++ "\"".toList)]
    | _ => []

def checkNumberRules (schema : List (List Char × Value N)) (value : N) (path : List Char) :
    List (List Char) :=
  checkBound B schema "minimum" (fun mi => B.less value mi) path "value < minimum=" ++
    checkBound B schema "maximum" (fun ma => B.less ma value) path "value > maximum=" ++
    checkBound B schema "exclusiveMinimum" (fun xmi => !B.less xmi value) path
      "value <= exclusiveMinimum=" ++
    checkBound B schema "exclusiveMaximum" (fun xma => !B.less value xma) path
      "value >= exclusiveMaximum="

def validateArrayItems (validate : Value N → Value N → List Char → List (List Char))
    (itemSchema : Value N) (path : List Char) : List (Value N) → ℕ → List (List Char)
  | [], _ => []
  | item :: items, idx =>
    validate itemSchema item (pathExtend path (Nat.repr idx).toList) ++
      validateArrayItems validate itemSchema path items (idx + 1)

def checkArrayRules (validate : Value N → Value N → List Char → List (List Char))
    (schema : List (List Char × Value N)) (value : List (Value N)) (path : List Char) :
    List (List Char) :=
  let n := B.ofNat value.length
  let got := (Nat.repr value.length)
  checkBound B schema "minItems" (fun mi => B.isInteger mi && B.less n mi) path
      ("array length " ++ got ++ " < minItems=") ++
    checkBound B schema "maxItems" (fun ma => B.isInteger ma && B.less ma n) path
      ("array length " ++ got ++ " > maxItems=") ++
    match sGet schema "items" with
    | some (.table entries) => validateArrayItems validate (.table entries) path value 0
    | _ => []

/-! ### Objects -/

def checkRequired (required : Option (Value N)) (value : List (List Char × Value N))
    (path : List Char) : List (List Char) :=
  match required with
  | some (.list names) =>
    names.flatMap fun k =>
      match k with
      | .string k =>
        if tableContains value k then []
        else [mkerr (pathExtend path k) "missing required property".toList]
      | _ => []
  | _ => []

def checkProperties (validate : Value N → Value N → List Char → List (List Char))
    (props : Option (Value N)) (value : List (List Char × Value N)) (path : List Char) :
    List (List Char) :=
  match props with
  | some (.table props) =>
    (hashTableKeys props).flatMap fun k =>
      if tableContains value k then
        validate ((tableRef props k).getD .null) ((tableRef value k).getD .null) (pathExtend path k)
      else []
  | _ => []

/-- `check-additional`. Only `false` is looked at, and only where there are properties; `member`
compares names up to the first NUL. -/
def checkAdditional (props additional : Option (Value N)) (value : List (List Char × Value N))
    (path : List Char) : List (List Char) :=
  match additional with
  | some (.bool false) =>
    match props with
    | some (.table props) =>
      (hashTableKeys value).flatMap fun k =>
        if (hashTableKeys props).any fun known => cText k = cText known then []
        else [mkerr (pathExtend path k) "additional property not allowed".toList]
    | _ => []
  | _ => []

def checkObjectRules (validate : Value N → Value N → List Char → List (List Char))
    (schema : List (List Char × Value N)) (value : List (List Char × Value N))
    (path : List Char) : List (List Char) :=
  checkRequired (sGet schema "required") value path ++
    checkProperties validate (sGet schema "properties") value path ++
    checkAdditional (sGet schema "properties") (sGet schema "additionalProperties") value path

/-! ### The validator -/

/-- The rules of `validate` for the kind of the value. -/
def checkValueRules (validate : Value N → Value N → List Char → List (List Char))
    (schema : List (List Char × Value N)) (value : Value N) (path : List Char) :
    List (List Char) :=
  match value with
  | .string s => checkStringRules B schema s path
  | .number x => checkNumberRules B schema x path
  | .list items => checkArrayRules B validate schema items path
  | .table entries => checkObjectRules validate schema entries path
  | .bool _ => []

/-- The body of `validate` for a schema that is a hash table. -/
def validateTable (validate : Value N → Value N → List Char → List (List Char))
    (schema : List (List Char × Value N)) (value : Value N) (path : List Char) :
    List (List Char) :=
  checkType B schema value path ++ checkEnum B schema value path ++
    checkConst B schema value path ++ checkCombinators validate schema value path ++
    checkValueRules B validate schema value path

/-- `validate`. Every sub-schema is a part of its schema, so that the recursion ends. -/
def validate (schema value : Value N) (path : List Char) : List (List Char) :=
  match schema with
  | .bool true => []
  | .bool false => [mkerr path "schema is `false` — value rejected".toList]
  | .table entries =>
    validateTable B
      (fun sub value path =>
        if _ : sub.size < (Value.table entries).size then validate sub value path else [])
      entries value path
  | _ => []
termination_by schema.size

def jsonSchemaValidate (schema value : Value N) : List (List Char) := validate B schema value []

def jsonSchemaValid (schema value : Value N) : Bool := (jsonSchemaValidate B schema value).isEmpty

end Eshkol.Core.Json
