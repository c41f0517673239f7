import Eshkol.Core.JsonSchema

/-!
# What a JSON Schema Means

The satisfaction relation of JSON Schema for the keywords `type`, `enum`, `const`, `allOf`,
`anyOf`, `oneOf`, `not`, `items`, `required`, `properties` and `additionalProperties`, over the
data that represent JSON values. Names of properties are compared exactly. `Meaning sat` is what
the keywords of one schema ask of a value, given what their sub-schemas mean; `Satisfies` closes
the recursion.
-/

namespace Eshkol.Core.Json

variable {N : Type}

/-! ### Schemas -/

/-- The keywords. -/
def keywords : List (List Char) :=
  ["type", "enum", "const", "allOf", "anyOf", "oneOf", "not", "items", "required", "properties",
    "additionalProperties"].map String.toList

/-- The names of the JSON types. -/
def typeNames : List (List Char) :=
  ["object", "array", "string", "integer", "number", "boolean", "null"].map String.toList

/-- The sub-schemas of a schema. -/
inductive Subschema (schema : List (List Char × Value N)) : Value N → Prop
  | member {key : String} {subs : List (Value N)} {sub : Value N}
      (hkey : key ∈ ["allOf", "anyOf", "oneOf"]) (h : sGet schema key = some (.list subs))
      (hsub : sub ∈ subs) : Subschema schema sub
  | direct {key : String} {sub : Value N} (hkey : key ∈ ["not", "items", "additionalProperties"])
      (h : sGet schema key = some sub) : Subschema schema sub
  | property {props : List (List Char × Value N)} {k : List Char} {sub : Value N}
      (h : sGet schema "properties" = some (.table props))
      (hsub : hashTableRef props k = some sub) : Subschema schema sub

variable {schema : List (List Char × Value N)} {value : Value N}

theorem size_lt_of_tableRef {entries : List (List Char × Value N)} {k : List Char} {v : Value N}
    (h : tableRef entries k = some v) : v.size < (Value.table entries).size := by
  obtain ⟨entry, hfound, rfl⟩ := Option.map_eq_some_iff.mp h
  rw [Value.size]
  exact Nat.lt_succ_of_le (sizeEntries_le (List.mem_of_find?_eq_some hfound))

theorem Subschema.size_lt {sub : Value N} (h : Subschema schema sub) :
    sub.size < (Value.table schema).size := by
  cases h with
  | member _ h hsub => exact Nat.lt_trans (size_lt_of_mem hsub) (size_lt_of_tableRef h)
  | direct _ h => exact size_lt_of_tableRef h
  | property h hsub =>
    exact Nat.lt_trans (size_lt_of_hashTableRef hsub) (size_lt_of_tableRef h)

/-- The keywords of a schema have the forms that JSON Schema gives them. -/
structure WellFormed (schema : List (List Char × Value N)) : Prop where
  keys : ∀ k ∈ hashTableKeys schema, k ∈ keywords
  type : ∀ t, sGet schema "type" = some t → (∃ name ∈ typeNames, t = .string name) ∨
    ∃ names, t = .list names ∧ names ≠ [] ∧ ∀ t ∈ names, ∃ name ∈ typeNames, t = .string name
  enum : ∀ e, sGet schema "enum" = some e → ∃ es, e = .list es
  combinator : ∀ key ∈ ["allOf", "anyOf", "oneOf"], ∀ s, sGet schema key = some s →
    ∃ subs, s = .list subs ∧ subs ≠ []
  required : ∀ r, sGet schema "required" = some r →
    ∃ names, r = .list names ∧ ∀ name ∈ names, ∃ s, name = .string s
  properties : ∀ p, sGet schema "properties" = some p → ∃ props, p = .table props

/-- A schema: a boolean, or a table of keywords whose sub-schemas are schemas. -/
inductive IsSchema : Value N → Prop
  | bool (b : Bool) : IsSchema (.bool b)
  | table {schema : List (List Char × Value N)} (form : WellFormed schema)
      (subs : ∀ sub, Subschema schema sub → IsSchema sub) : IsSchema (.table schema)

/-! ### Satisfaction -/

variable (B : Builtins N) (num : N → N → Prop)

/-- A value is of a JSON type. The empty list is the empty array and `null`. -/
inductive HasType : Value N → List Char → Prop
  | object (entries : List (List Char × Value N)) : HasType (.table entries) "object".toList
  | array (items : List (Value N)) : HasType (.list items) "array".toList
  | string (s : List Char) : HasType (.string s) "string".toList
  | integer {x : N} (h : B.isInteger x = true) : HasType (.number x) "integer".toList
  | number (x : N) : HasType (.number x) "number".toList
  | boolean (b : Bool) : HasType (.bool b) "boolean".toList
  | null : HasType .null "null".toList

/-- A property has a sub-schema under `properties`. -/
def Named (schema : List (List Char × Value N)) (k : List Char) : Prop :=
  ∃ props, sGet schema "properties" = some (.table props) ∧ hashTableContains props k = true

/-- Exactly one member of a list has a property. -/
def ExactlyOne (p : Value N → Prop) (subs : List (Value N)) : Prop :=
  ∃ front sub back, subs = front ++ sub :: back ∧ p sub ∧ ∀ other ∈ front ++ back, ¬p other

/-- What the keywords of a schema ask of a value, where `sat` is what their sub-schemas ask. -/
structure Meaning (sat : Value N → Value N → Prop) (schema : List (List Char × Value N))
    (value : Value N) : Prop where
  type_name : ∀ name, sGet schema "type" = some (.string name) → HasType B value name
  type_names : ∀ names, sGet schema "type" = some (.list names) →
    ∃ name, .string name ∈ names ∧ HasType B value name
  enum : ∀ es, sGet schema "enum" = some (.list es) → ∃ e ∈ es, Same num value e
  const : ∀ c, sGet schema "const" = some c → Same num value c
  allOf : ∀ subs, sGet schema "allOf" = some (.list subs) → ∀ sub ∈ subs, sat sub value
  anyOf : ∀ subs, sGet schema "anyOf" = some (.list subs) → ∃ sub ∈ subs, sat sub value
  oneOf : ∀ subs, sGet schema "oneOf" = some (.list subs) → ExactlyOne (sat · value) subs
  not : ∀ sub, sGet schema "not" = some sub → ¬sat sub value
  items : ∀ sub, sGet schema "items" = some sub → ∀ items, value = .list items →
    ∀ item ∈ items, sat sub item
  required : ∀ names, sGet schema "required" = some (.list names) →
    ∀ members, value = .table members → ∀ name, .string name ∈ names →
      hashTableContains members name = true
  properties : ∀ props, sGet schema "properties" = some (.table props) →
    ∀ members, value = .table members → ∀ k sub v, hashTableRef props k = some sub →
      hashTableRef members k = some v → sat sub v
  additionalProperties : ∀ sub, sGet schema "additionalProperties" = some sub →
    ∀ members, value = .table members → ∀ k v, hashTableRef members k = some v →
      ¬Named schema k → sat sub v

/-- A value satisfies a schema. -/
def Satisfies (schema value : Value N) : Prop :=
  match schema with
  | .bool b => b = true
  | .table entries =>
    Meaning B num
      (fun sub v => ∃ _ : sub.size < (Value.table entries).size, Satisfies sub v) entries value
  | _ => False
termination_by schema.size

@[simp] theorem satisfies_bool {b : Bool} : Satisfies B num (.bool b) value ↔ b = true := by
  rw [Satisfies]

variable {B num}

theorem ExactlyOne.congr {p q : Value N → Prop} {subs : List (Value N)}
    (h : ∀ sub ∈ subs, (p sub ↔ q sub)) : ExactlyOne p subs → ExactlyOne q subs := by
  rintro ⟨front, sub, back, rfl, hsub, hothers⟩
  refine ⟨front, sub, back, rfl, (h sub (by simp)).mp hsub, fun other hother hq => ?_⟩
  refine hothers other hother ((h other ?_).mpr hq)
  rw [List.mem_append] at hother
  rw [List.mem_append, List.mem_cons]
  exact hother.imp_right .inr

theorem Meaning.congr {sat sat' : Value N → Value N → Prop}
    (h : ∀ sub, Subschema schema sub → ∀ v, (sat sub v ↔ sat' sub v))
    (hm : Meaning B num sat schema value) : Meaning B num sat' schema value where
  type_name := hm.type_name
  type_names := hm.type_names
  enum := hm.enum
  const := hm.const
  allOf subs hget sub hsub :=
    (h sub (.member (by simp) hget hsub) value).mp (hm.allOf subs hget sub hsub)
  anyOf subs hget := by
    obtain ⟨sub, hsub, hsat⟩ := hm.anyOf subs hget
    exact ⟨sub, hsub, (h sub (.member (by simp) hget hsub) value).mp hsat⟩
  oneOf subs hget :=
    (hm.oneOf subs hget).congr fun sub hsub => h sub (.member (by simp) hget hsub) value
  not sub hget hsat := hm.not sub hget ((h sub (.direct (by simp) hget) value).mpr hsat)
  items sub hget items hvalue item hitem :=
    (h sub (.direct (by simp) hget) item).mp (hm.items sub hget items hvalue item hitem)
  required := hm.required
  properties props hget members hvalue k sub v hsub hv :=
    (h sub (.property hget hsub) v).mp (hm.properties props hget members hvalue k sub v hsub hv)
  additionalProperties sub hget members hvalue k v hv hnamed :=
    (h sub (.direct (by simp) hget) v).mp
      (hm.additionalProperties sub hget members hvalue k v hv hnamed)

theorem satisfies_table :
    Satisfies B num (.table schema) value ↔ Meaning B num (Satisfies B num) schema value := by
  rw [Satisfies]
  have hguard : ∀ sub, Subschema schema sub → ∀ v,
      ((∃ _ : sub.size < (Value.table schema).size, Satisfies B num sub v) ↔
        Satisfies B num sub v) :=
    fun sub hsub v => exists_prop_of_true hsub.size_lt
  exact ⟨.congr hguard, .congr fun sub hsub v => (hguard sub hsub v).symm⟩

end Eshkol.Core.Json
