import Eshkol.Core.JsonSchemaMeaning

/-!
# What the JSON Schema Validator Decides

The validator of `lib/core/json_schema.esk` against the satisfaction relation. A check finds no
error exactly when the value satisfies its keywords, with these exceptions: `additionalProperties`
is looked at only where it is `false` and the schema has `properties`, a boolean under `items` is
ignored, an empty `enum` is taken for a missing one, `enum` and `const` compare with `equal?`, and
names of properties are compared up to the first NUL only. `Clean` says that the validator meets
none of them on its way.
-/

namespace Eshkol.Core.Json

variable {N : Type} {B : Builtins N} {num : N → N → Prop}
  {schema : List (List Char × Value N)} {value : Value N} {path : List Char}

/-! ### Keywords for every value -/

theorem jsvMatchesType_iff {v : Value N} {name : List Char} :
    jsvMatchesType B v name = true ↔ HasType B v (cText name) := by
  rw [jsvMatchesType]
  generalize cText name = type
  constructor
  · intro h
    by_cases h₁ : type = "object".toList
    · rw [if_pos h₁] at h
      subst h₁
      cases v with
      | table entries => exact .object entries
      | _ => cases h
    rw [if_neg h₁] at h
    by_cases h₂ : type = "array".toList
    · rw [if_pos h₂] at h
      subst h₂
      cases v with
      | list items => exact .array items
      | _ => cases h
    rw [if_neg h₂] at h
    by_cases h₃ : type = "string".toList
    · rw [if_pos h₃] at h
      subst h₃
      cases v with
      | string s => exact .string s
      | _ => cases h
    rw [if_neg h₃] at h
    by_cases h₄ : type = "integer".toList
    · rw [if_pos h₄] at h
      subst h₄
      cases v with
      | number x => exact .integer h
      | _ => cases h
    rw [if_neg h₄] at h
    by_cases h₅ : type = "number".toList
    · rw [if_pos h₅] at h
      subst h₅
      cases v with
      | number x => exact .number x
      | _ => cases h
    rw [if_neg h₅] at h
    by_cases h₆ : type = "boolean".toList
    · rw [if_pos h₆] at h
      subst h₆
      cases v with
      | bool b => exact .boolean b
      | _ => cases h
    rw [if_neg h₆] at h
    by_cases h₇ : type = "null".toList
    · rw [if_pos h₇] at h
      subst h₇
      rcases v with _ | _ | _ | ⟨_ | ⟨_, _⟩⟩ | _
      case list.nil => exact .null
      all_goals cases h
    rw [if_neg h₇] at h
    cases h
  · intro h
    cases h with
    | integer h => exact h
    | array items => cases items <;> rfl
    | _ => rfl

theorem cText_typeName {name : List Char} (h : name ∈ typeNames) : cText name = name := by
  simp only [typeNames, List.map_cons, List.map_nil, List.mem_cons, List.not_mem_nil, or_false] at h
  rcases h with rfl | rfl | rfl | rfl | rfl | rfl | rfl <;> rfl

@[simp] theorem forall_some_list {items : List (Value N)} {p : List (Value N) → Prop} :
    (∀ xs, some (Value.list items) = some (.list xs) → p xs) ↔ p items := by
  simp only [Option.some.injEq, Value.list.injEq, forall_eq']

@[simp] theorem forall_some_table {entries : List (List Char × Value N)}
    {p : List (List Char × Value N) → Prop} :
    (∀ es, some (Value.table entries) = some (.table es) → p es) ↔ p entries := by
  simp only [Option.some.injEq, Value.table.injEq, forall_eq']

theorem error_eq_nil_iff {c : Prop} [Decidable c] {e : List Char} :
    (if c then [] else [e]) = [] ↔ c := by
  split_ifs with h <;> simp [h]

theorem checkType_eq_nil_iff (hform : WellFormed schema) :
    checkType B schema value path = [] ↔
      (∀ name, sGet schema "type" = some (.string name) → HasType B value name) ∧
        ∀ names, sGet schema "type" = some (.list names) →
          ∃ name, .string name ∈ names ∧ HasType B value name := by
  rw [checkType]
  cases hget : sGet schema "type" with
  | none => simp
  | some t =>
    rcases hform.type t hget with ⟨name, hname, rfl⟩ | ⟨names, rfl, hne, hnames⟩
    · simp [jsvMatchesType_iff, cText_typeName hname]
    · obtain ⟨first, rest, rfl⟩ := List.exists_cons_of_ne_nil hne
      have hany : ((first :: rest).any fun t => jsvMatchesType B value (text t)) = true ↔
          ∃ name, .string name ∈ first :: rest ∧ HasType B value name := by
        rw [List.any_eq_true]
        constructor
        · rintro ⟨t, ht, hmatch⟩
          obtain ⟨name, hname, rfl⟩ := hnames t ht
          rw [text, jsvMatchesType_iff, cText_typeName hname] at hmatch
          exact ⟨name, ht, hmatch⟩
        · rintro ⟨name, hmem, htype⟩
          obtain ⟨name', hname, heq⟩ := hnames _ hmem
          cases heq
          refine ⟨_, hmem, ?_⟩
          rwa [text, jsvMatchesType_iff, cText_typeName hname]
      rw [forall_some_list, ← hany]
      change (if _ then [] else [_]) = [] ↔ _
      rw [error_eq_nil_iff]
      simp

theorem checkEnum_eq_nil_iff (hform : WellFormed schema)
    (hequal : ∀ es, sGet schema "enum" = some (.list es) → es ≠ [] ∧
      ∀ e ∈ es, (B.equal value e = true ↔ Same num value e)) :
    checkEnum B schema value path = [] ↔
      ∀ es, sGet schema "enum" = some (.list es) → ∃ e ∈ es, Same num value e := by
  rw [checkEnum]
  cases hget : sGet schema "enum" with
  | none => simp
  | some e =>
    obtain ⟨es, rfl⟩ := hform.enum e hget
    obtain ⟨hne, hagree⟩ := hequal es hget
    obtain ⟨first, rest, rfl⟩ := List.exists_cons_of_ne_nil hne
    have hany : ((first :: rest).any fun e => B.equal value e) = true ↔
        ∃ e ∈ first :: rest, Same num value e := by
      rw [List.any_eq_true]
      exact exists_congr fun e => and_congr_right fun he => hagree e he
    rw [forall_some_list, ← hany]
    exact error_eq_nil_iff

theorem checkConst_eq_nil_iff
    (hequal : ∀ c, sGet schema "const" = some c → (B.equal value c = true ↔ Same num value c)) :
    checkConst B schema value path = [] ↔ ∀ c, sGet schema "const" = some c → Same num value c := by
  rw [checkConst]
  cases hget : sGet schema "const" with
  | none => simp
  | some c =>
    simp only [Option.some.injEq, forall_eq']
    rw [← hequal c hget]
    exact error_eq_nil_iff

/-! ### Names of properties -/

/-- The schema looks for a property: it is required, or has a sub-schema under `properties`. -/
def Mentioned (schema : List (List Char × Value N)) (k : List Char) : Prop :=
  (∃ names, sGet schema "required" = some (.list names) ∧ .string k ∈ names) ∨ Named schema k

/-- No other key of a table is the same up to the first NUL. -/
def KeyAgrees (k : List Char) (entries : List (List Char × Value N)) : Prop :=
  ∀ k' ∈ hashTableKeys entries, cText k' = cText k → k' = k

theorem tableRef_eq {entries : List (List Char × Value N)} {k : List Char}
    (h : KeyAgrees k entries) : tableRef entries k = hashTableRef entries k := by
  have hsame : ∀ entry ∈ entries, decide (cText entry.1 = cText k) = decide (entry.1 = k) := by
    intro entry hentry
    rw [decide_eq_decide]
    exact ⟨h entry.1 (List.mem_map_of_mem hentry), congrArg cText⟩
  rw [tableRef, hashTableRef]
  congr 1
  clear h
  induction entries with
  | nil => rfl
  | cons entry entries ih =>
    rw [List.forall_mem_cons] at hsame
    rw [List.find?_cons, List.find?_cons, hsame.1, ih hsame.2]

theorem cText_keyword {k : List Char} (h : k ∈ keywords) : cText k = k := by
  simp only [keywords, List.map_cons, List.map_nil, List.mem_cons, List.not_mem_nil, or_false] at h
  rcases h with rfl | rfl | rfl | rfl | rfl | rfl | rfl | rfl | rfl | rfl | rfl <;> rfl

/-! ### Combinators -/

/-- Where the validator goes from a schema and a value: the combinators stay at the value, but
`anyOf` stops at the first sub-schema that is satisfied; `items` goes to the elements and
`properties` to the members. -/
inductive Visits (sat : Value N → Value N → Prop) (schema : List (List Char × Value N))
    (value : Value N) : Value N → Value N → Prop
  | combinator {key : String} {subs : List (Value N)} {sub : Value N}
      (hkey : key ∈ ["allOf", "oneOf"]) (h : sGet schema key = some (.list subs))
      (hsub : sub ∈ subs) : Visits sat schema value sub value
  | anyOf {front back : List (Value N)} {sub : Value N}
      (h : sGet schema "anyOf" = some (.list (front ++ sub :: back)))
      (hfront : ∀ s ∈ front, ¬sat s value) : Visits sat schema value sub value
  | not {sub : Value N} (h : sGet schema "not" = some sub) : Visits sat schema value sub value
  | item {sub item : Value N} {items : List (Value N)} (h : sGet schema "items" = some sub)
      (hvalue : value = .list items) (hitem : item ∈ items) : Visits sat schema value sub item
  | property {props members : List (List Char × Value N)} {k : List Char} {sub v : Value N}
      (h : sGet schema "properties" = some (.table props)) (hsub : hashTableRef props k = some sub)
      (hvalue : value = .table members) (hv : hashTableRef members k = some v) :
      Visits sat schema value sub v

theorem Visits.subschema {sat : Value N → Value N → Prop} {sub v : Value N}
    (h : Visits sat schema value sub v) : Subschema schema sub := by
  cases h with
  | combinator hkey h hsub =>
    refine .member ?_ h hsub
    simp only [List.mem_cons, List.not_mem_nil, or_false] at hkey
    rcases hkey with rfl | rfl <;> simp
  | anyOf h => exact .member (by simp) h (by simp)
  | not h => exact .direct (by simp) h
  | item h => exact .direct (by simp) h
  | property h hsub => exact .property h hsub

section Recursion

variable {f : Value N → Value N → List Char → List (List Char)} {sat : Value N → Value N → Prop}
  (hvisit : ∀ sub v, Visits sat schema value sub v → ∀ path, (f sub v path = [] ↔ sat sub v))

include hvisit

theorem checkAllOf_eq_nil_iff (hform : WellFormed schema) :
    checkAllOf f schema value path = [] ↔
      ∀ subs, sGet schema "allOf" = some (.list subs) → ∀ sub ∈ subs, sat sub value := by
  rw [checkAllOf]
  cases hget : sGet schema "allOf" with
  | none => simp
  | some s =>
    obtain ⟨subs, rfl, -⟩ := hform.combinator "allOf" (by simp) s hget
    rw [forall_some_list]
    change (subs.flatMap fun sub => f sub value path) = [] ↔ _
    rw [List.flatMap_eq_nil_iff]
    exact forall₂_congr fun sub hsub =>
      hvisit sub value (.combinator (by simp) hget hsub) path

theorem checkAnyOf_eq_nil_iff (hform : WellFormed schema) :
    checkAnyOf f schema value path = [] ↔
      ∀ subs, sGet schema "anyOf" = some (.list subs) → ∃ sub ∈ subs, sat sub value := by
  rw [checkAnyOf]
  cases hget : sGet schema "anyOf" with
  | none => simp
  | some s =>
    obtain ⟨subs, rfl, hne⟩ := hform.combinator "anyOf" (by simp) s hget
    obtain ⟨first, rest, rfl⟩ := List.exists_cons_of_ne_nil hne
    -- after sub-schemas that are not satisfied, `any` goes on to the next one
    have hany (back : List (Value N)) : ∀ front, first :: rest = front ++ back →
        (∀ s ∈ front, ¬sat s value) →
          ((back.any fun sub => (f sub value path).isEmpty) = true ↔
            ∃ sub ∈ back, sat sub value) := by
      induction back with
      | nil => simp
      | cons sub back ih =>
        intro front heq hfront
        have hsub := hvisit sub value (.anyOf (heq ▸ hget) hfront) path
        rw [List.any_cons, Bool.or_eq_true, List.isEmpty_iff, hsub, List.exists_mem_cons_iff]
        by_cases hsat : sat sub value
        · simp [hsat]
        · refine or_congr_right (ih (front ++ [sub]) (by simp [heq]) ?_)
          exact List.forall_mem_append.mpr ⟨hfront, List.forall_mem_singleton.mpr hsat⟩
    rw [forall_some_list, ← hany (first :: rest) [] rfl (by simp)]
    exact error_eq_nil_iff

omit hvisit in
theorem countMatching_eq (subs : List (Value N)) (n : ℕ) :
    countMatching f value path subs n = n + subs.countP fun sub => (f sub value path).isEmpty := by
  induction subs generalizing n with
  | nil => rfl
  | cons sub subs ih =>
    rw [countMatching, List.countP_cons]
    split_ifs
    · rw [ih]
      omega
    · rw [ih]
      omega

omit hvisit in
theorem countP_eq_one_iff {p : Value N → Bool} {subs : List (Value N)} :
    subs.countP p = 1 ↔ ExactlyOne (p · = true) subs := by
  constructor
  · intro h
    obtain ⟨sub, hsub, hp⟩ := List.countP_pos_iff.mp (h ▸ Nat.one_pos)
    obtain ⟨front, back, rfl⟩ := List.append_of_mem hsub
    refine ⟨front, sub, back, rfl, hp, fun other hother hpo => ?_⟩
    have hrest : 0 < (front ++ back).countP p := List.countP_pos_iff.mpr ⟨other, hother, hpo⟩
    rw [List.countP_append, List.countP_cons_of_pos hp] at h
    rw [List.countP_append] at hrest
    omega
  · rintro ⟨front, sub, back, rfl, hp, hothers⟩
    have hrest : (front ++ back).countP p = 0 := List.countP_eq_zero.mpr hothers
    rw [List.countP_append] at hrest
    rw [List.countP_append, List.countP_cons_of_pos hp]
    omega

theorem checkOneOf_eq_nil_iff (hform : WellFormed schema) :
    checkOneOf f schema value path = [] ↔
      ∀ subs, sGet schema "oneOf" = some (.list subs) → ExactlyOne (sat · value) subs := by
  rw [checkOneOf]
  cases hget : sGet schema "oneOf" with
  | none => simp
  | some s =>
    obtain ⟨subs, rfl, hne⟩ := hform.combinator "oneOf" (by simp) s hget
    obtain ⟨first, rest, rfl⟩ := List.exists_cons_of_ne_nil hne
    have hagree : ∀ sub ∈ first :: rest, ((f sub value path).isEmpty = true ↔ sat sub value) := by
      intro sub hsub
      rw [List.isEmpty_iff]
      exact hvisit sub value (.combinator (by simp) hget hsub) path
    have hone : countMatching f value path (first :: rest) 0 = 1 ↔
        ExactlyOne (sat · value) (first :: rest) := by
      rw [countMatching_eq, Nat.zero_add, countP_eq_one_iff]
      exact ⟨.congr hagree, .congr fun sub hsub => (hagree sub hsub).symm⟩
    rw [forall_some_list, ← hone]
    change (if countMatching f value path (first :: rest) 0 = 1 then [] else _) = [] ↔ _
    split_ifs with h₁ h₂
    · simp [h₁]
    · simp [h₁]
    · simp [h₁]

theorem checkNot_eq_nil_iff (hsub : ∀ sub, sGet schema "not" = some sub → IsSchema sub) :
    checkNot f schema value path = [] ↔ ∀ sub, sGet schema "not" = some sub → ¬sat sub value := by
  rw [checkNot]
  cases hget : sGet schema "not" with
  | none => simp
  | some sub =>
    have hagree := hvisit sub value (.not hget) path
    have herrors : (if (f sub value path).isEmpty then
        [mkerr path "value matched `not` subschema".toList] else []) = [] ↔ ¬sat sub value := by
      rw [← hagree]
      split_ifs with h
      · simpa using List.isEmpty_iff.mp h
      · simpa using fun hnil => h (List.isEmpty_iff.mpr hnil)
    simp only [Option.some.injEq, forall_eq']
    rw [← herrors]
    cases hsub sub hget with
    | bool b => exact Iff.rfl
    | table => exact Iff.rfl

/-! ### Arrays -/

omit hvisit in
theorem validateArrayItems_eq_nil_iff {sub : Value N} {items : List (Value N)} (idx : ℕ)
    (h : ∀ item ∈ items, ∀ path, (f sub item path = [] ↔ sat sub item)) :
    validateArrayItems f sub path items idx = [] ↔ ∀ item ∈ items, sat sub item := by
  induction items generalizing idx with
  | nil => simp [validateArrayItems]
  | cons item items ih =>
    rw [validateArrayItems, List.append_eq_nil_iff, h item (by simp),
      ih (idx + 1) fun x hx => h x (by simp [hx]), List.forall_mem_cons]

omit hvisit in
theorem sGet_eq_none (hform : WellFormed schema) {key : String}
    (h : cText key.toList ∉ keywords) : sGet schema key = none := by
  rw [sGet, tableRef, Option.map_eq_none_iff, List.find?_eq_none]
  intro entry hentry
  rw [decide_eq_true_eq]
  intro heq
  have hkeyword := hform.keys entry.1 (List.mem_map_of_mem hentry)
  rw [cText_keyword hkeyword] at heq
  exact h (heq ▸ hkeyword)

omit hvisit in
theorem checkBound_eq_nil (hform : WellFormed schema) {key : String}
    (h : cText key.toList ∉ keywords) (test : N → Bool) (msg : String) :
    checkBound B schema key test path msg = [] := by
  rw [checkBound, sGet_eq_none hform h]

theorem checkArrayRules_eq_nil_iff (hform : WellFormed schema)
    (hsub : ∀ sub, sGet schema "items" = some sub → IsSchema sub)
    (htrue : ∀ v, sat (.bool true) v) {items : List (Value N)} (hvalue : value = .list items)
    (hitems : items ≠ [] → sGet schema "items" ≠ some (.bool false)) :
    checkArrayRules B f schema items path = [] ↔
      ∀ sub, sGet schema "items" = some sub → ∀ item ∈ items, sat sub item := by
  have hmin := @checkBound_eq_nil N B schema path hform "minItems" (by decide)
  have hmax := @checkBound_eq_nil N B schema path hform "maxItems" (by decide)
  rw [checkArrayRules, hmin, hmax, List.nil_append, List.nil_append]
  cases hget : sGet schema "items" with
  | none => simp
  | some sub =>
    simp only [Option.some.injEq, forall_eq']
    cases hsub sub hget with
    | table =>
      exact validateArrayItems_eq_nil_iff 0 fun item hitem =>
        hvisit _ item (.item hget hvalue hitem)
    | bool b =>
      refine iff_of_true rfl fun item hitem => ?_
      cases b with
      | true => exact htrue item
      | false => exact absurd hget (hitems (List.ne_nil_of_mem hitem))

omit hvisit in
theorem checkRequired_eq_nil_iff (hform : WellFormed schema)
    {members : List (List Char × Value N)}
    (hkeys : ∀ k, Mentioned schema k → KeyAgrees k members) :
    checkRequired (sGet schema "required") members path = [] ↔
      ∀ names, sGet schema "required" = some (.list names) → ∀ name, .string name ∈ names →
        hashTableContains members name = true := by
  cases hget : sGet schema "required" with
  | none => simp [checkRequired]
  | some r =>
    obtain ⟨names, rfl, hnames⟩ := hform.required r hget
    have hmember {name : List Char} (hname : .string name ∈ names) :
        tableContains members name = hashTableContains members name := by
      rw [tableContains, tableRef_eq (hkeys name (.inl ⟨names, hget, hname⟩)), hashTableContains]
    rw [forall_some_list, checkRequired, List.flatMap_eq_nil_iff]
    constructor
    · intro h name hname
      rw [← hmember hname]
      exact error_eq_nil_iff.mp (h _ hname)
    · intro h k hk
      obtain ⟨name, rfl⟩ := hnames k hk
      exact error_eq_nil_iff.mpr ((hmember hk).trans (h name hk))

/-- When the declared properties pass. -/
theorem checkProperties_eq_nil_iff (hform : WellFormed schema)
    {members : List (List Char × Value N)} (hvalue : value = .table members)
    (hkeys : ∀ k, Mentioned schema k → KeyAgrees k members)
    (hprops : ∀ props, sGet schema "properties" = some (.table props) →
      ∀ k ∈ hashTableKeys props, KeyAgrees k props) :
    checkProperties f (sGet schema "properties") members path = [] ↔
      ∀ props, sGet schema "properties" = some (.table props) → ∀ k sub v,
        hashTableRef props k = some sub → hashTableRef members k = some v → sat sub v := by
  cases hget : sGet schema "properties" with
  | none => simp [checkProperties]
  | some p =>
    obtain ⟨props, rfl⟩ := hform.properties p hget
    have hread {k : List Char} (hk : k ∈ hashTableKeys props) :
        tableRef members k = hashTableRef members k ∧ tableRef props k = hashTableRef props k :=
      ⟨tableRef_eq (hkeys k (.inr ⟨props, hget, mem_hashTableKeys_iff.mp hk⟩)),
        tableRef_eq (hprops props hget k hk)⟩
    rw [forall_some_table, checkProperties, List.flatMap_eq_nil_iff]
    constructor
    · intro h k sub v hsub hv
      have hk : k ∈ hashTableKeys props :=
        mem_hashTableKeys_iff.mpr (by rw [hashTableContains, hsub]; rfl)
      have herrors := h k hk
      rw [tableContains, (hread hk).1, (hread hk).2, hv, hsub] at herrors
      exact (hvisit sub v (.property hget hsub hvalue hv) _).mp herrors
    · intro h k hk
      obtain ⟨sub, hsub⟩ := Option.isSome_iff_exists.mp (mem_hashTableKeys_iff.mp hk)
      rw [tableContains, (hread hk).1, (hread hk).2]
      split_ifs with hcontains
      · obtain ⟨v, hv⟩ := Option.isSome_iff_exists.mp hcontains
        rw [hsub, hv]
        exact (hvisit sub v (.property hget hsub hvalue hv) _).mpr (h k sub v hsub hv)
      · rfl

omit hvisit in
theorem checkAdditional_eq_nil_iff (hform : WellFormed schema)
    (htrue : ∀ v, sat (.bool true) v) (hfalse : ∀ v, ¬sat (.bool false) v)
    {members : List (List Char × Value N)}
    (hkeys : ∀ k, Mentioned schema k → KeyAgrees k members)
    (hadditional : ∀ k ∈ hashTableKeys members, ¬Named schema k →
      sGet schema "additionalProperties" = none ∨
        sGet schema "additionalProperties" = some (.bool true) ∨
        sGet schema "additionalProperties" = some (.bool false) ∧
          (sGet schema "properties").isSome = true) :
    checkAdditional (sGet schema "properties") (sGet schema "additionalProperties") members path =
        [] ↔
      ∀ sub, sGet schema "additionalProperties" = some sub → ∀ k v,
        hashTableRef members k = some v → ¬Named schema k → sat sub v := by
  have hextra : ∀ k v, hashTableRef members k = some v → k ∈ hashTableKeys members :=
    fun k v hv => mem_hashTableKeys_iff.mpr (by rw [hashTableContains, hv]; rfl)
  cases hget : sGet schema "additionalProperties" with
  | none => simp [checkAdditional]
  | some sub =>
    simp only [Option.some.injEq, forall_eq']
    rw [hget] at hadditional
    by_cases hnamed : ∀ k ∈ hashTableKeys members, Named schema k
    · refine iff_of_true ?_ fun k v hv hk => absurd (hnamed k (hextra k v hv)) hk
      rw [checkAdditional.eq_def]
      split
      · split
        · next hprops =>
            refine List.flatMap_eq_nil_iff.mpr fun k hk => if_pos ?_
            obtain ⟨props', hprops', hcontains⟩ := hnamed k hk
            obtain rfl := Value.table.inj (Option.some.inj (hprops.symm.trans hprops'))
            exact List.any_eq_true.mpr ⟨k, mem_hashTableKeys_iff.mpr hcontains, by simp⟩
        · rfl
      · rfl
    · obtain ⟨k, hk, hknamed⟩ : ∃ k ∈ hashTableKeys members, ¬Named schema k := by
        simpa using hnamed
      obtain ⟨v, hv⟩ := Option.isSome_iff_exists.mp (mem_hashTableKeys_iff.mp hk)
      rcases hadditional k hk hknamed with hnone | htrue' | ⟨hfalse', hprops⟩
      · cases hnone
      · obtain rfl := Option.some.inj htrue'
        exact iff_of_true rfl fun _ v _ _ => htrue v
      · obtain rfl := Option.some.inj hfalse'
        refine iff_of_false ?_ fun h => hfalse v (h k v hv hknamed)
        obtain ⟨p, hp⟩ := Option.isSome_iff_exists.mp hprops
        obtain ⟨props, rfl⟩ := hform.properties p hp
        rw [hp, checkAdditional, List.flatMap_eq_nil_iff]
        intro h
        obtain ⟨known, hknown, heq⟩ := List.any_eq_true.mp (error_eq_nil_iff.mp (h k hk))
        have hnamed : Named schema known := ⟨props, hp, mem_hashTableKeys_iff.mp hknown⟩
        rw [decide_eq_true_eq] at heq
        exact hknamed (hkeys known (.inr hnamed) k hk heq ▸ hnamed)

end Recursion

/-! ### The validator -/

variable (B num)

/-- On a schema and a value the keywords are read as JSON Schema means them: `equal?` decides
equality of JSON values where `enum` and `const` ask it and `enum` is not empty, `items` is not
`false` for the elements of an array, a property without a sub-schema meets an
`additionalProperties` that is absent, `true`, or `false` beside `properties`, and the names that
the schema looks for are told apart from those of the value and from each other. -/
structure CleanAt (schema : List (List Char × Value N)) (value : Value N) : Prop where
  enum : ∀ es, sGet schema "enum" = some (.list es) → es ≠ [] ∧
    ∀ e ∈ es, (B.equal value e = true ↔ Same num value e)
  const : ∀ c, sGet schema "const" = some c → (B.equal value c = true ↔ Same num value c)
  items : ∀ items, value = .list items → items ≠ [] → sGet schema "items" ≠ some (.bool false)
  additional : ∀ members, value = .table members → ∀ k ∈ hashTableKeys members,
    ¬Named schema k → sGet schema "additionalProperties" = none ∨
      sGet schema "additionalProperties" = some (.bool true) ∨
      sGet schema "additionalProperties" = some (.bool false) ∧
        (sGet schema "properties").isSome = true
  members : ∀ members, value = .table members → ∀ k, Mentioned schema k → KeyAgrees k members
  properties : ∀ members, value = .table members → ∀ props,
    sGet schema "properties" = some (.table props) → ∀ k ∈ hashTableKeys props, KeyAgrees k props

/-- The keywords are read as JSON Schema means them wherever the validator goes. -/
inductive Clean : Value N → Value N → Prop
  | bool (b : Bool) (value : Value N) : Clean (.bool b) value
  | table {schema : List (List Char × Value N)} {value : Value N}
      (here : CleanAt B num schema value)
      (visits : ∀ sub v, Visits (Satisfies B num) schema value sub v → Clean sub v) :
      Clean (.table schema) value

variable {B num}

section Table

variable {f : Value N → Value N → List Char → List (List Char)} {sat : Value N → Value N → Prop}
  (hform : WellFormed schema) (hsubs : ∀ sub, Subschema schema sub → IsSchema sub)
  (hclean : CleanAt B num schema value)
  (hvisit : ∀ sub v, Visits sat schema value sub v → ∀ path, (f sub v path = [] ↔ sat sub v))
  (htrue : ∀ v, sat (.bool true) v) (hfalse : ∀ v, ¬sat (.bool false) v)

include hform in
theorem checkStringRules_eq_nil (s : List Char) : checkStringRules B schema s path = [] := by
  rw [checkStringRules, checkBound_eq_nil hform (by decide), checkBound_eq_nil hform (by decide),
    sGet_eq_none hform (by decide)]
  rfl

include hform in
theorem checkNumberRules_eq_nil (x : N) : checkNumberRules B schema x path = [] := by
  rw [checkNumberRules, checkBound_eq_nil hform (by decide), checkBound_eq_nil hform (by decide),
    checkBound_eq_nil hform (by decide), checkBound_eq_nil hform (by decide)]
  rfl

include hform hsubs hclean hvisit htrue hfalse in
/-- When the rules on the value itself pass. -/
theorem checkValueRules_eq_nil_iff :
    checkValueRules B f schema value path = [] ↔
      (∀ sub, sGet schema "items" = some sub → ∀ items, value = .list items →
        ∀ item ∈ items, sat sub item) ∧
      (∀ names, sGet schema "required" = some (.list names) → ∀ members, value = .table members →
        ∀ name, .string name ∈ names → hashTableContains members name = true) ∧
      (∀ props, sGet schema "properties" = some (.table props) →
        ∀ members, value = .table members → ∀ k sub v, hashTableRef props k = some sub →
          hashTableRef members k = some v → sat sub v) ∧
      ∀ sub, sGet schema "additionalProperties" = some sub →
        ∀ members, value = .table members → ∀ k v, hashTableRef members k = some v →
          ¬Named schema k → sat sub v := by
  cases value with
  | bool b => simp [checkValueRules]
  | number x => simp [checkValueRules, checkNumberRules_eq_nil hform]
  | string s => simp [checkValueRules, checkStringRules_eq_nil hform]
  | list items =>
    have harray := @checkArrayRules_eq_nil_iff N B schema _ path f sat hvisit hform
      (fun sub hget => hsubs sub (.direct (by simp) hget)) htrue items rfl
      (hclean.items items rfl)
    simpa [checkValueRules] using harray
  | table members =>
    have hkeys := hclean.members members rfl
    have hrequired := @checkRequired_eq_nil_iff N schema path hform members hkeys
    have hproperties := @checkProperties_eq_nil_iff N schema _ path f sat hvisit hform members rfl
      hkeys (hclean.properties members rfl)
    have hadditional := @checkAdditional_eq_nil_iff N schema path sat hform htrue hfalse members
      hkeys (hclean.additional members rfl)
    simp only [checkValueRules, checkObjectRules, List.append_eq_nil_iff, hrequired, hproperties,
      hadditional, Value.table.injEq, forall_eq', reduceCtorEq, false_imp_iff, implies_true,
      true_and, and_assoc]

include hform hsubs hclean hvisit htrue hfalse in
theorem validateTable_eq_nil_iff :
    validateTable B f schema value path = [] ↔ Meaning B num sat schema value := by
  rw [validateTable, checkCombinators]
  simp only [List.append_eq_nil_iff]
  rw [checkType_eq_nil_iff hform, checkEnum_eq_nil_iff hform hclean.enum,
    checkConst_eq_nil_iff hclean.const, checkAllOf_eq_nil_iff hvisit hform,
    checkAnyOf_eq_nil_iff hvisit hform, checkOneOf_eq_nil_iff hvisit hform,
    checkNot_eq_nil_iff hvisit fun sub hget => hsubs sub (.direct (by simp) hget),
    checkValueRules_eq_nil_iff hform hsubs hclean hvisit htrue hfalse]
  constructor
  · rintro ⟨⟨⟨⟨⟨hname, hnames⟩, henum⟩, hconst⟩, ⟨⟨hallOf, hanyOf⟩, honeOf⟩, hnot⟩, hitems,
      hrequired, hproperties, hadditional⟩
    exact ⟨hname, hnames, henum, hconst, hallOf, hanyOf, honeOf, hnot, hitems, hrequired,
      hproperties, hadditional⟩
  · rintro ⟨hname, hnames, henum, hconst, hallOf, hanyOf, honeOf, hnot, hitems, hrequired,
      hproperties, hadditional⟩
    exact ⟨⟨⟨⟨⟨hname, hnames⟩, henum⟩, hconst⟩, ⟨⟨hallOf, hanyOf⟩, honeOf⟩, hnot⟩, hitems,
      hrequired, hproperties, hadditional⟩

end Table

theorem validate_eq_nil_iff {schema value : Value N} (hclean : Clean B num schema value)
    (hschema : IsSchema schema) (path : List Char) :
    validate B schema value path = [] ↔ Satisfies B num schema value := by
  induction hclean generalizing path with
  | bool b value => cases b <;> simp [validate]
  | @table schema value hhere hvisits ih =>
    cases hschema with
    | table hform hsubs =>
      rw [validate, satisfies_table]
      refine validateTable_eq_nil_iff hform hsubs hhere (fun sub v hvisit path => ?_)
        (fun v => by simp) (fun v => by simp)
      rw [dif_pos hvisit.subschema.size_lt]
      exact ih sub v hvisit (hsubs sub hvisit.subschema) path

theorem eq_of_sGet_single {key name : String} {v w : Value N}
    (h : sGet [(key.toList, v)] name = some w) : cText key.toList = cText name.toList ∧ v = w := by
  rw [sGet, tableRef, List.find?_singleton] at h
  split at h
  next heq => exact ⟨of_decide_eq_true heq, Option.some.inj h⟩
  next => cases h

/-- A schema of one keyword has no other one. -/
theorem eq_of_sGet_keyword {key name : String} {v w : Value N} (hkey : key.toList ∈ keywords)
    (hname : name.toList ∈ keywords) (h : sGet [(key.toList, v)] name = some w) : name = key := by
  have htext := (eq_of_sGet_single h).1
  rw [cText_keyword hkey, cText_keyword hname] at htext
  exact (String.toList_inj.mp htext).symm

theorem isSchema_single {v : Value N} {key : String}
    (hkey : key ∈ ["not", "items", "additionalProperties"]) (hv : IsSchema v) :
    IsSchema (.table [(key.toList, v)]) := by
  have hkeyword : key.toList ∈ keywords := by
    simp only [List.mem_cons, List.not_mem_nil, or_false] at hkey
    rcases hkey with rfl | rfl | rfl <;> decide
  have habsent {name w} (hname : name.toList ∈ keywords)
      (h : sGet [(key.toList, v)] name = some w) :
      name ∈ ["not", "items", "additionalProperties"] :=
    eq_of_sGet_keyword hkeyword hname h ▸ hkey
  refine .table ⟨?_, fun t h => ?_, fun e h => ?_, fun name hname s h => ?_, fun r h => ?_,
    fun p h => ?_⟩ fun sub hsub => ?_
  · intro k hk
    obtain rfl : k = key.toList := by simpa [hashTableKeys] using hk
    exact hkeyword
  · simpa using habsent (by decide) h
  · simpa using habsent (by decide) h
  · simp only [List.mem_cons, List.not_mem_nil, or_false] at hname
    rcases hname with rfl | rfl | rfl <;> simpa using habsent (by decide) h
  · simpa using habsent (by decide) h
  · simpa using habsent (by decide) h
  · cases hsub with
    | @member name _ _ hname h =>
      simp only [List.mem_cons, List.not_mem_nil, or_false] at hname
      rcases hname with rfl | rfl | rfl <;> simpa using habsent (by decide) h
    | direct _ h => exact (eq_of_sGet_single h).2 ▸ hv
    | property h => simpa using habsent (by decide) h

theorem clean_single {v value : Value N} {key : String} (hkey : key ∈ ["not", "items"])
    (hfalse : key = "items" → v ≠ .bool false) (hv : ∀ w, Clean B num v w) :
    Clean B num (.table [(key.toList, v)]) value := by
  have hkeyword : key.toList ∈ keywords := by
    simp only [List.mem_cons, List.not_mem_nil, or_false] at hkey
    rcases hkey with rfl | rfl <;> decide
  have habsent {name w} (hname : name.toList ∈ keywords)
      (h : sGet [(key.toList, v)] name = some w) : name ∈ ["not", "items"] :=
    eq_of_sGet_keyword hkeyword hname h ▸ hkey
  have hnone {name} (hname : name.toList ∈ keywords) (hne : name ∉ ["not", "items"]) :
      sGet [(key.toList, v)] name = none := by
    cases hget : sGet [(key.toList, v)] name with
    | none => rfl
    | some w => exact absurd (habsent hname hget) hne
  have hproperties := @hnone "properties" (by decide) (by simp)
  refine .table ⟨?_, ?_, ?_, ?_, ?_, ?_⟩ fun sub w hvisit => ?_
  · intro es h
    simpa using habsent (by decide) h
  · intro c h
    simpa using habsent (by decide) h
  · intro items _ _ h
    have hname := eq_of_sGet_keyword hkeyword (by decide) h
    exact hfalse hname.symm (eq_of_sGet_single h).2
  · intro members _ k _ _
    exact .inl (hnone (by decide) (by simp))
  · rintro members - k (⟨names, h, -⟩ | ⟨props, h, -⟩)
    · simpa using habsent (by decide) h
    · simpa using habsent (by decide) h
  · intro members _ props h
    simpa using habsent (by decide) h
  · cases hvisit with
    | @combinator name _ _ hname h =>
      simp only [List.mem_cons, List.not_mem_nil, or_false] at hname
      rcases hname with rfl | rfl <;> simpa using habsent (by decide) h
    | anyOf h => simpa using habsent (by decide) h
    | not h => exact (eq_of_sGet_single h).2 ▸ hv _
    | item h => exact (eq_of_sGet_single h).2 ▸ hv _
    | property h => simpa using habsent (by decide) h

/-! ### Schemas that are misread -/

/-- The builtins over integers. -/
def integers : Builtins ℤ where
  isInteger _ := true
  less x y := x < y
  numberToString x := (toString x).toList
  ofNat n := n
  equal := equalData (· == ·)

/-- The schema `{"items": {"not": false}}`. -/
def anyItems : Value ℤ := .table [("items".toList, .table [("not".toList, .bool false)])]

/-- The schema `{"additionalProperties": false}`. -/
def closedSchema : Value ℤ := .table [("additionalProperties".toList, .bool false)]

/-- The schema `{"items": false}`. -/
def emptyArrays : Value ℤ := .table [("items".toList, .bool false)]

end Eshkol.Core.Json
