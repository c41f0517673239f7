import Eshkol.Pkg.Toml

/-!
# Package Manifests

`load_manifest` and `save_manifest` of `tools/pkg/eshkol_pkg.cpp`, on the contents of
`eshkol.toml`. The two tables of the file come in the order in which the hash map of
`save_manifest` is iterated, which is a parameter. The characters that `std::isalnum` accepts
are those of the `C` locale.

Dependencies are kept in a map from names to versions. They are read back in the order of
their names, with the last version given for a name, and as dependencies of the registry. A
name that `is_valid_dependency_name` refuses ends the program on loading.
-/

namespace Eshkol.Pkg

open Assoc

structure Dependency where
  name : List Char
  version : List Char
  source : List Char
  deriving DecidableEq, Repr

structure Manifest where
  name : List Char
  version : List Char
  description : List Char
  author : List Char
  license : List Char
  entry : List Char
  sources : List (List Char)
  dependencies : List Dependency
  deriving DecidableEq, Repr

/-! ### Names of dependencies -/

/-- The device names of `is_windows_reserved_name`. -/
def windowsReserved : List String :=
  ["con", "nul", "aux", "prn",
    "com1", "com2", "com3", "com4", "com5", "com6", "com7", "com8", "com9",
    "lpt1", "lpt2", "lpt3", "lpt4", "lpt5", "lpt6", "lpt7", "lpt8", "lpt9"]

/-- `is_windows_reserved_name`: the part before any dot, in lower case. -/
def isWindowsReservedName (name : List Char) : Bool :=
  windowsReserved.any fun r => r.toList = (name.takeWhile (· ≠ '.')).map Char.toLower

/-- `is_valid_dependency_name`, with `kMaxDependencyNameLength`. -/
def isValidDependencyName (name : List Char) : Bool :=
  if name = [] then false
  else if 64 < name.length then false
  else if name = ".".toList ∨ name = "..".toList then false
  else if !name.head?.any Char.isAlphanum then false
  else if !name.all isNameChar then false
  else !isWindowsReservedName name

theorem plainKey_of_isValidDependencyName {name : List Char}
    (h : isValidDependencyName name = true) : PlainKey name := by
  rw [isValidDependencyName] at h
  split_ifs at h with hnil hlen hdots hhead hall
  refine ⟨hnil, List.all_eq_true.mp ?_⟩
  simpa using hall

/-! ### Loading and saving -/

/-- The source that every loaded dependency has. -/
def registrySource : List Char := "registry".toList

/-- The table of a name, empty if there is none. -/
def tableAt (data : List (List Char × TomlValue)) (name : String) : List (List Char × TomlValue) :=
  (lookup name.toList data).elim [] TomlValue.tableVal

/-- `if (pkg.count(key)) field = pkg[key].str_val`. -/
def stringAt (pkg : List (List Char × TomlValue)) (key : String) : List Char :=
  (lookup key.toList pkg).elim [] TomlValue.strVal

/-- `load_manifest` on the contents of the file. Nothing is returned when
`require_valid_dependency_name` exits. -/
def loadManifest (stod : List Char → Option UInt64) (content : List Char) : Option Manifest :=
  let data := parse stod content
  let pkg := tableAt data "package"
  let deps := tableAt data "dependencies"
  if deps.all fun e => isValidDependencyName e.1 then
    some
      { name := stringAt pkg "name"
        version := stringAt pkg "version"
        description := stringAt pkg "description"
        author := stringAt pkg "author"
        license := stringAt pkg "license"
        entry := stringAt pkg "entry"
        sources := ((lookup "sources".toList pkg).elim [] TomlValue.arrVal).map TomlValue.strVal
        dependencies := deps.map fun e => ⟨e.1, e.2.strVal, registrySource⟩ }
  else none

/-- The `[package]` table of `save_manifest`. -/
def packageTable (m : Manifest) : List (List Char × TomlValue) :=
  let pkg := Assoc.set "name".toList (.string m.name) []
  let pkg := Assoc.set "version".toList (.string m.version) pkg
  let pkg := Assoc.set "description".toList (.string m.description) pkg
  let pkg := Assoc.set "author".toList (.string m.author) pkg
  let pkg := Assoc.set "license".toList (.string m.license) pkg
  let pkg := if m.entry = [] then pkg else Assoc.set "entry".toList (.string m.entry) pkg
  if m.sources = [] then pkg
  else Assoc.set "sources".toList (.array (m.sources.map .string)) pkg

/-- The `[dependencies]` table. -/
def dependencyTable (deps : List Dependency) : List (List Char × TomlValue) :=
  deps.foldl (fun table dep => Assoc.set dep.name (.string dep.version) table) []

/-- The tables in the order in which they are written. -/
def manifestTables (depsFirst : Bool) (m : Manifest) :
    List (List Char × List (List Char × TomlValue)) :=
  let package := ("package".toList, packageTable m)
  let dependencies := ("dependencies".toList, dependencyTable m.dependencies)
  if m.dependencies = [] then [package]
  else if depsFirst then [dependencies, package] else [package, dependencies]

/-- `save_manifest`: the contents of the file. -/
def saveManifest (showDouble : UInt64 → List Char) (depsFirst : Bool) (m : Manifest) : List Char :=
  serialize showDouble ((manifestTables depsFirst m).map fun t => (t.1, .table t.2))

/-! ### The package table -/

/-- The strings of a manifest keep to a line and to their quotes; an entry of the list of
sources has no comma. -/
structure Manifest.Plain (m : Manifest) : Prop where
  fields : ∀ s ∈ [m.name, m.version, m.description, m.author, m.license, m.entry],
    '\n' ∉ s ∧ HashSafe s
  sources : ∀ s ∈ m.sources, '\n' ∉ s ∧ ',' ∉ s
  sources_hash : HashSafe m.sources.flatten
  versions : ∀ d ∈ m.dependencies, '\n' ∉ d.version ∧ HashSafe d.version

/-- What `save_manifest` may assign in the package table. -/
def packageEntries (m : Manifest) : List (List Char × TomlValue) :=
  [("name".toList, .string m.name), ("version".toList, .string m.version),
    ("description".toList, .string m.description), ("author".toList, .string m.author),
    ("license".toList, .string m.license), ("entry".toList, .string m.entry),
    ("sources".toList, .array (m.sources.map .string))]

theorem packageTable_subset (m : Manifest) : packageTable m ⊆ packageEntries m := by
  have hset : ∀ {key : List Char} {value : TomlValue} {table : List (List Char × TomlValue)},
      (key, value) ∈ packageEntries m → table ⊆ packageEntries m →
        Assoc.set key value table ⊆ packageEntries m := by
    intro key value table hnew htable e he
    rcases mem_set he with rfl | he
    · exact hnew
    · exact htable he
  have hfive : Assoc.set "license".toList (TomlValue.string m.license)
      (Assoc.set "author".toList (.string m.author)
      (Assoc.set "description".toList (.string m.description)
      (Assoc.set "version".toList (.string m.version)
      (Assoc.set "name".toList (.string m.name) [])))) ⊆ packageEntries m := by
    refine hset ?_ (hset ?_ (hset ?_ (hset ?_ (hset ?_ (List.nil_subset _)))))
    all_goals simp [packageEntries]
  have hentry : ("entry".toList, TomlValue.string m.entry) ∈ packageEntries m := by
    simp [packageEntries]
  have hsources : ("sources".toList, TomlValue.array (m.sources.map .string)) ∈
      packageEntries m := by
    simp [packageEntries]
  rw [packageTable]
  split_ifs
  · exact hfive
  · exact hset hentry hfive
  · exact hset hsources hfive
  · exact hset hsources (hset hentry hfive)

theorem sorted_packageTable (m : Manifest) : Sorted (packageTable m) := by
  have hfive : Sorted (Assoc.set "license".toList (TomlValue.string m.license)
      (Assoc.set "author".toList (.string m.author)
      (Assoc.set "description".toList (.string m.description)
      (Assoc.set "version".toList (.string m.version)
      (Assoc.set "name".toList (.string m.name) []))))) :=
    sorted_set (sorted_set (sorted_set (sorted_set (sorted_set List.Pairwise.nil _ _) _ _) _ _)
      _ _) _ _
  rw [packageTable]
  split_ifs
  · exact hfive
  · exact sorted_set hfive _ _
  · exact sorted_set hfive _ _
  · exact sorted_set (sorted_set hfive _ _) _ _

theorem plainKey_of_mem : ∀ key ∈ ["name", "version", "description", "author", "license",
    "entry", "sources", "package", "dependencies"], PlainKey key.toList := by
  simp only [plainKey_iff]
  decide

variable {m : Manifest} {deps : List Dependency}

theorem plainTable_package (hm : m.Plain) : PlainTable ("package".toList, packageTable m) := by
  have hentries : ∀ e ∈ packageEntries m, PlainKey e.1 ∧ e.2.Plain := by
    simp only [packageEntries, List.forall_mem_cons]
    refine ⟨⟨?_, hm.fields _ (by simp)⟩, ⟨?_, hm.fields _ (by simp)⟩,
      ⟨?_, hm.fields _ (by simp)⟩, ⟨?_, hm.fields _ (by simp)⟩, ⟨?_, hm.fields _ (by simp)⟩,
      ⟨?_, hm.fields _ (by simp)⟩, ⟨?_, m.sources, rfl, hm.sources, hm.sources_hash⟩, by simp⟩
    all_goals exact plainKey_of_mem _ (by simp)
  exact ⟨plainKey_of_mem _ (by simp), fun e he => (hentries e (packageTable_subset m he)).1,
    fun e he => (hentries e (packageTable_subset m he)).2, sorted_packageTable m⟩

theorem packageTable_fields (m : Manifest) :
    stringAt (packageTable m) "name" = m.name ∧
    stringAt (packageTable m) "version" = m.version ∧
    stringAt (packageTable m) "description" = m.description ∧
    stringAt (packageTable m) "author" = m.author ∧
    stringAt (packageTable m) "license" = m.license ∧
    stringAt (packageTable m) "entry" = m.entry ∧
    ((lookup "sources".toList (packageTable m)).elim [] TomlValue.arrVal).map TomlValue.strVal =
      m.sources := by
  have hstrings : m.sources.map (TomlValue.strVal ∘ TomlValue.string) = m.sources :=
    (List.map_congr_left fun _ _ => rfl).trans (List.map_id m.sources)
  simp only [stringAt, packageTable]
  split_ifs with hs he he
  all_goals simp [lookup_set, lookup, TomlValue.strVal, TomlValue.arrVal, *]

/-! ### The dependency table -/

theorem dependencyTable_eq (deps : List Dependency) :
    dependencyTable deps =
      (deps.map fun d => (d.name, TomlValue.string d.version)).foldl
        (fun table e => Assoc.set e.1 e.2 table) [] := by
  rw [dependencyTable, List.foldl_map]

theorem sorted_dependencyTable (deps : List Dependency) : Sorted (dependencyTable deps) := by
  rw [dependencyTable_eq]
  exact sorted_foldl_set _ [] List.Pairwise.nil

theorem mem_dependencyTable {name : List Char} {v : TomlValue} :
    (name, v) ∈ dependencyTable deps ↔
      ((deps.reverse.find? fun d => d.name = name).map fun d => TomlValue.string d.version) =
        some v := by
  rw [mem_iff_lookup (sorted_dependencyTable deps), dependencyTable_eq, lookup_foldl_set,
    ← List.map_reverse, List.find?_map, lookup, Option.or_none, Option.map_map]
  simp only [Function.comp_def]
  convert Iff.rfl

theorem exists_of_mem_dependencyTable {e : List Char × TomlValue} (he : e ∈ dependencyTable deps) :
    ∃ d ∈ deps, e = (d.name, .string d.version) := by
  obtain ⟨d, hfind, hv⟩ := Option.map_eq_some_iff.mp (mem_dependencyTable.mp he)
  refine ⟨d, List.mem_reverse.mp (List.mem_of_find?_eq_some hfind), ?_⟩
  have hname : d.name = e.1 := by simpa using List.find?_some hfind
  rw [hname, hv]

theorem plainTable_dependencies (hm : m.Plain) (hnames : ∀ d ∈ m.dependencies, PlainKey d.name) :
    PlainTable ("dependencies".toList, dependencyTable m.dependencies) where
  name := plainKey_of_mem _ (by simp)
  keys := by
    intro e he
    obtain ⟨d, hd, rfl⟩ := exists_of_mem_dependencyTable he
    exact hnames d hd
  values := by
    intro e he
    obtain ⟨d, hd, rfl⟩ := exists_of_mem_dependencyTable he
    exact hm.versions d hd
  sorted := sorted_dependencyTable m.dependencies

/-! ### The round trip -/

/-- The dependencies that are read back: in the order of the names. -/
def loadedDependencies (deps : List Dependency) : List Dependency :=
  (dependencyTable deps).map fun e => ⟨e.1, e.2.strVal, registrySource⟩

theorem pairwise_loadedDependencies (deps : List Dependency) :
    (loadedDependencies deps).Pairwise fun d d' => d.name < d'.name := by
  rw [loadedDependencies, List.pairwise_map]
  exact sorted_dependencyTable deps

theorem mem_loadedDependencies {d : Dependency} :
    d ∈ loadedDependencies deps ↔ d.source = registrySource ∧
      ((deps.reverse.find? fun d' => d'.name = d.name).map Dependency.version) =
        some d.version := by
  rw [loadedDependencies, List.mem_map]
  constructor
  · rintro ⟨e, he, rfl⟩
    refine ⟨rfl, ?_⟩
    obtain ⟨d', hfind, hv⟩ := Option.map_eq_some_iff.mp (mem_dependencyTable.mp he)
    rw [hfind, Option.map_some, ← hv]
    rfl
  · rintro ⟨hsource, hlast⟩
    obtain ⟨d', hfind, hv⟩ := Option.map_eq_some_iff.mp hlast
    refine ⟨(d.name, .string d.version), mem_dependencyTable.mpr ?_, ?_⟩
    · rw [hfind, Option.map_some, hv]
    · cases d
      cases hsource
      rfl

theorem loadedDependencies_eq_self (hsorted : deps.Pairwise fun d d' => d.name < d'.name)
    (hsource : ∀ d ∈ deps, d.source = registrySource) : loadedDependencies deps = deps := by
  have htable : dependencyTable deps = deps.map fun d => (d.name, .string d.version) := by
    rw [dependencyTable_eq]
    exact foldl_set_sorted [] _ (List.pairwise_map.mpr hsorted)
  rw [loadedDependencies, htable, List.map_map]
  refine (List.map_congr_left fun d hd => ?_).trans (List.map_id deps)
  change (⟨d.name, d.version, registrySource⟩ : Dependency) = d
  rw [← hsource d hd]

theorem tableAt_parse (stod : List Char → Option UInt64) (showDouble : UInt64 → List Char)
    (depsFirst : Bool) (hm : m.Plain) (hnames : ∀ d ∈ m.dependencies, PlainKey d.name) :
    tableAt (parse stod (saveManifest showDouble depsFirst m)) "package" = packageTable m ∧
      tableAt (parse stod (saveManifest showDouble depsFirst m)) "dependencies" =
        dependencyTable m.dependencies := by
  have hpackage := plainTable_package hm
  have hdependencies := plainTable_dependencies hm hnames
  have htables : ∀ t ∈ manifestTables depsFirst m, PlainTable t := by
    rw [manifestTables]
    split_ifs
    · exact List.forall_mem_singleton.mpr hpackage
    · exact List.forall_mem_cons.mpr ⟨hdependencies, List.forall_mem_singleton.mpr hpackage⟩
    · exact List.forall_mem_cons.mpr ⟨hpackage, List.forall_mem_singleton.mpr hdependencies⟩
  rw [saveManifest, parse_serialize showDouble stod htables, manifestTables]
  split_ifs with hnone
  · rw [hnone]
    simp [tableAt, lookup_set, lookup, TomlValue.tableVal, dependencyTable]
  all_goals simp [tableAt, lookup_set, TomlValue.tableVal]

theorem loadManifest_saveManifest_eq (stod : List Char → Option UInt64)
    (showDouble : UInt64 → List Char) (depsFirst : Bool) (hm : m.Plain)
    (hnames : ∀ d ∈ m.dependencies, PlainKey d.name) :
    loadManifest stod (saveManifest showDouble depsFirst m) =
      if ((dependencyTable m.dependencies).all fun e => isValidDependencyName e.1) then
        some { m with dependencies := loadedDependencies m.dependencies }
      else none := by
  obtain ⟨hpkg, hdeps⟩ := tableAt_parse stod showDouble depsFirst hm hnames
  obtain ⟨hname, hversion, hdescription, hauthor, hlicense, hentry, hsources⟩ :=
    packageTable_fields m
  rw [loadManifest, hpkg, hdeps, hname, hversion, hdescription, hauthor, hlicense, hentry, hsources]
  rfl

/-- A manifest with valid names of dependencies, strings that keep to their lines and quotes
and sources without commas is read back from the file written for it: all fields and all
sources as they were, and the dependencies in the order of their names, each with the last
version given for it, as dependencies of the registry. In particular a manifest whose
dependencies are in that form already is read back as it was. -/
theorem loadManifest_saveManifest (stod : List Char → Option UInt64)
    (showDouble : UInt64 → List Char) (depsFirst : Bool) {m : Manifest} (hm : m.Plain)
    (hnames : ∀ d ∈ m.dependencies, isValidDependencyName d.name = true) :
    ∃ loaded, loadManifest stod (saveManifest showDouble depsFirst m) = some loaded ∧
      loaded.name = m.name ∧ loaded.version = m.version ∧
      loaded.description = m.description ∧ loaded.author = m.author ∧
      loaded.license = m.license ∧ loaded.entry = m.entry ∧ loaded.sources = m.sources ∧
      (loaded.dependencies.Pairwise fun d d' => d.name < d'.name) ∧
      (∀ d, d ∈ loaded.dependencies ↔ d.source = registrySource ∧
        ((m.dependencies.reverse.find? fun d' => d'.name = d.name).map Dependency.version) =
          some d.version) ∧
      ((m.dependencies.Pairwise fun d d' => d.name < d'.name) →
        (∀ d ∈ m.dependencies, d.source = registrySource) → loaded = m) := by
  have hvalid : (dependencyTable m.dependencies).all (fun e => isValidDependencyName e.1) =
      true := by
    refine List.all_eq_true.mpr fun e he => ?_
    obtain ⟨d, hd, rfl⟩ := exists_of_mem_dependencyTable he
    exact hnames d hd
  refine ⟨{ m with dependencies := loadedDependencies m.dependencies }, ?_, rfl, rfl, rfl, rfl,
    rfl, rfl, rfl, pairwise_loadedDependencies _, fun d => mem_loadedDependencies, ?_⟩
  · rw [loadManifest_saveManifest_eq stod showDouble depsFirst hm
      fun d hd => plainKey_of_isValidDependencyName (hnames d hd), if_pos hvalid]
  · intro hsorted hsource
    rw [loadedDependencies_eq_self hsorted hsource]

/-- A description with quotes and a comment sign, two sources and two dependencies given
against the order of their names. -/
def sampleManifest : Manifest where
  name := "demo".toList
  version := "0.1.0".toList
  description := "a \"b\" # c = [d]".toList
  author := []
  license := "MIT".toList
  entry := "src/main.esk".toList
  sources := ["src/*.esk".toList, "lib # \" x".toList]
  dependencies := [⟨"zlib".toList, "#1, 2".toList, registrySource⟩,
    ⟨"json".toList, "*".toList, registrySource⟩]

theorem sampleManifest_plain : sampleManifest.Plain := ⟨by decide, by decide, by decide, by decide⟩

theorem loadManifest_saveManifest_sample :
    ∃ loaded, loadManifest (fun _ => none)
        (saveManifest (fun _ => []) true sampleManifest) = some loaded ∧
      loaded.description = sampleManifest.description ∧
      loaded.sources = sampleManifest.sources := by
  obtain ⟨loaded, hload, -, -, hdescription, -, -, -, hsources, -⟩ :=
    loadManifest_saveManifest (fun _ => none) (fun _ => []) true sampleManifest_plain (by decide)
  exact ⟨loaded, hload, hdescription, hsources⟩

/-- A manifest with one dependency, whose name starts with a hyphen. -/
def refusedManifest : Manifest :=
  ⟨[], [], [], [], [], [], [], [⟨"-x".toList, "1".toList, registrySource⟩]⟩

/-- It is saved, in either order of the tables, and not loaded. -/
theorem loadManifest_refused :
    loadManifest (fun _ => none) (saveManifest (fun _ => []) true refusedManifest) = none ∧
      loadManifest (fun _ => none) (saveManifest (fun _ => []) false refusedManifest) = none := by
  have hplain : refusedManifest.Plain := ⟨by decide, by decide, by decide, by decide⟩
  have hnames : ∀ d ∈ refusedManifest.dependencies, PlainKey d.name := by
    simp only [plainKey_iff]
    decide
  simp only [loadManifest_saveManifest_eq _ _ _ hplain hnames]
  exact ⟨rfl, rfl⟩

end Eshkol.Pkg
