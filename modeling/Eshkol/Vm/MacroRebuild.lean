import Mathlib.Data.List.Nodup
import Mathlib.Data.List.Pairwise
import Eshkol.Vm.Macro

/-!
# Rebuilding a Matched Form

A pattern that has matched a form, as a template for the table of the match. The pattern is laid
over the form: every symbol of it has a place there, and the table is read off the places of the
variables. When the template is instantiated, the symbols are looked up in that table again.
-/

namespace Eshkol.Vm

/-! ### Patterns over forms -/

/-- The elements of a list pattern, each with whether an ellipsis follows it. -/
def elements : List Node → List (Node × Bool)
  | [] => []
  | [p] => [(p, false)]
  | p :: e :: ps => if isEllipsis e then (p, true) :: elements ps else (p, false) :: elements (e :: ps)

mutual

/-- A pattern without underscores and with at most one ellipsis in each list. -/
def simplePattern : Node → Bool
  | .symbol name _ => !isUnderscore name
  | .list _ ps => decide (ps.countP isEllipsis ≤ 1) && simplePatterns ps
  | .number _ => true
  | .string _ => true
  | .bool _ => true

/-- The children of such a pattern. -/
def simplePatterns : List Node → Bool
  | [] => true
  | p :: ps => simplePattern p && simplePatterns ps

end

/-- A symbol of a pattern, with what stands at its place in a form. -/
structure Place where
  name : Name
  verbatim : Bool
  isVariable : Bool
  bound : Bound

/-- The table that holds the variables among the places. -/
def table (places : List Place) : MacroBindings :=
  (places.filter Place.isVariable).map fun a => ⟨cutName a.name, a.bound⟩

/-- What a table has for a symbol is what stands at its place; a symbol that it does not have
stands for itself, and an ellipsis over it for nothing. -/
def Place.Shown (bindings : MacroBindings) (a : Place) : Prop :=
  match a.bound, macroBindingsLookup bindings a.name with
  | .one x, some (.one value) => x = value
  | .one x, _ => x = .symbol a.name a.verbatim
  | .many items, some (.many values) => items = values
  | .many items, _ => items = []

section Places

variable (literals : List Name)

mutual

/-- The variables of a pattern, each with whether an ellipsis follows it. -/
def patternVars : Node → Bool → List (Name × Bool)
  | .symbol name verbatim, repeated =>
    match patternVariable literals (.symbol name verbatim) with
    | some name => [(name, repeated)]
    | none => []
  | .list _ ps, _ => patternVarsList ps
  | .number _, _ => []
  | .string _, _ => []
  | .bool _, _ => []

/-- The variables of the elements of a list pattern. -/
def patternVarsList : List Node → List (Name × Bool)
  | [] => []
  | [p] => patternVars p false
  | p :: e :: ps =>
    if isEllipsis e then patternVars p true ++ patternVarsList ps
    else patternVars p false ++ patternVarsList (e :: ps)

end

/-- The pattern variables are distinct. -/
def DistinctVars (p : Node) : Prop := ((patternVars literals p false).map Prod.fst).Nodup

mutual

/-- The symbols of a pattern that is laid over a form, in the order in which they are matched: the
elements that an ellipsis repeats come after all others of a list. -/
def places : Node → Node → List Place
  | .symbol name verbatim, x =>
    [⟨name, verbatim, (patternVariable literals (.symbol name verbatim)).isSome, .one x⟩]
  | .list _ ps, x =>
    match x with
    | .list _ xs => placesList ps xs
    | _ => []
  | .number _, _ => []
  | .string _, _ => []
  | .bool _, _ => []

/-- The symbols of the elements of a list pattern. -/
def placesList : List Node → List Node → List Place
  | [], _ => []
  | [p], xs =>
    match xs with
    | x :: _ => places p x
    | [] => []
  | p :: e :: ps, xs =>
    if isEllipsis e then
      placesList ps (xs.drop (xs.length - ps.length)) ++
        placesItems p (xs.take (xs.length - ps.length))
    else
      match xs with
      | x :: xs => places p x ++ placesList (e :: ps) xs
      | [] => []

/-- The symbols of a pattern that an ellipsis repeats over the items. -/
def placesItems : Node → List Node → List Place
  | .symbol name verbatim, items =>
    if (patternVariable literals (.symbol name verbatim)).isSome then
      [⟨name, verbatim, true, .many items⟩]
    else []
  | .list _ ps, items =>
    items.flatMap fun
      | .list _ xs => placesList ps xs
      | _ => []
  | .number _, _ => []
  | .string _, _ => []
  | .bool _, _ => []

end

mutual

/-- A form has the shape of a pattern, with the same atoms, no vectors, and no elements where an
ellipsis repeats anything but a variable. -/
def Covers : Node → Node → Prop
  | .symbol _ _, _ => True
  | .list _ ps, x => ∃ xs, x = .list false xs ∧ CoversList ps xs
  | .number n, x => x = .number n
  | .string s, x => x = .string s
  | .bool b, x => x = .bool b

/-- The elements of a list have the shape of the elements of a list pattern. -/
def CoversList : List Node → List Node → Prop
  | [], xs => xs = []
  | [p], xs => ∃ x, xs = [x] ∧ Covers p x
  | p :: e :: ps, xs =>
    if isEllipsis e then
      ∃ items rest, xs = items ++ rest ∧ CoversList ps rest ∧
        ((patternVariable literals p).isSome ∨ items = [])
    else ∃ x rest, xs = x :: rest ∧ Covers p x ∧ CoversList (e :: ps) rest

end

end Places

/-! ### Elements of lists -/

variable {p e : Node} {ps : List Node} {bindings : MacroBindings} {name : Name}

theorem elements_cons_ellipsis (he : isEllipsis e = true) (ps : List Node) :
    elements (p :: e :: ps) = (p, true) :: elements ps := by
  rw [elements, if_pos he]

theorem elements_cons (he : isEllipsis e = false) (ps : List Node) :
    elements (p :: e :: ps) = (p, false) :: elements (e :: ps) := by
  rw [elements, if_neg (by simp [he])]

@[elab_as_elim]
theorem elements_induct {motive : List Node → Prop} (nil : motive [])
    (single : ∀ p, motive [p])
    (ellipsis : ∀ p e ps, isEllipsis e = true → motive ps → motive (p :: e :: ps))
    (cons : ∀ p e ps, isEllipsis e = false → motive (e :: ps) → motive (p :: e :: ps)) :
    ∀ ps, motive ps
  | [] => nil
  | [p] => single p
  | p :: e :: ps => by
      cases he : isEllipsis e with
      | true => exact ellipsis p e ps he (elements_induct nil single ellipsis cons ps)
      | false => exact cons p e ps he (elements_induct nil single ellipsis cons (e :: ps))

theorem mem_of_mem_elements {q : Node × Bool} (h : q ∈ elements ps) : q.1 ∈ ps := by
  induction ps using elements_induct with
  | nil => exact absurd h List.not_mem_nil
  | single p =>
    rw [List.mem_singleton.mp h]
    exact List.mem_singleton_self p
  | ellipsis p e ps he ih =>
    rw [elements_cons_ellipsis he] at h
    rcases List.mem_cons.mp h with rfl | h
    · exact List.mem_cons_self
    · exact List.mem_cons_of_mem _ (List.mem_cons_of_mem _ (ih h))
  | cons p e ps he ih =>
    rw [elements_cons he] at h
    rcases List.mem_cons.mp h with rfl | h
    · exact List.mem_cons_self
    · exact List.mem_cons_of_mem _ (ih h)

theorem exists_mem_elements {c : Node} (h : c ∈ ps) (hc : isEllipsis c = false) :
    ∃ repeated, (c, repeated) ∈ elements ps := by
  induction ps using elements_induct with
  | nil => exact absurd h List.not_mem_nil
  | single p => exact ⟨false, List.mem_singleton.mpr (by rw [List.mem_singleton.mp h])⟩
  | ellipsis p e ps he ih =>
    rw [elements_cons_ellipsis he]
    rcases List.mem_cons.mp h with rfl | h
    · exact ⟨true, List.mem_cons_self⟩
    · rcases List.mem_cons.mp h with rfl | h
      · exact absurd (hc.symm.trans he) nofun
      · obtain ⟨repeated, hmem⟩ := ih h
        exact ⟨repeated, List.mem_cons_of_mem _ hmem⟩
  | cons p e ps he ih =>
    rw [elements_cons he]
    rcases List.mem_cons.mp h with rfl | h
    · exact ⟨false, List.mem_cons_self⟩
    · obtain ⟨repeated, hmem⟩ := ih h
      exact ⟨repeated, List.mem_cons_of_mem _ hmem⟩

theorem elements_of_countP_eq_zero (h : ps.countP isEllipsis = 0) :
    elements ps = ps.map fun p => (p, false) := by
  induction ps using elements_induct with
  | nil => rfl
  | single p => rfl
  | ellipsis p e ps he ih =>
    rw [List.countP_eq_zero] at h
    exact absurd he (h e (by simp))
  | cons p e ps he ih =>
    rw [elements_cons he, ih (by simp_all [List.countP_eq_zero])]
    rfl

theorem countP_after_ellipsis {p e : Node} {ps : List Node} (he : isEllipsis e = true)
    (h : (p :: e :: ps).countP isEllipsis ≤ 1) :
    isEllipsis p = false ∧ ps.countP isEllipsis = 0 := by
  rw [List.countP_cons, List.countP_cons, if_pos he] at h
  constructor
  · by_contra hp
    rw [if_pos (by simpa using hp)] at h
    omega
  · omega

theorem countP_tail_le (h : (p :: ps).countP isEllipsis ≤ 1) : ps.countP isEllipsis ≤ 1 :=
  (List.countP_cons ▸ Nat.le_add_right _ _).trans h

theorem repeated_unique (h : ps.countP isEllipsis ≤ 1) {q : Node} (hp : (p, true) ∈ elements ps)
    (hq : (q, true) ∈ elements ps) : p = q ∧ isEllipsis p = false := by
  induction ps using elements_induct with
  | nil => exact absurd hp List.not_mem_nil
  | single r => exact absurd (List.mem_singleton.mp hp) nofun
  | ellipsis r e ps he ih =>
    obtain ⟨hr, hnone⟩ := countP_after_ellipsis he h
    rw [elements_cons_ellipsis he, elements_of_countP_eq_zero hnone] at hp hq
    have hfirst {s : Node} (hs : (s, true) ∈ (r, true) :: ps.map fun p => (p, false)) : s = r := by
      rcases List.mem_cons.mp hs with hs | hs
      · exact congrArg Prod.fst hs
      · obtain ⟨_, _, hs⟩ := List.mem_map.mp hs
        exact absurd (congrArg Prod.snd hs) nofun
    rw [hfirst hp, hfirst hq]
    exact ⟨rfl, hr⟩
  | cons r e ps he ih =>
    rw [elements_cons he] at hp hq
    have hrest {s : Node} (hs : (s, true) ∈ (r, false) :: elements (e :: ps)) :
        (s, true) ∈ elements (e :: ps) := by
      rcases List.mem_cons.mp hs with hs | hs
      · exact absurd (congrArg Prod.snd hs) nofun
      · exact hs
    exact ih (countP_tail_le h) (hrest hp) (hrest hq)

theorem simplePatterns_iff : simplePatterns ps = true ↔ ∀ p ∈ ps, simplePattern p = true := by
  induction ps with
  | nil => simp [simplePatterns]
  | cons p ps ih => rw [simplePatterns, Bool.and_eq_true, ih, List.forall_mem_cons]

theorem simplePattern_list {vector : Bool} (h : simplePattern (.list vector ps) = true) :
    ps.countP isEllipsis ≤ 1 ∧ ∀ p ∈ ps, simplePattern p = true := by
  rw [simplePattern, Bool.and_eq_true, decide_eq_true_eq, simplePatterns_iff] at h
  exact h

/-- The elements that one element of a list template stands for. -/
def instantiateElement (q : Node × Bool) (bindings : MacroBindings) : List Node :=
  if q.2 then instantiateEllipsis q.1 bindings else [vmMacroInstantiate q.1 bindings]

theorem instantiateList_eq (ts : List Node) (bindings : MacroBindings) :
    instantiateList ts bindings = (elements ts).flatMap fun q => instantiateElement q bindings := by
  induction ts using elements_induct with
  | nil => rw [instantiateList, elements, List.flatMap_nil]
  | single t => simp [instantiateList, elements, instantiateElement]
  | ellipsis t e ts he ih =>
    rw [instantiateList, if_pos he, elements_cons_ellipsis he, List.flatMap_cons, ih]
    rfl
  | cons t e ts he ih =>
    rw [instantiateList, if_neg (by simp [he]), elements_cons he, List.flatMap_cons, ih]
    rfl

theorem length_instantiateList {ts : List Node} (h : ts.countP isEllipsis = 0)
    (bindings : MacroBindings) : (instantiateList ts bindings).length = ts.length := by
  rw [instantiateList_eq, elements_of_countP_eq_zero h, List.flatMap_map]
  simp [instantiateElement]

/-! ### The table of a match -/

theorem table_append (as bs : List Place) : table (as ++ bs) = table as ++ table bs := by
  rw [table, List.filter_append, List.map_append]
  rfl

theorem macroBindingsAdd_eq {bindings' : MacroBindings} {bound : Bound}
    (h : macroBindingsAdd bindings name bound = some bindings') :
    bindings' = bindings ++ [⟨cutName name, bound⟩] := by
  rw [macroBindingsAdd] at h
  split at h
  next => exact (Option.some.inj h).symm
  next => exact absurd h nofun

theorem exists_split_of_findIdx? {k : ℕ} (h : ps.findIdx? isEllipsis = some k) :
    ∃ before e after, ps = before ++ e :: after ∧ before.length = k ∧ isEllipsis e = true ∧
      ∀ p ∈ before, isEllipsis p = false := by
  induction ps generalizing k with
  | nil => exact absurd h nofun
  | cons p ps ih =>
    rw [List.findIdx?_cons] at h
    split at h
    next hp => exact ⟨[], p, ps, rfl, Option.some.inj h, hp, nofun⟩
    next hp =>
      obtain ⟨j, hj, rfl⟩ := Option.map_eq_some_iff.mp h
      obtain ⟨before, e, after, rfl, rfl, he, hbefore⟩ := ih hj
      refine ⟨p :: before, e, after, rfl, rfl, he, ?_⟩
      exact List.forall_mem_cons.mpr ⟨by simpa using hp, hbefore⟩

section Table

variable {literals : List Name}

/-- The places of patterns, each laid over one form. -/
def placesEach (literals : List Name) (ps xs : List Node) : List Place :=
  (List.zipWith (places literals) ps xs).flatten

theorem placesList_cons_ellipsis {p e : Node} (he : isEllipsis e = true) (ps xs : List Node) :
    placesList literals (p :: e :: ps) xs =
      placesList literals ps (xs.drop (xs.length - ps.length)) ++
        placesItems literals p (xs.take (xs.length - ps.length)) := by
  cases xs <;> simp [placesList, he]

variable {ps : List Node} {bindings bindings' : MacroBindings}

theorem placesList_of_countP_eq_zero (h : ps.countP isEllipsis = 0) (xs : List Node) :
    placesList literals ps xs = placesEach literals ps xs := by
  induction ps using elements_induct generalizing xs with
  | nil => rw [placesList, placesEach, List.zipWith_nil_left, List.flatten_nil]
  | single p => cases xs <;> simp [placesList, placesEach]
  | ellipsis p e ps he ih =>
    rw [List.countP_eq_zero] at h
    exact absurd he (h e (by simp))
  | cons p e ps he ih =>
    have hrest : (e :: ps).countP isEllipsis = 0 := by simp_all [List.countP_eq_zero]
    cases xs with
    | nil => simp [placesList, placesEach, he]
    | cons x xs => simp [placesList, placesEach, he, ih hrest xs]

theorem placesList_append {before : List Node} (hbefore : ∀ p ∈ before, isEllipsis p = false)
    {q : Node} (hq : isEllipsis q = false) (ps : List Node) {xs : List Node}
    (hlen : before.length ≤ xs.length) :
    placesList literals (before ++ q :: ps) xs =
      placesEach literals before xs ++ placesList literals (q :: ps) (xs.drop before.length) := by
  induction before generalizing xs with
  | nil => simp [placesEach]
  | cons p before ih =>
    rw [List.forall_mem_cons] at hbefore
    cases xs with
    | nil => exact absurd hlen (Nat.not_succ_le_zero _)
    | cons x xs =>
      have hrest := ih hbefore.2 (Nat.le_of_succ_le_succ hlen)
      have hcons : placesList literals (p :: (before ++ q :: ps)) (x :: xs) =
          places literals p x ++ placesList literals (before ++ q :: ps) xs := by
        cases before with
        | nil => simp [placesList, hq]
        | cons p' before => simp [placesList, hbefore.2 p' (by simp)]
      rw [List.cons_append, hcons, hrest]
      simp [placesEach]

/-- The table that a pattern adds to. -/
def Tabled (literals : List Name) (p : Node) : Prop :=
  ∀ {x : Node} {bindings bindings' : MacroBindings},
    vmMacroMatch literals p x bindings = some bindings' →
    bindings' = bindings ++ table (places literals p x)

theorem matchFrom_table (hps : ∀ p ∈ ps, Tabled literals p) {start count : ℕ} {xs : List Node}
    (h : matchFrom literals ps start count xs bindings = some bindings') :
    bindings' = bindings ++ table (placesEach literals ((ps.drop start).take count) xs) := by
  induction ps generalizing start count xs bindings with
  | nil =>
    rw [matchFrom] at h
    · simpa [placesEach, table] using (Option.some.inj h).symm
    · exact nofun
    · exact nofun
  | cons p ps ih =>
    rw [List.forall_mem_cons] at hps
    cases start with
    | succ start => exact ih hps.2 (by simpa [matchFrom] using h)
    | zero =>
      cases count with
      | zero => simpa [matchFrom, placesEach, table, eq_comm] using h
      | succ count =>
        cases xs with
        | nil => simpa [matchFrom, placesEach, table, eq_comm] using h
        | cons x xs =>
          rw [matchFrom] at h
          obtain ⟨mid, hmid, h⟩ := Option.bind_eq_some_iff.mp h
          rw [ih hps.2 h, hps.1 hmid, List.append_assoc, ← table_append]
          rfl

theorem matchRepeat_append (before : List Node) (r : Node) (ps items : List Node)
    (bindings : MacroBindings) :
    matchRepeat literals (before ++ r :: ps) before.length items bindings =
      matchRepeat literals (r :: ps) 0 items bindings := by
  induction before with
  | nil => rfl
  | cons p before ih => rw [List.cons_append, List.length_cons, matchRepeat, ih]

theorem foldlM_table {r : Node} (hr : Tabled literals r) {items : List Node}
    (h : items.foldlM (fun bindings x => vmMacroMatch literals r x bindings) bindings =
      some bindings') : bindings' = bindings ++ table (items.flatMap (places literals r)) := by
  induction items generalizing bindings with
  | nil => simpa [table, eq_comm] using h
  | cons x items ih =>
    rw [List.foldlM_cons] at h
    obtain ⟨mid, hmid, h⟩ := Option.bind_eq_some_iff.mp h
    rw [ih h, hr hmid, List.append_assoc, ← table_append, List.flatMap_cons]

theorem matchRepeat_table {r : Node} (hr : Tabled literals r) {items : List Node}
    (h : matchRepeat literals (r :: ps) 0 items bindings = some bindings') :
    bindings' = bindings ++ table (placesItems literals r items) := by
  rw [matchRepeat] at h
  cases r with
  | symbol name verbatim =>
    cases hvar : patternVariable literals (.symbol name verbatim) with
    | some name' =>
      obtain rfl : name = name' := by
        rw [patternVariable] at hvar
        split at hvar
        next => cases hvar
        next => exact Option.some.inj hvar
      simp only [hvar] at h
      rw [macroBindingsAdd_eq h]
      simp [placesItems, hvar, table]
    | none =>
      simp only [hvar, Node.isList, Bool.false_eq_true, if_false] at h
      split at h
      next => simpa [placesItems, hvar, table, eq_comm] using h
      next => cases h
  | list vector ps =>
    simp only [patternVariable, Node.isList, if_true] at h
    rw [foldlM_table hr h, placesItems]
    rfl
  | number | string | bool =>
    simp only [patternVariable, Node.isList, Bool.false_eq_true, if_false] at h
    split at h
    next => simpa [placesItems, table, eq_comm] using h
    next => cases h

/-- A list pattern is tabled if its elements are. -/
theorem matchList_table {vector : Bool} (hps : ∀ p ∈ ps, Tabled literals p)
    (hcount : ps.countP isEllipsis ≤ 1) : Tabled literals (.list vector ps) := by
  intro x bindings bindings' h
  cases x with
  | number | symbol | string | bool => exact absurd h (by simp [vmMacroMatch])
  | list vector' xs =>
    simp only [vmMacroMatch] at h
    rw [places]
    split at h
    next hnone =>
      split at h
      next => exact absurd h nofun
      next hlen =>
        have hzero : ps.countP isEllipsis = 0 := by
          rw [List.countP_eq_zero]
          simpa [List.findIdx?_eq_none_iff] using hnone
        rw [placesList_of_countP_eq_zero hzero]
        simpa using matchFrom_table hps h
    next => exact absurd h nofun
    next prefixLen hidx =>
      obtain ⟨front, e, suffix, rfl, hfront, he, hno⟩ := exists_split_of_findIdx? hidx
      rcases List.eq_nil_or_concat' front with rfl | ⟨before, r, rfl⟩
      · exact absurd hfront nofun
      obtain rfl : before.length = prefixLen := by simpa using hfront
      rw [List.append_assoc, List.singleton_append] at h hps hcount ⊢
      have hr : isEllipsis r = false := hno r (by simp)
      have hsuffix : suffix.countP isEllipsis = 0 := by
        rw [List.countP_append, List.countP_cons, List.countP_cons, if_pos he] at hcount
        omega
      have hlen : (before ++ r :: e :: suffix).length - (before.length + 1) - 1 =
          suffix.length := by
        simp only [List.length_append, List.length_cons]
        omega
      simp only [hlen] at h
      split at h
      next => exact absurd h nofun
      next hle =>
        obtain ⟨b₁, h₁, h⟩ := Option.bind_eq_some_iff.mp h
        obtain ⟨b₂, h₂, h₃⟩ := Option.bind_eq_some_iff.mp h
        rw [matchRepeat_append] at h₃
        have htable₁ := matchFrom_table hps h₁
        have htable₂ := matchFrom_table hps h₂
        have htable₃ := matchRepeat_table (hps r (by simp)) h₃
        have hdrop : (before ++ r :: e :: suffix).drop (before.length + 2) = suffix := by simp
        rw [List.drop_zero, List.take_left] at htable₁
        rw [hdrop, List.take_length] at htable₂
        have hrest : before.length + (xs.length - before.length - suffix.length) =
            xs.length - suffix.length := by omega
        rw [placesList_append (fun p hp => hno p (List.mem_append_left _ hp)) hr _ (by omega),
          placesList_cons_ellipsis he, placesList_of_countP_eq_zero hsuffix, List.length_drop,
          List.drop_drop, hrest, Nat.sub_sub, table_append, table_append, htable₃, htable₂,
          htable₁, List.append_assoc, List.append_assoc]

theorem patternVariable_symbol {name : Name} {verbatim : Bool}
    (hsimple : simplePattern (.symbol name verbatim) = true) :
    patternVariable literals (.symbol name verbatim) =
      if isLiteral name literals then none else some name := by
  rw [simplePattern, Bool.not_eq_true'] at hsimple
  rw [patternVariable, hsimple, Bool.false_or]

/-- **The table of a match** holds the variables of the pattern, in the order in which they are
matched, with the forms at their places. -/
theorem vmMacroMatch_table {p : Node} (hsimple : simplePattern p = true) : Tabled literals p := by
  induction p using Node.induct with
  | number n =>
    intro x bindings bindings' h
    rw [places]
    cases x <;> simp_all [vmMacroMatch, table]
  | string s =>
    intro x bindings bindings' h
    rw [places]
    cases x <;> simp_all [vmMacroMatch, table]
  | bool b =>
    intro x bindings bindings' h
    rw [places]
    cases x <;> simp_all [vmMacroMatch, table]
  | symbol name verbatim =>
    intro x bindings bindings' h
    have hvar := @patternVariable_symbol literals _ _ hsimple
    rw [simplePattern, Bool.not_eq_true'] at hsimple
    rw [vmMacroMatch, hsimple, if_neg (by simp)] at h
    rw [places, hvar]
    split at h
    next hlit =>
      split at h
      next => simpa [hlit, table, eq_comm] using h
      next => exact absurd h nofun
    next hlit =>
      rw [macroBindingsAdd_eq h]
      simp [hlit, table]
  | list vector ps ih =>
    obtain ⟨hcount, hps⟩ := simplePattern_list hsimple
    exact matchList_table (fun p hp => ih p hp (hps p hp)) hcount

end Table

/-! ### Looking up -/

/-- The names in a table have at most 63 bytes. -/
def ShortNames (bindings : MacroBindings) : Prop := ∀ b ∈ bindings, b.name.length ≤ 63

theorem mem_of_macroBindingsLookup {bound : Bound}
    (h : macroBindingsLookup bindings name = some bound) : ⟨name, bound⟩ ∈ bindings := by
  rw [macroBindingsLookup] at h
  obtain ⟨b, hb, rfl⟩ := Option.map_eq_some_iff.mp h
  have hname := List.find?_some hb
  rw [decide_eq_true_eq] at hname
  subst hname
  exact List.mem_of_find?_eq_some hb

theorem macroBindingsLookup_long (hshort : ShortNames bindings) (hlong : 63 < name.length) :
    macroBindingsLookup bindings name = none := by
  cases h : macroBindingsLookup bindings name with
  | none => rfl
  | some bound => exact absurd (hshort _ (mem_of_macroBindingsLookup h)) (Nat.not_le.mpr hlong)

theorem shortNames_table (as : List Place) : ShortNames (table as) := by
  intro b hb
  obtain ⟨a, _, rfl⟩ := List.mem_map.mp hb
  exact List.length_take_le _ _

theorem mem_bindItem {item : Node} {b : MacroBinding} (h : b ∈ bindItem name item bindings) :
    (∃ b' ∈ bindings, b'.name = b.name) ∧ (∀ items, b.bound = .many items → b ∈ bindings) := by
  induction bindings with
  | nil => exact absurd h List.not_mem_nil
  | cons c bindings ih =>
    have hold (hmem : b ∈ bindItem name item bindings) :
        (∃ b' ∈ c :: bindings, b'.name = b.name) ∧
          ∀ items, b.bound = .many items → b ∈ c :: bindings := by
      obtain ⟨⟨b', hb', hname⟩, hmany⟩ := ih hmem
      exact ⟨⟨b', List.mem_cons_of_mem _ hb', hname⟩,
        fun items hitems => List.mem_cons_of_mem _ (hmany items hitems)⟩
    have hkeep (hmem : b ∈ c :: bindings) : (∃ b' ∈ c :: bindings, b'.name = b.name) ∧
          ∀ items, b.bound = .many items → b ∈ c :: bindings :=
      ⟨⟨b, hmem, rfl⟩, fun _ _ => hmem⟩
    rw [bindItem] at h
    split at h
    next items hc =>
      split at h
      next hname =>
        rcases List.mem_cons.mp h with rfl | h
        · exact ⟨⟨c, List.mem_cons_self, rfl⟩, nofun⟩
        · exact hkeep (List.mem_cons_of_mem _ h)
      next =>
        rcases List.mem_cons.mp h with rfl | h
        · exact hkeep List.mem_cons_self
        · exact hold h
    next =>
      rcases List.mem_cons.mp h with rfl | h
      · exact hkeep List.mem_cons_self
      · exact hold h

theorem ShortNames.bindItem (h : ShortNames bindings) (name : Name) (item : Node) :
    ShortNames (bindItem name item bindings) := by
  intro b hb
  obtain ⟨b', hb', hname⟩ := (mem_bindItem hb).1
  exact hname ▸ h b' hb'

theorem macroBindingsLookup_bindItem {items : List Node}
    (h : macroBindingsLookup bindings name = some (.many items)) (item : Node) :
    macroBindingsLookup (bindItem name item bindings) name = some (.one item) := by
  induction bindings with
  | nil => exact absurd h nofun
  | cons c bindings ih =>
    rw [macroBindingsLookup, List.find?_cons] at h
    split at h
    next hname =>
      rw [decide_eq_true_eq] at hname
      have hbound : c.bound = .many items := Option.some.inj h
      simp [bindItem, hbound, hname, macroBindingsLookup]
    next hname =>
      rw [decide_eq_false_iff_not] at hname
      have hrest : bindItem name item (c :: bindings) = c :: bindItem name item bindings := by
        rw [bindItem]
        split
        next => rw [if_neg hname]
        next => rfl
      rw [hrest, macroBindingsLookup, List.find?_cons_of_neg (by simpa using hname)]
      exact ih h

theorem ellipsisChild_eq_some {children : List Node} {items : List Node}
    (h : ellipsisChild children bindings = some (name, items)) :
    (∃ verbatim, .symbol name verbatim ∈ children) ∧
      macroBindingsLookup bindings name = some (.many items) := by
  obtain ⟨c, hc, h⟩ := List.exists_of_findSome?_eq_some h
  cases c with
  | symbol name' verbatim =>
    simp only [Node.symbolName] at h
    split at h
    next items' hlookup =>
      obtain ⟨rfl, rfl⟩ := Prod.mk.inj (Option.some.inj h)
      exact ⟨⟨verbatim, hc⟩, hlookup⟩
    next => exact absurd h nofun
  | number | list | string | bool => exact absurd h nofun

theorem mem_instantiateEllipsis_list {vector : Bool} {ts : List Node} {x : Node}
    (h : x ∈ instantiateEllipsis (.list vector ts) bindings) :
    ∃ name items item, ellipsisChild ts bindings = some (name, items) ∧ item ∈ items ∧
      x = vmMacroInstantiate (.list vector ts) (bindItem name item bindings) := by
  rw [instantiateEllipsis] at h
  split at h
  next name items hchild =>
    obtain ⟨item, hitem, rfl⟩ := List.mem_map.mp h
    exact ⟨name, items, item, hchild, hitem, by rw [vmMacroInstantiate]⟩
  next => exact absurd h List.not_mem_nil

/-! ### A pattern over its instance -/

section Instance

variable {literals : List Name}

/-- The places of one element of a list pattern over its instance. -/
def placesElement (literals : List Name) (q : Node × Bool) (bindings : MacroBindings) :
    List Place :=
  if q.2 then placesItems literals q.1 (instantiateEllipsis q.1 bindings)
  else places literals q.1 (vmMacroInstantiate q.1 bindings)

variable {ps xs : List Node} {bindings : MacroBindings} {a : Place}
  {vector verbatim repeated : Bool} {name : Name} {p q x : Node} {v : Name × Bool}

theorem mem_placesList_instantiateList (hcount : ps.countP isEllipsis ≤ 1)
    (h : a ∈ placesList literals ps (instantiateList ps bindings)) :
    ∃ q ∈ elements ps, a ∈ placesElement literals q bindings := by
  induction ps using elements_induct with
  | nil => exact absurd h (by simp [placesList])
  | single p =>
    refine ⟨(p, false), List.mem_singleton_self _, ?_⟩
    simpa [placesList, instantiateList, placesElement] using h
  | ellipsis p e ps he ih =>
    have hnone := (countP_after_ellipsis he hcount).2
    have hlen := length_instantiateList hnone bindings
    rw [instantiateList, if_pos he, placesList_cons_ellipsis he, List.length_append, ← hlen,
      Nat.add_sub_cancel, List.drop_left, List.take_left] at h
    rw [elements_cons_ellipsis he]
    rcases List.mem_append.mp h with h | h
    · obtain ⟨q, hq, ha⟩ := ih (hnone ▸ Nat.zero_le 1) h
      exact ⟨q, List.mem_cons_of_mem _ hq, ha⟩
    · exact ⟨(p, true), List.mem_cons_self, by simpa [placesElement] using h⟩
  | cons p e ps he ih =>
    rw [instantiateList, if_neg (by simp [he])] at h
    simp only [placesList, he, Bool.false_eq_true, if_false] at h
    rw [elements_cons he]
    rcases List.mem_append.mp h with h | h
    · exact ⟨(p, false), List.mem_cons_self, by simpa [placesElement] using h⟩
    · obtain ⟨q, hq, ha⟩ := ih (countP_tail_le hcount) h
      exact ⟨q, List.mem_cons_of_mem _ hq, ha⟩

/-- One element of a list pattern covers its instance. -/
def CoversElement (literals : List Name) (q : Node × Bool) (bindings : MacroBindings) : Prop :=
  if q.2 then (patternVariable literals q.1).isSome ∨ instantiateEllipsis q.1 bindings = []
  else Covers literals q.1 (vmMacroInstantiate q.1 bindings)

theorem coversList_instantiateList (h : ∀ q ∈ elements ps, CoversElement literals q bindings) :
    CoversList literals ps (instantiateList ps bindings) := by
  induction ps using elements_induct with
  | nil => rw [instantiateList, CoversList]
  | single p =>
    rw [instantiateList, CoversList]
    exact ⟨_, rfl, by simpa [CoversElement] using h (p, false) (List.mem_singleton_self _)⟩
  | ellipsis p e ps he ih =>
    rw [elements_cons_ellipsis he, List.forall_mem_cons] at h
    rw [instantiateList, if_pos he, CoversList, if_pos he]
    exact ⟨_, _, rfl, ih h.2, by simpa [CoversElement] using h.1⟩
  | cons p e ps he ih =>
    rw [elements_cons he, List.forall_mem_cons] at h
    rw [instantiateList, if_neg (by simp [he]), CoversList, if_neg (by simp [he])]
    exact ⟨_, _, rfl, by simpa [CoversElement] using h.1, ih h.2⟩

theorem exists_element_of_mem_places (hsimple : simplePattern (.list vector ps) = true)
    (h : a ∈ places literals (.list vector ps) (vmMacroInstantiate (.list vector ps) bindings)) :
    ∃ q ∈ elements ps, a ∈ placesElement literals q bindings := by
  rw [vmMacroInstantiate, places] at h
  exact mem_placesList_instantiateList (simplePattern_list hsimple).1 h

theorem exists_item_of_mem_placesItems (h : a ∈ placesItems literals (.list vector ps)
      (instantiateEllipsis (.list vector ps) bindings)) :
    ∃ name items item, ellipsisChild ps bindings = some (name, items) ∧ item ∈ items ∧
      a ∈ places literals (.list vector ps)
        (vmMacroInstantiate (.list vector ps) (bindItem name item bindings)) := by
  rw [placesItems] at h
  obtain ⟨x, hx, ha⟩ := List.mem_flatMap.mp h
  obtain ⟨name, items, item, hchild, hitem, rfl⟩ := mem_instantiateEllipsis_list hx
  refine ⟨name, items, item, hchild, hitem, ?_⟩
  rw [vmMacroInstantiate] at ha ⊢
  rw [places]
  exact ha

theorem eq_of_mem_placesItems_symbol {items : List Node}
    (h : a ∈ placesItems literals (.symbol name verbatim) items) :
    patternVariable literals (.symbol name verbatim) = some name ∧
      a = ⟨name, verbatim, true, .many items⟩ := by
  rw [placesItems] at h
  split at h
  next hvar =>
    refine ⟨?_, List.mem_singleton.mp h⟩
    rw [patternVariable] at hvar ⊢
    split at hvar
    next => exact absurd hvar nofun
    next hno => rw [if_neg hno]
  next => exact absurd h List.not_mem_nil

theorem long_items_eq_nil (hsimple : simplePattern p = true) (hshort : ShortNames bindings)
    (ha : a ∈ places literals p (vmMacroInstantiate p bindings)) {items : List Node}
    (hitems : a.bound = .many items) (hlong : 63 < a.name.length) : items = [] := by
  induction p using Node.induct generalizing bindings with
  | number | string | bool => exact absurd ha (by simp [places])
  | symbol name verbatim =>
    rw [places, List.mem_singleton] at ha
    subst ha
    exact absurd hitems nofun
  | list vector ps ih =>
    obtain ⟨⟨q, repeated⟩, hq, ha⟩ := exists_element_of_mem_places hsimple ha
    have hmem := mem_of_mem_elements hq
    have hsub := (simplePattern_list hsimple).2 q hmem
    cases repeated with
    | false => exact ih q hmem hsub hshort ha
    | true =>
      replace ha : a ∈ placesItems literals q (instantiateEllipsis q bindings) := ha
      cases q with
      | number | string | bool => exact absurd ha (by simp [placesItems])
      | symbol name verbatim =>
        obtain ⟨-, rfl⟩ := eq_of_mem_placesItems_symbol ha
        rw [instantiateEllipsis, macroBindingsLookup_long hshort hlong] at hitems
        exact (Bound.many.inj hitems).symm
      | list vector' ts =>
        obtain ⟨name, items', item, -, -, ha⟩ := exists_item_of_mem_placesItems ha
        exact ih _ hmem hsub (hshort.bindItem name item) ha

/-! ### Variables of a pattern -/

theorem patternVarsList_eq (ps : List Node) :
    patternVarsList literals ps = (elements ps).flatMap fun q => patternVars literals q.1 q.2 := by
  induction ps using elements_induct with
  | nil => rw [patternVarsList, elements, List.flatMap_nil]
  | single p => simp [patternVarsList, elements]
  | ellipsis p e ps he ih =>
    rw [patternVarsList, if_pos he, elements_cons_ellipsis he, List.flatMap_cons, ih]
  | cons p e ps he ih =>
    rw [patternVarsList, if_neg (by simp [he]), elements_cons he, List.flatMap_cons, ih]

theorem mem_patternVars_list :
    v ∈ patternVars literals (.list vector ps) repeated ↔
      ∃ q ∈ elements ps, v ∈ patternVars literals q.1 q.2 := by
  rw [patternVars, patternVarsList_eq, List.mem_flatMap]

theorem mem_patternVars_symbol :
    v ∈ patternVars literals (.symbol name verbatim) repeated ↔
      patternVariable literals (.symbol name verbatim) = some name ∧ v = (name, repeated) := by
  rw [patternVars, patternVariable]
  by_cases h : (isUnderscore name || isLiteral name literals) = true
  · simp only [if_pos h, List.not_mem_nil, reduceCtorEq, false_and]
  · simp only [if_neg h, List.mem_singleton, true_and]

theorem isLiteral_of_mem_patternVars (hp : repeated = true → isEllipsis p = false)
    (hsimple : simplePattern p = true) (h : v ∈ patternVars literals p repeated) :
    isLiteral v.1 literals = false ∧ (v.2 = true → v.1 ≠ ascii "...") := by
  induction p using Node.induct generalizing repeated with
  | number | string | bool => exact absurd h (by simp [patternVars])
  | symbol name verbatim =>
    obtain ⟨hvar, rfl⟩ := mem_patternVars_symbol.mp h
    rw [patternVariable_symbol hsimple] at hvar
    constructor
    · by_contra hlit
      rw [if_pos (by simpa using hlit)] at hvar
      exact absurd hvar nofun
    · intro hrep hname
      refine absurd (hp hrep) ?_
      simp only [isEllipsis, isSym, Node.symbolName]
      simp_all
  | list vector ps ih =>
    obtain ⟨⟨q, r⟩, hq, h⟩ := mem_patternVars_list.mp h
    obtain ⟨hcount, hps⟩ := simplePattern_list hsimple
    have hmem := mem_of_mem_elements hq
    refine ih q hmem ?_ (hps q hmem) h
    rintro rfl
    exact (repeated_unique hcount hq hq).2

theorem name_of_mem_patternVars (hsimple : simplePattern p = true)
    (h : v ∈ patternVars literals p false) :
    isLiteral v.1 literals = false ∧ (v.2 = true → v.1 ≠ ascii "...") :=
  isLiteral_of_mem_patternVars (fun h => absurd h Bool.false_ne_true) hsimple h

theorem DistinctVars.flag_unique {p : Node} (h : DistinctVars literals p) {name : Name}
    {f g : Bool} (hf : (name, f) ∈ patternVars literals p false)
    (hg : (name, g) ∈ patternVars literals p false) : f = g :=
  congrArg Prod.snd (List.inj_on_of_nodup_map h hf hg rfl)

theorem DistinctVars.element_unique (h : DistinctVars literals (.list vector ps))
    {q q' : Node × Bool} (hq : q ∈ elements ps) (hq' : q' ∈ elements ps) {f g : Bool}
    (hf : (name, f) ∈ patternVars literals q.1 q.2)
    (hg : (name, g) ∈ patternVars literals q'.1 q'.2) : q = q' := by
  rw [DistinctVars, patternVars, patternVarsList_eq, List.map_flatMap, List.nodup_flatMap] at h
  have hsymm : Std.Symm (Function.onFun List.Disjoint fun (a : Node × Bool) =>
      (patternVars literals a.1 a.2).map Prod.fst) := ⟨fun _ _ hd _ hb ha => hd ha hb⟩
  by_contra hne
  have hdisjoint := h.2.forall hq hq' hne
  exact hdisjoint (List.mem_map.mpr ⟨_, hf, rfl⟩) (List.mem_map.mpr ⟨_, hg, rfl⟩)

theorem DistinctVars.element (h : DistinctVars literals (.list vector ps)) {vector' : Bool}
    {ts : List Node} (hq : (.list vector' ts, repeated) ∈ elements ps) :
    DistinctVars literals (.list vector' ts) := by
  rw [DistinctVars, patternVars, patternVarsList_eq, List.map_flatMap, List.nodup_flatMap] at h
  have := h.1 _ hq
  rwa [patternVars] at this

theorem mem_placesList (h : a ∈ placesList literals ps xs) :
    ∃ q ∈ elements ps, (∃ x, a ∈ places literals q.1 x) ∧ q.2 = false ∨
      (∃ items, a ∈ placesItems literals q.1 items) ∧ q.2 = true := by
  induction ps using elements_induct generalizing xs with
  | nil => exact absurd h (by simp [placesList])
  | single p =>
    refine ⟨(p, false), List.mem_singleton_self _, .inl ⟨?_, rfl⟩⟩
    cases xs with
    | nil => exact absurd h (by simp [placesList])
    | cons x xs => exact ⟨x, by simpa [placesList] using h⟩
  | ellipsis p e ps he ih =>
    rw [placesList_cons_ellipsis he] at h
    rw [elements_cons_ellipsis he]
    rcases List.mem_append.mp h with h | h
    · obtain ⟨q, hq, ha⟩ := ih h
      exact ⟨q, List.mem_cons_of_mem _ hq, ha⟩
    · exact ⟨(p, true), List.mem_cons_self, .inr ⟨⟨_, h⟩, rfl⟩⟩
  | cons p e ps he ih =>
    rw [elements_cons he]
    cases xs with
    | nil => exact absurd h (by simp [placesList, he])
    | cons x xs =>
      simp only [placesList, he, Bool.false_eq_true, if_false] at h
      rcases List.mem_append.mp h with h | h
      · exact ⟨(p, false), List.mem_cons_self, .inl ⟨⟨x, h⟩, rfl⟩⟩
      · obtain ⟨q, hq, ha⟩ := ih h
        exact ⟨q, List.mem_cons_of_mem _ hq, ha⟩

/-- A place with the items of an ellipsis is that of a variable. -/
def ManyVars (literals : List Name) (p : Node) : Prop :=
  ∀ ⦃x : Node⦄ ⦃a : Place⦄ ⦃items : List Node⦄, a ∈ places literals p x → a.bound = .many items →
    ∀ repeated, (a.name, true) ∈ patternVars literals p repeated

theorem ManyVars.items (h : ManyVars literals q) (ha : a ∈ placesItems literals q xs)
    {items : List Node} (hitems : a.bound = .many items) :
    (a.name, true) ∈ patternVars literals q true := by
  cases q with
  | number | string | bool => exact absurd ha (by simp [placesItems])
  | symbol name verbatim =>
    obtain ⟨hvar, rfl⟩ := eq_of_mem_placesItems_symbol ha
    exact mem_patternVars_symbol.mpr ⟨hvar, rfl⟩
  | list vector ts =>
    rw [placesItems] at ha
    obtain ⟨x, -, ha⟩ := List.mem_flatMap.mp ha
    cases x with
    | list vector' xs => exact h (x := .list vector' xs) (by rwa [places]) hitems true
    | number | symbol | string | bool => exact absurd ha List.not_mem_nil

theorem manyVars (p : Node) : ManyVars literals p := by
  induction p using Node.induct with
  | number | string | bool => exact fun _ _ _ ha => absurd ha (by simp [places])
  | symbol name verbatim =>
    intro x a items ha hitems
    rw [places, List.mem_singleton] at ha
    subst ha
    exact absurd hitems nofun
  | list vector ps ih =>
    intro x a items ha hitems repeated
    cases x with
    | number | symbol | string | bool => exact absurd ha (by simp [places])
    | list vector' xs =>
      rw [places] at ha
      obtain ⟨⟨q, r⟩, hq, hcase⟩ := mem_placesList ha
      refine mem_patternVars_list.mpr ⟨_, hq, ?_⟩
      rcases hcase with ⟨⟨y, ha⟩, rfl⟩ | ⟨⟨ys, ha⟩, rfl⟩
      · exact ih q (mem_of_mem_elements hq) ha hitems false
      · exact (ih q (mem_of_mem_elements hq)).items ha hitems

theorem mem_patternVars_of_placesElement {q : Node × Bool}
    (ha : a ∈ placesElement literals q bindings) {items : List Node}
    (hitems : a.bound = .many items) : (a.name, true) ∈ patternVars literals q.1 q.2 := by
  obtain ⟨q, repeated⟩ := q
  cases repeated with
  | false => exact manyVars q ha hitems false
  | true => exact (manyVars q).items ha hitems

/-- A name is that of a symbol right inside a list that an ellipsis repeats. -/
inductive RepeatedChild : Node → Name → Prop
  | here {vector vector' verbatim : Bool} {ps cs : List Node} {name : Name} :
      (.list vector' cs, true) ∈ elements ps → .symbol name verbatim ∈ cs →
      RepeatedChild (.list vector ps) name
  | inside {vector repeated : Bool} {ps : List Node} {q : Node} {name : Name} :
      (q, repeated) ∈ elements ps → RepeatedChild q name → RepeatedChild (.list vector ps) name

theorem exists_element_of_symbol (hsimple : ∀ p ∈ ps, simplePattern p = true)
    (hmem : .symbol name verbatim ∈ ps) (hlit : isLiteral name literals = false)
    (hname : name ≠ ascii "...") :
    ∃ repeated, (.symbol name verbatim, repeated) ∈ elements ps ∧
      (name, repeated) ∈ patternVars literals (.symbol name verbatim) repeated := by
  have hno : isEllipsis (.symbol name verbatim) = false := by
    simp [isEllipsis, isSym, Node.symbolName, hname]
  obtain ⟨repeated, helem⟩ := exists_mem_elements hmem hno
  refine ⟨repeated, helem, mem_patternVars_symbol.mpr ⟨?_, rfl⟩⟩
  rw [patternVariable_symbol (hsimple _ hmem), hlit]
  rfl

theorem RepeatedChild.exists_var (h : RepeatedChild p name) (hsimple : simplePattern p = true)
    (hlit : isLiteral name literals = false) (hname : name ≠ ascii "...") (repeated : Bool) :
    ∃ f, (name, f) ∈ patternVars literals p repeated := by
  induction h generalizing repeated with
  | here hq hmem =>
    have hsub := (simplePattern_list hsimple).2 _ (mem_of_mem_elements hq)
    obtain ⟨f, helem, hvar⟩ := exists_element_of_symbol (simplePattern_list hsub).2 hmem hlit hname
    refine ⟨f, mem_patternVars_list.mpr ⟨_, hq, ?_⟩⟩
    exact mem_patternVars_list.mpr ⟨_, helem, hvar⟩
  | inside hq _ ih =>
    have hsub := (simplePattern_list hsimple).2 _ (mem_of_mem_elements hq)
    obtain ⟨f, hf⟩ := ih hsub hlit hname _
    exact ⟨f, mem_patternVars_list.mpr ⟨_, hq, hf⟩⟩

/-- The nonempty items in a table are those of variables that an ellipsis repeats. -/
def OwnItems (literals : List Name) (p : Node) (bindings : MacroBindings) : Prop :=
  ∀ name items, ⟨name, .many items⟩ ∈ bindings → items ≠ [] →
    (name, true) ∈ patternVars literals p false

theorem OwnItems.bindItem (h : OwnItems literals p bindings) (name : Name) (item : Node) :
    OwnItems literals p (bindItem name item bindings) := by
  intro name' items hmem
  exact h name' items ((mem_bindItem hmem).2 items rfl)

theorem subset_of_mem_elements {vector' : Bool} {ts : List Node}
    (hq : (.list vector' ts, repeated) ∈ elements ps)
    (hv : v ∈ patternVars literals (.list vector' ts) false) :
    v ∈ patternVars literals (.list vector ps) false := by
  refine mem_patternVars_list.mpr ⟨_, hq, ?_⟩
  rw [patternVars] at hv ⊢
  exact hv

theorem RepeatedChild.exists_list (h : RepeatedChild p name) :
    ∃ vector ps, p = .list vector ps := by
  cases h with
  | here => exact ⟨_, _, rfl⟩
  | inside => exact ⟨_, _, rfl⟩

/-- Within the items of a repeated list, a variable right inside it has no items: to instantiate
the list, it was bound to one item. -/
theorem child_items_eq_nil {P : Node} (hP : DistinctVars literals P)
    (hPsimple : simplePattern P = true) {cs : List Node}
    (hsimple : simplePattern (.list vector cs) = true)
    (hdistinct : DistinctVars literals (.list vector cs))
    (hsub : ∀ v ∈ patternVars literals (.list vector cs) false, v ∈ patternVars literals P false)
    (hown : OwnItems literals P bindings) {items : List Node} {item : Node}
    (hchild : ellipsisChild cs bindings = some (name, items)) (hitem : item ∈ items)
    (ha : a ∈ places literals (.list vector cs)
      (vmMacroInstantiate (.list vector cs) (bindItem name item bindings)))
    (hmem : .symbol a.name verbatim ∈ cs) {values : List Node} (hvalues : a.bound = .many values) :
    values = [] := by
  obtain ⟨hcount, hcs⟩ := simplePattern_list hsimple
  have hnotEllipsis {p : Node} (hp : simplePattern p = true) {n : Name}
      (hn : (n, true) ∈ patternVars literals p false) :
      isLiteral n literals = false ∧ n ≠ ascii "..." := by
    obtain ⟨hlit, hdots⟩ := name_of_mem_patternVars hp hn
    exact ⟨hlit, hdots rfl⟩
  -- the child that the items are taken from has an ellipsis after it
  obtain ⟨⟨verbatim', hname⟩, hlookup⟩ := ellipsisChild_eq_some hchild
  have hnameVar := hown name items (mem_of_macroBindingsLookup hlookup) (List.ne_nil_of_mem hitem)
  obtain ⟨hlit, hdots⟩ := hnotEllipsis hPsimple hnameVar
  obtain ⟨f, hf, hfvar⟩ := exists_element_of_symbol hcs hname hlit hdots
  obtain rfl : f = true := hP.flag_unique
    (hsub _ (mem_patternVars_list.mpr ⟨_, hf, hfvar⟩)) hnameVar
  -- so has the symbol of the place
  have haVar := manyVars _ ha hvalues false
  obtain ⟨halit, hadots⟩ := hnotEllipsis hsimple haVar
  obtain ⟨g, hg, hgvar⟩ := exists_element_of_symbol hcs hmem halit hadots
  obtain rfl : g = true := hdistinct.flag_unique
    (mem_patternVars_list.mpr ⟨_, hg, hgvar⟩) haVar
  obtain ⟨hsame, -⟩ := Node.symbol.inj (repeated_unique hcount hf hg).1
  -- the place is that symbol's, and the symbol is bound to one item
  obtain ⟨q, hq, haq⟩ := exists_element_of_mem_places hsimple ha
  have hqVar := mem_patternVars_of_placesElement haq hvalues
  obtain rfl := hdistinct.element_unique hq hg hqVar hgvar
  obtain ⟨-, hplace⟩ := eq_of_mem_placesItems_symbol haq
  have hbound := (congrArg Place.bound hplace).symm.trans hvalues
  rw [instantiateEllipsis, ← hsame, macroBindingsLookup_bindItem hlookup] at hbound
  exact (Bound.many.inj hbound).symm

/-- What stands below a second ellipsis has no items in an instance. -/
theorem repeatedChild_items_eq_nil {P : Node} (hP : DistinctVars literals P)
    (hPsimple : simplePattern P = true) (hsimple : simplePattern p = true)
    (hdistinct : DistinctVars literals p)
    (hsub : ∀ v ∈ patternVars literals p false, v ∈ patternVars literals P false)
    (hown : OwnItems literals P bindings)
    (ha : a ∈ places literals p (vmMacroInstantiate p bindings)) {items : List Node}
    (hitems : a.bound = .many items) (hrep : RepeatedChild p a.name) : items = [] := by
  induction p using Node.induct generalizing bindings with
  | number | string | bool | symbol =>
    obtain ⟨_, _, heq⟩ := hrep.exists_list
    exact absurd heq nofun
  | list vector ps ih =>
    obtain ⟨hcount, hps⟩ := simplePattern_list hsimple
    obtain ⟨hlit, hdots⟩ := name_of_mem_patternVars hsimple (manyVars _ ha hitems false)
    obtain ⟨q, hq, ha⟩ := exists_element_of_mem_places hsimple ha
    have hqVar := mem_patternVars_of_placesElement ha hitems
    cases hrep with
    | here hq' hmem =>
      have hcs := hps _ (mem_of_mem_elements hq')
      obtain ⟨f, hf, hfvar⟩ :=
        exists_element_of_symbol (simplePattern_list hcs).2 hmem hlit (hdots rfl)
      obtain rfl := hdistinct.element_unique hq hq' hqVar
        (mem_patternVars_list.mpr ⟨_, hf, hfvar⟩)
      obtain ⟨name, values, item, hchild, hitem, ha⟩ := exists_item_of_mem_placesItems ha
      exact child_items_eq_nil hP hPsimple hcs (hdistinct.element hq')
        (fun v hv => hsub v (subset_of_mem_elements hq' hv)) hown hchild hitem ha hmem hitems
    | @inside _ repeated _ _ _ hq' hrep' =>
      obtain ⟨vector', ts, rfl⟩ := hrep'.exists_list
      have hmem := mem_of_mem_elements hq'
      have hts := hps _ hmem
      obtain ⟨f, hf⟩ := hrep'.exists_var hts hlit (hdots rfl) _
      obtain rfl := hdistinct.element_unique hq hq' hqVar hf
      have hsub' v (hv : v ∈ patternVars literals (.list vector' ts) false) :=
        hsub v (subset_of_mem_elements hq' hv)
      cases repeated with
      | false => exact ih _ hmem hts (hdistinct.element hq') hsub' hown ha hrep'
      | true =>
        obtain ⟨name, values, item, -, -, ha⟩ := exists_item_of_mem_placesItems ha
        exact ih _ hmem hts (hdistinct.element hq') hsub' (hown.bindItem name item) ha hrep'

/-! ### When the form is rebuilt -/

/-- The table of a pattern over its own instance has nonempty items only for variables that are
not right inside a repeated list. -/
theorem items_of_table (hsimple : simplePattern p = true) (hdistinct : DistinctVars literals p)
    (htable : bindings = table (places literals p (vmMacroInstantiate p bindings)))
    {items : List Node} (hmem : ⟨name, .many items⟩ ∈ bindings) (hne : items ≠ []) :
    (name, true) ∈ patternVars literals p false ∧ ¬ RepeatedChild p name := by
  have hshort : ShortNames bindings := htable ▸ shortNames_table _
  have hplace {n : Name} {l : List Node} (hn : ⟨n, .many l⟩ ∈ bindings) (hl : l ≠ []) :
      ∃ a ∈ places literals p (vmMacroInstantiate p bindings), a.name = n ∧ a.bound = .many l := by
    rw [htable] at hn
    obtain ⟨a, ha, heq⟩ := List.mem_map.mp hn
    obtain ⟨hcut, hbound⟩ := MacroBinding.mk.inj heq
    have ha' := List.mem_of_mem_filter ha
    refine ⟨a, ha', ?_, hbound⟩
    rw [← hcut, cutName, List.take_of_length_le]
    by_contra hlong
    exact hl (long_items_eq_nil hsimple hshort ha' hbound (Nat.not_le.mp hlong))
  have hown : OwnItems literals p bindings := by
    intro n l hn hl
    obtain ⟨a, ha, rfl, hbound⟩ := hplace hn hl
    exact manyVars _ ha hbound false
  refine ⟨hown name items hmem hne, fun hrep => hne ?_⟩
  obtain ⟨a, ha, rfl, hbound⟩ := hplace hmem hne
  exact repeatedChild_items_eq_nil hdistinct hsimple hsimple hdistinct (fun _ hv => hv) hown ha
    hbound hrep

theorem shown_one_iff {isVariable : Bool} :
    (⟨name, verbatim, isVariable, .one x⟩ : Place).Shown bindings ↔
      vmMacroInstantiate (.symbol name verbatim) bindings = x := by
  rw [Place.Shown, vmMacroInstantiate]
  rcases macroBindingsLookup bindings name with _ | ⟨value⟩ | ⟨items⟩
  · exact eq_comm
  · exact eq_comm
  · exact eq_comm

theorem shown_many_iff {isVariable : Bool} {items : List Node} :
    (⟨name, verbatim, isVariable, .many items⟩ : Place).Shown bindings ↔
      instantiateEllipsis (.symbol name verbatim) bindings = items := by
  rw [Place.Shown, instantiateEllipsis]
  rcases macroBindingsLookup bindings name with _ | ⟨value⟩ | ⟨values⟩
  · exact eq_comm
  · exact eq_comm
  · exact eq_comm

/-- No items are found for literals and for symbols right inside repeated lists. -/
def NoItems (literals : List Name) (p : Node) (bindings : MacroBindings) : Prop :=
  ∀ name items, macroBindingsLookup bindings name = some (.many items) → items ≠ [] →
    isLiteral name literals = false ∧ ¬ RepeatedChild p name

theorem NoItems.element (h : NoItems literals (.list vector ps) bindings)
    (hq : (q, repeated) ∈ elements ps) : NoItems literals q bindings := by
  intro name items hlookup hne
  obtain ⟨hlit, hrep⟩ := h name items hlookup hne
  exact ⟨hlit, fun hrep' => hrep (.inside hq hrep')⟩

theorem NoItems.instantiateEllipsis (h : NoItems literals (.list vector ps) bindings)
    (hsimple : simplePattern q = true) (hq : (q, true) ∈ elements ps) :
    (patternVariable literals q).isSome ∨ instantiateEllipsis q bindings = [] := by
  cases q with
  | number | string | bool => exact .inr (by rw [Vm.instantiateEllipsis])
  | symbol name verbatim =>
    rw [patternVariable_symbol hsimple, Vm.instantiateEllipsis]
    cases hlit : isLiteral name literals with
    | false => exact .inl rfl
    | true =>
      right
      split
      next items hlookup =>
        by_contra hne
        exact absurd (hlit.symm.trans (h name items hlookup hne).1) nofun
      next => rfl
  | list vector' cs =>
    right
    rw [Vm.instantiateEllipsis]
    split
    next name items hchild =>
      obtain ⟨⟨verbatim, hmem⟩, hlookup⟩ := ellipsisChild_eq_some hchild
      have hnil : items = [] := by
        by_contra hne
        exact (h name items hlookup hne).2 (.here hq hmem)
      rw [hnil, List.map_nil]
    next => rfl

theorem NoItems.covers (hsimple : simplePattern p = true) (h : NoItems literals p bindings) :
    Covers literals p (vmMacroInstantiate p bindings) ∧
      ∀ a ∈ places literals p (vmMacroInstantiate p bindings), a.Shown bindings := by
  induction p using Node.induct with
  | number n => simp [Covers, vmMacroInstantiate, places]
  | string s => simp [Covers, vmMacroInstantiate, places]
  | bool b => simp [Covers, vmMacroInstantiate, places]
  | symbol name verbatim =>
    rw [Covers, places, List.forall_mem_singleton, shown_one_iff]
    exact ⟨trivial, rfl⟩
  | list vector ps ih =>
    obtain ⟨hcount, hps⟩ := simplePattern_list hsimple
    constructor
    · rw [vmMacroInstantiate, Covers]
      refine ⟨_, rfl, coversList_instantiateList ?_⟩
      rintro ⟨q, repeated⟩ hq
      have hmem := mem_of_mem_elements hq
      cases repeated with
      | false => exact (ih q hmem (hps q hmem) (h.element hq)).1
      | true => exact h.instantiateEllipsis (hps q hmem) hq
    · intro a ha
      obtain ⟨⟨q, repeated⟩, hq, ha⟩ := exists_element_of_mem_places hsimple ha
      have hmem := mem_of_mem_elements hq
      cases repeated with
      | false => exact (ih q hmem (hps q hmem) (h.element hq)).2 a ha
      | true =>
        replace ha : a ∈ placesItems literals q (Vm.instantiateEllipsis q bindings) := ha
        cases q with
        | number | string | bool => exact absurd ha (by simp [placesItems])
        | symbol name verbatim =>
          obtain ⟨-, rfl⟩ := eq_of_mem_placesItems_symbol ha
          exact shown_many_iff.mpr rfl
        | list vector' cs =>
          rcases h.instantiateEllipsis (hps _ hmem) hq with hvar | hnil
          · exact absurd hvar (by simp [patternVariable])
          · rw [hnil, placesItems] at ha
            exact absurd ha List.not_mem_nil

theorem CoversList.length_eq (h : CoversList literals ps xs) (hcount : ps.countP isEllipsis = 0) :
    xs.length = ps.length := by
  induction ps using elements_induct generalizing xs with
  | nil =>
    rw [CoversList] at h
    rw [h]
  | single p =>
    rw [CoversList] at h
    obtain ⟨x, rfl, -⟩ := h
    rfl
  | ellipsis p e ps he ih =>
    rw [List.countP_eq_zero] at hcount
    exact absurd he (hcount e (by simp))
  | cons p e ps he ih =>
    rw [CoversList, if_neg (by simp [he])] at h
    obtain ⟨x, rest, rfl, -, hrest⟩ := h
    have hzero : (e :: ps).countP isEllipsis = 0 := by simp_all [List.countP_eq_zero]
    rw [List.length_cons, ih hrest hzero]
    rfl

theorem eq_symbol_of_patternVariable (h : (patternVariable literals p).isSome) :
    ∃ name verbatim, p = .symbol name verbatim := by
  cases p with
  | symbol name verbatim => exact ⟨name, verbatim, rfl⟩
  | number | list | string | bool => exact absurd h (by simp [patternVariable])

/-- A list that shows its places is rebuilt. -/
theorem instantiateList_of_covers (hcount : ps.countP isEllipsis ≤ 1)
    (hnormal : ∀ p, (p, false) ∈ elements ps → ∀ x, Covers literals p x →
      (∀ a ∈ places literals p x, a.Shown bindings) → vmMacroInstantiate p bindings = x)
    (hellipsis : ∀ p, (p, true) ∈ elements ps →
      (patternVariable literals p).isSome ∨ instantiateEllipsis p bindings = [])
    (hcovers : CoversList literals ps xs)
    (hshown : ∀ a ∈ placesList literals ps xs, a.Shown bindings) :
    instantiateList ps bindings = xs := by
  induction ps using elements_induct generalizing xs with
  | nil =>
    rw [CoversList] at hcovers
    rw [hcovers, instantiateList]
  | single p =>
    rw [CoversList] at hcovers
    obtain ⟨x, rfl, hx⟩ := hcovers
    rw [instantiateList, hnormal p (List.mem_singleton_self _) x hx]
    simpa [placesList] using hshown
  | ellipsis p e ps he ihps =>
    rw [CoversList, if_pos he] at hcovers
    obtain ⟨items, rest, rfl, hrest, hitems⟩ := hcovers
    obtain ⟨-, hzero⟩ := countP_after_ellipsis he hcount
    have hlen := hrest.length_eq hzero
    rw [placesList_cons_ellipsis he, List.length_append, ← hlen, Nat.add_sub_cancel,
      List.drop_left, List.take_left, List.forall_mem_append] at hshown
    rw [elements_cons_ellipsis he] at hnormal hellipsis
    have htail : instantiateList ps bindings = rest :=
      ihps (hzero ▸ Nat.zero_le 1) (fun q hq => hnormal q (List.mem_cons_of_mem _ hq))
        (fun q hq => hellipsis q (List.mem_cons_of_mem _ hq)) hrest hshown.1
    have hhead : instantiateEllipsis p bindings = items := by
      by_cases hvar : (patternVariable literals p).isSome
      · obtain ⟨name, verbatim, rfl⟩ := eq_symbol_of_patternVariable hvar
        rw [placesItems, if_pos hvar, List.forall_mem_singleton, shown_many_iff] at hshown
        exact hshown.2
      · have hnone := hellipsis p List.mem_cons_self
        rw [hnone.resolve_left hvar, hitems.resolve_left hvar]
    rw [instantiateList, if_pos he, hhead, htail]
  | cons p e ps he ihps =>
    rw [CoversList, if_neg (by simp [he])] at hcovers
    obtain ⟨x, rest, rfl, hx, hrest⟩ := hcovers
    simp only [placesList, he, Bool.false_eq_true, if_false, List.forall_mem_append] at hshown
    rw [elements_cons he] at hnormal hellipsis
    have htail : instantiateList (e :: ps) bindings = rest :=
      ihps (countP_tail_le hcount) (fun q hq => hnormal q (List.mem_cons_of_mem _ hq))
        (fun q hq => hellipsis q (List.mem_cons_of_mem _ hq)) hrest hshown.2
    rw [instantiateList, if_neg (by simp [he]), hnormal p List.mem_cons_self x hx hshown.1,
      htail]

theorem instantiate_of_covers (hsimple : simplePattern p = true) (hno : NoItems literals p bindings)
    (hcovers : Covers literals p x) (hshown : ∀ a ∈ places literals p x, a.Shown bindings) :
    vmMacroInstantiate p bindings = x := by
  induction p using Node.induct generalizing x with
  | number n => rw [vmMacroInstantiate, hcovers]
  | string s => rw [vmMacroInstantiate, hcovers]
  | bool b => rw [vmMacroInstantiate, hcovers]
  | symbol name verbatim =>
    rw [places, List.forall_mem_singleton, shown_one_iff] at hshown
    exact hshown
  | list vector ps ih =>
    obtain ⟨hcount, hps⟩ := simplePattern_list hsimple
    rw [Covers] at hcovers
    obtain ⟨xs, rfl, hcovers⟩ := hcovers
    rw [vmMacroInstantiate]
    refine congrArg _ (instantiateList_of_covers hcount ?_ ?_ hcovers hshown)
    · intro q hq y
      have hmem := mem_of_mem_elements hq
      exact ih q hmem (hps q hmem) (hno.element hq)
    · intro q hq
      exact hno.instantiateEllipsis (hps q (mem_of_mem_elements hq)) hq

/-- Each place of a list is a place of one of its elements. -/
theorem CoversList.exists_element (h : CoversList literals ps xs)
    (hcount : ps.countP isEllipsis ≤ 1) (ha : a ∈ placesList literals ps xs) :
    ∃ q ∈ elements ps, (∃ x, Covers literals q.1 x ∧ a ∈ places literals q.1 x) ∧ q.2 = false ∨
      (patternVariable literals q.1).isSome ∧ (∃ items, a ∈ placesItems literals q.1 items) ∧
        q.2 = true := by
  induction ps using elements_induct generalizing xs with
  | nil => exact absurd ha (by simp [placesList])
  | single p =>
    rw [CoversList] at h
    obtain ⟨x, rfl, hx⟩ := h
    refine ⟨(p, false), List.mem_singleton_self _, .inl ⟨⟨x, hx, ?_⟩, rfl⟩⟩
    simpa [placesList] using ha
  | ellipsis p e ps he ih =>
    rw [CoversList, if_pos he] at h
    obtain ⟨items, rest, rfl, hrest, hitems⟩ := h
    obtain ⟨-, hzero⟩ := countP_after_ellipsis he hcount
    rw [placesList_cons_ellipsis he, List.length_append, ← hrest.length_eq hzero,
      Nat.add_sub_cancel, List.drop_left, List.take_left] at ha
    rw [elements_cons_ellipsis he]
    rcases List.mem_append.mp ha with ha | ha
    · obtain ⟨q, hq, hcase⟩ := ih hrest (hzero ▸ Nat.zero_le 1) ha
      exact ⟨q, List.mem_cons_of_mem _ hq, hcase⟩
    · refine ⟨(p, true), List.mem_cons_self, .inr ⟨?_, ⟨items, ha⟩, rfl⟩⟩
      rcases hitems with hvar | rfl
      · exact hvar
      · cases p with
        | number | string | bool => exact absurd ha (by simp [placesItems])
        | list => exact absurd ha (by simp [placesItems])
        | symbol name verbatim =>
          rw [(eq_of_mem_placesItems_symbol ha).1]
          rfl
  | cons p e ps he ih =>
    rw [CoversList, if_neg (by simp [he])] at h
    obtain ⟨x, rest, rfl, hx, hrest⟩ := h
    simp only [placesList, he, Bool.false_eq_true, if_false] at ha
    rw [elements_cons he]
    rcases List.mem_append.mp ha with ha | ha
    · exact ⟨(p, false), List.mem_cons_self, .inl ⟨⟨x, hx, ha⟩, rfl⟩⟩
    · obtain ⟨q, hq, hcase⟩ := ih hrest (countP_tail_le hcount) ha
      exact ⟨q, List.mem_cons_of_mem _ hq, hcase⟩

theorem not_repeatedChild_of_covers (hsimple : simplePattern p = true)
    (hdistinct : DistinctVars literals p) (hcovers : Covers literals p x)
    (ha : a ∈ places literals p x) {items : List Node} (hitems : a.bound = .many items) :
    ¬ RepeatedChild p a.name := by
  induction p using Node.induct generalizing x with
  | number | string | bool | symbol =>
    intro hrep
    obtain ⟨_, _, heq⟩ := hrep.exists_list
    exact absurd heq nofun
  | list vector ps ih =>
    intro hrep
    obtain ⟨hcount, hps⟩ := simplePattern_list hsimple
    obtain ⟨hlit, hdots⟩ := name_of_mem_patternVars hsimple (manyVars _ ha hitems false)
    rw [Covers] at hcovers
    obtain ⟨xs, rfl, hcovers⟩ := hcovers
    obtain ⟨⟨q, r⟩, hq, hcase⟩ := hcovers.exists_element hcount ha
    have hqVar : (a.name, true) ∈ patternVars literals q r := by
      rcases hcase with ⟨⟨y, -, ha⟩, rfl⟩ | ⟨-, ⟨ys, ha⟩, rfl⟩
      · exact manyVars q ha hitems false
      · exact (manyVars q).items ha hitems
    -- the element of the place is that of the repeated list
    cases hrep with
    | here hq' hmem =>
      obtain ⟨f, hf, hfvar⟩ := exists_element_of_symbol
        (simplePattern_list (hps _ (mem_of_mem_elements hq'))).2 hmem hlit (hdots rfl)
      obtain ⟨rfl, rfl⟩ := Prod.mk.inj (hdistinct.element_unique hq hq' hqVar
        (mem_patternVars_list.mpr ⟨_, hf, hfvar⟩))
      rcases hcase with ⟨-, hr⟩ | ⟨hvar, -, -⟩
      · exact absurd hr nofun
      · exact absurd hvar (by simp [patternVariable])
    | inside hq' hrep' =>
      obtain ⟨vector', ts, rfl⟩ := hrep'.exists_list
      obtain ⟨f, hf⟩ := hrep'.exists_var (hps _ (mem_of_mem_elements hq')) hlit (hdots rfl) _
      obtain ⟨rfl, rfl⟩ := Prod.mk.inj (hdistinct.element_unique hq hq' hqVar hf)
      rcases hcase with ⟨⟨y, hy, ha⟩, -⟩ | ⟨hvar, -, -⟩
      · exact ih _ (mem_of_mem_elements hq) (hps _ (mem_of_mem_elements hq))
          (hdistinct.element hq) hy ha hrep'
      · exact absurd hvar (by simp [patternVariable])

theorem noItems_of_shown (hsimple : simplePattern p = true) (hdistinct : DistinctVars literals p)
    (hcovers : Covers literals p x)
    (hshown : ∀ a ∈ places literals p x, a.Shown (table (places literals p x))) :
    NoItems literals p (table (places literals p x)) := by
  intro name items hlookup hne
  obtain ⟨a, ha, heq⟩ := List.mem_map.mp (mem_of_macroBindingsLookup hlookup)
  obtain ⟨hcut, hbound⟩ := MacroBinding.mk.inj heq
  have ha := List.mem_of_mem_filter ha
  have hname : a.name = name := by
    rw [← hcut, cutName, List.take_of_length_le]
    by_contra hlong
    have hself := hshown a ha
    rw [Place.Shown, hbound,
      macroBindingsLookup_long (shortNames_table _) (Nat.not_le.mp hlong)] at hself
    exact hne hself
  subst hname
  refine ⟨?_, not_repeatedChild_of_covers hsimple hdistinct hcovers ha hbound⟩
  exact (name_of_mem_patternVars hsimple (manyVars p ha hbound false)).1

/-- **Rebuilding a matched form.** After a match, the pattern instantiated with the table is the
matched form exactly if the form has the shape of the pattern, with the same atoms, no vectors and
nothing where an ellipsis repeats anything but a variable, and the table, with its cut names,
shows what stands at the place of each symbol. -/
theorem vmMacroInstantiate_match_iff {p x : Node} {bindings : MacroBindings}
    (hsimple : simplePattern p = true) (hdistinct : DistinctVars literals p)
    (hmatch : vmMacroMatch literals p x [] = some bindings) :
    vmMacroInstantiate p bindings = x ↔
      Covers literals p x ∧ ∀ a ∈ places literals p x, a.Shown (table (places literals p x)) := by
  have htable : bindings = table (places literals p x) := vmMacroMatch_table hsimple hmatch
  constructor
  · intro hinst
    have hself : bindings = table (places literals p (vmMacroInstantiate p bindings)) :=
      hinst ▸ htable
    have hno : NoItems literals p bindings := by
      intro name items hlookup hne
      obtain ⟨hvar, hrep⟩ :=
        items_of_table hsimple hdistinct hself (mem_of_macroBindingsLookup hlookup) hne
      exact ⟨(name_of_mem_patternVars hsimple hvar).1, hrep⟩
    have hcovers := hno.covers hsimple
    rw [hinst] at hcovers
    rwa [htable] at hcovers
  · rintro ⟨hcovers, hshown⟩
    rw [htable]
    exact instantiate_of_covers hsimple (noItems_of_shown hsimple hdistinct hcovers hshown)
      hcovers hshown

end Instance

/-- The pattern `(a ...)` and the form `(#t #f)`. -/
theorem vmMacroInstantiate_match_iff_variable :
    ∃ bindings, vmMacroMatch [] (.list false [.symbol (ascii "a") false,
        .symbol (ascii "...") false]) (.list false [.bool true, .bool false]) [] = some bindings ∧
      vmMacroInstantiate (.list false [.symbol (ascii "a") false, .symbol (ascii "...") false])
        bindings = .list false [.bool true, .bool false] := by
  have hdistinct : DistinctVars [] (.list false [.symbol (ascii "a") false,
      .symbol (ascii "...") false]) := List.nodup_singleton _
  refine ⟨_, rfl, (vmMacroInstantiate_match_iff rfl hdistinct rfl).mpr ⟨⟨_, rfl, ?_⟩, ?_⟩⟩
  · have hdots : isEllipsis (.symbol (ascii "...") false) = true := rfl
    rw [CoversList, if_pos hdots]
    exact ⟨[.bool true, .bool false], [], rfl, rfl, .inl rfl⟩
  · exact List.forall_mem_singleton.mpr rfl

/-- The pattern `((n v) ...)` matches `((a #t))` and is instantiated to the empty list. -/
theorem vmMacroInstantiate_drops_items :
    ∃ (p x : Node) (bindings : MacroBindings), simplePattern p = true ∧ DistinctVars [] p ∧
      vmMacroMatch [] p x [] = some bindings ∧ vmMacroInstantiate p bindings ≠ x := by
  refine ⟨.list false [.list false [.symbol (ascii "n") false, .symbol (ascii "v") false],
      .symbol (ascii "...") false],
    .list false [.list false [.symbol (ascii "a") false, .bool true]], _, rfl, ?_, rfl, ?_⟩
  · exact List.nodup_cons.mpr ⟨by decide, List.nodup_singleton _⟩
  · exact nofun

end Eshkol.Vm
