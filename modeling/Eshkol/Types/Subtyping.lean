import Mathlib.Order.Filter.AtTopBot.Basic
import Mathlib.Order.Filter.Finite
import Eshkol.Hierarchy.Chain
import Eshkol.Machine.Exec

/-!
# Subtyping

The type environment of the checker (`lib/types/hott_types.cpp`). A registered type has at most one
supertype; a tracked pair type is below `Pair`; a sum type is a list of arms, which are no sums.
Types are compared by their ids alone, and the ids of the four kinds come from ranges that do not
meet. The answers of `isSubtype` are cached and never dropped.

`isSubtype` is the preorder in which a type is below another if each of its arms is below an arm of
the other, as long as the cache holds right answers.
-/

open Machine Hierarchy Filter

namespace Eshkol.Types

/-! ### Definitions -/

/-- `BuiltinTypes::Pair`. -/
def pairTypeId : ℕ := 102

/-- The answers of `isSubtype` that have been computed. -/
abbrev SubtypeCache : Type := List ((ℕ × ℕ) × Bool)

/-- The type environment, with the supertypes of the registered types. -/
structure TypeEnvironment where
  types : List (ℕ × Option ℕ)
  pairElementCache : List (ℕ × ℕ × ℕ)
  sumMemberCache : List (ℕ × List ℕ)
  subtypeCache : SubtypeCache
  nextUserId : ℕ
  nextPairTypeId : ℕ
  nextSumTypeId : ℕ

/-- The types that `initializeBuiltinTypes` registers. -/
def builtinTypes : List (ℕ × Option ℕ) :=
  [(1, none), (2, none), (3, none), (10, none),
    -- the numeric tower
    (11, some 10), (12, some 11), (28, some 12), (29, some 12), (30, some 12), (13, some 12),
    (31, some 12), (14, some 12), (32, some 12), (33, some 12), (34, some 12), (35, some 12),
    (36, some 12), (24, some 12), (37, some 11), (15, some 11), (16, some 15), (17, some 15),
    (18, some 11), (19, some 18), (23, some 18),
    -- text and the other ground types
    (20, some 10), (21, some 20), (22, some 20), (25, some 10), (26, some 10), (27, some 10),
    -- the families, which have no supertype, and the propositions
    (100, none), (101, none), (102, none), (103, none), (104, none), (109, none), (105, none),
    (106, none), (107, none), (108, none), (110, none), (111, none), (112, none), (113, none),
    (200, none), (201, none), (202, none), (203, none)]

/-- The environment that the constructor makes. -/
def initialEnvironment : TypeEnvironment := ⟨builtinTypes, [], [], [], 1000, 300, 60000⟩

namespace TypeEnvironment

variable (env : TypeEnvironment)

/-- `getTypeNode`: the supertype of a registered type. -/
def getTypeNode (id : ℕ) : Option (Option ℕ) := env.types.lookup id

def isTrackedPairType (id : ℕ) : Bool := (env.pairElementCache.lookup id).isSome

def getSumMembers (id : ℕ) : Option (List ℕ) := env.sumMemberCache.lookup id

def isSumType (id : ℕ) : Bool := (env.getSumMembers id).isSome

/-- `registerUserType`: the id, and the environment with it. -/
def registerUserType (supertype : Option ℕ) : ℕ × TypeEnvironment :=
  (env.nextUserId, { env with
    types := env.types ++ [(env.nextUserId, supertype)]
    nextUserId := env.nextUserId + 1 })

/-- `makePairType`: the pair type with these elements, or a new one. -/
def makePairType (carType cdrType : ℕ) : ℕ × TypeEnvironment :=
  match env.pairElementCache.find? fun entry => entry.2 = (carType, cdrType) with
  | some entry => (entry.1, env)
  | none => (env.nextPairTypeId, { env with
      pairElementCache := env.pairElementCache ++ [(env.nextPairTypeId, carType, cdrType)]
      nextPairTypeId := env.nextPairTypeId + 1 })

/-- The loop of `flatten` in `makeSumType`, over the arms collected so far. -/
def flatten : ℕ → List ℕ → List ℕ → Exec Empty (List ℕ)
  | 0, _, _ => .error .diverges
  | _ + 1, [], arms => .ok arms
  | calls + 1, m :: ms, arms =>
    match env.getSumMembers m with
    | some nested => do
        let arms ← flatten calls nested arms
        flatten calls ms arms
    | none => flatten calls ms (if m ∈ arms then arms else arms ++ [m])

/-- `makeSumType`: the sum type with these arms, an arm if there is no other, or `Value`. -/
def makeSumType (calls : ℕ) (members : List ℕ) : Exec Empty (ℕ × TypeEnvironment) := do
  let arms ← env.flatten calls members []
  match arms with
  | [] => .ok (10, env)
  | [arm] => .ok (arm, env)
  | _ =>
    match env.sumMemberCache.find? fun entry =>
        entry.2.length = arms.length ∧ ∀ a ∈ arms, a ∈ entry.2 with
    | some entry => .ok (entry.1, env)
    | none => .ok (env.nextSumTypeId, { env with
        sumMemberCache := env.sumMemberCache ++ [(env.nextSumTypeId, arms)]
        nextSumTypeId := env.nextSumTypeId + 1 })

/-- The loop of `isSubtypeUncached` along the supertypes, from the supertype of a node. -/
def walkSupertypes (super : ℕ) : ℕ → Option ℕ → Exec Empty Bool
  | 0, _ => .error .diverges
  | _ + 1, none => .ok false
  | calls + 1, some t =>
    if t = super then .ok true
    else
      match env.getTypeNode t with
      | none => .ok false
      | some node => walkSupertypes super calls node

end TypeEnvironment

/-- A question that may be answered from a cache, and fills it. -/
abbrev Query : Type := SubtypeCache → ℕ → ℕ → Exec Empty (Bool × SubtypeCache)

/-- Whether `sub` is below one of some arms. -/
def anyArm (ask : Query) (sub : ℕ) : List ℕ → SubtypeCache → Exec Empty (Bool × SubtypeCache)
  | [], cache => .ok (false, cache)
  | arm :: arms, cache => do
      let (below, cache) ← ask cache sub arm
      if below then .ok (true, cache) else anyArm ask sub arms cache

/-- Whether all of some arms are below `super`. -/
def allArms (ask : Query) (super : ℕ) : List ℕ → SubtypeCache → Exec Empty (Bool × SubtypeCache)
  | [], cache => .ok (true, cache)
  | arm :: arms, cache => do
      let (below, cache) ← ask cache arm super
      if below then allArms ask super arms cache else .ok (false, cache)

namespace TypeEnvironment

variable (env : TypeEnvironment)

/-- `isSubtypeUncached` after the arms of `super` have been tried. -/
def isSubtypeBelow (calls : ℕ) (ask : Query) (cache : SubtypeCache) (sub super : ℕ) :
    Exec Empty (Bool × SubtypeCache) :=
  match env.getSumMembers sub with
  | some arms => allArms ask super arms cache
  | none =>
    if env.isSumType super then .ok (false, cache)
    else if env.isTrackedPairType sub then
      if super = pairTypeId then .ok (true, cache) else ask cache pairTypeId super
    else
      match env.getTypeNode sub with
      | none => .ok (false, cache)
      | some node => do
          let below ← env.walkSupertypes super calls node
          .ok (below, cache)

/-- `isSubtypeUncached`, which asks `isSubtype`. -/
def isSubtypeUncached (calls : ℕ) (ask : Query) (cache : SubtypeCache) (sub super : ℕ) :
    Exec Empty (Bool × SubtypeCache) :=
  if sub = super then .ok (true, cache)
  else
    match env.getSumMembers super with
    | some arms => do
        let (below, cache) ← anyArm ask sub arms cache
        if below then .ok (true, cache) else env.isSubtypeBelow calls ask cache sub super
    | none => env.isSubtypeBelow calls ask cache sub super

/-- `isSubtype`, with a bound on the depth of its calls. -/
def isSubtype : ℕ → Query
  | 0, _, _, _ => .error .diverges
  | calls + 1, cache, sub, super =>
    match cache.lookup (sub, super) with
    | some below => .ok (below, cache)
    | none => do
        let (below, cache) ← env.isSubtypeUncached calls (isSubtype calls) cache sub super
        .ok (below, ((sub, super), below) :: cache)

/-- The loop of `getSupertypeChain`, from the supertype of a node. -/
def chainLoop : ℕ → Option ℕ → Exec Empty (List ℕ)
  | 0, _ => .error .diverges
  | _ + 1, none => .ok []
  | calls + 1, some t => do
      let chain ← chainLoop calls (env.getTypeNode t).join
      .ok (t :: chain)

def getSupertypeChain : ℕ → ℕ → Exec Empty (List ℕ)
  | 0, _ => .error .diverges
  | calls + 1, type => do
      let chain ← if env.isTrackedPairType type then getSupertypeChain calls pairTypeId
        else env.chainLoop calls (env.getTypeNode type).join
      .ok (type :: chain)

def leastCommonSupertype (calls : ℕ) (a b : ℕ) : Exec Empty (Option ℕ) :=
  if a = b then .ok (some a)
  else do
    let chainA ← env.getSupertypeChain calls a
    let chainB ← env.getSupertypeChain calls b
    .ok (chainA.find? (· ∈ chainB))

/-! ### What the environment means -/

/-- The type directly above a type that is no sum. -/
def parent (id : ℕ) : Option ℕ :=
  if env.isTrackedPairType id then some pairTypeId else (env.getTypeNode id).join

/-- The arms of a sum; any other type is its only arm. -/
def arms (id : ℕ) : List ℕ := (env.getSumMembers id).getD [id]

/-- The order of the types. -/
def Below (sub super : ℕ) : Prop := Covers env.parent env.arms sub super

/-- The types of the environment: registered types, tracked pairs, sums, and function types. -/
def IsType (id : ℕ) : Prop :=
  (env.getTypeNode id).isSome ∨ env.isTrackedPairType id ∨ env.isSumType id ∨ 500 ≤ id ∧ id < 1000

end TypeEnvironment

/-! ### More calls -/

/-- Whatever one question answers, the other answers too. -/
def Query.Le (ask ask' : Query) : Prop :=
  ∀ cache x y out, ask cache x y = .ok out → ask' cache x y = .ok out

theorem anyArm_mono {ask ask' : Query} (hask : ask.Le ask') {sub : ℕ} {members : List ℕ}
    {cache : SubtypeCache} {out : Bool × SubtypeCache}
    (h : anyArm ask sub members cache = .ok out) : anyArm ask' sub members cache = .ok out := by
  induction members generalizing cache with
  | nil => exact h
  | cons arm members ih =>
    obtain ⟨⟨below, cache'⟩, hok, h⟩ := bind_eq_ok.mp h
    rw [anyArm, hask _ _ _ _ hok, ok_bind]
    cases below with
    | true => exact h
    | false => exact ih h

theorem allArms_mono {ask ask' : Query} (hask : ask.Le ask') {super : ℕ} {members : List ℕ}
    {cache : SubtypeCache} {out : Bool × SubtypeCache}
    (h : allArms ask super members cache = .ok out) :
    allArms ask' super members cache = .ok out := by
  induction members generalizing cache with
  | nil => exact h
  | cons arm members ih =>
    obtain ⟨⟨below, cache'⟩, hok, h⟩ := bind_eq_ok.mp h
    rw [allArms, hask _ _ _ _ hok, ok_bind]
    cases below with
    | true => exact ih h
    | false => exact h

namespace TypeEnvironment

variable {env : TypeEnvironment}

theorem walkSupertypes_succ {super calls : ℕ} {node : Option ℕ} {below : Bool}
    (h : env.walkSupertypes super calls node = .ok below) :
    env.walkSupertypes super (calls + 1) node = .ok below := by
  induction calls generalizing node with
  | zero => cases h
  | succ calls ih =>
    cases node with
    | none => exact h
    | some t =>
      rw [walkSupertypes] at h ⊢
      split
      next heq => rwa [if_pos heq] at h
      next heq =>
        rw [if_neg heq] at h
        cases hnode : env.getTypeNode t with
        | none => rwa [hnode] at h
        | some node =>
          rw [hnode] at h
          exact ih h

theorem isSubtypeBelow_succ {calls : ℕ} {ask ask' : Query} (hask : ask.Le ask')
    {cache : SubtypeCache} {x y : ℕ} {out : Bool × SubtypeCache}
    (h : env.isSubtypeBelow calls ask cache x y = .ok out) :
    env.isSubtypeBelow (calls + 1) ask' cache x y = .ok out := by
  unfold isSubtypeBelow at h ⊢
  cases hx : env.getSumMembers x with
  | some members =>
    rw [hx] at h
    exact allArms_mono hask h
  | none =>
    simp only [hx] at h ⊢
    split
    next hy => rwa [if_pos hy] at h
    next hy =>
      rw [if_neg hy] at h
      split
      next hpair =>
        rw [if_pos hpair] at h
        split
        next heq => rwa [if_pos heq] at h
        next heq =>
          rw [if_neg heq] at h
          exact hask _ _ _ _ h
      next hpair =>
        rw [if_neg hpair] at h
        cases hnode : env.getTypeNode x with
        | none => rwa [hnode] at h
        | some node =>
          rw [hnode] at h
          obtain ⟨below, hok, h⟩ := bind_eq_ok.mp h
          simp only [walkSupertypes_succ hok, ok_bind]
          exact h

theorem isSubtypeUncached_succ {calls : ℕ} {ask ask' : Query} (hask : ask.Le ask')
    {cache : SubtypeCache} {x y : ℕ} {out : Bool × SubtypeCache}
    (h : env.isSubtypeUncached calls ask cache x y = .ok out) :
    env.isSubtypeUncached (calls + 1) ask' cache x y = .ok out := by
  unfold isSubtypeUncached at h ⊢
  split
  next heq => rwa [if_pos heq] at h
  next heq =>
    rw [if_neg heq] at h
    cases hy : env.getSumMembers y with
    | none =>
      rw [hy] at h
      exact isSubtypeBelow_succ hask h
    | some members =>
      rw [hy] at h
      obtain ⟨⟨below, cache'⟩, hok, h⟩ := bind_eq_ok.mp h
      simp only [anyArm_mono hask hok, ok_bind]
      cases below with
      | true => exact h
      | false => exact isSubtypeBelow_succ hask h

theorem isSubtype_succ (calls : ℕ) : (env.isSubtype calls).Le (env.isSubtype (calls + 1)) := by
  induction calls with
  | zero => exact fun _ _ _ _ h => by cases h
  | succ calls ih =>
    intro cache x y out h
    rw [isSubtype] at h ⊢
    cases hfound : cache.lookup (x, y) with
    | some below => rwa [hfound] at h
    | none =>
      rw [hfound] at h
      obtain ⟨⟨below, cache'⟩, hok, h⟩ := bind_eq_ok.mp h
      simp only [isSubtypeUncached_succ ih hok, ok_bind]
      exact h

theorem isSubtype_add {calls : ℕ} {cache : SubtypeCache} {x y : ℕ} {out : Bool × SubtypeCache}
    (h : env.isSubtype calls cache x y = .ok out) (more : ℕ) :
    env.isSubtype (calls + more) cache x y = .ok out := by
  induction more with
  | zero => exact h
  | succ more ih => exact isSubtype_succ _ _ _ _ _ ih

end TypeEnvironment

/-! ### The shape of an environment -/

/-- The ids of each kind of types are in their range, and supertypes are registered before. -/
structure TypeEnvironment.Structured (env : TypeEnvironment) : Prop where
  user_range : 1000 ≤ env.nextUserId ∧ env.nextUserId ≤ 60000
  pair_range : 300 ≤ env.nextPairTypeId ∧ env.nextPairTypeId ≤ 500
  sum_range : 60000 ≤ env.nextSumTypeId
  registered : ∀ {id : ℕ} {node : Option ℕ}, env.getTypeNode id = some node →
    (id < 300 ∨ 1000 ≤ id ∧ id < env.nextUserId) ∧ ∀ t ∈ node, t < id ∧ (env.getTypeNode t).isSome
  pairs : ∀ {id : ℕ}, env.isTrackedPairType id = true → 300 ≤ id ∧ id < env.nextPairTypeId
  sums : ∀ {id : ℕ} {members : List ℕ}, env.getSumMembers id = some members →
    60000 ≤ id ∧ id < env.nextSumTypeId ∧
      ∀ arm ∈ members, env.IsType arm ∧ env.isSumType arm = false
  pair_root : env.getTypeNode pairTypeId = some none

section

variable {env : TypeEnvironment} {x y p : ℕ}

namespace TypeEnvironment.Structured

variable (h : env.Structured)
include h

theorem not_pair_of_registered {node : Option ℕ} (hx : env.getTypeNode x = some node) :
    env.isTrackedPairType x = false := by
  rw [← Bool.not_eq_true]
  intro hpair
  have hrange := (h.registered hx).1
  have hpair' := h.pairs hpair
  have := h.pair_range
  omega

theorem parent_of_registered {node : Option ℕ} (hx : env.getTypeNode x = some node) :
    env.parent x = node := by
  rw [TypeEnvironment.parent, h.not_pair_of_registered hx, if_neg (by simp), hx]
  rfl

theorem parent_spec (hp : env.parent x = some p) : p < x ∧ (env.getTypeNode p).isSome := by
  rw [TypeEnvironment.parent] at hp
  split at hp
  next hpair =>
    obtain rfl := Option.some.inj hp
    have hrange := h.pairs hpair
    refine ⟨?_, by rw [h.pair_root]; rfl⟩
    rw [pairTypeId]
    omega
  next =>
    cases hx : env.getTypeNode x with
    | none => simp [hx] at hp
    | some node =>
      rw [hx] at hp
      exact (h.registered hx).2 p hp

theorem rooted (x : ℕ) : ∃ l, Chain env.parent x l := by
  induction x using Nat.strong_induction_on with
  | _ x ih =>
    cases hp : env.parent x with
    | none => exact ⟨[x], .root hp⟩
    | some p =>
      obtain ⟨l, hl⟩ := ih p (h.parent_spec hp).1
      exact ⟨x :: l, .step hp hl⟩

theorem not_sum_of_registered (hx : (env.getTypeNode x).isSome) : env.isSumType x = false := by
  obtain ⟨node, hnode⟩ := Option.isSome_iff_exists.mp hx
  rw [← Bool.not_eq_true]
  intro hsum
  obtain ⟨members, hmembers⟩ := Option.isSome_iff_exists.mp hsum
  have hrange := (h.registered hnode).1
  have hsum' := h.sums hmembers
  have := h.user_range
  omega

theorem parent_of_sum (hx : env.isSumType x = true) : env.parent x = none := by
  cases hp : env.parent x with
  | none => rfl
  | some p =>
    exfalso
    rw [TypeEnvironment.parent] at hp
    split at hp
    next hpair =>
      obtain ⟨members, hmembers⟩ := Option.isSome_iff_exists.mp hx
      have hrange := h.pairs hpair
      have hsum := h.sums hmembers
      have := h.pair_range
      omega
    next =>
      have hreg : (env.getTypeNode x).isSome := by
        cases hnode : env.getTypeNode x with
        | none => simp [hnode] at hp
        | some _ => rfl
      rw [h.not_sum_of_registered hreg] at hx
      simp at hx

theorem not_sum_of_above (hxy : Above env.parent x y) (hne : y ≠ x) : env.isSumType y = false := by
  rcases hxy.eq_or_parent with heq | ⟨u, hu⟩
  · exact absurd heq hne
  · exact h.not_sum_of_registered (h.parent_spec hu).2

/-! ### The order of the types -/

omit h in
theorem arms_of_not_sum (hx : env.isSumType x = false) : env.arms x = [x] := by
  rw [TypeEnvironment.arms, Option.isNone_iff_eq_none.mp (Option.isSome_eq_false_iff.mp hx)]
  rfl

omit h in
theorem arms_of_sum {members : List ℕ} (hx : env.getSumMembers x = some members) :
    env.arms x = members := by
  rw [TypeEnvironment.arms, hx]
  rfl

omit h in
theorem below_iff_above (hx : env.isSumType x = false) (hy : env.isSumType y = false) :
    env.Below x y ↔ Above env.parent x y := by
  rw [Below, Covers, arms_of_not_sum hx, arms_of_not_sum hy]
  simp

theorem below_sum_iff {members : List ℕ} (hx : env.isSumType x = false)
    (hy : env.getSumMembers y = some members) :
    env.Below x y ↔ ∃ arm ∈ members, env.Below x arm := by
  rw [Below, Covers, arms_of_not_sum hx, arms_of_sum hy]
  constructor
  · intro hbelow
    obtain ⟨arm, harm, habove⟩ := hbelow x (by simp)
    exact ⟨arm, harm, (below_iff_above hx ((h.sums hy).2.2 arm harm).2).mpr habove⟩
  · rintro ⟨arm, harm, hbelow⟩ u hu
    obtain rfl := List.mem_singleton.mp hu
    exact ⟨arm, harm, (below_iff_above hx ((h.sums hy).2.2 arm harm).2).mp hbelow⟩

theorem sum_below_iff {members : List ℕ} (hx : env.getSumMembers x = some members) :
    env.Below x y ↔ ∀ arm ∈ members, env.Below arm y := by
  rw [Below, Covers, arms_of_sum hx]
  refine forall₂_congr fun arm harm => ?_
  rw [Below, Covers, arms_of_not_sum ((h.sums hx).2.2 arm harm).2]
  simp

theorem below_of_arm {members : List ℕ} (hy : env.getSumMembers y = some members) {arm : ℕ}
    (harm : arm ∈ members) (hbelow : env.Below x arm) : env.Below x y := by
  intro u hu
  obtain ⟨v, hv, huv⟩ := hbelow u hu
  rw [arms_of_not_sum ((h.sums hy).2.2 arm harm).2] at hv
  obtain rfl := List.mem_singleton.mp hv
  exact ⟨v, by rwa [arms_of_sum hy], huv⟩

theorem below_refl (x : ℕ) : env.Below x x := covers_refl h.rooted env.arms x

/-! ### Walking along the supertypes -/

theorem walkSupertypes_spec {l : List ℕ} (hl : Chain env.parent x l)
    (hx : (env.getTypeNode x).isSome) (super : ℕ) {calls : ℕ} (hcalls : l.length < calls) :
    env.walkSupertypes super calls (some x) = .ok (decide (super ∈ l)) := by
  induction hl generalizing calls with
  | @root x hnone =>
    obtain ⟨node, hnode⟩ := Option.isSome_iff_exists.mp hx
    obtain rfl : none = node := hnone.symm.trans (h.parent_of_registered hnode)
    obtain ⟨calls, rfl⟩ : ∃ k, calls = k + 1 + 1 := Nat.exists_eq_add_of_le' hcalls
    rw [walkSupertypes]
    by_cases heq : x = super
    · simp [heq]
    · have hne : super ≠ x := fun h => heq h.symm
      simp [heq, hne, hnode, walkSupertypes]
  | @step x p l hsome hp ih =>
    obtain ⟨node, hnode⟩ := Option.isSome_iff_exists.mp hx
    obtain rfl : some p = node := hsome.symm.trans (h.parent_of_registered hnode)
    obtain ⟨calls, rfl⟩ : ∃ k, calls = k + 1 := Nat.exists_eq_succ_of_ne_zero (by omega)
    rw [List.length_cons] at hcalls
    rw [walkSupertypes, hnode]
    by_cases heq : x = super
    · simp [heq]
    · have hne : super ≠ x := fun h => heq h.symm
      simp only [if_neg heq, List.mem_cons, hne, false_or]
      exact ih (h.parent_spec hsome).2 (by omega)

theorem chainLoop_spec {l : List ℕ} (hl : Chain env.parent x l)
    (hx : (env.getTypeNode x).isSome) {calls : ℕ} (hcalls : l.length < calls) :
    env.chainLoop calls (some x) = .ok l := by
  induction hl generalizing calls with
  | @root x hnone =>
    obtain ⟨node, hnode⟩ := Option.isSome_iff_exists.mp hx
    obtain rfl : none = node := hnone.symm.trans (h.parent_of_registered hnode)
    obtain ⟨calls, rfl⟩ : ∃ k, calls = k + 1 + 1 := Nat.exists_eq_add_of_le' hcalls
    rw [chainLoop, hnode]
    rfl
  | @step x p l hsome hp ih =>
    obtain ⟨node, hnode⟩ := Option.isSome_iff_exists.mp hx
    obtain rfl : some p = node := hsome.symm.trans (h.parent_of_registered hnode)
    obtain ⟨calls, rfl⟩ : ∃ k, calls = k + 1 := Nat.exists_eq_succ_of_ne_zero (by omega)
    rw [List.length_cons] at hcalls
    rw [chainLoop, hnode]
    simp only [Option.join_some]
    rw [ih (h.parent_spec hsome).2 (by omega), ok_bind]

theorem getSupertypeChain_of_not_pair {l : List ℕ} (hl : Chain env.parent x l)
    (hpair : env.isTrackedPairType x = false) {calls : ℕ} (hcalls : l.length < calls) :
    env.getSupertypeChain calls x = .ok l := by
  have hparent : env.parent x = (env.getTypeNode x).join := by
    rw [TypeEnvironment.parent, hpair, if_neg (by simp)]
  cases hl with
  | root hnone =>
    obtain ⟨calls, rfl⟩ : ∃ k, calls = k + 1 + 1 := Nat.exists_eq_add_of_le' hcalls
    rw [getSupertypeChain, hpair, if_neg (by simp), ← hparent, hnone, chainLoop, ok_bind]
  | step hsome hp =>
    obtain ⟨calls, rfl⟩ : ∃ k, calls = k + 1 := Nat.exists_eq_succ_of_ne_zero (by omega)
    rw [List.length_cons] at hcalls
    rw [getSupertypeChain, hpair, if_neg (by simp), ← hparent, hsome,
      h.chainLoop_spec hp (h.parent_spec hsome).2 (by omega), ok_bind]

theorem getSupertypeChain_spec {l : List ℕ} (hl : Chain env.parent x l) {calls : ℕ}
    (hcalls : l.length < calls) : env.getSupertypeChain calls x = .ok l := by
  cases hpair : env.isTrackedPairType x with
  | false => exact h.getSupertypeChain_of_not_pair hl hpair hcalls
  | true =>
    have hparent : env.parent x = some pairTypeId := by
      rw [TypeEnvironment.parent, hpair, if_pos rfl]
    cases hl with
    | root hnone => rw [hparent] at hnone; cases hnone
    | step hsome hp =>
      obtain rfl := Option.some.inj (hparent.symm.trans hsome)
      obtain ⟨calls, rfl⟩ : ∃ k, calls = k + 1 := Nat.exists_eq_succ_of_ne_zero (by omega)
      rw [List.length_cons] at hcalls
      rw [getSupertypeChain, hpair, if_pos rfl, h.getSupertypeChain_of_not_pair hp
        (h.not_pair_of_registered h.pair_root) (by omega), ok_bind]

end TypeEnvironment.Structured

/-! ### The cached search -/

/-- The cache holds right answers about types of the environment. -/
def TypeEnvironment.Right (env : TypeEnvironment) (cache : SubtypeCache) : Prop :=
  ∀ sub super below, cache.lookup (sub, super) = some below →
    env.IsType sub ∧ env.IsType super ∧ (below = true ↔ env.Below sub super)

/-- The outcome of a search for `P` that keeps the cache right. -/
def TypeEnvironment.Decides (env : TypeEnvironment) (P : Prop)
    (out : Exec Empty (Bool × SubtypeCache)) : Prop :=
  ∃ below cache, out = .ok (below, cache) ∧ (below = true ↔ P) ∧ env.Right cache

/-- A question is answered rightly, whatever right answers there are. -/
def TypeEnvironment.Answers (env : TypeEnvironment) (ask : Query) (x y : ℕ) : Prop :=
  ∀ cache, env.Right cache → env.Decides (env.Below x y) (ask cache x y)

theorem anyArm_spec {ask : Query} {members : List ℕ}
    (hask : ∀ arm ∈ members, env.Answers ask x arm) {cache : SubtypeCache}
    (hcache : env.Right cache) :
    env.Decides (∃ arm ∈ members, env.Below x arm) (anyArm ask x members cache) := by
  induction members generalizing cache with
  | nil => exact ⟨false, cache, rfl, by simp, hcache⟩
  | cons arm members ih =>
    obtain ⟨below, cache', hok, hbelow, hcache'⟩ := hask arm (by simp) cache hcache
    rw [anyArm, hok, ok_bind]
    cases below with
    | true => exact ⟨true, cache', rfl, iff_of_true rfl ⟨arm, by simp, hbelow.mp rfl⟩, hcache'⟩
    | false =>
      have hnot : ¬ env.Below x arm := fun h => by simpa using hbelow.mpr h
      obtain ⟨below, cache'', hok, hrest, hcache''⟩ :=
        ih (fun arm' h' => hask arm' (by simp [h'])) hcache'
      exact ⟨below, cache'', hok, by simp [hrest, hnot], hcache''⟩

theorem allArms_spec {ask : Query} {members : List ℕ}
    (hask : ∀ arm ∈ members, env.Answers ask arm y) {cache : SubtypeCache}
    (hcache : env.Right cache) :
    env.Decides (∀ arm ∈ members, env.Below arm y) (allArms ask y members cache) := by
  induction members generalizing cache with
  | nil => exact ⟨true, cache, rfl, by simp, hcache⟩
  | cons arm members ih =>
    obtain ⟨below, cache', hok, hbelow, hcache'⟩ := hask arm (by simp) cache hcache
    rw [allArms, hok, ok_bind]
    cases below with
    | true =>
      obtain ⟨below, cache'', hok, hrest, hcache''⟩ :=
        ih (fun arm' h' => hask arm' (by simp [h'])) hcache'
      exact ⟨below, cache'', hok, by simp [hrest, hbelow.mp rfl], hcache''⟩
    | false =>
      have hnot : ¬ env.Below arm y := fun h => by simpa using hbelow.mpr h
      exact ⟨false, cache', rfl, iff_of_false (by simp) fun h => hnot (h arm (by simp)), hcache'⟩

theorem TypeEnvironment.Answers.cached {calls : ℕ} (hx : env.IsType x) (hy : env.IsType y)
    (h : env.Answers (env.isSubtypeUncached calls (env.isSubtype calls)) x y) :
    env.Answers (env.isSubtype (calls + 1)) x y := by
  intro cache hcache
  rw [TypeEnvironment.isSubtype]
  cases hfound : cache.lookup (x, y) with
  | some below => exact ⟨below, cache, rfl, (hcache x y below hfound).2.2, hcache⟩
  | none =>
    obtain ⟨below, cache', hok, hbelow, hcache'⟩ := h cache hcache
    refine ⟨below, ((x, y), below) :: cache', by simp only [hok, ok_bind], hbelow, ?_⟩
    intro sub super below' hlookup
    rw [List.lookup_cons] at hlookup
    split at hlookup
    next heq =>
      obtain ⟨rfl, rfl⟩ := Prod.mk.inj (beq_iff_eq.mp heq)
      obtain rfl := Option.some.inj hlookup
      exact ⟨hx, hy, hbelow⟩
    next => exact hcache' sub super below' hlookup

namespace TypeEnvironment.Structured

variable (h : env.Structured)
include h

theorem walk_decides {l : List ℕ} (hl : Chain env.parent x l) (hne : x ≠ y)
    (hx : env.isSumType x = false) (hy : env.isSumType y = false)
    (hpair : env.isTrackedPairType x = false) {calls : ℕ} (hcalls : l.length < calls) :
    (env.getTypeNode x = none → ¬ env.Below x y) ∧
      ∀ node, env.getTypeNode x = some node → ∃ below,
        env.walkSupertypes y calls node = .ok below ∧ (below = true ↔ env.Below x y) := by
  have hparent : env.parent x = (env.getTypeNode x).join := by
    rw [TypeEnvironment.parent, hpair, if_neg (by simp)]
  rw [below_iff_above hx hy, hl.above_iff]
  cases hl with
  | root hnone =>
    have hmem : y ∉ [x] := by simpa using fun heq : y = x => hne heq.symm
    refine ⟨fun _ => hmem, fun node hnode => ⟨false, ?_, iff_of_false (by simp) hmem⟩⟩
    obtain rfl : none = node := hnone.symm.trans (h.parent_of_registered hnode)
    obtain ⟨calls, rfl⟩ : ∃ k, calls = k + 1 := Nat.exists_eq_succ_of_ne_zero (by omega)
    rw [walkSupertypes]
  | @step _ p l hsome hp =>
    rw [List.length_cons] at hcalls
    refine ⟨fun hnode => ?_, fun node hnode => ⟨decide (y ∈ l), ?_, ?_⟩⟩
    · rw [hnode] at hparent
      rw [hparent] at hsome
      cases hsome
    · obtain rfl : some p = node := hsome.symm.trans (h.parent_of_registered hnode)
      exact h.walkSupertypes_spec hp (h.parent_spec hsome).2 y (by omega)
    · simp [hne.symm]

theorem pair_below_iff (hpair : env.isTrackedPairType x = true) (hne : x ≠ y)
    (hx : env.isSumType x = false) (hy : env.isSumType y = false) :
    env.Below x y ↔ env.Below pairTypeId y := by
  have hparent : env.parent x = some pairTypeId := by rw [TypeEnvironment.parent, hpair, if_pos rfl]
  have hroot := h.not_sum_of_registered (x := pairTypeId) (by rw [h.pair_root]; rfl)
  obtain ⟨l, hl⟩ := h.rooted pairTypeId
  rw [below_iff_above hx hy, below_iff_above hroot hy, hl.above_iff,
    (Chain.step hparent hl).above_iff]
  simp [hne.symm]

/-- The answer below one level, given those of the parts. -/
theorem isSubtypeBelow_spec {ask : Query} {l : List ℕ} (hl : Chain env.parent x l) (hne : x ≠ y)
    (hnone : ∀ members, env.getSumMembers y = some members → ¬ ∃ arm ∈ members, env.Below x arm)
    (hleft : ∀ members, env.getSumMembers x = some members → ∀ arm ∈ members, env.Answers ask arm y)
    (hpair : env.isTrackedPairType x = true → env.isSumType y = false →
      env.Answers ask pairTypeId y)
    {calls : ℕ} (hcalls : l.length < calls) {cache : SubtypeCache} (hcache : env.Right cache) :
    env.Decides (env.Below x y) (env.isSubtypeBelow calls ask cache x y) := by
  unfold isSubtypeBelow
  cases hx : env.getSumMembers x with
  | some members =>
    rw [h.sum_below_iff hx]
    exact allArms_spec (hleft members hx) hcache
  | none =>
    have hx' : env.isSumType x = false := by rw [isSumType, hx]; rfl
    simp only
    cases hy : env.isSumType y with
    | true =>
      obtain ⟨members, hmembers⟩ := Option.isSome_iff_exists.mp hy
      rw [if_pos rfl, h.below_sum_iff hx' hmembers]
      exact ⟨false, cache, rfl, iff_of_false (by simp) (hnone members hmembers), hcache⟩
    | false =>
      rw [if_neg (by simp)]
      cases htracked : env.isTrackedPairType x with
      | true =>
        rw [if_pos rfl, h.pair_below_iff htracked hne hx' hy]
        split
        next heq =>
          rw [heq]
          exact ⟨true, cache, rfl, iff_of_true rfl (h.below_refl _), hcache⟩
        next => exact hpair htracked hy cache hcache
      | false =>
        rw [if_neg (by simp)]
        obtain ⟨habsent, hwalk⟩ := h.walk_decides hl hne hx' hy htracked hcalls
        cases hnode : env.getTypeNode x with
        | none =>
          exact ⟨false, cache, rfl, iff_of_false (by simp) (habsent hnode), hcache⟩
        | some node =>
          obtain ⟨below, hok, hbelow⟩ := hwalk node hnode
          exact ⟨below, cache, by simp only [hok, ok_bind], hbelow, hcache⟩

theorem isSubtypeUncached_spec {ask : Query} {l : List ℕ} (hl : Chain env.parent x l)
    (hright : ∀ members, env.getSumMembers y = some members → ∀ arm ∈ members,
      env.Answers ask x arm)
    (hleft : ∀ members, env.getSumMembers x = some members → ∀ arm ∈ members, env.Answers ask arm y)
    (hpair : env.isTrackedPairType x = true → env.isSumType y = false →
      env.Answers ask pairTypeId y)
    {calls : ℕ} (hcalls : l.length < calls) :
    env.Answers (env.isSubtypeUncached calls ask) x y := by
  intro cache hcache
  unfold isSubtypeUncached
  by_cases hne : x = y
  · rw [if_pos hne, hne]
    exact ⟨true, cache, rfl, iff_of_true rfl (h.below_refl y), hcache⟩
  rw [if_neg hne]
  cases hy : env.getSumMembers y with
  | none =>
    exact h.isSubtypeBelow_spec hl hne (fun members hmembers => by simp [hy] at hmembers) hleft
      hpair hcalls hcache
  | some members =>
    obtain ⟨below, cache', hok, hbelow, hcache'⟩ := anyArm_spec (hright members hy) hcache
    simp only [hok, ok_bind]
    cases below with
    | true =>
      obtain ⟨arm, harm, hx⟩ := hbelow.mp rfl
      exact ⟨true, cache', rfl, iff_of_true rfl (h.below_of_arm hy harm hx), hcache'⟩
    | false =>
      rw [if_neg (by simp)]
      refine h.isSubtypeBelow_spec hl hne (fun members' hmembers => ?_) hleft hpair hcalls
        hcache'
      obtain rfl := Option.some.inj (hy.symm.trans hmembers)
      exact fun hex => by simpa using hbelow.mpr hex

/-- With enough calls, the question whether a type is a subtype is answered. -/
theorem eventually_answers (hx : env.IsType x) (hy : env.IsType y)
    (hright : ∀ members, env.getSumMembers y = some members → ∀ arm ∈ members,
      ∀ᶠ calls in atTop, env.Answers (env.isSubtype calls) x arm)
    (hleft : ∀ members, env.getSumMembers x = some members → ∀ arm ∈ members,
      ∀ᶠ calls in atTop, env.Answers (env.isSubtype calls) arm y)
    (hpair : env.isTrackedPairType x = true → env.isSumType y = false →
      ∀ᶠ calls in atTop, env.Answers (env.isSubtype calls) pairTypeId y) :
    ∀ᶠ calls in atTop, env.Answers (env.isSubtype calls) x y := by
  obtain ⟨l, hl⟩ := h.rooted x
  -- finitely many questions are answered from some number of calls on
  have hall {members : Option (List ℕ)} {P : ℕ → ℕ → Prop}
      (hP : ∀ m, members = some m → ∀ arm ∈ m, ∀ᶠ calls in atTop, P arm calls) :
      ∀ᶠ calls in atTop, ∀ m, members = some m → ∀ arm ∈ m, P arm calls := by
    cases members with
    | none => exact .of_forall fun _ _ h => by cases h
    | some m =>
      have hfin := (eventually_all_finite (List.finite_toSet m)).mpr (hP m rfl)
      filter_upwards [hfin] with calls hcalls m' heq
      obtain rfl := Option.some.inj heq
      exact hcalls
  have hpair' : ∀ᶠ calls in atTop, env.isTrackedPairType x = true → env.isSumType y = false →
      env.Answers (env.isSubtype calls) pairTypeId y := by
    by_cases hcase : env.isTrackedPairType x = true ∧ env.isSumType y = false
    · filter_upwards [hpair hcase.1 hcase.2] with calls hcalls _ _
      exact hcalls
    · exact .of_forall fun _ htracked hy => absurd ⟨htracked, hy⟩ hcase
  have huncached : ∀ᶠ calls in atTop,
      env.Answers (env.isSubtypeUncached calls (env.isSubtype calls)) x y := by
    filter_upwards [hall hright, hall hleft, hpair', eventually_gt_atTop l.length]
      with calls hr hlf hp hlen
    exact h.isSubtypeUncached_spec hl hr hlf hp hlen
  obtain ⟨n, hn⟩ := eventually_atTop.mp huncached
  refine eventually_atTop.mpr ⟨n + 1, fun calls hcalls => ?_⟩
  obtain ⟨calls, rfl⟩ : ∃ k, calls = k + 1 := Nat.exists_eq_succ_of_ne_zero (by omega)
  exact (hn calls (by omega)).cached hx hy

theorem isType_pair : env.IsType pairTypeId := .inl (by rw [h.pair_root]; rfl)

theorem eventually_answers_simple (hx : env.IsType x) (hy : env.IsType y)
    (hxs : env.isSumType x = false) (hys : env.isSumType y = false) :
    ∀ᶠ calls in atTop, env.Answers (env.isSubtype calls) x y := by
  have hnone {z : ℕ} (hz : env.isSumType z = false) {members : List ℕ}
      (hmembers : env.getSumMembers z = some members) : False := by
    simp [isSumType, hmembers] at hz
  have hroot := h.not_sum_of_registered (x := pairTypeId) (by rw [h.pair_root]; rfl)
  refine h.eventually_answers hx hy (fun _ hm => (hnone hys hm).elim)
    (fun _ hm => (hnone hxs hm).elim) fun _ _ => ?_
  refine h.eventually_answers h.isType_pair hy (fun _ hm => (hnone hys hm).elim)
    (fun _ hm => (hnone hroot hm).elim) fun htracked => ?_
  rw [h.not_pair_of_registered h.pair_root] at htracked
  simp at htracked

theorem isSubtype_answers (hx : env.IsType x) (hy : env.IsType y) :
    ∀ᶠ calls in atTop, env.Answers (env.isSubtype calls) x y := by
  have harm {z arm : ℕ} {members : List ℕ} (hz : env.getSumMembers z = some members)
      (harm : arm ∈ members) : env.IsType arm ∧ env.isSumType arm = false :=
    (h.sums hz).2.2 arm harm
  -- below a type that is no sum
  have hsimple {x y : ℕ} (hx : env.IsType x) (hy : env.IsType y)
      (hys : env.isSumType y = false) :
      ∀ᶠ calls in atTop, env.Answers (env.isSubtype calls) x y := by
    cases hxs : env.isSumType x with
    | false => exact h.eventually_answers_simple hx hy hxs hys
    | true =>
      refine h.eventually_answers hx hy (fun _ hm => ?_) (fun _ hm arm hmem => ?_) fun hpair => ?_
      · simp [isSumType, hm] at hys
      · exact h.eventually_answers_simple (harm hm hmem).1 hy (harm hm hmem).2 hys
      · have hparent := h.parent_of_sum hxs
        rw [TypeEnvironment.parent, hpair, if_pos rfl] at hparent
        cases hparent
  -- a type that is no sum
  have hnosum {x : ℕ} (hx : env.IsType x) (hxs : env.isSumType x = false) :
      ∀ᶠ calls in atTop, env.Answers (env.isSubtype calls) x y := by
    refine h.eventually_answers hx hy (fun _ hm arm hmem => ?_) (fun _ hm => ?_) fun _ hys => ?_
    · exact hsimple hx (harm hm hmem).1 (harm hm hmem).2
    · simp [isSumType, hm] at hxs
    · exact hsimple h.isType_pair hy hys
  refine h.eventually_answers hx hy (fun _ hm arm hmem => ?_) (fun _ hm arm hmem => ?_)
    fun _ hys => ?_
  · exact hsimple hx (harm hm hmem).1 (harm hm hmem).2
  · exact hnosum (harm hm hmem).1 (harm hm hmem).2
  · exact hsimple h.isType_pair hy hys

end TypeEnvironment.Structured

end

end Eshkol.Types
