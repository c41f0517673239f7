import Eshkol.Types.Subtyping

/-!
# The Least Common Supertype

The checker registers types, makes pair and sum types and asks for subtypes in any order. New ids
are fresh, so that no answer in the cache goes out of date. `leastCommonSupertype` looks at the
chains of supertypes and knows nothing of arms: it finds nothing for a sum type and another type,
and what it finds for two other types is below every supertype that they share, but for sum types
that cover the two by different arms.
-/

open Machine Hierarchy Filter

namespace Eshkol.Types

/-- The environments that the checker can make, while the ids of each kind stay in their range. -/
inductive Reachable : TypeEnvironment → Prop
  | initial : Reachable initialEnvironment
  | user {env : TypeEnvironment} {supertype : Option ℕ} (h : Reachable env)
      (hsupertype : ∀ t ∈ supertype, (env.getTypeNode t).isSome)
      (hroom : env.nextUserId < 60000) : Reachable (env.registerUserType supertype).2
  | pair {env : TypeEnvironment} {carType cdrType : ℕ} (h : Reachable env)
      (hroom : env.nextPairTypeId < 500) : Reachable (env.makePairType carType cdrType).2
  | sum {env env' : TypeEnvironment} {id : ℕ} {members : List ℕ} (h : Reachable env)
      (hmembers : ∀ m ∈ members, env.IsType m) (hroom : env.nextSumTypeId < 65536)
      (hmake : Machine.Yields (fun calls => env.makeSumType calls members) (id, env')) :
      Reachable env'
  | query {env : TypeEnvironment} {sub super : ℕ} {below : Bool} {cache : SubtypeCache}
      (h : Reachable env) (hsub : env.IsType sub) (hsuper : env.IsType super)
      (hask : Machine.Yields (fun calls => env.isSubtype calls env.subtypeCache sub super)
        (below, cache)) : Reachable { env with subtypeCache := cache }

variable {env env' : TypeEnvironment}

/-! ### Growing environments -/

/-- What an environment says about its types stays as it is. -/
structure Extends (env env' : TypeEnvironment) : Prop where
  getTypeNode : ∀ {id : ℕ}, env.IsType id → env'.getTypeNode id = env.getTypeNode id
  isTrackedPairType : ∀ {id : ℕ}, env.IsType id →
    env'.isTrackedPairType id = env.isTrackedPairType id
  getSumMembers : ∀ {id : ℕ}, env.IsType id → env'.getSumMembers id = env.getSumMembers id
  subtypeCache : env'.subtypeCache = env.subtypeCache

variable {id x y : ℕ}

theorem Extends.isType (hext : Extends env env') (hid : env.IsType id) : env'.IsType id := by
  rw [TypeEnvironment.IsType, TypeEnvironment.isSumType, hext.getTypeNode hid,
    hext.isTrackedPairType hid, hext.getSumMembers hid]
  exact hid

theorem Extends.isSumType (hext : Extends env env') (hid : env.IsType id) :
    env'.isSumType id = env.isSumType id := by
  rw [TypeEnvironment.isSumType, TypeEnvironment.isSumType, hext.getSumMembers hid]

theorem Extends.arms (hext : Extends env env') {members : List ℕ}
    (harms : ∀ arm ∈ members, env.IsType arm ∧ env.isSumType arm = false) :
    ∀ arm ∈ members, env'.IsType arm ∧ env'.isSumType arm = false := by
  intro arm harm
  obtain ⟨htype, hsum⟩ := harms arm harm
  exact ⟨hext.isType htype, by rw [hext.isSumType htype, hsum]⟩

theorem Extends.registered (hext : Extends env env') {node : Option ℕ}
    (h : ∀ t ∈ node, t < id ∧ (env.getTypeNode t).isSome) :
    ∀ t ∈ node, t < id ∧ (env'.getTypeNode t).isSome := by
  intro t ht
  obtain ⟨hlt, hreg⟩ := h t ht
  exact ⟨hlt, by rwa [hext.getTypeNode (.inl hreg)]⟩

theorem Extends.below_iff (hext : Extends env env') (h : env.Structured) (hx : env.IsType x)
    (hy : env.IsType y) : env'.Below x y ↔ env.Below x y := by
  refine covers_congr (K := env.IsType) (fun id hid => ?_) (fun id p hid hp => ?_)
    (fun id hid => ?_) (fun id hid arm harm => ?_) hx hy
  · rw [TypeEnvironment.parent, TypeEnvironment.parent, hext.isTrackedPairType hid,
      hext.getTypeNode hid]
  · exact .inl (h.parent_spec hp).2
  · rw [TypeEnvironment.arms, TypeEnvironment.arms, hext.getSumMembers hid]
  · cases hsum : env.getSumMembers id with
    | none =>
      rw [TypeEnvironment.arms, hsum] at harm
      obtain rfl := List.mem_singleton.mp harm
      exact hid
    | some members =>
      rw [TypeEnvironment.arms, hsum] at harm
      exact ((h.sums hsum).2.2 arm harm).1

theorem Extends.right (hext : Extends env env') (h : env.Structured)
    (hright : env.Right env.subtypeCache) : env'.Right env'.subtypeCache := by
  intro sub super below hlookup
  rw [hext.subtypeCache] at hlookup
  obtain ⟨hsub, hsuper, hbelow⟩ := hright sub super below hlookup
  exact ⟨hext.isType hsub, hext.isType hsuper, hbelow.trans (hext.below_iff h hsub hsuper).symm⟩

theorem lookup_concat {A : Type} (l : List (ℕ × A)) {new : ℕ} (hne : id ≠ new) (a : A) :
    (l ++ [(new, a)]).lookup id = l.lookup id := by
  have hbeq : (id == new) = false := by simpa using hne
  rw [List.lookup_append]
  simp [List.lookup_cons, hbeq]

theorem lookup_concat_eq_some {A : Type} {l : List (ℕ × A)} {new : ℕ} {a b : A}
    (h : (l ++ [(new, a)]).lookup id = some b) : l.lookup id = some b ∨ id = new ∧ b = a := by
  by_cases heq : id = new
  · subst heq
    rw [List.lookup_append, Option.or_eq_some_iff] at h
    rcases h with h | ⟨-, h⟩
    · exact .inl h
    · exact .inr ⟨rfl, by simpa using h.symm⟩
  · rw [lookup_concat l heq] at h
    exact .inl h

theorem TypeEnvironment.Structured.fresh (h : env.Structured) (hid : env.IsType id) :
    (env.nextUserId < 60000 → id ≠ env.nextUserId) ∧
      (env.nextPairTypeId < 500 → id ≠ env.nextPairTypeId) ∧ id ≠ env.nextSumTypeId := by
  have huser := h.user_range
  have hpair := h.pair_range
  have hsum := h.sum_range
  rcases hid with hid | hid | hid | hid
  · obtain ⟨node, hnode⟩ := Option.isSome_iff_exists.mp hid
    have := (h.registered hnode).1
    omega
  · have := h.pairs hid
    omega
  · obtain ⟨members, hmembers⟩ := Option.isSome_iff_exists.mp hid
    have := h.sums hmembers
    omega
  · omega

section

variable (h : env.Structured)
include h

theorem extends_user (hroom : env.nextUserId < 60000) (supertype : Option ℕ) :
    Extends env (env.registerUserType supertype).2 :=
  ⟨fun hid => lookup_concat _ ((h.fresh hid).1 hroom) _, fun _ => rfl, fun _ => rfl, rfl⟩

theorem structured_user (hroom : env.nextUserId < 60000) {supertype : Option ℕ}
    (hsupertype : ∀ t ∈ supertype, (env.getTypeNode t).isSome) :
    (env.registerUserType supertype).2.Structured := by
  have hext := extends_user h hroom supertype
  have huser := h.user_range
  refine ⟨?_, h.pair_range, h.sum_range, fun {id node} hnode => ?_, h.pairs, fun hm => ?_, ?_⟩
  · change 1000 ≤ env.nextUserId + 1 ∧ env.nextUserId + 1 ≤ 60000
    omega
  · change (id < 300 ∨ 1000 ≤ id ∧ id < env.nextUserId + 1) ∧ _
    rcases lookup_concat_eq_some hnode with hold | ⟨rfl, rfl⟩
    · obtain ⟨hrange, hparent⟩ := h.registered hold
      exact ⟨by omega, hext.registered hparent⟩
    · refine ⟨by omega, hext.registered fun t ht => ⟨?_, hsupertype t ht⟩⟩
      obtain ⟨node', hnode'⟩ := Option.isSome_iff_exists.mp (hsupertype t ht)
      have := (h.registered hnode').1
      omega
  · obtain ⟨hlow, hhigh, harms⟩ := h.sums hm
    exact ⟨hlow, hhigh, hext.arms harms⟩
  · rw [hext.getTypeNode h.isType_pair, h.pair_root]

theorem grows_pair (hroom : env.nextPairTypeId < 500) (carType cdrType : ℕ) :
    Extends env (env.makePairType carType cdrType).2 ∧
      (env.makePairType carType cdrType).2.Structured := by
  unfold TypeEnvironment.makePairType
  split
  next => exact ⟨⟨fun _ => rfl, fun _ => rfl, fun _ => rfl, rfl⟩, h⟩
  next =>
    have hpair := h.pair_range
    have hext : Extends env { env with
        pairElementCache := env.pairElementCache ++ [(env.nextPairTypeId, carType, cdrType)]
        nextPairTypeId := env.nextPairTypeId + 1 } := by
      refine ⟨fun _ => rfl, fun hid => ?_, fun _ => rfl, rfl⟩
      exact congrArg Option.isSome (lookup_concat _ ((h.fresh hid).2.1 hroom) _)
    refine ⟨hext, h.user_range, ?_, h.sum_range, h.registered, fun {id} hid => ?_, fun hm => ?_,
      h.pair_root⟩
    · change 300 ≤ env.nextPairTypeId + 1 ∧ env.nextPairTypeId + 1 ≤ 500
      omega
    · change 300 ≤ id ∧ id < env.nextPairTypeId + 1
      obtain ⟨elements, helements⟩ := Option.isSome_iff_exists.mp hid
      rcases lookup_concat_eq_some helements with hold | ⟨rfl, -⟩
      · have hpair : env.isTrackedPairType id = true := by
          rw [TypeEnvironment.isTrackedPairType, hold]
          rfl
        have := h.pairs hpair
        omega
      · omega
    · obtain ⟨hlow, hhigh, harms⟩ := h.sums hm
      exact ⟨hlow, hhigh, hext.arms harms⟩

theorem flatten_spec {calls : ℕ} {ms arms out : List ℕ}
    (hflatten : env.flatten calls ms arms = .ok out) (hms : ∀ m ∈ ms, env.IsType m)
    (harms : ∀ arm ∈ arms, env.IsType arm ∧ env.isSumType arm = false) :
    ∀ arm ∈ out, env.IsType arm ∧ env.isSumType arm = false := by
  induction calls generalizing ms arms out with
  | zero => cases hflatten
  | succ calls ih =>
    cases ms with
    | nil =>
      obtain rfl := Except.ok.inj hflatten
      exact harms
    | cons m ms =>
      have hrest := fun m' hm' => hms m' (List.mem_cons_of_mem _ hm')
      rw [TypeEnvironment.flatten] at hflatten
      cases hm : env.getSumMembers m with
      | some nested =>
        rw [hm] at hflatten
        obtain ⟨arms', harms', hflatten⟩ := bind_eq_ok.mp hflatten
        refine ih hflatten hrest (ih harms' (fun arm harm => ?_) harms)
        exact ((h.sums hm).2.2 arm harm).1
      | none =>
        rw [hm] at hflatten
        refine ih hflatten hrest fun arm harm => ?_
        split at harm
        next => exact harms arm harm
        next =>
          rcases List.mem_append.mp harm with harm | harm
          · exact harms arm harm
          · obtain rfl := List.mem_singleton.mp harm
            exact ⟨hms arm List.mem_cons_self, by rw [TypeEnvironment.isSumType, hm]; rfl⟩

theorem grows_sum {calls id : ℕ} {members : List ℕ} (hmembers : ∀ m ∈ members, env.IsType m)
    (hmake : env.makeSumType calls members = .ok (id, env')) :
    Extends env env' ∧ env'.Structured := by
  have hsame : Extends env env ∧ env.Structured :=
    ⟨⟨fun _ => rfl, fun _ => rfl, fun _ => rfl, rfl⟩, h⟩
  obtain ⟨arms, hflatten, hmake⟩ := bind_eq_ok.mp hmake
  have harms := flatten_spec h hflatten hmembers (by simp)
  split at hmake
  next =>
    obtain ⟨-, rfl⟩ := Prod.mk.inj (Except.ok.inj hmake)
    exact hsame
  next =>
    obtain ⟨-, rfl⟩ := Prod.mk.inj (Except.ok.inj hmake)
    exact hsame
  next =>
    split at hmake
    next =>
      obtain ⟨-, rfl⟩ := Prod.mk.inj (Except.ok.inj hmake)
      exact hsame
    next =>
      obtain ⟨-, rfl⟩ := Prod.mk.inj (Except.ok.inj hmake)
      have hext : Extends env { env with
          sumMemberCache := env.sumMemberCache ++ [(env.nextSumTypeId, arms)]
          nextSumTypeId := env.nextSumTypeId + 1 } := by
        refine ⟨fun _ => rfl, fun _ => rfl, fun hid => ?_, rfl⟩
        exact lookup_concat _ (h.fresh hid).2.2 _
      have hsum := h.sum_range
      refine ⟨hext, h.user_range, h.pair_range, ?_, h.registered, h.pairs,
        fun {id members} hm => ?_, h.pair_root⟩
      · change 60000 ≤ env.nextSumTypeId + 1
        omega
      · change 60000 ≤ id ∧ id < env.nextSumTypeId + 1 ∧ _
        rcases lookup_concat_eq_some hm with hold | ⟨rfl, rfl⟩
        · obtain ⟨hlow, hhigh, hold⟩ := h.sums hold
          exact ⟨hlow, by omega, hext.arms hold⟩
        · exact ⟨by omega, by omega, hext.arms harms⟩

end

/-! ### Reachable environments -/

theorem builtinTypes_spec : ∀ entry ∈ builtinTypes, entry.1 < 300 ∧
    ∀ t ∈ entry.2, t < entry.1 ∧ (builtinTypes.lookup t).isSome := by
  decide

theorem structured_initial : initialEnvironment.Structured := by
  refine ⟨⟨le_rfl, by decide⟩, ⟨le_rfl, by decide⟩, le_rfl, fun {id node} hnode => ?_,
    fun hid => (by cases hid), fun hm => (by cases hm), rfl⟩
  obtain ⟨before, after, hlist, -⟩ := List.lookup_eq_some_iff.mp hnode
  have hmem : (id, node) ∈ builtinTypes := by
    change initialEnvironment.types = _ at hlist
    rw [show builtinTypes = initialEnvironment.types from rfl, hlist]
    simp
  obtain ⟨hrange, hparent⟩ := builtinTypes_spec _ hmem
  exact ⟨.inl hrange, hparent⟩

theorem Reachable.invariant (h : Reachable env) : env.Structured ∧ env.Right env.subtypeCache := by
  induction h with
  | initial => exact ⟨structured_initial, fun _ _ _ hlookup => by cases hlookup⟩
  | user _ hsupertype hroom ih =>
    exact ⟨structured_user ih.1 hroom hsupertype, (extends_user ih.1 hroom _).right ih.1 ih.2⟩
  | pair _ hroom ih =>
    obtain ⟨hext, hstructured⟩ := grows_pair ih.1 hroom _ _
    exact ⟨hstructured, hext.right ih.1 ih.2⟩
  | sum _ hmembers hroom hmake ih =>
    obtain ⟨calls, hcalls⟩ := hmake
    obtain ⟨hext, hstructured⟩ := grows_sum ih.1 hmembers (hcalls calls le_rfl)
    exact ⟨hstructured, hext.right ih.1 ih.2⟩
  | @query env sub super below cache _ hsub hsuper hask ih =>
    obtain ⟨hstructured, hright⟩ := ih
    refine ⟨⟨hstructured.user_range, hstructured.pair_range, hstructured.sum_range,
      hstructured.registered, hstructured.pairs, hstructured.sums, hstructured.pair_root⟩, ?_⟩
    obtain ⟨n, hn⟩ := eventually_atTop.mp (hstructured.isSubtype_answers hsub hsuper)
    obtain ⟨m, hm⟩ := hask
    obtain ⟨below', cache', hok, -, hright'⟩ := hn (max n m) (le_max_left n m) _ hright
    have heq := Except.ok.inj ((hm (max n m) (le_max_right n m)).symm.trans hok)
    rw [(Prod.mk.inj heq).2]
    exact hright'

/-- `isSubtype` answers yes. -/
def IsSub (env : TypeEnvironment) (x y : ℕ) : Prop :=
  ∃ cache, Machine.Yields (fun calls => env.isSubtype calls env.subtypeCache x y) (true, cache)

theorem Reachable.isSub_iff (h : Reachable env) (hx : env.IsType x) (hy : env.IsType y) :
    IsSub env x y ↔ env.Below x y := by
  obtain ⟨hstructured, hright⟩ := h.invariant
  obtain ⟨n, hn⟩ := eventually_atTop.mp (hstructured.isSubtype_answers hx hy)
  constructor
  · rintro ⟨cache, m, hm⟩
    obtain ⟨below, cache', hok, hbelow, -⟩ := hn (max n m) (le_max_left n m) _ hright
    have heq := Except.ok.inj ((hm (max n m) (le_max_right n m)).symm.trans hok)
    exact hbelow.mp (Prod.mk.inj heq).1.symm
  · intro hxy
    obtain ⟨below, cache, hok, hbelow, -⟩ := hn n le_rfl _ hright
    obtain rfl : below = true := hbelow.mpr hxy
    refine ⟨cache, n, fun calls hcalls => ?_⟩
    obtain ⟨more, rfl⟩ := Nat.exists_eq_add_of_le hcalls
    exact TypeEnvironment.isSubtype_add hok more

/-- What `leastCommonSupertype` should return: a common supertype below every other, and the
greater of two types of which one is below the other. -/
structure IsLeastCommon (env : TypeEnvironment) (a b : ℕ) (out : Option ℕ) : Prop where
  upper : ∀ c ∈ out, IsSub env a c ∧ IsSub env b c
  least : ∀ c ∈ out, ∀ d, env.IsType d → IsSub env a d → IsSub env b d → IsSub env c d
  greater : IsSub env a b → ∃ c ∈ out, IsSub env c b ∧ IsSub env b c

theorem TypeEnvironment.Structured.leastCommonSupertype_spec (h : env.Structured) {a b : ℕ}
    {la lb : List ℕ} (ha : Chain env.parent a la) (hb : Chain env.parent b lb) :
    Machine.Yields (fun calls => env.leastCommonSupertype calls a b)
      (if a = b then some a else la.find? (· ∈ lb)) := by
  refine ⟨la.length + lb.length + 1, fun calls hcalls => ?_⟩
  change env.leastCommonSupertype calls a b = _
  rw [TypeEnvironment.leastCommonSupertype]
  split
  next => rfl
  next =>
    rw [h.getSupertypeChain_spec ha (by omega), ok_bind, h.getSupertypeChain_spec hb (by omega),
      ok_bind]

/-- The same in terms of the order of the types. -/
structure LeastCommon (env : TypeEnvironment) (a b : ℕ) (out : Option ℕ) : Prop where
  upper : ∀ c ∈ out, env.Below a c ∧ env.Below b c
  least : ∀ c ∈ out, ∀ d, env.IsType d → env.Below a d → env.Below b d → env.Below c d
  greater : env.Below a b → ∃ c ∈ out, env.Below c b ∧ env.Below b c

section

variable {a b : ℕ} {la lb : List ℕ} (h : env.Structured) (ha : Chain env.parent a la)
  (hb : Chain env.parent b lb)
include h ha hb

theorem find_common_of_sum (hne : a ≠ b)
    (hsum : env.isSumType a = true ∨ env.isSumType b = true) :
    la.find? (· ∈ lb) = none := by
  rw [List.find?_eq_none]
  intro c hc hc'
  have hac : Above env.parent a c := ha.above_iff.mpr hc
  have hbc : Above env.parent b c := hb.above_iff.mpr (by simpa using hc')
  -- above a sum there is nothing but itself, and a sum is above nothing but itself
  have hroot {x y : ℕ} (hx : env.isSumType x = true) (hxy : Above env.parent x y) : y = x := by
    rw [(Chain.root (h.parent_of_sum hx)).above_iff] at hxy
    exact List.mem_singleton.mp hxy
  have habove {x y : ℕ} (hy : env.isSumType y = true) (hxy : Above env.parent x y) : y = x := by
    by_contra hyx
    rw [h.not_sum_of_above hxy hyx] at hy
    simp at hy
  rcases hsum with hs | hs
  · obtain rfl := hroot hs hac
    exact hne (habove hs hbc)
  · obtain rfl := hroot hs hbc
    exact hne (habove hs hac).symm

/-- For two types that are no sums, the first common element of the chains is below every common
supertype, but for sums that cover the two by different arms. -/
theorem leastCommon_simple_iff (has : env.isSumType a = false) (hbs : env.isSumType b = false) :
    LeastCommon env a b (la.find? (· ∈ lb)) ↔
      ∀ d members, env.getSumMembers d = some members → env.Below a d → env.Below b d →
        (∃ arm ∈ members, env.Below a arm ∧ env.Below b arm) ∨
          ¬ ∃ c, env.isSumType c = false ∧ env.Below a c ∧ env.Below b c := by
  obtain ⟨hnone, hsome⟩ := ha.find_common hb
  have habove {x y : ℕ} (hx : env.isSumType x = false) (hy : env.isSumType y = false) :=
    TypeEnvironment.Structured.below_iff_above hx hy
  cases hfind : la.find? (· ∈ lb) with
  | none =>
    have hno : ¬ ∃ c, env.isSumType c = false ∧ env.Below a c ∧ env.Below b c := by
      rintro ⟨c, hc, hac, hbc⟩
      exact hnone hfind c ((habove has hc).mp hac) ((habove hbs hc).mp hbc)
    refine iff_of_true ⟨by simp, by simp, fun hab => ?_⟩ fun _ _ _ _ _ => .inr hno
    exact absurd ⟨b, hbs, hab, h.below_refl b⟩ hno
  | some c =>
    obtain ⟨hac, hbc, hleast⟩ := hsome c hfind
    have hcs : env.isSumType c = false := by
      by_cases hca : c = a
      · rw [hca, has]
      · exact h.not_sum_of_above hac hca
    have hac' := (habove has hcs).mpr hac
    have hbc' := (habove hbs hcs).mpr hbc
    constructor
    · intro hlc d members hd had hbd
      left
      have hcd := hlc.least c rfl d (.inr (.inr (.inl (by
        rw [TypeEnvironment.isSumType, hd]; rfl)))) had hbd
      obtain ⟨arm, harm, hcarm⟩ := (h.below_sum_iff hcs hd).mp hcd
      exact ⟨arm, harm, hac'.trans hcarm, hbc'.trans hcarm⟩
    · intro hsums
      have hcover {d : ℕ} (hd : env.isSumType d = false) (had : env.Below a d)
          (hbd : env.Below b d) : env.Below c d :=
        (habove hcs hd).mpr (hleast d ((habove has hd).mp had) ((habove hbs hd).mp hbd))
      refine ⟨fun c' hc' => ?_, fun c' hc' d _ had hbd => ?_, fun hab => ⟨c, rfl, ?_, hbc'⟩⟩
      · obtain rfl := Option.some.inj hc'
        exact ⟨hac', hbc'⟩
      · obtain rfl := Option.some.inj hc'
        cases hd : env.getSumMembers d with
        | none => exact hcover (by rw [TypeEnvironment.isSumType, hd]; rfl) had hbd
        | some members =>
          rcases hsums d members hd had hbd with ⟨arm, harm, haarm, hbarm⟩ | hno
          · exact h.below_of_arm hd harm (hcover ((h.sums hd).2.2 arm harm).2 haarm hbarm)
          · exact absurd ⟨c, hcs, hac', hbc'⟩ hno
      · exact hcover hbs hab (h.below_refl b)

theorem leastCommon_sum_iff (hne : a ≠ b)
    (hsum : env.isSumType a = true ∨ env.isSumType b = true) :
    LeastCommon env a b (la.find? (· ∈ lb)) ↔ ¬ env.Below a b := by
  rw [find_common_of_sum h ha hb hne hsum]
  constructor
  · intro hlc hab
    obtain ⟨c, hc, -⟩ := hlc.greater hab
    cases hc
  · exact fun hab => ⟨by simp, by simp, fun hab' => absurd hab' hab⟩

end

theorem TypeEnvironment.Structured.isType_of_above (h : env.Structured) (hx : env.IsType x)
    (hxy : Above env.parent x y) : env.IsType y := by
  rcases hxy.eq_or_parent with rfl | ⟨u, hu⟩
  · exact hx
  · exact .inl (h.parent_spec hu).2

theorem Reachable.isLeastCommon_iff (h : Reachable env) {a b : ℕ} (ha : env.IsType a)
    (hb : env.IsType b) {out : Option ℕ} (hout : ∀ c ∈ out, env.IsType c) :
    IsLeastCommon env a b out ↔ LeastCommon env a b out := by
  have hsub {x y : ℕ} (hx : env.IsType x) (hy : env.IsType y) := h.isSub_iff hx hy
  constructor
  · rintro ⟨hupper, hleast, hgreater⟩
    refine ⟨fun c hc => ?_, fun c hc d hd had hbd => ?_, fun hab => ?_⟩
    · rw [← hsub ha (hout c hc), ← hsub hb (hout c hc)]
      exact hupper c hc
    · rw [← hsub (hout c hc) hd]
      exact hleast c hc d hd ((hsub ha hd).mpr had) ((hsub hb hd).mpr hbd)
    · obtain ⟨c, hc, hcb, hbc⟩ := hgreater ((hsub ha hb).mpr hab)
      exact ⟨c, hc, (hsub (hout c hc) hb).mp hcb, (hsub hb (hout c hc)).mp hbc⟩
  · rintro ⟨hupper, hleast, hgreater⟩
    refine ⟨fun c hc => ?_, fun c hc d hd had hbd => ?_, fun hab => ?_⟩
    · rw [hsub ha (hout c hc), hsub hb (hout c hc)]
      exact hupper c hc
    · rw [hsub (hout c hc) hd]
      exact hleast c hc d hd ((hsub ha hd).mp had) ((hsub hb hd).mp hbd)
    · obtain ⟨c, hc, hcb, hbc⟩ := hgreater ((hsub ha hb).mp hab)
      exact ⟨c, hc, (hsub (hout c hc) hb).mpr hcb, (hsub hb (hout c hc)).mpr hbc⟩

/-- The condition on common supertypes, by what lies below what. -/
theorem Reachable.covered_iff (h : Reachable env) {a b : ℕ} (ha : env.IsType a)
    (hb : env.IsType b) (has : env.isSumType a = false) :
    (∀ d members, env.getSumMembers d = some members → IsSub env a d → IsSub env b d →
      (∃ arm ∈ members, IsSub env a arm ∧ IsSub env b arm) ∨
        ¬ ∃ c, env.IsType c ∧ env.isSumType c = false ∧ IsSub env a c ∧ IsSub env b c) ↔
    ∀ d members, env.getSumMembers d = some members → env.Below a d → env.Below b d →
      (∃ arm ∈ members, env.Below a arm ∧ env.Below b arm) ∨
        ¬ ∃ c, env.isSumType c = false ∧ env.Below a c ∧ env.Below b c := by
  have hstructured := h.invariant.1
  have hcommon : (∃ c, env.IsType c ∧ env.isSumType c = false ∧ IsSub env a c ∧ IsSub env b c) ↔
      ∃ c, env.isSumType c = false ∧ env.Below a c ∧ env.Below b c := by
    refine exists_congr fun c => ⟨?_, ?_⟩
    · rintro ⟨hc, hcs, hac, hbc⟩
      exact ⟨hcs, (h.isSub_iff ha hc).mp hac, (h.isSub_iff hb hc).mp hbc⟩
    · rintro ⟨hcs, hac, hbc⟩
      have hc := hstructured.isType_of_above ha
        ((TypeEnvironment.Structured.below_iff_above has hcs).mp hac)
      exact ⟨hc, hcs, (h.isSub_iff ha hc).mpr hac, (h.isSub_iff hb hc).mpr hbc⟩
  refine forall_congr' fun d => forall₂_congr fun members hd => ?_
  have hd' : env.IsType d := .inr (.inr (.inl (by rw [TypeEnvironment.isSumType, hd]; rfl)))
  have harms : (∃ arm ∈ members, IsSub env a arm ∧ IsSub env b arm) ↔
      ∃ arm ∈ members, env.Below a arm ∧ env.Below b arm := by
    refine exists_congr fun arm => and_congr_right fun harm => ?_
    have harm' := ((hstructured.sums hd).2.2 arm harm).1
    rw [h.isSub_iff ha harm', h.isSub_iff hb harm']
  rw [h.isSub_iff ha hd', h.isSub_iff hb hd', hcommon, harms]

/-- **The least common supertype** is a common supertype below every other one, and the greater of
two types of which one is below the other, if and only if: the types are the same; or one is a sum
and the first is not below the second; or neither is a sum, and every sum that both are below has
an arm that both are below, unless the two share no supertype that is no sum. -/
theorem leastCommonSupertype_iff (h : Reachable env) {a b : ℕ} (ha : env.IsType a)
    (hb : env.IsType b) :
    (∃ out, Machine.Yields (fun calls => env.leastCommonSupertype calls a b) out ∧
      IsLeastCommon env a b out) ↔
    a = b ∨ (env.isSumType a = true ∨ env.isSumType b = true) ∧ ¬ IsSub env a b ∨
      env.isSumType a = false ∧ env.isSumType b = false ∧
        ∀ d members, env.getSumMembers d = some members → IsSub env a d → IsSub env b d →
          (∃ arm ∈ members, IsSub env a arm ∧ IsSub env b arm) ∨
            ¬ ∃ c, env.IsType c ∧ env.isSumType c = false ∧ IsSub env a c ∧ IsSub env b c := by
  have hstructured := h.invariant.1
  obtain ⟨la, hla⟩ := hstructured.rooted a
  obtain ⟨lb, hlb⟩ := hstructured.rooted b
  have hyields := hstructured.leastCommonSupertype_spec hla hlb
  have hout : ∀ c ∈ (if a = b then some a else la.find? (· ∈ lb)), env.IsType c := by
    intro c hc
    split at hc
    next =>
      obtain rfl := Option.some.inj hc
      exact ha
    next => exact hstructured.isType_of_above ha (hla.above_iff.mpr (List.mem_of_find?_eq_some hc))
  have hexists : (∃ out, Machine.Yields (fun calls => env.leastCommonSupertype calls a b) out ∧
      IsLeastCommon env a b out) ↔
        LeastCommon env a b (if a = b then some a else la.find? (· ∈ lb)) := by
    rw [← h.isLeastCommon_iff ha hb hout]
    constructor
    · rintro ⟨out, hout', hlc⟩
      rwa [hout'.unique hyields] at hlc
    · exact fun hlc => ⟨_, hyields, hlc⟩
  rw [hexists]
  by_cases hne : a = b
  · rw [if_pos hne]
    refine iff_of_true ⟨fun c hc => ?_, fun c hc d _ had _ => ?_, fun _ => ⟨a, rfl, ?_, ?_⟩⟩
      (.inl hne)
    · obtain rfl := Option.some.inj hc
      exact ⟨hstructured.below_refl a, hne ▸ hstructured.below_refl a⟩
    · obtain rfl := Option.some.inj hc
      exact had
    · exact hne ▸ hstructured.below_refl a
    · exact hne ▸ hstructured.below_refl a
  · rw [if_neg hne, or_iff_right hne, h.isSub_iff ha hb]
    by_cases hsum : env.isSumType a = true ∨ env.isSumType b = true
    · rw [leastCommon_sum_iff hstructured hla hlb hne hsum]
      constructor
      · exact fun hab => .inl ⟨hsum, hab⟩
      · rintro (⟨-, hab⟩ | ⟨has, hbs, -⟩)
        · exact hab
        · simp [has, hbs] at hsum
    · obtain ⟨has, hbs⟩ := not_or.mp hsum
      rw [Bool.not_eq_true] at has hbs
      rw [leastCommon_simple_iff hstructured hla hlb has hbs, ← h.covered_iff ha hb has]
      simp [has, hbs]

/-- The environment with the sum of `Int64` and `String`. -/
def sumEnvironment : TypeEnvironment :=
  { initialEnvironment with sumMemberCache := [(60000, [13, 21])], nextSumTypeId := 60001 }

theorem reachable_sumEnvironment : Reachable sumEnvironment := by
  have hmake : Machine.Yields (fun calls => initialEnvironment.makeSumType calls [13, 21])
      (60000, sumEnvironment) := by
    refine ⟨3, fun calls hcalls => ?_⟩
    obtain ⟨k, rfl⟩ := Nat.exists_eq_add_of_le' hcalls
    rfl
  refine .sum .initial (fun m hm => ?_) (by decide) hmake
  rcases List.mem_pair.mp hm with rfl | rfl
  · exact .inl rfl
  · exact .inl rfl

/-- `Int64` and `Float64`, of which only the first is below the sum. -/
theorem leastCommonSupertype_iff_number :
    Reachable sumEnvironment ∧
      ∃ out, Machine.Yields (fun calls => sumEnvironment.leastCommonSupertype calls 13 16) out ∧
        IsLeastCommon sumEnvironment 13 16 out := by
  refine ⟨reachable_sumEnvironment,
    (leastCommonSupertype_iff reachable_sumEnvironment (.inl rfl) (.inl rfl)).mpr ?_⟩
  refine .inr (.inr ⟨rfl, rfl, fun d members hd _ hb => ?_⟩)
  obtain rfl : d = 60000 := by
    by_contra hne
    have hnone : sumEnvironment.getSumMembers d = none := by
      simpa [TypeEnvironment.getSumMembers, sumEnvironment] using hne
    rw [hnone] at hd
    cases hd
  obtain ⟨cache, hb⟩ := hb
  have hnot : Machine.Yields (fun calls => sumEnvironment.isSubtype calls [] 16 60000)
      (false, [((16, 60000), false), ((16, 21), false), ((16, 13), false)]) := by
    refine ⟨6, fun calls hcalls => ?_⟩
    obtain ⟨k, rfl⟩ := Nat.exists_eq_add_of_le' hcalls
    rfl
  cases hb.unique hnot

/-- `Int64` is below the sum of `Int64` and `String`, but nothing is found for the two. -/
theorem leastCommonSupertype_sum :
    Reachable sumEnvironment ∧ sumEnvironment.IsType 13 ∧ sumEnvironment.IsType 60000 ∧
    IsSub sumEnvironment 13 60000 ∧
    Machine.Yields (fun calls => sumEnvironment.leastCommonSupertype calls 13 60000) none ∧
    ¬ ∃ out, Machine.Yields (fun calls => sumEnvironment.leastCommonSupertype calls 13 60000) out ∧
      IsLeastCommon sumEnvironment 13 60000 out := by
  have hsub : IsSub sumEnvironment 13 60000 := by
    refine ⟨[((13, 60000), true), ((13, 13), true)], 2, fun calls hcalls => ?_⟩
    obtain ⟨k, rfl⟩ := Nat.exists_eq_add_of_le' hcalls
    rfl
  have hnone : Machine.Yields (fun calls => sumEnvironment.leastCommonSupertype calls 13 60000)
      none := by
    refine ⟨6, fun calls hcalls => ?_⟩
    obtain ⟨k, rfl⟩ := Nat.exists_eq_add_of_le' hcalls
    rfl
  refine ⟨reachable_sumEnvironment, .inl rfl, .inr (.inr (.inl rfl)), hsub, hnone, ?_⟩
  rintro ⟨out, hout, hlc⟩
  obtain ⟨c, hc, -⟩ := hlc.greater hsub
  rw [hout.unique hnone] at hc
  cases hc

end Eshkol.Types
