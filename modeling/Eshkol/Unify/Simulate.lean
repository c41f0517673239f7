import Eshkol.Unify.Correct

/-!
# Engines that Mirror Each Other

Two engines may represent the same terms differently: other types of values and labels, other
names of variables, other spellings. `Mirrors` says that related values look alike, are equal
alike and have related arguments. The calls of the one engine are then calls of the other, and
return related bindings. The second engine may look for occurrences in more levels than the
first one, if the first one misses none.
-/

namespace Unify

open Machine

variable {T V L T' V' L' F : Type}

/-- Values that look alike, given related arguments and labels. -/
inductive SameShape (ρ : V → V') (A : T → T' → Prop) (R : L → L' → Prop) :
    Shape T V L → Shape T' V' L' → Prop
  | var (v : V) : SameShape ρ A R (.var v) (.var (ρ v))
  | compound {l : L} {l' : L'} {args : List T} {args' : List T'} (hl : R l l')
      (h : List.Forall₂ A args args') : SameShape ρ A R (.compound l args) (.compound l' args')
  | atom : SameShape ρ A R .atom .atom

/-- Steps that are alike. -/
inductive SameNext (ρ : V → V') (A B : T → T' → Prop) : Next T V → Next T' V' → Prop
  | done : SameNext ρ A B .done .done
  | bind (v : V) {t : T} {t' : T'} (h : B t t') : SameNext ρ A B (.bind v t) (.bind (ρ v) t')
  | descend {as bs : List T} {as' bs' : List T'} (has : List.Forall₂ A as as')
      (hbs : List.Forall₂ A bs bs') : SameNext ρ A B (.descend as bs) (.descend as' bs')
  | clash : SameNext ρ A B .clash .clash

/-- The values that two engines come to are related: canonical ones by `B`, and others if their
canonical ones are. -/
structure Mirrors (E : Engine T V L) (E' : Engine T' V' L') (ρ : V → V') (B : T → T' → Prop)
    (R : L → L' → Prop) : Prop where
  injective : Function.Injective ρ
  canonical : ∀ {t t'}, B t t' → E.canonical t = t ∧ E'.canonical t' = t'
  shape : ∀ {t t'}, B t t' →
    SameShape ρ (fun a a' => B (E.canonical a) (E'.canonical a')) R (E.shape t) (E'.shape t')
  equal : ∀ {t t' u u'}, B t t' → B u u' → E.equal t u = E'.equal t' u'
  sameLabel : ∀ {l l' m m'}, R l l' → R m m' → E.sameLabel l m = E'.sameLabel l' m'

/-- Bindings of related variables to related values, in the same order. -/
def Paired (ρ : V → V') (B : T → T' → Prop) (s : List (V × T)) (s' : List (V' × T')) : Prop :=
  List.Forall₂ (fun b b' => b'.1 = ρ b.1 ∧ B b.2 b'.2) s s'

theorem Paired.append {ρ : V → V'} {B : T → T' → Prop} {s : List (V × T)} {s' : List (V' × T')}
    (h : Paired ρ B s s') (v : V) {t : T} {t' : T'} (ht : B t t') :
    Paired ρ B (s ++ [(v, t)]) (s' ++ [(ρ v, t')]) := by
  induction h with
  | nil => exact .cons ⟨rfl, ht⟩ .nil
  | cons hb _ ih => exact .cons hb ih

theorem anyM_forall₂ {A : T → T' → Prop} {p : T → Exec Unit Bool} {q : T' → Exec Unit Bool}
    {as : List T} {bs : List T'} (h : List.Forall₂ A as bs)
    (hpq : ∀ a b x, A a b → p a = .ok x → q b = .ok x) {x : Bool}
    (hx : Engine.anyM p as = .ok x) : Engine.anyM q bs = .ok x := by
  induction h with
  | nil => exact hx
  | cons hab _ ih =>
    rw [Engine.anyM] at hx ⊢
    obtain ⟨y, hy, hx⟩ := bind_eq_ok.mp hx
    rw [hpq _ _ y hab hy, ok_bind]
    cases y with
    | true => exact hx
    | false => exact ih hx

variable [DecidableEq V] [DecidableEq V']

theorem Paired.lookup {ρ : V → V'} {B : T → T' → Prop} (hρ : Function.Injective ρ)
    {s : List (V × T)} {s' : List (V' × T')} (h : Paired ρ B s s') (v : V) :
    (s.lookup v = none ∧ s'.lookup (ρ v) = none) ∨
      ∃ t t', s.lookup v = some t ∧ s'.lookup (ρ v) = some t' ∧ B t t' := by
  induction h with
  | nil => exact .inl ⟨rfl, rfl⟩
  | @cons b b' s s' hb _ ih =>
    obtain ⟨w, t⟩ := b
    obtain ⟨w', t'⟩ := b'
    obtain ⟨hw, ht⟩ := hb
    change w' = ρ w at hw
    subst hw
    by_cases hv : v = w
    · subst hv
      exact .inr ⟨t, t', by simp, by simp, ht⟩
    · have hv' : ρ v ≠ ρ w := hρ.ne hv
      simpa [List.lookup_cons, beq_eq_false_iff_ne.mpr hv, beq_eq_false_iff_ne.mpr hv'] using ih

namespace Mirrors

variable {E : Engine T V L} {E' : Engine T' V' L'} {ρ : V → V'} {B : T → T' → Prop}
  {R : L → L' → Prop} (hM : Mirrors E E' ρ B R) {s : List (V × T)} {s' : List (V' × T')}

/-- Values whose canonical ones are related. -/
def Alike (E : Engine T V L) (E' : Engine T' V' L') (B : T → T' → Prop) (t : T) (t' : T') : Prop :=
  B (E.canonical t) (E'.canonical t')

include hM

omit [DecidableEq V] [DecidableEq V'] in
theorem alike {t : T} {t' : T'} (h : B t t') : Alike E E' B t t' := by
  obtain ⟨ht, ht'⟩ := hM.canonical h
  rw [Alike, ht, ht']
  exact h

theorem follow (hs : Paired ρ B s s') {n : ℕ} {t w : T} {t' : T'} (ht : B t t')
    (h : E.follow s n t = .ok w) : ∃ w', E'.follow s' n t' = .ok w' ∧ B w w' := by
  induction n generalizing t t' with
  | zero => cases h
  | succ n ih =>
    have hshape := hM.shape ht
    rw [Engine.follow] at h ⊢
    generalize E.shape t = a at h hshape
    generalize E'.shape t' = a' at hshape ⊢
    cases hshape with
    | var v =>
      rcases hs.lookup hM.injective v with ⟨hnone, hnone'⟩ | ⟨u, u', hu, hu', hB⟩
      · simp only [hnone] at h
        cases h
        exact ⟨t', by simp only [hnone'], ht⟩
      · simp only [hu] at h
        simp only [hu']
        exact ih hB h
    | compound =>
      cases h
      exact ⟨t', rfl, ht⟩
    | atom =>
      cases h
      exact ⟨t', rfl, ht⟩

theorem walk (hs : Paired ρ B s s') {t w : T} {t' : T'} (ht : Alike E E' B t t')
    (h : E.walk s t = .ok w) : ∃ w', E'.walk s' t' = .ok w' ∧ B w w' := by
  rw [Engine.walk, ← hs.length_eq]
  exact hM.follow hs ht h

omit [DecidableEq V] [DecidableEq V'] in
theorem next {w₁ w₂ : T} {w₁' w₂' : T'} (h₁ : B w₁ w₁') (h₂ : B w₂ w₂') :
    SameNext ρ (Alike E E' B) B (E.next w₁ w₂) (E'.next w₁' w₂') := by
  have hshape₁ := hM.shape h₁
  have hshape₂ := hM.shape h₂
  rw [Engine.next, Engine.next, ← hM.equal h₁ h₂]
  generalize E.shape w₁ = a₁ at hshape₁ ⊢
  generalize E'.shape w₁' = a₁' at hshape₁ ⊢
  generalize E.shape w₂ = a₂ at hshape₂ ⊢
  generalize E'.shape w₂' = a₂' at hshape₂ ⊢
  cases E.equal w₁ w₂ with
  | true => exact .done
  | false =>
    cases hshape₁ with
    | var v => exact .bind v h₂
    | atom =>
      cases hshape₂ with
      | var v => exact .bind v h₁
      | compound => exact .clash
      | atom => exact .clash
    | compound hl₁ has =>
      cases hshape₂ with
      | var v => exact .bind v h₁
      | atom => exact .clash
      | compound hl₂ hbs =>
        simp only [Bool.false_eq_true, if_false, hM.sameLabel hl₁ hl₂, has.length_eq, hbs.length_eq]
        split
        next => exact .descend has hbs
        next => exact .clash

theorem occursWithin (hs : Paired ρ B s s') {v : V} {k : ℕ} {t : T} {t' : T'} {b : Bool}
    (ht : Alike E E' B t t') (h : E.occursWithin s v k t = .ok b) :
    E'.occursWithin s' (ρ v) k t' = .ok b := by
  induction k generalizing t t' b with
  | zero => exact h
  | succ k ih =>
    rw [Engine.occursWithin] at h ⊢
    obtain ⟨w, hw, h⟩ := bind_eq_ok.mp h
    obtain ⟨w', hw', hB⟩ := hM.walk hs ht hw
    have hshape := hM.shape hB
    rw [hw', ok_bind]
    generalize E.shape w = a at h hshape
    generalize E'.shape w' = a' at hshape ⊢
    cases hshape with
    | var u =>
      rw [← h]
      simp only [hM.injective.eq_iff]
    | compound _ hargs => exact anyM_forall₂ hargs (fun a a' x ha hx => ih ha hx) h
    | atom => exact h

end Mirrors

/-! ### Occurs checks of different depths -/

namespace Semantics

variable {E : Engine T V L} {S : Semantics E F} {s : List (V × T)} {v : V} {t : T}

theorem occursWithin_mono (hacyclic : Acyclic (S.bindings s)) {k m : ℕ} (hkm : k ≤ m)
    (h : E.occursWithin s v k t = .ok true) : E.occursWithin s v m t = .ok true := by
  induction k generalizing t m with
  | zero => cases h
  | succ k ih =>
    obtain ⟨m, rfl⟩ := Nat.exists_eq_add_of_le' (Nat.one_le_of_lt hkm)
    rw [Engine.occursWithin] at h ⊢
    obtain ⟨w, hw, h⟩ := bind_eq_ok.mp h
    rw [hw, ok_bind]
    split at h
    next => exact h
    next l args _ =>
      obtain ⟨a, ha, hocc⟩ := anyM_eq_true h
      exact anyM_of_mem (fun a _ => occursWithin_total hacyclic m a) ha
        (ih (Nat.le_of_succ_le_succ hkm) hocc)
    next => cases h

theorem Caught.more_levels (hcaught : Caught S v t s) (hs : Settled E s)
    (hacyclic : Acyclic (S.bindings s)) (hfree : (S.bindings s).lookup v = none) {m : ℕ}
    (hm : E.levels ≤ m) {b : Bool} (h : E.occursWithin s v E.levels t = .ok b) :
    E.occursWithin s v m t = .ok b := by
  cases b with
  | true => exact occursWithin_mono hacyclic hm h
  | false =>
    obtain ⟨b, hb⟩ := occursWithin_total (v := v) hacyclic m t
    cases b with
    | false => exact hb
    | true =>
      obtain ⟨k, -, hocc⟩ := occursWithin_sound hs hfree hb
      have hfound := hcaught (occurs_iff_occursAt.mpr ⟨k, hocc⟩)
      rw [(occursWithin_iff hs hacyclic hfree).mpr hfound] at h
      cases h

end Semantics

/-! ### Calls -/

namespace Mirrors

open Semantics

variable {E : Engine T V L} {E' : Engine T' V' L'} {ρ : V → V'} {B : T → T' → Prop}
  {R : L → L' → Prop} {S : Semantics E F}

theorem unifyArgs {n : ℕ}
    (hstep : ∀ a a' b b' s s' r, Alike E E' B a a' → Alike E E' B b b' → Settled E s →
      Acyclic (S.bindings s) → Paired ρ B s s' → Checked S n a b s →
      E.unify n a b (some s) = .ok r →
      ∃ r', E'.unify n a' b' (some s') = .ok r' ∧ Option.Rel (Paired ρ B) r r')
    {as bs : List T} {as' bs' : List T'} {s : List (V × T)} {s' : List (V' × T')}
    {r : Option (List (V × T))} (has : List.Forall₂ (Alike E E' B) as as')
    (hbs : List.Forall₂ (Alike E E' B) bs bs') (hs : Settled E s)
    (hacyclic : Acyclic (S.bindings s)) (hpaired : Paired ρ B s s')
    (hchecked : CheckedArgs (Checked S n) (E.unify n) as bs s)
    (h : Engine.unifyArgs (E.unify n) as bs (some s) = .ok r) :
    ∃ r', Engine.unifyArgs (E'.unify n) as' bs' (some s') = .ok r' ∧
      Option.Rel (Paired ρ B) r r' := by
  induction has generalizing bs bs' s s' with
  | nil =>
    cases h
    exact ⟨some s', rfl, .some hpaired⟩
  | cons ha _ ih =>
    cases hbs with
    | nil =>
      cases h
      exact ⟨some s', rfl, .some hpaired⟩
    | cons hb hbs =>
      obtain ⟨hhere, hafter⟩ := hchecked
      rw [Engine.unifyArgs]
      rcases Engine.unifyArgs_cons h with ⟨hfail, rfl⟩ | ⟨s₁, hfirst, hrest⟩
      · obtain ⟨r', hr', hrel⟩ := hstep _ _ _ _ s s' none ha hb hs hacyclic hpaired hhere hfail
        cases hrel
        rw [hr']
        exact ⟨none, rfl, .none⟩
      · obtain ⟨r', hr', hrel⟩ :=
          hstep _ _ _ _ s s' (some s₁) ha hb hs hacyclic hpaired hhere hfirst
        cases hrel with
        | some hpaired' =>
          have hgrows := unify_grows S (closed_true E) hs (fun _ _ => trivial) trivial
            trivial hfirst
          rw [hr']
          exact ih hbs hgrows.settled (unify_acyclic hs hacyclic hhere hfirst) hpaired'
            (hafter s₁ hfirst) hrest

theorem occursCheck (hM : Mirrors E E' ρ B R) (hlevels : E.levels ≤ E'.levels)
    {s : List (V × T)} {s' : List (V' × T')} (hs : Settled E s)
    (hacyclic : Acyclic (S.bindings s)) (hpaired : Paired ρ B s s') {v : V}
    (hfree : (S.bindings s).lookup v = none) {t : T} {t' : T'} (hcaught : Caught S v t s)
    (ht : B t t') {b : Bool} (h : E.occursWithin s v E.levels t = .ok b) :
    E'.occursWithin s' (ρ v) E'.levels t' = .ok b :=
  hM.occursWithin hpaired (hM.alike ht) (hcaught.more_levels hs hacyclic hfree hlevels h)

/-- **What the one engine returns, the other returns**, if it looks for occurrences in at least
as many levels and the first one misses none. -/
theorem unify (hM : Mirrors E E' ρ B R) (hlevels : E.levels ≤ E'.levels) {n : ℕ} {t₁ t₂ : T} {t₁' t₂' : T'}
    {s : List (V × T)} {s' : List (V' × T')} {r : Option (List (V × T))}
    (h₁ : Alike E E' B t₁ t₁') (h₂ : Alike E E' B t₂ t₂') (hs : Settled E s)
    (hacyclic : Acyclic (S.bindings s)) (hpaired : Paired ρ B s s')
    (hchecked : Checked S n t₁ t₂ s) (h : E.unify n t₁ t₂ (some s) = .ok r) :
    ∃ r', E'.unify n t₁' t₂' (some s') = .ok r' ∧ Option.Rel (Paired ρ B) r r' := by
  induction n generalizing t₁ t₂ t₁' t₂' s s' r with
  | zero => cases h
  | succ n ih =>
    obtain ⟨w₁, w₂, hw₁, hw₂, hcases⟩ := Engine.unify_cases h
    simp only [Option.getD_some] at hw₁ hw₂ hcases
    obtain ⟨w₁', hw₁', hB₁⟩ := hM.walk hpaired h₁ hw₁
    obtain ⟨w₂', hw₂', hB₂⟩ := hM.walk hpaired h₂ hw₂
    have hnext := hM.next hB₁ hB₂
    have hchecks := hchecked w₁ w₂ hw₁ hw₂
    have hrun : E'.unify (n + 1) t₁' t₂' (some s') =
        E'.proceed (E'.unify n) (some s') (E'.next w₁' w₂') := by
      rw [Engine.unify, Option.getD_some, hw₁', hw₂', ok_bind, ok_bind]
    rw [hrun]
    generalize E'.next w₁' w₂' = next' at hnext ⊢
    rcases hcases with ⟨hdone, rfl⟩ | ⟨v, t, hbind, hocc, rfl⟩ | ⟨v, t, hbind, hocc, rfl⟩ |
      ⟨as, bs, hdescend, hargs⟩ | ⟨hclash, rfl⟩
    · rw [hdone] at hnext
      cases hnext
      exact ⟨some s', rfl, .some hpaired⟩
    · rw [hbind] at hnext hchecks
      cases hnext with
      | bind _ ht =>
        have hfree := bind_free (S := S) hs hw₁ hw₂ hbind
        rw [Engine.proceed, Engine.bindVar, Option.getD_some,
          hM.occursCheck hlevels hs hacyclic hpaired hfree hchecks ht hocc]
        exact ⟨none, rfl, .none⟩
    · rw [hbind] at hnext hchecks
      cases hnext with
      | bind _ ht =>
        have hfree := bind_free (S := S) hs hw₁ hw₂ hbind
        rw [Engine.proceed, Engine.bindVar, Option.getD_some,
          hM.occursCheck hlevels hs hacyclic hpaired hfree hchecks ht hocc]
        exact ⟨_, rfl, .some (hpaired.append v ht)⟩
    · rw [hdescend] at hnext hchecks
      cases hnext with
      | descend has hbs =>
        exact Mirrors.unifyArgs (fun _ _ _ _ _ _ _ ha hb hs hac hp hc h => ih ha hb hs hac hp hc h)
          has hbs hs hacyclic hpaired hchecks hargs
    · rw [hclash] at hnext
      cases hnext
      exact ⟨none, rfl, .none⟩

end Mirrors

end Unify
