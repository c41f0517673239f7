import Mathlib.Order.WellFounded
import Mathlib.Data.Prod.Lex
import Eshkol.Unify.Engine

/-!
# Correctness of the Unification Engine

A call of the engine replaces an equation by bindings that have the same solutions, or fails
when there is none. This holds whatever the occurs check misses: a binding that closes a
cycle is an equation without solutions. What a missed occurrence breaks is that the bindings
have a solution at all, and that the engine ends. `Checked` says of a call that no occurrence
is missed.
-/

namespace Unify

open Machine

namespace Engine

variable {T V L : Type} [DecidableEq V] (E : Engine T V L)

/-! ### What a call does -/

section Inversion

variable {E} {w₁ w₂ : T} {F : Type}

omit [DecidableEq V] in
theorem next_done (h : E.next w₁ w₂ = .done) : E.equal w₁ w₂ = true := by
  rw [next] at h
  split at h
  next heq => exact heq
  next =>
    split at h
    all_goals first | cases h | (split at h <;> cases h)

omit [DecidableEq V] in
theorem next_bind {v : V} {t : T} (h : E.next w₁ w₂ = .bind v t) :
    E.equal w₁ w₂ = false ∧ (E.shape w₁ = .var v ∧ t = w₂ ∨ E.shape w₂ = .var v ∧ t = w₁) := by
  rw [next] at h
  split at h
  next => cases h
  next heq =>
    rw [Bool.not_eq_true] at heq
    refine ⟨heq, ?_⟩
    split at h
    next v' hv =>
      cases h
      exact .inl ⟨hv, rfl⟩
    next v' hv _ =>
      cases h
      exact .inr ⟨hv, rfl⟩
    next => split at h <;> cases h
    next => cases h

omit [DecidableEq V] in
theorem next_descend {as bs : List T} (h : E.next w₁ w₂ = .descend as bs) :
    ∃ l₁ l₂, E.shape w₁ = .compound l₁ as ∧ E.shape w₂ = .compound l₂ bs ∧
      E.sameLabel l₁ l₂ = true ∧ as.length = bs.length := by
  rw [next] at h
  split at h
  next => cases h
  next =>
    split at h
    next => cases h
    next => cases h
    next l₁ as' l₂ bs' h₁ h₂ =>
      split at h
      next hsame =>
        cases h
        exact ⟨l₁, l₂, h₁, h₂, hsame⟩
      next => cases h
    next => cases h

omit [DecidableEq V] in
theorem next_clash (h : E.next w₁ w₂ = .clash) :
    E.equal w₁ w₂ = false ∧ (∀ v, E.shape w₁ ≠ .var v) ∧ (∀ v, E.shape w₂ ≠ .var v) ∧
      ∀ l₁ as l₂ bs, E.shape w₁ = .compound l₁ as → E.shape w₂ = .compound l₂ bs →
        ¬ (E.sameLabel l₁ l₂ = true ∧ as.length = bs.length) := by
  rw [next] at h
  split at h
  next => cases h
  next heq =>
    rw [Bool.not_eq_true] at heq
    refine ⟨heq, ?_⟩
    cases h₁ : E.shape w₁ <;> cases h₂ : E.shape w₂ <;> simp [h₁, h₂] at h ⊢
    rintro _ _ _ _ rfl rfl rfl rfl
    exact h

theorem unify_cases {n : ℕ} {t₁ t₂ : T} {s r : Option (List (V × T))}
    (h : E.unify (n + 1) t₁ t₂ s = .ok r) :
    ∃ w₁ w₂, E.walk (s.getD []) t₁ = .ok w₁ ∧ E.walk (s.getD []) t₂ = .ok w₂ ∧
      ((E.next w₁ w₂ = .done ∧ r = s) ∨ (∃ v t, E.next w₁ w₂ = .bind v t ∧
          E.occursWithin (s.getD []) v E.levels t = .ok true ∧ r = none) ∨
        (∃ v t, E.next w₁ w₂ = .bind v t ∧ E.occursWithin (s.getD []) v E.levels t = .ok false ∧
          r = some (s.getD [] ++ [(v, t)])) ∨
        (∃ as bs, E.next w₁ w₂ = .descend as bs ∧ unifyArgs (E.unify n) as bs s = .ok r) ∨
        (E.next w₁ w₂ = .clash ∧ r = none)) := by
  rw [unify] at h
  obtain ⟨w₁, hw₁, h⟩ := bind_eq_ok.mp h
  obtain ⟨w₂, hw₂, h⟩ := bind_eq_ok.mp h
  refine ⟨w₁, w₂, hw₁, hw₂, ?_⟩
  cases hnext : E.next w₁ w₂ with
  | done =>
    rw [hnext] at h
    exact .inl ⟨rfl, (Except.ok.inj h).symm⟩
  | bind v t =>
    rw [hnext] at h
    obtain ⟨b, hb, h⟩ := bind_eq_ok.mp h
    cases b with
    | true => exact .inr (.inl ⟨v, t, rfl, hb, (Except.ok.inj h).symm⟩)
    | false => exact .inr (.inr (.inl ⟨v, t, rfl, hb, (Except.ok.inj h).symm⟩))
  | descend as bs =>
    rw [hnext] at h
    exact .inr (.inr (.inr (.inl ⟨as, bs, rfl, h⟩)))
  | clash =>
    rw [hnext] at h
    exact .inr (.inr (.inr (.inr ⟨rfl, (Except.ok.inj h).symm⟩)))

theorem unifyArgs_cons {S : Type} {u : T → T → Option S → Exec Unit (Option S)} {a b : T}
    {as bs : List T} {s r : Option S} (h : unifyArgs u (a :: as) (b :: bs) s = .ok r) :
    (u a b s = .ok none ∧ r = none) ∨
      ∃ s', u a b s = .ok (some s') ∧ unifyArgs u as bs (some s') = .ok r := by
  rw [unifyArgs] at h
  obtain ⟨x, hx, h⟩ := bind_eq_ok.mp h
  cases x with
  | none => exact .inl ⟨hx, (Except.ok.inj h).symm⟩
  | some s' => exact .inr ⟨s', hx, h⟩

theorem unifyArgs_induct {S : Type} {u : T → T → Option S → Exec Unit (Option S)} {r : Option S}
    {motive : List T → List T → S → Prop} (nil : ∀ s, r = some s → motive [] [] s)
    (fail : ∀ a as b bs s, u a b (some s) = .ok none → r = none → motive (a :: as) (b :: bs) s)
    (cons : ∀ a as b bs s s', u a b (some s) = .ok (some s') → motive as bs s' →
      motive (a :: as) (b :: bs) s)
    {as bs : List T} {s : S} (hlen : as.length = bs.length)
    (h : unifyArgs u as bs (some s) = .ok r) : motive as bs s := by
  induction as generalizing bs s with
  | nil =>
    cases bs with
    | nil => exact nil s (Except.ok.inj h).symm
    | cons b bs => simp at hlen
  | cons a as ih =>
    cases bs with
    | nil => simp at hlen
    | cons b bs =>
      rcases unifyArgs_cons h with ⟨hfail, hr⟩ | ⟨s', hfirst, hrest⟩
      · exact fail a as b bs s hfail hr
      · exact cons a as b bs s s' hfirst (ih (by simpa using hlen) hrest)

section Nothing

variable {t₁ t₂ : T} {n : ℕ} (h : ¬ E.Leads t₁ t₂)

include h

theorem unify_none_of_not_leads {r : Option (List (V × T))}
    (hrun : E.unify n t₁ t₂ none = .ok r) : r = none := by
  induction n generalizing t₁ t₂ r with
  | zero => cases hrun
  | succ n ih =>
    obtain ⟨w₁, w₂, hw₁, hw₂, hcases⟩ := unify_cases hrun
    rw [Option.getD_none, walk_nil] at hw₁ hw₂
    obtain rfl := Except.ok.inj hw₁
    obtain rfl := Except.ok.inj hw₂
    rcases hcases with ⟨-, rfl⟩ | ⟨v, t, -, -, rfl⟩ | ⟨v, t, hbind, -, -⟩ |
      ⟨as, bs, hdescend, hargs⟩ | ⟨-, rfl⟩
    · rfl
    · rfl
    · exact absurd (.bind hbind) h
    · cases as with
      | nil => exact (Except.ok.inj hargs).symm
      | cons a as =>
        cases bs with
        | nil => exact (Except.ok.inj hargs).symm
        | cons b bs =>
          have hfirst : ¬ E.Leads a b := fun hab => h (.descend hdescend hab)
          rcases unifyArgs_cons hargs with ⟨-, rfl⟩ | ⟨s', hs', -⟩
          · rfl
          · cases ih hfirst hs'
    · rfl

theorem unify_none_total (S : Semantics E F) : ∃ n, E.unify n t₁ t₂ none = .ok none := by
  induction hsize : (S.den t₁).size using Nat.strong_induction_on generalizing t₁ t₂ with
  | _ k ih =>
    have hrun (n : ℕ) : E.unify (n + 1) t₁ t₂ none =
        E.proceed (E.unify n) none (E.next (E.canonical t₁) (E.canonical t₂)) := by
      rw [unify, Option.getD_none, walk_nil, walk_nil, ok_bind, ok_bind]
    cases hnext : E.next (E.canonical t₁) (E.canonical t₂) with
    | done =>
      refine ⟨1, ?_⟩
      rw [hrun, hnext, proceed]
    | bind v t => exact absurd (.bind hnext) h
    | clash => exact absurd (.clash hnext) h
    | descend as bs =>
      obtain ⟨l₁, l₂, hl₁, -, -, hlen⟩ := next_descend hnext
      cases as with
      | nil =>
        refine ⟨1, ?_⟩
        rw [hrun, hnext, proceed]
        rfl
      | cons a as =>
        cases bs with
        | nil => simp at hlen
        | cons b bs =>
          have hlt : (S.den a).size < k := by
            rw [← hsize, ← S.den_canonical t₁, S.den_compound hl₁]
            exact Term.size_lt_of_mem (by simp)
          obtain ⟨n, hn⟩ := ih _ hlt (fun hab => h (.descend hnext hab)) rfl
          refine ⟨n + 1, ?_⟩
          rw [hrun, hnext, proceed, unifyArgs, hn]
          rfl

end Nothing

end Inversion

end Engine

namespace Semantics

open Engine

variable {T V L F : Type} [DecidableEq V] {E : Engine T V L} {S : Semantics E F}

/-! ### Bindings grow -/

section Grow

variable {s s' : List (V × T)} {t₁ t₂ : T} {n : ℕ}

theorem bind_spec {w₁ w₂ t : T} {v : V} (hs : Settled E s) (h₁ : E.walk s t₁ = .ok w₁)
    (h₂ : E.walk s t₂ = .ok w₂) (h : E.next w₁ w₂ = .bind v t) :
    s.lookup v = none ∧ E.canonical t = t ∧ (t = w₁ ∨ t = w₂) ∧
      (S.den w₁ = .var v ∧ t = w₂ ∨ S.den w₂ = .var v ∧ t = w₁) := by
  have hw₁ := walk_spec (S := S) hs h₁
  have hw₂ := walk_spec (S := S) hs h₂
  obtain ⟨-, ⟨hv, rfl⟩ | ⟨hv, rfl⟩⟩ := next_bind h
  · exact ⟨hw₁.free v hv, hw₂.canonical, .inr rfl, .inl ⟨S.den_var hv, rfl⟩⟩
  · exact ⟨hw₂.free v hv, hw₁.canonical, .inl rfl, .inr ⟨S.den_var hv, rfl⟩⟩

/-- A call only adds bindings, to values that satisfy what all values at hand satisfy. -/
structure Grows (E : Engine T V L) (P : T → Prop) (s s' : List (V × T)) : Prop where
  isPrefix : s <+: s'
  settled : Settled E s'
  closed : ∀ b ∈ s', P b.2

/-- Values of which the canonical spelling and the arguments are of the same kind. -/
structure Closed (E : Engine T V L) (P : T → Prop) : Prop where
  canonical : ∀ {t}, P t → P (E.canonical t)
  args : ∀ {t l as}, P t → E.shape t = .compound l as → ∀ a ∈ as, P a

variable {P : T → Prop}

theorem Closed.walked (hP : Closed E P) (hs : Settled E s) (hPs : ∀ b ∈ s, P b.2) {t w : T}
    (ht : P t) (S : Semantics E F) (h : E.walk s t = .ok w) : P w := by
  rcases (walk_spec (S := S) hs h).source with rfl | ⟨v, hv⟩
  · exact hP.canonical ht
  · exact hPs _ hv

/-- Unification only adds bindings. -/
theorem unify_grows (S : Semantics E F) (hP : Closed E P) (hs : Settled E s)
    (hPs : ∀ b ∈ s, P b.2) (h₁ : P t₁) (h₂ : P t₂)
    (h : E.unify n t₁ t₂ (some s) = .ok (some s')) : Grows E P s s' := by
  induction n generalizing s s' t₁ t₂ with
  | zero => cases h
  | succ n ih =>
    obtain ⟨w₁, w₂, hw₁, hw₂, hcases⟩ := unify_cases h
    simp only [Option.getD_some] at hw₁ hw₂ hcases
    have hPw₁ := hP.walked hs hPs h₁ S hw₁
    have hPw₂ := hP.walked hs hPs h₂ S hw₂
    rcases hcases with ⟨-, hr⟩ | ⟨v, t, -, -, hr⟩ | ⟨v, t, hbind, -, hr⟩ |
      ⟨as, bs, hdescend, hargs⟩ | ⟨-, hr⟩
    · cases hr
      exact ⟨List.prefix_rfl, hs, hPs⟩
    · cases hr
    · cases hr
      obtain ⟨-, hcanonical, hterm, -⟩ := bind_spec (S := S) hs hw₁ hw₂ hbind
      have hPt : P t := by
        rcases hterm with rfl | rfl
        · exact hPw₁
        · exact hPw₂
      refine ⟨List.prefix_append _ _, ?_, ?_⟩
      · intro b hb
        rcases List.mem_append.mp hb with hb | hb
        · exact hs b hb
        · rw [List.mem_singleton.mp hb]
          exact hcanonical
      · intro b hb
        rcases List.mem_append.mp hb with hb | hb
        · exact hPs b hb
        · rw [List.mem_singleton.mp hb]
          exact hPt
    · obtain ⟨l₁, l₂, hl₁, hl₂, -, hlen⟩ := next_descend hdescend
      refine unifyArgs_induct (motive := fun as bs s => (∀ a ∈ as, P a) → (∀ b ∈ bs, P b) →
        Settled E s → (∀ b ∈ s, P b.2) → Grows E P s s') ?_ ?_ ?_ hlen hargs
        (hP.args hPw₁ hl₁) (hP.args hPw₂ hl₂) hs hPs
      · rintro s hr - - hs hPs
        cases hr
        exact ⟨List.prefix_rfl, hs, hPs⟩
      · intro a as b bs s _ hr
        cases hr
      · intro a as b bs s s₁ hfirst hrest hPas hPbs hs hPs
        have hg := ih hs hPs (hPas a (by simp)) (hPbs b (by simp)) hfirst
        have hg' := hrest (fun x hx => hPas x (by simp [hx])) (fun x hx => hPbs x (by simp [hx]))
          hg.settled hg.closed
        exact ⟨hg.isPrefix.trans hg'.isPrefix, hg'.settled, hg'.closed⟩
    · cases hr

end Grow

/-! ### Solutions -/

/-- Values of which equality is decided: equal values represent the same term, and values
that are taken apart or rejected represent different ones. -/
structure Decides (S : Semantics E F) (P : T → Prop) : Prop extends Closed E P where
  equal : ∀ {t u}, P t → P u → E.equal t u = true → S.den t = S.den u
  atoms : ∀ {t u}, P t → P u → E.canonical t = t → E.canonical u = u → E.shape t = .atom →
    E.shape u = .atom → S.den t = S.den u → E.equal t u = true
  atom_label : ∀ {t u l as f}, P t → E.canonical t = t → E.shape t = .atom →
    E.shape u = .compound l as → S.den t = .app f [] → f ≠ S.label l
  sameLabel_iff : ∀ {l l'}, E.sameLabel l l' = true ↔ S.label l = S.label l'

section Solutions

variable {P : T → Prop} {s : List (V × T)} {w₁ w₂ : T} {θ : V → Term V F}

omit [DecidableEq V] in
theorem descend_spec (hP : Decides S P) {as bs : List T} (h : E.next w₁ w₂ = .descend as bs) :
    (S.den w₁).apply θ = (S.den w₂).apply θ ↔
      as.map (fun a => (S.den a).apply θ) = bs.map (fun b => (S.den b).apply θ) := by
  obtain ⟨l₁, l₂, h₁, h₂, hsame, -⟩ := next_descend h
  rw [S.den_compound h₁, S.den_compound h₂, hP.sameLabel_iff.mp hsame, Term.apply_app,
    Term.apply_app, List.map_map, List.map_map, Term.app.injEq]
  exact and_iff_right rfl

omit [DecidableEq V] in
theorem clash_spec (hP : Decides S P) (hP₁ : P w₁) (hP₂ : P w₂) (hc₁ : E.canonical w₁ = w₁)
    (hc₂ : E.canonical w₂ = w₂) (h : E.next w₁ w₂ = .clash) :
    (S.den w₁).apply θ ≠ (S.den w₂).apply θ := by
  obtain ⟨heq, hv₁, hv₂, hcompound⟩ := next_clash h
  cases h₁ : E.shape w₁ with
  | var v => exact absurd h₁ (hv₁ v)
  | compound l₁ as =>
    cases h₂ : E.shape w₂ with
    | var v => exact absurd h₂ (hv₂ v)
    | compound l₂ bs =>
      rw [S.den_compound h₁, S.den_compound h₂, Term.apply_app, Term.apply_app]
      intro happ
      obtain ⟨hlabel, hargs⟩ := Term.app.inj happ
      refine hcompound l₁ as l₂ bs h₁ h₂ ⟨hP.sameLabel_iff.mpr hlabel, ?_⟩
      simpa using congrArg List.length hargs
    | atom =>
      obtain ⟨f, hf⟩ := S.den_atom hc₂ h₂
      rw [S.den_compound h₁, hf, Term.apply_app, Term.apply_app]
      intro happ
      exact hP.atom_label hP₂ hc₂ h₂ h₁ hf (Term.app.inj happ).1.symm
  | atom =>
    obtain ⟨f, hf⟩ := S.den_atom hc₁ h₁
    cases h₂ : E.shape w₂ with
    | var v => exact absurd h₂ (hv₂ v)
    | compound l₂ bs =>
      rw [S.den_compound h₂, hf, Term.apply_app, Term.apply_app]
      intro happ
      exact hP.atom_label hP₁ hc₁ h₁ h₂ hf (Term.app.inj happ).1
    | atom =>
      obtain ⟨g, hg⟩ := S.den_atom hc₂ h₂
      rw [hf, hg, Term.apply_app, Term.apply_app]
      intro happ
      have hden : S.den w₁ = S.den w₂ := by rw [hf, hg, (Term.app.inj happ).1]
      rw [hP.atoms hP₁ hP₂ hc₁ hc₂ h₁ h₂ hden] at heq
      cases heq

theorem solves_mono (S : Semantics E F) {s s' : List (V × T)} (h : s <+: s')
    (hθ : Solves θ (S.bindings s')) : Solves θ (S.bindings s) := by
  obtain ⟨l, rfl⟩ := h
  intro v t hv
  apply hθ v t
  rw [bindings, List.map_append, List.lookup_append, ← bindings, hv, Option.some_or]

section Binding

variable {t₁ t₂ t : T} {v : V} (hs : Settled E s) (hw₁ : E.walk s t₁ = .ok w₁)
  (hw₂ : E.walk s t₂ = .ok w₂) (h : E.next w₁ w₂ = .bind v t)

include hs hw₁ hw₂ h

theorem bind_value : (S.den w₁).apply θ = (S.den w₂).apply θ ↔ θ v = (S.den t).apply θ := by
  obtain ⟨-, -, -, ⟨hv, rfl⟩ | ⟨hv, rfl⟩⟩ := bind_spec (S := S) hs hw₁ hw₂ h
  · rw [hv, Term.apply_var]
  · rw [hv, Term.apply_var, eq_comm]

theorem bind_free : (S.bindings s).lookup v = none := by
  rw [lookup_bindings, (bind_spec (S := S) hs hw₁ hw₂ h).1, Option.map_none]

theorem compound_of_occurs (hocc : Occurs (S.bindings s) v (S.den t)) :
    ∃ f args, S.den t = .app f args := by
  obtain ⟨-, hcanonical, hterm, -⟩ := bind_spec (S := S) hs hw₁ hw₂ h
  cases hshape : E.shape t with
  | compound l args => exact ⟨_, _, S.den_compound hshape⟩
  | atom =>
    obtain ⟨f, hf⟩ := S.den_atom hcanonical hshape
    exact ⟨f, [], hf⟩
  | var u =>
    have hfree : s.lookup u = none := by
      rcases hterm with rfl | rfl
      · exact (walk_spec (S := S) hs hw₁).free u hshape
      · exact (walk_spec (S := S) hs hw₂).free u hshape
    rw [S.den_var hshape] at hocc
    obtain ⟨x, hx, hpath⟩ := hocc
    rw [Term.vars_var, List.mem_singleton] at hx
    subst hx
    rcases Relation.ReflTransGen.cases_head hpath with rfl | ⟨y, ⟨r, hr, -⟩, -⟩
    · obtain ⟨hne, ⟨hv, rfl⟩ | ⟨hv, rfl⟩⟩ := next_bind h
      · rw [S.equal_var hv hshape] at hne
        cases hne
      · rw [S.equal_var hshape hv] at hne
        cases hne
    · rw [lookup_bindings, hfree] at hr
      cases hr

end Binding

/-- **A call keeps the solutions.** Bindings returned have the solutions of the bindings given
that solve the equation; if nothing is returned, there are none. -/
theorem unify_solves (hP : Decides S P) (hs : Settled E s) (hPs : ∀ b ∈ s, P b.2) {t₁ t₂ : T}
    (h₁ : P t₁) (h₂ : P t₂) {n : ℕ} {r : Option (List (V × T))}
    (h : E.unify n t₁ t₂ (some s) = .ok r) (hθ : Solves θ (S.bindings s)) :
    (S.den t₁).apply θ = (S.den t₂).apply θ ↔ ∃ s', r = some s' ∧ Solves θ (S.bindings s') := by
  induction n generalizing s t₁ t₂ r with
  | zero => cases h
  | succ n ih =>
    obtain ⟨w₁, w₂, hw₁, hw₂, hcases⟩ := unify_cases h
    simp only [Option.getD_some] at hw₁ hw₂ hcases
    have hPw₁ := hP.walked hs hPs h₁ S hw₁
    have hPw₂ := hP.walked hs hPs h₂ S hw₂
    rw [← walk_value hs hw₁ hθ, ← walk_value hs hw₂ hθ]
    rcases hcases with ⟨hdone, rfl⟩ | ⟨v, t, hbind, hocc, rfl⟩ | ⟨v, t, hbind, -, rfl⟩ |
      ⟨as, bs, hdescend, hargs⟩ | ⟨hclash, rfl⟩
    · rw [hP.equal hPw₁ hPw₂ (next_done hdone)]
      exact ⟨fun _ => ⟨s, rfl, hθ⟩, fun _ => rfl⟩
    · obtain ⟨k, -, hocc'⟩ :=
        occursWithin_sound (S := S) hs (bind_free hs hw₁ hw₂ hbind) hocc
      have hocc' := occurs_iff_occursAt.mpr ⟨k, hocc'⟩
      obtain ⟨f, args, hterm⟩ := compound_of_occurs hs hw₁ hw₂ hbind hocc'
      rw [bind_value hs hw₁ hw₂ hbind]
      rw [hterm] at hocc' ⊢
      exact iff_of_false (hθ.ne_of_occurs hocc') (by simp)
    · rw [bind_value hs hw₁ hw₂ hbind]
      have hfree := bind_free (S := S) hs hw₁ hw₂ hbind
      constructor
      · intro heq
        refine ⟨_, rfl, ?_⟩
        rw [bindings_append]
        exact (solves_append hfree).mpr ⟨hθ, heq⟩
      · rintro ⟨s', hs', hsol⟩
        cases hs'
        rw [bindings_append] at hsol
        exact ((solves_append hfree).mp hsol).2
    · obtain ⟨l₁, l₂, hl₁, hl₂, -, hlen⟩ := next_descend hdescend
      rw [descend_spec hP hdescend]
      refine (unifyArgs_induct (motive := fun as bs s => (∀ a ∈ as, P a) → (∀ b ∈ bs, P b) →
        Settled E s → (∀ b ∈ s, P b.2) →
        (∀ s', r = some s' → Solves θ (S.bindings s') → Solves θ (S.bindings s)) ∧
        (Solves θ (S.bindings s) →
          (as.map (fun a => (S.den a).apply θ) = bs.map (fun b => (S.den b).apply θ) ↔
            ∃ s', r = some s' ∧ Solves θ (S.bindings s')))) ?_ ?_ ?_ hlen hargs
        (hP.args hPw₁ hl₁) (hP.args hPw₂ hl₂) hs hPs).2 hθ
      · rintro s rfl - - - -
        refine ⟨?_, fun hθ => ⟨fun _ => ⟨s, rfl, hθ⟩, fun _ => rfl⟩⟩
        rintro s' hs' hsol
        cases hs'
        exact hsol
      · rintro a as b bs s hfail rfl hPas hPbs hs hPs
        refine ⟨fun s' hs' => (by cases hs'), ?_⟩
        intro hθ
        have hne := (ih hs hPs (hPas a (by simp)) (hPbs b (by simp)) hfail hθ).not.mpr (by simp)
        simp [hne]
      · intro a as b bs s s₁ hfirst hrest hPas hPbs hs hPs
        have hg := unify_grows S hP.toClosed hs hPs (hPas a (by simp)) (hPbs b (by simp)) hfirst
        obtain ⟨hback, hiff⟩ := hrest (fun x hx => hPas x (by simp [hx]))
          (fun x hx => hPbs x (by simp [hx])) hg.settled hg.closed
        have hback' := S.solves_mono (θ := θ) hg.isPrefix
        refine ⟨fun s' hs' hsol => hback' (hback s' hs' hsol), ?_⟩
        intro hθ
        have hhead := ih hs hPs (hPas a (by simp)) (hPbs b (by simp)) hfirst hθ
        rw [List.map_cons, List.map_cons, List.cons.injEq, hhead]
        constructor
        · rintro ⟨⟨s', hs', hsol⟩, htail⟩
          cases hs'
          exact (hiff hsol).mp htail
        · rintro ⟨s', hs', hsol⟩
          have hsol₁ := hback s' hs' hsol
          exact ⟨⟨s₁, rfl, hsol₁⟩, (hiff hsol₁).mpr ⟨s', hs', hsol⟩⟩
    · simp [clash_spec hP hPw₁ hPw₂ (walk_spec (S := S) hs hw₁).canonical
        (walk_spec (S := S) hs hw₂).canonical hclash]

end Solutions

/-! ### Calls that miss no occurrence -/

section Checked

variable {s s' : List (V × T)} {t₁ t₂ : T} {n : ℕ}

/-- If the variable occurs, bindings resolved, then it does so in one of the levels that the occurs
check looks at. -/
def Caught (S : Semantics E F) (v : V) (t : T) (s : List (V × T)) : Prop :=
  Occurs (S.bindings s) v (S.den t) → ∃ k < E.levels, OccursAt (S.bindings s) v k (S.den t)

theorem Caught.of_not_occurs {v : V} {t : T} (h : ¬Occurs (S.bindings s) v (S.den t)) :
    Caught S v t s :=
  fun hocc => absurd hocc h

theorem caught_atom {v : V} {t : T} (hcanonical : E.canonical t = t)
    (hatom : E.shape t = .atom) : Caught S v t s := by
  obtain ⟨f, hf⟩ := S.den_atom hcanonical hatom
  refine .of_not_occurs fun hocc => ?_
  rw [hf] at hocc
  obtain ⟨u, hu, -⟩ := occurs_app.mp hocc
  cases hu

/-- All pairs of arguments that are reached satisfy `c`. -/
def CheckedArgs (c : T → T → List (V × T) → Prop)
    (u : T → T → Option (List (V × T)) → Exec Unit (Option (List (V × T)))) :
    List T → List T → List (V × T) → Prop
  | a :: as, b :: bs, s =>
    c a b s ∧ ∀ s', u a b (some s) = .ok (some s') → CheckedArgs c u as bs s'
  | _, _, _ => True

/-- No occurs check of a call misses an occurrence. -/
def Checked (S : Semantics E F) : ℕ → T → T → List (V × T) → Prop
  | 0, _, _, _ => True
  | n + 1, t₁, t₂, s => ∀ w₁ w₂, E.walk s t₁ = .ok w₁ → E.walk s t₂ = .ok w₂ →
      match E.next w₁ w₂ with
      | .bind v t => Caught S v t s
      | .descend as bs => CheckedArgs (Checked S n) (E.unify n) as bs s
      | _ => True

section

variable {w₁ w₂ : T} (hw₁ : E.walk s t₁ = .ok w₁) (hw₂ : E.walk s t₂ = .ok w₂)

include hw₁ hw₂

theorem checked_bind {v : V} {t : T} (h : E.next w₁ w₂ = .bind v t) (hcaught : Caught S v t s)
    (n : ℕ) : Checked S n t₁ t₂ s := by
  cases n with
  | zero => trivial
  | succ n =>
    intro u₁ u₂ hu₁ hu₂
    obtain rfl := Except.ok.inj (hw₁.symm.trans hu₁)
    obtain rfl := Except.ok.inj (hw₂.symm.trans hu₂)
    rw [h]
    exact hcaught

theorem checked_descend {as bs : List T} (h : E.next w₁ w₂ = .descend as bs)
    (hargs : ∀ n, CheckedArgs (Checked S n) (E.unify n) as bs s) (n : ℕ) :
    Checked S n t₁ t₂ s := by
  cases n with
  | zero => trivial
  | succ n =>
    intro u₁ u₂ hu₁ hu₂
    obtain rfl := Except.ok.inj (hw₁.symm.trans hu₁)
    obtain rfl := Except.ok.inj (hw₂.symm.trans hu₂)
    rw [h]
    exact hargs n

end

omit [DecidableEq V] in
theorem closed_true (E : Engine T V L) : Closed E fun _ => True :=
  ⟨fun _ => trivial, fun _ _ _ _ => trivial⟩

/-- Unification keeps the bindings acyclic, if no check misses the variable that it binds. -/
theorem unify_acyclic (hs : Settled E s) (hacyclic : Acyclic (S.bindings s))
    (hchecked : Checked S n t₁ t₂ s) (h : E.unify n t₁ t₂ (some s) = .ok (some s')) :
    Acyclic (S.bindings s') := by
  induction n generalizing s s' t₁ t₂ with
  | zero => cases h
  | succ n ih =>
    obtain ⟨w₁, w₂, hw₁, hw₂, hcases⟩ := unify_cases h
    simp only [Option.getD_some] at hw₁ hw₂ hcases
    have hnext := hchecked w₁ w₂ hw₁ hw₂
    rcases hcases with ⟨-, hr⟩ | ⟨v, t, -, -, hr⟩ | ⟨v, t, hbind, hocc, hr⟩ |
      ⟨as, bs, hdescend, hargs⟩ | ⟨-, hr⟩
    · cases hr
      exact hacyclic
    · cases hr
    · cases hr
      rw [hbind] at hnext
      rw [bindings_append]
      have hfree := bind_free (S := S) hs hw₁ hw₂ hbind
      refine hacyclic.append hfree fun hmissed => ?_
      rw [(occursWithin_iff hs hacyclic hfree).mpr (hnext hmissed)] at hocc
      cases hocc
    · rw [hdescend] at hnext
      obtain ⟨-, -, -, -, -, hlen⟩ := next_descend hdescend
      refine unifyArgs_induct (motive := fun as bs s =>
        CheckedArgs (Checked S n) (E.unify n) as bs s → Settled E s → Acyclic (S.bindings s) →
          Acyclic (S.bindings s')) ?_ ?_ ?_ hlen hargs hnext hs hacyclic
      · rintro s hr - - hacyclic
        cases hr
        exact hacyclic
      · intro a as b bs s _ hr
        cases hr
      · rintro a as b bs s s₁ hfirst hrest ⟨hhere, hafter⟩ hs hacyclic
        have hg := unify_grows S (closed_true E) hs (fun _ _ => trivial) trivial trivial hfirst
        exact hrest (hafter s₁ hfirst) hg.settled (ih hs hacyclic hhere hfirst)
    · cases hr

section Unifier

variable {P : T → Prop} (hP : Decides S P) {θ : V → Term V F}

include hP

theorem CheckedArgs.of_unifier
    (hc : ∀ a b s, Settled E s → (∀ b ∈ s, P b.2) → P a → P b → Solves θ (S.bindings s) →
      (S.den a).apply θ = (S.den b).apply θ → Checked S n a b s) (hs : Settled E s)
    (hPs : ∀ b ∈ s, P b.2) (hθ : Solves θ (S.bindings s)) {as bs : List T}
    (hPas : ∀ a ∈ as, P a) (hPbs : ∀ b ∈ bs, P b)
    (heq : as.map (fun a => (S.den a).apply θ) = bs.map fun b => (S.den b).apply θ) :
    CheckedArgs (Checked S n) (E.unify n) as bs s := by
  induction as generalizing bs s with
  | nil => trivial
  | cons a as ih =>
    cases bs with
    | nil => trivial
    | cons b bs =>
      obtain ⟨hhead, htail⟩ := List.cons.inj heq
      have hPa := hPas a (by simp)
      have hPb := hPbs b (by simp)
      refine ⟨hc a b s hs hPs hPa hPb hθ hhead, ?_⟩
      intro s' hs'
      have hgrows := unify_grows S hP.toClosed hs hPs hPa hPb hs'
      obtain ⟨s'', hsame, hθ'⟩ := (unify_solves hP hs hPs hPa hPb hs' hθ).mp hhead
      obtain rfl := Option.some.inj hsame
      exact ih hgrows.settled hgrows.closed hθ' (fun x hx => hPas x (by simp [hx]))
        (fun x hx => hPbs x (by simp [hx])) htail

theorem Checked.of_unifier (hs : Settled E s) (hPs : ∀ b ∈ s, P b.2) (h₁ : P t₁) (h₂ : P t₂)
    (hθ : Solves θ (S.bindings s)) (heq : (S.den t₁).apply θ = (S.den t₂).apply θ) (n : ℕ) :
    Checked S n t₁ t₂ s := by
  induction n generalizing s t₁ t₂ with
  | zero => trivial
  | succ n ih =>
    intro w₁ w₂ hw₁ hw₂
    rw [← walk_value hs hw₁ hθ, ← walk_value hs hw₂ hθ] at heq
    split
    next v t hbind =>
      intro hocc
      obtain ⟨f, args, hterm⟩ := compound_of_occurs hs hw₁ hw₂ hbind hocc
      rw [bind_value hs hw₁ hw₂ hbind, hterm] at heq
      rw [hterm] at hocc
      exact absurd heq (hθ.ne_of_occurs hocc)
    next as bs hdescend =>
      obtain ⟨l₁, l₂, hl₁, hl₂, -, -⟩ := next_descend hdescend
      exact .of_unifier hP (fun a b s hs hPs ha hb hθ heq => ih hs hPs ha hb hθ heq) hs hPs hθ
        (hP.args (hP.walked hs hPs h₁ S hw₁) hl₁) (hP.args (hP.walked hs hPs h₂ S hw₂) hl₂)
        ((descend_spec hP hdescend).mp heq)
    next => trivial

end Unifier

/-! ### Fuel -/

theorem unifyArgs_mono {R : Type} {u u' : T → T → Option R → Exec Unit (Option R)}
    (hu : ∀ a b s r, u a b s = .ok r → u' a b s = .ok r) {as bs : List T} {s r : Option R}
    (h : unifyArgs u as bs s = .ok r) : unifyArgs u' as bs s = .ok r := by
  induction as generalizing bs s with
  | nil => exact h
  | cons a as ih =>
    cases bs with
    | nil => exact h
    | cons b bs =>
      rw [unifyArgs]
      rcases unifyArgs_cons h with ⟨hfail, rfl⟩ | ⟨s', hfirst, hrest⟩
      · rw [hu a b s none hfail]
        rfl
      · rw [hu a b s (some s') hfirst]
        exact ih hrest

theorem unify_succ {s r : Option (List (V × T))} (h : E.unify n t₁ t₂ s = .ok r) :
    E.unify (n + 1) t₁ t₂ s = .ok r := by
  induction n generalizing s t₁ t₂ r with
  | zero => cases h
  | succ n ih =>
    obtain ⟨w₁, w₂, hw₁, hw₂, hcases⟩ := unify_cases h
    rw [unify, hw₁, hw₂, ok_bind, ok_bind]
    rcases hcases with ⟨hnext, rfl⟩ | ⟨v, t, hnext, hocc, rfl⟩ | ⟨v, t, hnext, hocc, rfl⟩ |
      ⟨as, bs, hnext, hargs⟩ | ⟨hnext, rfl⟩
    · rw [hnext]
      rfl
    · rw [hnext, proceed, bindVar, hocc]
      rfl
    · rw [hnext, proceed, bindVar, hocc]
      rfl
    · rw [hnext]
      exact unifyArgs_mono (fun a b s r h => ih h) hargs
    · rw [hnext]
      rfl

theorem unify_mono {m : ℕ} (hnm : n ≤ m) {s r : Option (List (V × T))}
    (h : E.unify n t₁ t₂ s = .ok r) : E.unify m t₁ t₂ s = .ok r := by
  induction hnm with
  | refl => exact h
  | step _ ih => exact unify_succ ih

omit [DecidableEq V] in
theorem CheckedArgs.mono {c c' : T → T → List (V × T) → Prop}
    {u u' : T → T → Option (List (V × T)) → Exec Unit (Option (List (V × T)))}
    (hc : ∀ a b s, c' a b s → c a b s) (hu : ∀ a b s r, u a b s = .ok r → u' a b s = .ok r)
    {as bs : List T} (h : CheckedArgs c' u' as bs s) : CheckedArgs c u as bs s := by
  induction as generalizing bs s with
  | nil => trivial
  | cons a as ih =>
    cases bs with
    | nil => trivial
    | cons b bs =>
      obtain ⟨hhere, hafter⟩ := h
      exact ⟨hc a b s hhere, fun s' hs' => ih (hafter s' (hu a b _ _ hs'))⟩

theorem Checked.of_succ (h : Checked S (n + 1) t₁ t₂ s) : Checked S n t₁ t₂ s := by
  induction n generalizing s t₁ t₂ with
  | zero => trivial
  | succ n ih =>
    intro w₁ w₂ hw₁ hw₂
    have hnext := h w₁ w₂ hw₁ hw₂
    split
    next v t hbind =>
      rw [hbind] at hnext
      exact hnext
    next as bs hdescend =>
      rw [hdescend] at hnext
      exact hnext.mono (fun a b s => ih) (fun a b s r => unify_succ)
    next => trivial

theorem Checked.of_le {m : ℕ} (hnm : n ≤ m) (h : Checked S m t₁ t₂ s) : Checked S n t₁ t₂ s := by
  induction hnm with
  | refl => exact h
  | step _ ih => exact ih h.of_succ

end Checked

/-! ### Termination -/

section Termination

variable {s s' : List (V × T)} (W : Finset V)

/-- The variables of `W` that are not bound. -/
def free (S : Semantics E F) (s : List (V × T)) : Finset V :=
  W.filter fun v => (S.bindings s).lookup v = none

/-- The measure of a call: the number of free variables, and the size of what the first term
resolves to. -/
def measure (S : Semantics E F) (s : List (V × T)) (t : T) : ℕ ×ₗ ℕ :=
  toLex ((free W S s).card, ((S.den t).apply (solution (S.bindings s))).size)

/-- A value with variables of `W` only. -/
def Inside (S : Semantics E F) (t : T) : Prop := ∀ v ∈ (S.den t).vars, v ∈ W

omit [DecidableEq V] in
theorem closed_inside : Closed E (Inside W S) where
  canonical := by
    intro t ht v hv
    rw [S.den_canonical] at hv
    exact ht v hv
  args := by
    intro t l as ht hshape a ha v hv
    apply ht v
    rw [S.den_compound hshape, Term.mem_vars_app]
    exact ⟨S.den a, List.mem_map_of_mem ha, hv⟩

variable {W}

theorem card_free_append {v : V} {t : T} (hv : v ∈ W) (hfree : (S.bindings s).lookup v = none) :
    (free W S (s ++ [(v, t)])).card < (free W S s).card := by
  apply Finset.card_lt_card
  rw [Finset.ssubset_iff_of_subset]
  · refine ⟨v, ?_, ?_⟩
    · simp [free, hv, hfree]
    · simp [free, bindings_append, lookup_append_self hfree]
  · intro x hx
    simp only [free, Finset.mem_filter, bindings_append, lookup_append_single,
      Option.or_eq_none_iff] at hx ⊢
    exact ⟨hx.1, hx.2.1⟩

/-- The state in which a call begins. -/
structure Ready (W : Finset V) (S : Semantics E F) (s : List (V × T)) : Prop where
  settled : Settled E s
  acyclic : Acyclic (S.bindings s)
  inside : ∀ b ∈ s, Inside W S b.2

theorem Ready.of_unify (h : Ready W S s) {n : ℕ} {t₁ t₂ : T} (h₁ : Inside W S t₁)
    (h₂ : Inside W S t₂) (hchecked : Checked S n t₁ t₂ s)
    (hrun : E.unify n t₁ t₂ (some s) = .ok (some s')) : Ready W S s' := by
  have hg := unify_grows S (closed_inside W) h.settled h.inside h₁ h₂ hrun
  exact ⟨hg.settled, unify_acyclic h.settled h.acyclic hchecked hrun, hg.closed⟩

/-- A call ends, and binds a variable or nothing. -/
def Ends (W : Finset V) (S : Semantics E F) (s : List (V × T))
    (u : ℕ → Exec Unit (Option (List (V × T)))) : Prop :=
  ∃ n r, u n = .ok r ∧ ∀ s', r = some s' → s' = s ∨ (free W S s').card < (free W S s).card

/-- Unification of arguments ends if that of smaller terms does. -/
theorem ends_args {p : ℕ ×ₗ ℕ}
    (ih : ∀ s t₁ t₂, measure W S s t₁ < p → Ready W S s → Inside W S t₁ → Inside W S t₂ →
      (∀ n, Checked S n t₁ t₂ s) → Ends W S s fun n => E.unify n t₁ t₂ (some s))
    {as bs : List T} (hlen : as.length = bs.length) (hready : Ready W S s)
    (has : ∀ a ∈ as, Inside W S a) (hbs : ∀ b ∈ bs, Inside W S b)
    (hsmall : ∀ a ∈ as, measure W S s a < p)
    (hchecked : ∀ n, CheckedArgs (Checked S n) (E.unify n) as bs s) :
    Ends W S s fun n => unifyArgs (E.unify n) as bs (some s) := by
  induction as generalizing bs s with
  | nil =>
    cases bs with
    | nil => exact ⟨0, some s, rfl, fun s' hs' => .inl (Option.some.inj hs').symm⟩
    | cons b bs => simp at hlen
  | cons a as iha =>
    cases bs with
    | nil => simp at hlen
    | cons b bs =>
      have ha := has a (by simp)
      have hb := hbs b (by simp)
      obtain ⟨n, r, hrun, hbinds⟩ := ih s a b (hsmall a (by simp)) hready ha hb
        fun n => (hchecked n).1
      simp only at hrun
      cases r with
      | none =>
        refine ⟨n, none, ?_, fun s' hs' => (by cases hs')⟩
        simp only [unifyArgs, hrun, ok_bind]
      | some s₁ =>
        have hready₁ := hready.of_unify ha hb (hchecked n).1 hrun
        have hsmall₁ : ∀ x ∈ as, measure W S s₁ x < p := by
          intro x hx
          rcases hbinds s₁ rfl with rfl | hlt
          · exact hsmall x (by simp [hx])
          · -- a variable was bound, whatever the terms now resolve to
            have hp := hsmall a (by simp)
            rw [measure, Prod.Lex.lt_iff] at hp ⊢
            simp only [ofLex_toLex] at hp ⊢
            exact .inl (by omega)
        have hchecked₁ (m : ℕ) : CheckedArgs (Checked S m) (E.unify m) as bs s₁ := by
          have hmax := (hchecked (max n m)).2 s₁ (unify_mono (le_max_left n m) hrun)
          exact hmax.mono (fun _ _ _ => Checked.of_le (le_max_right n m))
            (fun _ _ _ _ => unify_mono (le_max_right n m))
        obtain ⟨m, r, hrest, hbinds'⟩ := iha (by simpa using hlen) hready₁
          (fun x hx => has x (by simp [hx])) (fun x hx => hbs x (by simp [hx]))
          hsmall₁ hchecked₁
        refine ⟨max n m, r, ?_, ?_⟩
        · simp only [unifyArgs, unify_mono (le_max_left n m) hrun, ok_bind]
          exact unifyArgs_mono (fun _ _ _ _ => unify_mono (le_max_right n m)) hrest
        · intro s' hs'
          rcases hbinds s₁ rfl with rfl | hlt
          · exact hbinds' s' hs'
          · rcases hbinds' s' hs' with rfl | hlt'
            · exact .inr hlt
            · exact .inr (hlt'.trans hlt)

/-- Unification ends, by induction on the unbound variables and the size of the terms. -/
theorem ends_unify (p : ℕ ×ₗ ℕ) : ∀ s t₁ t₂, measure W S s t₁ = p → Ready W S s →
    Inside W S t₁ → Inside W S t₂ → (∀ n, Checked S n t₁ t₂ s) →
    Ends W S s fun n => E.unify n t₁ t₂ (some s) := by
  induction p using WellFoundedLT.induction with
  | _ p ih =>
    intro s t₁ t₂ hp hready h₁ h₂ hchecked
    obtain ⟨w₁, hw₁⟩ := walk_total hready.acyclic t₁
    obtain ⟨w₂, hw₂⟩ := walk_total hready.acyclic t₂
    have hI₁ := (closed_inside W).walked hready.settled hready.inside h₁ S hw₁
    have hI₂ := (closed_inside W).walked hready.settled hready.inside h₂ S hw₂
    have hrun (n : ℕ) : E.unify (n + 1) t₁ t₂ (some s) =
        E.proceed (E.unify n) (some s) (E.next w₁ w₂) := by
      rw [unify, Option.getD_some, hw₁, hw₂, ok_bind, ok_bind]
    cases hnext : E.next w₁ w₂ with
    | done =>
      rw [hnext] at hrun
      exact ⟨1, some s, hrun 0, fun s' hs' => .inl (Option.some.inj hs').symm⟩
    | clash =>
      rw [hnext] at hrun
      exact ⟨1, none, hrun 0, fun s' hs' => (by cases hs')⟩
    | bind v t =>
      rw [hnext] at hrun
      obtain ⟨b, hb⟩ := occursWithin_total (v := v) hready.acyclic E.levels t
      have hfree := bind_free (S := S) hready.settled hw₁ hw₂ hnext
      have hv : v ∈ W := by
        obtain ⟨-, -, -, ⟨hden, -⟩ | ⟨hden, -⟩⟩ := bind_spec (S := S) hready.settled hw₁ hw₂ hnext
        · exact hI₁ v (by simp [hden])
        · exact hI₂ v (by simp [hden])
      have hone := hrun 0
      rw [proceed, bindVar, Option.getD_some, hb, ok_bind] at hone
      cases b with
      | true => exact ⟨1, none, hone, fun s' hs' => (by cases hs')⟩
      | false =>
        refine ⟨1, some (s ++ [(v, t)]), hone, ?_⟩
        rintro s' hs'
        cases hs'
        exact .inr (card_free_append hv hfree)
    | descend as bs =>
      obtain ⟨l₁, l₂, hl₁, hl₂, -, hlen⟩ := next_descend hnext
      have hsmall : ∀ a ∈ as, measure W S s a < p := by
        intro a ha
        rw [← hp, measure, measure, Prod.Lex.lt_iff]
        refine .inr ⟨rfl, ?_⟩
        simp only [ofLex_toLex]
        rw [← walk_value hready.settled hw₁ hready.acyclic.solves_solution,
          S.den_compound hl₁, Term.apply_app, List.map_map]
        exact Term.size_lt_of_mem
          (List.mem_map_of_mem (f := Term.apply _ ∘ S.den) ha)
      have hargs (n : ℕ) : CheckedArgs (Checked S n) (E.unify n) as bs s := by
        have := hchecked (n + 1) w₁ w₂ hw₁ hw₂
        rw [hnext] at this
        exact this
      obtain ⟨n, r, hn, hbinds⟩ := ends_args (fun s t₁ t₂ hlt => ih _ hlt s t₁ t₂ rfl) hlen
        hready ((closed_inside W).args hI₁ hl₁) ((closed_inside W).args hI₂ hl₂) hsmall hargs
      refine ⟨n + 1, r, ?_, hbinds⟩
      simp only [hrun, hnext]
      exact hn

theorem unify_total (hs : Settled E s) (hacyclic : Acyclic (S.bindings s)) {t₁ t₂ : T}
    (hchecked : ∀ n, Checked S n t₁ t₂ s) : ∃ n r, E.unify n t₁ t₂ (some s) = .ok r := by
  let W : Finset V := ((S.den t₁).vars ++ (S.den t₂).vars ++
    s.flatMap fun b => (S.den b.2).vars).toFinset
  have hready : Ready W S s := by
    refine ⟨hs, hacyclic, ?_⟩
    intro b hb v hv
    simp only [W, List.mem_toFinset, List.mem_append, List.mem_flatMap]
    exact .inr ⟨b, hb, hv⟩
  obtain ⟨n, r, hn, -⟩ := ends_unify (W := W) _ s t₁ t₂ rfl hready
    (fun v hv => by simp [W, hv]) (fun v hv => by simp [W, hv]) hchecked
  exact ⟨n, r, hn⟩

end Termination

section Runs

theorem unify_some_nil {n : ℕ} {t₁ t₂ : T} {s' : List (V × T)}
    (h : E.unify n t₁ t₂ none = .ok (some s')) : E.unify n t₁ t₂ (some []) = .ok (some s') := by
  have hleads : E.Leads t₁ t₂ := by
    by_contra hleads
    cases unify_none_of_not_leads hleads h
  rw [← unify_none hleads n, h]

/-- What is obtained from no bindings by successful calls that satisfy `c`. -/
inductive Obtained (E : Engine T V L) (c : T → T → List (V × T) → Prop) :
    Option (List (V × T)) → Prop
  | nothing : Obtained E c none
  | empty : Obtained E c (some [])
  | call {s : Option (List (V × T))} {s' : List (V × T)} {t₁ t₂ : T} {n : ℕ}
      (hs : Obtained E c s) (hc : c t₁ t₂ (s.getD []))
      (h : E.unify n t₁ t₂ s = .ok (some s')) : Obtained E c (some s')

theorem Obtained.mono {c c' : T → T → List (V × T) → Prop} {s : Option (List (V × T))}
    (h : Obtained E c s) (hc : ∀ t₁ t₂ s, c t₁ t₂ s → c' t₁ t₂ s) : Obtained E c' s := by
  induction h with
  | nothing => exact .nothing
  | empty => exact .empty
  | call _ hcall hrun ih => exact .call ih (hc _ _ _ hcall) hrun

theorem Obtained.acyclic {s : Option (List (V × T))}
    (h : Obtained E (fun t₁ t₂ s => ∀ n, Checked S n t₁ t₂ s) s) :
    Settled E (s.getD []) ∧ Acyclic (S.bindings (s.getD [])) := by
  have hnil : Settled E [] ∧ Acyclic (S.bindings []) := by
    refine ⟨?_, acyclic_nil⟩
    intro b hb
    cases hb
  induction h with
  | nothing => exact hnil
  | empty => exact hnil
  | @call s s' t₁ t₂ n hs hc hrun ih =>
    have hrun' : E.unify n t₁ t₂ (some (s.getD [])) = .ok (some s') := by
      cases s with
      | none => exact unify_some_nil hrun
      | some s => exact hrun
    have hgrows := unify_grows S (closed_true E) ih.1 (fun _ _ => trivial) trivial trivial hrun'
    exact ⟨hgrows.settled, unify_acyclic ih.1 ih.2 (hc n) hrun'⟩

end Runs

end Semantics

end Unify
