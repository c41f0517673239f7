import Mathlib.Logic.Relation
import Eshkol.Lambda.Term

/-!
# Beta Reduction

Reduction of lambda terms, with redexes named by their paths. `step?` contracts the redex that is
leftmost and outermost, and fails on normal forms. Convertibility is closed under substitution, so
that a computation with free variables stands for all its instances.
-/

namespace Lambda

open Term Relation

/-! ### Steps -/

/-- A redex is contracted somewhere in a term. -/
inductive Beta : Term → Term → Prop
  | redex (b a : Term) : Beta (app (lam b) a) (contract b a)
  | lam {b b' : Term} (h : Beta b b') : Beta (lam b) (lam b')
  | fn {f f' : Term} (a : Term) (h : Beta f f') : Beta (app f a) (app f' a)
  | arg (f : Term) {a a' : Term} (h : Beta a a') : Beta (app f a) (app f a')

/-- A step down in a term. -/
inductive Dir : Type
  | body
  | fn
  | arg
  deriving DecidableEq

/-- The subterm at a path. -/
def subterm? : List Dir → Term → Option Term
  | [], t => some t
  | .body :: p, lam b => subterm? p b
  | .fn :: p, app f _ => subterm? p f
  | .arg :: p, app _ a => subterm? p a
  | _ :: _, _ => none

/-- The subterm at a path is replaced. -/
def replace (u : Term) : List Dir → Term → Term
  | [], _ => u
  | .body :: p, lam b => lam (replace u p b)
  | .fn :: p, app f a => app (replace u p f) a
  | .arg :: p, app f a => app f (replace u p a)
  | _ :: _, t => t

/-- There is a redex at the path. -/
def RedexAt (p : List Dir) (t : Term) : Prop := ∃ b a, subterm? p t = some (app (lam b) a)

/-- The redex at the path is contracted. -/
def ContractsAt (p : List Dir) (t u : Term) : Prop :=
  ∃ b a, subterm? p t = some (app (lam b) a) ∧ u = replace (contract b a) p t

/-- The first path leads to a term around the second one, or to its left. -/
def Before : List Dir → List Dir → Prop
  | [], _ => True
  | _ :: _, [] => False
  | d :: p, e :: q => (d = .fn ∧ e = .arg) ∨ (d = e ∧ Before p q)

/-- The leftmost of the outermost redexes is contracted. -/
def LeftmostOutermost (t u : Term) : Prop := ∃ p, ContractsAt p t u ∧ ∀ q, RedexAt q t → Before p q

theorem beta_iff {t u : Term} : Beta t u ↔ ∃ p, ContractsAt p t u := by
  constructor
  · intro h
    induction h with
    | redex b a => exact ⟨[], b, a, rfl, rfl⟩
    | lam h ih =>
      obtain ⟨p, b, a, hsub, rfl⟩ := ih
      exact ⟨.body :: p, b, a, hsub, rfl⟩
    | fn c h ih =>
      obtain ⟨p, b, a, hsub, rfl⟩ := ih
      exact ⟨.fn :: p, b, a, hsub, rfl⟩
    | arg f h ih =>
      obtain ⟨p, b, a, hsub, rfl⟩ := ih
      exact ⟨.arg :: p, b, a, hsub, rfl⟩
  · rintro ⟨p, b, a, hsub, rfl⟩
    induction p generalizing t with
    | nil =>
      obtain rfl := Option.some.inj hsub
      exact .redex b a
    | cons d p ih =>
      cases t with
      | var i => cases d <;> simp [subterm?] at hsub
      | lam c =>
        cases d with
        | body => exact .lam (ih hsub)
        | fn | arg => simp [subterm?] at hsub
      | app f c =>
        cases d with
        | body => simp [subterm?] at hsub
        | fn => exact .fn c (ih hsub)
        | arg => exact .arg f (ih hsub)

theorem exists_beta_iff {t : Term} : (∃ u, Beta t u) ↔ ∃ p, RedexAt p t := by
  constructor
  · rintro ⟨u, h⟩
    obtain ⟨p, b, a, hsub, -⟩ := beta_iff.mp h
    exact ⟨p, b, a, hsub⟩
  · rintro ⟨p, b, a, hsub⟩
    exact ⟨_, beta_iff.mpr ⟨p, b, a, hsub, rfl⟩⟩

/-! ### Normal order -/

/-- One step in normal order. -/
def step? : Term → Option Term
  | var _ => none
  | lam b => (step? b).map lam
  | app (lam b) a => some (contract b a)
  | app f a =>
    match step? f with
    | some f' => some (app f' a)
    | none => (step? a).map (app f)

theorem step?_app {f : Term} (hf : ∀ b, f ≠ lam b) (a : Term) :
    step? (app f a) = match step? f with
      | some f' => some (app f' a)
      | none => (step? a).map (app f) := by
  cases f with
  | var i => rfl
  | lam b => exact absurd rfl (hf b)
  | app g c => rfl

/-- A step contracts the leftmost outermost redex, if there is one. -/
theorem step?_spec (t : Term) :
    match step? t with
    | some u => LeftmostOutermost t u
    | none => ∀ q, ¬ RedexAt q t := by
  induction t with
  | var i =>
    rintro q ⟨b, a, h⟩
    cases q with
    | nil => simp [subterm?] at h
    | cons d q => cases d <;> simp [subterm?] at h
  | lam b ih =>
    rw [step?]
    cases hb : step? b with
    | some b' =>
      rw [hb] at ih
      obtain ⟨p, ⟨c, a, hsub, rfl⟩, hfirst⟩ := ih
      refine ⟨.body :: p, ⟨c, a, hsub, rfl⟩, ?_⟩
      rintro q ⟨c', a', hq⟩
      cases q with
      | nil => simp [subterm?] at hq
      | cons d q =>
        cases d with
        | body => exact .inr ⟨rfl, hfirst q ⟨c', a', hq⟩⟩
        | fn | arg => simp [subterm?] at hq
    | none =>
      rw [hb] at ih
      rintro q ⟨c', a', hq⟩
      cases q with
      | nil => simp [subterm?] at hq
      | cons d q =>
        cases d with
        | body => exact ih q ⟨c', a', hq⟩
        | fn | arg => simp [subterm?] at hq
  | app f a ihf iha =>
    by_cases hlam : ∃ b, f = lam b
    · obtain ⟨b, rfl⟩ := hlam
      exact ⟨[], ⟨b, a, rfl, rfl⟩, fun q _ => trivial⟩
    · rw [step?_app fun b hb => hlam ⟨b, hb⟩]
      have hroot {q : List Dir} (hq : RedexAt q (app f a)) :
          (∃ p, q = .fn :: p ∧ RedexAt p f) ∨ ∃ p, q = .arg :: p ∧ RedexAt p a := by
        obtain ⟨b', a', hq⟩ := hq
        cases q with
        | nil =>
          obtain ⟨rfl, -⟩ := Term.app.inj (Option.some.inj hq)
          exact absurd ⟨b', rfl⟩ hlam
        | cons d q =>
          cases d with
          | body => simp [subterm?] at hq
          | fn => exact .inl ⟨q, rfl, b', a', hq⟩
          | arg => exact .inr ⟨q, rfl, b', a', hq⟩
      cases hf : step? f with
      | some f' =>
        rw [hf] at ihf
        obtain ⟨p, ⟨c, d, hsub, rfl⟩, hfirst⟩ := ihf
        refine ⟨.fn :: p, ⟨c, d, hsub, rfl⟩, fun q hq => ?_⟩
        rcases hroot hq with ⟨q, rfl, hq⟩ | ⟨q, rfl, -⟩
        · exact .inr ⟨rfl, hfirst q hq⟩
        · exact .inl ⟨rfl, rfl⟩
      | none =>
        rw [hf] at ihf
        cases ha : step? a with
        | some a' =>
          rw [ha] at iha
          obtain ⟨p, ⟨c, d, hsub, rfl⟩, hfirst⟩ := iha
          refine ⟨.arg :: p, ⟨c, d, hsub, rfl⟩, fun q hq => ?_⟩
          rcases hroot hq with ⟨q, rfl, hq⟩ | ⟨q, rfl, hq⟩
          · exact absurd hq (ihf q)
          · exact .inr ⟨rfl, hfirst q hq⟩
        | none =>
          rw [ha] at iha
          intro q hq
          rcases hroot hq with ⟨q, rfl, hq⟩ | ⟨q, rfl, hq⟩
          · exact ihf q hq
          · exact iha q hq

theorem step?_leftmost {t u : Term} (h : step? t = some u) : LeftmostOutermost t u := by
  have hspec := step?_spec t
  rwa [h] at hspec

theorem step?_eq_none_iff {t : Term} : step? t = none ↔ ∀ u, ¬ Beta t u := by
  have hspec := step?_spec t
  rw [← not_exists, exists_beta_iff, not_exists]
  cases h : step? t with
  | none =>
    rw [h] at hspec
    exact iff_of_true rfl hspec
  | some u =>
    rw [h] at hspec
    obtain ⟨p, ⟨b, a, hsub, -⟩, -⟩ := hspec
    exact iff_of_false (by simp) fun hnone => hnone p ⟨b, a, hsub⟩

theorem beta_of_step? {t u : Term} (h : step? t = some u) : Beta t u := by
  obtain ⟨p, hp, -⟩ := step?_leftmost h
  exact beta_iff.mpr ⟨p, hp⟩

/-! ### Convertibility -/

/-- Two terms are convertible. -/
def Conv (t u : Term) : Prop := EqvGen Beta t u

namespace Conv

variable {t u v : Term}

theorem refl (t : Term) : Conv t t := EqvGen.refl t

theorem symm (h : Conv t u) : Conv u t := EqvGen.symm t u h

theorem trans (h : Conv t u) (h' : Conv u v) : Conv t v := EqvGen.trans t u v h h'

instance : Trans Conv Conv Conv := ⟨trans⟩

theorem of_beta (h : Beta t u) : Conv t u := EqvGen.rel t u h

theorem map {f : Term → Term} (hf : ∀ {t u}, Beta t u → Beta (f t) (f u)) (h : Conv t u) :
    Conv (f t) (f u) := by
  induction h with
  | rel t u h => exact of_beta (hf h)
  | refl t => exact refl _
  | symm t u _ ih => exact ih.symm
  | trans t u v _ _ ih ih' => exact ih.trans ih'

theorem fn (h : Conv t u) (a : Term) : Conv (app t a) (app u a) :=
  map (f := fun t => app t a) (fun h => .fn a h) h

theorem arg (f : Term) (h : Conv t u) : Conv (app f t) (app f u) := map (fun h => .arg f h) h

theorem app {t' u' : Term} (h : Conv t u) (h' : Conv t' u') : Conv (app t t') (Term.app u u') :=
  (h.fn t').trans (arg u h')

theorem lam (h : Conv t u) : Conv (lam t) (Term.lam u) := map (fun h => .lam h) h

end Conv

theorem Beta.inst {t u : Term} (h : Beta t u) (σ : ℕ → Term) : Beta (t.inst σ) (u.inst σ) := by
  induction h generalizing σ with
  | redex b a =>
    rw [inst_contract]
    exact .redex _ _
  | lam h ih => exact .lam (ih (up σ))
  | fn a h ih => exact .fn _ (ih σ)
  | arg f h ih => exact .arg _ (ih σ)

theorem Conv.inst {t u : Term} (h : Conv t u) (σ : ℕ → Term) : Conv (t.inst σ) (u.inst σ) :=
  Conv.map (fun h => h.inst σ) h

/-- So many steps in normal order, or as many as there are. -/
def steps : ℕ → Term → Term
  | 0, t => t
  | n + 1, t =>
    match step? t with
    | some u => steps n u
    | none => t

theorem conv_steps (n : ℕ) (t : Term) : Conv t (steps n t) := by
  induction n generalizing t with
  | zero => exact Conv.refl t
  | succ n ih =>
    rw [steps]
    split
    next u h => exact (Conv.of_beta (beta_of_step? h)).trans (ih u)
    next => exact Conv.refl t

theorem conv_of_steps {t u : Term} (m n : ℕ) (h : steps m t = steps n u) : Conv t u :=
  (conv_steps m t).trans (h ▸ (conv_steps n u).symm)

end Lambda
