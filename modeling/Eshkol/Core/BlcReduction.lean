import Eshkol.Core.Blc
import Eshkol.Lambda.Reduction
import Mathlib.Tactic.SplitIfs

/-!
# Reduction in Binary Lambda Calculus

The terms of `lib/core/blc.esk` with positive indices are the lambda terms, with indices that start
at one. Shifting and substitution of single variables amount to the substitution that contracts a
redex, and `blc-step` is a step in normal order. Results are compared as lambda terms, where an
index 0 would read like 1.
-/

namespace Eshkol.Core.Blc

open Machine Relation

/-! ### Indices that start at one -/

/-- A lambda term, with indices that start at one. -/
def ofLambda : Lambda.Term → Term
  | .var i => .var (i + 1)
  | .lam b => .lam (ofLambda b)
  | .app f a => .app (ofLambda f) (ofLambda a)

/-- The lambda term of a term. -/
def toLambda : Term → Lambda.Term
  | .var i => .var (i - 1).toNat
  | .lam b => .lam (toLambda b)
  | .app m n => .app (toLambda m) (toLambda n)

theorem toLambda_ofLambda (t : Lambda.Term) : toLambda (ofLambda t) = t := by
  induction t with
  | var i => simp [ofLambda, toLambda]
  | lam b ih => rw [ofLambda, toLambda, ih]
  | app f a ihf iha => rw [ofLambda, toLambda, ihf, iha]

theorem blcTerm_ofLambda (t : Lambda.Term) : blcTerm (ofLambda t) = true := by
  induction t with
  | var i => exact decide_eq_true (by omega)
  | lam b ih => exact ih
  | app f a ihf iha => exact Bool.and_eq_true_iff.mpr ⟨ihf, iha⟩

theorem ofLambda_toLambda {t : Term} (ht : blcTerm t = true) : ofLambda (toLambda t) = t := by
  induction t with
  | var i =>
    have hi : 1 ≤ i := of_decide_eq_true ht
    rw [toLambda, ofLambda]
    congr 1
    omega
  | lam b ih => rw [toLambda, ofLambda, ih ht]
  | app m n ihm ihn =>
    obtain ⟨hm, hn⟩ := Bool.and_eq_true_iff.mp ht
    rw [toLambda, ofLambda, ihm hm, ihn hn]

/-! ### Shifting -/

/-- The variables from a bound on are moved. -/
def moveBy (c k : ℕ) (i : ℕ) : ℕ := if i < c then i else i + k

theorem upRen_moveBy (c k : ℕ) : Lambda.Term.upRen (moveBy c k) = moveBy (c + 1) k := by
  funext i
  cases i with
  | zero => rfl
  | succ i =>
    rw [Lambda.Term.upRen, moveBy, moveBy]
    split_ifs <;> omega

theorem moveBy_zero (k : ℕ) : moveBy 0 k = fun i => i + k := by
  funext i
  rw [moveBy, if_neg (Nat.not_lt_zero i)]

theorem blcShift_one (t : Lambda.Term) (c : ℕ) :
    blcShift 1 (c + 1) (ofLambda t) = ofLambda (t.rename (moveBy c 1)) := by
  induction t generalizing c with
  | var i =>
    rw [ofLambda, blcShift, Lambda.Term.rename, ofLambda, moveBy]
    split_ifs with h h' h'
    · omega
    · congr 1
    · rfl
    · omega
  | lam b ih =>
    have ih := ih (c + 1)
    rw [Nat.cast_succ] at ih
    rw [ofLambda, blcShift, Lambda.Term.rename, ofLambda, upRen_moveBy, ih]
  | app f a ihf iha => rw [ofLambda, blcShift, Lambda.Term.rename, ofLambda, ihf, iha]

theorem blcShift_neg (t : Lambda.Term) (c k : ℕ) :
    blcShift (-1) (c + k + 1) (ofLambda (t.rename (moveBy c (k + 1)))) =
      ofLambda (t.rename (moveBy c k)) := by
  induction t generalizing c with
  | var i =>
    rw [Lambda.Term.rename, Lambda.Term.rename, ofLambda, ofLambda, blcShift, moveBy, moveBy]
    split_ifs with h h' h'
    · omega
    · rfl
    · congr 1
      push_cast
      omega
    · push_cast at h'
      omega
  | lam b ih =>
    have ih := ih (c + 1)
    rw [Nat.cast_succ] at ih
    rw [Lambda.Term.rename, Lambda.Term.rename, ofLambda, ofLambda, blcShift, upRen_moveBy,
      upRen_moveBy, ← ih]
    congr 2
    omega
  | app f a ihf iha =>
    rw [Lambda.Term.rename, Lambda.Term.rename, ofLambda, ofLambda, blcShift, ihf, iha]

/-! ### Contraction -/

/-- The substitution for a redex, below so many binders. -/
def substAt (n : Lambda.Term) (k i : ℕ) : Lambda.Term :=
  if i < k then .var i else if i = k then n.rename (· + k) else .var (i - 1)

theorem up_substAt (n : Lambda.Term) (k : ℕ) :
    Lambda.Term.up (substAt n k) = substAt n (k + 1) := by
  funext i
  cases i with
  | zero => rfl
  | succ i =>
    change (substAt n k i).rename Nat.succ = _
    rw [substAt, substAt]
    split_ifs with h₁ h₂ h₃ h₄ h₅ h₆
    · rfl
    · omega
    · omega
    · omega
    · rw [Lambda.Term.rename_rename]
      rfl
    · omega
    · omega
    · omega
    · rw [Lambda.Term.rename]
      congr 1
      omega

theorem substAt_zero (n : Lambda.Term) : substAt n 0 = Lambda.Term.scons n Lambda.Term.var := by
  funext i
  cases i with
  | zero =>
    rw [substAt, if_neg (Nat.not_lt_zero 0), if_pos rfl]
    change n.rename id = n
    rw [Lambda.Term.rename_eq_inst]
    exact Lambda.Term.inst_var n
  | succ i => rfl

theorem blcShift_blcSubst (b n : Lambda.Term) (k : ℕ) :
    blcShift (-1) (k + 1) (blcSubst (ofLambda b) (k + 1) (ofLambda (n.rename (· + (k + 1))))) =
      ofLambda (b.inst (substAt n k)) := by
  induction b generalizing k with
  | var i =>
    rw [ofLambda, blcSubst, Lambda.Term.inst, substAt]
    by_cases hik : i = k
    · subst hik
      have hneg := blcShift_neg n 0 i
      rw [moveBy_zero, moveBy_zero, Nat.cast_zero, zero_add] at hneg
      rw [if_pos rfl, if_neg (Nat.lt_irrefl i), if_pos rfl, hneg]
    · rw [if_neg (by omega), if_neg hik, blcShift]
      split_ifs with h h' h'
      · omega
      · rw [ofLambda]
        congr 1
        omega
      · rfl
      · omega
  | lam b ih =>
    have ih := ih (k + 1)
    have hshift := blcShift_one (n.rename (· + (k + 1))) 0
    rw [Nat.cast_zero, zero_add, moveBy_zero, Lambda.Term.rename_rename] at hshift
    rw [Nat.cast_succ] at ih
    rw [ofLambda, blcSubst, blcShift, hshift, Lambda.Term.inst, ofLambda, up_substAt, ← ih]
    rfl
  | app f a ihf iha => rw [ofLambda, blcSubst, blcShift, ihf, iha, Lambda.Term.inst, ofLambda]

theorem blcBeta_ofLambda (b n : Lambda.Term) :
    blcBeta (ofLambda b) (ofLambda n) = ofLambda (Lambda.Term.contract b n) := by
  have hshift := blcShift_one n 0
  have hsubst := blcShift_blcSubst b n 0
  rw [Nat.cast_zero, zero_add, moveBy_zero] at hshift
  rw [Nat.cast_zero, zero_add, substAt_zero] at hsubst
  rw [blcBeta, hshift, Lambda.Term.contract, ← hsubst]

/-! ### Steps -/

/-- A redex is contracted by `blc-beta` somewhere in a term. -/
inductive BetaStep : Term → Term → Prop
  | redex (b n : Term) : BetaStep (.app (.lam b) n) (blcBeta b n)
  | lam {b b' : Term} (h : BetaStep b b') : BetaStep (.lam b) (.lam b')
  | fn {m m' : Term} (n : Term) (h : BetaStep m m') : BetaStep (.app m n) (.app m' n)
  | arg (m : Term) {n n' : Term} (h : BetaStep n n') : BetaStep (.app m n) (.app m n')

theorem betaStep_ofLambda {t u : Lambda.Term} (h : Lambda.Beta t u) :
    BetaStep (ofLambda t) (ofLambda u) := by
  induction h with
  | redex b a =>
    rw [← blcBeta_ofLambda]
    exact .redex _ _
  | lam h ih => exact .lam ih
  | fn a h ih => exact .fn _ ih
  | arg f h ih => exact .arg _ ih

theorem beta_of_betaStep {t : Lambda.Term} {u : Term} (h : BetaStep (ofLambda t) u) :
    ∃ u', Lambda.Beta t u' := by
  induction t generalizing u with
  | var i => cases h
  | lam b ih =>
    rw [ofLambda] at h
    cases h with
    | lam h =>
      obtain ⟨b', hb⟩ := ih h
      exact ⟨_, .lam hb⟩
  | app f a ihf iha =>
    cases f with
    | lam b => exact ⟨_, .redex b a⟩
    | var i =>
      rw [ofLambda] at h
      cases h with
      | fn _ h => cases h
      | arg _ h =>
        obtain ⟨a', ha⟩ := iha h
        exact ⟨_, .arg _ ha⟩
    | app g c =>
      rw [ofLambda] at h
      cases h with
      | fn _ h =>
        obtain ⟨f', hf⟩ := ihf h
        exact ⟨_, .fn _ hf⟩
      | arg _ h =>
        obtain ⟨a', ha⟩ := iha h
        exact ⟨_, .arg _ ha⟩

theorem step?_eq_none_iff_betaStep (t : Lambda.Term) :
    Lambda.step? t = none ↔ ∀ u, ¬ BetaStep (ofLambda t) u := by
  rw [Lambda.step?_eq_none_iff]
  constructor
  · intro h u hu
    obtain ⟨u', hu'⟩ := beta_of_betaStep hu
    exact h u' hu'
  · intro h u hu
    exact h _ (betaStep_ofLambda hu)

theorem blcStep_app {m : Term} (hm : ∀ b, m ≠ .lam b) (n : Term) :
    blcStep (.app m n) =
      if (blcStep m).1 then (true, .app (blcStep m).2 n)
      else if (blcStep n).1 then (true, .app m (blcStep n).2) else (false, .app m n) := by
  cases m with
  | var i => rfl
  | lam b => exact absurd rfl (hm b)
  | app m' n' => rfl

theorem blcStep_ofLambda (t : Lambda.Term) :
    blcStep (ofLambda t) =
      match Lambda.step? t with
      | some u => (true, ofLambda u)
      | none => (false, ofLambda t) := by
  induction t with
  | var i => rfl
  | lam b ih =>
    rw [ofLambda, blcStep, ih, Lambda.step?]
    cases Lambda.step? b with
    | some b' => rfl
    | none => rfl
  | app f a ihf iha =>
    by_cases hlam : ∃ b, f = .lam b
    · obtain ⟨b, rfl⟩ := hlam
      change (true, blcBeta (ofLambda b) (ofLambda a)) = (true, ofLambda (Lambda.Term.contract b a))
      rw [blcBeta_ofLambda]
    · have hlam' : ∀ b, ofLambda f ≠ .lam b := by
        intro b hb
        cases f with
        | var i => cases hb
        | lam c => exact hlam ⟨c, rfl⟩
        | app g c => cases hb
      rw [ofLambda, blcStep_app hlam', Lambda.step?_app fun b hb => hlam ⟨b, hb⟩, ihf, iha]
      cases Lambda.step? f with
      | some f' => rfl
      | none =>
        cases Lambda.step? a with
        | some a' => rfl
        | none => rfl

/-! ### Closed terms -/

/-- Every index refers to one of so many binders around the term, or to one in it. -/
def IndicesUpTo : ℤ → Term → Prop
  | k, .var i => i ≤ k
  | k, .lam b => IndicesUpTo (k + 1) b
  | k, .app m n => IndicesUpTo k m ∧ IndicesUpTo k n

/-- A closed term. -/
def IsClosed (t : Term) : Prop := IndicesUpTo 0 t

theorem indicesUpTo_ofLambda (t : Lambda.Term) (k : ℕ) :
    IndicesUpTo k (ofLambda t) ↔ t.FreeBelow k := by
  induction t generalizing k with
  | var i =>
    rw [ofLambda, IndicesUpTo, Lambda.Term.FreeBelow]
    omega
  | lam b ih =>
    have ih := ih (k + 1)
    rwa [Nat.cast_succ] at ih
  | app f a ihf iha => exact and_congr (ihf k) (iha k)

theorem isClosed_ofLambda (t : Lambda.Term) : IsClosed (ofLambda t) ↔ t.Closed :=
  indicesUpTo_ofLambda t 0

theorem freeBelow_of_beta {t u : Lambda.Term} (h : Lambda.Beta t u) {k : ℕ} (ht : t.FreeBelow k) :
    u.FreeBelow k := by
  induction h generalizing k with
  | redex b a => exact Lambda.Term.FreeBelow.contract ht.1 ht.2
  | lam h ih => exact ih ht
  | fn a h ih => exact ⟨ih ht.1, ht.2⟩
  | arg f h ih => exact ⟨ht.1, ih ht.2⟩

theorem blcEvalLoop_spec {room : ℕ} {t : Lambda.Term} {u : Term}
    (h : blcEvalLoop room (ofLambda t) = .ok u) :
    (∀ v, ¬ BetaStep u v) ∧ ReflTransGen BetaStep (ofLambda t) u := by
  induction room generalizing t with
  | zero => simp [blcEvalLoop, raise] at h
  | succ room ih =>
    rw [blcEvalLoop, blcStep_ofLambda] at h
    cases hstep : Lambda.step? t with
    | some t' =>
      rw [hstep] at h
      obtain ⟨hnormal, hreach⟩ := ih h
      exact ⟨hnormal, .head (betaStep_ofLambda (Lambda.beta_of_step? hstep)) hreach⟩
    | none =>
      rw [hstep] at h
      obtain rfl := Except.ok.inj h
      exact ⟨(step?_eq_none_iff_betaStep t).mp hstep, .refl⟩

/-- **Reduction of binary lambda calculus terms**: `blc-beta` substitutes without capture, `blc-step`
keeps closed terms closed, it reports no step exactly on normal forms and else contracts the
leftmost of the outermost redexes, and `blc-eval` returns normal forms that are reached by steps. -/
theorem blc_reduction {t : Term} (ht : blcTerm t = true) :
    (∀ b n, t = .app (.lam b) n →
      toLambda (blcBeta b n) = (toLambda b).inst (Lambda.Term.scons (toLambda n) .var)) ∧
    (IsClosed t → IsClosed (blcStep t).2) ∧
    ((blcStep t).1 = false ↔ ∀ u, ¬ BetaStep t u) ∧
    ((blcStep t).1 = true → BetaStep t (blcStep t).2 ∧
      Lambda.LeftmostOutermost (toLambda t) (toLambda (blcStep t).2)) ∧
    ∀ u, blcEval t = .ok u → (∀ v, ¬ BetaStep u v) ∧ ReflTransGen BetaStep t u := by
  obtain ⟨s, rfl⟩ : ∃ s, t = ofLambda s := ⟨toLambda t, (ofLambda_toLambda ht).symm⟩
  have hspec := blcStep_ofLambda s
  refine ⟨?_, ?_, ?_, ?_, fun u hu => blcEvalLoop_spec hu⟩
  · rintro b n heq
    rw [heq] at ht
    obtain ⟨hlam, hn⟩ := Bool.and_eq_true_iff.mp ht
    have hb : blcTerm b = true := hlam
    rw [← ofLambda_toLambda hb, ← ofLambda_toLambda hn, blcBeta_ofLambda, toLambda_ofLambda,
      toLambda_ofLambda, toLambda_ofLambda]
    rfl
  · intro hclosed
    rw [hspec]
    cases hstep : Lambda.step? s with
    | some u =>
      rw [isClosed_ofLambda] at hclosed ⊢
      exact freeBelow_of_beta (Lambda.beta_of_step? hstep) hclosed
    | none => exact hclosed
  · rw [hspec, ← step?_eq_none_iff_betaStep]
    cases Lambda.step? s with
    | some u => simp
    | none => simp
  · rw [hspec]
    cases hstep : Lambda.step? s with
    | some u =>
      intro _
      rw [toLambda_ofLambda, toLambda_ofLambda]
      exact ⟨betaStep_ofLambda (Lambda.beta_of_step? hstep), Lambda.step?_leftmost hstep⟩
    | none => simp

/-- In `(λ.(λ.1) 1) (λ.1)` the outer redex is contracted first. -/
theorem blc_reduction_outer :
    (blcStep (.app (.lam (.app (.lam (.var 1)) (.var 1))) (.lam (.var 1)))).1 = true ∧
      Lambda.LeftmostOutermost
        (.app (.lam (.app (.lam (.var 0)) (.var 0))) (.lam (.var 0)))
        (.app (.lam (.var 0)) (.lam (.var 0))) :=
  ⟨rfl, ((@blc_reduction (.app (.lam (.app (.lam (.var 1)) (.var 1))) (.lam (.var 1))) rfl).2.2.2.1
    rfl).2⟩

end Eshkol.Core.Blc
