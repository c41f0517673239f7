import Mathlib.Data.Finsupp.Basic
import Mathlib.Algebra.BigOperators.Finsupp.Basic
import Eshkol.Weighted.Canonical
import Eshkol.Dataflow.Stream

/-!
# Weights of Lists

The weights that a list gives to its items, as a function of finite support. Where different
items have different keys, a consolidated list is determined by its weights, and the weights by
the totals of the keys.
-/

namespace Weighted

open Finsupp

variable {ρ σ κ : Type}

/-- The weights that a list gives to its items. -/
noncomputable def weights (es : List (ℤ × ρ)) : ρ →₀ ℤ := (es.map fun e => single e.2 e.1).sum

@[simp] theorem weights_nil : weights ([] : List (ℤ × ρ)) = 0 := rfl

theorem weights_cons (e : ℤ × ρ) (es : List (ℤ × ρ)) :
    weights (e :: es) = single e.2 e.1 + weights es := by
  rw [weights, List.map_cons, List.sum_cons, weights]

theorem weights_append (es fs : List (ℤ × ρ)) : weights (es ++ fs) = weights es + weights fs := by
  rw [weights, List.map_append, List.sum_append, weights, weights]

/-! ### Keys -/

section

variable [LinearOrder κ] {key : ρ → κ} {R : Set ρ} {es fs : List (ℤ × ρ)}

theorem weights_apply_eq_zero (hes : ∀ e ∈ es, e.2 ∈ R) {r : ρ} (hr : r ∉ R) :
    weights es r = 0 := by
  induction es with
  | nil => rfl
  | cons e es ih =>
    rw [List.forall_mem_cons] at hes
    rw [weights_cons, Finsupp.add_apply, ih hes.2, single_eq_of_ne, add_zero]
    rintro rfl
    exact hr hes.1

variable (hinj : Set.InjOn key R)
include hinj

theorem weights_apply (hes : ∀ e ∈ es, e.2 ∈ R) {r : ρ} (hr : r ∈ R) :
    weights es r = total key es (key r) := by
  induction es with
  | nil => rfl
  | cons e es ih =>
    rw [List.forall_mem_cons] at hes
    rw [weights_cons, Finsupp.add_apply, ih hes.2, total_cons]
    congr 1
    by_cases h : e.2 = r
    · rw [h, single_eq_same, if_pos rfl]
    · rw [single_eq_of_ne (Ne.symm h), if_neg fun hkey => h (hinj hes.1 hr hkey)]

theorem weights_congr (hes : ∀ e ∈ es, e.2 ∈ R) (hfs : ∀ e ∈ fs, e.2 ∈ R)
    (htotal : ∀ k, total key es k = total key fs k) : weights es = weights fs := by
  ext r
  by_cases hr : r ∈ R
  · rw [weights_apply hinj hes hr, weights_apply hinj hfs hr, htotal]
  · rw [weights_apply_eq_zero hes hr, weights_apply_eq_zero hfs hr]

theorem Consolidated.eq_of_weights (hes : Consolidated key es) (hfs : Consolidated key fs)
    (hesR : ∀ e ∈ es, e.2 ∈ R) (hfsR : ∀ e ∈ fs, e.2 ∈ R) (h : weights es = weights fs) :
    es = fs := by
  have htotal : ∀ k, total key es k = total key fs k := by
    intro k
    by_cases hk : ∃ r ∈ R, key r = k
    · obtain ⟨r, hr, rfl⟩ := hk
      rw [← weights_apply hinj hesR hr, ← weights_apply hinj hfsR hr, h]
    · rw [total_eq_zero fun e he heq => hk ⟨e.2, hesR e he, heq⟩,
        total_eq_zero fun e he heq => hk ⟨e.2, hfsR e he, heq⟩]
  have hforall := hes.ext hfs htotal
  clear hes hfs h htotal
  induction hforall with
  | nil => rfl
  | @cons e f es fs hef _ ih =>
    rw [List.forall_mem_cons] at hesR hfsR
    rw [ih hesR.2 hfsR.2, Prod.ext hef.1 (hinj hesR.1 hfsR.1 hef.2)]

end

/-! ### Operations -/

theorem weights_neg (es : List (ℤ × ρ)) : weights (es.map fun e => (-e.1, e.2)) = -weights es := by
  induction es with
  | nil => simp
  | cons e es ih => rw [List.map_cons, weights_cons, weights_cons, ih, single_neg, neg_add]

theorem weights_map (f : ρ → σ) (es : List (ℤ × ρ)) :
    weights (es.map fun e => (e.1, f e.2)) = mapDomain f (weights es) := by
  induction es with
  | nil => simp
  | cons e es ih =>
    rw [List.map_cons, weights_cons, weights_cons, ih, mapDomain_add, mapDomain_single]

theorem weights_filter (p : ρ → Bool) (es : List (ℤ × ρ)) :
    weights (es.filter fun e => p e.2) = (weights es).filter fun r => p r = true := by
  induction es with
  | nil => exact (filter_zero _).symm
  | cons e es ih =>
    rw [weights_cons, filter_add, ← ih]
    by_cases h : p e.2 = true
    · have hsingle : (single e.2 e.1).filter (fun r => p r = true) = single e.2 e.1 :=
        filter_single_of_pos _ h
      rw [List.filter_cons, if_pos h, weights_cons, hsingle]
    · have hsingle : (single e.2 e.1).filter (fun r => p r = true) = 0 :=
        filter_single_of_neg _ h
      rw [List.filter_cons, if_neg h, hsingle, zero_add]

/-- The weights of a join: an item for each pair of items that match, with the product of their
weights. -/
noncomputable def joinWeights (m : ρ → ρ → Bool) (emit : ρ → ρ → σ) (a b : ρ →₀ ℤ) : σ →₀ ℤ :=
  a.sum fun r w => b.sum fun s v => if m r s then single (emit r s) (w * v) else 0

theorem joinWeights_biadditive (m : ρ → ρ → Bool) (emit : ρ → ρ → σ) :
    Dataflow.Biadditive (joinWeights m emit) where
  add_left a a' b := by
    refine sum_add_index' (fun r => ?_) fun r w w' => ?_
    · simp
    · rw [← sum_add]
      congr 1
      funext s v
      split
      · rw [add_mul, single_add]
      · rw [add_zero]
  add_right a b b' := by
    rw [joinWeights, joinWeights, joinWeights, ← sum_add]
    congr 1
    funext r w
    refine sum_add_index' (fun s => ?_) fun s v v' => ?_
    · simp
    · split
      · rw [mul_add, single_add]
      · rw [add_zero]

theorem joinWeights_single (m : ρ → ρ → Bool) (emit : ρ → ρ → σ) (r s : ρ) (w v : ℤ) :
    joinWeights m emit (single r w) (single s v) =
      if m r s then single (emit r s) (w * v) else 0 := by
  rw [joinWeights, sum_single_index, sum_single_index]
  · simp
  · simp

/-! ### Presence -/

/-- One if the weight is positive, else zero. -/
def present (w : ℤ) : ℤ := if 0 < w then 1 else 0

/-- The set of the items with positive weight, each with weight one. -/
noncomputable def presence (g : ρ →₀ ℤ) : ρ →₀ ℤ := g.mapRange present rfl

theorem presence_apply (g : ρ →₀ ℤ) (r : ρ) : presence g r = present (g r) := mapRange_apply

theorem presence_add_single (g : ρ →₀ ℤ) (r : ρ) (w : ℤ) :
    presence (g + single r w) = presence g + single r (present (g r + w) - present (g r)) := by
  ext x
  rw [presence_apply, Finsupp.add_apply, Finsupp.add_apply, presence_apply]
  by_cases h : x = r
  · rw [h, single_eq_same, single_eq_same, add_sub_cancel]
  · rw [single_eq_of_ne h, single_eq_of_ne h, add_zero, add_zero]

theorem weights_present {es : List (ℤ × ρ)} (h : es.Pairwise fun a b => a.2 ≠ b.2) :
    weights ((es.filter fun e => 0 < e.1).map fun e => (1, e.2)) = presence (weights es) := by
  induction es with
  | nil => exact (mapRange_zero).symm
  | cons e es ih =>
    rw [List.pairwise_cons] at h
    have hzero : weights es e.2 = 0 :=
      @weights_apply_eq_zero _ {x | x ≠ e.2} es (fun f hf => (h.1 f hf).symm) e.2 (by simp)
    rw [weights_cons, add_comm, presence_add_single, hzero, zero_add, ← ih h.2]
    by_cases he : 0 < e.1
    · rw [List.filter_cons_of_pos (by simpa using he), List.map_cons, weights_cons, add_comm]
      simp [present, he]
    · rw [List.filter_cons_of_neg (by simpa using he)]
      simp [present, he]

end Weighted
