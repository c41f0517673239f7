import Mathlib.Algebra.BigOperators.Group.List.Basic
import Mathlib.Algebra.Ring.Int.Defs
import Mathlib.Order.Lattice

/-!
# Weighted Lists

Lists of items with integer weights, where items with the same key stand for one another. The
`total` of a list is the weight it gives to each key. A list is `Consolidated` when its keys
ascend strictly and no weight is zero; such a list is determined by its totals. `collapse` makes
one of a list whose keys ascend.
-/

namespace Weighted

variable {ρ κ : Type} [LinearOrder κ]

/-- The weight that a list gives to a key. -/
def total (key : ρ → κ) : List (ℤ × ρ) → κ → ℤ
  | [], _ => 0
  | e :: es, k => (if key e.2 = k then e.1 else 0) + total key es k

/-- Strictly ascending keys, and no zero weight. -/
structure Consolidated (key : ρ → κ) (es : List (ℤ × ρ)) : Prop where
  ascending : es.Pairwise fun a b => key a.2 < key b.2
  nonzero : ∀ e ∈ es, e.1 ≠ 0

/-- The item with its weight, unless that is zero. -/
def emit (e : ℤ × ρ) : List (ℤ × ρ) := if e.1 = 0 then [] else [e]

/-- Adds up the weights of neighbours with the same key, and drops what has weight zero. -/
def collapse (key : ρ → κ) (e : ℤ × ρ) : List (ℤ × ρ) → List (ℤ × ρ)
  | [] => emit e
  | f :: es =>
    if key e.2 = key f.2 then collapse key (e.1 + f.1, e.2) es
    else emit e ++ collapse key f es

variable {key : ρ → κ} {e : ℤ × ρ} {es fs : List (ℤ × ρ)} {k : κ}

/-! ### Totals -/

@[simp] theorem total_nil : total key [] k = 0 := rfl

theorem total_cons : total key (e :: es) k = (if key e.2 = k then e.1 else 0) + total key es k :=
  rfl

theorem total_append : total key (es ++ fs) k = total key es k + total key fs k := by
  induction es with
  | nil => simp
  | cons e es ih => rw [List.cons_append, total_cons, total_cons, ih, add_assoc]

theorem total_perm (h : es.Perm fs) : total key es k = total key fs k := by
  induction h with
  | nil => rfl
  | cons e _ ih => rw [total_cons, total_cons, ih]
  | swap e f es =>
    rw [total_cons, total_cons, total_cons, total_cons]
    exact add_left_comm _ _ _
  | trans _ _ ih ih' => exact ih.trans ih'

theorem total_emit : total key (emit e) k = if key e.2 = k then e.1 else 0 := by
  unfold emit
  by_cases h : e.1 = 0
  · simp [h]
  · simp [h, total_cons]

theorem total_eq_zero (h : ∀ e ∈ es, key e.2 ≠ k) : total key es k = 0 := by
  induction es with
  | nil => rfl
  | cons e es ih =>
    rw [total_cons, if_neg (h e (.head _)), ih fun f hf => h f (.tail _ hf), add_zero]

theorem total_collapse : total key (collapse key e es) k = total key (e :: es) k := by
  induction es generalizing e with
  | nil => rw [collapse, total_emit, total_cons, total_nil, add_zero]
  | cons f es ih =>
    rw [collapse]
    split
    next h =>
      rw [ih, total_cons, total_cons, total_cons, ← add_assoc]
      by_cases hk : key f.2 = k <;> simp [h, hk]
    next => rw [total_append, total_emit, ih, total_cons (e := e)]

/-! ### Consolidating -/

theorem Consolidated.nil : Consolidated key ([] : List (ℤ × ρ)) :=
  ⟨.nil, fun _ h => absurd h List.not_mem_nil⟩

theorem Consolidated.singleton (he : e.1 ≠ 0) : Consolidated key [e] :=
  ⟨List.pairwise_singleton _ _, fun _ h => List.mem_singleton.mp h ▸ he⟩

theorem Consolidated.map_mul (h : Consolidated key es) {c : ℤ} (hc : c ≠ 0) :
    Consolidated key (es.map fun e => (c * e.1, e.2)) := by
  refine ⟨List.pairwise_map.mpr h.ascending, fun e he => ?_⟩
  obtain ⟨f, hf, rfl⟩ := List.mem_map.mp he
  exact Int.mul_ne_zero hc (h.nonzero f hf)

theorem mem_collapse {x : ℤ × ρ} (hx : x ∈ collapse key e es) : ∃ f ∈ e :: es, x.2 = f.2 := by
  induction es generalizing e with
  | nil =>
    unfold collapse emit at hx
    split at hx
    next => cases hx
    next => exact ⟨e, .head _, by rw [List.mem_singleton.mp hx]⟩
  | cons f es ih =>
    rw [collapse] at hx
    split at hx
    next =>
      obtain ⟨g, hg, hxg⟩ := ih hx
      rcases List.mem_cons.mp hg with rfl | hg
      · exact ⟨e, .head _, hxg⟩
      · exact ⟨g, .tail _ (.tail _ hg), hxg⟩
    next =>
      rcases List.mem_append.mp hx with hx | hx
      · unfold emit at hx
        split at hx
        next => cases hx
        next => exact ⟨e, .head _, by rw [List.mem_singleton.mp hx]⟩
      · obtain ⟨g, hg, hxg⟩ := ih hx
        exact ⟨g, .tail _ hg, hxg⟩

theorem collapse_consolidated (h : (e :: es).Pairwise fun a b => key a.2 ≤ key b.2) :
    Consolidated key (collapse key e es) := by
  induction es generalizing e with
  | nil =>
    unfold collapse emit
    split
    next => exact .nil
    next he => exact .singleton he
  | cons f es ih =>
    rw [List.pairwise_cons] at h
    have htail := List.pairwise_cons.mp h.2
    rw [collapse]
    split
    next hkey =>
      apply ih
      refine List.pairwise_cons.mpr ⟨fun g hg => ?_, htail.2⟩
      exact h.1 g (.tail _ hg)
    next hkey =>
      have hrest := ih h.2
      -- everything collapsed from the rest has a greater key
      have hgreater : ∀ x ∈ collapse key f es, key e.2 < key x.2 := by
        intro x hx
        obtain ⟨g, hg, hxg⟩ := mem_collapse hx
        have hlt : key e.2 < key f.2 := lt_of_le_of_ne (h.1 f (.head _)) hkey
        rw [hxg]
        rcases List.mem_cons.mp hg with rfl | hg
        · exact hlt
        · exact lt_of_lt_of_le hlt (htail.1 g hg)
      unfold emit
      split
      next => exact hrest
      next he =>
        refine ⟨List.pairwise_cons.mpr ⟨hgreater, hrest.ascending⟩, fun x hx => ?_⟩
        rcases List.mem_cons.mp hx with rfl | hx
        · exact he
        · exact hrest.nonzero x hx

/-! ### Consolidated lists -/

theorem Consolidated.tail (h : Consolidated key (e :: es)) : Consolidated key es :=
  ⟨(List.pairwise_cons.mp h.ascending).2, fun x hx => h.nonzero x (.tail _ hx)⟩

theorem Consolidated.total_of_lt (h : Consolidated key (e :: es)) (hk : k < key e.2) :
    total key (e :: es) k = 0 := by
  apply total_eq_zero
  intro f hf
  rcases List.mem_cons.mp hf with rfl | hf
  · exact hk.ne'
  · exact (hk.trans ((List.pairwise_cons.mp h.ascending).1 f hf)).ne'

theorem Consolidated.total_head (h : Consolidated key (e :: es)) :
    total key (e :: es) (key e.2) = e.1 := by
  rw [total_cons, if_pos rfl, total_eq_zero, add_zero]
  exact fun f hf => ((List.pairwise_cons.mp h.ascending).1 f hf).ne'

theorem Consolidated.total_of_mem (h : Consolidated key es) (he : e ∈ es) :
    total key es (key e.2) = e.1 := by
  induction es with
  | nil => cases he
  | cons f es ih =>
    rcases List.mem_cons.mp he with rfl | he
    · exact h.total_head
    · rw [total_cons, ih h.tail he, if_neg, zero_add]
      exact ((List.pairwise_cons.mp h.ascending).1 e he).ne

theorem Consolidated.ext (he : Consolidated key es) (hf : Consolidated key fs)
    (h : ∀ k, total key es k = total key fs k) :
    List.Forall₂ (fun a b => a.1 = b.1 ∧ key a.2 = key b.2) es fs := by
  induction es generalizing fs with
  | nil =>
    cases fs with
    | nil => exact .nil
    | cons f fs =>
      have := h (key f.2)
      rw [hf.total_head] at this
      exact absurd this.symm (hf.nonzero f (.head _))
  | cons e es ih =>
    cases fs with
    | nil =>
      have := h (key e.2)
      rw [he.total_head] at this
      exact absurd this (he.nonzero e (.head _))
    | cons f fs =>
      have hkey : key e.2 = key f.2 := by
        rcases lt_trichotomy (key e.2) (key f.2) with hlt | heq | hlt
        · have := h (key e.2)
          rw [he.total_head, hf.total_of_lt hlt] at this
          exact absurd this (he.nonzero e (.head _))
        · exact heq
        · have := h (key f.2)
          rw [hf.total_head, he.total_of_lt hlt] at this
          exact absurd this.symm (hf.nonzero f (.head _))
      have hweight : e.1 = f.1 := by rw [← he.total_head, h, hkey, hf.total_head]
      refine .cons ⟨hweight, hkey⟩ (ih he.tail hf.tail fun k => ?_)
      have := h k
      rw [total_cons, total_cons, hkey, hweight] at this
      exact add_left_cancel this

end Weighted
