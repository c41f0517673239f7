import Mathlib.Algebra.BigOperators.Intervals
import Mathlib.Data.Multiset.AddSub
import Mathlib.Logic.Equiv.Basic

/-!
# Heap Order on Positions

A binary heap read as a function from positions to entries, of which the first `n` count.
The children of position `i` are `2 * i + 1` and `2 * i + 2`, and entries are compared by a
total preorder `le`. A sift moves one entry by swaps along a path. Its state is heap order
except at that entry, together with order across it, so that a swap never breaks a pair
that was right.
-/

namespace HeapOrder

variable {α : Type*}

/-! ### Positions and swaps -/

/-- The parent of a position other than the root. -/
def parent (i : ℕ) : ℕ := (i - 1) / 2

theorem parent_lt {i : ℕ} (h : 0 < i) : parent i < i := by
  unfold parent
  omega

theorem parent_eq_iff {i c : ℕ} (hc : 0 < c) : parent c = i ↔ c = 2 * i + 1 ∨ c = 2 * i + 2 := by
  unfold parent
  omega

/-- The entries at `i` and `j` exchanged. -/
def swap (f : ℕ → α) (i j : ℕ) : ℕ → α := fun k => f (Equiv.swap i j k)

@[simp] theorem swap_left (f : ℕ → α) (i j : ℕ) : swap f i j i = f j :=
  congrArg f (Equiv.swap_apply_left i j)

@[simp] theorem swap_right (f : ℕ → α) (i j : ℕ) : swap f i j j = f i :=
  congrArg f (Equiv.swap_apply_right i j)

theorem swap_of_ne (f : ℕ → α) {i j k : ℕ} (hi : k ≠ i) (hj : k ≠ j) : swap f i j k = f k :=
  congrArg f (Equiv.swap_apply_of_ne_of_ne hi hj)

/-- The entries at the first `n` positions. -/
def contents (f : ℕ → α) (n : ℕ) : Multiset α := ∑ i ∈ Finset.range n, {f i}

@[simp] theorem contents_zero (f : ℕ → α) : contents f 0 = 0 := rfl

theorem contents_succ (f : ℕ → α) (n : ℕ) : contents f (n + 1) = contents f n + {f n} :=
  Finset.sum_range_succ _ n

theorem contents_congr {f g : ℕ → α} {n : ℕ} (h : ∀ i < n, f i = g i) :
    contents f n = contents g n :=
  Finset.sum_congr rfl fun i hi => by rw [h i (Finset.mem_range.mp hi)]

theorem contents_update (f : ℕ → α) (n : ℕ) (x : α) :
    contents (Function.update f n x) (n + 1) = contents f n + {x} := by
  rw [contents_succ, Function.update_self,
    contents_congr fun i hi => Function.update_of_ne (ne_of_lt hi) x f]

theorem contents_swap (f : ℕ → α) {n i j : ℕ} (hi : i < n) (hj : j < n) :
    contents (swap f i j) n = contents f n := by
  refine Finset.sum_equiv (Equiv.swap i j) (fun k => ?_) fun k _ => rfl
  rw [Finset.mem_range, Finset.mem_range]
  by_cases hki : k = i
  · rw [hki, Equiv.swap_apply_left]
    exact iff_of_true hi hj
  · by_cases hkj : k = j
    · rw [hkj, Equiv.swap_apply_right]
      exact iff_of_true hj hi
    · rw [Equiv.swap_apply_of_ne_of_ne hki hkj]

@[simp] theorem card_contents (f : ℕ → α) (n : ℕ) : (contents f n).card = n := by
  induction n with
  | zero => rfl
  | succ n ih => rw [contents_succ, Multiset.card_add, ih, Multiset.card_singleton]

theorem mem_contents {f : ℕ → α} {n : ℕ} {x : α} : x ∈ contents f n ↔ ∃ i < n, f i = x := by
  induction n with
  | zero => simp
  | succ n ih =>
    rw [contents_succ, Multiset.mem_add, ih, Multiset.mem_singleton]
    constructor
    · rintro (⟨i, hi, hx⟩ | rfl)
      · exact ⟨i, by omega, hx⟩
      · exact ⟨n, by omega, rfl⟩
    · rintro ⟨i, hi, hx⟩
      by_cases h : i = n
      · exact Or.inr (by rw [← hx, h])
      · exact Or.inl ⟨i, by omega, hx⟩

/-! ### Order -/

/-- No entry is below its parent. -/
def HeapOrdered (le : α → α → Prop) (f : ℕ → α) (n : ℕ) : Prop :=
  ∀ c, 0 < c → c < n → le (f (parent c)) (f c)

/-- Heap order except between `i` and its parent, and across `i`. -/
structure UpOrdered (le : α → α → Prop) (f : ℕ → α) (n i : ℕ) : Prop where
  except : ∀ c, 0 < c → c < n → c ≠ i → le (f (parent c)) (f c)
  across : 0 < i → ∀ c, 0 < c → c < n → parent c = i → le (f (parent i)) (f c)

/-- Heap order except between `i` and its children, and across `i`. -/
structure DownOrdered (le : α → α → Prop) (f : ℕ → α) (n i : ℕ) : Prop where
  except : ∀ c, 0 < c → c < n → parent c ≠ i → le (f (parent c)) (f c)
  across : 0 < i → ∀ c, 0 < c → c < n → parent c = i → le (f (parent i)) (f c)

section

variable {le : α → α → Prop} {f : ℕ → α} {n i : ℕ}

theorem UpOrdered.done (h : UpOrdered le f n i) (hi : 0 < i → le (f (parent i)) (f i)) :
    HeapOrdered le f n := by
  intro c hc hcn
  by_cases hci : c = i
  · rw [hci]
    exact hi (hci ▸ hc)
  · exact h.except c hc hcn hci

theorem DownOrdered.done (h : DownOrdered le f n i)
    (hi : ∀ c, 0 < c → c < n → parent c = i → le (f i) (f c)) : HeapOrdered le f n := by
  intro c hc hcn
  by_cases hp : parent c = i
  · rw [hp]
    exact hi c hc hcn hp
  · exact h.except c hc hcn hp

theorem HeapOrdered.up (h : HeapOrdered le f n) (x : α) :
    UpOrdered le (Function.update f n x) (n + 1) n where
  except c hc hcn hne := by
    have hp := parent_lt hc
    rw [Function.update_of_ne (by omega), Function.update_of_ne hne]
    exact h c hc (by omega)
  across _ c hc hcn hp := by
    have := parent_lt hc
    omega

theorem HeapOrdered.down (h : HeapOrdered le f (n + 1)) {g : ℕ → α}
    (hg : ∀ c, 0 < c → c < n → g c = f c) : DownOrdered le g n 0 where
  except c hc hcn hp := by
    have hlt := parent_lt hc
    rw [hg c hc hcn, hg _ (by omega) (by omega)]
    exact h c hc (by omega)
  across h0 := absurd h0 (lt_irrefl 0)

variable (trans : ∀ a b c, le a b → le b c → le a c)
include trans

theorem UpOrdered.swap (h : UpOrdered le f n i) (hi : 0 < i) (hin : i < n)
    (hle : le (f i) (f (parent i))) : UpOrdered le (swap f i (parent i)) n (parent i) := by
  have hp := parent_lt hi
  have hroot : 0 < parent i → le (f (parent (parent i))) (f (parent i)) := fun h0 =>
    h.except _ h0 (by omega) (by omega)
  constructor
  · intro c hc hcn hne
    by_cases hci : c = i
    · rw [hci, swap_left, swap_right]
      exact hle
    · rw [swap_of_ne f hci hne]
      by_cases hpi : parent c = i
      · rw [hpi, swap_left]
        exact h.across hi c hc hcn hpi
      · by_cases hpp : parent c = parent i
        · rw [hpp, swap_right]
          refine trans _ _ _ hle ?_
          rw [← hpp]
          exact h.except c hc hcn hci
        · rw [swap_of_ne f hpi hpp]
          exact h.except c hc hcn hci
  · intro h0 c hc hcn hpc
    have hlt := parent_lt h0
    rw [swap_of_ne f (by omega) (by omega)]
    by_cases hci : c = i
    · rw [hci, swap_left]
      exact hroot h0
    · have hcp := parent_lt hc
      rw [swap_of_ne f hci (by omega)]
      refine trans _ _ _ (hroot h0) ?_
      rw [← hpc]
      exact h.except c hc hcn hci

omit trans in
theorem DownOrdered.swap {s : ℕ} (h : DownOrdered le f n i) (hs : 0 < s) (hsn : s < n)
    (hsi : parent s = i) (hle : le (f s) (f i))
    (hmin : ∀ c, 0 < c → c < n → parent c = i → c ≠ s → le (f s) (f c)) :
    DownOrdered le (swap f i s) n s := by
  have his := parent_lt hs
  rw [hsi] at his
  constructor
  · intro c hc hcn hne
    have hcp := parent_lt hc
    by_cases hcs : c = s
    · rw [hcs, hsi, swap_left, swap_right]
      exact hle
    · by_cases hci : c = i
      · rw [hci, swap_left, swap_of_ne f (by rw [hci] at hcp; omega) (by rw [hci] at hcp; omega)]
        exact h.across (hci ▸ hc) s hs hsn hsi
      · rw [swap_of_ne f hci hcs]
        by_cases hpi : parent c = i
        · rw [hpi, swap_left]
          exact hmin c hc hcn hpi hcs
        · rw [swap_of_ne f hpi hne]
          exact h.except c hc hcn hpi
  · intro _ c hc hcn hpc
    have hcp := parent_lt hc
    rw [hsi, swap_left, swap_of_ne f (by omega) (by omega)]
    have hex := h.except c hc hcn (by omega)
    rwa [hpc] at hex

theorem HeapOrdered.root_le (refl : ∀ a, le a a) (h : HeapOrdered le f n) {k : ℕ} (hk : k < n) :
    le (f 0) (f k) := by
  induction k using Nat.strong_induction_on with
  | _ k ih =>
    by_cases h0 : k = 0
    · rw [h0]
      exact refl _
    · have hp := parent_lt (Nat.pos_of_ne_zero h0)
      exact trans _ _ _ (ih (parent k) hp (by omega)) (h k (Nat.pos_of_ne_zero h0) hk)

end

end HeapOrder
