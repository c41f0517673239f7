import Mathlib.Data.List.Basic
import Mathlib.Order.Defs.Unbundled

/-!
# Stable Sorting

What it is for a list to be a stable sort of another, under a test `less` that is a strict
weak order, and how merging sorted runs makes longer ones. `Runs less w l r` says that `r` is
`l` with each run of `w` elements sorted; the last run may be shorter.
-/

namespace Sorting

variable {α : Type} {less : α → α → Bool}

/-- Neither of two elements is less than the other. -/
def tied (less : α → α → Bool) (a b : α) : Bool := !less a b && !less b a

/-- The order in which a stable merge takes elements. -/
def notAfter (less : α → α → Bool) (a b : α) : Bool := !less b a

/-- A rearrangement in which no element is less than an earlier one, and tied elements stand
in the order of the given list. -/
structure StableSort (less : α → α → Bool) (l r : List α) : Prop where
  perm : r.Perm l
  ordered : r.Pairwise fun a b => less b a = false
  stable : ∀ x, r.filter (tied less x) = l.filter (tied less x)

theorem StableSort.nil : StableSort less [] [] := ⟨.nil, .nil, fun _ => rfl⟩

theorem StableSort.singleton (a : α) : StableSort less [a] [a] :=
  ⟨.refl _, List.pairwise_singleton _ _, fun _ => rfl⟩

section Order

variable [IsStrictWeakOrder α (less · ·)]

theorem less_trans_of_not {a b c : α} (hab : less b a = false) (hbc : less c b = false) :
    less c a = false := by
  by_contra h
  rw [Bool.not_eq_false] at h
  have hab' : less a b = false := by
    by_contra h'
    rw [Bool.not_eq_false] at h'
    have := IsTrans.trans (r := (less · ·)) c a b h h'
    simp [hbc] at this
  have hbc' : less b c = false := by
    by_contra h'
    rw [Bool.not_eq_false] at h'
    have := IsTrans.trans (r := (less · ·)) b c a h' h
    simp [hab] at this
  have := (@IsStrictWeakOrder.incomp_trans α (less · ·) _ a b c (by simp [hab, hab'])
    (by simp [hbc, hbc'])).2
  exact this h

theorem less_irrefl (a : α) : less a a = false := by
  have := Std.Irrefl.irrefl (r := (less · ·)) a
  simpa using this

theorem less_asymm {a b : α} (h : less a b = true) : less b a = false := by
  by_contra h'
  rw [Bool.not_eq_false] at h'
  have := IsTrans.trans (r := (less · ·)) a b a h h'
  simp [less_irrefl] at this

/-! ### Merging -/

theorem filter_tied_eq_nil {a b x : α} {as : List α} (hba : less b a = true)
    (has : (a :: as).Pairwise fun a b => less b a = false) (hx : tied less x b = true) :
    (a :: as).filter (tied less x) = [] := by
  rw [tied, Bool.and_eq_true, Bool.not_eq_true', Bool.not_eq_true'] at hx
  rw [List.filter_eq_nil_iff]
  intro c hc hxc
  rw [tied, Bool.and_eq_true, Bool.not_eq_true', Bool.not_eq_true'] at hxc
  -- neither is `c` less than `a`, nor `b` less than `c`, so `b` is not less than `a`
  have hca : less c a = false := by
    rcases List.mem_cons.mp hc with rfl | hc
    · exact less_irrefl c
    · exact List.rel_of_pairwise_cons has hc
  have hbc : less b c = false := less_trans_of_not hxc.1 hx.2
  rw [less_trans_of_not hca hbc] at hba
  cases hba

theorem filter_tied_merge (x : α) (l₁ l₂ : List α)
    (h₁ : l₁.Pairwise fun a b => less b a = false) :
    (l₁.merge l₂ (notAfter less)).filter (tied less x) =
      l₁.filter (tied less x) ++ l₂.filter (tied less x) := by
  induction l₁ generalizing l₂ with
  | nil => simp
  | cons a as ih₁ =>
    induction l₂ with
    | nil => simp
    | cons b bs ih₂ =>
      rw [List.cons_merge_cons]
      split
      next h => rw [List.filter_cons, List.filter_cons, ih₁ _ h₁.tail]; split <;> simp
      next h =>
        rw [notAfter, Bool.not_eq_true, Bool.not_eq_false'] at h
        rw [List.filter_cons, ih₂, List.filter_cons (x := b)]
        split
        next hb => rw [filter_tied_eq_nil h h₁ hb]; rfl
        next => rfl

theorem StableSort.merge {l₁ l₂ r₁ r₂ : List α} (h₁ : StableSort less l₁ r₁)
    (h₂ : StableSort less l₂ r₂) :
    StableSort less (l₁ ++ l₂) (r₁.merge r₂ (notAfter less)) where
  perm := (List.merge_perm_append _).trans (h₁.perm.append h₂.perm)
  ordered := by
    have hle : ∀ a b : α, notAfter less a b = true ↔ less b a = false := by simp [notAfter]
    have h := @List.pairwise_merge α (notAfter less) ?_ ?_ r₁ r₂ ?_ ?_
    · exact h.imp fun {a b} hab => (hle a b).mp hab
    · intro a b c hab hbc
      rw [hle] at hab hbc ⊢
      exact less_trans_of_not hab hbc
    · intro a b
      cases hab : less a b with
      | false => simp [notAfter, hab]
      | true => simp [notAfter, less_asymm hab]
    · exact h₁.ordered.imp fun {a b} hab => (hle a b).mpr hab
    · exact h₂.ordered.imp fun {a b} hab => (hle a b).mpr hab
  stable x := by rw [filter_tied_merge x r₁ r₂ h₁.ordered, h₁.stable, h₂.stable, List.filter_append]

theorem eq_of_filter_tied {r r' : List α} (hr : r.Pairwise fun a b => less b a = false)
    (hr' : r'.Pairwise fun a b => less b a = false) (hperm : r.Perm r')
    (htied : ∀ x, r.filter (tied less x) = r'.filter (tied less x)) : r = r' := by
  induction r generalizing r' with
  | nil => exact hperm.nil_eq
  | cons a r ih =>
    cases r' with
    | nil => exact absurd hperm.length_eq (by simp)
    | cons b r' =>
      rw [List.pairwise_cons] at hr hr'
      have hab : less a b = false := by
        rcases List.mem_cons.mp (hperm.mem_iff.mp (.head _)) with rfl | ha
        · exact less_irrefl a
        · exact hr'.1 a ha
      have hba : less b a = false := by
        rcases List.mem_cons.mp (hperm.mem_iff.mpr (.head _)) with rfl | hb
        · exact less_irrefl b
        · exact hr.1 b hb
      have hhead := htied a
      rw [List.filter_cons, List.filter_cons, if_pos (by simp [tied, less_irrefl]),
        if_pos (by simp [tied, hab, hba])] at hhead
      obtain rfl := (List.cons.inj hhead).1
      congr 1
      refine ih hr.2 hr'.2 (List.perm_cons a |>.mp hperm) fun x => ?_
      have hx := htied x
      rw [List.filter_cons, List.filter_cons] at hx
      split at hx
      next => exact (List.cons.inj hx).2
      next => exact hx

theorem StableSort.unique {l r r' : List α} (h : StableSort less l r)
    (h' : StableSort less l r') : r = r' :=
  eq_of_filter_tied h.ordered h'.ordered (h.perm.trans h'.perm.symm) fun x =>
    (h.stable x).trans (h'.stable x).symm

end Order

/-! ### Runs -/

/-- A list with each run of `w` elements sorted. -/
inductive Runs (less : α → α → Bool) (w : ℕ) : List α → List α → Prop
  | last {l r : List α} (hl : l.length ≤ w) (h : StableSort less l r) : Runs less w l r
  | cons {l r l' r' : List α} (hl : l.length = w) (h : StableSort less l r)
      (h' : Runs less w l' r') : Runs less w (l ++ l') (r ++ r')

namespace Runs

variable {w : ℕ} {l r : List α}

theorem single (l : List α) : Runs less 1 l l := by
  induction l with
  | nil => exact .last (Nat.zero_le _) .nil
  | cons a l ih => exact .cons rfl (.singleton a) ih

theorem stableSort (h : Runs less w l r) (hw : l.length ≤ w) : StableSort less l r := by
  induction h with
  | last hl h => exact h
  | @cons l r l' r' hl h h' ih =>
    have hnil : l' = [] := by
      rw [List.length_append] at hw
      exact List.length_eq_zero_iff.mp (by omega)
    subst hnil
    obtain rfl := (ih (by simp)).perm.eq_nil
    simpa using h

theorem length_eq (h : Runs less w l r) : r.length = l.length := by
  induction h with
  | last hl h => exact h.perm.length_eq
  | cons hl h h' ih => rw [List.length_append, List.length_append, h.perm.length_eq, ih]

theorem uncons (h : Runs less w l r) :
    ∃ l₁ l₂, l = l₁ ++ l₂ ∧ StableSort less l₁ (r.take w) ∧ Runs less w l₂ (r.drop w) ∧
      l₁.length ≤ w ∧ (l₁.length = w ∨ l₂ = []) := by
  cases h with
  | last hl h =>
    have hr : r.length ≤ w := h.perm.length_eq ▸ hl
    refine ⟨l, [], (List.append_nil l).symm, ?_, ?_, hl, .inr rfl⟩
    · rwa [List.take_of_length_le hr]
    · rw [List.drop_of_length_le hr]
      exact .last (Nat.zero_le _) .nil
  | @cons l r l' r' hl h h' =>
    have hr : r.length = w := h.perm.length_eq.trans hl
    refine ⟨l, l', rfl, ?_, ?_, Nat.le_of_eq hl, .inl hl⟩
    · rwa [List.take_left' hr]
    · rwa [List.drop_left' hr]

theorem split (h : Runs less w l r) :
    ∃ l₁ l₂ l₃, l = l₁ ++ l₂ ++ l₃ ∧ StableSort less l₁ (r.take w) ∧
      StableSort less l₂ ((r.drop w).take w) ∧ Runs less w l₃ (r.drop (2 * w)) ∧
      (l₁ ++ l₂).length ≤ 2 * w ∧ ((l₁ ++ l₂).length = 2 * w ∨ l₃ = []) := by
  obtain ⟨l₁, l', rfl, h₁, h', hle₁, hl₁⟩ := h.uncons
  obtain ⟨l₂, l₃, rfl, h₂, h₃, hle₂, hl₂⟩ := h'.uncons
  rw [List.drop_drop, ← Nat.two_mul] at h₃
  refine ⟨l₁, l₂, l₃, (List.append_assoc _ _ _).symm, h₁, h₂, h₃, ?_, ?_⟩
  · rw [List.length_append]
    omega
  · rw [List.length_append]
    rcases hl₁ with hl₁ | hl₁
    · rcases hl₂ with hl₂ | rfl
      · exact .inl (by omega)
      · exact .inr rfl
    · exact .inr (List.append_eq_nil_iff.mp hl₁).2

theorem join {l₁ l₂ r₁ r₂ : List α} (h₁ : StableSort less l₁ r₁) (h₂ : Runs less w l₂ r₂)
    (hle : l₁.length ≤ w) (hl : l₁.length = w ∨ l₂ = []) : Runs less w (l₁ ++ l₂) (r₁ ++ r₂) := by
  rcases hl with hl | rfl
  · exact .cons hl h₁ h₂
  · have hr : r₂ = [] := List.length_eq_zero_iff.mp h₂.length_eq
    rw [hr, List.append_nil, List.append_nil]
    exact .last hle h₁

end Runs

end Sorting
