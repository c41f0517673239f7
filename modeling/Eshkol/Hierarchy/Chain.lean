import Mathlib.Data.List.Basic
import Mathlib.Data.Option.Basic

/-!
# Hierarchies Given by Parents

A hierarchy is a function that gives an element its parent, if it has one. The ancestors of an
element form a chain, and the first ancestor that two elements share is below all that they share.
An element may also stand for several others, its arms; it is then below what covers each of them.
-/

namespace Hierarchy

variable {α : Type} {parent parent' : α → Option α} {arms arms' : α → List α} {x y z : α}

/-- The ancestors of an element, itself first. -/
inductive Chain (parent : α → Option α) : α → List α → Prop
  | root {x : α} (h : parent x = none) : Chain parent x [x]
  | step {x p : α} {l : List α} (h : parent x = some p) (hp : Chain parent p l) :
      Chain parent x (x :: l)

/-- `y` is `x` or an ancestor of it. -/
def Above (parent : α → Option α) (x y : α) : Prop := ∃ l, Chain parent x l ∧ y ∈ l

/-- Every arm of `x` is below an arm of `y`. -/
def Covers (parent : α → Option α) (arms : α → List α) (x y : α) : Prop :=
  ∀ u ∈ arms x, ∃ v ∈ arms y, Above parent u v

/-! ### Chains -/

theorem Chain.unique {l l' : List α} (h : Chain parent x l) (h' : Chain parent x l') : l = l' := by
  induction h generalizing l' with
  | root hnone =>
    cases h' with
    | root _ => rfl
    | step hsome _ => rw [hnone] at hsome; cases hsome
  | step hsome _ ih =>
    cases h' with
    | root hnone => rw [hnone] at hsome; cases hsome
    | step hsome' hp' =>
      obtain rfl := Option.some.inj (hsome.symm.trans hsome')
      rw [ih hp']

theorem Chain.mem_self {l : List α} (h : Chain parent x l) : x ∈ l := by
  cases h with
  | root _ => exact List.mem_cons_self
  | step _ _ => exact List.mem_cons_self

theorem Chain.of_append {before after : List α} (h : Chain parent x (before ++ y :: after)) :
    Chain parent y (y :: after) := by
  induction before generalizing x with
  | nil =>
    cases h with
    | root hnone => exact .root hnone
    | step hsome hp => exact .step hsome hp
  | cons u before ih =>
    generalize hl : (u :: before) ++ y :: after = l at h
    cases h with
    | root _ => simp at hl
    | step hsome hp =>
      obtain ⟨-, rfl⟩ := List.cons.inj hl
      exact ih hp

theorem Chain.trans {l l' : List α} (h : Chain parent x l) (hy : y ∈ l)
    (h' : Chain parent y l') (hz : z ∈ l') : z ∈ l := by
  obtain ⟨before, after, rfl⟩ := List.append_of_mem hy
  rw [h'.unique h.of_append] at hz
  exact List.mem_append_right _ hz

theorem Chain.above_iff {l : List α} (h : Chain parent x l) : Above parent x y ↔ y ∈ l :=
  ⟨fun ⟨_, h', hy⟩ => h.unique h' ▸ hy, fun hy => ⟨l, h, hy⟩⟩

theorem Above.eq_or_parent (h : Above parent x y) : y = x ∨ ∃ u, parent u = some y := by
  obtain ⟨l, hl, hy⟩ := h
  induction hl with
  | root _ => exact .inl (List.mem_singleton.mp hy)
  | @step x p l hsome hp ih =>
    rcases List.mem_cons.mp hy with rfl | hy
    · exact .inl rfl
    · rcases ih hy with rfl | hu
      · exact .inr ⟨x, hsome⟩
      · exact .inr hu

theorem Chain.find_common [DecidableEq α] {a b : α} {la lb : List α} (ha : Chain parent a la)
    (hb : Chain parent b lb) :
    (la.find? (· ∈ lb) = none → ∀ d, Above parent a d → ¬ Above parent b d) ∧
    ∀ c, la.find? (· ∈ lb) = some c → Above parent a c ∧ Above parent b c ∧
      ∀ d, Above parent a d → Above parent b d → Above parent c d := by
  constructor
  · intro hnone d hd hd'
    have hnot := List.find?_eq_none.mp hnone d (ha.above_iff.mp hd)
    exact hnot (by simpa using hb.above_iff.mp hd')
  · intro c hsome
    obtain ⟨hc, before, after, rfl, hbefore⟩ := List.find?_eq_some_iff_append.mp hsome
    refine ⟨⟨_, ha, by simp⟩, ⟨lb, hb, by simpa using hc⟩, fun d hd hd' => ?_⟩
    refine ⟨_, ha.of_append, ?_⟩
    rcases List.mem_append.mp (ha.above_iff.mp hd) with hmem | hmem
    · exact absurd (hb.above_iff.mp hd') (by simpa using hbefore d hmem)
    · exact hmem

/-! ### Covering -/

theorem Above.trans (h : Above parent x y) (h' : Above parent y z) : Above parent x z := by
  obtain ⟨l, hl, hy⟩ := h
  obtain ⟨l', hl', hz⟩ := h'
  exact ⟨l, hl, hl.trans hy hl' hz⟩

theorem Covers.trans (h : Covers parent arms x y) (h' : Covers parent arms y z) :
    Covers parent arms x z := by
  intro u hu
  obtain ⟨v, hv, huv⟩ := h u hu
  obtain ⟨w, hw, hvw⟩ := h' v hv
  exact ⟨w, hw, huv.trans hvw⟩

section

variable (hroot : ∀ x, ∃ l, Chain parent x l)
include hroot

theorem above_refl (x : α) : Above parent x x := by
  obtain ⟨l, hl⟩ := hroot x
  exact ⟨l, hl, hl.mem_self⟩

theorem covers_refl (arms : α → List α) (x : α) : Covers parent arms x x :=
  fun u hu => ⟨u, hu, above_refl hroot u⟩

end

theorem Chain.congr {K : α → Prop} (hparent : ∀ x, K x → parent' x = parent x)
    (hclosed : ∀ x p, K x → parent x = some p → K p) {l : List α} (h : Chain parent x l)
    (hx : K x) : Chain parent' x l := by
  induction h with
  | root hnone => exact .root ((hparent _ hx).trans hnone)
  | step hsome _ ih => exact .step ((hparent _ hx).trans hsome) (ih (hclosed _ _ hx hsome))

theorem above_congr {K : α → Prop} (hparent : ∀ x, K x → parent' x = parent x)
    (hclosed : ∀ x p, K x → parent x = some p → K p) (hx : K x) :
    Above parent' x y ↔ Above parent x y := by
  constructor
  · rintro ⟨l, hl, hy⟩
    refine ⟨l, hl.congr (fun u hu => (hparent u hu).symm) ?_ hx, hy⟩
    exact fun u p hu hsome => hclosed u p hu ((hparent u hu).symm.trans hsome)
  · rintro ⟨l, hl, hy⟩
    exact ⟨l, hl.congr hparent hclosed hx, hy⟩

theorem covers_congr {K : α → Prop} (hparent : ∀ x, K x → parent' x = parent x)
    (hclosed : ∀ x p, K x → parent x = some p → K p) (harms : ∀ x, K x → arms' x = arms x)
    (hsub : ∀ x, K x → ∀ u ∈ arms x, K u) (hx : K x) (hy : K y) :
    Covers parent' arms' x y ↔ Covers parent arms x y := by
  rw [Covers, Covers, harms x hx, harms y hy]
  refine forall₂_congr fun u hu => exists_congr fun v => and_congr_right fun _ => ?_
  exact above_congr hparent hclosed (hsub x hx u hu)

end Hierarchy
