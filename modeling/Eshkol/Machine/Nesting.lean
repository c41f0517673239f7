import Mathlib.Data.List.Basic

/-!
# Paths of One Tree

The stacks that a program goes through when it enters and leaves extents, and comes back to
stacks that it had before, are paths from the root of one tree. An extent that two paths share
is reached in the same way in both.

## Main results

* `Agree.leave`, `Agree.concat`, `Agree.concat_self`: leaving extents and entering a new one.
* `Agree.exists_split`: two such paths share a beginning, and nothing after it.
-/

namespace Machine

variable {E : Type*} {a a' b : List E} {e : E}

/-- What two paths share is reached in the same way. -/
def Agree (a b : List E) : Prop :=
  ∀ ⦃e pre post pre' post'⦄, a = pre ++ e :: post → b = pre' ++ e :: post' → pre = pre'

theorem Agree.symm (h : Agree a b) : Agree b a := fun _ _ _ _ _ hb ha => (h ha hb).symm

theorem Agree.leave (h : Agree a b) (hpre : a' <+: a) : Agree a' b := by
  obtain ⟨rest, rfl⟩ := hpre
  intro e pre post pre' post' ha hb
  refine @h e pre (post ++ rest) pre' post' ?_ hb
  rw [ha, List.append_assoc, List.cons_append]

theorem exists_of_concat_eq {x : E} {pre post : List E} (h : a ++ [e] = pre ++ x :: post)
    (hx : x ≠ e) : ∃ post', a = pre ++ x :: post' := by
  rcases List.eq_nil_or_concat post with rfl | ⟨post', y, rfl⟩
  · obtain ⟨-, heq⟩ := List.append_inj' h rfl
    exact absurd (List.cons.inj heq).1.symm hx
  · rw [List.concat_eq_append, ← List.cons_append, ← List.append_assoc] at h
    exact ⟨post', (List.append_inj' h rfl).1⟩

theorem Agree.concat (h : Agree a b) (he : e ∉ b) : Agree (a ++ [e]) b := by
  intro x pre post pre' post' ha hb
  have hx : x ≠ e := by
    rintro rfl
    exact he (by rw [hb]; simp)
  obtain ⟨post, ha⟩ := exists_of_concat_eq ha hx
  exact h ha hb

theorem Agree.concat_self (h : Agree a a) (he : e ∉ a) : Agree (a ++ [e]) (a ++ [e]) := by
  intro x pre post pre' post' ha hb
  by_cases hx : x = e
  · have hlast {p q : List E} (heq : a ++ [e] = p ++ e :: q) : p = a := by
      rcases List.eq_nil_or_concat q with rfl | ⟨q, y, rfl⟩
      · exact (List.append_inj' heq rfl).1.symm
      · rw [List.concat_eq_append, ← List.cons_append, ← List.append_assoc] at heq
        refine absurd ?_ he
        rw [(List.append_inj' heq rfl).1]
        simp
    rw [hx] at ha hb
    rw [hlast ha, hlast hb]
  · obtain ⟨post, ha⟩ := exists_of_concat_eq ha hx
    obtain ⟨post', hb⟩ := exists_of_concat_eq hb hx
    exact h ha hb

theorem Agree.notMem {pre b' : List E} (h : Agree (pre ++ a) (pre ++ b'))
    (hhead : a.head? ≠ b'.head?) : ∀ e ∈ a, e ∉ pre ++ b' := by
  intro e ha hb
  obtain ⟨p, q, rfl⟩ := List.append_of_mem ha
  have hsplit : pre ++ (p ++ e :: q) = (pre ++ p) ++ e :: q := (List.append_assoc _ _ _).symm
  rcases List.mem_append.mp hb with hpre | hb
  · obtain ⟨p', q', rfl⟩ := List.append_of_mem hpre
    have hp := congrArg List.length
      (@h e _ q p' (q' ++ b') hsplit (by rw [List.append_assoc, List.cons_append]))
    simp only [List.length_append, List.length_cons] at hp
    omega
  · obtain ⟨p', q', rfl⟩ := List.append_of_mem hb
    have hp := @h e _ q _ q' hsplit (List.append_assoc _ _ _).symm
    obtain rfl : p = p' := List.append_cancel_left hp
    exact hhead (by cases p <;> rfl)

theorem exists_common_prefix (a b : List E) :
    ∃ pre a' b', a = pre ++ a' ∧ b = pre ++ b' ∧ (a'.head? = b'.head? → a' = [] ∧ b' = []) := by
  induction a generalizing b with
  | nil => exact ⟨[], [], b, rfl, rfl, fun h => ⟨rfl, List.head?_eq_none_iff.mp h.symm⟩⟩
  | cons x a ih =>
    by_cases hb : b.head? = some x
    · obtain ⟨b, rfl⟩ := List.head?_eq_some_iff.mp hb
      obtain ⟨pre, a', b', rfl, rfl, hhead⟩ := ih b
      exact ⟨x :: pre, a', b', rfl, rfl, hhead⟩
    · exact ⟨[], x :: a, b, rfl, rfl, fun h => absurd h.symm hb⟩

theorem Agree.exists_split (h : Agree a b) :
    ∃ pre a' b', a = pre ++ a' ∧ b = pre ++ b' ∧ (∀ e ∈ a', e ∉ b) ∧ ∀ e ∈ b', e ∉ a := by
  obtain ⟨pre, a', b', rfl, rfl, hhead⟩ := exists_common_prefix a b
  refine ⟨pre, a', b', rfl, rfl, ?_, ?_⟩
  · by_cases heq : a'.head? = b'.head?
    · rw [(hhead heq).1]
      exact List.forall_mem_nil _
    · exact h.notMem heq
  · by_cases heq : a'.head? = b'.head?
    · rw [(hhead heq).2]
      exact List.forall_mem_nil _
    · exact h.symm.notMem (Ne.symm heq)

end Machine
