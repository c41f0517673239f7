import Mathlib.Algebra.Order.BigOperators.Group.Finset
import Mathlib.Algebra.Order.Ring.Int
import Mathlib.Data.Finset.Card

/-!
# Events of a Replicated Data Type

An event is an operation that was performed at some replica. It records the indices of the
events known where it was performed, so that of two events it can be said whether one had
observed the other. A set of events that a replica knows is `Coherent`: it is closed under what
its events have seen, and the events of one author have each seen the earlier ones.
-/

namespace Replication

variable {Op N : Type}

/-- An operation that was performed, with the indices of the events known to its replica. -/
structure Event (Op : Type) where
  index : ℕ
  op : Op
  seen : Finset ℕ
  deriving DecidableEq

/-- What holds of all events of a run: an index names one event, an event has seen earlier ones
only, and has seen all earlier ones of its author. -/
structure Consistent (author : Op → Option N) (K : Finset (Event Op)) : Prop where
  index_inj : ∀ e ∈ K, ∀ f ∈ K, e.index = f.index → e = f
  earlier : ∀ e ∈ K, ∀ i ∈ e.seen, i < e.index
  ordered : ∀ e ∈ K, ∀ f ∈ K, ∀ n, author e.op = some n → author f.op = some n →
    e.index < f.index → e.index ∈ f.seen

/-- What an event has seen is known with it. -/
def Closed (K : Finset (Event Op)) : Prop := ∀ e ∈ K, ∀ i ∈ e.seen, ∃ f ∈ K, f.index = i

/-- A set of events that a version of a run can know. -/
structure Coherent (author : Op → Option N) (K : Finset (Event Op)) : Prop
    extends Consistent author K where
  closed : Closed K

/-- The event of an operation that is performed where `K` is known. -/
structure Next (K : Finset (Event Op)) (e : Event Op) : Prop where
  seen_eq : e.seen = K.image Event.index
  later : ∀ f ∈ K, f.index < e.index

variable {author : Op → Option N} {K L : Finset (Event Op)} {e f : Event Op} {n : N}

theorem Consistent.mono (h : Consistent author L) (hKL : K ⊆ L) : Consistent author K where
  index_inj := fun e he f hf => h.index_inj e (hKL he) f (hKL hf)
  earlier := fun e he => h.earlier e (hKL he)
  ordered := fun e he f hf => h.ordered e (hKL he) f (hKL hf)

theorem Next.notMem (h : Next K e) : e ∉ K := fun he => (h.later e he).false

theorem Next.mem_seen (h : Next K e) (hf : f ∈ K) : f.index ∈ e.seen := by
  rw [h.seen_eq]
  exact Finset.mem_image_of_mem _ hf

theorem Closed.union [DecidableEq Op] (hK : Closed K) (hL : Closed L) : Closed (K ∪ L) := by
  intro e he i hi
  rcases Finset.mem_union.mp he with he | he
  · obtain ⟨f, hf, hfi⟩ := hK e he i hi
    exact ⟨f, Finset.mem_union_left _ hf, hfi⟩
  · obtain ⟨f, hf, hfi⟩ := hL e he i hi
    exact ⟨f, Finset.mem_union_right _ hf, hfi⟩

theorem Closed.insert [DecidableEq Op] (hK : Closed K) (h : Next K e) : Closed (insert e K) := by
  intro f hf i hi
  rcases Finset.mem_insert.mp hf with rfl | hf
  · rw [h.seen_eq, Finset.mem_image] at hi
    obtain ⟨g, hg, hgi⟩ := hi
    exact ⟨g, Finset.mem_insert_of_mem hg, hgi⟩
  · obtain ⟨g, hg, hgi⟩ := hK f hf i hi
    exact ⟨g, Finset.mem_insert_of_mem hg, hgi⟩

theorem mem_of_mem_seen (hL : Consistent author L) (hKL : K ⊆ L) (hK : Closed K) (he : e ∈ K)
    (hf : f ∈ L) (hfe : f.index ∈ e.seen) : f ∈ K := by
  obtain ⟨g, hg, hgf⟩ := hK e he _ hfe
  rwa [← hL.index_inj g (hKL hg) f hf hgf]

theorem mem_of_index_le (hL : Consistent author L) (hKL : K ⊆ L) (hK : Closed K) (he : e ∈ K)
    (hf : f ∈ L) (hea : author e.op = some n) (hfa : author f.op = some n)
    (hfe : f.index ≤ e.index) : f ∈ K := by
  rcases hfe.eq_or_lt with heq | hlt
  · rwa [hL.index_inj f hf e (hKL he) heq]
  · exact mem_of_mem_seen hL hKL hK he hf (hL.ordered f hf e (hKL he) n hfa hea hlt)

/-! ### The events of an author -/

section Author

variable [DecidableEq N]

/-- The known events of an author. -/
def byAuthor (author : Op → Option N) (K : Finset (Event Op)) (n : N) : Finset (Event Op) :=
  K.filter fun e => author e.op = some n

theorem mem_byAuthor : e ∈ byAuthor author K n ↔ e ∈ K ∧ author e.op = some n := Finset.mem_filter

theorem chain (h : Consistent author L) {K₁ K₂ : Finset (Event Op)} (h₁ : K₁ ⊆ L) (h₂ : K₂ ⊆ L)
    (hc₁ : Closed K₁) (hc₂ : Closed K₂) (n : N) :
    byAuthor author K₁ n ⊆ byAuthor author K₂ n ∨ byAuthor author K₂ n ⊆ byAuthor author K₁ n := by
  by_contra hn
  rw [not_or, Finset.not_subset, Finset.not_subset] at hn
  obtain ⟨⟨e, he, he₂⟩, f, hf, hf₁⟩ := hn
  rw [mem_byAuthor] at he hf
  rcases le_total f.index e.index with hle | hle
  · exact hf₁ (mem_byAuthor.mpr ⟨mem_of_index_le h h₁ hc₁ he.1 (h₂ hf.1) he.2 hf.2 hle, hf.2⟩)
  · exact he₂ (mem_byAuthor.mpr ⟨mem_of_index_le h h₂ hc₂ hf.1 (h₁ he.1) hf.2 he.2 hle, he.2⟩)

section Sums

variable [DecidableEq Op] {w : Event Op → ℤ}

theorem byAuthor_union : byAuthor author (K ∪ L) n = byAuthor author K n ∪ byAuthor author L n :=
  Finset.filter_union ..

theorem max_sum (h : Consistent author (K ∪ L)) (hK : Closed K) (hL : Closed L)
    (hw : ∀ e ∈ K ∪ L, 0 ≤ w e) (n : N) :
    max (∑ e ∈ byAuthor author K n, w e) (∑ e ∈ byAuthor author L n, w e) =
      ∑ e ∈ byAuthor author (K ∪ L) n, w e := by
  rw [byAuthor_union]
  rcases chain h Finset.subset_union_left Finset.subset_union_right hK hL n with hs | hs
  · rw [Finset.union_eq_right.mpr hs, max_eq_right]
    exact Finset.sum_le_sum_of_subset_of_nonneg hs fun e he _ =>
      hw e (Finset.mem_union_right _ (mem_byAuthor.mp he).1)
  · rw [Finset.union_eq_left.mpr hs, max_eq_left]
    exact Finset.sum_le_sum_of_subset_of_nonneg hs fun e he _ =>
      hw e (Finset.mem_union_left _ (mem_byAuthor.mp he).1)

omit [DecidableEq Op] in
theorem sum_byAuthor {T : Finset N} (hT : ∀ e ∈ K, ∃ n ∈ T, author e.op = some n) :
    ∑ n ∈ T, ∑ e ∈ byAuthor author K n, w e = ∑ e ∈ K, w e := by
  have hinj : Set.InjOn some (T : Set N) := fun _ _ _ _ h => Option.some.inj h
  rw [← Finset.sum_fiberwise_of_maps_to (s := K) (t := T.image some)
    (g := fun e => author e.op), Finset.sum_image hinj]
  · rfl
  · intro e he
    obtain ⟨n, hn, hen⟩ := hT e he
    exact Finset.mem_image.mpr ⟨n, hn, hen.symm⟩

theorem byAuthor_insert_self (h : author e.op = some n) :
    byAuthor author (insert e K) n = insert e (byAuthor author K n) :=
  Finset.filter_insert .. |>.trans (if_pos h)

theorem byAuthor_insert_of_ne (h : author e.op ≠ some n) :
    byAuthor author (insert e K) n = byAuthor author K n :=
  Finset.filter_insert .. |>.trans (if_neg h)

end Sums

/-- How many events of an author are known. -/
def count (author : Op → Option N) (K : Finset (Event Op)) (n : N) : ℤ := (byAuthor author K n).card

/-- The place of an event among the known ones of its author, from one. -/
def rank (author : Op → Option N) (K : Finset (Event Op)) (e : Event Op) : ℤ :=
  (K.filter fun f => author f.op = author e.op ∧ f.index ≤ e.index).card

theorem rank_eq_of_subset (hL : Consistent author L) (hKL : K ⊆ L) (hK : Closed K) (he : e ∈ K)
    (hea : author e.op = some n) : rank author K e = rank author L e := by
  rw [rank, rank]
  congr 2
  ext f
  rw [Finset.mem_filter, Finset.mem_filter]
  refine ⟨fun h => ⟨hKL h.1, h.2⟩, fun h => ⟨?_, h.2⟩⟩
  exact mem_of_index_le hL hKL hK he h.1 hea (h.2.1.trans hea) h.2.2

theorem rank_lt (hf : f ∈ K) (h : author e.op = author f.op) (hlt : e.index < f.index) :
    rank author K e < rank author K f := by
  rw [rank, rank, Nat.cast_lt]
  apply Finset.card_lt_card
  rw [Finset.ssubset_iff_of_subset]
  · exact ⟨f, by simp [hf], by simp [hlt]⟩
  · intro g hg
    rw [Finset.mem_filter] at hg ⊢
    exact ⟨hg.1, hg.2.1.trans h, hg.2.2.trans hlt.le⟩

theorem rank_inj (hK : Consistent author K) (he : e ∈ K) (hf : f ∈ K)
    (h : author e.op = author f.op) (hr : rank author K e = rank author K f) : e = f := by
  rcases lt_trichotomy e.index f.index with hlt | heq | hlt
  · exact absurd hr (rank_lt hf h hlt).ne
  · exact hK.index_inj e he f hf heq
  · exact absurd hr (rank_lt he h.symm hlt).ne'

section Insert

variable [DecidableEq Op]

theorem count_insert_self (h : Next K e) (he : author e.op = some n) :
    count author (insert e K) n = count author K n + 1 := by
  rw [count, byAuthor_insert_self he, Finset.card_insert_of_notMem, count, Nat.cast_succ]
  exact fun hm => h.notMem (mem_byAuthor.mp hm).1

theorem rank_next (h : Next K e) (he : author e.op = some n) :
    rank author (insert e K) e = count author K n + 1 := by
  rw [← count_insert_self h he, rank, count, byAuthor]
  congr 2
  ext f
  rw [Finset.mem_filter, Finset.mem_filter, he]
  refine ⟨fun hf => ⟨hf.1, hf.2.1⟩, fun hf => ⟨hf.1, hf.2, ?_⟩⟩
  rcases Finset.mem_insert.mp hf.1 with rfl | hfK
  · exact le_rfl
  · exact (h.later f hfK).le

end Insert

end Author

end Replication
