import Mathlib.Data.List.Lex
import Mathlib.Order.Lattice

/-!
# Maps as Sorted Lists

A finite map with ordered keys, as the list of its entries in the order of the keys.
-/

namespace Assoc

variable {K V : Type} [LinearOrder K]

/-- `m[key] = value`. -/
def set (key : K) (value : V) : List (K × V) → List (K × V)
  | [] => [(key, value)]
  | (k, v) :: m =>
    if key < k then (key, value) :: (k, v) :: m
    else if key = k then (key, value) :: m
    else (k, v) :: set key value m

/-- The value of a key. -/
def lookup (key : K) : List (K × V) → Option V
  | [] => none
  | (k, v) :: m => if key = k then some v else lookup key m

/-- The keys increase. -/
def Sorted (m : List (K × V)) : Prop := m.Pairwise fun e e' => e.1 < e'.1

theorem lookup_set (key : K) (value : V) (m : List (K × V)) (k : K) :
    lookup k (set key value m) = if k = key then some value else lookup k m := by
  induction m with
  | nil => rfl
  | cons e m ih =>
    obtain ⟨k', v⟩ := e
    rw [set]
    split
    next hlt => rw [lookup]
    next hle =>
      split
      next heq =>
        rw [lookup, lookup, ← heq]
        by_cases h : k = key
        · rw [if_pos h, if_pos h]
        · rw [if_neg h, if_neg h, if_neg h]
      next hne =>
        rw [lookup, lookup, ih]
        by_cases h : k = k'
        · rw [if_pos h, if_pos h, if_neg fun h' => hne (h'.symm.trans h)]
        · rw [if_neg h, if_neg h]

theorem set_set (key : K) (value value' : V) (m : List (K × V)) :
    set key value (set key value' m) = set key value m := by
  induction m with
  | nil => simp [set]
  | cons e m ih =>
    obtain ⟨k, v⟩ := e
    by_cases hlt : key < k
    · simp [set, hlt]
    · by_cases heq : key = k
      · simp [set, heq]
      · simp [set, hlt, heq, ih]

theorem mem_set {key : K} {value : V} {m : List (K × V)} {e : K × V}
    (h : e ∈ set key value m) : e = (key, value) ∨ e ∈ m := by
  induction m with
  | nil => exact Or.inl (List.mem_singleton.mp h)
  | cons e' m ih =>
    rw [set] at h
    split at h
    next => simpa using h
    next =>
      split at h
      next =>
        rcases List.mem_cons.mp h with h | h
        · exact Or.inl h
        · exact Or.inr (List.mem_cons_of_mem _ h)
      next =>
        rcases List.mem_cons.mp h with h | h
        · exact Or.inr (h ▸ List.mem_cons_self)
        · exact (ih h).imp_right (List.mem_cons_of_mem _)

theorem sorted_set {m : List (K × V)} (hm : Sorted m) (key : K) (value : V) :
    Sorted (set key value m) := by
  induction m with
  | nil => exact List.pairwise_singleton _ _
  | cons e m ih =>
    obtain ⟨hhead, htail⟩ := List.pairwise_cons.mp hm
    rw [set]
    split
    next hlt =>
      refine List.pairwise_cons.mpr ⟨fun e' he' => ?_, hm⟩
      rcases List.mem_cons.mp he' with rfl | he'
      · exact hlt
      · exact hlt.trans (hhead e' he')
    next hle =>
      split
      next heq =>
        refine List.pairwise_cons.mpr ⟨fun e' he' => ?_, htail⟩
        exact heq ▸ hhead e' he'
      next hne =>
        refine List.pairwise_cons.mpr ⟨fun e' he' => ?_, ih htail⟩
        rcases mem_set he' with rfl | he'
        · exact lt_of_le_of_ne (not_lt.mp hle) (Ne.symm hne)
        · exact hhead e' he'

theorem mem_iff_lookup {m : List (K × V)} (hm : Sorted m) {k : K} {v : V} :
    (k, v) ∈ m ↔ lookup k m = some v := by
  induction m with
  | nil => simp [lookup]
  | cons e m ih =>
    obtain ⟨k', v'⟩ := e
    obtain ⟨hhead, htail⟩ := List.pairwise_cons.mp hm
    rw [lookup, List.mem_cons, ih htail]
    by_cases h : k = k'
    · subst h
      have hnone : lookup k m ≠ some v := fun hl =>
        lt_irrefl k (hhead (k, v) ((ih htail).mpr hl))
      simp [hnone, eq_comm]
    · simp [h]

theorem set_of_forall_lt {m : List (K × V)} {key : K} (h : ∀ e ∈ m, e.1 < key) (value : V) :
    set key value m = m ++ [(key, value)] := by
  induction m with
  | nil => rfl
  | cons e m ih =>
    obtain ⟨hlt, hrest⟩ := List.forall_mem_cons.mp h
    rw [set, if_neg hlt.not_gt, if_neg hlt.ne', ih hrest]
    rfl

theorem foldl_set_sorted (m l : List (K × V)) (h : Sorted (m ++ l)) :
    l.foldl (fun m e => set e.1 e.2 m) m = m ++ l := by
  induction l generalizing m with
  | nil => simp
  | cons e l ih =>
    obtain ⟨-, -, hcross⟩ := List.pairwise_append.mp h
    rw [List.foldl_cons, set_of_forall_lt fun e' he' => hcross e' he' e List.mem_cons_self,
      ih _ (by simpa using h)]
    simp

theorem sorted_foldl_set (l m : List (K × V)) (hm : Sorted m) :
    Sorted (l.foldl (fun m e => set e.1 e.2 m) m) := by
  induction l generalizing m with
  | nil => exact hm
  | cons e l ih => exact ih _ (sorted_set hm e.1 e.2)

theorem lookup_foldl_set (l m : List (K × V)) (k : K) :
    lookup k (l.foldl (fun m e => set e.1 e.2 m) m) =
      ((l.reverse.find? fun e => e.1 = k).map Prod.snd).or (lookup k m) := by
  induction l generalizing m with
  | nil => simp
  | cons e l ih =>
    rw [List.foldl_cons, ih, lookup_set, List.reverse_cons, List.find?_append]
    cases l.reverse.find? fun e => e.1 = k with
    | some e' => simp
    | none =>
      by_cases h : k = e.1
      · simp [h]
      · simp [h, Ne.symm h]

end Assoc
