import Eshkol.Core.Vectors
import Eshkol.Sorting.Stable
import Mathlib.Logic.Function.Basic

/-!
# Sorting Lists

`sort` of `lib/core/list/sort.esk`: a bottom-up merge sort that works in two vectors. A pass
merges adjacent runs of one vector into the other, and the next pass goes back with runs of
twice the width. The vectors are cells of a store, so that a loop that read from the vector it
writes to would show.

The loops are tail calls without a bound of their own: each takes the number of calls it may
still make, and diverges when there are none.
-/

open Machine Sorting

namespace Eshkol.Core

variable {α : Type}

/-! ### Vectors -/

/-- The two vectors of the workspace. -/
inductive Slot : Type
  | values
  | scratch
  deriving DecidableEq, Repr

/-- What the vectors hold. -/
abbrev Store (α : Type) : Type := Slot → List α

/-- The store with two given vectors. -/
def workspace (values scratch : List α) : Store α
  | .values => values
  | .scratch => scratch

def vectorRef (σ : Store α) (v : Slot) (i : ℕ) : Exec String α :=
  Vectors.vectorRef (σ v) i

def vectorSet (σ : Store α) (v : Slot) (i : ℕ) (x : α) : Exec String (Store α) := do
  let vec ← Vectors.vectorSet (σ v) i x
  .ok (Function.update σ v vec)

/-- The loop of `list->vector`. -/
def fill (vec : List α) : List α → ℕ → List α
  | [], _ => vec
  | x :: lst, i => fill (vec.set i x) lst (i + 1)

/-- `list->vector`, with `false` for the elements of a new vector. -/
def listToVector (false_ : α) (lst : List α) : List α :=
  fill (List.replicate lst.length false_) lst 0

/-- The loop of `vector->list`, with `i` elements still to come. -/
def build (vec : List α) : ℕ → List α → Exec String (List α)
  | 0, acc => .ok acc
  | i + 1, acc => do
    let x ← Vectors.vectorRef vec i
    build vec i (x :: acc)

/-- `vector->list`. -/
def vectorToList (vec : List α) : Exec String (List α) := build vec vec.length []

/-! ### The loops of `sort` -/

def runEnd (n start width : ℕ) : ℕ := if start + width > n then n else start + width

def copyRun (source dest : Slot) (stop : ℕ) : ℕ → Store α → ℕ → ℕ → Exec String (Store α)
  | 0, _, _, _ => .error .diverges
  | fuel + 1, σ, start, out =>
    if start ≥ stop then .ok σ
    else do
      let x ← vectorRef σ source start
      let σ ← vectorSet σ dest out x
      copyRun source dest stop fuel σ (start + 1) (out + 1)

def mergeRun (less : α → α → Bool) (source dest : Slot) (middle right : ℕ) :
    ℕ → Store α → ℕ → ℕ → ℕ → Exec String (Store α)
  | 0, _, _, _, _ => .error .diverges
  | fuel + 1, σ, i, j, out =>
    if i ≥ middle then copyRun source dest right fuel σ j out
    else if j ≥ right then copyRun source dest middle fuel σ i out
    else do
      let y ← vectorRef σ source j
      let x ← vectorRef σ source i
      if less y x then
        let σ ← vectorSet σ dest out y
        mergeRun less source dest middle right fuel σ i (j + 1) (out + 1)
      else
        let σ ← vectorSet σ dest out x
        mergeRun less source dest middle right fuel σ (i + 1) j (out + 1)

/-- The loop of `merge-pass`. -/
def mergePassLoop (less : α → α → Bool) (n : ℕ) (source dest : Slot) (width : ℕ) :
    ℕ → Store α → ℕ → Exec String (Store α)
  | 0, _, _ => .error .diverges
  | fuel + 1, σ, start =>
    if start ≥ n then .ok σ
    else do
      let middle := runEnd n start width
      let right := runEnd n start (width * 2)
      let σ ← mergeRun less source dest middle right fuel σ start middle start
      mergePassLoop less n source dest width fuel σ right

/-- `merge-pass`: the vector it has filled. -/
def mergePass (less : α → α → Bool) (n : ℕ) (source dest : Slot) (width fuel : ℕ)
    (σ : Store α) : Exec String (Store α × Slot) := do
  let σ ← mergePassLoop less n source dest width fuel σ 0
  .ok (σ, dest)

def mergePasses (less : α → α → Bool) (n : ℕ) :
    ℕ → Store α → Slot → Slot → ℕ → Exec String (Store α × Slot)
  | 0, _, _, _, _ => .error .diverges
  | fuel + 1, σ, source, dest, width =>
    if width ≥ n then .ok (σ, source)
    else do
      let (σ, filled) ← mergePass less n source dest width fuel σ
      mergePasses less n fuel σ filled source (width * 2)

/-- The first argument of `sort`: a list, or some other value. -/
inductive SortArgument (α : Type) : Type
  | list (lst : List α)
  | other

/-- `sort`, with `false_` for the value `#f` that fills the scratch vector. -/
def sort (false_ : α) (lst : SortArgument α) (less : α → α → Bool) (fuel : ℕ) :
    Exec String (List α) :=
  match lst with
  | .other => .error (.raised "sort: first argument must be a list")
  | .list [] => .ok []
  | .list [x] => .ok [x]
  | .list lst => do
      let values := listToVector false_ lst
      let n := values.length
      let scratch := List.replicate n false_
      let (σ, filled) ← mergePasses less n fuel (workspace values scratch) .values .scratch 1
      vectorToList (σ filled)

/-! ### Conversions -/

/-- The elements written one after another from a position on. -/
def overwrite (vec : List α) (i : ℕ) : List α → List α
  | [] => vec
  | x :: xs => overwrite (vec.set i x) (i + 1) xs

theorem length_overwrite (vec xs : List α) (i : ℕ) : (overwrite vec i xs).length = vec.length := by
  induction xs generalizing vec i with
  | nil => rfl
  | cons x xs ih => rw [overwrite, ih, List.length_set]

theorem overwrite_eq {vec xs : List α} {i : ℕ} (h : i + xs.length ≤ vec.length) :
    overwrite vec i xs = vec.take i ++ xs ++ vec.drop (i + xs.length) := by
  induction xs generalizing vec i with
  | nil => simp [overwrite]
  | cons x xs ih =>
    rw [List.length_cons] at h
    have htake : (vec.set i x).take (i + 1) = vec.take i ++ [x] := by
      rw [List.take_succ_eq_append_getElem (by rw [List.length_set]; omega),
        List.take_set_of_le le_rfl, List.getElem_set_self]
    rw [overwrite, ih (by rw [List.length_set]; omega), htake, List.drop_set_of_lt (by omega),
      List.length_cons, List.append_assoc, List.append_assoc, List.append_assoc,
      List.singleton_append, List.cons_append, Nat.add_right_comm, Nat.add_assoc]

theorem fill_eq (vec lst : List α) (i : ℕ) : fill vec lst i = overwrite vec i lst := by
  induction lst generalizing vec i with
  | nil => rfl
  | cons x lst ih => rw [fill, ih, overwrite]

theorem listToVector_eq (false_ : α) (lst : List α) : listToVector false_ lst = lst := by
  rw [listToVector, fill_eq, overwrite_eq (by simp)]
  simp

theorem build_eq (vec : List α) {i : ℕ} (h : i ≤ vec.length) (acc : List α) :
    build vec i acc = .ok (vec.take i ++ acc) := by
  induction i generalizing acc with
  | zero => rfl
  | succ i ih =>
    rw [build, Vectors.vectorRef_eq (List.getElem?_eq_getElem (by omega)), ok_bind,
      ih (by omega), List.take_succ_eq_append_getElem (by omega), List.append_assoc]
    rfl

theorem vectorToList_eq (vec : List α) : vectorToList vec = .ok vec := by
  rw [vectorToList, build_eq vec le_rfl, List.take_length, List.append_nil]

/-! ### One run -/

/-- The elements of a vector from one index up to another. -/
def slice (vec : List α) (i j : ℕ) : List α := (vec.take j).drop i

theorem slice_of_le {vec : List α} {i j : ℕ} (h : j ≤ i) : slice vec i j = [] :=
  List.drop_of_length_le (by rw [List.length_take]; omega)

theorem slice_cons {vec : List α} {i j : ℕ} (hij : i < j) (hj : j ≤ vec.length) :
    ∃ x, vec[i]? = some x ∧ slice vec i j = x :: slice vec (i + 1) j := by
  refine ⟨vec[i], List.getElem?_eq_getElem (by omega), ?_⟩
  rw [slice, List.drop_eq_getElem_cons (by rw [List.length_take]; omega), List.getElem_take, slice]

section Loops

variable {source dest : Slot} (hne : source ≠ dest) {σ : Store α}

include hne

theorem update_source (vec : List α) : Function.update σ dest vec source = σ source :=
  Function.update_of_ne hne _ _

theorem copyRun_spec {stop : ℕ} (hstop : stop ≤ (σ source).length) {fuel start out : ℕ}
    (hout : out + (stop - start) ≤ (σ dest).length) (hfuel : stop - start < fuel) :
    copyRun source dest stop fuel σ start out =
      .ok (Function.update σ dest (overwrite (σ dest) out (slice (σ source) start stop))) := by
  induction fuel generalizing σ start out with
  | zero => omega
  | succ fuel ih =>
    rw [copyRun]
    by_cases hstart : start ≥ stop
    · rw [if_pos hstart, slice_of_le hstart, overwrite, Function.update_eq_self]
    · obtain ⟨x, hx, hslice⟩ := slice_cons (not_le.mp hstart) hstop
      rw [if_neg hstart, vectorRef, Vectors.vectorRef_eq hx, ok_bind, vectorSet,
        Vectors.vectorSet_eq (by omega), ok_bind, ok_bind, ih]
      · rw [update_source hne, Function.update_self, Function.update_idem, hslice, overwrite]
      · rwa [update_source hne]
      · rw [Function.update_self, List.length_set]
        omega
      · omega

/-- Two runs are merged into the destination, and the rest of it stays. -/
theorem mergeRun_spec (less : α → α → Bool) {middle right : ℕ}
    (hmiddle : middle ≤ (σ source).length) (hright : right ≤ (σ source).length)
    {fuel i j out : ℕ} (hout : out + (middle - i) + (right - j) ≤ (σ dest).length)
    (hfuel : (middle - i) + (right - j) + 1 < fuel) :
    mergeRun less source dest middle right fuel σ i j out =
      .ok (Function.update σ dest (overwrite (σ dest) out
        ((slice (σ source) i middle).merge (slice (σ source) j right) (notAfter less)))) := by
  induction fuel generalizing σ i j out with
  | zero => omega
  | succ fuel ih =>
    rw [mergeRun]
    by_cases hi : i ≥ middle
    · rw [if_pos hi, slice_of_le hi, List.nil_merge,
        copyRun_spec hne hright (by omega) (by omega)]
    by_cases hj : j ≥ right
    · rw [if_neg hi, if_pos hj, slice_of_le hj, List.merge_right,
        copyRun_spec hne hmiddle (by omega) (by omega)]
    obtain ⟨x, hx, hxs⟩ := slice_cons (not_le.mp hi) hmiddle
    obtain ⟨y, hy, hys⟩ := slice_cons (not_le.mp hj) hright
    rw [if_neg hi, if_neg hj, vectorRef, Vectors.vectorRef_eq hy, ok_bind, vectorRef,
      Vectors.vectorRef_eq hx, ok_bind]
    -- either way one element is written, and the vector read from stays as it is
    have hstep : ∀ z, (vectorSet σ dest out z : Exec String (Store α)) =
        .ok (Function.update σ dest ((σ dest).set out z)) :=
      fun z => by rw [vectorSet, Vectors.vectorSet_eq (by omega), ok_bind]
    split
    next hless =>
      rw [hstep, ok_bind, ih (by rwa [update_source hne]) (by rwa [update_source hne])
        (by rw [Function.update_self, List.length_set]; omega) (by omega)]
      rw [update_source hne, Function.update_self, Function.update_idem, hxs, hys,
        List.cons_merge_cons_neg _ _ _ (by simp [notAfter, hless]), overwrite]
    next hless =>
      rw [hstep, ok_bind, ih (by rwa [update_source hne]) (by rwa [update_source hne])
        (by rw [Function.update_self, List.length_set]; omega) (by omega)]
      rw [update_source hne, Function.update_self, Function.update_idem, hxs, hys,
        List.cons_merge_cons_pos _ _ _ (by simpa [notAfter] using hless), overwrite]

/-! ### One pass -/

omit hne in
theorem runEnd_eq (n start width : ℕ) : runEnd n start width = min n (start + width) := by
  rw [runEnd]
  split
  next => omega
  next => omega

omit hne in
theorem slice_min (vec : List α) (i j : ℕ) :
    slice vec (min vec.length i) (min vec.length j) = slice vec i j := by
  rw [slice, slice, List.take_eq_take_iff.mpr (by omega : min (min vec.length j) vec.length =
    min j vec.length), List.drop_eq_drop_iff, List.length_take]
  omega

omit hne in
theorem slice_add (vec : List α) (i w : ℕ) : slice vec i (i + w) = (vec.drop i).take w := by
  rw [slice, List.drop_take, Nat.add_sub_cancel_left]

/-- A pass doubles the width of the sorted runs. -/
theorem mergePassLoop_spec {less : α → α → Bool} [IsStrictWeakOrder α (less · ·)] {n width : ℕ}
    (hsource : (σ source).length = n) (hdest : (σ dest).length = n) (hwidth : 0 < width)
    {fuel start : ℕ} (hstart : start ≤ n) (hfuel : n - start + 2 < fuel) {l : List α}
    (hruns : Runs less width l ((σ source).drop start)) :
    ∃ r, mergePassLoop less n source dest width fuel σ start =
        .ok (Function.update σ dest ((σ dest).take start ++ r)) ∧ Runs less (2 * width) l r := by
  induction fuel generalizing σ start l with
  | zero => omega
  | succ fuel ih =>
    rw [mergePassLoop]
    by_cases hdone : start ≥ n
    · have hnil : (σ source).drop start = [] := List.drop_of_length_le (by omega)
      rw [hnil] at hruns
      obtain rfl : l = [] := List.length_eq_zero_iff.mp hruns.length_eq.symm
      refine ⟨[], ?_, .last (Nat.zero_le _) .nil⟩
      rw [if_pos hdone, List.append_nil, List.take_of_length_le (by omega),
        Function.update_eq_self]
    -- the two runs from `start` on, in the vector and in the list
    obtain ⟨l₁, l₂, l₃, rfl, h₁, h₂, h₃, hle, hlen⟩ := hruns.split
    have hfirst : slice (σ source) start (min n (start + width)) =
        ((σ source).drop start).take width := by
      have h := slice_min (σ source) start (start + width)
      rwa [hsource, min_eq_right hstart, slice_add] at h
    have hsecond : slice (σ source) (min n (start + width)) (min n (start + width * 2)) =
        (((σ source).drop start).drop width).take width := by
      rw [List.drop_drop, ← slice_add, ← slice_min _ (start + width), hsource, add_assoc,
        mul_two]
    have hrest : ((σ source).drop start).drop (2 * width) =
        (σ source).drop (min n (start + width * 2)) := by
      rw [List.drop_drop, List.drop_eq_drop_iff, hsource]
      omega
    have hmerged := h₁.merge h₂
    -- what `merge-run` writes
    generalize hm : (((σ source).drop start).take width).merge
      ((((σ source).drop start).drop width).take width) (notAfter less) = m at hmerged
    have hmlen : start + m.length = min n (start + width * 2) := by
      rw [← hm, List.length_merge]
      simp only [List.length_take, List.length_drop, hsource]
      omega
    have htake : (overwrite (σ dest) start m).take (min n (start + width * 2)) =
        (σ dest).take start ++ m := by
      rw [overwrite_eq (by omega), List.take_left' (by
        rw [List.length_append, List.length_take, hdest, min_eq_left hstart, hmlen])]
    rw [if_neg hdone]
    simp only [runEnd_eq]
    rw [mergeRun_spec hne less (by omega) (by omega) (by omega) (by omega), hfirst, hsecond, hm,
      ok_bind]
    obtain ⟨r, hr, hruns'⟩ := @ih (Function.update σ dest (overwrite (σ dest) start m))
      (by rw [update_source hne, hsource])
      (by rw [Function.update_self, length_overwrite, hdest])
      (min n (start + width * 2)) (min_le_left _ _) (by omega) l₃
      (by rw [update_source hne, ← hrest]; exact h₃)
    refine ⟨m ++ r, ?_, .join hmerged hruns' hle hlen⟩
    rw [hr, Function.update_self, Function.update_idem, htake, List.append_assoc]

end Loops

/-! ### All passes -/

theorem mergePasses_spec {less : α → α → Bool} [IsStrictWeakOrder α (less · ·)] {l : List α}
    {fuel width : ℕ} (hwidth : 0 < width) (hfuel : 2 * l.length + 2 - width < fuel) {σ : Store α}
    {source dest : Slot} (hne : source ≠ dest) (hdest : (σ dest).length = l.length)
    (hruns : Runs less width l (σ source)) :
    ∃ σ' filled, mergePasses less l.length fuel σ source dest width = .ok (σ', filled) ∧
      StableSort less l (σ' filled) := by
  induction fuel generalizing width σ source dest with
  | zero => omega
  | succ fuel ih =>
    rw [mergePasses]
    by_cases hdone : width ≥ l.length
    · rw [if_pos hdone]
      exact ⟨σ, source, rfl, hruns.stableSort hdone⟩
    obtain ⟨r, hr, hruns'⟩ := @mergePassLoop_spec α source dest hne σ less _ l.length width
      hruns.length_eq hdest hwidth fuel 0 (Nat.zero_le _) (by omega) l hruns
    rw [List.take_zero, List.nil_append] at hr
    rw [if_neg hdone, mergePass, hr, ok_bind]
    -- the roles of the vectors change
    refine ih (by omega) (by omega) hne.symm ?_ ?_
    · rw [Function.update_of_ne hne, hruns.length_eq]
    · rw [Function.update_self, mul_comm]
      exact hruns'

theorem sort_spec (false_ : α) (less : α → α → Bool) [IsStrictWeakOrder α (less · ·)]
    (lst : List α) {fuel : ℕ} (hfuel : 2 * lst.length + 2 ≤ fuel) :
    ∃ r, sort false_ (.list lst) less fuel = .ok r ∧ StableSort less lst r := by
  match lst with
  | [] => exact ⟨[], rfl, .nil⟩
  | [x] => exact ⟨[x], rfl, .singleton x⟩
  | x :: y :: lst =>
    obtain ⟨σ, filled, hp, hsort⟩ := @mergePasses_spec α less _ (x :: y :: lst) fuel 1
      one_pos (by omega)
      (workspace (x :: y :: lst) (List.replicate (x :: y :: lst).length false_)) .values .scratch
      (by decide) List.length_replicate (.single _)
    refine ⟨σ filled, ?_, hsort⟩
    simp only [sort, listToVector_eq, hp, ok_bind, vectorToList_eq]

/-- **`sort` is a stable sort**: for every list and every strict weak order it returns a
permutation of the list in which no element is less than an earlier one and tied elements keep
their order. -/
theorem sort_stable (false_ : α) (less : α → α → Bool) [IsStrictWeakOrder α (less · ·)]
    (lst : List α) :
    ∃ fuel₀, ∀ fuel ≥ fuel₀, ∃ r, sort false_ (.list lst) less fuel = .ok r ∧
      StableSort less lst r :=
  ⟨2 * lst.length + 2, fun _ hfuel => sort_spec false_ less lst hfuel⟩

/-- Sorting pairs by their first component. -/
theorem sort_stable_pairs :
    IsStrictWeakOrder (ℕ × ℕ) (fun a b => decide (a.1 < b.1) = true) ∧
      ∃ fuel₀, ∀ fuel ≥ fuel₀, ∃ r,
        sort (0, 0) (.list [(2, 1), (1, 2), (2, 3), (1, 4)]) (fun a b => decide (a.1 < b.1)) fuel =
            .ok r ∧
          StableSort (fun a b => decide (a.1 < b.1)) [(2, 1), (1, 2), (2, 3), (1, 4)] r :=
  have h : IsStrictWeakOrder (ℕ × ℕ) (fun a b => decide (a.1 < b.1) = true) :=
    { irrefl := by simp
      trans := by
        simp only [decide_eq_true_eq]
        omega
      incomp_trans := by
        simp only [decide_eq_true_eq]
        omega }
  ⟨h, sort_stable (0, 0) (fun a b => decide (a.1 < b.1)) [(2, 1), (1, 2), (2, 3), (1, 4)]⟩

end Eshkol.Core
