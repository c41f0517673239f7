import Eshkol.Core.Vectors
import Eshkol.Sorting.HeapOrder

/-!
# Priority Queues

The priority queue of `lib/core/collections.esk`: a binary min-heap in a vector that is
doubled when it is full. A slot of the vector holds an entry, a pair of a key and an item, or
`#f`. The comparator answers with a number whose sign orders two keys; the numbers are any
ordered type with a zero.

Reading or writing outside the vector, and taking the key of `#f`, raise an error. That no
operation on a queue does so is part of the results.
-/

namespace Eshkol.Core.Collections

open Machine HeapOrder

variable {K V R : Type}

/-! ### The queue -/

/-- `(car (vector-ref data i))`. -/
def keyAt (data : List (Option (K × V))) (i : ℕ) : Exec String K := do
  match ← Vectors.vectorRef data i with
  | some e => .ok e.1
  | none => .error (.raised "car: not a pair")

/-- `#(data-vector size compare)`. A slot without an entry holds `#f`. -/
structure Pq (K V R : Type) where
  data : List (Option (K × V))
  size : ℕ
  compare : K → K → R

/-- `(make-pq compare)`. -/
def makePq (compare : K → K → R) : Pq K V R := ⟨List.replicate 16 none, 0, compare⟩

/-- `(make-pq)`, for keys that are numbers. -/
def makePqNumeric [Sub K] : Pq K V K := makePq fun a b => a - b

def pqSize (pq : Pq K V R) : ℕ := pq.size

def pqEmpty (pq : Pq K V R) : Bool := pqSize pq = 0

def pqCopyData {α : Type} (src dst : List α) (i n : ℕ) : Exec String (List α) :=
  if n ≤ i then .ok dst
  else do
    let x ← Vectors.vectorRef src i
    let dst ← Vectors.vectorSet dst i x
    pqCopyData src dst (i + 1) n
termination_by n - i

def pqEnsureCapacity (pq : Pq K V R) (want : ℕ) : Exec String (Pq K V R) :=
  if pq.data.length ≤ want then do
    let newCap := 2 * pq.data.length
    let data ← pqCopyData pq.data (List.replicate newCap none) 0 pq.data.length
    .ok { pq with data := data }
  else .ok pq

section

variable [LinearOrder R] [Zero R]

/-- `pq-sift-up`, on the vector of a queue. -/
def pqSiftUp (cmp : K → K → R) (data : List (Option (K × V))) (i : ℕ) :
    Exec String (List (Option (K × V))) :=
  if h : i = 0 then .ok data
  else do
    let parent := (i - 1) / 2
    let ki ← keyAt data i
    let kp ← keyAt data parent
    if cmp ki kp < 0 then do
      let tmp ← Vectors.vectorRef data i
      let up ← Vectors.vectorRef data parent
      let data ← Vectors.vectorSet data i up
      let data ← Vectors.vectorSet data parent tmp
      pqSiftUp cmp data parent
    else .ok data
termination_by i
decreasing_by omega

/-- The assignment to `smallest` for the child `c` of `i`: the position it holds is `i` or a
child of `i` in the heap. -/
def pqSmaller (cmp : K → K → R) (data : List (Option (K × V))) (n i c : ℕ) (hc : i < c)
    (smallest : {s // s = i ∨ i < s ∧ s < n}) : Exec String {s // s = i ∨ i < s ∧ s < n} :=
  if h : c < n then do
    let kc ← keyAt data c
    let ks ← keyAt data smallest
    if cmp kc ks < 0 then .ok ⟨c, Or.inr ⟨hc, h⟩⟩ else .ok smallest
  else .ok smallest

/-- `pq-sift-down`, on the vector of a queue of size `n`. -/
def pqSiftDown (cmp : K → K → R) (data : List (Option (K × V))) (n i : ℕ) :
    Exec String (List (Option (K × V))) := do
  let smallest ← pqSmaller cmp data n i (2 * i + 1) (by omega) ⟨i, Or.inl rfl⟩
  let smallest ← pqSmaller cmp data n i (2 * i + 2) (by omega) smallest
  if h : smallest.1 ≠ i then do
    let tmp ← Vectors.vectorRef data i
    let down ← Vectors.vectorRef data smallest
    let data ← Vectors.vectorSet data i down
    let data ← Vectors.vectorSet data smallest tmp
    pqSiftDown cmp data n smallest
  else .ok data
termination_by n - i
decreasing_by
  have := smallest.2
  omega

def pqPush (pq : Pq K V R) (key : K) (item : V) : Exec String (Pq K V R) := do
  let pq ← pqEnsureCapacity pq (pqSize pq + 1)
  let n := pqSize pq
  let data ← Vectors.vectorSet pq.data n (some (key, item))
  let data ← pqSiftUp pq.compare data n
  .ok { pq with data := data, size := n + 1 }

/-- `pq-pop!`: what the first slot held, and the queue afterwards. -/
def pqPop (pq : Pq K V R) : Exec String (Option (K × V) × Pq K V R) :=
  if pqEmpty pq then .error (.raised "pq-pop!: priority queue is empty")
  else do
    let top ← Vectors.vectorRef pq.data 0
    let n := pqSize pq
    let last ← Vectors.vectorRef pq.data (n - 1)
    let data ← Vectors.vectorSet pq.data 0 last
    let data ← Vectors.vectorSet data (n - 1) none
    let data ← if n - 1 > 1 then pqSiftDown pq.compare data (n - 1) 0 else .ok data
    .ok (top, { pq with data := data, size := n - 1 })

def pqPeek (pq : Pq K V R) : Exec String (Option (K × V)) :=
  if pqEmpty pq then .error (.raised "pq-peek: priority queue is empty")
  else Vectors.vectorRef pq.data 0

end

/-! ### Slots and entries -/

/-- The first `n` slots of the vector hold the entries `f`. -/
def Holds (data : List (Option (K × V))) (n : ℕ) (f : ℕ → K × V) : Prop :=
  ∀ i < n, data[i]? = some (some (f i))

section

variable {data : List (Option (K × V))} {n : ℕ} {f : ℕ → K × V}

theorem Holds.lt_length (h : Holds data n f) {i : ℕ} (hi : i < n) : i < data.length :=
  (List.getElem?_eq_some_iff.mp (h i hi)).1

theorem Holds.vectorRef_eq (h : Holds data n f) {i : ℕ} (hi : i < n) :
    Vectors.vectorRef data i = .ok (some (f i)) :=
  Vectors.vectorRef_eq (h i hi)

theorem Holds.keyAt_eq (h : Holds data n f) {i : ℕ} (hi : i < n) : keyAt data i = .ok (f i).1 := by
  rw [keyAt, h.vectorRef_eq hi, ok_bind]

theorem Holds.swap (h : Holds data n f) {i j : ℕ} (hi : i < n) (hj : j < n) :
    Holds ((data.set i (some (f j))).set j (some (f i))) n (swap f i j) := by
  intro k hk
  have hli := h.lt_length hi
  have hlj := h.lt_length hj
  by_cases hkj : k = j
  · rw [hkj, swap_right, List.getElem?_set_self (by rwa [List.length_set])]
  · rw [List.getElem?_set_ne (Ne.symm hkj)]
    by_cases hki : k = i
    · rw [hki, swap_left, List.getElem?_set_self hli]
    · rw [List.getElem?_set_ne (Ne.symm hki), swap_of_ne f hki hkj]
      exact h k hk

theorem Holds.filterMap_take (h : Holds data n f) :
    (((data.take n).filterMap id : List (K × V)) : Multiset (K × V)) = contents f n := by
  induction n with
  | zero => simp
  | succ n ih =>
    have hn := h n (by omega)
    rw [List.take_add_one, hn, List.filterMap_append, ← Multiset.coe_add,
      ih fun i hi => h i (by omega), contents_succ]
    rfl

end

/-- The entries present in a queue. -/
def present (pq : Pq K V R) : Multiset (K × V) :=
  ((pq.data.take pq.size).filterMap id : List (K × V))

theorem pqCopyData_spec {α : Type} {src dst : List α} {i n : ℕ} (hsrc : n ≤ src.length)
    (hdst : n ≤ dst.length) :
    ∃ out, pqCopyData src dst i n = .ok out ∧ out.length = dst.length ∧
      ∀ k, out[k]? = if i ≤ k ∧ k < n then src[k]? else dst[k]? := by
  generalize hm : n - i = m
  induction m generalizing i dst with
  | zero =>
    rw [pqCopyData, if_pos (by omega)]
    exact ⟨dst, rfl, rfl, fun k => by rw [if_neg (by omega)]⟩
  | succ m ih =>
    have hx : src[i]? = some src[i] := List.getElem?_eq_getElem (by omega)
    obtain ⟨out, hout, hlen, hget⟩ := @ih (dst.set i src[i]) (i + 1)
      (by rwa [List.length_set]) (by omega)
    rw [pqCopyData, if_neg (by omega), Vectors.vectorRef_eq hx, ok_bind,
      Vectors.vectorSet_eq (by omega), ok_bind]
    refine ⟨out, hout, by rw [hlen, List.length_set], fun k => ?_⟩
    rw [hget k]
    by_cases hk : k = i
    · rw [hk, if_neg (by omega), if_pos (by omega), List.getElem?_set_self (by omega), hx]
    · rw [List.getElem?_set_ne (Ne.symm hk)]
      by_cases hr : i ≤ k ∧ k < n
      · rw [if_pos hr, if_pos (by omega)]
      · rw [if_neg hr, if_neg (by omega)]

theorem pqEnsureCapacity_spec {pq : Pq K V R} {f : ℕ → K × V} (hroom : pq.size < pq.data.length)
    (hf : Holds pq.data pq.size f) :
    ∃ data, pqEnsureCapacity pq (pq.size + 1) = .ok { pq with data := data } ∧
      pq.size + 1 < data.length ∧ Holds data pq.size f := by
  rw [pqEnsureCapacity]
  split
  next h =>
      obtain ⟨out, hout, hlen, hget⟩ := @pqCopyData_spec _ pq.data
        (List.replicate (2 * pq.data.length) none) 0 pq.data.length le_rfl
        (by rw [List.length_replicate]; omega)
      rw [List.length_replicate] at hlen
      refine ⟨out, by simp only [hout, ok_bind], by omega, fun i hi => ?_⟩
      rw [hget i, if_pos (by omega)]
      exact hf i hi
  next h => exact ⟨pq.data, rfl, by omega, hf⟩

/-! ### Sifting -/

/-- The sign of `cmp` orders keys by the total preorder `le`. -/
structure Comparator [LinearOrder R] [Zero R] (cmp : K → K → R) (le : K → K → Prop) : Prop where
  total : ∀ a b, le a b ∨ le b a
  trans : ∀ {a b c}, le a b → le b c → le a c
  neg_iff : ∀ a b, cmp a b < 0 ↔ ¬ le b a
  pos_iff : ∀ a b, 0 < cmp a b ↔ ¬ le a b

/-- Entries compared by their keys. -/
def leEntry (le : K → K → Prop) (a b : K × V) : Prop := le a.1 b.1

section

variable [LinearOrder R] [Zero R] {cmp : K → K → R} {le : K → K → Prop}
variable (hcmp : Comparator cmp le)
include hcmp

theorem Comparator.le_of_neg {a b : K} (h : cmp a b < 0) : le a b :=
  (hcmp.total a b).resolve_right ((hcmp.neg_iff a b).mp h)

theorem Comparator.le_of_not_neg {a b : K} (h : ¬ cmp a b < 0) : le b a :=
  not_not.mp (mt (hcmp.neg_iff a b).mpr h)

theorem Comparator.leEntry_refl (a : K × V) : leEntry le a a := (hcmp.total a.1 a.1).elim id id

theorem Comparator.leEntry_trans (a b c : K × V) (hab : leEntry le a b) (hbc : leEntry le b c) :
    leEntry le a c :=
  hcmp.trans hab hbc

theorem pqSiftUp_spec {data : List (Option (K × V))} {n i : ℕ} {f : ℕ → K × V} (hin : i < n)
    (hf : Holds data n f) (hup : UpOrdered (leEntry le) f n i) :
    ∃ out g, pqSiftUp cmp data i = .ok out ∧ out.length = data.length ∧ Holds out n g ∧
      HeapOrdered (leEntry le) g n ∧ contents g n = contents f n := by
  induction i using Nat.strong_induction_on generalizing data f with
  | _ i ih =>
    rw [pqSiftUp]
    by_cases h0 : i = 0
    · rw [dif_pos h0]
      exact ⟨data, f, rfl, rfl, hf, hup.done fun h => absurd h0 h.ne', rfl⟩
    · have hpos := Nat.pos_of_ne_zero h0
      have hp : (i - 1) / 2 < i := parent_lt hpos
      rw [dif_neg h0]
      simp only [hf.keyAt_eq hin, hf.keyAt_eq (hp.trans hin), ok_bind]
      split
      next hlt =>
          simp only [hf.vectorRef_eq hin, hf.vectorRef_eq (hp.trans hin), ok_bind,
            Vectors.vectorSet_eq (hf.lt_length hin)]
          rw [Vectors.vectorSet_eq (by rw [List.length_set]; exact hf.lt_length (hp.trans hin)),
            ok_bind]
          obtain ⟨out, g, hout, hlen, hg, hheap, hcont⟩ := ih ((i - 1) / 2) hp (hp.trans hin)
            (hf.swap hin (hp.trans hin))
            (hup.swap hcmp.leEntry_trans hpos hin (hcmp.le_of_neg hlt))
          refine ⟨out, g, hout, by rw [hlen, List.length_set, List.length_set], hg, hheap, ?_⟩
          rw [hcont, contents_swap f hin (hp.trans hin)]
      next hge =>
          exact ⟨data, f, rfl, rfl, hf, hup.done fun _ => hcmp.le_of_not_neg hge, rfl⟩

theorem pqSmaller_spec {data : List (Option (K × V))} {n i c : ℕ} {f : ℕ → K × V} (hin : i < n)
    (hf : Holds data n f) (hc : i < c) (s : {s // s = i ∨ i < s ∧ s < n}) :
    ∃ t, pqSmaller cmp data n i c hc s = .ok t ∧ (t = s ∨ t.1 = c) ∧
      leEntry le (f t) (f s) ∧ (c < n → leEntry le (f t) (f c)) := by
  have hs : s.1 < n := by
    have := s.2
    omega
  rw [pqSmaller]
  split
  next h =>
      simp only [hf.keyAt_eq h, hf.keyAt_eq hs, ok_bind]
      split
      next hlt =>
          exact ⟨_, rfl, Or.inr rfl, hcmp.le_of_neg hlt, fun _ => hcmp.leEntry_refl _⟩
      next hge =>
          exact ⟨_, rfl, Or.inl rfl, hcmp.leEntry_refl _, fun _ => hcmp.le_of_not_neg hge⟩
  next h => exact ⟨_, rfl, Or.inl rfl, hcmp.leEntry_refl _, fun hcn => absurd hcn h⟩

/-- Sifting down restores the heap and keeps its contents. -/
theorem pqSiftDown_spec {data : List (Option (K × V))} {n i : ℕ} {f : ℕ → K × V} (hin : i < n)
    (hf : Holds data n f) (hdown : DownOrdered (leEntry le) f n i) :
    ∃ out g, pqSiftDown cmp data n i = .ok out ∧ out.length = data.length ∧ Holds out n g ∧
      HeapOrdered (leEntry le) g n ∧ contents g n = contents f n := by
  generalize hm : n - i = m
  induction m using Nat.strong_induction_on generalizing i data f with
  | _ m ih =>
    obtain ⟨s, hs, hsi, hsle, hsl⟩ := pqSmaller_spec hcmp hin hf (c := 2 * i + 1) (by omega)
      ⟨i, Or.inl rfl⟩
    obtain ⟨t, ht, hts, htle, htr⟩ := pqSmaller_spec hcmp hin hf (c := 2 * i + 2) (by omega) s
    -- The position chosen is no greater than `i` and both children.
    have hmin : ∀ c, 0 < c → c < n → parent c = i → leEntry le (f t) (f c) := by
      intro c hc hcn hp
      rcases (parent_eq_iff hc).mp hp with rfl | rfl
      · exact hcmp.trans htle (hsl hcn)
      · exact htr hcn
    have hti : leEntry le (f t) (f i) := hcmp.trans htle hsle
    rw [pqSiftDown, hs, ok_bind, ht, ok_bind]
    by_cases h : t.1 = i
    · rw [dif_neg (not_not.mpr h)]
      refine ⟨data, f, rfl, rfl, hf, hdown.done fun c hc hcn hp => ?_, rfl⟩
      have hle := hmin c hc hcn hp
      rwa [h] at hle
    · have htpos := t.2
      have htn : t.1 < n := by omega
      have htp : parent t = i := by
        rw [parent_eq_iff (by omega)]
        rcases hts with hts | hts
        · rcases hsi with hsi | hsi
          · rw [hts, hsi] at h
            exact absurd rfl h
          · rw [hts]
            exact Or.inl hsi
        · exact Or.inr hts
      rw [dif_pos h]
      simp only [hf.vectorRef_eq hin, hf.vectorRef_eq htn, ok_bind,
        Vectors.vectorSet_eq (hf.lt_length hin)]
      rw [Vectors.vectorSet_eq (by rw [List.length_set]; exact hf.lt_length htn), ok_bind]
      obtain ⟨out, g, hout, hlen, hg, hheap, hcont⟩ := ih (n - t) (by omega) htn
        (hf.swap hin htn) (hdown.swap (by omega) htn htp hti
          fun c hc hcn hp _ => hmin c hc hcn hp) rfl
      refine ⟨out, g, hout, by rw [hlen, List.length_set, List.length_set], hg, hheap, ?_⟩
      rw [hcont, contents_swap f hin htn]

/-! ### Operations -/

end

/-- A queue with the entries `m`: room for one more, and heap order. The entries are given as a
function on all positions once there is an entry to fill it up with. -/
structure Queue (cmp : K → K → R) (le : K → K → Prop) (pq : Pq K V R) (m : Multiset (K × V)) :
    Prop where
  compare_eq : pq.compare = cmp
  room : pq.size < pq.data.length
  size_eq : pq.size = m.card
  heap : ∀ _ : K × V, ∃ f, Holds pq.data pq.size f ∧ HeapOrdered (leEntry le) f pq.size ∧
    contents f pq.size = m

section

variable {cmp : K → K → R} {le : K → K → Prop} {pq : Pq K V R} {m : Multiset (K × V)}

theorem Queue.present_eq (h : Queue cmp le pq m) : present pq = m := by
  rcases Multiset.empty_or_exists_mem m with h0 | ⟨x, -⟩
  · rw [present, h.size_eq, h0]
    rfl
  · obtain ⟨f, hf, -, hm⟩ := h.heap x
    rw [present, hf.filterMap_take, hm]

theorem Queue.make (cmp : K → K → R) (le : K → K → Prop) :
    Queue cmp le (makePq cmp : Pq K V R) 0 where
  compare_eq := rfl
  room := Nat.zero_lt_succ 15
  size_eq := rfl
  heap x := ⟨fun _ => x, fun i hi => absurd hi (Nat.not_lt_zero i),
    fun c _ hc => absurd hc (Nat.not_lt_zero c), rfl⟩

end

section

variable [LinearOrder R] [Zero R] {cmp : K → K → R} {le : K → K → Prop} {pq : Pq K V R}
variable {m : Multiset (K × V)} (hcmp : Comparator cmp le)
include hcmp

theorem Queue.push (h : Queue cmp le pq m) (key : K) (item : V) :
    ∃ pq', pqPush pq key item = .ok pq' ∧ Queue cmp le pq' (m + {(key, item)}) := by
  obtain ⟨f, hf, hheap, hm⟩ := h.heap (key, item)
  obtain ⟨data, hgrow, hroom, hdata⟩ := pqEnsureCapacity_spec h.room hf
  have hnew : Holds (data.set pq.size (some (key, item))) (pq.size + 1)
      (Function.update f pq.size (key, item)) := by
    intro i hi
    by_cases hin : i = pq.size
    · rw [hin, Function.update_self, List.getElem?_set_self (by omega)]
    · rw [Function.update_of_ne hin, List.getElem?_set_ne (Ne.symm hin)]
      exact hdata i (by omega)
  obtain ⟨out, g, hout, hlen, hg, hgheap, hcont⟩ := pqSiftUp_spec hcmp (by omega) hnew
    (hheap.up (key, item))
  rw [List.length_set] at hlen
  rw [contents_update, hm] at hcont
  refine ⟨{ data := out, size := pq.size + 1, compare := cmp }, ?_, rfl, ?_, ?_,
    fun _ => ⟨g, hg, hgheap, hcont⟩⟩
  · simp only [pqPush, pqSize, hgrow, ok_bind,
      Vectors.vectorSet_eq (show pq.size < data.length by omega),
      h.compare_eq, hout]
  · change pq.size + 1 < out.length
    omega
  · change pq.size + 1 = _
    rw [Multiset.card_add, Multiset.card_singleton, h.size_eq]

theorem Queue.peek (h : Queue cmp le pq m) (hm : m ≠ 0) :
    ∃ e, pqPeek pq = .ok (some e) ∧ e ∈ m ∧ ∀ x ∈ m, le e.1 x.1 := by
  obtain ⟨x, hx⟩ := Multiset.exists_mem_of_ne_zero hm
  obtain ⟨f, hf, hheap, hcont⟩ := h.heap x
  have hpos : 0 < pq.size := by
    rw [h.size_eq]
    exact Multiset.card_pos.mpr hm
  have hne : ¬ pqEmpty pq = true := by
    rw [pqEmpty, decide_eq_true_eq]
    exact hpos.ne'
  refine ⟨f 0, ?_, ?_, fun y hy => ?_⟩
  · rw [pqPeek, if_neg hne, hf.vectorRef_eq hpos]
  · rw [← hcont]
    exact mem_contents.mpr ⟨0, hpos, rfl⟩
  · rw [← hcont] at hy
    obtain ⟨k, hk, rfl⟩ := mem_contents.mp hy
    exact hheap.root_le hcmp.leEntry_trans hcmp.leEntry_refl hk

/-- A pop takes the peeked entry away. -/
theorem Queue.pop (h : Queue cmp le pq m) (hm : m ≠ 0) {e : K × V}
    (he : pqPeek pq = .ok (some e)) :
    ∃ pq' m', pqPop pq = .ok (some e, pq') ∧ Queue cmp le pq' m' ∧ m = m' + {e} := by
  obtain ⟨f, hf, hheap, hcont⟩ := h.heap e
  have hpos : 0 < pq.size := by
    rw [h.size_eq]
    exact Multiset.card_pos.mpr hm
  have hne : ¬ pqEmpty pq = true := by
    rw [pqEmpty, decide_eq_true_eq]
    exact hpos.ne'
  obtain rfl : f 0 = e := by
    rw [pqPeek, if_neg hne, hf.vectorRef_eq hpos] at he
    exact Option.some.inj (Except.ok.inj he)
  obtain ⟨n, hn⟩ : ∃ n, pq.size = n + 1 := ⟨pq.size - 1, by omega⟩
  rw [hn] at hf hheap hcont
  have hroom := h.room
  -- The last entry goes to the root, and the root leaves at the end.
  have hmoved : Holds ((pq.data.set 0 (some (f n))).set n none) n (swap f 0 n) := by
    intro i hi
    rw [List.getElem?_set_ne (ne_of_gt hi)]
    by_cases h0 : i = 0
    · rw [h0, swap_left, List.getElem?_set_self (by omega)]
    · rw [List.getElem?_set_ne (Ne.symm h0), swap_of_ne f h0 (ne_of_lt hi)]
      exact hf i (by omega)
  have hm' : m = contents (swap f 0 n) n + {f 0} := by
    rw [← hcont, ← contents_swap f (by omega : 0 < n + 1) (by omega : n < n + 1), contents_succ,
      swap_right]
  obtain ⟨out, g, hout, hlen, hg, hgheap, hgcont⟩ : ∃ out g,
      (if n > 1 then pqSiftDown cmp ((pq.data.set 0 (some (f n))).set n none) n 0
        else .ok ((pq.data.set 0 (some (f n))).set n none)) = .ok out ∧
      out.length = pq.data.length ∧ Holds out n g ∧ HeapOrdered (leEntry le) g n ∧
      contents g n = contents (swap f 0 n) n := by
    by_cases h1 : n > 1
    · obtain ⟨out, g, hout, hlen, hrest⟩ := pqSiftDown_spec hcmp (by omega) hmoved
        (hheap.down fun c hc hcn => swap_of_ne f (by omega) (ne_of_lt hcn))
      rw [List.length_set, List.length_set] at hlen
      exact ⟨out, g, by rw [if_pos h1, hout], hlen, hrest⟩
    · refine ⟨_, _, by rw [if_neg h1], ?_, hmoved, fun c hc hcn => by omega, rfl⟩
      rw [List.length_set, List.length_set]
  refine ⟨{ data := out, size := n, compare := cmp }, contents g n, ?_, ⟨rfl, ?_, ?_, ?_⟩, ?_⟩
  · rw [pqPop, if_neg hne]
    simp only [hf.vectorRef_eq (Nat.succ_pos n), pqSize, hn, Nat.add_sub_cancel,
      hf.vectorRef_eq (Nat.lt_succ_self n), ok_bind, h.compare_eq,
      Vectors.vectorSet_eq (show 0 < pq.data.length by omega),
      Vectors.vectorSet_eq (show n < (pq.data.set 0 (some (f n))).length by
        rw [List.length_set]; omega)]
    by_cases h1 : n > 1
    · rw [if_pos h1] at hout ⊢
      rw [hout, ok_bind]
    · rw [if_neg h1] at hout ⊢
      cases hout
      rfl
  · change n < out.length
    omega
  · exact (card_contents g n).symm
  · exact fun _ => ⟨g, hg, hgheap, rfl⟩
  · rw [hgcont]
    exact hm'

end

/-! ### Runs -/

/-- A queue after some operations, with the entries pushed and the entries popped so far. An
operation that raises an error leaves the queue as it was. -/
inductive Run [LinearOrder R] [Zero R] (cmp : K → K → R) :
    Multiset (K × V) → Multiset (K × V) → Pq K V R → Prop
  | make : Run cmp 0 0 (makePq cmp)
  | push {pushed popped : Multiset (K × V)} {pq pq' : Pq K V R} {key : K} {item : V} :
      Run cmp pushed popped pq → pqPush pq key item = .ok pq' →
      Run cmp (pushed + {(key, item)}) popped pq'
  | pop {pushed popped : Multiset (K × V)} {pq pq' : Pq K V R} {e : K × V} :
      Run cmp pushed popped pq → pqPop pq = .ok (some e, pq') →
      Run cmp pushed (popped + {e}) pq'

section

variable [LinearOrder R] [Zero R] {cmp : K → K → R} {le : K → K → Prop}

theorem Queue.of_empty {pq : Pq K V R} (h : Queue cmp le pq 0) :
    pqPop pq = .error (.raised "pq-pop!: priority queue is empty") ∧
      pqPeek pq = .error (.raised "pq-peek: priority queue is empty") := by
  have hempty : pqEmpty pq = true := by
    rw [pqEmpty, decide_eq_true_eq]
    exact h.size_eq
  exact ⟨if_pos hempty, if_pos hempty⟩

theorem Run.queue (hcmp : Comparator cmp le) {pushed popped : Multiset (K × V)} {pq : Pq K V R}
    (h : Run cmp pushed popped pq) : ∃ m, Queue cmp le pq m ∧ m + popped = pushed := by
  induction h with
  | make => exact ⟨0, Queue.make cmp le, rfl⟩
  | @push pushed popped pq pq' key item hrun hpush ih =>
    obtain ⟨m, hq, hm⟩ := ih
    obtain ⟨out, hout, hq'⟩ := hq.push hcmp key item
    obtain rfl : pq' = out := Except.ok.inj (hpush.symm.trans hout)
    exact ⟨_, hq', by rw [← hm, add_right_comm]⟩
  | @pop pushed popped pq pq' e hrun hpop ih =>
    obtain ⟨m, hq, hm⟩ := ih
    have hne : m ≠ 0 := by
      rintro rfl
      rw [hq.of_empty.1] at hpop
      cases hpop
    obtain ⟨top, hpeek, -, -⟩ := hq.peek hcmp hne
    obtain ⟨out, m', hout, hq', hm'⟩ := hq.pop hcmp hne hpeek
    obtain ⟨rfl, rfl⟩ : e = top ∧ pq' = out := by
      have heq := Except.ok.inj (hpop.symm.trans hout)
      exact ⟨Option.some.inj (Prod.ext_iff.mp heq).1, (Prod.ext_iff.mp heq).2⟩
    exact ⟨m', hq', by rw [← hm, hm', add_assoc, add_comm popped]⟩

/-- **Correctness of the priority queue.** For every comparator that orders keys by a total
preorder, after every sequence of `pq-push!` and `pq-pop!`: the entries present, with those
popped, are those pushed; `pq-size` counts them; `pq-push!` returns; `pq-peek` and `pq-pop!`
return an entry present with a least key; and both raise an error when no entry is present. -/
theorem pq_correct (hcmp : Comparator cmp le) {pushed popped : Multiset (K × V)}
    {pq : Pq K V R} (h : Run cmp pushed popped pq) :
    present pq + popped = pushed ∧
    pqSize pq = (present pq).card ∧
    (∀ key item, ∃ pq', pqPush pq key item = .ok pq' ∧ present pq' = present pq + {(key, item)}) ∧
    (present pq ≠ 0 → ∃ e pq', pqPeek pq = .ok (some e) ∧ pqPop pq = .ok (some e, pq') ∧
      e ∈ present pq ∧ (∀ x ∈ present pq, le e.1 x.1) ∧ present pq = present pq' + {e}) ∧
    (present pq = 0 → pqPop pq = .error (.raised "pq-pop!: priority queue is empty") ∧
      pqPeek pq = .error (.raised "pq-peek: priority queue is empty")) := by
  obtain ⟨m, hq, hm⟩ := h.queue hcmp
  rw [hq.present_eq]
  refine ⟨hm, hq.size_eq, fun key item => ?_, fun hne => ?_, ?_⟩
  · obtain ⟨pq', hpush, hq'⟩ := hq.push hcmp key item
    exact ⟨pq', hpush, hq'.present_eq⟩
  · obtain ⟨e, hpeek, hmem, hmin⟩ := hq.peek hcmp hne
    obtain ⟨pq', m', hpop, hq', hm'⟩ := hq.pop hcmp hne hpeek
    exact ⟨e, pq', hpeek, hpop, hmem, hmin, by rw [hq'.present_eq, hm']⟩
  · rintro rfl
    exact hq.of_empty

end

theorem comparator_sub : Comparator (fun a b : ℤ => a - b) (· ≤ ·) where
  total := le_total
  trans := le_trans
  neg_iff a b := by omega
  pos_iff a b := by omega

/-- After pushing `5` and `3` there is an entry to pop, and its key is least. -/
theorem pq_correct_two :
    ∃ pq : Pq ℤ ℤ ℤ, Run (fun a b => a - b) (0 + {(5, 0)} + {(3, 1)}) 0 pq ∧
      present pq = 0 + {(5, 0)} + {(3, 1)} ∧
      ∃ e pq', pqPop pq = .ok (some e, pq') ∧ ∀ x ∈ present pq, e.1 ≤ x.1 := by
  obtain ⟨-, -, hpush, -, -⟩ := pq_correct comparator_sub (Run.make (K := ℤ) (V := ℤ))
  obtain ⟨pq₁, h₁, -⟩ := hpush 5 0
  have hrun₁ := Run.push Run.make h₁
  obtain ⟨-, -, hpush, -, -⟩ := pq_correct comparator_sub hrun₁
  obtain ⟨pq₂, h₂, -⟩ := hpush 3 1
  have hrun₂ := Run.push hrun₁ h₂
  obtain ⟨hpresent, -, -, hpop, -⟩ := pq_correct comparator_sub hrun₂
  rw [add_zero] at hpresent
  obtain ⟨e, pq', -, hout, -, hmin, -⟩ := hpop (by rw [hpresent]; simp)
  exact ⟨pq₂, hrun₂, hpresent, e, pq', hout, hmin⟩

end Eshkol.Core.Collections
