import Eshkol.Core.Zset
import Eshkol.Machine.Calls
import Eshkol.Weighted.Weights

/-!
# Relational Operators on Z-Sets

Subtraction, mapping, selection, joins and `distinct` on Z-sets (`lib/core/dbsp.esk`). The
procedures that they are given are total functions on rows.

A Z-set over rows that have different keys stands for the weights it gives to its rows, and is
determined by them. The operators are then additive in the weights, `distinct` apart.
-/

open Machine Weighted

namespace Eshkol.Core.Dbsp

open Memory

/-! ### The source -/

def zsetSub (fuel : ℕ) (a b : Zset) : Exec String Zset := zsetAdd fuel a (zsetNegate b)

def zsetMap (fuel : ℕ) (f : Sexp → Sexp) (zs : Zset) : Exec String Zset := do
  let entries ← dbspNormalizePairs fuel (zs.entries.map fun e => (e.1, f e.2))
  .ok ⟨entries⟩

def zsetProject (fuel : ℕ) (f : Sexp → Sexp) (zs : Zset) : Exec String Zset := zsetMap fuel f zs

def zsetFilter (pred : Sexp → Bool) (zs : Zset) : Zset := ⟨zs.entries.filter fun e => pred e.2⟩

section

variable (aKey bKey : Sexp → Sexp) (emit : Sexp → Sexp → Sexp)

/-- The inner loop of `dbsp-join-pairs`. -/
def joinInner (wa : ℤ) (ra : Sexp) : List (ℤ × Sexp) → List (ℤ × Sexp) → List (ℤ × Sexp)
  | [], acc => acc
  | (wb, rb) :: bs, acc =>
    if rowEqual (aKey ra) (bKey rb) then joinInner wa ra bs ((wa * wb, emit ra rb) :: acc)
    else joinInner wa ra bs acc

/-- The outer loop of `dbsp-join-pairs`. -/
def joinOuter (eb : List (ℤ × Sexp)) : List (ℤ × Sexp) → List (ℤ × Sexp) → List (ℤ × Sexp)
  | [], acc => acc
  | (wa, ra) :: as, acc => joinOuter eb as (joinInner aKey bKey emit wa ra eb acc)

def dbspJoinPairs (ea eb : List (ℤ × Sexp)) : List (ℤ × Sexp) := joinOuter aKey bKey emit eb ea []

def zsetJoin (fuel : ℕ) (a b : Zset) : Exec String Zset := do
  let entries ← dbspNormalizePairs fuel (dbspJoinPairs aKey bKey emit a.entries b.entries)
  .ok ⟨entries⟩

end

def zsetDistinct (zs : Zset) : Zset := ⟨(zs.entries.filter fun e => 0 < e.1).map fun e => (1, e.2)⟩

/-! ### Rows with different keys -/

/-- No two different rows have texts that agree up to the first zero character. -/
def Faithful (R : Set Sexp) : Prop := ∀ r ∈ R, ∀ s ∈ R, agreesToNul r s = true → r = s

variable {R : Set Sexp}

theorem Faithful.injOn (hR : Faithful R) : Set.InjOn rowKey R :=
  fun r hr s hs h => hR r hr s hs (rowKey_eq_iff.mp h)

theorem faithful_of_nulFree (h : ∀ row ∈ R, '\x00' ∉ rowChars row) : Faithful R := by
  intro r hr s hs hagrees
  have heq := rowEqual_iff.mp ((rowEqual_iff_agreesToNul_of_nulFree (h r hr) (h s hs)).mpr hagrees)
  rwa [cRow_of_nulFree (h r hr), cRow_of_nulFree (h s hs)] at heq

/-- A consolidated Z-set of some rows with the given weights. -/
structure Means (R : Set Sexp) (zs : Zset) (g : Sexp →₀ ℤ) : Prop where
  normal : Normal R zs
  weights_eq : weights zs.entries = g

theorem Normal.means {zs : Zset} (h : Normal R zs) : Means R zs (weights zs.entries) := ⟨h, rfl⟩

theorem zsetEmpty_means : Means R zsetEmpty 0 := ⟨zsetEmpty_normal, rfl⟩

theorem Normal.negate {zs : Zset} (h : Normal R zs) : Normal R (zsetNegate zs) := by
  rw [zsetNegate_eq]
  exact h.map_mul (by decide)

theorem Means.negate {zs : Zset} {g : Sexp →₀ ℤ} (h : Means R zs g) :
    Means R (zsetNegate zs) (-g) :=
  ⟨h.normal.negate, by rw [zsetNegate, weights_neg, h.weights_eq]⟩

theorem Means.filter {zs : Zset} {g : Sexp →₀ ℤ} (h : Means R zs g) (pred : Sexp → Bool) :
    Means R (zsetFilter pred zs) (g.filter fun r => pred r = true) := by
  refine ⟨⟨⟨?_, fun e he => ?_⟩, fun e he => ?_⟩, ?_⟩
  · exact h.normal.consolidated.ascending.filter _
  · exact h.normal.consolidated.nonzero e (List.mem_of_mem_filter he)
  · exact h.normal.rows e (List.mem_of_mem_filter he)
  · rw [zsetFilter, weights_filter, h.weights_eq]

theorem rows_ne_of_consolidated {es : List (ℤ × Sexp)} (h : Consolidated rowKey es) :
    es.Pairwise fun a b => a.2 ≠ b.2 :=
  h.ascending.imp fun hlt heq => by
    rw [heq] at hlt
    exact lt_irrefl _ hlt

theorem Means.distinct {zs : Zset} {g : Sexp →₀ ℤ} (h : Means R zs g) :
    Means R (zsetDistinct zs) (presence g) := by
  refine ⟨⟨⟨?_, fun e he => ?_⟩, fun e he => ?_⟩, ?_⟩
  · exact List.pairwise_map.mpr (h.normal.consolidated.ascending.filter _)
  · obtain ⟨f, -, rfl⟩ := List.mem_map.mp he
    exact one_ne_zero
  · obtain ⟨f, hf, rfl⟩ := List.mem_map.mp he
    exact h.normal.rows f (List.mem_of_mem_filter hf)
  · rw [zsetDistinct, weights_present (rows_ne_of_consolidated h.normal.consolidated), h.weights_eq]

/-- A procedure that returns a Z-set with the given weights. -/
def Returns (R : Set Sexp) (f : ℕ → Exec String Zset) (g : Sexp →₀ ℤ) : Prop :=
  ∃ zs, Machine.Yields f zs ∧ Means R zs g

/-! ### The operators -/

section

variable (hR : Faithful R)
include hR

theorem Means.unique {a b : Zset} {g : Sexp →₀ ℤ} (ha : Means R a g) (hb : Means R b g) :
    a = b := by
  obtain ⟨es⟩ := a
  obtain ⟨fs⟩ := b
  rw [Zset.mk.injEq]
  exact ha.normal.consolidated.eq_of_weights hR.injOn hb.normal.consolidated ha.normal.rows
    hb.normal.rows (ha.weights_eq.trans hb.weights_eq.symm)

theorem Faithful.normalizePairs {pairs : List (ℤ × Sexp)} (hpairs : ∀ e ∈ pairs, e.2 ∈ R) :
    ∃ es, Machine.Yields (fun fuel => dbspNormalizePairs fuel pairs) es ∧
      Means R ⟨es⟩ (weights pairs) := by
  obtain ⟨es, hes, hcons, htotal, hrows⟩ := dbspNormalizePairs_spec pairs
  have hesR : ∀ e ∈ es, e.2 ∈ R := by
    intro e he
    obtain ⟨f, hf, hef⟩ := hrows e he
    rw [hef]
    exact hpairs f hf
  exact ⟨es, hes, ⟨hcons, hesR⟩, weights_congr hR.injOn hesR hpairs htotal⟩

theorem Faithful.normalize {pairs : List (ℤ × Sexp)} (hpairs : ∀ e ∈ pairs, e.2 ∈ R) :
    Returns R (fun fuel => do
      let entries ← dbspNormalizePairs fuel pairs
      .ok ⟨entries⟩) (weights pairs) := by
  obtain ⟨es, hes, hmeans⟩ := hR.normalizePairs hpairs
  exact ⟨⟨es⟩, hes.bind (yields_ok _), hmeans⟩

variable {a b : Zset} {g h : Sexp →₀ ℤ}

theorem Faithful.add (ha : Means R a g) (hb : Means R b h) :
    Returns R (fun fuel => zsetAdd fuel a b) (g + h) := by
  rw [← ha.weights_eq, ← hb.weights_eq, ← weights_append]
  refine hR.normalize fun e he => ?_
  rcases List.mem_append.mp he with he | he
  · exact ha.normal.rows e he
  · exact hb.normal.rows e he

theorem Faithful.sub (ha : Means R a g) (hb : Means R b h) :
    Returns R (fun fuel => zsetSub fuel a b) (g - h) := by
  rw [sub_eq_add_neg]
  exact hR.add ha hb.negate

theorem Faithful.map (ha : Means R a g) {f : Sexp → Sexp} (hf : Set.MapsTo f R R) :
    Returns R (fun fuel => zsetMap fuel f a) (g.mapDomain f) := by
  rw [← ha.weights_eq, ← weights_map]
  refine hR.normalize fun e he => ?_
  obtain ⟨e', he', rfl⟩ := List.mem_map.mp he
  exact hf (ha.normal.rows e' he')

end

/-! ### Joins -/

section

variable (aKey bKey : Sexp → Sexp) (emit : Sexp → Sexp → Sexp)

/-- Which rows are joined. -/
def keysMatch (ra rb : Sexp) : Bool := rowEqual (aKey ra) (bKey rb)

theorem weights_joinInner (wa : ℤ) (ra : Sexp) (bs acc : List (ℤ × Sexp)) :
    weights (joinInner aKey bKey emit wa ra bs acc) =
      joinWeights (keysMatch aKey bKey) emit (.single ra wa) (weights bs) + weights acc := by
  have hbi := joinWeights_biadditive (keysMatch aKey bKey) emit
  induction bs generalizing acc with
  | nil => simp [joinInner, joinWeights]
  | cons e bs ih =>
    obtain ⟨wb, rb⟩ := e
    rw [weights_cons, hbi.add_right, joinWeights_single, joinInner]
    by_cases hm : keysMatch aKey bKey ra (wb, rb).2 = true
    · rw [if_pos hm, if_pos (show rowEqual (aKey ra) (bKey rb) = true from hm), ih, weights_cons]
      abel
    · rw [if_neg hm, if_neg (show ¬ rowEqual (aKey ra) (bKey rb) = true from hm), ih, zero_add]

theorem weights_joinOuter (eb as acc : List (ℤ × Sexp)) :
    weights (joinOuter aKey bKey emit eb as acc) =
      joinWeights (keysMatch aKey bKey) emit (weights as) (weights eb) + weights acc := by
  have hbi := joinWeights_biadditive (keysMatch aKey bKey) emit
  induction as generalizing acc with
  | nil => simp [joinOuter, joinWeights]
  | cons e as ih =>
    obtain ⟨wa, ra⟩ := e
    rw [weights_cons, hbi.add_left, joinOuter, ih, weights_joinInner]
    abel

theorem mem_joinInner {wa : ℤ} {ra : Sexp} {bs acc : List (ℤ × Sexp)} {e : ℤ × Sexp}
    (he : e ∈ joinInner aKey bKey emit wa ra bs acc) :
    e ∈ acc ∨ ∃ f ∈ bs, e.2 = emit ra f.2 := by
  induction bs generalizing acc with
  | nil => exact .inl he
  | cons f bs ih =>
    obtain ⟨wb, rb⟩ := f
    rw [joinInner] at he
    split at he
    next =>
        rcases ih he with hacc | ⟨f, hf, hef⟩
        · rcases List.mem_cons.mp hacc with rfl | hacc
          · exact .inr ⟨(wb, rb), .head _, rfl⟩
          · exact .inl hacc
        · exact .inr ⟨f, .tail _ hf, hef⟩
    next =>
        rcases ih he with hacc | ⟨f, hf, hef⟩
        · exact .inl hacc
        · exact .inr ⟨f, .tail _ hf, hef⟩

theorem mem_joinOuter {eb as acc : List (ℤ × Sexp)} {e : ℤ × Sexp}
    (he : e ∈ joinOuter aKey bKey emit eb as acc) :
    e ∈ acc ∨ ∃ f ∈ as, ∃ f' ∈ eb, e.2 = emit f.2 f'.2 := by
  induction as generalizing acc with
  | nil => exact .inl he
  | cons f as ih =>
    rcases ih he with hacc | ⟨f', hf', hrest⟩
    · rcases mem_joinInner aKey bKey emit hacc with hacc | ⟨f', hf', hef⟩
      · exact .inl hacc
      · exact .inr ⟨f, .head _, f', hf', hef⟩
    · exact .inr ⟨f', .tail _ hf', hrest⟩

theorem Faithful.join (hR : Faithful R) {a b : Zset} {g h : Sexp →₀ ℤ} (ha : Means R a g)
    (hb : Means R b h) (hemit : ∀ r ∈ R, ∀ s ∈ R, emit r s ∈ R) :
    Returns R (fun fuel => zsetJoin aKey bKey emit fuel a b)
      (joinWeights (keysMatch aKey bKey) emit g h) := by
  have hweights : weights (dbspJoinPairs aKey bKey emit a.entries b.entries) =
      joinWeights (keysMatch aKey bKey) emit g h := by
    rw [dbspJoinPairs, weights_joinOuter, ha.weights_eq, hb.weights_eq, weights_nil, add_zero]
  rw [← hweights]
  refine hR.normalize fun e he => ?_
  rcases mem_joinOuter aKey bKey emit he with hnil | ⟨f, hf, f', hf', hef⟩
  · cases hnil
  · rw [hef]
    exact hemit _ (ha.normal.rows f hf) _ (hb.normal.rows f' hf')

end

end Eshkol.Core.Dbsp
