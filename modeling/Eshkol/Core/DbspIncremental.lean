import Eshkol.Core.DbspStream

/-!
# Incremental Operators

The operators on streams of changes of `lib/core/dbsp.esk`, each with its own way to work on
changes. The reference for all of them is `dbsp-incrementalize`, which applies the operator on
Z-sets to the snapshots and takes differences.

`incremental-distinct` keeps a count for each row, in an association list keyed by the texts of
the rows, and reports the rows whose count becomes positive or stops being so.
-/

open Machine Weighted Dataflow

namespace Eshkol.Core.Dbsp

open Memory

/-! ### The source -/

def incrementalMap (f : Sexp → Sexp) (fuel : ℕ) (ds : List Zset) : Exec String (List Zset) :=
  ds.mapM (zsetMap fuel f)

def incrementalFilter (pred : Sexp → Bool) (ds : List Zset) : List Zset := ds.map (zsetFilter pred)

def incrementalProject (f : Sexp → Sexp) (fuel : ℕ) (ds : List Zset) : Exec String (List Zset) :=
  ds.mapM (zsetProject fuel f)

def incrementalUnion (fuel : ℕ) (dsa dsb : List Zset) : Exec String (List Zset) :=
  mapTwo (zsetAdd fuel) dsa dsb

section

variable (aKey bKey : Sexp → Sexp) (emit : Sexp → Sexp → Sexp)

/-- The loop of `incremental-join`. -/
def incrementalJoinLoop (fuel : ℕ) :
    List Zset → List Zset → Zset → Zset → List Zset → Exec String (List Zset)
  | [], _, _, _, out => .ok out.reverse
  | _ :: _, [], _, _, _ => raise "car: not a pair"
  | da :: as, db :: bs, a0, b0, out => do
      let t1 ← zsetJoin aKey bKey emit fuel da b0
      let t2 ← zsetJoin aKey bKey emit fuel a0 db
      let t3 ← zsetJoin aKey bKey emit fuel da db
      let t12 ← zsetAdd fuel t1 t2
      let delta ← zsetAdd fuel t12 t3
      let a ← zsetAdd fuel a0 da
      let b ← zsetAdd fuel b0 db
      incrementalJoinLoop fuel as bs a b (delta :: out)

def incrementalJoin (fuel : ℕ) (dsa dsb : List Zset) : Exec String (List Zset) :=
  incrementalJoinLoop aKey bKey emit fuel dsa dsb zsetEmpty zsetEmpty []

end

/-- Counts by the texts of the rows. -/
abbrev Counts : Type := List (List Char × ℤ)

/-- `dbsp-count-get`, with the search of `assoc`. -/
def dbspCountGet : Counts → List Char → ℤ
  | [], _ => 0
  | cell :: counts, key => if stringEqual key cell.1 then cell.2 else dbspCountGet counts key

def dbspCountSet : Counts → List Char → ℤ → Counts
  | [], key, val => [(key, val)]
  | cell :: counts, key, val =>
    if stringEqual cell.1 key then (key, val) :: counts
    else cell :: dbspCountSet counts key val

/-- The loop of `dbsp-distinct-step`: the counts and the pairs collected. -/
def distinctLoop : List (ℤ × Sexp) → Counts → List (ℤ × Sexp) → Counts × List (ℤ × Sexp)
  | [], cs, outPairs => (cs, outPairs)
  | (w, row) :: es, cs, outPairs =>
    let key := dbspCanon row
    let old := dbspCountGet cs key
    let new := old + w
    distinctLoop es (dbspCountSet cs key new)
      (if old ≤ 0 ∧ 0 < new then (1, row) :: outPairs
      else if 0 < old ∧ new ≤ 0 then (-1, row) :: outPairs
      else outPairs)

def dbspDistinctStep (fuel : ℕ) (counts : Counts) (entries : List (ℤ × Sexp)) :
    Exec String (Counts × Zset) := do
  let (cs, outPairs) := distinctLoop entries counts []
  let out ← dbspNormalizePairs fuel outPairs
  .ok (cs, ⟨out⟩)

/-- The loop of `incremental-distinct`. -/
def incrementalDistinctLoop (fuel : ℕ) : List Zset → Counts → List Zset → Exec String (List Zset)
  | [], _, out => .ok out.reverse
  | x :: xs, counts, out => do
      let res ← dbspDistinctStep fuel counts x.entries
      incrementalDistinctLoop fuel xs res.1 (res.2 :: out)

def incrementalDistinct (fuel : ℕ) (ds : List Zset) : Exec String (List Zset) :=
  incrementalDistinctLoop fuel ds [] []

/-- `stream-D` of an operator on two Z-sets applied to the snapshots of two streams. -/
def incrementalizeTwo (op : ℕ → Zset → Zset → Exec String Zset) (fuel : ℕ) (dsa dsb : List Zset) :
    Exec String (List Zset) := do
  let as ← streamI fuel dsa
  let bs ← streamI fuel dsb
  let results ← mapTwo (op fuel) as bs
  streamD fuel results

/-! ### Operators tick by tick -/

variable {R : Set Sexp}

theorem returnsAll_mapM {op : Query} {φ : (Sexp →₀ ℤ) → Sexp →₀ ℤ}
    (hop : ∀ zs g, Means R zs g → Returns R (fun fuel => op fuel zs) (φ g)) {s : List Zset}
    {gs : List (Sexp →₀ ℤ)} (h : MeansAll R s gs) :
    ReturnsAll R (fun fuel => s.mapM (op fuel)) (gs.map φ) := by
  have hall : ∃ t, List.Forall₂ (fun zs out => Machine.Yields (fun fuel => op fuel zs) out) s t ∧
      MeansAll R t (gs.map φ) := by
    induction h with
    | nil => exact ⟨[], .nil, .nil⟩
    | cons hz _ ih =>
      obtain ⟨out, hout, hmeans⟩ := hop _ _ hz
      obtain ⟨t, ht, hall⟩ := ih
      exact ⟨out :: t, .cons hout ht, .cons hmeans hall⟩
  obtain ⟨t, ht, hmeans⟩ := hall
  exact ⟨t, Machine.Yields.mapM ht, hmeans⟩

theorem returnsAll_mapTwo {op : ℕ → Zset → Zset → Exec String Zset}
    {φ : (Sexp →₀ ℤ) → (Sexp →₀ ℤ) → Sexp →₀ ℤ}
    (hop : ∀ a b g h, Means R a g → Means R b h → Returns R (fun fuel => op fuel a b) (φ g h))
    {as bs : List Zset} {gs hs : List (Sexp →₀ ℤ)} (ha : MeansAll R as gs)
    (hb : MeansAll R bs hs) :
    ReturnsAll R (fun fuel => mapTwo (op fuel) as bs) (List.zipWith φ gs hs) := by
  have hall : ∃ t, YieldsTwo op as bs t ∧ MeansAll R t (List.zipWith φ gs hs) := by
    induction ha generalizing bs hs with
    | nil => exact ⟨[], .left_nil bs, .nil⟩
    | cons hx _ ih =>
      cases hb with
      | nil => exact ⟨[], .right_nil _ _, .nil⟩
      | cons hy hb =>
        obtain ⟨out, hout, hmeans⟩ := hop _ _ _ _ hx hy
        obtain ⟨t, ht, hall⟩ := ih hb
        exact ⟨out :: t, .cons hout ht, .cons hmeans hall⟩
  obtain ⟨t, ht, hmeans⟩ := hall
  exact ⟨t, Machine.Yields.mapTwo ht, hmeans⟩

section

variable (hR : Faithful R)
include hR

variable {gs : List (Sexp →₀ ℤ)}

theorem ReturnsAll.same {f f' : ℕ → Exec String (List Zset)} (h : ReturnsAll R f gs)
    (h' : ReturnsAll R f' gs) : SameStream f f' := by
  obtain ⟨s, hs, hall⟩ := h
  obtain ⟨t, ht, hall'⟩ := h'
  obtain rfl := hall.unique hR hall'
  exact ⟨s, s, hs, ht, streamEqual_refl s⟩

theorem Faithful.incrementalize {op : Query} {φ : (Sexp →₀ ℤ) → Sexp →₀ ℤ}
    (hop : ∀ zs g, Means R zs g → Returns R (fun fuel => op fuel zs) (φ g)) (h0 : φ 0 = 0)
    {ds : List Zset} (h : MeansAll R ds gs) :
    ReturnsAll R (fun fuel => dbspIncrementalize op fuel ds) (incr φ 0 gs) := by
  obtain ⟨i, hi, hiall⟩ := hR.streamI h
  obtain ⟨m, hm, hmall⟩ := returnsAll_mapM hop hiall
  obtain ⟨d, hd, hdall⟩ := hR.streamD hmall
  refine ⟨d, hi.bind (hm.bind hd), ?_⟩
  rw [← diff_map_integ, h0]
  exact hdall

theorem Faithful.incrementalize_additive {op : Query} (φ : (Sexp →₀ ℤ) →+ Sexp →₀ ℤ)
    (hop : ∀ zs g, Means R zs g → Returns R (fun fuel => op fuel zs) (φ g)) {ds : List Zset}
    (h : MeansAll R ds gs) :
    ReturnsAll R (fun fuel => dbspIncrementalize op fuel ds) (gs.map φ) := by
  rw [← incr_eq_map φ 0]
  exact hR.incrementalize hop (map_zero φ) h

theorem Faithful.incrementalizeTwo {op : ℕ → Zset → Zset → Exec String Zset}
    {φ : (Sexp →₀ ℤ) → (Sexp →₀ ℤ) → Sexp →₀ ℤ}
    (hop : ∀ a b g h, Means R a g → Means R b h → Returns R (fun fuel => op fuel a b) (φ g h))
    {dsa dsb : List Zset} {gs hs : List (Sexp →₀ ℤ)} (ha : MeansAll R dsa gs)
    (hb : MeansAll R dsb hs) :
    ReturnsAll R (fun fuel => Dbsp.incrementalizeTwo op fuel dsa dsb)
      (diff 0 (List.zipWith φ (integ 0 gs) (integ 0 hs))) := by
  obtain ⟨i, hi, hiall⟩ := hR.streamI ha
  obtain ⟨j, hj, hjall⟩ := hR.streamI hb
  obtain ⟨m, hm, hmall⟩ := returnsAll_mapTwo hop hiall hjall
  obtain ⟨d, hd, hdall⟩ := hR.streamD hmall
  exact ⟨d, hi.bind (hj.bind (hm.bind hd)), hdall⟩

theorem Faithful.joinLoop (aKey bKey : Sexp → Sexp) {emit : Sexp → Sexp → Sexp}
    (hemit : ∀ r ∈ R, ∀ s ∈ R, emit r s ∈ R) {as bs : List Zset} {hs : List (Sexp →₀ ℤ)}
    (ha : MeansAll R as gs) (hb : MeansAll R bs hs) (hlen : as.length = bs.length) {a0 b0 : Zset}
    {g h : Sexp →₀ ℤ} (ha0 : Means R a0 g) (hb0 : Means R b0 h) (out : List Zset) :
    ∃ t, Machine.Yields (fun fuel => incrementalJoinLoop aKey bKey emit fuel as bs a0 b0 out)
        (out.reverse ++ t) ∧
      MeansAll R t (product (joinWeights (keysMatch aKey bKey) emit) g h gs hs) := by
  induction ha generalizing bs hs a0 b0 g h out with
  | nil => exact ⟨[], by rw [List.append_nil]; exact yields_ok _, .nil⟩
  | cons hx _ ih =>
    cases hb with
    | nil => cases hlen
    | cons hy hb =>
      obtain ⟨t1, ht1, hm1⟩ := hR.join aKey bKey emit hx hb0 hemit
      obtain ⟨t2, ht2, hm2⟩ := hR.join aKey bKey emit ha0 hy hemit
      obtain ⟨t3, ht3, hm3⟩ := hR.join aKey bKey emit hx hy hemit
      obtain ⟨t12, ht12, hm12⟩ := hR.add hm1 hm2
      obtain ⟨delta, hdelta, hmeans⟩ := hR.add hm12 hm3
      obtain ⟨a, hasum, hma⟩ := hR.add ha0 hx
      obtain ⟨b, hbsum, hmb⟩ := hR.add hb0 hy
      obtain ⟨t, ht, hall⟩ := ih hb (Nat.succ.inj hlen) hma hmb (delta :: out)
      rw [List.reverse_cons, List.append_assoc] at ht
      exact ⟨delta :: t, ht1.bind (ht2.bind (ht3.bind (ht12.bind (hdelta.bind
        (hasum.bind (hbsum.bind ht)))))), .cons hmeans hall⟩

end

/-! ### Counts -/

theorem dbspCountGet_set (cs : Counts) (key key' : List Char) (val : ℤ) :
    dbspCountGet (dbspCountSet cs key val) key' =
      if stringEqual key' key then val else dbspCountGet cs key' := by
  simp only [stringEqual_iff]
  induction cs with
  | nil => simp only [dbspCountSet, dbspCountGet, stringEqual_iff]
  | cons cell cs ih =>
    rw [dbspCountSet]
    by_cases hcell : cText cell.1 = cText key
    · rw [if_pos (stringEqual_iff.mpr hcell)]
      simp only [dbspCountGet, stringEqual_iff, hcell]
      split
      · rfl
      · rfl
    · rw [if_neg (mt stringEqual_iff.mp hcell)]
      simp only [dbspCountGet, stringEqual_iff, ih]
      by_cases hkey : cText key' = cText cell.1
      · rw [if_pos hkey, if_neg (by rw [hkey]; exact hcell), if_pos hkey]
      · rw [if_neg hkey, if_neg hkey]

/-- The counts of the rows are the weights. -/
def CountsMean (R : Set Sexp) (cs : Counts) (c : Sexp →₀ ℤ) : Prop :=
  ∀ row ∈ R, dbspCountGet cs (dbspCanon row) = c row

section

variable (hR : Faithful R)
include hR

variable {cs : Counts} {c : Sexp →₀ ℤ}

theorem Faithful.countSet (hcs : CountsMean R cs c) {row : Sexp} (hrow : row ∈ R) (w : ℤ) :
    CountsMean R (dbspCountSet cs (dbspCanon row) (dbspCountGet cs (dbspCanon row) + w))
      (c + .single row w) := by
  intro row' hrow'
  rw [dbspCountGet_set, hcs row hrow, hcs row' hrow', Finsupp.add_apply]
  by_cases h : row' = row
  · rw [h, if_pos (stringEqual_dbspCanon_iff.mpr (rowKey_eq_iff.mp rfl)), Finsupp.single_eq_same]
  · rw [if_neg fun heq => h (hR _ hrow' _ hrow (stringEqual_dbspCanon_iff.mp heq)),
      Finsupp.single_eq_of_ne h, add_zero]

omit hR in
theorem weights_boundary (old w : ℤ) (row : Sexp) (out : List (ℤ × Sexp)) :
    weights (if old ≤ 0 ∧ 0 < old + w then (1, row) :: out
      else if 0 < old ∧ old + w ≤ 0 then (-1, row) :: out else out) =
      .single row (present (old + w) - present old) + weights out := by
  unfold present
  split
  next h => rw [weights_cons, if_pos h.2, if_neg (by omega), sub_zero]
  next h =>
      split
      next h' => rw [weights_cons, if_neg (by omega), if_pos h'.1, zero_sub]
      next h' =>
          have hsame : (if 0 < old + w then (1 : ℤ) else 0) - (if 0 < old then 1 else 0) = 0 := by
            split <;> split <;> omega
          rw [hsame, Finsupp.single_zero, zero_add]

theorem Faithful.distinctLoop {es : List (ℤ × Sexp)} (hes : ∀ e ∈ es, e.2 ∈ R)
    (hcs : CountsMean R cs c) {out : List (ℤ × Sexp)} (hout : ∀ e ∈ out, e.2 ∈ R) :
    CountsMean R (Dbsp.distinctLoop es cs out).1 (c + weights es) ∧
      weights (Dbsp.distinctLoop es cs out).2 =
        presence (c + weights es) - presence c + weights out ∧
      ∀ e ∈ (Dbsp.distinctLoop es cs out).2, e.2 ∈ R := by
  induction es generalizing cs c out with
  | nil =>
    rw [weights_nil, add_zero, sub_self, zero_add]
    exact ⟨hcs, rfl, hout⟩
  | cons e es ih =>
    obtain ⟨w, row⟩ := e
    rw [List.forall_mem_cons] at hes
    have hcs' := hR.countSet hcs hes.1 w
    rw [Dbsp.distinctLoop]
    set out' := if dbspCountGet cs (dbspCanon row) ≤ 0 ∧ 0 < dbspCountGet cs (dbspCanon row) + w
      then (1, row) :: out
      else if 0 < dbspCountGet cs (dbspCanon row) ∧ dbspCountGet cs (dbspCanon row) + w ≤ 0
        then (-1, row) :: out else out with hout'
    have hrows : ∀ e ∈ out', e.2 ∈ R := by
      rw [hout']
      split
      · exact List.forall_mem_cons.mpr ⟨hes.1, hout⟩
      · split
        · exact List.forall_mem_cons.mpr ⟨hes.1, hout⟩
        · exact hout
    have hweights := weights_boundary (dbspCountGet cs (dbspCanon row)) w row out
    rw [← hout', hcs row hes.1] at hweights
    obtain ⟨hcounts, hsum, hmem⟩ := ih hes.2 hcs' hrows
    rw [weights_cons, ← add_assoc]
    refine ⟨hcounts, ?_, hmem⟩
    rw [hsum, hweights, presence_add_single]
    abel

theorem Faithful.distinctStep {zs : Zset} {g : Sexp →₀ ℤ} (hzs : Means R zs g)
    (hcs : CountsMean R cs c) :
    ∃ cs' out, Machine.Yields (fun fuel => dbspDistinctStep fuel cs zs.entries) (cs', out) ∧
      CountsMean R cs' (c + g) ∧ Means R out (presence (c + g) - presence c) := by
  obtain ⟨hcounts, hsum, hmem⟩ := hR.distinctLoop hzs.normal.rows hcs
    (fun e he => absurd he List.not_mem_nil)
  rw [hzs.weights_eq] at hcounts hsum
  rw [weights_nil, add_zero] at hsum
  obtain ⟨es, hyields, hmeans⟩ := hR.normalizePairs hmem
  rw [hsum] at hmeans
  exact ⟨_, ⟨es⟩, hyields.bind (yields_ok _), hcounts, hmeans⟩

theorem Faithful.distinctStream {ds : List Zset} {gs : List (Sexp →₀ ℤ)} (h : MeansAll R ds gs)
    (hcs : CountsMean R cs c) (out : List Zset) :
    ∃ t, Machine.Yields (fun fuel => incrementalDistinctLoop fuel ds cs out) (out.reverse ++ t) ∧
      MeansAll R t (incr presence c gs) := by
  induction h generalizing cs c out with
  | nil => exact ⟨[], by rw [List.append_nil]; exact yields_ok _, .nil⟩
  | cons hx _ ih =>
    obtain ⟨cs', d, hd, hcs', hmeans⟩ := hR.distinctStep hx hcs
    obtain ⟨t, ht, hall⟩ := ih hcs' (d :: out)
    rw [List.reverse_cons, List.append_assoc] at ht
    exact ⟨d :: t, hd.bind ht, .cons hmeans hall⟩

end

/-- Every operator on streams of changes over some rows does what its reference does. -/
structure IncrementalLaws (R : Set Sexp) : Prop where
  map : ∀ f : Sexp → Sexp, Set.MapsTo f R R → ∀ ds : List Zset, (∀ zs ∈ ds, Normal R zs) →
    SameStream (fun fuel => incrementalMap f fuel ds) fun fuel =>
      dbspIncrementalize (fun fuel zs => zsetMap fuel f zs) fuel ds
  filter : ∀ pred : Sexp → Bool, ∀ ds : List Zset, (∀ zs ∈ ds, Normal R zs) →
    SameStream (fun _ => .ok (incrementalFilter pred ds)) fun fuel =>
      dbspIncrementalize (fun _ zs => .ok (zsetFilter pred zs)) fuel ds
  project : ∀ f : Sexp → Sexp, Set.MapsTo f R R → ∀ ds : List Zset, (∀ zs ∈ ds, Normal R zs) →
    SameStream (fun fuel => incrementalProject f fuel ds) fun fuel =>
      dbspIncrementalize (fun fuel zs => zsetProject fuel f zs) fuel ds
  distinct : ∀ ds : List Zset, (∀ zs ∈ ds, Normal R zs) →
    SameStream (fun fuel => incrementalDistinct fuel ds) fun fuel =>
      dbspIncrementalize (fun _ zs => .ok (zsetDistinct zs)) fuel ds
  union : ∀ dsa dsb : List Zset, (∀ zs ∈ dsa, Normal R zs) → (∀ zs ∈ dsb, Normal R zs) →
    SameStream (fun fuel => incrementalUnion fuel dsa dsb) fun fuel =>
      incrementalizeTwo zsetAdd fuel dsa dsb
  join : ∀ (aKey bKey : Sexp → Sexp) (emit : Sexp → Sexp → Sexp),
    (∀ r ∈ R, ∀ s ∈ R, emit r s ∈ R) → ∀ dsa dsb : List Zset, dsa.length = dsb.length →
    (∀ zs ∈ dsa, Normal R zs) → (∀ zs ∈ dsb, Normal R zs) →
    SameStream (fun fuel => incrementalJoin aKey bKey emit fuel dsa dsb) fun fuel =>
      incrementalizeTwo (zsetJoin aKey bKey emit) fuel dsa dsb

/-- Where rows are told apart, the incremental operators are the lifted ones. -/
theorem Faithful.incrementalLaws (hR : Faithful R) : IncrementalLaws R where
  map f hf ds hds := by
    have hop : ∀ zs g, Means R zs g → Returns R (fun fuel => zsetMap fuel f zs)
        (Finsupp.mapDomain.addMonoidHom f g) := fun zs g hz => hR.map hz hf
    have hmeans := meansAll_of_normal hds
    exact (returnsAll_mapM hop hmeans).same hR (hR.incrementalize_additive _ hop hmeans)
  filter pred ds hds := by
    have hop : ∀ zs g, Means R zs g → Returns R (fun _ => .ok (zsetFilter pred zs))
        (Finsupp.filterAddHom (fun r => pred r = true) g) :=
      fun zs g hz => ⟨_, yields_ok _, hz.filter pred⟩
    have hmeans := meansAll_of_normal hds
    have hinc : ReturnsAll R (fun _ => .ok (incrementalFilter pred ds))
        ((weightsAll ds).map (Finsupp.filterAddHom fun r => pred r = true)) := by
      refine ⟨_, yields_ok _, ?_⟩
      rw [incrementalFilter, MeansAll, List.forall₂_map_left_iff, List.forall₂_map_right_iff]
      exact hmeans.imp fun zs g hz => hz.filter pred
    exact hinc.same hR (hR.incrementalize_additive _ hop hmeans)
  project f hf ds hds := by
    have hop : ∀ zs g, Means R zs g → Returns R (fun fuel => zsetProject fuel f zs)
        (Finsupp.mapDomain.addMonoidHom f g) := fun zs g hz => hR.map hz hf
    have hmeans := meansAll_of_normal hds
    exact (returnsAll_mapM hop hmeans).same hR (hR.incrementalize_additive _ hop hmeans)
  distinct ds hds := by
    have hmeans := meansAll_of_normal hds
    have hop : ∀ zs g, Means R zs g → Returns R (fun _ => .ok (zsetDistinct zs)) (presence g) :=
      fun zs g hz => ⟨_, yields_ok _, hz.distinct⟩
    have href := hR.incrementalize hop Finsupp.mapRange_zero hmeans
    exact ReturnsAll.same hR (hR.distinctStream hmeans (fun _ _ => rfl) []) href
  union dsa dsb ha hb := by
    have hop : ∀ a b g h, Means R a g → Means R b h →
        Returns R (fun fuel => zsetAdd fuel a b) (g + h) := fun a b g h hg hh => hR.add hg hh
    have hma := meansAll_of_normal ha
    have hmb := meansAll_of_normal hb
    have href := hR.incrementalizeTwo hop hma hmb
    have hadd := diff_add 0 0 (weightsAll dsa) (weightsAll dsb)
    rw [add_zero] at hadd
    rw [hadd] at href
    exact (returnsAll_mapTwo hop hma hmb).same hR href
  join aKey bKey emit hemit dsa dsb hlen ha hb := by
    have hop : ∀ a b g h, Means R a g → Means R b h →
        Returns R (fun fuel => zsetJoin aKey bKey emit fuel a b)
          (joinWeights (keysMatch aKey bKey) emit g h) :=
      fun a b g h hg hh => hR.join aKey bKey emit hg hh hemit
    have hma := meansAll_of_normal ha
    have hmb := meansAll_of_normal hb
    have href := hR.incrementalizeTwo hop hma hmb
    have hproduct := diff_zipWith (joinWeights_biadditive (keysMatch aKey bKey) emit) 0 0
      (weightsAll dsa) (weightsAll dsb)
    have hzero : joinWeights (keysMatch aKey bKey) emit 0 0 = 0 := Finsupp.sum_zero_index
    rw [hzero] at hproduct
    rw [hproduct] at href
    exact ReturnsAll.same hR (hR.joinLoop aKey bKey hemit hma hmb hlen zsetEmpty_means
      zsetEmpty_means []) href

/-! ### Two rows with one key -/

theorem yields_streamD_two (r : Sexp) {x y : ℤ} (hx : x ≠ 0) (hxy : y - x ≠ 0) {zs : Zset}
    (hzs : Means {r} zs (.single r y)) :
    Machine.Yields (fun fuel => streamD fuel [one x r, zs]) [one x r, one (y - x) r] := by
  have hone : ∀ {w : ℤ}, w ≠ 0 → Means {r} (one w r) (.single r w) := fun hw =>
    one_means hw (Set.mem_singleton r)
  obtain ⟨t, ht, hall⟩ := (faithful_singleton r).streamD (.cons (hone hx) (.cons hzs .nil))
  simp only [diff, sub_zero, ← Finsupp.single_sub] at hall
  rwa [hall.unique (faithful_singleton r) (.cons (hone hx) (.cons (hone hxy) .nil))] at ht

/-- Where two rows have one key, the incremental filter differs. -/
theorem filter_differs {r s : Sexp} (hkey : rowKey r = rowKey s) (hne : r ≠ s) :
    ∃ out, Machine.Yields (fun fuel => dbspIncrementalize
        (fun _ zs => .ok (zsetFilter (fun x => x = r) zs)) fuel [one 1 r, one 1 s]) out ∧
      streamEqual (incrementalFilter (fun x => x = r) [one 1 r, one 1 s]) out = false := by
  have hr : zsetFilter (fun x => x = r) (one 1 r) = one 1 r := by simp [zsetFilter, one]
  have hs : zsetFilter (fun x => x = r) (one 1 s) = zsetEmpty := by
    simp [zsetFilter, one, zsetEmpty, hne.symm]
  have hdiffer : ∀ w : ℤ, streamEqual [one 1 r, zsetEmpty] [one 1 r, one w r] = false := by
    intro w
    rw [streamEqual, streamEqual, show zsetEqual zsetEmpty (one w r) = false from rfl,
      Bool.false_and, Bool.and_false]
  obtain ⟨row, hrow, hI⟩ := yields_streamI_pair hkey
  have hlift : Machine.Yields (fun fuel =>
      streamLift (fun _ zs => .ok (zsetFilter (fun x => x = r) zs)) fuel [one 1 r, one 2 row])
      [one 1 r, zsetFilter (fun x => x = r) (one 2 row)] := by
    refine Machine.Yields.mapM (.cons ?_ (.cons (yields_ok _) .nil))
    rw [hr]
    exact yields_ok _
  have hleft : incrementalFilter (fun x => x = r) [one 1 r, one 1 s] = [one 1 r, zsetEmpty] := by
    rw [incrementalFilter, List.map_cons, List.map_cons, List.map_nil, hr, hs]
  rw [hleft]
  rcases hrow with rfl | rfl
  · have htwo : Means {row} (zsetFilter (fun x => x = row) (one 2 row)) (.single row 2) := by
      rw [show zsetFilter (fun x => x = row) (one 2 row) = one 2 row by simp [zsetFilter, one]]
      exact one_means (by decide) (Set.mem_singleton row)
    exact ⟨_, hI.bind (hlift.bind (yields_streamD_two row one_ne_zero (by decide) htwo)),
      hdiffer _⟩
  · have hzero : Means {r} (zsetFilter (fun x => x = r) (one 2 row)) (.single r 0) := by
      rw [show zsetFilter (fun x => x = r) (one 2 row) = zsetEmpty by
        simp [zsetFilter, one, zsetEmpty, hne.symm], Finsupp.single_zero]
      exact zsetEmpty_means
    exact ⟨_, hI.bind (hlift.bind (yields_streamD_two r one_ne_zero (by decide) hzero)),
      hdiffer _⟩

theorem IncrementalLaws.faithful (h : IncrementalLaws R) : Faithful R := by
  intro r hr s hs hagrees
  by_contra hne
  obtain ⟨out, hout, hdiffers⟩ := filter_differs (rowKey_eq_iff.mpr hagrees) hne
  obtain ⟨left, right, hleft, hright, hequal⟩ := h.filter (fun x => x = r) [one 1 r, one 1 s]
    (by simp [one_normal one_ne_zero hr, one_normal one_ne_zero hs])
  obtain rfl := hleft.unique (yields_ok _)
  obtain rfl := hright.unique hout
  rw [hdiffers] at hequal
  cases hequal

/-- **The incremental operators** do what their references do, over a set of rows, exactly when
no two different rows of it have texts that agree up to the first zero character. -/
theorem incremental_laws_iff (R : Set Sexp) :
    (IncrementalLaws R ↔ Faithful R) ∧ ((∀ row ∈ R, '\x00' ∉ rowChars row) → Faithful R) :=
  ⟨⟨IncrementalLaws.faithful, Faithful.incrementalLaws⟩, faithful_of_nulFree⟩

/-- Two pairs with the same string before a zero character, of which one is selected. -/
theorem incrementalFilter_nul :
    ∃ (r s : Sexp) (out : List Zset), r = .pair (.str ['a', '\x00']) (.num 1) ∧
      s = .pair (.str ['a', '\x00']) (.num 2) ∧
      Machine.Yields (fun fuel => dbspIncrementalize
        (fun _ zs => .ok (zsetFilter (fun x => x = r) zs)) fuel [one 1 r, one 1 s]) out ∧
      streamEqual (incrementalFilter (fun x => x = r) [one 1 r, one 1 s]) out = false := by
  obtain ⟨out, hout, hdiffers⟩ := @filter_differs (.pair (.str ['a', '\x00']) (.num 1))
    (.pair (.str ['a', '\x00']) (.num 2)) (rowKey_eq_iff.mpr rfl) (by simp)
  exact ⟨_, _, out, rfl, rfl, hout, hdiffers⟩

end Eshkol.Core.Dbsp
