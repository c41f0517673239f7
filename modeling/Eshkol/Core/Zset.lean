import Eshkol.Core.DbspCanon
import Eshkol.Core.Sort
import Eshkol.Weighted.Canonical

/-!
# Z-Sets

Lists of rows with integer weights (`lib/core/dbsp.esk`). Operations that bring rows together sort
them by their canonical texts, add up the weights of neighbours with the same text and drop what
has weight zero. Weights are looked up with `equal?`.

Rows with the same text are the same row, but texts are compared up to the first zero character:
whether rows are grouped as `equal?` groups them depends on the rows.
-/

open Machine Sorting Weighted

namespace Eshkol.Core.Dbsp

open Memory

/-! ### The source -/

/-- `#(dbsp-zset-v1 ((weight row) ...))`. -/
structure Zset : Type where
  entries : List (ℤ × Sexp)
  deriving DecidableEq

/-- `(canon weight . row)`. -/
abbrev TaggedRow : Type := List Char × ℤ × Sexp

def dbspMergeLoop : TaggedRow → List TaggedRow → List (ℤ × Sexp) → List (ℤ × Sexp)
  | (_, w, row), [], acc => (if w = 0 then acc else (w, row) :: acc).reverse
  | (canon, w, row), (canon', w', row') :: rest, acc =>
    if stringEqual canon canon' then dbspMergeLoop (canon, w + w', row) rest acc
    else dbspMergeLoop (canon', w', row') rest (if w = 0 then acc else (w, row) :: acc)

def dbspMergeSorted : List TaggedRow → List (ℤ × Sexp)
  | [] => []
  | cur :: rest => dbspMergeLoop cur rest []

/-- The comparison by which rows are sorted. -/
def canonLess (a b : TaggedRow) : Bool := stringLess a.1 b.1

def dbspNormalizePairs (fuel : ℕ) (pairs : List (ℤ × Sexp)) : Exec String (List (ℤ × Sexp)) := do
  let tagged := pairs.map fun wr => (dbspCanon wr.2, wr)
  let sorted ← sort ([], 0, .bool false) (.list tagged) canonLess fuel
  .ok (dbspMergeSorted sorted)

def zsetEmpty : Zset := ⟨[]⟩

/-- An exact number that has to be an integer. -/
def requireInteger (message : String) (q : ℚ) : Exec String ℤ :=
  if q.isInt then .ok q.num else raise message

def zsetSingleton (row : Sexp) (weight : ℚ) : Exec String Zset := do
  let weight ← requireInteger "zset-singleton: weight must be an exact integer" weight
  .ok (if weight = 0 then zsetEmpty else ⟨[(weight, row)]⟩)

/-- The pairs that `zset-from-weighted` makes of its argument. -/
def weightedPairs (entries : List (ℚ × Sexp)) : Exec String (List (ℤ × Sexp)) :=
  entries.mapM fun e => do
    let w ← requireInteger "zset-from-weighted: weight must be an exact integer" e.1
    .ok (w, e.2)

def zsetFromWeighted (fuel : ℕ) (entries : List (ℚ × Sexp)) : Exec String Zset := do
  let pairs ← weightedPairs entries
  let entries ← dbspNormalizePairs fuel pairs
  .ok ⟨entries⟩

/-- The loop of `zset-weight`. -/
def weightLoop (row : Sexp) : List (ℤ × Sexp) → ℤ
  | [] => 0
  | e :: es => if rowEqual e.2 row then e.1 else weightLoop row es

def zsetWeight (zs : Zset) (row : Sexp) : ℤ := weightLoop row zs.entries

def zsetAdd (fuel : ℕ) (a b : Zset) : Exec String Zset := do
  let entries ← dbspNormalizePairs fuel (a.entries ++ b.entries)
  .ok ⟨entries⟩

def zsetNegate (a : Zset) : Zset := ⟨a.entries.map fun e => (-e.1, e.2)⟩

def zsetScale (k : ℚ) (zs : Zset) : Exec String Zset := do
  let k ← requireInteger "zset-scale: k must be an exact integer" k
  .ok (if k = 0 then zsetEmpty else ⟨zs.entries.map fun e => (k * e.1, e.2)⟩)

/-- The list of entries, as a datum. -/
def entriesDatum : List (ℤ × Sexp) → Sexp
  | [] => .null
  | e :: es => .pair (.pair (.num e.1) (.pair e.2 .null)) (entriesDatum es)

/-- `zset=?`. -/
def zsetEqual (a b : Zset) : Bool := rowEqual (entriesDatum a.entries) (entriesDatum b.entries)

/-! ### Normalizing -/

/-- The bytes by which rows are sorted and grouped. -/
def rowKey (row : Sexp) : List ℕ := stringBytes (dbspCanon row)

theorem rowKey_eq_iff {r s : Sexp} : rowKey r = rowKey s ↔ agreesToNul r s = true := by
  rw [← stringEqual_dbspCanon_iff, stringEqual, decide_eq_true_iff, rowKey, rowKey]

instance : IsStrictWeakOrder TaggedRow (canonLess · ·) where
  irrefl a := by simp [canonLess, stringLess]
  trans a b c := by
    simp only [canonLess, stringLess, decide_eq_true_iff]
    exact lt_trans
  incomp_trans a b c := by
    simp only [canonLess, stringLess, decide_eq_true_iff, not_lt]
    exact fun hab hbc => ⟨hbc.1.trans hab.1, hab.2.trans hbc.2⟩

theorem dbspMergeLoop_eq {cur : TaggedRow} {rest : List TaggedRow} (acc : List (ℤ × Sexp))
    (hcanon : ∀ t ∈ cur :: rest, t.1 = dbspCanon t.2.2) :
    dbspMergeLoop cur rest acc = acc.reverse ++ collapse rowKey cur.2 (rest.map Prod.snd) := by
  have hemit : ∀ (e : ℤ × Sexp) (acc : List (ℤ × Sexp)),
      (if e.1 = 0 then acc else e :: acc).reverse = acc.reverse ++ emit e := by
    intro e acc
    unfold emit
    split <;> simp
  induction rest generalizing cur acc with
  | nil => exact hemit cur.2 acc
  | cons nxt rest ih =>
    obtain ⟨canon, w, row⟩ := cur
    obtain ⟨canon', w', row'⟩ := nxt
    obtain rfl : canon = dbspCanon row := hcanon _ (.head _)
    obtain rfl : canon' = dbspCanon row' := hcanon _ (.tail _ (.head _))
    have hrest : ∀ t ∈ rest, t.1 = dbspCanon t.2.2 := fun t ht => hcanon t (.tail _ (.tail _ ht))
    have hkey : stringEqual (dbspCanon row) (dbspCanon row') = true ↔ rowKey row = rowKey row' :=
      decide_eq_true_iff
    rw [dbspMergeLoop, List.map_cons, collapse]
    by_cases h : rowKey row = rowKey row'
    · rw [if_pos (hkey.mpr h), if_pos h, ih]
      simpa using hrest
    · rw [if_neg (mt hkey.mp h), if_neg h, ih _ (by simpa using hrest), hemit (w, row) acc,
        List.append_assoc]

theorem dbspNormalizePairs_eq {pairs : List (ℤ × Sexp)} {sorted : List TaggedRow} {fuel : ℕ}
    (hsorted : StableSort canonLess (pairs.map fun wr => (dbspCanon wr.2, wr)) sorted)
    (hfuel : 2 * pairs.length + 2 ≤ fuel) :
    dbspNormalizePairs fuel pairs = .ok (dbspMergeSorted sorted) := by
  rw [← @List.length_map _ _ pairs fun wr => (dbspCanon wr.2, wr)] at hfuel
  obtain ⟨r, hr, hstable⟩ := sort_spec ([], 0, .bool false) canonLess _ hfuel
  rw [dbspNormalizePairs, hr, hstable.unique hsorted]
  rfl

theorem dbspNormalizePairs_spec (pairs : List (ℤ × Sexp)) :
    ∃ es, Machine.Yields (fun fuel => dbspNormalizePairs fuel pairs) es ∧
      Consolidated rowKey es ∧ (∀ k, total rowKey es k = total rowKey pairs k) ∧
      ∀ e ∈ es, ∃ f ∈ pairs, e.2 = f.2 := by
  obtain ⟨sorted, -, hsorted⟩ := sort_spec ([], 0, .bool false) canonLess
    (pairs.map fun wr => (dbspCanon wr.2, wr)) le_rfl
  refine ⟨_, ⟨_, fun fuel hfuel => dbspNormalizePairs_eq hsorted hfuel⟩, ?_⟩
  -- the rows of the sorted list are those of the pairs
  have hrows : (sorted.map Prod.snd).Perm pairs := by
    simpa [List.map_map, Function.comp_def] using hsorted.perm.map Prod.snd
  have hcanon : ∀ t ∈ sorted, t.1 = dbspCanon t.2.2 := by
    intro t ht
    obtain ⟨wr, -, rfl⟩ := List.mem_map.mp (hsorted.perm.mem_iff.mp ht)
    rfl
  have hascending : (sorted.map Prod.snd).Pairwise fun a b => rowKey a.2 ≤ rowKey b.2 := by
    rw [List.pairwise_map]
    refine hsorted.ordered.imp_of_mem fun {a b} ha hb hless => ?_
    rw [canonLess, stringLess, decide_eq_false_iff_not, not_lt, hcanon a ha, hcanon b hb] at hless
    exact hless
  cases sorted with
  | nil =>
    rw [List.map_nil] at hrows
    rw [← hrows.nil_eq]
    exact ⟨.nil, fun k => rfl, fun e he => absurd he List.not_mem_nil⟩
  | cons cur rest =>
    have heq : dbspMergeSorted (cur :: rest) = collapse rowKey cur.2 (rest.map Prod.snd) :=
      dbspMergeLoop_eq [] hcanon
    rw [heq]
    refine ⟨collapse_consolidated hascending, fun k => ?_, fun e he => ?_⟩
    · rw [total_collapse]
      exact total_perm hrows
    · obtain ⟨f, hf, hef⟩ := mem_collapse he
      exact ⟨f, hrows.mem_iff.mp hf, hef⟩

/-! ### The operations -/

theorem weightedPairs_eq (entries : List (ℚ × Sexp)) :
    weightedPairs entries =
      if ∀ e ∈ entries, e.1.isInt = true then .ok (entries.map fun e => (e.1.num, e.2))
      else raise "zset-from-weighted: weight must be an exact integer" := by
  induction entries with
  | nil => rfl
  | cons e entries ih =>
    rw [weightedPairs] at ih ⊢
    rw [List.mapM_cons, ih, requireInteger]
    by_cases he : e.1.isInt = true
    · by_cases hrest : ∀ e ∈ entries, e.1.isInt = true
      · rw [if_pos he, if_pos hrest, if_pos (by simpa [he] using hrest)]
        rfl
      · rw [if_pos he, if_neg hrest, if_neg (by simpa [he] using hrest)]
        rfl
    · have hnot : ¬∀ f ∈ e :: entries, f.1.isInt = true := fun h => he (h e (.head _))
      rw [if_neg he, if_neg hnot]
      rfl

theorem yields_zsetFromWeighted {entries : List (ℚ × Sexp)}
    (hint : ∀ e ∈ entries, e.1.isInt = true) :
    ∃ zs, Machine.Yields (fun fuel => zsetFromWeighted fuel entries) zs ∧
      Consolidated rowKey zs.entries ∧ ∀ e ∈ zs.entries, ∃ f ∈ entries, e.2 = f.2 := by
  obtain ⟨es, ⟨enough, hes⟩, hcons, -, hrows⟩ :=
    dbspNormalizePairs_spec (entries.map fun e => (e.1.num, e.2))
  refine ⟨⟨es⟩, ⟨enough, fun fuel hfuel => ?_⟩, hcons, fun e he => ?_⟩
  · simp only [zsetFromWeighted, weightedPairs_eq, if_pos hint, ok_bind, hes fuel hfuel]
  · obtain ⟨f, hf, hef⟩ := hrows e he
    obtain ⟨g, hg, rfl⟩ := List.mem_map.mp hf
    exact ⟨g, hg, hef⟩

theorem isInt_of_yields {entries : List (ℚ × Sexp)} {zs : Zset}
    (h : Machine.Yields (fun fuel => zsetFromWeighted fuel entries) zs) :
    ∀ e ∈ entries, e.1.isInt = true := by
  obtain ⟨enough, h⟩ := h
  by_contra hint
  have hzs : zsetFromWeighted enough entries = .ok zs := h enough le_rfl
  rw [zsetFromWeighted, weightedPairs_eq, if_neg hint] at hzs
  cases hzs

theorem yields_zsetAdd (a b : Zset) :
    ∃ c, Machine.Yields (fun fuel => zsetAdd fuel a b) c ∧ Consolidated rowKey c.entries ∧
      (∀ k, total rowKey c.entries k = total rowKey a.entries k + total rowKey b.entries k) ∧
      ∀ e ∈ c.entries, ∃ f ∈ a.entries ++ b.entries, e.2 = f.2 := by
  obtain ⟨es, ⟨enough, hes⟩, hcons, htotal, hrows⟩ :=
    dbspNormalizePairs_spec (a.entries ++ b.entries)
  refine ⟨⟨es⟩, ⟨enough, fun fuel hfuel => ?_⟩, hcons, fun k => ?_, hrows⟩
  · simp only [zsetAdd, hes fuel hfuel, ok_bind]
  · rw [htotal, total_append]

/-! ### Z-sets over a set of rows -/

/-- The Z-sets that the operations build of some rows. -/
inductive Built (R : Set Sexp) : Zset → Prop
  | empty : Built R zsetEmpty
  | singleton {row : Sexp} {weight : ℚ} {zs : Zset} (hrow : row ∈ R)
      (h : zsetSingleton row weight = .ok zs) : Built R zs
  | fromWeighted {entries : List (ℚ × Sexp)} {zs : Zset} (hrows : ∀ e ∈ entries, e.2 ∈ R)
      (h : Machine.Yields (fun fuel => zsetFromWeighted fuel entries) zs) : Built R zs
  | add {a b zs : Zset} (ha : Built R a) (hb : Built R b)
      (h : Machine.Yields (fun fuel => zsetAdd fuel a b) zs) : Built R zs
  | negate {a : Zset} (ha : Built R a) : Built R (zsetNegate a)
  | scale {k : ℚ} {a zs : Zset} (ha : Built R a) (h : zsetScale k a = .ok zs) : Built R zs

/-- A consolidated Z-set of some rows. -/
structure Normal (R : Set Sexp) (zs : Zset) : Prop where
  consolidated : Consolidated rowKey zs.entries
  rows : ∀ e ∈ zs.entries, e.2 ∈ R

variable {R : Set Sexp} {a b c zs : Zset}

theorem zsetEmpty_normal : Normal R zsetEmpty := ⟨.nil, fun _ h => absurd h List.not_mem_nil⟩

theorem Normal.map_mul (h : Normal R zs) {k : ℤ} (hk : k ≠ 0) :
    Normal R ⟨zs.entries.map fun e => (k * e.1, e.2)⟩ := by
  refine ⟨h.consolidated.map_mul hk, fun e he => ?_⟩
  obtain ⟨f, hf, rfl⟩ := List.mem_map.mp he
  exact h.rows f hf

theorem zsetNegate_eq (zs : Zset) : zsetNegate zs = ⟨zs.entries.map fun e => (-1 * e.1, e.2)⟩ := by
  simp only [zsetNegate, neg_one_mul]

theorem Normal.add (ha : Normal R a) (hb : Normal R b)
    (h : Machine.Yields (fun fuel => zsetAdd fuel a b) c) :
    Normal R c ∧
      ∀ k, total rowKey c.entries k = total rowKey a.entries k + total rowKey b.entries k := by
  obtain ⟨c', hc', hcons, htotal, hrows⟩ := yields_zsetAdd a b
  obtain rfl := h.unique hc'
  refine ⟨⟨hcons, fun e he => ?_⟩, htotal⟩
  obtain ⟨f, hf, hef⟩ := hrows e he
  rw [hef]
  rcases List.mem_append.mp hf with hf | hf
  · exact ha.rows f hf
  · exact hb.rows f hf

theorem Built.normal (h : Built R zs) : Normal R zs := by
  induction h with
  | empty => exact zsetEmpty_normal
  | @singleton row weight zs hrow h =>
    unfold zsetSingleton requireInteger at h
    split at h
    next =>
      obtain rfl := Except.ok.inj h
      split
      next => exact zsetEmpty_normal
      next hweight =>
        exact ⟨.singleton hweight, fun e he => by rw [List.mem_singleton.mp he]; exact hrow⟩
    next => cases h
  | @fromWeighted entries zs hrows h =>
    obtain ⟨zs', hzs', hcons, hsub⟩ := yields_zsetFromWeighted (isInt_of_yields h)
    obtain rfl := h.unique hzs'
    refine ⟨hcons, fun e he => ?_⟩
    obtain ⟨f, hf, hef⟩ := hsub e he
    rw [hef]
    exact hrows f hf
  | add _ _ h iha ihb => exact (iha.add ihb h).1
  | @negate a _ ih =>
    rw [zsetNegate_eq]
    exact ih.map_mul (by decide)
  | @scale k a zs _ h ih =>
    unfold zsetScale requireInteger at h
    split at h
    next =>
      obtain rfl := Except.ok.inj h
      split
      next => exact zsetEmpty_normal
      next hk => exact ih.map_mul hk
    next => cases h

/-! ### Weights -/

section Weights

variable {es fs : List (ℤ × Sexp)} {r s row : Sexp}

theorem rowEqual_refl (row : Sexp) : rowEqual row row = true := rowEqual_iff.mpr rfl

theorem rowEqual_congr_right (h : rowEqual r s = true) (t : Sexp) :
    rowEqual t r = rowEqual t s := by
  rw [Bool.eq_iff_iff, rowEqual_iff, rowEqual_iff, rowEqual_iff.mp h]

theorem weightLoop_congr (h : rowEqual r s = true) : weightLoop r es = weightLoop s es := by
  induction es with
  | nil => rfl
  | cons e es ih => rw [weightLoop, weightLoop, rowEqual_congr_right h, ih]

theorem weightLoop_cases (row : Sexp) (es : List (ℤ × Sexp)) :
    weightLoop row es = 0 ∨ ∃ e ∈ es, rowEqual e.2 row = true ∧ weightLoop row es = e.1 := by
  induction es with
  | nil => exact .inl rfl
  | cons e es ih =>
    rw [weightLoop]
    split
    next h => exact .inr ⟨e, .head _, h, rfl⟩
    next =>
      refine ih.imp_right ?_
      rintro ⟨f, hf, hrow, hweight⟩
      exact ⟨f, .tail _ hf, hrow, hweight⟩

theorem weightLoop_map_mul (c : ℤ) :
    weightLoop row (es.map fun e => (c * e.1, e.2)) = c * weightLoop row es := by
  induction es with
  | nil => exact (mul_zero c).symm
  | cons e es ih =>
    rw [List.map_cons, weightLoop, weightLoop, ih]
    split <;> rfl

theorem zsetWeight_negate (zs : Zset) (row : Sexp) :
    zsetWeight (zsetNegate zs) row = -zsetWeight zs row := by
  rw [zsetNegate_eq, zsetWeight, weightLoop_map_mul, neg_one_mul, zsetWeight]

theorem rowEqual_entriesDatum_iff :
    rowEqual (entriesDatum es) (entriesDatum fs) = true ↔
      List.Forall₂ (fun e f => e.1 = f.1 ∧ rowEqual e.2 f.2 = true) es fs := by
  induction es generalizing fs with
  | nil => cases fs <;> simp [entriesDatum, rowEqual]
  | cons e es ih =>
    cases fs with
    | nil => simp [entriesDatum, rowEqual]
    | cons f fs =>
      rw [List.forall₂_cons, ← ih]
      simp [entriesDatum, rowEqual]

theorem weightLoop_eq_of_forall₂
    (h : List.Forall₂ (fun e f => e.1 = f.1 ∧ rowEqual e.2 f.2 = true) es fs) :
    weightLoop row es = weightLoop row fs := by
  induction h with
  | nil => rfl
  | @cons e f es fs hef _ ih =>
    have hrow : rowEqual e.2 row = rowEqual f.2 row := by
      rw [Bool.eq_iff_iff, rowEqual_iff, rowEqual_iff, rowEqual_iff.mp hef.2]
    rw [weightLoop, weightLoop, hef.1, hrow, ih]

end Weights

/-! ### Rows that are grouped as `equal?` groups them -/

/-- Any two of the rows are `equal?` exactly when they agree up to the first zero character. -/
def Separated (R : Set Sexp) : Prop :=
  ∀ r ∈ R, ∀ s ∈ R, rowEqual r s = true ↔ agreesToNul r s = true

theorem separated_of_nulFree (h : ∀ row ∈ R, '\x00' ∉ rowChars row) : Separated R :=
  fun r hr s hs => rowEqual_iff_agreesToNul_of_nulFree (h r hr) (h s hs)

section Separated

variable (hsep : Separated R)
include hsep

theorem Separated.rowEqual_iff_rowKey {r s : Sexp} (hr : r ∈ R) (hs : s ∈ R) :
    rowEqual r s = true ↔ rowKey r = rowKey s :=
  (hsep r hr s hs).trans rowKey_eq_iff.symm

theorem Separated.weightLoop_eq_total {es : List (ℤ × Sexp)} {row : Sexp}
    (hcons : Consolidated rowKey es) (hrows : ∀ e ∈ es, e.2 ∈ R) (hrow : row ∈ R) :
    weightLoop row es = total rowKey es (rowKey row) := by
  induction es with
  | nil => rfl
  | cons e es ih =>
    have he : e.2 ∈ R := hrows e (.head _)
    rw [weightLoop]
    split
    next h => rw [← (hsep.rowEqual_iff_rowKey he hrow).mp h, hcons.total_head]
    next h =>
      rw [ih hcons.tail fun f hf => hrows f (.tail _ hf), total_cons,
        if_neg (mt (hsep.rowEqual_iff_rowKey he hrow).mpr h), zero_add]

theorem Separated.forall₂_rowEqual {es fs : List (ℤ × Sexp)} (hes : ∀ e ∈ es, e.2 ∈ R)
    (hfs : ∀ f ∈ fs, f.2 ∈ R)
    (h : List.Forall₂ (fun e f => e.1 = f.1 ∧ rowKey e.2 = rowKey f.2) es fs) :
    List.Forall₂ (fun e f => e.1 = f.1 ∧ rowEqual e.2 f.2 = true) es fs := by
  induction h with
  | nil => exact .nil
  | @cons e f es fs hef _ ih =>
    rw [List.forall_mem_cons] at hes hfs
    exact .cons ⟨hef.1, (hsep.rowEqual_iff_rowKey hes.1 hfs.1).mpr hef.2⟩ (ih hes.2 hfs.2)

theorem Normal.weight_eq (h : Normal R zs) {row : Sexp} (hrow : row ∈ R) :
    zsetWeight zs row = total rowKey zs.entries (rowKey row) :=
  hsep.weightLoop_eq_total h.consolidated h.rows hrow

omit hsep in
theorem Normal.weight_eq_zero (h : Normal R zs) {row : Sexp}
    (hrow : ¬∃ r ∈ R, rowEqual r row = true) : zsetWeight zs row = 0 := by
  refine (weightLoop_cases row zs.entries).resolve_right ?_
  rintro ⟨e, he, heq, -⟩
  exact hrow ⟨e.2, h.rows e he, heq⟩

theorem Normal.weight_add (ha : Normal R a) (hb : Normal R b)
    (h : Machine.Yields (fun fuel => zsetAdd fuel a b) c) (row : Sexp) :
    zsetWeight c row = zsetWeight a row + zsetWeight b row := by
  obtain ⟨hc, htotal⟩ := ha.add hb h
  by_cases hrow : ∃ r ∈ R, rowEqual r row = true
  · obtain ⟨r, hr, heq⟩ := hrow
    have hcongr : ∀ zs : Zset, zsetWeight zs row = zsetWeight zs r := fun zs =>
      (weightLoop_congr heq).symm
    rw [hcongr, hcongr, hcongr, hc.weight_eq hsep hr, ha.weight_eq hsep hr, hb.weight_eq hsep hr,
      htotal]
  · rw [hc.weight_eq_zero hrow, ha.weight_eq_zero hrow, hb.weight_eq_zero hrow, add_zero]

theorem Normal.zsetEqual_iff (ha : Normal R a) (hb : Normal R b) :
    zsetEqual a b = true ↔ ∀ row, zsetWeight a row = zsetWeight b row := by
  rw [zsetEqual, rowEqual_entriesDatum_iff]
  constructor
  · exact fun h row => weightLoop_eq_of_forall₂ h
  · intro h
    have htotal : ∀ k, total rowKey a.entries k = total rowKey b.entries k := by
      intro k
      by_cases hk : ∃ r ∈ R, rowKey r = k
      · obtain ⟨r, hr, rfl⟩ := hk
        rw [← ha.weight_eq hsep hr, ← hb.weight_eq hsep hr, h]
      · rw [total_eq_zero fun e he heq => hk ⟨e.2, ha.rows e he, heq⟩,
          total_eq_zero fun e he heq => hk ⟨e.2, hb.rows e he, heq⟩]
    exact hsep.forall₂_rowEqual ha.rows hb.rows
      (ha.consolidated.ext hb.consolidated htotal)

end Separated

/-! ### The group of Z-sets -/

/-- Z-sets over a set of rows are a commutative group, in which `zset=?` is equality of the
weights. -/
structure GroupLaws (R : Set Sexp) : Prop where
  weight_add : ∀ {a b c : Zset}, Built R a → Built R b →
    Machine.Yields (fun fuel => zsetAdd fuel a b) c →
      ∀ row, zsetWeight c row = zsetWeight a row + zsetWeight b row
  add_assoc : ∀ {a b c ab bc left right : Zset}, Built R a → Built R b → Built R c →
    Machine.Yields (fun fuel => zsetAdd fuel a b) ab →
    Machine.Yields (fun fuel => zsetAdd fuel ab c) left →
    Machine.Yields (fun fuel => zsetAdd fuel b c) bc →
    Machine.Yields (fun fuel => zsetAdd fuel a bc) right → zsetEqual left right = true
  add_comm : ∀ {a b left right : Zset}, Built R a → Built R b →
    Machine.Yields (fun fuel => zsetAdd fuel a b) left →
    Machine.Yields (fun fuel => zsetAdd fuel b a) right → zsetEqual left right = true
  add_empty : ∀ {a b : Zset}, Built R a →
    Machine.Yields (fun fuel => zsetAdd fuel a zsetEmpty) b → zsetEqual b a = true
  add_negate : ∀ {a b : Zset}, Built R a →
    Machine.Yields (fun fuel => zsetAdd fuel a (zsetNegate a)) b → zsetEqual b zsetEmpty = true
  equal_iff : ∀ {a b : Zset}, Built R a → Built R b →
    (zsetEqual a b = true ↔ ∀ row, zsetWeight a row = zsetWeight b row)

theorem Separated.groupLaws (hsep : Separated R) : GroupLaws R := by
  have hweight : ∀ {a b c : Zset}, Built R a → Built R b →
      Machine.Yields (fun fuel => zsetAdd fuel a b) c →
        ∀ row, zsetWeight c row = zsetWeight a row + zsetWeight b row :=
    fun ha hb h row => ha.normal.weight_add hsep hb.normal h row
  have hequal : ∀ {a b : Zset}, Built R a → Built R b →
      (zsetEqual a b = true ↔ ∀ row, zsetWeight a row = zsetWeight b row) :=
    fun ha hb => ha.normal.zsetEqual_iff hsep hb.normal
  refine ⟨hweight, ?_, ?_, ?_, ?_, hequal⟩
  · intro a b c ab bc left right ha hb hc hab hleft hbc hright
    refine (hequal (.add (.add ha hb hab) hc hleft) (.add ha (.add hb hc hbc) hright)).mpr
      fun row => ?_
    rw [hweight (.add ha hb hab) hc hleft, hweight ha hb hab,
      hweight ha (.add hb hc hbc) hright, hweight hb hc hbc, add_assoc]
  · intro a b left right ha hb hleft hright
    refine (hequal (.add ha hb hleft) (.add hb ha hright)).mpr fun row => ?_
    rw [hweight ha hb hleft, hweight hb ha hright, add_comm]
  · intro a b ha h
    refine (hequal (.add ha .empty h) ha).mpr fun row => ?_
    rw [hweight ha .empty h]
    exact add_zero _
  · intro a b ha h
    refine (hequal (.add ha ha.negate h) .empty).mpr fun row => ?_
    rw [hweight ha ha.negate h, zsetWeight_negate, add_neg_cancel]
    rfl

/-- If weights add up, rows are told apart. -/
theorem separated_of_weight_add (h : ∀ {a b c : Zset}, Built R a → Built R b →
    Machine.Yields (fun fuel => zsetAdd fuel a b) c →
      ∀ row, zsetWeight c row = zsetWeight a row + zsetWeight b row) : Separated R := by
  intro r hr s hs
  obtain ⟨c, hc, hcons, htotal, hrows⟩ := yields_zsetAdd ⟨[(1, r)]⟩ ⟨[(1, s)]⟩
  have hone : ∀ {row}, row ∈ R → Built R ⟨[(1, row)]⟩ := fun hrow =>
    @Built.singleton R _ 1 _ hrow rfl
  have hweight : weightLoop s c.entries = (if rowEqual r s then 1 else 0) + 1 := by
    have := h (hone hr) (hone hs) hc s
    simpa [zsetWeight, weightLoop, rowEqual_refl] using this
  -- an entry has the weights of the rows with its key
  have hentry : ∀ e ∈ c.entries, e.1 =
      (if rowKey r = rowKey e.2 then 1 else 0) + if rowKey s = rowKey e.2 then 1 else 0 := by
    intro e he
    rw [← hcons.total_of_mem he, htotal]
    simp [total_cons]
  have hkey : ∀ e ∈ c.entries, rowKey e.2 = rowKey r ∨ rowKey e.2 = rowKey s := by
    intro e he
    obtain ⟨f, hf, hef⟩ := hrows e he
    rw [hef]
    simp only [List.cons_append, List.nil_append, List.mem_cons, List.not_mem_nil, or_false] at hf
    exact hf.imp (fun hf => by rw [hf]) fun hf => by rw [hf]
  rw [← rowKey_eq_iff]
  constructor
  · intro heq
    by_contra hne
    rw [if_pos heq] at hweight
    rcases weightLoop_cases s c.entries with hzero | ⟨e, he, -, hloop⟩
    · omega
    · rw [hloop, hentry e he] at hweight
      rcases hkey e he with hr | hs
      · simp [hr, Ne.symm hne] at hweight
      · simp [hs, hne] at hweight
  · intro heq
    by_contra hne
    rw [if_neg hne] at hweight
    rcases weightLoop_cases s c.entries with hzero | ⟨e, he, -, hloop⟩
    · omega
    · have hes : rowKey e.2 = rowKey s := (hkey e he).elim (fun h => h.trans heq) id
      rw [hloop, hentry e he] at hweight
      simp [hes, heq] at hweight

/-- **Z-sets are a commutative group in canonical form**, for the rows that are grouped as
`equal?` groups them. -/
theorem zset_groupLaws (R : Set Sexp) :
    Function.Injective dbspCanon ∧
      (∀ zs, Built R zs →
        zs.entries.Pairwise (fun e f => stringLess (dbspCanon e.2) (dbspCanon f.2) = true) ∧
          ∀ e ∈ zs.entries, e.1 ≠ 0) ∧
      (∀ a b, ∃ c, Machine.Yields (fun fuel => zsetAdd fuel a b) c) ∧
      (∀ entries : List (ℚ × Sexp), (∀ e ∈ entries, e.1.isInt = true) →
        ∃ zs, Machine.Yields (fun fuel => zsetFromWeighted fuel entries) zs) ∧
      (GroupLaws R ↔ Separated R) ∧ ((∀ row ∈ R, '\x00' ∉ rowChars row) → Separated R) := by
  refine ⟨dbspCanon_injective, fun zs h => ?_, fun a b => ?_, fun entries hint => ?_, ?_,
    separated_of_nulFree⟩
  · refine ⟨h.normal.consolidated.ascending.imp fun hlt => ?_, h.normal.consolidated.nonzero⟩
    exact decide_eq_true hlt
  · obtain ⟨c, hc, -⟩ := yields_zsetAdd a b
    exact ⟨c, hc⟩
  · obtain ⟨zs, hzs, -⟩ := yields_zsetFromWeighted hint
    exact ⟨zs, hzs⟩
  · exact ⟨fun h => separated_of_weight_add h.weight_add, fun h => h.groupLaws⟩

/-- Two pairs with the same string before a zero character, which are not `equal?`. -/
theorem zsetAdd_weight_nul :
    ∃ (r s : Sexp) (a b c : Zset), r = .pair (.str ['a', '\x00']) (.num 1) ∧
      s = .pair (.str ['a', '\x00']) (.num 2) ∧
      Machine.Yields (fun fuel => zsetFromWeighted fuel [(1, r)]) a ∧
      Machine.Yields (fun fuel => zsetFromWeighted fuel [(1, s)]) b ∧
      Machine.Yields (fun fuel => zsetAdd fuel a b) c ∧
      zsetWeight a s = 0 ∧ zsetWeight b s = 1 ∧ zsetWeight c s = 0 := by
  refine ⟨_, _, ⟨[(1, .pair (.str ['a', '\x00']) (.num 1))]⟩,
    ⟨[(1, .pair (.str ['a', '\x00']) (.num 2))]⟩, ⟨[(2, .pair (.str ['a', '\x00']) (.num 1))]⟩,
    rfl, rfl, ⟨0, fun _ _ => rfl⟩, ⟨0, fun _ _ => rfl⟩, ⟨6, fun fuel hfuel => ?_⟩, ?_, ?_, ?_⟩
  · -- the texts of the rows are tied, so that the sort keeps their order
    have hsorted : ∀ x y : TaggedRow, canonLess y x = false → StableSort canonLess [x, y] [x, y] :=
      fun x y hxy => ⟨.refl _, by simpa using hxy, fun _ => rfl⟩
    have hnormal := @dbspNormalizePairs_eq [(1, .pair (.str ['a', '\x00']) (.num 1)),
      (1, .pair (.str ['a', '\x00']) (.num 2))] _ fuel (hsorted _ _ rfl) hfuel
    simp only [zsetAdd, List.cons_append, List.nil_append]
    rw [hnormal]
    rfl
  · rfl
  · rfl
  · rfl

end Eshkol.Core.Dbsp
