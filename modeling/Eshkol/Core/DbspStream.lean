import Eshkol.Core.ZsetOps

/-!
# Streams of Z-Sets

The stream operators of `lib/core/dbsp.esk`: a stream is the list of its Z-sets, one for each
tick. `stream-I` adds up changes, `stream-D` takes differences, and `dbsp-incrementalize` makes
of a query on Z-sets one on streams of changes. A query is any procedure that returns a Z-set
for a Z-set.
-/

open Machine Weighted Dataflow

namespace Eshkol.Core.Dbsp

open Memory

/-! ### The source -/

/-- `dbsp-drop-last` of the list with the given first element. -/
def dbspDropLast (z : Zset) : List Zset → List Zset
  | [] => []
  | z' :: rest => z :: dbspDropLast z' rest

def streamDelay : List Zset → List Zset
  | [] => []
  | z :: rest => zsetEmpty :: dbspDropLast z rest

def streamD (fuel : ℕ) (s : List Zset) : Exec String (List Zset) :=
  mapTwo (zsetSub fuel) s (streamDelay s)

/-- The loop of `stream-I`. -/
def streamILoop (fuel : ℕ) : List Zset → Zset → List Zset → Exec String (List Zset)
  | [], _, out => .ok out.reverse
  | x :: xs, acc, out => do
      let new ← zsetAdd fuel acc x
      streamILoop fuel xs new (new :: out)

def streamI (fuel : ℕ) (s : List Zset) : Exec String (List Zset) := streamILoop fuel s zsetEmpty []

/-- A procedure from Z-sets to Z-sets. -/
abbrev Query : Type := ℕ → Zset → Exec String Zset

def streamLift (q : Query) (fuel : ℕ) (s : List Zset) : Exec String (List Zset) := s.mapM (q fuel)

def dbspCompose {α β γ : Type} (f : ℕ → β → Exec String γ) (g : ℕ → α → Exec String β)
    (fuel : ℕ) (x : α) : Exec String γ := do
  let y ← g fuel x
  f fuel y

def dbspIncrementalize (q : Query) (fuel : ℕ) (deltaStream : List Zset) :
    Exec String (List Zset) := do
  let snapshots ← streamI fuel deltaStream
  let results ← streamLift q fuel snapshots
  streamD fuel results

/-- `stream=?` of the tests: the Z-sets are `zset=?` tick by tick. -/
def streamEqual : List Zset → List Zset → Bool
  | [], [] => true
  | [], _ :: _ => false
  | _ :: _, [] => false
  | a :: sa, b :: sb => zsetEqual a b && streamEqual sa sb

/-! ### Streams of weights -/

variable {R : Set Sexp}

/-- The Z-sets of a stream have the given weights. -/
abbrev MeansAll (R : Set Sexp) : List Zset → List (Sexp →₀ ℤ) → Prop := List.Forall₂ (Means R)

/-- A procedure that returns a stream with the given weights. -/
def ReturnsAll (R : Set Sexp) (f : ℕ → Exec String (List Zset)) (gs : List (Sexp →₀ ℤ)) : Prop :=
  ∃ s, Machine.Yields f s ∧ MeansAll R s gs

/-- The weights of a stream. -/
noncomputable def weightsAll (s : List Zset) : List (Sexp →₀ ℤ) :=
  s.map fun zs => weights zs.entries

theorem meansAll_of_normal {s : List Zset} (h : ∀ zs ∈ s, Normal R zs) :
    MeansAll R s (weightsAll s) := by
  induction s with
  | nil => exact .nil
  | cons zs s ih =>
    rw [List.forall_mem_cons] at h
    exact .cons h.1.means (ih h.2)

theorem MeansAll.normal {s : List Zset} {gs : List (Sexp →₀ ℤ)} (h : MeansAll R s gs) :
    ∀ zs ∈ s, Normal R zs := by
  induction h with
  | nil => exact fun _ h => absurd h List.not_mem_nil
  | cons hz _ ih => exact List.forall_mem_cons.mpr ⟨hz.normal, ih⟩

theorem streamEqual_refl (s : List Zset) : streamEqual s s = true := by
  induction s with
  | nil => rfl
  | cons zs s ih => rw [streamEqual, ih, zsetEqual, rowEqual_refl, Bool.and_self]

section

variable (hR : Faithful R)
include hR

variable {gs : List (Sexp →₀ ℤ)}

theorem MeansAll.unique {s t : List Zset} (hs : MeansAll R s gs) (ht : MeansAll R t gs) :
    s = t := by
  induction hs generalizing t with
  | nil =>
    cases ht
    rfl
  | cons hz _ ih =>
    cases ht with
    | cons hz' ht => rw [hz.unique hR hz', ih ht]

theorem Faithful.streamILoop {s : List Zset} (h : MeansAll R s gs) {acc : Zset} {g : Sexp →₀ ℤ}
    (hacc : Means R acc g) (out : List Zset) :
    ∃ t, Machine.Yields (fun fuel => Dbsp.streamILoop fuel s acc out) (out.reverse ++ t) ∧
      MeansAll R t (integ g gs) := by
  induction h generalizing acc g out with
  | nil => exact ⟨[], by rw [List.append_nil]; exact yields_ok _, .nil⟩
  | cons hx _ ih =>
    obtain ⟨new, hnew, hmeans⟩ := hR.add hacc hx
    obtain ⟨t, ht, hall⟩ := ih hmeans (new :: out)
    rw [List.reverse_cons, List.append_assoc] at ht
    exact ⟨new :: t, hnew.bind ht, .cons hmeans hall⟩

theorem Faithful.streamI {s : List Zset} (h : MeansAll R s gs) :
    ReturnsAll R (fun fuel => Dbsp.streamI fuel s) (integ 0 gs) :=
  hR.streamILoop h zsetEmpty_means []

theorem Faithful.mapTwo_sub {s : List Zset} {z prev : Zset} {g p : Sexp →₀ ℤ} (hz : Means R z g)
    (h : MeansAll R s gs) (hprev : Means R prev p) :
    ∃ t, YieldsTwo zsetSub (z :: s) (prev :: dbspDropLast z s) t ∧
      MeansAll R t (diff p (g :: gs)) := by
  obtain ⟨d, hd, hmeans⟩ := hR.sub hz hprev
  induction h generalizing z prev g p d with
  | nil => exact ⟨[d], .cons hd (.left_nil []), .cons hmeans .nil⟩
  | cons hx _ ih =>
    obtain ⟨d', hd', hmeans'⟩ := hR.sub hx hz
    obtain ⟨t, ht, hall⟩ := ih hx hz d' hd' hmeans'
    exact ⟨d :: t, .cons hd ht, .cons hmeans hall⟩

theorem Faithful.streamD {s : List Zset} (h : MeansAll R s gs) :
    ReturnsAll R (fun fuel => Dbsp.streamD fuel s) (diff 0 gs) := by
  cases h with
  | nil => exact ⟨[], yields_ok [], .nil⟩
  | cons hz h =>
    obtain ⟨t, ht, hall⟩ := hR.mapTwo_sub hz h zsetEmpty_means
    exact ⟨t, Machine.Yields.mapTwo ht, hall⟩

theorem Faithful.integ_diff {s d : List Zset} (hs : ∀ zs ∈ s, Normal R zs)
    (hd : Machine.Yields (fun fuel => Dbsp.streamD fuel s) d) :
    Machine.Yields (fun fuel => Dbsp.streamI fuel d) s := by
  have hmeans := meansAll_of_normal hs
  obtain ⟨d', hd', hall⟩ := hR.streamD hmeans
  obtain rfl := hd.unique hd'
  obtain ⟨i, hi, hiall⟩ := hR.streamI hall
  rw [Dataflow.integ_diff] at hiall
  rwa [hiall.unique hR hmeans] at hi

theorem Faithful.diff_integ {s i : List Zset} (hs : ∀ zs ∈ s, Normal R zs)
    (hi : Machine.Yields (fun fuel => Dbsp.streamI fuel s) i) :
    Machine.Yields (fun fuel => Dbsp.streamD fuel i) s := by
  have hmeans := meansAll_of_normal hs
  obtain ⟨i', hi', hall⟩ := hR.streamI hmeans
  obtain rfl := hi.unique hi'
  obtain ⟨d, hd, hdall⟩ := hR.streamD hall
  rw [Dataflow.diff_integ] at hdall
  rwa [hdall.unique hR hmeans] at hd

end

/-! ### The laws -/

/-- The query returns a Z-set over the rows for every Z-set over them. -/
def Query.Total (R : Set Sexp) (q : Query) : Prop :=
  ∀ zs, Normal R zs → ∃ out, Machine.Yields (fun fuel => q fuel zs) out ∧ Normal R out

/-- The streams that two procedures return are `stream=?`. -/
def SameStream (f g : ℕ → Exec String (List Zset)) : Prop :=
  ∃ s t, Machine.Yields f s ∧ Machine.Yields g t ∧ streamEqual s t = true

/-- The laws of streams over some rows. -/
structure StreamLaws (R : Set Sexp) : Prop where
  diff_integ : ∀ s : List Zset, (∀ zs ∈ s, Normal R zs) →
    SameStream (fun fuel => dbspCompose streamD streamI fuel s) fun _ => .ok s
  integ_diff : ∀ s : List Zset, (∀ zs ∈ s, Normal R zs) →
    SameStream (fun fuel => dbspCompose streamI streamD fuel s) fun _ => .ok s
  chain : ∀ q1 q2 : Query, q1.Total R → q2.Total R →
    ∀ ds : List Zset, (∀ zs ∈ ds, Normal R zs) →
      SameStream (fun fuel => dbspIncrementalize (dbspCompose q1 q2) fuel ds) fun fuel =>
        dbspCompose (dbspIncrementalize q1) (dbspIncrementalize q2) fuel ds

theorem Query.Total.lift {q : Query} (hq : q.Total R) {s : List Zset}
    (hs : ∀ zs ∈ s, Normal R zs) :
    ∃ t, List.Forall₂ (fun zs out => Machine.Yields (fun fuel => q fuel zs) out) s t ∧
      ∀ zs ∈ t, Normal R zs := by
  induction s with
  | nil => exact ⟨[], .nil, fun _ h => absurd h List.not_mem_nil⟩
  | cons zs s ih =>
    rw [List.forall_mem_cons] at hs
    obtain ⟨out, hout, hnormal⟩ := hq zs hs.1
    obtain ⟨t, ht, hall⟩ := ih hs.2
    exact ⟨out :: t, .cons hout ht, List.forall_mem_cons.mpr ⟨hnormal, hall⟩⟩

theorem forall₂_compose {q1 q2 : Query} {s t u : List Zset}
    (h2 : List.Forall₂ (fun zs out => Machine.Yields (fun fuel => q2 fuel zs) out) s t)
    (h1 : List.Forall₂ (fun zs out => Machine.Yields (fun fuel => q1 fuel zs) out) t u) :
    List.Forall₂ (fun zs out => Machine.Yields (fun fuel => dbspCompose q1 q2 fuel zs) out)
      s u := by
  induction h2 generalizing u with
  | nil =>
    cases h1
    exact .nil
  | cons hx _ ih =>
    cases h1 with
    | cons hy h1 => exact .cons (hx.bind hy) (ih h1)

theorem Faithful.streamLaws (hR : Faithful R) : StreamLaws R where
  diff_integ s hs := by
    obtain ⟨i, hi, -⟩ := hR.streamI (meansAll_of_normal hs)
    exact ⟨s, s, hi.bind (hR.diff_integ hs hi), yields_ok s, streamEqual_refl s⟩
  integ_diff s hs := by
    obtain ⟨d, hd, -⟩ := hR.streamD (meansAll_of_normal hs)
    exact ⟨s, s, hd.bind (hR.integ_diff hs hd), yields_ok s, streamEqual_refl s⟩
  chain q1 q2 h1 h2 ds hds := by
    obtain ⟨i, hi, hall⟩ := hR.streamI (meansAll_of_normal hds)
    obtain ⟨t, ht, htnormal⟩ := h2.lift hall.normal
    obtain ⟨u, hu, hunormal⟩ := h1.lift htnormal
    obtain ⟨d, hd, -⟩ := hR.streamD (meansAll_of_normal htnormal)
    obtain ⟨out, hout, -⟩ := hR.streamD (meansAll_of_normal hunormal)
    -- what the first query sees on the right is what the second one returned
    have hback := hR.integ_diff htnormal hd
    refine ⟨out, out, hi.bind ((Machine.Yields.mapM (forall₂_compose ht hu)).bind hout),
      ?_, streamEqual_refl out⟩
    exact (hi.bind ((Machine.Yields.mapM ht).bind hd)).bind
      (hback.bind ((Machine.Yields.mapM hu).bind hout))

/-! ### Two rows with one key -/

/-- The Z-set of one row. -/
def one (w : ℤ) (row : Sexp) : Zset := ⟨[(w, row)]⟩

theorem one_normal {w : ℤ} (hw : w ≠ 0) {row : Sexp} (hrow : row ∈ R) : Normal R (one w row) :=
  ⟨.singleton hw, fun e he => by rw [List.mem_singleton.mp he]; exact hrow⟩

theorem one_means {w : ℤ} (hw : w ≠ 0) {row : Sexp} (hrow : row ∈ R) :
    Means R (one w row) (.single row w) :=
  ⟨one_normal hw hrow, by rw [one, weights_cons, weights_nil, add_zero]⟩

theorem faithful_singleton (row : Sexp) : Faithful {row} :=
  fun _ hr _ hs _ => (Set.mem_singleton_iff.mp hr).trans (Set.mem_singleton_iff.mp hs).symm

theorem eq_nil_or_singleton {es : List (ℤ × Sexp)} (h : Consolidated rowKey es) {k : List ℕ}
    (hk : ∀ e ∈ es, rowKey e.2 = k) :
    (es = [] ∧ total rowKey es k = 0) ∨ ∃ row, es = [(total rowKey es k, row)] := by
  match es with
  | [] => exact .inl ⟨rfl, rfl⟩
  | [(w, row)] =>
    have hrow := hk (w, row) (.head _)
    exact .inr ⟨row, by simp [total_cons, hrow]⟩
  | e :: f :: es =>
    have hlt := List.rel_of_pairwise_cons h.ascending (List.mem_cons_self)
    rw [hk e (.head _), hk f (.tail _ (.head _))] at hlt
    exact absurd hlt (lt_irrefl k)

section

variable {r s : Sexp} (hkey : rowKey r = rowKey s)
include hkey

theorem yields_add_one (x y : ℤ) :
    ∃ c, Machine.Yields (fun fuel => zsetAdd fuel (one x r) (one y s)) c ∧
      ((x + y = 0 ∧ c = zsetEmpty) ∨
        x + y ≠ 0 ∧ ∃ row, (row = r ∨ row = s) ∧ c = one (x + y) row) := by
  obtain ⟨c, hc, hcons, htotal, hrows⟩ := yields_zsetAdd (one x r) (one y s)
  refine ⟨c, hc, ?_⟩
  have hmem : ∀ e ∈ c.entries, e.2 = r ∨ e.2 = s := by
    intro e he
    obtain ⟨f, hf, hef⟩ := hrows e he
    rw [hef]
    simp only [one, List.cons_append, List.nil_append, List.mem_cons, List.not_mem_nil,
      or_false] at hf
    exact hf.imp (fun hf => by rw [hf]) fun hf => by rw [hf]
  have hk : ∀ e ∈ c.entries, rowKey e.2 = rowKey s := by
    intro e he
    rcases hmem e he with h | h
    · rw [h, hkey]
    · rw [h]
  have hsum : total rowKey c.entries (rowKey s) = x + y := by
    rw [htotal]
    simp [one, total_cons, hkey]
  obtain ⟨es⟩ := c
  rcases eq_nil_or_singleton hcons hk with ⟨hnil, hzero⟩ | ⟨row, hrow⟩
  · exact .inl ⟨hsum ▸ hzero, congrArg Zset.mk hnil⟩
  · rw [hsum] at hrow
    have hin : (x + y, row) ∈ es := by
      rw [show es = _ from hrow]
      exact .head _
    exact .inr ⟨hcons.nonzero _ hin, row, hmem _ hin, congrArg Zset.mk hrow⟩

theorem yields_streamD_pair :
    Machine.Yields (fun fuel => streamD fuel [one 1 r, one 1 s]) [one 1 r, zsetEmpty] := by
  obtain ⟨d, hd, hmeans⟩ := (faithful_singleton r).sub
    (one_means one_ne_zero (Set.mem_singleton r)) (zsetEmpty_means)
  rw [sub_zero] at hmeans
  obtain rfl := hmeans.unique (faithful_singleton r) (one_means one_ne_zero (Set.mem_singleton r))
  obtain ⟨c, hc, hcases⟩ := yields_add_one hkey.symm 1 (-1)
  obtain ⟨-, rfl⟩ : (1 : ℤ) + -1 = 0 ∧ c = zsetEmpty := hcases.resolve_right fun h => h.1 (by omega)
  exact Machine.Yields.mapTwo (.cons hd (.cons hc (.left_nil [])))

theorem yields_streamI_pair :
    ∃ row, (row = r ∨ row = s) ∧
      Machine.Yields (fun fuel => streamI fuel [one 1 r, one 1 s]) [one 1 r, one 2 row] := by
  obtain ⟨d, hd, hmeans⟩ := (faithful_singleton r).add
    zsetEmpty_means (one_means one_ne_zero (Set.mem_singleton r))
  rw [zero_add] at hmeans
  obtain rfl := hmeans.unique (faithful_singleton r) (one_means one_ne_zero (Set.mem_singleton r))
  obtain ⟨c, hc, hcases⟩ := yields_add_one hkey 1 1
  obtain ⟨-, row, hrow, rfl⟩ := hcases.resolve_left fun h => absurd h.1 (by omega)
  exact ⟨row, hrow, hd.bind (hc.bind (yields_ok _))⟩

end

theorem yields_streamI_one (r : Sexp) :
    Machine.Yields (fun fuel => streamI fuel [one 1 r, zsetEmpty]) [one 1 r, one 1 r] := by
  have hone : Means {r} (one 1 r) (.single r 1) := one_means one_ne_zero (Set.mem_singleton r)
  obtain ⟨t, ht, hall⟩ := (faithful_singleton r).streamI
    (.cons hone (.cons zsetEmpty_means .nil))
  simp only [integ, zero_add, add_zero] at hall
  rwa [hall.unique (faithful_singleton r) (.cons hone (.cons hone .nil))] at ht

variable {zs : Zset}

theorem yields_streamD_one (r : Sexp) (hzs : Normal {r} zs) :
    Machine.Yields (fun fuel => streamD fuel [zsetEmpty, zs]) [zsetEmpty, zs] := by
  have hall : MeansAll {r} [zsetEmpty, zs] [0, weights zs.entries] :=
    .cons zsetEmpty_means (.cons hzs.means .nil)
  obtain ⟨t, ht, htall⟩ := (faithful_singleton r).streamD hall
  simp only [diff, sub_zero] at htall
  rwa [htall.unique (faithful_singleton r) hall] at ht

/-- The query that returns `yes` for one Z-set and `no` for all others. -/
def select (zs yes no : Zset) : Query := fun _ x => .ok (if x = zs then yes else no)

theorem select_total {yes no : Zset} (hyes : Normal R yes) (hno : Normal R no) :
    (select zs yes no).Total R := by
  intro x _
  refine ⟨_, yields_ok _, ?_⟩
  split
  · exact hyes
  · exact hno

theorem yields_select_self (zs yes no : Zset) :
    Machine.Yields (fun fuel => select zs yes no fuel zs) yes :=
  ⟨0, fun _ _ => congrArg Except.ok (if_pos rfl)⟩

theorem yields_select_of_ne {x : Zset} (h : x ≠ zs) (yes no : Zset) :
    Machine.Yields (fun fuel => select zs yes no fuel x) no :=
  ⟨0, fun _ _ => congrArg Except.ok (if_neg h)⟩

/-- If the laws hold, rows are told apart. -/
theorem StreamLaws.faithful (h : StreamLaws R) : Faithful R := by
  intro r hr s hs hagrees
  have hkey := rowKey_eq_iff.mpr hagrees
  by_contra hne
  have h1 : Normal R (one 1 r) := one_normal one_ne_zero hr
  have h1' : Normal R (one 1 s) := one_normal one_ne_zero hs
  have h5 : Normal R (one 5 r) := one_normal (by decide) hr
  have hrs : one 1 r ≠ one 1 s := by simpa [one] using hne
  obtain ⟨left, right, hleft, hright, hequal⟩ := h.chain (select (one 1 s) (one 5 r) zsetEmpty)
    (select (one 1 r) (one 1 r) (one 1 s)) (select_total h5 zsetEmpty_normal)
    (select_total h1 h1') [one 1 r, one 1 s] (by simp [h1, h1'])
  obtain ⟨row, -, hI⟩ := yields_streamI_pair hkey
  have h2r : one 2 row ≠ one 1 r := by simp [one]
  have hq2 : List.Forall₂ (fun zs out => Machine.Yields (fun fuel =>
      select (one 1 r) (one 1 r) (one 1 s) fuel zs) out) [one 1 r, one 2 row] [one 1 r, one 1 s] :=
    .cons (yields_select_self _ _ _) (.cons (yields_select_of_ne h2r _ _) .nil)
  -- on the left the first query sees the second row
  have hq1 : List.Forall₂ (fun zs out => Machine.Yields (fun fuel =>
      select (one 1 s) (one 5 r) zsetEmpty fuel zs) out) [one 1 r, one 1 s] [zsetEmpty, one 5 r] :=
    .cons (yields_select_of_ne hrs _ _) (.cons (yields_select_self _ _ _) .nil)
  have hD5 := yields_streamD_one r (one_normal (by decide : (5 : ℤ) ≠ 0) (Set.mem_singleton r))
  obtain rfl := hleft.unique
    (hI.bind ((Machine.Yields.mapM (forall₂_compose hq2 hq1)).bind hD5))
  -- on the right the change to it is lost
  have hq1' : List.Forall₂ (fun zs out => Machine.Yields (fun fuel =>
      select (one 1 s) (one 5 r) zsetEmpty fuel zs) out) [one 1 r, one 1 r]
        [zsetEmpty, zsetEmpty] :=
    .cons (yields_select_of_ne hrs _ _) (.cons (yields_select_of_ne hrs _ _) .nil)
  have hD0 := yields_streamD_one r zsetEmpty_normal
  have hincr2 : Machine.Yields (fun fuel => dbspIncrementalize
      (select (one 1 r) (one 1 r) (one 1 s)) fuel [one 1 r, one 1 s]) [one 1 r, zsetEmpty] :=
    hI.bind ((Machine.Yields.mapM hq2).bind (yields_streamD_pair hkey))
  have hincr1 : Machine.Yields (fun fuel => dbspIncrementalize
      (select (one 1 s) (one 5 r) zsetEmpty) fuel [one 1 r, zsetEmpty]) [zsetEmpty, zsetEmpty] :=
    (yields_streamI_one r).bind ((Machine.Yields.mapM hq1').bind hD0)
  obtain rfl := hright.unique (hincr2.bind hincr1)
  cases hequal

/-- **The laws of streams** hold over a set of rows exactly when no two different rows of it have
texts that agree up to the first zero character. -/
theorem stream_laws_iff (R : Set Sexp) :
    (StreamLaws R ↔ Faithful R) ∧ ((∀ row ∈ R, '\x00' ∉ rowChars row) → Faithful R) :=
  ⟨⟨StreamLaws.faithful, Faithful.streamLaws⟩, faithful_of_nulFree⟩

/-- Two pairs with the same string before a zero character: integrating the differences of a
stream of them does not give the stream back. -/
theorem streamI_streamD_nul :
    ∃ (r s : Sexp) (d i : List Zset), r = .pair (.str ['a', '\x00']) (.num 1) ∧
      s = .pair (.str ['a', '\x00']) (.num 2) ∧
      Machine.Yields (fun fuel => streamD fuel [one 1 r, one 1 s]) d ∧
      Machine.Yields (fun fuel => streamI fuel d) i ∧
      streamEqual i [one 1 r, one 1 s] = false :=
  ⟨_, _, _, _, rfl, rfl, yields_streamD_pair (rowKey_eq_iff.mpr rfl), yields_streamI_one _, rfl⟩

end Eshkol.Core.Dbsp
