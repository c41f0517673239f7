import Eshkol.Native.DeepEqual

/-!
# Structural Equality of Exact Data

`Represents heap d v` says that the word `v` is the exact datum `d`, a finite tree. Two data
are equal when they have the same shape, equal numbers and the same bytes.

The runtime compares strings and symbols with `strcmp`, which stops at a zero byte; it has no
case for bytevectors, which fall through to a comparison of their addresses; and it does not
compare a rational object with an integer, although a rational object may have denominator one.
-/

open Machine

namespace Eshkol.DeepEqual

/-! ### Exact data -/

/-- A finite exact datum: a tree of pairs and vectors. Strings and symbols are their bytes. -/
inductive Datum : Type
  | null
  | bool (b : Bool)
  | char (c : Char)
  | number (q : ℚ)
  | string (bytes : List UInt8)
  | symbol (bytes : List UInt8)
  | bytevector (bytes : List UInt8)
  | pair (car cdr : Datum)
  | vector (items : List Datum)

namespace Datum

@[elab_as_elim, induction_eliminator]
theorem induct {p : Datum → Prop} (null : p .null) (bool : ∀ b, p (.bool b))
    (char : ∀ c, p (.char c)) (number : ∀ q, p (.number q)) (string : ∀ s, p (.string s))
    (symbol : ∀ s, p (.symbol s)) (bytevector : ∀ s, p (.bytevector s))
    (pair : ∀ a d, p a → p d → p (.pair a d))
    (vector : ∀ ds, (∀ d ∈ ds, p d) → p (.vector ds)) : ∀ d, p d
  | .null => null
  | .bool b => bool b
  | .char c => char c
  | .number q => number q
  | .string s => string s
  | .symbol s => symbol s
  | .bytevector s => bytevector s
  | .pair a d =>
    pair a d (induct null bool char number string symbol bytevector pair vector a)
      (induct null bool char number string symbol bytevector pair vector d)
  | .vector ds =>
    vector ds fun d _ => induct null bool char number string symbol bytevector pair vector d

/-- How deep pairs and vectors are nested. -/
def depth : Datum → ℕ
  | .pair a d => max a.depth d.depth + 1
  | .vector ds => (ds.map fun d => depth d + 1).foldr max 0
  | .null | .bool _ | .char _ | .number _ | .string _ | .symbol _ | .bytevector _ => 0

theorem depth_lt_of_mem {d : Datum} {ds : List Datum} (h : d ∈ ds) :
    d.depth < (vector ds).depth := by
  rw [depth]
  induction ds with
  | nil => cases h
  | cons e ds ih =>
    rw [List.map_cons, List.foldr_cons]
    rcases List.mem_cons.mp h with rfl | h
    · exact lt_of_lt_of_le (Nat.lt_succ_self _) (le_max_left _ _)
    · exact lt_of_lt_of_le (ih h) (le_max_right _ _)

/-- The constructor. -/
def tag : Datum → Tag
  | .null => .null
  | .bool _ => .bool
  | .char _ => .char
  | .number _ => .number
  | .string _ => .string
  | .symbol _ => .symbol
  | .bytevector _ => .bytevector
  | .pair _ _ => .pair
  | .vector _ => .vector

/-- The datum with every string and symbol cut before its first zero byte. -/
def cut : Datum → Datum
  | .null => .null
  | .bool b => .bool b
  | .char c => .char c
  | .number q => .number q
  | .string bytes => .string (cString bytes)
  | .symbol bytes => .symbol (cString bytes)
  | .bytevector bytes => .bytevector bytes
  | .pair a d => .pair a.cut d.cut
  | .vector ds => .vector (ds.map cut)

theorem tag_cut (d : Datum) : d.cut.tag = d.tag := by cases d <;> simp [cut, tag]

/-- A datum of a constructor. -/
def IsA : Tag → Datum → Prop
  | .null, d => d = .null
  | .bool, d => ∃ b, d = .bool b
  | .char, d => ∃ c, d = .char c
  | .number, d => ∃ q, d = .number q
  | .string, d => ∃ s, d = .string s
  | .symbol, d => ∃ s, d = .symbol s
  | .bytevector, d => ∃ s, d = .bytevector s
  | .pair, d => ∃ a e, d = .pair a e
  | .vector, d => ∃ ds, d = .vector ds

theorem isA_of_tag {d : Datum} {t : Tag} (h : t = d.tag) : IsA t d := by
  subst h
  cases d <;> simp [tag, IsA]

end Datum

mutual

/-- The datum a word stands for. -/
def Represents (heap : Memory) : Datum → Word → Prop
  | .null, v => view heap v = some .null
  | .bool b, v => view heap v = some (.bool b)
  | .char c, v => view heap v = some (.char c)
  | .number q, v => view heap v = some (.number q)
  | .string bytes, v => view heap v = some (.string bytes)
  | .symbol bytes, v => view heap v = some (.symbol bytes)
  | .bytevector bytes, v => view heap v = some (.bytevector bytes)
  | .pair a d, v =>
    ∃ car cdr, view heap v = some (.pair car cdr) ∧ Represents heap a car ∧ Represents heap d cdr
  | .vector ds, v => ∃ items, view heap v = some (.vector items) ∧ RepresentsAll heap ds items

/-- The data of the slots of a vector. -/
def RepresentsAll (heap : Memory) : List Datum → List Word → Prop
  | [], items => items = []
  | d :: ds, items => ∃ v vs, items = v :: vs ∧ Represents heap d v ∧ RepresentsAll heap ds vs

end

section Represents

variable {heap : Memory}

theorem representsAll_iff {ds : List Datum} {vs : List Word} :
    RepresentsAll heap ds vs ↔ List.Forall₂ (Represents heap) ds vs := by
  induction ds generalizing vs with
  | nil => rw [RepresentsAll, List.forall₂_nil_left_iff]
  | cons d ds ih =>
    rw [RepresentsAll, List.forall₂_cons_left_iff]
    simp only [ih]
    constructor
    · rintro ⟨v, vs, rfl, hd, hds⟩
      exact ⟨v, vs, hd, hds, rfl⟩
    · rintro ⟨v, vs, hd, hds, rfl⟩
      exact ⟨v, vs, rfl, hd, hds⟩

theorem Represents.view {d : Datum} {v : Word} (h : Represents heap d v) :
    ∃ x, view heap v = some x ∧ x.tag = d.tag := by
  cases d with
  | pair a d =>
    rw [Represents] at h
    obtain ⟨car, cdr, h, -⟩ := h
    exact ⟨_, h, rfl⟩
  | vector ds =>
    rw [Represents] at h
    obtain ⟨items, h, -⟩ := h
    exact ⟨_, h, rfl⟩
  | null | bool | char | number | string | symbol | bytevector =>
    rw [Represents] at h
    exact ⟨_, h, rfl⟩

theorem Represents.tag_eq {d d' : Datum} {v w : Word} (h : Represents heap d v)
    (h' : Represents heap d' w) (hview : DeepEqual.view heap v = DeepEqual.view heap w) :
    d.tag = d'.tag := by
  obtain ⟨x, hx, hxt⟩ := h.view
  obtain ⟨y, hy, hyt⟩ := h'.view
  rw [hview, hy] at hx
  cases hx
  exact hxt.symm.trans hyt

theorem Represents.unique {d d' : Datum} {v w : Word} (h : Represents heap d v)
    (h' : Represents heap d' w) (hview : DeepEqual.view heap v = DeepEqual.view heap w) :
    d = d' := by
  have htag : d.tag = d'.tag := h.tag_eq h' hview
  induction d generalizing d' v w with
  | null => exact (Datum.isA_of_tag htag).symm
  | bool | char | number | string | symbol | bytevector =>
    obtain ⟨_, rfl⟩ := Datum.isA_of_tag htag
    rw [Represents] at h h'
    rw [hview, h'] at h
    cases h
    rfl
  | pair a d iha ihd =>
    obtain ⟨a', d', rfl⟩ := Datum.isA_of_tag htag
    rw [Represents] at h h'
    obtain ⟨car, cdr, hv, ha, hd⟩ := h
    obtain ⟨car', cdr', hw, ha', hd'⟩ := h'
    rw [hview, hw] at hv
    cases hv
    rw [iha ha ha' rfl (ha.tag_eq ha' rfl), ihd hd hd' rfl (hd.tag_eq hd' rfl)]
  | vector ds ih =>
    obtain ⟨ds', rfl⟩ := Datum.isA_of_tag htag
    rw [Represents] at h h'
    obtain ⟨items, hv, hds⟩ := h
    obtain ⟨items', hw, hds'⟩ := h'
    rw [hview, hw] at hv
    cases hv
    rw [representsAll_iff] at hds hds'
    congr 1
    clear hw htag
    induction hds generalizing ds' with
    | nil => exact (List.forall₂_nil_right_iff.mp hds').symm
    | @cons d v ds vs hd _ ihds =>
      obtain ⟨e, es, he, hes, rfl⟩ := List.forall₂_cons_right_iff.mp hds'
      rw [ih d List.mem_cons_self hd he rfl (hd.tag_eq he rfl),
        ihds (fun c hc => ih c (List.mem_cons_of_mem _ hc)) es hes]

end Represents

/-! ### Places -/

/-- The words at one place of two data. -/
inductive Corresponding (heap : Memory) : Word → Word → Word → Word → Prop
  | here (v w : Word) : Corresponding heap v w v w
  | car {v w a d a' d' x y : Word} (hv : view heap v = some (.pair a d))
      (hw : view heap w = some (.pair a' d')) (h : Corresponding heap a a' x y) :
      Corresponding heap v w x y
  | cdr {v w a d a' d' x y : Word} (hv : view heap v = some (.pair a d))
      (hw : view heap w = some (.pair a' d')) (h : Corresponding heap d d' x y) :
      Corresponding heap v w x y
  | item {v w a b x y : Word} {vs ws : List Word} (hv : view heap v = some (.vector vs))
      (hw : view heap w = some (.vector ws)) (hab : (a, b) ∈ vs.zip ws)
      (h : Corresponding heap a b x y) : Corresponding heap v w x y

/-- Bytevectors at one place are one object, and of two numbers both are rational objects or
none. -/
def Aligned (heap : Memory) (x y : Word) : Prop :=
  (∀ s s', view heap x = some (.bytevector s) → view heap y = some (.bytevector s') →
    x.data = y.data) ∧
  ∀ q q', view heap x = some (.number q) → view heap y = some (.number q') →
    (IsRational heap x ↔ IsRational heap y)

/-- Words are aligned at every place of two data. -/
def AllAligned (heap : Memory) (v w : Word) : Prop :=
  ∀ x y, Corresponding heap v w x y → Aligned heap x y

section Places

variable {heap : Memory} {v w : Word}

theorem eq_of_mem_zip_self {vs : List Word} {a b : Word} (h : (a, b) ∈ vs.zip vs) : a = b := by
  obtain ⟨i, hi, heq⟩ := List.mem_iff_getElem.mp h
  rw [List.getElem_zip] at heq
  exact (congrArg Prod.fst heq).symm.trans (congrArg Prod.snd heq)

theorem AllAligned.of_same (ht : v.type = w.type) (hd : v.data = w.data) : AllAligned heap v w := by
  have hsame : ∀ x y, Corresponding heap v w x y → x.type = y.type ∧ x.data = y.data := by
    intro x y h
    induction h with
    | here => exact ⟨ht, hd⟩
    | car hv hw h ih =>
      rw [view_congr ht hd, hw] at hv
      cases hv
      exact ih rfl rfl
    | cdr hv hw h ih =>
      rw [view_congr ht hd, hw] at hv
      cases hv
      exact ih rfl rfl
    | @item v w a b x y vs ws hv hw hab h ih =>
      rw [view_congr ht hd, hw] at hv
      cases hv
      obtain rfl : a = b := eq_of_mem_zip_self hab
      exact ih rfl rfl
  intro x y h
  obtain ⟨ht, hd⟩ := hsame x y h
  refine ⟨fun _ _ _ _ => hd, fun _ _ _ _ => ?_⟩
  rw [IsRational, IsRational, ht, hd]

theorem allAligned_leaf (hpair : ∀ a d, view heap v ≠ some (.pair a d))
    (hvector : ∀ vs, view heap v ≠ some (.vector vs)) :
    AllAligned heap v w ↔ Aligned heap v w := by
  constructor
  · intro h
    exact h v w (.here v w)
  · intro h x y hxy
    cases hxy with
    | here => exact h
    | car hv => exact absurd hv (hpair _ _)
    | cdr hv => exact absurd hv (hpair _ _)
    | item hv => exact absurd hv (hvector _)

theorem allAligned_pair {a d a' d' : Word} (hv : view heap v = some (.pair a d))
    (hw : view heap w = some (.pair a' d')) :
    AllAligned heap v w ↔ AllAligned heap a a' ∧ AllAligned heap d d' := by
  constructor
  · intro h
    exact ⟨fun x y hxy => h x y (.car hv hw hxy), fun x y hxy => h x y (.cdr hv hw hxy)⟩
  · rintro ⟨ha, hd⟩ x y hxy
    cases hxy with
    | here => exact ⟨by simp [hv], by simp [hv]⟩
    | car hv' hw' h =>
      rw [hv] at hv'
      rw [hw] at hw'
      cases hv'
      cases hw'
      exact ha x y h
    | cdr hv' hw' h =>
      rw [hv] at hv'
      rw [hw] at hw'
      cases hv'
      cases hw'
      exact hd x y h
    | item hv' => simp [hv] at hv'

theorem allAligned_vector {vs ws : List Word} (hv : view heap v = some (.vector vs))
    (hw : view heap w = some (.vector ws)) :
    AllAligned heap v w ↔ ∀ p ∈ vs.zip ws, AllAligned heap p.1 p.2 := by
  constructor
  · rintro h ⟨a, b⟩ hab x y hxy
    exact h x y (.item hv hw hab hxy)
  · intro h x y hxy
    cases hxy with
    | here => exact ⟨by simp [hv], by simp [hv]⟩
    | car hv' => simp [hv] at hv'
    | cdr hv' => simp [hv] at hv'
    | item hv' hw' hab h' =>
      rw [hv] at hv'
      rw [hw] at hw'
      cases hv'
      cases hw'
      exact h _ hab x y h'

end Places

/-! ### What is computed -/

section Spec

variable {toDouble : Int64 → UInt64} {heap : Memory}

/-- The comparison of a datum with any other, at any fuel above its depth. -/
def Decides (toDouble : Int64 → UInt64) (heap : Memory) (d : Datum) : Prop :=
  ∀ ⦃d' v w⦄, Represents heap d v → Represents heap d' w → ∀ ⦃fuel⦄, d.depth < fuel →
    ∃ b, eshkolDeepEqual toDouble heap fuel v w = .ok b ∧
      (b = true ↔ d.cut = d'.cut ∧ AllAligned heap v w)

theorem itemsEqual_spec {ds : List Datum} (hds : ∀ d ∈ ds, Decides toDouble heap d) {fuel : ℕ}
    (hfuel : ∀ d ∈ ds, d.depth < fuel) {ds' : List Datum} {vs ws : List Word}
    (hv : List.Forall₂ (Represents heap) ds vs) (hw : List.Forall₂ (Represents heap) ds' ws)
    (hlen : vs.length = ws.length) :
    ∃ b, itemsEqual (eshkolDeepEqual toDouble heap fuel) vs ws = .ok b ∧
      (b = true ↔ ds.map Datum.cut = ds'.map Datum.cut ∧
        ∀ p ∈ vs.zip ws, AllAligned heap p.1 p.2) := by
  induction hv generalizing ds' ws with
  | nil =>
    obtain rfl := List.length_eq_zero_iff.mp hlen.symm
    obtain rfl := List.forall₂_nil_right_iff.mp hw
    exact ⟨true, rfl, by simp⟩
  | @cons d v ds vs hd _ ih =>
    cases hw with
    | nil => cases hlen
    | @cons d' w ds' ws hd' hws =>
      rw [List.forall_mem_cons] at hds hfuel
      obtain ⟨b, hb, hbiff⟩ := hds.1 hd hd' hfuel.1
      obtain ⟨c, hc, hciff⟩ := ih hds.2 hfuel.2 hws (by simpa using hlen)
      rw [itemsEqual, hb, ok_bind]
      simp only [List.map_cons, List.cons.injEq, List.zip_cons_cons, List.forall_mem_cons]
      cases b with
      | true =>
        refine ⟨c, by rw [if_pos rfl, hc], ?_⟩
        rw [hciff, and_and_and_comm, ← hbiff]
        simp
      | false =>
        refine ⟨false, by rw [if_neg Bool.false_ne_true], ?_⟩
        rw [and_and_and_comm, ← hbiff]
        simp

theorem decides_of_same_tag {d : Datum}
    (h : ∀ d' v w, Represents heap d v → Represents heap d' w → d.tag = d'.tag →
      ∀ fuel, d.depth < fuel + 1 → ∃ b, eshkolDeepEqual toDouble heap (fuel + 1) v w = .ok b ∧
        (b = true ↔ d.cut = d'.cut ∧ AllAligned heap v w)) :
    Decides toDouble heap d := by
  intro d' v w hv hw fuel hfuel
  obtain ⟨fuel, rfl⟩ : ∃ n, fuel = n + 1 := ⟨fuel - 1, by omega⟩
  by_cases htag : d.tag = d'.tag
  · exact h d' v w hv hw htag fuel hfuel
  · obtain ⟨x, hx, hxt⟩ := hv.view
    obtain ⟨y, hy, hyt⟩ := hw.view
    refine ⟨false, eshkolDeepEqual_of_tag_ne toDouble fuel hx hy (by rwa [hxt, hyt]), ?_⟩
    simp only [Bool.false_eq_true, false_iff]
    rintro ⟨hcut, -⟩
    rw [← d.tag_cut, ← d'.tag_cut, hcut] at htag
    exact htag rfl

theorem allAligned_of_tag {v : Word} {x : View} (hv : view heap v = some x)
    (hx : x.tag ≠ .pair ∧ x.tag ≠ .vector ∧ x.tag ≠ .bytevector ∧ x.tag ≠ .number) (w : Word) :
    AllAligned heap v w := by
  have hne : ∀ y : View, y.tag ≠ x.tag → view heap v ≠ some y := by
    rintro y hy h
    rw [hv] at h
    cases h
    exact hy rfl
  rw [allAligned_leaf (fun _ _ => hne _ hx.1.symm) fun _ => hne _ hx.2.1.symm]
  exact ⟨fun _ _ h => absurd h (hne _ hx.2.2.1.symm), fun _ _ h => absurd h (hne _ hx.2.2.2.symm)⟩

theorem same_of_data {v w : Word} {x y : View} (hv : view heap v = some x)
    (hw : view heap w = some y) (hx : x.tag = .bytevector ∨ x.tag = .vector)
    (hxy : x.tag = y.tag) (hd : v.data = w.data) : v.type = w.type ∧ view heap v = view heap w := by
  have htype : ∀ {u z}, view heap u = some z → z.tag = .bytevector ∨ z.tag = .vector →
      u.type = 8 := by
    intro u z hu hz
    obtain ⟨k, hk, hs⟩ := view_shows hu
    cases z with
    | bytevector s =>
      obtain ⟨rfl, ht, -⟩ := hs
      exact ht
    | vector vs =>
      obtain ⟨rfl, -⟩ := hs
      exact hk.1
    | null | bool | char | number | string | symbol | pair => simp [View.tag] at hz
  have ht : v.type = w.type := (htype hv hx).trans (htype hw (hxy ▸ hx)).symm
  exact ⟨ht, view_congr ht hd⟩

/-- The comparison decides structural equality, on every datum. -/
theorem eshkolDeepEqual_spec (d : Datum) : Decides toDouble heap d := by
  induction d with
  | null =>
    refine decides_of_same_tag fun d' v w hv hw htag fuel _ => ?_
    obtain rfl := Datum.isA_of_tag htag
    rw [Represents] at hv hw
    have hal := allAligned_of_tag hv (by simp [View.tag]) w
    exact ⟨true, eshkolDeepEqual_null hv hw, by simp [hal]⟩
  | bool b =>
    refine decides_of_same_tag fun d' v w hv hw htag fuel _ => ?_
    obtain ⟨b', rfl⟩ := Datum.isA_of_tag htag
    rw [Represents] at hv hw
    have hal := allAligned_of_tag hv (by simp [View.tag]) w
    exact ⟨_, eshkolDeepEqual_bool hv hw, by simp [Datum.cut, hal]⟩
  | char c =>
    refine decides_of_same_tag fun d' v w hv hw htag fuel _ => ?_
    obtain ⟨c', rfl⟩ := Datum.isA_of_tag htag
    rw [Represents] at hv hw
    have hal := allAligned_of_tag hv (by simp [View.tag]) w
    exact ⟨_, eshkolDeepEqual_char hv hw, by simp [Datum.cut, hal]⟩
  | string s =>
    refine decides_of_same_tag fun d' v w hv hw htag fuel _ => ?_
    obtain ⟨s', rfl⟩ := Datum.isA_of_tag htag
    rw [Represents] at hv hw
    have hal := allAligned_of_tag hv (by simp [View.tag]) w
    exact ⟨_, eshkolDeepEqual_string hv hw, by simp [Datum.cut, hal]⟩
  | symbol s =>
    refine decides_of_same_tag fun d' v w hv hw htag fuel _ => ?_
    obtain ⟨s', rfl⟩ := Datum.isA_of_tag htag
    rw [Represents] at hv hw
    have hal := allAligned_of_tag hv (by simp [View.tag]) w
    exact ⟨_, eshkolDeepEqual_symbol hv hw, by simp [Datum.cut, hal]⟩
  | number q =>
    refine decides_of_same_tag fun d' v w hv hw htag fuel _ => ?_
    obtain ⟨q', rfl⟩ := Datum.isA_of_tag htag
    rw [Represents] at hv hw
    obtain ⟨b, hb, hbiff⟩ := @eshkolDeepEqual_number toDouble heap fuel v w q q' hv hw
    refine ⟨b, hb, ?_⟩
    rw [hbiff, allAligned_leaf (by simp [hv]) (by simp [hv])]
    simp [Aligned, hv, hw, Datum.cut]
  | bytevector s =>
    refine decides_of_same_tag fun d' v w hv hw htag fuel _ => ?_
    obtain ⟨s', rfl⟩ := Datum.isA_of_tag htag
    rw [Represents] at hv hw
    refine ⟨_, eshkolDeepEqual_bytevector hv hw, ?_⟩
    rw [allAligned_leaf (by simp [hv]) (by simp [hv]), decide_eq_true_eq]
    constructor
    · intro hd
      rw [(same_of_data hv hw (.inl rfl) rfl hd).2, hw] at hv
      cases hv
      exact ⟨rfl, fun _ _ _ _ => hd, by simp [hw]⟩
    · rintro ⟨-, hal, -⟩
      exact hal s s' hv hw
  | pair a e iha ihe =>
    refine decides_of_same_tag fun d' v w hv hw htag fuel hfuel => ?_
    obtain ⟨a', e', rfl⟩ := Datum.isA_of_tag htag
    rw [Represents] at hv hw
    obtain ⟨car, cdr, hv, ha, he⟩ := hv
    obtain ⟨car', cdr', hw, ha', he'⟩ := hw
    rw [Datum.depth] at hfuel
    obtain ⟨b, hb, hbiff⟩ := @iha a' car car' ha ha' fuel (by omega)
    obtain ⟨c, hc, hciff⟩ := @ihe e' cdr cdr' he he' fuel (by omega)
    rw [eshkolDeepEqual_pair hv hw, hb, ok_bind, allAligned_pair hv hw]
    simp only [Datum.cut, Datum.pair.injEq]
    cases b with
    | true =>
      refine ⟨c, by rw [if_pos rfl, hc], ?_⟩
      rw [hciff, and_and_and_comm, ← hbiff]
      simp
    | false =>
      refine ⟨false, by rw [if_neg Bool.false_ne_true], ?_⟩
      rw [and_and_and_comm, ← hbiff]
      simp
  | vector ds ih =>
    refine decides_of_same_tag fun d' v w hv hw htag fuel hfuel => ?_
    obtain ⟨ds', rfl⟩ := Datum.isA_of_tag htag
    have huniq := @Represents.unique heap _ _ v w hv hw
    rw [Represents] at hv hw
    obtain ⟨vs, hv, hds⟩ := hv
    obtain ⟨ws, hw, hds'⟩ := hw
    rw [representsAll_iff] at hds hds'
    rw [eshkolDeepEqual_vector hv hw]
    by_cases hd : v.data = w.data
    · obtain ⟨ht, hview⟩ := same_of_data hv hw (.inr rfl) rfl hd
      have hal : AllAligned heap v w := .of_same ht hd
      exact ⟨true, by rw [if_pos hd], by simp [huniq hview, hal]⟩
    · rw [if_neg hd]
      by_cases hlen : vs.length = ws.length
      · have hdepth : ∀ d ∈ ds, d.depth < fuel := fun d hd =>
          lt_of_lt_of_le (Datum.depth_lt_of_mem hd) (Nat.lt_succ_iff.mp hfuel)
        obtain ⟨b, hb, hbiff⟩ := itemsEqual_spec ih hdepth hds hds' hlen
        refine ⟨b, by rw [if_neg (not_not.mpr hlen), hb], ?_⟩
        rw [hbiff, allAligned_vector hv hw, Datum.cut, Datum.cut, Datum.vector.injEq]
      · refine ⟨false, by rw [if_pos hlen], ?_⟩
        simp only [Bool.false_eq_true, Datum.cut, Datum.vector.injEq, false_iff]
        rintro ⟨hcut, -⟩
        apply hlen
        rw [← hds.length_eq, ← hds'.length_eq, ← ds.length_map Datum.cut, hcut, List.length_map]

/-- **`equal?` is structural equality** on equal data exactly when they are aligned at every
place, and on different data exactly when they differ before the zero bytes or are not aligned
somewhere. -/
theorem eshkolDeepEqual_iff {d₁ d₂ : Datum} {v w : Word} (hv : Represents heap d₁ v)
    (hw : Represents heap d₂ w) :
    (∃ fuel₀ b, (∀ fuel ≥ fuel₀, eshkolDeepEqual toDouble heap fuel v w = .ok b) ∧
        (b = true ↔ d₁ = d₂)) ↔
      (d₁ = d₂ → AllAligned heap v w) ∧ (d₁ ≠ d₂ → d₁.cut = d₂.cut → ¬AllAligned heap v w) := by
  have hspec := fun fuel => @eshkolDeepEqual_spec toDouble heap d₁ d₂ v w hv hw fuel
  constructor
  · rintro ⟨fuel₀, b, hb, hiff⟩
    obtain ⟨c, hc, hciff⟩ := hspec (max fuel₀ (d₁.depth + 1))
      (Nat.lt_of_succ_le (le_max_right _ _))
    rw [hb _ (le_max_left _ _)] at hc
    cases hc
    rw [hiff] at hciff
    exact ⟨fun h => (hciff.mp h).2, fun hne hcut hal => hne (hciff.mpr ⟨hcut, hal⟩)⟩
  · rintro ⟨heq, hne⟩
    classical
    refine ⟨d₁.depth + 1, decide (d₁ = d₂), fun fuel hfuel => ?_, decide_eq_true_iff⟩
    obtain ⟨c, hc, hciff⟩ := hspec fuel (Nat.lt_of_succ_le hfuel)
    rw [hc]
    congr 1
    rw [Bool.eq_iff_iff, hciff, decide_eq_true_eq]
    constructor
    · rintro ⟨hcut, hal⟩
      by_contra h
      exact hne h hcut hal
    · intro h
      exact ⟨congrArg Datum.cut h, heq h⟩

end Spec

/-- Two strings that differ behind a zero byte, two bytevectors with one content, and two pairs. -/
def sampleHeap : Memory := fun p =>
  if p = 1 then some (.string [97, 0, 98])
  else if p = 2 then some (.string [97, 0, 99])
  else if p = 3 ∨ p = 4 then some (.bytevector [7])
  else if p = 5 ∨ p = 6 then some (.cons ⟨1, 0, 0, 0, 42⟩ ⟨8, 0, 0, 0, 3⟩)
  else none

/-- A pointer word. -/
def pointer (p : UInt64) : Word := ⟨8, 0, 0, 0, p⟩

/-- Two pairs of a number and one bytevector. -/
theorem eshkolDeepEqual_sample_pair :
    ∃ fuel₀ b, (∀ fuel ≥ fuel₀,
      eshkolDeepEqual (fun _ => 0) sampleHeap fuel (pointer 5) (pointer 6) = .ok b) ∧
        (b = true ↔
          Datum.pair (.number 42) (.bytevector [7]) = .pair (.number 42) (.bytevector [7])) := by
  have hview {p : UInt64} (hp : p = 5 ∨ p = 6) :
      view sampleHeap (pointer p) = some (.pair ⟨1, 0, 0, 0, 42⟩ (pointer 3)) := by
    rcases hp with rfl | rfl <;> rfl
  have hrep {p : UInt64} (hp : p = 5 ∨ p = 6) :
      Represents sampleHeap (.pair (.number 42) (.bytevector [7])) (pointer p) := by
    rw [Represents]
    refine ⟨_, _, hview hp, ?_, ?_⟩ <;> rw [Represents] <;> rfl
  have haligned : AllAligned sampleHeap (pointer 5) (pointer 6) := by
    intro x y h
    cases h with
    | here => exact ⟨fun s _ hs => by simp [hview] at hs, fun q _ hq => by simp [hview] at hq⟩
    | car hv hw h =>
      rw [hview (.inl rfl)] at hv
      rw [hview (.inr rfl)] at hw
      cases hv
      cases hw
      exact AllAligned.of_same rfl rfl x y h
    | cdr hv hw h =>
      rw [hview (.inl rfl)] at hv
      rw [hview (.inr rfl)] at hw
      cases hv
      cases hw
      exact AllAligned.of_same rfl rfl x y h
    | item hv => simp [hview] at hv
  exact (eshkolDeepEqual_iff (hrep (.inl rfl)) (hrep (.inr rfl))).mpr
    ⟨fun _ => haligned, fun hne => absurd rfl hne⟩

/-- Two different strings are `equal?`, and two equal bytevectors are not. -/
theorem eshkolDeepEqual_not_structural :
    (Represents sampleHeap (.string [97, 0, 98]) (pointer 1) ∧
      Represents sampleHeap (.string [97, 0, 99]) (pointer 2) ∧
      ∀ fuel, eshkolDeepEqual (fun _ => 0) sampleHeap (fuel + 1) (pointer 1) (pointer 2) =
        .ok true) ∧
    Represents sampleHeap (.bytevector [7]) (pointer 3) ∧
      Represents sampleHeap (.bytevector [7]) (pointer 4) ∧
      ∀ fuel, eshkolDeepEqual (fun _ => 0) sampleHeap (fuel + 1) (pointer 3) (pointer 4) =
        .ok false := by
  simp only [Represents]
  exact ⟨⟨rfl, rfl, fun _ => rfl⟩, rfl, rfl, fun _ => rfl⟩

end Eshkol.DeepEqual
