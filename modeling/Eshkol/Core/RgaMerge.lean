import Eshkol.Core.Rga

/-!
# Merging Sequences

Sequences of `lib/core/distributed.esk` as replicated data: insertions are authored by their node,
and name the entry after which they insert; `rga-append` is an insertion after the last visible
entry. The entries of a replica are determined by the events that have reached it, up to the order
in which they are stored, and that order does not show when different nodes have different texts.
-/

open Machine Replication

namespace Eshkol.Core

variable {N V α : Type} [DecidableEq N]

/-! ### Looking up entries -/

section Lookup

variable {entries acc : List (RgaEntry N V)} {entry x : RgaEntry N V} {id : RgaId N}

theorem rgaEntryRef_set : rgaEntryRef id (rgaEntrySet entry entries) =
    if entry.id = id then Option.merge rgaMergeEntry (rgaEntryRef id entries) (some entry)
    else rgaEntryRef id entries := by
  induction entries with
  | nil =>
    rw [rgaEntrySet, rgaEntryRef]
    rfl
  | cons existing entries ih =>
    rw [rgaEntrySet, rgaEntryRef]
    by_cases hid : existing.id = entry.id
    · rw [if_pos hid, rgaEntryRef, ← hid]
      change (if existing.id = id then _ else _) = _
      split <;> rfl
    · rw [if_neg hid, rgaEntryRef, ih]
      by_cases hx : existing.id = id
      · have hne : entry.id ≠ id := fun h => hid (hx.trans h.symm)
        rw [if_pos hx, if_pos hx, if_neg hne]
      · rw [if_neg hx, if_neg hx]

theorem rgaEntryRef_eq_none (h : id ∉ rgaIdsOf entries) : rgaEntryRef id entries = none := by
  induction entries with
  | nil => rfl
  | cons existing entries ih =>
    simp only [rgaIdsOf, List.map_cons, List.mem_cons, not_or] at h
    rw [rgaEntryRef, if_neg (Ne.symm h.1), ih h.2]

theorem mem_of_rgaEntryRef (h : rgaEntryRef id entries = some x) : x ∈ entries ∧ x.id = id := by
  induction entries with
  | nil => cases h
  | cons existing entries ih =>
    rw [rgaEntryRef] at h
    split at h
    next hid =>
      cases h
      exact ⟨.head _, hid⟩
    next => exact ⟨.tail _ (ih h).1, (ih h).2⟩

theorem rgaEntryRef_merge (h : (rgaIdsOf entries).Nodup) :
    rgaEntryRef id (rgaMergeEntries entries acc) =
      Option.merge rgaMergeEntry (rgaEntryRef id acc) (rgaEntryRef id entries) := by
  induction entries generalizing acc with
  | nil => simp [rgaMergeEntries, rgaEntryRef]
  | cons existing entries ih =>
    simp only [rgaIdsOf, List.map_cons, List.nodup_cons] at h
    rw [rgaMergeEntries, ih h.2, rgaEntryRef_set, rgaEntryRef]
    split
    next hid =>
      subst hid
      rw [rgaEntryRef_eq_none h.1]
      simp
    next => rfl

theorem mem_iff_rgaEntryRef (h : (rgaIdsOf entries).Nodup) :
    x ∈ entries ↔ rgaEntryRef x.id entries = some x := by
  induction entries with
  | nil => simp [rgaEntryRef]
  | cons existing entries ih =>
    simp only [rgaIdsOf, List.map_cons, List.nodup_cons] at h
    rw [List.mem_cons, rgaEntryRef, ih h.2]
    by_cases hid : existing.id = x.id
    · rw [if_pos hid, rgaEntryRef_eq_none (hid ▸ h.1)]
      simp [eq_comm]
    · rw [if_neg hid]
      constructor
      · rintro (rfl | hx)
        · exact absurd rfl hid
        · exact hx
      · exact .inr

end Lookup

/-! ### Sequences as replicated data -/

/-- An operation on a sequence; an insertion names the entry after which it is made, also when
that was found by `rga-append`. -/
inductive RgaOp (N V : Type) : Type
  | insert (node : N) (prev : RgaId N) (value : V)
  | delete (id : RgaId N)
  deriving DecidableEq

/-- Insertions are authored by their node. -/
def RgaOp.author : RgaOp N V → Option N
  | .insert node _ _ => some node
  | .delete _ => none

variable [RgaNode N]

/-- Values are inserted after the root or an entry that is present, or appended. -/
def rgaData (N V : Type) [DecidableEq N] [RgaNode N] : DataType (Rga N V) (RgaOp N V) N where
  init := makeRga
  perform rga op rga' := match op with
    | .insert node prev value =>
      (prev = rgaRootId ∨ prev ∈ rgaIdsOf rga.entries) ∧
          rgaInsertAfter rga node prev value = .ok rga' ∨
        ∃ calls, rgaLastId calls rga = .ok prev ∧ rgaAppend calls rga node value = .ok rga'
    | .delete id => rga' = rgaDelete rga id
  merge := rgaMerge
  author := RgaOp.author

theorem Rga.WellFormed.perform_insert {rga rga' : Rga N V} {node : N} {prev : RgaId N} {value : V}
    (h : rga.WellFormed) (hop : (rgaData N V).perform rga (.insert node prev value) rga') :
    (prev = rgaRootId ∨ prev ∈ rgaIdsOf rga.entries) ∧
      rgaInsertAfter rga node prev value = .ok rga' := by
  rcases hop with hop | ⟨calls, hlast, happend⟩
  · exact hop
  · refine ⟨h.lastId hlast, ?_⟩
    rw [rgaAppend, hlast, ok_bind] at happend
    exact happend

variable {K L : Finset (Event (RgaOp N V))} {e f : Event (RgaOp N V)} {x y : RgaEntry N V}

/-- A known deletion of the id had seen the event. -/
def Erased (K : Finset (Event (RgaOp N V))) (e : Event (RgaOp N V)) (id : RgaId N) : Prop :=
  ∃ f ∈ K, f.op = .delete id ∧ e.index ∈ f.seen

/-- The event inserted `value` with the given id. -/
structure Element (K : Finset (Event (RgaOp N V))) (e : Event (RgaOp N V)) (id : RgaId N)
    (prev : RgaId N) (value : V) : Prop where
  mem : e ∈ K
  op_eq : e.op = .insert id.1 prev value
  rank_eq : id.2 = rank RgaOp.author K e

/-- The entry is that of the event, with its mark. -/
structure Inserts (K : Finset (Event (RgaOp N V))) (e : Event (RgaOp N V)) (x : RgaEntry N V) :
    Prop extends Element K e x.id x.prev x.value where
  deleted_iff : x.deleted = true ↔ Erased K e x.id

/-- The entries of a sequence are those of the insertions known, and are marked when a known
deletion had seen them. -/
structure Rga.Represents (K : Finset (Event (RgaOp N V))) (rga : Rga N V) : Prop where
  wellFormed : rga.WellFormed
  sound : ∀ x ∈ rga.entries, ∃ e, Inserts K e x
  complete : ∀ e id prev value, Element K e id prev value → id ∈ rgaIdsOf rga.entries
  clock : Counts RgaOp.author (fun _ => 1) K rga.clock

section Elements

omit [RgaNode N]

variable {id prev prev' : RgaId N} {value value' : V}

theorem Element.author (h : Element K e id prev value) : e.op.author = some id.1 := by
  rw [h.op_eq, RgaOp.author]

theorem Element.unique (hK : Consistent RgaOp.author K) (he : Element K e id prev value)
    (hf : Element K f id prev' value') : e = f ∧ prev = prev' ∧ value = value' := by
  have hef : e = f := rank_inj hK he.mem hf.mem (he.author.trans hf.author.symm)
    (he.rank_eq.symm.trans hf.rank_eq)
  subst hef
  have hop := he.op_eq.symm.trans hf.op_eq
  injection hop with _ hprev hvalue
  exact ⟨rfl, hprev, hvalue⟩

theorem element_mono (hL : Consistent RgaOp.author L) (hKL : K ⊆ L) (hK : Closed K) (he : e ∈ K) :
    Element K e id prev value ↔ Element L e id prev value := by
  constructor
  · intro h
    exact ⟨hKL he, h.op_eq, h.rank_eq.trans (rank_eq_of_subset hL hKL hK he h.author)⟩
  · intro h
    exact ⟨he, h.op_eq, h.rank_eq.trans (rank_eq_of_subset hL hKL hK he h.author).symm⟩

theorem Inserts.unique (hK : Consistent RgaOp.author K) (hx : Inserts K e x) (hy : Inserts K f y)
    (hid : x.id = y.id) : x = y := by
  obtain ⟨i, p, v, d⟩ := x
  obtain ⟨i', p', v', d'⟩ := y
  simp only at hid
  subst hid
  obtain ⟨rfl, rfl, rfl⟩ := hx.toElement.unique hK hy.toElement
  have hd : d = d' := by
    rw [Bool.eq_iff_iff]
    exact hx.deleted_iff.trans hy.deleted_iff.symm
  rw [hd]

omit [DecidableEq N] in
theorem Erased.mono (hKL : K ⊆ L) (h : Erased K e id) : Erased L e id := by
  obtain ⟨f, hf, hop, hseen⟩ := h
  exact ⟨f, hKL hf, hop, hseen⟩

end Elements

section Tracks

variable [DecidableEq V]

/-- An insertion represents one operation more. -/
theorem Rga.Represents.insertAfter {rga rga' : Rga N V} {node : N} {prev : RgaId N} {value : V}
    (h : rga.Represents K) (hK : Closed K) (hnext : Next K e)
    (hcon : Consistent RgaOp.author (insert e K)) (hop : e.op = .insert node prev value)
    (hprev : prev = rgaRootId ∨ prev ∈ rgaIdsOf rga.entries)
    (hinsert : rgaInsertAfter rga node prev value = .ok rga') :
    rga'.Represents (insert e K) := by
  have hsub := Finset.subset_insert e K
  have hauthor : e.op.author = some node := by rw [hop, RgaOp.author]
  have hwf := h.wellFormed.insertAfter hprev hinsert
  rw [h.wellFormed.insertAfter_eq] at hinsert
  cases hinsert
  have hrank : (newEntry rga node prev value).id.2 = rank RgaOp.author (insert e K) e := by
    rw [rank_next hnext hauthor, ← h.clock.ref_eq_count]
    rfl
  -- the new event deletes nothing
  have herased : ∀ {f id}, f ∈ insert e K → (Erased (insert e K) f id ↔ f ∈ K ∧ Erased K f id) := by
    intro f id hf
    constructor
    · rintro ⟨g, hg, hgop, hseen⟩
      have hgK : g ∈ K := by
        rcases Finset.mem_insert.mp hg with rfl | hg
        · rw [hop] at hgop
          cases hgop
        · exact hg
      exact ⟨mem_of_mem_seen hcon hsub hK hgK hf hseen, g, hgK, hgop, hseen⟩
    · exact fun h => h.2.mono hsub
  refine ⟨hwf, fun x hx => ?_, fun f id prev' value' hf => ?_,
    h.clock.set hnext hauthor zero_le_one⟩
  · rcases List.mem_append.mp hx with hx | hx
    · obtain ⟨f, hf⟩ := h.sound x hx
      refine ⟨f, (element_mono hcon hsub hK hf.mem).mp hf.toElement, ?_⟩
      rw [herased (hsub hf.mem), hf.deleted_iff]
      exact ⟨fun h => ⟨hf.mem, h⟩, And.right⟩
    · rw [List.mem_singleton.mp hx]
      refine ⟨e, ⟨Finset.mem_insert_self _ _, hop, hrank⟩, ?_⟩
      rw [herased (Finset.mem_insert_self _ _)]
      exact ⟨fun h => absurd h (by simp [newEntry]), fun h => absurd h.1 hnext.notMem⟩
  · rw [rgaIdsOf, List.map_append, List.mem_append]
    rcases Finset.mem_insert.mp hf.mem with rfl | hmem
    · have hop' := hf.op_eq.symm.trans hop
      injection hop' with hnode
      refine .inr (List.mem_singleton.mpr (Prod.ext hnode ?_))
      rw [hf.rank_eq, hrank]
    · exact .inl (h.complete f id prev' value' ((element_mono hcon hsub hK hmem).mpr hf))

/-- So does a deletion. -/
theorem Rga.Represents.delete {rga : Rga N V} {id : RgaId N} (h : rga.Represents K)
    (hK : Closed K) (hnext : Next K e) (hcon : Consistent RgaOp.author (insert e K))
    (hop : e.op = .delete id) : (rgaDelete rga id).Represents (insert e K) := by
  have hsub := Finset.subset_insert e K
  have hauthor : e.op.author = none := by rw [hop, RgaOp.author]
  have hentries : rgaEntryDelete id rga.entries = _ := rgaEntryDelete_eq h.wellFormed.grown.nodup
  -- the new event has seen all insertions
  have herased : ∀ {f i}, f ∈ K → (Erased (insert e K) f i ↔ i = id ∨ Erased K f i) := by
    intro f i hf
    constructor
    · rintro ⟨g, hg, hgop, hseen⟩
      rcases Finset.mem_insert.mp hg with rfl | hg
      · rw [hop] at hgop
        injection hgop with hid
        exact .inl hid.symm
      · exact .inr ⟨g, hg, hgop, hseen⟩
    · rintro (rfl | h)
      · exact ⟨e, Finset.mem_insert_self _ _, hop, hnext.mem_seen hf⟩
      · exact h.mono hsub
  refine ⟨h.wellFormed.delete id, fun x hx => ?_, fun f i prev value hf => ?_,
    h.clock.anonymous hauthor zero_le_one⟩
  · rw [rgaDelete, hentries, List.mem_map] at hx
    obtain ⟨y, hy, rfl⟩ := hx
    obtain ⟨f, hf⟩ := h.sound y hy
    have helement := (element_mono hcon hsub hK hf.mem).mp hf.toElement
    split
    next hid => exact ⟨f, helement, by simp [herased hf.mem, hid]⟩
    next hid => exact ⟨f, helement, by simp [herased hf.mem, hid, hf.deleted_iff]⟩
  · have hfK : f ∈ K := by
      rcases Finset.mem_insert.mp hf.mem with rfl | hfK
      · exact absurd (hauthor.symm.trans hf.author) (by simp)
      · exact hfK
    have hmem := h.complete f i prev value ((element_mono hcon hsub hK hfK).mpr hf)
    rwa [rgaDelete, rgaIdsOf_delete]

omit [DecidableEq V] in
theorem Rga.Represents.exists_entry {rga : Rga N V} {id prev : RgaId N} {value : V}
    (h : rga.Represents K) (helement : Element K e id prev value) :
    ∃ x, rgaEntryRef id rga.entries = some x ∧ x.id = id := by
  obtain ⟨x, hx, rfl⟩ := List.mem_map.mp (h.complete e id prev value helement)
  exact ⟨x, (mem_iff_rgaEntryRef h.wellFormed.grown.nodup).mp hx, rfl⟩

omit [RgaNode N] in
/-- A deletion that only one side knows, of an entry that only the other has, has seen nothing:
what an event has seen is known with it. -/
theorem erased_union_iff (hcon : Consistent RgaOp.author (K ∪ L)) (hK : Closed K) (hL : Closed L)
    {id : RgaId N} (he : e ∈ K ∪ L) :
    Erased (K ∪ L) e id ↔ e ∈ K ∧ Erased K e id ∨ e ∈ L ∧ Erased L e id := by
  constructor
  · rintro ⟨f, hf, hop, hseen⟩
    rcases Finset.mem_union.mp hf with hf | hf
    · exact .inl ⟨mem_of_mem_seen hcon Finset.subset_union_left hK hf he hseen, f, hf, hop, hseen⟩
    · exact .inr ⟨mem_of_mem_seen hcon Finset.subset_union_right hL hf he hseen, f, hf, hop, hseen⟩
  · rintro (⟨-, h⟩ | ⟨-, h⟩)
    · exact h.mono Finset.subset_union_left
    · exact h.mono Finset.subset_union_right

/-- A merge represents the operations of both sides. -/
theorem Rga.Represents.merge {a b : Rga N V} (hK : Closed K) (hL : Closed L)
    (hcon : Consistent RgaOp.author (K ∪ L)) (ha : a.Represents K) (hb : b.Represents L) :
    (rgaMerge a b).Represents (K ∪ L) := by
  have hsubK : K ⊆ K ∪ L := Finset.subset_union_left
  have hsubL : L ⊆ K ∪ L := Finset.subset_union_right
  have hwf := ha.wellFormed.merge hb.wellFormed
  refine ⟨hwf, fun x hx => ?_, fun e id prev value he => ?_,
    ha.clock.merge hcon hK hL hb.clock⟩
  · rw [mem_iff_rgaEntryRef hwf.grown.nodup] at hx
    change rgaEntryRef x.id (rgaMergeEntries b.entries a.entries) = some x at hx
    rw [rgaEntryRef_merge hb.wellFormed.grown.nodup] at hx
    cases hya : rgaEntryRef x.id a.entries with
    | none =>
      rw [hya, Option.merge_none_left] at hx
      obtain ⟨e, he⟩ := hb.sound x (mem_of_rgaEntryRef hx).1
      refine ⟨e, (element_mono hcon hsubL hL he.mem).mp he.toElement, ?_⟩
      rw [erased_union_iff hcon hK hL (hsubL he.mem), he.deleted_iff]
      refine ⟨fun h => .inr ⟨he.mem, h⟩, fun h => (h.resolve_left fun hk => ?_).2⟩
      have helement := (element_mono hcon hsubL hL he.mem).mp he.toElement
      obtain ⟨y, hy, -⟩ := ha.exists_entry ((element_mono hcon hsubK hK hk.1).mpr helement)
      rw [hya] at hy
      cases hy
    | some y =>
      obtain ⟨hymem, hyid⟩ := mem_of_rgaEntryRef hya
      obtain ⟨e, he⟩ := ha.sound y hymem
      have helement := (element_mono hcon hsubK hK he.mem).mp he.toElement
      cases hyb : rgaEntryRef x.id b.entries with
      | none =>
        rw [hya, hyb, Option.merge_none_right] at hx
        cases hx
        refine ⟨e, helement, ?_⟩
        rw [erased_union_iff hcon hK hL (hsubK he.mem), he.deleted_iff]
        refine ⟨fun h => .inl ⟨he.mem, h⟩, fun h => (h.resolve_right fun hk => ?_).2⟩
        obtain ⟨z, hz, -⟩ := hb.exists_entry ((element_mono hcon hsubL hL hk.1).mpr helement)
        rw [hyb] at hz
        cases hz
      | some z =>
        obtain ⟨hzmem, hzid⟩ := mem_of_rgaEntryRef hyb
        obtain ⟨f, hf⟩ := hb.sound z hzmem
        have hfelement := (element_mono hcon hsubL hL hf.mem).mp hf.toElement
        rw [hzid.trans hyid.symm] at hfelement
        obtain ⟨rfl, -, -⟩ := helement.unique hcon hfelement
        rw [hya, hyb] at hx
        have hx' : rgaMergeEntry y z = x := Option.some.inj hx
        subst hx'
        refine ⟨e, helement, ?_⟩
        rw [erased_union_iff hcon hK hL (hsubK he.mem)]
        simp only [rgaMergeEntry, Bool.or_eq_true, he.deleted_iff, hf.deleted_iff, he.mem,
          hf.mem, true_and, hzid.trans hyid.symm]
  · refine mem_rgaIdsOf_merge.mpr ?_
    rcases Finset.mem_union.mp he.mem with hmem | hmem
    · exact .inl (ha.complete e id prev value ((element_mono hcon hsubK hK hmem).mpr he))
    · exact .inr (hb.complete e id prev value ((element_mono hcon hsubL hL hmem).mpr he))

theorem rga_tracks : Tracks (rgaData N V) fun K rga => rga.Represents K where
  init := by
    refine ⟨Built.make.wellFormed, fun x hx => ?_, fun e id prev value he => ?_, .empty⟩
    · cases hx
    · exact absurd he.mem (Finset.notMem_empty e)
  perform := by
    intro K rga e rga' hK hnext hcoh h hop
    cases hop' : e.op with
    | insert node prev value =>
      rw [hop'] at hop
      obtain ⟨hprev, hinsert⟩ := h.wellFormed.perform_insert hop
      exact h.insertAfter hK.closed hnext hcoh.toConsistent hop' hprev hinsert
    | delete id =>
      rw [hop'] at hop
      cases hop
      exact h.delete hK.closed hnext hcoh.toConsistent hop'
  merge := fun hK hL hcoh ha hb => .merge hK hL hcoh.toConsistent ha hb

end Tracks

/-! ### Reading -/

theorem Rga.Represents.mem_iff {rga : Rga N V} (hK : Consistent RgaOp.author K)
    (h : rga.Represents K) : x ∈ rga.entries ↔ ∃ e, Inserts K e x := by
  refine ⟨h.sound x, ?_⟩
  rintro ⟨e, he⟩
  obtain ⟨y, hy, hid⟩ := List.mem_map.mp (h.complete e _ _ _ he.toElement)
  obtain ⟨f, hf⟩ := h.sound y hy
  rwa [he.unique hK hf hid.symm]

theorem Rga.Represents.perm {a b : Rga N V} (hK : Consistent RgaOp.author K)
    (ha : a.Represents K) (hb : b.Represents K) : a.entries.Perm b.entries := by
  rw [List.perm_ext_iff_of_nodup ha.wellFormed.grown.nodup.of_map hb.wellFormed.grown.nodup.of_map]
  intro x
  rw [ha.mem_iff hK, hb.mem_iff hK]

theorem rgaFrom_congr {item : RgaEntry N V → List α} {entries entries' : List (RgaEntry N V)}
    (h : ∀ p, rgaSortEntries (rgaChildren p entries) = rgaSortEntries (rgaChildren p entries'))
    (calls : ℕ) : rgaFrom item entries calls = rgaFrom item entries' calls := by
  induction calls with
  | zero => rfl
  | succ calls ih =>
    funext p
    rw [rgaFrom, rgaFrom, ih, h]

/-- Different nodes have different canonical strings. -/
def DistinctTexts (N : Type) [Canonical N] : Prop :=
  ∀ m n : N, stringEqual (Canonical.text m) (Canonical.text n) = true → m = n

omit [DecidableEq N] in
theorem DistinctTexts.stamp_inj (h : DistinctTexts N) {i j : RgaId N}
    (hij : rgaStamp i = rgaStamp j) : i = j := by
  have hpair := Prod.mk.inj (toLex.injective hij)
  exact Prod.ext (h _ _ (decide_eq_true hpair.2)) hpair.1

theorem Rga.Represents.values_eq {a b : Rga N V} (hN : DistinctTexts N)
    (hK : Consistent RgaOp.author K) (ha : a.Represents K) (hb : b.Represents K) (calls : ℕ) :
    rgaValues calls a = rgaValues calls b := by
  refine congrFun (rgaFrom_congr (fun p => ?_) calls) rgaRootId
  apply rgaSortEntries_congr
  · rw [rgaChildren_eq, rgaChildren_eq]
    exact (ha.perm hK hb).filter _
  · intro x hx y hy hstamp
    rw [rgaChildren_eq, Forest.mem_children] at hx hy
    exact List.inj_on_of_nodup_map ha.wellFormed.grown.nodup hx.1 hy.1 (hN.stamp_inj hstamp)

theorem Rga.Represents.items {rga : Rga N V} (h : rga.Represents K)
    {visited : List (RgaEntry N V)} (hvisited : ∀ x ∈ visited, x ∈ rga.entries) :
    List.Forall₂ (fun id value => ∃ e prev, Element K e id prev value ∧ ¬Erased K e id)
      (visited.flatMap rgaIdItem) (visited.flatMap rgaValueItem) := by
  induction visited with
  | nil => exact .nil
  | cons x visited ih =>
    rw [List.flatMap_cons, List.flatMap_cons]
    have hrest := ih fun y hy => hvisited y (.tail _ hy)
    obtain ⟨e, he⟩ := h.sound x (hvisited x (.head _))
    cases hdeleted : x.deleted with
    | true => simpa [rgaIdItem, rgaValueItem, hdeleted] using hrest
    | false =>
      simp only [rgaIdItem, rgaValueItem, hdeleted, Bool.false_eq_true, if_false,
        List.singleton_append]
      refine .cons ⟨e, x.prev, he.toElement, fun herased => ?_⟩ hrest
      rw [he.deleted_iff.mpr herased] at hdeleted
      cases hdeleted

theorem Rga.Represents.ids {rga : Rga N V} (hK : Consistent RgaOp.author K)
    (h : rga.Represents K) :
    ((rgaForest.walk rga.entries rgaRootId).flatMap rgaIdItem).Nodup ∧
      ∀ e id prev value, Element K e id prev value → ¬Erased K e id →
        id ∈ (rgaForest.walk rga.entries rgaRootId).flatMap rgaIdItem := by
  have hgrown := h.wellFormed.grown
  have hperm := hgrown.walk_perm
  constructor
  · exact (List.nodup_cons.mp (hgrown.walk_nodup rgaRootId)).2.sublist (sublist_items _)
  · intro e id prev value he herased
    obtain ⟨x, hx, rfl⟩ := List.mem_map.mp (h.complete e id prev value he)
    obtain ⟨f, hf⟩ := h.sound x hx
    obtain ⟨rfl, -, -⟩ := he.unique hK hf.toElement
    refine List.mem_flatMap.mpr ⟨x, hperm.mem_iff.mpr hx, mem_rgaIdItem.mpr ⟨?_, rfl⟩⟩
    rw [← Bool.not_eq_true, hf.deleted_iff]
    exact herased

section Runs

variable [DecidableEq V] {R : Type} [DecidableEq R] {owner : N → R}
  {sys : System R (Rga N V) (RgaOp N V)}

/-- The values of a sequence can be read. -/
def Reads (rga : Rga N V) : Prop :=
  ∃ values, Machine.Yields (fun calls => rgaValues calls rga) values

omit [DecidableEq V] in
theorem Rga.WellFormed.reads {rga : Rga N V} (h : rga.WellFormed) : Reads rga :=
  ⟨_, yields_rgaFrom h.grown rgaValueItem rgaRootId⟩

end Runs

/-! ### Symbols as nodes -/

/-- A symbol, whose name has no zero character. -/
def Symbol : Type :=
  { name : List Char // '\x00' ∉ name }
  deriving DecidableEq

instance : RgaNode Symbol where
  text symbol := Memory.canonicalString (.sym symbol.1)
  rgaRoot := ⟨"rga-root".toList, by decide⟩

theorem distinctTexts_symbol : DistinctTexts Symbol := by
  intro m n h
  rw [stringEqual_iff] at h
  change cText m.1 = cText n.1 at h
  rw [cText_of_notMem m.2, cText_of_notMem n.2] at h
  exact Subtype.ext h

end Eshkol.Core
