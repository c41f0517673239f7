import Eshkol.Core.Rga

/-!
# Inserting into a Sequence

Where `rga-insert-after` puts a value. The new entry is sorted among the entries that were
inserted after the same entry, by increasing counter, and what was inserted after a lesser entry
comes before it: of two values inserted after the root by one node, the second comes after the
first.
-/

open Machine Replication

namespace Eshkol.Core

variable {N V : Type} [DecidableEq N] [RgaNode N]

/-- The values that are visible at an entry and below it. -/
def rgaBlock (entries : List (RgaEntry N V)) (x : RgaEntry N V) : List V :=
  (x :: rgaForest.walk entries x.id).flatMap rgaValueItem

omit [DecidableEq N] [RgaNode N] in
theorem append_singleton_eq_cons_iff {l : List V} {v : V} : l ++ [v] = v :: l ↔ ∀ w ∈ l, w = v := by
  induction l with
  | nil => simp
  | cons x l ih =>
    rw [List.cons_append, List.cons.injEq, List.forall_mem_cons]
    constructor
    · rintro ⟨rfl, h⟩
      exact ⟨rfl, ih.mp h⟩
    · rintro ⟨rfl, h⟩
      exact ⟨rfl, ih.mpr h⟩

theorem swap_block_iff {before block after : List V} {v : V} :
    before ++ block ++ v :: after = before ++ v :: (block ++ after) ↔ ∀ w ∈ block, w = v := by
  rw [← append_singleton_eq_cons_iff, List.append_assoc, List.append_cancel_left_eq]
  constructor
  · intro h
    have h' : (block ++ [v]) ++ after = (v :: block) ++ after := by simpa using h
    exact List.append_cancel_right h'
  · intro h
    calc block ++ v :: after = (block ++ [v]) ++ after := by simp
      _ = (v :: block) ++ after := by rw [h]
      _ = v :: (block ++ after) := rfl

section Insert

variable {rga : Rga N V} {node : N} {p : RgaId N} {v : V}

/-- The values before and after an insertion after `p`: the new value comes after the blocks of
the lesser entries inserted after `p`. -/
theorem Rga.WellFormed.values_insert (h : rga.WellFormed) (node : N) (v : V)
    (hp : p = rgaRootId ∨ p ∈ rgaIdsOf rga.entries) :
    ∃ S T : List (RgaEntry N V), (∀ x, x ∈ S ↔ x ∈ rgaChildren p rga.entries ∧
        rgaEntryLess x (newEntry rga node p v) = true) ∧
      (rgaForest.walk rga.entries p).flatMap rgaValueItem =
        S.flatMap (rgaBlock rga.entries) ++ T.flatMap (rgaBlock rga.entries) ∧
      (rgaForest.walk (rga.entries ++ [newEntry rga node p v]) p).flatMap rgaValueItem =
        S.flatMap (rgaBlock rga.entries) ++ v :: T.flatMap (rgaBlock rga.entries) := by
  obtain ⟨S, T, hold, hnew, hS, hT⟩ :=
    rgaSortEntries_snoc (rgaForest.children rga.entries p) (newEntry rga node p v)
  have hq := (List.nodup_cons.mp (h.grown.walk_nodup p)).1
  obtain ⟨hwalk, hwalk'⟩ := @Forest.walk_snoc_parent _ _ _ rgaForest rga.entries
    (newEntry rga node p v) h.grown hp (h.newEntry_notMem node p v) (h.newEntry_ne_root node p v)
    hq S T hold hnew
  refine ⟨S, T, fun x => ?_, ?_, ?_⟩
  · have hmem : x ∈ S ∨ x ∈ T ↔ x ∈ rgaChildren p rga.entries := by
      rw [← List.mem_append, ← hold, (rgaSortEntries_perm _).mem_iff, rgaChildren_eq]
    rw [← hmem]
    constructor
    · exact fun hx => ⟨.inl hx, hS x hx⟩
    · rintro ⟨hx | hx, hless⟩
      · exact hx
      · rw [hT x hx] at hless
        cases hless
  · exact (congrArg (List.flatMap rgaValueItem) hwalk).trans (by
      rw [List.flatMap_append, List.flatMap_assoc, List.flatMap_assoc]
      rfl)
  · exact (congrArg (List.flatMap rgaValueItem) hwalk').trans (by
      rw [List.flatMap_append, List.flatMap_cons, List.flatMap_assoc, List.flatMap_assoc]
      rfl)

theorem Rga.WellFormed.walk_insert (h : rga.WellFormed) (node : N) (v : V) (hroot : p ≠ rgaRootId)
    (hp : p ∈ rgaIdsOf rga.entries) :
    ∃ before x after, x ∈ rga.entries ∧ x.id = p ∧
      rgaForest.walk rga.entries rgaRootId =
        before ++ x :: (rgaForest.walk rga.entries p ++ after) ∧
      rgaForest.walk (rga.entries ++ [newEntry rga node p v]) rgaRootId =
        before ++ x :: (rgaForest.walk (rga.entries ++ [newEntry rga node p v]) p ++ after) := by
  have hperm := h.grown.walk_perm
  have hnodup := (List.nodup_cons.mp (h.grown.walk_nodup rgaRootId)).2
  have hmem : p ∈ (rgaForest.walk rga.entries rgaRootId).map rgaForest.ident :=
    (hperm.map _).mem_iff.mpr hp
  obtain ⟨before, x, after, hx, hold, hnew⟩ := @Forest.walk_snoc_context _ _ _ rgaForest
    rga.entries (newEntry rga node p v) h.grown (.inr hp) (h.newEntry_notMem node p v)
    (h.newEntry_ne_root node p v) rgaRootId hroot hmem hnodup
  refine ⟨before, x, after, h.grown.mem_of_mem_walk rgaRootId ?_, hx, hold, hnew⟩
  rw [hold]
  simp

omit [RgaNode N] in
theorem idxOf_visible {before after : List (RgaEntry N V)} {x : RgaEntry N V}
    (hnodup : ((before ++ x :: after).map RgaEntry.id).Nodup) (hx : x.deleted = false) :
    ((before ++ x :: after).flatMap rgaIdItem).idxOf x.id = (before.flatMap rgaIdItem).length := by
  rw [List.map_append, List.map_cons, List.nodup_append] at hnodup
  have hnot : x.id ∉ before.flatMap rgaIdItem := by
    intro hmem
    obtain ⟨y, hy, hmem⟩ := List.mem_flatMap.mp hmem
    rw [(mem_rgaIdItem.mp hmem).2] at hnodup
    exact hnodup.2.2 _ (List.mem_map_of_mem hy) _ (.head _) rfl
  rw [List.flatMap_append, List.flatMap_cons, List.idxOf_append_of_notMem hnot]
  simp [rgaIdItem, hx]

omit [DecidableEq N] [RgaNode N] in
theorem length_items (l : List (RgaEntry N V)) :
    (l.flatMap rgaValueItem).length = (l.flatMap rgaIdItem).length := by
  induction l with
  | nil => rfl
  | cons x l ih =>
    rw [List.flatMap_cons, List.flatMap_cons, List.length_append, List.length_append, ih]
    unfold rgaValueItem rgaIdItem
    split <;> rfl

/-- The position right after the element of `p`, at the head for the root. -/
def positionAfter (ids : List (RgaId N)) (p : RgaId N) : ℕ :=
  if p = rgaRootId then 0 else ids.idxOf p + 1

/-- Where a new entry stands among the values. -/
theorem Rga.WellFormed.values_split (h : rga.WellFormed) (node : N) (v : V)
    (hp : p = rgaRootId ∨ ∃ x ∈ rga.entries, x.id = p ∧ x.deleted = false) :
    ∃ (before after : List V) (S : List (RgaEntry N V)),
      (∀ x, x ∈ S ↔ x ∈ rgaChildren p rga.entries ∧ rgaEntryLess x (newEntry rga node p v) = true) ∧
      (rgaForest.walk rga.entries rgaRootId).flatMap rgaValueItem =
        before ++ (S.flatMap (rgaBlock rga.entries) ++ after) ∧
      (rgaForest.walk (rga.entries ++ [newEntry rga node p v]) rgaRootId).flatMap rgaValueItem =
        before ++ S.flatMap (rgaBlock rga.entries) ++ v :: after ∧
      positionAfter ((rgaForest.walk rga.entries rgaRootId).flatMap rgaIdItem) p =
        before.length := by
  have hids : p = rgaRootId ∨ p ∈ rgaIdsOf rga.entries := by
    refine hp.imp id ?_
    rintro ⟨x, hx, rfl, -⟩
    exact List.mem_map_of_mem hx
  obtain ⟨S, T, hS, hold, hnew⟩ := h.values_insert node v hids
  by_cases hroot : p = rgaRootId
  · subst hroot
    exact ⟨[], _, S, hS, hold, hnew, if_pos rfl⟩
  · obtain ⟨before, x, after, hx, rfl, hwalk, hwalk'⟩ :=
      h.walk_insert node v hroot (hids.resolve_left hroot)
    -- the entry with the id is the visible one
    have hlive : x.deleted = false := by
      obtain ⟨y, hy, hyx, hlive⟩ := hp.resolve_left hroot
      rwa [← List.inj_on_of_nodup_map h.grown.nodup hy hx hyx]
    have hnodup := (List.nodup_cons.mp (h.grown.walk_nodup rgaRootId)).2
    rw [hwalk] at hnodup
    refine ⟨before.flatMap rgaValueItem ++ [x.value],
      T.flatMap (rgaBlock rga.entries) ++ after.flatMap rgaValueItem, S, hS, ?_, ?_, ?_⟩
    · rw [hwalk, List.flatMap_append, List.flatMap_cons, List.flatMap_append, hold]
      simp [rgaValueItem, hlive]
    · rw [hwalk', List.flatMap_append, List.flatMap_cons, List.flatMap_append, hnew]
      simp [rgaValueItem, hlive]
    · rw [positionAfter, if_neg hroot, hwalk, idxOf_visible hnodup hlive, List.length_append,
        length_items]
      rfl

/-- The lesser entries inserted after `p` show nothing but `v`, neither themselves nor below. -/
def LesserShowOnly (rga : Rga N V) (node : N) (p : RgaId N) (v : V) : Prop :=
  ∀ x ∈ rgaChildren p rga.entries,
    rgaIdLess x.id (node, vectorClockRef rga.clock node + 1) = true →
      ∀ out, Machine.Yields (fun calls => rgaValuesFrom rga.entries calls x.id) out →
        ∀ w ∈ rgaValueItem x ++ out, w = v

theorem Rga.WellFormed.lesserShowOnly_iff (h : rga.WellFormed) {S : List (RgaEntry N V)}
    (hS : ∀ x, x ∈ S ↔ x ∈ rgaChildren p rga.entries ∧
      rgaEntryLess x (newEntry rga node p v) = true) :
    LesserShowOnly rga node p v ↔ ∀ w ∈ S.flatMap (rgaBlock rga.entries), w = v := by
  constructor
  · intro hshow w hw
    obtain ⟨x, hx, hw⟩ := List.mem_flatMap.mp hw
    exact hshow x ((hS x).mp hx).1 ((hS x).mp hx).2 _ (yields_rgaFrom h.grown rgaValueItem x.id) w
      hw
  · intro hshow x hx hless out hout w hw
    rw [hout.unique (yields_rgaFrom h.grown rgaValueItem x.id)] at hw
    exact hshow w (List.mem_flatMap.mpr ⟨x, (hS x).mpr ⟨hx, hless⟩, hw⟩)

end Insert

/-- Under the value 1 of node `a` there are a deleted value of node `b` and the value 2. -/
def siblingsRga : Rga Memory.Sexp ℕ :=
  ⟨[⟨(.sym ['a'], 1), rgaRootId, 1, false⟩, ⟨(.sym ['b'], 1), (.sym ['a'], 1), 8, true⟩,
    ⟨(.sym ['a'], 2), (.sym ['a'], 1), 2, false⟩], [(.sym ['a'], 2), (.sym ['b'], 1)]⟩

theorem built_siblingsRga : Built siblingsRga := by
  have hone : Built (_ : Rga Memory.Sexp ℕ) := .insertAfter .make (.inl rfl)
    (show rgaInsertAfter _ (.sym ['a']) rgaRootId 1 = _ from rfl)
  have height : Built (_ : Rga Memory.Sexp ℕ) := .insertAfter hone (.inr List.mem_cons_self)
    (show rgaInsertAfter _ (Memory.Sexp.sym ['b']) (.sym ['a'], 1) 8 = _ from rfl)
  exact .insertAfter (height.delete (.sym ['b'], 1)) (.inr List.mem_cons_self)
    (show rgaInsertAfter _ (Memory.Sexp.sym ['a']) (.sym ['a'], 1) 2 = _ from rfl)

end Eshkol.Core
