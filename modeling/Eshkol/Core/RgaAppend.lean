import Eshkol.Core.RgaInsert

/-!
# Appending to a Sequence and Deleting from It

`rga-append` inserts after the last visible entry of the walk. Everything that is visited after
that entry has been deleted, be it below it or not, so that the new value is the last one wherever
it is sorted among the deleted entries. `rga-delete` marks an entry and leaves it, and what was
inserted after it, where it is.
-/

open Machine Replication

namespace Eshkol.Core

variable {N V : Type} [DecidableEq N] [RgaNode N] {rga : Rga N V}

/-! ### Appending -/

omit [DecidableEq N] [RgaNode N] in
theorem flatMap_rgaValueItem_eq_nil {l : List (RgaEntry N V)} (h : l.flatMap rgaIdItem = []) :
    l.flatMap rgaValueItem = [] := by
  rw [← List.length_eq_zero_iff, length_items, h, List.length_nil]

theorem Rga.WellFormed.nodup_ids (h : rga.WellFormed) :
    ((rgaForest.walk rga.entries rgaRootId).flatMap rgaIdItem).Nodup :=
  (List.nodup_cons.mp (h.grown.walk_nodup rgaRootId)).2.sublist (sublist_items _)

omit [RgaNode N] [DecidableEq N] in
theorem visible_eq_nil_of_last {before after : List (RgaEntry N V)} {x : RgaEntry N V}
    {root : RgaId N} (hlive : x.deleted = false)
    (hnodup : ((before ++ x :: after).flatMap rgaIdItem).Nodup)
    (hlast : ((before ++ x :: after).flatMap rgaIdItem).getLastD root = x.id) :
    after.flatMap rgaIdItem = [] := by
  have hids : (before ++ x :: after).flatMap rgaIdItem =
      before.flatMap rgaIdItem ++ x.id :: after.flatMap rgaIdItem := by
    rw [List.flatMap_append, List.flatMap_cons]
    simp [rgaIdItem, hlive]
  rw [hids] at hnodup hlast
  by_contra hne
  obtain ⟨ids, id, hid⟩ := List.eq_nil_or_concat _ |>.resolve_left hne
  rw [hid, List.concat_eq_append] at hnodup hlast
  have hlast' : id = x.id := by
    rw [← hlast, ← List.cons_append, ← List.append_assoc, List.getLastD_concat]
  rw [List.nodup_append, List.nodup_cons] at hnodup
  exact hnodup.2.1.1 (by simp [hlast'])

theorem Rga.WellFormed.values_insert_of_hidden {p : RgaId N} (h : rga.WellFormed) (node : N) (v : V)
    (hp : p = rgaRootId ∨ p ∈ rgaIdsOf rga.entries)
    (hhidden : (rgaForest.walk rga.entries p).flatMap rgaValueItem = []) :
    (rgaForest.walk (rga.entries ++ [newEntry rga node p v]) p).flatMap rgaValueItem = [v] := by
  obtain ⟨S, T, -, hold, hnew⟩ := h.values_insert node v hp
  rw [hhidden, eq_comm, List.append_eq_nil_iff] at hold
  rw [hnew, hold.1, hold.2]
  rfl

/-- An entry that is appended is the last value. -/
theorem Rga.WellFormed.values_append {last : RgaId N} (h : rga.WellFormed) (node : N) (v : V)
    (hlast : ((rgaForest.walk rga.entries rgaRootId).flatMap rgaIdItem).getLastD rgaRootId = last) :
    (rgaForest.walk (rga.entries ++ [newEntry rga node last v]) rgaRootId).flatMap rgaValueItem =
      (rgaForest.walk rga.entries rgaRootId).flatMap rgaValueItem ++ [v] := by
  by_cases hnone : (rgaForest.walk rga.entries rgaRootId).flatMap rgaIdItem = []
  · -- nothing is visible, and the root is the last id
    rw [hnone] at hlast
    subst hlast
    have hhidden := flatMap_rgaValueItem_eq_nil hnone
    rw [hhidden]
    exact h.values_insert_of_hidden node v (.inl rfl) hhidden
  · have hmem : last ∈ (rgaForest.walk rga.entries rgaRootId).flatMap rgaIdItem := by
      rw [← hlast, List.getLastD_eq_getLast?, List.getLast?_eq_some_getLast hnone]
      exact List.getLast_mem hnone
    obtain ⟨y, hy, hylast⟩ := List.mem_flatMap.mp hmem
    obtain ⟨hylive, hyid⟩ := mem_rgaIdItem.mp hylast
    have hyentry := h.grown.mem_of_mem_walk rgaRootId hy
    have hids : last ∈ rgaIdsOf rga.entries := hyid ▸ List.mem_map_of_mem hyentry
    have hroot : last ≠ rgaRootId := by
      rintro rfl
      exact absurd (h.covered _ hids).1 (by simp [rgaRootId])
    obtain ⟨before, x, after, hx, rfl, hwalk, hwalk'⟩ := h.walk_insert node v hroot hids
    have hlive : x.deleted = false := by
      rwa [List.inj_on_of_nodup_map h.grown.nodup hx hyentry hyid]
    have hhidden := visible_eq_nil_of_last hlive (hwalk ▸ h.nodup_ids) (hwalk ▸ hlast)
    rw [List.flatMap_append, List.append_eq_nil_iff] at hhidden
    have hbelow := flatMap_rgaValueItem_eq_nil hhidden.1
    have hafter := flatMap_rgaValueItem_eq_nil hhidden.2
    rw [hwalk, hwalk']
    simp only [List.flatMap_append, List.flatMap_cons, hbelow, hafter,
      h.values_insert_of_hidden node v (.inr hids) hbelow, List.append_nil, List.append_assoc]

/-! ### Deleting -/

omit [DecidableEq N] in
theorem rgaInsertEntrySorted_map {f : RgaEntry N V → RgaEntry N V} (hf : ∀ x, (f x).id = x.id)
    (entry : RgaEntry N V) (sorted : List (RgaEntry N V)) :
    rgaInsertEntrySorted (f entry) (sorted.map f) = (rgaInsertEntrySorted entry sorted).map f := by
  induction sorted with
  | nil => rfl
  | cons first sorted ih =>
    have hless : rgaEntryLess (f entry) (f first) = rgaEntryLess entry first := by
      rw [rgaEntryLess, rgaEntryLess, hf, hf]
    rw [List.map_cons, rgaInsertEntrySorted, rgaInsertEntrySorted, ih, hless]
    split
    next => rfl
    next => rfl

omit [DecidableEq N] in
theorem rgaSortEntries_map {f : RgaEntry N V → RgaEntry N V} (hf : ∀ x, (f x).id = x.id)
    (entries : List (RgaEntry N V)) :
    rgaSortEntries (entries.map f) = (rgaSortEntries entries).map f := by
  induction entries with
  | nil => rfl
  | cons entry entries ih =>
    rw [List.map_cons, rgaSortEntries, rgaSortEntries, ih, rgaInsertEntrySorted_map hf]

omit [RgaNode N] in
theorem flatMap_marked (id : RgaId N) (l : List (RgaEntry N V)) :
    (l.map fun x => if x.id = id then ⟨x.id, x.prev, x.value, true⟩ else x).flatMap rgaValueItem =
      ((((l.flatMap rgaIdItem).zip (l.flatMap rgaValueItem)).filter fun p => p.1 ≠ id).map
        Prod.snd) := by
  induction l with
  | nil => rfl
  | cons x l ih =>
    rw [List.map_cons, List.flatMap_cons, ih, List.flatMap_cons, List.flatMap_cons]
    unfold rgaIdItem rgaValueItem
    by_cases hid : x.id = id <;> cases hdel : x.deleted <;> simp [hid, hdel]

theorem Rga.WellFormed.values_delete (h : rga.WellFormed) (id : RgaId N) :
    (rgaForest.walk (rgaDelete rga id).entries rgaRootId).flatMap rgaValueItem =
      (((((rgaForest.walk rga.entries rgaRootId).flatMap rgaIdItem).zip
        ((rgaForest.walk rga.entries rgaRootId).flatMap rgaValueItem)).filter
          fun p => p.1 ≠ id).map Prod.snd) := by
  have hmark (x : RgaEntry N V) :
      (if x.id = id then ⟨x.id, x.prev, x.value, true⟩ else x : RgaEntry N V).id = x.id := by
    split <;> rfl
  have hprev (x : RgaEntry N V) :
      (if x.id = id then ⟨x.id, x.prev, x.value, true⟩ else x : RgaEntry N V).prev = x.prev := by
    split <;> rfl
  rw [rgaDelete, rgaEntryDelete_eq h.grown.nodup]
  rw [Forest.walk_map (F := rgaForest) hmark hprev (rgaSortEntries_map hmark), flatMap_marked]

end Eshkol.Core
