import Mathlib.Data.List.Nodup
import Mathlib.Data.List.Perm.Basic
import Mathlib.Tactic.Common

/-!
# Growing Forests

A forest is kept as a list of nodes, each naming its parent: the root, or a node that comes
earlier in the list. New nodes are put at the end, as leaves. The forest is read by a walk that
goes through the children of a node in a given arrangement, each followed by what is below it.
-/

open scoped List

namespace Replication

variable {ε ι : Type} [DecidableEq ι]

/-- How nodes name themselves and their parents, and in which order siblings are visited. -/
structure Forest (ε ι : Type) where
  ident : ε → ι
  parent : ε → ι
  root : ι
  arrange : List ε → List ε
  arrange_perm : ∀ l, (arrange l).Perm l

namespace Forest

variable {F : Forest ε ι} {l : List ε} {e x : ε} {p : ι}

/-- A list of nodes that were added as leaves, one after the other. -/
inductive Grown (F : Forest ε ι) : List ε → Prop
  | nil : Grown F []
  | snoc {l : List ε} {e : ε} (hl : Grown F l)
      (hparent : F.parent e = F.root ∨ F.parent e ∈ l.map F.ident)
      (hfresh : F.ident e ∉ l.map F.ident) (hroot : F.ident e ≠ F.root) : Grown F (l ++ [e])

/-- The nodes with a given parent. -/
def children (F : Forest ε ι) (l : List ε) (p : ι) : List ε := l.filter fun e => F.parent e = p

/-- What is visited below a node, to a given depth. -/
def visits (F : Forest ε ι) (l : List ε) : ℕ → ι → List ε
  | 0, _ => []
  | depth + 1, p => (F.arrange (F.children l p)).flatMap fun e => e :: visits F l depth (F.ident e)

/-- What is visited below a node. -/
def walk (F : Forest ε ι) (l : List ε) (p : ι) : List ε := F.visits l l.length p

/-! ### Depth -/

/-- The place of a node in the list, counted from one; the root is before all nodes. -/
def place (F : Forest ε ι) (l : List ε) (p : ι) : ℕ :=
  if p = F.root then 0 else (l.map F.ident).idxOf p + 1

/-- How deep the forest can be below a node. -/
def height (F : Forest ε ι) (l : List ε) (p : ι) : ℕ := l.length - F.place l p

theorem mem_children : e ∈ F.children l p ↔ e ∈ l ∧ F.parent e = p := by simp [children]

omit [DecidableEq ι] in
theorem mem_arrange : e ∈ F.arrange l ↔ e ∈ l := (F.arrange_perm l).mem_iff

omit [DecidableEq ι] in
theorem Grown.nodup (h : F.Grown l) : (l.map F.ident).Nodup := by
  induction h with
  | nil => exact List.nodup_nil
  | snoc _ _ hfresh _ ih =>
    rw [List.map_append, List.map_singleton, List.nodup_append_comm, List.singleton_append,
      List.nodup_cons]
    exact ⟨hfresh, ih⟩

omit [DecidableEq ι] in
theorem Grown.parent_mem (h : F.Grown l) (he : e ∈ l) :
    F.parent e = F.root ∨ F.parent e ∈ l.map F.ident := by
  induction h with
  | nil => cases he
  | snoc _ hparent _ _ ih =>
    rw [List.map_append, List.mem_append]
    rcases List.mem_append.mp he with he | he
    · exact (ih he).imp id .inl
    · rw [List.mem_singleton.mp he]
      exact hparent.imp id .inl

theorem place_append (hp : p = F.root ∨ p ∈ l.map F.ident) :
    F.place (l ++ [e]) p = F.place l p := by
  unfold place
  split
  next => rfl
  next h =>
    rw [List.map_append, List.idxOf_append_of_mem (hp.resolve_left h)]

theorem Grown.place_lt (h : F.Grown l) (he : e ∈ l) :
    F.place l (F.parent e) < F.place l (F.ident e) := by
  induction h with
  | nil => cases he
  | @snoc l y hl hparent hfresh hroot ih =>
    rcases List.mem_append.mp he with he | he
    · rw [place_append (hl.parent_mem he), place_append (.inr (List.mem_map_of_mem he))]
      exact ih he
    · rw [List.mem_singleton.mp he, place_append hparent]
      have hnew : F.place (l ++ [y]) (F.ident y) = l.length + 1 := by
        rw [place, if_neg hroot, List.map_append, List.idxOf_append_of_notMem hfresh]
        simp
      rw [hnew, place]
      split
      next => exact Nat.succ_pos _
      next h =>
        have := List.idxOf_lt_length_of_mem (hparent.resolve_left h)
        rw [List.length_map] at this
        omega

theorem place_le (he : e ∈ l) : F.place l (F.ident e) ≤ l.length := by
  unfold place
  split
  next => exact Nat.zero_le _
  next =>
    have := List.idxOf_lt_length_of_mem (List.mem_map_of_mem (f := F.ident) he)
    rwa [List.length_map] at this

theorem Grown.height_lt (h : F.Grown l) (he : e ∈ l) :
    F.height l (F.ident e) < F.height l (F.parent e) := by
  have := h.place_lt he
  have := F.place_le he
  unfold height
  omega

theorem Grown.induction {Q : ι → Prop} (h : F.Grown l)
    (step : ∀ p, (∀ e ∈ l, F.parent e = p → Q (F.ident e)) → Q p) (p : ι) : Q p := by
  induction hn : F.height l p using Nat.strongRecOn generalizing p with
  | ind n ih =>
    refine step p fun e he hp => ih _ ?_ _ rfl
    rw [← hn, ← hp]
    exact h.height_lt he

/-! ### Walks -/

theorem Grown.visits_leaf (h : F.Grown l) (hp : F.height l p = 0) (n : ℕ) :
    F.visits l n p = [] := by
  cases n with
  | zero => rfl
  | succ n =>
    rw [visits, List.flatMap_eq_nil_iff]
    intro e he
    have hc := mem_children.mp (mem_arrange.mp he)
    have := h.height_lt hc.1
    rw [hc.2] at this
    omega

theorem Grown.visits_eq (h : F.Grown l) {n m : ℕ} (hn : F.height l p ≤ n)
    (hm : F.height l p ≤ m) : F.visits l n p = F.visits l m p := by
  induction n generalizing m p with
  | zero => rw [h.visits_leaf (Nat.le_zero.mp hn), h.visits_leaf (Nat.le_zero.mp hn)]
  | succ n ih =>
    cases m with
    | zero => rw [h.visits_leaf (Nat.le_zero.mp hm), h.visits_leaf (Nat.le_zero.mp hm)]
    | succ m =>
      rw [visits, visits]
      apply List.flatMap_congr
      intro e he
      have hc := mem_children.mp (mem_arrange.mp he)
      have hlt := h.height_lt hc.1
      rw [hc.2] at hlt
      rw [@ih (F.ident e) m (by omega) (by omega)]

theorem Grown.walk_eq (h : F.Grown l) (p : ι) :
    F.walk l p = (F.arrange (F.children l p)).flatMap fun e => e :: F.walk l (F.ident e) := by
  have hdepth : F.height l p ≤ l.length := Nat.sub_le _ _
  exact h.visits_eq hdepth (Nat.le_succ_of_le hdepth)

theorem Grown.mem_of_mem_walk (h : F.Grown l) (p : ι) (hx : x ∈ F.walk l p) : x ∈ l := by
  induction p using h.induction with
  | step p ih =>
    rw [h.walk_eq, List.mem_flatMap] at hx
    obtain ⟨e, he, hx⟩ := hx
    have hc := mem_children.mp (mem_arrange.mp he)
    rcases List.mem_cons.mp hx with rfl | hx
    · exact hc.1
    · exact ih e hc.1 hc.2 hx

omit [DecidableEq ι] in
theorem Grown.map (h : F.Grown l) {f : ε → ε} (hident : ∀ e, F.ident (f e) = F.ident e)
    (hparent : ∀ e, F.parent (f e) = F.parent e) : F.Grown (l.map f) := by
  have hmap : ∀ l : List ε, (l.map f).map F.ident = l.map F.ident := by
    intro l
    rw [List.map_map]
    exact List.map_congr_left fun e _ => hident e
  induction h with
  | nil => exact .nil
  | @snoc l e hl hp hfresh hroot ih =>
    rw [List.map_append, List.map_singleton]
    refine ih.snoc ?_ ?_ ?_
    · rwa [hparent, hmap]
    · rwa [hident, hmap]
    · rwa [hident]

theorem walk_map {f : ε → ε} (hident : ∀ e, F.ident (f e) = F.ident e)
    (hparent : ∀ e, F.parent (f e) = F.parent e)
    (harrange : ∀ l, F.arrange (l.map f) = (F.arrange l).map f) (l : List ε) (p : ι) :
    F.walk (l.map f) p = (F.walk l p).map f := by
  have hchildren (p : ι) : F.children (l.map f) p = (F.children l p).map f := by
    rw [children, children, List.filter_map]
    congr 1
    exact List.filter_congr fun e _ => by rw [Function.comp_apply, hparent]
  have hvisits (depth : ℕ) (p : ι) : F.visits (l.map f) depth p = (F.visits l depth p).map f := by
    induction depth generalizing p with
    | zero => rfl
    | succ depth ih =>
      rw [visits, visits, hchildren, harrange, List.flatMap_map, List.map_flatMap]
      refine List.flatMap_congr fun e _ => ?_
      rw [hident, ih, List.map_cons]
  rw [walk, walk, List.length_map, hvisits]

/-! ### A new leaf -/

theorem children_snoc : F.children (l ++ [e]) p =
    F.children l p ++ if F.parent e = p then [e] else [] := by
  rw [children, List.filter_append, List.filter_singleton]
  by_cases h : F.parent e = p <;> simp [h, children]

theorem Grown.children_eq_nil (h : F.Grown l) (hp : p ∉ l.map F.ident) (hroot : p ≠ F.root) :
    F.children l p = [] := by
  rw [children, List.filter_eq_nil_iff]
  intro x hx hxp
  rw [decide_eq_true_iff] at hxp
  subst hxp
  exact (h.parent_mem hx).elim hroot hp

theorem Grown.walk_eq_nil (h : F.Grown l) (hp : F.children l p = []) : F.walk l p = [] := by
  rw [h.walk_eq, hp, List.perm_nil.mp (F.arrange_perm []), List.flatMap_nil]

omit [DecidableEq ι] in
theorem exists_block {blocks : List ε} {block : ε → List ι} {q : ι}
    (hq : q ∈ blocks.flatMap block) (h : (blocks.flatMap block).Nodup) :
    ∃ before x after, blocks = before ++ x :: after ∧ q ∈ block x ∧
      (∀ y ∈ before, q ∉ block y) ∧ ∀ y ∈ after, q ∉ block y := by
  obtain ⟨x, hx, hqx⟩ := List.mem_flatMap.mp hq
  obtain ⟨before, after, rfl⟩ := List.append_of_mem hx
  rw [List.flatMap_append, List.flatMap_cons, List.nodup_append] at h
  obtain ⟨_, hrest, hdisj⟩ := h
  rw [List.nodup_append] at hrest
  refine ⟨before, x, after, rfl, hqx, fun y hy hqy => ?_, fun y hy hqy => ?_⟩
  · exact hdisj q (List.mem_flatMap.mpr ⟨y, hy, hqy⟩) q (List.mem_append_left _ hqx) rfl
  · exact hrest.2.2 q hqx q (List.mem_flatMap.mpr ⟨y, hy, hqy⟩) rfl

section Leaf

variable (hl : F.Grown l) (hparent : F.parent e = F.root ∨ F.parent e ∈ l.map F.ident)
  (hfresh : F.ident e ∉ l.map F.ident) (hroot : F.ident e ≠ F.root)

include hl hparent hfresh hroot

omit [DecidableEq ι] hl in
theorem parent_ne_ident : F.parent e ≠ F.ident e := by
  intro h
  rw [h] at hparent
  exact hparent.elim hroot hfresh

theorem walk_leaf : F.walk (l ++ [e]) (F.ident e) = [] := by
  apply (hl.snoc hparent hfresh hroot).walk_eq_nil
  rw [children_snoc, hl.children_eq_nil hfresh hroot,
    if_neg (parent_ne_ident hparent hfresh hroot), List.append_nil]

theorem walk_snoc_of_notMem (p : ι) (hp : F.parent e ≠ p)
    (hwalk : F.parent e ∉ (F.walk l p).map F.ident) : F.walk (l ++ [e]) p = F.walk l p := by
  induction p using hl.induction with
  | step p ih =>
    rw [hl.walk_eq] at hwalk
    rw [(hl.snoc hparent hfresh hroot).walk_eq, hl.walk_eq, children_snoc, if_neg hp,
      List.append_nil]
    apply List.flatMap_congr
    intro x hx
    have hc := mem_children.mp (mem_arrange.mp hx)
    rw [List.map_flatMap, List.mem_flatMap] at hwalk
    rw [ih x hc.1 hc.2 (fun h => hwalk ⟨x, hx, by simp [h]⟩)
      (fun h => hwalk ⟨x, hx, by simp [List.mem_map.mp h]⟩)]

/-- A new entry changes the walk below its parent only. -/
theorem walk_snoc_context (p : ι) (hp : F.parent e ≠ p)
    (hwalk : F.parent e ∈ (F.walk l p).map F.ident)
    (hnodup : ((F.walk l p).map F.ident).Nodup) :
    ∃ before x after, F.ident x = F.parent e ∧
      F.walk l p = before ++ x :: (F.walk l (F.parent e) ++ after) ∧
      F.walk (l ++ [e]) p = before ++ x :: (F.walk (l ++ [e]) (F.parent e) ++ after) := by
  have hl' := hl.snoc hparent hfresh hroot
  induction p using hl.induction with
  | step p ih =>
    have hmap : (F.walk l p).map F.ident = (F.arrange (F.children l p)).flatMap fun y =>
        F.ident y :: (F.walk l (F.ident y)).map F.ident := by
      rw [hl.walk_eq, List.map_flatMap]
      rfl
    rw [hmap] at hwalk hnodup
    obtain ⟨bs, x, cs, hsplit, hx, hbs, hcs⟩ := exists_block hwalk hnodup
    have hmem : x ∈ F.arrange (F.children l p) := by simp [hsplit]
    have hc := mem_children.mp (mem_arrange.mp hmem)
    -- the other children are not affected
    have hsame : ∀ y, y ∈ bs ∨ y ∈ cs →
        y :: F.walk (l ++ [e]) (F.ident y) = y :: F.walk l (F.ident y) := by
      intro y hy
      have hq : F.parent e ∉ F.ident y :: (F.walk l (F.ident y)).map F.ident :=
        hy.elim (hbs y) (hcs y)
      rw [List.mem_cons, not_or] at hq
      rw [walk_snoc_of_notMem hl hparent hfresh hroot _ hq.1 hq.2]
    have hold : F.walk l p = (bs.flatMap fun y => y :: F.walk l (F.ident y)) ++
        (x :: F.walk l (F.ident x)) ++ cs.flatMap fun y => y :: F.walk l (F.ident y) := by
      rw [hl.walk_eq, hsplit]
      simp
    have hnew : F.walk (l ++ [e]) p = (bs.flatMap fun y => y :: F.walk l (F.ident y)) ++
        (x :: F.walk (l ++ [e]) (F.ident x)) ++
          cs.flatMap fun y => y :: F.walk l (F.ident y) := by
      rw [hl'.walk_eq, children_snoc, if_neg hp, List.append_nil, hsplit, List.flatMap_append,
        List.flatMap_cons, List.flatMap_congr fun y hy => hsame y (.inl hy),
        List.flatMap_congr fun y hy => hsame y (.inr hy)]
      simp
    rcases List.mem_cons.mp hx with heq | hx
    · refine ⟨bs.flatMap fun y => y :: F.walk l (F.ident y), x,
        cs.flatMap fun y => y :: F.walk l (F.ident y), heq.symm, ?_, ?_⟩
      · rw [hold, heq, List.append_assoc, List.cons_append]
      · rw [hnew, heq, List.append_assoc, List.cons_append]
    · have hinner : ((F.walk l (F.ident x)).map F.ident).Nodup :=
        (List.nodup_flatMap.mp hnodup).1 x hmem |>.of_cons
      have hne : F.parent e ≠ F.ident x := by
        intro heq
        have hcons := (List.nodup_flatMap.mp hnodup).1 x hmem
        rw [heq] at hx
        exact (List.nodup_cons.mp hcons).1 hx
      obtain ⟨before, z, after, hz, hzold, hznew⟩ := ih x hc.1 hc.2 hne hx hinner
      refine ⟨(bs.flatMap fun y => y :: F.walk l (F.ident y)) ++ x :: before, z,
        after ++ cs.flatMap fun y => y :: F.walk l (F.ident y), hz, ?_, ?_⟩
      · rw [hold, hzold]
        simp
      · rw [hnew, hznew]
        simp

theorem walk_snoc_sibling (hq : F.parent e ∉ (F.walk l (F.parent e)).map F.ident)
    (hx : x ∈ F.children l (F.parent e)) :
    F.walk (l ++ [e]) (F.ident x) = F.walk l (F.ident x) := by
  rw [hl.walk_eq, List.map_flatMap, List.mem_flatMap] at hq
  apply walk_snoc_of_notMem hl hparent hfresh hroot
  · exact fun h => hq ⟨x, mem_arrange.mpr hx, by simp [h]⟩
  · exact fun h => hq ⟨x, mem_arrange.mpr hx, by simp [List.mem_map.mp h]⟩

theorem walk_snoc_parent (hq : F.parent e ∉ (F.walk l (F.parent e)).map F.ident) {S T : List ε}
    (hold : F.arrange (F.children l (F.parent e)) = S ++ T)
    (hnew : F.arrange (F.children l (F.parent e) ++ [e]) = S ++ e :: T) :
    F.walk l (F.parent e) = (S.flatMap fun y => y :: F.walk l (F.ident y)) ++
        (T.flatMap fun y => y :: F.walk l (F.ident y)) ∧
      F.walk (l ++ [e]) (F.parent e) = (S.flatMap fun y => y :: F.walk l (F.ident y)) ++
        e :: (T.flatMap fun y => y :: F.walk l (F.ident y)) := by
  have hsame : ∀ y, y ∈ S ∨ y ∈ T →
      y :: F.walk (l ++ [e]) (F.ident y) = y :: F.walk l (F.ident y) := by
    intro y hy
    have hmem : y ∈ F.arrange (F.children l (F.parent e)) := by rw [hold]; simp [hy]
    rw [walk_snoc_sibling hl hparent hfresh hroot hq (mem_arrange.mp hmem)]
  constructor
  · rw [hl.walk_eq, hold, List.flatMap_append]
  · rw [(hl.snoc hparent hfresh hroot).walk_eq, children_snoc, if_pos rfl, hnew,
      List.flatMap_append, List.flatMap_cons, walk_leaf hl hparent hfresh hroot,
      List.flatMap_congr fun y hy => hsame y (.inl hy),
      List.flatMap_congr fun y hy => hsame y (.inr hy), List.singleton_append]

theorem walk_snoc_parent_perm (hq : F.parent e ∉ (F.walk l (F.parent e)).map F.ident) :
    (F.walk (l ++ [e]) (F.parent e)).Perm (e :: F.walk l (F.parent e)) := by
  have hsame : ∀ y ∈ F.children l (F.parent e),
      y :: F.walk (l ++ [e]) (F.ident y) = y :: F.walk l (F.ident y) := by
    intro y hy
    rw [walk_snoc_sibling hl hparent hfresh hroot hq hy]
  rw [(hl.snoc hparent hfresh hroot).walk_eq, hl.walk_eq, children_snoc, if_pos rfl]
  calc ((F.arrange (F.children l (F.parent e) ++ [e])).flatMap
        fun y => y :: F.walk (l ++ [e]) (F.ident y))
      ~ (F.children l (F.parent e) ++ [e]).flatMap
          (fun y => y :: F.walk (l ++ [e]) (F.ident y)) := (F.arrange_perm _).flatMap_right _
    _ = (F.children l (F.parent e)).flatMap (fun y => y :: F.walk l (F.ident y)) ++ [e] := by
        rw [List.flatMap_append, List.flatMap_singleton, walk_leaf hl hparent hfresh hroot,
          List.flatMap_congr hsame]
    _ ~ e :: (F.children l (F.parent e)).flatMap (fun y => y :: F.walk l (F.ident y)) :=
        List.perm_append_singleton _ _
    _ ~ e :: (F.arrange (F.children l (F.parent e))).flatMap
          (fun y => y :: F.walk l (F.ident y)) := ((F.arrange_perm _).symm.flatMap_right _).cons _

theorem walk_snoc_perm (p : ι) (hq : F.parent e ∉ (F.walk l (F.parent e)).map F.ident)
    (hnodup : ((F.walk l p).map F.ident).Nodup)
    (hwalk : F.parent e = p ∨ F.parent e ∈ (F.walk l p).map F.ident) :
    F.walk (l ++ [e]) p ~ e :: F.walk l p := by
  have hperm := walk_snoc_parent_perm hl hparent hfresh hroot hq
  by_cases hp : F.parent e = p
  · rwa [← hp]
  · obtain ⟨before, x, after, _, hold, hnew⟩ := walk_snoc_context hl hparent hfresh hroot p hp
      (hwalk.resolve_left hp) hnodup
    calc F.walk (l ++ [e]) p
        = before ++ x :: (F.walk (l ++ [e]) (F.parent e) ++ after) := hnew
      _ ~ before ++ x :: (e :: F.walk l (F.parent e) ++ after) :=
          ((hperm.append_right after).cons x).append_left before
      _ ~ before ++ e :: (x :: (F.walk l (F.parent e) ++ after)) :=
          (List.Perm.swap e x _).append_left before
      _ ~ e :: (before ++ x :: (F.walk l (F.parent e) ++ after)) := List.perm_middle
      _ = e :: F.walk l p := by rw [hold]

end Leaf

theorem Grown.walk_nodup (h : F.Grown l) (p : ι) : (p :: (F.walk l p).map F.ident).Nodup := by
  induction h generalizing p with
  | nil => simp [walk, visits]
  | @snoc l e hl hparent hfresh hroot ih =>
    have hq := (List.nodup_cons.mp (ih (F.parent e))).1
    have hp := List.nodup_cons.mp (ih p)
    by_cases hwalk : F.parent e = p ∨ F.parent e ∈ (F.walk l p).map F.ident
    · have hperm := (walk_snoc_perm hl hparent hfresh hroot p hq hp.2 hwalk).map F.ident
      have hep : p ≠ F.ident e := by
        rintro rfl
        rw [hl.walk_eq_nil (hl.children_eq_nil hfresh hroot)] at hwalk
        exact hwalk.elim (parent_ne_ident hparent hfresh hroot) List.not_mem_nil
      have hnew : F.ident e ∉ (F.walk l p).map F.ident := by
        intro hmem
        obtain ⟨y, hy, hye⟩ := List.mem_map.mp hmem
        exact hfresh (hye ▸ List.mem_map_of_mem (hl.mem_of_mem_walk p hy))
      rw [List.nodup_cons, hperm.mem_iff, hperm.nodup_iff, List.map_cons, List.mem_cons, not_or,
        List.nodup_cons]
      exact ⟨⟨hep, hp.1⟩, hnew, hp.2⟩
    · rw [not_or] at hwalk
      rw [walk_snoc_of_notMem hl hparent hfresh hroot p hwalk.1 hwalk.2]
      exact ih p

theorem Grown.walk_perm (h : F.Grown l) : F.walk l F.root ~ l := by
  induction h with
  | nil => simp [walk, visits]
  | @snoc l e hl hparent hfresh hroot ih =>
    have hq := (List.nodup_cons.mp (hl.walk_nodup (F.parent e))).1
    have hp := (List.nodup_cons.mp (hl.walk_nodup F.root)).2
    have hwalk : F.parent e = F.root ∨ F.parent e ∈ (F.walk l F.root).map F.ident := by
      rwa [(ih.map F.ident).mem_iff]
    calc F.walk (l ++ [e]) F.root
        ~ e :: F.walk l F.root := walk_snoc_perm hl hparent hfresh hroot _ hq hp hwalk
      _ ~ e :: l := ih.cons e
      _ ~ l ++ [e] := (List.perm_append_singleton e l).symm

end Forest

end Replication
