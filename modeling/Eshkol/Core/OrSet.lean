import Eshkol.Core.VectorClock

/-!
# Observed-Remove Sets

The observed-remove set of `lib/core/distributed.esk`. Every addition is stamped with a dot, the
node and its counter; a removal stores the dots of the additions of the value that the replica
has. A value is a member when one of its dots is not stored as removed.

Values and nodes are taken up to `equal?`, as an equivalence like in vector clocks.
-/

open Machine Replication

namespace Eshkol.Core

variable {N V α : Type} [DecidableEq N] [DecidableEq V] [DecidableEq α]

/-! ### The source -/

def distributedConsUnique (value : α) (values : List α) : List α :=
  if value ∈ values then values else value :: values

def distributedListUnion : List α → List α → List α
  | a, [] => a
  | a, value :: b => distributedListUnion (distributedConsUnique value a) b

/-- `#(or-set adds removals clock)`. -/
structure OrSet (N V : Type) : Type where
  adds : List (V × (N × ℤ))
  removes : List (N × ℤ)
  clock : VectorClock N
  deriving DecidableEq

def makeOrSet : OrSet N V := ⟨[], [], []⟩

def orSetActiveDot (dot : N × ℤ) (removals : List (N × ℤ)) : Bool := !removals.contains dot

def orSetActiveDotsFor (removals : List (N × ℤ)) (value : V) : List (V × (N × ℤ)) → List (N × ℤ)
  | [] => []
  | entry :: adds =>
    if entry.1 = value ∧ orSetActiveDot entry.2 removals then
      entry.2 :: orSetActiveDotsFor removals value adds
    else orSetActiveDotsFor removals value adds

def orSetAdd (set : OrSet N V) (node : N) (value : V) : Exec AmountError (OrSet N V) := do
  let clock ← vectorClockTick set.clock node []
  .ok ⟨distributedConsUnique (value, (node, vectorClockRef clock node)) set.adds,
    set.removes, clock⟩

def orSetRemove (set : OrSet N V) (value : V) : OrSet N V :=
  ⟨set.adds, distributedListUnion set.removes
    (orSetActiveDotsFor set.removes value set.adds), set.clock⟩

def orSetMember (set : OrSet N V) (value : V) : Bool :=
  !(orSetActiveDotsFor set.removes value set.adds).isEmpty

def orSetElementsLoop (removals : List (N × ℤ)) : List (V × (N × ℤ)) → List V → List V
  | [], seen => seen
  | entry :: adds, seen =>
    if orSetActiveDot entry.2 removals ∧ entry.1 ∉ seen then
      orSetElementsLoop removals adds (entry.1 :: seen)
    else orSetElementsLoop removals adds seen

def orSetElements (set : OrSet N V) : List V := orSetElementsLoop set.removes set.adds []

def orSetMerge (a b : OrSet N V) : OrSet N V :=
  ⟨distributedListUnion a.adds b.adds, distributedListUnion a.removes b.removes,
    vectorClockMerge a.clock b.clock⟩

/-! ### What the operations do -/

theorem mem_distributedConsUnique {x value : α} {values : List α} :
    x ∈ distributedConsUnique value values ↔ x = value ∨ x ∈ values := by
  unfold distributedConsUnique
  split
  next h => exact ⟨.inr, fun hx => hx.elim (fun heq => heq ▸ h) id⟩
  next => exact List.mem_cons

@[simp] theorem mem_distributedListUnion {x : α} {a b : List α} :
    x ∈ distributedListUnion a b ↔ x ∈ a ∨ x ∈ b := by
  induction b generalizing a with
  | nil => simp [distributedListUnion]
  | cons value b ih =>
    rw [distributedListUnion, ih, mem_distributedConsUnique, List.mem_cons]
    tauto

variable {value : V} {dot : N × ℤ} {set : OrSet N V}

theorem mem_orSetActiveDotsFor {removals : List (N × ℤ)} {adds : List (V × (N × ℤ))} :
    dot ∈ orSetActiveDotsFor removals value adds ↔ (value, dot) ∈ adds ∧ dot ∉ removals := by
  induction adds with
  | nil => simp [orSetActiveDotsFor]
  | cons entry adds ih =>
    obtain ⟨value', dot'⟩ := entry
    rw [orSetActiveDotsFor]
    split
    next h =>
      obtain ⟨rfl, hdot⟩ := h
      simp only [orSetActiveDot, List.contains_eq_mem, Bool.not_eq_true', decide_eq_false_iff_not]
        at hdot
      simp only [List.mem_cons, Prod.mk.injEq, true_and, ih]
      constructor
      · rintro (rfl | h)
        · exact ⟨.inl rfl, hdot⟩
        · exact ⟨.inr h.1, h.2⟩
      · rintro ⟨rfl | h, hn⟩
        · exact .inl rfl
        · exact .inr ⟨h, hn⟩
    next h =>
      simp only [orSetActiveDot, List.contains_eq_mem, Bool.not_eq_true', decide_eq_false_iff_not]
        at h
      rw [ih, List.mem_cons, Prod.mk.injEq]
      constructor
      · exact fun hm => ⟨.inr hm.1, hm.2⟩
      · rintro ⟨⟨rfl, rfl⟩ | hm, hn⟩
        · exact absurd ⟨rfl, hn⟩ h
        · exact ⟨hm, hn⟩

theorem orSetMember_iff :
    orSetMember set value = true ↔ ∃ dot, (value, dot) ∈ set.adds ∧ dot ∉ set.removes := by
  rw [orSetMember, Bool.not_eq_true', List.isEmpty_eq_false_iff_exists_mem]
  exact exists_congr fun dot => mem_orSetActiveDotsFor

theorem orSetAdd_eq (set : OrSet N V) (node : N) (value : V) :
    orSetAdd set node value =
      .ok ⟨distributedConsUnique (value, (node, vectorClockRef set.clock node + 1)) set.adds,
        set.removes, vectorClockSet set.clock node (vectorClockRef set.clock node + 1)⟩ := by
  rw [orSetAdd, vectorClockTick_nil, ok_bind, vectorClockRef_set, if_pos rfl]

/-! ### Sets as replicated data -/

/-- An operation on a set. -/
inductive OrSetOp (N V : Type) : Type
  | add (node : N) (value : V)
  | remove (value : V)
  deriving DecidableEq

/-- Additions are authored by their node. -/
def OrSetOp.author : OrSetOp N V → Option N
  | .add node _ => some node
  | .remove _ => none

def orSet (N V : Type) [DecidableEq N] [DecidableEq V] : DataType (OrSet N V) (OrSetOp N V) N where
  init := makeOrSet
  perform set op set' := match op with
    | .add node value => orSetAdd set node value = .ok set'
    | .remove value => set' = orSetRemove set value
  merge := orSetMerge
  author := OrSetOp.author

variable {K L : Finset (Event (OrSetOp N V))} {e f : Event (OrSetOp N V)}

/-- The event adds `value` with the given dot. -/
structure AddsDot (K : Finset (Event (OrSetOp N V))) (e : Event (OrSetOp N V)) (value : V)
    (dot : N × ℤ) : Prop where
  mem : e ∈ K
  op_eq : e.op = .add dot.1 value
  dot_eq : dot.2 = rank OrSetOp.author K e

/-- A known removal of the value had seen the event. -/
def Covered (K : Finset (Event (OrSetOp N V))) (e : Event (OrSetOp N V)) (value : V) : Prop :=
  ∃ f ∈ K, f.op = .remove value ∧ e.index ∈ f.seen

/-- The lists of a set hold the dots of the additions known, and of those among them that a known
removal had seen. -/
structure OrSet.Represents (K : Finset (Event (OrSetOp N V))) (set : OrSet N V) : Prop where
  adds : ∀ value dot, (value, dot) ∈ set.adds ↔ ∃ e, AddsDot K e value dot
  removes : ∀ dot, dot ∈ set.removes ↔ ∃ e value, AddsDot K e value dot ∧ Covered K e value
  clock : Counts OrSetOp.author (fun _ => 1) K set.clock

omit [DecidableEq V] in
theorem AddsDot.author (h : AddsDot K e value dot) : e.op.author = some dot.1 := by
  rw [h.op_eq, OrSetOp.author]

omit [DecidableEq V] in
theorem AddsDot.unique (hK : Consistent OrSetOp.author K) {value' : V} (he : AddsDot K e value dot)
    (hf : AddsDot K f value' dot) : e = f ∧ value = value' := by
  have hef : e = f := rank_inj hK he.mem hf.mem (he.author.trans hf.author.symm)
    (he.dot_eq.symm.trans hf.dot_eq)
  subst hef
  have hop := he.op_eq.symm.trans hf.op_eq
  cases hop
  exact ⟨rfl, rfl⟩

omit [DecidableEq V] in
theorem addsDot_mono (hL : Consistent OrSetOp.author L) (hKL : K ⊆ L) (hK : Closed K) (he : e ∈ K) :
    AddsDot K e value dot ↔ AddsDot L e value dot := by
  constructor
  · intro h
    exact ⟨hKL he, h.op_eq, h.dot_eq.trans (rank_eq_of_subset hL hKL hK he h.author)⟩
  · intro h
    exact ⟨he, h.op_eq, h.dot_eq.trans (rank_eq_of_subset hL hKL hK he h.author).symm⟩

omit [DecidableEq N] [DecidableEq V] in
theorem Covered.mono (hKL : K ⊆ L) (h : Covered K e value) : Covered L e value := by
  obtain ⟨f, hf, hop, hseen⟩ := h
  exact ⟨f, hKL hf, hop, hseen⟩

/-- A set with an addition represents one operation more. -/
theorem OrSet.Represents.add {node : N} (h : set.Represents K) (hK : Closed K) (hnext : Next K e)
    (hcon : Consistent OrSetOp.author (insert e K)) (hop : e.op = .add node value) :
    OrSet.Represents (insert e K) ⟨distributedConsUnique
      (value, (node, vectorClockRef set.clock node + 1)) set.adds, set.removes,
        vectorClockSet set.clock node (vectorClockRef set.clock node + 1)⟩ where
  adds := by
    intro v dot
    have hsub := Finset.subset_insert e K
    have hauthor : e.op.author = some node := by rw [hop, OrSetOp.author]
    rw [mem_distributedConsUnique, h.adds, h.clock.ref_eq_count, ← rank_next hnext hauthor]
    constructor
    · rintro (heq | ⟨f, hf⟩)
      · cases heq
        exact ⟨e, Finset.mem_insert_self _ _, hop, rfl⟩
      · exact ⟨f, (addsDot_mono hcon hsub hK hf.mem).mp hf⟩
    · rintro ⟨f, hf⟩
      rcases Finset.mem_insert.mp hf.mem with rfl | hmem
      · have hop' := hf.op_eq.symm.trans hop
        cases hop'
        exact .inl (Prod.ext rfl (Prod.ext rfl hf.dot_eq))
      · exact .inr ⟨f, (addsDot_mono hcon hsub hK hmem).mpr hf⟩
  removes := by
    intro dot
    have hsub := Finset.subset_insert e K
    rw [h.removes]
    constructor
    · rintro ⟨f, v, hf, hcov⟩
      exact ⟨f, v, (addsDot_mono hcon hsub hK hf.mem).mp hf, hcov.mono hsub⟩
    · -- the new event is not a removal, and no known event has seen it
      rintro ⟨f, v, hf, g, hg, hgop, hseen⟩
      have hgK : g ∈ K := by
        rcases Finset.mem_insert.mp hg with rfl | hg
        · rw [hop] at hgop
          cases hgop
        · exact hg
      have hfK : f ∈ K := mem_of_mem_seen hcon hsub hK hgK hf.mem hseen
      exact ⟨f, v, (addsDot_mono hcon hsub hK hfK).mpr hf, g, hgK, hgop, hseen⟩
  clock := h.clock.set hnext (by rw [hop, OrSetOp.author]) zero_le_one

theorem OrSet.Represents.remove (h : set.Represents K) (hK : Closed K) (hnext : Next K e)
    (hcon : Consistent OrSetOp.author (insert e K)) (hop : e.op = .remove value) :
    (orSetRemove set value).Represents (insert e K) := by
  have hsub := Finset.subset_insert e K
  have hauthor : e.op.author = none := by rw [hop, OrSetOp.author]
  have hold : ∀ {f v dot}, AddsDot (insert e K) f v dot ↔ AddsDot K f v dot := by
    intro f v dot
    constructor
    · intro hf
      have hfK : f ∈ K := by
        rcases Finset.mem_insert.mp hf.mem with rfl | hf'
        · exact absurd (hauthor.symm.trans hf.author) (by simp)
        · exact hf'
      exact (addsDot_mono hcon hsub hK hfK).mpr hf
    · exact fun hf => (addsDot_mono hcon hsub hK hf.mem).mp hf
  refine ⟨fun v dot => ?_, fun dot => ?_, h.clock.anonymous hauthor zero_le_one⟩
  · rw [orSetRemove, h.adds]
    exact exists_congr fun f => hold.symm
  · rw [orSetRemove, mem_distributedListUnion, mem_orSetActiveDotsFor, h.adds]
    constructor
    · rintro (hm | ⟨⟨f, hf⟩, -⟩)
      · obtain ⟨f, v, hf, hcov⟩ := (h.removes dot).mp hm
        exact ⟨f, v, hold.mpr hf, hcov.mono hsub⟩
      · exact ⟨f, value, hold.mpr hf, e, Finset.mem_insert_self _ _, hop, hnext.mem_seen hf.mem⟩
    · rintro ⟨f, v, hf, g, hg, hgop, hseen⟩
      by_cases hm : dot ∈ set.removes
      · exact .inl hm
      · refine .inr ⟨?_, hm⟩
        rcases Finset.mem_insert.mp hg with rfl | hg
        · rw [hop] at hgop
          cases hgop
          exact ⟨f, hold.mp hf⟩
        · exact absurd ((h.removes dot).mpr ⟨f, v, hold.mp hf, g, hg, hgop, hseen⟩) hm

theorem OrSet.Represents.merge {a b : OrSet N V} (hK : Closed K) (hL : Closed L)
    (hcon : Consistent OrSetOp.author (K ∪ L)) (ha : a.Represents K) (hb : b.Represents L) :
    (orSetMerge a b).Represents (K ∪ L) := by
  have hsubK : K ⊆ K ∪ L := Finset.subset_union_left
  have hsubL : L ⊆ K ∪ L := Finset.subset_union_right
  refine ⟨fun v dot => ?_, fun dot => ?_, ha.clock.merge hcon hK hL hb.clock⟩
  · rw [orSetMerge, mem_distributedListUnion, ha.adds, hb.adds]
    constructor
    · rintro (⟨f, hf⟩ | ⟨f, hf⟩)
      · exact ⟨f, (addsDot_mono hcon hsubK hK hf.mem).mp hf⟩
      · exact ⟨f, (addsDot_mono hcon hsubL hL hf.mem).mp hf⟩
    · rintro ⟨f, hf⟩
      rcases Finset.mem_union.mp hf.mem with hmem | hmem
      · exact .inl ⟨f, (addsDot_mono hcon hsubK hK hmem).mpr hf⟩
      · exact .inr ⟨f, (addsDot_mono hcon hsubL hL hmem).mpr hf⟩
  · rw [orSetMerge, mem_distributedListUnion, ha.removes, hb.removes]
    constructor
    · rintro (⟨f, v, hf, hcov⟩ | ⟨f, v, hf, hcov⟩)
      · exact ⟨f, v, (addsDot_mono hcon hsubK hK hf.mem).mp hf, hcov.mono hsubK⟩
      · exact ⟨f, v, (addsDot_mono hcon hsubL hL hf.mem).mp hf, hcov.mono hsubL⟩
    · -- who knows the removal knows the addition it has seen
      rintro ⟨f, v, hf, g, hg, hgop, hseen⟩
      rcases Finset.mem_union.mp hg with hg | hg
      · have hfK := mem_of_mem_seen hcon hsubK hK hg hf.mem hseen
        exact .inl ⟨f, v, (addsDot_mono hcon hsubK hK hfK).mpr hf, g, hg, hgop, hseen⟩
      · have hfL := mem_of_mem_seen hcon hsubL hL hg hf.mem hseen
        exact .inr ⟨f, v, (addsDot_mono hcon hsubL hL hfL).mpr hf, g, hg, hgop, hseen⟩

theorem orSet_tracks : Tracks (orSet N V) fun K set => set.Represents K where
  init := by
    refine ⟨fun v dot => ?_, fun dot => ?_, .empty⟩
    · exact ⟨fun h => absurd h List.not_mem_nil, fun ⟨f, hf⟩ => absurd hf.mem (by simp)⟩
    · exact ⟨fun h => absurd h List.not_mem_nil, fun ⟨f, v, hf, _⟩ => absurd hf.mem (by simp)⟩
  perform := by
    intro K set e set' hK hnext hcoh h hop
    cases hop' : e.op with
    | add node value =>
      rw [hop'] at hop
      have hset := (orSetAdd_eq set node value).symm.trans hop
      cases hset
      exact h.add hK.closed hnext hcoh.toConsistent hop'
    | remove value =>
      rw [hop'] at hop
      cases hop
      exact h.remove hK.closed hnext hcoh.toConsistent hop'
  merge := fun hK hL hcoh ha hb => .merge hK hL hcoh.toConsistent ha hb

theorem OrSet.Represents.member (hK : Consistent OrSetOp.author K) (h : set.Represents K)
    (value : V) :
    orSetMember set value = true ↔
      ∃ e ∈ K, (∃ node, e.op = .add node value) ∧ ¬Covered K e value := by
  rw [orSetMember_iff]
  constructor
  · rintro ⟨dot, hadd, hrem⟩
    obtain ⟨e, he⟩ := (h.adds value dot).mp hadd
    refine ⟨e, he.mem, ⟨dot.1, he.op_eq⟩, fun hcov => hrem ?_⟩
    exact (h.removes dot).mpr ⟨e, value, he, hcov⟩
  · rintro ⟨e, he, ⟨node, hop⟩, hcov⟩
    have hdot : AddsDot K e value (node, rank OrSetOp.author K e) := ⟨he, hop, rfl⟩
    refine ⟨_, (h.adds value _).mpr ⟨e, hdot⟩, fun hrem => hcov ?_⟩
    obtain ⟨f, v, hf, hfcov⟩ := (h.removes _).mp hrem
    obtain ⟨rfl, rfl⟩ := hdot.unique hK hf
    exact hfcov

variable {R : Type} [DecidableEq R] {owner : N → R} {sys : System R (OrSet N V) (OrSetOp N V)}

end Eshkol.Core
