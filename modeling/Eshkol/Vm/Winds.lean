import Eshkol.Machine.Nesting
import Eshkol.Vm.Run

/-!
# Rerooting the Wind Stack

`vm_reroot_winds` (`lib/backend/vm_control.c`): when a continuation is resumed, the `after`
thunks of the `dynamic-wind` extents that are left run, and the `before` thunks of those that
are entered. The entries of the wind stack are pairs of thunks, and two stacks are compared by
these. `parameterize` puts entries on the same stack, without a `before` and with the parameter
object as `after`.

Extents are numbered here as they are entered, which the source does not do. A thunk that
returns leaves the wind stack as it was.
-/

namespace Eshkol.Vm


/-! ### The wind stack -/

def closureVal (ptr : Int32) : Value := .boxed (.other 5) ptr

/-- A `VAL_PARAMETER_OBJ`. -/
def parameterVal (ptr : Int32) : Value := .boxed (.other 20) ptr

/-- The value is a closure. -/
def isClosure (v : Value) : Bool := v.hasTag (.other 5)

/-- An entry of the wind stack. -/
structure Wind where
  before : Value
  after : Value
  deriving DecidableEq

/-- What running a thunk of the wind stack does. -/
inductive WindAction : Type
  | call (thunk : Value)
  | popParameter (parameter : Value)

def vmRunWindAfter (v : Value) : List WindAction :=
  if isClosure v then [.call v]
  else if v.hasTag (.other 20) then [.popParameter v]
  else []

def vmWindValueSame (a b : Value) : Bool := a = b

/-- The number of entries at the bottom of two wind stacks that are the same. Stacks are
written from the bottom up. -/
def windCommon : List Wind → List Wind → ℕ
  | w :: winds, k :: saved =>
    if vmWindValueSame w.before k.before && vmWindValueSame w.after k.after then
      windCommon winds saved + 1
    else 0
  | _, _ => 0

/-- `vm_reroot_winds`: what runs when the wind stack becomes `saved`. -/
def vmRerootWinds (winds saved : List Wind) : List WindAction :=
  let common := windCommon winds saved
  -- leave: innermost `after` first
  (winds.drop common).reverse.flatMap (fun w => vmRunWindAfter w.after) ++
  -- enter: outermost `before` first
  (saved.drop common).flatMap fun w =>
    if isClosure w.before then vmRunWindAfter w.before else []

/-- The thunks that are called. -/
def thunks (actions : List WindAction) : List Value :=
  actions.filterMap fun
    | .call v => some v
    | .popParameter _ => none

/-! ### Extents -/

/-- An extent: one execution of `dynamic-wind` or of a binding of `parameterize`. -/
structure Extent where
  id : ℕ
  wind : Wind
  deriving DecidableEq

/-- The extents that the program is in, those in which continuations were captured, and the
number of extents so far. -/
structure WindState where
  winds : List Extent
  conts : List (List Extent)
  count : ℕ

/-- The extents of a new VM. -/
def WindState.init : WindState := ⟨[], [], 0⟩

/-- What can happen to the extents: one is entered (`WIND_PUSH`), some are left, a continuation is
captured or one is resumed. While a continuation is resumed the stack is a part of its own. -/
inductive WindStep : WindState → WindState → Prop
  | push (s : WindState) (w : Wind) (h : s.winds.length < 32) :
      WindStep s { s with winds := s.winds ++ [⟨s.count, w⟩], count := s.count + 1 }
  | leave (s : WindState) (n : ℕ) : WindStep s { s with winds := s.winds.take n }
  | capture (s : WindState) : WindStep s { s with conts := s.winds :: s.conts }
  | enter (s : WindState) (k : List Extent) (h : k ∈ s.conts) (n : ℕ) :
      WindStep s { s with winds := k.take n }

/-- The states of a run. -/
inductive WindReachable : WindState → Prop
  | init : WindReachable .init
  | step {s s' : WindState} : WindReachable s → WindStep s s' → WindReachable s'

/-- The invariant: all stacks are paths of one tree, and the extents are numbered. -/
structure Nested (s : WindState) : Prop where
  agree : ∀ a ∈ s.winds :: s.conts, ∀ b ∈ s.winds :: s.conts, Machine.Agree a b
  numbered : ∀ a ∈ s.winds :: s.conts, ∀ e ∈ a, e.id < s.count

theorem Nested.init : Nested .init := by
  refine ⟨?_, ?_⟩
  · intro a ha b _ e pre post pre' post' heq
    obtain rfl : a = [] := List.mem_singleton.mp ha
    exact absurd heq.symm (List.append_ne_nil_of_right_ne_nil _ (List.cons_ne_nil _ _))
  · intro a ha e he
    obtain rfl : a = [] := List.mem_singleton.mp ha
    exact absurd he List.not_mem_nil

theorem Nested.replace {s : WindState} (h : Nested s) {winds : List Extent} {count : ℕ}
    (hself : Machine.Agree winds winds) (hcont : ∀ b ∈ s.conts, Machine.Agree winds b)
    (hcount : s.count ≤ count) (hnumbered : ∀ e ∈ winds, e.id < count) :
    Nested ⟨winds, s.conts, count⟩ := by
  refine ⟨?_, ?_⟩
  · intro b hb c hc
    rcases List.mem_cons.mp hb with rfl | hb
    · rcases List.mem_cons.mp hc with rfl | hc
      · exact hself
      · exact hcont c hc
    · rcases List.mem_cons.mp hc with rfl | hc
      · exact (hcont b hb).symm
      · exact h.agree b (List.mem_cons_of_mem _ hb) c (List.mem_cons_of_mem _ hc)
  · intro b hb e he
    rcases List.mem_cons.mp hb with rfl | hb
    · exact hnumbered e he
    · exact (h.numbered b (List.mem_cons_of_mem _ hb) e he).trans_le hcount

theorem Nested.shrink {s : WindState} (h : Nested s) {a winds : List Extent}
    (ha : a ∈ s.winds :: s.conts) (hpre : winds <+: a) : Nested { s with winds := winds } := by
  refine h.replace ?_ ?_ le_rfl ?_
  · exact ((h.agree a ha a ha).leave hpre).symm.leave hpre
  · exact fun b hb => (h.agree a ha b (List.mem_cons_of_mem _ hb)).leave hpre
  · exact fun e he => h.numbered a ha e (hpre.subset he)

theorem Nested.push {s : WindState} (h : Nested s) (w : Wind) :
    Nested { s with winds := s.winds ++ [⟨s.count, w⟩], count := s.count + 1 } := by
  have hnew : ∀ a ∈ s.winds :: s.conts, (⟨s.count, w⟩ : Extent) ∉ a := fun a ha hmem =>
    absurd (h.numbered a ha _ hmem) (Nat.lt_irrefl _)
  have hwinds := @h.agree s.winds List.mem_cons_self
  refine h.replace ?_ ?_ (Nat.le_succ _) ?_
  · exact (hwinds _ List.mem_cons_self).concat_self (hnew _ List.mem_cons_self)
  · intro b hb
    exact (hwinds b (List.mem_cons_of_mem _ hb)).concat (hnew b (List.mem_cons_of_mem _ hb))
  · intro e he
    rcases List.mem_append.mp he with he | he
    · exact (h.numbered _ List.mem_cons_self e he).trans (Nat.lt_succ_self _)
    · rw [List.mem_singleton.mp he]
      exact Nat.lt_succ_self _

theorem Nested.step {s s' : WindState} (h : Nested s) (hs : WindStep s s') : Nested s' := by
  cases hs with
  | push w => exact h.push w
  | leave n => exact h.shrink List.mem_cons_self (List.take_prefix n _)
  | capture =>
    refine ⟨fun a ha b hb => h.agree a ?_ b ?_, fun a ha => h.numbered a ?_⟩
    · simpa using ha
    · simpa using hb
    · simpa using ha
  | enter k hk n => exact h.shrink (List.mem_cons_of_mem _ hk) (List.take_prefix n _)

theorem WindReachable.nested {s : WindState} (h : WindReachable s) : Nested s := by
  induction h with
  | init => exact .init
  | step _ hs ih => exact ih.step hs

/-! ### Which thunks run -/

/-- The thunks of the extents that are left, innermost first, and then of those that are
entered, outermost first. -/
def crossedThunks (winds saved : List Extent) : List Value :=
  ((winds.filter (· ∉ saved)).reverse.map (·.wind.after) ++
    (saved.filter (· ∉ winds)).map (·.wind.before)).filter isClosure

/-- Different extents of the two stacks are told apart: where all entries up to some depth are
the same pairs of values, the entries at that depth belong to one extent, or have no thunks. -/
def Distinguished (winds saved : List Extent) : Prop :=
  ∀ n e e', winds[n]? = some e → saved[n]? = some e' → e ≠ e' →
    (winds.take (n + 1)).map Extent.wind = (saved.take (n + 1)).map Extent.wind →
    isClosure e.wind.before = false ∧ isClosure e.wind.after = false

theorem thunks_append (as bs : List WindAction) : thunks (as ++ bs) = thunks as ++ thunks bs :=
  List.filterMap_append

theorem thunks_vmRunWindAfter (v : Value) : thunks (vmRunWindAfter v) = [v].filter isClosure := by
  rw [vmRunWindAfter]
  split
  next hv => rw [List.filter_cons_of_pos hv]; rfl
  next hv =>
    rw [List.filter_cons_of_neg hv]
    split
    next => rfl
    next => rfl

theorem thunks_flatMap {f : Wind → List WindAction} {g : Wind → Value}
    (hf : ∀ w, thunks (f w) = [g w].filter isClosure) (winds : List Wind) :
    thunks (winds.flatMap f) = (winds.map g).filter isClosure := by
  induction winds with
  | nil => rfl
  | cons w winds ih =>
    rw [List.flatMap_cons, thunks_append, ih, hf, List.map_cons, ← List.filter_append,
      List.singleton_append]

theorem thunks_vmRerootWinds (winds saved : List Wind) :
    thunks (vmRerootWinds winds saved) =
      ((winds.drop (windCommon winds saved)).reverse.map Wind.after ++
        (saved.drop (windCommon winds saved)).map Wind.before).filter isClosure := by
  have hbefore (w : Wind) :
      thunks (if isClosure w.before then vmRunWindAfter w.before else []) =
        [w.before].filter isClosure := by
    split
    next => exact thunks_vmRunWindAfter _
    next hv => rw [List.filter_cons_of_neg hv]; rfl
  rw [vmRerootWinds, thunks_append, thunks_flatMap fun w => thunks_vmRunWindAfter w.after,
    thunks_flatMap hbefore, ← List.filter_append]

theorem windCommon_cons (w k : Wind) (winds saved : List Wind) :
    windCommon (w :: winds) (k :: saved) = if w = k then windCommon winds saved + 1 else 0 := by
  have hsame : (vmWindValueSame w.before k.before && vmWindValueSame w.after k.after) = true ↔
      w = k := by
    rw [Bool.and_eq_true, vmWindValueSame, vmWindValueSame, decide_eq_true_eq, decide_eq_true_eq]
    exact ⟨fun h => by cases w; cases k; simp_all, fun h => ⟨congrArg _ h, congrArg _ h⟩⟩
  rw [windCommon]
  by_cases h : w = k
  · rw [if_pos h, if_pos (hsame.mpr h)]
  · rw [if_neg h, if_neg (mt hsame.mp h)]

theorem windCommon_append (pre winds saved : List Wind) :
    windCommon (pre ++ winds) (pre ++ saved) = pre.length + windCommon winds saved := by
  induction pre with
  | nil => exact (Nat.zero_add _).symm
  | cons w pre ih =>
    rw [List.cons_append, List.cons_append, windCommon_cons, if_pos rfl, ih, List.length_cons]
    omega

theorem take_windCommon (winds saved : List Wind) :
    winds.take (windCommon winds saved) = saved.take (windCommon winds saved) := by
  induction winds generalizing saved with
  | nil => rfl
  | cons w winds ih =>
    cases saved with
    | nil => rfl
    | cons k saved =>
      rw [windCommon_cons]
      split
      next h => rw [List.take_succ_cons, List.take_succ_cons, ih saved, h]
      next => rfl

/-- **Rerooting between stacks that share nothing** runs all their thunks if and only if no
thunks are in the entries that are taken to be shared. -/
theorem thunks_eq_iff (winds saved : List Wind) :
    thunks (vmRerootWinds winds saved) =
        (winds.reverse.map Wind.after ++ saved.map Wind.before).filter isClosure ↔
      ∀ w ∈ winds.take (windCommon winds saved),
        isClosure w.before = false ∧ isClosure w.after = false := by
  rw [thunks_vmRerootWinds]
  have htake := take_windCommon winds saved
  have hwinds := List.take_append_drop (windCommon winds saved) winds
  have hsaved := List.take_append_drop (windCommon winds saved) saved
  rw [← htake] at hsaved
  generalize winds.take (windCommon winds saved) = shared at hwinds hsaved ⊢
  generalize winds.drop (windCommon winds saved) = left at hwinds ⊢
  generalize saved.drop (windCommon winds saved) = entered at hsaved ⊢
  -- the thunks of the shared entries stand between those that run
  have hall : (winds.reverse.map Wind.after ++ saved.map Wind.before).filter isClosure =
      (left.reverse.map Wind.after).filter isClosure ++
        ((shared.reverse.map Wind.after ++ shared.map Wind.before).filter isClosure ++
          (entered.map Wind.before).filter isClosure) := by
    rw [← hwinds, ← hsaved]
    simp only [List.reverse_append, List.map_append, List.filter_append, List.append_assoc]
  rw [hall, List.filter_append, List.append_cancel_left_eq, List.self_eq_append_left,
    List.filter_eq_nil_iff]
  simp only [List.mem_append, List.mem_map, List.mem_reverse]
  constructor
  · intro h w hw
    exact ⟨by simpa using h _ (.inr ⟨w, hw, rfl⟩), by simpa using h _ (.inl ⟨w, hw, rfl⟩)⟩
  · rintro h v (⟨w, hw, rfl⟩ | ⟨w, hw, rfl⟩)
    · simp [(h w hw).2]
    · simp [(h w hw).1]

theorem WindReachable.exists_split {s : WindState} (h : WindReachable s) {k : List Extent}
    (hk : k ∈ s.conts) :
    ∃ pre left entered, s.winds = pre ++ left ∧ k = pre ++ entered ∧
      (∀ e ∈ left, e ∉ k) ∧ (∀ e ∈ entered, e ∉ s.winds) ∧ ∀ e ∈ pre, e ∈ s.winds ∧ e ∈ k := by
  obtain ⟨pre, left, entered, hwinds, hsaved, hleft, hentered⟩ :=
    (h.nested.agree s.winds List.mem_cons_self k (List.mem_cons_of_mem _ hk)).exists_split
  refine ⟨pre, left, entered, hwinds, hsaved, hleft, hentered, fun e he => ?_⟩
  rw [hwinds, hsaved]
  exact ⟨List.mem_append_left _ he, List.mem_append_left _ he⟩

theorem lt_windCommon {winds saved : List Wind} {n : ℕ} (hn : n < winds.length)
    (h : winds.take (n + 1) = saved.take (n + 1)) : n < windCommon winds saved := by
  have hcommon := windCommon_append (winds.take (n + 1)) (winds.drop (n + 1)) (saved.drop (n + 1))
  nth_rewrite 2 [h] at hcommon
  rw [List.take_append_drop, List.take_append_drop, List.length_take] at hcommon
  omega

/-- After a beginning that the stacks share, they distinguish their extents if and only if the
entries that are taken to be shared have no thunks. -/
theorem distinguished_append_iff {pre left entered : List Extent}
    (hleft : ∀ e ∈ left, e ∉ pre ++ entered) :
    Distinguished (pre ++ left) (pre ++ entered) ↔
      ∀ w ∈ (left.map Extent.wind).take
          (windCommon (left.map Extent.wind) (entered.map Extent.wind)),
        isClosure w.before = false ∧ isClosure w.after = false := by
  have htake (n : ℕ) (a b : List Extent) :
      ((pre ++ a).take (pre.length + n)).map Extent.wind =
          ((pre ++ b).take (pre.length + n)).map Extent.wind ↔
        (a.map Extent.wind).take n = (b.map Extent.wind).take n := by
    rw [List.take_length_add_append, List.take_length_add_append, List.map_append,
      List.map_append, List.append_cancel_left_eq, List.map_take, List.map_take]
  have hget (m : ℕ) (a : List Extent) : (pre ++ a)[pre.length + m]? = a[m]? := by
    rw [List.getElem?_append_right (Nat.le_add_right _ _), Nat.add_sub_cancel_left]
  have hsame := take_windCommon (left.map Extent.wind) (entered.map Extent.wind)
  constructor
  · intro h w hw
    obtain ⟨m, hm⟩ := List.mem_iff_getElem?.mp hw
    have hm' := hm
    rw [hsame] at hm'
    rw [List.getElem?_take] at hm hm'
    split at hm
    next hlt =>
      rw [if_pos hlt, List.getElem?_map] at hm'
      rw [List.getElem?_map] at hm
      obtain ⟨e, he, rfl⟩ := Option.map_eq_some_iff.mp hm
      obtain ⟨e', he', -⟩ := Option.map_eq_some_iff.mp hm'
      refine h (pre.length + m) e e' ((hget m left).trans he) ((hget m entered).trans he') ?_ ?_
      · rintro rfl
        exact hleft e (List.mem_of_getElem? he)
          (List.mem_append_right _ (List.mem_of_getElem? he'))
      · have htaken := congrArg (List.take (m + 1)) hsame
        rw [List.take_take, List.take_take, Nat.min_eq_left hlt] at htaken
        exact (htake (m + 1) left entered).mpr htaken
    next => exact absurd hm nofun
  · intro h n e e' hn hn' hne hwinds
    rcases Nat.lt_or_ge n pre.length with hlt | hge
    · rw [List.getElem?_append_left hlt] at hn hn'
      exact absurd (Option.some.inj (hn.symm.trans hn')) hne
    · obtain ⟨m, rfl⟩ := Nat.exists_eq_add_of_le hge
      rw [hget] at hn hn'
      have htaken := (htake (m + 1) left entered).mp hwinds
      have hm : m < (left.map Extent.wind).length := by
        rw [List.length_map]
        exact (List.getElem?_eq_some_iff.mp hn).1
      refine h e.wind (List.mem_iff_getElem?.mpr ⟨m, ?_⟩)
      rw [List.getElem?_take, if_pos (lt_windCommon hm htaken), List.getElem?_map, hn,
        Option.map_some]

/-- **Rerooting** runs the thunks of the extents that are left and of those that are entered if
and only if the two stacks distinguish their extents. -/
theorem reroot_thunks_iff {s : WindState} (h : WindReachable s) {k : List Extent}
    (hk : k ∈ s.conts) :
    thunks (vmRerootWinds (s.winds.map Extent.wind) (k.map Extent.wind)) =
      crossedThunks s.winds k ↔ Distinguished s.winds k := by
  obtain ⟨pre, left, entered, hwinds, hsaved, hleft, hentered, hpre⟩ := h.exists_split hk
  have hfilter {l b : List Extent} (hl : ∀ e ∈ l, e ∉ b) (hb : ∀ e ∈ pre, e ∈ b) :
      (pre ++ l).filter (· ∉ b) = l := by
    rw [List.filter_append, List.filter_eq_nil_iff.mpr (fun e he => by simpa using hb e he),
      List.nil_append, List.filter_eq_self]
    exact fun e he => decide_eq_true (hl e he)
  have hcrossed : crossedThunks s.winds k =
      ((left.map Extent.wind).reverse.map Wind.after ++
        (entered.map Extent.wind).map Wind.before).filter isClosure := by
    have hl := hfilter hleft fun e he => (hpre e he).2
    have he := hfilter hentered fun e he => (hpre e he).1
    rw [← hwinds] at hl
    rw [← hsaved] at he
    rw [crossedThunks, hl, he, ← List.map_reverse, List.map_map, List.map_map]
    rfl
  have hthunks : thunks (vmRerootWinds (s.winds.map Extent.wind) (k.map Extent.wind)) =
      thunks (vmRerootWinds (left.map Extent.wind) (entered.map Extent.wind)) := by
    rw [thunks_vmRerootWinds, thunks_vmRerootWinds, hwinds, hsaved, List.map_append,
      List.map_append, windCommon_append, List.drop_length_add_append,
      List.drop_length_add_append]
  rw [hcrossed, hthunks, thunks_eq_iff, hwinds, hsaved]
  rw [hsaved] at hleft
  exact (distinguished_append_iff hleft).symm

/-- Coming back to an extent within the current one runs its `before`. -/
theorem reroot_thunks_inner :
    thunks (vmRerootWinds [⟨closureVal 1, closureVal 2⟩]
        [⟨closureVal 1, closureVal 2⟩, ⟨closureVal 3, closureVal 4⟩]) =
      [closureVal 3] := by
  have houter := WindReachable.step .init (.push .init ⟨closureVal 1, closureVal 2⟩ (by decide))
  have hinner := houter.step (.push _ ⟨closureVal 3, closureVal 4⟩ (by decide))
  have hleft := (hinner.step (.capture _)).step (.leave _ 1)
  refine ((reroot_thunks_iff hleft List.mem_cons_self).mpr ?_).trans (by decide)
  intro n e e' he he' hne
  cases n with
  | zero => exact absurd (Option.some.inj (he.symm.trans he')) hne
  | succ n => exact absurd he nofun

/-- A `dynamic-wind` is left and executed again with the same thunks: resuming a continuation
that was captured the first time runs no thunks at all. -/
theorem reroot_misses_extent :
    ∃ (s : WindState) (k : List Extent), WindReachable s ∧ k ∈ s.conts ∧
      thunks (vmRerootWinds (s.winds.map Extent.wind) (k.map Extent.wind)) = [] ∧
      crossedThunks s.winds k = [closureVal 2, closureVal 1] := by
  refine ⟨⟨[⟨1, closureVal 1, closureVal 2⟩], [[⟨0, closureVal 1, closureVal 2⟩]], 2⟩, _, ?_,
    List.mem_cons_self, by decide, by decide⟩
  have henter := WindReachable.step .init (.push .init ⟨closureVal 1, closureVal 2⟩ (by decide))
  have hleave := (henter.step (.capture _)).step (.leave _ 0)
  exact hleave.step (.push _ ⟨closureVal 1, closureVal 2⟩ (by decide))

end Eshkol.Vm
