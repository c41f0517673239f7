import Eshkol.Vm.Promises

/-!
# The Chain of Promises under Evaluation

What a commit and a rollback do to the chain, and how a run of bytecode changes the promises: an
evaluating or forced promise stays as it is, an unforced one may become forced, and the promises
whose evaluation began and has not ended stand before the earlier head of the chain.
-/

namespace Eshkol.Vm.Promises

open Machine

variable {α W : Type} {vm vm' vm'' : PromiseVm α W} {l l' : List ℕ} {mark v : PromiseValue α}

/-- A value that `vm_promise_mark_equal` can find. -/
def IsMark (v : PromiseValue α) : Prop := vmPromiseMarkEqual v v = true

theorem vmPromiseMarkEqual_iff {a b : PromiseValue α} (hb : IsMark b) :
    vmPromiseMarkEqual a b = true ↔ a = b := by
  refine ⟨fun h => ?_, fun h => by rw [h]; exact hb⟩
  cases a with
  | nil =>
    cases b with
    | nil => rfl
    | promise id => cases h
    | datum a => cases h
  | promise id =>
    cases b with
    | nil => cases h
    | promise id' => rw [of_decide_eq_true h]
    | datum a => cases h
  | datum a => cases h

theorem isMark_promise (id : ℕ) : IsMark (.promise id : PromiseValue α) := decide_eq_true rfl

/-! ### Chains -/

/-- Evaluating promises, from `v` down to `mark`. -/
inductive Pending (promises : List (Promise α W)) (mark : PromiseValue α) :
    PromiseValue α → List ℕ → Prop
  | nil : Pending promises mark mark []
  | cons {id : ℕ} {p : Promise α W} {l : List ℕ} (hp : promises[id]? = some p)
      (heval : p.state.isEvaluating = true) (hrest : Pending promises mark p.slot l) :
      Pending promises mark (.promise id) (id :: l)

variable {ps : List (Promise α W)} {id calls : ℕ} {begun : Prop}

theorem Pending.congr {ps' : List (Promise α W)} (h : Pending ps mark v l)
    (heq : ∀ id ∈ l, ps'[id]? = ps[id]?) : Pending ps' mark v l := by
  induction h with
  | nil => exact .nil
  | cons hp heval _ ih =>
    obtain ⟨hid, hl⟩ := List.forall_mem_cons.mp heq
    exact .cons (hid.trans hp) heval (ih hl)

theorem Pending.append {middle : PromiseValue α} (h : Pending ps middle v l)
    (h' : Pending ps mark middle l') : Pending ps mark v (l ++ l') := by
  induction h with
  | nil => exact h'
  | cons hp heval _ ih => exact .cons hp heval ih

theorem Pending.evaluating (h : Pending ps mark v l) (hid : id ∈ l) :
    ∃ p, ps[id]? = some p ∧ p.state.isEvaluating = true := by
  induction h with
  | nil => cases hid
  | cons hp heval _ ih =>
    rcases List.mem_cons.mp hid with rfl | hid
    · exact ⟨_, hp, heval⟩
    · exact ih hid

theorem Pending.eq_mark (h : Pending ps mark v []) : v = mark := by
  cases h
  rfl

theorem vmPromiseMarkReachable_pending (h : Pending vm.promises mark v l) (hmark : IsMark mark)
    (hout : ∀ id ∈ l, .promise id ≠ mark) (hcalls : l.length < calls) :
    vmPromiseMarkReachable vm mark calls v = .ok true := by
  induction h generalizing calls with
  | nil =>
    obtain ⟨calls, rfl⟩ := Nat.exists_eq_succ_of_ne_zero (Nat.ne_of_gt hcalls)
    rw [vmPromiseMarkReachable, if_pos ((vmPromiseMarkEqual_iff hmark).mpr rfl)]
  | @cons id p l hp heval _ ih =>
    obtain ⟨calls, rfl⟩ := Nat.exists_eq_succ_of_ne_zero (Nat.ne_of_gt (Nat.zero_lt_of_lt hcalls))
    obtain ⟨hid, hl⟩ := List.forall_mem_cons.mp hout
    rw [vmPromiseMarkReachable, if_neg (by rwa [vmPromiseMarkEqual_iff hmark]), vmIsPromiseValue,
      hp]
    dsimp only
    rw [if_pos heval, ih hl (Nat.lt_of_succ_lt_succ hcalls)]

/-! ### Commit and rollback -/

/-- The promises with a function applied to some of them. -/
def settle (f : Promise α W → Promise α W) (l : List ℕ) (ps : List (Promise α W)) :
    List (Promise α W) :=
  ps.mapIdx fun id p => if id ∈ l then f p else p

theorem getElem?_settle (f : Promise α W → Promise α W) (l : List ℕ) (ps : List (Promise α W))
    (id : ℕ) : (settle f l ps)[id]? = ps[id]?.map fun p => if id ∈ l then f p else p := by
  rw [settle, List.getElem?_mapIdx]

theorem settle_nil (f : Promise α W → Promise α W) (ps : List (Promise α W)) :
    settle f [] ps = ps := by
  refine List.ext_getElem? fun id => ?_
  rw [getElem?_settle]
  simp

variable {p p' : Promise α W}

theorem settle_cons {f : Promise α W → Promise α W} (hp : ps[id]? = some p) (hid : id ∉ l) :
    settle f l (ps.set id (f p)) = settle f (id :: l) ps := by
  refine List.ext_getElem? fun j => ?_
  rw [getElem?_settle, getElem?_settle, List.getElem?_set]
  by_cases hj : id = j
  · subst hj
    have hlt : id < ps.length := (List.getElem?_eq_some_iff.mp hp).1
    rw [if_pos rfl, if_pos hlt, hp]
    simp [hid]
  · have hj' : j ≠ id := fun h => hj h.symm
    simp [hj, hj']

theorem Pending.tail (h : Pending ps mark p.slot l) (hid : id ∉ l) (q : Promise α W) :
    Pending (ps.set id q) mark p.slot l := by
  refine h.congr fun j hj => ?_
  rw [List.getElem?_set_ne]
  rintro rfl
  exact hid hj

theorem unwindLoop_pending (h : Pending vm.promises mark vm.head l) (hmark : IsMark mark)
    (hout : ∀ id ∈ l, .promise id ≠ mark) (hdistinct : l.Nodup) (hcalls : l.length < calls) :
    unwindLoop mark calls vm =
      .ok { vm with promises := settle Promise.rollBack l vm.promises, head := mark } := by
  induction l generalizing vm calls with
  | nil =>
    obtain ⟨calls, rfl⟩ := Nat.exists_eq_succ_of_ne_zero (Nat.ne_of_gt hcalls)
    have hhead := h.eq_mark
    rw [unwindLoop, if_pos ((vmPromiseMarkEqual_iff hmark).mpr hhead), settle_nil, ← hhead]
  | cons id l ih =>
    obtain ⟨calls, rfl⟩ := Nat.exists_eq_succ_of_ne_zero (Nat.ne_of_gt (Nat.zero_lt_of_lt hcalls))
    obtain ⟨hid, hl⟩ := List.forall_mem_cons.mp hout
    obtain ⟨hmem, hdistinct⟩ := List.nodup_cons.mp hdistinct
    generalize hhead : vm.head = head at h
    cases h with
    | @cons _ p _ hp heval hrest =>
      rw [unwindLoop, hhead, if_neg (by rwa [vmPromiseMarkEqual_iff hmark])]
      dsimp only
      rw [hp]
      dsimp only
      rw [ih (hrest.tail hmem _) hl hdistinct (Nat.lt_of_succ_lt_succ hcalls),
        PromiseVm.setPromise, settle_cons hp hmem]

theorem vmPromiseEvalUnwindTo_pending (h : Pending vm.promises mark vm.head l) (hmark : IsMark mark)
    (hout : ∀ id ∈ l, .promise id ≠ mark) (hdistinct : l.Nodup) (hcalls : l.length < calls) :
    vmPromiseEvalUnwindTo calls vm mark =
      .ok { vm with promises := settle Promise.rollBack l vm.promises, head := mark } := by
  rw [vmPromiseEvalUnwindTo, vmPromiseMarkReachable_pending h hmark hout hcalls, ok_bind,
    if_pos rfl, unwindLoop_pending h hmark hout hdistinct hcalls]

theorem vmPromiseEvalCommitOne_head (hhead : vm.head = .promise id) (hp : vm.promises[id]? = some p)
    (heval : p.state.isEvaluating = true) (result : PromiseValue α) :
    vmPromiseEvalCommitOne vm (.promise id) result =
      some (vm.setPromise id (p.commit result) p.slot) := by
  rw [vmPromiseEvalCommitOne, hhead,
    if_pos ((vmPromiseMarkEqual_iff (isMark_promise id)).mpr rfl), hp]
  dsimp only
  rw [if_pos heval]

theorem commitLoop_pending (h : Pending vm.promises mark vm.head l) (hmark : IsMark mark)
    (hout : ∀ id ∈ l, .promise id ≠ mark) (hdistinct : l.Nodup) (result : PromiseValue α)
    (hcalls : l.length < calls) :
    commitLoop mark result calls vm =
      .ok (true, { vm with
        promises := settle (Promise.commit · result) l vm.promises, head := mark }) := by
  induction l generalizing vm calls with
  | nil =>
    obtain ⟨calls, rfl⟩ := Nat.exists_eq_succ_of_ne_zero (Nat.ne_of_gt hcalls)
    have hhead := h.eq_mark
    rw [commitLoop, if_pos ((vmPromiseMarkEqual_iff hmark).mpr hhead), settle_nil, ← hhead]
  | cons id l ih =>
    obtain ⟨calls, rfl⟩ := Nat.exists_eq_succ_of_ne_zero (Nat.ne_of_gt (Nat.zero_lt_of_lt hcalls))
    obtain ⟨hid, hl⟩ := List.forall_mem_cons.mp hout
    obtain ⟨hmem, hdistinct⟩ := List.nodup_cons.mp hdistinct
    generalize hhead : vm.head = head at h
    cases h with
    | @cons _ p _ hp heval hrest =>
      rw [commitLoop, hhead, if_neg (by rwa [vmPromiseMarkEqual_iff hmark]),
        vmPromiseEvalCommitOne_head hhead hp heval]
      dsimp only
      rw [ih (hrest.tail hmem _) hl hdistinct (Nat.lt_of_succ_lt_succ hcalls),
        PromiseVm.setPromise, ← settle_cons hp hmem]

theorem vmPromiseEvalCommitTo_pending (h : Pending vm.promises mark vm.head l) (hmark : IsMark mark)
    (hout : ∀ id ∈ l, .promise id ≠ mark) (hdistinct : l.Nodup) (result : PromiseValue α)
    (hcalls : l.length < calls) :
    vmPromiseEvalCommitTo calls vm mark result =
      .ok (true, { vm with
        promises := settle (Promise.commit · result) l vm.promises, head := mark }) := by
  rw [vmPromiseEvalCommitTo, vmPromiseMarkReachable_pending h hmark hout hcalls, ok_bind,
    if_pos rfl, commitLoop_pending h hmark hout hdistinct result hcalls]

/-! ### Runs -/

/-- A promise that is not forced has a thunk, and before its evaluation an empty slot. -/
structure Promise.Sound (p : Promise α W) : Prop where
  thunk : p.state ≠ .forced → p.thunk.isSome = true
  slot : p.state.isUnforced = true → p.slot = .nil

/-- The promises are sound, and the head of the chain is an evaluating one or nothing. -/
structure PromiseVm.Sound (vm : PromiseVm α W) : Prop where
  promises : ∀ (id : ℕ) (p : Promise α W), vm.promises[id]? = some p → p.Sound
  head : vm.head = .nil ∨
    ∃ id p, vm.head = .promise id ∧ vm.promises[id]? = some p ∧ p.state.isEvaluating = true

/-- What a run does to one promise: `begun` says that its evaluation began and has not ended. -/
inductive Promise.Change (begun : Prop) (p : Promise α W) : Promise α W → Prop
  | same (hbegun : ¬begun) : Change begun p p
  | force {p' : Promise α W} (hbegun : ¬begun) (hunforced : p.state.isUnforced = true)
      (hforced : p'.state = .forced) : Change begun p p'
  | start (hbegun : begun) (hunforced : p.state.isUnforced = true) (previous : PromiseValue α) :
      Change begun p (p.begin previous)

/-- What a run does to the promises: `l` are those whose evaluation began and has not ended. -/
structure Extends (vm vm' : PromiseVm α W) (l : List ℕ) : Prop where
  pending : Pending vm'.promises vm.head vm'.head l
  distinct : l.Nodup
  kept : ∀ (id : ℕ) (p : Promise α W), vm.promises[id]? = some p →
    ∃ p', vm'.promises[id]? = some p' ∧ p.Change (id ∈ l) p'
  fresh : ∀ (id : ℕ) (p' : Promise α W), vm'.promises[id]? = some p' → vm.promises.length ≤ id →
    p'.Sound ∧ (p'.state.isEvaluating = true → id ∈ l)

theorem PromiseState.not_unforced_of_evaluating {state : PromiseState}
    (h : state.isEvaluating = true) : state.isUnforced = false := by
  cases state with
  | delayed => cases h
  | forced => cases h
  | delayForce => cases h
  | evaluating => rfl
  | evaluatingForce => rfl

theorem PromiseState.isEvaluating_begun (state : PromiseState) :
    state.begun.isEvaluating = true := by
  cases state with
  | delayed => rfl
  | forced => rfl
  | delayForce => rfl
  | evaluating => rfl
  | evaluatingForce => rfl

theorem Promise.isUnforced_begin (p : Promise α W) (previous : PromiseValue α) :
    (p.begin previous).state.isUnforced = false :=
  PromiseState.not_unforced_of_evaluating p.state.isEvaluating_begun

theorem Promise.rollBack_begin (hp : p.Sound) (hunforced : p.state.isUnforced = true)
    (previous : PromiseValue α) : (p.begin previous).rollBack = p := by
  obtain ⟨state, thunk, slot⟩ := p
  obtain rfl : slot = .nil := hp.slot hunforced
  cases state with
  | delayed => rfl
  | delayForce => rfl
  | forced => cases hunforced
  | evaluating => cases hunforced
  | evaluatingForce => cases hunforced

theorem Promise.Change.unchanged (h : p.Change begun p') (hnot : p.state.isUnforced = false) :
    p' = p ∧ ¬begun := by
  cases h with
  | same hbegun => exact ⟨rfl, hbegun⟩
  | force _ hunforced _ =>
    rw [hnot] at hunforced
    cases hunforced
  | start _ hunforced _ =>
    rw [hnot] at hunforced
    cases hunforced

theorem Promise.Change.sound (h : p.Change begun p') (hp : p.Sound) : p'.Sound := by
  cases h with
  | same _ => exact hp
  | force _ _ hforced =>
    refine ⟨fun hne => absurd hforced hne, fun h => ?_⟩
    rw [hforced] at h
    cases h
  | start _ hunforced previous =>
    refine ⟨fun _ => hp.thunk fun hforced => ?_, fun h => ?_⟩
    · rw [hforced] at hunforced
      cases hunforced
    · rw [Promise.isUnforced_begin] at h
      cases h

theorem Promise.Change.trans {begun' : Prop} {p'' : Promise α W} (h : p.Change begun p')
    (h' : p'.Change begun' p'') : p.Change (begun' ∨ begun) p'' := by
  cases h with
  | same hbegun =>
    cases h' with
    | same hbegun' => exact .same (not_or.mpr ⟨hbegun', hbegun⟩)
    | force hbegun' hunforced hforced =>
      exact .force (not_or.mpr ⟨hbegun', hbegun⟩) hunforced hforced
    | start hbegun' hunforced previous => exact .start (.inl hbegun') hunforced previous
  | force hbegun hunforced hforced =>
    obtain ⟨rfl, hbegun'⟩ := h'.unchanged (by rw [hforced]; rfl)
    exact .force (not_or.mpr ⟨hbegun', hbegun⟩) hunforced hforced
  | start hbegun hunforced previous =>
    obtain ⟨rfl, -⟩ := h'.unchanged (Promise.isUnforced_begin p previous)
    exact .start (.inr hbegun) hunforced previous

theorem PromiseVm.Sound.isMark (h : vm.Sound) : IsMark vm.head := by
  rcases h.head with hhead | ⟨id, p, hhead, -⟩
  · rw [hhead]
    rfl
  · rw [hhead]
    exact isMark_promise id

theorem Extends.unchanged (h : Extends vm vm' l) (hp : vm.promises[id]? = some p)
    (hnot : p.state.isUnforced = false) : vm'.promises[id]? = some p ∧ id ∉ l := by
  obtain ⟨p', hp', hchange⟩ := h.kept id p hp
  obtain ⟨rfl, hid⟩ := hchange.unchanged hnot
  exact ⟨hp', hid⟩

theorem Extends.evaluating (h : Extends vm vm' l) (hp : vm.promises[id]? = some p)
    (heval : p.state.isEvaluating = true) : vm'.promises[id]? = some p ∧ id ∉ l :=
  h.unchanged hp (PromiseState.not_unforced_of_evaluating heval)

theorem Extends.forced (h : Extends vm vm' l) (hp : vm.promises[id]? = some p)
    (hforced : p.state = .forced) : vm'.promises[id]? = some p :=
  (h.unchanged hp (by rw [hforced]; rfl)).1

theorem Extends.ne_head (h : Extends vm vm' l) (hvm : vm.Sound) :
    ∀ id ∈ l, .promise id ≠ vm.head := by
  intro id hid heq
  rcases hvm.head with hhead | ⟨id', p, hhead, hp, heval⟩
  · rw [hhead] at heq
    cases heq
  · rw [hhead] at heq
    cases heq
    exact (h.evaluating hp heval).2 hid

theorem Extends.sound (h : Extends vm vm' l) (hvm : vm.Sound) : vm'.Sound := by
  refine ⟨fun id p' hp' => ?_, ?_⟩
  · rcases Nat.lt_or_ge id vm.promises.length with hlt | hge
    · have hp := List.getElem?_eq_getElem hlt
      obtain ⟨q, hq, hchange⟩ := h.kept id _ hp
      obtain rfl : q = p' := Option.some.inj (hq.symm.trans hp')
      exact hchange.sound (hvm.promises id _ hp)
    · exact (h.fresh id p' hp' hge).1
  · cases l with
    | nil =>
      rw [h.pending.eq_mark]
      rcases hvm.head with hhead | ⟨id, p, hhead, hp, heval⟩
      · exact .inl hhead
      · exact .inr ⟨id, p, hhead, (h.evaluating hp heval).1, heval⟩
    | cons id l =>
      obtain ⟨p, hp, heval⟩ := h.pending.evaluating List.mem_cons_self
      refine .inr ⟨id, p, ?_, hp, heval⟩
      have hpending := h.pending
      generalize vm'.head = head at hpending
      cases hpending
      rfl

theorem Extends.refl (vm : PromiseVm α W) : Extends vm vm [] :=
  ⟨.nil, List.nodup_nil, fun _ p hp => ⟨p, hp, .same List.not_mem_nil⟩,
    fun id p' hp' hge => by
      rw [List.getElem?_eq_none hge] at hp'
      cases hp'⟩

theorem Extends.trans (h : Extends vm vm' l) (h' : Extends vm' vm'' l') :
    Extends vm vm'' (l' ++ l) := by
  have hlater : ∀ id ∈ l, vm''.promises[id]? = vm'.promises[id]? ∧ id ∉ l' := by
    intro id hid
    obtain ⟨p, hp, heval⟩ := h.pending.evaluating hid
    rw [hp]
    exact h'.evaluating hp heval
  refine ⟨h'.pending.append (h.pending.congr fun id hid => (hlater id hid).1), ?_, ?_, ?_⟩
  · refine List.nodup_append.mpr ⟨h'.distinct, h.distinct, ?_⟩
    rintro id hid' _ hid rfl
    exact (hlater id hid).2 hid'
  · intro id p hp
    obtain ⟨p', hp', hchange⟩ := h.kept id p hp
    obtain ⟨p'', hp'', hchange'⟩ := h'.kept id p' hp'
    refine ⟨p'', hp'', ?_⟩
    rw [List.mem_append]
    exact hchange.trans hchange'
  · intro id p'' hp'' hge
    rcases Nat.lt_or_ge id vm'.promises.length with hlt | hge'
    · have hp' := List.getElem?_eq_getElem hlt
      obtain ⟨hsound, heval⟩ := h.fresh id _ hp' hge
      obtain ⟨q, hq, hchange⟩ := h'.kept id _ hp'
      obtain rfl : q = p'' := Option.some.inj (hq.symm.trans hp'')
      refine ⟨hchange.sound hsound, fun he => List.mem_append.mpr ?_⟩
      cases hchange with
      | same _ => exact .inr (heval he)
      | force _ _ hforced =>
        rw [hforced] at he
        cases he
      | start hid _ _ => exact .inl hid
    · obtain ⟨hsound, heval⟩ := h'.fresh id p'' hp'' hge'
      exact ⟨hsound, fun he => List.mem_append_left _ (heval he)⟩

theorem Extends.settled (h : Extends vm vm' l) {f : Promise α W → Promise α W}
    (hf : ∀ (id : ℕ) (p : Promise α W), vm.promises[id]? = some p → p.state.isUnforced = true →
      ∀ previous, p.Change False (f (p.begin previous)))
    (hsound : ∀ p' : Promise α W, p'.Sound → p'.state.isEvaluating = true →
      (f p').Sound ∧ (f p').state.isEvaluating = false) :
    Extends vm { vm' with promises := settle f l vm'.promises, head := vm.head } [] := by
  refine ⟨.nil, List.nodup_nil, ?_, ?_⟩
  · intro id p hp
    obtain ⟨p', hp', hchange⟩ := h.kept id p hp
    refine ⟨if id ∈ l then f p' else p', by rw [getElem?_settle, hp']; rfl, ?_⟩
    rw [List.mem_nil_iff]
    cases hchange with
    | same hid =>
      rw [if_neg hid]
      exact .same not_false
    | force hid hunforced hforced =>
      rw [if_neg hid]
      exact .force not_false hunforced hforced
    | start hid hunforced previous =>
      rw [if_pos hid]
      exact hf id p hp hunforced previous
  · intro id q hq hge
    dsimp only at hq
    rw [getElem?_settle] at hq
    obtain ⟨p', hp', rfl⟩ := Option.map_eq_some_iff.mp hq
    obtain ⟨hfresh, heval⟩ := h.fresh id p' hp' hge
    by_cases hid : id ∈ l
    · obtain ⟨p, hp, hpeval⟩ := h.pending.evaluating hid
      obtain rfl : p = p' := Option.some.inj (hp.symm.trans hp')
      obtain ⟨hsettled, hnot⟩ := hsound p hfresh hpeval
      rw [if_pos hid, hnot]
      exact ⟨hsettled, fun h => by cases h⟩
    · rw [if_neg hid]
      exact ⟨hfresh, fun h => absurd (heval h) hid⟩

theorem Extends.committed (h : Extends vm vm' l) (result : PromiseValue α) :
    Extends vm { vm' with
      promises := settle (Promise.commit · result) l vm'.promises, head := vm.head } [] := by
  refine h.settled (fun _ _ _ hunforced _ => .force not_false hunforced rfl) fun _ _ _ => ?_
  exact ⟨⟨fun hne => absurd rfl hne, fun h => by cases h⟩, rfl⟩

theorem Extends.rolledBack (h : Extends vm vm' l) (hvm : vm.Sound) :
    Extends vm { vm' with
      promises := settle Promise.rollBack l vm'.promises, head := vm.head } [] := by
  refine h.settled (fun id p hp hunforced previous => ?_) fun p' hsound heval => ?_
  · rw [Promise.rollBack_begin (hvm.promises id p hp) hunforced]
    exact .same not_false
  · have hthunk : p'.thunk.isSome = true := hsound.thunk fun hforced => by
      rw [hforced] at heval
      cases heval
    refine ⟨⟨fun _ => hthunk, fun _ => rfl⟩, ?_⟩
    obtain ⟨state, thunk, slot⟩ := p'
    cases state with
    | delayed => rfl
    | forced => rfl
    | delayForce => rfl
    | evaluating => rfl
    | evaluatingForce => rfl

end Eshkol.Vm.Promises
