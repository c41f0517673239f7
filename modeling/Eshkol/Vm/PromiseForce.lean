import Eshkol.Vm.PromiseChain

/-!
# Forcing Promises

Runs of bytecode keep the chain of promises under evaluation.
-/

namespace Eshkol.Vm.Promises

open Machine

variable {α W : Type} {vm vm' : PromiseVm α W} {l : List ℕ} {mark v : PromiseValue α}

/-! ### Commit and rollback of a run -/

variable {calls : ℕ} {p : Promise α W}

theorem vmPromiseMarkReachable_of_le (h : Pending vm.promises mark v l) (hmark : IsMark mark)
    (hout : ∀ id ∈ l, .promise id ≠ mark) (hcalls : calls ≤ l.length) :
    vmPromiseMarkReachable vm mark calls v = .error .diverges := by
  induction h generalizing calls with
  | nil =>
    obtain rfl : calls = 0 := Nat.le_zero.mp hcalls
    rfl
  | @cons id p l hp heval _ ih =>
    obtain ⟨hid, hl⟩ := List.forall_mem_cons.mp hout
    cases calls with
    | zero => rfl
    | succ calls =>
      rw [vmPromiseMarkReachable, if_neg (by rwa [vmPromiseMarkEqual_iff hmark]),
        vmIsPromiseValue, hp]
      dsimp only
      rw [if_pos heval, ih hl (Nat.le_of_succ_le_succ hcalls)]

theorem Extends.unwindTo (h : Extends vm vm' l) (hvm : vm.Sound) {r : PromiseVm α W}
    (hr : vmPromiseEvalUnwindTo calls vm' vm.head = .ok r) :
    r = { vm' with promises := settle Promise.rollBack l vm'.promises, head := vm.head } := by
  rcases Nat.lt_or_ge l.length calls with hlt | hge
  · rw [vmPromiseEvalUnwindTo_pending h.pending hvm.isMark (h.ne_head hvm) h.distinct hlt] at hr
    exact (Except.ok.inj hr).symm
  · rw [vmPromiseEvalUnwindTo, vmPromiseMarkReachable_of_le h.pending hvm.isMark (h.ne_head hvm)
      hge] at hr
    cases hr

theorem Extends.commitTo (h : Extends vm vm' l) (hvm : vm.Sound) {result : PromiseValue α}
    {r : Bool × PromiseVm α W} (hr : vmPromiseEvalCommitTo calls vm' vm.head result = .ok r) :
    r = (true, { vm' with
      promises := settle (Promise.commit · result) l vm'.promises, head := vm.head }) := by
  rcases Nat.lt_or_ge l.length calls with hlt | hge
  · rw [vmPromiseEvalCommitTo_pending h.pending hvm.isMark (h.ne_head hvm) h.distinct result
      hlt] at hr
    exact (Except.ok.inj hr).symm
  · rw [vmPromiseEvalCommitTo, vmPromiseMarkReachable_of_le h.pending hvm.isMark (h.ne_head hvm)
      hge] at hr
    cases hr

/-! ### Steps -/

theorem PromiseVm.Sound.thunk_of_unforced (h : vm.Sound) {id : ℕ} (hp : vm.promises[id]? = some p)
    (hunforced : p.state.isUnforced = true) : ∃ thunk, p.thunk = some thunk := by
  refine Option.isSome_iff_exists.mp ((h.promises id p hp).thunk fun hforced => ?_)
  rw [hforced] at hunforced
  cases hunforced

theorem Extends.begin {id : ℕ} (hp : vm.promises[id]? = some p)
    (hunforced : p.state.isUnforced = true) :
    Extends vm (vm.setPromise id (p.begin vm.head) (.promise id)) [id] := by
  have hlt : id < vm.promises.length := (List.getElem?_eq_some_iff.mp hp).1
  have hself : (vm.setPromise id (p.begin vm.head) (.promise id)).promises[id]? =
      some (p.begin vm.head) := List.getElem?_set_self hlt
  refine ⟨.cons hself p.state.isEvaluating_begun .nil, List.pairwise_singleton _ id, ?_, ?_⟩
  · intro j q hq
    by_cases hj : j = id
    · subst hj
      obtain rfl : q = p := Option.some.inj (hq.symm.trans hp)
      exact ⟨_, hself, .start (List.mem_singleton.mpr rfl) hunforced _⟩
    · refine ⟨q, ?_, .same fun h => hj (List.mem_singleton.mp h)⟩
      exact (List.getElem?_set_ne fun h => hj h.symm).trans hq
  · intro j q hq hge
    have hjlt := (List.getElem?_eq_some_iff.mp hq).1
    simp only [PromiseVm.setPromise, List.length_set] at hjlt
    omega

theorem extends_makePromise (hsound : p.Sound) (heval : p.state.isEvaluating = false)
    (events : List PromiseEvent) : Extends vm (vm.makePromise p events) [] := by
  refine ⟨.nil, List.nodup_nil, ?_, ?_⟩
  · intro id q hq
    have hlt := (List.getElem?_eq_some_iff.mp hq).1
    exact ⟨q, (List.getElem?_append_left hlt).trans hq, .same List.not_mem_nil⟩
  · intro id q hq hge
    rw [PromiseVm.makePromise] at hq
    dsimp only at hq
    rw [List.getElem?_append_right hge] at hq
    obtain rfl := List.mem_singleton.mp (List.mem_of_getElem? hq)
    exact ⟨hsound, fun h => by rw [heval] at h; cases h⟩

/-! ### Runs -/

/-- The run returns to its caller. -/
def Outcome.returns : Outcome α → Bool
  | .value _ | .error => true
  | _ => false

/-- A run that returns leaves the chain as it was. -/
def Keeps (vm : PromiseVm α W) (x : Exec Empty (Outcome α × PromiseVm α W)) : Prop :=
  ∀ outcome vm', x = .ok (outcome, vm') → ∃ l, Extends vm vm' l ∧ (outcome.returns = true → l = [])

theorem keeps_ok (outcome : Outcome α) (h : Extends vm vm' []) : Keeps vm (.ok (outcome, vm')) := by
  rintro _ _ ⟨⟩
  exact ⟨[], h, fun _ => rfl⟩

theorem Keeps.trans {x : Exec Empty (Outcome α × PromiseVm α W)} (h : Extends vm vm' [])
    (hx : Keeps vm' x) : Keeps vm x := by
  intro outcome vm'' heq
  obtain ⟨l, hl, hreturns⟩ := hx outcome vm'' heq
  refine ⟨l, ?_, hreturns⟩
  have htrans := h.trans hl
  rwa [List.append_nil] at htrans

theorem Keeps.andThen {x : Exec Empty (Outcome α × PromiseVm α W)}
    {f : PromiseValue α → PromiseVm α W → Exec Empty (Outcome α × PromiseVm α W)}
    (hx : Keeps vm x) (hf : ∀ v vm', Extends vm vm' [] → Keeps vm' (f v vm')) :
    Keeps vm (andThen x f) := by
  intro outcome vm'' heq
  obtain ⟨⟨first, vm'⟩, hfirst, heq⟩ := bind_eq_ok.mp heq
  obtain ⟨l, hl, hreturns⟩ := hx first vm' hfirst
  cases first with
  | value v =>
    obtain rfl := hreturns rfl
    exact Keeps.trans hl (hf v vm' hl) outcome vm'' heq
  | raised handler frames failed exn =>
    cases heq
    exact ⟨l, hl, hreturns⟩
  | stopped =>
    cases heq
    exact ⟨l, hl, hreturns⟩
  | error =>
    cases heq
    exact ⟨l, hl, hreturns⟩

theorem finishForce_keeps (h : Extends vm vm' l) (hvm : vm.Sound) (calls : ℕ)
    (final : PromiseValue α) : Keeps vm (finishForce calls vm' vm.head final) := by
  intro outcome vm'' heq
  obtain ⟨⟨committed, last⟩, hcommit, heq⟩ := bind_eq_ok.mp heq
  obtain ⟨rfl, rfl⟩ := Prod.mk.inj (h.commitTo hvm hcommit)
  cases heq
  exact ⟨[], h.committed final, fun _ => rfl⟩

theorem failForce_keeps (h : Extends vm vm' l) (hvm : vm.Sound) (calls : ℕ) :
    Keeps vm (failForce calls vm' vm.head) := by
  intro outcome vm'' heq
  obtain ⟨last, hunwind, heq⟩ := bind_eq_ok.mp heq
  obtain rfl := h.unwindTo hvm hunwind
  cases heq
  exact ⟨[], h.rolledBack hvm, fun _ => rfl⟩

section Runs

variable {run : Run α W}

theorem runClosure_keeps (hrun : ∀ env code vm, vm.Sound → Keeps vm (run env code vm))
    (hvm : vm.Sound) (env : RunEnv) (code : Code α W) : Keeps vm (runClosure run env code vm) := by
  intro outcome vm'' heq
  obtain ⟨⟨inner, last⟩, hinner, heq⟩ := bind_eq_ok.mp heq
  have hstart : PromiseVm.Sound { vm with depth := vm.depth + 1, escaped := false } :=
    ⟨hvm.promises, hvm.head⟩
  obtain ⟨l, hl, hreturns⟩ := hrun _ code _ hstart inner last hinner
  have hlast : Extends vm last l := ⟨hl.pending, hl.distinct, hl.kept, hl.fresh⟩
  cases inner with
  | raised handler frames failed exn =>
    cases heq
    exact ⟨l, hlast, hreturns⟩
  | stopped =>
    cases heq
    exact ⟨l, hlast, hreturns⟩
  | value v =>
    dsimp only at heq
    split_ifs at heq with hescaped
    · cases heq
      exact ⟨l, hlast, fun _ => hreturns rfl⟩
    · cases heq
      exact ⟨l, ⟨hl.pending, hl.distinct, hl.kept, hl.fresh⟩, hreturns⟩
  | error =>
    dsimp only at heq
    split_ifs at heq with hescaped
    · cases heq
      exact ⟨l, hlast, fun _ => hreturns rfl⟩
    · cases heq
      exact ⟨l, ⟨hl.pending, hl.distinct, hl.kept, hl.fresh⟩, hreturns⟩

theorem vmCallClosureFromNative_keeps
    (hrun : ∀ env code vm, vm.Sound → Keeps vm (run env code vm)) (hvm : vm.Sound) (env : RunEnv)
    (id : ℕ) (code : Code α W) : Keeps vm (vmCallClosureFromNative run env id code vm) := by
  have htrace (events : List PromiseEvent) :
      Extends vm { vm with trace := vm.trace ++ events } [] :=
    ⟨.nil, List.nodup_nil, (Extends.refl vm).kept, (Extends.refl vm).fresh⟩
  rw [vmCallClosureFromNative]
  split_ifs
  · exact keeps_ok _ (htrace _)
  · exact Keeps.trans (htrace _) (runClosure_keeps hrun ((htrace _).sound hvm) env code)

theorem runWindAfter_keeps (hrun : ∀ env code vm, vm.Sound → Keeps vm (run env code vm))
    (hvm : vm.Sound) (env : RunEnv) (code : Code α W) :
    Keeps vm (runWindAfter run env code vm) := by
  rw [runWindAfter]
  split_ifs
  · exact keeps_ok _ (Extends.refl vm)
  · exact runClosure_keeps hrun hvm env code

theorem forceLoop_unforced {id : ℕ} {p : Promise α W} {thunk : Code α W}
    (hp : vm.promises[id]? = some p) (hunforced : p.state.isUnforced = true)
    (hthunk : p.thunk = some thunk) (env : RunEnv) (mark : PromiseValue α) (calls : ℕ) :
    forceLoop run env mark (calls + 1) (.promise id) vm =
      vmCallClosureFromNative run env id thunk
        (vm.setPromise id (p.begin vm.head) (.promise id)) >>=
          afterThunk (forceLoop run env mark calls) calls mark id p.state := by
  obtain ⟨state, _, slot⟩ := p
  obtain rfl := hthunk
  cases state with
  | delayed => simp only [forceLoop, hp, vmPromiseEvalBegin, Option.map_some]; rfl
  | delayForce => simp only [forceLoop, hp, vmPromiseEvalBegin, Option.map_some]; rfl
  | forced => cases hunforced
  | evaluating => cases hunforced
  | evaluatingForce => cases hunforced

theorem forceLoop_other (hv : ∀ p, vmIsPromiseValue vm v = some p → p.state.isUnforced = false)
    (env : RunEnv) (mark : PromiseValue α) (calls : ℕ) :
    (∃ final, forceLoop run env mark (calls + 1) v vm = finishForce calls vm mark final) ∨
      forceLoop run env mark (calls + 1) v vm = failForce calls vm mark := by
  cases v with
  | nil => exact .inl ⟨_, rfl⟩
  | datum a => exact .inl ⟨_, rfl⟩
  | promise id =>
    rw [forceLoop]
    cases hp : vm.promises[id]? with
    | none => exact .inl ⟨_, rfl⟩
    | some p =>
      have hnot := hv p hp
      obtain ⟨state, thunk, slot⟩ := p
      cases state with
      | delayed => cases hnot
      | delayForce => cases hnot
      | forced => exact .inl ⟨_, rfl⟩
      | evaluating => exact .inr rfl
      | evaluatingForce => exact .inr rfl

theorem Extends.commitOne {id : ℕ} {p : Promise α W} (hp : vm.promises[id]? = some p)
    (h : Extends (vm.setPromise id (p.begin vm.head) (.promise id)) vm' [])
    (result : PromiseValue α) :
    vmPromiseEvalCommitOne vm' (.promise id) result =
      some { vm' with
        promises := settle (Promise.commit · result) [id] vm'.promises, head := vm.head } := by
  have hself : (vm.setPromise id (p.begin vm.head) (.promise id)).promises[id]? =
      some (p.begin vm.head) := List.getElem?_set_self (List.getElem?_eq_some_iff.mp hp).1
  have hp' := (h.evaluating hself p.state.isEvaluating_begun).1
  rw [vmPromiseEvalCommitOne_head h.pending.eq_mark hp' p.state.isEvaluating_begun result,
    ← settle_cons hp' List.not_mem_nil, settle_nil]
  rfl

/-- So does the loop that forces a chain. -/
theorem forceLoop_keeps {start : PromiseVm α W}
    (hrun : ∀ env code vm, vm.Sound → Keeps vm (run env code vm)) (hstart : start.Sound)
    (env : RunEnv) (calls : ℕ) (v : PromiseValue α) (h : Extends start vm l) :
    Keeps start (forceLoop run env start.head calls v vm) := by
  induction calls generalizing v vm l with
  | zero => exact fun _ _ heq => by cases heq
  | succ calls ih =>
    by_cases hv : ∀ p, vmIsPromiseValue vm v = some p → p.state.isUnforced = false
    · rcases forceLoop_other hv env start.head calls with ⟨final, heq⟩ | heq
      · rw [heq]
        exact finishForce_keeps h hstart calls final
      · rw [heq]
        exact failForce_keeps h hstart calls
    · simp only [not_forall, Bool.not_eq_false] at hv
      obtain ⟨p, hp, hunforced⟩ := hv
      cases v with
      | nil => cases hp
      | datum a => cases hp
      | promise id =>
        have hvm := h.sound hstart
        obtain ⟨thunk, hthunk⟩ := hvm.thunk_of_unforced hp hunforced
        rw [forceLoop_unforced hp hunforced hthunk]
        intro outcome last heq
        obtain ⟨⟨called, vm'⟩, hcalled, heq⟩ := bind_eq_ok.mp heq
        have hbegin := Extends.begin hp hunforced
        obtain ⟨l', hl', hreturns⟩ := vmCallClosureFromNative_keeps hrun (hbegin.sound hvm) env
          id thunk called vm' hcalled
        have hvm' := (h.trans hbegin).trans hl'
        cases called with
        | value result =>
          obtain rfl := hreturns rfl
          rw [afterThunk] at heq
          split_ifs at heq with hstate
          · rw [Extends.commitOne hp hl' result] at heq
            have hcommitted := (hbegin.trans hl').committed result
            exact finishForce_keeps (h.trans hcommitted) hstart calls result outcome last heq
          · exact ih result hvm' outcome last heq
        | error => exact failForce_keeps hvm' hstart calls outcome last heq
        | raised handler frames failed exn =>
          cases heq
          exact ⟨_, hvm', fun h => by cases h⟩
        | stopped =>
          cases heq
          exact ⟨_, hvm', fun h => by cases h⟩

theorem vmForcePromiseValue_keeps
    (hrun : ∀ env code vm, vm.Sound → Keeps vm (run env code vm)) (hvm : vm.Sound) (env : RunEnv)
    (calls : ℕ) (v : PromiseValue α) : Keeps vm (vmForcePromiseValue run env calls v vm) :=
  forceLoop_keeps hrun hvm env calls v (Extends.refl vm)

theorem vmDispatchException_extends (h : Extends vm vm' l) (hvm : vm.Sound) {calls : ℕ}
    {env : RunEnv} {failed : Bool} {r : Bool × PromiseVm α W}
    (hr : vmDispatchException calls env vm.head failed vm' = .ok r) :
    Extends vm r.2 [] := by
  obtain ⟨unwound, hunwind, heq⟩ := bind_eq_ok.mp hr
  obtain rfl := h.unwindTo hvm hunwind
  have hback := h.rolledBack hvm
  cases heq
  exact ⟨hback.pending, hback.distinct, hback.kept, hback.fresh⟩

theorem windRaised_keeps (hrun : ∀ env code vm, vm.Sound → Keeps vm (run env code vm))
    {start : PromiseVm α W} (hstart : start.Sound) (h : Extends start vm l) (env : RunEnv)
    (after : Code α W) (handler frames : ℕ) (failed : Bool) (exn : PromiseValue α) :
    Keeps start (windRaised run env after handler frames failed exn vm) := by
  intro outcome last heq
  obtain ⟨⟨called, vm'⟩, hcalled, heq⟩ := bind_eq_ok.mp heq
  obtain ⟨l', hl', hreturns⟩ := runWindAfter_keeps hrun (h.sound hstart) _ after called vm' hcalled
  have hvm' := h.trans hl'
  cases called with
  | value result =>
    cases heq
    exact ⟨_, hvm', fun h => by cases h⟩
  | error =>
    cases heq
    exact ⟨_, hvm', fun h => by cases h⟩
  | raised handler frames failed exn =>
    cases heq
    exact ⟨_, hvm', fun h => by cases h⟩
  | stopped =>
    cases heq
    exact ⟨_, hvm', fun h => by cases h⟩

end Runs

/-- A run keeps the machine sound. -/
theorem runCode_keeps (calls : ℕ) (env : RunEnv) (code : Code α W) (vm : PromiseVm α W)
    (hvm : vm.Sound) : Keeps vm (runCode calls env code vm) := by
  induction calls generalizing env code vm with
  | zero => exact fun _ _ heq => by cases heq
  | succ calls ih =>
    have hnext (next : PromiseValue α → Code α W) (v : PromiseValue α) (vm' : PromiseVm α W)
        (h : Extends vm vm' []) : Keeps vm' (runCode calls env (next v) vm') :=
      ih env (next v) vm' (h.sound hvm)
    cases code with
    | ret v => exact keeps_ok _ (Extends.refl vm)
    | raise exn =>
      rw [runCode]
      split
      · exact keeps_ok _ (Extends.refl vm)
      · exact keeps_ok _ (Extends.refl vm)
    | access write next =>
      have hwrite : Extends vm { vm with world := write vm.world } [] :=
        ⟨.nil, List.nodup_nil, (Extends.refl vm).kept, (Extends.refl vm).fresh⟩
      exact Keeps.trans hwrite (ih env _ _ (hwrite.sound hvm))
    | call body next =>
      rw [runCode]
      split_ifs
      · exact keeps_ok _ (Extends.refl vm)
      · exact (ih _ body vm hvm).andThen (hnext next)
    | delay through thunk next =>
      have hmade : Extends vm (vm.makePromise
          ⟨if through then .delayForce else .delayed, some thunk, .nil⟩
          [.made vm.promises.length]) [] := by
        refine extends_makePromise ⟨fun _ => rfl, fun _ => rfl⟩ ?_ _
        cases through with
        | true => rfl
        | false => rfl
      exact Keeps.trans hmade (hnext next _ _ hmade)
    | makePromise v next =>
      have hmade : Extends vm (vm.makePromise ⟨.forced, none, v⟩ []) [] :=
        extends_makePromise ⟨fun h => absurd rfl h, fun h => by cases h⟩ rfl _
      exact Keeps.trans hmade (hnext next _ _ hmade)
    | force v next =>
      exact (vmForcePromiseValue_keeps ih hvm env calls v).andThen (hnext next)
    | guard body handler next =>
      rw [runCode]
      split_ifs
      · exact keeps_ok _ (Extends.refl vm)
      intro outcome last heq
      obtain ⟨⟨inner, vm'⟩, hinner, heq⟩ := bind_eq_ok.mp heq
      obtain ⟨l, hl, hreturns⟩ := ih _ body vm hvm inner vm' hinner
      cases inner with
      | value v =>
        obtain rfl := hreturns rfl
        exact Keeps.trans hl (hnext next v vm' hl) outcome last heq
      | raised target frames failed exn =>
        dsimp only at heq
        split_ifs at heq
        · obtain ⟨⟨failed', unwound⟩, hdispatch, heq⟩ := bind_eq_ok.mp heq
          have hunwound := vmDispatchException_extends hl hvm hdispatch
          dsimp only at heq
          split_ifs at heq
          · exact keeps_ok _ hunwound outcome last heq
          · refine Keeps.trans hunwound ?_ outcome last heq
            refine (hnext handler exn unwound hunwound).andThen fun v vm'' hvm'' => ?_
            exact ih env (next v) vm'' (hvm''.sound (hunwound.sound hvm))
        · cases heq
          exact ⟨l, hl, hreturns⟩
      | stopped =>
        cases heq
        exact ⟨l, hl, hreturns⟩
      | error =>
        cases heq
        exact ⟨l, hl, hreturns⟩
    | wind body after next =>
      rw [runCode]
      split_ifs
      · exact keeps_ok _ (Extends.refl vm)
      intro outcome last heq
      obtain ⟨⟨inner, vm'⟩, hinner, heq⟩ := bind_eq_ok.mp heq
      obtain ⟨l, hl, hreturns⟩ := ih _ body vm hvm inner vm' hinner
      cases inner with
      | value v =>
        obtain rfl := hreturns rfl
        refine Keeps.trans hl ?_ outcome last heq
        refine (ih _ after vm' (hl.sound hvm)).andThen fun _ vm'' hvm'' => ?_
        exact ih env (next v) vm'' (hvm''.sound (hl.sound hvm))
      | raised target frames failed exn =>
        exact windRaised_keeps ih hvm hl env after target frames failed exn outcome last heq
      | stopped =>
        cases heq
        exact ⟨l, hl, hreturns⟩
      | error =>
        cases heq
        exact ⟨l, hl, hreturns⟩

/-- No promise is under evaluation. -/
structure PromiseVm.Quiet (vm : PromiseVm α W) : Prop where
  sound : vm.Sound
  head : vm.head = .nil
  settled : ∀ (id : ℕ) (p : Promise α W), vm.promises[id]? = some p → p.state.isEvaluating = false

/-- A VM with a forced promise. -/
def settledVm : PromiseVm ℕ Unit := ⟨[⟨.forced, none, .datum 5⟩], .nil, 0, false, (), []⟩

/-- `(force (delay 17))`. -/
def sampleCode : Code ℕ Unit := .delay false (.ret (.datum 17)) fun v => .force v .ret

theorem settledVm_quiet : settledVm.Quiet := by
  have hp (id : ℕ) (p : Promise ℕ Unit) (hp : settledVm.promises[id]? = some p) :
      p = ⟨.forced, none, .datum 5⟩ := List.mem_singleton.mp (List.mem_of_getElem? hp)
  refine ⟨⟨fun id p h => ?_, .inl rfl⟩, rfl, fun id p h => by rw [hp id p h]; rfl⟩
  rw [hp id p h]
  exact ⟨fun hne => absurd rfl hne, fun h => by cases h⟩

end Eshkol.Vm.Promises
