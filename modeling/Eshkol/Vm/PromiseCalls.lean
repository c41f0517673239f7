import Eshkol.Vm.PromiseForce

/-!
# How Often Thunks are Called

A run that returns to native code calls the thunk of a promise at most once: exactly once if the
promise was not forced before and is now, unless the call was refused for want of a frame.
-/

namespace Eshkol.Vm.Promises

open Machine

variable {α W : Type} {vm vm' vm'' : PromiseVm α W} {l l' : List ℕ} {t t' : List PromiseEvent}

/-- The promise that an event is about. -/
def PromiseEvent.id : PromiseEvent → ℕ
  | .made id | .entered id | .refused id => id

/-- Whether a promise is neither forced nor under evaluation. -/
def PromiseVm.unforced (vm : PromiseVm α W) (id : ℕ) : Bool :=
  vm.promises[id]?.any fun p => p.state.isUnforced

/-- Whether a promise was unforced, or was made in the course of some events. -/
def PromiseVm.born (vm : PromiseVm α W) (t : List PromiseEvent) (id : ℕ) : Bool :=
  vm.unforced id || t.contains (.made id)

/-- The calls of the thunk of a promise, refused ones included. -/
def tally (t : List PromiseEvent) (id : ℕ) : ℕ := t.count (.entered id) + t.count (.refused id)

/-- The events of a run: each promise that was unforced or made, and is not unforced at the end,
was called once. -/
structure Tallied (vm vm' : PromiseVm α W) (t : List PromiseEvent) : Prop where
  trace : vm'.trace = vm.trace ++ t
  length_le : vm.promises.length ≤ vm'.promises.length
  settled : ∀ id < vm.promises.length, vm.unforced id = false → vm'.unforced id = false
  bound : ∀ e ∈ t, e.id < vm'.promises.length
  made : ∀ id, .made id ∈ t → vm.promises.length ≤ id
  born : ∀ id, vm'.unforced id = true → vm.born t id = true
  tally : ∀ id, tally t id = (vm.born t id && !vm'.unforced id).toNat

theorem PromiseVm.unforced_eq {id : ℕ} {p : Promise α W} (hp : vm.promises[id]? = some p) :
    vm.unforced id = p.state.isUnforced := by
  rw [PromiseVm.unforced, hp]
  rfl

theorem PromiseVm.unforced_of_le {id : ℕ} (hid : vm.promises.length ≤ id) :
    vm.unforced id = false := by
  rw [PromiseVm.unforced, List.getElem?_eq_none hid]
  rfl

theorem PromiseVm.lt_of_unforced {id : ℕ} (hid : vm.unforced id = true) :
    id < vm.promises.length := by
  by_contra hlt
  rw [PromiseVm.unforced_of_le (Nat.le_of_not_lt hlt)] at hid
  cases hid

theorem tally_append (t t' : List PromiseEvent) (id : ℕ) :
    tally (t ++ t') id = tally t id + tally t' id := by
  simp only [tally, List.count_append]
  omega

theorem PromiseVm.born_append (vm : PromiseVm α W) (t t' : List PromiseEvent) (id : ℕ) :
    vm.born (t ++ t') id = (vm.born t id || t'.contains (.made id)) := by
  simp [PromiseVm.born, Bool.or_assoc]

theorem Tallied.lt_of_born (h : Tallied vm vm' t) {id : ℕ}
    (hborn : vm.born t id = true) : id < vm'.promises.length := by
  rw [PromiseVm.born, Bool.or_eq_true, List.contains_iff_mem] at hborn
  rcases hborn with hborn | hborn
  · exact (PromiseVm.lt_of_unforced hborn).trans_le h.length_le
  · exact h.bound _ hborn

theorem tallied_nil (htrace : vm'.trace = vm.trace)
    (hlength : vm'.promises.length = vm.promises.length)
    (hunforced : ∀ id, vm'.unforced id = vm.unforced id) : Tallied vm vm' [] where
  trace := by rw [htrace, List.append_nil]
  length_le := hlength.ge
  settled := fun id _ h => by rw [hunforced, h]
  bound := fun _ he => absurd he List.not_mem_nil
  made := fun _ he => absurd he List.not_mem_nil
  born := fun id h => by simp [PromiseVm.born, ← hunforced, h]
  tally := fun id => by simp [PromiseVm.born, tally, hunforced]

theorem Tallied.trans (h : Tallied vm vm' t) (h' : Tallied vm' vm'' t') :
    Tallied vm vm'' (t ++ t') := by
  refine ⟨by rw [h'.trace, h.trace, List.append_assoc], h.length_le.trans h'.length_le, ?_, ?_,
    ?_, ?_, ?_⟩
  · intro id hlt hid
    exact h'.settled id (hlt.trans_le h.length_le) (h.settled id hlt hid)
  · intro e hmem
    rcases List.mem_append.mp hmem with hmem | hmem
    · exact (h.bound e hmem).trans_le h'.length_le
    · exact h'.bound e hmem
  · intro id hmem
    rcases List.mem_append.mp hmem with hmem | hmem
    · exact h.made id hmem
    · exact h.length_le.trans (h'.made id hmem)
  · intro id hid
    have hborn := h'.born id hid
    rw [PromiseVm.born, Bool.or_eq_true] at hborn
    rw [PromiseVm.born_append, Bool.or_eq_true]
    exact hborn.imp_left (h.born id)
  · intro id
    rw [tally_append, h.tally, h'.tally, PromiseVm.born_append, PromiseVm.born.eq_def vm' t']
    cases hmade : t'.contains (.made id) with
    | true =>
      -- A promise of the second run does not exist in the first one.
      have hge := h'.made id (List.contains_iff_mem.mp hmade)
      cases hborn : vm.born t id with
      | true => exact absurd (h.lt_of_born hborn) (Nat.not_lt.mpr hge)
      | false => simp
    | false =>
      cases hid : vm'.unforced id with
      | true => simp [h.born id hid]
      | false =>
        cases hborn : vm.born t id with
        | true => simp [h'.settled id (h.lt_of_born hborn) hid]
        | false => simp

/-! ### Steps -/

theorem tallied_begin {id : ℕ} {p : Promise α W} (hp : vm.promises[id]? = some p)
    (hunforced : p.state.isUnforced = true) {e : PromiseEvent}
    (he : e = .entered id ∨ e = .refused id) :
    Tallied vm { vm.setPromise id (p.begin vm.head) (.promise id) with trace := vm.trace ++ [e] }
      [e] := by
  have hlt : id < vm.promises.length := (List.getElem?_eq_some_iff.mp hp).1
  have hid : e.id = id := by
    rcases he with rfl | rfl
    · rfl
    · rfl
  have hnotMade (j : ℕ) : ([e].contains (.made j)) = false := by
    rcases he with rfl | rfl
    · rfl
    · rfl
  have hafter (j : ℕ) : PromiseVm.unforced { vm.setPromise id (p.begin vm.head) (.promise id) with
      trace := vm.trace ++ [e] } j = (vm.unforced j && !decide (id = j)) := by
    rw [PromiseVm.unforced, PromiseVm.setPromise]
    by_cases hj : id = j
    · subst hj
      rw [List.getElem?_set_self hlt]
      simp [Promise.isUnforced_begin]
    · rw [List.getElem?_set_ne hj, decide_eq_false hj, Bool.not_false, Bool.and_true]
      rfl
  refine ⟨rfl, by simp [PromiseVm.setPromise], ?_, ?_, ?_, ?_, ?_⟩
  · intro j _ hj
    rw [hafter, hj, Bool.false_and]
  · intro e' he'
    rw [List.mem_singleton.mp he', hid]
    simpa [PromiseVm.setPromise] using hlt
  · intro j hj
    rw [← List.contains_iff_mem, hnotMade] at hj
    cases hj
  · intro j hj
    rw [hafter, Bool.and_eq_true] at hj
    rw [PromiseVm.born, hj.1, Bool.true_or]
  · intro j
    rw [PromiseVm.born, hnotMade, Bool.or_false, hafter]
    by_cases hj : id = j
    · subst hj
      rw [PromiseVm.unforced_eq hp, hunforced]
      rcases he with rfl | rfl
      · simp [tally]
      · simp [tally]
    · rw [decide_eq_false hj]
      have hne : tally [e] j = 0 := by
        rcases he with rfl | rfl
        · simp [tally, hj]
        · simp [tally, hj]
      rw [hne]
      cases vm.unforced j with
      | true => rfl
      | false => rfl

theorem tallied_makePromise (p : Promise α W) {events : List PromiseEvent}
    (hevents : events = if p.state.isUnforced then [.made vm.promises.length] else []) :
    Tallied vm (vm.makePromise p events) events := by
  have hafter (j : ℕ) : (vm.makePromise p events).unforced j =
      (vm.unforced j || (p.state.isUnforced && decide (j = vm.promises.length))) := by
    rw [PromiseVm.unforced, PromiseVm.makePromise]
    rcases Nat.lt_trichotomy j vm.promises.length with hlt | rfl | hgt
    · rw [List.getElem?_append_left hlt, decide_eq_false (Nat.ne_of_lt hlt), Bool.and_false,
        Bool.or_false]
      rfl
    · rw [PromiseVm.unforced_of_le le_rfl, List.getElem?_concat_length]
      simp
    · rw [PromiseVm.unforced_of_le hgt.le, List.getElem?_eq_none (by simp; omega),
        decide_eq_false (Nat.ne_of_gt hgt), Bool.and_false, Bool.or_false]
      rfl
  have hmade (j : ℕ) : events.contains (.made j) =
      (p.state.isUnforced && decide (j = vm.promises.length)) := by
    rw [hevents]
    cases p.state.isUnforced with
    | true => simp
    | false => rfl
  have htally (j : ℕ) : tally events j = 0 := by
    rw [hevents]
    cases p.state.isUnforced with
    | true => simp [tally]
    | false => rfl
  refine ⟨rfl, by simp [PromiseVm.makePromise], ?_, ?_, ?_, ?_, ?_⟩
  · intro j hlt hj
    rw [hafter, hj, decide_eq_false (Nat.ne_of_lt hlt), Bool.and_false, Bool.or_false]
  · intro e he
    rw [hevents] at he
    split_ifs at he
    · rw [List.mem_singleton.mp he]
      simp [PromiseVm.makePromise, PromiseEvent.id]
    · cases he
  · intro j hj
    rw [← List.contains_iff_mem, hmade, Bool.and_eq_true, decide_eq_true_iff] at hj
    exact hj.2.ge
  · intro j hj
    rwa [PromiseVm.born, hmade, ← hafter]
  · intro j
    rw [PromiseVm.born, hmade, ← hafter, htally, Bool.and_not_self]
    rfl

theorem tallied_committed {mark : PromiseValue α} (h : Pending vm.promises mark vm.head l)
    (result : PromiseValue α) :
    Tallied vm { vm with
      promises := settle (Promise.commit · result) l vm.promises, head := mark } [] := by
  refine tallied_nil rfl (by simp [settle]) fun id => ?_
  rw [PromiseVm.unforced, PromiseVm.unforced]
  dsimp only
  rw [getElem?_settle, Option.any_map]
  by_cases hid : id ∈ l
  · obtain ⟨p, hp, heval⟩ := h.evaluating hid
    simp only [hp, Option.any_some, if_pos hid, PromiseState.not_unforced_of_evaluating heval]
    rfl
  · simp [hid]

/-! ### Runs -/

/-- A run that returns a value, and was not reached by a raise, calls thunks at most once. -/
def Counts (vm : PromiseVm α W) (x : Exec Empty (Outcome α × PromiseVm α W)) : Prop :=
  ∀ v vm', x = .ok (.value v, vm') → vm'.escaped = false →
    vm.escaped = false ∧ ∃ t, Tallied vm vm' t

theorem Counts.ok (v : PromiseValue α) : Counts vm (.ok (.value v, vm)) := by
  rintro _ _ ⟨⟩ hescaped
  exact ⟨hescaped, [], tallied_nil rfl rfl fun _ => rfl⟩

theorem Counts.trans {x : Exec Empty (Outcome α × PromiseVm α W)} (ht : Tallied vm vm' t)
    (hescaped : vm'.escaped = vm.escaped) (hx : Counts vm' x) : Counts vm x := by
  intro v vm'' heq hlast
  obtain ⟨hvm', t', ht'⟩ := hx v vm'' heq hlast
  exact ⟨hescaped.symm.trans hvm', _, ht.trans ht'⟩

theorem Counts.andThen {x : Exec Empty (Outcome α × PromiseVm α W)}
    {f : PromiseValue α → PromiseVm α W → Exec Empty (Outcome α × PromiseVm α W)}
    (hkeeps : Keeps vm x) (hx : Counts vm x)
    (hf : ∀ v vm', Extends vm vm' [] → Counts vm' (f v vm')) : Counts vm (andThen x f) := by
  intro v vm'' heq hlast
  obtain ⟨⟨first, vm'⟩, hfirst, heq⟩ := bind_eq_ok.mp heq
  cases first with
  | value u =>
    obtain ⟨l, hl, hreturns⟩ := hkeeps _ _ hfirst
    obtain rfl := hreturns rfl
    obtain ⟨hvm', t', ht'⟩ := hf u vm' hl v vm'' heq hlast
    obtain ⟨hvm, t, ht⟩ := hx u vm' hfirst hvm'
    exact ⟨hvm, _, ht.trans ht'⟩
  | raised handler frames failed exn => cases heq
  | stopped => cases heq
  | error => cases heq

section Runs

variable {run : Run α W}

theorem runClosure_tallied
    (hrun : ∀ env code vm, 0 < env.natives → vm.Sound → Counts vm (run env code vm))
    (hvm : vm.Sound) {env : RunEnv} {code : Code α W} {v : PromiseValue α}
    (h : runClosure run env code vm = .ok (.value v, vm')) :
    vm'.escaped = vm.escaped ∧ ∃ t, Tallied vm vm' t := by
  obtain ⟨⟨inner, last⟩, hinner, heq⟩ := bind_eq_ok.mp h
  have hstart : PromiseVm.Sound { vm with depth := vm.depth + 1, escaped := false } :=
    ⟨hvm.promises, hvm.head⟩
  cases inner with
  | value u =>
    dsimp only at heq
    split_ifs at heq with hescaped
    · cases heq
    · obtain ⟨-, t, ht⟩ := hrun _ code _ (Nat.succ_pos env.natives) hstart u last hinner
        (Bool.not_eq_true _ ▸ hescaped)
      cases heq
      exact ⟨rfl, t, ht.trace, ht.length_le, ht.settled, ht.bound, ht.made, ht.born, ht.tally⟩
  | error =>
    dsimp only at heq
    split_ifs at heq
    · cases heq
    · cases heq
  | raised handler frames failed exn => cases heq
  | stopped => cases heq

theorem vmCallClosureFromNative_tallied
    (hrun : ∀ env code vm, 0 < env.natives → vm.Sound → Counts vm (run env code vm))
    (hvm : vm.Sound) {env : RunEnv} {id : ℕ} {p : Promise α W} (hp : vm.promises[id]? = some p)
    (hunforced : p.state.isUnforced = true) {thunk : Code α W} {v : PromiseValue α}
    (h : vmCallClosureFromNative run env id thunk
      (vm.setPromise id (p.begin vm.head) (.promise id)) = .ok (.value v, vm')) :
    vm'.escaped = vm.escaped ∧ ∃ t, Tallied vm vm' t := by
  rw [vmCallClosureFromNative] at h
  have hbegin := Extends.begin hp hunforced
  split_ifs at h
  · cases h
    exact ⟨rfl, _, tallied_begin hp hunforced (.inr rfl)⟩
  · have hstart : Extends vm { vm.setPromise id (p.begin vm.head) (.promise id) with
        trace := vm.trace ++ [.entered id] } [id] :=
      ⟨hbegin.pending, hbegin.distinct, hbegin.kept, hbegin.fresh⟩
    obtain ⟨hescaped, t, ht⟩ := runClosure_tallied hrun (hstart.sound hvm) h
    exact ⟨hescaped, _, (tallied_begin hp hunforced (.inl rfl)).trans ht⟩

theorem finishForce_tallied (h : Extends vm vm' l) (hvm : vm.Sound) {calls : ℕ}
    {final v : PromiseValue α} (heq : finishForce calls vm' vm.head final = .ok (.value v, vm'')) :
    v = final ∧ vm''.escaped = vm'.escaped ∧ Tallied vm' vm'' [] := by
  obtain ⟨⟨committed, last⟩, hcommit, heq⟩ := bind_eq_ok.mp heq
  obtain ⟨rfl, rfl⟩ := Prod.mk.inj (h.commitTo hvm hcommit)
  cases heq
  exact ⟨rfl, rfl, tallied_committed h.pending final⟩

/-- The calls of a chain are tallied. -/
theorem forceLoop_tallied {start : PromiseVm α W} (hkeeps : ∀ env code vm, vm.Sound →
      Keeps vm (run env code vm))
    (hrun : ∀ env code vm, 0 < env.natives → vm.Sound → Counts vm (run env code vm))
    (hstart : start.Sound) (env : RunEnv) (calls : ℕ) (v : PromiseValue α)
    (h : Extends start vm l) {final : PromiseValue α} {last : PromiseVm α W}
    (heq : forceLoop run env start.head calls v vm = .ok (.value final, last)) :
    last.escaped = vm.escaped ∧ ∃ t, Tallied vm last t := by
  induction calls generalizing v vm l with
  | zero => cases heq
  | succ calls ih =>
    by_cases hv : ∀ p, vmIsPromiseValue vm v = some p → p.state.isUnforced = false
    · rcases forceLoop_other hv env start.head calls with ⟨value, hloop⟩ | hloop
      · rw [hloop] at heq
        obtain ⟨-, hescaped, ht⟩ := finishForce_tallied h hstart heq
        exact ⟨hescaped, _, ht⟩
      · rw [hloop] at heq
        obtain ⟨unwound, -, heq⟩ := bind_eq_ok.mp heq
        cases heq
    · simp only [not_forall, Bool.not_eq_false] at hv
      obtain ⟨p, hp, hunforced⟩ := hv
      cases v with
      | nil => cases hp
      | datum a => cases hp
      | promise id =>
        have hvm := h.sound hstart
        obtain ⟨thunk, hthunk⟩ := hvm.thunk_of_unforced hp hunforced
        rw [forceLoop_unforced hp hunforced hthunk] at heq
        obtain ⟨⟨called, vm'⟩, hcalled, heq⟩ := bind_eq_ok.mp heq
        have hbegin := Extends.begin hp hunforced
        obtain ⟨l', hl', hreturns⟩ := vmCallClosureFromNative_keeps hkeeps (hbegin.sound hvm)
          env id thunk called vm' hcalled
        have hvm' := hbegin.trans hl'
        cases called with
        | value result =>
          obtain rfl := hreturns rfl
          obtain ⟨hescaped, t, ht⟩ := vmCallClosureFromNative_tallied hrun hvm hp hunforced hcalled
          rw [afterThunk] at heq
          split_ifs at heq with hstate
          · rw [Extends.commitOne hp hl' result] at heq
            obtain ⟨-, hlast, ht'⟩ :=
              finishForce_tallied (h.trans (hvm'.committed result)) hstart heq
            have hcommitted := tallied_committed hvm'.pending result
            exact ⟨hlast.trans hescaped, _, (ht.trans hcommitted).trans ht'⟩
          · obtain ⟨hlast, t', ht'⟩ := ih result (h.trans hvm') heq
            exact ⟨hlast.trans hescaped, _, ht.trans ht'⟩
        | error =>
          obtain ⟨unwound, -, heq⟩ := bind_eq_ok.mp heq
          cases heq
        | raised handler frames failed exn => cases heq
        | stopped => cases heq

end Runs

/-- A run counts the calls of each thunk. -/
theorem runCode_counts (calls : ℕ) (env : RunEnv) (code : Code α W) (vm : PromiseVm α W)
    (henv : 0 < env.natives) (hvm : vm.Sound) : Counts vm (runCode calls env code vm) := by
  induction calls generalizing env code vm with
  | zero => exact fun _ _ heq => by cases heq
  | succ calls ih =>
    have hnext (next : PromiseValue α → Code α W) (v : PromiseValue α) (vm' : PromiseVm α W)
        (h : Extends vm vm' []) : Counts vm' (runCode calls env (next v) vm') :=
      ih env (next v) vm' henv (h.sound hvm)
    cases code with
    | ret v => exact Counts.ok v
    | raise exn =>
      rw [runCode]
      split
      · exact fun _ _ heq => by cases heq
      · exact fun _ _ heq => by cases heq
    | access write next =>
      have hwrite : PromiseVm.Sound { vm with world := write vm.world } := ⟨hvm.promises, hvm.head⟩
      have htallied : Tallied vm { vm with world := write vm.world } [] :=
        tallied_nil rfl rfl fun _ => rfl
      exact Counts.trans htallied rfl (ih env (next vm.world) _ henv hwrite)
    | call body next =>
      rw [runCode]
      split_ifs
      · exact fun _ _ heq => by cases heq
      · exact Counts.andThen (runCode_keeps calls _ body vm hvm) (ih _ body vm henv hvm)
          (hnext next)
    | delay through thunk next =>
      have hmade : (vm.makePromise ⟨if through then .delayForce else .delayed, some thunk, .nil⟩
          [.made vm.promises.length]).Sound := by
        refine (extends_makePromise ⟨fun _ => rfl, fun _ => rfl⟩ ?_ _).sound hvm
        cases through with
        | true => rfl
        | false => rfl
      refine Counts.trans (tallied_makePromise _ ?_) rfl (ih env _ _ henv hmade)
      cases through with
      | true => rfl
      | false => rfl
    | makePromise v next =>
      have hmade : (vm.makePromise ⟨.forced, none, v⟩ []).Sound :=
        (extends_makePromise ⟨fun h => absurd rfl h, fun h => by cases h⟩ rfl _).sound hvm
      exact Counts.trans (tallied_makePromise _ rfl) rfl (ih env _ _ henv hmade)
    | force v next =>
      have hkeeps := runCode_keeps (α := α) (W := W) calls
      refine Counts.andThen (vmForcePromiseValue_keeps hkeeps hvm env calls v) ?_ (hnext next)
      intro final last heq hescaped
      obtain ⟨hsame, ht⟩ := forceLoop_tallied hkeeps ih hvm env calls v (Extends.refl vm) heq
      exact ⟨hsame.symm.trans hescaped, ht⟩
    | guard body handler next =>
      rw [runCode]
      split_ifs
      · exact fun _ _ heq => by cases heq
      intro v last heq hescaped
      obtain ⟨⟨inner, vm'⟩, hinner, heq⟩ := bind_eq_ok.mp heq
      have hbody := ih { env with handlers := env.handlers + 1 } body vm henv hvm
      obtain ⟨l, hl, hreturns⟩ := runCode_keeps calls _ body vm hvm inner vm' hinner
      cases inner with
      | value u =>
        obtain rfl := hreturns rfl
        obtain ⟨hvm', t', ht'⟩ := hnext next u vm' hl v last heq hescaped
        obtain ⟨hnot, t, ht⟩ := hbody u vm' hinner hvm'
        exact ⟨hnot, _, ht.trans ht'⟩
      | raised target frames failed exn =>
        -- What runs behind the handler does not return to the native call.
        dsimp only at heq
        split_ifs at heq
        swap
        · cases heq
        obtain ⟨⟨failed', unwound⟩, hdispatch, heq⟩ := bind_eq_ok.mp heq
        have hunwound := vmDispatchException_extends hl hvm hdispatch
        obtain ⟨_, -, hdispatch⟩ := bind_eq_ok.mp hdispatch
        dsimp only at heq
        split_ifs at heq
        · cases heq
        · have hcounts := Counts.andThen (runCode_keeps calls env (handler exn) unwound
            (hunwound.sound hvm)) (ih env (handler exn) unwound henv (hunwound.sound hvm))
            fun u vm'' hvm'' => ih env (next u) vm'' henv (hvm''.sound (hunwound.sound hvm))
          have hnot := (hcounts v last heq hescaped).1
          cases hdispatch
          exact absurd henv (of_decide_eq_false hnot)
      | stopped => cases heq
      | error => cases heq
    | wind body after next =>
      rw [runCode]
      split_ifs
      · exact fun _ _ heq => by cases heq
      intro v last heq hescaped
      obtain ⟨⟨inner, vm'⟩, hinner, heq⟩ := bind_eq_ok.mp heq
      have hbody := ih { env with frames := env.frames + 1, winds := env.winds + 1 } body vm
        henv hvm
      obtain ⟨l, hl, hreturns⟩ := runCode_keeps calls _ body vm hvm inner vm' hinner
      cases inner with
      | value u =>
        obtain rfl := hreturns rfl
        have hsound := hl.sound hvm
        have hafter := ih { env with frames := env.frames + 1 } after vm' henv hsound
        have hcounts := Counts.andThen (runCode_keeps calls _ after vm' hsound) hafter
          fun _ vm'' hvm'' => ih env (next u) vm'' henv (hvm''.sound hsound)
        obtain ⟨hvm', t', ht'⟩ := hcounts v last heq hescaped
        obtain ⟨hnot, t, ht⟩ := hbody u vm' hinner hvm'
        exact ⟨hnot, _, ht.trans ht'⟩
      | raised target frames failed exn =>
        obtain ⟨⟨called, vm''⟩, -, heq⟩ := bind_eq_ok.mp heq
        cases called with
        | value result => cases heq
        | error => cases heq
        | raised handler frames failed exn => cases heq
        | stopped => cases heq
      | stopped => cases heq
      | error => cases heq

theorem vmForcePromiseValue_tallied (hvm : vm.Sound) {env : RunEnv} {calls bound : ℕ}
    {v final : PromiseValue α}
    (h : vmForcePromiseValue (runCode calls) env bound v vm = .ok (.value final, vm')) :
    ∃ t, Tallied vm vm' t :=
  (forceLoop_tallied (runCode_keeps calls) (runCode_counts calls) hvm env bound v
    (Extends.refl vm) h).2

end Eshkol.Vm.Promises
