import Eshkol.Vm.PromiseCalls

/-!
# Lists of Promises

`force` on promises that are linked by `delay-force`: each thunk returns the next promise, and the
last one is an ordinary `delay`, forced already, or no promise. All of them get the value of the
last, and each thunk is called once, as long as a frame is free for the call and no thunk catches
an exception. Without a frame, `vm_call_closure_from_native` returns the empty list and sets no
`error`, and `force` keeps the empty list as the value. A thunk that catches an exception goes on in
the outermost `vm_run`, which halts where it returns: the force never ends.

A raise to a handler outside of the force puts back every promise whose evaluation had begun.
-/

namespace Eshkol.Vm.Promises

open Machine

variable {α W : Type} {vm vm' last : PromiseVm α W} {l ids : List ℕ} {v final : PromiseValue α}
  {env : RunEnv} {id : ℕ} {thunk : Code α W}

/-! ### Linked promises -/

/-- How the call of the thunk of a promise with a number returns: its value, and the VM then. -/
abbrev ThunkCall (α W : Type) : Type :=
  ℕ → Code α W → PromiseVm α W → PromiseValue α → PromiseVm α W → Prop

/-- The bytecode of a thunk, with a frame for it, gets to its end with a value. -/
def ThunkRuns (env : RunEnv) : ThunkCall α W := fun id thunk vm v vm' =>
  Machine.Yields (fun calls => runCode calls
    { env with frames := env.frames + 1, natives := env.natives + 1 } thunk
    { vm with trace := vm.trace ++ [.entered id], depth := vm.depth + 1, escaped := false })
    (.value v, vm')

/-- What a thunk returns, whether or not the native call around its bytecode gets to see it. -/
def returnThunk (env : RunEnv) : ThunkCall α W := fun id thunk vm v vm' =>
  ∃ after, ThunkRuns env id thunk vm v after ∧
    vm' = { after with depth := after.depth - 1, escaped := vm.escaped }

/-- The call of a thunk, with a frame for it. -/
def enterThunk (env : RunEnv) : ThunkCall α W := fun id thunk vm v vm' =>
  Machine.Yields (fun calls => runClosure (runCode calls) env thunk
    { vm with trace := vm.trace ++ [.entered id] }) (.value v, vm')

/-- The call of a thunk as `force` makes it. -/
def forceThunk (env : RunEnv) : ThunkCall α W := fun id thunk vm v vm' =>
  Machine.Yields (fun calls => vmCallClosureFromNative (runCode calls) env id thunk vm)
    (.value v, vm')

/-- A thunk catches an exception on its way to its end: a handler that it installed got one. -/
def CatchesOne (env : RunEnv) (id : ℕ) (thunk : Code α W) (vm : PromiseVm α W) : Prop :=
  ∃ v after, ThunkRuns env id thunk vm v after ∧ after.escaped = true

/-- The promises from `v` on, the value at their end, and the VM behind the last call: each thunk
of `delay-force` returns the next promise. -/
inductive Linked (call : ThunkCall α W) : PromiseVm α W → PromiseValue α → List ℕ →
    PromiseValue α → PromiseVm α W → Prop
  | value {vm : PromiseVm α W} {v : PromiseValue α} (h : vmIsPromiseValue vm v = none) :
      Linked call vm v [] v vm
  | forced {vm : PromiseVm α W} {id : ℕ} {p : Promise α W} (hp : vm.promises[id]? = some p)
      (hforced : p.state = .forced) : Linked call vm (.promise id) [id] p.slot vm
  | delayed {vm vm' : PromiseVm α W} {id : ℕ} {p : Promise α W} {thunk : Code α W}
      {result : PromiseValue α} (hp : vm.promises[id]? = some p) (hstate : p.state = .delayed)
      (hthunk : p.thunk = some thunk)
      (hcall : call id thunk (vm.setPromise id (p.begin vm.head) (.promise id)) result vm') :
      Linked call vm (.promise id) [id] result vm'
  | delayForce {vm vm' last : PromiseVm α W} {id : ℕ} {p : Promise α W} {thunk : Code α W}
      {v final : PromiseValue α} {ids : List ℕ} (hp : vm.promises[id]? = some p)
      (hstate : p.state = .delayForce) (hthunk : p.thunk = some thunk)
      (hcall : call id thunk (vm.setPromise id (p.begin vm.head) (.promise id)) v vm')
      (hrest : Linked call vm' v ids final last) :
      Linked call vm (.promise id) (id :: ids) final last

/-- Some thunk of the promises from `v` on catches an exception. -/
inductive Catches (env : RunEnv) : PromiseVm α W → PromiseValue α → Prop
  | here {vm : PromiseVm α W} {id : ℕ} {p : Promise α W} {thunk : Code α W}
      (hp : vm.promises[id]? = some p) (hunforced : p.state.isUnforced = true)
      (hthunk : p.thunk = some thunk)
      (hcatches : CatchesOne env id thunk (vm.setPromise id (p.begin vm.head) (.promise id))) :
      Catches env vm (.promise id)
  | later {vm vm' : PromiseVm α W} {id : ℕ} {p : Promise α W} {thunk : Code α W}
      {v : PromiseValue α} (hp : vm.promises[id]? = some p) (hstate : p.state = .delayForce)
      (hthunk : p.thunk = some thunk)
      (hcall : returnThunk env id thunk (vm.setPromise id (p.begin vm.head) (.promise id)) v vm')
      (hlater : Catches env vm' v) : Catches env vm (.promise id)

/-- The promise is forced, with a value. -/
def Stored (vm : PromiseVm α W) (id : ℕ) (final : PromiseValue α) : Prop :=
  ∃ p, vm.promises[id]? = some p ∧ p.state = .forced ∧ p.slot = final

theorem forceThunk_eq (h : env.frames < maxFrames) :
    (forceThunk env : ThunkCall α W) = enterThunk env := by
  funext id thunk vm v vm'
  simp only [forceThunk, vmCallClosureFromNative, if_neg (Nat.not_le.mpr h), enterThunk]

/-! ### Thunks that catch -/

theorem runClosure_value {run : Run α W} {code : Code α W} {after : PromiseVm α W}
    (h : run { env with frames := env.frames + 1, natives := env.natives + 1 } code
      { vm with depth := vm.depth + 1, escaped := false } = .ok (.value v, after)) :
    runClosure run env code vm =
      if after.escaped then .ok (.stopped, after)
      else .ok (.value v, { after with depth := after.depth - 1, escaped := vm.escaped }) := by
  rw [runClosure, h]
  rfl

theorem returnThunk.enter (h : returnThunk env id thunk vm v vm')
    (hcatches : ¬CatchesOne env id thunk vm) : enterThunk env id thunk vm v vm' := by
  obtain ⟨after, ⟨n, hn⟩, rfl⟩ := h
  have hescaped : after.escaped = false :=
    Bool.eq_false_iff.mpr fun hescaped => hcatches ⟨v, after, ⟨n, hn⟩, hescaped⟩
  refine ⟨n, fun calls hcalls => ?_⟩
  exact (runClosure_value (hn calls hcalls)).trans (if_neg (by rw [hescaped]; decide))

/-- The native call around a thunk that catches an exception is left. -/
theorem CatchesOne.stopped (h : CatchesOne env id thunk vm) :
    ∃ after, Machine.Yields (fun calls => runClosure (runCode calls) env thunk
      { vm with trace := vm.trace ++ [.entered id] }) (.stopped, after) := by
  obtain ⟨v, after, ⟨n, hn⟩, hescaped⟩ := h
  refine ⟨after, n, fun calls hcalls => ?_⟩
  exact (runClosure_value (hn calls hcalls)).trans (if_pos hescaped)

theorem Catches.unforced (h : Catches env vm v) : ∃ id, v = .promise id ∧ vm.unforced id = true := by
  cases h with
  | @here _ id p thunk hp hunforced hthunk hcatches =>
    exact ⟨id, rfl, by rw [PromiseVm.unforced_eq hp, hunforced]⟩
  | @later _ vm' id p thunk v hp hstate hthunk hcall hlater =>
    exact ⟨id, rfl, by rw [PromiseVm.unforced_eq hp, hstate]; rfl⟩

theorem forceLoop_catchesOne (hframes : env.frames < maxFrames) {id : ℕ} {p : Promise α W}
    (hp : vm.promises[id]? = some p) (hunforced : p.state.isUnforced = true)
    (hthunk : p.thunk = some thunk)
    (h : CatchesOne env id thunk (vm.setPromise id (p.begin vm.head) (.promise id)))
    (mark : PromiseValue α) :
    ∃ n after, ∀ calls ≥ n, ∀ bound ≥ 1,
      forceLoop (runCode calls) env mark bound (.promise id) vm = .ok (.stopped, after) := by
  obtain ⟨after, n, hn⟩ := h.stopped
  refine ⟨n, after, fun calls hcalls bound hbound => ?_⟩
  obtain ⟨bound, rfl⟩ := Nat.exists_eq_add_of_le' hbound
  have hrun : runClosure (runCode calls) env thunk _ = _ := hn calls hcalls
  rw [forceLoop_unforced hp hunforced hthunk, vmCallClosureFromNative,
    if_neg (Nat.not_le.mpr hframes), hrun]
  rfl

theorem forceLoop_catches (hframes : env.frames < maxFrames) (h : Catches env vm v)
    (mark : PromiseValue α) :
    ∃ n m after, ∀ calls ≥ n, ∀ bound ≥ m,
      forceLoop (runCode calls) env mark bound v vm = .ok (.stopped, after) := by
  induction h with
  | here hp hunforced hthunk hcatches =>
    obtain ⟨n, after, hloop⟩ := forceLoop_catchesOne hframes hp hunforced hthunk hcatches mark
    exact ⟨n, 1, after, hloop⟩
  | @later vm vm' id p thunk v hp hstate hthunk hcall _ ih =>
    have hunforced : p.state.isUnforced = true := by
      rw [hstate]
      rfl
    by_cases hcatches : CatchesOne env id thunk (vm.setPromise id (p.begin vm.head) (.promise id))
    · obtain ⟨n, after, hloop⟩ :=
        forceLoop_catchesOne hframes hp hunforced hthunk hcatches mark
      exact ⟨n, 1, after, hloop⟩
    · obtain ⟨n, hn⟩ := hcall.enter hcatches
      obtain ⟨n', m, after, hloop⟩ := ih
      refine ⟨max n n', m + 1, after, fun calls hcalls bound hbound => ?_⟩
      obtain ⟨bound, rfl⟩ : ∃ b, bound = b + 1 := ⟨bound - 1, by omega⟩
      have hrun : runClosure (runCode calls) env thunk _ = _ := hn calls (le_of_max_le_left hcalls)
      rw [forceLoop_unforced hp hunforced hthunk, vmCallClosureFromNative,
        if_neg (Nat.not_le.mpr hframes), hrun, ok_bind, afterThunk,
        if_neg (by rw [hstate]; exact fun h => by cases h)]
      exact hloop calls (le_of_max_le_right hcalls) bound (Nat.le_of_succ_le_succ hbound)

/-- A force with a frame for it does not end if some thunk catches an exception. -/
theorem vmForcePromiseValue_catches (hframes : env.frames < maxFrames) (h : Catches env vm v) :
    ∃ after, Machine.Yields (fun calls => vmForcePromiseValue (runCode calls) env calls v vm)
      (.stopped, after) := by
  obtain ⟨n, m, after, hloop⟩ := forceLoop_catches hframes h vm.head
  exact ⟨after, max n m, fun calls hcalls =>
    hloop calls (le_of_max_le_left hcalls) calls (le_of_max_le_right hcalls)⟩

theorem Linked.enter (hl : Linked (returnThunk env) vm v ids final last)
    (hcatches : ¬Catches env vm v) : Linked (enterThunk env) vm v ids final last := by
  induction hl with
  | value h => exact .value h
  | forced hp hforced => exact .forced hp hforced
  | delayed hp hstate hthunk hcall =>
    exact .delayed hp hstate hthunk (hcall.enter fun h =>
      hcatches (.here hp (by rw [hstate]; rfl) hthunk h))
  | delayForce hp hstate hthunk hcall _ ih =>
    exact .delayForce hp hstate hthunk
      (hcall.enter fun h => hcatches (.here hp (by rw [hstate]; rfl) hthunk h))
      (ih fun h => hcatches (.later hp hstate hthunk hcall h))

/-! ### Linked promises that are forced -/

theorem forceLoop_value (run : Run α W) (h : vmIsPromiseValue vm v = none) (env : RunEnv)
    (mark : PromiseValue α) (calls : ℕ) :
    forceLoop run env mark (calls + 1) v vm = finishForce calls vm mark v := by
  cases v with
  | nil => rfl
  | datum a => rfl
  | promise id =>
    rw [vmIsPromiseValue] at h
    rw [forceLoop, h]

variable {p : Promise α W}

theorem forceLoop_forced (run : Run α W) (hp : vm.promises[id]? = some p)
    (hforced : p.state = .forced) (env : RunEnv) (mark : PromiseValue α) (calls : ℕ) :
    forceLoop run env mark (calls + 1) (.promise id) vm = finishForce calls vm mark p.slot := by
  obtain ⟨state, thunk, slot⟩ := p
  obtain rfl : state = .forced := hforced
  rw [forceLoop, hp]

theorem finishForce_eq (h : Extends vm vm' l) (hvm : vm.Sound) (final : PromiseValue α) {calls : ℕ}
    (hcalls : l.length < calls) :
    finishForce calls vm' vm.head final =
      .ok (.value final, { vm' with
        promises := settle (Promise.commit · final) l vm'.promises, head := vm.head }) := by
  rw [finishForce, vmPromiseEvalCommitTo_pending h.pending hvm.isMark (h.ne_head hvm) h.distinct
    final hcalls, ok_bind]
  rfl

theorem stored_settle (h : Pending vm.promises v vm.head l) (final mark : PromiseValue α)
    (hid : id ∈ l) :
    Stored { vm with
      promises := settle (Promise.commit · final) l vm.promises, head := mark } id final := by
  obtain ⟨p, hp, -⟩ := h.evaluating hid
  refine ⟨p.commit final, ?_, rfl, rfl⟩
  dsimp only
  rw [getElem?_settle, hp, Option.map_some, if_pos hid]

theorem Stored.settle (h : Stored vm id final) (hid : id ∉ l) (result mark : PromiseValue α) :
    Stored { vm with
      promises := settle (Promise.commit · result) l vm.promises, head := mark } id final := by
  obtain ⟨p, hp, hforced⟩ := h
  refine ⟨p, ?_, hforced⟩
  dsimp only
  rw [getElem?_settle, hp, Option.map_some, if_neg hid]

theorem Extends.not_mem (h : Extends vm vm' l) (hp : vm'.promises[id]? = some p)
    (hnot : p.state.isEvaluating = false) : id ∉ l := by
  intro hid
  obtain ⟨q, hq, heval⟩ := h.pending.evaluating hid
  obtain rfl := Option.some.inj (hq.symm.trans hp)
  rw [heval] at hnot
  cases hnot

theorem Stored.extends (h : Stored vm id final) (he : Extends vm vm' l) : Stored vm' id final := by
  obtain ⟨p, hp, hforced, hslot⟩ := h
  exact ⟨p, he.forced hp hforced, hforced, hslot⟩

theorem forceThunk_extends (hvm : vm.Sound) (hp : vm.promises[id]? = some p)
    (hunforced : p.state.isUnforced = true)
    (hcall : forceThunk env id thunk (vm.setPromise id (p.begin vm.head) (.promise id)) v vm') :
    Extends (vm.setPromise id (p.begin vm.head) (.promise id)) vm' [] := by
  obtain ⟨n, hn⟩ := hcall
  have hbegin := Extends.begin hp hunforced
  obtain ⟨l, hl, hreturns⟩ := vmCallClosureFromNative_keeps (runCode_keeps n)
    (hbegin.sound hvm) env id thunk _ _ (hn n le_rfl)
  obtain rfl := hreturns rfl
  exact hl

/-- Forcing a chain of promises stores its last value in each of them. -/
theorem forceLoop_linked {start : PromiseVm α W} (hstart : start.Sound)
    (hl : Linked (forceThunk env) vm v ids final last) (h : Extends start vm l) :
    ∃ n m after, (∀ calls ≥ n, ∀ bound ≥ m,
        forceLoop (runCode calls) env start.head bound v vm = .ok (.value final, after)) ∧
      Extends start after [] ∧ after.trace = last.trace ∧
      (∀ id ∈ l, Stored after id final) ∧ ∀ id ∈ ids, Stored after id final := by
  induction hl generalizing l with
  | @value vm v hv =>
    refine ⟨0, l.length + 2, _, fun calls _ bound hbound => ?_, h.committed v, rfl,
      fun id hid => stored_settle h.pending v _ hid, fun id hid => absurd hid List.not_mem_nil⟩
    obtain ⟨bound, rfl⟩ : ∃ b, bound = b + 1 := ⟨bound - 1, by omega⟩
    rw [forceLoop_value _ hv]
    exact finishForce_eq h hstart v (by omega)
  | @forced vm id p hp hforced =>
    refine ⟨0, l.length + 2, _, fun calls _ bound hbound => ?_, h.committed p.slot, rfl,
      fun id hid => stored_settle h.pending p.slot _ hid, fun id' hid' => ?_⟩
    · obtain ⟨bound, rfl⟩ : ∃ b, bound = b + 1 := ⟨bound - 1, by omega⟩
      rw [forceLoop_forced _ hp hforced]
      exact finishForce_eq h hstart p.slot (by omega)
    · obtain rfl := List.mem_singleton.mp hid'
      have hstored : Stored vm id' p.slot := ⟨p, hp, hforced, rfl⟩
      exact hstored.settle (h.not_mem hp (by rw [hforced]; rfl)) p.slot _
  | @delayed vm vm' id p thunk result hp hstate hthunk hcall =>
    have hunforced : p.state.isUnforced = true := by
      rw [hstate]
      rfl
    have hvm' := forceThunk_extends (h.sound hstart) hp hunforced hcall
    obtain ⟨n, hn⟩ := hcall
    have hfinish := h.trans (((Extends.begin hp hunforced).trans hvm').committed result)
    refine ⟨n, l.length + 2, _, fun calls hcalls bound hbound => ?_, hfinish.committed result,
      rfl, fun id hid => stored_settle hfinish.pending result _ hid, fun id' hid' => ?_⟩
    · obtain ⟨bound, rfl⟩ : ∃ b, bound = b + 1 := ⟨bound - 1, by omega⟩
      have hrun : vmCallClosureFromNative (runCode calls) env id thunk _ = _ := hn calls hcalls
      rw [forceLoop_unforced hp hunforced hthunk, hrun, ok_bind, afterThunk, if_pos hstate,
        Extends.commitOne hp hvm' result]
      exact finishForce_eq hfinish hstart result (Nat.lt_of_succ_lt_succ hbound)
    · obtain rfl := List.mem_singleton.mp hid'
      have hstored := stored_settle ((Extends.begin hp hunforced).trans hvm').pending result
        vm.head (List.mem_singleton_self id')
      refine hstored.settle ?_ result _
      exact h.not_mem hp (by rw [hstate]; rfl)
  | @delayForce vm vm' last id p thunk v final ids hp hstate hthunk hcall _ ih =>
    have hunforced : p.state.isUnforced = true := by
      rw [hstate]
      rfl
    have hvm' := forceThunk_extends (h.sound hstart) hp hunforced hcall
    obtain ⟨n, hn⟩ := hcall
    obtain ⟨n', m, after, hloop, hafter, htrace, hbegun, hids⟩ :=
      ih (h.trans ((Extends.begin hp hunforced).trans hvm'))
    refine ⟨max n n', m + 1, after, fun calls hcalls bound hbound => ?_, hafter, htrace,
      fun id hid => hbegun id (List.mem_append_right _ hid), fun id' hid' => ?_⟩
    · obtain ⟨bound, rfl⟩ : ∃ b, bound = b + 1 := ⟨bound - 1, by omega⟩
      have hrun : vmCallClosureFromNative (runCode calls) env id thunk _ = _ :=
        hn calls (le_of_max_le_left hcalls)
      rw [forceLoop_unforced hp hunforced hthunk, hrun, ok_bind, afterThunk,
        if_neg (by rw [hstate]; exact fun h => by cases h)]
      exact hloop calls (le_of_max_le_right hcalls) bound (Nat.le_of_succ_le_succ hbound)
    · rcases List.mem_cons.mp hid' with rfl | hid'
      · exact hbegun id' (List.mem_append_left _ (List.mem_singleton_self id'))
      · exact hids id' hid'

/-- `force` on linked promises: it returns the value at their end and stores it in all of them;
each thunk is called or refused once. -/
theorem vmForcePromiseValue_linked (hvm : vm.Sound)
    (hl : Linked (forceThunk env) vm v ids final last) :
    ∃ after t, Machine.Yields (fun calls => vmForcePromiseValue (runCode calls) env calls v vm)
        (.value final, after) ∧
      Extends vm after [] ∧ after.trace = last.trace ∧ after.trace = vm.trace ++ t ∧
      ∀ id ∈ ids, Stored after id final ∧ tally t id = (vm.born t id).toNat := by
  obtain ⟨n, m, after, hloop, hafter, htrace, -, hids⟩ := forceLoop_linked hvm hl (Extends.refl vm)
  have hyields : Machine.Yields (fun calls => vmForcePromiseValue (runCode calls) env calls v vm)
      (.value final, after) :=
    ⟨max n m, fun calls hcalls =>
      hloop calls (le_of_max_le_left hcalls) calls (le_of_max_le_right hcalls)⟩
  obtain ⟨t, ht⟩ := vmForcePromiseValue_tallied hvm (hloop n le_rfl m le_rfl)
  refine ⟨after, t, hyields, hafter, htrace, ht.trace, fun id hid => ⟨hids id hid, ?_⟩⟩
  obtain ⟨p, hp, hforced, -⟩ := hids id hid
  have hnot : after.unforced id = false := by
    rw [PromiseVm.unforced_eq hp, hforced]
    rfl
  rw [ht.tally, hnot, Bool.not_false, Bool.and_true]

theorem vmForcePromiseValue_stored (hvm : vm.Sound) (h : Stored vm id final) (env : RunEnv) :
    Machine.Yields (fun calls => vmForcePromiseValue (runCode calls) env calls (.promise id) vm)
      (.value final, vm) := by
  obtain ⟨p, hp, hforced, rfl⟩ := h
  refine ⟨2, fun calls hcalls => ?_⟩
  obtain ⟨calls, rfl⟩ := Nat.exists_eq_add_of_le hcalls
  have hcalls' : 2 + calls = (1 + calls) + 1 := by omega
  change forceLoop (runCode (2 + calls)) env vm.head (2 + calls) (.promise id) vm = _
  rw [hcalls', forceLoop_forced _ hp hforced,
    finishForce_eq (Extends.refl vm) hvm p.slot (by simp), settle_nil]

/-! ### Results -/

/-- What `force` should do with linked promises: it returns the value at their end, stores it in
all of them, and calls each thunk that was not forced once; a later `force` of one of them, behind
whatever runs in between, returns the same value and changes nothing. -/
structure ForcedList (env : RunEnv) (vm : PromiseVm α W) (v : PromiseValue α) (ids : List ℕ)
    (final : PromiseValue α) (after : PromiseVm α W) (t : List PromiseEvent) : Prop where
  returns : Machine.Yields (fun calls => vmForcePromiseValue (runCode calls) env calls v vm)
    (.value final, after)
  head : after.head = vm.head
  stored : ∀ id ∈ ids, Stored after id final
  trace : after.trace = vm.trace ++ t
  calls : ∀ id ∈ ids, t.count (.entered id) = (vm.born t id).toNat
  later : ∀ (calls : ℕ) (env' : RunEnv) (code : Code α W) (outcome : Outcome α)
    (later : PromiseVm α W), runCode calls env' code after = .ok (outcome, later) →
      ∀ id ∈ ids, Machine.Yields (fun calls =>
        vmForcePromiseValue (runCode calls) env' calls (.promise id) later) (.value final, later)

/-- A frame is free for each thunk: for the first, which runs where `force` does, and for those
that are forced inside of thunks. -/
structure FramesFree (env : RunEnv) (vm : PromiseVm α W) (v : PromiseValue α) (ids : List ℕ)
    (last : PromiseVm α W) : Prop where
  here : ∀ id, v = .promise id → vm.unforced id = true → env.frames < maxFrames
  inside : ∀ id ∈ ids, .refused id ∉ last.trace.drop vm.trace.length

/-- What a raise leaves of `vm`: `raised` is the VM at the raise and `unwound` the one that the
handler gets. Every promise whose evaluation had begun is as before, or as it was made. -/
structure RolledBack (vm raised unwound : PromiseVm α W) : Prop where
  head : unwound.head = vm.head
  begun : ∀ (id : ℕ) (p p' : Promise α W), vm.promises[id]? = some p →
    p.state.isEvaluating = false → raised.promises[id]? = some p' →
      p'.state.isEvaluating = true → unwound.promises[id]? = some p
  made : ∀ (id : ℕ) (p' : Promise α W), vm.promises.length ≤ id →
    raised.promises[id]? = some p' → p'.state.isEvaluating = true →
      unwound.promises[id]? = some p'.rollBack ∧ p'.rollBack.state.isUnforced = true
  others : ∀ (id : ℕ) (p' : Promise α W), raised.promises[id]? = some p' →
    p'.state.isEvaluating = false ∨ (∃ p, vm.promises[id]? = some p ∧
      p.state.isEvaluating = true) → unwound.promises[id]? = some p'

theorem vmDispatchException_rolledBack (hvm : vm.Sound) (h : Extends vm vm' l) (env : RunEnv)
    (failed : Bool) :
    ∃ error unwound, Machine.Yields (fun calls => vmDispatchException calls env vm.head failed vm')
      (error, unwound) ∧ RolledBack vm vm' unwound := by
  refine ⟨failed && vm'.depth = 0, { vm' with
    promises := settle Promise.rollBack l vm'.promises, head := vm.head, depth := 0,
    escaped := 0 < env.natives }, ⟨l.length + 1, fun calls hcalls => ?_⟩, rfl, ?_, ?_, ?_⟩
  · change vmDispatchException calls env vm.head failed vm' = _
    rw [vmDispatchException, vmPromiseEvalUnwindTo_pending h.pending hvm.isMark (h.ne_head hvm)
      h.distinct hcalls]
    rfl
  · intro id p p' hp hnot hp' heval
    obtain ⟨q, hq, hchange⟩ := h.kept id p hp
    obtain rfl := Option.some.inj (hq.symm.trans hp')
    dsimp only
    rw [getElem?_settle, hq, Option.map_some]
    cases hchange with
    | same _ =>
      rw [heval] at hnot
      cases hnot
    | force _ _ hforced =>
      rw [hforced] at heval
      cases heval
    | start hid hunforced previous =>
      rw [if_pos hid, Promise.rollBack_begin (hvm.promises id p hp) hunforced]
  · intro id p' hge hp' heval
    obtain ⟨-, hbegun⟩ := h.fresh id p' hp' hge
    dsimp only
    rw [getElem?_settle, hp', Option.map_some, if_pos (hbegun heval)]
    refine ⟨rfl, ?_⟩
    obtain ⟨state, thunk, slot⟩ := p'
    cases state with
    | delayed => rfl
    | forced => rfl
    | delayForce => rfl
    | evaluating => rfl
    | evaluatingForce => rfl
  · intro id p' hp' hcases
    have hid : id ∉ l := by
      rcases hcases with hnot | ⟨p, hp, heval⟩
      · exact h.not_mem hp' hnot
      · exact (h.evaluating hp heval).2
    dsimp only
    rw [getElem?_settle, hp', Option.map_some, if_neg hid]

theorem Linked.refused (hvm : vm.Sound) (hp : vm.promises[id]? = some p)
    (hunforced : p.state.isUnforced = true) (hframes : maxFrames ≤ env.frames) :
    Linked (forceThunk env) vm (.promise id) [id] .nil
      { vm.setPromise id (p.begin vm.head) (.promise id) with
        trace := vm.trace ++ [.refused id] } := by
  obtain ⟨thunk, hthunk⟩ := hvm.thunk_of_unforced hp hunforced
  have hcall : forceThunk env id thunk (vm.setPromise id (p.begin vm.head) (.promise id)) .nil
      { vm.setPromise id (p.begin vm.head) (.promise id) with
        trace := vm.trace ++ [.refused id] } :=
    ⟨0, fun calls _ => by
      change vmCallClosureFromNative (runCode calls) env id thunk _ = _
      rw [vmCallClosureFromNative, if_pos hframes]
      rfl⟩
  cases hstate : p.state with
  | delayed => exact .delayed hp hstate hthunk hcall
  | delayForce => exact .delayForce hp hstate hthunk hcall (.value rfl)
  | forced =>
    rw [hstate] at hunforced
    cases hunforced
  | evaluating =>
    rw [hstate] at hunforced
    cases hunforced
  | evaluatingForce =>
    rw [hstate] at hunforced
    cases hunforced

theorem Linked.force (hl : Linked (enterThunk env) vm v ids final last)
    (hhere : ∀ id, v = .promise id → vm.unforced id = true → env.frames < maxFrames) :
    Linked (forceThunk env) vm v ids final last := by
  cases hl with
  | value h => exact .value h
  | forced hp hforced => exact .forced hp hforced
  | @delayed _ vm' id p thunk _ hp hstate hthunk hcall =>
    have hunforced : vm.unforced id = true := by
      rw [PromiseVm.unforced_eq hp, hstate]
      rfl
    rw [forceThunk_eq (hhere id rfl hunforced)]
    exact .delayed hp hstate hthunk hcall
  | @delayForce _ vm' _ id p thunk v _ ids hp hstate hthunk hcall hrest =>
    have hunforced : vm.unforced id = true := by
      rw [PromiseVm.unforced_eq hp, hstate]
      rfl
    rw [forceThunk_eq (hhere id rfl hunforced)]
    exact .delayForce hp hstate hthunk hcall hrest

theorem Linked.mem {call : ThunkCall α W} (hl : Linked call vm (.promise id) ids final last)
    (hid : vm.unforced id = true) : id ∈ ids := by
  cases hl with
  | value h =>
    rw [vmIsPromiseValue] at h
    rw [PromiseVm.unforced, h] at hid
    cases hid
  | forced _ _ => exact List.mem_cons_self
  | delayed _ _ _ _ => exact List.mem_cons_self
  | delayForce _ _ _ _ _ => exact List.mem_cons_self

/-- `(delay-force p)` where `p` is `(delay 17)`, and a promise whose thunk raises. -/
def samplePromises : List (Promise ℕ Unit) :=
  [⟨.delayForce, some (.ret (.promise 1)), .nil⟩, ⟨.delayed, some (.ret (.datum 17)), .nil⟩,
    ⟨.delayed, some (.raise .nil), .nil⟩]

/-- A VM that has evaluated nothing yet. -/
def sampleVm : PromiseVm ℕ Unit := ⟨samplePromises, .nil, 0, false, (), []⟩

theorem sampleVm_sound : sampleVm.Sound := by
  refine ⟨fun id p hp => ?_, .inl rfl⟩
  have hmem : p ∈ samplePromises := List.mem_of_getElem? hp
  simp only [samplePromises, List.mem_cons, List.not_mem_nil, or_false] at hmem
  rcases hmem with rfl | rfl | rfl
  · exact ⟨fun _ => rfl, fun _ => rfl⟩
  · exact ⟨fun _ => rfl, fun _ => rfl⟩
  · exact ⟨fun _ => rfl, fun _ => rfl⟩

theorem thunkRuns_ret (env : RunEnv) (id : ℕ) (v : PromiseValue α) (vm : PromiseVm α W) :
    ThunkRuns env id (.ret v) vm v { vm with
      trace := vm.trace ++ [.entered id], depth := vm.depth + 1, escaped := false } := by
  refine ⟨1, fun calls hcalls => ?_⟩
  obtain ⟨calls, rfl⟩ := Nat.exists_eq_add_of_le' hcalls
  rfl

theorem returnThunk_ret (env : RunEnv) (id : ℕ) (v : PromiseValue α) (vm : PromiseVm α W) :
    returnThunk env id (.ret v) vm v { vm with trace := vm.trace ++ [.entered id] } :=
  ⟨_, thunkRuns_ret env id v vm, rfl⟩

theorem not_catchesOne_ret : ¬CatchesOne env id (.ret v) vm := by
  rintro ⟨v', after, hruns, hescaped⟩
  cases hruns.unique (thunkRuns_ret env id v vm)
  cases hescaped

/-- A promise whose thunk catches an exception that it raises, and returns 1. -/
def catchingVm : PromiseVm ℕ Unit :=
  { sampleVm with
    promises := [⟨.delayed, some (.guard (.raise .nil) (fun _ => .ret (.datum 1)) .ret), .nil⟩] }

theorem catchingVm_runs : ∃ after, ThunkRuns ⟨0, 0, 0, 0⟩ 0
    (.guard (.raise .nil) (fun _ => .ret (.datum 1)) .ret)
    (catchingVm.setPromise 0
      ⟨.evaluating, some (.guard (.raise .nil) (fun _ => .ret (.datum 1)) .ret), .nil⟩
      (.promise 0)) (.datum 1) after ∧ after.escaped = true := by
  refine ⟨{ catchingVm.setPromise 0
    ⟨.evaluating, some (.guard (.raise .nil) (fun _ => .ret (.datum 1)) .ret), .nil⟩
    (.promise 0) with depth := 0, escaped := true, trace := [.entered 0] },
    ⟨2, fun calls hcalls => ?_⟩, rfl⟩
  obtain ⟨calls, rfl⟩ := Nat.exists_eq_add_of_le' hcalls
  rfl

end Eshkol.Vm.Promises
