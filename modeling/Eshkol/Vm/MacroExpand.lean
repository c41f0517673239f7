import Eshkol.Vm.Expansion

/-!
# Repeated Expansion

The entry point of the expander (`vm_macro_expand`, `lib/backend/vm_macro.c`). The head of a form
is expanded once; while the result is again headed by a macro, it is expanded up to 100 times
more, and then the children are expanded. The loop also ends after an expansion that changes
neither the kind of the node, nor the number of its children, nor the name at its head, which an
expansion to another call of the same macro need not do.
-/

namespace Eshkol.Vm

open Machine

/-! ### The expander -/

/-- The name at the head of a list. -/
def Node.headName : Node → Option Name
  | .list _ (.symbol name _ :: _) => some name
  | _ => none

/-- A list with the name of a macro at its head. -/
def macroHeaded (macros : List VmMacro) (n : Node) : Bool :=
  match n.headName with
  | some name => (vmMacroLookup macros name).isSome
  | none => false

/-- What the loop takes for a change: of the type, of the number of children, of the name of a
symbol, or of the name at the head. -/
def looksChanged : Node → Node → Bool
  | .list _ re, .list _ expanded =>
    if re.length ≠ expanded.length then true
    else match (Node.list false re).headName, (Node.list false expanded).headName with
      | some name, some name' => name ≠ name'
      | _, _ => false
  | .symbol re _, .symbol expanded _ => re ≠ expanded
  | .number _, .number _ | .string _, .string _ | .bool _, .bool _ => false
  | _, _ => true

section Expander

variable (macros : List VmMacro)

/-- The loop, with the iterations that are left. -/
def reexpand : ℕ → Node → ℕ → Exec Empty (Node × ℕ)
  | 0, expanded, counter => .ok (expanded, counter)
  | iterations + 1, expanded, counter => do
      let re ← vmMacroExpandOnce ⟨macros, expanded⟩ counter
      if !looksChanged re.1 expanded then .ok re
      else if !macroHeaded macros re.1 then .ok re
      else reexpand iterations re.1 re.2

/-- The expansion of the head of a form. -/
def expandHead (node : Node) (counter : ℕ) : Exec Empty (Node × ℕ) := do
  let expanded ← vmMacroExpandOnce ⟨macros, node⟩ counter
  if macroHeaded macros expanded.1 then reexpand macros 100 expanded.1 expanded.2
  else .ok expanded

/-- The expansion of nodes one after another. -/
def expandList (expand : Node → ℕ → Exec Empty (Node × ℕ)) :
    List Node → ℕ → Exec Empty (List Node × ℕ)
  | [], counter => .ok ([], counter)
  | c :: cs, counter => do
      let first ← expand c counter
      let rest ← expandList expand cs first.2
      .ok (first.1 :: rest.1, rest.2)

/-- The expansion of the children of a list. -/
def expandChildren (expand : Node → ℕ → Exec Empty (Node × ℕ)) (n : Node) (counter : ℕ) :
    Exec Empty (Node × ℕ) :=
  match n with
  | .list vector children => do
      let r ← expandList expand children counter
      .ok (.list vector r.1, r.2)
  | n => .ok (n, counter)

/-- `vm_macro_expand`. A template may hold the call that it expands, so the recursion takes
fuel. -/
def vmMacroExpand : ℕ → Node → ℕ → Exec Empty (Node × ℕ)
  | 0, _, _ => .error .diverges
  | fuel + 1, node, counter => do
      let expanded ← expandHead macros node counter
      expandChildren (vmMacroExpand fuel) expanded.1 expanded.2

end Expander

/-! ### The form the loop ends with -/

/-- A sequence with a first term put before it. -/
def prepend {α : Type} (a : α) (σ : ℕ → α) : ℕ → α
  | 0 => a
  | j + 1 => σ j

section Head

variable {macros : List VmMacro}

/-- Expansions of the head one after another. -/
def Rewrites (macros : List VmMacro) (σ : ℕ → Node × ℕ) (k : ℕ) : Prop :=
  ∀ j < k, vmMacroExpandOnce ⟨macros, (σ j).1⟩ (σ j).2 = .ok (σ (j + 1))

/-- The expansion from a form to the next changes what the loop looks at. -/
def Noticed (σ : ℕ → Node × ℕ) (j : ℕ) : Prop := looksChanged (σ (j + 1)).1 (σ j).1 = true

/-- A form is headed by a macro. -/
def Headed (macros : List VmMacro) (σ : ℕ → Node × ℕ) (j : ℕ) : Prop :=
  macroHeaded macros (σ j).1 = true

theorem rewrites_prepend {s : Node × ℕ} {σ : ℕ → Node × ℕ} {k : ℕ} :
    Rewrites macros (prepend s σ) (k + 1) ↔
      vmMacroExpandOnce ⟨macros, s.1⟩ s.2 = .ok (σ 0) ∧ Rewrites macros σ k := by
  constructor
  · intro h
    exact ⟨h 0 k.succ_pos, fun j hj => h (j + 1) (Nat.succ_lt_succ hj)⟩
  · rintro ⟨hs, h⟩ j hj
    cases j with
    | zero => exact hs
    | succ j => exact h j (Nat.lt_of_succ_lt_succ hj)

/-- The loop goes on over visible expansions to forms headed by macros, and ends with the first
expansion of another sort, or when no iterations are left. -/
theorem reexpand_eq_ok {m : ℕ} {s r : Node × ℕ} :
    reexpand macros m s.1 s.2 = .ok r ↔
      ∃ σ k, σ 0 = s ∧ σ k = r ∧ k ≤ m ∧ Rewrites macros σ k ∧
        (∀ j, j + 1 < k → Noticed σ j ∧ Headed macros σ (j + 1)) ∧
        (k = m ∨ ∃ j, k = j + 1 ∧ ¬(Noticed σ j ∧ Headed macros σ (j + 1))) := by
  induction m generalizing s with
  | zero =>
    rw [reexpand]
    constructor
    · rintro ⟨⟩
      exact ⟨fun _ => s, 0, rfl, rfl, le_rfl, fun _ h => absurd h (Nat.not_lt_zero _),
        fun _ h => absurd h (Nat.not_lt_zero _), .inl rfl⟩
    · rintro ⟨σ, k, rfl, rfl, hk, -⟩
      rw [Nat.le_zero.mp hk]
  | succ m ih =>
    rw [reexpand, bind_eq_ok]
    constructor
    · rintro ⟨t, ht, h⟩
      by_cases hgo : looksChanged t.1 s.1 = true ∧ macroHeaded macros t.1 = true
      · rw [if_neg (by simp [hgo.1]), if_neg (by simp [hgo.2]), ih] at h
        obtain ⟨σ, k, rfl, rfl, hk, hrw, hon, hend⟩ := h
        refine ⟨prepend s σ, k + 1, rfl, rfl, Nat.succ_le_succ hk,
          rewrites_prepend.mpr ⟨ht, hrw⟩, ?_, ?_⟩
        · intro j hj
          cases j with
          | zero => exact hgo
          | succ j => exact hon j (Nat.lt_of_succ_lt_succ hj)
        · rcases hend with rfl | ⟨j, rfl, hj⟩
          · exact .inl rfl
          · exact .inr ⟨j + 1, rfl, hj⟩
      · have htr : t = r := by
          rw [not_and_or, Bool.not_eq_true, Bool.not_eq_true] at hgo
          rcases hgo with hgo | hgo
          · rw [if_pos (by simp [hgo])] at h
            exact Except.ok.inj h
          · simp only [hgo, Bool.not_false, if_true, ite_self] at h
            exact Except.ok.inj h
        subst htr
        refine ⟨prepend s fun _ => t, 1, rfl, rfl, Nat.succ_le_succ m.zero_le,
          rewrites_prepend.mpr ⟨ht, fun _ h => absurd h (Nat.not_lt_zero _)⟩,
          fun j hj => absurd hj (by omega), .inr ⟨0, rfl, hgo⟩⟩
    · rintro ⟨σ, k, rfl, rfl, hk, hrw, hon, hend⟩
      obtain ⟨k, rfl⟩ : ∃ i, k = i + 1 := by
        rcases hend with rfl | ⟨j, rfl, -⟩
        · exact ⟨m, rfl⟩
        · exact ⟨j, rfl⟩
      refine ⟨σ 1, hrw 0 k.succ_pos, ?_⟩
      by_cases hgo : Noticed σ 0 ∧ Headed macros σ 1
      · rw [Noticed, Headed] at hgo
        rw [if_neg (by simp [hgo.1]), if_neg (by simp [hgo.2]), ih]
        refine ⟨fun j => σ (j + 1), k, rfl, rfl, Nat.le_of_succ_le_succ hk,
          fun j hj => hrw (j + 1) (Nat.succ_lt_succ hj),
          fun j hj => hon (j + 1) (Nat.succ_lt_succ hj), ?_⟩
        rcases hend with h | ⟨j, h, hj⟩
        · exact .inl (Nat.succ.inj h)
        · obtain rfl := Nat.succ.inj h
          cases k with
          | zero => exact absurd hgo hj
          | succ k => exact .inr ⟨k, rfl, hj⟩
      · cases k with
        | succ k => exact absurd (hon 0 (Nat.succ_lt_succ k.succ_pos)) hgo
        | zero =>
          rw [Noticed, Headed, not_and_or, Bool.not_eq_true, Bool.not_eq_true] at hgo
          rcases hgo with hgo | hgo
          · rw [if_pos (by simp [hgo])]
          · simp only [hgo, Bool.not_false, if_true, ite_self]

/-- The expansions of the head of a form end with the form at a place: the forms between are headed
by macros and the expansions between them are visible, and the last form is not headed by a macro,
or is the last that the loop makes, or its expansion was not visible. -/
structure StopsAt (macros : List VmMacro) (σ : ℕ → Node × ℕ) (k : ℕ) : Prop where
  pos : 0 < k
  le : k ≤ 101
  rewrites : Rewrites macros σ k
  headed : ∀ j, 0 < j → j < k → Headed macros σ j
  noticed : ∀ j, 0 < j → j + 1 < k → Noticed σ j
  stop : ¬Headed macros σ k ∨ k = 101 ∨ ∃ j, 0 < j ∧ k = j + 1 ∧ ¬Noticed σ j

/-- The head of a form is expanded up to the first state at which the loop stops. -/
theorem expandHead_eq_ok {node : Node} {counter : ℕ} {r : Node × ℕ} :
    expandHead macros node counter = .ok r ↔
      ∃ σ k, σ 0 = (node, counter) ∧ σ k = r ∧ StopsAt macros σ k := by
  rw [expandHead, bind_eq_ok]
  constructor
  · rintro ⟨t, ht, h⟩
    by_cases hgo : macroHeaded macros t.1 = true
    · rw [if_pos hgo, reexpand_eq_ok] at h
      obtain ⟨σ, k, rfl, rfl, hk, hrw, hon, hend⟩ := h
      refine ⟨prepend (node, counter) σ, k + 1, rfl, rfl, k.succ_pos, Nat.succ_le_succ hk,
        rewrites_prepend.mpr ⟨ht, hrw⟩, ?_, ?_, ?_⟩
      · intro j hpos hj
        obtain ⟨j, rfl⟩ := Nat.exists_eq_succ_of_ne_zero hpos.ne'
        cases j with
        | zero => exact hgo
        | succ j => exact (hon j (Nat.lt_of_succ_lt_succ hj)).2
      · intro j hpos hj
        obtain ⟨j, rfl⟩ := Nat.exists_eq_succ_of_ne_zero hpos.ne'
        exact (hon j (Nat.lt_of_succ_lt_succ hj)).1
      · rcases hend with rfl | ⟨j, rfl, hj⟩
        · exact .inr (.inl rfl)
        · by_cases hvis : Noticed σ j
          · exact .inl fun hhd => hj ⟨hvis, hhd⟩
          · exact .inr (.inr ⟨j + 1, j.succ_pos, rfl, hvis⟩)
    · rw [if_neg hgo] at h
      obtain rfl := Except.ok.inj h
      exact ⟨prepend (node, counter) fun _ => t, 1, rfl, rfl, Nat.one_pos, by omega,
        rewrites_prepend.mpr ⟨ht, fun _ h => absurd h (Nat.not_lt_zero _)⟩,
        fun j _ hj => absurd hj (by omega), fun j _ hj => absurd hj (by omega), .inl hgo⟩
  · rintro ⟨σ, k, h0, rfl, hpos, hk, hrw, hhead, hvis, hstop⟩
    obtain ⟨k, rfl⟩ := Nat.exists_eq_succ_of_ne_zero hpos.ne'
    have hfirst := hrw 0 k.succ_pos
    rw [h0] at hfirst
    refine ⟨σ 1, hfirst, ?_⟩
    by_cases hgo : macroHeaded macros (σ 1).1 = true
    · rw [if_pos hgo, reexpand_eq_ok]
      refine ⟨fun j => σ (j + 1), k, rfl, rfl, Nat.le_of_succ_le_succ hk,
        fun j hj => hrw (j + 1) (Nat.succ_lt_succ hj), fun j hj => ?_, ?_⟩
      · exact ⟨hvis (j + 1) j.succ_pos (Nat.succ_lt_succ hj),
          hhead (j + 2) (Nat.succ_pos _) (Nat.succ_lt_succ hj)⟩
      · cases k with
        | zero =>
          rcases hstop with h | h | ⟨j, hj, h, -⟩
          · exact absurd hgo h
          · exact absurd h (by omega)
          · exact absurd h (by omega)
        | succ k =>
          rcases hstop with h | h | ⟨j, hj, h, hnot⟩
          · exact .inr ⟨k, rfl, fun hand => h hand.2⟩
          · exact .inl (Nat.succ.inj h)
          · obtain rfl := Nat.succ.inj h
            exact .inr ⟨k, rfl, fun hand => hnot hand.1⟩
    · rw [if_neg hgo]
      cases k with
      | zero => rfl
      | succ k => exact absurd (hhead 1 Nat.one_pos (by omega)) hgo

/-! ### Completeness -/

/-- No rule of a macro matches a form. -/
def Unmatched (macros : List VmMacro) (n : Node) : Prop := (Use.mk macros n).expansion = none

/-- The expansions of the head of a form by the first rules that match, up to the first form that
no rule matches. -/
structure HeadNormal (macros : List VmMacro) (σ : ℕ → Node × ℕ) (N : ℕ) : Prop where
  rewrites : Rewrites macros σ N
  matched : ∀ j < N, ¬Unmatched macros (σ j).1
  normal : Unmatched macros (σ N).1

/-- The loop can go through a sequence: there is room for it, and every step but the first and the
last changes what the loop looks at. -/
def Followed (σ : ℕ → Node × ℕ) (N : ℕ) : Prop := N ≤ 101 ∧ ∀ j, 0 < j → j + 1 < N → Noticed σ j

/-- Expanding the children of a form ends, and does not decide whether a rule matches it. -/
structure ChildrenNeutral (macros : List VmMacro) (s : Node × ℕ) : Prop where
  ends : ∃ fuel r, expandChildren (vmMacroExpand macros fuel) s.1 s.2 = .ok r
  keeps : ∀ fuel r, expandChildren (vmMacroExpand macros fuel) s.1 s.2 = .ok r →
    (Unmatched macros r.1 ↔ Unmatched macros s.1)

/-- A sequence that stays at its normal form. -/
def stay (σ : ℕ → Node × ℕ) (N : ℕ) : ℕ → Node × ℕ := fun j => σ (min j N)

theorem looksChanged_self (n : Node) : looksChanged n n = false := by
  cases n with
  | list vector children =>
    rw [looksChanged, if_neg (by simp)]
    cases (Node.list false children).headName <;> simp
  | symbol name b => simp [looksChanged]
  | number _ | string _ | bool _ => rfl

theorem headed_of_matched {n : Node} (h : ¬Unmatched macros n) : macroHeaded macros n = true := by
  by_contra hheaded
  refine h ?_
  rw [Unmatched, Use.expansion]
  split
  next vector name b rest hform =>
    dsimp only at hform
    subst hform
    have hnone : vmMacroLookup macros name = none := by
      simpa [macroHeaded, Node.headName] using hheaded
    dsimp only
    rw [hnone, Option.bind_none]
  next => rfl

variable {σ : ℕ → Node × ℕ} {N : ℕ}

theorem HeadNormal.rewrites_stay (h : HeadNormal macros σ N) (k : ℕ) :
    Rewrites macros (stay σ N) k := by
  intro j _
  rw [stay, stay]
  rcases Nat.lt_or_ge j N with hj | hj
  · rw [min_eq_left hj.le, min_eq_left hj]
    exact h.rewrites j hj
  · rw [min_eq_right hj, min_eq_right (Nat.le_succ_of_le hj), vmMacroExpandOnce, h.normal]

theorem Rewrites.unique {σ' : ℕ → Node × ℕ} {k : ℕ} (h : Rewrites macros σ k)
    (h' : Rewrites macros σ' k) (h0 : σ 0 = σ' 0) : ∀ j ≤ k, σ j = σ' j := by
  intro j hj
  induction j with
  | zero => exact h0
  | succ j ih =>
    have hstep := h j hj
    rw [ih (Nat.le_of_succ_le hj), h' j hj] at hstep
    exact (Except.ok.inj hstep).symm

theorem noticed_stay {j : ℕ} (hj : j + 1 ≤ N) : Noticed (stay σ N) j ↔ Noticed σ j := by
  rw [Noticed, Noticed, stay, stay, min_eq_left hj, min_eq_left (Nat.le_of_succ_le hj)]

/-- Where the loop ends on a sequence that it can go through. -/
theorem HeadNormal.stopsAt (h : HeadNormal macros σ N) (hfollowed : Followed σ N) :
    ∃ k, N ≤ k ∧ StopsAt macros (stay σ N) k := by
  obtain ⟨hroom, hnoticed⟩ := hfollowed
  have hheaded : ∀ j < N, Headed macros (stay σ N) j := by
    intro j hj
    rw [Headed, stay, min_eq_left hj.le]
    exact headed_of_matched (h.matched j hj)
  have hbefore : ∀ j, 0 < j → j + 1 < max N 1 → Noticed (stay σ N) j := by
    intro j hpos hj
    exact (noticed_stay (by omega)).mpr (hnoticed j hpos (by omega))
  -- the normal form is reached; the loop may make one more step there
  by_cases hstop : ¬Headed macros (stay σ N) (max N 1) ∨ max N 1 = 101 ∨
      ∃ j, 0 < j ∧ max N 1 = j + 1 ∧ ¬Noticed (stay σ N) j
  · exact ⟨max N 1, le_max_left _ _, by omega, by omega, h.rewrites_stay _,
      fun j _ hj => hheaded j (by omega), hbefore, hstop⟩
  · rw [not_or, not_or, not_not] at hstop
    obtain ⟨hlast, hmax, hall⟩ := hstop
    refine ⟨max N 1 + 1, by omega, by omega, by omega, h.rewrites_stay _, fun j hpos hj => ?_,
      fun j hpos hj => ?_, .inr (.inr ⟨max N 1, by omega, rfl, ?_⟩)⟩
    · rcases Nat.lt_or_ge j N with hjN | hjN
      · exact hheaded j hjN
      · obtain rfl : j = max N 1 := by omega
        exact hlast
    · rcases Nat.lt_or_ge (j + 1) (max N 1) with hjN | hjN
      · exact hbefore j hpos hjN
      · by_contra hnot
        exact hall ⟨j, hpos, by omega, hnot⟩
    · rw [Noticed, stay, stay, min_eq_right (by omega), min_eq_right (by omega), looksChanged_self]
      simp

theorem HeadNormal.of_stopsAt (h : HeadNormal macros σ N) {σ' : ℕ → Node × ℕ} {k : ℕ}
    (h0 : σ' 0 = σ 0) (hstop : StopsAt macros σ' k) :
    ∃ j ≤ N, (j = 0 → N = 0) ∧ σ' k = σ j ∧ (j = N → Followed σ N) := by
  have hagree := Rewrites.unique hstop.rewrites (h.rewrites_stay k)
    (by rw [h0, stay, Nat.zero_min])
  refine ⟨min k N, min_le_right _ _, fun hzero => ?_, hagree k le_rfl, fun hmin => ?_⟩
  · have := hstop.pos
    omega
  · refine ⟨by have := hstop.le; omega, fun j hpos hj => ?_⟩
    have hnoticed := hstop.noticed j hpos (by omega)
    rw [Noticed, hagree j (by omega), hagree (j + 1) (by omega)] at hnoticed
    exact (noticed_stay (by omega)).mp hnoticed

end Head

/-- A macro with rules `(_ "a" x)` to `(m "b" x)`, `(_ "b" x)` to `(m "c" x)` and `(_ "c" x)`
to `x`. -/
def sampleMacro : VmMacro :=
  { name := [109]
    rules :=
      [⟨.list false [.symbol [95] false, .string [97], .symbol [120] false],
        .list false [.symbol [109] false, .string [98], .symbol [120] false]⟩,
      ⟨.list false [.symbol [95] false, .string [98], .symbol [120] false],
        .list false [.symbol [109] false, .string [99], .symbol [120] false]⟩,
      ⟨.list false [.symbol [95] false, .string [99], .symbol [120] false], .symbol [120] false⟩]
    literals := [] }

/-- A call of the sample macro. -/
def sampleCall (s : UInt8) : Node :=
  .list false [.symbol [109] false, .string [s], .symbol [121] false]

theorem vmMacroExpandOnce_eq {u : Use} {x : Expansion} {n : Node} (hx : u.expansion = some x)
    (hn : x.hygienic 0 = (n, 0)) :
    vmMacroExpandOnce u 0 = .ok (vmMacroInstantiate n x.bindings, 0) := by
  simp only [vmMacroExpandOnce, hx, hn]
  rfl

theorem vmMacroExpandOnce_sampleCall :
    vmMacroExpandOnce ⟨[sampleMacro], sampleCall 97⟩ 0 = .ok (sampleCall 98, 0) ∧
    vmMacroExpandOnce ⟨[sampleMacro], sampleCall 98⟩ 0 = .ok (sampleCall 99, 0) ∧
    vmMacroExpandOnce ⟨[sampleMacro], sampleCall 99⟩ 0 = .ok (.symbol [121] false, 0) :=
  ⟨(vmMacroExpandOnce_eq rfl rfl).trans rfl, (vmMacroExpandOnce_eq rfl rfl).trans rfl,
    (vmMacroExpandOnce_eq rfl rfl).trans rfl⟩

end Eshkol.Vm
