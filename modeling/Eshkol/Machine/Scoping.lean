import Mathlib.Data.List.Basic

/-!
# Programs over Scopes

A one-pass compiler keeps the names in scope in frames, one for each procedure around the code at
hand. It looks names up, adds them, and drops them again when a scope ends. What it does with that
state is a program: a tree that branches on the results of its look-ups.

An entry of a frame may be hidden: it takes a slot, but is not found. A program resolves all names
as if the hidden entries were not there exactly if no look-up of it comes upon one.

## Main results

* `ScopeProg.resolutions_seq`: the resolutions of two programs, one after the other.
* `ScopeProg.resolutions_reveal`: when hiding entries makes no difference.
-/

namespace Machine

variable {N D : Type} [DecidableEq N]

/-! ### Frames -/

/-- An entry of a frame, with what is known about the name. -/
structure ScopeEntry (N D : Type) where
  name : N
  data : D
  visible : Bool

/-- The entries of a frame, last first. -/
abbrev ScopeFrame (N D : Type) : Type := List (ScopeEntry N D)

/-- The frames around the code at hand, innermost first. -/
abbrev ScopeChain (N D : Type) : Type := List (ScopeFrame N D)

/-- The slot of the last visible entry of a name, with what is known about the name. -/
def ScopeFrame.resolve : ScopeFrame N D → N → Option (ℕ × D)
  | [], _ => none
  | e :: f, name =>
    if e.visible ∧ e.name = name then some (f.length, e.data) else ScopeFrame.resolve f name

/-- The last entry of a name is hidden. -/
def ScopeFrame.Hides : ScopeFrame N D → N → Prop
  | [], _ => False
  | e :: f, name => if e.name = name then e.visible = false else ScopeFrame.Hides f name

/-- A frame with all of its entries visible. -/
def ScopeFrame.reveal (f : ScopeFrame N D) : ScopeFrame N D :=
  f.map fun e => { e with visible := true }

/-- A frame with all entries hidden but the first `count`. -/
def ScopeFrame.hideFrom (count : ℕ) : ScopeFrame N D → ScopeFrame N D
  | [] => []
  | e :: f =>
    (if count ≤ f.length then { e with visible := false } else e) :: ScopeFrame.hideFrom count f

/-- The slot that a name has in a frame of the chain. -/
def ScopeChain.resolve (chain : ScopeChain N D) (level : ℕ) (name : N) : Option (ℕ × D) :=
  match chain[level]? with
  | some f => f.resolve name
  | none => none

/-- The last entry of a name in a frame of the chain is hidden. -/
def ScopeChain.Hides (chain : ScopeChain N D) (level : ℕ) (name : N) : Prop :=
  ∃ f, chain[level]? = some f ∧ f.Hides name

/-- Adds a name to the innermost frame. -/
def ScopeChain.bind (c : ScopeChain N D) (name : N) (data : D) : ScopeChain N D :=
  match c with
  | [] => []
  | f :: c => (⟨name, data, true⟩ :: f) :: c

/-- A chain with all entries visible. -/
def ScopeChain.reveal (c : ScopeChain N D) : ScopeChain N D := c.map ScopeFrame.reveal

/-- A chain with all entries of the innermost frame hidden but the first `count`. -/
def ScopeChain.hideFrom (count : ℕ) : ScopeChain N D → ScopeChain N D
  | [] => []
  | f :: c => f.hideFrom count :: c

theorem resolve_lt_length {f : ScopeFrame N D} {name : N} {slot : ℕ × D}
    (h : f.resolve name = some slot) : slot.1 < f.length := by
  induction f with
  | nil => cases h
  | cons e f ih =>
    rw [ScopeFrame.resolve] at h
    split at h
    next =>
      cases h
      exact Nat.lt_succ_self _
    next => exact Nat.lt_succ_of_lt (ih h)

theorem resolve_reveal_iff (f : ScopeFrame N D) (name : N) :
    f.reveal.resolve name = f.resolve name ↔ ¬ f.Hides name := by
  induction f with
  | nil => exact iff_of_true rfl id
  | cons e f ih =>
    rw [ScopeFrame.reveal, List.map_cons, ScopeFrame.resolve, ScopeFrame.resolve, ScopeFrame.Hides]
    by_cases hname : e.name = name
    · cases hvisible : e.visible with
      | true => simp [hname]
      | false =>
        rw [if_pos ⟨rfl, hname⟩, if_neg (by simp), if_pos hname]
        refine iff_of_false (fun h => ?_) (not_not_intro rfl)
        have := resolve_lt_length h.symm
        rw [List.length_map] at this
        exact absurd this (Nat.lt_irrefl _)
    · rw [if_neg (fun h => hname h.2), if_neg (fun h => hname h.2), if_neg hname]
      exact ih

theorem chain_resolve_reveal_iff (chain : ScopeChain N D) (level : ℕ) (name : N) :
    chain.reveal.resolve level name = chain.resolve level name ↔ ¬ chain.Hides level name := by
  rw [ScopeChain.resolve, ScopeChain.resolve, ScopeChain.reveal, List.getElem?_map]
  cases hf : chain[level]? with
  | none =>
    refine iff_of_true rfl ?_
    rintro ⟨f, hf', -⟩
    rw [hf] at hf'
    cases hf'
  | some f =>
    refine (resolve_reveal_iff f name).trans (not_congr ?_)
    rw [ScopeChain.Hides, hf]
    simp

omit [DecidableEq N] in
theorem reveal_bind (c : ScopeChain N D) (name : N) (data : D) :
    (c.bind name data).reveal = c.reveal.bind name data := by
  cases c with
  | nil => rfl
  | cons f c => rfl

omit [DecidableEq N] in
theorem reveal_hideFrom (count : ℕ) (c : ScopeChain N D) :
    (c.hideFrom count).reveal = c.reveal := by
  have hframe (f : ScopeFrame N D) : (f.hideFrom count).reveal = f.reveal := by
    induction f with
    | nil => rfl
    | cons e f ih =>
      rw [ScopeFrame.hideFrom, ScopeFrame.reveal, List.map_cons]
      refine congrArg₂ _ ?_ ih
      split <;> rfl
  cases c with
  | nil => rfl
  | cons f c => exact congrArg (· :: ScopeChain.reveal c) (hframe f)

/-! ### Programs -/

/-- A program over scopes. A part of a program in a scope of its own leaves the frame as it was; a
part of a program in a frame of its own leaves the chain as it was. -/
inductive ScopeProg (N D : Type) : Type
  | done
  | depth (next : ℕ → ScopeProg N D)
  | resolve (level : ℕ) (name : N) (next : Option (ℕ × D) → ScopeProg N D)
  | bind (name : N) (data : D) (next : ScopeProg N D)
  | block (body next : ScopeProg N D)
  | frame (body next : ScopeProg N D)

/-- A look-up of a name in a frame, with its result. -/
structure Resolution (N D : Type) where
  level : ℕ
  name : N
  slot : Option (ℕ × D)
  deriving DecidableEq

/-- The chain after a program. -/
def ScopeProg.final : ScopeProg N D → ScopeChain N D → ScopeChain N D
  | .done, c => c
  | .depth next, c => (next c.length).final c
  | .resolve level name next, c => (next (c.resolve level name)).final c
  | .bind name data next, c => next.final (c.bind name data)
  | .block _ next, c => next.final c
  | .frame _ next, c => next.final c

/-- The look-ups of a program. -/
def ScopeProg.resolutions : ScopeProg N D → ScopeChain N D → List (Resolution N D)
  | .done, _ => []
  | .depth next, c => (next c.length).resolutions c
  | .resolve level name next, c =>
    ⟨level, name, c.resolve level name⟩ :: (next (c.resolve level name)).resolutions c
  | .bind name data next, c => next.resolutions (c.bind name data)
  | .block body next, c => body.resolutions c ++ next.resolutions c
  | .frame body next, c => body.resolutions ([] :: c) ++ next.resolutions c

/-- A look-up of a program comes upon a hidden entry. -/
def ScopeProg.MeetsHidden : ScopeProg N D → ScopeChain N D → Prop
  | .done, _ => False
  | .depth next, c => (next c.length).MeetsHidden c
  | .resolve level name next, c =>
    c.Hides level name ∨ (next (c.resolve level name)).MeetsHidden c
  | .bind name data next, c => next.MeetsHidden (c.bind name data)
  | .block body next, c => body.MeetsHidden c ∨ next.MeetsHidden c
  | .frame body next, c => body.MeetsHidden ([] :: c) ∨ next.MeetsHidden c

/-- One program after another. -/
def ScopeProg.seq : ScopeProg N D → ScopeProg N D → ScopeProg N D
  | .done, q => q
  | .depth next, q => .depth fun n => (next n).seq q
  | .resolve level name next, q => .resolve level name fun slot => (next slot).seq q
  | .bind name data next, q => .bind name data (next.seq q)
  | .block body next, q => .block body (next.seq q)
  | .frame body next, q => .frame body (next.seq q)

theorem ScopeProg.final_seq (p q : ScopeProg N D) (c : ScopeChain N D) :
    (p.seq q).final c = q.final (p.final c) := by
  induction p generalizing c with
  | done => rfl
  | depth next ih => exact ih c.length c
  | resolve level name next ih => exact ih (c.resolve level name) c
  | bind name data next ih => exact ih (c.bind name data)
  | block body next _ ih => exact ih c
  | frame body next _ ih => exact ih c

theorem ScopeProg.resolutions_seq (p q : ScopeProg N D) (c : ScopeChain N D) :
    (p.seq q).resolutions c = p.resolutions c ++ q.resolutions (p.final c) := by
  induction p generalizing c with
  | done => rfl
  | depth next ih => exact ih c.length c
  | resolve level name next ih =>
    rw [seq, resolutions, resolutions, final, ih, List.cons_append]
  | bind name data next ih => exact ih (c.bind name data)
  | block body next _ ih => rw [seq, resolutions, resolutions, final, ih, List.append_assoc]
  | frame body next _ ih => rw [seq, resolutions, resolutions, final, ih, List.append_assoc]

theorem ScopeProg.reveal_final (p : ScopeProg N D) {c : ScopeChain N D} (h : c.reveal = c) :
    (p.final c).reveal = p.final c := by
  induction p generalizing c with
  | done => exact h
  | depth next ih => exact ih c.length h
  | resolve level name next ih => exact ih (c.resolve level name) h
  | bind name data next ih => exact ih (by rw [reveal_bind, h])
  | block body next _ ih => exact ih h
  | frame body next _ ih => exact ih h

/-! ### Hidden entries -/

/-- Two lists differ at a place before which they agree. -/
def Diverge (l l' : List (Resolution N D)) : Prop :=
  ∃ common r r' rest rest', r ≠ r' ∧ l = common ++ r :: rest ∧ l' = common ++ r' :: rest'

omit [DecidableEq N] in
theorem Diverge.ne {l l' : List (Resolution N D)} (h : Diverge l l') : l ≠ l' := by
  obtain ⟨common, r, r', rest, rest', hne, rfl, rfl⟩ := h
  intro heq
  exact hne (List.cons.inj (List.append_cancel_left heq)).1

omit [DecidableEq N] in
theorem Diverge.append {l l' : List (Resolution N D)} (h : Diverge l l') (t t' : List (Resolution N D)) :
    Diverge (l ++ t) (l' ++ t') := by
  obtain ⟨common, r, r', rest, rest', hne, rfl, rfl⟩ := h
  refine ⟨common, r, r', rest ++ t, rest' ++ t', hne, ?_, ?_⟩
  · rw [List.append_assoc, List.cons_append]
  · rw [List.append_assoc, List.cons_append]

omit [DecidableEq N] in
theorem Diverge.after {l l' : List (Resolution N D)} (h : Diverge l l') (t : List (Resolution N D)) :
    Diverge (t ++ l) (t ++ l') := by
  obtain ⟨common, r, r', rest, rest', hne, rfl, rfl⟩ := h
  refine ⟨t ++ common, r, r', rest, rest', hne, ?_, ?_⟩
  · rw [List.append_assoc]
  · rw [List.append_assoc]

omit [DecidableEq N] in
theorem agree_or_diverge_append {P Q : Prop} {l l' t t' : List (Resolution N D)}
    (hl : (¬ P → l = l') ∧ (P → Diverge l l')) (ht : (¬ Q → t = t') ∧ (Q → Diverge t t')) :
    (¬ (P ∨ Q) → l ++ t = l' ++ t') ∧ (P ∨ Q → Diverge (l ++ t) (l' ++ t')) := by
  constructor
  · intro h
    rw [hl.1 fun hp => h (.inl hp), ht.1 fun hq => h (.inr hq)]
  · intro h
    by_cases hp : P
    · exact (hl.2 hp).append t t'
    · rw [hl.1 hp]
      exact (ht.2 (h.resolve_left hp)).after l'

theorem ScopeProg.resolutions_reveal (p : ScopeProg N D) (c : ScopeChain N D) :
    (¬ p.MeetsHidden c → p.resolutions c.reveal = p.resolutions c) ∧
      (p.MeetsHidden c → Diverge (p.resolutions c.reveal) (p.resolutions c)) := by
  induction p generalizing c with
  | done => exact ⟨fun _ => rfl, False.elim⟩
  | depth next ih =>
    have hlen : c.reveal.length = c.length := List.length_map _
    rw [resolutions, hlen]
    exact ih c.length c
  | bind name data next ih =>
    rw [resolutions, ← reveal_bind]
    exact ih (c.bind name data)
  | resolve level name next ih =>
    rw [MeetsHidden, resolutions, resolutions]
    by_cases hhides : c.Hides level name
    · refine ⟨fun h => absurd (.inl hhides) h, fun _ => ?_⟩
      refine ⟨[], _, _, _, _, fun heq => ?_, rfl, rfl⟩
      exact (chain_resolve_reveal_iff c level name).mp (congrArg Resolution.slot heq) hhides
    · rw [(chain_resolve_reveal_iff c level name).mpr hhides]
      obtain ⟨hsame, hdiverge⟩ := ih (c.resolve level name) c
      constructor
      · intro h
        rw [hsame fun hnext => h (.inr hnext)]
      · rintro (h | h)
        · exact absurd h hhides
        · exact (hdiverge h).after [_]
  | block body next ihBody ih => exact agree_or_diverge_append (ihBody c) (ih c)
  | frame body next ihBody ih => exact agree_or_diverge_append (ihBody ([] :: c)) (ih c)

end Machine
