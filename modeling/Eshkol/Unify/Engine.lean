import Eshkol.Machine.Exec
import Eshkol.Unify.Triangular

/-!
# A Unification Engine

Unification of values that represent terms, with a list of bindings that is passed on from
argument to argument. How values represent terms is the parameter `Engine`: what a value
looks like, which values are taken for equal at once, and an occurs check, which may stop at
some depth. A call is given bindings or nothing at all; nothing also stands for failure.

`Semantics` says which term a value represents. The loop that follows bindings is cut off
when it has made more steps than there are bindings; it has then met a variable twice.
-/

namespace Unify

open Machine

/-- What a value looks like: a variable, a compound with a label, or neither. -/
inductive Shape (T V L : Type) : Type
  | var (v : V)
  | compound (l : L) (args : List T)
  | atom

/-- What to do with two values whose bindings have been followed. -/
inductive Next (T V : Type) : Type
  | done
  | bind (v : V) (t : T)
  | descend (as bs : List T)
  | clash

/-- A representation of terms. -/
structure Engine (T V L : Type) where
  /-- Another spelling of a variable is replaced before its bindings are followed. -/
  canonical : T → T
  shape : T → Shape T V L
  /-- Values that are equal before anything is bound. -/
  equal : T → T → Bool
  sameLabel : L → L → Bool
  /-- The compounds that are walked inside: the arguments, and the compound with others. -/
  parts : T → Option (List T × (List T → T))
  /-- The number of levels that the occurs check looks at. -/
  levels : ℕ

namespace Engine

variable {T V L : Type} [DecidableEq V] (E : Engine T V L)

/-- Follows the bindings of a variable, for at most `n` values. -/
def follow (s : List (V × T)) : ℕ → T → Exec Unit T
  | 0, _ => .error .diverges
  | n + 1, t => match E.shape t with
    | .var v => match s.lookup v with
      | none => .ok t
      | some u => follow s n u
    | _ => .ok t

/-- What a value is bound to. -/
def walk (s : List (V × T)) (t : T) : Exec Unit T := E.follow s (s.length + 1) (E.canonical t)

/-- Whether a test that may fail holds of some element. -/
def anyM {α : Type} (p : α → Exec Unit Bool) : List α → Exec Unit Bool
  | [] => .ok false
  | a :: as => do
      if ← p a then .ok true else anyM p as

/-- Looks for a variable in the first levels of a value. -/
def occursWithin (s : List (V × T)) (v : V) : ℕ → T → Exec Unit Bool
  | 0, _ => .ok false
  | k + 1, t => do
      let w ← E.walk s t
      match E.shape w with
      | .var u => .ok (decide (u = v))
      | .compound _ args => anyM (occursWithin s v k) args
      | .atom => .ok false

/-- Walks inside compounds, down to a number of levels. -/
def deepWalk (s : List (V × T)) : ℕ → T → Exec Unit T
  | 0, t => .ok t
  | k + 1, t => do
      let w ← E.walk s t
      match E.parts w with
      | none => .ok w
      | some (args, rebuild) => do
          let args' ← args.mapM (deepWalk s k)
          .ok (rebuild args')

/-- The next step for two values whose bindings have been followed. -/
def next (w₁ w₂ : T) : Next T V :=
  if E.equal w₁ w₂ then .done
  else match E.shape w₁, E.shape w₂ with
    | .var v, _ => .bind v w₂
    | _, .var v => .bind v w₁
    | .compound l₁ as, .compound l₂ bs =>
      if E.sameLabel l₁ l₂ ∧ as.length = bs.length then .descend as bs else .clash
    | _, _ => .clash

/-- Binds a variable after an occurs check. -/
def bindVar (v : V) (t : T) (s : Option (List (V × T))) : Exec Unit (Option (List (V × T))) := do
  if ← E.occursWithin (s.getD []) v E.levels t then .ok none
  else .ok (some (s.getD [] ++ [(v, t)]))

/-- Unifies arguments from left to right. -/
def unifyArgs {S : Type} (u : T → T → Option S → Exec Unit (Option S)) :
    List T → List T → Option S → Exec Unit (Option S)
  | a :: as, b :: bs, s => do
      match ← u a b s with
      | none => .ok none
      | some s' => unifyArgs u as bs (some s')
  | _, _, s => .ok s

/-- Takes the next step, given how to unify arguments. -/
def proceed (u : T → T → Option (List (V × T)) → Exec Unit (Option (List (V × T))))
    (s : Option (List (V × T))) : Next T V → Exec Unit (Option (List (V × T)))
  | .done => .ok s
  | .bind v t => E.bindVar v t s
  | .descend as bs => unifyArgs u as bs s
  | .clash => .ok none

/-- Unification, to a depth of `n` calls. -/
def unify : ℕ → T → T → Option (List (V × T)) → Exec Unit (Option (List (V × T)))
  | 0, _, _, _ => .error .diverges
  | n + 1, t₁, t₂, s => do
      let w₁ ← E.walk (s.getD []) t₁
      let w₂ ← E.walk (s.getD []) t₂
      E.proceed (unify n) s (E.next w₁ w₂)

/-- The parts of two values that are compared first are not equal to begin with: a variable is
bound, or the two are rejected. -/
inductive Leads : T → T → Prop
  | bind {t₁ t₂ : T} {v : V} {t : T}
      (h : E.next (E.canonical t₁) (E.canonical t₂) = .bind v t) : Leads t₁ t₂
  | clash {t₁ t₂ : T} (h : E.next (E.canonical t₁) (E.canonical t₂) = .clash) : Leads t₁ t₂
  | descend {t₁ t₂ a b : T} {as bs : List T}
      (h : E.next (E.canonical t₁) (E.canonical t₂) = .descend (a :: as) (b :: bs))
      (hfirst : Leads a b) : Leads t₁ t₂

variable {E}

theorem walk_nil (t : T) : E.walk [] t = .ok (E.canonical t) := by
  rw [walk, List.length_nil, follow]
  split
  next => rfl
  next => rfl

theorem unify_none {t₁ t₂ : T} (h : E.Leads t₁ t₂) (n : ℕ) :
    E.unify n t₁ t₂ none = E.unify n t₁ t₂ (some []) := by
  induction h generalizing n with
  | bind h =>
    cases n with
    | zero => rfl
    | succ n =>
      simp only [unify, Option.getD_none, Option.getD_some, walk_nil, ok_bind, h]
      rfl
  | clash h =>
    cases n with
    | zero => rfl
    | succ n =>
      simp only [unify, Option.getD_none, Option.getD_some, walk_nil, ok_bind, h]
      rfl
  | descend h _ ih =>
    cases n with
    | zero => rfl
    | succ n =>
      simp only [unify, Option.getD_none, Option.getD_some, walk_nil, ok_bind, h, proceed,
        unifyArgs, ih]

end Engine

/-! ### Meaning -/

/-- The terms that the values of an engine represent. -/
structure Semantics {T V L : Type} (E : Engine T V L) (F : Type) where
  den : T → Term V F
  label : L → F
  canonical_canonical : ∀ t, E.canonical (E.canonical t) = E.canonical t
  den_canonical : ∀ t, den (E.canonical t) = den t
  den_var : ∀ {t v}, E.shape t = .var v → den t = .var v
  den_compound : ∀ {t l args}, E.shape t = .compound l args → den t = .app (label l) (args.map den)
  den_atom : ∀ {t}, E.canonical t = t → E.shape t = .atom → ∃ f, den t = .app f []
  equal_var : ∀ {t u v}, E.shape t = .var v → E.shape u = .var v → E.equal t u = true
  den_parts : ∀ {t args rebuild}, E.parts t = some (args, rebuild) →
    ∃ f, ∀ args', args'.length = args.length →
      den t = .app f (args.map den) ∧ den (rebuild args') = .app f (args'.map den)

namespace Semantics

variable {T V L F : Type} [DecidableEq V] {E : Engine T V L} (S : Semantics E F)

/-- The bindings that a substitution represents. -/
def bindings (s : List (V × T)) : Bindings V F := s.map fun b => (b.1, S.den b.2)

/-- Variables are bound to canonical values. -/
def Settled (E : Engine T V L) (s : List (V × T)) : Prop := ∀ b ∈ s, E.canonical b.2 = b.2

theorem lookup_bindings (s : List (V × T)) (v : V) :
    (S.bindings s).lookup v = (s.lookup v).map S.den := by
  induction s with
  | nil => rfl
  | cons b s ih =>
    obtain ⟨w, t⟩ := b
    rw [bindings, List.map_cons, List.lookup_cons, List.lookup_cons, ← bindings, ih]
    simp only
    cases v == w <;> rfl

omit [DecidableEq V] in
theorem bindings_append (s : List (V × T)) (v : V) (t : T) :
    S.bindings (s ++ [(v, t)]) = S.bindings s ++ [(v, S.den t)] := by
  rw [bindings, List.map_append]
  rfl

omit [DecidableEq V] in
theorem length_bindings (s : List (V × T)) : (S.bindings s).length = s.length := List.length_map _

variable {S} {s : List (V × T)} {t w : T}

theorem mem_of_lookup {v : V} (h : s.lookup v = some t) : (v, t) ∈ s := by
  obtain ⟨l₁, l₂, rfl, -⟩ := List.lookup_eq_some_iff.mp h
  simp

/-! ### Walking -/

/-- Where the bindings of a value lead. -/
structure Walked (S : Semantics E F) (s : List (V × T)) (t w : T) : Prop where
  canonical : E.canonical w = w
  free : ∀ v, E.shape w = .var v → s.lookup v = none
  value : ∀ θ, Solves θ (S.bindings s) → (S.den w).apply θ = (S.den t).apply θ
  occurs : ∀ v, (S.bindings s).lookup v = none → ∀ k,
    (OccursAt (S.bindings s) v k (S.den w) ↔ OccursAt (S.bindings s) v k (S.den t))
  source : w = t ∨ ∃ v, (v, w) ∈ s

theorem Walked.refl (hcanonical : E.canonical t = t)
    (hfree : ∀ v, E.shape t = .var v → s.lookup v = none) : Walked S s t t :=
  ⟨hcanonical, hfree, fun _ _ => rfl, fun _ _ _ => Iff.rfl, .inl rfl⟩

theorem Walked.step {v : V} {u : T} (ht : E.shape t = .var v) (hu : s.lookup v = some u)
    (h : Walked S s u w) : Walked S s t w where
  canonical := h.canonical
  free := h.free
  value := by
    intro θ hθ
    have hlook : (S.bindings s).lookup v = some (S.den u) := by
      rw [lookup_bindings, hu, Option.map_some]
    rw [h.value θ hθ, S.den_var ht, Term.apply_var, hθ v _ hlook]
  occurs := by
    intro x hx k
    have hlook : (S.bindings s).lookup v = some (S.den u) := by
      rw [lookup_bindings, hu, Option.map_some]
    have hne : v ≠ x := by
      rintro rfl
      rw [hx] at hlook
      cases hlook
    rw [h.occurs x hx k, S.den_var ht, occursAt_of_lookup hlook hne]
  source := by
    rcases h.source with rfl | hmem
    · exact .inr ⟨v, mem_of_lookup hu⟩
    · exact .inr hmem

theorem follow_spec (hs : Settled E s) {n : ℕ} (hcanonical : E.canonical t = t)
    (h : E.follow s n t = .ok w) : Walked S s t w := by
  induction n generalizing t with
  | zero => cases h
  | succ n ih =>
    rw [Engine.follow] at h
    split at h
    next v hv =>
      split at h
      next hlook =>
        cases h
        refine .refl hcanonical ?_
        intro x hx
        rw [hv] at hx
        cases hx
        exact hlook
      next u hlook =>
        exact .step hv hlook (ih (hs _ (mem_of_lookup hlook)) h)
    next hvar =>
      cases h
      exact .refl hcanonical fun x hx => absurd hx (hvar x)

theorem walk_spec (hs : Settled E s) (h : E.walk s t = .ok w) : Walked S s (E.canonical t) w :=
  follow_spec hs (S.canonical_canonical t) h

theorem walk_value (hs : Settled E s) (h : E.walk s t = .ok w) {θ : V → Term V F}
    (hθ : Solves θ (S.bindings s)) : (S.den w).apply θ = (S.den t).apply θ := by
  rw [(walk_spec hs h).value θ hθ, S.den_canonical]

theorem walk_occurs (hs : Settled E s) (h : E.walk s t = .ok w) {v : V}
    (hv : (S.bindings s).lookup v = none) (k : ℕ) :
    OccursAt (S.bindings s) v k (S.den w) ↔ OccursAt (S.bindings s) v k (S.den t) := by
  rw [(walk_spec hs h).occurs v hv k, S.den_canonical]

theorem follow_total (hs : Acyclic (S.bindings s)) {n : ℕ} {t : T} (hn : 0 < n)
    (h : ∀ v, E.shape t = .var v → (reach (S.bindings s) v).card < n) :
    ∃ w, E.follow s n t = .ok w := by
  induction n generalizing t with
  | zero => omega
  | succ n ih =>
    rw [Engine.follow]
    split
    next v hv =>
      split
      next => exact ⟨t, rfl⟩
      next u hu =>
        have hlook : (S.bindings s).lookup v = some (S.den u) := by
          rw [lookup_bindings, hu, Option.map_some]
        -- a chain of variables leads to fewer and fewer bound ones
        have hpos : 0 < (reach (S.bindings s) v).card := by
          apply Finset.card_pos.mpr
          refine ⟨v, ?_⟩
          simp only [reach, Finset.mem_filter]
          exact ⟨mem_dom_of_lookup hlook, .refl⟩
        have hlt := h v hv
        refine ih (by omega) ?_
        intro x hx
        have hedge : Edge (S.bindings s) v x := ⟨S.den u, hlook, by simp [S.den_var hx]⟩
        have := hs.card_reach_lt hedge
        omega
    next => exact ⟨t, rfl⟩

theorem walk_total (hs : Acyclic (S.bindings s)) (t : T) : ∃ w, E.walk s t = .ok w := by
  refine follow_total hs (Nat.succ_pos _) ?_
  intro v _
  have := card_reach_le (S.bindings s) v
  rw [length_bindings] at this
  omega

/-! ### The occurs check -/

theorem anyM_eq_true {α : Type} {p : α → Exec Unit Bool} {as : List α}
    (h : Engine.anyM p as = .ok true) : ∃ a ∈ as, p a = .ok true := by
  induction as with
  | nil => cases h
  | cons a as ih =>
    rw [Engine.anyM] at h
    obtain ⟨b, hb, h⟩ := bind_eq_ok.mp h
    cases b with
    | true => exact ⟨a, by simp, hb⟩
    | false =>
      obtain ⟨x, hx, hpx⟩ := ih h
      exact ⟨x, by simp [hx], hpx⟩

theorem anyM_eq_false {α : Type} {p : α → Exec Unit Bool} {as : List α}
    (h : ∀ a ∈ as, p a = .ok false) : Engine.anyM p as = .ok false := by
  induction as with
  | nil => rfl
  | cons a as ih =>
    rw [Engine.anyM, h a (by simp), ok_bind]
    exact ih fun x hx => h x (by simp [hx])

theorem anyM_total {α : Type} {p : α → Exec Unit Bool} {as : List α}
    (h : ∀ a ∈ as, ∃ b, p a = .ok b) : ∃ b, Engine.anyM p as = .ok b := by
  induction as with
  | nil => exact ⟨false, rfl⟩
  | cons a as ih =>
    obtain ⟨b, hb⟩ := h a (by simp)
    rw [Engine.anyM, hb, ok_bind]
    cases b with
    | true => exact ⟨true, rfl⟩
    | false => exact ih fun x hx => h x (by simp [hx])

theorem anyM_of_mem {α : Type} {p : α → Exec Unit Bool} {as : List α}
    (htotal : ∀ a ∈ as, ∃ b, p a = .ok b) {a : α} (ha : a ∈ as) (h : p a = .ok true) :
    Engine.anyM p as = .ok true := by
  induction as with
  | nil => simp at ha
  | cons x as ih =>
    obtain ⟨b, hb⟩ := htotal x (by simp)
    rw [Engine.anyM, hb, ok_bind]
    cases b with
    | true => rfl
    | false =>
      rcases List.mem_cons.mp ha with rfl | ha
      · rw [h] at hb
        cases hb
      · exact ih (fun y hy => htotal y (by simp [hy])) ha

section OccursCheck

variable {v : V}

theorem occursWithin_total (hs : Acyclic (S.bindings s)) (k : ℕ) (t : T) :
    ∃ b, E.occursWithin s v k t = .ok b := by
  induction k generalizing t with
  | zero => exact ⟨false, rfl⟩
  | succ k ih =>
    obtain ⟨w, hw⟩ := walk_total hs t
    rw [Engine.occursWithin, hw, ok_bind]
    split
    next => exact ⟨_, rfl⟩
    next => exact anyM_total fun a _ => ih a
    next => exact ⟨false, rfl⟩

theorem occursWithin_sound (hs : Settled E s) (hv : (S.bindings s).lookup v = none) {n : ℕ}
    {t : T} (h : E.occursWithin s v n t = .ok true) :
    ∃ k < n, OccursAt (S.bindings s) v k (S.den t) := by
  induction n generalizing t with
  | zero => cases h
  | succ n ih =>
    rw [Engine.occursWithin] at h
    obtain ⟨w, hw, h⟩ := bind_eq_ok.mp h
    simp only [← walk_occurs hs hw hv]
    split at h
    next u hu =>
      have huv : u = v := by simpa using h
      exact ⟨0, n.succ_pos, by rw [S.den_var hu, huv]; exact .here⟩
    next l args hargs =>
      obtain ⟨a, ha, hocc⟩ := anyM_eq_true h
      obtain ⟨k, hk, hocc⟩ := ih hocc
      exact ⟨k + 1, Nat.succ_lt_succ hk,
        by rw [S.den_compound hargs]; exact .arg (List.mem_map_of_mem ha) hocc⟩
    next => cases h

theorem occursWithin_complete (hs : Settled E s) (hacyclic : Acyclic (S.bindings s))
    (hv : (S.bindings s).lookup v = none) {n k : ℕ} {t : T} (hk : k < n)
    (h : OccursAt (S.bindings s) v k (S.den t)) : E.occursWithin s v n t = .ok true := by
  induction n generalizing k t with
  | zero => omega
  | succ n ih =>
    obtain ⟨w, hw⟩ := walk_total hacyclic t
    have hwalked := walk_spec (S := S) hs hw
    rw [← walk_occurs hs hw hv] at h
    rw [Engine.occursWithin, hw, ok_bind]
    cases hshape : E.shape w with
    | var u =>
      rw [S.den_var hshape] at h
      cases h with
      | here => simp
      | bound hu _ =>
        rw [lookup_bindings, hwalked.free u hshape] at hu
        cases hu
    | compound l args =>
      rw [S.den_compound hshape] at h
      cases h with
      | arg ht hocc =>
        obtain ⟨a, ha, rfl⟩ := List.mem_map.mp ht
        exact anyM_of_mem (fun a _ => occursWithin_total hacyclic n a) ha
          (ih (Nat.lt_of_succ_lt_succ hk) hocc)
    | atom =>
      obtain ⟨f, hf⟩ := S.den_atom hwalked.canonical hshape
      rw [hf] at h
      cases h with
      | arg ht _ => cases ht

/-- **The occurs check is exact to its levels**: it finds a variable that is not bound if and only
if the variable occurs, bindings resolved, in the levels that the check looks at. -/
theorem occursWithin_iff (hs : Settled E s) (hacyclic : Acyclic (S.bindings s))
    (hv : (S.bindings s).lookup v = none) {n : ℕ} {t : T} :
    E.occursWithin s v n t = .ok true ↔ ∃ k < n, OccursAt (S.bindings s) v k (S.den t) := by
  constructor
  · exact occursWithin_sound hs hv
  · rintro ⟨k, hk, h⟩
    exact occursWithin_complete hs hacyclic hv hk h

end OccursCheck

theorem deepWalk_total (hs : Acyclic (S.bindings s)) (k : ℕ) (t : T) :
    ∃ w, E.deepWalk s k t = .ok w := by
  induction k generalizing t with
  | zero => exact ⟨t, rfl⟩
  | succ k ih =>
    obtain ⟨w, hw⟩ := walk_total hs t
    rw [Engine.deepWalk, hw, ok_bind]
    split
    next => exact ⟨w, rfl⟩
    next args rebuild _ =>
      obtain ⟨args', hargs⟩ := mapM_total (fun a (_ : a ∈ args) => ih a)
      rw [hargs]
      exact ⟨_, rfl⟩

/-- Values in which all compounds are walked inside. -/
structure Transparent (E : Engine T V L) (P : T → Prop) : Prop where
  canonical : ∀ {t}, P t → P (E.canonical t)
  not_compound : ∀ {t l args}, P t → E.parts t = none → E.shape t ≠ .compound l args
  args : ∀ {t args rebuild}, P t → E.parts t = some (args, rebuild) → ∀ a ∈ args, P a

/-- A deep walk applies the bindings, as far as it has levels. -/
theorem deepWalk_spec {P : T → Prop} (hP : Transparent E P) (hs : Settled E s)
    (hacyclic : Acyclic (S.bindings s)) (hPs : ∀ b ∈ s, P b.2) {k : ℕ} {t r : T} (ht : P t)
    (hdepth : ((S.den t).apply (solution (S.bindings s))).depth < k)
    (h : E.deepWalk s k t = .ok r) :
    S.den r = (S.den t).apply (solution (S.bindings s)) := by
  induction k generalizing t r with
  | zero => omega
  | succ k ih =>
    rw [Engine.deepWalk] at h
    obtain ⟨w, hw, h⟩ := bind_eq_ok.mp h
    have hwalked := walk_spec (S := S) hs hw
    have hPw : P w := by
      rcases hwalked.source with rfl | ⟨v, hv⟩
      · exact hP.canonical ht
      · exact hPs _ hv
    rw [← walk_value hs hw hacyclic.solves_solution] at hdepth ⊢
    split at h
    next hnone =>
      obtain rfl := Except.ok.inj h
      cases hshape : E.shape w with
      | var v =>
        have hfree : (S.bindings s).lookup v = none := by
          rw [lookup_bindings, hwalked.free v hshape, Option.map_none]
        rw [S.den_var hshape, Term.apply_var, solution_of_free hfree]
      | compound l args => exact absurd hshape (hP.not_compound hPw hnone)
      | atom =>
        obtain ⟨f, hf⟩ := S.den_atom hwalked.canonical hshape
        rw [hf, Term.apply_app, List.map_nil]
    next args rebuild hparts =>
      obtain ⟨args', hargs', h⟩ := bind_eq_ok.mp h
      cases h
      obtain ⟨f, hf⟩ := S.den_parts hparts
      obtain ⟨hden, hden'⟩ := hf args' (mapM_eq_ok.mp hargs').length_eq.symm
      rw [hden, Term.apply_app, List.map_map] at hdepth ⊢
      rw [hden', map_of_mapM_eq_ok hargs']
      intro a ha r hr
      have hsmall := Term.depth_le_iff.mp (Nat.le_of_lt_succ hdepth) _ (List.mem_map_of_mem ha)
      exact ih (hP.args hPw hparts a ha) hsmall hr

end Semantics

end Unify
