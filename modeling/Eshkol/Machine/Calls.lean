import Eshkol.Machine.Exec

/-!
# Procedures that Return

`Yields f out` says that a procedure returns `out` once it may make enough calls. Procedures
that return can be sequenced and mapped over lists.

## Main results

* `Yields.bind`: a sequence of two procedures.
* `Yields.mapM`, `Yields.mapTwo`: a procedure mapped over one list or over two.
-/

namespace Machine

variable {α β γ ε : Type}

/-- `map` with a procedure of two arguments. It stops at the end of the shorter list. -/
def mapTwo (f : α → β → Exec ε γ) : List α → List β → Exec ε (List γ)
  | [], _ => .ok []
  | _ :: _, [] => .ok []
  | x :: xs, y :: ys => do
      let z ← f x y
      let zs ← mapTwo f xs ys
      .ok (z :: zs)

theorem yields_ok (out : α) : Yields (fun _ => (.ok out : Exec ε α)) out := ⟨0, fun _ _ => rfl⟩

theorem Yields.bind {f : ℕ → Exec ε α} {g : ℕ → α → Exec ε β} {a : α} {b : β} (hf : Yields f a)
    (hg : Yields (fun calls => g calls a) b) : Yields (fun calls => f calls >>= g calls) b := by
  obtain ⟨n, hn⟩ := hf
  obtain ⟨m, hm⟩ := hg
  refine ⟨max n m, fun calls hcalls => ?_⟩
  change f calls >>= g calls = _
  rw [hn calls ((Nat.le_max_left n m).trans hcalls), ok_bind]
  exact hm calls ((Nat.le_max_right n m).trans hcalls)

theorem Yields.mapM {f : ℕ → α → Exec ε β} {xs : List α} {ys : List β}
    (h : List.Forall₂ (fun x y => Yields (fun calls => f calls x) y) xs ys) :
    Yields (fun calls => xs.mapM (f calls)) ys := by
  induction h with
  | nil => exact yields_ok []
  | @cons x y xs ys hxy _ ih =>
    simp only [List.mapM_cons]
    exact hxy.bind (ih.bind (yields_ok (y :: ys)))

/-- The results of mapping a procedure over two lists. -/
inductive YieldsTwo (f : ℕ → α → β → Exec ε γ) : List α → List β → List γ → Prop
  | left_nil (ys : List β) : YieldsTwo f [] ys []
  | right_nil (x : α) (xs : List α) : YieldsTwo f (x :: xs) [] []
  | cons {x : α} {y : β} {z : γ} {xs : List α} {ys : List β} {zs : List γ}
      (h : Yields (fun calls => f calls x y) z) :
      YieldsTwo f xs ys zs → YieldsTwo f (x :: xs) (y :: ys) (z :: zs)

theorem Yields.mapTwo {f : ℕ → α → β → Exec ε γ} {xs : List α} {ys : List β} {zs : List γ}
    (h : YieldsTwo f xs ys zs) : Yields (fun calls => Machine.mapTwo (f calls) xs ys) zs := by
  induction h with
  | left_nil ys => exact yields_ok []
  | right_nil x xs => exact yields_ok []
  | cons hz _ ih => exact hz.bind (ih.bind (yields_ok _))

end Machine
