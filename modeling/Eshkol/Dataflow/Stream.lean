import Mathlib.Algebra.Group.Hom.Defs
import Mathlib.Tactic.Abel

/-!
# Streams of Changes

Finite streams over a commutative group. Integrating a stream of changes gives the stream of
snapshots, differentiating undoes it, and a query on snapshots becomes one on changes. All are
given with the state they start from.
-/

namespace Dataflow

variable {G H K : Type} [AddCommGroup G] [AddCommGroup H] [AddCommGroup K]

/-- The snapshots after each change, from a first snapshot. -/
def integ (acc : G) : List G → List G
  | [] => []
  | x :: xs => (acc + x) :: integ (acc + x) xs

/-- The changes between snapshots, from a first snapshot. -/
def diff (prev : G) : List G → List G
  | [] => []
  | x :: xs => (x - prev) :: diff x xs

/-- The incremental form of a query: the changes of what it returns. -/
def incr (q : G → H) (acc : G) : List G → List H
  | [] => []
  | x :: xs => (q (acc + x) - q acc) :: incr q (acc + x) xs

theorem diff_integ (p : G) (s : List G) : diff p (integ p s) = s := by
  induction s generalizing p with
  | nil => rfl
  | cons x s ih => rw [integ, diff, ih, add_sub_cancel_left]

theorem integ_diff (p : G) (s : List G) : integ p (diff p s) = s := by
  induction s generalizing p with
  | nil => rfl
  | cons x s ih => rw [diff, integ, add_sub_cancel, ih]

theorem diff_map_integ (q : G → H) (acc : G) (s : List G) :
    diff (q acc) ((integ acc s).map q) = incr q acc s := by
  induction s generalizing acc with
  | nil => rfl
  | cons x s ih => rw [integ, List.map_cons, diff, ih, incr]

theorem incr_eq_map (f : G →+ H) (acc : G) (s : List G) : incr f acc s = s.map f := by
  induction s generalizing acc with
  | nil => rfl
  | cons x s ih => rw [incr, ih, map_add, add_sub_cancel_left, List.map_cons]

/-- Additive in each of two arguments. -/
structure Biadditive (f : G → H → K) : Prop where
  add_left : ∀ a a' b, f (a + a') b = f a b + f a' b
  add_right : ∀ a b b', f a (b + b') = f a b + f a b'

/-- The change of a product from the changes of its factors. -/
def product (f : G → H → K) (a : G) (b : H) : List G → List H → List K
  | [], _ => []
  | _ :: _, [] => []
  | x :: xs, y :: ys => (f x b + f a y + f x y) :: product f (a + x) (b + y) xs ys

theorem diff_zipWith {f : G → H → K} (hf : Biadditive f) (a : G) (b : H) (as : List G)
    (bs : List H) :
    diff (f a b) (List.zipWith f (integ a as) (integ b bs)) = product f a b as bs := by
  induction as generalizing a b bs with
  | nil => cases bs <;> rfl
  | cons x as ih =>
    cases bs with
    | nil => rfl
    | cons y bs =>
      rw [integ, integ, List.zipWith_cons_cons, diff, ih, product]
      congr 1
      rw [hf.add_left, hf.add_right, hf.add_right]
      abel

theorem diff_add (a b : G) (as bs : List G) :
    diff (a + b) (List.zipWith (· + ·) (integ a as) (integ b bs)) = List.zipWith (· + ·) as bs := by
  induction as generalizing a b bs with
  | nil => cases bs <;> rfl
  | cons x as ih =>
    cases bs with
    | nil => rfl
    | cons y bs =>
      rw [integ, integ, List.zipWith_cons_cons, diff, ih, List.zipWith_cons_cons]
      congr 1
      abel

end Dataflow
