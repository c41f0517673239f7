import Eshkol.Machine.Exec

/-!
# Vectors

The vector operations that the library procedures of `lib/core` use. A vector is the list of
its slots; reading or writing outside it raises an error.
-/

namespace Eshkol.Core.Vectors

open Machine

variable {α : Type}

def vectorRef (v : List α) (i : ℕ) : Exec String α :=
  match v[i]? with
  | some x => .ok x
  | none => .error (.raised "vector-ref: index out of bounds")

def vectorSet (v : List α) (i : ℕ) (x : α) : Exec String (List α) :=
  if i < v.length then .ok (v.set i x)
  else .error (.raised "vector-set!: index out of bounds")

theorem vectorRef_eq {v : List α} {i : ℕ} {x : α} (h : v[i]? = some x) : vectorRef v i = .ok x := by
  rw [vectorRef, h]

theorem vectorSet_eq {v : List α} {i : ℕ} (hi : i < v.length) (x : α) :
    vectorSet v i x = .ok (v.set i x) :=
  if_pos hi

end Eshkol.Core.Vectors
