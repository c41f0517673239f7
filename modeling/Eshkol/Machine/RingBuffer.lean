import Mathlib.Data.Nat.ModEq
import Mathlib.Data.List.Basic

/-!
# Ring Buffers

A queue kept in consecutive slots of a buffer, from a head, going round at its end. Writing
the slot after the last one appends to the queue; moving the head on by one slot removes its
first element, whatever is then written to the slot that was left.

## Main results

* `Holds.push`, `Holds.pop`: the two moves on the slots are the two moves on the queue.
* `Holds.head_eq`: the slot at the head holds the first element.
-/

namespace RingBuffer

variable {α : Type} {buf : List α} {head : ℕ} {q : List α}

/-- The slot `k` places after the head. -/
def slot (buf : List α) (head k : ℕ) : ℕ := (head + k) % buf.length

theorem slot_lt (hhead : head < buf.length) (k : ℕ) : slot buf head k < buf.length :=
  Nat.mod_lt _ (Nat.zero_lt_of_lt hhead)

theorem slot_zero (hhead : head < buf.length) : slot buf head 0 = head := Nat.mod_eq_of_lt hhead

theorem slot_inj {j k : ℕ} (hj : j < buf.length) (hk : k < buf.length)
    (h : slot buf head j = slot buf head k) : j = k := by
  have hmod : j ≡ k [MOD buf.length] := Nat.ModEq.add_left_cancel' head h
  rwa [Nat.ModEq, Nat.mod_eq_of_lt hj, Nat.mod_eq_of_lt hk] at hmod

/-- The slots from the head on hold the queue. -/
structure Holds (buf : List α) (head : ℕ) (q : List α) : Prop where
  head_lt : head < buf.length
  length_le : q.length ≤ buf.length
  slots : ∀ k < q.length, buf[slot buf head k]? = q[k]?

theorem Holds.nil (hhead : head < buf.length) : Holds buf head [] :=
  ⟨hhead, Nat.zero_le _, fun k hk => absurd hk (Nat.not_lt_zero k)⟩

theorem Holds.head_eq {v : α} (h : Holds buf head (v :: q)) : buf[head]? = some v := by
  have h0 := h.slots 0 (Nat.zero_lt_succ _)
  rwa [slot_zero h.head_lt] at h0

theorem Holds.push (h : Holds buf head q) (hroom : q.length < buf.length) (v : α) :
    Holds (buf.set (slot buf head q.length) v) head (q ++ [v]) := by
  refine ⟨by rw [List.length_set]; exact h.head_lt, ?_, fun k hk => ?_⟩
  · rw [List.length_append, List.length_singleton, List.length_set]
    exact hroom
  · rw [List.length_append, List.length_singleton] at hk
    rw [show slot (buf.set (slot buf head q.length) v) head k = slot buf head k by
      rw [slot, List.length_set]; rfl]
    by_cases hkq : k = q.length
    · rw [hkq, List.getElem?_set_self (slot_lt h.head_lt _), List.getElem?_concat_length]
    · have hlt : k < q.length := by omega
      have hne : slot buf head q.length ≠ slot buf head k := fun he =>
        hkq (slot_inj hroom (hlt.trans hroom) he).symm
      rw [List.getElem?_set_ne hne, List.getElem?_append_left hlt, h.slots k hlt]

theorem Holds.pop {v : α} (h : Holds buf head (v :: q)) (x : α) :
    Holds (buf.set head x) ((head + 1) % buf.length) q := by
  have hlen : q.length + 1 ≤ buf.length := h.length_le
  refine ⟨?_, by rw [List.length_set]; omega, fun k hk => ?_⟩
  · rw [List.length_set]
    exact slot_lt h.head_lt 1
  · have hslot : slot (buf.set head x) ((head + 1) % buf.length) k = slot buf head (k + 1) := by
      rw [slot, slot, List.length_set, Nat.mod_add_mod, Nat.add_assoc, Nat.add_comm 1 k]
    have hne : head ≠ slot buf head (k + 1) := by
      intro he
      have h0 := @slot_inj α buf head 0 (k + 1) (by omega) (by omega)
        (by rw [slot_zero h.head_lt, ← he])
      omega
    rw [hslot, List.getElem?_set_ne hne, h.slots (k + 1) (Nat.succ_lt_succ hk),
      List.getElem?_cons_succ]

end RingBuffer
