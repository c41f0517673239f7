import Eshkol.Machine.Ieee
import Eshkol.Native.Canonical

/-!
# Hash and Equality of Keys

`hash_tagged_value` and `hash_keys_equal` (`lib/core/runtime_hash_table.cpp`). Both walk
pairs and vectors through the heap, which may be cyclic: they take fuel, and `none` is a
walk that has not ended. A heap address holds one object, so two values with one pointer
share everything behind it.

A null value has a zero payload wherever the runtime builds one.
-/

namespace Eshkol

open Machine

/-- The value types that hash and compare by their payload alone. -/
inductive OpaqueType : Type
  | dualNumber | complex | callable | logicVar | handle | buffer | stream | event
  | consPtr | vectorPtr | tensorPtr | hashPtr | exception | closurePtr | lambdaSexpr
  | adNodePtr
  deriving DecidableEq, Repr

/-- The `eshkol_value_type_t` of such a type. -/
def OpaqueType.code : OpaqueType → UInt8
  | dualNumber => 6
  | complex => 7
  | callable => 9
  | logicVar => 10
  | handle => 16
  | buffer => 17
  | stream => 18
  | event => 19
  | consPtr => 32
  | vectorPtr => 34
  | tensorPtr => 35
  | hashPtr => 36
  | exception => 37
  | closurePtr => 38
  | lambdaSexpr => 39
  | adNodePtr => 40

/-- `eshkol_tagged_value_t` as a key: the type with its payload, and for a single float the
whole carrier. -/
inductive KeyValue : Type
  | null
  | int64 (payload : UInt64)
  | double (bits : UInt64)
  | bool (payload : UInt64)
  | char (payload : UInt64)
  | symbol (ptr : UInt64)
  | heapPtr (ptr : UInt64)
  | float32 (flags : UInt8) (reserved : UInt16) (padding : UInt32) (raw : UInt64)
  | stringPtr (ptr : UInt64)
  | other (type : OpaqueType) (raw : UInt64)
  deriving DecidableEq, Repr

/-- `value->type`. -/
def KeyValue.typeCode : KeyValue → UInt8
  | null => 0
  | int64 _ => 1
  | double _ => 2
  | bool _ => 3
  | char _ => 4
  | symbol _ => 5
  | heapPtr _ => 8
  | float32 _ _ _ _ => 11
  | stringPtr _ => 33
  | other type _ => type.code

/-- What a heap pointer points to. A bignum object is normalized; the objects of all other
subtypes count by their address. -/
inductive HeapObject : Type
  | string
  | bignum (value : {b : Bignum // b.Normalized})
  | cons (car cdr : KeyValue)
  | vector (elems : List KeyValue)
  | other (subtype : UInt8)

/-- The heap: the object at an address, and the bytes up to the terminating NUL there. -/
structure Heap where
  object : UInt64 → HeapObject
  cString : UInt64 → List (UInt8)

/-! ### Hashing -/

def fnvOffsetBasis : UInt64 := 14695981039346656037

def fnvPrime : UInt64 := 1099511628211

/-- `hash ^= x; hash *= FNV_PRIME`. -/
def mix (hash x : UInt64) : UInt64 := (hash ^^^ x) * fnvPrime

def fnv1aHashString (str : List (UInt8)) : UInt64 :=
  str.foldl (fun hash c => mix hash c.toUInt64) fnvOffsetBasis

def fnv1aHashU64 (val : UInt64) : UInt64 :=
  (List.range 8).foldl (fun hash i => mix hash (val >>> UInt64.ofNat (i * 8) &&& 0xFF)) fnvOffsetBasis

/-- `eshkol_value_f32_to_bits_v1`: the bits of a canonical carrier. The flag is
`ESHKOL_VALUE_INEXACT_FLAG`. -/
def f32ToBits (flags : UInt8) (reserved : UInt16) (padding : UInt32)
    (raw : UInt64) : Option UInt32 :=
  if flags = 0x20 ∧ reserved = 0 ∧ padding = 0 ∧ raw >>> 32 = 0 then some (raw.toUInt32)
  else none

/-- The payload hash of a single float. Both zeros hash as zero. -/
def hashF32 (bits : Option UInt32) : UInt64 :=
  match bits with
  | none => 0x9a40f32badc0de11
  | some bits => fnv1aHashU64 (if bits &&& 0x7fffffff = 0 then 0 else bits.toUInt64)

def hashTaggedValue (heap : Heap) : ℕ → KeyValue → Option UInt64
  | 0, _ => none
  | fuel + 1, value =>
    let hash := mix fnvOffsetBasis value.typeCode.toUInt64
    match value with
    | .int64 payload => some (hash ^^^ fnv1aHashU64 payload)
    | .bool payload => some (hash ^^^ fnv1aHashU64 payload)
    | .char payload => some (hash ^^^ fnv1aHashU64 payload)
    | .double bits => some (hash ^^^ fnv1aHashU64 bits)
    | .float32 flags reserved padding raw =>
      some (hash ^^^ hashF32 (f32ToBits flags reserved padding raw))
    | .stringPtr ptr =>
      if ptr = 0 then some hash else some (hash ^^^ fnv1aHashString (heap.cString ptr))
    | .symbol ptr => some (hash ^^^ fnv1aHashU64 ptr)
    | .heapPtr ptr =>
      if ptr = 0 then some hash
      else match heap.object ptr with
        | .string => some (hash ^^^ fnv1aHashString (heap.cString ptr))
        | .bignum bn =>
          some (bn.1.limbs.foldl (fun hash limb => mix hash (fnv1aHashU64 (.ofBitVec limb)))
            (mix hash (if bn.1.sign then 1 else 0)))
        | .cons car cdr => do
            let hcar ← hashTaggedValue heap fuel car
            let hcdr ← hashTaggedValue heap fuel cdr
            some (mix (mix hash hcar) hcdr)
        | .vector elems =>
          elems.foldlM (fun hash elem => do
            let helem ← hashTaggedValue heap fuel elem
            some (mix hash helem)) hash
        | .other _ => some (hash ^^^ fnv1aHashU64 ptr)
    | .null => some (hash ^^^ fnv1aHashU64 0)
    | .other _ raw => some (hash ^^^ fnv1aHashU64 raw)

/-! ### Equality -/

/-- `==` of two doubles. -/
def doubleEqual (a b : UInt64) : Bool := (ieeeDecode 11 52 a.toNat).eq (ieeeDecode 11 52 b.toNat)

/-- `eshkol_value_f32_to_double_v1`: the promoted value, in units of the least subnormal
double. -/
def f32ToDouble (bits : UInt32) : IeeeValue := (ieeeDecode 8 23 bits.toNat).scale (2 ^ 925)

/-- The `ESHKOL_VALUE_FLOAT32` case of `hash_keys_equal`. -/
def f32Equal (a b : Option UInt32) : Bool :=
  match a, b with
  | some a, some b => (f32ToDouble a).eq (f32ToDouble b)
  | _, _ => false

/-- The element loop of the vector case. -/
def elemsEqual (equal : KeyValue → KeyValue → Option Bool) :
    List KeyValue → List KeyValue → Option Bool
  | x :: xs, y :: ys => do
      let same ← equal x y
      if same then elemsEqual equal xs ys else some false
  | _, _ => some true

def hashKeysEqual (heap : Heap) : ℕ → KeyValue → KeyValue → Option Bool
  | 0, _, _ => none
  | fuel + 1, a, b =>
    match a, b with
    | .int64 x, .int64 y => some (x == y)
    | .bool x, .bool y => some (x == y)
    | .char x, .char y => some (x == y)
    | .double x, .double y => some (doubleEqual x y)
    | .float32 f r p x, .float32 f' r' p' y =>
      some (f32Equal (f32ToBits f r p x) (f32ToBits f' r' p' y))
    | .stringPtr p, .stringPtr q =>
      if p = q then some true
      else if p = 0 ∨ q = 0 then some false
      else some (heap.cString p == heap.cString q)
    | .symbol p, .symbol q => some (p == q)
    | .null, .null => some true
    | .heapPtr p, .heapPtr q =>
      if p = q then some true
      else if p = 0 ∨ q = 0 then some false
      else match heap.object p, heap.object q with
        | .string, .string => some (heap.cString p == heap.cString q)
        | .bignum x, .bignum y => some (eshkolBignumCompare x.1 y.1 == 0)
        | .cons car cdr, .cons car' cdr' => do
            let same ← hashKeysEqual heap fuel car car'
            if same then hashKeysEqual heap fuel cdr cdr' else some false
        | .vector xs, .vector ys =>
          if xs.length ≠ ys.length then some false
          else elemsEqual (hashKeysEqual heap fuel) xs ys
        | _, _ => some false
    | .other s x, .other t y => some (s == t && x == y)
    | _, _ => some false

/-- The number of positions, reached as `hash_keys_equal` reaches them, at which the two
keys hold double zeros of opposite sign. -/
def oppositeZeros (heap : Heap) : ℕ → KeyValue → KeyValue → ℕ
  | 0, _, _ => 0
  | fuel + 1, a, b =>
    match a, b with
    | .double x, .double y =>
      if x ≠ y ∧ ieeeIsZero 11 52 x.toNat ∧ ieeeIsZero 11 52 y.toNat then 1 else 0
    | .heapPtr p, .heapPtr q =>
      if p = q then 0
      else match heap.object p, heap.object q with
        | .cons car cdr, .cons car' cdr' =>
          oppositeZeros heap fuel car car' + oppositeZeros heap fuel cdr cdr'
        | .vector xs, .vector ys =>
          (List.zipWith (oppositeZeros heap fuel) xs ys).sum
        | _, _ => 0
    | _, _ => 0

/-! ### Mixing is injective -/

/-- The hashes are equal when no difference was met, and different after one. -/
def Agree (differences : ℕ) (x y : UInt64) : Prop := if differences = 0 then x = y else x ≠ y

variable {a b s s' x : UInt64} {j fuel : ℕ}

theorem xor_left_inj {c : UInt64} : a ^^^ c = b ^^^ c ↔ a = b := by
  constructor
  · intro h
    have := congrArg (· ^^^ c) h
    simpa [UInt64.xor_assoc] using this
  · rintro rfl
    rfl

theorem xor_right_inj {c : UInt64} : c ^^^ a = c ^^^ b ↔ a = b := by
  rw [UInt64.xor_comm c a, UInt64.xor_comm c b, xor_left_inj]

theorem mul_fnvPrime_inj : a * fnvPrime = b * fnvPrime ↔ a = b := by
  have hinv : fnvPrime * 14886173955864302971 = 1 := by decide
  constructor
  · intro h
    have := congrArg (· * 14886173955864302971) h
    simpa only [UInt64.mul_assoc, hinv, UInt64.mul_one] using this
  · rintro rfl
    rfl

theorem mix_left_inj : mix s x = mix s' x ↔ s = s' := by
  rw [mix, mix, mul_fnvPrime_inj, xor_left_inj]

theorem mix_right_inj {x' : UInt64} : mix s x = mix s x' ↔ x = x' := by
  rw [mix, mix, mul_fnvPrime_inj, xor_right_inj]

theorem Agree.mix {k : ℕ} {x' : UInt64} (hjk : j + k ≤ 1) (hs : Agree j s s') (hx : Agree k x x') :
    Agree (j + k) (mix s x) (mix s' x') := by
  rw [Agree] at hs hx ⊢
  rcases Nat.eq_zero_or_pos j with rfl | hj
  · rw [if_pos rfl] at hs
    subst hs
    rw [Nat.zero_add]
    split
    next hk =>
      rw [if_pos hk] at hx
      rw [hx]
    next hk =>
      rw [if_neg hk] at hx
      exact mt mix_right_inj.mp hx
  · obtain rfl : k = 0 := by omega
    rw [if_pos rfl] at hx
    subst hx
    rw [Nat.add_zero]
    rw [if_neg hj.ne'] at hs ⊢
    exact mt mix_left_inj.mp hs

/-- Both walks end and agree, or neither ends. -/
def HashesAgree (differences : ℕ) : Option UInt64 → Option UInt64 → Prop
  | some x, some y => Agree differences x y
  | none, none => True
  | none, some _ => False
  | some _, none => False

theorem HashesAgree.refl (o : Option UInt64) : HashesAgree 0 o o := by
  cases o with
  | none => trivial
  | some x => simp [HashesAgree, Agree]

theorem HashesAgree.bind_mix {k : ℕ} {o o' : Option UInt64} {f g : UInt64 → Option UInt64} {l : ℕ}
    (hjk : j + k ≤ 1) (hs : Agree j s s') (ho : HashesAgree k o o')
    (hf : ∀ t t', Agree (j + k) t t' → HashesAgree l (f t) (g t')) :
    HashesAgree l (o.bind fun x => f (mix s x)) (o'.bind fun x => g (mix s' x)) := by
  cases o with
  | none =>
    cases o' with
    | none => trivial
    | some x' => exact absurd ho id
  | some x =>
    cases o' with
    | none => exact absurd ho id
    | some x' => exact hf _ _ (Agree.mix hjk hs ho)

/-! ### Inversion of equality -/

variable {heap : Heap}

/-- What equality of objects at different addresses comes from. -/
inductive ObjectsEqual (heap : Heap) (fuel : ℕ) (p q : UInt64) : Prop
  | string (hp : heap.object p = .string) (hq : heap.object q = .string)
      (h : heap.cString p = heap.cString q)
  | bignum (x : {b : Bignum // b.Normalized}) (hp : heap.object p = .bignum x)
      (hq : heap.object q = .bignum x)
  | cons (car cdr car' cdr' : KeyValue) (hp : heap.object p = .cons car cdr)
      (hq : heap.object q = .cons car' cdr')
      (hcar : hashKeysEqual heap fuel car car' = some true)
      (hcdr : hashKeysEqual heap fuel cdr cdr' = some true)
  | vector (xs ys : List KeyValue) (hp : heap.object p = .vector xs)
      (hq : heap.object q = .vector ys) (hlen : xs.length = ys.length)
      (h : elemsEqual (hashKeysEqual heap fuel) xs ys = some true)

/-- What equality of keys comes from. -/
inductive KeysEqual (heap : Heap) (fuel : ℕ) : KeyValue → KeyValue → Prop
  | refl (a : KeyValue) : KeysEqual heap fuel a a
  | double (x y : UInt64) (h : doubleEqual x y = true) :
      KeysEqual heap fuel (.double x) (.double y)
  | float32 (f r p x f' r' p' y)
      (h : f32Equal (f32ToBits f r p x) (f32ToBits f' r' p' y) = true) :
      KeysEqual heap fuel (.float32 f r p x) (.float32 f' r' p' y)
  | stringPtr (p q : UInt64) (hp : p ≠ 0) (hq : q ≠ 0)
      (h : heap.cString p = heap.cString q) :
      KeysEqual heap fuel (.stringPtr p) (.stringPtr q)
  | heapPtr (p q : UInt64) (hne : p ≠ q) (hp : p ≠ 0) (hq : q ≠ 0)
      (h : ObjectsEqual heap fuel p q) : KeysEqual heap fuel (.heapPtr p) (.heapPtr q)

theorem bignum_eq_of_compare {x y : {b : Bignum // b.Normalized}}
    (h : (eshkolBignumCompare x.1 y.1 == 0) = true) : x = y := by
  rw [beq_iff_eq, eshkolBignumCompare_eq x.2 y.2, Int.sign_eq_zero_iff_zero, sub_eq_zero] at h
  exact Subtype.ext (x.2.eq_of_toInt_eq y.2 h)

theorem objectsEqual_of_eq {p q : UInt64} (hne : p ≠ q) (hp : p ≠ 0) (hq : q ≠ 0)
    (h : hashKeysEqual heap (fuel + 1) (.heapPtr p) (.heapPtr q) = some true) :
    ObjectsEqual heap fuel p q := by
  change (if p = q then some true else if p = 0 ∨ q = 0 then some false else _) = _ at h
  rw [if_neg hne, if_neg (not_or.mpr ⟨hp, hq⟩)] at h
  cases hop : heap.object p with
  | string =>
    cases hoq : heap.object q with
    | string =>
      simp only [hop, hoq, Option.some.injEq, beq_iff_eq] at h
      exact .string hop hoq h
    | bignum _ | cons _ _ | vector _ | other _ => simp [hop, hoq] at h
  | bignum x =>
    cases hoq : heap.object q with
    | bignum y =>
      simp only [hop, hoq, Option.some.injEq] at h
      obtain rfl := bignum_eq_of_compare h
      exact .bignum x hop hoq
    | string | cons _ _ | vector _ | other _ => simp [hop, hoq] at h
  | cons car cdr =>
    cases hoq : heap.object q with
    | cons car' cdr' =>
      simp only [hop, hoq, Option.bind_eq_bind, Option.bind_eq_some_iff] at h
      obtain ⟨same, hcar, h⟩ := h
      cases same with
      | false => simp at h
      | true => exact .cons car cdr car' cdr' hop hoq hcar (by simpa using h)
    | string | bignum _ | vector _ | other _ => simp [hop, hoq] at h
  | vector xs =>
    cases hoq : heap.object q with
    | vector ys =>
      simp only [hop, hoq, ne_eq, ite_not] at h
      split at h
      next hlen => exact .vector xs ys hop hoq hlen h
      next => simp at h
    | string | bignum _ | cons _ _ | other _ => simp [hop, hoq] at h
  | other s => simp [hop] at h

theorem not_keysEqual {o : Option Bool} (hoff : o = some false) (h : o = some true) : False :=
  Bool.false_ne_true (Option.some.inj (hoff.symm.trans h))

/-- What equal keys have in common. -/
theorem keysEqual_of_eq {a b : KeyValue} (h : hashKeysEqual heap (fuel + 1) a b = some true) :
    KeysEqual heap fuel a b := by
  cases a with
  | null =>
    cases b with
    | null => exact .refl _
    | _ => exact (not_keysEqual rfl h).elim
  | int64 x =>
    cases b with
    | int64 y => exact eq_of_beq (Option.some.inj h) ▸ .refl _
    | _ => exact (not_keysEqual rfl h).elim
  | bool x =>
    cases b with
    | bool y => exact eq_of_beq (Option.some.inj h) ▸ .refl _
    | _ => exact (not_keysEqual rfl h).elim
  | char x =>
    cases b with
    | char y => exact eq_of_beq (Option.some.inj h) ▸ .refl _
    | _ => exact (not_keysEqual rfl h).elim
  | symbol p =>
    cases b with
    | symbol q => exact eq_of_beq (Option.some.inj h) ▸ .refl _
    | _ => exact (not_keysEqual rfl h).elim
  | double x =>
    cases b with
    | double y => exact .double x y (Option.some.inj h)
    | _ => exact (not_keysEqual rfl h).elim
  | float32 f r p x =>
    cases b with
    | float32 f' r' p' y => exact .float32 _ _ _ _ _ _ _ _ (Option.some.inj h)
    | _ => exact (not_keysEqual rfl h).elim
  | stringPtr p =>
    cases b with
    | stringPtr q =>
      by_cases hpq : p = q
      · exact hpq ▸ .refl _
      · change (if p = q then some true else if p = 0 ∨ q = 0 then some false else _) = _ at h
        rw [if_neg hpq] at h
        split at h
        next => cases h
        next h0 =>
          obtain ⟨hp, hq⟩ := not_or.mp h0
          exact .stringPtr p q hp hq (eq_of_beq (Option.some.inj h))
    | _ => exact (not_keysEqual rfl h).elim
  | heapPtr p =>
    cases b with
    | heapPtr q =>
      have horig := h
      by_cases hpq : p = q
      · exact hpq ▸ .refl _
      · change (if p = q then some true else if p = 0 ∨ q = 0 then some false else _) = _ at h
        rw [if_neg hpq] at h
        split at h
        next => cases h
        next h0 =>
          obtain ⟨hp, hq⟩ := not_or.mp h0
          exact .heapPtr p q hpq hp hq (objectsEqual_of_eq hpq hp hq horig)
    | _ => exact (not_keysEqual rfl h).elim
  | other s x =>
    cases b with
    | other t y =>
      obtain ⟨hst, hxy⟩ := Bool.and_eq_true_iff.mp (Option.some.inj h)
      exact eq_of_beq hst ▸ eq_of_beq hxy ▸ .refl _
    | _ => exact (not_keysEqual rfl h).elim

/-! ### Floating-point keys -/

theorem eq_zero_or_of_ieeeIsZero (h : ieeeIsZero 11 52 x.toNat = true) :
    x = 0 ∨ x = 9223372036854775808 := by
  rw [ieeeIsZero, decide_eq_true_eq] at h
  have hlt := x.toNat_lt
  have hcases : x.toNat = 0 ∨ x.toNat = 9223372036854775808 := by omega
  rcases hcases with h | h
  · exact Or.inl (UInt64.toNat_inj.mp h)
  · exact Or.inr (UInt64.toNat_inj.mp h)

theorem fnv1aHashU64_ne_of_isZero {y : UInt64} (hne : x ≠ y) (hx : ieeeIsZero 11 52 x.toNat = true)
    (hy : ieeeIsZero 11 52 y.toNat = true) : fnv1aHashU64 x ≠ fnv1aHashU64 y := by
  have hzeros : fnv1aHashU64 0 ≠ fnv1aHashU64 9223372036854775808 := by decide
  rcases eq_zero_or_of_ieeeIsZero hx with rfl | rfl
  · rcases eq_zero_or_of_ieeeIsZero hy with rfl | rfl
    · exact absurd rfl hne
    · exact hzeros
  · rcases eq_zero_or_of_ieeeIsZero hy with rfl | rfl
    · exact hzeros.symm
    · exact absurd rfl hne

theorem and_eq_zero_of_ieeeIsZero {a : UInt32} (h : ieeeIsZero 8 23 a.toNat = true) :
    a &&& 0x7fffffff = 0 := by
  rw [ieeeIsZero, decide_eq_true_eq] at h
  apply UInt32.toNat_inj.mp
  rw [UInt32.toNat_and]
  exact (Nat.and_two_pow_sub_one_eq_mod a.toNat 31).trans h

theorem hashF32_eq {a b : Option UInt32} (h : f32Equal a b = true) : hashF32 a = hashF32 b := by
  cases a with
  | none => cases h
  | some a =>
    cases b with
    | none => cases h
    | some b =>
      rw [f32Equal, f32ToDouble, f32ToDouble, IeeeValue.scale_eq (by positivity)] at h
      rcases eq_or_isZero_of_decode_eq a.toNat_lt b.toNat_lt h with h | ⟨ha, hb⟩
      · rw [UInt32.toNat_inj.mp h]
      · rw [hashF32, hashF32, if_pos (and_eq_zero_of_ieeeIsZero ha),
          if_pos (and_eq_zero_of_ieeeIsZero hb)]

/-! ### Equal keys -/

theorem oppositeZeros_self (fuel : ℕ) (a : KeyValue) : oppositeZeros heap fuel a a = 0 := by
  cases fuel with
  | zero => rfl
  | succ fuel => cases a <;> simp [oppositeZeros]

theorem elems_agree {n : ℕ}
    (ih : ∀ a b, hashKeysEqual heap fuel a b = some true → oppositeZeros heap fuel a b ≤ 1 →
      HashesAgree (oppositeZeros heap fuel a b) (hashTaggedValue heap n a)
        (hashTaggedValue heap n b)) (xs ys : List KeyValue) (hlen : xs.length = ys.length)
    (h : elemsEqual (hashKeysEqual heap fuel) xs ys = some true) (hs : Agree j s s')
    (hone : j + (List.zipWith (oppositeZeros heap fuel) xs ys).sum ≤ 1) :
    HashesAgree (j + (List.zipWith (oppositeZeros heap fuel) xs ys).sum)
      (xs.foldlM (fun hash elem => do
        let helem ← hashTaggedValue heap n elem
        some (mix hash helem)) s)
      (ys.foldlM (fun hash elem => do
        let helem ← hashTaggedValue heap n elem
        some (mix hash helem)) s') := by
  induction xs generalizing ys j s s' with
  | nil =>
    obtain rfl : ys = [] := List.eq_nil_of_length_eq_zero hlen.symm
    exact hs
  | cons x xs ihxs =>
    cases ys with
    | nil => cases hlen
    | cons y ys =>
      rw [elemsEqual, Option.bind_eq_bind, Option.bind_eq_some_iff] at h
      obtain ⟨same, hxy, h⟩ := h
      cases same with
      | false => simp at h
      | true =>
        rw [List.zipWith_cons_cons, List.sum_cons] at hone ⊢
        simp only [List.foldlM_cons, Option.bind_eq_bind, Option.bind_assoc, Option.bind_some]
        refine HashesAgree.bind_mix (f := fun t => xs.foldlM _ t)
          (g := fun t => ys.foldlM _ t) (by omega) hs (ih x y hxy (by omega)) ?_
        intro t t' ht
        rw [← Nat.add_assoc] at hone ⊢
        exact ihxs ys (Nat.succ.inj hlen) (by simpa using h) ht hone

/-- Equal objects with at most one place of opposite zeros have hashes that agree. -/
theorem objects_agree {n : ℕ}
    (ih : ∀ a b, hashKeysEqual heap fuel a b = some true → oppositeZeros heap fuel a b ≤ 1 →
      HashesAgree (oppositeZeros heap fuel a b) (hashTaggedValue heap n a)
        (hashTaggedValue heap n b)) {p q : UInt64} (hne : p ≠ q) (hp : p ≠ 0) (hq : q ≠ 0)
    (h : ObjectsEqual heap fuel p q)
    (hone : oppositeZeros heap (fuel + 1) (.heapPtr p) (.heapPtr q) ≤ 1) :
    HashesAgree (oppositeZeros heap (fuel + 1) (.heapPtr p) (.heapPtr q))
      (hashTaggedValue heap (n + 1) (.heapPtr p)) (hashTaggedValue heap (n + 1) (.heapPtr q)) := by
  have hstart : Agree 0 (mix fnvOffsetBasis (KeyValue.heapPtr p).typeCode.toUInt64)
      (mix fnvOffsetBasis (KeyValue.heapPtr q).typeCode.toUInt64) := by
    simp [Agree, KeyValue.typeCode]
  cases h with
  | string hop hoq h =>
    simp only [oppositeZeros, hashTaggedValue, hne, hp, hq, hop, hoq, h, if_false,
      KeyValue.typeCode]
    exact HashesAgree.refl _
  | bignum x hop hoq =>
    simp only [oppositeZeros, hashTaggedValue, hne, hp, hq, hop, hoq, if_false, KeyValue.typeCode]
    exact HashesAgree.refl _
  | cons car cdr car' cdr' hop hoq hcar hcdr =>
    simp only [oppositeZeros, hne, hop, hoq, if_false] at hone ⊢
    simp only [hashTaggedValue, hp, hq, hop, hoq, if_false, Option.bind_eq_bind]
    refine HashesAgree.bind_mix
      (f := fun t => (hashTaggedValue heap n cdr).bind fun x => some (mix t x))
      (g := fun t => (hashTaggedValue heap n cdr').bind fun x => some (mix t x))
      (by omega) hstart (ih car car' hcar (by omega)) ?_
    intro t t' ht
    rw [Nat.zero_add] at ht
    exact HashesAgree.bind_mix (f := some) (g := some) hone ht (ih cdr cdr' hcdr (by omega))
      fun _ _ h => h
  | vector xs ys hop hoq hlen h =>
    simp only [oppositeZeros, hne, hop, hoq, if_false] at hone ⊢
    simp only [hashTaggedValue, hp, hq, hop, hoq, if_false]
    have := elems_agree ih xs ys hlen h hstart (by omega)
    rwa [Nat.zero_add] at this

theorem hashTaggedValue_agree (fuel : ℕ) (a b : KeyValue)
    (h : hashKeysEqual heap fuel a b = some true) (hone : oppositeZeros heap fuel a b ≤ 1)
    (n : ℕ) :
    HashesAgree (oppositeZeros heap fuel a b) (hashTaggedValue heap n a)
      (hashTaggedValue heap n b) := by
  induction fuel generalizing a b n with
  | zero => cases h
  | succ fuel ih =>
    cases n with
    | zero => trivial
    | succ n =>
      cases keysEqual_of_eq h with
      | refl =>
        rw [oppositeZeros_self]
        exact HashesAgree.refl _
      | double x y heq =>
        rcases eq_or_isZero_of_decode_eq x.toNat_lt y.toNat_lt heq with hxy | ⟨hx, hy⟩
        · rw [UInt64.toNat_inj.mp hxy, oppositeZeros_self]
          exact HashesAgree.refl _
        · by_cases hxy : x = y
          · rw [hxy, oppositeZeros_self]
            exact HashesAgree.refl _
          · simp only [oppositeZeros, hxy, hx, hy, ne_eq, not_false_eq_true, and_self,
              if_true, hashTaggedValue]
            exact mt xor_right_inj.mp (fnv1aHashU64_ne_of_isZero hxy hx hy)
      | float32 f r p x f' r' p' y heq =>
        simp only [oppositeZeros, hashTaggedValue, KeyValue.typeCode, hashF32_eq heq]
        exact HashesAgree.refl _
      | stringPtr p q hp hq heq =>
        simp only [oppositeZeros, hashTaggedValue, KeyValue.typeCode, hp, hq, heq, if_false]
        exact HashesAgree.refl _
      | heapPtr p q hne hp hq hobj =>
        exact objects_agree (fun a b hab hone => ih a b hab hone n) hne hp hq hobj hone

/-- **Hash and equality.** Equal keys without double zeros of opposite sign hash equally,
whatever they are made of. Where at most one position holds such a pair of zeros, as in
every key that is no pair and no vector, that is also necessary. -/
theorem hashKeysEqual_hash_iff {fuel : ℕ} {a b : KeyValue}
    (h : hashKeysEqual heap fuel a b = some true) :
    (oppositeZeros heap fuel a b = 0 → ∀ n, hashTaggedValue heap n a = hashTaggedValue heap n b) ∧
    (oppositeZeros heap fuel a b ≤ 1 → ∀ n hash, hashTaggedValue heap n a = some hash →
      (hashTaggedValue heap n b = some hash ↔ oppositeZeros heap fuel a b = 0)) := by
  have hzero : oppositeZeros heap fuel a b = 0 →
      ∀ n, hashTaggedValue heap n a = hashTaggedValue heap n b := by
    intro h0 n
    have hagree := hashTaggedValue_agree fuel a b h (by omega) n
    rw [h0] at hagree
    cases ha : hashTaggedValue heap n a with
    | none =>
      cases hb : hashTaggedValue heap n b with
      | none => rfl
      | some y => simp [ha, hb, HashesAgree] at hagree
    | some x =>
      cases hb : hashTaggedValue heap n b with
      | none => simp [ha, hb, HashesAgree] at hagree
      | some y =>
        rw [ha, hb] at hagree
        exact congrArg some (by simpa [HashesAgree, Agree] using hagree)
  refine ⟨hzero, fun hone n hash ha => ⟨fun hb => ?_, fun h0 => by rw [← hzero h0 n, ha]⟩⟩
  by_contra hne
  have hagree := hashTaggedValue_agree fuel a b h hone n
  rw [ha, hb, HashesAgree, Agree, if_neg hne] at hagree
  exact hagree rfl

/-- A heap with the text `ab` at the addresses 8 and 16. -/
def twoStrings : Heap where
  object := fun _ => .string
  cString := fun _ => [97, 98]

/-- Two strings of one text have one hash. -/
theorem hashKeysEqual_hash_iff_strings :
    hashKeysEqual twoStrings 1 (.heapPtr 8) (.heapPtr 16) = some true ∧
    hashTaggedValue twoStrings 1 (.heapPtr 8) = hashTaggedValue twoStrings 1 (.heapPtr 16) := by
  have heq : hashKeysEqual twoStrings 1 (.heapPtr 8) (.heapPtr 16) = some true := by decide
  exact ⟨heq, (hashKeysEqual_hash_iff heq).1 (by decide) 1⟩

/-- The doubles `0.0` and `-0.0` are equal keys with different hashes. -/
theorem hashKeysEqual_zeros :
    hashKeysEqual twoStrings 1 (.double 0) (.double 9223372036854775808) = some true ∧
    hashTaggedValue twoStrings 1 (.double 0) ≠
      hashTaggedValue twoStrings 1 (.double 9223372036854775808) := by
  constructor
  · decide
  · decide

end Eshkol
