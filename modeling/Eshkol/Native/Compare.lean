import Eshkol.Native.Dispatch
import Eshkol.Native.Logic

/-!
# Comparison of Tagged Numbers

`eshkol_bignum_compare_tagged` (`lib/core/bignum.cpp`) and `eshkol_rational_compare_tagged_ptr`
(`lib/core/rational.cpp`), which the compiled code calls for `<`, `>`, `=`, `<=` and `>=`. Integers
are compared as they come, an `INT64` beside a bignum without a copy; as soon as one operand is a
rational both are promoted, and fractions are compared by their cross products.

Two pairs of `int64_t` are multiplied in 128 bits. An overflow would be undefined, so a comparison
that returns has not overflowed.
-/

namespace Eshkol

open Machine Ratio

variable {D : Type}

/-! ### The comparison functions -/

/-- The comparisons of doubles. -/
structure DoubleOrder (D : Type) : Type where
  lt : D → D → Bool
  eq : D → D → Bool

/-- Doubles without information are all equal. -/
def DoubleOrder.unit : DoubleOrder Unit where
  lt _ _ := false
  eq _ _ := true

/-- The switch over `op` on a three-way result. -/
def compareOp (cmp op : ℤ) : Bool :=
  if op = 0 then cmp < 0
  else if op = 1 then cmp > 0
  else if op = 2 then cmp = 0
  else if op = 3 then cmp ≤ 0
  else if op = 4 then cmp ≥ 0
  else false

/-- The switch over `op` on two doubles. -/
def compareDoubles (ord : DoubleOrder D) (x y : D) (op : ℤ) : Bool :=
  if op = 0 then ord.lt x y
  else if op = 1 then ord.lt y x
  else if op = 2 then ord.eq x y
  else if op = 3 then ord.lt x y || ord.eq x y
  else if op = 4 then ord.lt y x || ord.eq x y
  else false

def eshkolRationalCompare (ra rb : Rational) : Exec Exn ℤ :=
  match ra, rb with
  | .small an ad, .small bn bd => do
      let lhs ← signed 128 (an.toInt * bd.toInt)
      let rhs ← signed 128 (bn.toInt * ad.toInt)
      .ok (if lhs < rhs then -1 else if lhs > rhs then 1 else 0)
  | _, _ =>
    .ok (eshkolBignumCompare (eshkolBignumMul (ratNumBn ra) (ratDenBn rb))
      (eshkolBignumMul (ratNumBn rb) (ratDenBn ra)))

def eshkolRationalCompareTaggedPtr (ops : DoubleOps D) (ord : DoubleOrder D) (a b : Tagged D)
    (op : ℤ) : Exec Exn (Tagged D) := do
  rejectFloat32Arithmetic "rational comparison" a
  rejectFloat32Arithmetic "rational comparison" b
  if isDouble a || isDouble b then
    .ok (.bool (compareDoubles ord (taggedAnyToDouble ops a) (taggedAnyToDouble ops b) op))
  else do
    let ra ← taggedExactToRational a
    let rb ← taggedExactToRational b
    match ra, rb with
    | some ra, some rb => do
        let cmp ← eshkolRationalCompare ra rb
        .ok (.bool (compareOp cmp op))
    | _, _ => .ok (.bool false)

/-- `data.int_val` of a value that is no heap object and no double. -/
def intVal : Tagged D → Int64
  | .int64 v => v
  | .bool b => if b then 1 else 0
  | _ => 0

/-- The three-way comparison of `eshkol_bignum_compare_tagged`, where a heap object is a
bignum. -/
def compareIntegers : Tagged D → Tagged D → ℤ
  | .bignum x, .bignum y => eshkolBignumCompare x y
  | .bignum x, right => eshkolBignumCompareInt64 x (intVal right)
  | left, .bignum y => -eshkolBignumCompareInt64 y (intVal left)
  | left, right =>
    (if intVal left > intVal right then 1 else 0) - (if intVal left < intVal right then 1 else 0)

def eshkolBignumCompareTagged (ops : DoubleOps D) (ord : DoubleOrder D) (left right : Tagged D)
    (op : ℤ) : Exec Exn (Tagged D) := do
  rejectFloat32Arithmetic "bignum comparison" left
  rejectFloat32Arithmetic "bignum comparison" right
  if eshkolIsRationalTagged left || eshkolIsRationalTagged right then
    eshkolRationalCompareTaggedPtr ops ord left right op
  else if isDouble left || isDouble right then do
    let ld ← bignumOperandDouble ops left
    let rd ← bignumOperandDouble ops right
    .ok (.bool (compareDoubles ord ld rd op))
  else .ok (.bool (compareOp (compareIntegers left right) op))

/-! ### The sign of the difference -/

theorem eshkolRationalCompare_eq {a b : Rational} (ha : a.Canonical) (hb : b.Canonical) :
    eshkolRationalCompare a b = .ok (SignType.sign (a.toRat - b.toRat) : ℤ) := by
  rw [Rational.toRat, Rational.toRat,
    ← sign_cross_mul ha.lowestTerms.den_pos hb.lowestTerms.den_pos]
  have hbig : eshkolBignumCompare (eshkolBignumMul (ratNumBn a) (ratDenBn b))
      (eshkolBignumMul (ratNumBn b) (ratDenBn a))
      = Int.sign (a.num * b.den - b.num * a.den) := by
    rw [eshkolBignumCompare_eq (eshkolBignumMul_normalized _ _) (eshkolBignumMul_normalized _ _),
      toInt_eshkolBignumMul, toInt_eshkolBignumMul, (ratNumBn_spec ha).2, (ratDenBn_spec ha).2,
      (ratNumBn_spec hb).2, (ratDenBn_spec hb).2]
  cases a with
  | big n d => exact congrArg Except.ok hbig
  | small an ad =>
    cases b with
    | big n d => exact congrArg Except.ok hbig
    | small bn bd =>
      obtain ⟨hlo, hhi⟩ := mul_int64_bounds an bd
      obtain ⟨hlo', hhi'⟩ := mul_int64_bounds bn ad
      rw [eshkolRationalCompare, signed_128_eq_ok (by omega) (by omega), ok_bind,
        signed_128_eq_ok (by omega) (by omega), ok_bind]
      exact congrArg Except.ok (threeWay_eq_sign _ _)

section

variable {left right : Tagged D} {p q : ℚ}

theorem Tagged.IsExact.accepted {t : Tagged D} (h : t.IsExact q) :
    (∀ operation, rejectFloat32Arithmetic operation t = .ok ()) ∧ isDouble t = false := by
  cases t with
  | int64 _ | bignum _ | rational _ => exact ⟨fun _ => rfl, rfl⟩
  | double _ | float32 | bool _ => exact False.elim h

theorem compareIntegers_eq (hl : left.IsExact p) (hr : right.IsExact q)
    (hlr : eshkolIsRationalTagged left = false) (hrr : eshkolIsRationalTagged right = false) :
    compareIntegers left right = (SignType.sign (p - q) : ℤ) := by
  have hsign (x y : ℤ) : Int.sign (x - y) = (SignType.sign ((x : ℚ) - y) : ℤ) := by
    have hcross : Int.sign (x * 1 - y * 1) =
        (SignType.sign ((x : ℚ) / (1 : ℤ) - y / (1 : ℤ)) : ℤ) :=
      sign_cross_mul zero_lt_one zero_lt_one
    simpa using hcross
  have hneg (x y : ℤ) : -Int.sign (x - y) = Int.sign (y - x) := by rw [← Int.sign_neg, neg_sub]
  cases left with
  | int64 v =>
    cases hl
    cases right with
    | int64 w =>
      cases hr
      change (if v > w then 1 else 0) - (if v < w then 1 else 0) = _
      rw [← hsign, ← threeWay_eq_sign]
      simp only [gt_iff_lt, Int64.lt_iff_toInt_lt]
      split <;> split <;> omega
    | bignum y =>
      obtain ⟨hy, rfl⟩ := hr
      change -eshkolBignumCompareInt64 y v = _
      rw [← hsign, eshkolBignumCompareInt64_eq hy, hneg]
    | rational _ => exact Bool.noConfusion hrr
    | double _ | float32 | bool _ => exact False.elim hr
  | bignum x =>
    obtain ⟨hx, rfl⟩ := hl
    cases right with
    | int64 w =>
      cases hr
      change eshkolBignumCompareInt64 x w = _
      rw [← hsign, eshkolBignumCompareInt64_eq hx]
    | bignum y =>
      obtain ⟨hy, rfl⟩ := hr
      rw [← hsign, compareIntegers, eshkolBignumCompare_eq hx hy]
    | rational _ => exact Bool.noConfusion hrr
    | double _ | float32 | bool _ => exact False.elim hr
  | rational _ => exact Bool.noConfusion hlr
  | double _ | float32 | bool _ => exact False.elim hl

variable (ops : DoubleOps D) (ord : DoubleOrder D) (hl : left.IsExact p) (hr : right.IsExact q)
include hl hr

theorem eshkolRationalCompareTaggedPtr_eq (op : ℤ) :
    eshkolRationalCompareTaggedPtr ops ord left right op
      = .ok (.bool (compareOp (SignType.sign (p - q)) op)) := by
  obtain ⟨hla, hld⟩ := hl.accepted
  obtain ⟨hra, hrd⟩ := hr.accepted
  obtain ⟨x, hx, hxc, rfl⟩ := hl.toRational
  obtain ⟨y, hy, hyc, rfl⟩ := hr.toRational
  simp only [eshkolRationalCompareTaggedPtr, hla, hra, hld, hrd, Bool.or_self, Bool.false_eq_true,
    if_false, ok_bind, hx, hy, eshkolRationalCompare_eq hxc hyc]

theorem eshkolBignumCompareTagged_eq (op : ℤ) :
    eshkolBignumCompareTagged ops ord left right op
      = .ok (.bool (compareOp (SignType.sign (p - q)) op)) := by
  obtain ⟨hla, hld⟩ := hl.accepted
  obtain ⟨hra, hrd⟩ := hr.accepted
  simp only [eshkolBignumCompareTagged, hla, hra, hld, hrd, Bool.or_self, Bool.false_eq_true,
    if_false, ok_bind]
  by_cases h : (eshkolIsRationalTagged left || eshkolIsRationalTagged right) = true
  · rw [if_pos h]
    exact eshkolRationalCompareTaggedPtr_eq ops ord hl hr op
  · rw [if_neg h]
    simp only [Bool.or_eq_true, not_or, Bool.not_eq_true] at h
    rw [compareIntegers_eq hl hr h.1 h.2]

end

end Eshkol
