import Eshkol.Native.Rational

/-!
# Tagged Values

The tagged values the numeric runtime passes around (`eshkol_tagged_value_t`): the numeric
kinds and booleans. Other heap objects are not operands of these functions, and the flag
byte, which none of them reads, is left out.

The inexact half of the runtime is a parameter: `D` is the type of doubles and
`DoubleOps D` the conversions and C library functions on it. Exact results never depend
on it.

An exact number has one canonical tag: an integer in the range of `int64_t` is an
`INT64`, any other integer a bignum, and a fraction with denominator at least two a
rational.
-/

namespace Eshkol

open Machine Ratio

variable {D : Type}

/-- A tagged value. -/
inductive Tagged (D : Type) : Type
  | int64 (v : Int64)
  | double (x : D)
  | float32
  | bignum (b : Bignum)
  | rational (r : Rational)
  | bool (b : Bool)
  deriving DecidableEq

/-- The inexact half of the runtime: conversions to `double` and C library functions. -/
structure DoubleOps (D : Type) : Type where
  /-- `(double)` of an `int64_t`. -/
  ofInt64 : Int64 → D
  /-- `eshkol_bignum_to_double`. -/
  ofBignum : Bignum → D
  /-- `eshkol_rational_to_double`. -/
  ofRational : Rational → D
  /-- `(double)` of the payload word of a heap object, its address. -/
  ofAddress : Tagged D → D
  add : D → D → D
  sub : D → D → D
  mul : D → D → D
  div : D → D → D
  trunc : D → D
  fmod : D → D → D
  pow : D → D → D
  neg : D → D
  zero : D
  inf : D
  nan : D
  isZero : D → Bool
  isNegative : D → Bool
  /-- `strtod`: the value read and the rest of the string. -/
  strtod : List Char → D × List Char

/-- Doubles without information, to run the exact half on its own. -/
def DoubleOps.unit : DoubleOps Unit where
  ofInt64 _ := ()
  ofBignum _ := ()
  ofRational _ := ()
  ofAddress _ := ()
  add _ _ := ()
  sub _ _ := ()
  mul _ _ := ()
  div _ _ := ()
  trunc _ := ()
  fmod _ _ := ()
  pow _ _ := ()
  neg _ := ()
  zero := ()
  inf := ()
  nan := ()
  isZero _ := false
  isNegative _ := false
  strtod s := ((), s)

namespace Tagged

/-- The exact number denoted, if the value is one. -/
def toRat : Tagged D → Option ℚ
  | int64 v => some v.toInt
  | bignum b => some b.toInt
  | rational r => some r.toRat
  | _ => none

/-- The exact integer denoted by an `INT64` or a bignum. -/
def toInt : Tagged D → Option ℤ
  | int64 v => some v.toInt
  | bignum b => some b.toInt
  | _ => none

/-- An exact number: an `INT64`, a bignum or a rational. -/
def Exact : Tagged D → Prop
  | int64 _ | bignum _ | rational _ => True
  | _ => False

/-- The canonical tag: a bignum only outside the range of `int64_t`, a rational only with a
denominator of at least two. Values that are not exact numbers are not constrained. -/
def Canonical : Tagged D → Prop
  | bignum b => b.Normalized ∧ eshkolBignumFitsInt64 b = none
  | rational r => r.Canonical ∧ 2 ≤ r.den
  | _ => True

instance (t : Tagged D) : Decidable t.Canonical :=
  match t with
  | bignum _ => inferInstanceAs (Decidable (_ ∧ _))
  | rational _ => inferInstanceAs (Decidable (_ ∧ _))
  | int64 _ | double _ | float32 | bool _ => inferInstanceAs (Decidable True)

end Tagged

/-! ### Demotion -/

/-- `bignum_to_tagged_int`, and the demotion step of every other integer result: `INT64`
when the value fits. -/
def bignumToTaggedInt (b : Bignum) : Tagged D :=
  match eshkolBignumFitsInt64 b with
  | some v => .int64 v
  | none => .bignum b

theorem bignumToTaggedInt_spec {b : Bignum} (hb : b.Normalized) :
    (bignumToTaggedInt b : Tagged D).Canonical ∧
      (bignumToTaggedInt b : Tagged D).toInt = some b.toInt := by
  unfold bignumToTaggedInt
  split
  next v h => exact ⟨trivial, congrArg some ((eshkolBignumFitsInt64_eq_some_iff hb).mp h)⟩
  next h => exact ⟨⟨hb, h⟩, rfl⟩

/-! ### Results -/

/-- A call that returns a value with a canonical tag, or raises an exception. -/
def CanonicalResult : Exec Exn (Tagged D) → Prop
  | .ok v => v.Canonical
  | .error (.raised _) => True
  | .error _ => False

theorem canonicalResult_demoted {e : Exec Exn Bignum}
    (h : (∃ r, e = .ok r ∧ r.Normalized) ∨ ∃ x, e = .error (.raised x)) :
    CanonicalResult (e >>= fun r => .ok (bignumToTaggedInt r : Tagged D)) := by
  rcases h with ⟨r, rfl, hr⟩ | ⟨x, rfl⟩
  · exact (bignumToTaggedInt_spec hr).1
  · exact trivial

theorem Tagged.canonical_rational_iff {r : Rational} (hr : r.Canonical) {n d : ℤ} (hd : d ≠ 0)
    (h : r.toRat = (n : ℚ) / d) : (Tagged.rational r : Tagged D).Canonical ↔ ¬ d ∣ n := by
  have hlow := hr.lowestTerms
  have hpos := hlow.den_pos
  have hdq : (d : ℚ) ≠ 0 := by exact_mod_cast hd
  have hcross : r.num * d = n * r.den := by
    rw [Rational.toRat, div_eq_div_iff hr.den_ne_zero hdq] at h
    exact_mod_cast h
  constructor
  · rintro ⟨-, h2⟩ ⟨k, rfl⟩
    have hk : r.num = k * r.den := by
      have : d * r.num = d * (k * r.den) := by linarith
      exact mul_left_cancel₀ hd this
    have hone := hlow.coprime
    rw [hk] at hone
    simp at hone
    omega
  · intro hnd
    refine ⟨hr, ?_⟩
    by_contra hlt
    have hone : r.den = 1 := by omega
    rw [hone, mul_one] at hcross
    exact hnd ⟨r.num, by linarith⟩

end Eshkol
