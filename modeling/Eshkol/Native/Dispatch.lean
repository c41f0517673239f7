import Eshkol.Native.Bitwise
import Eshkol.Native.Shift
import Eshkol.Native.Value

/-!
# Tagged Dispatch

The arithmetic entry points the compiled code calls with tagged operands: rational and
bignum arithmetic, `gcd`, `expt` and the bitwise operations (`lib/core/bignum.cpp`,
`lib/core/rational.cpp`). Each brings its operands to one representation, computes, and
demotes its result on a path of its own.

An object read as one of another kind is undefined behaviour, and so is a signed overflow
or a write out of bounds. `CanonicalResult` asks of a call that it returns a value whose tag
is canonical or raises an exception.
-/

namespace Eshkol

open Radix Machine Ratio

variable {D : Type}

def rejectFloat32Arithmetic (operation : String) : Tagged D → Exec Exn Unit
  | .float32 => .error (.raised (.typeError
      (operation ++ ": FLOAT32 arithmetic is unsupported in this runtime phase")))
  | _ => .ok ()

def eshkolIsRationalTagged : Tagged D → Bool
  | .rational _ => true
  | _ => false

/-! ### Rational dispatch -/

def taggedExactToRational : Tagged D → Exec Exn (Option Rational)
  | .int64 v => do
      let r ← eshkolRationalCreate v 1
      .ok (some r)
  | .rational r => .ok (some r)
  | .bignum b => do
      let r ← eshkolRationalCreateBn b (eshkolBignumFromInt64 1)
      .ok (some r)
  | _ => .ok none

def rationalResultToTagged : Rational → Tagged D
  | .big n d => if bnEqualsI64 d 1 then .bignum n else .rational (.big n d)
  | .small n d => if d = 1 then .int64 n else .rational (.small n d)

def taggedAnyToDouble (ops : DoubleOps D) : Tagged D → D
  | .int64 v => ops.ofInt64 v
  | .double x => x
  | .rational r => ops.ofRational r
  | .bignum b => ops.ofBignum b
  | _ => ops.zero

/-- The inexact branch of `eshkol_rational_binary_tagged`. -/
def rationalBinaryDouble (ops : DoubleOps D) (da db : D) (op : ℤ) : D :=
  if op = 0 then ops.add da db
  else if op = 1 then ops.sub da db
  else if op = 2 then ops.mul da db
  else if op = 3 then ops.div da db
  else ops.zero

/-- The exact branch of `eshkol_rational_binary_tagged`. -/
def rationalBinaryExact (ra rb : Rational) (op : ℤ) : Exec Exn Rational :=
  if op = 0 then eshkolRationalAdd ra rb
  else if op = 1 then eshkolRationalSub ra rb
  else if op = 2 then eshkolRationalMul ra rb
  else if op = 3 then eshkolRationalDiv ra rb
  else eshkolRationalCreate 0 1

/-- Whether a tagged value is a double. -/
def isDouble : Tagged D → Bool
  | .double _ => true
  | _ => false

def eshkolRationalBinaryTagged (ops : DoubleOps D) (a b : Tagged D) (op : ℤ) :
    Exec Exn (Tagged D) := do
  rejectFloat32Arithmetic "rational arithmetic" a
  rejectFloat32Arithmetic "rational arithmetic" b
  if isDouble a || isDouble b then
    .ok (.double (rationalBinaryDouble ops (taggedAnyToDouble ops a) (taggedAnyToDouble ops b) op))
  else do
    let ra ← taggedExactToRational a
    let rb ← taggedExactToRational b
    match ra, rb with
    | some ra, some rb => do
        let rr ← rationalBinaryExact ra rb op
        .ok (rationalResultToTagged rr)
    | _, _ => .ok (.int64 0)

def eshkolRationalFromBignumsTagged (num denom : Bignum) : Exec Exn (Tagged D) := do
  let rr ← eshkolRationalCreateBn num denom
  .ok (rationalResultToTagged rr)

/-! ### Bignum dispatch -/

/-- `tagged_to_bignum`. It takes any heap object for a bignum. -/
def taggedToBignum : Tagged D → Exec Exn (Option Bignum)
  | .bignum b => .ok (some b)
  | .rational _ => .error .undefined
  | .int64 v => .ok (some (eshkolBignumFromInt64 v))
  | _ => .ok none

/-- An operand of the inexact branch of `eshkol_bignum_binary_tagged`. -/
def bignumOperandDouble (ops : DoubleOps D) : Tagged D → Exec Exn D
  | .double x => .ok x
  | .bignum b => .ok (ops.ofBignum b)
  | .rational _ => .error .undefined
  | .int64 v => .ok (ops.ofInt64 v)
  | .bool b => .ok (ops.ofInt64 (if b then 1 else 0))
  | .float32 => .ok ops.zero

/-- `modulo`, `quotient` and `remainder` of doubles. -/
def integerDivisionDouble (ops : DoubleOps D) (ld rd : D) (op : ℤ) : Exec Exn D :=
  if ops.isZero rd then .error (.raised (.divideByZero "division by zero"))
  else if op = 5 then .ok (ops.trunc (ops.div ld rd))
  else
    let r := ops.fmod ld rd
    if op = 4 ∧ !ops.isZero r ∧ ops.isNegative r ≠ ops.isNegative rd then .ok (ops.add r rd)
    else .ok r

/-- The inexact branch of `eshkol_bignum_binary_tagged`. -/
def bignumBinaryDouble (ops : DoubleOps D) (ld rd : D) (op : ℤ) : Exec Exn D :=
  if op = 0 then .ok (ops.add ld rd)
  else if op = 1 then .ok (ops.sub ld rd)
  else if op = 2 then .ok (ops.mul ld rd)
  else if op = 3 then .ok (ops.div ld rd)
  else if op = 4 ∨ op = 5 ∨ op = 6 then integerDivisionDouble ops ld rd op
  else .ok ops.zero

/-- The floored remainder of `modulo`. -/
def bignumModulo (a b : Bignum) : Exec Exn Bignum := do
  let m ← eshkolBignumMod a b
  if !eshkolBignumIsZero m && m.sign != b.sign then .ok (eshkolBignumAdd m b) else .ok m

/-- The exact branch of `eshkol_bignum_binary_tagged`. -/
def bignumBinaryExact (a b : Bignum) (op : ℤ) : Exec Exn (Tagged D) :=
  if op = 0 then .ok (bignumToTaggedInt (eshkolBignumAdd a b))
  else if op = 1 then .ok (bignumToTaggedInt (eshkolBignumSub a b))
  else if op = 2 then .ok (bignumToTaggedInt (eshkolBignumMul a b))
  else if op = 3 then
    if eshkolBignumIsZero b then .error (.raised (.divideByZero "bignum division by zero"))
    else eshkolRationalFromBignumsTagged a b
  else if op = 4 then do
    let r ← bignumModulo a b
    .ok (bignumToTaggedInt r)
  else if op = 5 then do
    let r ← eshkolBignumDiv a b
    .ok (bignumToTaggedInt r)
  else if op = 6 then do
    let r ← eshkolBignumMod a b
    .ok (bignumToTaggedInt r)
  else .ok (.int64 0)

/-- A rational operand of `eshkol_bignum_binary_tagged`. Negation is zero minus the left
operand; the integer divisions answer zero. -/
def bignumBinaryRational (ops : DoubleOps D) (left right : Tagged D) (op : ℤ) :
    Exec Exn (Tagged D) :=
  if 0 ≤ op ∧ op ≤ 3 then eshkolRationalBinaryTagged ops left right op
  else if op = 7 then eshkolRationalBinaryTagged ops (.int64 0) left 1
  else .ok (.int64 0)

/-- Negation in `eshkol_bignum_binary_tagged`, which does not demote. -/
def bignumNegTagged (left : Tagged D) : Exec Exn (Tagged D) := do
  let a ← taggedToBignum left
  match a with
  | none => .ok (.int64 0)
  | some a => .ok (.bignum (eshkolBignumNeg a))

/-- The check of the right operand, which negation skips. -/
def rejectRightFloat32 (operation : String) (right : Tagged D) (skip : Bool) : Exec Exn Unit :=
  if skip then .ok () else rejectFloat32Arithmetic operation right

def eshkolBignumBinaryTagged (ops : DoubleOps D) (left right : Tagged D) (op : ℤ) :
    Exec Exn (Tagged D) := do
  rejectFloat32Arithmetic "bignum arithmetic" left
  rejectRightFloat32 "bignum arithmetic" right (op = 7)
  if eshkolIsRationalTagged left || eshkolIsRationalTagged right then
    bignumBinaryRational ops left right op
  else if op = 7 then bignumNegTagged left
  else if isDouble left || isDouble right then do
    let ld ← bignumOperandDouble ops left
    let rd ← bignumOperandDouble ops right
    let r ← bignumBinaryDouble ops ld rd op
    .ok (.double r)
  else do
    let a ← taggedToBignum left
    let b ← taggedToBignum right
    match a, b with
    | some a, some b => bignumBinaryExact a b op
    | _, _ => .ok (.int64 0)

/-- `eshkol_gcd_tagged`. Its loop is `bn_gcd`'s. -/
def eshkolGcdTagged (left right : Tagged D) : Exec Exn (Tagged D) := do
  rejectFloat32Arithmetic "gcd" left
  rejectFloat32Arithmetic "gcd" right
  let a ← taggedToBignum left
  let b ← taggedToBignum right
  match a, b with
  | some a, some b => do
      let g ← bnGcd a b
      .ok (bignumToTaggedInt g)
  | _, _ => .ok (.int64 0)

/-! ### Exponentiation -/

/-- The squaring loop of `eshkol_bignum_pow`. The exponent has 64 bits, so 65 passes
suffice. -/
def powLoop : ℕ → Bignum → Bignum → ℕ → Exec Exn Bignum
  | 0, _, _, _ => .error .diverges
  | fuel + 1, result, b, e =>
    if e = 0 then .ok result
    else
      let result := if e % 2 = 1 then eshkolBignumMul result b else result
      let e := e / 2
      let b := if 0 < e then eshkolBignumMul b b else b
      powLoop fuel result b e

def eshkolBignumPow (base : Bignum) (exp : ℕ) : Exec Exn Bignum :=
  if exp = 0 then .ok (eshkolBignumFromInt64 1)
  else if exp = 1 then .ok (eshkolBignumMul base (eshkolBignumFromInt64 1))
  else powLoop 65 (eshkolBignumFromInt64 1) (eshkolBignumMul base (eshkolBignumFromInt64 1)) exp

/-- The exact integer bases of `eshkol_bignum_pow_tagged`, as bignums. -/
def exactBase : Tagged D → Option Bignum
  | .int64 v => some (eshkolBignumFromInt64 v)
  | .bignum b => some b
  | _ => none

/-- The exponent in double precision. A heap object is read as a number, address and all. -/
def exponentDouble (ops : DoubleOps D) : Tagged D → D
  | .double x => x
  | .int64 v => ops.ofInt64 v
  | .bool b => ops.ofInt64 (if b then 1 else 0)
  | .float32 => ops.zero
  | t => ops.ofAddress t

/-- The inexact fallback of `eshkol_bignum_pow_tagged`. It takes any heap object for a
bignum. -/
def powDouble (ops : DoubleOps D) (base exponent : Tagged D) : Exec Exn (Tagged D) := do
  let bd ← bignumOperandDouble ops base
  .ok (.double (ops.pow bd (exponentDouble ops exponent)))

/-- A negative exponent: the reciprocal of the power when that fits `int64_t`. -/
def powNegative (ops : DoubleOps D) (base exponent : Tagged D) (bnBase : Bignum) (mag : ℕ) :
    Exec Exn (Tagged D) := do
  let p ← eshkolBignumPow bnBase mag
  match eshkolBignumFitsInt64 p with
  | some denom =>
    if denom = 0 then
      .error (.raised (.divideByZero "expt: 0 raised to a negative power"))
    else do
      let rat ← eshkolRationalCreate 1 denom
      .ok (.rational rat)
  | none => powDouble ops base exponent

def eshkolBignumPowTagged (ops : DoubleOps D) (base exponent : Tagged D) :
    Exec Exn (Tagged D) := do
  rejectFloat32Arithmetic "expt" base
  rejectFloat32Arithmetic "expt" exponent
  match exactBase base, exponent with
  | some bnBase, .int64 e =>
    if 0 ≤ e.toInt then do
      let r ← eshkolBignumPow bnBase e.toInt.toNat
      .ok (bignumToTaggedInt r)
    else powNegative ops base exponent bnBase (-e.toInt % 2 ^ 64).toNat
  | _, _ => powDouble ops base exponent

/-! ### Bitwise dispatch -/

def bignumPopcount64 (v : BitVec 64) : ℕ :=
  let v := v - (v >>> 1 &&& 0x5555555555555555)
  let v := (v &&& 0x3333333333333333) + (v >>> 2 &&& 0x3333333333333333)
  let v := (v + v >>> 4) &&& 0x0F0F0F0F0F0F0F0F
  ((v * 0x0101010101010101) >>> 56).toNat

/-- The limbs of `|a| - 1`, as the count of a negative number visits them. -/
def decrementLimbs : List (BitVec 64) → List (BitVec 64)
  | [] => []
  | limb :: rest =>
    if limb = 0 then BitVec.allOnes 64 :: decrementLimbs rest else (limb - 1) :: rest

/-- `eshkol_bignum_popcount`. The count is far from the range of its `int64_t`. -/
def eshkolBignumPopcount (a : Bignum) : Int64 :=
  if !a.sign then Int64.ofNat (a.limbs.map bignumPopcount64).sum
  else Int64.ofInt (-1 - ((decrementLimbs a.limbs).map bignumPopcount64).sum)

/-- The operand conversion of `eshkol_bignum_bitwise_tagged`. -/
def toBignum : Tagged D → Option Bignum
  | .bignum b => some b
  | .int64 v => some (eshkolBignumFromInt64 v)
  | _ => none

/-- A binary bitwise operation on two operands, if both are integers. -/
def bitwiseBinary (f : Bignum → Bignum → Bignum) (a : Option Bignum) (right : Tagged D) :
    Option Bignum :=
  match a, toBignum right with
  | some a, some b => some (f a b)
  | _, _ => none

/-- The shift count, zero unless it is an `INT64`. -/
def shiftCount : Tagged D → Int64
  | .int64 k => k
  | _ => 0

/-- The switch of `eshkol_bignum_bitwise_tagged`. -/
def bitwiseResult (a : Option Bignum) (right : Tagged D) (op : ℤ) : Exec Exn (Option Bignum) :=
  if op = 0 then .ok (bitwiseBinary eshkolBignumBitwiseAnd a right)
  else if op = 1 then .ok (bitwiseBinary eshkolBignumBitwiseOr a right)
  else if op = 2 then .ok (bitwiseBinary eshkolBignumBitwiseXor a right)
  else if op = 3 then .ok (a.map eshkolBignumBitwiseNot)
  else if op = 4 then
    match a with
    | some a => eshkolBignumShift a (shiftCount right)
    | none => .ok none
  else if op = 5 then .ok (a.map fun a => eshkolBignumFromInt64 (eshkolBignumPopcount a))
  else .ok none

def eshkolBignumBitwiseTagged (left right : Tagged D) (op : ℤ) : Exec Exn (Tagged D) := do
  rejectFloat32Arithmetic "bitwise operation" left
  rejectRightFloat32 "bitwise operation" right (op = 3 ∨ op = 5)
  let res ← bitwiseResult (toBignum left) right op
  match res with
  | some r => .ok (bignumToTaggedInt r)
  | none => .ok (.int64 0)

/-! ### Operands -/

/-- An `INT64`, a normalized bignum or a canonical rational of value `q`. The bignum may fit
`int64_t`, and the rational may be an integer. -/
def Tagged.IsExact : Tagged D → ℚ → Prop
  | int64 v, q => (v.toInt : ℚ) = q
  | bignum b, q => b.Normalized ∧ (b.toInt : ℚ) = q
  | rational r, q => r.Canonical ∧ r.toRat = q
  | _, _ => False

theorem Tagged.IsExact.toRational {t : Tagged D} {q : ℚ} (h : t.IsExact q) :
    ∃ r, taggedExactToRational t = .ok (some r) ∧ r.Canonical ∧ r.toRat = q := by
  have hone : (1 : Int64).toInt = 1 := rfl
  cases t with
  | int64 v =>
    have hyields : Yields (eshkolRationalCreate v 1) _ := eshkolRationalCreate_spec (by decide)
    obtain ⟨r, hr, hcan, hval⟩ := hyields
    refine ⟨r, by rw [taggedExactToRational, hr, ok_bind], hcan, ?_⟩
    rw [hval, hone, Int.cast_one, div_one]
    exact h
  | bignum b =>
    obtain ⟨r, hr, hcan, hval⟩ := eshkolRationalCreateBn_spec h.1
      (eshkolBignumFromInt64_normalized 1) (by rw [toInt_eshkolBignumFromInt64]; decide)
    refine ⟨r, by rw [taggedExactToRational, hr, ok_bind], hcan, ?_⟩
    rw [hval, toInt_eshkolBignumFromInt64, hone, Int.cast_one, div_one]
    exact h.2
  | rational r => exact ⟨r, rfl, h.1, h.2⟩
  | double _ | float32 | bool _ => exact False.elim h

/-- An exact number with its canonical tag. -/
structure Operand (t : Tagged D) : Prop where
  exact : t.Exact
  canonical : t.Canonical

theorem Operand.cases {t : Tagged D} (h : Operand t) :
    (∃ b : Bignum, b.Normalized ∧ t.toInt = some b.toInt ∧ taggedToBignum t = .ok (some b) ∧
        exactBase t = some b ∧ toBignum t = some b ∧ eshkolIsRationalTagged t = false) ∨
      ∃ r, t = .rational r := by
  cases t with
  | int64 v =>
    exact Or.inl ⟨eshkolBignumFromInt64 v, eshkolBignumFromInt64_normalized v,
      congrArg some (toInt_eshkolBignumFromInt64 v).symm, rfl, rfl, rfl, rfl⟩
  | bignum b => exact Or.inl ⟨b, h.canonical.1, rfl, rfl, rfl, rfl, rfl⟩
  | rational r => exact Or.inr ⟨r, rfl⟩
  | double x => exact absurd h.exact id
  | float32 => exact absurd h.exact id
  | bool b => exact absurd h.exact id

section

variable {t : Tagged D} (h : Operand t)
include h

theorem Operand.isExact : ∃ q, t.toRat = some q ∧ t.IsExact q := by
  cases t with
  | int64 v => exact ⟨_, rfl, rfl⟩
  | bignum b => exact ⟨_, rfl, h.canonical.1, rfl⟩
  | rational r => exact ⟨_, rfl, h.canonical.1, rfl⟩
  | double _ | float32 | bool _ => exact absurd h.exact id

theorem Operand.accepted (operation : String) : rejectFloat32Arithmetic operation t = .ok () := by
  cases t with
  | float32 => exact absurd h.exact id
  | int64 _ | double _ | bignum _ | rational _ | bool _ => rfl

theorem Operand.isDouble_eq_false : isDouble t = false := by
  cases t with
  | double _ => exact absurd h.exact id
  | int64 _ | float32 | bignum _ | rational _ | bool _ => rfl

theorem Operand.accepted_right (operation : String) (skip : Bool) :
    rejectRightFloat32 operation t skip = .ok () := by
  cases skip with
  | true => rfl
  | false => exact h.accepted operation

theorem Operand.toRational :
    ∃ r, taggedExactToRational t = .ok (some r) ∧ r.Canonical ∧ t.toRat = some r.toRat := by
  obtain ⟨q, hq, hex⟩ := h.isExact
  obtain ⟨r, hr, hcan, hval⟩ := hex.toRational
  exact ⟨r, hr, hcan, by rw [hq, hval]⟩

end

/-! ### Canonical results -/

section

variable {a b : Tagged D}

theorem rationalResultToTagged_canonical {r : Rational} (hr : r.Canonical) :
    (rationalResultToTagged r : Tagged D).Canonical := by
  have hpos := hr.lowestTerms.den_pos
  cases r with
  | small n d =>
    rw [rationalResultToTagged]
    split
    next h => exact trivial
    next h =>
        have hne : d.toInt ≠ 1 := fun he => h (Int64.toInt_inj.mp he)
        refine ⟨hr, ?_⟩
        simp only [Rational.den] at hpos ⊢
        omega
  | big n d =>
    rw [rationalResultToTagged]
    have hone : bnEqualsI64 d 1 = true ↔ d.toInt = 1 := by
      rw [bnEqualsI64, decide_eq_true_eq, eshkolBignumFitsInt64_eq_some_iff hr.2.1]
      exact eq_comm
    split
    next h =>
        refine ⟨hr.1, hr.2.2.2.resolve_right ?_⟩
        rw [bnEqualsI64, decide_eq_true_eq] at h
        simp [h]
    next h =>
        have hne : d.toInt ≠ 1 := fun he => h (hone.mpr he)
        refine ⟨hr, ?_⟩
        simp only [Rational.den] at hpos ⊢
        omega

theorem rationalBinaryExact_spec {ra rb : Rational} (ha : ra.Canonical) (hb : rb.Canonical)
    (op : ℤ) :
    (∃ r, rationalBinaryExact ra rb op = .ok r ∧ r.Canonical) ∨
      ∃ x, rationalBinaryExact ra rb op = .error (.raised x) := by
  have hof : ∀ {e : Exec Exn Rational} {x : ℚ}, Yields e x →
      (∃ r, e = .ok r ∧ r.Canonical) ∨ ∃ x, e = .error (.raised x) := by
    rintro e x ⟨r, hr, hcan, -⟩
    exact Or.inl ⟨r, hr, hcan⟩
  unfold rationalBinaryExact
  split_ifs with h0 h1 h2 h3
  · exact hof (eshkolRationalAdd_spec ha hb)
  · exact hof (eshkolRationalSub_spec ha hb)
  · exact hof (eshkolRationalMul_spec ha hb)
  · by_cases hz : bZero rb = true
    · exact Or.inr ⟨_, by rw [eshkolRationalDiv, if_pos hz]⟩
    · rw [bZero_iff hb] at hz
      exact hof (eshkolRationalDiv_spec ha hb ((toRat_ne_zero_iff hb).mpr hz))
  · exact hof (eshkolRationalCreate_spec (by decide))

theorem eshkolRationalBinaryTagged_canonical (ops : DoubleOps D) (ha : Operand a)
    (hb : Operand b) (op : ℤ) : CanonicalResult (eshkolRationalBinaryTagged ops a b op) := by
  obtain ⟨ra, hra, hcana, -⟩ := ha.toRational
  obtain ⟨rb, hrb, hcanb, -⟩ := hb.toRational
  have hexact : eshkolRationalBinaryTagged ops a b op
      = rationalBinaryExact ra rb op >>= fun rr => .ok (rationalResultToTagged rr) := by
    simp only [eshkolRationalBinaryTagged, ha.accepted, hb.accepted, ha.isDouble_eq_false,
      hb.isDouble_eq_false, Bool.or_self, Bool.false_eq_true, if_false, ok_bind, hra, hrb]
  rw [hexact]
  rcases rationalBinaryExact_spec hcana hcanb op with ⟨r, hr, hcan⟩ | ⟨x, hx⟩
  · rw [hr]
    exact rationalResultToTagged_canonical hcan
  · rw [hx]
    exact trivial

variable {x y : Bignum}

theorem eshkolBignumDiv_returns_or_raises (hx : x.Normalized) (hy : y.Normalized) :
    ((∃ r, eshkolBignumDiv x y = .ok r ∧ r.Normalized) ∨
        ∃ e, eshkolBignumDiv x y = .error (.raised e)) ∧
      ((∃ r, eshkolBignumMod x y = .ok r ∧ r.Normalized) ∨
        ∃ e, eshkolBignumMod x y = .error (.raised e)) := by
  by_cases hz : y.toInt = 0
  · have hz' := (eshkolBignumIsZero_iff hy).mpr hz
    exact ⟨Or.inr ⟨_, by rw [eshkolBignumDiv, if_pos hz']⟩,
      Or.inr ⟨_, by rw [eshkolBignumMod, if_pos hz']⟩⟩
  · obtain ⟨q, hq, hqn, -⟩ := eshkolBignumDiv_eq hx hy hz
    obtain ⟨r, hr, hrn, -⟩ := eshkolBignumMod_eq hx hy hz
    exact ⟨Or.inl ⟨q, hq, hqn⟩, Or.inl ⟨r, hr, hrn⟩⟩

theorem bignumModulo_returns_or_raises (hx : x.Normalized) (hy : y.Normalized) :
    (∃ r, bignumModulo x y = .ok r ∧ r.Normalized) ∨
      ∃ e, bignumModulo x y = .error (.raised e) := by
  rcases (eshkolBignumDiv_returns_or_raises hx hy).2 with ⟨m, hm, hmn⟩ | ⟨e, he⟩
  · rw [bignumModulo, hm, ok_bind]
    split
    · exact Or.inl ⟨_, rfl, eshkolBignumAdd_normalized hmn hy⟩
    · exact Or.inl ⟨_, rfl, hmn⟩
  · exact Or.inr ⟨e, by rw [bignumModulo, he, error_bind]⟩

theorem bignumBinaryExact_canonical (hx : x.Normalized) (hy : y.Normalized) (op : ℤ) :
    CanonicalResult (bignumBinaryExact x y op : Exec Exn (Tagged D)) := by
  have hdiv := eshkolBignumDiv_returns_or_raises hx hy
  have hquotient (hz : ¬ eshkolBignumIsZero y = true) :
      CanonicalResult (eshkolRationalFromBignumsTagged x y : Exec Exn (Tagged D)) := by
    rw [eshkolBignumIsZero_iff hy] at hz
    obtain ⟨r, hr, hcan, -⟩ := eshkolRationalCreateBn_spec hx hy hz
    rw [eshkolRationalFromBignumsTagged, hr]
    exact rationalResultToTagged_canonical hcan
  unfold bignumBinaryExact
  -- one operation after the other; the last branch is no operation
  refine iteInduction (fun _ => ?_) fun _ => iteInduction (fun _ => ?_) fun _ =>
    iteInduction (fun _ => ?_) fun _ => iteInduction (fun _ => ?_) fun _ =>
    iteInduction (fun _ => ?_) fun _ => iteInduction (fun _ => ?_) fun _ =>
    iteInduction (fun _ => ?_) fun _ => trivial
  · exact (bignumToTaggedInt_spec (eshkolBignumAdd_normalized hx hy)).1
  · exact (bignumToTaggedInt_spec (eshkolBignumSub_normalized hx hy)).1
  · exact (bignumToTaggedInt_spec (eshkolBignumMul_normalized x y)).1
  · exact iteInduction (fun _ => trivial) hquotient
  · exact canonicalResult_demoted (bignumModulo_returns_or_raises hx hy)
  · exact canonicalResult_demoted hdiv.1
  · exact canonicalResult_demoted hdiv.2

theorem bignumBinaryRational_canonical (ops : DoubleOps D) (ha : Operand a) (hb : Operand b)
    (op : ℤ) : CanonicalResult (bignumBinaryRational ops a b op) := by
  unfold bignumBinaryRational
  split_ifs with h h7
  · exact eshkolRationalBinaryTagged_canonical ops ha hb op
  · have hzero : Operand (.int64 0 : Tagged D) := ⟨trivial, trivial⟩
    exact eshkolRationalBinaryTagged_canonical ops hzero ha 1
  · exact trivial

theorem bignumNegTagged_iff (hx : x.Normalized) (ha : taggedToBignum a = .ok (some x)) :
    CanonicalResult (bignumNegTagged a) ↔ ¬ (-2 ^ 63 ≤ -x.toInt ∧ -x.toInt < 2 ^ 63) := by
  have hneg := eshkolBignumNeg_normalized hx
  rw [bignumNegTagged, ha, ok_bind]
  change (eshkolBignumNeg x).Normalized ∧ eshkolBignumFitsInt64 (eshkolBignumNeg x) = none ↔ _
  rw [and_iff_right hneg, eshkolBignumFitsInt64_eq_none_iff hneg, toInt_eshkolBignumNeg hx]
  omega

/-- **Bignum dispatch.** Only negation fails to demote: of an integer whose negative fits
`int64_t`, unless the ignored right operand is a rational. -/
theorem eshkolBignumBinaryTagged_iff (ops : DoubleOps D) (ha : Operand a) (hb : Operand b)
    (op : ℤ) :
    CanonicalResult (eshkolBignumBinaryTagged ops a b op) ↔
      ¬ (op = 7 ∧ eshkolIsRationalTagged b = false ∧
        ∃ x, a.toInt = some x ∧ -2 ^ 63 ≤ -x ∧ -x < 2 ^ 63) := by
  simp only [eshkolBignumBinaryTagged, ha.accepted, hb.accepted_right, ha.isDouble_eq_false,
    hb.isDouble_eq_false, Bool.or_self, Bool.false_eq_true, if_false, ok_bind]
  rcases ha.cases with ⟨x, hx, hax, hxa, -, -, hra⟩ | ⟨r, rfl⟩
  · rcases hb.cases with ⟨y, hy, -, hyb, -, -, hrb⟩ | ⟨r, rfl⟩
    · simp only [hra, hrb, Bool.or_self, Bool.false_eq_true, if_false, hxa, hyb, ok_bind]
      by_cases h7 : op = 7
      · rw [if_pos h7, bignumNegTagged_iff hx hxa]
        constructor
        · rintro h ⟨-, -, z, hz, hrange⟩
          rw [hax] at hz
          cases hz
          exact h hrange
        · exact fun h hrange => h ⟨h7, trivial, x.toInt, hax, hrange⟩
      · rw [if_neg h7]
        exact iff_of_true (bignumBinaryExact_canonical hx hy op) fun h => h7 h.1
    · rw [if_pos (by simp [eshkolIsRationalTagged])]
      exact iff_of_true (bignumBinaryRational_canonical ops ha hb op)
        fun h => Bool.noConfusion h.2.1
  · rw [if_pos (by simp [eshkolIsRationalTagged])]
    refine iff_of_true (bignumBinaryRational_canonical ops ha hb op) ?_
    rintro ⟨-, -, z, hz, -⟩
    cases hz

theorem eshkolGcdTagged_iff (ha : Operand a) (hb : Operand b) :
    CanonicalResult (eshkolGcdTagged a b) ↔
      eshkolIsRationalTagged a = false ∧ eshkolIsRationalTagged b = false := by
  simp only [eshkolGcdTagged, ha.accepted, hb.accepted, ok_bind]
  rcases ha.cases with ⟨x, hx, -, hxa, -, -, hra⟩ | ⟨r, rfl⟩
  · rcases hb.cases with ⟨y, hy, -, hyb, -, -, hrb⟩ | ⟨r, rfl⟩
    · simp only [hxa, hyb, ok_bind]
      obtain ⟨g, hg, hgn, -⟩ := bnGcd_spec hx hy
      exact iff_of_true (canonicalResult_demoted (Or.inl ⟨g, hg, hgn⟩)) ⟨hra, hrb⟩
    · rw [hxa]
      exact iff_of_false id fun h => Bool.noConfusion h.2
  · exact iff_of_false id fun h => Bool.noConfusion h.1

/-- One pass of a squaring loop keeps the result times the power of the base. The last square
is left out, before a power of zero. -/
theorem squaring_pass (r b : ℤ) (e : ℕ) :
    (if e % 2 = 1 then r * b else r) * (if 0 < e / 2 then b * b else b) ^ (e / 2) = r * b ^ e := by
  have hsq : (if 0 < e / 2 then b * b else b) ^ (e / 2) = b ^ (2 * (e / 2)) := by
    split
    next h => rw [pow_mul, pow_two]
    next h => rw [show e / 2 = 0 by omega, pow_zero]
  conv_rhs => rw [← Nat.div_add_mod e 2]
  rw [hsq]
  split
  next hodd => rw [hodd, pow_succ', mul_assoc]
  next heven => rw [show e % 2 = 0 by omega, add_zero]

theorem powLoop_spec {fuel e : ℕ} (he : e < 2 ^ fuel) (hx : x.Normalized) (hy : y.Normalized) :
    ∃ r, powLoop (fuel + 1) x y e = .ok r ∧ r.Normalized ∧ r.toInt = x.toInt * y.toInt ^ e := by
  induction fuel generalizing e x y with
  | zero =>
    obtain rfl : e = 0 := by omega
    exact ⟨x, rfl, hx, by simp⟩
  | succ fuel ih =>
    rw [powLoop]
    by_cases h0 : e = 0
    · rw [if_pos h0]
      exact ⟨x, rfl, hx, by simp [h0]⟩
    · rw [if_neg h0]
      set x' := if e % 2 = 1 then eshkolBignumMul x y else x with hx'
      set y' := if 0 < e / 2 then eshkolBignumMul y y else y with hy'
      have hxn : x'.Normalized := by
        rw [hx']
        split
        · exact eshkolBignumMul_normalized x y
        · exact hx
      have hyn : y'.Normalized := by
        rw [hy']
        split
        · exact eshkolBignumMul_normalized y y
        · exact hy
      obtain ⟨r, hr, hrn, hval⟩ := ih (by omega : e / 2 < 2 ^ fuel) hxn hyn
      refine ⟨r, hr, hrn, ?_⟩
      rw [hval, hx', hy', apply_ite Bignum.toInt, apply_ite Bignum.toInt,
        toInt_eshkolBignumMul, toInt_eshkolBignumMul]
      exact squaring_pass x.toInt y.toInt e

theorem eshkolBignumPow_spec {e : ℕ} (he : e < 2 ^ 64) :
    ∃ r, eshkolBignumPow x e = .ok r ∧ r.Normalized ∧ r.toInt = x.toInt ^ e := by
  have hone := eshkolBignumFromInt64_normalized 1
  have hone' : (eshkolBignumFromInt64 1).toInt = 1 := toInt_eshkolBignumFromInt64 1
  have hcopy : (eshkolBignumMul x (eshkolBignumFromInt64 1)).toInt = x.toInt := by
    rw [toInt_eshkolBignumMul, hone', mul_one]
  unfold eshkolBignumPow
  split_ifs with h0 h1
  · exact ⟨_, rfl, hone, by rw [h0, pow_zero, hone']⟩
  · exact ⟨_, rfl, eshkolBignumMul_normalized _ _, by rw [h1, pow_one, hcopy]⟩
  · obtain ⟨r, hr, hrn, hval⟩ := powLoop_spec he hone (eshkolBignumMul_normalized x _)
    exact ⟨r, hr, hrn, by rw [hval, hone', one_mul, hcopy]⟩

theorem powDouble_canonical (ops : DoubleOps D) (hra : eshkolIsRationalTagged a = false)
    (b : Tagged D) : CanonicalResult (powDouble ops a b) := by
  cases a with
  | rational r => exact Bool.noConfusion hra
  | int64 _ | double _ | float32 | bignum _ | bool _ => exact trivial

theorem powNegative_reciprocal (ops : DoubleOps D) (a b : Tagged D) {mag : ℕ} (hmag : mag < 2 ^ 64)
    (hx0 : x.toInt ≠ 0) (hfit : -2 ^ 63 ≤ x.toInt ^ mag ∧ x.toInt ^ mag < 2 ^ 63) :
    ∃ r, powNegative ops a b x mag = .ok (.rational r) ∧ r.Canonical ∧
      r.toRat = ((1 : ℤ) : ℚ) / (x.toInt ^ mag : ℤ) := by
  obtain ⟨p, hp, hpn, hpval⟩ := eshkolBignumPow_spec (x := x) hmag
  have hsome : eshkolBignumFitsInt64 p ≠ none := by
    rw [ne_eq, eshkolBignumFitsInt64_eq_none_iff hpn, hpval]
    omega
  obtain ⟨denom, hdenom⟩ := Option.ne_none_iff_exists'.mp hsome
  have hden : denom.toInt = x.toInt ^ mag :=
    ((eshkolBignumFitsInt64_eq_some_iff hpn).mp hdenom).trans hpval
  have hden0 : denom.toInt ≠ 0 := hden ▸ pow_ne_zero mag hx0
  have hyields : Yields (eshkolRationalCreate 1 denom) _ := eshkolRationalCreate_spec hden0
  obtain ⟨r, hr, hcan, hval⟩ := hyields
  refine ⟨r, ?_, hcan, ?_⟩
  · have hne : denom ≠ 0 := fun h => hden0 (h ▸ rfl)
    rw [powNegative, hp, ok_bind, hdenom]
    simp only [if_neg hne, hr, ok_bind]
  · rw [hval, hden]
    rfl

theorem powNegative_iff (ops : DoubleOps D) (hra : eshkolIsRationalTagged a = false) (b : Tagged D)
    {mag : ℕ} (hmag : mag < 2 ^ 64) (hmag0 : mag ≠ 0) :
    CanonicalResult (powNegative ops a b x mag) ↔ ¬ (x.toInt = 1 ∨ x.toInt = -1) := by
  obtain ⟨p, hp, hpn, hpval⟩ := eshkolBignumPow_spec (x := x) hmag
  by_cases hfit : -2 ^ 63 ≤ x.toInt ^ mag ∧ x.toInt ^ mag < 2 ^ 63
  · by_cases hx0 : x.toInt = 0
    · refine iff_of_true ?_ (by omega)
      have hdenom : eshkolBignumFitsInt64 p = some 0 := by
        rw [eshkolBignumFitsInt64_eq_some_iff hpn, hpval, hx0, zero_pow hmag0]
        rfl
      rw [powNegative, hp, ok_bind, hdenom]
      exact trivial
    · obtain ⟨r, hr, hcan, hval⟩ := powNegative_reciprocal ops a b hmag hx0 hfit
      rw [hr]
      change (Tagged.rational r : Tagged D).Canonical ↔ _
      rw [Tagged.canonical_rational_iff hcan (pow_ne_zero mag hx0) hval]
      -- A power divides one exactly when its base is a unit.
      rw [← isUnit_iff_dvd_one, isUnit_pow_iff hmag0, Int.isUnit_iff]
  · have hnone : eshkolBignumFitsInt64 p = none := by
      rw [eshkolBignumFitsInt64_eq_none_iff hpn, hpval]
      omega
    rw [powNegative, hp, ok_bind, hnone]
    refine iff_of_true (powDouble_canonical ops hra b) fun h => hfit ?_
    rcases h with h | h
    · rw [h, one_pow]
      omega
    · rw [h]
      rcases neg_one_pow_eq_or ℤ mag with h1 | h1
      · rw [h1]
        omega
      · rw [h1]
        omega

theorem eshkolBignumPowTagged_iff (ops : DoubleOps D) (ha : Operand a) (hb : Operand b) :
    CanonicalResult (eshkolBignumPowTagged ops a b) ↔
      eshkolIsRationalTagged a = false ∧
        ¬ ((a.toInt = some 1 ∨ a.toInt = some (-1)) ∧ ∃ e : Int64, b = .int64 e ∧ e.toInt < 0) := by
  simp only [eshkolBignumPowTagged, ha.accepted, hb.accepted, ok_bind]
  rcases ha.cases with ⟨x, hx, hax, -, hxa, -, hra⟩ | ⟨r, rfl⟩
  · rw [hxa, hax]
    cases b with
    | int64 e =>
      simp only
      split
      next he =>
          have hlt := e.toInt_lt
          obtain ⟨r, hr, hrn, -⟩ := eshkolBignumPow_spec (x := x)
            (by omega : e.toInt.toNat < 2 ^ 64)
          refine iff_of_true (canonicalResult_demoted (Or.inl ⟨r, hr, hrn⟩)) ⟨hra, ?_⟩
          rintro ⟨-, e', he', hneg⟩
          cases he'
          omega
      next he =>
          have hlo := e.le_toInt
          rw [powNegative_iff ops hra _ (by omega) (by omega)]
          simp only [Option.some.injEq]
          constructor
          · exact fun h => ⟨hra, fun h' => h h'.1⟩
          · exact fun h h' => h.2 ⟨h', e, rfl, by omega⟩
    | bignum y =>
      refine iff_of_true (powDouble_canonical ops hra _) ⟨hra, ?_⟩
      rintro ⟨-, e, he, -⟩
      cases he
    | rational y =>
      refine iff_of_true (powDouble_canonical ops hra _) ⟨hra, ?_⟩
      rintro ⟨-, e, he, -⟩
      cases he
    | double y => exact absurd hb.exact id
    | float32 => exact absurd hb.exact id
    | bool y => exact absurd hb.exact id
  · exact iff_of_false id fun h => Bool.noConfusion h.1

/-- A bignum operand is an object, so its payload fits. -/
def Tagged.PayloadFits : Tagged D → Prop
  | .bignum b => payloadFits b.numLimbs = true
  | _ => True

theorem toBignum_payloadFits (hobj : a.PayloadFits) (h : toBignum a = some x) :
    payloadFits x.numLimbs = true := by
  cases a with
  | bignum y =>
    cases h
    exact hobj
  | int64 v =>
    cases h
    rw [eshkolBignumFromInt64]
    split <;> exact rfl
  | double _ | float32 | rational _ | bool _ => cases h

theorem bitwiseBinary_normalized {f : Bignum → Bignum → Bignum}
    (hf : ∀ x y : Bignum, x.Normalized → y.Normalized → (f x y).Normalized) (hx : x.Normalized)
    (hb : Operand b) : ∀ r, bitwiseBinary f (some x) b = some r → r.Normalized := by
  rcases hb.cases with ⟨y, hy, -, -, -, hyb, -⟩ | ⟨y, rfl⟩
  · rintro r hr
    simp only [bitwiseBinary, hyb, Option.some.injEq] at hr
    subst hr
    exact hf x y hx hy
  · rintro r ⟨⟩

theorem bitwiseResult_spec (hx : x.Normalized) (hfit : payloadFits x.numLimbs = true)
    (hb : Operand b) {op : ℤ} (hop : op = 4 → ShiftDefined x (shiftCount b)) :
    ∃ out, bitwiseResult (some x) b op = .ok out ∧ ∀ r, out = some r → r.Normalized := by
  unfold bitwiseResult
  split_ifs with h0 h1 h2 h3 h4 h5
  · exact ⟨_, rfl, bitwiseBinary_normalized (fun x y hx hy =>
      (bitwiseWords_spec (fun x y i _ => BitVec.getLsbD_and) hx hy).1) hx hb⟩
  · exact ⟨_, rfl, bitwiseBinary_normalized (fun x y hx hy =>
      (bitwiseWords_spec (fun x y i _ => BitVec.getLsbD_or) hx hy).1) hx hb⟩
  · exact ⟨_, rfl, bitwiseBinary_normalized (fun x y hx hy =>
      (bitwiseWords_spec (fun x y i _ => BitVec.getLsbD_xor) hx hy).1) hx hb⟩
  · refine ⟨_, rfl, ?_⟩
    rintro r ⟨rfl⟩
    exact (eshkolBignumBitwiseNot_spec hx).1
  · exact eshkolBignumShift_normalized hx hfit (hop h4)
  · refine ⟨_, rfl, ?_⟩
    rintro r ⟨rfl⟩
    exact eshkolBignumFromInt64_normalized _
  · exact ⟨none, rfl, by simp⟩

theorem eshkolBignumBitwiseTagged_iff (ha : Operand a) (hb : Operand b) (hobj : a.PayloadFits)
    (op : ℤ) :
    CanonicalResult (eshkolBignumBitwiseTagged a b op) ↔
      (op = 4 → ∀ x, toBignum a = some x → ShiftDefined x (shiftCount b)) := by
  simp only [eshkolBignumBitwiseTagged, ha.accepted, hb.accepted_right, ok_bind]
  rcases ha.cases with ⟨x, hx, -, -, -, hxa, -⟩ | ⟨r, rfl⟩
  · have hfit := toBignum_payloadFits hobj hxa
    rw [hxa]
    by_cases hop : op = 4 → ShiftDefined x (shiftCount b)
    · obtain ⟨out, hout, hnorm⟩ := bitwiseResult_spec hx hfit hb hop
      rw [hout, ok_bind]
      refine iff_of_true ?_ ?_
      · cases out with
        | none => exact trivial
        | some r => exact (bignumToTaggedInt_spec (hnorm r rfl)).1
      · rintro h4 y ⟨rfl⟩
        exact hop h4
    · obtain ⟨h4, hund⟩ := Classical.not_imp.mp hop
      have hres : bitwiseResult (some x) b op = .error .undefined := by
        rw [bitwiseResult, if_neg (by omega), if_neg (by omega), if_neg (by omega),
          if_neg (by omega), if_pos h4]
        exact eshkolBignumShift_undefined hx hfit hund
      rw [hres]
      exact iff_of_false id fun h => hund (h h4 x rfl)
  · have hnone : ∃ out, bitwiseResult none b op = .ok out ∧ out = none := by
      unfold bitwiseResult
      split_ifs <;> exact ⟨_, rfl, rfl⟩
    obtain ⟨out, hout, rfl⟩ := hnone
    have htob : toBignum (.rational r : Tagged D) = none := rfl
    rw [htob, hout]
    refine iff_of_true trivial ?_
    rintro - y ⟨⟩

end

end Eshkol
