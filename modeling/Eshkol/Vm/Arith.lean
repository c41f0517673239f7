import Eshkol.Vm.Value

/-!
# VM Arithmetic Opcodes

`OP_ADD`, `OP_SUB`, `OP_MUL`, `OP_DIV`, `OP_MOD` and `OP_NEG` (`lib/backend/vm_run.c`) on exact
numbers, with `vm_bignum_arith` and the rational natives 331 to 335 (`lib/backend/vm_native.c`)
they are dispatched to. The interpreter has two loops, one of computed jumps and one of a
`switch` for other compilers; the tape of automatic differentiation, which only the first one
keeps, is left out. An allocation that fails is left out too.

Fixnums have a fast path each, and what it does in 64 bits has to be checked first. Two opcodes
do not: `OP_MOD` takes the C remainder of the least `int64_t` by `-1`, and `OP_DIV` of two
fixnums negates the divisor in `int64_t`.
-/

namespace Eshkol.Vm

open Machine Ratio VmRational

/-! ### Definitions -/

/-- `vm_push_bignum_norm`: `NULL` is an error of the VM. -/
def pushBignum : Option VmBignum → Option ExactVal := Option.map vmPushBignumNorm

/-- `vm_push_rational_norm`: `NULL` is an error of the VM. -/
def pushRational : Option VmRational → Option ExactVal := Option.map vmPushRationalNorm

/-- The adjustment of `'m'` in `vm_bignum_arith`: a remainder of the wrong sign is moved by one
divisor. -/
def bignumModulo (r b : VmBignum) : VmBignum :=
  if !bignumIsZero r && bignumSign r != bignumSign b then bignumAdd r b else r

/-- `vm_bignum_arith` on exact operands, with the value it pushes. -/
def vmBignumArith (a b : ExactVal) (op : Char) : Exec Empty (Option ExactVal) :=
  let ab := vmCoerceBignum a
  let bb := vmCoerceBignum b
  if op = '+' then .ok (pushBignum (bignumAdd ab bb))
  else if op = '-' then .ok (pushBignum (bignumSub ab bb))
  else if op = '*' then .ok (pushBignum (bignumMul ab bb))
  else if op = 'q' then
    if bignumIsZero bb then .ok none else do
      let r ← bignumDiv ab bb
      .ok (pushBignum r)
  else if op = 'r' then
    if bignumIsZero bb then .ok none else do
      let r ← bignumMod ab bb
      .ok (pushBignum r)
  else if op = '/' then
    if bignumIsZero bb then .ok none else do
      let rem ← bignumMod ab bb
      if bignumIsZero rem then
        let r ← bignumDiv ab bb
        .ok (pushBignum r)
      else
        let r ← vmRationalAllocBn ab bb
        .ok (pushRational r)
  else if op = 'm' then
    if bignumIsZero bb then .ok none else do
      let r ← bignumMod ab bb
      .ok (pushBignum (bignumModulo r bb))
  else .ok none

/-- The natives 331 to 334 on exact operands: `'+'`, `'-'`, `'*'` and `'/'` over rationals. -/
def rationalNative (a b : ExactVal) (op : Char) : Exec Empty (Option ExactVal) :=
  let ar := vmCoerceRational a
  let br := vmCoerceRational b
  if op = '/' ∧ numIsZero br then .ok none
  else do
    let r ← vmRationalArithExact ar br op
    .ok (pushRational r)

namespace ExactVal

/-- `type == VAL_RATIONAL`. -/
def isRational : ExactVal → Bool
  | rational _ => true
  | _ => false

/-- `type == VAL_BIGNUM`. -/
def isBignum : ExactVal → Bool
  | bignum _ => true
  | _ => false

end ExactVal

def vmEitherBignum (a b : ExactVal) : Bool := a.isBignum || b.isBignum

/-- `__builtin_add_overflow` and its like: the result, if it fits. -/
def checked (x : ℤ) : Option Int64 :=
  if -2 ^ 63 ≤ x ∧ x < 2 ^ 63 then some (Int64.ofInt x) else none

/-- `OP_ADD`, `OP_SUB` and `OP_MUL` of two exact operands; both loops have the same text. -/
def opArith (op : Char) (f : ℤ → ℤ → ℤ) (a b : ExactVal) : Exec Empty (Option ExactVal) :=
  if a.isRational || b.isRational then rationalNative a b op
  else if vmEitherBignum a b then vmBignumArith a b op
  else match a, b with
    | .int i, .int j =>
      match checked (f i.toInt j.toInt) with
      | some r => .ok (some (.int r))
      | none => vmBignumArith a b op
    | _, _ => .ok none

/-- `lbl_ADD` and `case OP_ADD`. -/
def opAdd : ExactVal → ExactVal → Exec Empty (Option ExactVal) := opArith '+' (· + ·)

/-- `lbl_SUB` and `case OP_SUB`. -/
def opSub : ExactVal → ExactVal → Exec Empty (Option ExactVal) := opArith '-' (· - ·)

/-- `lbl_MUL` and `case OP_MUL`. -/
def opMul : ExactVal → ExactVal → Exec Empty (Option ExactVal) := opArith '*' (· * ·)

/-- `lbl_DIV` and `case OP_DIV`. Two fixnums go to the rational native. -/
def opDiv (a b : ExactVal) : Exec Empty (Option ExactVal) :=
  if a.isRational || b.isRational then rationalNative a b '/'
  else match a, b with
    | .int _, .int j => if j = 0 then .ok none else rationalNative a b '/'
    | _, _ => vmBignumArith a b '/'

/-- The remainder of two fixnums in `OP_MOD`. -/
def modInt64 (i j : Int64) : Exec Empty Int64 := do
  let r ← signedRem 64 i.toInt j.toInt
  if r ≠ 0 ∧ (r < 0 ↔ ¬ j.toInt < 0) then int64 (r + j.toInt) else int64 r

/-- `lbl_MOD` and `case OP_MOD`. Without a bignum, a rational operand goes to `fmod`, whose
result is no exact number; it is not modelled. -/
def opMod (a b : ExactVal) : Exec Empty (Option ExactVal) :=
  if vmEitherBignum a b then vmBignumArith a b 'm'
  else match a, b with
    | .int i, .int j =>
      if j = 0 then .ok none else do
        let r ← modInt64 i j
        .ok (some (.int r))
    | _, _ => .ok none

/-- Native 335 on a rational. -/
def rationalNegNative (r : VmRational) : Exec Empty (Option ExactVal) := do
  let res ← vmRationalNegExact r
  .ok (pushRational res)

def lblNeg : ExactVal → Exec Empty (Option ExactVal)
  | .rational r => rationalNegNative r
  | .bignum b => .ok (pushBignum (bignumNeg b))
  | .int i =>
    if i = Int64.minValue then .ok (pushBignum (bignumNeg (bignumFromInt64 i)))
    else do
      let r ← int64 (-i.toInt)
      .ok (some (.int r))

/-- `case OP_NEG`. -/
def caseNeg : ExactVal → Exec Empty (Option ExactVal)
  | .rational r => rationalNegNative r
  | .bignum b => .ok (pushBignum (bignumNeg b))
  | .int i =>
    if i ≠ Int64.minValue then do
      let r ← int64 (-i.toInt)
      .ok (some (.int r))
    else .ok (pushBignum (bignumNeg (bignumFromInt64 i)))

/-- The two loops of the interpreter. -/
inductive DispatchLoop : Type
  | threaded
  | switch

/-- `OP_NEG` in either loop. -/
def opNeg : DispatchLoop → ExactVal → Exec Empty (Option ExactVal)
  | .threaded => lblNeg
  | .switch => caseNeg

/-- The arithmetic opcodes. -/
inductive ArithCode : Type
  | add
  | sub
  | mul
  | div
  | mod
  | neg

/-- A two-operand opcode: `b` is on top of `a`. An empty stack is an error. -/
def binary (f : ExactVal → ExactVal → Exec Empty (Option ExactVal)) :
    List ExactVal → Exec Empty (Option (List ExactVal))
  | b :: a :: rest => do
      let r ← f a b
      .ok (r.map (· :: rest))
  | _ => .ok none

/-- A one-operand opcode. -/
def unary (f : ExactVal → Exec Empty (Option ExactVal)) :
    List ExactVal → Exec Empty (Option (List ExactVal))
  | a :: rest => do
      let r ← f a
      .ok (r.map (· :: rest))
  | _ => .ok none

/-- One instruction on the stack, top first; `none` is `vm->error`. -/
def execArith (loop : DispatchLoop) :
    ArithCode → List ExactVal → Exec Empty (Option (List ExactVal))
  | .add => binary opAdd
  | .sub => binary opSub
  | .mul => binary opMul
  | .div => binary opDiv
  | .mod => binary opMod
  | .neg => unary (opNeg loop)

/-! ### Results -/

/-- A fixnum or a normalized bignum of value `x`. The bignum may fit `int64_t`. -/
def ExactVal.HoldsInteger : ExactVal → ℤ → Prop
  | int i, x => i.toInt = x
  | bignum b, x => b.Normalized ∧ b.toInt = x
  | rational _, _ => False

/-- The canonical exact number `q` is returned. -/
def ReturnsExact (e : Exec Empty (Option ExactVal)) (q : ℚ) : Prop :=
  ∃ v, e = .ok (some v) ∧ v.Canonical ∧ v.toRat = q

/-- The canonical exact number `q` is pushed on `rest`. -/
def PushesExact (e : Exec Empty (Option (List ExactVal))) (rest : List ExactVal) (q : ℚ) : Prop :=
  ∃ v, e = .ok (some (v :: rest)) ∧ v.Canonical ∧ v.toRat = q

theorem map_cons_eq_some {e : Exec Empty (Option ExactVal)} {rest : List ExactVal} {v : ExactVal} :
    (do
      let r ← e
      .ok (r.map (· :: rest)) : Exec Empty (Option (List ExactVal))) = .ok (some (v :: rest)) ↔
      e = .ok (some v) := by
  rcases e with _ | _ | u <;> simp

section

variable {e : Exec Empty (Option ExactVal)} {f : ExactVal → ExactVal → Exec Empty (Option ExactVal)}
  {g : ExactVal → Exec Empty (Option ExactVal)} {a b : ExactVal} {rest : List ExactVal} {q : ℚ}

theorem pushesExact_binary :
    PushesExact (binary f (b :: a :: rest)) rest q ↔ ReturnsExact (f a b) q := by
  simp only [PushesExact, ReturnsExact, binary, map_cons_eq_some]

theorem pushesExact_unary : PushesExact (unary g (a :: rest)) rest q ↔ ReturnsExact (g a) q := by
  simp only [PushesExact, ReturnsExact, unary, map_cons_eq_some]

end

theorem returnsExact_bignum {b : VmBignum} {q : ℚ} (hb : b.Normalized) (hq : (b.toInt : ℚ) = q) :
    ReturnsExact (.ok (pushBignum b)) q := by
  obtain ⟨hcan, hval⟩ := vmPushBignumNorm_spec hb
  exact ⟨_, rfl, hcan, hval.trans hq⟩

theorem returnsExact_rational {e : Exec Empty (Option VmRational)} {q : ℚ} (h : Yields e q) :
    ReturnsExact (do
      let r ← e
      .ok (pushRational r)) q := by
  obtain ⟨r, rfl, hcan, hval⟩ := h
  obtain ⟨hcan', hval'⟩ := vmPushRationalNorm_spec hcan
  exact ⟨_, rfl, hcan', hval'.trans hval⟩

theorem returnsExact_int {i : Int64} {q : ℚ} (h : (i.toInt : ℚ) = q) :
    ReturnsExact (.ok (some (.int i))) q :=
  ⟨_, rfl, trivial, h⟩

/-! ### Over bignums -/

theorem fmod_of_tmod (x y : ℤ) :
    (if x.tmod y ≠ 0 ∧ (x.tmod y < 0 ↔ ¬ y < 0) then x.tmod y + y else x.tmod y) = x.fmod y := by
  have hdvd : y ∣ x ↔ x.tmod y = 0 := Int.dvd_iff_tmod_eq_zero
  have hneg : x < 0 → x.tmod y ≤ 0 := fun hx => by
    have := Int.tmod_nonneg y (a := -x) (by omega)
    rw [Int.neg_tmod] at this
    omega
  have hpos : 0 ≤ x → 0 ≤ x.tmod y := Int.tmod_nonneg y
  rw [Int.fmod_eq_tmod]
  simp only [hdvd]
  generalize x.tmod y = r at hneg hpos
  by_cases hr : r = 0
  · simp [hr]
  · rw [if_neg hr]
    by_cases hx : 0 ≤ x
    · rw [if_pos hx]
      have hr0 := hpos hx
      by_cases hy0 : 0 ≤ y
      · rw [if_pos hy0, if_neg (by omega)]
        omega
      · rw [if_neg hy0, if_pos (by omega)]
    · rw [if_neg hx]
      have hr0 := hneg (by omega)
      by_cases hy0 : 0 ≤ y
      · rw [if_pos hy0, if_pos (by omega)]
        omega
      · rw [if_neg hy0, if_neg (by omega)]
        omega

theorem bignumModulo_spec {r b : VmBignum} (hr : r.Normalized) (hb : b.Normalized)
    (hb0 : b.toInt ≠ 0) :
    (bignumModulo r b).Normalized ∧ (bignumModulo r b).toInt =
      if r.toInt ≠ 0 ∧ (r.toInt < 0 ↔ ¬ b.toInt < 0) then r.toInt + b.toInt else r.toInt := by
  obtain ⟨hn, hv⟩ := bignumAdd_spec hr hb
  have hcond : (!bignumIsZero r && bignumSign r != bignumSign b) = true ↔
      r.toInt ≠ 0 ∧ (r.toInt < 0 ↔ ¬ b.toInt < 0) := by
    rw [Bool.and_eq_true, Bool.not_eq_true', ← Bool.not_eq_true, bignumIsZero_iff hr,
      bne_iff_ne, bignumSign_eq hr, bignumSign_eq hb]
    refine and_congr_right fun hr0 => ?_
    rcases lt_or_gt_of_ne hr0 with hneg | hpos <;> rcases lt_or_gt_of_ne hb0 with hneg' | hpos'
    all_goals simp [*, sign_neg, sign_pos, not_lt_of_gt]
  rw [bignumModulo]
  by_cases h : r.toInt ≠ 0 ∧ (r.toInt < 0 ↔ ¬ b.toInt < 0)
  · rw [if_pos (hcond.mpr h), if_pos h]
    exact ⟨hn, hv⟩
  · rw [if_neg (mt hcond.mp h), if_neg h]
    exact ⟨hr, rfl⟩

section

variable {a b : ExactVal} {x y : ℤ}

theorem vmCoerceBignum_integer (ha : a.HoldsInteger x) :
    (vmCoerceBignum a).Normalized ∧ (vmCoerceBignum a).toInt = x := by
  cases a with
  | int i =>
    obtain ⟨hn, hv⟩ := bignumFromInt64_spec i
    exact ⟨hn, hv.trans ha⟩
  | bignum b => exact ha
  | rational r => exact ha.elim

variable (ha : a.HoldsInteger x) (hb : b.HoldsInteger y)
include ha hb

theorem vmBignumArith_add : ReturnsExact (vmBignumArith a b '+') ((x + y : ℤ) : ℚ) := by
  obtain ⟨han, hav⟩ := vmCoerceBignum_integer ha
  obtain ⟨hbn, hbv⟩ := vmCoerceBignum_integer hb
  obtain ⟨hn, hv⟩ := bignumAdd_spec han hbn
  exact returnsExact_bignum hn (by rw [hv, hav, hbv])

theorem vmBignumArith_sub : ReturnsExact (vmBignumArith a b '-') ((x - y : ℤ) : ℚ) := by
  obtain ⟨han, hav⟩ := vmCoerceBignum_integer ha
  obtain ⟨hbn, hbv⟩ := vmCoerceBignum_integer hb
  obtain ⟨hn, hv⟩ := bignumSub_spec han hbn
  exact returnsExact_bignum hn (by rw [hv, hav, hbv])

theorem vmBignumArith_mul : ReturnsExact (vmBignumArith a b '*') ((x * y : ℤ) : ℚ) := by
  obtain ⟨han, hav⟩ := vmCoerceBignum_integer ha
  obtain ⟨hbn, hbv⟩ := vmCoerceBignum_integer hb
  obtain ⟨hn, hv⟩ := bignumMul_spec han hbn
  exact returnsExact_bignum hn (by rw [hv, hav, hbv])

variable (hy : y ≠ 0)
include hy

theorem vmBignumArith_div : ReturnsExact (vmBignumArith a b '/') ((x : ℚ) / y) := by
  obtain ⟨han, hav⟩ := vmCoerceBignum_integer ha
  obtain ⟨hbn, hbv⟩ := vmCoerceBignum_integer hb
  have hb0 : (vmCoerceBignum b).toInt ≠ 0 := by rwa [hbv]
  obtain ⟨r, hr, hrn, hrv⟩ := bignumMod_spec han hbn hb0
  obtain ⟨q, hq, hqn, hqv⟩ := bignumDiv_spec han hbn hb0
  have hstep : vmBignumArith a b '/' =
      if bignumIsZero r then .ok (pushBignum (some q))
      else vmRationalAllocBn (vmCoerceBignum a) (vmCoerceBignum b) >>= fun r =>
        .ok (pushRational r) := by
    simp [vmBignumArith, bignumIsZero_iff hbn, hb0, hr, hq]
  rw [hstep]
  rw [hav, hbv] at hrv hqv
  split
  next hz =>
      have hdvd : y ∣ x := Int.dvd_iff_tmod_eq_zero.mpr (hrv.symm.trans ((bignumIsZero_iff hrn).mp hz))
      refine returnsExact_bignum hqn ?_
      rw [hqv, ← Int.cast_div hdvd (by exact_mod_cast hy), Int.tdiv_eq_ediv_of_dvd hdvd]
  next hz =>
      exact returnsExact_rational (vmRationalAllocBn_spec han hbn hb0 (by rw [hav, hbv]))

theorem vmBignumArith_mod : ReturnsExact (vmBignumArith a b 'm') (x.fmod y : ℤ) := by
  obtain ⟨han, hav⟩ := vmCoerceBignum_integer ha
  obtain ⟨hbn, hbv⟩ := vmCoerceBignum_integer hb
  have hb0 : (vmCoerceBignum b).toInt ≠ 0 := by rwa [hbv]
  obtain ⟨r, hr, hrn, hrv⟩ := bignumMod_spec han hbn hb0
  have hstep : vmBignumArith a b 'm' = .ok (pushBignum (bignumModulo r (vmCoerceBignum b))) := by
    simp [vmBignumArith, bignumIsZero_iff hbn, hb0, hr]
  rw [hav, hbv] at hrv
  rw [hstep, ← fmod_of_tmod x y, ← hrv]
  obtain ⟨hmn, hmv⟩ := bignumModulo_spec hrn hbn hb0
  rw [hbv] at hmv
  exact returnsExact_bignum hmn (by rw [hmv])

end

/-! ### The opcodes -/

theorem checked_eq_some {x : ℤ} {r : Int64} (h : checked x = some r) : r.toInt = x := by
  rw [checked] at h
  split at h
  next hfit =>
      obtain rfl := Option.some.inj h
      exact Int64.toInt_ofInt_of_le hfit.1 hfit.2
  next => cases h

theorem opArith_int (op : Char) (f : ℤ → ℤ → ℤ) (i j : Int64) :
    opArith op f (.int i) (.int j) =
      (checked (f i.toInt j.toInt)).elim (vmBignumArith (.int i) (.int j) op)
        fun r => .ok (some (.int r)) := by
  cases hc : checked (f i.toInt j.toInt) <;>
    simp [opArith, ExactVal.isRational, vmEitherBignum, ExactVal.isBignum, hc]

section

variable {a b : ExactVal} {x y : ℤ}

theorem opArith_spec {op : Char} {f : ℤ → ℤ → ℤ} (ha : a.HoldsInteger x) (hb : b.HoldsInteger y)
    (hbig : ReturnsExact (vmBignumArith a b op) (f x y : ℤ)) :
    ReturnsExact (opArith op f a b) (f x y : ℤ) := by
  cases a with
  | rational r => exact ha.elim
  | bignum n =>
    cases b with
    | rational r => exact hb.elim
    | _ => exact hbig
  | int i =>
    cases b with
    | rational r => exact hb.elim
    | bignum n => exact hbig
    | int j =>
      obtain rfl : i.toInt = x := ha
      obtain rfl : j.toInt = y := hb
      rw [opArith_int]
      cases hc : checked (f i.toInt j.toInt) with
      | some r => exact returnsExact_int (by rw [checked_eq_some hc])
      | none => exact hbig

theorem opNeg_spec (loop : DispatchLoop) (ha : a.HoldsInteger x) :
    ReturnsExact (opNeg loop a) (-x : ℤ) := by
  have hloops : opNeg loop a = lblNeg a := by
    cases loop with
    | threaded => rfl
    | switch =>
      cases a with
      | int i =>
        change caseNeg (.int i) = lblNeg (.int i)
        rw [caseNeg, lblNeg]
        by_cases hi : i = Int64.minValue <;> simp [hi]
      | _ => rfl
  rw [hloops]
  cases a with
  | rational r => exact ha.elim
  | bignum b =>
    obtain ⟨hn, hv⟩ := bignumNeg_spec ha.1
    exact returnsExact_bignum hn (by rw [hv, ha.2])
  | int i =>
    obtain rfl : i.toInt = x := ha
    rw [lblNeg]
    split
    next =>
        obtain ⟨hn, hv⟩ := bignumFromInt64_spec i
        obtain ⟨hn', hv'⟩ := bignumNeg_spec hn
        exact returnsExact_bignum hn' (by rw [hv', hv])
    next hmin =>
        have hlow : i.toInt ≠ -2 ^ 63 := fun h => hmin (Int64.toInt_inj.mp h)
        obtain ⟨hlo, hhi⟩ := int64_bounds i
        obtain ⟨r, hr, hrv⟩ : ∃ r : Int64, (int64 (-i.toInt) : Exec Empty Int64) = .ok r ∧
            r.toInt = -i.toInt := int64_eq_ok (by omega) (by omega)
        rw [hr, ok_bind]
        exact returnsExact_int (by rw [hrv])

theorem rationalNative_div (a b : ExactVal) :
    rationalNative a b '/' =
      if numIsZero (vmCoerceRational b) then .ok none
      else vmRationalArithExact (vmCoerceRational a) (vmCoerceRational b) '/' >>= fun r =>
        .ok (pushRational r) := by
  simp [rationalNative]

theorem rationalNative_int_iff {i j : Int64} (hj : j.toInt ≠ 0) :
    ReturnsExact (rationalNative (.int i) (.int j) '/') ((i.toInt : ℚ) / j.toInt) ↔
      j ≠ Int64.minValue := by
  obtain ⟨hi, hiv⟩ := vmCoerceRational_spec (v := .int i) trivial
  obtain ⟨hjc, hjv⟩ := vmCoerceRational_spec (v := .int j) trivial
  have hj0 : (vmCoerceRational (.int j)).toRat ≠ 0 := by
    rw [hjv]
    exact Int.cast_ne_zero.mpr hj
  have hiff := vmRationalArithExact_div_iff hi hjc hj0
  rw [hiv, hjv] at hiff
  have hz : numIsZero (vmCoerceRational (.int j)) = false := by
    rw [← Bool.not_eq_true, numIsZero_iff hjc]
    exact hj
  rw [rationalNative_div, hz, if_neg (by simp)]
  constructor
  · rintro ⟨v, hv, -⟩ rfl
    have hundef : vmRationalArithExact (vmCoerceRational (.int i))
        (.small Int64.minValue 1) '/' = .error .undefined := by
      have hfast : vmRationalArithFast (.small i 1) (.small Int64.minValue 1) '/'
          = .error .undefined := vmRationalDiv_minValue _ (by decide)
      rw [vmRationalArithExact, if_neg (by decide), vmCoerceRational, hfast, orElseBn, error_bind]
    change vmRationalArithExact (vmCoerceRational (.int i)) (.small Int64.minValue 1) '/' >>= _ = _
      at hv
    rw [hundef, error_bind] at hv
    cases hv
  · intro hmin
    refine returnsExact_rational (hiff.mpr ?_)
    rintro ⟨-, d, hd⟩
    exact hmin (VmRational.small.inj hd).1

theorem opDiv_iff (ha : a.HoldsInteger x) (hb : b.HoldsInteger y) (hy : y ≠ 0) :
    ReturnsExact (opDiv a b) ((x : ℚ) / y) ↔
      ¬ (a.isBignum = false ∧ b.isBignum = false ∧ y = -2 ^ 63) := by
  have hbig := vmBignumArith_div ha hb hy
  cases a with
  | rational r => exact ha.elim
  | bignum n =>
    refine iff_of_true ?_ (by simp [ExactVal.isBignum])
    cases b with
    | rational r => exact hb.elim
    | _ => exact hbig
  | int i =>
    cases b with
    | rational r => exact hb.elim
    | bignum n => exact iff_of_true hbig (by simp [ExactVal.isBignum])
    | int j =>
      obtain rfl : i.toInt = x := ha
      obtain rfl : j.toInt = y := hb
      have hj : j ≠ 0 := fun h => hy (by rw [h]; rfl)
      have hstep : opDiv (.int i) (.int j) = rationalNative (.int i) (.int j) '/' := if_neg hj
      rw [hstep, rationalNative_int_iff hy, ← Int64.toInt_inj.ne]
      simp [ExactVal.isBignum]

theorem tdiv_int64_bounds {i j : Int64} (hj : j.toInt ≠ 0)
    (h : ¬ (i.toInt = -2 ^ 63 ∧ j.toInt = -1)) :
    -2 ^ 63 ≤ i.toInt.tdiv j.toInt ∧ i.toInt.tdiv j.toInt < 2 ^ 63 := by
  obtain ⟨hlo, hhi⟩ := int64_bounds i
  have habs : (i.toInt.tdiv j.toInt).natAbs = i.toInt.natAbs / j.toInt.natAbs := Int.natAbs_tdiv _ _
  rcases Nat.lt_or_ge 1 j.toInt.natAbs with htwo | hone
  · have hle : i.toInt.natAbs / j.toInt.natAbs ≤ i.toInt.natAbs / 2 :=
      Nat.div_le_div_left htwo (by omega)
    rw [← habs] at hle
    omega
  · rcases Int.natAbs_eq_iff.mp (show j.toInt.natAbs = 1 by omega) with hpos | hneg
    · have hj1 : j.toInt = 1 := by simpa using hpos
      rw [hj1, Int.tdiv_one]
      exact ⟨hlo, hhi⟩
    · have hj1 : j.toInt = -1 := by simpa using hneg
      rw [hj1, Int.tdiv_neg, Int.tdiv_one]
      omega

theorem natAbs_fmod_lt (x : ℤ) {y : ℤ} (hy : y ≠ 0) : (x.fmod y).natAbs < y.natAbs := by
  have hlt : (x.tmod y).natAbs < y.natAbs := by
    rw [Int.natAbs_tmod]
    exact Nat.mod_lt _ (Int.natAbs_pos.mpr hy)
  rw [← fmod_of_tmod]
  split <;> omega

theorem modInt64_iff {i j : Int64} (hj : j.toInt ≠ 0) :
    (∃ r, modInt64 i j = .ok r ∧ r.toInt = i.toInt.fmod j.toInt) ↔
      ¬ (i.toInt = -2 ^ 63 ∧ j.toInt = -1) := by
  constructor
  · rintro ⟨r, hr, -⟩ ⟨hi, hj'⟩
    have hundef : (signedRem 64 i.toInt j.toInt : Exec Empty ℤ) = .error .undefined := by
      rw [hi, hj']
      rfl
    rw [modInt64, hundef, error_bind] at hr
    cases hr
  · intro h
    obtain ⟨hlo, hhi⟩ := tdiv_int64_bounds hj h
    obtain ⟨hjlo, hjhi⟩ := int64_bounds j
    have hrem : (signedRem 64 i.toInt j.toInt : Exec Empty ℤ) = .ok (i.toInt.tmod j.toInt) := by
      rw [signedRem, signedDiv, if_neg hj, signed_eq_ok hlo hhi, ok_bind]
    obtain ⟨r, hr, hrv⟩ : ∃ r : Int64, (int64 (i.toInt.fmod j.toInt) : Exec Empty Int64) = .ok r ∧
        r.toInt = i.toInt.fmod j.toInt := by
      have habs := natAbs_fmod_lt i.toInt hj
      exact int64_eq_ok (by omega) (by omega)
    refine ⟨r, ?_, hrv⟩
    rw [modInt64, hrem, ok_bind, ← hr, ← fmod_of_tmod]
    split_ifs <;> rfl

theorem opMod_iff (ha : a.HoldsInteger x) (hb : b.HoldsInteger y) (hy : y ≠ 0) :
    ReturnsExact (opMod a b) (x.fmod y : ℤ) ↔
      ¬ (a.isBignum = false ∧ b.isBignum = false ∧ x = -2 ^ 63 ∧ y = -1) := by
  have hbig := vmBignumArith_mod ha hb hy
  cases a with
  | rational r => exact ha.elim
  | bignum n => exact iff_of_true hbig (by simp [ExactVal.isBignum])
  | int i =>
    cases b with
    | rational r => exact hb.elim
    | bignum n => exact iff_of_true hbig (by simp [ExactVal.isBignum])
    | int j =>
      obtain rfl : i.toInt = x := ha
      obtain rfl : j.toInt = y := hb
      have hj : j ≠ 0 := fun h => hy (by rw [h]; rfl)
      have hstep : opMod (.int i) (.int j) =
          modInt64 i j >>= fun r => .ok (some (.int r)) := if_neg hj
      have hiff := modInt64_iff (i := i) hy
      simp only [ExactVal.isBignum, true_and]
      rw [hstep, ← hiff]
      constructor
      · rintro ⟨v, hv, -, hval⟩
        obtain ⟨r, hr, hv⟩ := bind_eq_ok.mp hv
        obtain rfl := Option.some.inj (Except.ok.inj hv)
        exact ⟨r, hr, (Int.cast_inj (α := ℚ)).mp hval⟩
      · rintro ⟨r, hr, hval⟩
        rw [hr, ok_bind]
        exact returnsExact_int (by rw [hval])

end

/-- **The arithmetic opcodes.** On fixnums and bignums in any mix, in either loop, each opcode
pops its operands and pushes the canonical exact result, with two exceptions: the quotient of
two fixnums of which the divisor is the least, and the modulus of the least fixnum by the
fixnum `-1`. -/
theorem opcodes_exact_iff (loop : DispatchLoop) {a b : ExactVal} {x y : ℤ}
    (ha : a.HoldsInteger x) (hb : b.HoldsInteger y) (rest : List ExactVal) :
    PushesExact (execArith loop .add (b :: a :: rest)) rest (x + y) ∧
    PushesExact (execArith loop .sub (b :: a :: rest)) rest (x - y) ∧
    PushesExact (execArith loop .mul (b :: a :: rest)) rest (x * y) ∧
    PushesExact (execArith loop .neg (a :: rest)) rest (-x) ∧
    (y ≠ 0 → (PushesExact (execArith loop .div (b :: a :: rest)) rest (x / y) ↔
      ¬ (a.isBignum = false ∧ b.isBignum = false ∧ y = -2 ^ 63))) ∧
    (y ≠ 0 → (PushesExact (execArith loop .mod (b :: a :: rest)) rest (x.fmod y : ℤ) ↔
      ¬ (a.isBignum = false ∧ b.isBignum = false ∧ x = -2 ^ 63 ∧ y = -1))) := by
  simp only [execArith, pushesExact_binary, pushesExact_unary]
  refine ⟨?_, ?_, ?_, ?_, opDiv_iff ha hb, opMod_iff ha hb⟩
  · exact_mod_cast opArith_spec (f := (· + ·)) ha hb (vmBignumArith_add ha hb)
  · exact_mod_cast opArith_spec (f := (· - ·)) ha hb (vmBignumArith_sub ha hb)
  · exact_mod_cast opArith_spec (f := (· * ·)) ha hb (vmBignumArith_mul ha hb)
  · exact_mod_cast opNeg_spec loop ha

theorem minValue_holdsInteger : (ExactVal.int Int64.minValue).HoldsInteger (-2 ^ 63) :=
  Int64.toInt_minValue

/-- The least fixnum and the fixnum 3: the negation is a bignum, the quotient a rational. -/
theorem opcodes_exact_iff_minValue :
    PushesExact (execArith .threaded .neg [.int Int64.minValue]) [] (-(-2 ^ 63 : ℤ)) ∧
    PushesExact (execArith .threaded .div [.int 3, .int Int64.minValue]) []
      ((-2 ^ 63 : ℤ) / (3 : ℤ)) ∧
    PushesExact (execArith .threaded .mod [.int 3, .int Int64.minValue]) []
      ((-2 ^ 63 : ℤ).fmod 3 : ℤ) := by
  have hthree : (ExactVal.int 3).HoldsInteger 3 := by rw [ExactVal.HoldsInteger]; decide
  obtain ⟨-, -, -, hneg, hdiv, hmod⟩ := opcodes_exact_iff .threaded minValue_holdsInteger hthree []
  exact ⟨hneg, (hdiv (by decide)).mpr (by decide), (hmod (by decide)).mpr (by decide)⟩

/-- `1` divided by the least fixnum and the least fixnum modulo `-1` are undefined. -/
theorem opcodes_not_exact :
    ¬ PushesExact (execArith .threaded .div [.int Int64.minValue, .int 1]) []
      ((1 : ℤ) / (-2 ^ 63 : ℤ)) ∧
    ¬ PushesExact (execArith .threaded .mod [.int (-1), .int Int64.minValue]) []
      ((-2 ^ 63 : ℤ).fmod (-1) : ℤ) := by
  have hone : (ExactVal.int 1).HoldsInteger 1 := by rw [ExactVal.HoldsInteger]; decide
  have hneg : (ExactVal.int (-1)).HoldsInteger (-1) := by rw [ExactVal.HoldsInteger]; decide
  simp only [execArith, pushesExact_binary]
  rw [opDiv_iff hone minValue_holdsInteger (by decide),
    opMod_iff minValue_holdsInteger hneg (by decide)]
  decide

end Eshkol.Vm
