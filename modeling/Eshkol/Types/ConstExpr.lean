import Mathlib.Algebra.Order.Field.Rat
import Mathlib.Tactic.Linarith
import Eshkol.Machine.Exec

/-!
# Constant Expressions of Dependent Types

The evaluation of constant expressions at compile time (`lib/types/dependent.cpp`):
`evaluateConstExpr` folds integer and floating-point literals and the four arithmetic
operators in 64-bit integers and doubles, and `tryEvalNat` accepts a natural number. Doubles
are any type with the operations that the code applies to them. The parser makes no nodes of the
four operators; callers of the interface do.

`exactValue` is the value of the same expression in exact arithmetic. An operator with more than two
operands is read from the left: `running` is the expression of its value before the last one,
and a part of an expression is what is met on the way.
-/

namespace Eshkol.Types

open Machine

variable {D : Type}

/-! ### Constants -/

/-- What the code does with doubles: conversion from an integer, arithmetic, the comparisons
with zero and with each other, and the integral part, which infinities and NaN do not have. -/
structure DoubleOps (D : Type) where
  ofInt : ℤ → D
  add : D → D → D
  sub : D → D → D
  mul : D → D → D
  div : D → D → D
  eq : D → D → Bool
  isZero : D → Bool
  isNonneg : D → Bool
  integralPart : D → Option ℤ

/-- `static_cast<int64_t>` of a double. -/
def DoubleOps.toInt64 (ops : DoubleOps D) (v : D) : Exec Empty ℤ :=
  match ops.integralPart v with
  | some z => signed 64 z
  | none => .error .undefined

/-- `static_cast<uint64_t>` of a double. -/
def DoubleOps.toUInt64 (ops : DoubleOps D) (v : D) : Exec Empty ℕ :=
  match ops.integralPart v with
  | some z => if 0 ≤ z ∧ z < 2 ^ 64 then .ok z.toNat else .error .undefined
  | none => .error .undefined

/-- The kinds of a `ConstValue`. -/
inductive Kind : Type
  | integer
  | float
  | none
  deriving DecidableEq

/-- `ConstValue`: each kind of number caches the other. -/
structure ConstValue (D : Type) where
  kind : Kind
  intVal : ℤ
  floatVal : D

namespace ConstValue

variable (ops : DoubleOps D)

def makeInt (v : ℤ) : ConstValue D := ⟨.integer, v, ops.ofInt v⟩

def makeFloat (v : D) : Exec Empty (ConstValue D) := do
  let i ← ops.toInt64 v
  .ok ⟨.float, i, v⟩

def none : ConstValue D := ⟨.none, 0, ops.ofInt 0⟩

def isValid (a : ConstValue D) : Bool := a.kind ≠ .none

def isInt (a : ConstValue D) : Bool := a.kind = .integer

def isFloat (a : ConstValue D) : Bool := a.kind = .float

/-- A binary operation with its case for doubles and its case for integers. -/
def binary (onFloat : D → D → D) (onInt : ℤ → ℤ → Exec Empty ℤ) (a b : ConstValue D) :
    Exec Empty (ConstValue D) :=
  if !a.isValid || !b.isValid then .ok (none ops)
  else if a.isFloat || b.isFloat then makeFloat ops (onFloat a.floatVal b.floatVal)
  else do
    let v ← onInt a.intVal b.intVal
    .ok (makeInt ops v)

def add : ConstValue D → ConstValue D → Exec Empty (ConstValue D) :=
  binary ops ops.add fun x y => signed 64 (x + y)

def sub : ConstValue D → ConstValue D → Exec Empty (ConstValue D) :=
  binary ops ops.sub fun x y => signed 64 (x - y)

def mul : ConstValue D → ConstValue D → Exec Empty (ConstValue D) :=
  binary ops ops.mul fun x y => signed 64 (x * y)

def div (a b : ConstValue D) : Exec Empty (ConstValue D) :=
  if !a.isValid || !b.isValid then .ok (none ops)
  else if b.isFloat && ops.isZero b.floatVal then .ok (none ops)
  else if b.isInt && b.intVal = 0 then .ok (none ops)
  else binary ops ops.div (signedDiv 64) a b

end ConstValue

/-! ### Expressions -/

/-- Integer literals. -/
inductive IntLiteral : Type
  | int64 (v : Int64)
  | int32 (v : Int32)
  | int16 (v : Int16)
  | int8 (v : Int8)
  | uint64 (v : UInt64)
  | uint32 (v : UInt32)
  | uint16 (v : UInt16)
  | uint8 (v : UInt8)
  deriving DecidableEq

/-- The number that a literal denotes. -/
def IntLiteral.value : IntLiteral → ℤ
  | .int64 v => v.toInt
  | .int32 v => v.toInt
  | .int16 v => v.toInt
  | .int8 v => v.toInt
  | .uint64 v => v.toNat
  | .uint32 v => v.toNat
  | .uint16 v => v.toNat
  | .uint8 v => v.toNat

/-- `static_cast<int64_t>` of a literal. -/
def IntLiteral.toInt64 : IntLiteral → ℤ
  | .uint64 v => v.toInt64.toInt
  | l => l.value

/-- The operators that are folded. -/
inductive ArithOp : Type
  | add
  | sub
  | mul
  | div
  deriving DecidableEq

/-- `eshkol_ast_t`, as `evaluateConstExpr` tells its nodes apart: `other` is any node that is
neither a number nor one of the four operators. -/
inductive Expr (D : Type) : Type
  | int (literal : IntLiteral)
  | double (v : D)
  | arith (op : ArithOp) (operands : List (Expr D))
  | other

/-- The operation of `ConstValue` for an operator. -/
def ArithOp.apply (ops : DoubleOps D) : ArithOp → ConstValue D → ConstValue D →
    Exec Empty (ConstValue D)
  | .add => ConstValue.add ops
  | .sub => ConstValue.sub ops
  | .mul => ConstValue.mul ops
  | .div => ConstValue.div ops

mutual

def evaluateConstExpr (ops : DoubleOps D) : Expr D → Exec Empty (ConstValue D)
  | .int literal => .ok (.makeInt ops literal.toInt64)
  | .double v => ConstValue.makeFloat ops v
  | .arith op operands =>
    if operands.length < 2 then .ok (.none ops) else evaluateOperands ops op operands
  | .other => .ok (.none ops)

/-- The operands of an operator: the first one starts the loop. -/
def evaluateOperands (ops : DoubleOps D) (op : ArithOp) : List (Expr D) → Exec Empty (ConstValue D)
  | [] => .ok (.none ops)
  | first :: rest => do
      let result ← evaluateConstExpr ops first
      if !result.isValid then .ok (.none ops) else foldOperands ops op result rest

/-- The loop of an operator over its further operands. Division ends it at a zero divisor. -/
def foldOperands (ops : DoubleOps D) (op : ArithOp) (result : ConstValue D) :
    List (Expr D) → Exec Empty (ConstValue D)
  | [] => .ok result
  | x :: rest => do
      let operand ← evaluateConstExpr ops x
      if !operand.isValid then .ok (.none ops)
      else do
        let result ← op.apply ops result operand
        if op = .div && !result.isValid then .ok (.none ops)
        else foldOperands ops op result rest

end

inductive CTValue (D : Type) : Type
  | nat (n : UInt64)
  | bool (b : Bool)
  | expr (e : Option (Expr D))
  | unknown

def CTValue.tryEvalNat (ops : DoubleOps D) : CTValue D → Exec Empty (Option ℕ)
  | .nat n => .ok (some n.toNat)
  | .expr none => .ok none
  | .expr (some e) => do
      let result ← evaluateConstExpr ops e
      if result.isInt && 0 ≤ result.intVal then .ok (some result.intVal.toNat)
      else if result.isFloat then
        if ops.isNonneg result.floatVal then do
          let n ← ops.toUInt64 result.floatVal
          .ok (if ops.eq result.floatVal (ops.ofInt n) then some n else none)
        else .ok none
      else .ok none
  | .bool _ => .ok none
  | .unknown => .ok none

/-! ### Exact values -/

/-- An operator on the values of its operands, in exact arithmetic. -/
def ArithOp.exact : ArithOp → List ℚ → Option ℚ
  | .add, qs => some (qs.foldl (· + ·) 0)
  | .mul, qs => some (qs.foldl (· * ·) 1)
  | .sub, [] => none
  | .sub, [q] => some (-q)
  | .sub, q :: qs => some (qs.foldl (· - ·) q)
  | .div, [] => none
  | .div, [q] => if q = 0 then none else some (1 / q)
  | .div, q :: qs => if 0 ∈ qs then none else some (qs.foldl (· / ·) q)

mutual

/-- The value of an expression of integer literals and operators in exact arithmetic. -/
def exactValue : Expr D → Option ℚ
  | .int literal => some literal.value
  | .double _ => none
  | .arith op operands => (exactValues operands).bind op.exact
  | .other => none

/-- The values of a list of expressions. -/
def exactValues : List (Expr D) → Option (List ℚ)
  | [] => some []
  | x :: rest => (exactValue x).bind fun q => (exactValues rest).map (q :: ·)

end

mutual

/-- Every operator has at least two operands, and there are integer literals only. -/
def Expr.isFoldable : Expr D → Bool
  | .int _ => true
  | .double _ => false
  | .arith _ operands => 2 ≤ operands.length && areFoldable operands
  | .other => false

/-- `Expr.isFoldable` on a list. -/
def areFoldable : List (Expr D) → Bool
  | [] => true
  | x :: rest => x.isFoldable && areFoldable rest

end

mutual

/-- Built from integer literals and operators. -/
def Expr.isIntegral : Expr D → Bool
  | .int _ => true
  | .double _ => false
  | .arith _ operands => areIntegral operands
  | .other => false

/-- `Expr.isIntegral` on a list. -/
def areIntegral : List (Expr D) → Bool
  | [] => true
  | x :: rest => x.isIntegral && areIntegral rest

end

/-! ### Operators from the left -/

/-- The value of an operator on some of its operands, as an expression: the first operand
stands for itself. -/
def running (op : ArithOp) : List (Expr D) → Expr D
  | [x] => x
  | operands => .arith op operands

theorem running_cons_cons (op : ArithOp) (x y : Expr D) (rest : List (Expr D)) :
    running op (x :: y :: rest) = .arith op (x :: y :: rest) :=
  rfl

theorem sizeOf_concat (init : List (Expr D)) (last : Expr D) :
    sizeOf (init ++ [last]) = sizeOf init + sizeOf last + 1 := by
  induction init with
  | nil => simp
  | cons x init ih => simp [ih]; omega

theorem sizeOf_running_le (op : ArithOp) (init : List (Expr D)) :
    sizeOf (running op init) ≤ sizeOf (Expr.arith op init) := by
  match init with
  | [] => rfl
  | [x] => simp [running]; omega
  | _ :: _ :: _ => rfl

theorem Expr.induction_running {P : Expr D → Prop} (int : ∀ l, P (.int l))
    (double : ∀ v, P (.double v)) (other : P .other)
    (short : ∀ op operands, operands.length < 2 → P (.arith op operands))
    (concat : ∀ op init last, init ≠ [] → P (running op init) → P last →
      P (.arith op (init ++ [last]))) (e : Expr D) : P e := by
  induction h : sizeOf e using Nat.strong_induction_on generalizing e with
  | _ n ih =>
    cases e with
    | int l => exact int l
    | double v => exact double v
    | other => exact other
    | arith op operands =>
      rcases List.eq_nil_or_concat' operands with rfl | ⟨init, last, rfl⟩
      · exact short op [] (by simp)
      · by_cases hinit : init = []
        · rw [hinit]
          exact short op [last] (by simp)
        · have hrun := sizeOf_running_le op init
          have hsize := sizeOf_concat init last
          simp only [Expr.arith.sizeOf_spec] at h hrun
          exact concat op init last hinit (ih _ (by omega) _ rfl) (ih _ (by omega) _ rfl)

theorem areFoldable_concat (init : List (Expr D)) (last : Expr D) :
    areFoldable (init ++ [last]) = (areFoldable init && last.isFoldable) := by
  induction init with
  | nil => simp [areFoldable]
  | cons x init ih => simp [areFoldable, ih, Bool.and_assoc]

theorem areIntegral_concat (init : List (Expr D)) (last : Expr D) :
    areIntegral (init ++ [last]) = (areIntegral init && last.isIntegral) := by
  induction init with
  | nil => simp [areIntegral]
  | cons x init ih => simp [areIntegral, ih, Bool.and_assoc]

section

variable {op : ArithOp} {init : List (Expr D)} {last : Expr D} (h : init ≠ [])
include h

theorem isFoldable_concat :
    (Expr.arith op (init ++ [last])).isFoldable =
      ((running op init).isFoldable && last.isFoldable) := by
  match init, h with
  | [x], _ => simp [Expr.isFoldable, areFoldable, running]
  | x :: y :: rest, _ =>
    simp [Expr.isFoldable, areFoldable, running, areFoldable_concat, Bool.and_assoc]

theorem isIntegral_concat :
    (Expr.arith op (init ++ [last])).isIntegral =
      ((running op init).isIntegral && last.isIntegral) := by
  match init, h with
  | [x], _ => simp [Expr.isIntegral, areIntegral, running]
  | x :: y :: rest, _ =>
    simp [Expr.isIntegral, areIntegral, running, areIntegral_concat, Bool.and_assoc]

end

/-- An operator applied to one more operand, in exact arithmetic. -/
def ArithOp.exactStep : ArithOp → ℚ → ℚ → Option ℚ
  | .add, r, x => some (r + x)
  | .sub, r, x => some (r - x)
  | .mul, r, x => some (r * x)
  | .div, r, x => if x = 0 then none else some (r / x)

theorem exactValues_concat (init : List (Expr D)) (last : Expr D) :
    exactValues (init ++ [last]) = (exactValues init).bind fun qs =>
      (exactValue last).map fun x => qs ++ [x] := by
  induction init with
  | nil => simp [exactValues, Option.map_eq_bind]
  | cons y init ih =>
    simp only [List.cons_append, exactValues, ih]
    cases exactValue y with
    | none => rfl
    | some q =>
      cases exactValues init with
      | none => rfl
      | some qs =>
        cases exactValue last with
        | none => rfl
        | some x => rfl

theorem ArithOp.exact_pair (op : ArithOp) (q x : ℚ) : op.exact [q, x] = op.exactStep q x := by
  cases op with
  | add => simp [ArithOp.exact, exactStep]
  | sub => simp [ArithOp.exact, exactStep]
  | mul => simp [ArithOp.exact, exactStep]
  | div => simp [ArithOp.exact, exactStep, eq_comm]

theorem ArithOp.exact_concat (op : ArithOp) (q q' : ℚ) (qs : List ℚ) (x : ℚ) :
    op.exact (q :: q' :: (qs ++ [x])) = (op.exact (q :: q' :: qs)).bind (op.exactStep · x) := by
  cases op with
  | add => simp [ArithOp.exact, exactStep, List.foldl_append]
  | sub => simp [ArithOp.exact, exactStep, List.foldl_append]
  | mul => simp [ArithOp.exact, exactStep, List.foldl_append]
  | div =>
    have hcons : q' :: (qs ++ [x]) = (q' :: qs) ++ [x] := rfl
    simp only [ArithOp.exact, exactStep]
    rw [hcons]
    by_cases h0 : 0 ∈ q' :: qs
    · rw [if_pos h0, if_pos (List.mem_append_left [x] h0), Option.bind_none]
    · rw [if_neg h0, Option.bind_some]
      by_cases hx : x = 0
      · rw [if_pos hx, if_pos (by rw [hx]; simp)]
      · rw [if_neg hx, if_neg, List.foldl_append]
        · rfl
        · intro hmem
          rcases List.mem_append.mp hmem with hmem | hmem
          · exact h0 hmem
          · exact hx (List.mem_singleton.mp hmem).symm

theorem exactValue_concat {op : ArithOp} {init : List (Expr D)} (h : init ≠ []) (last : Expr D) :
    exactValue (.arith op (init ++ [last])) = (exactValue (running op init)).bind fun r =>
      (exactValue last).bind fun x => op.exactStep r x := by
  match init, h with
  | [y], _ =>
    simp only [List.singleton_append, exactValue, exactValues, running]
    cases exactValue y with
    | none => rfl
    | some q =>
      cases exactValue last with
      | none => rfl
      | some x => exact op.exact_pair q x
  | y :: y' :: rest, _ =>
    rw [exactValue, exactValues_concat]
    simp only [running, exactValue, exactValues]
    cases exactValue y with
    | none => rfl
    | some q =>
      cases exactValue y' with
      | none => rfl
      | some q' =>
        cases exactValues rest with
        | none => rfl
        | some qs =>
          cases exactValue last with
          | none => simp
          | some x => exact op.exact_concat q q' qs x

/-! ### Evaluation from the left -/

section

variable (ops : DoubleOps D)

/-- An operator applied to one more operand, at compile time. -/
def applyOperand (op : ArithOp) (result : ConstValue D) (last : Expr D) :
    Exec Empty (ConstValue D) :=
  if !result.isValid then .ok (.none ops) else foldOperands ops op result [last]

theorem ConstValue.binary_isValid {onFloat : D → D → D} {onInt : ℤ → ℤ → Exec Empty ℤ}
    {a b c : ConstValue D} (ha : a.isValid = true) (hb : b.isValid = true)
    (h : binary ops onFloat onInt a b = .ok c) : c.isValid = true := by
  rw [binary, ha, hb] at h
  simp only [Bool.not_true, Bool.or_self, Bool.false_eq_true, if_false] at h
  split at h
  next =>
      obtain ⟨i, -, hc⟩ := bind_eq_ok.mp h
      cases hc
      rfl
  next =>
      obtain ⟨v, -, hc⟩ := bind_eq_ok.mp h
      cases hc
      rfl

theorem ArithOp.apply_isValid {op : ArithOp} (hop : op ≠ .div) {a b c : ConstValue D}
    (ha : a.isValid = true) (hb : b.isValid = true) (h : op.apply ops a b = .ok c) :
    c.isValid = true := by
  cases op with
  | add =>
    have hc : ConstValue.binary ops ops.add (fun x y => signed 64 (x + y)) a b = .ok c := h
    exact ConstValue.binary_isValid ops ha hb hc
  | sub =>
    have hc : ConstValue.binary ops ops.sub (fun x y => signed 64 (x - y)) a b = .ok c := h
    exact ConstValue.binary_isValid ops ha hb hc
  | mul =>
    have hc : ConstValue.binary ops ops.mul (fun x y => signed 64 (x * y)) a b = .ok c := h
    exact ConstValue.binary_isValid ops ha hb hc
  | div => exact absurd rfl hop

theorem foldOperands_concat (op : ArithOp) {result : ConstValue D} (hr : result.isValid = true)
    (init : List (Expr D)) (last : Expr D) :
    foldOperands ops op result (init ++ [last]) =
      foldOperands ops op result init >>= fun r => applyOperand ops op r last := by
  induction init generalizing result with
  | nil =>
    rw [List.nil_append, foldOperands, ok_bind, applyOperand, hr]
    rfl
  | cons x init ih =>
    rw [List.cons_append, foldOperands, foldOperands]
    cases evaluateConstExpr ops x with
    | error e => rfl
    | ok v =>
      rw [ok_bind, ok_bind]
      cases hv : v.isValid with
      | false => rfl
      | true =>
        simp only [Bool.not_true, Bool.false_eq_true, if_false]
        cases happly : op.apply ops result v with
        | error e => rfl
        | ok r =>
          simp only [ok_bind]
          cases hvalid : r.isValid with
          | true =>
            simp only [Bool.not_true, Bool.and_false, Bool.false_eq_true, if_false]
            exact ih hvalid
          | false =>
            have hop : op = .div := by
              by_contra hop
              rw [ArithOp.apply_isValid ops hop hr hv happly] at hvalid
              cases hvalid
            simp [hop, applyOperand, ConstValue.none, ConstValue.isValid]

theorem evaluateConstExpr_concat {op : ArithOp} {init : List (Expr D)} (h : init ≠ [])
    (last : Expr D) :
    evaluateConstExpr ops (.arith op (init ++ [last])) =
      evaluateConstExpr ops (running op init) >>= fun r => applyOperand ops op r last := by
  match init, h with
  | [x], _ =>
    rw [running, evaluateConstExpr, if_neg (by simp), List.singleton_append, evaluateOperands]
    rfl
  | x :: y :: rest, _ =>
    rw [running_cons_cons, evaluateConstExpr, if_neg (by simp), evaluateConstExpr,
      if_neg (by simp), List.cons_append, evaluateOperands, evaluateOperands]
    cases evaluateConstExpr ops x with
    | error e => rfl
    | ok v =>
      rw [ok_bind, ok_bind]
      cases hv : v.isValid with
      | false => rfl
      | true => exact foldOperands_concat ops op hv (y :: rest) last

end

/-! ### Values in 64 bits -/

/-- A 64-bit integer. -/
def IsInt64 (q : ℚ) : Prop := ∃ z : ℤ, q = z ∧ -2 ^ 63 ≤ z ∧ z < 2 ^ 63

theorem isInt64_intCast {z : ℤ} : IsInt64 z ↔ -2 ^ 63 ≤ z ∧ z < 2 ^ 63 := by
  constructor
  · rintro ⟨z', hz, hrange⟩
    rwa [Int.cast_inj.mp hz]
  · exact fun h => ⟨z, rfl, h⟩

theorem IntLiteral.toInt64_spec (l : IntLiteral) :
    (-2 ^ 63 ≤ l.toInt64 ∧ l.toInt64 < 2 ^ 63) ∧
      (-2 ^ 63 ≤ l.value → l.value < 2 ^ 63 → l.toInt64 = l.value) := by
  cases l with
  | int64 v => exact ⟨⟨v.le_toInt, v.toInt_lt⟩, fun _ _ => rfl⟩
  | int32 v =>
    have := v.le_toInt
    have := v.toInt_lt
    exact ⟨by simp only [toInt64, value]; omega, fun _ _ => rfl⟩
  | int16 v =>
    have := v.le_toInt
    have := v.toInt_lt
    exact ⟨by simp only [toInt64, value]; omega, fun _ _ => rfl⟩
  | int8 v =>
    have := v.le_toInt
    have := v.toInt_lt
    exact ⟨by simp only [toInt64, value]; omega, fun _ _ => rfl⟩
  | uint64 v =>
    refine ⟨⟨v.toInt64.le_toInt, v.toInt64.toInt_lt⟩, fun _ hv => ?_⟩
    have hcond : v.toInt64.toInt =
        if 2 * v.toNat < 2 ^ 64 then (v.toNat : ℤ) else v.toNat - (2 ^ 64 : ℕ) :=
      BitVec.toInt_eq_toNat_cond v.toBitVec
    simp only [value] at hv
    simp only [toInt64, value]
    rw [hcond, if_pos (by omega)]
  | uint32 v =>
    have := v.toNat_lt
    exact ⟨by simp only [toInt64, value]; omega, fun _ _ => rfl⟩
  | uint16 v =>
    have := v.toNat_lt
    exact ⟨by simp only [toInt64, value]; omega, fun _ _ => rfl⟩
  | uint8 v =>
    have := v.toNat_lt
    exact ⟨by simp only [toInt64, value]; omega, fun _ _ => rfl⟩

theorem ArithOp.exactStep_eq_none {op : ArithOp} {r : ℚ} {x : ℤ} :
    op.exactStep r x = none ↔ op = .div ∧ x = 0 := by
  cases op with
  | add => simp [exactStep]
  | sub => simp [exactStep]
  | mul => simp [exactStep]
  | div => simp [exactStep]

/-- An operator on 64-bit integers. -/
def ArithOp.onInt : ArithOp → ℤ → ℤ → Exec Empty ℤ
  | .add, r, x => signed 64 (r + x)
  | .sub, r, x => signed 64 (r - x)
  | .mul, r, x => signed 64 (r * x)
  | .div, r, x => signedDiv 64 r x

/-- A step is right when it gives the exact result, and wrong when it is undefined or gives a
64-bit integer that is not the exact result. -/
theorem signed_exact (z : ℤ) :
    (IsInt64 z → (signed 64 z : Exec Empty ℤ) = .ok (z : ℚ).num) ∧
      (¬ IsInt64 z → (signed 64 z : Exec Empty ℤ) = .error .undefined) := by
  rw [isInt64_intCast]
  refine ⟨fun h => ?_, fun h => signed_eq_undefined (by omega)⟩
  rw [signed_eq_ok h.1 h.2, Rat.num_intCast]

/-- An operation on integers returns its exact result, if that is a 64-bit integer. -/
theorem ArithOp.onInt_spec {op : ArithOp} {r x : ℤ} {q : ℚ} (h : op.exactStep r x = some q) :
    (IsInt64 q → op.onInt r x = .ok q.num) ∧
      (¬ IsInt64 q → op.onInt r x = .error .undefined ∨
        ∃ z : ℤ, op.onInt r x = .ok z ∧ (-2 ^ 63 ≤ z ∧ z < 2 ^ 63) ∧ q ≠ z) := by
  cases op with
  | add =>
    obtain rfl : ((r + x : ℤ) : ℚ) = q := by
      rw [Int.cast_add]
      exact Option.some.inj h
    exact ⟨(signed_exact _).1, fun hq => .inl ((signed_exact _).2 hq)⟩
  | sub =>
    obtain rfl : ((r - x : ℤ) : ℚ) = q := by
      rw [Int.cast_sub]
      exact Option.some.inj h
    exact ⟨(signed_exact _).1, fun hq => .inl ((signed_exact _).2 hq)⟩
  | mul =>
    obtain rfl : ((r * x : ℤ) : ℚ) = q := by
      rw [Int.cast_mul]
      exact Option.some.inj h
    exact ⟨(signed_exact _).1, fun hq => .inl ((signed_exact _).2 hq)⟩
  | div =>
    rw [exactStep] at h
    split at h
    next => cases h
    next hx =>
        obtain rfl := Option.some.inj h
        have hx0 : x ≠ 0 := fun h0 => hx (by rw [h0, Int.cast_zero])
        have hdiv : ArithOp.div.onInt r x = signed 64 (r.tdiv x) := if_neg hx0
        rw [hdiv]
        by_cases hdvd : x ∣ r
        · obtain ⟨k, rfl⟩ := hdvd
          have hk : ((x * k : ℤ) : ℚ) / x = k := by rw [Int.cast_mul, mul_div_cancel_left₀ _ hx]
          rw [Int.mul_tdiv_cancel_left _ hx0, hk]
          exact ⟨(signed_exact _).1, fun hq => .inl ((signed_exact _).2 hq)⟩
        · have hne : ∀ z : ℤ, (r / x : ℚ) ≠ z := by
            intro z hz
            rw [div_eq_iff hx, ← Int.cast_mul, Int.cast_inj] at hz
            exact hdvd ⟨z, hz.trans (mul_comm z x)⟩
          refine ⟨fun ⟨z, hz, _⟩ => absurd hz (hne z), fun _ => ?_⟩
          by_cases hrange : -2 ^ 63 ≤ r.tdiv x ∧ r.tdiv x < 2 ^ 63
          · exact .inr ⟨_, signed_eq_ok hrange.1 hrange.2, hrange, hne _⟩
          · exact .inl (signed_eq_undefined (by omega))

section

variable {ops : DoubleOps D}

theorem ArithOp.apply_makeInt (op : ArithOp) (r x : ℤ) :
    op.apply ops (.makeInt ops r) (.makeInt ops x) =
      if op = .div ∧ x = 0 then .ok (.none ops)
      else (op.onInt r x >>= fun v => .ok (.makeInt ops v)) := by
  cases op with
  | add => rw [if_neg (by simp)]; rfl
  | sub => rw [if_neg (by simp)]; rfl
  | mul => rw [if_neg (by simp)]; rfl
  | div =>
    by_cases hx : x = 0
    · rw [if_pos ⟨rfl, hx⟩, hx]
      rfl
    · rw [if_neg (by simp [hx]), ArithOp.apply, ConstValue.div]
      simp [ConstValue.makeInt, ConstValue.isValid, ConstValue.isFloat, ConstValue.isInt,
        ConstValue.binary, onInt, hx]

theorem applyOperand_makeInt {op : ArithOp} {r x : ℤ} {last : Expr D}
    (h : evaluateConstExpr ops last = .ok (.makeInt ops x)) :
    applyOperand ops op (.makeInt ops r) last =
      if op = .div ∧ x = 0 then .ok (.none ops)
      else (op.onInt r x >>= fun v => .ok (.makeInt ops v)) := by
  have hfold : applyOperand ops op (.makeInt ops r) last =
      op.apply ops (.makeInt ops r) (.makeInt ops x) >>= fun v =>
        if op = .div && !v.isValid then .ok (.none ops) else .ok v := by
    change foldOperands ops op (.makeInt ops r) [last] = _
    rw [foldOperands, h]
    rfl
  rw [hfold, op.apply_makeInt]
  split
  next hdiv =>
      rw [ok_bind, hdiv.1]
      rfl
  next =>
      cases op.onInt r x with
      | error e => rfl
      | ok v =>
        rw [ok_bind, ok_bind, if_neg]
        simp [ConstValue.makeInt, ConstValue.isValid]

/-! ### Agreement -/

/-- The exact value of an expression that can be folded. -/
def foldableValue (e : Expr D) : Option ℚ := if e.isFoldable then exactValue e else none

theorem foldableValue_concat {op : ArithOp} {init : List (Expr D)} (h : init ≠ [])
    (last : Expr D) :
    foldableValue (.arith op (init ++ [last])) = (foldableValue (running op init)).bind fun r =>
      (foldableValue last).bind fun x => op.exactStep r x := by
  rw [foldableValue, foldableValue, foldableValue, isFoldable_concat h, exactValue_concat h]
  cases (running op init).isFoldable with
  | false => simp
  | true =>
    cases last.isFoldable with
    | false => simp
    | true => simp

theorem foldableValue_short (op : ArithOp) {operands : List (Expr D)}
    (h : operands.length < 2) : foldableValue (.arith op operands) = none := by
  rw [foldableValue, if_neg]
  simp [Expr.isFoldable, h]

theorem exactValue_of_foldableValue {e : Expr D} {q : ℚ} (h : foldableValue e = some q) :
    exactValue e = some q := by
  rw [foldableValue] at h
  split at h
  next => exact h
  next => cases h

/-- The exact value is a 64-bit integer if the expression can be folded. -/
def Good (e : Expr D) : Prop := ∀ q, foldableValue e = some q → IsInt64 q

/-- The constant for an exact value. -/
def ofExact (ops : DoubleOps D) : Option ℚ → ConstValue D
  | some q => .makeInt ops q.num
  | none => .none ops

/-- The expression is folded to its exact value, if it can be folded. -/
def Evaluated (ops : DoubleOps D) (e : Expr D) : Prop :=
  evaluateConstExpr ops e = .ok (ofExact ops (foldableValue e))

/-- The value of an expression differs from what it is folded to. -/
def Deviates (ops : DoubleOps D) (e : Expr D) : Prop :=
  evaluateConstExpr ops e = .error .undefined ∨
    ∃ z : ℤ, evaluateConstExpr ops e = .ok (.makeInt ops z) ∧ (-2 ^ 63 ≤ z ∧ z < 2 ^ 63) ∧
      exactValue e ≠ some (z : ℚ)

theorem evaluated_int (ops : DoubleOps D) (l : IntLiteral) :
    (Good (.int l : Expr D) → Evaluated ops (.int l)) ∧
      (¬ Good (.int l : Expr D) → Deviates ops (.int l)) := by
  obtain ⟨hrange, hvalue⟩ := l.toInt64_spec
  have hgood : Good (.int l : Expr D) ↔ IsInt64 l.value :=
    ⟨fun h => h _ rfl, fun h q hq => Option.some.inj hq ▸ h⟩
  rw [hgood, isInt64_intCast]
  refine ⟨fun h => ?_, fun h => .inr ⟨_, rfl, hrange, fun hq => h ?_⟩⟩
  · change Except.ok (ConstValue.makeInt ops l.toInt64) = .ok (.makeInt ops (l.value : ℚ).num)
    rw [hvalue h.1 h.2, Rat.num_intCast]
  · have hval : l.value = l.toInt64 := Int.cast_inj.mp (Option.some.inj hq)
    rwa [hval]

/-- **One operand more**: if what comes before is folded to 64-bit integers, an operator is
folded to its exact value or deviates. -/
theorem evaluated_concat {op : ArithOp} {init : List (Expr D)} (h : init ≠ []) {last : Expr D}
    (hr : Evaluated ops (running op init)) (hrgood : Good (running op init))
    (hx : (foldableValue (running op init)).isSome → Evaluated ops last ∧ Good last) :
    (Good (.arith op (init ++ [last])) → Evaluated ops (.arith op (init ++ [last]))) ∧
      (¬ Good (.arith op (init ++ [last])) → Deviates ops (.arith op (init ++ [last]))) := by
  have heval := @evaluateConstExpr_concat D ops op init h last
  have hvalue := @foldableValue_concat D op init h last
  -- if either of the two has no value to fold, neither has the whole
  have hnone : foldableValue (.arith op (init ++ [last])) = none →
      evaluateConstExpr ops (.arith op (init ++ [last])) = .ok (.none ops) →
      (Good (.arith op (init ++ [last])) → Evaluated ops (.arith op (init ++ [last]))) ∧
        (¬ Good (.arith op (init ++ [last])) → Deviates ops (.arith op (init ++ [last]))) := by
    intro hno hev
    refine ⟨fun _ => by rw [Evaluated, hno, hev]; rfl, fun hbad => absurd (fun q hq => ?_) hbad⟩
    rw [hno] at hq
    cases hq
  rw [Evaluated] at hr
  cases hrv : foldableValue (running op init) with
  | none =>
    rw [hrv] at hr hvalue
    exact hnone hvalue (by rw [heval, hr]; rfl)
  | some r =>
    obtain ⟨r, rfl, -⟩ := hrgood r hrv
    obtain ⟨hx, hxgood⟩ := hx (by rw [hrv]; rfl)
    rw [Evaluated] at hx
    rw [hrv] at hr hvalue
    cases hxv : foldableValue last with
    | none =>
      rw [hxv] at hx hvalue
      refine hnone hvalue ?_
      rw [heval, hr, ok_bind]
      change foldOperands ops op _ [last] = _
      rw [foldOperands, hx]
      rfl
    | some x =>
      obtain ⟨x, rfl, -⟩ := hxgood x hxv
      rw [hxv] at hx hvalue
      rw [ofExact, Rat.num_intCast] at hr hx
      rw [hr, ok_bind, applyOperand_makeInt hx] at heval
      rw [Option.bind_some, Option.bind_some] at hvalue
      cases hq : op.exactStep r x with
      | none =>
        rw [if_pos (ArithOp.exactStep_eq_none.mp hq)] at heval
        exact hnone (hvalue.trans hq) heval
      | some q =>
        rw [hq] at hvalue
        rw [if_neg fun hdiv => by rw [ArithOp.exactStep_eq_none.mpr hdiv] at hq; cases hq]
          at heval
        obtain ⟨hright, hwrong⟩ := ArithOp.onInt_spec hq
        have hgood : Good (.arith op (init ++ [last])) ↔ IsInt64 q :=
          ⟨fun hg => hg q hvalue, fun hi q' hq' => by
            rw [hvalue] at hq'
            exact Option.some.inj hq' ▸ hi⟩
        rw [hgood]
        refine ⟨fun hi => ?_, fun hi => ?_⟩
        · rw [Evaluated, heval, hright hi, hvalue, ok_bind]
          rfl
        · rcases hwrong hi with hundef | ⟨z, hz, hrange, hne⟩
          · exact .inl (by rw [heval, hundef]; rfl)
          · refine .inr ⟨z, by rw [heval, hz]; rfl, hrange, fun hexact => ?_⟩
            rw [exactValue_of_foldableValue hvalue] at hexact
            exact hne (Option.some.inj hexact)

/-- The complement of an expression, `(- -1 e)`. -/
def complement (e : Expr D) : Expr D := .arith .sub [.int (.int64 (-1)), e]

/-- Evaluation at compile time is defined, and if it returns a natural number, that is the
exact value. -/
def Agrees (ops : DoubleOps D) (e : Expr D) : Prop :=
  ∃ r, (CTValue.expr (some e)).tryEvalNat ops = .ok r ∧
    ∀ n : ℕ, r = some n → exactValue e = some (n : ℚ)

theorem tryEvalNat_makeInt {e : Expr D} {z : ℤ}
    (h : evaluateConstExpr ops e = .ok (.makeInt ops z)) :
    (CTValue.expr (some e)).tryEvalNat ops = .ok (if 0 ≤ z then some z.toNat else none) := by
  rw [CTValue.tryEvalNat, h, ok_bind]
  by_cases hz : 0 ≤ z
  · rw [if_pos hz, if_pos (by simp [ConstValue.makeInt, ConstValue.isInt, hz])]
    rfl
  · rw [if_neg hz, if_neg (by simp [ConstValue.makeInt, hz])]
    rfl

theorem agrees_makeInt {e : Expr D} {z : ℤ}
    (h : evaluateConstExpr ops e = .ok (.makeInt ops z)) :
    Agrees ops e ↔ (0 ≤ z → exactValue e = some (z : ℚ)) := by
  rw [Agrees, tryEvalNat_makeInt h]
  by_cases hz : 0 ≤ z
  · obtain ⟨n, rfl⟩ := Int.eq_ofNat_of_zero_le hz
    rw [if_pos hz]
    constructor
    · rintro ⟨r, hr, hexact⟩ -
      exact hexact n (Except.ok.inj hr).symm
    · refine fun hexact => ⟨_, rfl, fun m hm => ?_⟩
      obtain rfl : n = m := Option.some.inj hm
      exact hexact hz
  · rw [if_neg hz]
    exact ⟨fun _ h0 => absurd h0 hz, fun _ => ⟨none, rfl, fun n hn => by cases hn⟩⟩

theorem agrees_none {e : Expr D} (h : evaluateConstExpr ops e = .ok (.none ops)) :
    Agrees ops e := by
  refine ⟨none, ?_, fun n hn => by cases hn⟩
  rw [CTValue.tryEvalNat, h]
  rfl

theorem exactValue_complement (e : Expr D) :
    exactValue (complement e) = (exactValue e).map fun q => -1 - q := by
  rw [complement, ← List.singleton_append, exactValue_concat (by simp)]
  change ((some ((-1 : ℤ) : ℚ)).bind _) = _
  cases exactValue e with
  | none => rfl
  | some q => simp [ArithOp.exactStep]

theorem evaluate_complement {e : Expr D} {z : ℤ}
    (h : evaluateConstExpr ops e = .ok (.makeInt ops z)) (hz : -2 ^ 63 ≤ z ∧ z < 2 ^ 63) :
    evaluateConstExpr ops (complement e) = .ok (.makeInt ops (-1 - z)) := by
  rw [complement, ← List.singleton_append, evaluateConstExpr_concat ops (by simp)]
  change (Except.ok (ConstValue.makeInt ops (-1)) >>= _) = _
  rw [ok_bind, applyOperand_makeInt h, if_neg (by simp)]
  change (signed 64 (-1 - z) >>= _) = _
  rw [signed_eq_ok (by omega) (by omega), ok_bind]

theorem agrees_both_iff {e : Expr D} {z : ℤ}
    (h : evaluateConstExpr ops e = .ok (.makeInt ops z)) (hz : -2 ^ 63 ≤ z ∧ z < 2 ^ 63) :
    Agrees ops e ∧ Agrees ops (complement e) ↔ exactValue e = some (z : ℚ) := by
  rw [agrees_makeInt h, agrees_makeInt (evaluate_complement h hz), exactValue_complement]
  constructor
  · rintro ⟨hpos, hneg⟩
    by_cases h0 : 0 ≤ z
    · exact hpos h0
    · have hmap := hneg (by omega)
      obtain ⟨q, hq, hqz⟩ := Option.map_eq_some_iff.mp hmap
      rw [hq, Option.some.injEq]
      push_cast at hqz
      linarith
  · intro hexact
    refine ⟨fun _ => hexact, fun _ => ?_⟩
    rw [hexact]
    simp

/-! ### Parts -/

/-- A part of an expression that its evaluation comes to: an operator on its leading operands, and
an operand if what comes before it has a value, at any depth. -/
inductive Part : Expr D → Expr D → Prop
  | refl (e : Expr D) : Part e e
  | leading {d : Expr D} {op : ArithOp} {init : List (Expr D)} {last : Expr D} (h : init ≠ []) :
      Part d (running op init) → Part d (.arith op (init ++ [last]))
  | operand {d : Expr D} {op : ArithOp} {init : List (Expr D)} {last : Expr D} (h : init ≠ []) :
      (foldableValue (running op init)).isSome → Part d last → Part d (.arith op (init ++ [last]))

theorem Part.trans {c d e : Expr D} (hcd : Part c d) (hde : Part d e) : Part c e := by
  induction hde with
  | refl => exact hcd
  | leading h _ ih => exact .leading h ih
  | operand h hvalue _ ih => exact .operand h hvalue ih

theorem Part.isIntegral {d e : Expr D} (h : Part d e) (he : e.isIntegral = true) :
    d.isIntegral = true := by
  induction h with
  | refl => exact he
  | leading h _ ih =>
    rw [isIntegral_concat h, Bool.and_eq_true] at he
    exact ih he.1
  | operand h _ _ ih =>
    rw [isIntegral_concat h, Bool.and_eq_true] at he
    exact ih he.2

theorem part_concat {op : ArithOp} {init : List (Expr D)} {d last : Expr D}
    (h : Part d (.arith op (init ++ [last]))) :
    d = .arith op (init ++ [last]) ∨ Part d (running op init) ∨
      (foldableValue (running op init)).isSome ∧ Part d last := by
  generalize he : Expr.arith op (init ++ [last]) = e at h
  cases h with
  | refl => exact .inl rfl
  | leading _ hd =>
    obtain ⟨rfl, happ⟩ := Expr.arith.inj he
    obtain ⟨rfl, -⟩ := List.append_inj' happ rfl
    exact .inr (.inl hd)
  | operand _ hvalue hd =>
    obtain ⟨rfl, happ⟩ := Expr.arith.inj he
    obtain ⟨rfl, hlast⟩ := List.append_inj' happ rfl
    obtain rfl := (List.cons.inj hlast).1
    exact .inr (.inr ⟨hvalue, hd⟩)

theorem part_short {op : ArithOp} {operands : List (Expr D)} {d : Expr D}
    (hshort : operands.length < 2) (h : Part d (.arith op operands)) :
    d = .arith op operands := by
  generalize he : Expr.arith op operands = e at h
  cases h with
  | refl => rfl
  | leading hinit _ =>
    obtain ⟨-, rfl⟩ := Expr.arith.inj he
    have := List.length_pos_of_ne_nil hinit
    rw [List.length_append, List.length_singleton] at hshort
    omega
  | operand hinit _ _ =>
    obtain ⟨-, rfl⟩ := Expr.arith.inj he
    have := List.length_pos_of_ne_nil hinit
    rw [List.length_append, List.length_singleton] at hshort
    omega

theorem part_int {l : IntLiteral} {d : Expr D} (h : Part d (.int l)) : d = .int l := by
  cases h
  rfl

theorem evaluateConstExpr_sound {e : Expr D} (he : e.isIntegral = true)
    (hgood : ∀ d, Part d e → Good d) : Evaluated ops e := by
  induction e using Expr.induction_running with
  | int l => exact (evaluated_int ops l).1 (hgood _ (.refl _))
  | double v => cases he
  | other => cases he
  | short op operands hshort =>
    rw [Evaluated, foldableValue_short op hshort, evaluateConstExpr, if_pos hshort]
    rfl
  | concat op init last hinit hrun hlast =>
    rw [isIntegral_concat hinit, Bool.and_eq_true] at he
    have hr : ∀ d, Part d (running op init) → Good d := fun d hd => hgood d (.leading hinit hd)
    refine (evaluated_concat hinit (hrun he.1 hr) (hr _ (.refl _)) fun hvalue => ?_).1
      (hgood _ (.refl _))
    have hx : ∀ d, Part d last → Good d := fun d hd => hgood d (.operand hinit hvalue hd)
    exact ⟨hlast he.2 hx, hx _ (.refl _)⟩

theorem Deviates.not_agrees {e : Expr D} (h : Deviates ops e) :
    ¬ (Agrees ops e ∧ Agrees ops (complement e)) := by
  rintro ⟨hagrees, hcompl⟩
  rcases h with hundef | ⟨z, hz, hrange, hne⟩
  · obtain ⟨r, hr, -⟩ := hagrees
    rw [CTValue.tryEvalNat, hundef] at hr
    cases hr
  · exact hne ((agrees_both_iff hz hrange).mp ⟨hagrees, hcompl⟩)

/-- **Completeness**: where an expression agrees with its parts and their complements, the parts
have 64-bit integers as their exact values. -/
theorem good_of_agrees {e : Expr D} (he : e.isIntegral = true)
    (hall : ∀ d, Part d e → Agrees ops d ∧ Agrees ops (complement d)) :
    ∀ d, Part d e → Good d := by
  induction e using Expr.induction_running with
  | int l =>
    intro d hd
    rw [part_int hd]
    exact not_not.mp fun hbad => ((evaluated_int ops l).2 hbad).not_agrees (hall _ (.refl _))
  | double v => cases he
  | other => cases he
  | short op operands hshort =>
    intro d hd q hq
    rw [part_short hshort hd, foldableValue_short op hshort] at hq
    cases hq
  | concat op init last hinit hrun hlast =>
    rw [isIntegral_concat hinit, Bool.and_eq_true] at he
    have hr := hrun he.1 fun d hd => hall d (.leading hinit hd)
    have hx (hvalue : (foldableValue (running op init)).isSome) :=
      hlast he.2 fun d hd => hall d (.operand hinit hvalue hd)
    intro d hd
    rcases part_concat hd with rfl | hd | ⟨hvalue, hd⟩
    · have hrun' : Evaluated ops (running op init) := evaluateConstExpr_sound he.1 hr
      have hstep := evaluated_concat hinit hrun' (hr _ (.refl _)) fun hvalue =>
        ⟨evaluateConstExpr_sound he.2 (hx hvalue), hx hvalue _ (.refl _)⟩
      exact not_not.mp fun hbad => (hstep.2 hbad).not_agrees (hall _ (.refl _))
    · exact hr d hd
    · exact hx hvalue d hd

theorem agrees_of_evaluated {e : Expr D} (h : Evaluated ops e) (hgood : Good e) :
    Agrees ops e ∧ Agrees ops (complement e) := by
  rw [Evaluated] at h
  cases hv : foldableValue e with
  | none =>
    rw [hv] at h
    refine ⟨agrees_none h, agrees_none ?_⟩
    rw [complement, ← List.singleton_append, evaluateConstExpr_concat ops (by simp)]
    change (Except.ok (ConstValue.makeInt ops (-1)) >>= _) = _
    rw [ok_bind]
    change foldOperands ops _ _ [e] = _
    rw [foldOperands, h]
    rfl
  | some q =>
    obtain ⟨z, rfl, hz⟩ := hgood q hv
    rw [hv, ofExact, Rat.num_intCast] at h
    exact (agrees_both_iff h hz).mpr (exactValue_of_foldableValue hv)

end

/-- The parts that the evaluation comes to and that have a value have 64-bit integers as their
values. -/
def StaysInt64 (e : Expr D) : Prop :=
  ∀ d, Part d e → d.isFoldable = true → ∀ q, exactValue d = some q → IsInt64 q

theorem good_iff {d : Expr D} :
    Good d ↔ (d.isFoldable = true → ∀ q, exactValue d = some q → IsInt64 q) := by
  rw [Good, foldableValue]
  cases d.isFoldable with
  | false => simp
  | true => simp

theorem agrees_of_staysInt64 (ops : DoubleOps D) {d e : Expr D} (he : e.isIntegral = true)
    (h : StaysInt64 e) (hd : Part d e) : Agrees ops d ∧ Agrees ops (complement d) := by
  have hparts : ∀ c, Part c e → Good c := fun c hc => good_iff.mpr (h c hc)
  exact agrees_of_evaluated
    (evaluateConstExpr_sound (hd.isIntegral he) fun c hc => hparts c (hc.trans hd)) (hparts d hd)

/-- **Folding agrees with exact arithmetic** at an expression all of whose parts that the
evaluation comes to, if they have a value, have a 64-bit integer as their value; and the condition
is necessary for these parts and their complements to agree. -/
theorem tryEvalNat_exact_iff (ops : DoubleOps D) {e : Expr D} (he : e.isIntegral = true) :
    (StaysInt64 e → Agrees ops e) ∧
    ((∀ d, Part d e → Agrees ops d ∧ Agrees ops (complement d)) ↔ StaysInt64 e) :=
  ⟨fun h => (agrees_of_staysInt64 ops he h (.refl _)).1,
    fun hall d hd => good_iff.mp (good_of_agrees he hall d hd),
    fun h _ hd => agrees_of_staysInt64 ops he h hd⟩

/-- Rational numbers for doubles, which they are like on integers of at most 53 bits. -/
def rationalOps : DoubleOps ℚ where
  ofInt z := z
  add := (· + ·)
  sub := (· - ·)
  mul := (· * ·)
  div := (· / ·)
  eq p q := p = q
  isZero q := q = 0
  isNonneg q := 0 ≤ q
  integralPart q := some (q.num.tdiv q.den)

/-- `(/ (* 6 7) 2)` agrees, and so does `(+ (/ 1 0) (/ 7 2))`, whose evaluation stops at the first
operand. -/
theorem tryEvalNat_exact_iff_quotient :
    Agrees rationalOps
      (.arith .div [.arith .mul [.int (.int64 6), .int (.int32 7)], .int (.uint8 2)]) ∧
    Agrees rationalOps (.arith .add [.arith .div [.int (.int64 1), .int (.int64 0)],
      .arith .div [.int (.int64 7), .int (.int64 2)]]) := by
  have hint : ∀ (l : IntLiteral) (d : Expr ℚ), Part d (.int l) → l.toInt64 = l.value →
      ∀ q, exactValue d = some q → IsInt64 q := by
    intro l d hd hl q hq
    rw [part_int hd] at hq
    obtain rfl := Option.some.inj hq
    rw [isInt64_intCast, ← hl]
    exact l.toInt64_spec.1
  refine ⟨(tryEvalNat_exact_iff rationalOps rfl).1 fun d hd _ q hq => ?_,
    (tryEvalNat_exact_iff rationalOps rfl).1 fun d hd _ q hq => ?_⟩
  · rcases @part_concat ℚ .div [_] d _ hd with rfl | hd | ⟨-, hd⟩
    · obtain rfl : 1 * 6 * 7 / 2 = q := Option.some.inj hq
      exact ⟨21, by norm_num, by omega, by omega⟩
    · rcases @part_concat ℚ .mul [_] d _ hd with rfl | hd | ⟨-, hd⟩
      · obtain rfl : 1 * 6 * 7 = q := Option.some.inj hq
        exact ⟨42, by norm_num, by omega, by omega⟩
      · exact hint _ d hd rfl q hq
      · exact hint _ d hd rfl q hq
    · exact hint _ d hd rfl q hq
  · rcases @part_concat ℚ .add [_] d _ hd with rfl | hd | ⟨hvalue, -⟩
    · cases hq
    · rcases @part_concat ℚ .div [_] d _ hd with rfl | hd | ⟨-, hd⟩
      · cases hq
      · exact hint _ d hd rfl q hq
      · exact hint _ d hd rfl q hq
    · cases hvalue

/-- `(/ 7 2)` is folded to `3`. -/
theorem tryEvalNat_truncates :
    ¬ ∀ e : Expr ℚ, e.isIntegral = true → ∀ n : ℕ,
      (CTValue.expr (some e)).tryEvalNat rationalOps = .ok (some n) →
        exactValue e = some (n : ℚ) := by
  intro h
  have h3 := h (.arith .div [.int (.int64 7), .int (.int64 2)]) rfl 3 rfl
  have h7 : exactValue (.arith .div [.int (.int64 7), .int (.int64 2)] : Expr ℚ) =
      some (7 / 2) := rfl
  rw [h7] at h3
  norm_num at h3

end Eshkol.Types
