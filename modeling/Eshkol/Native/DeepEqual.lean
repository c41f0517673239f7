import Mathlib.Data.String.Basic
import Eshkol.Native.HashKeys
import Eshkol.Native.Logic

/-!
# Structural Equality

`eshkol_deep_equal` (`lib/core/runtime_deep_equal.cpp`), the runtime of `equal?`, over the
heap: a tagged word is a type byte with a payload, and a pointer payload leads to an object
with a header. The tests on type bytes and header subtypes are made in the order of the
source. Pairs and vectors may be cyclic, so the walk takes fuel.

A word that is an exact datum has a view: the datum one level deep. The tests see of such a
word only its kind.
-/

open Machine

namespace Eshkol.DeepEqual

/-! ### The heap -/

/-- `eshkol_tagged_value_t`, with its padding. -/
structure Word where
  type : UInt8
  flags : UInt8
  reserved : UInt16
  padding : UInt32
  data : UInt64
  deriving DecidableEq

/-- `eshkol_tensor_t`: the element array as 64-bit words, and as tagged values when the
element type is `ESHKOL_TENSOR_DTYPE_DUAL`. -/
structure Tensor where
  dimensions : List UInt64
  totalElements : ℕ
  element : ℕ → UInt64
  duals : Option (List Word)

/-- An object of the heap by the subtype of its header. A complex number has no header and is
found through its type byte. The numbers satisfy the invariants of their constructors. -/
inductive Object : Type
  | cons (car cdr : Word)
  | string (bytes : List UInt8)
  | vector (items : List Word)
  | tensor (t : Tensor)
  | bytevector (bytes : List UInt8)
  | symbol (bytes : List UInt8)
  | bignum (b : {b : Bignum // b.Normalized})
  | rational (r : {r : Rational // r.Canonical})
  | complex (real imag : UInt64)
  | other (subtype : UInt8)

namespace Object

/-- `HEAP_SUBTYPE_CONS`. -/
def isCons : Object → Bool
  | cons _ _ => true
  | _ => false

/-- `HEAP_SUBTYPE_STRING`. -/
def isString : Object → Bool
  | string _ => true
  | _ => false

/-- `HEAP_SUBTYPE_SYMBOL`. -/
def isSymbol : Object → Bool
  | symbol _ => true
  | _ => false

/-- `HEAP_SUBTYPE_BIGNUM`. -/
def isBignum : Object → Bool
  | bignum _ => true
  | _ => false

/-- `HEAP_SUBTYPE_VECTOR`. -/
def isVector : Object → Bool
  | vector _ => true
  | _ => false

/-- `HEAP_SUBTYPE_TENSOR`. -/
def isTensor : Object → Bool
  | tensor _ => true
  | _ => false

/-- `HEAP_SUBTYPE_RATIONAL`. -/
def isRational : Object → Bool
  | rational _ => true
  | _ => false

end Object

/-- What the addresses hold. -/
abbrev Memory : Type := UInt64 → Option Object

/-! ### Tests -/

def getBaseType (t : UInt8) : UInt8 := if t ≥ 8 then t else t &&& 0x0F

/-- The test `type == ESHKOL_VALUE_HEAP_PTR && ptr_val` with a test of the header. -/
def hasSubtype (test : Object → Bool) (heap : Memory) (type : UInt8) (v : Word) : Exec Empty Bool :=
  if type = 8 ∧ v.data ≠ 0 then
    match heap v.data with
    | some o => .ok (test o)
    | none => .error .undefined
  else .ok false

def isCons (heap : Memory) (type : UInt8) (v : Word) : Exec Empty Bool :=
  if type = 32 then .ok true else hasSubtype Object.isCons heap type v

def isEmptyList (type : UInt8) (v : Word) : Bool :=
  type = 0 || (type = 32 && v.data = 0) || (type = 8 && v.data = 0)

def isString (heap : Memory) (type : UInt8) (v : Word) : Exec Empty Bool :=
  if type = 33 then .ok true else hasSubtype Object.isString heap type v

/-! ### Payloads -/

/-- The cell behind a pointer. -/
def loadCons (heap : Memory) (p : UInt64) : Exec Empty (Word × Word) :=
  match heap p with
  | some (.cons car cdr) => .ok (car, cdr)
  | _ => .error .undefined

/-- The bytes a C string function sees. -/
def cString (bytes : List UInt8) : List UInt8 := bytes.takeWhile (· ≠ 0)

/-- The C string behind a pointer. -/
def loadChars (heap : Memory) (p : UInt64) : Exec Empty (List UInt8) :=
  match heap p with
  | some (.string bytes) => .ok (cString bytes)
  | some (.symbol bytes) => .ok (cString bytes)
  | _ => .error .undefined

/-- The comparison of two strings or two symbols: one address, or `strcmp`. -/
def charsEqual (heap : Memory) (val1 val2 : Word) : Exec Empty Bool :=
  if val1.data = val2.data then .ok true
  else if val1.data = 0 ∨ val2.data = 0 then .ok false
  else do
    let s1 ← loadChars heap val1.data
    let s2 ← loadChars heap val2.data
    .ok (s1 == s2)

/-- The bignum behind a pointer. -/
def loadBignum (heap : Memory) (p : UInt64) : Exec Empty Bignum :=
  match heap p with
  | some (.bignum b) => .ok b.1
  | _ => .error .undefined

/-- The rational behind a pointer. -/
def loadRational (heap : Memory) (p : UInt64) : Exec Empty Rational :=
  match heap p with
  | some (.rational r) => .ok r.1
  | _ => .error .undefined

/-- The slots of a vector. -/
def loadVector (heap : Memory) (p : UInt64) : Exec Empty (List Word) :=
  match heap p with
  | some (.vector items) => .ok items
  | _ => .error .undefined

/-- The tensor behind a pointer. -/
def loadTensor (heap : Memory) (p : UInt64) : Exec Empty Tensor :=
  match heap p with
  | some (.tensor t) => .ok t
  | _ => .error .undefined

/-- The components of a complex number. -/
def loadComplex (heap : Memory) (p : UInt64) : Exec Empty (UInt64 × UInt64) :=
  match heap p with
  | some (.complex real imag) => .ok (real, imag)
  | _ => .error .undefined

def eshkolRationalEqual : Rational → Rational → Bool
  | .small n d, .small n' d' => n == n' && d == d'
  | .big n d, .big n' d' => eshkolBignumCompare n n' == 0 && eshkolBignumCompare d d' == 0
  | _, _ => false

/-- The comparison of two tensors. -/
def tensorEqual (t1 t2 : Tensor) : Bool :=
  t1.dimensions.length == t2.dimensions.length && t1.totalElements == t2.totalElements &&
    t1.dimensions == t2.dimensions &&
    (List.range t1.totalElements).all fun i => doubleEqual (t1.element i) (t2.element i)

/-- The elements of a tensor as tagged values: the duals, or `DOUBLE` words. -/
def tensorItems (t : Tensor) : List Word :=
  match t.duals with
  | some items => items
  | none => (List.range t.totalElements).map fun i => ⟨2, 0x20, 0, 0, t.element i⟩

/-- The element loop of two vectors. -/
def itemsEqual (equal : Word → Word → Exec Empty Bool) : List Word → List Word → Exec Empty Bool
  | x :: xs, y :: ys => do
      let same ← equal x y
      if same then itemsEqual equal xs ys else .ok false
  | _, _ => .ok true

/-- The comparison of a tensor with a vector. -/
def tensorVectorEqual (equal : Word → Word → Exec Empty Bool) (t : Tensor) (items : List Word) :
    Exec Empty Bool :=
  if t.dimensions.length ≠ 1 then .ok false
  else if items.length ≠ t.totalElements then .ok false
  else itemsEqual equal (tensorItems t) items

/-- A payload as a `double`. -/
def asDouble (toDouble : Int64 → UInt64) (type : UInt8) (v : Word) : UInt64 :=
  if type = 2 then v.data else toDouble v.data.toInt64

/-! ### `eshkol_deep_equal` -/

/-- The `switch` at the end, for two values of one type. -/
def sameTypeEqual (heap : Memory) (type : UInt8) (val1 val2 : Word) : Exec Empty Bool :=
  if type = 1 ∨ type = 3 then .ok (val1.data == val2.data)
  else if type = 2 then .ok (doubleEqual val1.data val2.data)
  else if type = 33 then charsEqual heap val1 val2
  else .ok (val1.data == val2.data)

/-- From the test for rationals on. -/
def numbersEqual (heap : Memory) (type1 type2 : UInt8) (val1 val2 : Word) : Exec Empty Bool := do
  let isRat1 ← hasSubtype Object.isRational heap type1 val1
  let isRat2 ← hasSubtype Object.isRational heap type2 val2
  if isRat1 && isRat2 then
    let r1 ← loadRational heap val1.data
    let r2 ← loadRational heap val2.data
    .ok (eshkolRationalEqual r1 r2)
  else if type1 = 7 ∧ type2 = 7 then
    if val1.data = val2.data then .ok true
    else if val1.data = 0 ∨ val2.data = 0 then .ok false
    else
      let (re1, im1) ← loadComplex heap val1.data
      let (re2, im2) ← loadComplex heap val2.data
      .ok (doubleEqual re1 re2 && doubleEqual im1 im2)
  else if type1 ≠ type2 then .ok false
  else sameTypeEqual heap type1 val1 val2

/-- From the tests for vectors and tensors on. -/
def vectorsEqual (equal : Word → Word → Exec Empty Bool) (heap : Memory) (type1 type2 : UInt8)
    (val1 val2 : Word) : Exec Empty Bool := do
  let isV1 ← hasSubtype Object.isVector heap type1 val1
  let isV2 ← hasSubtype Object.isVector heap type2 val2
  let isT1 ← hasSubtype Object.isTensor heap type1 val1
  let isT2 ← hasSubtype Object.isTensor heap type2 val2
  if isT1 && isT2 then
    if val1.data = val2.data then .ok true
    else
      let t1 ← loadTensor heap val1.data
      let t2 ← loadTensor heap val2.data
      .ok (tensorEqual t1 t2)
  else if isT1 && isV2 then
    let t ← loadTensor heap val1.data
    let items ← loadVector heap val2.data
    tensorVectorEqual equal t items
  else if isV1 && isT2 then
    let t ← loadTensor heap val2.data
    let items ← loadVector heap val1.data
    tensorVectorEqual equal t items
  else if isV1 && isV2 then
    if val1.data = val2.data then .ok true
    else
      let items1 ← loadVector heap val1.data
      let items2 ← loadVector heap val2.data
      if items1.length ≠ items2.length then .ok false else itemsEqual equal items1 items2
  else numbersEqual heap type1 type2 val1 val2

/-- From the test for an integer against a double on. -/
def integersEqual (toDouble : Int64 → UInt64) (equal : Word → Word → Exec Empty Bool)
    (heap : Memory) (type1 type2 : UInt8) (val1 val2 : Word) : Exec Empty Bool :=
  if (type1 = 1 ∧ type2 = 2) ∨ (type1 = 2 ∧ type2 = 1) then
    .ok (doubleEqual (asDouble toDouble type1 val1) (asDouble toDouble type2 val2))
  else do
    let isBn1 ← hasSubtype Object.isBignum heap type1 val1
    let isBn2 ← hasSubtype Object.isBignum heap type2 val2
    if isBn1 && isBn2 then
      let b1 ← loadBignum heap val1.data
      let b2 ← loadBignum heap val2.data
      .ok (eshkolBignumCompare b1 b2 == 0)
    else if isBn1 && type2 = 1 then
      let b1 ← loadBignum heap val1.data
      .ok (eshkolBignumCompareInt64 b1 val2.data.toInt64 == 0)
    else if type1 = 1 && isBn2 then
      let b2 ← loadBignum heap val2.data
      .ok (eshkolBignumCompareInt64 b2 val1.data.toInt64 == 0)
    else vectorsEqual equal heap type1 type2 val1 val2

/-- From the test for pairs on. -/
def objectsEqual (toDouble : Int64 → UInt64) (equal : Word → Word → Exec Empty Bool)
    (heap : Memory) (type1 type2 : UInt8) (val1 val2 : Word) : Exec Empty Bool := do
  let isCons1 ← isCons heap type1 val1
  let isCons2 ← isCons heap type2 val2
  if isCons1 && isCons2 then
    let (car1, cdr1) ← loadCons heap val1.data
    let (car2, cdr2) ← loadCons heap val2.data
    let same ← equal car1 car2
    if same then equal cdr1 cdr2 else .ok false
  else
    let isStr1 ← isString heap type1 val1
    let isStr2 ← isString heap type2 val2
    if isStr1 && isStr2 then charsEqual heap val1 val2
    else
      let isSym1 ← hasSubtype Object.isSymbol heap type1 val1
      let isSym2 ← hasSubtype Object.isSymbol heap type2 val2
      if isSym1 && isSym2 then charsEqual heap val1 val2
      else integersEqual toDouble equal heap type1 type2 val1 val2

/-- `eshkol_deep_equal`; `toDouble` is the conversion of an `int64_t`. -/
def eshkolDeepEqual (toDouble : Int64 → UInt64) (heap : Memory) : ℕ → Word → Word → Exec Empty Bool
  | 0, _, _ => .error .diverges
  | fuel + 1, val1, val2 =>
    let type1 := getBaseType val1.type
    let type2 := getBaseType val2.type
    if type1 = 11 ∨ type2 = 11 then
      if type1 ≠ 11 ∨ type2 ≠ 11 then .ok false
      else .ok (f32Equal (f32ToBits val1.flags val1.reserved val1.padding val1.data)
        (f32ToBits val2.flags val2.reserved val2.padding val2.data))
    else
      let empty1 := isEmptyList type1 val1
      let empty2 := isEmptyList type2 val2
      if empty1 && empty2 then .ok true
      else if empty1 || empty2 then .ok false
      else objectsEqual toDouble (eshkolDeepEqual toDouble heap fuel) heap type1 type2 val1 val2

/-- One level of a datum, with the words of its parts. -/
inductive View : Type
  | null
  | bool (b : Bool)
  | char (c : Char)
  | number (q : ℚ)
  | string (bytes : List UInt8)
  | symbol (bytes : List UInt8)
  | bytevector (bytes : List UInt8)
  | pair (car cdr : Word)
  | vector (items : List Word)

/-- One level of the datum that an object is. -/
def Object.view : Object → Option View
  | cons car cdr => some (.pair car cdr)
  | string bytes => some (.string bytes)
  | vector items => some (.vector items)
  | bytevector bytes => some (.bytevector bytes)
  | symbol bytes => some (.symbol bytes)
  | bignum b => some (.number b.1.toInt)
  | rational r => some (.number r.1.toRat)
  | tensor _ | complex _ _ | other _ => none

/-- One level of the exact datum that a word is. Pairs and strings also occur with the type
bytes `CONS_PTR` and `STRING_PTR`; the legacy words of symbols are left out. -/
def view (heap : Memory) (v : Word) : Option View :=
  if v.type = 0 then some .null
  else if v.type = 1 then some (.number v.data.toInt64.toInt)
  else if v.type = 3 then
    if v.data = 0 then some (.bool false) else if v.data = 1 then some (.bool true) else none
  else if v.type = 4 then
    if h : v.data.toNat.isValidChar then some (.char (Char.ofNatAux v.data.toNat h)) else none
  else if v.type = 8 then
    if v.data = 0 then some .null else (heap v.data).bind Object.view
  else if v.type = 32 then
    if v.data = 0 then some .null
    else match heap v.data with
      | some (.cons car cdr) => some (.pair car cdr)
      | _ => none
  else if v.type = 33 then
    if v.data = 0 then none
    else match heap v.data with
      | some (.string bytes) => some (.string bytes)
      | _ => none
  else none

/-! ### Kinds of words -/

/-- What the tests of `eshkol_deep_equal` see of a word that represents a datum. -/
inductive Kind : Type
  | null
  | immediate
  | string
  | symbol
  | bytevector
  | bignum
  | rational
  | pair
  | vector
  deriving DecidableEq

/-- The type byte and the object of a word of a kind. -/
def HasKind (heap : Memory) (v : Word) : Kind → Prop
  | .null => v.type = 0 ∨ (v.type = 8 ∨ v.type = 32) ∧ v.data = 0
  | .immediate => v.type = 1 ∨ v.type = 3 ∨ v.type = 4
  | .string => (v.type = 8 ∨ v.type = 33) ∧ v.data ≠ 0 ∧ ∃ s, heap v.data = some (.string s)
  | .symbol => v.type = 8 ∧ v.data ≠ 0 ∧ ∃ s, heap v.data = some (.symbol s)
  | .bytevector => v.type = 8 ∧ v.data ≠ 0 ∧ ∃ s, heap v.data = some (.bytevector s)
  | .bignum => v.type = 8 ∧ v.data ≠ 0 ∧ ∃ b, heap v.data = some (.bignum b)
  | .rational => v.type = 8 ∧ v.data ≠ 0 ∧ ∃ r, heap v.data = some (.rational r)
  | .pair => (v.type = 8 ∨ v.type = 32) ∧ v.data ≠ 0 ∧ ∃ a d, heap v.data = some (.cons a d)
  | .vector => v.type = 8 ∧ v.data ≠ 0 ∧ ∃ xs, heap v.data = some (.vector xs)

/-- What a word holds, by its view and its kind. -/
def Shows (heap : Memory) (v : Word) : View → Kind → Prop
  | .null, k => k = .null
  | .bool b, k => k = .immediate ∧ v.type = 3 ∧ v.data = if b then 1 else 0
  | .char c, k => k = .immediate ∧ v.type = 4 ∧ v.data.toNat = c.val.toNat
  | .number q, k =>
    (k = .immediate ∧ v.type = 1 ∧ q = v.data.toInt64.toInt) ∨
      v.type = 8 ∧ ((k = .bignum ∧ ∃ b, heap v.data = some (.bignum b) ∧ q = b.1.toInt) ∨
        k = .rational ∧ ∃ r, heap v.data = some (.rational r) ∧ q = r.1.toRat)
  | .string s, k => k = .string ∧ heap v.data = some (.string s)
  | .symbol s, k => k = .symbol ∧ heap v.data = some (.symbol s)
  | .bytevector s, k => k = .bytevector ∧ v.type = 8 ∧ heap v.data = some (.bytevector s)
  | .pair car cdr, k => k = .pair ∧ heap v.data = some (.cons car cdr)
  | .vector items, k => k = .vector ∧ heap v.data = some (.vector items)

theorem Object.view_shows {heap : Memory} {v : Word} {x : View} (ht : v.type = 8)
    (hd : v.data ≠ 0) {o : Object} (ho : heap v.data = some o) (h : o.view = some x) :
    ∃ k, HasKind heap v k ∧ Shows heap v x k := by
  cases o with
  | cons car cdr =>
    cases h
    exact ⟨.pair, ⟨.inl ht, hd, _, _, ho⟩, rfl, ho⟩
  | string bytes =>
    cases h
    exact ⟨.string, ⟨.inl ht, hd, _, ho⟩, rfl, ho⟩
  | vector items =>
    cases h
    exact ⟨.vector, ⟨ht, hd, _, ho⟩, rfl, ho⟩
  | bytevector bytes =>
    cases h
    exact ⟨.bytevector, ⟨ht, hd, _, ho⟩, rfl, ht, ho⟩
  | symbol bytes =>
    cases h
    exact ⟨.symbol, ⟨ht, hd, _, ho⟩, rfl, ho⟩
  | bignum b =>
    cases h
    exact ⟨.bignum, ⟨ht, hd, _, ho⟩, .inr ⟨ht, .inl ⟨rfl, b, ho, rfl⟩⟩⟩
  | rational r =>
    cases h
    exact ⟨.rational, ⟨ht, hd, _, ho⟩, .inr ⟨ht, .inr ⟨rfl, r, ho, rfl⟩⟩⟩
  | tensor | complex | other => cases h

/-- A view shows the value behind a pointer. -/
theorem view_shows {heap : Memory} {v : Word} {x : View} (h : view heap v = some x) :
    ∃ k, HasKind heap v k ∧ Shows heap v x k := by
  rw [view] at h
  by_cases ht : v.type = 0
  · rw [if_pos ht] at h
    cases h
    exact ⟨.null, .inl ht, rfl⟩
  rw [if_neg ht] at h
  by_cases ht : v.type = 1
  · rw [if_pos ht] at h
    cases h
    exact ⟨.immediate, .inl ht, .inl ⟨rfl, ht, rfl⟩⟩
  rw [if_neg ht] at h
  by_cases ht : v.type = 3
  · rw [if_pos ht] at h
    split at h
    next hd =>
      cases h
      exact ⟨.immediate, .inr (.inl ht), rfl, ht, hd⟩
    split at h
    next hd =>
      cases h
      exact ⟨.immediate, .inr (.inl ht), rfl, ht, hd⟩
    next => cases h
  rw [if_neg ht] at h
  by_cases ht : v.type = 4
  · rw [if_pos ht] at h
    by_cases hc : v.data.toNat.isValidChar
    · rw [dif_pos hc] at h
      cases h
      exact ⟨.immediate, .inr (.inr ht), rfl, ht, rfl⟩
    · rw [dif_neg hc] at h
      cases h
  rw [if_neg ht] at h
  by_cases ht : v.type = 8
  · rw [if_pos ht] at h
    split at h
    next hd =>
      cases h
      exact ⟨.null, .inr ⟨.inl ht, hd⟩, rfl⟩
    next hd =>
      obtain ⟨o, ho, h⟩ := Option.bind_eq_some_iff.mp h
      exact Object.view_shows ht hd ho h
  rw [if_neg ht] at h
  by_cases ht : v.type = 32
  · rw [if_pos ht] at h
    split at h
    next hd =>
      cases h
      exact ⟨.null, .inr ⟨.inr ht, hd⟩, rfl⟩
    next hd =>
      split at h
      next car cdr ho =>
        cases h
        exact ⟨.pair, ⟨.inr ht, hd, _, _, ho⟩, rfl, ho⟩
      next => cases h
  rw [if_neg ht] at h
  by_cases ht : v.type = 33
  · rw [if_pos ht] at h
    split at h
    next hd => cases h
    next hd =>
      split at h
      next bytes ho =>
        cases h
        exact ⟨.string, ⟨.inr ht, hd, _, ho⟩, rfl, ho⟩
      next => cases h
  rw [if_neg ht] at h
  cases h

/-- What the tests answer. -/
structure Tests (heap : Memory) (v : Word) (k : Kind) : Prop where
  baseType : getBaseType v.type = v.type
  not_f32 : v.type ≠ 11
  not_double : v.type ≠ 2
  not_complex : v.type ≠ 7
  legacy : v.type = 33 → k = .string
  empty : isEmptyList v.type v = decide (k = .null)
  cons : k ≠ .null → isCons heap v.type v = .ok (decide (k = .pair))
  string : k ≠ .null → isString heap v.type v = .ok (decide (k = .string))
  symbol : k ≠ .null → hasSubtype Object.isSymbol heap v.type v = .ok (decide (k = .symbol))
  bignum : k ≠ .null → hasSubtype Object.isBignum heap v.type v = .ok (decide (k = .bignum))
  vector : k ≠ .null → hasSubtype Object.isVector heap v.type v = .ok (decide (k = .vector))
  tensor : k ≠ .null → hasSubtype Object.isTensor heap v.type v = .ok false
  rational : k ≠ .null → hasSubtype Object.isRational heap v.type v = .ok (decide (k = .rational))

section Subtypes

variable {heap : Memory} {v : Word} (test : Object → Bool)

theorem hasSubtype_object (ht : v.type = 8) (hd : v.data ≠ 0) {o : Object}
    (ho : heap v.data = some o) : hasSubtype test heap v.type v = .ok (test o) := by
  rw [hasSubtype, if_pos ⟨ht, hd⟩, ho]

end Subtypes

theorem tests_object {heap : Memory} {v : Word} {k : Kind} (ht : v.type = 8) (hd : v.data ≠ 0)
    {o : Object} (ho : heap v.data = some o) (hk : k ≠ .null)
    (hcons : o.isCons = decide (k = .pair)) (hstring : o.isString = decide (k = .string))
    (hsymbol : o.isSymbol = decide (k = .symbol)) (hbignum : o.isBignum = decide (k = .bignum))
    (hvector : o.isVector = decide (k = .vector)) (htensor : o.isTensor = false)
    (hrational : o.isRational = decide (k = .rational)) : Tests heap v k where
  baseType := by rw [ht]; rfl
  not_f32 := by rw [ht]; decide
  not_double := by rw [ht]; decide
  not_complex := by rw [ht]; decide
  legacy h := absurd (ht.symm.trans h) (by decide)
  empty := by simp [isEmptyList, ht, hd, hk]
  cons _ := by rw [isCons, if_neg (by rw [ht]; decide), hasSubtype_object _ ht hd ho, hcons]
  string _ := by rw [isString, if_neg (by rw [ht]; decide), hasSubtype_object _ ht hd ho, hstring]
  symbol _ := by rw [hasSubtype_object _ ht hd ho, hsymbol]
  bignum _ := by rw [hasSubtype_object _ ht hd ho, hbignum]
  vector _ := by rw [hasSubtype_object _ ht hd ho, hvector]
  tensor _ := by rw [hasSubtype_object _ ht hd ho, htensor]
  rational _ := by rw [hasSubtype_object _ ht hd ho, hrational]

theorem getBaseType_immediate {t : UInt8} (h : t = 1 ∨ t = 3 ∨ t = 4) : getBaseType t = t := by
  rcases h with rfl | rfl | rfl
  · rfl
  · rfl
  · rfl

theorem HasKind.tests {heap : Memory} {v : Word} {k : Kind} (h : HasKind heap v k) :
    Tests heap v k := by
  cases k with
  | null =>
    obtain ⟨type, flags, reserved, padding, data⟩ := v
    rcases h with rfl | ⟨rfl | rfl, rfl⟩ <;> constructor <;> simp [getBaseType, isEmptyList]
  | immediate =>
    have hbase := getBaseType_immediate h
    rcases h with ht | ht | ht <;> constructor <;>
      first
      | exact hbase
      | simp [isEmptyList, isCons, isString, hasSubtype, ht]
  | string =>
    obtain ⟨ht | ht, hd, s, hs⟩ := h
    · exact tests_object ht hd hs (by decide) rfl rfl rfl rfl rfl rfl rfl
    · constructor <;>
        simp [getBaseType, isEmptyList, isCons, isString, hasSubtype, ht]
  | pair =>
    obtain ⟨ht | ht, hd, a, d, hs⟩ := h
    · exact tests_object ht hd hs (by decide) rfl rfl rfl rfl rfl rfl rfl
    · constructor <;>
        simp [getBaseType, isEmptyList, isCons, isString, hasSubtype, ht, hd]
  | symbol | bytevector | bignum | rational | vector =>
    obtain ⟨ht, hd, s, hs⟩ := h
    exact tests_object ht hd hs (by decide) rfl rfl rfl rfl rfl rfl rfl

/-! ### Dispatch -/

section Dispatch

variable {toDouble : Int64 → UInt64} {heap : Memory} {fuel : ℕ} {v w : Word} {k l : Kind}

theorem eshkolDeepEqual_succ (hv : Tests heap v k) (hw : Tests heap w l) :
    eshkolDeepEqual toDouble heap (fuel + 1) v w =
      if k = .null ∨ l = .null then .ok (decide (k = l))
      else objectsEqual toDouble (eshkolDeepEqual toDouble heap fuel) heap v.type w.type v w := by
  simp only [eshkolDeepEqual, hv.baseType, hw.baseType, hv.not_f32, hw.not_f32, hv.empty, hw.empty,
    or_self, if_false]
  by_cases hk : k = .null
  · by_cases hl : l = .null
    · simp [hk, hl]
    · simp [hk, hl, eq_comm]
  · by_cases hl : l = .null
    · simp [hk, hl]
    · simp [hk, hl]

variable (hv : Tests heap v k) (hw : Tests heap w l) (hk : k ≠ .null) (hl : l ≠ .null)

include hv hw hk hl

theorem objectsEqual_pair (equal : Word → Word → Exec Empty Bool) (hkp : k = .pair)
    (hlp : l = .pair) :
    objectsEqual toDouble equal heap v.type w.type v w = (do
      let (car1, cdr1) ← loadCons heap v.data
      let (car2, cdr2) ← loadCons heap w.data
      let same ← equal car1 car2
      if same then equal cdr1 cdr2 else .ok false) := by
  rw [objectsEqual, hv.cons hk, ok_bind, hw.cons hl, ok_bind, if_pos (by simp [hkp, hlp])]

theorem objectsEqual_chars (equal : Word → Word → Exec Empty Bool)
    (h : k = .string ∧ l = .string ∨ k = .symbol ∧ l = .symbol) :
    objectsEqual toDouble equal heap v.type w.type v w = charsEqual heap v w := by
  rw [objectsEqual, hv.cons hk, ok_bind, hw.cons hl, ok_bind, hv.string hk, hw.string hl,
    hv.symbol hk, hw.symbol hl]
  rcases h with ⟨rfl, rfl⟩ | ⟨rfl, rfl⟩
  · rfl
  · rfl

theorem objectsEqual_integers (equal : Word → Word → Exec Empty Bool)
    (hpair : ¬(k = .pair ∧ l = .pair)) (hstring : ¬(k = .string ∧ l = .string))
    (hsymbol : ¬(k = .symbol ∧ l = .symbol)) :
    objectsEqual toDouble equal heap v.type w.type v w =
      integersEqual toDouble equal heap v.type w.type v w := by
  rw [objectsEqual, hv.cons hk, ok_bind, hw.cons hl, ok_bind, hv.string hk, hw.string hl,
    hv.symbol hk, hw.symbol hl]
  simp only [ok_bind, ← Bool.decide_and, decide_eq_true_eq, hpair, hstring, hsymbol, if_false]

theorem integersEqual_bignum (equal : Word → Word → Exec Empty Bool) (hkb : k = .bignum)
    (hlb : l = .bignum) :
    integersEqual toDouble equal heap v.type w.type v w = (do
      let b1 ← loadBignum heap v.data
      let b2 ← loadBignum heap w.data
      .ok (eshkolBignumCompare b1 b2 == 0)) := by
  rw [integersEqual, if_neg (by simp [hv.not_double, hw.not_double]), hv.bignum hk, ok_bind,
    hw.bignum hl, ok_bind, if_pos (by simp [hkb, hlb])]

theorem integersEqual_bignum_int (equal : Word → Word → Exec Empty Bool) (hkb : k = .bignum)
    (hlb : l ≠ .bignum) (ht : w.type = 1) :
    integersEqual toDouble equal heap v.type w.type v w = (do
      let b1 ← loadBignum heap v.data
      .ok (eshkolBignumCompareInt64 b1 w.data.toInt64 == 0)) := by
  rw [integersEqual, if_neg (by simp [hv.not_double, hw.not_double]), hv.bignum hk, ok_bind,
    hw.bignum hl, ok_bind, if_neg (by simp [hlb]), if_pos (by simp [hkb, ht])]

theorem integersEqual_int_bignum (equal : Word → Word → Exec Empty Bool) (hkb : k ≠ .bignum)
    (hlb : l = .bignum) (ht : v.type = 1) :
    integersEqual toDouble equal heap v.type w.type v w = (do
      let b2 ← loadBignum heap w.data
      .ok (eshkolBignumCompareInt64 b2 v.data.toInt64 == 0)) := by
  rw [integersEqual, if_neg (by simp [hv.not_double, hw.not_double]), hv.bignum hk, ok_bind,
    hw.bignum hl, ok_bind, if_neg (by simp [hkb]), if_neg (by simp [hkb]),
    if_pos (by simp [hlb, ht])]

theorem integersEqual_vectors (equal : Word → Word → Exec Empty Bool)
    (hbb : ¬(k = .bignum ∧ l = .bignum)) (hbi : ¬(k = .bignum ∧ w.type = 1))
    (hib : ¬(v.type = 1 ∧ l = .bignum)) :
    integersEqual toDouble equal heap v.type w.type v w =
      vectorsEqual equal heap v.type w.type v w := by
  rw [integersEqual, if_neg (by simp [hv.not_double, hw.not_double]), hv.bignum hk, ok_bind,
    hw.bignum hl, ok_bind]
  simp only [← Bool.decide_and, decide_eq_true_eq, hbb, hbi, hib, if_false]

theorem vectorsEqual_vector (equal : Word → Word → Exec Empty Bool) (hkv : k = .vector)
    (hlv : l = .vector) :
    vectorsEqual equal heap v.type w.type v w =
      if v.data = w.data then .ok true
      else (do
        let items1 ← loadVector heap v.data
        let items2 ← loadVector heap w.data
        if items1.length ≠ items2.length then .ok false
        else itemsEqual equal items1 items2) := by
  rw [vectorsEqual, hv.vector hk, ok_bind, hw.vector hl, ok_bind, hv.tensor hk, ok_bind,
    hw.tensor hl, ok_bind]
  simp [hkv, hlv]

theorem vectorsEqual_numbers (equal : Word → Word → Exec Empty Bool)
    (hvec : ¬(k = .vector ∧ l = .vector)) :
    vectorsEqual equal heap v.type w.type v w = numbersEqual heap v.type w.type v w := by
  rw [vectorsEqual, hv.vector hk, ok_bind, hw.vector hl, ok_bind, hv.tensor hk, ok_bind,
    hw.tensor hl, ok_bind]
  simp only [← Bool.decide_and, decide_eq_true_eq, hvec, Bool.false_and, Bool.and_false,
    Bool.false_eq_true, if_false]

theorem numbersEqual_rational (hkr : k = .rational) (hlr : l = .rational) :
    numbersEqual heap v.type w.type v w = (do
      let r1 ← loadRational heap v.data
      let r2 ← loadRational heap w.data
      .ok (eshkolRationalEqual r1 r2)) := by
  rw [numbersEqual, hv.rational hk, ok_bind, hw.rational hl, ok_bind, if_pos (by simp [hkr, hlr])]

theorem numbersEqual_rest (hrat : ¬(k = .rational ∧ l = .rational))
    (hstring : ¬(k = .string ∧ l = .string)) :
    numbersEqual heap v.type w.type v w = .ok (decide (v.type = w.type ∧ v.data = w.data)) := by
  have hlegacy : v.type = w.type → v.type ≠ 33 := fun hvw h33 =>
    hstring ⟨hv.legacy h33, hw.legacy (hvw ▸ h33)⟩
  rw [numbersEqual, hv.rational hk, ok_bind, hw.rational hl, ok_bind,
    if_neg (by simpa using hrat), if_neg (fun h => hv.not_complex h.1)]
  by_cases ht : v.type = w.type
  · rw [if_neg (not_not.mpr ht), sameTypeEqual, if_neg hv.not_double, if_neg (hlegacy ht), ite_self]
    simp [ht, beq_eq_decide]
  · rw [if_pos ht]
    simp [ht]

end Dispatch

theorem eshkolDeepEqual_rest {toDouble : Int64 → UInt64} {heap : Memory} {fuel : ℕ} {v w : Word}
    {k l : Kind} (hk : HasKind heap v k) (hl : HasKind heap w l)
    (hknull : k ≠ .null) (hlnull : l ≠ .null)
    (hkl : k = l → k = .immediate ∨ k = .bytevector) (hbi : ¬(k = .bignum ∧ w.type = 1))
    (hib : ¬(v.type = 1 ∧ l = .bignum)) :
    eshkolDeepEqual toDouble heap (fuel + 1) v w =
      .ok (decide (v.type = w.type ∧ v.data = w.data)) := by
  have hkinds : ∀ c : Kind, c ≠ .immediate → c ≠ .bytevector → ¬(k = c ∧ l = c) := by
    rintro c hi hb ⟨rfl, rfl⟩
    exact (hkl rfl).elim hi hb
  rw [eshkolDeepEqual_succ hk.tests hl.tests, if_neg (not_or.mpr ⟨hknull, hlnull⟩),
    objectsEqual_integers hk.tests hl.tests hknull hlnull _ (hkinds _ (by simp) (by simp))
      (hkinds _ (by simp) (by simp)) (hkinds _ (by simp) (by simp)),
    integersEqual_vectors hk.tests hl.tests hknull hlnull _ (hkinds _ (by simp) (by simp)) hbi hib,
    vectorsEqual_numbers hk.tests hl.tests hknull hlnull _ (hkinds _ (by simp) (by simp)),
    numbersEqual_rest hk.tests hl.tests hknull hlnull (hkinds _ (by simp) (by simp))
      (hkinds _ (by simp) (by simp))]

/-! ### Data of different kinds -/

/-- The constructor of a datum. -/
inductive Tag : Type
  | null
  | bool
  | char
  | number
  | string
  | symbol
  | bytevector
  | pair
  | vector
  deriving DecidableEq

/-- The constructor of the datum a view is of. -/
def View.tag : View → Tag
  | null => .null
  | bool _ => .bool
  | char _ => .char
  | number _ => .number
  | string _ => .string
  | symbol _ => .symbol
  | bytevector _ => .bytevector
  | pair _ _ => .pair
  | vector _ => .vector

/-- The constructor of a datum of a kind; booleans, characters and fixnums share one kind. -/
def Kind.tag : Kind → Option Tag
  | null => some .null
  | immediate => none
  | string => some .string
  | symbol => some .symbol
  | bytevector => some .bytevector
  | bignum => some .number
  | rational => some .number
  | pair => some .pair
  | vector => some .vector

theorem Shows.tag_eq {heap : Memory} {v : Word} {x : View} {k : Kind} (h : Shows heap v x k)
    {t : Tag} (hk : k.tag = some t) : x.tag = t := by
  cases x with
  | null =>
    obtain rfl := h
    exact Option.some.inj hk
  | number q =>
    rcases h with ⟨rfl, -⟩ | ⟨-, ⟨rfl, -⟩ | ⟨rfl, -⟩⟩
    · cases hk
    · exact Option.some.inj hk
    · exact Option.some.inj hk
  | bool | char =>
    obtain ⟨rfl, -⟩ := h
    cases hk
  | string | symbol | bytevector | pair | vector =>
    obtain ⟨rfl, -⟩ := h
    exact Option.some.inj hk

theorem view_congr {heap : Memory} {v w : Word} (ht : v.type = w.type) (hd : v.data = w.data) :
    view heap v = view heap w := by
  rw [view.eq_def, view.eq_def, ht, hd]

theorem view_int64 {heap : Memory} {v : Word} (ht : v.type = 1) :
    view heap v = some (.number v.data.toInt64.toInt) := by
  rw [view, if_neg (by rw [ht]; decide), if_pos ht]

/-- Values of different kinds are different. -/
theorem eshkolDeepEqual_of_tag_ne (toDouble : Int64 → UInt64) {heap : Memory} (fuel : ℕ)
    {v w : Word} {x y : View} (hv : view heap v = some x) (hw : view heap w = some y)
    (hne : x.tag ≠ y.tag) : eshkolDeepEqual toDouble heap (fuel + 1) v w = .ok false := by
  obtain ⟨k, hk, hx⟩ := view_shows hv
  obtain ⟨l, hl, hy⟩ := view_shows hw
  -- words of one such kind have one constructor
  have hkinds : ∀ c d : Kind, c.tag.isSome → c.tag = d.tag → ¬(k = c ∧ l = d) := by
    rintro c d hc hcd ⟨rfl, rfl⟩
    obtain ⟨t, ht⟩ := Option.isSome_iff_exists.mp hc
    exact hne ((hx.tag_eq ht).trans (hy.tag_eq (hcd ▸ ht)).symm)
  have hint : ∀ {u z}, view heap u = some z → u.type = 1 → z.tag = .number := by
    intro u z hu ht
    rw [view_int64 ht] at hu
    cases hu
    rfl
  by_cases hnull : k = .null ∨ l = .null
  · have : k ≠ l := by
      rintro rfl
      exact hkinds .null .null rfl rfl (by simpa using hnull)
    rw [eshkolDeepEqual_succ hk.tests hl.tests, if_pos hnull, decide_eq_false this]
  · obtain ⟨hknull, hlnull⟩ := not_or.mp hnull
    have hkl : k = l → k = .immediate ∨ k = .bytevector := by
      rintro rfl
      refine .inl ?_
      by_contra hnot
      refine hkinds k k ?_ rfl ⟨rfl, rfl⟩
      cases k with
      | immediate => exact absurd rfl hnot
      | null | string | symbol | bytevector | bignum | rational | pair | vector => rfl
    rw [eshkolDeepEqual_rest hk hl hknull hlnull hkl
      (fun h => hne ((hx.tag_eq (by rw [h.1]; rfl)).trans (hint hw h.2).symm))
      (fun h => hne ((hint hv h.1).trans (hy.tag_eq (by rw [h.2]; rfl)).symm)),
      decide_eq_false]
    rintro ⟨ht, hd⟩
    rw [view_congr ht hd, hw] at hv
    exact hne (congrArg View.tag (Option.some.inj hv)).symm

/-! ### Numbers -/

/-- A word that points to a rational object. -/
def IsRational (heap : Memory) (v : Word) : Prop :=
  v.type = 8 ∧ ∃ r, heap v.data = some (.rational r)

theorem eshkolRationalEqual_iff {r s : Rational} (hr : r.Canonical) (hs : s.Canonical) :
    eshkolRationalEqual r s = true ↔ r.toRat = s.toRat := by
  constructor
  · intro h
    cases r with
    | small n d =>
      cases s with
      | small n' d' =>
        simp only [eshkolRationalEqual, Bool.and_eq_true, beq_iff_eq] at h
        rw [h.1, h.2]
      | big => cases h
    | big n d =>
      cases s with
      | small => cases h
      | big n' d' =>
        simp only [eshkolRationalEqual, Bool.and_eq_true, beq_iff_eq,
          eshkolBignumCompare_eq hr.1 hs.1, eshkolBignumCompare_eq hr.2.1 hs.2.1,
          Int.sign_eq_zero_iff_zero, sub_eq_zero] at h
        simp only [Rational.toRat, Rational.num, Rational.den, h.1, h.2]
  · intro h
    obtain rfl := hr.eq_of_toRat_eq hs h
    cases r with
    | small n d => simp [eshkolRationalEqual]
    | big n d =>
      simp [eshkolRationalEqual, eshkolBignumCompare_eq hr.1 hr.1,
        eshkolBignumCompare_eq hr.2.1 hr.2.1]

theorem sign_sub_beq (a b : ℤ) : (Int.sign (a - b) == 0) = decide (a = b) := by
  rw [Bool.eq_iff_iff, beq_iff_eq, decide_eq_true_eq, Int.sign_eq_zero_iff_zero, sub_eq_zero]

theorem toInt64_inj {a b : UInt64} : a.toInt64 = b.toInt64 ↔ a = b :=
  ⟨fun h => by simpa using congrArg Int64.toUInt64 h, congrArg _⟩

section Leaves

variable {toDouble : Int64 → UInt64} {heap : Memory} {fuel : ℕ} {v w : Word}

/-- A word that holds an integer, as a fixnum or a bignum. -/
def HoldsInt (heap : Memory) (v : Word) (k : Kind) (n : ℤ) : Prop :=
  (k = .immediate ∧ v.type = 1 ∧ n = v.data.toInt64.toInt) ∨
    k = .bignum ∧ v.type = 8 ∧ ∃ b, heap v.data = some (.bignum b) ∧ n = b.1.toInt

theorem HoldsInt.ne_null {k : Kind} {n : ℤ} (h : HoldsInt heap v k n) : k ≠ .null := by
  rcases h with ⟨rfl, -⟩ | ⟨rfl, -⟩
  · simp
  · simp

theorem HoldsInt.not_isRational {k : Kind} {n : ℤ} (h : HoldsInt heap v k n) :
    ¬IsRational heap v := by
  rintro ⟨ht, r, hr⟩
  rcases h with ⟨-, ht', -⟩ | ⟨-, -, b, hb, -⟩
  · exact absurd (ht'.symm.trans ht) (by decide)
  · rw [hb] at hr
    cases hr

theorem shows_number {q : ℚ} {k : Kind} (h : Shows heap v (.number q) k) :
    (∃ n : ℤ, HoldsInt heap v k n ∧ q = n) ∨
      k = .rational ∧ v.type = 8 ∧ ∃ r, heap v.data = some (.rational r) ∧ q = r.1.toRat := by
  rcases h with ⟨hk, ht, rfl⟩ | ⟨ht, ⟨hk, b, hb, rfl⟩ | ⟨hk, h⟩⟩
  · exact .inl ⟨_, .inl ⟨hk, ht, rfl⟩, rfl⟩
  · exact .inl ⟨_, .inr ⟨hk, ht, b, hb, rfl⟩, rfl⟩
  · exact .inr ⟨hk, ht, h⟩

theorem eshkolDeepEqual_integers {k l : Kind} (hk : HasKind heap v k) (hl : HasKind heap w l)
    {n n' : ℤ} (hn : HoldsInt heap v k n) (hn' : HoldsInt heap w l n') :
    eshkolDeepEqual toDouble heap (fuel + 1) v w =
      integersEqual toDouble (eshkolDeepEqual toDouble heap fuel) heap v.type w.type v w := by
  have hkinds : ∀ c : Kind, c ≠ .immediate → c ≠ .bignum → ¬(k = c ∧ l = c) := by
    rintro c hi hb ⟨rfl, -⟩
    rcases hn with ⟨rfl, -⟩ | ⟨rfl, -⟩
    · exact hi rfl
    · exact hb rfl
  rw [eshkolDeepEqual_succ hk.tests hl.tests, if_neg (not_or.mpr ⟨hn.ne_null, hn'.ne_null⟩),
    objectsEqual_integers hk.tests hl.tests hn.ne_null hn'.ne_null _
      (hkinds _ (by simp) (by simp)) (hkinds _ (by simp) (by simp))
      (hkinds _ (by simp) (by simp))]

theorem eshkolDeepEqual_int {k l : Kind} (hk : HasKind heap v k) (hl : HasKind heap w l)
    {n n' : ℤ} (hn : HoldsInt heap v k n) (hn' : HoldsInt heap w l n') :
    eshkolDeepEqual toDouble heap (fuel + 1) v w = .ok (decide (n = n')) := by
  have hints := @eshkolDeepEqual_integers toDouble heap fuel v w k l hk hl n n' hn hn'
  rcases hn with ⟨rfl, ht, rfl⟩ | ⟨rfl, -, b, hb, rfl⟩
  · rcases hn' with ⟨rfl, ht', rfl⟩ | ⟨rfl, -, b', hb', rfl⟩
    · rw [eshkolDeepEqual_rest hk hl (by simp) (by simp) (by simp) (by simp) (by simp)]
      simp only [ht, ht', true_and, Int64.toInt_inj, toInt64_inj]
    · rw [hints, integersEqual_int_bignum hk.tests hl.tests (by simp) (by simp) _ (by simp) rfl ht,
        loadBignum, hb', ok_bind, eshkolBignumCompareInt64_eq b'.2, sign_sub_beq]
      simp only [eq_comm]
  · rcases hn' with ⟨rfl, ht', rfl⟩ | ⟨rfl, -, b', hb', rfl⟩
    · rw [hints, integersEqual_bignum_int hk.tests hl.tests (by simp) (by simp) _ rfl (by simp) ht',
        loadBignum, hb, ok_bind, eshkolBignumCompareInt64_eq b.2, sign_sub_beq]
    · rw [hints, integersEqual_bignum hk.tests hl.tests (by simp) (by simp) _ rfl rfl, loadBignum,
        hb, ok_bind, loadBignum, hb', ok_bind, eshkolBignumCompare_eq b.2 b'.2, sign_sub_beq]

theorem HoldsInt.ne_rational {k : Kind} {n : ℤ} (hn : HoldsInt heap v k n)
    (hw : IsRational heap w) : ¬(v.type = w.type ∧ v.data = w.data) := by
  rintro ⟨ht, hd⟩
  exact hn.not_isRational ⟨ht.trans hw.1, by rw [hd]; exact hw.2⟩

theorem eshkolDeepEqual_int_rational {k : Kind} (hk : HasKind heap v k)
    (hl : HasKind heap w .rational) {n : ℤ} (hn : HoldsInt heap v k n) (hw : IsRational heap w) :
    eshkolDeepEqual toDouble heap (fuel + 1) v w = .ok false := by
  rw [eshkolDeepEqual_rest hk hl hn.ne_null (by simp) ?_ ?_ (by simp),
    decide_eq_false (hn.ne_rational hw)]
  · rintro rfl
    rcases hn with ⟨h, -⟩ | ⟨h, -⟩
    · cases h
    · cases h
  · rintro ⟨-, ht⟩
    exact absurd (ht.symm.trans hw.1) (by decide)

theorem eshkolDeepEqual_rational_int {l : Kind} (hk : HasKind heap v .rational)
    (hl : HasKind heap w l) (hv : IsRational heap v) {n : ℤ} (hn : HoldsInt heap w l n) :
    eshkolDeepEqual toDouble heap (fuel + 1) v w = .ok false := by
  rw [eshkolDeepEqual_rest hk hl (by simp) hn.ne_null ?_ (by simp) ?_, decide_eq_false
    fun h => hn.ne_rational hv ⟨h.1.symm, h.2.symm⟩]
  · rintro rfl
    rcases hn with ⟨h, -⟩ | ⟨h, -⟩
    · cases h
    · cases h
  · rintro ⟨ht, -⟩
    exact absurd (ht.symm.trans hv.1) (by decide)

/-- Numbers are equal if their values and kinds are. -/
theorem eshkolDeepEqual_number {q q' : ℚ} (hv : view heap v = some (.number q))
    (hw : view heap w = some (.number q')) :
    ∃ b, eshkolDeepEqual toDouble heap (fuel + 1) v w = .ok b ∧
      (b = true ↔ q = q' ∧ (IsRational heap v ↔ IsRational heap w)) := by
  obtain ⟨k, hk, hx⟩ := view_shows hv
  obtain ⟨l, hl, hy⟩ := view_shows hw
  rcases shows_number hx with ⟨n, hn, rfl⟩ | ⟨rfl, ht, r, hr, rfl⟩
  · rcases shows_number hy with ⟨n', hn', rfl⟩ | ⟨rfl, ht', r', hr', rfl⟩
    · refine ⟨_, eshkolDeepEqual_int hk hl hn hn', ?_⟩
      simp [hn.not_isRational, hn'.not_isRational]
    · have hrat : IsRational heap w := ⟨ht', r', hr'⟩
      refine ⟨_, eshkolDeepEqual_int_rational hk hl hn hrat, ?_⟩
      simp [hn.not_isRational, hrat]
  · have hrat : IsRational heap v := ⟨ht, r, hr⟩
    rcases shows_number hy with ⟨n', hn', rfl⟩ | ⟨rfl, ht', r', hr', rfl⟩
    · refine ⟨_, eshkolDeepEqual_rational_int hk hl hrat hn', ?_⟩
      simp [hn'.not_isRational, hrat]
    · have hrat' : IsRational heap w := ⟨ht', r', hr'⟩
      refine ⟨eshkolRationalEqual r.1 r'.1, ?_, ?_⟩
      · rw [eshkolDeepEqual_succ hk.tests hl.tests, if_neg (by simp),
          objectsEqual_integers hk.tests hl.tests (by simp) (by simp) _ (by simp) (by simp)
            (by simp),
          integersEqual_vectors hk.tests hl.tests (by simp) (by simp) _ (by simp) (by simp)
            (by simp),
          vectorsEqual_numbers hk.tests hl.tests (by simp) (by simp) _ (by simp),
          numbersEqual_rational hk.tests hl.tests (by simp) (by simp) rfl rfl, loadRational, hr,
          ok_bind, loadRational, hr', ok_bind]
      · rw [eshkolRationalEqual_iff r.2 r'.2]
        simp [hrat, hrat']

/-! ### Other data without parts -/

theorem eshkolDeepEqual_null (hv : view heap v = some .null) (hw : view heap w = some .null) :
    eshkolDeepEqual toDouble heap (fuel + 1) v w = .ok true := by
  obtain ⟨k, hk, rfl⟩ := view_shows hv
  obtain ⟨l, hl, rfl⟩ := view_shows hw
  rw [eshkolDeepEqual_succ hk.tests hl.tests, if_pos (.inl rfl), decide_eq_true rfl]

theorem eshkolDeepEqual_bool {b b' : Bool} (hv : view heap v = some (.bool b))
    (hw : view heap w = some (.bool b')) :
    eshkolDeepEqual toDouble heap (fuel + 1) v w = .ok (decide (b = b')) := by
  obtain ⟨k, hk, rfl, ht, hd⟩ := view_shows hv
  obtain ⟨l, hl, rfl, ht', hd'⟩ := view_shows hw
  rw [eshkolDeepEqual_rest hk hl (by simp) (by simp) (by simp) (by simp) (by simp)]
  simp only [ht, ht', hd, hd', true_and]
  cases b <;> cases b' <;> rfl

theorem eshkolDeepEqual_char {c c' : Char} (hv : view heap v = some (.char c))
    (hw : view heap w = some (.char c')) :
    eshkolDeepEqual toDouble heap (fuel + 1) v w = .ok (decide (c = c')) := by
  obtain ⟨k, hk, rfl, ht, hd⟩ := view_shows hv
  obtain ⟨l, hl, rfl, ht', hd'⟩ := view_shows hw
  rw [eshkolDeepEqual_rest hk hl (by simp) (by simp) (by simp) (by simp) (by simp)]
  simp only [ht, ht', true_and, ← UInt64.toNat_inj, hd, hd', UInt32.toNat_inj, Char.ext_iff]

theorem eshkolDeepEqual_bytevector {s s' : List UInt8} (hv : view heap v = some (.bytevector s))
    (hw : view heap w = some (.bytevector s')) :
    eshkolDeepEqual toDouble heap (fuel + 1) v w = .ok (decide (v.data = w.data)) := by
  obtain ⟨k, hk, rfl, ht, -⟩ := view_shows hv
  obtain ⟨l, hl, rfl, ht', -⟩ := view_shows hw
  rw [eshkolDeepEqual_rest hk hl (by simp) (by simp) (by simp) (by simp) (by simp)]
  simp only [ht, ht', true_and]

theorem charsEqual_eq {a b : List UInt8} (hv : v.data ≠ 0) (hw : w.data ≠ 0)
    (ha : loadChars heap v.data = .ok a) (hb : loadChars heap w.data = .ok b) :
    charsEqual heap v w = .ok (decide (a = b)) := by
  rw [charsEqual]
  by_cases h : v.data = w.data
  · rw [h, hb] at ha
    cases ha
    rw [if_pos h, decide_eq_true rfl]
  · rw [if_neg h, if_neg (not_or.mpr ⟨hv, hw⟩), ha, ok_bind, hb, ok_bind, beq_eq_decide]

theorem eshkolDeepEqual_string {s s' : List UInt8} (hv : view heap v = some (.string s))
    (hw : view heap w = some (.string s')) :
    eshkolDeepEqual toDouble heap (fuel + 1) v w = .ok (decide (cString s = cString s')) := by
  obtain ⟨k, hk, rfl, ho⟩ := view_shows hv
  obtain ⟨l, hl, rfl, ho'⟩ := view_shows hw
  rw [eshkolDeepEqual_succ hk.tests hl.tests, if_neg (by simp),
    objectsEqual_chars hk.tests hl.tests (by simp) (by simp) _ (.inl ⟨rfl, rfl⟩)]
  exact charsEqual_eq hk.2.1 hl.2.1 (by rw [loadChars, ho]) (by rw [loadChars, ho'])

theorem eshkolDeepEqual_symbol {s s' : List UInt8} (hv : view heap v = some (.symbol s))
    (hw : view heap w = some (.symbol s')) :
    eshkolDeepEqual toDouble heap (fuel + 1) v w = .ok (decide (cString s = cString s')) := by
  obtain ⟨k, hk, rfl, ho⟩ := view_shows hv
  obtain ⟨l, hl, rfl, ho'⟩ := view_shows hw
  rw [eshkolDeepEqual_succ hk.tests hl.tests, if_neg (by simp),
    objectsEqual_chars hk.tests hl.tests (by simp) (by simp) _ (.inr ⟨rfl, rfl⟩)]
  exact charsEqual_eq hk.2.1 hl.2.1 (by rw [loadChars, ho]) (by rw [loadChars, ho'])

theorem eshkolDeepEqual_pair {a d a' d' : Word} (hv : view heap v = some (.pair a d))
    (hw : view heap w = some (.pair a' d')) :
    eshkolDeepEqual toDouble heap (fuel + 1) v w = (do
      let same ← eshkolDeepEqual toDouble heap fuel a a'
      if same then eshkolDeepEqual toDouble heap fuel d d' else .ok false) := by
  obtain ⟨k, hk, rfl, ho⟩ := view_shows hv
  obtain ⟨l, hl, rfl, ho'⟩ := view_shows hw
  rw [eshkolDeepEqual_succ hk.tests hl.tests, if_neg (by simp),
    objectsEqual_pair hk.tests hl.tests (by simp) (by simp) _ rfl rfl]
  simp only [loadCons, ho, ho', ok_bind]

theorem eshkolDeepEqual_vector {vs ws : List Word} (hv : view heap v = some (.vector vs))
    (hw : view heap w = some (.vector ws)) :
    eshkolDeepEqual toDouble heap (fuel + 1) v w =
      if v.data = w.data then .ok true
      else if vs.length ≠ ws.length then .ok false
      else itemsEqual (eshkolDeepEqual toDouble heap fuel) vs ws := by
  obtain ⟨k, hk, rfl, ho⟩ := view_shows hv
  obtain ⟨l, hl, rfl, ho'⟩ := view_shows hw
  rw [eshkolDeepEqual_succ hk.tests hl.tests, if_neg (by simp),
    objectsEqual_integers hk.tests hl.tests (by simp) (by simp) _ (by simp) (by simp) (by simp),
    integersEqual_vectors hk.tests hl.tests (by simp) (by simp) _ (by simp) (by simp) (by simp),
    vectorsEqual_vector hk.tests hl.tests (by simp) (by simp) _ rfl rfl, loadVector, ho, ok_bind,
    loadVector, ho', ok_bind]

end Leaves

end Eshkol.DeepEqual
