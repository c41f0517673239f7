import Eshkol.Machine.Exec

/-!
# Binary Lambda Calculus

The terms, the bit encoding and the reducer of `lib/core/blc.esk`. A term is a tagged list; its
indices are integers, and `blc-term?` asks for positive ones. A bit string is a list of
characters, and the decoder walks over it with a position. Errors carry their message; the object
that is reported with it is left out.
-/

namespace Eshkol.Core.Blc

open Machine

/-- A term. -/
inductive Term : Type
  | var (i : ℤ)
  | lam (b : Term)
  | app (m n : Term)
  deriving DecidableEq

open Term

def blcTerm : Term → Bool
  | var i => 1 ≤ i
  | lam b => blcTerm b
  | app m n => blcTerm m && blcTerm n

/-- An error with its message. -/
def raise {α : Type} (message : String) : Exec String α := .error (.raised message)

def blcOnes (n : ℤ) : List Char := List.replicate n.toNat '1'

def blcEncode : Term → Exec String (List Char)
  | var i =>
    if 1 ≤ i then .ok (blcOnes i ++ ['0'])
    else raise "blc-encode: variable index must be a positive integer"
  | lam b => do
      let body ← blcEncode b
      .ok ('0' :: '0' :: body)
  | app m n => do
      let fn ← blcEncode m
      let arg ← blcEncode n
      .ok ('0' :: '1' :: (fn ++ arg))

def blcDecodeVar (bits : List Char) (pos count : ℕ) : Exec String (Term × ℕ) :=
  match h : bits[pos]? with
  | none => raise "blc-decode: unexpected end of input in variable (missing terminating 0)"
  | some c =>
    if c = '1' then blcDecodeVar bits (pos + 1) (count + 1)
    else if c = '0' then
      if count = 0 then raise "blc-decode: zero-length variable"
      else .ok (var count, pos + 1)
    else raise "blc-decode: invalid bit character (expected 0 or 1)"
termination_by bits.length - pos
decreasing_by
  obtain ⟨hlt, -⟩ := List.getElem?_eq_some_iff.mp h
  omega

/-- `blc-decode-at`, with the body of `blc-decode-compound` in its place. The position grows with
every term that is read, so that the recursion ends. -/
def blcDecodeAt (bits : List Char) (pos : ℕ) : Exec String (Term × ℕ) :=
  match _h : bits[pos]? with
  | none => raise "blc-decode: unexpected end of input (truncated term)"
  | some c =>
    if c = '0' then
      match bits[pos + 1]? with
      | none => raise "blc-decode: unexpected end of input after '0'"
      | some c₂ =>
        if c₂ = '0' then do
          let (body, next) ← blcDecodeAt bits (pos + 2)
          .ok (lam body, next)
        else if c₂ = '1' then do
          let (m, mid) ← blcDecodeAt bits (pos + 2)
          if pos < mid then do
            let (n, next) ← blcDecodeAt bits mid
            .ok (app m n, next)
          else .error .diverges
        else raise "blc-decode: invalid bit character (expected 0 or 1)"
    else if c = '1' then blcDecodeVar bits pos 0
    else raise "blc-decode: invalid bit character (expected 0 or 1)"
termination_by bits.length - pos
decreasing_by
  all_goals
    obtain ⟨hlt, -⟩ := List.getElem?_eq_some_iff.mp _h
    omega

/-- `blc-decode`. Bits behind the term are ignored. -/
def blcDecode (bits : List Char) : Exec String Term :=
  if bits.length = 0 then raise "blc-decode: empty input, no term to decode"
  else do
    let (term, _) ← blcDecodeAt bits 0
    .ok term

def blcShift (d : ℤ) : ℤ → Term → Term
  | cutoff, var k => if cutoff ≤ k then var (k + d) else var k
  | cutoff, lam b => lam (blcShift d (cutoff + 1) b)
  | cutoff, app m n => app (blcShift d cutoff m) (blcShift d cutoff n)

def blcSubst : Term → ℤ → Term → Term
  | var k, j, s => if k = j then s else var k
  | lam b, j, s => lam (blcSubst b (j + 1) (blcShift 1 1 s))
  | app m n, j, s => app (blcSubst m j s) (blcSubst n j s)

/-- `blc-beta` of the redex `(app (lam b) n)`. -/
def blcBeta (b n : Term) : Term := blcShift (-1) 1 (blcSubst b 1 (blcShift 1 1 n))

/-! ### Reduction -/

def blcStep : Term → Bool × Term
  | var k => (false, var k)
  | lam b =>
    let r := blcStep b
    if r.1 then (true, lam r.2) else (false, lam b)
  | app (lam b) n => (true, blcBeta b n)
  | app m n =>
    let rm := blcStep m
    if rm.1 then (true, app rm.2 n)
    else
      let rn := blcStep n
      if rn.1 then (true, app m rn.2) else (false, app m n)

def blcMaxSteps : ℕ := 1000000

/-- `blc-eval-loop`, with the number of steps that are left. -/
def blcEvalLoop : ℕ → Term → Exec String Term
  | 0, _ => raise "blc-eval: no normal form within step bound"
  | room + 1, term =>
    let r := blcStep term
    if r.1 then blcEvalLoop room r.2 else .ok term

def blcEval (term : Term) : Exec String Term := blcEvalLoop (blcMaxSteps + 1) term

/-! ### Lists of bits and the universal machine -/

def blcTrue : Term := lam (lam (var 2))

def blcFalse : Term := lam (lam (var 1))

def blcCons (h t : Term) : Term := lam (app (app (var 1) h) t)

/-- `blc-bit-char->bool`. -/
def blcBitCharToBool (c : Char) : Exec String Term :=
  if c = '0' then .ok blcTrue
  else if c = '1' then .ok blcFalse
  else raise "blc: bit character must be 0 or 1"

def blcListOfBits : List Char → Term → Exec String Term
  | [], tail => .ok tail
  | c :: bits, tail => do
      let h ← blcBitCharToBool c
      let t ← blcListOfBits bits tail
      .ok (blcCons h t)

def blcUBits : List Char :=
  "01010001101000000001010110000000000111100001011111100111".toList ++
    "10000101110011110000001111000010110110111001111100001111".toList ++
    "10000101111010011101001011001110000110110000101111100001".toList ++
    "1111000011100110111101111100111101110110000110010001101000011010".toList

def blcU : Exec String Term := blcDecode blcUBits

end Eshkol.Core.Blc
