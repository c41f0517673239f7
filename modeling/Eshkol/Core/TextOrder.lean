import Eshkol.Core.Strings
import Eshkol.Memory.Sexp
import Mathlib.Data.List.Lex
import Mathlib.Order.Defs.LinearOrder

/-!
# Comparing Texts

`string<?` and `string=?` call `strcmp`: strings are compared as bytes, up to the first zero
byte. The replicated data of `lib/core/distributed.esk` break ties by comparing the canonical
strings of values in this way; `Canonical` is what they need of a type of values.
-/

namespace Eshkol.Core

/-- The bytes of a string that `strcmp` compares. -/
def stringBytes (str : List Char) : List ℕ := (Codec.Utf8.encode (cText str)).map UInt8.toNat

/-- `string<?`. -/
def stringLess (a b : List Char) : Bool := decide (stringBytes a < stringBytes b)

/-- `string=?`. -/
def stringEqual (a b : List Char) : Bool := decide (stringBytes a = stringBytes b)

theorem stringBytes_inj {a b : List Char} : stringBytes a = stringBytes b ↔ cText a = cText b := by
  have hinj : Function.Injective (List.map UInt8.toNat) :=
    List.map_injective_iff.mpr fun _ _ h => UInt8.toNat_inj.mp h
  exact hinj.eq_iff.trans Codec.Utf8.encode_injective.eq_iff

theorem stringEqual_iff {a b : List Char} : stringEqual a b = true ↔ cText a = cText b := by
  rw [stringEqual, decide_eq_true_iff, stringBytes_inj]

/-! ### Canonical texts of values -/

/-- Values with their `sexp->canonical-string`. -/
class Canonical (α : Type) where
  text : α → List Char

variable {α : Type} [Canonical α]

/-- The bytes by which values are compared. -/
def distributedKey (value : α) : List ℕ := stringBytes (Canonical.text value)

def distributedKeyLess (a b : α) : Bool := stringLess (Canonical.text a) (Canonical.text b)

def distributedKeyGreater (a b : α) : Bool := stringLess (Canonical.text b) (Canonical.text a)

theorem distributedKeyLess_iff {a b : α} :
    distributedKeyLess a b = true ↔ distributedKey a < distributedKey b :=
  decide_eq_true_iff

theorem distributedKeyGreater_iff {a b : α} :
    distributedKeyGreater a b = true ↔ distributedKey b < distributedKey a :=
  decide_eq_true_iff

instance : Canonical Memory.Sexp where
  text := Memory.canonicalString

/-- A value that may be missing, for which `#f` is stored. -/
instance : Canonical (Option α) where
  text
    | none => ['#', 'f']
    | some value => Canonical.text value

end Eshkol.Core
