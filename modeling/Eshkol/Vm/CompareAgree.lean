import Eshkol.Native.Compare
import Eshkol.Vm.Value

/-!
# One Order of Exact Numbers

The native runtime and the VM compare exact numbers by different routes. The native entry points
answer one of five questions about two tagged numbers (`Eshkol.Native.Compare`); the VM takes the
sign of `vm_bignum_compare_vals` (`Eshkol.Vm.Value`). Both put the numbers in the order of the
rationals they denote, whatever the mix of representations.
-/

namespace Eshkol.Vm

open Ratio

variable {D : Type}

/-- `x <= y` for the native runtime. -/
def NativeLe (ops : DoubleOps D) (ord : DoubleOrder D) (x y : Tagged D) : Prop :=
  eshkolBignumCompareTagged ops ord x y 3 = .ok (.bool true)

/-- `a <= b` for the VM. -/
def VmLe (a b : ExactVal) : Prop := vmBignumCompareVals a b ≤ 0

/-- Three values are ordered as the numbers they denote: the first two as `p` and `q`, totally,
antisymmetrically and transitively. -/
structure OrderedAs {α : Type} (le : α → α → Prop) (x y z : α) (p q : ℚ) : Prop where
  iff : le x y ↔ p ≤ q
  total : le x y ∨ le y x
  antisymm : le x y → le y x → p = q
  trans : le x y → le y z → le x z

theorem OrderedAs.of_iff {α : Type} {le : α → α → Prop} {x y z : α} {p q r : ℚ}
    (hxy : le x y ↔ p ≤ q) (hyx : le y x ↔ q ≤ p) (hyz : le y z ↔ q ≤ r) (hxz : le x z ↔ p ≤ r) :
    OrderedAs le x y z p q where
  iff := hxy
  total := by
    rw [hxy, hyx]
    exact le_total p q
  antisymm h h' := le_antisymm (hxy.mp h) (hyx.mp h')
  trans h h' := hxz.mpr ((hxy.mp h).trans (hyz.mp h'))

theorem sign_sub_le_zero_iff (p q : ℚ) : (SignType.sign (p - q) : ℤ) ≤ 0 ↔ p ≤ q := by
  rcases lt_trichotomy p q with h | h | h
  · rw [sign_neg (sub_neg.mpr h)]
    exact iff_of_true (by decide) h.le
  · rw [sub_eq_zero.mpr h, sign_zero]
    exact iff_of_true le_rfl h.le
  · rw [sign_pos (sub_pos.mpr h)]
    exact iff_of_false (by decide) h.not_ge

theorem nativeLe_iff (ops : DoubleOps D) (ord : DoubleOrder D) {x y : Tagged D} {p q : ℚ}
    (hx : x.IsExact p) (hy : y.IsExact q) : NativeLe ops ord x y ↔ p ≤ q := by
  rw [NativeLe, eshkolBignumCompareTagged_eq ops ord hx hy, ← sign_sub_le_zero_iff]
  simp [compareOp]

theorem vmLe_iff {a b : ExactVal} {p q : ℚ} (ha : a.IsExact p) (hb : b.IsExact q) :
    VmLe a b ↔ p ≤ q := by
  rw [VmLe, vmBignumCompareVals_sign ha hb, sign_sub_le_zero_iff]

/-- **One order of exact numbers.** Both native comparisons answer by the sign of the difference and
so does the VM's, which makes the two engines one total order. The native products are defined in
128 bits, and so are those of the VM. -/
theorem exactCompare_agree (ops : DoubleOps D) (ord : DoubleOrder D) {x y z : Tagged D}
    {a b c : ExactVal} {p q r : ℚ} (hx : x.IsExact p) (hy : y.IsExact q) (hz : z.IsExact r)
    (ha : a.IsExact p) (hb : b.IsExact q) (hc : c.IsExact r) :
    (∀ op, eshkolBignumCompareTagged ops ord x y op
      = .ok (.bool (compareOp (SignType.sign (p - q)) op))) ∧
    (∀ op, eshkolRationalCompareTaggedPtr ops ord x y op
      = .ok (.bool (compareOp (SignType.sign (p - q)) op))) ∧
    vmBignumCompareVals a b = (SignType.sign (p - q) : ℤ) ∧
    OrderedAs (NativeLe ops ord) x y z p q ∧ OrderedAs VmLe a b c p q ∧
    ∀ u v : VmRational, -2 ^ 127 ≤ u.num.toInt * v.denom.toInt ∧
      u.num.toInt * v.denom.toInt < 2 ^ 127 := by
  refine ⟨eshkolBignumCompareTagged_eq ops ord hx hy, eshkolRationalCompareTaggedPtr_eq ops ord hx hy,
    vmBignumCompareVals_sign ha hb, ?_, ?_, ?_⟩
  · exact .of_iff (nativeLe_iff ops ord hx hy) (nativeLe_iff ops ord hy hx)
      (nativeLe_iff ops ord hy hz) (nativeLe_iff ops ord hx hz)
  · exact .of_iff (vmLe_iff ha hb) (vmLe_iff hb ha) (vmLe_iff hb hc) (vmLe_iff ha hc)
  · intro u v
    obtain ⟨hlo, hhi⟩ := mul_int64_bounds u.num v.denom
    exact ⟨by omega, by omega⟩

/-- A half, an `INT64` and a bignum that fits `int64_t`. -/
theorem exactCompare_agree_mixed :
    NativeLe DoubleOps.unit DoubleOrder.unit (.rational (.small 1 2)) (.int64 1) ∧
      VmLe (.rational (.small 1 2)) (.bignum (bignumFromInt64 1)) := by
  have hcan : LowestTerms 1 2 := ⟨by decide, rfl⟩
  have hone := bignumFromInt64_spec 1
  have hhalf : (.rational (.small 1 2) : Tagged Unit).IsExact (1 / 2) :=
    ⟨hcan, by simp [Rational.toRat, Rational.num, Rational.den]⟩
  have hhalf' : (.rational (.small 1 2) : ExactVal).IsExact (1 / 2) :=
    ⟨hcan, by simp [VmRational.toRat, VmRational.numInt, VmRational.denInt]⟩
  have hint : (.int64 1 : Tagged Unit).IsExact 1 := by simp [Tagged.IsExact]
  have hint' : (.bignum (bignumFromInt64 1) : ExactVal).IsExact 1 := ⟨hone.1, by rw [hone.2]; simp⟩
  obtain ⟨-, -, -, hn, hv, -⟩ :=
    exactCompare_agree DoubleOps.unit DoubleOrder.unit hhalf hint hint hhalf' hint' hint'
  exact ⟨hn.iff.mpr (by norm_num), hv.iff.mpr (by norm_num)⟩

end Eshkol.Vm
