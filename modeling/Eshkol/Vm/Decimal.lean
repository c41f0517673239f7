import Eshkol.Native.Print
import Eshkol.Vm.Divide

/-!
# Decimal Texts of VM Bignums

`bignum_to_string` and `bignum_from_string` of the bytecode VM (`lib/backend/vm_bignum.c`). Both work
with chunks of nine decimal digits, which fit a limb. The printer divides by `10^9` and pads every
chunk but the first with zeros; the reader takes the digits that are left over by nine first.
-/

namespace Eshkol.Vm

open Radix Machine

/-! ### Printing -/

/-- What `%09u` prints. -/
def paddedText (n : ℕ) : List Char := List.replicate (9 - (natText n).length) '0' ++ natText n

/-- The chunks of a magnitude, the least significant first, with the number of chunks for which
there is room. -/
def digitChunks : ℕ → VmBignum → Exec Empty (Option (List (BitVec 32)))
  | 0, tmp => if bignumIsZero tmp then .ok (some []) else .error .undefined
  | room + 1, tmp =>
    if bignumIsZero tmp then .ok (some [])
    else
      match magDivSingle tmp 1000000000 with
      | none => .ok none
      | some (q, rem) => do
          let chunks ← digitChunks room q
          .ok (chunks.map (rem :: ·))

/-- The text of chunks: the last one without leading zeros comes first. -/
def chunksText : List (BitVec 32) → List Char
  | [] => []
  | [top] => natText top.toNat
  | chunk :: next :: chunks => chunksText (next :: chunks) ++ paddedText chunk.toNat

/-- `bignum_to_string`. The text and a terminating zero must fit into the buffer. -/
def bignumToString (b : VmBignum) : Exec Empty (Option (List Char)) :=
  if bignumIsZero b then .ok (some ['0'])
  else do
    let chunks ← digitChunks (b.nLimbs * 2 + 2) (bignumAbsVal b)
    match chunks with
    | none => .ok none
    | some chunks =>
      let text := if b.sign = -1 then '-' :: chunksText chunks else chunksText chunks
      if text.length < b.nLimbs * 10 + 2 then .ok (some text) else .error .undefined

theorem paddedText_eq (r : ℕ) :
    paddedText r = ((Nat.digits 10 r ++
      List.replicate (9 - (Nat.digits 10 r).length) 0).map digitChar).reverse := by
  by_cases h : r = 0
  · subst h
    rfl
  · rw [paddedText, natText, if_neg h, List.map_append, List.reverse_append, List.length_reverse,
      List.length_map, List.map_replicate, List.reverse_replicate]
    rfl

theorem natText_mul_add {q r : ℕ} (hq : q ≠ 0) (hr : r < 10 ^ 9) :
    natText (q * 10 ^ 9 + r) = natText q ++ paddedText r := by
  have hlen : (Nat.digits 10 r).length ≤ 9 := (Nat.digits_length_le_iff (by omega) r).mpr hr
  have hdigits := Nat.digits_append_zeroes_append_digits (b := 10) (n := r) (m := q)
    (k := 9 - (Nat.digits 10 r).length) (by omega) (Nat.pos_of_ne_zero hq)
  rw [Nat.add_sub_cancel' hlen] at hdigits
  have hne : q * 10 ^ 9 + r ≠ 0 := by omega
  rw [paddedText_eq, natText, natText, if_neg hne, if_neg hq, ← List.reverse_append, ← List.map_append,
    hdigits, Nat.add_comm, Nat.mul_comm]

theorem magDivSingle_spec (a : VmBignum) {d : BitVec 32} (hd : d.toNat ≠ 0) :
    ∃ q rem, magDivSingle a d = some (q, rem) ∧ q.Normalized ∧
      q.magnitude = a.magnitude / d.toNat ∧ rem.toNat = a.magnitude % d.toNat := by
  have hd0 : d ≠ 0 := by
    rintro rfl
    exact hd rfl
  obtain ⟨hq, hr⟩ := value_rippleDown_shortDivStep hd a.limbs
  obtain ⟨hqn, hqm, -⟩ := bignumNormalize_spec (s := 1) (by decide)
    (rippleDown (shortDivStep d) a.limbs 0).1
  have hlt : a.magnitude % d.toNat < 2 ^ 32 := lt_trans (Nat.mod_lt _ (by omega)) d.isLt
  rw [magDivSingle, if_neg hd0]
  refine ⟨_, _, rfl, hqn, by rw [hqm, hq]; rfl, ?_⟩
  rw [BitVec.toNat_ofNat, hr]
  exact Nat.mod_eq_of_lt hlt

theorem bignumIsZero_iff_magnitude {a : VmBignum} (ha : a.Normalized) :
    bignumIsZero a = true ↔ a.magnitude = 0 := by
  rw [bignumIsZero_iff ha, ha.toInt_eq_zero_iff, ha.magnitude_eq_zero_iff]

/-- The chunks of nine digits are the digits of the number. -/
theorem digitChunks_spec {room : ℕ} {tmp : VmBignum} (htmp : tmp.Normalized)
    (hroom : tmp.magnitude < (10 ^ 9) ^ room) :
    ∃ chunks, digitChunks room tmp = .ok (some chunks) ∧
      if tmp.magnitude = 0 then chunks = [] else chunksText chunks = natText tmp.magnitude := by
  induction room generalizing tmp with
  | zero =>
    have hmag : tmp.magnitude = 0 := by simpa using hroom
    exact ⟨[], by rw [digitChunks, if_pos ((bignumIsZero_iff_magnitude htmp).mpr hmag)],
      by rw [if_pos hmag]⟩
  | succ room ih =>
    rw [digitChunks]
    by_cases hmag : tmp.magnitude = 0
    · exact ⟨[], by rw [if_pos ((bignumIsZero_iff_magnitude htmp).mpr hmag)], by rw [if_pos hmag]⟩
    · have hd : (1000000000 : BitVec 32).toNat = 10 ^ 9 := rfl
      obtain ⟨q, rem, hdiv, hq, hqm, hrem⟩ := @magDivSingle_spec tmp 1000000000 (by rw [hd]; decide)
      rw [hd] at hqm hrem
      have hqroom : q.magnitude < (10 ^ 9) ^ room := by
        rw [hqm, Nat.div_lt_iff_lt_mul (by decide), ← pow_succ]
        exact hroom
      obtain ⟨chunks, hchunks, htext⟩ := ih hq hqroom
      rw [if_neg (mt (bignumIsZero_iff_magnitude htmp).mp hmag), hdiv]
      simp only [hchunks, ok_bind, if_neg hmag]
      refine ⟨rem :: chunks, rfl, ?_⟩
      have hsplit := Nat.div_add_mod' tmp.magnitude (10 ^ 9)
      rw [← hqm, ← hrem] at hsplit
      split at htext
      next hq0 =>
          subst htext
          rw [hq0, Nat.zero_mul, Nat.zero_add] at hsplit
          rw [chunksText, hsplit]
      next hq0 =>
          have hne : chunks ≠ [] := by
            rintro rfl
            exact natText_ne_nil _ htext.symm
          obtain ⟨next, rest, rfl⟩ := List.exists_cons_of_ne_nil hne
          rw [chunksText, htext, ← natText_mul_add hq0 (hrem ▸ Nat.mod_lt _ (by decide)), hsplit]

theorem length_digits_vmMagnitude (a : VmBignum) :
    (Nat.digits 10 a.magnitude).length ≤ a.nLimbs * 10 := by
  rw [Nat.digits_length_le_iff (by omega)]
  calc a.magnitude < (2 ^ 32) ^ a.nLimbs := value_lt a.limbs
    _ ≤ (10 ^ 10) ^ a.nLimbs := Nat.pow_le_pow_left (by norm_num) _
    _ = 10 ^ (a.nLimbs * 10) := by rw [← pow_mul, Nat.mul_comm]

theorem bignumToString_spec {b : VmBignum} (hb : b.Normalized) :
    bignumToString b = .ok (some (intText b.toInt)) := by
  rw [bignumToString]
  split
  next h =>
      rw [(bignumIsZero_iff hb).mp h]
      rfl
  next h =>
      obtain ⟨habs, hval⟩ := bignumAbsVal_spec hb
      have hmag : (bignumAbsVal b).magnitude = b.magnitude := by
        rw [← habs.natAbs_toInt, hval, Int.natAbs_natCast]
      have hne : b.magnitude ≠ 0 := mt (bignumIsZero_iff_magnitude hb).mpr h
      have hroom : (bignumAbsVal b).magnitude < (10 ^ 9) ^ (b.nLimbs * 2 + 2) := by
        rw [hmag]
        calc b.magnitude < (2 ^ 32) ^ b.nLimbs := value_lt b.limbs
          _ ≤ ((10 ^ 9) ^ 2) ^ b.nLimbs := Nat.pow_le_pow_left (by norm_num) _
          _ = (10 ^ 9) ^ (b.nLimbs * 2) := by rw [← pow_mul, Nat.mul_comm]
          _ ≤ (10 ^ 9) ^ (b.nLimbs * 2 + 2) := Nat.pow_le_pow_right (by norm_num) (by omega)
      obtain ⟨chunks, hchunks, htext⟩ := digitChunks_spec habs hroom
      rw [hmag, if_neg hne] at htext
      have hlen : (natText b.magnitude).length ≤ b.nLimbs * 10 := by
        rw [natText, if_neg hne, List.length_reverse, List.length_map]
        exact length_digits_vmMagnitude b
      have hint : intText b.toInt = if b.sign = -1 then '-' :: natText b.magnitude
          else natText b.magnitude := by
        rw [intText, hb.natAbs_toInt, hb.sign_eq]
        simp only [sign_eq_neg_one_iff]
      simp only [hchunks, ok_bind, htext]
      rw [← hint, if_pos]
      rw [hint]
      split
      · rw [List.length_cons]
        omega
      · omega

/-! ### Reading -/

/-- Leading zeros, but not the last digit. -/
def skipZeros : List Char → List Char
  | '0' :: c :: cs => skipZeros (c :: cs)
  | cs => cs

/-- `r = r * 10^len + value`. The carry that is left is below `10^9`, so that it makes at most one
further limb. -/
def appendChunk (limbs : List (BitVec 32)) (len value : ℕ) : List (BitVec 32) :=
  let out := ripple (mulStep (BitVec.ofNat 32 (10 ^ len))) limbs value
  if 0 < out.2 then out.1 ++ [BitVec.ofNat 32 out.2] else out.1

/-- The loop of `bignum_from_string`, with the length of the next chunk. -/
def appendChunks (s : List Char) (chunkLen : ℕ) (limbs : List (BitVec 32)) :
    Option (List (BitVec 32)) :=
  if s = [] ∨ chunkLen = 0 then some limbs
  else if (s.take chunkLen).all Char.isDigit then
    appendChunks (s.drop chunkLen) 9 (appendChunk limbs (s.take chunkLen).length
      (decimalValue 0 (s.take chunkLen)))
  else none
termination_by s.length
decreasing_by
  rename_i h _
  obtain ⟨hs, hlen⟩ := not_or.mp h
  have := List.length_pos_iff.mpr hs
  rw [List.length_drop]
  omega

/-- The length of the first chunk. -/
def firstChunkLen (len : ℕ) : ℕ := if len % 9 = 0 then 9 else len % 9

def bignumFromString (s : List Char) : VmBignum :=
  let digits := skipZeros (splitSign s).2
  if digits = [] then bignumFromInt64 0
  else
    match appendChunks digits (firstChunkLen digits.length) [] with
    | none => bignumFromInt64 0
    | some limbs => bignumNormalize (if (splitSign s).1 then -1 else 1) limbs

theorem value_appendChunk (limbs : List (BitVec 32)) {len v : ℕ} (hlen : len ≤ 9)
    (hv : v < 10 ^ len) : value (appendChunk limbs len v) = value limbs * 10 ^ len + v := by
  have hpow : 10 ^ len < 2 ^ 32 :=
    lt_of_le_of_lt (Nat.pow_le_pow_right (by omega) hlen) (by norm_num)
  obtain ⟨hlt, hval⟩ := value_ripple_mulStep (BitVec.ofNat 32 (10 ^ len)) limbs (hv.trans hpow)
  rw [BitVec.toNat_ofNat, Nat.mod_eq_of_lt hpow] at hval
  rw [appendChunk]
  split
  next hc =>
      rw [value_append, length_ripple, value_cons, value_nil, Nat.mul_zero, Nat.add_zero,
        BitVec.toNat_ofNat, Nat.mod_eq_of_lt hlt, hval]
  next hc =>
      rw [Nat.eq_zero_of_not_pos hc, Nat.mul_zero, Nat.add_zero] at hval
      exact hval

theorem decimalValue_eq (acc : ℕ) (cs : List Char) :
    decimalValue acc cs = acc * 10 ^ cs.length + decimalValue 0 cs := by
  induction cs generalizing acc with
  | nil => simp [decimalValue]
  | cons c cs ih =>
    have hstep (n : ℕ) : decimalValue n (c :: cs) = decimalValue (n * 10 + (c.toNat - 48)) cs := rfl
    rw [hstep, hstep, ih, ih (0 * 10 + (c.toNat - 48)), List.length_cons, pow_succ]
    ring

theorem decimalValue_lt {cs : List Char} (h : ∀ c ∈ cs, c.isDigit = true) :
    decimalValue 0 cs < 10 ^ cs.length := by
  induction cs with
  | nil => simp [decimalValue]
  | cons c cs ih =>
    have hc := toNat_of_isDigit (h c List.mem_cons_self)
    have hcs := ih fun d hd => h d (List.mem_cons_of_mem c hd)
    have hstep : decimalValue 0 (c :: cs) = decimalValue (0 * 10 + (c.toNat - 48)) cs := rfl
    have hle : (0 * 10 + (c.toNat - 48)) * 10 ^ cs.length ≤ 9 * 10 ^ cs.length :=
      Nat.mul_le_mul_right _ (by omega)
    rw [hstep, decimalValue_eq, List.length_cons, pow_succ]
    omega

theorem appendChunks_spec {s : List Char} (hs : ∀ c ∈ s, c.isDigit = true) {chunkLen : ℕ}
    (hpos : 0 < chunkLen) (hle : chunkLen ≤ 9) (limbs : List (BitVec 32)) :
    ∃ out, appendChunks s chunkLen limbs = some out ∧ value out = decimalValue (value limbs) s := by
  induction hn : s.length using Nat.strong_induction_on generalizing s chunkLen limbs with
  | _ n ih =>
    rw [appendChunks]
    by_cases hnil : s = []
    · subst hnil
      exact ⟨limbs, if_pos (.inl rfl), rfl⟩
    · have htake : ∀ c ∈ s.take chunkLen, c.isDigit = true := fun c hc =>
        hs c (List.mem_of_mem_take hc)
      have hdrop : (s.drop chunkLen).length < n := by
        have := List.length_pos_iff.mpr hnil
        rw [List.length_drop]
        omega
      have hlen : (s.take chunkLen).length ≤ 9 := (List.length_take_le _ _).trans hle
      rw [if_neg (by simp [hnil, hpos.ne']), if_pos (List.all_eq_true.mpr htake)]
      obtain ⟨out, hout, hval⟩ := ih _ hdrop (fun c hc => hs c (List.mem_of_mem_drop hc))
        (show 0 < 9 by omega) (le_refl 9)
        (appendChunk limbs (s.take chunkLen).length (decimalValue 0 (s.take chunkLen))) rfl
      refine ⟨out, hout, ?_⟩
      rw [hval, value_appendChunk limbs hlen (decimalValue_lt htake), ← decimalValue_eq]
      conv_rhs => rw [← List.take_append_drop chunkLen s]
      rw [decimalValue, decimalValue, decimalValue, List.foldl_append]

theorem decimalValue_skipZeros (cs : List Char) :
    decimalValue 0 (skipZeros cs) = decimalValue 0 cs := by
  fun_induction skipZeros cs with
  | case1 c cs ih => exact ih
  | case2 cs h => rfl

theorem skipZeros_subset (cs : List Char) : ∀ c ∈ skipZeros cs, c ∈ cs := by
  fun_induction skipZeros cs with
  | case1 c cs ih => exact fun d hd => List.mem_cons_of_mem '0' (ih d hd)
  | case2 cs h => exact fun _ hd => hd

theorem skipZeros_ne_nil {cs : List Char} (h : cs ≠ []) : skipZeros cs ≠ [] := by
  fun_induction skipZeros cs with
  | case1 c cs ih => exact ih (by simp)
  | case2 cs h' => exact h

theorem bignumFromString_spec {s : List Char} (hne : (splitSign s).2 ≠ [])
    (hdigits : ∀ c ∈ (splitSign s).2, c.isDigit = true) :
    (bignumFromString s).Normalized ∧ (bignumFromString s).toInt = signedDecimal (splitSign s) := by
  have hfirst (len : ℕ) : 0 < firstChunkLen len ∧ firstChunkLen len ≤ 9 := by
    rw [firstChunkLen]
    split <;> omega
  obtain ⟨out, hout, hval⟩ := appendChunks_spec
    (fun c hc => hdigits c (skipZeros_subset _ c hc))
    (hfirst (skipZeros (splitSign s).2).length).1 (hfirst _).2 []
  have hsign : (if (splitSign s).1 then -1 else 1 : SignType) ≠ 0 := by split <;> decide
  obtain ⟨hnorm, -, hint⟩ := bignumNormalize_spec hsign out
  simp only [bignumFromString, if_neg (skipZeros_ne_nil hne), hout]
  refine ⟨hnorm, ?_⟩
  rw [hint, hval, value_nil, decimalValue_skipZeros, signedDecimal]
  cases (splitSign s).1 with
  | true => simp
  | false => simp

end Eshkol.Vm
