import Mathlib.Data.Nat.Digits.Defs
import Eshkol.Eskb.Format

/-!
# LEB128 Numbers

What `eskb_read_leb128` (`lib/backend/eskb_format.h`) makes of a byte string. Its comment
promises that a number which is truncated or overflows is rejected, and the loop does stop
after ten bytes. The tenth byte is shifted by 63 places, so that only its lowest bit is kept:
the other six are dropped without a word, and numerals of different value are read as one.
-/

namespace Eshkol.Eskb

open Codec

/-! ### Positional value -/

/-- The number spelled by seven bits a byte, the low ones first. -/
def lebValue (u : Bytes) : ℕ := Nat.ofDigits 128 (u.map fun b => b.toNat % 128)

theorem lebValue_cons (b : UInt8) (u : Bytes) :
    lebValue (b :: u) = b.toNat % 128 + 128 * lebValue u := by
  simp [lebValue, Nat.ofDigits_cons]

theorem lebValue_of_numeral {u : Bytes} {m : ℕ} (h : Numeral u m) : lebValue u = m := by
  induction h with
  | last b hb =>
    rw [lebValue_cons, Nat.mod_eq_of_lt hb]
    rfl
  | more b _ _ ih => rw [lebValue_cons, ih]

theorem lebValue_append (u w : Bytes) :
    lebValue (u ++ w) = lebValue u + 128 ^ u.length * lebValue w := by
  simp [lebValue, Nat.ofDigits_append]

theorem lebValue_lt (u : Bytes) : lebValue u < 128 ^ u.length := by
  have h := Nat.ofDigits_lt_base_pow_length (b := 128) (l := u.map fun b => b.toNat % 128)
    (by omega) (by
      intro d hd
      obtain ⟨b, -, rfl⟩ := List.mem_map.mp hd
      exact Nat.mod_lt _ (by omega))
  rwa [List.length_map] at h

theorem numeral_split {u : Bytes} {m : ℕ} (h : Numeral u m) :
    ∃ high last, u = high ++ [last] ∧ (∀ b ∈ high, 128 ≤ b.toNat) ∧ last.toNat < 128 := by
  induction h with
  | last b hb => exact ⟨[], b, rfl, by simp, hb⟩
  | more b hb _ ih =>
    obtain ⟨high, last, rfl, hhigh, hlast⟩ := ih
    exact ⟨b :: high, last, rfl, by simpa using ⟨hb, hhigh⟩, hlast⟩

theorem numeral_append {high : Bytes} {last : UInt8} (hhigh : ∀ b ∈ high, 128 ≤ b.toNat)
    (hlast : last.toNat < 128) : Numeral (high ++ [last]) (lebValue (high ++ [last])) := by
  induction high with
  | nil =>
    have hnum := Numeral.last last hlast
    rwa [← lebValue_of_numeral hnum] at hnum
  | cons b high ih =>
    rw [List.cons_append, lebValue_cons]
    exact .more b (hhigh b (by simp)) (ih fun c hc => hhigh c (by simp [hc]))

/-! ### The tenth byte -/

/-- Nine continuation bytes, and a tenth byte that ends the numeral and has more than its
lowest bit. -/
def DropsBits (bs : Bytes) : Prop :=
  ∃ high last rest, bs = high ++ last :: rest ∧ high.length = 9 ∧
    (∀ b ∈ high, 128 ≤ b.toNat) ∧ 2 ≤ last.toNat ∧ last.toNat < 128

theorem two_pow_le_lebValue_iff {high : Bytes} {last : UInt8} (hlen : high.length ≤ 9)
    (hlast : last.toNat < 128) :
    2 ^ 64 ≤ lebValue (high ++ [last]) ↔ high.length = 9 ∧ 2 ≤ last.toNat := by
  have hone : lebValue [last] = last.toNat := lebValue_of_numeral (.last last hlast)
  have hlow := lebValue_lt high
  rw [lebValue_append, hone]
  rcases Nat.lt_or_eq_of_le hlen with hlt | heq
  · have hpow : 128 ^ high.length ≤ 128 ^ 8 := Nat.pow_le_pow_right (by omega) (by omega)
    refine iff_of_false ?_ (by omega)
    have hmul : 128 ^ high.length * last.toNat ≤ 128 ^ 8 * 127 := Nat.mul_le_mul hpow (by omega)
    omega
  · rw [heq] at hlow ⊢
    omega

/-- What the reader should do on `bs`: fail, or consume at most ten bytes and return their
positional value, which fits 64 bits. -/
def ReadsExactly (bs : Bytes) : Prop :=
  ∀ v rest, eskbReadLeb bs = some (v, rest) →
    ∃ u, bs = u ++ rest ∧ u.length ≤ 10 ∧ v = lebValue u ∧ v < 2 ^ 64

/-- **LEB128.** A written number is read back and its bytes are consumed. On any buffer the
reader fails or returns the value of the bytes it consumed, unless it meets a tenth byte with
bits to drop in a buffer whose size is ten or more as an `int`. -/
theorem eskbReadLeb_exact_iff (val : UInt64) (rest bs : Bytes) :
    ((eskbWriteLeb128 val ++ rest).length < 2 ^ 31 →
      eskbReadLeb (eskbWriteLeb128 val ++ rest) = some (val.toNat, rest)) ∧
    (ReadsExactly bs ↔ ¬ (DropsBits bs ∧ 10 ≤ intOfSize bs.length)) := by
  refine ⟨fun hlen => eskbReadLeb_parses.complete (leb_eskbWriteLeb128 val) hlen, ?_⟩
  constructor
  · rintro h ⟨⟨high, last, rest, rfl, hlen, hhigh, htwo, hlast⟩, hsize⟩
    have hleb : Leb (high ++ [last]) (lebValue (high ++ [last]) % 2 ^ 64) :=
      ⟨by simp [hlen], _, numeral_append hhigh hlast, rfl⟩
    obtain ⟨u, hu, -, hval, hlt⟩ := h _ rest (eskbReadLeb_eq_some.mpr
      ⟨high ++ [last], by simp, hleb, by simpa [hlen] using hsize⟩)
    obtain rfl : high ++ [last] = u := by
      rw [← List.append_cancel_right_eq _ rest, ← hu]
      simp
    have hle := (two_pow_le_lebValue_iff hlen.le hlast).mpr ⟨hlen, htwo⟩
    omega
  · intro h v rest hread
    obtain ⟨u, rfl, ⟨hten, m, hnum, rfl⟩, hsize⟩ := eskbReadLeb_eq_some.mp hread
    obtain ⟨high, last, rfl, hhigh, hlast⟩ := numeral_split hnum
    have hlen : high.length ≤ 9 := by
      rw [List.length_append, List.length_singleton] at hten
      omega
    have hfits : ¬ 2 ^ 64 ≤ lebValue (high ++ [last]) := by
      intro hle
      obtain ⟨hnine, htwo⟩ := (two_pow_le_lebValue_iff hlen hlast).mp hle
      refine h ⟨⟨high, last, rest, by simp, hnine, hhigh, htwo, hlast⟩, ?_⟩
      simpa [hnine] using hsize
    rw [lebValue_of_numeral hnum] at hfits
    rw [Nat.mod_eq_of_lt (by omega)]
    exact ⟨_, rfl, hten, (lebValue_of_numeral hnum).symm, by omega⟩

/-- The largest number takes ten bytes, and the last one is 1. -/
theorem eskbReadLeb_exact_iff_max :
    eskbReadLeb (eskbWriteLeb128 (UInt64.ofNat (2 ^ 64 - 1)) ++ [7]) =
      some ((UInt64.ofNat (2 ^ 64 - 1)).toNat, [7]) :=
  (eskbReadLeb_exact_iff _ [7] []).1 (by decide)

/-- The numeral of `2 ^ 64` is read as 0. -/
theorem eskbReadLeb_drops : ¬ ReadsExactly (List.replicate 9 128 ++ [2]) := by
  intro h
  obtain ⟨u, hu, -, hval, -⟩ := h 0 [] (by decide)
  rw [List.append_nil] at hu
  subst hu
  exact absurd hval (by decide)

end Eshkol.Eskb
