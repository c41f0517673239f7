import Eshkol.Radix.Ripple

/-!
# Word Loops with Double-Width Temporaries

The loop bodies shared by multi-word addition, multiplication by a word, division by a
word and shifts by less than a word, for words of `w` bits. A temporary is an unsigned
integer of `2 * w` bits: the sum or product is reduced modulo `2 ^ (2 * w)`, its low half
is the word emitted and its high half the carry. None of the reductions changes a value;
that is part of what the lemmas show.
-/

namespace Radix

variable {w : ℕ}

theorem or_eq_add {x y i : ℕ} (hy : y < 2 ^ i) : (x * 2 ^ i ||| y) = x * 2 ^ i + y := by
  rw [Nat.mul_comm, Nat.two_pow_add_eq_or_of_lt hy]

theorem two_pow_two_mul (w : ℕ) : 2 ^ (2 * w) = 2 ^ w * 2 ^ w := by rw [two_mul, pow_add]

theorem toNat_zero_word : (0 : BitVec w).toNat = 0 := by simp

theorem toNat_ofNat_add_mul_div (t : ℕ) : (BitVec.ofNat w t).toNat + 2 ^ w * (t / 2 ^ w) = t := by
  rw [BitVec.toNat_ofNat]
  exact Nat.mod_add_div t (2 ^ w)

theorem div_mod_of_eq {W V q r : ℕ} (h : W = q * V + r) (hr : r < V) : W / V = q ∧ W % V = r :=
  (Nat.div_mod_unique (by omega)).mpr ⟨by rw [h]; ring, hr⟩

/-- `sum = x + y + carry`. -/
def addStep (carry : ℕ) (x : BitVec w × BitVec w) : BitVec w × ℕ :=
  let sum := (x.1.toNat + x.2.toNat + carry) % 2 ^ (2 * w)
  (BitVec.ofNat w sum, sum / 2 ^ w)

theorem value_ripple_addStep (hw : 0 < w) (l₁ l₂ : List (BitVec w))
    (hlen : l₁.length = l₂.length) :
    (ripple addStep (l₁.zip l₂) 0).2 ≤ 1 ∧
      value (ripple addStep (l₁.zip l₂) 0).1
          + (2 ^ w) ^ l₁.length * (ripple addStep (l₁.zip l₂) 0).2
        = value l₁ + value l₂ := by
  have hspec := ripple_spec addStep (l₁.zip l₂)
    (fun x => 1 * (x.1.toNat : ℤ) + 1 * (x.2.toNat : ℤ)) (fun s => (s : ℤ)) (fun s => s ≤ 1)
    (by
      intro s x _ hs
      have h1 := x.1.isLt
      have h2 := x.2.isLt
      have hlt : x.1.toNat + x.2.toNat + s < 2 * 2 ^ w := by omega
      have hsq : 2 * 2 ^ w ≤ 2 ^ (2 * w) := by
        rw [two_pow_two_mul]
        exact Nat.mul_le_mul_right _ (Nat.le_self_pow hw.ne' 2)
      have hmod : (x.1.toNat + x.2.toNat + s) % 2 ^ (2 * w) = x.1.toNat + x.2.toNat + s :=
        Nat.mod_eq_of_lt (by omega)
      have hval := toNat_ofNat_add_mul_div (w := w) (x.1.toNat + x.2.toNat + s)
      simp only [addStep, hmod]
      refine ⟨Nat.lt_succ_iff.mp (Nat.div_lt_of_lt_mul (by rwa [Nat.mul_comm])), ?_⟩
      rw [one_mul, one_mul]
      exact_mod_cast hval)
    (s := 0) (by omega)
  rw [weigh_zip 1 1 hlen, List.length_zip, ← hlen, Nat.min_self] at hspec
  refine ⟨hspec.1, ?_⟩
  have h := hspec.2
  rw [one_mul, one_mul, Nat.cast_zero, add_zero] at h
  exact_mod_cast h

theorem eq_sub_of_borrow {l : List (BitVec w)} {n x y : ℕ} {borrow : ℤ} (hlen : l.length = n)
    (hb : 0 ≤ borrow) (hval : (value l : ℤ) - (2 ^ w) ^ n * borrow = (x : ℤ) - y) (hle : y ≤ x) :
    value l = x - y := by
  have hlt : (value l : ℤ) < (2 ^ w) ^ n := by
    have := value_lt l
    rw [hlen] at this
    exact_mod_cast this
  have hcast : (y : ℤ) ≤ x := by exact_mod_cast hle
  have hzero : borrow = 0 := by
    by_contra hne
    have hone : (2 ^ w : ℤ) ^ n * 1 ≤ (2 ^ w) ^ n * borrow :=
      mul_le_mul_of_nonneg_left (by omega) (by positivity)
    linarith
  rw [hzero, mul_zero, sub_zero] at hval
  omega

/-! ### Multiplication -/

/-- `prod = x * y + acc + carry`. -/
def mulAddStep (y : BitVec w) (carry : ℕ) (x : BitVec w × BitVec w) : BitVec w × ℕ :=
  let prod := (x.1.toNat * y.toNat + x.2.toNat + carry) % 2 ^ (2 * w)
  (BitVec.ofNat w prod, prod / 2 ^ w)

theorem mul_add_add_lt {x y a c : ℕ} (hx : x < 2 ^ w) (hy : y < 2 ^ w) (ha : a < 2 ^ w)
    (hc : c < 2 ^ w) : x * y + a + c < 2 ^ (2 * w) := by
  rw [two_pow_two_mul]
  have hxy : x * y ≤ (2 ^ w - 1) * (2 ^ w - 1) := Nat.mul_le_mul (by omega) (by omega)
  obtain ⟨b, hb⟩ : ∃ b, 2 ^ w = b + 1 := ⟨2 ^ w - 1, by omega⟩
  rw [hb, Nat.add_sub_cancel] at hxy
  rw [hb] at ha hc ⊢
  nlinarith

theorem value_ripple_mulAddStep (y : BitVec w) (l acc : List (BitVec w))
    (hlen : l.length = acc.length) :
    (ripple (mulAddStep y) (l.zip acc) 0).2 < 2 ^ w ∧
      value (ripple (mulAddStep y) (l.zip acc) 0).1
          + (2 ^ w) ^ l.length * (ripple (mulAddStep y) (l.zip acc) 0).2
        = value acc + value l * y.toNat := by
  have hspec := ripple_spec (mulAddStep y) (l.zip acc)
    (fun x => (y.toNat : ℤ) * (x.1.toNat : ℤ) + 1 * (x.2.toNat : ℤ)) (fun s => (s : ℤ))
    (fun s => s < 2 ^ w)
    (by
      intro s x _ hs
      have hlt := mul_add_add_lt x.1.isLt y.isLt x.2.isLt hs
      have hval := toNat_ofNat_add_mul_div (w := w) (x.1.toNat * y.toNat + x.2.toNat + s)
      simp only [mulAddStep, Nat.mod_eq_of_lt hlt]
      refine ⟨Nat.div_lt_of_lt_mul (by rwa [← two_pow_two_mul]), ?_⟩
      rw [one_mul, mul_comm (y.toNat : ℤ)]
      exact_mod_cast hval)
    (s := 0) (by positivity)
  rw [weigh_zip _ 1 hlen, List.length_zip, ← hlen, Nat.min_self] at hspec
  refine ⟨hspec.1, ?_⟩
  have h := hspec.2
  rw [one_mul, Nat.cast_zero, add_zero] at h
  rw [Nat.add_comm (value acc), Nat.mul_comm (value l)]
  exact_mod_cast h

/-- `prod = x * y + carry`. -/
def mulStep (y : BitVec w) (carry : ℕ) (x : BitVec w) : BitVec w × ℕ :=
  let prod := (x.toNat * y.toNat + carry) % 2 ^ (2 * w)
  (BitVec.ofNat w prod, prod / 2 ^ w)

theorem value_ripple_mulStep (y : BitVec w) (l : List (BitVec w)) {carry : ℕ}
    (hc : carry < 2 ^ w) :
    (ripple (mulStep y) l carry).2 < 2 ^ w ∧
      value (ripple (mulStep y) l carry).1 + (2 ^ w) ^ l.length * (ripple (mulStep y) l carry).2
        = value l * y.toNat + carry := by
  have hspec := ripple_spec (mulStep y) l (fun x => (y.toNat : ℤ) * (x.toNat : ℤ))
    (fun s => (s : ℤ)) (fun s => s < 2 ^ w)
    (by
      intro s x _ hs
      have hlt := mul_add_add_lt x.isLt y.isLt (by positivity : 0 < 2 ^ w) hs
      rw [Nat.add_zero] at hlt
      have hval := toNat_ofNat_add_mul_div (w := w) (x.toNat * y.toNat + s)
      simp only [mulStep, Nat.mod_eq_of_lt hlt]
      refine ⟨Nat.div_lt_of_lt_mul (by rwa [← two_pow_two_mul]), ?_⟩
      rw [mul_comm (y.toNat : ℤ)]
      exact_mod_cast hval)
    (s := carry) hc
  rw [weigh_mul] at hspec
  refine ⟨hspec.1, ?_⟩
  rw [Nat.mul_comm (value l)]
  exact_mod_cast hspec.2

/-- `result[offset ..] += a * y`: the carry loop over the words of `a`, then the carry is
added to the word above them. -/
def addmulAt (result a : List (BitVec w)) (y : BitVec w) (offset : ℕ) : List (BitVec w) :=
  let out := ripple (mulAddStep y) (a.zip ((result.drop offset).take a.length)) 0
  let low := result.take offset ++ out.1
  match result.drop (offset + a.length) with
  | [] => low
  | t :: rest => low ++ (t + BitVec.ofNat w out.2) :: rest

/-- With the words above the window clear, one more partial product is accumulated and
the words above the next window are clear. -/
theorem addmulAt_spec {result a : List (BitVec w)} (y : BitVec w) {offset : ℕ}
    (hlen : offset + a.length < result.length)
    (hclear : value (result.drop (offset + a.length)) = 0) :
    (addmulAt result a y offset).length = result.length ∧
      value (addmulAt result a y offset)
        = value result + (2 ^ w) ^ offset * (value a * y.toNat) ∧
      value ((addmulAt result a y offset).drop (offset + 1 + a.length)) = 0 := by
  obtain ⟨t, rest, htop⟩ := List.exists_cons_of_ne_nil
    (List.ne_nil_of_length_pos (l := result.drop (offset + a.length)) (by simp; omega))
  set win := (result.drop offset).take a.length with hwin
  have hwinlen : a.length = win.length := by simp [hwin]; omega
  obtain ⟨hcarry, hval⟩ := value_ripple_mulAddStep y a win hwinlen
  set out := ripple (mulAddStep y) (a.zip win) 0 with hout
  have houtlen : out.1.length = a.length := by simp [hout, ← hwinlen]
  have htake : (result.take offset).length = offset := List.length_take_of_le (by omega)
  have heq : addmulAt result a y offset
      = result.take offset ++ out.1 ++ (t + BitVec.ofNat w out.2) :: rest := by
    simp only [addmulAt, ← hwin, ← hout, htop]
  have hsplit : result = result.take offset ++ win ++ t :: rest := by
    rw [hwin, ← htop, ← List.drop_drop, List.append_assoc, List.take_append_drop,
      List.take_append_drop]
  rw [htop, value_cons, Nat.add_eq_zero_iff, Nat.mul_eq_zero] at hclear
  have ht : t.toNat = 0 := hclear.1
  have hrest : value rest = 0 := hclear.2.resolve_left (by positivity)
  have htop' : (t + BitVec.ofNat w out.2).toNat = out.2 := by
    rw [BitVec.toNat_add, ht, BitVec.toNat_ofNat, Nat.zero_add, Nat.mod_mod,
      Nat.mod_eq_of_lt hcarry]
  have hlow : (result.take offset ++ out.1).length = offset + a.length := by
    rw [List.length_append, htake, houtlen]
  refine ⟨?_, ?_, ?_⟩
  · have := congrArg List.length hsplit
    simp only [List.length_append, List.length_cons] at this
    rw [heq, List.length_append, hlow, this, htake, ← hwinlen, List.length_cons]
  · have hres : value result
        = value (result.take offset) + (2 ^ w) ^ offset * value win := by
      conv_lhs => rw [hsplit]
      rw [value_append, value_append, value_cons, ht, hrest, htake]
      ring
    rw [heq, value_append, value_append, value_cons, htop', hrest, hres, htake,
      List.length_append, htake, houtlen, pow_add]
    calc value (result.take offset) + (2 ^ w) ^ offset * value out.1
          + (2 ^ w) ^ offset * (2 ^ w) ^ a.length * (out.2 + 2 ^ w * 0)
        = value (result.take offset) + (2 ^ w) ^ offset
            * (value out.1 + (2 ^ w) ^ a.length * out.2) := by ring
      _ = _ := by rw [hval]; ring
  · rw [heq, show offset + 1 + a.length = (offset + a.length) + 1 by omega, ← List.drop_drop,
      List.drop_left' hlow, List.drop_one, List.tail_cons, hrest]

/-- The outer loop of a schoolbook multiplication: one `pass` for each word of the second
factor, at its offset. -/
def mulLoop (pass : List (BitVec w) → BitVec w → ℕ → List (BitVec w)) :
    List (BitVec w) → ℕ → List (BitVec w) → List (BitVec w)
  | [], _, result => result
  | y :: ys, i, result => mulLoop pass ys (i + 1) (pass result y i)

/-- **Schoolbook multiplication.** If every pass adds its partial product and leaves the
words above the next window clear, the loop adds the whole product. -/
theorem mulLoop_spec {pass : List (BitVec w) → BitVec w → ℕ → List (BitVec w)}
    {a : List (BitVec w)} {len : ℕ}
    (hpass : ∀ result y i, result.length = len → i + a.length < len →
      value (result.drop (i + a.length)) = 0 →
      (pass result y i).length = len ∧
      value (pass result y i) = value result + (2 ^ w) ^ i * (value a * y.toNat) ∧
      value ((pass result y i).drop (i + 1 + a.length)) = 0)
    {ys result : List (BitVec w)} {i : ℕ} (hlen : result.length = len)
    (hys : i + ys.length + a.length = len)
    (hclear : value (result.drop (i + a.length)) = 0) :
    value (mulLoop pass ys i result)
      = value result + (2 ^ w) ^ i * (value a * value ys) := by
  induction ys generalizing i result with
  | nil => simp [mulLoop]
  | cons y ys ih =>
    rw [List.length_cons] at hys
    obtain ⟨hlen', hval, hclear'⟩ := hpass result y i hlen (by omega) hclear
    rw [mulLoop, ih hlen' (by omega) hclear', hval, value_cons, pow_succ]
    ring

/-- `cur = rem << w | x; x = cur / d; rem = cur % d`. -/
def shortDivStep (d : BitVec w) (rem : ℕ) (x : BitVec w) : BitVec w × ℕ :=
  let cur := rem * 2 ^ w % 2 ^ (2 * w) ||| x.toNat
  (BitVec.ofNat w (cur / d.toNat), cur % d.toNat)

theorem value_rippleDown_shortDivStep {d : BitVec w} (hd : d.toNat ≠ 0)
    (l : List (BitVec w)) :
    value (rippleDown (shortDivStep d) l 0).1 = value l / d.toNat ∧
      (rippleDown (shortDivStep d) l 0).2 = value l % d.toNat := by
  have hdlt := d.isLt
  have hspec := rippleDown_spec (shortDivStep d) d.toNat (fun s => s) (fun s => s < d.toNat)
    (by
      intro s x hs
      have hmod : s * 2 ^ w % 2 ^ (2 * w) = s * 2 ^ w := by
        rw [two_pow_two_mul]
        exact Nat.mod_eq_of_lt (Nat.mul_lt_mul_of_pos_right (by omega) (by positivity))
      have hcur : s * 2 ^ w + x.toNat < 2 ^ w * d.toNat := by
        have := x.isLt
        have hle : (s + 1) * 2 ^ w ≤ d.toNat * 2 ^ w := Nat.mul_le_mul_right _ hs
        rw [Nat.add_mul, Nat.one_mul, Nat.mul_comm d.toNat] at hle
        omega
      simp only [shortDivStep, hmod, or_eq_add x.isLt, BitVec.toNat_ofNat]
      refine ⟨Nat.mod_lt _ (by omega), ?_⟩
      rw [Nat.mod_eq_of_lt (Nat.div_lt_of_lt_mul (by rwa [Nat.mul_comm d.toNat])),
        Nat.mul_comm _ d.toNat]
      exact (Nat.div_add_mod _ _).symm)
    (s := 0) (by omega) l
  have h := hspec.2
  rw [Nat.zero_mul, Nat.zero_add] at h
  have hdm := div_mod_of_eq h hspec.1
  exact ⟨hdm.1.symm, hdm.2.symm⟩

/-! ### Shifts by less than a word -/

/-- `x << s | carry`, with the bits shifted out as the next carry. -/
def shlStep (s : ℕ) (carry x : BitVec w) : BitVec w × BitVec w := (x <<< s ||| carry, x >>> (w - s))

theorem shlStep_spec {s : ℕ} (hs : s ≤ w) {carry x : BitVec w} (hc : carry.toNat < 2 ^ s) :
    (shlStep s carry x).2.toNat < 2 ^ s ∧
      (shlStep s carry x).1.toNat + 2 ^ w * (shlStep s carry x).2.toNat
        = 2 ^ s * x.toNat + carry.toNat := by
  have hw : 2 ^ w = 2 ^ s * 2 ^ (w - s) := by rw [← pow_add, Nat.add_sub_cancel' hs]
  have hx : x.toNat < 2 ^ (w - s) * 2 ^ s := by
    rw [Nat.mul_comm, ← hw]
    exact x.isLt
  have hlow : x.toNat * 2 ^ s % 2 ^ w = x.toNat % 2 ^ (w - s) * 2 ^ s := by
    rw [hw, Nat.mul_comm (2 ^ s), Nat.mul_mod_mul_right]
  simp only [shlStep, BitVec.toNat_or, BitVec.toNat_shiftLeft, BitVec.toNat_ushiftRight,
    Nat.shiftLeft_eq, Nat.shiftRight_eq_div_pow, hlow, or_eq_add hc]
  refine ⟨Nat.div_lt_of_lt_mul hx, ?_⟩
  calc x.toNat % 2 ^ (w - s) * 2 ^ s + carry.toNat + 2 ^ w * (x.toNat / 2 ^ (w - s))
      = 2 ^ s * (x.toNat % 2 ^ (w - s) + 2 ^ (w - s) * (x.toNat / 2 ^ (w - s)))
          + carry.toNat := by rw [hw]; ring
    _ = _ := by rw [Nat.mod_add_div]

theorem value_ripple_shlStep {s : ℕ} (hs : s ≤ w) (l : List (BitVec w)) :
    value (ripple (shlStep s) l 0).1 + (2 ^ w) ^ l.length * (ripple (shlStep s) l 0).2.toNat
      = value l * 2 ^ s := by
  have hspec := ripple_spec (shlStep s) l (fun x => (2 ^ s : ℤ) * (x.toNat : ℤ))
    (fun c => (c.toNat : ℤ)) (fun c => c.toNat < 2 ^ s)
    (by
      intro c x _ hc
      obtain ⟨h1, h2⟩ := shlStep_spec hs (x := x) hc
      exact ⟨h1, by exact_mod_cast h2⟩)
    (s := 0) (by simp)
  have h := hspec.2
  rw [weigh_mul] at h
  rw [toNat_zero_word, Nat.cast_zero, add_zero] at h
  rw [Nat.mul_comm (value l)]
  exact_mod_cast h

/-- `tmp = x << s | carry` in an unsigned temporary of `2 * w` bits, cut into the word and
the next carry. -/
def shlWideStep (s : ℕ) (carry x : BitVec w) : BitVec w × BitVec w :=
  let tmp := x.toNat * 2 ^ s % 2 ^ (2 * w) ||| carry.toNat
  (BitVec.ofNat w tmp, BitVec.ofNat w (tmp / 2 ^ w))

theorem value_ripple_shlWideStep {s : ℕ} (hs : s ≤ w) (l : List (BitVec w)) :
    value (ripple (shlWideStep s) l 0).1
        + (2 ^ w) ^ l.length * (ripple (shlWideStep s) l 0).2.toNat = value l * 2 ^ s := by
  have hsw : 2 ^ s ≤ 2 ^ w := Nat.pow_le_pow_right (by omega) hs
  have hspec := ripple_spec (shlWideStep s) l (fun x => (2 ^ s : ℤ) * (x.toNat : ℤ))
    (fun c => (c.toNat : ℤ)) (fun c => c.toNat < 2 ^ s)
    (by
      intro c x _ hc
      have hx : (x.toNat + 1) * 2 ^ s ≤ 2 ^ w * 2 ^ s := Nat.mul_le_mul_right _ x.isLt
      rw [Nat.add_mul, Nat.one_mul] at hx
      have hle : 2 ^ w * 2 ^ s ≤ 2 ^ (2 * w) := by
        rw [two_pow_two_mul]
        exact Nat.mul_le_mul_left _ hsw
      have hmod : x.toNat * 2 ^ s % 2 ^ (2 * w) = x.toNat * 2 ^ s := Nat.mod_eq_of_lt (by omega)
      have hhigh : (x.toNat * 2 ^ s + c.toNat) / 2 ^ w < 2 ^ s := Nat.div_lt_of_lt_mul (by omega)
      have hval := toNat_ofNat_add_mul_div (w := w) (x.toNat * 2 ^ s + c.toNat)
      simp only [shlWideStep, hmod, or_eq_add hc]
      rw [BitVec.toNat_ofNat (_ / _) w, Nat.mod_eq_of_lt (by omega)]
      refine ⟨hhigh, ?_⟩
      rw [mul_comm (2 ^ s : ℤ)]
      exact_mod_cast hval)
    (s := 0) (by simp)
  have h := hspec.2
  rw [weigh_mul] at h
  rw [toNat_zero_word, Nat.cast_zero, add_zero] at h
  rw [Nat.mul_comm (value l)]
  exact_mod_cast h

/-- `x >> s | carry`, with the bits shifted out moved to the top as the next carry. -/
def shrStep (s : ℕ) (carry x : BitVec w) : BitVec w × BitVec w := (x >>> s ||| carry, x <<< (w - s))

theorem value_rippleDown_shrStep {s : ℕ} (hs : s ≤ w) (l : List (BitVec w)) :
    value (rippleDown (shrStep s) l 0).1 = value l / 2 ^ s := by
  have hw : 2 ^ w = 2 ^ s * 2 ^ (w - s) := by rw [← pow_add, Nat.add_sub_cancel' hs]
  have hpos : 0 < 2 ^ (w - s) := by positivity
  -- A carry is a remainder modulo `2 ^ s` held in the top bits of a word.
  have hspec := rippleDown_spec (shrStep s) (2 ^ s) (fun c => c.toNat / 2 ^ (w - s))
    (fun c => ∃ r < 2 ^ s, c.toNat = r * 2 ^ (w - s))
    (by
      rintro c x ⟨r, hr, hc⟩
      have hout : (x <<< (w - s)).toNat = x.toNat % 2 ^ s * 2 ^ (w - s) := by
        rw [BitVec.toNat_shiftLeft, Nat.shiftLeft_eq, hw, Nat.mul_mod_mul_right]
      have hx : x.toNat / 2 ^ s < 2 ^ (w - s) := Nat.div_lt_of_lt_mul (by rw [← hw]; exact x.isLt)
      refine ⟨⟨x.toNat % 2 ^ s, Nat.mod_lt _ (by positivity), hout⟩, ?_⟩
      simp only [shrStep, hout, hc, Nat.mul_div_cancel _ hpos, BitVec.toNat_or,
        BitVec.toNat_ushiftRight, Nat.shiftRight_eq_div_pow]
      rw [Nat.or_comm, or_eq_add hx]
      calc r * 2 ^ w + x.toNat
          = r * (2 ^ s * 2 ^ (w - s)) + (2 ^ s * (x.toNat / 2 ^ s) + x.toNat % 2 ^ s) := by
            rw [← hw, Nat.div_add_mod]
        _ = _ := by ring)
    (s := 0) ⟨0, by positivity, by simp⟩ l
  obtain ⟨⟨r, hr, hc⟩, h⟩ := hspec
  rw [hc, Nat.mul_div_cancel _ hpos] at h
  rw [toNat_zero_word, Nat.zero_div, Nat.zero_mul, Nat.zero_add] at h
  exact (div_mod_of_eq h hr).1.symm

end Radix
