import Eshkol.Core.Blc

/-!
# The Code of Binary Lambda Calculus

A term is decoded from its encoding whatever follows it. The position where the decoder stops is
the end of the encoding, so that no encoding is a proper start of another one.
-/

namespace Eshkol.Core.Blc

open Machine Term

/-! ### One bit -/

variable {bits : List Char} {pos : ℕ}

theorem blcDecodeVar_one (h : bits[pos]? = some '1') (count : ℕ) :
    blcDecodeVar bits pos count = blcDecodeVar bits (pos + 1) (count + 1) := by
  rw [blcDecodeVar]
  split
  next hnone => simp [h] at hnone
  next c hc =>
      obtain rfl : '1' = c := by simpa [h] using hc
      rw [if_pos rfl]

theorem blcDecodeVar_zero (h : bits[pos]? = some '0') {count : ℕ} (hcount : count ≠ 0) :
    blcDecodeVar bits pos count = .ok (var count, pos + 1) := by
  rw [blcDecodeVar]
  split
  next hnone => simp [h] at hnone
  next c hc =>
      obtain rfl : '0' = c := by simpa [h] using hc
      rw [if_neg (by decide), if_pos rfl, if_neg hcount]

theorem blcDecodeAt_var (h : bits[pos]? = some '1') :
    blcDecodeAt bits pos = blcDecodeVar bits pos 0 := by
  rw [blcDecodeAt]
  split
  next hnone => simp [h] at hnone
  next c hc =>
      obtain rfl : '1' = c := by simpa [h] using hc
      rw [if_neg (by decide), if_pos rfl]

theorem blcDecodeAt_lam (h : bits[pos]? = some '0') (h' : bits[pos + 1]? = some '0') :
    blcDecodeAt bits pos = blcDecodeAt bits (pos + 2) >>= fun body => .ok (lam body.1, body.2) := by
  rw [blcDecodeAt]
  split
  next hnone => simp [h] at hnone
  next c hc =>
      obtain rfl : '0' = c := by simpa [h] using hc
      rw [if_pos rfl]
      simp only [h', if_pos]

theorem blcDecodeAt_app (h : bits[pos]? = some '0') (h' : bits[pos + 1]? = some '1') :
    blcDecodeAt bits pos =
      blcDecodeAt bits (pos + 2) >>= fun m =>
        if pos < m.2 then blcDecodeAt bits m.2 >>= fun n => .ok (app m.1 n.1, n.2)
        else .error .diverges := by
  rw [blcDecodeAt]
  split
  next hnone => simp [h] at hnone
  next c hc =>
      obtain rfl : '0' = c := by simpa [h] using hc
      rw [if_pos rfl]
      simp only [h', if_pos, if_neg (show ¬ '1' = '0' by decide)]

/-! ### Terms -/

theorem blcDecodeVar_run (front rest : List Char) {n count : ℕ} (hpos : count + n ≠ 0) :
    blcDecodeVar (front ++ (List.replicate n '1' ++ '0' :: rest)) front.length count =
      .ok (var (count + n : ℕ), front.length + n + 1) := by
  induction n generalizing front count with
  | zero => exact blcDecodeVar_zero (by simp) hpos
  | succ n ih =>
    have htext : front ++ (List.replicate (n + 1) '1' ++ '0' :: rest) =
        (front ++ ['1']) ++ (List.replicate n '1' ++ '0' :: rest) := by
      simp [List.replicate_succ]
    have ih := @ih (front ++ ['1']) (count + 1) (by omega)
    rw [List.length_append, List.length_singleton] at ih
    rw [blcDecodeVar_one (by simp [List.replicate_succ]), htext, ih]
    congr 2
    · congr 2
      omega
    · omega

/-- The code of a term is decoded wherever it stands. -/
theorem blcDecodeAt_append {t : Term} (ht : blcTerm t = true) :
    ∃ code, blcEncode t = .ok code ∧ code ≠ [] ∧ ∀ front rest,
      blcDecodeAt (front ++ (code ++ rest)) front.length = .ok (t, front.length + code.length) := by
  induction t with
  | var i =>
    have hi : 1 ≤ i := of_decide_eq_true ht
    refine ⟨blcOnes i ++ ['0'], if_pos hi, by simp, fun front rest => ?_⟩
    obtain ⟨n, rfl⟩ : ∃ n : ℕ, i = (n + 1 : ℕ) := ⟨(i - 1).toNat, by omega⟩
    have hrun := @blcDecodeVar_run front rest (n + 1) 0 (by omega)
    rw [Nat.zero_add] at hrun
    have htext : front ++ (blcOnes (n + 1 : ℕ) ++ ['0'] ++ rest) =
        front ++ (List.replicate (n + 1) '1' ++ '0' :: rest) := by simp [blcOnes]
    rw [htext, blcDecodeAt_var (by simp [List.replicate_succ]), hrun]
    simp [blcOnes, Nat.add_assoc]
  | lam b ih =>
    obtain ⟨code, hcode, -, hdecode⟩ := ih ht
    refine ⟨'0' :: '0' :: code, by rw [blcEncode, hcode, ok_bind], by simp, fun front rest => ?_⟩
    have htext : front ++ ('0' :: '0' :: code ++ rest) =
        (front ++ ['0', '0']) ++ (code ++ rest) := by simp
    have hbody := hdecode (front ++ ['0', '0']) rest
    rw [List.length_append] at hbody
    rw [htext, blcDecodeAt_lam (by simp) (by simp)]
    simp only [List.length_cons, List.length_nil] at hbody ⊢
    rw [hbody, ok_bind]
    congr 2
    omega
  | app m n ihm ihn =>
    obtain ⟨hm, hn⟩ := Bool.and_eq_true_iff.mp ht
    obtain ⟨fn, hfn, -, hdecodeFn⟩ := ihm hm
    obtain ⟨arg, harg, -, hdecodeArg⟩ := ihn hn
    refine ⟨'0' :: '1' :: (fn ++ arg), by rw [blcEncode, hfn, ok_bind, harg, ok_bind], by simp,
      fun front rest => ?_⟩
    have htext : front ++ ('0' :: '1' :: (fn ++ arg) ++ rest) =
        (front ++ ['0', '1']) ++ (fn ++ (arg ++ rest)) := by simp
    have htext' : (front ++ ['0', '1']) ++ (fn ++ (arg ++ rest)) =
        (front ++ ['0', '1'] ++ fn) ++ (arg ++ rest) := by simp
    have hdecodeFn := hdecodeFn (front ++ ['0', '1']) (arg ++ rest)
    have hdecodeArg := hdecodeArg (front ++ ['0', '1'] ++ fn) rest
    rw [← htext'] at hdecodeArg
    rw [htext, blcDecodeAt_app (by simp) (by simp)]
    simp only [List.length_append, List.length_cons, List.length_nil] at hdecodeFn hdecodeArg ⊢
    rw [hdecodeFn, ok_bind, if_pos (by omega), hdecodeArg, ok_bind]
    congr 2
    omega

theorem blcDecode_of_blcEncode {t : Term} (ht : blcTerm t = true) {code : List Char}
    (hcode : blcEncode t = .ok code) : blcDecode code = .ok t := by
  obtain ⟨code', hcode', hne, hdecode⟩ := blcDecodeAt_append ht
  obtain rfl := Except.ok.inj (hcode.symm.trans hcode')
  have h := hdecode [] []
  rw [List.nil_append, List.append_nil, List.length_nil] at h
  rw [blcDecode, if_neg (by simpa using hne), h, ok_bind]

/-- **The code of binary lambda calculus**: the decoder stops behind the encoding of a term, it
inverts the encoder, and no encoding is a proper start of another one. -/
theorem blcDecode_inverts {t : Term} (ht : blcTerm t = true) :
    ∃ code, blcEncode t = .ok code ∧
      (∀ rest, blcDecodeAt (code ++ rest) 0 = .ok (t, code.length)) ∧
      blcDecode code = .ok t ∧
      ∀ t' code', blcTerm t' = true → blcEncode t' = .ok code' → code <+: code' →
        t = t' ∧ code = code' := by
  obtain ⟨code, hcode, -, hdecode⟩ := blcDecodeAt_append ht
  have hrest (rest : List Char) : blcDecodeAt (code ++ rest) 0 = .ok (t, code.length) := by
    have h := hdecode [] rest
    rwa [List.nil_append, List.length_nil, Nat.zero_add] at h
  refine ⟨code, hcode, hrest, blcDecode_of_blcEncode ht hcode, ?_⟩
  rintro t' code' ht' hcode' ⟨rest, rfl⟩
  obtain ⟨code'', hcode'', -, hdecode'⟩ := blcDecodeAt_append ht'
  obtain rfl := Except.ok.inj (hcode'.symm.trans hcode'')
  have h' := hdecode' [] []
  rw [List.nil_append, List.append_nil, List.length_nil, Nat.zero_add, hrest rest] at h'
  obtain ⟨rfl, -⟩ := Prod.mk.inj (Except.ok.inj h')
  exact ⟨rfl, Except.ok.inj (hcode.symm.trans hcode')⟩

/-- The pairing combinator `λλλ.((1 3) 2)` has the encoding that the module cites. -/
theorem blcDecode_inverts_pair :
    ∃ code, blcEncode (lam (lam (lam (app (app (var 1) (var 3)) (var 2))))) = .ok code ∧
      code = "0000000101101110110".toList ∧
      blcDecode code = .ok (lam (lam (lam (app (app (var 1) (var 3)) (var 2))))) := by
  obtain ⟨code, hcode, -, hdecode, -⟩ :=
    @blcDecode_inverts (lam (lam (lam (app (app (var 1) (var 3)) (var 2))))) rfl
  exact ⟨code, hcode, (Except.ok.inj hcode).symm, hdecode⟩

end Eshkol.Core.Blc
