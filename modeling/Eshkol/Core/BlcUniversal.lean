import Eshkol.Core.BlcCodec
import Eshkol.Core.BlcReduction

/-!
# The Universal Machine

The self-interpreter `blc-U` of `lib/core/blc.esk`. It reads the encoding of a term from a list of
bits and passes the meaning of the term, a function of the values of its free variables, to a
continuation, together with what is left of the list. The values of the variables are a list as
well, so that an index is the number of elements to skip.
-/

namespace Eshkol.Core.Blc

open Machine Relation

namespace Universal

open Lambda Lambda.Term

/-! ### The machine -/

/-- The bit `0`. -/
def tru : Lambda.Term := lam (lam (var 1))

/-- The bit `1`. -/
def fls : Lambda.Term := lam (lam (var 0))

/-- A list with a first element. -/
def cons (h t : Lambda.Term) : Lambda.Term :=
  lam (app (app (var 0) (h.rename Nat.succ)) (t.rename Nat.succ))

/-- The meaning of an abstraction, from the meaning of its body. -/
def lamMeaning (m : Lambda.Term) : Lambda.Term :=
  lam (lam (app ((m.rename Nat.succ).rename Nat.succ) (cons (var 0) (var 1))))

/-- The meaning of an application, from the meanings of its parts. -/
def appMeaning (m n : Lambda.Term) : Lambda.Term :=
  lam (app (app (m.rename Nat.succ) (var 0)) (app (n.rename Nat.succ) (var 0)))

/-- The meaning of a variable further out, from the meaning of a variable. -/
def nextMeaning (v : Lambda.Term) : Lambda.Term := lam (app (v.rename Nat.succ) (app (var 0) fls))

/-- What is done with the meaning of a body or of a function: it depends on the second bit. -/
def afterZero : Lambda.Term :=
  app (var 2) (lam (app (app (var 1) (app (var 2) (lamMeaning (var 0))))
    (app (var 3) (lam (app (var 3) (appMeaning (var 1) (var 0)))))))

/-- What is done with a variable: it depends on the second bit. -/
def afterOne : Lambda.Term :=
  app (app (var 0) (app (var 1) (lam (app (var 0) (var 1)))))
    (lam (app (app (var 3) (lam (app (var 3) (lam (app (var 1) (app (var 0) (var 3))))))) (var 4)))

/-- One round of the interpreter, to be applied to itself. -/
def round : Lambda.Term :=
  lam (lam (lam (app (app (app (var 0)
    (lam (lam (lam (lam (app (var 2) (lam (app (app (var 4) afterZero) afterOne))))))))
    (app (var 2) (var 2))) (var 1))))

/-- The interpreter, to be applied to a continuation and a list. -/
def interpreter : Lambda.Term := app round round

/-- The loop. -/
def omega : Lambda.Term := app (lam (app (var 0) (var 0))) (lam (app (var 0) (var 0)))

/-- The first continuation: a closed term needs no values. -/
def start : Lambda.Term := lam (app (var 0) omega)

/-- The universal machine. -/
def machine : Lambda.Term := app (app (lam (app (var 0) (var 0))) round) start

/-- The encoding of a lambda term. -/
def code : Lambda.Term → List Char
  | .var i => List.replicate (i + 1) '1' ++ ['0']
  | .lam b => '0' :: '0' :: code b
  | .app f a => '0' :: '1' :: (code f ++ code a)

theorem blcEncode_ofLambda (t : Lambda.Term) : blcEncode (ofLambda t) = .ok (code t) := by
  induction t with
  | var i =>
    rw [ofLambda, blcEncode, if_pos (by omega), blcOnes, code]
    rfl
  | lam b ih => rw [ofLambda, blcEncode, ih, ok_bind, code]
  | app f a ihf iha => rw [ofLambda, blcEncode, ihf, ok_bind, iha, ok_bind, code]

theorem code_machine : code machine = blcUBits := by decide +kernel

theorem blcU_eq : blcU = .ok (ofLambda machine) := by
  refine blcDecode_of_blcEncode (blcTerm_ofLambda machine) ?_
  rw [blcEncode_ofLambda, code_machine]

/-! ### Rounds of the interpreter -/

/-- The continuation for what follows a `0`, with the second bit and the continuation of the whole
term. -/
def afterBit (h c : Lambda.Term) : Lambda.Term :=
  lam (app (app (h.rename Nat.succ) (app (c.rename Nat.succ) (lamMeaning (var 0)))) (app interpreter
      (lam (app ((c.rename Nat.succ).rename Nat.succ) (appMeaning (var 1) (var 0))))))

/-- The continuation for an argument, with the meaning of the function. -/
def afterFn (m c : Lambda.Term) : Lambda.Term :=
  lam (app (c.rename Nat.succ) (appMeaning (m.rename Nat.succ) (var 0)))

/-- The continuation for a variable with one mark less. -/
def afterNext (c : Lambda.Term) : Lambda.Term := lam (app (c.rename Nat.succ) (nextMeaning (var 0)))

/-- Terms for the first free variables. -/
def values (ts : List Lambda.Term) : ℕ → Lambda.Term := ts.foldr scons var

section Inst

variable (σ : ℕ → Lambda.Term)

theorem rename_succ_inst (t : Lambda.Term) :
    (t.rename Nat.succ).inst (up σ) = (t.inst σ).rename Nat.succ := by
  rw [inst_rename, rename_inst]
  rfl

theorem inst_cons (h t : Lambda.Term) : (cons h t).inst σ = cons (h.inst σ) (t.inst σ) := by
  simp only [cons, inst, rename_succ_inst]
  rfl

theorem inst_lamMeaning (m : Lambda.Term) : (lamMeaning m).inst σ = lamMeaning (m.inst σ) := by
  simp only [lamMeaning, inst, rename_succ_inst, inst_cons]
  rfl

theorem inst_appMeaning (m n : Lambda.Term) :
    (appMeaning m n).inst σ = appMeaning (m.inst σ) (n.inst σ) := by
  simp only [appMeaning, inst, rename_succ_inst]
  rfl

theorem inst_nextMeaning (v : Lambda.Term) : (nextMeaning v).inst σ = nextMeaning (v.inst σ) := by
  simp only [nextMeaning, inst, rename_succ_inst]
  rfl

theorem inst_interpreter : interpreter.inst σ = interpreter := rfl

theorem inst_afterBit (h c : Lambda.Term) :
    (afterBit h c).inst σ = afterBit (h.inst σ) (c.inst σ) := by
  simp only [afterBit, inst, rename_succ_inst, inst_lamMeaning, inst_appMeaning, inst_interpreter]
  rfl

theorem inst_afterFn (m c : Lambda.Term) :
    (afterFn m c).inst σ = afterFn (m.inst σ) (c.inst σ) := by
  simp only [afterFn, inst, rename_succ_inst, inst_appMeaning]
  rfl

theorem inst_afterNext (c : Lambda.Term) : (afterNext c).inst σ = afterNext (c.inst σ) := by
  simp only [afterNext, inst, rename_succ_inst, inst_nextMeaning]
  rfl

end Inst

theorem conv_zero (c h s : Lambda.Term) :
    Conv (app (app interpreter c) (cons tru (cons h s)))
      (app (app interpreter (afterBit h c)) s) := by
  have hopen : Conv (app (app interpreter (var 0)) (cons tru (cons (var 1) (var 2))))
      (app (app interpreter (afterBit (var 1) (var 0))) (var 2)) := conv_of_steps 12 0 rfl
  have hinst := hopen.inst (values [c, h, s])
  simp only [inst, inst_cons, inst_afterBit, inst_interpreter] at hinst
  exact hinst

theorem conv_afterBit_zero (c m : Lambda.Term) :
    Conv (app (afterBit tru c) m) (app c (lamMeaning m)) := by
  have hopen : Conv (app (afterBit tru (var 0)) (var 1)) (app (var 0) (lamMeaning (var 1))) :=
    conv_of_steps 3 0 rfl
  have hinst := hopen.inst (values [c, m])
  simp only [inst, inst_afterBit, inst_lamMeaning] at hinst
  exact hinst

theorem conv_afterBit_one (c m : Lambda.Term) :
    Conv (app (afterBit fls c) m) (app interpreter (afterFn m c)) := by
  have hopen : Conv (app (afterBit fls (var 0)) (var 1))
      (app interpreter (afterFn (var 1) (var 0))) := conv_of_steps 3 0 rfl
  have hinst := hopen.inst (values [c, m])
  simp only [inst, inst_afterBit, inst_afterFn, inst_interpreter] at hinst
  exact hinst

theorem conv_afterFn (c m n : Lambda.Term) :
    Conv (app (afterFn m c) n) (app c (appMeaning m n)) := by
  have hopen : Conv (app (afterFn (var 1) (var 0)) (var 2))
      (app (var 0) (appMeaning (var 1) (var 2))) := conv_of_steps 1 0 rfl
  have hinst := hopen.inst (values [c, m, n])
  simp only [inst, inst_afterFn, inst_appMeaning] at hinst
  exact hinst

/-- The meaning of the innermost variable. -/
def firstMeaning : Lambda.Term := lam (app (var 0) tru)

theorem conv_first (c s : Lambda.Term) :
    Conv (app (app interpreter c) (cons fls (cons tru s))) (app (app c firstMeaning) s) := by
  have hopen : Conv (app (app interpreter (var 0)) (cons fls (cons tru (var 1))))
      (app (app (var 0) firstMeaning) (var 1)) := conv_of_steps 14 0 rfl
  have hinst := hopen.inst (values [c, s])
  simp only [inst, inst_cons, inst_interpreter] at hinst
  exact hinst

theorem conv_next (c s : Lambda.Term) :
    Conv (app (app interpreter c) (cons fls (cons fls s)))
      (app (app interpreter (afterNext c)) (cons fls s)) := by
  have hopen : Conv (app (app interpreter (var 0)) (cons fls (cons fls (var 1))))
      (app (app interpreter (afterNext (var 0))) (cons fls (var 1))) := conv_of_steps 15 0 rfl
  have hinst := hopen.inst (values [c, s])
  simp only [inst, inst_cons, inst_afterNext, inst_interpreter] at hinst
  exact hinst

theorem conv_afterNext (c v : Lambda.Term) :
    Conv (app (afterNext c) v) (app c (nextMeaning v)) := by
  have hopen : Conv (app (afterNext (var 0)) (var 1)) (app (var 0) (nextMeaning (var 1))) :=
    conv_of_steps 1 0 rfl
  have hinst := hopen.inst (values [c, v])
  simp only [inst, inst_afterNext, inst_nextMeaning] at hinst
  exact hinst

/-! ### Meanings -/

/-- The meaning of a variable: the elements before it are skipped. -/
def varMeaning : ℕ → Lambda.Term
  | 0 => firstMeaning
  | i + 1 => nextMeaning (varMeaning i)

/-- The meaning of a term: a function of the list of the values of its free variables. -/
def meaning : Lambda.Term → Lambda.Term
  | .var i => varMeaning i
  | .lam b => lamMeaning (meaning b)
  | .app f a => appMeaning (meaning f) (meaning a)

/-- The list of the bits of a code, with a tail. -/
def bitList (bits : List Char) (tail : Lambda.Term) : Lambda.Term :=
  bits.foldr (fun c t => cons (if c = '0' then tru else fls) t) tail

theorem bitList_append (bits bits' : List Char) (tail : Lambda.Term) :
    bitList (bits ++ bits') tail = bitList bits (bitList bits' tail) :=
  List.foldr_append

theorem interpreter_var (i : ℕ) (c s : Lambda.Term) :
    Conv (app (app interpreter c) (bitList (code (.var i)) s)) (app (app c (varMeaning i)) s) := by
  induction i generalizing c with
  | zero => exact conv_first c s
  | succ i ih =>
    have hround : Conv (app (app interpreter c) (bitList (code (.var (i + 1))) s))
        (app (app interpreter (afterNext c)) (bitList (code (.var i)) s)) :=
      conv_next c (bitList (List.replicate i '1' ++ ['0']) s)
    exact hround.trans ((ih (afterNext c)).trans ((conv_afterNext c _).fn s))

theorem interpreter_spec (t c s : Lambda.Term) :
    Conv (app (app interpreter c) (bitList (code t) s)) (app (app c (meaning t)) s) := by
  induction t generalizing c s with
  | var i => exact interpreter_var i c s
  | lam b ih =>
    rw [meaning]
    exact (conv_zero c tru (bitList (code b) s)).trans
      ((ih (afterBit tru c) s).trans ((conv_afterBit_zero c (meaning b)).fn s))
  | app f a ihf iha =>
    have hbits : bitList (code (.app f a)) s =
        cons tru (cons fls (bitList (code f) (bitList (code a) s))) := by
      rw [← bitList_append]
      rfl
    rw [hbits, meaning]
    calc Conv (app (app interpreter c) (cons tru (cons fls (bitList (code f) (bitList (code a) s)))))
          (app (app interpreter (afterBit fls c)) (bitList (code f) (bitList (code a) s))) :=
          conv_zero c fls _
      Conv _ (app (app (afterBit fls c) (meaning f)) (bitList (code a) s)) := ihf _ _
      Conv _ (app (app interpreter (afterFn (meaning f) c)) (bitList (code a) s)) :=
          (conv_afterBit_one c (meaning f)).fn _
      Conv _ (app (app (afterFn (meaning f) c) (meaning a)) s) := iha _ _
      Conv _ (app (app c (appMeaning (meaning f) (meaning a))) s) :=
          (conv_afterFn c (meaning f) (meaning a)).fn s

/-! ### Environments -/

theorem closed_varMeaning (i : ℕ) : (varMeaning i).Closed := by
  induction i with
  | zero => decide
  | succ i ih =>
    refine ⟨?_, ⟨by decide, by decide⟩⟩
    exact ih.rename fun j hj => absurd hj (Nat.not_lt_zero j)

theorem closed_meaning (t : Lambda.Term) : (meaning t).Closed := by
  have hup {k : ℕ} {u : Lambda.Term} (hu : u.FreeBelow k) : (u.rename Nat.succ).FreeBelow (k + 1) :=
    hu.rename fun i hi => Nat.succ_lt_succ hi
  induction t with
  | var i => exact closed_varMeaning i
  | lam b ih => exact ⟨hup (hup ih), by decide⟩
  | app f a ihf iha => exact ⟨⟨hup ihf, by decide⟩, hup iha, by decide⟩

theorem conv_head (y z : Lambda.Term) : Conv (app firstMeaning (cons y z)) y := by
  have hopen : Conv (app firstMeaning (cons (var 0) (var 1))) (var 0) := conv_of_steps 4 0 rfl
  have hinst := hopen.inst (values [y, z])
  simp only [inst, inst_cons] at hinst
  exact hinst

theorem conv_tail (v y z : Lambda.Term) : Conv (app (nextMeaning v) (cons y z)) (app v z) := by
  have hskip : Conv (app (cons (var 1) (var 2)) fls) (var 2) := conv_of_steps 3 0 rfl
  have hopen : Conv (app (nextMeaning (var 0)) (cons (var 1) (var 2)))
      (app (var 0) (app (cons (var 1) (var 2)) fls)) := conv_of_steps 1 0 rfl
  have hinst := (hopen.trans (hskip.arg (var 0))).inst (values [v, y, z])
  simp only [inst, inst_cons, inst_nextMeaning] at hinst
  exact hinst

/-- The list holds the values of so many variables. -/
def Holds (k : ℕ) (z : Lambda.Term) (σ : ℕ → Lambda.Term) : Prop :=
  ∀ i, i < k → Conv (app (varMeaning i) z) (σ i)

theorem Holds.cons {k : ℕ} {z : Lambda.Term} {σ : ℕ → Lambda.Term} (h : Holds k z σ) :
    Holds (k + 1) (cons (var 0) (z.rename Nat.succ)) (up σ) := by
  intro i hi
  cases i with
  | zero => exact conv_head _ _
  | succ i =>
    have hvalue := (h i (Nat.lt_of_succ_lt_succ hi)).inst fun j => var (j + 1)
    rw [inst, (closed_varMeaning i).inst_eq] at hvalue
    have hshift (t : Lambda.Term) : t.inst (fun j => var (j + 1)) = t.rename Nat.succ :=
      (rename_eq_inst Nat.succ t).symm
    rw [hshift, hshift] at hvalue
    exact (conv_tail _ _ _).trans hvalue

theorem meaning_spec {t : Lambda.Term} {k : ℕ} (ht : t.FreeBelow k) {z : Lambda.Term}
    {σ : ℕ → Lambda.Term} (hz : Holds k z σ) : Conv (app (meaning t) z) (t.inst σ) := by
  induction t generalizing k z σ with
  | var i => exact hz i ht
  | lam b ih =>
    have hcontract : contract (lam (app (((meaning b).rename Nat.succ).rename Nat.succ)
        (Universal.cons (var 0) (var 1)))) z =
        lam (app (meaning b) (Universal.cons (var 0) (z.rename Nat.succ))) := by
      have hclosed := closed_meaning b
      rw [hclosed.rename_eq, hclosed.rename_eq, contract, inst, inst, hclosed.inst_eq, inst_cons]
      rfl
    have hstep : Conv (app (meaning (.lam b)) z)
        (lam (app (meaning b) (Universal.cons (var 0) (z.rename Nat.succ)))) := by
      rw [← hcontract]
      exact Conv.of_beta (.redex _ _)
    exact hstep.trans (ih ht hz.cons).lam
  | app f a ihf iha =>
    have hcontract : contract (app (app ((meaning f).rename Nat.succ) (var 0))
        (app ((meaning a).rename Nat.succ) (var 0))) z =
        app (app (meaning f) z) (app (meaning a) z) := by
      have hf := closed_meaning f
      have ha := closed_meaning a
      rw [hf.rename_eq, ha.rename_eq, contract]
      simp only [inst, hf.inst_eq, ha.inst_eq]
      rfl
    have hstep : Conv (app (meaning (.app f a)) z)
        (app (app (meaning f) z) (app (meaning a) z)) := by
      rw [← hcontract]
      exact Conv.of_beta (.redex _ _)
    exact hstep.trans ((ihf ht.1 hz).app (iha ht.2 hz))

theorem machine_spec {t : Lambda.Term} (ht : t.Closed) (tail : Lambda.Term) :
    Conv (app machine (bitList (code t) tail)) (app t tail) := by
  have hstart : Conv (app start (meaning t)) (app (meaning t) omega) := Conv.of_beta (.redex _ _)
  have hmeaning : Conv (app (meaning t) omega) t := by
    have h := @meaning_spec t 0 ht omega var fun i hi => absurd hi (Nat.not_lt_zero i)
    rwa [inst_var] at h
  have hmachine : Conv (app machine (bitList (code t) tail))
      (app (app interpreter start) (bitList (code t) tail)) :=
    ((Conv.of_beta (.redex _ _)).fn start).fn _
  calc Conv (app machine (bitList (code t) tail))
        (app (app interpreter start) (bitList (code t) tail)) := hmachine
    Conv _ (app (app start (meaning t)) tail) := interpreter_spec t start tail
    Conv _ (app (app (meaning t) omega) tail) := hstart.fn tail
    Conv _ (app t tail) := hmeaning.fn tail

end Universal

/-! ### Terms of the module -/

open Universal in
theorem blcListOfBits_ofLambda {bits : List Char} (hbits : ∀ c ∈ bits, c = '0' ∨ c = '1')
    {tail : Lambda.Term} (htail : tail.Closed) :
    blcListOfBits bits (ofLambda tail) = .ok (ofLambda (bitList bits tail)) ∧
      (bitList bits tail).Closed := by
  induction bits with
  | nil => exact ⟨rfl, htail⟩
  | cons c bits ih =>
    obtain ⟨hlist, hclosed⟩ := ih fun d hd => hbits d (List.mem_cons_of_mem c hd)
    have hbit : ∃ b : Lambda.Term, blcBitCharToBool c = .ok (ofLambda b) ∧ b.Closed ∧
        (if c = '0' then tru else fls) = b := by
      rcases hbits c List.mem_cons_self with rfl | rfl
      · exact ⟨tru, rfl, by decide, rfl⟩
      · exact ⟨fls, rfl, by decide, rfl⟩
    obtain ⟨b, hchar, hb, hif⟩ := hbit
    have hcons : bitList (c :: bits) tail = cons b (bitList bits tail) := by rw [← hif]; rfl
    rw [hcons, cons, hb.rename_eq, hclosed.rename_eq]
    refine ⟨?_, ⟨Nat.zero_lt_one, hb.mono (Nat.zero_le 1)⟩, hclosed.mono (Nat.zero_le 1)⟩
    rw [blcListOfBits, hchar, ok_bind, hlist, ok_bind]
    rfl

theorem code_bits (t : Lambda.Term) : ∀ c ∈ Universal.code t, c = '0' ∨ c = '1' := by
  induction t with
  | var i =>
    intro c hc
    rcases List.mem_append.mp hc with hc | hc
    · exact .inr (List.eq_of_mem_replicate hc)
    · exact .inl (List.mem_singleton.mp hc)
  | lam b ih =>
    intro c hc
    rcases List.mem_cons.mp hc with rfl | hc
    · exact .inl rfl
    · rcases List.mem_cons.mp hc with rfl | hc
      · exact .inl rfl
      · exact ih c hc
  | app f a ihf iha =>
    intro c hc
    rcases List.mem_cons.mp hc with rfl | hc
    · exact .inl rfl
    · rcases List.mem_cons.mp hc with rfl | hc
      · exact .inr rfl
      · rcases List.mem_append.mp hc with hc | hc
        · exact ihf c hc
        · exact iha c hc

theorem eqvGen_ofLambda {t u : Lambda.Term} (h : Lambda.Conv t u) :
    EqvGen BetaStep (ofLambda t) (ofLambda u) := by
  induction h with
  | rel t u h => exact .rel _ _ (betaStep_ofLambda h)
  | refl t => exact .refl _
  | symm t u _ ih => exact .symm _ _ ih
  | trans t u v _ _ ih ih' => exact .trans _ _ _ ih ih'

/-- **`blc-U` is universal**: applied to the list of the bits that encode a closed term, with a closed
tail, it is convertible to the term applied to the tail. -/
theorem blcU_universal {m tail : Term} (hm : blcTerm m = true) (hmc : IsClosed m)
    (ht : blcTerm tail = true) (htc : IsClosed tail) :
    ∃ u code input, blcU = .ok u ∧ blcEncode m = .ok code ∧ blcListOfBits code tail = .ok input ∧
      EqvGen BetaStep (.app u input) (.app m tail) := by
  obtain ⟨t, rfl⟩ : ∃ t, m = ofLambda t := ⟨toLambda m, (ofLambda_toLambda hm).symm⟩
  obtain ⟨s, rfl⟩ : ∃ s, tail = ofLambda s := ⟨toLambda tail, (ofLambda_toLambda ht).symm⟩
  rw [isClosed_ofLambda] at hmc htc
  refine ⟨_, _, _, Universal.blcU_eq, Universal.blcEncode_ofLambda t,
    (blcListOfBits_ofLambda (code_bits t) htc).1, ?_⟩
  exact eqvGen_ofLambda (Universal.machine_spec hmc s)

/-- The identity is run on `K`. -/
theorem blcU_universal_identity :
    ∃ u code input, blcU = .ok u ∧ blcEncode (.lam (.var 1)) = .ok code ∧
      blcListOfBits code blcTrue = .ok input ∧
      EqvGen BetaStep (.app u input) (.app (.lam (.var 1)) blcTrue) :=
  blcU_universal rfl (show (1 : ℤ) ≤ 0 + 1 by decide) rfl (show (2 : ℤ) ≤ 0 + 1 + 1 by decide)

end Eshkol.Core.Blc
