import Mathlib.Data.Nat.Bitwise
import Mathlib.Tactic.Linarith

/-!
# Byte Parsers and the Formats They Read

A parser takes bytes off the front of its input: it returns a value and the bytes left, or
fails. A *format* is a relation between byte strings and the values they stand for.
`Parses N p R` says that the parser `p` reads the format `R`: what it accepts begins with
bytes of the format, and it accepts every input shorter than `N` that does. The bound is
for parsers that refuse some long inputs. A format is *prefix free* when what it stands for
can be told without seeing what follows.
-/

namespace Codec

/-- A string of bytes. -/
abbrev Bytes : Type := List UInt8

/-- A parser of values of type `α`. -/
abbrev Parser (α : Type) : Type := StateT Bytes Option α

/-- A relation between byte strings and what they stand for. -/
abbrev Format (α : Type) : Type := Bytes → α → Prop

variable {α β σ : Type} {N : ℕ}

/-! ### Elementary parsers -/

/-- Goes on only if the condition holds. -/
def check (c : Prop) [Decidable c] : Parser Unit := fun bs =>
  if c then some ((), bs) else none

/-- One byte. -/
def byte : Parser UInt8
  | [] => none
  | b :: bs => some (b, bs)

/-- The next `n` bytes. -/
def bytes (n : ℕ) : Parser Bytes := fun bs =>
  if n ≤ bs.length then some (bs.take n, bs.drop n) else none

/-- `n` steps, each from the state the one before it left. -/
def iterate (f : σ → Parser σ) : ℕ → σ → Parser σ
  | 0, s => pure s
  | n + 1, s => do
      let s' ← f s
      iterate f n s'

variable {p : Parser α} {f : α → Parser β} {bs rest : Bytes} {a : α} {n v : ℕ} {R : Format α}
  {as : List α} {good : α → Prop}

theorem bind_eq_some {b : β} :
    (p >>= f) bs = some (b, rest) ↔ ∃ a mid, p bs = some (a, mid) ∧ f a mid = some (b, rest) := by
  change (p bs).bind (fun r => f r.1 r.2) = some (b, rest) ↔ _
  simp [Option.bind_eq_some_iff]

@[simp] theorem pure_eq_some {b : α} :
    (pure a : Parser α) bs = some (b, rest) ↔ b = a ∧ rest = bs := by
  change some (a, bs) = some (b, rest) ↔ _
  simp [eq_comm]

@[simp] theorem check_eq_some {c : Prop} [Decidable c] {u : Unit} :
    check c bs = some (u, rest) ↔ c ∧ rest = bs := by
  rw [check]
  split <;> simp [*, eq_comm]

@[simp] theorem byte_eq_some {b : UInt8} : byte bs = some (b, rest) ↔ bs = b :: rest := by
  cases bs with
  | nil => simp [byte]
  | cons c cs => simp [byte]

@[simp] theorem bytes_eq_some {v : Bytes} :
    bytes n bs = some (v, rest) ↔ bs = v ++ rest ∧ v.length = n := by
  rw [bytes]
  constructor
  · split
    · rintro ⟨rfl, rfl⟩
      simp [*]
    · simp
  · rintro ⟨rfl, rfl⟩
    simp

/-- What `p` reads from all of the input: nothing may be left. -/
def exhaust (p : Parser α) (bs : Bytes) : Option α :=
  match p bs with
  | some (a, []) => some a
  | _ => none

theorem exhaust_eq_some : exhaust p bs = some a ↔ p bs = some (a, []) := by
  rw [exhaust]
  split
  next h => simp [h]
  next h =>
    constructor
    · simp
    · intro h'
      exact absurd h' (h a)

/-! ### Formats -/

/-- One format after another, which may depend on what the first stands for. -/
def seq (R : Format α) (S : α → Format β) : Format β := fun bs b =>
  ∃ a u v, bs = u ++ v ∧ R u a ∧ S a v b

/-- A list of values, one after another. -/
inductive Concat (R : Format α) : Format (List α)
  | nil : Concat R [] []
  | cons {u v : Bytes} {a : α} {as : List α} :
      R u a → Concat R v as → Concat R (u ++ v) (a :: as)

/-- What follows a value of the format does not change which value it is. -/
def PrefixFree (R : Format α) : Prop :=
  ∀ ⦃u v r s : Bytes⦄ ⦃a b : α⦄, R u a → R v b → u ++ r = v ++ s → u = v ∧ a = b

theorem PrefixFree.unique (hR : PrefixFree R) {u : Bytes} {b : α} (ha : R u a) (hb : R u b) :
    a = b :=
  (hR ha hb (rfl : u ++ [] = u ++ [])).2

theorem PrefixFree.concat (hR : PrefixFree R) (n : ℕ) :
    PrefixFree fun bs as => Concat R bs as ∧ as.length = n := by
  rintro u v r s as as' ⟨hu, rfl⟩ ⟨hv, hlen⟩ h
  induction hu generalizing v as' with
  | nil =>
    cases hv with
    | nil => exact ⟨rfl, rfl⟩
    | cons => simp at hlen
  | @cons u₁ u₂ a as ha _ ih =>
    cases hv with
    | nil => simp at hlen
    | @cons v₁ v₂ b bs hb hbs =>
      rw [List.append_assoc, List.append_assoc] at h
      obtain ⟨rfl, rfl⟩ := hR ha hb h
      obtain ⟨rfl, rfl⟩ := ih hbs (by simpa using hlen) (List.append_cancel_left h)
      exact ⟨rfl, rfl⟩

theorem Concat.exists_of_mem (h : Concat R bs as) (ha : a ∈ as) : ∃ u, R u a := by
  induction h with
  | nil => cases ha
  | @cons u v b as hb _ ih =>
    rcases List.mem_cons.mp ha with rfl | ha
    · exact ⟨u, hb⟩
    · exact ih ha

theorem Concat.length_le {f : α → ℕ} (hR : ∀ bs a, R bs a → bs.length ≤ f a) (h : Concat R bs as) :
    bs.length ≤ (as.map f).sum := by
  induction h with
  | nil => rfl
  | cons ha _ ih =>
    have := hR _ _ ha
    simp only [List.length_append, List.map_cons, List.sum_cons]
    omega

/-! ### Parsers of formats -/

/-- The parser `p` reads the format `R`, on all inputs shorter than `N` at least. -/
structure Parses (N : ℕ) (p : Parser α) (R : Format α) : Prop where
  sound : ∀ {bs rest : Bytes} {a : α}, p bs = some (a, rest) → ∃ u, bs = u ++ rest ∧ R u a
  complete : ∀ {u rest : Bytes} {a : α}, R u a → (u ++ rest).length < N →
    p (u ++ rest) = some (a, rest)

theorem Parses.congr {S : Format α} (h : Parses N p R) (hRS : ∀ bs a, R bs a ↔ S bs a) :
    Parses N p S := by
  obtain rfl : R = S := by
    funext bs a
    exact propext (hRS bs a)
  exact h

theorem Parses.iff (h : Parses N p R) (hlen : bs.length < N) : p bs = some (a, []) ↔ R bs a := by
  constructor
  · intro hp
    obtain ⟨u, rfl, hR⟩ := h.sound hp
    simpa using hR
  · intro hR
    have : p (bs ++ []) = some (a, []) := h.complete hR (by simpa using hlen)
    simpa using this

theorem Parses.pure (a : α) : Parses N (pure a) fun bs b => bs = [] ∧ b = a where
  sound h := by
    obtain ⟨rfl, rfl⟩ := pure_eq_some.mp h
    exact ⟨[], rfl, rfl, rfl⟩
  complete := by
    rintro _ rest _ ⟨rfl, rfl⟩ -
    exact pure_eq_some.mpr ⟨rfl, rfl⟩

theorem Parses.check (c : Prop) [Decidable c] : Parses N (check c) fun bs _ => bs = [] ∧ c where
  sound h := by
    obtain ⟨hc, rfl⟩ := check_eq_some.mp h
    exact ⟨[], rfl, rfl, hc⟩
  complete := by
    rintro _ rest _ ⟨rfl, hc⟩ -
    exact check_eq_some.mpr ⟨hc, rfl⟩

theorem Parses.bytes (n : ℕ) : Parses N (bytes n) fun bs v => bs = v ∧ v.length = n where
  sound h := by
    obtain ⟨rfl, hv⟩ := bytes_eq_some.mp h
    exact ⟨_, rfl, rfl, hv⟩
  complete := by
    rintro _ rest v ⟨rfl, hv⟩ -
    exact bytes_eq_some.mpr ⟨rfl, hv⟩

theorem Parses.bind {S : α → Format β} (hp : Parses N p R) (hf : ∀ a, Parses N (f a) (S a)) :
    Parses N (p >>= f) (seq R S) where
  sound h := by
    obtain ⟨a, mid, ha, hb⟩ := bind_eq_some.mp h
    obtain ⟨u, rfl, hu⟩ := hp.sound ha
    obtain ⟨v, rfl, hv⟩ := (hf a).sound hb
    exact ⟨u ++ v, by simp, a, u, v, rfl, hu, hv⟩
  complete := by
    rintro _ rest b ⟨a, u, v, rfl, hu, hv⟩ hlen
    rw [List.append_assoc] at hlen ⊢
    refine bind_eq_some.mpr ⟨a, v ++ rest, hp.complete hu hlen, (hf a).complete hv ?_⟩
    simp only [List.length_append] at hlen ⊢
    omega

/-- The values `as` can be taken one after another, starting from `s`: `ok` is the check on
each, `next` the state it leaves. -/
def Admits (ok : σ → α → Prop) (next : σ → α → σ) : σ → List α → Prop
  | _, [] => True
  | s, a :: as => ok s a ∧ Admits ok next (next s a) as

/-- **Loops.** If every step reads one value, checks it and updates the state, then the loop
reads a list of values, checks each in the state it meets and folds the updates. -/
theorem Parses.iterate {f : σ → Parser σ} {ok : σ → α → Prop} {next : σ → α → σ}
    (hf : ∀ s, Parses N (f s) fun bs s' => ∃ a, R bs a ∧ ok s a ∧ s' = next s a) (n : ℕ) (s : σ) :
    Parses N (iterate f n s) fun bs s' => ∃ as, Concat R bs as ∧ as.length = n ∧
      Admits ok next s as ∧ s' = as.foldl next s := by
  induction n generalizing s with
  | zero =>
    refine (Parses.pure s).congr fun bs s' => ?_
    constructor
    · rintro ⟨rfl, rfl⟩
      exact ⟨[], .nil, rfl, trivial, rfl⟩
    · rintro ⟨as, hc, hlen, -, rfl⟩
      obtain rfl := List.length_eq_zero_iff.mp hlen
      cases hc
      exact ⟨rfl, rfl⟩
  | succ n ih =>
    refine ((hf s).bind ih).congr fun bs s' => ?_
    constructor
    · rintro ⟨_, u, v, rfl, ⟨a, hR, hok, rfl⟩, as, hc, rfl, hadm, rfl⟩
      exact ⟨a :: as, .cons hR hc, rfl, ⟨hok, hadm⟩, rfl⟩
    · rintro ⟨_ | ⟨a, as⟩, hc, hlen, hadm, rfl⟩
      · simp at hlen
      · cases hc with
        | cons hR hc =>
          exact ⟨_, _, _, rfl, ⟨a, hR, hadm.1, rfl⟩, as, hc, by simpa using hlen,
            hadm.2, rfl⟩

/-- One more value at the end of a list. -/
def collect (p : Parser α) (as : List α) : Parser (List α) := do
  let a ← p
  pure (as ++ [a])

/-- `n` values, one after another. -/
def count (n : ℕ) (p : Parser α) : Parser (List α) := iterate (collect p) n []

theorem Parses.collect {p : Parser β} {ok : α → Prop} {f : α → β}
    (hp : Parses N p fun bs b => ∃ a, R bs a ∧ ok a ∧ b = f a) (s : List β) :
    Parses N (collect p s) fun bs s' => ∃ a, R bs a ∧ ok a ∧ s' = s ++ [f a] := by
  refine (hp.bind fun b => Parses.pure (s ++ [b])).congr fun bs s' => ?_
  constructor
  · rintro ⟨_, u, _, rfl, ⟨a, hR, hok, rfl⟩, rfl, rfl⟩
    exact ⟨a, by simpa using hR, hok, rfl⟩
  · rintro ⟨a, hR, hok, rfl⟩
    exact ⟨f a, bs, [], by simp, ⟨a, hR, hok, rfl⟩, rfl, rfl⟩

theorem Parses.count {p : Parser β} {ok : α → Prop} {f : α → β}
    (hp : Parses N p fun bs b => ∃ a, R bs a ∧ ok a ∧ b = f a) (n : ℕ) :
    Parses N (count n p) fun bs bs' => ∃ as, Concat R bs as ∧ as.length = n ∧
      (∀ a ∈ as, ok a) ∧ bs' = as.map f := by
  have hadm (s : List β) (as : List α) :
      Admits (fun _ a => ok a) (fun s a => s ++ [f a]) s as ↔ ∀ a ∈ as, ok a := by
    induction as generalizing s with
    | nil => simp [Admits]
    | cons a as ih => simp [Admits, ih]
  have hfold (s : List β) (as : List α) : as.foldl (fun s a => s ++ [f a]) s = s ++ as.map f := by
    induction as generalizing s with
    | nil => simp
    | cons a as ih => simp [ih]
  refine (Parses.iterate hp.collect n []).congr fun bs bs' => ?_
  simp only [hadm, hfold, List.nil_append]

/-! ### Words -/

/-- The `n` low bytes of `v`, the lowest first. -/
def littleEndian : ℕ → ℕ → Bytes
  | 0, _ => []
  | n + 1, v => UInt8.ofNat v :: littleEndian n (v / 256)

/-- The number whose bytes are given, the lowest first. -/
def leValue : Bytes → ℕ
  | [] => 0
  | b :: bs => b.toNat + 256 * leValue bs

@[simp] theorem length_littleEndian (n v : ℕ) : (littleEndian n v).length = n := by
  induction n generalizing v with
  | zero => rfl
  | succ n ih => simp [littleEndian, ih]

theorem leValue_littleEndian (n v : ℕ) : leValue (littleEndian n v) = v % 256 ^ n := by
  induction n generalizing v with
  | zero => simp [littleEndian, leValue, Nat.mod_one]
  | succ n ih =>
    have hsplit : 256 ^ (n + 1) = 256 * 256 ^ n := Nat.pow_succ'
    rw [littleEndian, leValue, ih, UInt8.toNat_ofNat', hsplit, Nat.mod_mul]

theorem littleEndian_leValue (bs : Bytes) : littleEndian bs.length (leValue bs) = bs := by
  induction bs with
  | nil => rfl
  | cons b bs ih =>
    have hb := b.toNat_lt
    have hlow : UInt8.ofNat (b.toNat + 256 * leValue bs) = b := by
      apply UInt8.toNat_inj.mp
      rw [UInt8.toNat_ofNat']
      omega
    rw [List.length_cons, littleEndian, leValue, hlow,
      show (b.toNat + 256 * leValue bs) / 256 = leValue bs by omega, ih]

theorem leValue_lt (bs : Bytes) : leValue bs < 256 ^ bs.length := by
  induction bs with
  | nil => simp [leValue]
  | cons b bs ih =>
    have hb := b.toNat_lt
    rw [leValue, List.length_cons, Nat.pow_succ']
    omega

/-- A number in `n` bytes, the lowest first. -/
def word (n : ℕ) : Parser ℕ := do
  let bs ← bytes n
  pure (leValue bs)

/-! ### Reading what was written -/

theorem bind_apply {mid : Bytes} (h : p bs = some (a, mid)) : (p >>= f) bs = f a mid := by
  change (p bs).bind (fun r => f r.1 r.2) = f a mid
  rw [h]
  rfl

theorem bind_apply_none (h : p bs = none) : (p >>= f) bs = none := by
  change (p bs).bind (fun r => f r.1 r.2) = none
  rw [h]
  rfl

theorem bytes_append (u rest : Bytes) (h : u.length = n) : bytes n (u ++ rest) = some (u, rest) :=
  bytes_eq_some.mpr ⟨rfl, h⟩

theorem word_append (h : v < 256 ^ n) (rest : Bytes) :
    word n (littleEndian n v ++ rest) = some (v, rest) := by
  rw [word, bind_apply (bytes_append _ rest (length_littleEndian n v)), leValue_littleEndian,
    Nat.mod_eq_of_lt h]
  rfl

/-- Values written one after another; none may fail. -/
def writeAll (write : α → Option Bytes) : List α → Option Bytes
  | [] => some []
  | a :: as => do
      let u ← write a
      let v ← writeAll write as
      some (u ++ v)

theorem writeAll_eq_some {write : α → Option Bytes} :
    writeAll write as = some bs ↔ Concat (fun u a => write a = some u) bs as := by
  induction as generalizing bs with
  | nil =>
    constructor
    · rintro ⟨⟩
      exact .nil
    · rintro ⟨⟩
      rfl
  | cons a as ih =>
    simp only [writeAll, Option.bind_eq_bind, Option.bind_eq_some_iff, Option.some.injEq]
    constructor
    · rintro ⟨u, hu, v, hv, rfl⟩
      exact .cons hu (ih.mp hv)
    · rintro ⟨⟩
      next u v hu hv => exact ⟨u, hu, v, ih.mpr hv, rfl⟩

theorem iterate_collect_written
    (hgood : ∀ {u a}, R u a → good a → ∀ rest, p (u ++ rest) = some (a, rest)) (h : Concat R bs as)
    (hall : ∀ a ∈ as, good a) (rest : Bytes) (s : List α) :
    iterate (collect p) as.length s (bs ++ rest) = some (s ++ as, rest) := by
  induction h generalizing s with
  | nil => simp [iterate]
  | @cons u v a as ha _ ih =>
    have hstep : collect p s (u ++ (v ++ rest)) = some (s ++ [a], v ++ rest) := by
      rw [collect, bind_apply (hgood ha (hall a (by simp)) _)]
      rfl
    rw [List.length_cons, iterate, List.append_assoc, bind_apply hstep,
      ih (fun a ha => hall a (by simp [ha])), List.append_assoc, List.singleton_append]

theorem count_written (hgood : ∀ {u a}, R u a → good a → ∀ rest, p (u ++ rest) = some (a, rest))
    (h : Concat R bs as) (hall : ∀ a ∈ as, good a) (rest : Bytes) :
    count as.length p (bs ++ rest) = some (as, rest) :=
  iterate_collect_written hgood h hall rest []

theorem count_rejected (hgood : ∀ {u a}, R u a → good a → ∀ rest, p (u ++ rest) = some (a, rest))
    (hbad : ∀ {u a}, R u a → ¬ good a → ∀ rest, p (u ++ rest) = none) (h : Concat R bs as)
    (hall : ¬ ∀ a ∈ as, good a) (rest : Bytes) : count as.length p (bs ++ rest) = none := by
  have hloop (s : List α) : iterate (collect p) as.length s (bs ++ rest) = none := by
    induction h generalizing s with
    | nil => simp at hall
    | @cons u v a as ha _ ih =>
      rw [List.length_cons, iterate, List.append_assoc]
      by_cases hfirst : good a
      · have hstep : collect p s (u ++ (v ++ rest)) = some (s ++ [a], v ++ rest) := by
          rw [collect, bind_apply (hgood ha hfirst _)]
          rfl
        rw [bind_apply hstep]
        exact ih (by simpa [hfirst] using hall) _
      · have hstep : collect p s (u ++ (v ++ rest)) = none := by
          rw [collect, bind_apply_none (hbad ha hfirst _)]
        exact bind_apply_none hstep
  exact hloop []

/-! ### Numerals of base 128 -/

/-- A numeral of base 128, the low digit first: every byte but the last has its top bit
set. -/
inductive Numeral : Format ℕ
  | last (b : UInt8) : b.toNat < 128 → Numeral [b] b.toNat
  | more (b : UInt8) {bs : Bytes} {v : ℕ} :
      128 ≤ b.toNat → Numeral bs v → Numeral (b :: bs) (b.toNat % 128 + 128 * v)

theorem Numeral.length_pos (h : Numeral bs v) : 0 < bs.length := by cases h <;> simp

theorem Numeral.prefixFree : PrefixFree Numeral := by
  intro u v r s a b hu hv h
  induction hu generalizing v b with
  | last c hc =>
    cases hv with
    | last d hd => simp_all
    | more d hd =>
      rw [List.singleton_append, List.cons_append, List.cons.injEq] at h
      obtain ⟨rfl, -⟩ := h
      omega
  | more c hc _ ih =>
    cases hv with
    | last d hd =>
      rw [List.singleton_append, List.cons_append, List.cons.injEq] at h
      obtain ⟨rfl, -⟩ := h
      omega
    | more d hd hv =>
      rw [List.cons_append, List.cons_append, List.cons.injEq] at h
      obtain ⟨rfl, h⟩ := h
      obtain ⟨rfl, rfl⟩ := ih hv h
      exact ⟨rfl, rfl⟩

/-- The numeral of `v`, in at most `n` bytes. -/
def numeral : ℕ → ℕ → Bytes
  | 0, _ => []
  | n + 1, v =>
    if v / 128 = 0 then [UInt8.ofNat (v % 128)]
    else UInt8.ofNat (v % 128 + 128) :: numeral n (v / 128)

theorem numeral_spec (hv : v < 128 ^ n) (hn : 0 < n) :
    Numeral (numeral n v) v ∧ (numeral n v).length ≤ n := by
  induction n generalizing v with
  | zero => omega
  | succ n ih =>
    rw [numeral]
    split
    next h =>
      have hb : (UInt8.ofNat (v % 128)).toNat = v := by
        rw [UInt8.toNat_ofNat']
        omega
      refine ⟨?_, by simp⟩
      have := Numeral.last (UInt8.ofNat (v % 128)) (by omega)
      rwa [hb] at this
    next h =>
      have hn' : 0 < n := by
        rcases Nat.eq_zero_or_pos n with rfl | hn'
        · simp at hv
          omega
        · exact hn'
      obtain ⟨hnum, hlen⟩ := ih (v := v / 128)
        (Nat.div_lt_of_lt_mul (by rwa [← Nat.pow_succ'])) hn'
      have hb : (UInt8.ofNat (v % 128 + 128)).toNat = v % 128 + 128 := by
        rw [UInt8.toNat_ofNat']
        omega
      refine ⟨?_, by simpa using hlen⟩
      have := Numeral.more (UInt8.ofNat (v % 128 + 128)) (by omega) hnum
      rwa [hb, show (v % 128 + 128) % 128 + 128 * (v / 128) = v by omega] at this

/-- Reads a numeral of `n` bytes at most into a `w`-bit word: the seven low bits of each
byte are added at `shift`. -/
def readNumeral (w : ℕ) : ℕ → ℕ → ℕ → Parser ℕ
  | 0, _, _ => fun _ => none
  | n + 1, shift, out => do
      let b ← byte
      let out := out ||| ((b.toNat % 128) <<< shift) % 2 ^ w
      if b.toNat < 128 then pure out else readNumeral w n (shift + 7) out

theorem or_digit_or (w shift out d v : ℕ) (hd : d < 128) :
    (out ||| (d <<< shift) % 2 ^ w) ||| (v <<< (shift + 7)) % 2 ^ w =
      out ||| ((d + 128 * v) <<< shift) % 2 ^ w := by
  have hsum : d + 128 * v = d ||| v <<< 7 := by
    have := Nat.shiftLeft_add_eq_or_of_lt (i := 7) hd v
    rw [Nat.or_comm, ← this, Nat.shiftLeft_eq]
    omega
  rw [hsum, Nat.shiftLeft_or_distrib, ← Nat.shiftLeft_add, Nat.add_comm 7 shift,
    Nat.or_mod_two_pow, Nat.or_assoc]

theorem readNumeral_eq_some {w shift out : ℕ} :
    readNumeral w n shift out bs = some (v, rest) ↔
      ∃ u m, bs = u ++ rest ∧ Numeral u m ∧ u.length ≤ n ∧ v = out ||| (m <<< shift) % 2 ^ w := by
  induction n generalizing shift out bs with
  | zero =>
    constructor
    · intro h
      simp [readNumeral] at h
    · rintro ⟨u, m, -, hu, hlen, -⟩
      have := hu.length_pos
      omega
  | succ n ih =>
    rw [readNumeral, bind_eq_some]
    constructor
    · rintro ⟨b, mid, hb, hrest⟩
      obtain rfl := byte_eq_some.mp hb
      split at hrest
      next hlt =>
        obtain ⟨rfl, rfl⟩ := pure_eq_some.mp hrest
        exact ⟨[b], b.toNat, rfl, .last b hlt, by simp, by rw [Nat.mod_eq_of_lt hlt]⟩
      next hge =>
        obtain ⟨u, m, rfl, hu, hlen, rfl⟩ := ih.mp hrest
        refine ⟨b :: u, _, rfl, .more b (by omega) hu, by simpa using hlen, ?_⟩
        exact or_digit_or _ _ _ _ _ (Nat.mod_lt _ (by omega))
    · rintro ⟨u, m, rfl, hu, hlen, rfl⟩
      cases hu with
      | last b hb =>
        refine ⟨b, rest, rfl, ?_⟩
        simp only [if_pos hb, pure_eq_some, and_true]
        rw [Nat.mod_eq_of_lt hb]
      | @more b u m hb hu =>
        refine ⟨b, u ++ rest, rfl, ?_⟩
        simp only [if_neg (Nat.not_lt.mpr hb)]
        refine ih.mpr ⟨u, m, rfl, hu, by simpa using hlen, ?_⟩
        exact (or_digit_or _ _ _ _ _ (Nat.mod_lt _ (by omega))).symm

end Codec
