import Eshkol.Native.Parse

/-!
# C Strings

Buffers of bytes as the C library sees them, and where `strtod` stops reading. The value that
`strtod` returns is inexact and does not matter here; which part of a text it takes for a number
does, since the readers of data try it on every token.
-/

namespace Eshkol

/-! ### Bytes and characters -/

/-- The byte of an ASCII character. -/
def byte (c : Char) : UInt8 := UInt8.ofNat c.toNat

/-- The bytes of an ASCII text. -/
def asciiBytes (cs : List Char) : List UInt8 := cs.map byte

/-- The characters in a buffer, up to the first NUL. -/
def cString (bs : List UInt8) : List Char := (bs.takeWhile (· ≠ 0)).map fun b => Char.ofNat b.toNat

/-- An ASCII character other than NUL. -/
def IsAscii (c : Char) : Prop := 0 < c.toNat ∧ c.toNat < 128

instance (c : Char) : Decidable (IsAscii c) := inferInstanceAs (Decidable (_ ∧ _))

variable {c : Char}

theorem toNat_byte (h : IsAscii c) : (byte c).toNat = c.toNat := by
  rw [byte, UInt8.toNat_ofNat', Nat.mod_eq_of_lt]
  exact h.2.trans (by decide)

theorem byte_inj {d : Char} (hc : IsAscii c) (hd : IsAscii d) : byte c = byte d ↔ c = d := by
  constructor
  · intro h
    have hn : c.toNat = d.toNat := by rw [← toNat_byte hc, ← toNat_byte hd, h]
    rw [← Char.ofNat_toNat c, ← Char.ofNat_toNat d, hn]
  · exact congrArg byte

theorem byte_ne_zero (h : IsAscii c) : byte c ≠ 0 := by
  intro h0
  have := toNat_byte h
  rw [h0] at this
  exact absurd this.symm (Nat.pos_iff_ne_zero.mp h.1)

theorem isAscii_of_isDigit (h : c.isDigit = true) : IsAscii c := by
  have := toNat_of_isDigit h
  exact ⟨by omega, by omega⟩

theorem takeWhile_asciiBytes {cs : List Char} (h : ∀ c ∈ cs, IsAscii c) :
    (asciiBytes cs).takeWhile (· ≠ 0) = asciiBytes cs := by
  rw [List.takeWhile_eq_self_iff]
  intro b hb
  obtain ⟨c, hc, rfl⟩ := List.mem_map.mp hb
  exact decide_eq_true (byte_ne_zero (h c hc))

theorem cString_asciiBytes {cs : List Char} (h : ∀ c ∈ cs, IsAscii c) :
    cString (asciiBytes cs) = cs := by
  rw [cString, takeWhile_asciiBytes h, asciiBytes, List.map_map]
  conv_rhs => rw [← List.map_id cs]
  refine List.map_congr_left fun c hc => ?_
  rw [Function.comp_apply, toNat_byte (h c hc), Char.ofNat_toNat, id]

/-! ### The end of a floating-point literal -/

/-- Digits with an optional point among them, and what follows; at least one digit. -/
def significandEnd (digit : Char → Bool) (s : List Char) : Option (List Char) :=
  match s.dropWhile digit with
  | '.' :: frac =>
    if s.takeWhile digit = [] ∧ frac.takeWhile digit = [] then none
    else some (frac.dropWhile digit)
  | rest => if s.takeWhile digit = [] then none else some rest

/-- An optional exponent: a mark, an optional sign and digits. -/
def exponentEnd (mark : Char → Bool) : List Char → List Char
  | c :: cs =>
    if mark c ∧ (splitSign cs).2.takeWhile Char.isDigit ≠ [] then
      (splitSign cs).2.dropWhile Char.isDigit
    else c :: cs
  | [] => []

/-- A hexadecimal digit. -/
def isHexDigit (c : Char) : Bool := digitValue c < 16

/-- The characters that may stand in the parentheses of `nan(...)`. -/
def isNanChar (c : Char) : Bool := c.isAlphanum ∨ c = '_'

/-- A word, in whatever case, and what follows. -/
def wordEnd (word s : List Char) : Option (List Char) :=
  if (s.take word.length).map Char.toLower = word then some (s.drop word.length) else none

/-- The parentheses of `nan(...)`, if they are there. -/
def nanEnd : List Char → List Char
  | '(' :: cs =>
    match cs.dropWhile isNanChar with
    | ')' :: rest => rest
    | _ => '(' :: cs
  | cs => cs

/-- An infinity or a NaN. -/
def infnanEnd (s : List Char) : Option (List Char) :=
  match wordEnd ['i', 'n', 'f'] s with
  | some rest => some ((wordEnd ['i', 'n', 'i', 't', 'y'] rest).getD rest)
  | none => (wordEnd ['n', 'a', 'n'] s).map nanEnd

/-- A hexadecimal literal. -/
def hexEnd : List Char → Option (List Char)
  | '0' :: x :: cs =>
    if x = 'x' ∨ x = 'X' then
      (significandEnd isHexDigit cs).map (exponentEnd fun c => c = 'p' ∨ c = 'P')
    else none
  | _ => none

/-- A decimal literal. -/
def decimalEnd (s : List Char) : Option (List Char) :=
  (significandEnd Char.isDigit s).map (exponentEnd fun c => c = 'e' ∨ c = 'E')

/-- The end pointer of `strtod`. Without a literal it is the start. -/
def strtodEnd (s : List Char) : List Char :=
  let signed := (splitSign (s.dropWhile isSpace)).2
  ((infnanEnd signed).orElse fun _ => (hexEnd signed).orElse fun _ => decimalEnd signed).getD s

/-! ### A slash is never taken -/

/-- What is left of a text when a part of it without a slash was taken. -/
def TakesNoSlash (s rest : List Char) : Prop := ∃ taken, s = taken ++ rest ∧ '/' ∉ taken

namespace TakesNoSlash

variable {s t u : List Char}

theorem refl (s : List Char) : TakesNoSlash s s := ⟨[], rfl, List.not_mem_nil⟩

theorem trans (h : TakesNoSlash s t) (h' : TakesNoSlash t u) : TakesNoSlash s u := by
  obtain ⟨a, rfl, ha⟩ := h
  obtain ⟨b, rfl, hb⟩ := h'
  refine ⟨a ++ b, (List.append_assoc a b u).symm, fun hmem => ?_⟩
  exact (List.mem_append.mp hmem).elim ha hb

theorem cons {c : Char} (hc : c ≠ '/') (h : TakesNoSlash s t) : TakesNoSlash (c :: s) t := by
  obtain ⟨a, rfl, ha⟩ := h
  exact ⟨c :: a, rfl, fun hmem => (List.mem_cons.mp hmem).elim (fun h => hc h.symm) ha⟩

theorem dropWhile {p : Char → Bool} (hp : p '/' = false) (s : List Char) :
    TakesNoSlash s (s.dropWhile p) := by
  refine ⟨s.takeWhile p, List.takeWhile_append_dropWhile.symm, fun h => ?_⟩
  have := List.mem_takeWhile_imp h
  rw [hp] at this
  exact absurd this Bool.false_ne_true

theorem splitSign (s : List Char) : TakesNoSlash s (splitSign s).2 := by
  unfold Eshkol.splitSign
  split
  next => exact cons (by decide) (refl _)
  next => exact cons (by decide) (refl _)
  next => exact refl _

theorem significandEnd {digit : Char → Bool} (hd : digit '/' = false)
    (h : significandEnd digit s = some t) : TakesNoSlash s t := by
  unfold Eshkol.significandEnd at h
  split at h
  next frac heq =>
      split at h
      next => simp at h
      next =>
        obtain rfl := Option.some.inj h
        exact (heq ▸ dropWhile hd s).trans (cons (by decide) (dropWhile hd frac))
  next =>
      split at h
      next => simp at h
      next =>
        obtain rfl := Option.some.inj h
        exact dropWhile hd s

theorem exponentEnd {mark : Char → Bool} (hm : mark '/' = false) (s : List Char) :
    TakesNoSlash s (exponentEnd mark s) := by
  unfold Eshkol.exponentEnd
  split
  next c cs =>
      split
      next h =>
        have hc : c ≠ '/' := by
          rintro rfl
          rw [hm] at h
          exact absurd h.1 Bool.false_ne_true
        exact cons hc ((splitSign cs).trans (dropWhile rfl _))
      next => exact refl _
  next => exact refl _

theorem wordEnd {word : List Char} (hword : '/' ∉ word) (h : wordEnd word s = some t) :
    TakesNoSlash s t := by
  unfold Eshkol.wordEnd at h
  split at h
  next hw =>
      obtain rfl := Option.some.inj h
      refine ⟨s.take word.length, (List.take_append_drop _ _).symm, fun hmem => hword ?_⟩
      rw [← hw]
      exact List.mem_map.mpr ⟨'/', hmem, rfl⟩
  next => simp at h

theorem nanEnd (s : List Char) : TakesNoSlash s (nanEnd s) := by
  unfold Eshkol.nanEnd
  split
  next cs =>
      split
      next rest heq =>
        exact cons (by decide) ((heq ▸ dropWhile rfl cs).trans (cons (by decide) (refl _)))
      next => exact refl _
  next => exact refl _

theorem infnanEnd (h : infnanEnd s = some t) : TakesNoSlash s t := by
  unfold Eshkol.infnanEnd at h
  split at h
  next rest hinf =>
      obtain rfl := Option.some.inj h
      refine (wordEnd (by decide) hinf).trans ?_
      cases hinity : Eshkol.wordEnd ['i', 'n', 'i', 't', 'y'] rest with
      | none => exact refl _
      | some rest' => exact wordEnd (by decide) hinity
  next =>
      obtain ⟨rest, hnan, rfl⟩ := Option.map_eq_some_iff.mp h
      exact (wordEnd (by decide) hnan).trans (nanEnd rest)

theorem hexEnd (h : hexEnd s = some t) : TakesNoSlash s t := by
  unfold Eshkol.hexEnd at h
  split at h
  next x cs =>
      split at h
      next hx =>
        obtain ⟨rest, hrest, rfl⟩ := Option.map_eq_some_iff.mp h
        have hx' : x ≠ '/' := by
          rintro rfl
          exact absurd hx (by decide)
        exact cons (by decide) (cons hx'
          ((significandEnd rfl hrest).trans (exponentEnd rfl rest)))
      next => simp at h
  next => simp at h

theorem decimalEnd (h : decimalEnd s = some t) : TakesNoSlash s t := by
  obtain ⟨rest, hrest, rfl⟩ := Option.map_eq_some_iff.mp h
  exact (significandEnd rfl hrest).trans (exponentEnd rfl rest)

theorem strtodEnd (s : List Char) : TakesNoSlash s (strtodEnd s) := by
  have hsign := (dropWhile (p := isSpace) rfl s).trans (splitSign (s.dropWhile isSpace))
  rw [Eshkol.strtodEnd]
  cases hinf : Eshkol.infnanEnd (Eshkol.splitSign (s.dropWhile isSpace)).2 with
  | some rest => exact hsign.trans (infnanEnd hinf)
  | none =>
    cases hhex : Eshkol.hexEnd (Eshkol.splitSign (s.dropWhile isSpace)).2 with
    | some rest => exact hsign.trans (hexEnd hhex)
    | none =>
      cases hdec : Eshkol.decimalEnd (Eshkol.splitSign (s.dropWhile isSpace)).2 with
      | some rest => exact hsign.trans (decimalEnd hdec)
      | none => exact refl s

end TakesNoSlash

theorem strtodEnd_ne_nil {s : List Char} (h : '/' ∈ s) : strtodEnd s ≠ [] := by
  intro hnil
  obtain ⟨taken, hs, hslash⟩ := TakesNoSlash.strtodEnd s
  rw [hnil, List.append_nil] at hs
  exact hslash (hs ▸ h)

/-! ### Texts that start like no number -/

/-- A text that starts neither with a blank nor, behind an optional sign, with a digit or with a
point and a digit. -/
structure NotNumeric (s : List Char) : Prop where
  not_space : ∀ c ∈ s.head?, isSpace c = false
  not_digit : ∀ c ∈ (splitSign s).2.head?, c.isDigit = false
  not_point : ∀ frac, (splitSign s).2 = '.' :: frac → ∀ c ∈ frac.head?, c.isDigit = false

theorem not_digitValue_lt (h : c.isDigit = false) : ¬ digitValue c < 10 := by
  rw [digitValue, h, if_neg Bool.false_ne_true]
  split_ifs with hlower hupper
  · have h97 : 97 ≤ c.toNat := of_decide_eq_true (Bool.and_eq_true_iff.mp hlower).1
    omega
  · have h65 : 65 ≤ c.toNat := (of_decide_eq_true hupper).1
    omega
  · omega

theorem dropWhile_of_head {p : Char → Bool} {s : List Char} (h : ∀ c ∈ s.head?, p c = false) :
    s.dropWhile p = s := by
  cases s with
  | nil => rfl
  | cons c cs => rw [List.dropWhile_cons, h c rfl, if_neg Bool.false_ne_true]

theorem takeWhile_of_head {p : Char → Bool} {s : List Char} (h : ∀ c ∈ s.head?, p c = false) :
    s.takeWhile p = [] := by
  cases s with
  | nil => rfl
  | cons c cs => rw [List.takeWhile_cons, h c rfl, if_neg Bool.false_ne_true]

theorem mem_head?_append {s t : List Char} (h : c ∈ s.head?) : c ∈ (s ++ t).head? := by
  cases s with
  | nil => simp at h
  | cons d s => exact h

theorem splitSign_append_of_ne_nil {s : List Char} (hs : s ≠ []) (t : List Char) :
    (splitSign (s ++ t)).2 = (splitSign s).2 ++ t := by
  unfold splitSign
  split
  next cs heq =>
      obtain ⟨c, s, rfl⟩ := List.exists_cons_of_ne_nil hs
      obtain ⟨rfl, rfl⟩ := List.cons_eq_cons.mp heq
      rfl
  next cs heq =>
      obtain ⟨c, s, rfl⟩ := List.exists_cons_of_ne_nil hs
      obtain ⟨rfl, rfl⟩ := List.cons_eq_cons.mp heq
      rfl
  next hminus hplus =>
      split
      next cs => exact absurd rfl (hminus (cs ++ t))
      next cs => exact absurd rfl (hplus (cs ++ t))
      next => rfl

theorem skipHex_of_head {base : ℕ} {s : List Char} (h : ∀ c ∈ s.head?, c.isDigit = false) :
    skipHex base s = s := by
  unfold skipHex
  split
  next => exact absurd (h '0' rfl) (by decide)
  next => rfl

theorem significandEnd_eq_none {s : List Char} (hdigit : ∀ c ∈ s.head?, c.isDigit = false)
    (hpoint : ∀ frac, s = '.' :: frac → ∀ c ∈ frac.head?, c.isDigit = false) :
    significandEnd Char.isDigit s = none := by
  rw [significandEnd, dropWhile_of_head hdigit, takeWhile_of_head hdigit]
  split
  next frac => rw [takeWhile_of_head (hpoint frac rfl), if_pos ⟨rfl, rfl⟩]
  next => rw [if_pos rfl]

theorem not_mem_take_of_wordEnd {word s rest : List Char} (h : wordEnd word s = some rest)
    (hc : c.toLower ∉ word) (hrest : c ∉ rest) : c ∉ s := by
  rw [wordEnd] at h
  split at h
  next hword =>
      obtain rfl := Option.some.inj h
      intro hmem
      rw [← List.take_append_drop word.length s, List.mem_append] at hmem
      refine hmem.elim (fun htake => hc ?_) hrest
      rw [← hword]
      exact List.mem_map_of_mem htake
  next => simp at h

theorem not_mem_of_infnanEnd {s : List Char} (hparen : '(' ∉ s) (h : infnanEnd s = some [])
    {c : Char} (hc : c.toLower ∉ ['i', 'n', 'f', 't', 'y', 'a']) : c ∉ s := by
  rw [infnanEnd] at h
  split at h
  next rest hinf =>
      refine not_mem_take_of_wordEnd hinf (by simp_all) ?_
      cases hinity : wordEnd ['i', 'n', 'i', 't', 'y'] rest with
      | none =>
        obtain rfl : rest = [] := by simpa [hinity] using h
        exact List.not_mem_nil
      | some rest' =>
        obtain rfl : rest' = [] := by simpa [hinity] using h
        exact not_mem_take_of_wordEnd hinity (by simp_all) List.not_mem_nil
  next =>
      obtain ⟨rest, hnan, hend⟩ := Option.map_eq_some_iff.mp h
      have hrest : '(' ∉ rest := by
        obtain ⟨taken, rfl, -⟩ := TakesNoSlash.wordEnd (by decide) hnan
        exact fun hp => hparen (List.mem_append_right taken hp)
      unfold nanEnd at hend
      split at hend
      next cs => exact absurd List.mem_cons_self hrest
      next => exact not_mem_take_of_wordEnd hnan (by simp_all) (by simp [hend])

theorem mem_of_mem_splitSign {s : List Char} (h : c ∈ (splitSign s).2) : c ∈ s := by
  unfold splitSign at h
  split at h
  next => exact List.mem_cons_of_mem _ h
  next => exact List.mem_cons_of_mem _ h
  next => exact h

theorem mem_splitSign_of_mem {s : List Char} (hsign : c ≠ '+' ∧ c ≠ '-') (h : c ∈ s) :
    c ∈ (splitSign s).2 := by
  unfold splitSign
  split
  next => exact (List.mem_cons.mp h).resolve_left hsign.2
  next => exact (List.mem_cons.mp h).resolve_left hsign.1
  next => exact h

namespace NotNumeric

variable {s : List Char}

theorem strtoll (h : NotNumeric s) : strtoll 10 s = ⟨0, s, false⟩ := by
  rw [Eshkol.strtoll, dropWhile_of_head h.not_space]
  simp only [skipHex_of_head h.not_digit]
  split
  next => rfl
  next c cs heq => rw [if_neg (not_digitValue_lt (h.not_digit c (by rw [heq]; rfl)))]

theorem of_append {t : List Char} (h : NotNumeric (s ++ t)) : NotNumeric s := by
  by_cases hs : s = []
  · subst hs
    exact ⟨by simp, by simp [splitSign], by simp [splitSign]⟩
  · have hsign := splitSign_append_of_ne_nil hs t
    refine ⟨fun c hc => h.not_space c (mem_head?_append hc), fun c hc => h.not_digit c ?_,
      fun frac hfrac c hc => h.not_point (frac ++ t) ?_ c (mem_head?_append hc)⟩
    · rw [hsign]
      exact mem_head?_append hc
    · rw [hsign, hfrac, List.cons_append]

theorem decimalEnd (h : NotNumeric s) : decimalEnd (splitSign s).2 = none := by
  rw [Eshkol.decimalEnd, significandEnd_eq_none h.not_digit h.not_point, Option.map_none]

theorem hexEnd (h : NotNumeric s) : hexEnd (splitSign s).2 = none := by
  unfold Eshkol.hexEnd
  split
  next x cs heq => exact absurd (h.not_digit '0' (by rw [heq]; rfl)) (by decide)
  next => rfl

theorem not_mem_of_strtodEnd (h : NotNumeric s) (hne : s ≠ []) (hparen : '(' ∉ s)
    (hend : strtodEnd s = []) {c : Char} (hsign : c ≠ '+' ∧ c ≠ '-')
    (hc : c.toLower ∉ ['i', 'n', 'f', 't', 'y', 'a']) : c ∉ s := by
  rw [strtodEnd, dropWhile_of_head h.not_space] at hend
  simp only [h.hexEnd, h.decimalEnd] at hend
  cases hinf : infnanEnd (splitSign s).2 with
  | none =>
    rw [hinf] at hend
    exact absurd hend hne
  | some rest =>
    rw [hinf] at hend
    obtain rfl : rest = [] := hend
    exact fun hmem => not_mem_of_infnanEnd (fun hp => hparen (mem_of_mem_splitSign hp)) hinf hc
      (mem_splitSign_of_mem hsign hmem)

end NotNumeric

end Eshkol
