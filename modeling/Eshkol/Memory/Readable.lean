import Eshkol.Memory.Sexp

/-!
# Data that are Read Back

The data that `ms-parse` (`lib/core/memory_store.esk`) makes of the texts that
`sexp->canonical-string` gives them, and how these texts begin.
-/

namespace Eshkol.Memory

/-! ### Atoms -/

/-- A character that does not end an atom (`ms-atom-end`). -/
def msAtomChar (c : Char) : Bool := c ≠ ' ' ∧ c ≠ '(' ∧ c ≠ ')'

/-- What `ms-numeric-token?` tests, on characters. -/
def msNumericToken (t : List Char) : Bool :=
  let digits := if t.head? = some '-' then t.tail else t
  digits ≠ [] ∧ digits.all fun c => c.isDigit || c = '.'

/-- The text of a symbol that is read as that symbol. -/
structure SymbolText (t : List Char) : Prop where
  ne_nil : t ≠ []
  atomChar : ∀ c ∈ t, msAtomChar c
  noQuote : t.head? ≠ some '"'
  noHash : t.head? ≠ some '#'
  notNumeric : ¬ msNumericToken t

instance (t : List Char) : Decidable (SymbolText t) :=
  decidable_of_iff (t ≠ [] ∧ t.all msAtomChar ∧ t.head? ≠ some '"' ∧ t.head? ≠ some '#' ∧
    ¬ msNumericToken t)
    ⟨fun h => ⟨h.1, List.all_eq_true.mp h.2.1, h.2.2.1, h.2.2.2.1, h.2.2.2.2⟩,
      fun h => ⟨h.1, List.all_eq_true.mpr h.2, h.3, h.4, h.5⟩⟩

/-- The data that are read back from their texts. -/
inductive Readable : Sexp → Prop
  | null : Readable .null
  | bool (b : Bool) : Readable (.bool b)
  | int (x : ℤ) : Readable (.num x)
  | str {s : List Char} : '"' ∉ s → Readable (.str s)
  | sym {t : List Char} : SymbolText t → Readable (.sym t)
  | pair {car cdr : Sexp} : Readable car → Readable cdr → Readable (.pair car cdr)

variable {t : List Char} {c : Char} {x : Sexp}

/-- The rest of a text after an atom. -/
def Delimited (rest : List Char) : Prop := ∀ c ∈ rest.head?, msAtomChar c = false


theorem msAtomChar_of_isDigit (h : c.isDigit = true) : msAtomChar c = true := by
  have hne (d : Char) (hd : d.isDigit = false) : c ≠ d := ne_of_isDigit h hd
  rw [msAtomChar, decide_eq_true_eq]
  exact ⟨hne _ rfl, hne _ rfl, hne _ rfl⟩

theorem msAtomChar_of_mem_intText {x : ℤ} (h : c ∈ intText x) : msAtomChar c := by
  rw [intText] at h
  split at h
  next =>
    rcases List.mem_cons.mp h with rfl | h
    · rfl
    · exact msAtomChar_of_isDigit (isDigit_of_mem_natText h)
  next => exact msAtomChar_of_isDigit (isDigit_of_mem_natText h)

theorem msNumericToken_intText (x : ℤ) : msNumericToken (intText x) = true := by
  obtain ⟨d, ds, hd, htext, -⟩ := intText_append x []
  have hall : (natText x.natAbs).all (fun c => c.isDigit || c = '.') := by
    rw [List.all_eq_true]
    intro c hc
    rw [isDigit_of_mem_natText hc, Bool.true_or]
  have hneg : (natText x.natAbs).head? ≠ some '-' := by
    rw [htext]
    exact fun h => ne_of_isDigit hd rfl (Option.some.inj h)
  have hdigits : (if (intText x).head? = some '-' then (intText x).tail else intText x) =
      natText x.natAbs := by
    by_cases hx : x < 0
    · rw [intText, if_pos hx]
      rfl
    · rw [intText, if_neg hx, if_neg hneg]
  rw [msNumericToken, hdigits]
  exact decide_eq_true ⟨natText_ne_nil _, hall⟩

theorem notMem_intText {x : ℤ} (hdigit : c.isDigit = false) (hneg : c ≠ '-') : c ∉ intText x := by
  have hnat : c ∉ natText x.natAbs := fun h => absurd (isDigit_of_mem_natText h) (by simp [hdigit])
  rw [intText]
  split
  next => exact List.not_mem_cons_of_ne_of_not_mem hneg hnat
  next => exact hnat

theorem intText_injective {x y : ℤ} (h : intText x = intText y) : x = y := by
  have hx := splitSign_append x []
  have hy := splitSign_append y []
  rw [h, hy, List.append_nil, List.append_nil] at hx
  rw [← signedDecimal_natText x, ← signedDecimal_natText y, hx]

theorem delimited_cdrString (d : Sexp) (rest : List Char) :
    Delimited (cdrString d ++ ')' :: rest) := by
  cases d <;> intro c hc <;> cases hc <;> rfl

/-! ### How texts begin -/

/-- How the text of a datum begins: not with a space, not with what ends a list and not with
the dot before its tail. -/
def Starts (t : List Char) : Prop :=
  ∃ c rest, t = c :: rest ∧ c ≠ ' ' ∧ c ≠ ')' ∧ (c = '.' → ∃ d rest', rest = d :: rest' ∧ d ≠ ' ')

theorem starts_cons {c : Char} (rest : List Char) (h : c ∉ [' ', ')', '.']) :
    Starts (c :: rest) := by
  simp only [List.mem_cons, List.not_mem_nil, or_false, not_or] at h
  exact ⟨c, rest, rfl, h.1, h.2.1, fun hdot => absurd hdot h.2.2⟩

theorem starts_intText (x : ℤ) : Starts (intText x) := by
  obtain ⟨d, ds, hd, htext, -⟩ := intText_append x []
  rw [intText, htext]
  split
  next => exact starts_cons _ (by decide)
  next =>
    refine starts_cons _ fun hmem => ?_
    have hne (c : Char) (hc : c.isDigit = false) : d ≠ c := ne_of_isDigit hd hc
    simp only [List.mem_cons, List.not_mem_nil, or_false] at hmem
    rcases hmem with h | h | h <;> exact hne _ (by decide) h

theorem SymbolText.starts (h : SymbolText t) : Starts t := by
  have hatom := h.atomChar
  cases t with
  | nil => exact absurd rfl h.ne_nil
  | cons c rest =>
    have hc : msAtomChar c := hatom c List.mem_cons_self
    rw [msAtomChar, decide_eq_true_eq] at hc
    refine ⟨c, rest, rfl, hc.1, hc.2.2, ?_⟩
    rintro rfl
    -- a dot alone is a numeric token
    cases rest with
    | nil => exact absurd rfl h.notNumeric
    | cons d rest =>
      have hd : msAtomChar d := hatom d (List.mem_cons_of_mem _ List.mem_cons_self)
      rw [msAtomChar, decide_eq_true_eq] at hd
      exact ⟨d, rest, rfl, hd.1⟩

theorem Readable.starts (h : Readable x) : Starts (canonicalString x) := by
  cases h with
  | null => exact starts_cons _ (by decide)
  | bool b => cases b <;> exact starts_cons _ (by decide)
  | str h => exact starts_cons _ (by decide)
  | pair => exact starts_cons _ (by decide)
  | int x => exact starts_intText x
  | sym h => exact h.starts

end Eshkol.Memory
