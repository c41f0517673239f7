import Mathlib.Data.Rat.Defs
import Eshkol.Native.Print

/-!
# Canonical Strings

`sexp->canonical-string` (`lib/core/sexp.esk`): the text of a datum that is hashed for the
event log, stored in the journal and compared to break ties.

Strings are put in quotes and symbols are spelled as they are; neither is escaped. A symbol
may have any text (`string->symbol`), so that there is a symbol for every text that another
datum has. Objects of other types than those of `Sexp`, which have the text `#<object>`, are
left out.
-/

namespace Eshkol.Memory

/-- A datum: exact numbers are rationals, texts are lists of characters. -/
inductive Sexp : Type
  | null
  | pair (car cdr : Sexp)
  | str (s : List Char)
  | sym (s : List Char)
  | num (q : ℚ)
  | bool (b : Bool)
  | char (c : Char)
  | vec (items : List Sexp)

/-- `number->string` of an exact number. -/
def numberText (q : ℚ) : List Char :=
  if q.den = 1 then intText q.num else intText q.num ++ '/' :: natText q.den

/-- The texts of atoms. -/
def atomString : Sexp → List Char
  | .str s => '"' :: (s ++ ['"'])
  | .sym s => s
  | .num q => numberText q
  | .bool b => if b then ['#', 't'] else ['#', 'f']
  | .char c => ['#', '\\', c]
  | _ => ['(', ')']

mutual

/-- `sexp->canonical-string`. -/
def canonicalString : Sexp → List Char
  | .pair car cdr => '(' :: (canonicalString car ++ (cdrString cdr ++ [')']))
  | .vec items => '#' :: '(' :: (vectorBody items ++ [')'])
  | s => atomString s

/-- What `sexp->canonical-string-list` puts after the first item of a pair. -/
def cdrString : Sexp → List Char
  | .null => []
  | .pair car cdr => ' ' :: (canonicalString car ++ cdrString cdr)
  | .vec items => ' ' :: '.' :: ' ' :: '#' :: '(' :: (vectorBody items ++ [')'])
  | s => ' ' :: '.' :: ' ' :: atomString s

/-- `vector->canonical-string-body`, from the first item that is left. -/
def vectorBody : List Sexp → List Char
  | [] => []
  | item :: items => match items with
    | [] => canonicalString item
    | _ => canonicalString item ++ ' ' :: vectorBody items

end

example : canonicalString (.pair (.sym ['a']) (.pair (.num 1) (.str ['b']))) =
    "(a 1 . \"b\")".toList := by decide

/-- `sexp->canonical-string-list` on the pair of `car` and `cdr`. -/
def canonicalStringList (car cdr : Sexp) : List Char := canonicalString car ++ cdrString cdr

theorem canonicalString_pair (car cdr : Sexp) :
    canonicalString (.pair car cdr) = '(' :: (canonicalStringList car cdr ++ [')']) := by
  rw [canonicalString, canonicalStringList, List.append_assoc]

theorem canonicalStringList_eq (car cdr : Sexp) :
    canonicalStringList car cdr = match cdr with
      | .null => canonicalString car
      | .pair car' cdr' => canonicalString car ++ ' ' :: canonicalStringList car' cdr'
      | cdr => canonicalString car ++ (' ' :: '.' :: ' ' :: canonicalString cdr) := by
  cases cdr with
  | null => simp [canonicalStringList, cdrString]
  | pair | vec => simp [canonicalStringList, cdrString, canonicalString]
  | str | sym | num | bool | char => simp [canonicalStringList, cdrString, canonicalString]

/-! ### Texts of other data than symbols -/

/-- The texts of lists, vectors, strings, numbers, booleans and characters. What is between
the brackets or quotes may be anything, since it may be a symbol. -/
inductive Literal : List Char → Prop
  | list (m : List Char) : Literal ('(' :: (m ++ [')']))
  | vec (m : List Char) : Literal ('#' :: '(' :: (m ++ [')']))
  | str (m : List Char) : Literal ('"' :: (m ++ ['"']))
  | num (q : ℚ) : Literal (numberText q)
  | bool (b : Bool) : Literal (canonicalString (.bool b))
  | char (c : Char) : Literal ['#', '\\', c]

theorem sym_or_literal (a : Sexp) : (∃ t, a = .sym t) ∨ Literal (canonicalString a) := by
  cases a with
  | sym t => exact .inl ⟨t, rfl⟩
  | null => exact .inr (.list [])
  | pair car cdr =>
    rw [canonicalString_pair]
    exact .inr (.list _)
  | str s => exact .inr (.str s)
  | num q => exact .inr (.num q)
  | bool b => exact .inr (.bool b)
  | char c => exact .inr (.char c)
  | vec items => exact .inr (.vec _)

theorem Literal.exists_datum {t : List Char} (h : Literal t) :
    ∃ a, (∀ s, a ≠ .sym s) ∧ canonicalString a = t := by
  cases h with
  | list m => exact ⟨.pair (.sym m) .null, nofun, rfl⟩
  | vec m => exact ⟨.vec [.sym m], nofun, rfl⟩
  | str m => exact ⟨.str m, nofun, rfl⟩
  | num q => exact ⟨.num q, nofun, rfl⟩
  | bool b => exact ⟨.bool b, nofun, rfl⟩
  | char c => exact ⟨.char c, nofun, rfl⟩

/-- **The data whose text no other datum has** are the symbols that are not spelled like a
list, a vector, a string, a number, a boolean or a character. -/
theorem canonicalString_unique_iff (a : Sexp) :
    (∀ b, canonicalString a = canonicalString b → a = b) ↔ ∃ t, a = .sym t ∧ ¬ Literal t := by
  constructor
  · intro h
    have ha : a = .sym (canonicalString a) := h (.sym (canonicalString a)) rfl
    refine ⟨_, ha, ?_⟩
    intro hliteral
    obtain ⟨b, hb, htext⟩ := hliteral.exists_datum
    exact hb _ ((h b htext.symm).symm.trans ha)
  · rintro ⟨t, rfl, ht⟩ b hb
    rcases sym_or_literal b with ⟨t', rfl⟩ | hliteral
    · exact congrArg Sexp.sym hb
    · rw [← hb] at hliteral
      exact absurd hliteral ht

/-- A list of one string with quotes in it has the same text as a list of two strings. -/
theorem canonicalString_collision :
    canonicalString (.pair (.str "a\" \"b".toList) .null) =
      canonicalString (.pair (.str ['a']) (.pair (.str ['b']) .null)) ∧
    Sexp.pair (.str "a\" \"b".toList) .null ≠ .pair (.str ['a']) (.pair (.str ['b']) .null) := by
  refine ⟨by decide, ?_⟩
  intro h
  injection h with hcar
  injection hcar with htext
  exact absurd htext (by decide)

/-! ### Equality of data -/

mutual

def Sexp.equal : Sexp → Sexp → Bool
  | .null, .null => true
  | .pair a b, .pair c d => a.equal c && b.equal d
  | .str s, .str t => s == t
  | .sym s, .sym t => s == t
  | .num x, .num y => x == y
  | .bool a, .bool b => a == b
  | .char c, .char d => c == d
  | .vec xs, .vec ys => equalItems xs ys
  | _, _ => false

/-- `equal?` on the items of two vectors. -/
def equalItems : List Sexp → List Sexp → Bool
  | [], [] => true
  | x :: xs, y :: ys => x.equal y && equalItems xs ys
  | _, _ => false

end

mutual

theorem Sexp.equal_iff : ∀ a b : Sexp, a.equal b = true ↔ a = b
  | .null, b => by cases b <;> simp [Sexp.equal]
  | .pair a c, b => by
      cases b <;> simp [Sexp.equal]
      rename_i b d
      rw [Sexp.equal_iff a b, Sexp.equal_iff c d]
  | .str s, b => by cases b <;> simp [Sexp.equal]
  | .sym s, b => by cases b <;> simp [Sexp.equal]
  | .num q, b => by cases b <;> simp [Sexp.equal]
  | .bool x, b => by cases b <;> simp [Sexp.equal]
  | .char c, b => by cases b <;> simp [Sexp.equal]
  | .vec xs, b => by
      cases b <;> simp [Sexp.equal]
      exact equalItems_iff xs _

theorem equalItems_iff : ∀ xs ys : List Sexp, equalItems xs ys = true ↔ xs = ys
  | [], ys => by cases ys <;> simp [equalItems]
  | x :: xs, ys => by
      cases ys <;> simp [equalItems]
      rename_i y ys
      rw [Sexp.equal_iff x y, equalItems_iff xs ys]

end

instance : DecidableEq Sexp := fun a b => decidable_of_iff (a.equal b = true) (Sexp.equal_iff a b)

end Eshkol.Memory
