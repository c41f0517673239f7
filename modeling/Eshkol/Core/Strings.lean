import Eshkol.Codec.Utf8
import Eshkol.Machine.Exec
import Mathlib.Data.List.Infix
import Mathlib.Data.List.TakeWhile

/-!
# Strings of the Core Library

The string builtins that `lib/core/*.esk` calls. A string that holds a text is the list of its
characters. `make-string` stores one byte for a character, whatever the character is, so that what
it makes is a list of bytes: the text of the character exactly when the character is ASCII.

`string-split` works on the payload as a C string and stops at its first NUL; `string-contains?`
and `string-index` know the length of the string.
-/

namespace Eshkol.Core

open Machine

/-- An error with its message. -/
def raise {α : Type} (message : String) : Exec String α := .error (.raised message)

def stringRef (str : List Char) (k : ℕ) : Exec String Char :=
  match str[k]? with
  | none => raise "string-ref: index out of bounds"
  | some c => .ok c

/-- `(make-string k c)`: the low byte of the character, `k` times. -/
def makeString (k : ℕ) (c : Char) : List UInt8 := List.replicate k (UInt8.ofNat c.toNat)

/-- `string-contains?`, and that `string-index` finds a position. -/
def stringContains (str substr : List Char) : Bool := substr <:+: str

/-- The part of a string that the C string functions see. -/
def cText (str : List Char) : List Char := str.takeWhile (· ≠ '\x00')

/-- The loop of `string-split`, over the characters from `pos` on. `segment` holds those since
the last delimiter, and `skip` counts those of a delimiter that are still to be passed. -/
def stringSplitLoop (delim segment : List Char) : ℕ → List Char → List (List Char)
  | _, [] => [segment]
  | skip + 1, _ :: cs => stringSplitLoop delim segment skip cs
  | 0, c :: cs =>
    if 0 < delim.length ∧ delim <+: c :: cs then
      segment :: stringSplitLoop delim [] (delim.length - 1) cs
    else stringSplitLoop delim (segment ++ [c]) 0 cs

def stringSplit (str delim : List Char) : List (List Char) :=
  stringSplitLoop (cText delim) [] 0 (cText str)

def stringJoin (lst : List (List Char)) (delim : List Char) : List Char :=
  match lst with
  | [] => []
  | s :: rest => rest.foldl (fun acc s => acc ++ delim ++ s) s

def stringReplace (str old new : List Char) : List Char := stringJoin (stringSplit str old) new

/-! ### Bytes and characters -/

theorem makeString_ascii {c : Char} (h : c.toNat < 128) :
    makeString 1 c = Codec.Utf8.encode [c] := by
  have hsize : c.val.toNat ≤ 127 := Nat.le_of_lt_succ h
  rw [Codec.Utf8.encode, List.flatMap_singleton, String.utf8EncodeChar]
  exact (if_pos hsize).symm

theorem encode_cons_ascii {c : Char} (h : c.toNat < 128) (cs : List Char) :
    Codec.Utf8.encode (c :: cs) = makeString 1 c ++ Codec.Utf8.encode cs := by
  rw [makeString_ascii h, ← Codec.Utf8.encode_append]
  rfl

theorem length_utf8EncodeChar (c : Char) :
    1 ≤ (String.utf8EncodeChar c).length ∧
      ((String.utf8EncodeChar c).length = 1 ↔ c.toNat < 128) := by
  obtain ⟨a, rest, heq, -, -, hrest⟩ := (Codec.Utf8.encodesChar c).cases_first
  rw [heq, List.length_cons, Char.toNat, ← hrest, ← List.length_eq_zero_iff]
  omega

theorem length_le_length_encode (cs : List Char) : cs.length ≤ (Codec.Utf8.encode cs).length := by
  induction cs with
  | nil => exact Nat.zero_le _
  | cons c cs ih =>
    have hone := (length_utf8EncodeChar c).1
    rw [Codec.Utf8.encode_cons, List.length_append, List.length_cons]
    omega

theorem length_encode_eq_iff (cs : List Char) :
    (Codec.Utf8.encode cs).length = cs.length ↔ ∀ c ∈ cs, c.toNat < 128 := by
  induction cs with
  | nil => simp
  | cons c cs ih =>
    have hrest := length_le_length_encode cs
    obtain ⟨hone, hascii⟩ := length_utf8EncodeChar c
    rw [Codec.Utf8.encode_cons, List.length_append, List.length_cons, List.forall_mem_cons, ← ih,
      ← hascii]
    omega

/-! ### Replacing a character -/

theorem cText_of_notMem {str : List Char} (h : '\x00' ∉ str) : cText str = str := by
  refine List.takeWhile_eq_self_iff.mpr fun c hc => ?_
  simpa using fun heq : c = '\x00' => h (heq ▸ hc)

theorem stringJoin_cons {s : List Char} {rest : List (List Char)} (hne : rest ≠ [])
    (delim : List Char) :
    stringJoin (s :: rest) delim = s ++ delim ++ stringJoin rest delim := by
  have happend : ∀ (rest : List (List Char)) (front s : List Char),
      rest.foldl (fun acc s => acc ++ delim ++ s) (front ++ s) =
        front ++ rest.foldl (fun acc s => acc ++ delim ++ s) s := by
    intro rest
    induction rest with
    | nil => exact fun _ _ => rfl
    | cons r rest ih =>
      intro front s
      rw [List.foldl_cons, List.foldl_cons, ← ih]
      simp
  obtain ⟨r, rest, rfl⟩ := List.exists_cons_of_ne_nil hne
  exact happend rest (s ++ delim) r

theorem stringSplitLoop_ne_nil (delim segment : List Char) (skip : ℕ) (cs : List Char) :
    stringSplitLoop delim segment skip cs ≠ [] := by
  induction cs generalizing segment skip with
  | nil => cases skip <;> exact List.cons_ne_nil _ _
  | cons c cs ih =>
    cases skip with
    | succ skip => exact ih segment skip
    | zero =>
      rw [stringSplitLoop]
      split
      · exact List.cons_ne_nil _ _
      · exact ih _ 0

theorem stringSplitLoop_char_append {a : Char} {cs : List Char} (h : a ∉ cs)
    (segment rest : List Char) :
    stringSplitLoop [a] segment 0 (cs ++ a :: rest) =
      (segment ++ cs) :: stringSplitLoop [a] [] 0 rest := by
  induction cs generalizing segment with
  | nil => simp [stringSplitLoop]
  | cons c cs ih =>
    rw [List.mem_cons, not_or] at h
    rw [List.cons_append, stringSplitLoop, if_neg (by simp [h.1]), ih h.2]
    simp

theorem stringSplitLoop_char_notMem {a : Char} {cs : List Char} (h : a ∉ cs)
    (segment : List Char) : stringSplitLoop [a] segment 0 cs = [segment ++ cs] := by
  induction cs generalizing segment with
  | nil => simp [stringSplitLoop]
  | cons c cs ih =>
    rw [List.mem_cons, not_or] at h
    rw [stringSplitLoop, if_neg (by simp [h.1]), ih h.2]
    simp

theorem stringJoin_splitLoop_char (a : Char) (new segment cs : List Char) :
    stringJoin (stringSplitLoop [a] segment 0 cs) new =
      segment ++ cs.flatMap fun c => if c = a then new else [c] := by
  induction cs generalizing segment with
  | nil => simp [stringSplitLoop, stringJoin]
  | cons c cs ih =>
    rw [stringSplitLoop]
    by_cases hc : c = a
    · subst hc
      rw [if_pos (by simp), stringJoin_cons (stringSplitLoop_ne_nil _ _ _ _)]
      rw [show [c].length - 1 = 0 from rfl, ih]
      simp
    · rw [if_neg (by simp [Ne.symm hc]), ih]
      simp [hc]

theorem stringReplace_char {str new : List Char} {a : Char} (ha : a ≠ '\x00')
    (h : '\x00' ∉ str) :
    stringReplace str [a] new = str.flatMap fun c => if c = a then new else [c] := by
  rw [stringReplace, stringSplit, cText_of_notMem h,
    cText_of_notMem (by simpa using Ne.symm ha)]
  exact stringJoin_splitLoop_char a new [] str

theorem stringReplace_char_char {str : List Char} {a b : Char} (ha : a ≠ '\x00')
    (h : '\x00' ∉ str) :
    stringReplace str [a] [b] = str.map fun c => if c = a then b else c := by
  rw [stringReplace_char ha h, List.map_eq_flatMap]
  congr 1
  funext c
  split <;> rfl

end Eshkol.Core
