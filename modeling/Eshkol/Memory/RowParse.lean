import Eshkol.Memory.Readable
import Eshkol.Native.CString
import Eshkol.Native.Substring

/-!
# Parsing Rows Natively

`ms-parse` (`lib/core/memory_store.esk`) as compiled code runs it: on the bytes of a string
object, by index, with the string functions of the runtime: `string-ref` is `eshkol_utf8_ref`,
which answers the replacement character after a character that is not ASCII.

A symbol's name is a C string. A numeric token is given to `string->number`, which answers `#f`
for one that is no number.
-/

open Codec.Utf8 Machine

namespace Eshkol.Memory.Row

variable {D : Type}

/-! ### Data -/

/-- The values that the parser builds. Numbers and booleans are tagged values. -/
inductive Item (D : Type) : Type
  | null
  | pair (car cdr : Item D)
  | str (bytes : List UInt8)
  | sym (name : List UInt8)
  | tagged (x : Tagged D)

section Print

variable (formatDouble : D → List Char) (formatFloat32 : List Char)

/-- The texts of atoms. -/
def atomBytes : Item D → Exec Exn (List UInt8)
  | .str s => .ok (encode ['"'] ++ s ++ encode ['"'])
  | .sym s => .ok s
  | .tagged (.bool b) => .ok (encode (if b then ['#', 't'] else ['#', 'f']))
  | .tagged x => do
      let text ← numberToString formatDouble formatFloat32 x
      .ok (encode text)
  | _ => .ok (encode ['(', ')'])

mutual

/-- `sexp->canonical-string` on the bytes of strings. -/
def sexpToCanonicalString : Item D → Exec Exn (List UInt8)
  | .pair car cdr => do
      let first ← sexpToCanonicalString car
      let rest ← sexpCdrString cdr
      .ok (encode ['('] ++ (first ++ (rest ++ encode [')'])))
  | item => atomBytes formatDouble formatFloat32 item

/-- What `sexp->canonical-string-list` puts after the first item of a pair. -/
def sexpCdrString : Item D → Exec Exn (List UInt8)
  | .null => .ok []
  | .pair car cdr => do
      let first ← sexpToCanonicalString car
      let rest ← sexpCdrString cdr
      .ok (encode [' '] ++ (first ++ rest))
  | item => do
      let text ← atomBytes formatDouble formatFloat32 item
      .ok (encode [' ', '.', ' '] ++ text)

end

end Print

/-- The value that is a datum. Symbols have no NUL in their names. -/
inductive Item.Represents : Item D → Sexp → Prop
  | null : Represents .null .null
  | pair {a b : Item D} {car cdr : Sexp} : a.Represents car → b.Represents cdr →
      Represents (.pair a b) (.pair car cdr)
  | str (s : List Char) : Represents (.str (encode s)) (.str s)
  | sym {t : List Char} : '\x00' ∉ t → Represents (.sym (encode t)) (.sym t)
  | int {x : Tagged D} {z : ℤ} : Operand x → x.toInt = some z → Represents (.tagged x) (.num z)
  | bool (b : Bool) : Represents (.tagged (.bool b)) (.bool b)

/-! ### The parser -/

/-- `string-ref` with an index that is no less than 0. -/
def stringRefAt (s : StringObject) (i : ℕ) : Exec Exn ℤ :=
  if eshkolUtf8Strlen (some s) ≤ i then
    .error (.raised (.error "string-ref: index out of bounds"))
  else
    match eshkolUtf8Ref (some s) (Int64.ofNat i) with
    | .ok codepoint => .ok codepoint
    | .error _ => .error .undefined

/-- `substring` with indices that are no less than 0. -/
def substringAt (s : StringObject) (i j : ℕ) : Exec Exn StringObject :=
  if j < i ∨ eshkolUtf8Strlen (some s) < j then
    .error (.raised (.error
      "substring: bounds out of range (start < 0, end < start, or end > string-length)"))
  else
    match eshkolUtf8Substring (some s) i j with
    | some u => .ok u
    | none => .error .undefined

/-- A loop that goes on from index `i` while the characters are of a kind, with so many of them
left. -/
def scanWhile (keep : ℤ → Bool) (s : StringObject) : ℕ → ℕ → Exec Exn ℕ
  | 0, i => .ok i
  | left + 1, i => do
      let c ← stringRefAt s i
      if keep c then scanWhile keep s left (i + 1) else .ok i

/-- The loop up to index `n`. -/
def scanFrom (keep : ℤ → Bool) (s : StringObject) (n i : ℕ) : Exec Exn ℕ :=
  scanWhile keep s (n - i) i

def msSkipWs (s : StringObject) (n i : ℕ) : Exec Exn ℕ := scanFrom (· = 32) s n i

/-- A character that `ms-atom-end` passes over. -/
def atomCode (c : ℤ) : Bool := c ≠ 32 ∧ c ≠ 40 ∧ c ≠ 41

def msAtomEnd (s : StringObject) (n i : ℕ) : Exec Exn ℕ := scanFrom atomCode s n i

/-- `ms-digit?`, or a point. -/
def numberCode (c : ℤ) : Bool := 48 ≤ c ∧ c ≤ 57 ∨ c = 46

def msAllDigitsOrDot (t : StringObject) (n i : ℕ) : Exec Exn Bool := do
  let e ← scanFrom numberCode t n i
  .ok (n ≤ e)

def msNumericToken (t : StringObject) : Exec Exn Bool :=
  let n := eshkolUtf8Strlen (some t)
  if n = 0 then .ok false
  else do
    let c ← stringRefAt t 0
    let start := if c = 45 then 1 else 0
    if n ≤ start then .ok false else msAllDigitsOrDot t n start

def msParseAtom (ops : DoubleOps D) (s : StringObject) (n i : ℕ) :
    Exec Exn (Option (Item D × ℕ)) := do
  let e ← msAtomEnd s n i
  let tok ← substringAt s i e
  if eshkolUtf8Strlen (some tok) = 0 then .ok none
  else do
    let numeric ← msNumericToken tok
    if numeric then do
      let x ← eshkolStringToNumberTagged ops (cString tok.bytes)
      .ok (some (.tagged x, e))
    else .ok (some (.sym (tok.bytes.takeWhile (· ≠ 0)), e))

/-- `ms-parse-string`, from the character after the opening quote on. -/
def msParseString (s : StringObject) (n i : ℕ) : Exec Exn (Option (Item D × ℕ)) := do
  let j ← scanFrom (· ≠ 34) s n i
  if n ≤ j then .ok none
  else do
    let text ← substringAt s i j
    .ok (some (.str text.bytes, j + 1))

def msParseHash (s : StringObject) (n i : ℕ) : Exec Exn (Option (Item D × ℕ)) :=
  if n ≤ i + 1 then .ok none
  else do
    let c ← stringRefAt s (i + 1)
    if c = 116 then .ok (some (.tagged (.bool true), i + 2))
    else if c = 102 then .ok (some (.tagged (.bool false), i + 2))
    else .ok none

/-- `ms-improper` of the reversed list of the items so far, which has the last one first. -/
def msImproper (acc : List (Item D)) (tail : Item D) : Item D :=
  acc.foldl (fun tail item => .pair item tail) tail

/-- Whether a dot at index `i` stands before the tail of a list. -/
def dotted (s : StringObject) (n i : ℕ) (c : ℤ) : Exec Exn Bool :=
  if c = 46 ∧ i + 1 < n then do
    let d ← stringRefAt s (i + 1)
    .ok (d = 32)
  else .ok false

mutual

/-- `ms-parse-at`, with so many calls to go. -/
def msParseAt (ops : DoubleOps D) (s : StringObject) (n : ℕ) :
    ℕ → ℕ → Exec Exn (Option (Item D × ℕ))
  | 0, _ => .error .diverges
  | calls + 1, i => do
      let i ← msSkipWs s n i
      if n ≤ i then .ok none
      else do
        let c ← stringRefAt s i
        if c = 40 then do
          let i ← msSkipWs s n (i + 1)
          msParseList ops s n calls i []
        else if c = 34 then msParseString s n (i + 1)
        else if c = 35 then msParseHash s n i
        else msParseAtom ops s n i

/-- The loop of `ms-parse-list`, with the items so far, the last first. -/
def msParseList (ops : DoubleOps D) (s : StringObject) (n : ℕ) :
    ℕ → ℕ → List (Item D) → Exec Exn (Option (Item D × ℕ))
  | 0, _, _ => .error .diverges
  | calls + 1, i, acc =>
    if n ≤ i then .ok none
    else do
      let c ← stringRefAt s i
      if c = 41 then .ok (some (msImproper acc .null, i + 1))
      else do
        let dot ← dotted s n i c
        if dot then do
          match ← msParseAt ops s n calls (i + 2) with
          | none => .ok none
          | some (tail, j) =>
            let j ← msSkipWs s n j
            if n ≤ j then .ok none
            else do
              let c ← stringRefAt s j
              if c = 41 then .ok (some (msImproper acc tail, j + 1)) else .ok none
        else do
          match ← msParseAt ops s n calls i with
          | none => .ok none
          | some (item, j) =>
            let j ← msSkipWs s n j
            msParseList ops s n calls j (item :: acc)

end

/-- `ms-parse`. A line that is not one datum is answered with `#f`. -/
def msParse (ops : DoubleOps D) (line : StringObject) : Exec Exn (Item D) := do
  let n := eshkolUtf8Strlen (some line)
  match ← msParseAt ops line n (2 * n + 1) 0 with
  | some (v, e) => .ok (if e = n then v else .tagged (.bool false))
  | none => .ok (.tagged (.bool false))

/-! ### What the parser sees -/

/-- A text that is empty or ends with an ASCII character. -/
def EndsAscii (t : List Char) : Prop := ∀ c, t.getLast? = some c → c.toNat < 128

theorem endsAscii_nil : EndsAscii [] := nofun

variable {t : List Char} {c : Char}

theorem endsAscii_concat : EndsAscii (t ++ [c]) ↔ c.toNat < 128 := by
  rw [EndsAscii, List.getLast?_concat]
  exact ⟨fun h => h c rfl, fun h d hd => Option.some.inj hd ▸ h⟩

theorem endsAscii_append {u : List Char} (hu : u ≠ []) : EndsAscii (t ++ u) ↔ EndsAscii u := by
  obtain ⟨u, c, rfl⟩ := List.eq_nil_or_concat u |>.resolve_left hu
  rw [List.concat_eq_append, ← List.append_assoc, endsAscii_concat, endsAscii_concat]

instance (t : List Char) : Decidable (EndsAscii t) :=
  match h : t.getLast? with
  | none => isTrue fun c hc => by rw [h] at hc; cases hc
  | some c => decidable_of_iff (c.toNat < 128) ⟨fun hc d hd => by
      rw [h] at hd
      exact Option.some.inj hd ▸ hc, fun hc => hc c h⟩

/-- The code that is seen at a character, by what stands before it. -/
def seenCode (pre : List Char) (c : Char) : ℤ := if EndsAscii pre then c.toNat else 0xFFFD

/-- A cursor in a string: the text before it, and from it on. -/
structure At (s : StringObject) (n : ℕ) (pre post : List Char) : Prop where
  bytes : s.bytes = encode (pre ++ post)
  length : n = (pre ++ post).length

variable {s : StringObject} {n : ℕ} {pre post : List Char}

theorem At.strlen (h : At s n pre post) : eshkolUtf8Strlen (some s) = n := by
  rw [eshkolUtf8Strlen_encode h.bytes, h.length]

theorem At.move (h : At s n pre (t ++ post)) : At s n (pre ++ t) post :=
  ⟨by rw [List.append_assoc]; exact h.bytes, by rw [List.append_assoc]; exact h.length⟩

theorem At.step (h : At s n pre (c :: post)) : At s n (pre ++ [c]) post := At.move (t := [c]) h

theorem At.lt (h : At s n pre (c :: post)) : pre.length < n := by
  rw [h.length, List.length_append, List.length_cons]
  omega

theorem At.le (h : At s n pre post) : pre.length ≤ n := by
  rw [h.length, List.length_append]
  exact Nat.le_add_right _ _

theorem length_le_length_encode (cs : List Char) : cs.length ≤ (encode cs).length := by
  rw [← countP_encode cs]
  exact List.countP_le_length

theorem At.toInt (h : At s n pre post) : (Int64.ofNat pre.length).toInt = pre.length := by
  have hfits := s.fits
  have hlen := length_le_length_encode (pre ++ post)
  rw [h.bytes] at hfits
  rw [List.length_append] at hlen
  exact Int64.toInt_ofNat_of_lt (by omega)

theorem At.ref (h : At s n pre (c :: post)) : stringRefAt s pre.length = .ok (seenCode pre c) := by
  have hcode : eshkolUtf8Ref (some s) (Int64.ofNat pre.length) = .ok (seenCode pre c) := by
    have htoInt := h.toInt
    rcases List.eq_nil_or_concat pre with rfl | ⟨pre, b, rfl⟩
    · rw [@eshkolUtf8Ref_of_boundary s [] (c :: post) _ h.bytes (by rw [htoInt]; simp)
        (utf8RefLoop_stop (by rw [htoInt]; simp) _ _), seenCode, if_pos endsAscii_nil]
      rfl
    · rw [List.concat_eq_append] at h htoInt ⊢
      have hbytes := h.bytes
      rw [List.append_assoc, List.singleton_append] at hbytes
      rw [eshkolUtf8Ref_succ hbytes (by rw [htoInt]; simp), seenCode]
      simp only [endsAscii_concat]
      rfl
  rw [stringRefAt, if_neg (by rw [h.strlen]; exact Nat.not_le.mpr h.lt), hcode]

theorem At.sub (h : At s n pre (t ++ post)) :
    ∃ u, substringAt s pre.length (pre ++ t).length = .ok u ∧ u.bytes = encode t := by
  have hle : pre.length ≤ (pre ++ t).length := by simp
  obtain ⟨u, hu, hbytes⟩ := eshkolUtf8Substring_encode h.bytes hle
  have hlen := h.move.le
  refine ⟨u, ?_, ?_⟩
  · rw [substringAt, if_neg (by rw [h.strlen]; omega), hu]
  · rw [hbytes, textBetween]
    simp

/-! ### Loops over characters -/

theorem At.scan_end (keep : ℤ → Bool) (h : At s n pre []) :
    scanFrom keep s n pre.length = .ok pre.length := by
  rw [scanFrom, h.length, List.append_nil, Nat.sub_self, scanWhile]

theorem At.scan_step (keep : ℤ → Bool) (h : At s n pre (c :: post)) :
    scanFrom keep s n pre.length =
      if keep (seenCode pre c) then scanFrom keep s n (pre ++ [c]).length
      else .ok pre.length := by
  have hleft : n - pre.length = post.length + 1 := by
    rw [h.length, List.length_append, List.length_cons]
    omega
  have hleft' : n - (pre ++ [c]).length = post.length := by
    rw [List.length_append, List.length_singleton]
    omega
  rw [scanFrom, hleft, scanWhile, h.ref, ok_bind, scanFrom, hleft', List.length_append,
    List.length_singleton]

theorem At.scan_text {keep : ℤ → Bool} (hkeep : ∀ c ∈ t, keep c.toNat) (hunseen : keep 0xFFFD)
    (h : At s n pre (t ++ post)) :
    scanFrom keep s n pre.length = scanFrom keep s n (pre ++ t).length := by
  induction t generalizing pre with
  | nil => rw [List.append_nil]
  | cons c t ih =>
    rw [List.forall_mem_cons] at hkeep
    have hc : keep (seenCode pre c) = true := by
      rw [seenCode]
      split
      next => exact hkeep.1
      next => exact hunseen
    rw [h.scan_step, if_pos hc, ih hkeep.2 h.step, List.append_assoc, List.singleton_append]

theorem At.scan (keep : ℤ → Bool) (h : At s n pre post) :
    ∃ t rest, post = t ++ rest ∧ scanFrom keep s n pre.length = .ok (pre ++ t).length := by
  induction post generalizing pre with
  | nil => exact ⟨[], [], rfl, by rw [h.scan_end, List.append_nil]⟩
  | cons c post ih =>
    rw [h.scan_step]
    split
    next =>
      obtain ⟨t, rest, rfl, hscan⟩ := ih h.step
      exact ⟨c :: t, rest, rfl, by rw [hscan, List.append_assoc, List.singleton_append]⟩
    next => exact ⟨[], c :: post, rfl, by rw [List.append_nil]⟩

/-! ### Bytes of tokens -/

theorem utf8EncodeChar_ascii (h : c.toNat < 128) : String.utf8EncodeChar c = [byte c] := by
  have hc := encodesChar c
  change EncodesChar c.toNat _ at hc
  generalize String.utf8EncodeChar c = bs at hc
  cases hc with
  | @one a _ hv => rw [byte, hv, UInt8.ofNat_toNat]
  | two _ _ _ hmin | three _ _ _ _ hmin | four _ _ _ _ _ hmin => omega

theorem encode_ascii (h : ∀ c ∈ t, c.toNat < 128) : encode t = asciiBytes t := by
  induction t with
  | nil => rfl
  | cons c t ih =>
    rw [List.forall_mem_cons] at h
    rw [encode_cons, utf8EncodeChar_ascii h.1, ih h.2]
    rfl

theorem notMem_utf8EncodeChar {b : UInt8} (hb : b.toNat < 128) (h : c.toNat ≠ b.toNat) :
    b ∉ String.utf8EncodeChar c := by
  intro hmem
  have hc := encodesChar c
  change EncodesChar c.toNat _ at hc
  generalize String.utf8EncodeChar c = bs at hc hmem
  cases hc with
  | one ha hv =>
    obtain rfl := List.mem_singleton.mp hmem
    exact h hv
  | two ha hb' =>
    simp only [List.mem_cons, List.not_mem_nil, or_false] at hmem
    rw [Continues] at hb'
    rcases hmem with rfl | rfl <;> omega
  | three ha hb' hc =>
    simp only [List.mem_cons, List.not_mem_nil, or_false] at hmem
    rw [Continues] at hb' hc
    rcases hmem with rfl | rfl | rfl <;> omega
  | four ha hb' hc hd =>
    simp only [List.mem_cons, List.not_mem_nil, or_false] at hmem
    rw [Continues] at hb' hc hd
    rcases hmem with rfl | rfl | rfl | rfl <;> omega

theorem zero_notMem_encode (h : '\x00' ∉ t) : 0 ∉ encode t := by
  induction t with
  | nil => exact List.not_mem_nil
  | cons c t ih =>
    rw [List.mem_cons, not_or] at h
    rw [encode_cons, List.mem_append, not_or]
    exact ⟨notMem_utf8EncodeChar (by decide) fun heq => h.1 (Char.toNat_inj.mp heq).symm, ih h.2⟩

theorem takeWhile_encode (h : '\x00' ∉ t) (rest : List UInt8) :
    (encode t ++ rest).takeWhile (· ≠ 0) = encode t ++ rest.takeWhile (· ≠ 0) := by
  refine List.takeWhile_append_of_pos fun b hb => ?_
  rw [decide_eq_true_eq]
  rintro rfl
  exact zero_notMem_encode h hb

theorem numberCode_toNat (c : Char) : numberCode c.toNat = (c.isDigit || c = '.') := by
  have hdigit : c.isDigit = true ↔ 48 ≤ c.toNat ∧ c.toNat ≤ 57 := Char.isDigit_iff_toNat
  have hdot : c = '.' ↔ c.toNat = 46 := Char.toNat_inj.symm
  rw [Bool.eq_iff_iff, numberCode, decide_eq_true_eq, Bool.or_eq_true, hdigit, decide_eq_true_eq,
    hdot]
  omega

theorem At.allDigitsOrDot (h : At s n pre post) (hpre : EndsAscii pre) :
    msAllDigitsOrDot s n pre.length = .ok (post.all fun c => c.isDigit || c = '.') := by
  induction post generalizing pre with
  | nil =>
    rw [msAllDigitsOrDot, h.scan_end, ok_bind, h.length, List.append_nil]
    simp
  | cons c post ih =>
    have hseen : seenCode pre c = c.toNat := if_pos hpre
    rw [msAllDigitsOrDot, h.scan_step, hseen, numberCode_toNat, List.all_cons]
    by_cases hc : (c.isDigit || decide (c = '.')) = true
    · have hascii : c.toNat < 128 := by
        rw [← numberCode_toNat, numberCode, decide_eq_true_eq] at hc
        omega
      rw [if_pos hc, hc, Bool.true_and, ← ih h.step (endsAscii_concat.mpr hascii)]
      rfl
    · rw [Bool.not_eq_true] at hc
      rw [if_neg (by simp [hc]), ok_bind, hc, Bool.false_and, decide_eq_false]
      exact Nat.not_le.mpr h.lt

theorem msNumericToken_encode {u : StringObject} (hu : u.bytes = encode t) :
    msNumericToken u = .ok (Memory.msNumericToken t) := by
  have h : At u t.length [] t := ⟨hu, rfl⟩
  rw [msNumericToken, h.strlen]
  cases t with
  | nil => rfl
  | cons c t =>
    have hseen : seenCode [] c = c.toNat := if_pos endsAscii_nil
    have href : stringRefAt u 0 = .ok (c.toNat : ℤ) := h.ref.trans (by rw [hseen])
    rw [if_neg (by simp), href, ok_bind, Memory.msNumericToken]
    by_cases hc : c = '-'
    · subst hc
      cases t with
      | nil => rfl
      | cons d t =>
        have hstep : At u ('-' :: d :: t).length ['-'] (d :: t) := h.step
        have hall := hstep.allDigitsOrDot (endsAscii_concat (t := []).mpr (by decide))
        exact hall.trans (by rw [Except.ok.injEq, Bool.eq_iff_iff]; simp)
    · have hcode : (c.toNat : ℤ) ≠ 45 := by
        have hne : c.toNat ≠ 45 := fun heq => hc (Char.toNat_inj.mp heq)
        exact_mod_cast hne
      have hall := h.allDigitsOrDot endsAscii_nil
      rw [if_neg hcode]
      exact hall.trans (by rw [Except.ok.injEq, Bool.eq_iff_iff]; simp [hc])

theorem At.parseAtom (ops : DoubleOps D) (h : At s n pre (t ++ post)) (ht : t ≠ [])
    (he : msAtomEnd s n pre.length = .ok (pre ++ t).length) :
    msParseAtom ops s n pre.length =
      if Memory.msNumericToken t then do
        let x ← eshkolStringToNumberTagged ops (cString (encode t))
        .ok (some (.tagged x, (pre ++ t).length))
      else .ok (some (.sym ((encode t).takeWhile (· ≠ 0)), (pre ++ t).length)) := by
  obtain ⟨u, hu, hbytes⟩ := h.sub
  have hlen : t.length ≠ 0 := (List.length_pos_iff.mpr ht).ne'
  rw [msParseAtom, he, ok_bind, hu, ok_bind, eshkolUtf8Strlen_encode hbytes, if_neg hlen,
    msNumericToken_encode hbytes, ok_bind, hbytes]

end Eshkol.Memory.Row
