import Eshkol.Core.TextOrder
import Eshkol.Memory.Readable

/-!
# Canonical Texts of Rows

`dbsp-canon` (`lib/core/dbsp.esk`) renders the rows of a Z-set so that they can be sorted and
grouped: atoms are tagged and have their length or a terminator, so that no text of a row is a
prefix of another's and different rows have different texts.

The texts are compared with `string<?` and `string=?`, and rows with `equal?`, which all stop at
the first zero character of a text. Rows with a zero character in a string can therefore be
grouped together without being `equal?`, and be `equal?` without being grouped together.
-/

namespace Eshkol.Core.Dbsp

open Memory

/-! ### The source -/

def dbspAtom (tag : Char) (s : List Char) : List Char := tag :: (natText s.length ++ ':' :: s)

mutual

def dbspCanon : Sexp → List Char
  | .sym s => dbspAtom 'y' s
  | .str s => dbspAtom 's' s
  | .bool b => if b then ['b', '1', ';'] else ['b', '0', ';']
  | .char c => 'c' :: (natText c.toNat ++ [';'])
  | .num q => 'n' :: (numberText q ++ [';'])
  | .null => ['e', ';']
  | .pair car cdr => '(' :: (dbspCanon car ++ (dbspCanon cdr ++ [')']))
  | .vec items => 'v' :: (natText items.length ++ '[' :: (dbspCanonVec items ++ [']']))

/-- From the first item that is left. -/
def dbspCanonVec : List Sexp → List Char
  | [] => []
  | item :: items => dbspCanon item ++ dbspCanonVec items

end

mutual

/-- `equal?` on rows: strings and symbols are compared with `strcmp`. -/
def rowEqual : Sexp → Sexp → Bool
  | .null, .null => true
  | .pair a b, .pair c d => rowEqual a c && rowEqual b d
  | .str s, .str t => stringEqual s t
  | .sym s, .sym t => stringEqual s t
  | .num x, .num y => x == y
  | .bool a, .bool b => a == b
  | .char c, .char d => c == d
  | .vec xs, .vec ys => rowEqualItems xs ys
  | _, _ => false

/-- `equal?` on the items of two vectors. -/
def rowEqualItems : List Sexp → List Sexp → Bool
  | [], [] => true
  | x :: xs, y :: ys => rowEqual x y && rowEqualItems xs ys
  | _, _ => false

end

/-! ### Reading the texts of two rows -/

/-- Texts of the same length that agree up to the first character that fails the test. If there
is none, `rest` decides. -/
def textAgrees (p : Char → Bool) (s t : List Char) (rest : Bool) : Bool :=
  s.length == t.length && (s.takeWhile p == t.takeWhile p && (!s.all p || rest))

mutual

/-- Rows that agree up to the first character, of a string or symbol in them, that fails the
test. If there is none, `rest` decides. -/
def agrees (p : Char → Bool) : Sexp → Sexp → Bool → Bool
  | .null, .null, rest => rest
  | .pair a b, .pair c d, rest => agrees p a c (agrees p b d rest)
  | .str s, .str t, rest => textAgrees p s t rest
  | .sym s, .sym t, rest => textAgrees p s t rest
  | .num x, .num y, rest => x == y && rest
  | .bool a, .bool b, rest => a == b && rest
  | .char c, .char d, rest => c == d && rest
  | .vec xs, .vec ys, rest => xs.length == ys.length && agreesItems p xs ys rest
  | _, _, _ => false

def agreesItems (p : Char → Bool) : List Sexp → List Sexp → Bool → Bool
  | [], [], rest => rest
  | x :: xs, y :: ys, rest => agrees p x y (agreesItems p xs ys rest)
  | _, _, _ => false

end

/-- The first character of the text of a row. -/
def dbspTag : Sexp → Char
  | .null => 'e'
  | .pair _ _ => '('
  | .str _ => 's'
  | .sym _ => 'y'
  | .num _ => 'n'
  | .bool _ => 'b'
  | .char _ => 'c'
  | .vec _ => 'v'

theorem natText_injective {n m : ℕ} (h : natText n = natText m) : n = m := by
  rw [← decimalValue_natText n, h, decimalValue_natText]

theorem notMem_natText {n : ℕ} {c : Char} (hdigit : c.isDigit = false) : c ∉ natText n := by
  intro h
  simp [isDigit_of_mem_natText h] at hdigit

theorem notMem_numberText {q : ℚ} {c : Char} (hdigit : c.isDigit = false) (hneg : c ≠ '-')
    (hslash : c ≠ '/') : c ∉ numberText q := by
  have hnum : c ∉ intText q.num := notMem_intText hdigit hneg
  have hden : c ∉ natText q.den := notMem_natText hdigit
  unfold numberText
  split
  next => exact hnum
  next => simp [hnum, hden, hslash]

theorem append_inj_of_terminated {u v r s : List Char} {c : Char} (hu : c ∉ u) (hv : c ∉ v)
    (h : u ++ c :: r = v ++ c :: s) : u = v ∧ r = s := by
  have htake := congrArg (List.takeWhile (· != c)) h
  rw [List.takeWhile_append_of_pos fun x hx => by simpa using ne_of_mem_of_not_mem hx hu,
    List.takeWhile_append_of_pos fun x hx => by simpa using ne_of_mem_of_not_mem hx hv,
    List.takeWhile_cons_of_neg (by simp), List.takeWhile_cons_of_neg (by simp),
    List.append_nil, List.append_nil] at htake
  subst htake
  exact ⟨rfl, (List.cons.inj (List.append_cancel_left h)).2⟩

theorem numberText_injective {x y : ℚ} (h : numberText x = numberText y) : x = y := by
  have hslash : ∀ z : ℤ, '/' ∉ intText z := fun z => notMem_intText rfl (by decide)
  unfold numberText at h
  split at h <;> split at h
  next hx hy => exact Rat.ext (intText_injective h) (hx.trans hy.symm)
  next => exact absurd (h ▸ by simp : '/' ∈ intText x.num) (hslash _)
  next => exact absurd (h ▸ by simp : '/' ∈ intText y.num) (hslash _)
  next =>
    obtain ⟨hnum, hden⟩ := append_inj_of_terminated (hslash _) (hslash _) h
    exact Rat.ext (intText_injective hnum) (natText_injective hden)

theorem dbspCanon_eq_tag (a : Sexp) : ∃ body, dbspCanon a = dbspTag a :: body := by
  cases a with
  | bool b => cases b <;> exact ⟨_, rfl⟩
  | _ => exact ⟨_, rfl⟩

section Reading

variable {p : Char → Bool} (hp : ∀ c, c ≠ '\x00' → p c = true)
include hp

theorem takeWhile_append_of_nulFree {u : List Char} (hu : '\x00' ∉ u) (r : List Char) :
    (u ++ r).takeWhile p = u ++ r.takeWhile p :=
  List.takeWhile_append_of_pos fun c hc => hp c fun heq => hu (heq ▸ hc)

theorem takeWhile_terminated_iff {u v r s : List Char} {c : Char} (hc : c ≠ '\x00')
    (hu : c ∉ u ∧ '\x00' ∉ u) (hv : c ∉ v ∧ '\x00' ∉ v) :
    (u ++ c :: r).takeWhile p = (v ++ c :: s).takeWhile p ↔
      u = v ∧ r.takeWhile p = s.takeWhile p := by
  rw [takeWhile_append_of_nulFree hp hu.2, takeWhile_append_of_nulFree hp hv.2,
    List.takeWhile_cons_of_pos (hp c hc), List.takeWhile_cons_of_pos (hp c hc)]
  constructor
  · exact append_inj_of_terminated hu.1 hv.1
  · rintro ⟨rfl, hrest⟩
    rw [hrest]

theorem takeWhile_natText_iff {n m : ℕ} {r s : List Char} {c : Char} (hc : c ≠ '\x00')
    (hdigit : c.isDigit = false) :
    (natText n ++ c :: r).takeWhile p = (natText m ++ c :: s).takeWhile p ↔
      n = m ∧ r.takeWhile p = s.takeWhile p := by
  rw [takeWhile_terminated_iff hp hc ⟨notMem_natText hdigit, notMem_natText rfl⟩
    ⟨notMem_natText hdigit, notMem_natText rfl⟩]
  exact and_congr_left fun _ => ⟨natText_injective, congrArg natText⟩

omit hp in
theorem takeWhile_append_iff {u v r s : List Char} (hlength : u.length = v.length) :
    (u ++ r).takeWhile p = (v ++ s).takeWhile p ↔
      u.takeWhile p = v.takeWhile p ∧ (u.all p = true → r.takeWhile p = s.takeWhile p) := by
  induction u generalizing v with
  | nil => simp [List.length_eq_zero_iff.mp hlength.symm]
  | cons a u ih =>
    cases v with
    | nil => cases hlength
    | cons b v =>
      have ih := ih (Nat.succ.inj hlength)
      by_cases ha : p a = true <;> by_cases hb : p b = true
      · simp [ha, hb, ih, and_assoc]
      · simp [ha, hb]
      · simp [ha, hb]
      · simp [ha, hb]

theorem textAgrees_takeWhile {tag : Char} (htag : tag ≠ '\x00') (u v r s : List Char) :
    textAgrees p u v (decide (r.takeWhile p = s.takeWhile p)) =
      decide ((dbspAtom tag u ++ r).takeWhile p = (dbspAtom tag v ++ s).takeWhile p) := by
  simp only [dbspAtom, List.cons_append, List.append_assoc,
    List.takeWhile_cons_of_pos (hp tag htag), List.cons.injEq, true_and,
    takeWhile_natText_iff hp (c := ':') (by decide) rfl]
  by_cases hlength : u.length = v.length
  · simp only [takeWhile_append_iff hlength]
    rw [Bool.eq_iff_iff]
    simp [textAgrees, hlength, imp_iff_not_or]
  · simp [textAgrees, hlength]

theorem agrees_takeWhile_of_tag {a b : Sexp} {rest : Bool} (hagrees : agrees p a b rest = false)
    (htag : dbspTag a ≠ dbspTag b) (r s : List Char) :
    agrees p a b rest =
      decide ((dbspCanon a ++ r).takeWhile p = (dbspCanon b ++ s).takeWhile p) := by
  have hvisible : ∀ c : Sexp, p (dbspTag c) = true := fun c => hp _ (by cases c <;> simp [dbspTag])
  obtain ⟨u, hu⟩ := dbspCanon_eq_tag a
  obtain ⟨v, hv⟩ := dbspCanon_eq_tag b
  rw [hagrees, hu, hv]
  simp [hvisible, htag]

end Reading

mutual

/-- Rows agree where their texts do, up to the end of what is read of these. -/
theorem agrees_takeWhile {p : Char → Bool} (hp : ∀ c, c ≠ '\x00' → p c = true) :
    ∀ (a b : Sexp) (r s : List Char),
    agrees p a b (decide (r.takeWhile p = s.takeWhile p)) =
      decide ((dbspCanon a ++ r).takeWhile p = (dbspCanon b ++ s).takeWhile p)
  | .pair a c, b, r, s => by
      cases b with
      | pair b d =>
        have hopen : p '(' = true := hp _ (by decide)
        have hclose : p ')' = true := hp _ (by decide)
        have hcdr := agrees_takeWhile hp c d (')' :: r) (')' :: s)
        have hcar := agrees_takeWhile hp a b (dbspCanon c ++ ')' :: r) (dbspCanon d ++ ')' :: s)
        simp only [List.takeWhile_cons_of_pos hclose, List.cons.injEq, true_and] at hcdr
        rw [agrees, hcdr, hcar]
        simp [dbspCanon, hopen]
      | _ => exact agrees_takeWhile_of_tag hp (by simp [agrees]) (by simp [dbspTag]) r s
  | .vec xs, b, r, s => by
      cases b with
      | vec ys =>
        have hopen : p 'v' = true := hp _ (by decide)
        have hclose : p ']' = true := hp _ (by decide)
        simp only [dbspCanon, List.cons_append, List.append_assoc, List.nil_append,
          List.takeWhile_cons_of_pos hopen, List.cons.injEq, true_and,
          takeWhile_natText_iff hp (c := '[') (by decide) rfl]
        by_cases hlength : xs.length = ys.length
        · have hitems := agreesItems_takeWhile hp xs ys (']' :: r) (']' :: s) hlength
          simp only [List.takeWhile_cons_of_pos hclose, List.cons.injEq, true_and] at hitems
          simp [agrees, hlength, hitems]
        · simp [agrees, hlength]
      | _ => exact agrees_takeWhile_of_tag hp (by simp [agrees]) (by simp [dbspTag]) r s
  | .null, b, r, s => by
      cases b with
      | null => simp [agrees, dbspCanon, hp]
      | _ => exact agrees_takeWhile_of_tag hp (by simp [agrees]) (by simp [dbspTag]) r s
  | .str u, b, r, s => by
      cases b with
      | str v => exact textAgrees_takeWhile hp (by decide) u v r s
      | _ => exact agrees_takeWhile_of_tag hp (by simp [agrees]) (by simp [dbspTag]) r s
  | .sym u, b, r, s => by
      cases b with
      | sym v => exact textAgrees_takeWhile hp (by decide) u v r s
      | _ => exact agrees_takeWhile_of_tag hp (by simp [agrees]) (by simp [dbspTag]) r s
  | .num x, b, r, s => by
      cases b with
      | num y =>
        have hnul : ∀ q : ℚ, ';' ∉ numberText q ∧ '\x00' ∉ numberText q := fun q =>
          ⟨notMem_numberText rfl (by decide) (by decide),
            notMem_numberText rfl (by decide) (by decide)⟩
        have htext : numberText x = numberText y ↔ x = y :=
          ⟨numberText_injective, congrArg numberText⟩
        have hread := takeWhile_terminated_iff hp (c := ';') (r := r) (s := s) (by decide)
          (hnul x) (hnul y)
        rw [Bool.eq_iff_iff]
        simp [agrees, dbspCanon, hp, hread, htext]
      | _ => exact agrees_takeWhile_of_tag hp (by simp [agrees]) (by simp [dbspTag]) r s
  | .bool x, b, r, s => by
      cases b with
      | bool y => cases x <;> cases y <;> simp [agrees, dbspCanon, hp]
      | _ => exact agrees_takeWhile_of_tag hp (by simp [agrees]) (by simp [dbspTag]) r s
  | .char c, b, r, s => by
      cases b with
      | char d =>
        have hread := takeWhile_natText_iff hp (n := c.toNat) (m := d.toNat) (c := ';')
          (r := r) (s := s) (by decide) rfl
        rw [Bool.eq_iff_iff]
        simp [agrees, dbspCanon, hp, hread, Char.toNat_inj]
      | _ => exact agrees_takeWhile_of_tag hp (by simp [agrees]) (by simp [dbspTag]) r s

theorem agreesItems_takeWhile {p : Char → Bool} (hp : ∀ c, c ≠ '\x00' → p c = true) :
    ∀ (xs ys : List Sexp) (r s : List Char), xs.length = ys.length →
    agreesItems p xs ys (decide (r.takeWhile p = s.takeWhile p)) =
      decide ((dbspCanonVec xs ++ r).takeWhile p = (dbspCanonVec ys ++ s).takeWhile p)
  | [], ys, r, s, h => by
      rw [List.length_eq_zero_iff.mp h.symm]
      rfl
  | x :: xs, y :: ys, r, s, h => by
      have htail := agreesItems_takeWhile hp xs ys r s (Nat.succ.inj h)
      have hhead := agrees_takeWhile hp x y (dbspCanonVec xs ++ r) (dbspCanonVec ys ++ s)
      rw [agreesItems, htail, hhead]
      simp [dbspCanonVec]

end

theorem agrees_true_iff {p : Char → Bool} (hp : ∀ c, c ≠ '\x00' → p c = true) {a b : Sexp} :
    agrees p a b true = true ↔ (dbspCanon a).takeWhile p = (dbspCanon b).takeWhile p := by
  have hread : agrees p a b true =
      decide ((dbspCanon a).takeWhile p = (dbspCanon b).takeWhile p) := by
    simpa using agrees_takeWhile hp a b [] []
  rw [hread, decide_eq_true_iff]

/-! ### Different rows have different texts -/

mutual

/-- The characters of the strings and symbols in a row. -/
def rowChars : Sexp → List Char
  | .str s | .sym s => s
  | .pair car cdr => rowChars car ++ rowChars cdr
  | .vec items => rowCharsItems items
  | .null | .num _ | .bool _ | .char _ => []

def rowCharsItems : List Sexp → List Char
  | [] => []
  | item :: items => rowChars item ++ rowCharsItems items

end

theorem textAgrees_iff_of_all {p : Char → Bool} {s t : List Char} {rest : Bool}
    (h : ∀ c ∈ s, p c = true) : textAgrees p s t rest = true ↔ s = t ∧ rest = true := by
  have hs : s.takeWhile p = s := List.takeWhile_eq_self_iff.mpr h
  simp only [textAgrees, hs, List.all_eq_true.mpr h, Bool.not_true, Bool.false_or,
    Bool.and_eq_true, beq_iff_eq]
  constructor
  · rintro ⟨hlength, htake, hrest⟩
    refine ⟨?_, hrest⟩
    rw [htake]
    exact (List.takeWhile_prefix p).eq_of_length (by rw [← htake, hlength])
  · rintro ⟨rfl, hrest⟩
    exact ⟨rfl, hs.symm, hrest⟩

mutual

theorem agrees_iff_of_all {p : Char → Bool} : ∀ {a b : Sexp} {rest : Bool},
    (∀ c ∈ rowChars a, p c = true) → (agrees p a b rest = true ↔ a = b ∧ rest = true)
  | .pair a c, b, rest, h => by
      rw [rowChars, List.forall_mem_append] at h
      cases b with
      | pair b d =>
        rw [agrees, agrees_iff_of_all h.1, agrees_iff_of_all h.2, Sexp.pair.injEq, and_assoc]
      | _ => simp [agrees]
  | .vec xs, b, rest, h => by
      rw [rowChars] at h
      cases b with
      | vec ys =>
        rw [agrees, Bool.and_eq_true, agreesItems_iff_of_all h, Sexp.vec.injEq, beq_iff_eq,
          and_iff_right_of_imp fun hxs => congrArg List.length hxs.1]
      | _ => simp [agrees]
  | .str s, b, rest, h => by
      cases b with
      | str t =>
        rw [rowChars] at h
        rw [agrees, textAgrees_iff_of_all h, Sexp.str.injEq]
      | _ => simp [agrees]
  | .sym s, b, rest, h => by
      cases b with
      | sym t =>
        rw [rowChars] at h
        rw [agrees, textAgrees_iff_of_all h, Sexp.sym.injEq]
      | _ => simp [agrees]
  | .null, b, rest, _ => by cases b <;> simp [agrees]
  | .num x, b, rest, _ => by cases b <;> simp [agrees]
  | .bool x, b, rest, _ => by cases b <;> simp [agrees]
  | .char c, b, rest, _ => by cases b <;> simp [agrees]

theorem agreesItems_iff_of_all {p : Char → Bool} : ∀ {xs ys : List Sexp} {rest : Bool},
    (∀ c ∈ rowCharsItems xs, p c = true) → (agreesItems p xs ys rest = true ↔ xs = ys ∧ rest = true)
  | [], ys, rest, _ => by cases ys <;> simp [agreesItems]
  | x :: xs, ys, rest, h => by
      rw [rowCharsItems, List.forall_mem_append] at h
      cases ys with
      | nil => simp [agreesItems]
      | cons y ys =>
        rw [agreesItems, agrees_iff_of_all h.1, agreesItems_iff_of_all h.2, List.cons.injEq,
          and_assoc]

end

theorem dbspCanon_injective : Function.Injective dbspCanon := by
  intro a b h
  have hread := agrees_true_iff (p := fun _ => true) (fun _ _ => rfl) (a := a) (b := b)
  rw [agrees_iff_of_all fun _ _ => rfl, h] at hread
  exact (hread.mpr rfl).1

/-! ### Grouping and `equal?` -/

/-- Rows that agree up to the first zero character of a string or symbol in them. -/
def agreesToNul (a b : Sexp) : Bool := agrees (· ≠ '\x00') a b true

theorem stringEqual_dbspCanon_iff {a b : Sexp} :
    stringEqual (dbspCanon a) (dbspCanon b) = true ↔ agreesToNul a b = true := by
  rw [stringEqual_iff, agreesToNul, agrees_true_iff fun c hc => by simpa using hc]
  rfl

mutual

/-- A row with its texts cut at the first zero character. -/
def cRow : Sexp → Sexp
  | .pair car cdr => .pair (cRow car) (cRow cdr)
  | .str s => .str (cText s)
  | .sym s => .sym (cText s)
  | .vec items => .vec (cRowItems items)
  | .null => .null
  | .num q => .num q
  | .bool b => .bool b
  | .char c => .char c

def cRowItems : List Sexp → List Sexp
  | [] => []
  | item :: items => cRow item :: cRowItems items

end

mutual

theorem rowEqual_iff : ∀ {a b : Sexp}, rowEqual a b = true ↔ cRow a = cRow b
  | .pair a c, b => by
      cases b with
      | pair b d =>
        rw [rowEqual, Bool.and_eq_true, rowEqual_iff, rowEqual_iff, cRow, cRow, Sexp.pair.injEq]
      | _ => simp [rowEqual, cRow]
  | .vec xs, b => by
      cases b with
      | vec ys => rw [rowEqual, rowEqualItems_iff, cRow, cRow, Sexp.vec.injEq]
      | _ => simp [rowEqual, cRow]
  | .str s, b => by cases b <;> simp [rowEqual, cRow, stringEqual_iff]
  | .sym s, b => by cases b <;> simp [rowEqual, cRow, stringEqual_iff]
  | .null, b => by cases b <;> simp [rowEqual, cRow]
  | .num x, b => by cases b <;> simp [rowEqual, cRow]
  | .bool x, b => by cases b <;> simp [rowEqual, cRow]
  | .char c, b => by cases b <;> simp [rowEqual, cRow]

theorem rowEqualItems_iff : ∀ {xs ys : List Sexp},
    rowEqualItems xs ys = true ↔ cRowItems xs = cRowItems ys
  | [], ys => by cases ys <;> simp [rowEqualItems, cRowItems]
  | x :: xs, ys => by
      cases ys with
      | nil => simp [rowEqualItems, cRowItems]
      | cons y ys =>
        rw [rowEqualItems, Bool.and_eq_true, rowEqual_iff, rowEqualItems_iff, cRowItems,
          cRowItems, List.cons.injEq]

end

mutual

theorem cRow_of_nulFree : ∀ {a : Sexp}, '\x00' ∉ rowChars a → cRow a = a
  | .pair a c, h => by
      rw [rowChars, List.mem_append, not_or] at h
      rw [cRow, cRow_of_nulFree h.1, cRow_of_nulFree h.2]
  | .vec xs, h => by rw [cRow, cRowItems_of_nulFree h]
  | .str s, h => by
      rw [rowChars] at h
      rw [cRow, cText_of_notMem h]
  | .sym s, h => by
      rw [rowChars] at h
      rw [cRow, cText_of_notMem h]
  | .null, _ => rfl
  | .num _, _ => rfl
  | .bool _, _ => rfl
  | .char _, _ => rfl

theorem cRowItems_of_nulFree : ∀ {xs : List Sexp}, '\x00' ∉ rowCharsItems xs → cRowItems xs = xs
  | [], _ => rfl
  | x :: xs, h => by
      rw [rowCharsItems, List.mem_append, not_or] at h
      rw [cRowItems, cRow_of_nulFree h.1, cRowItems_of_nulFree h.2]

end

theorem rowEqual_iff_agreesToNul_of_nulFree {a b : Sexp} (ha : '\x00' ∉ rowChars a)
    (hb : '\x00' ∉ rowChars b) : rowEqual a b = true ↔ agreesToNul a b = true := by
  rw [rowEqual_iff, cRow_of_nulFree ha, cRow_of_nulFree hb, agreesToNul,
    agrees_iff_of_all fun c hc => by simpa using ne_of_mem_of_not_mem hc ha]
  simp

end Eshkol.Core.Dbsp
