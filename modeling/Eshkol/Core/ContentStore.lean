import Eshkol.Core.MerkleBinding
import Eshkol.Native.HashKeys
import Eshkol.Native.HashTable
import Eshkol.Native.Utf8

/-!
# Content-Addressed Storage

The hash `fnv1a-64` and the store `make-cas` of `lib/core/merkle.esk`. The loop of the hash is in C
(`lib/core/merkle.c`) and takes the number of bytes from the caller, which passes `string-length`.
That counts characters, so that the hash of a text that is not ASCII leaves out its last bytes.

The store is a hash table with the hexadecimal hashes as keys.
-/

open Codec.Utf8 Machine

namespace Eshkol.Core

open Merkle (hashToHex hashToHex_inj)

/-! ### The hash -/

/-- The 64-bit FNV-1a hash of a list of bytes. -/
def fnv1a (bytes : List UInt8) : ℕ :=
  bytes.foldl (fun h b => (h ^^^ b.toNat) * 1099511628211 % 2 ^ 64) 14695981039346656037

/-- The loop of `eshkol_fnv1a_64`, with `k` bytes to come from offset `i` on. -/
def eshkolFnv1aLoop (data : StringObject) : ℕ → ℕ → UInt64 → Exec Empty UInt64
  | 0, _, h => .ok h
  | k + 1, i, h => do
      let p ← data.read i
      eshkolFnv1aLoop data k (i + 1) (mix h p.toUInt64)

def eshkolFnv1a64 (data : StringObject) (len : Int64) : Exec Empty Int64 :=
  if len ≤ 0 then .ok fnvOffsetBasis.toInt64
  else do
    let h ← eshkolFnv1aLoop data len.toNatClampNeg 0 fnvOffsetBasis
    .ok h.toInt64

def fnv1a64 (str : StringObject) : Exec Empty Int64 :=
  eshkolFnv1a64 str (Int64.ofNat (eshkolUtf8Strlen (some str)))

/-- A string that holds a text. -/
structure Text where
  chars : List Char
  fits : (encode chars).length + 1 < 2 ^ 32

/-- The string object of a text. -/
def Text.object (s : Text) : StringObject := ⟨encode s.chars, s.fits⟩

theorem toNat_fnv1aHashString (bytes : List UInt8) :
    (fnv1aHashString bytes).toNat = fnv1a bytes := by
  have hfold : ∀ (bytes : List UInt8) (h : UInt64),
      (bytes.foldl (fun h b => mix h b.toUInt64) h).toNat =
        bytes.foldl (fun h b => (h ^^^ b.toNat) * 1099511628211 % 2 ^ 64) h.toNat := by
    intro bytes
    induction bytes with
    | nil => exact fun _ => rfl
    | cons b bytes ih =>
      intro h
      rw [List.foldl_cons, List.foldl_cons, ih, mix, UInt64.toNat_mul, UInt64.toNat_xor,
        UInt8.toNat_toUInt64]
      rfl
  exact hfold bytes fnvOffsetBasis

theorem eshkolFnv1aLoop_eq (data : StringObject) {k i : ℕ} (hk : i + k ≤ data.bytes.length)
    (h : UInt64) :
    eshkolFnv1aLoop data k i h =
      .ok (((data.bytes.drop i).take k).foldl (fun h b => mix h b.toUInt64) h) := by
  induction k generalizing i h with
  | zero => rfl
  | succ k ih =>
    have hi : i < data.bytes.length := by omega
    rw [eshkolFnv1aLoop, read_eq_ok (List.getElem?_eq_getElem hi), ok_bind, ih (by omega),
      List.drop_eq_getElem_cons hi, List.take_succ_cons, List.foldl_cons]

theorem fnv1a64_eq (s : Text) :
    fnv1a64 s.object = .ok (fnv1aHashString ((encode s.chars).take s.chars.length)).toInt64 := by
  have hle := length_le_length_encode s.chars
  have hfits := s.fits
  have hlen : eshkolUtf8Strlen (some s.object) = s.chars.length := eshkolUtf8Strlen_encode rfl
  have hclamp : (Int64.ofNat s.chars.length).toNatClampNeg = s.chars.length :=
    Int64.toNatClampNeg_ofNat_of_lt (by omega)
  rw [fnv1a64, eshkolFnv1a64, hlen]
  split
  next hzero =>
    have hnil : s.chars.length = 0 := by
      rw [← hclamp, Int64.toNatClampNeg, Int.toNat_eq_zero]
      exact Int64.le_iff_toInt_le.mp hzero
    rw [hnil]
    rfl
  next =>
    rw [hclamp, eshkolFnv1aLoop_eq s.object (by rwa [Nat.zero_add]), ok_bind]
    rfl

variable {s : Text} {m : List Char → Option StringObject}

theorem fnv1a64_ascii (hs : ∀ c ∈ s.chars, c.toNat < 128) :
    fnv1a64 s.object = .ok (fnv1aHashString (encode s.chars)).toInt64 := by
  rw [fnv1a64_eq, ← (length_encode_eq_iff s.chars).mpr hs, List.take_length]

/-! ### Texts that differ in their last byte -/

/-- The bytes of two texts differ in the last one only. -/
def DifferInLast (s t : Text) : Prop :=
  ∃ front b b', encode s.chars = front ++ [b] ∧ encode t.chars = front ++ [b'] ∧ b ≠ b'

theorem ofNat_ne {m n : ℕ} (hm : m < 256) (hn : n < 256) (hne : m ≠ n) :
    UInt8.ofNat m ≠ UInt8.ofNat n := by
  intro heq
  have := congrArg UInt8.toNat heq
  rw [toNat_ofNat hm, toNat_ofNat hn] at this
  exact hne this

theorem utf8EncodeChar_neighbour {c c' : Char} (hhalf : c.val.toNat / 2 = c'.val.toNat / 2)
    (hne : c.val.toNat ≠ c'.val.toNat) :
    ∃ front b b', String.utf8EncodeChar c = front ++ [b] ∧
      String.utf8EncodeChar c' = front ++ [b'] ∧ b ≠ b' := by
  rw [String.utf8EncodeChar, String.utf8EncodeChar]
  generalize c.val.toNat = v, c'.val.toNat = v' at hhalf hne ⊢
  have hmod : v % 64 + 128 ≠ v' % 64 + 128 := by omega
  by_cases h1 : v ≤ 0x7f
  · rw [if_pos h1, if_pos (by omega)]
    exact ⟨[], _, _, rfl, rfl, ofNat_ne (by omega) (by omega) hne⟩
  rw [if_neg h1, if_neg (show ¬ v' ≤ 0x7f by omega)]
  by_cases h2 : v ≤ 0x7ff
  · rw [if_pos h2, if_pos (by omega), show v' / 64 = v / 64 by omega]
    exact ⟨[_], _, _, rfl, rfl, ofNat_ne (by omega) (by omega) hmod⟩
  rw [if_neg h2, if_neg (show ¬ v' ≤ 0x7ff by omega)]
  by_cases h3 : v ≤ 0xffff
  · rw [if_pos h3, if_pos (by omega), show v' / 64 = v / 64 by omega,
      show v' / 4096 = v / 4096 by omega]
    exact ⟨[_, _], _, _, rfl, rfl, ofNat_ne (by omega) (by omega) hmod⟩
  · rw [if_neg h3, if_neg (by omega), show v' / 64 = v / 64 by omega,
      show v' / 4096 = v / 4096 by omega, show v' / 262144 = v / 262144 by omega]
    exact ⟨[_, _, _], _, _, rfl, rfl, ofNat_ne (by omega) (by omega) hmod⟩

theorem exists_neighbour (c : Char) :
    ∃ c' : Char, c.val.toNat / 2 = c'.val.toNat / 2 ∧ c.val.toNat ≠ c'.val.toNat := by
  have hvalid : c.val.toNat < 0xd800 ∨ 0xdfff < c.val.toNat ∧ c.val.toNat < 0x110000 := c.valid
  have hvalid' : (4 * (c.val.toNat / 2) + 1 - c.val.toNat).isValidChar := by
    rw [Nat.isValidChar]
    omega
  refine ⟨Char.ofNatAux _ hvalid', ?_⟩
  change _ = (4 * (c.val.toNat / 2) + 1 - c.val.toNat) / 2 ∧
    _ ≠ 4 * (c.val.toNat / 2) + 1 - c.val.toNat
  omega

theorem exists_differInLast (hs : s.chars ≠ []) :
    ∃ t, DifferInLast s t ∧ t.chars.length = s.chars.length := by
  obtain ⟨init, c, hc⟩ : ∃ init c, s.chars = init ++ [c] :=
    ⟨_, _, (List.dropLast_append_getLast hs).symm⟩
  obtain ⟨c', hhalf, hne⟩ := exists_neighbour c
  obtain ⟨front, b, b', hb, hb', hdiffer⟩ := utf8EncodeChar_neighbour hhalf hne
  have hbytes : encode s.chars = encode init ++ front ++ [b] := by
    rw [hc, encode_append, encode_cons, hb, encode_nil, List.append_nil, List.append_assoc]
  have hbytes' : encode (init ++ [c']) = encode init ++ front ++ [b'] := by
    rw [encode_append, encode_cons, hb', encode_nil, List.append_nil, List.append_assoc]
  refine ⟨⟨init ++ [c'], ?_⟩, ⟨_, b, b', hbytes, hbytes', hdiffer⟩, ?_⟩
  · have hfits := s.fits
    rw [hbytes] at hfits
    rw [hbytes']
    simpa using hfits
  · have hlength := congrArg List.length hc
    rw [List.length_append] at hlength
    change (init ++ [c']).length = _
    rw [hlength, List.length_append]
    rfl

theorem utf8EncodeChar_large {c : Char} (hc : ¬ c.toNat < 128) :
    ∃ a b rest, String.utf8EncodeChar c = a :: b :: rest ∧ ¬ a.toNat < 128 := by
  have hencodes := encodesChar c
  change ¬ c.val.toNat < 128 at hc
  generalize String.utf8EncodeChar c = bytes at hencodes ⊢
  cases hencodes with
  | one ha hv => exact absurd ha (by omega)
  | two ha => exact ⟨_, _, _, rfl, by omega⟩
  | three ha => exact ⟨_, _, _, rfl, by omega⟩
  | four ha => exact ⟨_, _, _, rfl, by omega⟩

theorem ascii_of_front {cs : List Char} {front : List UInt8} {b : UInt8}
    (hbytes : encode cs = front ++ [b]) (hfront : ∀ a ∈ front, a.toNat < 128) :
    ∀ c ∈ cs, c.toNat < 128 := by
  intro c hc
  by_contra hlarge
  obtain ⟨before, after, rfl⟩ := List.append_of_mem hc
  obtain ⟨a, a', rest, hencode, ha⟩ := utf8EncodeChar_large hlarge
  rw [encode_append, encode_cons, hencode] at hbytes
  refine ha (hfront a ?_)
  rw [show front = (front ++ [b]).dropLast from List.dropLast_concat.symm, ← hbytes]
  simp

theorem ascii_bytes {cs : List Char} (hcs : ∀ c ∈ cs, c.toNat < 128) :
    ∀ a ∈ encode cs, a.toNat < 128 := by
  intro a ha
  obtain ⟨c, hc, ha⟩ := List.mem_flatMap.mp ha
  have hsmall := hcs c hc
  have hencodes := encodesChar c
  change c.val.toNat < 128 at hsmall
  generalize String.utf8EncodeChar c = bytes at hencodes ha
  cases hencodes with
  | one ha' hv => exact List.mem_singleton.mp ha ▸ ha'
  | two _ _ _ hmin => exact absurd hsmall (by omega)
  | three _ _ _ _ hmin => exact absurd hsmall (by omega)
  | four _ _ _ _ _ hmin => exact absurd hsmall (by omega)

/-- The hash of a text is right: it is that of all its bytes, and every text that differs in the
last byte only has another one. -/
def HashCorrect (s : Text) : Prop :=
  (∃ v, fnv1a64 s.object = .ok v ∧ v.toUInt64.toNat = fnv1a (encode s.chars)) ∧
    ∀ t, DifferInLast s t → fnv1a64 t.object ≠ fnv1a64 s.object

theorem exists_collision (hs : ¬ ∀ c ∈ s.chars, c.toNat < 128) :
    ∃ t, DifferInLast s t ∧ fnv1a64 t.object = fnv1a64 s.object := by
  have hlt : s.chars.length < (encode s.chars).length :=
    lt_of_le_of_ne (length_le_length_encode _) fun heq =>
      hs ((length_encode_eq_iff _).mp heq.symm)
  obtain ⟨t, hdiffer, hlength⟩ := exists_differInLast (s := s) (by
    intro hnil
    rw [hnil] at hs
    exact hs (by simp))
  refine ⟨t, hdiffer, ?_⟩
  obtain ⟨front, b, b', hb, hb', -⟩ := hdiffer
  rw [hb, List.length_append, List.length_singleton] at hlt
  rw [fnv1a64_eq, fnv1a64_eq, hlength, hb, hb', List.take_append_of_le_length (by omega),
    List.take_append_of_le_length (by omega)]

theorem fnv1a64_correct_iff (s : Text) : HashCorrect s ↔ ∀ c ∈ s.chars, c.toNat < 128 := by
  constructor
  · rintro ⟨-, hlast⟩
    by_contra hs
    obtain ⟨t, hdiffer, heq⟩ := exists_collision hs
    exact hlast t hdiffer heq
  · intro hs
    refine ⟨⟨_, fnv1a64_ascii hs, ?_⟩, ?_⟩
    · rw [UInt64.toUInt64_toInt64, toNat_fnv1aHashString]
    · rintro t ⟨front, b, b', hb, hb', hne⟩ heq
      have hfront : ∀ a ∈ front, a.toNat < 128 := fun a ha =>
        ascii_bytes hs a (hb ▸ List.mem_append_left _ ha)
      rw [fnv1a64_ascii hs, fnv1a64_ascii (ascii_of_front hb' hfront), hb, hb'] at heq
      have hhash := congrArg Int64.toUInt64 (Except.ok.inj heq)
      rw [UInt64.toUInt64_toInt64, UInt64.toUInt64_toInt64, fnv1aHashString, fnv1aHashString,
        List.foldl_append, List.foldl_append] at hhash
      have hbyte := congrArg UInt64.toNat (mix_right_inj.mp hhash)
      rw [UInt8.toNat_toUInt64, UInt8.toNat_toUInt64] at hbyte
      exact hne (UInt8.toNat_inj.mp hbyte.symm)

theorem accented_fits : (encode ['é', 'a']).length + 1 < 2 ^ 32 := by decide

/-- The text `éa`. -/
def accented : Text := ⟨['é', 'a'], accented_fits⟩

/-- The texts `éa` and `éb` have three bytes each, and the first two are hashed. -/
theorem fnv1a64_collision :
    DifferInLast accented ⟨['é', 'b'], by decide⟩ ∧
      fnv1a64 (Text.object ⟨['é', 'b'], by decide⟩) = fnv1a64 accented.object := by
  refine ⟨⟨[0xC3, 0xA9], 0x61, 0x62, rfl, rfl, by decide⟩, ?_⟩
  rw [fnv1a64_eq, fnv1a64_eq]
  rfl

/-! ### The store -/

/-- A store made by `make-cas`: its table, from hexadecimal hashes to strings. -/
abbrev Cas : Type := HashTable (List Char) StringObject

def makeCas : Cas := ⟨List.replicate 16 .empty, 0, 0⟩

/-- `hash_tagged_value` of a string on the heap. -/
def stringKeyHash (key : List Char) : ℕ :=
  (mix fnvOffsetBasis 8 ^^^ fnv1aHashString (encode key)).toNat

/-- `cas-put!`, with the store after it. -/
def casPut (c : Cas) (data : StringObject) : Exec Empty (List Char × Cas) := do
  let v ← fnv1a64 data
  let h := hashToHex (.int v)
  let (_, table) ← hashTableSet stringKeyHash (· == ·) true c h data
  .ok (h, table)

def casGet (c : Cas) (hash : List Char) : Option StringObject :=
  hashTableGet stringKeyHash (· == ·) c hash

/-- One `cas-put!` after the other. -/
def casPutAll : Cas → List Text → Exec Empty Cas
  | c, [] => .ok c
  | c, s :: rest => do
      let (_, c) ← casPut c s.object
      casPutAll c rest

/-- The key of a text. -/
def casKey (s : Text) : List Char :=
  hashToHex (.int (fnv1aHashString ((encode s.chars).take s.chars.length)).toInt64)

theorem stringKeyEquiv : Probe.KeyEquiv stringKeyHash (· == ·) where
  equiv := ⟨fun _ => beq_iff_eq.mpr rfl, fun h => beq_iff_eq.mpr (eq_of_beq h).symm,
    fun h h' => beq_iff_eq.mpr ((eq_of_beq h).trans (eq_of_beq h'))⟩
  hash_eq _ _ h := congrArg stringKeyHash (eq_of_beq h)

/-- A store holds a finite map. -/
def Holds (c : Cas) (m : List Char → Option StringObject) : Prop :=
  c.Wf stringKeyHash (· == ·) ∧ Probe.Denotes (· == ·) c.slots m

theorem holds_makeCas : Holds makeCas fun _ => none :=
  ⟨HashTable.Wf.replicate (by norm_num), Probe.Denotes.replicate _⟩

variable {c : Cas}

theorem Holds.casGet (h : Holds c m) (key : List Char) : casGet c key = m key :=
  hashTableGet_eq stringKeyEquiv h.1 h.2 key

theorem Holds.casPut (h : Holds c m) (s : Text) :
    ∃ c', Core.casPut c s.object = .ok (casKey s, c') ∧
      Holds c' fun key => if casKey s = key then some s.object else m key := by
  rcases hashTableSet_spec stringKeyEquiv h.1 h.2 true (casKey s) s.object with
    ⟨c', hset, hwf, hdenotes⟩ | ⟨hfalse, -⟩
  · refine ⟨c', ?_, hwf, by simpa using hdenotes⟩
    rw [Core.casPut, fnv1a64_eq, ok_bind]
    change (hashTableSet stringKeyHash (· == ·) true c (casKey s) s.object >>= _) = _
    rw [hset]
    rfl
  · cases hfalse

theorem Holds.casPutAll (h : Holds c m) (texts : List Text) :
    ∃ c' m', Core.casPutAll c texts = .ok c' ∧ Holds c' m' ∧
      ∀ key, (∀ t ∈ texts, casKey t ≠ key) → m' key = m key := by
  induction texts generalizing c m with
  | nil => exact ⟨c, m, rfl, h, fun _ _ => rfl⟩
  | cons t texts ih =>
    obtain ⟨c₁, hput, h₁⟩ := h.casPut t
    obtain ⟨c', m', hall, h', hm'⟩ := ih h₁
    refine ⟨c', m', ?_, h', fun key hkey => ?_⟩
    · rw [Core.casPutAll, hput]
      exact hall
    · rw [hm' key fun t ht => hkey t (List.mem_cons_of_mem _ ht),
        if_neg (hkey t List.mem_cons_self)]

theorem fnv1a_eq_of_casKey {t : Text} (hs : ∀ c ∈ s.chars, c.toNat < 128)
    (ht : ∀ c ∈ t.chars, c.toNat < 128) (hkey : casKey t = casKey s) :
    fnv1a (encode t.chars) = fnv1a (encode s.chars) := by
  have hhash := congrArg Int64.toUInt64 (hashToHex_inj hkey)
  rw [← (length_encode_eq_iff s.chars).mpr hs, ← (length_encode_eq_iff t.chars).mpr ht,
    List.take_length, List.take_length, UInt64.toUInt64_toInt64, UInt64.toUInt64_toInt64] at hhash
  rw [← toNat_fnv1aHashString, ← toNat_fnv1aHashString, hhash]

/-- A text put into a store after others: its hash and those of the texts put later are right, and
if theirs are different the store gives it back. -/
def CasCorrect (before : List Text) (s : Text) (later : List Text) : Prop :=
  (∀ x ∈ s :: later, HashCorrect x) ∧
    ((∀ t ∈ later, fnv1a (encode t.chars) ≠ fnv1a (encode s.chars)) →
      ∃ c key c' c'', casPutAll makeCas before = .ok c ∧ casPut c s.object = .ok (key, c') ∧
        casPutAll c' later = .ok c'' ∧ casGet c'' key = some s.object)

/-- **The store is right** exactly when the texts are ASCII. -/
theorem cas_correct_iff (before : List Text) (s : Text) (later : List Text) :
    CasCorrect before s later ↔ ∀ x ∈ s :: later, ∀ c ∈ x.chars, c.toNat < 128 := by
  constructor
  · intro h x hx
    exact (fnv1a64_correct_iff x).mp (h.1 x hx)
  · intro h
    refine ⟨fun x hx => (fnv1a64_correct_iff x).mpr (h x hx), fun hdiffer => ?_⟩
    obtain ⟨c, m, hbefore, hc, -⟩ := holds_makeCas.casPutAll before
    obtain ⟨c', hput, hc'⟩ := hc.casPut s
    obtain ⟨c'', m'', hlater, hc'', hm''⟩ := hc'.casPutAll later
    refine ⟨c, casKey s, c', c'', hbefore, hput, hlater, ?_⟩
    rw [hc''.casGet, hm'' (casKey s), if_pos rfl]
    intro t ht hkey
    exact hdiffer t ht (fnv1a_eq_of_casKey (h s List.mem_cons_self)
      (h t (List.mem_cons_of_mem _ ht)) hkey)

end Eshkol.Core
