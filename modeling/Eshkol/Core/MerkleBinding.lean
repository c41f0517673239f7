import Eshkol.Core.Merkle
import Mathlib.Tactic.Ring

/-!
# What a Merkle Root Binds

`hash->hex` is injective on 64-bit integers, so that the text hashed for an inner node determines
the hashes of both children. Nothing tells that text from the text of a leaf, and the leaf list is
not told from one that repeats what an odd level repeats.
-/

open Codec

namespace Eshkol.Core.Merkle

/-! ### Hexadecimal digits -/

theorem hexChar_injOn : Set.InjOn hexChar {d | d < 16} := by
  intro d hd e he heq
  have hall : ∀ d < 16, ∀ e < 16, hexChar d = hexChar e → d = e := by decide
  exact hall d hd e he heq

theorem toNat_low (v : UInt64) : (v &&& 0xf).toNat = v.toNat % 16 := by
  rw [UInt64.toNat_and]
  exact Nat.and_two_pow_sub_one_eq_mod v.toNat 4

theorem toNat_high (v : UInt64) : (v >>> 4).toNat = v.toNat / 16 := by
  rw [UInt64.toNat_shiftRight]
  exact Nat.shiftRight_eq_div_pow v.toNat 4

theorem length_u64ToHex16Loop (k : ℕ) (v : UInt64) (out : List Char) :
    (u64ToHex16Loop k v out).length = k + out.length := by
  induction k generalizing v out with
  | zero => exact (Nat.zero_add _).symm
  | succ k ih =>
    rw [u64ToHex16Loop, ih, List.length_cons]
    omega

theorem u64ToHex16Loop_inj {k : ℕ} {v w : UInt64} {out out' : List Char}
    (heq : u64ToHex16Loop k v out = u64ToHex16Loop k w out') :
    v.toNat % 16 ^ k = w.toNat % 16 ^ k ∧ out = out' := by
  induction k generalizing v w out out' with
  | zero => exact ⟨by rw [pow_zero, Nat.mod_one, Nat.mod_one], heq⟩
  | succ k ih =>
    obtain ⟨hhigh, hout⟩ := ih heq
    obtain ⟨hchar, hout⟩ := List.cons.inj hout
    have hlow := hexChar_injOn (show (v &&& 0xf).toNat < 16 by rw [toNat_low]; omega)
      (show (w &&& 0xf).toNat < 16 by rw [toNat_low]; omega) hchar
    rw [toNat_low, toNat_low] at hlow
    rw [toNat_high, toNat_high] at hhigh
    refine ⟨?_, hout⟩
    rw [pow_succ', Nat.mod_mul, Nat.mod_mul, hlow, hhigh]

theorem length_hashToHex (n : Number) : (hashToHex n).length = 16 :=
  length_u64ToHex16Loop 16 n.word []

theorem hashToHex_inj {d e : Int64} (heq : hashToHex (.int d) = hashToHex (.int e)) : d = e := by
  have hmod := (u64ToHex16Loop_inj heq).1
  have hd := d.toUInt64.toNat_lt
  have he := e.toUInt64.toNat_lt
  rw [Number.word, Number.word, show (16 : ℕ) ^ 16 = 2 ^ 64 by norm_num, Nat.mod_eq_of_lt hd,
    Nat.mod_eq_of_lt he] at hmod
  rw [← Int64.toInt64_toUInt64 d, UInt64.toNat_inj.mp hmod, Int64.toInt64_toUInt64]

theorem length_joinText (d e : Int64) : (joinText d e).length = 32 := by
  rw [joinText, pairText, List.length_append, length_hashToHex, length_hashToHex]

theorem joinText_inj {d e d' e' : Int64} (heq : joinText d e = joinText d' e') :
    d = d' ∧ e = e' := by
  obtain ⟨hd, he⟩ := List.append_inj heq (by rw [length_hashToHex, length_hashToHex])
  exact ⟨hashToHex_inj hd, hashToHex_inj he⟩

/-! ### Soundness of proofs -/

variable {h : List Char → Int64}

theorem Sound.mem_leaves {t : Node} (hsound : Sound (bounded h) t) (x : List Char) :
    x ∈ t.tree.leaves ↔ x ∈ merkleLeaves t := by
  induction hsound with
  | leaf => exact Iff.rfl
  | @inode a hash l r hhash hsame hl hr ihl ihr =>
    rw [Node.tree, HashTree.leaves, merkleLeaves, List.mem_append, ihl, ihr]
    split
    next haddress =>
      obtain rfl := hsame haddress
      exact or_self_iff
    next => exact List.mem_append.symm

theorem merkleTreeWithHash_sound {xs : List (List Char)} {next last : ℕ} {t : Node}
    (htree : merkleTreeWithHash (bounded h) xs next = .ok (t, last)) :
    Sound (bounded h) t ∧ merkleLeaves t = xs ∧ xs <+: t.tree.leaves := by
  have hne : xs ≠ [] := by
    rintro rfl
    cases htree
  obtain ⟨t', last', hrun, ht'⟩ := @merkleTreeWithHash_spec (bounded h) xs hne next
  obtain ⟨rfl, -⟩ := Prod.mk.inj (Except.ok.inj (htree.symm.trans hrun))
  exact ht'

/-- The strings that are hashed for a tree. -/
def treeTexts (h : List Char → Int64) (t : Node) : List (List Char) := t.tree.texts h joinText

/-- The strings that `merkle-verify` hashes. -/
def verifyTexts (h : List Char → Int64) (data : List Char) (proof : List (Number × Side)) :
    List (List Char) :=
  data :: HashTree.climbTexts h joinText (h data) (proof.map printedStep)

/-- The strings that are hashed for the inner nodes of a tree. -/
def inodeTexts (h : List Char → Int64) (t : Node) : List (List Char) := t.tree.joints h joinText

/-- **Soundness**: a proof is accepted for an element of the list, for the text that is hashed for
an inner node, or because an element of the list is spelled like such a text. -/
theorem merkleVerify_sound {xs : List (List Char)} {next last next' : ℕ} {t : Node}
    (htree : merkleTreeWithHash (bounded h) xs next = .ok (t, last)) {data : List Char}
    {proof : List (Number × Side)}
    (hinj : Set.InjOn h {s | s ∈ treeTexts h t ∨ s ∈ verifyTexts h data proof})
    (hverify : merkleVerify (bounded h) t.root data proof next' = true) :
    data ∈ xs ∨ data ∈ inodeTexts h t ∨ ∃ x ∈ xs, ∃ d e, x = joinText d e := by
  obtain ⟨hsound, hleaves, -⟩ := merkleTreeWithHash_sound htree
  have hclimb := (merkleVerify_eq_true_iff hsound).mp hverify
  have hmem (x : List Char) : x ∈ t.tree.leaves → x ∈ xs := by
    rw [hsound.mem_leaves, hleaves]
    exact id
  have hsound := HashTree.climb_sound joinText_inj (hinj.mono (by
    rintro s (hs | hs | hs)
    · exact .inl hs
    · exact .inr (hs ▸ List.mem_cons_self)
    · exact .inr (List.mem_cons_of_mem _ hs))) hclimb
  rcases hsound with hdata | hdata | ⟨x, hx, hjoin⟩
  · exact .inl (hmem data hdata)
  · exact .inr (.inl hdata)
  · exact .inr (.inr ⟨x, hmem x hx, hjoin⟩)

/-- A hash function by a table: the position of the string in it. -/
def tableHash (table : List (List Char)) (s : List Char) : Int64 := Int64.ofNat (table.idxOf s)

theorem tableHash_injOn {table : List (List Char)} (hsize : table.length < 2 ^ 63)
    {texts : Set (List Char)} (htexts : ∀ s ∈ texts, s ∈ table) :
    Set.InjOn (tableHash table) texts := by
  have hlt {s : List Char} (hs : s ∈ texts) : table.idxOf s < 2 ^ 63 :=
    (List.idxOf_lt_length_of_mem (htexts s hs)).trans hsize
  intro s hs s' hs' heq
  have hindex := congrArg Int64.toNatClampNeg heq
  rw [tableHash, tableHash, Int64.toNatClampNeg_ofNat_of_lt (hlt hs),
    Int64.toNatClampNeg_ofNat_of_lt (hlt hs')] at hindex
  exact (List.idxOf_inj (htexts s hs)).mp hindex

/-- The strings hashed for the leaves `a` and `b` and the node above them. -/
def pairTable : List (List Char) := [['a'], ['b'], joinText 0 1]

/-- The tree of `a` and `b`. -/
def pairTree : Node := .inode 2 (.int 2) (.leaf 0 (.int 0) ['a']) (.leaf 1 (.int 1) ['b'])

theorem pairTree_built :
    merkleTreeWithHash (bounded (tableHash pairTable)) [['a'], ['b']] 0 = .ok (pairTree, 3) := by
  rw [merkleTreeWithHash_pair]
  rfl

/-- A proof for the leaf `a`. -/
theorem merkleVerify_sound_pair :
    ['a'] ∈ [['a'], ['b']] ∨ ['a'] ∈ inodeTexts (tableHash pairTable) pairTree ∨
      ∃ x ∈ [['a'], ['b']], ∃ d e, x = joinText d e := by
  have hverify : merkleVerify (bounded (tableHash pairTable)) pairTree.root ['a']
      [(.int 1, .right)] 3 = true := rfl
  refine merkleVerify_sound pairTree_built (tableHash_injOn (by decide) ?_) hverify
  rintro s (hs | hs)
  · exact hs
  · exact (show ∀ s ∈ [['a'], joinText 0 1], s ∈ pairTable by decide) s hs

/-- **The text hashed for the root** is accepted with an empty proof. -/
theorem merkleVerify_forged :
    merkleTreeWithHash (bounded (tableHash pairTable)) [['a'], ['b']] 0 = .ok (pairTree, 3) ∧
      Set.InjOn (tableHash pairTable) {s | s ∈ treeTexts (tableHash pairTable) pairTree ∨
        s ∈ verifyTexts (tableHash pairTable) (joinText 0 1) []} ∧
      merkleVerify (bounded (tableHash pairTable)) pairTree.root (joinText 0 1) [] 3 = true ∧
      joinText 0 1 ∉ [['a'], ['b']] := by
  refine ⟨pairTree_built, tableHash_injOn (by decide) ?_, rfl, by decide⟩
  rintro s (hs | hs)
  · exact hs
  · exact (show ∀ s ∈ [joinText 0 1], s ∈ pairTable by decide) s hs

/-! ### Binding of the leaves -/

theorem merkleTreeLoop_sameShape {hashFn : List Char → ℤ} {level level' : List Node}
    {next next' last last' : ℕ} {t u : Node}
    (hshape : List.Forall₂ (fun m n => m.tree.SameShape n.tree) level level')
    (ht : merkleTreeLoop hashFn level next = .ok (t, last))
    (hu : merkleTreeLoop hashFn level' next' = .ok (u, last')) : t.tree.SameShape u.tree := by
  fun_induction merkleTreeLoop hashFn level next generalizing level' next' with
  | case1 => cases ht
  | case2 next node =>
    obtain - | ⟨hnode, hnil⟩ := hshape
    cases hnil
    rw [merkleTreeLoop.eq_def] at hu
    cases ht
    cases hu
    exact hnode
  | case3 next l r rest ih =>
    obtain - | ⟨hl, hrest⟩ := id hshape
    obtain - | ⟨hr, hrest⟩ := hrest
    rw [merkleTreeLoop.eq_def] at hu
    exact ih ((merkleBuildLevel_spec l r rest next).sameShape (merkleBuildLevel_spec _ _ _ next')
      hshape) ht hu

theorem merkleTreeWithHash_sameShape {hashFn : List Char → ℤ} {xs ys : List (List Char)}
    (hlength : xs.length = ys.length) {next next' last last' : ℕ} {t u : Node}
    (ht : merkleTreeWithHash hashFn xs next = .ok (t, last))
    (hu : merkleTreeWithHash hashFn ys next' = .ok (u, last')) : t.tree.SameShape u.tree := by
  have hshape {xs ys : List (List Char)} {nodes nodes' : List Node}
      (hlength : xs.length = ys.length)
      (h : List.Forall₂ (fun n data => n.tree = .leaf data) nodes xs)
      (h' : List.Forall₂ (fun n data => n.tree = .leaf data) nodes' ys) :
      List.Forall₂ (fun m n : Node => m.tree.SameShape n.tree) nodes nodes' := by
    induction h generalizing ys nodes' with
    | nil =>
      obtain rfl := List.length_eq_zero_iff.mp hlength.symm
      cases h'
      exact .nil
    | cons hnode _ ih =>
      obtain - | ⟨hnode', hrest⟩ := h'
      · cases hlength
      · refine .cons ?_ (ih (Nat.succ.inj hlength) hrest)
        rw [hnode, hnode']
        exact .leaf _ _
  have hxs := (@merkleLeafLevel_spec hashFn xs next).2.2.2
  have hys := (@merkleLeafLevel_spec hashFn ys next').2.2.2
  cases xs with
  | nil => cases ht
  | cons =>
    cases ys with
    | nil => cases hu
    | cons => exact merkleTreeLoop_sameShape (hshape hlength hxs hys) ht hu

/-- **What the root binds**: lists of one length with one root are equal, and lists with one root
whose elements are not spelled like the text of an inner node have the same leaves when those
that the odd levels repeat are written out. -/
theorem merkleRoot_binds {xs ys : List (List Char)} {next next' last last' : ℕ} {t u : Node}
    (ht : merkleTreeWithHash (bounded h) xs next = .ok (t, last))
    (hu : merkleTreeWithHash (bounded h) ys next' = .ok (u, last'))
    (hinj : Set.InjOn h {s | s ∈ treeTexts h t ∨ s ∈ treeTexts h u})
    (hroot : t.root.value = u.root.value) :
    (xs.length = ys.length → xs = ys) ∧
      ((∀ x ∈ xs ++ ys, ∀ d e, x ≠ joinText d e) → t.tree.leaves = u.tree.leaves) := by
  obtain ⟨hxs, hxleaves, hxprefix⟩ := merkleTreeWithHash_sound ht
  obtain ⟨hys, hyleaves, hyprefix⟩ := merkleTreeWithHash_sound hu
  have hdigest : t.digest h = u.digest h := by
    rw [hxs.root, hys.root] at hroot
    exact Int64.toInt_inj.mp hroot
  constructor
  · intro hlength
    have htree := HashTree.eq_of_digest_eq joinText_inj
      (merkleTreeWithHash_sameShape hlength ht hu) hinj hdigest
    rw [htree] at hxprefix
    exact (List.prefix_of_prefix_length_le hxprefix hyprefix hlength.le).eq_of_length hlength
  · intro hplain
    have hleaf {t : Node} {xs : List (List Char)} (hsound : Sound (bounded h) t)
        (hleaves : merkleLeaves t = xs) (hxs : ∀ x ∈ xs, ∀ d e, x ≠ joinText d e) :
        ∀ x ∈ t.tree.leaves, ∀ d e, x ≠ joinText d e := by
      intro x hx
      rw [hsound.mem_leaves, hleaves] at hx
      exact hxs x hx
    exact HashTree.leaves_eq_of_digest_eq joinText_inj
      (hleaf hxs hxleaves fun x hx => hplain x (List.mem_append_left _ hx))
      (hleaf hys hyleaves fun x hx => hplain x (List.mem_append_right _ hx)) hinj hdigest

/-- The strings hashed for the leaves `a`, `b` and `c` and the nodes above them. -/
def repeatTable : List (List Char) :=
  [['a'], ['b'], ['c'], joinText 0 1, joinText 2 2, joinText 3 4]

/-- The tree of `a`, `b` and `c`. -/
def oddTree : Node :=
  .inode 5 (.int 5) (.inode 3 (.int 3) (.leaf 0 (.int 0) ['a']) (.leaf 1 (.int 1) ['b']))
    (.inode 4 (.int 4) (.leaf 2 (.int 2) ['c']) (.leaf 2 (.int 2) ['c']))

/-- The tree of `a`, `b`, `c` and `c`. -/
def evenTree : Node :=
  .inode 6 (.int 5) (.inode 4 (.int 3) (.leaf 0 (.int 0) ['a']) (.leaf 1 (.int 1) ['b']))
    (.inode 5 (.int 4) (.leaf 2 (.int 2) ['c']) (.leaf 3 (.int 2) ['c']))

theorem oddTree_built :
    merkleTreeWithHash (bounded (tableHash repeatTable)) [['a'], ['b'], ['c']] 0 =
      .ok (oddTree, 6) := by
  rw [merkleTreeWithHash]
  simp only [merkleLeafLevel]
  rw [merkleTreeLoop]
  exact merkleTreeLoop_pair _ _ _ _

theorem evenTree_built :
    merkleTreeWithHash (bounded (tableHash repeatTable)) [['a'], ['b'], ['c'], ['c']] 0 =
      .ok (evenTree, 7) := by
  rw [merkleTreeWithHash]
  simp only [merkleLeafLevel]
  rw [merkleTreeLoop]
  exact merkleTreeLoop_pair _ _ _ _

theorem repeatTable_injOn :
    Set.InjOn (tableHash repeatTable) {s | s ∈ treeTexts (tableHash repeatTable) oddTree ∨
      s ∈ treeTexts (tableHash repeatTable) evenTree} := by
  refine tableHash_injOn (by decide) ?_
  rintro s (hs | hs)
  · exact (show ∀ s ∈ treeTexts (tableHash repeatTable) oddTree, s ∈ repeatTable by decide) s hs
  · exact (show ∀ s ∈ treeTexts (tableHash repeatTable) evenTree, s ∈ repeatTable by decide) s hs

/-- The leaves of the two trees, with the last one of the first tree written twice. -/
theorem merkleRoot_binds_repeated : oddTree.tree.leaves = evenTree.tree.leaves := by
  refine (merkleRoot_binds oddTree_built evenTree_built repeatTable_injOn rfl).2 ?_
  intro x hx d e heq
  have hone : x.length = 1 :=
    (show ∀ x ∈ [['a'], ['b'], ['c']] ++ [['a'], ['b'], ['c'], ['c']], x.length = 1 by decide) x hx
  rw [heq, length_joinText] at hone
  cases hone

/-- **A list and the one that repeats its last element** have the same root. -/
theorem merkleRoot_repeated :
    merkleTreeWithHash (bounded (tableHash repeatTable)) [['a'], ['b'], ['c']] 0 =
        .ok (oddTree, 6) ∧
      merkleTreeWithHash (bounded (tableHash repeatTable)) [['a'], ['b'], ['c'], ['c']] 0 =
        .ok (evenTree, 7) ∧
      Set.InjOn (tableHash repeatTable) {s | s ∈ treeTexts (tableHash repeatTable) oddTree ∨
        s ∈ treeTexts (tableHash repeatTable) evenTree} ∧
      oddTree.root.value = evenTree.root.value ∧
      [['a'], ['b'], ['c']] ≠ [['a'], ['b'], ['c'], ['c']] :=
  ⟨oddTree_built, evenTree_built, repeatTable_injOn, rfl, by decide⟩

end Eshkol.Core.Merkle
