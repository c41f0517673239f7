import Eshkol.Codec.HashTree
import Eshkol.Core.Strings
import Mathlib.Data.List.Forall2

/-!
# Merkle Trees

The trees and inclusion proofs of `lib/core/merkle.esk`. The tree is built level by level from a
list of leaves; at an odd level the last node is paired with itself. A node is a vector, and
`merkle-leaves` and `merkle-leaf-count` tell the two cases apart with `eq?`, so that every object
has an address here and the functions that allocate pass on the next free one.

The hash of a node is an exact integer. `hash->hex` hands it to a C function that takes an
`int64_t`: an integer that fits is passed as its value, and a bignum, which is a pointer, as its
address.
-/

open Codec Machine

namespace Eshkol.Core.Merkle

/-! ### Hashes -/

/-- An exact integer: an `INT64` word, or a pointer to a bignum. -/
inductive Number
  | int (n : Int64)
  | bignum (address : ℕ) (z : ℤ)
  deriving DecidableEq

namespace Number

/-- The integer. -/
def value : Number → ℤ
  | int n => n.toInt
  | bignum _ z => z

/-- The data word of the tagged value, which an `i64` parameter of C receives. -/
def word : Number → UInt64
  | int n => n.toUInt64
  | bignum address _ => UInt64.ofNat address

end Number

/-- The range of an `INT64` word. -/
abbrev InInt64 (z : ℤ) : Prop := -2 ^ 63 ≤ z ∧ z < 2 ^ 63

/-- An integer that a computation returns, with the next free address: a bignum is a new
object. -/
def integer (z : ℤ) (next : ℕ) : Number × ℕ :=
  if InInt64 z then (.int (Int64.ofInt z), next)
  else (.bignum next z, next + 1)

/-- The characters of `hex` in `eshkol_u64_to_hex16`. -/
def hexChar (d : ℕ) : Char := "0123456789abcdef".toList.getD d '0'

/-- The loop of `eshkol_u64_to_hex16`, from the last character to the first. -/
def u64ToHex16Loop : ℕ → UInt64 → List Char → List Char
  | 0, _, out => out
  | i + 1, v, out => u64ToHex16Loop i (v >>> 4) (hexChar (v &&& 0xf).toNat :: out)

/-- `hash->hex`: the sixteen characters that `eshkol_u64_to_hex16` writes. -/
def hashToHex (h : Number) : List Char := u64ToHex16Loop 16 h.word []

example : hashToHex (.int (-2)) = "fffffffffffffffe".toList := by rfl

/-! ### The tree -/

/-- A node: a vector at an address. -/
inductive Node
  | leaf (address : ℕ) (hash : Number) (data : List Char)
  | inode (address : ℕ) (hash : Number) (left right : Node)

namespace Node

/-- Where the vector is, which `eq?` compares. -/
def address : Node → ℕ
  | leaf a _ _ => a
  | inode a _ _ _ => a

/-- `merkle-root`. -/
def root : Node → Number
  | leaf _ hash _ => hash
  | inode _ hash _ _ => hash

end Node

section Build

variable (hashFn : List Char → ℤ)

/-- The text that is hashed for two children. -/
def pairText (left right : Number) : List Char := hashToHex left ++ hashToHex right

def merklePairHash (left right : Number) (next : ℕ) : Number × ℕ :=
  integer (hashFn (pairText left right)) next

def merkleLeaf (data : List Char) (next : ℕ) : Node × ℕ :=
  let hash := integer (hashFn data) next
  (.leaf hash.2 hash.1 data, hash.2 + 1)

/-- The vector of an inner node. -/
def merkleInode (l r : Node) (next : ℕ) : Node × ℕ :=
  let hash := merklePairHash hashFn l.root r.root next
  (.inode hash.2 hash.1 l r, hash.2 + 1)

/-- The loop of `merkle-build-level`. -/
def merkleBuildLoop : List Node → List Node → ℕ → List Node × ℕ
  | [], acc, next => (acc.reverse, next)
  | [only], acc, next =>
    let node := merkleInode hashFn only only next
    ((node.1 :: acc).reverse, node.2)
  | l :: r :: rest, acc, next =>
    let node := merkleInode hashFn l r next
    merkleBuildLoop rest (node.1 :: acc) node.2

def merkleBuildLevel (nodes : List Node) (next : ℕ) : List Node × ℕ :=
  match nodes with
  | [] => ([], next)
  | [node] => ([node], next)
  | l :: r :: rest => merkleBuildLoop hashFn (l :: r :: rest) [] next

/-- The leaves of `merkle-tree-with-hash`. -/
def merkleLeafLevel : List (List Char) → ℕ → List Node × ℕ
  | [], next => ([], next)
  | data :: rest, next =>
    let leaf := merkleLeaf hashFn data next
    let leaves := merkleLeafLevel rest leaf.2
    (leaf.1 :: leaves.1, leaves.2)

end Build

/-! ### One level -/

variable {hashFn : List Char → ℤ}

/-- A tagged value is the exact integer `z`. -/
def Number.Is (n : Number) (z : ℤ) : Prop := n.value = z ∧ (InInt64 z → n = .int (Int64.ofInt z))

theorem integer_is (z : ℤ) (next : ℕ) : (integer z next).1.Is z := by
  rw [integer]
  split
  next h => exact ⟨Int64.toInt_ofInt_of_le h.1 h.2, fun _ => rfl⟩
  next h => exact ⟨rfl, fun hfits => absurd hfits h⟩

theorem le_integer (z : ℤ) (next : ℕ) : next ≤ (integer z next).2 := by
  rw [integer]
  split
  next => exact le_rfl
  next => exact Nat.le_succ next

/-- What pairing does to a level: the nodes of the next level with the addresses between the
free ones before and after it. -/
inductive Paired (hashFn : List Char → ℤ) : ℕ → List Node → ℕ → List Node → Prop
  | nil (next : ℕ) : Paired hashFn next [] next []
  | odd {next a : ℕ} {hash : Number} {only : Node} (hnext : next ≤ a)
      (hhash : hash.Is (hashFn (pairText only.root only.root))) :
      Paired hashFn next [only] (a + 1) [.inode a hash only only]
  | even {next a last : ℕ} {hash : Number} {l r : Node} {rest out : List Node} (hnext : next ≤ a)
      (hhash : hash.Is (hashFn (pairText l.root r.root)))
      (hrest : Paired hashFn (a + 1) rest last out) :
      Paired hashFn next (l :: r :: rest) last (.inode a hash l r :: out)

theorem merkleBuildLoop_spec (nodes acc : List Node) (next : ℕ) :
    ∃ out last, merkleBuildLoop hashFn nodes acc next = (acc.reverse ++ out, last) ∧
      Paired hashFn next nodes last out := by
  fun_induction merkleBuildLoop hashFn nodes acc next with
  | case1 acc next => exact ⟨[], next, by simp, .nil next⟩
  | case2 only acc next node =>
    exact ⟨[node.1], node.2, by rw [List.reverse_cons], .odd (le_integer _ _) (integer_is _ _)⟩
  | case3 l r rest acc next node ih =>
    obtain ⟨out, last, hrun, hpaired⟩ := ih
    refine ⟨node.1 :: out, last, ?_, .even (le_integer _ _) (integer_is _ _) hpaired⟩
    rw [hrun, List.reverse_cons, List.append_assoc, List.singleton_append]

variable {next last : ℕ} {nodes out : List Node} {data : List Char} {t : Node}

theorem Paired.length (h : Paired hashFn next nodes last out) :
    out.length = (nodes.length + 1) / 2 := by
  induction h with
  | nil => rfl
  | odd => simp
  | even _ _ _ ih =>
    rw [List.length_cons, ih, List.length_cons, List.length_cons]
    omega

theorem merkleBuildLevel_spec (l r : Node) (rest : List Node) (next : ℕ) :
    Paired hashFn next (l :: r :: rest) (merkleBuildLevel hashFn (l :: r :: rest) next).2
      (merkleBuildLevel hashFn (l :: r :: rest) next).1 := by
  obtain ⟨out, last, hrun, hpaired⟩ := @merkleBuildLoop_spec hashFn (l :: r :: rest) [] next
  rw [merkleBuildLevel, hrun]
  exact hpaired

section Build

variable (hashFn : List Char → ℤ)

/-- The loop of `merkle-tree-with-hash`. A level has half as many nodes as the one below it. -/
def merkleTreeLoop (level : List Node) (next : ℕ) : Exec String (Node × ℕ) :=
  match level with
  | [] => raise "cdr: argument is not a pair"
  | [node] => .ok (node, next)
  | l :: r :: rest =>
    merkleTreeLoop (merkleBuildLevel hashFn (l :: r :: rest) next).1
      (merkleBuildLevel hashFn (l :: r :: rest) next).2
termination_by level.length
decreasing_by
  rw [(merkleBuildLevel_spec l r rest next).length, List.length_cons, List.length_cons]
  omega

/-- `merkle-tree-with-hash`, with the next free address before and after it. -/
def merkleTreeWithHash (dataList : List (List Char)) (next : ℕ) : Exec String (Node × ℕ) :=
  match dataList with
  | [] => raise "merkle-tree-with-hash: cannot build tree from empty list"
  | data :: rest =>
    let level := merkleLeafLevel hashFn (data :: rest) next
    merkleTreeLoop hashFn level.1 level.2

end Build

/-! ### Leaves and proofs -/

def merkleLeaves : Node → List (List Char)
  | .leaf _ _ data => [data]
  | .inode _ _ l r =>
    if l.address = r.address then merkleLeaves l else merkleLeaves l ++ merkleLeaves r

def merkleLeafCount : Node → ℕ
  | .leaf _ _ _ => 1
  | .inode _ _ l r =>
    if l.address = r.address then merkleLeafCount l else merkleLeafCount l + merkleLeafCount r

/-- The loop of `merkle-proof`. -/
def merkleProofLoop : Node → ℤ → List (Number × Side) → List (Number × Side)
  | .leaf _ _ _, _, acc => acc
  | .inode _ _ l r, i, acc =>
    if i < merkleLeafCount l then merkleProofLoop l i ((r.root, .right) :: acc)
    else merkleProofLoop r (i - merkleLeafCount l) ((l.root, .left) :: acc)

def merkleProof (tree : Node) (index : ℤ) : List (Number × Side) := merkleProofLoop tree index []

/-- The loop of `merkle-verify`. A side other than `right` counts as `left`. -/
def merkleVerifyLoop (hashFn : List Char → ℤ) (rootHash : Number) :
    Number → List (Number × Side) → ℕ → Bool
  | h, [], _ => h.value = rootHash.value
  | h, (sibling, side) :: rest, next =>
    let combined :=
      if side = .right then merklePairHash hashFn h sibling next
      else merklePairHash hashFn sibling h next
    merkleVerifyLoop hashFn rootHash combined.1 rest combined.2

/-- `merkle-verify`, from the next free address on. -/
def merkleVerify (hashFn : List Char → ℤ) (rootHash : Number) (leafData : List Char)
    (proof : List (Number × Side)) (next : ℕ) : Bool :=
  let h := integer (hashFn leafData) next
  merkleVerifyLoop hashFn rootHash h.1 proof h.2

/-! ### What is built -/

/-- The texts below a node. -/
def Node.tree : Node → HashTree (List Char)
  | .leaf _ _ data => .leaf data
  | .inode _ _ l r => .node l.tree r.tree

/-- The hashes of a node and of the nodes below it are those of their texts, and two children at
one address are one node. -/
inductive Sound (hashFn : List Char → ℤ) : Node → Prop
  | leaf {a : ℕ} {hash : Number} {data : List Char} (hhash : hash.Is (hashFn data)) :
      Sound hashFn (.leaf a hash data)
  | inode {a : ℕ} {hash : Number} {l r : Node}
      (hhash : hash.Is (hashFn (pairText l.root r.root))) (hsame : l.address = r.address → l = r)
      (hl : Sound hashFn l) (hr : Sound hashFn r) : Sound hashFn (.inode a hash l r)

/-- A level: sound nodes, each one allocated after those before it. -/
structure Level (hashFn : List Char → ℤ) (next : ℕ) (nodes : List Node) : Prop where
  sound : ∀ n ∈ nodes, Sound hashFn n
  increasing : nodes.Pairwise fun m n => m.address < n.address
  allocated : ∀ n ∈ nodes, n.address < next

theorem Level.nil (next : ℕ) : Level hashFn next [] := ⟨by simp, .nil, by simp⟩

theorem Level.tail {node : Node} (h : Level hashFn next (node :: nodes)) :
    Level hashFn next nodes :=
  ⟨fun n hn => h.sound n (List.mem_cons_of_mem _ hn), h.increasing.of_cons,
    fun n hn => h.allocated n (List.mem_cons_of_mem _ hn)⟩

theorem Level.cons {node : Node} (h : Level hashFn next nodes) (hsound : Sound hashFn node)
    (hnext : node.address < next) (hafter : ∀ n ∈ nodes, node.address < n.address) :
    Level hashFn next (node :: nodes) := by
  refine ⟨?_, List.pairwise_cons.mpr ⟨hafter, h.increasing⟩, ?_⟩
  · exact List.forall_mem_cons.mpr ⟨hsound, h.sound⟩
  · exact List.forall_mem_cons.mpr ⟨hnext, h.allocated⟩

theorem Paired.addresses (h : Paired hashFn next nodes last out) :
    next ≤ last ∧ ∀ n ∈ out, next ≤ n.address ∧ n.address < last := by
  induction h with
  | nil next => exact ⟨le_rfl, fun n hn => absurd hn List.not_mem_nil⟩
  | odd hnext =>
    refine ⟨hnext.trans (Nat.le_succ _), fun n hn => ?_⟩
    obtain rfl := List.mem_singleton.mp hn
    exact ⟨hnext, Nat.lt_succ_self _⟩
  | even hnext _ _ ih =>
    refine ⟨by omega, List.forall_mem_cons.mpr ⟨⟨hnext, ?_⟩, fun n hn => ?_⟩⟩
    · exact Nat.lt_of_succ_le ih.1
    · have := ih.2 n hn
      omega

theorem Paired.level {start : ℕ} (h : Paired hashFn next nodes last out)
    (hlevel : Level hashFn start nodes) : Level hashFn last out := by
  induction h with
  | nil next => exact .nil next
  | odd hnext hhash =>
    have honly := hlevel.sound _ List.mem_cons_self
    exact (Level.nil _).cons (.inode hhash (fun _ => rfl) honly honly) (Nat.lt_succ_self _) (by simp)
  | even hnext hhash hrest ih =>
    obtain ⟨hl, hr⟩ := List.pairwise_cons.mp hlevel.increasing
    have hdiffer := hl _ List.mem_cons_self
    refine (ih hlevel.tail.tail).cons (.inode hhash (fun heq => ?_) (hlevel.sound _ (by simp))
      (hlevel.sound _ (by simp))) ?_ fun n hn => ?_
    · exact absurd heq hdiffer.ne
    · exact Nat.lt_of_succ_le hrest.addresses.1
    · exact Nat.lt_of_succ_le (hrest.addresses.2 n hn).1

theorem Paired.leaves {start : ℕ} (h : Paired hashFn next nodes last out)
    (hlevel : Level hashFn start nodes) :
    out.flatMap merkleLeaves = nodes.flatMap merkleLeaves := by
  induction h with
  | nil next => rfl
  | odd => simp [merkleLeaves]
  | even _ _ _ ih =>
    have hdiffer := (List.pairwise_cons.mp hlevel.increasing).1 _ List.mem_cons_self
    rw [List.flatMap_cons, ih hlevel.tail.tail, merkleLeaves, if_neg hdiffer.ne]
    simp

theorem Paired.prefix (h : Paired hashFn next nodes last out) :
    nodes.flatMap (·.tree.leaves) <+: out.flatMap (·.tree.leaves) := by
  induction h with
  | nil next => exact List.prefix_rfl
  | odd => simp [Node.tree, HashTree.leaves]
  | even _ _ _ ih =>
    simp only [List.flatMap_cons, Node.tree, HashTree.leaves, ← List.append_assoc]
    exact (List.prefix_append_right_inj _).mpr ih

theorem Paired.sameShape {next' last' : ℕ} {nodes' out' : List Node}
    (h : Paired hashFn next nodes last out) (h' : Paired hashFn next' nodes' last' out')
    (hshape : List.Forall₂ (fun m n => m.tree.SameShape n.tree) nodes nodes') :
    List.Forall₂ (fun m n => m.tree.SameShape n.tree) out out' := by
  induction h generalizing next' nodes' out' with
  | nil next =>
    cases hshape
    cases h'
    exact .nil
  | odd =>
    obtain - | ⟨honly, hnil⟩ := hshape
    cases hnil
    cases h'
    exact .cons (.node honly honly) .nil
  | even _ _ _ ih =>
    obtain - | ⟨hl, hrest⟩ := hshape
    obtain - | ⟨hr, hrest⟩ := hrest
    obtain - | - | ⟨-, -, hpaired⟩ := h'
    exact .cons (.node hl hr) (ih hpaired hrest)

theorem merkleLeafLevel_spec (dataList : List (List Char)) (next : ℕ) :
    Level hashFn (merkleLeafLevel hashFn dataList next).2 (merkleLeafLevel hashFn dataList next).1 ∧
      next ≤ (merkleLeafLevel hashFn dataList next).2 ∧
      (∀ n ∈ (merkleLeafLevel hashFn dataList next).1, next ≤ n.address) ∧
      List.Forall₂ (fun n data => n.tree = .leaf data)
        (merkleLeafLevel hashFn dataList next).1 dataList := by
  induction dataList generalizing next with
  | nil => exact ⟨.nil next, le_rfl, by simp [merkleLeafLevel], .nil⟩
  | cons data rest ih =>
    obtain ⟨hlevel, hle, haddress, htree⟩ := ih ((integer (hashFn data) next).2 + 1)
    have hnext := le_integer (hashFn data) next
    refine ⟨?_, hnext.trans (Nat.le_of_succ_le hle), ?_, .cons rfl htree⟩
    · exact hlevel.cons (.leaf (integer_is _ _)) (Nat.lt_of_succ_le hle)
        fun n hn => Nat.lt_of_succ_le (haddress n hn)
    · refine List.forall_mem_cons.mpr ⟨hnext, fun n hn => ?_⟩
      exact hnext.trans (Nat.le_of_succ_le (haddress n hn))

theorem merkleLeaves_of_tree {n : Node} (h : n.tree = .leaf data) : merkleLeaves n = [data] := by
  cases n with
  | leaf a hash d =>
    cases h
    rfl
  | inode => cases h

theorem flatMap_leafLevel {dataList : List (List Char)}
    (h : List.Forall₂ (fun n data => n.tree = .leaf data) nodes dataList) :
    nodes.flatMap merkleLeaves = dataList ∧ nodes.flatMap (·.tree.leaves) = dataList := by
  induction h with
  | nil => exact ⟨rfl, rfl⟩
  | cons hnode _ ih =>
    rw [List.flatMap_cons, List.flatMap_cons, ih.1, ih.2, merkleLeaves_of_tree hnode, hnode]
    exact ⟨rfl, rfl⟩

theorem merkleTreeLoop_spec {level : List Node} (hlevel : Level hashFn next level)
    (hne : level ≠ []) :
    ∃ t last, merkleTreeLoop hashFn level next = .ok (t, last) ∧ Sound hashFn t ∧
      merkleLeaves t = level.flatMap merkleLeaves ∧
      level.flatMap (·.tree.leaves) <+: t.tree.leaves := by
  fun_induction merkleTreeLoop hashFn level next with
  | case1 => exact absurd rfl hne
  | case2 next node =>
    exact ⟨node, next, rfl, hlevel.sound node List.mem_cons_self, by simp, by simp⟩
  | case3 next l r rest ih =>
    have hpaired := @merkleBuildLevel_spec hashFn l r rest next
    have hnonempty : (merkleBuildLevel hashFn (l :: r :: rest) next).1 ≠ [] := by
      refine List.ne_nil_of_length_pos ?_
      rw [hpaired.length, List.length_cons, List.length_cons]
      omega
    obtain ⟨t, last, hrun, hsound, hleaves, hprefix⟩ := ih (hpaired.level hlevel) hnonempty
    refine ⟨t, last, hrun, hsound, ?_, hpaired.prefix.trans hprefix⟩
    rw [hleaves, hpaired.leaves hlevel]

theorem merkleTreeWithHash_spec {dataList : List (List Char)} (hne : dataList ≠ []) (next : ℕ) :
    ∃ t last, merkleTreeWithHash hashFn dataList next = .ok (t, last) ∧ Sound hashFn t ∧
      merkleLeaves t = dataList ∧ dataList <+: t.tree.leaves := by
  obtain ⟨data, rest, rfl⟩ := List.exists_cons_of_ne_nil hne
  obtain ⟨hlevel, -, -, htree⟩ := @merkleLeafLevel_spec hashFn (data :: rest) next
  obtain ⟨t, last, hrun, hsound, hleaves, hprefix⟩ := merkleTreeLoop_spec hlevel (by
    rintro hnil
    rw [hnil] at htree
    cases htree)
  rw [(flatMap_leafLevel htree).1] at hleaves
  rw [(flatMap_leafLevel htree).2] at hprefix
  exact ⟨t, last, hrun, hsound, hleaves, hprefix⟩

/-! ### Hashes of 64 bits -/

section Bounded

variable (h : List Char → Int64)

/-- A hash function of 64 bits as a function to the integers. -/
def bounded (s : List Char) : ℤ := (h s).toInt

/-- The text that joins two hashes of 64 bits. -/
def joinText (d e : Int64) : List Char := pairText (.int d) (.int e)

/-- The digest of the texts below a node. -/
def Node.digest (t : Node) : Int64 := t.tree.digest h joinText

end Bounded

variable {h : List Char → Int64}

theorem eq_int_of_is {n : Number} {s : List Char} (hn : n.Is (bounded h s)) : n = .int (h s) := by
  have hfits := hn.2 ⟨Int64.le_toInt _, Int64.toInt_lt _⟩
  rw [hfits, bounded, Int64.ofInt_toInt]

theorem integer_bounded (s : List Char) (next : ℕ) : (integer (bounded h s) next).1 = .int (h s) :=
  eq_int_of_is (integer_is _ _)

theorem Sound.root (hsound : Sound (bounded h) t) : t.root = .int (t.digest h) := by
  induction hsound with
  | leaf hhash => exact eq_int_of_is hhash
  | inode hhash _ _ _ ihl ihr =>
    rw [ihl, ihr] at hhash
    exact eq_int_of_is hhash

/-- A step of a proof, with the sibling as the word that is printed. -/
def printedStep (s : Number × Side) : Int64 × Side := (s.1.word.toInt64, s.2)

theorem hashToHex_word (n : Number) : hashToHex (.int n.word.toInt64) = hashToHex n := by
  rw [hashToHex, hashToHex, Number.word, UInt64.toUInt64_toInt64]

theorem pairText_int (d : Int64) (n : Number) :
    pairText (.int d) n = joinText d n.word.toInt64 ∧
      pairText n (.int d) = joinText n.word.toInt64 d := by
  rw [joinText, joinText, pairText, pairText, pairText, pairText, hashToHex_word]
  exact ⟨rfl, rfl⟩

theorem merkleVerifyLoop_eq (rootHash : Number) (d : Int64) (proof : List (Number × Side))
    (next : ℕ) :
    merkleVerifyLoop (bounded h) rootHash (.int d) proof next =
      decide ((HashTree.climb h joinText d (proof.map printedStep)).toInt = rootHash.value) := by
  induction proof generalizing d next with
  | nil => rfl
  | cons s proof ih =>
    obtain ⟨sibling, side⟩ := s
    cases side with
    | left =>
      rw [merkleVerifyLoop, if_neg (by simp), merklePairHash, (pairText_int d sibling).2,
        integer_bounded, ih]
      rfl
    | right =>
      rw [merkleVerifyLoop, if_pos rfl, merklePairHash, (pairText_int d sibling).1,
        integer_bounded, ih]
      rfl

theorem merkleVerify_eq_true_iff (hsound : Sound (bounded h) t) {proof : List (Number × Side)} :
    merkleVerify (bounded h) t.root data proof next = true ↔
      HashTree.climb h joinText (h data) (proof.map printedStep) = t.digest h := by
  rw [merkleVerify, integer_bounded, merkleVerifyLoop_eq, decide_eq_true_eq, hsound.root,
    Number.value, Int64.toInt_inj]

/-! ### Completeness -/

theorem length_merkleLeaves (t : Node) : (merkleLeaves t).length = merkleLeafCount t := by
  induction t with
  | leaf => rfl
  | inode a hash l r ihl ihr =>
    rw [merkleLeaves, merkleLeafCount]
    split
    next => exact ihl
    next => rw [List.length_append, ihl, ihr]

theorem printedStep_root (hsound : Sound (bounded h) t) (side : Side) :
    printedStep (t.root, side) = (t.digest h, side) := by
  rw [printedStep, hsound.root]
  rfl

theorem Sound.climb_proof (hsound : Sound (bounded h) t) {i : ℕ}
    (hdata : (merkleLeaves t)[i]? = some data) (acc : List (Number × Side)) :
    HashTree.climb h joinText (h data) ((merkleProofLoop t i acc).map printedStep) =
      HashTree.climb h joinText (t.digest h) (acc.map printedStep) := by
  induction hsound generalizing i acc with
  | leaf =>
    rw [merkleLeaves] at hdata
    obtain rfl := List.mem_singleton.mp (List.mem_of_getElem? hdata)
    rfl
  | @inode a hash l r hhash hsame hl hr ihl ihr =>
    have hlen := length_merkleLeaves l
    rw [merkleLeaves] at hdata
    rw [merkleProofLoop]
    by_cases hi : i < merkleLeafCount l
    · have hleft : (merkleLeaves l)[i]? = some data := by
        split at hdata
        · exact hdata
        · rwa [List.getElem?_append_left (hlen ▸ hi)] at hdata
      rw [if_pos (by exact_mod_cast hi), ihl hleft, List.map_cons, printedStep_root hr]
      rfl
    · have hright : (merkleLeaves r)[i - merkleLeafCount l]? = some data := by
        split at hdata
        · obtain ⟨hlt, -⟩ := List.getElem?_eq_some_iff.mp hdata
          exact absurd (hlen ▸ hlt) hi
        · rwa [List.getElem?_append_right (by omega), hlen] at hdata
      have hindex : (i : ℤ) - merkleLeafCount l = (i - merkleLeafCount l : ℕ) := by omega
      rw [if_neg (by exact_mod_cast hi), hindex, ihr hright, List.map_cons,
        printedStep_root hl]
      rfl

theorem bounded_of_fits {hashFn : List Char → ℤ} (hfits : ∀ s, InInt64 (hashFn s)) :
    bounded (fun s => Int64.ofInt (hashFn s)) = hashFn := by
  funext s
  exact Int64.toInt_ofInt_of_le (hfits s).1 (hfits s).2

/-- **Completeness**: the leaves of a tree are the list it is built from, and where the hashes are
64-bit integers the proof of every leaf is accepted. -/
theorem merkle_complete (hashFn : List Char → ℤ) {xs : List (List Char)} (hxs : xs ≠ [])
    (next : ℕ) :
    ∃ t last, merkleTreeWithHash hashFn xs next = .ok (t, last) ∧ merkleLeaves t = xs ∧
      ((∀ s, InInt64 (hashFn s)) → ∀ (i : ℕ) (hi : i < xs.length) (next' : ℕ),
        merkleVerify hashFn t.root xs[i] (merkleProof t i) next' = true) := by
  obtain ⟨t, last, hrun, hsound, hleaves, -⟩ := @merkleTreeWithHash_spec hashFn xs hxs next
  refine ⟨t, last, hrun, hleaves, fun hfits i hi next' => ?_⟩
  rw [← bounded_of_fits hfits] at hsound ⊢
  rw [merkleVerify_eq_true_iff hsound, merkleProof]
  exact hsound.climb_proof (by rw [hleaves]; exact List.getElem?_eq_getElem hi) []

/-- Three leaves, the last one paired with itself, hashed by their length. -/
theorem merkle_complete_three :
    ∃ t last, merkleTreeWithHash (fun s => s.length % 1000) [['a'], ['b', 'b'], ['c']] 0 =
        .ok (t, last) ∧ merkleLeaves t = [['a'], ['b', 'b'], ['c']] ∧
      merkleVerify (fun s => s.length % 1000) t.root ['c'] (merkleProof t 2) 0 = true := by
  obtain ⟨t, last, hrun, hleaves, hverify⟩ :=
    merkle_complete (fun s => s.length % 1000) (List.cons_ne_nil ['a'] [['b', 'b'], ['c']]) 0
  refine ⟨t, last, hrun, hleaves, hverify (fun s => ?_) 2 (by simp) 0⟩
  have := Nat.mod_lt s.length (show 1000 > 0 by norm_num)
  exact ⟨by omega, by omega⟩

theorem merkleTreeLoop_pair (hashFn : List Char → ℤ) (l r : Node) (next : ℕ) :
    merkleTreeLoop hashFn [l, r] next = .ok (merkleInode hashFn l r next) := by
  rw [merkleTreeLoop, merkleTreeLoop.eq_def]
  rfl

theorem merkleTreeWithHash_pair (hashFn : List Char → ℤ) (x y : List Char) (next : ℕ) :
    merkleTreeWithHash hashFn [x, y] next =
      .ok (merkleInode hashFn (merkleLeaf hashFn x next).1
        (merkleLeaf hashFn y (merkleLeaf hashFn x next).2).1
        (merkleLeaf hashFn y (merkleLeaf hashFn x next).2).2) := by
  exact merkleTreeLoop_pair hashFn _ _ _

/-- The characters of a text as digits of an integer above the range of 64 bits. -/
def wideHash (s : List Char) : ℤ :=
  18446744073709551616 + (s.foldl (fun n c => 256 * n + c.toNat) 0 : ℕ)

/-- A hash that is a bignum is printed as its address, and the hash that `merkle-verify` computes
is another object than the one in the tree. -/
theorem merkle_incomplete_wide :
    ∃ t last, merkleTreeWithHash wideHash [['a'], ['b']] 0 = .ok (t, last) ∧
      merkleVerify wideHash t.root ['a'] (merkleProof t 0) last = false :=
  ⟨_, _, merkleTreeWithHash_pair wideHash ['a'] ['b'] 0, by decide +kernel⟩

end Eshkol.Core.Merkle
