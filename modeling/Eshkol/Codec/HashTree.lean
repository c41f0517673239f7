import Mathlib.Data.Set.Function
import Mathlib.Data.List.Induction

/-!
# Trees of Hashes

A binary tree whose leaves are texts. The digest of a leaf is the hash of its text, and the digest
of an inner node is the hash of a text that joins the digests of its children. The same hash is
used for both, so that a text that joins two digests may stand for a leaf.

A path leads from a leaf to the root: for each inner node on the way, the digest of the sibling
and its side.
-/

namespace Codec

/-- A binary tree of texts. -/
inductive HashTree (T : Type*)
  | leaf (text : T)
  | node (left right : HashTree T)

/-- The side on which a sibling stands. -/
inductive Side
  | left
  | right
  deriving DecidableEq

namespace HashTree

variable {T D : Type*}

/-- The texts of the leaves, from left to right. -/
def leaves : HashTree T → List T
  | leaf text => [text]
  | node l r => l.leaves ++ r.leaves

/-- Two trees that differ in their texts only. -/
inductive SameShape : HashTree T → HashTree T → Prop
  | leaf (text text' : T) : SameShape (leaf text) (leaf text')
  | node {l r l' r' : HashTree T} : SameShape l l' → SameShape r r' →
      SameShape (node l r) (node l' r')

section Digest

variable (h : T → D) (join : D → D → T)

/-- The digest of a tree. -/
def digest : HashTree T → D
  | leaf text => h text
  | node l r => h (join l.digest r.digest)

/-- The texts that are hashed for the inner nodes. -/
def joints : HashTree T → List T
  | leaf _ => []
  | node l r => join (l.digest h join) (r.digest h join) :: (l.joints ++ r.joints)

/-- The texts that are hashed for a tree. -/
def texts (t : HashTree T) : List T := t.leaves ++ t.joints h join

/-- The text that is hashed in one step of a path. -/
def step (d : D) : D × Side → T
  | (sibling, .right) => join d sibling
  | (sibling, .left) => join sibling d

/-- The digest at the end of a path. -/
def climb : D → List (D × Side) → D
  | d, [] => d
  | d, s :: path => climb (h (step join d s)) path

/-- The texts that are hashed along a path. -/
def climbTexts : D → List (D × Side) → List T
  | _, [] => []
  | d, s :: path => step join d s :: climbTexts (h (step join d s)) path

end Digest

variable {h : T → D} {join : D → D → T}

theorem climb_append (d : D) (path path' : List (D × Side)) :
    climb h join d (path ++ path') = climb h join (climb h join d path) path' := by
  induction path generalizing d with
  | nil => rfl
  | cons s path ih => exact ih _

theorem climbTexts_append (d : D) (path path' : List (D × Side)) :
    climbTexts h join d (path ++ path') =
      climbTexts h join d path ++ climbTexts h join (climb h join d path) path' := by
  induction path generalizing d with
  | nil => rfl
  | cons s path ih => exact congrArg (_ :: ·) (ih _)

variable {a : T} {t u : HashTree T}

theorem mem_texts_leaf {text : T} : a ∈ (leaf text).texts h join ↔ a = text := by
  simp [texts, leaves, joints]

theorem mem_texts_node {l r : HashTree T} :
    a ∈ (node l r).texts h join ↔
      a = join (l.digest h join) (r.digest h join) ∨ a ∈ l.texts h join ∨ a ∈ r.texts h join := by
  simp only [texts, leaves, joints, List.mem_append, List.mem_cons]
  tauto

theorem answer_mono (hleaves : ∀ x ∈ t.leaves, x ∈ u.leaves)
    (hjoints : ∀ x ∈ t.joints h join, x ∈ u.joints h join)
    (ha : a ∈ t.leaves ∨ a ∈ t.joints h join ∨ ∃ x ∈ t.leaves, ∃ d e, x = join d e) :
    a ∈ u.leaves ∨ a ∈ u.joints h join ∨ ∃ x ∈ u.leaves, ∃ d e, x = join d e := by
  rcases ha with ha | ha | ⟨x, hx, hjoin⟩
  · exact .inl (hleaves a ha)
  · exact .inr (.inl (hjoints a ha))
  · exact .inr (.inr ⟨x, hleaves x hx, hjoin⟩)

/-- **A path to the root** starts from the text of a leaf, unless it starts from a text that joins
the digests of two siblings in the tree, or passes a leaf whose text joins two digests. -/
theorem climb_sound (hjoin : ∀ {d e d' e'}, join d e = join d' e' → d = d' ∧ e = e')
    {path : List (D × Side)}
    (hinj : Set.InjOn h {x | x ∈ t.texts h join ∨ x = a ∨ x ∈ climbTexts h join (h a) path})
    (hclimb : climb h join (h a) path = t.digest h join) :
    a ∈ t.leaves ∨ a ∈ t.joints h join ∨ ∃ x ∈ t.leaves, ∃ d e, x = join d e := by
  -- The last step of the path is the one at the root.
  induction path using List.reverseRecOn generalizing t with
  | nil =>
    cases t with
    | leaf text =>
      have ha : a = text := hinj (.inr (.inl rfl)) (.inl (mem_texts_leaf.mpr rfl)) hclimb
      exact .inl (List.mem_singleton.mpr ha)
    | node l r =>
      have ha := hinj (.inr (.inl rfl)) (.inl (mem_texts_node.mpr (.inl rfl))) hclimb
      exact .inr (.inl (ha ▸ List.mem_cons_self))
  | append_singleton path s ih =>
    rw [climb_append] at hclimb
    have hlast : step join (climb h join (h a) path) s ∈
        climbTexts h join (h a) (path ++ [s]) := by
      rw [climbTexts_append]
      exact List.mem_append_right _ List.mem_cons_self
    cases t with
    | leaf text =>
      have htext := hinj (.inr (.inr hlast)) (.inl (mem_texts_leaf.mpr rfl)) hclimb
      refine .inr (.inr ⟨text, List.mem_singleton_self _, ?_⟩)
      obtain ⟨sibling, _ | _⟩ := s
      · exact ⟨_, _, htext.symm⟩
      · exact ⟨_, _, htext.symm⟩
    | node l r =>
      have htext := hinj (.inr (.inr hlast)) (.inl (mem_texts_node.mpr (.inl rfl))) hclimb
      have hsub {u : HashTree T} (hu : ∀ x ∈ u.texts h join, x ∈ (node l r).texts h join) :
          Set.InjOn h
            {x | x ∈ u.texts h join ∨ x = a ∨ x ∈ climbTexts h join (h a) path} := by
        refine hinj.mono fun x hx => ?_
        rcases hx with hx | hx | hx
        · exact .inl (hu x hx)
        · exact .inr (.inl hx)
        · refine .inr (.inr ?_)
          rw [climbTexts_append]
          exact List.mem_append_left _ hx
      obtain ⟨sibling, _ | _⟩ := s
      · refine answer_mono (fun x hx => List.mem_append_right _ hx)
          (fun x hx => List.mem_cons_of_mem _ (List.mem_append_right _ hx))
          (ih (hsub fun x hx => mem_texts_node.mpr (.inr (.inr hx))) (hjoin htext).2)
      · refine answer_mono (fun x hx => List.mem_append_left _ hx)
          (fun x hx => List.mem_cons_of_mem _ (List.mem_append_left _ hx))
          (ih (hsub fun x hx => mem_texts_node.mpr (.inr (.inl hx))) (hjoin htext).1)

/-- The texts of a pair of trees. -/
def pairTexts (h : T → D) (join : D → D → T) (t u : HashTree T) : Set T :=
  {x | x ∈ t.texts h join ∨ x ∈ u.texts h join}

theorem pairTexts_mono {t' u' : HashTree T} (ht : ∀ x ∈ t.texts h join, x ∈ t'.texts h join)
    (hu : ∀ x ∈ u.texts h join, x ∈ u'.texts h join) :
    pairTexts h join t u ⊆ pairTexts h join t' u' := by
  rintro x (hx | hx)
  · exact .inl (ht x hx)
  · exact .inr (hu x hx)

theorem eq_of_digest_eq (hjoin : ∀ {d e d' e'}, join d e = join d' e' → d = d' ∧ e = e')
    (hshape : SameShape t u) (hinj : Set.InjOn h (pairTexts h join t u))
    (hdigest : t.digest h join = u.digest h join) : t = u := by
  induction hshape with
  | leaf text text' =>
    have htext := hinj (.inl (mem_texts_leaf.mpr rfl)) (.inr (mem_texts_leaf.mpr rfl)) hdigest
    rw [htext]
  | node _ _ ihl ihr =>
    have htext := hinj (.inl (mem_texts_node.mpr (.inl rfl)))
      (.inr (mem_texts_node.mpr (.inl rfl))) hdigest
    obtain ⟨hl, hr⟩ := hjoin htext
    rw [ihl (hinj.mono (pairTexts_mono (fun x hx => mem_texts_node.mpr (.inr (.inl hx)))
        fun x hx => mem_texts_node.mpr (.inr (.inl hx)))) hl,
      ihr (hinj.mono (pairTexts_mono (fun x hx => mem_texts_node.mpr (.inr (.inr hx)))
        fun x hx => mem_texts_node.mpr (.inr (.inr hx)))) hr]

/-- Trees of one shape with one digest have the same leaves. -/
theorem leaves_eq_of_digest_eq (hjoin : ∀ {d e d' e'}, join d e = join d' e' → d = d' ∧ e = e')
    (ht : ∀ x ∈ t.leaves, ∀ d e, x ≠ join d e) (hu : ∀ x ∈ u.leaves, ∀ d e, x ≠ join d e)
    (hinj : Set.InjOn h (pairTexts h join t u)) (hdigest : t.digest h join = u.digest h join) :
    t.leaves = u.leaves := by
  induction t generalizing u with
  | leaf text =>
    cases u with
    | leaf text' =>
      rw [hinj (.inl (mem_texts_leaf.mpr rfl)) (.inr (mem_texts_leaf.mpr rfl)) hdigest]
    | node l r =>
      have htext := hinj (.inl (mem_texts_leaf.mpr rfl))
        (.inr (mem_texts_node.mpr (.inl rfl))) hdigest
      exact absurd htext (ht text (List.mem_singleton_self _) _ _)
  | node l r ihl ihr =>
    cases u with
    | leaf text =>
      have htext := hinj (.inl (mem_texts_node.mpr (.inl rfl)))
        (.inr (mem_texts_leaf.mpr rfl)) hdigest
      exact absurd htext.symm (hu text (List.mem_singleton_self _) _ _)
    | node l' r' =>
      have htext := hinj (.inl (mem_texts_node.mpr (.inl rfl)))
        (.inr (mem_texts_node.mpr (.inl rfl))) hdigest
      obtain ⟨hl, hr⟩ := hjoin htext
      rw [leaves, leaves,
        ihl (fun x hx => ht x (List.mem_append_left _ hx))
          (fun x hx => hu x (List.mem_append_left _ hx))
          (hinj.mono (pairTexts_mono (fun x hx => mem_texts_node.mpr (.inr (.inl hx)))
            fun x hx => mem_texts_node.mpr (.inr (.inl hx)))) hl,
        ihr (fun x hx => ht x (List.mem_append_right _ hx))
          (fun x hx => hu x (List.mem_append_right _ hx))
          (hinj.mono (pairTexts_mono (fun x hx => mem_texts_node.mpr (.inr (.inr hx)))
            fun x hx => mem_texts_node.mpr (.inr (.inr hx)))) hr]

end HashTree

end Codec
