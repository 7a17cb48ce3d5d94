import Mathlib.Data.List.Basic
import Mathlib.Data.List.Flatten
import Mathlib.Tactic

/-!
# Binary hash trees

A tree whose leaves carry values is hashed bottom-up by a function for leaves and a function for nodes. As long
as these two tell apart what is hashed, the root determines the tree, and a path of siblings that climbs from a
value to the root is the path of a leaf with that value. `pairUp` and `join` build a tree from a list level by
level; a lone last tree moves up unchanged.
-/

inductive HashTree (β : Type) where
  | leaf (value : β)
  | node (left right : HashTree β)

namespace HashTree

/-- One level of a path: the sibling, and the side it is on. -/
structure Step (α : Type) where
  sibling : α
  siblingIsLeft : Bool
deriving DecidableEq

variable {α β : Type}

def leaves : HashTree β → List β
  | leaf b => [b]
  | node l r => l.leaves ++ r.leaves

section Hashing
variable (hashLeaf : β → α) (hashNode : α → α → α)

def root : HashTree β → α
  | leaf b => hashLeaf b
  | node l r => hashNode l.root r.root

/-- The two children of the node one step up. -/
def Step.children (s : Step α) (acc : α) : α × α := if s.siblingIsLeft then (s.sibling, acc) else (acc, s.sibling)

/-- Hash upwards along a path. -/
def climb (acc : α) : List (Step α) → α
  | [] => acc
  | s :: steps => climb (hashNode (s.children acc).1 (s.children acc).2) steps

theorem climb_append (acc : α) (steps steps' : List (Step α)) :
    climb hashNode acc (steps ++ steps') = climb hashNode (climb hashNode acc steps) steps' := by
  induction steps generalizing acc with
  | nil => rfl
  | cons s steps ih => exact ih _

/-- Only leaves in `Leaf` and nodes in `Node` are hashed for a tree. -/
def Hashes (Leaf : β → Prop) (Node : α → α → Prop) : HashTree β → Prop
  | leaf b => Leaf b
  | node l r =>
    Node (l.root hashLeaf hashNode) (r.root hashLeaf hashNode) ∧ l.Hashes Leaf Node ∧ r.Hashes Leaf Node

/-- Only nodes in `Node` are hashed along a path. -/
def Climbs (Node : α → α → Prop) : α → List (Step α) → Prop
  | _, [] => True
  | acc, s :: steps =>
    Node (s.children acc).1 (s.children acc).2 ∧
      Climbs Node (hashNode (s.children acc).1 (s.children acc).2) steps

/-- `u` is the subtree of `t` that the path climbs from. -/
inductive Above : HashTree β → HashTree β → List (Step α) → Prop
  | refl (t : HashTree β) : Above t t []
  | left {t l r : HashTree β} {steps : List (Step α)} (h : Above t (node l r) steps) :
      Above t l (⟨r.root hashLeaf hashNode, false⟩ :: steps)
  | right {t l r : HashTree β} {steps : List (Step α)} (h : Above t (node l r) steps) :
      Above t r (⟨l.root hashLeaf hashNode, true⟩ :: steps)

/-- Leaves in `Leaf` and nodes in `Node` are told apart by their hashes. -/
structure Separated (Leaf : β → Prop) (Node : α → α → Prop) : Prop where
  leaf_inj : ∀ {a b}, Leaf a → Leaf b → hashLeaf a = hashLeaf b → a = b
  node_inj : ∀ {l r l' r'}, Node l r → Node l' r' → hashNode l r = hashNode l' r' → l = l' ∧ r = r'
  leaf_ne_node : ∀ {a l r}, Leaf a → Node l r → hashLeaf a ≠ hashNode l r

variable {hashLeaf hashNode} {Leaf : β → Prop} {Node : α → α → Prop} {t t' u v : HashTree β}
  {steps steps' : List (Step α)}

theorem eq_of_root_eq (hsep : Separated hashLeaf hashNode Leaf Node) (ht : t.Hashes hashLeaf hashNode Leaf Node)
    (ht' : t'.Hashes hashLeaf hashNode Leaf Node) (h : t.root hashLeaf hashNode = t'.root hashLeaf hashNode) :
    t = t' := by
  induction t generalizing t' with
  | leaf a =>
    cases t' with
    | leaf b => rw [hsep.leaf_inj ht ht' h]
    | node l r => exact absurd h (hsep.leaf_ne_node ht ht'.1)
  | node l r ihl ihr =>
    cases t' with
    | leaf b => exact absurd h.symm (hsep.leaf_ne_node ht' ht.1)
    | node l' r' =>
      obtain ⟨hl, hr⟩ := hsep.node_inj ht.1 ht'.1 h
      rw [ihl ht.2.1 ht'.2.1 hl, ihr ht.2.2 ht'.2.2 hr]

theorem Above.trans (h : Above hashLeaf hashNode t u steps') (h' : Above hashLeaf hashNode u v steps) :
    Above hashLeaf hashNode t v (steps ++ steps') := by
  induction h' with
  | refl => exact h
  | left _ ih => exact .left ih
  | right _ ih => exact .right ih

theorem Above.climb_eq (h : Above hashLeaf hashNode t u steps) :
    climb hashNode (u.root hashLeaf hashNode) steps = t.root hashLeaf hashNode := by
  induction h with
  | refl => rfl
  | left _ ih => exact ih
  | right _ ih => exact ih

theorem Climbs.of_append {acc : α} (h : Climbs hashNode Node acc (steps ++ steps')) :
    Climbs hashNode Node acc steps ∧ Climbs hashNode Node (climb hashNode acc steps) steps' := by
  induction steps generalizing acc with
  | nil => exact ⟨trivial, h⟩
  | cons s steps ih =>
    obtain ⟨hs, hrest⟩ := ih h.2
    exact ⟨⟨h.1, hs⟩, hrest⟩

/-- A path that climbs from a value to the root is that of a leaf with this value. The induction is on the tree, and
the path is taken apart from its upper end. -/
theorem above_of_climb (hsep : Separated hashLeaf hashNode Leaf Node) (ht : t.Hashes hashLeaf hashNode Leaf Node)
    {b : β} (hb : Leaf b) (hclimbs : Climbs hashNode Node (hashLeaf b) steps)
    (h : climb hashNode (hashLeaf b) steps = t.root hashLeaf hashNode) : Above hashLeaf hashNode t (leaf b) steps := by
  induction t generalizing steps with
  | leaf a =>
    rcases List.eq_nil_or_concat' steps with rfl | ⟨steps, s, rfl⟩
    · obtain rfl := hsep.leaf_inj hb ht h
      exact .refl _
    · rw [climb_append] at h
      exact absurd h.symm (hsep.leaf_ne_node ht hclimbs.of_append.2.1)
  | node l r ihl ihr =>
    rcases List.eq_nil_or_concat' steps with rfl | ⟨steps, ⟨sibling, side⟩, rfl⟩
    · exact absurd h (hsep.leaf_ne_node hb ht.1)
    obtain ⟨hlow, htop, -⟩ := hclimbs.of_append
    rw [climb_append] at h
    obtain ⟨hleft, hright⟩ := hsep.node_inj htop ht.1 h
    cases side with
    | false =>
      have hsibling : sibling = r.root hashLeaf hashNode := hright
      rw [hsibling]
      exact (Above.left (.refl _)).trans (ihl ht.2.1 hlow hleft)
    | true =>
      have hsibling : sibling = l.root hashLeaf hashNode := hleft
      rw [hsibling]
      exact (Above.right (.refl _)).trans (ihr ht.2.2 hlow hright)

theorem Above.of_leaf {b : β} (h : Above hashLeaf hashNode (leaf b) u steps) : u = leaf b ∧ steps = [] := by
  induction h with
  | refl => exact ⟨rfl, rfl⟩
  | left _ ih => cases ih.1
  | right _ ih => cases ih.1

theorem Above.of_node {l r : HashTree β} (h : Above hashLeaf hashNode (node l r) u steps) :
    (u = node l r ∧ steps = []) ∨
      (∃ low, Above hashLeaf hashNode l u low ∧ steps = low ++ [⟨r.root hashLeaf hashNode, false⟩]) ∨
      ∃ low, Above hashLeaf hashNode r u low ∧ steps = low ++ [⟨l.root hashLeaf hashNode, true⟩] := by
  induction h with
  | refl => exact .inl ⟨rfl, rfl⟩
  | left _ ih =>
    rcases ih with ⟨heq, rfl⟩ | ⟨low, hlow, rfl⟩ | ⟨low, hlow, rfl⟩
    · cases heq
      exact .inr (.inl ⟨[], .refl _, rfl⟩)
    · exact .inr (.inl ⟨_, .left hlow, rfl⟩)
    · exact .inr (.inr ⟨_, .left hlow, rfl⟩)
  | right _ ih =>
    rcases ih with ⟨heq, rfl⟩ | ⟨low, hlow, rfl⟩ | ⟨low, hlow, rfl⟩
    · cases heq
      exact .inr (.inr ⟨[], .refl _, rfl⟩)
    · exact .inr (.inl ⟨_, .right hlow, rfl⟩)
    · exact .inr (.inr ⟨_, .right hlow, rfl⟩)

end Hashing

/-! ## Trees over lists -/

/-- Join the neighbours of a level; a lone last tree moves up unchanged. -/
def pairUp : List (HashTree β) → List (HashTree β)
  | l :: r :: rest => node l r :: pairUp rest
  | rest => rest

/-- Join levels until one tree is left. -/
def join : ℕ → List (HashTree β) → Option (HashTree β)
  | _, [] => none
  | _, [t] => some t
  | 0, t :: _ => some t
  | n + 1, ts => join n (pairUp ts)

theorem leaves_pairUp (ts : List (HashTree β)) : (pairUp ts).flatMap leaves = ts.flatMap leaves := by
  induction ts using pairUp.induct with
  | case1 l r rest ih =>
    rw [pairUp, List.flatMap_cons, ih, List.flatMap_cons, List.flatMap_cons, leaves, List.append_assoc]
  | case2 rest h => rw [pairUp]; exact h

theorem length_pairUp (ts : List (HashTree β)) : (pairUp ts).length = (ts.length + 1) / 2 := by
  induction ts using pairUp.induct with
  | case1 l r rest ih =>
    rw [pairUp, List.length_cons, ih, List.length_cons, List.length_cons]
    omega
  | case2 rest h =>
    rw [pairUp]
    · rcases rest with _ | ⟨l, _ | ⟨r, rest⟩⟩
      · simp
      · simp
      · exact absurd rfl (h l r rest)
    · exact h

theorem getElem?_pairUp (ts : List (HashTree β)) (k : ℕ) : (pairUp ts)[k]? = match ts[2 * k]?, ts[2 * k + 1]? with
      | some l, some r => some (node l r)
      | x, _ => x := by
  induction ts using pairUp.induct generalizing k with
  | case1 l r rest ih =>
    rw [pairUp]
    rcases k with _ | k
    · rfl
    have heven : 2 * (k + 1) = 2 * k + 1 + 1 := by omega
    rw [List.getElem?_cons_succ, ih, heven]
    rfl
  | case2 rest h =>
    rw [pairUp]
    · rcases rest with _ | ⟨l, _ | ⟨r, rest⟩⟩
      · simp
      · rcases k with _ | k
        · rfl
        have heven : 2 * (k + 1) = 2 * k + 1 + 1 := by omega
        simp [heven]
      · exact absurd rfl (h l r rest)
    · exact h

/-- A list that is not empty is joined into a tree with its leaves. -/
theorem exists_join {n : ℕ} {ts : List (HashTree β)} (hne : ts ≠ []) (hn : ts.length ≤ n + 1) :
    ∃ t, join n ts = some t ∧ t.leaves = ts.flatMap leaves := by
  induction n generalizing ts with
  | zero =>
    obtain ⟨t, rfl⟩ := List.length_eq_one_iff.mp
      (le_antisymm hn (List.length_pos_iff.mpr hne))
    exact ⟨t, rfl, by simp⟩
  | succ n ih =>
    rcases ts with _ | ⟨l, _ | ⟨r, rest⟩⟩
    · exact absurd rfl hne
    · exact ⟨l, rfl, by simp⟩
    have hlen := length_pairUp (l :: r :: rest)
    rw [List.length_cons, List.length_cons] at hlen hn
    have hpos : pairUp (l :: r :: rest) ≠ [] := by simp [pairUp]
    obtain ⟨t, ht, hleaves⟩ := ih hpos (by omega)
    exact ⟨t, ht, hleaves.trans (leaves_pairUp _)⟩

end HashTree
