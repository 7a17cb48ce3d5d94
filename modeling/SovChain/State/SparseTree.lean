import Mathlib.Data.List.Induction
import SovChain.State.Merkle

/-!
# The sparse Merkle tree

The tree keeps a cache of its non-empty nodes by their hash, and each update reads the siblings of one path
from it and hashes the path again. After any sequence of updates the root is the reference root
`Ledger.subtreeRoot` of the map held, every proof given out verifies, and no proof of another value does
(`sparse_tree_correct`).
-/

namespace Sov
open Codec Ledger

/-! ## The tree of the code -/

/-- The leaf at a slot and the siblings of its path, from the root down. -/
structure MerkleProof where
  leaf : Hash
  siblings : List Hash
deriving DecidableEq

/-- The children of a path's node in order: the node of the path below it and that node's sibling. -/
def orderChildren (key : Hash) (h : ℕ) (node sibling : Hash) : Hash × Hash :=
  if keyBit key (treeHeight - (h + 1)) then (sibling, node) else (node, sibling)

/-- The leaf that stands for a value or for none. -/
def leafOf (C : Crypto) : Option Bytes → Hash
  | some value => hashLeaf C value
  | none => Hash.zero

namespace MerkleProof

/-- The node of the path after the first `h` levels. -/
def climb (C : Crypto) (key leaf : Hash) (siblings : List Hash) : ℕ → Hash
  | 0 => leaf
  | h + 1 =>
    let children := orderChildren key h (climb C key leaf siblings h) (siblings.getD (treeHeight - (h + 1)) Hash.zero)
    hashNode C children.1 children.2

def verify (C : Crypto) (proof : MerkleProof) (root key : Hash) (value : Option Bytes) : Bool :=
  if proof.siblings.length ≠ treeHeight then false
  else if proof.leaf ≠ leafOf C value then false
  else climb C key proof.leaf proof.siblings treeHeight == root

end MerkleProof

structure SparseMerkleTree where
  nodes : OrdMap Hash (Hash × Hash)
  values : OrdMap Hash Bytes
  root : Hash

namespace SparseMerkleTree
variable {C : Crypto}

def new (C : Crypto) : SparseMerkleTree := ⟨.empty, .empty, defaultRoot C treeHeight⟩

/-- The children of a node at height `h + 1`; a node that is not stored is an empty subtree. -/
def children (C : Crypto) (nodes : OrdMap Hash (Hash × Hash)) (node : Hash) (h : ℕ) : Hash × Hash :=
  match nodes.get? node with
  | some pair => pair
  | none => (defaultRoot C h, defaultRoot C h)

/-- The siblings met on the way down from `node` at the given height. -/
def siblingsFrom (C : Crypto) (nodes : OrdMap Hash (Hash × Hash)) (key : Hash) : ℕ → Hash → List Hash
  | 0, _ => []
  | h + 1, node =>
    let pair := children C nodes node h
    if keyBit key (treeHeight - (h + 1)) then pair.1 :: siblingsFrom C nodes key h pair.2
    else pair.2 :: siblingsFrom C nodes key h pair.1

def siblingsFor (C : Crypto) (t : SparseMerkleTree) (key : Hash) : List Hash :=
  siblingsFrom C t.nodes key treeHeight t.root

/-- The node of the path and the stored nodes after the first `h` levels. Empty subtrees are not stored. -/
def recomputeTo (C : Crypto) (nodes : OrdMap Hash (Hash × Hash)) (key leaf : Hash) (siblings : List Hash) :
    ℕ → Hash × OrdMap Hash (Hash × Hash)
  | 0 => (leaf, nodes)
  | h + 1 =>
    let below := recomputeTo C nodes key leaf siblings h
    let pair := orderChildren key h below.1 (siblings.getD (treeHeight - (h + 1)) Hash.zero)
    let parent := hashNode C pair.1 pair.2
    (parent, if parent ≠ defaultRoot C (h + 1) then below.2.insert parent pair else below.2)

def recompute (C : Crypto) (t : SparseMerkleTree) (key leaf : Hash) (siblings : List Hash) : SparseMerkleTree :=
  let top := recomputeTo C t.nodes key leaf siblings treeHeight
  { t with nodes := top.2, root := top.1 }

def insert (C : Crypto) (t : SparseMerkleTree) (key : Hash) (value : Bytes) : SparseMerkleTree :=
  let siblings := t.siblingsFor C key
  let t' := { t with values := t.values.insert key value }
  t'.recompute C key (hashLeaf C value) siblings

/-- The value removed is the second component. -/
def remove (C : Crypto) (t : SparseMerkleTree) (key : Hash) : SparseMerkleTree × Option Bytes :=
  match t.values.get? key with
  | none => (t, none)
  | some old =>
    let t' := { t with values := t.values.erase key }
    (t'.recompute C key Hash.zero (t'.siblingsFor C key), some old)

def prove (C : Crypto) (t : SparseMerkleTree) (key : Hash) : MerkleProof :=
  ⟨leafOf C (t.values.get? key), t.siblingsFor C key⟩

end SparseMerkleTree

/-! ## Runs of updates -/

inductive TreeOp where
  | insert (key : Hash) (value : Bytes)
  | remove (key : Hash)
deriving DecidableEq

namespace TreeOp

/-- What an update does to the tree. -/
def apply (C : Crypto) (t : SparseMerkleTree) : TreeOp → SparseMerkleTree
  | insert key value => t.insert C key value
  | remove key => (t.remove C key).1

/-- What an update does to a plain map. -/
def applyMap (m : OrdMap Hash Bytes) : TreeOp → OrdMap Hash Bytes
  | insert key value => m.insert key value
  | remove key => m.erase key

/-- The tree after a sequence of updates. -/
def run (C : Crypto) (ops : List TreeOp) : SparseMerkleTree := ops.foldl (apply C) (.new C)

/-- The map after a sequence of updates. -/
def contents (ops : List TreeOp) : OrdMap Hash Bytes := ops.foldl applyMap .empty

/-- The byte strings hashed for the reference trees of the maps passed through. -/
def Hashed (C : Crypto) (ops : List TreeOp) (p : Bytes) : Prop :=
  ∃ pre, pre <+: ops ∧ Ledger.Hashed C treeHeight (contents pre).entries p

end TreeOp

open TreeOp (run contents)

/-- What is hashed for a node. -/
def nodeBytes (pair : Hash × Hash) : Bytes := 1 :: (pair.1.bytes ++ pair.2.bytes)

/-- The byte strings a verifier hashes. -/
def MerkleProof.Hashed (C : Crypto) (proof : MerkleProof) (key : Hash) (value : Option Bytes) (p : Bytes) : Prop :=
  (∃ v ∈ value, p = 0 :: v) ∨
    ∃ h < treeHeight, p = nodeBytes (orderChildren key h (climb C key proof.leaf proof.siblings h)
      (proof.siblings.getD (treeHeight - (h + 1)) Hash.zero))

/-! ## The path of a key in the reference tree -/

section Path
variable {C : Crypto} {key : Hash} {l : List (Hash × Bytes)} {m : OrdMap Hash Bytes} {h : ℕ}

/-- The leaves below the node of height `h` on the path of `key`. -/
def onPath (key : Hash) (h : ℕ) (l : List (Hash × Bytes)) : List (Hash × Bytes) :=
  l.filter fun e => decide (∀ i < treeHeight - h, keyBit e.1 i = keyBit key i)

/-- The bit that decides below a node of height `h + 1`. -/
def turn (key : Hash) (h : ℕ) : Bool := keyBit key (treeHeight - (h + 1))

/-- The leaves below the sibling of the node of height `h` on the path of `key`. -/
def offPath (key : Hash) (h : ℕ) (l : List (Hash × Bytes)) : List (Hash × Bytes) :=
  onSide h (!turn key h) (onPath key (h + 1) l)

theorem onPath_top : onPath key treeHeight l = l := by
  simp [onPath]

theorem onPath_eq_onSide (hh : h < treeHeight) : onPath key h l = onSide h (turn key h) (onPath key (h + 1) l) := by
  unfold onPath onSide turn
  rw [List.filter_filter]
  refine List.filter_congr fun e _ => ?_
  rw [Bool.eq_iff_iff, decide_eq_true_iff, Bool.and_eq_true, beq_iff_eq, decide_eq_true_iff]
  constructor
  · intro hbits
    exact ⟨hbits _ (by omega), fun i hi => hbits i (by omega)⟩
  rintro ⟨hlast, hbits⟩ i hi
  by_cases hi' : i = treeHeight - (h + 1)
  · rw [hi', hlast]
  · exact hbits i (by omega)

/-- The node of the path and its sibling are the two children of the node above. -/
theorem orderChildren_onPath (key : Hash) (hh : h < treeHeight) :
    orderChildren key h (subtreeRoot C h (onPath key h l)) (subtreeRoot C h (offPath key h l)) =
      (subtreeRoot C h (onSide h false (onPath key (h + 1) l)),
        subtreeRoot C h (onSide h true (onPath key (h + 1) l))) := by
  rw [onPath_eq_onSide hh, offPath, orderChildren, ← turn]
  cases turn key h <;> rfl

theorem subtreeRoot_onPath (key : Hash) (hh : h < treeHeight) : subtreeRoot C (h + 1) (onPath key (h + 1) l) =
      hashNode C (orderChildren key h (subtreeRoot C h (onPath key h l)) (subtreeRoot C h (offPath key h l))).1
        (orderChildren key h (subtreeRoot C h (onPath key h l)) (subtreeRoot C h (offPath key h l))).2 := by
  rw [subtreeRoot_succ, orderChildren_onPath key hh]

theorem head?_onPath : (onPath key 0 m.entries).head? = (m.get? key).map fun v => (key, v) := by
  have hmem : ∀ e, e ∈ onPath key 0 m.entries ↔ e ∈ m.entries ∧ e.1 = key := by
    intro e
    simp only [onPath, List.mem_filter, decide_eq_true_eq, Nat.sub_zero]
    exact and_congr_right fun _ => ⟨key_eq_of_keyBit, fun h i _ => by rw [h]⟩
  cases hpath : onPath key 0 m.entries with
  | nil =>
    rcases hvalue : m.get? key with _ | v
    · rfl
    have hin : (key, v) ∈ onPath key 0 m.entries := (hmem _).mpr ⟨OrdMap.get?_eq_some_iff.mp hvalue, rfl⟩
    rw [hpath] at hin
    cases hin
  | cons e es =>
    obtain ⟨hin, rfl⟩ := (hmem e).mp (hpath ▸ List.mem_cons_self)
    rw [OrdMap.get?_eq_some_iff.mpr hin]
    rfl

theorem subtreeRoot_onPath_zero : subtreeRoot C 0 (onPath key 0 m.entries) = leafOf C (m.get? key) := by
  have hleaf : ∀ l : List (Hash × Bytes), subtreeRoot C 0 l = leafOf C (l.head?.map Prod.snd) := by
    intro l
    cases l <;> rfl
  rw [hleaf, head?_onPath, Option.map_map]
  congr 1
  exact Option.map_id'

theorem offPath_set (value : Option Bytes) : offPath key h (m.set key value).entries = offPath key h m.entries := by
  have hfilter : ∀ n : OrdMap Hash Bytes, offPath key h n.entries = (n.filterKeys fun k =>
      keyBit k (treeHeight - (h + 1)) == !turn key h &&
        decide (∀ i < treeHeight - (h + 1), keyBit k i = keyBit key i)).entries := by
    intro n
    simp only [offPath, onPath, onSide, OrdMap.filterKeys, List.filter_filter]
  rw [hfilter, hfilter]
  congr 1
  refine OrdMap.ext_get? fun k => ?_
  rw [OrdMap.get?_filterKeys, OrdMap.get?_filterKeys, OrdMap.get?_set]
  by_cases hk : key = k
  · subst hk
    simp [turn]
  · simp [hk]

/-- From the root down to any height of a path. -/
theorem path_induction {P : ℕ → Prop} (htop : P treeHeight) (hdown : ∀ h < treeHeight, P (h + 1) → P h)
    (hle : h ≤ treeHeight) : P h :=
  Nat.decreasingInduction' (fun k hk _ => hdown k hk) hle htop

/-- What is hashed below a node of the path is hashed for the root. -/
theorem hashed_of_onPath (key : Hash) (hle : h ≤ treeHeight) {p : Bytes} (hp : Ledger.Hashed C h (onPath key h l) p) :
    Ledger.Hashed C treeHeight l p := by
  revert hp
  refine path_induction (P := fun h => Ledger.Hashed C h (onPath key h l) p → _) ?_ ?_ hle
  · rw [onPath_top]
    exact id
  intro h hh ih hp
  refine ih ?_
  rw [onPath_eq_onSide hh] at hp
  cases hturn : turn key h with
  | false => exact .inr (.inl (hturn ▸ hp))
  | true => exact .inr (.inr (hturn ▸ hp))

theorem hashed_nodeBytes (key : Hash) (hh : h < treeHeight) : Ledger.Hashed C treeHeight l
      (nodeBytes (orderChildren key h (subtreeRoot C h (onPath key h l)) (subtreeRoot C h (offPath key h l)))) := by
  refine hashed_of_onPath key (h := h + 1) hh (.inl ?_)
  rw [orderChildren_onPath key hh]
  rfl

theorem hashed_leaf {v : Bytes} (hv : m.get? key = some v) : Ledger.Hashed C treeHeight m.entries (0 :: v) := by
  refine hashed_of_onPath key (Nat.zero_le _) ⟨(key, v), ?_, rfl⟩
  rw [head?_onPath, hv]
  rfl

end Path

theorem nodeBytes_inj {a b : Hash × Hash} (h : nodeBytes a = nodeBytes b) : a = b := by
  obtain ⟨hleft, hright⟩ := List.append_inj (List.cons.inj h).2 (a.1.length_eq.trans b.1.length_eq.symm)
  exact Prod.ext (FixedBytes.bytes_injective hleft) (FixedBytes.bytes_injective hright)

theorem orderChildren_inj {key : Hash} {h : ℕ} {a a' b b' : Hash}
    (heq : orderChildren key h a b = orderChildren key h a' b') : a = a' ∧ b = b' := by
  unfold orderChildren at heq
  split at heq
  · exact ⟨(Prod.mk.inj heq).2, (Prod.mk.inj heq).1⟩
  · exact Prod.mk.inj heq

/-! ## The cache of nodes -/

section Cache
variable {C : Crypto} {S : Bytes → Prop} {nodes nodes' : OrdMap Hash (Hash × Hash)} {key : Hash}
  {l : List (Hash × Bytes)} {h : ℕ}

/-- Every entry of the cache is a node under its own hash. -/
def Addressed (C : Crypto) (S : Bytes → Prop) (nodes : OrdMap Hash (Hash × Hash)) : Prop :=
  ∀ node pair, nodes.get? node = some pair → node = hashNode C pair.1 pair.2 ∧ S (nodeBytes pair)

/-- Every node of a reference subtree is in the cache, but for the empty subtrees. -/
def Stored (C : Crypto) (nodes : OrdMap Hash (Hash × Hash)) : ℕ → List (Hash × Bytes) → Prop
  | 0, _ => True
  | h + 1, l =>
    (subtreeRoot C (h + 1) l ≠ defaultRoot C (h + 1) → nodes.get? (subtreeRoot C (h + 1) l) =
      some (subtreeRoot C h (onSide h false l), subtreeRoot C h (onSide h true l))) ∧
    Stored C nodes h (onSide h false l) ∧ Stored C nodes h (onSide h true l)

/-- No entry of the cache is lost. -/
def Grows (nodes nodes' : OrdMap Hash (Hash × Hash)) : Prop :=
  ∀ node pair, nodes.get? node = some pair → nodes'.get? node = some pair

theorem Stored.mono (hgrows : Grows nodes nodes') (hstored : Stored C nodes h l) : Stored C nodes' h l := by
  induction h generalizing l with
  | zero => trivial
  | succ h ih =>
    obtain ⟨hroot, hleft, hright⟩ := hstored
    exact ⟨fun hne => hgrows _ _ (hroot hne), ih hleft, ih hright⟩

theorem Stored.onSide (hstored : Stored C nodes (h + 1) l) (side : Bool) : Stored C nodes h (onSide h side l) := by
  cases side with
  | false => exact hstored.2.1
  | true => exact hstored.2.2

theorem Stored.onPath (hstored : Stored C nodes treeHeight l) (hle : h ≤ treeHeight) :
    Stored C nodes h (onPath key h l) := by
  refine path_induction (P := fun h => Stored C nodes h (Sov.onPath key h l)) ?_ ?_ hle
  · rwa [onPath_top]
  · intro h hh ih
    rw [onPath_eq_onSide hh]
    exact ih.onSide _

theorem Stored.offPath (hstored : Stored C nodes treeHeight l) (hh : h < treeHeight) :
    Stored C nodes h (offPath key h l) := (hstored.onPath hh).onSide _

variable (hC : C.CollisionFree S) {pair : Hash × Hash}

include hC

theorem eq_of_hashNode_eq {a b : Hash × Hash} (ha : S (nodeBytes a)) (hb : S (nodeBytes b))
    (heq : hashNode C a.1 a.2 = hashNode C b.1 b.2) : a = b := nodeBytes_inj (hC _ _ ha hb heq)

/-- A node stored under its hash hides no other. -/
theorem Addressed.insert (haddr : Addressed C S nodes) (hpair : S (nodeBytes pair)) :
    Addressed C S (nodes.insert (hashNode C pair.1 pair.2) pair) ∧
      Grows nodes (nodes.insert (hashNode C pair.1 pair.2) pair) := by
  constructor
  · intro node other hget
    rw [OrdMap.get?_insert] at hget
    split at hget
    next heq =>
      cases hget
      exact ⟨heq.symm, hpair⟩
    next => exact haddr node other hget
  · intro node other hget
    rw [OrdMap.get?_insert]
    split
    next heq =>
      obtain ⟨hnode, hother⟩ := haddr node other hget
      rw [eq_of_hashNode_eq hC hpair hother (heq.trans hnode)]
    next => exact hget

theorem children_eq (haddr : Addressed C S nodes) (hdefault : S (nodeBytes (defaultRoot C h, defaultRoot C h)))
    (hpair : S (nodeBytes pair))
    (hstored : hashNode C pair.1 pair.2 ≠ defaultRoot C (h + 1) → nodes.get? (hashNode C pair.1 pair.2) = some pair) :
    SparseMerkleTree.children C nodes (hashNode C pair.1 pair.2) h = pair := by
  unfold SparseMerkleTree.children
  cases hget : nodes.get? (hashNode C pair.1 pair.2) with
  | some other =>
    obtain ⟨hnode, hother⟩ := haddr _ _ hget
    exact (eq_of_hashNode_eq hC hpair hother hnode).symm
  | none =>
    by_cases hne : hashNode C pair.1 pair.2 = defaultRoot C (h + 1)
    · exact (eq_of_hashNode_eq hC (a := pair) (b := (defaultRoot C h, defaultRoot C h)) hpair hdefault hne).symm
    · rw [hstored hne] at hget
      cases hget

omit hC in
theorem siblings_getD (hh : h < treeHeight) (f : ℕ → Hash) :
    ((List.range treeHeight).reverse.map f).getD (treeHeight - (h + 1)) Hash.zero = f h := by
  have hlt : treeHeight - (h + 1) < treeHeight := by omega
  have hback : treeHeight - 1 - (treeHeight - (h + 1)) = h := by omega
  simp [List.getD_eq_getElem?_getD, hlt, hback]

theorem siblingsFrom_eq (key : Hash) (haddr : Addressed C S nodes) (hstored : Stored C nodes treeHeight l)
    (hS : ∀ p, Ledger.Hashed C treeHeight l p → S p)
    (hdefault : ∀ h < treeHeight, S (nodeBytes (defaultRoot C h, defaultRoot C h))) (hle : h ≤ treeHeight) :
    SparseMerkleTree.siblingsFrom C nodes key h (subtreeRoot C h (onPath key h l)) =
      (List.range h).reverse.map fun i => subtreeRoot C i (offPath key i l) := by
  induction h with
  | zero => rfl
  | succ h ih =>
    have hh : h < treeHeight := hle
    have hpair := hS _ (hashed_nodeBytes (C := C) key (l := l) hh)
    have hread := children_eq hC haddr (hdefault h hh) hpair fun hne => by
      rw [← subtreeRoot_onPath key hh] at hne ⊢
      rw [(hstored.onPath hh).1 hne, orderChildren_onPath key hh]
    rw [SparseMerkleTree.siblingsFrom, subtreeRoot_onPath key hh, hread, List.range_succ, List.reverse_append,
      List.reverse_singleton, List.singleton_append, List.map_cons, ← ih hh.le, orderChildren]
    split <;> rfl

end Cache

/-! ## What an update keeps -/

section Update
variable {C : Crypto} {S : Bytes → Prop} {t : SparseMerkleTree} {m : OrdMap Hash Bytes} {key : Hash}

/-- The tree holds the map `m`, and its cache the nodes of the reference tree. -/
structure Represents (C : Crypto) (S : Bytes → Prop) (t : SparseMerkleTree) (m : OrdMap Hash Bytes) : Prop where
  values : t.values = m
  root : t.root = subtreeRoot C treeHeight m.entries
  addressed : Addressed C S t.nodes
  stored : Stored C t.nodes treeHeight m.entries

/-- The byte strings of the empty tree are among those of `S`. -/
def HashesEmpty (C : Crypto) (S : Bytes → Prop) : Prop := ∀ p, Ledger.Hashed C treeHeight [] p → S p

theorem HashesEmpty.default (hempty : HashesEmpty C S) {h : ℕ} (hh : h < treeHeight) :
    S (nodeBytes (defaultRoot C h, defaultRoot C h)) := by
  refine hempty _ ?_
  have hnode := hashed_nodeBytes (C := C) Hash.zero (l := []) hh
  have hon : onPath Hash.zero h [] = [] := rfl
  have hoff : offPath Hash.zero h [] = [] := rfl
  rw [hon, hoff, subtreeRoot_nil, orderChildren, ite_self] at hnode
  exact hnode

theorem represents_new : Represents C S (.new C) .empty := by
  refine ⟨rfl, (subtreeRoot_nil treeHeight).symm, fun node pair hget => absurd hget (by simp [SparseMerkleTree.new]), ?_⟩
  have hnil : ∀ h, Stored C .empty h [] := by
    intro h
    induction h with
    | zero => trivial
    | succ h ih => exact ⟨fun hne => absurd (subtreeRoot_nil (h + 1)) hne, ih, ih⟩
  exact hnil treeHeight

variable (hC : C.CollisionFree S) (hempty : HashesEmpty C S)

include hC hempty

theorem Represents.siblingsFor_eq (key : Hash) (hrep : Represents C S t m)
    (hm : ∀ p, Ledger.Hashed C treeHeight m.entries p → S p) :
    t.siblingsFor C key = (List.range treeHeight).reverse.map fun i => subtreeRoot C i (offPath key i m.entries) := by
  have hwalk := siblingsFrom_eq hC key hrep.addressed hrep.stored hm (fun h hh => hempty.default hh) le_rfl
  rwa [onPath_top, ← hrep.root] at hwalk

/-- Hashing the path again gives the nodes of the new map, and the cache gains them. -/
theorem recomputeTo_spec (hrep : Represents C S t m) {value : Option Bytes}
    (hm : ∀ p, Ledger.Hashed C treeHeight m.entries p → S p)
    (hm' : ∀ p, Ledger.Hashed C treeHeight (m.set key value).entries p → S p) {h : ℕ} (hle : h ≤ treeHeight) :
    ∃ nodes, SparseMerkleTree.recomputeTo C t.nodes key (leafOf C value) (t.siblingsFor C key) h =
        (subtreeRoot C h (onPath key h (m.set key value).entries), nodes) ∧
      Addressed C S nodes ∧ Grows t.nodes nodes ∧ Stored C nodes h (onPath key h (m.set key value).entries) := by
  induction h with
  | zero =>
    refine ⟨t.nodes, ?_, hrep.addressed, fun _ _ => id, trivial⟩
    rw [subtreeRoot_onPath_zero, OrdMap.get?_set_self]
    rfl
  | succ h ih =>
    have hh : h < treeHeight := hle
    obtain ⟨nodes, hbelow, haddr, hgrows, hstored⟩ := ih hh.le
    have hsibling : (t.siblingsFor C key).getD (treeHeight - (h + 1)) Hash.zero =
        subtreeRoot C h (offPath key h (m.set key value).entries) := by
      rw [hrep.siblingsFor_eq hC hempty key hm, siblings_getD hh, offPath_set]
    have hpair := hm' _ (hashed_nodeBytes (C := C) key hh)
    have hchildren : Stored C nodes h (onSide h false (onPath key (h + 1) (m.set key value).entries)) ∧
        Stored C nodes h (onSide h true (onPath key (h + 1) (m.set key value).entries)) := by
      have hoff : Stored C nodes h (offPath key h (m.set key value).entries) := by
        rw [offPath_set]
        exact (hrep.stored.offPath hh).mono hgrows
      rw [onPath_eq_onSide hh] at hstored
      rw [offPath] at hoff
      cases hturn : turn key h <;> rw [hturn] at hstored hoff
      · exact ⟨hstored, hoff⟩
      · exact ⟨hoff, hstored⟩
    have hroot := subtreeRoot_onPath (C := C) key (l := (m.set key value).entries) hh
    rw [SparseMerkleTree.recomputeTo, hbelow, hsibling, hroot]
    dsimp only
    obtain ⟨haddr', hgrows'⟩ := haddr.insert hC hpair
    by_cases hdefault : subtreeRoot C (h + 1) (onPath key (h + 1) (m.set key value).entries) = defaultRoot C (h + 1)
    · refine ⟨nodes, ?_, haddr, hgrows, fun hne => absurd hdefault hne, hchildren⟩
      rw [if_neg (not_not_intro (hroot ▸ hdefault))]
    · refine ⟨_, by rw [if_pos (hroot ▸ hdefault)], haddr', fun node pair hget => hgrows' _ _ (hgrows _ _ hget),
        fun _ => ?_, hchildren.1.mono hgrows', hchildren.2.mono hgrows'⟩
      rw [hroot, OrdMap.get?_insert_self, orderChildren_onPath key hh]

/-- Writing one slot: the path of its key is hashed again with the new leaf. -/
theorem Represents.recompute (hrep : Represents C S t m) (value : Option Bytes)
    (hm : ∀ p, Ledger.Hashed C treeHeight m.entries p → S p)
    (hm' : ∀ p, Ledger.Hashed C treeHeight (m.set key value).entries p → S p) :
    Represents C S (SparseMerkleTree.recompute C { t with values := m.set key value } key (leafOf C value)
      (t.siblingsFor C key)) (m.set key value) := by
  obtain ⟨nodes, htop, haddr, -, hstored⟩ := recomputeTo_spec hC hempty hrep hm hm' le_rfl
  rw [onPath_top] at htop hstored
  unfold SparseMerkleTree.recompute
  rw [htop]
  exact ⟨rfl, rfl, haddr, hstored⟩

theorem Represents.apply (hrep : Represents C S t m) (op : TreeOp)
    (hm : ∀ p, Ledger.Hashed C treeHeight m.entries p → S p)
    (hm' : ∀ p, Ledger.Hashed C treeHeight (op.applyMap m).entries p → S p) :
    Represents C S (op.apply C t) (op.applyMap m) := by
  obtain rfl : t.values = m := hrep.values
  cases op with
  | insert key value => exact hrep.recompute hC hempty (some value) hm hm'
  | remove key =>
    rw [TreeOp.apply, SparseMerkleTree.remove]
    cases hget : t.values.get? key with
    | none =>
      -- nothing is stored, and the map does not change
      have hsame : t.values.erase key = t.values := by
        rw [OrdMap.erase_eq_set, ← hget, OrdMap.set_get?]
      rw [TreeOp.applyMap, hsame]
      exact hrep
    | some old => exact hrep.recompute hC hempty none hm hm'

end Update

/-- After any sequence of updates the tree represents the map of the sequence. -/
theorem represents_run {C : Crypto} {ops : List TreeOp} (hC : C.CollisionFree (TreeOp.Hashed C ops)) :
    Represents C (TreeOp.Hashed C ops) (run C ops) (contents ops) := by
  have hempty : HashesEmpty C (TreeOp.Hashed C ops) := fun p hp => ⟨[], List.nil_prefix, hp⟩
  have hrun : ∀ pre, pre <+: ops →
      Represents C (TreeOp.Hashed C ops) (run C pre) (contents pre) := by
    intro pre
    induction pre using List.reverseRecOn with
    | nil => exact fun _ => represents_new
    | append_singleton pre op ih =>
      intro hpre
      have hshort : pre <+: ops := (List.prefix_append pre [op]).trans hpre
      have hstep := (ih hshort).apply hC hempty op (fun p hp => ⟨pre, hshort, hp⟩) fun p hp =>
        ⟨pre ++ [op], hpre, by simpa [contents] using hp⟩
      simpa [run, contents] using hstep
  exact hrun ops (List.prefix_refl ops)

/-! ## Proofs -/

section Proofs
variable {C : Crypto} {S : Bytes → Prop} {key : Hash} {m : OrdMap Hash Bytes} {siblings : List Hash} {leaf : Hash}

/-- The climb along the siblings of the reference tree passes through its nodes. -/
theorem climb_eq (key : Hash) (siblings : List Hash)
    (hsiblings : ∀ h < treeHeight, siblings.getD (treeHeight - (h + 1)) Hash.zero =
      subtreeRoot C h (offPath key h m.entries)) {h : ℕ} (hle : h ≤ treeHeight) :
    MerkleProof.climb C key (leafOf C (m.get? key)) siblings h = subtreeRoot C h (onPath key h m.entries) := by
  induction h with
  | zero => rw [subtreeRoot_onPath_zero, MerkleProof.climb]
  | succ h ih =>
    rw [MerkleProof.climb, ih (by omega), hsiblings h hle, subtreeRoot_onPath key hle]

/-- A climb that ends at the reference root passed through the reference tree all along. -/
theorem leaf_eq_of_climb (hC : C.CollisionFree S) (hm : ∀ p, Ledger.Hashed C treeHeight m.entries p → S p)
    (hsteps : ∀ h < treeHeight, S (nodeBytes (orderChildren key h (MerkleProof.climb C key leaf siblings h)
      (siblings.getD (treeHeight - (h + 1)) Hash.zero))))
    (hroot : MerkleProof.climb C key leaf siblings treeHeight = subtreeRoot C treeHeight m.entries) :
    leaf = leafOf C (m.get? key) := by
  have hdown : MerkleProof.climb C key leaf siblings 0 = subtreeRoot C 0 (onPath key 0 m.entries) := by
    refine path_induction
      (P := fun h => MerkleProof.climb C key leaf siblings h = subtreeRoot C h (onPath key h m.entries)) ?_ ?_
      (Nat.zero_le _)
    · rwa [onPath_top]
    · intro h hh heq
      rw [MerkleProof.climb, subtreeRoot_onPath key hh] at heq
      exact (orderChildren_inj (eq_of_hashNode_eq hC (hsteps h hh) (hm _ (hashed_nodeBytes key hh)) heq)).1
  rwa [subtreeRoot_onPath_zero] at hdown

end Proofs

/-- After any sequence of updates the root is the reference root of the map they leave, the root of an empty
map is the empty root, the proof of every key verifies for what the map holds there, and a proof verifies for
nothing else as long as the verifier's strings bring no collision and no leaf digests to zero. -/
theorem sparse_tree_correct (C : Crypto) (ops : List TreeOp) (hC : C.CollisionFree (TreeOp.Hashed C ops)) :
    (run C ops).root = subtreeRoot C treeHeight (contents ops).entries ∧
    (contents ops = .empty → (run C ops).root = (SparseMerkleTree.new C).root) ∧
    (∀ key, ((run C ops).prove C key).verify C (run C ops).root key
      ((contents ops).get? key) = true) ∧ ∀ (key : Hash) (value : Option Bytes) (proof : MerkleProof),
      C.CollisionFree (fun p => TreeOp.Hashed C ops p ∨ proof.Hashed C key value p) →
      (∀ v, (contents ops).get? key = some v ∨ value = some v → hashLeaf C v ≠ Hash.zero) →
      proof.verify C (run C ops).root key value = true → value = (contents ops).get? key := by
  have hrep := represents_run hC
  have hempty : HashesEmpty C (TreeOp.Hashed C ops) := fun p hp => ⟨[], List.nil_prefix, hp⟩
  have hm : ∀ p, Ledger.Hashed C treeHeight (contents ops).entries p → TreeOp.Hashed C ops p :=
    fun p hp => ⟨ops, List.prefix_refl ops, hp⟩
  refine ⟨hrep.root, fun hnone => ?_, fun key => ?_, fun key value proof hfree hzero hverify => ?_⟩
  · rw [hrep.root, hnone]
    exact subtreeRoot_nil treeHeight
  · have hsiblings := hrep.siblingsFor_eq hC hempty key hm
    have hclimb := climb_eq (C := C) (m := contents ops) key ((run C ops).siblingsFor C key)
      (fun h hh => by rw [hsiblings, siblings_getD hh]) le_rfl
    have hlength : ((run C ops).siblingsFor C key).length = treeHeight := by
      rw [hsiblings, List.length_map, List.length_reverse, List.length_range]
    rw [onPath_top, ← hrep.root] at hclimb
    simp only [MerkleProof.verify, SparseMerkleTree.prove, hrep.values, hlength, hclimb, ne_eq, not_true_eq_false,
      if_false, beq_self_eq_true]
  · unfold MerkleProof.verify at hverify
    split at hverify
    · cases hverify
    split at hverify
    · cases hverify
    next hleaf =>
    rw [not_not] at hleaf
    have hheld := leaf_eq_of_climb hfree (m := contents ops) (fun p hp => .inl (hm p hp))
      (fun h hh => .inr (.inr ⟨h, hh, rfl⟩)) ((beq_iff_eq.mp hverify).trans hrep.root)
    rw [hleaf] at hheld
    cases hget : (contents ops).get? key with
    | none =>
      cases value with
      | none => rfl
      | some v => exact absurd (hheld.trans (by rw [hget]; rfl)) (hzero v (.inr rfl))
    | some w =>
      rw [hget] at hheld
      rcases value with _ | v
      · exact absurd hheld.symm (hzero w (.inl hget))
      have hbytes := hfree _ _ (.inr (.inl ⟨v, rfl, rfl⟩)) (.inl (hm _ (hashed_leaf hget))) hheld
      rw [(List.cons.inj hbytes).2]

/-! ## A digest to compute with -/

/-- A node is one above the higher of its children, and every leaf is at 1000. -/
def peakCrypto : Crypto := digestCrypto fun p =>
  if p.length = 65 then natHash (max (ofLeBytes ((p.drop 1).take 32)) (ofLeBytes (p.drop 33)) + 1) else natHash 1000

theorem hashNode_peakCrypto {a b : ℕ} (ha : a < 256 ^ 32) (hb : b < 256 ^ 32) :
    hashNode peakCrypto (natHash a) (natHash b) = natHash (max a b + 1) := by
  have hlen : (1 :: ((natHash a).bytes ++ (natHash b).bytes)).length = 65 := by
    simp [(natHash a).length_eq, (natHash b).length_eq]
  have hleft : ((1 :: ((natHash a).bytes ++ (natHash b).bytes)).drop 1).take 32 = leBytes 32 a :=
    List.take_left' (natHash a).length_eq
  have hright : (1 :: ((natHash a).bytes ++ (natHash b).bytes)).drop 33 = leBytes 32 b := by
    rw [List.drop_succ_cons, List.drop_left' (natHash a).length_eq]
    rfl
  simp only [hashNode, peakCrypto, digestCrypto]
  rw [if_pos hlen, hleft, hright, ofLeBytes_leBytes 32 a ha, ofLeBytes_leBytes 32 b hb]

theorem defaultRoot_peakCrypto {h : ℕ} (hle : h ≤ treeHeight) : defaultRoot peakCrypto h = natHash h := by
  induction h with
  | zero => rfl
  | succ h ih =>
    have hlt : h < 256 ^ 32 := hle.trans (by decide)
    rw [defaultRoot]
    simp only [ih (by omega)]
    rw [hashNode_peakCrypto hlt hlt, max_self]

section Peak
variable {key : Hash} {v : Bytes}

/-- The strings hashed for a tree of one leaf: the leaf, the empty nodes and the nodes of its path. -/
def PeakString (key : Hash) (v p : Bytes) : Prop :=
  p = 0 :: v ∨ (∃ n < treeHeight, p = nodeBytes (natHash n, natHash n)) ∨
    ∃ n < treeHeight, p = nodeBytes (orderChildren key n (natHash (1000 + n)) (natHash n))

theorem digest_orderChildren_peak {n : ℕ} (hn : n < treeHeight) :
    peakCrypto.digest (nodeBytes (orderChildren key n (natHash (1000 + n)) (natHash n))) = natHash (1001 + n) := by
  have hbound : treeHeight + 1000 < 256 ^ 32 := by decide
  have hhigh : 1000 + n < 256 ^ 32 := by omega
  have hlow : n < 256 ^ 32 := by omega
  have hsucc : 1000 + n + 1 = 1001 + n := by omega
  unfold orderChildren
  split
  · exact (hashNode_peakCrypto hlow hhigh).trans (by rw [max_eq_right (by omega), hsucc])
  · exact (hashNode_peakCrypto hhigh hlow).trans (by rw [max_eq_left (by omega), hsucc])

theorem onPath_singleton (h : ℕ) : onPath key h [(key, v)] = [(key, v)] := by
  simp [onPath]

theorem offPath_singleton (h : ℕ) : offPath key h [(key, v)] = [] := by
  simp [offPath, onPath_singleton, onSide, turn]

theorem subtreeRoot_peakCrypto (key : Hash) (hv : v.length ≠ 64) {h : ℕ} (hle : h ≤ treeHeight) :
    subtreeRoot peakCrypto h [(key, v)] = natHash (1000 + h) := by
  induction h with
  | zero =>
    have hlen : (0 :: v).length ≠ 65 := by simpa using hv
    simp only [subtreeRoot, hashLeaf, peakCrypto, digestCrypto]
    rw [if_neg hlen]
  | succ h ih =>
    have hnode := subtreeRoot_onPath (C := peakCrypto) key (l := [(key, v)]) hle
    rw [onPath_singleton, onPath_singleton, offPath_singleton, ih (by omega), subtreeRoot_nil,
      defaultRoot_peakCrypto (by omega)] at hnode
    rw [hnode]
    exact (digest_orderChildren_peak hle).trans (by rw [show 1001 + h = 1000 + (h + 1) by omega])

theorem peakString_of_hashed_nil {h : ℕ} (hle : h ≤ treeHeight) {p : Bytes}
    (hp : Ledger.Hashed peakCrypto h [] p) : PeakString key v p := by
  induction h with
  | zero =>
    obtain ⟨e, he, -⟩ := hp
    cases he
  | succ h ih =>
    rcases hp with rfl | hp | hp
    · refine .inr (.inl ⟨h, hle, ?_⟩)
      simp only [onSide, List.filter_nil, subtreeRoot_nil, defaultRoot_peakCrypto (show h ≤ treeHeight by omega)]
      rfl
    · exact ih (by omega) hp
    · exact ih (by omega) hp

theorem peakString_of_hashed (hv : v.length ≠ 64) {h : ℕ} (hle : h ≤ treeHeight) {p : Bytes}
    (hp : Ledger.Hashed peakCrypto h [(key, v)] p) : PeakString key v p := by
  induction h with
  | zero =>
    obtain ⟨e, he, rfl⟩ := hp
    cases he
    exact .inl rfl
  | succ h ih =>
    have hbelow : ∀ side, Ledger.Hashed peakCrypto h (onSide h side [(key, v)]) p → PeakString key v p := by
      intro side hside
      by_cases hturn : side = turn key h
      · subst hturn
        rw [← onPath_singleton (h + 1), ← onPath_eq_onSide hle, onPath_singleton] at hside
        exact ih (by omega) hside
      · obtain rfl : side = !turn key h := Bool.eq_not.mpr hturn
        rw [← onPath_singleton (h + 1), ← offPath, offPath_singleton] at hside
        exact peakString_of_hashed_nil (by omega) hside
    rcases hp with rfl | hp | hp
    · refine .inr (.inr ⟨h, hle, ?_⟩)
      have hpair := orderChildren_onPath (C := peakCrypto) key (l := [(key, v)]) hle
      rw [onPath_singleton, onPath_singleton, offPath_singleton, subtreeRoot_peakCrypto key hv (by omega), subtreeRoot_nil,
        defaultRoot_peakCrypto (by omega)] at hpair
      rw [hpair]
      rfl
    · exact hbelow false hp
    · exact hbelow true hp

/-- The leaf, the empty nodes and the path sit at different heights. -/
theorem digest_peakString (hv : v.length ≠ 64) {p : Bytes} (hp : PeakString key v p) :
    ∃ n, peakCrypto.digest p = natHash n ∧ n < 256 ^ 32 ∧ ((n = 1000 ∧ p = 0 :: v) ∨
      (0 < n ∧ n ≤ treeHeight ∧ p = nodeBytes (natHash (n - 1), natHash (n - 1))) ∨
      (1000 < n ∧ p = nodeBytes (orderChildren key (n - 1001) (natHash (1000 + (n - 1001))) (natHash (n - 1001))))) := by
  have hbound : treeHeight + 1001 < 256 ^ 32 := by decide
  rcases hp with rfl | ⟨n, hn, rfl⟩ | ⟨n, hn, rfl⟩
  · exact ⟨1000, subtreeRoot_peakCrypto key hv (Nat.zero_le _), by omega, .inl ⟨rfl, rfl⟩⟩
  · have hlt : n < 256 ^ 32 := by omega
    refine ⟨n + 1, ?_, by omega, .inr (.inl ⟨by omega, hn, rfl⟩)⟩
    exact (hashNode_peakCrypto hlt hlt).trans (by rw [max_self])
  · refine ⟨1001 + n, digest_orderChildren_peak hn, by omega, .inr (.inr ⟨by omega, ?_⟩)⟩
    rw [Nat.add_sub_cancel_left]

theorem collisionFree_peakString (hv : v.length ≠ 64) : peakCrypto.CollisionFree (PeakString key v) := by
  intro p q hp hq heq
  obtain ⟨n, hdigest, hn, hpn⟩ := digest_peakString hv hp
  obtain ⟨n', hdigest', hn', hqn⟩ := digest_peakString hv hq
  rw [hdigest, hdigest'] at heq
  obtain rfl := natHash_inj hn hn' heq
  have hlow : treeHeight < 1000 := by decide
  rcases hpn with ⟨hn, rfl⟩ | ⟨hpos, hle, rfl⟩ | ⟨hhigh, rfl⟩ <;>
    rcases hqn with ⟨hn', rfl⟩ | ⟨hpos', hle', rfl⟩ | ⟨hhigh', rfl⟩ <;> first | rfl | omega

/-- Trees of one leaf, the same in both, are told apart from all others. -/
theorem separates_peakCrypto {L L' : Ledger} (hv : v.length ≠ 64) (h : L.commitment.entries = [(key, v)])
    (h' : L'.commitment.entries = [(key, v)]) : Ledger.Separates peakCrypto L L' := by
  have hstring : ∀ p, L.RootPreimage peakCrypto p ∨ L'.RootPreimage peakCrypto p → PeakString key v p := by
    intro p hp
    unfold Ledger.RootPreimage at hp
    rw [h, h'] at hp
    exact peakString_of_hashed hv le_rfl (hp.elim id id)
  refine ⟨(collisionFree_peakString hv).mono hstring, fun p hp heq => ?_⟩
  obtain ⟨n, hdigest, hn, hpn⟩ := digest_peakString hv (hstring p hp)
  have := natHash_inj hn (show 0 < 256 ^ 32 by decide) (hdigest.symm.trans (heq.trans rfl))
  omega

end Peak

/-- A key is inserted, removed and inserted again. -/
def sampleOps : List TreeOp := [.insert Hash.zero [1], .remove Hash.zero, .insert Hash.zero [1]]

/-- Its value is proved, and the same siblings do not prove its absence. -/
theorem reinserted_key_proved :
    ((run peakCrypto sampleOps).prove peakCrypto Hash.zero).verify peakCrypto (run peakCrypto sampleOps).root
        Hash.zero (some [1]) = true ∧
      ((run peakCrypto sampleOps).prove peakCrypto Hash.zero).verify peakCrypto (run peakCrypto sampleOps).root
        Hash.zero none = false := by
  have hstrings : ∀ p, TreeOp.Hashed peakCrypto sampleOps p → PeakString Hash.zero [1] p := by
    rintro p ⟨pre, hpre, hp⟩
    rcases List.prefix_cons_iff.mp hpre with rfl | ⟨rest, rfl, hrest⟩
    · exact peakString_of_hashed_nil le_rfl hp
    rcases List.prefix_cons_iff.mp hrest with rfl | ⟨rest', rfl, hrest'⟩
    · exact peakString_of_hashed (by decide) le_rfl hp
    rcases List.prefix_cons_iff.mp hrest' with rfl | ⟨rest'', rfl, hrest''⟩
    · exact peakString_of_hashed_nil le_rfl hp
    · obtain rfl := List.prefix_nil.mp hrest''
      exact peakString_of_hashed (by decide) le_rfl hp
  have hpeak : peakCrypto.CollisionFree (PeakString Hash.zero [1]) := collisionFree_peakString (by decide)
  have hC := hpeak.mono hstrings
  have hentries : (contents sampleOps).entries = [(Hash.zero, [1])] := rfl
  have hget : (contents sampleOps).get? Hash.zero = some [1] := by decide
  -- The siblings are the roots of empty subtrees, so the verifier walks up the path of the leaf.
  have hwalk : ∀ p, ((run peakCrypto sampleOps).prove peakCrypto Hash.zero).Hashed peakCrypto Hash.zero none p →
      PeakString Hash.zero [1] p := by
    rintro p (⟨v, hv, -⟩ | ⟨h, hh, rfl⟩)
    · cases hv
    have hsiblings := (represents_run hC).siblingsFor_eq hC (fun p hp => ⟨[], List.nil_prefix, hp⟩) Hash.zero
      fun p hp => ⟨sampleOps, List.prefix_refl _, hp⟩
    have hclimb := climb_eq (C := peakCrypto) (m := contents sampleOps) Hash.zero
      ((run peakCrypto sampleOps).siblingsFor peakCrypto Hash.zero) (fun h hh => by rw [hsiblings, siblings_getD hh])
      hh.le
    rw [hentries, onPath_singleton, subtreeRoot_peakCrypto _ (by decide) hh.le] at hclimb
    refine .inr (.inr ⟨h, hh, ?_⟩)
    simp only [SparseMerkleTree.prove, (represents_run hC).values, hclimb]
    rw [hsiblings, siblings_getD hh, hentries, offPath_singleton, subtreeRoot_nil, defaultRoot_peakCrypto hh.le]
  have hcorrect := sparse_tree_correct peakCrypto sampleOps hC
  have hproof := hcorrect.2.2.1 Hash.zero
  rw [hget] at hproof
  refine ⟨hproof, Bool.eq_false_iff.mpr fun hverify => ?_⟩
  have hleaf : ∀ v, (contents sampleOps).get? Hash.zero = some v ∨ none = some v → hashLeaf peakCrypto v ≠ Hash.zero := by
    rintro v (hv | hv)
    · cases hget.symm.trans hv
      decide
    · cases hv
  have habsent := hcorrect.2.2.2 Hash.zero none _ (hpeak.mono fun p hp => hp.elim (hstrings p) (hwalk p)) hleaf hverify
  cases habsent.trans hget

end Sov
