import SovChain.Lib.Frontier
import SovChain.State.Records
import Mathlib.Data.List.DropRight

/-!
# `sov-shielded-pq`: the note-commitment tree

Consensus keeps the tree of the post-quantum pool as a frontier (`FrontierPool`, the source's `ShieldedV2State`); wallets
keep all its leaves (`CommitmentTree`). The hash of an inner node, a Rescue permutation, is the parameter `merge`, and a
digest is its 32 bytes. The two agree on every sequence of notes (`frontier_refines_tree`), and the pool with the frontier
does what the one in `State.Records`, which takes the root of its notes as given, does (`FrontierPool.apply_simulates`).
-/

namespace Sov
open FixedBytes (pad)

def treeDepth : ℕ := 32

/-- One less than the leaves there are: a full frontier would look like an empty one. -/
def maxTreeLeaves : ℕ := 2 ^ treeDepth - 1

section
variable (merge : Hash → Hash → Hash)

/-- The digests of empty subtrees, by height. -/
def emptyLevels : ℕ → Hash := Frontier.emptyLevel merge Hash.zero

/-! ## The tree with all its leaves -/

/-- A membership witness: the leaf's position and one sibling per level, from the leaf up. -/
structure MerklePath where
  position : ℕ
  siblings : List Hash
  length_siblings : siblings.length = treeDepth

def MerklePath.computeRoot (path : MerklePath) (leaf : Hash) : Hash :=
  path.siblings.zipIdx.foldl
    (fun acc s => if path.position >>> s.2 &&& 1 = 0 then merge acc s.1 else merge s.1 acc) leaf

/-- The notes in order. The positions a wallet marks are left out: no other operation reads them. -/
structure CommitmentTree where
  leaves : List Hash
deriving DecidableEq

namespace CommitmentTree

def new : CommitmentTree := ⟨[]⟩

/-- Append a note; the second component is its position. -/
def append (t : CommitmentTree) (cm : Hash) : Option (CommitmentTree × ℕ) :=
  if maxTreeLeaves ≤ t.leaves.length then none else some (⟨t.leaves ++ [cm]⟩, t.leaves.length)

/-- The subtree of height `level` whose first leaf is `index <<< level`. -/
def subtreeHash (t : CommitmentTree) : ℕ → ℕ → Hash
  | 0, index => if t.leaves.length ≤ index <<< 0 then emptyLevels merge 0 else t.leaves.getD (index <<< 0) Hash.zero
  | level + 1, index =>
    if t.leaves.length ≤ index <<< (level + 1) then emptyLevels merge (level + 1)
    else merge (subtreeHash t level (index * 2)) (subtreeHash t level (index * 2 + 1))

def root (t : CommitmentTree) : Hash := t.subtreeHash merge treeDepth 0

/-- The siblings of `n` levels, from `level` up. -/
def siblings (t : CommitmentTree) : ℕ → ℕ → ℕ → List Hash
  | 0, _, _ => []
  | n + 1, level, index => t.subtreeHash merge level (index ^^^ 1) :: siblings t n (level + 1) (index >>> 1)

theorem length_siblings (t : CommitmentTree) (n level index : ℕ) : (t.siblings merge n level index).length = n := by
  induction n generalizing level index with
  | zero => rfl
  | succ n ih => rw [siblings, List.length_cons, ih]

/-- The path of the leaf at `position`, and the root it leads to. -/
def witness (t : CommitmentTree) (position : ℕ) : Option (MerklePath × Hash) :=
  if t.leaves.length ≤ position then none
  else some (⟨position, t.siblings merge treeDepth 0 position, t.length_siblings merge _ _ _⟩, t.root merge)

end CommitmentTree

/-! ## The pool with a frontier -/

def frontierRoot (ommers : List Hash) (size : ℕ) : Hash :=
  ommers.zipIdx.foldl
    (fun acc o => if size >>> o.2 &&& 1 = 1 then merge o.1 acc else merge acc (emptyLevels merge o.2))
    (emptyLevels merge 0)

/-- Add the leaf at index `size`; `none` if it would complete the tree. -/
def frontierAppend (ommers : List Hash) (size : ℕ) (cm : Hash) : Option (List Hash) :=
  Frontier.append merge ommers size cm

/-- The state of the post-quantum pool as the source keeps it. -/
structure FrontierPool where
  ommers : List Hash
  size : ℕ
  anchorRing : List Hash
  nullifiers : OrdMap Hash Unit
  commitments : List Hash

namespace FrontierPool
open ShieldedV2State (maxV2Notes anchorRingLen isCanonical)

/-- The pool without its frontier. -/
def toPool (p : FrontierPool) : ShieldedV2State := ⟨p.anchorRing, p.nullifiers, p.commitments⟩

def new : FrontierPool where
  ommers := List.replicate treeDepth Hash.zero
  size := 0
  anchorRing := [emptyLevels merge treeDepth]
  nullifiers := .empty
  commitments := []

def root (p : FrontierPool) : Hash := frontierRoot merge p.ommers p.size

def appendCommitment (p : FrontierPool) (cm : Hash) : Except ShieldedV2StateError FrontierPool :=
  if maxV2Notes ≤ p.size then .error .treeFull
  else
    match frontierAppend merge p.ommers p.size cm with
    | none => .error .treeFull
    | some ommers =>
      let ring := p.anchorRing ++ [frontierRoot merge ommers (p.size + 1)]
      .ok
        { ommers
          size := p.size + 1
          anchorRing := ring.drop (ring.length - anchorRingLen)
          nullifiers := p.nullifiers
          commitments := p.commitments ++ [cm] }

/-- Append notes in order. -/
def appendAll (p : FrontierPool) : List Hash → Except ShieldedV2StateError FrontierPool
  | [] => .ok p
  | cm :: rest =>
    match p.appendCommitment merge cm with
    | .error e => .error e
    | .ok p => p.appendAll rest

/-- Apply a bundle's nullifiers and notes after every check has passed; the second component is the error. The notes are
appended with `expect`: `none` is a panic. -/
def apply (p : FrontierPool) (nullifiers commitments : List Hash) :
    Option (FrontierPool × Option ShieldedV2StateError) :=
  if maxV2Notes < p.size + commitments.length then some (p, some .treeFull)
  else if commitments.contains Hash.zero then some (p, some .zeroDigest)
  else if !commitments.all isCanonical then some (p, some (.decode "commitment"))
  else
    match p.toPool.checkNullifiers [] nullifiers with
    | .error e => some (p, some e)
    | .ok _ =>
      match appendAll merge { p with nullifiers := nullifiers.foldl (fun m nf => m.insert nf ()) p.nullifiers }
        commitments with
      | .error _ => none
      | .ok p => some (p, none)

end FrontierPool

/-! ## The tree as blocks of leaves -/

/-- The leaves of the tree that holds `cms`. -/
def leafAt (cms : List Hash) (i : ℕ) : Hash := cms.getD i Hash.zero

/-- The root of the tree that holds `cms`. -/
def treeRoot (cms : List Hash) : Hash := CommitmentTree.root merge ⟨cms⟩

/-- The roots of the trees that hold the first notes of `cms`, from the empty one on. -/
def pastRoots (cms : List Hash) : List Hash := (List.range (cms.length + 1)).map fun k => treeRoot merge (cms.take k)

end

variable {merge : Hash → Hash → Hash} {cms : List Hash}

theorem leafAt_of_le {i : ℕ} (h : cms.length ≤ i) : leafAt cms i = Hash.zero :=
  List.getD_eq_default _ _ h

theorem leafAt_append {cm : Hash} {i : ℕ} (h : i < cms.length) :
    leafAt (cms ++ [cm]) i = leafAt cms i := List.getD_append _ _ _ _ h

theorem leafAt_append_self (cms : List Hash) (cm : Hash) : leafAt (cms ++ [cm]) cms.length = cm := by
  rw [leafAt, List.getD_append_right _ _ _ _ le_rfl, Nat.sub_self]
  rfl

namespace CommitmentTree

theorem subtreeHash_eq (t : CommitmentTree) (level index : ℕ) :
    t.subtreeHash merge level index = Frontier.node merge (leafAt t.leaves) level index := by
  induction level generalizing index with
  | zero =>
    rw [subtreeHash, Nat.shiftLeft_zero]
    by_cases h : t.leaves.length ≤ index
    · rw [if_pos h]
      exact (leafAt_of_le h).symm
    · rw [if_neg h]
      rfl
  | succ level ih =>
    rw [subtreeHash, Nat.shiftLeft_eq]
    by_cases h : t.leaves.length ≤ index * 2 ^ (level + 1)
    · rw [if_pos h, Frontier.node_empty fun j hj => leafAt_of_le (h.trans hj)]
      rfl
    · rw [if_neg h, ih, ih, Nat.mul_comm index 2]
      rfl

theorem siblings_eq (t : CommitmentTree) (n level index : ℕ) :
    t.siblings merge n level index = Frontier.siblings merge (leafAt t.leaves) n level index := by
  induction n generalizing level index with
  | zero => rfl
  | succ n ih => rw [siblings, Frontier.siblings, subtreeHash_eq, ih, Nat.shiftRight_one]

theorem root_eq (t : CommitmentTree) : t.root merge = Frontier.node merge (leafAt t.leaves) treeDepth 0 :=
  subtreeHash_eq t _ _

/-- The loop over the siblings, from `level` up. -/
theorem foldl_zipIdx_eq_climb (position level : ℕ) (siblings : List Hash) (acc : Hash) : (siblings.zipIdx level).foldl
        (fun acc s => if position >>> s.2 &&& 1 = 0 then merge acc s.1 else merge s.1 acc) acc =
      Frontier.climb merge siblings (position >>> level) acc := by
  induction siblings generalizing level acc with
  | nil => rfl
  | cons s rest ih =>
    have hhalf : position >>> level / 2 = position >>> (level + 1) := (Nat.shiftRight_succ _ _).symm
    rw [List.zipIdx_cons, List.foldl_cons, ih, Frontier.climb, Nat.and_one_is_mod, hhalf]

theorem witness_spec {t : CommitmentTree} (hlen : t.leaves.length ≤ 2 ^ treeDepth) {i : ℕ} (hi : i < t.leaves.length) :
    ∃ path, t.witness merge i = some (path, t.root merge) ∧ path.position = i ∧
      path.computeRoot merge (leafAt t.leaves i) = t.root merge := by
  refine ⟨_, if_neg (Nat.not_le.mpr hi), rfl, ?_⟩
  have hclimb := @Frontier.climb_siblings _ merge (leafAt t.leaves) treeDepth 0 i
  rw [Nat.div_eq_of_lt (hi.trans_le hlen), Nat.zero_add] at hclimb
  rw [MerklePath.computeRoot, foldl_zipIdx_eq_climb]
  change Frontier.climb merge (t.siblings merge treeDepth 0 i) (i >>> 0) _ = _
  rw [siblings_eq, Nat.shiftRight_zero, root_eq, ← hclimb]
  rfl

end CommitmentTree

/-! ## The frontier along a run -/

theorem foldl_zipIdx_eq_rootFrom (size level : ℕ) (ommers : List Hash) (acc : Hash) : (ommers.zipIdx level).foldl
        (fun acc o => if size >>> o.2 &&& 1 = 1 then merge o.1 acc else merge acc (emptyLevels merge o.2)) acc =
      Frontier.rootFrom merge Hash.zero level ommers (size >>> level) acc := by
  induction ommers generalizing level acc with
  | nil => rfl
  | cons ommer rest ih =>
    have hhalf : size >>> level / 2 = size >>> (level + 1) := (Nat.shiftRight_succ _ _).symm
    rw [List.zipIdx_cons, List.foldl_cons, ih, Frontier.rootFrom, Nat.and_one_is_mod, hhalf]
    rfl

theorem frontierRoot_eq {ommers : List Hash}
    (hstands : Frontier.Stands merge (leafAt cms) 0 ommers cms.length) (hommers : ommers.length = treeDepth)
    (hlen : cms.length < 2 ^ treeDepth) : frontierRoot merge ommers cms.length = treeRoot merge cms := by
  have hnext : emptyLevels merge 0 = Frontier.node merge (leafAt cms) 0 cms.length := (leafAt_of_le le_rfl).symm
  have hroot := Frontier.rootFrom_eq hstands (fun j hj => leafAt_of_le hj) (Nat.lt_of_lt_of_eq (Nat.lt_succ_self _) (by simp))
  rw [hommers, Nat.div_eq_of_lt hlen, Nat.zero_add] at hroot
  rw [frontierRoot, foldl_zipIdx_eq_rootFrom, Nat.shiftRight_zero, hnext, hroot]
  exact (CommitmentTree.root_eq _).symm

theorem pastRoots_append (cms : List Hash) (cm : Hash) :
    pastRoots merge (cms ++ [cm]) = pastRoots merge cms ++ [treeRoot merge (cms ++ [cm])] := by
  unfold pastRoots
  rw [List.length_append, List.length_singleton, List.range_succ, List.map_append, List.map_singleton,
    List.take_of_length_le (by simp)]
  congr 1
  refine List.map_congr_left fun k hk => ?_
  rw [List.take_append_of_le_length (by have := List.mem_range.mp hk; omega)]

theorem rtake_rtake_append {α : Type} (l : List α) (x : α) (n : ℕ) :
    (l.rtake n ++ [x]).rtake n = (l ++ [x]).rtake n := by
  rcases n with _ | n
  · rw [List.rtake_zero, List.rtake_zero]
  · rw [List.rtake_concat_succ, List.rtake_concat_succ, List.rtake_eq_reverse_take_reverse,
      List.rtake_eq_reverse_take_reverse, List.reverse_reverse, List.take_take, Nat.min_eq_left (Nat.le_succ n),
      ← List.rtake_eq_reverse_take_reverse]

namespace FrontierPool
open ShieldedV2State (maxV2Notes anchorRingLen)

/-- The pool describes the tree of its notes. -/
structure Consistent (merge : Hash → Hash → Hash) (p : FrontierPool) : Prop where
  size_eq : p.size = p.commitments.length
  size_le : p.size ≤ maxV2Notes
  length_ommers : p.ommers.length = treeDepth
  stands : Frontier.Stands merge (leafAt p.commitments) 0 p.ommers p.size
  ring : p.anchorRing = (pastRoots merge p.commitments).rtake anchorRingLen

variable {p p' : FrontierPool} {cm : Hash} {cms nullifiers : List Hash}

theorem maxV2Notes_lt : maxV2Notes + 1 = 2 ^ treeDepth := rfl

theorem Consistent.new : (FrontierPool.new merge).Consistent merge where
  size_eq := rfl
  size_le := Nat.zero_le _
  length_ommers := List.length_replicate
  stands := Frontier.stands_zero _ _
  ring := by
    have hroots : pastRoots merge [] = [emptyLevels merge treeDepth] := rfl
    have hshort : [emptyLevels merge treeDepth].length - anchorRingLen = 0 := by
      rw [List.length_singleton]
      decide
    rw [FrontierPool.new, hroots, List.rtake, hshort, List.drop_zero]

theorem Consistent.root (h : p.Consistent merge) : p.root merge = treeRoot merge p.commitments := by
  have hlen : p.commitments.length < 2 ^ treeDepth := by
    rw [← h.size_eq, ← maxV2Notes_lt]
    exact Nat.lt_succ_of_le h.size_le
  have hstands := h.stands
  rw [h.size_eq] at hstands
  rw [FrontierPool.root, h.size_eq, frontierRoot_eq hstands h.length_ommers hlen]

/-- What an append changes beside the frontier. -/
structure Appended (merge : Hash → Hash → Hash) (p : FrontierPool) (cm : Hash) (p' : FrontierPool) : Prop where
  commitments : p'.commitments = p.commitments ++ [cm]
  nullifiers : p'.nullifiers = p.nullifiers
  ring : p'.anchorRing = (p.anchorRing ++ [treeRoot merge (p.commitments ++ [cm])]).rtake anchorRingLen

theorem Appended.toPool {C : Crypto} (h : Appended merge p cm p') (hC : C.pqRoot = treeRoot merge) :
    p'.toPool = p.toPool.appendCommitment C cm := by
  unfold FrontierPool.toPool ShieldedV2State.appendCommitment
  rw [h.commitments, h.nullifiers, h.ring, hC, List.rtake]

/-- One append: below the limit it succeeds, and the pool describes the tree with the new note. -/
theorem Consistent.appendCommitment (h : p.Consistent merge) (hroom : p.size < maxV2Notes) (cm : Hash) :
    ∃ p', p.appendCommitment merge cm = .ok p' ∧ p'.Consistent merge ∧ Appended merge p cm p' := by
  have hfits : p.size + 1 < 2 ^ p.ommers.length := by
    rw [h.length_ommers, ← maxV2Notes_lt]
    omega
  obtain ⟨ommers, happend, hommers⟩ : ∃ ommers, Frontier.append merge p.ommers p.size cm = some ommers ∧
      ommers.length = p.ommers.length := Frontier.exists_append cm hfits
  have hleaf : Frontier.node merge (leafAt (p.commitments ++ [cm])) 0 p.size = cm := by
    rw [h.size_eq]
    exact leafAt_append_self _ _
  have hstands : Frontier.Stands merge (leafAt (p.commitments ++ [cm])) 0 ommers (p.size + 1) := by
    have hsame : ∀ j < p.size, leafAt p.commitments j = leafAt (p.commitments ++ [cm]) j := by
      intro j hj
      rw [h.size_eq] at hj
      exact (leafAt_append hj).symm
    refine h.stands.append hsame (by rw [Nat.pow_zero, Nat.mul_one]) ?_
    rw [hleaf]
    exact happend
  have hsize : p.size + 1 = (p.commitments ++ [cm]).length := by
    rw [h.size_eq, List.length_append, List.length_singleton]
  have hroot : frontierRoot merge ommers (p.size + 1) = treeRoot merge (p.commitments ++ [cm]) := by
    rw [hsize] at hstands ⊢
    refine frontierRoot_eq hstands (hommers.trans h.length_ommers) ?_
    rw [← hsize, ← maxV2Notes_lt]
    omega
  unfold FrontierPool.appendCommitment frontierAppend
  rw [if_neg (Nat.not_le.mpr hroom), happend]
  refine ⟨_, rfl, ⟨hsize, hroom, hommers.trans h.length_ommers, hstands, ?_⟩, rfl, rfl, ?_⟩
  · dsimp only
    rw [← List.rtake, hroot, pastRoots_append, h.ring, rtake_rtake_append]
  · dsimp only
    rw [← List.rtake, hroot]

theorem Consistent.appendAll (h : p.Consistent merge) (hroom : p.size + cms.length ≤ maxV2Notes) :
    ∃ p', p.appendAll merge cms = .ok p' ∧ p'.Consistent merge ∧ p'.commitments = p.commitments ++ cms ∧
      ∀ C : Crypto, C.pqRoot = treeRoot merge → p'.toPool = cms.foldl (ShieldedV2State.appendCommitment C) p.toPool := by
  induction cms generalizing p with
  | nil => exact ⟨p, rfl, h, (List.append_nil _).symm, fun _ _ => rfl⟩
  | cons cm rest ih =>
    rw [List.length_cons] at hroom
    obtain ⟨p1, happend, h1, happended⟩ := h.appendCommitment (by omega) cm
    have hsize1 : p1.size = p.size + 1 := by
      rw [h1.size_eq, happended.commitments, h.size_eq, List.length_append, List.length_singleton]
    obtain ⟨p2, hrest, h2, hcms2, hpool2⟩ := ih h1 (by omega)
    refine ⟨p2, ?_, h2, ?_, fun C hC => ?_⟩
    · rw [FrontierPool.appendAll, happend]
      exact hrest
    · rw [hcms2, happended.commitments, List.append_assoc, List.singleton_append]
    · rw [hpool2 C hC, happended.toPool hC, List.foldl_cons]

/-- On a pool that describes its notes, applying a bundle does not panic, keeps that, and does what it does on the pool
without a frontier. -/
theorem apply_simulates {C : Crypto} (hC : C.pqRoot = treeRoot merge) (h : p.Consistent merge)
    (nullifiers commitments : List Hash) :
    ∃ p' e, p.apply merge nullifiers commitments = some (p', e) ∧ p'.Consistent merge ∧
      p.toPool.apply C nullifiers commitments = e.elim (.ok p'.toPool) .error := by
  have hsize : p.size + commitments.length = p.toPool.commitments.length + commitments.length := by
    rw [h.size_eq]
    rfl
  unfold FrontierPool.apply ShieldedV2State.apply
  rw [hsize]
  split_ifs with hfull hzero hcanonical
  · exact ⟨p, _, rfl, h, rfl⟩
  · exact ⟨p, _, rfl, h, rfl⟩
  · exact ⟨p, _, rfl, h, rfl⟩
  rcases p.toPool.checkNullifiers [] nullifiers with e | u
  · exact ⟨p, _, rfl, h, rfl⟩
  have hspent : ({ p with nullifiers := nullifiers.foldl (fun m nf => m.insert nf ()) p.nullifiers } :
      FrontierPool).Consistent merge := ⟨h.size_eq, h.size_le, h.length_ommers, h.stands, h.ring⟩
  have hroom : p.size + commitments.length ≤ maxV2Notes := by
    rw [hsize]
    exact Nat.not_lt.mp hfull
  obtain ⟨p', happend, h', -, hpool⟩ := hspent.appendAll hroom
  refine ⟨p', none, ?_, h', ?_⟩
  · dsimp only
    rw [happend]
  · exact congrArg Except.ok (hpool C hC).symm

theorem apply_refused {commitments : List Hash} {e : ShieldedV2StateError}
    (h : p.apply merge nullifiers commitments = some (p', some e)) : p' = p := by
  unfold FrontierPool.apply at h
  split_ifs at h
  · cases h
    rfl
  · cases h
    rfl
  · cases h
    rfl
  split at h
  · cases h
    rfl
  · split at h
    · cases h
    · cases h

/-- Whatever bundles are tried, the pool with a frontier does not panic and shows what the pool without one shows. -/
theorem bundles_simulate (C : Crypto) (merge : Hash → Hash → Hash) (bundles : List (List Hash × List Hash)) :
    ∃ p, bundles.foldlM (fun p b => (p.apply merge b.1 b.2).map Prod.fst) (FrontierPool.new merge) = some p ∧
      p.Consistent merge ∧ p.toPool = bundles.foldl (fun q b =>
        (q.apply { C with pqRoot := treeRoot merge } b.1 b.2).toOption.getD q) (FrontierPool.new merge).toPool := by
  have hnew : (FrontierPool.new merge).Consistent merge := .new
  generalize FrontierPool.new merge = p at hnew
  induction bundles generalizing p with
  | nil => exact ⟨p, rfl, hnew, rfl⟩
  | cons b rest ih =>
    obtain ⟨p1, e, hp, h1, hplain⟩ := apply_simulates (C := { C with pqRoot := treeRoot merge }) rfl hnew b.1 b.2
    obtain ⟨p2, hrest, h2, hpool⟩ := ih p1 h1
    refine ⟨p2, ?_, h2, ?_⟩
    · rw [List.foldlM_cons, hp]
      exact hrest
    · rw [hpool, List.foldl_cons, hplain]
      cases e with
      | none => rfl
      | some e => rw [apply_refused hp]; rfl

end FrontierPool

/-! ## Every sequence of notes -/

/-- Append notes to the tree with all its leaves. -/
def CommitmentTree.appendAll (t : CommitmentTree) : List Hash → Option CommitmentTree
  | [] => some t
  | cm :: rest =>
    match t.append cm with
    | none => none
    | some r => r.1.appendAll rest

theorem CommitmentTree.appendAll_eq {t : CommitmentTree} (h : t.leaves.length + cms.length ≤ maxTreeLeaves) :
    t.appendAll cms = some ⟨t.leaves ++ cms⟩ := by
  induction cms generalizing t with
  | nil => rw [List.append_nil]; rfl
  | cons cm rest ih =>
    rw [List.length_cons] at h
    have hroom : ¬maxTreeLeaves ≤ t.leaves.length := by omega
    rw [CommitmentTree.appendAll, CommitmentTree.append, if_neg hroom]
    dsimp only
    rw [ih (by rw [List.length_append, List.length_singleton]; omega), List.append_assoc, List.singleton_append]

/-- For every sequence of notes within the limit, the frontier has the root of the tree that holds them; every note has a
path to it; and the ring is the latest of the roots the tree has had. -/
theorem frontier_refines_tree (merge : Hash → Hash → Hash) (cms : List Hash)
    (hlen : cms.length ≤ ShieldedV2State.maxV2Notes) :
    ∃ p t, (FrontierPool.new merge).appendAll merge cms = .ok p ∧ CommitmentTree.new.appendAll cms = some t ∧
      p.commitments = cms ∧ t.leaves = cms ∧ p.root merge = t.root merge ∧
      (∀ i (hi : i < cms.length), ∃ path, t.witness merge i = some (path, t.root merge) ∧ path.position = i ∧
        path.computeRoot merge cms[i] = t.root merge) ∧
      p.anchorRing = (((List.range (cms.length + 1)).map fun k => (CommitmentTree.mk (cms.take k)).root merge).drop
        (cms.length + 1 - ShieldedV2State.anchorRingLen)) := by
  have hnew : (FrontierPool.new merge).Consistent merge := .new
  have hroom : (FrontierPool.new merge).size + cms.length ≤ ShieldedV2State.maxV2Notes := by
    rw [FrontierPool.new, Nat.zero_add]
    exact hlen
  obtain ⟨p, happend, h, hcms, -⟩ := hnew.appendAll hroom
  have hcms : p.commitments = cms := hcms
  have htree : CommitmentTree.new.appendAll cms = some ⟨cms⟩ :=
    CommitmentTree.appendAll_eq (by rw [CommitmentTree.new, List.length_nil, Nat.zero_add]; exact hlen)
  have hring : p.anchorRing = (pastRoots merge cms).rtake ShieldedV2State.anchorRingLen := by rw [h.ring, hcms]
  have hcount : (pastRoots merge cms).length = cms.length + 1 := by rw [pastRoots, List.length_map, List.length_range]
  refine ⟨p, ⟨cms⟩, happend, htree, hcms, rfl, ?_, fun i hi => ?_, ?_⟩
  · rw [h.root, hcms]
    rfl
  · have hbound : cms.length ≤ 2 ^ treeDepth := hlen.trans (Nat.sub_le _ _)
    have hleaf : leafAt cms i = cms[i] := List.getD_eq_getElem _ _ hi
    rw [← hleaf]
    exact CommitmentTree.witness_spec (t := ⟨cms⟩) hbound hi
  · rw [hring, List.rtake, hcount]
    rfl

/-- Three notes, under a hash that mixes the halves of its arguments. -/
theorem three_notes_refine_tree :
    ∃ p t, (FrontierPool.new fun a b => pad 32 ((a.bytes ++ b.bytes).drop 16)).appendAll
        (fun a b => pad 32 ((a.bytes ++ b.bytes).drop 16))
        [pad 32 [1], pad 32 [2], pad 32 [3]] = .ok p ∧
      CommitmentTree.new.appendAll [pad 32 [1], pad 32 [2], pad 32 [3]] = some t ∧
      p.root (fun a b => pad 32 ((a.bytes ++ b.bytes).drop 16)) =
        t.root fun a b => pad 32 ((a.bytes ++ b.bytes).drop 16) := by
  obtain ⟨p, t, hp, ht, -, -, hroot, -⟩ := frontier_refines_tree
    (fun a b => pad 32 ((a.bytes ++ b.bytes).drop 16))
    [pad 32 [1], pad 32 [2], pad 32 [3]] (by decide)
  exact ⟨p, t, hp, ht, hroot⟩

end Sov
