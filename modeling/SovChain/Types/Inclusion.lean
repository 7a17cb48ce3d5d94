import SovChain.Lib.HashTree
import SovChain.Types.Block

/-!
# `sov-crypto` and `sov-types`: inclusion proofs

The Merkle root over a list is the root of a binary tree with the list as its leaves. While the digest has no
collision between the strings that are hashed, the root determines the list, and the only paths that lead to it are
the proofs of its positions.
-/

namespace Sov
open HashTree (Above climb getElem?_pairUp join length_pairUp pairUp)
open FixedBytes (bytes_injective length_eq)
open List (append_assoc getElem?_map length_map map_cons map_map mem_append_left mem_append_right mem_cons_of_mem
  mem_cons_self)
open Codec

/-- One level of a proof. -/
abbrev MerkleStep := HashTree.Step Hash

namespace MerkleTree

/-- The siblings on the way up from a position; a lone last node has none. -/
def siblings (C : Crypto) : ℕ → List Hash → ℕ → List MerkleStep
  | 0, _, _ => []
  | n + 1, level, idx =>
    if level.length ≤ 1 then []
    else
      let siblingIsLeft := idx % 2 == 1
      let siblingIdx := if siblingIsLeft then idx - 1 else idx + 1
      let rest := siblings C n (nextLevel C level) (idx / 2)
      match level[siblingIdx]? with
      | none => rest
      | some sibling => ⟨sibling, siblingIsLeft⟩ :: rest

end MerkleTree

/-- The siblings that prove the leaf at `index`. -/
def merkleProof (C : Crypto) (leaves : List Hash) (index : ℕ) : Option (List MerkleStep) :=
  if leaves.length ≤ index then none
  else some (MerkleTree.siblings C leaves.length (leaves.map (MerkleTree.hashLeaf C)) index)

/-- Fold a proof from its leaf and compare with the root. -/
def verifyMerkleProof (C : Crypto) (leaf : Hash) (proof : List MerkleStep) (root : Hash) : Bool :=
  proof.foldl
    (fun acc step =>
      if step.siblingIsLeft then MerkleTree.hashNode C step.sibling acc else MerkleTree.hashNode C acc step.sibling)
    (MerkleTree.hashLeaf C leaf) = root

structure ReceiptProof where
  index : U32
  siblings : List MerkleStep

def verifyReceiptProof (C : Crypto) (receipt : Receipt) (proof : ReceiptProof) (root : Hash) : Bool :=
  verifyMerkleProof C (receipt.hash C) proof.siblings root

/-! ## The strings that are hashed -/

namespace MerkleTree

def leafPreimage (leaf : Hash) : Bytes := 0 :: leaf.bytes

def nodePreimage (left right : Hash) : Bytes := 1 :: (left.bytes ++ right.bytes)

/-- The strings hashed for the level above. -/
def levelPreimages : List Hash → List Bytes
  | left :: right :: rest => nodePreimage left right :: levelPreimages rest
  | _ => []

/-- The strings hashed for the nodes above a level. -/
def reducePreimages (C : Crypto) : ℕ → List Hash → List Bytes
  | 0, _ => []
  | n + 1, level => levelPreimages level ++ reducePreimages C n (nextLevel C level)

/-- The strings hashed along a proof. -/
def climbPreimages (C : Crypto) : Hash → List MerkleStep → List Bytes
  | _, [] => []
  | acc, step :: steps =>
    nodePreimage (step.children acc).1 (step.children acc).2 ::
      climbPreimages C (hashNode C (step.children acc).1 (step.children acc).2) steps

end MerkleTree

/-- The strings hashed for a root. -/
def merkleRootPreimages (C : Crypto) (leaves : List Hash) : List Bytes :=
  if leaves.isEmpty then [[0]]
  else leaves.map MerkleTree.leafPreimage ++
    MerkleTree.reducePreimages C leaves.length (leaves.map (MerkleTree.hashLeaf C))

/-- The strings hashed to verify a proof. -/
def verifyPreimages (C : Crypto) (leaf : Hash) (proof : List MerkleStep) : List Bytes :=
  MerkleTree.leafPreimage leaf :: MerkleTree.climbPreimages C (MerkleTree.hashLeaf C leaf) proof

/-! ## The tree over a list -/

namespace MerkleTree
variable {C : Crypto} {S : Bytes → Prop} {t : HashTree Hash} {ts : List (HashTree Hash)} {n : ℕ} {u : HashTree Hash}

abbrev rootOf (C : Crypto) (t : HashTree Hash) : Hash := t.root (hashLeaf C) (hashNode C)

/-- The strings hashed for the tree are in `S`. -/
abbrev HashedIn (C : Crypto) (S : Bytes → Prop) (t : HashTree Hash) : Prop :=
  t.Hashes (hashLeaf C) (hashNode C) (fun l => S (leafPreimage l)) fun l r => S (nodePreimage l r)

/-- A digest without collisions tells leaves and nodes apart: their strings have different tags. -/
theorem separated (hS : C.CollisionFree S) :
    HashTree.Separated (hashLeaf C) (hashNode C) (fun l => S (leafPreimage l)) fun l r => S (nodePreimage l r) where
  leaf_inj ha hb h := bytes_injective (List.cons.inj (hS _ _ ha hb h)).2
  node_inj h h' heq := by
    obtain ⟨hl, hr⟩ := List.append_inj (List.cons.inj (hS _ _ h h' heq)).2
      (by rw [length_eq, length_eq])
    exact ⟨bytes_injective hl, bytes_injective hr⟩
  leaf_ne_node ha hn heq := by
    have htag := (List.cons.inj (hS _ _ ha hn heq)).1
    exact absurd htag (by decide)

theorem nextLevel_rootOf (ts : List (HashTree Hash)) :
    nextLevel C (ts.map (rootOf C)) = (pairUp ts).map (rootOf C) := by
  induction ts using HashTree.pairUp.induct with
  | case1 l r rest ih =>
    rw [pairUp, map_cons, map_cons, map_cons, ← ih]
    rfl
  | case2 rest h =>
    rw [pairUp]
    · rcases rest with _ | ⟨l, _ | ⟨r, rest⟩⟩
      · rfl
      · rfl
      · exact absurd rfl (h l r rest)
    · exact h

theorem reduce_rootOf (h : join n ts = some t) : reduce C n (ts.map (rootOf C)) = rootOf C t := by
  induction n generalizing ts with
  | zero =>
    rcases ts with _ | ⟨l, _ | ⟨r, rest⟩⟩
    · cases h
    · cases h
      rfl
    · cases h
      rfl
  | succ n ih =>
    rcases ts with _ | ⟨l, _ | ⟨r, rest⟩⟩
    · cases h
    · cases h
      rfl
    · have hnext := ih h
      rw [← nextLevel_rootOf] at hnext
      exact hnext

theorem mem_levelPreimages {l r : HashTree Hash} {rest : List (HashTree Hash)} {p : Bytes}
    (h : p ∈ levelPreimages (rest.map (rootOf C))) :
    p ∈ levelPreimages ((l :: r :: rest).map (rootOf C)) := mem_cons_of_mem _ h

theorem hashes_pairUp (hts : ∀ t ∈ ts, HashedIn C S t) (hS : ∀ p ∈ levelPreimages (ts.map (rootOf C)), S p) :
    ∀ t ∈ pairUp ts, HashedIn C S t := by
  induction ts using HashTree.pairUp.induct with
  | case1 l r rest ih =>
    intro t ht
    rw [pairUp] at ht
    rcases List.mem_cons.mp ht with rfl | ht
    · exact ⟨hS _ mem_cons_self, hts l (by simp), hts r (by simp)⟩
    · exact ih (fun u hu => hts u (by simp [hu])) (fun p hp => hS p (mem_levelPreimages hp)) t ht
  | case2 rest h =>
    rw [pairUp]
    · exact hts
    · exact h

theorem hashes_join (hts : ∀ t ∈ ts, HashedIn C S t)
    (hS : ∀ p ∈ reducePreimages C n (ts.map (rootOf C)), S p) (h : join n ts = some t) : HashedIn C S t := by
  induction n generalizing ts with
  | zero =>
    rcases ts with _ | ⟨l, _ | ⟨r, rest⟩⟩
    · cases h
    · cases h
      exact hts t (by simp)
    · cases h
      exact hts t (by simp)
  | succ n ih =>
    rcases ts with _ | ⟨l, _ | ⟨r, rest⟩⟩
    · cases h
    · cases h
      exact hts t (by simp)
    refine ih (hashes_pairUp hts fun p hp => hS p ?_) (fun p hp => hS p ?_) h
    · exact mem_append_left _ hp
    · rw [← nextLevel_rootOf] at hp
      exact mem_append_right _ hp

theorem siblings_of_length_le {level : List Hash} (h : level.length ≤ 1) (idx : ℕ) : siblings C n level idx = [] := by
  cases n with
  | zero => rfl
  | succ n => exact if_pos h

section Level
variable {k : ℕ} {l r : HashTree Hash}

theorem siblings_left (hr : ts[2 * k + 1]? = some r) : siblings C (n + 1) (ts.map (rootOf C)) (2 * k) =
      ⟨rootOf C r, false⟩ :: siblings C n ((pairUp ts).map (rootOf C)) k := by
  have hlong := (List.getElem?_eq_some_iff.mp hr).1
  have hside : (2 * k % 2 == 1) = false := by simp
  have hget : (ts.map (rootOf C))[2 * k + 1]? = some (rootOf C r) := by rw [getElem?_map, hr]; rfl
  rw [siblings, if_neg (by rw [length_map]; omega)]
  dsimp only
  rw [hside, if_neg Bool.false_ne_true, hget, nextLevel_rootOf, Nat.mul_div_cancel_left k (by decide)]

theorem siblings_right (hl : ts[2 * k]? = some l) (hr : ts[2 * k + 1]? = some r) :
    siblings C (n + 1) (ts.map (rootOf C)) (2 * k + 1) =
      ⟨rootOf C l, true⟩ :: siblings C n ((pairUp ts).map (rootOf C)) k := by
  have hlong := (List.getElem?_eq_some_iff.mp hr).1
  have hside : ((2 * k + 1) % 2 == 1) = true := by simp
  have hget : (ts.map (rootOf C))[2 * k]? = some (rootOf C l) := by rw [getElem?_map, hl]; rfl
  have hhalf : (2 * k + 1) / 2 = k := by omega
  rw [siblings, if_neg (by rw [length_map]; omega)]
  dsimp only
  rw [hside, if_pos rfl, Nat.add_sub_cancel, hget, nextLevel_rootOf, hhalf]

theorem siblings_lone (hlong : 1 < ts.length) (hr : ts[2 * k + 1]? = none) :
    siblings C (n + 1) (ts.map (rootOf C)) (2 * k) = siblings C n ((pairUp ts).map (rootOf C)) k := by
  have hside : (2 * k % 2 == 1) = false := by simp
  have hget : (ts.map (rootOf C))[2 * k + 1]? = none := by rw [getElem?_map, hr]; rfl
  rw [siblings, if_neg (by rw [length_map]; omega)]
  dsimp only
  rw [hside, if_neg Bool.false_ne_true, hget, nextLevel_rootOf, Nat.mul_div_cancel_left k (by decide)]

end Level

theorem eq_of_getElem?_singleton {idx : ℕ} (h : [t][idx]? = some u) : idx = 0 ∧ t = u := by
  rw [List.getElem?_singleton] at h
  split_ifs at h with hidx
  exact ⟨hidx, Option.some.inj h⟩

theorem eq_of_join_short (h : join n ts = some t) (hshort : ts.length ≤ 1) : ts = [t] := by
  rcases ts with _ | ⟨l, _ | ⟨r, rest⟩⟩
  · cases n <;> cases h
  · cases n <;> cases h <;> rfl
  · simp at hshort

theorem join_succ (h : join (n + 1) ts = some t) (hlong : 1 < ts.length) :
    join n (pairUp ts) = some t := by
  rcases ts with _ | ⟨l, _ | ⟨r, rest⟩⟩
  · simp at hlong
  · simp at hlong
  · exact h

theorem above_siblings (hn : ts.length ≤ n + 1) (h : join n ts = some t) {idx : ℕ}
    (hu : ts[idx]? = some u) : Above (hashLeaf C) (hashNode C) t u (siblings C n (ts.map (rootOf C)) idx) := by
  induction n generalizing ts idx u with
  | zero =>
    obtain rfl := eq_of_join_short h hn
    obtain ⟨rfl, rfl⟩ := eq_of_getElem?_singleton hu
    exact .refl _
  | succ n ih =>
    by_cases hlong : 1 < ts.length
    · have hpair := getElem?_pairUp ts (idx / 2)
      have hlen := length_pairUp ts
      have ih := fun u' (hu' : (pairUp ts)[idx / 2]? = some u') => ih (by omega) (join_succ h hlong) hu'
      rcases Nat.mod_two_eq_zero_or_one idx with heven | hodd
      · obtain ⟨k, rfl⟩ : ∃ k, idx = 2 * k := ⟨idx / 2, by omega⟩
        rw [Nat.mul_div_cancel_left k (by decide)] at hpair ih
        rw [hu] at hpair
        cases hr : ts[2 * k + 1]? with
        | none =>
          rw [hr] at hpair
          rw [siblings_lone hlong hr]
          exact ih u hpair
        | some r =>
          rw [hr] at hpair
          rw [siblings_left hr]
          exact .left (ih _ hpair)
      · obtain ⟨k, rfl⟩ : ∃ k, idx = 2 * k + 1 := ⟨idx / 2, by omega⟩
        have hhalf : (2 * k + 1) / 2 = k := by omega
        have hbound := (List.getElem?_eq_some_iff.mp hu).1
        obtain ⟨l, hl⟩ : ∃ l, ts[2 * k]? = some l := ⟨_, List.getElem?_eq_getElem (by omega)⟩
        rw [hhalf] at hpair ih
        rw [hl, hu] at hpair
        rw [siblings_right hl hu]
        exact .right (ih _ hpair)
    · obtain rfl := eq_of_join_short h (by omega)
      obtain ⟨rfl, rfl⟩ := eq_of_getElem?_singleton hu
      rw [siblings_of_length_le (by simp)]
      exact .refl _

/-- Every path of the tree is that of a position, below which the path goes on. -/
theorem siblings_of_above (hn : ts.length ≤ n + 1) (h : join n ts = some t) {b : Hash} {steps : List MerkleStep}
    (hb : Above (hashLeaf C) (hashNode C) t (.leaf b) steps) :
    ∃ idx u low, ts[idx]? = some u ∧ Above (hashLeaf C) (hashNode C) u (.leaf b) low ∧
      steps = low ++ siblings C n (ts.map (rootOf C)) idx := by
  induction n generalizing ts with
  | zero =>
    obtain rfl := eq_of_join_short h hn
    exact ⟨0, t, steps, rfl, hb, (List.append_nil _).symm⟩
  | succ n ih =>
    by_cases hlong : 1 < ts.length
    · have hlen := length_pairUp ts
      obtain ⟨k, v, low, hv, hlow, rfl⟩ := ih (by omega) (join_succ h hlong)
      rw [getElem?_pairUp] at hv
      rcases hl : ts[2 * k]? with _ | l
      · rw [hl] at hv
        cases hv
      cases hr : ts[2 * k + 1]? with
      | none =>
        rw [hl, hr] at hv
        cases hv
        exact ⟨2 * k, v, low, hl, hlow, by rw [siblings_lone hlong hr]⟩
      | some r =>
        rw [hl, hr] at hv
        cases hv
        rcases hlow.of_node with ⟨heq, -⟩ | ⟨low, hbelow, rfl⟩ | ⟨low, hbelow, rfl⟩
        · cases heq
        · exact ⟨2 * k, l, low, hl, hbelow, by rw [siblings_left hr, append_assoc]; rfl⟩
        · exact ⟨2 * k + 1, r, low, hr, hbelow, by rw [siblings_right hl hr, append_assoc]; rfl⟩
    · obtain rfl := eq_of_join_short h (by omega)
      refine ⟨0, t, steps, rfl, hb, ?_⟩
      rw [siblings_of_length_le (by simp), List.append_nil]

theorem climb_eq_foldl (acc : Hash) (proof : List MerkleStep) : climb (hashNode C) acc proof =
      proof.foldl (fun acc step =>
        if step.siblingIsLeft then hashNode C step.sibling acc else hashNode C acc step.sibling) acc := by
  induction proof generalizing acc with
  | nil => rfl
  | cons step proof ih =>
    rw [climb, ih, List.foldl_cons]
    congr 1
    unfold HashTree.Step.children
    cases step.siblingIsLeft <;> rfl

theorem climbs_of_preimages {acc : Hash} {proof : List MerkleStep} (h : ∀ p ∈ climbPreimages C acc proof, S p) :
    HashTree.Climbs (hashNode C) (fun l r => S (nodePreimage l r)) acc proof := by
  induction proof generalizing acc with
  | nil => trivial
  | cons step proof ih => exact ⟨h _ mem_cons_self, ih fun p hp => h p (mem_cons_of_mem _ hp)⟩

theorem exists_tree {leaves : List Hash} (hne : leaves ≠ []) :
    ∃ t, join leaves.length (leaves.map .leaf) = some t ∧ t.leaves = leaves ∧ merkleRoot C leaves = rootOf C t := by
  have hmap : (leaves.map HashTree.leaf).map (rootOf C) = leaves.map (hashLeaf C) := by
    rw [map_map]
    rfl
  have htrees : leaves.map HashTree.leaf ≠ [] := by simpa using hne
  obtain ⟨t, ht, hleaves⟩ := HashTree.exists_join (n := leaves.length) htrees (by simp)
  refine ⟨t, ht, ?_, ?_⟩
  · rw [hleaves, List.flatMap_map]
    exact List.flatMap_singleton' leaves
  · rw [merkleRoot, if_neg (by simpa using hne), ← hmap]
    exact reduce_rootOf ht

theorem hashes_tree {leaves : List Hash} (hne : leaves ≠ []) (hS : ∀ p ∈ merkleRootPreimages C leaves, S p)
    (ht : join leaves.length (leaves.map .leaf) = some t) : HashedIn C S t := by
  rw [merkleRootPreimages, if_neg (by simpa using hne)] at hS
  refine hashes_join (fun u hu => ?_) (fun p hp => hS p ?_) ht
  · obtain ⟨l, hl, rfl⟩ := List.mem_map.mp hu
    exact hS _ (mem_append_left _ (List.mem_map_of_mem hl))
  · rw [map_map] at hp
    exact mem_append_right _ hp

theorem rootOf_ne_empty (hS : C.CollisionFree S) (hempty : S [0])
    (ht : HashedIn C S t) : rootOf C t ≠ C.digest [0] := by
  intro h
  cases t with
  | leaf l =>
    have hlen := congrArg List.length (hS _ _ ht hempty h)
    simp [leafPreimage, length_eq] at hlen
  | node l r =>
    have htag := (List.cons.inj (hS _ _ ht.1 hempty h)).1
    exact absurd htag (by decide)

end MerkleTree

variable {leaves : List Hash}

open MerkleTree in
theorem merkleRoot_inj {C : Crypto} {S : Bytes → Prop} (hS : C.CollisionFree S) {leaves' : List Hash}
    (h : ∀ p ∈ merkleRootPreimages C leaves, S p) (h' : ∀ p ∈ merkleRootPreimages C leaves', S p)
    (heq : merkleRoot C leaves = merkleRoot C leaves') : leaves = leaves' := by
  by_cases hne : leaves = []
  · by_cases hne' : leaves' = []
    · rw [hne, hne']
    · obtain ⟨t, ht, -, hroot⟩ := exists_tree (C := C) hne'
      subst hne
      exact absurd (hroot.symm.trans heq.symm) (rootOf_ne_empty hS (h _ mem_cons_self) (hashes_tree hne' h' ht))
  · obtain ⟨t, ht, hleaves, hroot⟩ := exists_tree (C := C) hne
    by_cases hne' : leaves' = []
    · subst hne'
      exact absurd (hroot.symm.trans heq) (rootOf_ne_empty hS (h' _ mem_cons_self) (hashes_tree hne h ht))
    obtain ⟨t', ht', hleaves', hroot'⟩ := exists_tree (C := C) hne'
    have htree : t = t' := HashTree.eq_of_root_eq (separated hS) (hashes_tree hne h ht) (hashes_tree hne' h' ht')
      (hroot.symm.trans (heq.trans hroot'))
    rw [← hleaves, ← hleaves', htree]

open MerkleTree in
theorem verify_merkleProof (C : Crypto) {i : ℕ} {leaf : Hash} (h : leaves[i]? = some leaf) :
    ∃ proof, merkleProof C leaves i = some proof ∧ verifyMerkleProof C leaf proof (merkleRoot C leaves) = true := by
  have hlt := (List.getElem?_eq_some_iff.mp h).1
  have hne : leaves ≠ [] := by
    rintro rfl
    simp at hlt
  obtain ⟨t, ht, -, hroot⟩ := exists_tree (C := C) hne
  have hleaf : (leaves.map HashTree.leaf)[i]? = some (.leaf leaf) := by
    rw [getElem?_map, h]
    rfl
  have habove := above_siblings (C := C) (by simp) ht hleaf
  rw [map_map] at habove
  refine ⟨_, if_neg (by omega), decide_eq_true ?_⟩
  rw [← climb_eq_foldl, hroot]
  exact habove.climb_eq

open MerkleTree in
/-- Only the proofs of the positions of a leaf are accepted for it. -/
theorem merkleProof_of_verify {C : Crypto} {S : Bytes → Prop} (hS : C.CollisionFree S) {leaf : Hash}
    {steps : List MerkleStep} (h : ∀ p ∈ merkleRootPreimages C leaves, S p)
    (hsteps : ∀ p ∈ verifyPreimages C leaf steps, S p)
    (hv : verifyMerkleProof C leaf steps (merkleRoot C leaves) = true) :
    ∃ i, leaves[i]? = some leaf ∧ merkleProof C leaves i = some steps := by
  have hleaf : S (leafPreimage leaf) := hsteps _ mem_cons_self
  have hclimbs := climbs_of_preimages fun p hp => hsteps p (mem_cons_of_mem _ hp)
  have hclimb : climb (hashNode C) (hashLeaf C leaf) steps = merkleRoot C leaves := by
    rw [climb_eq_foldl]
    exact of_decide_eq_true hv
  by_cases hne : leaves = []
  · -- A path does not end in the root of the empty list.
    subst hne
    have hempty : S [0] := h _ mem_cons_self
    rcases List.eq_nil_or_concat' steps with rfl | ⟨steps, s, rfl⟩
    · have hlen := congrArg List.length (hS _ _ hleaf hempty hclimb)
      simp [leafPreimage, length_eq] at hlen
    · rw [HashTree.climb_append] at hclimb
      have htag := (List.cons.inj (hS _ _ hclimbs.of_append.2.1 hempty hclimb)).1
      exact absurd htag (by decide)
  · obtain ⟨t, ht, -, hroot⟩ := exists_tree (C := C) hne
    have habove := HashTree.above_of_climb (separated hS) (hashes_tree hne h ht) hleaf hclimbs (hclimb.trans hroot)
    obtain ⟨i, u, low, hu, hlow, rfl⟩ := siblings_of_above (by simp) ht habove
    rw [getElem?_map] at hu
    obtain ⟨l, hl, rfl⟩ := Option.map_eq_some_iff.mp hu
    obtain ⟨heq, rfl⟩ := hlow.of_leaf
    cases heq
    refine ⟨i, hl, ?_⟩
    rw [map_map]
    exact if_neg (by have := (List.getElem?_eq_some_iff.mp hl).1; omega)

/-! ## Receipts -/

/-- The lists of a receipt can be encoded. -/
structure Receipt.Fits (r : Receipt) : Prop where
  status : ExecutionStatus.codec.Fits r.status
  returnData : byteVec.Fits r.returnData
  events : Event.codec.vec.Fits r.events

theorem Receipt.consensusBytes_inj {r r' : Receipt} (h : r.Fits) (h' : r'.Fits)
    (heq : r.consensusBytes = r'.consensusBytes) : r = r' := by
  obtain ⟨txId, status, gasUsed, returnData, events, timing⟩ := r
  obtain ⟨txId', status', gasUsed', returnData', events', timing'⟩ := r'
  simp only [consensusBytes, append_assoc] at heq
  obtain ⟨hid, hrest⟩ := List.append_inj heq (by rw [length_eq, length_eq])
  obtain ⟨hstatus, hrest1⟩ := ExecutionStatus.codec.encode_append_inj h.status h'.status hrest
  obtain ⟨hgas, hrest2⟩ := (uint 8).encode_append_inj trivial trivial hrest1
  obtain ⟨hdata, hrest3⟩ := byteVec.encode_append_inj h.returnData h'.returnData hrest2
  obtain ⟨hevents, htiming⟩ := Event.codec.vec.encode_append_inj h.events h'.events hrest3
  dsimp only at hstatus hdata hevents
  rw [bytes_injective hid, hstatus, hgas, hdata, hevents]
  cases timing with
  | none =>
    cases timing' with
    | none => rfl
    | some ms => cases htiming
  | some ms =>
    cases timing' with
    | none => cases htiming
    | some ms' => rw [(uint 8).encode_inj trivial trivial (List.cons.inj htiming).2]

/-- Without collisions the root determines the list, every leaf has a proof, and nothing else is accepted: a path of any
length for any leaf is the proof of a position that holds it, and a receipt with an accepted proof is in the block. -/
theorem merkle_root_binding (C : Crypto) (S : Bytes → Prop) (hS : C.CollisionFree S) :
    (∀ leaves leaves' : List Hash, (∀ p ∈ merkleRootPreimages C leaves, S p) →
      (∀ p ∈ merkleRootPreimages C leaves', S p) → merkleRoot C leaves = merkleRoot C leaves' → leaves = leaves') ∧
    (∀ (leaves : List Hash) (i : ℕ) (leaf : Hash), leaves[i]? = some leaf →
      ∃ proof, merkleProof C leaves i = some proof ∧ verifyMerkleProof C leaf proof (merkleRoot C leaves) = true) ∧
    (∀ (leaves : List Hash) (leaf : Hash) (steps : List MerkleStep), (∀ p ∈ merkleRootPreimages C leaves, S p) →
      (∀ p ∈ verifyPreimages C leaf steps, S p) → verifyMerkleProof C leaf steps (merkleRoot C leaves) = true →
      ∃ i, leaves[i]? = some leaf ∧ merkleProof C leaves i = some steps) ∧
    ∀ (receipts : List Receipt) (receipt : Receipt) (proof : ReceiptProof),
      (∀ r ∈ receipt :: receipts, r.Fits ∧ S r.consensusBytes) →
      (∀ p ∈ merkleRootPreimages C (receipts.map (Receipt.hash C)), S p) →
      (∀ p ∈ verifyPreimages C (receipt.hash C) proof.siblings, S p) →
      verifyReceiptProof C receipt proof (receiptsRoot C receipts) = true → receipt ∈ receipts := by
  refine ⟨fun leaves leaves' h h' => merkleRoot_inj hS h h', fun leaves i leaf h => verify_merkleProof C h,
    fun leaves leaf steps h hsteps hv => merkleProof_of_verify hS h hsteps hv, ?_⟩
  intro receipts receipt proof hreceipts h hsteps hv
  obtain ⟨i, hi, -⟩ := merkleProof_of_verify hS h hsteps hv
  rw [getElem?_map] at hi
  obtain ⟨r, hr, hhash⟩ := Option.map_eq_some_iff.mp hi
  have hmem := List.mem_of_getElem? hr
  obtain ⟨hfits, hS1⟩ := hreceipts r (mem_cons_of_mem _ hmem)
  obtain ⟨hfits', hS2⟩ := hreceipts receipt mem_cons_self
  obtain rfl := Receipt.consensusBytes_inj hfits hfits' (hS _ _ hS1 hS2 hhash)
  exact hmem

/-- The committed encoding tells receipts apart, with and without timing, for all lists that Borsh can write (it panics
for more than `2^32 - 1` entries); without collisions the root then determines every field of every receipt. -/
theorem receipts_root_commits (C : Crypto) (S : Bytes → Prop) (hS : C.CollisionFree S) :
    (∀ r r' : Receipt, r.Fits → r'.Fits → r.consensusBytes = r'.consensusBytes → r = r') ∧
    ∀ receipts receipts' : List Receipt, (∀ r ∈ receipts ++ receipts', r.Fits ∧ S r.consensusBytes) →
      (∀ p ∈ merkleRootPreimages C (receipts.map (Receipt.hash C)), S p) →
      (∀ p ∈ merkleRootPreimages C (receipts'.map (Receipt.hash C)), S p) →
      receiptsRoot C receipts = receiptsRoot C receipts' → receipts = receipts' := by
  refine ⟨fun r r' h h' => Receipt.consensusBytes_inj h h', ?_⟩
  intro receipts receipts' hreceipts h h' hroot
  have hlist := merkleRoot_inj hS h h' hroot
  refine List.ext_getElem (by simpa using congrArg List.length hlist) ?_
  intro i hi hi'
  have hhash : receipts[i].hash C = receipts'[i].hash C := by
    simpa [hi, hi'] using congrArg (·[i]?) hlist
  obtain ⟨hfits, hr⟩ := hreceipts _ (mem_append_left _ (List.getElem_mem hi))
  obtain ⟨hfits', hr'⟩ := hreceipts _ (mem_append_right _ (List.getElem_mem hi'))
  exact Receipt.consensusBytes_inj hfits hfits' (hS _ _ hr hr' hhash)

/-- The digest that keeps the first 32 bytes. -/
def prefixCrypto : Crypto where
  digest := FixedBytes.pad 32
  sha256 := FixedBytes.pad 32
  verifyEd25519 _ _ _ := false
  verifyMlDsa65 _ _ _ := false
  orchardRoot _ := Hash.zero
  pqRoot _ := Hash.zero

/-- Three leaves, so that the last one moves up a level. -/
def threeLeaves : List Hash := [.fill 32 7, .fill 32 8, .fill 32 9]

/-- The lone third leaf is two levels up with one sibling, and no other path proves it. -/
theorem lone_leaf_proof_unique : ∃ proof, merkleProof prefixCrypto threeLeaves 2 = some proof ∧ proof.length = 1 ∧
      verifyMerkleProof prefixCrypto (.fill 32 9) proof (merkleRoot prefixCrypto threeLeaves) = true ∧
      ∃ i, threeLeaves[i]? = some (.fill 32 9) ∧ merkleProof prefixCrypto threeLeaves i = some proof := by
  obtain ⟨proof, hproof⟩ : ∃ proof, merkleProof prefixCrypto threeLeaves 2 = some proof := ⟨_, rfl⟩
  have hS : prefixCrypto.CollisionFree fun p =>
      p ∈ merkleRootPreimages prefixCrypto threeLeaves ++ verifyPreimages prefixCrypto (.fill 32 9) proof := by
    have hpairs : ∀ p ∈ merkleRootPreimages prefixCrypto threeLeaves ++ verifyPreimages prefixCrypto (.fill 32 9)
        ((merkleProof prefixCrypto threeLeaves 2).getD []),
        ∀ q ∈ merkleRootPreimages prefixCrypto threeLeaves ++ verifyPreimages prefixCrypto (.fill 32 9)
        ((merkleProof prefixCrypto threeLeaves 2).getD []),
        prefixCrypto.digest p = prefixCrypto.digest q → p = q := by decide +kernel
    rw [hproof] at hpairs
    exact fun p q hp hq => hpairs p hp q hq
  have hv : verifyMerkleProof prefixCrypto (.fill 32 9) ((merkleProof prefixCrypto threeLeaves 2).getD [])
      (merkleRoot prefixCrypto threeLeaves) = true := by decide +kernel
  have hlen : ((merkleProof prefixCrypto threeLeaves 2).getD []).length = 1 := by decide +kernel
  rw [hproof] at hv hlen
  refine ⟨proof, hproof, hlen, hv, (merkle_root_binding prefixCrypto _ hS).2.2.1 _ _ _ (fun p hp => ?_) (fun p hp => ?_) hv⟩
  · exact mem_append_left _ hp
  · exact mem_append_right _ hp

/-- A receipt with or without timing. -/
def timedReceipt (id : UInt8) (timing : Option U64) : Receipt where
  txId := .fill 32 id
  status := .success
  gasUsed := 5
  returnData := [3, 4]
  events := []
  timing := timing

theorem fits_timedReceipt (id : UInt8) (timing : Option U64) : (timedReceipt id timing).Fits where
  status := trivial
  returnData := ⟨by simp [timedReceipt], fun _ _ => trivial⟩
  events := ⟨by simp [timedReceipt], by simp [timedReceipt]⟩

/-- The strings hashed for the roots of a list with a timed and one with an untimed receipt. -/
def timedPreimages : List Bytes :=
  [(timedReceipt 7 (some 9)).consensusBytes, (timedReceipt 8 none).consensusBytes] ++
    merkleRootPreimages prefixCrypto ([timedReceipt 7 (some 9)].map (Receipt.hash prefixCrypto)) ++
    merkleRootPreimages prefixCrypto ([timedReceipt 8 none].map (Receipt.hash prefixCrypto))

theorem timed_receipts_root_ne :
    receiptsRoot prefixCrypto [timedReceipt 7 (some 9)] ≠ receiptsRoot prefixCrypto [timedReceipt 8 none] := by
  have hS : prefixCrypto.CollisionFree (· ∈ timedPreimages) := by
    have hpairs : ∀ p ∈ timedPreimages, ∀ q ∈ timedPreimages,
        prefixCrypto.digest p = prefixCrypto.digest q → p = q := by decide +kernel
    exact fun p q hp hq => hpairs p hp q hq
  intro hroot
  have heq := (receipts_root_commits prefixCrypto _ hS).2 _ _ ?_ (fun p hp => ?_) (fun p hp => ?_) hroot
  · cases heq
  · intro r hr
    rcases List.mem_pair.mp hr with rfl | rfl
    · exact ⟨fits_timedReceipt 7 _, mem_cons_self⟩
    · exact ⟨fits_timedReceipt 8 _, mem_cons_of_mem _ mem_cons_self⟩
  · exact mem_append_left _ (mem_append_right _ hp)
  · exact mem_append_right _ hp

end Sov
