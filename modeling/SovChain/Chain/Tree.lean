import SovChain.Chain.Setup
import Mathlib.Data.List.Induction

/-!
# The tree of blocks

The index is a tree: every entry but the genesis block has its parent in it, one height below. The active
chain is the path from genesis to the head (`Skeleton`). An import keeps this, whatever becomes of the
ledger: it leaves the tree and the active chain as they are, or it adds the block to the tree, and then the
head stays or becomes the block (`importBlockTracked_skeleton`).
-/

namespace Sov
open List (append_assoc append_inj' length_append length_singleton)
open Sov.Runtime (bind_eq_ok)
namespace ActiveChain

/-- The chain with blocks on top, oldest first. -/
def extend (c : ActiveChain) (bs : List Block) : ActiveChain := bs.foldl push c

variable {c : ActiveChain}

@[simp] theorem extend_nil : c.extend [] = c := rfl

theorem extend_append (bs bs' : List Block) : c.extend (bs ++ bs') = (c.extend bs).extend bs' := by
  simp [extend]

@[simp] theorem extend_snoc (bs : List Block) (b : Block) : c.extend (bs ++ [b]) = (c.extend bs).push b := by
  simp [extend]

@[simp] theorem toList_extend (bs : List Block) : (c.extend bs).toList = c.toList ++ bs := by
  induction bs using List.reverseRecOn with
  | nil => simp
  | append_singleton bs b ih => rw [extend_snoc, toList_push, ih, append_assoc]

@[simp] theorem genesis_extend (bs : List Block) : (c.extend bs).genesis = c.genesis :=
  Blockchain.genesis_foldl_push bs c

theorem get?_extend_genesis (genesis : Block) (bs : List Block) (i : ℕ) :
    (extend ⟨genesis, []⟩ bs).get? i = (genesis :: bs)[i]? := by
  rw [get?, toList_extend]
  rfl

theorem get?_length (genesis : Block) (low high : List Block) :
    (extend ⟨genesis, []⟩ (low ++ high)).get? low.length = some (extend ⟨genesis, []⟩ low).tip := by
  rw [get?_extend_genesis]
  induction low using List.reverseRecOn with
  | nil => rfl
  | append_singleton low b _ =>
    rw [length_append, length_singleton, List.getElem?_cons_succ, append_assoc,
      List.getElem?_append_right le_rfl, Nat.sub_self, extend_snoc]
    rfl

end ActiveChain

/-! ## The index -/

namespace BlockIndex

/-- Blocks, oldest first, that link an indexed hash to one above it. -/
inductive Links (index : BlockIndex) (genesis a : Hash) : List Block → Hash → Prop
  | nil : Links index genesis a [] a
  | snoc {bs : List Block} {p k : Hash} {e : BlockIndexEntry} (h : Links index genesis a bs p)
      (he : index.get? k = some e) (hp : e.block.header.prevHash = p) (hk : k ≠ genesis) :
      Links index genesis a (bs ++ [e.block]) k

/-- Every entry is under the hash of its block and above its parent. -/
structure Tree (C : Crypto) (genesis : Block) (index : BlockIndex) : Prop where
  root : ∃ e, index.get? (genesis.hash C) = some e ∧ e.block = genesis ∧ e.height = 0
  hash_eq : ∀ {k e}, index.get? k = some e → e.block.hash C = k
  height_eq : ∀ {k e}, index.get? k = some e → e.block.header.height.toNat = e.height
  parent : ∀ {k e}, index.get? k = some e → k ≠ genesis.hash C →
    ∃ p, index.get? e.block.header.prevHash = some p ∧ e.height = p.height + 1

variable {C : Crypto} {genesis : Block} {index index' : BlockIndex} {g a k m : Hash} {bs cs : List Block}

namespace Links

theorem trans (h : Links index g a bs m) (h' : Links index g m cs k) : Links index g a (bs ++ cs) k := by
  induction h' with
  | nil => simpa using h
  | snoc _ he hp hk ih =>
    rw [← append_assoc]
    exact .snoc ih he hp hk

theorem mono (h : Links index g a bs k) (hsub : ∀ k e, index.get? k = some e → index'.get? k = some e) :
    Links index' g a bs k := by
  induction h with
  | nil => exact .nil
  | snoc _ he hp hk ih => exact .snoc ih (hsub _ _ he) hp hk

theorem split (h : Links index g a (bs ++ cs) k) : ∃ m, Links index g a bs m ∧ Links index g m cs k := by
  induction cs using List.reverseRecOn generalizing k with
  | nil => exact ⟨k, by simpa using h, .nil⟩
  | append_singleton cs c ih =>
    rw [← append_assoc] at h
    generalize hl : bs ++ cs ++ [c] = l at h
    cases h with
    | nil => simp at hl
    | snoc h he hp hk =>
      obtain ⟨rfl, hc⟩ := append_inj' hl rfl
      obtain ⟨m, hm, hm'⟩ := ih h
      refine ⟨m, hm, ?_⟩
      rw [hc]
      exact .snoc hm' he hp hk

theorem eq_of_nil (h : Links index g a [] k) : a = k := by
  generalize hl : ([] : List Block) = l at h
  cases h with
  | nil => rfl
  | snoc => simp at hl

variable {b : Block} {ea : BlockIndexEntry}

theorem cons_inv (h : Links index g a (b :: bs) k) :
    ∃ m e, index.get? m = some e ∧ e.block = b ∧ e.block.header.prevHash = a ∧ m ≠ g ∧ Links index g m bs k := by
  have happend : Links index g a ([b] ++ bs) k := h
  obtain ⟨m, hone, hrest⟩ := happend.split
  generalize hl : [b] = l at hone
  cases hone with
  | nil => cases hl
  | @snoc l p _ e hbelow he hp hk =>
    have hone : [] ++ [b] = l ++ [e.block] := hl
    obtain ⟨rfl, hb⟩ := append_inj' hone rfl
    have hb : e.block = b := by simpa using hb.symm
    exact ⟨m, e, he, hb, hp.trans hbelow.eq_of_nil.symm, hk, hrest⟩

theorem unique {bs' : List Block} (h : Links index g g bs k) (h' : Links index g g bs' k) : bs = bs' := by
  induction h generalizing bs' with
  | nil =>
    cases h' with
    | nil => rfl
    | snoc _ _ _ hk => exact absurd rfl hk
  | snoc _ he hp hk ih =>
    cases h' with
    | nil => exact absurd rfl hk
    | snoc h' he' hp' _ =>
      cases he.symm.trans he'
      cases hp.symm.trans hp'
      rw [ih h']

theorem last_hash (ht : Tree C genesis index) (h : Links index g a (bs ++ [b]) k) : b.hash C = k := by
  generalize hl : bs ++ [b] = l at h
  cases h with
  | nil => simp at hl
  | snoc _ he _ _ =>
    obtain ⟨-, hb⟩ := append_inj' hl rfl
    cases hb
    exact ht.hash_eq he

theorem indexed (ht : Tree C genesis index) (h : Links index g a bs k) (hb : b ∈ bs) :
    ∃ e, index.get? (b.hash C) = some e ∧ e.block = b := by
  induction h with
  | nil => cases hb
  | @snoc _ _ k e _ he _ _ ih =>
    obtain hb | hb := List.mem_append.mp hb
    · exact ih hb
    · rw [List.mem_singleton.mp hb, ht.hash_eq he]
      exact ⟨e, he, rfl⟩

theorem height (ht : Tree C genesis index) (h : Links index (genesis.hash C) a bs k)
    (ha : index.get? a = some ea) : ∃ e, index.get? k = some e ∧ e.height = ea.height + bs.length := by
  induction h with
  | nil => exact ⟨ea, ha, rfl⟩
  | @snoc bs p k e _ he hp hk ih =>
    obtain ⟨ep, hep, hlen⟩ := ih
    obtain ⟨ep', hep', hheight⟩ := ht.parent he hk
    rw [hp, hep] at hep'
    cases hep'
    refine ⟨e, he, ?_⟩
    rw [hheight, hlen, length_append, length_singleton]
    omega

theorem lt_height (ht : Tree C genesis index) (h : Links index (genesis.hash C) a bs k)
    (ha : index.get? a = some ea) : ∀ b ∈ bs, ea.height < b.header.height.toNat := by
  induction h with
  | nil => exact fun b hb => (nomatch hb)
  | @snoc bs p k e hbs he hp hk ih =>
    intro b hb
    obtain hb | hb := List.mem_append.mp hb
    · exact ih b hb
    obtain ⟨e', he', hlen⟩ := (Links.snoc hbs he hp hk).height ht ha
    cases he.symm.trans he'
    rw [List.mem_singleton.mp hb, ht.height_eq he, hlen, length_append, length_singleton]
    omega

end Links

namespace Tree
variable {e : BlockIndexEntry}

theorem eq_genesis (ht : Tree C genesis index) (he : index.get? k = some e) (h0 : e.height = 0) :
    k = genesis.hash C := by
  by_contra hk
  obtain ⟨p, -, hp⟩ := ht.parent he hk
  omega

theorem block_of_genesis (ht : Tree C genesis index) (he : index.get? (genesis.hash C) = some e) :
    e.block = genesis ∧ e.height = 0 := by
  obtain ⟨e0, he0, hblock, hheight⟩ := ht.root
  cases he.symm.trans he0
  exact ⟨hblock, hheight⟩

theorem exists_links (ht : Tree C genesis index) (he : index.get? k = some e) :
    ∃ bs, Links index (genesis.hash C) (genesis.hash C) bs k ∧ bs.length = e.height := by
  induction hn : e.height generalizing k e with
  | zero =>
    rw [ht.eq_genesis he hn]
    exact ⟨[], .nil, rfl⟩
  | succ n ih =>
    by_cases hk : k = genesis.hash C
    · obtain ⟨e0, he0, -, h0⟩ := ht.root
      rw [hk, he0] at he
      cases he
      omega
    · obtain ⟨p, hp, hheight⟩ := ht.parent he hk
      obtain ⟨bs, hbs, hlen⟩ := ih hp (by omega)
      exact ⟨bs ++ [e.block], .snoc hbs he rfl hk, by simp [hlen]⟩

theorem insert (ht : Tree C genesis index) {p : BlockIndexEntry} (hk : index.get? k = none)
    (hhash : e.block.hash C = k) (hheight : e.block.header.height.toNat = e.height)
    (hp : index.get? e.block.header.prevHash = some p) (hsucc : e.height = p.height + 1) :
    Tree C genesis (index.insert k e) := by
  have hget : ∀ {k' e'}, (index.insert k e).get? k' = some e' → (k = k' ∧ e = e') ∨ index.get? k' = some e' := by
    intro k' e' h
    rw [OrdMap.get?_insert] at h
    split_ifs at h with hkk
    · exact .inl ⟨hkk, Option.some.inj h⟩
    · exact .inr h
  have hold : ∀ {k' e'}, index.get? k' = some e' → (index.insert k e).get? k' = some e' := by
    intro k' e' h
    rw [OrdMap.get?_insert, if_neg]
    · exact h
    · rintro rfl
      rw [hk] at h
      cases h
  refine ⟨?_, fun h => ?_, fun h => ?_, fun h hne => ?_⟩
  · obtain ⟨e0, he0, hblock, h0⟩ := ht.root
    exact ⟨e0, hold he0, hblock, h0⟩
  · obtain ⟨rfl, rfl⟩ | h := hget h
    · exact hhash
    · exact ht.hash_eq h
  · obtain ⟨rfl, rfl⟩ | h := hget h
    · exact hheight
    · exact ht.height_eq h
  · obtain ⟨rfl, rfl⟩ | h := hget h
    · exact ⟨p, hold hp, hsucc⟩
    · obtain ⟨p', hp', hs⟩ := ht.parent h hne
      exact ⟨p', hold hp', hs⟩

end Tree

theorem get?_insert_of_some {e e' : BlockIndexEntry} (hk : index.get? k = none) (h : index.get? m = some e') :
    (index.insert k e).get? m = some e' := by
  rw [OrdMap.get?_insert, if_neg]
  · exact h
  · rintro rfl
    rw [hk] at h
    cases h

end BlockIndex

/-- What the tree and the active chain consist of. -/
structure Outline where
  index : BlockIndex
  blocks : ActiveChain
  head : Hash

namespace Blockchain

def outline (bc : Blockchain) : Outline := ⟨bc.index, bc.blocks, bc.head⟩

variable {N : NodeEnv} {bc bc' : Blockchain} {block : Block} {cand : Candidate}

open BlockIndex (Links Tree)
open ActiveChain (extend extend_append extend_snoc)

/-! ## Functions that keep the outline -/

@[simp] theorem outline_indexBlockReceipts (height : ℕ) (receipts : List Receipt) :
    (bc.indexBlockReceipts height receipts).outline = bc.outline := by
  unfold indexBlockReceipts
  split_ifs <;> rfl

@[simp] theorem outline_forgetReceipts (height : ℕ) : (bc.forgetReceipts height).outline = bc.outline := by
  unfold forgetReceipts
  split <;> rfl

theorem outline_rebuildReceiptIndex (branch : List (ℕ × List Receipt)) :
    (bc.rebuildReceiptIndex branch).outline = bc.outline := by
  have hfold : ∀ (branch : List (ℕ × List Receipt)) (bc : Blockchain),
      (branch.foldl (fun bc e => bc.indexBlockReceipts e.1 e.2) bc).outline = bc.outline := by
    intro branch
    induction branch with
    | nil => exact fun _ => rfl
    | cons e rest ih => exact fun bc => (ih _).trans (outline_indexBlockReceipts _ _)
  exact hfold branch _

theorem outline_syncActiveDifficulty (h : bc.syncActiveDifficulty = .ok bc') : bc'.outline = bc.outline := by
  obtain ⟨head, base, -, -, rfl⟩ := syncActiveDifficulty_eq_ok h
  rfl

/-! ## Taking blocks off and putting them on -/

variable {bs : List Block}

theorem disconnectLoop_outline {target : ℕ} {ring : List UndoEntry} {taken taken' : List Block}
    {c : ActiveChain} (hblocks : bc.blocks = c.extend bs) (hlow : c.height ≤ target)
    (hhigh : ∀ b ∈ bs, target < b.header.height.toNat) (h : disconnectLoop N target ring bc taken = .ok (bc', taken')) :
    bc'.outline = ⟨bc.index, c, c.tip.hash N⟩ ∧ taken' = taken ++ bs.reverse := by
  induction bs using List.reverseRecOn generalizing ring bc taken with
  | nil =>
    have hle : bc.height ≤ target := by rwa [height, hblocks]
    unfold disconnectLoop at h
    rw [if_pos hle] at h
    cases h
    rw [outline]
    dsimp only
    rw [hblocks]
    exact ⟨rfl, by simp⟩
  | append_singleton bs b ih =>
    rw [extend_snoc] at hblocks
    have hgt : ¬bc.height ≤ target := by
      rw [height, hblocks]
      exact Nat.not_le.mpr (hhigh b (by simp))
    unfold disconnectLoop at h
    rw [if_neg hgt] at h
    rcases ring with _ | ⟨e, ring⟩
    · cases h
    dsimp only at h
    rw [hblocks, ActiveChain.pop?_push] at h
    dsimp only at h
    generalize hbc1 : forgetReceipts _ e.height = bc1 at h
    have houtline : bc1.outline = ⟨bc.index, c.extend bs, bc.head⟩ := by
      rw [← hbc1, outline_forgetReceipts]
      rfl
    obtain ⟨hout, htaken⟩ := ih (congrArg Outline.blocks houtline)
      (fun b' hb' => hhigh b' (List.mem_append_left _ hb')) h
    have hindex : bc1.index = bc.index := congrArg Outline.index houtline
    refine ⟨by rw [hout, hindex], ?_⟩
    rw [htaken, List.reverse_append, List.reverse_singleton, append_assoc]

theorem reconnectBlock_outline (h : reconnectBlock N bc block = .ok bc') :
    bc'.outline = ⟨bc.index, bc.blocks.push block, bc.head⟩ := by
  obtain ⟨e, bc1, receipts, -, hc, rfl⟩ := reconnectBlock_eq_ok h
  rw [outline_indexBlockReceipts]
  obtain ⟨L, receipts, undo, -, rfl⟩ | ⟨L, e, he, rfl⟩ := connectToActive_eq_ok hc
  · rfl
  · cases he

variable {blocks : List Block} {outcome : BranchOutcome} {fork : ℕ}

theorem reconnectBlocks_outline (h : blocks.foldlM (reconnectBlock N) bc = .ok bc') :
    bc'.outline = ⟨bc.index, bc.blocks.extend blocks, bc.head⟩ := by
  induction blocks generalizing bc with
  | nil =>
    cases h
    rfl
  | cons b rest ih =>
    obtain ⟨bc1, hb, h⟩ := bind_eq_ok.mp h
    have hout := reconnectBlock_outline hb
    have hindex : bc1.index = bc.index := congrArg Outline.index hout
    have hblocks : bc1.blocks = bc.blocks.push b := congrArg Outline.blocks hout
    have hhead : bc1.head = bc.head := congrArg Outline.head hout
    rw [ih h, hindex, hblocks, hhead]
    rfl

theorem reconnect_outline (h : reconnect N bc blocks = .ok bc') :
    bc'.outline = ⟨bc.index, bc.blocks.extend blocks.reverse, (bc.blocks.extend blocks.reverse).tip.hash N⟩ := by
  obtain ⟨bc1, hfold, h⟩ := bind_eq_ok.mp h
  cases h
  have hout := reconnectBlocks_outline hfold
  have hindex : bc1.index = bc.index := congrArg Outline.index hout
  have hblocks : bc1.blocks = bc.blocks.extend blocks.reverse := congrArg Outline.blocks hout
  simp only [outline, hindex, hblocks]

theorem restore_outline {old : List Block} {c : ActiveChain} (hblocks : bc.blocks = c.extend bs)
    (hlow : c.height ≤ fork) (hhigh : ∀ b ∈ bs, fork < b.header.height.toNat)
    (h : restore N bc fork old.reverse = .ok bc') :
    bc'.outline = ⟨bc.index, c.extend old, (c.extend old).tip.hash N⟩ := by
  obtain ⟨⟨bc1, taken⟩, hd, h⟩ := bind_eq_ok.mp h
  have hdis : disconnectLoop N fork bc.undoRing bc [] = .ok (bc1, taken) := hd
  obtain ⟨hout, -⟩ := disconnectLoop_outline hblocks hlow hhigh hdis
  have hindex : bc1.index = bc.index := congrArg Outline.index hout
  have hbase : bc1.blocks = c := congrArg Outline.blocks hout
  rw [reconnect_outline h, hindex, hbase, List.reverse_reverse]

theorem connectBranch_outline {adopt : Bool}
    (h : connectBranch N cand adopt bc blocks = .ok (bc', outcome)) :
    ∃ done rest, blocks = done ++ rest ∧ bc'.outline = ⟨bc.index, bc.blocks.extend done, bc.head⟩ ∧
      ∀ receipts, outcome = .connected receipts → rest = [] := by
  induction blocks generalizing bc with
  | nil =>
    cases h
    exact ⟨[], [], rfl, rfl, fun _ _ => rfl⟩
  | cons b rest ih =>
    unfold connectBranch at h
    dsimp only at h
    split at h
    · cases h
      exact ⟨[], b :: rest, rfl, rfl, fun _ ho => by cases ho⟩
    obtain ⟨⟨bc1, r⟩, hc, h⟩ := bind_eq_ok.mp h
    dsimp only at h
    obtain ⟨L, receipts, undo, rfl, hbc1⟩ | ⟨L, e, rfl, hbc1⟩ := connectToActive_eq_ok hc
    · dsimp only at h
      generalize hbc2 : (if adopt then bc1.indexBlockReceipts b.header.height.toNat receipts else bc1) = bc2 at h
      have hout : bc2.outline = ⟨bc.index, bc.blocks.push b, bc.head⟩ := by
        rw [← hbc2]
        split_ifs
        · rw [outline_indexBlockReceipts, hbc1]
          rfl
        · rw [hbc1]
          rfl
      split at h
      · rename_i hempty
        cases h
        have hrest : rest = [] := List.isEmpty_iff.mp hempty
        exact ⟨[b], [], by rw [hrest]; rfl, hout, fun _ _ => rfl⟩
      · obtain ⟨done, rest', hsplit, hout', hlast⟩ := ih h
        have hindex : bc2.index = bc.index := congrArg Outline.index hout
        have hblocks : bc2.blocks = bc.blocks.push b := congrArg Outline.blocks hout
        have hhead : bc2.head = bc.head := congrArg Outline.head hout
        refine ⟨b :: done, rest', by rw [hsplit]; rfl, ?_, hlast⟩
        rw [hout', hindex, hblocks, hhead]
        rfl
    · cases h
      refine ⟨[], b :: rest, rfl, ?_, fun _ ho => by cases ho⟩
      rw [hbc1]
      rfl

/-! ## The skeleton -/

theorem path_tip {C : Crypto} {genesis : Block} {index : BlockIndex} {k : Hash} (ht : Tree C genesis index)
    (h : Links index (genesis.hash C) (genesis.hash C) bs k) : (extend ⟨genesis, []⟩ bs).tip.hash C = k ∧
      (extend ⟨genesis, []⟩ bs).height = bs.length := by
  obtain ⟨e0, he0, hblock, h0⟩ := ht.root
  induction bs using List.reverseRecOn with
  | nil =>
    generalize hl : ([] : List Block) = l at h
    cases h with
    | nil =>
      refine ⟨rfl, ?_⟩
      rw [List.length_nil, ← h0, ← ht.height_eq he0, hblock]
      rfl
    | snoc => simp at hl
  | append_singleton bs b _ =>
    have hhash : b.hash C = k := h.last_hash ht
    obtain ⟨e, he, hlen⟩ := h.height ht he0
    obtain ⟨e', he', hb⟩ := h.indexed ht (b := b) (by simp)
    rw [hhash, he] at he'
    cases he'
    have hheight : b.header.height.toNat = e.height := hb ▸ ht.height_eq he
    rw [extend_snoc]
    refine ⟨hhash, hheight.trans ?_⟩
    rw [hlen, h0, Nat.zero_add]

/-- The index is a tree and the active chain its path to the head. -/
structure Skeleton (C : Crypto) (bc : Blockchain) : Prop where
  tree : Tree C bc.blocks.genesis bc.index
  genesis_hash : bc.rules.genesisHash = bc.blocks.genesis.hash C
  active : ∃ bs, Links bc.index (bc.blocks.genesis.hash C) (bc.blocks.genesis.hash C) bs bc.head ∧
    bc.blocks = extend ⟨bc.blocks.genesis, []⟩ bs

namespace Skeleton
variable {C : Crypto}

theorem head_eq (hs : Skeleton C bc) : bc.blocks.tip.hash C = bc.head := by
  obtain ⟨bs, hbs, hblocks⟩ := hs.active
  rw [hblocks]
  exact (path_tip hs.tree hbs).1

theorem congr (hs : Skeleton C bc) (hrules : bc'.rules = bc.rules) (hout : bc'.outline = bc.outline) :
    Skeleton C bc' := by
  have hindex : bc'.index = bc.index := congrArg Outline.index hout
  have hblocks : bc'.blocks = bc.blocks := congrArg Outline.blocks hout
  have hhead : bc'.head = bc.head := congrArg Outline.head hout
  obtain ⟨htree, hgenesis, hactive⟩ := hs
  constructor
  · rwa [hindex, hblocks]
  · rwa [hrules, hblocks]
  · rwa [hindex, hblocks, hhead]

theorem head_entry (hs : Skeleton C bc) : ∃ e, bc.index.get? bc.head = some e ∧ e.height = bc.height := by
  obtain ⟨bs, hbs, hblocks⟩ := hs.active
  obtain ⟨e0, he0, -, h0⟩ := hs.tree.root
  obtain ⟨e, he, hlen⟩ := hbs.height hs.tree he0
  refine ⟨e, he, ?_⟩
  rw [height, hblocks, (path_tip hs.tree hbs).2, hlen, h0, Nat.zero_add]

/-- An active block cuts the active chain in two. -/
theorem isActive_split (hs : Skeleton C bc) {i : ℕ} {k : Hash} (h : bc.isActive C i k = true) :
    ∃ low high, Links bc.index (bc.blocks.genesis.hash C) (bc.blocks.genesis.hash C) low k ∧
      Links bc.index (bc.blocks.genesis.hash C) k high bc.head ∧
      bc.blocks = extend ⟨bc.blocks.genesis, []⟩ (low ++ high) ∧ low.length = i := by
  obtain ⟨bs, hbs, hblocks⟩ := hs.active
  have hget : (bc.blocks.get? i).map (Block.hash C) = some k := by simpa [isActive] using h
  rw [hblocks, ActiveChain.get?_extend_genesis] at hget
  obtain ⟨b, hb, hk⟩ := Option.map_eq_some_iff.mp hget
  cases i with
  | zero =>
    have hgen : bc.blocks.genesis = b := Option.some.inj hb
    rw [← hgen] at hk
    exact ⟨[], bs, hk ▸ .nil, hk ▸ hbs, by simpa using hblocks, rfl⟩
  | succ j =>
    rw [List.getElem?_cons_succ] at hb
    obtain ⟨hj, hbj⟩ := List.getElem?_eq_some_iff.mp hb
    have hcut : bs.take j ++ [b] ++ bs.drop (j + 1) = bs := by
      rw [← hbj, List.take_append_getElem, List.take_append_drop]
    rw [← hcut] at hbs
    obtain ⟨m, hlow, hhigh⟩ := hbs.split
    have hm : m = k := by rw [← hk, hlow.last_hash hs.tree]
    rw [hm] at hlow hhigh
    refine ⟨bs.take j ++ [b], bs.drop (j + 1), hlow, hhigh, by rw [hcut]; exact hblocks, ?_⟩
    rw [length_append, length_singleton, List.length_take, Nat.min_eq_left (by omega)]

theorem isActive_length (hs : Skeleton C bc) {low high : List Block} {k : Hash}
    (hlow : Links bc.index (bc.blocks.genesis.hash C) (bc.blocks.genesis.hash C) low k)
    (hblocks : bc.blocks = extend ⟨bc.blocks.genesis, []⟩ (low ++ high)) :
    bc.isActive C low.length k = true := by
  rw [isActive, hblocks, ActiveChain.get?_length, Option.map_some, (path_tip hs.tree hlow).1]
  exact decide_eq_true rfl

theorem isActive_genesis : bc.isActive C 0 (bc.blocks.genesis.hash C) = true := by
  simp [isActive, ActiveChain.get?_zero]

theorem isActive_head (hs : Skeleton C bc) {e : BlockIndexEntry} (he : bc.index.get? bc.head = some e) :
    bc.isActive C e.height bc.head = true := by
  obtain ⟨bs, hbs, hblocks⟩ := hs.active
  obtain ⟨e0, he0, -, h0⟩ := hs.tree.root
  obtain ⟨e', he', hheight⟩ := hbs.height hs.tree he0
  cases he.symm.trans he'
  rw [hheight, h0, Nat.zero_add]
  rw [← List.append_nil bs] at hblocks
  exact hs.isActive_length hbs hblocks

variable {above : List Block}

theorem findFork (hs : Skeleton C bc) {n fork : ℕ} {hash : Hash} {blocks : List Block}
    (h : bc.findFork C n hash above = some (fork, blocks)) :
    ∃ k bs, bc.isActive C fork k = true ∧ Links bc.index (bc.blocks.genesis.hash C) k bs hash ∧
      blocks = bs ++ above := by
  induction n generalizing hash above with
  | zero => cases h
  | succ n ih =>
    unfold Blockchain.findFork at h
    split at h
    · cases h
    rename_i e he
    split at h
    · rename_i hactive
      cases h
      exact ⟨hash, [], hactive, .nil, rfl⟩
    rename_i hactive
    obtain ⟨k, bs, hk, hlinks, hblocks⟩ := ih h
    refine ⟨k, bs ++ [e.block], hk, .snoc hlinks he rfl ?_, by rw [hblocks]; simp⟩
    -- Genesis is active, so the walk does not pass it.
    rintro rfl
    obtain ⟨e0, he0, -, h0⟩ := hs.tree.root
    rw [he0] at he
    cases he
    exact hactive (h0 ▸ isActive_genesis)

theorem findFork_of_links (hs : Skeleton C bc) {g a k : Hash} {e0 : BlockIndexEntry} {bs : List Block} {n : ℕ}
    (hlinks : Links bc.index g a bs k) (ha : bc.index.get? a = some e0)
    (hactive : bc.isActive C e0.height a = true) (haside : ∀ b ∈ bs, ∀ i, bc.isActive C i (b.hash C) = false)
    (hn : bs.length < n) : bc.findFork C n k above = some (e0.height, bs ++ above) := by
  induction hlinks generalizing n above with
  | nil =>
    obtain ⟨n, rfl⟩ : ∃ m, n = m + 1 := ⟨n - 1, by simp at hn; omega⟩
    unfold Blockchain.findFork
    rw [ha]
    dsimp only
    rw [if_pos hactive]
    rfl
  | @snoc bs p k e hbelow he hp hk ih =>
    rw [length_append, length_singleton] at hn
    obtain ⟨n, rfl⟩ : ∃ m, n = m + 1 := ⟨n - 1, by omega⟩
    have hoff : bc.isActive C e.height k = false := by
      rw [← hs.tree.hash_eq he]
      exact haside e.block (by simp) _
    unfold Blockchain.findFork
    rw [he]
    dsimp only
    rw [hoff, hp, if_neg (by simp), ih (fun b hb => haside b (List.mem_append_left _ hb)) (by omega)]
    simp

theorem ancestorsOf (hs : Skeleton C bc) {n : ℕ} {hash : Hash} {blocks : List Block}
    (h : Blockchain.ancestorsOf bc n hash above = some blocks) :
    ∃ bs, Links bc.index (bc.blocks.genesis.hash C) (bc.blocks.genesis.hash C) bs hash ∧ blocks = bs ++ above := by
  induction n generalizing hash above with
  | zero => cases h
  | succ n ih =>
    unfold Blockchain.ancestorsOf at h
    split at h
    · rename_i hg
      cases h
      rw [hg, hs.genesis_hash]
      exact ⟨[], .nil, rfl⟩
    · rename_i hg
      split at h
      · cases h
      rename_i e he
      obtain ⟨bs, hlinks, hblocks⟩ := ih h
      rw [hs.genesis_hash] at hg
      exact ⟨bs ++ [e.block], .snoc hlinks he rfl hg, by rw [hblocks]; simp⟩

end Skeleton

/-! ## Importing -/

/-- What header validation establishes. -/
structure Validated (N : NodeEnv) (bc : Blockchain) (block : Block) (cand : Candidate)
    (parent : BlockIndexEntry) : Prop where
  valid : bc.validateCandidate N block = .ok (.ok cand)
  parent_eq : bc.index.get? block.header.prevHash = some parent
  height_eq : block.header.height.toNat = parent.height + 1
  cand_height : cand.height = parent.height + 1
  pinned : ∀ pin, bc.checkpoints.get? block.header.height.toNat = some pin → block.hash N.toCrypto = pin
  time : parent.block.header.timestampMs ≤ block.header.timestampMs
  target : bc.expectedTarget parent block.header.timestampMs = .ok cand.shaTarget
  work : cand.newWork = parent.chainWork.saturatingAdd (Work.ofTarget cand.shaTarget)

theorem validateCandidate_eq_ok (h : bc.validateCandidate N block = .ok (.ok cand)) :
    ∃ parent, Validated N bc block cand parent := by
  have hvalid := h
  unfold validateCandidate at h
  split at h
  · cases h
  rename_i parent hparent
  dsimp only at h
  split at h
  · cases h
  obtain ⟨shaTarget, htarget, h⟩ := bind_eq_ok.mp h
  have h : bc.checkCandidate N block parent shaTarget = .ok cand := Except.ok.inj h
  unfold checkCandidate at h
  dsimp only at h
  split at h
  · cases h
  rename_i hheight
  split at h
  · cases h
  rename_i hpin
  split at h
  · cases h
  rename_i htime
  iterate 6
    split at h
    · cases h
  cases h
  refine ⟨parent, hvalid, hparent, by simpa using hheight, rfl, fun pin hp => ?_, BitVec.not_lt.mp htime, htarget, rfl⟩
  rw [hp] at hpin
  simpa using hpin

/-- What an import does to the tree. -/
inductive Grows (N : NodeEnv) (bc : Blockchain) (block : Block) (bc' : Blockchain) : Prop
  | same (hout : bc'.outline = bc.outline)
  | stored {cand : Candidate} {parent : BlockIndexEntry} (hv : Validated N bc block cand parent)
      (hnew : bc.index.get? (block.hash N.toCrypto) = none)
      (hout : bc'.outline = (bc.insertEntry N block cand).outline)
      (hworse : ∃ head, bc.index.get? bc.head = some head ∧
        beats cand.newWork (block.hash N.toCrypto) head.chainWork bc.head = false)
  | adopted {cand : Candidate} {parent : BlockIndexEntry} {bs : List Block}
      (hv : Validated N bc block cand parent) (hnew : bc.index.get? (block.hash N.toCrypto) = none)
      (hpath : Links bc.index (bc.blocks.genesis.hash N.toCrypto) (bc.blocks.genesis.hash N.toCrypto) bs
        block.header.prevHash)
      (hout : bc'.outline = ⟨(bc.insertEntry N block cand).index,
        extend ⟨bc.blocks.genesis, []⟩ (bs ++ [block]), block.hash N.toCrypto⟩)
      (hbest : block.header.prevHash = bc.head ∨ ∃ head, bc.index.get? bc.head = some head ∧
        beats cand.newWork (block.hash N.toCrypto) head.chainWork bc.head = true)

variable {parent : BlockIndexEntry}

theorem Skeleton.insertEntry (hs : Skeleton N bc) (hv : Validated N bc block cand parent)
    (hnew : bc.index.get? (block.hash N) = none) : Tree N bc.blocks.genesis (bc.insertEntry N block cand).index :=
  hs.tree.insert hnew rfl (hv.height_eq.trans hv.cand_height.symm) hv.parent_eq hv.cand_height

theorem Skeleton.adopted (hs : Skeleton N bc) (hsetup : bc'.setup = bc.setup)
    (hv : Validated N bc block cand parent) (hnew : bc.index.get? (block.hash N) = none)
    (hpath : Links bc.index (bc.blocks.genesis.hash N) (bc.blocks.genesis.hash N) bs
      block.header.prevHash) (hout : bc'.outline = ⟨(bc.insertEntry N block cand).index,
      extend ⟨bc.blocks.genesis, []⟩ (bs ++ [block]), block.hash N⟩) : Skeleton N bc' := by
  have hrules : bc'.rules = bc.rules := congrArg Setup.rules hsetup
  have hgenesis : bc'.blocks.genesis = bc.blocks.genesis := congrArg Setup.genesis hsetup
  have hsub : ∀ k e, bc.index.get? k = some e → (bc.insertEntry N block cand).index.get? k = some e :=
    fun k e he => BlockIndex.get?_insert_of_some hnew he
  have hindex : bc'.index = (bc.insertEntry N block cand).index := congrArg Outline.index hout
  have hblocks : bc'.blocks = extend ⟨bc.blocks.genesis, []⟩ (bs ++ [block]) :=
    congrArg Outline.blocks hout
  have hhead : bc'.head = block.hash N := congrArg Outline.head hout
  have hne : block.hash N ≠ bc.blocks.genesis.hash N := by
    intro heq
    obtain ⟨e0, he0, -⟩ := hs.tree.root
    rw [heq, he0] at hnew
    cases hnew
  constructor
  · rw [hindex, hgenesis]
    exact hs.insertEntry hv hnew
  · rw [hrules, hgenesis]
    exact hs.genesis_hash
  · rw [hindex, hgenesis, hhead]
    exact ⟨bs ++ [block], .snoc (hpath.mono hsub) (OrdMap.get?_insert_self ..) rfl hne, hblocks⟩

theorem Skeleton.stored (hs : Skeleton N bc) (hsetup : bc'.setup = bc.setup)
    (hv : Validated N bc block cand parent) (hnew : bc.index.get? (block.hash N) = none)
    (hout : bc'.outline = (bc.insertEntry N block cand).outline) : Skeleton N bc' := by
  have hrules : bc'.rules = bc.rules := congrArg Setup.rules hsetup
  have hgenesis : bc'.blocks.genesis = bc.blocks.genesis := congrArg Setup.genesis hsetup
  have hindex : bc'.index = (bc.insertEntry N block cand).index := congrArg Outline.index hout
  have hblocks : bc'.blocks = bc.blocks := congrArg Outline.blocks hout
  have hhead : bc'.head = bc.head := congrArg Outline.head hout
  have hsub : ∀ k e, bc.index.get? k = some e → (bc.insertEntry N block cand).index.get? k = some e :=
    fun k e he => BlockIndex.get?_insert_of_some hnew he
  obtain ⟨bs, hbs, hactive⟩ := hs.active
  constructor
  · rw [hindex, hgenesis]
    exact hs.insertEntry hv hnew
  · rw [hrules, hgenesis]
    exact hs.genesis_hash
  · rw [hindex, hblocks, hhead]
    exact ⟨bs, hbs.mono hsub, hactive⟩

theorem Grows.skeleton (hs : Skeleton N bc) (hsetup : bc'.setup = bc.setup)
    (h : Grows N bc block bc') : Skeleton N bc' := by
  cases h with
  | same hout => exact hs.congr (congrArg Setup.rules hsetup) hout
  | stored hv hnew hout hworse => exact hs.stored hsetup hv hnew hout
  | adopted hv hnew hpath hout hbest => exact hs.adopted hsetup hv hnew hpath hout

/-- The active chain around the fork of a candidate. -/
structure Forked (C : Crypto) (bc : Blockchain) (tip : Block) (fork : ℕ) (low high bs : List Block) : Prop where
  base : Links bc.index (bc.blocks.genesis.hash C) (bc.blocks.genesis.hash C) (low ++ bs) tip.header.prevHash
  blocks_eq : bc.blocks = (extend ⟨bc.blocks.genesis, []⟩ low).extend high
  height_eq : (extend ⟨bc.blocks.genesis, []⟩ low).height = fork
  old_above : ∀ b ∈ high, fork < b.header.height.toNat
  new_above : ∀ b ∈ bs ++ [tip], fork < b.header.height.toNat

theorem Skeleton.forked (hs : Skeleton N bc) (hv : Validated N bc block cand parent)
    (h : bc.coveredFork N block = some (fork, blocks)) :
    ∃ low high bs, blocks = bs ++ [block] ∧ Forked N bc block fork low high bs := by
  obtain ⟨hfork, -⟩ := Option.filter_eq_some_iff.mp h
  obtain ⟨k, bs, hactive, hbs, rfl⟩ := hs.findFork hfork
  obtain ⟨low, high, hlow, hhigh, hblocks, hlen⟩ := hs.isActive_split hactive
  obtain ⟨e0, he0, -, h0⟩ := hs.tree.root
  obtain ⟨ek, hek, hkheight⟩ := hlow.height hs.tree he0
  have hkfork : ek.height = fork := by rw [hkheight, h0, hlen, Nat.zero_add]
  refine ⟨low, high, bs, rfl, hlow.trans hbs, ?_, ?_, ?_, ?_⟩
  · exact hblocks.trans (extend_append low high)
  · rw [(path_tip hs.tree hlow).2, hlen]
  · rw [← hkfork]
    exact hhigh.lt_height hs.tree hek
  intro b hb
  obtain hb | hb := List.mem_append.mp hb
  · rw [← hkfork]
    exact hbs.lt_height hs.tree hek b hb
  obtain ⟨ep, hep, hpheight⟩ := hbs.height hs.tree hek
  rw [hv.parent_eq] at hep
  cases hep
  rw [List.mem_singleton.mp hb, hv.height_eq]
  omega

/-- After a branch is connected above a fork, restoring gives the old chain. -/
theorem Forked.connectBranch {low high : List Block} {bc1 bc2 : Blockchain} {old : List Block}
    {adopt : Bool} (hs : Skeleton N bc)
    (hf : Forked N bc block fork low high bs) (hd : disconnectTo N bc fork = .ok (bc1, old))
    (hc : Blockchain.connectBranch N cand adopt bc1 (bs ++ [block]) = .ok (bc2, outcome)) :
    (∀ bc3, restore N bc2 fork old = .ok bc3 → bc3.outline = bc.outline) ∧ ∀ receipts, outcome = .connected receipts →
      bc2.index = bc.index ∧ bc2.blocks = extend ⟨bc.blocks.genesis, []⟩ (low ++ bs ++ [block]) := by
  have hdis : disconnectLoop N fork bc.undoRing bc [] = .ok (bc1, old) := hd
  obtain ⟨hout1, hold⟩ := disconnectLoop_outline hf.blocks_eq hf.height_eq.le hf.old_above hdis
  have hold : old = high.reverse := by simpa using hold
  have hindex1 : bc1.index = bc.index := congrArg Outline.index hout1
  have hblocks1 : bc1.blocks = extend ⟨bc.blocks.genesis, []⟩ low := congrArg Outline.blocks hout1
  obtain ⟨done, rest, hsplit, hout2, hall⟩ := connectBranch_outline hc
  have hindex2 : bc2.index = bc.index := (congrArg Outline.index hout2).trans hindex1
  have hblocks2 : bc2.blocks = (extend ⟨bc.blocks.genesis, []⟩ low).extend done := by
    rw [← hblocks1]
    exact congrArg Outline.blocks hout2
  refine ⟨fun bc3 hr => ?_, fun receipts ho => ⟨hindex2, ?_⟩⟩
  · rw [hold] at hr
    have hdone : ∀ b ∈ done, fork < b.header.height.toNat :=
      fun b hb => hf.new_above b (hsplit ▸ List.mem_append_left _ hb)
    rw [restore_outline hblocks2 hf.height_eq.le hdone hr, hindex2, ← hf.blocks_eq, hs.head_eq]
    rfl
  · have hrest : rest = [] := hall receipts ho
    rw [hrest, List.append_nil] at hsplit
    rw [hblocks2, ← hsplit, ← extend_append, append_assoc]

theorem tryIncrementalReorg_grows {r : Option (Except ChainError Imported)} (hs : Skeleton N bc)
    (hv : Validated N bc block cand parent) (h : tryIncrementalReorg N bc block cand = .ok (bc', r)) :
    bc'.outline = bc.outline ∨ r.isSome ∧ ∃ bs, Links bc.index (bc.blocks.genesis.hash N) (bc.blocks.genesis.hash N) bs
        block.header.prevHash ∧ bc'.outline = ⟨(bc.insertEntry N block cand).index,
        extend ⟨bc.blocks.genesis, []⟩ (bs ++ [block]), block.hash N⟩ := by
  unfold tryIncrementalReorg at h
  split at h
  · cases h
    exact .inl rfl
  rename_i fork blocks hcovered
  obtain ⟨low, high, bs, rfl, hf⟩ := hs.forked hv hcovered
  obtain ⟨⟨bc1, old⟩, hd, h⟩ := bind_eq_ok.mp h
  obtain ⟨⟨bc2, outcome⟩, hc, h⟩ := bind_eq_ok.mp h
  dsimp only at hd hc h
  obtain ⟨hout2, hconnected⟩ := hf.connectBranch hs hd hc
  split at h
  · obtain ⟨bc3, hr, h⟩ := bind_eq_ok.mp h
    cases h
    exact .inl (hout2 _ hr)
  · obtain ⟨bc3, hr, h⟩ := bind_eq_ok.mp h
    obtain ⟨bc4, hsync, h⟩ := bind_eq_ok.mp h
    cases h
    exact .inl ((outline_syncActiveDifficulty hsync).trans (hout2 _ hr))
  · obtain ⟨bc3, hsync, h⟩ := bind_eq_ok.mp h
    cases h
    refine .inr ⟨rfl, low ++ bs, hf.base, (outline_syncActiveDifficulty hsync).trans ?_⟩
    obtain ⟨hindex, hblocks⟩ := hconnected _ rfl
    simp only [outline, insertEntry, hindex, hblocks]

theorem tryIncrementalSideBranch_outline {r : Option (Except ChainError Unit)} (hs : Skeleton N bc)
    (hv : Validated N bc block cand parent) (h : tryIncrementalSideBranch N bc block cand = .ok (bc', r)) :
    bc'.outline = bc.outline := by
  unfold tryIncrementalSideBranch at h
  split at h
  · cases h
    rfl
  rename_i fork blocks hcovered
  obtain ⟨low, high, bs, rfl, hf⟩ := hs.forked hv hcovered
  obtain ⟨⟨bc1, old⟩, hd, h⟩ := bind_eq_ok.mp h
  obtain ⟨⟨bc2, outcome⟩, hc, h⟩ := bind_eq_ok.mp h
  obtain ⟨bc3, hr, h⟩ := bind_eq_ok.mp h
  obtain ⟨bc4, hsync, h⟩ := bind_eq_ok.mp h
  cases h
  exact (outline_syncActiveDifficulty hsync).trans ((hf.connectBranch hs hd hc).1 _ hr)

theorem insertEntry_outline (hout : bc'.outline = bc.outline) :
    (bc'.insertEntry N block cand).outline = (bc.insertEntry N block cand).outline := by
  have hindex : bc'.index = bc.index := congrArg Outline.index hout
  have hblocks : bc'.blocks = bc.blocks := congrArg Outline.blocks hout
  have hhead : bc'.head = bc.head := congrArg Outline.head hout
  simp only [outline, insertEntry, hindex, hblocks, hhead]

variable {res : Except ChainError Imported} {head : BlockIndexEntry}

theorem importExtending_grows (hs : Skeleton N bc) (hv : Validated N bc block cand parent)
    (hnew : bc.index.get? (block.hash N) = none) (hprev : block.header.prevHash = bc.head)
    (h : importExtending N bc block cand = .ok (bc', res)) : Grows N bc block bc' := by
  obtain ⟨⟨bc1, r⟩, hc, h⟩ := bind_eq_ok.mp h
  dsimp only at h
  obtain ⟨L, receipts, undo, rfl, rfl⟩ | ⟨L, e, rfl, rfl⟩ := connectToActive_eq_ok hc
  · obtain ⟨bc2, hsync, h⟩ := bind_eq_ok.mp h
    cases h
    obtain ⟨bs, hbs, hblocks⟩ := hs.active
    refine .adopted hv hnew (hprev ▸ hbs) ?_ (.inl hprev)
    rw [outline_indexBlockReceipts, outline_syncActiveDifficulty hsync, extend_snoc, ← hblocks]
    rfl
  · cases h
    exact .same rfl

theorem importReorganising_grows (hs : Skeleton N bc)
    (hv : Validated N bc block cand parent) (hnew : bc.index.get? (block.hash N) = none)
    (hhead : bc.index.get? bc.head = some head)
    (hbeats : beats cand.newWork (block.hash N) head.chainWork bc.head = true)
    (h : importReorganising N bc block cand = .ok (bc', res)) : Grows N bc block bc' := by
  obtain ⟨⟨bc1, r⟩, hr, h⟩ := bind_eq_ok.mp h
  obtain hout | ⟨hsome, bs, hbs, hout⟩ := tryIncrementalReorg_grows hs hv hr
  · cases r with
    | some result =>
      cases h
      exact .same hout
    | none =>
      obtain ⟨x, hx, h⟩ := bind_eq_ok.mp h
      rcases x with e | rebuilt
      · cases h
        exact .same hout
      have hs1 : Skeleton N bc1 := hs.congr (congrArg Setup.rules (setup_tryIncrementalReorg hr)) hout
      have hindex : bc1.index = bc.index := congrArg Outline.index hout
      have hgenesis : bc1.blocks.genesis = bc.blocks.genesis :=
        congrArg (ActiveChain.genesis ∘ Outline.blocks) hout
      obtain ⟨ancestors, hanc, hblocks⟩ := rebuildBranch_blocks hx
      obtain ⟨bs, hbs, happend⟩ := hs1.ancestorsOf hanc
      rw [hindex, hgenesis] at hbs
      obtain ⟨bc2, hsync, h⟩ := bind_eq_ok.mp h
      cases h
      refine .adopted hv hnew hbs ?_ (.inr ⟨head, hhead, hbeats⟩)
      refine Eq.trans (b := bc2.outline) (outline_rebuildReceiptIndex _) ?_
      have hanc' : ancestors = bs := by simpa using happend
      rw [outline_syncActiveDifficulty hsync, extend_snoc]
      simp only [outline, insertEntry, hindex, hblocks, hgenesis, hanc']
      rfl
  · obtain ⟨result, rfl⟩ := Option.isSome_iff_exists.mp hsome
    cases h
    exact .adopted hv hnew hbs hout (.inr ⟨head, hhead, hbeats⟩)

theorem importSideBranch_grows (hs : Skeleton N bc)
    (hv : Validated N bc block cand parent) (hnew : bc.index.get? (block.hash N) = none)
    (hhead : bc.index.get? bc.head = some head)
    (hbeats : beats cand.newWork (block.hash N) head.chainWork bc.head = false)
    (h : importSideBranch N bc block cand = .ok (bc', res)) : Grows N bc block bc' := by
  obtain ⟨⟨bc1, r⟩, hr, h⟩ := bind_eq_ok.mp h
  have hout := tryIncrementalSideBranch_outline hs hv hr
  cases r with
  | some result =>
    rcases result with e | u
    · cases h
      exact .same hout
    cases h
    exact .stored hv hnew (insertEntry_outline hout) ⟨head, hhead, hbeats⟩
  | none =>
    obtain ⟨x, hx, h⟩ := bind_eq_ok.mp h
    rcases x with e | rebuilt
    · cases h
      exact .same hout
    cases h
    exact .stored hv hnew (insertEntry_outline hout) ⟨head, hhead, hbeats⟩

theorem importBlockTracked_grows (hs : Skeleton N bc)
    (h : importBlockTracked N bc block = .ok (bc', res)) : Grows N bc block bc' := by
  cases importBlockTracked_cases h with
  | known _ hbc | invalid _ _ hbc => exact .same (by rw [hbc])
  | extending hnew hv hprev h =>
    obtain ⟨parent, hv⟩ := validateCandidate_eq_ok hv
    exact importExtending_grows hs hv hnew hprev h
  | reorganising hnew hv _ hhead hbeats h =>
    obtain ⟨parent, hv⟩ := validateCandidate_eq_ok hv
    exact importReorganising_grows hs hv hnew hhead hbeats h
  | side hnew hv _ hhead hbeats h =>
    obtain ⟨parent, hv⟩ := validateCandidate_eq_ok hv
    exact importSideBranch_grows hs hv hnew hhead hbeats h

theorem importBlockTracked_skeleton (hs : Skeleton N bc)
    (h : importBlockTracked N bc block = .ok (bc', res)) : Skeleton N bc' :=
  (importBlockTracked_grows hs h).skeleton hs (setup_importBlockTracked h)

theorem importBlockTracked_index (hs : Skeleton N bc) (h : importBlockTracked N bc block = .ok (bc', res)) :
    bc'.index = bc.index ∨ ∃ cand parent, Validated N bc block cand parent ∧
      bc.index.get? (block.hash N) = none ∧ bc'.index = (bc.insertEntry N block cand).index := by
  cases importBlockTracked_grows hs h with
  | same hout => exact .inl (congrArg Outline.index hout)
  | stored hv hnew hout hworse | adopted hv hnew _ hout _ => exact .inr ⟨_, _, hv, hnew, congrArg Outline.index hout⟩

/-! ## Reachable chains -/

theorem skeleton_new {config : GenesisConfig} {R : Rules} (h : Blockchain.new N config = .ok bc)
    (hR : bc.rules.Redeployed R) : Skeleton N { bc with rules := R } := by
  obtain ⟨g, hg, -, -, rfl⟩ := new_eq_ok h
  have hget : ∀ {k e}, (ofGenesis N config g).index.get? k = some e →
      k = g.block.hash N ∧ e.block = g.block ∧ e.height = 0 := by
    intro k e he
    change (OrdMap.empty.insert _ _).get? k = some e at he
    rw [OrdMap.get?_insert, OrdMap.get?_empty] at he
    split_ifs at he with hk
    cases he
    exact ⟨hk.symm, rfl, rfl⟩
  refine ⟨⟨⟨_, OrdMap.get?_insert_self .., rfl, rfl⟩, fun he => ?_, fun he => ?_, fun he hne => ?_⟩, ?_, ?_⟩
  · obtain ⟨rfl, hb, -⟩ := hget he
    rw [hb]
  · obtain ⟨-, hb, h0⟩ := hget he
    rw [hb, h0]
    exact genesis_height_of_build hg
  · exact absurd (hget he).1 hne
  · exact hR.genesisHash
  · exact ⟨[], .nil, rfl⟩

theorem Skeleton.of_unpinned {C : Crypto} (hs : Skeleton C bc) (h : bc'.unpinned = bc.unpinned) : Skeleton C bc' := by
  have hrules : bc'.unpinned.rules = bc.unpinned.rules := congrArg rules h
  have hout : bc'.unpinned.outline = bc.unpinned.outline := congrArg outline h
  exact hs.congr hrules hout

theorem Reachable.skeleton (h : Reachable N bc) : Skeleton N bc := by
  induction h with
  | new h hR => exact skeleton_new h hR
  | call _ hrun ih =>
    obtain ⟨block, res, -, hi⟩ | hun := run_cases hrun
    · exact importBlockTracked_skeleton ih hi
    · exact ih.of_unpinned hun

/-- No block is older than its parent. -/
def Timed (C : Crypto) (bc : Blockchain) : Prop :=
  ∀ {k e p}, bc.index.get? k = some e → k ≠ bc.blocks.genesis.hash C →
    bc.index.get? e.block.header.prevHash = some p → p.block.header.timestampMs ≤ e.block.header.timestampMs

theorem Timed.importBlock (ht : Timed N bc) (hs : Skeleton N bc)
    (h : importBlockTracked N bc block = .ok (bc', res)) : Timed N bc' := by
  have hgenesis : bc'.blocks.genesis = bc.blocks.genesis := congrArg Setup.genesis (setup_importBlockTracked h)
  intro k e p he hk hp
  rw [hgenesis] at hk
  obtain hindex | ⟨cand, parent, hv, hnew, hindex⟩ := importBlockTracked_index hs h
  · rw [hindex] at he hp
    exact ht he hk hp
  rw [hindex] at he hp
  change (bc.index.insert (block.hash N) _).get? k = some e at he
  rw [OrdMap.get?_insert] at he
  split_ifs at he with hkey
  · cases he
    cases hp.symm.trans (BlockIndex.get?_insert_of_some hnew hv.parent_eq)
    exact hv.time
  · obtain ⟨p', hp', -⟩ := hs.tree.parent he hk
    cases hp.symm.trans (BlockIndex.get?_insert_of_some hnew hp')
    exact ht he hk hp'

theorem Reachable.timed (h : Reachable N bc) : Timed N bc := by
  induction h with
  | new h hR =>
    obtain ⟨g, -, -, -, rfl⟩ := new_eq_ok h
    intro k e p he hk
    change (OrdMap.empty.insert (g.block.hash N) _).get? k = some e at he
    rw [OrdMap.get?_insert, OrdMap.get?_empty] at he
    split_ifs at he with hkey
    exact absurd hkey.symm hk
  | call hbc hrun ih =>
    obtain ⟨block, res, -, hi⟩ | hun := run_cases hrun
    · exact ih.importBlock hbc.skeleton hi
    have hindex : _ = _ := congrArg index hun
    have hblocks : _ = _ := congrArg blocks hun
    intro k e p he hk hp
    exact ih (hindex ▸ he) (fun heq => hk (heq.trans (congrArg (fun c => c.genesis.hash N) hblocks.symm)))
      (hindex ▸ hp)

end Blockchain
end Sov
