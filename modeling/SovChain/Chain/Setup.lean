import SovChain.Chain.Checkpoints
import SovChain.Runtime.Batch

/-!
# What a call leaves alone

Importing a block changes the ledger, the active chain above genesis, the index and what is derived from
them. The rules, the pins and their linkage, and the genesis block stay as they are. Every other call changes
the pins and their linkage at most.
-/

namespace Sov
open Sov.Runtime (bind_eq_ok)
namespace ActiveChain
variable (c : ActiveChain) (b : Block)

@[simp] theorem toList_push : (c.push b).toList = c.toList ++ [b] := by simp [toList, push]

theorem toList_ne_nil : c.toList ≠ [] := by simp [toList]

theorem length_toList : c.toList.length = c.below.length + 1 := by simp [toList]

theorem get?_zero : c.get? 0 = some c.genesis := by
  rw [get?, toList, ← List.head?_eq_getElem?, List.head?_reverse, List.getLast?_cons, genesis]

@[simp] theorem genesis_push : (c.push b).genesis = c.genesis := by
  have h := get?_zero (c.push b)
  rw [get?, toList_push, List.getElem?_append_left (by rw [length_toList]; omega)] at h
  have h' := get?_zero c
  rw [get?, h] at h'
  exact Option.some.inj h'

variable {c b}

theorem pop?_eq_some {c' : ActiveChain} (h : c.pop? = some (b, c')) : c = c'.push b := by
  obtain ⟨tip, below⟩ := c
  unfold pop? at h
  rcases below with _ | ⟨t, rest⟩
  · cases h
  cases h
  rfl

@[simp] theorem pop?_push : (c.push b).pop? = some (b, c) := rfl

end ActiveChain

/-- What importing blocks does not touch. -/
structure Setup where
  rules : Rules
  genesisLedger : Ledger
  checkpoints : OrdMap ℕ Hash
  linkedToCheckpoint : OrdMap Hash Unit
  linkagePending : List Hash
  linkageNextHeight : ℕ
  linkagePrev : Option Hash
  signalMask : U32
  genesis : Block

namespace Blockchain

def setup (bc : Blockchain) : Setup where
  rules := bc.rules
  genesisLedger := bc.genesisLedger
  checkpoints := bc.checkpoints
  linkedToCheckpoint := bc.linkedToCheckpoint
  linkagePending := bc.linkagePending
  linkageNextHeight := bc.linkageNextHeight
  linkagePrev := bc.linkagePrev
  signalMask := bc.signalMask
  genesis := bc.blocks.genesis

section
variable {N : NodeEnv} {bc bc' : Blockchain} {block : Block} {cand : Candidate}

@[simp] theorem setup_indexBlockReceipts (height : ℕ) (receipts : List Receipt) :
    (bc.indexBlockReceipts height receipts).setup = bc.setup := by
  unfold indexBlockReceipts
  split_ifs <;> rfl

@[simp] theorem setup_forgetReceipts (height : ℕ) : (bc.forgetReceipts height).setup = bc.setup := by
  unfold forgetReceipts
  split <;> rfl

theorem setup_rebuildReceiptIndex (branch : List (ℕ × List Receipt)) :
    (bc.rebuildReceiptIndex branch).setup = bc.setup := by
  have hfold : ∀ (branch : List (ℕ × List Receipt)) (bc : Blockchain),
      (branch.foldl (fun bc e => bc.indexBlockReceipts e.1 e.2) bc).setup = bc.setup := by
    intro branch
    induction branch with
    | nil => exact fun _ => rfl
    | cons e rest ih => exact fun bc => (ih _).trans (setup_indexBlockReceipts _ _)
  exact hfold branch _

/-- What a change of difficulty can do. -/
theorem syncActiveDifficulty_eq_ok (h : bc.syncActiveDifficulty = .ok bc') :
    ∃ head base, bc.index.get? bc.head = some head ∧ bc.baseTarget head = .ok base ∧
      bc' = { bc with sha256dDifficulty := Difficulty.fromTarget base } := by
  obtain ⟨head, hhead, h⟩ := bind_eq_ok.mp h
  obtain ⟨base, hbase, h⟩ := bind_eq_ok.mp h
  cases h
  unfold headEntry at hhead
  split at hhead
  · cases hhead
  · rename_i e he
    cases hhead
    exact ⟨_, base, he, hbase, rfl⟩

theorem setup_syncActiveDifficulty (h : bc.syncActiveDifficulty = .ok bc') : bc'.setup = bc.setup := by
  obtain ⟨head, base, -, -, rfl⟩ := syncActiveDifficulty_eq_ok h
  rfl

variable {shaTarget : Target}

theorem connectToActive_eq_ok {r : Except ChainError (List Receipt)}
    (h : connectToActive N bc block shaTarget = .ok (bc', r)) :
    (∃ L receipts undo, r = .ok receipts ∧ bc' =
      { bc with
        ledger := L
        signals := bc.signals.record block.header.height.toNat block.header.versionBits
        blocks := bc.blocks.push block
        undoRing := rememberUndo bc.undoRing
          ⟨block.header.height.toNat, block.hash N, undo⟩ }) ∨
    ∃ L e, r = .error e ∧ bc' = { bc with ledger := L } := by
  unfold connectToActive at h
  split at h
  · cases h
    exact .inr ⟨bc.ledger, _, rfl, rfl⟩
  obtain ⟨⟨L, result⟩, -, h⟩ := bind_eq_ok.mp h
  dsimp only at h
  split at h
  · cases h
    exact .inl ⟨_, _, _, rfl, rfl⟩
  · cases h
    exact .inr ⟨_, _, rfl, rfl⟩

theorem setup_connectToActive {r : Except ChainError (List Receipt)}
    (h : connectToActive N bc block shaTarget = .ok (bc', r)) : bc'.setup = bc.setup := by
  obtain ⟨L, receipts, undo, -, rfl⟩ | ⟨L, e, -, rfl⟩ := connectToActive_eq_ok h
  · simp only [setup, ActiveChain.genesis_push]
  · rfl

theorem setup_disconnectLoop {target : ℕ} {ring : List UndoEntry} {taken taken' : List Block}
    (h : disconnectLoop N target ring bc taken = .ok (bc', taken')) : bc'.setup = bc.setup := by
  induction ring generalizing bc taken with
  | nil =>
    unfold disconnectLoop at h
    split_ifs at h
    cases h
    rfl
  | cons e ring ih =>
    unfold disconnectLoop at h
    split_ifs at h
    · cases h
      rfl
    dsimp only at h
    split at h
    · cases h
    rename_i b blocks hpop
    refine (ih h).trans ?_
    have hblocks : bc.blocks.genesis = blocks.genesis := by
      rw [ActiveChain.pop?_eq_some hpop, ActiveChain.genesis_push]
    rw [setup_forgetReceipts]
    simp only [setup, hblocks]

theorem setup_disconnectTo {target : ℕ} {taken : List Block}
    (h : disconnectTo N bc target = .ok (bc', taken)) : bc'.setup = bc.setup := setup_disconnectLoop h

theorem reconnectBlock_eq_ok (h : reconnectBlock N bc block = .ok bc') :
    ∃ e bc1 receipts, bc.index.get? (block.hash N) = some e ∧
      connectToActive N bc block e.shaTarget = .ok (bc1, .ok receipts) ∧
      bc' = bc1.indexBlockReceipts block.header.height.toNat receipts := by
  unfold reconnectBlock at h
  split at h
  · cases h
  rename_i e he
  obtain ⟨⟨bc1, r⟩, hc, h⟩ := bind_eq_ok.mp h
  dsimp only at h
  split at h
  · cases h
  · rename_i receipts
    cases h
    exact ⟨e, bc1, receipts, he, hc, rfl⟩

variable {blocks : List Block}

theorem setup_reconnectBlocks (h : blocks.foldlM (reconnectBlock N) bc = .ok bc') : bc'.setup = bc.setup := by
  induction blocks generalizing bc with
  | nil =>
    cases h
    rfl
  | cons b rest ih =>
    obtain ⟨bc1, hb, h⟩ := bind_eq_ok.mp h
    obtain ⟨e, bc2, receipts, -, hc, rfl⟩ := reconnectBlock_eq_ok hb
    rw [ih h, setup_indexBlockReceipts, setup_connectToActive hc]

theorem setup_reconnect (h : reconnect N bc blocks = .ok bc') : bc'.setup = bc.setup := by
  obtain ⟨bc1, hfold, h⟩ := bind_eq_ok.mp h
  cases h
  have hsame : bc1.setup = bc.setup := setup_reconnectBlocks hfold
  exact hsame

theorem setup_restore {fork : ℕ} {old : List Block} (h : restore N bc fork old = .ok bc') : bc'.setup = bc.setup := by
  obtain ⟨⟨bc1, taken⟩, hd, h⟩ := bind_eq_ok.mp h
  exact (setup_reconnect h).trans (setup_disconnectTo hd)

theorem setup_connectBranch {adopt : Bool} {outcome : BranchOutcome}
    (h : connectBranch N cand adopt bc blocks = .ok (bc', outcome)) : bc'.setup = bc.setup := by
  induction blocks generalizing bc with
  | nil =>
    cases h
    rfl
  | cons b rest ih =>
    unfold connectBranch at h
    dsimp only at h
    split at h
    · cases h
      rfl
    obtain ⟨⟨bc1, r⟩, hc, h⟩ := bind_eq_ok.mp h
    have hsetup := setup_connectToActive hc
    dsimp only at h
    split at h
    · cases h
      exact hsetup
    have hindexed : ∀ receipts : List Receipt,
        (if adopt then bc1.indexBlockReceipts b.header.height.toNat receipts else bc1).setup = bc.setup := by
      intro receipts
      split_ifs
      · rw [setup_indexBlockReceipts, hsetup]
      · exact hsetup
    split at h
    · cases h
      exact hindexed _
    · exact (ih h).trans (hindexed _)

theorem setup_tryIncrementalReorg {r : Option (Except ChainError Imported)}
    (h : tryIncrementalReorg N bc block cand = .ok (bc', r)) : bc'.setup = bc.setup := by
  unfold tryIncrementalReorg at h
  split at h
  · cases h
    rfl
  obtain ⟨⟨bc1, old⟩, hd, h⟩ := bind_eq_ok.mp h
  obtain ⟨⟨bc2, outcome⟩, hc, h⟩ := bind_eq_ok.mp h
  have hsetup := (setup_connectBranch hc).trans (setup_disconnectTo hd)
  dsimp only at h
  split at h
  · obtain ⟨bc3, hr, h⟩ := bind_eq_ok.mp h
    cases h
    exact (setup_restore hr).trans hsetup
  · obtain ⟨bc3, hr, h⟩ := bind_eq_ok.mp h
    obtain ⟨bc4, hs, h⟩ := bind_eq_ok.mp h
    cases h
    exact ((setup_syncActiveDifficulty hs).trans (setup_restore hr)).trans hsetup
  · obtain ⟨bc3, hs, h⟩ := bind_eq_ok.mp h
    cases h
    exact (setup_syncActiveDifficulty hs).trans hsetup

theorem setup_tryIncrementalSideBranch {r : Option (Except ChainError Unit)}
    (h : tryIncrementalSideBranch N bc block cand = .ok (bc', r)) : bc'.setup = bc.setup := by
  unfold tryIncrementalSideBranch at h
  split at h
  · cases h
    rfl
  obtain ⟨⟨bc1, old⟩, hd, h⟩ := bind_eq_ok.mp h
  obtain ⟨⟨bc2, outcome⟩, hc, h⟩ := bind_eq_ok.mp h
  obtain ⟨bc3, hr, h⟩ := bind_eq_ok.mp h
  obtain ⟨bc4, hs, h⟩ := bind_eq_ok.mp h
  cases h
  exact ((setup_syncActiveDifficulty hs).trans (setup_restore hr)).trans
    ((setup_connectBranch hc).trans (setup_disconnectTo hd))

variable {r : Rebuilt}

theorem Rebuilt.extend_eq_ok {R : Rules} {r' : Rebuilt} (h : Rebuilt.extend N R r block shaTarget = .ok (.ok r')) :
    ∃ L receipts, (executeBlockOn N R r.ledger block shaTarget r.signals = .ok (L, receipts) ∧
      checkRoots N block.header L receipts = .ok ()) ∧ r' =
      { ledger := L
        activeBlocks := r.activeBlocks.push block
        signals := r.signals.record block.header.height.toNat block.header.versionBits
        tipReceipts := receipts
        branchReceipts := r.branchReceipts ++ [(block.header.height.toNat, receipts)] } := by
  obtain ⟨result, hr, h⟩ := bind_eq_ok.mp h
  rcases result with e | x
  · cases h
  cases h
  unfold replayBlock at hr
  split at hr
  · cases hr
  · cases hr
  rename_i L receipts hx
  obtain ⟨⟨⟩, hroots, hr⟩ := bind_eq_ok.mp (Except.ok.inj hr)
  obtain ⟨⟨⟩, -, hr⟩ := bind_eq_ok.mp hr
  obtain ⟨⟨⟩, -, hr⟩ := bind_eq_ok.mp hr
  cases hr
  exact ⟨L, receipts, ⟨hx, hroots⟩, rfl⟩

theorem replayAncestors_blocks {r' : Rebuilt} (h : replayAncestors N bc r blocks = .ok (.ok r')) :
    r'.activeBlocks = blocks.foldl ActiveChain.push r.activeBlocks := by
  induction blocks generalizing r with
  | nil =>
    cases h
    rfl
  | cons b rest ih =>
    unfold replayAncestors at h
    split at h
    · cases h
    obtain ⟨x, hx, h⟩ := bind_eq_ok.mp h
    split at h
    · cases h
    · obtain ⟨L, receipts, -, rfl⟩ := Rebuilt.extend_eq_ok hx
      exact ih h

theorem rebuildBranch_blocks (h : rebuildBranch N bc block cand = .ok (.ok r)) :
    ∃ ancestors, ancestorsOf bc bc.index.entries.length block.header.prevHash [] = some ancestors ∧
      r.activeBlocks = (ancestors.foldl ActiveChain.push ⟨bc.blocks.genesis, []⟩).push block := by
  unfold rebuildBranch at h
  split at h
  · cases h
  rename_i ancestors hanc
  obtain ⟨x, hx, h⟩ := bind_eq_ok.mp h
  split at h
  · cases h
  · obtain ⟨L, receipts, -, rfl⟩ := Rebuilt.extend_eq_ok h
    exact ⟨ancestors, hanc, by rw [replayAncestors_blocks hx]⟩

theorem genesis_foldl_push (blocks : List Block) (c : ActiveChain) :
    (blocks.foldl ActiveChain.push c).genesis = c.genesis := by
  induction blocks generalizing c with
  | nil => rfl
  | cons b rest ih => rw [List.foldl_cons, ih, ActiveChain.genesis_push]

variable {res : Except ChainError Imported}

theorem setup_adoptRebuilt (hr : rebuildBranch N bc block cand = .ok (.ok r))
    (h : adoptRebuilt N bc block cand r = .ok (bc', res)) : bc'.setup = bc.setup := by
  obtain ⟨bc1, hs, h⟩ := bind_eq_ok.mp h
  cases h
  obtain ⟨ancestors, -, hblocks⟩ := rebuildBranch_blocks hr
  have hgenesis : r.activeBlocks.genesis = bc.blocks.genesis := by
    rw [hblocks, ActiveChain.genesis_push, genesis_foldl_push]
    rfl
  refine Eq.trans (b := bc1.setup) (setup_rebuildReceiptIndex _) ?_
  rw [setup_syncActiveDifficulty hs]
  simp only [setup, hgenesis]
  rfl

theorem setup_importReorganising (h : importReorganising N bc block cand = .ok (bc', res)) : bc'.setup = bc.setup := by
  obtain ⟨⟨bc1, r⟩, hr, h⟩ := bind_eq_ok.mp h
  have hsetup := setup_tryIncrementalReorg hr
  cases r with
  | some result =>
    cases h
    exact hsetup
  | none =>
    obtain ⟨x, hx, h⟩ := bind_eq_ok.mp h
    cases x with
    | error e =>
      cases h
      exact hsetup
    | ok rebuilt => exact (setup_adoptRebuilt hx h).trans hsetup

theorem setup_importSideBranch (h : importSideBranch N bc block cand = .ok (bc', res)) : bc'.setup = bc.setup := by
  obtain ⟨⟨bc1, r⟩, hr, h⟩ := bind_eq_ok.mp h
  have hsetup := setup_tryIncrementalSideBranch hr
  cases r with
  | some result =>
    cases result <;> cases h <;> exact hsetup
  | none =>
    obtain ⟨x, hx, h⟩ := bind_eq_ok.mp h
    cases x <;> cases h <;> exact hsetup

theorem setup_importExtending (h : importExtending N bc block cand = .ok (bc', res)) : bc'.setup = bc.setup := by
  obtain ⟨⟨bc1, r⟩, hc, h⟩ := bind_eq_ok.mp h
  have hsetup := setup_connectToActive hc
  rcases r with e | receipts
  · cases h
    exact hsetup
  obtain ⟨bc2, hs, h⟩ := bind_eq_ok.mp h
  cases h
  rw [setup_indexBlockReceipts, setup_syncActiveDifficulty hs, ← hsetup]
  rfl

end

/-- What an import can be. -/
inductive ImportCase (N : NodeEnv) (bc : Blockchain) (block : Block) (bc' : Blockchain)
    (res : Except ChainError Imported) : Prop
  | known (hknown : (bc.index.get? (block.hash N.toCrypto)).isSome) (hbc : bc' = bc) (hres : res = .ok .empty)
  | invalid {e : ChainError} (hnew : bc.index.get? (block.hash N.toCrypto) = none)
      (hv : bc.validateCandidate N block = .ok (.error e)) (hbc : bc' = bc) (hres : res = .error e)
  | extending {cand : Candidate} (hnew : bc.index.get? (block.hash N.toCrypto) = none)
      (hv : bc.validateCandidate N block = .ok (.ok cand)) (hprev : block.header.prevHash = bc.head)
      (h : importExtending N bc block cand = .ok (bc', res))
  | reorganising {cand : Candidate} {head : BlockIndexEntry}
      (hnew : bc.index.get? (block.hash N.toCrypto) = none)
      (hv : bc.validateCandidate N block = .ok (.ok cand)) (hprev : block.header.prevHash ≠ bc.head)
      (hhead : bc.index.get? bc.head = some head)
      (hbeats : beats cand.newWork (block.hash N.toCrypto) head.chainWork bc.head = true)
      (h : importReorganising N bc block cand = .ok (bc', res))
  | side {cand : Candidate} {head : BlockIndexEntry}
      (hnew : bc.index.get? (block.hash N.toCrypto) = none)
      (hv : bc.validateCandidate N block = .ok (.ok cand)) (hprev : block.header.prevHash ≠ bc.head)
      (hhead : bc.index.get? bc.head = some head)
      (hbeats : beats cand.newWork (block.hash N.toCrypto) head.chainWork bc.head = false)
      (h : importSideBranch N bc block cand = .ok (bc', res))

variable {N : NodeEnv} {bc bc' : Blockchain} {block : Block}

theorem importBlockTracked_cases {res : Except ChainError Imported}
    (h : importBlockTracked N bc block = .ok (bc', res)) : ImportCase N bc block bc' res := by
  unfold importBlockTracked at h
  dsimp only at h
  split at h
  · rename_i hknown
    cases h
    exact .known hknown rfl rfl
  rename_i hknown
  have hnew : bc.index.get? (block.hash N) = none := by simpa using hknown
  obtain ⟨x, hx, h⟩ := bind_eq_ok.mp h
  split at h
  · cases h
    exact .invalid hnew hx rfl rfl
  obtain ⟨head, hhead, h⟩ := bind_eq_ok.mp h
  have hhead : bc.index.get? bc.head = some head := by
    unfold headEntry at hhead
    split at hhead
    · cases hhead
    · rename_i e he
      cases hhead
      exact he
  split at h
  · rename_i hprev
    exact .extending hnew hx hprev h
  rename_i hprev
  split at h
  · rename_i hbeats
    exact .reorganising hnew hx hprev hhead hbeats h
  · rename_i hbeats
    exact .side hnew hx hprev hhead (by simpa using hbeats) h

theorem setup_importBlockTracked {res : Except ChainError Imported}
    (h : importBlockTracked N bc block = .ok (bc', res)) : bc'.setup = bc.setup := by
  cases importBlockTracked_cases h with
  | known _ hbc => rw [hbc]
  | invalid _ _ hbc => rw [hbc]
  | extending _ _ _ h => exact setup_importExtending h
  | reorganising _ _ _ _ _ h => exact setup_importReorganising h
  | side _ _ _ _ _ h => exact setup_importSideBranch h

/-! ## A new chain -/

variable {config : GenesisConfig}

theorem block_of_build {C : Crypto} {g : Genesis} (h : config.build C = .ok g) : g.block = config.block C g.ledger := by
  unfold GenesisConfig.build at h
  split at h
  · cases h
  split_ifs at h
  obtain ⟨L, -, h⟩ := bind_eq_ok.mp h
  cases h
  rfl

theorem new_eq_ok (h : new N config = .ok bc) :
    ∃ g, config.build N = .ok g ∧ Verify.checkLedger g.ledger config.mining = .ok () ∧
      config.mining.sha256dTarget.canonical ≠ 0 ∧ bc = ofGenesis N config g := by
  unfold new at h
  split at h
  · cases h
  rename_i g hg
  split at h
  · cases h
  rename_i hcheck
  split_ifs at h with hzero
  cases h
  exact ⟨g, hg, hcheck, hzero, rfl⟩

theorem reachable_new (h : new N config = .ok bc) : Reachable N bc :=
  Reachable.new (R := bc.rules) h ⟨rfl, rfl, rfl⟩

theorem genesis_height_of_build {C : Crypto} {g : Genesis} (h : config.build C = .ok g) :
    g.block.header.height.toNat = 0 := by
  rw [block_of_build h]
  rfl

/-! ## Calls about pins -/

/-- The chain without its pins. -/
def unpinned (bc : Blockchain) : Blockchain :=
  { bc with
    checkpoints := .empty, linkedToCheckpoint := .empty, linkagePending := [], linkageNextHeight := 0
    linkagePrev := none }

section
variable {C : Crypto} {headers : List BlockHeader}

theorem unpinned_installCheckpointLinkage {n : ℕ} (h : installCheckpointLinkage C bc headers = .ok (bc', n)) :
    bc'.unpinned = bc.unpinned := by
  unfold installCheckpointLinkage at h
  split at h
  · cases h
    rfl
  split at h
  · cases h
  split at h
  · cases h
  split at h
  · cases h
  obtain ⟨proven, -, h⟩ := bind_eq_ok.mp h
  cases h
  rfl

theorem unpinned_relinkCheckpointFromLocal : (relinkCheckpointFromLocal C bc).1.unpinned = bc.unpinned := by
  unfold relinkCheckpointFromLocal
  dsimp only
  split_ifs
  · rfl
  · rfl
  split
  · rfl
  · rename_i r hr
    obtain ⟨bc1, n⟩ := r
    exact unpinned_installCheckpointLinkage hr

theorem unpinned_addCheckpoints {pins : List (ℕ × Hash)} : (bc.addCheckpoints C pins).unpinned = bc.unpinned :=
  unpinned_relinkCheckpointFromLocal

theorem unpinned_extendLoop {newest : ℕ} {pinned : Hash} :
    (extendLoop C newest pinned bc headers).1.unpinned = bc.unpinned := by
  induction headers generalizing bc with
  | nil => rfl
  | cons header rest ih =>
    unfold extendLoop
    dsimp only
    split_ifs
    · rfl
    · rfl
    · rfl
    · rfl
    · exact ih

theorem unpinned_extendCheckpointLinkage : (extendCheckpointLinkage C bc headers).1.unpinned = bc.unpinned := by
  unfold extendCheckpointLinkage
  split
  · rfl
  rw [ActiveChain.get?_zero]
  dsimp only
  split_ifs
  · rfl
  · exact unpinned_extendLoop
  · rfl
  · rfl
  · exact unpinned_extendLoop

theorem unpinned_adoptLocalFinalizedCheckpoint {depth : ℕ} :
    (adoptLocalFinalizedCheckpoint C bc depth).1.unpinned = bc.unpinned := by
  unfold adoptLocalFinalizedCheckpoint
  dsimp only
  split_ifs
  · rfl
  · rfl
  · rfl
  · split
    · rfl
    · exact unpinned_addCheckpoints

end

/-- A call imports a block, or it is about pins. -/
theorem run_cases {c : ChainCall} (h : c.run N bc = .ok bc') :
    (∃ block res, c = .importBlock block ∧ importBlockTracked N bc block = .ok (bc', res)) ∨
      bc'.unpinned = bc.unpinned := by
  cases c with
  | importBlock block =>
    rcases hi : importBlockTracked N bc block with p | x
    · rw [ChainCall.run, hi] at h
      cases h
    rw [ChainCall.run, hi] at h
    cases h
    exact .inl ⟨block, x.2, rfl, hi⟩
  | setCheckpoints pins =>
    cases h
    exact .inr rfl
  | addCheckpoints pins =>
    cases h
    exact .inr unpinned_addCheckpoints
  | installCheckpointLinkage headers =>
    unfold ChainCall.run at h
    dsimp only at h
    split at h
    · cases h
      exact .inr rfl
    · rename_i hi
      cases h
      exact .inr (unpinned_installCheckpointLinkage hi)
  | extendCheckpointLinkage headers =>
    cases h
    exact .inr unpinned_extendCheckpointLinkage
  | relinkCheckpointFromLocal =>
    cases h
    exact .inr unpinned_relinkCheckpointFromLocal
  | adoptLocalFinalizedCheckpoint depth =>
    cases h
    exact .inr unpinned_adoptLocalFinalizedCheckpoint

end Blockchain
end Sov
