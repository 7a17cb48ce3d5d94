import SovChain.Chain.Blockchain

/-!
# `sov-chain`: importing a block

A block that extends the head is executed in place with a journal. A block that makes another branch the
heaviest, or that only lengthens a lighter branch, is checked by undoing the active blocks above the fork
and executing the branch there; when the journals do not reach that far, by replaying the branch from
genesis. `importBlockTracked` returns the chain with the result, since a rejected block, too, passes through
the ledger.
-/

namespace Sov

/-- What an import did: the receipts of a block that joined the active chain, and the transactions a
reorganisation dropped. -/
structure Imported where
  receipts : List Receipt
  revertedTxs : List SignedTransaction

def Imported.empty : Imported := ⟨[], []⟩

/-- What replaying a branch from genesis gives. -/
structure Rebuilt where
  ledger : Ledger
  activeBlocks : ActiveChain
  signals : SignalLog
  tipReceipts : List Receipt
  branchReceipts : List (ℕ × List Receipt)

/-- How connecting a branch ended. -/
inductive BranchOutcome where
  | connected (tipReceipts : List Receipt)
  | unindexed
  | invalid (e : ChainError)

namespace Blockchain
variable (N : NodeEnv)

/-! ## Executing -/

def executeBlockOn (R : Rules) (L : Ledger) (block : Block) (shaTarget : Target) (signals : SignalLog) :
    Except Fault (Ledger × List Receipt) :=
  Runtime.executeBlock N.toEnv (R.context block.header shaTarget signals) L block.transactions

/-- The two roots a header commits to. -/
def checkRoots (header : BlockHeader) (L : Ledger) (receipts : List Receipt) : Except ChainError Unit :=
  if L.stateRoot N.toCrypto ≠ header.stateRoot then .error .stateRootMismatch
  else if receiptsRoot N.toCrypto receipts ≠ header.receiptsRoot then .error .receiptsRootMismatch
  else .ok ()

/-- Lift a violated invariant to a chain error. -/
def orInvariant {α : Type} (r : Except InvariantViolation α) : Except ChainError α :=
  r.mapError .invariant

/-- Execute a block and check what it commits to. The ledger comes back as the execution left it. -/
def tryConnectBlock (R : Rules) (signals : SignalLog) (L : Ledger) (block : Block) (shaTarget : Target)
    (pre : Verify.TransitionPre) : Run (Ledger × Except ChainError (List Receipt)) :=
  match executeBlockOn N R L block shaTarget signals with
  | .error .panic => .error .execution
  | .error (.reject L e) => .ok (L, .error (.execution e))
  | .ok (L, receipts) =>
    .ok (L, do
      checkRoots N block.header L receipts
      orInvariant (Verify.checkTransitionPre pre L.toStores)
      orInvariant (Verify.checkLedger L.toStores (R.policyWith shaTarget))
      return receipts)

def rememberUndo (ring : List UndoEntry) (e : UndoEntry) : List UndoEntry := (e :: ring).take reorgUndoWindow

/-- Execute a block on the live ledger. On success it joins the active chain and its journal the ring; on
failure the journal is applied. -/
def connectToActive (bc : Blockchain) (block : Block) (shaTarget : Target) :
    Run (Blockchain × Except ChainError (List Receipt)) :=
  match Verify.TransitionPre.capture bc.ledger.toStores with
  | .error v => .ok (bc, .error (.invariant v))
  | .ok pre => do
    let (ledger, result) ←
      tryConnectBlock N bc.rules bc.signals bc.ledger.beginUndo block shaTarget pre
    let (ledger, undo) := ledger.takeUndo
    match result with
    | .ok receipts =>
      let height := block.header.height.toNat
      return ({ bc with
        ledger
        signals := bc.signals.record height block.header.versionBits
        blocks := bc.blocks.push block
        undoRing := rememberUndo bc.undoRing ⟨height, block.hash N.toCrypto, undo⟩ }, .ok receipts)
    | .error e => return ({ bc with ledger := ledger.applyUndo N.toCrypto undo }, .error e)

/-! ## Receipts, the index and the cached difficulty -/

def indexBlockReceipts (bc : Blockchain) (height : ℕ) (receipts : List Receipt) : Blockchain :=
  if receipts.isEmpty then bc
  else
    { bc with
      txHeight := receipts.foldl (fun m r => m.insert r.txId height) bc.txHeight
      activeReceipts := bc.activeReceipts.insert height receipts }

def rebuildReceiptIndex (bc : Blockchain) (branch : List (ℕ × List Receipt)) : Blockchain :=
  branch.foldl (fun bc e => bc.indexBlockReceipts e.1 e.2)
    { bc with activeReceipts := .empty, txHeight := .empty }

/-- Forget the receipts of a disconnected block. -/
def forgetReceipts (bc : Blockchain) (height : ℕ) : Blockchain :=
  match bc.activeReceipts.get? height with
  | none => bc
  | some receipts =>
    { bc with
      activeReceipts := bc.activeReceipts.erase height
      txHeight := receipts.foldl (fun m r => m.erase r.txId) bc.txHeight }

def insertEntry (bc : Blockchain) (block : Block) (cand : Candidate) : Blockchain :=
  { bc with
    index := bc.index.insert (block.hash N.toCrypto)
      { block, shaTarget := cand.shaTarget, chainWork := cand.newWork, height := cand.height
        size := block.serializedSize } }

/-- The entry of the head. -/
def headEntry (bc : Blockchain) : Run BlockIndexEntry :=
  match bc.index.get? bc.head with
  | none => .error .headNotIndexed
  | some e => .ok e

def syncActiveDifficulty (bc : Blockchain) : Run Blockchain := do
  let head ← bc.headEntry
  let base ← bc.baseTarget head
  return { bc with sha256dDifficulty := Difficulty.fromTarget base }

/-! ## Disconnecting and reconnecting -/

/-- Undo the newest active blocks down to a height, one journal of the ring for each. The blocks taken off
come back newest first, after `taken`. -/
def disconnectLoop (target : ℕ) : List UndoEntry → Blockchain → List Block → Run (Blockchain × List Block)
  | ring, bc, taken =>
    if bc.height ≤ target then
      .ok ({ bc with undoRing := ring, head := bc.blocks.tip.hash N.toCrypto }, taken)
    else
      match ring with
      | [] => .error .undoRingExhausted
      | e :: ring =>
        match bc.blocks.pop? with
        | none => .error .noActiveBlock
        | some (block, blocks) =>
          let bc := { bc with
            blocks
            ledger := bc.ledger.applyUndo N.toCrypto e.log
            signals := bc.signals.remove block.header.height.toNat }
          disconnectLoop target ring (bc.forgetReceipts e.height) (taken ++ [block])

def disconnectTo (bc : Blockchain) (target : ℕ) : Run (Blockchain × List Block) :=
  disconnectLoop N target bc.undoRing bc []

/-- Execute one block that was active before. -/
def reconnectBlock (bc : Blockchain) (block : Block) : Run Blockchain :=
  match bc.index.get? (block.hash N.toCrypto) with
  | none => .error .reconnectedNotIndexed
  | some e => do
    let (bc, result) ← connectToActive N bc block e.shaTarget
    match result with
    | .error _ => throw .reconnectFailed
    | .ok receipts => return bc.indexBlockReceipts block.header.height.toNat receipts

/-- Execute blocks that were active before, given newest first. -/
def reconnect (bc : Blockchain) (blocks : List Block) : Run Blockchain := do
  let bc ← blocks.reverse.foldlM (reconnectBlock N) bc
  return { bc with head := bc.blocks.tip.hash N.toCrypto }

/-- Execute the blocks of a branch, oldest first, on the active chain. The last one is the candidate; the
others have their targets in the index. A branch that is going to be active has its receipts indexed. -/
def connectBranch (cand : Candidate) (adopt : Bool) : Blockchain → List Block → Run (Blockchain × BranchOutcome)
  | bc, [] => .ok (bc, .connected [])
  | bc, block :: rest =>
    let target? :=
      if rest.isEmpty then some cand.shaTarget
      else (bc.index.get? (block.hash N.toCrypto)).map BlockIndexEntry.shaTarget
    match target? with
    | none => .ok (bc, .unindexed)
    | some shaTarget => do
      let (bc, result) ← connectToActive N bc block shaTarget
      match result with
      | .error e => return (bc, .invalid e)
      | .ok receipts =>
        let bc := if adopt then bc.indexBlockReceipts block.header.height.toNat receipts else bc
        if rest.isEmpty then return (bc, .connected receipts) else connectBranch cand adopt bc rest

/-- Undo a branch that was connected above `fork` and put the old blocks back. -/
def restore (bc : Blockchain) (fork : ℕ) (old : List Block) : Run Blockchain := do
  let (bc, _) ← disconnectTo N bc fork
  reconnect N bc old

/-- The transactions of dropped blocks that the new branch does not have. -/
def revertedBy (old new : List Block) : List SignedTransaction :=
  let ids := new.flatMap fun b => b.transactions.map (SignedTransaction.id N.toCrypto)
  (old.flatMap Block.transactions).filter fun t => !(ids.contains (t.id N.toCrypto))

/-- The fork of a candidate, if the journals reach down to it. -/
def coveredFork (bc : Blockchain) (tip : Block) : Option (ℕ × List Block) :=
  (bc.locateFork N.toCrypto tip).filter fun f =>
    let depth := bc.height - f.1
    depth ≠ 0 ∧ depth ≤ bc.undoRing.length

/-- Switch to the branch of `tip` by undoing and executing blocks. Without a result the fork is out of the
journals' reach. -/
def tryIncrementalReorg (bc : Blockchain) (tip : Block) (cand : Candidate) :
    Run (Blockchain × Option (Except ChainError Imported)) :=
  match bc.coveredFork N tip with
  | none => .ok (bc, none)
  | some (fork, newBlocks) => do
    let (bc, old) ← disconnectTo N bc fork
    let (bc, outcome) ← connectBranch N cand true bc newBlocks
    match outcome with
    | .unindexed => return (← restore N bc fork old, none)
    | .invalid e => return (← syncActiveDifficulty (← restore N bc fork old), some (.error e))
    | .connected receipts =>
      let bc ← syncActiveDifficulty { bc.insertEntry N tip cand with head := tip.hash N.toCrypto }
      return (bc, some (.ok { receipts, revertedTxs := revertedBy N old newBlocks }))

/-- Check the lighter branch of `block` by executing it above the fork, and put the active chain back. -/
def tryIncrementalSideBranch (bc : Blockchain) (block : Block) (cand : Candidate) :
    Run (Blockchain × Option (Except ChainError Unit)) :=
  match bc.coveredFork N block with
  | none => .ok (bc, none)
  | some (fork, newBlocks) => do
    let (bc, old) ← disconnectTo N bc fork
    let (bc, outcome) ← connectBranch N cand false bc newBlocks
    let bc ← syncActiveDifficulty (← restore N bc fork old)
    return (bc,
      match outcome with
      | .unindexed => none
      | .invalid e => some (.error e)
      | .connected _ => some (.ok ()))

/-! ## Replaying from genesis -/

/-- The blocks from above genesis down from a hash, oldest first, in front of `above`. -/
def ancestorsOf (bc : Blockchain) : ℕ → Hash → List Block → Option (List Block)
  | 0, _, _ => none
  | n + 1, hash, above =>
    if hash = bc.rules.genesisHash then some above
    else
      match bc.index.get? hash with
      | none => none
      | some e => ancestorsOf bc n e.block.header.prevHash (e.block :: above)

/-- Execute a block on a ledger of its own and check what it commits to. -/
def replayBlock (R : Rules) (L : Ledger) (signals : SignalLog) (block : Block) (shaTarget : Target) :
    Run (Except ChainError (Ledger × List Receipt)) :=
  match executeBlockOn N R L block shaTarget signals with
  | .error .panic => .error .execution
  | .error (.reject _ e) => .ok (.error (.execution e))
  | .ok (L', receipts) =>
    .ok do
      checkRoots N block.header L' receipts
      orInvariant (Verify.checkTransition L.toStores L'.toStores)
      orInvariant (Verify.checkLedger L'.toStores (R.policyWith shaTarget))
      return (L', receipts)

/-- Add one block to a rebuilt branch. -/
def Rebuilt.extend (R : Rules) (r : Rebuilt) (block : Block) (shaTarget : Target) :
    Run (Except ChainError Rebuilt) := do
  let result ← replayBlock N R r.ledger r.signals block shaTarget
  return result.map fun (ledger, receipts) =>
    { ledger
      activeBlocks := r.activeBlocks.push block
      signals := r.signals.record block.header.height.toNat block.header.versionBits
      tipReceipts := receipts
      branchReceipts := r.branchReceipts ++ [(block.header.height.toNat, receipts)] }

/-- Replay blocks, oldest first, with the targets of the index. -/
def replayAncestors (bc : Blockchain) : Rebuilt → List Block → Run (Except ChainError Rebuilt)
  | r, [] => .ok (.ok r)
  | r, block :: rest =>
    match bc.index.get? (block.hash N.toCrypto) with
    | none => .error .ancestorNotIndexed
    | some e => do
      match ← Rebuilt.extend N bc.rules r block e.shaTarget with
      | .error err => return .error err
      | .ok r => replayAncestors bc r rest

/-- Replay the branch of `tip` from genesis. -/
def rebuildBranch (bc : Blockchain) (tip : Block) (cand : Candidate) : Run (Except ChainError Rebuilt) :=
  match ancestorsOf bc bc.index.entries.length tip.header.prevHash [] with
  | none => .ok (.error .prevHashMismatch)
  | some ancestors => do
    let start : Rebuilt :=
      { ledger := bc.genesisLedger, activeBlocks := ⟨bc.blocks.genesis, []⟩, signals := .empty
        tipReceipts := [], branchReceipts := [] }
    match ← replayAncestors N bc start ancestors with
    | .error err => return .error err
    | .ok r => Rebuilt.extend N bc.rules r tip cand.shaTarget

/-! ## Fork choice -/

/-- The new block extends the head. -/
def importExtending (bc : Blockchain) (block : Block) (cand : Candidate) :
    Run (Blockchain × Except ChainError Imported) := do
  let (bc, result) ← connectToActive N bc block cand.shaTarget
  match result with
  | .error e => return (bc, .error e)
  | .ok receipts =>
    let bc ← syncActiveDifficulty { bc.insertEntry N block cand with head := block.hash N.toCrypto }
    return (bc.indexBlockReceipts cand.height receipts, .ok { receipts, revertedTxs := [] })

/-- Install a branch that was replayed from genesis. -/
def adoptRebuilt (bc : Blockchain) (block : Block) (cand : Candidate) (r : Rebuilt) :
    Run (Blockchain × Except ChainError Imported) := do
  let newHashes := r.activeBlocks.toList.map (Block.hash N.toCrypto)
  let dropped := bc.blocks.toList.filter fun b => !(newHashes.contains (b.hash N.toCrypto))
  let bc ← syncActiveDifficulty
    { bc.insertEntry N block cand with
      ledger := r.ledger, blocks := r.activeBlocks, signals := r.signals, head := block.hash N.toCrypto }
  return ({ bc.rebuildReceiptIndex r.branchReceipts with undoRing := [] },
    .ok { receipts := r.tipReceipts, revertedTxs := dropped.flatMap Block.transactions })

/-- The new block makes its branch the best one. -/
def importReorganising (bc : Blockchain) (block : Block) (cand : Candidate) :
    Run (Blockchain × Except ChainError Imported) := do
  match ← tryIncrementalReorg N bc block cand with
  | (bc, some result) => return (bc, result)
  | (bc, none) =>
    match ← rebuildBranch N bc block cand with
    | .error e => return (bc, .error e)
    | .ok r => adoptRebuilt N bc block cand r

/-- The new block is on a branch that stays behind. -/
def importSideBranch (bc : Blockchain) (block : Block) (cand : Candidate) :
    Run (Blockchain × Except ChainError Imported) := do
  match ← tryIncrementalSideBranch N bc block cand with
  | (bc, some (.ok ())) => return (bc.insertEntry N block cand, .ok .empty)
  | (bc, some (.error e)) => return (bc, .error e)
  | (bc, none) =>
    match ← rebuildBranch N bc block cand with
    | .error e => return (bc, .error e)
    | .ok _ => return (bc.insertEntry N block cand, .ok .empty)

/-- Whether a branch with this work and tip is preferred to the active one. -/
def beats (newWork : Work) (hash : Hash) (headWork : Work) (head : Hash) : Bool :=
  headWork < newWork ∨ (newWork = headWork ∧ hash < head)

/-- Validate a block and fold it into the chain. -/
def importBlockTracked (bc : Blockchain) (block : Block) : Run (Blockchain × Except ChainError Imported) := do
  let hash := block.hash N.toCrypto
  if bc.index.contains hash then return (bc, .ok .empty)
  match ← bc.validateCandidate N block with
  | .error e => return (bc, .error e)
  | .ok cand =>
    let headEntry ← bc.headEntry
    if block.header.prevHash = bc.head then importExtending N bc block cand
    else if beats cand.newWork hash headEntry.chainWork bc.head then importReorganising N bc block cand
    else importSideBranch N bc block cand

/-! ## Construction -/

inductive NewError where
  | genesis (e : GenesisError)
  | invariant (v : InvariantViolation)
  | workOverflow

/-- The rules of a chain before any deployment is set. -/
def rulesOf (config : GenesisConfig) (genesisHash : Hash) : Rules where
  chainId := config.chainId
  genesisHash
  mining := config.mining
  pqDeployment := none
  txDomainDeployment := none
  txDomainGraceBlocks := 576
  feeAuctionDeployment := none
  shieldedV2Deployment := none
  shieldedV2Suite2Deployment := none
  shieldedV2Suite2RecoveryDeployment := none
  txTimestampDeployment := none

/-- A chain that has only its genesis block. -/
def ofGenesis (config : GenesisConfig) (g : Genesis) : Blockchain :=
  let hash := g.block.hash N.toCrypto
  let shaTarget := config.mining.sha256dTarget.canonical
  { rules := rulesOf config hash
    ledger := g.ledger
    sha256dDifficulty := Difficulty.fromTarget shaTarget
    blocks := ⟨g.block, []⟩
    index := OrdMap.empty.insert hash
      { block := g.block, shaTarget, chainWork := (0 : Work).saturatingAdd (Work.ofTarget shaTarget), height := 0
        size := g.block.serializedSize }
    head := hash
    genesisLedger := g.ledger
    checkpoints := .empty
    linkedToCheckpoint := .empty
    linkagePending := []
    linkageNextHeight := 0
    linkagePrev := none
    signalMask := 0
    signals := .empty
    activeReceipts := .empty
    txHeight := .empty
    undoRing := [] }

/-- The work of a zero target is 2²⁵⁶, on which the source panics. -/
def new (config : GenesisConfig) : Except NewError Blockchain :=
  match config.build N.toCrypto with
  | .error e => .error (.genesis e)
  | .ok g =>
    match Verify.checkLedger g.ledger.toStores config.mining with
    | .error v => .error (.invariant v)
    | .ok () =>
      if config.mining.sha256dTarget.canonical = 0 then .error .workOverflow else .ok (ofGenesis N config g)

end Blockchain
end Sov
