import SovChain.Chain.Genesis
import SovChain.Chain.Governance
import SovChain.Runtime.Execution
import SovChain.Verify.Invariants
import Mathlib.Data.List.Sort

/-!
# `sov-chain`: the chain and the validation of headers

A `Blockchain` holds every accepted block in an index by hash and the active chain with its ledger. This
module has the state, what the blocks of a branch imply for the next one (target, size cap, median time,
signalled rules), and the checks that need no execution.

Heights are natural numbers. Where the source calls `expect`, the model stops with a `Panic`.
-/

namespace Sov

/-- The third-party primitives of a node; RandomX is one more. -/
structure NodeEnv extends Env where
  randomX : Bytes → Bytes → Hash

instance : Coe NodeEnv Env := ⟨NodeEnv.toEnv⟩

/-- The seal of a header preimage. -/
def NodeEnv.powSeal (N : NodeEnv) (algo : PowAlgo) (key : Hash) (input : Bytes) : Hash :=
  match algo with
  | .sha256d => N.sha256 (N.sha256 input).bytes
  | .randomX => N.randomX key.bytes input

/-- An `expect` that failed, or a panic while a block was executed. -/
inductive Panic where
  | headNotIndexed
  | ancestorNotIndexed
  | undoRingExhausted
  | noActiveBlock
  | reconnectedNotIndexed
  | reconnectFailed
  | execution
deriving DecidableEq

/-- A computation that may panic. -/
abbrev Run := Except Panic

inductive ChainError where
  | blockTooHeavy (weight limit : ℕ)
  | powInsufficient
  | badDifficultyBits (expected got : U32)
  | heightMismatch (expected got : ℕ)
  | prevHashMismatch
  | blockTooLarge (size limit : ℕ)
  | nonMonotonicTimestamp
  | timestampNotAfterMedian (mtp got : U64)
  | txRootMismatch
  | badSignatures
  | stateRootMismatch
  | receiptsRootMismatch
  | execution (e : ExecutionError)
  | checkpointMismatch (height : ℕ)
  | invariant (v : InvariantViolation)
deriving DecidableEq

/-! ## State -/

structure PqDeploymentConfig where
  deployment : Deployment
  sunsetDelayBlocks : U64
  thresholdGrains : U128

/-- What is fixed once a chain is set up: its identity, its mining policy and its deployments. -/
structure Rules where
  chainId : String
  genesisHash : Hash
  mining : MiningPolicy
  pqDeployment : Option PqDeploymentConfig
  txDomainDeployment : Option Deployment
  txDomainGraceBlocks : ℕ
  feeAuctionDeployment : Option Deployment
  shieldedV2Deployment : Option Deployment
  shieldedV2Suite2Deployment : Option Deployment
  shieldedV2Suite2RecoveryDeployment : Option Deployment
  txTimestampDeployment : Option Deployment

/-- An accepted block with the target it was checked against, the work up to it and its size. -/
structure BlockIndexEntry where
  block : Block
  shaTarget : Target
  chainWork : Work
  height : ℕ
  size : ℕ

abbrev BlockIndex := OrdMap Hash BlockIndexEntry

/-- The active chain, never empty: its newest block and the ones below it, newest first. -/
structure ActiveChain where
  tip : Block
  below : List Block
deriving DecidableEq

namespace ActiveChain

/-- The blocks by height. -/
def toList (c : ActiveChain) : List Block := (c.tip :: c.below).reverse

def get? (c : ActiveChain) (height : ℕ) : Option Block := c.toList[height]?

def genesis (c : ActiveChain) : Block := c.below.getLast?.getD c.tip

def height (c : ActiveChain) : ℕ := c.tip.header.height.toNat

def push (c : ActiveChain) (b : Block) : ActiveChain := ⟨b, c.tip :: c.below⟩

/-- Take the newest block off, unless it is the only one. -/
def pop? (c : ActiveChain) : Option (Block × ActiveChain) :=
  match c.below with
  | [] => none
  | tip :: below => some (c.tip, ⟨tip, below⟩)

end ActiveChain

/-- The undo log of an active block. -/
structure UndoEntry where
  height : ℕ
  hash : Hash
  log : List UndoOp

structure Blockchain where
  rules : Rules
  ledger : Ledger
  sha256dDifficulty : Difficulty
  blocks : ActiveChain
  index : BlockIndex
  head : Hash
  genesisLedger : Ledger
  checkpoints : OrdMap ℕ Hash
  linkedToCheckpoint : OrdMap Hash Unit
  linkagePending : List Hash
  linkageNextHeight : ℕ
  linkagePrev : Option Hash
  signalMask : U32
  signals : SignalLog
  activeReceipts : OrdMap ℕ (List Receipt)
  txHeight : OrdMap Hash ℕ
  /-- Newest first. -/
  undoRing : List UndoEntry

/-- What header validation found out about a block. -/
structure Candidate where
  shaTarget : Target
  newWork : Work
  height : ℕ

/-! ## Rules that miners signalled -/

namespace Rules
variable (R : Rules) (height : ℕ) (signals : SignalLog)

def chainDomain : SigningDomain := ⟨R.chainId, R.genesisHash⟩

def resolvedPq : Option PqSchedule := do
  let cfg ← R.pqDeployment
  let boundary ← cfg.deployment.activation signals height
  let start : U64 := BitVec.ofNat 64 boundary
  return { rotationOnlyHeight := start
           sunsetHeight := start.saturatingAdd cfg.sunsetDelayBlocks
           thresholdGrains := cfg.thresholdGrains }

def resolvedTxDomainMode : TxDomainMode :=
  match R.txDomainDeployment.bind fun d => d.activation signals height with
  | none => .legacy
  | some activation =>
    if height < activation + R.txDomainGraceBlocks then .grace R.chainDomain else .bound R.chainDomain

def feeAuctionActive : Bool := deploymentActiveAt R.feeAuctionDeployment height signals

def shieldedV2Active : Bool := deploymentActiveAt R.shieldedV2Deployment height signals

def shieldedV2Suite2Active : Bool :=
  (deploymentActiveAt R.shieldedV2Suite2Deployment height signals ||
    deploymentActiveAt R.shieldedV2Suite2RecoveryDeployment height signals) &&
    R.shieldedV2Active height signals

def txTimestampActive : Bool := deploymentActiveAt R.txTimestampDeployment height signals

/-- The policy with the target in force on a branch. -/
def policyWith (shaTarget : Target) : MiningPolicy := { R.mining with sha256dTarget := shaTarget }

/-- The context a block executes in, on a branch with these signals. -/
def context (header : BlockHeader) (shaTarget : Target) (signals : SignalLog) : BlockContext :=
  let height := header.height.toNat
  { height := header.height
    prevHash := header.prevHash
    blockTimeMs := header.timestampMs
    mining := R.policyWith shaTarget
    gasPrice := (R.policyWith shaTarget).gasPrice
    miner := header.proposer
    pq := R.resolvedPq height signals
    txDomain := R.resolvedTxDomainMode height signals
    feeAuctionActive := R.feeAuctionActive height signals
    shieldedV2Active := R.shieldedV2Active height signals
    shieldedV2Suite2Active := R.shieldedV2Suite2Active height signals
    txTimestampActive := R.txTimestampActive height signals
    chainDomain := R.chainDomain }

end Rules

/-! ## Walking the index -/

/-- The entries along the parent links from a hash, newest first, at most `n` of them. -/
def BlockIndex.walk (index : BlockIndex) : ℕ → Hash → List BlockIndexEntry
  | 0, _ => []
  | n + 1, hash =>
    match index.get? hash with
    | none => []
    | some e => e :: index.walk n e.block.header.prevHash

/-- The timestamps the median is taken of: at most `n`, and none below genesis. -/
def BlockIndex.recentTimes (index : BlockIndex) : ℕ → BlockIndexEntry → List U64
  | 0, _ => []
  | n + 1, e =>
    e.block.header.timestampMs ::
      if e.height = 0 then []
      else
        match index.get? e.block.header.prevHash with
        | none => []
        | some parent => index.recentTimes n parent

namespace Blockchain

def difficultyWindow : ℕ := 60

def blockSizeWindow : ℕ := 100

def blockSizeGrowth : ℕ := 2

def blockSizeFloor : ℕ := 1024 * 1024

def blockSizeCeiling : ℕ := 4 * 1024 * 1024

def suite2SizeFloor : ℕ := 2560 * 1024

def edaActivationMs : U64 := 1784239200000

def reorgUndoWindow : ℕ := 256

def medianWindow : ℕ := 11

/-- Twice the upper median of the sizes, within the fixed bounds. -/
def elasticBlockCap (sizes : List ℕ) : ℕ :=
  let median := ((sizes.insertionSort (· ≤ ·))[sizes.length / 2]?).getD 0
  max blockSizeFloor (min (median * blockSizeGrowth) blockSizeCeiling)

variable (C : Crypto) (bc : Blockchain)

/-- Whether the active chain has this block at this height. -/
def isActive (height : ℕ) (hash : Hash) : Bool := (bc.blocks.get? height).map (Block.hash C) = some hash

def height : ℕ := bc.blocks.height

/-- Walk the parent links up to an active block: its height, and the blocks above it, oldest first, in front
of `above`. An index without cycles is walked in as many steps as it has entries. -/
def findFork : ℕ → Hash → List Block → Option (ℕ × List Block)
  | 0, _, _ => none
  | n + 1, hash, above =>
    match bc.index.get? hash with
    | none => none
    | some e =>
      if bc.isActive C e.height hash then some (e.height, above)
      else findFork n e.block.header.prevHash (e.block :: above)

/-- Where the branch of `tip` leaves the active chain, and its blocks from there on. -/
def locateFork (tip : Block) : Option (ℕ × List Block) :=
  bc.findFork C bc.index.entries.length tip.header.prevHash [tip]

/-- The signals of the branch that ends in `parent`: those of the active chain up to the fork, then its own.
If no active block is met the fork counts as height 0. -/
def branchSignalsFrom (parent : Hash) : SignalLog :=
  match bc.findFork C bc.index.entries.length parent [] with
  | none =>
    (bc.index.walk bc.index.entries.length parent).reverse.foldl
      (fun log e => log.record e.block.header.height.toNat e.block.header.versionBits)
      ((List.range bc.height).foldl (fun log i => log.remove (i + 1)) bc.signals)
  | some (fork, above) =>
    above.foldl (fun log b => log.record b.header.height.toNat b.header.versionBits)
      ((List.range (bc.height - fork)).foldl (fun log i => log.remove (fork + i + 1)) bc.signals)

def branchTxDomainMode (block : Block) : TxDomainMode :=
  let height := block.header.height.toNat
  if bc.rules.txDomainDeployment.isNone then .legacy
  else if block.header.prevHash = bc.head then bc.rules.resolvedTxDomainMode height bc.signals
  else bc.rules.resolvedTxDomainMode height (bc.branchSignalsFrom C block.header.prevHash)

def branchShieldedV2Active (block : Block) : Bool :=
  let height := block.header.height.toNat
  if bc.rules.shieldedV2Deployment.isNone then false
  else if block.header.prevHash = bc.head then bc.rules.shieldedV2Active height bc.signals
  else bc.rules.shieldedV2Active height (bc.branchSignalsFrom C block.header.prevHash)

/-- The size cap of a block that extends `parent`. -/
def blockSizeLimit (parent : BlockIndexEntry) : ℕ :=
  let recent := parent :: bc.index.walk (blockSizeWindow - 1) parent.block.header.prevHash
  let normal := elasticBlockCap (recent.map BlockIndexEntry.size)
  if bc.rules.shieldedV2Suite2Deployment.isNone && bc.rules.shieldedV2Suite2RecoveryDeployment.isNone then
    normal
  else
    let height := parent.height + 1
    let hash := parent.block.hash C
    let active :=
      if hash = bc.head then bc.rules.shieldedV2Suite2Active height bc.signals
      else bc.rules.shieldedV2Suite2Active height (bc.branchSignalsFrom C hash)
    if active then max normal suite2SizeFloor else normal

/-- The scheduled target after `parent`: that of genesis until the window is full, then the weighted
average. -/
def baseTarget (parent : BlockIndexEntry) : Run Target :=
  if parent.height + 1 ≤ difficultyWindow then .ok bc.rules.mining.sha256dTarget.canonical
  else
    let recent := parent :: bc.index.walk difficultyWindow parent.block.header.prevHash
    if recent.length ≤ difficultyWindow then .error .ancestorNotIndexed
    else
      -- Oldest first; the block before the window gives the first solve time.
      let window := recent.reverse
      let times := window.map fun e => e.block.header.timestampMs
      let solvetimes := List.zipWith (fun prev cur : U64 => cur.saturatingSub prev) times times.tail
      let diffs := window.tail.map fun e => Difficulty.fromTarget e.shaTarget
      .ok (Difficulty.lwma diffs solvetimes bc.rules.mining.targetBlockMs).toTarget.canonical

/-- The target of a block with this timestamp; a stall since the parent lowers the difficulty. -/
def expectedTarget (parent : BlockIndexEntry) (timestampMs : U64) : Run Target := do
  let base ← bc.baseTarget parent
  let elapsed := timestampMs.saturatingSub parent.block.header.timestampMs
  if timestampMs < edaActivationMs then return base
  else if Difficulty.edaHalvings elapsed bc.rules.mining.targetBlockMs = 0 then return base
  else return ((Difficulty.fromTarget base).eda elapsed bc.rules.mining.targetBlockMs).toTarget.canonical

/-- The upper median of the timestamps of the last eleven blocks. -/
def medianTimePastOf (tip : BlockIndexEntry) : U64 :=
  let times := bc.index.recentTimes medianWindow tip
  ((times.insertionSort (· ≤ ·))[times.length / 2]?).getD 0

def isLinkedToCheckpoint (hash : Hash) : Bool := bc.linkedToCheckpoint.contains hash

variable (N : NodeEnv)

def sealOf (header : BlockHeader) : Hash :=
  N.powSeal bc.rules.mining.powAlgo bc.rules.genesisHash header.powPreimage

/-- The checks of a header and a body that come after the target is known. -/
def checkCandidate (block : Block) (parent : BlockIndexEntry) (shaTarget : Target) :
    Except ChainError Candidate :=
  let header := block.header
  let height := header.height.toNat
  let mtp := bc.medianTimePastOf parent
  if height ≠ parent.height + 1 then .error (.heightMismatch (parent.height + 1) height)
  else if (bc.checkpoints.get? height).any fun pinned => block.hash N.toCrypto ≠ pinned then
    .error (.checkpointMismatch height)
  else if header.timestampMs < parent.block.header.timestampMs then .error .nonMonotonicTimestamp
  else if header.timestampMs ≤ mtp then .error (.timestampNotAfterMedian mtp header.timestampMs)
  else if header.bits ≠ shaTarget.toCompact then
    .error (.badDifficultyBits shaTarget.toCompact header.bits)
  else if bc.branchShieldedV2Active N.toCrypto block ∧ maxBlockWeight < blockWeight block then
    .error (.blockTooHeavy (blockWeight block) maxBlockWeight)
  else if !(bc.isLinkedToCheckpoint (block.hash N.toCrypto)) && !(shaTarget.isMetBy (bc.sealOf N header)) then
    .error .powInsufficient
  else if !(block.txRootMatches N.toCrypto) then .error .txRootMismatch
  else if !(block.allSignaturesValidMode N.toCrypto (bc.branchTxDomainMode N.toCrypto block)) then
    .error .badSignatures
  else
    .ok { shaTarget, newWork := parent.chainWork.saturatingAdd (Work.ofTarget shaTarget)
          height := parent.height + 1 }

/-- Everything that can be checked of a block without executing it. -/
def validateCandidate (block : Block) : Run (Except ChainError Candidate) :=
  match bc.index.get? block.header.prevHash with
  | none => .ok (.error .prevHashMismatch)
  | some parent =>
    let size := block.serializedSize
    let limit := bc.blockSizeLimit N.toCrypto parent
    if limit < size then .ok (.error (.blockTooLarge size limit))
    else do
      let shaTarget ← bc.expectedTarget parent block.header.timestampMs
      return bc.checkCandidate N block parent shaTarget

end Blockchain
end Sov
