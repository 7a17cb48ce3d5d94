import SovChain.Chain.Import

/-!
# `sov-chain`: checkpoints and their linkage

A checkpoint pins the hash at a height. The proof of work of a block is not checked again if its hash is in
`linkedToCheckpoint`, which holds the hashes of a chain of headers from genesis to the newest pin.
-/

namespace Sov
namespace Blockchain
variable (C : Crypto)

def finalityDepth : ℕ := 6

def newestCheckpointHeight (bc : Blockchain) : ℕ := bc.checkpoints.keys.foldr max 0

def newestCheckpoint (bc : Blockchain) : Option (ℕ × Hash) :=
  (bc.checkpoints.get? bc.newestCheckpointHeight).map fun hash => (bc.newestCheckpointHeight, hash)

def checkpointLinkageReady (bc : Blockchain) : Bool :=
  bc.checkpoints.entries.isEmpty || !bc.linkedToCheckpoint.entries.isEmpty

def resetLinkageProgress (bc : Blockchain) : Blockchain :=
  { bc with linkagePending := [], linkageNextHeight := 0, linkagePrev := none }

/-- The hashes of headers that link up to the pin, after those in `proven`; the next header is expected at
height `i`. -/
def proveLinks (newest : ℕ) (pinned : Hash) :
    ℕ → Option Hash → List Hash → List BlockHeader → Except ChainError (List Hash)
  | _, _, _, [] => .error (.checkpointMismatch newest)
  | i, prev, proven, h :: rest =>
    let height := h.height.toNat
    if height ≠ i then .error (.checkpointMismatch height)
    else if prev.any fun p => h.prevHash ≠ p then .error (.checkpointMismatch height)
    else
      let hash := h.hash C
      if height = newest then
        if hash ≠ pinned then .error (.checkpointMismatch newest) else .ok (proven ++ [hash])
      else proveLinks newest pinned (i + 1) (some hash) (proven ++ [hash]) rest

/-- Prove from a chain of headers that they lead up to the newest pin; the second component is the number of
headers proven. An error leaves the chain as it is. -/
def installCheckpointLinkage (bc : Blockchain) (headers : List BlockHeader) :
    Except ChainError (Blockchain × ℕ) :=
  match bc.newestCheckpoint with
  | none => .ok (bc, 0)
  | some (newest, pinned) =>
    match headers.head? with
    | none => .error (.checkpointMismatch newest)
    | some first =>
      match bc.blocks.get? 0 with
      | none => .error (.checkpointMismatch 0)
      | some genesis =>
        if first.height.toNat ≠ 0 ∨ first.hash C ≠ genesis.hash C then .error (.checkpointMismatch 0)
        else do
          let proven ← proveLinks C newest pinned 0 none [] headers
          return ({ bc with linkedToCheckpoint := OrdMap.ofKeys proven }, proven.length)

/-- Link the headers of a batch one after another to what is pending. -/
def extendLoop (newest : ℕ) (pinned : Hash) :
    Blockchain → List BlockHeader → Blockchain × Except ChainError Bool
  | bc, [] => (bc, .ok false)
  | bc, h :: rest =>
    let height := h.height.toNat
    let hash := h.hash C
    if height ≠ bc.linkageNextHeight then (bc.resetLinkageProgress, .error (.checkpointMismatch height))
    else if bc.linkagePrev ≠ some h.prevHash then
      (bc.resetLinkageProgress, .error (.checkpointMismatch height))
    else if height = newest then
      if hash ≠ pinned then (bc.resetLinkageProgress, .error (.checkpointMismatch newest))
      else
        ({ bc.resetLinkageProgress with
            linkedToCheckpoint := OrdMap.ofKeys (bc.linkagePending ++ [hash]) }, .ok true)
    else
      extendLoop newest pinned
        { bc with
          linkagePending := bc.linkagePending ++ [hash]
          linkageNextHeight := height + 1
          linkagePrev := some hash } rest

/-- Start from the chain's own genesis. -/
def seedLinkage (bc : Blockchain) (genesis : Hash) : Blockchain :=
  { bc with linkagePending := bc.linkagePending ++ [genesis], linkageNextHeight := 1, linkagePrev := some genesis }

/-- Feed a batch of headers toward the newest pin. -/
def extendCheckpointLinkage (bc : Blockchain) (headers : List BlockHeader) :
    Blockchain × Except ChainError Bool :=
  match bc.newestCheckpoint with
  | none => (bc, .ok false)
  | some (newest, pinned) =>
    if bc.checkpointLinkageReady then (bc, .ok true)
    else
      match bc.blocks.get? 0 with
      | none => (bc, .error (.checkpointMismatch 0))
      | some block =>
        let genesis := block.hash C
        if bc.linkagePrev.isSome then extendLoop C newest pinned bc headers
        else if newest = 0 then
          if genesis ≠ pinned then (bc.resetLinkageProgress, .error (.checkpointMismatch 0))
          else
            ({ bc.resetLinkageProgress with
                linkedToCheckpoint := OrdMap.ofKeys (bc.linkagePending ++ [genesis]) }, .ok true)
        else extendLoop C newest pinned (bc.seedLinkage genesis) headers

/-- Prove the linkage from the active chain. -/
def relinkCheckpointFromLocal (bc : Blockchain) : Blockchain × ℕ :=
  let newest := bc.newestCheckpointHeight
  if bc.checkpoints.entries.isEmpty ∨ bc.height < newest then (bc, 0)
  else
    let headers := (List.range (newest + 1)).filterMap fun h => (bc.blocks.get? h).map Block.header
    if headers.length ≠ newest + 1 then (bc, 0)
    else
      match installCheckpointLinkage C bc headers with
      | .error _ => (bc, 0)
      | .ok r => r

/-- Replace the pins. -/
def setCheckpoints (bc : Blockchain) (pins : List (ℕ × Hash)) : Blockchain :=
  resetLinkageProgress
    { bc with checkpoints := pins.foldl (fun m p => m.insert p.1 p.2) .empty, linkedToCheckpoint := .empty }

/-- Add pins. -/
def addCheckpoints (bc : Blockchain) (pins : List (ℕ × Hash)) : Blockchain :=
  (relinkCheckpointFromLocal C
    { bc with
      checkpoints := pins.foldl (fun m p => m.insert p.1 p.2) bc.checkpoints
      linkedToCheckpoint := .empty }).1

/-- Whether the active chain has the newest pinned block. -/
def checkpointSatisfied (bc : Blockchain) : Bool :=
  match bc.newestCheckpoint with
  | none => true
  | some (newest, expected) => (bc.blocks.get? newest).any fun b => b.hash C = expected

/-- Pin a block of the active chain that is buried deep enough. -/
def adoptLocalFinalizedCheckpoint (bc : Blockchain) (depth : ℕ) : Blockchain × Option (ℕ × Hash) :=
  if bc.checkpoints.entries.isEmpty ∨ !(bc.checkpointSatisfied C) then (bc, none)
  else if bc.height < max depth finalityDepth then (bc, none)
  else
    let height := bc.height - max depth finalityDepth
    if height ≤ bc.newestCheckpointHeight then (bc, none)
    else
      match bc.blocks.get? height with
      | none => (bc, none)
      | some block =>
        (bc.addCheckpoints C [(height, block.hash C)], some (height, block.hash C))

end Blockchain

/-! ## The life of a chain -/

/-- Rules of the same chain, with other deployments. -/
structure Rules.Redeployed (R R' : Rules) : Prop where
  chainId : R'.chainId = R.chainId
  genesisHash : R'.genesisHash = R.genesisHash
  mining : R'.mining = R.mining

/-- The calls that change a chain. -/
inductive ChainCall where
  | importBlock (block : Block)
  | setCheckpoints (pins : List (ℕ × Hash))
  | addCheckpoints (pins : List (ℕ × Hash))
  | installCheckpointLinkage (headers : List BlockHeader)
  | extendCheckpointLinkage (headers : List BlockHeader)
  | relinkCheckpointFromLocal
  | adoptLocalFinalizedCheckpoint (depth : ℕ)

/-- The chain after a call, whatever the call returns. -/
def ChainCall.run (N : NodeEnv) (bc : Blockchain) : ChainCall → Run Blockchain
  | .importBlock block => Prod.fst <$> Blockchain.importBlockTracked N bc block
  | .setCheckpoints pins => .ok (bc.setCheckpoints pins)
  | .addCheckpoints pins => .ok (bc.addCheckpoints N.toCrypto pins)
  | .installCheckpointLinkage headers =>
    match Blockchain.installCheckpointLinkage N.toCrypto bc headers with
    | .error _ => .ok bc
    | .ok (bc, _) => .ok bc
  | .extendCheckpointLinkage headers => .ok (Blockchain.extendCheckpointLinkage N.toCrypto bc headers).1
  | .relinkCheckpointFromLocal => .ok (Blockchain.relinkCheckpointFromLocal N.toCrypto bc).1
  | .adoptLocalFinalizedCheckpoint depth =>
    .ok (Blockchain.adoptLocalFinalizedCheckpoint N.toCrypto bc depth).1

/-- A chain that calls lead to from its genesis. Deployments are set before the first call. -/
inductive Blockchain.Reachable (N : NodeEnv) : Blockchain → Prop
  | new {config : GenesisConfig} {bc : Blockchain} {R : Rules} (h : Blockchain.new N config = .ok bc)
      (hR : bc.rules.Redeployed R) : Reachable N { bc with rules := R }
  | call {bc bc' : Blockchain} {c : ChainCall} (h : Reachable N bc) (hrun : c.run N bc = .ok bc') :
      Reachable N bc'

end Sov
