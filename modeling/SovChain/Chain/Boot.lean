import SovChain.Chain.Import

/-!
# `sov-chain`: booting from a log of blocks

A node that restarts has the blocks it accepted, in any order and with orphaned branches. It reconstructs the heaviest chain
from the headers alone, then executes it block by block without the checks of an import.

`Work::of_target` computes with 256 bits and panics for a target of zero, whose work is 2²⁵⁶.
-/

namespace Sov

/-- How booting stops: the work of a target does not fit, or as an import may stop. -/
inductive BootPanic where
  | workOverflow
  | chain (p : Panic)
deriving DecidableEq

/-- A computation that may panic at boot. -/
abbrev Boot := Except BootPanic

/-- A step that imports take as well. -/
def Run.boot {α : Type} (x : Run α) : Boot α := x.mapError .chain

/-- The work of a target, with the overflow of the source. -/
def Work.checkedOfTarget (t : Target) : Boot Work := if t = 0 then .error .workOverflow else .ok (Work.ofTarget t)

/-! ## The heaviest chain of a log -/

namespace BlockLog
variable (C : Crypto)

/-- The blocks by hash; of several with one hash, the last. -/
def byHash (log : List Block) : OrdMap Hash Block := log.foldl (fun m b => m.insert (b.hash C) b) .empty

/-- The blocks by height, in the order of the log where heights are equal. -/
def sorted (log : List Block) : List Block := log.insertionSort fun a b => a.header.height.toNat ≤ b.header.height.toNat

/-- The work up to one more block. A block without a known parent, or with bits that are no target, is passed over. -/
def addWork (genesis : Hash) (genesisWork : Work) (cum : OrdMap Hash Work) (b : Block) : Boot (OrdMap Hash Work) :=
  match if b.header.prevHash = genesis then some genesisWork else cum.get? b.header.prevHash with
  | none => .ok cum
  | some parentWork =>
    match Target.fromCompact b.header.bits with
    | none => .ok cum
    | some t => do
      let work ← Work.checkedOfTarget t.canonical
      return cum.insert (b.hash C) (parentWork.saturatingAdd work)

/-- The work up to each block that is connected to genesis. -/
def cumulativeWork (genesis : Hash) (genesisWork : Work) (log : List Block) : Boot (OrdMap Hash Work) :=
  (sorted log).foldlM (addWork C genesis genesisWork) .empty

/-- The heavier of two tips, and the smaller hash of two with equal work. -/
def better (best : Option (Hash × Work)) (x : Hash × Work) : Option (Hash × Work) :=
  match best with
  | none => some x
  | some y => if y.2 < x.2 ∨ (x.2 = y.2 ∧ x.1 < y.1) then some x else some y

def heaviestTip (cum : OrdMap Hash Work) : Option (Hash × Work) := cum.entries.foldl better none

/-- Walk back from a hash to genesis: where the walk ended, and the blocks passed in front of `chain`. -/
def walkBack (blocks : OrdMap Hash Block) (genesis : Hash) : ℕ → Hash → List Block → Hash × List Block
  | 0, cur, chain => (cur, chain)
  | n + 1, cur, chain =>
    if cur = genesis then (cur, chain)
    else
      match blocks.get? cur with
      | none => (cur, chain)
      | some b => walkBack blocks genesis n b.header.prevHash (b :: chain)

/-- The chain below a tip, oldest first. A walk that is longer than the log runs in a cycle. -/
def chainTo (genesis : Hash) (log : List Block) (tip : Hash) : List Block :=
  let walked := walkBack (byHash C log) genesis (log.length + 1) tip []
  if walked.1 ≠ genesis ∧ log.length < walked.2.length then [] else walked.2

end BlockLog

namespace Blockchain

/-- The work of genesis, or none if it is not indexed. -/
def genesisWork (bc : Blockchain) : Work :=
  (bc.index.get? bc.rules.genesisHash).elim 0 BlockIndexEntry.chainWork

def heaviestChain (C : Crypto) (bc : Blockchain) (log : List Block) : Boot (List Block) := do
  let cum ← BlockLog.cumulativeWork C bc.rules.genesisHash bc.genesisWork log
  return (BlockLog.heaviestTip cum).elim [] fun tip => BlockLog.chainTo C bc.rules.genesisHash log tip.1

/-! ## Trusted replay -/

variable (N : NodeEnv)

/-- Append a block of the node's own log. Proof of work, committed roots and invariants are not checked, and the block is
executed on the live ledger without a journal: an execution that fails leaves the ledger as it is then. -/
def extendTrusted (bc : Blockchain) (block : Block) : Boot (Blockchain × Except ChainError Unit) :=
  if block.header.prevHash ≠ bc.head then .ok (bc, .error .prevHashMismatch)
  else
    match Target.fromCompact block.header.bits with
    | none => .ok (bc, .error (.badDifficultyBits block.header.bits block.header.bits))
    | some t => do
      let shaTarget := t.canonical
      let parent ← Run.boot bc.headEntry
      let work ← Work.checkedOfTarget shaTarget
      match executeBlockOn N bc.rules bc.ledger block shaTarget bc.signals with
      | .error .panic => throw (.chain .execution)
      | .error (.reject L e) => return ({ bc with ledger := L }, .error (.execution e))
      | .ok (ledger, receipts) =>
        let height := block.header.height.toNat
        let appended : Blockchain :=
          { bc with
            ledger
            signals := bc.signals.record height block.header.versionBits
            blocks := bc.blocks.push block
            head := block.hash N.toCrypto }
        let indexed := (appended.indexBlockReceipts height receipts).insertEntry N block
          ⟨shaTarget, parent.chainWork.saturatingAdd work, height⟩
        let synced ← Run.boot indexed.syncActiveDifficulty
        return (synced, .ok ())

/-- Append blocks until one is refused. -/
def extendAllTrusted (bc : Blockchain) : List Block → Boot (Blockchain × Except ChainError Unit)
  | [] => .ok (bc, .ok ())
  | block :: rest => do
    let (bc, result) ← extendTrusted N bc block
    match result with
    | .error e => return (bc, .error e)
    | .ok () => extendAllTrusted bc rest

/-- Whether the ledger has the root that the newest block commits to. -/
def replayedStateMatchesHead (bc : Blockchain) : Bool :=
  bc.ledger.stateRoot N.toCrypto = bc.blocks.tip.header.stateRoot

/-- Append the heaviest chain and compare the root once, at its end. -/
def replayLogTrusted (bc : Blockchain) (log : List Block) : Boot (Blockchain × Except ChainError Bool) :=
  if log.isEmpty then .ok (bc, .ok true)
  else do
    let chain ← bc.heaviestChain N.toCrypto log
    let (bc, result) ← extendAllTrusted N bc chain
    return (bc, result.map fun () => bc.replayedStateMatchesHead N)

/-! ## Receipts -/

/-- The receipt of a transaction of the active chain, and the height of its block. -/
def receipt (bc : Blockchain) (id : Hash) : Option (ℕ × Receipt) := do
  let height ← bc.txHeight.get? id
  let receipts ← bc.activeReceipts.get? height
  let r ← receipts.find? fun r => r.txId = id
  return (height, r)

/-- The receipts of the active block at a height. -/
def receiptsAtHeight (bc : Blockchain) (height : ℕ) : Option (List Receipt) :=
  if bc.height < height then none else some ((bc.activeReceipts.get? height).getD [])

end Blockchain
end Sov
