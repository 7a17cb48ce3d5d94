import SovChain.Types.Transaction

/-!
# `sov-types`: blocks, receipts and weights
-/

namespace Sov
open Codec

/-! ## Merkle roots over lists -/

namespace MerkleTree

def hashLeaf (C : Crypto) (leaf : Hash) : Hash := C.digest (0 :: leaf.bytes)

def hashNode (C : Crypto) (left right : Hash) : Hash := C.digest (1 :: (left.bytes ++ right.bytes))

/-- Hash the neighbours of one level; a lone last node moves up unchanged. -/
def nextLevel (C : Crypto) : List Hash → List Hash
  | left :: right :: rest => hashNode C left right :: nextLevel C rest
  | rest => rest

/-- Hash levels until one node is left; every level is shorter than the one below, so `n` levels
suffice for `n` nodes. -/
def reduce (C : Crypto) : ℕ → List Hash → Hash
  | _, [] => Hash.zero
  | _, [h] => h
  | 0, h :: _ => h
  | n + 1, level => reduce C n (nextLevel C level)

end MerkleTree

def merkleRoot (C : Crypto) (leaves : List Hash) : Hash :=
  if leaves.isEmpty then C.digest [0]
  else MerkleTree.reduce C leaves.length (leaves.map (MerkleTree.hashLeaf C))

/-! ## Receipts -/

inductive ExecutionStatus where
  | success
  | failed (reason : String)
deriving DecidableEq

/-- An event emitted by a contract. -/
structure Event where
  topic : Bytes
  data : Bytes
deriving DecidableEq

/-- The result of an included transaction; `timing` is the checked creation time of a timestamped
one. -/
structure Receipt where
  txId : Hash
  status : ExecutionStatus
  gasUsed : U64
  returnData : Bytes
  events : List Event
  timing : Option U64
deriving DecidableEq

namespace ExecutionStatus

def codec : Codec ExecutionStatus :=
  (unit.sum string).iso (fun | success => .inl () | failed r => .inr r)
    (fun | .inl _ => success | .inr r => failed r) (by rintro (_ | _) <;> rfl)
    (by rintro (_ | _) <;> rfl)

end ExecutionStatus

def Event.codec : Codec Event :=
  (byteVec.pair byteVec).iso (fun e => (e.topic, e.data)) (fun p => ⟨p.1, p.2⟩) (fun _ => rfl)
    fun _ => rfl

namespace Receipt

/-- The committed encoding: without timing nothing follows the events. -/
def consensusBytes (r : Receipt) : Bytes :=
  r.txId.bytes ++ ExecutionStatus.codec.encode r.status ++ (uint 8).encode r.gasUsed ++
    byteVec.encode r.returnData ++ Event.codec.vec.encode r.events ++
    (match r.timing with
    | none => []
    | some createdAtMs => 1 :: (uint 8).encode createdAtMs)

def hash (C : Crypto) (r : Receipt) : Hash := C.digest r.consensusBytes

end Receipt

def receiptsRoot (C : Crypto) (receipts : List Receipt) : Hash :=
  merkleRoot C (receipts.map (Receipt.hash C))

/-! ## Blocks -/

structure BlockHeader where
  height : U64
  prevHash : Hash
  txRoot : Hash
  receiptsRoot : Hash
  stateRoot : Hash
  timestampMs : U64
  proposer : AccountId
  versionBits : U32
  bits : U32
  nonce : U64
deriving DecidableEq

structure Block where
  header : BlockHeader
  transactions : List SignedTransaction
deriving DecidableEq

namespace BlockHeader

def codec : Codec BlockHeader :=
  ((uint 8).pair ((array 32).pair ((array 32).pair ((array 32).pair ((array 32).pair ((uint 8).pair
    (AccountId.codec.pair ((uint 4).pair ((uint 4).pair (uint 8)))))))))).iso
    (fun h => (h.height, h.prevHash, h.txRoot, h.receiptsRoot, h.stateRoot, h.timestampMs, h.proposer,
      h.versionBits, h.bits, h.nonce))
    (fun ⟨a, b, c, d, e, f, g, v, i, n⟩ => ⟨a, b, c, d, e, f, g, v, i, n⟩) (fun _ => rfl) fun _ => rfl

/-- The encoding that is hashed for the block id and sealed by the proof of work. -/
def powPreimage (h : BlockHeader) : Bytes := codec.encode h

def hash (C : Crypto) (h : BlockHeader) : Hash := C.digest (codec.encode h)

end BlockHeader

def computeTxRoot (C : Crypto) (transactions : List SignedTransaction) : Hash :=
  merkleRoot C (transactions.map (SignedTransaction.id C))

namespace Block

def codec : Codec Block :=
  (BlockHeader.codec.pair SignedTransaction.codec.vec).iso (fun b => (b.header, b.transactions))
    (fun p => ⟨p.1, p.2⟩) (fun _ => rfl) fun _ => rfl

/-- A block without signals, difficulty and nonce. -/
def assemble (C : Crypto) (height : U64) (prevHash stateRoot receiptsRoot : Hash) (timestampMs : U64)
    (proposer : AccountId) (transactions : List SignedTransaction) : Block where
  header :=
    { height, prevHash, txRoot := computeTxRoot C transactions, receiptsRoot, stateRoot, timestampMs
      proposer, versionBits := 0, bits := 0, nonce := 0 }
  transactions

def hash (C : Crypto) (b : Block) : Hash := b.header.hash C

def serializedSize (b : Block) : ℕ := (codec.encode b).length

def txRootMatches (C : Crypto) (b : Block) : Bool :=
  b.header.txRoot = computeTxRoot C b.transactions

def allSignaturesValidMode (C : Crypto) (b : Block) (mode : TxDomainMode) : Bool :=
  b.transactions.all fun s => s.verifySignatureMode C mode

end Block

/-! ## Weights -/

def weightUnitsPerVerifyMs : ℕ := 512

def shieldedV2VerifyWeight : ℕ := 16 * weightUnitsPerVerifyMs

def shieldedV2Suite2VerifyWeight : ℕ := 128 * weightUnitsPerVerifyMs

def maxBlockWeight : ℕ := 4 * 1024 * 1024

/-- What verifying an action costs beyond its bytes. -/
def verifyWeight : Action → ℕ
  | .shieldedV2 bundle =>
    if bundle.head? = some 2 then shieldedV2Suite2VerifyWeight else shieldedV2VerifyWeight
  | .tipped _ inner => verifyWeight inner
  | .timestamped _ inner => verifyWeight inner
  | .multisigExec action _ => verifyWeight action
  | .proposeMultisig _ action => verifyWeight action
  | _ => 0

/-- Size plus verification weight. The saturating `u64` sums of the source are bounded by the size of
the block in memory. -/
def blockWeight (b : Block) : ℕ :=
  b.transactions.foldl (fun acc stx => acc + verifyWeight stx.transaction.action) b.serializedSize

end Sov
