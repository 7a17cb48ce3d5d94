import SovChain.State.Ledger
import SovChain.Types.Block
import SovChain.Mining.Policy

/-!
# `sov-runtime`: what execution depends on

The environment collects the third-party code execution calls: the contract engine and the decoders
and verifiers of the two shielded pools. `BlockContext` and the gas table are the repository's own.
-/

namespace Sov

/-! ## The contract engine -/

/-- A token transfer a contract queued; the runtime validates it again. -/
structure TokenTransferCmd where
  asset : Hash
  dest : String
  amount : U128
deriving DecidableEq

inductive VmError where
  | compile (msg : String)
  | instantiate (msg : String)
  | missingEntry (entry : String)
  | outOfGas
  | trap (msg : String)
deriving DecidableEq

def VmError.message : VmError → String
  | compile msg => "contract failed to compile: " ++ msg
  | instantiate msg => "contract failed to instantiate: " ++ msg
  | missingEntry entry => "entry point '" ++ entry ++ "' not found or has the wrong signature"
  | outOfGas => "contract ran out of gas"
  | trap msg => "contract trapped: " ++ msg

/-- What a call hands to the engine. -/
structure VmInput where
  wasm : Bytes
  entry : String
  gasLimit : U64
  blockHeight : U64
  caller : String
  contract : String
  calldata : Bytes
  tokenBalances : List (Hash × U128)
  storage : List (Bytes × Bytes)

/-- What a call that returned left behind; the storage is the contract's whole storage. -/
structure VmOutcome where
  returnData : Bytes
  events : List Event
  tokenTransfers : List TokenTransferCmd
  storage : List (Bytes × Bytes)

/-- One run of the engine: the fuel it consumed and how it ended. -/
structure VmRun where
  fuel : U64
  result : Except VmError VmOutcome

/-! ## The post-quantum pool's bundles -/

structure V2Input where
  dummy : Bool
  anchor : Hash
  nullifier : Hash

structure V2Output where
  dummy : Bool
  commitment : Hash
  hasCiphertext : Bool

/-- The decoded public part of a bundle. -/
structure SpendBundle where
  inputs : List V2Input
  outputs : List V2Output
  transparentIn : U64
  transparentOut : U64
  feeGrains : U64

inductive WireError where
  | unknownProofVersion (version : UInt8)
  | other (msg : String)

/-- The transaction a bundle must be bound to. -/
structure Carrier where
  domain : SigningDomain
  signer : AccountId
  nonce : U64

/-- The code of other crates, as parameters. The shielded verifiers take the raw bundle. -/
structure Env extends Crypto where
  vm : VmInput → VmRun
  decodeShielded : Bytes → Option ShieldedBundle
  /-- The proof check of historical blocks. -/
  verifyShieldedProof : Bytes → Bool
  /-- Proof, binding and spend authorization for a carrier. -/
  verifyShieldedCarrier : Bytes → Carrier → Bool
  /-- Whether the build has the second proof suite. -/
  zkSuite2 : Bool
  decodeV2 : (suite2 : Bool) → Bytes → Except WireError SpendBundle
  verifyCarrierAuth : Bytes → Carrier → Bool
  /-- The proof check of either suite; the second one binds the carrier. -/
  verifySpend : Bytes → Option Carrier → Except String Unit

instance : Coe Env Crypto := ⟨Env.toCrypto⟩

/-! ## The block context -/

structure BlockContext where
  height : U64
  prevHash : Hash
  blockTimeMs : U64
  mining : MiningPolicy
  gasPrice : Balance
  miner : AccountId
  pq : Option PqSchedule
  txDomain : TxDomainMode
  feeAuctionActive : Bool
  shieldedV2Active : Bool
  shieldedV2Suite2Active : Bool
  txTimestampActive : Bool
  chainDomain : SigningDomain

/-- Why the post-quantum pool refuses a bundle. -/
inductive ShieldedV2Error where
  | unknownProofVersion (version : UInt8)
  | malformedBundle (msg : String)
  | malformedStructure (msg : String)
  | noEffect
  | feeLegNotZero (fee : U64)
  | carrierAuth
  | invalidProof (msg : String)
  | unknownAnchor (input : ℕ)
  | nullifierAlreadySpent (input : ℕ)
  | treeFull
  | insufficientBalance (amount : U128)
  | turnstile (out pool : U128)
  | valueOverflow
  | drainLimit
deriving DecidableEq

/-- Why a transaction is rejected, as opposed to included with a failed receipt. -/
inductive ExecutionError where
  | invalidSignature
  | unauthorized (account : String)
  | badNonce (expected got : U64)
  | overflow
  | cannotAffordFee (account : String)
  | dataTooLarge (limit got : ℕ)
  | pqRotationRequired (account : String)
  | pqSunset (account : String)
  | pqShieldedV1DepositsClosed
  | pqShieldedV1Sunset
  | featureInactive (feature : String)
  | nestedTip
  | tipInnerNotAllowed
  | misplacedTimestamp
  | timestampInnerNotAllowed
  | txTimestampInFuture (createdAtMs blockTimeMs toleranceMs : U64)
  | txTimestampExpired (createdAtMs blockTimeMs maxAgeMs : U64)
  | pqShieldedV2Unreviewed
  | shieldedV2 (e : ShieldedV2Error)
deriving DecidableEq

/-- How `apply_transaction` leaves early: with an error, and the ledger as the code left it, or by a
panic. -/
inductive Fault where
  | reject (ledger : Ledger) (e : ExecutionError)
  | panic

/-! ## Gas -/

namespace Gas

def intrinsic : U64 := 21000

def bookkeeping : U64 := 30000

def deployPerByte : U64 := 200

def calldataPerByte : U64 := 16

def shieldedVerify : U64 := 500000

def shieldedV2Verify : U64 := 500000

def intentVerify : U64 := 30000

def mlDsaVerify : U64 := 60000

def policyPerEntry : U64 := 2000

/-- `len as u64`. -/
def ofLen (n : ℕ) : U64 := BitVec.ofNat 64 n

def policyEntries (policy : CompliancePolicy) : U64 :=
  match policy.transferControl with
  | .unrestricted => 0
  | .allowList set => ofLen set.entries.length
  | .denyList set => ofLen set.entries.length

/-- The intrinsic gas of an action. The plain sums wrap as those of a release build do. -/
def gasFor : Action → U64
  | .transfer .. => intrinsic
  | .claimVesting => intrinsic
  | .deploy code => intrinsic + ofLen code.length * deployPerByte
  | .call _ _ calldata => intrinsic + ofLen calldata.length * calldataPerByte
  | .shielded _ => intrinsic + shieldedVerify
  | .htlcLock .. => intrinsic + bookkeeping
  | .htlcClaim .. => intrinsic + bookkeeping
  | .htlcRefund .. => intrinsic + bookkeeping
  | .tokenIssue .. => intrinsic + bookkeeping
  | .tokenTransfer .. => intrinsic + bookkeeping
  | .tokenBurn .. => intrinsic + bookkeeping
  | .tokenSetPolicy _ policy => intrinsic + bookkeeping + policyEntries policy * policyPerEntry
  | .intentSettle _ => intrinsic + bookkeeping + intentVerify
  | .intentCancel _ => intrinsic + bookkeeping
  | .rotateKey .. => intrinsic + bookkeeping + intentVerify
  | .registerName _ => intrinsic + bookkeeping
  | .transferName .. => intrinsic + bookkeeping
  | .nftMint _ tokenId _ metadata =>
    intrinsic + bookkeeping + ofLen (tokenId.length + metadata.length) * calldataPerByte
  | .nftTransfer .. => intrinsic + bookkeeping
  | .nftSetMeta _ _ metadata => intrinsic + bookkeeping + ofLen metadata.length * calldataPerByte
  | .setMultisig signers _ => intrinsic + bookkeeping + ofLen signers.length * policyPerEntry
  | .multisigExec action approvals =>
    let inner := match action with
      | .multisigExec .. => intrinsic
      | _ => gasFor action
    intrinsic + ofLen approvals.length * intentVerify + inner
  | .proposeMultisig .. => intrinsic + bookkeeping
  | .approveMultisig .. => intrinsic + bookkeeping
  | .cancelMultisig .. => intrinsic + bookkeeping
  | .vaultDeposit _ => intrinsic + bookkeeping
  | .vaultMint _ => intrinsic + bookkeeping
  | .vaultBurn _ => intrinsic + bookkeeping
  | .vaultWithdraw _ => intrinsic + bookkeeping
  | .oracleUpdate _ => intrinsic + bookkeeping
  | .tipped _ inner =>
    let g := match inner with
      | .tipped .. => intrinsic
      | _ => gasFor inner
    g.saturatingAdd bookkeeping
  | .timestamped _ inner =>
    let g := match inner with
      | .timestamped .. => intrinsic
      | _ => gasFor inner
    g.saturatingAdd bookkeeping
  | .shieldedV2 bundle =>
    (intrinsic.saturatingAdd shieldedV2Verify).saturatingAdd
      ((ofLen bundle.length).saturatingMul calldataPerByte)

/-- The surcharge for a signature envelope larger than the Ed25519 one. -/
def envelope : PublicKey → U64
  | .v1Ed25519 _ => 0
  | .v2HybridMlDsa65 .. => ofLen (1952 + 3309) * calldataPerByte + mlDsaVerify

end Gas
end Sov
