import SovChain.Runtime.Actions

/-!
# `sov-runtime`: the state transition

`applyTransaction` runs in three stages. `prepare` makes every check that comes before the first write:
it authenticates, authorizes, prices the transaction and resolves the action to execute. `dispatch`
executes the action. `finish` writes the signer back and pays the fee and the tip to the miner.
-/

namespace Sov
open Codec
namespace Runtime

/-! ## Gates on the action tree -/

/-- The inner action of a carrier. -/
def carried : Action → Option Action
  | .multisigExec action _ => some action
  | .proposeMultisig _ action => some action
  | .tipped _ inner => some inner
  | .timestamped _ inner => some inner
  | _ => none

/-- The feature one node depends on, when it is not active. -/
def dormantFeature (ctx : BlockContext) : Action → Option String
  | .tipped .. => if ctx.feeAuctionActive then none else some "fee-auction"
  | .shieldedV2 _ => if ctx.shieldedV2Active then none else some "shielded-v2"
  | .timestamped .. => if ctx.txTimestampActive then none else some "tx-timestamp"
  | _ => none

/-- The first dormant feature of the carrier chain. -/
def findInactiveFeature (ctx : BlockContext) (action : Action) : Option String :=
  match dormantFeature ctx action with
  | some feature => some feature
  | none =>
    match action with
    | .multisigExec inner _ => findInactiveFeature ctx inner
    | .proposeMultisig _ inner => findInactiveFeature ctx inner
    | .tipped _ inner => findInactiveFeature ctx inner
    | .timestamped _ inner => findInactiveFeature ctx inner
    | _ => none

/-- A creation-time envelope at the node or below. -/
def containsTimestamp : Action → Bool
  | .timestamped .. => true
  | .multisigExec inner _ => containsTimestamp inner
  | .proposeMultisig _ inner => containsTimestamp inner
  | .tipped _ inner => containsTimestamp inner
  | _ => false

/-- A creation-time envelope below the top. -/
def hasNestedTimestamp (action : Action) : Bool := (carried action).any containsTimestamp

/-- The value balance in the header of an encoded Orchard bundle is negative. -/
def claimsDeposit (bundle : Bytes) : Bool :=
  9 ≤ bundle.length && (BitVec.ofNat 64 (ofLeBytes ((bundle.drop 1).take 8))).msb

/-- The retirement of the pools along the carrier chain. -/
def checkRetired (E : Env) (ctx : BlockContext) (pq : PqSchedule) :
    Action → Except ExecutionError Unit
  | .shieldedV2 bundle =>
    if E.zkSuite2 && ctx.shieldedV2Suite2Active && bundle.head? = some 2 then .ok ()
    else .error .pqShieldedV2Unreviewed
  | .shielded bundle =>
    if pq.sunsetHeight.toNat ≤ ctx.height.toNat then .error .pqShieldedV1Sunset
    else if claimsDeposit bundle then .error .pqShieldedV1DepositsClosed
    else .ok ()
  | .multisigExec inner _ => checkRetired E ctx pq inner
  | .proposeMultisig _ inner => checkRetired E ctx pq inner
  | .tipped _ inner => checkRetired E ctx pq inner
  | .timestamped _ inner => checkRetired E ctx pq inner
  | _ => .ok ()

def checkShieldedRetirement (E : Env) (ctx : BlockContext) (action : Action) :
    Except ExecutionError Unit :=
  match ctx.pq with
  | none => .ok ()
  | some pq =>
    if ctx.height.toNat < pq.rotationOnlyHeight.toNat ∧ ctx.height.toNat < pq.sunsetHeight.toNat then
      .ok ()
    else checkRetired E ctx pq action

/-- A policy change to hybrid keys only, before the sunset. -/
def isPqMultisigMigration (ctx : BlockContext) : Action → Bool
  | .setMultisig signers _ =>
    (ctx.pq.any fun pq => decide (ctx.height.toNat < pq.sunsetHeight.toNat)) && !signers.isEmpty &&
      signers.all isHybridKey
  | _ => false

def isMultisigExec : Action → Bool
  | .multisigExec .. => true
  | _ => false

def isRotateKey : Action → Bool
  | .rotateKey .. => true
  | _ => false

/-! ## Admission -/

/-- Who may act for the signer's account; a keyless account binds the key it is used with. -/
def authorize (C : Crypto) (s : Stores) (tx : Transaction) : Except ExecutionError Account :=
  let signer := s.account tx.signer
  let unauthorized := ExecutionError.unauthorized tx.signer.raw
  match s.multisig.get? tx.signer with
  | some policy =>
    if tx.publicKey ∈ policy.signers ∧ isMultisigExec tx.action then .ok signer else .error unauthorized
  | none =>
    match signer.key with
    | some key => if key = tx.publicKey then .ok signer else .error unauthorized
    | none =>
      if tx.signer.isImplicit then
        if tx.publicKey.implicitAccountId C ≠ tx.signer then .error unauthorized
        else .ok { signer with key := some tx.publicKey }
      else if !isRotateKey tx.action then .error unauthorized
      else .ok { signer with key := some tx.publicKey }

/-- What retired authority may still do in the rotation window. -/
def rotatesToHybrid (ctx : BlockContext) : Action → Bool
  | .rotateKey newKey _ => isHybridKey newKey
  | .multisigExec action _ => isPqMultisigMigration ctx action
  | _ => false

/-- The post-quantum gate on the transaction's key. -/
def pqGate (ctx : BlockContext) (tx : Transaction) (requiresHybrid : Bool) :
    Except ExecutionError Unit :=
  match ctx.pq with
  | none => .ok ()
  | some pq =>
    let legacy := !isHybridKey tx.publicKey
    if legacy && pq.sunsetHeight.toNat ≤ ctx.height.toNat then .error (.pqSunset tx.signer.raw)
    else if legacy && requiresHybrid && !rotatesToHybrid ctx tx.action then
      .error (.pqRotationRequired tx.signer.raw)
    else .ok ()

/-- Remove the creation-time envelope and check its bounds; the second component is the committed
time. -/
def unwrapTimestamp (ctx : BlockContext) : Action → Except ExecutionError (Action × Option U64)
  | .timestamped createdAtMs inner =>
    if isMultisigExec inner || isRotateKey inner then .error .timestampInnerNotAllowed
    else if (ctx.blockTimeMs.saturatingAdd txTimestampFutureToleranceMs).toNat < createdAtMs.toNat then
      .error (.txTimestampInFuture createdAtMs ctx.blockTimeMs txTimestampFutureToleranceMs)
    else if createdAtMs.toNat < (ctx.blockTimeMs.saturatingSub txTimestampMaxAgeMs).toNat then
      .error (.txTimestampExpired createdAtMs ctx.blockTimeMs txTimestampMaxAgeMs)
    else .ok (inner, if ctx.txTimestampActive then some createdAtMs else none)
  | action => .ok (action, none)

/-- The cap on code and calldata. -/
def checkDataSize (ctx : BlockContext) (action : Action) : Except ExecutionError Unit :=
  let limit := ctx.mining.maxCodeBytes.toNat
  let check (got : ℕ) : Except ExecutionError Unit :=
    if limit ≠ 0 ∧ limit < got then .error (.dataTooLarge limit got) else .ok ()
  match action with
  | .deploy code => check code.length
  | .call _ _ calldata => check calldata.length
  | _ => .ok ()

/-- The intrinsic gas of a transaction. -/
def intrinsicGas (tx : Transaction) : U64 := Gas.gasFor tx.action + Gas.envelope tx.publicKey

def intrinsicFee (ctx : BlockContext) (tx : Transaction) : Except ExecutionError Balance :=
  if ctx.gasPrice = 0 then .ok 0
  else match ((intrinsicGas tx).setWidth 128 : Balance).checkedMul ctx.gasPrice with
  | none => .error .overflow
  | some fee => .ok fee

/-- A direct withdrawal under the second suite may pay its own fee. -/
def verifyDirectSuite2WithdrawalForFee (E : Env) (ctx : BlockContext) (s : Stores) (tx : Transaction)
    (signerBalance : Balance) : Except ExecutionError (Option V2Effects) :=
  if !(E.zkSuite2 && ctx.shieldedV2Active && ctx.shieldedV2Suite2Active) then .ok none
  else match tx.action with
  | .shieldedV2 bundle =>
    if bundle.head? ≠ some 2 then .ok none
    else match ShieldedV2.verifyBundleForCarrier E bundle s ctx.mining ctx.height
        ⟨ctx.chainDomain, tx.signer, tx.nonce⟩ signerBalance true with
    | .error e => .error (.shieldedV2 e)
    | .ok effects =>
      if effects.shieldIn ≠ 0 ∨ effects.deshieldOut = 0 then .ok none else .ok (some effects)
  | _ => .ok none

/-- The withdrawal that pays the fee, when the balance does not. -/
def fundFee (E : Env) (ctx : BlockContext) (s : Stores) (tx : Transaction) (balance fee : Balance) :
    Except ExecutionError (Option V2Effects) :=
  if fee = 0 ∨ (balance.checkedSub fee).isSome then .ok none
  else do
    let funded ← verifyDirectSuite2WithdrawalForFee E ctx s tx balance
    let available ← match funded with
      | none => pure balance
      | some effects =>
        match balance.checkedAdd effects.deshieldOut with
        | none => throw .overflow
        | some available => pure available
    if (available.checkedSub fee).isNone then throw (.cannotAffordFee tx.signer.raw)
    return funded

/-! ## Resolution -/

/-- The approvals that count: valid ones of distinct policy indices. -/
def countedApprovals (C : Crypto) (ctx : BlockContext) (tx : Transaction) (requiresHybrid : Bool)
    (policy : Multisig) (inner : Action) (approvals : List MultisigApproval) : List U16 :=
  ((approvals.filter fun ap =>
    match policy.signers[ap.signer.toNat]? with
    | none => false
    | some pk =>
      (!requiresHybrid || isHybridKey pk || isPqMultisigMigration ctx inner) &&
        pk.verify C (multisigSigningBytes tx.signer tx.nonce inner) ap.signature).map
    MultisigApproval.signer).dedup

/-- Why a `multisigExec` does not execute. -/
def multisigError (C : Crypto) (ctx : BlockContext) (s : Stores) (tx : Transaction)
    (requiresHybrid : Bool) (inner : Action) (approvals : List MultisigApproval) : Option String :=
  if isMultisigExec inner || isRotateKey inner then
    some "multisig: inner action may not be MultisigExec or RotateKey"
  else match s.multisig.get? tx.signer with
  | none => some "multisig: account has no multisig policy"
  | some policy =>
    let approved := (countedApprovals C ctx tx requiresHybrid policy inner approvals).length
    if (BitVec.ofNat 16 approved).toNat < policy.threshold.toNat then
      some ("multisig: " ++ toString approved ++ " valid approval(s), need " ++
        toString policy.threshold.toNat)
    else none

/-- The action to execute, the balance left after the tip, the tip, and why it fails at once. -/
structure Resolved where
  action : Action
  balance : Balance
  tip : Balance
  msError : Option String

def resolve (C : Crypto) (ctx : BlockContext) (s : Stores) (tx : Transaction) (requiresHybrid : Bool)
    (action : Action) (balance : Balance) : Except ExecutionError Resolved :=
  match action with
  | .tipped tip inner =>
    if !ctx.feeAuctionActive then .ok ⟨action, balance, 0, none⟩
    else
      match inner with
      | .tipped .. => .error .nestedTip
      | _ =>
        if isMultisigExec inner || isRotateKey inner then .error .tipInnerNotAllowed
        else match balance.checkedSub tip with
        | none => .error (.cannotAffordFee tx.signer.raw)
        | some remaining => .ok ⟨inner, remaining, tip, none⟩
  | .multisigExec inner approvals =>
    .ok ⟨inner, balance, 0, multisigError C ctx s tx requiresHybrid inner approvals⟩
  | _ => .ok ⟨action, balance, 0, none⟩

/-- What is settled before the first write. `signer` has paid the fee, unless a withdrawal will, and the
tip. -/
structure Prepared where
  action : Action
  signer : Account
  requiresHybrid : Bool
  gasUsed : U64
  fee : Balance
  feeFunded : Option V2Effects
  tip : Balance
  msError : Option String
  timing : Option U64

def prepare (E : Env) (ctx : BlockContext) (s : Stores) (stx : SignedTransaction) :
    Except ExecutionError Prepared := do
  let tx := stx.transaction
  if !stx.verifySignatureMode E.toCrypto ctx.txDomain then throw .invalidSignature
  let signer ← authorize E.toCrypto s tx
  if tx.nonce ≠ signer.nonce then throw (.badNonce signer.nonce tx.nonce)
  let requiresHybrid := pqRequiresHybridAuthority signer ctx
  pqGate ctx tx requiresHybrid
  checkShieldedRetirement E ctx tx.action
  if let some feature := findInactiveFeature ctx tx.action then throw (.featureInactive feature)
  if hasNestedTimestamp tx.action then throw .misplacedTimestamp
  let (action, timing) ← unwrapTimestamp ctx tx.action
  checkDataSize ctx action
  let fee ← intrinsicFee ctx tx
  let feeFunded ← fundFee E ctx s tx signer.balance fee
  let some nonce := signer.nonce.checkedAdd 1 | throw .overflow
  let some balance := signer.balance.checkedSub (if feeFunded.isSome then 0 else fee)
    | throw .overflow
  let r ← resolve E.toCrypto ctx s tx requiresHybrid action balance
  return { action := r.action, signer := { signer with nonce, balance := r.balance }, requiresHybrid
           gasUsed := intrinsicGas tx, fee, feeFunded, tip := r.tip, msError := r.msError, timing }

/-! ## Execution -/

/-- Run an arm that leaves the receipt's fields alone. -/
def lift (s : ExecState) (arm : InFlight → Arm) : Except Fault (ExecState × ExecutionStatus) :=
  (arm s.toInFlight).map fun r => ({ s with toInFlight := r.1 }, r.2)

def dispatch (E : Env) (ctx : BlockContext) (stx : SignedTransaction) (p : Prepared) (s : ExecState) :
    Except Fault (ExecState × ExecutionStatus) :=
  let C := E.toCrypto
  let tx := stx.transaction
  let sid := tx.signer
  match p.action with
  | .tipped .. =>
    .error (.reject s.ledger
      (if ctx.feeAuctionActive then .tipInnerNotAllowed else .featureInactive "fee-auction"))
  | .timestamped .. =>
    .error (.reject s.ledger
      (if ctx.txTimestampActive then .misplacedTimestamp else .featureInactive "tx-timestamp"))
  | .shieldedV2 bundle => lift s (shieldedV2 ctx sid E tx.nonce p.fee p.feeFunded bundle)
  | .transfer dest amount => lift s (transfer C sid dest amount)
  | .claimVesting => lift s (claimVesting ctx)
  | .deploy code => lift s (deploy code)
  | .call contract gasLimit calldata => call E ctx sid contract gasLimit calldata s
  | .shielded bundle => lift s (shielded ctx sid E tx.nonce bundle)
  | .htlcLock recipient amount hashlock timeoutHeight =>
    lift s (htlcLock C sid (stx.id C) recipient amount hashlock timeoutHeight)
  | .htlcClaim htlcId preimage => lift s (htlcClaim C ctx sid htlcId preimage)
  | .htlcRefund htlcId => lift s (htlcRefund C ctx sid htlcId)
  | .tokenIssue symbol amount dest => lift s (tokenIssue C sid symbol amount dest)
  | .tokenTransfer asset dest amount => lift s (tokenTransfer C ctx sid asset dest amount)
  | .tokenBurn asset amount => lift s (tokenBurn C ctx sid asset amount)
  | .tokenSetPolicy asset policy => lift s (tokenSetPolicy C sid asset policy)
  | .intentSettle settlement => lift s (intentSettle C ctx sid settlement)
  | .intentCancel intent => lift s (intentCancel C sid intent)
  | .rotateKey newKey proof => lift s (rotateKey C sid tx.nonce p.requiresHybrid newKey proof)
  | .registerName name => lift s (registerName C ctx sid name)
  | .transferName name dest => lift s (transferName C sid name dest)
  | .nftMint symbol tokenId dest metadata => lift s (nftMint C ctx sid symbol tokenId dest metadata)
  | .nftTransfer collection tokenId dest => lift s (nftTransfer C sid collection tokenId dest)
  | .nftSetMeta collection tokenId metadata => lift s (nftSetMeta C sid collection tokenId metadata)
  | .setMultisig signers threshold => lift s (setMultisig C sid p.requiresHybrid signers threshold)
  | .multisigExec .. => lift s (·.failed "multisig: nested MultisigExec is not allowed")
  | .proposeMultisig account action =>
    lift s (proposeMultisig C ctx tx.publicKey tx.nonce account action)
  | .approveMultisig account proposal => lift s (approveMultisig C ctx tx.publicKey account proposal)
  | .cancelMultisig account proposal => lift s (cancelMultisig C ctx tx.publicKey account proposal)
  | .vaultDeposit amount => lift s (vaultDeposit C sid amount)
  | .vaultWithdraw amount => lift s (vaultWithdraw C sid amount)
  | .vaultMint amount => lift s (vaultMint C sid amount)
  | .vaultBurn amount => lift s (vaultBurn C sid amount)
  | .oracleUpdate price => lift s (oracleUpdate C sid price)

/-- Execute the resolved action, unless it failed in resolution. -/
def execute (E : Env) (ctx : BlockContext) (stx : SignedTransaction) (p : Prepared) (L : Ledger) :
    Except Fault (ExecState × ExecutionStatus) :=
  let s : ExecState :=
    { ledger := L, signer := p.signer, feePaid := p.fee, gasUsed := p.gasUsed, returnData := []
      events := [] }
  match p.msError with
  | some reason => .ok (s, .failed reason)
  | none => dispatch E ctx stx p s

/-- Write the signer back and pay the miner. -/
def finish (C : Crypto) (ctx : BlockContext) (sid : AccountId) (tip : Balance) (s : InFlight) :
    Except Fault Ledger := do
  let L ← credit C (s.ledger.setAccount C sid s.signer) ctx.miner s.feePaid
  credit C L ctx.miner tip

/-- Apply one signed transaction. -/
def applyTransaction (E : Env) (ctx : BlockContext) (L : Ledger) (stx : SignedTransaction) :
    Except Fault (Ledger × Receipt) :=
  match prepare E ctx L.toStores stx with
  | .error e => .error (.reject L e)
  | .ok p => do
    let (s, status) ← execute E ctx stx p L
    let ledger ← finish E.toCrypto ctx stx.transaction.signer p.tip s.toInFlight
    return (ledger,
      { txId := stx.id E.toCrypto, status, gasUsed := s.gasUsed, returnData := s.returnData
        events := s.events, timing := p.timing })

/-- Mint the block's reward to its miner; the second component is the amount. -/
def applyCoinbase (C : Crypto) (ctx : BlockContext) (L : Ledger) : Except Fault (Ledger × Balance) :=
  let reward := ctx.mining.rewardAt ctx.height L.minedEmitted
  if reward = 0 then .ok (L, 0)
  else do
    let L ← credit C L ctx.miner reward
    match L.addMinedEmitted C reward with
    | none => throw (.reject L .overflow)
    | some L => return (L, reward)

/-- Apply transactions in order. -/
def applyTransactions (E : Env) (ctx : BlockContext) (L : Ledger) :
    List SignedTransaction → Except Fault (Ledger × List Receipt)
  | [] => .ok (L, [])
  | stx :: rest => do
    let (L, receipt) ← applyTransaction E ctx L stx
    let (L, receipts) ← applyTransactions E ctx L rest
    return (L, receipt :: receipts)

/-- Execute a block: the reward, then the transactions. -/
def executeBlock (E : Env) (ctx : BlockContext) (L : Ledger) (transactions : List SignedTransaction) :
    Except Fault (Ledger × List Receipt) := do
  let (L, _) ← applyCoinbase E.toCrypto ctx L
  applyTransactions E ctx L transactions

end Runtime
end Sov
