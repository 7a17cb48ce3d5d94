import SovChain.Runtime.ShieldedV2

/-!
# `sov-runtime`: the actions

One definition per arm of the executor's dispatch. An arm works on the ledger and on the local copy of
the signer's account, which is written back after the arm; `InFlight` holds both, with the fee
collected so far. An arm either ends with a status or leaves early with a `Fault`.
-/

namespace Sov
open Codec

/-- The ledger, the signer's account in flight, and the fee taken from it so far. -/
structure InFlight where
  ledger : Ledger
  signer : Account
  feePaid : Balance

/-- The state of one execution: `InFlight` and the fields of the receipt. -/
structure ExecState extends InFlight where
  gasUsed : U64
  returnData : Bytes
  events : List Event

/-- The outcome of an arm. -/
abbrev Arm := Except Fault (InFlight × ExecutionStatus)

namespace InFlight

/-- The action fails; the fee stays paid and nothing else happens. -/
def failed (s : InFlight) (reason : String) : Arm := .ok (s, .failed reason)

def done (s : InFlight) : Arm := .ok (s, .success)

/-- `ok_or(ExecutionError::Overflow)?` at a `none`. -/
def overflow {α : Type} (s : InFlight) : Except Fault α := .error (.reject s.ledger .overflow)

/-- Change the liquid balance of the local signer. -/
def withBalance (s : InFlight) (b : Balance) : InFlight := { s with signer := { s.signer with balance := b } }

end InFlight

namespace Runtime

/-! ## Helpers -/

/-- Credit a liquid balance through a fresh read; nothing is written for zero. -/
def credit (C : Crypto) (L : Ledger) (id : AccountId) (amount : Balance) : Except Fault Ledger :=
  if amount = 0 then .ok L
  else match (L.account id).balance.checkedAdd amount with
  | none => .error (.reject L .overflow)
  | some b => .ok (L.setAccount C id { L.account id with balance := b })

/-- A registered name stands for the account it resolves to. -/
def resolveRecipient (C : Crypto) (s : Stores) (dest : AccountId) : AccountId :=
  if dest.isImplicit then dest else (s.resolveName C dest.raw).getD dest

/-- Move native coin out of `acct`, the loaded account of `sender`, which the caller commits. -/
def doTransfer (C : Crypto) (L : Ledger) (sender : AccountId) (acct : Account) (dest : AccountId)
    (amount : Balance) : Except Fault (Ledger × Account × ExecutionStatus) :=
  let dest := resolveRecipient C L.toStores dest
  match acct.balance.checkedSub amount with
  | none => .ok (L, acct, .failed "insufficient balance")
  | some remaining =>
    if dest = sender then .ok (L, acct, .success)
    else match (L.account dest).balance.checkedAdd amount with
    | none => .error (.reject L .overflow)
    | some credited =>
      .ok (L.setAccount C dest { L.account dest with balance := credited },
        { acct with balance := remaining }, .success)

/-- Execute a stored proposal as the vault `account`. -/
def executeProposalAction (C : Crypto) (L : Ledger) (account : AccountId) :
    Action → Except Fault (Ledger × ExecutionStatus)
  | .transfer dest amount => do
    let (L', vault, status) ← doTransfer C L account (L.account account) dest amount
    return (L'.setAccount C account vault, status)
  | _ => .ok (L, .failed "multisig: proposal carries an unsupported action")

/-- Gate an outgoing token movement against the asset's policy; the window to store, if any. -/
def checkTokenOutgoing (s : Stores) (asset : Hash) (sender counterparty : AccountId)
    (amount : Balance) (height : U64) : Except String (Option SpendWindow) :=
  match s.tokenPolicies.get? asset with
  | none => .ok none
  | some policy =>
    if !policy.transferControl.permits sender then
      .error ("compliance: account " ++ sender.raw ++ " is blocked for this asset")
    else match policy.checkTransfer counterparty amount height (s.tokenWindow asset sender) with
    | .ok w => .ok (some w)
    | .error e => .error ("compliance: " ++ e.message)

/-- Store a spend window if there is one to store. -/
def storeWindow (C : Crypto) (L : Ledger) (asset : Hash) (holder : AccountId) :
    Option SpendWindow → Ledger
  | none => L
  | some w => L.setTokenWindow C asset holder w

def isHybridKey : PublicKey → Bool
  | .v1Ed25519 _ => false
  | .v2HybridMlDsa65 .. => true

/-- Whether ordinary authority over an account must be post-quantum. -/
def pqRequiresHybridAuthority (account : Account) (ctx : BlockContext) : Bool :=
  match ctx.pq with
  | none => false
  | some pq =>
    pq.sunsetHeight.toNat ≤ ctx.height.toNat ||
      (pq.rotationOnlyHeight.toNat ≤ ctx.height.toNat &&
        match account.total with
        | some total => pq.thresholdGrains.toNat ≤ total.toNat
        | none => true)

/-! ## Contract calls -/

/-- What a batch of queued transfers has computed so far. -/
structure TransferScratch where
  balances : OrdMap (Hash ×ₗ AccountId) U128
  windows : OrdMap Hash SpendWindow

/-- A balance as the batch sees it. -/
def TransferScratch.balance (t : TransferScratch) (s : Stores) (asset : Hash) (who : AccountId) : U128 :=
  (t.balances.get? (toLex (asset, who))).getD (s.tokenBalance asset who)

/-- Gate one queued transfer against the asset's policy; the spend windows of the batch after it. -/
def gateCmd (s : Stores) (contract : AccountId) (height : U64) (t : TransferScratch)
    (cmd : TokenTransferCmd) (dest : AccountId) : Except String (OrdMap Hash SpendWindow) :=
  match s.tokenPolicies.get? cmd.asset with
  | none => .ok t.windows
  | some policy =>
    if !policy.transferControl.permits contract then
      .error ("compliance: account " ++ contract.raw ++ " is blocked for this asset")
    else
      let window := (t.windows.get? cmd.asset).getD (s.tokenWindow cmd.asset contract)
      match policy.checkTransfer dest cmd.amount height window with
      | .ok w => .ok (t.windows.insert cmd.asset w)
      | .error e => .error ("compliance: " ++ e.message)

/-- Validate one queued transfer against the batch so far. -/
def settleCmd (s : Stores) (contract : AccountId) (height : U64) (t : TransferScratch)
    (cmd : TokenTransferCmd) : Except String TransferScratch :=
  if (s.tokens.get? cmd.asset).isNone then .error "contract token transfer names no such asset"
  else match AccountId.new cmd.dest with
  | .error _ => .error "contract token transfer names an invalid account"
  | .ok dest =>
    match gateCmd s contract height t cmd dest with
    | .error e => .error e
    | .ok windows =>
      match (t.balance s cmd.asset contract).checkedSub cmd.amount with
      | none => .error "contract token balance insufficient"
      | some remaining =>
        let t := { t with balances := t.balances.insert (toLex (cmd.asset, contract)) remaining }
        -- The destination is read after the debit, so a transfer to itself nets to zero.
        match (t.balance s cmd.asset dest).checkedAdd cmd.amount with
        | none => .error "token balance overflow"
        | some credited =>
          .ok ⟨t.balances.insert (toLex (cmd.asset, dest)) credited, windows⟩

/-- Write what a batch computed. -/
def commitScratch (C : Crypto) (L : Ledger) (contract : AccountId) (t : TransferScratch) : Ledger :=
  t.windows.entries.foldl (fun L e => L.setTokenWindow C e.1 contract e.2)
    (t.balances.entries.foldl
      (fun L e => L.setTokenBalance C (ofLex e.1).1 (ofLex e.1).2 e.2) L)

/-- Apply the transfers a contract queued, all or none. -/
def settleContractTokenTransfers (C : Crypto) (L : Ledger) (contract : AccountId)
    (cmds : List TokenTransferCmd) (height : U64) : Except String Ledger :=
  (cmds.foldlM (settleCmd L.toStores contract height) ⟨.empty, .empty⟩).map
    (commitScratch C L contract)

/-- The balances a contract may see: its own. -/
def contractTokenBalances (s : Stores) (contract : AccountId) : List (Hash × U128) :=
  s.tokenBalances.entries.filterMap fun e =>
    if (ofLex e.1).2 = contract then some ((ofLex e.1).1, e.2) else none

def call (E : Env) (ctx : BlockContext) (sid contract : AccountId) (gasLimit : U64) (calldata : Bytes)
    (s : ExecState) : Except Fault (ExecState × ExecutionStatus) :=
  match (s.ledger.account contract).code with
  | none => .ok (s, .failed "target account is not a contract")
  | some code =>
    let run := E.vm
      { wasm := code, entry := "call", gasLimit, blockHeight := ctx.height, caller := sid.raw
        contract := contract.raw, calldata
        tokenBalances := contractTokenBalances s.ledger.toStores contract
        storage := s.ledger.contractEntries contract }
    match run.result with
    | .error .outOfGas => .ok (s, .failed "contract ran out of gas")
    | .error e => .ok (s, .failed ("contract trap: " ++ e.message))
    | .ok outcome =>
      match (run.fuel.setWidth 128 : Balance).checkedMul ctx.gasPrice with
      | none => s.overflow
      | some vmFee =>
        match s.signer.balance.checkedSub vmFee, s.feePaid.checkedAdd vmFee with
        | none, _ => .ok (s, .failed "cannot afford gas fee")
        | some _, none => s.overflow
        | some remaining, some feePaid =>
          let s :=
            { s with
              signer := { s.signer with balance := remaining }, feePaid
              gasUsed := s.gasUsed.saturatingAdd run.fuel }
          -- The fee stays charged when the queued transfers are refused.
          match settleContractTokenTransfers E.toCrypto s.ledger contract outcome.tokenTransfers
              ctx.height with
          | .error reason => .ok (s, .failed reason)
          | .ok ledger =>
            let ledger := outcome.storage.foldl
              (fun L e => L.setContractValue E.toCrypto contract e.1 e.2) ledger
            .ok ({ s with ledger, returnData := outcome.returnData, events := outcome.events }, .success)

section Arms
variable (C : Crypto) (ctx : BlockContext) (sid : AccountId)

/-! ## Native coin and accounts -/

def transfer (dest : AccountId) (amount : Balance) (s : InFlight) : Arm := do
  let (ledger, signer, status) ← doTransfer C s.ledger sid s.signer dest amount
  return ({ s with ledger, signer }, status)

def claimVesting (s : InFlight) : Arm :=
  if !s.signer.canClaimVesting ctx.height then s.failed "no vested funds to claim yet"
  else match s.signer.balance.checkedAdd s.signer.locked with
  | none => s.overflow
  | some balance =>
    { s with signer := { s.signer with balance, locked := 0, unlockHeight := 0 } }.done

def deploy (code : Bytes) (s : InFlight) : Arm :=
  if code.isEmpty then s.failed "empty contract code"
  else { s with signer := { s.signer with code := some code } }.done

def rotateKey (nonce : U64) (requiresHybrid : Bool) (newKey : PublicKey) (proof : Signature)
    (s : InFlight) : Arm :=
  if requiresHybrid && !isHybridKey newKey then
    s.failed "post-quantum policy: rotation must install a hybrid key"
  else if !newKey.verify C (rotationSigningBytes sid nonce newKey) proof then
    s.failed "rotation proof does not verify under the new key"
  else { s with signer := { s.signer with key := some newKey } }.done

/-! ## The shielded pools -/

/-- The magnitude of an `i64`. -/
def unsignedAbs (v : BitVec 64) : Balance := (if v.msb then -v else v).setWidth 128

/-- Apply a checked Orchard bundle: the pool first, then the value crossing its boundary. -/
def applyShielded (sb : ShieldedBundle) (window : Option (U64 × Balance)) (s : InFlight) : Arm :=
  match s.ledger.applyShieldedBundle C sb with
  | (ledger, some _) => { s with ledger }.failed "shielded double-spend"
  | (ledger, none) =>
    let s := { s with ledger }
    let mag := unsignedAbs sb.valueBalance
    if sb.valueBalance.msb then
      match s.signer.balance.checkedSub mag with
      | none => s.overflow
      | some balance =>
        match s.ledger.addShieldedValue C mag with
        | none => s.overflow
        | some ledger => ({ s with ledger }.withBalance balance).done
    else if sb.valueBalance ≠ 0 then
      match s.ledger.subShieldedValue C mag with
      | none => s.overflow
      | some ledger =>
        match s.signer.balance.checkedAdd mag with
        | none => { s with ledger }.overflow
        | some balance =>
          let ledger := match window with
            | none => ledger
            | some w => ledger.setDeshieldWindow C w.1 w.2
          ({ s with ledger }.withBalance balance).done
    else s.done

def shielded (E : Env) (nonce : U64) (bundle : Bytes) (s : InFlight) : Arm :=
  let rotationWindow := ctx.pq.any fun pq => decide (pq.rotationOnlyHeight.toNat ≤ ctx.height.toNat)
  let verified :=
    if rotationWindow then E.verifyShieldedCarrier bundle ⟨ctx.chainDomain, sid, nonce⟩
    else E.verifyShieldedProof bundle
  match E.decodeShielded bundle with
  | none => s.failed "malformed shielded bundle"
  | some sb =>
    if !verified then
      s.failed (if rotationWindow then "invalid shielded authorization or proof"
        else "invalid shielded proof")
    else if !s.ledger.shielded.anchorIsKnown sb.anchor then s.failed "unknown shielded anchor"
    else
      let mag := unsignedAbs sb.valueBalance
      let leaving := !sb.valueBalance.msb && sb.valueBalance ≠ 0
      let affordable :=
        if sb.valueBalance.msb then (s.signer.balance.checkedSub mag).isSome
        else if leaving then (s.ledger.shieldedValue.checkedSub mag).isSome
        else true
      if leaving && ctx.mining.deshieldWindowBlocks ≠ 0 then
        match ShieldedV2.drainWindow ctx.mining ctx.height s.ledger.deshieldWindow mag with
        | none => s.failed "de-shield rate limit exceeded for this window"
        | some window =>
          if !affordable then s.failed "insufficient balance for shielded value"
          else applyShielded E.toCrypto sb (some window) s
      else if !affordable then s.failed "insufficient balance for shielded value"
      else applyShielded E.toCrypto sb none s

/-- The value that leaves the post-quantum pool; a fee that waited for it is taken here. -/
def applyV2Out (deferredFee : Option Balance) (effects : V2Effects) (s : InFlight) : Arm :=
  if effects.deshieldOut = 0 then s.done
  else match s.ledger.subShieldedV2Value C effects.deshieldOut with
  | none => s.overflow
  | some ledger =>
    let s := { s with ledger }
    match s.signer.balance.checkedAdd effects.deshieldOut with
    | none => s.overflow
    | some gross =>
      match gross.checkedSub (deferredFee.getD 0) with
      | none => s.overflow
      | some balance =>
        let ledger := match effects.windowUpdate with
          | none => s.ledger
          | some w => s.ledger.setDeshieldV2Window C w.1 w.2
        ({ s with ledger }.withBalance balance).done

/-- Apply a verified bundle of the post-quantum pool. -/
def applyV2 (deferredFee : Option Balance) (effects : V2Effects) (s : InFlight) : Arm :=
  match s.ledger.applyShieldedV2 C effects.nullifiers effects.commitments with
  | .error e => .error (.reject s.ledger (.shieldedV2 (.malformedStructure e.message)))
  | .ok ledger =>
    let s := { s with ledger }
    if effects.shieldIn = 0 then applyV2Out C deferredFee effects s
    else match s.signer.balance.checkedSub effects.shieldIn with
    | none => s.overflow
    | some balance =>
      match s.ledger.addShieldedV2Value C effects.shieldIn with
      | none => s.overflow
      | some ledger => applyV2Out C deferredFee effects ({ s with ledger }.withBalance balance)

/-- `feeFunded` is the verified withdrawal that pays the intrinsic fee, when it does. -/
def shieldedV2 (E : Env) (nonce : U64) (intrinsicFee : Balance) (feeFunded : Option V2Effects)
    (bundle : Bytes) (s : InFlight) : Arm :=
  if !ctx.shieldedV2Active then .error (.reject s.ledger (.featureInactive "shielded-v2"))
  else match feeFunded with
  | some effects => applyV2 E.toCrypto (some intrinsicFee) effects s
  | none =>
    match ShieldedV2.verifyBundleForCarrier E bundle s.ledger.toStores ctx.mining ctx.height
        ⟨ctx.chainDomain, sid, nonce⟩ s.signer.balance ctx.shieldedV2Suite2Active with
    | .error e => .error (.reject s.ledger (.shieldedV2 e))
    | .ok effects => applyV2 E.toCrypto none effects s

/-! ## Escrows -/

def htlcLock (txId : Hash) (recipient : AccountId) (amount : Balance) (hashlock : Hash)
    (timeoutHeight : U64) (s : InFlight) : Arm :=
  match s.signer.balance.checkedSub amount with
  | none => s.failed "insufficient balance"
  | some remaining =>
    match s.ledger.lockHtlc C txId ⟨sid, recipient, amount, hashlock, timeoutHeight⟩ with
    | none => s.failed "duplicate HTLC or escrow overflow"
    | some ledger => ({ s with ledger }.withBalance remaining).done

/-- Close an escrow in the signer's favour. -/
def payOutHtlc (htlcId : Hash) (s : InFlight) : Arm :=
  match s.ledger.settleHtlc C htlcId with
  | none => s.failed "no such HTLC"
  | some (ledger, htlc) =>
    let s := { s with ledger }
    match s.signer.balance.checkedAdd htlc.amount with
    | none => s.overflow
    | some balance => (s.withBalance balance).done

def htlcClaim (htlcId : Hash) (preimage : Bytes) (s : InFlight) : Arm :=
  match s.ledger.htlcs.get? htlcId with
  | none => s.failed "no such HTLC"
  | some htlc =>
    if sid ≠ htlc.recipient then s.failed "only the recipient may claim"
    else if htlc.timeoutHeight.toNat ≤ ctx.height.toNat then s.failed "HTLC has timed out"
    else if C.sha256 preimage ≠ htlc.hashlock then s.failed "preimage does not match hashlock"
    else payOutHtlc C htlcId s

def htlcRefund (htlcId : Hash) (s : InFlight) : Arm :=
  match s.ledger.htlcs.get? htlcId with
  | none => s.failed "no such HTLC"
  | some htlc =>
    if sid ≠ htlc.locker then s.failed "only the locker may refund"
    else if ctx.height.toNat < htlc.timeoutHeight.toNat then s.failed "HTLC has not timed out yet"
    else payOutHtlc C htlcId s

/-! ## Tokens -/

/-- 1 to 16 ASCII letters and digits. -/
def validTokenSymbol (symbol : String) : Bool :=
  let bytes := strBytes symbol
  1 ≤ bytes.length && bytes.length ≤ 16 && bytes.all fun b =>
    AccountId.isAsciiLowercase b || AccountId.isAsciiDigit b || (65 ≤ b.toNat && b.toNat ≤ 90)

/-- Issue `amount` of an asset to `dest`: the record and the recipient's balance, or an overflow. -/
def mintTokens (asset : Hash) (info : TokenInfo) (dest : AccountId) (amount : Balance) (L : Ledger) :
    Option Ledger :=
  match info.issued.checkedAdd amount, (L.tokenBalance asset dest).checkedAdd amount with
  | some issued, some credited =>
    some ((L.setToken C asset { info with issued }).setTokenBalance C asset dest credited)
  | _, _ => none

/-- The policy's objection to issuing to `dest`. -/
def issueBlocked (s : Stores) (asset : Hash) (dest : AccountId) : Option String :=
  (s.tokenPolicies.get? asset).bind fun policy =>
    if policy.frozen then some "compliance: asset is paused"
    else if !policy.transferControl.permits dest then
      some ("compliance: account " ++ dest.raw ++ " is blocked for this asset")
    else none

def tokenIssue (symbol : String) (amount : Balance) (dest : AccountId) (s : InFlight) : Arm :=
  let asset := tokenAssetId C sid symbol
  let info := (s.ledger.tokens.get? asset).getD ⟨sid, symbol, 0, 0⟩
  if !validTokenSymbol symbol then s.failed "invalid token symbol (1-16 ASCII alphanumeric bytes)"
  else if amount = 0 then s.failed "cannot issue zero"
  else if asset = xusdAssetId C then s.failed "xUSD is a reserved protocol asset"
  else if info.issuer ≠ sid then s.failed "asset is bound to a different issuer"
  else match issueBlocked s.ledger.toStores asset dest with
  | some reason => s.failed reason
  | none =>
    match mintTokens C asset info dest amount s.ledger with
    | none => s.failed "token supply overflow"
    | some ledger => { s with ledger }.done

def tokenTransfer (asset : Hash) (dest : AccountId) (amount : Balance) (s : InFlight) : Arm :=
  let dest := resolveRecipient C s.ledger.toStores dest
  match s.ledger.tokens.get? asset with
  | none => s.failed "no such asset"
  | some _ =>
    match checkTokenOutgoing s.ledger.toStores asset sid dest amount ctx.height with
    | .error reason => s.failed reason
    | .ok window =>
      match (s.ledger.tokenBalance asset sid).checkedSub amount with
      | none => s.failed "insufficient token balance"
      | some remaining =>
        if dest = sid then s.done
        else match (s.ledger.tokenBalance asset dest).checkedAdd amount with
        | none => s.failed "token balance overflow"
        | some credited =>
          let ledger := (s.ledger.setTokenBalance C asset sid remaining).setTokenBalance C asset dest
            credited
          { s with ledger := storeWindow C ledger asset sid window }.done

def tokenBurn (asset : Hash) (amount : Balance) (s : InFlight) : Arm :=
  match s.ledger.tokens.get? asset with
  | none => s.failed "no such asset"
  | some info =>
    match checkTokenOutgoing s.ledger.toStores asset sid sid amount ctx.height with
    | .error reason => s.failed reason
    | .ok window =>
      match (s.ledger.tokenBalance asset sid).checkedSub amount with
      | none => s.failed "insufficient token balance"
      | some remaining =>
        match info.burned.checkedAdd amount with
        | none => s.failed "token burn overflow"
        | some burned =>
          let ledger := (s.ledger.setToken C asset { info with burned }).setTokenBalance C asset sid
            remaining
          { s with ledger := storeWindow C ledger asset sid window }.done

def maxPolicyEntries : ℕ := 1024

def tokenSetPolicy (asset : Hash) (policy : CompliancePolicy) (s : InFlight) : Arm :=
  match s.ledger.tokens.get? asset with
  | none => s.failed "no such asset"
  | some info =>
    if info.issuer ≠ sid then s.failed "only the asset's issuer may set its compliance policy"
    else if maxPolicyEntries < (Gas.policyEntries policy).toNat then
      s.failed "compliance policy exceeds 1024 list entries"
    else { s with ledger := s.ledger.setTokenPolicy C asset policy }.done

/-! ## Intents -/

/-- One side of a swap. -/
inductive SettleLeg where
  | native
  | token (asset : Hash)

def settleLeg (s : Stores) : Asset → Except String SettleLeg
  | .sov => .ok .native
  | .token id =>
    if (s.tokens.get? id).isNone then .error "intent names a nonexistent asset" else .ok (.token id)

namespace SettleLeg

/-- The balance a leg moves, of an account with the given native balance. -/
def balance (leg : SettleLeg) (s : Stores) (who : AccountId) (native : Balance) : Balance :=
  match leg with
  | .native => native
  | .token asset => s.tokenBalance asset who

/-- The compliance gate of a leg leaving `sender`. -/
def gate (leg : SettleLeg) (s : Stores) (sender counterparty : AccountId) (amount : Balance)
    (height : U64) : Except String (Option SpendWindow) :=
  match leg with
  | .native => .ok none
  | .token asset => checkTokenOutgoing s asset sender counterparty amount height

/-- A balance as a leg leaves it, when it is the native one. -/
def nativeOr (leg : SettleLeg) (after before : Balance) : Balance :=
  match leg with
  | .native => after
  | .token _ => before

/-- Write the token side of a leg: its sender's and its recipient's balance. -/
def write (leg : SettleLeg) (L : Ledger) (sender : AccountId) (debited : Balance)
    (recipient : AccountId) (credited : Balance) : Ledger :=
  match leg with
  | .native => L
  | .token asset =>
    (L.setTokenBalance C asset sender debited).setTokenBalance C asset recipient credited

/-- Write the spend window of a leg's sender. -/
def writeWindow (leg : SettleLeg) (L : Ledger) (sender : AccountId) (window : Option SpendWindow) :
    Ledger :=
  match leg with
  | .native => L
  | .token asset => storeWindow C L asset sender window

/-- A credit that overflows rejects the transaction on the native side and fails it on the token
side. -/
def creditFailed (leg : SettleLeg) (L : Ledger) : Except Fault (Except String (Ledger × Account)) :=
  match leg with
  | .native => .error (.reject L .overflow)
  | .token _ => .ok (.error "token balance overflow")

end SettleLeg

/-- Both legs of a swap, or neither. The solver is the signer, so its native coin moves on the local
copy; the inner `Except` is a failed action. -/
def settleIntentLegs (L : Ledger) (signer : Account) (solver : AccountId) (settlement : Settlement)
    (height : U64) : Except Fault (Except String (Ledger × Account)) :=
  let intent := settlement.intent.intent
  let owner := intent.owner
  let s := L.toStores
  let ownerAcct := L.account owner
  match settleLeg s intent.giveAsset, settleLeg s intent.wantAsset with
  | .error reason, _ => .ok (.error reason)
  | .ok _, .error reason => .ok (.error reason)
  | .ok giveLeg, .ok wantLeg =>
    match giveLeg.gate s owner solver intent.giveAmount height,
      wantLeg.gate s solver owner settlement.deliverAmount height with
    | .error reason, _ => .ok (.error reason)
    | .ok _, .error reason => .ok (.error reason)
    | .ok ownerWindow, .ok solverWindow =>
      match (giveLeg.balance s owner ownerAcct.balance).checkedSub intent.giveAmount,
        (wantLeg.balance s solver signer.balance).checkedSub settlement.deliverAmount with
      | none, _ => .ok (.error "owner cannot cover the given amount")
      | some _, none => .ok (.error "solver cannot cover the delivered amount")
      | some ownerDebited, some solverDebited =>
        match (giveLeg.balance s solver signer.balance).checkedAdd intent.giveAmount,
          (wantLeg.balance s owner ownerAcct.balance).checkedAdd settlement.deliverAmount with
        | none, _ => giveLeg.creditFailed L
        | some _, none => wantLeg.creditFailed L
        | some solverCredited, some ownerCredited =>
          let ownerBalance := wantLeg.nativeOr ownerCredited
            (giveLeg.nativeOr ownerDebited ownerAcct.balance)
          let signerBalance := giveLeg.nativeOr solverCredited
            (wantLeg.nativeOr solverDebited signer.balance)
          let L := L.setAccount C owner { ownerAcct with balance := ownerBalance }
          let L := giveLeg.write C L owner ownerDebited solver solverCredited
          let L := wantLeg.write C L solver solverDebited owner ownerCredited
          let L := giveLeg.writeWindow C L owner ownerWindow
          let L := wantLeg.writeWindow C L solver solverWindow
          .ok (.ok (L, { signer with balance := signerBalance }))

def intentSettle (settlement : Settlement) (s : InFlight) : Arm :=
  let intent := settlement.intent.intent
  let owner := s.ledger.account intent.owner
  if settlement.solver ≠ sid then s.failed "only the settlement's named solver may submit it"
  else if intent.owner = sid then s.failed "an owner cannot fill their own intent"
  else if (s.ledger.multisig.get? intent.owner).isSome then
    s.failed "intent owner is a multisig account; single-key intent settlement is not authorized"
  else if owner.key ≠ some intent.publicKey then
    s.failed "intent key is not the owner account's registered key"
  else if !isHybridKey intent.publicKey && pqRequiresHybridAuthority owner ctx then
    s.failed "post-quantum policy: intent owner's legacy key cannot authorize settlement"
  else if !settlement.intent.verifyMode C ctx.txDomain then s.failed "invalid intent signature"
  else if intent.expiryHeight.toNat < ctx.height.toNat then s.failed "intent has expired"
  else if s.ledger.intentConsumed (intent.id C) then s.failed "intent already settled or cancelled"
  else if intent.giveAsset = intent.wantAsset then
    s.failed "degenerate swap: give and want assets are identical"
  else if settlement.deliverAmount.toNat < intent.minReceive.toNat then
    s.failed "delivery is below the intent's minimum"
  else match settleIntentLegs C s.ledger s.signer sid settlement ctx.height with
  | .error fault => .error fault
  | .ok (.error reason) => s.failed reason
  | .ok (.ok (ledger, signer)) =>
    { s with ledger := ledger.consumeIntent C (intent.id C), signer }.done

def intentCancel (intent : Intent) (s : InFlight) : Arm :=
  if intent.owner ≠ sid then s.failed "only the intent's owner may cancel it"
  else if s.ledger.intentConsumed (intent.id C) then s.failed "intent already settled or cancelled"
  else { s with ledger := s.ledger.consumeIntent C (intent.id C) }.done

/-! ## Names and NFTs -/

def nameRegistrationFeeGrains : Balance := 100000000

def registerName (name : String) (s : InFlight) : Arm :=
  match AccountId.new name with
  | .error _ => s.failed "invalid name"
  | .ok id =>
    if !id.isRegistrableName then s.failed "name must be a *.sov id, not a 64-hex implicit id"
    else if s.ledger.nameTaken C name then s.failed "name already registered"
    else if s.ledger.exists_ id then s.failed "name shadows an existing account"
    else match s.signer.balance.checkedSub nameRegistrationFeeGrains,
        s.feePaid.checkedAdd nameRegistrationFeeGrains with
    | none, _ => s.failed "cannot afford the name registration fee"
    | some _, none => s.overflow
    | some remaining, some feePaid =>
      let ledger := (s.ledger.registerName C name sid ctx.height).getD s.ledger
      ({ s with ledger, feePaid }.withBalance remaining).done

def transferName (name : String) (dest : AccountId) (s : InFlight) : Arm :=
  match (s.ledger.nameToken C name).map NftToken.owner with
  | none => s.failed "no such registered name"
  | some owner =>
    if owner ≠ sid then s.failed "only the name's owner may transfer it"
    else { s with ledger := (s.ledger.transferName C name dest).getD s.ledger }.done

/-- 1 to 32 printable ASCII bytes. -/
def validNftSymbol (symbol : String) : Bool :=
  let bytes := strBytes symbol
  1 ≤ bytes.length && bytes.length ≤ 32 && bytes.all fun b => 33 ≤ b.toNat && b.toNat ≤ 126

def nftMint (symbol : String) (tokenId : Bytes) (dest : AccountId) (metadata : Bytes)
    (s : InFlight) : Arm :=
  if !validNftSymbol symbol then
    s.failed "nft collection symbol must be 1–32 printable ASCII bytes"
  else
    let classId := nftClassId C sid symbol
    let existing := s.ledger.nftClasses.get? classId
    if existing.any fun c => c.issuer ≠ sid then
      s.failed "only the collection's issuer may mint into it"
    else match s.ledger.mintNft C classId tokenId dest metadata ctx.height with
    | none => s.failed "nft item already exists"
    | some ledger =>
      let nftClass := existing.getD ⟨sid, symbol, 0⟩
      { s with
        ledger := ledger.setNftClass C classId
          { nftClass with minted := nftClass.minted.saturatingAdd 1 } }.done

def nftTransfer (collection : Hash) (tokenId : Bytes) (dest : AccountId) (s : InFlight) : Arm :=
  match s.ledger.nftOwner collection tokenId with
  | none => s.failed "no such nft"
  | some owner =>
    if owner ≠ sid then s.failed "only the nft's owner may transfer it"
    else { s with ledger := (s.ledger.transferNft C collection tokenId dest).getD s.ledger }.done

def nftSetMeta (collection : Hash) (tokenId metadata : Bytes) (s : InFlight) : Arm :=
  match s.ledger.nftOwner collection tokenId with
  | none => s.failed "no such nft"
  | some owner =>
    if owner ≠ sid then s.failed "only the nft's owner may set its metadata"
    else { s with ledger := (s.ledger.setNftMeta C collection tokenId metadata).getD s.ledger }.done

/-! ## Multisig -/

def maxMultisigSigners : ℕ := 32

def setMultisig (requiresHybrid : Bool) (signers : List PublicKey) (threshold : U16) (s : InFlight) :
    Arm :=
  let n := signers.length
  if n = 0 ∨ maxMultisigSigners < n then
    s.failed ("multisig: signer count " ++ toString n ++ " out of range 1..=32")
  else if ¬signers.Nodup then s.failed "multisig: signer keys must be distinct"
  else if threshold = 0 ∨ n < threshold.toNat then
    s.failed ("multisig: threshold " ++ toString threshold.toNat ++ " out of range 1..=" ++ toString n)
  else if requiresHybrid && !signers.all isHybridKey then
    s.failed "post-quantum policy: multisig must install only hybrid keys"
  else
    -- Approvals are indices into the old policy, so no pending proposal survives the change.
    { s with ledger := (s.ledger.setMultisig C sid ⟨signers, threshold⟩).removeProposalsFor C sid }.done

def isProposable : Action → Bool
  | .transfer .. => true
  | _ => false

def proposalId (account : AccountId) (proposerKey : Bytes) (proposerNonce : U64) (actionBytes : Bytes) :
    Hash :=
  C.digest (strBytes "sov:msprop:v1" ++ [0] ++ account.bytes ++ [0] ++ proposerKey ++
    (uint 8).encode proposerNonce ++ actionBytes)

/-- `approvers.len() as u16 >= threshold`. -/
def thresholdMet (approvers : List U16) (policy : Multisig) : Bool :=
  policy.threshold.toNat ≤ (BitVec.ofNat 16 approvers.length).toNat

/-- Run a proposal's action as the vault. -/
def executeFor (account : AccountId) (action : Action) (s : InFlight) : Arm :=
  (executeProposalAction C s.ledger account action).map fun (ledger, status) =>
    ({ s with ledger }, status)

/-- The index of a key in a policy, `iter().position` with its cast. -/
def memberIndex (policy : Multisig) (key : PublicKey) : Option U16 :=
  if key ∈ policy.signers then some (BitVec.ofNat 16 (policy.signers.idxOf key)) else none

def proposeMultisig (key : PublicKey) (nonce : U64) (account : AccountId) (action : Action)
    (s : InFlight) : Arm :=
  match s.ledger.multisig.get? account with
  | none => s.failed "multisig: account has no multisig policy"
  | some policy =>
    match memberIndex policy key with
    | none => s.failed "multisig: signer is not a policy member"
    | some idx =>
      if !isProposable action then s.failed "multisig: only a Transfer can be proposed"
      else if !isHybridKey key && pqRequiresHybridAuthority (s.ledger.account account) ctx then
        s.failed "post-quantum policy: legacy member cannot authorize this vault"
      else if thresholdMet [idx] policy then executeFor C account action s
      else
        let actionBytes := Action.codec.encode action
        let id := proposalId C account (PublicKey.codec.encode key) nonce actionBytes
        { s with ledger := s.ledger.setProposal C id ⟨account, actionBytes, [idx]⟩ }.done

/-- The approvals that count: under a post-quantum policy only those of hybrid members. -/
def retainedApprovers (policy : Multisig) (hybridOnly : Bool) (approvers : List U16) : List U16 :=
  if hybridOnly then
    approvers.filter fun i => (policy.signers[i.toNat]?).any isHybridKey
  else approvers

/-- Add an approval unless it is there. -/
def addApprover (approvers : List U16) (idx : U16) : List U16 :=
  if idx ∈ approvers then approvers else approvers ++ [idx]

def approveMultisig (key : PublicKey) (account : AccountId) (proposal : Hash) (s : InFlight) : Arm :=
  match s.ledger.multisig.get? account with
  | none => s.failed "multisig: account has no multisig policy"
  | some policy =>
    match memberIndex policy key, s.ledger.proposals.get? proposal with
    | none, _ => s.failed "multisig: signer is not a policy member"
    | some _, none => s.failed "multisig: no such pending proposal"
    | some idx, some prop =>
      let hybridOnly := pqRequiresHybridAuthority (s.ledger.account account) ctx
      let approvers := addApprover (retainedApprovers policy hybridOnly prop.approvers) idx
      if prop.account ≠ account then s.failed "multisig: proposal does not belong to this account"
      else if !isHybridKey key && hybridOnly then
        s.failed "post-quantum policy: legacy member cannot authorize this vault"
      else if thresholdMet approvers policy then
        match Action.codec.decodeAll prop.action with
        | none => s.failed "multisig: corrupt stored proposal"
        | some action =>
          (executeFor C account action s).map fun (s, status) =>
            ({ s with ledger := s.ledger.removeProposal C proposal }, status)
      else { s with ledger := s.ledger.setProposal C proposal { prop with approvers } }.done

def cancelMultisig (key : PublicKey) (account : AccountId) (proposal : Hash) (s : InFlight) : Arm :=
  if !(s.ledger.multisig.get? account).any fun p => key ∈ p.signers then
    s.failed "multisig: signer is not a policy member"
  else if !isHybridKey key && pqRequiresHybridAuthority (s.ledger.account account) ctx then
    s.failed "post-quantum policy: legacy member cannot authorize this vault"
  else if !(s.ledger.proposals.get? proposal).any fun p => p.account = account then
    s.failed "multisig: no such pending proposal"
  else { s with ledger := s.ledger.removeProposal C proposal }.done

/-! ## Vaults and the price feed -/

/-- Write the signer's vault; the counter's `expect` may panic. -/
def writeVault (vault : Vault) (s : InFlight) : Arm :=
  match s.ledger.setVault C sid vault with
  | none => .error .panic
  | some ledger => { s with ledger }.done

def vaultDeposit (amount : Balance) (s : InFlight) : Arm :=
  if amount = 0 then s.failed "cannot deposit zero"
  else match s.signer.balance.checkedSub amount with
  | none => s.failed "insufficient balance"
  | some remaining =>
    let vault := s.ledger.vault sid
    match vault.collateral.checkedAdd amount with
    | none => s.failed "vault collateral overflow"
    | some collateral => writeVault C sid { vault with collateral } (s.withBalance remaining)

def vaultWithdraw (amount : Balance) (s : InFlight) : Arm :=
  if amount = 0 then s.failed "cannot withdraw zero"
  else
    let vault := s.ledger.vault sid
    match vault.collateral.checkedSub amount with
    | none => s.failed "vault holds less collateral than requested"
    | some collateral =>
      if !Vault.isHealthy collateral vault.debt s.ledger.oraclePriceOrSeed then
        s.failed "withdrawal would under-collateralize the vault"
      else match s.signer.balance.checkedAdd amount with
      | none => s.failed "balance overflow"
      | some balance => writeVault C sid { vault with collateral } (s.withBalance balance)

def vaultMint (amount : Balance) (s : InFlight) : Arm :=
  if amount = 0 then s.failed "cannot mint zero"
  else
    let vault := s.ledger.vault sid
    match vault.debt.checkedAdd amount with
    | none => s.failed "vault debt overflow"
    | some debt =>
      if !Vault.isHealthy vault.collateral debt s.ledger.oraclePriceOrSeed then
        s.failed "insufficient collateral: mint would breach the 150% ratio"
      else
        let asset := xusdAssetId C
        let info := (s.ledger.tokens.get? asset).getD ⟨⟨Vault.xusdIssuer⟩, Vault.xusdSymbol, 0, 0⟩
        match mintTokens C asset info sid amount s.ledger with
        | none => s.failed "xUSD supply overflow"
        | some ledger => writeVault C sid { vault with debt } { s with ledger }

def vaultBurn (amount : Balance) (s : InFlight) : Arm :=
  if amount = 0 then s.failed "cannot burn zero"
  else
    let asset := xusdAssetId C
    let vault := s.ledger.vault sid
    match (s.ledger.tokenBalance asset sid).checkedSub amount, vault.debt.checkedSub amount with
    | none, _ => s.failed "insufficient xUSD balance to burn"
    | some _, none => s.failed "repaying more than the vault's debt"
    | some remaining, some debt =>
      match s.ledger.tokens.get? asset with
      | none => s.failed "no xUSD outstanding"
      | some info =>
        match info.burned.checkedAdd amount with
        | none => s.failed "xUSD burn overflow"
        | some burned =>
          let ledger := (s.ledger.setToken C asset { info with burned }).setTokenBalance C asset sid
            remaining
          writeVault C sid { vault with debt } { s with ledger }

def maxOracleMove : U128 := 10

def oracleUpdate (price : U128) (s : InFlight) : Arm :=
  let current := s.ledger.oraclePriceOrSeed
  if sid ≠ ⟨Vault.oracleAccount⟩ then
    s.failed "oracle: only the authorized price feed may publish"
  else if price = 0 then s.failed "oracle: price must be positive"
  else if current ≠ 0 ∧ ((current.saturatingMul maxOracleMove).toNat < price.toNat ∨
      price.toNat < current.toNat / maxOracleMove.toNat) then
    s.failed "oracle: update exceeds the max per-update move (10x)"
  else { s with ledger := s.ledger.setOraclePrice C price }.done

end Arms
end Runtime
end Sov
