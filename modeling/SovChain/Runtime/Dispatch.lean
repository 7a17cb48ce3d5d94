import SovChain.Runtime.Batch
import SovChain.Runtime.Effects

/-!
# What a transaction can do

`prepare_eq_ok` lists every check a transaction has passed before the first write, `dispatch_effects`
collects the arms, and `applyTransaction_eq_ok` puts the stages of the executor together: a transaction
that is accepted was admitted, its effects lead from the state after the fee to the state its action
leaves, and `finish` closes the books.
-/

namespace Sov
open Codec

/-- The ids an action can make the ledger hold something under. -/
def Action.ids : Action → List AccountId
  | .transfer dest _ => [dest]
  | .call contract _ _ => [contract]
  | .tokenIssue _ _ dest => [dest]
  | .tokenTransfer _ dest _ => [dest]
  | .intentSettle settlement => [settlement.intent.intent.owner]
  | .transferName _ dest => [dest]
  | .nftMint _ _ dest _ => [dest]
  | .nftTransfer _ _ dest => [dest]
  | .multisigExec action _ => action.ids
  | .proposeMultisig account action => account :: action.ids
  | .approveMultisig account _ => [account]
  | .tipped _ inner => inner.ids
  | .timestamped _ inner => inner.ids
  | _ => []

/-- The action under the creation-time envelope. -/
def Action.untimed : Action → Action
  | .timestamped _ inner => inner
  | action => action

/-- The action under a tip, or the one a multisig authorizes. -/
def Action.unwrapped : Action → Action
  | .tipped _ inner => inner
  | .multisigExec inner _ => inner
  | action => action

/-- The action a transaction executes. -/
def Action.resolved (action : Action) : Action := action.untimed.unwrapped

/-- The tip a transaction offers. -/
def Action.tip (action : Action) : Balance :=
  match action.untimed with
  | .tipped tip _ => tip
  | _ => 0

/-- The actions that can execute a proposal. -/
def Action.isProposal : Action → Bool
  | .proposeMultisig .. => true
  | .approveMultisig .. => true
  | _ => false

namespace Runtime
section Admission
variable {E : Env} {ctx : BlockContext} {st : Stores} {stx : SignedTransaction} {p : Prepared}

/-- What `prepare` has checked: `signer` is the account as authorized, `action` is the action under the
creation-time envelope, and `r` is its resolution. -/
structure Admitted (E : Env) (ctx : BlockContext) (st : Stores) (stx : SignedTransaction) (p : Prepared)
    (signer : Account) (action : Action) (nonce : U64) (balance : Balance) (r : Resolved) : Prop where
  verified : stx.verifySignatureMode E.toCrypto ctx.txDomain = true
  authorized : authorize E.toCrypto st stx.transaction = .ok signer
  nonce_eq : stx.transaction.nonce = signer.nonce
  gate : pqGate ctx stx.transaction (pqRequiresHybridAuthority signer ctx) = .ok ()
  retirement : checkShieldedRetirement E ctx stx.transaction.action = .ok ()
  active : findInactiveFeature ctx stx.transaction.action = none
  unnested : hasNestedTimestamp stx.transaction.action = false
  unwrapped : unwrapTimestamp ctx stx.transaction.action = .ok (action, p.timing)
  size : checkDataSize ctx action = .ok ()
  fee_eq : intrinsicFee ctx stx.transaction = .ok p.fee
  funded : fundFee E ctx st stx.transaction signer.balance p.fee = .ok p.feeFunded
  next_nonce : signer.nonce.checkedAdd 1 = some nonce
  paid : signer.balance.checkedSub (if p.feeFunded.isSome then 0 else p.fee) = some balance
  resolved : resolve E.toCrypto ctx st stx.transaction (pqRequiresHybridAuthority signer ctx) action
    balance = .ok r
  prepared : p =
    { action := r.action, signer := { signer with nonce, balance := r.balance }
      requiresHybrid := pqRequiresHybridAuthority signer ctx, gasUsed := intrinsicGas stx.transaction
      fee := p.fee, feeFunded := p.feeFunded, tip := r.tip, msError := r.msError, timing := p.timing }

theorem prepare_eq_ok (h : prepare E ctx st stx = .ok p) :
    ∃ signer action nonce balance r, Admitted E ctx st stx p signer action nonce balance r := by
  unfold prepare at h
  dsimp only at h
  split at h
  · cases h
  rename_i hverified
  obtain ⟨signer, hauthorized, h⟩ := bind_eq_ok.mp h
  split at h
  · cases h
  rename_i hnonce
  obtain ⟨_, hgate, h⟩ := bind_eq_ok.mp h
  obtain ⟨_, hretirement, h⟩ := bind_eq_ok.mp h
  split at h
  · cases h
  rename_i hactive
  split at h
  · cases h
  rename_i hunnested
  obtain ⟨⟨action, timing⟩, hunwrapped, h⟩ := bind_eq_ok.mp h
  obtain ⟨_, hsize, h⟩ := bind_eq_ok.mp h
  obtain ⟨fee, hfee, h⟩ := bind_eq_ok.mp h
  obtain ⟨feeFunded, hfunded, h⟩ := bind_eq_ok.mp h
  split at h
  rotate_left
  · cases h
  rename_i nonce hnext
  split at h
  rotate_left
  · cases h
  rename_i balance hpaid
  obtain ⟨r, hresolved, h⟩ := bind_eq_ok.mp h
  cases h
  exact ⟨signer, action, nonce, balance, r,
    { verified := by simpa using hverified
      authorized := hauthorized
      nonce_eq := by simpa using hnonce
      gate := hgate
      retirement := hretirement
      active := Option.eq_none_iff_forall_not_mem.mpr hactive
      unnested := by simpa using hunnested
      unwrapped := hunwrapped
      size := hsize
      fee_eq := hfee
      funded := hfunded
      next_nonce := hnext
      paid := hpaid
      resolved := hresolved
      prepared := rfl }⟩

variable {signer : Account} {C : Crypto} {tx : Transaction}

/-- The shapes of account that may act, and the key each acts with. -/
theorem authorize_eq_ok (h : authorize C st tx = .ok signer) :
    (∃ policy, st.multisig.get? tx.signer = some policy ∧ tx.publicKey ∈ policy.signers ∧
      isMultisigExec tx.action = true ∧ signer = st.account tx.signer) ∨
    (st.multisig.get? tx.signer = none ∧ (st.account tx.signer).key = some tx.publicKey ∧
      signer = st.account tx.signer) ∨ (st.multisig.get? tx.signer = none ∧ (st.account tx.signer).key = none ∧
      signer = { st.account tx.signer with key := some tx.publicKey } ∧
      (tx.signer.isImplicit = true ∧ tx.publicKey.implicitAccountId C = tx.signer ∨
        tx.signer.isImplicit = false ∧ isRotateKey tx.action = true)) := by
  unfold authorize at h
  dsimp only at h
  cases hpolicy : st.multisig.get? tx.signer with
  | some policy =>
    simp only [hpolicy] at h
    split_ifs at h with hmember
    exact .inl ⟨policy, rfl, hmember.1, hmember.2, (Except.ok.inj h).symm⟩
  | none =>
    simp only [hpolicy] at h
    cases hkey : (st.account tx.signer).key with
    | some key =>
      simp only [hkey] at h
      split_ifs at h with heq
      exact .inr (.inl ⟨rfl, congrArg some heq, (Except.ok.inj h).symm⟩)
    | none =>
      simp only [hkey] at h
      split_ifs at h with himplicit hid hrotate
      · exact .inr (.inr ⟨rfl, rfl, (Except.ok.inj h).symm, .inl ⟨himplicit, by simpa using hid⟩⟩)
      · exact .inr (.inr ⟨rfl, rfl, (Except.ok.inj h).symm, .inr ⟨by simpa using himplicit, by simpa using hrotate⟩⟩)

theorem authorize_holdings (h : authorize C st tx = .ok signer) :
    signer.balance = (st.account tx.signer).balance ∧ signer.locked = (st.account tx.signer).locked := by
  obtain ⟨policy, -, -, -, rfl⟩ | ⟨-, -, rfl⟩ | ⟨-, -, rfl, -⟩ := authorize_eq_ok h
  all_goals exact ⟨rfl, rfl⟩

variable {action : Action}

theorem unwrapTimestamp_eq_ok {timing : Option U64} {a : Action}
    (h : unwrapTimestamp ctx a = .ok (action, timing)) : action = a.untimed := by
  unfold unwrapTimestamp at h
  split at h
  · split_ifs at h <;> cases h <;> rfl
  · rename_i hne
    cases h
    cases action <;> first | rfl | exact absurd rfl (hne _ _)

variable {balance : Balance} {r : Resolved} {requiresHybrid : Bool}

theorem resolve_eq_ok (h : resolve C ctx st tx requiresHybrid action balance = .ok r) :
    (∃ tip inner, action = .tipped tip inner ∧ isMultisigExec inner = false ∧ isRotateKey inner = false ∧
      balance.checkedSub tip = some r.balance ∧ r.action = inner ∧ r.tip = tip ∧ r.msError = none) ∨
    (∃ inner approvals, action = .multisigExec inner approvals ∧ r.balance = balance ∧ r.action = inner ∧
      r.tip = 0 ∧ r.msError = multisigError C ctx st tx requiresHybrid inner approvals) ∨
    ((∀ tip inner, action = .tipped tip inner → ctx.feeAuctionActive = false) ∧
      isMultisigExec action = false ∧ r = ⟨action, balance, 0, none⟩) := by
  unfold resolve at h
  split at h
  · rename_i tip inner
    split at h
    · rename_i hinactive
      cases h
      exact .inr (.inr ⟨fun _ _ _ => by simpa using hinactive, rfl, rfl⟩)
    split at h
    · cases h
    split at h
    · cases h
    rename_i hinner
    simp only [Bool.or_eq_true, not_or, Bool.not_eq_true] at hinner
    rcases hb : balance.checkedSub tip with _ | b
    · simp [hb] at h
    simp only [hb, Except.ok.injEq] at h
    subst h
    exact .inl ⟨tip, inner, rfl, hinner.1, hinner.2, hb, rfl, rfl, rfl⟩
  · rename_i inner approvals
    cases h
    exact .inr (.inl ⟨inner, approvals, rfl, rfl, rfl, rfl, rfl⟩)
  · rename_i htipped hexec
    cases h
    refine .inr (.inr ⟨fun tip inner he => absurd he (htipped tip inner), ?_, rfl⟩)
    cases action <;> first | rfl | exact absurd rfl (hexec _ _)

theorem resolve_balance (h : resolve C ctx st tx requiresHybrid action balance = .ok r) :
    balance.toNat = r.tip.toNat + r.balance.toNat := by
  obtain ⟨tip, inner, -, -, -, hb, -, rfl, -⟩ | ⟨inner, approvals, -, hb, -, htip, -⟩ | ⟨-, -, rfl⟩ :=
    resolve_eq_ok h
  · exact BitVec.checkedSub_eq_some.mp hb
  · simp [hb, htip]
  · simp

theorem feeAuctionActive_of_tipped {a inner : Action} {tip : Balance}
    (h : findInactiveFeature ctx a = none) (ha : a.untimed = .tipped tip inner) : ctx.feeAuctionActive = true := by
  have htipped : findInactiveFeature ctx (.tipped tip inner) = none := by
    cases a with
    | timestamped ms b =>
      cases (ha : b = .tipped tip inner)
      rw [findInactiveFeature] at h
      split at h
      · cases h
      · exact h
    | _ => exact ha ▸ h
  rw [findInactiveFeature, dormantFeature] at htipped
  by_contra hinactive
  simp [hinactive] at htipped

variable {nonce : U64}

theorem Admitted.action_eq (h : Admitted E ctx st stx p signer action nonce balance r) :
    p.action = stx.transaction.action.resolved := by
  have haction := unwrapTimestamp_eq_ok h.unwrapped
  rw [h.prepared, Action.resolved, ← haction]
  obtain ⟨tip, inner, rfl, -, -, -, rfl, -⟩ | ⟨inner, approvals, rfl, -, rfl, -⟩ | ⟨htip, hexec, rfl⟩ :=
    resolve_eq_ok h.resolved
  · rfl
  · rfl
  cases hcase : action with
  | tipped tip inner =>
    have hactive := feeAuctionActive_of_tipped h.active (haction.symm.trans hcase)
    simp [htip tip inner hcase] at hactive
  | multisigExec inner approvals => simp [hcase, isMultisigExec] at hexec
  | _ => rfl

theorem Admitted.tip_eq (h : Admitted E ctx st stx p signer action nonce balance r) :
    p.tip = stx.transaction.action.tip := by
  have haction := unwrapTimestamp_eq_ok h.unwrapped
  rw [h.prepared, Action.tip, ← haction]
  obtain ⟨tip, inner, rfl, -, -, -, -, rfl, -⟩ | ⟨inner, approvals, rfl, -, -, htip, -⟩ | ⟨htip, hexec, rfl⟩ :=
    resolve_eq_ok h.resolved
  · rfl
  · exact htip
  cases hcase : action with
  | tipped tip inner =>
    have hactive := feeAuctionActive_of_tipped h.active (haction.symm.trans hcase)
    simp [htip tip inner hcase] at hactive
  | _ => rfl

/-- Why a transaction that was admitted fails before its action runs: the approvals of its `multisigExec`
do not suffice. -/
def execError (C : Crypto) (ctx : BlockContext) (st : Stores) (tx : Transaction) : Option String :=
  match tx.action.untimed with
  | .multisigExec inner approvals =>
    multisigError C ctx st tx (pqRequiresHybridAuthority (st.account tx.signer) ctx) inner approvals
  | _ => none

theorem pqRequiresHybridAuthority_congr {a b : Account} (hb : a.balance = b.balance)
    (hl : a.locked = b.locked) : pqRequiresHybridAuthority a ctx = pqRequiresHybridAuthority b ctx := by
  simp only [pqRequiresHybridAuthority, Account.total, hb, hl]

theorem Admitted.msError_eq (h : Admitted E ctx st stx p signer action nonce balance r) :
    p.msError = execError E ctx st stx.transaction := by
  have haction := unwrapTimestamp_eq_ok h.unwrapped
  have hholdings := authorize_holdings h.authorized
  have hresolved := h.resolved
  rw [pqRequiresHybridAuthority_congr hholdings.1 hholdings.2] at hresolved
  rw [h.prepared, execError, ← haction]
  obtain ⟨tip, inner, rfl, -, -, -, -, -, herr⟩ | ⟨inner, approvals, rfl, -, -, -, herr⟩ | ⟨-, hexec, rfl⟩ :=
    resolve_eq_ok hresolved
  · exact herr
  · exact herr
  · cases action <;> first | rfl | cases hexec

theorem prepare_action (h : prepare E ctx st stx = .ok p) : p.action = stx.transaction.action.resolved := by
  obtain ⟨signer, action, nonce, balance, r, hadm⟩ := prepare_eq_ok h
  exact hadm.action_eq

theorem prepare_msError (h : prepare E ctx st stx = .ok p) : p.msError = execError E ctx st stx.transaction := by
  obtain ⟨signer, action, nonce, balance, r, hadm⟩ := prepare_eq_ok h
  exact hadm.msError_eq

/-- The fee, unless a withdrawal pays it, and the tip are taken from the liquid balance. -/
theorem Admitted.balance_eq (h : Admitted E ctx st stx p signer action nonce balance r) :
    (st.account stx.transaction.signer).balance.toNat =
      p.signer.balance.toNat + p.tip.toNat + (if p.feeFunded.isSome then 0 else p.fee).toNat := by
  have hpaid := BitVec.checkedSub_eq_some.mp h.paid
  have htip := resolve_balance h.resolved
  rw [← (authorize_holdings h.authorized).1, hpaid, htip, h.prepared]
  dsimp only
  omega

theorem Admitted.locked_eq (h : Admitted E ctx st stx p signer action nonce balance r) :
    p.signer.locked = (st.account stx.transaction.signer).locked := by
  rw [← (authorize_holdings h.authorized).2, h.prepared]

/-- A withdrawal pays a fee that the balance does not cover: the transaction's own action, verified under the second
suite. -/
structure PaysFee (E : Env) (ctx : BlockContext) (st : Stores) (tx : Transaction) (balance fee : Balance)
    (effects : V2Effects) (bundle : Bytes) : Prop where
  action : tx.action = .shieldedV2 bundle
  suite2 : ctx.shieldedV2Suite2Active = true
  verified : ShieldedV2.verifyBundleForCarrier E bundle st ctx.mining ctx.height ⟨ctx.chainDomain, tx.signer, tx.nonce⟩
    balance true = .ok effects
  nothingIn : effects.shieldIn = 0
  paysOut : effects.deshieldOut ≠ 0
  credits : balance.toNat + effects.deshieldOut.toNat < 2 ^ 128
  pays : fee.toNat ≤ balance.toNat + effects.deshieldOut.toNat

theorem fundFee_eq_some {fee : Balance} {effects : V2Effects}
    (h : fundFee E ctx st tx balance fee = .ok (some effects)) :
    ∃ bundle, PaysFee E ctx st tx balance fee effects bundle := by
  unfold fundFee at h
  split at h
  · cases h
  obtain ⟨funded, hdirect, h⟩ := bind_eq_ok.mp h
  dsimp only at h
  split at h
  · obtain ⟨available, -, h⟩ := bind_eq_ok.mp h
    split at h <;> cases h
  rename_i effects'
  split at h
  · cases h
  rename_i available hsum
  obtain ⟨_, havailable, h⟩ := bind_eq_ok.mp h
  cases havailable
  split at h
  · cases h
  rename_i hafford
  cases h
  rw [BitVec.checkedAdd_eq_some] at hsum
  have hpays : fee.toNat ≤ available.toNat := by
    by_contra hlt
    exact hafford (by simpa [BitVec.checkedSub_eq_none] using hlt)
  unfold verifyDirectSuite2WithdrawalForFee at hdirect
  split at hdirect
  · cases hdirect
  rename_i hactive
  split at hdirect
  · rename_i bundle haction
    split at hdirect
    · cases hdirect
    split at hdirect
    · cases hdirect
    rename_i hverified
    split_ifs at hdirect with hout
    · cases hdirect
    cases hdirect
    simp only [Bool.not_eq_true', Bool.not_eq_false, Bool.and_eq_true] at hactive
    have hnothing : effects.shieldIn = 0 := by
      by_contra hin
      exact hout (.inl hin)
    exact ⟨bundle, haction, hactive.2, hverified, hnothing, fun h0 => hout (.inr h0), hsum ▸ available.isLt, hsum ▸ hpays⟩
  · cases hdirect

end Admission

/-- `G` covers what the action of a transaction may draw on and every id it may write under, in a ledger
with the stores `st`. -/
structure Covers (C : Crypto) (ctx : BlockContext) (st : Stores) (sid : AccountId) (key : PublicKey)
    (action : Action) (G : Grant) : Prop where
  signer : G.mentions sid
  wellFormed : ∀ id : AccountId, id.WellFormed → G.mentions id
  ids : ∀ id ∈ action.ids, G.mentions id
  owners : ∀ collection tokenId token, st.nft collection tokenId = some token → G.mentions token.owner
  windows : ∀ asset, ∀ holder ∈ Ledger.windowHolders st asset, G.mentions holder
  proposals : ∀ id prop dest amount, st.proposals.get? id = some prop →
    Action.codec.decodeAll prop.action = some (.transfer dest amount) → G.mentions dest
  proposed : ∀ account inner dest amount, action = .proposeMultisig account inner →
    Action.codec.decodeAll (Action.codec.encode inner) = some (.transfer dest amount) → G.mentions dest
  intent : ∀ settlement, action = .intentSettle settlement → Consents C ctx st settlement →
    G.intent settlement.intent.intent.owner
  contract : ∀ contract gasLimit calldata, action = .call contract gasLimit calldata → G.contract contract
  vault : ∀ vault inner, Approves ctx st key vault inner action → G.vault vault
  pool : ∀ bundle, action = .shielded bundle → G.pool

namespace Covers
variable {C : Crypto} {ctx : BlockContext} {st : Stores} {sid : AccountId} {key : PublicKey}
  {action : Action} {G : Grant}

/-- A registered name stands for a well-formed id or for its owner. -/
theorem resolve (h : Covers C ctx st sid key action G) {dest : AccountId} (hd : G.mentions dest) :
    G.mentions (resolveRecipient C st dest) := by
  unfold resolveRecipient Stores.resolveName Stores.nameToken
  split_ifs
  · exact hd
  rcases htoken : st.nft (snsClass C) (strBytes dest.raw) with _ | token
  · exact hd
  have howner := h.owners _ _ token htoken
  simp only [Option.map_some, Option.getD_some]
  split_ifs
  · exact howner
  split
  · exact howner
  split
  · rename_i id hid
    exact h.wellFormed id (AccountId.new_eq_ok hid)
  · exact howner

end Covers

section Execution
variable {E : Env} {ctx : BlockContext} {stx : SignedTransaction} {p : Prepared} {G : Grant} {x : ExecState}
  {status : ExecutionStatus} {arm : InFlight → Arm}

theorem lift_eq_ok {y : ExecState} : lift x arm = .ok (y, status) ↔
      ∃ s, arm x.toInFlight = .ok (s, status) ∧ y = { x with toInFlight := s } := by
  unfold lift
  rcases arm x.toInFlight with e | r
  · simp [Except.map]
  obtain ⟨s, status'⟩ := r
  simp only [Except.map, Except.ok.injEq, Prod.mk.injEq]
  constructor
  · rintro ⟨rfl, rfl⟩
    exact ⟨s, ⟨rfl, rfl⟩, rfl⟩
  · rintro ⟨_, ⟨rfl, rfl⟩, rfl⟩
    exact ⟨rfl, rfl⟩

theorem lift_ensures {x' : ExecState} {P : InFlight → Prop}
    (harm : (arm x.toInFlight).Ensures P) (h : lift x arm = .ok (x', status)) : P x'.toInFlight := by
  obtain ⟨s, hs, rfl⟩ := lift_eq_ok.mp h
  exact harm s status hs

/-- No action does more than the effects, unless its fee is still owed. -/
theorem dispatch_effects {x' : ExecState} (hG : Covers E ctx x.ledger stx.transaction.signer stx.transaction.publicKey
      p.action G) (hfee : p.feeFunded = none) (h : dispatch E ctx stx p x = .ok (x', status)) :
    Effects E stx.transaction.signer G x.toInFlight x'.toInFlight := by
  have hid : ∀ id ∈ p.action.ids, G.mentions id := hG.ids
  unfold dispatch at h
  cases haction : p.action <;> simp only [haction] at h <;> rw [haction] at hid
  case tipped | timestamped => cases h
  case shieldedV2 bundle => exact lift_ensures (hfee ▸ shieldedV2_effects) h
  case transfer dest amount => exact lift_ensures (transfer_effects (hG.resolve (hid _ (by simp [Action.ids])))) h
  case claimVesting => exact lift_ensures claimVesting_effects h
  case deploy => exact lift_ensures deploy_effects h
  case call contract gasLimit calldata =>
    exact call_effects (hG.contract _ _ _ haction) (hid _ (by simp [Action.ids])) hG.wellFormed h
  case shielded bundle => exact lift_ensures (shielded_effects (hG.pool bundle haction)) h
  case htlcLock => exact lift_ensures htlcLock_effects h
  case htlcClaim => exact lift_ensures htlcClaim_effects h
  case htlcRefund => exact lift_ensures htlcRefund_effects h
  case tokenIssue => exact lift_ensures (tokenIssue_effects (hid _ (by simp [Action.ids]))) h
  case tokenTransfer =>
    exact lift_ensures (tokenTransfer_effects hG.signer (hG.resolve (hid _ (by simp [Action.ids])))) h
  case tokenBurn => exact lift_ensures (tokenBurn_effects hG.signer) h
  case tokenSetPolicy asset policy => exact lift_ensures (tokenSetPolicy_effects (hG.windows asset)) h
  case intentSettle settlement =>
    exact lift_ensures (intentSettle_effects hG.signer (hid _ (by simp [Action.ids]))
      (hG.intent settlement haction)) h
  case intentCancel => exact lift_ensures intentCancel_effects h
  case rotateKey => exact lift_ensures rotateKey_effects h
  case registerName => exact lift_ensures (registerName_effects hG.signer) h
  case transferName => exact lift_ensures (transferName_effects (hid _ (by simp [Action.ids]))) h
  case nftMint => exact lift_ensures (nftMint_effects (hid _ (by simp [Action.ids]))) h
  case nftTransfer => exact lift_ensures (nftTransfer_effects (hid _ (by simp [Action.ids]))) h
  case nftSetMeta => exact lift_ensures (nftSetMeta_effects hG.signer) h
  case setMultisig => exact lift_ensures (setMultisig_effects hG.signer) h
  case multisigExec => exact lift_ensures (.failed .refl) h
  case proposeMultisig account action =>
    refine lift_ensures (proposeMultisig_effects (hid _ (by simp [Action.ids]))
      (fun ha => hG.vault account action (haction ▸ ha)) (fun dest amount he => ?_)
      fun dest amount hd => hG.proposed account action dest amount haction hd) h
    exact hG.resolve (hid _ (by simp [Action.ids, he]))
  case approveMultisig account proposal =>
    refine lift_ensures (approveMultisig_effects (hid _ (by simp [Action.ids]))
      (fun inner ha => hG.vault account inner (haction ▸ ha)) fun prop dest amount hp hd => ?_) h
    have hdest := hG.proposals proposal prop dest amount hp hd
    exact ⟨hdest, hG.resolve hdest⟩
  case cancelMultisig => exact lift_ensures cancelMultisig_effects h
  case vaultDeposit => exact lift_ensures (vaultDeposit_effects hG.signer) h
  case vaultWithdraw => exact lift_ensures (vaultWithdraw_effects hG.signer) h
  case vaultMint => exact lift_ensures (vaultMint_effects hG.signer) h
  case vaultBurn => exact lift_ensures (vaultBurn_effects hG.signer) h
  case oracleUpdate => exact lift_ensures oracleUpdate_effects h

theorem prepare_feeFunded {st : Stores} {effects : V2Effects} (hp : prepare E ctx st stx = .ok p)
    (hfee : p.feeFunded = some effects) :
    (∃ bundle, p.action = .shieldedV2 bundle) ∧ p.msError = none ∧ effects.deshieldOut ≠ 0 := by
  obtain ⟨signer, action, nonce, balance, r, hadm⟩ := prepare_eq_ok hp
  obtain ⟨bundle, hpays⟩ := fundFee_eq_some (hfee ▸ hadm.funded)
  have haction := hpays.action
  have hbundle : action = .shieldedV2 bundle := by
    have hunwrapped := hadm.unwrapped
    simp only [haction, unwrapTimestamp, Except.ok.injEq, Prod.mk.injEq] at hunwrapped
    exact hunwrapped.1.symm
  have hresolved := hadm.resolved
  subst hbundle
  have hr : r = ⟨.shieldedV2 bundle, balance, 0, none⟩ := by
    cases hresolved
    rfl
  rw [hadm.prepared, hr]
  exact ⟨⟨bundle, rfl⟩, rfl, hpays.paysOut⟩

/-- The state an action starts from. A fee that a withdrawal will pay is not collected yet. -/
def start (p : Prepared) (L : Ledger) : InFlight where
  ledger := L
  signer := p.signer
  feePaid := if p.feeFunded.isSome then 0 else p.fee

variable {L : Ledger}

theorem execute_effects (hp : prepare E ctx L stx = .ok p)
    (hG : Covers E ctx L stx.transaction.signer stx.transaction.publicKey p.action G)
    (h : execute E ctx stx p L = .ok (x, status)) : Effects E stx.transaction.signer G (start p L) x.toInFlight := by
  unfold execute at h
  dsimp only at h
  cases hfee : p.feeFunded with
  | none =>
    have hstart : start p L = ⟨L, p.signer, p.fee⟩ := by simp [start, hfee]
    rw [hstart]
    cases hms : p.msError with
    | some reason =>
      rw [hms] at h
      cases h
      exact .refl
    | none =>
      rw [hms] at h
      exact dispatch_effects hG hfee h
  | some effects =>
    obtain ⟨⟨bundle, haction⟩, hms, hout⟩ := prepare_feeFunded hp hfee
    have hstart : start p L = ⟨L, p.signer, 0⟩ := by simp [start, hfee]
    rw [hstart]
    rw [hms] at h
    simp only [dispatch, haction, hfee] at h
    refine lift_ensures ?_ h
    exact shieldedV2_effects_deferred rfl hout

variable {L' : Ledger} {receipt : Receipt}

/-- The stages of an accepted transaction. -/
theorem applyTransaction_eq_ok (h : applyTransaction E ctx L stx = .ok (L', receipt)) :
    ∃ p x status, prepare E ctx L stx = .ok p ∧ execute E ctx stx p L = .ok (x, status) ∧
      finish E ctx stx.transaction.signer p.tip x.toInFlight = .ok L' ∧
      receipt = { txId := stx.id E, status, gasUsed := x.gasUsed, returnData := x.returnData
                  events := x.events, timing := p.timing } := by
  unfold applyTransaction at h
  split at h
  · cases h
  rename_i p hp
  obtain ⟨⟨x, status⟩, hx, h⟩ := bind_eq_ok.mp h
  obtain ⟨L1, hL, h⟩ := bind_eq_ok.mp h
  cases h
  exact ⟨p, x, status, hp, hx, hL, rfl⟩

/-- A transaction whose action is an arm that leaves the receipt's fields alone: it failed before the arm, or the arm
ran on the ledger with the signer who has paid. -/
theorem applyTransaction_arm {a : Prepared → InFlight → Arm}
    (h : applyTransaction E ctx L stx = .ok (L', receipt))
    (harm : ∀ (p : Prepared) (x : ExecState), p.action = stx.transaction.action.resolved →
      dispatch E ctx stx p x = lift x (a p)) : ∃ p s, prepare E ctx L stx = .ok p ∧
      (s = ⟨L, p.signer, p.fee⟩ ∧ receipt.status ≠ .success ∨ a p ⟨L, p.signer, p.fee⟩ = .ok (s, receipt.status)) ∧
      finish E ctx stx.transaction.signer p.tip s = .ok L' := by
  obtain ⟨p, x, status, hp, hx, hL, rfl⟩ := applyTransaction_eq_ok h
  refine ⟨p, x.toInFlight, hp, ?_, hL⟩
  unfold execute at hx
  dsimp only at hx
  split at hx
  · cases hx
    exact .inl ⟨rfl, nofun⟩
  · rw [harm p _ (prepare_action hp)] at hx
    obtain ⟨s, hs, rfl⟩ := lift_eq_ok.mp hx
    exact .inr hs

variable {id : AccountId} {amount : Balance} {C : Crypto}

theorem credit_eq_ok (h : credit C L id amount = .ok L') :
    (amount = 0 ∧ L' = L) ∨ ∃ b, (L.account id).balance.checkedAdd amount = some b ∧
      L' = L.setAccount C id { L.account id with balance := b } := by
  unfold credit at h
  split_ifs at h with h0
  · cases h
    exact .inl ⟨h0, rfl⟩
  split at h
  · cases h
  · rename_i b hb
    cases h
    exact .inr ⟨b, hb, rfl⟩

variable {sid : AccountId} {tip : Balance} {s : InFlight}

theorem finish_eq_ok (h : finish C ctx sid tip s = .ok L) :
    ∃ L1, credit C (s.ledger.setAccount C sid s.signer) ctx.miner s.feePaid = .ok L1 ∧
      credit C L1 ctx.miner tip = .ok L :=
  bind_eq_ok.mp h

theorem credit_account (h : credit C L id amount = .ok L') (id' : AccountId) :
    ∃ b : Balance, L'.account id' = { L.account id' with balance := b } ∧
      b.toNat = (L.account id').balance.toNat + if id' = id then amount.toNat else 0 := by
  obtain ⟨rfl, rfl⟩ | ⟨b, hb, rfl⟩ := credit_eq_ok h
  · exact ⟨(L'.account id').balance, rfl, by simp⟩
  rw [BitVec.checkedAdd_eq_some] at hb
  by_cases hid : id' = id
  · subst hid
    exact ⟨b, Ledger.account_setAccount_self _ _ _ _, by simp [hb]⟩
  · exact ⟨(L.account id').balance, Ledger.account_setAccount_of_ne _ _ (Ne.symm hid) _, by simp [hid]⟩

/-- A coinbase pays nothing, or it credits the miner and counts the reward. -/
theorem applyCoinbase_eq_ok {reward : Balance} (h : applyCoinbase C ctx L = .ok (L', reward)) :
    reward = ctx.mining.rewardAt ctx.height L.minedEmitted ∧ (reward = 0 ∧ L' = L ∨
      ∃ L1 n, credit C L ctx.miner reward = .ok L1 ∧ L1.minedEmitted.checkedAdd reward = some n ∧
        L' = L1.overwrite C (.minedEmitted n)) := by
  unfold applyCoinbase at h
  dsimp only at h
  split_ifs at h with hzero
  · cases h
    exact ⟨hzero.symm, .inl ⟨rfl, rfl⟩⟩
  obtain ⟨L1, hcredit, h⟩ := bind_eq_ok.mp h
  split at h
  · cases h
  rename_i L2 hmined
  cases h
  obtain ⟨n, hn, rfl⟩ := Option.map_eq_some_iff.mp hmined
  exact ⟨rfl, .inr ⟨L1, n, hcredit, hn, rfl⟩⟩

theorem credit_stores (h : credit C L id amount = .ok L') :
    L'.toStores = { L.toStores with accounts := L'.accounts } := by
  obtain ⟨-, rfl⟩ | ⟨b, -, rfl⟩ := credit_eq_ok h <;> rfl

/-- An account as the books close on it: the signer as it was in flight, everyone else as the ledger has
them, and the miner with the fee and the tip. -/
theorem finish_account (h : finish C ctx sid tip s = .ok L) (id : AccountId) : ∃ b : Balance, L.account id =
        { (if id = sid then s.signer else s.ledger.account id) with balance := b } ∧
      b.toNat = (if id = sid then s.signer else s.ledger.account id).balance.toNat +
        if id = ctx.miner then s.feePaid.toNat + tip.toNat else 0 := by
  obtain ⟨L1, hfee, htip⟩ := finish_eq_ok h
  obtain ⟨b1, hb1, hfee⟩ := credit_account hfee id
  obtain ⟨b, hb, htip⟩ := credit_account htip id
  have hback : (s.ledger.setAccount C sid s.signer).account id =
      if id = sid then s.signer else s.ledger.account id := by
    rw [Ledger.account_setAccount]
    split_ifs with h1 h2 h2
    · rfl
    · exact absurd h1.symm h2
    · exact absurd h2.symm h1
    · rfl
  rw [hback] at hb1 hfee
  refine ⟨b, ?_, ?_⟩
  · rw [hb, hb1]
  rw [htip, hb1]
  dsimp only
  rw [hfee]
  split_ifs <;> omega

theorem finish_stores (h : finish C ctx sid tip s = .ok L) :
    L.toStores = { s.ledger.toStores with accounts := L.accounts } := by
  obtain ⟨L1, hfee, htip⟩ := finish_eq_ok h
  rw [credit_stores htip, credit_stores hfee]
  rfl

end Execution
end Runtime
end Sov
