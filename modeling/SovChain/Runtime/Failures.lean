import SovChain.Chain.Genesis
import SovChain.Runtime.Nonces
import SovChain.Runtime.Pools

/-!
# Rejected and failed transactions

A rejected transaction leaves the ledger as it was, as long as the supply is bounded and the escrow counter
covers the escrows. A failed one pays its fee and its tip, uses its nonce and may bind its key, and that is
all, with two exceptions: an Orchard bundle may tear its pool, and an approval that completes a proposal drops
it even if the payment could not be made.
-/

namespace Sov
open Codec
namespace Runtime
open Stores (Alters)
open Arm (Tidy)
variable {E : Env} {ctx : BlockContext} {stx : SignedTransaction} {p : Prepared} {L L' : Ledger}
  {x x' : ExecState} {status : ExecutionStatus} {receipt : Receipt}

/-! ## Every action at once -/

variable {st : Stores}

theorem PaysFee.funds {tx : Transaction} {balance fee : Balance} {effects : V2Effects} {bundle : Bytes}
    (h : PaysFee E ctx st tx balance fee effects bundle) : effects.Funds E ctx st bundle balance fee where
  sound := by
    rw [h.suite2]
    exact ShieldedV2.verifyBundleForCarrier_sound h.verified
  nothingIn := h.nothingIn
  pays := h.pays

theorem prepare_funds (hp : prepare E ctx st stx = .ok p) (effects : V2Effects) (hfee : p.feeFunded = some effects) :
    ∃ bundle, p.action = .shieldedV2 bundle ∧ effects.Funds E ctx st bundle p.signer.balance p.fee := by
  obtain ⟨signer, action, nonce, balance, r, hadm⟩ := prepare_eq_ok hp
  obtain ⟨bundle, hpays⟩ := fundFee_eq_some (hfee ▸ hadm.funded)
  have haction := hpays.action
  have hbalance := hadm.balance_eq
  have htip := hadm.tip_eq
  rw [haction] at htip
  rw [hfee, htip] at hbalance
  have hsame : p.signer.balance = signer.balance := by
    rw [(authorize_holdings hadm.authorized).1]
    refine BitVec.eq_of_toNat_eq ?_
    simpa [Action.tip, Action.untimed] using hbalance.symm
  refine ⟨bundle, ?_, hsame ▸ hpays.funds⟩
  rw [hadm.action_eq, haction]
  rfl

/-- The state an execution starts from. -/
def opening (p : Prepared) (L : Ledger) : ExecState where
  ledger := L
  signer := p.signer
  feePaid := p.fee
  gasUsed := p.gasUsed
  returnData := []
  events := []

/-- How an action is run: by a tidy arm, or by one of the four that fail in their own way. -/
inductive Dispatched (E : Env) (ctx : BlockContext) (stx : SignedTransaction) (p : Prepared) (x : ExecState) :
    Except Fault (ExecState × ExecutionStatus) → Prop
  | tidy {arm : InFlight → Arm} (h : (arm x.toInFlight).Tidy p.action.fields x.toInFlight) :
    Dispatched E ctx stx p x (lift x arm)
  | call {contract : AccountId} {gasLimit : U64} {calldata : Bytes} (h : p.action = .call contract gasLimit calldata) :
    Dispatched E ctx stx p x (Runtime.call E ctx stx.transaction.signer contract gasLimit calldata x)
  | shielded {bundle : Bytes} (h : p.action = .shielded bundle) :
    Dispatched E ctx stx p x (lift x (Runtime.shielded ctx stx.transaction.signer E stx.transaction.nonce bundle))
  | propose {account : AccountId} {action : Action} (h : p.action = .proposeMultisig account action) :
    Dispatched E ctx stx p x (lift x
      (proposeMultisig E.toCrypto ctx stx.transaction.publicKey stx.transaction.nonce account action))
  | approve {account : AccountId} {proposal : Hash} (h : p.action = .approveMultisig account proposal) :
    Dispatched E ctx stx p x (lift x (approveMultisig E.toCrypto ctx stx.transaction.publicKey account proposal))

theorem execute_dispatched (hp : prepare E ctx L stx = .ok p) :
    Dispatched E ctx stx p (opening p L) (execute E ctx stx p L) := by
  have htidy : ∀ {action arm}, p.action = action → (arm (opening p L).toInFlight).Tidy action.fields
      (opening p L).toInFlight → Dispatched E ctx stx p (opening p L) (lift (opening p L) arm) :=
    fun haction h => .tidy (haction ▸ h)
  unfold execute
  dsimp only
  split
  · have hfailed : ∀ reason, Dispatched E ctx stx p (opening p L) (lift (opening p L) (·.failed reason)) :=
      fun _ => .tidy .failed
    exact hfailed _
  unfold dispatch
  cases haction : p.action <;> simp only
  case tipped | timestamped =>
    have hreject : ∀ e, Dispatched E ctx stx p (opening p L) (lift (opening p L) fun s => .error (.reject s.ledger e)) :=
      fun _ => .tidy .reject
    exact hreject _
  case shieldedV2 bundle =>
    refine htidy haction (shieldedV2_tidy fun effects he => ?_)
    obtain ⟨bundle', hb, hfunds⟩ := prepare_funds hp effects he
    cases haction.symm.trans hb
    exact hfunds
  case call => exact .call haction
  case shielded => exact .shielded haction
  case proposeMultisig => exact .propose haction
  case approveMultisig => exact .approve haction
  case multisigExec => exact htidy haction .failed
  case htlcLock => exact htidy haction htlcLock_tidy
  case tokenSetPolicy => exact htidy haction tokenSetPolicy_tidy
  case intentSettle => exact htidy haction intentSettle_tidy
  case registerName => exact htidy haction registerName_tidy
  case nftMint => exact htidy haction nftMint_tidy
  case nftSetMeta => exact htidy haction nftSetMeta_tidy
  case setMultisig => exact htidy haction setMultisig_tidy
  -- The other arms check and then fail, or write one or two cells of their kind.
  all_goals
    refine htidy haction ?_
    simp only [Action.fields, transfer, doTransfer, claimVesting, deploy, rotateKey, htlcClaim, htlcRefund, tokenIssue,
      tokenTransfer, tokenBurn, intentCancel, transferName, nftTransfer, cancelMultisig, vaultDeposit, vaultWithdraw,
      vaultMint, vaultBurn, oracleUpdate]
    repeat' split
    all_goals first
      | exact .failed
      | exact .overflow
      | exact .reject
      | exact .done .refl
      | exact .done (Alters.write (by simp))
      | exact .done (.trans (Alters.write (by simp)) (Alters.write (by simp)))
      | exact payOutHtlc_tidy
      | exact .done consumeIntent_alters
      | exact .done transferNft_alters
      | exact .done (mintTokens_alters ‹_›)
      | refine .done (.trans (.trans (Alters.write ?_) (Alters.write ?_)) (storeWindow_alters.mono ?_)) <;> simp
      | exact writeVault_tidy .refl (by simp)
      | exact writeVault_tidy ((mintTokens_alters ‹_›).mono (by simp)) (by simp)
      | exact writeVault_tidy (.trans (Alters.write (by simp)) (Alters.write (by simp))) (by simp)

/-- An action writes the fields of its kind. -/
theorem execute_alters (hp : prepare E ctx L stx = .ok p) (h : execute E ctx stx p L = .ok (x, status)) :
    Alters p.action.fields L x.ledger := by
  have hrun := execute_dispatched hp
  generalize execute E ctx stx p L = out at hrun h
  cases hrun with
  | tidy htidy => exact lift_ensures htidy.alters h
  | call haction => exact haction ▸ call_alters h
  | shielded haction => exact haction ▸ lift_ensures shielded_alters h
  | propose haction => exact haction ▸ lift_ensures proposeMultisig_alters h
  | approve haction => exact haction ▸ lift_ensures approveMultisig_alters h

theorem applyTransaction_same {f : Field} (h : applyTransaction E ctx L stx = .ok (L', receipt))
    (hf : f ∉ stx.transaction.action.resolved.fields) (haccount : f ≠ .account) : f.Same L L' := by
  obtain ⟨p, x, status, hp, hx, hL, -⟩ := applyTransaction_eq_ok h
  have hexec := (execute_alters hp hx).same (prepare_action hp ▸ hf)
  refine hexec.trans ?_
  rw [finish_stores hL]
  cases f <;> first | rfl | exact absurd rfl haccount

/-! ## Rejections -/

theorem execute_clean (hp : prepare E ctx L stx = .ok p) (hcovered : L.EscrowsCovered)
    (hroom : 2 * L.supply < 2 ^ 128) : (execute E ctx stx p L).Rejects (· = L) := by
  obtain ⟨signer, action, nonce, balance, r, hadm⟩ := prepare_eq_ok hp
  have hroomy : (opening p L).toInFlight.Roomy := by
    have hbalance := hadm.balance_eq
    have hheld := L.worth_le_held stx.transaction.signer
    refine ⟨hcovered, ?_⟩
    dsimp only [opening]
    unfold Account.worth at hheld
    unfold Stores.supply at hroom ⊢
    omega
  have hrun := execute_dispatched hp
  generalize execute E ctx stx p L = out at hrun ⊢
  cases hrun with
  | tidy htidy => exact lift_rejects (htidy.rejects hroomy)
  | call _ => exact call_clean
  | shielded _ => exact lift_rejects (shielded_clean hroomy)
  | propose _ => exact lift_rejects proposeMultisig_clean
  | approve _ => exact lift_rejects approveMultisig_clean

variable {C : Crypto} {Q : Ledger → Prop}

theorem credit_rejects_of_lt {id : AccountId} {amount : Balance} (h : L.supply + amount.toNat < 2 ^ 128)
    : (credit C L id amount).Rejects Q := by
  unfold credit
  split_ifs
  · exact Except.rejects_ok
  split
  · rename_i hb
    have hheld := L.worth_le_held id
    rw [BitVec.checkedAdd_eq_none] at hb
    unfold Account.worth at hheld
    unfold Stores.supply at h
    omega
  · exact Except.rejects_ok

variable {s : InFlight}

theorem finish_rejects_of_lt {sid : AccountId} {tip : Balance} (h : s.value + tip.toNat < 2 ^ 128)
    : (finish C ctx sid tip s).Rejects Q := by
  have hback := s.ledger.supply_setAccount C sid s.signer
  unfold InFlight.value at h
  refine (credit_rejects_of_lt (by omega)).bind fun L1 hfee => ?_
  have hsupply := credit_supply hfee
  exact credit_rejects_of_lt (by omega)

theorem applyTransaction_clean (hcovered : L.EscrowsCovered) (hroom : 2 * L.supply < 2 ^ 128) :
    (applyTransaction E ctx L stx).Rejects (· = L) := by
  unfold applyTransaction
  split
  · exact Except.rejects_reject rfl
  rename_i p hp
  refine (execute_clean hp hcovered hroom).bind fun ⟨x, status⟩ hx => ?_
  refine Except.Rejects.bind ?_ fun _ _ => Except.rejects_ok
  have hG := covers_txGrant E ctx L stx.transaction
  rw [← prepare_action hp] at hG
  have hvalue := (execute_effects hp hG hx).value_eq hcovered
  have hstart := start_value hp
  have hheld := L.worth_le_held stx.transaction.signer
  refine finish_rejects_of_lt ?_
  unfold Stores.supply at hroom hstart
  omega

/-- A rejected transaction leaves the ledger, its journal and its commitment as they were. The escrow counter
has to cover the escrows: the supply counts the counter, and a payout of more than it knows of can overflow
after the escrow is closed. -/
theorem rejection_has_no_effect (E : Env) (ctx : BlockContext) (L L' : Ledger) (stx : SignedTransaction)
    (e : ExecutionError) (t : Balance) (ht : L.totalSupply = some t)
    (hcap : t.toNat ≤ Balance.maxSupplyGrains) (hcovered : L.EscrowsCovered)
    (h : applyTransaction E ctx L stx = .error (.reject L' e)) :
    L' = L ∧ L'.stateRoot E.toCrypto = L.stateRoot E.toCrypto := by
  rw [Stores.totalSupply_eq_some] at ht
  have hroom : 2 * L.supply < 2 ^ 128 := by
    simp only [Balance.maxSupplyGrains, Balance.maxSupplySov, Balance.grainsPerSov, Balance.decimals] at hcap
    omega
  have hsame : L' = L := applyTransaction_clean hcovered hroom L' e h
  exact ⟨hsame, by rw [hsame]⟩

/-- How a transaction was rejected. -/
def rejection {α : Type} : Except Fault α → Option (Ledger × ExecutionError)
  | .error (.reject L e) => some (L, e)
  | _ => none

theorem exists_of_rejection {α : Type} {r : Except Fault α} (h : (rejection r).isSome) :
    ∃ L e, r = .error (.reject L e) := by
  unfold rejection at h
  split at h
  · exact ⟨_, _, rfl⟩
  · cases h

/-- An escrow of more than there can be, which the counter does not know of. -/
def overdrawnLedger : Ledger :=
  { aliceFunded with
    htlcs := OrdMap.empty.insert Hash.zero ⟨⟨"alice.sov"⟩, ⟨"bob.sov"⟩, -1, Hash.zero, 0⟩ }

/-- The refund overflows and the transaction is rejected, but the escrow is gone. -/
theorem overflowing_refund_closes_escrow :
    overdrawnLedger.totalSupply = some 7 ∧ overdrawnLedger.htlcs.entries.length = 1 ∧
    ((rejection (sampleApply overdrawnLedger
      (sampleTx "alice.sov" (.htlcRefund Hash.zero)))).map fun r => (r.2, r.1.htlcs.entries.length)) =
        some (.overflow, 0) := by
  refine ⟨?_, ?_, ?_⟩ <;> decide +kernel

/-- The signer cannot pay the fee. -/
theorem unaffordable_transfer_rejected :
    ∃ L' e, applyTransaction sampleEnv pricedContext aliceFunded samplePayment = .error (.reject L' e) ∧
      L' = aliceFunded := by
  obtain ⟨L', e, h⟩ := exists_of_rejection (r := applyTransaction sampleEnv pricedContext
    aliceFunded samplePayment) (by decide +kernel)
  exact ⟨L', e, h, (rejection_has_no_effect _ _ _ _ _ _ 7 (by decide +kernel) (by decide)
    (by decide +kernel) h).1⟩

/-! ## Failures -/

/-- Nothing but the charge for some fuel tells the states apart. -/
structure Spared (ctx : BlockContext) (x x' : ExecState) : Prop where
  stores : x'.ledger.toStores = { x.ledger.toStores with accounts := x'.ledger.accounts }
  account : ∀ id, x'.ledger.account id = x.ledger.account id
  signer : ∃ b : Balance, x'.signer = { x.signer with balance := b }
  charged : ∃ fuel : U64, x'.gasUsed = x.gasUsed.saturatingAdd fuel ∧
    x.signer.balance.toNat = x'.signer.balance.toNat + fuel.toNat * ctx.gasPrice.toNat ∧
    x'.feePaid.toNat = x.feePaid.toNat + fuel.toNat * ctx.gasPrice.toNat

theorem Spared.refl : Spared ctx x x where
  stores := rfl
  account _ := rfl
  signer := ⟨_, rfl⟩
  charged := ⟨0, BitVec.eq_of_toNat_eq (by have := x.gasUsed.isLt; simp [BitVec.toNat_saturatingAdd]; omega),
    by simp, by simp⟩

variable {reason : String} {account : AccountId}

/-- A proposal that cannot be paid at once is not stored, and its vault is written back as it was. -/
theorem proposeMultisig_failed {key : PublicKey} {nonce : U64} {action : Action}
    {s' : InFlight} (h : proposeMultisig C ctx key nonce account action s = .ok (s', .failed reason)) :
    s' = s ∨ s' = { s with ledger := s.ledger.setAccount C account (s.ledger.account account) } := by
  revert h
  refine proposeMultisig_cases (· = .ok (s', .failed reason) → _) (fun _ _ h => ?_) (fun _ _ _ _ _ _ h => by cases h)
    fun _ h => ?_
  · cases h
    exact .inl rfl
  unfold executeFor executeProposalAction doTransfer at h
  dsimp only at h
  split at h
  · split at h
    · cases h
      exact .inr rfl
    · split at h
      · cases h
      · split at h <;> cases h
  · cases h
    exact .inl rfl

/-- An action that fails has changed nothing, unless it completed a proposal or carried an Orchard bundle. -/
theorem execute_failed (hp : prepare E ctx L stx = .ok p) (hshielded : ∀ bundle, p.action ≠ .shielded bundle)
    (happrove : ∀ account proposal, p.action ≠ .approveMultisig account proposal)
    (h : execute E ctx stx p L = .ok (x, .failed reason)) : Spared ctx (opening p L) x := by
  have hrun := execute_dispatched hp
  generalize execute E ctx stx p L = out at hrun h
  cases hrun with
  | tidy htidy =>
    obtain ⟨s', hs', rfl⟩ := lift_eq_ok.mp h
    rw [htidy.failsClean s' reason hs']
    exact .refl
  | shielded haction => exact absurd haction (hshielded _)
  | approve haction => exact absurd haction (happrove _ _)
  | call haction =>
    obtain ⟨hledger, hsigner⟩ := call_failed h
    obtain ⟨run, outcome, -, -, -, hcharged⟩ | ⟨rfl, -⟩ := call_outcome h
    · exact ⟨by rw [hledger], fun id => by rw [hledger], hsigner,
        run.fuel, hcharged.gasUsed, hcharged.balance, hcharged.feePaid⟩
    · exact .refl
  | propose haction =>
    obtain ⟨s', hs', rfl⟩ := lift_eq_ok.mp h
    obtain rfl | rfl := proposeMultisig_failed hs'
    · exact .refl
    refine ⟨rfl, fun id => ?_, ⟨_, rfl⟩, Spared.refl.charged⟩
    dsimp only
    rw [Ledger.account_setAccount]
    split_ifs with hid
    · rw [hid]
    · rfl

/-- A failed transaction was not to be paid by a withdrawal: such a withdrawal executes or is rejected. -/
theorem feeFunded_of_failed (hp : prepare E ctx L stx = .ok p)
    (h : execute E ctx stx p L = .ok (x, .failed reason)) : p.feeFunded = none := by
  rcases hfee : p.feeFunded with _ | effects
  · rfl
  obtain ⟨⟨bundle, haction⟩, hms, -⟩ := prepare_feeFunded hp hfee
  simp only [execute, hms, dispatch, haction, hfee] at h
  obtain ⟨s', hs', -⟩ := lift_eq_ok.mp h
  cases shieldedV2_status hs'

/-- All that tells the ledger after a failed transaction from the one before: the nonce of the signer, its key
if it had none, and the fee and the tip, which go from the signer to the miner. -/
structure FailureOnly (ctx : BlockContext) (L L' : Ledger) (tx : Transaction) (gasUsed : U64) (paid : ℕ) :
    Prop where
  stores : L'.toStores = { L.toStores with accounts := L'.accounts }
  signer : ∃ nonce key balance, L'.account tx.signer = { L.account tx.signer with nonce, key, balance } ∧
    nonce.toNat = (L.account tx.signer).nonce.toNat + 1 ∧
    (key = (L.account tx.signer).key ∨ (L.account tx.signer).key = none ∧ key = some tx.publicKey)
  other : ∀ id, id ≠ tx.signer → ∃ balance, L'.account id = { L.account id with balance }
  balance : ∀ id, (L'.account id).balance.toNat + (if id = tx.signer then paid else 0) =
    (L.account id).balance.toNat + if id = ctx.miner then paid else 0
  paid_eq : ∃ fuel : U64, gasUsed = (intrinsicGas tx).saturatingAdd fuel ∧
    paid = ((intrinsicGas tx).toNat + fuel.toNat) * ctx.gasPrice.toNat + tx.action.tip.toNat

/-- Admission moves the nonce, may bind a key and takes the fee and the tip. -/
theorem Admitted.signer_eq {signer : Account} {action : Action} {nonce : U64} {balance : Balance}
    {r : Resolved} (h : Admitted E ctx st stx p signer action nonce balance r) :
    ∃ key, p.signer = { st.account stx.transaction.signer with nonce, key, balance := p.signer.balance } ∧
      nonce.toNat = (st.account stx.transaction.signer).nonce.toNat + 1 ∧
      (key = (st.account stx.transaction.signer).key ∨
        (st.account stx.transaction.signer).key = none ∧ key = some stx.transaction.publicKey) := by
  have hnext := BitVec.checkedAdd_eq_some.mp h.next_nonce
  have hsigner : p.signer = { signer with nonce, balance := p.signer.balance } := by
    rw [h.prepared]
  obtain ⟨policy, -, -, -, rfl⟩ | ⟨-, -, rfl⟩ | ⟨-, hkey, rfl, -⟩ := authorize_eq_ok h.authorized
  · exact ⟨_, hsigner, hnext.symm, .inl rfl⟩
  · exact ⟨_, hsigner, hnext.symm, .inl rfl⟩
  · exact ⟨_, hsigner, hnext.symm, .inr ⟨hkey, rfl⟩⟩

/-- A transaction that fails has the failure effects only, unless it completes a proposal or carries an Orchard
bundle. -/
theorem failure_effects_only (E : Env) (ctx : BlockContext) (L L' : Ledger) (stx : SignedTransaction)
    (receipt : Receipt) (reason : String) (hshielded : ∀ bundle, stx.transaction.action.resolved ≠ .shielded bundle)
    (happrove : ∀ account proposal, stx.transaction.action.resolved ≠ .approveMultisig account proposal)
    (h : applyTransaction E ctx L stx = .ok (L', receipt)) (hfailed : receipt.status = .failed reason) :
    ∃ paid, FailureOnly ctx L L' stx.transaction receipt.gasUsed paid := by
  obtain ⟨p, x, status, hp, hx, hL, rfl⟩ := applyTransaction_eq_ok h
  cases (hfailed : status = .failed reason)
  obtain ⟨signer, action, nonce, balance, r, hadm⟩ := prepare_eq_ok hp
  rw [← hadm.action_eq] at hshielded happrove
  have hspared := execute_failed hp hshielded happrove hx
  obtain ⟨fuel, hgas, hbalance, hpaid⟩ := hspared.charged
  obtain ⟨b, hsigner⟩ := hspared.signer
  obtain ⟨key, hkey, hnonce, hbound⟩ := hadm.signer_eq
  have hfee := intrinsicFee_eq_ok hadm.fee_eq
  have htaken := hadm.balance_eq
  simp only [feeFunded_of_failed hp hx, Option.isSome_none, Bool.false_eq_true, if_false] at htaken
  dsimp only [opening] at hgas hbalance hpaid hsigner
  have hgasUsed : p.gasUsed = intrinsicGas stx.transaction := by rw [hadm.prepared]
  refine ⟨x.feePaid.toNat + p.tip.toNat, ?_, ?_, fun id hid => ?_, fun id => ?_, fuel, ?_, ?_⟩
  · rw [finish_stores hL, hspared.stores]
    rfl
  · obtain ⟨b', hb', -⟩ := finish_account hL stx.transaction.signer
    rw [if_pos rfl, hsigner, hkey] at hb'
    exact ⟨nonce, key, b', hb', hnonce, hbound⟩
  · obtain ⟨b', hb', -⟩ := finish_account hL id
    rw [if_neg hid, hspared.account] at hb'
    exact ⟨b', hb'⟩
  · obtain ⟨b', hb', hnat⟩ := finish_account hL id
    rw [hb']
    dsimp only
    rw [hnat]
    by_cases hid : id = stx.transaction.signer
    · subst hid
      simp only [if_pos]
      split_ifs <;> omega
    · have hsame := hspared.account id
      dsimp only [opening] at hsame
      simp only [if_neg hid, hsame, Nat.add_zero]
  · dsimp only
    rw [hgas, hgasUsed]
  · rw [hpaid, hfee, ← hadm.tip_eq, Nat.add_mul]

/-- A transfer of more than the signer has. -/
theorem overdrawn_transfer_fails :
    ∃ L' receipt, sampleApply aliceFunded (sampleTx "alice.sov" (.transfer ⟨"bob.sov"⟩ 9)) = .ok (L', receipt) ∧
      ∃ paid, FailureOnly sampleContext aliceFunded L'
        (sampleTx "alice.sov" (.transfer ⟨"bob.sov"⟩ 9)).transaction receipt.gasUsed paid := by
  have hstatus : (sampleApply aliceFunded
      (sampleTx "alice.sov" (.transfer ⟨"bob.sov"⟩ 9))).toOption.map (fun r => r.2.status) =
        some (.failed "insufficient balance") := by decide +kernel
  obtain ⟨⟨L', receipt⟩, h, hfailed⟩ := exists_of_map_toOption hstatus
  exact ⟨L', receipt, h, failure_effects_only _ _ _ _ _ receipt "insufficient balance" (fun _ => nofun)
    (fun _ _ => nofun) h hfailed⟩

/-! ## Failed approvals -/

/-- The transaction is the approval that brings a stored proposal to its threshold. -/
def CompletesProposal (C : Crypto) (ctx : BlockContext) (st : Stores) (tx : Transaction) : Prop :=
  execError C ctx st tx = none ∧ ∃ vault inner, Approves ctx st tx.publicKey vault inner tx.action.resolved

/-- An approval that fails has changed nothing, or it has completed a proposal and dropped it. -/
theorem approveMultisig_failed {key : PublicKey} {proposal : Hash} {s' : InFlight}
    (h : approveMultisig C ctx key account proposal s = .ok (s', .failed reason)) : (s' = s ∧ ∀ vault inner,
      ¬Approves ctx s.ledger key vault inner (.approveMultisig account proposal)) ∨
    ((∃ inner, Approves ctx s.ledger key account inner (.approveMultisig account proposal)) ∧
      (s.ledger.proposals.get? proposal).isSome ∧ s'.ledger.proposals.get? proposal = none) := by
  revert h
  refine approveMultisig_cases (· = .ok (s', .failed reason) → _) (fun _ hno h => ?_)
    (fun _ _ _ _ _ _ _ _ _ _ _ h => by cases h) fun inner prop hprop _ ha h => ?_
  · cases h
    exact .inl ⟨rfl, hno⟩
  refine .inr ⟨⟨inner, ha⟩, by rw [hprop]; rfl, ?_⟩
  rcases hexec : executeFor C account inner s with e | r
  · simp [hexec, Except.map] at h
  simp only [hexec, Except.map, Except.ok.injEq, Prod.mk.injEq] at h
  rw [← h.1]
  exact OrdMap.get?_set_self _ _ _

/-- A failed approval keeps the pending proposals, unless it completed one: then the payment was tried and the
proposal dropped with it. -/
theorem failed_approval_keeps_proposals_iff (E : Env) (ctx : BlockContext) (L L' : Ledger)
    (stx : SignedTransaction) (receipt : Receipt) (reason : String) (account : AccountId) (proposal : Hash)
    (haction : stx.transaction.action.resolved = .approveMultisig account proposal)
    (h : applyTransaction E ctx L stx = .ok (L', receipt)) (hfailed : receipt.status = .failed reason) :
    (∀ id prop, L.proposals.get? id = some prop → L'.proposals.get? id = some prop) ↔
      ¬CompletesProposal E.toCrypto ctx L.toStores stx.transaction := by
  obtain ⟨p, x, status, hp, hx, hL, rfl⟩ := applyTransaction_eq_ok h
  cases (hfailed : status = .failed reason)
  have hkept : L'.proposals = x.ledger.proposals := by rw [finish_stores hL]
  unfold CompletesProposal
  rw [hkept, ← prepare_msError hp, haction]
  unfold execute at hx
  dsimp only at hx
  split at hx
  · rename_i hms
    cases hx
    simp [hms]
  rename_i hms
  simp only [dispatch, (prepare_action hp).trans haction] at hx
  obtain ⟨s', hs', rfl⟩ := lift_eq_ok.mp hx
  obtain ⟨rfl, hnot⟩ | ⟨⟨inner, happroves⟩, hpending, hgone⟩ := approveMultisig_failed hs'
  · refine iff_of_true (fun _ _ hprop => hprop) fun hcompletes => ?_
    obtain ⟨-, vault, inner, ha⟩ := hcompletes
    exact hnot vault inner ha
  · obtain ⟨prop, hprop⟩ := Option.isSome_iff_exists.mp hpending
    refine iff_of_false (fun hall => ?_) fun hno => hno ⟨hms, account, inner, happroves⟩
    cases hgone.symm.trans (hall proposal prop hprop)

/-- A vault of three grains and its two members. -/
def treasuryGenesis : GenesisConfig where
  chainId := "sov"
  timestampMs := 0
  accounts := [⟨⟨"vault.sov"⟩, memberKey 0, 3⟩, ⟨⟨"bob.sov"⟩, memberKey 1, 0⟩, ⟨⟨"carol.sov"⟩, memberKey 2, 0⟩]
  mining := sampleMining
  vesting := []

def treasury : Ledger :=
  treasuryGenesis.accounts.foldl (GenesisConfig.fund sampleCrypto) (Ledger.new sampleCrypto)

/-- A transaction with a key and a nonce of its own. -/
def numberedTx (key : PublicKey) (signer : String) (nonce : U64) (action : Action) : SignedTransaction :=
  { sampleTx signer action with transaction := ⟨⟨signer⟩, key, nonce, action⟩ }

/-- The first transaction under a key. -/
def keyedTx (key : PublicKey) (signer : String) (action : Action) : SignedTransaction :=
  numberedTx key signer 0 action

/-- The vault takes its policy, and a member proposes to pay five grains out of its three. -/
def treasuryTxs : List SignedTransaction :=
  [keyedTx (memberKey 0) "vault.sov" (.setMultisig [memberKey 1, memberKey 2] 2),
   keyedTx (memberKey 1) "bob.sov" (.proposeMultisig ⟨"vault.sov"⟩ (.transfer ⟨"bob.sov"⟩ 5))]

/-- The proposal of the run. -/
def pendingProposal : Hash :=
  proposalId sampleCrypto ⟨"vault.sov"⟩ (PublicKey.codec.encode (memberKey 1)) 0
    (Action.codec.encode (.transfer ⟨"bob.sov"⟩ 5))

/-- The approval of the other member. -/
def secondApproval : SignedTransaction :=
  keyedTx (memberKey 2) "carol.sov" (.approveMultisig ⟨"vault.sov"⟩ pendingProposal)

/-- From genesis, in two blocks: the approval fails because the vault is short, and the proposal is gone. -/
theorem failed_approval_drops_proposal : ∃ genesis L, treasuryGenesis.build sampleCrypto = .ok genesis ∧
      Accepted sampleEnv genesis.ledger treasuryTxs L ∧ (L.proposals.get? pendingProposal).isSome ∧
      ((sampleApply L secondApproval).toOption.map fun r =>
        (r.2.status, r.1.proposals.get? pendingProposal)) = some (.failed "insufficient balance", none) := by
  have hbuild : treasuryGenesis.build sampleCrypto =
      .ok ⟨treasury, treasuryGenesis.block sampleCrypto treasury, treasuryGenesis.coinbase⟩ := rfl
  have hrun : (executeBlock sampleEnv sampleContext treasury treasuryTxs).toOption.map (fun r =>
      ((r.1.proposals.get? pendingProposal).isSome,
        (sampleApply r.1 secondApproval).toOption.map fun r =>
          (r.2.status, r.1.proposals.get? pendingProposal))) =
      some (true, some (.failed "insufficient balance", none)) := by decide +kernel
  obtain ⟨⟨L, receipts⟩, hL, hafter⟩ := exists_of_map_toOption hrun
  obtain ⟨hpending, hfails⟩ := Prod.mk.inj hafter
  exact ⟨_, L, hbuild, .block .genesis hL, hpending, hfails⟩

/-- The vault with its policy and a pending proposal. -/
def pendingLedger : Ledger :=
  (treasury.setMultisig sampleCrypto ⟨"vault.sov"⟩ ⟨[memberKey 1, memberKey 2], 2⟩).setProposal sampleCrypto
    pendingProposal ⟨⟨"vault.sov"⟩, Action.codec.encode (.transfer ⟨"bob.sov"⟩ 5), [0]⟩

/-- An approval that names no proposal. -/
def strayApproval : SignedTransaction :=
  keyedTx (memberKey 2) "carol.sov" (.approveMultisig ⟨"vault.sov"⟩ Hash.zero)

theorem stray_approval_keeps_proposals :
    ∃ r, sampleApply pendingLedger strayApproval = .ok r ∧
      ∀ id prop, pendingLedger.proposals.get? id = some prop → r.1.proposals.get? id = some prop := by
  have hstatus : (sampleApply pendingLedger strayApproval).toOption.map
      (fun r => r.2.status) = some (.failed "multisig: no such pending proposal") := by decide +kernel
  obtain ⟨r, hr, hfailed⟩ := exists_of_map_toOption hstatus
  refine ⟨r, hr, (failed_approval_keeps_proposals_iff _ _ _ _ _ r.2 _ ⟨"vault.sov"⟩ Hash.zero rfl hr hfailed).mpr ?_⟩
  rintro ⟨-, vault, inner, -, -, policy, idx, prop, -, -, hprop, -⟩
  have hnone : pendingLedger.proposals.get? Hash.zero = none := by decide +kernel
  cases hnone.symm.trans hprop

end Runtime
end Sov
