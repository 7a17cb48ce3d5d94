import SovChain.Runtime.Execution
import SovChain.State.Journal

/-!
# The journal is not read

Execution writes the journal and never reads it: run on a ledger without one it gives the same ledger, up to
the journal, and the same receipts (`executeBlock_forget`). So a block that is replayed on a ledger of its own
comes out as on the live ledger, where it is journalled.
-/

namespace Sov
open Codec
namespace Ledger
variable {C : Crypto} {L : Ledger}

@[simp] theorem toStores_forget : L.forget.toStores = L.toStores := rfl

@[simp] theorem overwrite_forget (op : UndoOp) : L.forget.overwrite C op = (L.overwrite C op).forget := rfl

@[simp] theorem setAccount_forget (id : AccountId) (a : Account) :
    L.forget.setAccount C id a = (L.setAccount C id a).forget := rfl

@[simp] theorem setToken_forget (asset : Hash) (info : TokenInfo) :
    L.forget.setToken C asset info = (L.setToken C asset info).forget := rfl

@[simp] theorem setTokenBalance_forget (asset : Hash) (holder : AccountId) (b : Balance) :
    L.forget.setTokenBalance C asset holder b = (L.setTokenBalance C asset holder b).forget := rfl

@[simp] theorem setTokenWindow_forget (asset : Hash) (holder : AccountId) (w : SpendWindow) :
    L.forget.setTokenWindow C asset holder w = (L.setTokenWindow C asset holder w).forget := rfl

@[simp] theorem setNftClass_forget (id : Hash) (c : NftClass) :
    L.forget.setNftClass C id c = (L.setNftClass C id c).forget := rfl

@[simp] theorem setMultisig_forget (account : AccountId) (policy : Multisig) :
    L.forget.setMultisig C account policy = (L.setMultisig C account policy).forget := rfl

@[simp] theorem setProposal_forget (id : Hash) (p : MultisigProposal) :
    L.forget.setProposal C id p = (L.setProposal C id p).forget := rfl

@[simp] theorem removeProposal_forget (id : Hash) : L.forget.removeProposal C id = (L.removeProposal C id).forget := rfl

@[simp] theorem setOraclePrice_forget (price : U128) :
    L.forget.setOraclePrice C price = (L.setOraclePrice C price).forget := rfl

@[simp] theorem setDeshieldWindow_forget (start : U64) (spent : Balance) :
    L.forget.setDeshieldWindow C start spent = (L.setDeshieldWindow C start spent).forget := rfl

@[simp] theorem setDeshieldV2Window_forget (start : U64) (spent : Balance) :
    L.forget.setDeshieldV2Window C start spent = (L.setDeshieldV2Window C start spent).forget := rfl

theorem foldl_forget {α : Type} {f : Ledger → α → Ledger} (hf : ∀ L a, f L.forget a = (f L a).forget)
    (l : List α) : l.foldl f L.forget = (l.foldl f L).forget := by
  induction l generalizing L with
  | nil => rfl
  | cons a l ih => rw [List.foldl_cons, hf, ih, List.foldl_cons]

@[simp] theorem removeProposalsFor_forget (account : AccountId) :
    L.forget.removeProposalsFor C account = (L.removeProposalsFor C account).forget :=
  foldl_forget (fun _ _ => rfl) _

@[simp] theorem setTokenPolicy_forget (asset : Hash) (policy : CompliancePolicy) :
    L.forget.setTokenPolicy C asset policy = (L.setTokenPolicy C asset policy).forget := by
  unfold setTokenPolicy
  rw [toStores_forget, overwrite_forget]
  exact foldl_forget (fun _ _ => rfl) _

@[simp] theorem consumeIntent_forget (id : Hash) : L.forget.consumeIntent C id = (L.consumeIntent C id).forget := by
  unfold consumeIntent
  rw [toStores_forget]
  cases L.intentConsumed id <;> rfl

@[simp] theorem applyShieldedBundle_forget (bundle : ShieldedBundle) : L.forget.applyShieldedBundle C bundle =
      ((L.applyShieldedBundle C bundle).1.forget, (L.applyShieldedBundle C bundle).2) := by
  unfold applyShieldedBundle
  rw [toStores_forget]
  obtain ⟨pool, _ | e⟩ := L.shielded.applyBundle C bundle <;> rfl

@[simp] theorem applyShieldedV2_forget (nullifiers commitments : List Hash) :
    L.forget.applyShieldedV2 C nullifiers commitments = (L.applyShieldedV2 C nullifiers commitments).map forget := by
  unfold applyShieldedV2
  rw [toStores_forget]
  cases L.shieldedV2.apply C nullifiers commitments <;> rfl

@[simp] theorem addShieldedValue_forget (amount : Balance) :
    L.forget.addShieldedValue C amount = (L.addShieldedValue C amount).map forget := by
  unfold addShieldedValue
  rw [toStores_forget]
  cases L.shieldedValue.checkedAdd amount <;> rfl

@[simp] theorem subShieldedValue_forget (amount : Balance) :
    L.forget.subShieldedValue C amount = (L.subShieldedValue C amount).map forget := by
  unfold subShieldedValue
  rw [toStores_forget]
  cases L.shieldedValue.checkedSub amount <;> rfl

@[simp] theorem addShieldedV2Value_forget (amount : Balance) :
    L.forget.addShieldedV2Value C amount = (L.addShieldedV2Value C amount).map forget := by
  unfold addShieldedV2Value
  rw [toStores_forget]
  cases L.shieldedV2Value.checkedAdd amount <;> rfl

@[simp] theorem subShieldedV2Value_forget (amount : Balance) :
    L.forget.subShieldedV2Value C amount = (L.subShieldedV2Value C amount).map forget := by
  unfold subShieldedV2Value
  rw [toStores_forget]
  cases L.shieldedV2Value.checkedSub amount <;> rfl

@[simp] theorem addMinedEmitted_forget (amount : Balance) :
    L.forget.addMinedEmitted C amount = (L.addMinedEmitted C amount).map forget := by
  unfold addMinedEmitted
  rw [toStores_forget]
  cases L.minedEmitted.checkedAdd amount <;> rfl

@[simp] theorem lockHtlc_forget (id : Hash) (htlc : Htlc) :
    L.forget.lockHtlc C id htlc = (L.lockHtlc C id htlc).map forget := by
  unfold lockHtlc
  rw [toStores_forget]
  cases hid : L.htlcs.contains id with
  | true => rfl
  | false => cases L.htlcLocked.checkedAdd htlc.amount <;> rfl

@[simp] theorem settleHtlc_forget (id : Hash) :
    L.forget.settleHtlc C id = (L.settleHtlc C id).map fun r => (r.1.forget, r.2) := by
  unfold settleHtlc
  rw [toStores_forget]
  cases L.htlcs.get? id <;> rfl

@[simp] theorem setVault_forget (owner : AccountId) (vault : Vault) :
    L.forget.setVault C owner vault = (L.setVault C owner vault).map forget := by
  unfold setVault
  rw [toStores_forget]
  rcases L.vaultCollateral.checkedSub (L.vault owner).collateral with _ | base
  · rfl
  dsimp only [bind, Option.bind]
  cases base.checkedAdd vault.collateral <;> rfl

@[simp] theorem mintNft_forget (collection : Hash) (tokenId : Bytes) (owner : AccountId) (metadata : Bytes)
    (height : U64) : L.forget.mintNft C collection tokenId owner metadata height =
      (L.mintNft C collection tokenId owner metadata height).map forget := by
  unfold mintNft
  rw [toStores_forget]
  cases hid : (L.nft collection tokenId).isSome <;> rfl

@[simp] theorem transferNft_forget (collection : Hash) (tokenId : Bytes) (owner : AccountId) :
    L.forget.transferNft C collection tokenId owner = (L.transferNft C collection tokenId owner).map forget := by
  unfold transferNft
  rw [toStores_forget]
  cases L.nft collection tokenId <;> rfl

@[simp] theorem setNftMeta_forget (collection : Hash) (tokenId metadata : Bytes) :
    L.forget.setNftMeta C collection tokenId metadata = (L.setNftMeta C collection tokenId metadata).map forget := by
  unfold setNftMeta
  rw [toStores_forget]
  cases L.nft collection tokenId <;> rfl

@[simp] theorem registerName_forget (name : String) (owner : AccountId) (height : U64) :
    L.forget.registerName C name owner height = (L.registerName C name owner height).map forget :=
  mintNft_forget _ _ _ _ _

@[simp] theorem transferName_forget (name : String) (owner : AccountId) :
    L.forget.transferName C name owner = (L.transferName C name owner).map forget :=
  transferNft_forget _ _ _

end Ledger

/-! ## The arms -/

@[simp] def Fault.forget : Fault → Fault
  | .reject L e => .reject L.forget e
  | .panic => .panic

@[simp] def InFlight.forget (s : InFlight) : InFlight := { s with ledger := s.ledger.forget }

@[simp] def ExecState.forget (s : ExecState) : ExecState := { s with toInFlight := s.toInFlight.forget }

end Sov

section
open Sov

/-- Forget the journal in what a computation ends with. -/
@[simp] def Except.forgetting {α β : Type} (f : α → β) : Except Fault α → Except Fault β
  | .ok a => .ok (f a)
  | .error e => .error e.forget

theorem Except.forgetting_bind {α α' β β' : Type} {f : α → α'} {g : β → β'} {x : Except Fault α}
    {k : α → Except Fault β} {k' : α' → Except Fault β'} (h : ∀ a, k' (f a) = (k a).forgetting g) :
    (x.forgetting f >>= k') = (x >>= k).forgetting g := by
  cases x with
  | error e => rfl
  | ok a => exact h a

end

namespace Sov

abbrev Arm.forget (r : Arm) : Arm := r.forgetting fun p => (p.1.forget, p.2)

/-- The arm does not read the journal. -/
abbrev Oblivious (arm : InFlight → Arm) : Prop := ∀ s, arm s.forget = (arm s).forget

namespace Runtime

attribute [local simp] InFlight.failed InFlight.done InFlight.overflow InFlight.withBalance

section Arms
variable {C : Crypto} {E : Env} {ctx : BlockContext} {sid : AccountId} {L : Ledger}

theorem forget_ite {c : Prop} [Decidable c] {a b a' b' : Arm} (ha : a' = a.forget) (hb : b' = b.forget) :
    (if c then a' else b') = Arm.forget (if c then a else b) := by
  split_ifs
  · exact ha
  · exact hb

@[simp] theorem credit_forget (id : AccountId) (amount : Balance) :
    credit C L.forget id amount = (credit C L id amount).forgetting Ledger.forget := by
  fun_cases credit C L id amount <;> simp_all [credit]

@[simp] theorem doTransfer_forget (sender : AccountId) (acct : Account) (dest : AccountId) (amount : Balance) :
    doTransfer C L.forget sender acct dest amount =
      (doTransfer C L sender acct dest amount).forgetting fun r => (r.1.forget, r.2) := by
  fun_cases doTransfer C L sender acct dest amount <;> simp_all +zetaDelta [doTransfer]

@[simp] theorem executeProposalAction_forget (account : AccountId) (action : Action) :
    executeProposalAction C L.forget account action =
      (executeProposalAction C L account action).forgetting fun r => (r.1.forget, r.2) := by
  cases action with
  | transfer dest amount =>
    dsimp only [executeProposalAction]
    rw [Ledger.toStores_forget, doTransfer_forget]
    exact Except.forgetting_bind fun r => rfl
  | _ => rfl

@[simp] theorem storeWindow_forget (asset : Hash) (holder : AccountId) (w : Option SpendWindow) :
    storeWindow C L.forget asset holder w = (storeWindow C L asset holder w).forget := by
  cases w <;> rfl

@[simp] theorem mintTokens_forget (asset : Hash) (info : TokenInfo) (dest : AccountId) (amount : Balance) :
    mintTokens C asset info dest amount L.forget = (mintTokens C asset info dest amount L).map Ledger.forget := by
  fun_cases mintTokens C asset info dest amount L <;> simp_all [mintTokens]

@[simp] theorem settleContractTokenTransfers_forget (contract : AccountId) (cmds : List TokenTransferCmd)
    (height : U64) : settleContractTokenTransfers C L.forget contract cmds height =
      (settleContractTokenTransfers C L contract cmds height).map Ledger.forget := by
  unfold settleContractTokenTransfers
  rw [Ledger.toStores_forget]
  rcases cmds.foldlM (settleCmd L contract height) ⟨.empty, .empty⟩ with e | t
  · rfl
  have hcommit : commitScratch C L.forget contract t = (commitScratch C L contract t).forget := by
    unfold commitScratch
    rw [Ledger.foldl_forget fun _ _ => rfl, Ledger.foldl_forget fun _ _ => rfl]
  exact congrArg Except.ok hcommit

theorem call_forget (contract : AccountId) (gasLimit : U64) (calldata : Bytes) (x : ExecState) :
    call E ctx sid contract gasLimit calldata x.forget =
      (call E ctx sid contract gasLimit calldata x).forgetting fun r => (r.1.forget, r.2) := by
  have hstorage : ∀ (L : Ledger) (entries : List (Bytes × Bytes)),
      entries.foldl (fun L e => L.setContractValue E contract e.1 e.2) L.forget =
        (entries.foldl (fun L e => L.setContractValue E contract e.1 e.2) L).forget :=
    fun L entries => Ledger.foldl_forget (fun _ _ => rfl) entries
  fun_cases call E ctx sid contract gasLimit calldata x <;>
    simp_all +zetaDelta [call, Except.map]

variable {account dest recipient : AccountId} {amount fee : Balance} {owed : Option Balance} {bundle : Bytes}
  {nonce : U64} {requiresHybrid : Bool} {key : PublicKey} {sb : ShieldedBundle} {window : Option (U64 × Balance)}
  {effects : V2Effects} {asset id proposal : Hash} {name : String} {settlement : Settlement}
  {signers : List PublicKey} {threshold : U16} {action : Action} {v : Vault} {price : U128}

theorem transfer_forget : Oblivious (transfer C sid dest amount) := by
  intro s
  unfold transfer
  exact (congrArg (· >>= _) (doTransfer_forget ..)).trans (Except.forgetting_bind fun r => rfl)

theorem applyShielded_forget : Oblivious (applyShielded C sb window) := by
  intro s
  cases window <;> fun_cases applyShielded C sb _ s <;> simp_all +zetaDelta [applyShielded]

theorem shielded_forget : Oblivious (shielded ctx sid E nonce bundle) := by
  intro s
  unfold shielded
  dsimp only
  rcases E.decodeShielded bundle with _ | sb
  · rfl
  refine forget_ite rfl (forget_ite rfl (forget_ite ?_ (forget_ite rfl (applyShielded_forget s))))
  dsimp only [InFlight.forget, Ledger.toStores_forget]
  cases ShieldedV2.drainWindow ctx.mining ctx.height s.ledger.deshieldWindow (unsignedAbs sb.valueBalance) with
  | none => rfl
  | some window => exact forget_ite rfl (applyShielded_forget s)

theorem applyV2Out_forget : Oblivious (applyV2Out C owed effects) := by
  intro s
  cases hw : effects.windowUpdate <;> fun_cases applyV2Out C owed effects s <;> simp_all +zetaDelta [applyV2Out]

theorem applyV2_forget : Oblivious (applyV2 C owed effects) := by
  intro s
  fun_cases applyV2 C owed effects s <;> simp_all +zetaDelta [applyV2, ← applyV2Out_forget, Except.map]

theorem payOutHtlc_forget : Oblivious (payOutHtlc C id) := by
  intro s
  fun_cases payOutHtlc C id s <;> simp_all +zetaDelta [payOutHtlc]

theorem settleLegs_write_forget (leg : SettleLeg) (sender : AccountId) (debited : Balance)
    (recipient : AccountId) (credited : Balance) : leg.write C L.forget sender debited recipient credited =
      (leg.write C L sender debited recipient credited).forget := by
  cases leg <;> rfl

theorem settleLegs_writeWindow_forget (leg : SettleLeg) (sender : AccountId) (w : Option SpendWindow) :
    leg.writeWindow C L.forget sender w = (leg.writeWindow C L sender w).forget := by
  cases leg with
  | native => rfl
  | token asset => exact storeWindow_forget asset sender w

theorem creditFailed_forget (leg : SettleLeg) :
    leg.creditFailed L.forget = (leg.creditFailed L).forgetting fun r => r.map fun p => (p.1.forget, p.2) := by
  cases leg <;> rfl

theorem settleIntentLegs_forget (signer : Account) (solver : AccountId) (settlement : Settlement)
    (height : U64) : settleIntentLegs C L.forget signer solver settlement height =
      (settleIntentLegs C L signer solver settlement height).forgetting fun r => r.map fun p => (p.1.forget, p.2) := by
  fun_cases settleIntentLegs C L signer solver settlement height <;>
    simp_all +zetaDelta [settleIntentLegs, settleLegs_write_forget, settleLegs_writeWindow_forget, creditFailed_forget, Except.map]

theorem intentSettle_forget : Oblivious (intentSettle C ctx sid settlement) := by
  intro s
  unfold intentSettle
  refine forget_ite rfl (forget_ite rfl (forget_ite rfl (forget_ite rfl (forget_ite rfl
    (forget_ite rfl (forget_ite rfl (forget_ite rfl (forget_ite rfl (forget_ite rfl ?_)))))))))
  dsimp only [InFlight.forget]
  rw [settleIntentLegs_forget]
  obtain fault | reason | ⟨ledger, signer⟩ := settleIntentLegs C s.ledger s.signer sid settlement ctx.height
  · rfl
  · rfl
  · exact congrArg (fun L => InFlight.done ⟨L, signer, s.feePaid⟩) (Ledger.consumeIntent_forget _)

theorem registerName_forget : Oblivious (registerName C ctx sid name) := by
  intro s
  have hledger : (s.forget.ledger.registerName C name sid ctx.height).getD s.forget.ledger =
      ((s.ledger.registerName C name sid ctx.height).getD s.ledger).forget := by
    dsimp only [InFlight.forget]
    rw [Ledger.registerName_forget]
    cases s.ledger.registerName C name sid ctx.height <;> rfl
  have hsigner : s.forget.signer = s.signer := rfl
  have hfeePaid : s.forget.feePaid = s.feePaid := rfl
  unfold registerName
  rw [hledger, hsigner, hfeePaid]
  -- The fee as a numeral makes the kernel compute with it.
  generalize nameRegistrationFeeGrains = fee
  rcases AccountId.new name with e | id
  · rfl
  refine forget_ite rfl (forget_ite rfl (forget_ite rfl ?_))
  cases s.signer.balance.checkedSub fee with
  | none => rfl
  | some remaining => cases s.feePaid.checkedAdd fee <;> rfl

theorem transferName_forget : Oblivious (transferName C sid name dest) := by
  intro s
  unfold transferName
  dsimp only [InFlight.forget]
  rw [Ledger.toStores_forget, Ledger.transferName_forget]
  rcases (s.ledger.nameToken C name).map NftToken.owner with _ | owner
  · rfl
  refine forget_ite rfl ?_
  cases s.ledger.transferName C name dest <;> rfl

theorem setMultisig_forget : Oblivious (setMultisig C sid requiresHybrid signers threshold) := by
  intro s
  unfold setMultisig
  refine forget_ite rfl (forget_ite rfl (forget_ite rfl (forget_ite rfl ?_)))
  dsimp only [InFlight.forget]
  rw [Ledger.setMultisig_forget, Ledger.removeProposalsFor_forget]
  rfl

theorem executeFor_forget : Oblivious (executeFor C account action) := by
  intro s
  unfold executeFor
  dsimp only [InFlight.forget]
  rw [executeProposalAction_forget]
  cases executeProposalAction C s.ledger account action <;> rfl

theorem approveMultisig_forget : Oblivious (approveMultisig C ctx key account proposal) := by
  intro s
  have hmap : ∀ action : Action,
      ((executeFor C account action s.forget).map fun r =>
        ({ r.1 with ledger := r.1.ledger.removeProposal C proposal }, r.2)) =
      Arm.forget ((executeFor C account action s).map fun r =>
        ({ r.1 with ledger := r.1.ledger.removeProposal C proposal }, r.2)) := by
    intro action
    rw [executeFor_forget]
    cases executeFor C account action s <;> rfl
  fun_cases approveMultisig C ctx key account proposal s <;> simp_all +zetaDelta [approveMultisig]

theorem writeVault_forget : Oblivious (writeVault C sid v) := by
  intro s
  fun_cases writeVault C sid v s <;> simp_all [writeVault]

theorem oracleUpdate_forget : Oblivious (oracleUpdate C sid price) := by
  intro s
  unfold oracleUpdate
  exact forget_ite rfl (forget_ite rfl (forget_ite rfl rfl))

end Arms

/-! ## Transactions and blocks -/

section Blocks
variable {C : Crypto} {E : Env} {ctx : BlockContext} {L : Ledger}

theorem lift_forget {x : ExecState} {arm : InFlight → Arm} (h : Oblivious arm) :
    lift x.forget arm = (lift x arm).forgetting fun r => (r.1.forget, r.2) := by
  unfold lift
  dsimp only [ExecState.forget]
  rw [h]
  cases arm x.toInFlight <;> rfl

theorem dispatch_forget (stx : SignedTransaction) (p : Prepared) (x : ExecState) :
    dispatch E ctx stx p x.forget = (dispatch E ctx stx p x).forgetting fun r => (r.1.forget, r.2) := by
  unfold dispatch
  dsimp only
  generalize stx.transaction.signer = sid, stx.transaction.publicKey = key, stx.transaction.nonce = nonce
  cases p.action with
  | tipped tip inner => rfl
  | timestamped at_ inner => rfl
  | shieldedV2 bundle =>
    exact lift_forget fun s => by
      fun_cases shieldedV2 ctx sid E nonce p.fee p.feeFunded bundle s <;> simp_all [shieldedV2, ← applyV2_forget]
  | transfer dest amount => exact lift_forget transfer_forget
  | claimVesting =>
    exact lift_forget fun s => by
      fun_cases claimVesting ctx s <;> simp_all [claimVesting]
  | deploy code =>
    exact lift_forget fun s => by fun_cases deploy code s <;> simp_all [deploy]
  | call contract gasLimit calldata => exact call_forget ..
  | shielded bundle => exact lift_forget shielded_forget
  | htlcLock recipient amount hashlock timeoutHeight =>
    exact lift_forget fun s => by
      fun_cases htlcLock E sid (stx.id E) recipient amount hashlock timeoutHeight s <;> simp_all [htlcLock]
  | htlcClaim htlcId preimage =>
    exact lift_forget fun s => by
      fun_cases htlcClaim E ctx sid htlcId preimage s <;> simp_all [htlcClaim, ← payOutHtlc_forget]
  | htlcRefund htlcId =>
    exact lift_forget fun s => by
      fun_cases htlcRefund E ctx sid htlcId s <;> simp_all [htlcRefund, ← payOutHtlc_forget]
  | tokenIssue symbol amount dest =>
    exact lift_forget fun s => by
      fun_cases tokenIssue E sid symbol amount dest s <;> simp_all +zetaDelta [tokenIssue]
  | tokenTransfer asset dest amount =>
    exact lift_forget fun s => by
      fun_cases tokenTransfer E ctx sid asset dest amount s <;> simp_all +zetaDelta [tokenTransfer]
  | tokenBurn asset amount =>
    exact lift_forget fun s => by
      fun_cases tokenBurn E ctx sid asset amount s <;> simp_all +zetaDelta [tokenBurn]
  | tokenSetPolicy asset policy =>
    exact lift_forget fun s => by
      fun_cases tokenSetPolicy E sid asset policy s <;> simp_all [tokenSetPolicy]
  | intentSettle settlement => exact lift_forget intentSettle_forget
  | intentCancel intent =>
    exact lift_forget fun s => by
      fun_cases intentCancel E sid intent s <;> simp_all [intentCancel]
  | rotateKey newKey proof =>
    exact lift_forget fun s => by
      fun_cases rotateKey E sid nonce p.requiresHybrid newKey proof s <;> simp_all [rotateKey]
  | registerName name => exact lift_forget registerName_forget
  | transferName name dest => exact lift_forget transferName_forget
  | nftMint symbol tokenId dest metadata =>
    exact lift_forget fun s => by
      fun_cases nftMint E ctx sid symbol tokenId dest metadata s <;> simp_all +zetaDelta [nftMint]
  | nftTransfer collection tokenId dest =>
    exact lift_forget fun s => by
      fun_cases nftTransfer E sid collection tokenId dest s <;> simp_all [nftTransfer]
  | nftSetMeta collection tokenId metadata =>
    exact lift_forget fun s => by
      fun_cases nftSetMeta E sid collection tokenId metadata s <;> simp_all [nftSetMeta]
  | setMultisig signers threshold => exact lift_forget setMultisig_forget
  | multisigExec inner approvals => rfl
  | proposeMultisig account action =>
    exact lift_forget fun s => by
      fun_cases proposeMultisig E ctx key nonce account action s <;>
        simp_all +zetaDelta [proposeMultisig, ← executeFor_forget]
  | approveMultisig account proposal => exact lift_forget approveMultisig_forget
  | cancelMultisig account proposal =>
    exact lift_forget fun s => by
      fun_cases cancelMultisig E ctx key account proposal s <;> simp_all [cancelMultisig]
  | vaultDeposit amount =>
    exact lift_forget fun s => by
      fun_cases vaultDeposit E sid amount s <;> simp_all +zetaDelta [vaultDeposit, ← writeVault_forget]
  | vaultWithdraw amount =>
    exact lift_forget fun s => by
      fun_cases vaultWithdraw E sid amount s <;> simp_all +zetaDelta [vaultWithdraw, ← writeVault_forget]
  | vaultMint amount =>
    exact lift_forget fun s => by
      fun_cases vaultMint E sid amount s <;> simp_all +zetaDelta [vaultMint, ← writeVault_forget]
  | vaultBurn amount =>
    exact lift_forget fun s => by
      fun_cases vaultBurn E sid amount s <;> simp_all +zetaDelta [vaultBurn, ← writeVault_forget]
  | oracleUpdate price => exact lift_forget oracleUpdate_forget

theorem execute_forget (stx : SignedTransaction) (p : Prepared) :
    execute E ctx stx p L.forget = (execute E ctx stx p L).forgetting fun r => (r.1.forget, r.2) := by
  unfold execute
  dsimp only
  cases p.msError with
  | some reason => rfl
  | none =>
    exact dispatch_forget stx p
      { ledger := L, signer := p.signer, feePaid := p.fee, gasUsed := p.gasUsed, returnData := [], events := [] }

theorem finish_forget (sid : AccountId) (tip : Balance) (s : InFlight) :
    finish C ctx sid tip s.forget = (finish C ctx sid tip s).forgetting Ledger.forget := by
  unfold finish
  dsimp only [InFlight.forget]
  rw [Ledger.setAccount_forget, credit_forget]
  exact Except.forgetting_bind fun L => credit_forget ..

theorem applyTransaction_forget (stx : SignedTransaction) : applyTransaction E ctx L.forget stx =
      (applyTransaction E ctx L stx).forgetting fun r => (r.1.forget, r.2) := by
  unfold applyTransaction
  rw [Ledger.toStores_forget]
  rcases prepare E ctx L stx with e | p
  · rfl
  dsimp only
  rw [execute_forget]
  refine Except.forgetting_bind fun r => ?_
  dsimp only [ExecState.forget]
  rw [finish_forget]
  exact Except.forgetting_bind fun L => rfl

theorem applyTransactions_forget (txs : List SignedTransaction) : applyTransactions E ctx L.forget txs =
      (applyTransactions E ctx L txs).forgetting fun r => (r.1.forget, r.2) := by
  induction txs generalizing L with
  | nil => rfl
  | cons stx rest ih =>
    unfold applyTransactions
    rw [applyTransaction_forget]
    refine Except.forgetting_bind fun r => ?_
    dsimp only
    rw [ih]
    exact Except.forgetting_bind fun r => rfl

theorem applyCoinbase_forget :
    applyCoinbase C ctx L.forget = (applyCoinbase C ctx L).forgetting fun r => (r.1.forget, r.2) := by
  unfold applyCoinbase
  rw [Ledger.toStores_forget]
  dsimp only
  by_cases hzero : ctx.mining.rewardAt ctx.height L.minedEmitted = 0
  · rw [if_pos hzero, if_pos hzero]
    rfl
  rw [if_neg hzero, if_neg hzero, credit_forget]
  refine Except.forgetting_bind fun L1 => ?_
  rw [Ledger.addMinedEmitted_forget]
  cases L1.addMinedEmitted C (ctx.mining.rewardAt ctx.height L.minedEmitted) <;> rfl

theorem executeBlock_forget (txs : List SignedTransaction) : executeBlock E ctx L.forget txs =
      (executeBlock E ctx L txs).forgetting fun r => (r.1.forget, r.2) := by
  unfold executeBlock
  rw [applyCoinbase_forget]
  exact Except.forgetting_bind fun r => applyTransactions_forget txs

end Blocks
end Runtime
end Sov
