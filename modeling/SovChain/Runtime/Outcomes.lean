import SovChain.Runtime.Authorization
import SovChain.Runtime.Writes

/-!
# How an action ends

An action succeeds with its writes, fails with the state as it found it, or rejects the transaction before
it has written anything. `Tidy` says so of an arm, with the fields of the stores a success may write. Three
actions fail otherwise: a call keeps its fee, an approval drops the proposal it completed, and an Orchard
bundle may leave its pool half changed. A rejection after a write is an overflow, and `Roomy`, which a bounded
supply gives, rules it out.
-/

namespace Sov
open Codec

/-- The fields of the stores an action may write. -/
def Action.fields : Action → List Field
  | .transfer .. => [.account]
  | .call .. => [.tokenBalance, .tokenWindow, .contract]
  | .shielded _ => [.shielded, .shieldedValue, .deshieldWindow]
  | .shieldedV2 _ => [.shieldedV2, .shieldedV2Value, .deshieldV2Window]
  | .htlcLock .. => [.htlcLocked, .htlc]
  | .htlcClaim .. => [.htlcLocked, .htlc]
  | .htlcRefund .. => [.htlcLocked, .htlc]
  | .tokenIssue .. => [.token, .tokenBalance]
  | .tokenTransfer .. => [.tokenBalance, .tokenWindow]
  | .tokenBurn .. => [.token, .tokenBalance, .tokenWindow]
  | .tokenSetPolicy .. => [.tokenPolicy, .tokenWindow]
  | .intentSettle _ => [.account, .tokenBalance, .tokenWindow, .intent]
  | .intentCancel _ => [.intent]
  | .registerName _ => [.nft]
  | .transferName .. => [.nft]
  | .nftMint .. => [.nft, .nftClass]
  | .nftTransfer .. => [.nft]
  | .nftSetMeta .. => [.nft]
  | .setMultisig .. => [.multisig, .proposal]
  | .proposeMultisig .. => [.account, .proposal]
  | .approveMultisig .. => [.account, .proposal]
  | .cancelMultisig .. => [.proposal]
  | .vaultDeposit _ => [.vaultCollateral, .vault]
  | .vaultWithdraw _ => [.vaultCollateral, .vault]
  | .vaultMint _ => [.token, .tokenBalance, .vaultCollateral, .vault]
  | .vaultBurn _ => [.token, .tokenBalance, .vaultCollateral, .vault]
  | .oracleUpdate _ => [.oraclePrice]
  | _ => []

/-- There is room for everything the ledger could pay on top of what the signer has. -/
structure InFlight.Roomy (s : InFlight) : Prop where
  covered : s.ledger.EscrowsCovered
  room : s.ledger.supply + s.signer.balance.toNat < 2 ^ 128

namespace Arm

/-- A success writes only the fields in `K`, a failure changes nothing, and so does a rejection. -/
structure Tidy (r : Arm) (K : List Field) (s : InFlight) : Prop where
  alters : r.Ensures fun s' => Stores.Alters K s.ledger.toStores s'.ledger.toStores
  failsClean : r.FailsClean s
  rejects : s.Roomy → Except.Rejects r (· = s.ledger)

namespace Tidy
variable {K : List Field} {s s' : InFlight} {r : Arm} {reason : String}

theorem failed : (s.failed reason).Tidy K s := 
  ⟨.failed .refl, .failed, fun _ => Except.rejects_failed⟩

theorem done (h : Stores.Alters K s.ledger s'.ledger) : s'.done.Tidy K s :=
  ⟨.done h, fun _ _ he => (by cases he), fun _ => Except.rejects_done⟩

theorem reject {e : ExecutionError} : Tidy (.error (.reject s.ledger e)) K s :=
  ⟨ensures_error, fun _ _ he => (by cases he), fun _ => Except.rejects_reject rfl⟩

theorem overflow : Tidy s.overflow K s := reject

theorem panic : Tidy (.error .panic) K s :=
  ⟨ensures_error, fun _ _ he => (by cases he), fun _ => Except.rejects_panic⟩

theorem guard {c : Prop} [Decidable c] (h : ¬c → r.Tidy K s) : Tidy (if c then s.failed reason else r) K s := by
  split_ifs with hc
  · exact failed
  · exact h hc

end Tidy
end Arm

namespace Runtime
open Stores (Alters)
open Arm (Tidy)
section Arms
variable {C : Crypto} {ctx : BlockContext} {sid : AccountId} {s : InFlight}

/-! ## Native coin, accounts and escrows -/

variable {sender dest : AccountId} {amount : Balance} {L : Ledger} {nonce : U64} {recipient : AccountId}

theorem htlcLock_tidy {txId : Hash} {hashlock : Hash} {timeoutHeight : U64} :
    (htlcLock C sid txId recipient amount hashlock timeoutHeight s).Tidy [.htlcLocked, .htlc] s := by
  unfold htlcLock Ledger.lockHtlc
  split
  · exact .failed
  split_ifs
  · exact .failed
  cases s.ledger.htlcLocked.checkedAdd amount with
  | none => exact .failed
  | some n =>
    exact .done ((Alters.store (.htlcLocked n) (by simp)).snoc (.htlc _ _) (by simp))

variable {htlcId : Hash}

/-- The supply leaves room for an escrow on top of what the signer has. -/
theorem payOutHtlc_tidy : (payOutHtlc C htlcId s).Tidy [.htlcLocked, .htlc] s := by
  unfold payOutHtlc Ledger.settleHtlc
  rcases hid : s.ledger.htlcs.get? htlcId with _ | htlc
  · exact .failed
  simp only [Option.map_some]
  split
  · rename_i hb
    refine ⟨Arm.ensures_overflow, fun _ _ he => (by cases he), fun hroomy => ?_⟩
    rw [BitVec.checkedAdd_eq_none] at hb
    have hescrow := s.ledger.escrowed_store_none hid
    have hcovered := hroomy.covered
    have hroom := hroomy.room
    unfold Stores.EscrowsCovered at hcovered
    unfold Stores.supply Stores.offAccount at hroom
    omega
  · exact .done ((Alters.store (.htlcLocked _) (by simp)).snoc (.htlc _ _) (by simp))

/-! ## Tokens -/

variable {asset : Hash} {window : Option SpendWindow}

theorem mintTokens_alters {info : TokenInfo} {L' : Ledger} (h : mintTokens C asset info dest amount L = some L') :
    Alters [.token, .tokenBalance] L L' := by
  obtain ⟨_, _, -, -, rfl⟩ := mintTokens_eq_some h
  exact (Alters.store (.token _ _) (by simp)).snoc (.tokenBalance _ _ _) (by simp)

theorem storeWindow_alters {holder : AccountId} :
    Alters [.tokenWindow] L (storeWindow C L asset holder window) := by
  cases window with
  | none => exact .refl
  | some w => exact Alters.store (.tokenWindow _ _ _) (by simp)

theorem tokenSetPolicy_tidy {policy : CompliancePolicy} :
    (tokenSetPolicy C sid asset policy s).Tidy [.tokenPolicy, .tokenWindow] s := by
  unfold tokenSetPolicy
  split
  · exact .failed
  refine .guard fun _ => .guard fun _ => .done ?_
  exact (Alters.store (.tokenPolicy asset (some policy)) (by simp)).trans
    (Alters.foldl (C := C) (L := s.ledger.overwrite C (.tokenPolicy asset (some policy)))
      (g := fun holder => .tokenWindow asset holder none) (by simp))

/-! ## Intents -/

variable {settlement : Settlement}

theorem leg_write_alters {leg : SettleLeg} {debited credited : Balance} :
    Alters [.tokenBalance] L (leg.write C L sender debited recipient credited) := by
  cases leg with
  | native => exact .refl
  | token asset =>
    exact (Alters.store (.tokenBalance _ _ _) (by simp)).snoc (.tokenBalance _ _ _) (by simp)

theorem leg_writeWindow_alters {leg : SettleLeg} :
    Alters [.tokenWindow] L (leg.writeWindow C L sender window) := by
  cases leg with
  | native => exact .refl
  | token asset => exact storeWindow_alters

theorem settleIntentLegs_alters {L' : Ledger} {signer a : Account} {height : U64}
    (h : settleIntentLegs C L signer sid settlement height = .ok (.ok (L', a))) :
    Alters [.account, .tokenBalance, .tokenWindow] L L' := by
  obtain ⟨_, _, _, _, _, _, _, _, hswap⟩ := settleIntentLegs_eq_ok h
  rw [hswap.ledger]
  refine .trans ?_ (leg_writeWindow_alters.mono (by simp))
  refine .trans ?_ (leg_writeWindow_alters.mono (by simp))
  refine .trans ?_ (leg_write_alters.mono (by simp))
  refine .trans ?_ (leg_write_alters.mono (by simp))
  exact Alters.store (.account _ _) (by simp)

theorem consumeIntent_alters {id : Hash} : Alters [.intent] L (L.consumeIntent C id) := by
  unfold Ledger.consumeIntent
  split_ifs
  · exact Alters.store (.intent _ _) (by simp)
  · exact Alters.store (.intent _ _) (by simp)

theorem intentSettle_tidy :
    (intentSettle C ctx sid settlement s).Tidy [.account, .tokenBalance, .tokenWindow, .intent] s := by
  refine ⟨fun s' status h => ?_, intentSettle_failsClean, fun _ => intentSettle_clean⟩
  obtain ⟨rfl, -⟩ | ⟨-, -, -, -, L, a, hlegs, rfl⟩ := intentSettle_eq_ok h
  · exact .refl
  · exact .trans ((settleIntentLegs_alters hlegs).mono (by simp)) (consumeIntent_alters.mono (by simp))

/-! ## Names and NFTs -/

theorem registerName_tidy {name : String} : (registerName C ctx sid name s).Tidy [.nft] s := by
  unfold registerName
  split
  · exact .failed
  refine .guard fun _ => .guard fun _ => .guard fun _ => ?_
  split
  · exact .failed
  · exact .overflow
  refine .done ?_
  unfold Ledger.registerName Ledger.mintNft
  split_ifs
  · exact .refl
  · exact Alters.store (.nft _ _ _) (by simp)

variable {tokenId : Bytes} {collection : Hash}

theorem transferNft_alters : Alters [.nft] L ((L.transferNft C collection tokenId dest).getD L) := by
  unfold Ledger.transferNft
  cases L.nft collection tokenId with
  | none => exact .refl
  | some token => exact Alters.store (.nft _ _ _) (by simp)

theorem nftMint_tidy {symbol : String} {metadata : Bytes} :
    (nftMint C ctx sid symbol tokenId dest metadata s).Tidy [.nft, .nftClass] s := by
  unfold nftMint Ledger.mintNft
  dsimp only
  refine .guard fun _ => .guard fun _ => ?_
  split_ifs
  · exact .failed
  · exact .done ((Alters.store (.nft _ _ _) (by simp)).snoc (.nftClass _ _) (by simp))

theorem nftSetMeta_tidy {metadata : Bytes} : (nftSetMeta C sid collection tokenId metadata s).Tidy [.nft] s := by
  unfold nftSetMeta Ledger.setNftMeta
  split
  · exact .failed
  refine .guard fun _ => .done ?_
  cases s.ledger.nft collection tokenId with
  | none => exact .refl
  | some token => exact Alters.store (.nft _ _ _) (by simp)

/-! ## Multisig -/

theorem setMultisig_tidy {requiresHybrid : Bool} {signers : List PublicKey} {threshold : U16} :
    (setMultisig C sid requiresHybrid signers threshold s).Tidy [.multisig, .proposal] s := by
  unfold setMultisig
  dsimp only
  refine .guard fun _ => .guard fun _ => .guard fun _ => .guard fun _ => .done ?_
  exact (Alters.store (.multisig sid (some ⟨signers, threshold⟩)) (by simp)).trans
    (Alters.foldl (C := C) (L := s.ledger.setMultisig C sid ⟨signers, threshold⟩)
      (g := fun id => .proposal id none) (by simp))

variable {account : AccountId} {proposal : Hash} {key : PublicKey} {action : Action}

theorem executeFor_alters : (executeFor C account action s).Ensures fun s' =>
      Alters [.account] s.ledger s'.ledger := by
  unfold executeFor executeProposalAction
  split
  · unfold doTransfer
    dsimp only
    split
    · exact Arm.ensures_ok.mpr (Alters.store (.account _ _) (by simp))
    split_ifs
    · exact Arm.ensures_ok.mpr (Alters.store (.account _ _) (by simp))
    · split
      · exact Arm.ensures_error
      · exact Arm.ensures_ok.mpr ((Alters.store (.account _ _) (by simp)).snoc (.account _ _) (by simp))
  · exact Arm.ensures_ok.mpr .refl

theorem proposeMultisig_alters : (proposeMultisig C ctx key nonce account action s).Ensures fun s' =>
      Alters [.account, .proposal] s.ledger s'.ledger :=
  proposeMultisig_cases (·.Ensures _) (fun _ _ => .failed .refl)
    (fun _ _ _ _ _ _ => .done (Alters.store (.proposal _ _) (by simp)))
    fun _ => executeFor_alters.mono fun _ h => h.mono (by simp)

theorem proposeMultisig_clean : (proposeMultisig C ctx key nonce account action s).Rejects (· = s.ledger) :=
  proposeMultisig_cases (Except.Rejects · _) (fun _ _ => Except.rejects_failed)
    (fun _ _ _ _ _ _ => Except.rejects_done) fun _ => executeFor_clean

theorem approveMultisig_alters : (approveMultisig C ctx key account proposal s).Ensures fun s' =>
      Alters [.account, .proposal] s.ledger s'.ledger := by
  refine approveMultisig_cases (·.Ensures _) (fun _ _ => .failed .refl)
    (fun _ _ _ _ _ _ _ _ _ _ _ => .done (Alters.store (.proposal _ _) (by simp)))
    fun _ _ _ _ _ => ?_
  refine Arm.Ensures.map (f := fun s' => { s' with ledger := s'.ledger.removeProposal C proposal })
    (executeFor_alters.mono fun _ h => .trans (h.mono (by simp)) ?_)
  exact Alters.store (.proposal _ _) (by simp)

theorem approveMultisig_clean : (approveMultisig C ctx key account proposal s).Rejects (· = s.ledger) :=
  approveMultisig_cases (Except.Rejects · _) (fun _ _ => Except.rejects_failed)
    (fun _ _ _ _ _ _ _ _ _ _ _ => Except.rejects_done) fun _ _ _ _ _ => executeFor_clean.map

/-! ## Vaults and the price feed -/

theorem writeVault_tidy {K : List Field} {s0 : InFlight} {v : Vault}
    (h : Alters K s0.ledger s.ledger) (hK : [.vaultCollateral, .vault] ⊆ K) : (writeVault C sid v s).Tidy K s0 := by
  unfold writeVault
  split
  · exact .panic
  rename_i L hL
  unfold Ledger.setVault at hL
  simp only [Option.bind_eq_bind, Option.bind_eq_some_iff, Option.pure_def, Option.some.injEq] at hL
  obtain ⟨base, -, next, -, rfl⟩ := hL
  refine .done ((h.snoc (.vaultCollateral next) ?_).snoc (.vault _ _) ?_)
  · exact hK (by simp)
  · exact hK (by simp)

/-! ## Contract calls -/

variable {contract : AccountId}

theorem moves_alters {st st' : Stores} (h : Relation.ReflTransGen (Moves contract) st st') :
    Alters [.tokenBalance, .tokenWindow] st st' := by
  induction h with
  | refl => exact .refl
  | tail _ hmove ih =>
    cases hmove with
    | transfer =>
      exact (ih.snoc (.tokenBalance _ _ _) (by simp)).snoc (.tokenBalance _ _ _) (by simp)
    | window => exact ih.snoc (.tokenWindow _ _ _) (by simp)

variable {calldata : Bytes} {x : ExecState} {gasLimit : U64}

theorem call_alters {E : Env} {x' : ExecState} {status : ExecutionStatus}
    (h : call E ctx sid contract gasLimit calldata x = .ok (x', status)) :
    Alters [.tokenBalance, .tokenWindow, .contract] x.ledger x'.ledger := by
  obtain ⟨rfl, -⟩ | ⟨_, _, _, _, -, -, ⟨rfl, -⟩ | ⟨batch, _, hbatch, rfl, -⟩⟩ := call_cases h
  · exact .refl
  · exact .refl
  exact ((moves_alters (settleContractTokenTransfers_moves hbatch)).mono (by simp)).trans
    (Alters.foldl (C := E) (L := batch) (g := fun e : Bytes × Bytes => .contract contract e.1 (some e.2)) (by simp))

theorem call_failed {E : Env} {x' : ExecState} {reason : String}
    (h : call E ctx sid contract gasLimit calldata x = .ok (x', .failed reason)) :
    x'.ledger = x.ledger ∧ ∃ b : Balance, x'.signer = { x.signer with balance := b } := by
  obtain ⟨rfl, -⟩ | ⟨_, _, _, _, -, -, ⟨rfl, -⟩ | ⟨_, _, -, -, hst⟩⟩ := call_cases h
  · exact ⟨rfl, _, rfl⟩
  · exact ⟨rfl, _, rfl⟩
  · cases hst

end Arms
end Runtime
end Sov
