import SovChain.Runtime.Authorization

/-!
# What a transaction leaves of the accounts

Transactions move coin. Beyond that the signer's nonce goes up, and of everything else an account holds only the
signer's own changes, and only by claiming what has vested, deploying code or rotating the key.
-/

namespace Sov

/-- An account but for its coin. -/
def Account.standing (a : Account) : Account := { a with balance := 0 }

@[simp] theorem Account.standing_balance (a : Account) (b : Balance) :
    Account.standing { a with balance := b } = a.standing := rfl

theorem Account.key_of_standing {a b : Account} (h : a.standing = b.standing) : a.key = b.key := by
  have hkey : a.standing.key = b.standing.key := by rw [h]
  exact hkey

theorem Account.lock_of_standing {a b : Account} (h : a.standing = b.standing) :
    a.locked = b.locked ∧ a.unlockHeight = b.unlockHeight := by
  have hlocked : a.standing.locked = b.standing.locked := by rw [h]
  have hunlock : a.standing.unlockHeight = b.standing.unlockHeight := by rw [h]
  exact ⟨hlocked, hunlock⟩

/-- The arm does no more to the signer than to move coin. -/
abbrev Arm.Spends (r : Arm) (s : InFlight) : Prop := r.Ensures fun s' => s'.signer.standing = s.signer.standing

/-- The actions that change more of the signer than its coin. -/
def Action.Personal : Action → Prop
  | .claimVesting => True
  | .deploy _ => True
  | .rotateKey _ _ => True
  | _ => False

theorem Action.Personal.cases {action : Action} (h : action.Personal) :
    action = .claimVesting ∨ (∃ code, action = .deploy code) ∨ ∃ key proof, action = .rotateKey key proof := by
  cases action with
  | claimVesting => exact .inl rfl
  | deploy code => exact .inr (.inl ⟨code, rfl⟩)
  | rotateKey key proof => exact .inr (.inr ⟨key, proof, rfl⟩)
  | _ => exact h.elim

/-! ## The ledger's accounts -/

namespace Ledger
variable {C : Crypto} {L L' : Ledger} {id : AccountId}

theorem account_of_accounts (h : L'.accounts = L.accounts) : L'.account id = L.account id := by
  rw [Stores.account, h, Stores.account]

theorem standing_setAccount {id' : AccountId} {a : Account} (h : a.standing = (L.account id').standing) :
    ((L.setAccount C id' a).account id).standing = (L.account id).standing := by
  rw [account_setAccount]
  split_ifs with hid
  · subst hid
    exact h
  · rfl

end Ledger

section Effects
variable {C : Crypto} {G : Grant} {sid contract : AccountId} {s s' : InFlight} {st st' : Stores}

theorem Runtime.Moves.accounts (h : Relation.ReflTransGen (Runtime.Moves contract) st st') :
    st'.accounts = st.accounts := by
  induction h with
  | refl => rfl
  | tail _ hstep ih => cases hstep <;> exact ih

theorem accounts_of_permitted {op : UndoOp} (h : Permitted sid st op) : (st.store op).accounts = st.accounts := by
  cases op with
  | account => exact h.elim
  | _ => rfl

theorem Effect.standing (h : Effect C sid G s s') (id : AccountId) :
    (s'.ledger.account id).standing = (s.ledger.account id).standing := by
  cases h with
  | write op hp _ => exact congrArg Account.standing (Ledger.account_of_accounts (accounts_of_permitted hp))
  | signer | fee => rfl
  | pay | collect | touch => exact Ledger.standing_setAccount rfl
  | @exec vault dest amount b c hne =>
    have hvault := Ledger.account_setAccount_of_ne C s.ledger hne { s.ledger.account dest with balance := c }
    refine (Ledger.standing_setAccount ?_).trans (Ledger.standing_setAccount rfl)
    rw [hvault]
    rfl
  | shield | deshield | shieldV2 | deshieldV2 | pool | torn | lock | settle | burn | tokenMove => rfl
  | vault h =>
    obtain ⟨next, -, rfl⟩ := Ledger.setVault_eq_some h
    rfl
  | mint _ _ h =>
    obtain ⟨_, _, -, -, rfl⟩ := Runtime.mintTokens_eq_some h
    rfl
  | batch _ _ _ h =>
    have hmoves := Runtime.Moves.accounts (Runtime.settleContractTokenTransfers_moves h)
    exact congrArg Account.standing (Ledger.account_of_accounts hmoves)

theorem Effects.standing (h : Effects C sid G s s') (id : AccountId) :
    (s'.ledger.account id).standing = (s.ledger.account id).standing := by
  induction h with
  | refl => rfl
  | tail _ hstep ih => exact (hstep.standing id).trans ih

end Effects

namespace Runtime

/-! ## The signer -/

section Signers
open Arm (Spends)
variable {C : Crypto} {E : Env} {ctx : BlockContext} {sid : AccountId} {s : InFlight} {dest : AccountId}
  {amount : Balance} {htlcId : Hash}

theorem payOutHtlc_spends : Spends (payOutHtlc C htlcId s) s := by
  unfold payOutHtlc
  dsimp only
  repeat' split
  all_goals simp [InFlight.withBalance]

theorem intentSettle_spends {settlement : Settlement} : Spends (intentSettle C ctx sid settlement s) s := by
  intro s' status h
  obtain ⟨rfl, -⟩ | ⟨-, -, -, -, L, a, hlegs, rfl⟩ := intentSettle_eq_ok h
  · rfl
  · obtain ⟨_, _, _, _, _, _, _, _, hswap⟩ := settleIntentLegs_eq_ok hlegs
    rw [hswap.signer]
    rfl

variable {account : AccountId}

theorem executeFor_spends {action : Action} : Spends (executeFor C account action s) s := by
  intro s' status h
  unfold executeFor at h
  rcases hexec : executeProposalAction C s.ledger account action with e | r
  · simp [hexec, Except.map] at h
  simp only [hexec, Except.map, Except.ok.injEq, Prod.mk.injEq] at h
  rw [← h.1]

theorem call_spends {contract : AccountId} {gasLimit : U64} {calldata : Bytes} {x x' : ExecState}
    {status : ExecutionStatus} (h : call E ctx sid contract gasLimit calldata x = .ok (x', status)) :
    x'.signer.standing = x.signer.standing := by
  obtain ⟨rfl, -⟩ | ⟨_, _, _, _, -, -, ⟨rfl, -⟩ | ⟨_, _, -, rfl, -⟩⟩ := call_cases h <;> rfl

end Signers

section Transactions
variable {E : Env} {ctx : BlockContext} {stx : SignedTransaction} {p : Prepared} {L L' : Ledger} {receipt : Receipt}
  {x x' : ExecState} {status : ExecutionStatus}

theorem dispatch_spends (hpersonal : ¬p.action.Personal) (h : dispatch E ctx stx p x = .ok (x', status)) :
    x'.signer.standing = x.signer.standing := by
  unfold dispatch at h
  cases haction : p.action <;> simp only [haction] at h
  case claimVesting | deploy | rotateKey =>
    rw [haction] at hpersonal
    exact absurd trivial hpersonal
  case call => exact call_spends h
  case intentSettle => exact lift_ensures intentSettle_spends h
  case proposeMultisig account action =>
    refine lift_ensures (proposeMultisig_cases (Arm.Spends · x.toInFlight) (fun _ _ => ?_) (fun _ _ _ _ _ _ => ?_)
      fun _ => executeFor_spends) h
    all_goals simp
  case approveMultisig account proposal =>
    refine lift_ensures (approveMultisig_cases (Arm.Spends · x.toInFlight) (fun _ _ => ?_)
      (fun _ _ _ _ _ _ _ _ _ _ _ => ?_) fun _ _ _ _ _ => Arm.Ensures.map
        (f := fun s' => { s' with ledger := s'.ledger.removeProposal E proposal }) executeFor_spends) h
    all_goals simp
  case shielded =>
    refine lift_ensures (shielded_cases (Arm.Spends · x.toInFlight) (fun _ => ?_) fun _ _ _ _ _ _ => ?_) h
    · simp
    unfold applyShielded
    dsimp only
    repeat' split
    all_goals simp [InFlight.withBalance]
  case htlcClaim | htlcRefund =>
    refine lift_ensures (P := fun s => s.signer.standing = x.signer.standing) ?_ h
    simp only [htlcClaim, htlcRefund]
    repeat' split
    all_goals first | exact payOutHtlc_spends | simp
  case multisigExec =>
    obtain ⟨s, hs, rfl⟩ := lift_eq_ok.mp h
    cases hs
    rfl
  case tipped | timestamped => cases h
  case registerName =>
    refine lift_ensures (P := fun s => s.signer.standing = x.signer.standing) ?_ h
    -- Unfolded first: the fee is a large numeral.
    unfold registerName
    repeat' split
    all_goals simp [InFlight.withBalance]
  -- The other arms write the signer's balance at most.
  all_goals
    refine lift_ensures (P := fun s => s.signer.standing = x.signer.standing) ?_ h
    simp only [transfer, doTransfer, shieldedV2, applyV2, applyV2Out, htlcLock, tokenIssue,
      tokenTransfer, tokenBurn, tokenSetPolicy, intentCancel, transferName, nftMint, nftTransfer, nftSetMeta,
      setMultisig, cancelMultisig, vaultDeposit, vaultWithdraw, vaultMint, vaultBurn, writeVault, oracleUpdate]
    repeat' split
    all_goals simp [InFlight.withBalance]

end Transactions
end Runtime
end Sov
