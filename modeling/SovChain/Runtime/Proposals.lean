import SovChain.Runtime.Conservation

/-!
# Executing a multisig proposal

A proposal that reaches its threshold is executed on the ledger's own accounts, while the signer of the
transaction is in flight and overwrites the ledger's copy when the books close. As long as the signer is
neither the vault nor the payee the payment stands. When the signer is one of them, its side of the
payment is lost: coin is destroyed when the payee signs, and created when the vault does.
-/

namespace Sov
namespace Runtime
section Arms
variable {C : Crypto} {ctx : BlockContext} {key : PublicKey} {s s' : InFlight} {status : ExecutionStatus}

/-- Every account stays as it is. -/
structure Unpaid (s s' : InFlight) : Prop where
  signer : s'.signer = s.signer
  feePaid : s'.feePaid = s.feePaid
  supply : s'.ledger.supply = s.ledger.supply
  account : ∀ id, s'.ledger.account id = s.ledger.account id

/-- The ledger's account of `vault` pays the ledger's account of `payee`. -/
structure Paid (vault payee : AccountId) (amount : Balance) (s s' : InFlight) : Prop where
  signer : s'.signer = s.signer
  feePaid : s'.feePaid = s.feePaid
  supply : s'.ledger.supply = s.ledger.supply
  debited : (s.ledger.account vault).balance.toNat = (s'.ledger.account vault).balance.toNat + amount.toNat
  credited : (s'.ledger.account payee).balance.toNat = (s.ledger.account payee).balance.toNat + amount.toNat
  locked : ∀ id, (s'.ledger.account id).locked = (s.ledger.account id).locked
  others : ∀ id, id ≠ vault → id ≠ payee → s'.ledger.account id = s.ledger.account id

/-- `action` brings a transfer to the threshold of `vault`, which can afford it and does not pay
itself. -/
def Pays (C : Crypto) (ctx : BlockContext) (st : Stores) (key : PublicKey) (vault dest : AccountId)
    (amount : Balance) (action : Action) : Prop :=
  Approves ctx st key vault (.transfer dest amount) action ∧
    amount.toNat ≤ (st.account vault).balance.toNat ∧ resolveRecipient C st dest ≠ vault

variable {action : Action}

theorem Approves.unique {st : Stores} {vault vault' : AccountId} {inner inner' : Action}
    (h : Approves ctx st key vault inner action) (h' : Approves ctx st key vault' inner' action) :
    vault = vault' ∧ inner = inner' := by
  cases action with
  | proposeMultisig account proposed => exact ⟨h.1.symm.trans h'.1, h.2.1.symm.trans h'.2.1⟩
  | approveMultisig account proposal =>
    obtain ⟨hv, -, _, _, prop, -, -, hprop, -, -, haction⟩ := h
    obtain ⟨hv', -, _, _, prop', -, -, hprop', -, -, haction'⟩ := h'
    cases hprop.symm.trans hprop'
    exact ⟨hv.symm.trans hv', Option.some.inj (haction.symm.trans haction')⟩
  | _ => exact h.elim

variable {account : AccountId}

theorem executeFor_outcome (h : executeFor C account action s = .ok (s', status)) :
    (∃ dest amount, action = .transfer dest amount ∧ amount.toNat ≤ (s.ledger.account account).balance.toNat ∧
      resolveRecipient C s.ledger dest ≠ account ∧ Paid account (resolveRecipient C s.ledger dest) amount s s') ∨
    ((∀ dest amount, action = .transfer dest amount → amount.toNat ≤ (s.ledger.account account).balance.toNat →
      resolveRecipient C s.ledger dest = account) ∧ Unpaid s s') := by
  have htouch : Unpaid s { s with ledger := s.ledger.setAccount C account (s.ledger.account account) } :=
    ⟨rfl, rfl, by have := s.ledger.supply_setAccount C account (s.ledger.account account); simpa using this,
      fun id => by rw [Ledger.account_setAccount]; split_ifs with hid <;> simp [hid]⟩
  unfold executeFor executeProposalAction at h
  split at h
  · rename_i dest amount
    unfold doTransfer at h
    cases hb : (s.ledger.account account).balance.checkedSub amount with
    | none =>
      rw [hb] at h
      cases h
      rw [BitVec.checkedSub_eq_none] at hb
      refine .inr ⟨fun dest' amount' he hle => ?_, htouch⟩
      cases he
      omega
    | some remaining =>
      simp only [hb] at h
      rw [BitVec.checkedSub_eq_some] at hb
      by_cases hself : resolveRecipient C s.ledger dest = account
      · rw [if_pos hself] at h
        cases h
        refine .inr ⟨fun dest' amount' he _ => ?_, htouch⟩
        cases he
        exact hself
      · rw [if_neg hself] at h
        cases hc : (s.ledger.account (resolveRecipient C s.ledger dest)).balance.checkedAdd
            amount with
        | none =>
          rw [hc] at h
          cases h
        | some credited =>
          rw [hc] at h
          cases h
          rw [BitVec.checkedAdd_eq_some] at hc
          refine .inl ⟨dest, amount, rfl, by omega, hself, ?_⟩
          refine ⟨rfl, rfl, ?_, ?_, ?_, fun id => ?_, fun id hv hp => ?_⟩
          · have hpayee := s.ledger.supply_setAccount C (resolveRecipient C s.ledger dest)
              { s.ledger.account (resolveRecipient C s.ledger dest) with balance := credited }
            have hvault := (s.ledger.setAccount C (resolveRecipient C s.ledger dest)
              { s.ledger.account (resolveRecipient C s.ledger dest) with balance := credited
                }).supply_setAccount C account { s.ledger.account account with balance := remaining }
            rw [Ledger.account_setAccount_of_ne C s.ledger hself] at hvault
            simp only [Account.worth] at hpayee hvault ⊢
            omega
          · simp only [Ledger.account_setAccount_self]
            omega
          · rw [Ledger.account_setAccount_of_ne _ _ (Ne.symm hself), Ledger.account_setAccount_self]
            exact hc.symm
          · simp only [Ledger.account_setAccount]
            split_ifs with h1 h2 <;> simp_all
          · rw [Ledger.account_setAccount_of_ne _ _ (Ne.symm hv), Ledger.account_setAccount_of_ne _ _ (Ne.symm hp)]
  · rename_i htransfer
    cases h
    exact .inr ⟨fun dest amount he => absurd he (htransfer dest amount), rfl, rfl, rfl, fun _ => rfl⟩

/-- What is carried out pays, or it is not a payment that the vault can make. -/
theorem executeFor_pays {by_ : Action} (ha : Approves ctx s.ledger key account action by_)
    (h : executeFor C account action s = .ok (s', status)) :
    (∃ vault dest amount, Pays C ctx s.ledger key vault dest amount by_ ∧
      Paid vault (resolveRecipient C s.ledger dest) amount s s') ∨
    ((∀ vault dest amount, ¬Pays C ctx s.ledger key vault dest amount by_) ∧ Unpaid s s') := by
  obtain ⟨dest, amount, rfl, hle, hne, hpaid⟩ | ⟨hnone, hunpaid⟩ := executeFor_outcome h
  · exact .inl ⟨account, dest, amount, ⟨ha, hle, hne⟩, hpaid⟩
  refine .inr ⟨fun vault dest amount hpays => ?_, hunpaid⟩
  obtain ⟨ha', hle, hne⟩ := hpays
  obtain ⟨rfl, rfl⟩ := ha'.unique ha
  exact hne (hnone dest amount rfl hle)

theorem proposeMultisig_outcome {nonce : U64}
    (h : proposeMultisig C ctx key nonce account action s = .ok (s', status)) : (∃ vault dest amount,
      Pays C ctx s.ledger key vault dest amount (.proposeMultisig account action) ∧
      Paid vault (resolveRecipient C s.ledger dest) amount s s') ∨ ((∀ vault dest amount,
      ¬Pays C ctx s.ledger key vault dest amount (.proposeMultisig account action)) ∧ Unpaid s s') := by
  revert h
  refine proposeMultisig_cases (· = .ok (s', status) → _) (fun _ hno h => ?_) (fun _ _ hno _ _ _ h => ?_) fun ha h => ?_
  · cases h
    exact .inr ⟨fun vault dest amount hpays => hno vault _ hpays.1, rfl, rfl, rfl, fun _ => rfl⟩
  · cases h
    exact .inr ⟨fun vault dest amount hpays => hno vault _ hpays.1, rfl, rfl, rfl, fun _ => rfl⟩
  · exact executeFor_pays ha h

theorem Unpaid.mono {s1 : InFlight} (h : Unpaid s s1) (hs : s'.signer = s1.signer)
    (hf : s'.feePaid = s1.feePaid) (hc : s1.ledger.SameCoin s'.ledger) : Unpaid s s' :=
  ⟨hs.trans h.signer, hf.trans h.feePaid, hc.supply.trans h.supply,
    fun id => by rw [Stores.account, hc.accounts]; exact h.account id⟩

theorem Paid.mono {s1 : InFlight} {vault payee : AccountId} {amount : Balance}
    (h : Paid vault payee amount s s1) (hs : s'.signer = s1.signer) (hf : s'.feePaid = s1.feePaid)
    (hc : s1.ledger.SameCoin s'.ledger) : Paid vault payee amount s s' := by
  have haccount : ∀ id, s'.ledger.account id = s1.ledger.account id := fun id => by
    rw [Stores.account, hc.accounts, Stores.account]
  refine ⟨hs.trans h.signer, hf.trans h.feePaid, hc.supply.trans h.supply, ?_, ?_, fun id => ?_, fun id hv hp => ?_⟩
  · rw [haccount]
    exact h.debited
  · rw [haccount]
    exact h.credited
  · rw [haccount]
    exact h.locked id
  · rw [haccount]
    exact h.others id hv hp

theorem approveMultisig_outcome {proposal : Hash}
    (h : approveMultisig C ctx key account proposal s = .ok (s', status)) : (∃ vault dest amount,
      Pays C ctx s.ledger key vault dest amount (.approveMultisig account proposal) ∧
      Paid vault (resolveRecipient C s.ledger dest) amount s s') ∨ ((∀ vault dest amount,
      ¬Pays C ctx s.ledger key vault dest amount (.approveMultisig account proposal)) ∧ Unpaid s s') := by
  revert h
  refine approveMultisig_cases (· = .ok (s', status) → _) (fun _ hno h => ?_) (fun _ _ _ hno _ _ _ _ _ _ _ h => ?_)
    fun inner prop _ _ ha h => ?_
  · cases h
    exact .inr ⟨fun vault dest amount hpays => hno vault _ hpays.1, rfl, rfl, rfl, fun _ => rfl⟩
  · cases h
    exact .inr ⟨fun vault dest amount hpays => hno vault _ hpays.1, rfl, rfl, rfl, fun _ => rfl⟩
  rcases hexec : executeFor C account inner s with e | x
  · rw [hexec] at h
    cases h
  rw [hexec] at h
  cases h
  obtain ⟨vault, dest, amount, hpays, hpaid⟩ | ⟨hnone, hunpaid⟩ := executeFor_pays ha hexec
  · exact .inl ⟨vault, dest, amount, hpays, hpaid.mono rfl rfl ⟨rfl, rfl, rfl, rfl⟩⟩
  · exact .inr ⟨hnone, hunpaid.mono rfl rfl ⟨rfl, rfl, rfl, rfl⟩⟩

end Arms

section Transactions
variable {E : Env} {ctx : BlockContext} {stx : SignedTransaction} {p : Prepared} {L L' : Ledger}

/-- The transaction executes a transfer from `vault` to `dest`, for all the ledger before it shows. -/
def Executes (C : Crypto) (ctx : BlockContext) (st : Stores) (tx : Transaction) (vault dest : AccountId)
    (amount : Balance) : Prop :=
  execError C ctx st tx = none ∧ Pays C ctx st tx.publicKey vault dest amount tx.action.resolved

variable {x : ExecState}

theorem execute_proposal {status : ExecutionStatus} (hp : prepare E ctx L stx = .ok p)
    (hproposal : stx.transaction.action.resolved.isProposal = true) (hx : execute E ctx stx p L = .ok (x, status)) :
    p.feeFunded = none ∧ ((∃ vault dest amount, Executes E ctx L stx.transaction vault dest amount ∧
      Paid vault (resolveRecipient E L dest) amount ⟨L, p.signer, p.fee⟩ x.toInFlight) ∨
    ((∀ vault dest amount, ¬Executes E ctx L stx.transaction vault dest amount) ∧
      Unpaid ⟨L, p.signer, p.fee⟩ x.toInFlight)) := by
  have haction := prepare_action hp
  have herr := prepare_msError hp
  rw [← haction] at hproposal
  refine ⟨?_, ?_⟩
  · rcases hfee : p.feeFunded with _ | effects
    · rfl
    obtain ⟨⟨bundle, hv2⟩, -⟩ := prepare_feeFunded hp hfee
    rw [hv2] at hproposal
    cases hproposal
  · simp only [Executes, ← herr, ← haction]
    unfold execute at hx
    cases hms : p.msError with
    | some reason =>
      simp only [hms] at hx
      cases hx
      exact .inr ⟨fun _ _ _ h => absurd h.1 nofun, rfl, rfl, rfl, fun _ => rfl⟩
    | none =>
      simp only [hms, dispatch] at hx
      cases hcase : p.action with
      | proposeMultisig account inner =>
        simp only [hcase] at hx
        have hout := lift_ensures (fun s' st h => proposeMultisig_outcome h) hx
        simpa using hout
      | approveMultisig account proposal =>
        simp only [hcase] at hx
        have hout := lift_ensures (fun s' st h => approveMultisig_outcome h) hx
        simpa using hout
      | _ => simp [hcase, Action.isProposal] at hproposal

/-- A payment as it should stand after the transaction: `vault` has lost `amount` and `payee` has gained
it, apart from the `fees` that moved from the signer to the miner. -/
structure PaymentStands (L L' : Ledger) (sid miner vault payee : AccountId) (amount fees : ℕ) : Prop where
  debited : (L'.account vault).balance.toNat + amount + (if vault = sid then fees else 0) =
    (L.account vault).balance.toNat + if vault = miner then fees else 0
  credited : (L'.account payee).balance.toNat + (if payee = sid then fees else 0) =
    (L.account payee).balance.toNat + amount + if payee = miner then fees else 0

/-- The transaction executes a payment to or from its own signer. -/
def PaysSigner (C : Crypto) (ctx : BlockContext) (st : Stores) (tx : Transaction) : Prop :=
  ∃ vault dest amount, Executes C ctx st tx vault dest amount ∧ amount ≠ 0 ∧
    (tx.signer = vault ∨ tx.signer = resolveRecipient C st dest)

/-- The supply moves by what happened to the ledger's copy of the signer. -/
theorem proposal_supply (hp : prepare E ctx L stx = .ok p) (hfee : p.feeFunded = none)
    (hs : x.signer = p.signer) (hf : x.feePaid = p.fee) (hsupply : x.ledger.supply = L.supply)
    (hL : finish E ctx stx.transaction.signer p.tip x.toInFlight = .ok L') :
    L'.supply + (x.ledger.account stx.transaction.signer).worth =
      L.supply + (L.account stx.transaction.signer).worth := by
  have hstart := start_value hp
  have hfinish := finish_supply hL
  simp only [start, hfee, Option.isSome_none, Bool.false_eq_true, if_false, InFlight.value] at hstart
  simp only [InFlight.value, hs, hf] at hfinish
  omega

theorem paymentStands_of_paid {vault payee : AccountId} {amount : Balance}
    (hp : prepare E ctx L stx = .ok p) (hfee : p.feeFunded = none)
    (hpaid : Paid vault payee amount ⟨L, p.signer, p.fee⟩ x.toInFlight)
    (hL : finish E ctx stx.transaction.signer p.tip x.toInFlight = .ok L')
    (hparty : amount ≠ 0 → stx.transaction.signer ≠ vault ∧ stx.transaction.signer ≠ payee) :
    PaymentStands L L' stx.transaction.signer ctx.miner vault payee amount.toNat (p.fee.toNat + p.tip.toNat) := by
  obtain ⟨signer, action, nonce, balance, r, hadm⟩ := prepare_eq_ok hp
  have hbalance := hadm.balance_eq
  simp only [hfee, Option.isSome_none, Bool.false_eq_true, if_false] at hbalance
  have hsigner := hpaid.signer
  have hfeePaid := hpaid.feePaid
  have hdeb := hpaid.debited
  have hcred := hpaid.credited
  dsimp only at hsigner hfeePaid hdeb hcred
  have hparty : amount.toNat = 0 ∨ stx.transaction.signer ≠ vault ∧ stx.transaction.signer ≠ payee := by
    by_cases h0 : amount = 0
    · exact .inl (by simp [h0])
    · exact .inr (hparty h0)
  refine ⟨?_, ?_⟩
  · obtain ⟨b, hb, hnat⟩ := finish_account hL vault
    rw [hb]
    rw [hnat, hfeePaid]
    by_cases hv : vault = stx.transaction.signer
    · rw [if_pos hv, if_pos hv, hsigner]
      have h0 : amount.toNat = 0 := hparty.resolve_right fun h => h.1 hv.symm
      rw [hv, hbalance]
      omega
    · rw [if_neg hv, if_neg hv]
      omega
  · obtain ⟨b, hb, hnat⟩ := finish_account hL payee
    rw [hb]
    rw [hnat, hfeePaid]
    by_cases hv : payee = stx.transaction.signer
    · rw [if_pos hv, if_pos hv, hsigner]
      have h0 : amount.toNat = 0 := hparty.resolve_right fun h => h.2 hv.symm
      rw [hv, hbalance]
      omega
    · rw [if_neg hv, if_neg hv]
      omega

/-- A transaction that may execute a proposal conserves the supply and carries the payment out exactly,
unless the payment is to or from its own signer. -/
theorem proposal_conserves_iff (E : Env) (ctx : BlockContext) (L L' : Ledger) (stx : SignedTransaction)
    (receipt : Receipt) (t : Balance) (ht : L.totalSupply = some t)
    (hproposal : stx.transaction.action.resolved.isProposal = true)
    (h : applyTransaction E ctx L stx = .ok (L', receipt)) : (L'.totalSupply = L.totalSupply ∧
      ∀ vault dest amount fee, Executes E.toCrypto ctx L.toStores stx.transaction vault dest amount →
        intrinsicFee ctx stx.transaction = .ok fee → PaymentStands L L' stx.transaction.signer ctx.miner vault
          (resolveRecipient E.toCrypto L.toStores dest) amount.toNat (fee.toNat + stx.transaction.action.tip.toNat)) ↔
      ¬PaysSigner E.toCrypto ctx L.toStores stx.transaction := by
  obtain ⟨p, x, status, hp, hx, hL, -⟩ := applyTransaction_eq_ok h
  obtain ⟨signer, action, nonce, balance, r, hadm⟩ := prepare_eq_ok hp
  obtain ⟨hfee, hout⟩ := execute_proposal hp hproposal hx
  obtain ⟨vault, dest, amount, hexec, hpaid⟩ | ⟨hnone, hunpaid⟩ := hout
  · have hunique : ∀ v d a, Executes E ctx L stx.transaction v d a →
        v = vault ∧ d = dest ∧ a = amount := fun v d a h' => by
      obtain ⟨hv, hi⟩ := h'.2.1.unique hexec.2.1
      cases hi
      exact ⟨hv, rfl, rfl⟩
    have hsupply := proposal_supply hp hfee hpaid.signer hpaid.feePaid hpaid.supply hL
    constructor
    · -- The supply moves by the amount, up or down.
      rintro ⟨hsame, -⟩ ⟨v, d, a, h', h0, hsigner⟩
      obtain ⟨rfl, rfl, rfl⟩ := hunique v d a h'
      rw [ht, Stores.totalSupply_eq_some] at hsame
      rw [Stores.totalSupply_eq_some] at ht
      have h0 : a.toNat ≠ 0 := fun hz => h0 (BitVec.toNat_inj.mp (by simpa using hz))
      have hlocked := hpaid.locked stx.transaction.signer
      simp only [Account.worth, hlocked] at hsupply
      rcases hsigner with hv | hv
      · have hdeb := hpaid.debited
        dsimp only at hdeb
        rw [← hv] at hdeb
        omega
      · have hcred := hpaid.credited
        dsimp only at hcred
        rw [← hv] at hcred
        omega
    · intro hno
      have hparty : amount ≠ 0 → stx.transaction.signer ≠ vault ∧
          stx.transaction.signer ≠ resolveRecipient E L dest := fun h0 =>
        ⟨fun hv => hno ⟨vault, dest, amount, hexec, h0, .inl hv⟩,
          fun hv => hno ⟨vault, dest, amount, hexec, h0, .inr hv⟩⟩
      refine ⟨Stores.totalSupply_congr ?_, fun v d a fee h' hfee' => ?_⟩
      · have hcopy : (x.ledger.account stx.transaction.signer).worth =
            (L.account stx.transaction.signer).worth := by
          by_cases h0 : amount = 0
          · have hdeb := hpaid.debited
            have hcred := hpaid.credited
            have hlocked := hpaid.locked stx.transaction.signer
            simp only [h0, BitVec.ofNat_eq_ofNat, BitVec.toNat_ofNat, Nat.zero_mod, Nat.add_zero]
              at hdeb hcred
            simp only [Account.worth, hlocked]
            by_cases hv : stx.transaction.signer = vault
            · rw [hv, hdeb]
            · by_cases hr : stx.transaction.signer = resolveRecipient E L dest
              · rw [hr, hcred]
              · rw [hpaid.others _ hv hr]
          · rw [hpaid.others _ (hparty h0).1 (hparty h0).2]
        omega
      · obtain ⟨rfl, rfl, rfl⟩ := hunique v d a h'
        cases hadm.fee_eq.symm.trans hfee'
        rw [← hadm.tip_eq]
        exact paymentStands_of_paid hp hfee hpaid hL hparty
  · have hsupply := proposal_supply hp hfee hunpaid.signer hunpaid.feePaid hunpaid.supply hL
    have hcopy := hunpaid.account stx.transaction.signer
    constructor
    · rintro - ⟨v, d, a, h', -⟩
      exact hnone v d a h'
    intro _
    refine ⟨Stores.totalSupply_congr ?_, fun v d a _ h' => absurd h' (hnone v d a)⟩
    dsimp only at hcopy
    rw [hcopy] at hsupply
    omega

/-- A vault with a threshold of one and an account with the key of its only member. -/
def vaultLedger : Ledger :=
  (sampleLedger [("vault.sov", 10), ("alice.sov", 3)]).setMultisig sampleCrypto ⟨"vault.sov"⟩
    ⟨[sampleKey], 1⟩

/-- A member proposes a payment to itself and five grains are gone; the vault proposes one through its own
`multisigExec` and five grains are new. -/
theorem payment_to_signer_breaks_supply : (vaultLedger.totalSupply = some 13 ∧
      ((sampleApply vaultLedger
        (sampleTx "alice.sov" (.proposeMultisig ⟨"vault.sov"⟩ (.transfer ⟨"alice.sov"⟩ 5)))).toOption.map
          fun r => (r.2.status, r.1.totalSupply)) = some (.success, some 8)) ∧
    ((sampleApply vaultLedger (sampleTx "vault.sov" (.multisigExec
        (.proposeMultisig ⟨"vault.sov"⟩ (.transfer ⟨"alice.sov"⟩ 5))
        [⟨0, .v1Ed25519 (FixedBytes.zero 64)⟩]))).toOption.map
          fun r => (r.2.status, r.1.totalSupply)) = some (.success, some 18) := by
  refine ⟨⟨?_, ?_⟩, ?_⟩ <;> decide +kernel

/-- A member proposes a payment to someone else. -/
theorem payment_to_other_conserves : ∃ r, sampleApply vaultLedger
        (sampleTx "alice.sov" (.proposeMultisig ⟨"vault.sov"⟩ (.transfer ⟨"bob.sov"⟩ 5))) = .ok r ∧
      r.1.totalSupply = vaultLedger.totalSupply := by
  obtain ⟨r, hr⟩ := exists_of_toOption (x := sampleApply vaultLedger
    (sampleTx "alice.sov" (.proposeMultisig ⟨"vault.sov"⟩ (.transfer ⟨"bob.sov"⟩ 5)))) (by decide +kernel)
  refine ⟨r, hr, ((proposal_conserves_iff sampleEnv sampleContext vaultLedger r.1 _ r.2 13
    (by decide +kernel) (by decide) hr).mpr ?_).1⟩
  rintro ⟨vault, dest, amount, ⟨-, ⟨rfl, he, -⟩, -⟩, -, hsigner⟩
  cases he
  have hvault : ¬(⟨"alice.sov"⟩ : AccountId) = ⟨"vault.sov"⟩ := by decide
  have hpayee : ¬(⟨"alice.sov"⟩ : AccountId) =
      resolveRecipient sampleCrypto vaultLedger ⟨"bob.sov"⟩ := by decide +kernel
  exact hsigner.elim hvault hpayee

end Transactions
end Runtime
end Sov
