import SovChain.Runtime.Tokens

/-!
# The reserved issuer of xUSD

xUSD belongs to a named account that nobody is meant to hold. Nothing binds a key to it, but an account without a key
is there for the first `rotateKey` in its name, which only has to pay its fee. As long as the account holds less than the
cheapest one costs, it signs nothing, has no key and sets no policy.
-/

namespace Sov

/-- The issuer of xUSD. -/
def xusdReserve : AccountId := ⟨Vault.xusdIssuer⟩

namespace GenesisConfig
variable {C : Crypto} {config : GenesisConfig} {id : AccountId}

theorem build_get? {g : Genesis} (h : config.build C = .ok g) (hid : ∀ a ∈ config.accounts, a.account ≠ id) :
    g.ledger.accounts.get? id = none := by
  refine build_induct (I := fun _ L => L.accounts.get? id = none) rfl (fun a ha L hL => ?_) (fun hv hL => ?_) h
  · exact (OrdMap.get?_set _ _ _ _).trans ((if_neg (hid a ha)).trans hL)
  · obtain ⟨hexists, locked, -, rfl⟩ := vest_eq_ok hv
    refine (OrdMap.get?_set _ _ _ _).trans ((if_neg fun heq => ?_).trans hL)
    simp [Stores.exists_, OrdMap.contains, heq, hL] at hexists

end GenesisConfig

namespace Runtime
variable {E : Env} {ctx : BlockContext} {stx : SignedTransaction} {L L' : Ledger} {receipt : Receipt}

/-- Nobody acts for the issuer and nobody regulates xUSD. -/
structure Reserved (C : Crypto) (st : Stores) : Prop where
  key : (st.account xusdReserve).key = none
  multisig : st.multisig.get? xusdReserve = none
  policy : st.tokenPolicies.get? (xusdAssetId C) = none
  issuer : ∀ info, st.tokens.get? (xusdAssetId C) = some info → info.issuer = xusdReserve

/-- The least gas of a `rotateKey`. -/
def claimGas : U64 := Gas.intrinsic + Gas.bookkeeping + Gas.intentVerify

theorem claimGas_le {tx : Transaction} (h : isRotateKey tx.action = true) :
    claimGas.toNat ≤ (intrinsicGas tx).toNat := by
  have hgas : Gas.gasFor tx.action = claimGas := by
    cases htx : tx.action with
    | rotateKey => rfl
    | _ =>
      rw [htx] at h
      cases h
  rw [intrinsicGas, hgas]
  unfold Gas.envelope
  split <;> decide

/-- The issuer's account holds less than a `rotateKey` costs. -/
abbrev Unclaimable (ctx : BlockContext) (st : Stores) : Prop :=
  (st.account xusdReserve).balance.toNat < claimGas.toNat * ctx.gasPrice.toNat

theorem Reserved.signer_ne (hst : Reserved E L) (hclaim : Unclaimable ctx L)
    (h : applyTransaction E ctx L stx = .ok (L', receipt)) : stx.transaction.signer ≠ xusdReserve := by
  intro hsigner
  obtain ⟨p, x, status, hp, -, -, -⟩ := applyTransaction_eq_ok h
  obtain ⟨signer, action, nonce, balance, r, hadm⟩ := prepare_eq_ok hp
  have hauth := authorize_eq_ok hadm.authorized
  rw [hsigner, hst.multisig, hst.key] at hauth
  obtain ⟨policy, hpolicy, -⟩ | ⟨-, hkey, -⟩ | ⟨-, -, -, ⟨himplicit, -⟩ | ⟨-, hrotate⟩⟩ := hauth
  · cases hpolicy
  · cases hkey
  · revert himplicit
    decide
  have hgas := Nat.mul_le_mul_right ctx.gasPrice.toNat (claimGas_le hrotate)
  have hbalance := hadm.balance_eq
  have hfee := intrinsicFee_eq_ok hadm.fee_eq
  have hfunded : p.feeFunded = none := by
    rcases hfunded : p.feeFunded with _ | effects
    · rfl
    obtain ⟨⟨bundle, haction⟩, -⟩ := prepare_feeFunded hp hfunded
    rw [hadm.action_eq] at haction
    cases htx : stx.transaction.action with
    | rotateKey =>
      rw [htx] at haction
      cases haction
    | _ =>
      rw [htx] at hrotate
      cases hrotate
  rw [hfunded, hsigner] at hbalance
  simp only [Option.isSome_none, Bool.false_eq_true, if_false] at hbalance
  unfold Unclaimable at hclaim
  omega

variable {C : Crypto} {policy : CompliancePolicy}

theorem setTokenPolicy_policies {asset : Hash} :
    (L.setTokenPolicy C asset policy).tokenPolicies = L.tokenPolicies.set asset (some policy) := by
  have hwindows := Stores.Alters.foldl (K := [.tokenWindow]) (C := C)
    (L := L.overwrite C (.tokenPolicy asset (some policy))) (l := Ledger.windowHolders L asset)
    (g := fun holder => .tokenWindow asset holder none) (by simp)
  exact hwindows.same (f := .tokenPolicy) (by simp)

theorem tokenSetPolicy_policies {sid : AccountId} {asset asset' : Hash} {s : InFlight} :
    (tokenSetPolicy C sid asset policy s).Ensures fun s' =>
      s'.ledger.tokenPolicies.get? asset' = s.ledger.tokenPolicies.get? asset' ∨
        ∃ info, s.ledger.tokens.get? asset' = some info ∧ info.issuer = sid := by
  unfold tokenSetPolicy
  split
  · exact .failed (.inl rfl)
  rename_i info hinfo
  split_ifs with hissuer
  · exact .failed (.inl rfl)
  · exact .failed (.inl rfl)
  rw [Arm.ensures_done]
  dsimp only
  rw [setTokenPolicy_policies, OrdMap.get?_set]
  split_ifs with heq
  · exact .inr ⟨info, heq ▸ hinfo, by simpa using hissuer⟩
  · exact .inl rfl

theorem applyTransaction_policies (asset : Hash) (h : applyTransaction E ctx L stx = .ok (L', receipt)) :
    L'.tokenPolicies.get? asset = L.tokenPolicies.get? asset ∨
      ∃ info, L.tokens.get? asset = some info ∧ info.issuer = stx.transaction.signer := by
  by_cases hfields : .tokenPolicy ∈ stx.transaction.action.resolved.fields
  · obtain ⟨p, x, status, hp, hx, hL, -⟩ := applyTransaction_eq_ok h
    have hpolicies : L'.tokenPolicies = x.ledger.tokenPolicies := by rw [finish_stores hL]
    rw [hpolicies]
    unfold execute at hx
    dsimp only at hx
    split at hx
    · cases hx
      exact .inl rfl
    unfold dispatch at hx
    rw [prepare_action hp] at hx
    cases haction : stx.transaction.action.resolved <;> rw [haction] at hfields <;> simp only [haction] at hx
    case tokenSetPolicy => exact lift_ensures tokenSetPolicy_policies hx
    all_goals simp [Action.fields] at hfields
  · have hsame : L'.tokenPolicies = L.tokenPolicies := applyTransaction_same (f := .tokenPolicy) h hfields (by simp)
    rw [hsame]
    exact .inl rfl

theorem RecordStep.xusd_issuer {sid : AccountId} {action : Action} {tokens tokens' : OrdMap Hash TokenInfo}
    (h : RecordStep C sid tokens action tokens')
    (hold : ∀ info, tokens.get? (xusdAssetId C) = some info → info.issuer = xusdReserve)
    (hkept : ∀ info, tokens.get? (xusdAssetId C) = some info →
      ∃ info', tokens'.get? (xusdAssetId C) = some info' ∧ info'.issuer = info.issuer) :
    ∀ info, tokens'.get? (xusdAssetId C) = some info → info.issuer = xusdReserve := by
  intro info hinfo
  cases hbefore : tokens.get? (xusdAssetId C) with
  | some info0 =>
    obtain ⟨info', hinfo', hsame⟩ := hkept info0 hbefore
    cases hinfo.symm.trans hinfo'
    exact hsame.trans (hold info0 hbefore)
  | none =>
    -- The record is new, and only a mint makes one for xUSD.
    cases h with
    | keep => cases hbefore.symm.trans hinfo
    | issue hxusd =>
      rw [OrdMap.get?_set, if_neg hxusd] at hinfo
      cases hbefore.symm.trans hinfo
    | mint hissuer =>
      rw [OrdMap.get?_set_self] at hinfo
      cases hinfo
      exact hissuer hbefore
    | @burn _ asset info1 burned hinfo1 =>
      rw [OrdMap.get?_set] at hinfo
      split_ifs at hinfo with heq
      · cases hbefore.symm.trans (heq ▸ hinfo1)
      · cases hbefore.symm.trans hinfo

theorem Reserved.step (hst : Reserved E L) (hclaim : Unclaimable ctx L)
    (h : applyTransaction E ctx L stx = .ok (L', receipt)) : Reserved E L' := by
  have hne := hst.signer_ne hclaim h
  have hby := applyTransaction_bystander h (Ne.symm hne)
  refine ⟨hby.key.trans hst.key, hby.policy.trans hst.multisig, ?_, ?_⟩
  · obtain hsame | ⟨info, hinfo, hissuer⟩ := applyTransaction_policies (xusdAssetId E) h
    · exact hsame.trans hst.policy
    · exact absurd (hissuer.symm.trans (hst.issuer info hinfo)) hne
  · refine (applyTransaction_records h).xusd_issuer hst.issuer fun info hinfo => ?_
    obtain ⟨info', hinfo', hissuer, -⟩ := (applyTransaction_tokenStep h).record _ info hinfo
    exact ⟨info', hinfo', hissuer⟩

theorem Reserved.reward {reward : Balance} (hst : Reserved E L)
    (h : applyCoinbase E ctx L = .ok (L', reward)) : Reserved E L' := by
  obtain ⟨b, hb⟩ := applyCoinbase_account h xusdReserve
  have hstores := applyCoinbase_stores h
  refine ⟨?_, ?_, ?_, ?_⟩
  · rw [hb]
    exact hst.key
  · rw [hstores]
    exact hst.multisig
  · rw [hstores]
    exact hst.policy
  · rw [hstores]
    exact hst.issuer

theorem reserved_build {config : GenesisConfig} {g : Genesis} (hg : config.build E = .ok g)
    (hgenesis : ∀ a ∈ config.accounts, a.account ≠ xusdReserve) : Reserved E g.ledger := by
  have hnone := GenesisConfig.build_get? hg hgenesis
  have hstores := GenesisConfig.build_stores hg
  refine ⟨?_, ?_, ?_, ?_⟩
  · rw [Stores.account, hnone]
    rfl
  · rw [hstores]
    rfl
  · rw [hstores]
    rfl
  · rw [hstores]
    intro info hinfo
    cases hinfo

/-- From a genesis that does not fund the issuer: in a chain in which the issuer's account never holds what a claim costs,
it signs no transaction and has no key, and xUSD has no policy. -/
theorem xusd_unregulated_of_unclaimable (E : Env) (config : GenesisConfig) (g : Genesis) (height : ℕ)
    (accepted : List Step) (L : Ledger) (hg : config.build E.toCrypto = .ok g)
    (hgenesis : ∀ a ∈ config.accounts, a.account ≠ xusdReserve) (h : Chained E g.ledger 0 height accepted L)
    (hclaim : ∀ st ∈ accepted, Unclaimable st.ctx st.before.toStores) :
    (∀ st ∈ accepted, st.tx.transaction.signer ≠ xusdReserve) ∧ (L.account xusdReserve).key = none ∧
      L.tokenPolicies.get? (xusdAssetId E.toCrypto) = none := by
  have hrun : (∀ st ∈ accepted, Unclaimable st.ctx st.before) →
      (∀ st ∈ accepted, st.tx.transaction.signer ≠ xusdReserve) ∧ Reserved E L := by
    refine Chained.induct (I := fun _ accepted L =>
      (∀ st ∈ accepted, Unclaimable st.ctx st.before) →
        (∀ st ∈ accepted, st.tx.transaction.signer ≠ xusdReserve) ∧ Reserved E L)
      (fun _ => ⟨List.forall_mem_nil _, reserved_build hg hgenesis⟩)
      (fun hreward ih hclaim => ⟨(ih hclaim).1, (ih hclaim).2.reward hreward⟩) (fun _ hvalid ih hclaim => ?_) h
    rw [List.forall_mem_append, List.forall_mem_singleton] at hclaim ⊢
    obtain ⟨hsigners, hst⟩ := ih hclaim.1
    exact ⟨⟨hsigners, hst.signer_ne hclaim.2 hvalid⟩, hst.step hclaim.2 hvalid⟩
  obtain ⟨hsigners, hst⟩ := hrun hclaim
  exact ⟨hsigners, hst.key, hst.policy⟩

/-- One account, and it is not the issuer's. -/
def minterGenesis : GenesisConfig where
  chainId := "sov"
  timestampMs := 0
  accounts := [⟨⟨"alice.sov"⟩, memberKey 0, 1000000⟩]
  mining := sampleMining
  vesting := []

def minterLedger : Ledger :=
  minterGenesis.accounts.foldl (GenesisConfig.fund sampleCrypto) (Ledger.new sampleCrypto)

theorem minterGenesis_build : minterGenesis.build sampleCrypto =
    .ok ⟨minterLedger, minterGenesis.block sampleCrypto minterLedger, minterGenesis.coinbase⟩ := rfl

/-- Someone pays coin to the issuer, someone claims it, xUSD is minted, and the claimant freezes it. -/
def claimTxs : List SignedTransaction :=
  [numberedTx (memberKey 0) "alice.sov" 0 (.transfer xusdReserve 200000),
   numberedTx (memberKey 7) Vault.xusdIssuer 0 (.rotateKey (memberKey 7) (.v1Ed25519 (FixedBytes.zero 64))),
   numberedTx (memberKey 0) "alice.sov" 1 (.vaultDeposit 1000),
   numberedTx (memberKey 0) "alice.sov" 2 (.vaultMint 10),
   numberedTx (memberKey 7) Vault.xusdIssuer 1
     (.tokenSetPolicy (xusdAssetId sampleCrypto) ⟨true, .unrestricted, none⟩)]

/-- In one block at a gas price of one grain, the first holder of xUSD finds it frozen. -/
theorem claimed_reserve_freezes_xusd : ∃ g accepted L, minterGenesis.build sampleCrypto = .ok g ∧
      (∀ a ∈ minterGenesis.accounts, a.account ≠ xusdReserve) ∧ Chained sampleEnv g.ledger 0 1 accepted L ∧
      (∃ st ∈ accepted, st.tx.transaction.signer = xusdReserve) ∧ (L.account xusdReserve).key ≠ none ∧
      (L.tokenPolicies.get? (xusdAssetId sampleCrypto)).map CompliancePolicy.frozen = some true := by
  have hrun : (executeBlock sampleEnv pricedContext minterLedger claimTxs).toOption.map (fun r =>
      ((r.1.account xusdReserve).key,
        (r.1.tokenPolicies.get? (xusdAssetId sampleCrypto)).map CompliancePolicy.frozen)) =
      some (some (memberKey 7), some true) := by decide +kernel
  have hsigned : (blockSteps sampleEnv pricedContext minterLedger claimTxs).any (fun st =>
      decide (st.tx.transaction.signer = xusdReserve)) = true := by decide +kernel
  obtain ⟨⟨L, receipts⟩, hL, hafter⟩ := exists_of_map_toOption hrun
  obtain ⟨hkey, hfrozen⟩ := Prod.mk.inj hafter
  obtain ⟨st, hst, hsigner⟩ := List.any_eq_true.mp hsigned
  refine ⟨_, _, L, minterGenesis_build, by decide, .block .start rfl hL, ⟨st, hst, of_decide_eq_true hsigner⟩, ?_,
    hfrozen⟩
  rw [hkey]
  exact nofun

/-- Someone pays the issuer less than a claim costs, and xUSD is minted. -/
def mintTxs : List SignedTransaction :=
  [numberedTx (memberKey 0) "alice.sov" 0 (.transfer xusdReserve 1000),
   numberedTx (memberKey 0) "alice.sov" 1 (.vaultDeposit 1000),
   numberedTx (memberKey 0) "alice.sov" 2 (.vaultMint 10)]

theorem minted_xusd_unregulated :
    ∃ L, Chained sampleEnv minterLedger 0 1 (blockSteps sampleEnv pricedContext minterLedger mintTxs) L ∧
      (L.account xusdReserve).balance = 1000 ∧ L.issued (xusdAssetId sampleCrypto) = 10 ∧
      L.tokenPolicies.get? (xusdAssetId sampleCrypto) = none := by
  have hrun : (executeBlock sampleEnv pricedContext minterLedger mintTxs).toOption.map (fun r =>
      ((r.1.account xusdReserve).balance, r.1.issued (xusdAssetId sampleCrypto))) = some (1000, 10) := by
    decide +kernel
  have hpoor : (blockSteps sampleEnv pricedContext minterLedger mintTxs).all (fun st =>
      decide (Unclaimable st.ctx st.before)) = true := by decide +kernel
  obtain ⟨⟨L, receipts⟩, hL, hafter⟩ := exists_of_map_toOption hrun
  obtain ⟨hbalance, hissued⟩ := Prod.mk.inj hafter
  have hchain : Chained sampleEnv minterLedger 0 1 (blockSteps sampleEnv pricedContext minterLedger mintTxs) L :=
    .block .start rfl hL
  exact ⟨L, hchain, hbalance, hissued, (xusd_unregulated_of_unclaimable sampleEnv minterGenesis _ 1 _ L
    minterGenesis_build (by decide) hchain fun st hst => of_decide_eq_true (List.all_eq_true.mp hpoor st hst)).2.2⟩

end Runtime
end Sov
