import SovChain.Runtime.Fees
import SovChain.Runtime.Proposals
import Mathlib.Data.List.Dedup

/-!
# Who can be debited

Seen from an account other than the signer, an effect can only take coin that an intent or a proposal of
the account hands over, and tokens that an intent of the account or its own contract code hands over.
`Bystander` collects what does not change otherwise; it composes along the effects, so a whole transaction
respects it.
-/

namespace Sov

/-- What one account other than the signer keeps between two ledgers, up to the grants `G`. -/
structure Bystander (G : Grant) (a : AccountId) (s s' : Stores) : Prop where
  balance : (s'.account a).balance.toNat < (s.account a).balance.toNat → G.intent a ∨ G.vault a
  locked : (s'.account a).locked = (s.account a).locked
  key : (s'.account a).key = (s.account a).key
  vault : s'.vault a = s.vault a
  tokens : ∀ asset, (s'.tokenBalance asset a).toNat < (s.tokenBalance asset a).toNat →
    G.intent a ∨ G.contract a
  policy : s'.multisig.get? a = s.multisig.get? a
  nfts : ∀ collection tokenId, s.nftOwner collection tokenId = some a →
    s'.nftOwner collection tokenId = some a

namespace Bystander
variable {C : Crypto} {G : Grant} {a sid : AccountId} {s s' s'' : Stores}

theorem refl : Bystander G a s s :=
  ⟨fun h => absurd h (lt_irrefl _), rfl, rfl, rfl, fun _ h => absurd h (lt_irrefl _), rfl, fun _ _ h => h⟩

theorem trans (h : Bystander G a s s') (h' : Bystander G a s' s'') : Bystander G a s s'' where
  balance hlt := by
    by_cases hle : (s''.account a).balance.toNat < (s'.account a).balance.toNat
    · exact h'.balance hle
    · exact h.balance (by omega)
  locked := h'.locked.trans h.locked
  key := h'.key.trans h.key
  vault := h'.vault.trans h.vault
  tokens asset hlt := by
    by_cases hle : (s''.tokenBalance asset a).toNat < (s'.tokenBalance asset a).toNat
    · exact h'.tokens asset hle
    · exact h.tokens asset (by omega)
  policy := h'.policy.trans h.policy
  nfts collection tokenId ho := h'.nfts collection tokenId (h.nfts collection tokenId ho)

theorem of_eq (haccounts : s'.accounts = s.accounts) (hvaults : s'.vaults = s.vaults)
    (htokens : s'.tokenBalances = s.tokenBalances) (hpolicy : s'.multisig = s.multisig)
    (hnfts : s'.nfts = s.nfts) : Bystander G a s s' := by
  have ha : s'.account a = s.account a := by rw [Stores.account, haccounts, Stores.account]
  have ht : ∀ asset, s'.tokenBalance asset a = s.tokenBalance asset a := fun asset => by
    rw [Stores.tokenBalance, htokens, Stores.tokenBalance]
  refine ⟨fun h => ?_, by rw [ha], by rw [ha], ?_, fun asset h => ?_, by rw [hpolicy], fun c t h => ?_⟩
  · rw [ha] at h
    exact absurd h (lt_irrefl _)
  · rw [Stores.vault, hvaults, Stores.vault]
  · rw [ht] at h
    exact absurd h (lt_irrefl _)
  · rw [Stores.nftOwner, Stores.nft, hnfts]
    exact h

theorem of_setAccount {L : Ledger} {id : AccountId} {acct : Account}
    (hlocked : acct.locked = (L.account id).locked) (hkey : acct.key = (L.account id).key)
    (hbalance : id = a → acct.balance.toNat < (L.account id).balance.toNat → G.intent a ∨ G.vault a) :
    Bystander G a L (L.setAccount C id acct) := by
  by_cases hid : id = a
  · subst hid
    have ha := Ledger.account_setAccount_self C L id acct
    refine ⟨fun h => ?_, ?_, ?_, rfl, fun _ h => absurd h (lt_irrefl _), rfl, fun _ _ h => h⟩
    · rw [ha] at h
      exact hbalance rfl h
    · rw [ha, hlocked]
    · rw [ha, hkey]
  · have ha := Ledger.account_setAccount_of_ne C L hid acct
    refine ⟨fun h => ?_, ?_, ?_, rfl, fun _ h => absurd h (lt_irrefl _), rfl, fun _ _ h => h⟩
    · rw [ha] at h
      exact absurd h (lt_irrefl _)
    · rw [ha]
    · rw [ha]

theorem of_tokenBalance {asset : Hash} {holder : AccountId} {b : Balance}
    (hb : holder = a → b.toNat < (s.tokenBalance asset holder).toNat → G.intent a ∨ G.contract a) :
    Bystander G a s (s.store (.tokenBalance asset holder (some b))) := by
  refine ⟨fun h => absurd h (lt_irrefl _), rfl, rfl, rfl, fun asset' h => ?_, rfl, fun _ _ h => h⟩
  rw [Stores.tokenBalance_store_tokenBalance] at h
  split_ifs at h with hcell
  · obtain ⟨rfl, rfl⟩ := hcell
    exact hb rfl h
  · exact absurd h (lt_irrefl _)

theorem of_permitted {op : UndoOp} (hne : a ≠ sid) (h : Permitted sid s op) : Bystander G a s (s.store op) := by
  cases op with
  | multisig account policy =>
    rcases policy with _ | policy
    · exact h.elim
    have hset := s.multisig.get?_set account a (some policy)
    rw [if_neg fun heq : account = a => hne (heq.symm.trans h)] at hset
    exact ⟨fun h => absurd h (lt_irrefl _), rfl, rfl, rfl, fun _ h => absurd h (lt_irrefl _), hset, fun _ _ h => h⟩
  | nft collection tokenId token =>
    rcases token with _ | token
    · exact h.elim
    refine ⟨fun h => absurd h (lt_irrefl _), rfl, rfl, rfl, fun _ h => absurd h (lt_irrefl _), rfl, fun c t ho => ?_⟩
    -- The item written is new or the signer's, so it is not one of this account's.
    have hother : ¬toLex (collection, tokenId) = toLex (c, t) := by
      intro heq
      obtain ⟨rfl, rfl⟩ := Prod.mk.inj (toLex.injective heq)
      rcases htoken : s.nft collection tokenId with _ | old
      · simp [Stores.nftOwner, htoken] at ho
      have howner := h old htoken
      simp only [Stores.nftOwner, htoken, Option.map_some, Option.some.injEq] at ho
      exact hne (ho.symm.trans howner)
    have hset := s.nfts.get?_set (toLex (collection, tokenId)) (toLex (c, t)) (some token)
    rw [if_neg hother] at hset
    simp only [Stores.nftOwner, Stores.nft, Stores.store] at ho ⊢
    rw [hset]
    exact ho
  | contract | tokenPolicy | tokenWindow | nftClass | proposal | intent | shielded | deshieldWindow
    | shieldedV2 | deshieldV2Window | oraclePrice => exact of_eq rfl rfl rfl rfl rfl
  | account | token | tokenBalance | htlc | minedEmitted | shieldedValue | htlcLocked | shieldedV2Value
    | vault | vaultCollateral => exact h.elim

end Bystander

section
variable {C : Crypto} {G : Grant} {a sid contract : AccountId} {s s' : InFlight} {st st' : Stores}

/-- The queue of a contract takes tokens from the contract alone. -/
theorem Runtime.Moves.bystander (h : Runtime.Moves contract st st') (hg : G.contract contract) :
    Bystander G a st st' := by
  cases h with
  | @transfer asset dest amount debited credited hasset hdest hdeb hcred =>
    have hcred := BitVec.checkedAdd_eq_some.mp hcred
    refine Bystander.trans (.of_tokenBalance fun hc _ => .inr (hc ▸ hg)) (.of_tokenBalance fun _ hlt => ?_)
    omega
  | window => exact .of_eq rfl rfl rfl rfl rfl

theorem Runtime.Moves.bystanders (h : Relation.ReflTransGen (Runtime.Moves contract) st st')
    (hg : G.contract contract) : Bystander G a st st' := by
  induction h with
  | refl => exact .refl
  | tail _ hstep ih => exact ih.trans (hstep.bystander hg)

theorem Effect.bystander (h : Effect C sid G s s') (hne : a ≠ sid) : Bystander G a s.ledger s'.ledger := by
  cases h with
  | write op hp _ => exact .of_permitted hne hp
  | signer | fee => exact .refl
  | @pay dest amount b c _ _ _ hc =>
    have hc := BitVec.checkedAdd_eq_some.mp hc
    refine .of_setAccount rfl rfl fun _ hlt => ?_
    dsimp only at hlt
    omega
  | @collect owner amount b c _ hg => exact .of_setAccount rfl rfl fun ho _ => .inl (ho ▸ hg)
  | touch => exact .of_setAccount rfl rfl fun _ hlt => absurd hlt (lt_irrefl _)
  | @exec vault dest amount b c hvd hg _ _ _ hc =>
    have hc := BitVec.checkedAdd_eq_some.mp hc
    have hvault := Ledger.account_setAccount_of_ne C s.ledger hvd
      { s.ledger.account dest with balance := c }
    have hpaid : Bystander G a s.ledger
        (s.ledger.setAccount C dest { s.ledger.account dest with balance := c }) :=
      .of_setAccount rfl rfl fun _ hlt => by dsimp only at hlt; omega
    refine hpaid.trans (.of_setAccount ?_ ?_ fun hv _ => .inr (hv ▸ hg))
    · rw [hvault]
    · rw [hvault]
  | shield | deshield | shieldV2 | deshieldV2 | pool | torn | lock | settle => exact .of_eq rfl rfl rfl rfl rfl
  | @vault v L b h =>
    obtain ⟨next, -, rfl⟩ := Ledger.setVault_eq_some h
    refine ⟨fun h => absurd h (lt_irrefl _), rfl, rfl, ?_, fun _ h => absurd h (lt_irrefl _), rfl, fun _ _ h => h⟩
    have hread := (s.ledger.overwrite C (.vaultCollateral next)).vault_store_vault sid a v
    rw [if_neg (Ne.symm hne)] at hread
    exact hread
  | @mint asset info dest amount L _ _ h =>
    obtain ⟨issued, credited, -, hcred, rfl⟩ := Runtime.mintTokens_eq_some h
    have hcred := BitVec.checkedAdd_eq_some.mp hcred
    have hrecord : Bystander G a s.ledger (s.ledger.setToken C asset { info with issued }) :=
      .of_eq rfl rfl rfl rfl rfl
    refine hrecord.trans (.of_tokenBalance fun _ hlt => ?_)
    have hlt : credited.toNat < (s.ledger.tokenBalance asset dest).toNat := hlt
    omega
  | @burn asset info amount remaining burned =>
    have hrecord : Bystander G a s.ledger (s.ledger.setToken C asset { info with burned }) :=
      .of_eq rfl rfl rfl rfl rfl
    exact hrecord.trans (.of_tokenBalance fun hs _ => absurd hs.symm hne)
  | @tokenMove asset sender dest amount debited credited hsd hg _ _ _ _ hcred =>
    have hcred := BitVec.checkedAdd_eq_some.mp hcred
    refine Bystander.trans (.of_tokenBalance fun hs _ => ?_) (.of_tokenBalance fun _ hlt => ?_)
    · exact .inl (hs ▸ hg.resolve_left fun he => hne (hs.symm.trans he))
    · rw [Stores.tokenBalance_store_tokenBalance, if_neg fun hc => hsd hc.2.symm] at hlt
      omega
  | batch hg _ _ h => exact Runtime.Moves.bystanders (Runtime.settleContractTokenTransfers_moves h) hg

theorem Effects.bystander (h : Effects C sid G s s') (hne : a ≠ sid) : Bystander G a s.ledger s'.ledger := by
  induction h with
  | refl => exact .refl
  | tail _ hstep ih => exact ih.trans (hstep.bystander hne)

end

namespace Arm

/-- A failed status comes with the state as it was. -/
def FailsClean (r : Arm) (s : InFlight) : Prop := ∀ s' reason, r = .ok (s', .failed reason) → s' = s

theorem FailsClean.failed {s : InFlight} {reason : String} : FailsClean (s.failed reason) s :=
  fun _ _ h => by cases h; rfl

end Arm

namespace Runtime
variable {E : Env} {ctx : BlockContext} {stx : SignedTransaction} {p : Prepared} {L L' : Ledger} {receipt : Receipt}
  {C : Crypto} {settlement : Settlement}

theorem intentSettle_failsClean {sid : AccountId} {s : InFlight} :
    (intentSettle C ctx sid settlement s).FailsClean s := by
  intro s' reason h
  obtain ⟨hs, -⟩ | ⟨hok, -⟩ := intentSettle_eq_ok h
  · exact hs
  · cases hok

/-- What a transaction draws on beyond its signer. -/
def txGrant (C : Crypto) (ctx : BlockContext) (st : Stores) (tx : Transaction) : Grant where
  intent a := ∃ settlement, tx.action.resolved = .intentSettle settlement ∧
    settlement.intent.intent.owner = a ∧ Consents C ctx st settlement
  contract a := ∃ gasLimit calldata, tx.action.resolved = .call a gasLimit calldata
  vault a := ∃ inner, Approves ctx st tx.publicKey a inner tx.action.resolved
  pool := True
  mentions _ := True

theorem covers_txGrant (C : Crypto) (ctx : BlockContext) (st : Stores) (tx : Transaction) :
    Covers C ctx st tx.signer tx.publicKey tx.action.resolved (txGrant C ctx st tx) where
  signer := trivial
  wellFormed _ _ := trivial
  ids _ _ := trivial
  owners _ _ _ _ := trivial
  windows _ _ _ := trivial
  proposals _ _ _ _ _ _ := trivial
  proposed _ _ _ _ _ _ := trivial
  intent settlement ha hc := ⟨settlement, ha, rfl, hc⟩
  contract _ gasLimit calldata ha := ⟨gasLimit, calldata, ha⟩
  vault _ inner ha := ⟨inner, ha⟩
  pool _ _ := trivial

variable {a : AccountId}

/-- Closing the books takes from no account but the signer. -/
theorem finish_bystander {sid : AccountId} {tip : Balance} {s : InFlight} {G : Grant}
    (h : finish C ctx sid tip s = .ok L) (hne : a ≠ sid) : Bystander G a s.ledger L := by
  obtain ⟨b, hb, hnat⟩ := finish_account h a
  rw [if_neg hne] at hb hnat
  have hstores := finish_stores h
  refine ⟨fun hlt => ?_, ?_, ?_, ?_, fun asset hlt => ?_, ?_, fun c t ho => ?_⟩
  · rw [hb] at hlt
    dsimp only at hlt
    omega
  · rw [hb]
  · rw [hb]
  · rw [hstores]
    rfl
  · rw [hstores] at hlt
    exact absurd hlt (lt_irrefl _)
  · rw [hstores]
  · rw [hstores]
    exact ho

theorem applyTransaction_bystander (h : applyTransaction E ctx L stx = .ok (L', receipt))
    (hne : a ≠ stx.transaction.signer) : Bystander (txGrant E ctx L stx.transaction) a L L' := by
  obtain ⟨p, x, status, hp, hx, hL, -⟩ := applyTransaction_eq_ok h
  have hG := covers_txGrant E ctx L stx.transaction
  rw [← prepare_action hp] at hG
  exact ((execute_effects hp hG hx).bystander hne).trans (finish_bystander hL hne)

theorem executes_of_lt (h : applyTransaction E ctx L stx = .ok (L', receipt))
    (hne : a ≠ stx.transaction.signer) (hproposal : stx.transaction.action.resolved.isProposal = true)
    (hlt : (L'.account a).balance.toNat < (L.account a).balance.toNat) :
    ∃ dest amount, Executes E ctx L stx.transaction a dest amount := by
  obtain ⟨p, x, status, hp, hx, hL, -⟩ := applyTransaction_eq_ok h
  obtain ⟨-, hout⟩ := execute_proposal hp hproposal hx
  obtain ⟨b, hb, hnat⟩ := finish_account hL a
  rw [if_neg hne] at hb hnat
  rw [hb] at hlt
  dsimp only at hlt
  obtain ⟨vault, dest, amount, hexec, hpaid⟩ | ⟨-, hunpaid⟩ := hout
  · by_cases hv : a = vault
    · exact ⟨dest, amount, hv ▸ hexec⟩
    by_cases hr : a = resolveRecipient E L dest
    · have hcred := hpaid.credited
      dsimp only at hcred
      rw [← hr] at hcred
      omega
    · have hother := hpaid.others a hv hr
      dsimp only at hother
      rw [hother] at hnat
      omega
  · have hsame := hunpaid.account a
    dsimp only at hsame
    rw [hsame] at hnat
    omega

theorem success_of_intentSettle
    (h : applyTransaction E ctx L stx = .ok (L', receipt)) (hne : a ≠ stx.transaction.signer)
    (haction : stx.transaction.action.resolved = .intentSettle settlement)
    (hloss : (L'.account a).balance.toNat < (L.account a).balance.toNat ∨
      ∃ asset, (L'.tokenBalance asset a).toNat < (L.tokenBalance asset a).toNat) : receipt.status = .success := by
  obtain ⟨p, x, status, hp, hx, hL, rfl⟩ := applyTransaction_eq_ok h
  cases status with
  | success => rfl
  | failed reason =>
    exfalso
    have hx' : x.toInFlight = ⟨L, p.signer, p.fee⟩ := by
      unfold execute at hx
      dsimp only at hx
      cases hms : p.msError with
      | some reason' =>
        simp only [hms] at hx
        cases hx
        rfl
      | none =>
        simp only [hms, dispatch, (prepare_action hp).trans haction, lift] at hx
        cases harm : intentSettle E ctx stx.transaction.signer settlement
            ⟨L, p.signer, p.fee⟩ with
        | error e =>
          rw [harm] at hx
          cases hx
        | ok out =>
          obtain ⟨s', st⟩ := out
          rw [harm] at hx
          cases hx
          exact intentSettle_failsClean s' reason harm
    have hself := finish_bystander (G := ⟨fun _ => False, fun _ => False, fun _ => False, False, fun _ => False⟩)
      hL hne
    rw [hx'] at hself
    rcases hloss with hlt | ⟨asset, hlt⟩
    · exact (hself.balance hlt).elim id id
    · exact (hself.tokens asset hlt).elim id id

/-- An account has less coin, less collateral or fewer items than before. -/
def LosesCoin (s s' : Stores) (a : AccountId) : Prop :=
  (s'.account a).balance.toNat < (s.account a).balance.toNat ∨
    (s'.account a).locked.toNat < (s.account a).locked.toNat ∨
    (s'.vault a).collateral.toNat < (s.vault a).collateral.toNat ∨
    ∃ collection tokenId, s.nftOwner collection tokenId = some a ∧ s'.nftOwner collection tokenId ≠ some a

/-- An account has fewer tokens of some asset than before. -/
def LosesTokens (s s' : Stores) (a : AccountId) : Prop :=
  ∃ asset, (s'.tokenBalance asset a).toNat < (s.tokenBalance asset a).toNat

/-- The accounts that have agreed to be debited: the signer, the vault of a proposal the transaction
executes, and the owner of an intent it settles. -/
def Consenting (C : Crypto) (ctx : BlockContext) (st : Stores) (tx : Transaction)
    (status : ExecutionStatus) (a : AccountId) : Prop :=
  a = tx.signer ∨ (∃ dest amount, Executes C ctx st tx a dest amount) ∨
    ∃ settlement, tx.action.resolved = .intentSettle settlement ∧ status = .success ∧
      settlement.intent.intent.owner = a ∧ (st.account a).key = some settlement.intent.intent.publicKey ∧
      settlement.intent.verifyMode C ctx.txDomain = true

/-- Who the key of a transaction speaks for. -/
structure KeyBound (C : Crypto) (st : Stores) (tx : Transaction) : Prop where
  registered : ∀ key, st.multisig.get? tx.signer = none → (st.account tx.signer).key = some key →
    tx.publicKey = key
  implicit : st.multisig.get? tx.signer = none → (st.account tx.signer).key = none →
    tx.signer.isImplicit = true → tx.publicKey.implicitAccountId C = tx.signer
  member : ∀ policy, st.multisig.get? tx.signer = some policy → tx.publicKey ∈ policy.signers

variable {st : Stores}

theorem keyBound_of_authorize {tx : Transaction} {signer : Account} (h : authorize C st tx = .ok signer) :
    KeyBound C st tx := by
  obtain ⟨policy, hp, hmem, -, -⟩ | ⟨hp, hkey, -⟩ | ⟨hp, hkey, -, himp⟩ := authorize_eq_ok h
  · refine ⟨fun _ hn => ?_, fun hn => ?_, fun policy' hp' => ?_⟩
    · cases hp.symm.trans hn
    · cases hp.symm.trans hn
    · cases hp.symm.trans hp'
      exact hmem
  · refine ⟨fun key _ hk => ?_, fun _ hk => ?_, fun policy' hp' => ?_⟩
    · exact Option.some.inj (hkey.symm.trans hk)
    · cases hkey.symm.trans hk
    · cases hp.symm.trans hp'
  · refine ⟨fun key _ hk => ?_, fun _ _ hi => ?_, fun policy' hp' => ?_⟩
    · cases hkey.symm.trans hk
    · rcases himp with ⟨-, hid⟩ | ⟨hno, -⟩
      · exact hid
      · rw [hi] at hno
        cases hno
    · cases hp.symm.trans hp'

/-- Whoever has less after a transaction has agreed to it, apart from a contract that lets go of its own
tokens; and the transaction's key is the signer's. -/
theorem only_consenting_debited (E : Env) (ctx : BlockContext) (L L' : Ledger) (stx : SignedTransaction)
    (receipt : Receipt) (h : applyTransaction E ctx L stx = .ok (L', receipt)) :
    (∀ a, LosesCoin L.toStores L'.toStores a → Consenting E.toCrypto ctx L.toStores stx.transaction receipt.status a) ∧
    (∀ a, LosesTokens L.toStores L'.toStores a → Consenting E.toCrypto ctx L.toStores stx.transaction receipt.status a ∨
        ∃ gasLimit calldata, stx.transaction.action.resolved = .call a gasLimit calldata) ∧
    KeyBound E.toCrypto L.toStores stx.transaction := by
  refine ⟨fun a hloss => ?_, fun a hloss => ?_, ?_⟩
  · by_cases hne : a = stx.transaction.signer
    · exact .inl hne
    have hby := applyTransaction_bystander h hne
    obtain hlt | hlt | hlt | ⟨collection, tokenId, hown, hlost⟩ := hloss
    · obtain ⟨settlement, haction, rfl, hc⟩ | ⟨inner, happroves⟩ := hby.balance hlt
      · exact .inr (.inr ⟨settlement, haction, success_of_intentSettle h hne haction (.inl hlt), rfl,
          hc.key, hc.verified⟩)
      have hproposal : stx.transaction.action.resolved.isProposal = true := by
        generalize stx.transaction.action.resolved = action at happroves ⊢
        cases action <;> first | rfl | exact happroves.elim
      exact .inr (.inl (executes_of_lt h hne hproposal hlt))
    · rw [hby.locked] at hlt
      exact absurd hlt (lt_irrefl _)
    · rw [hby.vault] at hlt
      exact absurd hlt (lt_irrefl _)
    · exact absurd (hby.nfts collection tokenId hown) hlost
  · by_cases hne : a = stx.transaction.signer
    · exact .inl (.inl hne)
    obtain ⟨asset, hlt⟩ := hloss
    have hby := applyTransaction_bystander h hne
    obtain ⟨settlement, haction, rfl, hc⟩ | hcontract := hby.tokens asset hlt
    · exact .inl (.inr (.inr ⟨settlement, haction,
        success_of_intentSettle h hne haction (.inr ⟨asset, hlt⟩), rfl, hc.key, hc.verified⟩))
    · exact .inr hcontract
  · obtain ⟨p, x, status, hp, -⟩ := applyTransaction_eq_ok h
    obtain ⟨signer, action, nonce, balance, r, hadm⟩ := prepare_eq_ok hp
    exact keyBound_of_authorize hadm.authorized

/-- A transfer debits its signer. -/
theorem sample_transfer_debits_signer : ∃ r, sampleApply aliceFunded samplePayment = .ok r ∧
      LosesCoin aliceFunded.toStores r.1.toStores ⟨"alice.sov"⟩ ∧
      Consenting sampleCrypto sampleContext aliceFunded.toStores samplePayment.transaction r.2.status ⟨"alice.sov"⟩ := by
  have hbalance : (sampleApply aliceFunded samplePayment).toOption.map
        (fun r => (r.1.account ⟨"alice.sov"⟩).balance) = some 2 := by decide +kernel
  have hbefore : (aliceFunded.account ⟨"alice.sov"⟩).balance = 7 := by decide +kernel
  obtain ⟨r, hr, hafter⟩ := exists_of_map_toOption hbalance
  have hloss : LosesCoin aliceFunded r.1 ⟨"alice.sov"⟩ := .inl (by rw [hafter, hbefore]; decide)
  exact ⟨r, hr, hloss, (only_consenting_debited sampleEnv sampleContext _ r.1 _ r.2 hr).1 _ hloss⟩

/-! ## Multisig accounts -/

/-- At least `policy.threshold` valid approvals of distinct policy indices, over this account, nonce and
action. -/
def Quorum (C : Crypto) (policy : Multisig) (v : AccountId) (nonce : U64) (inner : Action)
    (approvals : List MultisigApproval) : Prop :=
  ∃ indices : List U16, indices.Nodup ∧ policy.threshold.toNat ≤ indices.length ∧
    ∀ i ∈ indices, ∃ ap ∈ approvals, ap.signer = i ∧ ∃ pk, policy.signers[i.toNat]? = some pk ∧
      pk.verify C (multisigSigningBytes v nonce inner) ap.signature = true

/-- A cast to 16 bits can only lower a count. -/
theorem le_of_le_ofNat {m n : ℕ} (h : m ≤ (BitVec.ofNat 16 n).toNat) : m ≤ n := by
  rw [BitVec.toNat_ofNat] at h
  exact h.trans (Nat.mod_le _ _)

variable {policy : Multisig}

theorem quorum_of_multisigError {tx : Transaction} {requiresHybrid : Bool} {inner : Action}
    {approvals : List MultisigApproval} (hpolicy : st.multisig.get? tx.signer = some policy)
    (h : multisigError C ctx st tx requiresHybrid inner approvals = none) :
    Quorum C policy tx.signer tx.nonce inner approvals := by
  unfold multisigError at h
  split at h
  · cases h
  simp only [hpolicy] at h
  split_ifs at h with hlt
  refine ⟨countedApprovals C ctx tx requiresHybrid policy inner approvals, List.nodup_dedup _,
    le_of_le_ofNat (Nat.le_of_not_lt hlt), fun i hi => ?_⟩
  unfold countedApprovals at hi
  rw [List.mem_dedup, List.mem_map] at hi
  obtain ⟨ap, hap, rfl⟩ := hi
  obtain ⟨hmem, hvalid⟩ := List.mem_filter.mp hap
  refine ⟨ap, hmem, rfl, ?_⟩
  rcases hpk : policy.signers[ap.signer.toNat]? with _ | pk
  · simp [hpk] at hvalid
  simp only [hpk, Bool.and_eq_true] at hvalid
  exact ⟨pk, rfl, hvalid.2⟩

/-- The stored proposals of an account list distinct indices of its policy. -/
def ProposalsValid (st : Stores) (v : AccountId) (policy : Multisig) : Prop :=
  ∀ id prop, st.proposals.get? id = some prop → prop.account = v →
    prop.approvers.Nodup ∧ ∀ i ∈ prop.approvers, i.toNat < policy.signers.length

/-- The action brings a proposal of `v` to at least `policy.threshold` approvals by distinct members: the
sender's own, and those stored with the proposal. -/
def Completes (ctx : BlockContext) (st : Stores) (policy : Multisig) (key : PublicKey) (v : AccountId)
    (action : Action) : Prop :=
  ∃ inner, Approves ctx st key v inner action ∧
    ∃ approvers : List U16, approvers.Nodup ∧ policy.threshold.toNat ≤ approvers.length ∧
      ∀ i ∈ approvers, i.toNat < policy.signers.length ∧ (memberIndex policy key = some i ∨
        ∃ account proposal prop, action = .approveMultisig account proposal ∧
          st.proposals.get? proposal = some prop ∧ prop.account = v ∧ i ∈ prop.approvers)

theorem memberIndex_lt {key : PublicKey} {i : U16} (h : memberIndex policy key = some i) :
    i.toNat < policy.signers.length := by
  unfold memberIndex at h
  split_ifs at h with hmem
  cases h
  rw [BitVec.toNat_ofNat]
  exact lt_of_le_of_lt (Nat.mod_le _ _) (List.idxOf_lt_length_iff.mpr hmem)

theorem completes_of_approves {key : PublicKey} {v : AccountId} {inner action : Action}
    (hpolicy : st.multisig.get? v = some policy) (hvalid : ProposalsValid st v policy)
    (h : Approves ctx st key v inner action) : Completes ctx st policy key v action := by
  refine ⟨inner, h, ?_⟩
  cases action with
  | proposeMultisig account proposed =>
    obtain ⟨-, -, -, -, policy', idx, hp, hidx, hmet⟩ := h
    cases hpolicy.symm.trans hp
    refine ⟨[idx], List.nodup_singleton _, le_of_le_ofNat (by simpa [thresholdMet] using hmet),
      fun i hi => ?_⟩
    cases List.mem_singleton.mp hi
    exact ⟨memberIndex_lt hidx, .inl hidx⟩
  | approveMultisig account proposal =>
    obtain ⟨rfl, -, policy', idx, prop, hp, hidx, hprop, hacct, hmet, -⟩ := h
    cases hpolicy.symm.trans hp
    obtain ⟨hnodup, hrange⟩ := hvalid proposal prop hprop hacct
    have hsub : ∀ hybridOnly, (retainedApprovers policy hybridOnly prop.approvers).Sublist
        prop.approvers := fun hybridOnly => by
      unfold retainedApprovers
      split_ifs
      · exact List.filter_sublist
      · exact List.Sublist.refl _
    refine ⟨_, ?_, le_of_le_ofNat (by simpa [thresholdMet] using hmet), fun i hi => ?_⟩
    · unfold addApprover
      split_ifs with hin
      · exact hnodup.sublist (hsub _)
      · exact List.nodup_append.mpr ⟨hnodup.sublist (hsub _), List.nodup_singleton _,
          fun a ha b hb => by cases List.mem_singleton.mp hb; exact fun he => hin (he ▸ ha)⟩
    · have hcases : i ∈ prop.approvers ∨ i = idx := by
        unfold addApprover at hi
        split_ifs at hi
        · exact .inl ((hsub _).subset hi)
        · rcases List.mem_append.mp hi with hi | hi
          · exact .inl ((hsub _).subset hi)
          · exact .inr (List.mem_singleton.mp hi)
      rcases hcases with hi | rfl
      · exact ⟨hrange i hi, .inr ⟨account, proposal, prop, rfl, hprop, hacct, hi⟩⟩
      · exact ⟨memberIndex_lt hidx, .inl hidx⟩
  | _ => exact h.elim

/-- An account has lost coin or tokens, or its policy or key is another. -/
def Touched (s s' : Stores) (v : AccountId) : Prop :=
  (s'.account v).balance.toNat < (s.account v).balance.toNat ∨
    (s'.account v).locked.toNat < (s.account v).locked.toNat ∨
    (s'.vault v).collateral.toNat < (s.vault v).collateral.toNat ∨ LosesTokens s s' v ∨
    s'.multisig.get? v ≠ s.multisig.get? v ∨ (s'.account v).key ≠ (s.account v).key

/-- Nothing happens to `v` but that it pays `fee` to the miner. -/
structure FeeOnly (s s' : Stores) (v miner : AccountId) (fee : ℕ) : Prop where
  balance : (s'.account v).balance.toNat + fee = (s.account v).balance.toNat + if v = miner then fee else 0
  locked : (s'.account v).locked = (s.account v).locked
  key : (s'.account v).key = (s.account v).key
  vault : s'.vault v = s.vault v
  tokens : ∀ asset, s'.tokenBalance asset v = s.tokenBalance asset v
  policy : s'.multisig.get? v = s.multisig.get? v

/-- Nothing happens to `v` but that tokens of it move and coin arrives. -/
structure TokensOnly (s s' : Stores) (v : AccountId) : Prop where
  balance : (s.account v).balance.toNat ≤ (s'.account v).balance.toNat
  locked : (s'.account v).locked = (s.account v).locked
  key : (s'.account v).key = (s.account v).key
  vault : s'.vault v = s.vault v
  policy : s'.multisig.get? v = s.multisig.get? v

/-- A member's transaction for the account that does not carry enough approvals costs its fee. -/
theorem feeOnly_of_execError {reason : String} (hpolicy : L.multisig.get? stx.transaction.signer = some policy)
    (herr : execError E ctx L stx.transaction = some reason) (h : applyTransaction E ctx L stx = .ok (L', receipt)) :
    ∃ fee, intrinsicFee ctx stx.transaction = .ok fee ∧ FeeOnly L L' stx.transaction.signer ctx.miner fee.toNat := by
  obtain ⟨p, x, status, hp, hx, hL, -⟩ := applyTransaction_eq_ok h
  obtain ⟨signer, action, nonce, balance, r, hadm⟩ := prepare_eq_ok hp
  have hms : p.msError = some reason := hadm.msError_eq.trans herr
  have hfunded : p.feeFunded = none := by
    cases hfee : p.feeFunded with
    | none => rfl
    | some effects => cases hms.symm.trans (prepare_feeFunded hp hfee).2.1
  have htip : p.tip = 0 := by
    rw [hadm.prepared]
    obtain ⟨_, _, -, -, -, -, -, -, hnone⟩ | ⟨_, _, -, -, -, htip, -⟩ | ⟨-, -, rfl⟩ :=
      resolve_eq_ok hadm.resolved
    · rw [hadm.prepared] at hms
      cases hnone.symm.trans hms
    · exact htip
    · rfl
  have hsigner : signer = L.account stx.transaction.signer := by
    obtain ⟨_, -, -, -, hs⟩ | ⟨-, -, hs⟩ | ⟨hnone, -⟩ := authorize_eq_ok hadm.authorized
    · exact hs
    · exact hs
    · cases hpolicy.symm.trans hnone
  have hx' : x.toInFlight = ⟨L, p.signer, p.fee⟩ := by
    unfold execute at hx
    simp only [hms] at hx
    cases hx
    rfl
  have hbalance := hadm.balance_eq
  simp only [hfunded, htip, Option.isSome_none, Bool.false_eq_true, if_false] at hbalance
  obtain ⟨b, hb, hnat⟩ := finish_account hL stx.transaction.signer
  have hstores := finish_stores hL
  rw [hx'] at hb hnat hstores
  rw [if_pos rfl] at hb hnat
  have hkey : p.signer.key = (L.account stx.transaction.signer).key := by rw [hadm.prepared, hsigner]
  refine ⟨p.fee, hadm.fee_eq, ?_, ?_, ?_, ?_, fun asset => ?_, ?_⟩
  · rw [hb]
    dsimp only
    rw [hnat, htip, hbalance]
    simp only [BitVec.ofNat_eq_ofNat, BitVec.toNat_ofNat, Nat.zero_mod]
    split_ifs <;> omega
  · rw [hb]
    exact hadm.locked_eq
  · rw [hb]
    exact hkey
  · rw [hstores]
    rfl
  · rw [hstores]
    rfl
  · rw [hstores]

/-- What it takes to touch a multisig account: a `multisigExec` for it with a quorum, or the proposal or
approval that completes one of its proposals. Short of that a member can make it pay the fee of an
execution that does not come about, and a contract lets go of its own tokens. -/
theorem multisig_needs_threshold (E : Env) (ctx : BlockContext) (L L' : Ledger) (stx : SignedTransaction)
    (receipt : Receipt) (v : AccountId) (policy : Multisig) (hpolicy : L.multisig.get? v = some policy)
    (hvalid : ProposalsValid L.toStores v policy)
    (h : applyTransaction E ctx L stx = .ok (L', receipt)) (ht : Touched L.toStores L'.toStores v) :
    (∃ inner approvals, stx.transaction.signer = v ∧ stx.transaction.action = .multisigExec inner approvals ∧
      (Quorum E.toCrypto policy v stx.transaction.nonce inner approvals ∨
        stx.transaction.publicKey ∈ policy.signers ∧ ∃ fee, intrinsicFee ctx stx.transaction = .ok fee ∧
          FeeOnly L.toStores L'.toStores v ctx.miner fee.toNat)) ∨
    Completes ctx L.toStores policy stx.transaction.publicKey v stx.transaction.action.resolved ∨
    (∃ gasLimit calldata, stx.transaction.action.resolved = .call v gasLimit calldata ∧
      TokensOnly L.toStores L'.toStores v) := by
  by_cases hv : v = stx.transaction.signer
  · -- The signer is the account itself: the gate lets only a `multisigExec` through.
    subst hv
    obtain ⟨p, x, status, hp, -⟩ := applyTransaction_eq_ok h
    obtain ⟨signer, action, nonce, balance, r, hadm⟩ := prepare_eq_ok hp
    have hgate := authorize_eq_ok hadm.authorized
    obtain ⟨policy', hp', hmember, hexec, -⟩ | ⟨hnone, -⟩ | ⟨hnone, -⟩ := hgate
    · cases hpolicy.symm.trans hp'
      cases haction : stx.transaction.action with
      | multisigExec inner approvals =>
        refine .inl ⟨inner, approvals, rfl, rfl, ?_⟩
        cases herr : execError E ctx L stx.transaction with
        | none =>
          have hquorum := herr
          simp only [execError, haction, Action.untimed] at hquorum
          exact .inl (quorum_of_multisigError hpolicy hquorum)
        | some reason => exact .inr ⟨hmember, feeOnly_of_execError hpolicy herr h⟩
      | _ => simp [haction, isMultisigExec] at hexec
    · cases hpolicy.symm.trans hnone
    · cases hpolicy.symm.trans hnone
  · have hby := applyTransaction_bystander h hv
    have hno : ¬(txGrant E ctx L stx.transaction).intent v := by
      rintro ⟨settlement, -, rfl, hc⟩
      cases hpolicy.symm.trans hc.noPolicy
    obtain hlt | hlt | hlt | ⟨asset, hlt⟩ | hne | hne := ht
    · obtain ⟨inner, happroves⟩ := (hby.balance hlt).resolve_left hno
      exact .inr (.inl (completes_of_approves hpolicy hvalid happroves))
    · rw [hby.locked] at hlt
      exact absurd hlt (lt_irrefl _)
    · rw [hby.vault] at hlt
      exact absurd hlt (lt_irrefl _)
    · obtain ⟨gasLimit, calldata, hcall⟩ := (hby.tokens asset hlt).resolve_left hno
      refine .inr (.inr ⟨gasLimit, calldata, hcall, ?_, hby.locked, hby.key, hby.vault, hby.policy⟩)
      by_contra hlt
      obtain ⟨inner, happroves⟩ := (hby.balance (Nat.lt_of_not_le hlt)).resolve_left hno
      rw [hcall] at happroves
      exact happroves
    · exact absurd hby.policy hne
    · exact absurd hby.key hne

/-- A vault of two million grains under a threshold of one. -/
def richVault : Ledger :=
  (sampleLedger [("vault.sov", 2000000)]).setMultisig sampleCrypto ⟨"vault.sov"⟩ ⟨[sampleKey], 1⟩

/-- A multisig account that is a contract and holds five tokens. -/
def contractVault : Ledger :=
  ((((sampleLedger [("alice.sov", 3)]).setAccount sampleCrypto ⟨"vault.sov"⟩
    { code := some [0] }).setMultisig sampleCrypto ⟨"vault.sov"⟩ ⟨[sampleKey], 1⟩).setToken sampleCrypto
      Hash.zero ⟨⟨"alice.sov"⟩, "TOK", 5, 0⟩).setTokenBalance sampleCrypto Hash.zero ⟨"vault.sov"⟩ 5

/-- An engine that queues a transfer of three tokens. -/
def queueingEnv : Env :=
  { sampleEnv with vm := fun _ => ⟨0, .ok ⟨[], [], [⟨Hash.zero, "alice.sov", 3⟩], []⟩⟩ }

/-- A vault of three members that is about to pay five grains. -/
def sharedVault (threshold : U16) (approvers : List U16) : Ledger :=
  ((sampleLedger [("vault.sov", 10), ("alice.sov", 3)]).setMultisig sampleCrypto ⟨"vault.sov"⟩
    ⟨[memberKey 1, sampleKey, memberKey 2], threshold⟩).setProposal sampleCrypto Hash.zero
      ⟨⟨"vault.sov"⟩, Action.codec.encode (.transfer ⟨"bob.sov"⟩ 5), approvers⟩

/-- The approval of the second member. -/
def aliceApproval : SignedTransaction := sampleTx "alice.sov" (.approveMultisig ⟨"vault.sov"⟩ Hash.zero)

/-- A member without any approval makes the vault pay a fee; a call to a multisig account that is a contract moves its
tokens; and an approval that is stored twice counts twice, so two members reach a threshold of three. -/
theorem multisig_touched_below_threshold : (richVault.multisig.get? ⟨"vault.sov"⟩ = some ⟨[sampleKey], 1⟩ ∧
      ((applyTransaction sampleEnv pricedContext richVault
        (sampleTx "vault.sov" (.multisigExec .claimVesting []))).toOption.map
          fun r => (r.1.account ⟨"vault.sov"⟩).balance) = some 1958000) ∧
    (contractVault.multisig.get? ⟨"vault.sov"⟩ = some ⟨[sampleKey], 1⟩ ∧
      contractVault.tokenBalance Hash.zero ⟨"vault.sov"⟩ = 5 ∧
      ((applyTransaction queueingEnv sampleContext contractVault
        (sampleTx "alice.sov" (.call ⟨"vault.sov"⟩ 0 []))).toOption.map
          fun r => r.1.tokenBalance Hash.zero ⟨"vault.sov"⟩) = some 2) ∧
    ((sharedVault 3 [0, 0]).account ⟨"vault.sov"⟩).balance = 10 ∧
      ((sampleApply (sharedVault 3 [0, 0]) aliceApproval).toOption.map
        fun r => (r.1.account ⟨"vault.sov"⟩).balance) = some 5 := by
  refine ⟨⟨?_, ?_⟩, ⟨?_, ?_, ?_⟩, ?_, ?_⟩ <;> decide +kernel

/-- The second approval of a proposal completes it under a threshold of two. -/
theorem sample_approval_completes : ∃ r, sampleApply (sharedVault 2 [0]) aliceApproval = .ok r ∧
      Touched (sharedVault 2 [0]).toStores r.1.toStores ⟨"vault.sov"⟩ ∧
      Completes sampleContext (sharedVault 2 [0]).toStores ⟨[memberKey 1, sampleKey, memberKey 2], 2⟩ sampleKey ⟨"vault.sov"⟩
        (.approveMultisig ⟨"vault.sov"⟩ Hash.zero) := by
  have hbalance : (sampleApply (sharedVault 2 [0]) aliceApproval).toOption.map
      (fun r => (r.1.account ⟨"vault.sov"⟩).balance) = some 5 := by decide +kernel
  have hbefore : ((sharedVault 2 [0]).account ⟨"vault.sov"⟩).balance = 10 := by decide +kernel
  obtain ⟨r, hr, hafter⟩ := exists_of_map_toOption hbalance
  have htouched : Touched (sharedVault 2 [0]) r.1 ⟨"vault.sov"⟩ := .inl (by rw [hafter, hbefore]; decide)
  have hstored : ∀ e ∈ (sharedVault 2 [0]).proposals.entries, e.2.approvers = [0] := by decide +kernel
  refine ⟨r, hr, htouched, ?_⟩
  obtain ⟨_, _, hsigner, -⟩ | hcompletes | ⟨_, _, hcall, -⟩ :=
    multisig_needs_threshold sampleEnv sampleContext (sharedVault 2 [0]) r.1 _ r.2 ⟨"vault.sov"⟩
      ⟨[memberKey 1, sampleKey, memberKey 2], 2⟩ (by decide +kernel)
      (fun _ _ hprop _ => by rw [hstored _ (OrdMap.get?_eq_some_iff.mp hprop)]; simp) hr htouched
  · exact absurd hsigner (by decide)
  · exact hcompletes
  · cases hcall

end Runtime
end Sov
