import SovChain.Runtime.Failures
import SovChain.Runtime.Traces

/-!
# Tokens

The units of an asset enter circulation through its issuance counter and leave it through its burn counter.
Whatever moves them in between, a transfer, the legs of an intent or the queue of a contract, keeps their sum.
-/

namespace Sov
open OrdMap (get?_set)
namespace Stores
variable (s : Stores)

/-- The units of an asset that accounts hold. -/
def circulating (asset : Hash) : ℕ :=
  s.tokenBalances.sum fun k b => if (ofLex k).1 = asset then b.toNat else 0

/-- The issuance counter; an asset without a record has issued nothing. -/
def issued (asset : Hash) : ℕ := (s.tokens.get? asset).elim 0 fun info => info.issued.toNat

def burned (asset : Hash) : ℕ := (s.tokens.get? asset).elim 0 fun info => info.burned.toNat

/-- What is held is what was issued and not burned. -/
def TokensConserved : Prop := ∀ asset, s.circulating asset + s.burned asset = s.issued asset

/-- A policy belongs to an asset and a spend window to an asset with a policy. -/
structure TokensAnchored : Prop where
  policy : ∀ asset, (s.tokenPolicies.get? asset).isSome → (s.tokens.get? asset).isSome
  window : ∀ asset holder, (s.tokenWindows.get? (toLex (asset, holder))).isSome →
    (s.tokenPolicies.get? asset).isSome

theorem circulating_store (asset asset' : Hash) (holder : AccountId) (b : Balance) :
    (s.store (.tokenBalance asset holder (some b))).circulating asset' +
        (if asset = asset' then (s.tokenBalance asset holder).toNat else 0) =
      s.circulating asset' + if asset = asset' then b.toNat else 0 := by
  have hsum := s.tokenBalances.sum_set (fun k b => if (ofLex k).1 = asset' then b.toNat else 0)
    (toLex (asset, holder)) ((some b).filter (· ≠ 0))
  have hold : s.tokenBalances.weightAt (fun k b => if (ofLex k).1 = asset' then b.toNat else 0)
      (toLex (asset, holder)) = if asset = asset' then (s.tokenBalance asset holder).toNat else 0 := by
    rw [OrdMap.weightAt, tokenBalance]
    cases s.tokenBalances.get? (toLex (asset, holder)) with
    | none => simp
    | some old => rfl
  have hnew : ((some b).filter (· ≠ 0)).elim 0 (fun b : Balance => if asset = asset' then b.toNat else 0) =
      if asset = asset' then b.toNat else 0 := by
    by_cases hb : b = 0
    · simp [hb, Option.filter]
    · rw [Option.filter_some_pos (by simpa using hb), Option.elim_some]
  rw [hold] at hsum
  rw [← hnew]
  exact hsum

/-- The counters after the record of an asset is written. -/
theorem counters_store_token (asset asset' : Hash) (info : TokenInfo) :
    (s.store (.token asset (some info))).issued asset' =
        (if asset = asset' then info.issued.toNat else s.issued asset') ∧
      (s.store (.token asset (some info))).burned asset' =
        if asset = asset' then info.burned.toNat else s.burned asset' := by
  simp only [issued, burned, store, get?_set]
  split_ifs <;> exact ⟨rfl, rfl⟩

theorem circulating_transfer {asset asset' : Hash} {sender dest : AccountId} {amount debited credited : Balance}
    (hdeb : (s.tokenBalance asset sender).checkedSub amount = some debited)
    (hcred : ((s.store (.tokenBalance asset sender (some debited))).tokenBalance asset dest).checkedAdd
      amount = some credited) : ((s.store (.tokenBalance asset sender (some debited))).store
      (.tokenBalance asset dest (some credited))).circulating asset' = s.circulating asset' := by
  have hout := s.circulating_store asset asset' sender debited
  have hin := (s.store (.tokenBalance asset sender (some debited))).circulating_store asset asset' dest credited
  have hdeb := BitVec.checkedSub_eq_some.mp hdeb
  have hcred := BitVec.checkedAdd_eq_some.mp hcred
  split_ifs at hout hin <;> omega

end Stores

/-- What a step may do to the assets. The identity of an asset stays, its counters do not go back, and what comes
into circulation is what the counters say. -/
structure TokenStep (st st' : Stores) : Prop where
  moved : ∀ asset, st'.circulating asset + st'.burned asset + st.issued asset =
    st.circulating asset + st.burned asset + st'.issued asset
  record : ∀ asset info, st.tokens.get? asset = some info → ∃ info', st'.tokens.get? asset = some info' ∧
    info'.issuer = info.issuer ∧ info'.symbol = info.symbol ∧
    info.issued.toNat ≤ info'.issued.toNat ∧ info.burned.toNat ≤ info'.burned.toNat
  anchored : st.TokensAnchored → st'.TokensAnchored

namespace TokenStep
variable {st st' st'' : Stores} {asset : Hash} {sid : AccountId} {holder : AccountId}

theorem of_eq (htokens : st'.tokens = st.tokens) (hmoved : ∀ asset, st'.circulating asset = st.circulating asset)
    (hanchored : st.TokensAnchored → st'.TokensAnchored) : TokenStep st st' where
  moved asset := by
    have hissued : st'.issued asset = st.issued asset := by rw [Stores.issued, htokens, Stores.issued]
    have hburned : st'.burned asset = st.burned asset := by rw [Stores.burned, htokens, Stores.burned]
    rw [hissued, hburned, hmoved]
  record asset info h := ⟨info, htokens ▸ h, rfl, rfl, le_rfl, le_rfl⟩
  anchored := hanchored

theorem refl : TokenStep st st := of_eq rfl (fun _ => rfl) id

theorem trans (h : TokenStep st st') (h' : TokenStep st' st'') : TokenStep st st'' where
  moved asset := by
    have h1 := h.moved asset
    have h2 := h'.moved asset
    omega
  record asset info hinfo := by
    obtain ⟨info1, hinfo1, hissuer1, hsymbol1, hissued1, hburned1⟩ := h.record asset info hinfo
    obtain ⟨info2, hinfo2, hissuer2, hsymbol2, hissued2, hburned2⟩ := h'.record asset info1 hinfo1
    exact ⟨info2, hinfo2, hissuer2.trans hissuer1, hsymbol2.trans hsymbol1, hissued1.trans hissued2,
      hburned1.trans hburned2⟩
  anchored ha := h'.anchored (h.anchored ha)

theorem conserved (h : TokenStep st st') (hst : st.TokensConserved) : st'.TokensConserved := fun asset => by
  have := h.moved asset
  have := hst asset
  omega

theorem of_policy {policy : CompliancePolicy} (hasset : (st.tokens.get? asset).isSome) :
    TokenStep st (st.store (.tokenPolicy asset (some policy))) := by
  refine of_eq rfl (fun _ => rfl) fun ha => ⟨fun asset' hp => ?_, fun asset' holder hw => ?_⟩
  · simp only [Stores.store, get?_set] at hp
    split_ifs at hp with heq
    · exact heq ▸ hasset
    · exact ha.policy asset' hp
  · have hold := ha.window asset' holder hw
    simp only [Stores.store, get?_set]
    split_ifs
    · rfl
    · exact hold

theorem of_window {window : Option SpendWindow}
    (hpolicy : window.isSome → (st.tokenPolicies.get? asset).isSome) :
    TokenStep st (st.store (.tokenWindow asset holder window)) := by
  refine of_eq rfl (fun _ => rfl) fun ha => ⟨ha.policy, fun asset' holder' hw => ?_⟩
  simp only [Stores.store, get?_set] at hw
  split_ifs at hw with heq
  · cases heq
    refine hpolicy ?_
    cases window <;> first | rfl | cases hw
  · exact ha.window asset' holder' hw

theorem of_permitted {op : UndoOp} (hp : Permitted sid st op) : TokenStep st (st.store op) := by
  cases op with
  | tokenPolicy asset policy =>
    cases policy with
    | none => cases hp
    | some policy => exact of_policy hp
  | tokenWindow asset holder window => exact of_window hp
  | token | tokenBalance => cases hp
  | _ => exact of_eq rfl (fun _ => rfl) fun ha => ⟨ha.policy, ha.window⟩

theorem of_transfer {sender dest : AccountId} {amount debited credited : Balance}
    (hdeb : (st.tokenBalance asset sender).checkedSub amount = some debited)
    (hcred : ((st.store (.tokenBalance asset sender (some debited))).tokenBalance asset dest).checkedAdd
      amount = some credited) : TokenStep st ((st.store (.tokenBalance asset sender (some debited))).store
      (.tokenBalance asset dest (some credited))) :=
  of_eq rfl (fun _ => st.circulating_transfer hdeb hcred) fun ha => ⟨ha.policy, ha.window⟩

theorem of_record {info info' : TokenInfo} {b : Balance}
    (hinfo : st.tokens.get? asset = some info ∨ st.tokens.get? asset = none ∧ info.issued = 0 ∧ info.burned = 0)
    (hissuer : info'.issuer = info.issuer) (hsymbol : info'.symbol = info.symbol)
    (hissued : info.issued.toNat ≤ info'.issued.toNat) (hburned : info.burned.toNat ≤ info'.burned.toNat)
    (hb : b.toNat + info'.burned.toNat + info.issued.toNat =
      (st.tokenBalance asset holder).toNat + info.burned.toNat + info'.issued.toNat) :
    TokenStep st ((st.store (.token asset (some info'))).store (.tokenBalance asset holder (some b))) where
  moved asset' := by
    have hmoved := (st.store (.token asset (some info'))).circulating_store asset asset' holder b
    have hold : st.issued asset = info.issued.toNat ∧ st.burned asset = info.burned.toNat := by
      obtain h | ⟨h, hi, hu⟩ := hinfo
      · rw [Stores.issued, Stores.burned, h]
        exact ⟨rfl, rfl⟩
      · rw [Stores.issued, Stores.burned, h, hi, hu]
        exact ⟨rfl, rfl⟩
    obtain ⟨hissued', hburned'⟩ := st.counters_store_token asset asset' info'
    change _ + Stores.burned (st.store (.token asset (some info'))) asset' + _ =
      _ + Stores.issued (st.store (.token asset (some info'))) asset'
    rw [hissued', hburned']
    have hbal : (st.store (.token asset (some info'))).tokenBalance asset holder =
        st.tokenBalance asset holder := rfl
    have hcirc : (st.store (.token asset (some info'))).circulating asset' = st.circulating asset' := rfl
    rw [hbal, hcirc] at hmoved
    by_cases heq : asset = asset'
    · subst heq
      simp only [if_pos] at hmoved ⊢
      omega
    · simp only [if_neg heq] at hmoved ⊢
      omega
  record asset' info0 h0 := by
    simp only [Stores.store, get?_set]
    split_ifs with heq
    · subst heq
      obtain h | ⟨h, -⟩ := hinfo
      · cases h.symm.trans h0
        exact ⟨info', rfl, hissuer, hsymbol, hissued, hburned⟩
      · cases h.symm.trans h0
    · exact ⟨info0, h0, rfl, rfl, le_rfl, le_rfl⟩
  anchored ha := by
    refine ⟨fun asset' hp => ?_, ha.window⟩
    have hold := ha.policy asset' hp
    simp only [Stores.store, get?_set]
    split_ifs
    · rfl
    · exact hold

end TokenStep

section Effects
variable {C : Crypto} {sid contract : AccountId} {G : Grant} {s s' : InFlight} {st st' : Stores}

theorem Runtime.Moves.tokenStep (h : Relation.ReflTransGen (Runtime.Moves contract) st st') : TokenStep st st' := by
  induction h with
  | refl => exact .refl
  | tail _ hstep ih =>
    refine ih.trans ?_
    cases hstep with
    | transfer _ _ hdeb hcred => exact .of_transfer hdeb hcred
    | window hpolicy => exact .of_window fun _ => hpolicy

theorem Effect.tokenStep (h : Effect C sid G s s') : TokenStep s.ledger s'.ledger := by
  cases h with
  | write op hp _ => exact .of_permitted hp
  | signer | fee => exact .refl
  | pay | collect | touch | exec | shield | deshield | shieldV2 | deshieldV2 | pool | torn | lock | settle =>
    exact .of_eq rfl (fun _ => rfl) fun ha => ⟨ha.policy, ha.window⟩
  | vault h =>
    obtain ⟨next, -, rfl⟩ := Ledger.setVault_eq_some h
    exact .of_eq rfl (fun _ => rfl) fun ha => ⟨ha.policy, ha.window⟩
  | @mint asset info dest amount L hinfo _ h =>
    obtain ⟨issued, credited, hissued, hcred, rfl⟩ := Runtime.mintTokens_eq_some h
    have hissued := BitVec.checkedAdd_eq_some.mp hissued
    have hcred := BitVec.checkedAdd_eq_some.mp hcred
    refine .of_record hinfo rfl rfl ?_ le_rfl ?_
    · dsimp only
      omega
    · dsimp only
      omega
  | @burn asset info amount remaining burned hinfo _ hr hburn =>
    have hr := BitVec.checkedSub_eq_some.mp hr
    have hburn := BitVec.checkedAdd_eq_some.mp hburn
    refine .of_record (.inl hinfo) rfl rfl le_rfl ?_ ?_
    · dsimp only
      omega
    · dsimp only
      omega
  | @tokenMove asset sender dest amount debited credited hne _ _ _ _ hdeb hcred =>
    refine .of_transfer hdeb ?_
    rwa [Stores.tokenBalance_store_tokenBalance, if_neg fun hc => hne hc.2.symm]
  | batch _ _ _ h => exact Runtime.Moves.tokenStep (Runtime.settleContractTokenTransfers_moves h)

theorem Effects.tokenStep (h : Effects C sid G s s') : TokenStep s.ledger s'.ledger := by
  induction h with
  | refl => exact .refl
  | tail _ hstep ih => exact ih.trans hstep.tokenStep

end Effects

namespace Runtime

/-! ## The records of the assets -/

/-- What an action of `sid` may do to the records: issue an asset of its own, mint xUSD or count what is burned. -/
inductive RecordStep (C : Crypto) (sid : AccountId) (tokens : OrdMap Hash TokenInfo) :
    Action → OrdMap Hash TokenInfo → Prop
  | keep {action : Action} : RecordStep C sid tokens action tokens
  | issue {symbol : String} {amount : Balance} {dest : AccountId} {info : TokenInfo}
      (hxusd : tokenAssetId C sid symbol ≠ xusdAssetId C) (hissuer : info.issuer = sid) :
      RecordStep C sid tokens (.tokenIssue symbol amount dest)
        (tokens.set (tokenAssetId C sid symbol) (some info))
  | mint {amount : Balance} {info : TokenInfo}
      (hissuer : tokens.get? (xusdAssetId C) = none → info.issuer = ⟨Vault.xusdIssuer⟩) :
      RecordStep C sid tokens (.vaultMint amount) (tokens.set (xusdAssetId C) (some info))
  | burn {action : Action} {asset : Hash} {info : TokenInfo} {burned : Balance}
      (hinfo : tokens.get? asset = some info) :
      RecordStep C sid tokens action (tokens.set asset (some { info with burned }))

section Arms
variable {C : Crypto} {ctx : BlockContext} {sid : AccountId} {s : InFlight} {amount : Balance}

theorem mintTokens_tokens {L L' : Ledger} {asset : Hash} {info : TokenInfo} {dest : AccountId}
    (h : mintTokens C asset info dest amount L = some L') :
    ∃ issued, L'.tokens = L.tokens.set asset (some { info with issued }) := by
  obtain ⟨issued, _, -, -, rfl⟩ := mintTokens_eq_some h
  exact ⟨issued, rfl⟩

theorem tokenIssue_records {symbol : String} {dest : AccountId} :
    (tokenIssue C sid symbol amount dest s).Ensures fun s' =>
      RecordStep C sid s.ledger.tokens (.tokenIssue symbol amount dest) s'.ledger.tokens := by
  unfold tokenIssue
  dsimp only
  split_ifs with _ _ hxusd hissuer
  · exact .failed .keep
  · exact .failed .keep
  · exact .failed .keep
  · exact .failed .keep
  split
  · exact .failed .keep
  split
  · exact .failed .keep
  rename_i L hmint
  obtain ⟨issued, htokens⟩ := mintTokens_tokens hmint
  rw [Arm.ensures_done]
  dsimp only
  rw [htokens]
  exact .issue hxusd (by simpa using hissuer)

theorem writeVault_tokens {v : Vault} {P : OrdMap Hash TokenInfo → Prop} (h : P s.ledger.tokens) :
    (writeVault C sid v s).Ensures fun s' => P s'.ledger.tokens := fun s' status hs => by
  have halters := (writeVault_tidy (K := [.vaultCollateral, .vault]) .refl (by simp)).alters s' status hs
  have hsame : s'.ledger.tokens = s.ledger.tokens := halters.same (f := .token) (by simp)
  dsimp only
  rwa [hsame]

theorem vaultMint_records : (vaultMint C sid amount s).Ensures fun s' =>
      RecordStep C sid s.ledger.tokens (.vaultMint amount) s'.ledger.tokens := by
  unfold vaultMint
  split_ifs
  · exact .failed .keep
  dsimp only
  split
  · exact .failed .keep
  split_ifs
  · exact .failed .keep
  split
  · exact .failed .keep
  rename_i L hmint
  obtain ⟨issued, htokens⟩ := mintTokens_tokens hmint
  refine writeVault_tokens (P := RecordStep C sid s.ledger.tokens (.vaultMint amount)) ?_
  dsimp only
  rw [htokens]
  refine .mint fun hnone => ?_
  rw [hnone]
  rfl

theorem tokenBurn_records {asset : Hash} : (tokenBurn C ctx sid asset amount s).Ensures fun s' =>
      RecordStep C sid s.ledger.tokens (.tokenBurn asset amount) s'.ledger.tokens := by
  unfold tokenBurn
  split
  · exact .failed .keep
  rename_i info hinfo
  split
  · exact .failed .keep
  rename_i window _
  split
  · exact .failed .keep
  split
  · exact .failed .keep
  · refine .done ?_
    cases window <;> exact .burn hinfo

theorem vaultBurn_records : (vaultBurn C sid amount s).Ensures fun s' =>
      RecordStep C sid s.ledger.tokens (.vaultBurn amount) s'.ledger.tokens := by
  unfold vaultBurn
  split_ifs
  · exact .failed .keep
  dsimp only
  split
  · exact .failed .keep
  · exact .failed .keep
  split
  · exact .failed .keep
  rename_i info hinfo
  split
  · exact .failed .keep
  · exact writeVault_tokens (P := RecordStep C sid s.ledger.tokens (.vaultBurn amount)) (.burn hinfo)

end Arms

section Transactions
variable {E : Env} {ctx : BlockContext} {stx : SignedTransaction} {L L' : Ledger} {receipt : Receipt}

theorem applyTransaction_tokenStep (h : applyTransaction E ctx L stx = .ok (L', receipt)) : TokenStep L L' := by
  obtain ⟨p, x, status, hp, hx, hL, -⟩ := applyTransaction_eq_ok h
  have hG := covers_txGrant E ctx L stx.transaction
  rw [← prepare_action hp] at hG
  refine (execute_effects hp hG hx).tokenStep.trans ?_
  rw [finish_stores hL]
  exact .of_eq rfl (fun _ => rfl) fun ha => ⟨ha.policy, ha.window⟩

theorem applyTransaction_records (h : applyTransaction E ctx L stx = .ok (L', receipt)) :
    RecordStep E stx.transaction.signer L.tokens stx.transaction.action.resolved L'.tokens := by
  have hkeep : .token ∉ stx.transaction.action.resolved.fields → RecordStep E stx.transaction.signer
      L.tokens stx.transaction.action.resolved L'.tokens := fun hf => by
    have htokens : L'.tokens = L.tokens := applyTransaction_same (f := .token) h hf nofun
    rw [htokens]
    exact .keep
  obtain ⟨p, x, status, hp, hx, hL, -⟩ := applyTransaction_eq_ok h
  have htokens : L'.tokens = x.ledger.tokens := by rw [finish_stores hL]
  rw [htokens]
  unfold execute at hx
  dsimp only at hx
  split at hx
  · cases hx
    exact .keep
  unfold dispatch at hx
  rw [prepare_action hp] at hx
  cases haction : stx.transaction.action.resolved <;> simp only [haction] at hx hkeep
  case tokenIssue => exact lift_ensures tokenIssue_records hx
  case vaultMint => exact lift_ensures vaultMint_records hx
  case tokenBurn => exact lift_ensures tokenBurn_records hx
  case vaultBurn => exact lift_ensures vaultBurn_records hx
  all_goals
    rw [← htokens]
    exact hkeep (by simp [Action.fields])

/-- The transaction may issue units of the asset: it is the issuer's own, or xUSD minted against a vault. -/
def MayIssue (C : Crypto) (tx : Transaction) (st' : Stores) (asset : Hash) : Prop :=
  (∃ symbol amount dest info, tx.action.resolved = .tokenIssue symbol amount dest ∧
    asset = tokenAssetId C tx.signer symbol ∧ asset ≠ xusdAssetId C ∧
    st'.tokens.get? asset = some info ∧ info.issuer = tx.signer) ∨
  asset = xusdAssetId C ∧ ∃ amount, tx.action.resolved = .vaultMint amount

/-- Whatever raises an issuance counter may do so. -/
theorem mayIssue_of_issued_lt {asset : Hash} (h : applyTransaction E ctx L stx = .ok (L', receipt))
    (hlt : L.issued asset < L'.issued asset) : MayIssue E stx.transaction L' asset := by
  have hstep := applyTransaction_records h
  unfold MayIssue
  rw [Stores.issued, Stores.issued] at hlt
  generalize haction : stx.transaction.action.resolved = action at hstep
  generalize L'.tokens = tokens' at hstep hlt ⊢
  cases hstep with
  | keep => exact absurd hlt (lt_irrefl _)
  | @issue symbol amount dest info hxusd hissuer =>
    rw [get?_set] at hlt
    split_ifs at hlt with heq
    · refine .inl ⟨symbol, amount, dest, info, rfl, heq.symm, heq ▸ hxusd, ?_, hissuer⟩
      rw [heq, OrdMap.get?_set_self]
    · exact absurd hlt (lt_irrefl _)
  | @mint amount info _ =>
    rw [get?_set] at hlt
    split_ifs at hlt with heq
    · exact .inr ⟨heq.symm, amount, rfl⟩
    · exact absurd hlt (lt_irrefl _)
  | @burn _ asset' info burned hinfo =>
    rw [get?_set] at hlt
    split_ifs at hlt with heq
    · rw [← heq, hinfo] at hlt
      exact absurd hlt (lt_irrefl _)
    · exact absurd hlt (lt_irrefl _)

theorem Chained.tokens {config : GenesisConfig} {g : Genesis} {n : ℕ} {accepted : List Step}
    (hg : config.build E = .ok g) (h : Chained E g.ledger 0 n accepted L) : L.TokensConserved ∧ L.TokensAnchored := by
  refine Chained.induct (I := fun _ _ L => L.TokensConserved ∧ L.TokensAnchored) ?_ (fun hreward ih => ?_)
    (fun _ hvalid ih => ?_) h
  · rw [GenesisConfig.build_stores hg]
    exact ⟨fun _ => rfl, nofun, nofun⟩
  · rw [applyCoinbase_stores hreward]
    exact ⟨ih.1, ih.2.policy, ih.2.window⟩
  · have hstep := applyTransaction_tokenStep hvalid
    exact ⟨hstep.conserved ih.1, hstep.anchored ih.2⟩

/-- A transaction keeps every asset conserved and its identity, lets no counter go back, raises an issuance counter
only where it may and keeps policies and windows anchored. From genesis on, every ledger of a chain is conserved and
anchored. -/
theorem token_conservation (E : Env) : (∀ ctx L L' stx receipt, applyTransaction E ctx L stx = .ok (L', receipt) →
      (L.TokensConserved → L'.TokensConserved) ∧
      (∀ asset info, L.tokens.get? asset = some info → ∃ info', L'.tokens.get? asset = some info' ∧
        info'.issuer = info.issuer ∧ info'.symbol = info.symbol ∧
        info.issued.toNat ≤ info'.issued.toNat ∧ info.burned.toNat ≤ info'.burned.toNat) ∧
      (∀ asset, L.issued asset < L'.issued asset → MayIssue E.toCrypto stx.transaction L'.toStores asset) ∧
      (L.TokensAnchored → L'.TokensAnchored)) ∧ ∀ config g n accepted L, GenesisConfig.build E.toCrypto config = .ok g →
      Chained E g.ledger 0 n accepted L → L.TokensConserved ∧ L.TokensAnchored := by
  refine ⟨fun ctx L L' stx receipt h => ?_, fun config g n accepted L hg h => h.tokens hg⟩
  have hstep := applyTransaction_tokenStep h
  exact ⟨hstep.conserved, hstep.record, fun asset hlt => mayIssue_of_issued_lt h hlt, hstep.anchored⟩

/-- Five units of a new asset. -/
theorem sample_issue_conserved : ∃ r, sampleApply aliceFunded
        (sampleTx "alice.sov" (.tokenIssue "GOLD" 5 ⟨"bob.sov"⟩)) = .ok r ∧
      r.1.issued (tokenAssetId sampleCrypto ⟨"alice.sov"⟩ "GOLD") = 5 ∧ r.1.TokensConserved := by
  have hissued : (sampleApply aliceFunded (sampleTx "alice.sov" (.tokenIssue "GOLD" 5 ⟨"bob.sov"⟩))).toOption.map (fun r =>
        r.1.issued (tokenAssetId sampleCrypto ⟨"alice.sov"⟩ "GOLD")) = some 5 := by decide +kernel
  obtain ⟨r, hr, hfive⟩ := exists_of_map_toOption hissued
  exact ⟨r, hr, hfive, ((token_conservation sampleEnv).1 _ _ _ _ _ hr).1 fun _ => rfl⟩

end Transactions
end Runtime
end Sov
