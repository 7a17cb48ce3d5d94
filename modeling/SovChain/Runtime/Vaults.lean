import SovChain.Runtime.Escrows
import SovChain.Runtime.Tokens

/-!
# Vaults and xUSD

xUSD is minted against the collateral of a vault. Along a chain the collateral counter is the sum over the vaults, the
xUSD outstanding is covered by their debts, and a vault that has just minted or withdrawn is within the ratio at the
price of that moment (`xusd_backed`).
-/

namespace Sov

/-- The ratio check in exact integers, with no intermediate value out of range. -/
structure Vault.Backed (v : Vault) (price : U128) : Prop where
  ratio : v.debt.toNat * 150 * scale ≤ v.collateral.toNat * price.toNat * 100
  usd : v.collateral.toNat * price.toNat < 2 ^ 128
  percent : v.collateral.toNat * price.toNat / scale * 100 < 2 ^ 128

variable {v : Vault}

/-- What passes the check is backed: both divisions round against the borrower. -/
theorem Vault.backed_of_isHealthy {price : U128} (h : isHealthy v.collateral v.debt price = true) : v.Backed price := by
  unfold isHealthy at h
  split at h
  · rename_i max hmax
    have hdebt : v.debt.toNat ≤ max.toNat := of_decide_eq_true h
    simp only [maxDebt, collateralUsd, Option.bind_eq_bind, Option.bind_eq_some_iff, Option.map_eq_some_iff,
      Option.pure_def, Option.some.injEq] at hmax
    obtain ⟨usd, ⟨product, hproduct, rfl⟩, hundred, hpercent, rfl⟩ := hmax
    rw [BitVec.checkedMul_eq_some] at hproduct hpercent
    have husd : (BitVec.ofNat 128 (product.toNat / scale)).toNat = product.toNat / scale := by
      rw [BitVec.toNat_ofNat]
      exact Nat.mod_eq_of_lt ((Nat.div_le_self _ _).trans_lt product.isLt)
    have hmax : (BitVec.ofNat 128 (hundred.toNat / minCollateralRatioPct)).toNat =
        hundred.toNat / minCollateralRatioPct := by
      rw [BitVec.toNat_ofNat]
      exact Nat.mod_eq_of_lt ((Nat.div_le_self _ _).trans_lt hundred.isLt)
    have hhundred : (100 : U128).toNat = 100 := rfl
    rw [husd, ← hproduct, hhundred] at hpercent
    rw [hmax, ← hpercent] at hdebt
    refine ⟨?_, ?_, ?_⟩
    · unfold minCollateralRatioPct at hdebt
      unfold scale at hdebt ⊢
      omega
    · rw [hproduct]
      exact product.isLt
    · rw [hpercent]
      exact hundred.isLt
  · cases h

theorem Vault.isHealthy_of_overflow {collateral : Balance} (debt : Balance) {price : U128}
    (h : 2 ^ 128 ≤ collateral.toNat * price.toNat ∨ 2 ^ 128 ≤ collateral.toNat * price.toNat / scale * 100) :
    isHealthy collateral debt price = false := by
  by_contra hhealthy
  have hbacked := backed_of_isHealthy (v := ⟨collateral, debt⟩) (Bool.eq_true_of_not_eq_false hhealthy)
  have husd := hbacked.usd
  have hpercent := hbacked.percent
  dsimp only at husd hpercent
  omega

namespace Stores
variable (s : Stores)

/-- The collateral of all vaults. -/
def collateralHeld : ℕ := s.vaults.sum fun _ v => v.collateral.toNat

/-- The debts of all vaults. -/
def debts : ℕ := s.vaults.sum fun _ v => v.debt.toNat

/-- The counter is the collateral of the vaults, and what is outstanding of xUSD is owed by them. -/
structure VaultsBalanced (C : Crypto) : Prop where
  collateral : s.vaultCollateral.toNat = s.collateralHeld
  debt : s.issued (xusdAssetId C) ≤ s.burned (xusdAssetId C) + s.debts

variable {s}

/-- A sum over the vaults after one of them is written; an empty vault counts for nothing. -/
theorem sum_vaults_set (f : Vault → ℕ) (hf : f default = 0) (owner : AccountId) (v : Vault) :
    (s.vaults.set owner (if v.isEmpty then none else some v)).sum (fun _ v => f v) + f (s.vault owner) =
      s.vaults.sum (fun _ v => f v) + f v := by
  have hsum := s.vaults.sum_set (fun _ v => f v) owner (if v.isEmpty then none else some v)
  have hold : s.vaults.weightAt (fun _ v => f v) owner = f (s.vault owner) := by
    rw [OrdMap.weightAt, vault]
    cases s.vaults.get? owner with
    | none => exact hf.symm
    | some old => rfl
  have hnew : (if v.isEmpty then none else some v).elim 0 f = f v := by
    by_cases hempty : v.isEmpty = true
    · have hv : v = default := by
        obtain ⟨c, d⟩ := v
        simp only [Vault.isEmpty, Bool.and_eq_true, decide_eq_true_eq] at hempty
        rw [hempty.1, hempty.2]
        rfl
      rw [if_pos hempty, hv, hf]
      rfl
    · rw [if_neg hempty]
      rfl
  rw [hold, hnew] at hsum
  exact hsum

end Stores

/-- The vault of `sid` becomes `v`: the counter follows it, and its debt follows xUSD. -/
structure VaultMove (C : Crypto) (sid : AccountId) (v : Vault) (st st' : Stores) : Prop where
  vaults : st'.vaults = st.vaults.set sid (if v.isEmpty then none else some v)
  collateral : st'.vaultCollateral.toNat + (st.vault sid).collateral.toNat =
    st.vaultCollateral.toNat + v.collateral.toNat
  backed : st'.issued (xusdAssetId C) + (st.vault sid).debt.toNat + st.burned (xusdAssetId C) =
    st.issued (xusdAssetId C) + v.debt.toNat + st'.burned (xusdAssetId C)

theorem VaultMove.balanced {C : Crypto} {sid : AccountId} {st st' : Stores} (h : VaultMove C sid v st st')
    (hst : st.VaultsBalanced C) : st'.VaultsBalanced C := by
  have hcollateral := Stores.sum_vaults_set (s := st) (fun v => v.collateral.toNat) rfl sid v
  have hdebts := Stores.sum_vaults_set (s := st) (fun v => v.debt.toNat) rfl sid v
  rw [← h.vaults] at hcollateral hdebts
  obtain ⟨hcounter, hdebt⟩ := hst
  have hmoved := h.collateral
  have hbacked := h.backed
  unfold Stores.collateralHeld at hcounter
  unfold Stores.debts at hdebt
  refine ⟨?_, ?_⟩
  · unfold Stores.collateralHeld
    omega
  · unfold Stores.debts
    omega

/-- What a vault that was `old` is after an action at a price: a mint adds to its debt and a withdrawal takes from its
collateral, and either leaves it backed. -/
def Vault.Draws (old v : Vault) (price : U128) : Action → Prop
  | .vaultMint amount =>
    v.collateral = old.collateral ∧ v.debt.toNat = old.debt.toNat + amount.toNat ∧ v.Backed price
  | .vaultWithdraw amount =>
    v.debt = old.debt ∧ v.collateral.toNat + amount.toNat = old.collateral.toNat ∧ v.Backed price
  | _ => True

theorem VaultMove.vault_eq {C : Crypto} {sid : AccountId} {st st' : Stores} (h : VaultMove C sid v st st') :
    st'.vault sid = v := by
  have hread := st.vault_store_vault sid sid v
  rw [if_pos rfl] at hread
  rw [Stores.vault, h.vaults]
  exact hread

namespace Runtime

/-! ## The arms -/

section Arms
variable {C : Crypto} {sid : AccountId} {s s' : InFlight} {status : ExecutionStatus}

/-- A vault is written after the asset's record and balance, which have no part in the vaults. -/
theorem writeVault_move {v : Vault} (st : Stores) (h : writeVault C sid v s = .ok (s', status))
    (hvaults : s.ledger.vaults = st.vaults) (hcounter : s.ledger.vaultCollateral = st.vaultCollateral)
    (hbacked : s.ledger.issued (xusdAssetId C) + (st.vault sid).debt.toNat + st.burned (xusdAssetId C) =
      st.issued (xusdAssetId C) + v.debt.toNat + s.ledger.burned (xusdAssetId C)) :
    status = .success ∧ VaultMove C sid v st s'.ledger := by
  unfold writeVault at h
  split at h
  · cases h
  rename_i L hL
  cases h
  obtain ⟨next, hnext, rfl⟩ := Ledger.setVault_eq_some hL
  have hvault : s.ledger.vault sid = st.vault sid := by rw [Stores.vault, hvaults, Stores.vault]
  rw [hvault, hcounter] at hnext
  refine ⟨rfl, ?_, ?_, hbacked⟩
  · change s.ledger.vaults.set sid _ = _
    rw [hvaults]
  · change next.toNat + _ = _
    omega

variable {amount : Balance}

theorem vaultDeposit_move (h : vaultDeposit C sid amount s = .ok (s', status)) : (s' = s ∧ status ≠ .success) ∨
      status = .success ∧ ∃ v, VaultMove C sid v s.ledger s'.ledger := by
  unfold vaultDeposit at h
  split_ifs at h
  · cases h
    exact .inl ⟨rfl, nofun⟩
  split at h
  · cases h
    exact .inl ⟨rfl, nofun⟩
  dsimp only at h
  split at h
  · cases h
    exact .inl ⟨rfl, nofun⟩
  · obtain ⟨hok, hmove⟩ := writeVault_move s.ledger h rfl rfl (by rfl)
    exact .inr ⟨hok, _, hmove⟩

theorem vaultWithdraw_move (h : vaultWithdraw C sid amount s = .ok (s', status)) : (s' = s ∧ status ≠ .success) ∨
      status = .success ∧ ∃ v, VaultMove C sid v s.ledger s'.ledger ∧
        (s.ledger.vault sid).Draws v s.ledger.oraclePriceOrSeed (.vaultWithdraw amount) := by
  unfold vaultWithdraw at h
  split_ifs at h
  · cases h
    exact .inl ⟨rfl, nofun⟩
  dsimp only at h
  split at h
  · cases h
    exact .inl ⟨rfl, nofun⟩
  rename_i collateral hcollateral
  split_ifs at h with hhealthy
  · cases h
    exact .inl ⟨rfl, nofun⟩
  split at h
  · cases h
    exact .inl ⟨rfl, nofun⟩
  obtain ⟨hok, hmove⟩ := writeVault_move s.ledger h rfl rfl (by rfl)
  rw [BitVec.checkedSub_eq_some] at hcollateral
  refine .inr ⟨hok, _, hmove, rfl, (Nat.add_comm _ _).trans hcollateral.symm, Vault.backed_of_isHealthy ?_⟩
  simpa using hhealthy

theorem mintTokens_counters {asset : Hash} {info : TokenInfo} {dest : AccountId} {L L' : Ledger}
    (hinfo : info.issued.toNat = L.issued asset ∧ info.burned.toNat = L.burned asset)
    (h : mintTokens C asset info dest amount L = some L') :
    L'.issued asset = L.issued asset + amount.toNat ∧ L'.burned asset = L.burned asset ∧ L'.vaults = L.vaults ∧
      L'.vaultCollateral = L.vaultCollateral := by
  obtain ⟨issued, credited, hissued, -, rfl⟩ := mintTokens_eq_some h
  obtain ⟨hi, hb⟩ := L.counters_store_token asset asset { info with issued }
  rw [if_pos rfl] at hi hb
  rw [BitVec.checkedAdd_eq_some] at hissued
  refine ⟨?_, ?_, rfl, rfl⟩
  · exact hi.trans (by rw [← hissued, hinfo.1])
  · exact hb.trans hinfo.2

theorem vaultMint_move (h : vaultMint C sid amount s = .ok (s', status)) : (s' = s ∧ status ≠ .success) ∨
      status = .success ∧ ∃ v, VaultMove C sid v s.ledger s'.ledger ∧
        (s.ledger.vault sid).Draws v s.ledger.oraclePriceOrSeed (.vaultMint amount) := by
  unfold vaultMint at h
  split_ifs at h
  · cases h
    exact .inl ⟨rfl, nofun⟩
  dsimp only at h
  split at h
  · cases h
    exact .inl ⟨rfl, nofun⟩
  rename_i debt hdebt
  split_ifs at h with hhealthy
  · cases h
    exact .inl ⟨rfl, nofun⟩
  split at h
  · cases h
    exact .inl ⟨rfl, nofun⟩
  rename_i L hmint
  have hinfo : ∀ reserve : TokenInfo, reserve.issued = 0 → reserve.burned = 0 →
      ((s.ledger.tokens.get? (xusdAssetId C)).getD reserve).issued.toNat = s.ledger.issued (xusdAssetId C) ∧
        ((s.ledger.tokens.get? (xusdAssetId C)).getD reserve).burned.toNat =
          s.ledger.burned (xusdAssetId C) := by
    intro reserve hissued hburned
    unfold Stores.issued Stores.burned
    cases s.ledger.tokens.get? (xusdAssetId C) with
    | none =>
      simp only [Option.getD_none, Option.elim_none, hissued, hburned]
      exact ⟨rfl, rfl⟩
    | some info => exact ⟨rfl, rfl⟩
  obtain ⟨hissued, hburned, hvaults, hcounter⟩ := mintTokens_counters (hinfo _ rfl rfl) hmint
  rw [BitVec.checkedAdd_eq_some] at hdebt
  obtain ⟨hok, hmove⟩ := writeVault_move s.ledger h hvaults hcounter (by
    dsimp only
    omega)
  refine .inr ⟨hok, _, hmove, rfl, hdebt.symm, Vault.backed_of_isHealthy ?_⟩
  simpa using hhealthy

theorem vaultBurn_move (h : vaultBurn C sid amount s = .ok (s', status)) : (s' = s ∧ status ≠ .success) ∨
      status = .success ∧ ∃ v, VaultMove C sid v s.ledger s'.ledger := by
  unfold vaultBurn at h
  split_ifs at h
  · cases h
    exact .inl ⟨rfl, nofun⟩
  dsimp only at h
  split at h
  · cases h
    exact .inl ⟨rfl, nofun⟩
  · cases h
    exact .inl ⟨rfl, nofun⟩
  rename_i remaining debt _ hdebt
  split at h
  · cases h
    exact .inl ⟨rfl, nofun⟩
  rename_i info hinfo
  split at h
  · cases h
    exact .inl ⟨rfl, nofun⟩
  rename_i burned hburned
  rw [BitVec.checkedSub_eq_some] at hdebt
  rw [BitVec.checkedAdd_eq_some] at hburned
  obtain ⟨hi, hb⟩ := s.ledger.counters_store_token (xusdAssetId C) (xusdAssetId C) { info with burned }
  rw [if_pos rfl] at hi hb
  have hissued0 : s.ledger.issued (xusdAssetId C) = info.issued.toNat := by rw [Stores.issued, hinfo]; rfl
  have hburned0 : s.ledger.burned (xusdAssetId C) = info.burned.toNat := by rw [Stores.burned, hinfo]; rfl
  obtain ⟨hok, hmove⟩ := writeVault_move s.ledger h rfl rfl (by
    change (s.ledger.store (.token (xusdAssetId C) (some { info with burned }))).issued _ + _ + _ =
      _ + _ + (s.ledger.store (.token (xusdAssetId C) (some { info with burned }))).burned _
    rw [hi, hb, hissued0, hburned0]
    dsimp only
    omega)
  exact .inr ⟨hok, _, hmove⟩

end Arms

/-! ## One transaction -/

/-- How a transaction leaves the vaults and xUSD. -/
inductive VaultStep (E : Env) (st : Step) : Prop
  | keep (hvaults : st.after.vaults = st.before.vaults)
      (hcounter : st.after.vaultCollateral = st.before.vaultCollateral)
      (hissued : st.after.issued (xusdAssetId E.toCrypto) = st.before.issued (xusdAssetId E.toCrypto))
      (hburned : st.before.burned (xusdAssetId E.toCrypto) ≤ st.after.burned (xusdAssetId E.toCrypto))
      (hidle : st.receipt.status = .success → .vault ∉ st.tx.transaction.action.resolved.fields)
  | move {v : Vault} (hmove : VaultMove E.toCrypto st.tx.transaction.signer v st.before.toStores st.after.toStores)
      (hdraws : (st.before.vault st.tx.transaction.signer).Draws v st.before.oraclePriceOrSeed
        st.tx.transaction.action.resolved)

section Transactions
variable {E : Env} {st : Step}

theorem vaultMove_close {C : Crypto} {ctx : BlockContext} {sid : AccountId} {v : Vault} {st : Stores} {s : InFlight}
    {tip : Balance} {L : Ledger} (h : VaultMove C sid v st s.ledger) (hL : finish C ctx sid tip s = .ok L) :
    VaultMove C sid v st L := by
  rw [finish_stores hL]
  exact ⟨h.vaults, h.collateral, h.backed⟩

/-- An arm that moves a vault or ends with the state as it found it. -/
theorem Step.Valid.vaultArm (hvalid : st.Valid E) (arm : InFlight → Arm)
    (hdispatch : ∀ (p : Prepared) (x : ExecState), p.action = st.tx.transaction.action.resolved →
      dispatch E st.ctx st.tx p x = lift x arm)
    (harm : ∀ s s' status, arm s = .ok (s', status) → (s' = s ∧ status ≠ .success) ∨
      status = .success ∧ ∃ v, VaultMove E st.tx.transaction.signer v s.ledger s'.ledger ∧
        (s.ledger.vault st.tx.transaction.signer).Draws v s.ledger.oraclePriceOrSeed
          st.tx.transaction.action.resolved) : VaultStep E st := by
  obtain ⟨p, s, -, hs, hL⟩ := applyTransaction_arm (a := fun _ => arm) hvalid hdispatch
  have hkeep : s = ⟨st.before, p.signer, p.fee⟩ → st.receipt.status ≠ .success → VaultStep E st := by
    rintro rfl hne
    have hstores := finish_stores hL
    exact .keep (by rw [hstores]) (by rw [hstores]) (by rw [hstores]; rfl) (by rw [hstores]; exact le_rfl)
      fun hok => absurd hok hne
  rcases hs with ⟨hs, hne⟩ | hs
  · exact hkeep hs hne
  rcases harm _ _ _ hs with ⟨hs, hne⟩ | ⟨-, v, hmove, hdraws⟩
  · exact hkeep hs hne
  · exact .move (vaultMove_close hmove hL) hdraws

theorem Step.Valid.vaultKeep (hvalid : st.Valid E) (hvault : .vault ∉ st.tx.transaction.action.resolved.fields) :
    VaultStep E st := by
  have hcounter : .vaultCollateral ∉ st.tx.transaction.action.resolved.fields := by
    cases haction : st.tx.transaction.action.resolved <;> simp_all [Action.fields]
  have htokens := applyTransaction_tokenStep hvalid
  have hmono : st.before.issued (xusdAssetId E) ≤ st.after.issued (xusdAssetId E) ∧
      st.before.burned (xusdAssetId E) ≤ st.after.burned (xusdAssetId E) := by
    unfold Stores.issued Stores.burned
    rcases hinfo : st.before.tokens.get? (xusdAssetId E) with _ | info
    · exact ⟨Nat.zero_le _, Nat.zero_le _⟩
    obtain ⟨info', hinfo', -, -, hissued, hburned⟩ := htokens.record _ info hinfo
    rw [hinfo']
    exact ⟨hissued, hburned⟩
  have hissued : st.after.issued (xusdAssetId E) = st.before.issued (xusdAssetId E) := by
    refine le_antisymm (not_lt.mp fun hlt => ?_) hmono.1
    rcases mayIssue_of_issued_lt hvalid hlt with ⟨symbol, amount, dest, info, -, -, hne, -⟩ | ⟨-, amount, haction⟩
    · exact hne rfl
    · exact hvault (by simp [haction, Action.fields])
  exact .keep (applyTransaction_same (f := .vault) hvalid hvault (by simp))
    (applyTransaction_same (f := .vaultCollateral) hvalid hcounter (by simp)) hissued hmono.2 fun _ => hvault

theorem Step.Valid.vaultStep (hvalid : st.Valid E) : VaultStep E st := by
  by_cases hfields : .vault ∈ st.tx.transaction.action.resolved.fields
  · cases haction : st.tx.transaction.action.resolved <;> rw [haction] at hfields
    case vaultDeposit amount =>
      refine hvalid.vaultArm (vaultDeposit E st.tx.transaction.signer amount)
        (fun p x hp => by simp only [dispatch, hp, haction]) fun s s' status hs => ?_
      rw [haction]
      rcases vaultDeposit_move hs with hfailed | ⟨hok, v, hmove⟩
      · exact .inl hfailed
      · exact .inr ⟨hok, v, hmove, trivial⟩
    case vaultWithdraw amount =>
      refine hvalid.vaultArm (vaultWithdraw E st.tx.transaction.signer amount)
        (fun p x hp => by simp only [dispatch, hp, haction]) fun s s' status hs => ?_
      rw [haction]
      exact vaultWithdraw_move hs
    case vaultMint amount =>
      refine hvalid.vaultArm (vaultMint E st.tx.transaction.signer amount)
        (fun p x hp => by simp only [dispatch, hp, haction]) fun s s' status hs => ?_
      rw [haction]
      exact vaultMint_move hs
    case vaultBurn amount =>
      refine hvalid.vaultArm (vaultBurn E st.tx.transaction.signer amount)
        (fun p x hp => by simp only [dispatch, hp, haction]) fun s s' status hs => ?_
      rw [haction]
      rcases vaultBurn_move hs with hfailed | ⟨hok, v, hmove⟩
      · exact .inl hfailed
      · exact .inr ⟨hok, v, hmove, trivial⟩
    all_goals simp [Action.fields] at hfields
  · exact hvalid.vaultKeep hfields

theorem VaultStep.balanced (h : VaultStep E st) (hst : st.before.VaultsBalanced E) : st.after.VaultsBalanced E := by
  cases h with
  | keep hvaults hcounter hissued hburned =>
    refine ⟨?_, ?_⟩
    · rw [hcounter, Stores.collateralHeld, hvaults]
      exact hst.collateral
    have hdebt := hst.debt
    unfold Stores.debts at hdebt
    rw [hissued, Stores.debts, hvaults]
    omega
  | move hmove => exact hmove.balanced hst

theorem VaultStep.draws (h : VaultStep E st) (hok : st.receipt.status = .success) :
    (st.before.vault st.tx.transaction.signer).Draws (st.after.vault st.tx.transaction.signer)
      st.before.oraclePriceOrSeed st.tx.transaction.action.resolved := by
  cases h with
  | keep _ _ _ _ hidle =>
    have hfields := hidle hok
    cases haction : st.tx.transaction.action.resolved <;>
      first | trivial | (rw [haction] at hfields; simp [Action.fields] at hfields)
  | move hmove hdraws =>
    rw [hmove.vault_eq]
    exact hdraws

end Transactions

/-- Along a chain the collateral counter is the sum of the vaults' collateral and xUSD outstanding is at most the sum of
their debts; a successful mint or withdrawal leaves the vault backed at the price of that moment; and a check that
overflows refuses. -/
theorem xusd_backed (E : Env) (config : GenesisConfig) (g : Genesis) (height : ℕ) (accepted : List Step) (L : Ledger)
    (hg : config.build E.toCrypto = .ok g) (h : Chained E g.ledger 0 height accepted L) :
    L.vaultCollateral.toNat = L.collateralHeld ∧
    (L.issued (xusdAssetId E.toCrypto) : ℤ) - L.burned (xusdAssetId E.toCrypto) ≤ L.debts ∧
    (∀ st ∈ accepted, st.receipt.status = .success → (st.before.vault st.tx.transaction.signer).Draws
      (st.after.vault st.tx.transaction.signer) st.before.oraclePriceOrSeed st.tx.transaction.action.resolved) ∧
    ∀ (collateral debt : Balance) (price : U128), (2 ^ 128 ≤ collateral.toNat * price.toNat ∨
      2 ^ 128 ≤ collateral.toNat * price.toNat / Vault.scale * 100) →
      Vault.isHealthy collateral debt price = false := by
  have hbalanced : L.VaultsBalanced E := by
    refine Chained.induct (I := fun _ _ L => L.VaultsBalanced E) ?_ (fun hreward hI => ?_)
      (fun _ hvalid hI => hvalid.vaultStep.balanced hI) h
    · rw [GenesisConfig.build_stores hg]
      exact ⟨rfl, Nat.zero_le _⟩
    · rw [applyCoinbase_stores hreward]
      exact ⟨hI.collateral, hI.debt⟩
  have hdebt := hbalanced.debt
  exact ⟨hbalanced.collateral, by omega, fun st hst hok => (h.valid st hst).vaultStep.draws hok,
    fun collateral debt price => Vault.isHealthy_of_overflow debt⟩

/-- Three grains of collateral, and the two grains of xUSD they carry at the seed price. -/
def samplePosition : List SignedTransaction :=
  [numberedTx (memberKey 0) "vault.sov" 0 (.vaultDeposit 3), numberedTx (memberKey 0) "vault.sov" 1 (.vaultMint 2)]

theorem sample_position_backed :
    ∃ L, Chained sampleEnv treasury 0 1 (treasurySteps samplePosition) L ∧
      L.vaultCollateral.toNat = 3 ∧ L.collateralHeld = 3 ∧ L.issued (xusdAssetId sampleCrypto) = 2 ∧
      (2 : ℤ) - L.burned (xusdAssetId sampleCrypto) ≤ L.debts := by
  have hrun : (executeBlock sampleEnv sampleContext treasury samplePosition).toOption.map (fun r =>
      (r.1.vaultCollateral.toNat, r.1.issued (xusdAssetId sampleCrypto))) = some (3, 2) := by decide +kernel
  obtain ⟨⟨L, receipts⟩, hL, hafter⟩ := exists_of_map_toOption hrun
  obtain ⟨hcounter, hissued⟩ := Prod.mk.inj hafter
  have hchain := chained_treasurySteps hL
  obtain ⟨hsum, hdebt, -⟩ := xusd_backed sampleEnv treasuryGenesis _ 1 _ L rfl hchain
  refine ⟨L, hchain, hcounter, hsum.symm.trans hcounter, hissued, ?_⟩
  have hissued' : L.issued (xusdAssetId sampleEnv) = 2 := hissued
  rw [hissued'] at hdebt
  exact hdebt

end Runtime
end Sov
