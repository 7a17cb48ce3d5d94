import SovChain.Runtime.Failures
import SovChain.Runtime.Traces

/-!
# Vesting

Genesis merges the grants of an account into one locked amount, under the unlock height of the last of them, and the
first claim that succeeds releases all of it. So a claim keeps to the unlock height of every grant when the last grant
of the account is the one that unlocks last (`claims_vested`), and a short grant at the end of the list opens the long
ones before it (`early_claim`).
-/

namespace Sov
namespace GenesisConfig

/-- What the grants give to an account. -/
def granted (vesting : List VestingGrant) (id : AccountId) : ℕ :=
  ((vesting.filter fun v => v.account = id).map fun v => v.amount.toNat).sum

/-- What has unlocked of it by a height. -/
def unlockedBy (vesting : List VestingGrant) (id : AccountId) (height : ℕ) : ℕ :=
  ((vesting.filter fun v => v.account = id ∧ v.unlockHeight.toNat ≤ height).map fun v => v.amount.toNat).sum

/-- The unlock height of the last grant to an account. -/
def lastUnlock (vesting : List VestingGrant) (id : AccountId) : U64 :=
  ((vesting.filter fun v => v.account = id).getLast?.map VestingGrant.unlockHeight).getD 0

/-- No grant to the account unlocks after the last one in the list, unless it is of nothing. -/
def LastUnlocksLast (vesting : List VestingGrant) (id : AccountId) : Prop :=
  ∀ v ∈ vesting, v.account = id → v.amount ≠ 0 → v.unlockHeight.toNat ≤ (lastUnlock vesting id).toNat

variable {vesting past : List VestingGrant} {v : VestingGrant} {id : AccountId} {height : ℕ}

theorem granted_snoc : granted (past ++ [v]) id = granted past id + if v.account = id then v.amount.toNat else 0 := by
  by_cases hid : v.account = id
  · simp [granted, hid]
  · simp [granted, hid]

theorem lastUnlock_snoc : lastUnlock (past ++ [v]) id = if v.account = id then v.unlockHeight else lastUnlock past id := by
  by_cases hid : v.account = id
  · simp [lastUnlock, hid]
  · simp [lastUnlock, hid]

/-- From the last unlock height on, all of it has unlocked. -/
theorem LastUnlocksLast.granted_le (h : LastUnlocksLast vesting id)
    (hheight : (lastUnlock vesting id).toNat ≤ height) : granted vesting id ≤ unlockedBy vesting id height := by
  have hall : ∀ v ∈ vesting, v.account = id → v.amount ≠ 0 → v.unlockHeight.toNat ≤ height :=
    fun v hv hid hne => (h v hv hid hne).trans hheight
  clear h hheight
  unfold granted unlockedBy
  induction vesting with
  | nil => exact le_rfl
  | cons v rest ih =>
    have hrest := ih fun v' hv' => hall v' (List.mem_cons_of_mem _ hv')
    by_cases hid : v.account = id
    · by_cases hunlocked : v.unlockHeight.toNat ≤ height
      · simp only [List.filter_cons, hid, hunlocked, decide_true, and_self, if_true, List.map_cons, List.sum_cons]
        omega
      -- a grant that is still locked is of nothing
      have hzero : v.amount = 0 := by
        by_contra hne
        exact hunlocked (hall v List.mem_cons_self hid hne)
      simp only [List.filter_cons, hid, hunlocked, decide_true, decide_false, and_false, if_true, Bool.false_eq_true,
        if_false, List.map_cons, List.sum_cons, hzero]
      simpa using hrest
    · simpa only [List.filter_cons, hid, false_and, decide_false, Bool.false_eq_true, if_false] using hrest

/-- The accounts after some grants. -/
def Vested (past : List VestingGrant) (L : Ledger) : Prop :=
  ∀ id, (L.account id).locked.toNat = granted past id ∧ (L.account id).unlockHeight = lastUnlock past id

variable {C : Crypto}

theorem Vested.fund {L : Ledger} (h : Vested [] L) (a : GenesisAccount) : Vested [] (fund C L a) := by
  intro id
  rw [GenesisConfig.fund, Ledger.account_setAccount]
  split_ifs with hid
  · exact ⟨rfl, rfl⟩
  · exact h id

theorem Vested.vest {L L' : Ledger} (hv : vest C L v = .ok L') (h : Vested past L) : Vested (past ++ [v]) L' := by
  obtain ⟨-, locked, hlocked, rfl⟩ := vest_eq_ok hv
  intro id
  rw [Ledger.account_setAccount, granted_snoc, lastUnlock_snoc]
  by_cases hid : v.account = id
  · rw [if_pos hid, if_pos hid, if_pos hid]
    refine ⟨?_, rfl⟩
    rw [← hid, ← (h v.account).1]
    exact (BitVec.checkedAdd_eq_some.mp hlocked).symm
  · rw [if_neg hid, if_neg hid, if_neg hid]
    exact h id

theorem build_vested {config : GenesisConfig} {g : Genesis} (hg : config.build C = .ok g) :
    Vested config.vesting g.ledger :=
  build_induct (fun _ => ⟨rfl, rfl⟩) (fun a _ _ hL => hL.fund a) Vested.vest hg

end GenesisConfig

namespace Runtime
section Transactions
variable {E : Env} {ctx : BlockContext} {stx : SignedTransaction} {p : Prepared} {L L' : Ledger} {receipt : Receipt}
  {status : ExecutionStatus}

theorem prepare_lock {st : Stores} (h : prepare E ctx st stx = .ok p) :
    p.signer.locked = (st.account stx.transaction.signer).locked ∧
      p.signer.unlockHeight = (st.account stx.transaction.signer).unlockHeight := by
  obtain ⟨signer, action, nonce, balance, r, hadm⟩ := prepare_eq_ok h
  refine ⟨hadm.locked_eq, ?_⟩
  rw [hadm.prepared]
  obtain ⟨policy, -, -, -, rfl⟩ | ⟨-, -, rfl⟩ | ⟨-, -, rfl, -⟩ := authorize_eq_ok hadm.authorized
  all_goals rfl

theorem claimVesting_eq_ok {s s' : InFlight} (h : claimVesting ctx s = .ok (s', status)) :
    (s' = s ∧ status ≠ .success) ∨ status = .success ∧ s.signer.canClaimVesting ctx.height = true ∧
        ∃ balance, s.signer.balance.checkedAdd s.signer.locked = some balance ∧
          s' = { s with signer := { s.signer with balance, locked := 0, unlockHeight := 0 } } := by
  unfold claimVesting at h
  split_ifs at h with hcan
  · cases h
    exact .inl ⟨rfl, nofun⟩
  split at h
  · cases h
  · rename_i balance hbalance
    cases h
    exact .inr ⟨rfl, by simpa using hcan, balance, hbalance, rfl⟩

/-- An action that claims nothing leaves the signer's lock alone. -/
theorem dispatch_lock {x x' : ExecState} (hclaim : p.action ≠ .claimVesting)
    (h : dispatch E ctx stx p x = .ok (x', status)) :
    x'.signer.locked = x.signer.locked ∧ x'.signer.unlockHeight = x.signer.unlockHeight := by
  by_cases hpersonal : p.action.Personal
  · rcases hpersonal.cases with haction | ⟨code, haction⟩ | ⟨newKey, proof, haction⟩
    · exact absurd haction hclaim
    all_goals
      simp only [dispatch, haction] at h
      obtain ⟨s, hs, rfl⟩ := lift_eq_ok.mp h
    · unfold deploy at hs
      split at hs <;> cases hs <;> exact ⟨rfl, rfl⟩
    · unfold rotateKey at hs
      split_ifs at hs <;> cases hs <;> exact ⟨rfl, rfl⟩
  · exact Account.lock_of_standing (dispatch_spends hpersonal h)

theorem applyTransaction_lock (h : applyTransaction E ctx L stx = .ok (L', receipt)) {id : AccountId}
    (hother : stx.transaction.action.resolved ≠ .claimVesting ∨ id ≠ stx.transaction.signer) :
    (L'.account id).locked = (L.account id).locked ∧ (L'.account id).unlockHeight = (L.account id).unlockHeight := by
  obtain ⟨p, x, status, hp, hx, hL, -⟩ := applyTransaction_eq_ok h
  obtain ⟨b, hb, -⟩ := finish_account hL id
  rw [hb]
  by_cases hid : id = stx.transaction.signer
  · have hclaim : p.action ≠ .claimVesting := by
      rw [prepare_action hp]
      rcases hother with hclaim | hne
      · exact hclaim
      · exact absurd hid hne
    rw [if_pos hid]
    subst hid
    obtain ⟨hlocked, hunlock⟩ := prepare_lock hp
    unfold execute at hx
    dsimp only at hx
    split at hx
    · cases hx
      exact ⟨hlocked, hunlock⟩
    · obtain ⟨hlocked', hunlock'⟩ := dispatch_lock hclaim hx
      exact ⟨hlocked'.trans hlocked, hunlock'.trans hunlock⟩
  · have hG := covers_txGrant E ctx L stx.transaction
    rw [← prepare_action hp] at hG
    rw [if_neg hid]
    exact Account.lock_of_standing ((execute_effects hp hG hx).standing id)

end Transactions

/-- The step claims what has vested in an account. -/
def Step.Claims (st : Step) (id : AccountId) : Prop :=
  st.receipt.status = .success ∧ st.tx.transaction.action.resolved = .claimVesting ∧ st.tx.transaction.signer = id

instance (st : Step) (id : AccountId) : Decidable (st.Claims id) := inferInstanceAs (Decidable (_ ∧ _))

/-- What a step releases from the lock of an account. -/
def Step.released (id : AccountId) (st : Step) : ℕ :=
  if st.Claims id then (st.before.account id).locked.toNat - (st.after.account id).locked.toNat else 0

/-- How a transaction leaves the lock of an account. -/
inductive LockStep (st : Step) (id : AccountId) : Prop
  | keep (hclaim : ¬st.Claims id) (hlocked : (st.after.account id).locked = (st.before.account id).locked)
      (hunlock : (st.after.account id).unlockHeight = (st.before.account id).unlockHeight)
  | claim (hclaim : st.Claims id) (hvested : (st.before.account id).canClaimVesting st.ctx.height = true)
      (hlocked : (st.after.account id).locked = 0)

theorem Step.Valid.lockStep {E : Env} {st : Step} (hvalid : st.Valid E) (id : AccountId) : LockStep st id := by
  by_cases hother : st.tx.transaction.action.resolved ≠ .claimVesting ∨ id ≠ st.tx.transaction.signer
  · obtain ⟨hlocked, hunlock⟩ := applyTransaction_lock hvalid hother
    refine .keep (fun hclaim => ?_) hlocked hunlock
    rcases hother with hne | hne
    · exact hne hclaim.2.1
    · exact hne hclaim.2.2.symm
  · push Not at hother
    obtain ⟨haction, rfl⟩ := hother
    obtain ⟨p, s, hp, hs, hL⟩ := applyTransaction_arm (a := fun _ => claimVesting st.ctx) hvalid
      (fun p x hp => by simp only [dispatch, hp, haction])
    obtain ⟨hlocked, hunlock⟩ := prepare_lock hp
    obtain ⟨b, hb, -⟩ := finish_account hL st.tx.transaction.signer
    rw [if_pos rfl] at hb
    have hfailed : s = ⟨st.before, p.signer, p.fee⟩ → st.receipt.status ≠ .success →
        LockStep st st.tx.transaction.signer := by
      rintro rfl hne
      refine .keep (fun hclaim => hne hclaim.1) ?_ ?_
      · rw [hb]
        exact hlocked
      · rw [hb]
        exact hunlock
    rcases hs with ⟨hs, hne⟩ | hs
    · exact hfailed hs hne
    rcases claimVesting_eq_ok hs with ⟨hs, hne⟩ | ⟨hok, hcan, balance, -, rfl⟩
    · exact hfailed hs hne
    · refine .claim ⟨hok, haction, rfl⟩ ?_ (by rw [hb])
      rw [Account.canClaimVesting, ← hlocked, ← hunlock]
      exact hcan

/-! ## Chains -/

section Chains
variable {E : Env} {config : GenesisConfig} {accepted : List Step} {L L' : Ledger} {id : AccountId}

/-- What an account has claimed. -/
def claimedVesting (accepted : List Step) (id : AccountId) : ℕ := (accepted.map (Step.released id)).sum

/-- What is still locked, under the last unlock height, and what has been claimed. -/
def VestingTraced (vesting : List VestingGrant) (id : AccountId) (accepted : List Step) (L : Ledger) : Prop :=
  (L.account id).locked.toNat + claimedVesting accepted id = GenesisConfig.granted vesting id ∧
    ((L.account id).locked ≠ 0 → (L.account id).unlockHeight = GenesisConfig.lastUnlock vesting id)

variable {vesting : List VestingGrant}

theorem VestingTraced.step {st : Step} (h : VestingTraced vesting id accepted st.before) (hstep : LockStep st id) :
    (st.released id ≠ 0 → (GenesisConfig.lastUnlock vesting id).toNat ≤ st.ctx.height.toNat) ∧
      VestingTraced vesting id (accepted ++ [st]) st.after := by
  obtain ⟨hsum, hunlock⟩ := h
  have hsnoc : claimedVesting (accepted ++ [st]) id = claimedVesting accepted id + st.released id := by
    simp [claimedVesting]
  rw [VestingTraced, hsnoc]
  cases hstep with
  | keep hclaim hlocked hsame =>
    have hzero : st.released id = 0 := if_neg hclaim
    rw [hlocked, hsame, hzero]
    exact ⟨fun hne => absurd rfl hne, hsum, hunlock⟩
  | claim hclaim hvested hlocked =>
    have hall : st.released id = (st.before.account id).locked.toNat := by
      rw [Step.released, if_pos hclaim, hlocked]
      rfl
    simp only [Account.canClaimVesting, Bool.and_eq_true, decide_eq_true_eq] at hvested
    rw [hlocked, hall]
    refine ⟨fun _ => ?_, ?_, fun hne => absurd rfl hne⟩
    · rw [← hunlock hvested.1]
      exact hvested.2
    · change 0 + _ = _
      omega

theorem exists_released (h : claimedVesting accepted id ≠ 0) : ∃ st ∈ accepted, st.released id ≠ 0 := by
  by_contra hnone
  push Not at hnone
  refine h (List.sum_eq_zero fun n hn => ?_)
  obtain ⟨st, hst, rfl⟩ := List.mem_map.mp hn
  exact hnone st hst

/-- Along a chain, an account whose last grant unlocks last has claimed no more than its grants have unlocked. -/
theorem claims_vested (E : Env) (config : GenesisConfig) (g : Genesis) (height : ℕ) (accepted : List Step) (L : Ledger)
    (id : AccountId) (hg : config.build E.toCrypto = .ok g) (h : Chained E g.ledger 0 height accepted L)
    (hlast : GenesisConfig.LastUnlocksLast config.vesting id) :
    claimedVesting accepted id ≤ GenesisConfig.unlockedBy config.vesting id height := by
  obtain ⟨hlocked, hunlock⟩ := GenesisConfig.build_vested hg id
  obtain ⟨⟨hsum, -⟩, hsteps⟩ := Chained.history (J := VestingTraced config.vesting id)
    (Q := fun _ st => st.released id ≠ 0 → (GenesisConfig.lastUnlock config.vesting id).toNat ≤ st.ctx.height.toNat)
    ⟨by simpa [claimedVesting] using hlocked, fun _ => hunlock⟩
    (fun hreward hJ => by
      obtain ⟨b, hb⟩ := applyCoinbase_account hreward id
      rw [VestingTraced, hb]
      exact hJ)
    (fun hvalid hJ => hJ.step (hvalid.lockStep id)) h
  by_cases hnone : claimedVesting accepted id = 0
  · omega
  obtain ⟨st, hst, hreleased⟩ := exists_released hnone
  obtain ⟨earlier, later, hsplit⟩ := List.append_of_mem hst
  have hlate := hsteps earlier st later hsplit hreleased
  have hall := hlast.granted_le (hlate.trans (h.height_le st hst))
  omega

/-- A grant of a hundred grains for a long time, and after it one of a single grain that unlocks at once. -/
def twoGrants : List VestingGrant := [⟨⟨"vault.sov"⟩, 100, 1000⟩, ⟨⟨"vault.sov"⟩, 1, 1⟩]

/-- The grants in an order of one's choice. -/
def vestedGenesis (vesting : List VestingGrant) : GenesisConfig := { treasuryGenesis with vesting }

def vestedLedger (vesting : List VestingGrant) : Ledger :=
  ((vestedGenesis vesting).build sampleCrypto).toOption.elim treasury Genesis.ledger

def sampleClaimVesting : SignedTransaction := keyedTx (memberKey 0) "vault.sov" .claimVesting

/-- The steps of a block with that claim. -/
def vestedSteps (vesting : List VestingGrant) : List Step :=
  blockSteps sampleEnv sampleContext (vestedLedger vesting) [sampleClaimVesting]

theorem chained_vested (hbuild : ((vestedGenesis vesting).build sampleCrypto).toOption.isSome)
    (hrun : (executeBlock sampleEnv sampleContext (vestedLedger vesting) [sampleClaimVesting]).toOption.isSome) :
    ∃ g L, (vestedGenesis vesting).build sampleCrypto = .ok g ∧ Chained sampleEnv g.ledger 0 1 (vestedSteps vesting) L := by
  obtain ⟨g, hg⟩ := exists_of_toOption hbuild
  obtain ⟨⟨L, receipts⟩, hL⟩ := exists_of_toOption hrun
  have hledger : vestedLedger vesting = g.ledger := by
    rw [vestedLedger, hg]
    rfl
  unfold vestedSteps
  rw [hledger] at hL ⊢
  exact ⟨g, L, hg, .block .start rfl hL⟩

/-- The short grant opens the long one: at height 1 a claim releases all of both. -/
theorem early_claim : ∃ g L, (vestedGenesis twoGrants).build sampleCrypto = .ok g ∧
      Chained sampleEnv g.ledger 0 1 (vestedSteps twoGrants) L ∧ GenesisConfig.unlockedBy twoGrants ⟨"vault.sov"⟩ 1 = 1 ∧
      claimedVesting (vestedSteps twoGrants) ⟨"vault.sov"⟩ = 101 := by
  obtain ⟨g, L, hg, hchain⟩ := @chained_vested twoGrants (by decide +kernel) (by decide +kernel)
  exact ⟨g, L, hg, hchain, by decide +kernel, by decide +kernel⟩

/-- The same amounts, with the grant that unlocks last at the end. -/
def orderedGrants : List VestingGrant := [⟨⟨"vault.sov"⟩, 100, 0⟩, ⟨⟨"vault.sov"⟩, 1, 1⟩]

theorem claim_in_order : ∃ g L, (vestedGenesis orderedGrants).build sampleCrypto = .ok g ∧
      Chained sampleEnv g.ledger 0 1 (vestedSteps orderedGrants) L ∧
      claimedVesting (vestedSteps orderedGrants) ⟨"vault.sov"⟩ = 101 ∧
      claimedVesting (vestedSteps orderedGrants) ⟨"vault.sov"⟩ ≤ GenesisConfig.unlockedBy orderedGrants ⟨"vault.sov"⟩ 1 := by
  obtain ⟨g, L, hg, hchain⟩ := @chained_vested orderedGrants (by decide +kernel) (by decide +kernel)
  refine ⟨g, L, hg, hchain, by decide +kernel, claims_vested sampleEnv _ g 1 _ L _ hg hchain fun v hv _ _ => ?_⟩
  revert v
  decide +kernel

end Chains
end Runtime
end Sov
