import SovChain.Mining.Difficulty
import SovChain.State.Ledger
import SovChain.Types.Block

/-!
# `sov-chain`: genesis
-/

namespace Sov

structure GenesisAccount where
  account : AccountId
  key : PublicKey
  balance : Balance

/-- A locked allocation. -/
structure VestingGrant where
  account : AccountId
  amount : Balance
  unlockHeight : U64

structure GenesisConfig where
  chainId : String
  timestampMs : U64
  accounts : List GenesisAccount
  mining : MiningPolicy
  vesting : List VestingGrant

structure Genesis where
  ledger : Ledger
  block : Block
  coinbase : AccountId

inductive GenesisError where
  | vestingUnknownAccount (account : String)
  | supplyCapExceeded (total : U128) (cap : ℕ)
  | overflow
deriving DecidableEq

namespace GenesisConfig
variable (C : Crypto)

/-- The allocations and the whole mining budget, with checked additions. -/
def total (config : GenesisConfig) : Option U128 :=
  BitVec.checkedSum 0
    (config.accounts.map GenesisAccount.balance ++ config.vesting.map VestingGrant.amount ++
      [config.mining.miningBudgetGrains])

def fund (L : Ledger) (a : GenesisAccount) : Ledger :=
  L.setAccount C a.account { balance := a.balance, key := some a.key }

/-- Lock a grant in the account it is for. -/
def vest (L : Ledger) (v : VestingGrant) : Except GenesisError Ledger :=
  if !L.exists_ v.account then .error (.vestingUnknownAccount v.account.raw)
  else
    let account := L.account v.account
    match account.locked.checkedAdd v.amount with
    | none => .error .overflow
    | some locked => .ok (L.setAccount C v.account { account with locked, unlockHeight := v.unlockHeight })

/-- The label of a genesis without accounts. -/
def coinbase (config : GenesisConfig) : AccountId :=
  (config.accounts.head?.map GenesisAccount.account).getD ⟨"genesis.sov"⟩

/-- Block 0 over a ledger. -/
def block (config : GenesisConfig) (L : Ledger) : Block :=
  let block := Block.assemble C 0 Hash.zero (L.stateRoot C) (receiptsRoot C []) config.timestampMs
    config.coinbase []
  { block with header := { block.header with bits := config.mining.sha256dTarget.toCompact } }

/-- Check the supply cap and build the initial ledger and block. -/
def build (config : GenesisConfig) : Except GenesisError Genesis :=
  match config.total with
  | none => .error .overflow
  | some total =>
    if Balance.maxSupplyGrains < total.toNat then .error (.supplyCapExceeded total Balance.maxSupplyGrains)
    else do
      let L ← config.vesting.foldlM (vest C) (config.accounts.foldl (fund C) (Ledger.new C))
      return { ledger := L, block := config.block C L, coinbase := config.coinbase }

variable {C} {L L' : Ledger} {config : GenesisConfig} {I : List VestingGrant → Ledger → Prop}

theorem vest_eq_ok {v : VestingGrant} (h : vest C L v = .ok L') :
    L.exists_ v.account = true ∧ ∃ locked, (L.account v.account).locked.checkedAdd v.amount = some locked ∧
      L' = L.setAccount C v.account { L.account v.account with locked, unlockHeight := v.unlockHeight } := by
  unfold vest at h
  split_ifs at h with hexists
  dsimp only at h
  split at h
  · cases h
  · rename_i locked hlocked
    cases h
    exact ⟨by simpa using hexists, locked, hlocked, rfl⟩

theorem foldlM_vest_induct
    (vest : ∀ {past : List VestingGrant} {v : VestingGrant} {L L' : Ledger}, vest C L v = .ok L' → I past L →
      I (past ++ [v]) L')
    {past vesting : List VestingGrant} (hI : I past L) (h : vesting.foldlM (GenesisConfig.vest C) L = .ok L') :
    I (past ++ vesting) L' := by
  induction vesting generalizing L past with
  | nil =>
    cases h
    simpa using hI
  | cons v rest ih =>
    rw [List.foldlM_cons] at h
    rcases hv : GenesisConfig.vest C L v with e | L1
    · rw [hv] at h
      cases h
    rw [hv] at h
    have hrest := ih (vest hv hI) h
    rwa [List.append_assoc] at hrest

/-- What holds of the empty ledger and is kept by funding an account and by a grant holds at genesis, after all
grants. -/
theorem build_induct {g : Genesis} (new : I [] (Ledger.new C))
    (fund : ∀ a ∈ config.accounts, ∀ {L : Ledger}, I [] L → I [] (fund C L a))
    (vest : ∀ {past : List VestingGrant} {v : VestingGrant} {L L' : Ledger}, vest C L v = .ok L' → I past L →
      I (past ++ [v]) L') (h : config.build C = .ok g) : I config.vesting g.ledger := by
  have hfunded : I [] (config.accounts.foldl (GenesisConfig.fund C) (Ledger.new C)) :=
    List.foldlRecOn config.accounts (GenesisConfig.fund C) new fun _ hL a ha => fund a ha hL
  unfold build at h
  split at h
  · cases h
  split_ifs at h
  cases hL : config.vesting.foldlM (GenesisConfig.vest C)
      (config.accounts.foldl (GenesisConfig.fund C) (Ledger.new C)) with
  | error e =>
    rw [hL] at h
    cases h
  | ok L =>
    rw [hL] at h
    cases h
    exact foldlM_vest_induct vest hfunded hL

end GenesisConfig
end Sov
