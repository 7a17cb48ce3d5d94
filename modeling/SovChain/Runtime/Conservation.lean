import SovChain.Runtime.Dispatch
import SovChain.State.Supply

/-!
# Conservation of the native coin

While an action runs, the signer's coin is counted twice: in the account in flight, and in the copy the
ledger still holds. `value` adds up everything, and no effect changes it. When the books are
closed the ledger's copy is dropped, so the supply after the transaction is the supply before it exactly
when that copy was not touched in between. Proposals touch it: they work on the ledger's accounts, and the
vault or the payee may be the signer.
-/

namespace Sov
open BitVec (checkedAdd_eq_some checkedSub_eq_some toNat_ofNat)

/-- The ledger, the signer in flight and the fee, with the ledger's own copy of the signer still in. -/
def InFlight.value (s : InFlight) : ℕ := s.ledger.supply + s.signer.worth + s.feePaid.toNat

namespace Stores
variable {s s' : Stores} {sid contract : AccountId} {op : UndoOp}

/-- What a store that moves no coin leaves alone. -/
structure SameCoin (s s' : Stores) : Prop where
  accounts : s'.accounts = s.accounts
  offAccount : s'.offAccount = s.offAccount
  htlcs : s'.htlcs = s.htlcs
  htlcLocked : s'.htlcLocked = s.htlcLocked

theorem SameCoin.trans {s1 s2 s3 : Stores} (h : SameCoin s1 s2) (h' : SameCoin s2 s3) : SameCoin s1 s3 :=
  ⟨h'.accounts.trans h.accounts, h'.offAccount.trans h.offAccount, h'.htlcs.trans h.htlcs,
    h'.htlcLocked.trans h.htlcLocked⟩

theorem SameCoin.supply (h : SameCoin s s') : s'.supply = s.supply := by
  rw [Stores.supply, Stores.supply, held, held, h.accounts, h.offAccount]

theorem SameCoin.covered (h : SameCoin s s') (hc : s.EscrowsCovered) : s'.EscrowsCovered := by
  rw [EscrowsCovered, escrowed, h.htlcs, h.htlcLocked]
  exact hc

theorem SameCoin.of_permitted (h : Permitted sid s op) : SameCoin s (s.store op) := by
  cases op <;> first | exact ⟨rfl, rfl, rfl, rfl⟩ | exact absurd h nofun

theorem SameCoin.of_moves (h : Relation.ReflTransGen (Runtime.Moves contract) s s') : SameCoin s s' := by
  induction h with
  | refl => exact ⟨rfl, rfl, rfl, rfl⟩
  | tail _ hstep ih =>
    refine ih.trans ?_
    cases hstep <;> exact ⟨rfl, rfl, rfl, rfl⟩

end Stores

theorem Runtime.mintTokens_sameCoin {C : Crypto} {asset : Hash} {info : TokenInfo} {dest : AccountId}
    {amount : Balance} {L L' : Ledger} (h : mintTokens C asset info dest amount L = some L') :
    Stores.SameCoin L L' := by
  obtain ⟨_, _, -, -, rfl⟩ := mintTokens_eq_some h
  exact ⟨rfl, rfl, rfl, rfl⟩

/-- The vault counter follows the vaults. -/
theorem Ledger.setVault_eq_some {C : Crypto} {L L' : Ledger} {owner : AccountId} {v : Vault}
    (h : L.setVault C owner v = some L') : ∃ next : Balance, L.vaultCollateral.toNat + v.collateral.toNat =
        (L.vault owner).collateral.toNat + next.toNat ∧ L' = (L.overwrite C (.vaultCollateral next)).overwrite C
        (.vault owner (if v.isEmpty then none else some v)) := by
  unfold Ledger.setVault at h
  simp only [Option.bind_eq_bind, Option.bind_eq_some_iff, Option.pure_def, Option.some.injEq] at h
  obtain ⟨base, hbase, next, hnext, rfl⟩ := h
  rw [checkedSub_eq_some] at hbase
  rw [checkedAdd_eq_some] at hnext
  exact ⟨next, by omega, rfl⟩

namespace Effect
variable {C : Crypto} {sid : AccountId} {G : Grant} {s s' : InFlight}

open Stores
open InFlight (value withBalance)

theorem value_eq (h : Effect C sid G s s') (hc : s.ledger.EscrowsCovered) :
    s'.value = s.value ∧ s'.ledger.EscrowsCovered := by
  cases h with
  | write op hp hi =>
    have hsame := SameCoin.of_permitted hp
    exact ⟨by simp only [value, Ledger.toStores_overwrite, hsame.supply], hsame.covered hc⟩
  | signer h => exact ⟨by simp [value, h], hc⟩
  | @fee amount b t hb ht =>
    rw [checkedSub_eq_some] at hb
    rw [checkedAdd_eq_some] at ht
    refine ⟨?_, hc⟩
    simp only [value, withBalance, Account.worth]
    omega
  | @pay dest amount b c hne hi hb hc' =>
    rw [checkedSub_eq_some] at hb
    rw [checkedAdd_eq_some] at hc'
    have := s.ledger.supply_setAccount C dest { s.ledger.account dest with balance := c }
    refine ⟨?_, hc⟩
    simp only [value, withBalance, Account.worth] at this ⊢
    omega
  | @collect owner amount b c hne hg hi hc' hb =>
    rw [checkedSub_eq_some] at hc'
    rw [checkedAdd_eq_some] at hb
    have := s.ledger.supply_setAccount C owner { s.ledger.account owner with balance := c }
    refine ⟨?_, hc⟩
    simp only [value, withBalance, Account.worth] at this ⊢
    omega
  | @touch id hi =>
    have := s.ledger.supply_setAccount C id (s.ledger.account id)
    refine ⟨?_, hc⟩
    simp only [value]
    omega
  | @exec vault dest amount b c hne hg hi hd hb hc' =>
    rw [checkedSub_eq_some] at hb
    rw [checkedAdd_eq_some] at hc'
    have hdest := s.ledger.supply_setAccount C dest { s.ledger.account dest with balance := c }
    have hvault := (s.ledger.setAccount C dest { s.ledger.account dest with balance := c }).supply_setAccount
      C vault { s.ledger.account vault with balance := b }
    rw [Ledger.account_setAccount_of_ne C s.ledger hne] at hvault
    refine ⟨?_, hc⟩
    simp only [value, Account.worth] at hdest hvault ⊢
    omega
  | shield hb hn | shieldV2 hb hn =>
    rw [checkedSub_eq_some] at hb
    rw [checkedAdd_eq_some] at hn
    refine ⟨?_, hc⟩
    simp [value, withBalance, Account.worth, supply, held, offAccount]
    omega
  | deshield hb hn | deshieldV2 hb hn =>
    rw [checkedAdd_eq_some] at hb
    rw [checkedSub_eq_some] at hn
    refine ⟨?_, hc⟩
    simp [value, withBalance, Account.worth, supply, held, offAccount]
    omega
  | pool => exact ⟨rfl, hc⟩
  | torn => exact ⟨rfl, hc⟩
  | @lock id htlc b n hid hb hn =>
    rw [checkedSub_eq_some] at hb
    rw [checkedAdd_eq_some] at hn
    have hopen := (s.ledger.overwrite C (.htlcLocked n)).escrowed_store_some hid htlc
    refine ⟨?_, ?_⟩
    · simp [value, withBalance, Account.worth, supply, held, offAccount]
      omega
    · simp [withBalance, EscrowsCovered, escrowed] at hopen hc ⊢
      omega
  | @settle id htlc b hid hb =>
    rw [checkedAdd_eq_some] at hb
    have hclose := s.ledger.escrowed_store_none hid
    have hsub := BitVec.toNat_saturatingSub s.ledger.htlcLocked htlc.amount
    refine ⟨?_, ?_⟩
    · simp [value, withBalance, Account.worth, supply, held, offAccount, EscrowsCovered]
        at hc hclose ⊢
      omega
    · simp [withBalance, EscrowsCovered, escrowed] at hclose hc ⊢
      omega
  | @vault v L b h hi hb =>
    obtain ⟨next, hnext, rfl⟩ := Ledger.setVault_eq_some h
    refine ⟨?_, hc⟩
    simp [value, withBalance, Account.worth, supply, held, offAccount]
    omega
  | mint hinfo hi h =>
    have hsame := Runtime.mintTokens_sameCoin h
    exact ⟨by simp [value, hsame.supply], hsame.covered hc⟩
  | burn => exact ⟨rfl, hc⟩
  | tokenMove => exact ⟨rfl, hc⟩
  | batch hg hs hwf h =>
    have hsame := SameCoin.of_moves (Runtime.settleContractTokenTransfers_moves h)
    exact ⟨by simp [value, hsame.supply], hsame.covered hc⟩

end Effect

section
variable {C : Crypto} {sid : AccountId} {G : Grant} {s s' : InFlight}

theorem Effects.value_eq (h : Effects C sid G s s') (hc : s.ledger.EscrowsCovered) :
    s'.value = s.value ∧ s'.ledger.EscrowsCovered := by
  induction h with
  | refl => exact ⟨rfl, hc⟩
  | tail _ hstep ih =>
    obtain ⟨hvalue, hcovered⟩ := hstep.value_eq ih.2
    exact ⟨hvalue.trans ih.1, hcovered⟩

theorem Effect.ledgerCopy_eq (h : Effect C sid G s s') (hG : ∀ id, ¬G.vault id) :
    s'.ledger.account sid = s.ledger.account sid := by
  have hsame : Stores.SameCoin s.ledger s'.ledger →
      s'.ledger.account sid = s.ledger.account sid := fun h => by
    rw [Stores.account, Stores.account, h.accounts]
  cases h with
  | write op hp hi => exact hsame (.of_permitted hp)
  | pay hne | collect hne => exact Ledger.account_setAccount_of_ne C s.ledger hne _
  | @touch id =>
    rw [Ledger.account_setAccount]
    split_ifs with hid
    · rw [hid]
    · rfl
  | exec _ hg => exact absurd hg (hG _)
  | vault h =>
    obtain ⟨next, -, rfl⟩ := Ledger.setVault_eq_some h
    rfl
  | mint _ _ h => exact hsame (Runtime.mintTokens_sameCoin h)
  | batch _ _ _ h => exact hsame (.of_moves (Runtime.settleContractTokenTransfers_moves h))
  | _ => rfl

theorem Effects.ledgerCopy_eq (h : Effects C sid G s s') (hG : ∀ id, ¬G.vault id) :
    s'.ledger.account sid = s.ledger.account sid := by
  induction h with
  | refl => rfl
  | tail _ hstep ih => exact (hstep.ledgerCopy_eq hG).trans ih

end

namespace Runtime
variable {E : Env} {C : Crypto} {ctx : BlockContext} {stx : SignedTransaction} {p : Prepared}
  {L L' : Ledger}

theorem credit_supply {id : AccountId} {amount : Balance} (h : credit C L id amount = .ok L') :
    L'.supply = L.supply + amount.toNat := by
  obtain ⟨rfl, rfl⟩ | ⟨b, hb, rfl⟩ := credit_eq_ok h
  · simp
  rw [checkedAdd_eq_some] at hb
  have := L.supply_setAccount C id { L.account id with balance := b }
  simp only [Account.worth] at this ⊢
  omega

theorem finish_supply {sid : AccountId} {tip : Balance} {s : InFlight} (h : finish C ctx sid tip s = .ok L) :
    L.supply + (s.ledger.account sid).worth = s.value + tip.toNat := by
  obtain ⟨L1, hfee, htip⟩ := finish_eq_ok h
  have hback := s.ledger.supply_setAccount C sid s.signer
  have hfee := credit_supply hfee
  have htip := credit_supply htip
  simp only [InFlight.value]
  omega

theorem start_value (hp : prepare E ctx L stx = .ok p) :
    (start p L).value + p.tip.toNat = L.supply + (L.account stx.transaction.signer).worth := by
  obtain ⟨signer, action, nonce, balance, r, hadm⟩ := prepare_eq_ok hp
  have hbalance := hadm.balance_eq
  have hlocked := hadm.locked_eq
  simp only [start, InFlight.value, Account.worth, hlocked]
  omega

theorem execute_supply {x : ExecState} {status : ExecutionStatus} {G : Grant} (hp : prepare E ctx L stx = .ok p)
    (hG : Covers E ctx L stx.transaction.signer stx.transaction.publicKey p.action G)
    (hx : execute E ctx stx p L = .ok (x, status)) (hc : L.EscrowsCovered)
    (hL : finish E ctx stx.transaction.signer p.tip x.toInFlight = .ok L') :
    L'.supply + (x.ledger.account stx.transaction.signer).worth =
      L.supply + (L.account stx.transaction.signer).worth := by
  have hvalue := (execute_effects hp hG hx).value_eq hc
  have hstart := start_value hp
  have hfinish := finish_supply hL
  omega

theorem covers_of_not_isProposal {st : Stores} {sid : AccountId} {key : PublicKey} {action : Action}
    (h : action.isProposal = false) :
    Covers C ctx st sid key action ⟨fun _ => True, fun _ => True, fun _ => False, True, fun _ => True⟩ where
  signer := trivial
  wellFormed _ _ := trivial
  ids _ _ := trivial
  owners _ _ _ _ := trivial
  windows _ _ _ := trivial
  proposals _ _ _ _ _ _ := trivial
  proposed _ _ _ _ _ _ := trivial
  intent _ _ _ := trivial
  contract _ _ _ _ := trivial
  vault vault inner ha := by
    cases action <;> first | exact ha | cases h
  pool _ _ := trivial

theorem applyTransaction_supply {receipt : Receipt} (hc : L.EscrowsCovered)
    (hproposal : stx.transaction.action.resolved.isProposal = false)
    (h : applyTransaction E ctx L stx = .ok (L', receipt)) : L'.supply = L.supply := by
  obtain ⟨p, x, status, hp, hx, hL, -⟩ := applyTransaction_eq_ok h
  have hG : Covers E ctx L stx.transaction.signer stx.transaction.publicKey p.action _ :=
    covers_of_not_isProposal (prepare_action hp ▸ hproposal)
  have hcopy := (execute_effects hp hG hx).ledgerCopy_eq fun _ => id
  have hsupply := execute_supply hp hG hx hc hL
  rw [show x.ledger.account _ = L.account _ from hcopy] at hsupply
  omega

theorem minedEmitted_credit {id : AccountId} {amount : Balance} (h : credit C L id amount = .ok L') :
    L'.minedEmitted = L.minedEmitted := by
  obtain ⟨-, rfl⟩ | ⟨b, -, rfl⟩ := credit_eq_ok h <;> rfl

theorem applyCoinbase_supply {reward : Balance} (h : applyCoinbase C ctx L = .ok (L', reward)) :
    reward = ctx.mining.rewardAt ctx.height L.minedEmitted ∧ L'.supply = L.supply + reward.toNat ∧
      L'.minedEmitted.toNat = L.minedEmitted.toNat + reward.toNat := by
  obtain ⟨hreward, ⟨rfl, rfl⟩ | ⟨L1, next, hcredit, hnext, rfl⟩⟩ := applyCoinbase_eq_ok h
  · exact ⟨hreward, by simp, by simp⟩
  have hsupply := credit_supply hcredit
  rw [checkedAdd_eq_some, minedEmitted_credit hcredit] at hnext
  exact ⟨hreward, hsupply, hnext.symm⟩

/-- Every action but the two that execute proposals leaves the supply as it is, and the coinbase raises it
with the emission counter. The escrow counter has to cover the open escrows, because settling one lowers
the counter only as far as zero; the budget has to respect the cap, because nothing else bounds a
reward. -/
theorem supply_conserved (E : Env) (ctx : BlockContext) (L : Ledger) (t : Balance)
    (ht : L.totalSupply = some t) (hcap : t.toNat ≤ Balance.maxSupplyGrains) (hc : L.EscrowsCovered)
    (hbudget : ctx.mining.miningBudgetGrains.toNat ≤ Balance.maxSupplyGrains) :
    (∀ stx L' receipt, stx.transaction.action.resolved.isProposal = false →
      applyTransaction E ctx L stx = .ok (L', receipt) → L'.totalSupply = L.totalSupply) ∧
    ∀ L' reward, applyCoinbase E.toCrypto ctx L = .ok (L', reward) →
      ∃ t' : Balance, L'.totalSupply = some t' ∧ t'.toNat = t.toNat + reward.toNat ∧
        L'.minedEmitted.toNat = L.minedEmitted.toNat + reward.toNat := by
  refine ⟨fun stx L' receipt hproposal h => ?_, fun L' reward h => ?_⟩
  · exact Stores.totalSupply_congr (applyTransaction_supply hc hproposal h)
  obtain ⟨hreward, hsupply, hmined⟩ := applyCoinbase_supply h
  have hle := ctx.mining.add_rewardAt_le ctx.height L.minedEmitted
  rw [Stores.totalSupply_eq_some] at ht
  have hlt : t.toNat + reward.toNat < 2 ^ 128 := by
    rw [← hreward] at hle
    simp only [Balance.maxSupplyGrains, Balance.maxSupplySov, Balance.grainsPerSov, Balance.decimals] at hcap hbudget
    omega
  refine ⟨BitVec.ofNat 128 (t.toNat + reward.toNat), ?_, ?_, hmined⟩
  · rw [Stores.totalSupply_eq_some, hsupply, ht, toNat_ofNat, Nat.mod_eq_of_lt hlt]
  · rw [toNat_ofNat, Nat.mod_eq_of_lt hlt]

/-! ## Sample inputs -/

/-- Hashes that keep the first 32 bytes, and signatures that all verify. -/
def sampleCrypto : Crypto where
  digest := FixedBytes.pad 32
  sha256 := FixedBytes.pad 32
  verifyEd25519 _ _ _ := true
  verifyMlDsa65 _ _ _ := true
  orchardRoot _ := Hash.zero
  pqRoot _ := Hash.zero

/-- No contract returns and no shielded bundle decodes. -/
def sampleEnv : Env where
  toCrypto := sampleCrypto
  vm _ := ⟨0, .error .outOfGas⟩
  decodeShielded _ := none
  verifyShieldedProof _ := false
  verifyShieldedCarrier _ _ := false
  zkSuite2 := false
  decodeV2 _ _ := .error (.other "")
  verifyCarrierAuth _ _ := false
  verifySpend _ _ := .error ""

def sampleMining : MiningPolicy where
  powAlgo := .sha256d
  sha256dTarget := BitVec.allOnes 256
  baseReward := 0
  halvingIntervalBlocks := 1
  miningBudgetGrains := 0
  targetBlockMs := 1
  gasPrice := 0
  maxCodeBytes := 0
  deshieldWindowBlocks := 0
  deshieldLimitGrains := 0

def sampleContext : BlockContext where
  height := 1
  prevHash := Hash.zero
  blockTimeMs := 0
  mining := sampleMining
  gasPrice := 0
  miner := ⟨"miner.sov"⟩
  pq := none
  txDomain := .legacy
  feeAuctionActive := false
  shieldedV2Active := false
  shieldedV2Suite2Active := false
  txTimestampActive := false
  chainDomain := ⟨"sov", Hash.zero⟩

def sampleKey : PublicKey := .v1Ed25519 (FixedBytes.zero 32)

/-- The key of a member. -/
def memberKey (b : UInt8) : PublicKey := .v1Ed25519 (.fill 32 b)

def sampleTx (signer : String) (action : Action) : SignedTransaction where
  transaction := { signer := ⟨signer⟩, publicKey := sampleKey, nonce := 0, action }
  signature := .v1Ed25519 (FixedBytes.zero 64)

/-- Accounts that share one key. -/
def sampleLedger (accounts : List (String × Balance)) : Ledger :=
  accounts.foldl (fun L e => L.setAccount sampleCrypto ⟨e.1⟩ { balance := e.2, key := some sampleKey })
    (.new sampleCrypto)

/-- One account, of seven grains. -/
def aliceFunded : Ledger := sampleLedger [("alice.sov", 7)]

def samplePayment : SignedTransaction := sampleTx "alice.sov" (.transfer ⟨"bob.sov"⟩ 5)

abbrev sampleApply : Ledger → SignedTransaction → Except Fault (Ledger × Receipt) :=
  applyTransaction sampleEnv sampleContext

/-- An escrow of five grains that the counter does not know of. -/
def uncoveredLedger : Ledger :=
  { aliceFunded with
    htlcs := OrdMap.empty.insert Hash.zero ⟨⟨"alice.sov"⟩, ⟨"bob.sov"⟩, 5, Hash.zero, 0⟩ }

/-- A budget as large as the type. -/
def unboundedMining : MiningPolicy := { sampleMining with baseReward := -1, miningBudgetGrains := -1 }

/-- Refunding an escrow the counter does not cover mints its amount, and a reward beyond the cap leaves the
supply undefined. -/
theorem supply_not_conserved : (uncoveredLedger.totalSupply = some 7 ∧
      ((sampleApply uncoveredLedger
        (sampleTx "alice.sov" (.htlcRefund Hash.zero))).toOption.map fun r => r.1.totalSupply) = some (some 12)) ∧
    (aliceFunded.totalSupply = some 7 ∧
      ((applyCoinbase sampleCrypto { sampleContext with mining := unboundedMining }
        aliceFunded).toOption.map fun r => r.1.totalSupply) = some none) := by
  refine ⟨⟨?_, ?_⟩, ?_, ?_⟩ <;> decide +kernel

theorem exists_of_toOption {ε α : Type} {x : Except ε α} (h : x.toOption.isSome) : ∃ a, x = .ok a := by
  cases x with
  | error e => cases h
  | ok a => exact ⟨a, rfl⟩

theorem eq_ok_of_toOption {ε α : Type} {x : Except ε α} {a : α} (h : x.toOption = some a) : x = .ok a := by
  cases x with
  | error e => cases h
  | ok b => exact congrArg Except.ok (Option.some.inj h)

theorem exists_of_map_toOption {ε α β : Type} {x : Except ε α} {f : α → β} {b : β} (h : x.toOption.map f = some b) :
    ∃ a, x = .ok a ∧ f a = b := by
  obtain ⟨a, ha, hf⟩ := Option.map_eq_some_iff.mp h
  exact ⟨a, eq_ok_of_toOption ha, hf⟩

/-- A transfer between two accounts. -/
theorem sample_transfer_conserves : ∃ r, sampleApply aliceFunded samplePayment = .ok r ∧
      r.1.totalSupply = aliceFunded.totalSupply := by
  obtain ⟨r, hr⟩ := exists_of_toOption (x := sampleApply aliceFunded samplePayment) (by decide +kernel)
  exact ⟨r, hr, (supply_conserved sampleEnv sampleContext aliceFunded 7
    (by decide +kernel) (by decide) (by decide +kernel) (by decide)).1 _ _ _ (by decide) hr⟩

end Runtime
end Sov
