import SovChain.Chain.Agreement
import SovChain.Runtime.Emission

/-!
# The ledger of a chain

A chain works on its ledger as `Worked` says: it executes blocks one height after the other, takes back what it does not
accept, and takes blocks off with their journals when it reorganises or tries a side branch. So the ledger of every
reachable chain has emitted what the schedule says for its height (`emission_exact`). That the supply is the genesis supply
and no more than what was mined is not up to the executor, but to the checks of an import.
-/

namespace Sov
open Sov.Runtime (Emitted Worked bind_eq_ok sampleCrypto sampleEnv sampleKey)
namespace Blockchain
variable {N : NodeEnv} {bc : Blockchain} {shaTarget : Target}

/-- The ledger was worked on from the genesis ledger, up to the height of the active chain, and the ring has the journals
of the newest blocks. -/
def Kept (N : NodeEnv) (bc : Blockchain) (ring : List UndoEntry) : Prop :=
  Worked N.toEnv bc.rules.mining bc.genesisLedger bc.blocks.below.length (ring.map UndoEntry.log) bc.ledger

theorem underPolicy_context (R : Rules) (header : BlockHeader) (shaTarget : Target) (signals : SignalLog) :
    Runtime.UnderPolicy R.mining (R.context header shaTarget signals) :=
  ⟨shaTarget, rfl⟩

theorem connectToActive_kept {bc' : Blockchain} {block : Block}
    {r : Except ChainError (List Receipt)} (h : Kept N bc bc.undoRing)
    (hheight : ∀ receipts, r = .ok receipts → block.header.height.toNat = bc.blocks.below.length + 1)
    (hc : connectToActive N bc block shaTarget = .ok (bc', r)) : Kept N bc' bc'.undoRing := by
  unfold connectToActive at hc
  split at hc
  · cases hc
    exact h
  obtain ⟨⟨L, result⟩, ht, hc⟩ := bind_eq_ok.mp hc
  unfold tryConnectBlock executeBlockOn at ht
  dsimp only at hc
  split at ht
  · cases ht
  · rename_i hx
    cases ht
    cases hc
    exact h.reject (by rw [hx]; rfl)
  · rename_i L' receipts hx
    cases ht
    split at hc
    · cases hc
      have hnext := (h.connect (hheight _ rfl) (underPolicy_context ..) hx).trim (k := reorgUndoWindow)
      unfold Kept
      rwa [rememberUndo, List.map_take]
    · cases hc
      exact h.reject (by rw [hx]; rfl)

theorem Rebuilt.extend_worked {R : Rules} {G : Ledger} {r r' : Rebuilt} {block : Block}
    (h : Worked N R.mining G r.activeBlocks.below.length [] r.ledger)
    (hheight : block.header.height.toNat = r.activeBlocks.below.length + 1)
    (hr : Rebuilt.extend N R r block shaTarget = .ok (.ok r')) :
    Worked N R.mining G r'.activeBlocks.below.length [] r'.ledger := by
  obtain ⟨L, receipts, ⟨hx, -⟩, rfl⟩ := Rebuilt.extend_eq_ok hr
  exact h.replay hheight (underPolicy_context ..) hx

/-- Every step of an import is work on the ledger. -/
theorem carried_worked : Carried N (fun _ => True) fun _ w =>
    Worked N w.rules.mining w.genesisLedger w.blocks.below.length (w.undoRing.map UndoEntry.log) w.ledger where
  connect h _ hheight hc := connectToActive_kept h (fun _ _ => hheight) hc
  connectIndexed h _ hheight hc := by
    have hkept := connectToActive_kept h (fun _ _ => hheight) hc
    rw [indexBlockReceipts_eq]
    exact hkept
  reject h hc := connectToActive_kept h (fun _ he => by cases he) hc
  disconnect {_ bc u ring b c} h hring hblocks _ _ := by
    have hlen : bc.blocks.below.length = c.below.length + 1 := by
      rw [hblocks]
      rfl
    have hlogs : bc.undoRing.map UndoEntry.log = u.log :: ring.map UndoEntry.log := by rw [hring, List.map_cons]
    change Worked _ _ _ bc.blocks.below.length (bc.undoRing.map UndoEntry.log) _ at h
    rw [hlen, hlogs] at h
    exact h.disconnect
  conceal h := h
  reveal h := h
  rewind _ := .genesis
  replay h _ hheight hx := Rebuilt.extend_worked h hheight hx

theorem Reachable.kept (h : Reachable N bc) : Kept N bc bc.undoRing := by
  refine carried_worked.reachable (fun hnew _ => ?_) h
  obtain ⟨g, -, -, -, rfl⟩ := new_eq_ok hnew
  exact .genesis

theorem Grounded.worked {P : Bytes → Prop} {k : Hash} {r : Rebuilt} (hg : Grounded N P bc) (hr : Replay N bc k r) :
    Worked N bc.rules.mining bc.genesisLedger r.activeBlocks.below.length [] r.ledger := by
  induction hr with
  | genesis => exact .genesis
  | @block k e r _ hr he hk hx ih =>
    have hlen := hr.length_below hg
    rw [ActiveChain.length_toList] at hlen
    exact Rebuilt.extend_worked ih (by rw [hg.height_eq he hk hr, Nat.add_right_cancel hlen]) hx

/-- The supply is the genesis supply with what was mined, and stays under the cap. -/
def Capped (g : Genesis) (L : Ledger) : Prop :=
  ∃ supply total, g.ledger.totalSupply = some supply ∧ L.totalSupply = some total ∧
    total.toNat = supply.toNat + L.minedEmitted.toNat ∧ total.toNat ≤ Balance.maxSupplyGrains

/-- Whatever is executed from an accepted genesis, and taken back, the amount mined is that of the height. So it is in
every chain with that genesis, whichever blocks it was given. After a run of clean imports, from genesis or from a boot,
no other coins are in the ledger. -/
theorem emission_exact (N : NodeEnv) (config : GenesisConfig) (g : Genesis) (hg : config.build N.toCrypto = .ok g) :
    (∀ n logs L, Worked N.toEnv config.mining g.ledger n logs L → Emitted config g n L) ∧
    (∀ bc, Reachable N bc → bc.rules.mining = config.mining → bc.genesisLedger = g.ledger →
      Emitted config g bc.height bc.ledger) ∧
    ∀ P bc, N.toCrypto.Separating P → GuardedRun N (Started N P) (CleanImport N P) bc →
      bc.rules.mining = config.mining → bc.genesisLedger = g.ledger →
        Emitted config g bc.height bc.ledger ∧ Capped g bc.ledger := by
  refine ⟨fun n logs L h => h.emitted hg, fun bc hreach hmining hledger => ?_, fun P bc hN hrun hmining hledger => ?_⟩
  · have hkept := hreach.kept
    obtain ⟨bs, hbs, hblocks⟩ := hreach.skeleton.active
    have hheight : bc.height = bc.blocks.below.length := by
      rw [height, hblocks, (path_tip hreach.skeleton.tree hbs).2, ActiveChain.length_below_extend]
      exact (Nat.zero_add _).symm
    unfold Kept at hkept
    rw [hmining, hledger] at hkept
    rw [hheight]
    exact hkept.emitted hg
  · have hs := hrun.soundStarted hN
    obtain ⟨r, hr, hlive⟩ := hs.live_eq
    have hworked := hs.grounded.worked hr
    have hconserves := (hs.grounded.conserves hN hr).1
    obtain ⟨total, htotal⟩ := (hs.grounded.good hN hr).supply
    have hlen := hr.length_below hs.grounded
    rw [ActiveChain.length_toList] at hlen
    have hheight : bc.height = r.activeBlocks.below.length := by
      rw [height, congrArg Blockchain.blocks hlive]
      exact (Nat.add_right_cancel hlen).symm
    rw [hmining, hledger] at hworked
    rw [hledger] at hconserves
    rw [hheight, (congrArg ledger hlive : bc.ledger = r.ledger)]
    have hemitted := hworked.emitted hg
    obtain ⟨supply, hsupply, hcap⟩ := hemitted.2
    have hfresh : g.ledger.minedEmitted = 0 := by
      rw [GenesisConfig.build_stores hg]
      rfl
    have hsum := hconserves.1
    rw [hfresh, Stores.totalSupply_eq_some.mp hsupply, Stores.totalSupply_eq_some.mp htotal] at hsum
    refine ⟨hemitted, supply, total, hsupply, htotal, hsum, ?_⟩
    exact hsum.trans_le hcap

/-- The first block of the paid chain. -/
theorem paid_emission : ∃ bc i, importBlockTracked datedNode paidChain (paidBlock paidRoot) = .ok (bc, .ok i) ∧
    bc.ledger.totalSupply = some 50 ∧ Emitted paidConfig paidGenesis bc.height bc.ledger ∧
    Capped paidGenesis bc.ledger := by
  obtain ⟨bc, i, h, -, hsupply, hrun⟩ := exists_paid
  have hsetup := setup_importBlockTracked h
  have hrules : bc.rules = paidChain.rules := congrArg Setup.rules hsetup
  have hledger : bc.genesisLedger = paidGenesis.ledger := congrArg Setup.genesisLedger hsetup
  exact ⟨bc, i, h, hsupply, (emission_exact datedNode paidConfig paidGenesis rfl).2.2 Dated bc separating_datedCrypto hrun
    (by rw [hrules]; rfl) hledger⟩

/-- All coins are in the vault. -/
def fullGenesis : GenesisConfig :=
  { Runtime.treasuryGenesis with
    accounts := [⟨⟨"vault.sov"⟩, sampleKey, BitVec.ofNat 128 Balance.maxSupplyGrains⟩] }

/-- The vault takes a policy and proposes a payment through its own `multisigExec`. -/
def inflatingTxs : List SignedTransaction :=
  [Runtime.sampleTx "vault.sov" (.setMultisig [sampleKey] 1),
   Runtime.numberedTx sampleKey "vault.sov" 1 (.multisigExec
    (.proposeMultisig ⟨"vault.sov"⟩ (.transfer ⟨"bob.sov"⟩ 5)) [⟨0, .v1Ed25519 (.zero 64)⟩])]

/-- Executing that block makes five coins above the cap. -/
theorem executed_supply_above_cap : ∃ g L total, fullGenesis.build sampleCrypto = .ok g ∧
    Worked sampleEnv fullGenesis.mining g.ledger 1 [] L ∧ L.totalSupply = some total ∧
    total.toNat = Balance.maxSupplyGrains + 5 := by
  have hrun : (fullGenesis.build sampleCrypto).toOption.bind (fun g =>
      (Runtime.executeBlock sampleEnv Runtime.sampleContext g.ledger inflatingTxs).toOption.bind fun r =>
        r.1.totalSupply.map BitVec.toNat) = some (Balance.maxSupplyGrains + 5) := by decide +kernel
  obtain ⟨g, hg, hrun⟩ := Option.bind_eq_some_iff.mp hrun
  obtain ⟨⟨L, receipts⟩, hx, htotal⟩ := Option.bind_eq_some_iff.mp hrun
  obtain ⟨total, htotal, hcap⟩ := Option.map_eq_some_iff.mp htotal
  exact ⟨g, L, total, Runtime.eq_ok_of_toOption hg, .replay .genesis rfl ⟨_, rfl⟩ (Runtime.eq_ok_of_toOption hx), htotal, hcap⟩

end Blockchain
end Sov
