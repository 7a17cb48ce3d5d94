import SovChain.Runtime.Failures
import SovChain.Runtime.Rollback
import SovChain.Runtime.Traces
import Mathlib.Algebra.BigOperators.Intervals
import Mathlib.Algebra.Order.BigOperators.Group.Finset

/-!
# Emission

The reward of a block depends on its height and on what has been mined, and what has been mined comes back with the
journal when a block is undone. So at every height it is the sum of the scheduled subsidies, cut off at the budget,
whatever the blocks contain and however the chain got there (`Worked.emitted`).
-/

namespace Sov
namespace MiningPolicy

/-- The subsidy the schedule has for a height. -/
def subsidy (p : MiningPolicy) (height : ℕ) : ℕ :=
  p.baseReward.toNat / 2 ^ ((height - 1) / max p.halvingIntervalBlocks.toNat 1)

/-- What is mined up to a height. -/
def emission (p : MiningPolicy) (height : ℕ) : ℕ :=
  min p.miningBudgetGrains.toNat (∑ h ∈ Finset.Icc 1 height, p.subsidy h)

variable {p : MiningPolicy} {n : ℕ}

theorem sum_subsidy_succ (p : MiningPolicy) (n : ℕ) :
    ∑ h ∈ Finset.Icc 1 (n + 1), p.subsidy h = ∑ h ∈ Finset.Icc 1 n, p.subsidy h + p.subsidy (n + 1) :=
  Finset.sum_Icc_succ_top (by omega) _

theorem baseReward_le_sum (hn : 0 < n) : p.baseReward.toNat ≤ ∑ h ∈ Finset.Icc 1 n, p.subsidy h := by
  have hfirst : p.subsidy 1 = p.baseReward.toNat := by simp [subsidy]
  rw [← hfirst]
  exact Finset.single_le_sum (f := p.subsidy) (fun _ _ => Nat.zero_le _) (Finset.mem_Icc.mpr ⟨le_rfl, hn⟩)

/-- The code stops halving at 127, where only a base reward beyond every budget has anything left. -/
theorem scheduled_eq {halvings : ℕ} (h : halvings < 127 ∨ p.baseReward.toNat < 2 ^ 127) :
    (if 127 ≤ halvings then 0 else p.baseReward.toNat >>> halvings) = p.baseReward.toNat / 2 ^ halvings := by
  split_ifs with hlarge
  · rcases h with hsmall | hbase
    · omega
    · exact (Nat.div_eq_of_lt (hbase.trans_le (Nat.pow_le_pow_right (by decide) hlarge))).symm
  · exact Nat.shiftRight_eq_div_pow _ _

theorem rewardAt_emission {height : U64} {mined : Balance} (hbudget : p.miningBudgetGrains.toNat < 2 ^ 127)
    (hheight : height.toNat = n + 1) (hmined : mined.toNat = p.emission n) :
    mined.toNat + (p.rewardAt height mined).toNat = p.emission (n + 1) := by
  have hsum := sum_subsidy_succ p n
  have hne : height ≠ 0 := by
    rintro rfl
    cases hheight
  unfold rewardAt
  rw [if_neg hne]
  split_ifs with hspent
  · -- the budget is used up
    rw [hmined, emission] at hspent ⊢
    rw [emission, hsum]
    change min _ _ + 0 = _
    omega
  · rw [hmined, emission] at hspent
    have hscheduled : (if 127 ≤ (height.toNat - 1) / max p.halvingIntervalBlocks.toNat 1 then 0
        else p.baseReward.toNat >>> ((height.toNat - 1) / max p.halvingIntervalBlocks.toNat 1)) =
        p.subsidy (n + 1) := by
      rw [hheight, subsidy]
      refine scheduled_eq ?_
      rcases Nat.eq_zero_or_pos n with rfl | hn
      · exact .inl (by simp)
      · have hbase := baseReward_le_sum (p := p) hn
        exact .inr (by omega)
    dsimp only
    rw [hscheduled, BitVec.toNat_ofNat, Nat.mod_eq_of_lt, hmined, emission, emission, hsum]
    · omega
    · have hlt : (2 : ℕ) ^ 127 < 2 ^ 128 := by decide
      omega

end MiningPolicy

/-! ## Genesis -/

namespace GenesisConfig
variable {C : Crypto} {config : GenesisConfig} {g : Genesis}

/-- What the accounts of a configuration hold together. -/
def funds (accounts : List GenesisAccount) : ℕ := (accounts.map fun a => a.balance.toNat).sum

/-- What its grants lock together. -/
def grants (vesting : List VestingGrant) : ℕ := (vesting.map fun v => v.amount.toNat).sum

theorem supply_foldl_fund (accounts : List GenesisAccount) (L : Ledger) :
    (accounts.foldl (fund C) L).supply ≤ L.supply + funds accounts := by
  induction accounts generalizing L with
  | nil => exact le_rfl
  | cons a rest ih =>
    have hfund : (fund C L a).supply + (L.account a.account).worth = L.supply + (a.balance.toNat + 0) :=
      L.supply_setAccount C a.account { balance := a.balance, key := some a.key }
    have hrest := ih (fund C L a)
    simp only [funds, List.map_cons, List.sum_cons, List.foldl_cons] at hrest ⊢
    omega

theorem supply_foldlM_vest {vesting : List VestingGrant} {L L' : Ledger}
    (h : vesting.foldlM (vest C) L = .ok L') : L'.supply = L.supply + grants vesting := by
  have hstart : L.supply = L.supply + grants [] := rfl
  refine foldlM_vest_induct (I := fun past L' => L'.supply = L.supply + grants past)
    (fun {past v L1 L2} hv hI => ?_) hstart h
  obtain ⟨-, locked, hlocked, rfl⟩ := vest_eq_ok hv
  have hset := L1.supply_setAccount C v.account
    { L1.account v.account with locked, unlockHeight := v.unlockHeight }
  rw [BitVec.checkedAdd_eq_some] at hlocked
  simp only [Account.worth] at hset
  simp only [grants, List.map_append, List.map_singleton, List.sum_append, List.sum_singleton] at hI ⊢
  omega

/-- The genesis supply and the budget fit under the cap together. -/
theorem build_supply (h : config.build C = .ok g) :
    g.ledger.supply + config.mining.miningBudgetGrains.toNat ≤ Balance.maxSupplyGrains := by
  unfold build at h
  split at h
  · cases h
  rename_i total htotal
  split_ifs at h with hcap
  obtain ⟨L, hL, h⟩ := Runtime.bind_eq_ok.mp h
  cases h
  have hfunds := supply_foldl_fund (C := C) config.accounts (Ledger.new C)
  have hgrants := supply_foldlM_vest hL
  have hnew : (Ledger.new C).supply = 0 := rfl
  rw [GenesisConfig.total, BitVec.checkedSum_eq_some] at htotal
  simp only [List.map_append, List.map_map, List.map_singleton, List.sum_append, List.sum_singleton,
    BitVec.ofNat_eq_ofNat, BitVec.toNat_ofNat, Nat.zero_mod] at htotal
  change _ + ((funds config.accounts + grants config.vesting) + _) = _ at htotal
  dsimp only
  omega

theorem canonical_build (h : config.build C = .ok g) : g.ledger.Canonical :=
  build_induct (I := fun _ L => L.Canonical) (.new C) (fun a _ _ hL => hL.store (.account a.account _))
    (fun {_ v _ _} hv hL => by
      obtain ⟨-, locked, -, rfl⟩ := vest_eq_ok hv
      exact hL.store (.account v.account _)) h

end GenesisConfig

namespace Runtime

/-! ## Blocks -/

section Blocks
variable {E : Env} {ctx : BlockContext} {L L' : Ledger} {txs : List SignedTransaction} {receipts : List Receipt}

theorem applyCoinbase_minedEmitted {C : Crypto} {reward : Balance} (h : applyCoinbase C ctx L = .ok (L', reward)) :
    L'.minedEmitted.toNat = L.minedEmitted.toNat + (ctx.mining.rewardAt ctx.height L.minedEmitted).toNat := by
  obtain ⟨hreward, -, hmined⟩ := applyCoinbase_supply h
  rw [hmined, hreward]

theorem applyTransactions_minedEmitted (h : applyTransactions E ctx L txs = .ok (L', receipts)) :
    L'.minedEmitted = L.minedEmitted := by
  induction txs generalizing L receipts with
  | nil =>
    cases h
    rfl
  | cons stx rest ih =>
    obtain ⟨⟨L1, receipt⟩, hstx, h⟩ := bind_eq_ok.mp h
    obtain ⟨⟨L2, receipts'⟩, hrest, h⟩ := bind_eq_ok.mp h
    cases h
    have hone : L1.minedEmitted = L.minedEmitted := by
      refine applyTransaction_same (f := .minedEmitted) hstx ?_ (by simp)
      cases stx.transaction.action.resolved <;> simp [Action.fields]
    exact (ih hrest).trans hone

theorem executeBlock_minedEmitted (h : executeBlock E ctx L txs = .ok (L', receipts)) :
    L'.minedEmitted.toNat = L.minedEmitted.toNat + (ctx.mining.rewardAt ctx.height L.minedEmitted).toNat := by
  obtain ⟨⟨L1, reward⟩, hcoinbase, hrest⟩ := bind_eq_ok.mp h
  rw [applyTransactions_minedEmitted hrest]
  exact applyCoinbase_minedEmitted hcoinbase

/-- Whatever becomes of a block, its writes are in the journal, but for those of the Orchard pool. -/
theorem writes_of_leaves (h : leaves (executeBlock E ctx L txs) = some L') : L.Writes E (fun _ => True) True L' := by
  have hnamed : L.Named fun _ => True := by constructor <;> intros <;> trivial
  cases hx : executeBlock E ctx L txs with
  | ok r =>
    rw [hx] at h
    cases h
    exact (executeBlock_applies (T := True) hnamed (fun stx _ => stx.names_true) trivial
      (fun hT => absurd trivial hT) hx).writes
  | error fault =>
    rw [hx] at h
    cases fault with
    | panic => cases h
    | reject L1 e =>
      cases h
      exact executeBlock_rejects (T := True) hnamed (fun stx _ => stx.names_true) trivial
        (fun hT => absurd trivial hT) L' e hx

end Blocks

/-! ## Undoing blocks -/

/-- What an undo step makes of the amount mined. -/
def minedBefore (mined : Balance) : UndoOp → Balance
  | .minedEmitted m => m
  | _ => mined

/-- What undoing a journal makes of the amount mined. -/
def undoneMined (log : List UndoOp) (mined : Balance) : Balance := log.reverse.foldl minedBefore mined

section Journals
variable {C : Crypto} {L L' : Ledger} {log : List UndoOp}

theorem minedEmitted_applyUndo : (L.applyUndo C log).minedEmitted = undoneMined log L.minedEmitted := by
  have hfold : ∀ (ops : List UndoOp) (s : Stores), (ops.foldl Stores.store s).minedEmitted =
      ops.foldl minedBefore s.minedEmitted := by
    intro ops
    induction ops with
    | nil => exact fun _ => rfl
    | cons op rest ih =>
      intro s
      rw [List.foldl_cons, List.foldl_cons, ih]
      cases op <;> rfl
  rw [Ledger.applyUndo, undoneMined, ← hfold, Ledger.toStores_foldl_put]

theorem canonical_applyUndo (h : L.Canonical) : (L.applyUndo C log).Canonical := by
  rw [Ledger.applyUndo, Ledger.toStores_foldl_put]
  exact List.foldlRecOn log.reverse Stores.store h fun _ hs op _ => hs.store op

/-- The journal of a block takes the amount mined back to what it was, also where it does not take the pool back. -/
theorem undoneMined_of_writes {P : AccountId → Prop} {T : Prop} (h : L.beginUndo.Writes C P T L') (hL : L.Canonical) :
    undoneMined L'.takeUndo.2 L'.minedEmitted = L.minedEmitted := by
  have hempty : L.beginUndo.undo = some [] := rfl
  obtain ⟨log, hlog⟩ := Ledger.Steps.undo_eq h hempty
  have hback := Ledger.Steps.undo_poolless h hL hempty hlog
  have htaken : L'.takeUndo.2 = log := by simp [Ledger.takeUndo, hlog]
  have hmined := congrArg Stores.minedEmitted hback
  rw [htaken, ← minedEmitted_applyUndo (C := C), Ledger.applyUndo, Ledger.toStores_foldl_put]
  exact hmined

end Journals

/-- The context is one of the chain with this policy, in which only the target varies. -/
def UnderPolicy (mining : MiningPolicy) (ctx : BlockContext) : Prop :=
  ∃ t, ctx.mining = { mining with sha256dTarget := t }

/-- A ledger that a node has worked on from genesis, with the height it stands at and the journals of the newest blocks,
newest first. Blocks are replayed, or connected with a journal; a block that is not accepted is taken back, and
a reorganisation takes accepted ones back. Old journals are let go. -/
inductive Worked (E : Env) (mining : MiningPolicy) (G : Ledger) : ℕ → List (List UndoOp) → Ledger → Prop
  | genesis : Worked E mining G 0 [] G
  | replay {n : ℕ} {L L' : Ledger} {ctx : BlockContext} {txs : List SignedTransaction} {receipts : List Receipt}
      (h : Worked E mining G n [] L) (hheight : ctx.height.toNat = n + 1) (hctx : UnderPolicy mining ctx)
      (hx : executeBlock E ctx L txs = .ok (L', receipts)) : Worked E mining G (n + 1) [] L'
  | connect {n : ℕ} {logs : List (List UndoOp)} {L L' : Ledger} {ctx : BlockContext} {txs : List SignedTransaction}
      {receipts : List Receipt} (h : Worked E mining G n logs L) (hheight : ctx.height.toNat = n + 1)
      (hctx : UnderPolicy mining ctx) (hx : executeBlock E ctx L.beginUndo txs = .ok (L', receipts)) :
      Worked E mining G (n + 1) (L'.takeUndo.2 :: logs) L'.takeUndo.1
  | reject {n : ℕ} {logs : List (List UndoOp)} {L L' : Ledger} {ctx : BlockContext} {txs : List SignedTransaction}
      (h : Worked E mining G n logs L) (hx : leaves (executeBlock E ctx L.beginUndo txs) = some L') :
      Worked E mining G n logs (L'.takeUndo.1.applyUndo E.toCrypto L'.takeUndo.2)
  | disconnect {n : ℕ} {log : List UndoOp} {logs : List (List UndoOp)} {L : Ledger}
      (h : Worked E mining G (n + 1) (log :: logs) L) : Worked E mining G n logs (L.applyUndo E.toCrypto log)
  | trim {n k : ℕ} {logs : List (List UndoOp)} {L : Ledger} (h : Worked E mining G n logs L) :
      Worked E mining G n (logs.take k) L

/-- The journals take the amount mined down the schedule from a height. -/
def Reverts (p : MiningPolicy) : ℕ → List (List UndoOp) → Prop
  | _, [] => True
  | 0, _ :: _ => False
  | n + 1, log :: logs =>
    (∀ mined : Balance, mined.toNat = p.emission (n + 1) → (undoneMined log mined).toNat = p.emission n) ∧
      Reverts p n logs

theorem Reverts.take {p : MiningPolicy} {n : ℕ} {logs : List (List UndoOp)} (h : Reverts p n logs) (k : ℕ) :
    Reverts p n (logs.take k) := by
  induction k generalizing n logs with
  | zero => simp [Reverts]
  | succ k ih =>
    rcases logs with _ | ⟨log, logs⟩
    · simp [Reverts]
    cases n with
    | zero => exact h.elim
    | succ n => exact ⟨h.1, ih h.2⟩

section Runs
variable {E : Env} {mining : MiningPolicy} {G : Ledger} {n : ℕ} {logs : List (List UndoOp)} {L L' : Ledger}

/-- What is kept along a run. -/
structure OnSchedule (mining : MiningPolicy) (n : ℕ) (logs : List (List UndoOp)) (L : Ledger) : Prop where
  canonical : L.Canonical
  mined : L.minedEmitted.toNat = mining.emission n
  journals : Reverts mining n logs

theorem OnSchedule.next {ctx : BlockContext} {txs : List SignedTransaction} {receipts : List Receipt}
    (h : OnSchedule mining n logs L) (hbudget : mining.miningBudgetGrains.toNat < 2 ^ 127)
    (hheight : ctx.height.toNat = n + 1) (hctx : UnderPolicy mining ctx) {J : Ledger} (hJ : J.toStores = L.toStores)
    (hx : executeBlock E ctx J txs = .ok (L', receipts)) : L'.minedEmitted.toNat = mining.emission (n + 1) := by
  obtain ⟨t, ht⟩ := hctx
  have hmined := executeBlock_minedEmitted hx
  rw [hJ, ht] at hmined
  rw [hmined]
  exact MiningPolicy.rewardAt_emission hbudget hheight h.mined

theorem Worked.onSchedule (hbudget : mining.miningBudgetGrains.toNat < 2 ^ 127) (hcanonical : G.Canonical)
    (hmined : G.minedEmitted = 0) (h : Worked E mining G n logs L) : OnSchedule mining n logs L := by
  induction h with
  | genesis =>
    refine ⟨hcanonical, ?_, trivial⟩
    rw [hmined]
    simp [MiningPolicy.emission]
  | @replay n L L' ctx txs receipts _ hheight hctx hx ih =>
    have hleaves : leaves (executeBlock E ctx L txs) = some L' := by rw [hx]; rfl
    have hwrites := writes_of_leaves hleaves
    exact ⟨Ledger.Steps.canonical hwrites ih.canonical, ih.next hbudget hheight hctx rfl hx, trivial⟩
  | @connect n logs L L' ctx txs receipts _ hheight hctx hx ih =>
    have hleaves : leaves (executeBlock E ctx L.beginUndo txs) = some L' := by rw [hx]; rfl
    have hwrites := writes_of_leaves hleaves
    have hnext := ih.next hbudget hheight hctx (J := L.beginUndo) rfl hx
    have hkept : L'.Canonical := Ledger.Steps.canonical hwrites ih.canonical
    refine ⟨hkept, hnext, fun mined hsame => ?_, ih.journals⟩
    obtain rfl : mined = L'.minedEmitted := BitVec.eq_of_toNat_eq (hsame.trans hnext.symm)
    rw [undoneMined_of_writes hwrites ih.canonical]
    exact ih.mined
  | @reject n logs L L' ctx txs _ hx ih =>
    have hwrites := writes_of_leaves hx
    have hkept : L'.Canonical := Ledger.Steps.canonical hwrites ih.canonical
    refine ⟨canonical_applyUndo hkept, ?_, ih.journals⟩
    rw [minedEmitted_applyUndo]
    have hback : undoneMined L'.takeUndo.2 L'.minedEmitted = L.minedEmitted := undoneMined_of_writes hwrites ih.canonical
    exact (congrArg BitVec.toNat hback).trans ih.mined
  | disconnect _ ih =>
    refine ⟨canonical_applyUndo ih.canonical, ?_, ih.journals.2⟩
    rw [minedEmitted_applyUndo]
    exact ih.journals.1 _ ih.mined
  | trim _ ih => exact ⟨ih.canonical, ih.mined, ih.journals.take _⟩

/-- The amount mined is what the schedule has for the heights up to `n`, cut off at the budget, and with the genesis
supply it stays under the cap. -/
def Emitted (config : GenesisConfig) (g : Genesis) (n : ℕ) (L : Ledger) : Prop :=
  L.minedEmitted.toNat = min config.mining.miningBudgetGrains.toNat
      (∑ h ∈ Finset.Icc 1 n,
        config.mining.baseReward.toNat / 2 ^ ((h - 1) / max config.mining.halvingIntervalBlocks.toNat 1)) ∧
    ∃ supply, g.ledger.totalSupply = some supply ∧ supply.toNat + L.minedEmitted.toNat ≤ Balance.maxSupplyGrains

/-- A ledger that was worked on from an accepted genesis. -/
theorem Worked.emitted {config : GenesisConfig} {g : Genesis} (hg : config.build E = .ok g)
    (h : Worked E config.mining g.ledger n logs L) : Emitted config g n L := by
  have hsupply := GenesisConfig.build_supply hg
  have hcap : Balance.maxSupplyGrains < 2 ^ 127 := by decide
  have hfresh : g.ledger.minedEmitted = 0 := by
    rw [GenesisConfig.build_stores hg]
    rfl
  have hmined := (h.onSchedule (by omega) (GenesisConfig.canonical_build hg) hfresh).mined
  refine ⟨hmined, BitVec.ofNat 128 g.ledger.supply, ?_, ?_⟩
  all_goals
    have hsmall : g.ledger.supply % 2 ^ 128 = g.ledger.supply := Nat.mod_eq_of_lt (by omega)
  · rw [Stores.totalSupply_eq_some, BitVec.toNat_ofNat, hsmall]
  · have hle : config.mining.emission n ≤ config.mining.miningBudgetGrains.toNat := min_le_left _ _
    rw [BitVec.toNat_ofNat, hsmall]
    omega

end Runs
end Runtime
end Sov
