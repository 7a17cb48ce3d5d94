import SovChain.Lib.RateWindow
import SovChain.Runtime.Failures
import SovChain.Runtime.Traces

/-!
# The drain limiter of the pools

Each pool meters its withdrawals with a rate window. Along a chain, what leaves a pool in a window's length of heights
is at most the limit, as long as no withdrawal starts a new window soon after the old one is over.
-/

namespace Sov
namespace ShieldedV2

/-- A stored window as a rate window. -/
def drainState (w : U64 × Balance) : RateWindow := ⟨w.1.toNat, w.2.toNat⟩

/-- The limiter charges the rate window. -/
theorem drainWindow_charge {mining : MiningPolicy} {height : U64} {w w' : U64 × Balance} {amount : Balance}
    (h : drainWindow mining height w amount = some w') :
    RateWindow.charge mining.deshieldWindowBlocks.toNat mining.deshieldLimitGrains.toNat (drainState w)
      height.toNat amount.toNat = some (drainState w') := by
  unfold drainWindow at h
  extract_lets base at h
  have hbase : drainState base =
      if mining.deshieldWindowBlocks.toNat ≤ height.toNat - (drainState w).start then ⟨height.toNat, 0⟩
      else drainState w := by
    dsimp only [base]
    rw [BitVec.toNat_saturatingSub]
    by_cases hover : mining.deshieldWindowBlocks.toNat ≤ height.toNat - w.1.toNat
    · rw [if_pos hover]
      exact (if_pos hover).symm
    · rw [if_neg hover]
      exact (if_neg hover).symm
  split at h
  · rename_i spent hspent
    split_ifs at h with hle
    cases h
    exact RateWindow.charge_of_base hbase (BitVec.checkedAdd_eq_some.mp hspent) hle
  · cases h

end ShieldedV2

namespace Runtime
open ShieldedV2 (drainState)
open RateWindow (within Calm Follows Charged)
section Transactions
variable {E : Env} {ctx : BlockContext} {stx : SignedTransaction} {L L' : Ledger} {receipt : Receipt}

theorem applyTransaction_orchard (h : applyTransaction E ctx L stx = .ok (L', receipt)) :
    (L'.shieldedValue = L.shieldedValue ∧ L'.deshieldWindow = L.deshieldWindow) ∨
      ∃ bundle, stx.transaction.action.resolved = .shielded bundle ∧ OrchardStep E ctx bundle L L' := by
  by_cases hbundle : ∃ bundle, stx.transaction.action.resolved = .shielded bundle
  · obtain ⟨bundle, haction⟩ := hbundle
    obtain ⟨p, x, status, hp, hx, hL, -⟩ := applyTransaction_eq_ok h
    have hstores := finish_stores hL
    unfold execute at hx
    dsimp only at hx
    split at hx
    · cases hx
      rw [hstores]
      exact .inl ⟨rfl, rfl⟩
    simp only [dispatch, (prepare_action hp).trans haction] at hx
    have hstep := lift_ensures shielded_step hx
    refine .inr ⟨bundle, haction, ?_⟩
    rw [hstores]
    cases hstep with
    | keep hvalue hwindow => exact .keep hvalue hwindow
    | deposit hsb hneg hvalue hwindow => exact .deposit hsb hneg hvalue hwindow
    | withdrawal hvalue hwindow => exact .withdrawal hvalue hwindow
  · have hfield : ∀ f ∈ [Field.shieldedValue, .deshieldWindow], f ∉ stx.transaction.action.resolved.fields := by
      cases haction : stx.transaction.action.resolved <;> simp_all [Action.fields]
    exact .inl ⟨applyTransaction_same (f := .shieldedValue) h (hfield _ (by simp)) (by simp),
      applyTransaction_same (f := .deshieldWindow) h (hfield _ (by simp)) (by simp)⟩

theorem applyTransaction_v2 (h : applyTransaction E ctx L stx = .ok (L', receipt)) :
    (L'.deshieldV2Window = L.deshieldV2Window ∧ ((∀ bundle, stx.transaction.action.resolved ≠ .shieldedV2 bundle) ∨
        receipt.status ≠ .success)) ∨
      ∃ bundle, stx.transaction.action.resolved = .shieldedV2 bundle ∧ receipt.status = .success ∧
        V2Step E ctx bundle L L' := by
  by_cases hbundle : ∃ bundle, stx.transaction.action.resolved = .shieldedV2 bundle
  · obtain ⟨bundle, haction⟩ := hbundle
    obtain ⟨p, x, status, hp, hx, hL, rfl⟩ := applyTransaction_eq_ok h
    have hstores := finish_stores hL
    unfold execute at hx
    dsimp only at hx
    split at hx
    · cases hx
      rw [hstores]
      exact .inl ⟨rfl, .inr (by simp)⟩
    have hresolved := (prepare_action hp).trans haction
    simp only [dispatch, hresolved] at hx
    obtain ⟨s', hs', rfl⟩ := lift_eq_ok.mp hx
    refine .inr ⟨bundle, haction, shieldedV2_status hs', ?_⟩
    rw [hstores]
    refine shieldedV2_step (fun effects he => ?_) _ _ hs'
    obtain ⟨bundle', hb, hfunds⟩ := prepare_funds hp effects he
    cases hresolved.symm.trans hb
    exact hfunds
  · refine .inl ⟨applyTransaction_same (f := .deshieldV2Window) h ?_ (by simp), .inl fun bundle hb => hbundle ⟨bundle, hb⟩⟩
    cases haction : stx.transaction.action.resolved <;> simp_all [Action.fields]

end Transactions

namespace Step

/-- What leaves the Orchard pool. -/
def deshielded (st : Step) : ℕ := st.before.shieldedValue.toNat - st.after.shieldedValue.toNat

/-- What leaves the post-quantum pool, whatever enters it with the same bundle. -/
def deshieldedV2 (E : Env) (st : Step) : ℕ :=
  match st.tx.transaction.action.resolved, st.receipt.status with
  | .shieldedV2 bundle, .success =>
    match ShieldedV2.decode E bundle st.ctx.shieldedV2Suite2Active with
    | .ok b => b.transparentOut.toNat
    | .error _ => 0
  | _, _ => 0

/-- A bundle comes while the window of its pool is unused or open, or long after it was. -/
def Unhurried (width : ℕ) (st : Step) : Prop :=
  match st.tx.transaction.action.resolved with
  | .shielded _ => Calm width (drainState st.before.deshieldWindow) st.ctx.height.toNat
  | .shieldedV2 _ => Calm width (drainState st.before.deshieldV2Window) st.ctx.height.toNat
  | _ => True

/-- The limiter is the one of `width` blocks and `limit` grains. -/
def Limited (width limit : ℕ) (st : Step) : Prop :=
  st.ctx.mining.deshieldWindowBlocks.toNat = width ∧ st.ctx.mining.deshieldLimitGrains.toNat = limit

instance (width limit : ℕ) : DecidablePred (Limited width limit) := fun _ => inferInstanceAs (Decidable (_ ∧ _))

variable {E : Env} {st : Step} {width limit now : ℕ} {flows : List (ℕ × ℕ)}

/-- The window of the Orchard pool follows what leaves it. -/
theorem follows_deshielded (hpos : 0 < width) (hvalid : st.Valid E) (hlimited : st.Limited width limit)
    (hcalm : st.Unhurried width) (hnow : st.ctx.height.toNat = now)
    (h : Follows width limit (drainState st.before.deshieldWindow) now flows) :
    Follows width limit (drainState st.after.deshieldWindow) now (flows ++ [(st.ctx.height.toNat, st.deshielded)]) := by
  subst hnow
  obtain ⟨rfl, rfl⟩ := hlimited
  obtain ⟨hvalue, hwindow⟩ | ⟨bundle, haction, hstep⟩ := applyTransaction_orchard hvalid
  · rw [deshielded, hvalue, hwindow, Nat.sub_self]
    exact h.idle le_rfl
  rw [Unhurried, haction] at hcalm
  unfold deshielded
  cases hstep with
  | keep hvalue hwindow =>
    rw [hvalue, hwindow, Nat.sub_self]
    exact h.idle le_rfl
  | deposit _ _ hvalue hwindow =>
    rw [hwindow, Nat.sub_eq_zero_of_le (by omega)]
    exact h.idle le_rfl
  | withdrawal hvalue hwindow =>
    have hmetered := ShieldedV2.drainWindow_charge (hwindow fun hzero => by simp [hzero] at hpos)
    exact h.charged hpos le_rfl hcalm (.one hmetered) (by omega)

theorem follows_deshieldedV2 (hpos : 0 < width) (hvalid : st.Valid E) (hlimited : st.Limited width limit)
    (hcalm : st.Unhurried width) (hnow : st.ctx.height.toNat = now)
    (h : Follows width limit (drainState st.before.deshieldV2Window) now flows) :
    Follows width limit (drainState st.after.deshieldV2Window) now
      (flows ++ [(st.ctx.height.toNat, st.deshieldedV2 E)]) := by
  subst hnow
  obtain ⟨rfl, rfl⟩ := hlimited
  obtain ⟨hwindow, hnone⟩ | ⟨bundle, haction, hstatus, b, hb, hzero, hmetered⟩ := applyTransaction_v2 hvalid
  · have hout : st.deshieldedV2 E = 0 := by
      unfold deshieldedV2
      split
      · rename_i bundle haction hstatus
        exact (hnone.elim (fun hne => hne bundle haction) fun hne => hne hstatus).elim
      · rfl
    rw [hout, hwindow]
    exact h.idle le_rfl
  · rw [Unhurried, haction] at hcalm
    have hout : st.deshieldedV2 E = b.transparentOut.toNat := by
      simp only [deshieldedV2, haction, hstatus, hb]
    rw [hout]
    by_cases hb0 : b.transparentOut = 0
    · rw [hzero hb0, hb0]
      exact h.idle le_rfl
    · have hcharge := ShieldedV2.drainWindow_charge (hmetered hb0 fun hW => by simp [hW] at hpos)
      refine h.charged hpos le_rfl hcalm (.one hcharge) ?_
      rw [BitVec.toNat_setWidth_of_le (by decide)]

end Step

/-- In a chain without hurried withdrawals, no window's length of heights sees more than the limit leave either pool. -/
theorem drain_bounded_of_unhurried (E : Env) (G : Ledger) (base height : ℕ) (accepted : List Step) (L : Ledger)
    (width limit : ℕ) (hpos : 0 < width) (h : Chained E G base height accepted L)
    (hlimited : ∀ st ∈ accepted, st.Limited width limit) (hcalm : ∀ st ∈ accepted, st.Unhurried width) (t : ℕ) :
    within width (accepted.map fun st => (st.ctx.height.toNat, st.deshielded)) t ≤ limit ∧
      within width (accepted.map fun st => (st.ctx.height.toNat, st.deshieldedV2 E)) t ≤ limit := by
  have hrun : (∀ st ∈ accepted, st.Limited width limit ∧ st.Unhurried width) →
      Follows width limit (drainState L.deshieldWindow) height
          (accepted.map fun st => (st.ctx.height.toNat, st.deshielded)) ∧
        Follows width limit (drainState L.deshieldV2Window) height
          (accepted.map fun st => (st.ctx.height.toNat, st.deshieldedV2 E)) := by
    refine Chained.induct (I := fun height accepted L =>
      (∀ st ∈ accepted, st.Limited width limit ∧ st.Unhurried width) →
      Follows width limit (drainState L.deshieldWindow) height
          (accepted.map fun st => (st.ctx.height.toNat, st.deshielded)) ∧
        Follows width limit (drainState L.deshieldV2Window) height
          (accepted.map fun st => (st.ctx.height.toNat, st.deshieldedV2 E))) (fun _ => ⟨.nil, .nil⟩)
      (fun hreward ih hall => ?_) (fun hheight hvalid ih hall => ?_) h
    · rw [applyCoinbase_stores hreward]
      exact ⟨(ih hall).1.later (Nat.le_succ _), (ih hall).2.later (Nat.le_succ _)⟩
    rw [List.forall_mem_append, List.forall_mem_singleton] at hall
    obtain ⟨hv1, hv2⟩ := ih hall.1
    rw [List.map_append, List.map_append, List.map_singleton, List.map_singleton]
    exact ⟨Step.follows_deshielded hpos hvalid hall.2.1 hall.2.2 hheight hv1,
      Step.follows_deshieldedV2 hpos hvalid hall.2.1 hall.2.2 hheight hv2⟩
  obtain ⟨hv1, hv2⟩ := hrun fun st hst => ⟨hlimited st hst, hcalm st hst⟩
  exact ⟨hv1.le t, hv2.le t⟩

/-- An Orchard pool with one-byte bundles: zero deposits thirty grains, another byte withdraws its value. -/
def poolEnv : Env :=
  { sampleEnv with
    decodeShielded := fun bytes => bytes.head?.map fun b =>
      ⟨[.fill 32 b], [.fill 32 b], Hash.zero,
        if b = 0 then -30 else BitVec.ofNat 64 b.toNat⟩
    verifyShieldedProof := fun _ => true }

/-- Ten grains in two blocks. -/
def meteredContext (height : U64) : BlockContext :=
  { sampleContext with
    height, mining := { sampleMining with deshieldWindowBlocks := 2, deshieldLimitGrains := 10 } }

/-- A bundle of each block: the deposit, then the withdrawals of the following ones. -/
def poolBlocks (withdrawals : List UInt8) : List (BlockContext × List SignedTransaction) :=
  (0 :: withdrawals).mapIdx fun i b =>
    (meteredContext (BitVec.ofNat 64 (i + 1)),
      [numberedTx sampleKey "alice.sov" (BitVec.ofNat 64 i) (.shielded [b])])

/-- One account to deposit from. -/
def depositorGenesis : GenesisConfig where
  chainId := "sov"
  timestampMs := 0
  accounts := [⟨⟨"alice.sov"⟩, sampleKey, 100⟩]
  mining := sampleMining
  vesting := []

theorem depositorGenesis_build : depositorGenesis.build poolEnv = .ok ⟨sampleLedger [("alice.sov", 100)],
      depositorGenesis.block poolEnv (sampleLedger [("alice.sov", 100)]), depositorGenesis.coinbase⟩ := rfl

/-- What leaves in each step of a run of steps that all pass a check. -/
def checkedFlows (E : Env) (G : Ledger) (out : Step → ℕ) (P : Step → Prop) [DecidablePred P]
    (blocks : List (BlockContext × List SignedTransaction)) : Option (List (ℕ × ℕ)) :=
  (runBlocks E G blocks).toOption.bind fun r =>
    if ∀ st ∈ r.1, P st then some (r.1.map fun st => (st.ctx.height.toNat, out st)) else none

theorem chained_of_checkedFlows {E : Env} {G : Ledger} {out : Step → ℕ} {P : Step → Prop} [DecidablePred P]
    {blocks : List (BlockContext × List SignedTransaction)} {flows : List (ℕ × ℕ)} (height : ℕ)
    (h : checkedFlows E G out P blocks = some flows)
    (hheights : blocks.map (fun b => b.1.height.toNat) = List.range' (height + 1) blocks.length) :
    ∃ accepted L, Chained E G height (height + blocks.length) accepted L ∧ (∀ st ∈ accepted, P st) ∧
      (accepted.map fun st => (st.ctx.height.toNat, out st)) = flows := by
  obtain ⟨⟨accepted, L⟩, hrun, h⟩ := Option.bind_eq_some_iff.mp h
  split_ifs at h with hall
  refine ⟨accepted, L, ?_, hall, Option.some.inj h⟩
  simpa using Chained.start.runBlocks hheights (eq_ok_of_toOption hrun)

/-- One grain at height 2 opens a window, nine at height 3 fill it, and ten more at height 4 come in the next one:
nineteen in two blocks. -/
theorem hurried_withdrawals_exceed_limit :
    ∃ g accepted L, depositorGenesis.build poolEnv.toCrypto = .ok g ∧ Chained poolEnv g.ledger 0 4 accepted L ∧
      (∀ st ∈ accepted, st.Limited 2 10) ∧
      within 2 (accepted.map fun st => (st.ctx.height.toNat, st.deshielded)) 3 = 19 := by
  have hflows : checkedFlows poolEnv (sampleLedger [("alice.sov", 100)]) (·.deshielded) (·.Limited 2 10)
      (poolBlocks [1, 9, 10]) = some [(1, 0), (2, 1), (3, 9), (4, 10)] := by decide +kernel
  obtain ⟨accepted, L, hchain, hlimited, hout⟩ := chained_of_checkedFlows 0 hflows (by decide)
  exact ⟨_, accepted, L, depositorGenesis_build, hchain, hlimited, by rw [hout]; decide⟩

/-- Ten grains at heights 2 and 3. -/
theorem calm_withdrawals_bounded : ∃ accepted L, Chained poolEnv (sampleLedger [("alice.sov", 100)]) 0 3 accepted L ∧
      (accepted.map fun st => (st.ctx.height.toNat, st.deshielded)) = [(1, 0), (2, 1), (3, 9)] ∧
      within 2 (accepted.map fun st => (st.ctx.height.toNat, st.deshielded)) 2 ≤ 10 := by
  have hflows : checkedFlows poolEnv (sampleLedger [("alice.sov", 100)]) (·.deshielded)
      (fun st => st.Limited 2 10 ∧ Calm 2 (drainState st.before.deshieldWindow) st.ctx.height.toNat ∧
        Calm 2 (drainState st.before.deshieldV2Window) st.ctx.height.toNat)
      (poolBlocks [1, 9]) = some [(1, 0), (2, 1), (3, 9)] := by decide +kernel
  obtain ⟨accepted, L, hchain, hall, hout⟩ := chained_of_checkedFlows 0 hflows (by decide)
  refine ⟨accepted, L, hchain, hout, (drain_bounded_of_unhurried poolEnv _ 0 3 accepted L 2 10 (by decide) hchain
    (fun st hst => (hall st hst).1) (fun st hst => ?_) 2).1⟩
  unfold Step.Unhurried
  split
  · exact (hall st hst).2.1
  · exact (hall st hst).2.2
  · trivial

end Runtime
end Sov
