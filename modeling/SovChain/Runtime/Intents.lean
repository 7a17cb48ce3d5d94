import SovChain.Runtime.Escrows

/-!
# Intents

An intent is an owner's standing offer to give an amount of one asset for at least an amount of another. A solver settles
it in one transaction, which moves both sides or neither; after that, or after the owner has cancelled it, its id is used
up (`intent_settled_exactly`).
-/

namespace Sov

/-- What an account holds of an asset, in liquid coin or in tokens. -/
def Stores.holding (s : Stores) (who : AccountId) : Asset → ℕ
  | .sov => (s.account who).balance.toNat
  | .token id => (s.tokenBalance id who).toNat

namespace Runtime

/-- The asset a leg moves. -/
def SettleLeg.asset : SettleLeg → Asset
  | .native => .sov
  | .token id => .token id

theorem SettleLeg.asset_token (id : Hash) : (SettleLeg.token id).asset = .token id := rfl

theorem SettleLeg.token_eq_asset {leg : SettleLeg} {id : Hash} : Asset.token id = leg.asset ↔ leg = .token id := by
  cases leg with
  | native => exact ⟨nofun, nofun⟩
  | token id' => exact ⟨fun h => by cases h; rfl, fun h => by cases h; rfl⟩

section Legs
variable {C : Crypto} {L : Ledger} {leg : SettleLeg} {sender recipient who : AccountId} {debited credited : Balance}
  {window : Option SpendWindow} {id : Hash}

theorem settleLeg_asset {st : Stores} {a : Asset} (h : settleLeg st a = .ok leg) : a = leg.asset := by
  cases leg with
  | native => exact settleLeg_native h
  | token id => exact (settleLeg_token h).1

theorem account_leg_write : (leg.write C L sender debited recipient credited).account who = L.account who := by
  cases leg <;> rfl

theorem account_writeWindow : (leg.writeWindow C L sender window).account who = L.account who := by
  cases leg <;> cases window <;> rfl

theorem tokenBalance_leg_writeWindow :
    (leg.writeWindow C L sender window).tokenBalance id who = L.tokenBalance id who := by
  cases leg <;> cases window <;> rfl

theorem tokenBalance_write_token :
    (SettleLeg.write C (.token id) L sender debited recipient credited).tokenBalance id who =
      if who = recipient then credited else if who = sender then debited else L.tokenBalance id who := by
  rw [SettleLeg.write, Ledger.tokenBalance_setTokenBalance, Ledger.tokenBalance_setTokenBalance]
  simp only [true_and, eq_comm]

end Legs

/-- Both sides of a swap between `owner` and `solver`, with the dues of the solver to the miner. -/
def Exchanges (ctx : BlockContext) (tx : Transaction) (owner : AccountId) (give : Asset) (giveAmount : ℕ) (want : Asset)
    (deliverAmount : ℕ) (st st' : Stores) : Prop :=
  ∀ (who : AccountId) (asset : Asset),
    st'.holding who asset + (if asset = give ∧ who = owner then giveAmount else 0) +
        (if asset = want ∧ who = tx.signer then deliverAmount else 0) +
        (if asset = .sov ∧ who = tx.signer then dues ctx tx else 0) =
      st.holding who asset + (if asset = give ∧ who = tx.signer then giveAmount else 0) +
        (if asset = want ∧ who = owner then deliverAmount else 0) +
        (if asset = .sov ∧ who = ctx.miner then dues ctx tx else 0)

section Swaps
variable {C : Crypto} {L L' : Ledger} {signer a : Account} {solver : AccountId} {settlement : Settlement} {height : U64}
  {giveLeg wantLeg : SettleLeg} {ownerWindow solverWindow : Option SpendWindow}
  {ownerDebited solverDebited solverCredited ownerCredited : Balance}

theorem Swap.tokens (h : Swap C L signer solver settlement height L' a giveLeg wantLeg ownerWindow solverWindow
      ownerDebited solverDebited solverCredited ownerCredited) (hne : settlement.intent.intent.owner ≠ solver)
    (hdiff : settlement.intent.intent.giveAsset ≠ settlement.intent.intent.wantAsset) (id : Hash) (who : AccountId) :
    (L'.tokenBalance id who).toNat +
        (if .token id = settlement.intent.intent.giveAsset ∧ who = settlement.intent.intent.owner then
          settlement.intent.intent.giveAmount.toNat else 0) +
        (if .token id = settlement.intent.intent.wantAsset ∧ who = solver then settlement.deliverAmount.toNat else 0) =
      (L.tokenBalance id who).toNat + (if .token id = settlement.intent.intent.giveAsset ∧ who = solver then
          settlement.intent.intent.giveAmount.toNat else 0) +
        if .token id = settlement.intent.intent.wantAsset ∧ who = settlement.intent.intent.owner then
          settlement.deliverAmount.toNat else 0 := by
  have hgive := settleLeg_asset h.give
  have hwant := settleLeg_asset h.want
  have hod := BitVec.checkedSub_eq_some.mp h.ownerPays
  have hsd := BitVec.checkedSub_eq_some.mp h.solverPays
  have hsc := BitVec.checkedAdd_eq_some.mp h.solverGets
  have hoc := BitVec.checkedAdd_eq_some.mp h.ownerGets
  have hsame : ∀ acct, (L.setAccount C settlement.intent.intent.owner acct).tokenBalance id who =
      L.tokenBalance id who := fun _ => rfl
  rw [h.ledger, tokenBalance_leg_writeWindow, tokenBalance_leg_writeWindow, hgive, hwant]
  rw [hgive, hwant] at hdiff
  by_cases hw : wantLeg = .token id
  · -- the owner gives something else for this token
    subst hw
    have hg : giveLeg ≠ .token id := fun heq => hdiff (by rw [heq])
    have hgive' : .token id ≠ giveLeg.asset := mt SettleLeg.token_eq_asset.mp hg
    rw [tokenBalance_write_token, tokenBalance_leg_write hg, hsame]
    simp only [hgive', false_and, if_false, SettleLeg.asset_token, true_and]
    dsimp only [SettleLeg.balance] at hsd hoc
    by_cases howner : who = settlement.intent.intent.owner
    · subst howner
      simp only [if_true, hne, if_false]
      omega
    · by_cases hsolver : who = solver
      · subst hsolver
        simp only [howner, if_true, if_false]
        omega
      · simp only [howner, hsolver, if_false]
  · have hwant' : .token id ≠ wantLeg.asset := mt SettleLeg.token_eq_asset.mp hw
    rw [tokenBalance_leg_write hw]
    simp only [hwant', false_and, if_false, Nat.add_zero]
    by_cases hg : giveLeg = .token id
    · subst hg
      rw [tokenBalance_write_token, hsame]
      simp only [SettleLeg.asset_token, true_and]
      dsimp only [SettleLeg.balance] at hod hsc
      by_cases hsolver : who = solver
      · subst hsolver
        simp only [Ne.symm hne, if_true, if_false]
        omega
      · by_cases howner : who = settlement.intent.intent.owner
        · subst howner
          simp only [hne, if_true, if_false]
          omega
        · simp only [howner, hsolver, if_false]
    · have hgive' : .token id ≠ giveLeg.asset := mt SettleLeg.token_eq_asset.mp hg
      rw [tokenBalance_leg_write hg, hsame]
      simp only [hgive', false_and, if_false]

theorem Swap.native (h : Swap C L signer solver settlement height L' a giveLeg wantLeg ownerWindow solverWindow
      ownerDebited solverDebited solverCredited ownerCredited)
    (hdiff : settlement.intent.intent.giveAsset ≠ settlement.intent.intent.wantAsset) :
    a.balance.toNat + (if .sov = settlement.intent.intent.wantAsset then settlement.deliverAmount.toNat else 0) =
        signer.balance.toNat +
          (if .sov = settlement.intent.intent.giveAsset then settlement.intent.intent.giveAmount.toNat else 0) ∧
      (L'.account settlement.intent.intent.owner).balance.toNat +
          (if .sov = settlement.intent.intent.giveAsset then settlement.intent.intent.giveAmount.toNat else 0) =
        (L.account settlement.intent.intent.owner).balance.toNat +
          (if .sov = settlement.intent.intent.wantAsset then settlement.deliverAmount.toNat else 0) ∧
      ∀ who, who ≠ settlement.intent.intent.owner → L'.account who = L.account who := by
  have hgive := settleLeg_asset h.give
  have hwant := settleLeg_asset h.want
  have hod := BitVec.checkedSub_eq_some.mp h.ownerPays
  have hsd := BitVec.checkedSub_eq_some.mp h.solverPays
  have hsc := BitVec.checkedAdd_eq_some.mp h.solverGets
  have hoc := BitVec.checkedAdd_eq_some.mp h.ownerGets
  rw [hgive, hwant] at hdiff ⊢
  rw [h.ledger, h.signer]
  simp only [account_writeWindow, account_leg_write]
  refine ⟨?_, ?_, fun who hwho => Ledger.account_setAccount_of_ne _ _ (Ne.symm hwho) _⟩
  on_goal 2 => rw [Ledger.account_setAccount_self]
  all_goals
    cases giveLeg <;> cases wantLeg <;>
      simp only [SettleLeg.asset, SettleLeg.nativeOr, SettleLeg.balance, reduceCtorEq, ne_eq,
        not_true_eq_false, not_false_eq_true, if_true, if_false] at * <;> omega

end Swaps

/-! ## The arms -/

section Arms
variable {C : Crypto} {ctx : BlockContext} {sid : AccountId} {s s' : InFlight} {status : ExecutionStatus}

theorem intentCancel_eq_ok {intent : Intent} (h : intentCancel C sid intent s = .ok (s', status)) :
    (s' = s ∧ status ≠ .success) ∨ status = .success ∧ s.ledger.intentConsumed (intent.id C) = false ∧
        s' = { s with ledger := s.ledger.consumeIntent C (intent.id C) } := by
  unfold intentCancel at h
  split_ifs at h with howner hused
  · cases h
    exact .inl ⟨rfl, nofun⟩
  · cases h
    exact .inl ⟨rfl, nofun⟩
  · cases h
    exact .inr ⟨rfl, by simpa using hused, rfl⟩

theorem consumeIntent_stores {L : Ledger} {id : Hash} (h : L.intentConsumed id = false) :
    (L.consumeIntent C id).toStores = L.toStores.store (.intent id (some ())) := by
  rw [Ledger.consumeIntent, if_neg (by simp [h]), Ledger.toStores_overwrite]

end Arms

/-! ## One transaction -/

/-- The step settles or cancels the intent `id`. -/
def Step.Consumes (C : Crypto) (st : Step) (id : Hash) : Prop :=
  st.receipt.status = .success ∧
    ((∃ settlement, st.tx.transaction.action.resolved = .intentSettle settlement ∧
        id = settlement.intent.intent.id C) ∨
      ∃ intent, st.tx.transaction.action.resolved = .intentCancel intent ∧ id = intent.id C)

/-- How a transaction leaves the used intents. -/
inductive IntentStep (C : Crypto) (st : Step) : Prop
  | keep (hkept : st.after.consumedIntents = st.before.consumedIntents) (hidle : ∀ id, ¬st.Consumes C id)
  | consume {id : Hash} (honly : ∀ id', st.Consumes C id' ↔ id' = id) (hfresh : st.before.intentConsumed id = false)
      (hused : st.after.consumedIntents = st.before.consumedIntents.set id (some ()))

/-- A settlement that went through: who, until when, how much, and both gates. -/
structure SettledExactly (C : Crypto) (st : Step) (settlement : Settlement) : Prop where
  passed : Settleable C st.ctx st.tx.transaction.signer settlement st.before.toStores
  exchanged : Exchanges st.ctx st.tx.transaction settlement.intent.intent.owner settlement.intent.intent.giveAsset
    settlement.intent.intent.giveAmount.toNat settlement.intent.intent.wantAsset settlement.deliverAmount.toNat
    st.before.toStores st.after.toStores
  ownerGate : ∀ id, settlement.intent.intent.giveAsset = .token id → ∃ window,
    checkTokenOutgoing st.before.toStores id settlement.intent.intent.owner st.tx.transaction.signer
      settlement.intent.intent.giveAmount st.ctx.height = .ok window
  solverGate : ∀ id, settlement.intent.intent.wantAsset = .token id → ∃ window,
    checkTokenOutgoing st.before.toStores id st.tx.transaction.signer settlement.intent.intent.owner
      settlement.deliverAmount st.ctx.height = .ok window

section Transactions
variable {E : Env} {st : Step}

theorem exchanges_nothing {ctx : BlockContext} {stx : SignedTransaction} {p : Prepared} {L L' : Ledger}
    (hp : prepare E ctx L stx = .ok p) (hv2 : ∀ bundle, stx.transaction.action.resolved ≠ .shieldedV2 bundle)
    (hL : finish E ctx stx.transaction.signer p.tip ⟨L, p.signer, p.fee⟩ = .ok L') (owner : AccountId)
    (give want : Asset) : Exchanges ctx stx.transaction owner give 0 want 0 L L' := by
  obtain ⟨hsigner, hother⟩ := finish_balances hp hv2 rfl hL
  intro who asset
  simp only [ite_self, Nat.add_zero]
  cases asset with
  | token id =>
    rw [finish_stores hL]
    simp only [reduceCtorEq, false_and, if_false, Nat.add_zero]
    rfl
  | sov =>
    simp only [Stores.holding, true_and]
    by_cases hwho : who = stx.transaction.signer
    · subst hwho
      simp only [if_true]
      dsimp only at hsigner
      omega
    · rw [if_neg hwho]
      exact hother who hwho

theorem gate_token {st : Stores} {a : Asset} {leg : SettleLeg} {sender counterparty : AccountId} {amount : Balance}
    {height : U64} {window : Option SpendWindow} {id : Hash} (hleg : settleLeg st a = .ok leg)
    (hgate : leg.gate st sender counterparty amount height = .ok window) (ha : a = .token id) :
    checkTokenOutgoing st id sender counterparty amount height = .ok window := by
  have hasset := settleLeg_asset hleg
  rw [ha, SettleLeg.token_eq_asset] at hasset
  rw [hasset] at hgate
  exact hgate

/-- A settlement either went through exactly, or moved nothing but the dues. -/
theorem Step.Valid.settlement (hvalid : st.Valid E) {settlement : Settlement}
    (haction : st.tx.transaction.action.resolved = .intentSettle settlement) :
    (st.receipt.status = .success ∧ SettledExactly E st settlement ∧
        st.after.consumedIntents = st.before.consumedIntents.set (settlement.intent.intent.id E) (some ())) ∨
      st.receipt.status ≠ .success ∧ st.after.consumedIntents = st.before.consumedIntents ∧
        ∀ owner give want, Exchanges st.ctx st.tx.transaction owner give 0 want 0 st.before st.after := by
  obtain ⟨p, s, hp, hs, hL⟩ := applyTransaction_arm
    (a := fun _ => intentSettle E st.ctx st.tx.transaction.signer settlement) hvalid
    (fun p x hp => by simp only [dispatch, hp, haction])
  have hv2 : ∀ bundle, st.tx.transaction.action.resolved ≠ .shieldedV2 bundle := by simp [haction]
  have hfailed : s = ⟨st.before, p.signer, p.fee⟩ → st.receipt.status ≠ .success →
      st.receipt.status ≠ .success ∧ st.after.consumedIntents = st.before.consumedIntents ∧
        ∀ owner give want, Exchanges st.ctx st.tx.transaction owner give 0 want 0 st.before
          st.after := by
    rintro rfl hne
    exact ⟨hne, by rw [finish_stores hL], exchanges_nothing hp hv2 hL⟩
  rcases hs with ⟨hs, hne⟩ | hs
  · exact .inr (hfailed hs hne)
  rcases intentSettle_eq_ok hs with ⟨hs, hne⟩ | ⟨hok, -, -, hpassed, L, a, hlegs, rfl⟩
  · exact .inr (hfailed hs hne)
  obtain ⟨giveLeg, wantLeg, ownerWindow, solverWindow, ownerDebited, solverDebited, solverCredited, ownerCredited,
    hswap⟩ := settleIntentLegs_eq_ok hlegs
  have hunused : L.intentConsumed (settlement.intent.intent.id E) = false := by
    rw [Stores.intentConsumed, consumedIntents_settleIntentLegs hlegs]
    exact hpassed.unused
  have hstores := finish_stores hL
  dsimp only at hstores
  rw [consumeIntent_stores hunused] at hstores
  obtain ⟨hsigner, hother⟩ := finish_balances hp hv2 rfl hL
  dsimp only at hsigner hother
  obtain ⟨hsolver, howner, hrest⟩ := hswap.native hpassed.assets
  dsimp only at hsolver howner
  refine .inl ⟨hok, ⟨hpassed, fun who asset => ?_, fun id hid => ?_, fun id hid => ?_⟩, ?_⟩
  · cases asset with
    | token id =>
      have htokens := hswap.tokens hpassed.parties hpassed.assets id who
      have hsame : st.after.tokenBalance id who = L.tokenBalance id who := by
        rw [hstores]
        rfl
      simp only [Stores.holding, reduceCtorEq, false_and, if_false, Nat.add_zero, hsame]
      exact htokens
    | sov =>
      have hledger : ∀ id, (L.consumeIntent E (settlement.intent.intent.id E)).account id =
          L.account id := by
        intro id
        rw [consumeIntent_stores hunused]
        rfl
      simp only [Stores.holding, true_and]
      by_cases hwho : who = st.tx.transaction.signer
      · subst hwho
        simp only [Ne.symm hpassed.parties, and_false, and_true, if_false, if_true]
        omega
      have hbalance := hother who hwho
      rw [hledger] at hbalance
      simp only [hwho, and_false, if_false, Nat.add_zero]
      by_cases hisOwner : who = settlement.intent.intent.owner
      · subst hisOwner
        simp only [and_true]
        omega
      · simp only [hisOwner, and_false, if_false, Nat.add_zero]
        rw [hbalance, hrest who hisOwner]
  · exact ⟨ownerWindow, gate_token hswap.give hswap.ownerGate hid⟩
  · exact ⟨solverWindow, gate_token hswap.want hswap.solverGate hid⟩
  · have hkept : L.consumedIntents = st.before.consumedIntents := consumedIntents_settleIntentLegs hlegs
    rw [hstores, ← hkept]
    rfl

theorem Step.Valid.cancellation (hvalid : st.Valid E) {intent : Intent}
    (haction : st.tx.transaction.action.resolved = .intentCancel intent) :
    (st.receipt.status = .success ∧ st.before.intentConsumed (intent.id E) = false ∧
        st.after.consumedIntents = st.before.consumedIntents.set (intent.id E) (some ())) ∨
      st.receipt.status ≠ .success ∧ st.after.consumedIntents = st.before.consumedIntents := by
  obtain ⟨p, s, -, hs, hL⟩ := applyTransaction_arm
    (a := fun _ => intentCancel E st.tx.transaction.signer intent) hvalid
    (fun p x hp => by simp only [dispatch, hp, haction])
  have hstores := finish_stores hL
  rcases hs with ⟨rfl, hne⟩ | hs
  · exact .inr ⟨hne, by rw [hstores]⟩
  rcases intentCancel_eq_ok hs with ⟨rfl, hne⟩ | ⟨hok, hunused, rfl⟩
  · exact .inr ⟨hne, by rw [hstores]⟩
  refine .inl ⟨hok, hunused, ?_⟩
  dsimp only at hstores
  rw [hstores, consumeIntent_stores hunused]
  rfl

theorem Step.Valid.intentStep (hvalid : st.Valid E) : IntentStep E st := by
  by_cases hfields : .intent ∈ st.tx.transaction.action.resolved.fields
  · cases haction : st.tx.transaction.action.resolved <;> rw [haction] at hfields
    case intentSettle settlement =>
      have hconsumes : ∀ id, st.Consumes E id ↔
          st.receipt.status = .success ∧ id = settlement.intent.intent.id E := by
        simp [Step.Consumes, haction]
      rcases hvalid.settlement haction with ⟨hok, hsettled, hused⟩ | ⟨hne, hkept, -⟩
      · exact .consume (fun id => by simp [hconsumes, hok]) hsettled.passed.unused hused
      · exact .keep hkept fun id hid => hne hid.1
    case intentCancel intent =>
      have hconsumes : ∀ id, st.Consumes E id ↔
          st.receipt.status = .success ∧ id = intent.id E := by
        simp [Step.Consumes, haction]
      rcases hvalid.cancellation haction with ⟨hok, hunused, hused⟩ | ⟨hne, hkept⟩
      · exact .consume (fun id => by simp [hconsumes, hok]) hunused hused
      · exact .keep hkept fun id hid => hne hid.1
    all_goals simp [Action.fields] at hfields
  · refine .keep (applyTransaction_same (f := .intent) hvalid hfields (by simp)) ?_
    rintro id ⟨-, ⟨settlement, haction, -⟩ | ⟨intent, haction, -⟩⟩ <;> exact hfields (by simp [haction, Action.fields])

end Transactions

/-! ## Chains -/

/-- The used intents are those consumed on the way. -/
def IntentsTraced (C : Crypto) (accepted : List Step) (L : Ledger) : Prop :=
  ∀ id, L.intentConsumed id = true ↔ ∃ st ∈ accepted, st.Consumes C id

theorem IntentsTraced.step {C : Crypto} {accepted : List Step} {st : Step}
    (h : IntentsTraced C accepted st.before) (hstep : IntentStep C st) :
    IntentsTraced C (accepted ++ [st]) st.after := by
  intro id
  have hold := h id
  rw [Stores.intentConsumed] at hold ⊢
  cases hstep with
  | keep hkept hidle =>
    rw [hkept, hold]
    simp [hidle id]
  | @consume id0 honly _ hused =>
    rw [hused, OrdMap.contains_eq, OrdMap.get?_set]
    rw [OrdMap.contains_eq] at hold
    by_cases heq : id0 = id
    · rw [if_pos heq]
      simp only [Option.isSome_some, true_iff]
      exact ⟨st, by simp, (honly id).mpr heq.symm⟩
    · rw [if_neg heq, hold]
      have hnot : ¬st.Consumes C id := fun hid => heq ((honly id).mp hid).symm
      simp [hnot]

theorem IntentsTraced.fresh {C : Crypto} {accepted : List Step} {st : Step} {id : Hash}
    (h : IntentsTraced C accepted st.before) (hstep : IntentStep C st) (hid : st.Consumes C id) :
    ∀ st' ∈ accepted, ¬st'.Consumes C id := by
  intro st' hst' hid'
  have hused : st.before.intentConsumed id = true := (h id).mpr ⟨st', hst', hid'⟩
  cases hstep with
  | keep _ hidle => exact hidle id hid
  | consume honly hunused _ =>
    obtain rfl := (honly id).mp hid
    rw [hunused] at hused
    exact absurd hused (by decide)

/-- Along a chain no intent is consumed twice; a settlement that succeeds moves exactly the two amounts between owner and
solver, the dues apart, within its terms and through both gates; and one that does not succeed moves nothing but the
dues. -/
theorem intent_settled_exactly (E : Env) (config : GenesisConfig) (g : Genesis) (height : ℕ) (accepted : List Step)
    (L : Ledger) (hg : config.build E.toCrypto = .ok g) (h : Chained E g.ledger 0 height accepted L) :
    (∀ earlier st between st' later id, accepted = earlier ++ st :: (between ++ st' :: later) →
      ¬(st.Consumes E.toCrypto id ∧ st'.Consumes E.toCrypto id)) ∧
    (∀ st ∈ accepted, ∀ settlement, st.tx.transaction.action.resolved = .intentSettle settlement →
      st.receipt.status = .success → SettledExactly E.toCrypto st settlement) ∧
    ∀ st ∈ accepted, ∀ settlement, st.tx.transaction.action.resolved = .intentSettle settlement →
      st.receipt.status ≠ .success → ∀ owner give want,
        Exchanges st.ctx st.tx.transaction owner give 0 want 0 st.before.toStores st.after.toStores := by
  obtain ⟨-, hfresh⟩ := Chained.history (J := IntentsTraced E)
    (Q := fun earlier st => ∀ id, st.Consumes E id → ∀ st' ∈ earlier, ¬st'.Consumes E id)
    (fun id => by
      rw [GenesisConfig.build_stores hg]
      refine iff_of_false (fun hused => by cases hused) ?_
      simp)
    (fun hreward hJ => by
      rw [IntentsTraced, applyCoinbase_stores hreward]
      exact hJ)
    (fun hvalid hJ => ⟨fun id => hJ.fresh hvalid.intentStep, hJ.step hvalid.intentStep⟩) h
  · refine ⟨fun earlier st between st' later id hsplit hboth => ?_, fun st hst settlement haction hok => ?_,
      fun st hst settlement haction hne => ?_⟩
    · rw [← List.cons_append, ← List.append_assoc] at hsplit
      exact hfresh _ st' later hsplit id hboth.2 st (by simp) hboth.1
    · rcases (h.valid st hst).settlement haction with ⟨-, hsettled, -⟩ | ⟨hne, -⟩
      · exact hsettled
      · exact absurd hok hne
    · rcases (h.valid st hst).settlement haction with ⟨hok, -⟩ | ⟨-, -, hnothing⟩
      · exact absurd hok hne
      · exact hnothing

/-- The asset of the solver. -/
def goldAsset : Hash := tokenAssetId sampleCrypto ⟨"bob.sov"⟩ "gold"

/-- The vault gives two of its grains for at least one unit of it. -/
def sampleIntent : Intent where
  owner := ⟨"vault.sov"⟩
  publicKey := memberKey 0
  nonce := 0
  giveAsset := .sov
  giveAmount := 2
  wantAsset := .token goldAsset
  minReceive := 1
  expiryHeight := 5

def sampleSettlement : Settlement where
  intent := ⟨sampleIntent, .v1Ed25519 (FixedBytes.zero 64)⟩
  solver := ⟨"bob.sov"⟩
  deliverAmount := 4

/-- The solver issues the units and fills the intent. -/
def settleTxs : List SignedTransaction :=
  [keyedTx (memberKey 1) "bob.sov" (.tokenIssue "gold" 9 ⟨"bob.sov"⟩),
   numberedTx (memberKey 1) "bob.sov" 1 (.intentSettle sampleSettlement)]

theorem sample_intent_settled :
    ∃ L, Chained sampleEnv treasury 0 1 (treasurySteps settleTxs) L ∧
      ∃ st ∈ treasurySteps settleTxs,
        SettledExactly sampleCrypto st sampleSettlement := by
  obtain ⟨⟨L, receipts⟩, hL⟩ := exists_of_toOption (x := executeBlock sampleEnv sampleContext treasury settleTxs)
    (by decide +kernel)
  have hsettled : (treasurySteps settleTxs).any (fun st =>
      decide (st.receipt.status = .success ∧ st.tx.transaction.action.resolved = .intentSettle sampleSettlement)) =
      true := by decide +kernel
  have hchain := chained_treasurySteps hL
  obtain ⟨st, hst, hsettle⟩ := List.any_eq_true.mp hsettled
  obtain ⟨hok, haction⟩ := of_decide_eq_true hsettle
  exact ⟨L, hchain, st, hst,
    (intent_settled_exactly sampleEnv treasuryGenesis _ 1 _ L rfl hchain).2.1 st hst _ haction hok⟩

end Runtime
end Sov
