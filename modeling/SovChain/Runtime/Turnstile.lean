import SovChain.Runtime.Failures
import SovChain.Runtime.Traces
import SovChain.ShieldedPq.Wire
import SovChain.State.NoteTree

/-!
# A verified bundle of the post-quantum pool

The verifier and the pool make their checks apart, and the executor trusts that the first imply the second. They do, for
digests that come from the decoder: a verified bundle is applied whole, by either route, unless the signer's balance
overflows. What it spends stays spent along the chain.
-/

namespace Sov

/-! ## The pool -/

namespace ShieldedV2State
variable {C : Crypto} {pool pool' : ShieldedV2State} {nullifiers commitments batch : List Hash}

theorem checkNullifiers_passes (hzero : Hash.zero ∉ nullifiers) (hcanonical : ∀ nf ∈ nullifiers, isCanonical nf = true)
    (hunseen : ∀ nf ∈ nullifiers, pool.nullifierSeen nf = false) (hnodup : nullifiers.Nodup)
    (hbatch : ∀ nf ∈ nullifiers, nf ∉ batch) : pool.checkNullifiers batch nullifiers = .ok () := by
  induction nullifiers generalizing batch with
  | nil => rfl
  | cons nf rest ih =>
    have hne : nf ≠ Hash.zero := fun h => hzero (h ▸ List.mem_cons_self)
    have hnew : batch.contains nf = false := by simpa using hbatch nf List.mem_cons_self
    rw [checkNullifiers, if_neg hne, hcanonical nf List.mem_cons_self, hunseen nf List.mem_cons_self, hnew]
    refine ih (fun h => hzero (List.mem_cons_of_mem _ h)) (fun x hx => hcanonical x (List.mem_cons_of_mem _ hx))
      (fun x hx => hunseen x (List.mem_cons_of_mem _ hx)) (List.nodup_cons.mp hnodup).2 fun x hx hmem => ?_
    rcases List.mem_cons.mp hmem with rfl | hmem
    · exact (List.nodup_cons.mp hnodup).1 hx
    · exact hbatch x (List.mem_cons_of_mem _ hx) hmem

/-- The checks of the pool all pass. -/
structure Takes (pool : ShieldedV2State) (nullifiers commitments : List Hash) : Prop where
  room : pool.commitments.length + commitments.length ≤ maxV2Notes
  notes : ∀ cm ∈ commitments, cm ≠ Hash.zero ∧ isCanonical cm = true
  spends : ∀ nf ∈ nullifiers, nf ≠ Hash.zero ∧ isCanonical nf = true
  unseen : ∀ nf ∈ nullifiers, pool.nullifierSeen nf = false
  distinct : nullifiers.Nodup

theorem Takes.exists_apply (h : pool.Takes nullifiers commitments) :
    ∃ pool', pool.apply C nullifiers commitments = .ok pool' := by
  have hzero : commitments.contains Hash.zero = false := by
    simpa using fun hmem => (h.notes _ hmem).1 rfl
  have hcanonical : commitments.all isCanonical = true := List.all_eq_true.mpr fun cm hcm => (h.notes cm hcm).2
  have hcheck : pool.checkNullifiers [] nullifiers = .ok () :=
    checkNullifiers_passes (fun hmem => (h.spends _ hmem).1 rfl) (fun nf hnf => (h.spends nf hnf).2) h.unseen h.distinct
      fun _ _ => List.not_mem_nil
  rw [ShieldedV2State.apply, if_neg (Nat.not_lt.mpr h.room), hzero, if_neg Bool.false_ne_true, hcanonical, Bool.not_true,
    if_neg Bool.false_ne_true, hcheck]
  exact ⟨_, rfl⟩

theorem commitments_foldl_appendCommitment (pool : ShieldedV2State) (cms : List Hash) :
    (cms.foldl (appendCommitment C) pool).commitments = pool.commitments ++ cms ∧
      (cms.foldl (appendCommitment C) pool).nullifiers = pool.nullifiers := by
  induction cms generalizing pool with
  | nil => exact ⟨(List.append_nil _).symm, rfl⟩
  | cons cm rest ih =>
    obtain ⟨hcms, hnfs⟩ := ih (pool.appendCommitment C cm)
    refine ⟨?_, ?_⟩
    · rw [List.foldl_cons, hcms, appendCommitment, List.append_assoc, List.singleton_append]
    · rw [List.foldl_cons, hnfs, appendCommitment]

/-- What is applied is in the pool, and nothing else is new. -/
theorem apply_added (h : pool.apply C nullifiers commitments = .ok pool') :
    pool'.commitments = pool.commitments ++ commitments ∧
      ∀ nf, pool'.nullifierSeen nf = true ↔ pool.nullifierSeen nf = true ∨ nf ∈ nullifiers := by
  unfold ShieldedV2State.apply at h
  split_ifs at h
  rcases hcheck : pool.checkNullifiers [] nullifiers with e | u
  · rw [hcheck] at h
    cases h
  rw [hcheck] at h
  cases h
  obtain ⟨hcms, hnfs⟩ := commitments_foldl_appendCommitment (C := C)
    { pool with nullifiers := nullifiers.foldl (fun m nf => m.insert nf ()) pool.nullifiers } commitments
  refine ⟨hcms, fun nf => ?_⟩
  rw [nullifierSeen, hnfs, OrdMap.contains_eq, OrdMap.get?_foldl_insert]
  by_cases hnf : nf ∈ nullifiers
  · simp [hnf]
  · simp [hnf, nullifierSeen]

end ShieldedV2State

/-! ## The verifier -/

namespace ShieldedV2
variable {E : Env} {bundle : Bytes} {st : Stores} {mining : MiningPolicy} {height : U64} {carrier : Carrier}
  {signerBalance : Balance} {suite2 : Bool} {effects : V2Effects} {b : SpendBundle}

theorem ne_zero_of_checkInputs {i : ℕ} {inputs : List V2Input} (h : checkInputs i inputs = .ok ()) :
    ∀ s ∈ inputs, s.dummy = false → s.nullifier ≠ Hash.zero := by
  induction inputs generalizing i with
  | nil => exact fun s hs => absurd hs List.not_mem_nil
  | cons s rest ih =>
    rw [checkInputs] at h
    have hrest : checkInputs (i + 1) rest = .ok () ∧ (s.dummy = false → s.nullifier ≠ Hash.zero) := by
      split_ifs at h with hdummy hbad hzero
      · exact ⟨h, fun hreal => by rw [hreal] at hdummy; cases hdummy⟩
      · exact ⟨h, fun _ => hzero⟩
    intro s' hs'
    rcases List.mem_cons.mp hs' with rfl | hs'
    · exact hrest.2
    · exact ih hrest.1 s' hs'

theorem ne_zero_of_checkOutputs {j : ℕ} {outputs : List V2Output} (h : checkOutputs j outputs = .ok ()) :
    ∀ s ∈ outputs, s.dummy = false → s.commitment ≠ Hash.zero := by
  induction outputs generalizing j with
  | nil => exact fun s hs => absurd hs List.not_mem_nil
  | cons s rest ih =>
    rw [checkOutputs] at h
    have hrest : checkOutputs (j + 1) rest = .ok () ∧ (s.dummy = false → s.commitment ≠ Hash.zero) := by
      split_ifs at h with hdummy hbad hzero
      · exact ⟨h, fun hreal => by rw [hreal] at hdummy; cases hdummy⟩
      · exact ⟨h, fun _ hz => hzero (.inl hz)⟩
    intro s' hs'
    rcases List.mem_cons.mp hs' with rfl | hs'
    · exact hrest.2
    · exact ih hrest.1 s' hs'

theorem checkStructure_eq_ok (h : checkStructure b = .ok ()) :
    checkInputs 0 b.inputs = .ok () ∧ checkOutputs 0 b.outputs = .ok () ∧ (nullifiers b).Nodup := by
  unfold checkStructure at h
  dsimp only at h
  split at h
  · cases h
  obtain ⟨u, hinputs, h⟩ := Runtime.bind_eq_ok.mp h
  obtain ⟨u', houtputs, h⟩ := Runtime.bind_eq_ok.mp h
  split at h
  · cases h
  · rename_i hdup
    exact ⟨hinputs, houtputs, not_not.mp hdup⟩

theorem mem_nullifiers {nf : Hash} : nf ∈ nullifiers b ↔ ∃ s ∈ b.inputs, s.dummy = false ∧ s.nullifier = nf := by
  simp [nullifiers, and_assoc]

theorem mem_commitments {cm : Hash} : cm ∈ commitments b ↔ ∃ s ∈ b.outputs, s.dummy = false ∧ s.commitment = cm := by
  simp [commitments, and_assoc]

theorem unseen_of_spentInput {pool : ShieldedV2State} (h : spentInput pool b.inputs = none) :
    ∀ nf ∈ nullifiers b, pool.nullifierSeen nf = false := by
  intro nf hnf
  obtain ⟨s, hs, hreal, rfl⟩ := mem_nullifiers.mp hnf
  rw [← List.zipIdx_map_fst 0 b.inputs, List.mem_map] at hs
  obtain ⟨s', hs', rfl⟩ := hs
  have hnone := List.find?_eq_none.mp (Option.map_eq_none_iff.mp h) s' hs'
  simpa [hreal] using hnone

/-- What a verified bundle has passed beside the value checks of `V2Effects.Sound`. -/
structure Passed (st : Stores) (b : SpendBundle) (effects : V2Effects) : Prop where
  nullifiers_eq : effects.nullifiers = nullifiers b
  commitments_eq : effects.commitments = commitments b
  spends : Hash.zero ∉ nullifiers b
  notes : Hash.zero ∉ commitments b
  distinct : (nullifiers b).Nodup
  unseen : ∀ nf ∈ nullifiers b, st.shieldedV2.nullifierSeen nf = false
  room : st.shieldedV2.commitments.length + (commitments b).length ≤ ShieldedV2State.maxV2Notes
  value : st.shieldedV2Value.toNat + effects.shieldIn.toNat < 2 ^ 128

theorem checkState_passed (h : checkState st mining height signerBalance b = .ok effects) :
    effects.nullifiers = nullifiers b ∧ effects.commitments = commitments b ∧
      (∀ nf ∈ nullifiers b, st.shieldedV2.nullifierSeen nf = false) ∧
      st.shieldedV2.commitments.length + (commitments b).length ≤ ShieldedV2State.maxV2Notes ∧
      st.shieldedV2Value.toNat + effects.shieldIn.toNat < 2 ^ 128 := by
  have hsound := checkState_sound h
  unfold checkState at h
  dsimp only at h
  split at h
  · cases h
  split at h
  · cases h
  rename_i hspent
  split at h
  · cases h
  rename_i hroom
  split at h
  · cases h
  split at h
  rotate_left
  · cases h
  rename_i after hafter
  have hvalue : st.shieldedV2Value.toNat + effects.shieldIn.toNat < 2 ^ 128 := by
    rw [BitVec.checkedAdd_eq_some] at hafter
    rw [hsound.shieldIn, hafter]
    exact after.isLt
  split at h
  · cases h
  have hunseen := unseen_of_spentInput (Option.eq_none_iff_forall_ne_some.mpr hspent)
  split at h
  · split at h
    · cases h
      exact ⟨rfl, rfl, hunseen, Nat.not_lt.mp hroom, hvalue⟩
    · cases h
  · cases h
    exact ⟨rfl, rfl, hunseen, Nat.not_lt.mp hroom, hvalue⟩

theorem verifyBundleForCarrier_passed
    (h : verifyBundleForCarrier E bundle st mining height carrier signerBalance suite2 = .ok effects) :
    ∃ b, decode E bundle suite2 = .ok b ∧ effects.Sound st mining height signerBalance b ∧ Passed st b effects := by
  obtain ⟨b, hb, hsound⟩ := verifyBundleForCarrier_sound h
  refine ⟨b, hb, hsound, ?_⟩
  unfold verifyBundleForCarrier at h
  obtain ⟨b', hb', h⟩ := Runtime.bind_eq_ok.mp h
  cases hb.symm.trans hb'
  dsimp only at h
  split at h
  · cases h
  rename_i hstructure
  split at h
  · cases h
  split at h
  · cases h
  split at h
  · cases h
  split at h
  · cases h
  obtain ⟨hinputs, houtputs, hdistinct⟩ := checkStructure_eq_ok hstructure
  obtain ⟨hnfs, hcms, hunseen, hroom, hvalue⟩ := checkState_passed h
  refine ⟨hnfs, hcms, fun hzero => ?_, fun hzero => ?_, hdistinct, hunseen, hroom, hvalue⟩
  · obtain ⟨s, hs, hreal, hnf⟩ := mem_nullifiers.mp hzero
    exact ne_zero_of_checkInputs hinputs s hs hreal hnf
  · obtain ⟨s, hs, hreal, hcm⟩ := mem_commitments.mp hzero
    exact ne_zero_of_checkOutputs houtputs s hs hreal hcm

theorem decode_eq_ok {suite2Active : Bool} (h : decode E bundle suite2Active = .ok b) :
    ∃ suite2, E.decodeV2 suite2 bundle = .ok b := by
  unfold decode at h
  dsimp only at h
  split_ifs at h
  split at h
  · rename_i b' hb'
    cases h
    exact ⟨_, hb'⟩
  · cases h
  · cases h

/-- The checks of the verifier imply those of the pool. -/
theorem Passed.takes {W : Wire.Frames} (hwire : E.decodeV2 = Wire.decodeV2 W) (hdecode : decode E bundle suite2 = .ok b)
    (h : Passed st b effects) : st.shieldedV2.Takes effects.nullifiers effects.commitments := by
  obtain ⟨suite, hdecoded⟩ := decode_eq_ok hdecode
  rw [hwire] at hdecoded
  obtain ⟨hinputs, houtputs⟩ := Wire.canonical_of_decodeV2 hdecoded
  rw [h.nullifiers_eq, h.commitments_eq]
  refine ⟨h.room, fun cm hcm => ⟨fun hz => h.notes (hz ▸ hcm), ?_⟩, fun nf hnf => ⟨fun hz => h.spends (hz ▸ hnf), ?_⟩,
    h.unseen, h.distinct⟩
  · obtain ⟨s, hs, -, rfl⟩ := mem_commitments.mp hcm
    exact houtputs s hs
  · obtain ⟨s, hs, -, rfl⟩ := mem_nullifiers.mp hnf
    exact hinputs s hs

theorem verifyBundleForCarrier_ne_ok {nf : Hash} (hb : decode E bundle suite2 = .ok b) (hnf : nf ∈ nullifiers b)
    (hseen : st.shieldedV2.nullifierSeen nf = true) :
    verifyBundleForCarrier E bundle st mining height carrier signerBalance suite2 ≠ .ok effects := by
  intro h
  obtain ⟨b', hb', -, hpassed⟩ := verifyBundleForCarrier_passed h
  cases hb.symm.trans hb'
  rw [hpassed.unseen nf hnf] at hseen
  cases hseen

end ShieldedV2

open ShieldedV2 (Passed commitments decode nullifiers verifyBundleForCarrier verifyBundleForCarrier_passed)

namespace Runtime

/-! ## The two routes -/

section Routes
variable {E : Env} {ctx : BlockContext} {s : InFlight} {effects : V2Effects} {deferred : Option Balance} {bundle : Bytes}

/-- How the effects of a bundle come to be applied: verified on the spot, or verified as the withdrawal that pays the fee. -/
inductive V2Route (E : Env) (ctx : BlockContext) (s : InFlight) (effects : V2Effects) : Bytes → Option Balance → Prop
  | direct {bundle : Bytes} {mining : MiningPolicy} {height : U64} {carrier : Carrier} {suite2 : Bool}
      (h : verifyBundleForCarrier E bundle s.ledger.toStores mining height carrier s.signer.balance suite2 =
        .ok effects) : V2Route E ctx s effects bundle none
  | feeFunded {bundle : Bytes} {tx : Transaction} {fee : Balance} (haction : tx.action = .shieldedV2 bundle)
      (h : fundFee E ctx s.ledger.toStores tx s.signer.balance fee = .ok (some effects)) :
      V2Route E ctx s effects bundle (some fee)

/-- What an applied bundle has done. -/
structure V2Applied (s : InFlight) (effects : V2Effects) (b : SpendBundle) (deferred : Option Balance) (s' : InFlight) :
    Prop where
  value : s'.ledger.shieldedV2Value.toNat + effects.deshieldOut.toNat =
    s.ledger.shieldedV2Value.toNat + effects.shieldIn.toNat
  shieldIn : effects.shieldIn.toNat = b.transparentIn.toNat
  deshieldOut : effects.deshieldOut.toNat = b.transparentOut.toNat
  fresh : ∀ nf ∈ nullifiers b, s.ledger.shieldedV2.nullifierSeen nf = false
  nullifiers : ∀ nf, s'.ledger.shieldedV2.nullifierSeen nf = true ↔
    s.ledger.shieldedV2.nullifierSeen nf = true ∨ nf ∈ nullifiers b
  commitments : s'.ledger.shieldedV2.commitments = s.ledger.shieldedV2.commitments ++ commitments b
  balance : s'.signer.balance.toNat + effects.shieldIn.toNat + (deferred.getD 0).toNat =
    s.signer.balance.toNat + effects.deshieldOut.toNat

/-- A verified bundle is applied by either route, if the balance has room for what it credits. -/
theorem V2Route.applied {W : Wire.Frames} (hwire : E.decodeV2 = Wire.decodeV2 W)
    (h : V2Route E ctx s effects bundle deferred)
    (hroom : deferred = none → s.signer.balance.toNat + effects.deshieldOut.toNat < 2 ^ 128 + effects.shieldIn.toNat) :
    ∃ b suite2 s', decode E bundle suite2 = .ok b ∧
      applyV2 E deferred effects s = .ok (s', .success) ∧ V2Applied s effects b deferred s' := by
  obtain ⟨b, suite2, mining, height, hb, hsound, hpassed, hcredit, hfee, hout⟩ :
      ∃ b suite2 mining height, decode E bundle suite2 = .ok b ∧
        effects.Sound s.ledger mining height s.signer.balance b ∧
        Passed s.ledger b effects ∧
        s.signer.balance.toNat + effects.deshieldOut.toNat < 2 ^ 128 + effects.shieldIn.toNat ∧
        (deferred.getD 0).toNat + effects.shieldIn.toNat ≤ s.signer.balance.toNat + effects.deshieldOut.toNat ∧
        (deferred = none ∨ effects.deshieldOut ≠ 0) := by
    rcases h with hverified | ⟨haction, hfunded⟩
    · obtain ⟨b, hb, hsound, hpassed⟩ := verifyBundleForCarrier_passed hverified
      have hcovered := hsound.covered
      refine ⟨b, _, _, _, hb, hsound, hpassed, hroom rfl, ?_, .inl rfl⟩
      change 0 + _ ≤ _
      omega
    · obtain ⟨bundle', hfunds⟩ := fundFee_eq_some hfunded
      cases haction.symm.trans hfunds.action
      obtain ⟨b, hb, hsound, hpassed⟩ := verifyBundleForCarrier_passed hfunds.verified
      have hzero : effects.shieldIn.toNat = 0 := by rw [hfunds.nothingIn]; rfl
      have hcredits := hfunds.credits
      have hpays := hfunds.pays
      refine ⟨b, true, ctx.mining, ctx.height, hb, hsound, hpassed, by omega, ?_, .inr hfunds.paysOut⟩
      rw [Option.getD_some]
      omega
  obtain ⟨pool, htaken⟩ := (hpassed.takes hwire hb).exists_apply (C := E)
  obtain ⟨s', happly⟩ := exists_applyV2 htaken hsound.covered hpassed.value hsound.held hcredit hfee
  obtain ⟨happlied, hpool⟩ := applyV2_applied s' _ happly
  have hvalue := happlied.value
  obtain ⟨hcms, hnfs⟩ := ShieldedV2State.apply_added hpool
  rw [hpassed.nullifiers_eq] at hnfs
  rw [hpassed.commitments_eq] at hcms
  refine ⟨b, suite2, s', hb, happly, by omega, ?_, ?_, hpassed.unseen, hnfs, hcms, happlied.balance hout⟩
  · rw [hsound.shieldIn, BitVec.toNat_setWidth_of_le (by decide)]
  · rw [hsound.deshieldOut, BitVec.toNat_setWidth_of_le (by decide)]

end Routes

/-! ## Along a chain -/

section Chains
variable {E : Env} {ctx : BlockContext} {stx : SignedTransaction} {L L' : Ledger} {receipt : Receipt}
  {accepted : List Step} {st : Step}

/-- The step applies the bundle `b`. -/
def Step.Spends (E : Env) (st : Step) (b : SpendBundle) : Prop :=
  ∃ bundle, st.tx.transaction.action.resolved = .shieldedV2 bundle ∧ st.receipt.status = .success ∧
    decode E bundle st.ctx.shieldedV2Suite2Active = .ok b

/-- The pool after an accepted transaction: as before, or with the bundle applied. -/
theorem Step.Valid.poolStep (hvalid : st.Valid E) :
    (st.after.shieldedV2 = st.before.shieldedV2 ∧ ∀ bundle, st.tx.transaction.action.resolved = .shieldedV2 bundle →
      st.receipt.status ≠ .success) ∨
      ∃ b, st.Spends E b ∧ (∀ nf ∈ nullifiers b, st.before.shieldedV2.nullifierSeen nf = false) ∧
        st.before.shieldedV2.apply E (nullifiers b) (commitments b) =
          .ok st.after.shieldedV2 := by
  by_cases hbundle : ∃ bundle, st.tx.transaction.action.resolved = .shieldedV2 bundle
  · obtain ⟨bundle, haction⟩ := hbundle
    obtain ⟨p, s, hp, hs, hL⟩ := applyTransaction_arm (a := fun p => shieldedV2 st.ctx st.tx.transaction.signer E
      st.tx.transaction.nonce p.fee p.feeFunded bundle) hvalid (fun p x hp => by simp only [dispatch, hp, haction])
    have hstores : st.after.shieldedV2 = s.ledger.shieldedV2 := by rw [finish_stores hL]
    rcases hs with ⟨rfl, hne⟩ | hs
    · exact .inl ⟨hstores, fun _ _ => hne⟩
    have hok : st.receipt.status = .success := shieldedV2_status hs
    -- Both routes verified the bundle against the ledger it is applied to.
    have hroute : ∀ effects b, decode E bundle st.ctx.shieldedV2Suite2Active = .ok b →
        Passed st.before b effects → ∀ deferred,
        applyV2 E deferred effects ⟨st.before, p.signer, p.fee⟩ = .ok (s, st.receipt.status) →
        ∃ b, st.Spends E b ∧ (∀ nf ∈ nullifiers b, st.before.shieldedV2.nullifierSeen nf = false) ∧
          st.before.shieldedV2.apply E (nullifiers b) (commitments b) =
            .ok st.after.shieldedV2 := by
      intro effects b hb hpassed deferred happly
      have hpool := (applyV2_applied _ _ happly).2
      rw [hpassed.nullifiers_eq, hpassed.commitments_eq, ← hstores] at hpool
      exact ⟨b, ⟨bundle, haction, hok, hb⟩, hpassed.unseen, hpool⟩
    refine .inr ?_
    unfold shieldedV2 at hs
    split_ifs at hs
    split at hs
    · rename_i effects hfunded
      obtain ⟨signer, action, nonce, balance, r, hadm⟩ := prepare_eq_ok hp
      have hfund := hadm.funded
      rw [hfunded] at hfund
      obtain ⟨bundle', hpays⟩ := fundFee_eq_some hfund
      obtain rfl : bundle' = bundle := by
        rw [hpays.action] at haction
        cases haction
        rfl
      obtain ⟨b, hb, -, hpassed⟩ := verifyBundleForCarrier_passed hpays.verified
      exact hroute effects b (by rw [hpays.suite2]; exact hb) hpassed _ hs
    · split at hs
      · cases hs
      · rename_i effects hverified
        obtain ⟨b, hb, -, hpassed⟩ := verifyBundleForCarrier_passed hverified
        exact hroute effects b hb hpassed _ hs
  · refine .inl ⟨applyTransaction_same (f := .shieldedV2) hvalid ?_ (by simp), ?_⟩
    · cases haction : st.tx.transaction.action.resolved <;> simp_all [Action.fields]
    · intro bundle haction
      exact absurd ⟨bundle, haction⟩ hbundle

/-- What the steps have spent is in the pool. -/
def SpendsTraced (E : Env) (accepted : List Step) (L : Ledger) : Prop :=
  ∀ st ∈ accepted, ∀ b, st.Spends E b → ∀ nf ∈ nullifiers b, L.shieldedV2.nullifierSeen nf = true

theorem SpendsTraced.step (h : SpendsTraced E accepted st.before) (hvalid : st.Valid E) :
    (∀ b, st.Spends E b → ∀ st' ∈ accepted, ∀ b', st'.Spends E b' → ∀ nf ∈ nullifiers b',
      nf ∉ nullifiers b) ∧ SpendsTraced E (accepted ++ [st]) st.after := by
  rcases hvalid.poolStep with ⟨hsame, hfailed⟩ | ⟨b, hspends, hfresh, hpool⟩
  · have hnone : ∀ b, ¬st.Spends E b := by
      rintro b ⟨bundle, haction, hok, -⟩
      exact hfailed bundle haction hok
    refine ⟨fun b hb => absurd hb (hnone b), fun st' hst' b' hb' nf hnf => ?_⟩
    rw [hsame]
    rcases List.mem_append.mp hst' with hold | hnew
    · exact h st' hold b' hb' nf hnf
    · rw [List.mem_singleton.mp hnew] at hb'
      exact absurd hb' (hnone b')
  · obtain ⟨-, hnfs⟩ := ShieldedV2State.apply_added hpool
    have honly : ∀ b', st.Spends E b' → b' = b := by
      rintro b' ⟨bundle', haction', -, hb'⟩
      obtain ⟨bundle, haction, -, hb⟩ := hspends
      cases haction.symm.trans haction'
      cases hb.symm.trans hb'
      rfl
    refine ⟨fun b1 hb1 st' hst' b' hb' nf hnf hmem => ?_, fun st' hst' b' hb' nf hnf => ?_⟩
    · rw [honly b1 hb1] at hmem
      have hseen := h st' hst' b' hb' nf hnf
      rw [hfresh nf hmem] at hseen
      cases hseen
    · refine (hnfs nf).mpr ?_
      rcases List.mem_append.mp hst' with hold | hnew
      · exact .inl (h st' hold b' hb' nf hnf)
      · rw [List.mem_singleton.mp hnew] at hb'
        rw [honly b' hb'] at hnf
        exact .inr hnf

/-- Nothing that a chain has spent is spent again on it. -/
structure SpentOnce (E : Env) (accepted : List Step) (L : Ledger) : Prop where
  /-- No two transactions of the chain spend one nullifier. -/
  once : ∀ earlier st later, accepted = earlier ++ st :: later → ∀ b, st.Spends E b → ∀ st' ∈ earlier, ∀ b',
    st'.Spends E b' → ∀ nf ∈ nullifiers b', nf ∉ nullifiers b
  /-- The verifier refuses what names a spent nullifier. -/
  refused : ∀ st ∈ accepted, ∀ b, st.Spends E b → ∀ nf ∈ nullifiers b, ∀ bundle suite2 b',
    decode E bundle suite2 = .ok b' → nf ∈ nullifiers b' →
      ∀ mining height carrier balance effects,
        verifyBundleForCarrier E bundle L.toStores mining height carrier balance suite2 ≠ .ok effects

theorem Chained.spentOnce {G : Ledger} {base height : ℕ} (h : Chained E G base height accepted L) :
    SpentOnce E accepted L := by
  obtain ⟨htraced, honce⟩ := Chained.history (J := SpendsTraced E)
    (Q := fun earlier st => ∀ b, st.Spends E b → ∀ st' ∈ earlier, ∀ b', st'.Spends E b' →
      ∀ nf ∈ nullifiers b', nf ∉ nullifiers b)
    (fun st hst => absurd hst List.not_mem_nil)
    (fun hreward hJ => by
      rw [SpendsTraced, applyCoinbase_stores hreward]
      exact hJ)
    (fun hvalid hJ => hJ.step hvalid) h
  refine ⟨honce, fun st hst b hb nf hnf bundle suite2 b' hb' hnf' mining height carrier balance effects => ?_⟩
  exact ShieldedV2.verifyBundleForCarrier_ne_ok hb' hnf' (htraced st hst b hb nf hnf)

/-- A verified bundle is applied by either route, once, and the pool's value moves by its two legs, if the signer's balance
has room for what is credited; what a chain has spent is never spent on it again; a pool that refuses is unchanged. -/
theorem verified_bundle_applies (E : Env) (W : Wire.Frames) (hwire : E.decodeV2 = Wire.decodeV2 W) :
    (∀ ctx s effects bundle deferred, V2Route E ctx s effects bundle deferred →
      (deferred = none → s.signer.balance.toNat + effects.deshieldOut.toNat < 2 ^ 128 + effects.shieldIn.toNat) →
        ∃ b suite2 s', decode E bundle suite2 = .ok b ∧
          applyV2 E.toCrypto deferred effects s = .ok (s', .success) ∧ V2Applied s effects b deferred s') ∧
    (∀ G base height accepted L, Chained E G base height accepted L → SpentOnce E accepted L) ∧
    ∀ merge (p p' : FrontierPool) nullifiers commitments e,
      p.apply merge nullifiers commitments = some (p', some e) → p' = p :=
  ⟨fun _ _ _ _ _ h hroom => h.applied hwire hroom, fun _ _ _ _ _ h => h.spentOnce,
    fun _ _ _ _ _ _ h => FrontierPool.apply_refused h⟩

end Chains

/-! ## A withdrawal -/

/-- The decoder of the wire format, and every signature and proof accepted. -/
def withdrawalEnv : Env :=
  { sampleEnv with
    decodeV2 := Wire.decodeV2 Wire.openFrames
    verifyCarrierAuth := fun _ _ => true
    verifySpend := fun _ _ => .ok () }

/-- One note is spent and one grain of it leaves the pool. -/
def withdrawalBundle : Wire.SpendBundle :=
  { Wire.anchoredBundle Hash.zero with
    publicInputs :=
      { (Wire.anchoredBundle Hash.zero).publicInputs with
        nullifiers := ⟨[FixedBytes.pad 32 [1], Hash.zero, Hash.zero, Hash.zero], rfl⟩
        inputDummy := ⟨[false, true, true, true], rfl⟩
        transparentOut := 1 } }

def withdrawalBytes : Bytes := Wire.proofVersionV1 :: Wire.encodeBody withdrawalBundle

def withdrawalEffects : V2Effects where
  nullifiers := [FixedBytes.pad 32 [1]]
  commitments := []
  shieldIn := 0
  deshieldOut := 1
  windowUpdate := none

/-- A pool that holds one grain, and a signer with the balance. -/
def withdrawalState (balance : Balance) : InFlight where
  ledger := (Ledger.new sampleCrypto).overwrite sampleCrypto (.shieldedV2Value 1)
  signer := { (default : Account) with balance := balance }
  feePaid := 0

theorem decode_first_suite {E : Env} {body : Bytes} {b : SpendBundle}
    (h : E.decodeV2 false (Wire.proofVersionV1 :: body) = .ok b) :
    decode E (Wire.proofVersionV1 :: body) false = .ok b := by
  have hhead : decide ((Wire.proofVersionV1 :: body).head? = some 2) = false := rfl
  unfold decode
  dsimp only
  rw [hhead, h]
  rfl

theorem canonical_withdrawal : withdrawalBundle.publicInputs.Canonical := by
  have hzero : ∀ d ∈ List.replicate 4 Hash.zero, ShieldedV2State.isCanonical d = true := fun d hd => by
    rw [List.eq_of_mem_replicate hd]
    decide
  exact ⟨hzero, by decide, hzero⟩

theorem decode_withdrawal : decode withdrawalEnv withdrawalBytes false = .ok withdrawalBundle.toPublic := by
  have hframed := Wire.framed_anchoredBundle Hash.zero (.inl rfl)
  unfold withdrawalBytes
  apply decode_first_suite
  have henv : withdrawalEnv.decodeV2 = Wire.decodeV2 Wire.openFrames := rfl
  rw [henv, Wire.decodeV2_eq_ok]
  refine ⟨withdrawalBundle, ?_, rfl⟩
  rw [if_neg Bool.false_ne_true, Wire.decodeBundleForSuite_eq_ok]
  exact ⟨rfl, rfl, canonical_withdrawal, hframed.proof_pos, hframed.proof_le, hframed.frame, hframed.ciphertexts⟩

theorem verify_withdrawal {balance : Balance} (h : balance = 0 ∨ balance = BitVec.allOnes 128) :
    verifyBundleForCarrier withdrawalEnv withdrawalBytes (withdrawalState balance).ledger sampleMining 1
      ⟨⟨"sov", Hash.zero⟩, ⟨"alice.sov"⟩, 0⟩ balance false = .ok withdrawalEffects := by
  have hdecoded := decode_withdrawal
  -- The bytes are thousands and nothing but the decoder looks at them.
  generalize withdrawalBytes = bytes at hdecoded ⊢
  unfold verifyBundleForCarrier
  rw [hdecoded]
  rcases h with rfl | rfl
  · rfl
  · rfl

/-- A withdrawal that verifies overflows the balance of a signer that holds all that a balance can. -/
theorem withdrawal_overflows : verifyBundleForCarrier withdrawalEnv withdrawalBytes
        (withdrawalState (BitVec.allOnes 128)).ledger.toStores sampleMining 1 ⟨⟨"sov", Hash.zero⟩, ⟨"alice.sov"⟩, 0⟩
        (BitVec.allOnes 128) false = .ok withdrawalEffects ∧
      ∃ L, applyV2 sampleCrypto none withdrawalEffects (withdrawalState (BitVec.allOnes 128)) =
        .error (.reject L .overflow) :=
  ⟨verify_withdrawal (.inr rfl), _, rfl⟩

/-- The withdrawal is applied to a signer without a balance. -/
theorem withdrawal_applies : ∃ b suite2 s', decode withdrawalEnv withdrawalBytes suite2 = .ok b ∧
    applyV2 sampleCrypto none withdrawalEffects (withdrawalState 0) = .ok (s', .success) ∧
      V2Applied (withdrawalState 0) withdrawalEffects b none s' :=
  (verified_bundle_applies withdrawalEnv Wire.openFrames rfl).1 sampleContext (withdrawalState 0) withdrawalEffects
    withdrawalBytes none (.direct (verify_withdrawal (.inl rfl))) fun _ => by decide

end Runtime
end Sov
