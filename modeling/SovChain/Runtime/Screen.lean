import SovChain.Runtime.Carriers
import SovChain.Runtime.Sunset
import SovChain.Runtime.Turnstile

/-!
# Screening of spent inputs

Before any proof is verified a node reads the nullifiers of a bundle, through every carrier, and refuses what is spent
or cannot be read. Nothing it refuses could be executed, now or later on the same chain: the short reader agrees with
the decoder, what is spent stays spent, and a bundle under carriers that the executor does not remove never runs.
-/

namespace Sov
namespace ShieldedV2

/-- `reject_spent_inputs`. -/
def rejectSpentInputs (s : Stores) : Action → Except ShieldedV2Error Unit
  | .tipped _ inner => rejectSpentInputs s inner
  | .timestamped _ inner => rejectSpentInputs s inner
  | .multisigExec inner _ => rejectSpentInputs s inner
  | .proposeMultisig _ inner => rejectSpentInputs s inner
  | .shieldedV2 bundle =>
    match Wire.inputNullifiers bundle with
    | .error e => .error (.malformedBundle e.message)
    | .ok inputs =>
      match inputs.findIdx? fun i => !i.2 && s.shieldedV2.nullifierSeen i.1 with
      | some slot => .error (.nullifierAlreadySpent slot)
      | none => .ok ()
  | _ => .ok ()

/-- What `prune_spent_v2` rejects of a pool: the transaction ids, with the error of each. -/
def spentV2 (C : Crypto) (s : Stores) (pool : List SignedTransaction) : List (Hash × ShieldedV2Error) :=
  pool.filterMap fun tx =>
    match rejectSpentInputs s tx.transaction.action with
    | .error e => some (tx.id C, e)
    | .ok () => none

variable {s s' : Stores} {a node : Action} {bundle : Bytes} {e : ShieldedV2Error}

/-- The screen looks at the innermost action only. -/
theorem rejectSpentInputs_of_mem_chain (h : node ∈ a.chain) : rejectSpentInputs s a = rejectSpentInputs s node := by
  induction a with
  | multisigExec inner approvals ih | proposeMultisig account inner ih | tipped tip inner ih
  | timestamped createdAtMs inner ih =>
    rcases List.mem_cons.mp h with rfl | h
    · rfl
    · exact ih h
  | _ => rw [List.mem_singleton.mp h]

theorem rejectSpentInputs_resolved (a : Action) : rejectSpentInputs s a.resolved = rejectSpentInputs s a := by
  have hunwrapped : ∀ a : Action, rejectSpentInputs s a.unwrapped = rejectSpentInputs s a := by
    intro a
    cases a <;> rfl
  have huntimed : rejectSpentInputs s a.untimed = rejectSpentInputs s a := by
    cases a <;> rfl
  exact (hunwrapped _).trans huntimed

theorem rejectSpentInputs_eq_ok {inputs : List (Hash × Bool)} (hread : Wire.inputNullifiers bundle = .ok inputs)
    (hfresh : ∀ nf, (nf, false) ∈ inputs → s.shieldedV2.nullifierSeen nf = false) :
    rejectSpentInputs s (.shieldedV2 bundle) = .ok () := by
  have hnone : (inputs.findIdx? fun i => !i.2 && s.shieldedV2.nullifierSeen i.1) = none := by
    rw [List.findIdx?_eq_none_iff]
    rintro ⟨nf, dummy⟩ hmem
    rcases dummy with _ | _
    · exact hfresh nf hmem
    · rfl
  simp only [rejectSpentInputs, hread, hnone]

theorem exists_mem_zipWith3 {nf : Hash} {dummy : Bool} {dummies : List Bool} {anchors nullifiers : List Hash}
    (hlength : dummies.length = anchors.length) (h : (nf, dummy) ∈ nullifiers.zip dummies) :
    ∃ anchor, ⟨dummy, anchor, nf⟩ ∈ List.zipWith3 V2Input.mk dummies anchors nullifiers := by
  induction dummies generalizing anchors nullifiers with
  | nil =>
    rw [List.zip_nil_right] at h
    cases h
  | cons d dummies ih =>
    rcases anchors with _ | ⟨anchor, anchors⟩
    · cases hlength
    rcases nullifiers with _ | ⟨n, nullifiers⟩
    · cases h
    rcases List.mem_cons.mp h with hhead | h
    · cases hhead
      exact ⟨anchor, List.mem_cons_self⟩
    · obtain ⟨anchor', hmem⟩ := ih (Nat.succ.inj hlength) h
      exact ⟨anchor', List.mem_cons_of_mem _ hmem⟩

theorem mem_nullifiers_toPublic {b : Wire.SpendBundle} {nf : Hash}
    (h : (nf, false) ∈ b.publicInputs.nullifiers.toList.zip b.publicInputs.inputDummy.toList) :
    nf ∈ nullifiers b.toPublic := by
  obtain ⟨anchor, hmem⟩ := exists_mem_zipWith3
    (b.publicInputs.inputDummy.toList_length.trans b.publicInputs.anchors.toList_length.symm) h
  exact mem_nullifiers.mpr ⟨_, hmem, rfl, rfl⟩

theorem rejectSpentInputs_of_decode {E : Env} {W : Wire.Frames} (hwire : E.decodeV2 = Wire.decodeV2 W) {suite2 : Bool}
    {b : SpendBundle} (hb : decode E bundle suite2 = .ok b)
    (hfresh : ∀ nf ∈ nullifiers b, s.shieldedV2.nullifierSeen nf = false) :
    rejectSpentInputs s (.shieldedV2 bundle) = .ok () := by
  obtain ⟨suite, hdecoded⟩ := decode_eq_ok hb
  rw [hwire] at hdecoded
  obtain ⟨b0, hb0, rfl⟩ := Wire.decodeV2_eq_ok.mp hdecoded
  obtain ⟨hsupports, hx, hcanonical, -⟩ := Wire.decodeBundleForSuite_eq_ok.mp hb0
  refine rejectSpentInputs_eq_ok (Wire.readInputNullifiers_written ?_ hx hcanonical) ?_
  · exact (Wire.Frames.supports_eq_true.mp hsupports).imp_right And.right
  · intro nf hnf
    exact hfresh nf (mem_nullifiers_toPublic hnf)

/-- What is refused is refused as long as nothing leaves the spent set. -/
theorem rejectSpentInputs_mono
    (hgrows : ∀ nf, s.shieldedV2.nullifierSeen nf = true → s'.shieldedV2.nullifierSeen nf = true)
    (h : rejectSpentInputs s' a = .ok ()) : rejectSpentInputs s a = .ok () := by
  induction a with
  | multisigExec inner approvals ih | proposeMultisig account inner ih | tipped tip inner ih
  | timestamped createdAtMs inner ih => exact ih h
  | shieldedV2 bundle =>
    unfold rejectSpentInputs at h
    split at h
    · cases h
    rename_i inputs hread
    split at h
    · cases h
    rename_i hnone
    rw [List.findIdx?_eq_none_iff] at hnone
    refine rejectSpentInputs_eq_ok hread fun nf hnf => ?_
    have hnew := hnone _ hnf
    simp only [Bool.not_false, Bool.true_and] at hnew
    exact Bool.eq_false_iff.mpr fun hold => Bool.eq_false_iff.mp hnew (hgrows nf hold)
  | _ => rfl

end ShieldedV2

namespace Runtime
open ShieldedV2 (rejectSpentInputs)
variable {E : Env} {W : Wire.Frames} {ctx : BlockContext} {L L' : Ledger} {stx : SignedTransaction} {receipt : Receipt}

theorem rejectSpentInputs_of_success (hwire : E.decodeV2 = Wire.decodeV2 W)
    (h : applyTransaction E ctx L stx = .ok (L', receipt)) (hok : receipt.status = .success) :
    rejectSpentInputs L stx.transaction.action = .ok () := by
  rw [← ShieldedV2.rejectSpentInputs_resolved]
  obtain ⟨p, x, status, hp, hx, -, rfl⟩ := applyTransaction_eq_ok h
  obtain ⟨signer, action, nonce, balance, r, hadm⟩ := prepare_eq_ok hp
  cases (hok : status = .success)
  have hdispatch := dispatch_of_success hx
  cases haction : stx.transaction.action.resolved with
  | shieldedV2 bundle =>
    have hvalid : Step.Valid E ⟨ctx, L, stx, L', _⟩ := h
    rcases hvalid.poolStep with ⟨-, hfailed⟩ | ⟨b, ⟨bundle', haction', -, hb⟩, hfresh, -⟩
    · exact absurd rfl (hfailed bundle haction)
    · cases haction.symm.trans haction'
      exact ShieldedV2.rejectSpentInputs_of_decode hwire hb hfresh
  -- A carrier that is left does not run.
  | tipped | timestamped =>
    simp only [dispatch, hadm.action_eq.trans haction] at hdispatch
    cases hdispatch
  | multisigExec inner approvals =>
    simp only [dispatch, hadm.action_eq.trans haction] at hdispatch
    obtain ⟨s, hs, -⟩ := lift_eq_ok.mp hdispatch
    cases hs
  | proposeMultisig account inner =>
    simp only [dispatch, hadm.action_eq.trans haction] at hdispatch
    obtain ⟨s, hs, -⟩ := lift_eq_ok.mp hdispatch
    have hproposable : isProposable inner = true := by
      by_contra hnot
      simp only [proposeMultisig, Bool.eq_false_iff.mpr hnot, Bool.not_false, if_true] at hs
      split at hs
      · cases hs
      split at hs <;> cases hs
    cases inner <;> first | rfl | cases hproposable
  | _ => rfl

/-- The transaction succeeds neither in a block on top of `L` nor after one. -/
def NeverSucceeds (E : Env) (L : Ledger) (stx : SignedTransaction) : Prop :=
  ∀ base height accepted L', Chained E L base height accepted L' →
    (∀ st ∈ accepted, st.tx = stx → st.receipt.status ≠ .success) ∧
    ∀ ctx L'' receipt, applyTransaction E ctx L' stx = .ok (L'', receipt) → receipt.status ≠ .success

theorem neverSucceeds_of_reject (hwire : E.decodeV2 = Wire.decodeV2 W) {e : ShieldedV2Error}
    (h : rejectSpentInputs L stx.transaction.action = .error e) : NeverSucceeds E L stx := by
  -- A later success needs a ledger whose screen passes, and then that of `L` does too.
  have hnever : ∀ {L1 L2 : Ledger} {ctx : BlockContext} {receipt : Receipt},
      (∀ nf, L.shieldedV2.nullifierSeen nf = true → L1.shieldedV2.nullifierSeen nf = true) →
      applyTransaction E ctx L1 stx = .ok (L2, receipt) → receipt.status ≠ .success := by
    intro L1 L2 ctx receipt hgrows happly hok
    cases h.symm.trans (ShieldedV2.rejectSpentInputs_mono hgrows (rejectSpentInputs_of_success hwire happly hok))
  intro base height accepted L' hchained
  obtain ⟨hgrows, hsteps⟩ := Chained.history
    (J := fun _ L' => ∀ nf, L.shieldedV2.nullifierSeen nf = true → L'.shieldedV2.nullifierSeen nf = true)
    (Q := fun _ st => st.tx = stx → st.receipt.status ≠ .success)
    (fun _ hnf => hnf)
    (fun hreward hJ => by
      rw [applyCoinbase_stores hreward]
      exact hJ)
    (fun {_ st} hvalid hJ => by
      refine ⟨?_, ?_⟩
      · rintro rfl
        exact hnever hJ hvalid
      · intro nf hnf
        rcases hvalid.poolStep with ⟨hsame, -⟩ | ⟨b, -, -, hpool⟩
        · rw [hsame]
          exact hJ nf hnf
        · exact ((ShieldedV2State.apply_added hpool).2 nf).mpr (.inl (hJ nf hnf))) hchained
  refine ⟨fun st hst => ?_, fun ctx L'' receipt => hnever hgrows⟩
  obtain ⟨earlier, later, hsplit⟩ := List.append_of_mem hst
  exact hsteps earlier st later hsplit

/-- What the screen refuses of an action, no transaction that carries the action can do on that chain; what is pruned from a
pool is such a transaction. -/
theorem screened_never_succeeds (E : Env) (W : Wire.Frames) (hwire : E.decodeV2 = Wire.decodeV2 W) (L : Ledger) :
    (∀ action e, rejectSpentInputs L action = .error e → ∀ stx : SignedTransaction,
      action ∈ stx.transaction.action.chain → NeverSucceeds E L stx) ∧
    ∀ pool, ∀ dropped ∈ ShieldedV2.spentV2 E L pool, ∃ stx ∈ pool, stx.id E = dropped.1 ∧ NeverSucceeds E L stx := by
  constructor
  · intro action e hreject stx hmem
    exact neverSucceeds_of_reject hwire ((ShieldedV2.rejectSpentInputs_of_mem_chain hmem).trans hreject)
  · intro pool dropped hdropped
    obtain ⟨stx, hstx, hsome⟩ := List.mem_filterMap.mp hdropped
    split at hsome
    · rename_i e hreject
      cases hsome
      exact ⟨stx, hstx, rfl, neverSucceeds_of_reject hwire hreject⟩
    · cases hsome

/-- A ledger on which the withdrawal has been made. -/
def withdrawnLedger : Ledger :=
  aliceFunded.overwrite sampleCrypto (.shieldedV2 ⟨[], OrdMap.empty.insert (FixedBytes.pad 32 [1]) (), []⟩)

/-- The withdrawal is refused there, and is not executed under a tip either. -/
theorem tipped_withdrawal_screened :
    rejectSpentInputs withdrawnLedger (.shieldedV2 withdrawalBytes) = .error (.nullifierAlreadySpent 0) ∧
      NeverSucceeds withdrawalEnv withdrawnLedger (sampleTx "alice.sov" (.tipped 1 (.shieldedV2 withdrawalBytes))) := by
  have hreject : rejectSpentInputs withdrawnLedger (.shieldedV2 withdrawalBytes) = .error (.nullifierAlreadySpent 0) := by
    unfold rejectSpentInputs withdrawalBytes
    rw [Wire.readInputNullifiers_written (.inl rfl) rfl canonical_withdrawal]
    rfl
  exact ⟨hreject, (screened_never_succeeds withdrawalEnv Wire.openFrames rfl _).1 _ _ hreject _
    (List.mem_cons_of_mem _ List.mem_cons_self)⟩

end Runtime
end Sov
