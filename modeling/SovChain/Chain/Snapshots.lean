import SovChain.Chain.Runs
import SovChain.Runtime.Failures
import SovChain.Runtime.Traces
import SovChain.State.Restore

/-!
# Snapshots of executed ledgers

The pools of a ledger change by whole bundles, so they can be replayed from their notes, and a pool without notes and
nullifiers has no value and no window either. A ledger that tame blocks lead to from a clean genesis is therefore loaded
from its snapshot exactly as it was (`snapshot_round_trip`). An id that does not validate takes the slot of a counter,
which is written anew on loading.
-/

namespace Sov
open Codec

/-- The decoder of Orchard bundles returns notes that can be decoded one by one. -/
def Env.DecodesNotes (E : Env) (isCmx : Hash → Bool) : Prop :=
  ∀ bytes sb, E.decodeShielded bytes = some sb → ∀ cmx ∈ sb.noteCommitments, isCmx cmx = true

/-- The pools can be replayed, and the post-quantum one was used if anything of it is there. -/
structure Stores.Replays (C : Crypto) (isCmx : Hash → Bool) (s : Stores) : Prop where
  orchard : s.shielded.Replayable C isCmx
  quantum : s.shieldedV2.Replayable C
  untouched : s.shieldedV2.isEmpty = true → s.shieldedV2Value = 0 ∧ s.deshieldV2Window = (0, 0)

namespace ShieldedV2State
variable {C : Crypto} {s s' : ShieldedV2State}

theorem foldl_appendCommitment_fields (notes : List Hash) (s : ShieldedV2State) :
    (notes.foldl (appendCommitment C) s).commitments = s.commitments ++ notes ∧
      (notes.foldl (appendCommitment C) s).nullifiers = s.nullifiers := by
  induction notes generalizing s with
  | nil => exact ⟨(List.append_nil _).symm, rfl⟩
  | cons cm rest ih =>
    obtain ⟨hcommitments, hnullifiers⟩ := ih (s.appendCommitment C cm)
    rw [List.foldl_cons, hcommitments, hnullifiers, commitments_appendCommitment, nullifiers_appendCommitment]
    exact ⟨by simp, rfl⟩

/-- A pool that took a nullifier or a note is not empty. -/
theorem isEmpty_of_apply {nullifiers commitments : List Hash} (h : s.apply C nullifiers commitments = .ok s')
    (heffect : nullifiers ≠ [] ∨ commitments ≠ []) : s'.isEmpty = false := by
  unfold apply at h
  split_ifs at h
  rcases hcheck : s.checkNullifiers [] nullifiers with e | u
  · rw [hcheck] at h
    cases h
  rw [hcheck] at h
  cases h
  obtain ⟨hcommitments, hnullifiers⟩ := foldl_appendCommitment_fields (C := C) commitments
    { s with nullifiers := nullifiers.foldl (fun m nf => m.insert nf ()) s.nullifiers }
  rw [isEmpty, hcommitments, hnullifiers, Bool.and_eq_false_iff]
  rcases heffect with hnf | hcm
  · refine .inr ?_
    obtain ⟨nf, rest, rfl⟩ := List.exists_cons_of_ne_nil hnf
    have hget : ((nf :: rest).foldl (fun m nf => m.insert nf ()) s.nullifiers).get? nf = some () := by
      rw [OrdMap.get?_foldl_insert, if_pos List.mem_cons_self]
    have hmem := OrdMap.get?_eq_some_iff.mp hget
    rw [List.isEmpty_eq_false_iff]
    exact List.ne_nil_of_mem hmem
  · exact .inl (by simp [hcm])

end ShieldedV2State

namespace ShieldedV2
variable {E : Env} {bundle : Bytes} {st : Stores} {mining : MiningPolicy} {height : U64} {carrier : Carrier}
  {signerBalance : Balance} {suite2 : Bool} {effects : V2Effects}

theorem checkState_notes {b : SpendBundle} (h : checkState st mining height signerBalance b = .ok effects) :
    effects.nullifiers = nullifiers b ∧ effects.commitments = commitments b := by
  unfold checkState at h
  dsimp only at h
  iterate 4
    split at h
    · cases h
  split at h
  rotate_left
  · cases h
  split at h
  · cases h
  split at h
  · split at h
    · cases h
      exact ⟨rfl, rfl⟩
    · cases h
  · cases h
    exact ⟨rfl, rfl⟩

theorem verifyBundleForCarrier_effect
    (h : verifyBundleForCarrier E bundle st mining height carrier signerBalance suite2 = .ok effects) :
    effects.nullifiers ≠ [] ∨ effects.commitments ≠ [] := by
  unfold verifyBundleForCarrier at h
  obtain ⟨b, -, h⟩ := Runtime.bind_eq_ok.mp h
  dsimp only at h
  split at h
  · cases h
  split at h
  · cases h
  split at h
  · cases h
  rename_i heffect
  split at h
  · cases h
  split at h
  · cases h
  have hboth : ¬(nullifiers b = [] ∧ commitments b = []) := by
    rintro ⟨hnf, hcm⟩
    exact heffect (by simp [hnf, hcm])
  obtain ⟨hspent, hmade⟩ := checkState_notes h
  rw [hspent, hmade]
  by_cases hnf : nullifiers b = []
  · exact .inr fun hcm => hboth ⟨hnf, hcm⟩
  · exact .inl hnf

end ShieldedV2

namespace Runtime
section Arms
variable {C : Crypto} {E : Env} {ctx : BlockContext} {sid : AccountId} {s : InFlight} {isCmx : Hash → Bool}

theorem applyShielded_pool {sb : ShieldedBundle} {window : Option (U64 × Balance)} :
    (applyShielded C sb window s).Ensures fun s' =>
      s'.ledger.shielded = (s.ledger.shielded.applyBundle C sb).1 := by
  unfold applyShielded Ledger.applyShieldedBundle Ledger.addShieldedValue Ledger.subShieldedValue
  cases hpool : s.ledger.shielded.applyBundle C sb with
  | mk pool e =>
    cases e with
    | some e => exact .failed rfl
    | none =>
      dsimp only
      split_ifs
      · split
        · exact Arm.ensures_overflow
        split
        · exact Arm.ensures_overflow
        · rename_i L hL
          obtain ⟨n, -, rfl⟩ := Option.map_eq_some_iff.mp hL
          exact .done rfl
      · split
        · exact Arm.ensures_overflow
        rename_i L hL
        obtain ⟨n, -, rfl⟩ := Option.map_eq_some_iff.mp hL
        split
        · exact Arm.ensures_overflow
        · cases window <;> exact .done rfl
      · exact .done rfl

theorem shielded_replays {nonce : U64} {bundle : Bytes} (hE : E.DecodesNotes isCmx) (h : s.ledger.Replays E isCmx) :
    (shielded ctx sid E nonce bundle s).Ensures fun s' => s'.ledger.Replays E isCmx := by
  refine shielded_cases (fun r => r.Ensures _) (fun _ => .failed h) fun sb window hsb _ _ _ => ?_
  intro s' status hs'
  have halters := applyShielded_alters s' status hs'
  have hpool := applyShielded_pool s' status hs'
  have hv2 : s'.ledger.shieldedV2 = s.ledger.shieldedV2 := halters.same (f := .shieldedV2) (by simp)
  have hvalue : s'.ledger.shieldedV2Value = s.ledger.shieldedV2Value := halters.same (f := .shieldedV2Value) (by simp)
  have hwindow : s'.ledger.deshieldV2Window = s.ledger.deshieldV2Window :=
    halters.same (f := .deshieldV2Window) (by simp)
  refine ⟨?_, ?_, ?_⟩
  · rw [hpool]
    exact h.orchard.applyBundle (hE bundle sb hsb) rfl
  · rw [hv2]
    exact h.quantum
  · rw [hv2, hvalue, hwindow]
    exact h.untouched

theorem shieldedV2_replays {nonce : U64} {fee : Balance} {feeFunded : Option V2Effects} {bundle : Bytes}
    (hfunded : ∀ effects, feeFunded = some effects → effects.nullifiers ≠ [] ∨ effects.commitments ≠ [])
    (h : s.ledger.Replays E isCmx) :
    (shieldedV2 ctx sid E nonce fee feeFunded bundle s).Ensures fun s' => s'.ledger.Replays E isCmx := by
  have happly : ∀ deferred effects, (effects.nullifiers ≠ [] ∨ effects.commitments ≠ []) →
      (applyV2 E deferred effects s).Ensures fun s' => s'.ledger.Replays E isCmx := by
    intro deferred effects heffect s' status hs'
    obtain ⟨happlied, hpool⟩ := applyV2_applied s' status hs'
    have horchard : s'.ledger.shielded = s.ledger.shielded :=
      happlied.alters.same (f := .shielded) (by simp)
    refine ⟨?_, h.quantum.apply hpool, fun hempty => ?_⟩
    · rw [horchard]
      exact h.orchard
    · rw [ShieldedV2State.isEmpty_of_apply hpool heffect] at hempty
      cases hempty
  unfold shieldedV2
  split_ifs
  · exact Arm.ensures_error
  split
  · exact happly _ _ (hfunded _ rfl)
  split
  · exact Arm.ensures_error
  · rename_i effects hverified
    exact happly _ _ (ShieldedV2.verifyBundleForCarrier_effect hverified)

theorem prepare_effect {stx : SignedTransaction} {st : Stores} {p : Prepared} (hp : prepare E ctx st stx = .ok p)
    {effects : V2Effects} (hfee : p.feeFunded = some effects) : effects.nullifiers ≠ [] ∨ effects.commitments ≠ [] := by
  obtain ⟨signer, action, nonce, balance, r, hadm⟩ := prepare_eq_ok hp
  obtain ⟨bundle, hpays⟩ := fundFee_eq_some (hfee ▸ hadm.funded)
  exact ShieldedV2.verifyBundleForCarrier_effect hpays.verified

end Arms

/-! ## Transactions and blocks -/

section Blocks
variable {E : Env} {ctx : BlockContext} {isCmx : Hash → Bool} {L L' : Ledger} {stx : SignedTransaction}
  {receipt : Receipt} {txs : List SignedTransaction} {receipts : List Receipt}

theorem replays_accounts {st : Stores} (h : st.Replays E isCmx) (accounts : OrdMap AccountId Account) :
    ({ st with accounts } : Stores).Replays E isCmx := ⟨h.orchard, h.quantum, h.untouched⟩

theorem applyTransaction_replays (hE : E.DecodesNotes isCmx) (hL : L.Replays E isCmx)
    (h : applyTransaction E ctx L stx = .ok (L', receipt)) : L'.Replays E isCmx := by
  by_cases horchard : ∃ bundle, stx.transaction.action.resolved = .shielded bundle
  · obtain ⟨bundle, haction⟩ := horchard
    obtain ⟨p, s, -, hs, hfinish⟩ := applyTransaction_arm
      (a := fun _ => shielded ctx stx.transaction.signer E stx.transaction.nonce bundle) h fun p x hp => by
        simp only [dispatch, hp, haction]
    have harm : s.ledger.Replays E isCmx := by
      rcases hs with ⟨rfl, -⟩ | hs
      · exact hL
      · exact shielded_replays hE (s := ⟨L, p.signer, p.fee⟩) hL s _ hs
    rw [finish_stores hfinish]
    exact replays_accounts harm _
  by_cases hquantum : ∃ bundle, stx.transaction.action.resolved = .shieldedV2 bundle
  · obtain ⟨bundle, haction⟩ := hquantum
    obtain ⟨p, s, hprepare, hs, hfinish⟩ := applyTransaction_arm
      (a := fun p => shieldedV2 ctx stx.transaction.signer E stx.transaction.nonce p.fee p.feeFunded bundle) h
      fun p x hp => by simp only [dispatch, hp, haction]
    have harm : s.ledger.Replays E isCmx := by
      rcases hs with ⟨rfl, -⟩ | hs
      · exact hL
      · exact shieldedV2_replays (s := ⟨L, p.signer, p.fee⟩) (fun effects => prepare_effect hprepare) hL s _ hs
    rw [finish_stores hfinish]
    exact replays_accounts harm _
  · have hfield : ∀ f ∈ [Field.shielded, .shieldedV2, .shieldedV2Value, .deshieldV2Window],
        f ∉ stx.transaction.action.resolved.fields := by
      cases haction : stx.transaction.action.resolved <;> simp_all [Action.fields]
    have hpool : L'.shielded = L.shielded := applyTransaction_same (f := .shielded) h (hfield _ (by simp)) (by simp)
    have hv2 : L'.shieldedV2 = L.shieldedV2 := applyTransaction_same (f := .shieldedV2) h (hfield _ (by simp)) (by simp)
    have hvalue : L'.shieldedV2Value = L.shieldedV2Value :=
      applyTransaction_same (f := .shieldedV2Value) h (hfield _ (by simp)) (by simp)
    have hwindow : L'.deshieldV2Window = L.deshieldV2Window :=
      applyTransaction_same (f := .deshieldV2Window) h (hfield _ (by simp)) (by simp)
    refine ⟨?_, ?_, ?_⟩
    · rw [hpool]
      exact hL.orchard
    · rw [hv2]
      exact hL.quantum
    · rw [hv2, hvalue, hwindow]
      exact hL.untouched

theorem applyTransactions_replays (hE : E.DecodesNotes isCmx) (hL : L.Replays E isCmx)
    (h : applyTransactions E ctx L txs = .ok (L', receipts)) : L'.Replays E isCmx := by
  induction txs generalizing L receipts with
  | nil =>
    cases h
    exact hL
  | cons stx rest ih =>
    obtain ⟨⟨L1, receipt⟩, hstx, h⟩ := bind_eq_ok.mp h
    obtain ⟨⟨L2, receipts'⟩, hrest, h⟩ := bind_eq_ok.mp h
    cases h
    exact ih (applyTransaction_replays hE hL hstx) hrest

theorem executeBlock_replays (hE : E.DecodesNotes isCmx) (hL : L.Replays E isCmx)
    (h : executeBlock E ctx L txs = .ok (L', receipts)) : L'.Replays E isCmx := by
  obtain ⟨⟨L1, reward⟩, hcoinbase, h⟩ := bind_eq_ok.mp h
  have hL1 : L1.Replays E isCmx := by
    rw [applyCoinbase_stores hcoinbase]
    exact ⟨hL.orchard, hL.quantum, hL.untouched⟩
  exact applyTransactions_replays hE hL1 h

end Blocks
end Runtime

/-! ## Runs -/

/-- A ledger that tame blocks lead to from a clean genesis. -/
inductive TamelyExecuted (E : Env) (P : Bytes → Prop) (config : GenesisConfig) : Ledger → Prop
  | genesis {g : Genesis} (hclean : config.Clean P) (hg : config.build E.toCrypto = .ok g) :
      TamelyExecuted E P config g.ledger
  | block {L L' : Ledger} {ctx : BlockContext} {txs : List SignedTransaction} {receipts : List Receipt}
      (h : TamelyExecuted E P config L) (htame : Runtime.Tame E P ctx L txs)
      (hx : Runtime.executeBlock E ctx L txs = .ok (L', receipts)) : TamelyExecuted E P config L'

section Runs
variable {E : Env} {P : Bytes → Prop} {config : GenesisConfig} {isCmx : Hash → Bool} {L : Ledger}

theorem TamelyExecuted.settled (hE : E.Separating P) (h : TamelyExecuted E P config L) : L.Settled E P := by
  induction h with
  | genesis hclean hg => exact (GenesisConfig.initial_build hE hclean hg).settled
  | @block L L' ctx txs receipts _ htame hx ih =>
    -- the block leaves what it leaves with a journal, without the journal
    rw [Runtime.executeBlock_settled ih.undo_eq] at hx
    rcases hj : Runtime.executeBlock E ctx L.beginUndo txs with f | r
    · rw [hj] at hx
      cases f <;> cases hx
    rw [hj] at hx
    cases hx
    exact htame.settled hE ih (by rw [hj]; rfl)

theorem TamelyExecuted.replays (hE : E.DecodesNotes isCmx) (h : TamelyExecuted E P config L) : L.Replays E isCmx := by
  induction h with
  | genesis hclean hg =>
    rw [GenesisConfig.build_stores hg]
    exact ⟨.new, .new, fun _ => ⟨rfl, rfl⟩⟩
  | block _ _ hx ih => exact Runtime.executeBlock_replays hE ih hx

/-- The snapshot of a ledger that tame blocks lead to loads to that ledger, and so does the blob of older versions while
the post-quantum pool is untouched; no blob is read in both formats. -/
theorem snapshot_round_trip (E : Env) (P : Bytes → Prop) (isCmx : Hash → Bool) (config : GenesisConfig) (L : Ledger)
    (hdigest : E.toCrypto.Separating P) (horchard : E.DecodesNotes isCmx) (h : TamelyExecuted E P config L)
    (hfits : (LegacySnapshot.codec.pair V2Snapshot.codec).Fits
      (Ledger.legacySnapshot L.toStores, Ledger.v2Snapshot L.toStores)) :
    Ledger.fromSnapshotBytes E.toCrypto isCmx L.toSnapshotBytes = .ok L ∧
      (L.shieldedV2.isEmpty = true → Ledger.fromSnapshotBytes E.toCrypto isCmx
        (LegacySnapshot.codec.encode (Ledger.legacySnapshot L.toStores)) = .ok L) ∧
      ∀ bytes, (LegacySnapshot.codec.pair V2Snapshot.codec).decodeAll bytes = none ∨
        LegacySnapshot.codec.decodeAll bytes = none := by
  have hsettled := h.settled hdigest
  have hreplays := h.replays horchard
  have hload := Ledger.fromSnapshot_eq hdigest.keysDistinct hdigest.covered_reserved hsettled.committed
    hsettled.canonical hsettled.undo_eq hreplays.orchard hreplays.quantum
  refine ⟨?_, fun hempty => ?_, Ledger.formats_exclusive⟩
  · rw [Ledger.fromSnapshotBytes_toSnapshotBytes hfits, hload]
  have hv2 : Ledger.v2Snapshot L = .empty := by
    obtain ⟨hvalue, hwindow⟩ := hreplays.untouched hempty
    rw [ShieldedV2State.isEmpty, Bool.and_eq_true, List.isEmpty_iff, List.isEmpty_iff] at hempty
    rw [Ledger.v2Snapshot, hvalue, hwindow, hempty.1, OrdMap.keys, hempty.2]
    rfl
  rw [Ledger.fromSnapshotBytes_legacy hfits.1, ← hv2, hload]

end Runs

/-! ## A miner whose id is the preimage of a counter -/

def lockedMiner : AccountId := ⟨"\x02sov:htlc_locked"⟩

/-- The sample environment with a digest whose roots are computed by exclusive or. -/
def xorEnv : Env := { Runtime.sampleEnv with toCrypto := xorCrypto }

/-- The leaf of the miner's account. -/
def minerLeaf : Hash × Bytes :=
  ((Slot.reserved .htlcLocked).hash xorCrypto, Account.codec.encode { balance := 50 })

/-- The leaf of the coin mined. -/
def minedLeaf : Hash × Bytes := ((Slot.reserved .mined).hash xorCrypto, Codec.leBytes 16 50)

/-- The miner's account is in the slot of the locked coin, which loading leaves empty. -/
theorem snapshot_loses_miner_leaf : ∃ L L', Executed xorEnv fairConfig [rewardBlock lockedMiner] L ∧
      Ledger.fromSnapshotBytes xorCrypto (fun _ => true) L.toSnapshotBytes = .ok L' ∧
      L'.stateRoot xorCrypto ≠ L.stateRoot xorCrypto := by
  have hload : (Ledger.fromSnapshotBytes xorCrypto (fun _ => true)
      (rewardLedger xorCrypto lockedMiner).toSnapshotBytes).toOption.map (·.commitment.entries) =
        some [minedLeaf] := by decide +kernel
  obtain ⟨L', hL', hentries⟩ := Runtime.exists_of_map_toOption hload
  refine ⟨rewardLedger xorCrypto lockedMiner, L', executed_rewardBlock xorEnv (by decide), hL', ?_⟩
  have hafter : L'.stateRoot xorCrypto = Ledger.hashLeaf xorCrypto minedLeaf.2 := by
    rw [Ledger.stateRoot, hentries, Ledger.subtreeRoot_singleton_of_xor Ledger.hashNode_xorCrypto]
  have hleaves : (rewardLedger xorCrypto lockedMiner).commitment.entries = [minerLeaf, minedLeaf] := by decide +kernel
  have hpair := Ledger.subtreeRoot_pair_of_xor Ledger.hashNode_xorCrypto (h := Ledger.treeHeight) (i := 208)
    (e := minerLeaf) (f := minedLeaf) (by decide) (by decide)
  rw [← hleaves] at hpair
  rw [hafter]
  rcases hpair with h | h
  · rw [Ledger.stateRoot, h]
    decide
  · rw [Ledger.stateRoot, h]
    decide

/-! ## A miner with a valid id -/

/-- The strings the digest keeps as they are. -/
def ShortPreimage (p : Bytes) : Prop := 0 ∉ p ∧ p.length ≤ 32

theorem separating_xorCrypto : xorCrypto.Separating ShortPreimage where
  collisionFree := by
    have hdigest : ∀ p, ShortPreimage p → xorCrypto.digest p = padHash p := by
      rintro p ⟨-, hlen⟩
      simp only [xorCrypto, digestCrypto]
      rw [if_neg (by omega)]
    intro p q hp hq heq
    rw [hdigest p hp, hdigest q hq] at heq
    exact Ledger.padHash_inj hp hq heq
  reserved r := by cases r <;> exact ⟨by decide, by decide⟩

/-- The block of a miner with a short valid id is tame. -/
theorem tame_rewardBlock : Runtime.Tame xorEnv ShortPreimage (rewardContext ⟨"miner.sov"⟩) (Ledger.new xorCrypto)
    (rewardBlock ⟨"miner.sov"⟩).transactions where
  names stx hmem := by cases hmem
  miner := by decide
  room := by decide
  journal L' hL' := by
    have hslots : (Runtime.leaves (Runtime.executeBlock xorEnv (rewardContext ⟨"miner.sov"⟩)
        (Ledger.new xorCrypto).beginUndo (rewardBlock ⟨"miner.sov"⟩).transactions)).map
          (fun L => L.takeUndo.2.map (·.slot)) = some [.account ⟨"miner.sov"⟩, .reserved .mined] := by decide +kernel
    rw [hL'] at hslots
    intro op hop
    have hslot : op.slot ∈ [Slot.account ⟨"miner.sov"⟩, .reserved .mined] := by
      rw [← Option.some.inj hslots]
      exact List.mem_map_of_mem hop
    rcases List.mem_pair.mp hslot with h | h
    · rw [h]
      exact ⟨by decide, by decide⟩
    · rw [h]
      exact ⟨by decide, by decide⟩

theorem snapshot_of_rewardBlock :
    Ledger.fromSnapshotBytes xorCrypto (fun _ => true) (rewardLedger xorCrypto ⟨"miner.sov"⟩).toSnapshotBytes =
      .ok (rewardLedger xorCrypto ⟨"miner.sov"⟩) := by
  have hgenesis : TamelyExecuted xorEnv ShortPreimage fairConfig (Ledger.new xorCrypto) :=
    .genesis (g := { ledger := .new xorCrypto, block := fairConfig.block xorCrypto (.new xorCrypto),
                     coinbase := fairConfig.coinbase }) nofun rfl
  have hfits : (LegacySnapshot.codec.pair V2Snapshot.codec).Fits
      (Ledger.legacySnapshot (rewardLedger xorCrypto ⟨"miner.sov"⟩),
        Ledger.v2Snapshot (rewardLedger xorCrypto ⟨"miner.sov"⟩)) := by
    have hnil : ∀ {α : Type} (c : Codec α), c.vec.Fits [] := fun c => ⟨by simp, nofun⟩
    have haccount : (AccountId.codec.pair Account.codec).vec.Fits [(⟨"miner.sov"⟩, { balance := 50 })] := by
      refine ⟨by decide, fun e he => ?_⟩
      rw [List.mem_singleton.mp he]
      exact ⟨⟨by decide, fun _ _ => trivial⟩, ⟨trivial, trivial, trivial, trivial, nofun, nofun⟩⟩
    exact ⟨⟨haccount, hnil _, trivial, trivial, hnil _, hnil _, trivial, hnil _, hnil _, hnil _, hnil _, hnil _, hnil _,
      ⟨trivial, trivial⟩, hnil _, hnil _, hnil _, hnil _, hnil _, trivial, nofun⟩,
      ⟨hnil _, hnil _, trivial, trivial, trivial⟩⟩
  have hblock := hgenesis.block tame_rewardBlock (executeBlock_rewardBlock xorEnv ⟨"miner.sov"⟩)
  exact (snapshot_round_trip xorEnv ShortPreimage (fun _ => true) fairConfig _ separating_xorCrypto
    (fun _ _ _ _ _ => rfl) hblock hfits).1

end Sov
