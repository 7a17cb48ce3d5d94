import SovChain.Chain.Sound

/-!
# Runs of clean blocks

A chain that starts at a clean genesis and imports clean blocks, with any calls about pins in between, is
sound all the way (`GuardedRun.sound`).
-/

namespace Sov
open Sov.Runtime (bind_eq_ok)

/-! ## The genesis ledger -/

namespace Ledger
variable {C : Crypto} {P : Bytes → Prop} {L : Ledger}

theorem Settled.overwrite (h : L.Settled C P) (hC : C.Separating P) (op : UndoOp) (hop : P op.slot.preimage)
    (hids : ∀ id ∈ op.ids, id.WellFormed) : (L.overwrite C op).Settled C P where
  canonical := h.canonical.store op
  committed := h.committed.overwrite hC.keysDistinct op ⟨hop, UndoOp.wellFormed_slot hids⟩
  named := h.named.store op hids
  undo_eq := by
    change L.undo.map _ = none
    rw [h.undo_eq]
    rfl

theorem Settled.new (hC : C.Separating P) : (Ledger.new C).Settled C P where
  canonical := .new C
  committed := .new hC.covered_reserved
  named := .new
  undo_eq := rfl

end Ledger

namespace GenesisConfig
variable {C : Crypto} {P : Bytes → Prop} {config : GenesisConfig} {L : Ledger}

/-- The accounts have ids that validate, in slots with preimages in `P`. -/
def Clean (P : Bytes → Prop) (config : GenesisConfig) : Prop :=
  ∀ a ∈ config.accounts, (Slot.account a.account).Covered P

/-- A ledger between two blocks, without notes. -/
structure Initial (C : Crypto) (P : Bytes → Prop) (L : Ledger) : Prop where
  settled : L.Settled C P
  notes : L.shielded.commitments = []

theorem Initial.setAccount (h : Initial C P L) (hC : C.Separating P) {id : AccountId}
    (hid : (Slot.account id).Covered P) (account : Account) : Initial C P (L.setAccount C id account) := by
  refine ⟨h.settled.overwrite hC (.account id (some account)) hid.1 fun id' hid' => ?_, h.notes⟩
  exact hid.2 id' (by simpa [UndoOp.ids, Slot.ids] using hid')

/-- A grant goes to an account that exists, so its slot is in use. -/
theorem initial_build (hC : C.Separating P) (hclean : config.Clean P) {g : Genesis}
    (hg : config.build C = .ok g) : Initial C P g.ledger := by
  refine build_induct (I := fun _ L => Initial C P L) ⟨.new hC, rfl⟩
    (fun a ha L hL => hL.setAccount hC (hclean a ha) _) (fun hv hL => ?_) hg
  obtain ⟨hexists, locked, -, rfl⟩ := vest_eq_ok hv
  refine hL.setAccount hC (hL.settled.committed.inside _ ?_) _
  obtain ⟨a, ha⟩ := Option.isSome_iff_exists.mp hexists
  simp [Stores.leaf, ha]

end GenesisConfig

namespace Blockchain
variable {N : NodeEnv} {P : Bytes → Prop} {bc bc' : Blockchain} {block : Block} {G : Blockchain → Block → Prop}

/-- A new chain with a clean genesis and any deployments. -/
inductive Fresh (N : NodeEnv) (P : Bytes → Prop) : Blockchain → Prop
  | new {config : GenesisConfig} {bc : Blockchain} {R : Rules} (hclean : config.Clean P)
      (h : Blockchain.new N config = .ok bc) (hR : bc.rules.Redeployed R) : Fresh N P { bc with rules := R }

theorem fresh_new {config : GenesisConfig} (hclean : config.Clean P) (h : Blockchain.new N config = .ok bc) :
    Fresh N P bc :=
  Fresh.new (R := bc.rules) hclean h ⟨rfl, rfl, rfl⟩

theorem Fresh.sound (hN : N.Separating P) (h : Fresh N P bc) : Sound N P bc := by
  obtain @⟨config, bc, R, hclean, hnew, hR⟩ := h
  have hskel := skeleton_new hnew hR
  obtain ⟨g, hg, hcheck, -, rfl⟩ := new_eq_ok hnew
  have hinit := GenesisConfig.initial_build hN hclean hg
  have htxs : ({ ofGenesis N config g with rules := R } : Blockchain).base.txs = [] := by
    have hbody : g.block.transactions = [] := by
      rw [block_of_build hg]
      rfl
    change [g.block].flatMap Block.transactions = []
    rw [List.flatMap_singleton, hbody]
  have hbase : Good N P g.ledger ({ ofGenesis N config g with rules := R } : Blockchain).base := by
    refine ⟨hinit.settled, totalSupply_of_checkLedger hcheck, ?_, ?_, ?_, fun _ _ => rfl, nofun, nofun⟩
    · change g.ledger.shielded.commitments.length ≤ _
      rw [hinit.notes]
      exact Nat.zero_le _
    · rw [htxs]
      exact .genesis
    · rw [htxs]
      nofun
  have hgrounded : Grounded N P { ofGenesis N config g with rules := R } := by
    refine ⟨hskel, hbase, fun {k e} he hk => ?_⟩
    change (OrdMap.empty.insert (g.block.hash N) _).get? k = some e at he
    rw [OrdMap.get?_insert, OrdMap.get?_empty] at he
    split_ifs at he with heq
    exact absurd (heq.symm.trans hR.genesisHash.symm) hk
  have hhead : ({ ofGenesis N config g with rules := R } : Blockchain).head = R.genesisHash := hR.genesisHash.symm
  have hreplay : Replay N { ofGenesis N config g with rules := R }
      ({ ofGenesis N config g with rules := R } : Blockchain).head
      ({ ofGenesis N config g with rules := R } : Blockchain).base := by
    rw [hhead]
    exact .genesis
  refine ⟨hgrounded, ⟨_, hreplay, rfl⟩, .nil, Nat.zero_le _, ?_⟩
  have htarget : ({ ofGenesis N config g with rules := R } : Blockchain).baseTarget
      { block := g.block, shaTarget := config.mining.sha256dTarget.canonical
        chainWork := (0 : Work).saturatingAdd (Work.ofTarget config.mining.sha256dTarget.canonical), height := 0
        size := g.block.serializedSize } = .ok config.mining.sha256dTarget.canonical := by
    unfold baseTarget
    rw [if_pos (show (0 : ℕ) + 1 ≤ difficultyWindow by decide)]
    exact congrArg (fun m : MiningPolicy => Except.ok m.sha256dTarget.canonical) hR.mining
  exact syncActiveDifficulty_of_entry (OrdMap.get?_insert_self ..) htarget

/-! ## Runs -/

theorem eq_of_unpinned (h : bc'.unpinned = bc.unpinned) :
    bc' = { bc with
      checkpoints := bc'.checkpoints, linkedToCheckpoint := bc'.linkedToCheckpoint
      linkagePending := bc'.linkagePending, linkageNextHeight := bc'.linkageNextHeight
      linkagePrev := bc'.linkagePrev } := by
  obtain ⟨⟩ := bc
  obtain ⟨⟩ := bc'
  simp only [unpinned, Blockchain.mk.injEq] at h ⊢
  tauto

theorem Sound.of_unpinned (hs : Sound N P bc) (h : bc'.unpinned = bc.unpinned) : Sound N P bc' := by
  rw [eq_of_unpinned h]
  obtain ⟨r, hr, hlive⟩ := hs.live_eq
  have hskel : Skeleton N { bc with
      checkpoints := bc'.checkpoints, linkedToCheckpoint := bc'.linkedToCheckpoint
      linkagePending := bc'.linkagePending, linkageNextHeight := bc'.linkageNextHeight
      linkagePrev := bc'.linkagePrev } := hs.grounded.skeleton.congr rfl rfl
  exact ⟨hs.grounded.congr hskel rfl rfl rfl,
    ⟨r, hr.mono rfl rfl fun _ _ he => he, congrArg (fun x : Blockchain => { x with
      checkpoints := bc'.checkpoints, linkedToCheckpoint := bc'.linkedToCheckpoint
      linkagePending := bc'.linkagePending, linkageNextHeight := bc'.linkageNextHeight
      linkagePrev := bc'.linkagePrev }) hlive⟩,
    hs.undoable.mono rfl rfl fun _ _ he => he, hs.ring_le,
    syncActiveDifficulty_of_eq hs.grounded.skeleton hs.difficulty rfl rfl rfl fun _ _ he => he⟩

/-- A chain that starts as one of `I` and imports blocks that satisfy `G` where they arrive, with any calls about
pins in between. -/
inductive GuardedRun (N : NodeEnv) (I : Blockchain → Prop) (G : Blockchain → Block → Prop) : Blockchain → Prop
  | start {bc : Blockchain} (h : I bc) : GuardedRun N I G bc
  | call {bc bc' : Blockchain} {c : ChainCall} (h : GuardedRun N I G bc)
      (hG : ∀ block, c = .importBlock block → G bc block) (hrun : c.run N bc = .ok bc') : GuardedRun N I G bc'

theorem GuardedRun.reachable (h : GuardedRun N (Fresh N P) G bc) : Reachable N bc := by
  induction h with
  | start h =>
    cases h with
    | new _ hnew hR => exact .new hnew hR
  | call _ _ hrun ih => exact .call ih hrun

theorem Sound.import (hN : N.Separating P) (hs : Sound N P bc) (hclean : CleanImport N P bc block)
    {res : Except ChainError Imported} (h : importBlockTracked N bc block = .ok (bc', res)) : Sound N P bc' := by
  have hout := importBlockTracked_outcome hN hs hclean
  rw [h] at hout
  cases hout with
  | known => exact hs
  | invalid => exact hs
  | rejected _ _ hsound => exact hsound
  | stored _ _ _ _ _ _ hsound => exact hsound
  | adopted _ _ _ hsound => exact hsound

theorem GuardedRun.sound {I : Blockchain → Prop} (hN : N.Separating P)
    (hI : ∀ bc, I bc → Sound N P bc) (hG : ∀ bc block, G bc block → CleanImport N P bc block)
    (h : GuardedRun N I G bc) : Sound N P bc := by
  induction h with
  | start h => exact hI _ h
  | call _ hclean hrun ih =>
    obtain ⟨block, res, rfl, hi⟩ | hun := run_cases hrun
    · exact ih.import hN (hG _ _ (hclean block rfl)) hi
    · exact ih.of_unpinned hun

end Blockchain
end Sov
