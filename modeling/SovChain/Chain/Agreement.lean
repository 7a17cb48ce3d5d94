import SovChain.Chain.Lagging
import SovChain.Chain.Unchanged
import Mathlib.Data.List.DropRight

/-!
# Journals against replay

A branch is adopted or checked in two ways: through the journals of the active chain, or by replaying it from genesis.
They agree on every branch that is not longer than the ring of journals, and the journals needed are then at hand. On the
257th late block they do not: its replay succeeds, and the check through the journals panics. What replaying the active
chain gives is also what the receipt lookups answer with, and what undoing its newest blocks leads back to.
-/

namespace Sov
open Sov.Runtime (bind_eq_ok)
namespace Blockchain
variable {N : NodeEnv} {P : Bytes → Prop} {bc bc' : Blockchain} {block : Block} {cand : Candidate}
  {parent : BlockIndexEntry} {rp : Rebuilt} {fork : ℕ} {blocks : List Block} {G : Blockchain → Block → Prop}

/-- Going through the journals does what replaying the branch from genesis does. -/
structure SwitchesAlike (N : NodeEnv) (bc : Blockchain) (block : Block) (cand : Candidate) : Prop where
  reorg : (∃ bc' i, tryIncrementalReorg N bc block cand = .ok (bc', some (.ok i))) ↔
    ∃ r, rebuildBranch N bc block cand = .ok (.ok r)
  same : ∀ {bc' i r}, tryIncrementalReorg N bc block cand = .ok (bc', some (.ok i)) →
    rebuildBranch N bc block cand = .ok (.ok r) →
      bc'.ledger = r.ledger ∧ bc'.blocks = r.activeBlocks ∧ bc'.signals = r.signals ∧
      bc'.rebuildReceiptIndex r.branchReceipts = bc' ∧ i.receipts = r.tipReceipts
  sideBranch : (∃ bc', tryIncrementalSideBranch N bc block cand = .ok (bc', some (.ok ()))) ↔
    ∃ r, rebuildBranch N bc block cand = .ok (.ok r)
  untouched : ∀ {bc' x}, tryIncrementalSideBranch N bc block cand = .ok (bc', x) →
    bc'.ledger = bc.ledger ∧ bc'.blocks = bc.blocks ∧ bc'.head = bc.head ∧ bc'.signals = bc.signals ∧
      bc'.activeReceipts = bc.activeReceipts ∧ bc'.txHeight = bc.txHeight

theorem Probed.switchesAlike (hN : N.Separating P) (hs : Sound N P bc) (hp : Probed N P bc block cand parent rp)
    (hfork : bc.coveredFork N block = some (fork, blocks)) (hshort : blocks.length ≤ reorgUndoWindow) :
    SwitchesAlike N bc block cand := by
  have hrebuild : rebuildBranch N bc block cand = Rebuilt.extend N bc.rules rp block cand.shaTarget :=
    rebuildBranch_eq hs.grounded hp.replay
  -- The replay ends as executing the block on the branch of its parent does, and so do both walks.
  rcases hx : Rebuilt.extend N bc.rules rp block cand.shaTarget with p | e | r
  · obtain ⟨-, hreorg⟩ := tryIncrementalReorg_of_panic hN hs hp hfork hx
    obtain ⟨-, hside⟩ := tryIncrementalSideBranch_of_panic hN hs hp hfork hx
    constructor <;> simp [hreorg, hside, hrebuild, hx]
  · have hreorg := tryIncrementalReorg_of_reject hN hs hp hfork hx
    have hside := tryIncrementalSideBranch_of_reject hN hs hp hfork hx
    rw [if_pos (hshort.trans (Nat.le_succ _))] at hreorg hside
    obtain ⟨ring, -, hreorg⟩ := hreorg
    obtain ⟨ring', -, hside⟩ := hside
    constructor
    · simp [hreorg, hrebuild, hx]
    · simp [hreorg]
    · simp [hside, hrebuild, hx]
    · intro bc' x h
      cases hside.symm.trans h
      exact ⟨rfl, rfl, rfl, rfl, rfl, rfl⟩
  · obtain ⟨ring, d, reverted, -, hreorg⟩ := tryIncrementalReorg_of_extend hN hs hp hfork hx
    have hside := tryIncrementalSideBranch_of_extend hN hs hp hfork hx
    rw [if_pos hshort] at hside
    obtain ⟨ring', -, -, hside⟩ := hside
    constructor
    · exact ⟨fun _ => ⟨r, hrebuild.trans hx⟩, fun _ => ⟨_, _, hreorg⟩⟩
    · intro bc' i r' h h'
      cases hreorg.symm.trans h
      cases (hrebuild.trans hx).symm.trans h'
      exact ⟨rfl, rfl, rfl, rebuildReceiptIndex_eq r.branchReceipts, rfl⟩
    · exact ⟨fun _ => ⟨r, hrebuild.trans hx⟩, fun _ => ⟨_, hside⟩⟩
    · intro bc' x h
      cases hside.symm.trans h
      exact ⟨rfl, rfl, rfl, rfl, rfl, rfl⟩

/-- In a run of clean blocks the two ways agree on every clean candidate whose branch above a covered fork is not longer than
the ring. -/
theorem incremental_agrees_with_rebuild (hN : N.toCrypto.Separating P)
    (hrun : GuardedRun N (Started N P) (CleanImport N P) bc) (hnew : bc.index.get? (block.hash N.toCrypto) = none)
    (hv : bc.validateCandidate N block = .ok (.ok cand)) (hclean : CleanImport N P bc block)
    (hfork : bc.coveredFork N block = some (fork, blocks)) (hshort : blocks.length ≤ reorgUndoWindow) :
    SwitchesAlike N bc block cand := by
  have hs := hrun.soundStarted hN
  obtain ⟨parent, hvalid⟩ := validateCandidate_eq_ok hv
  obtain ⟨rp, hrp⟩ := hs.grounded.exists_replay hvalid.parent_eq
  exact Probed.switchesAlike hN hs ⟨hvalid, hnew, hrp, hclean rp hrp⟩ hfork hshort

/-- The late block after the prompt one is checked alike in both ways. -/
theorem late_block_checked_alike : ∃ bc cand, importAll datedNode steepChain [promptBlock] = .ok bc ∧
      bc.validateCandidate datedNode (lateBlock 1) = .ok (.ok cand) ∧ SwitchesAlike datedNode bc (lateBlock 1) cand := by
  obtain ⟨bc, hrun, h⟩ := exists_lagging (Nat.zero_le _)
  obtain ⟨cand, hv, -⟩ := h.validate (Nat.zero_le _)
  obtain ⟨bs, hfork, hlen⟩ := h.coveredFork
  refine ⟨bc, cand, hrun, hv, incremental_agrees_with_rebuild separating_datedCrypto h.run.started (h.new (Nat.zero_le _)) hv h.clean
    hfork ?_⟩
  rw [List.length_append, hlen]
  decide

/-- The branch of the 257th late block is replayed, and the check of it through the journals panics. -/
theorem replayed_branch_not_checked : Blockchain.new datedNode steepConfig = .ok steepChain ∧
    ∃ bc cand, importAll datedNode steepChain (promptBlock :: lateBlocks 256) = .ok bc ∧
      bc.validateCandidate datedNode (lateBlock 257) = .ok (.ok cand) ∧
      (bc.coveredFork datedNode (lateBlock 257)).isSome ∧
      (∃ r, rebuildBranch datedNode bc (lateBlock 257) cand = .ok (.ok r)) ∧
      tryIncrementalSideBranch datedNode bc (lateBlock 257) cand = .error .undoRingExhausted := by
  obtain ⟨bc, hrun, h⟩ := exists_lagging le_rfl
  obtain ⟨cand, hv, hcand⟩ := h.validate le_rfl
  obtain ⟨bs, hfork, hlen⟩ := h.coveredFork
  obtain ⟨parent, hvalid⟩ := validateCandidate_eq_ok hv
  obtain ⟨rp, hrp⟩ := h.sound.grounded.exists_replay hvalid.parent_eq
  obtain ⟨r, hx⟩ := h.extend hrp
  rw [← hcand.target] at hx
  have hside := tryIncrementalSideBranch_of_extend separating_datedCrypto h.sound
    ⟨hvalid, h.new le_rfl, hrp, h.clean rp hrp⟩ hfork hx
  rw [if_neg (by rw [List.length_append, hlen]; decide)] at hside
  exact ⟨new_steepChain, bc, cand, hrun, hv, by rw [hfork]; rfl, ⟨r, (rebuildBranch_eq h.sound.grounded hrp).trans hx⟩, hside⟩

/-! ## The journals at hand -/

/-- In a run of clean blocks, from genesis or after a boot, no journal is missing for a clean block whose branch above a
covered fork is not longer than the ring: its import returns, unless executing a block panics. -/
theorem covered_import_finds_journals (hN : N.toCrypto.Separating P)
    (hrun : GuardedRun N (Started N P) (CleanImport N P) bc) (hclean : CleanImport N P bc block)
    (hshort : ∀ fork blocks, bc.coveredFork N block = some (fork, blocks) → blocks.length ≤ reorgUndoWindow) :
    (∃ bc' res, importBlockTracked N bc block = .ok (bc', res)) ∨ importBlockTracked N bc block = .error .execution := by
  have hs := hrun.soundStarted hN
  have hout := importBlockTracked_outcome hN hs hclean
  generalize importBlockTracked N bc block = result at hout ⊢
  cases hout with
  | panicked => exact .inr rfl
  | exhausted hfork hlong => exact absurd (hshort _ _ hfork) (Nat.not_le.mpr hlong)
  | _ => exact .inl ⟨_, _, rfl⟩

/-- After the prompt block the first late one is checked as a side branch, with the journal of the prompt one. -/
theorem first_late_import_returns : ∃ bc, importAll datedNode steepChain [promptBlock] = .ok bc ∧
    (bc.coveredFork datedNode (lateBlock 1)).isSome ∧
    ((∃ bc' res, importBlockTracked datedNode bc (lateBlock 1) = .ok (bc', res)) ∨
      importBlockTracked datedNode bc (lateBlock 1) = .error .execution) := by
  obtain ⟨bc, hrun, h⟩ := exists_lagging (Nat.zero_le _)
  obtain ⟨bs, hfork, hlen⟩ := h.coveredFork
  refine ⟨bc, hrun, by rw [hfork]; rfl,
    covered_import_finds_journals separating_datedCrypto h.run.started h.clean fun fork blocks hcovered => ?_⟩
  cases hfork.symm.trans hcovered
  rw [List.length_append, hlen]
  decide

/-- The import of the 257th late block misses the journal of the first. -/
theorem late_import_misses_journal : Blockchain.new datedNode steepConfig = .ok steepChain ∧
    ∃ bc, importAll datedNode steepChain (promptBlock :: lateBlocks 256) = .ok bc ∧
      importBlockTracked datedNode bc (lateBlock 257) = .error .undoRingExhausted := by
  obtain ⟨bc, hrun, h⟩ := exists_lagging le_rfl
  exact ⟨new_steepChain, bc, hrun, h.exhausted⟩

/-! ## The receipts -/

/-- What is known of the receipts of an active block: executing it on the branch of its parent gives them, one for each
transaction, and its header commits to them. Genesis is not executed. -/
structure Receipted (N : NodeEnv) (bc : Blockchain) (h : ℕ) (block : Block) (receipts : List Receipt) : Prop where
  ids : receipts.map Receipt.txId = block.transactions.map (SignedTransaction.id N.toCrypto)
  nodup : (receipts.map Receipt.txId).Nodup
  root : receiptsRoot N.toCrypto receipts = block.header.receiptsRoot
  executed : h ≠ 0 → ∃ e r L, bc.index.get? (block.hash N.toCrypto) = some e ∧ Replay N bc block.header.prevHash r ∧
    executeBlockOn N bc.rules r.ledger block e.shaTarget r.signals = .ok (L, receipts)

/-- The lookups answer with the receipts of the active chain. -/
structure Mirrors (N : NodeEnv) (bc : Blockchain) : Prop where
  at_height : ∀ {h}, h ≤ bc.height → ∃ block receipts, bc.blocks.get? h = some block ∧
    bc.receiptsAtHeight h = some receipts ∧ Receipted N bc h block receipts
  receipt_iff : ∀ {id h x}, bc.receipt id = some (h, x) ↔
    ∃ receipts, bc.receiptsAtHeight h = some receipts ∧ x ∈ receipts ∧ x.txId = id

theorem Replay.length_below (hg : Grounded N P bc) {k : Hash} {r : Rebuilt} (hr : Replay N bc k r) :
    r.activeBlocks.toList.length = r.activeBlocks.height + 1 := by
  obtain ⟨bs, hbs, hblocks⟩ := hr.links
  rw [hg.skeleton.genesis_hash] at hbs
  rw [hblocks, (path_tip hg.skeleton.tree hbs).2, ActiveChain.length_toList, ← ActiveChain.length_tail,
    ActiveChain.tail_extend]
  rfl

theorem Replay.receipted (hN : N.Separating P) (hg : Grounded N P bc) (hbare : Bare N bc.blocks.genesis) {k : Hash}
    {r : Rebuilt} (hr : Replay N bc k r) :
    (ReceiptIndex.ofBranch r.branchReceipts).Finds ∧ ∀ {h block}, r.activeBlocks.get? h = some block →
      Receipted N bc h block (((ReceiptIndex.ofBranch r.branchReceipts).active.get? h).getD []) := by
  induction hr with
  | genesis =>
    refine ⟨fun id h => ⟨fun h => (by cases h), fun h => (by cases h)⟩, fun {h block} hblock => ?_⟩
    obtain ⟨rfl, rfl⟩ : h = 0 ∧ bc.blocks.genesis = block := by
      cases h with
      | zero => exact ⟨rfl, Option.some.inj hblock⟩
      | succ h => cases hblock
    refine ⟨?_, .nil, hbare.2, fun h => absurd rfl h⟩
    rw [hbare.1]
    rfl
  | @block k e r r' hr he hk hx ih =>
    obtain ⟨hfinds, hold⟩ := ih
    have hgood := hg.good hN hr
    have hgood' := hg.good hN (.block hr he hk hx)
    have hfresh := ids_fresh hN hgood hgood' hx
    have hheight := hg.height_eq he hk hr
    have hlen := hr.length_below hg
    obtain ⟨L, receipts, ⟨hexec, hroots⟩, rfl⟩ := Rebuilt.extend_eq_ok hx
    have hnone : (ReceiptIndex.ofBranch r.branchReceipts).active.get? e.block.header.height.toNat = none :=
      ReceiptIndex.active_ofBranch fun p hp => (by have := hgood.heights p hp; omega)
    have hids : receipts.map Receipt.txId = e.block.transactions.map (SignedTransaction.id N.toCrypto) :=
      Runtime.executeBlock_ids hexec
    have hnodup := hgood'.accepted.ids_nodup hN.collisionFree hgood'.hashed
    rw [Rebuilt.txs, ActiveChain.toList_push, List.flatMap_append, List.flatMap_singleton, List.map_append, ← hids] at hnodup
    dsimp only
    rw [ReceiptIndex.ofBranch_snoc]
    refine ⟨hfinds.add hnone fun x hx' => ReceiptIndex.heights_ofBranch fun p hp y hy => hfresh p hp y hy x hx',
      fun {h block} hblock => ?_⟩
    rw [ReceiptIndex.getD_active_add hnone, hheight]
    rw [ActiveChain.get?, ActiveChain.toList_push] at hblock
    by_cases hlt : h < r.activeBlocks.toList.length
    · rw [List.getElem?_append_left hlt] at hblock
      rw [if_neg (by omega)]
      exact hold hblock
    · obtain ⟨hle, -⟩ := List.getElem?_eq_some_iff.mp hblock
      rw [List.length_append, List.length_singleton] at hle
      obtain rfl : h = r.activeBlocks.toList.length := by omega
      rw [List.getElem?_concat_length] at hblock
      obtain rfl := Option.some.inj hblock
      rw [if_pos hlen.symm]
      unfold checkRoots at hroots
      split_ifs at hroots with _ hroot
      refine ⟨hids, hnodup.of_append_right, not_not.mp hroot, fun _ => ⟨e, r, L, ?_, hr, hexec⟩⟩
      rw [hg.skeleton.tree.hash_eq he]
      exact he

theorem GuardedRun.bare (hN : N.Separating P) (hrun : GuardedRun N (Started N P) G bc) :
    Bare N bc.blocks.genesis := by
  induction hrun with
  | start h => exact (h.sound hN).2
  | @call bc bc' c _ _ hrun ih =>
    obtain ⟨block, res, -, hi⟩ | hun := run_cases hrun
    · have hgenesis : bc'.blocks.genesis = bc.blocks.genesis := congrArg Setup.genesis (setup_importBlockTracked hi)
      rwa [hgenesis]
    · have hgenesis : bc'.blocks.genesis = bc.blocks.genesis := (congrArg (fun c => c.blocks.genesis) hun :)
      rwa [hgenesis]

/-- In a run of clean blocks, from genesis or after a boot, the lookups answer with the receipts of the active chain. -/
theorem receipts_mirror_chain (hN : N.toCrypto.Separating P)
    (hrun : GuardedRun N (Started N P) (CleanImport N P) bc) : Mirrors N bc := by
  have hs := hrun.soundStarted hN
  obtain ⟨r, hr, hlive⟩ := hs.live_eq
  obtain ⟨hfinds, hreceipted⟩ := hr.receipted hN hs.grounded (hrun.bare hN)
  have hlen := hr.length_below hs.grounded
  have hblocks : bc.blocks = r.activeBlocks := congrArg Blockchain.blocks hlive
  have hactive : bc.activeReceipts = (ReceiptIndex.ofBranch r.branchReceipts).active := congrArg activeReceipts hlive
  have hheights : bc.txHeight = (ReceiptIndex.ofBranch r.branchReceipts).heights := congrArg txHeight hlive
  have hat : ∀ {h receipts}, bc.receiptsAtHeight h = some receipts ↔
      h < r.activeBlocks.toList.length ∧ (bc.activeReceipts.get? h).getD [] = receipts := by
    intro h receipts
    unfold receiptsAtHeight height
    rw [hblocks, hlen, Nat.lt_succ_iff, ← Nat.not_lt]
    split_ifs with hlt
    · simp [hlt]
    · simp [hlt]
  refine ⟨fun {h} hle => ?_, fun {id h x} => ⟨fun hx => ?_, fun hx => ?_⟩⟩
  · rw [height, hblocks, ← Nat.lt_succ_iff, Nat.succ_eq_add_one, ← hlen] at hle
    have hblock : r.activeBlocks.get? h = _ := List.getElem?_eq_getElem hle
    refine ⟨_, _, by rw [hblocks, hblock], hat.mpr ⟨hle, rfl⟩, ?_⟩
    rw [hactive]
    exact hreceipted hblock
  · obtain ⟨height, hget, hx⟩ := Option.bind_eq_some_iff.mp hx
    obtain ⟨receipts, hreceipts, hx⟩ := Option.bind_eq_some_iff.mp hx
    obtain ⟨y, hfind, hx⟩ := Option.bind_eq_some_iff.mp hx
    cases hx
    have hlt : h < r.activeBlocks.toList.length := by
      by_contra hge
      rw [hactive] at hreceipts
      rw [ReceiptIndex.active_ofBranch fun p hp => (by have := (hs.grounded.good hN hr).heights p hp; omega)] at hreceipts
      cases hreceipts
    refine ⟨receipts, hat.mpr ⟨hlt, by rw [hreceipts]; rfl⟩, List.mem_of_find?_eq_some hfind, ?_⟩
    simpa using List.find?_some hfind
  · obtain ⟨receipts, hreceipts, hmem, rfl⟩ := hx
    obtain ⟨hlt, rfl⟩ := hat.mp hreceipts
    rw [hactive] at hmem
    have hnodup := (hreceipted (List.getElem?_eq_getElem hlt)).nodup
    have hget := (hfinds _ _).mpr (List.mem_map_of_mem hmem)
    rcases hreceipts : (ReceiptIndex.ofBranch r.branchReceipts).active.get? h with _ | receipts
    · rw [hreceipts] at hmem
      cases hmem
    rw [hreceipts] at hmem hnodup
    rcases hfind : receipts.find? fun y => y.txId = x.txId with _ | y
    · exact absurd (by simp) (List.find?_eq_none.mp hfind x hmem)
    have hid : y.txId = x.txId := by simpa using List.find?_some hfind
    obtain rfl : y = x := List.inj_on_of_nodup_map hnodup (List.mem_of_find?_eq_some hfind) hmem hid
    unfold receipt
    rw [hheights, hactive]
    exact Option.bind_eq_some_iff.mpr ⟨h, hget, Option.bind_eq_some_iff.mpr ⟨receipts, hreceipts,
      Option.bind_eq_some_iff.mpr ⟨y, hfind, rfl⟩⟩⟩

/-- The receipt of the first transaction of the paid chain is found. -/
theorem paid_receipt_mirrored : ∃ bc i, importBlockTracked datedNode paidChain (paidBlock paidRoot) = .ok (bc, .ok i) ∧
    bc.receipt (keyTx.id datedCrypto) = some (1, keyReceipt) ∧ Mirrors datedNode bc := by
  obtain ⟨bc, i, h, hreceipt, -, hrun⟩ := exists_paid
  exact ⟨bc, i, h, hreceipt, receipts_mirror_chain separating_datedCrypto hrun⟩

/-- The prompt block with the root of other receipts. -/
def unrootedBlock : Block :=
  { promptBlock with header := { promptBlock.header with receiptsRoot := promptBlock.header.prevHash } }

/-- What a boot from the log of that block ends in. -/
def unrootedFacts (x : Blockchain × Except ChainError Bool) : Bool :=
  decide (x.2.toOption = some true ∧ 1 ≤ x.1.height ∧ x.1.blocks.get? 1 = some unrootedBlock ∧ x.1.receiptsAtHeight 1 = some [] ∧
    receiptsRoot datedCrypto [] ≠ unrootedBlock.header.receiptsRoot)

/-- A boot takes the block from its log, and the receipts at its height are not those its header commits to. -/
theorem unrooted_block_replayed : Blockchain.new datedNode steepConfig = .ok steepChain ∧
    ∃ bc, replayLogTrusted datedNode steepChain [unrootedBlock] = .ok (bc, .ok true) ∧ ¬Mirrors datedNode bc := by
  have hfacts : (replayLogTrusted datedNode steepChain [unrootedBlock]).toOption.map unrootedFacts = some true := by
    decide +kernel
  rcases hrun : replayLogTrusted datedNode steepChain [unrootedBlock] with p | ⟨bc, result⟩
  · rw [hrun] at hfacts
    cases hfacts
  rw [hrun] at hfacts
  obtain ⟨hresult, hle, hblock, hreceipts, hroot⟩ := of_decide_eq_true (Option.some.inj hfacts)
  rcases result with e | matched
  · cases hresult
  cases hresult
  refine ⟨new_steepChain, bc, rfl, fun hm => ?_⟩
  obtain ⟨block, receipts, hget, hat, hr⟩ := hm.at_height hle
  cases hblock.symm.trans hget
  cases hreceipts.symm.trans hat
  exact hroot hr.root

/-! ## The journals of the active tail -/

open BlockIndex (Links)
variable {k : Hash} {r : Rebuilt} {ring : List UndoEntry}

/-- The journals belong to the newest blocks of the active chain, and going down `n` of them gives the ledger of executing it
without its last `n` blocks. -/
structure JournalsTail (N : NodeEnv) (bc : Blockchain) : Prop where
  length_le : bc.undoRing.length ≤ reorgUndoWindow
  newest : bc.undoRing.map (fun u => (u.height, u.hash)) =
    (bc.blocks.toList.tail.rtake bc.undoRing.length).reverse.map fun b => (b.header.height.toNat, b.hash N.toCrypto)
  undone : ∀ n ≤ bc.undoRing.length, ∃ r, replayAncestors N bc bc.base (bc.blocks.toList.tail.rdrop n) = .ok (.ok r) ∧
    (bc.undoRing.take n).foldl (fun L u => L.applyUndo N.toCrypto u.log) bc.ledger = r.ledger

theorem Undoable.newest (h : Undoable N bc ring k)
    (hlinks : Links bc.index bc.rules.genesisHash bc.rules.genesisHash blocks k) :
    ring.map (fun u => (u.height, u.hash)) =
      (blocks.rtake ring.length).reverse.map fun b => (b.header.height.toNat, b.hash N.toCrypto) := by
  induction h generalizing blocks with
  | nil => simp
  | @cons u ring k e _ _ he hk _ _ hplace _ _ ih =>
    cases hlinks with
    | nil => exact absurd rfl hk
    | snoc hlinks he' hp _ =>
      cases he.symm.trans he'
      rw [← hp] at hlinks
      rw [List.length_cons, List.rtake_concat_succ, List.reverse_append, List.reverse_singleton, List.singleton_append,
        List.map_cons, List.map_cons, hplace, ih hlinks]

theorem Undoable.undone (h : Undoable N bc ring k)
    (hlinks : Links bc.index bc.rules.genesisHash bc.rules.genesisHash blocks k) (hr : Replay N bc k r) {n : ℕ}
    (hn : n ≤ ring.length) :
    ∃ k₀ r₀, Links bc.index bc.rules.genesisHash bc.rules.genesisHash (blocks.rdrop n) k₀ ∧ Replay N bc k₀ r₀ ∧
      (ring.take n).foldl (fun L u => L.applyUndo N.toCrypto u.log) r.ledger = r₀.ledger := by
  induction n generalizing ring k r blocks with
  | zero => exact ⟨k, r, by simpa using hlinks, hr, rfl⟩
  | succ n ih =>
    cases h with
    | nil => cases hn
    | cons he hk hdown hup _ hundo hring =>
      cases hlinks with
      | nil => exact absurd rfl hk
      | snoc hlinks he' hp _ =>
        cases he.symm.trans he'
        rw [← hp] at hlinks
        obtain rfl := hup.unique hr
        rw [List.rdrop_concat_succ, List.take_succ_cons, List.foldl_cons, hundo]
        exact ih hring hlinks hdown (Nat.le_of_succ_le_succ hn)

/-- In a run of clean blocks, from genesis or after a boot, the journals are those of the newest active blocks. -/
theorem journals_match_active_tail (hN : N.toCrypto.Separating P)
    (hrun : GuardedRun N (Started N P) (CleanImport N P) bc) : JournalsTail N bc := by
  have hs := hrun.soundStarted hN
  obtain ⟨r, hr, hlive⟩ := hs.live_eq
  obtain ⟨bs, hlinks, hblocks⟩ := hr.links
  have htail : bc.blocks.toList.tail = bs := by
    rw [congrArg Blockchain.blocks hlive]
    exact (congrArg (fun c => c.toList.tail) hblocks).trans (ActiveChain.tail_extend_genesis _ bs)
  rw [← htail] at hlinks
  refine ⟨hs.ring_le, hs.undoable.newest hlinks, fun n hn => ?_⟩
  obtain ⟨k₀, r₀, hlinks₀, hr0, hundone⟩ := hs.undoable.undone hlinks hr hn
  refine ⟨r₀, replayAncestors_eq hs.grounded hlinks₀ .genesis hr0, ?_⟩
  rw [← hundone]
  exact congrArg (List.foldl _ · _) (congrArg ledger hlive)

/-- The journal of the prompt block is in place after the checks of 256 late ones. -/
theorem lagging_journals :
    ∃ bc, importAll datedNode steepChain (promptBlock :: lateBlocks 256) = .ok bc ∧ 1 ≤ bc.undoRing.length ∧
      JournalsTail datedNode bc := by
  obtain ⟨bc, hrun, h⟩ := exists_lagging le_rfl
  exact ⟨bc, hrun, h.ring, journals_match_active_tail separating_datedCrypto h.run.started⟩

/-- After the rejected block the ledger is not the one of the active chain. -/
theorem rejected_import_strays : Blockchain.new datedNode paidConfig = .ok paidChain ∧
    ∃ bc, importAll datedNode paidChain [forgedFirst, forgedSecond] = .ok bc ∧ ¬JournalsTail datedNode bc := by
  obtain ⟨bc, bc', e, hfirst, hsecond, hstray, -⟩ := exists_of_leavesAround leavesAround_forged
  refine ⟨rfl, bc', (importAll_cons_of_ok hfirst).trans (importAll_cons_of_ok hsecond), fun h => ?_⟩
  obtain ⟨r, hr, hledger⟩ := h.undone 0 (Nat.zero_le _)
  rw [List.rdrop_zero] at hr
  unfold strayLeaves at hstray
  rw [hr] at hstray
  exact of_decide_eq_true hstray (by rw [← hledger]; rfl)

/-! ## The supply of every branch -/

/-- The supply has grown by what was mined. -/
def Conserves (before after : Stores) : Prop :=
  after.supply + before.minedEmitted.toNat = before.supply + after.minedEmitted.toNat ∧
    before.minedEmitted.toNat ≤ after.minedEmitted.toNat

theorem conserves_of_checkTransition {before after : Stores} (h : Verify.checkTransition before after = .ok ()) :
    Conserves before after := by
  obtain ⟨pre, hpre, h⟩ := bind_eq_ok.mp h
  unfold Verify.TransitionPre.capture at hpre
  split at hpre
  · cases hpre
  rename_i hbefore
  cases hpre
  unfold Verify.checkTransitionPre at h
  dsimp only at h
  split at h
  · cases h
  rename_i hafter
  split_ifs at h with hmined
  split at h
  · cases h
  rename_i hsum
  split_ifs at h with hne
  rw [Stores.totalSupply_eq_some] at hbefore hafter
  have hle : before.minedEmitted.toNat ≤ after.minedEmitted.toNat := not_lt.mp hmined
  rw [BitVec.checkedAdd_eq_some, BitVec.toNat_sub_of_le hle] at hsum
  rw [not_not.mp hne] at hafter
  exact ⟨by omega, hle⟩

theorem of_orInvariant {x : Except InvariantViolation Unit} (h : orInvariant x = .ok ()) : x = .ok () := by
  cases x with
  | error v => cases h
  | ok _ => rfl

/-- Executing the branch of any indexed block keeps the supply, block by block, and ends with the live ledger at the
head. -/
def KeepsSupply (N : NodeEnv) (bc : Blockchain) : Prop :=
  ∀ k e, bc.index.get? k = some e → ∃ r, Replay N bc k r ∧ (k = bc.head → bc.ledger = r.ledger) ∧
    Conserves bc.genesisLedger r.ledger ∧
    (k ≠ bc.rules.genesisHash → Verify.checkLedger r.ledger bc.rules.mining = .ok () ∧
      ∃ rp, Replay N bc e.block.header.prevHash rp ∧ Conserves rp.ledger r.ledger)

theorem Conserves.trans {a b c : Stores} (h : Conserves a b) (h' : Conserves b c) : Conserves a c := by
  obtain ⟨hsupply, hle⟩ := h
  obtain ⟨hsupply', hle'⟩ := h'
  exact ⟨by omega, hle.trans hle'⟩

theorem Grounded.conserves (hN : N.Separating P) (hg : Grounded N P bc) (hr : Replay N bc k r) :
    Conserves bc.genesisLedger r.ledger ∧ (k ≠ bc.rules.genesisHash → Verify.checkLedger r.ledger bc.rules.mining = .ok () ∧
      ∃ e rp, bc.index.get? k = some e ∧ Replay N bc e.block.header.prevHash rp ∧ Conserves rp.ledger r.ledger) := by
  induction hr with
  | genesis => exact ⟨⟨rfl, le_rfl⟩, absurd rfl⟩
  | @block k e rp _ hr he _ hx ih =>
    obtain ⟨L, receipts, -, hcommits, rfl⟩ := extend_inv (hg.good hN hr) hx
    obtain ⟨-, -, hcommits⟩ := bind_eq_ok.mp hcommits
    obtain ⟨⟨⟩, htransition, hledger⟩ := bind_eq_ok.mp hcommits
    have hnext : Conserves rp.ledger L := conserves_of_checkTransition (of_orInvariant htransition)
    exact ⟨ih.1.trans hnext, fun _ => ⟨of_orInvariant hledger, e, rp, he, hr, hnext⟩⟩

/-- Whatever the executor does, no block of a branch of clean blocks that a node keeps makes coins beyond its reward, or
loses any. -/
theorem branches_conserve_supply (hN : N.toCrypto.Separating P)
    (hrun : GuardedRun N (Started N P) (CleanImport N P) bc) : KeepsSupply N bc := by
  have hs := hrun.soundStarted hN
  intro k e he
  obtain ⟨r, hr⟩ := hs.grounded.exists_replay he
  obtain ⟨hbase, hblock⟩ := hs.grounded.conserves hN hr
  refine ⟨r, hr, ?_, hbase, fun hk => ?_⟩
  · rintro rfl
    obtain ⟨r', hr', hlive⟩ := hs.live_eq
    exact (congrArg ledger hlive).trans (congrArg Rebuilt.ledger (hr'.unique hr))
  · obtain ⟨hledger, e', rp, he', hrp, hnext⟩ := hblock hk
    cases he.symm.trans he'
    exact ⟨hledger, rp, hrp, hnext⟩

/-- The first block of the paid chain mines fifty coins. -/
theorem paid_supply : ∃ bc i, importBlockTracked datedNode paidChain (paidBlock paidRoot) = .ok (bc, .ok i) ∧
    bc.ledger.totalSupply = some 50 ∧ KeepsSupply datedNode bc := by
  obtain ⟨bc, i, h, -, hsupply, hrun⟩ := exists_paid
  exact ⟨bc, i, h, hsupply, branches_conserve_supply separating_datedCrypto hrun⟩

end Blockchain
end Sov
