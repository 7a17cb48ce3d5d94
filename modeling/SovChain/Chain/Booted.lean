import SovChain.Chain.Heaviest
import SovChain.Chain.Idle

/-!
# Boots

A boot from the log of blocks that an import would take ends in a sound chain.
-/

namespace Sov
open Sov.Runtime (bind_eq_ok)
namespace Blockchain
variable {N : NodeEnv} {P : Bytes → Prop} {bc bc' : Blockchain} {block : Block} {G : Blockchain → Block → Prop}

/-! ## Boots -/

/-- A block that a boot may take on trust: an import would take it as well. -/
def Trusted (N : NodeEnv) (P : Bytes → Prop) (bc : Blockchain) (block : Block) : Prop :=
  bc.index.get? (block.hash N.toCrypto) = none ∧ CleanImport N P bc block ∧
    ∃ bc' i, importBlockTracked N bc block = .ok (bc', .ok i)

/-- Every block may be taken on trust where a boot appends it. -/
def AllTrusted (N : NodeEnv) (P : Bytes → Prop) : Blockchain → List Block → Prop
  | _, [] => True
  | bc, block :: rest =>
    Trusted N P bc block ∧ ∀ {bc'}, extendTrusted N bc block = .ok (bc', .ok ()) → AllTrusted N P bc' rest

/-- A chain from genesis, or from the log of the node. -/
inductive Started (N : NodeEnv) (P : Bytes → Prop) : Blockchain → Prop
  | fresh {bc : Blockchain} (h : Fresh N P bc) : Started N P bc
  | booted {bc bc' : Blockchain} {log chain : List Block} {matched : Bool} (h : Fresh N P bc)
      (hchain : bc.heaviestChain N.toCrypto log = .ok chain) (htrusted : AllTrusted N P bc chain)
      (hboot : replayLogTrusted N bc log = .ok (bc', .ok matched)) : Started N P bc'

/-- Executing a block on trust ends where its import does, but for the journal. -/
theorem Sound.extendTrusted (hN : N.Separating P) (hs : Sound N P bc) (hring : bc.undoRing = [])
    (htrusted : Trusted N P bc block) (h : Blockchain.extendTrusted N bc block = .ok (bc', .ok ())) :
    Sound N P bc' ∧ bc'.undoRing = [] ∧ bc'.blocks.genesis = bc.blocks.genesis := by
  obtain ⟨hnew, hclean, bc1, i, himport⟩ := htrusted
  have hprev : block.header.prevHash = bc.head := by
    by_contra hne
    rw [Blockchain.extendTrusted, if_pos hne] at h
    cases h
  have hout := importBlockTracked_outcome hN hs hclean
  rw [himport] at hout
  cases hout with
  | known hknown =>
    rw [hnew] at hknown
    cases hknown
  | stored _ _ hne => exact absurd hprev hne
  | @adopted cand parent rp r' _ _ _ hp hx _ _ =>
    obtain ⟨d, hsync, hsound⟩ := hs.adopted hp.valid hp.new hp.replay hp.clean hx
    obtain ⟨r, hr, hlive⟩ := hs.live_eq
    obtain rfl := (hprev ▸ hp.replay).unique hr
    obtain ⟨L, receipts, ⟨hexec, -⟩, hr'⟩ := Rebuilt.extend_eq_ok hx
    have hcanonical := expectedTarget_canonical hp.valid.target
    have hcand : cand.height = block.header.height.toNat := hp.valid.cand_height.trans hp.valid.height_eq.symm
    have hhere : ¬block.header.prevHash ≠ (bc.live bc.head rp (.ofBranch rp.branchReceipts) bc.undoRing).head :=
      not_not.mpr hprev
    rw [hlive, Blockchain.extendTrusted, if_neg hhere, hp.valid.bits, Target.fromCompact_toCompact, hcanonical] at h
    obtain ⟨head, hhead, h⟩ := bind_eq_ok.mp h
    obtain ⟨work, hwork, h⟩ := bind_eq_ok.mp h
    dsimp only [live] at h
    rw [hcanonical, hexec] at h
    obtain ⟨synced, hsynced, h⟩ := bind_eq_ok.mp h
    cases h
    have hentry : bc.headEntry = .ok parent := by
      rw [headEntry, ← hprev, hp.valid.parent_eq]
    have hsame : (⟨cand.shaTarget, head.chainWork.saturatingAdd work, block.header.height.toNat⟩ : Candidate) = cand := by
      change Run.boot bc.headEntry = _ at hhead
      rw [hentry] at hhead
      cases hhead
      rw [hcanonical, Work.checkedOfTarget] at hwork
      split_ifs at hwork
      cases hwork
      rw [← hp.valid.work, ← hcand]
    obtain rfl : r' = Rebuilt.next rp block L receipts := hr'
    change Run.boot (insertEntry N ((bc.live (block.hash N) (Rebuilt.next rp block L receipts) (.ofBranch rp.branchReceipts)
      bc.undoRing).indexBlockReceipts block.header.height.toNat receipts) block _).syncActiveDifficulty = _ at hsynced
    rw [indexBlockReceipts_live, hsame, ← ReceiptIndex.ofBranch_snoc, hring] at hsynced
    change Run.boot ((bc.insertEntry N block cand).live (block.hash N) _ _ []).syncActiveDifficulty = _ at hsynced
    rw [hsync] at hsynced
    cases hsynced
    have hblocks : bc.blocks = rp.activeBlocks := congrArg Blockchain.blocks hlive
    rw [hblocks]
    exact ⟨hsound [] .nil (Nat.zero_le _), rfl, ActiveChain.genesis_push ..⟩

theorem Sound.extendAllTrusted {chain : List Block} (hN : N.Separating P) (hs : Sound N P bc) (hring : bc.undoRing = [])
    (htrusted : AllTrusted N P bc chain) (h : Blockchain.extendAllTrusted N bc chain = .ok (bc', .ok ())) :
    Sound N P bc' ∧ bc'.blocks.genesis = bc.blocks.genesis := by
  induction chain generalizing bc with
  | nil =>
    cases h
    exact ⟨hs, rfl⟩
  | cons block rest ih =>
    obtain ⟨⟨bc1, result⟩, hx, h⟩ := bind_eq_ok.mp h
    rcases result with e | ⟨⟩
    · cases h
    obtain ⟨hs1, hring1, hgenesis⟩ := hs.extendTrusted hN hring htrusted.1 hx
    rw [← hgenesis]
    exact ih hs1 hring1 (htrusted.2 hx) h

/-- A block without transactions, whose header says so. -/
def Bare (N : NodeEnv) (block : Block) : Prop :=
  block.transactions = [] ∧ receiptsRoot N.toCrypto [] = block.header.receiptsRoot

theorem Fresh.bare (h : Fresh N P bc) : bc.undoRing = [] ∧ Bare N bc.blocks.genesis := by
  obtain ⟨-, hnew, -⟩ := h
  obtain ⟨g, hg, -, -, rfl⟩ := new_eq_ok hnew
  unfold GenesisConfig.build at hg
  split at hg
  · cases hg
  split_ifs at hg
  obtain ⟨L, -, hg⟩ := bind_eq_ok.mp hg
  cases hg
  exact ⟨rfl, rfl, rfl⟩

theorem Started.sound (hN : N.Separating P) (h : Started N P bc) : Sound N P bc ∧ Bare N bc.blocks.genesis := by
  cases h with
  | fresh h => exact ⟨h.sound hN, h.bare.2⟩
  | @booted bc0 _ log chain matched h hchain htrusted hboot =>
    unfold replayLogTrusted at hboot
    split_ifs at hboot with hempty
    · cases hboot
      exact ⟨h.sound hN, h.bare.2⟩
    obtain ⟨chain', hchain', hboot⟩ := bind_eq_ok.mp hboot
    cases hchain.symm.trans hchain'
    obtain ⟨⟨bc1, result⟩, hx, hboot⟩ := bind_eq_ok.mp hboot
    rcases result with e | ⟨⟩
    · cases hboot
    cases hboot
    obtain ⟨hs, hgenesis⟩ := (h.sound hN).extendAllTrusted hN h.bare.1 htrusted hx
    rw [hgenesis]
    exact ⟨hs, h.bare.2⟩

theorem GuardedRun.started (h : GuardedRun N (Fresh N P) G bc) :
    GuardedRun N (Started N P) G bc := by
  induction h with
  | start h => exact .start (.fresh h)
  | call _ hG hrun ih => exact .call ih hG hrun

theorem GuardedRun.soundStarted (hN : N.Separating P) (h : GuardedRun N (Started N P) (CleanImport N P) bc) :
    Sound N P bc :=
  h.sound hN (fun _ h => (h.sound hN).1) fun _ _ h => h

end Blockchain
end Sov
