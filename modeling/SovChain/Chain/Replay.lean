import SovChain.Chain.Commitment
import SovChain.Chain.Working
import SovChain.Runtime.Rollback

/-!
# What replaying from genesis gives

`Replay N bc k r` says that executing the blocks from genesis up to the indexed hash `k`, each on a ledger of
its own, ends in `r`. This is what the chain is for, and what its shortcuts are measured by: connecting a
block to the live ledger gives what replaying it gives, with a journal that leads back
(`connectToActive_of_extend`), and a block that replaying rejects leaves the chain as it was
(`connectToActive_of_reject`).
-/

namespace Sov
open Sov.Runtime (bind_eq_ok leaves notesAll Accepted Tame)

/-- The transactions of a rebuilt branch. -/
def Rebuilt.txs (r : Rebuilt) : List SignedTransaction := r.activeBlocks.toList.flatMap Block.transactions

namespace Blockchain
open BlockIndex (Links Tree)

/-- Executing the indexed blocks from genesis up to a hash ends in a branch. -/
inductive Replay (N : NodeEnv) (bc : Blockchain) : Hash → Rebuilt → Prop
  | genesis : Replay N bc bc.rules.genesisHash bc.base
  | block {k : Hash} {e : BlockIndexEntry} {r r' : Rebuilt} (hr : Replay N bc e.block.header.prevHash r)
      (he : bc.index.get? k = some e) (hk : k ≠ bc.rules.genesisHash)
      (hx : Rebuilt.extend N bc.rules r e.block e.shaTarget = .ok (.ok r')) : Replay N bc k r'

/-- A block that can be executed and rolled back on top of a branch. -/
structure Clean (N : NodeEnv) (P : Bytes → Prop) (R : Rules) (r : Rebuilt) (block : Block) : Prop where
  fits : Block.codec.Fits block
  ids : ∀ id ∈ block.ids, id.WellFormed
  room : notesAll N.toEnv (r.txs ++ block.transactions) ≤ 2 ^ 32
  hashed : ∀ stx ∈ block.transactions, P stx.transaction.signingBytes
  journal : ∀ shaTarget L',
    leaves (executeBlockOn N R r.ledger.beginUndo block shaTarget r.signals) = some L' →
      ∀ op ∈ L'.takeUndo.2, P op.slot.preimage

/-- What holds at the end of a branch of clean blocks. -/
structure Good (N : NodeEnv) (P : Bytes → Prop) (G : Ledger) (r : Rebuilt) : Prop where
  settled : r.ledger.Settled N.toCrypto P
  supply : ∃ n, r.ledger.totalSupply = some n
  notes : r.ledger.shielded.commitments.length ≤ notesAll N.toEnv r.txs
  accepted : Accepted N.toEnv G r.txs r.ledger
  hashed : ∀ stx ∈ r.txs, Transaction.codec.Fits stx.transaction ∧ P stx.transaction.signingBytes
  signals : ∀ h, r.activeBlocks.height < h → r.signals.get? h = none
  heights : ∀ p ∈ r.branchReceipts, p.1 ≤ r.activeBlocks.height
  receipts : ∀ p ∈ r.branchReceipts, ∀ x ∈ p.2, x.txId ∈ r.txs.map (SignedTransaction.id N.toCrypto)

section
variable {N : NodeEnv} {P : Bytes → Prop} {bc bc' : Blockchain} {block : Block} {R : Rules} {r r' : Rebuilt}
  {k : Hash} {shaTarget : Target} {G : Ledger} {receipts : List Receipt}

/-! ## Replays -/

theorem Replay.unique (h : Replay N bc k r) (h' : Replay N bc k r') : r = r' := by
  induction h generalizing r' with
  | genesis =>
    cases h' with
    | genesis => rfl
    | block _ _ hk _ => exact absurd rfl hk
  | block _ he hk hx ih =>
    cases h' with
    | genesis => exact absurd rfl hk
    | block hr' he' _ hx' =>
      cases he.symm.trans he'
      rw [ih hr', hx'] at hx
      cases hx
      rfl

theorem Replay.mono (h : Replay N bc k r) (hrules : bc'.rules = bc.rules) (hbase : bc'.base = bc.base)
    (hsub : ∀ k e, bc.index.get? k = some e → bc'.index.get? k = some e) : Replay N bc' k r := by
  induction h with
  | genesis =>
    rw [← hrules, ← hbase]
    exact .genesis
  | block _ he hk hx ih => exact .block ih (hsub _ _ he) (hrules ▸ hk) (hrules ▸ hx)

theorem Replay.links (h : Replay N bc k r) : ∃ bs, Links bc.index bc.rules.genesisHash bc.rules.genesisHash bs k ∧
      r.activeBlocks = ActiveChain.extend ⟨bc.blocks.genesis, []⟩ bs := by
  induction h with
  | genesis => exact ⟨[], .nil, rfl⟩
  | @block k e r r' _ he hk hx ih =>
    obtain ⟨bs, hbs, hblocks⟩ := ih
    obtain ⟨L, receipts, -, rfl⟩ := Rebuilt.extend_eq_ok hx
    refine ⟨bs ++ [e.block], .snoc hbs he rfl hk, ?_⟩
    rw [ActiveChain.extend_snoc, ← hblocks]

theorem Replay.tip_hash (h : Replay N bc k r) (hs : Skeleton N bc) : r.activeBlocks.tip.hash N = k := by
  obtain ⟨bs, hbs, hblocks⟩ := h.links
  rw [hs.genesis_hash] at hbs
  rw [hblocks]
  exact (path_tip hs.tree hbs).1

theorem Replay.height (h : Replay N bc k r) (hs : Skeleton N bc) {e : BlockIndexEntry}
    (he : bc.index.get? k = some e) : r.activeBlocks.height = e.height := by
  obtain ⟨bs, hbs, hblocks⟩ := h.links
  rw [hs.genesis_hash] at hbs
  obtain ⟨e0, he0, -, h0⟩ := hs.tree.root
  obtain ⟨e', he', hlen⟩ := hbs.height hs.tree he0
  cases he.symm.trans he'
  rw [hblocks, (path_tip hs.tree hbs).2, hlen, h0, Nat.zero_add]

/-! ## Executing on the live ledger -/

/-- What is checked of an executed block. -/
def commits (N : NodeEnv) (R : Rules) (before : Stores) (block : Block) (shaTarget : Target) (after : Ledger)
    (receipts : List Receipt) : Except ChainError Unit := do
  checkRoots N block.header after receipts
  orInvariant (Verify.checkTransition before after.toStores)
  orInvariant (Verify.checkLedger after.toStores (R.policyWith shaTarget))

/-- The branch after a block. -/
def Rebuilt.next (r : Rebuilt) (block : Block) (L : Ledger) (receipts : List Receipt) : Rebuilt :=
  { ledger := L
    activeBlocks := r.activeBlocks.push block
    signals := r.signals.record block.header.height.toNat block.header.versionBits
    tipReceipts := receipts
    branchReceipts := r.branchReceipts ++ [(block.header.height.toNat, receipts)] }

/-- The chain after a block was connected, with its journal. -/
def connected (N : NodeEnv) (bc : Blockchain) (block : Block) (r : Rebuilt) (log : List UndoOp) : Blockchain :=
  { bc with
    ledger := r.ledger
    signals := r.signals
    blocks := bc.blocks.push block
    undoRing := rememberUndo bc.undoRing ⟨block.header.height.toNat, block.hash N.toCrypto, log⟩ }

/-- Extending a branch, through the execution with a journal. -/
theorem extend_eq (hgood : Good N P G r) : Rebuilt.extend N R r block shaTarget =
      match executeBlockOn N R r.ledger.beginUndo block shaTarget r.signals with
      | .error .panic => .error .execution
      | .error (.reject _ e) => .ok (.error (.execution e))
      | .ok (L, receipts) =>
        .ok ((commits N R r.ledger block shaTarget L receipts).map fun _ =>
          Rebuilt.next r block L.forget receipts) := by
  have hx : Runtime.executeBlock N (R.context block.header shaTarget r.signals) r.ledger
      block.transactions = (Runtime.executeBlock N (R.context block.header shaTarget r.signals)
        r.ledger.beginUndo block.transactions).forgetting fun x => (x.1.forget, x.2) :=
    Runtime.executeBlock_settled hgood.settled.undo_eq
  unfold Rebuilt.extend replayBlock executeBlockOn
  rw [hx]
  generalize Runtime.executeBlock N (R.context block.header shaTarget r.signals) r.ledger.beginUndo
    block.transactions = x
  rcases x with f | x
  · cases f <;> rfl
  obtain ⟨L, receipts⟩ := x
  change Except.ok (Except.map _ _) = _
  congr 1
  unfold commits
  change Except.map _ (do
    checkRoots N block.header L receipts
    orInvariant (Verify.checkTransition r.ledger L)
    orInvariant (Verify.checkLedger L (R.policyWith shaTarget))
    return (L.forget, receipts)) = _
  rcases checkRoots N block.header L receipts with e | _
  · rfl
  cases orInvariant (Verify.checkTransition r.ledger L) with
  | error e => rfl
  | ok _ => cases orInvariant (Verify.checkLedger L (R.policyWith shaTarget)) <;> rfl

theorem connectToActive_eq (hsupply : ∃ n, r.ledger.totalSupply = some n) (hledger : bc.ledger = r.ledger)
    (hsignals : bc.signals = r.signals) : connectToActive N bc block shaTarget =
      match executeBlockOn N bc.rules r.ledger.beginUndo block shaTarget r.signals with
      | .error .panic => .error .execution
      | .error (.reject L e) => .ok ({ bc with ledger := L.rollback N }, .error (.execution e))
      | .ok (L, receipts) =>
        match commits N bc.rules r.ledger block shaTarget L receipts with
        | .error e => .ok ({ bc with ledger := L.rollback N }, .error e)
        | .ok _ => .ok (connected N bc block (Rebuilt.next r block L.forget receipts) L.takeUndo.2, .ok receipts) := by
  obtain ⟨supply, hsupply⟩ := hsupply
  have hcapture : Verify.TransitionPre.capture r.ledger =
      .ok { supply, mined := r.ledger.minedEmitted, tokens := r.ledger.tokens } := by
    unfold Verify.TransitionPre.capture
    rw [hsupply]
  unfold connectToActive
  rw [hledger, hsignals, hcapture]
  dsimp only
  unfold tryConnectBlock
  generalize executeBlockOn N bc.rules r.ledger.beginUndo block shaTarget r.signals = x
  rcases x with f | x
  · cases f <;> rfl
  obtain ⟨L, receipts⟩ := x
  unfold commits Verify.checkTransition
  rw [hcapture]
  dsimp only
  rcases checkRoots N block.header L receipts with e | _
  · rfl
  change _ = match (do
    orInvariant (Verify.checkTransitionPre
      { supply, mined := r.ledger.minedEmitted, tokens := r.ledger.tokens } L)
    orInvariant (Verify.checkLedger L (bc.rules.policyWith shaTarget))) with
    | .error e => _
    | .ok _ => _
  cases orInvariant (Verify.checkTransitionPre
    { supply, mined := r.ledger.minedEmitted, tokens := r.ledger.tokens } L) with
  | error e => rfl
  | ok _ =>
    rcases orInvariant (Verify.checkLedger L (bc.rules.policyWith shaTarget)) with e | _
    · rfl
    unfold connected Rebuilt.next
    dsimp only
    rw [← hsignals]
    rfl

theorem Clean.tame (h : Clean N P R r block) (hgood : Good N P G r) :
    Tame N P (R.context block.header shaTarget r.signals) r.ledger block.transactions where
  names stx hstx := by
    refine SignedTransaction.names_wellFormed (h.fits.2.2 stx hstx).1.2.2.2 fun id hid => h.ids id ?_
    exact List.mem_cons_of_mem _ (List.mem_flatMap.mpr ⟨stx, hstx, hid⟩)
  miner := h.ids _ List.mem_cons_self
  room := by
    have hroom := h.room
    have hnotes := hgood.notes
    simp only [notesAll, List.map_append, List.sum_append] at hroom hnotes ⊢
    omega
  journal := h.journal shaTarget

theorem Rebuilt.txs_next {L : Ledger} :
    (Rebuilt.next r block L receipts).txs = r.txs ++ block.transactions := by
  rw [Rebuilt.txs, Rebuilt.next]
  dsimp only
  rw [ActiveChain.toList_push, List.flatMap_append, List.flatMap_singleton]
  rfl

theorem extend_inv (hgood : Good N P G r) (h : Rebuilt.extend N R r block shaTarget = .ok (.ok r')) :
    ∃ L receipts, executeBlockOn N R r.ledger.beginUndo block shaTarget r.signals = .ok (L, receipts) ∧
      commits N R r.ledger block shaTarget L receipts = .ok () ∧ r' = Rebuilt.next r block L.forget receipts := by
  rw [extend_eq hgood] at h
  rcases hx : executeBlockOn N R r.ledger.beginUndo block shaTarget r.signals with f | x
  · rw [hx] at h
    cases f <;> cases h
  obtain ⟨L, receipts⟩ := x
  rw [hx] at h
  dsimp only at h
  rcases hcommits : commits N R r.ledger block shaTarget L receipts with e | _
  · rw [hcommits] at h
    cases h
  rw [hcommits] at h
  cases h
  exact ⟨L, receipts, rfl, hcommits, rfl⟩

theorem totalSupply_of_checkLedger {s : Stores} {policy : MiningPolicy}
    (h : Verify.checkLedger s policy = .ok ()) : ∃ n, s.totalSupply = some n := by
  cases hs : s.totalSupply with
  | some n => exact ⟨n, rfl⟩
  | none =>
    unfold Verify.checkLedger at h
    rw [hs] at h
    cases h

theorem totalSupply_of_commits {before : Stores} {L : Ledger}
    (h : commits N R before block shaTarget L receipts = .ok ()) : ∃ n, L.totalSupply = some n := by
  obtain ⟨-, -, h⟩ := bind_eq_ok.mp h
  obtain ⟨-, -, h⟩ := bind_eq_ok.mp h
  cases hcheck : Verify.checkLedger L (R.policyWith shaTarget) with
  | ok _ => exact totalSupply_of_checkLedger hcheck
  | error v =>
    rw [hcheck] at h
    cases h

theorem Good.extend (hN : N.Separating P) (hgood : Good N P G r) (hclean : Clean N P R r block)
    (hheight : r.activeBlocks.height < block.header.height.toNat)
    (h : Rebuilt.extend N R r block shaTarget = .ok (.ok r')) : Good N P G r' := by
  obtain ⟨L, receipts, hx, hcommits, rfl⟩ := extend_inv hgood h
  have htame : Tame N P (R.context block.header shaTarget r.signals) r.ledger block.transactions :=
    hclean.tame hgood
  have hleaves : leaves (executeBlockOn N R r.ledger.beginUndo block shaTarget r.signals) = some L :=
    congrArg leaves hx
  have happlies := Runtime.executeBlock_applies (T := False) (L := r.ledger.beginUndo) hgood.settled.named
    htame.names htame.miner (fun _ => htame.room) hx
  have hplain : Runtime.executeBlock N (R.context block.header shaTarget r.signals) r.ledger
      block.transactions = .ok (L.forget, receipts) := by
    rw [Runtime.executeBlock_settled hgood.settled.undo_eq]
    exact congrArg (fun x => Except.forgetting (fun x => (x.1.forget, x.2)) x) hx
  have hids := Runtime.executeBlock_ids hx
  refine ⟨htame.settled hN hgood.settled hleaves, totalSupply_of_commits hcommits, ?_, ?_, ?_, ?_, ?_, ?_⟩
  · rw [Rebuilt.txs_next]
    have hnotes := hgood.notes
    have hle : L.shielded.commitments.length ≤
        r.ledger.shielded.commitments.length + notesAll N block.transactions := happlies.notes_le
    simp only [notesAll, List.map_append, List.sum_append] at hnotes hle ⊢
    change L.shielded.commitments.length ≤ _
    omega
  · rw [Rebuilt.txs_next]
    exact .block hgood.accepted hplain
  · rw [Rebuilt.txs_next]
    intro stx hstx
    obtain hstx | hstx := List.mem_append.mp hstx
    · exact hgood.hashed stx hstx
    · exact ⟨(hclean.fits.2.2 stx hstx).1, hclean.hashed stx hstx⟩
  · intro h hh
    have hlt : block.header.height.toNat < h := hh
    change (r.signals.insert _ _).get? h = none
    rw [OrdMap.get?_insert, if_neg hlt.ne]
    exact hgood.signals h (hheight.trans hlt)
  · intro p hp
    obtain hp | hp := List.mem_append.mp hp
    · exact (hgood.heights p hp).trans hheight.le
    · rw [List.mem_singleton.mp hp]
      exact le_rfl
  · intro p hp x hx
    rw [Rebuilt.txs_next, List.map_append]
    obtain hp | hp := List.mem_append.mp hp
    · exact List.mem_append_left _ (hgood.receipts p hp x hx)
    · rw [List.mem_singleton.mp hp] at hx
      rw [← hids]
      exact List.mem_append_right _ (List.mem_map_of_mem hx)

theorem connectToActive_of_reject (hN : N.Separating P) (hledger : bc.ledger = r.ledger)
    (hsignals : bc.signals = r.signals) (hgood : Good N P G r) (hclean : Clean N P bc.rules r block)
    {e : ChainError} (h : Rebuilt.extend N bc.rules r block shaTarget = .ok (.error e)) :
    connectToActive N bc block shaTarget = .ok (bc, .error e) := by
  have hrestore : ∀ L, leaves (executeBlockOn N bc.rules r.ledger.beginUndo block shaTarget r.signals) = some L →
      { bc with ledger := L.rollback N } = bc := by
    intro L hL
    rw [(hclean.tame hgood).rollback_eq hN hgood.settled hL, ← hledger]
  rw [extend_eq hgood] at h
  rw [connectToActive_eq hgood.supply hledger hsignals]
  generalize executeBlockOn N bc.rules r.ledger.beginUndo block shaTarget r.signals = x at h hrestore
  cases x with
  | error f =>
    cases f with
    | panic => cases h
    | reject L e' =>
      cases h
      dsimp only
      rw [hrestore L rfl]
  | ok x =>
    obtain ⟨L, receipts⟩ := x
    dsimp only at h ⊢
    cases hcommits : commits N bc.rules r.ledger block shaTarget L receipts with
    | error e' =>
      rw [hcommits] at h
      cases h
      dsimp only
      rw [hrestore L rfl]
    | ok _ =>
      rw [hcommits] at h
      cases h

/-- A block that replaying accepts joins the chain, with a journal that leads back. -/
theorem connectToActive_of_extend (hN : N.Separating P) (hledger : bc.ledger = r.ledger)
    (hsignals : bc.signals = r.signals) (hgood : Good N P G r) (hclean : Clean N P bc.rules r block)
    (h : Rebuilt.extend N bc.rules r block shaTarget = .ok (.ok r')) : ∃ log, r'.ledger.applyUndo N log = r.ledger ∧
      connectToActive N bc block shaTarget = .ok (connected N bc block r' log, .ok r'.tipReceipts) := by
  rw [extend_eq hgood] at h
  rw [connectToActive_eq hgood.supply hledger hsignals]
  rcases hx : executeBlockOn N bc.rules r.ledger.beginUndo block shaTarget r.signals with f | x
  · rw [hx] at h
    cases f <;> cases h
  obtain ⟨L, receipts⟩ := x
  rw [hx] at h
  dsimp only at h ⊢
  rcases hcommits : commits N bc.rules r.ledger block shaTarget L receipts with e | _
  · rw [hcommits] at h
    cases h
  rw [hcommits] at h
  cases h
  refine ⟨L.takeUndo.2, ?_, rfl⟩
  exact (hclean.tame hgood).rollback_eq hN hgood.settled (congrArg leaves hx)

theorem connectToActive_of_panic (hledger : bc.ledger = r.ledger) (hsignals : bc.signals = r.signals)
    (hgood : Good N P G r) {p : Panic} (h : Rebuilt.extend N bc.rules r block shaTarget = .error p) :
    p = .execution ∧ connectToActive N bc block shaTarget = .error p := by
  rw [extend_eq hgood] at h
  rw [connectToActive_eq hgood.supply hledger hsignals]
  generalize executeBlockOn N bc.rules r.ledger.beginUndo block shaTarget r.signals = x at h
  cases x with
  | error f =>
    cases f with
    | panic =>
      cases h
      exact ⟨rfl, rfl⟩
    | reject L e => cases h
  | ok x => cases h

/-! ## A tree of clean blocks -/

/-- Every indexed block is clean on its branch and extends it. -/
structure Grounded (N : NodeEnv) (P : Bytes → Prop) (bc : Blockchain) : Prop where
  skeleton : Skeleton N.toCrypto bc
  base : Good N P bc.genesisLedger bc.base
  entries : ∀ {k e}, bc.index.get? k = some e → k ≠ bc.rules.genesisHash →
    ∃ r r', Replay N bc e.block.header.prevHash r ∧ Clean N P bc.rules r e.block ∧
      Rebuilt.extend N bc.rules r e.block e.shaTarget = .ok (.ok r')

namespace Grounded
variable {e : BlockIndexEntry}

theorem exists_replay (hg : Grounded N P bc) (he : bc.index.get? k = some e) : ∃ r, Replay N bc k r := by
  by_cases hk : k = bc.rules.genesisHash
  · exact ⟨bc.base, hk ▸ .genesis⟩
  · obtain ⟨r, r', hr, -, hx⟩ := hg.entries he hk
    exact ⟨r', .block hr he hk hx⟩

theorem height_eq (hg : Grounded N P bc) (he : bc.index.get? k = some e) (hk : k ≠ bc.rules.genesisHash)
    (hr : Replay N bc e.block.header.prevHash r) : e.block.header.height.toNat = r.activeBlocks.height + 1 := by
  obtain ⟨p, hp, hheight⟩ := hg.skeleton.tree.parent he (hg.skeleton.genesis_hash ▸ hk)
  rw [hg.skeleton.tree.height_eq he, hheight, hr.height hg.skeleton hp]

theorem clean (hg : Grounded N P bc) (he : bc.index.get? k = some e) (hk : k ≠ bc.rules.genesisHash)
    (hr : Replay N bc e.block.header.prevHash r) : Clean N P bc.rules r e.block := by
  obtain ⟨r1, -, hr1, hclean, -⟩ := hg.entries he hk
  rwa [hr1.unique hr] at hclean

theorem good (hN : N.Separating P) (hg : Grounded N P bc) (hr : Replay N bc k r) : Good N P bc.genesisLedger r := by
  induction hr with
  | genesis => exact hg.base
  | block hr he hk hx ih =>
    refine ih.extend hN (hg.clean he hk hr) ?_ hx
    rw [hg.height_eq he hk hr]
    exact Nat.lt_succ_self _

theorem congr (hg : Grounded N P bc) (hs : Skeleton N bc') (hrules : bc'.rules = bc.rules)
    (hbase : bc'.base = bc.base) (hindex : bc'.index = bc.index) : Grounded N P bc' := by
  have hledger : bc'.genesisLedger = bc.genesisLedger := congrArg Rebuilt.ledger hbase
  refine ⟨hs, by rw [hledger, hbase]; exact hg.base, fun he hk => ?_⟩
  rw [hindex] at he
  obtain ⟨r, r', hr, hclean, hx⟩ := hg.entries he (hrules ▸ hk)
  rw [hrules]
  exact ⟨r, r', hr.mono hrules hbase fun _ _ h => hindex ▸ h, hclean, hx⟩

theorem exists_entry (hg : Grounded N P bc) (hr : Replay N bc k r) : ∃ e, bc.index.get? k = some e := by
  cases hr with
  | genesis =>
    obtain ⟨e, he, -⟩ := hg.skeleton.tree.root
    exact ⟨e, hg.skeleton.genesis_hash ▸ he⟩
  | block _ he _ _ => exact ⟨_, he⟩

theorem lt_height (hg : Grounded N P bc) (hr : Replay N bc k r) {bs : List Block} {k' : Hash}
    (hlinks : Links bc.index bc.rules.genesisHash k bs k') :
    ∀ b ∈ bs, r.activeBlocks.height < b.header.height.toNat := by
  obtain ⟨e, he⟩ := hg.exists_entry hr
  rw [hr.height hg.skeleton he]
  rw [hg.skeleton.genesis_hash] at hlinks
  exact hlinks.lt_height hg.skeleton.tree he

theorem replay_insertEntry {cand : Candidate} (hnew : bc.index.get? (block.hash N) = none)
    (hr : Replay N bc k r) : Replay N (bc.insertEntry N block cand) k r :=
  hr.mono rfl rfl fun _ _ he => BlockIndex.get?_insert_of_some hnew he

theorem insertEntry {cand : Candidate} {parent : BlockIndexEntry} (hg : Grounded N P bc)
    (hv : Validated N bc block cand parent) (hnew : bc.index.get? (block.hash N) = none)
    (hr : Replay N bc block.header.prevHash r) (hclean : Clean N P bc.rules r block)
    (hx : Rebuilt.extend N bc.rules r block cand.shaTarget = .ok (.ok r')) :
    Grounded N P (bc.insertEntry N block cand) := by
  refine ⟨hg.skeleton.stored rfl hv hnew rfl, hg.base, fun {k e} he hk => ?_⟩
  have hget : (bc.index.insert (block.hash N) _).get? k = some e := he
  rw [OrdMap.get?_insert] at hget
  split_ifs at hget with hkey
  · cases hget
    exact ⟨r, r', replay_insertEntry hnew hr, hclean, hx⟩
  · obtain ⟨r1, r2, hr1, hclean1, hx1⟩ := hg.entries hget hk
    exact ⟨r1, r2, replay_insertEntry hnew hr1, hclean1, hx1⟩

end Grounded
end
end Blockchain
end Sov
