import SovChain.Chain.Runs
import SovChain.Chain.Signals

/-!
# What a branch decides

The target, the work and the signals of a block depend on the blocks below it alone, and so does the verdict on
it. Two sound chains with the same rules therefore give an indexed block the same entry (`agrees_of_derived`) and
judge a new block on top of it alike (`validateCandidate_congr`), whatever other branches they have.
-/

namespace Sov

/-! ## Walking two indexes -/

namespace BlockIndex
variable {C : Crypto} {genesis : Block} {index index' : BlockIndex} {k : Hash} {e e' : BlockIndexEntry} {n : ℕ}

/-- What both indexes have below a height they have in the same form. -/
def AgreesBelow (n : ℕ) (index index' : BlockIndex) : Prop :=
  ∀ {k e e'}, index.get? k = some e → index'.get? k = some e' → e.height < n → e = e'

/-- No block is indexed under the parent that genesis names. -/
def Rootless (genesis : Block) (index : BlockIndex) : Prop := index.get? genesis.header.prevHash = none

theorem walk_congr (ht : Tree C genesis index) (ht' : Tree C genesis index') (hagree : AgreesBelow n index index')
    (hroot : Rootless genesis index) (hroot' : Rootless genesis index') (he : index.get? k = some e)
    (he' : index'.get? k = some e') (hlow : e.height < n) (m : ℕ) : index'.walk m k = index.walk m k := by
  induction m generalizing k e e' with
  | zero => rfl
  | succ m ih =>
    obtain rfl := hagree he he' hlow
    unfold walk
    rw [he, he']
    dsimp only
    congr 1
    by_cases hk : k = genesis.hash C
    · subst hk
      rw [(ht.block_of_genesis he).1]
      rcases m with _ | m
      · rfl
      unfold walk
      rw [hroot, hroot']
    · obtain ⟨p, hp, hheight⟩ := ht.parent he hk
      obtain ⟨p', hp', -⟩ := ht'.parent he' hk
      exact ih hp hp' (by omega)

theorem recentTimes_congr (ht : Tree C genesis index) (ht' : Tree C genesis index')
    (hagree : AgreesBelow n index index') (he : index.get? k = some e) (he' : index'.get? k = some e)
    (hlow : e.height < n) (m : ℕ) : index'.recentTimes m e = index.recentTimes m e := by
  induction m generalizing k e with
  | zero => rfl
  | succ m ih =>
    unfold recentTimes
    congr 1
    split_ifs with h0
    · rfl
    have hk : k ≠ genesis.hash C := by
      rintro rfl
      exact h0 (ht.block_of_genesis he).2
    obtain ⟨p, hp, hheight⟩ := ht.parent he hk
    obtain ⟨p', hp', -⟩ := ht'.parent he' hk
    obtain rfl := hagree hp hp' (by omega)
    rw [hp, hp']
    exact ih hp hp' (by omega)

end BlockIndex

namespace Blockchain
open BlockIndex (Links Tree AgreesBelow Rootless)
variable {N : NodeEnv} {P : Bytes → Prop} {bc bc' : Blockchain} {block : Block} {k : Hash}
  {e parent : BlockIndexEntry} {r rp : Rebuilt} {n : ℕ}

/-- Two chains with the same rules, genesis and pins. -/
structure Alike (bc bc' : Blockchain) : Prop where
  rules : bc'.rules = bc.rules
  genesis : bc'.blocks.genesis = bc.blocks.genesis
  ledger : bc'.genesisLedger = bc.genesisLedger
  checkpoints : bc'.checkpoints = bc.checkpoints
  linked : bc'.linkedToCheckpoint = bc.linkedToCheckpoint

theorem Alike.base (h : Alike bc bc') : bc'.base = bc.base := by
  unfold Blockchain.base
  rw [h.genesis, h.ledger]

theorem Alike.trans {bc'' : Blockchain} (h : Alike bc bc') (h' : Alike bc' bc'') : Alike bc bc'' :=
  ⟨h'.rules.trans h.rules, h'.genesis.trans h.genesis, h'.ledger.trans h.ledger, h'.checkpoints.trans h.checkpoints,
    h'.linked.trans h.linked⟩

theorem Alike.symm (h : Alike bc bc') : Alike bc' bc :=
  ⟨h.rules.symm, h.genesis.symm, h.ledger.symm, h.checkpoints.symm, h.linked.symm⟩

theorem alike_adopted {cand : Candidate} {r' : Rebuilt} {ring : List UndoEntry} {d : Difficulty}
    (hrp : Replay N bc block.header.prevHash rp) (hx : Rebuilt.extend N bc.rules rp block cand.shaTarget = .ok (.ok r')) :
    Alike bc (adopted N bc block cand r' ring d) := by
  have hgenesis : r'.activeBlocks.genesis = bc.blocks.genesis := by
    obtain ⟨bs, -, hblocks⟩ := hrp.links
    rw [(extend_fields hx).1, hblocks, ← ActiveChain.extend_snoc, ActiveChain.genesis_extend]
    rfl
  exact ⟨rfl, hgenesis, rfl, rfl, rfl⟩

/-! ## Targets -/

section Targets
variable (hs : Skeleton N.toCrypto bc) (hs' : Skeleton N.toCrypto bc') (ha : Alike bc bc')
  (hagree : AgreesBelow n bc.index bc'.index) (hroot : Rootless bc.blocks.genesis bc.index)
  (hroot' : Rootless bc.blocks.genesis bc'.index) (hp : bc.index.get? k = some parent)
  (hp' : bc'.index.get? k = some parent) (hlow : parent.height < n)

include hs hs' ha hagree hp hp' hlow

include hroot hroot' in
theorem walk_parent_congr (m : ℕ) :
    bc'.index.walk m parent.block.header.prevHash = bc.index.walk m parent.block.header.prevHash := by
  have ht' := hs'.tree
  rw [ha.genesis] at ht'
  have h := BlockIndex.walk_congr hs.tree ht' hagree hroot hroot' hp hp' hlow (m + 1)
  unfold BlockIndex.walk at h
  rw [hp, hp'] at h
  exact List.tail_eq_of_cons_eq h

include hroot hroot' in
theorem expectedTarget_congr (timestampMs : U64) :
    bc'.expectedTarget parent timestampMs = bc.expectedTarget parent timestampMs := by
  have hbase : bc'.baseTarget parent = bc.baseTarget parent := by
    unfold baseTarget
    rw [ha.rules, walk_parent_congr hs hs' ha hagree hroot hroot' hp hp' hlow]
  unfold expectedTarget
  rw [hbase, ha.rules]

theorem medianTimePastOf_congr : bc'.medianTimePastOf parent = bc.medianTimePastOf parent := by
  have ht' := hs'.tree
  rw [ha.genesis] at ht'
  unfold medianTimePastOf
  rw [BlockIndex.recentTimes_congr hs.tree ht' hagree hp hp' hlow]

end Targets

/-! ## Entries -/

/-- The entry of genesis. -/
def rootEntry (bc : Blockchain) : BlockIndexEntry where
  block := bc.blocks.genesis
  shaTarget := bc.rules.mining.sha256dTarget.canonical
  chainWork := (0 : Work).saturatingAdd (Work.ofTarget bc.rules.mining.sha256dTarget.canonical)
  height := 0
  size := bc.blocks.genesis.serializedSize

/-- An entry is what its block and the entry below it make it. -/
structure DerivedFrom (bc : Blockchain) (p e : BlockIndexEntry) : Prop where
  parent : bc.index.get? e.block.header.prevHash = some p
  target : bc.expectedTarget p e.block.header.timestampMs = .ok e.shaTarget
  work : e.chainWork = p.chainWork.saturatingAdd (Work.ofTarget e.shaTarget)
  height : e.height = p.height + 1
  size : e.size = e.block.serializedSize

/-- Every entry is derived from the one below it. -/
structure Derived (bc : Blockchain) : Prop where
  root : bc.index.get? bc.rules.genesisHash = some bc.rootEntry
  entries : ∀ {k e}, bc.index.get? k = some e → k ≠ bc.rules.genesisHash → ∃ p, DerivedFrom bc p e

theorem Derived.congr (hd : Derived bc) (hrules : bc'.rules = bc.rules) (hgenesis : bc'.blocks.genesis = bc.blocks.genesis)
    (hindex : bc'.index = bc.index) : Derived bc' := by
  refine ⟨?_, fun {k e} he hk => ?_⟩
  · rw [hindex, hrules, rootEntry, hrules, hgenesis]
    exact hd.root
  rw [hindex] at he
  obtain ⟨p, hp⟩ := hd.entries he (hrules ▸ hk)
  refine ⟨p, by rw [hindex]; exact hp.parent, ?_, hp.work, hp.height, hp.size⟩
  rw [← hp.target]
  unfold expectedTarget baseTarget
  rw [hrules, hindex]

theorem Derived.insertEntry {cand : Candidate} (hd : Derived bc) (hs : Skeleton N bc)
    (hv : Validated N bc block cand parent) (hnew : bc.index.get? (block.hash N) = none) :
    Derived (bc.insertEntry N block cand) := by
  have hsub : ∀ k e, bc.index.get? k = some e → (bc.insertEntry N block cand).index.get? k = some e :=
    fun _ _ he => BlockIndex.get?_insert_of_some hnew he
  have htarget : ∀ {k p}, bc.index.get? k = some p → ∀ t,
      (bc.insertEntry N block cand).expectedTarget p t = bc.expectedTarget p t := by
    intro k p hp t
    have hmining : (bc.insertEntry N block cand).rules.mining = bc.rules.mining := rfl
    have hbase := (baseTarget_eq hs hmining hsub hp).1
    unfold expectedTarget
    rw [hbase]
    rfl
  refine ⟨hsub _ _ hd.root, fun {k e} he hk => ?_⟩
  change (bc.index.insert (block.hash N) _).get? k = some e at he
  rw [OrdMap.get?_insert] at he
  split_ifs at he with hkey
  · cases he
    exact ⟨parent, hsub _ _ hv.parent_eq, (htarget hv.parent_eq _).trans hv.target, hv.work, hv.cand_height, rfl⟩
  · obtain ⟨p, hp⟩ := hd.entries he hk
    exact ⟨p, hsub _ _ hp.parent, (htarget hp.parent _).trans hp.target, hp.work, hp.height, hp.size⟩

/-- Chains alike that index the same blocks have the same entries for them. -/
theorem agrees_of_derived (hs : Skeleton N bc) (hs' : Skeleton N bc') (hd : Derived bc)
    (hd' : Derived bc') (ha : Alike bc bc') (hroot : Rootless bc.blocks.genesis bc.index)
    (hroot' : Rootless bc.blocks.genesis bc'.index)
    (hblocks : ∀ {k e e'}, bc.index.get? k = some e → bc'.index.get? k = some e' → e.block = e'.block) :
    AgreesBelow n bc.index bc'.index := by
  induction n with
  | zero => exact fun _ _ h => absurd h (Nat.not_lt_zero _)
  | succ n ih =>
    intro k e e' he he' hlow
    by_cases hk : k = bc.rules.genesisHash
    · have hroot0 : bc'.rootEntry = bc.rootEntry := by
        unfold rootEntry
        rw [ha.rules, ha.genesis]
      have hget := hd'.root
      rw [ha.rules, hroot0, ← hk] at hget
      rw [hk] at he
      cases hd.root.symm.trans he
      exact Option.some.inj (hget.symm.trans he')
    · obtain ⟨p, hp⟩ := hd.entries he hk
      obtain ⟨p', hp'⟩ := hd'.entries he' (ha.rules ▸ hk)
      have hblock : e.block = e'.block := hblocks he he'
      have hparent := hp'.parent
      rw [← hblock] at hparent
      have hheight := hp.height
      have heq : p = p' := ih hp.parent hparent (by omega)
      have htarget : e.shaTarget = e'.shaTarget := by
        have h := expectedTarget_congr hs hs' ha ih hroot hroot' hp.parent (heq ▸ hparent) (by omega)
          e.block.header.timestampMs
        have h' := hp'.target
        rw [← hblock, ← heq, h, hp.target] at h'
        exact Except.ok.inj h'
      have hwork : e.chainWork = e'.chainWork := by rw [hp.work, hp'.work, heq, htarget]
      have hheight' : e.height = e'.height := by rw [hp.height, hp'.height, heq]
      have hsize : e.size = e'.size := by rw [hp.size, hp'.size, hblock]
      obtain ⟨⟩ := e
      obtain ⟨⟩ := e'
      dsimp only at hblock htarget hwork hheight' hsize
      rw [hblock, htarget, hwork, hheight', hsize]

/-! ## Signals -/

theorem Replay.signals_eq (h : Replay N bc k r) {k' : Hash} {r' : Rebuilt} (h' : Replay N bc k' r') {bs : List Block}
    (hbs : Links bc.index bc.rules.genesisHash k bs k') : r'.signals = recordAll r.signals bs := by
  induction hbs generalizing r' with
  | nil =>
    obtain rfl := h.unique h'
    rfl
  | @snoc bs p k' e hbelow he hp hk ih =>
    cases h' with
    | genesis => exact absurd rfl hk
    | block hr he' _ hx =>
      cases he.symm.trans he'
      obtain ⟨L, receipts, -, rfl⟩ := Rebuilt.extend_eq_ok hx
      rw [hp] at hr
      rw [recordAll, List.foldl_append]
      change _ = recordAll (recordAll r.signals bs) [e.block]
      rw [← ih hr]
      rfl

theorem Sound.recorded (hs : Sound N P bc) : Recorded bc := by
  obtain ⟨r, hr, hlive⟩ := hs.live_eq
  obtain ⟨bs, hbs, hblocks⟩ := hr.links
  have hsignals : bc.signals = r.signals := congrArg signals hlive
  have hactive : bc.blocks = r.activeBlocks := congrArg blocks hlive
  rw [Recorded, hsignals, hactive, hblocks, ActiveChain.tail_extend_genesis, Replay.genesis.signals_eq hr hbs]
  rfl

theorem branchSignalsFrom_eq (hs : Sound N P bc) (hr : Replay N bc k r) : bc.branchSignalsFrom N k = r.signals := by
  have hskel := hs.grounded.skeleton
  obtain ⟨bs, hbs, -⟩ := hr.links
  rw [Replay.genesis.signals_eq hr hbs]
  rw [hskel.genesis_hash] at hbs
  exact branchSignalsFrom_eq_log hskel hs.recorded hbs

theorem signals_below_eq {α : Type} (hs : Sound N P bc) (hr : Replay N bc k r) (f : SignalLog → α) :
    (if k = bc.head then f bc.signals else f (bc.branchSignalsFrom N k)) = f r.signals := by
  split_ifs with hk
  · obtain ⟨rh, hrh, hlive⟩ := hs.live_eq
    obtain rfl := hr.unique (hk ▸ hrh)
    exact congrArg f (congrArg signals hlive)
  · rw [branchSignalsFrom_eq hs hr]

/-! ## The verdict on a block -/

section Verdict
variable (hs : Sound N P bc) (hs' : Sound N P bc') (ha : Alike bc bc')
  (hagree : ∀ n, AgreesBelow n bc.index bc'.index)

include hs hs' ha hagree

omit hs in
theorem Replay.congr (hr : Replay N bc k r) (he : bc'.index.get? k = some e) : Replay N bc' k r := by
  induction hr generalizing e with
  | genesis =>
    rw [← ha.rules, ← ha.base]
    exact .genesis
  | @block k e1 r r' _ he1 hk hx ih =>
    obtain rfl := hagree (e1.height + 1) he1 he (Nat.lt_succ_self _)
    have hk' : k ≠ bc'.rules.genesisHash := ha.rules ▸ hk
    obtain ⟨p, hp, -⟩ := hs'.grounded.skeleton.tree.parent he (hs'.grounded.skeleton.genesis_hash ▸ hk')
    exact .block (ih hp) he hk' (ha.rules ▸ hx)

variable (hroot : Rootless bc.blocks.genesis bc.index) (hroot' : Rootless bc.blocks.genesis bc'.index)
  (hp : bc.index.get? block.header.prevHash = some parent) (hp' : bc'.index.get? block.header.prevHash = some parent)

include hp hp'

theorem signals_below_congr {α : Type} (f : SignalLog → α) : (if block.header.prevHash = bc'.head then f bc'.signals
      else f (bc'.branchSignalsFrom N block.header.prevHash)) = if block.header.prevHash = bc.head then f bc.signals
        else f (bc.branchSignalsFrom N block.header.prevHash) := by
  obtain ⟨r, hr⟩ := hs.grounded.exists_replay hp
  rw [signals_below_eq hs hr, signals_below_eq hs' (hr.congr hs' ha hagree hp')]

include hroot hroot'

theorem blockSizeLimit_congr : bc'.blockSizeLimit N parent = bc.blockSizeLimit N parent := by
  have hskel := hs.grounded.skeleton
  have hskel' := hs'.grounded.skeleton
  have hhash : parent.block.hash N = block.header.prevHash := hskel.tree.hash_eq hp
  have hwalk := walk_parent_congr hskel hskel' ha (hagree (parent.height + 1)) hroot hroot' hp hp' (Nat.lt_succ_self _)
    (blockSizeWindow - 1)
  have hactive := signals_below_congr hs hs' ha hagree hp hp' (bc.rules.shieldedV2Suite2Active (parent.height + 1))
  unfold blockSizeLimit
  dsimp only
  rw [hwalk, ha.rules, hhash, hactive]

theorem validateCandidate_congr : bc'.validateCandidate N block = bc.validateCandidate N block := by
  have hskel := hs.grounded.skeleton
  have hskel' := hs'.grounded.skeleton
  have hlow : parent.height < parent.height + 1 := Nat.lt_succ_self _
  have htarget := expectedTarget_congr hskel hskel' ha (hagree (parent.height + 1)) hroot hroot' hp hp' hlow
    block.header.timestampMs
  have hmedian := medianTimePastOf_congr hskel hskel' ha (hagree (parent.height + 1)) hp hp' hlow
  have hmode : bc'.branchTxDomainMode N block = bc.branchTxDomainMode N block := by
    have h := signals_below_congr hs hs' ha hagree hp hp' (bc.rules.resolvedTxDomainMode block.header.height.toNat)
    unfold branchTxDomainMode
    dsimp only
    rw [ha.rules, h]
  have hv2 : bc'.branchShieldedV2Active N block = bc.branchShieldedV2Active N block := by
    have h := signals_below_congr hs hs' ha hagree hp hp' (bc.rules.shieldedV2Active block.header.height.toNat)
    unfold branchShieldedV2Active
    dsimp only
    rw [ha.rules, h]
  have hseal : bc'.sealOf N block.header = bc.sealOf N block.header := by
    unfold sealOf
    rw [ha.rules]
  have hlinked : bc'.isLinkedToCheckpoint (block.hash N) = bc.isLinkedToCheckpoint (block.hash N) := by
    unfold isLinkedToCheckpoint
    rw [ha.linked]
  have hcheck : ∀ t, bc'.checkCandidate N block parent t = bc.checkCandidate N block parent t := by
    intro t
    unfold checkCandidate
    dsimp only
    rw [hmedian, ha.checkpoints, hv2, hlinked, hseal, hmode]
  unfold validateCandidate
  rw [hp, hp']
  dsimp only
  rw [blockSizeLimit_congr hs hs' ha hagree hroot hroot' hp hp', htarget]
  simp only [hcheck]

end Verdict
end Blockchain
end Sov
