import SovChain.Chain.Booted

/-!
# A long light branch

A stall halves the difficulty up to eight times, so a branch of late blocks stays lighter than one prompt block for
as long as the node's journals reach. The late blocks are stored one after the other, each checked by connecting
its whole branch above the fork and undoing it again (`exists_lagging`). The ring keeps 256 journals: connecting the 257th
late block drops the journal of the first one, and the branch cannot be undone.
-/

namespace Sov
open List (length_append mem_cons not_mem_nil)
namespace Blockchain
open BlockIndex (Links)
variable {bc : Blockchain}

/-- One prompt block on this genesis takes 511 attempts. -/
def steepConfig : GenesisConfig :=
  { datedConfig with mining := { datedConfig.mining with sha256dTarget := BitVec.ofNat 256 (2 ^ 247) } }

def steepTarget : Target := steepConfig.mining.sha256dTarget.canonical

/-- The target of difficulty one. -/
def easyTarget : Target := (Difficulty.toTarget 1).canonical

theorem eda_steep : (Difficulty.fromTarget steepTarget).eda 48000 1000 = 1 := by decide +kernel

theorem fromTarget_easy : Difficulty.fromTarget easyTarget = 1 := by decide +kernel

/-- Eight halvings leave nothing of a low difficulty. -/
theorem eda_low {d : Difficulty} (h : d.toNat ≤ 2) :
    (Difficulty.fromTarget d.toTarget.canonical).eda 48000 1000 = 1 := by
  have hcases : d = 0 ∨ d = 1 ∨ d = 2 := by
    have : d.toNat = 0 ∨ d.toNat = 1 ∨ d.toNat = 2 := by omega
    rcases this with h | h | h
    · exact .inl (BitVec.eq_of_toNat_eq h)
    · exact .inr (.inl (BitVec.eq_of_toNat_eq h))
    · exact .inr (.inr (BitVec.eq_of_toNat_eq h))
  rcases hcases with rfl | rfl | rfl
  · decide +kernel
  · decide +kernel
  · decide +kernel

/-- A block that comes 48 seconds after its parent, when one is due each second, has the easiest target. -/
theorem expectedTarget_slow {k : Hash} {parent : BlockIndexEntry} {timestampMs : U64} (hs : Skeleton datedNode bc)
    (hmining : bc.rules.mining = steepConfig.mining) (hparent : bc.index.get? k = some parent)
    (heasy : parent.height = 0 ∨ parent.shaTarget = easyTarget) (hactive : edaActivationMs ≤ timestampMs)
    (hslow : timestampMs.saturatingSub parent.block.header.timestampMs = 48000) :
    bc.expectedTarget parent timestampMs = .ok easyTarget := by
  have hnot : ¬timestampMs < edaActivationMs := BitVec.not_lt.mpr hactive
  have hhalvings : Difficulty.edaHalvings 48000 steepConfig.mining.targetBlockMs ≠ 0 := by decide
  have hms : steepConfig.mining.targetBlockMs = 1000 := rfl
  obtain ⟨-, base, hbase⟩ : bc.baseTarget parent = bc.baseTarget parent ∧ ∃ t, bc.baseTarget parent = .ok t :=
    baseTarget_eq hs rfl (fun _ _ h => h) hparent
  have heased : (Difficulty.fromTarget base).eda 48000 1000 = 1 := by
    unfold baseTarget at hbase
    rw [hmining] at hbase
    split_ifs at hbase with hlow
    · cases hbase
      exact eda_steep
    dsimp only at hbase
    split_ifs at hbase with hlen
    cases hbase
    have hshort : parent.shaTarget = easyTarget := by
      rcases heasy with h0 | h
      · rw [h0] at hlow
        exact absurd (by decide) hlow
      · exact h
    have hne : (bc.index.walk difficultyWindow parent.block.header.prevHash).reverse ≠ [] := by
      intro hnil
      rw [List.reverse_eq_nil_iff] at hnil
      rw [hnil] at hlen
      exact hlen (by simp [difficultyWindow])
    refine eda_low ((Difficulty.toNat_lwma_le (d := 1) ?_).trans (by decide))
    rw [List.reverse_cons, List.tail_append_of_ne_nil hne, List.map_append, List.map_singleton,
      List.getLast?_append, hshort, fromTarget_easy]
    rfl
  unfold expectedTarget
  rw [hbase]
  dsimp only [bind, Except.bind]
  rw [if_neg hnot, hslow, hmining, if_neg hhalvings, hms, heased]
  rfl

/-! ## One prompt block -/

def steepGenesis : Genesis where
  ledger := .new datedCrypto
  block := steepConfig.block datedCrypto (.new datedCrypto)
  coinbase := steepConfig.coinbase

def steepChain : Blockchain := ofGenesis datedNode steepConfig steepGenesis

theorem new_steepChain : Blockchain.new datedNode steepConfig = .ok steepChain := rfl

theorem fresh_steepChain : Fresh datedNode Dated steepChain := by
  have hclean : steepConfig.Clean Dated := by
    intro a ha
    cases ha
  exact fresh_new hclean new_steepChain

/-- The work of a prompt block. -/
def steepWork : Work := Work.ofTarget steepTarget

/-- The genesis entry. -/
def steepEntry : BlockIndexEntry where
  block := steepGenesis.block
  shaTarget := steepTarget
  chainWork := (0 : Work).saturatingAdd steepWork
  height := 0
  size := steepGenesis.block.serializedSize

theorem get?_steepChain : steepChain.index.get? (steepEntry.block.hash datedCrypto) = some steepEntry :=
  OrdMap.get?_insert_self ..

variable {e : BlockIndexEntry}

theorem eq_of_get?_steepChain {k : Hash} (h : steepChain.index.get? k = some e) :
    steepEntry.block.hash datedCrypto = k ∧ e = steepEntry := by
  have hindex : steepChain.index = OrdMap.empty.insert (steepEntry.block.hash datedCrypto) steepEntry := rfl
  rw [hindex, OrdMap.get?_insert, OrdMap.get?_empty] at h
  split_ifs at h with hk
  cases h
  exact ⟨hk, rfl⟩

theorem genesisHash_steepChain : steepChain.rules.genesisHash = steepEntry.block.hash datedCrypto := by
  have hblock : steepChain.blocks.genesis = steepEntry.block := rfl
  have hnode : datedNode.toCrypto = datedCrypto := rfl
  have hhash := (fresh_steepChain.sound separating_datedCrypto).grounded.skeleton.genesis_hash
  rw [hhash, hblock, hnode]

/-- The block that is active from then on. -/
def promptBlock : Block := emptyBlock steepGenesis.block (edaActivationMs + 1000) steepTarget

def promptCandidate : Candidate := ⟨steepTarget, steepEntry.chainWork.saturatingAdd steepWork, 1⟩

/-- The prompt block is active and the only one, and what there is has no transactions and no late timestamp. -/
def promptFacts (bc : Blockchain) : Bool :=
  decide (bc.height = 1 ∧ 1 ≤ bc.undoRing.length ∧
      (bc.index.get? bc.head).map BlockIndexEntry.chainWork = some promptCandidate.newWork) &&
    bc.index.entries.all fun e => decide (e.2.block.transactions = [] ∧
      e.2.block.header.timestampMs.toNat < edaActivationMs.toNat + 48000)

theorem promptFacts_import :
    (importBlockTracked datedNode steepChain promptBlock).toOption.map (fun r => promptFacts r.1) = some true := by
  decide +kernel

/-! ## The branch of late blocks -/

/-- When the `n`-th block of the late branch comes. -/
def lateTime (n : ℕ) : U64 := edaActivationMs + BitVec.ofNat 64 (48000 * n)

variable {n : ℕ} {blocks : List Block}

theorem toNat_lateTime (hn : n ≤ 257) : (lateTime n).toNat = edaActivationMs.toNat + 48000 * n := by
  have hactivation : edaActivationMs.toNat = 1784239200000 := rfl
  rw [lateTime, BitVec.toNat_add, BitVec.toNat_ofNat, Nat.mod_eq_of_lt (a := 48000 * n) (by omega),
    Nat.mod_eq_of_lt (by omega)]

/-- The late branch, from genesis. -/
def lateBlock : ℕ → Block
  | 0 => steepGenesis.block
  | n + 1 => emptyBlock (lateBlock n) (lateTime (n + 1)) easyTarget

theorem timestampMs_lateBlock (n : ℕ) : (lateBlock n).header.timestampMs = lateTime n := by
  cases n with
  | zero => rfl
  | succ n => rfl

theorem prevHash_lateBlock (n : ℕ) : (lateBlock (n + 1)).header.prevHash = (lateBlock n).hash datedCrypto := by
  rw [lateBlock, emptyBlock, prevHash_plainBlock]

/-- The entry of the `n`-th block of the late branch. -/
structure LateTip (n : ℕ) (bc : Blockchain) (e : BlockIndexEntry) : Prop where
  entry : bc.index.get? ((lateBlock n).hash datedCrypto) = some e
  block : e.block = lateBlock n
  height : e.height = n
  work : e.chainWork.toNat = steepWork.toNat + n
  target : e.height = 0 ∨ e.shaTarget = easyTarget

/-- The late branch is indexed up to its `n`-th block, which is the newest of all. -/
structure Late (n : ℕ) (bc : Blockchain) : Prop where
  run : GuardedRun datedNode (Fresh datedNode Dated) (CleanImport datedNode Dated) bc
  rules : bc.rules = steepChain.rules
  pins : bc.checkpoints = .empty
  ledger : bc.genesisLedger = .new datedCrypto
  root : bc.index.get? (steepEntry.block.hash datedCrypto) = some steepEntry
  idle : IdleTree bc
  dated : ∀ {k e}, bc.index.get? k = some e →
    e.block.header.timestampMs.toNat < edaActivationMs.toNat + 48000 * (n + 1)
  tip : ∃ e, LateTip n bc e

theorem newWork_prompt : promptCandidate.newWork.toNat = 1022 := by decide +kernel

theorem steepWork_eq : steepWork.toNat = 511 := by decide +kernel

theorem work_easy : Work.ofTarget easyTarget = 1 := by decide +kernel

/-- The candidate of the next late block. -/
structure LateCandidate (n : ℕ) (cand : Candidate) : Prop where
  target : cand.shaTarget = easyTarget
  work : cand.newWork.toNat = steepWork.toNat + n
  height : cand.height = n

namespace Late
variable {n : ℕ} (h : Late n bc)

include h

theorem sound : Sound datedNode Dated bc :=
  h.run.sound separating_datedCrypto (fun _ => Fresh.sound separating_datedCrypto) fun _ _ h => h

theorem new (hn : n ≤ 256) : bc.index.get? ((lateBlock (n + 1)).hash datedCrypto) = none := by
  refine Option.eq_none_iff_forall_ne_some.mpr fun e he => ?_
  have hhash := h.sound.grounded.skeleton.tree.hash_eq he
  have hdated := h.dated he
  rw [timestampMs_of_hash_eq hhash, timestampMs_lateBlock, toNat_lateTime (by omega)] at hdated
  omega

theorem expectedTarget (hn : n ≤ 256) {e : BlockIndexEntry} (ht : LateTip n bc e) :
    bc.expectedTarget e (lateTime (n + 1)) = .ok easyTarget := by
  have hbefore := toNat_lateTime (n := n) (by omega)
  have hafter := toNat_lateTime (n := n + 1) (by omega)
  have hslow : (lateTime (n + 1)).saturatingSub e.block.header.timestampMs = 48000 := by
    refine BitVec.eq_of_toNat_eq ?_
    rw [BitVec.toNat_saturatingSub, ht.block, timestampMs_lateBlock, hbefore, hafter]
    change _ = 48000
    omega
  refine expectedTarget_slow h.sound.grounded.skeleton (by rw [h.rules]; rfl) ht.entry ht.target ?_ hslow
  rw [BitVec.le_def, hafter]
  omega

theorem validate (hn : n ≤ 256) :
    ∃ cand, bc.validateCandidate datedNode (lateBlock (n + 1)) = .ok (.ok cand) ∧ LateCandidate (n + 1) cand := by
  obtain ⟨e, ht⟩ := h.tip
  have hbefore := toNat_lateTime (n := n) (by omega)
  have hafter := toNat_lateTime (n := n + 1) (by omega)
  have htime : e.block.header.timestampMs < lateTime (n + 1) := by
    rw [ht.block, timestampMs_lateBlock, BitVec.lt_def, hbefore, hafter]
    omega
  have hentry : bc.index.get? (e.block.hash datedCrypto) = some e := by rw [ht.block, ht.entry]
  have hproposer : (⟨"miner.sov"⟩ : AccountId).bytes.length ≤ 64 := by decide
  have hv := validateCandidate_plainBlock ((Ledger.new datedCrypto).stateRoot datedCrypto) h.run.reachable
    (by rw [h.rules]; rfl) h.pins hentry (h.expectedTarget hn ht) (by rw [ht.height]; omega) hproposer htime
  rw [ht.block] at hv
  refine ⟨_, hv, rfl, ?_, by rw [← ht.height]⟩
  dsimp only
  rw [BitVec.toNat_saturatingAdd, ht.work, work_easy, steepWork_eq]
  change min (511 + n + 1) _ = _
  omega

theorem clean : CleanImport datedNode Dated bc (lateBlock (n + 1)) := by
  have hid : (lateBlock (n + 1)).header.proposer.WellFormed := by
    change (⟨"miner.sov"⟩ : AccountId).WellFormed
    decide
  exact h.idle.cleanImport rfl (fits_plainBlock (by decide)) hid

theorem extend {rp : Rebuilt} (hrp : Replay datedNode bc (lateBlock (n + 1)).header.prevHash rp) :
    ∃ r', Rebuilt.extend datedNode bc.rules rp (lateBlock (n + 1)) easyTarget = .ok (.ok r') := by
  have hledger : rp.ledger = Ledger.new datedCrypto := (h.idle.replay hrp).1.trans h.ledger
  have hidle : Idle bc.rules (lateBlock (n + 1)) := ⟨h.idle.budget, rfl⟩
  refine ⟨_, hidle.extend ?_ rfl ?_⟩
  · rw [hledger, lateBlock, emptyBlock, stateRoot_plainBlock]
    rfl
  · rw [hledger, h.rules]
    decide +kernel

theorem next (hn : n ≤ 256) {cand : Candidate} (hcand : LateCandidate (n + 1) cand) {bc' : Blockchain}
    {res : Except ChainError Imported} (himport : importBlockTracked datedNode bc (lateBlock (n + 1)) = .ok (bc', res))
    (ha : Alike bc bc') (hindex : bc'.index = (bc.insertEntry datedNode (lateBlock (n + 1)) cand).index) :
    Late (n + 1) bc' := by
  obtain ⟨hsub, hcases⟩ := get?_insertEntry datedNode cand (h.new hn)
  rw [← hindex] at hsub hcases
  refine ⟨?_, ha.rules.trans h.rules, ha.checkpoints.trans h.pins, ha.ledger.trans h.ledger, hsub h.root,
    ⟨?_, ?_, fun he => ?_⟩, fun he => ?_, ⟨_, by rw [hindex]; exact OrdMap.get?_insert_self .., rfl, hcand.height, hcand.work, .inr hcand.target⟩⟩
  · refine .call h.run (c := .importBlock (lateBlock (n + 1))) ?_ (by rw [ChainCall.run, himport]; rfl)
    intro block hblock
    cases hblock
    exact h.clean
  · rw [ha.rules]
    exact h.idle.budget
  · rw [ha.genesis]
    exact h.idle.genesis
  · rcases hcases he with he | ⟨-, hb, -⟩
    · exact h.idle.bodies he
    · rw [hb]
      rfl
  · rcases hcases he with he | ⟨-, hb, -⟩
    · exact (h.dated he).trans (by omega)
    · rw [hb, timestampMs_lateBlock, toNat_lateTime (by omega)]
      omega

/-- The next late block is stored or adopted, or its branch is too long to be undone. -/
theorem import_cases (hn : n ≤ 256) : ∃ cand, LateCandidate (n + 1) cand ∧
      ((∃ ring, importBlockTracked datedNode bc (lateBlock (n + 1)) =
            .ok ({ bc.insertEntry datedNode (lateBlock (n + 1)) cand with undoRing := ring }, .ok .empty) ∧
          (lateBlock (n + 1)).header.prevHash ≠ bc.head ∧
          ∀ {fork blocks}, bc.coveredFork datedNode (lateBlock (n + 1)) = some (fork, blocks) →
            blocks.length ≤ reorgUndoWindow ∧ bc.height - fork ≤ ring.length) ∨
        (∃ bc' res, importBlockTracked datedNode bc (lateBlock (n + 1)) = .ok (bc', res) ∧ Alike bc bc' ∧
          bc'.index = (bc.insertEntry datedNode (lateBlock (n + 1)) cand).index ∧
          bc'.head = (lateBlock (n + 1)).hash datedCrypto ∧
          ((lateBlock (n + 1)).header.prevHash = bc.head ∨ ∃ head, bc.index.get? bc.head = some head ∧
            beats cand.newWork ((lateBlock (n + 1)).hash datedCrypto) head.chainWork bc.head = true)) ∨
        ∃ fork blocks, bc.coveredFork datedNode (lateBlock (n + 1)) = some (fork, blocks) ∧
          reorgUndoWindow < blocks.length ∧
          importBlockTracked datedNode bc (lateBlock (n + 1)) = .error .undoRingExhausted) := by
  obtain ⟨cand, hv, hcand⟩ := h.validate hn
  refine ⟨cand, hcand, ?_⟩
  have hextend : ∀ {cand' parent rp}, Probed datedNode Dated bc (lateBlock (n + 1)) cand' parent rp →
      cand' = cand ∧ ∃ r', Rebuilt.extend datedNode bc.rules rp (lateBlock (n + 1)) cand'.shaTarget = .ok (.ok r') := by
    intro cand' parent rp hp
    obtain rfl : cand' = cand := by
      have := hp.valid.valid.symm.trans hv
      injection this with this
      injection this
    exact ⟨rfl, by rw [hcand.target]; exact h.extend hp.replay⟩
  have hout := importBlockTracked_outcome separating_datedCrypto h.sound h.clean
  generalize importBlockTracked datedNode bc (lateBlock (n + 1)) = result at hout ⊢
  cases hout with
  | known hknown =>
    have hnode : datedNode.toCrypto = datedCrypto := rfl
    rw [hnode, h.new hn] at hknown
    cases hknown
  | invalid _ hinvalid => cases hinvalid.symm.trans hv
  | panicked hp hx | rejected hp hx _ =>
    obtain ⟨-, r', hr'⟩ := hextend hp
    cases hx.symm.trans hr'
  | @stored cand' _ _ _ _ ring hp _ hprev _ _ hreach _ =>
    obtain ⟨rfl, -⟩ := hextend hp
    exact .inl ⟨ring, rfl, hprev, hreach⟩
  | @adopted cand' _ _ r' ring d _ hp hx hbest _ =>
    obtain ⟨rfl, -⟩ := hextend hp
    exact .inr (.inl ⟨_, _, rfl, alike_adopted hp.replay hx, rfl, rfl, hbest⟩)
  | exhausted hfork hlong => exact .inr (.inr ⟨_, _, hfork, hlong, rfl⟩)

end Late

/-- The prompt block is active, and `n` late blocks are stored. -/
structure Lagging (n : ℕ) (bc : Blockchain) : Prop extends Late n bc where
  height : bc.height = 1
  work : ∃ head, bc.index.get? bc.head = some head ∧ head.chainWork = promptCandidate.newWork
  ring : 1 ≤ bc.undoRing.length
  branch : ∃ bs, Links bc.index bc.rules.genesisHash bc.rules.genesisHash bs ((lateBlock n).hash datedCrypto) ∧
    bs.length = n ∧ ∀ b ∈ bs, ∀ i, bc.isActive datedCrypto i (b.hash datedCrypto) = false

namespace Lagging
variable {n : ℕ} (h : Lagging n bc)

include h

theorem coveredFork :
    ∃ bs, bc.coveredFork datedNode (lateBlock (n + 1)) = some (0, bs ++ [lateBlock (n + 1)]) ∧ bs.length = n := by
  obtain ⟨e, ht⟩ := h.tip
  obtain ⟨bs, hlinks, hlength, haside⟩ := h.branch
  have hskel := h.sound.grounded.skeleton
  obtain ⟨e0, he0, -, h0⟩ := hskel.tree.root
  have hactive : bc.isActive datedCrypto e0.height bc.rules.genesisHash = true := by
    rw [h0, hskel.genesis_hash]
    exact Skeleton.isActive_genesis
  have hlen : bs.length < bc.index.entries.length := by
    have hlow := hskel.tree.height_lt_length ht.entry
    rw [ht.height, ← hlength] at hlow
    exact hlow
  have hfork : bc.locateFork datedCrypto (lateBlock (n + 1)) = some (0, bs ++ [lateBlock (n + 1)]) := by
    rw [locateFork, prevHash_lateBlock, ← h0]
    exact hskel.findFork_of_links hlinks (by rw [hskel.genesis_hash]; exact he0) hactive haside hlen
  refine ⟨bs, ?_, hlength⟩
  unfold Blockchain.coveredFork
  change (bc.locateFork datedCrypto _).filter _ = _
  rw [hfork, Option.filter_some, h.height]
  have hring := h.ring
  simp [hring]

theorem not_best (hn : n ≤ 256) {cand : Candidate} (hcand : LateCandidate (n + 1) cand) :
    ¬((lateBlock (n + 1)).header.prevHash = bc.head ∨ ∃ head, bc.index.get? bc.head = some head ∧
      beats cand.newWork ((lateBlock (n + 1)).hash datedCrypto) head.chainWork bc.head = true) := by
  obtain ⟨head, hhead, hheadWork⟩ := h.work
  obtain ⟨e, ht⟩ := h.tip
  have hheavy : head.chainWork.toNat = 1022 := by rw [hheadWork, newWork_prompt]
  have hwork := hcand.work
  rw [steepWork_eq] at hwork
  rintro (hprev | ⟨head', hhead', hbeats⟩)
  · rw [← hprev, prevHash_lateBlock, ht.entry] at hhead
    cases hhead
    have := ht.work
    rw [steepWork_eq] at this
    omega
  · cases hhead.symm.trans hhead'
    have hcases : head.chainWork < cand.newWork ∨ (cand.newWork = head.chainWork ∧ _) := of_decide_eq_true hbeats
    rcases hcases with hlt | ⟨heq, -⟩
    · rw [BitVec.lt_def] at hlt
      omega
    · rw [heq] at hwork
      omega

theorem step (hn : n < 256) :
    ∃ bc', importBlockTracked datedNode bc (lateBlock (n + 1)) = .ok (bc', .ok .empty) ∧ Lagging (n + 1) bc' := by
  obtain ⟨bs, hfork, hlen⟩ := h.coveredFork
  have hblocks : (bs ++ [lateBlock (n + 1)]).length = n + 1 := by rw [length_append, hlen, List.length_singleton]
  have hwindow : reorgUndoWindow = 256 := rfl
  obtain ⟨cand, hcand, ⟨ring, himport, -, hreach⟩ | ⟨-, -, -, -, -, -, hbest⟩ | ⟨fork, blocks, hfork', hlong, -⟩⟩ :=
    h.import_cases hn.le
  · have hnew := h.new hn.le
    have hskel := h.sound.grounded.skeleton
    obtain ⟨hsub, -⟩ := get?_insertEntry datedNode cand hnew
    obtain ⟨head, hhead, hheadWork⟩ := h.work
    obtain ⟨bs, hlinks, hlength, haside⟩ := h.branch
    have hself : (bc.insertEntry datedNode (lateBlock (n + 1)) cand).index.get? ((lateBlock (n + 1)).hash datedCrypto) =
        some ⟨lateBlock (n + 1), cand.shaTarget, cand.newWork, cand.height, (lateBlock (n + 1)).serializedSize⟩ :=
      OrdMap.get?_insert_self ..
    have hoff : ∀ i, bc.isActive datedCrypto i ((lateBlock (n + 1)).hash datedCrypto) = false := by
      intro i
      rw [Bool.eq_false_iff]
      intro hactive
      obtain ⟨low, high, hlow, -⟩ := hskel.isActive_split hactive
      obtain ⟨e0, he0, -⟩ := hskel.tree.root
      obtain ⟨e', he', -⟩ := hlow.height hskel.tree he0
      rw [hnew] at he'
      cases he'
    have hgenesis : (lateBlock (n + 1)).hash datedCrypto ≠ bc.rules.genesisHash := by
      intro heq
      obtain ⟨e0, he0, -⟩ := hskel.tree.root
      rw [hskel.genesis_hash] at heq
      rw [heq] at hnew
      cases hnew.symm.trans he0
    have hring := (hreach hfork).2
    rw [h.height] at hring
    refine ⟨_, himport, h.next hn.le hcand himport ⟨rfl, rfl, rfl, rfl, rfl⟩ rfl, h.height, ⟨head, hsub hhead, hheadWork⟩,
      hring, bs ++ [lateBlock (n + 1)], ?_, ?_, ?_⟩
    · exact .snoc (hlinks.mono fun _ _ he => hsub he) hself (prevHash_lateBlock n) hgenesis
    · rw [length_append, hlength, List.length_singleton]
    intro b hb i
    rcases List.mem_append.mp hb with hb | hb
    · exact haside b hb i
    · rw [List.mem_singleton.mp hb]
      exact hoff i
  · exact absurd hbest (h.not_best hn.le hcand)
  · cases hfork.symm.trans hfork'
    rw [hblocks, hwindow] at hlong
    omega

end Lagging

theorem Lagging.exhausted (h : Lagging 256 bc) :
    importBlockTracked datedNode bc (lateBlock 257) = .error .undoRingExhausted := by
  obtain ⟨bs, hfork, hlen⟩ := h.coveredFork
  obtain ⟨cand, hcand, ⟨ring, -, -, hreach⟩ | ⟨-, -, -, -, -, -, hbest⟩ | ⟨-, -, -, -, himport⟩⟩ := h.import_cases le_rfl
  · have hshort := (hreach hfork).1
    rw [length_append, hlen, List.length_singleton] at hshort
    exact absurd hshort (by decide)
  · exact absurd hbest (h.not_best le_rfl hcand)
  · exact himport

theorem idleTree_steepChain : IdleTree steepChain where
  budget := rfl
  genesis := rfl
  bodies he := by
    rw [(eq_of_get?_steepChain he).2]
    rfl

theorem exists_prompt :
    ∃ bc res, importBlockTracked datedNode steepChain promptBlock = .ok (bc, res) ∧ Lagging 0 bc := by
  have hclean : CleanImport datedNode Dated steepChain promptBlock :=
    idleTree_steepChain.cleanImport rfl (fits_plainBlock (by decide)) (by decide)
  obtain ⟨⟨bc, res⟩, himport, hfacts⟩ := Option.map_eq_some_iff.mp promptFacts_import
  replace himport := Runtime.eq_ok_of_toOption himport
  obtain ⟨hbc, hall⟩ := Bool.and_eq_true_iff.mp hfacts
  obtain ⟨hheight, hring, hwork⟩ := of_decide_eq_true hbc
  have hentry : ∀ {k e}, bc.index.get? k = some e →
      e.block.transactions = [] ∧ e.block.header.timestampMs.toNat < edaActivationMs.toNat + 48000 := by
    intro k e he
    exact of_decide_eq_true (List.all_eq_true.mp hall (k, e) (OrdMap.get?_eq_some_iff.mp he))
  have hsetup := setup_importBlockTracked himport
  have hrules : bc.rules = steepChain.rules := congrArg Setup.rules hsetup
  have hroot : bc.index.get? (steepEntry.block.hash datedCrypto) = some steepEntry := by
    have hskel := (fresh_steepChain.sound separating_datedCrypto).grounded.skeleton
    rcases importBlockTracked_index hskel himport with hsame | ⟨cand, -, -, hnew, hindex⟩
    · rw [hsame, get?_steepChain]
    · rw [hindex]
      exact (get?_insertEntry datedNode cand hnew).1 get?_steepChain
  obtain ⟨head, hhead, hheadWork⟩ := Option.map_eq_some_iff.mp hwork
  refine ⟨bc, res, himport, ⟨?_, hrules, congrArg Setup.checkpoints hsetup, congrArg Setup.genesisLedger hsetup, hroot,
    ⟨?_, ?_, ?_⟩, ?_, steepEntry, hroot, rfl, rfl, ?_, .inl rfl⟩, hheight, ⟨head, hhead, hheadWork⟩, hring, [], ?_, rfl,
    fun b hb => absurd hb not_mem_nil⟩
  · refine .call (.start fresh_steepChain) (c := .importBlock promptBlock) ?_ (by rw [ChainCall.run, himport]; rfl)
    intro block hblock
    cases hblock
    exact hclean
  · rw [hrules]
    rfl
  · exact congrArg (fun s => s.genesis.transactions) hsetup
  · exact fun he => (hentry he).1
  · exact fun he => (hentry he).2
  · decide +kernel
  · have hblock : lateBlock 0 = steepEntry.block := rfl
    rw [hrules, genesisHash_steepChain, hblock]
    exact .nil

/-- The blocks of the late branch above genesis, oldest first. -/
def lateBlocks (n : ℕ) : List Block := (List.range n).map fun i => lateBlock (i + 1)

theorem lateBlocks_succ (n : ℕ) : lateBlocks (n + 1) = lateBlocks n ++ [lateBlock (n + 1)] := by
  rw [lateBlocks, List.range_succ, List.map_append, List.map_singleton, ← lateBlocks]

/-- The late branch can be stored up to its 256th block. -/
theorem exists_lagging (hn : n ≤ 256) :
    ∃ bc, importAll datedNode steepChain (promptBlock :: lateBlocks n) = .ok bc ∧ Lagging n bc := by
  induction n with
  | zero =>
    obtain ⟨bc, res, hprompt, h⟩ := exists_prompt
    exact ⟨bc, importAll_cons_of_ok hprompt, h⟩
  | succ n ih =>
    obtain ⟨bc, hrun, h⟩ := ih (by omega)
    obtain ⟨bc', himport, h'⟩ := h.step (by omega)
    refine ⟨bc', ?_, h'⟩
    rw [lateBlocks_succ, ← List.cons_append, importAll_append, hrun]
    exact importAll_cons_of_ok himport

/-! ## The late blocks first -/

theorem length_of_coveredFork {block : Block} {fork : ℕ} (hs : Skeleton datedCrypto bc)
    (hparent : bc.index.get? block.header.prevHash = some e)
    (hactive : bc.isActive datedCrypto e.height block.header.prevHash = true)
    (hfork : bc.coveredFork datedNode block = some (fork, blocks)) : blocks.length = 1 := by
  have hlen : ([] : List Block).length < bc.index.entries.length :=
    (Nat.zero_le _).trans_lt (hs.tree.height_lt_length hparent)
  have hlocate : bc.locateFork datedCrypto block = some (e.height, [] ++ [block]) :=
    hs.findFork_of_links (g := bc.rules.genesisHash) .nil hparent hactive (fun b hb => absurd hb not_mem_nil) hlen
  unfold Blockchain.coveredFork at hfork
  change (bc.locateFork datedCrypto _).filter _ = _ at hfork
  rw [hlocate, Option.filter_eq_some_iff] at hfork
  cases hfork.1
  rfl

/-- The `n` late blocks are active. -/
structure Leading (n : ℕ) (bc : Blockchain) : Prop extends Late n bc where
  head : bc.head = (lateBlock n).hash datedCrypto

theorem Leading.coveredFork_short {fork : ℕ} (h : Leading n bc)
    (hfork : bc.coveredFork datedNode (lateBlock (n + 1)) = some (fork, blocks)) : blocks.length ≤ reorgUndoWindow := by
  have hprev : (lateBlock (n + 1)).header.prevHash = bc.head := by rw [prevHash_lateBlock, h.head]
  obtain ⟨e, ht⟩ := h.tip
  have hhead : bc.index.get? bc.head = some e := by rw [h.head, ht.entry]
  have hskel := h.sound.grounded.skeleton
  have hactive : bc.isActive datedCrypto e.height bc.head = true := hskel.isActive_head hhead
  rw [← hprev] at hhead hactive
  rw [length_of_coveredFork hskel hhead hactive hfork]
  decide

theorem Leading.step (h : Leading n bc) (hn : n ≤ 256) :
    ∃ bc' res, importBlockTracked datedNode bc (lateBlock (n + 1)) = .ok (bc', res) ∧ Leading (n + 1) bc' := by
  have hprev : (lateBlock (n + 1)).header.prevHash = bc.head := by rw [prevHash_lateBlock, h.head]
  obtain ⟨cand, hcand, ⟨-, -, hne, -⟩ | ⟨bc', res, himport, ha, hindex, hhead, -⟩ | ⟨fork, blocks, hfork, hlong, -⟩⟩ :=
    h.import_cases hn
  · exact absurd hprev hne
  · exact ⟨bc', res, himport, h.next hn hcand himport ha hindex, hhead⟩
  · exact absurd (h.coveredFork_short hfork) (by omega)

theorem leading_steepChain : Leading 0 steepChain := by
  have hhead : steepChain.head = (lateBlock 0).hash datedCrypto := by
    have hnode : datedNode.toCrypto = datedCrypto := rfl
    rw [steepChain, head_ofGenesis, hnode]
    rfl
  refine ⟨⟨.start fresh_steepChain, rfl, rfl, rfl, get?_steepChain, idleTree_steepChain, fun he => ?_,
    ⟨steepEntry, get?_steepChain, rfl, rfl, ?_, .inl rfl⟩⟩, hhead⟩
  · rw [(eq_of_get?_steepChain he).2]
    decide
  · decide +kernel

/-- The late branch can be extended to its 257th block while it is active. -/
theorem exists_leading (hn : n ≤ 257) :
    ∃ bc, importAll datedNode steepChain (lateBlocks n) = .ok bc ∧ Leading n bc := by
  induction n with
  | zero => exact ⟨_, rfl, leading_steepChain⟩
  | succ n ih =>
    obtain ⟨bc, hrun, h⟩ := ih (by omega)
    obtain ⟨bc', res, himport, h'⟩ := h.step (by omega)
    refine ⟨bc', ?_, h'⟩
    rw [lateBlocks_succ, importAll_append, hrun]
    exact importAll_cons_of_ok himport

theorem Late.manageable_prompt (h : Late n bc) : Manageable datedNode Dated bc promptBlock := by
  have hskel := h.sound.grounded.skeleton
  have hblock : steepEntry.block = steepGenesis.block := rfl
  have hgenesis : bc.rules.genesisHash = steepEntry.block.hash datedCrypto := by
    rw [h.rules, genesisHash_steepChain]
  have hprev : promptBlock.header.prevHash = steepEntry.block.hash datedCrypto := by
    rw [promptBlock, emptyBlock, prevHash_plainBlock, hblock]
  have hparent : bc.index.get? promptBlock.header.prevHash = some steepEntry := by rw [hprev, h.root]
  refine ⟨h.idle.cleanImport rfl (fits_plainBlock (by decide)) (by decide), fun hfork => ?_, fun hp ht => ?_⟩
  · have hactive : bc.isActive datedCrypto steepEntry.height promptBlock.header.prevHash = true := by
      rw [hprev, ← hgenesis, hskel.genesis_hash]
      exact Skeleton.isActive_genesis
    rw [length_of_coveredFork hskel hparent hactive hfork]
    decide
  · have htarget : bc.expectedTarget steepEntry promptBlock.header.timestampMs = .ok steepTarget := by
      rw [expectedTarget_early (by decide) (by rw [h.rules]; decide), h.rules]
      rfl
    cases hp.symm.trans hparent
    cases ht.symm.trans htarget
    decide +kernel

theorem Late.manageable_late (h : Late n bc) (hn : n ≤ 256)
    (hshort : ∀ {fork blocks}, bc.coveredFork datedNode (lateBlock (n + 1)) = some (fork, blocks) →
      blocks.length ≤ reorgUndoWindow) : Manageable datedNode Dated bc (lateBlock (n + 1)) := by
  refine ⟨h.clean, hshort, fun hp ht => ?_⟩
  obtain ⟨e, htip⟩ := h.tip
  rw [prevHash_lateBlock, htip.entry] at hp
  cases hp
  rw [timestampMs_lateBlock, h.expectedTarget hn htip] at ht
  cases ht
  have hwork : (Work.ofTarget easyTarget).toNat = 1 := by rw [work_easy]; rfl
  rw [htip.work, steepWork_eq, hwork]
  omega

theorem Late.import_prompt (h : Late n bc) :
    ∃ bc' res, importBlockTracked datedNode bc promptBlock = .ok (bc', res) := by
  have hidle : Idle bc.rules promptBlock := ⟨h.idle.budget, rfl⟩
  have hout := importBlockTracked_outcome separating_datedCrypto h.sound h.manageable_prompt.clean
  generalize importBlockTracked datedNode bc promptBlock = result at hout ⊢
  cases hout with
  | known _ => exact ⟨_, _, rfl⟩
  | invalid _ _ => exact ⟨_, _, rfl⟩
  | panicked hp hx => exact absurd hx hidle.extend_ne_error
  | rejected _ _ _ => exact ⟨_, _, rfl⟩
  | stored _ _ _ _ _ _ _ => exact ⟨_, _, rfl⟩
  | adopted _ _ _ _ => exact ⟨_, _, rfl⟩
  | exhausted hfork hlong => exact absurd (h.manageable_prompt.short hfork) (by omega)

/-- The same blocks in two orders: with the prompt block first the node panics at the last late block, with the prompt
block last every import returns. -/
theorem import_order_decides_panic : (promptBlock :: lateBlocks 257).Perm (lateBlocks 257 ++ [promptBlock]) ∧
      importAll datedNode steepChain (promptBlock :: lateBlocks 257) = .error .undoRingExhausted ∧
      ∃ bc, importAll datedNode steepChain (lateBlocks 257 ++ [promptBlock]) = .ok bc := by
  refine ⟨(List.perm_append_singleton _ _).symm, ?_, ?_⟩
  · obtain ⟨bc, hrun, h⟩ := exists_lagging le_rfl
    rw [lateBlocks_succ, ← List.cons_append, importAll_append, hrun]
    exact importAll_cons_of_error h.exhausted
  · obtain ⟨bc, hrun, h⟩ := exists_leading le_rfl
    obtain ⟨bc', res, himport⟩ := h.import_prompt
    refine ⟨bc', ?_⟩
    rw [importAll_append, hrun]
    exact importAll_cons_of_ok himport

theorem managed_prompt_late : Managed datedNode Dated steepChain [promptBlock, lateBlock 1] := by
  refine ⟨leading_steepChain.manageable_prompt, fun himport => ⟨?_, fun _ => trivial⟩⟩
  obtain ⟨bc, res, hprompt, h⟩ := exists_prompt
  cases himport.symm.trans hprompt
  refine h.manageable_late (Nat.zero_le _) fun hfork => ?_
  obtain ⟨bs, hfork', hlen⟩ := h.coveredFork
  cases hfork.symm.trans hfork'
  rw [length_append, hlen]
  decide

theorem managed_late_prompt : Managed datedNode Dated steepChain [lateBlock 1, promptBlock] := by
  refine ⟨leading_steepChain.manageable_late (Nat.zero_le _) leading_steepChain.coveredFork_short,
    fun himport => ⟨?_, fun _ => trivial⟩⟩
  obtain ⟨bc', res, himport', h⟩ := leading_steepChain.step (Nat.zero_le _)
  cases himport.symm.trans himport'
  exact h.manageable_prompt

theorem parentsFirst_siblings {l : List Block} (hprev : ∀ b ∈ l, b.header.prevHash = steepEntry.block.hash datedCrypto)
    (htime : ∀ b ∈ l, b.header.timestampMs ≠ steepEntry.block.header.timestampMs) : ParentsFirst datedCrypto l := by
  intro xs b zs hsplit c hc hhash
  have hb : b ∈ l := hsplit ▸ List.mem_append_right _ List.mem_cons_self
  rw [hprev b hb] at hhash
  exact absurd (timestampMs_of_hash_eq hhash) (htime c hc)

theorem apart_prompt_late : Apart datedCrypto steepChain.blocks.genesis [promptBlock, lateBlock 1] := by
  have hgenesis : steepChain.blocks.genesis = steepEntry.block := rfl
  have htimes : ∀ a ∈ [steepEntry.block, promptBlock, lateBlock 1], ∀ b ∈ [steepEntry.block, promptBlock, lateBlock 1],
      a.header.timestampMs = b.header.timestampMs → a = b := by
    intro a ha b hb h
    simp only [mem_cons, not_mem_nil, or_false] at ha hb
    rcases ha with rfl | rfl | rfl <;> rcases hb with rfl | rfl | rfl <;> first | rfl | exact absurd h (by decide)
  have hpos : ∀ a ∈ [steepEntry.block, promptBlock, lateBlock 1], a.hash datedCrypto ≠ steepEntry.block.header.prevHash := by
    intro a ha
    rw [hash_dated]
    simp only [mem_cons, not_mem_nil, or_false] at ha
    rcases ha with rfl | rfl | rfl
    · decide
    · decide
    · decide
  rw [hgenesis]
  exact ⟨fun a ha b hb h => htimes a ha b hb (timestampMs_of_hash_eq h), hpos⟩

/-- Two siblings lead to one head, whichever comes first. -/
theorem prompt_and_late_converge : ∃ bc₁ bc₂, importAll datedNode steepChain [promptBlock, lateBlock 1] = .ok bc₁ ∧
      importAll datedNode steepChain [lateBlock 1, promptBlock] = .ok bc₂ ∧ bc₁.head = bc₂.head := by
  have hprompt : promptBlock.header.prevHash = steepEntry.block.hash datedCrypto := by
    have hblock : steepEntry.block = steepGenesis.block := rfl
    rw [promptBlock, emptyBlock, prevHash_plainBlock, hblock]
  have hlate : (lateBlock 1).header.prevHash = steepEntry.block.hash datedCrypto := by
    have hblock : lateBlock 0 = steepEntry.block := rfl
    rw [prevHash_lateBlock, hblock]
  have hprev : ∀ b ∈ [promptBlock, lateBlock 1], b.header.prevHash = steepEntry.block.hash datedCrypto := by
    intro b hb
    simp only [mem_cons, not_mem_nil, or_false] at hb
    rcases hb with rfl | rfl
    · exact hprompt
    · exact hlate
  have htime : ∀ b ∈ [promptBlock, lateBlock 1], b.header.timestampMs ≠ steepEntry.block.header.timestampMs := by
    intro b hb
    simp only [mem_cons, not_mem_nil, or_false] at hb
    rcases hb with rfl | rfl
    · decide
    · decide
  have hswap : ∀ b ∈ [lateBlock 1, promptBlock], b ∈ [promptBlock, lateBlock 1] :=
    fun b hb => (List.Perm.swap promptBlock (lateBlock 1) []).mem_iff.mp hb
  have hne : promptBlock ≠ lateBlock 1 := by
    intro h
    have : promptBlock.header.timestampMs = (lateBlock 1).header.timestampMs := by rw [h]
    exact absurd this (by decide)
  have hnodup : [promptBlock, lateBlock 1].Nodup := by simp [hne]
  have hfirst := parentsFirst_siblings hprev htime
  have hsecond : ParentsFirst datedCrypto [lateBlock 1, promptBlock] :=
    parentsFirst_siblings (fun b hb => hprev b (hswap b hb)) fun b hb => htime b (hswap b hb)
  obtain ⟨⟨herr, -⟩ | ⟨bc₁, bc₂, h1, h2, hhead, -⟩, -⟩ :=
    fork_choice_converges separating_datedCrypto ⟨_, fresh_steepChain, rfl⟩ apart_prompt_late hnodup (List.Perm.swap _ _ _)
      hfirst hsecond managed_prompt_late managed_late_prompt
  · obtain ⟨bc, hrun, -⟩ := exists_lagging (n := 1) (by decide)
    cases herr.symm.trans hrun
  · exact ⟨bc₁, bc₂, h1, h2, hhead⟩

end Blockchain
end Sov
