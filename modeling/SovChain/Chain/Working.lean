import SovChain.Chain.ReceiptIndex
import SovChain.Chain.Tree

/-!
# What an import works on

An import works on the ledger, the active blocks, their signals and receipts, and the journals: it executes a block on
top, with a journal, takes back one that is not accepted, takes accepted ones off, newest first, and puts indexed ones
on again; or it puts a branch that was replayed from genesis in the place of the active one. What each of these steps
carries over is carried over by an import (`Carried.import`), and so to every reachable chain (`Carried.reachable`).
-/

namespace Sov
open Sov.Runtime (bind_eq_ok)

/-! ## Heights -/

/-- Blocks with the heights after `n`, one after the other. -/
def Climbs : ℕ → List Block → Prop
  | _, [] => True
  | n, b :: rest => b.header.height.toNat = n + 1 ∧ Climbs (n + 1) rest

variable {bs : List Block} {index : BlockIndex}

theorem climbs_append {n : ℕ} {cs : List Block} : Climbs n (bs ++ cs) ↔ Climbs n bs ∧ Climbs (n + bs.length) cs := by
  induction bs generalizing n with
  | nil => simp [Climbs]
  | cons b rest ih =>
    rw [List.cons_append, Climbs, Climbs, ih, List.length_cons, and_assoc, Nat.add_right_comm, Nat.add_assoc]

theorem climbs_snoc {n : ℕ} {b : Block} :
    Climbs n (bs ++ [b]) ↔ Climbs n bs ∧ b.header.height.toNat = n + bs.length + 1 := by
  rw [climbs_append]
  exact and_congr_right fun _ => ⟨And.left, fun h => ⟨h, trivial⟩⟩

theorem BlockIndex.Links.climbs {C : Crypto} {genesis : Block} {a k : Hash}
    {ea : BlockIndexEntry} (ht : Tree C genesis index) (h : Links index (genesis.hash C) a bs k)
    (ha : index.get? a = some ea) : Climbs ea.height bs := by
  induction h with
  | nil => trivial
  | @snoc bs p k e hbs he hp hk ih =>
    obtain ⟨e', he', hlen⟩ := (Links.snoc hbs he hp hk).height ht ha
    cases he.symm.trans he'
    refine climbs_snoc.mpr ⟨ih, ?_⟩
    rw [ht.height_eq he, hlen, List.length_append, List.length_singleton, Nat.add_assoc]

/-- The heights of a branch count from genesis. -/
theorem BlockIndex.Links.climbs_zero {C : Crypto} {genesis : Block} {k : Hash}
    (ht : Tree C genesis index) (h : Links index (genesis.hash C) (genesis.hash C) bs k) : Climbs 0 bs := by
  obtain ⟨e0, he0, -, h0⟩ := ht.root
  have hclimbs := h.climbs ht he0
  rwa [h0] at hclimbs

namespace ActiveChain

theorem length_below_extend (c : ActiveChain) (bs : List Block) :
    (c.extend bs).below.length = c.below.length + bs.length := by
  have hlen := congrArg List.length (toList_extend (c := c) bs)
  rw [length_toList, List.length_append, length_toList] at hlen
  omega

theorem tail_push (c : ActiveChain) (b : Block) : (c.push b).toList.tail = c.toList.tail ++ [b] := by
  rw [toList_push, List.tail_append_of_ne_nil c.toList_ne_nil]

theorem tail_extend (c : ActiveChain) (bs : List Block) : (c.extend bs).toList.tail = c.toList.tail ++ bs := by
  rw [toList_extend, List.tail_append_of_ne_nil c.toList_ne_nil]

theorem tail_extend_genesis (genesis : Block) (bs : List Block) : (extend ⟨genesis, []⟩ bs).toList.tail = bs := by
  rw [tail_extend]
  rfl

theorem length_tail (c : ActiveChain) : c.toList.tail.length = c.below.length := by
  rw [List.length_tail, length_toList, Nat.add_sub_cancel]

theorem climbs_push {c : ActiveChain} {b : Block} :
    Climbs 0 (c.push b).toList.tail ↔ Climbs 0 c.toList.tail ∧ b.header.height.toNat = c.below.length + 1 := by
  rw [tail_push, climbs_snoc, length_tail, Nat.zero_add]

end ActiveChain

/-- What blocks are executed on and taken back from. -/
structure Working where
  rules : Rules
  genesisLedger : Ledger
  ledger : Ledger
  blocks : ActiveChain
  signals : SignalLog
  receipts : ReceiptIndex
  undoRing : List UndoEntry

namespace Blockchain
open BlockIndex (Links Tree)

def working (bc : Blockchain) : Working :=
  ⟨bc.rules, bc.genesisLedger, bc.ledger, bc.blocks, bc.signals, bc.receiptIndex, bc.undoRing⟩

variable {bc bc' : Blockchain}

theorem working_syncActiveDifficulty (h : bc.syncActiveDifficulty = .ok bc') : bc'.working = bc.working := by
  obtain ⟨head, target, -, -, rfl⟩ := syncActiveDifficulty_eq_ok h
  rfl

/-- The chain with its newest block taken off, by the newest journal. -/
def disconnected (C : Crypto) (bc : Blockchain) (u : UndoEntry) (ring : List UndoEntry) (b : Block)
    (blocks : ActiveChain) : Blockchain :=
  withReceipts
    { bc with
      blocks
      ledger := bc.ledger.applyUndo C u.log
      signals := bc.signals.remove b.header.height.toNat
      undoRing := ring } (bc.receiptIndex.drop u.height)

/-- Where a replay starts. -/
def base (bc : Blockchain) : Rebuilt :=
  { ledger := bc.genesisLedger, activeBlocks := ⟨bc.blocks.genesis, []⟩, signals := .empty
    tipReceipts := [], branchReceipts := [] }

/-- The chain with a replayed branch for its active one. -/
def replayed (bc : Blockchain) (r : Rebuilt) : Blockchain :=
  withReceipts
    { bc with ledger := r.ledger, blocks := r.activeBlocks, signals := r.signals, undoRing := [] }
    (.ofBranch r.branchReceipts)

variable {block : Block} {N : NodeEnv}

theorem working_adoptRebuilt {cand : Candidate} {r : Rebuilt} {res : Except ChainError Imported}
    (h : adoptRebuilt N bc block cand r = .ok (bc', res)) : bc'.working = (bc.replayed r).working := by
  obtain ⟨bc1, hsync, h⟩ := bind_eq_ok.mp h
  obtain ⟨head, target, -, -, rfl⟩ := syncActiveDifficulty_eq_ok hsync
  cases h
  rw [rebuildReceiptIndex_eq]
  rfl

theorem working_of_unpinned (h : bc'.unpinned = bc.unpinned) : bc'.working = bc.working := by
  have hsame : bc'.unpinned.working = bc.unpinned.working := congrArg working h
  exact hsame

/-! ## Steps -/

/-- What each step of an import carries over. `J (some n)` is for a chain whose receipts are indexed up to height `n`
only, as while a side branch is tried; every block that is executed satisfies `G`. -/
structure Carried (N : NodeEnv) (G : Block → Prop) (J : Option ℕ → Working → Prop) : Prop where
  connect : ∀ {seen bc bc' b shaTarget receipts}, J seen (working bc) → G b →
    b.header.height.toNat = bc.blocks.below.length + 1 → connectToActive N bc b shaTarget = .ok (bc', .ok receipts) →
      J (some (seen.getD bc.blocks.below.length)) bc'.working
  connectIndexed : ∀ {bc bc' b shaTarget receipts}, J none (working bc) → G b →
    b.header.height.toNat = bc.blocks.below.length + 1 → connectToActive N bc b shaTarget = .ok (bc', .ok receipts) →
      J none (bc'.indexBlockReceipts b.header.height.toNat receipts).working
  reject : ∀ {seen bc bc' b shaTarget e}, J seen (working bc) →
    connectToActive N bc b shaTarget = .ok (bc', .error e) → J seen bc'.working
  disconnect : ∀ {seen bc u ring b c}, J seen (working bc) → bc.undoRing = u :: ring → bc.blocks = c.push b →
    b.header.height.toNat = c.below.length + 1 → (∀ n ∈ seen, n ≤ c.below.length) →
      J seen (bc.disconnected N.toCrypto u ring b c).working
  conceal : ∀ {bc}, J none (working bc) → J (some bc.blocks.below.length) bc.working
  reveal : ∀ {bc}, J (some (blocks bc).below.length) bc.working → J none bc.working
  rewind : ∀ {bc}, J none (working bc) → J none (bc.replayed bc.base).working
  replay : ∀ {bc r r' b shaTarget}, J none (replayed bc r).working → G b →
    b.header.height.toNat = r.activeBlocks.below.length + 1 → Rebuilt.extend N bc.rules r b shaTarget = .ok (.ok r') →
      J none (bc.replayed r').working

namespace Carried
variable {N : NodeEnv} {G : Block → Prop} {J : Option ℕ → Working → Prop} {bc bc' : Blockchain} {block : Block}
  {cand : Candidate} {parent : BlockIndexEntry} {seen : Option ℕ}

section Operations
variable (inv : Carried N G J) {blocks : List Block}

include inv

theorem disconnectLoop (seen : Option ℕ) {target : ℕ} {ring : List UndoEntry} {taken taken' : List Block}
    (h : J seen { bc with undoRing := ring }.working) (hclimbs : Climbs 0 bc.blocks.toList.tail)
    (hseen : ∀ n ∈ seen, n ≤ target) (hd : disconnectLoop N target ring bc taken = .ok (bc', taken')) :
    J seen bc'.working := by
  induction ring generalizing bc taken with
  | nil =>
    unfold Blockchain.disconnectLoop at hd
    split_ifs at hd
    cases hd
    exact h
  | cons u ring ih =>
    unfold Blockchain.disconnectLoop at hd
    split_ifs at hd with hstop
    · cases hd
      exact h
    dsimp only at hd
    rcases hpop : bc.blocks.pop? with _ | ⟨b, c⟩
    · rw [hpop] at hd
      cases hd
    rw [hpop] at hd
    have hblocks := ActiveChain.pop?_eq_some hpop
    rw [hblocks] at hclimbs
    obtain ⟨hbelow, hheight⟩ := ActiveChain.climbs_push.mp hclimbs
    have htop : bc.height = b.header.height.toNat := by
      rw [height, hblocks]
      rfl
    have hnext : J seen ({ bc with undoRing := u :: ring }.disconnected N u ring b c).working := by
      refine inv.disconnect h rfl hblocks hheight fun n hn => ?_
      have := hseen n hn
      omega
    dsimp only at hd
    rw [forgetReceipts_eq] at hd
    exact ih hnext hbelow hd

theorem reconnectBlocks (h : J none bc.working) (hG : ∀ b ∈ blocks, G b)
    (hclimbs : Climbs bc.blocks.below.length blocks) (hr : blocks.foldlM (reconnectBlock N) bc = .ok bc') :
    J none bc'.working := by
  induction blocks generalizing bc with
  | nil =>
    cases hr
    exact h
  | cons b rest ih =>
    obtain ⟨bc1, hb, hr⟩ := bind_eq_ok.mp hr
    have hblocks : bc1.blocks = bc.blocks.push b := congrArg Outline.blocks (reconnectBlock_outline hb)
    obtain ⟨e, bc2, receipts, -, hc, rfl⟩ := reconnectBlock_eq_ok hb
    have h1 := inv.connectIndexed h (hG b List.mem_cons_self) hclimbs.1 hc
    refine ih h1 (fun b' hb' => hG b' (List.mem_cons_of_mem _ hb')) ?_ hr
    rw [hblocks]
    exact hclimbs.2

/-- Whichever receipts are shown, the blocks below a fork are back once those above it are taken off. -/
theorem restore {fork : ℕ} {old bs : List Block} {c : ActiveChain} (h : J seen bc.working)
    (hblocks : bc.blocks = c.extend bs) (hcount : Climbs 0 bc.blocks.toList.tail) (hlow : c.height ≤ fork)
    (hlen : c.below.length = fork) (hhigh : ∀ b ∈ bs, fork < b.header.height.toNat)
    (hseen : ∀ n ∈ seen, n = fork) (hG : ∀ b ∈ old, G b) (hold : Climbs fork old)
    (hr : restore N bc fork old.reverse = .ok bc') : J none bc'.working := by
  obtain ⟨⟨bc1, taken⟩, hd, hr⟩ := bind_eq_ok.mp hr
  have hdis : Blockchain.disconnectLoop N fork bc.undoRing bc [] = .ok (bc1, taken) := hd
  have hbase : bc1.blocks = c := congrArg Outline.blocks (disconnectLoop_outline hblocks hlow hhigh hdis).1
  have h1 : J seen bc1.working := inv.disconnectLoop seen h hcount (fun n hn => (hseen n hn).le) hdis
  have hshown : J none bc1.working := by
    rcases seen with _ | n
    · exact h1
    · refine inv.reveal ?_
      rw [hbase, hlen, ← hseen n rfl]
      exact h1
  obtain ⟨bc2, hfold, hr⟩ := bind_eq_ok.mp hr
  rw [List.reverse_reverse] at hfold
  have h2 := inv.reconnectBlocks hshown hG (by rwa [hbase, hlen]) hfold
  cases hr
  exact h2

theorem connectBranch {adopt : Bool} {n : ℕ} {outcome : BranchOutcome}
    (h : J (if adopt then none else some n) bc.working) (hG : ∀ b ∈ blocks, G b)
    (hclimbs : Climbs bc.blocks.below.length blocks) (hc : connectBranch N cand adopt bc blocks = .ok (bc', outcome)) :
    J (if adopt then none else some n) bc'.working := by
  induction blocks generalizing bc with
  | nil =>
    cases hc
    exact h
  | cons b rest ih =>
    unfold Blockchain.connectBranch at hc
    dsimp only at hc
    split at hc
    · cases hc
      exact h
    obtain ⟨⟨bc1, r⟩, hconnect, hc⟩ := bind_eq_ok.mp hc
    dsimp only at hc
    split at hc
    · cases hc
      exact inv.reject h hconnect
    rename_i receipts
    generalize hbc2 : (if adopt then bc1.indexBlockReceipts b.header.height.toNat receipts else bc1) = bc2 at hc
    have h2 : J (if adopt then none else some n) bc2.working := by
      rw [← hbc2]
      have hb := hG b List.mem_cons_self
      cases adopt with
      | true => exact inv.connectIndexed h hb hclimbs.1 hconnect
      | false => exact inv.connect h hb hclimbs.1 hconnect
    have hblocks : bc2.blocks = bc.blocks.push b := by
      obtain ⟨L, receipts', undo, -, hbc1⟩ | ⟨L, e, he, -⟩ := connectToActive_eq_ok hconnect
      · rw [← hbc2]
        split_ifs
        · rw [hbc1]
          exact congrArg Outline.blocks (outline_indexBlockReceipts ..)
        · rw [hbc1]
      · cases he
    split at hc
    · cases hc
      exact h2
    · refine ih h2 (fun b' hb' => hG b' (List.mem_cons_of_mem _ hb')) ?_ hc
      rw [hblocks]
      exact hclimbs.2

end Operations
end Carried

/-! ## Forks -/

variable {C : Crypto}

theorem Skeleton.climbs (hs : Skeleton C bc) : Climbs 0 bc.blocks.toList.tail := by
  obtain ⟨bs, hbs, hblocks⟩ := hs.active
  rw [hblocks, ActiveChain.tail_extend_genesis]
  exact hbs.climbs_zero hs.tree

variable {bs : List Block} {low high : List Block}

theorem Forked.active {fork : ℕ} (hs : Skeleton C bc)
    (hf : Forked C bc block fork low high bs) :
    Links bc.index (bc.blocks.genesis.hash C) (bc.blocks.genesis.hash C) (low ++ high) bc.head := by
  obtain ⟨active, hactive, hblocks⟩ := hs.active
  have hsame := congrArg ActiveChain.toList (hblocks.symm.trans hf.blocks_eq)
  rw [← ActiveChain.extend_append, ActiveChain.toList_extend, ActiveChain.toList_extend] at hsame
  exact List.append_cancel_left hsame ▸ hactive

theorem Forked.climbs {cand : Candidate} {parent : BlockIndexEntry} {fork : ℕ}
    (hs : Skeleton N bc) (hv : Validated N bc block cand parent) (hf : Forked N bc block fork low high bs) :
    Climbs 0 (low ++ high) ∧ Climbs 0 (low ++ (bs ++ [block])) := by
  refine ⟨(hf.active hs).climbs_zero hs.tree, ?_⟩
  obtain ⟨e0, he0, -, h0⟩ := hs.tree.root
  obtain ⟨ep, hep, hlen⟩ := hf.base.height hs.tree he0
  rw [hv.parent_eq] at hep
  cases hep
  rw [← List.append_assoc]
  refine climbs_snoc.mpr ⟨hf.base.climbs_zero hs.tree, ?_⟩
  rw [hv.height_eq, hlen, h0]

/-- Every block of the index but genesis satisfies `G`. -/
def IndexedBlocks (G : Block → Prop) (bc : Blockchain) : Prop :=
  ∀ {k e}, bc.index.get? k = some e → k ≠ bc.rules.genesisHash → G e.block

theorem IndexedBlocks.of_links {G : Block → Prop} {a k : Hash} (hG : IndexedBlocks G bc) (hs : Skeleton C bc)
    (h : Links bc.index (bc.blocks.genesis.hash C) a bs k) : ∀ b ∈ bs, G b := by
  induction h with
  | nil =>
    intro b hb
    cases hb
  | snoc _ he _ hk ih =>
    intro b hb
    rcases List.mem_append.mp hb with hb | hb
    · exact ih b hb
    · rw [List.mem_singleton.mp hb]
      exact hG he (hs.genesis_hash ▸ hk)

namespace Carried
variable {N : NodeEnv} {G : Block → Prop} {J : Option ℕ → Working → Prop} {bc bc' : Blockchain} {block : Block}
  {cand : Candidate} {parent : BlockIndexEntry} (inv : Carried N G J) (hs : Skeleton N.toCrypto bc)
  (hv : Validated N bc block cand parent) (hindexed : IndexedBlocks G bc) (hG : G block) (h : J none bc.working)

include inv hs hv hindexed hG h

/-- A branch that is connected above a fork, and what restoring then gives. -/
theorem forked {fork : ℕ} {low high bs old : List Block} {bc1 bc2 : Blockchain} {adopt : Bool}
    {outcome : BranchOutcome} (hf : Forked N bc block fork low high bs) (hd : disconnectTo N bc fork = .ok (bc1, old))
    (hc : Blockchain.connectBranch N cand adopt bc1 (bs ++ [block]) = .ok (bc2, outcome)) :
    J (if adopt then none else some fork) bc2.working ∧
      ∀ bc3, Blockchain.restore N bc2 fork old = .ok bc3 → J none bc3.working := by
  obtain ⟨hhigh, hnew⟩ := hf.climbs hs hv
  have hdis : Blockchain.disconnectLoop N fork bc.undoRing bc [] = .ok (bc1, old) := hd
  obtain ⟨hout1, hold⟩ := disconnectLoop_outline hf.blocks_eq hf.height_eq.le hf.old_above hdis
  have hblocks1 : bc1.blocks = ActiveChain.extend ⟨bc.blocks.genesis, []⟩ low := congrArg Outline.blocks hout1
  have hlen1 : (ActiveChain.extend ⟨bc.blocks.genesis, []⟩ low).below.length = low.length := by
    rw [ActiveChain.length_below_extend]
    exact Nat.zero_add _
  obtain ⟨mid, hlow, hmid⟩ := hf.base.split
  have hlen : low.length = fork := by rw [← hf.height_eq, (path_tip hs.tree hlow).2]
  rw [climbs_append, hlen, Nat.zero_add] at hhigh
  have hbranch : ∀ b ∈ bs ++ [block], G b := by
    intro b hb
    rcases List.mem_append.mp hb with hb | hb
    · exact hindexed.of_links hs hf.base b (List.mem_append_right _ hb)
    · rw [List.mem_singleton.mp hb]
      exact hG
  have hback : ∀ b ∈ high, G b := by
    intro b hb
    exact hindexed.of_links hs (hf.active hs) b (List.mem_append_right _ hb)
  have h1 : J none bc1.working := inv.disconnectLoop none h hs.climbs (fun n hn => by cases hn) hdis
  have hstart : J (if adopt then none else some fork) bc1.working := by
    cases adopt with
    | true => exact h1
    | false =>
      have hhidden := inv.conceal h1
      rw [hblocks1, hlen1, hlen] at hhidden
      exact hhidden
  have hnew' := (climbs_append.mp hnew).2
  rw [hlen, Nat.zero_add] at hnew'
  have h2 := inv.connectBranch hstart hbranch (by rwa [hblocks1, hlen1, hlen]) hc
  refine ⟨h2, fun bc3 hr => ?_⟩
  obtain ⟨done, rest, hsplit, hout2, -⟩ := connectBranch_outline hc
  have hblocks2 : bc2.blocks = (ActiveChain.extend ⟨bc.blocks.genesis, []⟩ low).extend done := by
    rw [← hblocks1]
    exact congrArg Outline.blocks hout2
  have hcount2 : Climbs 0 bc2.blocks.toList.tail := by
    rw [hsplit, ← List.append_assoc] at hnew
    rw [hblocks2, ← ActiveChain.extend_append, ActiveChain.tail_extend_genesis]
    exact (climbs_append.mp hnew).1
  rw [show old = high.reverse by simpa using hold] at hr
  refine inv.restore h2 hblocks2 hcount2 hf.height_eq.le (hlen1.trans hlen)
    (fun b hb => hf.new_above b (hsplit ▸ List.mem_append_left _ hb)) (fun n hn => ?_) hback hhigh.2 hr
  cases adopt with
  | true => cases hn
  | false => exact (Option.some.inj hn).symm

theorem tryIncrementalReorg {r : Option (Except ChainError Imported)}
    (hr : tryIncrementalReorg N bc block cand = .ok (bc', r)) : J none bc'.working := by
  unfold Blockchain.tryIncrementalReorg at hr
  split at hr
  · cases hr
    exact h
  rename_i fork blocks hcovered
  obtain ⟨low, high, bs, rfl, hf⟩ := hs.forked hv hcovered
  obtain ⟨⟨bc1, old⟩, hd, hr⟩ := bind_eq_ok.mp hr
  obtain ⟨⟨bc2, outcome⟩, hc, hr⟩ := bind_eq_ok.mp hr
  dsimp only at hd hc hr
  obtain ⟨hconnected, hrestored⟩ := inv.forked hs hv hindexed hG h hf hd hc
  split at hr
  · obtain ⟨bc3, hback, hr⟩ := bind_eq_ok.mp hr
    cases hr
    exact hrestored _ hback
  · obtain ⟨bc3, hback, hr⟩ := bind_eq_ok.mp hr
    obtain ⟨bc4, hsync, hr⟩ := bind_eq_ok.mp hr
    cases hr
    rw [working_syncActiveDifficulty hsync]
    exact hrestored _ hback
  · obtain ⟨bc3, hsync, hr⟩ := bind_eq_ok.mp hr
    cases hr
    rw [working_syncActiveDifficulty hsync]
    exact hconnected

theorem tryIncrementalSideBranch {r : Option (Except ChainError Unit)}
    (hr : tryIncrementalSideBranch N bc block cand = .ok (bc', r)) : J none bc'.working := by
  unfold Blockchain.tryIncrementalSideBranch at hr
  split at hr
  · cases hr
    exact h
  rename_i fork blocks hcovered
  obtain ⟨low, high, bs, rfl, hf⟩ := hs.forked hv hcovered
  obtain ⟨⟨bc1, old⟩, hd, hr⟩ := bind_eq_ok.mp hr
  obtain ⟨⟨bc2, outcome⟩, hc, hr⟩ := bind_eq_ok.mp hr
  obtain ⟨bc3, hback, hr⟩ := bind_eq_ok.mp hr
  obtain ⟨bc4, hsync, hr⟩ := bind_eq_ok.mp hr
  cases hr
  rw [working_syncActiveDifficulty hsync]
  exact (inv.forked hs hv hindexed hG h hf hd hc).2 _ hback

/-! ## Replaying from genesis -/

omit hs hv hindexed hG h in
theorem replayAncestors {r r' : Rebuilt} {blocks : List Block} (h : J none (bc.replayed r).working)
    (hG : ∀ b ∈ blocks, G b) (hclimbs : Climbs r.activeBlocks.below.length blocks)
    (hr : replayAncestors N bc r blocks = .ok (.ok r')) : J none (bc.replayed r').working := by
  induction blocks generalizing r with
  | nil =>
    cases hr
    exact h
  | cons b rest ih =>
    unfold Blockchain.replayAncestors at hr
    split at hr
    · cases hr
    obtain ⟨x, hx, hr⟩ := bind_eq_ok.mp hr
    split at hr
    · cases hr
    refine ih (inv.replay h (hG b List.mem_cons_self) hclimbs.1 hx)
      (fun b' hb' => hG b' (List.mem_cons_of_mem _ hb')) ?_ hr
    obtain ⟨L, receipts, -, rfl⟩ := Rebuilt.extend_eq_ok hx
    exact hclimbs.2

omit hv in
theorem rebuildBranch {r : Rebuilt} (hparent : bc.index.get? block.header.prevHash = some parent)
    (hheight : block.header.height.toNat = parent.height + 1) (hr : rebuildBranch N bc block cand = .ok (.ok r)) :
    J none (bc.replayed r).working := by
  unfold Blockchain.rebuildBranch at hr
  split at hr
  · cases hr
  rename_i ancestors hanc
  obtain ⟨bs, hbs, happend⟩ := hs.ancestorsOf hanc
  obtain rfl : ancestors = bs := by simpa using happend
  obtain ⟨e0, he0, -, h0⟩ := hs.tree.root
  obtain ⟨ep, hep, hlen⟩ := hbs.height hs.tree he0
  cases hparent.symm.trans hep
  obtain ⟨x, hx, hr⟩ := bind_eq_ok.mp hr
  split at hr
  · cases hr
  have hbelow := inv.replayAncestors (inv.rewind h) (hindexed.of_links hs hbs) (hbs.climbs_zero hs.tree) hx
  refine inv.replay hbelow hG ?_ hr
  have hblocks := replayAncestors_blocks hx
  change _ = ActiveChain.extend ⟨bc.blocks.genesis, []⟩ ancestors at hblocks
  rw [hblocks, ActiveChain.length_below_extend, hheight, hlen, h0]
  rfl

/-! ## Importing -/

variable {res : Except ChainError Imported}

omit hindexed in
theorem importExtending (hprev : block.header.prevHash = bc.head)
    (hi : importExtending N bc block cand = .ok (bc', res)) : J none bc'.working := by
  have hheight : block.header.height.toNat = bc.blocks.below.length + 1 := by
    obtain ⟨head, hhead, htop⟩ := hs.head_entry
    obtain ⟨bs, hbs, hblocks⟩ := hs.active
    rw [← hprev, hv.parent_eq] at hhead
    cases hhead
    rw [hv.height_eq, htop, height, hblocks, (path_tip hs.tree hbs).2, ActiveChain.length_below_extend]
    exact congrArg (· + 1) (Nat.zero_add _).symm
  obtain ⟨⟨bc1, r⟩, hc, hi⟩ := bind_eq_ok.mp hi
  rcases r with e | receipts
  · cases hi
    exact inv.reject h hc
  obtain ⟨bc2, hsync, hi⟩ := bind_eq_ok.mp hi
  have hnext := inv.connectIndexed h hG hheight hc
  obtain ⟨head, target, -, -, rfl⟩ := syncActiveDifficulty_eq_ok hsync
  cases hi
  rw [indexBlockReceipts_eq, hv.height_eq, ← hv.cand_height] at hnext
  rw [indexBlockReceipts_eq]
  exact hnext

theorem importReorganising (hi : importReorganising N bc block cand = .ok (bc', res)) : J none bc'.working := by
  obtain ⟨⟨bc1, r⟩, hr, hi⟩ := bind_eq_ok.mp hi
  have h1 := inv.tryIncrementalReorg hs hv hindexed hG h hr
  rcases r with _ | result
  · obtain ⟨x, hx, hi⟩ := bind_eq_ok.mp hi
    rcases x with e | rebuilt
    · cases hi
      exact h1
    obtain hout | ⟨hsome, -⟩ := tryIncrementalReorg_grows hs hv hr
    · have hrules : bc1.rules = bc.rules := congrArg Setup.rules (setup_tryIncrementalReorg hr)
      have hindex : bc1.index = bc.index := congrArg Outline.index hout
      have hindexed1 : IndexedBlocks G bc1 := fun he hk => hindexed (hindex ▸ he) (hrules ▸ hk)
      have hparent := hv.parent_eq
      rw [← hindex] at hparent
      rw [working_adoptRebuilt hi]
      exact inv.rebuildBranch (hs.congr hrules hout) hindexed1 hG h1 hparent hv.height_eq hx
    · cases hsome
  · cases hi
    exact h1

theorem importSideBranch (hi : importSideBranch N bc block cand = .ok (bc', res)) : J none bc'.working := by
  obtain ⟨⟨bc1, r⟩, hr, hi⟩ := bind_eq_ok.mp hi
  have h1 := inv.tryIncrementalSideBranch hs hv hindexed hG h hr
  rcases r with _ | result
  · obtain ⟨x, -, hi⟩ := bind_eq_ok.mp hi
    rcases x with e | rebuilt
    · cases hi
      exact h1
    · cases hi
      exact h1
  · rcases result with e | u
    · cases hi
      exact h1
    · cases hi
      exact h1

omit hv in
theorem importBlock (hi : importBlockTracked N bc block = .ok (bc', res)) : J none bc'.working := by
  cases importBlockTracked_cases hi with
  | known _ hbc => rwa [hbc]
  | invalid _ _ hbc => rwa [hbc]
  | extending _ hv hprev hx =>
    obtain ⟨parent, hv⟩ := validateCandidate_eq_ok hv
    exact inv.importExtending hs hv hG h hprev hx
  | reorganising _ hv _ _ _ hx =>
    obtain ⟨parent, hv⟩ := validateCandidate_eq_ok hv
    exact inv.importReorganising hs hv hindexed hG h hx
  | side _ hv _ _ _ hx =>
    obtain ⟨parent, hv⟩ := validateCandidate_eq_ok hv
    exact inv.importSideBranch hs hv hindexed hG h hx

end Carried

/-- A chain that calls lead to has what every step carries over, if it had it when it was new. -/
theorem Carried.reachable {J : Option ℕ → Working → Prop} (inv : Carried N (fun _ => True) J)
    (hnew : ∀ {config bc R}, Blockchain.new N config = .ok bc → bc.rules.Redeployed R →
      J none { bc with rules := R }.working) (h : Reachable N bc) : J none bc.working := by
  induction h with
  | new h hR => exact hnew h hR
  | call hreach hrun ih =>
    obtain ⟨block, res, -, hi⟩ | hun := run_cases hrun
    · exact inv.importBlock hreach.skeleton (fun _ _ => trivial) trivial ih hi
    · rwa [working_of_unpinned hun]

end Blockchain
end Sov
