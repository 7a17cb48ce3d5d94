import SovChain.Chain.Live

/-!
# Importing is replaying

A chain is sound if its index is a tree of clean blocks and its live part is what replaying the branch of the
head gives. On a sound chain the import of a clean block does what replaying its branch from genesis says,
whichever of the three ways it takes: the block extends the head, becomes the head of another branch through
the journals or through a replay, or is only stored. The one thing replaying cannot say is how far the
journals reach: a branch that is longer than the ring empties it.
-/

namespace Sov
open Sov.Runtime (bind_eq_ok)
namespace BlockIndex
variable {C : Crypto} {genesis : Block} {index index' : BlockIndex} {k : Hash} {e : BlockIndexEntry}

/-- A walk that stays above genesis finds every parent, also in a larger index. -/
theorem Tree.walk_eq (ht : Tree C genesis index)
    (hsub : ∀ k e, index.get? k = some e → index'.get? k = some e) (he : index.get? k = some e) {n : ℕ}
    (hn : n ≤ e.height + 1) : index'.walk n k = index.walk n k ∧ (index.walk n k).length = n := by
  induction n generalizing k e with
  | zero => exact ⟨rfl, rfl⟩
  | succ n ih =>
    unfold walk
    rw [he, hsub k e he]
    dsimp only
    obtain rfl | hpos := Nat.eq_zero_or_pos n
    · exact ⟨rfl, rfl⟩
    have hk : k ≠ genesis.hash C := by
      rintro rfl
      obtain ⟨e0, he0, -, h0⟩ := ht.root
      cases he.symm.trans he0
      omega
    obtain ⟨p, hp, hheight⟩ := ht.parent he hk
    obtain ⟨hwalk, hlen⟩ := ih hp (by omega)
    rw [hwalk, List.length_cons, hlen]
    exact ⟨rfl, rfl⟩

theorem Tree.height_lt_length (ht : Tree C genesis index) (he : index.get? k = some e) :
    e.height < index.entries.length := by
  have hall : ∀ i ≤ e.height, i ∈ index.entries.map fun x => x.2.height := by
    intro i hi
    induction hn : e.height - i generalizing k e with
    | zero =>
      obtain rfl : i = e.height := by omega
      exact List.mem_map.mpr ⟨(k, e), OrdMap.get?_eq_some_iff.mp he, rfl⟩
    | succ n ih =>
      have hk : k ≠ genesis.hash C := by
        rintro rfl
        obtain ⟨e0, he0, -, h0⟩ := ht.root
        cases he.symm.trans he0
        omega
      obtain ⟨p, hp, hheight⟩ := ht.parent he hk
      exact ih hp (by omega) (by omega)
  have hsubset : List.range (e.height + 1) ⊆ index.entries.map fun x => x.2.height := fun i hi =>
    hall i (Nat.lt_succ_iff.mp (List.mem_range.mp hi))
  have hle := (List.subperm_of_subset List.nodup_range hsubset).length_le
  rw [List.length_range, List.length_map] at hle
  exact hle

end BlockIndex

namespace Blockchain
open BlockIndex (Links Tree get?_insert_of_some)
variable {N : NodeEnv} {P : Bytes → Prop} {bc bc' w : Blockchain} {block : Block} {r r' r₀ rp : Rebuilt}
  {k k₀ head : Hash} {ring : List UndoEntry} {cand : Candidate} {parent : BlockIndexEntry} {e : ChainError}

/-! ## The cached difficulty -/

theorem baseTarget_eq (hs : Skeleton N bc) (hmining : bc'.rules.mining = bc.rules.mining)
    (hsub : ∀ k e, bc.index.get? k = some e → bc'.index.get? k = some e) (hp : bc.index.get? k = some parent) :
    bc'.baseTarget parent = bc.baseTarget parent ∧ ∃ t, bc.baseTarget parent = .ok t := by
  unfold baseTarget
  rw [hmining]
  split_ifs with hlow
  · exact ⟨rfl, _, rfl⟩
  have hk : k ≠ bc.blocks.genesis.hash N := by
    rintro rfl
    obtain ⟨e0, he0, -, h0⟩ := hs.tree.root
    cases hp.symm.trans he0
    simp [h0, difficultyWindow] at hlow
  obtain ⟨q, hq, hheight⟩ := hs.tree.parent hp hk
  obtain ⟨hwalk, hlen⟩ := hs.tree.walk_eq hsub hq (n := difficultyWindow) (by omega)
  rw [hwalk, if_neg (by rw [List.length_cons, hlen]; omega)]
  exact ⟨rfl, _, rfl⟩

theorem syncActiveDifficulty_of_entry {head : BlockIndexEntry} {t : Target} (hhead : bc.index.get? bc.head = some head)
    (ht : bc.baseTarget head = .ok t) :
    bc.syncActiveDifficulty = .ok { bc with sha256dDifficulty := Difficulty.fromTarget t } := by
  unfold syncActiveDifficulty headEntry
  rw [hhead]
  change (bc.baseTarget head >>= _) = _
  rw [ht]
  rfl

theorem exists_syncActiveDifficulty (hs : Skeleton N bc) :
    ∃ d, bc.syncActiveDifficulty = .ok { bc with sha256dDifficulty := d } := by
  obtain ⟨e, he, -⟩ := hs.head_entry
  obtain ⟨-, t, ht⟩ : bc.baseTarget e = bc.baseTarget e ∧ ∃ t, bc.baseTarget e = .ok t :=
    baseTarget_eq hs rfl (fun _ _ h => h) he
  exact ⟨_, syncActiveDifficulty_of_entry he ht⟩

theorem syncActiveDifficulty_of_eq (hs : Skeleton N bc) (h : bc.syncActiveDifficulty = .ok bc)
    (hrules : bc'.rules = bc.rules) (hhead : bc'.head = bc.head)
    (hcached : bc'.sha256dDifficulty = bc.sha256dDifficulty)
    (hsub : ∀ k e, bc.index.get? k = some e → bc'.index.get? k = some e) : bc'.syncActiveDifficulty = .ok bc' := by
  obtain ⟨e, t, he, ht, hbc⟩ := syncActiveDifficulty_eq_ok h
  obtain ⟨hsame, -⟩ := baseTarget_eq hs (congrArg Rules.mining hrules) hsub he
  have he' : bc'.index.get? bc'.head = some e := by
    rw [hhead]
    exact hsub _ _ he
  have hd : bc'.sha256dDifficulty = Difficulty.fromTarget t := hcached.trans (congrArg sha256dDifficulty hbc)
  rw [syncActiveDifficulty_of_entry he' (hsame.trans ht), ← hd]

theorem syncActiveDifficulty_congr {d : Difficulty}
    (h : bc.syncActiveDifficulty = .ok { bc with sha256dDifficulty := d }) (hrules : bc'.rules = bc.rules)
    (hindex : bc'.index = bc.index) (hhead : bc'.head = bc.head) :
    bc'.syncActiveDifficulty = .ok { bc' with sha256dDifficulty := d } := by
  obtain ⟨e, t, he, ht, hbc⟩ := syncActiveDifficulty_eq_ok h
  have hd : d = Difficulty.fromTarget t := congrArg sha256dDifficulty hbc
  have he' : bc'.index.get? bc'.head = some e := by
    rw [hindex, hhead]
    exact he
  rw [hd]
  refine syncActiveDifficulty_of_entry he' ?_
  rw [← ht]
  unfold baseTarget
  rw [hrules, hindex]

theorem syncActiveDifficulty_idem (h : bc.syncActiveDifficulty = .ok bc') : bc'.syncActiveDifficulty = .ok bc' := by
  obtain ⟨e, t, he, ht, rfl⟩ := syncActiveDifficulty_eq_ok h
  exact syncActiveDifficulty_congr h rfl rfl rfl

/-! ## Replaying a branch from genesis -/

variable {bs : List Block}

theorem ancestorsOf_eq {above : List Block} {n : ℕ}
    (hlinks : Links bc.index bc.rules.genesisHash bc.rules.genesisHash bs k) (hn : bs.length < n) :
    ancestorsOf bc n k above = some (bs ++ above) := by
  generalize hg : bc.rules.genesisHash = g at hlinks
  induction hlinks generalizing n above with
  | nil =>
    cases n with
    | zero => omega
    | succ n => simp [ancestorsOf, hg]
  | @snoc bs p k e _ he hp hk ih =>
    rcases n with _ | n
    · omega
    rw [List.length_append, List.length_singleton] at hn
    unfold ancestorsOf
    rw [hg, if_neg hk, he]
    dsimp only
    rw [hp, ih (by omega)]
    simp

theorem replayAncestors_eq (hg : Grounded N P bc) {k1 : Hash} {r1 : Rebuilt}
    (hlinks : Links bc.index bc.rules.genesisHash k1 bs k) (hr1 : Replay N bc k1 r1) (hr : Replay N bc k r) :
    replayAncestors N bc r1 bs = .ok (.ok r) := by
  induction bs generalizing k1 r1 with
  | nil =>
    obtain rfl := hlinks.eq_of_nil
    obtain rfl := hr1.unique hr
    rfl
  | cons b bs ih =>
    obtain ⟨k2, e, he, rfl, rfl, hk, hlinks⟩ := hlinks.cons_inv
    obtain ⟨r3, r2, hr3, -, hx⟩ := hg.entries he hk
    obtain rfl := hr3.unique hr1
    unfold replayAncestors
    rw [hg.skeleton.tree.hash_eq he, he]
    dsimp only
    rw [hx]
    exact ih hlinks (.block hr1 he hk hx)

theorem rebuildBranch_eq (hg : Grounded N P bc) (hrp : Replay N bc block.header.prevHash rp) :
    rebuildBranch N bc block cand = Rebuilt.extend N bc.rules rp block cand.shaTarget := by
  obtain ⟨bs, hbs, -⟩ := hrp.links
  obtain ⟨e, he⟩ := hg.exists_entry hrp
  have hlen : bs.length < bc.index.entries.length := by
    have hlinks := hbs
    rw [hg.skeleton.genesis_hash] at hlinks
    obtain ⟨e0, he0, -, h0⟩ := hg.skeleton.tree.root
    obtain ⟨e', he', hheight⟩ := hlinks.height hg.skeleton.tree he0
    have := hg.skeleton.tree.height_lt_length he'
    omega
  unfold rebuildBranch
  rw [ancestorsOf_eq hbs hlen, List.append_nil]
  change (replayAncestors N bc bc.base bs >>= _) = _
  rw [replayAncestors_eq hg hbs .genesis hrp]
  rfl

/-! ## Sound chains -/

/-- The live part of the chain is what replaying the branch of the head gives. -/
structure Sound (N : NodeEnv) (P : Bytes → Prop) (bc : Blockchain) : Prop where
  grounded : Grounded N P bc
  live_eq : ∃ r, Replay N bc bc.head r ∧
    bc = bc.live bc.head r (.ofBranch r.branchReceipts) bc.undoRing
  undoable : Undoable N bc bc.undoRing bc.head
  ring_le : bc.undoRing.length ≤ reorgUndoWindow
  difficulty : bc.syncActiveDifficulty = .ok bc

theorem Sound.withRing (hs : Sound N P bc) (hring : Undoable N bc ring bc.head)
    (hle : ring.length ≤ reorgUndoWindow) : Sound N P { bc with undoRing := ring } := by
  obtain ⟨r, hr, hlive⟩ := hs.live_eq
  have hskel : Skeleton N { bc with undoRing := ring } := hs.grounded.skeleton.congr rfl rfl
  have hmono : ∀ {k r}, Replay N bc k r → Replay N { bc with undoRing := ring } k r := fun h =>
    h.mono rfl rfl fun _ _ he => he
  exact ⟨hs.grounded.congr hskel rfl rfl rfl,
    ⟨r, hmono hr, congrArg (fun x : Blockchain => { x with undoRing := ring }) hlive⟩,
    hring.mono rfl rfl fun _ _ he => he, hle,
    syncActiveDifficulty_of_eq hs.grounded.skeleton hs.difficulty rfl rfl rfl fun _ _ he => he⟩

/-- Where the branch of a block leaves the active chain, within reach of the journals. -/
structure ForkAt (N : NodeEnv) (bc : Blockchain) (block : Block) (k₀ : Hash) (r₀ : Rebuilt)
    (old bs : List Block) : Prop where
  replay : Replay N bc k₀ r₀
  active : Links bc.index bc.rules.genesisHash k₀ old bc.head
  branch : Links bc.index bc.rules.genesisHash k₀ bs block.header.prevHash
  reach : old.length ≤ bc.undoRing.length

theorem Sound.forkAt (hs : Sound N P bc) {fork : ℕ} {blocks : List Block}
    (h : bc.coveredFork N block = some (fork, blocks)) :
    ∃ k₀ r₀ old bs, ForkAt N bc block k₀ r₀ old bs ∧ fork = r₀.activeBlocks.height ∧ blocks = bs ++ [block] := by
  have hskel := hs.grounded.skeleton
  obtain ⟨hfork, hreach⟩ := Option.filter_eq_some_iff.mp h
  obtain ⟨k₀, bs, hactive, hbs, rfl⟩ := hskel.findFork hfork
  obtain ⟨low, high, hlow, hhigh, hblocks, hlen⟩ := hskel.isActive_split hactive
  obtain ⟨e0, he0, -, h0⟩ := hskel.tree.root
  obtain ⟨ek, hek, hkheight⟩ := hlow.height hskel.tree he0
  obtain ⟨r₀, hr0⟩ := hs.grounded.exists_replay hek
  have hheight : bc.height = low.length + high.length := by
    rw [height, hblocks, (path_tip hskel.tree (hlow.trans hhigh)).2, List.length_append]
  have hdepth : bc.height - fork ≠ 0 ∧ bc.height - fork ≤ bc.undoRing.length := of_decide_eq_true hreach
  rw [← hskel.genesis_hash] at hhigh hbs
  refine ⟨k₀, r₀, high, bs, ⟨hr0, hhigh, hbs, by omega⟩, ?_, rfl⟩
  rw [hr0.height hskel hek]
  omega

variable {old : List Block}

theorem ForkAt.height_sub (hs : Sound N P bc) (hf : ForkAt N bc block k₀ r₀ old bs) :
    bc.height - r₀.activeBlocks.height = old.length := by
  have hskel := hs.grounded.skeleton
  obtain ⟨ek, hek⟩ := hs.grounded.exists_entry hf.replay
  obtain ⟨eh, heh, hhead⟩ := hskel.head_entry
  have hactive := hf.active
  rw [hskel.genesis_hash] at hactive
  obtain ⟨e', he', hheight⟩ := hactive.height hskel.tree hek
  cases heh.symm.trans he'
  rw [hf.replay.height hskel hek, ← hhead, hheight]
  omega

theorem ForkAt.disconnectTo (hN : N.Separating P) (hs : Sound N P bc) (hf : ForkAt N bc block k₀ r₀ old bs) :
    Undoable N bc (bc.undoRing.drop old.length) k₀ ∧ Blockchain.disconnectTo N bc r₀.activeBlocks.height =
        .ok (bc.live k₀ r₀ (.ofBranch r₀.branchReceipts) (bc.undoRing.drop old.length), old.reverse) := by
  obtain ⟨r, hr, hlive⟩ := hs.live_eq
  refine ⟨hs.undoable.drop hf.active hf.reach, ?_⟩
  have hloop := disconnectLoop_live bc bc.head true bc.undoRing [] hN hs.grounded hf.active hf.replay hr
    hs.undoable
  rw [if_pos hf.reach, List.nil_append] at hloop
  refine Eq.trans ?_ hloop
  exact congrArg (fun x => disconnectLoop N r₀.activeBlocks.height bc.undoRing x []) hlive

/-- Undoing a branch above the fork and putting the active blocks back, if the journals reach. -/
theorem ForkAt.restore (head : Hash) (adopt : Bool) (hN : N.Separating P) (hs : Sound N P bc)
    {done : List Block} (hf : ForkAt N bc block k₀ r₀ old bs) (hw : Grounded N P w)
    (hrules : w.rules = bc.rules) (hbase : w.base = bc.base)
    (hsub : ∀ k e, bc.index.get? k = some e → w.index.get? k = some e) {k1 : Hash} {r1 : Rebuilt}
    (hlinks : Links w.index w.rules.genesisHash k₀ done k1) (hr1 : Replay N w k1 r1)
    (hring : Undoable N w ring k1) (hle : ring.length ≤ reorgUndoWindow) : if done.length ≤ ring.length then
      ∃ ring', Undoable N w ring' bc.head ∧ ring'.length ≤ reorgUndoWindow ∧ old.length ≤ ring'.length ∧
        (Blockchain.restore N (bc.live head r1 (shown adopt r₀ r1) ring) r₀.activeBlocks.height old.reverse >>=
          syncActiveDifficulty) = .ok { bc with undoRing := ring' }
    else
      (Blockchain.restore N (bc.live head r1 (shown adopt r₀ r1) ring) r₀.activeBlocks.height old.reverse >>=
        syncActiveDifficulty) = .error .undoRingExhausted := by
  obtain ⟨r, hr, hlive⟩ := hs.live_eq
  have hr0 : Replay N w k₀ r₀ := hf.replay.mono hrules hbase hsub
  have hloop := disconnectLoop_live bc head adopt ring [] hN hw hlinks hr0 hr1 hring
  have hdis : Blockchain.disconnectTo N (bc.live head r1 (shown adopt r₀ r1) ring) r₀.activeBlocks.height = _ :=
    hloop
  split_ifs with hreach
  · rw [if_pos hreach] at hdis
    have hlow : shown adopt r₀ r₀ = .ofBranch r₀.branchReceipts := by simp [shown]
    have hactive : Links bc.index w.rules.genesisHash k₀ old bc.head := by
      rw [hrules]
      exact hf.active
    have hdrop : (ring.drop done.length).length ≤ reorgUndoWindow := by
      rw [List.length_drop]
      omega
    obtain ⟨ring', hring', hlen', heq⟩ := reconnect_live k₀ hN hw hrules.symm hsub hactive hr0
      (hr.mono hrules hbase hsub) (hring.drop hlinks hreach) hdrop
    have hold := hf.reach.trans hs.ring_le
    have hsync : syncActiveDifficulty { bc with undoRing := ring' } = .ok { bc with undoRing := ring' } :=
      syncActiveDifficulty_of_eq hs.grounded.skeleton hs.difficulty rfl rfl rfl fun _ _ he => he
    refine ⟨ring', hring', by omega, by omega, ?_⟩
    rw [← hsync]
    unfold Blockchain.restore
    rw [hdis, hlow]
    change (reconnect N _ old.reverse >>= _) = _
    rw [heq]
    exact congrArg (fun x : Blockchain => syncActiveDifficulty { x with undoRing := ring' }) hlive.symm
  · rw [if_neg hreach] at hdis
    unfold Blockchain.restore
    rw [hdis]
    rfl

theorem ForkAt.giveUp {α : Type} (x : α) (adopt : Bool) (hN : N.Separating P) (hs : Sound N P bc)
    (hf : ForkAt N bc block k₀ r₀ old bs) (hrp : Replay N bc block.header.prevHash rp)
    (hring : Undoable N bc ring block.header.prevHash) (hle : ring.length ≤ reorgUndoWindow)
    (hlen : min bs.length reorgUndoWindow ≤ ring.length) {run : Run (Blockchain × α)}
    (hrun : run = (Blockchain.restore N (bc.live k₀ rp (shown adopt r₀ rp) ring) r₀.activeBlocks.height
      old.reverse >>= syncActiveDifficulty) >>= fun bc => pure (bc, x)) :
    if (bs ++ [block]).length ≤ reorgUndoWindow + 1 then
      ∃ ring', Sound N P { bc with undoRing := ring' } ∧ run = .ok ({ bc with undoRing := ring' }, x)
    else run = .error .undoRingExhausted := by
  have hrestore := hf.restore k₀ adopt hN hs hs.grounded rfl rfl (fun _ _ he => he) hf.branch hrp hring hle
  have hreach : (bs ++ [block]).length ≤ reorgUndoWindow + 1 ↔ bs.length ≤ ring.length := by
    rw [List.length_append, List.length_singleton]
    omega
  simp only [hreach]
  split_ifs at hrestore ⊢ with hshort
  · obtain ⟨ring', hring', hle', -, heq⟩ := hrestore
    refine ⟨ring', hs.withRing hring' hle', ?_⟩
    rw [hrun, heq]
    rfl
  · rw [hrun, hrestore]
    rfl

/-! ## Connecting a candidate -/

theorem ForkAt.connectBranch (hN : N.Separating P) (hs : Sound N P bc)
    (hf : ForkAt N bc block k₀ r₀ old bs) (cand : Candidate) (adopt : Bool)
    (hrp : Replay N bc block.header.prevHash rp) :
    ∃ ring, Undoable N bc ring block.header.prevHash ∧ ring.length ≤ reorgUndoWindow ∧
      min bs.length reorgUndoWindow ≤ ring.length ∧ Blockchain.connectBranch N cand adopt
          (bc.live k₀ r₀ (.ofBranch r₀.branchReceipts) (bc.undoRing.drop old.length)) (bs ++ [block]) =
        Blockchain.connectBranch N cand adopt (bc.live k₀ rp (shown adopt r₀ rp) ring) [block] := by
  have hle := hs.ring_le
  have hdrop : (bc.undoRing.drop old.length).length ≤ reorgUndoWindow := by
    rw [List.length_drop]
    omega
  have hlow : shown adopt r₀ r₀ = .ofBranch r₀.branchReceipts := by simp [shown]
  obtain ⟨ring, hring, hlen, heq⟩ := connectBranch_live cand block adopt r₀ k₀ hN hs.grounded rfl
    (fun _ _ he => he) hf.branch hf.replay hrp (hs.undoable.drop hf.active hf.reach) hdrop
  rw [hlow] at heq
  exact ⟨ring, hring, by omega, by omega, heq⟩

variable {G : Ledger}

theorem connectBranch_of_reject (head : Hash) (m : ReceiptIndex) (ring : List UndoEntry) (adopt : Bool)
    (hN : N.Separating P) (hgood : Good N P G rp) (hclean : Clean N P bc.rules rp block)
    (hx : Rebuilt.extend N bc.rules rp block cand.shaTarget = .ok (.error e)) :
    Blockchain.connectBranch N cand adopt (bc.live head rp m ring) [block] =
      .ok (bc.live head rp m ring, .invalid e) := by
  have hledger : (bc.live head rp m ring).ledger = rp.ledger := rfl
  have hc := connectToActive_of_reject hN hledger rfl hgood hclean hx
  unfold Blockchain.connectBranch
  dsimp only [List.isEmpty_nil]
  rw [if_pos rfl]
  dsimp only
  rw [hc]
  rfl

theorem connectBranch_of_panic (head : Hash) (m : ReceiptIndex) (ring : List UndoEntry) (adopt : Bool)
    {p : Panic} (hgood : Good N P G rp) (hx : Rebuilt.extend N bc.rules rp block cand.shaTarget = .error p) :
    p = .execution ∧ Blockchain.connectBranch N cand adopt (bc.live head rp m ring) [block] = .error p := by
  have hledger : (bc.live head rp m ring).ledger = rp.ledger := rfl
  obtain ⟨hp, hc⟩ := connectToActive_of_panic hledger rfl hgood hx
  refine ⟨hp, ?_⟩
  unfold Blockchain.connectBranch
  dsimp only [List.isEmpty_nil]
  rw [if_pos rfl]
  dsimp only
  rw [hc]
  rfl

theorem connectBranch_of_extend (head : Hash) (r₀ : Rebuilt) (ring : List UndoEntry) (adopt : Bool)
    (hN : N.Separating P) (hgood : Good N P G rp) (hclean : Clean N P bc.rules rp block)
    (hx : Rebuilt.extend N bc.rules rp block cand.shaTarget = .ok (.ok r')) :
    ∃ u : UndoEntry, (u.height, u.hash) = (block.header.height.toNat, block.hash N) ∧
      r'.ledger.applyUndo N u.log = rp.ledger ∧
      Blockchain.connectBranch N cand adopt (bc.live head rp (shown adopt r₀ rp) ring) [block] =
        .ok (bc.live head r' (shown adopt r₀ r') (rememberUndo ring u), .connected r'.tipReceipts) := by
  obtain ⟨u, hplace, hundo, hc⟩ := connectToActive_live head (shown adopt r₀ rp) ring hN hgood hclean hx
  refine ⟨u, hplace, hundo, ?_⟩
  unfold Blockchain.connectBranch
  dsimp only [List.isEmpty_nil]
  rw [if_pos rfl]
  dsimp only
  rw [hc, ← shown_add hx]
  cases adopt with
  | false => rfl
  | true =>
    change Except.ok ((bc.live _ _ _ _).indexBlockReceipts _ _, _) = _
    rw [indexBlockReceipts_live]
    rfl

/-! ## The chain after an accepted block -/

theorem Sound.stored (hs : Sound N P bc) (hv : Validated N bc block cand parent)
    (hnew : bc.index.get? (block.hash N) = none) (hrp : Replay N bc block.header.prevHash rp)
    (hclean : Clean N P bc.rules rp block) (hx : Rebuilt.extend N bc.rules rp block cand.shaTarget = .ok (.ok r'))
    (hring : Undoable N (bc.insertEntry N block cand) ring bc.head) (hle : ring.length ≤ reorgUndoWindow) :
    Sound N P { bc.insertEntry N block cand with undoRing := ring } := by
  have hsub : ∀ k e, bc.index.get? k = some e → (bc.insertEntry N block cand).index.get? k = some e :=
    fun _ _ he => get?_insert_of_some hnew he
  obtain ⟨r, hr, hlive⟩ := hs.live_eq
  have hw : Sound N P (bc.insertEntry N block cand) := by
    refine ⟨hs.grounded.insertEntry hv hnew hrp hclean hx, ⟨r, hr.mono rfl rfl hsub, ?_⟩,
      hs.undoable.mono rfl rfl hsub, hs.ring_le,
      syncActiveDifficulty_of_eq hs.grounded.skeleton hs.difficulty rfl rfl rfl hsub⟩
    exact congrArg (fun x : Blockchain => { x with index := (bc.insertEntry N block cand).index }) hlive
  exact hw.withRing hring hle

/-- The chain with a block at the head. -/
def adopted (N : NodeEnv) (bc : Blockchain) (block : Block) (cand : Candidate) (r : Rebuilt)
    (ring : List UndoEntry) (d : Difficulty) : Blockchain :=
  { (bc.insertEntry N block cand).live (block.hash N.toCrypto) r (.ofBranch r.branchReceipts) ring with
    sha256dDifficulty := d }

theorem replay_insertEntry_self (hs : Skeleton N bc) (hnew : bc.index.get? (block.hash N) = none)
    (hrp : Replay N bc block.header.prevHash rp)
    (hx : Rebuilt.extend N bc.rules rp block cand.shaTarget = .ok (.ok r')) : block.hash N ≠ bc.rules.genesisHash ∧
      Replay N (bc.insertEntry N block cand) (block.hash N) r' := by
  have hne : block.hash N ≠ bc.rules.genesisHash := by
    intro heq
    obtain ⟨e0, he0, -⟩ := hs.tree.root
    rw [heq, hs.genesis_hash, he0] at hnew
    cases hnew
  have hget : (bc.insertEntry N block cand).index.get? (block.hash N) =
      some { block, shaTarget := cand.shaTarget, chainWork := cand.newWork, height := cand.height
             size := block.serializedSize } := OrdMap.get?_insert_self ..
  exact ⟨hne, .block (Grounded.replay_insertEntry hnew hrp) hget hne hx⟩

theorem Sound.adopted (hs : Sound N P bc) (hv : Validated N bc block cand parent)
    (hnew : bc.index.get? (block.hash N) = none)
    (hrp : Replay N bc block.header.prevHash rp) (hclean : Clean N P bc.rules rp block)
    (hx : Rebuilt.extend N bc.rules rp block cand.shaTarget = .ok (.ok r')) :
    ∃ d, (∀ m ring, ((bc.insertEntry N block cand).live (block.hash N) r' m ring).syncActiveDifficulty =
        .ok { (bc.insertEntry N block cand).live (block.hash N) r' m ring with sha256dDifficulty := d }) ∧
      ∀ ring, Undoable N (bc.insertEntry N block cand) ring (block.hash N) →
        ring.length ≤ reorgUndoWindow → Sound N P (Blockchain.adopted N bc block cand r' ring d) := by
  have hskel := hs.grounded.skeleton
  obtain ⟨hne, hr'⟩ := replay_insertEntry_self hskel hnew hrp hx
  obtain ⟨bs, hbs, hblocks⟩ := hrp.links
  have hblocks' : r'.activeBlocks = ActiveChain.extend ⟨bc.blocks.genesis, []⟩ (bs ++ [block]) := by
    rw [(extend_fields hx).1, hblocks, ActiveChain.extend_snoc]
  have hgenesis : r'.activeBlocks.genesis = bc.blocks.genesis := by
    rw [hblocks', ActiveChain.genesis_extend]
    rfl
  have hskel' : ∀ m ring, Skeleton N
      ((bc.insertEntry N block cand).live (block.hash N) r' m ring) := by
    intro m ring
    rw [hskel.genesis_hash] at hbs
    refine hskel.adopted ?_ hv hnew hbs ?_
    · simp only [setup, live, hgenesis]
      rfl
    · rw [← hblocks']
      rfl
  obtain ⟨d, hd⟩ := exists_syncActiveDifficulty (hskel' .empty [])
  have hsync : ∀ m ring, ((bc.insertEntry N block cand).live (block.hash N) r' m ring).syncActiveDifficulty =
      .ok { (bc.insertEntry N block cand).live (block.hash N) r' m ring with sha256dDifficulty := d } := by
    exact fun m ring => syncActiveDifficulty_congr hd rfl rfl rfl
  refine ⟨d, hsync, fun ring hring hle => ?_⟩
  have hbase : (Blockchain.adopted N bc block cand r' ring d).base = (bc.insertEntry N block cand).base := by
    simp only [base, Blockchain.adopted, live, hgenesis]
    rfl
  have hg : Grounded N P (Blockchain.adopted N bc block cand r' ring d) :=
    (hs.grounded.insertEntry hv hnew hrp hclean hx).congr
      ((hskel' (.ofBranch r'.branchReceipts) ring).congr rfl rfl) rfl hbase rfl
  exact ⟨hg, ⟨r', hr'.mono rfl hbase fun _ _ he => he, rfl⟩, hring.mono rfl hbase fun _ _ he => he, hle,
    syncActiveDifficulty_idem (hsync _ _)⟩

/-! ## The three ways of importing -/

/-- What replaying says about a candidate: the branch of its parent, on which it is clean. -/
structure Probed (N : NodeEnv) (P : Bytes → Prop) (bc : Blockchain) (block : Block) (cand : Candidate)
    (parent : BlockIndexEntry) (rp : Rebuilt) : Prop where
  valid : Validated N bc block cand parent
  new : bc.index.get? (block.hash N.toCrypto) = none
  replay : Replay N bc block.header.prevHash rp
  clean : Clean N P bc.rules rp block

section Probed
variable (hN : N.toCrypto.Separating P) (hs : Sound N P bc) (hp : Probed N P bc block cand parent rp)

include hN hs hp

omit hN in
/-- A journal of the new block on top of those of its branch. -/
theorem Probed.undoable {u : UndoEntry} (hx : Rebuilt.extend N bc.rules rp block cand.shaTarget = .ok (.ok r'))
    (hring : Undoable N bc ring block.header.prevHash)
    (hplace : (u.height, u.hash) = (block.header.height.toNat, block.hash N)) (hundo : r'.ledger.applyUndo N u.log = rp.ledger) :
    Undoable N (bc.insertEntry N block cand) (rememberUndo ring u) (block.hash N) := by
  obtain ⟨hne, hr'⟩ := replay_insertEntry_self hs.grounded.skeleton hp.new hp.replay hx
  have hget : (bc.insertEntry N block cand).index.get? (block.hash N) =
      some { block, shaTarget := cand.shaTarget, chainWork := cand.newWork, height := cand.height
             size := block.serializedSize } := OrdMap.get?_insert_self ..
  have hring' : Undoable N (bc.insertEntry N block cand) ring block.header.prevHash :=
    hring.mono rfl rfl fun _ _ he => get?_insert_of_some hp.new he
  exact (Undoable.cons hget hne (Grounded.replay_insertEntry hp.new hp.replay) hr' hplace hundo hring').take _

variable {p : Panic}

theorem importExtending_of_panic (hprev : block.header.prevHash = bc.head)
    (hx : Rebuilt.extend N bc.rules rp block cand.shaTarget = .error p) :
    p = .execution ∧ importExtending N bc block cand = .error p := by
  obtain ⟨r, hr, hlive⟩ := hs.live_eq
  obtain rfl := (hprev ▸ hp.replay).unique hr
  obtain ⟨hp', hc⟩ := connectToActive_of_panic (congrArg ledger hlive) (congrArg signals hlive)
    (hs.grounded.good hN hr) hx
  refine ⟨hp', ?_⟩
  unfold importExtending
  rw [hc]
  rfl

theorem importExtending_of_reject (hprev : block.header.prevHash = bc.head)
    (hx : Rebuilt.extend N bc.rules rp block cand.shaTarget = .ok (.error e)) :
    importExtending N bc block cand = .ok (bc, .error e) := by
  obtain ⟨r, hr, hlive⟩ := hs.live_eq
  obtain rfl := (hprev ▸ hp.replay).unique hr
  have hc := connectToActive_of_reject hN (congrArg ledger hlive) (congrArg signals hlive)
    (hs.grounded.good hN hr) hp.clean hx
  unfold importExtending
  rw [hc]
  rfl

theorem importExtending_of_extend (hprev : block.header.prevHash = bc.head)
    (hx : Rebuilt.extend N bc.rules rp block cand.shaTarget = .ok (.ok r')) :
    ∃ ring d, Sound N P (adopted N bc block cand r' ring d) ∧ importExtending N bc block cand =
        .ok (adopted N bc block cand r' ring d, .ok { receipts := r'.tipReceipts, revertedTxs := [] }) := by
  obtain ⟨r, hr, hlive⟩ := hs.live_eq
  obtain rfl := (hprev ▸ hp.replay).unique hr
  obtain ⟨u, hplace, hundo, hc⟩ := connectToActive_live bc.head (.ofBranch rp.branchReceipts) bc.undoRing hN
    (hs.grounded.good hN hr) hp.clean hx
  rw [← hlive] at hc
  obtain ⟨d, hsync, hsound⟩ := hs.adopted hp.valid hp.new hp.replay hp.clean hx
  refine ⟨rememberUndo bc.undoRing u, d, hsound _ ?_ ?_, ?_⟩
  · exact hp.undoable hs hx (hprev ▸ hs.undoable) hplace hundo
  · rw [length_rememberUndo]
    exact Nat.min_le_right _ _
  unfold importExtending
  rw [hc]
  change (((bc.insertEntry N block cand).live (block.hash N) r' (.ofBranch rp.branchReceipts)
    (rememberUndo bc.undoRing u)).syncActiveDifficulty >>= _) = _
  rw [hsync]
  have hcand : cand.height = block.header.height.toNat := hp.valid.cand_height.trans hp.valid.height_eq.symm
  have hindexed : ({ bc.insertEntry N block cand with sha256dDifficulty := d }.live (block.hash N) r'
      (.ofBranch rp.branchReceipts) (rememberUndo bc.undoRing u)).indexBlockReceipts cand.height r'.tipReceipts =
        adopted N bc block cand r' (rememberUndo bc.undoRing u) d := by
    rw [indexBlockReceipts_live, hcand, ← ReceiptIndex.ofBranch_snoc, ← (extend_fields hx).2.2]
    rfl
  rw [← hindexed]
  rfl

section Covered
variable {blocks : List Block} {fork : ℕ} (hfork : bc.coveredFork N block = some (fork, blocks))

include hfork

theorem tryIncrementalReorg_of_panic (hx : Rebuilt.extend N bc.rules rp block cand.shaTarget = .error p) :
    p = .execution ∧ tryIncrementalReorg N bc block cand = .error p := by
  obtain ⟨k₀, r₀, old, bs, hf, rfl, rfl⟩ := hs.forkAt hfork
  obtain ⟨-, hd⟩ := hf.disconnectTo hN hs
  obtain ⟨ring, -, -, -, hc⟩ := hf.connectBranch hN hs cand true hp.replay
  obtain ⟨hp', hlast⟩ := connectBranch_of_panic k₀ (shown true r₀ rp) ring true (hs.grounded.good hN hp.replay) hx
  refine ⟨hp', ?_⟩
  simp only [tryIncrementalReorg, hfork, hd]
  change (Blockchain.connectBranch N cand true _ _ >>= _) = _
  rw [hc, hlast]
  rfl

theorem tryIncrementalReorg_of_reject (hx : Rebuilt.extend N bc.rules rp block cand.shaTarget = .ok (.error e)) :
    if blocks.length ≤ reorgUndoWindow + 1 then
      ∃ ring, Sound N P { bc with undoRing := ring } ∧
        tryIncrementalReorg N bc block cand = .ok ({ bc with undoRing := ring }, some (.error e))
    else tryIncrementalReorg N bc block cand = .error .undoRingExhausted := by
  obtain ⟨k₀, r₀, old, bs, hf, rfl, rfl⟩ := hs.forkAt hfork
  obtain ⟨-, hd⟩ := hf.disconnectTo hN hs
  obtain ⟨ring, hring, hle, hlen, hc⟩ := hf.connectBranch hN hs cand true hp.replay
  have hlast := connectBranch_of_reject k₀ (shown true r₀ rp) ring true hN (hs.grounded.good hN hp.replay) hp.clean hx
  refine hf.giveUp (some (Except.error e)) true hN hs hp.replay hring hle hlen ?_
  simp only [tryIncrementalReorg, hfork, hd]
  change (Blockchain.connectBranch N cand true _ _ >>= _) = _
  rw [hc, hlast, bind_assoc]
  rfl

theorem tryIncrementalReorg_of_extend (hx : Rebuilt.extend N bc.rules rp block cand.shaTarget = .ok (.ok r')) :
    ∃ ring d reverted, Sound N P (adopted N bc block cand r' ring d) ∧ tryIncrementalReorg N bc block cand =
        .ok (adopted N bc block cand r' ring d,
          some (.ok { receipts := r'.tipReceipts, revertedTxs := reverted })) := by
  obtain ⟨k₀, r₀, old, bs, hf, rfl, rfl⟩ := hs.forkAt hfork
  obtain ⟨-, hd⟩ := hf.disconnectTo hN hs
  obtain ⟨ring, hring, hle, hlen, hc⟩ := hf.connectBranch hN hs cand true hp.replay
  obtain ⟨u, hplace, hundo, hlast⟩ := connectBranch_of_extend k₀ r₀ ring true hN (hs.grounded.good hN hp.replay) hp.clean hx
  obtain ⟨d, hsync, hsound⟩ := hs.adopted hp.valid hp.new hp.replay hp.clean hx
  refine ⟨rememberUndo ring u, d, revertedBy N old.reverse (bs ++ [block]), hsound _ ?_ ?_, ?_⟩
  · exact hp.undoable hs hx hring hplace hundo
  · rw [length_rememberUndo]
    exact Nat.min_le_right _ _
  simp only [tryIncrementalReorg, hfork, hd]
  change (Blockchain.connectBranch N cand true _ _ >>= _) = _
  rw [hc, hlast]
  change (((bc.insertEntry N block cand).live (block.hash N) r' (.ofBranch r'.branchReceipts)
    (rememberUndo ring u)).syncActiveDifficulty >>= _) = _
  rw [hsync]
  rfl

theorem tryIncrementalSideBranch_of_panic (hx : Rebuilt.extend N bc.rules rp block cand.shaTarget = .error p) :
    p = .execution ∧ tryIncrementalSideBranch N bc block cand = .error p := by
  obtain ⟨k₀, r₀, old, bs, hf, rfl, rfl⟩ := hs.forkAt hfork
  obtain ⟨-, hd⟩ := hf.disconnectTo hN hs
  obtain ⟨ring, -, -, -, hc⟩ := hf.connectBranch hN hs cand false hp.replay
  obtain ⟨hp', hlast⟩ := connectBranch_of_panic k₀ (shown false r₀ rp) ring false (hs.grounded.good hN hp.replay) hx
  refine ⟨hp', ?_⟩
  simp only [tryIncrementalSideBranch, hfork, hd]
  change (Blockchain.connectBranch N cand false _ _ >>= _) = _
  rw [hc, hlast]
  rfl

theorem tryIncrementalSideBranch_of_reject (hx : Rebuilt.extend N bc.rules rp block cand.shaTarget = .ok (.error e)) :
    if blocks.length ≤ reorgUndoWindow + 1 then
      ∃ ring, Sound N P { bc with undoRing := ring } ∧
        tryIncrementalSideBranch N bc block cand = .ok ({ bc with undoRing := ring }, some (.error e))
    else tryIncrementalSideBranch N bc block cand = .error .undoRingExhausted := by
  obtain ⟨k₀, r₀, old, bs, hf, rfl, rfl⟩ := hs.forkAt hfork
  obtain ⟨-, hd⟩ := hf.disconnectTo hN hs
  obtain ⟨ring, hring, hle, hlen, hc⟩ := hf.connectBranch hN hs cand false hp.replay
  have hlast := connectBranch_of_reject k₀ (shown false r₀ rp) ring false hN (hs.grounded.good hN hp.replay)
    hp.clean hx
  refine hf.giveUp (some (Except.error e)) false hN hs hp.replay hring hle hlen ?_
  simp only [tryIncrementalSideBranch, hfork, hd]
  change (Blockchain.connectBranch N cand false _ _ >>= _) = _
  rw [hc, hlast, bind_assoc]
  rfl

theorem tryIncrementalSideBranch_of_extend (hx : Rebuilt.extend N bc.rules rp block cand.shaTarget = .ok (.ok r')) :
    if blocks.length ≤ reorgUndoWindow then
      ∃ ring, bc.height - fork ≤ ring.length ∧ Sound N P { bc.insertEntry N block cand with undoRing := ring } ∧
        tryIncrementalSideBranch N bc block cand = .ok ({ bc with undoRing := ring }, some (.ok ()))
    else tryIncrementalSideBranch N bc block cand = .error .undoRingExhausted := by
  obtain ⟨k₀, r₀, old, bs, hf, rfl, rfl⟩ := hs.forkAt hfork
  obtain ⟨-, hd⟩ := hf.disconnectTo hN hs
  obtain ⟨ring, hring, hle, hlen, hc⟩ := hf.connectBranch hN hs cand false hp.replay
  obtain ⟨u, hplace, hundo, hlast⟩ := connectBranch_of_extend k₀ r₀ ring false hN (hs.grounded.good hN hp.replay)
    hp.clean hx
  -- In the world with the block stored, the block itself can be undone as well.
  have hsub : ∀ k e, bc.index.get? k = some e → (bc.insertEntry N block cand).index.get? k = some e :=
    fun _ _ he => get?_insert_of_some hp.new he
  have hw := hs.grounded.insertEntry hp.valid hp.new hp.replay hp.clean hx
  obtain ⟨hne, hr'⟩ := replay_insertEntry_self hs.grounded.skeleton hp.new hp.replay hx
  have hdone : Links (bc.insertEntry N block cand).index (bc.insertEntry N block cand).rules.genesisHash k₀
      (bs ++ [block]) (block.hash N) :=
    .snoc (hf.branch.mono hsub) (OrdMap.get?_insert_self ..) rfl hne
  have hlen' : (rememberUndo ring u).length = min (ring.length + 1) reorgUndoWindow := length_rememberUndo u
  have hrestore := hf.restore k₀ false hN hs hw rfl rfl hsub hdone hr' (hp.undoable hs hx hring hplace hundo)
    (by omega)
  have hrun : tryIncrementalSideBranch N bc block cand =
      (restore N (bc.live k₀ r' (shown false r₀ r') (rememberUndo ring u)) r₀.activeBlocks.height old.reverse >>=
        syncActiveDifficulty) >>= fun bc => pure (bc, some (.ok ())) := by
    simp only [tryIncrementalSideBranch, hfork, hd]
    change (Blockchain.connectBranch N cand false _ _ >>= _) = _
    rw [hc, hlast, bind_assoc]
    rfl
  have hreach : (bs ++ [block]).length ≤ reorgUndoWindow ↔ (bs ++ [block]).length ≤ (rememberUndo ring u).length := by
    rw [hlen', List.length_append, List.length_singleton]
    omega
  simp only [hreach]
  split_ifs at hrestore ⊢ with hshort
  · obtain ⟨ring', hring', hle', hold, heq⟩ := hrestore
    refine ⟨ring', ?_, hs.stored hp.valid hp.new hp.replay hp.clean hx hring' hle', ?_⟩
    · rw [hf.height_sub hs]
      exact hold
    · rw [hrun, heq]
      rfl
  · rw [hrun, hrestore]
    rfl

end Covered
end Probed

/-- What can come of importing a block. -/
inductive Outcome (N : NodeEnv) (P : Bytes → Prop) (bc : Blockchain) (block : Block) :
    Run (Blockchain × Except ChainError Imported) → Prop
  | known (h : (bc.index.get? (block.hash N.toCrypto)).isSome) : Outcome N P bc block (.ok (bc, .ok .empty))
  | invalid {e : ChainError} (hnew : bc.index.get? (block.hash N.toCrypto) = none)
      (hv : bc.validateCandidate N block = .ok (.error e)) : Outcome N P bc block (.ok (bc, .error e))
  | panicked {cand : Candidate} {parent : BlockIndexEntry} {rp : Rebuilt}
      (hp : Probed N P bc block cand parent rp)
      (hx : Rebuilt.extend N bc.rules rp block cand.shaTarget = .error .execution) :
      Outcome N P bc block (.error .execution)
  | rejected {cand : Candidate} {parent : BlockIndexEntry} {rp : Rebuilt} {e : ChainError}
      {ring : List UndoEntry} (hp : Probed N P bc block cand parent rp)
      (hx : Rebuilt.extend N bc.rules rp block cand.shaTarget = .ok (.error e))
      (hsound : Sound N P { bc with undoRing := ring }) :
      Outcome N P bc block (.ok ({ bc with undoRing := ring }, .error e))
  | stored {cand : Candidate} {parent head : BlockIndexEntry} {rp r' : Rebuilt} {ring : List UndoEntry}
      (hp : Probed N P bc block cand parent rp)
      (hx : Rebuilt.extend N bc.rules rp block cand.shaTarget = .ok (.ok r'))
      (hprev : block.header.prevHash ≠ bc.head) (hhead : bc.index.get? bc.head = some head)
      (hbeats : beats cand.newWork (block.hash N.toCrypto) head.chainWork bc.head = false)
      (hreach : ∀ {fork blocks}, bc.coveredFork N block = some (fork, blocks) →
        blocks.length ≤ reorgUndoWindow ∧ bc.height - fork ≤ ring.length)
      (hsound : Sound N P { bc.insertEntry N block cand with undoRing := ring }) :
      Outcome N P bc block (.ok ({ bc.insertEntry N block cand with undoRing := ring }, .ok .empty))
  | adopted {cand : Candidate} {parent : BlockIndexEntry} {rp r' : Rebuilt} {ring : List UndoEntry}
      {d : Difficulty} {reverted : List SignedTransaction} (hp : Probed N P bc block cand parent rp)
      (hx : Rebuilt.extend N bc.rules rp block cand.shaTarget = .ok (.ok r'))
      (hbest : block.header.prevHash = bc.head ∨ ∃ head, bc.index.get? bc.head = some head ∧
        beats cand.newWork (block.hash N.toCrypto) head.chainWork bc.head = true)
      (hsound : Sound N P (adopted N bc block cand r' ring d)) :
      Outcome N P bc block (.ok (adopted N bc block cand r' ring d,
        .ok { receipts := r'.tipReceipts, revertedTxs := reverted }))
  | exhausted {fork : ℕ} {blocks : List Block} (hfork : bc.coveredFork N block = some (fork, blocks))
      (hlong : reorgUndoWindow < blocks.length) : Outcome N P bc block (.error .undoRingExhausted)

section Probed
variable (hN : N.toCrypto.Separating P) (hs : Sound N P bc) (hp : Probed N P bc block cand parent rp)

include hN hs hp

theorem importExtending_outcome (hprev : block.header.prevHash = bc.head) :
    Outcome N P bc block (importExtending N bc block cand) := by
  cases hx : Rebuilt.extend N bc.rules rp block cand.shaTarget with
  | error p =>
    obtain ⟨rfl, heq⟩ := importExtending_of_panic hN hs hp hprev hx
    rw [heq]
    exact .panicked hp hx
  | ok x =>
    rcases x with e | r'
    · rw [importExtending_of_reject hN hs hp hprev hx]
      exact .rejected hp hx (hs.withRing hs.undoable hs.ring_le)
    obtain ⟨ring, d, hsound, heq⟩ := importExtending_of_extend hN hs hp hprev hx
    rw [heq]
    exact .adopted hp hx (.inl hprev) hsound

omit hN in
theorem adoptRebuilt_of_extend (hx : Rebuilt.extend N bc.rules rp block cand.shaTarget = .ok (.ok r')) :
    ∃ d reverted, Sound N P (adopted N bc block cand r' [] d) ∧
      adoptRebuilt N bc block cand r' = .ok (adopted N bc block cand r' [] d,
        .ok { receipts := r'.tipReceipts, revertedTxs := reverted }) := by
  obtain ⟨d, hsync, hsound⟩ := hs.adopted hp.valid hp.new hp.replay hp.clean hx
  refine ⟨d, (bc.blocks.toList.filter fun b => !((r'.activeBlocks.toList.map (Block.hash N)).contains
    (b.hash N))).flatMap Block.transactions, hsound [] .nil (Nat.zero_le _), ?_⟩
  have hindexed : ({ bc.insertEntry N block cand with sha256dDifficulty := d }.live (block.hash N) r'
      ⟨bc.activeReceipts, bc.txHeight⟩ bc.undoRing).rebuildReceiptIndex r'.branchReceipts =
        adopted N bc block cand r' bc.undoRing d := rebuildReceiptIndex_live _
  unfold adoptRebuilt
  change (((bc.insertEntry N block cand).live (block.hash N) r' ⟨bc.activeReceipts, bc.txHeight⟩
    bc.undoRing).syncActiveDifficulty >>= _) = _
  rw [hsync]
  refine congrArg (fun x : Blockchain => Except.ok ({ x with undoRing := [] }, Except.ok _)) hindexed

/-- A branch replayed from genesis panics or is rejected as its last block is. -/
theorem rebuildBranch_outcome {adopt : Rebuilt → Run (Blockchain × Except ChainError Imported)}
    (hadopt : ∀ r', Rebuilt.extend N bc.rules rp block cand.shaTarget = .ok (.ok r') → Outcome N P bc block (adopt r')) :
    Outcome N P bc block (rebuildBranch N bc block cand >>= fun
      | .error e => pure (bc, .error e)
      | .ok r => adopt r) := by
  rw [rebuildBranch_eq hs.grounded hp.replay]
  rcases hx : Rebuilt.extend N bc.rules rp block cand.shaTarget with p | x
  · obtain ⟨rfl, -⟩ := connectBranch_of_panic bc.head .empty [] true (hs.grounded.good hN hp.replay) hx
    exact .panicked hp hx
  rcases x with e | r'
  · exact .rejected hp hx (hs.withRing hs.undoable hs.ring_le)
  · exact hadopt r' hx

theorem importReorganising_outcome {head : BlockIndexEntry} (hhead : bc.index.get? bc.head = some head)
    (hbeats : beats cand.newWork (block.hash N) head.chainWork bc.head = true) :
    Outcome N P bc block (importReorganising N bc block cand) := by
  unfold importReorganising
  cases hfork : bc.coveredFork N block with
  | none =>
    have htry : tryIncrementalReorg N bc block cand = .ok (bc, none) := by
      unfold tryIncrementalReorg
      rw [hfork]
    rw [htry]
    refine rebuildBranch_outcome hN hs hp fun r' hx => ?_
    obtain ⟨d, reverted, hsound, heq⟩ := adoptRebuilt_of_extend hs hp hx
    rw [heq]
    exact .adopted hp hx (.inr ⟨head, hhead, hbeats⟩) hsound
  | some f =>
    obtain ⟨fork, blocks⟩ := f
    cases hx : Rebuilt.extend N bc.rules rp block cand.shaTarget with
    | error p =>
      obtain ⟨rfl, heq⟩ := tryIncrementalReorg_of_panic hN hs hp hfork hx
      rw [heq]
      exact .panicked hp hx
    | ok x =>
      cases x with
      | error e =>
        have hrun := tryIncrementalReorg_of_reject hN hs hp hfork hx
        split_ifs at hrun with hshort
        · obtain ⟨ring, hsound, heq⟩ := hrun
          rw [heq]
          exact .rejected hp hx hsound
        · rw [hrun]
          exact .exhausted hfork (by omega)
      | ok r' =>
        obtain ⟨ring, d, reverted, hsound, heq⟩ := tryIncrementalReorg_of_extend hN hs hp hfork hx
        rw [heq]
        exact .adopted hp hx (.inr ⟨head, hhead, hbeats⟩) hsound

theorem importSideBranch_outcome {head : BlockIndexEntry} (hprev : block.header.prevHash ≠ bc.head)
    (hhead : bc.index.get? bc.head = some head)
    (hbeats : beats cand.newWork (block.hash N) head.chainWork bc.head = false) :
    Outcome N P bc block (importSideBranch N bc block cand) := by
  unfold importSideBranch
  cases hfork : bc.coveredFork N block with
  | none =>
    have htry : tryIncrementalSideBranch N bc block cand = .ok (bc, none) := by
      unfold tryIncrementalSideBranch
      rw [hfork]
    rw [htry]
    refine rebuildBranch_outcome hN hs hp fun r' hx => ?_
    have hring : Undoable N (bc.insertEntry N block cand) bc.undoRing bc.head :=
      hs.undoable.mono rfl rfl fun _ _ he => get?_insert_of_some hp.new he
    exact .stored hp hx hprev hhead hbeats (fun h => by rw [hfork] at h; cases h)
      (hs.stored hp.valid hp.new hp.replay hp.clean hx hring hs.ring_le)
  | some f =>
    obtain ⟨fork, blocks⟩ := f
    cases hx : Rebuilt.extend N bc.rules rp block cand.shaTarget with
    | error p =>
      obtain ⟨rfl, heq⟩ := tryIncrementalSideBranch_of_panic hN hs hp hfork hx
      rw [heq]
      exact .panicked hp hx
    | ok x =>
      cases x with
      | error e =>
        have hrun := tryIncrementalSideBranch_of_reject hN hs hp hfork hx
        split_ifs at hrun with hshort
        · obtain ⟨ring, hsound, heq⟩ := hrun
          rw [heq]
          exact .rejected hp hx hsound
        · rw [hrun]
          exact .exhausted hfork (by omega)
      | ok r' =>
        have hrun := tryIncrementalSideBranch_of_extend hN hs hp hfork hx
        split_ifs at hrun with hshort
        · obtain ⟨ring, hlen, hsound, heq⟩ := hrun
          rw [heq]
          refine .stored hp hx hprev hhead hbeats (fun h => ?_) hsound
          cases hfork.symm.trans h
          exact ⟨hshort, hlen⟩
        · rw [hrun]
          exact .exhausted hfork (by omega)

end Probed

/-- The block is clean on the branch it extends. -/
def CleanImport (N : NodeEnv) (P : Bytes → Prop) (bc : Blockchain) (block : Block) : Prop :=
  ∀ r, Replay N bc block.header.prevHash r → Clean N P bc.rules r block

theorem exists_validateCandidate (hs : Skeleton N bc) : ∃ x, bc.validateCandidate N block = .ok x := by
  unfold validateCandidate
  split
  · exact ⟨_, rfl⟩
  rename_i parent hparent
  dsimp only
  split_ifs
  · exact ⟨_, rfl⟩
  obtain ⟨-, t, ht⟩ : bc.baseTarget parent = bc.baseTarget parent ∧ ∃ t, bc.baseTarget parent = .ok t :=
    baseTarget_eq hs rfl (fun _ _ h => h) hparent
  unfold expectedTarget
  rw [ht]
  dsimp only [bind, Except.bind]
  split_ifs <;> exact ⟨_, rfl⟩

theorem importBlockTracked_outcome (hN : N.Separating P) (hs : Sound N P bc)
    (hclean : CleanImport N P bc block) : Outcome N P bc block (importBlockTracked N bc block) := by
  unfold importBlockTracked
  by_cases hknown : bc.index.contains (block.hash N) = true
  · rw [if_pos hknown]
    exact .known hknown
  rw [if_neg hknown]
  have hnew : bc.index.get? (block.hash N) = none := by simpa using hknown
  obtain ⟨x, hx⟩ : ∃ x, bc.validateCandidate N block = .ok x :=
    exists_validateCandidate hs.grounded.skeleton
  rw [hx]
  rcases x with e | cand
  · exact .invalid hnew hx
  obtain ⟨parent, hv⟩ := validateCandidate_eq_ok hx
  obtain ⟨head, hhead, -⟩ := hs.grounded.skeleton.head_entry
  obtain ⟨rp, hrp⟩ := hs.grounded.exists_replay hv.parent_eq
  have hp : Probed N P bc block cand parent rp := ⟨hv, hnew, hrp, hclean rp hrp⟩
  have hentry : bc.headEntry = .ok head := by
    unfold headEntry
    rw [hhead]
  rw [hentry]
  dsimp only [bind, Except.bind]
  split_ifs with hprev hbeats
  · exact importExtending_outcome hN hs hp hprev
  · exact importReorganising_outcome hN hs hp hhead hbeats
  · exact importSideBranch_outcome hN hs hp hprev hhead (by simpa using hbeats)

end Blockchain
end Sov
