import SovChain.Chain.Replay

/-!
# The live chain

The live part of a chain (ledger, active blocks, signals, receipt index, journals, head) is set to the end of
a replayed branch by `live`. Taking blocks off goes down the branch as far as the journals reach
(`disconnectLoop_live`), and putting indexed blocks on goes up again (`connectBranch_live`,
`reconnect_live`), in both cases to exactly what replaying gives.
-/

namespace Sov
open Sov.Runtime (bind_eq_ok)
namespace Blockchain
open BlockIndex (Links Tree)

/-- The chain with its live part set. -/
def live (bc : Blockchain) (head : Hash) (r : Rebuilt) (m : ReceiptIndex) (ring : List UndoEntry) : Blockchain :=
  { bc with
    head
    ledger := r.ledger
    signals := r.signals
    blocks := r.activeBlocks
    activeReceipts := m.active
    txHeight := m.heights
    undoRing := ring }

section
variable {N : NodeEnv} {P : Bytes → Prop} {bc w : Blockchain} {block : Block} {r r' r₀ low : Rebuilt}
  {k k₀ head : Hash} {m : ReceiptIndex} {ring ring' : List UndoEntry} {cand : Candidate} {e : BlockIndexEntry}
  {adopt : Bool}

theorem indexBlockReceipts_live (height : ℕ) (receipts : List Receipt) :
    (bc.live head r m ring).indexBlockReceipts height receipts = bc.live head r (m.add height receipts) ring :=
  indexBlockReceipts_eq height receipts

theorem forgetReceipts_live (height : ℕ) :
    (bc.live head r m ring).forgetReceipts height = bc.live head r (m.drop height) ring :=
  forgetReceipts_eq height

theorem rebuildReceiptIndex_live (branch : List (ℕ × List Receipt)) :
    (bc.live head r m ring).rebuildReceiptIndex branch = bc.live head r (.ofBranch branch) ring :=
  rebuildReceiptIndex_eq branch

/-! ## One block -/

/-- The receipts the index shows while a branch is connected: those of the branch, or those below it. -/
def shown (adopt : Bool) (low r : Rebuilt) : ReceiptIndex := .ofBranch (if adopt then r else low).branchReceipts

variable {R : Rules} {shaTarget : Target}

theorem extend_fields (hx : Rebuilt.extend N R r block shaTarget = .ok (.ok r')) :
    r'.activeBlocks = r.activeBlocks.push block ∧
      r'.signals = r.signals.record block.header.height.toNat block.header.versionBits ∧
      r'.branchReceipts = r.branchReceipts ++ [(block.header.height.toNat, r'.tipReceipts)] := by
  obtain ⟨L, receipts, -, rfl⟩ := Rebuilt.extend_eq_ok hx
  exact ⟨rfl, rfl, rfl⟩

theorem shown_add (hx : Rebuilt.extend N R r block shaTarget = .ok (.ok r')) :
    (if adopt then (shown adopt low r).add block.header.height.toNat r'.tipReceipts else shown adopt low r) =
      shown adopt low r' := by
  cases adopt with
  | false => rfl
  | true =>
    change (ReceiptIndex.ofBranch r.branchReceipts).add _ _ = .ofBranch r'.branchReceipts
    rw [(extend_fields hx).2.2, ReceiptIndex.ofBranch_snoc]

variable {G : Ledger}

theorem ids_fresh (hN : N.Separating P) (hgood : Good N P G r) (hgood' : Good N P G r')
    (hx : Rebuilt.extend N R r block shaTarget = .ok (.ok r')) :
    ∀ p ∈ r.branchReceipts, ∀ x ∈ p.2, ∀ y ∈ r'.tipReceipts, x.txId ≠ y.txId := by
  obtain ⟨L, receipts, hexec, -, rfl⟩ := extend_inv hgood hx
  intro p hp x hxp y hy heq
  have hnodup := hgood'.accepted.ids_nodup hN.collisionFree hgood'.hashed
  rw [Rebuilt.txs_next, List.map_append] at hnodup
  have hold : x.txId ∈ r.txs.map (SignedTransaction.id N) := hgood.receipts p hp x hxp
  have hnew : y.txId ∈ block.transactions.map (SignedTransaction.id N) := by
    rw [← Runtime.executeBlock_ids hexec]
    exact List.mem_map_of_mem hy
  exact List.disjoint_of_nodup_append hnodup hold (heq ▸ hnew)

theorem shown_drop (hN : N.Separating P) (hgood : Good N P G r) (hgood' : Good N P G r')
    (hlow : Good N P G low) (hheight : r.activeBlocks.height < block.header.height.toNat)
    (habove : low.activeBlocks.height < block.header.height.toNat)
    (hx : Rebuilt.extend N R r block shaTarget = .ok (.ok r')) :
    (shown adopt low r').drop block.header.height.toNat = shown adopt low r := by
  have hnone : ∀ s, Good N P G s → s.activeBlocks.height < block.header.height.toNat →
      (ReceiptIndex.ofBranch s.branchReceipts).active.get? block.header.height.toNat = none := by
    intro s hs hlt
    exact ReceiptIndex.active_ofBranch fun p hp => (lt_of_le_of_lt (hs.heights p hp) hlt).ne
  cases adopt with
  | false => exact ReceiptIndex.drop_of_none (hnone low hlow habove)
  | true =>
    rw [← shown_add hx]
    refine ReceiptIndex.drop_add (hnone r hgood hheight) fun y hy => ?_
    exact ReceiptIndex.heights_ofBranch fun p hp x hxp => ids_fresh hN hgood hgood' hx p hp x hxp y hy

theorem connectToActive_live (head : Hash) (m : ReceiptIndex) (ring : List UndoEntry)
    (hN : N.Separating P) (hgood : Good N P G r) (hclean : Clean N P bc.rules r block)
    (hx : Rebuilt.extend N bc.rules r block shaTarget = .ok (.ok r')) :
    ∃ u : UndoEntry, (u.height, u.hash) = (block.header.height.toNat, block.hash N) ∧
      r'.ledger.applyUndo N u.log = r.ledger ∧ connectToActive N (bc.live head r m ring) block shaTarget =
        .ok (bc.live head r' m (rememberUndo ring u), .ok r'.tipReceipts) := by
  have hledger : (bc.live head r m ring).ledger = r.ledger := rfl
  obtain ⟨log, hundo, hc⟩ := connectToActive_of_extend hN hledger rfl hgood hclean hx
  refine ⟨⟨_, block.hash N, log⟩, rfl, hundo, hc.trans ?_⟩
  obtain ⟨hblocks, -, -⟩ := extend_fields hx
  unfold connected live
  rw [hblocks]
  rfl

/-! ## Taking blocks off -/

/-- The journals lead down the branch of a hash. -/
inductive Undoable (N : NodeEnv) (w : Blockchain) : List UndoEntry → Hash → Prop
  | nil {k : Hash} : Undoable N w [] k
  | cons {u : UndoEntry} {ring : List UndoEntry} {k : Hash} {e : BlockIndexEntry} {r r' : Rebuilt}
      (he : w.index.get? k = some e) (hk : k ≠ w.rules.genesisHash)
      (hr : Replay N w e.block.header.prevHash r) (hr' : Replay N w k r')
      (hplace : (u.height, u.hash) = (e.block.header.height.toNat, e.block.hash N.toCrypto))
      (hundo : r'.ledger.applyUndo N.toCrypto u.log = r.ledger)
      (h : Undoable N w ring e.block.header.prevHash) : Undoable N w (u :: ring) k

theorem Undoable.take (h : Undoable N w ring k) (n : ℕ) : Undoable N w (ring.take n) k := by
  induction h generalizing n with
  | nil => simpa using .nil
  | cons he hk hr hr' hplace hundo _ ih =>
    cases n with
    | zero => exact .nil
    | succ n => exact .cons he hk hr hr' hplace hundo (ih n)

variable {bs : List Block}

theorem Undoable.drop (h : Undoable N w ring k) (hlinks : Links w.index w.rules.genesisHash k₀ bs k)
    (hlen : bs.length ≤ ring.length) : Undoable N w (ring.drop bs.length) k₀ := by
  induction hlinks generalizing ring with
  | nil => exact h
  | @snoc bs p k e _ he hp hk ih =>
    subst hp
    cases h with
    | nil => simp at hlen
    | @cons _ _ _ e' _ _ he' _ _ _ _ _ h =>
      obtain rfl : e' = e := Option.some.inj (he'.symm.trans he)
      rw [List.length_append, List.length_singleton, List.drop_succ_cons]
      exact ih h (by simpa using hlen)

theorem Undoable.mono (h : Undoable N w ring k) {w' : Blockchain} (hrules : w'.rules = w.rules)
    (hbase : w'.base = w.base) (hsub : ∀ k e, w.index.get? k = some e → w'.index.get? k = some e) :
    Undoable N w' ring k := by
  induction h with
  | nil => exact .nil
  | cons he hk hr hr' hplace hundo _ ih =>
    exact .cons (hsub _ _ he) (hrules ▸ hk) (hr.mono hrules hbase hsub) (hr'.mono hrules hbase hsub) hplace
      hundo ih

/-- Going down from `k` to `k₀`, one journal for each block. -/
theorem disconnectLoop_live (bc : Blockchain) (head : Hash) (adopt : Bool) (ring' : List UndoEntry)
    (taken : List Block) (hN : N.Separating P) (hw : Grounded N P w)
    (hlinks : Links w.index w.rules.genesisHash k₀ bs k) (hr0 : Replay N w k₀ r₀) (hr : Replay N w k r)
    (hring : Undoable N w ring k) :
    disconnectLoop N r₀.activeBlocks.height ring (bc.live head r (shown adopt r₀ r) ring') taken =
      if bs.length ≤ ring.length then
        .ok (bc.live k₀ r₀ (shown adopt r₀ r₀) (ring.drop bs.length), taken ++ bs.reverse)
      else .error .undoRingExhausted := by
  induction hlinks generalizing r ring taken with
  | nil =>
    obtain rfl := hr.unique hr0
    have hle : (bc.live head r (shown adopt r r) ring').height ≤ r.activeBlocks.height := le_rfl
    have htip : (bc.live head r (shown adopt r r) ring').blocks.tip.hash N = k₀ :=
      hr.tip_hash hw.skeleton
    unfold disconnectLoop
    rw [if_pos hle, htip]
    simp [live]
  | @snoc bs p k e hlinks he hp hk ih =>
    subst hp
    have habove : r₀.activeBlocks.height < e.block.header.height.toNat :=
      hw.lt_height hr0 (.snoc hlinks he rfl hk) e.block (by simp)
    cases hr with
    | genesis => exact absurd rfl hk
    | @block _ e' rp _ hr he' _ hx =>
      obtain rfl : e' = e := Option.some.inj (he'.symm.trans he)
      obtain ⟨hblocks, hsignals, -⟩ := extend_fields hx
      have hgt : ¬(bc.live head r (shown adopt r₀ r) ring').height ≤ r₀.activeBlocks.height := by
        change ¬r.activeBlocks.height ≤ _
        rw [hblocks]
        exact Nat.not_le.mpr habove
      unfold disconnectLoop
      rw [if_neg hgt]
      cases hring with
      | nil => simp
      | @cons u ring _ e1 rp1 r1 he1 _ hr1 hr1' hplace hundo hring =>
        obtain rfl : e1 = e' := Option.some.inj (he1.symm.trans he)
        obtain rfl := hr1.unique hr
        obtain rfl := hr1'.unique (.block hr he hk hx)
        have hgood := hw.good hN hr
        have hgood' := hw.good hN hr1'
        have hlt : rp1.activeBlocks.height < e1.block.header.height.toNat := by
          rw [hw.height_eq he hk hr]
          exact Nat.lt_succ_self _
        have hpop : (bc.live head r1 (shown adopt r₀ r1) ring').blocks.pop? =
            some (e1.block, rp1.activeBlocks) := by
          change r1.activeBlocks.pop? = _
          rw [hblocks, ActiveChain.pop?_push]
        have hremove : r1.signals.remove e1.block.header.height.toNat = rp1.signals := by
          rw [hsignals]
          exact OrdMap.erase_insert (hgood.signals _ hlt) _
        dsimp only
        rw [hpop]
        dsimp only
        -- The journal, the signals and the receipts of the block are taken back.
        generalize hbc1 : forgetReceipts _ u.height = bc1
        have hdown : bc1 = bc.live head rp1 (shown adopt r₀ rp1) ring' := by
          rw [← shown_drop hN hgood hgood' (hw.good hN hr0) hlt habove hx, ← (Prod.mk.inj hplace).1,
            ← forgetReceipts_live, ← hbc1]
          simp only [live, hundo, hremove]
        rw [hdown, ih _ hr hring]
        simp

/-! ## Putting blocks on -/

theorem length_rememberUndo (u : UndoEntry) : (rememberUndo ring u).length = min (ring.length + 1) reorgUndoWindow := by
  rw [rememberUndo, List.length_take, List.length_cons, Nat.min_comm]

theorem connectToActive_indexed (head : Hash) (m : ReceiptIndex) (hN : N.Separating P)
    (hw : Grounded N P w) (hrules : bc.rules = w.rules) (he : w.index.get? k = some e) (hk : k ≠ w.rules.genesisHash)
    (hr : Replay N w e.block.header.prevHash r) (hr' : Replay N w k r')
    (hring : Undoable N w ring e.block.header.prevHash) : ∃ u, Undoable N w (rememberUndo ring u) k ∧
      Rebuilt.extend N bc.rules r e.block e.shaTarget = .ok (.ok r') ∧
      connectToActive N (bc.live head r m ring) e.block e.shaTarget =
        .ok (bc.live head r' m (rememberUndo ring u), .ok r'.tipReceipts) := by
  have hclean := hw.clean he hk hr
  have hup : Replay N w k r' := hr'
  cases hr' with
  | genesis => exact absurd rfl hk
  | @block _ e' r1 _ hr1 he' _ hx =>
    obtain rfl : e' = e := Option.some.inj (he'.symm.trans he)
    obtain rfl := hr1.unique hr
    rw [← hrules] at hx hclean
    obtain ⟨u, hplace, hundo, hc⟩ := connectToActive_live head m ring hN (hw.good hN hr) hclean hx
    exact ⟨u, (Undoable.cons he hk hr hup hplace hundo hring).take _, hx, hc⟩

theorem connectBranch_live (cand : Candidate) (block : Block) (adopt : Bool) (low : Rebuilt) (head : Hash)
    (hN : N.Separating P) (hw : Grounded N P w) (hrules : bc.rules = w.rules)
    (hsub : ∀ k e, bc.index.get? k = some e → w.index.get? k = some e) {k1 : Hash} {r1 : Rebuilt}
    (hlinks : Links bc.index w.rules.genesisHash k1 bs k) (hr1 : Replay N w k1 r1) (hr : Replay N w k r)
    (hring : Undoable N w ring k1) (hle : ring.length ≤ reorgUndoWindow) :
    ∃ ring', Undoable N w ring' k ∧ ring'.length = min (ring.length + bs.length) reorgUndoWindow ∧
      connectBranch N cand adopt (bc.live head r1 (shown adopt low r1) ring) (bs ++ [block]) =
        connectBranch N cand adopt (bc.live head r (shown adopt low r) ring') [block] := by
  induction bs generalizing k1 r1 ring with
  | nil =>
    obtain rfl := hlinks.eq_of_nil
    obtain rfl := hr1.unique hr
    exact ⟨ring, hring, by simpa using hle, rfl⟩
  | cons b bs ih =>
    obtain ⟨k2, e, he, rfl, rfl, hk, hlinks⟩ := hlinks.cons_inv
    have hew := hsub _ _ he
    obtain ⟨r2, hr2⟩ := hw.exists_replay hew
    obtain ⟨u, hring2, hx, hc⟩ := connectToActive_indexed head (shown adopt low r1) hN hw hrules hew hk hr1 hr2
      hring
    have hlen : (rememberUndo ring u).length = min (ring.length + 1) reorgUndoWindow := length_rememberUndo u
    obtain ⟨ring', hring', hlen', heq⟩ := ih hlinks hr2 hring2 (by rw [hlen]; exact Nat.min_le_right _ _)
    refine ⟨ring', hring', ?_, ?_⟩
    · rw [hlen', hlen, List.length_cons]
      omega
    rw [List.cons_append, ← heq, connectBranch]
    have hget : (bc.live head r1 (shown adopt low r1) ring).index.get? (e.block.hash N) = some e := by
      rw [hw.skeleton.tree.hash_eq hew]
      exact he
    have hmore : (bs ++ [block]).isEmpty = false := by simp
    rw [hget, hmore, if_neg Bool.false_ne_true]
    dsimp only [Option.map_some]
    rw [hc]
    have hshown : (if adopt then (bc.live head r2 (shown adopt low r1) (rememberUndo ring u)).indexBlockReceipts
        e.block.header.height.toNat r2.tipReceipts
        else bc.live head r2 (shown adopt low r1) (rememberUndo ring u)) =
          bc.live head r2 (shown adopt low r2) (rememberUndo ring u) := by
      rw [← shown_add hx, indexBlockReceipts_live]
      split_ifs <;> rfl
    change connectBranch N cand adopt (if adopt then _ else _) (bs ++ [block]) = _
    rw [hshown]

theorem reconnectBlock_live (head : Hash) (hN : N.Separating P) (hw : Grounded N P w)
    (hrules : bc.rules = w.rules) (hsub : ∀ k e, bc.index.get? k = some e → w.index.get? k = some e) (he : bc.index.get? k = some e)
    (hk : k ≠ w.rules.genesisHash) (hr : Replay N w e.block.header.prevHash r) (hr' : Replay N w k r')
    (hring : Undoable N w ring e.block.header.prevHash) : ∃ u, Undoable N w (rememberUndo ring u) k ∧
      reconnectBlock N (bc.live head r (.ofBranch r.branchReceipts) ring) e.block =
        .ok (bc.live head r' (.ofBranch r'.branchReceipts) (rememberUndo ring u)) := by
  obtain ⟨u, hring', hx, hc⟩ := connectToActive_indexed head (.ofBranch r.branchReceipts) hN hw hrules
    (hsub _ _ he) hk hr hr' hring
  refine ⟨u, hring', ?_⟩
  have hget : (bc.live head r (.ofBranch r.branchReceipts) ring).index.get? (e.block.hash N) = some e := by
    rw [hw.skeleton.tree.hash_eq (hsub _ _ he)]
    exact he
  unfold reconnectBlock
  rw [hget]
  dsimp only
  rw [hc, (extend_fields hx).2.2, ReceiptIndex.ofBranch_snoc, ← indexBlockReceipts_live]
  rfl

theorem reconnect_live (head : Hash) (hN : N.Separating P) (hw : Grounded N P w)
    (hrules : bc.rules = w.rules) (hsub : ∀ k e, bc.index.get? k = some e → w.index.get? k = some e)
    {k1 : Hash} {r1 : Rebuilt} (hlinks : Links bc.index w.rules.genesisHash k1 bs k) (hr1 : Replay N w k1 r1)
    (hr : Replay N w k r) (hring : Undoable N w ring k1) (hle : ring.length ≤ reorgUndoWindow) :
    ∃ ring', Undoable N w ring' k ∧ ring'.length = min (ring.length + bs.length) reorgUndoWindow ∧
      reconnect N (bc.live head r1 (.ofBranch r1.branchReceipts) ring) bs.reverse =
        .ok (bc.live k r (.ofBranch r.branchReceipts) ring') := by
  suffices hfold : ∃ ring', Undoable N w ring' k ∧ ring'.length = min (ring.length + bs.length) reorgUndoWindow ∧
      bs.foldlM (reconnectBlock N) (bc.live head r1 (.ofBranch r1.branchReceipts) ring) =
        .ok (bc.live head r (.ofBranch r.branchReceipts) ring') by
    obtain ⟨ring', hring', hlen', heq⟩ := hfold
    refine ⟨ring', hring', hlen', ?_⟩
    have htip : (bc.live head r (.ofBranch r.branchReceipts) ring').blocks.tip.hash N = k :=
      hr.tip_hash hw.skeleton
    unfold reconnect
    rw [List.reverse_reverse, heq]
    exact congrArg (fun k => Except.ok { bc.live head r (.ofBranch r.branchReceipts) ring' with head := k }) htip
  induction bs generalizing k1 r1 ring with
  | nil =>
    obtain rfl := hlinks.eq_of_nil
    obtain rfl := hr1.unique hr
    exact ⟨ring, hring, by rw [List.length_nil]; omega, rfl⟩
  | cons b bs ih =>
    obtain ⟨k2, e, he, rfl, rfl, hk, hlinks⟩ := hlinks.cons_inv
    obtain ⟨r2, hr2⟩ := hw.exists_replay (hsub _ _ he)
    obtain ⟨u, hring2, hc⟩ := reconnectBlock_live head hN hw hrules hsub he hk hr1 hr2 hring
    have hlen : (rememberUndo ring u).length = min (ring.length + 1) reorgUndoWindow := length_rememberUndo u
    obtain ⟨ring', hring', hlen', heq⟩ := ih hlinks hr2 hring2 (by omega)
    refine ⟨ring', hring', ?_, ?_⟩
    · rw [hlen', hlen, List.length_cons]
      omega
    · rw [List.foldlM_cons, hc]
      exact heq

end
end Blockchain
end Sov
