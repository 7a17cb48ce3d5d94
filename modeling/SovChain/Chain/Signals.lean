import SovChain.Chain.Deployments
import SovChain.Chain.Pins
import SovChain.Chain.Sound

/-!
# The rules of a branch

Which rules a block is under depends on the version bits of the blocks below it. The chain keeps the bits of its active
blocks and cuts and extends them for another branch; an execution reads those that it met on its way. In every reachable
chain all of these are the bits of the branch, from height 1 up to the parent (`branchSignalsFrom_eq_log`,
`ExecutedUnder.eq_log`), and a rule that a branch activated stays active above (`Supersedes`).
-/

namespace Sov
open ActiveChain (tail_extend_genesis tail_push)
open Sov.Runtime (bind_eq_ok)

/-! ## Activation along a log -/

namespace Deployment
variable {d : Deployment} {log log' : SignalLog} {n n' : ℕ}

theorem activation_eq_some {boundary : ℕ} :
    d.activation log n = some boundary ↔ ∃ k < n / d.period, boundary = (k + 1) * d.period ∧
      d.stateInWindow log (k + 1) = .active ∧ ∀ j < k, d.stateInWindow log (j + 1) ≠ .active := by
  unfold activation
  rw [List.find?_map, Option.map_eq_some_iff]
  constructor
  · rintro ⟨k, hk, rfl⟩
    obtain ⟨hactive, hlt, hfirst⟩ := List.find?_range_eq_some.mp hk
    rw [Function.comp_apply, stateAt_boundary, decide_eq_true_eq] at hactive
    refine ⟨k, List.mem_range.mp hlt, rfl, hactive, fun j hj => ?_⟩
    have hnot := hfirst j hj
    rw [Function.comp_apply, stateAt_boundary] at hnot
    simpa using hnot
  · rintro ⟨k, hk, rfl, hactive, hfirst⟩
    refine ⟨k, List.find?_range_eq_some.mpr ⟨?_, List.mem_range.mpr hk, fun j hj => ?_⟩, rfl⟩
    · rw [Function.comp_apply, stateAt_boundary, decide_eq_true_eq]
      exact hactive
    · rw [Function.comp_apply, stateAt_boundary]
      simpa using hfirst j hj

theorem activation_mono (hle : n ≤ n') (hagree : ∀ i < n, log'.get? i = log.get? i) {boundary : ℕ}
    (h : d.activation log n = some boundary) : d.activation log' n' = some boundary := by
  have hstate : ∀ k < n / d.period, d.stateInWindow log' (k + 1) = d.stateInWindow log (k + 1) := by
    intro k hk
    have hend : (k + 1) * d.period ≤ n := (Nat.mul_le_mul_right _ hk).trans (Nat.div_mul_le_self _ _)
    refine stateInWindow_congr fun i hi => ?_
    rw [SignalLog.signals, SignalLog.signals, hagree i (by omega)]
  obtain ⟨k, hk, hboundary, hactive, hfirst⟩ := activation_eq_some.mp h
  refine activation_eq_some.mpr ⟨k, hk.trans_le (Nat.div_le_div_right hle), hboundary, ?_, fun j hj => ?_⟩
  · rw [hstate k hk]
    exact hactive
  · rw [hstate j (hj.trans hk)]
    exact hfirst j hj

end Deployment

/-- How far a signature regime has gone. -/
def TxDomainMode.stage : TxDomainMode → ℕ
  | .legacy => 0
  | .grace _ => 1
  | .bound _ => 2

/-- A later block is under every rule that an earlier one was under. -/
structure BlockContext.Supersedes (later earlier : BlockContext) : Prop where
  feeAuction : earlier.feeAuctionActive = true → later.feeAuctionActive = true
  shieldedV2 : earlier.shieldedV2Active = true → later.shieldedV2Active = true
  shieldedV2Suite2 : earlier.shieldedV2Suite2Active = true → later.shieldedV2Suite2Active = true
  txTimestamp : earlier.txTimestampActive = true → later.txTimestampActive = true
  txDomain : earlier.txDomain.stage ≤ later.txDomain.stage
  pq : ∀ schedule, earlier.pq = some schedule → later.pq = some schedule

section Logs
variable {log log' : SignalLog} {n n' : ℕ} (hle : n ≤ n') (hagree : ∀ i < n, log'.get? i = log.get? i)

include hle hagree

theorem deploymentActiveAt_mono {d : Option Deployment} (h : deploymentActiveAt d n log = true) :
    deploymentActiveAt d n' log' = true := by
  rcases d with _ | d
  · cases h
  · obtain ⟨boundary, hboundary⟩ := Option.isSome_iff_exists.mp h
    exact Option.isSome_iff_exists.mpr ⟨boundary, Deployment.activation_mono hle hagree hboundary⟩

namespace Rules
variable {R : Rules}

theorem shieldedV2Suite2Active_mono (h : R.shieldedV2Suite2Active n log = true) :
    R.shieldedV2Suite2Active n' log' = true := by
  unfold shieldedV2Suite2Active at h ⊢
  rw [Bool.and_eq_true, Bool.or_eq_true] at h ⊢
  obtain ⟨hsuite, hbase⟩ := h
  refine ⟨?_, deploymentActiveAt_mono hle hagree hbase⟩
  rcases hsuite with hsuite | hrecovery
  · exact .inl (deploymentActiveAt_mono hle hagree hsuite)
  · exact .inr (deploymentActiveAt_mono hle hagree hrecovery)

theorem stage_resolvedTxDomainMode_mono :
    (R.resolvedTxDomainMode n log).stage ≤ (R.resolvedTxDomainMode n' log').stage := by
  unfold resolvedTxDomainMode
  rcases hactivation : R.txDomainDeployment.bind fun d => d.activation log n with _ | boundary
  · exact Nat.zero_le _
  obtain ⟨d, hd, hboundary⟩ := Option.bind_eq_some_iff.mp hactivation
  have hlater := Deployment.activation_mono hle hagree hboundary
  rw [hd, Option.bind_some, hlater]
  dsimp only
  by_cases hgrace : n < boundary + R.txDomainGraceBlocks
  · rw [if_pos hgrace]
    split_ifs
    · exact le_rfl
    · exact Nat.le_succ _
  · rw [if_neg hgrace, if_neg (by omega)]

theorem resolvedPq_mono {schedule : PqSchedule} (h : R.resolvedPq n log = some schedule) :
    R.resolvedPq n' log' = some schedule := by
  obtain ⟨cfg, hcfg, h⟩ := Option.bind_eq_some_iff.mp h
  obtain ⟨boundary, hboundary, h⟩ := Option.bind_eq_some_iff.mp h
  unfold resolvedPq
  rw [hcfg, Option.bind_eq_bind, Option.bind_some, Deployment.activation_mono hle hagree hboundary]
  exact h

theorem context_supersedes {header header' : BlockHeader} (shaTarget shaTarget' : Target)
    (hheight : header.height.toNat = n) (hheight' : header'.height.toNat = n') :
    (R.context header' shaTarget' log').Supersedes (R.context header shaTarget log) := by
  subst hheight hheight'
  exact
    { feeAuction := deploymentActiveAt_mono hle hagree
      shieldedV2 := deploymentActiveAt_mono hle hagree
      shieldedV2Suite2 := shieldedV2Suite2Active_mono hle hagree
      txTimestamp := deploymentActiveAt_mono hle hagree
      txDomain := stage_resolvedTxDomainMode_mono hle hagree
      pq := fun _ => resolvedPq_mono hle hagree }

end Rules
end Logs

namespace Blockchain
open BlockIndex (Links Tree)
variable {N : NodeEnv} {bc bc' : Blockchain} {block : Block} {cand : Candidate} {k : Hash}
  {e parent : BlockIndexEntry} {bs : List Block}

/-! ## The log of a branch -/

/-- Record the bits of blocks. -/
def recordAll (log : SignalLog) (bs : List Block) : SignalLog :=
  bs.foldl (fun log b => log.record b.header.height.toNat b.header.versionBits) log

theorem recordAll_snoc (log : SignalLog) (bs : List Block) (b : Block) :
    recordAll log (bs ++ [b]) = (recordAll log bs).record b.header.height.toNat b.header.versionBits := by
  rw [recordAll, List.foldl_append]
  rfl

theorem recordAll_append (log : SignalLog) (bs bs' : List Block) :
    recordAll log (bs ++ bs') = recordAll (recordAll log bs) bs' := List.foldl_append

/-- The log has the bits of each block at its height, and nothing else. -/
theorem get?_log (h : Climbs 0 bs) (n : ℕ) :
    (recordAll .empty bs).get? n = if n = 0 then none else bs[n - 1]?.map fun b => b.header.versionBits := by
  induction bs using List.reverseRecOn with
  | nil =>
    rw [recordAll, List.foldl_nil, OrdMap.get?_empty, List.getElem?_nil]
    split_ifs <;> rfl
  | append_singleton bs b ih =>
    obtain ⟨hbelow, hheight⟩ := climbs_snoc.mp h
    rw [recordAll_snoc, SignalLog.record, OrdMap.get?_insert, hheight, Nat.zero_add, ih hbelow]
    by_cases hn : bs.length + 1 = n
    · subst hn
      rw [if_pos rfl, if_neg (by omega), Nat.add_sub_cancel, List.getElem?_concat_length]
      rfl
    rw [if_neg hn]
    by_cases hzero : n = 0
    · rw [if_pos hzero, if_pos hzero]
    rw [if_neg hzero, if_neg hzero]
    by_cases hlow : n - 1 < bs.length
    · rw [List.getElem?_append_left hlow]
    have hshort : (bs ++ [b]).length ≤ n - 1 := by
      rw [List.length_append, List.length_singleton]
      omega
    rw [List.getElem?_eq_none (Nat.not_lt.mp hlow), List.getElem?_eq_none hshort]

/-! ## The log of the active chain -/

/-- The chain keeps the bits of its active blocks. -/
def Recorded (bc : Blockchain) : Prop := bc.signals = recordAll .empty bc.blocks.toList.tail

theorem Recorded.congr (h : Recorded bc) (hsignals : bc'.signals = bc.signals) (hblocks : bc'.blocks = bc.blocks) :
    Recorded bc' := by
  unfold Recorded
  rw [hsignals, hblocks]
  exact h

/-- Taking the newest block off takes its bits out of the log. -/
theorem remove_log {b : Block} (h : Climbs 0 (bs ++ [b])) :
    (recordAll .empty (bs ++ [b])).remove b.header.height.toNat = recordAll .empty bs := by
  obtain ⟨hbelow, hheight⟩ := climbs_snoc.mp h
  have hfresh : (recordAll .empty bs).get? b.header.height.toNat = none := by
    rw [get?_log hbelow, hheight, Nat.zero_add, if_neg (Nat.succ_ne_zero _), Nat.add_sub_cancel,
      List.getElem?_eq_none le_rfl]
    rfl
  rw [recordAll_snoc]
  exact OrdMap.erase_insert hfresh _

variable {shaTarget : Target}

theorem Recorded.connectToActive {r : Except ChainError (List Receipt)} (h : Recorded bc)
    (hc : connectToActive N bc block shaTarget = .ok (bc', r)) : Recorded bc' := by
  obtain ⟨L, receipts, undo, -, rfl⟩ | ⟨L, e, -, rfl⟩ := connectToActive_eq_ok hc
  · unfold Recorded
    dsimp only
    rw [tail_push, recordAll_snoc, ← h]
  · exact h.congr rfl rfl

variable {r : Rebuilt}

theorem replayAncestors_signals {r' : Rebuilt} {blocks : List Block}
    (h : replayAncestors N bc r blocks = .ok (.ok r')) : r'.signals = recordAll r.signals blocks := by
  induction blocks generalizing r with
  | nil =>
    cases h
    rfl
  | cons b rest ih =>
    unfold replayAncestors at h
    split at h
    · cases h
    obtain ⟨x, hx, h⟩ := bind_eq_ok.mp h
    split at h
    · cases h
    · obtain ⟨L, receipts, -, rfl⟩ := Rebuilt.extend_eq_ok hx
      exact ih h

theorem carried_recorded : Carried N (fun _ => True) fun _ w =>
    Climbs 0 w.blocks.toList.tail ∧ w.signals = recordAll .empty w.blocks.toList.tail where
  connect {_ bc bc' b _ receipts} h _ hheight hc := by
    have hbefore : Recorded bc := h.2
    have hrec : Recorded bc' := hbefore.connectToActive hc
    obtain ⟨L, _, undo, -, rfl⟩ | ⟨L, e, he, -⟩ := connectToActive_eq_ok hc
    · exact ⟨ActiveChain.climbs_push.mpr ⟨h.1, hheight⟩, hrec⟩
    · cases he
  connectIndexed {bc bc' b _ receipts} h _ hheight hc := by
    have hbefore : Recorded bc := h.2
    have hrec : Recorded bc' := hbefore.connectToActive hc
    rw [indexBlockReceipts_eq]
    obtain ⟨L, _, undo, -, rfl⟩ | ⟨L, e, he, -⟩ := connectToActive_eq_ok hc
    · exact ⟨ActiveChain.climbs_push.mpr ⟨h.1, hheight⟩, hrec⟩
    · cases he
  reject h hc := by
    obtain ⟨L, _, undo, he, -⟩ | ⟨L, e, -, rfl⟩ := connectToActive_eq_ok hc
    · cases he
    · exact h
  disconnect {_ bc u ring b c} h _ hblocks _ _ := by
    obtain ⟨hclimbs, hlog⟩ := h
    change Climbs 0 bc.blocks.toList.tail at hclimbs
    change bc.signals = recordAll .empty bc.blocks.toList.tail at hlog
    rw [hblocks, tail_push] at hclimbs hlog
    refine ⟨(climbs_snoc.mp hclimbs).1, ?_⟩
    change bc.signals.remove b.header.height.toNat = recordAll .empty c.toList.tail
    rw [hlog]
    exact remove_log hclimbs
  conceal h := h
  reveal h := h
  rewind _ := ⟨trivial, rfl⟩
  replay {_ r _ b _} h _ hheight hx := by
    obtain ⟨L, receipts, -, rfl⟩ := Rebuilt.extend_eq_ok hx
    refine ⟨ActiveChain.climbs_push.mpr ⟨h.1, hheight⟩, ?_⟩
    change r.signals.record b.header.height.toNat b.header.versionBits = recordAll .empty (r.activeBlocks.push b).toList.tail
    rw [tail_push, recordAll_snoc]
    exact congrArg (SignalLog.record · _ _) h.2

theorem Reachable.recorded (h : Reachable N bc) : Recorded bc := by
  refine (carried_recorded.reachable (fun hnew _ => ?_) h).2
  obtain ⟨g, -, -, -, rfl⟩ := new_eq_ok hnew
  exact ⟨trivial, rfl⟩

/-! ## The log of any branch -/

theorem get?_removeAll (log : SignalLog) (fork m h : ℕ) :
    ((List.range m).foldl (fun log i => SignalLog.remove log (fork + i + 1)) log).get? h =
      if fork < h ∧ h ≤ fork + m then none else log.get? h := by
  induction m with
  | zero =>
    rw [if_neg (by omega)]
    rfl
  | succ m ih =>
    rw [List.range_succ, List.foldl_append, List.foldl_cons, List.foldl_nil, SignalLog.remove, OrdMap.get?_erase, ih]
    split_ifs <;> first | rfl | omega

variable {C : Crypto}

theorem exists_findFork (hs : Skeleton C bc) (above : List Block) {m : ℕ} (he : bc.index.get? k = some e)
    (hm : e.height < m) : ∃ f, bc.findFork C m k above = some f := by
  induction m generalizing k e above with
  | zero => omega
  | succ m ih =>
    unfold Blockchain.findFork
    rw [he]
    dsimp only
    split_ifs with hactive
    · exact ⟨_, rfl⟩
    have hk : k ≠ bc.blocks.genesis.hash C := by
      rintro rfl
      rw [(hs.tree.block_of_genesis he).2] at hactive
      exact hactive Skeleton.isActive_genesis
    obtain ⟨p, hp, hheight⟩ := hs.tree.parent he hk
    exact ih _ hp (by omega)

theorem branchSignalsFrom_eq_log (hs : Skeleton C bc) (h : Recorded bc)
    (hbs : Links bc.index (bc.blocks.genesis.hash C) (bc.blocks.genesis.hash C) bs k) :
    bc.branchSignalsFrom C k = recordAll .empty bs := by
  obtain ⟨e0, he0, -, h0⟩ := hs.tree.root
  obtain ⟨e, he, -⟩ := hbs.height hs.tree he0
  obtain ⟨⟨fork, above⟩, hfork⟩ := exists_findFork hs [] he (hs.tree.height_lt_length he)
  obtain ⟨k0, side, hactive, hside, habove⟩ := hs.findFork hfork
  obtain ⟨low, high, hlow, hhigh, hblocks, hlen⟩ := hs.isActive_split hactive
  obtain rfl : bs = low ++ side := hbs.unique (hlow.trans hside)
  have hpath := hlow.trans hhigh
  have hheight : bc.height = fork + high.length := by
    rw [height, hblocks, (path_tip hs.tree hpath).2, List.length_append, hlen]
  have hsignals : bc.signals = recordAll .empty (low ++ high) := by
    rw [h, hblocks, tail_extend_genesis]
  -- Removing the heights above the fork leaves the log of what both branches share.
  have hcut : (List.range (bc.height - fork)).foldl (fun log i => log.remove (fork + i + 1)) bc.signals =
      recordAll .empty low := by
    refine OrdMap.ext_get? fun n => ?_
    rw [get?_removeAll, hsignals, get?_log (hpath.climbs_zero hs.tree), get?_log (hlow.climbs_zero hs.tree)]
    by_cases hzero : n = 0
    · rw [if_neg (by omega), if_pos hzero, if_pos hzero]
    rw [if_neg hzero, if_neg hzero]
    by_cases hshared : n ≤ fork
    · rw [if_neg (by omega), List.getElem?_append_left (by omega)]
    have hnone : low[n - 1]? = none := List.getElem?_eq_none (by omega)
    rw [hnone]
    by_cases htop : n ≤ fork + high.length
    · rw [if_pos (by omega)]
      rfl
    have habsent : (low ++ high)[n - 1]? = none := by
      refine List.getElem?_eq_none ?_
      rw [List.length_append]
      omega
    rw [if_neg (by omega), habsent]
  unfold branchSignalsFrom
  rw [hfork]
  dsimp only
  rw [hcut, habove, List.append_nil, recordAll_append]
  rfl

/-! ## The log that an execution reads -/

/-- Connecting indexed blocks, oldest first, as a branch is connected below its last block. -/
inductive Connects (N : NodeEnv) (adopt : Bool) : Blockchain → List Block → Blockchain → Prop
  | nil {bc : Blockchain} : Connects N adopt bc [] bc
  | cons {bc bc₁ bc' : Blockchain} {b : Block} {rest : List Block} {e : BlockIndexEntry} {receipts : List Receipt}
      (he : bc.index.get? (b.hash N.toCrypto) = some e)
      (hc : connectToActive N bc b e.shaTarget = .ok (bc₁, .ok receipts))
      (hrest : Connects N adopt (if adopt then bc₁.indexBlockReceipts b.header.height.toNat receipts else bc₁) rest bc') :
      Connects N adopt bc (b :: rest) bc'

/-- The signals under which an import executes its block: those of the active chain, those met on the way up from the
fork, or those of a replay from genesis. -/
inductive ExecutedUnder (N : NodeEnv) (bc : Blockchain) (block : Block) : SignalLog → Prop
  | extending (hprev : block.header.prevHash = bc.head) : ExecutedUnder N bc block bc.signals
  | incremental {fork : ℕ} {ancestors old : List Block} {bc₁ bc₂ : Blockchain} {adopt : Bool}
      (hfork : bc.coveredFork N block = some (fork, ancestors ++ [block]))
      (hd : disconnectTo N bc fork = .ok (bc₁, old)) (hc : Connects N adopt bc₁ ancestors bc₂) :
      ExecutedUnder N bc block bc₂.signals
  | rebuilt {ancestors : List Block} {r : Rebuilt}
      (hanc : ancestorsOf bc bc.index.entries.length block.header.prevHash [] = some ancestors)
      (hr : replayAncestors N bc bc.base ancestors = .ok (.ok r)) : ExecutedUnder N bc block r.signals

variable {adopt : Bool} {receipts : List Receipt} {ancestors : List Block}

theorem Connects.signals (h : Connects N adopt bc bs bc') : bc'.signals = recordAll bc.signals bs := by
  induction h with
  | nil => rfl
  | @cons bc bc1 bc' b rest e receipts _ hc _ ih =>
    obtain ⟨L, receipts', undo, -, rfl⟩ | ⟨L, e, he, -⟩ := connectToActive_eq_ok hc
    · rw [ih]
      unfold Blockchain.indexBlockReceipts
      split_ifs
      · rfl
      · rfl
      · rfl
    · cases he

theorem Connects.rules (h : Connects N adopt bc bs bc') : bc'.rules = bc.rules := by
  induction h with
  | nil => rfl
  | @cons bc bc1 bc' b rest e receipts _ hc _ ih =>
    have hsetup : bc1.rules = bc.rules := congrArg Setup.rules (setup_connectToActive hc)
    rw [ih]
    unfold Blockchain.indexBlockReceipts
    split_ifs
    · exact hsetup
    · exact hsetup
    · exact hsetup

/-- However a block is executed, it reads the log of its branch. -/
theorem ExecutedUnder.eq_log {log : SignalLog} (hs : Skeleton N bc) (hrec : Recorded bc)
    (hv : Validated N bc block cand parent)
    (hbs : Links bc.index (bc.blocks.genesis.hash N) (bc.blocks.genesis.hash N) bs
      block.header.prevHash) (h : ExecutedUnder N bc block log) : log = recordAll .empty bs := by
  cases h with
  | extending hprev =>
    obtain ⟨active, hactive, hblocks⟩ := hs.active
    rw [hprev] at hbs
    obtain rfl := hbs.unique hactive
    rw [hrec, hblocks, tail_extend_genesis]
  | @incremental fork ancestors old bc1 bc2 adopt hfork hd hc =>
    obtain ⟨low, high, side, happend, hf⟩ := hs.forked hv hfork
    obtain ⟨rfl, -⟩ := List.append_inj' happend rfl
    have hd' : disconnectLoop N fork bc.undoRing bc [] = .ok (bc1, old) := hd
    obtain ⟨hout, -⟩ := disconnectLoop_outline hf.blocks_eq hf.height_eq.le hf.old_above hd'
    have hblocks : bc1.blocks = ActiveChain.extend ⟨bc.blocks.genesis, []⟩ low := congrArg Outline.blocks hout
    have hrec1 : Recorded bc1 := by
      refine (carried_recorded.disconnectLoop none ⟨hs.climbs, hrec⟩ hs.climbs (fun n hn => ?_) hd').2
      cases hn
    rw [hc.signals, hrec1, hblocks, tail_extend_genesis, ← recordAll_append, hbs.unique hf.base]
  | rebuilt hanc hr =>
    obtain ⟨path, hpath, happend⟩ := hs.ancestorsOf hanc
    rw [List.append_nil] at happend
    rw [replayAncestors_signals hr, happend, hbs.unique hpath]
    rfl

/-! ## Accepted blocks -/

/-- A block that was executed under a log and has the roots of its header. -/
def Executed (N : NodeEnv) (R : Rules) (block : Block) (shaTarget : Target) (log : SignalLog) : Prop :=
  ∃ L L' receipts, executeBlockOn N R L block shaTarget log = .ok (L', receipts) ∧
    checkRoots N block.header L' receipts = .ok ()

theorem executed_of_connectToActive
    (h : connectToActive N bc block shaTarget = .ok (bc', .ok receipts)) :
    Executed N bc.rules block shaTarget bc.signals := by
  unfold connectToActive at h
  split at h
  · cases h
  obtain ⟨⟨L, result⟩, hx, h⟩ := bind_eq_ok.mp h
  dsimp only at h
  split at h
  · cases h
    unfold tryConnectBlock at hx
    split at hx
    · cases hx
    · cases hx
    rename_i L' receipts' hexecute
    obtain ⟨-, hresult⟩ := Prod.mk.injEq .. ▸ Except.ok.inj hx
    obtain ⟨_, hroots, -⟩ := bind_eq_ok.mp hresult
    exact ⟨_, _, _, hexecute, hroots⟩
  · cases h

theorem executed_of_extend {R : Rules} {r' : Rebuilt}
    (h : Rebuilt.extend N R r block shaTarget = .ok (.ok r')) : Executed N R block shaTarget r.signals := by
  obtain ⟨L, receipts, ⟨hexecute, hroots⟩, -⟩ := Rebuilt.extend_eq_ok h
  exact ⟨_, _, _, hexecute, hroots⟩

/-- A branch that was connected to its end has its last block executed on top of the others. -/
theorem connects_of_connectBranch
    (h : connectBranch N cand adopt bc (ancestors ++ [block]) = .ok (bc', .connected receipts)) :
    ∃ bc1, Connects N adopt bc ancestors bc1 ∧ Executed N bc1.rules block cand.shaTarget bc1.signals := by
  induction ancestors generalizing bc with
  | nil =>
    rw [List.nil_append] at h
    unfold connectBranch at h
    dsimp only at h
    obtain ⟨⟨bc1, r⟩, hc, h⟩ := bind_eq_ok.mp h
    dsimp only at h
    split at h
    · cases h
    · exact ⟨bc, .nil, executed_of_connectToActive hc⟩
  | cons b rest ih =>
    rw [List.cons_append] at h
    unfold connectBranch at h
    have hmore : (rest ++ [block]).isEmpty = false := by simp
    dsimp only at h
    rw [hmore, if_neg Bool.false_ne_true] at h
    rcases he : bc.index.get? (b.hash N) with _ | e
    · rw [he] at h
      cases h
    rw [he, Option.map_some] at h
    dsimp only at h
    obtain ⟨⟨bc1, r⟩, hc, h⟩ := bind_eq_ok.mp h
    dsimp only at h
    split at h
    · cases h
    · rw [if_neg Bool.false_ne_true] at h
      obtain ⟨bc2, hconnects, hexecuted⟩ := ih h
      exact ⟨bc2, .cons he hc hconnects, hexecuted⟩

theorem connectBranch_ne_unindexed
    (hindexed : ∀ b ∈ ancestors, ∃ e, bc.index.get? (b.hash N) = some e) :
    connectBranch N cand adopt bc (ancestors ++ [block]) ≠ .ok (bc', .unindexed) := by
  intro h
  induction ancestors generalizing bc with
  | nil =>
    rw [List.nil_append] at h
    unfold connectBranch at h
    dsimp only at h
    obtain ⟨⟨bc1, r⟩, -, h⟩ := bind_eq_ok.mp h
    dsimp only at h
    split at h
    · cases h
    · cases h
  | cons b rest ih =>
    rw [List.cons_append] at h
    unfold connectBranch at h
    obtain ⟨e, he⟩ := hindexed b List.mem_cons_self
    have hmore : (rest ++ [block]).isEmpty = false := by simp
    dsimp only at h
    rw [hmore, if_neg Bool.false_ne_true, he, Option.map_some] at h
    dsimp only at h
    obtain ⟨⟨bc1, r⟩, hc, h⟩ := bind_eq_ok.mp h
    dsimp only at h
    split at h
    · cases h
    rw [if_neg Bool.false_ne_true] at h
    refine ih (fun b' hb' => ?_) h
    have hindex : bc1.index = bc.index := by
      obtain ⟨L, receipts, undo, -, rfl⟩ | ⟨L, e, -, rfl⟩ := connectToActive_eq_ok hc
      · rfl
      · rfl
    unfold Blockchain.indexBlockReceipts
    split_ifs
    · exact hindex ▸ hindexed b' (List.mem_cons_of_mem _ hb')
    · exact hindex ▸ hindexed b' (List.mem_cons_of_mem _ hb')
    · exact hindex ▸ hindexed b' (List.mem_cons_of_mem _ hb')

theorem Forked.executed (cand : Candidate) (adopt : Bool) {fork : ℕ} {low high old : List Block} {bc1 : Blockchain}
    (hs : Skeleton N bc) (hf : Forked N bc block fork low high bs)
    (hfork : bc.coveredFork N block = some (fork, bs ++ [block])) (hd : disconnectTo N bc fork = .ok (bc1, old)) :
    (∀ bc2, Blockchain.connectBranch N cand adopt bc1 (bs ++ [block]) ≠ .ok (bc2, .unindexed)) ∧
    ∀ bc2 receipts, Blockchain.connectBranch N cand adopt bc1 (bs ++ [block]) = .ok (bc2, .connected receipts) →
      ∃ log, ExecutedUnder N bc block log ∧ Executed N bc.rules block cand.shaTarget log := by
  have hd' : disconnectLoop N fork bc.undoRing bc [] = .ok (bc1, old) := hd
  obtain ⟨hout, -⟩ := disconnectLoop_outline hf.blocks_eq hf.height_eq.le hf.old_above hd'
  have hindex : bc1.index = bc.index := congrArg Outline.index hout
  refine ⟨fun bc2 => connectBranch_ne_unindexed fun b hb => ?_, fun bc2 receipts hc => ?_⟩
  · obtain ⟨e, he, -⟩ := hf.base.indexed hs.tree (List.mem_append_right low hb)
    exact ⟨e, hindex ▸ he⟩
  obtain ⟨bc3, hconnects, hexecuted⟩ := connects_of_connectBranch hc
  have hrules : bc3.rules = bc.rules := hconnects.rules.trans (congrArg Setup.rules (setup_disconnectTo hd))
  rw [hrules] at hexecuted
  exact ⟨_, .incremental hfork hd hconnects, hexecuted⟩

theorem executed_of_rebuildBranch (h : rebuildBranch N bc block cand = .ok (.ok r)) :
    ∃ log, ExecutedUnder N bc block log ∧ Executed N bc.rules block cand.shaTarget log := by
  unfold rebuildBranch at h
  split at h
  · cases h
  rename_i ancestors hanc
  obtain ⟨x, hx, h⟩ := bind_eq_ok.mp h
  split at h
  · cases h
  · exact ⟨_, .rebuilt hanc hx, executed_of_extend h⟩

/-- An accepted block was executed on its branch and has the roots that its header names. -/
theorem importBlockTracked_executed {imported : Imported} (hs : Skeleton N bc)
    (hnew : bc.index.get? (block.hash N) = none) (h : importBlockTracked N bc block = .ok (bc', .ok imported)) :
    ∃ cand, bc.validateCandidate N block = .ok (.ok cand) ∧
      ∃ log, ExecutedUnder N bc block log ∧ Executed N bc.rules block cand.shaTarget log := by
  cases importBlockTracked_cases h with
  | known hknown =>
    rw [hnew] at hknown
    cases hknown
  | invalid _ _ _ hres => cases hres
  | @extending cand _ hv hprev hx =>
    obtain ⟨⟨bc1, r⟩, hc, hx⟩ := bind_eq_ok.mp hx
    dsimp only at hx
    split at hx
    · cases hx
    · exact ⟨cand, hv, _, .extending hprev, executed_of_connectToActive hc⟩
  | @reorganising cand _ _ hvalid _ _ _ hx =>
    obtain ⟨parent, hv⟩ := validateCandidate_eq_ok hvalid
    obtain ⟨⟨bc1, r⟩, hr, hx⟩ := bind_eq_ok.mp hx
    refine ⟨cand, hvalid, ?_⟩
    unfold tryIncrementalReorg at hr
    split at hr
    · cases hr
      obtain ⟨x, hrebuild, hx⟩ := bind_eq_ok.mp hx
      split at hx
      · cases hx
      · exact executed_of_rebuildBranch hrebuild
    · rename_i fork blocks hcovered
      obtain ⟨low, high, bs, rfl, hf⟩ := hs.forked hv hcovered
      obtain ⟨⟨bc2, old⟩, hd, hr⟩ := bind_eq_ok.mp hr
      obtain ⟨⟨bc3, outcome⟩, hc, hr⟩ := bind_eq_ok.mp hr
      obtain ⟨hindexed, hconnected⟩ := hf.executed cand true hs hcovered hd
      dsimp only at hr
      split at hr
      · exact absurd hc (hindexed _)
      · obtain ⟨bc4, -, hr⟩ := bind_eq_ok.mp hr
        obtain ⟨bc5, -, hr⟩ := bind_eq_ok.mp hr
        cases hr
        cases hx
      · exact hconnected _ _ hc
  | @side cand _ _ hvalid _ _ _ hx =>
    obtain ⟨parent, hv⟩ := validateCandidate_eq_ok hvalid
    obtain ⟨⟨bc1, r⟩, hr, hx⟩ := bind_eq_ok.mp hx
    refine ⟨cand, hvalid, ?_⟩
    unfold tryIncrementalSideBranch at hr
    split at hr
    · cases hr
      obtain ⟨x, hrebuild, hx⟩ := bind_eq_ok.mp hx
      split at hx
      · cases hx
      · exact executed_of_rebuildBranch hrebuild
    · rename_i fork blocks hcovered
      obtain ⟨low, high, bs, rfl, hf⟩ := hs.forked hv hcovered
      obtain ⟨⟨bc2, old⟩, hd, hr⟩ := bind_eq_ok.mp hr
      obtain ⟨⟨bc3, outcome⟩, hc, hr⟩ := bind_eq_ok.mp hr
      obtain ⟨bc4, -, hr⟩ := bind_eq_ok.mp hr
      obtain ⟨bc5, -, hr⟩ := bind_eq_ok.mp hr
      obtain ⟨hindexed, hconnected⟩ := hf.executed cand false hs hcovered hd
      cases hr
      rcases outcome with receipts | _ | e
      · exact hconnected _ _ hc
      · exact absurd hc (hindexed _)
      · cases hx

/-! ## Validation and execution agree -/

/-- The size cap of a block before the second suite raises it. -/
def normalSizeLimit (bc : Blockchain) (parent : BlockIndexEntry) : ℕ :=
  elasticBlockCap ((parent :: bc.index.walk (blockSizeWindow - 1) parent.block.header.prevHash).map BlockIndexEntry.size)

/-- A candidate is judged by the rules of a context. -/
structure JudgedBy (C : Crypto) (bc : Blockchain) (block : Block) (parent : BlockIndexEntry) (context : BlockContext) :
    Prop where
  txDomain : bc.branchTxDomainMode C block = context.txDomain
  shieldedV2 : bc.branchShieldedV2Active C block = context.shieldedV2Active
  sizeLimit : block.header.height.toNat = parent.height + 1 → bc.blockSizeLimit C parent =
    if context.shieldedV2Suite2Active then max (bc.normalSizeLimit parent) suite2SizeFloor else bc.normalSizeLimit parent

/-- The log of the head is the active one, so it does not matter from which of them a rule is resolved. -/
theorem signals_of_parent {α : Type} (hs : Skeleton C bc) (hrec : Recorded bc) (f : SignalLog → α) :
    (if k = bc.head then f bc.signals else f (bc.branchSignalsFrom C k)) = f (bc.branchSignalsFrom C k) := by
  split_ifs with hk
  · obtain ⟨bs, hbs, hblocks⟩ := hs.active
    rw [hk, branchSignalsFrom_eq_log hs hrec hbs, hrec, hblocks, tail_extend_genesis]
  · rfl

theorem judgedBy (hs : Skeleton C bc) (hrec : Recorded bc)
    (hp : bc.index.get? block.header.prevHash = some parent) (shaTarget : Target) : JudgedBy C bc block parent
      (bc.rules.context block.header shaTarget (bc.branchSignalsFrom C block.header.prevHash)) := by
  refine ⟨?_, ?_, fun hheight => ?_⟩
  · unfold branchTxDomainMode
    dsimp only
    rw [signals_of_parent hs hrec]
    split_ifs with hnone
    · change _ = bc.rules.resolvedTxDomainMode _ _
      unfold Rules.resolvedTxDomainMode
      rw [Option.isNone_iff_eq_none.mp hnone]
      rfl
    · rfl
  · unfold branchShieldedV2Active
    dsimp only
    rw [signals_of_parent hs hrec]
    split_ifs with hnone
    · change _ = deploymentActiveAt _ _ _
      rw [Option.isNone_iff_eq_none.mp hnone]
      rfl
    · rfl
  · have hhash : parent.block.hash C = block.header.prevHash := hs.tree.hash_eq hp
    change _ = if bc.rules.shieldedV2Suite2Active block.header.height.toNat _ = true then _ else _
    unfold blockSizeLimit
    dsimp only
    rw [hhash, signals_of_parent hs hrec, hheight]
    split_ifs with hnone hactive
    · -- Without a deployment the second suite is active on no branch.
      rw [Bool.and_eq_true, Option.isNone_iff_eq_none, Option.isNone_iff_eq_none] at hnone
      unfold Rules.shieldedV2Suite2Active at hactive
      rw [hnone.1, hnone.2] at hactive
      cases hactive
    · rfl
    · rfl
    · rfl

/-- The rules of every block of a chain come from the blocks below it. -/
structure RulesFromBranch (N : NodeEnv) (bc : Blockchain) : Prop where
  /-- The log of a branch has the bits of its blocks from height 1 up to the newest. -/
  log : ∀ k e, bc.index.get? k = some e → ∃ bs, Links bc.index bc.rules.genesisHash bc.rules.genesisHash bs k ∧
    bs.length = e.height ∧ ∀ n, (bc.branchSignalsFrom N.toCrypto k).get? n =
      if n = 0 then none else bs[n - 1]?.map fun b => b.header.versionBits
  /-- Validation resolves its rules from the log of the branch. -/
  judged : ∀ block parent shaTarget, bc.index.get? block.header.prevHash = some parent →
    JudgedBy N.toCrypto bc block parent
      (bc.rules.context block.header shaTarget (bc.branchSignalsFrom N.toCrypto block.header.prevHash))
  /-- So does execution, on each of its paths. -/
  executed : ∀ block cand log, bc.validateCandidate N block = .ok (.ok cand) → ExecutedUnder N bc block log →
    log = bc.branchSignalsFrom N.toCrypto block.header.prevHash
  /-- Every accepted block went through such an execution. -/
  accepted : ∀ block bc' imported, bc.index.get? (block.hash N.toCrypto) = none →
    importBlockTracked N bc block = .ok (bc', .ok imported) →
      ∃ cand log, bc.validateCandidate N block = .ok (.ok cand) ∧ ExecutedUnder N bc block log ∧
        Executed N bc.rules block cand.shaTarget log
  /-- Higher up on a branch no rule is lost. -/
  monotone : ∀ k k' e e' bs, bc.index.get? k = some e → bc.index.get? k' = some e' →
    Links bc.index bc.rules.genesisHash k bs k' → ∀ header header' : BlockHeader, ∀ shaTarget shaTarget',
      header.height.toNat = e.height + 1 → header'.height.toNat = e'.height + 1 →
        (bc.rules.context header' shaTarget' (bc.branchSignalsFrom N.toCrypto k')).Supersedes
          (bc.rules.context header shaTarget (bc.branchSignalsFrom N.toCrypto k))

/-- What is logged below a height of a branch is logged for every block above. -/
theorem get?_log_append {bs' : List Block} (h : Climbs 0 (bs ++ bs')) {n : ℕ} (hn : n < bs.length + 1) :
    (recordAll .empty (bs ++ bs')).get? n = (recordAll .empty bs).get? n := by
  rw [get?_log h, get?_log (climbs_append.mp h).1]
  by_cases hzero : n = 0
  · rw [if_pos hzero, if_pos hzero]
  · rw [if_neg hzero, if_neg hzero, List.getElem?_append_left (by omega)]

theorem rules_from_branch (N : NodeEnv) (bc : Blockchain) (h : Reachable N bc) : RulesFromBranch N bc := by
  have hs := h.skeleton
  have hrec := h.recorded
  have hpath : ∀ {k e}, bc.index.get? k = some e →
      ∃ bs, Links bc.index (bc.blocks.genesis.hash N) (bc.blocks.genesis.hash N) bs k ∧
        bs.length = e.height := by
    intro k e he
    exact hs.tree.exists_links he
  constructor
  · intro k e he
    obtain ⟨bs, hbs, hlen⟩ := hpath he
    refine ⟨bs, hs.genesis_hash ▸ hbs, hlen, fun n => ?_⟩
    rw [branchSignalsFrom_eq_log hs hrec hbs, get?_log (hbs.climbs_zero hs.tree)]
  · intro block parent shaTarget hp
    exact judgedBy hs hrec hp shaTarget
  · intro block cand log hvalid hunder
    obtain ⟨parent, hv⟩ := validateCandidate_eq_ok hvalid
    obtain ⟨bs, hbs, -⟩ := hpath hv.parent_eq
    rw [hunder.eq_log hs hrec hv hbs, branchSignalsFrom_eq_log hs hrec hbs]
  · intro block bc' imported hnew hi
    obtain ⟨cand, hv, log, hexecuted⟩ := importBlockTracked_executed hs hnew hi
    exact ⟨cand, log, hv, hexecuted⟩
  intro k k' e e' mid he he' hmid header header' shaTarget shaTarget' hheader hheader'
  obtain ⟨bs, hbs, hlen⟩ := hpath he
  rw [hs.genesis_hash] at hmid
  have habove := hbs.trans hmid
  obtain ⟨e'', he'', hheight⟩ := hmid.height hs.tree he
  cases he'.symm.trans he''
  rw [branchSignalsFrom_eq_log hs hrec hbs, branchSignalsFrom_eq_log hs hrec habove]
  have hle : e.height + 1 ≤ e'.height + 1 := by omega
  refine Rules.context_supersedes hle (fun n hn => ?_) _ _ hheader hheader'
  exact get?_log_append (habove.climbs_zero hs.tree) (by omega)

/-- A chain that left a branch of two blocks for a heavier one. -/
theorem overtaken_rules_from_branch : ∃ bc, bc.height = 1 ∧ bc.index.entries.length = 4 ∧
    RulesFromBranch stampNode bc := by
  have hstatus : (afterImport stampNode quickBlock slowChain).map (fun bc => (bc.height, bc.index.entries.length)) =
      some (1, 4) := by
    decide +kernel
  obtain ⟨bc, hbc, hboth⟩ := Option.map_eq_some_iff.mp hstatus
  obtain ⟨hheight, hlength⟩ := Prod.mk.injEq .. ▸ hboth
  exact ⟨bc, hheight, hlength,
    rules_from_branch stampNode bc (reachable_afterImport (fun _ h => reachable_slowChain h) hbc)⟩

end Blockchain
end Sov
