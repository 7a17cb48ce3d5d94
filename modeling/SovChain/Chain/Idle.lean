import SovChain.Chain.Pins
import SovChain.Chain.Runs

/-!
# Empty blocks

On a chain without rewards a block without transactions leaves the ledger as it is. Such blocks are clean, and
whether one is accepted is a matter of its header alone. They show what depends on the shape of the tree of
blocks and not on what the blocks do.
-/

namespace Sov
open Sov.Runtime (bind_eq_ok leaves notesAll)
namespace Verify

theorem checkTransition_self {s : Stores} {n : U128} (h : s.totalSupply = some n) : checkTransition s s = .ok () := by
  have htokens : ∀ l : List (Hash × TokenInfo), (∀ e ∈ l, s.tokens.get? e.1 = some e.2) →
      l.forM (checkTokenTransition s) = .ok () := by
    intro l hl
    induction l with
    | nil => rfl
    | cons e l ih =>
      obtain ⟨asset, info⟩ := e
      have he : checkTokenTransition s (asset, info) = .ok () := by
        unfold checkTokenTransition
        dsimp only
        rw [show s.tokens.get? asset = some info from hl (asset, info) List.mem_cons_self]
        simp
      change (checkTokenTransition s (asset, info) >>= fun _ => l.forM (checkTokenTransition s)) = _
      rw [he]
      exact ih fun e' he' => hl e' (List.mem_cons_of_mem _ he')
  have hsum : n.checkedAdd (s.minedEmitted - s.minedEmitted) = some n := by
    rw [BitVec.sub_self]
    exact BitVec.checkedAdd_eq_some.mpr (by simp)
  unfold checkTransition TransitionPre.capture
  rw [h]
  change checkTransitionPre _ s = _
  unfold checkTransitionPre
  rw [h]
  dsimp only
  rw [if_neg (Nat.lt_irrefl _), hsum]
  dsimp only
  rw [if_neg (not_not.mpr rfl)]
  exact htokens _ fun e he => OrdMap.get?_eq_some_iff.mpr he

end Verify

namespace Blockchain
variable {N : NodeEnv} {P : Bytes → Prop} {bc : Blockchain} {block : Block} {R : Rules} {r : Rebuilt} {L : Ledger}
  {shaTarget : Target} {signals : SignalLog}

/-- Nothing is mined and nothing is sent. -/
structure Idle (R : Rules) (block : Block) : Prop where
  budget : R.mining.miningBudgetGrains = 0
  body : block.transactions = []

theorem Idle.executeBlockOn (h : Idle R block) :
    Blockchain.executeBlockOn N R L block shaTarget signals = .ok (L, []) := by
  have hreward : (R.context block.header shaTarget signals).mining.rewardAt
      (R.context block.header shaTarget signals).height L.minedEmitted = 0 := by
    have hbudget : (R.context block.header shaTarget signals).mining.miningBudgetGrains = 0 := h.budget
    unfold MiningPolicy.rewardAt
    rw [hbudget]
    simp
  unfold Blockchain.executeBlockOn Runtime.executeBlock
  rw [h.body, Runtime.applyCoinbase]
  dsimp only
  rw [hreward, if_pos rfl]
  rfl

theorem Idle.extend_ne_error {p : Panic} (h : Idle R block) : Rebuilt.extend N R r block shaTarget ≠ .error p := by
  unfold Blockchain.Rebuilt.extend replayBlock
  rw [h.executeBlockOn]
  nofun

theorem Idle.clean (h : Idle R block) (hfits : Block.codec.Fits block) (hid : block.header.proposer.WellFormed)
    (hroom : notesAll N r.txs ≤ 2 ^ 32) : Clean N P R r block where
  fits := hfits
  ids id hmem := by
    have hids : block.ids = [block.header.proposer] := by simp [Block.ids, h.body]
    rw [hids, List.mem_singleton] at hmem
    exact hmem ▸ hid
  room := by
    rw [h.body, List.append_nil]
    exact hroom
  hashed := by
    rw [h.body]
    nofun
  journal t L' hL' := by
    rw [h.executeBlockOn] at hL'
    cases hL'
    nofun

theorem Idle.extend (h : Idle R block) (hstate : block.header.stateRoot = r.ledger.stateRoot N)
    (hreceipts : block.header.receiptsRoot = receiptsRoot N [])
    (hcheck : Verify.checkLedger r.ledger (R.policyWith shaTarget) = .ok ()) :
    Rebuilt.extend N R r block shaTarget = .ok (.ok (Rebuilt.next r block r.ledger [])) := by
  obtain ⟨n, hn⟩ := totalSupply_of_checkLedger hcheck
  unfold Blockchain.Rebuilt.extend replayBlock
  rw [h.executeBlockOn]
  dsimp only
  have hroots : checkRoots N block.header r.ledger [] = .ok () := by
    unfold checkRoots
    rw [hstate, hreceipts, if_neg (not_not.mpr rfl), if_neg (not_not.mpr rfl)]
  rw [hroots, Verify.checkTransition_self hn, hcheck]
  rfl

/-- Only idle blocks are indexed. -/
structure IdleTree (bc : Blockchain) : Prop where
  budget : bc.rules.mining.miningBudgetGrains = 0
  genesis : bc.blocks.genesis.transactions = []
  bodies : ∀ {k e}, bc.index.get? k = some e → e.block.transactions = []

namespace IdleTree
variable {k : Hash}

theorem replay (ht : IdleTree bc) (hr : Replay N bc k r) : r.ledger = bc.genesisLedger ∧ r.txs = [] := by
  induction hr with
  | genesis => exact ⟨rfl, by simp [Rebuilt.txs, base, ActiveChain.toList, ht.genesis]⟩
  | @block k e r r' _ he _ hx ih =>
    obtain ⟨L, receipts, ⟨hexec, -⟩, rfl⟩ := Rebuilt.extend_eq_ok hx
    have hbody := ht.bodies he
    have hidle : Idle bc.rules e.block := ⟨ht.budget, hbody⟩
    have hL : L = r.ledger := by
      rw [hidle.executeBlockOn] at hexec
      cases hexec
      rfl
    refine ⟨hL.trans ih.1, ?_⟩
    exact Rebuilt.txs_next.trans (by rw [ih.2, hbody]; rfl)

theorem cleanImport (ht : IdleTree bc) (hbody : block.transactions = []) (hfits : Block.codec.Fits block)
    (hid : block.header.proposer.WellFormed) : CleanImport N P bc block := by
  intro r hr
  have hroom : notesAll N r.txs ≤ 2 ^ 32 := by
    rw [(ht.replay hr).2]
    exact Nat.zero_le _
  exact Idle.clean ⟨ht.budget, hbody⟩ hfits hid hroom

end IdleTree

/-- The fields of fixed width up to the timestamp, and what follows. -/
theorem encode_header (header : BlockHeader) : BlockHeader.codec.encode header =
      (Codec.leBytes 8 header.height.toNat ++ header.prevHash.bytes ++ header.txRoot.bytes ++
        header.receiptsRoot.bytes ++ header.stateRoot.bytes) ++
        (Codec.leBytes 8 header.timestampMs.toNat ++ (AccountId.codec.encode header.proposer ++
          (Codec.leBytes 4 header.versionBits.toNat ++ (Codec.leBytes 4 header.bits.toNat ++
            Codec.leBytes 8 header.nonce.toNat)))) := by
  simp only [List.append_assoc]
  rfl

theorem length_encode_accountId (id : AccountId) : (AccountId.codec.encode id).length = 4 + id.bytes.length := by
  change (Codec.leBytes 4 _ ++ id.bytes.flatMap fun b => [b]).length = _
  rw [List.length_append, Codec.length_leBytes, List.flatMap_singleton']

theorem serializedSize_of_body (h : block.transactions = []) :
    block.serializedSize = 168 + block.header.proposer.bytes.length := by
  have hencode : Block.codec.encode block = BlockHeader.codec.encode block.header ++
      (Codec.leBytes 4 _ ++ block.transactions.flatMap SignedTransaction.codec.encode) := rfl
  rw [Block.serializedSize, hencode, encode_header, h]
  simp [FixedBytes.length_eq, length_encode_accountId]
  omega

variable {parent : BlockIndexEntry}

theorem floor_le_blockSizeLimit {C : Crypto} : blockSizeFloor ≤ bc.blockSizeLimit C parent := by
  unfold blockSizeLimit elasticBlockCap
  dsimp only
  split_ifs <;> omega

theorem validateCandidate_of_header (hbody : block.transactions = [])
    (hparent : bc.index.get? block.header.prevHash = some parent)
    (ht : bc.expectedTarget parent block.header.timestampMs = .ok shaTarget)
    (hsize : block.serializedSize ≤ blockSizeFloor) (hheight : block.header.height.toNat = parent.height + 1)
    (hpins : bc.checkpoints = .empty) (htime : parent.block.header.timestampMs ≤ block.header.timestampMs)
    (hmedian : bc.medianTimePastOf parent < block.header.timestampMs)
    (hbits : block.header.bits = shaTarget.toCompact) (hv2 : bc.rules.shieldedV2Deployment = none)
    (hseal : shaTarget.isMetBy (bc.sealOf N block.header) = true) (hroot : block.txRootMatches N = true) :
    bc.validateCandidate N block =
      .ok (.ok { shaTarget, newWork := parent.chainWork.saturatingAdd (Work.ofTarget shaTarget)
                 height := parent.height + 1 }) := by
  have hsigned : ∀ mode, block.allSignaturesValidMode N mode = true := by
    intro mode
    rw [Block.allSignaturesValidMode, hbody]
    rfl
  have hlight : bc.branchShieldedV2Active N block = false := by
    unfold branchShieldedV2Active
    rw [hv2]
    rfl
  have hcheck : bc.checkCandidate N block parent shaTarget =
      .ok { shaTarget, newWork := parent.chainWork.saturatingAdd (Work.ofTarget shaTarget)
            height := parent.height + 1 } := by
    unfold checkCandidate
    dsimp only
    rw [if_neg (not_not.mpr hheight), hpins, if_neg (by simp), if_neg (BitVec.not_lt.mpr htime),
      if_neg (BitVec.not_le.mpr hmedian), if_neg (not_not.mpr hbits), if_neg (by simp [hlight]), if_neg (by simp [hseal]),
      if_neg (by simp [hroot]), if_neg (by simp [hsigned])]
  unfold validateCandidate
  rw [hparent]
  dsimp only
  rw [if_neg (not_lt.mpr (hsize.trans floor_le_blockSizeLimit)), ht]
  exact congrArg Except.ok hcheck

variable {timestampMs : U64} {e : BlockIndexEntry}

/-- Until the window is full, and without a stall, the target is that of genesis. -/
theorem expectedTarget_early (hlow : parent.height + 1 ≤ difficultyWindow)
    (hquick : Difficulty.edaHalvings (timestampMs.saturatingSub parent.block.header.timestampMs)
      bc.rules.mining.targetBlockMs = 0) :
    bc.expectedTarget parent timestampMs = .ok bc.rules.mining.sha256dTarget.canonical := by
  unfold expectedTarget baseTarget
  rw [if_pos hlow]
  dsimp only [bind, Except.bind]
  split_ifs <;> rfl

theorem medianTimePastOf_le {tip : BlockIndexEntry} (h : ∀ t ∈ bc.index.recentTimes medianWindow tip, t ≤ timestampMs) :
    bc.medianTimePastOf tip ≤ timestampMs := by
  unfold medianTimePastOf
  dsimp only
  cases hget : ((bc.index.recentTimes medianWindow tip).insertionSort (· ≤ ·))[
      (bc.index.recentTimes medianWindow tip).length / 2]? with
  | none => exact BitVec.le_def.mpr (by simp)
  | some t =>
    have hmem := List.mem_of_getElem? hget
    exact h t ((List.mem_insertionSort _).mp hmem)

theorem recentTimes_le {k : Hash} (hs : Skeleton N bc) (ht : Timed N bc)
    (he : bc.index.get? k = some e) (n : ℕ) : ∀ t ∈ bc.index.recentTimes n e, t ≤ e.block.header.timestampMs := by
  induction n generalizing k e with
  | zero => nofun
  | succ n ih =>
    intro t htime
    unfold BlockIndex.recentTimes at htime
    obtain rfl | htime := List.mem_cons.mp htime
    · exact BitVec.le_refl _
    split_ifs at htime with h0
    · cases htime
    have hk : k ≠ bc.blocks.genesis.hash N := by
      rintro rfl
      obtain ⟨e0, he0, -, hzero⟩ := hs.tree.root
      cases he.symm.trans he0
      exact h0 hzero
    obtain ⟨p, hp, -⟩ := hs.tree.parent he hk
    rw [hp] at htime
    exact BitVec.le_trans (ih hp t htime) (ht he hk hp)

theorem Reachable.medianTimePastOf_le {k : Hash} (h : Reachable N bc)
    (he : bc.index.get? k = some e) : bc.medianTimePastOf e ≤ e.block.header.timestampMs :=
  Blockchain.medianTimePastOf_le (recentTimes_le h.skeleton h.timed he _)

theorem head_ofGenesis {config : GenesisConfig} {g : Genesis} : (ofGenesis N config g).head = g.block.hash N := rfl

/-! ## A node whose blocks are told apart by their timestamps -/

/-- A header hashes to its timestamp, an inner node of a tree to the exclusive or of one byte of each child, and a
short string to itself. Every seal is zero, and Ed25519 signatures all verify. -/
def datedCrypto : Crypto :=
  { xorCrypto with
    digest := fun p =>
      if 150 ≤ p.length then natHash (Codec.ofLeBytes ((p.drop 136).take 8))
      else if p.length = 65 then .fill 32 (p.getD 2 0 ^^^ p.getD 34 0)
      else padHash p
    sha256 := fun _ => Hash.zero
    verifyEd25519 := fun _ _ _ => true }

def datedNode : NodeEnv := { Runtime.sampleEnv with toCrypto := datedCrypto, randomX := fun _ _ => Hash.zero }

/-- The miner sets a key for its account. -/
def keyTx : SignedTransaction := Runtime.sampleTx "miner.sov" (.rotateKey Runtime.sampleKey (.v1Ed25519 (.zero 64)))

/-- The reserved slots, the account of the miner and its transaction. -/
def datedPreimages : List Bytes :=
  [Slot.account ⟨"miner.sov"⟩, .reserved .mined, .reserved .shielded, .reserved .shieldedValue, .reserved .htlcs,
    .reserved .htlcLocked, .reserved .deshieldWindow, .reserved .shieldedV2, .reserved .shieldedV2Value,
    .reserved .deshieldV2Window, .reserved .nftClasses, .reserved .nfts, .reserved .multisig, .reserved .proposals,
    .reserved .vaults, .reserved .vaultCollateral, .reserved .oraclePrice].map Slot.preimage ++
    [keyTx.transaction.signingBytes]

def Dated (p : Bytes) : Prop := p ∈ datedPreimages

theorem separating_datedCrypto : datedCrypto.Separating Dated where
  collisionFree := by
    have h : ∀ p ∈ datedPreimages, ∀ q ∈ datedPreimages, datedCrypto.digest p = datedCrypto.digest q → p = q := by
      decide +kernel
    exact fun p q hp hq => h p hp q hq
  reserved r := by
    unfold Dated
    cases r <;> decide +kernel

theorem hash_dated (block : Block) : block.hash datedCrypto = natHash block.header.timestampMs.toNat := by
  have hlow : (Codec.leBytes 8 block.header.height.toNat ++ block.header.prevHash.bytes ++
      block.header.txRoot.bytes ++ block.header.receiptsRoot.bytes ++ block.header.stateRoot.bytes).length = 136 := by
    simp [FixedBytes.length_eq]
  have hlong : 150 ≤ (BlockHeader.codec.encode block.header).length := by
    rw [encode_header, List.length_append, hlow]
    simp
    omega
  have hstamp : ((BlockHeader.codec.encode block.header).drop 136).take 8 =
      Codec.leBytes 8 block.header.timestampMs.toNat := by
    rw [encode_header, List.drop_left' hlow, List.take_left' (Codec.length_leBytes 8 _)]
  change datedCrypto.digest (BlockHeader.codec.encode block.header) = _
  simp only [datedCrypto]
  rw [if_pos hlong, hstamp, Codec.ofLeBytes_leBytes 8 _ block.header.timestampMs.isLt]

theorem timestampMs_of_hash_eq {b b' : Block} (h : b.hash datedCrypto = b'.hash datedCrypto) :
    b.header.timestampMs = b'.header.timestampMs := by
  rw [hash_dated, hash_dated] at h
  have hbytes : Codec.leBytes 32 b.header.timestampMs.toNat = Codec.leBytes 32 b'.header.timestampMs.toNat :=
    congrArg FixedBytes.bytes h
  have hlt : ∀ t : U64, t.toNat < 256 ^ 32 := fun t => t.isLt.trans (by decide)
  have hread := congrArg Codec.ofLeBytes hbytes
  rw [Codec.ofLeBytes_leBytes 32 _ (hlt _), Codec.ofLeBytes_leBytes 32 _ (hlt _)] at hread
  exact BitVec.eq_of_toNat_eq hread

/-- The configuration of the stamp node, from when a stall lowers the difficulty. -/
def datedConfig : GenesisConfig := { stampConfig with timestampMs := edaActivationMs }

/-- A block without transactions on top of another. -/
def plainBlock (parent : Block) (timestampMs : U64) (shaTarget : Target) (stateRoot : Hash) (proposer : AccountId) :
    Block :=
  let block := Block.assemble datedCrypto (parent.header.height + 1) (parent.hash datedCrypto) stateRoot
    (receiptsRoot datedCrypto []) timestampMs proposer []
  { block with header := { block.header with bits := shaTarget.toCompact } }

theorem stateRoot_plainBlock (parent : Block) (timestampMs : U64) (shaTarget : Target) (stateRoot : Hash)
    (proposer : AccountId) : (plainBlock parent timestampMs shaTarget stateRoot proposer).header.stateRoot = stateRoot :=
  rfl

theorem prevHash_plainBlock (parent : Block) (timestampMs : U64) (shaTarget : Target) (stateRoot : Hash)
    (proposer : AccountId) :
    (plainBlock parent timestampMs shaTarget stateRoot proposer).header.prevHash = parent.hash datedCrypto :=
  rfl

theorem fits_plainBlock {parent : Block} {timestampMs : U64} {stateRoot : Hash} {proposer : AccountId}
    (h : proposer.bytes.length < 2 ^ 32) :
    Block.codec.Fits (plainBlock parent timestampMs shaTarget stateRoot proposer) := by
  refine ⟨⟨trivial, trivial, trivial, trivial, trivial, trivial, ⟨h, fun _ _ => trivial⟩, trivial, trivial, trivial⟩,
    ?_, ?_⟩
  · simp [plainBlock, Block.assemble]
  · simp [plainBlock, Block.assemble]

/-- A plain block that comes later than its parent is valid with the target that is due. -/
theorem validateCandidate_plainBlock (stateRoot : Hash) {proposer : AccountId}
    (hreach : Reachable datedNode bc) (hv2 : bc.rules.shieldedV2Deployment = none)
    (hpins : bc.checkpoints = .empty) (hparent : bc.index.get? (parent.block.hash datedCrypto) = some parent)
    (ht : bc.expectedTarget parent timestampMs = .ok shaTarget) (hlow : parent.height + 1 < 2 ^ 64)
    (hproposer : proposer.bytes.length ≤ 64) (htime : parent.block.header.timestampMs < timestampMs) :
    bc.validateCandidate datedNode (plainBlock parent.block timestampMs shaTarget stateRoot proposer) =
      .ok (.ok { shaTarget, newWork := parent.chainWork.saturatingAdd (Work.ofTarget shaTarget)
                 height := parent.height + 1 }) := by
  have hmedian : bc.medianTimePastOf parent < timestampMs :=
    BitVec.lt_def.mpr (Nat.lt_of_le_of_lt (BitVec.le_def.mp (hreach.medianTimePastOf_le hparent))
      (BitVec.lt_def.mp htime))
  refine validateCandidate_of_header rfl hparent ht ?_ ?_ hpins (BitVec.le_of_lt htime) hmedian rfl hv2 ?_ ?_
  · rw [serializedSize_of_body rfl]
    change 168 + proposer.bytes.length ≤ _
    unfold blockSizeFloor
    omega
  · change (parent.block.header.height + 1).toNat = _
    rw [BitVec.toNat_add, hreach.skeleton.tree.height_eq hparent]
    exact Nat.mod_eq_of_lt hlow
  · have hseal : ∀ header, bc.sealOf datedNode header = Hash.zero := by
      intro header
      unfold sealOf NodeEnv.powSeal
      cases bc.rules.mining.powAlgo <;> rfl
    rw [hseal]
    exact decide_eq_true (Nat.zero_le _)
  · exact decide_eq_true rfl

/-- A plain block that changes nothing. -/
def emptyBlock (parent : Block) (timestampMs : U64) (shaTarget : Target) : Block :=
  plainBlock parent timestampMs shaTarget ((Ledger.new datedCrypto).stateRoot datedCrypto) ⟨"miner.sov"⟩

end Blockchain
end Sov
