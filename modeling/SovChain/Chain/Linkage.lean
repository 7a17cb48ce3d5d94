import SovChain.Chain.Setup
import SovChain.Runtime.Conservation

/-!
# The proof-of-work skip

A hash is linked only if it is on a chain of headers from this chain's genesis to the newest pin: what is
pending between two batches is itself such a chain without the pin, and it outlives the addition of pins
because it does not depend on them. A batch of headers may be cut anywhere as long as none of them is
refused; a refused header drops the rest of its batch.
-/

namespace Sov
open Sov.Runtime (bind_eq_ok)

/-- Headers from genesis on, each at its height and linked to the one before it; the last one has this
hash. -/
inductive HeaderChain (C : Crypto) (genesis : Hash) : List BlockHeader → Hash → Prop
  | genesis {h : BlockHeader} (hhash : h.hash C = genesis) (hheight : h.height.toNat = 0) :
      HeaderChain C genesis [h] genesis
  | link {hs : List BlockHeader} {tip : Hash} {h : BlockHeader} (hs_chain : HeaderChain C genesis hs tip)
      (hprev : h.prevHash = tip) (hheight : h.height.toNat = hs.length) :
      HeaderChain C genesis (hs ++ [h]) (h.hash C)

namespace Blockchain
variable {C : Crypto} {bc bc' : Blockchain}

/-- The pinned block at the newest height, or a block it descends from. -/
def Vouched (C : Crypto) (bc : Blockchain) (hash : Hash) : Prop :=
  ∃ newest pinned headers, bc.newestCheckpoint = some (newest, pinned) ∧
    HeaderChain C bc.rules.genesisHash headers pinned ∧ headers.length = newest + 1 ∧
    hash ∈ headers.map (BlockHeader.hash C)

structure LinkageSound (C : Crypto) (bc : Blockchain) : Prop where
  genesis_hash : bc.blocks.genesis.hash C = bc.rules.genesisHash
  genesis_height : bc.blocks.genesis.header.height.toNat = 0
  linked : ∀ hash, bc.isLinkedToCheckpoint hash = true → bc.Vouched C hash
  fresh : bc.linkagePrev = none → bc.linkagePending = []
  pending : ∀ tip, bc.linkagePrev = some tip → ∃ headers, HeaderChain C bc.rules.genesisHash headers tip ∧
    bc.linkagePending = headers.map (BlockHeader.hash C) ∧ bc.linkageNextHeight = headers.length

theorem isLinkedToCheckpoint_empty {hash : Hash} (h : bc.linkedToCheckpoint = .empty) :
    bc.isLinkedToCheckpoint hash = false := by simp [isLinkedToCheckpoint, h]

theorem mem_of_isLinkedToCheckpoint {hashes : List Hash} {hash : Hash}
    (h : bc.linkedToCheckpoint = OrdMap.ofKeys hashes) (hl : bc.isLinkedToCheckpoint hash = true) : hash ∈ hashes := by
  rw [isLinkedToCheckpoint, h, OrdMap.contains_eq] at hl
  exact OrdMap.mem_keys_ofKeys.mp (OrdMap.mem_keys.mpr hl)

namespace LinkageSound

theorem congr (h : LinkageSound C bc) (hs : bc'.setup = bc.setup) : LinkageSound C bc' := by
  have hrules : bc'.rules = bc.rules := congrArg Setup.rules hs
  have hgenesis : bc'.blocks.genesis = bc.blocks.genesis := congrArg Setup.genesis hs
  have hpins : bc'.checkpoints = bc.checkpoints := congrArg Setup.checkpoints hs
  have hlinked : bc'.linkedToCheckpoint = bc.linkedToCheckpoint := congrArg Setup.linkedToCheckpoint hs
  have hpending : bc'.linkagePending = bc.linkagePending := congrArg Setup.linkagePending hs
  have hnext : bc'.linkageNextHeight = bc.linkageNextHeight := congrArg Setup.linkageNextHeight hs
  have hprev : bc'.linkagePrev = bc.linkagePrev := congrArg Setup.linkagePrev hs
  refine ⟨?_, ?_, fun hash hl => ?_, fun hp => ?_, fun tip hp => ?_⟩
  · rw [hgenesis, hrules]
    exact h.genesis_hash
  · rw [hgenesis]
    exact h.genesis_height
  · rw [isLinkedToCheckpoint, hlinked] at hl
    have hv := h.linked hash hl
    unfold Vouched newestCheckpoint newestCheckpointHeight at hv ⊢
    rwa [hpins, hrules]
  · rw [hpending]
    exact h.fresh (hprev ▸ hp)
  · rw [hpending, hnext, hrules]
    exact h.pending tip (hprev ▸ hp)

theorem unlinked (h : LinkageSound C bc) {pins : OrdMap ℕ Hash} :
    LinkageSound C { bc with checkpoints := pins, linkedToCheckpoint := .empty } where
  genesis_hash := h.genesis_hash
  genesis_height := h.genesis_height
  linked _ hl := by
    rw [isLinkedToCheckpoint_empty rfl] at hl
    cases hl
  fresh := h.fresh
  pending := h.pending

theorem reset (h : LinkageSound C bc) : LinkageSound C bc.resetLinkageProgress where
  genesis_hash := h.genesis_hash
  genesis_height := h.genesis_height
  linked := h.linked
  fresh _ := rfl
  pending tip hp := by cases hp

theorem install (h : LinkageSound C bc) {newest : ℕ} {pinned : Hash} {headers : List BlockHeader}
    (hpin : bc.newestCheckpoint = some (newest, pinned))
    (hchain : HeaderChain C bc.rules.genesisHash headers pinned) (hlen : headers.length = newest + 1) : LinkageSound C
      { bc with linkedToCheckpoint := OrdMap.ofKeys (headers.map (BlockHeader.hash C)) } where
  genesis_hash := h.genesis_hash
  genesis_height := h.genesis_height
  linked _ hl :=
    ⟨newest, pinned, headers, hpin, hchain, hlen, mem_of_isLinkedToCheckpoint rfl hl⟩
  fresh := h.fresh
  pending := h.pending

theorem genesis_chain (h : LinkageSound C bc) :
    HeaderChain C bc.rules.genesisHash [bc.blocks.genesis.header] bc.rules.genesisHash :=
  .genesis h.genesis_hash h.genesis_height

end LinkageSound

variable {pinned : Hash} {headers : List BlockHeader} {newest : ℕ} {pins : List (ℕ × Hash)}

theorem proveLinks_sound {genesis tip : Hash} {hs : List BlockHeader} {proven : List Hash}
    (hchain : HeaderChain C genesis hs tip)
    (h : proveLinks C newest pinned hs.length (some tip) (hs.map (BlockHeader.hash C)) headers = .ok proven) :
    ∃ hs', HeaderChain C genesis hs' pinned ∧ hs'.length = newest + 1 ∧ proven = hs'.map (BlockHeader.hash C) := by
  induction headers generalizing hs tip with
  | nil => cases h
  | cons header rest ih =>
    unfold proveLinks at h
    dsimp only at h
    split at h
    · cases h
    rename_i hheight
    split at h
    · cases h
    rename_i hprev
    have hheight : header.height.toNat = hs.length := by simpa using hheight
    have hprev : header.prevHash = tip := by simpa using hprev
    have hnext := HeaderChain.link hchain hprev hheight
    split at h
    · rename_i hnewest
      split at h
      · cases h
      rename_i hpin
      have hpin : header.hash C = pinned := by simpa using hpin
      cases h
      refine ⟨hs ++ [header], hpin ▸ hnext, ?_, by simp⟩
      rw [List.length_append, List.length_singleton, ← hheight, hnewest]
    · refine ih hnext ?_
      simpa using h

theorem installCheckpointLinkage_sound {n : ℕ} (hs : LinkageSound C bc)
    (h : installCheckpointLinkage C bc headers = .ok (bc', n)) : LinkageSound C bc' := by
  unfold installCheckpointLinkage at h
  split at h
  · cases h
    exact hs
  rename_i newest pinned hpin
  rw [ActiveChain.get?_zero] at h
  rcases headers with _ | ⟨first, rest⟩
  · cases h
  dsimp only [List.head?_cons] at h
  split at h
  · cases h
  rename_i hfirst
  simp only [ne_eq, not_or, not_not] at hfirst
  obtain ⟨proven, hproven, h⟩ := bind_eq_ok.mp h
  cases h
  have hhash : first.hash C = bc.rules.genesisHash := hfirst.2.trans hs.genesis_hash
  have hchain : HeaderChain C bc.rules.genesisHash [first] bc.rules.genesisHash :=
    .genesis hhash hfirst.1
  -- The pin may be the genesis block itself.
  unfold proveLinks at hproven
  dsimp only at hproven
  rw [if_neg (by simpa using hfirst.1), if_neg (by simp)] at hproven
  split at hproven
  · rename_i hnewest
    split at hproven
    · cases hproven
    rename_i hpinned
    have hpinned : first.hash C = pinned := by simpa using hpinned
    cases hproven
    have hpin' : HeaderChain C bc.rules.genesisHash [first] pinned := by rwa [← hpinned, hhash]
    refine hs.install hpin hpin' ?_
    rw [← hnewest, hfirst.1]
    rfl
  · rw [hhash] at hproven
    obtain ⟨hs', hchain', hlen, rfl⟩ := proveLinks_sound hchain (by simpa [hhash] using hproven)
    exact hs.install hpin hchain' hlen

theorem relinkCheckpointFromLocal_sound (hs : LinkageSound C bc) :
    LinkageSound C (relinkCheckpointFromLocal C bc).1 := by
  unfold relinkCheckpointFromLocal
  dsimp only
  split_ifs
  · exact hs
  · exact hs
  split
  · exact hs
  · rename_i r hr
    obtain ⟨bc1, n⟩ := r
    exact installCheckpointLinkage_sound hs hr

theorem addCheckpoints_sound (hs : LinkageSound C bc) :
    LinkageSound C (bc.addCheckpoints C pins) := relinkCheckpointFromLocal_sound hs.unlinked

theorem setCheckpoints_sound (hs : LinkageSound C bc) :
    LinkageSound C (bc.setCheckpoints pins) := hs.unlinked.reset

theorem adoptLocalFinalizedCheckpoint_sound {depth : ℕ} (hs : LinkageSound C bc) :
    LinkageSound C (adoptLocalFinalizedCheckpoint C bc depth).1 := by
  unfold adoptLocalFinalizedCheckpoint
  dsimp only
  split_ifs
  · exact hs
  · exact hs
  · exact hs
  · split
    · exact hs
    · exact addCheckpoints_sound hs

theorem extendLoop_sound (hs : LinkageSound C bc) (hpin : bc.newestCheckpoint = some (newest, pinned)) :
    LinkageSound C (extendLoop C newest pinned bc headers).1 := by
  induction headers generalizing bc with
  | nil => exact hs
  | cons header rest ih =>
    unfold extendLoop
    dsimp only
    split
    · exact hs.reset
    rename_i hheight
    split
    · exact hs.reset
    rename_i hprev
    have hheight : header.height.toNat = bc.linkageNextHeight := by simpa using hheight
    have hprev : bc.linkagePrev = some header.prevHash := by simpa using hprev
    obtain ⟨headers, hchain, hpending, hnext⟩ := hs.pending _ hprev
    have hlink : HeaderChain C bc.rules.genesisHash (headers ++ [header]) (header.hash C) :=
      .link hchain rfl (hheight.trans hnext)
    have hhashes : bc.linkagePending ++ [header.hash C] =
        (headers ++ [header]).map (BlockHeader.hash C) := by rw [hpending]; simp
    split
    · rename_i hnewest
      split
      · exact hs.reset
      rename_i hpinned
      have hpinned : header.hash C = pinned := by simpa using hpinned
      rw [hhashes]
      refine (hs.install hpin (hpinned ▸ hlink) ?_).reset
      rw [List.length_append, List.length_singleton, ← hnext, ← hheight, hnewest]
    · refine ih ⟨hs.genesis_hash, hs.genesis_height, hs.linked, fun hp => (by cases hp), fun tip hp => ?_⟩ hpin
      cases hp
      refine ⟨headers ++ [header], hlink, hhashes, ?_⟩
      rw [List.length_append, List.length_singleton, ← hnext, ← hheight]

theorem LinkageSound.seed (hs : LinkageSound C bc) (hprev : bc.linkagePrev = none) :
    LinkageSound C (bc.seedLinkage bc.rules.genesisHash) := by
  refine ⟨hs.genesis_hash, hs.genesis_height, hs.linked, fun hp => (by cases hp), fun tip hp => ?_⟩
  cases hp
  refine ⟨[bc.blocks.genesis.header], hs.genesis_chain, ?_, rfl⟩
  have hhash : bc.blocks.genesis.header.hash C = bc.rules.genesisHash := hs.genesis_hash
  simp [seedLinkage, hs.fresh hprev, hhash]

theorem extendCheckpointLinkage_sound (hs : LinkageSound C bc) :
    LinkageSound C (extendCheckpointLinkage C bc headers).1 := by
  unfold extendCheckpointLinkage
  split
  · exact hs
  rename_i newest pinned hpin
  rw [ActiveChain.get?_zero]
  dsimp only
  rw [hs.genesis_hash]
  split_ifs with hready hprev hnewest hpinned
  · exact hs
  · exact extendLoop_sound hs hpin
  · exact hs.reset
  · have hnone : bc.linkagePrev = none := by simpa using hprev
    have hpinned : bc.rules.genesisHash = pinned := by simpa using hpinned
    have hhash : bc.blocks.genesis.header.hash C = bc.rules.genesisHash := hs.genesis_hash
    have hchain : HeaderChain C bc.rules.genesisHash [bc.blocks.genesis.header] pinned :=
      hpinned ▸ hs.genesis_chain
    have hinstall := hs.install hpin hchain (by rw [hnewest]; rfl)
    rw [List.map_singleton, hhash] at hinstall
    rw [hs.fresh hnone, List.nil_append]
    exact hinstall.reset
  · exact extendLoop_sound (hs.seed (by simpa using hprev)) hpin

variable {N : NodeEnv}

theorem linkageSound_new {config : GenesisConfig} {R : Rules} (h : Blockchain.new N config = .ok bc)
    (hR : bc.rules.Redeployed R) : LinkageSound N { bc with rules := R } := by
  obtain ⟨g, hg, -, -, rfl⟩ := new_eq_ok h
  refine ⟨hR.genesisHash.symm, ?_, fun hash hl => ?_, fun _ => rfl, fun tip hp => (by cases hp)⟩
  · exact genesis_height_of_build hg
  · rw [isLinkedToCheckpoint_empty rfl] at hl
    cases hl

theorem linkageSound_run {c : ChainCall} (hs : LinkageSound N bc) (h : c.run N bc = .ok bc') : LinkageSound N bc' := by
  cases c with
  | importBlock block =>
    rcases hi : importBlockTracked N bc block with p | x
    · rw [ChainCall.run, hi] at h
      cases h
    rw [ChainCall.run, hi] at h
    cases h
    exact hs.congr (setup_importBlockTracked hi)
  | setCheckpoints pins =>
    cases h
    exact setCheckpoints_sound hs
  | addCheckpoints pins =>
    cases h
    exact addCheckpoints_sound hs
  | installCheckpointLinkage headers =>
    unfold ChainCall.run at h
    dsimp only at h
    split at h
    · cases h
      exact hs
    · rename_i hi
      cases h
      exact installCheckpointLinkage_sound hs hi
  | extendCheckpointLinkage headers =>
    cases h
    exact extendCheckpointLinkage_sound hs
  | relinkCheckpointFromLocal =>
    cases h
    exact relinkCheckpointFromLocal_sound hs
  | adoptLocalFinalizedCheckpoint depth =>
    cases h
    exact adoptLocalFinalizedCheckpoint_sound hs

theorem Reachable.linkageSound (h : Reachable N bc) : LinkageSound N bc := by
  induction h with
  | new h hR => exact linkageSound_new h hR
  | call _ hrun ih => exact linkageSound_run ih hrun

/-! ## Batches -/

/-- The chain after batches of headers, whatever each of them returns. -/
def feed (C : Crypto) (bc : Blockchain) (batches : List (List BlockHeader)) : Blockchain :=
  batches.foldl (fun bc headers => (extendCheckpointLinkage C bc headers).1) bc

/-- A loop that is not over can go on with more headers. -/
theorem extendLoop_append (xs ys : List BlockHeader) : extendLoop C newest pinned bc (xs ++ ys) =
      match extendLoop C newest pinned bc xs with
      | (bc', .ok false) => extendLoop C newest pinned bc' ys
      | r => r := by
  induction xs generalizing bc with
  | nil => rfl
  | cons h rest ih =>
    rw [List.cons_append, extendLoop, extendLoop]
    dsimp only
    split_ifs
    · rfl
    · rfl
    · rfl
    · rfl
    · exact ih

/-- What stays fixed while headers are fed, and that a linkage is under way. -/
structure Linking (bc bc' : Blockchain) : Prop where
  checkpoints : bc'.checkpoints = bc.checkpoints
  linked : bc'.linkedToCheckpoint = bc.linkedToCheckpoint
  blocks : bc'.blocks = bc.blocks
  started : bc'.linkagePrev.isSome

variable {xs : List BlockHeader}

theorem extendLoop_linking (hprev : bc.linkagePrev.isSome)
    (h : extendLoop C newest pinned bc xs = (bc', .ok false)) : Linking bc bc' := by
  induction xs generalizing bc with
  | nil =>
    cases h
    exact ⟨rfl, rfl, rfl, hprev⟩
  | cons x rest ih =>
    unfold extendLoop at h
    dsimp only at h
    split_ifs at h
    · cases h
    · cases h
    · cases h
    · cases h
    · obtain ⟨hc, hl, hb, hs⟩ := ih rfl h
      exact ⟨hc, hl, hb, hs⟩

theorem ofKeys_append_ne_nil {α : Type} [LinearOrder α] (l : List α) (k : α) :
    (OrdMap.ofKeys (l ++ [k])).entries ≠ [] := by
  intro h
  have hk : k ∈ (OrdMap.ofKeys (l ++ [k])).keys := OrdMap.mem_keys_ofKeys.mpr (by simp)
  rw [OrdMap.keys, h] at hk
  cases hk

/-- A finished linkage is ready for the same pins. -/
theorem extendLoop_done (h : extendLoop C newest pinned bc xs = (bc', .ok true)) :
    bc'.checkpoints = bc.checkpoints ∧ bc'.checkpointLinkageReady = true := by
  induction xs generalizing bc with
  | nil => cases h
  | cons x rest ih =>
    unfold extendLoop at h
    dsimp only at h
    split_ifs at h
    · cases h
    · cases h
    · cases h
    · cases h
      refine ⟨rfl, ?_⟩
      simp [checkpointLinkageReady, ofKeys_append_ne_nil]
    · have hrest := ih h
      exact hrest

theorem newestCheckpoint_congr (h : bc'.checkpoints = bc.checkpoints) : bc'.newestCheckpoint = bc.newestCheckpoint := by
  unfold newestCheckpoint newestCheckpointHeight
  rw [h]

variable {ys : List BlockHeader} {b : Bool}

theorem extendCheckpointLinkage_ready {newest : ℕ × Hash} (hpin : bc.newestCheckpoint = some newest)
    (hready : bc.checkpointLinkageReady = true) : extendCheckpointLinkage C bc ys = (bc, .ok true) := by
  unfold extendCheckpointLinkage
  rw [hpin]
  dsimp only
  rw [if_pos hready]

theorem extendCheckpointLinkage_started (hpin : bc.newestCheckpoint = some (newest, pinned))
    (hready : bc.checkpointLinkageReady = false) (hprev : bc.linkagePrev.isSome) :
    extendCheckpointLinkage C bc ys = extendLoop C newest pinned bc ys := by
  unfold extendCheckpointLinkage
  rw [hpin, ActiveChain.get?_zero]
  dsimp only
  rw [if_neg (by simp [hready]), if_pos hprev]

theorem extendLoop_split (hpin : bc.newestCheckpoint = some (newest, pinned))
    (hready : bc.checkpointLinkageReady = false) (hprev : bc.linkagePrev.isSome)
    (h : extendLoop C newest pinned bc (xs ++ ys) = (bc', .ok b)) :
    extendCheckpointLinkage C (extendLoop C newest pinned bc xs).1 ys = (bc', .ok b) := by
  rw [extendLoop_append] at h
  cases hx : extendLoop C newest pinned bc xs with
  | mk bc1 r =>
    rw [hx] at h
    match r, h with
    | .error e, h => cases h
    | .ok true, h =>
      cases h
      obtain ⟨hpins, hready⟩ := extendLoop_done hx
      exact extendCheckpointLinkage_ready (by rw [newestCheckpoint_congr hpins, hpin]) hready
    | .ok false, h =>
      obtain ⟨hpins, hlinked, -, hstarted⟩ := extendLoop_linking hprev hx
      rw [extendCheckpointLinkage_started (by rw [newestCheckpoint_congr hpins, hpin]) ?_ hstarted]
      · exact h
      · rw [← hready, checkpointLinkageReady, checkpointLinkageReady, hpins, hlinked]

theorem extendCheckpointLinkage_append (h : extendCheckpointLinkage C bc (xs ++ ys) = (bc', .ok b)) :
    extendCheckpointLinkage C (extendCheckpointLinkage C bc xs).1 ys = (bc', .ok b) := by
  cases hpin : bc.newestCheckpoint with
  | none =>
    have hnone : ∀ zs, extendCheckpointLinkage C bc zs = (bc, .ok false) := by
      intro zs
      unfold extendCheckpointLinkage
      rw [hpin]
    rw [hnone] at h ⊢
    rw [hnone, h]
  | some p =>
    obtain ⟨newest, pinned⟩ := p
    cases hready : bc.checkpointLinkageReady with
    | true =>
      rw [extendCheckpointLinkage_ready hpin hready] at h ⊢
      rw [extendCheckpointLinkage_ready hpin hready, h]
    | false =>
      cases hprev : bc.linkagePrev.isSome with
      | true =>
        rw [extendCheckpointLinkage_started hpin hready hprev] at h ⊢
        exact extendLoop_split hpin hready hprev h
      | false =>
        unfold extendCheckpointLinkage at h
        rw [extendCheckpointLinkage.eq_def C bc xs]
        rw [hpin, ActiveChain.get?_zero] at h ⊢
        dsimp only at h ⊢
        rw [if_neg (by simp [hready]), if_neg (by simp [hprev])] at h ⊢
        split_ifs at h ⊢
        · cases h
        · cases h
          refine extendCheckpointLinkage_ready hpin ?_
          simp [checkpointLinkageReady, ofKeys_append_ne_nil]
        · have hpin' : (bc.seedLinkage (bc.blocks.genesis.hash C)).newestCheckpoint = some (newest, pinned) := hpin
          exact extendLoop_split hpin' hready rfl h

/-- Headers that are accepted as one batch may be fed in any batches. -/
theorem feed_eq {batch : List BlockHeader} {batches : List (List BlockHeader)}
    (h : extendCheckpointLinkage C bc (batch ++ batches.flatten) = (bc', .ok b)) :
    feed C bc (batch :: batches) = bc' := by
  induction batches generalizing bc batch with
  | nil =>
    rw [List.flatten_nil, List.append_nil] at h
    simp [feed, h]
  | cons next rest ih => exact ih (extendCheckpointLinkage_append h)

/-- Every linked hash is vouched for by the newest pin, whatever was called before; and headers that are
accepted as one batch end in the same chain however they are cut. -/
theorem linkage_sound {N : NodeEnv} {bc : Blockchain} (h : Reachable N bc) :
    (∀ hash, bc.isLinkedToCheckpoint hash = true → bc.Vouched N.toCrypto hash) ∧
    ∀ (batches : List (List BlockHeader)) (bc' : Blockchain) (ready : Bool), batches ≠ [] →
      extendCheckpointLinkage N.toCrypto bc batches.flatten = (bc', .ok ready) → feed N.toCrypto bc batches = bc' := by
  refine ⟨h.linkageSound.linked, fun batches bc' ready hne hok => ?_⟩
  cases batches with
  | nil => exact absurd rfl hne
  | cons batch rest => exact feed_eq hok

/-! ## A refused header -/

def sampleNode : NodeEnv := { Runtime.sampleEnv with randomX := fun _ _ => Hash.zero }

/-- A chain without accounts. -/
def sampleConfig : GenesisConfig where
  chainId := "sov"
  timestampMs := 0
  accounts := []
  mining := Runtime.sampleMining
  vesting := []

def sampleGenesis (N : NodeEnv) (config : GenesisConfig) : Genesis where
  ledger := .new N.toCrypto
  block := config.block N.toCrypto (.new N.toCrypto)
  coinbase := config.coinbase

/-- A header at a height that links to genesis. -/
def sampleHeader (height : U64) : BlockHeader where
  height
  prevHash := (sampleGenesis sampleNode sampleConfig).block.hash sampleNode.toCrypto
  txRoot := Hash.zero
  receiptsRoot := Hash.zero
  stateRoot := Hash.zero
  timestampMs := 0
  proposer := ⟨"genesis.sov"⟩
  versionBits := 0
  bits := 0
  nonce := 0

/-- The second header after genesis. -/
def nextHeader : BlockHeader := { sampleHeader 2 with prevHash := (sampleHeader 1).hash sampleNode.toCrypto }

/-- The chain with a header pinned. -/
def pinnedChain (header : BlockHeader) : Blockchain :=
  (ofGenesis sampleNode sampleConfig (sampleGenesis sampleNode sampleConfig)).setCheckpoints
    [(header.height.toNat, header.hash sampleNode.toCrypto)]

theorem reachable_pinnedChain (header : BlockHeader) : Reachable sampleNode (pinnedChain header) := by
  have hnew : Blockchain.new sampleNode sampleConfig =
      .ok (ofGenesis sampleNode sampleConfig (sampleGenesis sampleNode sampleConfig)) := rfl
  exact .call (c := .setCheckpoints _) (reachable_new hnew) rfl

/-- A header that links to nothing takes the rest of its batch with it, but not the next batch. -/
theorem feed_depends_on_batches : Reachable sampleNode (pinnedChain (sampleHeader 1)) ∧
      (feed sampleNode.toCrypto (pinnedChain (sampleHeader 1)) [[sampleHeader 5, sampleHeader 1]]).linkedToCheckpoint.keys =
        [] ∧
      (feed sampleNode.toCrypto (pinnedChain (sampleHeader 1)) [[sampleHeader 5], [sampleHeader 1]]).linkedToCheckpoint.keys ≠
        [] := by
  refine ⟨reachable_pinnedChain _, ?_, ?_⟩ <;> decide +kernel

/-- The chain that the two headers link. -/
def linkedChain : Blockchain :=
  (extendCheckpointLinkage sampleNode.toCrypto (pinnedChain nextHeader) [sampleHeader 1, nextHeader]).1

/-- The second header is pinned, and vouches for the first. -/
theorem linkage_sound_linkedChain :
    (extendCheckpointLinkage sampleNode.toCrypto (pinnedChain nextHeader) [sampleHeader 1, nextHeader]).2 = .ok true ∧
      feed sampleNode.toCrypto (pinnedChain nextHeader) [[sampleHeader 1], [nextHeader]] = linkedChain ∧
      linkedChain.Vouched sampleNode.toCrypto ((sampleHeader 1).hash sampleNode.toCrypto) := by
  have hok : (extendCheckpointLinkage sampleNode (pinnedChain nextHeader) [sampleHeader 1, nextHeader]).2 = .ok true := by
    decide +kernel
  have hlinked : linkedChain.isLinkedToCheckpoint ((sampleHeader 1).hash sampleNode.toCrypto) = true := by decide +kernel
  have hreach : Reachable sampleNode linkedChain := .call (c := .extendCheckpointLinkage _) (reachable_pinnedChain _) rfl
  exact ⟨hok, (linkage_sound (reachable_pinnedChain _)).2 _ _ true (by decide) (Prod.ext rfl hok),
    (linkage_sound hreach).1 _ hlinked⟩

end Blockchain
end Sov
