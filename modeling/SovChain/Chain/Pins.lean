import SovChain.Chain.Tree
import SovChain.Runtime.Conservation
import SovChain.State.Merkle

/-!
# A pinned block and the branches that avoid it

A pin refuses any other block at its own height. It says nothing about the blocks below it, and the best
branch is the one with the most work, not the longest: a heavy branch that forks below the pinned block and
does not reach its height takes the pinned block off the active chain.
-/

namespace Sov
namespace Blockchain
variable {N : NodeEnv} {bc bc' : Blockchain} {block : Block} {H : ℕ} {pinned : Hash} {o : Option Blockchain}

/-- Imports, each of a block that satisfies `G` where it arrives. -/
inductive Imports (N : NodeEnv) (G : Blockchain → Block → Prop) : Blockchain → Blockchain → Prop
  | refl {bc : Blockchain} : Imports N G bc bc
  | step {bc bc₁ bc' : Blockchain} {block : Block} {res : Except ChainError Imported}
      (h : Imports N G bc bc₁) (hG : G bc₁ block) (himport : importBlockTracked N bc₁ block = .ok (bc', res)) :
      Imports N G bc bc'

/-- No branch that ends below height `H` is preferred to the active one because of this block. -/
def NotOvertaking (N : NodeEnv) (H : ℕ) (bc : Blockchain) (block : Block) : Prop :=
  ∀ cand head, bc.validateCandidate N block = .ok (.ok cand) → cand.height < H →
    bc.index.get? bc.head = some head →
    beats cand.newWork (block.hash N.toCrypto) head.chainWork bc.head = false

/-- The pinned block is the only one known at its height, and the active chain reaches up to it. -/
structure Held (C : Crypto) (H : ℕ) (pinned : Hash) (bc : Blockchain) : Prop where
  skeleton : Skeleton C bc
  pin : bc.checkpoints.get? H = some pinned
  only : ∀ k e, bc.index.get? k = some e → e.height = H → k = pinned
  reached : H ≤ bc.height

theorem Held.isActive {C : Crypto} (h : Held C H pinned bc) : bc.isActive C H pinned = true := by
  obtain ⟨bs, hbs, hblocks⟩ := h.skeleton.active
  have hlen : bc.height = bs.length := by rw [height, hblocks, (path_tip h.skeleton.tree hbs).2]
  have hH := h.reached
  have htake : (bs.take H).length = H := by rw [List.length_take, Nat.min_eq_left (by omega)]
  rw [← List.take_append_drop H bs] at hbs hblocks
  obtain ⟨k, hlow, -⟩ := hbs.split
  obtain ⟨e0, he0, -, h0⟩ := h.skeleton.tree.root
  obtain ⟨e, he, hheight⟩ := hlow.height h.skeleton.tree he0
  have hk : k = pinned := h.only k e he (by omega)
  have hactive := h.skeleton.isActive_length hlow hblocks
  rwa [htake, hk] at hactive

theorem Held.only_insert (h : Held N H pinned bc) {cand : Candidate} {parent : BlockIndexEntry}
    (hv : Validated N bc block cand parent) (k : Hash) (e : BlockIndexEntry)
    (he : (bc.insertEntry N block cand).index.get? k = some e) (hH : e.height = H) : k = pinned := by
  change (bc.index.insert _ _).get? k = some e at he
  rw [OrdMap.get?_insert] at he
  split_ifs at he with hk
  · cases he
    rw [← hk]
    refine hv.pinned pinned ?_
    rw [hv.height_eq, ← hv.cand_height, ← h.pin]
    exact congrArg _ hH
  · exact h.only k e he hH

theorem Held.importBlock {res : Except ChainError Imported} (h : Held N H pinned bc)
    (hG : NotOvertaking N H bc block) (himport : importBlockTracked N bc block = .ok (bc', res)) :
    Held N H pinned bc' := by
  have hsetup := setup_importBlockTracked himport
  have hskeleton := importBlockTracked_skeleton h.skeleton himport
  have hpins : bc'.checkpoints = bc.checkpoints := congrArg Setup.checkpoints hsetup
  have hpin : bc'.checkpoints.get? H = some pinned := by rw [hpins, h.pin]
  cases importBlockTracked_grows h.skeleton himport with
  | same hout =>
    have hindex : bc'.index = bc.index := congrArg Outline.index hout
    have hblocks : bc'.blocks = bc.blocks := congrArg Outline.blocks hout
    exact ⟨hskeleton, hpin, by rw [hindex]; exact h.only, by rw [height, hblocks]; exact h.reached⟩
  | stored hv hnew hout hworse =>
    rename_i cand parent
    have hindex : bc'.index = (bc.insertEntry N block cand).index := congrArg Outline.index hout
    have hblocks : bc'.blocks = bc.blocks := congrArg Outline.blocks hout
    exact ⟨hskeleton, hpin, by rw [hindex]; exact h.only_insert hv, by rw [height, hblocks]; exact h.reached⟩
  | adopted hv hnew hpath hout hbest =>
    rename_i cand parent bs
    have hindex : bc'.index = (bc.insertEntry N block cand).index := congrArg Outline.index hout
    have hblocks : bc'.blocks = ActiveChain.extend ⟨bc.blocks.genesis, []⟩ (bs ++ [block]) :=
      congrArg Outline.blocks hout
    refine ⟨hskeleton, hpin, by rw [hindex]; exact h.only_insert hv, ?_⟩
    have hheight : bc'.height = cand.height := by
      rw [height, hblocks, ActiveChain.extend_snoc, hv.cand_height, ← hv.height_eq]
      rfl
    rw [hheight]
    obtain hprev | ⟨head, hhead, hbeats⟩ := hbest
    · obtain ⟨e, he, hehead⟩ := h.skeleton.head_entry
      rw [← hprev, hv.parent_eq] at he
      cases he
      have := h.reached
      rw [hv.cand_height, hehead]
      omega
    · by_contra hlt
      rw [hG cand head hv.valid (Nat.lt_of_not_le hlt) hhead] at hbeats
      cases hbeats

/-- A pinned block on the active chain stays there if no other block is known at its height and no branch that
ends below it is ever preferred. -/
theorem pinned_block_stays (hreach : Reachable N bc) (hpin : bc.checkpoints.get? H = some pinned)
    (hactive : bc.isActive N.toCrypto H pinned = true)
    (honly : ∀ k e, bc.index.get? k = some e → e.height = H → k = pinned)
    (hrun : Imports N (NotOvertaking N H) bc bc') : bc'.isActive N.toCrypto H pinned = true := by
  have hheld : Held N H pinned bc := by
    refine ⟨hreach.skeleton, hpin, honly, ?_⟩
    obtain ⟨low, high, hlow, hhigh, -, hlen⟩ := hreach.skeleton.isActive_split hactive
    obtain ⟨e0, he0, -, h0⟩ := hreach.skeleton.tree.root
    obtain ⟨e, he, hheight⟩ := (hlow.trans hhigh).height hreach.skeleton.tree he0
    obtain ⟨e', he', hhead⟩ := hreach.skeleton.head_entry
    rw [he] at he'
    cases he'
    rw [← hhead, hheight, List.length_append]
    omega
  have hheld' : Held N H pinned bc' := by
    clear hpin hactive honly
    induction hrun with
    | refl => exact hheld
    | step _ hG himport ih => exact ih.importBlock hG himport
  exact hheld'.isActive

/-! ## A chain of empty blocks to compute with -/

/-- A header hashes to its height and its timestamp, anything shorter to zero, and every seal is zero. -/
def stampCrypto : Crypto :=
  { Runtime.sampleCrypto with
    digest := fun p => if 150 ≤ p.length then padHash (1 :: (p.take 8 ++ (p.drop 136).take 8)) else Hash.zero
    sha256 := fun _ => Hash.zero }

def stampNode : NodeEnv := { Runtime.sampleEnv with toCrypto := stampCrypto, randomX := fun _ _ => Hash.zero }

/-- No accounts, no rewards, and blocks of 2¹⁶ attempts. -/
def stampConfig : GenesisConfig where
  chainId := "sov"
  timestampMs := 0
  accounts := []
  mining := { Runtime.sampleMining with sha256dTarget := BitVec.ofNat 256 (2 ^ 240), targetBlockMs := 1000 }
  vesting := []

def stampGenesis : Genesis where
  ledger := .new stampCrypto
  block := stampConfig.block stampCrypto (.new stampCrypto)
  coinbase := stampConfig.coinbase

def stampChain : Blockchain := ofGenesis stampNode stampConfig stampGenesis

theorem reachable_stampChain : Reachable stampNode stampChain := by
  have hnew : Blockchain.new stampNode stampConfig = .ok stampChain := rfl
  exact reachable_new hnew

/-- An empty block on top of another. -/
def stampBlock (parent : Block) (timestampMs : U64) (shaTarget : Target) : Block :=
  let block := Block.assemble stampCrypto (parent.header.height + 1) (parent.hash stampCrypto)
    ((Ledger.new stampCrypto).stateRoot stampCrypto) (receiptsRoot stampCrypto []) timestampMs ⟨"miner.sov"⟩ []
  { block with header := { block.header with bits := shaTarget.toCompact } }

def fullTarget : Target := stampConfig.mining.sha256dTarget.canonical

/-- The target after a long stall, with a work of 2⁸ attempts. -/
def easedTarget : Target := ((Difficulty.fromTarget fullTarget).eda (-1) 1000).toTarget.canonical

/-- The chain after a block, if its import ends. -/
def afterImport (N : NodeEnv) (block : Block) (bc : Option Blockchain) : Option Blockchain :=
  bc.bind fun bc => (importBlockTracked N bc block).toOption.map Prod.fst

theorem reachable_afterImport (ho : ∀ bc ∈ o, Reachable N bc)
    (h : bc ∈ afterImport N block o) : Reachable N bc := by
  obtain ⟨bc0, hbc0, h⟩ := Option.bind_eq_some_iff.mp h
  obtain ⟨r, hr, rfl⟩ := Option.map_eq_some_iff.mp h
  refine .call (c := .importBlock block) (ho bc0 hbc0) ?_
  rcases hi : importBlockTracked N bc0 block with p | x
  · simp [hi, Except.toOption] at hr
  have hx : x = r := by simpa [hi, Except.toOption] using hr
  rw [ChainCall.run, hi, hx]
  rfl

/-- The first block after a long stall, and the one after another. -/
def slowBlock : Block := stampBlock stampGenesis.block edaActivationMs easedTarget

def slowerBlock : Block := stampBlock slowBlock (edaActivationMs + 100000) easedTarget

/-- A block at height 1 with the full work. -/
def quickBlock : Block := stampBlock stampGenesis.block 1 fullTarget

/-- The second slow block, pinned and active. -/
def slowChain : Option Blockchain :=
  afterImport stampNode slowerBlock (afterImport stampNode slowBlock
    (some (stampChain.setCheckpoints [(2, slowerBlock.hash stampCrypto)])))

theorem reachable_slowChain (h : bc ∈ slowChain) : Reachable stampNode bc := by
  refine reachable_afterImport (fun bc1 h1 => reachable_afterImport (fun bc2 h2 => ?_) h1) h
  cases h2
  exact .call (c := .setCheckpoints _) reachable_stampChain rfl

/-- What is needed of a chain to speak of its pinned block: the pin, whether the block is active, and whether it
is the only one at its height. -/
def pinStatus (bc : Blockchain) : Option Hash × Bool × Bool :=
  (bc.checkpoints.get? 2, bc.isActive stampCrypto 2 (slowerBlock.hash stampCrypto),
    bc.index.entries.all fun e => e.2.height ≠ 2 || e.1 = slowerBlock.hash stampCrypto)

theorem slowChain_pinned : slowChain.map pinStatus = some (some (slowerBlock.hash stampCrypto), true, true) := by
  decide +kernel

theorem exists_slowChain : ∃ bc ∈ slowChain, pinStatus bc = (some (slowerBlock.hash stampCrypto), true, true) :=
  Option.map_eq_some_iff.mp slowChain_pinned

theorem exists_afterImport {α : Type} {f : Blockchain → α} {a : α} (ho : bc ∈ o)
    (h : (afterImport N block o).map f = some a) :
    ∃ bc' res, importBlockTracked N bc block = .ok (bc', res) ∧ f bc' = a := by
  rw [Option.mem_def.mp ho] at h
  obtain ⟨bc', hbc', hf⟩ := Option.map_eq_some_iff.mp h
  obtain ⟨r, hr, hfst⟩ := Option.map_eq_some_iff.mp hbc'
  rcases hi : importBlockTracked N bc block with p | x
  · simp [hi, Except.toOption] at hr
  have hx : x = r := by simpa [hi, Except.toOption] using hr
  exact ⟨bc', x.2, by rw [← hfst, hx], hf⟩

/-- The quick block outweighs the two slow ones, and the pinned block is gone. -/
theorem pinned_block_overtaken :
    ∃ bc bc' res, Reachable stampNode bc ∧ bc.checkpoints.get? 2 = some (slowerBlock.hash stampCrypto) ∧
      bc.isActive stampCrypto 2 (slowerBlock.hash stampCrypto) = true ∧
      importBlockTracked stampNode bc quickBlock = .ok (bc', res) ∧
      bc'.isActive stampCrypto 2 (slowerBlock.hash stampCrypto) = false := by
  obtain ⟨bc, hbc, hstatus⟩ := exists_slowChain
  have hlost : (afterImport stampNode quickBlock slowChain).map
      (fun bc => bc.isActive stampCrypto 2 (slowerBlock.hash stampCrypto)) = some false := by
    decide +kernel
  obtain ⟨bc', res, himport, hactive⟩ := exists_afterImport hbc hlost
  exact ⟨bc, bc', res, reachable_slowChain hbc, congrArg Prod.fst hstatus,
    congrArg (fun s => s.2.1) hstatus, himport, hactive⟩

/-- A third slow block. -/
def slowestBlock : Block := stampBlock slowerBlock (edaActivationMs + 200000) easedTarget

/-- A block above the pinned one leaves it where it is. -/
theorem pinned_block_stays_below :
    ∃ bc bc', Reachable stampNode bc ∧ bc.isActive stampCrypto 2 (slowerBlock.hash stampCrypto) = true ∧
      Imports stampNode (NotOvertaking stampNode 2) bc bc' ∧ bc'.height = 3 ∧
      bc'.isActive stampCrypto 2 (slowerBlock.hash stampCrypto) = true := by
  obtain ⟨bc, hbc, hstatus⟩ := exists_slowChain
  have hheight : (afterImport stampNode slowestBlock slowChain).map height = some 3 := by decide +kernel
  obtain ⟨bc', res, himport, hbc'⟩ := exists_afterImport hbc hheight
  have hactive : bc.isActive stampCrypto 2 (slowerBlock.hash stampCrypto) = true :=
    congrArg (fun s => s.2.1) hstatus
  have hall : (bc.index.entries.all fun e => e.2.height ≠ 2 || e.1 = slowerBlock.hash stampCrypto) = true :=
    congrArg (fun s => s.2.2) hstatus
  have honly : ∀ k e, bc.index.get? k = some e → e.height = 2 → k = slowerBlock.hash stampCrypto := by
    intro k e he h2
    have := List.all_eq_true.mp hall (k, e) (OrdMap.get?_eq_some_iff.mp he)
    simpa [h2] using this
  have hG : NotOvertaking stampNode 2 bc slowestBlock := by
    intro cand head hv hlow
    obtain ⟨parent, hv⟩ := validateCandidate_eq_ok hv
    have h3 : slowestBlock.header.height.toNat = 3 := by decide +kernel
    rw [hv.height_eq, ← hv.cand_height] at h3
    omega
  have hrun : Imports stampNode (NotOvertaking stampNode 2) bc bc' := .step .refl hG himport
  exact ⟨bc, bc', reachable_slowChain hbc, hactive, hrun, hbc',
    pinned_block_stays (reachable_slowChain hbc) (congrArg Prod.fst hstatus) hactive honly hrun⟩

end Blockchain
end Sov
