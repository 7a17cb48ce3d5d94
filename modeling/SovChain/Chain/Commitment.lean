import SovChain.Chain.Genesis
import SovChain.Runtime.Writes

/-!
# Distinct entries, distinct slots

From a genesis and blocks whose ids are all well formed, no two entries of the ledger share a key of the
Merkle tree, as long as the digest has no collision between the preimages in use. Decoding a block does not
check its ids, and an id that is not well formed can be the preimage of another slot.
-/

namespace Sov
open Sov.Runtime (applyCoinbase executeBlock sampleCrypto sampleEnv)
open Codec

/-- A ledger reached by executing decoded blocks from genesis, with the blocks. Of the context only the miner
comes from the block. -/
inductive Executed (E : Env) (config : GenesisConfig) : List Block → Ledger → Prop
  | genesis {g : Genesis} (h : config.build E.toCrypto = .ok g) : Executed E config [] g.ledger
  | block {blocks : List Block} {L L' : Ledger} {bytes : Bytes} {b : Block} {ctx : BlockContext}
      {receipts : List Receipt} (hL : Executed E config blocks L)
      (hb : Block.codec.decodeAll bytes = some b) (hminer : ctx.miner = b.header.proposer)
      (hx : executeBlock E ctx L b.transactions = .ok (L', receipts)) :
      Executed E config (blocks ++ [b]) L'

namespace Stores

/-- The ledger holds something in the slot. -/
def Occupied (C : Crypto) (s : Stores) (slot : Slot) : Prop := (s.leaf C slot).isSome

/-- No two entries are committed at one key. -/
def SlotsDistinct (C : Crypto) (s : Stores) : Prop :=
  ∀ a b, s.Occupied C a → s.Occupied C b → a ≠ b → a.hash C ≠ b.hash C

/-- The digest has no collision between the preimages of the slots in use. -/
def CollisionFree (C : Crypto) (s : Stores) : Prop :=
  ∀ a b, s.Occupied C a → s.Occupied C b → C.digest a.preimage = C.digest b.preimage →
    a.preimage = b.preimage

theorem Named.slotsDistinct {C : Crypto} {s : Stores} (h : s.Named AccountId.WellFormed)
    (hC : s.CollisionFree C) : s.SlotsDistinct C := fun a b ha hb hne heq =>
  hne (Slot.preimage_inj (h.leaf ha) (h.leaf hb) (hC a b ha hb heq))

end Stores

namespace GenesisConfig
variable {C : Crypto} {config : GenesisConfig} {P : AccountId → Prop}

theorem build_named {g : Genesis} (h : ∀ a ∈ config.accounts, P a.account)
    (hg : config.build C = .ok g) : g.ledger.Named P := by
  refine build_induct (I := fun _ L => L.Named P) .new (fun a ha L hL => ?_) (fun {past v L L'} hv hL => ?_) hg
  · refine hL.store (.account a.account _) ?_
    simpa [UndoOp.ids] using h a ha
  obtain ⟨hexists, locked, -, rfl⟩ := vest_eq_ok hv
  refine hL.store (.account v.account _) ?_
  obtain ⟨a, ha⟩ := Option.isSome_iff_exists.mp hexists
  simpa [UndoOp.ids] using hL.account v.account a ha

end GenesisConfig

theorem Block.fits_of_decodeAll {bytes : Bytes} {b : Block} (h : Block.codec.decodeAll bytes = some b)
    {stx : SignedTransaction} (hstx : stx ∈ b.transactions) : Action.codec.Fits stx.transaction.action :=
  ((Block.codec.fits_of_decodeAll h).2.2 stx hstx).1.2.2.2

theorem Executed.named {E : Env} {config : GenesisConfig} {blocks : List Block} {L : Ledger}
    (h : Executed E config blocks L) (hgenesis : ∀ a ∈ config.accounts, a.account.WellFormed)
    (hblocks : ∀ b ∈ blocks, ∀ id ∈ b.ids, id.WellFormed) : L.Named AccountId.WellFormed := by
  induction h with
  | genesis hg => exact GenesisConfig.build_named hgenesis hg
  | block _ hb hminer hx ih =>
    have hL := ih fun b' hb' => hblocks b' (List.mem_append_left _ hb')
    have hids := hblocks _ (List.mem_append_right _ List.mem_cons_self)
    refine (Runtime.executeBlock_applies hL (fun stx hstx => ?_) ?_ (T := True) (fun hT => (hT trivial).elim)
      hx).writes.named hL
    · refine SignedTransaction.names_wellFormed (Block.fits_of_decodeAll hb hstx) fun id hid => hids id ?_
      exact List.mem_cons_of_mem _ (List.mem_flatMap.mpr ⟨stx, hstx, hid⟩)
    · rw [hminer]
      exact hids _ List.mem_cons_self

/-- In a run whose ids are well formed every entry has its own slot, and only well-formed ids are in one. -/
theorem slots_distinct_of_wellFormed_ids {E : Env} {config : GenesisConfig} {blocks : List Block}
    {L : Ledger} (h : Executed E config blocks L) (hgenesis : ∀ a ∈ config.accounts, a.account.WellFormed)
    (hblocks : ∀ b ∈ blocks, ∀ id ∈ b.ids, id.WellFormed) (hdigest : L.CollisionFree E.toCrypto) :
    L.SlotsDistinct E.toCrypto ∧ ∀ slot, L.Occupied E.toCrypto slot → slot.WellFormed :=
  ⟨(h.named hgenesis hblocks).slotsDistinct hdigest, fun _ => (h.named hgenesis hblocks).leaf⟩

/-! ## A proposer that is the preimage of a counter -/

def fairConfig : GenesisConfig where
  chainId := "sov"
  timestampMs := 0
  accounts := []
  mining := { Runtime.sampleMining with baseReward := 50, miningBudgetGrains := 100 }
  vesting := []

/-- The first block of a chain, with nothing but its reward. -/
def rewardBlock (proposer : AccountId) : Block where
  header :=
    { height := 1, prevHash := Hash.zero, txRoot := Hash.zero, receiptsRoot := Hash.zero
      stateRoot := Hash.zero, timestampMs := 1, proposer, versionBits := 0, bits := 0, nonce := 0 }
  transactions := []

variable {proposer : AccountId}

theorem decodeAll_rewardBlock (h : proposer.bytes.length < 2 ^ 32) :
    Block.codec.decodeAll (Block.codec.encode (rewardBlock proposer)) = some (rewardBlock proposer) := by
  refine Block.codec.decodeAll_encode ?_
  refine ⟨⟨trivial, trivial, trivial, trivial, trivial, trivial, ⟨h, fun _ _ => trivial⟩, trivial, trivial,
    trivial⟩, ?_, nofun⟩
  simp [rewardBlock]

def rewardContext (proposer : AccountId) : BlockContext :=
  { Runtime.sampleContext with mining := fairConfig.mining, miner := proposer }

/-- The ledger after the first block: the reward is credited and counted. -/
def rewardLedger (C : Crypto) (proposer : AccountId) : Ledger :=
  ((Ledger.new C).setAccount C proposer { balance := 50 }).overwrite C (.minedEmitted 50)

theorem executeBlock_rewardBlock (E : Env) (proposer : AccountId) :
    executeBlock E (rewardContext proposer) (Ledger.new E) (rewardBlock proposer).transactions =
      .ok (rewardLedger E proposer, []) := by
  have hcredit : Runtime.credit E (Ledger.new E) proposer 50 =
      .ok ((Ledger.new E).setAccount E proposer { balance := 50 }) := rfl
  have hcoinbase : applyCoinbase E (rewardContext proposer) (Ledger.new E) =
      .ok (rewardLedger E proposer, 50) := by
    have hreward : (rewardContext proposer).mining.rewardAt (rewardContext proposer).height
        (Ledger.new E).minedEmitted = 50 := by
      change fairConfig.mining.rewardAt 1 0 = 50
      decide
    rw [applyCoinbase]
    simp only [hreward]
    exact congrArg (· >>= _) hcredit
  rw [executeBlock, hcoinbase]
  rfl

theorem executed_rewardBlock (E : Env) (h : proposer.bytes.length < 2 ^ 32) :
    Executed E fairConfig [rewardBlock proposer] (rewardLedger E proposer) :=
  .block (.genesis rfl) (decodeAll_rewardBlock h) rfl (executeBlock_rewardBlock E proposer)

def forgedProposer : AccountId := ⟨"\x02sov:mined_emitted"⟩

/-- The miner's account and the counter of mined coin share a slot. -/
theorem forged_proposer_shares_slot : ∃ L, Executed sampleEnv fairConfig [rewardBlock forgedProposer] L ∧
      L.Occupied sampleCrypto (.account forgedProposer) ∧ L.Occupied sampleCrypto (.reserved .mined) ∧
      (Slot.account forgedProposer).hash sampleCrypto = (Slot.reserved .mined).hash sampleCrypto := by
  refine ⟨_, executed_rewardBlock sampleEnv (by decide), ?_, ?_, ?_⟩
  · rfl
  · rfl
  · rfl

theorem occupied_rewardLedger {C : Crypto} {slot : Slot} (h : (rewardLedger C proposer).Occupied C slot) :
    slot = .account proposer ∨ slot = .reserved .mined := by
  cases slot with
  | account id =>
    have hsome : ((OrdMap.empty.set proposer (some { balance := 50 })).get? id : Option Account).isSome :=
      (Option.isSome_map ..).symm.trans h
    rw [OrdMap.get?_set] at hsome
    split_ifs at hsome with hid
    · exact .inl (by rw [hid])
    · cases hsome
  | reserved r => cases r <;> first | exact .inr rfl | cases h
  | _ => cases h

/-- An honest miner's first block. -/
theorem reward_slots_distinct : Executed sampleEnv fairConfig [rewardBlock ⟨"miner.sov"⟩]
        (rewardLedger sampleCrypto ⟨"miner.sov"⟩) ∧
      (rewardLedger sampleCrypto ⟨"miner.sov"⟩).SlotsDistinct sampleCrypto := by
  have hexec : Executed sampleEnv fairConfig [rewardBlock ⟨"miner.sov"⟩]
      (rewardLedger sampleCrypto ⟨"miner.sov"⟩) := executed_rewardBlock _ (by decide)
  refine ⟨hexec, (slots_distinct_of_wellFormed_ids hexec (by decide) (by decide) ?_).1⟩
  intro a b ha hb heq
  rcases occupied_rewardLedger ha with rfl | rfl <;> rcases occupied_rewardLedger hb with rfl | rfl
  · rfl
  · revert heq
    decide
  · revert heq
    decide
  · rfl

end Sov
