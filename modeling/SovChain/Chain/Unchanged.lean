import SovChain.Chain.Booted

/-!
# Rejected imports

In a run of clean blocks, from genesis or from a boot, a rejected import leaves everything but the journals as it was.
-/

namespace Sov
open Ledger (hashNode hashLeaf subtreeRoot defaultRoot)
open Sov.Runtime (eq_ok_of_toOption exists_of_map_toOption)
namespace Blockchain
variable {N : NodeEnv} {P : Bytes → Prop} {bc bc' : Blockchain} {block : Block}

/-- A rejected import of a clean block changes nothing but the journals at hand. -/
theorem rejected_import_keeps_chain (hN : N.toCrypto.Separating P)
    (hrun : GuardedRun N (Started N P) (CleanImport N P) bc) (hclean : CleanImport N P bc block) {e : ChainError}
    (h : importBlockTracked N bc block = .ok (bc', .error e)) :
    bc'.ledger = bc.ledger ∧ bc'.ledger.stateRoot N.toCrypto = bc.ledger.stateRoot N.toCrypto ∧
      bc'.blocks = bc.blocks ∧ bc'.head = bc.head ∧ bc'.index = bc.index ∧ bc'.signals = bc.signals ∧
      bc'.activeReceipts = bc.activeReceipts ∧ bc'.txHeight = bc.txHeight ∧
      bc'.sha256dDifficulty = bc.sha256dDifficulty := by
  have hout := importBlockTracked_outcome hN (hrun.soundStarted hN) hclean
  rw [h] at hout
  cases hout with
  | invalid | rejected => exact ⟨rfl, rfl, rfl, rfl, rfl, rfl, rfl, rfl, rfl⟩

/-! ## A reward for the counter itself -/

/-- The first two blocks pay 50 grains each. -/
def paidConfig : GenesisConfig :=
  { datedConfig with
    mining := { datedConfig.mining with baseReward := 50, halvingIntervalBlocks := 2, miningBudgetGrains := 100 } }

def paidGenesis : Genesis where
  ledger := .new datedCrypto
  block := paidConfig.block datedCrypto (.new datedCrypto)
  coinbase := paidConfig.coinbase

def paidChain : Blockchain := ofGenesis datedNode paidConfig paidGenesis

/-- The reward goes to the account that is the preimage of the counter. -/
def forgedFirst : Block :=
  plainBlock paidGenesis.block (edaActivationMs + 1000) fullTarget (.fill 32 50) forgedProposer

/-- The second block commits to a wrong root. -/
def forgedSecond : Block := plainBlock forgedFirst (edaActivationMs + 2000) fullTarget Hash.zero forgedProposer

variable {run : Run (Blockchain × Except ChainError Imported)}

/-- Whether the leaves of the live ledger are not those of executing the active chain. -/
def strayLeaves (bc : Blockchain) : Bool :=
  match replayAncestors datedNode bc bc.base bc.blocks.toList.tail with
  | .ok (.ok r) => r.ledger.commitment.entries.map Prod.snd ≠ bc.ledger.commitment.entries.map Prod.snd
  | _ => false

/-- Whether an import reports nothing, the next one is refused and the ledger strays, and the leaves after either. -/
def leavesAround (run : Run (Blockchain × Except ChainError Imported))
    (next : Blockchain → Run (Blockchain × Except ChainError Imported)) : Option (Bool × List (List Bytes)) :=
  run.toOption.bind fun first => first.2.toOption.bind fun i => (next first.1).toOption.map fun second =>
    (i.receipts.isEmpty && i.revertedTxs.isEmpty && second.2.toOption.isNone && strayLeaves second.1,
      [first.1.ledger.commitment.entries.map Prod.snd, second.1.ledger.commitment.entries.map Prod.snd])

theorem exists_of_leavesAround
    {next : Blockchain → Run (Blockchain × Except ChainError Imported)} {before after : List Bytes}
    (h : leavesAround run next = some (true, [before, after])) :
    ∃ bc bc' e, run = .ok (bc, .ok .empty) ∧ next bc = .ok (bc', .error e) ∧ strayLeaves bc' = true ∧
      bc.ledger.commitment.entries.map Prod.snd = before ∧ bc'.ledger.commitment.entries.map Prod.snd = after := by
  obtain ⟨⟨bc, res⟩, hfirst, h⟩ := Option.bind_eq_some_iff.mp h
  obtain ⟨⟨receipts, reverted⟩, hi, h⟩ := Option.bind_eq_some_iff.mp h
  obtain ⟨⟨bc', e | i⟩, hsecond, h⟩ := Option.map_eq_some_iff.mp h
  · simp only [Prod.mk.injEq, Bool.and_eq_true, List.isEmpty_iff, List.cons.injEq, and_true] at h
    obtain ⟨⟨⟨⟨rfl, rfl⟩, -⟩, hstray⟩, hleaves⟩ := h
    obtain rfl := eq_ok_of_toOption hi
    exact ⟨bc, bc', e, eq_ok_of_toOption hfirst, eq_ok_of_toOption hsecond, hstray, hleaves⟩
  · simp [Except.toOption] at h

theorem hashNode_datedCrypto (a b : Hash) :
    hashNode datedCrypto a b = .fill 32 (a.bytes.getD 1 0 ^^^ b.bytes.getD 1 0) := by
  have hlen : (1 :: (a.bytes ++ b.bytes)).length = 65 := by simp [a.length_eq, b.length_eq]
  have hleft : (1 :: (a.bytes ++ b.bytes)).getD 2 0 = a.bytes.getD 1 0 := by
    simp [List.getElem?_append, a.length_eq]
  have hright : (1 :: (a.bytes ++ b.bytes)).getD 34 0 = b.bytes.getD 1 0 := by
    simp [List.getElem?_append, a.length_eq]
  simp only [hashNode, datedCrypto]
  rw [if_neg (by rw [hlen]; decide), if_pos hlen, hleft, hright]

theorem defaultRoot_datedCrypto (h : ℕ) : defaultRoot datedCrypto h = Hash.zero := by
  induction h with
  | zero => rfl
  | succ h ih =>
    rw [defaultRoot]
    simp only [ih]
    rw [hashNode_datedCrypto]
    rfl

theorem subtreeRoot_leaf_succ (n : ℕ) (e : Hash × Bytes) : subtreeRoot datedCrypto (n + 1) [e] =
    .fill 32 ((subtreeRoot datedCrypto n [e]).bytes.getD 1 0) := by
  have hzero : Hash.zero.bytes.getD 1 0 = 0 := rfl
  rw [Ledger.subtreeRoot_succ, hashNode_datedCrypto]
  cases hbit : Ledger.keyBit e.1 (Ledger.treeHeight - (n + 1)) <;>
    simp only [Ledger.onSide, hbit, List.filter_cons, List.filter_nil, Ledger.subtreeRoot_nil, defaultRoot_datedCrypto,
      hzero, beq_self_eq_true, if_true, reduceCtorEq, beq_iff_eq, if_false, UInt8.xor_zero, UInt8.zero_xor]

/-- The byte of a single leaf goes up to the root. -/
theorem stateRoot_of_leaf {L : Ledger} {leaf : Bytes} (h : L.commitment.entries.map Prod.snd = [leaf]) :
    L.stateRoot datedCrypto = .fill 32 ((hashLeaf datedCrypto leaf).bytes.getD 1 0) := by
  obtain ⟨e, he, rfl⟩ := List.map_eq_singleton_iff.mp h
  have hroot : ∀ n, subtreeRoot datedCrypto (n + 1) [e] =
      .fill 32 ((hashLeaf datedCrypto e.2).bytes.getD 1 0) := by
    intro n
    induction n with
    | zero => exact subtreeRoot_leaf_succ 0 e
    | succ n ih =>
      rw [subtreeRoot_leaf_succ, ih]
      rfl
  rw [Ledger.stateRoot, he]
  exact hroot 255

theorem stateRoot_new_datedCrypto : (Ledger.new datedCrypto).stateRoot datedCrypto = Hash.zero :=
  defaultRoot_datedCrypto 256

theorem leavesAround_forged : leavesAround (importBlockTracked datedNode paidChain forgedFirst)
      (fun bc => importBlockTracked datedNode bc forgedSecond) =
        some (true, [[Codec.leBytes 16 50], [Account.codec.encode { balance := 50 }]]) := by
  -- The root of genesis is computed apart from the run.
  unfold forgedSecond forgedFirst paidChain paidGenesis GenesisConfig.block
  rw [stateRoot_new_datedCrypto]
  decide +kernel

/-- The rejected second block leaves another state root behind. -/
theorem rejected_import_moves_root : Blockchain.new datedNode paidConfig = .ok paidChain ∧
      ∃ bc bc' e, importBlockTracked datedNode paidChain forgedFirst = .ok (bc, .ok .empty) ∧
        importBlockTracked datedNode bc forgedSecond = .ok (bc', .error e) ∧
        bc'.ledger.stateRoot datedCrypto ≠ bc.ledger.stateRoot datedCrypto := by
  obtain ⟨bc, bc', e, hfirst, hsecond, -, hbefore, hafter⟩ := exists_of_leavesAround leavesAround_forged
  refine ⟨rfl, bc, bc', e, hfirst, hsecond, ?_⟩
  rw [stateRoot_of_leaf hbefore, stateRoot_of_leaf hafter]
  decide +kernel

/-! ## A block with a reward and a transaction -/

def keyReceipt : Receipt where
  txId := keyTx.id datedCrypto
  status := .success
  gasUsed := 81000
  returnData := []
  events := []
  timing := none

/-- The miner is paid and sets its key. -/
def paidBlock (stateRoot : Hash) : Block :=
  let block := Block.assemble datedCrypto 1 paidChain.rules.genesisHash stateRoot
    (receiptsRoot datedCrypto [keyReceipt]) (edaActivationMs + 1000) ⟨"miner.sov"⟩ [keyTx]
  { block with header := { block.header with bits := fullTarget.toCompact } }

theorem started_paidChain : Started datedNode Dated paidChain := .fresh (fresh_new (nofun : paidConfig.Clean Dated) rfl)

theorem clean_paidBlock (stateRoot : Hash) : CleanImport datedNode Dated paidChain (paidBlock stateRoot) := by
  intro r hr
  dsimp only [paidBlock, Block.assemble] at hr
  obtain rfl := hr.unique .genesis
  have hfits : SignedTransaction.codec.Fits keyTx :=
    SignedTransaction.codec.fits_of_decodeAll (b := SignedTransaction.codec.encode keyTx) (by decide +kernel)
  -- The journal has the reward, the counter of rewards and the key.
  have hjournal : ∀ t, (Runtime.leaves (executeBlockOn datedNode paidChain.rules paidChain.base.ledger.beginUndo
      (paidBlock stateRoot) t paidChain.base.signals)).map (fun L => L.takeUndo.2.map UndoOp.slot) =
        some [.account ⟨"miner.sov"⟩, .reserved .mined, .account ⟨"miner.sov"⟩] := by
    intro t
    with_unfolding_all rfl
  have hdated : ∀ slot ∈ [Slot.account ⟨"miner.sov"⟩, .reserved .mined, .account ⟨"miner.sov"⟩],
      slot.preimage ∈ datedPreimages := by decide +kernel
  refine ⟨⟨⟨trivial, trivial, trivial, trivial, trivial, trivial, ⟨show 9 < 2 ^ 32 by decide, fun _ _ => trivial⟩, trivial,
    trivial, trivial⟩, show 1 < 2 ^ 32 by decide, fun stx hstx => ?_⟩, ?_, ?_, fun stx hstx => ?_, fun t L' hL' op hop => ?_⟩
  · rwa [List.mem_singleton.mp hstx]
  · change ∀ id ∈ [(⟨"miner.sov"⟩ : AccountId), ⟨"miner.sov"⟩], _
    decide
  · change Runtime.notesAll datedNode.toEnv [keyTx] ≤ _
    decide
  · rw [List.mem_singleton.mp hstx]
    exact List.mem_append_right _ List.mem_cons_self
  · have hslots := hjournal t
    rw [hL', Option.map_some, Option.some.injEq] at hslots
    exact hdated _ (hslots ▸ List.mem_map_of_mem hop)

/-- Fifty grains are mined, and the miner has used one nonce. -/
def paidRoot : Hash := .fill 32 (50 ^^^ 1)

/-- Refused with a wrong root, and imported with its own. -/
theorem paid_imports :
    (importBlockTracked datedNode paidChain (paidBlock Hash.zero)).toOption.map (fun r => r.2.toOption.isNone) = some true ∧
      (importBlockTracked datedNode paidChain (paidBlock paidRoot)).toOption.map (fun r =>
        (r.2.toOption.isSome, r.1.receipt (keyTx.id datedCrypto), r.1.ledger.totalSupply)) =
          some (true, some (1, keyReceipt), some 50) := by
  unfold paidBlock paidChain paidGenesis GenesisConfig.block
  rw [stateRoot_new_datedCrypto]
  decide +kernel

/-- With a wrong root the block is refused after it was executed. -/
theorem misrooted_block_keeps_chain :
    ∃ bc' e, importBlockTracked datedNode paidChain (paidBlock Hash.zero) = .ok (bc', .error e) ∧
      bc'.ledger = paidChain.ledger ∧ bc'.head = paidChain.head := by
  obtain ⟨⟨bc', e | i⟩, h, hnone⟩ := exists_of_map_toOption paid_imports.1
  · obtain ⟨hledger, -, -, hhead, -⟩ :=
      rejected_import_keeps_chain separating_datedCrypto (.start started_paidChain) (clean_paidBlock _) h
    exact ⟨bc', e, h, hledger, hhead⟩
  · cases hnone

theorem exists_paid : ∃ bc i, importBlockTracked datedNode paidChain (paidBlock paidRoot) = .ok (bc, .ok i) ∧
    bc.receipt (keyTx.id datedCrypto) = some (1, keyReceipt) ∧ bc.ledger.totalSupply = some 50 ∧
    GuardedRun datedNode (Started datedNode Dated) (CleanImport datedNode Dated) bc := by
  obtain ⟨⟨bc, e | i⟩, h, hfacts⟩ := exists_of_map_toOption paid_imports.2
  · cases hfacts
  obtain ⟨-, hreceipt, hsupply⟩ := by simpa using hfacts
  refine ⟨bc, i, h, hreceipt, hsupply, .call (c := .importBlock (paidBlock paidRoot)) (.start started_paidChain) ?_ ?_⟩
  · rintro _ ⟨⟩
    exact clean_paidBlock _
  · rw [ChainCall.run, h]
    rfl

end Blockchain
end Sov
