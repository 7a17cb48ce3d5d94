import SovChain.Primitives.Account

/-!
# `sov-mining`: the mining policy and its emission schedule
-/

namespace Sov

/-- A proof-of-work target: a seal meets it when its hash, read big-endian, is at most the target. -/
abbrev Target := BitVec 256

inductive PowAlgo where
  | sha256d
  | randomX
deriving DecidableEq

/-- The post-quantum migration, once it is scheduled. -/
structure PqSchedule where
  rotationOnlyHeight : U64
  sunsetHeight : U64
  thresholdGrains : U128
deriving DecidableEq

structure MiningPolicy where
  powAlgo : PowAlgo
  sha256dTarget : Target
  baseReward : Balance
  halvingIntervalBlocks : U64
  miningBudgetGrains : U128
  targetBlockMs : U64
  gasPrice : Balance
  maxCodeBytes : U32
  deshieldWindowBlocks : U64
  deshieldLimitGrains : U128
deriving DecidableEq

namespace MiningPolicy

/-- The coinbase of a block: the halving schedule, clamped to what is left of the budget. -/
def rewardAt (p : MiningPolicy) (height : U64) (minedSupply : Balance) : Balance :=
  if height = 0 then 0
  else if p.miningBudgetGrains.toNat ≤ minedSupply.toNat then 0
  else
    let halvings := (height.toNat - 1) / max p.halvingIntervalBlocks.toNat 1
    let scheduled := if 127 ≤ halvings then 0 else p.baseReward.toNat >>> halvings
    BitVec.ofNat 128 (min scheduled (p.miningBudgetGrains.toNat - minedSupply.toNat))

theorem add_rewardAt_le (p : MiningPolicy) (height : U64) (mined : Balance) :
    (p.rewardAt height mined).toNat + mined.toNat ≤ max mined.toNat p.miningBudgetGrains.toNat := by
  unfold rewardAt
  split_ifs with h0 hb
  · simp
  · simp
  · simp only [BitVec.toNat_ofNat]
    refine le_trans (Nat.add_le_add_right ((Nat.mod_le _ _).trans (min_le_right _ _)) _) ?_
    omega

end MiningPolicy
end Sov
