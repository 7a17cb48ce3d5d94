import SovChain.Mining.Policy
import SovChain.State.Ledger

/-!
# `sov-verify`: the invariants checked after every block
-/

namespace Sov

inductive InvariantViolation where
  | supplyCapExceeded (supply : U128) (cap : ℕ)
  | miningBudgetExceeded (mined budget : U128)
  | supplyOverflow
  | emissionRegressed (kind : String) (before after : U128)
  | valueNotConserved (supplyBefore supplyAfter mintedDelta : U128)
  | tokenNotConserved (asset : Hash) (sum issued burned : U128)
  | tokenBurnExceedsIssued (asset : Hash) (issued burned : U128)
  | tokenCounterRegressed (asset : Hash) (kind : String) (before after : U128)
  | tokenIdentityMutated (asset : Hash)
  | tokenSupplyOverflow
  | tokenComplianceOrphaned (asset : Hash) (kind : String)
deriving DecidableEq

namespace Verify
open InvariantViolation

/-- The balances of every asset. -/
def tokenSums (s : Stores) : Except InvariantViolation (OrdMap Hash U128) :=
  s.tokenBalances.entries.foldlM (fun sums e =>
    let asset := (ofLex e.1).1
    match ((sums.get? asset).getD 0).checkedAdd e.2 with
    | none => .error tokenSupplyOverflow
    | some sum => .ok (sums.insert asset sum)) .empty

/-- Compare one asset with its counters and take it off the sums. -/
def checkToken (sums : OrdMap Hash U128) (e : Hash × TokenInfo) :
    Except InvariantViolation (OrdMap Hash U128) :=
  let (asset, info) := e
  if info.issued.toNat < info.burned.toNat then
    .error (tokenBurnExceedsIssued asset info.issued info.burned)
  else
    let sum := (sums.get? asset).getD 0
    if sum ≠ info.issued - info.burned then .error (tokenNotConserved asset sum info.issued info.burned)
    else .ok (sums.erase asset)

/-- The balances of every asset add up to what was issued and not burned; policies and windows belong to
something. -/
def checkTokenConservation (s : Stores) : Except InvariantViolation Unit := do
  let sums ← tokenSums s
  let rest ← s.tokens.entries.foldlM checkToken sums
  match rest.entries with
  | (asset, sum) :: _ => throw (tokenNotConserved asset sum 0 0)
  | [] =>
    match s.tokenPolicies.keys.find? fun asset => !(s.tokens.contains asset) with
    | some asset => throw (tokenComplianceOrphaned asset "policy without asset")
    | none =>
      match s.tokenWindows.keys.find? fun k => !(s.tokenPolicies.contains (ofLex k).1) with
      | some k => throw (tokenComplianceOrphaned (ofLex k).1 "window without policy")
      | none => return ()

/-- What must hold of any single state. -/
def checkLedger (s : Stores) (mining : MiningPolicy) : Except InvariantViolation Unit :=
  match s.totalSupply with
  | none => .error supplyOverflow
  | some supply =>
    if Balance.maxSupplyGrains < supply.toNat then
      .error (supplyCapExceeded supply Balance.maxSupplyGrains)
    else if mining.miningBudgetGrains.toNat < s.minedEmitted.toNat then
      .error (miningBudgetExceeded s.minedEmitted mining.miningBudgetGrains)
    else checkTokenConservation s

/-- What a transition is compared with. -/
structure TransitionPre where
  supply : U128
  mined : U128
  tokens : OrdMap Hash TokenInfo

def TransitionPre.capture (s : Stores) : Except InvariantViolation TransitionPre :=
  match s.totalSupply with
  | none => .error supplyOverflow
  | some supply => .ok { supply, mined := s.minedEmitted, tokens := s.tokens }

/-- An asset keeps its identity, and its counters do not go back. -/
def checkTokenTransition (after : Stores) (e : Hash × TokenInfo) : Except InvariantViolation Unit :=
  let (asset, before) := e
  match after.tokens.get? asset with
  | none => .error (tokenIdentityMutated asset)
  | some info =>
    if info.issuer ≠ before.issuer ∨ info.symbol ≠ before.symbol then .error (tokenIdentityMutated asset)
    else if info.issued.toNat < before.issued.toNat then
      .error (tokenCounterRegressed asset "issued" before.issued info.issued)
    else if info.burned.toNat < before.burned.toNat then
      .error (tokenCounterRegressed asset "burned" before.burned info.burned)
    else .ok ()

/-- All new supply is accounted for by the emission counter. -/
def checkTransitionPre (before : TransitionPre) (after : Stores) : Except InvariantViolation Unit :=
  match after.totalSupply with
  | none => .error supplyOverflow
  | some supplyAfter =>
    if after.minedEmitted.toNat < before.mined.toNat then
      .error (emissionRegressed "mined" before.mined after.minedEmitted)
    else
      let mintedDelta := after.minedEmitted - before.mined
      match before.supply.checkedAdd mintedDelta with
      | none => .error supplyOverflow
      | some expectedAfter =>
        if supplyAfter ≠ expectedAfter then
          .error (valueNotConserved before.supply supplyAfter mintedDelta)
        else before.tokens.entries.forM (checkTokenTransition after)

def checkTransition (before after : Stores) : Except InvariantViolation Unit := do
  checkTransitionPre (← TransitionPre.capture before) after

end Verify
end Sov
