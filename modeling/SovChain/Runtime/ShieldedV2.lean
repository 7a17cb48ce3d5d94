import SovChain.Runtime.Context

/-!
# `sov-runtime`: verification of post-quantum pool bundles

`verifyBundleForCarrier` decides whether a bundle may execute and returns its effect; it writes
nothing.
-/

namespace Sov

/-- What an accepted bundle does. -/
structure V2Effects where
  nullifiers : List Hash
  commitments : List Hash
  shieldIn : Balance
  deshieldOut : Balance
  windowUpdate : Option (U64 × Balance)

namespace ShieldedV2

/-- The largest value of a note, `2^61 - 1`. -/
def maxNoteValue : ℕ := 2 ^ 61 - 1

def dummySlot (i : ℕ) : String := "slot " ++ toString i ++ ": malformed dummy slot"

def realSlot (i : ℕ) : String := "slot " ++ toString i ++ ": malformed real slot"

/-- A dummy input is all zero, a real one has a nullifier. -/
def checkInputs : ℕ → List V2Input → Except String Unit
  | _, [] => .ok ()
  | i, s :: rest =>
    if s.dummy then
      if s.anchor ≠ Hash.zero ∨ s.nullifier ≠ Hash.zero then .error (dummySlot i)
      else checkInputs (i + 1) rest
    else if s.nullifier = Hash.zero then .error (realSlot i)
    else checkInputs (i + 1) rest

/-- A dummy output is all zero, a real one has a commitment and a ciphertext. -/
def checkOutputs : ℕ → List V2Output → Except String Unit
  | _, [] => .ok ()
  | j, s :: rest =>
    if s.dummy then
      if s.commitment ≠ Hash.zero ∨ s.hasCiphertext then .error (dummySlot j)
      else checkOutputs (j + 1) rest
    else if s.commitment = Hash.zero ∨ !s.hasCiphertext then .error (realSlot j)
    else checkOutputs (j + 1) rest

/-- The nullifiers of the real inputs. -/
def nullifiers (b : SpendBundle) : List Hash :=
  (b.inputs.filter fun s => !s.dummy).map V2Input.nullifier

/-- The commitments of the real outputs. -/
def commitments (b : SpendBundle) : List Hash :=
  (b.outputs.filter fun s => !s.dummy).map V2Output.commitment

/-- The checks that need no state. -/
def checkStructure (b : SpendBundle) : Except String Unit := do
  if maxNoteValue < b.transparentIn.toNat ∨ maxNoteValue < b.transparentOut.toNat ∨
      maxNoteValue < b.feeGrains.toNat then
    throw "public value out of range"
  checkInputs 0 b.inputs
  checkOutputs 0 b.outputs
  if ¬(nullifiers b).Nodup then throw "duplicate nullifier in bundle"

/-- The first real input that names an unknown root. -/
def unknownAnchor (pool : ShieldedV2State) (inputs : List V2Input) : Option ℕ :=
  (inputs.zipIdx.find? fun s => !s.1.dummy && !pool.anchorIsKnown s.1.anchor).map Prod.snd

/-- The first real input that was spent before. -/
def spentInput (pool : ShieldedV2State) (inputs : List V2Input) : Option ℕ :=
  (inputs.zipIdx.find? fun s => !s.1.dummy && pool.nullifierSeen s.1.nullifier).map Prod.snd

/-- Meter `amount` leaving a pool against the rolling window `(start, spent)`: the window to store,
`none` when the limit is exceeded. Both pools are metered alike, each by its own window. -/
def drainWindow (mining : MiningPolicy) (height : U64) (window : U64 × Balance) (amount : Balance) :
    Option (U64 × Balance) :=
  let base :=
    if mining.deshieldWindowBlocks.toNat ≤ (height.saturatingSub window.1).toNat then (height, 0)
    else window
  match base.2.checkedAdd amount with
  | some spent =>
    if spent.toNat ≤ mining.deshieldLimitGrains.toNat then some (base.1, spent) else none
  | none => none

/-- Decode a bundle under the suite its first byte selects. -/
def decode (E : Env) (bundle : Bytes) (suite2Active : Bool) : Except ShieldedV2Error SpendBundle :=
  let suite2 := bundle.head? = some 2
  if suite2Active && !suite2 then .error (.unknownProofVersion (bundle.headD 0))
  else if suite2 && !(suite2Active && E.zkSuite2) then .error (.unknownProofVersion 2)
  else match E.decodeV2 suite2 bundle with
  | .ok b => .ok b
  | .error (.unknownProofVersion v) => .error (.unknownProofVersion v)
  | .error (.other msg) => .error (.malformedBundle msg)

/-- The checks against the pool and its counters, once the proof has verified. -/
def checkState (s : Stores) (mining : MiningPolicy) (height : U64) (signerBalance : Balance)
    (b : SpendBundle) : Except ShieldedV2Error V2Effects := do
  if let some i := unknownAnchor s.shieldedV2 b.inputs then throw (.unknownAnchor i)
  if let some i := spentInput s.shieldedV2 b.inputs then throw (.nullifierAlreadySpent i)
  if ShieldedV2State.maxV2Notes < s.shieldedV2.commitments.length + (commitments b).length then
    throw .treeFull
  let shieldIn : Balance := b.transparentIn.setWidth 128
  let deshieldOut : Balance := b.transparentOut.setWidth 128
  if (signerBalance.checkedSub shieldIn).isNone then throw (.insufficientBalance shieldIn)
  let some afterShield := s.shieldedV2Value.checkedAdd shieldIn | throw .valueOverflow
  if (afterShield.checkedSub deshieldOut).isNone then throw (.turnstile deshieldOut afterShield)
  if deshieldOut ≠ 0 ∧ mining.deshieldWindowBlocks ≠ 0 then
    let some window := drainWindow mining height s.deshieldV2Window deshieldOut | throw .drainLimit
    return ⟨nullifiers b, commitments b, shieldIn, deshieldOut, some window⟩
  return ⟨nullifiers b, commitments b, shieldIn, deshieldOut, none⟩

/-- `verify_bundle_for_carrier_with_suite2`. -/
def verifyBundleForCarrier (E : Env) (bundle : Bytes) (s : Stores) (mining : MiningPolicy)
    (height : U64) (carrier : Carrier) (signerBalance : Balance) (suite2Active : Bool) :
    Except ShieldedV2Error V2Effects := do
  let b ← decode E bundle suite2Active
  match checkStructure b with
  | .error msg => throw (.malformedStructure msg)
  | .ok () => pure ()
  if b.feeGrains ≠ 0 then throw (.feeLegNotZero b.feeGrains)
  if (nullifiers b).isEmpty && (commitments b).isEmpty then throw .noEffect
  if !E.verifyCarrierAuth bundle carrier then throw .carrierAuth
  match E.verifySpend bundle (if bundle.head? = some 2 then some carrier else none) with
  | .error msg => throw (.invalidProof msg)
  | .ok () => pure ()
  checkState s mining height signerBalance b

end ShieldedV2
end Sov
