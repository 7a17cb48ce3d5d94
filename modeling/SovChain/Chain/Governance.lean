import SovChain.Primitives.Account

/-!
# `sov-governance`: miner-signalled activation

Heights are natural numbers here: a chain does not get near `2 ^ 64` blocks.
-/

namespace Sov

/-- An activation fraction `num / den`. -/
structure Threshold where
  num : ℕ
  den : ℕ
deriving DecidableEq

def Threshold.isMet (t : Threshold) (signaling period : ℕ) : Bool := t.num * period ≤ signaling * t.den

inductive ThresholdState where
  | defined
  | started
  | lockedIn
  | active
  | failed
deriving DecidableEq

/-- A protocol upgrade; the last three fields are what `Deployment::new` checks. -/
structure Deployment where
  bit : ℕ
  startHeight : ℕ
  timeoutHeight : ℕ
  period : ℕ
  threshold : Threshold
  minActivationHeight : ℕ
  lockinontimeout : Bool
  bit_le : bit ≤ 28
  period_pos : 0 < period
  start_lt_timeout : startHeight < timeoutHeight
deriving DecidableEq

/-- The version-bits mask each block carried, by height. -/
abbrev SignalLog := OrdMap ℕ U32

namespace SignalLog

def record (log : SignalLog) (height : ℕ) (mask : U32) : SignalLog := log.insert height mask

def remove (log : SignalLog) (height : ℕ) : SignalLog := log.erase height

/-- Whether the block at `height` set the bit. -/
def signals (log : SignalLog) (height bit : ℕ) : Bool :=
  (log.get? height).any fun mask => mask.getLsbD bit

end SignalLog

namespace Deployment
variable (d : Deployment) (log : SignalLog)

def signalingCountInWindow (windowStart : ℕ) : ℕ :=
  (List.range d.period).countP fun offset => log.signals (windowStart + offset) d.bit

/-- The state at the boundary `nextWindow`, from the state at the one before it. -/
def nextState (prev : ThresholdState) (nextWindow prevWindow : ℕ) : ThresholdState :=
  match prev with
  | .defined => if d.startHeight ≤ nextWindow then .started else .defined
  | .started =>
    if d.threshold.isMet (d.signalingCountInWindow log prevWindow) d.period then .lockedIn
    else if d.timeoutHeight ≤ nextWindow then if d.lockinontimeout then .lockedIn else .failed
    else .started
  | .lockedIn => if d.minActivationHeight ≤ nextWindow then .active else .lockedIn
  | .active => .active
  | .failed => .failed

/-- The state in the `k`-th window. -/
def stateInWindow : ℕ → ThresholdState
  | 0 => .defined
  | k + 1 => d.nextState log (stateInWindow k) ((k + 1) * d.period) (k * d.period)

def stateAt (height : ℕ) : ThresholdState := d.stateInWindow log (height / d.period)

/-- The first boundary, up to the one that governs `height`, at which the deployment is active. The genesis
window does not count. -/
def activation (height : ℕ) : Option ℕ :=
  ((List.range (height / d.period)).map fun k => (k + 1) * d.period).find? fun boundary =>
    d.stateAt log boundary = .active

end Deployment

/-- Whether a deployment, if there is one, has become active. -/
def deploymentActiveAt (d : Option Deployment) (height : ℕ) (log : SignalLog) : Bool :=
  d.any fun d => (d.activation log height).isSome

end Sov
