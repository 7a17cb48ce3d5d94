import SovChain.Chain.Governance

/-!
# `sov-governance`: the life of a deployment

The source walks the windows with 64-bit heights and compares two 128-bit products. Both are modelled here with checked
operations (`stateAtChecked`), and nothing overflows for a deployment that `Deployment::new` accepts, so the walk gives
`stateAt`. What the states do over a history is then shown about `stateAt`: a step at each boundary, by induction a run
of windows (`follows_bip9`).
-/

namespace Sov
open BitVec (checkedAdd_eq_some lt_def toNat_add toNat_ofNat toNat_umod)

/-- Why a deployment is refused. -/
inductive GovernanceError where
  | bitOutOfRange (bit : ℕ)
  | zeroPeriod
  | timeoutBeforeStart (start timeout : ℕ)
deriving DecidableEq

namespace Deployment

def maxSignalBit : ℕ := 28

/-- A deployment with checked parameters. Its name is not used here. -/
def new (bit : BitVec 8) (startHeight timeoutHeight period num den minActivationHeight : U64) (lockinontimeout : Bool) :
    Except GovernanceError Deployment :=
  if hb : bit.toNat > maxSignalBit then .error (.bitOutOfRange bit.toNat)
  else if hp : period.toNat = 0 then .error .zeroPeriod
  else if ht : timeoutHeight.toNat ≤ startHeight.toNat then
    .error (.timeoutBeforeStart startHeight.toNat timeoutHeight.toNat)
  else
    .ok
      { bit := bit.toNat
        startHeight := startHeight.toNat
        timeoutHeight := timeoutHeight.toNat
        period := period.toNat
        threshold := ⟨num.toNat, den.toNat⟩
        minActivationHeight := minActivationHeight.toNat
        lockinontimeout
        bit_le := Nat.not_lt.mp hb
        period_pos := Nat.pos_of_ne_zero hp
        start_lt_timeout := Nat.not_le.mp ht }

/-! ## The walk in machine integers -/

/-- The threshold test of the source: two 128-bit products of 64-bit numbers. -/
def isMetChecked (t : Threshold) (signaling period : U64) : Option Bool := do
  let signaled ← (signaling.setWidth 128).checkedMul (BitVec.ofNat 128 t.den)
  let needed ← (BitVec.ofNat 128 t.num).checkedMul (period.setWidth 128)
  return needed ≤ signaled

variable (d : Deployment) (log : SignalLog)

/-- The blocks that signal among the first `n` of a window. -/
def countChecked (windowStart : U64) : ℕ → Option U64
  | 0 => some 0
  | n + 1 => do
    let count ← countChecked windowStart n
    let height ← windowStart.checkedAdd (BitVec.ofNat 64 n)
    if log.signals height.toNat d.bit then count.checkedAdd 1 else return count

def nextStateChecked (prev : ThresholdState) (nextWindow prevWindow : U64) : Option ThresholdState :=
  match prev with
  | .defined => some (if d.startHeight ≤ nextWindow.toNat then .started else .defined)
  | .started => do
    let count ← d.countChecked log prevWindow d.period
    if ← isMetChecked d.threshold count (BitVec.ofNat 64 d.period) then return .lockedIn
    else if d.timeoutHeight ≤ nextWindow.toNat then return if d.lockinontimeout then .lockedIn else .failed
    else return .started
  | .lockedIn => some (if d.minActivationHeight ≤ nextWindow.toNat then .active else .lockedIn)
  | .active => some .active
  | .failed => some .failed

/-- The loop over the windows. Every round moves up by a period, so `target` rounds are more than enough. -/
def walkChecked (target : U64) : ℕ → U64 → ThresholdState → Option ThresholdState
  | 0, _, _ => none
  | n + 1, window, state =>
    if window < target then do
      let next ← window.checkedAdd (BitVec.ofNat 64 d.period)
      let state ← d.nextStateChecked log state next window
      walkChecked target n next state
    else some state

def windowStart (height : U64) : U64 := height - height % BitVec.ofNat 64 d.period

def stateAtChecked (height : U64) : Option ThresholdState :=
  d.walkChecked log (d.windowStart height) (height.toNat + 1) 0 .defined

/-- The parameters are those of 64-bit fields. -/
structure Bounded : Prop where
  period : d.period < 2 ^ 64
  num : d.threshold.num < 2 ^ 64
  den : d.threshold.den < 2 ^ 64

variable {d log}

theorem bounded_of_new {bit : BitVec 8} {startHeight timeoutHeight period num den minActivationHeight : U64}
    {lockinontimeout : Bool}
    (h : new bit startHeight timeoutHeight period num den minActivationHeight lockinontimeout = .ok d) : d.Bounded := by
  unfold new at h
  split_ifs at h
  cases h
  exact ⟨period.isLt, num.isLt, den.isLt⟩

theorem isMetChecked_eq (hb : d.Bounded) {signaling : U64} :
    isMetChecked d.threshold signaling (BitVec.ofNat 64 d.period) =
      some (d.threshold.isMet signaling.toNat d.period) := by
  have hperiod : (BitVec.setWidth 128 (BitVec.ofNat 64 d.period)).toNat = d.period := by
    have := hb.period
    simp
    omega
  have hsignaling : (signaling.setWidth 128).toNat = signaling.toNat := by
    have := signaling.isLt
    simp
    omega
  have hden : (BitVec.ofNat 128 d.threshold.den).toNat = d.threshold.den := by
    have := hb.den
    simp
    omega
  have hnum : (BitVec.ofNat 128 d.threshold.num).toNat = d.threshold.num := by
    have := hb.num
    simp
    omega
  -- A product of two numbers below 2⁶⁴ is below 2¹²⁸.
  have hleft : signaling.toNat * d.threshold.den < 2 ^ 128 :=
    (Nat.mul_lt_mul'' signaling.isLt hb.den).trans_eq (by decide)
  have hright : d.threshold.num * d.period < 2 ^ 128 := (Nat.mul_lt_mul'' hb.num hb.period).trans_eq (by decide)
  have hmul1 : (signaling.setWidth 128).checkedMul (BitVec.ofNat 128 d.threshold.den) =
      some (BitVec.ofNat 128 (signaling.toNat * d.threshold.den)) := by
    rw [BitVec.checkedMul_eq_some, hsignaling, hden, toNat_ofNat, Nat.mod_eq_of_lt hleft]
  have hmul2 : (BitVec.ofNat 128 d.threshold.num).checkedMul (BitVec.setWidth 128 (BitVec.ofNat 64 d.period)) =
      some (BitVec.ofNat 128 (d.threshold.num * d.period)) := by
    rw [BitVec.checkedMul_eq_some, hnum, hperiod, toNat_ofNat, Nat.mod_eq_of_lt hright]
  unfold isMetChecked Threshold.isMet
  rw [hmul1, hmul2]
  simp only [Option.bind_eq_bind, Option.bind_some, Option.pure_def, BitVec.le_def,
    toNat_ofNat, Nat.mod_eq_of_lt hleft, Nat.mod_eq_of_lt hright]

theorem countChecked_eq {windowStart : U64} {n : ℕ} (hn : windowStart.toNat + n < 2 ^ 64) :
    ∃ c, d.countChecked log windowStart n = some c ∧
      c.toNat = (List.range n).countP fun offset => log.signals (windowStart.toNat + offset) d.bit := by
  induction n with
  | zero => exact ⟨0, rfl, rfl⟩
  | succ n ih =>
    obtain ⟨c, hc, hcount⟩ := ih (by omega)
    have hle : c.toNat ≤ n := by
      rw [hcount]
      exact List.countP_le_length.trans_eq List.length_range
    have hoffset : (BitVec.ofNat 64 n).toNat = n := by
      rw [toNat_ofNat, Nat.mod_eq_of_lt (by omega)]
    have hadd : windowStart.checkedAdd (BitVec.ofNat 64 n) = some (windowStart + BitVec.ofNat 64 n) := by
      rw [checkedAdd_eq_some, toNat_add, hoffset, Nat.mod_eq_of_lt (by omega)]
    have hheight : (windowStart + BitVec.ofNat 64 n).toNat = windowStart.toNat + n := by
      rw [toNat_add, hoffset, Nat.mod_eq_of_lt (by omega)]
    unfold countChecked
    rw [hc, List.range_succ, List.countP_append, List.countP_singleton, ← hcount]
    simp only [Option.bind_eq_bind, Option.bind_some, hadd, hheight]
    by_cases hsig : log.signals (windowStart.toNat + n) d.bit = true
    · have hone : (1 : U64).toNat = 1 := rfl
      have hsucc : c.checkedAdd 1 = some (c + 1) := by
        rw [checkedAdd_eq_some, toNat_add, hone, Nat.mod_eq_of_lt (by omega)]
      rw [if_pos hsig, hsucc, if_pos hsig]
      refine ⟨_, rfl, ?_⟩
      rw [toNat_add, hone, Nat.mod_eq_of_lt (by omega)]
    · rw [if_neg hsig, if_neg hsig]
      exact ⟨c, rfl, rfl⟩

theorem nextStateChecked_eq (hb : d.Bounded) {prev : ThresholdState} {nextWindow prevWindow : U64}
    (hfits : prevWindow.toNat + d.period < 2 ^ 64) : d.nextStateChecked log prev nextWindow prevWindow =
      some (d.nextState log prev nextWindow.toNat prevWindow.toNat) := by
  cases prev with
  | defined => rfl
  | started =>
    obtain ⟨c, hc, hcount⟩ : ∃ c, d.countChecked log prevWindow d.period = some c ∧
        c.toNat = d.signalingCountInWindow log prevWindow.toNat := countChecked_eq hfits
    unfold nextStateChecked nextState
    dsimp only
    rw [hc]
    simp only [Option.bind_eq_bind, Option.bind_some, isMetChecked_eq hb, hcount]
    split_ifs <;> rfl
  | lockedIn => rfl
  | active => rfl
  | failed => rfl

variable {k : ℕ}

/-- From the `k`-th window on, the loop gives the state of the window it stops at. -/
theorem walkChecked_eq (hb : d.Bounded) {target window : U64} {m n : ℕ}
    (htarget : target.toNat = m * d.period) (hwindow : window.toNat = k * d.period) (hk : k ≤ m) (hn : m - k < n) :
    d.walkChecked log target n window (d.stateInWindow log k) = some (d.stateInWindow log m) := by
  induction n generalizing k window with
  | zero => omega
  | succ n ih =>
    have hpos := d.period_pos
    unfold walkChecked
    by_cases hlt : window < target
    · have hkm : k < m := by
        rw [lt_def, htarget, hwindow] at hlt
        exact Nat.lt_of_mul_lt_mul_right hlt
      have hperiod : (BitVec.ofNat 64 d.period).toNat = d.period := by
        rw [toNat_ofNat, Nat.mod_eq_of_lt hb.period]
      -- The next boundary is at most the target, hence below 2⁶⁴.
      have hnext : (k + 1) * d.period < 2 ^ 64 := by
        have hle : (k + 1) * d.period ≤ m * d.period := Nat.mul_le_mul_right _ hkm
        have := target.isLt
        omega
      have hsum : window.toNat + d.period = (k + 1) * d.period := by rw [hwindow, Nat.succ_mul]
      have hadd : window.checkedAdd (BitVec.ofNat 64 d.period) = some (window + BitVec.ofNat 64 d.period) := by
        rw [checkedAdd_eq_some, toNat_add, hperiod, Nat.mod_eq_of_lt (by omega)]
      have hnat : (window + BitVec.ofNat 64 d.period).toNat = (k + 1) * d.period := by
        rw [toNat_add, hperiod, Nat.mod_eq_of_lt (by omega), hsum]
      rw [if_pos hlt, hadd]
      simp only [Option.bind_eq_bind, Option.bind_some]
      rw [nextStateChecked_eq hb (by omega), hnat, hwindow]
      exact ih hnat hkm (by omega)
    · have hkm : k = m := by
        rw [lt_def, htarget, hwindow, Nat.mul_lt_mul_right hpos] at hlt
        omega
      rw [if_neg hlt, hkm]

theorem toNat_windowStart (hb : d.Bounded) (height : U64) :
    (d.windowStart height).toNat = height.toNat / d.period * d.period := by
  have hperiod : (BitVec.ofNat 64 d.period).toNat = d.period := by
    rw [toNat_ofNat, Nat.mod_eq_of_lt hb.period]
  have hle : (height % BitVec.ofNat 64 d.period).toNat ≤ height.toNat := by
    rw [toNat_umod]
    exact Nat.mod_le _ _
  have hdiv := Nat.div_add_mod height.toNat d.period
  rw [windowStart, BitVec.toNat_sub_of_le (BitVec.le_def.mpr hle), toNat_umod, hperiod, Nat.mul_comm]
  omega

theorem stateAtChecked_eq (hb : d.Bounded) (height : U64) :
    d.stateAtChecked log height = some (d.stateAt log height.toNat) := by
  have hzero : (0 : U64).toNat = 0 * d.period := by rw [Nat.zero_mul]; rfl
  have hdiv : height.toNat / d.period ≤ height.toNat := Nat.div_le_self _ _
  exact walkChecked_eq hb (toNat_windowStart hb height) hzero (Nat.zero_le _) (by omega)

/-! ## One boundary -/

/-- What can happen between two consecutive windows. -/
inductive Step : ThresholdState → ThresholdState → Prop
  | stay (s : ThresholdState) : Step s s
  | start : Step .defined .started
  | lockIn : Step .started .lockedIn
  | fail : Step .started .failed
  | activate : Step .lockedIn .active

theorem nextState_step (prev : ThresholdState) (nextWindow prevWindow : ℕ) :
    Step prev (d.nextState log prev nextWindow prevWindow) := by
  unfold nextState
  cases prev with
  | defined =>
    dsimp only
    split_ifs
    · exact .start
    · exact .stay _
  | started =>
    dsimp only
    split_ifs
    · exact .lockIn
    · exact .lockIn
    · exact .fail
    · exact .stay _
  | lockedIn =>
    dsimp only
    split_ifs
    · exact .activate
    · exact .stay _
  | active => exact .stay _
  | failed => exact .stay _

theorem stateAt_boundary (k : ℕ) : d.stateAt log (k * d.period) = d.stateInWindow log k := by
  rw [stateAt, Nat.mul_div_cancel _ d.period_pos]

theorem stateInWindow_succ (k : ℕ) : d.stateInWindow log (k + 1) =
      d.nextState log (d.stateInWindow log k) ((k + 1) * d.period) (k * d.period) := rfl

/-! ## A run of windows -/

theorem stateInWindow_terminal {s : ThresholdState} (hs : s = .active ∨ s = .failed) {k' : ℕ} (hk : k ≤ k')
    (h : d.stateInWindow log k = s) : d.stateInWindow log k' = s := by
  induction k', hk using Nat.le_induction with
  | base => exact h
  | succ m _ ih =>
    rw [stateInWindow_succ, ih]
    rcases hs with rfl | rfl
    · rfl
    · rfl

theorem signalingCountInWindow_congr {log' : SignalLog} {windowStart : ℕ}
    (h : ∀ i < windowStart + d.period, log'.signals i d.bit = log.signals i d.bit) :
    d.signalingCountInWindow log' windowStart = d.signalingCountInWindow log windowStart := by
  unfold signalingCountInWindow
  refine List.countP_congr fun offset hoffset => ?_
  rw [h _ (by have := List.mem_range.mp hoffset; omega)]

/-- A window's state depends on the signals below it. -/
theorem stateInWindow_congr {log' : SignalLog} (h : ∀ i < k * d.period, log'.signals i d.bit = log.signals i d.bit) :
    d.stateInWindow log' k = d.stateInWindow log k := by
  induction k with
  | zero => rfl
  | succ k ih =>
    have hle : k * d.period ≤ (k + 1) * d.period := Nat.mul_le_mul_right _ (Nat.le_succ k)
    have hend : k * d.period + d.period = (k + 1) * d.period := (Nat.succ_mul k _).symm
    have hcount : d.signalingCountInWindow log' (k * d.period) = d.signalingCountInWindow log (k * d.period) :=
      signalingCountInWindow_congr fun i hi => h i (by omega)
    rw [stateInWindow_succ, stateInWindow_succ, ih fun i hi => h i (by omega)]
    unfold nextState
    rw [hcount]

theorem stateInWindow_ne_failed (hlot : d.lockinontimeout = true) (k : ℕ) : d.stateInWindow log k ≠ .failed := by
  induction k with
  | zero =>
    intro h
    cases h
  | succ k ih =>
    rw [stateInWindow_succ]
    intro hfailed
    have hstep := @nextState_step d log (d.stateInWindow log k) ((k + 1) * d.period) (k * d.period)
    rw [hfailed] at hstep
    generalize hprev : d.stateInWindow log k = prev at *
    cases hstep with
    | stay => exact ih rfl
    | fail =>
      unfold nextState at hfailed
      dsimp only at hfailed
      rw [hlot] at hfailed
      rw [if_pos rfl] at hfailed
      split_ifs at hfailed

theorem minActivationHeight_le (h : d.stateInWindow log k = .active) : d.minActivationHeight ≤ k * d.period := by
  induction k with
  | zero => cases h
  | succ k ih =>
    have hle : k * d.period ≤ (k + 1) * d.period := Nat.mul_le_mul_right _ (Nat.le_succ k)
    rw [stateInWindow_succ] at h
    have hstep := @nextState_step d log (d.stateInWindow log k) ((k + 1) * d.period) (k * d.period)
    rw [h] at hstep
    generalize hprev : d.stateInWindow log k = prev at *
    cases hstep with
    | stay => exact (ih rfl).trans hle
    | activate =>
      unfold nextState at h
      dsimp only at h
      by_contra hlow
      rw [if_neg hlow] at h
      cases h

/-! ## The whole history -/

/-- A deployment's states over a history of signals. -/
structure FollowsBip9 (d : Deployment) (log : SignalLog) : Prop where
  /-- The walk of the source gives the state, with no overflow on the way. -/
  total : ∀ height : U64, d.stateAtChecked log height = some (d.stateAt log height.toNat)
  constant : ∀ h h', h / d.period = h' / d.period → d.stateAt log h = d.stateAt log h'
  steps : ∀ k, Step (d.stateAt log (k * d.period)) (d.stateAt log ((k + 1) * d.period))
  terminal : ∀ h h', h ≤ h' → d.stateAt log h = .active ∨ d.stateAt log h = .failed →
    d.stateAt log h' = d.stateAt log h
  past : ∀ log' : SignalLog, ∀ h, (∀ i < h / d.period * d.period, log'.signals i d.bit = log.signals i d.bit) →
    d.stateAt log' h = d.stateAt log h
  /-- A started window locks the deployment in if enough of its blocks signal; if not, only the timeout ends it. -/
  counted : ∀ k, d.stateAt log (k * d.period) = .started →
    if d.threshold.num * d.period ≤ d.signalingCountInWindow log (k * d.period) * d.threshold.den then
      d.stateAt log ((k + 1) * d.period) = .lockedIn
    else if (k + 1) * d.period < d.timeoutHeight then d.stateAt log ((k + 1) * d.period) = .started
    else d.stateAt log ((k + 1) * d.period) = if d.lockinontimeout then .lockedIn else .failed
  mandatory : d.lockinontimeout = true → ∀ h, d.stateAt log h ≠ .failed
  guarded : ∀ h, d.stateAt log h = .active → d.minActivationHeight ≤ h

theorem stateAt_counted (h : d.stateAt log (k * d.period) = .started) :
    if d.threshold.num * d.period ≤ d.signalingCountInWindow log (k * d.period) * d.threshold.den then
      d.stateAt log ((k + 1) * d.period) = .lockedIn
    else if (k + 1) * d.period < d.timeoutHeight then d.stateAt log ((k + 1) * d.period) = .started
    else d.stateAt log ((k + 1) * d.period) = if d.lockinontimeout then .lockedIn else .failed := by
  rw [stateAt_boundary] at h
  have hnext : d.stateAt log ((k + 1) * d.period) =
      d.nextState log .started ((k + 1) * d.period) (k * d.period) := by
    rw [stateAt_boundary, stateInWindow_succ, h]
  rw [hnext]
  unfold nextState Threshold.isMet
  dsimp only
  by_cases hmet : d.threshold.num * d.period ≤ d.signalingCountInWindow log (k * d.period) * d.threshold.den
  · rw [if_pos hmet, if_pos (decide_eq_true hmet)]
  have hunmet : ¬decide (d.threshold.num * d.period ≤
      d.signalingCountInWindow log (k * d.period) * d.threshold.den) = true := by
    rwa [decide_eq_true_iff]
  rw [if_neg hmet, if_neg hunmet]
  by_cases htime : (k + 1) * d.period < d.timeoutHeight
  · rw [if_pos htime, if_neg (Nat.not_le.mpr htime)]
  · rw [if_neg htime, if_pos (Nat.not_lt.mp htime)]

/-- Every deployment that is accepted follows BIP-9, with BIP-8's lock-in on timeout, on every history. -/
theorem follows_bip9 {bit : BitVec 8} {startHeight timeoutHeight period num den minActivationHeight : U64}
    {lockinontimeout : Bool}
    (hnew : new bit startHeight timeoutHeight period num den minActivationHeight lockinontimeout = .ok d)
    (log : SignalLog) : d.FollowsBip9 log where
  total := stateAtChecked_eq (bounded_of_new hnew)
  constant h h' heq := by rw [stateAt, stateAt, heq]
  steps k := by
    rw [stateAt_boundary, stateAt_boundary, stateInWindow_succ]
    exact nextState_step _ _ _
  terminal h h' hle hs := stateInWindow_terminal hs (Nat.div_le_div_right hle) rfl
  past log' h hagree := stateInWindow_congr hagree
  counted k hk := stateAt_counted hk
  mandatory hlot h := stateInWindow_ne_failed hlot _
  guarded h hactive := (minActivationHeight_le hactive).trans (Nat.div_mul_le_self h d.period)

/-- Three blocks of the second window signal bit 2. -/
def signalledLog : SignalLog := ((SignalLog.record .empty 4 4).record 5 4).record 7 4

/-- A deployment with windows of 4 blocks and a threshold of 3 locks in and activates. -/
theorem signalled_follows_bip9 : ∃ d, new 2 4 20 4 3 4 0 false = .ok d ∧ d.FollowsBip9 signalledLog ∧
    d.stateAt signalledLog 4 = .started ∧ d.stateAt signalledLog 8 = .lockedIn ∧ d.stateAt signalledLog 12 = .active :=
  ⟨_, rfl, follows_bip9 (show new 2 4 20 4 3 4 0 false = .ok _ from rfl) signalledLog, by decide, by decide, by decide⟩

end Deployment
end Sov
