import SovChain.Runtime.Outcomes

/-!
# What crosses the boundary of a pool

For each of the two shielded pools: what a bundle that executes does to the value of the pool and to the
window its withdrawals are metered by, and that a bundle refused in the end has changed nothing. The checks
are made before the first write, on the state the bundle is then applied to.
-/

namespace Sov
open BitVec (checkedAdd_eq_none checkedAdd_eq_some checkedSub_eq_none checkedSub_eq_some)
open Codec

/-! ## The Orchard pool -/

/-- How the value of the Orchard pool and the window of its withdrawals go from one ledger to the next: not at
all, by a deposit, or by a withdrawal of `mag`, which is metered if there is a limit. -/
inductive OrchardStep (E : Env) (ctx : BlockContext) (bundle : Bytes) (st st' : Stores) : Prop
  | keep (hvalue : st'.shieldedValue = st.shieldedValue) (hwindow : st'.deshieldWindow = st.deshieldWindow)
  | deposit {sb : ShieldedBundle} (hsb : E.decodeShielded bundle = some sb) (hneg : sb.valueBalance.msb = true)
      (hvalue : st'.shieldedValue.toNat = st.shieldedValue.toNat + (Runtime.unsignedAbs sb.valueBalance).toNat)
      (hwindow : st'.deshieldWindow = st.deshieldWindow)
  | withdrawal {mag : Balance} (hvalue : st.shieldedValue.toNat = mag.toNat + st'.shieldedValue.toNat)
      (hwindow : ctx.mining.deshieldWindowBlocks ≠ 0 →
        ShieldedV2.drainWindow ctx.mining ctx.height st.deshieldWindow mag = some st'.deshieldWindow)

namespace Runtime
open Stores (Alters)
open Arm (Tidy)
section Orchard
variable {C : Crypto} {E : Env} {ctx : BlockContext} {sid : AccountId} {s : InFlight} {sb : ShieldedBundle}
  {window : Option (U64 × Balance)}

theorem applyShielded_alters : (applyShielded C sb window s).Ensures fun s' =>
      Alters [.shielded, .shieldedValue, .deshieldWindow] s.ledger s'.ledger := by
  unfold applyShielded Ledger.applyShieldedBundle Ledger.addShieldedValue Ledger.subShieldedValue
  cases hpool : s.ledger.shielded.applyBundle C sb with
  | mk pool e =>
    have halters : Alters [.shielded, .shieldedValue, .deshieldWindow] s.ledger
        (s.ledger.store (.shielded pool)) := Alters.store _ (by simp)
    cases e with
    | some e => exact .failed halters
    | none =>
      dsimp only
      split_ifs
      · split
        · exact Arm.ensures_overflow
        cases (s.ledger.overwrite C (.shielded pool)).shieldedValue.checkedAdd
            (unsignedAbs sb.valueBalance) with
        | none => exact Arm.ensures_overflow
        | some n =>
          exact .done (halters.snoc (.shieldedValue n) (by simp))
      · cases (s.ledger.overwrite C (.shielded pool)).shieldedValue.checkedSub
            (unsignedAbs sb.valueBalance) with
        | none => exact Arm.ensures_overflow
        | some n =>
          have hvalue := halters.snoc (.shieldedValue n) (by simp)
          dsimp only [Option.map_some]
          split
          · exact Arm.ensures_overflow
          · cases window with
            | none => exact .done hvalue
            | some w => exact .done (hvalue.snoc (.deshieldWindow w) (by simp))
      · exact .done halters

variable {bundle : Bytes}

theorem applyShielded_step (hsb : E.decodeShielded bundle = some sb)
    (hwindow : sb.valueBalance.msb = false → sb.valueBalance ≠ 0 → ctx.mining.deshieldWindowBlocks ≠ 0 →
      ∃ w, window = some w ∧ ShieldedV2.drainWindow ctx.mining ctx.height s.ledger.deshieldWindow
        (unsignedAbs sb.valueBalance) = some w) : (applyShielded C sb window s).Ensures fun s' =>
      OrchardStep E ctx bundle s.ledger s'.ledger := by
  unfold applyShielded Ledger.applyShieldedBundle Ledger.addShieldedValue Ledger.subShieldedValue
  cases hpool : s.ledger.shielded.applyBundle C sb with
  | mk pool e =>
    cases e with
    | some e => exact .failed (.keep rfl rfl)
    | none =>
      dsimp only
      split_ifs with hneg hzero
      · split
        · exact Arm.ensures_overflow
        cases hn : (s.ledger.overwrite C (.shielded pool)).shieldedValue.checkedAdd
            (unsignedAbs sb.valueBalance) with
        | none => exact Arm.ensures_overflow
        | some n => exact .done (.deposit hsb hneg (BitVec.checkedAdd_eq_some.mp hn).symm rfl)
      · cases hn : (s.ledger.overwrite C (.shielded pool)).shieldedValue.checkedSub
            (unsignedAbs sb.valueBalance) with
        | none => exact Arm.ensures_overflow
        | some n =>
          have hvalue := BitVec.checkedSub_eq_some.mp hn
          have hmetered := hwindow (by simpa using hneg) (by simpa using hzero)
          dsimp only [Option.map_some]
          split
          · exact Arm.ensures_overflow
          cases window with
          | none =>
            refine .done (.withdrawal hvalue fun hW => ?_)
            obtain ⟨w, hw, -⟩ := hmetered hW
            cases hw
          | some w =>
            refine .done (.withdrawal hvalue fun hW => ?_)
            obtain ⟨w', hw, hdrain⟩ := hmetered hW
            cases hw
            exact hdrain
      · exact .done (.keep rfl rfl)

/-- A bundle the signer and the pool can pay for does not overflow. -/
theorem applyShielded_clean (hroomy : s.Roomy)
    (hin : sb.valueBalance.msb = true → (s.signer.balance.checkedSub (unsignedAbs sb.valueBalance)).isSome)
    (hout : sb.valueBalance.msb = false → sb.valueBalance ≠ 0 →
      (s.ledger.shieldedValue.checkedSub (unsignedAbs sb.valueBalance)).isSome) :
    (applyShielded C sb window s).Rejects (· = s.ledger) := by
  have hroom := hroomy.room
  unfold Stores.supply Stores.offAccount at hroom
  unfold applyShielded Ledger.applyShieldedBundle Ledger.addShieldedValue Ledger.subShieldedValue
  cases hpool : s.ledger.shielded.applyBundle C sb with
  | mk pool e =>
    cases e with
    | some e => exact Except.rejects_failed
    | none =>
      dsimp only
      split_ifs with hneg hzero
      · obtain ⟨b, hb⟩ := Option.isSome_iff_exists.mp (hin hneg)
        rw [hb]
        rw [checkedSub_eq_some] at hb
        cases hn : (s.ledger.overwrite C (.shielded pool)).shieldedValue.checkedAdd
            (unsignedAbs sb.valueBalance) with
        | some n => exact Except.rejects_done
        | none =>
          rw [checkedAdd_eq_none] at hn
          simp only [Ledger.toStores_overwrite, Stores.store] at hn
          omega
      · obtain ⟨n, hn⟩ := Option.isSome_iff_exists.mp (hout (by simpa using hneg) (by simpa using hzero))
        have hsub : (s.ledger.overwrite C (.shielded pool)).shieldedValue.checkedSub
            (unsignedAbs sb.valueBalance) = some n := hn
        rw [hsub]
        rw [checkedSub_eq_some] at hn
        dsimp only [Option.map_some]
        split
        · rename_i hb
          rw [checkedAdd_eq_none] at hb
          omega
        · exact Except.rejects_done
      · exact Except.rejects_done

variable {nonce : U64}

theorem shielded_alters : (shielded ctx sid E nonce bundle s).Ensures fun s' =>
      Alters [.shielded, .shieldedValue, .deshieldWindow] s.ledger s'.ledger :=
  shielded_cases (fun r => r.Ensures _) (fun _ => .failed .refl)
    fun _ _ _ _ _ _ => applyShielded_alters

theorem shielded_step : (shielded ctx sid E nonce bundle s).Ensures fun s' =>
      OrchardStep E ctx bundle s.ledger s'.ledger :=
  shielded_cases (fun r => r.Ensures _) (fun _ => .failed (.keep rfl rfl))
    fun _ _ hsb _ _ hwindow => applyShielded_step hsb hwindow

theorem shielded_clean (hroomy : s.Roomy) : (shielded ctx sid E nonce bundle s).Rejects (· = s.ledger) :=
  shielded_cases (fun r => Except.Rejects r _) (fun _ => Except.rejects_failed)
    fun _ _ _ hin hout _ => applyShielded_clean hroomy hin hout

end Orchard
end Runtime

/-! ## The post-quantum pool -/

/-- What a verified bundle may do to a pool and a signer: `out` leaves and `inn` enters, the signer has what
enters and the pool what leaves, and the window meters what leaves. -/
structure V2Effects.Sound (effects : V2Effects) (st : Stores) (mining : MiningPolicy) (height : U64)
    (signerBalance : Balance) (b : SpendBundle) : Prop where
  shieldIn : effects.shieldIn = b.transparentIn.setWidth 128
  deshieldOut : effects.deshieldOut = b.transparentOut.setWidth 128
  covered : effects.shieldIn.toNat ≤ signerBalance.toNat
  held : effects.deshieldOut.toNat ≤ st.shieldedV2Value.toNat + effects.shieldIn.toNat
  metered : effects.deshieldOut ≠ 0 → mining.deshieldWindowBlocks ≠ 0 → ∃ w,
    effects.windowUpdate = some w ∧
      ShieldedV2.drainWindow mining height st.deshieldV2Window effects.deshieldOut = some w

namespace ShieldedV2
variable {E : Env} {bundle : Bytes} {st : Stores} {mining : MiningPolicy} {height : U64} {carrier : Carrier}
  {signerBalance : Balance} {suite2 : Bool} {effects : V2Effects}

theorem checkState_sound {b : SpendBundle} (h : checkState st mining height signerBalance b = .ok effects) :
    effects.Sound st mining height signerBalance b := by
  unfold checkState at h
  dsimp only at h
  split at h
  · cases h
  split at h
  · cases h
  split at h
  · cases h
  split at h
  · cases h
  rename_i hcovered
  split at h
  rotate_left
  · cases h
  rename_i after hafter
  split at h
  · cases h
  rename_i hheld
  rw [checkedAdd_eq_some] at hafter
  have hin : (b.transparentIn.setWidth 128).toNat ≤ signerBalance.toNat := by
    by_contra hlt
    exact hcovered (by simpa [checkedSub_eq_none] using hlt)
  have hout : (b.transparentOut.setWidth 128).toNat ≤ after.toNat := by
    by_contra hlt
    exact hheld (by simpa [checkedSub_eq_none] using hlt)
  split at h
  · split at h
    · rename_i window hdrain
      cases h
      exact ⟨rfl, rfl, hin, by dsimp only; omega, fun _ _ => ⟨window, rfl, hdrain⟩⟩
    · cases h
  · rename_i hfree
    cases h
    exact ⟨rfl, rfl, hin, by dsimp only; omega, fun hne hW => absurd ⟨hne, hW⟩ hfree⟩

theorem verifyBundleForCarrier_sound
    (h : verifyBundleForCarrier E bundle st mining height carrier signerBalance suite2 = .ok effects) :
    ∃ b, decode E bundle suite2 = .ok b ∧ effects.Sound st mining height signerBalance b := by
  unfold verifyBundleForCarrier at h
  obtain ⟨b, hb, h⟩ := Runtime.bind_eq_ok.mp h
  refine ⟨b, hb, ?_⟩
  dsimp only at h
  split at h
  · cases h
  split at h
  · cases h
  split at h
  · cases h
  split at h
  · cases h
  split at h
  · cases h
  exact checkState_sound h

end ShieldedV2

/-- The window a withdrawal leaves. -/
def V2Effects.window (effects : V2Effects) (old : U64 × Balance) : U64 × Balance :=
  if effects.deshieldOut = 0 then old else effects.windowUpdate.getD old

/-- The withdrawals of a bundle that executes are metered by the window of the post-quantum pool. -/
def V2Step (E : Env) (ctx : BlockContext) (bundle : Bytes) (st st' : Stores) : Prop :=
  ∃ b, ShieldedV2.decode E bundle ctx.shieldedV2Suite2Active = .ok b ∧
    (b.transparentOut = 0 → st'.deshieldV2Window = st.deshieldV2Window) ∧
    (b.transparentOut ≠ 0 → ctx.mining.deshieldWindowBlocks ≠ 0 →
      ShieldedV2.drainWindow ctx.mining ctx.height st.deshieldV2Window (b.transparentOut.setWidth 128) =
        some st'.deshieldV2Window)

/-- The withdrawal that pays the fee was verified against the balance the signer still has. -/
structure V2Effects.Funds (effects : V2Effects) (E : Env) (ctx : BlockContext) (st : Stores) (bundle : Bytes)
    (balance fee : Balance) : Prop where
  sound : ∃ b, ShieldedV2.decode E bundle ctx.shieldedV2Suite2Active = .ok b ∧
    effects.Sound st ctx.mining ctx.height balance b
  nothingIn : effects.shieldIn = 0
  pays : fee.toNat ≤ balance.toNat + effects.deshieldOut.toNat

namespace Runtime
open Stores (Alters)
open Arm (Tidy)
section V2
variable {C : Crypto} {E : Env} {ctx : BlockContext} {sid : AccountId} {s : InFlight} {effects : V2Effects}
  {deferred : Option Balance} {status : ExecutionStatus}

/-- What a bundle does to the books: `inn` enters the pool and what it withdraws leaves, and the signer pays the one
and gets the other, less a fee that waited for it. -/
structure V2Moved (K : List Field) (deferred : Option Balance) (effects : V2Effects) (inn : ℕ) (s s' : InFlight) :
    Prop where
  alters : Alters K s.ledger.toStores s'.ledger.toStores
  value : s.ledger.shieldedV2Value.toNat + inn = effects.deshieldOut.toNat + s'.ledger.shieldedV2Value.toNat
  window : s'.ledger.deshieldV2Window = effects.window s.ledger.deshieldV2Window
  balance : deferred = none ∨ effects.deshieldOut ≠ 0 →
    s'.signer.balance.toNat + inn + (deferred.getD 0).toNat = s.signer.balance.toNat + effects.deshieldOut.toNat

theorem applyV2Out_applied : (applyV2Out C deferred effects s).Ensures
      (V2Moved [.shieldedV2Value, .deshieldV2Window] deferred effects 0 s) := by
  unfold applyV2Out Ledger.subShieldedV2Value
  split_ifs with hout
  · refine .done ⟨.refl, by simp [hout], by rw [V2Effects.window, if_pos hout], fun hnone => ?_⟩
    rw [hnone.resolve_right (not_not.mpr hout), hout]
    rfl
  rcases hn : s.ledger.shieldedV2Value.checkedSub effects.deshieldOut with _ | n
  · exact Arm.ensures_overflow
  have hvalue : Alters [.shieldedV2Value, .deshieldV2Window] s.ledger
      (s.ledger.store (.shieldedV2Value n)) := Alters.store _ (by simp)
  rw [checkedSub_eq_some] at hn
  dsimp only [Option.map_some]
  split
  · exact Arm.ensures_overflow
  rename_i gross hgross
  split
  · exact Arm.ensures_overflow
  rename_i balance hbalance
  rw [checkedAdd_eq_some] at hgross
  rw [checkedSub_eq_some] at hbalance
  have hpaid : balance.toNat + 0 + (deferred.getD 0).toNat =
      s.signer.balance.toNat + effects.deshieldOut.toNat := by omega
  refine .done ⟨?_, ?_, ?_, fun _ => hpaid⟩
  · cases effects.windowUpdate with
    | none => exact hvalue
    | some w => exact hvalue.snoc (.deshieldV2Window w) (by simp)
  · cases effects.windowUpdate <;> exact hn
  · rw [V2Effects.window, if_neg hout]
    cases effects.windowUpdate <;> rfl

theorem applyV2_applied : (applyV2 C deferred effects s).Ensures fun s' =>
      V2Moved [.shieldedV2, .shieldedV2Value, .deshieldV2Window] deferred effects effects.shieldIn.toNat s s' ∧
      s.ledger.shieldedV2.apply C effects.nullifiers effects.commitments = .ok s'.ledger.shieldedV2 := by
  unfold applyV2 Ledger.applyShieldedV2 Ledger.addShieldedV2Value
  rcases s.ledger.shieldedV2.apply C effects.nullifiers effects.commitments with e | pool
  · exact Arm.ensures_error
  have hpool : Alters [.shieldedV2, .shieldedV2Value, .deshieldV2Window] s.ledger
      (s.ledger.store (.shieldedV2 pool)) := Alters.store _ (by simp)
  -- The withdrawal leg, from a state with the deposit made.
  have hleg : ∀ s1 : InFlight, Alters [.shieldedV2, .shieldedV2Value, .deshieldV2Window] s.ledger
      s1.ledger → s1.ledger.shieldedV2 = pool → s1.ledger.deshieldV2Window = s.ledger.deshieldV2Window →
      s1.ledger.shieldedV2Value.toNat = s.ledger.shieldedV2Value.toNat + effects.shieldIn.toNat →
      s1.signer.balance.toNat + effects.shieldIn.toNat = s.signer.balance.toNat →
      (applyV2Out C deferred effects s1).Ensures fun s' =>
        V2Moved [.shieldedV2, .shieldedV2Value, .deshieldV2Window] deferred effects effects.shieldIn.toNat s s' ∧
        (Except.ok pool : Except ShieldedV2StateError _) = .ok s'.ledger.shieldedV2 := by
    intro s1 halters hpool1 hwindow1 hvalue1 hbalance1
    refine applyV2Out_applied.mono fun s' h => ⟨⟨halters.trans (h.alters.mono (by simp)), ?_, ?_, fun hout => ?_⟩, ?_⟩
    · have hvalue := h.value
      omega
    · rw [h.window, hwindow1]
    · have hbalance := h.balance hout
      omega
    · have hsame : s'.ledger.shieldedV2 = s1.ledger.shieldedV2 := h.alters.same (f := .shieldedV2) (by simp)
      rw [hsame, hpool1]
  dsimp only [Except.map]
  split_ifs with hin
  · exact hleg _ hpool rfl rfl (by rw [hin]; rfl) (by rw [hin]; rfl)
  split
  · exact Arm.ensures_overflow
  rename_i b hb
  rcases hn : (s.ledger.overwrite C (.shieldedV2 pool)).shieldedV2Value.checkedAdd effects.shieldIn with _ | n
  · exact Arm.ensures_overflow
  rw [checkedSub_eq_some] at hb
  rw [checkedAdd_eq_some] at hn
  refine hleg _ (hpool.snoc (.shieldedV2Value n) (by simp)) rfl rfl hn.symm ?_
  change b.toNat + _ = _
  omega

/-- The pool takes a bundle or the transaction is rejected; the action does not fail. -/
theorem applyV2_status {s' : InFlight}
    (h : applyV2 C deferred effects s = .ok (s', status)) : status = .success := by
  have hout : ∀ s1 : InFlight, applyV2Out C deferred effects s1 = .ok (s', status) → status = .success := by
    intro s1 h
    unfold applyV2Out at h
    dsimp only at h
    repeat' split at h
    all_goals cases h
    all_goals rfl
  unfold applyV2 at h
  dsimp only at h
  repeat' split at h
  all_goals first | cases h | exact hout _ h

theorem applyV2_failsClean : (applyV2 C deferred effects s).FailsClean s :=
  fun _ _ h => by cases applyV2_status h

theorem exists_applyV2Out (hheld : effects.deshieldOut.toNat ≤ s.ledger.shieldedV2Value.toNat)
    (hcredit : s.signer.balance.toNat + effects.deshieldOut.toNat < 2 ^ 128)
    (hfee : (deferred.getD 0).toNat ≤ s.signer.balance.toNat + effects.deshieldOut.toNat) :
    ∃ s', applyV2Out C deferred effects s = .ok (s', .success) := by
  unfold applyV2Out Ledger.subShieldedV2Value
  split_ifs
  · exact ⟨_, rfl⟩
  rcases hn : s.ledger.shieldedV2Value.checkedSub effects.deshieldOut with _ | n
  · rw [checkedSub_eq_none] at hn
    omega
  dsimp only [Option.map_some]
  split
  · rename_i hgross
    rw [checkedAdd_eq_none] at hgross
    omega
  rename_i gross hgross
  rw [checkedAdd_eq_some] at hgross
  split
  · rename_i hb
    rw [checkedSub_eq_none] at hb
    omega
  · exact ⟨_, rfl⟩

theorem exists_applyV2 {pool : ShieldedV2State}
    (hpool : s.ledger.shieldedV2.apply C effects.nullifiers effects.commitments = .ok pool)
    (hcovered : effects.shieldIn.toNat ≤ s.signer.balance.toNat)
    (hvalue : s.ledger.shieldedV2Value.toNat + effects.shieldIn.toNat < 2 ^ 128)
    (hheld : effects.deshieldOut.toNat ≤ s.ledger.shieldedV2Value.toNat + effects.shieldIn.toNat)
    (hcredit : s.signer.balance.toNat + effects.deshieldOut.toNat < 2 ^ 128 + effects.shieldIn.toNat)
    (hfee : (deferred.getD 0).toNat + effects.shieldIn.toNat ≤ s.signer.balance.toNat + effects.deshieldOut.toNat) :
    ∃ s', applyV2 C deferred effects s = .ok (s', .success) := by
  unfold applyV2 Ledger.applyShieldedV2 Ledger.addShieldedV2Value
  rw [hpool]
  dsimp only [Except.map]
  split_ifs with hzero
  · rw [hzero] at hheld hcredit hfee
    exact exists_applyV2Out hheld hcredit hfee
  rcases hb : s.signer.balance.checkedSub effects.shieldIn with _ | b
  · rw [checkedSub_eq_none] at hb
    omega
  rw [checkedSub_eq_some] at hb
  cases hn : (s.ledger.overwrite C (.shieldedV2 pool)).shieldedV2Value.checkedAdd effects.shieldIn with
  | none =>
    rw [checkedAdd_eq_none] at hn
    change 2 ^ 128 ≤ s.ledger.shieldedV2Value.toNat + _ at hn
    omega
  | some n =>
    rw [checkedAdd_eq_some] at hn
    change s.ledger.shieldedV2Value.toNat + _ = _ at hn
    refine exists_applyV2Out ?_ ?_ ?_
    · change _ ≤ n.toNat
      omega
    · change b.toNat + _ < _
      omega
    · change _ ≤ b.toNat + _
      omega

theorem applyV2_clean (hroomy : s.Roomy) (hin : effects.shieldIn.toNat ≤ s.signer.balance.toNat)
    (hheld : effects.deshieldOut.toNat ≤ s.ledger.shieldedV2Value.toNat + effects.shieldIn.toNat)
    (hfee : (deferred.getD 0).toNat + effects.shieldIn.toNat ≤ s.signer.balance.toNat + effects.deshieldOut.toNat) :
    (applyV2 C deferred effects s).Rejects (· = s.ledger) := by
  have hroom := hroomy.room
  unfold Stores.supply Stores.offAccount at hroom
  cases hpool : s.ledger.shieldedV2.apply C effects.nullifiers effects.commitments with
  | error e =>
    unfold applyV2 Ledger.applyShieldedV2
    rw [hpool]
    exact Except.rejects_reject rfl
  | ok pool =>
    obtain ⟨s', hs'⟩ : ∃ s', applyV2 C deferred effects s = .ok (s', .success) :=
      exists_applyV2 hpool hin (by omega) hheld (by omega) hfee
    rw [hs']
    exact Except.rejects_ok

variable {fee : Balance} {bundle : Bytes} {feeFunded : Option V2Effects} {nonce : U64}

theorem shieldedV2_cases (P : Arm → Prop) (hreject : ∀ e, P (.error (.reject s.ledger e)))
    (hfunded : ∀ effects, feeFunded = some effects → P (applyV2 E (some fee) effects s))
    (hverified : ∀ effects b, feeFunded = none → ShieldedV2.decode E bundle ctx.shieldedV2Suite2Active = .ok b →
      effects.Sound s.ledger ctx.mining ctx.height s.signer.balance b →
      P (applyV2 E none effects s)) : P (shieldedV2 ctx sid E nonce fee feeFunded bundle s) := by
  unfold shieldedV2
  split_ifs
  · exact hreject _
  split
  · exact hfunded _ rfl
  split
  · exact hreject _
  · rename_i effects hok
    obtain ⟨b, hb, hsound⟩ := ShieldedV2.verifyBundleForCarrier_sound hok
    exact hverified effects b rfl hb hsound

theorem shieldedV2_status {s' : InFlight}
    (h : shieldedV2 ctx sid E nonce fee feeFunded bundle s = .ok (s', status)) : status = .success := by
  revert h
  exact shieldedV2_cases (fun r => r = .ok (s', status) → status = .success) (fun _ h => by cases h)
    (fun _ _ => applyV2_status) fun _ _ _ _ _ => applyV2_status

theorem shieldedV2_tidy (hfunds : ∀ effects, feeFunded = some effects →
      effects.Funds E ctx s.ledger bundle s.signer.balance fee) :
    (shieldedV2 ctx sid E nonce fee feeFunded bundle s).Tidy [.shieldedV2, .shieldedV2Value, .deshieldV2Window] s := by
  refine shieldedV2_cases (fun r => r.Tidy _ s) (fun _ => .reject) (fun effects hfunded => ?_)
    fun effects b _ _ hsound => ?_
  · obtain ⟨⟨b, -, hsound⟩, hzero, hpays⟩ := hfunds effects hfunded
    have hin : effects.shieldIn.toNat = 0 := by simp [hzero]
    refine ⟨applyV2_applied.mono fun _ h => h.1.alters, applyV2_failsClean, fun hroomy => ?_⟩
    exact applyV2_clean hroomy hsound.covered hsound.held (by rw [Option.getD_some]; omega)
  · refine ⟨applyV2_applied.mono fun _ h => h.1.alters, applyV2_failsClean, fun hroomy => ?_⟩
    have hcovered := hsound.covered
    refine applyV2_clean hroomy hcovered hsound.held ?_
    simp only [Option.getD_none, BitVec.ofNat_eq_ofNat, BitVec.toNat_ofNat, Nat.zero_mod]
    omega

theorem shieldedV2_step (hfunds : ∀ effects, feeFunded = some effects →
      effects.Funds E ctx s.ledger bundle s.signer.balance fee) :
    (shieldedV2 ctx sid E nonce fee feeFunded bundle s).Ensures fun s' =>
      V2Step E ctx bundle s.ledger s'.ledger := by
  have happly : ∀ (deferred : Option Balance) (effects : V2Effects) (b : SpendBundle),
      ShieldedV2.decode E bundle ctx.shieldedV2Suite2Active = .ok b →
      effects.Sound s.ledger ctx.mining ctx.height s.signer.balance b →
      (applyV2 E deferred effects s).Ensures fun s' =>
        V2Step E ctx bundle s.ledger s'.ledger := by
    intro deferred effects b hb hsound
    refine applyV2_applied.mono fun s' happlied => ⟨b, hb, fun hzero => ?_, fun hne hW => ?_⟩
    · rw [happlied.1.window, V2Effects.window, if_pos (by rw [hsound.deshieldOut, hzero]; rfl)]
    have hout : effects.deshieldOut ≠ 0 := by
      rw [hsound.deshieldOut]
      intro h0
      apply hne
      have := congrArg BitVec.toNat h0
      rw [BitVec.toNat_setWidth_of_le (by decide)] at this
      exact BitVec.eq_of_toNat_eq this
    obtain ⟨w, hupdate, hdrain⟩ := hsound.metered hout hW
    rw [happlied.1.window, V2Effects.window, if_neg hout, hupdate, Option.getD_some, ← hsound.deshieldOut]
    exact hdrain
  refine shieldedV2_cases (fun r => r.Ensures _) (fun _ => Arm.ensures_error) (fun effects hfunded => ?_)
    fun effects b _ hb hsound => happly _ effects b hb hsound
  obtain ⟨⟨b, hb, hsound⟩, -, -⟩ := hfunds effects hfunded
  exact happly _ effects b hb hsound

end V2
end Runtime
end Sov
