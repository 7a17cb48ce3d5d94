import SovChain.Runtime.Issuer
import SovChain.Runtime.Limiter

/-!
# The spend-velocity limit of an asset

A policy may limit what leaves a holder within a number of blocks. Four actions take tokens from a holder, and all of
them charge one stored window for it. Along a chain, what leaves a holder in a window's length of heights is at most the
limit, as long as the policy is not set again and no spending starts a new window soon after the old one is over.
-/

namespace Sov
open RateWindow (within Calm Follows Charged)

/-- A stored window as a rate window. -/
def SpendWindow.rate (w : SpendWindow) : RateWindow := ⟨w.windowStart.toNat, w.spent.toNat⟩

/-- The transfer check charges the rate window. -/
theorem CompliancePolicy.checkTransfer_charge {policy : CompliancePolicy} {limit : SpendLimit} {dest : AccountId}
    {amount : Balance} {height : U64} {w w' : SpendWindow} (hlimit : policy.spendLimit = some limit)
    (h : policy.checkTransfer dest amount height w = .ok w') :
    RateWindow.charge limit.windowBlocks.toNat limit.maxPerWindow.toNat w.rate height.toNat amount.toNat =
      some w'.rate := by
  unfold checkTransfer at h
  rw [hlimit] at h
  split at h
  · cases h
  split at h
  · cases h
  dsimp -zeta only at h
  extract_lets base at h
  have hbase : base.rate =
      if limit.windowBlocks.toNat ≤ height.toNat - w.rate.start then ⟨height.toNat, 0⟩ else w.rate := by
    dsimp only [base]
    rw [BitVec.toNat_saturatingSub]
    exact apply_ite SpendWindow.rate _ _ _
  split at h
  · cases h
  rename_i spent hspent
  split at h
  · cases h
  rename_i hle
  cases h
  exact RateWindow.charge_of_base hbase (BitVec.checkedAdd_eq_some.mp hspent) (not_lt.mp hle)

/-- What may become of a holder's window `w` and balance `b` under a limit: nothing leaves, or what leaves is charged
for. `may` says that the transaction is one that spends for the holder. -/
inductive Metered (limit : SpendLimit) (height : U64) (may : Prop) (w : SpendWindow) (b : Balance) (w' : SpendWindow)
    (b' : Balance) : Prop
  | idle (hwindow : w' = w) (hle : b.toNat ≤ b'.toNat)
  | spent {total : ℕ} (hmay : may)
      (hcharged : Charged limit.windowBlocks.toNat limit.maxPerWindow.toNat height.toNat w.rate total w'.rate)
      (hle : b.toNat ≤ b'.toNat + total)

namespace Metered
variable {limit : SpendLimit} {height : U64} {may may' : Prop} {w w' w'' : SpendWindow} {b b' b'' : Balance}

theorem trans (h : Metered limit height may w b w' b') (h' : Metered limit height may w' b' w'' b'') :
    Metered limit height may w b w'' b'' := by
  cases h with
  | idle hwindow hle =>
    subst hwindow
    cases h' with
    | idle hwindow' hle' => exact .idle hwindow' (hle.trans hle')
    | spent hmay hcharged hle' => exact .spent hmay hcharged (hle.trans hle')
  | spent hmay hcharged hle =>
    cases h' with
    | idle hwindow' hle' =>
      subst hwindow'
      exact .spent hmay hcharged (by omega)
    | spent _ hcharged' hle' => exact .spent hmay (hcharged.trans hcharged') (by omega)

theorem mono (h : Metered limit height may w b w' b') (hmay : may → may') : Metered limit height may' w b w' b' := by
  cases h with
  | idle hwindow hle => exact .idle hwindow hle
  | spent h hcharged hle => exact .spent (hmay h) hcharged hle

end Metered

namespace Stores

/-- The asset has a policy with this limit. -/
def SpendLimited (st : Stores) (asset : Hash) (limit : SpendLimit) : Prop :=
  (st.tokenPolicies.get? asset).bind CompliancePolicy.spendLimit = some limit

instance (st : Stores) (asset : Hash) (limit : SpendLimit) : Decidable (st.SpendLimited asset limit) :=
  inferInstanceAs (Decidable (_ = _))

/-- What becomes of the holder's tokens is metered. -/
def Meters (limit : SpendLimit) (height : U64) (may : Prop) (asset : Hash) (holder : AccountId) (st st' : Stores) :
    Prop :=
  Metered limit height may (st.tokenWindow asset holder) (st.tokenBalance asset holder)
    (st'.tokenWindow asset holder) (st'.tokenBalance asset holder)

namespace Meters
variable {limit : SpendLimit} {height : U64} {may : Prop} {asset : Hash} {holder : AccountId} {st st' st'' : Stores}

theorem refl : Meters limit height may asset holder st st := .idle rfl le_rfl

theorem trans (h : Meters limit height may asset holder st st') (h' : Meters limit height may asset holder st' st'') :
    Meters limit height may asset holder st st'' :=
  Metered.trans h h'

theorem of_same (hbalances : Field.tokenBalance.Same st st') (hwindows : Field.tokenWindow.Same st st') :
    Meters limit height may asset holder st st' := by
  refine .idle ?_ (le_of_eq ?_)
  · exact congrArg (fun m : OrdMap (Hash ×ₗ AccountId) SpendWindow => (m.get? (toLex (asset, holder))).getD default)
      hwindows
  · exact congrArg (fun m : OrdMap (Hash ×ₗ AccountId) U128 => ((m.get? (toLex (asset, holder))).getD 0).toNat)
      (Eq.symm hbalances)

theorem of_alters {K : List Field} (h : Alters K st st') (hbalances : .tokenBalance ∉ K) (hwindows : .tokenWindow ∉ K) :
    Meters limit height may asset holder st st' :=
  of_same (h.same hbalances) (h.same hwindows)

end Meters

theorem SpendLimited.policy {st : Stores} {asset : Hash} {limit : SpendLimit} (h : st.SpendLimited asset limit) :
    ∃ policy, st.tokenPolicies.get? asset = some policy ∧ policy.spendLimit = some limit :=
  Option.bind_eq_some_iff.mp h

end Stores

namespace Runtime
open Stores (Meters SpendLimited)
section Moves
variable {st st' : Stores} {asset : Hash} {limit : SpendLimit} {height : U64} {holder : AccountId} {sender : AccountId}
  {window : Option SpendWindow} {counterparty : AccountId}

theorem checkTokenOutgoing_charge {amount : Balance} (hlimit : st.SpendLimited asset limit)
    (h : checkTokenOutgoing st asset sender counterparty amount height = .ok window) :
    ∃ w, window = some w ∧ RateWindow.charge limit.windowBlocks.toNat limit.maxPerWindow.toNat
      (st.tokenWindow asset sender).rate height.toNat amount.toNat = some w.rate := by
  obtain ⟨policy, hpolicy, hmax⟩ := hlimit.policy
  simp only [checkTokenOutgoing, hpolicy] at h
  split_ifs at h
  split at h
  · rename_i w hw
    cases h
    exact ⟨w, rfl, CompliancePolicy.checkTransfer_charge hmax hw⟩
  · cases h

/-- Tokens that leave a sender through the gate are metered, for the sender and for everyone else. -/
theorem meters_of_outgoing {amount : Balance} (hlimit : st.SpendLimited asset limit)
    (hgate : checkTokenOutgoing st asset sender counterparty amount height = .ok window)
    (hout : (st.tokenBalance asset sender).toNat ≤ (st'.tokenBalance asset sender).toNat + amount.toNat)
    (hin : ∀ who, who ≠ sender → (st.tokenBalance asset who).toNat ≤ (st'.tokenBalance asset who).toNat)
    (hsent : ∀ w, window = some w → st'.tokenWindow asset sender = w)
    (hother : ∀ who, who ≠ sender → st'.tokenWindow asset who = st.tokenWindow asset who) :
    Meters limit height (sender = holder) asset holder st st' := by
  by_cases hholder : sender = holder
  · subst hholder
    obtain ⟨w, hw, hcharge⟩ := checkTokenOutgoing_charge hlimit hgate
    refine .spent rfl (.one ?_) hout
    rw [hsent w hw]
    exact hcharge
  · exact .idle (hother holder (Ne.symm hholder)) (hin holder (Ne.symm hholder))

theorem tokenWindow_storeWindow {C : Crypto} {L : Ledger} {asset' : Hash} {who : AccountId} :
    (storeWindow C L asset sender window).tokenWindow asset' who =
      if asset = asset' ∧ sender = who then window.getD (L.tokenWindow asset' who)
      else L.tokenWindow asset' who := by
  cases window with
  | none => exact (ite_self _).symm
  | some w => exact L.tokenWindow_store_tokenWindow asset asset' sender who w

theorem tokenBalance_storeWindow {C : Crypto} {L : Ledger} {asset' : Hash} {who : AccountId} :
    (storeWindow C L asset sender window).tokenBalance asset' who = L.tokenBalance asset' who := by
  cases window <;> rfl

end Moves

/-! ## The queue of a contract -/

/-- A spend window as the batch sees it. -/
def TransferScratch.window (t : TransferScratch) (s : Stores) (contract : AccountId) (asset : Hash)
    (who : AccountId) : SpendWindow :=
  if who = contract then (t.windows.get? asset).getD (s.tokenWindow asset who) else s.tokenWindow asset who

section Queue
variable {s : Stores} {contract : AccountId} {height : U64} {t t' : TransferScratch} {asset : Hash}
  {limit : SpendLimit} {holder : AccountId} {cmds : List TokenTransferCmd} {cmd : TokenTransferCmd}

theorem balance_insert (asset' : Hash) (who who' : AccountId) (b : U128) (windows : OrdMap Hash SpendWindow) :
    TransferScratch.balance ⟨t.balances.insert (toLex (asset, who)) b, windows⟩ s asset' who' =
      if asset = asset' ∧ who = who' then b else t.balance s asset' who' := by
  simp only [TransferScratch.balance, OrdMap.get?_insert, EmbeddingLike.apply_eq_iff_eq, Prod.mk.injEq]
  split_ifs <;> rfl

/-- A command charges the contract's window for the asset it moves, and no other one. -/
theorem gateCmd_charge {dest : AccountId} {windows : OrdMap Hash SpendWindow}
    (hlimit : s.SpendLimited asset limit) (h : gateCmd s contract height t cmd dest = .ok windows) :
    (cmd.asset ≠ asset ∧ windows.get? asset = t.windows.get? asset) ∨
      (cmd.asset = asset ∧ ∃ w, windows.get? asset = some w ∧
        RateWindow.charge limit.windowBlocks.toNat limit.maxPerWindow.toNat
          (t.window s contract asset contract).rate height.toNat cmd.amount.toNat = some w.rate) := by
  by_cases hasset : cmd.asset = asset
  · obtain ⟨policy, hpolicy, hmax⟩ := hlimit.policy
    simp only [gateCmd, hasset, hpolicy] at h
    split_ifs at h
    split at h
    · rename_i w hw
      cases h
      refine .inr ⟨hasset, w, by rw [OrdMap.get?_insert, if_pos rfl], ?_⟩
      rw [TransferScratch.window, if_pos rfl]
      exact CompliancePolicy.checkTransfer_charge hmax hw
    · cases h
  · refine .inl ⟨hasset, ?_⟩
    unfold gateCmd at h
    split at h
    · cases h
      rfl
    split at h
    · cases h
    dsimp only at h
    split at h
    · cases h
      rw [OrdMap.get?_insert, if_neg hasset]
    · cases h

theorem settleCmd_metered (hlimit : s.SpendLimited asset limit)
    (h : settleCmd s contract height t cmd = .ok t') :
    Metered limit height (contract = holder) (t.window s contract asset holder) (t.balance s asset holder)
      (t'.window s contract asset holder) (t'.balance s asset holder) := by
  obtain ⟨dest, windows, remaining, credited, -, -, hgate, hdeb, hcred, rfl⟩ := settleCmd_eq_ok h
  rw [BitVec.checkedSub_eq_some] at hdeb
  rw [balance_insert, BitVec.checkedAdd_eq_some] at hcred
  obtain ⟨hasset, hwindows⟩ | ⟨rfl, w, hwindows, hcharge⟩ := gateCmd_charge hlimit hgate
  · -- A command for another asset.
    refine .idle ?_ (le_of_eq ?_)
    · simp only [TransferScratch.window, hwindows]
    · rw [balance_insert (t := ⟨t.balances.insert (toLex (cmd.asset, contract)) remaining, t.windows⟩),
        balance_insert, if_neg fun h => hasset h.1, if_neg fun h => hasset h.1]
  · -- The destination is credited after the debit, also when it is the contract itself.
    have hbalance : (TransferScratch.balance ⟨(t.balances.insert (toLex (cmd.asset, contract)) remaining).insert
        (toLex (cmd.asset, dest)) credited, windows⟩ s cmd.asset holder) =
          if dest = holder then credited else if contract = holder then remaining
          else t.balance s cmd.asset holder := by
      rw [balance_insert (t := ⟨t.balances.insert (toLex (cmd.asset, contract)) remaining, t.windows⟩), balance_insert]
      simp only [true_and]
    simp only [true_and] at hcred
    rw [hbalance]
    by_cases hholder : contract = holder
    · subst hholder
      have hcharged : RateWindow.Charged limit.windowBlocks.toNat limit.maxPerWindow.toNat height.toNat
          (t.window s contract cmd.asset contract).rate cmd.amount.toNat
          (TransferScratch.window ⟨(t.balances.insert (toLex (cmd.asset, contract)) remaining).insert
            (toLex (cmd.asset, dest)) credited, windows⟩ s contract cmd.asset contract).rate := by
        rw [TransferScratch.window.eq_def ⟨_, windows⟩, if_pos rfl, hwindows]
        exact .one hcharge
      refine .spent rfl hcharged ?_
      by_cases hself : dest = contract
      · subst hself
        rw [if_pos rfl] at hcred ⊢
        omega
      · rw [if_neg hself, if_pos rfl]
        omega
    · refine .idle ?_ ?_
      · rw [TransferScratch.window, TransferScratch.window, if_neg (Ne.symm hholder), if_neg (Ne.symm hholder)]
      by_cases hdest : dest = holder
      · subst hdest
        rw [if_pos rfl]
        rw [if_neg hholder] at hcred
        omega
      · rw [if_neg hdest, if_neg hholder]

theorem settleCmds_metered (hlimit : s.SpendLimited asset limit)
    (h : cmds.foldlM (settleCmd s contract height) t = .ok t') :
    Metered limit height (contract = holder) (t.window s contract asset holder) (t.balance s asset holder)
      (t'.window s contract asset holder) (t'.balance s asset holder) := by
  induction cmds generalizing t with
  | nil =>
    cases h
    exact .idle rfl le_rfl
  | cons cmd cmds ih =>
    rw [List.foldlM_cons] at h
    obtain ⟨t1, hcmd, h⟩ := bind_eq_ok.mp h
    exact (settleCmd_metered hlimit hcmd).trans (ih h)

theorem tokenWindow_foldl_setTokenWindow (C : Crypto) (L : Ledger) (l : List (Hash × SpendWindow))
    (hl : l.Pairwise fun a b => a.1 < b.1) (who : AccountId) :
    (l.foldl (fun L e => L.setTokenWindow C e.1 contract e.2) L).tokenWindow asset who =
      if who = contract then (OrdMap.lookup asset l).getD (L.tokenWindow asset who)
      else L.tokenWindow asset who := by
  induction l generalizing L with
  | nil => exact (ite_self _).symm
  | cons e l ih =>
    obtain ⟨hlt, hl⟩ := List.pairwise_cons.mp hl
    have hwrite : (L.setTokenWindow C e.1 contract e.2).tokenWindow asset who =
        if e.1 = asset ∧ contract = who then e.2 else L.tokenWindow asset who :=
      L.tokenWindow_store_tokenWindow e.1 asset contract who e.2
    rw [List.foldl_cons, ih _ hl, hwrite, OrdMap.lookup]
    by_cases hwho : who = contract
    · subst hwho
      simp only [if_true, and_true]
      by_cases hasset : e.1 = asset
      · have hrest : OrdMap.lookup asset l = none := by
          rw [Option.eq_none_iff_forall_ne_some]
          intro w hw
          have hmem := (OrdMap.lookup_eq_some_iff hl).mp hw
          exact absurd (hlt _ hmem) (by rw [hasset]; exact lt_irrefl _)
        rw [if_pos hasset, if_pos hasset, hrest]
        rfl
      · rw [if_neg hasset, if_neg hasset]
    · rw [if_neg hwho, if_neg hwho, if_neg fun h => hwho h.2.symm]

theorem settleContractTokenTransfers_meters {C : Crypto} {L L' : Ledger}
    (hlimit : L.SpendLimited asset limit) (h : settleContractTokenTransfers C L contract cmds height = .ok L') :
    Meters limit height (contract = holder) asset holder L L' := by
  obtain ⟨t, hcmds, rfl⟩ := settleContractTokenTransfers_eq_ok h
  have hmetered : Metered limit height (contract = holder) _ _ (t.window L contract asset holder)
      (t.balance L asset holder) := settleCmds_metered hlimit hcmds
  have hbalances := toStores_foldl_setTokenBalance C L t.balances.entries
  have hbalance : (commitScratch C L contract t).tokenBalance asset holder = t.balance L asset holder := by
    have halters := Stores.Alters.foldl (K := [.tokenWindow]) (C := C)
      (L := t.balances.entries.foldl (fun L e => L.setTokenBalance C (ofLex e.1).1 (ofLex e.1).2 e.2) L)
      (l := t.windows.entries) (g := fun e => .tokenWindow e.1 contract (some e.2)) (by simp)
    have hsame : (commitScratch C L contract t).tokenBalances = _ := halters.same (f := .tokenBalance) (by simp)
    rw [hbalances] at hsame
    rw [← TransferScratch.tokenBalance_view]
    unfold Stores.tokenBalance
    rw [hsame]
    rfl
  have hwindow : (commitScratch C L contract t).tokenWindow asset holder =
      t.window L contract asset holder := by
    refine (tokenWindow_foldl_setTokenWindow C _ t.windows.entries t.windows.sorted holder).trans ?_
    rw [hbalances]
    rfl
  unfold Meters
  rw [hbalance, hwindow]
  simpa [TransferScratch.window, TransferScratch.balance, OrdMap.get?_empty] using hmetered

end Queue

/-! ## The actions -/

section Arms
variable {C : Crypto} {ctx : BlockContext} {sid holder : AccountId} {s : InFlight} {asset : Hash} {limit : SpendLimit}
  {height : U64} {may : Prop} {sender dest : AccountId} {amount : Balance} {window : Option SpendWindow}
  {debited credited : Balance}

theorem meters_of_payment {st st' : Stores} (hlimit : st.SpendLimited asset limit)
    (hgate : checkTokenOutgoing st asset sender dest amount height = .ok window) (hne : dest ≠ sender)
    (hdeb : (st.tokenBalance asset sender).checkedSub amount = some debited)
    (hcred : (st.tokenBalance asset dest).checkedAdd amount = some credited)
    (hbalance : ∀ who, st'.tokenBalance asset who =
      if dest = who then credited else if sender = who then debited else st.tokenBalance asset who)
    (hwindow : ∀ who, st'.tokenWindow asset who =
      if sender = who then window.getD (st.tokenWindow asset who) else st.tokenWindow asset who) :
    Meters limit height (sender = holder) asset holder st st' := by
  rw [BitVec.checkedSub_eq_some] at hdeb
  rw [BitVec.checkedAdd_eq_some] at hcred
  refine meters_of_outgoing hlimit hgate ?_ (fun who hwho => ?_) (fun w hw => ?_) fun who hwho => ?_
  · rw [hbalance, if_neg hne, if_pos rfl]
    omega
  · rw [hbalance, if_neg (Ne.symm hwho)]
    split_ifs with hdest
    · subst hdest
      omega
    · exact le_rfl
  · rw [hwindow, if_pos rfl, hw]
    rfl
  · rw [hwindow, if_neg (Ne.symm hwho)]

variable {a : Hash}

theorem tokenTransfer_meters (hlimit : s.ledger.SpendLimited asset limit) :
    (tokenTransfer C ctx sid a dest amount s).Ensures fun s' =>
      Meters limit ctx.height (a = asset ∧ sid = holder) asset holder s.ledger s'.ledger := by
  unfold tokenTransfer
  extract_lets target
  split
  · exact .failed .refl
  split
  · exact .failed .refl
  rename_i window hgate
  split
  · exact .failed .refl
  rename_i remaining hdeb
  split_ifs with hself
  · exact .done .refl
  split
  · exact .failed .refl
  rename_i credited hcred
  refine .done ?_
  by_cases hasset : a = asset
  · subst hasset
    refine (meters_of_payment hlimit hgate hself hdeb hcred (fun who => ?_) fun who => ?_).mono
      (And.intro rfl)
    · rw [tokenBalance_storeWindow, Ledger.tokenBalance_setTokenBalance, Ledger.tokenBalance_setTokenBalance]
      simp only [true_and]
    · rw [tokenWindow_storeWindow]
      simp only [true_and]
      rfl
  · refine .idle ?_ (le_of_eq ?_)
    · rw [tokenWindow_storeWindow, if_neg fun h => hasset h.1]
      rfl
    · rw [tokenBalance_storeWindow, Ledger.tokenBalance_setTokenBalance_of_asset_ne _ _ hasset,
        Ledger.tokenBalance_setTokenBalance_of_asset_ne _ _ hasset]

theorem tokenBurn_meters (hlimit : s.ledger.SpendLimited asset limit) :
    (tokenBurn C ctx sid a amount s).Ensures fun s' =>
      Meters limit ctx.height (a = asset ∧ sid = holder) asset holder s.ledger s'.ledger := by
  unfold tokenBurn
  split
  · exact .failed .refl
  rename_i info _
  split
  · exact .failed .refl
  rename_i window hgate
  split
  · exact .failed .refl
  rename_i remaining hdeb
  split
  · exact .failed .refl
  rename_i burned _
  refine .done ?_
  have hbalance : ∀ who, (storeWindow C ((s.ledger.setToken C a { info with burned }).setTokenBalance C a sid
      remaining) a sid window).tokenBalance asset who =
        if a = asset ∧ sid = who then remaining else s.ledger.tokenBalance asset who := fun who => by
    rw [tokenBalance_storeWindow, Ledger.tokenBalance_setTokenBalance]
    rfl
  have hwindow : ∀ who, (storeWindow C ((s.ledger.setToken C a { info with burned }).setTokenBalance C a sid
      remaining) a sid window).tokenWindow asset who =
        if a = asset ∧ sid = who then window.getD (s.ledger.tokenWindow asset who)
        else s.ledger.tokenWindow asset who := fun who => by
    rw [tokenWindow_storeWindow]
    rfl
  by_cases hasset : a = asset
  · subst hasset
    simp only [true_and] at hbalance hwindow
    rw [BitVec.checkedSub_eq_some] at hdeb
    refine (meters_of_outgoing hlimit hgate ?_ (fun who hwho => ?_) (fun w hw => ?_) fun who hwho => ?_).mono
      (And.intro rfl)
    · rw [hbalance, if_pos rfl]
      omega
    · rw [hbalance, if_neg (Ne.symm hwho)]
    · rw [hwindow, if_pos rfl, hw]
      rfl
    · rw [hwindow, if_neg (Ne.symm hwho)]
  · refine .idle ?_ (le_of_eq ?_)
    · rw [hwindow, if_neg fun h => hasset h.1]
    · rw [hbalance, if_neg fun h => hasset h.1]

/-! ### Intents -/

variable {who : AccountId} {L : Ledger} {leg : SettleLeg} {policy : CompliancePolicy} {settlement : Settlement}

theorem tokenBalance_writeWindow :
    (leg.writeWindow C L sender window).tokenBalance asset who = L.tokenBalance asset who := by
  cases leg with
  | native => rfl
  | token a => exact tokenBalance_storeWindow

theorem tokenWindow_leg_write {recipient : AccountId} :
    (leg.write C L sender debited recipient credited).tokenWindow asset who = L.tokenWindow asset who := by
  cases leg <;> rfl

theorem tokenWindow_writeWindow_of_ne (h : leg ≠ .token asset) :
    (leg.writeWindow C L sender window).tokenWindow asset who = L.tokenWindow asset who := by
  cases leg with
  | native => rfl
  | token a => rw [SettleLeg.writeWindow, tokenWindow_storeWindow, if_neg fun ha => h (congrArg _ ha.1)]

theorem settleIntentLegs_meters {L' : Ledger} {signer acct : Account}
    (hlimit : L.SpendLimited asset limit) (hne : settlement.intent.intent.owner ≠ sid)
    (hdiff : settlement.intent.intent.giveAsset ≠ settlement.intent.intent.wantAsset)
    (h : settleIntentLegs C L signer sid settlement height = .ok (.ok (L', acct))) : Meters limit height
      ((settlement.intent.intent.giveAsset = .token asset ∧ settlement.intent.intent.owner = holder) ∨
        (settlement.intent.intent.wantAsset = .token asset ∧ sid = holder)) asset holder L L' := by
  obtain ⟨giveLeg, wantLeg, ownerWindow, solverWindow, ownerDebited, solverDebited, solverCredited, ownerCredited,
    hgive, hwant, hownerGate, hsolverGate, hod, hsd, hsc, hoc, rfl, rfl⟩ := settleIntentLegs_eq_ok h
  by_cases hgiven : giveLeg = .token asset
  · -- The owner gives the asset, so the solver does not pay with it.
    subst hgiven
    have hother : wantLeg ≠ .token asset := by
      rintro rfl
      exact hdiff ((settleLeg_token hgive).1.trans (settleLeg_token hwant).1.symm)
    refine (meters_of_payment hlimit hownerGate (Ne.symm hne) hod hsc (fun who => ?_) fun who => ?_).mono
      fun hholder => .inl ⟨(settleLeg_token hgive).1, hholder⟩
    · rw [tokenBalance_writeWindow, tokenBalance_writeWindow, tokenBalance_leg_write hother, SettleLeg.write,
        Ledger.tokenBalance_setTokenBalance, Ledger.tokenBalance_setTokenBalance]
      simp only [true_and]
      rfl
    · rw [tokenWindow_writeWindow_of_ne hother, SettleLeg.writeWindow, tokenWindow_storeWindow, tokenWindow_leg_write,
        tokenWindow_leg_write]
      simp only [true_and]
      rfl
  by_cases hwanted : wantLeg = .token asset
  · subst hwanted
    refine (meters_of_payment hlimit hsolverGate hne hsd hoc (fun who => ?_) fun who => ?_).mono
      fun hholder => .inr ⟨(settleLeg_token hwant).1, hholder⟩
    · rw [tokenBalance_writeWindow, tokenBalance_writeWindow, SettleLeg.write, Ledger.tokenBalance_setTokenBalance,
        Ledger.tokenBalance_setTokenBalance, tokenBalance_leg_write hgiven]
      simp only [true_and]
      rfl
    · rw [SettleLeg.writeWindow, tokenWindow_storeWindow, tokenWindow_writeWindow_of_ne hgiven, tokenWindow_leg_write,
        tokenWindow_leg_write]
      simp only [true_and]
      rfl
  · refine .idle ?_ (le_of_eq ?_)
    · rw [tokenWindow_writeWindow_of_ne hwanted, tokenWindow_writeWindow_of_ne hgiven, tokenWindow_leg_write,
        tokenWindow_leg_write]
      rfl
    · rw [tokenBalance_writeWindow, tokenBalance_writeWindow, tokenBalance_leg_write hwanted,
        tokenBalance_leg_write hgiven]
      rfl

theorem intentSettle_meters (hlimit : s.ledger.SpendLimited asset limit) :
    (intentSettle C ctx sid settlement s).Ensures fun s' =>
      Meters limit ctx.height
        ((settlement.intent.intent.giveAsset = .token asset ∧ settlement.intent.intent.owner = holder) ∨
          (settlement.intent.intent.wantAsset = .token asset ∧ sid = holder)) asset holder s.ledger s'.ledger := by
  intro s' status h
  obtain ⟨rfl, -⟩ | ⟨-, -, -, hpassed, L, acct, hlegs, rfl⟩ := intentSettle_eq_ok h
  · exact .refl
  · refine (settleIntentLegs_meters hlimit hpassed.parties hpassed.assets hlegs).trans ?_
    exact .of_alters consumeIntent_alters (by simp) (by simp)

/-! ### Issuing and policies -/

theorem mintTokens_meters {L' : Ledger} {info : TokenInfo} (h : mintTokens C a info dest amount L = some L') :
    Meters limit height may asset holder L L' := by
  obtain ⟨issued, credited, -, hcred, rfl⟩ := mintTokens_eq_some h
  rw [BitVec.checkedAdd_eq_some] at hcred
  refine .idle rfl ?_
  rw [Ledger.tokenBalance_setTokenBalance]
  split_ifs with hat
  · obtain ⟨rfl, rfl⟩ := hat
    omega
  · exact le_rfl

theorem tokenIssue_meters {symbol : String} : (tokenIssue C sid symbol amount dest s).Ensures fun s' =>
      Meters limit height may asset holder s.ledger s'.ledger := by
  unfold tokenIssue
  extract_lets a info
  refine .guard .refl fun _ => .guard .refl fun _ => .guard .refl fun _ => .guard .refl fun _ => ?_
  split
  · exact .failed .refl
  split
  · exact .failed .refl
  · rename_i L hmint
    exact .done (mintTokens_meters hmint)

theorem vaultMint_meters : (vaultMint C sid amount s).Ensures fun s' =>
      Meters limit height may asset holder s.ledger s'.ledger := by
  unfold vaultMint
  refine .guard .refl fun _ => ?_
  dsimp only
  split
  · exact .failed .refl
  refine .guard .refl fun _ => ?_
  split
  · exact .failed .refl
  rename_i L hmint
  refine Arm.Ensures.mono (writeVault_tidy (K := [.vaultCollateral, .vault]) .refl (by simp)).alters
    fun s' halters => ?_
  exact (mintTokens_meters hmint).trans (.of_alters halters (by simp) (by simp))

theorem tokenWindow_setTokenPolicy (hasset : a ≠ asset) :
    (L.setTokenPolicy C a policy).tokenWindow asset holder = L.tokenWindow asset holder := by
  have hclear : ∀ (l : List AccountId) (L : Ledger),
      (l.foldl (fun L who => L.overwrite C (.tokenWindow a who none)) L).tokenWindow asset holder =
        L.tokenWindow asset holder := by
    intro l
    induction l with
    | nil => exact fun _ => rfl
    | cons who l ih =>
      intro L
      rw [List.foldl_cons, ih]
      unfold Stores.tokenWindow
      rw [Ledger.toStores_overwrite, Stores.store, OrdMap.get?_set, if_neg]
      exact fun heq => hasset (congrArg (fun k => (ofLex k).1) heq)
  exact hclear _ _

theorem tokenSetPolicy_meters
    (hkeep : a = asset → ∀ info, s.ledger.tokens.get? asset = some info → info.issuer ≠ sid) :
    (tokenSetPolicy C sid a policy s).Ensures fun s' =>
      Meters limit height may asset holder s.ledger s'.ledger := by
  intro s' status hs
  have halters := tokenSetPolicy_tidy.alters s' status hs
  refine .idle ?_ (le_of_eq ?_)
  · unfold tokenSetPolicy at hs
    split at hs
    · cases hs
      rfl
    rename_i info hinfo
    split_ifs at hs with hissuer
    · cases hs
      rfl
    · cases hs
      rfl
    · cases hs
      exact tokenWindow_setTokenPolicy fun hasset =>
        hkeep hasset info (hasset ▸ hinfo) (by simpa using hissuer)
  · exact congrArg (fun m : OrdMap (Hash ×ₗ AccountId) U128 => ((m.get? (toLex (asset, holder))).getD 0).toNat)
      (Eq.symm (halters.same (f := .tokenBalance) (by simp)))

theorem call_meters {E : Env} {contract : AccountId} {gasLimit : U64} {calldata : Bytes} {x x' : ExecState}
    {status : ExecutionStatus} (hlimit : x.ledger.SpendLimited asset limit)
    (h : call E ctx sid contract gasLimit calldata x = .ok (x', status)) :
    Meters limit ctx.height (contract = holder) asset holder x.ledger x'.ledger := by
  obtain ⟨rfl, -⟩ | ⟨_, _, _, _, -, -, ⟨rfl, -⟩ | ⟨batch, _, hbatch, rfl, -⟩⟩ := call_cases h
  · exact .refl
  · exact .refl
  refine (settleContractTokenTransfers_meters hlimit hbatch).trans (.of_alters
    (Stores.Alters.foldl (K := [.contract]) (C := E) (L := batch)
      (g := fun e : Bytes × Bytes => .contract contract e.1 (some e.2)) (by simp)) (by simp) (by simp))

end Arms

/-! ## Transactions -/

/-- The transaction may take units of the asset from the holder through the gate. -/
def MaySpend (asset : Hash) (holder : AccountId) (tx : Transaction) : Prop :=
  match tx.action.resolved with
  | .tokenTransfer a _ _ => a = asset ∧ tx.signer = holder
  | .tokenBurn a _ => a = asset ∧ tx.signer = holder
  | .intentSettle settlement =>
    (settlement.intent.intent.giveAsset = .token asset ∧ settlement.intent.intent.owner = holder) ∨
      (settlement.intent.intent.wantAsset = .token asset ∧ tx.signer = holder)
  | .call contract _ _ => contract = holder
  | _ => False

/-- The issuer sets the policy of the asset, which clears the windows of its holders. -/
def ResetsWindows (st : Stores) (asset : Hash) (tx : Transaction) : Prop :=
  match tx.action.resolved with
  | .tokenSetPolicy a _ => a = asset ∧ ∃ info, st.tokens.get? asset = some info ∧ info.issuer = tx.signer
  | _ => False

section Transactions
variable {E : Env} {ctx : BlockContext} {stx : SignedTransaction} {L L' : Ledger} {receipt : Receipt} {asset : Hash}
  {limit : SpendLimit} {holder : AccountId}

theorem applyTransaction_meters (hlimit : L.SpendLimited asset limit) (hreset : ¬ResetsWindows L asset stx.transaction)
    (hburn : ∀ amount, stx.transaction.action.resolved ≠ .vaultBurn amount)
    (h : applyTransaction E ctx L stx = .ok (L', receipt)) :
    Meters limit ctx.height (MaySpend asset holder stx.transaction) asset holder L L' := by
  by_cases hfields : .tokenBalance ∉ stx.transaction.action.resolved.fields ∧
      .tokenWindow ∉ stx.transaction.action.resolved.fields
  · exact .of_same (applyTransaction_same h hfields.1 (by simp)) (applyTransaction_same h hfields.2 (by simp))
  obtain ⟨p, x, status, hp, hx, hL, -⟩ := applyTransaction_eq_ok h
  have hread : Meters limit ctx.height (MaySpend asset holder stx.transaction) asset holder x.ledger
      L' := by
    rw [finish_stores hL]
    exact .refl
  refine .trans ?_ hread
  unfold execute at hx
  dsimp only at hx
  split at hx
  · cases hx
    exact .refl
  unfold MaySpend
  unfold ResetsWindows at hreset
  unfold dispatch at hx
  rw [prepare_action hp] at hx
  cases haction : stx.transaction.action.resolved <;> rw [haction] at hfields hburn hreset <;>
    simp only [haction] at hx
  case call => exact call_meters hlimit hx
  case tokenIssue => exact lift_ensures tokenIssue_meters hx
  case tokenTransfer => exact lift_ensures (tokenTransfer_meters hlimit) hx
  case tokenBurn => exact lift_ensures (tokenBurn_meters hlimit) hx
  case tokenSetPolicy =>
    exact lift_ensures (tokenSetPolicy_meters fun hasset info hinfo hissuer =>
      hreset ⟨hasset, info, hinfo, hissuer⟩) hx
  case intentSettle => exact lift_ensures (intentSettle_meters hlimit) hx
  case vaultMint => exact lift_ensures vaultMint_meters hx
  case vaultBurn amount => exact absurd rfl (hburn amount)
  all_goals simp [Action.fields] at hfields

end Transactions

namespace Step

/-- What leaves the holder through transfers, burns, swaps and contracts. Closing a vault debt is not one of them. -/
def outflow (asset : Hash) (holder : AccountId) (st : Step) : ℕ :=
  match st.tx.transaction.action.resolved with
  | .vaultBurn _ => 0
  | _ => (st.before.tokenBalance asset holder).toNat - (st.after.tokenBalance asset holder).toNat

/-- The holder's window is spent from while it is unused or open, or long after it was, and it is not cleared. -/
structure Steady (limit : SpendLimit) (asset : Hash) (holder : AccountId) (st : Step) : Prop where
  calm : MaySpend asset holder st.tx.transaction →
    Calm limit.windowBlocks.toNat (st.before.tokenWindow asset holder).rate st.ctx.height.toNat
  kept : ¬ResetsWindows st.before.toStores asset st.tx.transaction

variable {E : Env} {st : Step} {limit : SpendLimit} {asset : Hash} {holder : AccountId} {now : ℕ}
  {flows : List (ℕ × ℕ)}

/-- The window of a holder follows what leaves it. -/
theorem follows_outflow (hpos : 0 < limit.windowBlocks.toNat) (hvalid : st.Valid E)
    (hlimit : st.before.SpendLimited asset limit) (hsteady : st.Steady limit asset holder)
    (hnow : st.ctx.height.toNat = now)
    (h : Follows limit.windowBlocks.toNat limit.maxPerWindow.toNat (st.before.tokenWindow asset holder).rate now
      flows) : Follows limit.windowBlocks.toNat limit.maxPerWindow.toNat (st.after.tokenWindow asset holder).rate now
      (flows ++ [(st.ctx.height.toNat, st.outflow asset holder)]) := by
  subst hnow
  by_cases hburn : ∃ amount, st.tx.transaction.action.resolved = .vaultBurn amount
  · obtain ⟨amount, haction⟩ := hburn
    have hwindows : st.after.tokenWindows = st.before.tokenWindows :=
      applyTransaction_same (f := .tokenWindow) hvalid (by simp [haction, Action.fields]) (by simp)
    have hsame : st.after.tokenWindow asset holder = st.before.tokenWindow asset holder := by
      unfold Stores.tokenWindow
      rw [hwindows]
    simp only [outflow, haction, hsame]
    exact h.idle le_rfl
  · have hmeters : Stores.Meters limit st.ctx.height (MaySpend asset holder st.tx.transaction) asset holder
        st.before st.after :=
      applyTransaction_meters hlimit hsteady.kept (fun amount haction => hburn ⟨amount, haction⟩) hvalid
    have hout : st.outflow asset holder =
        (st.before.tokenBalance asset holder).toNat - (st.after.tokenBalance asset holder).toNat := by
      unfold outflow
      split
      · exact absurd ⟨_, ‹_›⟩ hburn
      · rfl
    rw [hout]
    cases hmeters with
    | idle hwindow hle =>
      rw [hwindow, Nat.sub_eq_zero_of_le hle]
      exact h.idle le_rfl
    | spent hmay hcharged hle => exact h.charged hpos le_rfl (hsteady.calm hmay) hcharged (by omega)

end Step

/-- In a chain whose steps are steady for a holder, no window's length of heights sees more than the limit leave it. -/
theorem spending_bounded_of_steady (E : Env) (G : Ledger) (base height : ℕ) (accepted : List Step) (L : Ledger)
    (asset : Hash) (holder : AccountId) (limit : SpendLimit) (h : Chained E G base height accepted L)
    (hlimit : ∀ st ∈ accepted, st.before.SpendLimited asset limit)
    (hsteady : ∀ st ∈ accepted, st.Steady limit asset holder) (t : ℕ) :
    within limit.windowBlocks.toNat (accepted.map fun st => (st.ctx.height.toNat, st.outflow asset holder)) t ≤
      limit.maxPerWindow.toNat := by
  obtain hzero | hpos := Nat.eq_zero_or_pos limit.windowBlocks.toNat
  · rw [hzero, RateWindow.within_width_zero]
    exact Nat.zero_le _
  have hrun : (∀ st ∈ accepted, st.before.SpendLimited asset limit ∧ st.Steady limit asset holder) →
      Follows limit.windowBlocks.toNat limit.maxPerWindow.toNat (L.tokenWindow asset holder).rate height
        (accepted.map fun st => (st.ctx.height.toNat, st.outflow asset holder)) := by
    refine Chained.induct (I := fun height accepted L =>
      (∀ st ∈ accepted, st.before.SpendLimited asset limit ∧ st.Steady limit asset holder) →
      Follows limit.windowBlocks.toNat limit.maxPerWindow.toNat (L.tokenWindow asset holder).rate height
        (accepted.map fun st => (st.ctx.height.toNat, st.outflow asset holder))) (fun _ => .nil)
      (fun hreward ih hall => ?_) (fun hheight hvalid ih hall => ?_) h
    · rw [applyCoinbase_stores hreward]
      exact (ih hall).later (Nat.le_succ _)
    · rw [List.forall_mem_append, List.forall_mem_singleton] at hall
      rw [List.map_append, List.map_singleton]
      exact Step.follows_outflow hpos hvalid hall.2.1 hall.2.2 hheight (ih hall.1)
  exact (hrun fun st hst => ⟨hlimit st hst, hsteady st hst⟩).le t

/-- An asset of the first account. -/
def usdAsset : Hash := tokenAssetId sampleCrypto ⟨"alice.sov"⟩ "usd"

/-- Its issuer keeps a hundred units and lets ten leave a holder in two blocks. -/
def issueTxs : List SignedTransaction :=
  [numberedTx (memberKey 0) "alice.sov" 0 (.tokenIssue "usd" 100 ⟨"alice.sov"⟩),
   numberedTx (memberKey 0) "alice.sov" 1 (.tokenSetPolicy usdAsset ⟨false, .unrestricted, some ⟨10, 2⟩⟩)]

def issuedLedger : Ledger :=
  ((executeBlock sampleEnv (meteredContext 1) minterLedger issueTxs).toOption.map Prod.fst).getD minterLedger

theorem chained_issuedLedger : Chained sampleEnv minterLedger 0 1
    (blockSteps sampleEnv (meteredContext 1) minterLedger issueTxs) issuedLedger := by
  obtain ⟨⟨L, receipts⟩, hL⟩ := exists_of_toOption
    (x := executeBlock sampleEnv (meteredContext 1) minterLedger issueTxs) (by decide +kernel)
  have hledger : issuedLedger = L := by
    unfold issuedLedger
    rw [hL]
    rfl
  rw [hledger]
  exact .block .start rfl hL

/-- One payment of each block from height 2 on. -/
def paymentBlocks (amounts : List Balance) : List (BlockContext × List SignedTransaction) :=
  amounts.mapIdx fun i amount =>
    (meteredContext (BitVec.ofNat 64 (i + 2)),
      [numberedTx (memberKey 0) "alice.sov" (BitVec.ofNat 64 (i + 2)) (.tokenTransfer usdAsset ⟨"bob.sov"⟩ amount)])

/-- One unit at height 2 opens a window, nine at height 3 fill it, and ten more at height 4 come in the next one:
nineteen in two blocks. -/
theorem hurried_payments_exceed_limit :
    ∃ g issued G accepted L, minterGenesis.build sampleCrypto = .ok g ∧ Chained sampleEnv g.ledger 0 1 issued G ∧
      Chained sampleEnv G 1 4 accepted L ∧ (∀ st ∈ accepted, st.before.SpendLimited usdAsset ⟨10, 2⟩) ∧
      within 2 (accepted.map fun st => (st.ctx.height.toNat, st.outflow usdAsset ⟨"alice.sov"⟩)) 3 = 19 := by
  have hflows : checkedFlows sampleEnv issuedLedger (·.outflow usdAsset ⟨"alice.sov"⟩)
      (·.before.SpendLimited usdAsset ⟨10, 2⟩) (paymentBlocks [1, 9, 10]) = some [(2, 1), (3, 9), (4, 10)] := by
    decide +kernel
  obtain ⟨accepted, L, hchain, hlimit, hout⟩ := chained_of_checkedFlows 1 hflows (by decide)
  exact ⟨_, _, issuedLedger, accepted, L, minterGenesis_build, chained_issuedLedger, hchain, hlimit,
    by rw [hout]; decide⟩

/-- Ten units at heights 2 and 3. -/
theorem calm_payments_bounded : ∃ accepted L, Chained sampleEnv issuedLedger 1 3 accepted L ∧
      (accepted.map fun st => (st.ctx.height.toNat, st.outflow usdAsset ⟨"alice.sov"⟩)) = [(2, 1), (3, 9)] ∧
      within 2 (accepted.map fun st => (st.ctx.height.toNat, st.outflow usdAsset ⟨"alice.sov"⟩)) 2 ≤ 10 := by
  have hflows : checkedFlows sampleEnv issuedLedger (·.outflow usdAsset ⟨"alice.sov"⟩)
      (fun st => st.before.SpendLimited usdAsset ⟨10, 2⟩ ∧
        Calm 2 (st.before.tokenWindow usdAsset ⟨"alice.sov"⟩).rate st.ctx.height.toNat ∧
        (match st.tx.transaction.action.resolved with
        | .tokenSetPolicy .. => false
        | _ => true) = true) (paymentBlocks [1, 9]) = some [(2, 1), (3, 9)] := by decide +kernel
  obtain ⟨accepted, L, hchain, hall, hout⟩ := chained_of_checkedFlows 1 hflows (by decide)
  refine ⟨accepted, L, hchain, hout, spending_bounded_of_steady sampleEnv issuedLedger 1 3 accepted L usdAsset
    ⟨"alice.sov"⟩ ⟨10, 2⟩ hchain (fun st hst => (hall st hst).1) (fun st hst => ?_) 2⟩
  obtain ⟨-, hcalm, hkept⟩ := hall st hst
  refine ⟨fun _ => hcalm, ?_⟩
  unfold ResetsWindows
  split
  · rename_i haction
    rw [haction] at hkept
    cases hkept
  · exact id

end Runtime
end Sov
