import SovChain.Runtime.Execution
import SovChain.State.Frame
import Mathlib.Logic.Relation

/-!
# What the queued transfers of a contract do

The executor validates a contract's queue against a scratch map and writes the balances only when every
command has passed. `settleContractTokenTransfers_moves` shows that the stores end up as if the commands
had been carried out one by one.
-/

namespace Sov
namespace Runtime

theorem bind_eq_ok {ε α β : Type} {x : Except ε α} {f : α → Except ε β} {b : β} :
    x >>= f = .ok b ↔ ∃ a, x = .ok a ∧ f a = .ok b := by
  cases x <;> simp [bind, Except.bind]

/-- One command of a queue on the stores. A contract may pay itself: the destination is read after the
debit. -/
inductive Moves (contract : AccountId) : Stores → Stores → Prop
  | transfer {s : Stores} {asset : Hash} {dest : AccountId} {amount debited credited : Balance}
      (hasset : (s.tokens.get? asset).isSome) (hdest : dest.WellFormed)
      (hdeb : (s.tokenBalance asset contract).checkedSub amount = some debited)
      (hcred : ((s.store (.tokenBalance asset contract (some debited))).tokenBalance asset dest).checkedAdd
        amount = some credited) :
      Moves contract s ((s.store (.tokenBalance asset contract (some debited))).store
        (.tokenBalance asset dest (some credited)))
  | window {s : Stores} {asset : Hash} {w : SpendWindow} (hpolicy : (s.tokenPolicies.get? asset).isSome) :
      Moves contract s (s.store (.tokenWindow asset contract (some w)))

/-- The stores as a batch sees them. -/
def TransferScratch.view (t : TransferScratch) (s : Stores) : Stores :=
  { s with tokenBalances := s.tokenBalances.overlay (fun b : U128 => (some b).filter (· ≠ 0)) t.balances }

namespace TransferScratch
variable (t : TransferScratch) (s : Stores)

theorem tokenBalance_view (asset : Hash) (who : AccountId) :
    (t.view s).tokenBalance asset who = t.balance s asset who := by
  simp only [Stores.tokenBalance, view, balance, OrdMap.get?_overlay]
  cases t.balances.get? (toLex (asset, who)) with
  | none => rfl
  | some b => by_cases hb : b = 0#128 <;> simp [hb, Option.filter]

theorem view_insert (asset : Hash) (who : AccountId) (b : U128) (windows : OrdMap Hash SpendWindow) :
    view ⟨t.balances.insert (toLex (asset, who)) b, windows⟩ s =
      (t.view s).store (.tokenBalance asset who (some b)) := by
  simp only [view, OrdMap.overlay_insert, Stores.store]

end TransferScratch

section
variable {s : Stores} {contract : AccountId} {height : U64} {t t' : TransferScratch}
  {cmds : List TokenTransferCmd} {cmd : TokenTransferCmd}

/-- A spend window is computed only for an asset with a policy. -/
def TransferScratch.Governed (t : TransferScratch) (s : Stores) : Prop :=
  ∀ asset ∈ t.windows.keys, (s.tokenPolicies.get? asset).isSome

theorem gateCmd_governed {dest : AccountId} {windows : OrdMap Hash SpendWindow}
    (hgov : t.Governed s) (h : gateCmd s contract height t cmd dest = .ok windows) :
    ∀ asset ∈ windows.keys, (s.tokenPolicies.get? asset).isSome := by
  unfold gateCmd at h
  split at h
  · cases h
    exact hgov
  rename_i policy hpolicy
  split at h
  · cases h
  extract_lets window at h
  split at h
  · cases h
    intro asset hasset
    rw [OrdMap.mem_keys, OrdMap.get?_insert] at hasset
    split_ifs at hasset with heq
    · simp [← heq, hpolicy]
    · exact hgov asset (OrdMap.mem_keys.mpr hasset)
  · cases h

/-- What a command that passes has computed. -/
theorem settleCmd_eq_ok (h : settleCmd s contract height t cmd = .ok t') :
    ∃ dest windows remaining credited, ¬(s.tokens.get? cmd.asset).isNone ∧ AccountId.new cmd.dest = .ok dest ∧
      gateCmd s contract height t cmd dest = .ok windows ∧
      (t.balance s cmd.asset contract).checkedSub cmd.amount = some remaining ∧
      (TransferScratch.balance ⟨t.balances.insert (toLex (cmd.asset, contract)) remaining, t.windows⟩ s cmd.asset
        dest).checkedAdd cmd.amount = some credited ∧
      t' = ⟨(t.balances.insert (toLex (cmd.asset, contract)) remaining).insert (toLex (cmd.asset, dest)) credited,
        windows⟩ := by
  unfold settleCmd at h
  split_ifs at h with hasset
  split at h
  · cases h
  rename_i dest hdest
  split at h
  · cases h
  rename_i windows hwindows
  split at h
  · cases h
  rename_i remaining hdeb
  dsimp only at h
  split at h
  · cases h
  rename_i credited hcred
  cases h
  exact ⟨dest, windows, remaining, credited, hasset, hdest, hwindows, hdeb, hcred, rfl⟩

theorem settleCmd_moves (hgov : t.Governed s)
    (h : settleCmd s contract height t cmd = .ok t') : Moves contract (t.view s) (t'.view s) ∧ t'.Governed s := by
  obtain ⟨dest, windows, remaining, credited, hasset, hdest, hwindows, hdeb, hcred, rfl⟩ := settleCmd_eq_ok h
  refine ⟨?_, gateCmd_governed hgov hwindows⟩
  rw [TransferScratch.view_insert
    ⟨t.balances.insert (toLex (cmd.asset, contract)) remaining, t.windows⟩ s cmd.asset dest credited windows,
    TransferScratch.view_insert]
  rw [← TransferScratch.tokenBalance_view] at hdeb
  rw [← TransferScratch.tokenBalance_view, TransferScratch.view_insert] at hcred
  refine .transfer ?_ (AccountId.new_eq_ok hdest) hdeb hcred
  simpa [TransferScratch.view, Option.isSome_iff_ne_none] using hasset

theorem settleCmds_moves (hgov : t.Governed s)
    (h : cmds.foldlM (settleCmd s contract height) t = .ok t') :
    Relation.ReflTransGen (Moves contract) (t.view s) (t'.view s) ∧ t'.Governed s := by
  induction cmds generalizing t with
  | nil =>
    cases h
    exact ⟨.refl, hgov⟩
  | cons cmd cmds ih =>
    rw [List.foldlM_cons] at h
    obtain ⟨t1, hcmd, h⟩ := bind_eq_ok.mp h
    obtain ⟨hmove, hgov1⟩ := settleCmd_moves hgov hcmd
    obtain ⟨hmoves, hgov'⟩ := ih hgov1 h
    exact ⟨.head hmove hmoves, hgov'⟩

theorem toStores_foldl_setTokenBalance (C : Crypto) (L : Ledger) (l : List ((Hash ×ₗ AccountId) × U128)) :
    (l.foldl (fun L e => L.setTokenBalance C (ofLex e.1).1 (ofLex e.1).2 e.2) L).toStores =
      { L.toStores with
        tokenBalances := l.foldl (fun m e => m.set e.1 ((some e.2).filter (· ≠ 0))) L.tokenBalances } := by
  induction l generalizing L with
  | nil => rfl
  | cons e l ih => exact ih _

theorem foldl_setTokenWindow_moves (C : Crypto) (contract : AccountId) (L : Ledger)
    (l : List (Hash × SpendWindow)) (h : ∀ e ∈ l, (L.tokenPolicies.get? e.1).isSome) :
    Relation.ReflTransGen (Moves contract) L.toStores
      (l.foldl (fun L e => L.setTokenWindow C e.1 contract e.2) L).toStores := by
  induction l generalizing L with
  | nil => exact .refl
  | cons e l ih =>
    refine .head (.window (h e List.mem_cons_self)) (ih (L.setTokenWindow C e.1 contract e.2) ?_)
    exact fun e' he' => h e' (List.mem_cons_of_mem _ he')

theorem settleContractTokenTransfers_eq_ok {C : Crypto} {L L' : Ledger}
    (h : settleContractTokenTransfers C L contract cmds height = .ok L') :
    ∃ t, cmds.foldlM (settleCmd L contract height) ⟨.empty, .empty⟩ = .ok t ∧ L' = commitScratch C L contract t := by
  unfold settleContractTokenTransfers at h
  rcases hcmds : cmds.foldlM (settleCmd L contract height) ⟨.empty, .empty⟩ with e | t
  · simp [hcmds, Except.map] at h
  simp only [hcmds, Except.map, Except.ok.injEq] at h
  exact ⟨t, rfl, h.symm⟩

theorem settleContractTokenTransfers_moves {C : Crypto} {L L' : Ledger}
    (h : settleContractTokenTransfers C L contract cmds height = .ok L') :
    Relation.ReflTransGen (Moves contract) L L' := by
  obtain ⟨t, hcmds, rfl⟩ := settleContractTokenTransfers_eq_ok h
  obtain ⟨hmoves, hgov⟩ := settleCmds_moves (s := L) (t := ⟨.empty, .empty⟩) nofun hcmds
  refine hmoves.trans ?_
  have hbalances := toStores_foldl_setTokenBalance C L t.balances.entries
  have hwindows := foldl_setTokenWindow_moves C contract
    (t.balances.entries.foldl (fun L e => L.setTokenBalance C (ofLex e.1).1 (ofLex e.1).2 e.2) L)
    t.windows.entries fun e he => by
      rw [hbalances]
      exact hgov e.1 (List.mem_map_of_mem he)
  rw [hbalances] at hwindows
  exact hwindows

end
end Runtime
end Sov
