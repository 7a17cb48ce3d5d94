import SovChain.Runtime.Dispatch
import SovChain.State.Journal

/-!
# The ids a ledger holds something under

`Stores.Named P` says that every id in the keys of the ledger, and every id that can come out of an NFT or
a pending proposal and become one, satisfies `P`. What a write adds is in `UndoOp.ids`, so `Named` is kept
as long as the ids a transaction brings up satisfy `P` (`SignedTransaction.Names`).
-/

namespace Sov
open Codec

/-- Every id the stores hold satisfies `P`. -/
structure Stores.Named (P : AccountId → Prop) (s : Stores) : Prop where
  account : ∀ id a, s.accounts.get? id = some a → P id
  contract : ∀ id key v, s.contractStorage.get? (toLex (id, key)) = some v → P id
  balance : ∀ asset holder b, s.tokenBalances.get? (toLex (asset, holder)) = some b → P holder
  window : ∀ asset holder w, s.tokenWindows.get? (toLex (asset, holder)) = some w → P holder
  owner : ∀ collection tokenId token, s.nft collection tokenId = some token → P token.owner
  payee : ∀ id prop, s.proposals.get? id = some prop → ∀ dest ∈ prop.payees, P dest

namespace Stores.Named
variable {P : AccountId → Prop} {s : Stores} {C : Crypto}

theorem new : (Stores.new C).Named P where
  account := nofun
  contract := nofun
  balance := nofun
  window := nofun
  owner := nofun
  payee := nofun

theorem store (h : s.Named P) (op : UndoOp) (hop : ∀ id ∈ op.ids, P id) : (s.store op).Named P := by
  cases op with
  | account id v =>
    refine { h with account := fun id' a ha => ?_ }
    obtain ⟨rfl, -⟩ | ha := OrdMap.get?_set_eq_some ha
    · exact hop _ (by simp [UndoOp.ids])
    · exact h.account id' a ha
  | contract id key v =>
    refine { h with contract := fun id' key' w hw => ?_ }
    obtain ⟨hk, -⟩ | hw := OrdMap.get?_set_eq_some hw
    · cases hk
      exact hop _ (by simp [UndoOp.ids])
    · exact h.contract id' key' w hw
  | tokenBalance asset holder v =>
    refine { h with balance := fun asset' holder' b hb => ?_ }
    obtain ⟨hk, -⟩ | hb := OrdMap.get?_set_eq_some hb
    · cases hk
      exact hop _ (by simp [UndoOp.ids])
    · exact h.balance asset' holder' b hb
  | tokenWindow asset holder v =>
    refine { h with window := fun asset' holder' w hw => ?_ }
    obtain ⟨hk, -⟩ | hw := OrdMap.get?_set_eq_some hw
    · cases hk
      exact hop _ (by simp [UndoOp.ids])
    · exact h.window asset' holder' w hw
  | nft collection tokenId v =>
    refine { h with owner := fun collection' tokenId' token ht => ?_ }
    obtain ⟨-, rfl⟩ | ht := OrdMap.get?_set_eq_some ht
    · exact hop _ (by simp [UndoOp.ids])
    · exact h.owner collection' tokenId' token ht
  | proposal id v =>
    refine { h with payee := fun id' prop hp => ?_ }
    obtain ⟨-, rfl⟩ | hp := OrdMap.get?_set_eq_some hp
    · exact hop
    · exact h.payee id' prop hp
  | _ => exact { h with }

theorem leaf (h : s.Named P) {slot : Slot} (hs : (s.leaf C slot).isSome) : ∀ id ∈ slot.ids, P id := by
  intro id hid
  cases slot with
  | account x =>
    obtain ⟨a, ha⟩ := Option.isSome_iff_exists.mp (by simpa [Stores.leaf] using hs)
    rw [List.mem_singleton.mp hid]
    exact h.account x a ha
  | contract x key =>
    obtain ⟨v, hv⟩ := Option.isSome_iff_exists.mp hs
    rw [List.mem_singleton.mp hid]
    exact h.contract x key v hv
  | tokenBalance asset x =>
    obtain ⟨b, hb⟩ := Option.isSome_iff_exists.mp (by simpa [Stores.leaf] using hs)
    rw [List.mem_singleton.mp hid]
    exact h.balance asset x b hb
  | tokenWindow asset x =>
    obtain ⟨w, hw⟩ := Option.isSome_iff_exists.mp (by simpa [Stores.leaf] using hs)
    rw [List.mem_singleton.mp hid]
    exact h.window asset x w hw
  | _ => cases hid

end Stores.Named

theorem Ledger.Steps.named {C : Crypto} {P : AccountId → Prop} {T : Prop} {L L' : Ledger}
    (h : Ledger.Steps C (fun op => ∀ id ∈ op.ids, P id) T L L') (hL : L.Named P) : L'.Named P := by
  induction h with
  | refl => exact hL
  | tail _ hstep ih =>
    cases hstep with
    | write op hop => exact ih.store op hop
    | torn pool _ => exact { ih with }

namespace Action
variable {a : Action}

theorem Fits.mono {d d' : ℕ} (h : a.Fits d) (hle : d ≤ d') : a.Fits d' := by
  induction a generalizing d d' with
  | multisigExec action approvals ih => exact ⟨h.1.trans_le hle, ih h.2.1 (by omega), h.2.2⟩
  | proposeMultisig account action ih | tipped tip inner ih | timestamped created inner ih => exact ⟨h.1.trans_le hle, h.2.1, ih h.2.2 (by omega)⟩
  | _ => exact h

theorem Fits.untimed {d : ℕ} (h : a.Fits d) : a.untimed.Fits d := by
  cases a with
  | timestamped created inner => exact h.2.2.mono (by omega)
  | _ => exact h

theorem Fits.resolved {d : ℕ} (h : a.Fits d) : a.resolved.Fits d := by
  have hu := h.untimed
  unfold Action.resolved
  cases hcase : a.untimed with
  | tipped tip inner =>
    rw [hcase] at hu
    exact hu.2.2.mono (by omega)
  | multisigExec inner approvals =>
    rw [hcase] at hu
    exact hu.2.1.mono (by omega)
  | _ =>
    rw [hcase] at hu
    exact hu

theorem ids_untimed (a : Action) : a.untimed.ids = a.ids := by
  cases a <;> rfl

theorem ids_resolved (a : Action) : a.resolved.ids = a.ids := by
  rw [← ids_untimed a, Action.resolved]
  cases a.untimed <;> rfl

end Action

/-- The ids a transaction names. -/
def SignedTransaction.ids (stx : SignedTransaction) : List AccountId :=
  stx.transaction.signer :: stx.transaction.action.ids

/-- The ids a block names. -/
def Block.ids (b : Block) : List AccountId :=
  b.header.proposer :: b.transactions.flatMap SignedTransaction.ids

/-- `P` holds of every id the transaction can make the ledger hold. -/
structure SignedTransaction.Names (P : AccountId → Prop) (stx : SignedTransaction) : Prop where
  wellFormed : ∀ id : AccountId, id.WellFormed → P id
  ids : ∀ id ∈ stx.ids, P id
  proposed : ∀ account inner dest amount,
    stx.transaction.action.resolved = .proposeMultisig account inner →
    Action.codec.decodeAll (Action.codec.encode inner) = some (.transfer dest amount) → P dest

namespace SignedTransaction
variable {stx : SignedTransaction}

theorem names_true (stx : SignedTransaction) : stx.Names fun _ => True :=
  ⟨fun _ _ => trivial, fun _ _ => trivial, fun _ _ _ _ _ _ => trivial⟩

/-- What was decoded once is read back as it was, so a proposal stores the action of the transaction. -/
theorem names_wellFormed (hfits : Action.codec.Fits stx.transaction.action)
    (hids : ∀ id ∈ stx.ids, id.WellFormed) : stx.Names AccountId.WellFormed where
  wellFormed _ h := h
  ids := hids
  proposed account inner dest amount haction hd := by
    have hresolved : (Action.proposeMultisig account inner).Fits maxActionDepth :=
      haction ▸ hfits.resolved
    have hinner : Action.codec.Fits inner := hresolved.2.2.mono (by omega)
    rw [Codec.decodeAll_encode _ hinner, Option.some.injEq] at hd
    have hmem : dest ∈ stx.transaction.action.ids := by
      rw [← Action.ids_resolved, haction, hd]
      simp [Action.ids]
    exact hids dest (List.mem_cons_of_mem _ hmem)

end SignedTransaction
end Sov
