import SovChain.State.Frame

/-!
# The supply as a number

`Stores.totalSupply` adds with overflow checks; `supply` is the same sum in `ℕ`, where the books can be
kept without them (`totalSupply_eq_some`). The counter of the escrows is kept beside the escrows
themselves, and `EscrowsCovered` says that it is large enough to pay them all.
-/

namespace Sov
namespace Stores
variable (s : Stores)

/-- What the accounts hold. -/
def held : ℕ := s.accounts.sum fun _ a => a.worth

/-- What lies outside the accounts. -/
def offAccount : ℕ :=
  s.shieldedValue.toNat + s.shieldedV2Value.toNat + s.htlcLocked.toNat + s.vaultCollateral.toNat

def supply : ℕ := s.held + s.offAccount

theorem totalSupply_eq_some {s : Stores} {t : Balance} : s.totalSupply = some t ↔ s.supply = t.toNat := by
  refine (BitVec.checkedSum_mapM_eq_some fun (e : AccountId × Account) t => e.2.total_eq_some).trans ?_
  simp only [supply, held, offAccount, OrdMap.sum, List.map_cons, List.map_nil, List.sum_cons,
    List.sum_nil, BitVec.ofNat_eq_ofNat, BitVec.toNat_ofNat, Nat.zero_mod]
  omega

theorem totalSupply_congr {s s' : Stores} (h : s'.supply = s.supply) : s'.totalSupply = s.totalSupply := by
  ext t
  rw [totalSupply_eq_some, totalSupply_eq_some, h]

theorem weightAt_accounts (id : AccountId) : s.accounts.weightAt (fun _ a => a.worth) id = (s.account id).worth := by
  rw [OrdMap.weightAt, account]
  cases s.accounts.get? id <;> rfl

theorem held_store_account (id : AccountId) (a : Account) :
    (s.store (.account id (some a))).held + (s.account id).worth = s.held + a.worth := by
  have h := s.accounts.sum_set (fun _ a => a.worth) id ((some a).filter fun a => !a.isEmpty)
  rw [weightAt_accounts] at h
  rw [held, store, h, held]
  by_cases ha : a.isEmpty
  · have : a = default := by simpa [Account.isEmpty] using ha
    simp [this, Account.isEmpty, Option.filter]
  · simp [ha, Option.filter]

theorem worth_le_held (id : AccountId) : (s.account id).worth ≤ s.held := by
  rw [← weightAt_accounts]
  exact OrdMap.weightAt_le_sum _ _ _

/-- The open escrows. -/
def escrowed : ℕ := s.htlcs.sum fun _ h => h.amount.toNat

/-- The escrow counter can pay every open escrow. -/
def EscrowsCovered : Prop := s.escrowed ≤ s.htlcLocked.toNat

instance : Decidable s.EscrowsCovered := inferInstanceAs (Decidable (_ ≤ _))

theorem escrowed_store_some {id : Hash} (h : s.htlcs.get? id = none) (htlc : Htlc) :
    (s.store (.htlc id (some htlc))).escrowed = s.escrowed + htlc.amount.toNat := by
  have hsum := s.htlcs.sum_set (fun _ h => h.amount.toNat) id (some htlc)
  rw [OrdMap.weightAt, h] at hsum
  simpa [escrowed] using hsum

theorem escrowed_store_none {id : Hash} {htlc : Htlc} (h : s.htlcs.get? id = some htlc) :
    (s.store (.htlc id none)).escrowed + htlc.amount.toNat = s.escrowed := by
  have hsum := s.htlcs.sum_set (fun _ h => h.amount.toNat) id none
  rw [OrdMap.weightAt, h] at hsum
  simpa [escrowed] using hsum

end Stores

namespace Ledger
variable (C : Crypto) (L : Ledger)

theorem held_setAccount (id : AccountId) (a : Account) :
    (L.setAccount C id a).held + (L.account id).worth = L.held + a.worth :=
  L.held_store_account id a

@[simp] theorem offAccount_setAccount (id : AccountId) (a : Account) :
    (L.setAccount C id a).offAccount = L.offAccount := rfl

theorem supply_setAccount (id : AccountId) (a : Account) :
    (L.setAccount C id a).supply + (L.account id).worth = L.supply + a.worth := by
  have := L.held_setAccount C id a
  simp only [Stores.supply, offAccount_setAccount]
  omega

end Ledger
end Sov
