import SovChain.State.Ledger
import Mathlib.Logic.Relation

/-!
# Reading after writing

What the accessors of the ledger return after a write. An empty account, a zero balance or a fresh
window is not stored and reads back as the default, so each accessor returns what was written. A write
changes one field of the stores; `Alters.same` says that a sequence of writes to some of the fields leaves
the others as they were.
-/

namespace Sov
namespace Stores
variable (s : Stores)

theorem account_store_account (id id' : AccountId) (a : Account) :
    (s.store (.account id (some a))).account id' = if id = id' then a else s.account id' := by
  simp only [account, store, OrdMap.get?_set]
  split_ifs with h
  · by_cases ha : a.isEmpty
    · have : a = default := by simpa [Account.isEmpty] using ha
      simp [this, Account.isEmpty, Option.filter]
    · simp [ha, Option.filter]
  · rfl

theorem tokenBalance_store_tokenBalance (asset asset' : Hash) (holder holder' : AccountId) (b : Balance) :
    (s.store (.tokenBalance asset holder (some b))).tokenBalance asset' holder' =
      if asset = asset' ∧ holder = holder' then b else s.tokenBalance asset' holder' := by
  simp only [tokenBalance, store, OrdMap.get?_set, EmbeddingLike.apply_eq_iff_eq, Prod.mk.injEq]
  split_ifs with h
  · by_cases hb : b = 0#128 <;> simp [hb, Option.filter]
  · rfl

theorem tokenWindow_store_tokenWindow (asset asset' : Hash) (holder holder' : AccountId) (w : SpendWindow) :
    (s.store (.tokenWindow asset holder (some w))).tokenWindow asset' holder' =
      if asset = asset' ∧ holder = holder' then w else s.tokenWindow asset' holder' := by
  simp only [tokenWindow, store, OrdMap.get?_set, EmbeddingLike.apply_eq_iff_eq, Prod.mk.injEq]
  split_ifs with h
  · by_cases hw : w = default <;> simp [hw, Option.filter]
  · rfl

theorem vault_store_vault (owner owner' : AccountId) (v : Vault) :
    (s.store (.vault owner (if v.isEmpty then none else some v))).vault owner' =
      if owner = owner' then v else s.vault owner' := by
  simp only [vault, store, OrdMap.get?_set]
  split_ifs with h hv
  · obtain ⟨c, d⟩ := v
    simp only [Vault.isEmpty, Bool.and_eq_true, decide_eq_true_eq] at hv
    rw [hv.1, hv.2]
    rfl
  · rfl
  · rfl

end Stores

namespace Ledger
variable (C : Crypto) (L : Ledger)

@[simp] theorem toStores_overwrite (op : UndoOp) : (L.overwrite C op).toStores = L.toStores.store op := rfl

theorem account_setAccount (id id' : AccountId) (a : Account) :
    (L.setAccount C id a).account id' = if id = id' then a else L.account id' :=
  L.account_store_account id id' a

@[simp] theorem account_setAccount_self (id : AccountId) (a : Account) :
    (L.setAccount C id a).account id = a := by simp [account_setAccount]

theorem account_setAccount_of_ne {id id' : AccountId} (h : id ≠ id') (a : Account) :
    (L.setAccount C id a).account id' = L.account id' := by simp [account_setAccount, h]

theorem tokenBalance_setTokenBalance (asset asset' : Hash) (holder holder' : AccountId) (b : Balance) :
    (L.setTokenBalance C asset holder b).tokenBalance asset' holder' =
      if asset = asset' ∧ holder = holder' then b else L.tokenBalance asset' holder' :=
  L.tokenBalance_store_tokenBalance asset asset' holder holder' b

theorem tokenBalance_setTokenBalance_of_asset_ne {asset asset' : Hash} (h : asset ≠ asset')
    (holder holder' : AccountId) (b : Balance) :
    (L.setTokenBalance C asset holder b).tokenBalance asset' holder' = L.tokenBalance asset' holder' := by
  simp [tokenBalance_setTokenBalance, h]

end Ledger

/-! ## Fields -/

/-- The fields of the stores. -/
inductive Field where
  | account
  | contract
  | token
  | tokenBalance
  | tokenPolicy
  | tokenWindow
  | htlc
  | nftClass
  | nft
  | multisig
  | proposal
  | intent
  | shielded
  | minedEmitted
  | shieldedValue
  | htlcLocked
  | deshieldWindow
  | shieldedV2
  | shieldedV2Value
  | deshieldV2Window
  | vault
  | vaultCollateral
  | oraclePrice
deriving DecidableEq

/-- The field a cell belongs to. -/
@[simp]
def UndoOp.field : UndoOp → Field
  | .account .. => .account
  | .contract .. => .contract
  | .token .. => .token
  | .tokenBalance .. => .tokenBalance
  | .tokenPolicy .. => .tokenPolicy
  | .tokenWindow .. => .tokenWindow
  | .htlc .. => .htlc
  | .nftClass .. => .nftClass
  | .nft .. => .nft
  | .multisig .. => .multisig
  | .proposal .. => .proposal
  | .intent .. => .intent
  | .shielded .. => .shielded
  | .minedEmitted .. => .minedEmitted
  | .shieldedValue .. => .shieldedValue
  | .htlcLocked .. => .htlcLocked
  | .deshieldWindow .. => .deshieldWindow
  | .shieldedV2 .. => .shieldedV2
  | .shieldedV2Value .. => .shieldedV2Value
  | .deshieldV2Window .. => .deshieldV2Window
  | .vault .. => .vault
  | .vaultCollateral .. => .vaultCollateral
  | .oraclePrice .. => .oraclePrice

/-- Two stores have the same content in a field. -/
def Field.Same (s s' : Stores) : Field → Prop
  | .account => s'.accounts = s.accounts
  | .contract => s'.contractStorage = s.contractStorage
  | .token => s'.tokens = s.tokens
  | .tokenBalance => s'.tokenBalances = s.tokenBalances
  | .tokenPolicy => s'.tokenPolicies = s.tokenPolicies
  | .tokenWindow => s'.tokenWindows = s.tokenWindows
  | .htlc => s'.htlcs = s.htlcs
  | .nftClass => s'.nftClasses = s.nftClasses
  | .nft => s'.nfts = s.nfts
  | .multisig => s'.multisig = s.multisig
  | .proposal => s'.proposals = s.proposals
  | .intent => s'.consumedIntents = s.consumedIntents
  | .shielded => s'.shielded = s.shielded
  | .minedEmitted => s'.minedEmitted = s.minedEmitted
  | .shieldedValue => s'.shieldedValue = s.shieldedValue
  | .htlcLocked => s'.htlcLocked = s.htlcLocked
  | .deshieldWindow => s'.deshieldWindow = s.deshieldWindow
  | .shieldedV2 => s'.shieldedV2 = s.shieldedV2
  | .shieldedV2Value => s'.shieldedV2Value = s.shieldedV2Value
  | .deshieldV2Window => s'.deshieldV2Window = s.deshieldV2Window
  | .vault => s'.vaults = s.vaults
  | .vaultCollateral => s'.vaultCollateral = s.vaultCollateral
  | .oraclePrice => s'.oraclePrice = s.oraclePrice

namespace Field
variable {s s' s'' : Stores} {f : Field}

theorem Same.refl : f.Same s s := by
  cases f <;> rfl

theorem Same.trans (h : f.Same s s') (h' : f.Same s' s'') : f.Same s s'' := by
  cases f <;> exact Eq.trans h' h

/-- A write changes its own field only. -/
theorem same_store {op : UndoOp} (h : op.field ≠ f) : f.Same s (s.store op) := by
  cases op <;> cases f <;> first | rfl | exact absurd rfl h

end Field

namespace Stores

/-- One write to a field in `K`. -/
def Alter (K : List Field) (s s' : Stores) : Prop := ∃ op : UndoOp, op.field ∈ K ∧ s' = s.store op

/-- Writes to the fields in `K`. -/
abbrev Alters (K : List Field) : Stores → Stores → Prop := Relation.ReflTransGen (Alter K)

namespace Alters
variable {K K' : List Field} {s s' : Stores} {f : Field}

theorem store (op : UndoOp) (h : op.field ∈ K) : Alters K s (s.store op) :=
  .single ⟨op, h, rfl⟩

theorem write {C : Crypto} {L : Ledger} {op : UndoOp} (h : op.field ∈ K) : Alters K L (L.overwrite C op) :=
  store op h

theorem snoc (h : Alters K s s') (op : UndoOp) (hop : op.field ∈ K) : Alters K s (s'.store op) :=
  .tail h ⟨op, hop, rfl⟩

theorem mono (h : Alters K s s') (hK : K ⊆ K') : Alters K' s s' :=
  Relation.ReflTransGen.mono (fun _ _ ⟨op, hop, he⟩ => ⟨op, hK hop, he⟩) _ _ h

theorem same (h : Alters K s s') (hf : f ∉ K) : f.Same s s' := by
  induction h with
  | refl => exact .refl
  | tail _ hstep ih =>
    obtain ⟨op, hop, rfl⟩ := hstep
    exact ih.trans (Field.same_store fun he => hf (he ▸ hop))

theorem foldl {C : Crypto} {L : Ledger} {α : Type} {g : α → UndoOp} {l : List α} (h : ∀ a ∈ l, (g a).field ∈ K) :
    Alters K L.toStores (l.foldl (fun L a => L.overwrite C (g a)) L).toStores := by
  induction l generalizing L with
  | nil => exact .refl
  | cons a l ih =>
    have hrest := ih (L := L.overwrite C (g a)) fun b hb => h b (List.mem_cons_of_mem _ hb)
    exact .head ⟨g a, h a List.mem_cons_self, rfl⟩ hrest

end Alters
end Stores
end Sov
