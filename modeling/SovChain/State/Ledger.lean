import SovChain.State.Records

/-!
# `sov-state`: the ledger

The ledger is a record of stores, the journal of the block being executed, and the leaves of the
Merkle tree that commits to the stores.

Every setter of the source does three things: it journals the content its cell had, writes the cell,
and writes the leaf of the slot the cell belongs to; `undo_one` does the last two for a journalled
content. Here a cell with a content for it is an `UndoOp`, `Ledger.put` does the writing for both, and
each setter is `Ledger.overwrite` at its own cell.

Of the sparse Merkle tree only the leaves are kept. Its node table caches inner hashes by content and
the root is a function of the leaves (`stateRoot`).
-/

namespace Sov
open Codec

/-- The cells of the reserved slots: counters and digests of sub-states. -/
inductive Reserved where
  | mined
  | shielded
  | shieldedValue
  | htlcs
  | htlcLocked
  | deshieldWindow
  | shieldedV2
  | shieldedV2Value
  | deshieldV2Window
  | nftClasses
  | nfts
  | multisig
  | proposals
  | vaults
  | vaultCollateral
  | oraclePrice
deriving DecidableEq

def Reserved.name : Reserved → String
  | mined => "sov:mined_emitted"
  | shielded => "sov:shielded"
  | shieldedValue => "sov:shielded_value"
  | htlcs => "sov:htlcs"
  | htlcLocked => "sov:htlc_locked"
  | deshieldWindow => "sov:deshield_window"
  | shieldedV2 => "sov:shielded_v2"
  | shieldedV2Value => "sov:shielded_v2_value"
  | deshieldV2Window => "sov:deshield_v2_window"
  | nftClasses => "sov:nft_classes"
  | nfts => "sov:nfts"
  | multisig => "sov:multisig"
  | proposals => "sov:multisig_proposals"
  | vaults => "sov:vaults"
  | vaultCollateral => "sov:vault_collateral"
  | oraclePrice => "sov:xus_oracle_price"

/-- What is committed to the state root, one leaf each. -/
inductive Slot where
  | account (id : AccountId)
  | contract (id : AccountId) (key : Bytes)
  | reserved (r : Reserved)
  | token (asset : Hash)
  | tokenBalance (asset : Hash) (holder : AccountId)
  | tokenPolicy (asset : Hash)
  | tokenWindow (asset : Hash) (holder : AccountId)
  | intent (id : Hash)
deriving DecidableEq

namespace Slot

/-- The bytes whose digest is the key of the leaf. -/
def preimage : Slot → Bytes
  | account id => id.bytes
  | contract id key => id.bytes ++ 1 :: key
  | reserved r => 2 :: strBytes r.name
  | token asset => 3 :: asset.bytes
  | tokenBalance asset holder => 4 :: (asset.bytes ++ holder.bytes)
  | tokenPolicy asset => 5 :: asset.bytes
  | tokenWindow asset holder => 6 :: (asset.bytes ++ holder.bytes)
  | intent id => 7 :: id.bytes

def hash (C : Crypto) (s : Slot) : Hash := C.digest s.preimage

end Slot

/-- The stores of the ledger. -/
structure Stores where
  accounts : OrdMap AccountId Account
  contractStorage : OrdMap (AccountId ×ₗ Bytes) Bytes
  minedEmitted : Balance
  shieldedValue : Balance
  shielded : ShieldedState
  shieldedV2Value : Balance
  shieldedV2 : ShieldedV2State
  deshieldV2Window : U64 × Balance
  htlcs : OrdMap Hash Htlc
  htlcLocked : Balance
  tokens : OrdMap Hash TokenInfo
  tokenBalances : OrdMap (Hash ×ₗ AccountId) Balance
  tokenPolicies : OrdMap Hash CompliancePolicy
  tokenWindows : OrdMap (Hash ×ₗ AccountId) SpendWindow
  consumedIntents : OrdMap Hash Unit
  deshieldWindow : U64 × Balance
  nftClasses : OrdMap Hash NftClass
  nfts : OrdMap (Hash ×ₗ Bytes) NftToken
  multisig : OrdMap AccountId Multisig
  proposals : OrdMap Hash MultisigProposal
  vaults : OrdMap AccountId Vault
  vaultCollateral : Balance
  oraclePrice : Option U128

/-- One cell of the stores with a content for it. In the journal the content is the one a write
replaced; the source's `Intent` has none, an intent being journalled only when it was absent. -/
inductive UndoOp where
  | account (id : AccountId) (prev : Option Account)
  | contract (contract : AccountId) (key : Bytes) (prev : Option Bytes)
  | token (asset : Hash) (prev : Option TokenInfo)
  | tokenBalance (asset : Hash) (holder : AccountId) (prev : Option Balance)
  | tokenPolicy (asset : Hash) (prev : Option CompliancePolicy)
  | tokenWindow (asset : Hash) (holder : AccountId) (prev : Option SpendWindow)
  | htlc (id : Hash) (prev : Option Htlc)
  | nftClass (id : Hash) (prev : Option NftClass)
  | nft (collection : Hash) (tokenId : Bytes) (prev : Option NftToken)
  | multisig (account : AccountId) (prev : Option Multisig)
  | proposal (id : Hash) (prev : Option MultisigProposal)
  | intent (id : Hash) (prev : Option Unit)
  | shielded (prev : ShieldedState)
  | minedEmitted (prev : Balance)
  | shieldedValue (prev : Balance)
  | htlcLocked (prev : Balance)
  | deshieldWindow (prev : U64 × Balance)
  | shieldedV2 (prev : ShieldedV2State)
  | shieldedV2Value (prev : Balance)
  | deshieldV2Window (prev : U64 × Balance)
  | vault (owner : AccountId) (prev : Option Vault)
  | vaultCollateral (prev : Balance)
  | oraclePrice (prev : Option U128)

/-- The slot that commits to the cell. -/
def UndoOp.slot : UndoOp → Slot
  | .account id _ => .account id
  | .contract id key _ => .contract id key
  | .token asset _ => .token asset
  | .tokenBalance asset holder _ => .tokenBalance asset holder
  | .tokenPolicy asset _ => .tokenPolicy asset
  | .tokenWindow asset holder _ => .tokenWindow asset holder
  | .htlc _ _ => .reserved .htlcs
  | .nftClass _ _ => .reserved .nftClasses
  | .nft _ _ _ => .reserved .nfts
  | .multisig _ _ => .reserved .multisig
  | .proposal _ _ => .reserved .proposals
  | .intent id _ => .intent id
  | .shielded _ => .reserved .shielded
  | .minedEmitted _ => .reserved .mined
  | .shieldedValue _ => .reserved .shieldedValue
  | .htlcLocked _ => .reserved .htlcLocked
  | .deshieldWindow _ => .reserved .deshieldWindow
  | .shieldedV2 _ => .reserved .shieldedV2
  | .shieldedV2Value _ => .reserved .shieldedV2Value
  | .deshieldV2Window _ => .reserved .deshieldV2Window
  | .vault _ _ => .reserved .vaults
  | .vaultCollateral _ => .reserved .vaultCollateral
  | .oraclePrice _ => .reserved .oraclePrice

/-- The asset id of `symbol` issued by `issuer`. -/
def tokenAssetId (C : Crypto) (issuer : AccountId) (symbol : String) : Hash :=
  C.digest (strBytes "sov:asset:v1" ++ issuer.bytes ++ [0] ++ strBytes symbol)

/-- The collection id of `symbol` issued by `issuer`. -/
def nftClassId (C : Crypto) (issuer : AccountId) (symbol : String) : Hash :=
  C.digest (strBytes "sov:nft:v1" ++ issuer.bytes ++ [0] ++ strBytes symbol)

/-- The collection of registered names. -/
def snsClass (C : Crypto) : Hash := C.digest (strBytes "sov:sns:v1")

def xusdAssetId (C : Crypto) : Hash := tokenAssetId C ⟨Vault.xusdIssuer⟩ Vault.xusdSymbol

namespace Stores

/-- A ledger with nothing in it. -/
def new (C : Crypto) : Stores where
  accounts := .empty
  contractStorage := .empty
  minedEmitted := 0
  shieldedValue := 0
  shielded := .new C
  shieldedV2Value := 0
  shieldedV2 := .new C
  deshieldV2Window := (0, 0)
  htlcs := .empty
  htlcLocked := 0
  tokens := .empty
  tokenBalances := .empty
  tokenPolicies := .empty
  tokenWindows := .empty
  consumedIntents := .empty
  deshieldWindow := (0, 0)
  nftClasses := .empty
  nfts := .empty
  multisig := .empty
  proposals := .empty
  vaults := .empty
  vaultCollateral := 0
  oraclePrice := none

/-! ## Reading -/

def account (s : Stores) (id : AccountId) : Account := (s.accounts.get? id).getD default

def exists_ (s : Stores) (id : AccountId) : Bool := s.accounts.contains id

/-- The storage of one contract, in key order. -/
def contractEntries (s : Stores) (contract : AccountId) : List (Bytes × Bytes) :=
  s.contractStorage.entries.filterMap fun e =>
    if (ofLex e.1).1 = contract then some ((ofLex e.1).2, e.2) else none

def tokenBalance (s : Stores) (asset : Hash) (holder : AccountId) : Balance :=
  (s.tokenBalances.get? (toLex (asset, holder))).getD 0

def tokenWindow (s : Stores) (asset : Hash) (holder : AccountId) : SpendWindow :=
  (s.tokenWindows.get? (toLex (asset, holder))).getD default

def intentConsumed (s : Stores) (id : Hash) : Bool := s.consumedIntents.contains id

def vault (s : Stores) (owner : AccountId) : Vault := (s.vaults.get? owner).getD default

def oraclePriceOrSeed (s : Stores) : U128 := s.oraclePrice.getD Vault.seedXusUsdPrice

def nft (s : Stores) (collection : Hash) (tokenId : Bytes) : Option NftToken :=
  s.nfts.get? (toLex (collection, tokenId))

def nftOwner (s : Stores) (collection : Hash) (tokenId : Bytes) : Option AccountId :=
  (s.nft collection tokenId).map NftToken.owner

/-- The NFT behind a registered name. -/
def nameToken (C : Crypto) (s : Stores) (name : String) : Option NftToken :=
  s.nft (snsClass C) (strBytes name)

def nameTaken (C : Crypto) (s : Stores) (name : String) : Bool := (s.nameToken C name).isSome

/-- The account a registered name stands for: the one its metadata names, else its owner. -/
def resolveName (C : Crypto) (s : Stores) (name : String) : Option AccountId :=
  (s.nameToken C name).map fun token =>
    if token.metadata.isEmpty then token.owner
    else match ofStrBytes token.metadata with
      | none => token.owner
      | some target =>
        match AccountId.new target with
        | .ok id => id
        | .error _ => token.owner

/-- The sum of every holding and every off-account counter, with checked additions. -/
def totalSupply (s : Stores) : Option Balance := do
  let totals ← s.accounts.entries.mapM fun e => e.2.total
  BitVec.checkedSum 0
    (totals ++ [s.shieldedValue, s.shieldedV2Value, s.htlcLocked, s.vaultCollateral])

/-! ## Leaves -/

/-- A counter is committed while it is not zero. -/
def counterLeaf (value : Balance) : Option Bytes :=
  if value = 0 then none else some ((uint 16).encode value)

def windowLeaf (window : U64 × Balance) : Option Bytes :=
  if window = (0, 0) then none else some (((uint 8).pair (uint 16)).encode window)

/-- A sub-state is committed by the digest of its entries while it has some. -/
def digestLeaf {κ ν : Type} [LinearOrder κ] (C : Crypto) (c : Codec (κ × ν)) (m : OrdMap κ ν) :
    Option Bytes :=
  if m.entries = [] then none else some (C.digest (c.vec.encode m.entries)).bytes

def nftKeyCodec : Codec (Hash ×ₗ Bytes) :=
  ((array 32).pair byteVec).iso ofLex toLex (fun _ => rfl) fun _ => rfl

/-- What is committed in a reserved slot. -/
def reservedLeaf (C : Crypto) (s : Stores) : Reserved → Option Bytes
  | .mined => counterLeaf s.minedEmitted
  | .shielded => if s.shielded.isEmpty then none else some (s.shielded.commitment C).bytes
  | .shieldedValue => counterLeaf s.shieldedValue
  | .htlcs => digestLeaf C ((array 32).pair Htlc.codec) s.htlcs
  | .htlcLocked => counterLeaf s.htlcLocked
  | .deshieldWindow => windowLeaf s.deshieldWindow
  | .shieldedV2 => if s.shieldedV2.isEmpty then none else some (s.shieldedV2.commitment C).bytes
  | .shieldedV2Value => counterLeaf s.shieldedV2Value
  | .deshieldV2Window => windowLeaf s.deshieldV2Window
  | .nftClasses => digestLeaf C ((array 32).pair NftClass.codec) s.nftClasses
  | .nfts => digestLeaf C (nftKeyCodec.pair NftToken.codec) s.nfts
  | .multisig => digestLeaf C (AccountId.codec.pair Multisig.codec) s.multisig
  | .proposals => digestLeaf C ((array 32).pair MultisigProposal.codec) s.proposals
  | .vaults => digestLeaf C (AccountId.codec.pair Vault.codec) s.vaults
  | .vaultCollateral => counterLeaf s.vaultCollateral
  | .oraclePrice => s.oraclePrice.map (uint 16).encode

/-- What is committed in a slot, `none` when the ledger holds nothing there. -/
def leaf (C : Crypto) (s : Stores) : Slot → Option Bytes
  | .account id => (s.accounts.get? id).map Account.codec.encode
  | .contract id key => s.contractStorage.get? (toLex (id, key))
  | .reserved r => s.reservedLeaf C r
  | .token asset => (s.tokens.get? asset).map TokenInfo.codec.encode
  | .tokenBalance asset holder => (s.tokenBalances.get? (toLex (asset, holder))).map (uint 16).encode
  | .tokenPolicy asset => (s.tokenPolicies.get? asset).map CompliancePolicy.codec.encode
  | .tokenWindow asset holder =>
    (s.tokenWindows.get? (toLex (asset, holder))).map SpendWindow.codec.encode
  | .intent id => (s.consumedIntents.get? id).map fun _ => [1]

/-! ## Writing one cell -/

/-- Write a cell. An empty account, an empty contract value, a zero token balance and a fresh spend
window are not stored. -/
@[simp] def store (s : Stores) : UndoOp → Stores
  | .account id v => { s with accounts := s.accounts.set id (v.filter fun a => !a.isEmpty) }
  | .contract contract key v =>
    { s with
      contractStorage := s.contractStorage.set (toLex (contract, key)) (v.filter fun b => !b.isEmpty) }
  | .token asset v => { s with tokens := s.tokens.set asset v }
  | .tokenBalance asset holder v =>
    { s with tokenBalances := s.tokenBalances.set (toLex (asset, holder)) (v.filter (· ≠ 0)) }
  | .tokenPolicy asset v => { s with tokenPolicies := s.tokenPolicies.set asset v }
  | .tokenWindow asset holder v =>
    { s with tokenWindows := s.tokenWindows.set (toLex (asset, holder)) (v.filter (· ≠ default)) }
  | .htlc id v => { s with htlcs := s.htlcs.set id v }
  | .nftClass id v => { s with nftClasses := s.nftClasses.set id v }
  | .nft collection tokenId v => { s with nfts := s.nfts.set (toLex (collection, tokenId)) v }
  | .multisig account v => { s with multisig := s.multisig.set account v }
  | .proposal id v => { s with proposals := s.proposals.set id v }
  | .intent id v => { s with consumedIntents := s.consumedIntents.set id v }
  | .shielded v => { s with shielded := v }
  | .minedEmitted v => { s with minedEmitted := v }
  | .shieldedValue v => { s with shieldedValue := v }
  | .htlcLocked v => { s with htlcLocked := v }
  | .deshieldWindow v => { s with deshieldWindow := v }
  | .shieldedV2 v => { s with shieldedV2 := v }
  | .shieldedV2Value v => { s with shieldedV2Value := v }
  | .deshieldV2Window v => { s with deshieldV2Window := v }
  | .vault owner v => { s with vaults := s.vaults.set owner v }
  | .vaultCollateral v => { s with vaultCollateral := v }
  | .oraclePrice v => { s with oraclePrice := v }

/-- The cell of `op` with the content it has now. -/
def content (s : Stores) : UndoOp → UndoOp
  | .account id _ => .account id (s.accounts.get? id)
  | .contract contract key _ => .contract contract key (s.contractStorage.get? (toLex (contract, key)))
  | .token asset _ => .token asset (s.tokens.get? asset)
  | .tokenBalance asset holder _ =>
    .tokenBalance asset holder (s.tokenBalances.get? (toLex (asset, holder)))
  | .tokenPolicy asset _ => .tokenPolicy asset (s.tokenPolicies.get? asset)
  | .tokenWindow asset holder _ =>
    .tokenWindow asset holder (s.tokenWindows.get? (toLex (asset, holder)))
  | .htlc id _ => .htlc id (s.htlcs.get? id)
  | .nftClass id _ => .nftClass id (s.nftClasses.get? id)
  | .nft collection tokenId _ => .nft collection tokenId (s.nfts.get? (toLex (collection, tokenId)))
  | .multisig account _ => .multisig account (s.multisig.get? account)
  | .proposal id _ => .proposal id (s.proposals.get? id)
  | .intent id _ => .intent id (s.consumedIntents.get? id)
  | .shielded _ => .shielded s.shielded
  | .minedEmitted _ => .minedEmitted s.minedEmitted
  | .shieldedValue _ => .shieldedValue s.shieldedValue
  | .htlcLocked _ => .htlcLocked s.htlcLocked
  | .deshieldWindow _ => .deshieldWindow s.deshieldWindow
  | .shieldedV2 _ => .shieldedV2 s.shieldedV2
  | .shieldedV2Value _ => .shieldedV2Value s.shieldedV2Value
  | .deshieldV2Window _ => .deshieldV2Window s.deshieldV2Window
  | .vault owner _ => .vault owner (s.vaults.get? owner)
  | .vaultCollateral _ => .vaultCollateral s.vaultCollateral
  | .oraclePrice _ => .oraclePrice s.oraclePrice

end Stores

/-- The stores, the journal while one is kept, and the leaves of the commitment. -/
structure Ledger extends Stores where
  undo : Option (List UndoOp)
  commitment : OrdMap Hash Bytes

instance : Coe Ledger Stores := ⟨Ledger.toStores⟩

namespace Ledger

def new (C : Crypto) : Ledger where
  toStores := .new C
  undo := none
  commitment := .empty

/-! ## The state root -/

def treeHeight : ℕ := 256

def hashLeaf (C : Crypto) (value : Bytes) : Hash := C.digest (0 :: value)

def hashNode (C : Crypto) (left right : Hash) : Hash := C.digest (1 :: (left.bytes ++ right.bytes))

/-- The `i`-th bit of a key, from the most significant one. -/
def keyBit (key : Hash) (i : ℕ) : Bool := ((key.bytes.getD (i / 8) 0).toNat).testBit (7 - i % 8)

/-- The root of an empty subtree. -/
def defaultRoot (C : Crypto) : ℕ → Hash
  | 0 => Hash.zero
  | h + 1 =>
    let below := defaultRoot C h
    hashNode C below below

/-- The root of the subtree of height `h` that holds `leaves`. -/
def subtreeRoot (C : Crypto) : ℕ → List (Hash × Bytes) → Hash
  | h, [] => defaultRoot C h
  | 0, e :: _ => hashLeaf C e.2
  | h + 1, leaves =>
    hashNode C (subtreeRoot C h (leaves.filter fun e => !keyBit e.1 (treeHeight - (h + 1))))
      (subtreeRoot C h (leaves.filter fun e => keyBit e.1 (treeHeight - (h + 1))))

def stateRoot (C : Crypto) (L : Ledger) : Hash := subtreeRoot C treeHeight L.commitment.entries

/-! ## Writing and undoing -/

def beginUndo (L : Ledger) : Ledger := { L with undo := some [] }

/-- Stop journalling; the journal is the second component. -/
def takeUndo (L : Ledger) : Ledger × List UndoOp := ({ L with undo := none }, L.undo.getD [])

def record (L : Ledger) (op : UndoOp) : Ledger := { L with undo := L.undo.map (· ++ [op]) }

/-- Write a cell and the leaf of its slot. -/
def put (C : Crypto) (L : Ledger) (op : UndoOp) : Ledger :=
  { L with
    toStores := L.toStores.store op
    commitment := L.commitment.set (op.slot.hash C) ((L.toStores.store op).leaf C op.slot) }

/-- Journal the content of a cell, then write it. -/
def overwrite (C : Crypto) (L : Ledger) (op : UndoOp) : Ledger :=
  (L.record (L.content op)).put C op

/-- Write back the journalled contents, the latest first. -/
def applyUndo (C : Crypto) (L : Ledger) (log : List UndoOp) : Ledger :=
  { log.reverse.foldl (put C) { L with undo := none } with undo := L.undo }

/-! ## The setters -/

section Setters
variable (C : Crypto) (L : Ledger)

def setAccount (id : AccountId) (account : Account) : Ledger :=
  L.overwrite C (.account id (some account))

def setContractValue (contract : AccountId) (key value : Bytes) : Ledger :=
  L.overwrite C (.contract contract key (some value))

/-- Apply a bundle to the Orchard pool; the second component is the error. A failed bundle is neither
journalled nor committed, and the pool is left as `ShieldedState.applyBundle` left it. -/
def applyShieldedBundle (bundle : ShieldedBundle) : Ledger × Option ShieldedError :=
  match L.shielded.applyBundle C bundle with
  | (pool, none) => (L.overwrite C (.shielded pool), none)
  | (pool, some e) => ({ L with shielded := pool }, some e)

def addShieldedValue (amount : Balance) : Option Ledger :=
  (L.shieldedValue.checkedAdd amount).map fun next => L.overwrite C (.shieldedValue next)

def subShieldedValue (amount : Balance) : Option Ledger :=
  (L.shieldedValue.checkedSub amount).map fun next => L.overwrite C (.shieldedValue next)

def applyShieldedV2 (nullifiers commitments : List Hash) : Except ShieldedV2StateError Ledger :=
  (L.shieldedV2.apply C nullifiers commitments).map fun pool => L.overwrite C (.shieldedV2 pool)

def addShieldedV2Value (amount : Balance) : Option Ledger :=
  (L.shieldedV2Value.checkedAdd amount).map fun next => L.overwrite C (.shieldedV2Value next)

def subShieldedV2Value (amount : Balance) : Option Ledger :=
  (L.shieldedV2Value.checkedSub amount).map fun next => L.overwrite C (.shieldedV2Value next)

def setDeshieldWindow (windowStart : U64) (spent : Balance) : Ledger :=
  L.overwrite C (.deshieldWindow (windowStart, spent))

def setDeshieldV2Window (windowStart : U64) (spent : Balance) : Ledger :=
  L.overwrite C (.deshieldV2Window (windowStart, spent))

/-- Open an escrow; `none` if the id is taken or the counter would overflow. -/
def lockHtlc (id : Hash) (htlc : Htlc) : Option Ledger :=
  if L.htlcs.contains id then none
  else (L.htlcLocked.checkedAdd htlc.amount).map fun next =>
    (L.overwrite C (.htlcLocked next)).overwrite C (.htlc id (some htlc))

/-- Close an escrow and return it. The counter is lowered by its amount, to zero at the lowest. -/
def settleHtlc (id : Hash) : Option (Ledger × Htlc) :=
  (L.htlcs.get? id).map fun htlc =>
    ((L.overwrite C (.htlcLocked (L.htlcLocked.saturatingSub htlc.amount))).overwrite C (.htlc id none),
      htlc)

def setOraclePrice (price : U128) : Ledger := L.overwrite C (.oraclePrice (some price))

/-- Write a vault and adjust the collateral counter; `none` is the panic of its `expect`. -/
def setVault (owner : AccountId) (vault : Vault) : Option Ledger := do
  let base ← L.vaultCollateral.checkedSub (L.vault owner).collateral
  let next ← base.checkedAdd vault.collateral
  return (L.overwrite C (.vaultCollateral next)).overwrite C
    (.vault owner (if vault.isEmpty then none else some vault))

/-- Mint an item that does not exist yet. -/
def mintNft (collection : Hash) (tokenId : Bytes) (owner : AccountId) (metadata : Bytes)
    (height : U64) : Option Ledger :=
  if (L.nft collection tokenId).isSome then none
  else some (L.overwrite C (.nft collection tokenId (some ⟨owner, metadata, height⟩)))

def transferNft (collection : Hash) (tokenId : Bytes) (newOwner : AccountId) : Option Ledger :=
  (L.nft collection tokenId).map fun token =>
    L.overwrite C (.nft collection tokenId (some { token with owner := newOwner }))

def setNftMeta (collection : Hash) (tokenId metadata : Bytes) : Option Ledger :=
  (L.nft collection tokenId).map fun token =>
    L.overwrite C (.nft collection tokenId (some { token with metadata }))

def registerName (name : String) (owner : AccountId) (height : U64) : Option Ledger :=
  L.mintNft C (snsClass C) (strBytes name) owner [] height

def transferName (name : String) (newOwner : AccountId) : Option Ledger :=
  L.transferNft C (snsClass C) (strBytes name) newOwner

def setNftClass (id : Hash) (nftClass : NftClass) : Ledger :=
  L.overwrite C (.nftClass id (some nftClass))

def setMultisig (account : AccountId) (policy : Multisig) : Ledger :=
  L.overwrite C (.multisig account (some policy))

def setProposal (id : Hash) (proposal : MultisigProposal) : Ledger :=
  L.overwrite C (.proposal id (some proposal))

def removeProposal (id : Hash) : Ledger := L.overwrite C (.proposal id none)

/-- The ids of the proposals pending for an account. -/
def proposalIdsFor (s : Stores) (account : AccountId) : List Hash :=
  (s.proposals.entries.filter fun e => e.2.account = account).map Prod.fst

/-- Drop every proposal pending for an account. -/
def removeProposalsFor (account : AccountId) : Ledger :=
  (proposalIdsFor L.toStores account).foldl (removeProposal C) L

def setToken (asset : Hash) (info : TokenInfo) : Ledger := L.overwrite C (.token asset (some info))

def setTokenBalance (asset : Hash) (holder : AccountId) (balance : Balance) : Ledger :=
  L.overwrite C (.tokenBalance asset holder (some balance))

def setTokenWindow (asset : Hash) (holder : AccountId) (window : SpendWindow) : Ledger :=
  L.overwrite C (.tokenWindow asset holder (some window))

/-- The holders with a spend window of an asset. -/
def windowHolders (s : Stores) (asset : Hash) : List AccountId :=
  (s.tokenWindows.keys.filter fun k => (ofLex k).1 = asset).map fun k => (ofLex k).2

/-- Install a policy; the spend windows of the asset start afresh. -/
def setTokenPolicy (asset : Hash) (policy : CompliancePolicy) : Ledger :=
  (windowHolders L.toStores asset).foldl (fun L holder => L.overwrite C (.tokenWindow asset holder none))
    (L.overwrite C (.tokenPolicy asset (some policy)))

/-- Mark an intent used. One that is used already is written again without a journal entry. -/
def consumeIntent (id : Hash) : Ledger :=
  if L.intentConsumed id then L.put C (.intent id (some ())) else L.overwrite C (.intent id (some ()))

def addMinedEmitted (amount : Balance) : Option Ledger :=
  (L.minedEmitted.checkedAdd amount).map fun next => L.overwrite C (.minedEmitted next)

end Setters
end Ledger
end Sov
