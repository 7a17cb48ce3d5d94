import SovChain.State.Journal

/-!
# `sov-state`: ledger snapshots

A snapshot lists the contents of the stores; the commitment is rebuilt when it is loaded. The blob of today
is the tuple older versions wrote followed by the post-quantum pool, and either is accepted.
-/

namespace Sov
open Codec
namespace ShieldedState

/-- Replay the notes of a snapshot. `isCmx` is Orchard's test of an encoded note commitment. -/
def replay (C : Crypto) (isCmx : Hash → Bool) (s : ShieldedState) :
    List Hash → Except ShieldedError ShieldedState
  | [] => .ok s
  | cmx :: rest =>
    if !isCmx cmx then .error (.decode "commitment")
    else if 2 ^ 32 ≤ s.commitments.length then .error .treeFull
    else (s.addCommitment C cmx).replay C isCmx rest

def restore (C : Crypto) (isCmx : Hash → Bool) (commitments nullifiers : List Hash) :
    Except ShieldedError ShieldedState :=
  ((new C).replay C isCmx commitments).map fun s =>
    { s with nullifiers := nullifiers.foldl (fun m nf => m.insert nf ()) s.nullifiers }

end ShieldedState

namespace ShieldedV2State

def replay (C : Crypto) (s : ShieldedV2State) : List Hash → Except ShieldedV2StateError ShieldedV2State
  | [] => .ok s
  | cm :: rest =>
    if !isCanonical cm then .error (.decode "commitment")
    else if cm = Hash.zero then .error .zeroDigest
    else if maxV2Notes ≤ s.commitments.length then .error .treeFull
    else (s.appendCommitment C cm).replay C rest

def restoreNullifiers (s : ShieldedV2State) : List Hash → Except ShieldedV2StateError ShieldedV2State
  | [] => .ok s
  | nf :: rest =>
    if !isCanonical nf then .error (.decode "nullifier")
    else if nf = Hash.zero then .error .zeroDigest
    else { s with nullifiers := s.nullifiers.insert nf () }.restoreNullifiers rest

def restore (C : Crypto) (commitments nullifiers : List Hash) :
    Except ShieldedV2StateError ShieldedV2State :=
  match (new C).replay C commitments with
  | .error e => .error e
  | .ok s => s.restoreNullifiers nullifiers

end ShieldedV2State

/-- What a snapshot held before there was a post-quantum pool. -/
structure LegacySnapshot where
  accounts : List (AccountId × Account)
  storage : List ((AccountId × Bytes) × Bytes)
  minedEmitted : Balance
  shieldedValue : Balance
  shieldedCommitments : List Hash
  shieldedNullifiers : List Hash
  htlcLocked : Balance
  htlcs : List (Hash × Htlc)
  tokens : List (Hash × TokenInfo)
  tokenBalances : List ((Hash × AccountId) × Balance)
  tokenPolicies : List (Hash × CompliancePolicy)
  tokenWindows : List ((Hash × AccountId) × SpendWindow)
  consumedIntents : List Hash
  deshieldWindow : U64 × Balance
  nftClasses : List (Hash × NftClass)
  nfts : List ((Hash × Bytes) × NftToken)
  multisig : List (AccountId × Multisig)
  proposals : List (Hash × MultisigProposal)
  vaults : List (AccountId × Vault)
  vaultCollateral : Balance
  oraclePrice : Option U128

def LegacySnapshot.codec : Codec LegacySnapshot :=
  ((AccountId.codec.pair Account.codec).vec.pair
    (((AccountId.codec.pair byteVec).pair byteVec).vec.pair ((uint 16).pair ((uint 16).pair
    ((array 32).vec.pair ((array 32).vec.pair ((uint 16).pair (((array 32).pair Htlc.codec).vec.pair
    (((array 32).pair TokenInfo.codec).vec.pair
    ((((array 32).pair AccountId.codec).pair (uint 16)).vec.pair
    (((array 32).pair CompliancePolicy.codec).vec.pair
    ((((array 32).pair AccountId.codec).pair SpendWindow.codec).vec.pair
    ((array 32).vec.pair (((uint 8).pair (uint 16)).pair (((array 32).pair NftClass.codec).vec.pair
    ((((array 32).pair byteVec).pair NftToken.codec).vec.pair
    ((AccountId.codec.pair Multisig.codec).vec.pair (((array 32).pair MultisigProposal.codec).vec.pair
    ((AccountId.codec.pair Vault.codec).vec.pair ((uint 16).pair (uint 16).option)))))))))))))))))))).iso
    (fun s => (s.accounts, s.storage, s.minedEmitted, s.shieldedValue, s.shieldedCommitments,
      s.shieldedNullifiers, s.htlcLocked, s.htlcs, s.tokens, s.tokenBalances, s.tokenPolicies,
      s.tokenWindows, s.consumedIntents, s.deshieldWindow, s.nftClasses, s.nfts, s.multisig, s.proposals,
      s.vaults, s.vaultCollateral, s.oraclePrice))
    (fun (a, b, c, d, e, f, g, h, i, j, k, l, m, n, o, p, q, r, s, t, u) =>
      ⟨a, b, c, d, e, f, g, h, i, j, k, l, m, n, o, p, q, r, s, t, u⟩)
    (fun _ => rfl) fun _ => rfl

/-- The post-quantum pool in a snapshot. -/
structure V2Snapshot where
  commitments : List Hash
  nullifiers : List Hash
  value : Balance
  window : U64 × Balance

def V2Snapshot.codec : Codec V2Snapshot :=
  ((array 32).vec.pair ((array 32).vec.pair ((uint 16).pair ((uint 8).pair (uint 16))))).iso
    (fun s => (s.commitments, s.nullifiers, s.value, s.window)) (fun (a, b, c, d) => ⟨a, b, c, d⟩)
    (fun _ => rfl) fun _ => rfl

def V2Snapshot.empty : V2Snapshot := ⟨[], [], 0, (0, 0)⟩

/-- Why a snapshot is refused. -/
inductive SnapshotError where
  | decode
  | shielded (e : ShieldedError)
  | shieldedV2 (e : ShieldedV2StateError)

namespace Ledger

/-- Write the leaf of a reserved slot anew. -/
def recommit (C : Crypto) (L : Ledger) (r : Reserved) : Ledger :=
  { L with commitment := L.commitment.set ((Slot.reserved r).hash C) (L.reservedLeaf C r) }

section Load
variable (C : Crypto) (isCmx : Hash → Bool)

/-- The accounts, the contract storage, and the counter of mined coin. -/
def loadAccounts (s : LegacySnapshot) : Ledger :=
  let L := s.accounts.foldl (fun L e => L.setAccount C e.1 e.2) (new C)
  let L := s.storage.foldl (fun L e => L.setContractValue C e.1.1 e.1.2 e.2) L
  { L with minedEmitted := s.minedEmitted }.recommit C .mined

/-- The Orchard pool and the escrows. -/
def loadPool (s : LegacySnapshot) (pool : ShieldedState) (L : Ledger) : Ledger :=
  let L := { L with shieldedValue := s.shieldedValue }.recommit C .shieldedValue
  let L := { L with shielded := pool }.recommit C .shielded
  let L := { L with htlcLocked := s.htlcLocked }.recommit C .htlcLocked
  { L with htlcs := .collect s.htlcs }.recommit C .htlcs

/-- The tokens with their policies, then the spend windows, which a policy would clear; the used intents. -/
def loadTokens (s : LegacySnapshot) (L : Ledger) : Ledger :=
  let L := s.tokens.foldl (fun L e => L.setToken C e.1 e.2) L
  let L := s.tokenBalances.foldl (fun L e => L.setTokenBalance C e.1.1 e.1.2 e.2) L
  let L := s.tokenPolicies.foldl (fun L e => L.setTokenPolicy C e.1 e.2) L
  let L := s.tokenWindows.foldl (fun L e => L.setTokenWindow C e.1.1 e.1.2 e.2) L
  let L := s.consumedIntents.foldl (consumeIntent C) L
  L.setDeshieldWindow C s.deshieldWindow.1 s.deshieldWindow.2

/-- Items, policies, proposals, vaults and the oracle. -/
def loadRegistries (s : LegacySnapshot) (L : Ledger) : Ledger :=
  let L := { L with nftClasses := .collect s.nftClasses }.recommit C .nftClasses
  let L := { L with nfts := .collect (s.nfts.map fun e : (Hash × Bytes) × NftToken => (toLex e.1, e.2)) }.recommit C .nfts
  let L := { L with multisig := .collect s.multisig }.recommit C .multisig
  let L := { L with proposals := .collect s.proposals }.recommit C .proposals
  let L := { L with vaults := .collect s.vaults }.recommit C .vaults
  let L := { L with vaultCollateral := s.vaultCollateral }.recommit C .vaultCollateral
  { L with oraclePrice := s.oraclePrice }.recommit C .oraclePrice

/-- The post-quantum pool. -/
def loadV2 (v2 : V2Snapshot) (pool : ShieldedV2State) (L : Ledger) : Ledger :=
  let L := { L with shieldedV2 := pool }.recommit C .shieldedV2
  let L := { L with shieldedV2Value := v2.value }.recommit C .shieldedV2Value
  L.setDeshieldV2Window C v2.window.1 v2.window.2

/-- Rebuild a ledger from the parts of a snapshot. -/
def fromSnapshot (s : LegacySnapshot) (v2 : V2Snapshot) : Except SnapshotError Ledger :=
  match ShieldedState.restore C isCmx s.shieldedCommitments s.shieldedNullifiers with
  | .error e => .error (.shielded e)
  | .ok pool =>
    match ShieldedV2State.restore C v2.commitments v2.nullifiers with
    | .error e => .error (.shieldedV2 e)
    | .ok poolV2 =>
      .ok (loadV2 C v2 poolV2 (loadRegistries C s (loadTokens C s (loadPool C s pool (loadAccounts C s)))))

/-- Rebuild a ledger from a blob: the current format, else the legacy one with an empty pool. -/
def fromSnapshotBytes (bytes : Bytes) : Except SnapshotError Ledger :=
  match (LegacySnapshot.codec.pair V2Snapshot.codec).decodeAll bytes with
  | some (s, v2) => fromSnapshot C isCmx s v2
  | none =>
    match LegacySnapshot.codec.decodeAll bytes with
    | some s => fromSnapshot C isCmx s .empty
    | none => .error .decode

/-- The stores as a snapshot writes them. -/
def legacySnapshot (s : Stores) : LegacySnapshot where
  accounts := s.accounts.entries
  storage := s.contractStorage.entries.map fun e => (ofLex e.1, e.2)
  minedEmitted := s.minedEmitted
  shieldedValue := s.shieldedValue
  shieldedCommitments := s.shielded.commitments
  shieldedNullifiers := s.shielded.nullifiers.keys
  htlcLocked := s.htlcLocked
  htlcs := s.htlcs.entries
  tokens := s.tokens.entries
  tokenBalances := s.tokenBalances.entries.map fun e => (ofLex e.1, e.2)
  tokenPolicies := s.tokenPolicies.entries
  tokenWindows := s.tokenWindows.entries.map fun e => (ofLex e.1, e.2)
  consumedIntents := s.consumedIntents.keys
  deshieldWindow := s.deshieldWindow
  nftClasses := s.nftClasses.entries
  nfts := s.nfts.entries.map fun e => (ofLex e.1, e.2)
  multisig := s.multisig.entries
  proposals := s.proposals.entries
  vaults := s.vaults.entries
  vaultCollateral := s.vaultCollateral
  oraclePrice := s.oraclePrice

def v2Snapshot (s : Stores) : V2Snapshot where
  commitments := s.shieldedV2.commitments
  nullifiers := s.shieldedV2.nullifiers.keys
  value := s.shieldedV2Value
  window := s.deshieldV2Window

def toSnapshotBytes (L : Ledger) : Bytes :=
  (LegacySnapshot.codec.pair V2Snapshot.codec).encode (legacySnapshot L.toStores, v2Snapshot L.toStores)

end Load
end Ledger
end Sov
