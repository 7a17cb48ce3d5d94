import Mathlib.Data.Prod.Lex
import SovChain.Types.Transaction

/-!
# `sov-state`: the records of the ledger

Accounts, vaults, assets, multisig policies and proposals, NFTs, escrows and the two shielded pools,
with the Borsh codecs under which the ledger commits them.

Of the two note-commitment trees only the leaves are kept: the current root is a function of them
(`Crypto.orchardRoot`, `Crypto.pqRoot`), so the frontiers the source stores beside them carry no
further state.
-/

namespace Sov
open Codec

/-- The on-chain state of one account. -/
structure Account where
  nonce : U64 := 0
  balance : Balance := 0
  locked : Balance := 0
  unlockHeight : U64 := 0
  key : Option PublicKey := none
  code : Option Bytes := none
deriving DecidableEq

instance : Inhabited Account := ⟨{}⟩

namespace Account

/-- Liquid and locked holdings. -/
def total (a : Account) : Option Balance := a.balance.checkedAdd a.locked

def canClaimVesting (a : Account) (height : U64) : Bool :=
  a.locked ≠ 0 && a.unlockHeight.toNat ≤ height.toNat

def isEmpty (a : Account) : Bool := a = default

def codec : Codec Account :=
  ((uint 8).pair ((uint 16).pair ((uint 16).pair ((uint 8).pair (PublicKey.codec.option.pair
    byteVec.option))))).iso
    (fun a => (a.nonce, a.balance, a.locked, a.unlockHeight, a.key, a.code))
    (fun ⟨n, b, l, u, k, c⟩ => ⟨n, b, l, u, k, c⟩) (fun _ => rfl) fun _ => rfl

/-- The holdings as a number. -/
def worth (a : Account) : ℕ := a.balance.toNat + a.locked.toNat

theorem total_eq_some {a : Account} {t : Balance} : a.total = some t ↔ a.worth = t.toNat :=
  BitVec.checkedAdd_eq_some

@[simp] theorem worth_default : (default : Account).worth = 0 := rfl

end Account

/-- A collateralized debt position. -/
structure Vault where
  collateral : Balance := 0
  debt : Balance := 0
deriving DecidableEq

instance : Inhabited Vault := ⟨{}⟩

namespace Vault

def scale : ℕ := 100000000

def seedXusUsdPrice : U128 := 100000000

def minCollateralRatioPct : ℕ := 150

def oracleAccount : String := "96abb93854040db54394648061dcb1766d6f306de962a19ad3e7bdb5e19caa7f"

def xusdIssuer : String := "xusd.reserve.sov"

def xusdSymbol : String := "xUSD"

def isEmpty (v : Vault) : Bool := v.collateral = 0 && v.debt = 0

/-- The value of `collateral` at `price`, `none` on overflow. -/
def collateralUsd (collateral : Balance) (price : U128) : Option U128 :=
  (collateral.checkedMul price).map fun v => BitVec.ofNat 128 (v.toNat / scale)

/-- The largest debt `collateral` may carry at `price`, `none` on overflow. -/
def maxDebt (collateral : Balance) (price : U128) : Option U128 := do
  let usd ← collateralUsd collateral price
  let v ← usd.checkedMul 100
  return BitVec.ofNat 128 (v.toNat / minCollateralRatioPct)

def isHealthy (collateral debt : Balance) (price : U128) : Bool :=
  match maxDebt collateral price with
  | some max => debt.toNat ≤ max.toNat
  | none => false

def codec : Codec Vault :=
  ((uint 16).pair (uint 16)).iso (fun v => (v.collateral, v.debt)) (fun p => ⟨p.1, p.2⟩)
    (fun _ => rfl) fun _ => rfl

end Vault

/-- The issuance record of an asset. -/
structure TokenInfo where
  issuer : AccountId
  symbol : String
  issued : Balance
  burned : Balance
deriving DecidableEq

namespace TokenInfo

def codec : Codec TokenInfo :=
  (AccountId.codec.pair (string.pair ((uint 16).pair (uint 16)))).iso
    (fun t => (t.issuer, t.symbol, t.issued, t.burned)) (fun ⟨i, s, a, b⟩ => ⟨i, s, a, b⟩)
    (fun _ => rfl) fun _ => rfl

end TokenInfo

/-- An M-of-N policy. -/
structure Multisig where
  signers : List PublicKey
  threshold : U16
deriving DecidableEq

def Multisig.codec : Codec Multisig :=
  (PublicKey.codec.vec.pair (uint 2)).iso (fun m => (m.signers, m.threshold)) (fun p => ⟨p.1, p.2⟩)
    (fun _ => rfl) fun _ => rfl

/-- A pending proposal: the encoded action and the indices of the signers that approved it. -/
structure MultisigProposal where
  account : AccountId
  action : Bytes
  approvers : List U16
deriving DecidableEq

def MultisigProposal.codec : Codec MultisigProposal :=
  (AccountId.codec.pair (byteVec.pair (uint 2).vec)).iso
    (fun p => (p.account, p.action, p.approvers)) (fun p => ⟨p.1, p.2.1, p.2.2⟩)
    (fun _ => rfl) fun _ => rfl

/-- An NFT collection. -/
structure NftClass where
  issuer : AccountId
  symbol : String
  minted : U64
deriving DecidableEq

def NftClass.codec : Codec NftClass :=
  (AccountId.codec.pair (string.pair (uint 8))).iso (fun c => (c.issuer, c.symbol, c.minted))
    (fun p => ⟨p.1, p.2.1, p.2.2⟩) (fun _ => rfl) fun _ => rfl

/-- An NFT. Names are the NFTs of one reserved collection. -/
structure NftToken where
  owner : AccountId
  metadata : Bytes
  mintedHeight : U64
deriving DecidableEq

def NftToken.codec : Codec NftToken :=
  (AccountId.codec.pair (byteVec.pair (uint 8))).iso (fun t => (t.owner, t.metadata, t.mintedHeight))
    (fun p => ⟨p.1, p.2.1, p.2.2⟩) (fun _ => rfl) fun _ => rfl

/-- A hash-time-locked escrow. -/
structure Htlc where
  locker : AccountId
  recipient : AccountId
  amount : Balance
  hashlock : Hash
  timeoutHeight : U64
deriving DecidableEq

def Htlc.codec : Codec Htlc :=
  (AccountId.codec.pair (AccountId.codec.pair ((uint 16).pair ((array 32).pair (uint 8))))).iso
    (fun h => (h.locker, h.recipient, h.amount, h.hashlock, h.timeoutHeight))
    (fun ⟨l, r, a, h, t⟩ => ⟨l, r, a, h, t⟩) (fun _ => rfl) fun _ => rfl

def SpendWindow.codec : Codec SpendWindow :=
  ((uint 8).pair (uint 16)).iso (fun w => (w.windowStart, w.spent)) (fun p => ⟨p.1, p.2⟩)
    (fun _ => rfl) fun _ => rfl

/-! ## The shielded pools -/

/-- What a decoded Orchard bundle says: the notes it spends and adds, the root it was proved against,
and the net value leaving the pool, an `i64`. -/
structure ShieldedBundle where
  nullifiers : List Hash
  noteCommitments : List Hash
  anchor : Hash
  valueBalance : BitVec 64
deriving DecidableEq

inductive ShieldedError where
  | treeFull
  | doubleSpend
  | decode (field : String)
deriving DecidableEq

/-- The Orchard pool: every root the chain has held, the spent notes, and the notes in order. -/
structure ShieldedState where
  anchors : OrdMap Hash Unit
  nullifiers : OrdMap Hash Unit
  commitments : List Hash
deriving DecidableEq

namespace ShieldedState

def new (C : Crypto) : ShieldedState :=
  { anchors := OrdMap.empty.insert (C.orchardRoot []) (), nullifiers := OrdMap.empty
    commitments := [] }

def isEmpty (s : ShieldedState) : Bool := s.commitments.isEmpty && s.nullifiers.entries.isEmpty

def anchorIsKnown (s : ShieldedState) (anchor : Hash) : Bool := s.anchors.contains anchor

/-- Append a note and record the new root. -/
def addCommitment (C : Crypto) (s : ShieldedState) (cmx : Hash) : ShieldedState :=
  let commitments := s.commitments ++ [cmx]
  { s with commitments, anchors := s.anchors.insert (C.orchardRoot commitments) () }

/-- Append notes until the tree, of depth 32, is full. -/
def addCommitments (C : Crypto) (s : ShieldedState) : List Hash → ShieldedState × Option ShieldedError
  | [] => (s, none)
  | cmx :: rest =>
    if 2 ^ 32 ≤ s.commitments.length then (s, some .treeFull)
    else (s.addCommitment C cmx).addCommitments C rest

/-- No nullifier is spent already or repeated. -/
def nullifiersFresh (s : ShieldedState) (nullifiers : List Hash) : Bool :=
  nullifiers.Nodup && nullifiers.all fun nf => !s.nullifiers.contains nf

/-- Check the nullifiers, spend them, and append the notes. The second component is the error; a full
tree is met half way, and the state is left as far as the bundle got. -/
def applyBundle (C : Crypto) (s : ShieldedState) (bundle : ShieldedBundle) :
    ShieldedState × Option ShieldedError :=
  if s.nullifiersFresh bundle.nullifiers then
    { s with nullifiers := bundle.nullifiers.foldl (fun m nf => m.insert nf ()) s.nullifiers }.addCommitments
      C bundle.noteCommitments
  else (s, some .doubleSpend)

/-- The digest folded into the state root. -/
def commitment (C : Crypto) (s : ShieldedState) : Hash :=
  C.digest (strBytes "sov-shielded-state-v1" ++ (C.orchardRoot s.commitments).bytes ++
    leBytes 8 s.nullifiers.entries.length ++ s.nullifiers.keys.flatMap FixedBytes.bytes ++
    leBytes 8 s.anchors.entries.length ++ s.anchors.keys.flatMap FixedBytes.bytes)

end ShieldedState

inductive ShieldedV2StateError where
  | treeFull
  | doubleSpend
  | zeroDigest
  | decode (field : String)
deriving DecidableEq

def ShieldedV2StateError.message : ShieldedV2StateError → String
  | treeFull => "pool-v2 note-commitment tree is full (4294967295 notes)"
  | doubleSpend => "pool-v2 nullifier already spent (double spend)"
  | zeroDigest => "pool-v2 state refuses the zero (dummy) digest"
  | decode field => "non-canonical digest in pool-v2 state (" ++ field ++ ")"

/-- The post-quantum pool: the roots a bundle may still name, the spent notes, and the notes in
order. -/
structure ShieldedV2State where
  anchorRing : List Hash
  nullifiers : OrdMap Hash Unit
  commitments : List Hash
deriving DecidableEq

namespace ShieldedV2State

def anchorRingLen : ℕ := 160 * 128

def maxV2Notes : ℕ := 2 ^ 32 - 1

/-- The four little-endian limbs of a digest are elements of the proof system's field. -/
def isCanonical (d : Hash) : Bool :=
  [0, 8, 16, 24].all fun i => ofLeBytes ((d.bytes.drop i).take 8) < 2 ^ 64 - 2 ^ 32 + 1

def new (C : Crypto) : ShieldedV2State :=
  { anchorRing := [C.pqRoot []], nullifiers := OrdMap.empty, commitments := [] }

def isEmpty (s : ShieldedV2State) : Bool := s.commitments.isEmpty && s.nullifiers.entries.isEmpty

def anchorIsKnown (s : ShieldedV2State) (anchor : Hash) : Bool := s.anchorRing.contains anchor

def nullifierSeen (s : ShieldedV2State) (nf : Hash) : Bool := s.nullifiers.contains nf

/-- Append a note; the ring keeps the latest roots. -/
def appendCommitment (C : Crypto) (s : ShieldedV2State) (cm : Hash) : ShieldedV2State :=
  let commitments := s.commitments ++ [cm]
  let ring := s.anchorRing ++ [C.pqRoot commitments]
  { s with commitments, anchorRing := ring.drop (ring.length - anchorRingLen) }

/-- The checks on nullifiers, in order; `batch` are those of the bundle seen so far. -/
def checkNullifiers (s : ShieldedV2State) (batch : List Hash) :
    List Hash → Except ShieldedV2StateError Unit
  | [] => .ok ()
  | nf :: rest =>
    if nf = Hash.zero then .error .zeroDigest
    else if !isCanonical nf then .error (.decode "nullifier")
    else if s.nullifierSeen nf || batch.contains nf then .error .doubleSpend
    else s.checkNullifiers (nf :: batch) rest

/-- Spend the nullifiers and append the notes, after every check has passed. -/
def apply (C : Crypto) (s : ShieldedV2State) (nullifiers commitments : List Hash) :
    Except ShieldedV2StateError ShieldedV2State :=
  if maxV2Notes < s.commitments.length + commitments.length then .error .treeFull
  else if commitments.contains Hash.zero then .error .zeroDigest
  else if !commitments.all isCanonical then .error (.decode "commitment")
  else
    (s.checkNullifiers [] nullifiers).map fun _ =>
      commitments.foldl (appendCommitment C)
        { s with nullifiers := nullifiers.foldl (fun m nf => m.insert nf ()) s.nullifiers }

/-- The digest folded into the state root. -/
def commitment (C : Crypto) (s : ShieldedV2State) : Hash :=
  C.digest (strBytes "sov-shielded-v2-state-v1" ++ leBytes 8 s.commitments.length ++
    (C.pqRoot s.commitments).bytes ++ leBytes 8 s.anchorRing.length ++
    s.anchorRing.flatMap FixedBytes.bytes ++ leBytes 8 s.nullifiers.entries.length ++
    s.nullifiers.keys.flatMap FixedBytes.bytes)

end ShieldedV2State
end Sov
