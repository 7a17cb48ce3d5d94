import SovChain.Types.Compliance

/-!
# `sov-types`: actions and transactions

The closed enumeration of actions with its Borsh codec, in the order of the source (the position is
the tag byte), and the four families of messages that are signed: transactions, intents, multisig
approvals and key-rotation proofs.

An action nests through four fields. The decoder enters at most `maxActionDepth` nested actions;
`Fits d` is the set of actions it returns with `d` levels left.
-/

namespace Sov
open Codec

/-- One signer's approval of a `multisigExec`. -/
structure MultisigApproval where
  signer : U16
  signature : Signature
deriving DecidableEq

/-- What a transaction does. -/
inductive Action where
  | transfer (dest : AccountId) (amount : Balance)
  | claimVesting
  | deploy (code : Bytes)
  | call (contract : AccountId) (gasLimit : U64) (calldata : Bytes)
  | shielded (bundle : Bytes)
  | htlcLock (recipient : AccountId) (amount : Balance) (hashlock : Hash) (timeoutHeight : U64)
  | htlcClaim (htlcId : Hash) (preimage : Bytes)
  | htlcRefund (htlcId : Hash)
  | tokenIssue (symbol : String) (amount : Balance) (dest : AccountId)
  | tokenTransfer (asset : Hash) (dest : AccountId) (amount : Balance)
  | tokenBurn (asset : Hash) (amount : Balance)
  | tokenSetPolicy (asset : Hash) (policy : CompliancePolicy)
  | intentSettle (settlement : Settlement)
  | intentCancel (intent : Intent)
  | rotateKey (newKey : PublicKey) (proof : Signature)
  | registerName (name : String)
  | transferName (name : String) (dest : AccountId)
  | nftMint (symbol : String) (tokenId : Bytes) (dest : AccountId) (metadata : Bytes)
  | nftTransfer (collection : Hash) (tokenId : Bytes) (dest : AccountId)
  | nftSetMeta (collection : Hash) (tokenId : Bytes) (metadata : Bytes)
  | setMultisig (signers : List PublicKey) (threshold : U16)
  | multisigExec (action : Action) (approvals : List MultisigApproval)
  | proposeMultisig (account : AccountId) (action : Action)
  | approveMultisig (account : AccountId) (proposal : Hash)
  | cancelMultisig (account : AccountId) (proposal : Hash)
  | vaultDeposit (amount : Balance)
  | vaultMint (amount : Balance)
  | vaultBurn (amount : Balance)
  | vaultWithdraw (amount : Balance)
  | oracleUpdate (price : U128)
  | tipped (tip : Balance) (inner : Action)
  | shieldedV2 (bundle : Bytes)
  | timestamped (createdAtMs : U64) (inner : Action)
deriving DecidableEq

/-! ## Limits -/

def txTimestampFutureToleranceMs : U64 := 120000

def txTimestampMaxAgeMs : U64 := 1800000

def maxShieldedV2BundleBytes : ℕ := 144 * 1024

def maxShieldedV2Suite2BundleBytes : ℕ := 2 * 1024 * 1024 + 16 * 1024

def maxActionDepth : ℕ := 16

/-- The caps `bounded_v2_bundle_bytes` puts on a bundle: the large one only behind a leading
version byte of two. -/
def boundedV2BundleBytes (bundle : Bytes) : Bool :=
  bundle.length ≤ maxShieldedV2Suite2BundleBytes &&
    (bundle.isEmpty || bundle.headD 0 = 2 || bundle.length ≤ maxShieldedV2BundleBytes)

namespace MultisigApproval

def codec : Codec MultisigApproval :=
  ((uint 2).pair Signature.codec).iso (fun a => (a.signer, a.signature)) (fun p => ⟨p.1, p.2⟩)
    (fun _ => rfl) fun _ => rfl

end MultisigApproval

namespace Action

/-! ## The Borsh codec -/

def hash : Codec Hash := array 32

def v2Bundle : Codec Bytes := byteVec.filter boundedV2BundleBytes

def amount : Codec Balance := uint 16

def u64 : Codec U64 := uint 8

def approvals : Codec (List MultisigApproval) := MultisigApproval.codec.vec

def encode : Action → Bytes
  | transfer dest amt => 0 :: (AccountId.codec.pair amount).encode (dest, amt)
  | claimVesting => [1]
  | deploy code => 2 :: byteVec.encode code
  | call contract gasLimit calldata =>
    3 :: (AccountId.codec.pair (u64.pair byteVec)).encode (contract, gasLimit, calldata)
  | shielded bundle => 4 :: byteVec.encode bundle
  | htlcLock recipient amt hashlock timeoutHeight =>
    5 :: (AccountId.codec.pair (amount.pair (hash.pair u64))).encode
      (recipient, amt, hashlock, timeoutHeight)
  | htlcClaim htlcId preimage => 6 :: (hash.pair byteVec).encode (htlcId, preimage)
  | htlcRefund htlcId => 7 :: hash.encode htlcId
  | tokenIssue symbol amt dest =>
    8 :: (string.pair (amount.pair AccountId.codec)).encode (symbol, amt, dest)
  | tokenTransfer asset dest amt =>
    9 :: (hash.pair (AccountId.codec.pair amount)).encode (asset, dest, amt)
  | tokenBurn asset amt => 10 :: (hash.pair amount).encode (asset, amt)
  | tokenSetPolicy asset policy =>
    11 :: (hash.pair CompliancePolicy.codec).encode (asset, policy)
  | intentSettle settlement => 12 :: Settlement.codec.encode settlement
  | intentCancel intent => 13 :: Intent.codec.encode intent
  | rotateKey newKey proof => 14 :: (PublicKey.codec.pair Signature.codec).encode (newKey, proof)
  | registerName name => 15 :: string.encode name
  | transferName name dest => 16 :: (string.pair AccountId.codec).encode (name, dest)
  | nftMint symbol tokenId dest metadata =>
    17 :: (string.pair (byteVec.pair (AccountId.codec.pair byteVec))).encode
      (symbol, tokenId, dest, metadata)
  | nftTransfer collection tokenId dest =>
    18 :: (hash.pair (byteVec.pair AccountId.codec)).encode (collection, tokenId, dest)
  | nftSetMeta collection tokenId metadata =>
    19 :: (hash.pair (byteVec.pair byteVec)).encode (collection, tokenId, metadata)
  | setMultisig signers threshold =>
    20 :: (PublicKey.codec.vec.pair (uint 2)).encode (signers, threshold)
  | multisigExec action aps => 21 :: (encode action ++ approvals.encode aps)
  | proposeMultisig account action => 22 :: (AccountId.codec.encode account ++ encode action)
  | approveMultisig account proposal =>
    23 :: (AccountId.codec.pair hash).encode (account, proposal)
  | cancelMultisig account proposal =>
    24 :: (AccountId.codec.pair hash).encode (account, proposal)
  | vaultDeposit amt => 25 :: amount.encode amt
  | vaultMint amt => 26 :: amount.encode amt
  | vaultBurn amt => 27 :: amount.encode amt
  | vaultWithdraw amt => 28 :: amount.encode amt
  | oracleUpdate price => 29 :: amount.encode price
  | tipped tip inner => 30 :: (amount.encode tip ++ encode inner)
  | shieldedV2 bundle => 31 :: v2Bundle.encode bundle
  | timestamped createdAtMs inner => 32 :: (u64.encode createdAtMs ++ encode inner)

/-- Read an action whose nested actions are read by `nested`. -/
def decodeWith (nested : Bytes → Option (Action × Bytes)) : Bytes → Option (Action × Bytes)
  | [] => none
  | t :: b =>
    match t.toNat with
    | 0 => ((AccountId.codec.pair amount).decode b).map fun ⟨(dest, amt), b⟩ =>
      (transfer dest amt, b)
    | 1 => some (claimVesting, b)
    | 2 => (byteVec.decode b).map fun ⟨code, b⟩ => (deploy code, b)
    | 3 => ((AccountId.codec.pair (u64.pair byteVec)).decode b).map
      fun ⟨(contract, gasLimit, calldata), b⟩ => (call contract gasLimit calldata, b)
    | 4 => (byteVec.decode b).map fun ⟨bundle, b⟩ => (shielded bundle, b)
    | 5 => ((AccountId.codec.pair (amount.pair (hash.pair u64))).decode b).map
      fun ⟨(recipient, amt, hashlock, timeoutHeight), b⟩ =>
        (htlcLock recipient amt hashlock timeoutHeight, b)
    | 6 => ((hash.pair byteVec).decode b).map fun ⟨(htlcId, preimage), b⟩ =>
      (htlcClaim htlcId preimage, b)
    | 7 => (hash.decode b).map fun ⟨htlcId, b⟩ => (htlcRefund htlcId, b)
    | 8 => ((string.pair (amount.pair AccountId.codec)).decode b).map
      fun ⟨(symbol, amt, dest), b⟩ => (tokenIssue symbol amt dest, b)
    | 9 => ((hash.pair (AccountId.codec.pair amount)).decode b).map
      fun ⟨(asset, dest, amt), b⟩ => (tokenTransfer asset dest amt, b)
    | 10 => ((hash.pair amount).decode b).map fun ⟨(asset, amt), b⟩ => (tokenBurn asset amt, b)
    | 11 => ((hash.pair CompliancePolicy.codec).decode b).map fun ⟨(asset, policy), b⟩ =>
      (tokenSetPolicy asset policy, b)
    | 12 => (Settlement.codec.decode b).map fun ⟨settlement, b⟩ => (intentSettle settlement, b)
    | 13 => (Intent.codec.decode b).map fun ⟨intent, b⟩ => (intentCancel intent, b)
    | 14 => ((PublicKey.codec.pair Signature.codec).decode b).map fun ⟨(newKey, proof), b⟩ =>
      (rotateKey newKey proof, b)
    | 15 => (string.decode b).map fun ⟨name, b⟩ => (registerName name, b)
    | 16 => ((string.pair AccountId.codec).decode b).map fun ⟨(name, dest), b⟩ =>
      (transferName name dest, b)
    | 17 => ((string.pair (byteVec.pair (AccountId.codec.pair byteVec))).decode b).map
      fun ⟨(symbol, tokenId, dest, metadata), b⟩ => (nftMint symbol tokenId dest metadata, b)
    | 18 => ((hash.pair (byteVec.pair AccountId.codec)).decode b).map
      fun ⟨(collection, tokenId, dest), b⟩ => (nftTransfer collection tokenId dest, b)
    | 19 => ((hash.pair (byteVec.pair byteVec)).decode b).map
      fun ⟨(collection, tokenId, metadata), b⟩ => (nftSetMeta collection tokenId metadata, b)
    | 20 => ((PublicKey.codec.vec.pair (uint 2)).decode b).map fun ⟨(signers, threshold), b⟩ =>
      (setMultisig signers threshold, b)
    | 21 => (nested b).bind fun ⟨action, b⟩ =>
      (approvals.decode b).map fun ⟨aps, b⟩ => (multisigExec action aps, b)
    | 22 => (AccountId.codec.decode b).bind fun ⟨account, b⟩ =>
      (nested b).map fun ⟨action, b⟩ => (proposeMultisig account action, b)
    | 23 => ((AccountId.codec.pair hash).decode b).map fun ⟨(account, proposal), b⟩ =>
      (approveMultisig account proposal, b)
    | 24 => ((AccountId.codec.pair hash).decode b).map fun ⟨(account, proposal), b⟩ =>
      (cancelMultisig account proposal, b)
    | 25 => (amount.decode b).map fun ⟨amt, b⟩ => (vaultDeposit amt, b)
    | 26 => (amount.decode b).map fun ⟨amt, b⟩ => (vaultMint amt, b)
    | 27 => (amount.decode b).map fun ⟨amt, b⟩ => (vaultBurn amt, b)
    | 28 => (amount.decode b).map fun ⟨amt, b⟩ => (vaultWithdraw amt, b)
    | 29 => (amount.decode b).map fun ⟨price, b⟩ => (oracleUpdate price, b)
    | 30 => (amount.decode b).bind fun ⟨tip, b⟩ =>
      (nested b).map fun ⟨inner, b⟩ => (tipped tip inner, b)
    | 31 => (v2Bundle.decode b).map fun ⟨bundle, b⟩ => (shieldedV2 bundle, b)
    | 32 => (u64.decode b).bind fun ⟨createdAtMs, b⟩ =>
      (nested b).map fun ⟨inner, b⟩ => (timestamped createdAtMs inner, b)
    | _ => none

/-- Read an action, entering at most `d` nested ones. -/
def decodeDepth : ℕ → Bytes → Option (Action × Bytes)
  | 0 => decodeWith fun _ => none
  | d + 1 => decodeWith (decodeDepth d)

/-- The actions the decoder returns when `d` nested levels are left. -/
def Fits : Action → ℕ → Prop
  | transfer dest amt, _ => (AccountId.codec.pair amount).Fits (dest, amt)
  | claimVesting, _ => True
  | deploy code, _ => byteVec.Fits code
  | call contract gasLimit calldata, _ =>
    (AccountId.codec.pair (u64.pair byteVec)).Fits (contract, gasLimit, calldata)
  | shielded bundle, _ => byteVec.Fits bundle
  | htlcLock recipient amt hashlock timeoutHeight, _ =>
    (AccountId.codec.pair (amount.pair (hash.pair u64))).Fits
      (recipient, amt, hashlock, timeoutHeight)
  | htlcClaim htlcId preimage, _ => (hash.pair byteVec).Fits (htlcId, preimage)
  | htlcRefund htlcId, _ => hash.Fits htlcId
  | tokenIssue symbol amt dest, _ =>
    (string.pair (amount.pair AccountId.codec)).Fits (symbol, amt, dest)
  | tokenTransfer asset dest amt, _ =>
    (hash.pair (AccountId.codec.pair amount)).Fits (asset, dest, amt)
  | tokenBurn asset amt, _ => (hash.pair amount).Fits (asset, amt)
  | tokenSetPolicy asset policy, _ => (hash.pair CompliancePolicy.codec).Fits (asset, policy)
  | intentSettle settlement, _ => Settlement.codec.Fits settlement
  | intentCancel intent, _ => Intent.codec.Fits intent
  | rotateKey newKey proof, _ => (PublicKey.codec.pair Signature.codec).Fits (newKey, proof)
  | registerName name, _ => string.Fits name
  | transferName name dest, _ => (string.pair AccountId.codec).Fits (name, dest)
  | nftMint symbol tokenId dest metadata, _ =>
    (string.pair (byteVec.pair (AccountId.codec.pair byteVec))).Fits
      (symbol, tokenId, dest, metadata)
  | nftTransfer collection tokenId dest, _ =>
    (hash.pair (byteVec.pair AccountId.codec)).Fits (collection, tokenId, dest)
  | nftSetMeta collection tokenId metadata, _ =>
    (hash.pair (byteVec.pair byteVec)).Fits (collection, tokenId, metadata)
  | setMultisig signers threshold, _ =>
    (PublicKey.codec.vec.pair (uint 2)).Fits (signers, threshold)
  | multisigExec action aps, d => 0 < d ∧ Fits action (d - 1) ∧ approvals.Fits aps
  | proposeMultisig account action, d => 0 < d ∧ AccountId.codec.Fits account ∧ Fits action (d - 1)
  | approveMultisig account proposal, _ => (AccountId.codec.pair hash).Fits (account, proposal)
  | cancelMultisig account proposal, _ => (AccountId.codec.pair hash).Fits (account, proposal)
  | vaultDeposit amt, _ => amount.Fits amt
  | vaultMint amt, _ => amount.Fits amt
  | vaultBurn amt, _ => amount.Fits amt
  | vaultWithdraw amt, _ => amount.Fits amt
  | oracleUpdate price, _ => amount.Fits price
  | tipped tip inner, d => 0 < d ∧ amount.Fits tip ∧ Fits inner (d - 1)
  | shieldedV2 bundle, _ => v2Bundle.Fits bundle
  | timestamped createdAtMs inner, d => 0 < d ∧ u64.Fits createdAtMs ∧ Fits inner (d - 1)

/-- How nested actions are read with `d` levels left. -/
def decodeNested : ℕ → Bytes → Option (Action × Bytes)
  | 0 => fun _ => none
  | d + 1 => decodeDepth d

theorem decodeDepth_eq (d : ℕ) : decodeDepth d = decodeWith (decodeNested d) := by
  cases d <;> rfl

theorem decodeNested_of_pos {d : ℕ} (h : 0 < d) : decodeNested d = decodeDepth (d - 1) := by
  cases d with
  | zero => cases h
  | succ d => rfl

theorem decodeDepth_encode (a : Action) (d : ℕ) (s : Bytes) (h : a.Fits d) :
    decodeDepth d (encode a ++ s) = some (a, s) := by
  induction a generalizing d s with
  | multisigExec action aps ih =>
    obtain ⟨hd, ha, haps⟩ := h
    simp [decodeDepth_eq d, decodeWith, encode, decodeNested_of_pos hd, ih _ _ ha, approvals.decode_encode _ haps]
  | proposeMultisig account action ih =>
    obtain ⟨hd, hacc, ha⟩ := h
    simp [decodeDepth_eq d, decodeWith, encode, decodeNested_of_pos hd, ih _ _ ha, AccountId.codec.decode_encode _ hacc]
  | tipped tip inner ih =>
    obtain ⟨hd, ht, ha⟩ := h
    simp [decodeDepth_eq d, decodeWith, encode, decodeNested_of_pos hd, ih _ _ ha, amount.decode_encode _ ht]
  | timestamped created inner ih =>
    obtain ⟨hd, ht, ha⟩ := h
    simp [decodeDepth_eq d, decodeWith, encode, decodeNested_of_pos hd, ih _ _ ha, u64.decode_encode _ ht]
  | claimVesting => rw [decodeDepth_eq]; rfl
  | _ => simp [decodeDepth_eq d, decodeWith, encode, Codec.decode_encode _ s h]

/-- One level of decoding, given what the nested decoder returns. -/
theorem fits_of_decodeWith {nested : Bytes → Option (Action × Bytes)} {d : ℕ}
    (hn : ∀ {b a s}, nested b = some (a, s) → 0 < d ∧ a.Fits (d - 1)) {b : Bytes} {a : Action}
    {s : Bytes} (h : decodeWith nested b = some (a, s)) : a.Fits d := by
  rcases b with _ | ⟨t, b⟩
  · cases h
  rw [decodeWith] at h
  split at h
  case h_2 => cases h; exact trivial
  case h_22 =>
    obtain ⟨⟨action, b'⟩, ha, h⟩ := Option.bind_eq_some_iff.mp h
    obtain ⟨⟨aps, b''⟩, haps, h⟩ := Option.map_eq_some_iff.mp h
    cases h
    exact ⟨(hn ha).1, (hn ha).2, approvals.fits_of_decode haps⟩
  case h_23 =>
    obtain ⟨⟨account, b'⟩, hacc, h⟩ := Option.bind_eq_some_iff.mp h
    obtain ⟨⟨action, b''⟩, ha, h⟩ := Option.map_eq_some_iff.mp h
    cases h
    exact ⟨(hn ha).1, AccountId.codec.fits_of_decode hacc, (hn ha).2⟩
  case h_31 =>
    obtain ⟨⟨tip, b'⟩, ht, h⟩ := Option.bind_eq_some_iff.mp h
    obtain ⟨⟨inner, b''⟩, ha, h⟩ := Option.map_eq_some_iff.mp h
    cases h
    exact ⟨(hn ha).1, amount.fits_of_decode ht, (hn ha).2⟩
  case h_33 =>
    obtain ⟨⟨created, b'⟩, ht, h⟩ := Option.bind_eq_some_iff.mp h
    obtain ⟨⟨inner, b''⟩, ha, h⟩ := Option.map_eq_some_iff.mp h
    cases h
    exact ⟨(hn ha).1, u64.fits_of_decode ht, (hn ha).2⟩
  case h_34 => cases h
  -- Every other action is one record read by one codec.
  all_goals
    obtain ⟨p, hd, hp⟩ := Option.map_eq_some_iff.mp h
    cases hp
    exact Codec.fits_of_decode _ hd

theorem fits_of_decodeDepth {a : Action} {d : ℕ} {b s : Bytes} (h : decodeDepth d b = some (a, s)) : a.Fits d := by
  induction d generalizing a b s with
  | zero => exact fits_of_decodeWith (fun hc => absurd hc (by simp)) h
  | succ d ih => exact fits_of_decodeWith (fun hc => ⟨Nat.succ_pos d, ih hc⟩) h

def codec : Codec Action where
  encode := encode
  decode := decodeDepth maxActionDepth
  Fits a := a.Fits maxActionDepth
  decode_encode := decodeDepth_encode _ _
  fits_of_decode := fits_of_decodeDepth

end Action

/-! ## Transactions -/

/-- The unsigned body of a transaction. -/
structure Transaction where
  signer : AccountId
  publicKey : PublicKey
  nonce : U64
  action : Action
deriving DecidableEq

/-- A transaction with the signature that authorizes it. -/
structure SignedTransaction where
  transaction : Transaction
  signature : Signature
deriving DecidableEq

namespace Transaction

def codec : Codec Transaction :=
  (AccountId.codec.pair (PublicKey.codec.pair ((uint 8).pair Action.codec))).iso
    (fun t => (t.signer, t.publicKey, t.nonce, t.action)) (fun ⟨s, k, n, a⟩ => ⟨s, k, n, a⟩)
    (fun _ => rfl) fun _ => rfl

/-- The Borsh encoding. -/
def signingBytes (t : Transaction) : Bytes := codec.encode t

def signingDomainTag : Bytes := strBytes "sov:tx:v1"

def signingBytesIn (t : Transaction) (domain : Option SigningDomain) : Bytes :=
  match domain with
  | none => t.signingBytes
  | some d => d.frame signingDomainTag t.signingBytes

def id (C : Crypto) (t : Transaction) : Hash := C.digest t.signingBytes

end Transaction

namespace SignedTransaction

def codec : Codec SignedTransaction :=
  (Transaction.codec.pair Signature.codec).iso (fun t => (t.transaction, t.signature))
    (fun p => ⟨p.1, p.2⟩) (fun _ => rfl) fun _ => rfl

def id (C : Crypto) (t : SignedTransaction) : Hash := t.transaction.id C

def verifySignatureIn (C : Crypto) (t : SignedTransaction) (domain : Option SigningDomain) : Bool :=
  t.transaction.publicKey.verify C (t.transaction.signingBytesIn domain) t.signature

def verifySignatureMode (C : Crypto) (t : SignedTransaction) (mode : TxDomainMode) : Bool :=
  mode.verifies (t.verifySignatureIn C)

end SignedTransaction

/-- What each approver of a `multisigExec` signs. -/
def multisigSigningBytes (account : AccountId) (nonce : U64) (action : Action) : Bytes :=
  strBytes "sov:multisig:v1" ++ [0] ++ account.bytes ++ [0] ++ (uint 8).encode nonce ++
    Action.codec.encode action

/-- What a new key signs to prove possession in a `rotateKey`. -/
def rotationSigningBytes (signer : AccountId) (nonce : U64) (newKey : PublicKey) : Bytes :=
  strBytes "sov:rotate:v1" ++ [0] ++ signer.bytes ++ [0] ++ (uint 8).encode nonce ++
    PublicKey.codec.encode newKey

end Sov
