import SovChain.Primitives.Crypto

/-!
# `sov-compliance` and `sov-intents`: the records carried by transactions

The compliance policy of an asset with its transfer check, and signed swap intents.
-/

namespace Sov

/-- How an account's outgoing counterparties are restricted. -/
inductive TransferControl where
  | unrestricted
  | allowList (set : OrdMap AccountId Unit)
  | denyList (set : OrdMap AccountId Unit)
deriving DecidableEq

namespace TransferControl

def permits (c : TransferControl) (dest : AccountId) : Bool :=
  match c with
  | unrestricted => true
  | allowList set => set.contains dest
  | denyList set => !set.contains dest

def setCodec : Codec (OrdMap AccountId Unit) := AccountId.codec.ordSet

def codec : Codec TransferControl where
  encode
    | unrestricted => [0]
    | allowList s => 1 :: setCodec.encode s
    | denyList s => 2 :: setCodec.encode s
  decode
    | [] => none
    | t :: b =>
      match t.toNat with
      | 0 => some (unrestricted, b)
      | 1 => (setCodec.decode b).map fun p => (allowList p.1, p.2)
      | 2 => (setCodec.decode b).map fun p => (denyList p.1, p.2)
      | _ => none
  Fits
    | unrestricted => True
    | allowList s => setCodec.Fits s
    | denyList s => setCodec.Fits s
  decode_encode := by
    intro c s h
    cases c with
    | unrestricted => rfl
    | allowList set | denyList set => simp [setCodec.decode_encode _ h]
  fits_of_decode := by
    intro b c s h
    rcases b with _ | ⟨t, b⟩
    · cases h
    simp only at h
    split at h
    · cases h
      exact trivial
    · obtain ⟨p, hd, hp⟩ := Option.map_eq_some_iff.mp h
      cases hp
      exact setCodec.fits_of_decode hd
    · obtain ⟨p, hd, hp⟩ := Option.map_eq_some_iff.mp h
      cases hp
      exact setCodec.fits_of_decode hd
    · cases h

end TransferControl

/-- At most `maxPerWindow` may leave within `windowBlocks` blocks. -/
structure SpendLimit where
  maxPerWindow : Balance
  windowBlocks : U64
deriving DecidableEq

/-- What was spent in the window that began at `windowStart`. -/
structure SpendWindow where
  windowStart : U64 := 0
  spent : Balance := 0
deriving DecidableEq

instance : Inhabited SpendWindow := ⟨{}⟩

/-- The compliance policy of an asset. -/
structure CompliancePolicy where
  frozen : Bool := false
  transferControl : TransferControl := .unrestricted
  spendLimit : Option SpendLimit := none
deriving DecidableEq

/-- Why a policy blocks a transfer. -/
inductive ComplianceError where
  | frozen
  | counterpartyBlocked (dest : AccountId)
  | spendLimitExceeded (limit windowSpent attempted : Balance)
  | overflow
deriving DecidableEq

namespace ComplianceError

def message : ComplianceError → String
  | frozen => "account is frozen: outgoing transfers are blocked"
  | counterpartyBlocked dest =>
    "counterparty " ++ dest.raw ++ " is not permitted by the account's transfer control"
  | spendLimitExceeded limit windowSpent attempted =>
    "spend limit exceeded: limit " ++ toString limit.toNat ++ ", already spent " ++
      toString windowSpent.toNat ++ ", attempted " ++ toString attempted.toNat ++
      " (grains) this window"
  | overflow => "spend accounting overflow"

end ComplianceError

namespace CompliancePolicy

/-- Decide whether `amount` may go to `dest` at `height`; on approval, the window to persist. -/
def checkTransfer (policy : CompliancePolicy) (dest : AccountId) (amount : Balance) (height : U64)
    (window : SpendWindow) : Except ComplianceError SpendWindow :=
  if policy.frozen then .error .frozen
  else if !policy.transferControl.permits dest then .error (.counterpartyBlocked dest)
  else match policy.spendLimit with
  | none => .ok window
  | some limit =>
    -- The window rolls over once `windowBlocks` have elapsed.
    let base : SpendWindow :=
      if limit.windowBlocks.toNat ≤ (height.saturatingSub window.windowStart).toNat then
        { windowStart := height, spent := 0 }
      else window
    match base.spent.checkedAdd amount with
    | none => .error .overflow
    | some newSpent =>
      if limit.maxPerWindow.toNat < newSpent.toNat then
        .error (.spendLimitExceeded limit.maxPerWindow base.spent amount)
      else .ok { windowStart := base.windowStart, spent := newSpent }

def codec : Codec CompliancePolicy :=
  (Codec.bool.pair (TransferControl.codec.pair
    (((Codec.uint 16).pair (Codec.uint 8)).iso (fun l : SpendLimit => (l.maxPerWindow, l.windowBlocks))
      (fun p => ⟨p.1, p.2⟩) (fun _ => rfl) fun _ => rfl).option)).iso
    (fun p => (p.frozen, p.transferControl, p.spendLimit)) (fun p => ⟨p.1, p.2.1, p.2.2⟩)
    (fun _ => rfl) fun _ => rfl

end CompliancePolicy

/-- Native coin or an on-chain asset. -/
inductive Asset where
  | sov
  | token (id : Hash)
deriving DecidableEq

namespace Asset

def codec : Codec Asset :=
  (Codec.unit.sum (Codec.array 32)).iso
    (fun | sov => .inl () | token h => .inr h) (fun | .inl _ => sov | .inr h => token h)
    (by rintro (_ | _) <;> rfl) (by rintro (_ | _) <;> rfl)

theorem codec_fits (a : Asset) : codec.Fits a := by cases a <;> exact trivial

end Asset

/-- An owner's offer: give `giveAmount` of one asset for at least `minReceive` of another. -/
structure Intent where
  owner : AccountId
  publicKey : PublicKey
  nonce : U64
  giveAsset : Asset
  giveAmount : U128
  wantAsset : Asset
  minReceive : U128
  expiryHeight : U64
deriving DecidableEq

/-- An intent with its owner's signature. -/
structure SignedIntent where
  intent : Intent
  signature : Signature
deriving DecidableEq

/-- A solver's fill of an intent. -/
structure Settlement where
  intent : SignedIntent
  solver : AccountId
  deliverAmount : U128
deriving DecidableEq

namespace Intent
open Codec

def codec : Codec Intent :=
  (AccountId.codec.pair (PublicKey.codec.pair ((uint 8).pair (Asset.codec.pair ((uint 16).pair
    (Asset.codec.pair ((uint 16).pair (uint 8)))))))).iso
    (fun i => (i.owner, i.publicKey, i.nonce, i.giveAsset, i.giveAmount, i.wantAsset, i.minReceive,
      i.expiryHeight))
    (fun ⟨o, k, n, ga, g, wa, m, e⟩ => ⟨o, k, n, ga, g, wa, m, e⟩) (fun _ => rfl) fun _ => rfl

/-- The Borsh encoding. -/
def signingBytes (i : Intent) : Bytes := codec.encode i

def signingDomainTag : Bytes := strBytes "sov:intent:v1"

def signingBytesIn (i : Intent) (domain : Option SigningDomain) : Bytes :=
  match domain with
  | none => i.signingBytes
  | some d => d.frame signingDomainTag i.signingBytes

def id (C : Crypto) (i : Intent) : Hash := C.digest i.signingBytes

end Intent

namespace SignedIntent

def codec : Codec SignedIntent :=
  (Intent.codec.pair Signature.codec).iso (fun i => (i.intent, i.signature)) (fun p => ⟨p.1, p.2⟩)
    (fun _ => rfl) fun _ => rfl

def verifyIn (C : Crypto) (i : SignedIntent) (domain : Option SigningDomain) : Bool :=
  i.intent.publicKey.verify C (i.intent.signingBytesIn domain) i.signature

def verifyMode (C : Crypto) (i : SignedIntent) (mode : TxDomainMode) : Bool :=
  mode.verifies (i.verifyIn C)

end SignedIntent

namespace Settlement

def codec : Codec Settlement :=
  (SignedIntent.codec.pair (AccountId.codec.pair (Codec.uint 16))).iso
    (fun s => (s.intent, s.solver, s.deliverAmount)) (fun p => ⟨p.1, p.2.1, p.2.2⟩)
    (fun _ => rfl) fun _ => rfl

end Settlement
end Sov
