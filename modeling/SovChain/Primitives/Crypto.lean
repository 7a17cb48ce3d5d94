import SovChain.Primitives.Account

/-!
# `sov-crypto` and the signing domain

The hash functions and signature schemes come from third-party crates; `Crypto` collects them as
parameters. What the repository adds is modelled: the versioned keys and signatures with their scheme
check, the implicit account id of a key, and the framing that binds a signature to a network.
-/

namespace Sov
open Codec (strBytes)

/-- The third-party primitives: BLAKE3, SHA-256, strict Ed25519, ML-DSA-65, and the roots of the two
shielded pools' note-commitment trees (as functions of the leaves in append order). -/
structure Crypto where
  digest : Bytes → Hash
  sha256 : Bytes → Hash
  verifyEd25519 : FixedBytes 32 → Bytes → FixedBytes 64 → Bool
  verifyMlDsa65 : FixedBytes 1952 → Bytes → FixedBytes 3309 → Bool
  orchardRoot : List Hash → Hash
  pqRoot : List Hash → Hash

/-- The digest has no collision between the byte strings in `S`. -/
def Crypto.CollisionFree (C : Crypto) (S : Bytes → Prop) : Prop :=
  ∀ p q, S p → S q → C.digest p = C.digest q → p = q

theorem Crypto.CollisionFree.mono {C : Crypto} {S S' : Bytes → Prop} (h : C.CollisionFree S)
    (hS : ∀ p, S' p → S p) : C.CollisionFree S' := fun p q hp hq => h p q (hS p hp) (hS q hq)

/-- A versioned public key. -/
inductive PublicKey where
  | v1Ed25519 (key : FixedBytes 32)
  | v2HybridMlDsa65 (ed25519 : FixedBytes 32) (mlDsa : FixedBytes 1952)
deriving DecidableEq

/-- A versioned signature. -/
inductive Signature where
  | v1Ed25519 (sig : FixedBytes 64)
  | v2HybridMlDsa65 (ed25519 : FixedBytes 64) (mlDsa : FixedBytes 3309)
deriving DecidableEq

namespace Signature

def toSum : Signature → FixedBytes 64 ⊕ (FixedBytes 64 × FixedBytes 3309)
  | v1Ed25519 s => .inl s
  | v2HybridMlDsa65 e m => .inr (e, m)

def ofSum : FixedBytes 64 ⊕ (FixedBytes 64 × FixedBytes 3309) → Signature
  | .inl s => v1Ed25519 s
  | .inr (e, m) => v2HybridMlDsa65 e m

def codec : Codec Signature :=
  ((Codec.array 64).sum ((Codec.array 64).pair (Codec.array 3309))).iso toSum ofSum
    (by rintro (_ | _) <;> rfl) (by rintro (_ | _) <;> rfl)

end Signature

namespace PublicKey

def toSum : PublicKey → FixedBytes 32 ⊕ (FixedBytes 32 × FixedBytes 1952)
  | v1Ed25519 k => .inl k
  | v2HybridMlDsa65 e m => .inr (e, m)

def ofSum : FixedBytes 32 ⊕ (FixedBytes 32 × FixedBytes 1952) → PublicKey
  | .inl k => v1Ed25519 k
  | .inr (e, m) => v2HybridMlDsa65 e m

def codec : Codec PublicKey :=
  ((Codec.array 32).sum ((Codec.array 32).pair (Codec.array 1952))).iso toSum ofSum
    (by rintro (_ | _) <;> rfl) (by rintro (_ | _) <;> rfl)

theorem codec_fits (pk : PublicKey) : codec.Fits pk := by
  cases pk with
  | v1Ed25519 k => exact trivial
  | v2HybridMlDsa65 e m => exact ⟨trivial, trivial⟩

/-- A signature verifies only under a key of its own scheme, and a hybrid one only if both parts
do. -/
def verify (C : Crypto) : PublicKey → Bytes → Signature → Bool
  | v1Ed25519 k, msg, .v1Ed25519 s => C.verifyEd25519 k msg s
  | v2HybridMlDsa65 e m, msg, .v2HybridMlDsa65 es ms =>
    C.verifyEd25519 e msg es && C.verifyMlDsa65 m msg ms
  | _, _, _ => false

/-- The account id bound to a key: the hex of the digest of its encoding. -/
def implicitAccountId (C : Crypto) (pk : PublicKey) : AccountId :=
  ⟨(C.digest (codec.encode pk)).toHex⟩

end PublicKey

/-- The network a signature is bound to. -/
structure SigningDomain where
  chainId : String
  genesis : Hash
deriving DecidableEq

namespace SigningDomain

/-- `tag ‖ 0 ‖ chain_id ‖ 0 ‖ genesis ‖ body`. -/
def frame (d : SigningDomain) (tag body : Bytes) : Bytes :=
  tag ++ [0] ++ strBytes d.chainId ++ [0] ++ d.genesis.bytes ++ body

theorem frame_inj_body {d : SigningDomain} {tag b b' : Bytes} (h : d.frame tag b = d.frame tag b') : b = b' :=
  List.append_cancel_left h

end SigningDomain

/-- The signature regime of a block: the bare message, either message, or the bound one only. -/
inductive TxDomainMode where
  | legacy
  | grace (d : SigningDomain)
  | bound (d : SigningDomain)
deriving DecidableEq

namespace TxDomainMode

/-- Run a check under the messages the mode accepts. -/
def verifies (mode : TxDomainMode) (verify : Option SigningDomain → Bool) : Bool :=
  match mode with
  | legacy => verify none
  | grace d => verify (some d) || verify none
  | bound d => verify (some d)

end TxDomainMode
end Sov
