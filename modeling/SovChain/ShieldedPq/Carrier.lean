import SovChain.ShieldedPq.Wire

/-!
# `sov-shielded-pq`: what an authorization is bound to

The signature of a bundle is over a digest of the network, the carrying transaction and the digest of the bundle. Both
digests are taken over bytes from which every field can be read back (`bundlePreimage_inj`, `carrierPreimage_inj`), so that
without a collision the message determines them. The proof is not among the fields.
-/

namespace Sov
open List (append_assoc mem_finRange)
namespace Wire
open Codec (leBytes strBytes)
open ByteReader (flagByte)

def b3BundleDigest : String := "sov-shielded-pq:bundle:v2"

def b3CarrierBinding : String := "sov-shielded-pq:carrier-binding:v2"

def schemeDomainSignerNonce : UInt8 := 2

/-- The network and the transaction an authorization is bound to. No slice of bytes is longer than its length counter. -/
structure CarrierContext where
  chainId : Bytes
  genesis : Hash
  signer : Bytes
  nonce : U64
  chainId_lt : chainId.length < 2 ^ 64
  signer_lt : signer.length < 2 ^ 64
deriving DecidableEq

/-! ## The digests -/

section Digests

/-- What is hashed for an input slot. -/
def inputBytes (p : BundlePublicInputs) (i : Fin numSlots) : Bytes :=
  (p.anchors.get i).bytes ++ ((p.nullifiers.get i).bytes ++ [flagByte (p.inputDummy.get i)])

/-- What is hashed for a ciphertext, or for its absence. -/
def ciphertextBytes : Option NoteCiphertext → Bytes
  | some ct => 1 :: (ct.kemCt.bytes ++ (ct.detectionTag.bytes ++ (leBytes 8 ct.aeadCt.length ++ ct.aeadCt)))
  | none => [0]

/-- What is hashed for an output slot. -/
def outputBytes (p : BundlePublicInputs) (cts : List.Vector (Option NoteCiphertext) numSlots) (j : Fin numSlots) : Bytes :=
  (p.outputCommitments.get j).bytes ++ (flagByte (p.outputDummy.get j) :: ciphertextBytes (cts.get j))

def bundlePreimage (p : BundlePublicInputs) (cts : List.Vector (Option NoteCiphertext) numSlots)
    (authPk : FixedBytes 1952) : Bytes :=
  (List.finRange numSlots).flatMap (inputBytes p) ++ ((List.finRange numSlots).flatMap (outputBytes p cts) ++
    (leBytes 8 p.transparentIn.toNat ++ (leBytes 8 p.transparentOut.toNat ++ (leBytes 8 p.feeGrains.toNat ++
      (leBytes 8 1952 ++ authPk.bytes)))))

def carrierPreimage (digest : Hash) (ctx : CarrierContext) : Bytes :=
  schemeDomainSignerNonce :: (leBytes 8 ctx.chainId.length ++ (ctx.chainId ++ (ctx.genesis.bytes ++
    (leBytes 8 ctx.signer.length ++ (ctx.signer ++ (leBytes 8 ctx.nonce.toNat ++ digest.bytes))))))

-- The keyed hash of another library: the context string, then the bytes.
variable (deriveKey : String → Bytes → Hash)

def bundleDigest (p : BundlePublicInputs) (cts : List.Vector (Option NoteCiphertext) numSlots)
    (authPk : FixedBytes 1952) : Hash :=
  deriveKey b3BundleDigest (bundlePreimage p cts authPk)

def carrierSighash (digest : Hash) (ctx : CarrierContext) : Hash :=
  deriveKey b3CarrierBinding (carrierPreimage digest ctx)

def authorizationMessage (b : SpendBundle) (ctx : CarrierContext) : Hash :=
  carrierSighash deriveKey (bundleDigest deriveKey b.publicInputs b.outputCiphertexts b.authPk) ctx

/-- `verify_carrier_auth`; `verifyAuth` is the signature scheme. -/
def verifyCarrierAuth (verifyAuth : FixedBytes 1952 → Hash → FixedBytes 3309 → Bool) (b : SpendBundle)
    (ctx : CarrierContext) : Bool :=
  verifyAuth b.authPk (authorizationMessage deriveKey b ctx) b.authSig

end Digests

/-! ## Reading the fields back -/

section Injectivity
variable {p p' : BundlePublicInputs} {cts cts' : List.Vector (Option NoteCiphertext) numSlots}
  {authPk authPk' : FixedBytes 1952} {digest digest' : Hash} {ctx ctx' : CarrierContext} {r r' : Bytes}

theorem bytes_append_inj {n : ℕ} {a a' : FixedBytes n} (h : a.bytes ++ r = a'.bytes ++ r') : a = a' ∧ r = r' :=
  (Codec.array n).encode_append_inj trivial trivial h

theorem uint_append_inj {v v' : U64} (h : leBytes 8 v.toNat ++ r = leBytes 8 v'.toNat ++ r') : v = v' ∧ r = r' :=
  (Codec.uint 8).encode_append_inj trivial trivial h

theorem flagByte_inj {a a' : Bool} (h : flagByte a = flagByte a') : a = a' := by
  revert a a'
  decide

theorem slice_append_inj {x x' : Bytes} (hx : x.length < 2 ^ 64) (hx' : x'.length < 2 ^ 64)
    (h : leBytes 8 x.length ++ (x ++ r) = leBytes 8 x'.length ++ (x' ++ r')) : x = x' ∧ r = r' := by
  obtain ⟨hlen, hrest⟩ := List.append_inj h (by rw [Codec.length_leBytes, Codec.length_leBytes])
  have hlength : x.length = x'.length := by
    rw [← Codec.ofLeBytes_leBytes 8 x.length hx, hlen, Codec.ofLeBytes_leBytes 8 x'.length hx']
  exact List.append_inj hrest hlength

theorem ciphertextBytes_append_inj {c c' : Option NoteCiphertext} (hc : ∀ ct ∈ c, ct.aeadCt.length < 2 ^ 64)
    (hc' : ∀ ct ∈ c', ct.aeadCt.length < 2 ^ 64) (h : ciphertextBytes c ++ r = ciphertextBytes c' ++ r') :
    c = c' ∧ r = r' := by
  rcases c with _ | ct
  · rcases c' with _ | ct'
    · exact ⟨rfl, (List.cons.inj h).2⟩
    · exact absurd (List.cons.inj h).1 (by decide)
  rcases c' with _ | ct'
  · exact absurd (List.cons.inj h).1 (by decide)
  rw [ciphertextBytes, ciphertextBytes, List.cons_append, List.cons_append] at h
  have hfields := (List.cons.inj h).2
  simp only [append_assoc] at hfields
  obtain ⟨hkem, hfields⟩ := bytes_append_inj hfields
  obtain ⟨htag, hfields⟩ := bytes_append_inj hfields
  obtain ⟨haead, hr⟩ := slice_append_inj (hc ct rfl) (hc' ct' rfl) hfields
  refine ⟨?_, hr⟩
  rw [Option.some_inj, NoteCiphertext.mk.injEq]
  exact ⟨hkem, htag, haead⟩

theorem inputBytes_append_inj {i : Fin numSlots} (h : inputBytes p i ++ r = inputBytes p' i ++ r') :
    (p.anchors.get i = p'.anchors.get i ∧ p.nullifiers.get i = p'.nullifiers.get i ∧
      p.inputDummy.get i = p'.inputDummy.get i) ∧ r = r' := by
  unfold inputBytes at h
  rw [append_assoc, append_assoc, append_assoc, append_assoc] at h
  obtain ⟨hanchor, h⟩ := bytes_append_inj h
  obtain ⟨hnullifier, h⟩ := bytes_append_inj h
  obtain ⟨hdummy, hr⟩ := List.cons.inj h
  exact ⟨⟨hanchor, hnullifier, flagByte_inj hdummy⟩, hr⟩

theorem outputBytes_append_inj {j : Fin numSlots} (hcts : ∀ ct ∈ cts.get j, ct.aeadCt.length < 2 ^ 64)
    (hcts' : ∀ ct ∈ cts'.get j, ct.aeadCt.length < 2 ^ 64)
    (h : outputBytes p cts j ++ r = outputBytes p' cts' j ++ r') :
    (p.outputCommitments.get j = p'.outputCommitments.get j ∧ p.outputDummy.get j = p'.outputDummy.get j ∧
      cts.get j = cts'.get j) ∧ r = r' := by
  unfold outputBytes at h
  rw [append_assoc, append_assoc] at h
  obtain ⟨hcommitment, h⟩ := bytes_append_inj h
  obtain ⟨hdummy, h⟩ := List.cons.inj h
  obtain ⟨hct, hr⟩ := ciphertextBytes_append_inj hcts hcts' h
  exact ⟨⟨hcommitment, flagByte_inj hdummy, hct⟩, hr⟩

/-- Slot after slot, when each slot can be told from what follows it. -/
theorem flatMap_append_inj {ι : Type} {P : ι → Prop} {f g : ι → Bytes} {slots : List ι}
    (hslot : ∀ i r r', f i ++ r = g i ++ r' → P i ∧ r = r') (h : slots.flatMap f ++ r = slots.flatMap g ++ r') :
    (∀ i ∈ slots, P i) ∧ r = r' := by
  induction slots with
  | nil => exact ⟨fun i hi => absurd hi List.not_mem_nil, h⟩
  | cons i rest ih =>
    rw [List.flatMap_cons, List.flatMap_cons, append_assoc, append_assoc] at h
    obtain ⟨hi, hrest⟩ := hslot i _ _ h
    obtain ⟨hall, hr⟩ := ih hrest
    refine ⟨fun j hj => ?_, hr⟩
    rcases List.mem_cons.mp hj with rfl | hj
    · exact hi
    · exact hall j hj

theorem bundlePreimage_inj (hcts : ∀ j, ∀ ct ∈ cts.get j, ct.aeadCt.length < 2 ^ 64)
    (hcts' : ∀ j, ∀ ct ∈ cts'.get j, ct.aeadCt.length < 2 ^ 64)
    (h : bundlePreimage p cts authPk = bundlePreimage p' cts' authPk') : p = p' ∧ cts = cts' ∧ authPk = authPk' := by
  unfold bundlePreimage at h
  obtain ⟨hinputs, h⟩ := flatMap_append_inj (fun i r r' => inputBytes_append_inj) h
  obtain ⟨houtputs, h⟩ := flatMap_append_inj (fun j r r' => outputBytes_append_inj (hcts j) (hcts' j)) h
  obtain ⟨hin, h⟩ := uint_append_inj h
  obtain ⟨hout, h⟩ := uint_append_inj h
  obtain ⟨hfee, h⟩ := uint_append_inj h
  have hkey := FixedBytes.bytes_injective (List.append_cancel_left h)
  refine ⟨?_, List.Vector.ext fun j => (houtputs j (mem_finRange j)).2.2, hkey⟩
  rw [BundlePublicInputs.mk.injEq]
  exact ⟨List.Vector.ext fun i => (hinputs i (mem_finRange i)).1,
    List.Vector.ext fun i => (hinputs i (mem_finRange i)).2.1,
    List.Vector.ext fun i => (hinputs i (mem_finRange i)).2.2,
    List.Vector.ext fun j => (houtputs j (mem_finRange j)).1,
    List.Vector.ext fun j => (houtputs j (mem_finRange j)).2.1, hin, hout, hfee⟩

theorem carrierPreimage_inj (h : carrierPreimage digest ctx = carrierPreimage digest' ctx') :
    digest = digest' ∧ ctx = ctx' := by
  obtain ⟨hchain, h⟩ := slice_append_inj ctx.chainId_lt ctx'.chainId_lt (List.cons.inj h).2
  obtain ⟨hgenesis, h⟩ := bytes_append_inj h
  obtain ⟨hsigner, h⟩ := slice_append_inj ctx.signer_lt ctx'.signer_lt h
  obtain ⟨hnonce, h⟩ := uint_append_inj h
  refine ⟨FixedBytes.bytes_injective h, ?_⟩
  rw [CarrierContext.mk.injEq]
  exact ⟨hchain, hgenesis, hsigner, hnonce⟩

end Injectivity

/-! ## The binding -/

section Binding

/-- No two byte strings of `S` have one digest under one context string. -/
def CollisionFree (deriveKey : String → Bytes → Hash) (S : String → Bytes → Prop) : Prop :=
  ∀ context x y, S context x → S context y → deriveKey context x = deriveKey context y → x = y

/-- What is hashed for the message of a bundle is in `S`, and its ciphertexts are slices of bytes. -/
structure Hashed (deriveKey : String → Bytes → Hash) (S : String → Bytes → Prop) (b : SpendBundle) (ctx : CarrierContext) :
    Prop where
  bundle : S b3BundleDigest (bundlePreimage b.publicInputs b.outputCiphertexts b.authPk)
  carrier : S b3CarrierBinding
    (carrierPreimage (bundleDigest deriveKey b.publicInputs b.outputCiphertexts b.authPk) ctx)
  slices : ∀ j, ∀ ct ∈ b.outputCiphertexts.get j, ct.aeadCt.length < 2 ^ 64

/-- The runtime's context for the transaction that carries a bundle. -/
structure CarrierContext.Of (ctx : CarrierContext) (carrier : Carrier) : Prop where
  chainId : ctx.chainId = strBytes carrier.domain.chainId
  genesis : ctx.genesis = carrier.domain.genesis
  signer : ctx.signer = strBytes carrier.signer.raw
  nonce : ctx.nonce = carrier.nonce

theorem CarrierContext.Of.eq {ctx : CarrierContext} {c c' : Carrier} (h : ctx.Of c) (h' : ctx.Of c') : c = c' := by
  obtain ⟨⟨chainId, genesis⟩, ⟨signer⟩, nonce⟩ := c
  obtain ⟨⟨chainId', genesis'⟩, ⟨signer'⟩, nonce'⟩ := c'
  have hchain : chainId = chainId' := Codec.strBytes_injective (h.chainId.symm.trans h'.chainId)
  have hsigner : signer = signer' := Codec.strBytes_injective (h.signer.symm.trans h'.signer)
  have hgenesis : genesis = genesis' := h.genesis.symm.trans h'.genesis
  have hnonce : nonce = nonce' := h.nonce.symm.trans h'.nonce
  rw [hchain, hsigner, hgenesis, hnonce]

/-- Without a collision the message determines the network, the transaction and every field of the bundle but its proof and
its signature, and nothing else enters it; and so it determines the transaction the runtime made the context from. -/
theorem authorizationMessage_binds (deriveKey : String → Bytes → Hash) (S : String → Bytes → Prop)
    (hfree : CollisionFree deriveKey S) (b b' : SpendBundle) (ctx ctx' : CarrierContext)
    (hb : Hashed deriveKey S b ctx) (hb' : Hashed deriveKey S b' ctx') :
    (authorizationMessage deriveKey b ctx = authorizationMessage deriveKey b' ctx' ↔
      ctx = ctx' ∧ b.publicInputs = b'.publicInputs ∧ b.outputCiphertexts = b'.outputCiphertexts ∧
        b.authPk = b'.authPk) ∧ (authorizationMessage deriveKey b ctx = authorizationMessage deriveKey b' ctx' →
        ∀ carrier carrier', ctx.Of carrier → ctx'.Of carrier' → carrier = carrier') := by
  have hiff : authorizationMessage deriveKey b ctx = authorizationMessage deriveKey b' ctx' ↔
      ctx = ctx' ∧ b.publicInputs = b'.publicInputs ∧ b.outputCiphertexts = b'.outputCiphertexts ∧
        b.authPk = b'.authPk := by
    constructor
    · intro h
      obtain ⟨hdigest, hctx⟩ := carrierPreimage_inj (hfree _ _ _ hb.carrier hb'.carrier h)
      exact ⟨hctx, bundlePreimage_inj hb.slices hb'.slices (hfree _ _ _ hb.bundle hb'.bundle hdigest)⟩
    · rintro ⟨rfl, hinputs, hcts, hkey⟩
      rw [authorizationMessage, authorizationMessage, hinputs, hcts, hkey]
  refine ⟨hiff, fun h carrier carrier' hc hc' => ?_⟩
  obtain ⟨rfl, -⟩ := hiff.mp h
  exact hc.eq hc'

/-- The transaction of a signer with a nonce. -/
def sampleCarrier (nonce : U64) : CarrierContext where
  chainId := [115, 111, 118]
  genesis := Hash.zero
  signer := [97, 108, 105, 99, 101]
  nonce := nonce
  chainId_lt := by decide
  signer_lt := by decide

/-- Two bundles that differ in their proofs have one message, whatever the hash. -/
theorem message_ignores_proof : ∃ b b' : SpendBundle, b.proofBytes ≠ b'.proofBytes ∧
    ∀ deriveKey, authorizationMessage deriveKey b (sampleCarrier 0) = authorizationMessage deriveKey b' (sampleCarrier 0) :=
  ⟨anchoredBundle Hash.zero, { anchoredBundle Hash.zero with proofBytes := [8] }, by decide, fun _ => rfl⟩

/-- The byte of the nonce, as a digest that tells the carriers of two nonces apart. -/
def nonceKey (_ : String) (x : Bytes) : Hash := FixedBytes.pad 32 [x.getD 57 0]

/-- The messages of one bundle in the transactions of two nonces differ. -/
theorem message_moves_with_nonce : authorizationMessage nonceKey (anchoredBundle Hash.zero) (sampleCarrier 0) ≠
      authorizationMessage nonceKey (anchoredBundle Hash.zero) (sampleCarrier 1) := by
  intro h
  generalize hb : anchoredBundle Hash.zero = b at h
  let digest := bundleDigest nonceKey b.publicInputs b.outputCiphertexts b.authPk
  let S : String → Bytes → Prop := fun context x =>
    context = b3BundleDigest ∧ x = bundlePreimage b.publicInputs b.outputCiphertexts b.authPk ∨
      context = b3CarrierBinding ∧
        (x = carrierPreimage digest (sampleCarrier 0) ∨ x = carrierPreimage digest (sampleCarrier 1))
  have hslices : ∀ j, ∀ ct ∈ b.outputCiphertexts.get j, ct.aeadCt.length < 2 ^ 64 := by
    intro j ct hct
    have hnone : ∀ j, (anchoredBundle Hash.zero).outputCiphertexts.get j = none := by decide
    rw [← hb, hnone j] at hct
    cases hct
  have hapart : ∀ d, nonceKey b3CarrierBinding (carrierPreimage d (sampleCarrier 0)) ≠
      nonceKey b3CarrierBinding (carrierPreimage d (sampleCarrier 1)) := by
    intro d
    change FixedBytes.pad 32 [0] ≠ FixedBytes.pad 32 [1]
    decide
  have hfree : CollisionFree nonceKey S := by
    rintro context x y (⟨rfl, rfl⟩ | ⟨rfl, hx⟩) (⟨hcontext, rfl⟩ | ⟨hcontext, hy⟩) heq
    · rfl
    · exact absurd hcontext (by decide)
    · exact absurd hcontext (by decide)
    rcases hx with rfl | rfl
    · rcases hy with rfl | rfl
      · rfl
      · exact absurd heq (hapart digest)
    · rcases hy with rfl | rfl
      · exact absurd heq.symm (hapart digest)
      · rfl
  obtain ⟨hctx, -⟩ := (authorizationMessage_binds nonceKey S hfree b b (sampleCarrier 0) (sampleCarrier 1)
    ⟨.inl ⟨rfl, rfl⟩, .inr ⟨rfl, .inl rfl⟩, hslices⟩ ⟨.inl ⟨rfl, rfl⟩, .inr ⟨rfl, .inr rfl⟩, hslices⟩).1.mp h
  exact absurd hctx (by decide)

end Binding
end Wire
end Sov
