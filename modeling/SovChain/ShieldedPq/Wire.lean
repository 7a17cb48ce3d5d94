import SovChain.Lib.ByteReader
import SovChain.Runtime.Context

/-!
# `sov-shielded-pq`: the wire format of bundles

A bundle starts with the version of its proof, which selects the decoder. The decoders are readers of one canonical format
(`reads_bundle`) up to the bound on the proof and the check of its frame; the two frame checks, which follow the layout of
proofs of other libraries, are parameters.
-/

namespace Sov
namespace Wire
open Codec (leBytes)
open ShieldedV2State (isCanonical)

def numSlots : ℕ := 4

def proofVersionV1 : UInt8 := 1

def proofVersionV2 : UInt8 := 2

def aeadCtLen : ℕ := 88

def maxProofLen : ℕ := 128 * 1024

def maxCandidateProofBytes : ℕ := 2 * 1024 * 1024

/-- Why an encoding is refused. -/
inductive Error where
  | unexpectedEnd (field : String)
  | unknownProofVersion (version : UInt8)
  | invalidFlag (field : String) (value : UInt8)
  | nonCanonicalDigest (field : String)
  | proofLength (declared : U32)
  | ciphertextLength (declared : BitVec 16)
  | proofFrame (reason : String)
  | suite2ProofFrame (reason : String)
  | trailingBytes (count : ℕ)
deriving DecidableEq

/-- A byte as `0x` and two digits. -/
def hexByte (b : UInt8) : String :=
  "0x" ++ String.ofList [Nat.digitChar (b.toNat / 16), Nat.digitChar (b.toNat % 16)]

def Error.message : Error → String
  | unexpectedEnd field => "unexpected end of input (in " ++ field ++ ")"
  | unknownProofVersion version =>
    "unknown proof_version " ++ toString version.toNat ++ " (this build understands only version 1)"
  | invalidFlag field value => "invalid flag byte " ++ hexByte value ++ " in " ++ field ++ " (must be 0 or 1)"
  | nonCanonicalDigest field => "non-canonical digest encoding in " ++ field
  | proofLength declared => "declared proof length " ++ toString declared.toNat ++ " outside 1..=131072"
  | ciphertextLength declared => "declared ciphertext length " ++ toString declared.toNat ++ " != 88"
  | proofFrame reason => "malformed proof frame: " ++ reason
  | suite2ProofFrame reason => "malformed suite-2 proof frame: " ++ reason
  | trailingBytes count => toString count ++ " trailing bytes after the bundle"

/-! ## Bundles -/

/-- The public inputs of a bundle's proof. A digest is its four limbs, as 32 bytes. -/
structure BundlePublicInputs where
  anchors : List.Vector Hash numSlots
  nullifiers : List.Vector Hash numSlots
  inputDummy : List.Vector Bool numSlots
  outputCommitments : List.Vector Hash numSlots
  outputDummy : List.Vector Bool numSlots
  transparentIn : U64
  transparentOut : U64
  feeGrains : U64
deriving DecidableEq

structure NoteCiphertext where
  kemCt : FixedBytes 1088
  detectionTag : FixedBytes 4
  aeadCt : Bytes
deriving DecidableEq

structure SpendBundle where
  publicInputs : BundlePublicInputs
  proofBytes : Bytes
  outputCiphertexts : List.Vector (Option NoteCiphertext) numSlots
  authPk : FixedBytes 1952
  authSig : FixedBytes 3309
deriving DecidableEq

/-- The frame checks of the two suites, and whether the build has the second. -/
structure Frames where
  zkSuite2 : Bool
  validateProofFrame : Bytes → BundlePublicInputs → Except String Unit
  validateSuite2Frame : Bytes → Except String Unit

/-! ## Decoding -/

section Decoding
open ByteReader (bytes array u8 uint flag ensure check vector optional)

def readFlag (field : String) : ByteReader Error Bool := flag (.unexpectedEnd field) (.invalidFlag field)

def readDigest (field : String) : ByteReader Error Hash := do
  let raw ← array 32 (.unexpectedEnd field)
  ensure (isCanonical raw) (.nonCanonicalDigest field)
  return raw

def readPublicInputs : ByteReader Error BundlePublicInputs := do
  let anchors ← vector (readDigest "anchor") numSlots
  let nullifiers ← vector (readDigest "nullifier") numSlots
  let inputDummy ← vector (readFlag "input_dummy") numSlots
  let outputCommitments ← vector (readDigest "output_commitment") numSlots
  let outputDummy ← vector (readFlag "output_dummy") numSlots
  let transparentIn ← uint 8 (.unexpectedEnd "transparent_in")
  let transparentOut ← uint 8 (.unexpectedEnd "transparent_out")
  let feeGrains ← uint 8 (.unexpectedEnd "fee_grains")
  return ⟨anchors, nullifiers, inputDummy, outputCommitments, outputDummy, transparentIn, transparentOut, feeGrains⟩

/-- A ciphertext after its presence flag. -/
def decodeCiphertextFields : ByteReader Error NoteCiphertext := do
  let kemCt ← array 1088 (.unexpectedEnd "kem_ct")
  let detectionTag ← array 4 (.unexpectedEnd "detection_tag")
  let aeadLen ← uint 2 (.unexpectedEnd "aead_len")
  ensure (aeadLen.toNat = aeadCtLen) (.ciphertextLength aeadLen)
  let aeadCt ← bytes aeadCtLen (.unexpectedEnd "aead_ct")
  return ⟨kemCt, detectionTag, aeadCt⟩

variable (W : Frames)

/-- The longest proof of a version. -/
def Frames.maxProofLen (version : UInt8) : ℕ :=
  if W.zkSuite2 && version = proofVersionV2 then maxCandidateProofBytes else Wire.maxProofLen

/-- The frame check of a version. -/
def Frames.validate (version : UInt8) (publicInputs : BundlePublicInputs) (proof : Bytes) : Except Error Unit := do
  if version = proofVersionV1 then (W.validateProofFrame proof publicInputs).mapError .proofFrame
  else if W.zkSuite2 && version = proofVersionV2 then (W.validateSuite2Frame proof).mapError .suite2ProofFrame
  else .ok ()

def readBundle (expectedVersion : UInt8) : ByteReader Error SpendBundle := do
  let version ← u8 (.unexpectedEnd "proof_version")
  ensure (version = expectedVersion) (.unknownProofVersion version)
  let publicInputs ← readPublicInputs
  let proofLen ← uint 4 (.unexpectedEnd "proof_len")
  -- The length is bounded before anything is read.
  ensure (proofLen ≠ 0 ∧ proofLen.toNat ≤ W.maxProofLen version) (.proofLength proofLen)
  let proofBytes ← bytes proofLen.toNat (.unexpectedEnd "proof")
  check (W.validate version publicInputs proofBytes)
  let outputCiphertexts ← vector (optional (readFlag "ciphertext present") decodeCiphertextFields) numSlots
  let authPk ← array 1952 (.unexpectedEnd "auth_pk")
  let authSig ← array 3309 (.unexpectedEnd "auth_sig")
  return ⟨publicInputs, proofBytes, outputCiphertexts, authPk, authSig⟩

def decodeBundleInner (data : Bytes) (expectedVersion : UInt8) : Except Error SpendBundle :=
  (readBundle W expectedVersion).runAll .trailingBytes data

/-- The versions the build has a decoder for. -/
def Frames.supports (version : UInt8) : Bool :=
  version = proofVersionV1 || W.zkSuite2 && version = proofVersionV2

def decodeBundleForSuite (version : UInt8) (data : Bytes) : Except Error SpendBundle :=
  if !W.supports version then .error (.unknownProofVersion version) else decodeBundleInner W data version

/-- Read only the inputs of a bundle, of either version. -/
def readInputNullifiers : ByteReader Error (List (Hash × Bool)) := do
  let version ← u8 (.unexpectedEnd "proof_version")
  ensure (version = proofVersionV1 ∨ version = proofVersionV2) (.unknownProofVersion version)
  let _ ← vector (readDigest "anchor") numSlots
  let nullifiers ← vector (readDigest "nullifier") numSlots
  let inputDummy ← vector (readFlag "input_dummy") numSlots
  return nullifiers.toList.zip inputDummy.toList

def inputNullifiers (data : Bytes) : Except Error (List (Hash × Bool)) := (readInputNullifiers.run data).map Prod.fst

end Decoding

/-! ## Encoding -/

open ByteReader (flagByte writeOptional)

/-- A length that does not fit its `n` bytes is written as the largest that does. -/
def saturatedLen (n len : ℕ) : Bytes := leBytes n (if len < 256 ^ n then len else 256 ^ n - 1)

def encodePublicInputs (pi : BundlePublicInputs) : Bytes :=
  pi.anchors.toList.flatMap FixedBytes.bytes ++ pi.nullifiers.toList.flatMap FixedBytes.bytes ++
    pi.inputDummy.toList.flatMap (fun f => [flagByte f]) ++ pi.outputCommitments.toList.flatMap FixedBytes.bytes ++
    pi.outputDummy.toList.flatMap (fun f => [flagByte f]) ++ leBytes 8 pi.transparentIn.toNat ++
    leBytes 8 pi.transparentOut.toNat ++ leBytes 8 pi.feeGrains.toNat

def encodeCiphertextFields (ct : NoteCiphertext) : Bytes :=
  ct.kemCt.bytes ++ ct.detectionTag.bytes ++ saturatedLen 2 ct.aeadCt.length ++ ct.aeadCt

/-- What follows the version byte. -/
def encodeBody (b : SpendBundle) : Bytes :=
  encodePublicInputs b.publicInputs ++ saturatedLen 4 b.proofBytes.length ++ b.proofBytes ++
    b.outputCiphertexts.toList.flatMap (writeOptional encodeCiphertextFields) ++ b.authPk.bytes ++ b.authSig.bytes

def encodeBundle (b : SpendBundle) : Bytes := proofVersionV1 :: encodeBody b

/-- Encode a bundle of an explicit suite. The second suite checks the frame, and decodes what it encoded. -/
def encodeBundleForSuite (W : Frames) (version : UInt8) (b : SpendBundle) : Except Error Bytes :=
  if version = proofVersionV1 then .ok (encodeBundle b)
  else if W.zkSuite2 && version = proofVersionV2 then do
    (W.validateSuite2Frame b.proofBytes).mapError .suite2ProofFrame
    let data := (encodeBundle b).set 0 version
    let _ ← decodeBundleForSuite W version data
    return data
  else .error (.unknownProofVersion version)

/-! ## The format -/

section Format
open ByteReader

theorem reads_readFlag (field : String) : Reads (readFlag field) (fun f => [flagByte f]) fun _ => True := reads_flag _ _

theorem reads_readDigest (field : String) :
    Reads (readDigest field) FixedBytes.bytes fun d => isCanonical d = true where
  read {d} rest hd := by
    unfold readDigest
    rw [(reads_array 32 _).run_bind _ trivial]
    exact run_ensure rest hd
  written {x rest d} h := by
    obtain ⟨raw, x, rfl, -, h⟩ := (reads_array 32 _).of_bind h
    obtain ⟨hcanonical, h⟩ := of_ensure h
    obtain ⟨rfl, rfl⟩ := of_pure h
    exact ⟨rfl, hcanonical⟩

/-- Every digest is a canonical field encoding. -/
structure BundlePublicInputs.Canonical (pi : BundlePublicInputs) : Prop where
  anchors : ∀ d ∈ pi.anchors.toList, isCanonical d = true
  nullifiers : ∀ d ∈ pi.nullifiers.toList, isCanonical d = true
  outputCommitments : ∀ d ∈ pi.outputCommitments.toList, isCanonical d = true

theorem reads_readPublicInputs : Reads readPublicInputs encodePublicInputs BundlePublicInputs.Canonical where
  read {pi} rest hpi := by
    unfold readPublicInputs encodePublicInputs
    simp only [List.append_assoc]
    rw [(reads_vector (reads_readDigest "anchor") _).run_bind _ hpi.anchors,
      (reads_vector (reads_readDigest "nullifier") _).run_bind _ hpi.nullifiers,
      (reads_vector (reads_readFlag "input_dummy") _).run_bind _ fun _ _ => trivial,
      (reads_vector (reads_readDigest "output_commitment") _).run_bind _ hpi.outputCommitments,
      (reads_vector (reads_readFlag "output_dummy") _).run_bind _ fun _ _ => trivial,
      (reads_uint 8 _).run_bind _ trivial, (reads_uint 8 _).run_bind _ trivial, (reads_uint 8 _).run_bind rest trivial]
    rfl
  written {x rest pi} h := by
    obtain ⟨anchors, x, rfl, hanchors, h⟩ := (reads_vector (reads_readDigest "anchor") _).of_bind h
    obtain ⟨nullifiers, x, rfl, hnullifiers, h⟩ := (reads_vector (reads_readDigest "nullifier") _).of_bind h
    obtain ⟨inputDummy, x, rfl, -, h⟩ := (reads_vector (reads_readFlag "input_dummy") _).of_bind h
    obtain ⟨outputs, x, rfl, houtputs, h⟩ := (reads_vector (reads_readDigest "output_commitment") _).of_bind h
    obtain ⟨outputDummy, x, rfl, -, h⟩ := (reads_vector (reads_readFlag "output_dummy") _).of_bind h
    obtain ⟨transparentIn, x, rfl, -, h⟩ := (reads_uint 8 _).of_bind h
    obtain ⟨transparentOut, x, rfl, -, h⟩ := (reads_uint 8 _).of_bind h
    obtain ⟨feeGrains, x, rfl, -, h⟩ := (reads_uint 8 _).of_bind h
    obtain ⟨rfl, rfl⟩ := of_pure h
    refine ⟨?_, hanchors, hnullifiers, houtputs⟩
    simp only [encodePublicInputs, List.append_assoc]

theorem saturatedLen_eq {n len : ℕ} (h : len < 256 ^ n) : saturatedLen n len = leBytes n len := by
  rw [saturatedLen, if_pos h]

theorem reads_decodeCiphertextFields :
    Reads decodeCiphertextFields encodeCiphertextFields fun ct => ct.aeadCt.length = aeadCtLen where
  read {ct} rest hct := by
    have hlen : saturatedLen 2 ct.aeadCt.length = leBytes 2 (BitVec.ofNat 16 aeadCtLen).toNat := by
      rw [hct]
      rfl
    unfold decodeCiphertextFields encodeCiphertextFields
    simp only [List.append_assoc]
    rw [(reads_array 1088 _).run_bind _ trivial, (reads_array 4 _).run_bind _ trivial, hlen,
      (reads_uint 2 _).run_bind _ trivial]
    refine (run_ensure _ rfl).trans ?_
    exact (reads_bytes aeadCtLen _).run_bind rest hct
  written {x rest ct} h := by
    obtain ⟨kemCt, x, rfl, -, h⟩ := (reads_array 1088 _).of_bind h
    obtain ⟨detectionTag, x, rfl, -, h⟩ := (reads_array 4 _).of_bind h
    obtain ⟨aeadLen, x, rfl, -, h⟩ := (reads_uint 2 _).of_bind h
    obtain ⟨haead, h⟩ := of_ensure h
    obtain ⟨aeadCt, x, rfl, hlen, h⟩ := (reads_bytes aeadCtLen _).of_bind h
    obtain ⟨rfl, rfl⟩ := of_pure h
    refine ⟨?_, hlen⟩
    have hsaturated : saturatedLen 2 aeadCt.length = leBytes 2 aeadLen.toNat := by
      rw [haead, hlen]
      rfl
    simp only [encodeCiphertextFields, hsaturated, List.append_assoc]

/-- The proof has an admissible length and frame, and every ciphertext has the length of a note. -/
structure SpendBundle.Framed (W : Frames) (version : UInt8) (b : SpendBundle) : Prop where
  proof_pos : 0 < b.proofBytes.length
  proof_le : b.proofBytes.length ≤ W.maxProofLen version
  frame : W.validate version b.publicInputs b.proofBytes = .ok ()
  ciphertexts : ∀ o ∈ b.outputCiphertexts.toList, ∀ ct, o = some ct → ct.aeadCt.length = aeadCtLen

variable {W : Frames} {version : UInt8} {b : SpendBundle}

theorem Frames.maxProofLen_lt : W.maxProofLen version < 2 ^ 32 := by
  unfold Frames.maxProofLen
  split_ifs
  · decide
  · decide

theorem reads_ciphertext (field : String) :
    Reads (optional (readFlag field) decodeCiphertextFields) (writeOptional encodeCiphertextFields)
      fun o => ∀ ct, o = some ct → ct.aeadCt.length = aeadCtLen :=
  reads_optional (reads_readFlag field) reads_decodeCiphertextFields

/-- The decoder of a version accepts exactly the encodings, with that version in front, of the bundles that are framed for
it and have canonical digests. -/
theorem reads_bundle (W : Frames) (version : UInt8) : Reads (readBundle W version) (fun b => version :: encodeBody b)
      fun b => b.publicInputs.Canonical ∧ b.Framed W version where
  read {b} rest hb := by
    obtain ⟨hcanonical, hpos, hle, hframe, hcts⟩ := hb
    have hlt : b.proofBytes.length < 2 ^ 32 := hle.trans_lt Frames.maxProofLen_lt
    have hnat : (BitVec.ofNat 32 b.proofBytes.length).toNat = b.proofBytes.length := by
      rw [BitVec.toNat_ofNat, Nat.mod_eq_of_lt hlt]
    have hne : BitVec.ofNat 32 b.proofBytes.length ≠ 0 := by
      intro hzero
      rw [hzero] at hnat
      exact absurd hnat (Nat.ne_of_lt hpos)
    have hlen : saturatedLen 4 b.proofBytes.length = leBytes 4 (BitVec.ofNat 32 b.proofBytes.length).toNat := by
      rw [saturatedLen_eq hlt, hnat]
    change (readBundle W version).run ([version] ++ (encodeBody b ++ rest)) = _
    unfold readBundle encodeBody
    simp only [List.append_assoc]
    rw [(reads_u8 _).run_bind _ trivial, run_ensure _ rfl, reads_readPublicInputs.run_bind _ hcanonical, hlen,
      (reads_uint 4 _).run_bind _ trivial, run_ensure _ ⟨hne, by rw [hnat]; exact hle⟩,
      (reads_bytes _ _).run_bind _ hnat.symm, run_check _ hframe, (reads_vector (reads_ciphertext _) _).run_bind _ hcts, (reads_array 1952 _).run_bind _ trivial,
      (reads_array 3309 _).run_bind rest trivial]
    rfl
  written {x rest b} h := by
    obtain ⟨version', x, rfl, -, h⟩ := (reads_u8 _).of_bind h
    obtain ⟨hversion, hbody⟩ := of_ensure h
    subst hversion
    obtain ⟨publicInputs, x, rfl, hcanonical, h⟩ := reads_readPublicInputs.of_bind hbody
    obtain ⟨proofLen, x, rfl, -, h⟩ := (reads_uint 4 _).of_bind h
    obtain ⟨⟨hne, hle⟩, h⟩ := of_ensure h
    obtain ⟨proofBytes, x, rfl, hlen, h⟩ := (reads_bytes _ _).of_bind h
    obtain ⟨hframe, h⟩ := of_check h
    obtain ⟨cts, x, rfl, hcts, h⟩ := (reads_vector (reads_ciphertext _) _).of_bind h
    obtain ⟨authPk, x, rfl, -, h⟩ := (reads_array 1952 _).of_bind h
    obtain ⟨authSig, x, rfl, -, h⟩ := (reads_array 3309 _).of_bind h
    obtain ⟨rfl, rfl⟩ := of_pure h
    have hsaturated : saturatedLen 4 proofBytes.length = leBytes 4 proofLen.toNat := by
      rw [hlen, saturatedLen_eq proofLen.isLt]
    have hpos : 0 < proofBytes.length := by
      rw [hlen]
      exact Nat.pos_of_ne_zero fun hzero => hne (BitVec.eq_of_toNat_eq hzero)
    refine ⟨?_, hcanonical, hpos, by rw [hlen]; exact hle, hframe, hcts⟩
    simp only [encodeBody, hsaturated, List.append_assoc, List.cons_append, List.nil_append]

variable {x : Bytes} {p : Sov.SpendBundle}

theorem decodeBundleForSuite_eq_ok : decodeBundleForSuite W version x = .ok b ↔
      W.supports version = true ∧ x = version :: encodeBody b ∧ b.publicInputs.Canonical ∧ b.Framed W version := by
  unfold decodeBundleForSuite decodeBundleInner
  by_cases hsupports : W.supports version = true
  · rw [hsupports, Bool.not_true, if_neg Bool.false_ne_true, (reads_bundle W version).runAll_eq_ok]
    exact ⟨fun h => ⟨rfl, h⟩, fun h => h.2⟩
  rw [Bool.not_eq_true] at hsupports
  rw [hsupports, Bool.not_false, if_pos rfl]
  constructor
  · intro h
    cases h
  · intro h
    cases h.1

theorem readInputNullifiers_written (hversion : version = proofVersionV1 ∨ version = proofVersionV2)
    (hx : x = version :: encodeBody b) (hb : b.publicInputs.Canonical) :
    inputNullifiers x = .ok (b.publicInputs.nullifiers.toList.zip b.publicInputs.inputDummy.toList) := by
  subst hx
  change (readInputNullifiers.run ([version] ++ encodeBody b)).map _ = _
  unfold readInputNullifiers encodeBody encodePublicInputs
  simp only [List.append_assoc]
  rw [(reads_u8 _).run_bind _ trivial, run_ensure _ hversion,
    (reads_vector (reads_readDigest "anchor") _).run_bind _ hb.anchors,
    (reads_vector (reads_readDigest "nullifier") _).run_bind _ hb.nullifiers,
    (reads_vector (reads_readFlag "input_dummy") _).run_bind _ fun _ _ => trivial]
  rfl

theorem Frames.supports_eq_true : W.supports version = true ↔
    version = proofVersionV1 ∨ W.zkSuite2 = true ∧ version = proofVersionV2 := by
  simp [Frames.supports]

theorem encodeBundleForSuite_of_decoded (h : decodeBundleForSuite W version x = .ok b) :
    encodeBundleForSuite W version b = .ok x := by
  obtain ⟨hsupports, rfl, -, hframed⟩ := decodeBundleForSuite_eq_ok.mp h
  unfold encodeBundleForSuite
  rcases Frames.supports_eq_true.mp hsupports with rfl | ⟨hsuite, rfl⟩
  · rfl
  have hframe := hframed.frame
  have hdistinct : proofVersionV2 ≠ proofVersionV1 := by decide
  rw [Frames.validate, if_neg hdistinct, hsuite] at hframe
  rw [if_neg hdistinct, hsuite, if_pos (by decide)]
  have hset : (encodeBundle b).set 0 proofVersionV2 = proofVersionV2 :: encodeBody b := rfl
  dsimp only
  rw [hset, h]
  have hframe : (W.validateSuite2Frame b.proofBytes).mapError Error.suite2ProofFrame = .ok () := hframe
  rw [hframe]
  rfl

/-- The wire format is canonical for every version the build supports: what decodes is what is encoded, so no two byte
strings decode to one bundle; a framed bundle with canonical digests is decoded from its encoding; no byte string decodes
under two versions; and the short reader of the inputs agrees with the decoder. -/
theorem wire_format_canonical (W : Frames) (version : UInt8) (hversion : W.supports version = true) :
    (∀ x b, decodeBundleForSuite W version x = .ok b → encodeBundleForSuite W version b = .ok x) ∧
    (∀ x x' b, decodeBundleForSuite W version x = .ok b → decodeBundleForSuite W version x' = .ok b → x = x') ∧
    (∀ b : SpendBundle, b.Framed W version → b.publicInputs.Canonical → ∃ x,
      encodeBundleForSuite W version b = .ok x ∧ decodeBundleForSuite W version x = .ok b) ∧
    (∀ version' x b b', decodeBundleForSuite W version x = .ok b → decodeBundleForSuite W version' x = .ok b' →
      version = version') ∧ ∀ x b, decodeBundleForSuite W version x = .ok b →
      inputNullifiers x = .ok (b.publicInputs.nullifiers.toList.zip b.publicInputs.inputDummy.toList) := by
  refine ⟨fun x b => encodeBundleForSuite_of_decoded, fun x x' b h h' => ?_, fun b hframed hcanonical => ?_,
    fun version' x b b' h h' => ?_, fun x b h => ?_⟩
  · rw [(decodeBundleForSuite_eq_ok.mp h).2.1, (decodeBundleForSuite_eq_ok.mp h').2.1]
  · have hdecoded : decodeBundleForSuite W version (version :: encodeBody b) = .ok b :=
      decodeBundleForSuite_eq_ok.mpr ⟨hversion, rfl, hcanonical, hframed⟩
    exact ⟨_, encodeBundleForSuite_of_decoded hdecoded, hdecoded⟩
  · have hx := (decodeBundleForSuite_eq_ok.mp h).2.1
    rw [(decodeBundleForSuite_eq_ok.mp h').2.1] at hx
    exact (List.cons.inj hx).1.symm
  · obtain ⟨-, hx, hcanonical, -⟩ := decodeBundleForSuite_eq_ok.mp h
    refine readInputNullifiers_written ?_ hx hcanonical
    exact (Frames.supports_eq_true.mp hversion).imp_right And.right

/-- Frame checks that accept every proof. -/
def openFrames : Frames := ⟨true, fun _ _ => .ok (), fun _ => .ok ()⟩

/-- A bundle of dummy slots but for the root it names. -/
def anchoredBundle (anchor : Hash) : SpendBundle where
  publicInputs :=
    { anchors := ⟨[anchor, Hash.zero, Hash.zero, Hash.zero], rfl⟩
      nullifiers := ⟨[Hash.zero, Hash.zero, Hash.zero, Hash.zero], rfl⟩
      inputDummy := ⟨[true, true, true, true], rfl⟩
      outputCommitments := ⟨[Hash.zero, Hash.zero, Hash.zero, Hash.zero], rfl⟩
      outputDummy := ⟨[true, true, true, true], rfl⟩
      transparentIn := 0
      transparentOut := 0
      feeGrains := 0 }
  proofBytes := [7]
  outputCiphertexts := ⟨[none, none, none, none], rfl⟩
  authPk := FixedBytes.zero 1952
  authSig := FixedBytes.zero 3309

theorem framed_anchoredBundle (anchor : Hash) (hversion : version = proofVersionV1 ∨ version = proofVersionV2) :
    (anchoredBundle anchor).Framed openFrames version where
  proof_pos := Nat.one_pos
  proof_le := by
    rcases hversion with rfl | rfl
    · exact show 1 ≤ openFrames.maxProofLen proofVersionV1 by decide
    · exact show 1 ≤ openFrames.maxProofLen proofVersionV2 by decide
  frame := by
    rcases hversion with rfl | rfl
    · rfl
    · rfl
  ciphertexts o ho ct hct := by
    have hnone : o = none := List.eq_of_mem_replicate (show o ∈ List.replicate 4 none from ho)
    rw [hnone] at hct
    cases hct

/-- An encoding of the second suite is decoded to the bundle it is of. -/
theorem zeroAnchored_round_trip : ∃ x, encodeBundleForSuite openFrames 2 (anchoredBundle Hash.zero) = .ok x ∧
      decodeBundleForSuite openFrames 2 x = .ok (anchoredBundle Hash.zero) := by
  have hcanonical : (anchoredBundle Hash.zero).publicInputs.Canonical := by
    have hzero : ∀ d ∈ List.replicate 4 Hash.zero, isCanonical d = true := fun d hd => by
      rw [List.eq_of_mem_replicate hd]
      decide
    exact ⟨hzero, hzero, hzero⟩
  exact (wire_format_canonical openFrames 2 rfl).2.2.1 _ (framed_anchoredBundle _ (.inr rfl)) hcanonical

/-- A bundle whose first root has limbs above the field's modulus is framed and is encoded, but is not decoded from its
encoding. -/
theorem overflowingAnchor_not_decoded : (anchoredBundle (FixedBytes.fill 32 255)).Framed openFrames 1 ∧
      ∃ x, encodeBundleForSuite openFrames 1 (anchoredBundle (FixedBytes.fill 32 255)) = .ok x ∧
        decodeBundleForSuite openFrames 1 x ≠ .ok (anchoredBundle (FixedBytes.fill 32 255)) := by
  refine ⟨framed_anchoredBundle _ (.inl rfl), _, rfl, fun h => ?_⟩
  obtain ⟨-, -, hcanonical, -⟩ := decodeBundleForSuite_eq_ok.mp h
  exact absurd (hcanonical.anchors (FixedBytes.fill 32 255) List.mem_cons_self) (by decide)

/-! ## What the runtime sees -/

/-- The public part of a bundle, slot by slot. -/
def SpendBundle.toPublic (b : SpendBundle) : Sov.SpendBundle where
  inputs := List.zipWith3 V2Input.mk b.publicInputs.inputDummy.toList b.publicInputs.anchors.toList
    b.publicInputs.nullifiers.toList
  outputs := List.zipWith3 V2Output.mk b.publicInputs.outputDummy.toList b.publicInputs.outputCommitments.toList
    (b.outputCiphertexts.toList.map Option.isSome)
  transparentIn := b.publicInputs.transparentIn
  transparentOut := b.publicInputs.transparentOut
  feeGrains := b.publicInputs.feeGrains

/-- The decoder as the runtime calls it. -/
def decodeV2 (W : Frames) (suite2 : Bool) (data : Bytes) : Except WireError Sov.SpendBundle :=
  match decodeBundleForSuite W (if suite2 then proofVersionV2 else proofVersionV1) data with
  | .ok b => .ok b.toPublic
  | .error (.unknownProofVersion version) => .error (.unknownProofVersion version)
  | .error e => .error (.other e.message)

theorem decodeV2_eq_ok {suite2 : Bool} : decodeV2 W suite2 x = .ok p ↔ ∃ b,
      decodeBundleForSuite W (if suite2 then proofVersionV2 else proofVersionV1) x = .ok b ∧ p = b.toPublic := by
  unfold decodeV2
  constructor
  · intro h
    split at h
    · rename_i b hb
      cases h
      exact ⟨b, hb, rfl⟩
    · cases h
    · cases h
  · rintro ⟨b, hb, rfl⟩
    rw [hb]

theorem mem_of_mem_zipWith3 {α β γ δ : Type} {f : α → β → γ → δ} {as : List α} {bs : List β} {cs : List γ} {d : δ}
    (h : d ∈ List.zipWith3 f as bs cs) : ∃ a ∈ as, ∃ b ∈ bs, ∃ c ∈ cs, d = f a b c := by
  induction as generalizing bs cs with
  | nil => cases h
  | cons a as ih =>
    rcases bs with _ | ⟨b, bs⟩
    · cases h
    rcases cs with _ | ⟨c, cs⟩
    · cases h
    rcases List.mem_cons.mp h with rfl | h
    · exact ⟨a, List.mem_cons_self, b, List.mem_cons_self, c, List.mem_cons_self, rfl⟩
    · obtain ⟨a', ha, b', hb, c', hc, rfl⟩ := ih h
      exact ⟨a', List.mem_cons_of_mem _ ha, b', List.mem_cons_of_mem _ hb, c', List.mem_cons_of_mem _ hc, rfl⟩

/-- The digests of a decoded bundle are canonical. -/
theorem canonical_of_decodeV2 {suite2 : Bool} (h : decodeV2 W suite2 x = .ok p) :
    (∀ s ∈ p.inputs, isCanonical s.nullifier = true) ∧ ∀ s ∈ p.outputs, isCanonical s.commitment = true := by
  obtain ⟨b, hb, rfl⟩ := decodeV2_eq_ok.mp h
  obtain ⟨-, -, hcanonical, -⟩ := decodeBundleForSuite_eq_ok.mp hb
  constructor
  · intro s hs
    obtain ⟨-, -, -, -, nf, hnf, rfl⟩ := mem_of_mem_zipWith3 hs
    exact hcanonical.nullifiers nf hnf
  · intro s hs
    obtain ⟨-, -, cm, hcm, -, -, rfl⟩ := mem_of_mem_zipWith3 hs
    exact hcanonical.outputCommitments cm hcm

end Format
end Wire
end Sov
