import SovChain.Runtime.Batch

/-!
# `sov-shielded`: the byte layout of an Orchard bundle

A bundle travels as bytes: flags, value balance, anchor, the actions, the proof and the binding signature. What the
decoder accepts is canonical, it is the encoding of what was decoded. In particular the value balance of an accepted
bundle can be read off at its fixed place in the header.
-/

namespace Sov
open Codec
open Sov.Runtime (bind_eq_ok)

/-- One action of a bundle, as it is written. -/
structure OrchardAction where
  nullifier : Hash
  rk : Hash
  cmx : Hash
  epk : Hash
  encCiphertext : FixedBytes 580
  outCiphertext : FixedBytes 80
  cvNet : Hash
  spendAuthSig : FixedBytes 64

structure OrchardBundle where
  flags : UInt8
  valueBalance : BitVec 64
  anchor : Hash
  actions : List OrchardAction
  proof : Bytes
  bindingSig : FixedBytes 64

/-- The checks the `orchard` crate makes on the parts of a bundle, on an action and on a bundle with its proof size. -/
structure Orchard where
  flags : UInt8 → Bool
  anchor : Hash → Bool
  nullifier : Hash → Bool
  rk : Hash → Bool
  cmx : Hash → Bool
  cvNet : Hash → Bool
  action : OrchardAction → Bool
  bundle : OrchardBundle → Bool

namespace OrchardBundle

/-! ## Encoding -/

def actionBytes : ℕ := 32 * 5 + 580 + 80 + 64

def encodeAction (a : OrchardAction) : Bytes :=
  a.nullifier.bytes ++ (a.rk.bytes ++ (a.cmx.bytes ++ (a.epk.bytes ++ (a.encCiphertext.bytes ++
    (a.outCiphertext.bytes ++ (a.cvNet.bytes ++ a.spendAuthSig.bytes))))))

def toBytes (b : OrchardBundle) : Bytes :=
  b.flags :: (leBytes 8 b.valueBalance.toNat ++ (b.anchor.bytes ++ (leBytes 4 b.actions.length ++
    (b.actions.flatMap encodeAction ++ (leBytes 4 b.proof.length ++ (b.proof ++ b.bindingSig.bytes))))))

/-- What the chain looks at in a bundle. -/
def view (b : OrchardBundle) : ShieldedBundle :=
  ⟨b.actions.map OrchardAction.nullifier, b.actions.map OrchardAction.cmx, b.anchor, b.valueBalance⟩

/-! ## Decoding -/

def check (c : Bool) (what : String) : Except ShieldedError Unit := if c then .ok () else .error (.decode what)

def take (n : ℕ) (b : Bytes) : Except ShieldedError (Bytes × Bytes) :=
  if b.length < n then .error (.decode "unexpected end of input") else .ok (b.take n, b.drop n)

def arr (n : ℕ) (b : Bytes) : Except ShieldedError (FixedBytes n × Bytes) :=
  if h : (b.take n).length = n then .ok (⟨b.take n, h⟩, b.drop n)
  else .error (.decode "unexpected end of input")

def readAction (O : Orchard) (b : Bytes) : Except ShieldedError (OrchardAction × Bytes) := do
  let (nullifier, b) ← arr 32 b
  check (O.nullifier nullifier) "nullifier"
  let (rk, b) ← arr 32 b
  check (O.rk rk) "rk"
  let (cmx, b) ← arr 32 b
  check (O.cmx cmx) "cmx"
  let (epk, b) ← arr 32 b
  let (encCiphertext, b) ← arr 580 b
  let (outCiphertext, b) ← arr 80 b
  let (cvNet, b) ← arr 32 b
  check (O.cvNet cvNet) "cv_net"
  let (spendAuthSig, b) ← arr 64 b
  let action : OrchardAction := ⟨nullifier, rk, cmx, epk, encCiphertext, outCiphertext, cvNet, spendAuthSig⟩
  check (O.action action) "action"
  return (action, b)

def readActions (O : Orchard) : ℕ → Bytes → Except ShieldedError (List OrchardAction × Bytes)
  | 0, b => .ok ([], b)
  | n + 1, b => do
    let (action, b) ← readAction O b
    let (actions, b) ← readActions O n b
    return (action :: actions, b)

def fromBytes (O : Orchard) (bytes : Bytes) : Except ShieldedError OrchardBundle := do
  let (flags, b) ← arr 1 bytes
  let flags := flags.bytes.headD 0
  check (O.flags flags) "invalid flags"
  let (valueBalance, b) ← arr 8 b
  let (anchor, b) ← arr 32 b
  check (O.anchor anchor) "anchor"
  let (count, b) ← arr 4 b
  let count := ofLeBytes count.bytes
  -- The count is bounded by what is left of the input, less the proof length and the binding signature.
  check (!(count = 0 ∨ (b.length - (4 + 64)) / actionBytes < count)) "invalid action count"
  let (actions, b) ← readActions O count b
  let (proofLen, b) ← arr 4 b
  let (proof, b) ← take (ofLeBytes proofLen.bytes) b
  let (bindingSig, b) ← arr 64 b
  check b.isEmpty "trailing bytes"
  let bundle : OrchardBundle :=
    ⟨flags, BitVec.ofNat 64 (ofLeBytes valueBalance.bytes), anchor, actions, proof, bindingSig⟩
  check (O.bundle bundle) "non-canonical bundle"
  return bundle

/-- The decoder as the executor uses it: it asks whether there is a bundle, not what was wrong. -/
def decode (O : Orchard) (bytes : Bytes) : Option ShieldedBundle := (fromBytes O bytes).toOption.map view

/-! ## Canonical encodings -/

section Reads
variable {O : Orchard} {b rest : Bytes} {n : ℕ}

theorem check_eq_ok {c : Bool} {what : String} {u : Unit} (h : check c what = .ok u) : c = true := by
  unfold check at h
  split_ifs at h with hc
  exact hc

theorem take_eq_ok {x : Bytes} (h : take n b = .ok (x, rest)) : b = x ++ rest ∧ x.length = n := by
  unfold take at h
  split_ifs at h with hlen
  cases h
  exact ⟨(List.take_append_drop n b).symm, by rw [List.length_take]; omega⟩

theorem arr_eq_ok {x : FixedBytes n} (h : arr n b = .ok (x, rest)) : b = x.bytes ++ rest := by
  unfold arr at h
  split_ifs at h
  cases h
  exact (List.take_append_drop n b).symm

theorem readAction_eq_ok {a : OrchardAction} (h : readAction O b = .ok (a, rest)) : b = encodeAction a ++ rest := by
  unfold readAction at h
  obtain ⟨⟨nullifier, b1⟩, hnullifier, h⟩ := bind_eq_ok.mp h
  obtain ⟨_, -, h⟩ := bind_eq_ok.mp h
  obtain ⟨⟨rk, b2⟩, hrk, h⟩ := bind_eq_ok.mp h
  obtain ⟨_, -, h⟩ := bind_eq_ok.mp h
  obtain ⟨⟨cmx, b3⟩, hcmx, h⟩ := bind_eq_ok.mp h
  obtain ⟨_, -, h⟩ := bind_eq_ok.mp h
  obtain ⟨⟨epk, b4⟩, hepk, h⟩ := bind_eq_ok.mp h
  obtain ⟨⟨enc, b5⟩, henc, h⟩ := bind_eq_ok.mp h
  obtain ⟨⟨out, b6⟩, hout, h⟩ := bind_eq_ok.mp h
  obtain ⟨⟨cvNet, b7⟩, hcvNet, h⟩ := bind_eq_ok.mp h
  obtain ⟨_, -, h⟩ := bind_eq_ok.mp h
  obtain ⟨⟨sig, b8⟩, hsig, h⟩ := bind_eq_ok.mp h
  obtain ⟨_, -, h⟩ := bind_eq_ok.mp h
  cases h
  rw [arr_eq_ok hnullifier, arr_eq_ok hrk, arr_eq_ok hcmx, arr_eq_ok hepk, arr_eq_ok henc, arr_eq_ok hout,
    arr_eq_ok hcvNet, arr_eq_ok hsig]
  simp only [encodeAction, List.append_assoc]

theorem readActions_eq_ok {as : List OrchardAction} (h : readActions O n b = .ok (as, rest)) :
    b = as.flatMap encodeAction ++ rest ∧ as.length = n := by
  induction n generalizing b as with
  | zero =>
    cases h
    exact ⟨rfl, rfl⟩
  | succ n ih =>
    obtain ⟨⟨a, b1⟩, ha, h⟩ := bind_eq_ok.mp h
    obtain ⟨⟨as', b2⟩, has, h⟩ := bind_eq_ok.mp h
    cases h
    obtain ⟨hb, hlen⟩ := ih has
    refine ⟨?_, congrArg (· + 1) hlen⟩
    rw [readAction_eq_ok ha, hb, List.flatMap_cons, List.append_assoc]

end Reads

/-- A bundle is accepted in one encoding only. -/
theorem eq_toBytes_of_fromBytes {O : Orchard} {bytes : Bytes} {x : OrchardBundle} (h : fromBytes O bytes = .ok x) :
    bytes = x.toBytes := by
  unfold fromBytes at h
  obtain ⟨⟨flags, b1⟩, hflags, h⟩ := bind_eq_ok.mp h
  obtain ⟨_, -, h⟩ := bind_eq_ok.mp h
  obtain ⟨⟨value, b2⟩, hvalue, h⟩ := bind_eq_ok.mp h
  obtain ⟨⟨anchor, b3⟩, hanchor, h⟩ := bind_eq_ok.mp h
  obtain ⟨_, -, h⟩ := bind_eq_ok.mp h
  obtain ⟨⟨count, b4⟩, hcount, h⟩ := bind_eq_ok.mp h
  obtain ⟨_, -, h⟩ := bind_eq_ok.mp h
  obtain ⟨⟨actions, b5⟩, hactions, h⟩ := bind_eq_ok.mp h
  obtain ⟨⟨proofLen, b6⟩, hproofLen, h⟩ := bind_eq_ok.mp h
  obtain ⟨⟨proof, b7⟩, hproof, h⟩ := bind_eq_ok.mp h
  obtain ⟨⟨sig, b8⟩, hsig, h⟩ := bind_eq_ok.mp h
  obtain ⟨_, hend, h⟩ := bind_eq_ok.mp h
  obtain ⟨_, -, h⟩ := bind_eq_ok.mp h
  cases h
  have hflag : flags.bytes = [flags.bytes.headD 0] := by
    obtain ⟨bs, hlen⟩ := flags
    obtain ⟨f, rfl⟩ := List.length_eq_one_iff.mp hlen
    rfl
  have hnum : leBytes 8 (BitVec.ofNat 64 (ofLeBytes value.bytes)).toNat = value.bytes := by
    rw [BitVec.toNat_ofNat, Nat.mod_eq_of_lt]
    · exact leBytes_ofLeBytes value.length_eq
    · have := ofLeBytes_lt value.bytes
      rw [value.length_eq] at this
      exact this
  obtain ⟨hactions, hlen⟩ := readActions_eq_ok hactions
  obtain ⟨hproof, hproofLen'⟩ := take_eq_ok hproof
  have hrest : b8 = [] := List.isEmpty_iff.mp (check_eq_ok hend)
  rw [arr_eq_ok hflags, arr_eq_ok hvalue, arr_eq_ok hanchor, arr_eq_ok hcount, hactions, arr_eq_ok hproofLen, hproof,
    arr_eq_ok hsig, hrest, hflag, toBytes]
  dsimp only
  rw [hnum, hlen, hproofLen', leBytes_ofLeBytes count.length_eq, leBytes_ofLeBytes proofLen.length_eq, List.append_nil]
  rfl

theorem header_toBytes (x : OrchardBundle) :
    9 ≤ x.toBytes.length ∧ BitVec.ofNat 64 (ofLeBytes ((x.toBytes.drop 1).take 8)) = x.valueBalance := by
  have hlen : (leBytes 8 x.valueBalance.toNat).length = 8 := length_leBytes 8 _
  constructor
  · rw [toBytes, List.length_cons, List.length_append, hlen]
    omega
  · rw [toBytes, List.drop_one, List.tail_cons, List.take_left' hlen,
      ofLeBytes_leBytes 8 _ x.valueBalance.isLt, BitVec.ofNat_toNat, BitVec.setWidth_eq]

end OrchardBundle
end Sov
