import Mathlib.Data.String.Basic
import SovChain.Lib.Codec
import SovChain.Lib.MachineInt

/-!
# `sov-primitives`: account ids, hashes, amounts

`AccountId` wraps a string. `AccountId.new` validates it, and so does the JSON decoder, but the
Borsh decoder is derived from the field and accepts every string: the type itself promises nothing
about the characters. Every place that relies on the character set does so through
`AccountId.validate`, which is why `WellFormed` is a predicate here and not a field.
-/

namespace Sov
open Codec (strBytes)

/-- `u16`, `u32`, `u64` and `u128`. -/
abbrev U16 := BitVec 16
abbrev U32 := BitVec 32
abbrev U64 := BitVec 64
abbrev U128 := BitVec 128

/-- An amount in grains. The source's newtype has only the checked operations of its `u128`. -/
abbrev Balance := U128

namespace Balance

def decimals : ℕ := 8

def grainsPerSov : ℕ := 10 ^ decimals

def maxSupplySov : ℕ := 21000000

def maxSupplyGrains : ℕ := maxSupplySov * grainsPerSov

end Balance

/-- A 32-byte digest. -/
abbrev Hash := FixedBytes 32

namespace Hash

def zero : Hash := FixedBytes.zero 32

def hexDigit (n : ℕ) : Char := if n < 10 then Char.ofNat (48 + n) else Char.ofNat (87 + n)

/-- Lowercase hex, two characters a byte. -/
def toHex (h : Hash) : String :=
  String.ofList (h.bytes.flatMap fun b => [hexDigit (b.toNat / 16), hexDigit (b.toNat % 16)])

end Hash

/-- An account identifier, as the Borsh decoder may return it: any string. -/
structure AccountId where
  raw : String
deriving DecidableEq, Inhabited

/-- Why a string is not an account id. -/
inductive AccountIdError where
  | length (len : ℕ)
  | invalidChar (ch : Char)
  | edgeSeparator
  | adjacentSeparators
deriving DecidableEq

namespace AccountId

theorem raw_injective : Function.Injective raw := by
  rintro ⟨a⟩ ⟨b⟩ h
  cases h
  rfl

instance : LinearOrder AccountId := LinearOrder.lift' raw raw_injective

instance : ToString AccountId := ⟨raw⟩

def minLen : ℕ := 2

def maxLen : ℕ := 64

/-- The bytes of the id, `as_str().as_bytes()`. -/
def bytes (id : AccountId) : Bytes := strBytes id.raw

theorem bytes_injective : Function.Injective bytes := fun _ _ h =>
  raw_injective (Codec.strBytes_injective h)

def isSep (b : UInt8) : Bool := b = 45 || b = 95 || b = 46

def isAsciiLowercase (b : UInt8) : Bool := 97 ≤ b.toNat && b.toNat ≤ 122

def isAsciiDigit (b : UInt8) : Bool := 48 ≤ b.toNat && b.toNat ≤ 57

/-- The loop of `validate` over the bytes, with `prev_sep`. -/
def validateBytes : Bytes → Bool → Except AccountIdError Unit
  | [], _ => .ok ()
  | b :: bs, prevSep =>
    if ¬ (isAsciiLowercase b || isAsciiDigit b || isSep b) then
      .error (.invalidChar (Char.ofNat b.toNat))
    else if isSep b then
      if prevSep then .error .adjacentSeparators else validateBytes bs true
    else validateBytes bs false

/-- The rules of an account id: its length, its characters, and no separator at either end or next
to another. -/
def validate (id : String) : Except AccountIdError Unit :=
  let bytes := strBytes id
  let len := bytes.length
  if ¬ (minLen ≤ len ∧ len ≤ maxLen) then .error (.length len)
  else if isSep (bytes.headD 0) || isSep (bytes.getLastD 0) then .error .edgeSeparator
  else validateBytes bytes false

/-- `AccountId::new`: validate and construct. -/
def new (raw : String) : Except AccountIdError AccountId := do
  validate raw
  return ⟨raw⟩

/-- Exactly 64 lowercase hex characters. -/
def isImplicit (id : AccountId) : Bool :=
  id.bytes.length = 64 && id.bytes.all fun b => isAsciiDigit b || (97 ≤ b.toNat && b.toNat ≤ 102)

/-- A `*.sov` id that is not implicit. -/
def isRegistrableName (id : AccountId) : Bool :=
  !id.isImplicit && (strBytes ".sov").isSuffixOf id.bytes

def codec : Codec AccountId := Codec.string.iso raw mk (fun _ => rfl) fun _ => rfl

/-- The ids `AccountId::new` can return. -/
def WellFormed (id : AccountId) : Prop := validate id.raw = .ok ()

instance : DecidablePred WellFormed := fun _ => inferInstanceAs (Decidable (_ = _))

theorem mem_of_validateBytes {bs : Bytes} {prevSep : Bool} (h : validateBytes bs prevSep = .ok ())
    {b : UInt8} (hb : b ∈ bs) : isAsciiLowercase b || isAsciiDigit b || isSep b := by
  induction bs generalizing prevSep with
  | nil => cases hb
  | cons x xs ih =>
    rw [validateBytes] at h
    split_ifs at h with hx hsep hprev
    · rcases List.mem_cons.mp hb with rfl | hb
      · simpa using hx
      · exact ih h hb
    · rcases List.mem_cons.mp hb with rfl | hb
      · simpa using hx
      · exact ih h hb

namespace WellFormed
variable {id : AccountId}

theorem length_bounds (h : id.WellFormed) : 2 ≤ id.bytes.length ∧ id.bytes.length ≤ 64 := by
  unfold WellFormed validate at h
  simp only at h
  split_ifs at h with h1 h2
  exact h1

variable {b : UInt8}

theorem charset (h : id.WellFormed) (hb : b ∈ id.bytes) : isAsciiLowercase b || isAsciiDigit b || isSep b := by
  unfold WellFormed validate at h
  simp only at h
  split_ifs at h with h1 h2
  exact mem_of_validateBytes h hb

/-- The tag bytes the ledger and the signing messages put around ids never occur inside one. -/
theorem le_of_mem (h : id.WellFormed) (hb : b ∈ id.bytes) : 45 ≤ b.toNat := by
  have hc := h.charset hb
  simp only [isAsciiLowercase, isAsciiDigit, isSep, Bool.or_eq_true, Bool.and_eq_true, decide_eq_true_eq] at hc
  rcases hc with (⟨h1, _⟩ | ⟨h1, _⟩) | ((rfl | rfl) | rfl)
  · omega
  · omega
  · decide
  · decide
  · decide

theorem ne_of_mem (h : id.WellFormed) (hb : b ∈ id.bytes) {t : UInt8} (ht : t.toNat < 45) : b ≠ t := by
  rintro rfl
  have := h.le_of_mem hb
  omega

end WellFormed

theorem new_eq_ok {raw : String} {id : AccountId} (h : new raw = .ok id) : id.WellFormed := by
  unfold new at h
  rcases hv : validate raw with e | u
  · rw [hv] at h; cases h
  rw [hv] at h
  cases h
  exact hv

end AccountId
end Sov
