import Mathlib.Data.List.Lex
import Mathlib.Order.Lattice
import SovChain.Lib.OrdMap

/-!
# Self-delimiting binary codecs

A codec writes a value as bytes and reads a value off the front of a byte string, returning the
rest. `Fits` singles out the values the reader can return (a length that fits its prefix, a nesting
below the limit); on those, reading what was written gives the value back whatever follows it. Two
consequences carry every injectivity argument about signed or hashed messages: an encoding determines
its value, and no encoding is a proper initial part of another (`encode_append_inj`).

The combinators follow the Borsh layout: little-endian integers, a four-byte length before a vector
or string, one byte before an optional value.
-/

/-- Byte strings. -/
abbrev Bytes := List UInt8

instance : LinearOrder Bytes :=
  LinearOrder.lift' (fun b : Bytes => b.map UInt8.toNat)
    (List.map_injective_iff.mpr fun _ _ => UInt8.toNat_inj.mp)

/-- Byte arrays of a fixed length. -/
structure FixedBytes (n : ℕ) where
  /-- The bytes. -/
  bytes : Bytes
  /-- Their number. -/
  length_eq : bytes.length = n
deriving DecidableEq

namespace FixedBytes

theorem bytes_injective {n : ℕ} : Function.Injective (bytes : FixedBytes n → Bytes) := by
  rintro ⟨a, ha⟩ ⟨b, hb⟩ h
  cases h
  rfl

instance {n : ℕ} : LinearOrder (FixedBytes n) := LinearOrder.lift' bytes bytes_injective

/-- The array of one byte over and over. -/
def fill (n : ℕ) (b : UInt8) : FixedBytes n := ⟨List.replicate n b, List.length_replicate⟩

/-- The array of zero bytes. -/
def zero (n : ℕ) : FixedBytes n := fill n 0

/-- The first bytes of a string, filled up with zeros. -/
def pad (n : ℕ) (p : Bytes) : FixedBytes n := ⟨(p ++ List.replicate n 0).take n, by simp⟩

instance {n : ℕ} : Inhabited (FixedBytes n) := ⟨zero n⟩

end FixedBytes

/-- A way to write values as bytes and to read them off the front of a byte string. -/
structure Codec (α : Type) where
  /-- The bytes of a value. -/
  encode : α → Bytes
  /-- Read a value and return the bytes after it. -/
  decode : Bytes → Option (α × Bytes)
  /-- The values the reader can return. -/
  Fits : α → Prop
  /-- Reading gives back what was written, whatever follows. -/
  decode_encode : ∀ {a : α} (s : Bytes), Fits a → decode (encode a ++ s) = some (a, s)
  /-- Only fitting values are read. -/
  fits_of_decode : ∀ {b : Bytes} {a : α} {s : Bytes}, decode b = some (a, s) → Fits a

namespace Codec
variable {α β : Type}

/-- Read a value from the whole of a byte string. -/
def decodeAll (c : Codec α) (b : Bytes) : Option α :=
  match c.decode b with
  | some (a, []) => some a
  | _ => none

variable {a : α}

theorem encode_append_inj (c : Codec α) {a' : α} {s s' : Bytes} (h : c.Fits a) (h' : c.Fits a')
    (heq : c.encode a ++ s = c.encode a' ++ s') : a = a' ∧ s = s' := by
  have hd := c.decode_encode s h
  rw [heq, c.decode_encode s' h'] at hd
  obtain ⟨rfl, rfl⟩ := Prod.mk.inj (Option.some.inj hd)
  exact ⟨rfl, rfl⟩

theorem encode_inj (c : Codec α) {a' : α} (h : c.Fits a) (h' : c.Fits a') (heq : c.encode a = c.encode a') : a = a' :=
  (c.encode_append_inj h h' (congrArg (· ++ []) heq)).1

theorem decodeAll_encode (c : Codec α) (h : c.Fits a) : c.decodeAll (c.encode a) = some a := by
  have := c.decode_encode [] h
  rw [List.append_nil] at this
  rw [decodeAll, this]

variable {b : Bytes}

theorem fits_of_decodeAll (c : Codec α) (h : c.decodeAll b = some a) : c.Fits a := by
  unfold decodeAll at h
  split at h
  · rename_i hd
    cases h
    exact c.fits_of_decode hd
  · cases h

/-- Two byte strings that end at their first separator end at the same place. -/
theorem append_sep_inj {t : UInt8} {x y x' y' : Bytes} (hx : t ∉ x) (hx' : t ∉ x')
    (h : x ++ t :: y = x' ++ t :: y') : x = x' ∧ y = y' := by
  induction x generalizing x' with
  | nil =>
    cases x' with
    | nil => exact ⟨rfl, (List.cons.inj h).2⟩
    | cons b bs => exact absurd (List.cons.inj h).1 fun e => hx' (by simp [e])
  | cons a as ih =>
    cases x' with
    | nil => exact absurd (List.cons.inj h).1 fun e => hx (by simp [e])
    | cons b bs =>
      obtain ⟨rfl, htl⟩ := List.cons.inj h
      obtain ⟨rfl, rfl⟩ := ih (fun hm => hx (List.mem_cons_of_mem _ hm))
        (fun hm => hx' (List.mem_cons_of_mem _ hm)) htl
      exact ⟨rfl, rfl⟩

/-! ## Integers -/

/-- The `n` low bytes of a number, lowest first. -/
def leBytes : ℕ → ℕ → Bytes
  | 0, _ => []
  | n + 1, x => UInt8.ofNat (x % 256) :: leBytes n (x / 256)

/-- The number with the given bytes, lowest first. -/
def ofLeBytes : Bytes → ℕ
  | [] => 0
  | b :: bs => b.toNat + 256 * ofLeBytes bs

@[simp] theorem length_leBytes (n x : ℕ) : (leBytes n x).length = n := by
  induction n generalizing x with
  | zero => rfl
  | succ n ih => simp [leBytes, ih]

theorem ofLeBytes_leBytes (n x : ℕ) (h : x < 256 ^ n) : ofLeBytes (leBytes n x) = x := by
  induction n generalizing x with
  | zero =>
    rw [pow_zero] at h
    simp [leBytes, ofLeBytes]
    omega
  | succ n ih =>
    have hq : x / 256 < 256 ^ n := by
      rw [Nat.div_lt_iff_lt_mul (by omega), ← pow_succ]
      exact h
    have hb : (UInt8.ofNat (x % 256)).toNat = x % 256 := by
      simp
    rw [leBytes, ofLeBytes, ih _ hq, hb]
    omega

theorem ofLeBytes_lt (b : Bytes) : ofLeBytes b < 256 ^ b.length := by
  induction b with
  | nil => simp [ofLeBytes]
  | cons x xs ih =>
    have hx := x.toNat_lt
    rw [ofLeBytes, List.length_cons, pow_succ]
    omega

theorem leBytes_ofLeBytes {n : ℕ} (h : b.length = n) : leBytes n (ofLeBytes b) = b := by
  subst h
  induction b with
  | nil => rfl
  | cons x xs ih =>
    have hx := x.toNat_lt
    have hlow : (ofLeBytes (x :: xs)) % 256 = x.toNat := by
      rw [ofLeBytes]
      omega
    have hhigh : (ofLeBytes (x :: xs)) / 256 = ofLeBytes xs := by
      rw [ofLeBytes]
      omega
    rw [List.length_cons, leBytes, hlow, hhigh, ih, UInt8.ofNat_toNat]

/-- Unsigned little-endian integers of `n` bytes. -/
def uint (n : ℕ) : Codec (BitVec (8 * n)) where
  encode x := leBytes n x.toNat
  decode b := if b.length < n then none else some (BitVec.ofNat _ (ofLeBytes (b.take n)), b.drop n)
  Fits _ := True
  decode_encode := by
    intro x s _
    have hlen : (leBytes n x.toNat).length = n := length_leBytes n _
    have hx : x.toNat < 256 ^ n := by
      have := x.isLt
      rwa [pow_mul] at this
    rw [if_neg (by simp), List.take_left' hlen, List.drop_left' hlen, ofLeBytes_leBytes n _ hx]
    simp
  fits_of_decode := fun _ => trivial

/-- One byte. -/
def u8 : Codec UInt8 where
  encode x := [x]
  decode
    | [] => none
    | x :: s => some (x, s)
  Fits _ := True
  decode_encode := fun _ _ => rfl
  fits_of_decode := fun _ => trivial

/-- Byte arrays of fixed length, with no length written. -/
def array (n : ℕ) : Codec (FixedBytes n) where
  encode x := x.bytes
  decode b := if h : (b.take n).length = n then some (⟨b.take n, h⟩, b.drop n) else none
  Fits _ := True
  decode_encode := by
    rintro ⟨x, hx⟩ s _
    simp only
    rw [dif_pos (by rw [List.take_left' hx, hx])]
    simp only [List.take_left' hx, List.drop_left' hx]
  fits_of_decode := fun _ => trivial

/-- Booleans: one byte, zero or one. -/
def bool : Codec Bool where
  encode b := [if b then 1 else 0]
  decode
    | [] => none
    | x :: s => if x = 0 then some (false, s) else if x = 1 then some (true, s) else none
  Fits _ := True
  decode_encode := by
    intro b s _
    cases b <;> rfl
  fits_of_decode := fun _ => trivial

/-! ## Combinators -/

/-- A value followed by another. -/
def pair (c : Codec α) (d : Codec β) : Codec (α × β) where
  encode x := c.encode x.1 ++ d.encode x.2
  decode b := do
    let (a, b) ← c.decode b
    let (x, b) ← d.decode b
    return ((a, x), b)
  Fits x := c.Fits x.1 ∧ d.Fits x.2
  decode_encode := by
    rintro ⟨a, x⟩ s ⟨ha, hx⟩
    simp [c.decode_encode _ ha, d.decode_encode _ hx]
  fits_of_decode := by
    rintro b ⟨a, x⟩ s h
    simp only [Option.bind_eq_bind, Option.bind_eq_some_iff, Option.pure_def, Option.some.injEq,
      Prod.exists, Prod.mk.injEq] at h
    obtain ⟨a', b', ha, x', b'', hx, ⟨rfl, rfl⟩, rfl⟩ := h
    exact ⟨c.fits_of_decode ha, d.fits_of_decode hx⟩

/-- The codec of a type whose values are written as values of `α`: `f` gives the value to write, and
`g` makes a value of what was read, or rejects it. -/
def retract (c : Codec α) (f : β → α) (g : α → Option β) (hgf : ∀ b, g (f b) = some b)
    (hfits : ∀ a b, c.Fits a → g a = some b → c.Fits (f b)) : Codec β where
  encode x := c.encode (f x)
  decode b := do
    let (a, b) ← c.decode b
    let x ← g a
    return (x, b)
  Fits x := c.Fits (f x)
  decode_encode := by
    intro x s h
    simp [c.decode_encode _ h, hgf]
  fits_of_decode := by
    intro b x s h
    simp only [Option.bind_eq_bind, Option.bind_eq_some_iff, Option.pure_def, Option.some.injEq,
      Prod.exists, Prod.mk.injEq] at h
    obtain ⟨a, b', hd, x', hg, rfl, rfl⟩ := h
    exact hfits a x' (c.fits_of_decode hd) hg

/-- The codec of a type in bijection with `α`. -/
def iso (c : Codec α) (f : β → α) (g : α → β) (hgf : ∀ b, g (f b) = b) (hfg : ∀ a, f (g a) = a) :
    Codec β :=
  c.retract f (fun a => some (g a)) (fun b => by rw [hgf]) fun a b ha h => by
    cases h
    rw [hfg]
    exact ha

/-- Reject the values that fail a check. -/
def filter (c : Codec α) (p : α → Bool) : Codec α where
  encode := c.encode
  decode b := (c.decode b).filter fun x => p x.1
  Fits a := c.Fits a ∧ p a
  decode_encode := by
    rintro a s ⟨ha, hp⟩
    simp [c.decode_encode _ ha, hp]
  fits_of_decode := by
    intro b a s h
    obtain ⟨hd, hp⟩ := Option.filter_eq_some_iff.mp h
    exact ⟨c.fits_of_decode hd, hp⟩

/-- Optional values: a byte saying whether one follows. -/
def option (c : Codec α) : Codec (Option α) where
  encode
    | none => [0]
    | some a => 1 :: c.encode a
  decode
    | [] => none
    | x :: b =>
      if x = 0 then some (none, b)
      else if x = 1 then (c.decode b).map fun p => (some p.1, p.2) else none
  Fits x := ∀ a, x = some a → c.Fits a
  decode_encode := by
    intro x s h
    cases x with
    | none => rfl
    | some a => simp [c.decode_encode _ (h a rfl)]
  fits_of_decode := by
    intro b a s h
    rcases b with _ | ⟨x, b⟩
    · cases h
    simp only at h
    split_ifs at h
    · cases h
      exact fun _ hc => absurd hc (by simp)
    simp only [Option.map_eq_some_iff, Prod.mk.injEq, Prod.exists] at h
    obtain ⟨a', s', hd, rfl, rfl⟩ := h
    rintro _ ⟨rfl⟩
    exact c.fits_of_decode hd

/-- Values of one of two types: a byte saying which. -/
def sum (c : Codec α) (d : Codec β) : Codec (α ⊕ β) where
  encode
    | .inl a => 0 :: c.encode a
    | .inr b => 1 :: d.encode b
  decode
    | [] => none
    | x :: b =>
      if x = 0 then (c.decode b).map fun p => (.inl p.1, p.2)
      else if x = 1 then (d.decode b).map fun p => (.inr p.1, p.2) else none
  Fits
    | .inl a => c.Fits a
    | .inr b => d.Fits b
  decode_encode := by
    intro x s h
    cases x with
    | inl a => simp [c.decode_encode _ h]
    | inr b => simp [d.decode_encode _ h]
  fits_of_decode := by
    intro b x s h
    rcases b with _ | ⟨t, b⟩
    · cases h
    simp only at h
    split_ifs at h <;> simp only [Option.map_eq_some_iff, Prod.mk.injEq, Prod.exists] at h
    · obtain ⟨a, s', hd, rfl, rfl⟩ := h
      exact c.fits_of_decode hd
    · obtain ⟨a, s', hd, rfl, rfl⟩ := h
      exact d.fits_of_decode hd

/-- Nothing: no bytes. -/
def unit : Codec Unit where
  encode _ := []
  decode b := some ((), b)
  Fits _ := True
  decode_encode := fun _ _ => rfl
  fits_of_decode := fun _ => trivial

/-- Read `n` values one after the other. -/
def decodeN (c : Codec α) : ℕ → Bytes → Option (List α × Bytes)
  | 0, b => some ([], b)
  | n + 1, b => do
    let (a, b) ← c.decode b
    let (as, b) ← decodeN c n b
    return (a :: as, b)

theorem decodeN_encode (c : Codec α) (as : List α) (s : Bytes) (h : ∀ a ∈ as, c.Fits a) :
    c.decodeN as.length (as.flatMap c.encode ++ s) = some (as, s) := by
  induction as with
  | nil => rfl
  | cons a as ih =>
    have ha := h a List.mem_cons_self
    have has := ih fun x hx => h x (List.mem_cons_of_mem _ hx)
    simp [decodeN, c.decode_encode _ ha, has]

theorem decodeN_spec (c : Codec α) {n : ℕ} {s : Bytes} {as : List α} (h : c.decodeN n b = some (as, s)) :
    as.length = n ∧ ∀ a ∈ as, c.Fits a := by
  induction n generalizing b as with
  | zero =>
    cases h
    simp
  | succ n ih =>
    simp only [decodeN, Option.bind_eq_bind, Option.bind_eq_some_iff, Option.pure_def,
      Option.some.injEq, Prod.exists, Prod.mk.injEq] at h
    obtain ⟨a, b', ha, as', b'', has, rfl, rfl⟩ := h
    obtain ⟨hlen, hfits⟩ := ih has
    refine ⟨by simp [hlen], fun x hx => ?_⟩
    rcases List.mem_cons.mp hx with rfl | hx
    · exact c.fits_of_decode ha
    · exact hfits x hx

/-- Vectors: the four-byte number of elements, then the elements. -/
def vec (c : Codec α) : Codec (List α) where
  encode as := (uint 4).encode (BitVec.ofNat 32 as.length) ++ as.flatMap c.encode
  decode b := do
    let (n, b) ← (uint 4).decode b
    c.decodeN n.toNat b
  Fits as := as.length < 2 ^ 32 ∧ ∀ a ∈ as, c.Fits a
  decode_encode := by
    rintro as s ⟨hlen, hfits⟩
    have hn : (BitVec.ofNat (8 * 4) as.length).toNat = as.length := by
      rw [BitVec.toNat_ofNat, Nat.mod_eq_of_lt hlen]
    rw [List.append_assoc, (uint 4).decode_encode _ trivial]
    change c.decodeN (BitVec.ofNat (8 * 4) as.length).toNat _ = _
    rw [hn, decodeN_encode c as s hfits]
  fits_of_decode := by
    intro b as s h
    simp only [Option.bind_eq_bind, Option.bind_eq_some_iff, Prod.exists] at h
    obtain ⟨n, b', _, hN⟩ := h
    obtain ⟨hlen, hfits⟩ := c.decodeN_spec hN
    exact ⟨hlen ▸ n.isLt, hfits⟩

/-- Byte vectors. -/
def byteVec : Codec Bytes := vec u8

/-- Ordered sets: their elements as a vector. The reader accepts the elements in any order, with
repetitions. -/
def ordSet [LinearOrder α] (c : Codec α) : Codec (OrdMap α Unit) :=
  c.vec.retract OrdMap.keys (fun l => some (OrdMap.ofKeys l)) (fun m => by rw [OrdMap.ofKeys_keys])
    fun l m hl h => by
      cases h
      exact ⟨(OrdMap.length_keys_ofKeys l).trans_lt hl.1,
        fun a ha => hl.2 a (OrdMap.mem_keys_ofKeys.mp ha)⟩

/-- The UTF-8 bytes of a string. -/
def strBytes (s : String) : Bytes := s.toByteArray.data.toList

theorem strBytes_injective : Function.Injective strBytes := by
  intro s t h
  rw [← String.toByteArray_inj]
  exact ByteArray.ext (Array.toList_inj.mp h)

/-- The string with the given UTF-8 bytes, if they are valid. -/
def ofStrBytes (b : Bytes) : Option String := String.fromUTF8? ⟨b.toArray⟩

theorem ofStrBytes_eq_some {s : String} : ofStrBytes b = some s ↔ strBytes s = b := by
  unfold ofStrBytes String.fromUTF8?
  constructor
  · intro h
    split_ifs at h with hv
    cases h
    rfl
  · rintro rfl
    have hv : (⟨(strBytes s).toArray⟩ : ByteArray) = s.toByteArray := by
      apply ByteArray.ext
      simp [strBytes]
    rw [hv, dif_pos s.isValidUTF8]
    rfl

/-- Strings: their UTF-8 bytes as a byte vector. -/
def string : Codec String :=
  byteVec.retract strBytes ofStrBytes (fun _ => ofStrBytes_eq_some.mpr rfl) fun a b ha h => by
    rw [ofStrBytes_eq_some.mp h]
    exact ha

end Codec
