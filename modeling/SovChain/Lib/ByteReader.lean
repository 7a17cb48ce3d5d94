import SovChain.Lib.Codec
import Mathlib.Data.Vector.Basic

/-!
# Readers of canonical formats

A reader takes a value off the front of a byte string, or fails with an error of its own. `Reads m write Fits` says that `m`
is the reader of a canonical format: it accepts exactly what `write` writes of a value in `Fits`, and returns that value.
A format that is read field by field is followed the same way in both directions, `run_bind` for what was written and
`of_bind` for what was accepted.
-/

/-- Readers with errors in `ε`. -/
abbrev ByteReader (ε : Type) := StateT Bytes (Except ε)

namespace ByteReader
open Codec (leBytes ofLeBytes ofLeBytes_leBytes length_leBytes ofLeBytes_lt leBytes_ofLeBytes)
variable {ε α β : Type}

/-- The reader `m` accepts what `write` writes of the values in `Fits`, and nothing else. -/
structure Reads (m : ByteReader ε α) (write : α → Bytes) (Fits : α → Prop) : Prop where
  /-- What was written is read back, whatever follows. -/
  read : ∀ {a : α} (rest : Bytes), Fits a → m.run (write a ++ rest) = .ok (a, rest)
  /-- What was accepted is what is written. -/
  written : ∀ {x rest : Bytes} {a : α}, m.run x = .ok (a, rest) → x = write a ++ rest ∧ Fits a

/-! ## Composition -/

section
variable {m : ByteReader ε α} {write : α → Bytes} {Fits : α → Prop} {k : α → ByteReader ε β}

/-- Go on after a value that was written. -/
theorem Reads.run_bind (h : Reads m write Fits) {a : α} (rest : Bytes) (ha : Fits a) :
    (m >>= k).run (write a ++ rest) = (k a).run rest := by
  rw [StateT.run_bind, h.read rest ha]
  rfl

theorem Reads.of_bind (h : Reads m write Fits) {x rest : Bytes} {b : β} (hrun : (m >>= k).run x = .ok (b, rest)) :
    ∃ a x', x = write a ++ x' ∧ Fits a ∧ (k a).run x' = .ok (b, rest) := by
  rw [StateT.run_bind] at hrun
  rcases hm : m.run x with e | ⟨a, x'⟩
  · rw [hm] at hrun
    cases hrun
  · rw [hm] at hrun
    obtain ⟨hx, ha⟩ := h.written hm
    exact ⟨a, x', hx, ha, hrun⟩

theorem of_pure {a : α} {x rest : Bytes} {b : α} (h : (pure a : ByteReader ε α).run x = .ok (b, rest)) :
    b = a ∧ rest = x := by
  cases h
  exact ⟨rfl, rfl⟩

end

/-! ## Fields -/

/-- `n` bytes; `short` is the error when the input ends before. -/
def bytes (n : ℕ) (short : ε) : ByteReader ε Bytes := fun x =>
  if x.length < n then .error short else .ok (x.take n, x.drop n)

theorem reads_bytes (n : ℕ) (short : ε) : Reads (bytes n short) (fun raw => raw) (·.length = n) where
  read {a} rest ha := by
    have hlong : ¬(a ++ rest).length < n := by
      rw [List.length_append, ha]
      omega
    change (if (a ++ rest).length < n then _ else _) = _
    rw [if_neg hlong, List.take_left' ha, List.drop_left' ha]
  written {x rest a} h := by
    change (if x.length < n then _ else _) = _ at h
    split_ifs at h with hshort
    cases h
    exact ⟨(List.take_append_drop n x).symm, List.length_take_of_le (Nat.not_lt.mp hshort)⟩

/-- An array of `n` bytes. -/
def array (n : ℕ) (short : ε) : ByteReader ε (FixedBytes n) := fun x =>
  if h : n ≤ x.length then .ok (⟨x.take n, List.length_take_of_le h⟩, x.drop n) else .error short

theorem reads_array (n : ℕ) (short : ε) : Reads (array n short) FixedBytes.bytes fun _ => True where
  read {a} rest _ := by
    have hlong : n ≤ (a.bytes ++ rest).length := by
      rw [List.length_append, a.length_eq]
      omega
    change (if h : n ≤ (a.bytes ++ rest).length then _ else _) = _
    rw [dif_pos hlong]
    simp only [List.take_left' a.length_eq, List.drop_left' a.length_eq]
  written {x rest a} h := by
    change (if h : n ≤ x.length then _ else _) = _ at h
    split_ifs at h with hlong
    cases h
    exact ⟨(List.take_append_drop n x).symm, trivial⟩

def u8 (short : ε) : ByteReader ε UInt8 := fun x =>
  match x with
  | [] => .error short
  | b :: rest => .ok (b, rest)

theorem reads_u8 (short : ε) : Reads (u8 short) (fun b => [b]) fun _ => True where
  read _ _ := rfl
  written {x rest a} h := by
    rcases x with _ | ⟨b, x⟩
    · cases h
    · cases h
      exact ⟨rfl, trivial⟩

/-- An unsigned little-endian integer of `n` bytes. -/
def uint (n : ℕ) (short : ε) : ByteReader ε (BitVec (8 * n)) := do
  let raw ← bytes n short
  return BitVec.ofNat (8 * n) (ofLeBytes raw)

theorem reads_uint (n : ℕ) (short : ε) : Reads (uint n short) (fun v => leBytes n v.toNat) fun _ => True where
  read {v} rest _ := by
    have hv : v.toNat < 256 ^ n := by
      have := v.isLt
      rwa [pow_mul] at this
    have hback : BitVec.ofNat (8 * n) (ofLeBytes (leBytes n v.toNat)) = v := by
      rw [ofLeBytes_leBytes n _ hv, BitVec.ofNat_toNat, BitVec.setWidth_eq]
    unfold uint
    refine ((reads_bytes n short).run_bind rest (length_leBytes n v.toNat)).trans ?_
    rw [hback]
    rfl
  written {x rest v} h := by
    obtain ⟨raw, x', rfl, hlen, h⟩ := (reads_bytes n short).of_bind h
    obtain ⟨rfl, rfl⟩ := of_pure h
    have hraw : ofLeBytes raw < 2 ^ (8 * n) := by
      have := ofLeBytes_lt raw
      rwa [hlen, show 256 = 2 ^ 8 from rfl, ← pow_mul] at this
    rw [BitVec.toNat_ofNat, Nat.mod_eq_of_lt hraw, leBytes_ofLeBytes hlen]
    exact ⟨rfl, trivial⟩

/-- A byte that is zero or one. -/
def flag (short : ε) (invalid : UInt8 → ε) : ByteReader ε Bool := fun x =>
  match x with
  | [] => .error short
  | b :: rest => if b = 0 then .ok (false, rest) else if b = 1 then .ok (true, rest) else .error (invalid b)

def flagByte (b : Bool) : UInt8 := if b then 1 else 0

theorem reads_flag (short : ε) (invalid : UInt8 → ε) : Reads (flag short invalid) (fun b => [flagByte b]) fun _ => True where
  read {b} rest _ := by cases b <;> rfl
  written {x rest a} h := by
    rcases x with _ | ⟨b, x⟩
    · cases h
    change (if b = 0 then _ else if b = 1 then _ else _) = _ at h
    split_ifs at h with hzero hone
    · cases h
      rw [hzero]
      exact ⟨rfl, trivial⟩
    · cases h
      rw [hone]
      exact ⟨rfl, trivial⟩

/-- Go on only if `p` holds. -/
def ensure (p : Prop) [Decidable p] (e : ε) : ByteReader ε Unit := if p then pure () else throw e

theorem run_ensure {p : Prop} [Decidable p] {e : ε} {k : Unit → ByteReader ε β} (x : Bytes) (hp : p) :
    (ensure p e >>= k).run x = (k ()).run x := by
  rw [ensure, if_pos hp]
  rfl

variable {x : Bytes} {r : Except ε Unit}

theorem of_ensure {p : Prop} [Decidable p] {e : ε} {k : Unit → ByteReader ε β} {r : β × Bytes}
    (h : (ensure p e >>= k).run x = .ok r) : p ∧ (k ()).run x = .ok r := by
  unfold ensure at h
  split_ifs at h with hp
  · exact ⟨hp, h⟩
  · cases h

/-- Fail with the error of a check made elsewhere. -/
def check (r : Except ε Unit) : ByteReader ε Unit := fun x => r.map fun _ => ((), x)

theorem run_check {k : Unit → ByteReader ε β} (x : Bytes) (hr : r = .ok ()) :
    (check r >>= k).run x = (k ()).run x := by
  rw [hr]
  rfl

theorem of_check {k : Unit → ByteReader ε β} {s : β × Bytes}
    (h : (check r >>= k).run x = .ok s) : r = .ok () ∧ (k ()).run x = .ok s := by
  rcases r with e | u
  · cases h
  · exact ⟨rfl, h⟩

/-! ## Repetition -/

/-- The same format `n` times. -/
def vector (m : ByteReader ε α) : (n : ℕ) → ByteReader ε (List.Vector α n)
  | 0 => pure .nil
  | n + 1 => do
    let a ← m
    let v ← vector m n
    return .cons a v

variable {m : ByteReader ε α} {write : α → Bytes} {Fits : α → Prop}

theorem reads_vector (h : Reads m write Fits) (n : ℕ) :
    Reads (vector m n) (fun v => v.toList.flatMap write) fun v => ∀ a ∈ v.toList, Fits a := by
  induction n with
  | zero =>
    refine ⟨fun {v} rest _ => ?_, fun {x rest v} hrun => ?_⟩
    · rw [List.Vector.eq_nil v]
      rfl
    · obtain ⟨rfl, rfl⟩ := of_pure hrun
      exact ⟨rfl, fun a ha => absurd ha List.not_mem_nil⟩
  | succ n ih =>
    refine ⟨fun {v} rest hv => ?_, fun {x rest v} hrun => ?_⟩
    · rcases v with ⟨_ | ⟨a, l⟩, hl⟩
      · cases hl
      have ha : Fits a := hv a List.mem_cons_self
      have htail : ∀ b ∈ l, Fits b := fun b hb => hv b (List.mem_cons_of_mem a hb)
      have hlen : l.length = n := Nat.succ.inj hl
      change (m >>= _).run ((write a ++ l.flatMap write) ++ rest) = _
      rw [List.append_assoc, h.run_bind _ ha]
      exact ih.run_bind (a := ⟨l, hlen⟩) rest htail
    · obtain ⟨a, x', rfl, ha, hrun⟩ := h.of_bind hrun
      obtain ⟨tail, x'', rfl, htail, hrun⟩ := ih.of_bind hrun
      obtain ⟨rfl, rfl⟩ := of_pure hrun
      refine ⟨?_, ?_⟩
      · rw [List.Vector.toList_cons, List.flatMap_cons, List.append_assoc]
      rw [List.Vector.toList_cons]
      intro b hb
      rcases List.mem_cons.mp hb with rfl | hb
      · exact ha
      · exact htail b hb

/-- A value after a flag that says whether it is there. -/
def optional (present : ByteReader ε Bool) (m : ByteReader ε α) : ByteReader ε (Option α) := do
  match ← present with
  | true => return some (← m)
  | false => return none

def writeOptional (write : α → Bytes) : Option α → Bytes
  | none => [flagByte false]
  | some a => flagByte true :: write a

theorem reads_optional {present : ByteReader ε Bool}
    (hpresent : Reads present (fun b => [flagByte b]) fun _ => True) (h : Reads m write Fits) :
    Reads (optional present m) (writeOptional write) fun o => ∀ a, o = some a → Fits a where
  read {o} rest ho := by
    rcases o with _ | a
    · exact hpresent.run_bind (a := false) rest trivial
    · change (present >>= _).run ([flagByte true] ++ (write a ++ rest)) = _
      rw [hpresent.run_bind _ trivial]
      exact h.run_bind rest (ho a rfl)
  written {x rest o} hrun := by
    obtain ⟨b, x', rfl, -, hrun⟩ := hpresent.of_bind hrun
    rcases b with _ | _
    · obtain ⟨rfl, rfl⟩ := of_pure hrun
      exact ⟨rfl, fun a ha => by cases ha⟩
    obtain ⟨a, x'', rfl, ha, hrun⟩ := h.of_bind hrun
    obtain ⟨rfl, rfl⟩ := of_pure hrun
    refine ⟨rfl, fun a' ha' => ?_⟩
    cases ha'
    exact ha

/-! ## Whole inputs -/

/-- Read a value that takes up the whole input. -/
def runAll (m : ByteReader ε α) (trailing : ℕ → ε) (x : Bytes) : Except ε α :=
  match m.run x with
  | .error e => .error e
  | .ok (a, rest) => if rest.length ≠ 0 then .error (trailing rest.length) else .ok a

theorem Reads.runAll_eq_ok (h : Reads m write Fits) {trailing : ℕ → ε} {a : α} :
    m.runAll trailing x = .ok a ↔ x = write a ∧ Fits a := by
  unfold runAll
  constructor
  · intro hrun
    rcases hm : m.run x with e | ⟨b, rest⟩
    · rw [hm] at hrun
      cases hrun
    rw [hm] at hrun
    dsimp only at hrun
    split_ifs at hrun with hrest
    cases hrun
    obtain ⟨hx, ha⟩ := h.written hm
    have hnil : rest = [] := List.eq_nil_of_length_eq_zero (not_not.mp hrest)
    rw [hnil, List.append_nil] at hx
    exact ⟨hx, ha⟩
  · rintro ⟨rfl, ha⟩
    have hread := h.read [] ha
    rw [List.append_nil] at hread
    rw [hread]
    rfl

end ByteReader
