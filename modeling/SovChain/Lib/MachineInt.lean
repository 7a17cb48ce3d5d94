import Mathlib.Algebra.BigOperators.Group.List.Basic
import Mathlib.Algebra.Ring.Nat
import Mathlib.Tactic.SplitIfs

/-!
# Checked and saturating machine arithmetic

Unsigned machine integers of width `w` are `BitVec w`. A checked operation returns `none` where the
exact result does not fit; a saturating one clamps it. Each checked operation has one specification,
an equation between natural numbers: `checkedAdd a b = some c` says exactly that `c` is the sum of `a`
and `b` as numbers. Proofs use these equations and never unfold the operations.
-/

namespace BitVec
variable {w : ℕ}

/-- The largest value of the width. -/
def maxValue (w : ℕ) : BitVec w := BitVec.ofNat w (2 ^ w - 1)

/-- Addition, `none` on overflow. -/
def checkedAdd (a b : BitVec w) : Option (BitVec w) :=
  if a.toNat + b.toNat < 2 ^ w then some (a + b) else none

/-- Subtraction, `none` on underflow. -/
def checkedSub (a b : BitVec w) : Option (BitVec w) :=
  if b.toNat ≤ a.toNat then some (a - b) else none

/-- Multiplication, `none` on overflow. -/
def checkedMul (a b : BitVec w) : Option (BitVec w) :=
  if a.toNat * b.toNat < 2 ^ w then some (a * b) else none

/-- Addition, clamped to the largest value. -/
def saturatingAdd (a b : BitVec w) : BitVec w := (checkedAdd a b).getD (maxValue w)

/-- Subtraction, clamped to zero. -/
def saturatingSub (a b : BitVec w) : BitVec w := (checkedSub a b).getD 0

/-- Multiplication, clamped to the largest value. -/
def saturatingMul (a b : BitVec w) : BitVec w := (checkedMul a b).getD (maxValue w)

/-- The sum of a list, `none` as soon as a partial sum overflows. -/
def checkedSum : BitVec w → List (BitVec w) → Option (BitVec w)
  | acc, [] => some acc
  | acc, x :: xs => (checkedAdd acc x).bind fun acc' => checkedSum acc' xs

variable {a b c : BitVec w}

theorem checkedAdd_eq_some : checkedAdd a b = some c ↔ a.toNat + b.toNat = c.toNat := by
  rw [checkedAdd]
  split_ifs with h
  · rw [Option.some_inj, ← BitVec.toNat_inj, BitVec.toNat_add, Nat.mod_eq_of_lt h]
  have := c.isLt
  constructor
  · exact fun hc => absurd hc (by simp)
  · intro hc
    omega

theorem checkedSub_eq_some : checkedSub a b = some c ↔ a.toNat = b.toNat + c.toNat := by
  rw [checkedSub]
  split_ifs with h
  · rw [Option.some_inj, ← BitVec.toNat_inj, BitVec.toNat_sub_of_le (BitVec.le_def.mpr h)]
    omega
  constructor
  · exact fun hc => absurd hc (by simp)
  · intro hc
    omega

theorem checkedMul_eq_some : checkedMul a b = some c ↔ a.toNat * b.toNat = c.toNat := by
  rw [checkedMul]
  split_ifs with h
  · rw [Option.some_inj, ← BitVec.toNat_inj, BitVec.toNat_mul, Nat.mod_eq_of_lt h]
  have := c.isLt
  constructor
  · exact fun hc => absurd hc (by simp)
  · intro hc
    omega

theorem checkedAdd_eq_none : checkedAdd a b = none ↔ 2 ^ w ≤ a.toNat + b.toNat := by
  rw [checkedAdd]
  split_ifs with h <;> simp <;> omega

theorem checkedSub_eq_none : checkedSub a b = none ↔ a.toNat < b.toNat := by
  rw [checkedSub]
  split_ifs with h <;> simp <;> omega

theorem toNat_maxValue : (maxValue w).toNat = 2 ^ w - 1 := by
  have := Nat.two_pow_pos w
  simp [maxValue]

theorem toNat_saturatingAdd (a b : BitVec w) : (saturatingAdd a b).toNat = min (a.toNat + b.toNat) (2 ^ w - 1) := by
  rw [saturatingAdd]
  cases h : checkedAdd a b with
  | none =>
    rw [checkedAdd_eq_none] at h
    rw [Option.getD_none, toNat_maxValue]
    omega
  | some c =>
    rw [checkedAdd_eq_some] at h
    have := c.isLt
    rw [Option.getD_some]
    omega

theorem toNat_saturatingSub (a b : BitVec w) : (saturatingSub a b).toNat = a.toNat - b.toNat := by
  rw [saturatingSub]
  cases h : checkedSub a b with
  | none =>
    rw [checkedSub_eq_none] at h
    rw [Option.getD_none]
    simp
    omega
  | some c =>
    rw [checkedSub_eq_some] at h
    rw [Option.getD_some]
    omega

/-- Partial sums never exceed the whole, so a checked sum fails exactly when the total is too
large. -/
theorem checkedSum_eq_some {acc s : BitVec w} {xs : List (BitVec w)} :
    checkedSum acc xs = some s ↔ acc.toNat + (xs.map BitVec.toNat).sum = s.toNat := by
  induction xs generalizing acc with
  | nil => simp [checkedSum, BitVec.toNat_inj]
  | cons x xs ih =>
    rw [checkedSum, List.map_cons, List.sum_cons]
    cases h : checkedAdd acc x with
    | none =>
      rw [checkedAdd_eq_none] at h
      have := s.isLt
      simp only [Option.bind_none]
      constructor
      · exact fun hc => absurd hc (by simp)
      · intro hc
        omega
    | some acc' =>
      rw [checkedAdd_eq_some] at h
      rw [Option.bind_some, ih]
      omega

theorem checkedSum_mapM_eq_some {α : Type} {f : α → Option (BitVec w)} {g : α → ℕ}
    (hf : ∀ a t, f a = some t ↔ g a = t.toNat) {l : List α} {rest : List (BitVec w)} {acc s : BitVec w} :
    ((l.mapM f).bind fun ts => checkedSum acc (ts ++ rest)) = some s ↔
      acc.toNat + ((l.map g).sum + (rest.map BitVec.toNat).sum) = s.toNat := by
  induction l generalizing acc with
  | nil => simp [checkedSum_eq_some]
  | cons a l ih =>
    rw [List.mapM_cons, List.map_cons, List.sum_cons]
    cases ha : f a with
    | none =>
      have hlarge : 2 ^ w ≤ g a := by
        by_contra hlt
        have := (hf a (BitVec.ofNat w (g a))).mpr (by
          rw [BitVec.toNat_ofNat, Nat.mod_eq_of_lt (by omega)])
        simp [ha] at this
      have := s.isLt
      simp only [Option.bind_eq_bind, Option.bind_none]
      constructor
      · exact fun hc => absurd hc (by simp)
      · intro hc
        omega
    | some x =>
      have hx := (hf a x).mp ha
      simp only [Option.bind_eq_bind, Option.bind_some, Option.pure_def, Option.bind_assoc,
        List.cons_append, checkedSum]
      cases hadd : checkedAdd acc x with
      | none =>
        rw [checkedAdd_eq_none] at hadd
        have := s.isLt
        simp only [Option.bind_none, Option.bind_fun_none]
        constructor
        · exact fun hc => absurd hc (by simp)
        · intro hc
          omega
      | some acc' =>
        rw [checkedAdd_eq_some] at hadd
        simp only [Option.bind_some, ih]
        omega

end BitVec
