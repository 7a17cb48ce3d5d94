import SovChain.Mining.Difficulty
import Mathlib.Data.Int.ModEq

/-!
# Share targets of the Stratum bridge

The bridge divides 2^256 - 1 by a difficulty on its own, one limb of 64 bits at a time. The quotient is the consensus target of
that difficulty, byte for byte.
-/

namespace Sov
open Codec (leBytes length_leBytes)

/-- A number in `n` bytes, the most significant one first. -/
def beBytes (n x : ℕ) : Bytes := (leBytes n x).reverse

def Target.asHash (t : Target) : Hash := ⟨beBytes 32 t.toNat, by simp [beBytes]⟩

namespace Stratum

/-- The remainder with a limb of ones behind it, in 128 bits. -/
def dividend (rem : ℕ) : ℕ := rem <<< 64 % 2 ^ 128 ||| (2 ^ 64 - 1)

/-- The remainder that is left for a limb. -/
def remainder (d : ℕ) : ℕ → ℕ
  | 0 => 0
  | limb + 1 => dividend (remainder d limb) % d

/-- The quotient of a limb, before it is cast to 64 bits. -/
def quotient (d limb : ℕ) : ℕ := dividend (remainder d limb) / d

def difficultyToTarget256 (difficulty : U64) : Hash where
  bytes := (List.range 4).flatMap fun limb => beBytes 8 (quotient (max difficulty.toNat 1) limb % 2 ^ 64)
  length_eq := by simp [beBytes]

def effectiveShareTarget (share network : Hash) : Hash := if share < network then network else share

inductive ShareOutcome
  | tooWeak
  | share
  | block
deriving DecidableEq

def classifySeal (hash shareTarget networkTarget : Hash) : ShareOutcome :=
  if hash ≤ networkTarget then .block else if hash ≤ shareTarget then .share else .tooWeak

/-! ## Bytes of numbers -/

theorem leBytes_add (m n x : ℕ) : leBytes (m + n) x = leBytes m x ++ leBytes n (x / 256 ^ m) := by
  induction m generalizing x with
  | zero => simp [leBytes]
  | succ m ih => rw [Nat.add_right_comm, leBytes, leBytes, ih, Nat.div_div_eq_div_mul, ← Nat.pow_succ', List.cons_append]

theorem leBytes_mod (n x : ℕ) : leBytes n (x % 256 ^ n) = leBytes n x := by
  induction n generalizing x with
  | zero => rfl
  | succ n ih => rw [leBytes, leBytes, Nat.pow_succ', Nat.mod_mul_right_mod, Nat.mod_mul_right_div_self, ih]

theorem beBytes_succ (n x : ℕ) : beBytes (n + 1) x = UInt8.ofNat (x / 256 ^ n % 256) :: beBytes n x := by
  rw [beBytes, leBytes_add, List.reverse_append]
  rfl

/-- The order of the bytes is the order of the numbers. -/
theorem beBytes_mono {n x y : ℕ} (hle : x ≤ y) (hy : y < 256 ^ n) :
    (beBytes n x).map UInt8.toNat ≤ (beBytes n y).map UInt8.toNat := by
  induction n generalizing x y with
  | zero => exact le_of_eq rfl
  | succ n ih =>
    have htop : y / 256 ^ n < 256 := Nat.div_lt_of_lt_mul hy
    have hdiv : x / 256 ^ n ≤ y / 256 ^ n := Nat.div_le_div_right hle
    have hval : ∀ {z}, z ≤ y / 256 ^ n → (UInt8.ofNat (z % 256)).toNat = z := by
      intro z hz
      have := hz.trans_lt htop
      simp [Nat.mod_eq_of_lt this]
    rw [beBytes_succ, beBytes_succ, List.map_cons, List.map_cons, hval hdiv, hval le_rfl]
    rcases hdiv.lt_or_eq with hlt | heq
    · exact le_of_lt (List.Lex.rel hlt)
    have hrest : x % 256 ^ n ≤ y % 256 ^ n := by
      have hx := Nat.div_add_mod x (256 ^ n)
      have hy := Nat.div_add_mod y (256 ^ n)
      rw [heq] at hx
      omega
    have hbytes := ih hrest (Nat.mod_lt y (Nat.pow_pos (by decide)))
    unfold beBytes at hbytes ⊢
    rw [leBytes_mod, leBytes_mod] at hbytes
    rw [heq]
    exact List.cons_le_cons _ hbytes

/-! ## The division -/

theorem ones_succ (limb : ℕ) : 2 ^ (64 * (limb + 1)) - 1 = (2 ^ (64 * limb) - 1) * 2 ^ 64 + (2 ^ 64 - 1) := by
  have hpos : 0 < 2 ^ (64 * limb) := Nat.two_pow_pos _
  rw [Nat.mul_succ, pow_add]
  omega

section
variable {d : ℕ} (hd : 0 < d) (hlt : d < 2 ^ 64)

include hd hlt

theorem dividend_remainder (limb : ℕ) :
    dividend (remainder d limb) = remainder d limb * 2 ^ 64 + (2 ^ 64 - 1) ∧ remainder d limb < d := by
  have hrem : remainder d limb < d := by
    cases limb with
    | zero => exact hd
    | succ limb => exact Nat.mod_lt _ hd
  refine ⟨?_, hrem⟩
  have hfits : remainder d limb <<< 64 < 2 ^ 128 := by
    rw [Nat.shiftLeft_eq]
    omega
  rw [dividend, Nat.mod_eq_of_lt hfits, ← Nat.shiftLeft_add_eq_or_of_lt (by decide), Nat.shiftLeft_eq]

theorem quotient_lt (limb : ℕ) : quotient d limb < 2 ^ 64 := by
  obtain ⟨heq, hrem⟩ := dividend_remainder hd hlt limb
  rw [quotient, heq]
  refine Nat.div_lt_of_lt_mul ?_
  have hmul : (remainder d limb + 1) * 2 ^ 64 ≤ d * 2 ^ 64 := Nat.mul_le_mul_right _ hrem
  omega

/-- The remainder that is left for a limb is that of the limbs before it. -/
theorem remainder_eq (limb : ℕ) : remainder d limb = (2 ^ (64 * limb) - 1) % d := by
  induction limb with
  | zero => simp [remainder]
  | succ limb ih =>
    rw [remainder, (dividend_remainder hd hlt limb).1, ih, ones_succ]
    exact ((Nat.mod_modEq _ d).mul_right _).add_right _

theorem quotient_step (limb : ℕ) :
    (2 ^ (64 * (limb + 1)) - 1) / d = 2 ^ 64 * ((2 ^ (64 * limb) - 1) / d) + quotient d limb := by
  have hsplit : ∀ x k c, x * k + c = d * (k * (x / d)) + (x % d * k + c) := by
    intro x k c
    conv_lhs => rw [← Nat.div_add_mod x d]
    rw [Nat.add_mul, Nat.mul_assoc, Nat.mul_comm (x / d), Nat.add_assoc]
  rw [quotient, (dividend_remainder hd hlt limb).1, remainder_eq hd hlt, ones_succ, hsplit, Nat.mul_add_div hd]

theorem flatMap_quotient (n : ℕ) :
    (List.range n).flatMap (fun limb => beBytes 8 (quotient d limb % 2 ^ 64)) = beBytes (8 * n) ((2 ^ (64 * n) - 1) / d) := by
  induction n with
  | zero => rfl
  | succ n ih =>
    have hstep := quotient_step hd hlt n
    have hlow : quotient d n % 2 ^ 64 = (2 ^ (64 * (n + 1)) - 1) / d % 256 ^ 8 := by
      rw [hstep]
      omega
    have hhigh : (2 ^ (64 * (n + 1)) - 1) / d / 256 ^ 8 = (2 ^ (64 * n) - 1) / d := by
      have := quotient_lt hd hlt n
      rw [hstep]
      omega
    rw [List.range_succ, List.flatMap_append, ih, List.flatMap_singleton, hlow, Nat.mul_succ 8, Nat.add_comm (8 * n)]
    unfold beBytes
    rw [leBytes_mod, leBytes_add 8, List.reverse_append, hhigh]

end

/-- The bridge asks for the consensus target of every difficulty, and what it takes for a block is a share as well. -/
theorem share_targets_agree (d : U64) : (difficultyToTarget256 d).bytes = beBytes 32 ((2 ^ 256 - 1) / max d.toNat 1) ∧
      difficultyToTarget256 d = (Difficulty.toTarget (d.setWidth 128)).asHash ∧
      (∀ d', d ≤ d' → difficultyToTarget256 d' ≤ difficultyToTarget256 d) ∧
      (∀ limb < 4, quotient (max d.toNat 1) limb < 2 ^ 64) ∧
      ∀ hash share network, classifySeal hash share network = .block →
        hash ≤ effectiveShareTarget (difficultyToTarget256 d) network := by
  have hbytes : ∀ d : U64, (difficultyToTarget256 d).bytes = beBytes 32 ((2 ^ 256 - 1) / max d.toNat 1) := fun d =>
    flatMap_quotient (by omega) (by omega) 4
  refine ⟨hbytes d, ?_, fun d' hle => ?_, fun limb _ => quotient_lt (by omega) (by omega) limb, fun hash share network h => ?_⟩
  · have hd : (d.setWidth 128).toNat = d.toNat := by
      rw [BitVec.toNat_setWidth]
      exact Nat.mod_eq_of_lt (by omega)
    have htarget := Difficulty.toNat_toTarget (d.setWidth 128)
    rw [hd] at htarget
    exact FixedBytes.bytes_injective ((hbytes d).trans (congrArg (beBytes 32) htarget.symm))
  · have hpos : 0 < max d.toNat 1 := by omega
    show (difficultyToTarget256 d').bytes.map UInt8.toNat ≤ (difficultyToTarget256 d).bytes.map UInt8.toNat
    rw [hbytes, hbytes]
    refine beBytes_mono (Nat.div_le_div_left (max_le_max_right 1 hle) hpos) ?_
    exact (Nat.div_le_self _ _).trans_lt (by omega)
  · unfold classifySeal at h
    unfold effectiveShareTarget
    split_ifs at h with hnetwork
    split_ifs with hshare
    · exact hnetwork
    · exact hnetwork.trans (not_lt.mp hshare)

end Stratum
end Sov
