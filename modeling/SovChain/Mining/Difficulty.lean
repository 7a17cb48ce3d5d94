import SovChain.Mining.Policy

/-!
# `sov-pow` and `sov-mining`: targets, work and difficulty

The source computes with 256-bit integers that are wide enough for every intermediate value, so the
arithmetic here is that of the natural numbers.
-/

namespace Sov
open BitVec (eq_of_toNat_eq toNat_ofNat)

/-- A hash read as a big-endian number. -/
def Hash.toNat (h : Hash) : ℕ := h.bytes.foldl (fun acc b => 256 * acc + b.toNat) 0

namespace Target

def isMetBy (t : Target) (h : Hash) : Bool := h.toNat ≤ t.toNat

/-- The number of bytes up to the most significant one that is not zero. -/
def significantBytes (t : Target) : ℕ := if t = 0 then 0 else Nat.log2 t.toNat / 8 + 1

/-- The three most significant bytes; bytes a short value lacks read as zero. -/
def leadingBytes (t : Target) : ℕ :=
  if 3 ≤ t.significantBytes then t.toNat >>> (8 * (t.significantBytes - 3))
  else t.toNat <<< (8 * (3 - t.significantBytes))

/-- The compact form: a size byte and a mantissa of three bytes whose sign bit is kept clear. -/
def toCompact (t : Target) : U32 :=
  if t = 0 then 0
  else if t.leadingBytes.testBit 23 then
    BitVec.ofNat 32 ((t.significantBytes + 1) * 2 ^ 24 + t.leadingBytes / 2 ^ 8)
  else BitVec.ofNat 32 (t.significantBytes * 2 ^ 24 + t.leadingBytes)

/-- The target of a compact form; `none` if the sign bit is set or the value does not fit. -/
def fromCompact (bits : U32) : Option Target :=
  let size := bits.toNat / 2 ^ 24
  let mantissa := bits.toNat % 2 ^ 23
  if bits.toNat.testBit 23 then none
  else if mantissa = 0 then some 0
  else if 34 < size ∨ (0xff < mantissa ∧ 33 < size) ∨ (0xffff < mantissa ∧ 32 < size) then none
  else if size ≤ 3 then some (BitVec.ofNat 256 (mantissa >>> (8 * (3 - size))))
  else some (BitVec.ofNat 256 (mantissa <<< (8 * (size - 3))))

variable {t : Target}

theorem significantBytes_le (t : Target) : t.significantBytes ≤ 32 := by
  unfold significantBytes
  split_ifs with h
  · omega
  · have ht : t.toNat ≠ 0 := fun h0 => h (eq_of_toNat_eq (by simpa using h0))
    have := (Nat.log2_lt ht).mpr t.isLt
    omega

theorem toNat_ne_zero (h : t ≠ 0) : t.toNat ≠ 0 := fun h0 => h (eq_of_toNat_eq (by simpa using h0))

theorem lt_two_pow_significantBytes (t : Target) : t.toNat < 2 ^ (8 * t.significantBytes) := by
  unfold significantBytes
  split_ifs with h
  · simp [h]
  · exact Nat.lt_log2_self.trans_le (Nat.pow_le_pow_right (by omega) (by omega))

theorem two_pow_significantBytes_le (h : t ≠ 0) : 2 ^ (8 * (t.significantBytes - 1)) ≤ t.toNat := by
  rw [significantBytes, if_neg h]
  refine le_trans (Nat.pow_le_pow_right (by omega) ?_) (Nat.log2_self_le (toNat_ne_zero h))
  omega

theorem significantBytes_pos (h : t ≠ 0) : 0 < t.significantBytes := by
  rw [significantBytes, if_neg h]
  omega

/-- The number of bytes is determined by bounds. -/
theorem significantBytes_eq {n : ℕ} (hlow : 2 ^ (8 * n) ≤ t.toNat) (hhigh : t.toNat < 2 ^ (8 * (n + 1))) :
    t.significantBytes = n + 1 := by
  have h : t ≠ 0 := by
    rintro rfl
    have := Nat.two_pow_pos (8 * n)
    simp at hlow
  have h1 := (Nat.pow_lt_pow_iff_right (by omega : 1 < 2)).mp (hlow.trans_lt t.lt_two_pow_significantBytes)
  have h2 := (Nat.pow_lt_pow_iff_right (by omega : 1 < 2)).mp ((two_pow_significantBytes_le h).trans_lt hhigh)
  omega

theorem leadingBytes_of_le (h : 3 ≤ t.significantBytes) :
    t.leadingBytes = t.toNat / 2 ^ (8 * (t.significantBytes - 3)) := by
  rw [leadingBytes, if_pos h, Nat.shiftRight_eq_div_pow]

theorem leadingBytes_of_lt (h : ¬3 ≤ t.significantBytes) :
    t.leadingBytes = t.toNat * 2 ^ (8 * (3 - t.significantBytes)) := by
  rw [leadingBytes, if_neg h, Nat.shiftLeft_eq]

theorem le_leadingBytes (h : t ≠ 0) : 2 ^ 16 ≤ t.leadingBytes := by
  have hlow := two_pow_significantBytes_le h
  have hpos := significantBytes_pos h
  by_cases h3 : 3 ≤ t.significantBytes
  · rw [leadingBytes_of_le h3, Nat.le_div_iff_mul_le (Nat.two_pow_pos _), ← pow_add]
    exact le_trans (Nat.pow_le_pow_right (by omega) (by omega)) hlow
  rw [leadingBytes_of_lt h3]
  calc 2 ^ 16 = 2 ^ (8 * (t.significantBytes - 1)) * 2 ^ (8 * (3 - t.significantBytes)) := by
        rw [← pow_add]; congr 1; omega
    _ ≤ _ := Nat.mul_le_mul_right _ hlow

theorem fromCompact_ofNat {size mantissa : ℕ} (hm : mantissa < 2 ^ 23) (h0 : mantissa ≠ 0) (hs : size ≤ 33)
    (h33 : size = 33 → mantissa < 2 ^ 16) :
    fromCompact (BitVec.ofNat 32 (size * 2 ^ 24 + mantissa)) =
      if size ≤ 3 then some (BitVec.ofNat 256 (mantissa >>> (8 * (3 - size))))
      else some (BitVec.ofNat 256 (mantissa <<< (8 * (size - 3)))) := by
  have hval : (BitVec.ofNat 32 (size * 2 ^ 24 + mantissa)).toNat = size * 2 ^ 24 + mantissa := by
    rw [toNat_ofNat, Nat.mod_eq_of_lt (by omega)]
  have hbit : (size * 2 ^ 24 + mantissa).testBit 23 = false := by
    rw [Nat.testBit_eq_decide_div_mod_eq]
    simp
    omega
  have hsize : (size * 2 ^ 24 + mantissa) / 2 ^ 24 = size := by omega
  have hmant : (size * 2 ^ 24 + mantissa) % 2 ^ 23 = mantissa := by omega
  unfold fromCompact
  simp only [hval, hbit, hsize, hmant]
  rw [if_neg (by simp), if_neg h0, if_neg (by omega)]

theorem lt_of_not_testBit {n : ℕ} (h : ¬n.testBit 23 = true) (hn : n < 2 ^ 24) : n < 2 ^ 23 := by
  rw [Nat.testBit_eq_decide_div_mod_eq] at h
  simp only [decide_eq_true_eq] at h
  omega

theorem leadingBytes_lt (t : Target) : t.leadingBytes < 2 ^ 24 := by
  have hlt := t.lt_two_pow_significantBytes
  by_cases h3 : 3 ≤ t.significantBytes
  · rw [leadingBytes_of_le h3, Nat.div_lt_iff_lt_mul (Nat.two_pow_pos _), ← pow_add]
    exact hlt.trans_eq (by congr 1; omega)
  rw [leadingBytes_of_lt h3]
  calc t.toNat * 2 ^ (8 * (3 - t.significantBytes))
      < 2 ^ (8 * t.significantBytes) * 2 ^ (8 * (3 - t.significantBytes)) :=
        Nat.mul_lt_mul_of_pos_right hlt (Nat.two_pow_pos _)
    _ = 2 ^ 24 := by rw [← pow_add]; congr 1; omega

theorem fromCompact_toCompact_isSome (t : Target) : (fromCompact t.toCompact).isSome := by
  by_cases h0 : t = 0
  · subst h0
    decide
  have hsize := t.significantBytes_le
  have hlead := t.leadingBytes_lt
  have hlow := le_leadingBytes h0
  rw [toCompact, if_neg h0]
  split_ifs with hbit
  · rw [fromCompact_ofNat (by omega) (by omega) (by omega) (by omega)]
    split_ifs <;> rfl
  · rw [fromCompact_ofNat (lt_of_not_testBit hbit hlead) (by omega) (by omega) (by omega)]
    split_ifs <;> rfl

/-- A target as precise as its compact form; the source's `expect` never fails. -/
def canonical (t : Target) : Target :=
  (fromCompact t.toCompact).get t.fromCompact_toCompact_isSome

/-- The bits that do not fit the mantissa. -/
def cutBits (t : Target) : ℕ :=
  if ¬3 ≤ t.significantBytes then 0
  else if t.leadingBytes.testBit 23 then 8 * (t.significantBytes - 2)
  else 8 * (t.significantBytes - 3)

/-- The compact form cuts the low bits off. -/
theorem toNat_canonical (t : Target) : t.canonical.toNat = t.toNat / 2 ^ t.cutBits * 2 ^ t.cutBits := by
  by_cases h : t = 0
  · subst h
    decide
  have hlead := t.leadingBytes_lt
  have hsize := t.significantBytes_le
  have hlow := le_leadingBytes h
  have hpos := significantBytes_pos h
  have hcut : t.toNat / 2 ^ t.cutBits * 2 ^ t.cutBits < 2 ^ 256 :=
    (Nat.div_mul_le_self _ _).trans_lt t.isLt
  suffices hread : fromCompact t.toCompact = some (BitVec.ofNat 256 (t.toNat / 2 ^ t.cutBits * 2 ^ t.cutBits)) by
    rw [canonical]
    simp only [hread, Option.get_some, toNat_ofNat]
    exact Nat.mod_eq_of_lt hcut
  rw [toCompact, if_neg h]
  by_cases hbit : t.leadingBytes.testBit 23 = true
  · rw [if_pos hbit, fromCompact_ofNat (by omega) (by omega) (by omega) (by omega)]
    by_cases h3 : 3 ≤ t.significantBytes
    · have hc : t.cutBits = 8 * (t.significantBytes - 2) := by rw [cutBits, if_neg (not_not.mpr h3), if_pos hbit]
      have hexp : 8 * (t.significantBytes + 1 - 3) = 8 * (t.significantBytes - 2) := by omega
      rw [if_neg (by omega), hexp, hc, leadingBytes_of_le h3, Nat.shiftLeft_eq, Nat.div_div_eq_div_mul, ← pow_add]
      congr 5
      omega
    · have hc : t.cutBits = 0 := by rw [cutBits, if_pos h3]
      have hexp : 2 ^ (8 * (3 - t.significantBytes)) = 2 ^ (8 * (3 - (t.significantBytes + 1))) * 2 ^ 8 := by
        rw [← pow_add]; congr 1; omega
      rw [if_pos (by omega), hc, leadingBytes_of_lt h3, hexp, ← Nat.mul_assoc,
        Nat.mul_div_cancel _ (by decide), Nat.shiftRight_eq_div_pow, Nat.mul_div_cancel _ (Nat.two_pow_pos _)]
      simp
  · rw [if_neg hbit, fromCompact_ofNat (lt_of_not_testBit hbit hlead) (by omega) (by omega) (by omega)]
    by_cases h3 : 3 ≤ t.significantBytes
    · have hc : t.cutBits = 8 * (t.significantBytes - 3) := by rw [cutBits, if_neg (not_not.mpr h3), if_neg hbit]
      rw [hc, leadingBytes_of_le h3]
      split_ifs with hs3
      · have h0 : t.significantBytes = 3 := by omega
        simp [h0]
      · rw [Nat.shiftLeft_eq]
    · have hc : t.cutBits = 0 := by rw [cutBits, if_pos h3]
      rw [if_pos (by omega), hc, leadingBytes_of_lt h3, Nat.shiftRight_eq_div_pow,
        Nat.mul_div_cancel _ (Nat.two_pow_pos _)]
      simp

theorem two_pow_le_div_cutBits (t : Target) : t.cutBits = 0 ∨ 2 ^ 15 ≤ t.toNat / 2 ^ t.cutBits := by
  by_cases h3 : 3 ≤ t.significantBytes
  · have h : t ≠ 0 := by
      rintro rfl
      simp [significantBytes] at h3
    have hlow := le_leadingBytes h
    rw [leadingBytes_of_le h3] at hlow
    refine .inr ?_
    rw [cutBits, if_neg (not_not.mpr h3)]
    split_ifs with hbit
    · rw [Nat.testBit_eq_decide_div_mod_eq, leadingBytes_of_le h3] at hbit
      simp only [decide_eq_true_eq] at hbit
      have hexp : 8 * (t.significantBytes - 2) = 8 * (t.significantBytes - 3) + 8 := by omega
      rw [hexp, pow_add, ← Nat.div_div_eq_div_mul]
      omega
    · omega
  · exact .inl (by rw [cutBits, if_pos h3])

theorem canonical_le (t : Target) : t.canonical.toNat ≤ t.toNat := by
  rw [toNat_canonical]
  exact Nat.div_mul_le_self _ _

theorem le_two_mul_canonical (t : Target) : t.toNat ≤ 2 * t.canonical.toNat := by
  rw [toNat_canonical]
  obtain h | h := t.two_pow_le_div_cutBits
  · rw [h, pow_zero, Nat.div_one, Nat.mul_one]
    omega
  have hmod := Nat.div_add_mod t.toNat (2 ^ t.cutBits)
  have hlt := Nat.mod_lt t.toNat (Nat.two_pow_pos t.cutBits)
  have hle : 1 * 2 ^ t.cutBits ≤ t.toNat / 2 ^ t.cutBits * 2 ^ t.cutBits :=
    Nat.mul_le_mul_right _ (by omega)
  rw [Nat.mul_comm] at hmod
  omega

theorem toCompact_canonical (t : Target) : t.canonical.toCompact = t.toCompact := by
  by_cases h : t = 0
  · subst h
    decide
  by_cases h3 : 3 ≤ t.significantBytes
  · have hlow := two_pow_significantBytes_le h
    have hhigh := t.lt_two_pow_significantBytes
    have hlead := leadingBytes_of_le h3
    have hle : t.cutBits ≤ 8 * (t.significantBytes - 1) := by
      rw [cutBits, if_neg (not_not.mpr h3)]
      split_ifs <;> omega
    have hsize : t.canonical.significantBytes = t.significantBytes := by
      have hn : t.significantBytes = t.significantBytes - 1 + 1 := by omega
      rw [hn]
      refine significantBytes_eq ?_ ?_
      · rw [toNat_canonical]
        have hsplit : 2 ^ (8 * (t.significantBytes - 1)) =
            2 ^ (8 * (t.significantBytes - 1) - t.cutBits) * 2 ^ t.cutBits := by
          rw [← pow_add]; congr 1; omega
        rw [hsplit] at hlow ⊢
        exact Nat.mul_le_mul_right _ ((Nat.le_div_iff_mul_le (Nat.two_pow_pos _)).mpr hlow)
      · rw [← hn]
        exact t.canonical_le.trans_lt hhigh
    have h0 : t.canonical ≠ 0 := by
      intro h0
      have hzero : (0 : Target).significantBytes = 0 := rfl
      rw [h0, hzero] at hsize
      omega
    have hlead' := leadingBytes_of_le (hsize ▸ h3)
    rw [hsize, toNat_canonical] at hlead'
    rw [toCompact, toCompact, if_neg h, if_neg h0, hsize]
    by_cases hbit : t.leadingBytes.testBit 23 = true
    · have hc : t.cutBits = 8 * (t.significantBytes - 3) + 8 := by
        rw [cutBits, if_neg (not_not.mpr h3), if_pos hbit]
        omega
      have hcut : t.canonical.leadingBytes = t.leadingBytes / 2 ^ 8 * 2 ^ 8 := by
        rw [hlead', hlead, hc, pow_add, ← Nat.div_div_eq_div_mul, Nat.mul_comm (2 ^ (8 * _)), ← Nat.mul_assoc,
          Nat.mul_div_cancel _ (Nat.two_pow_pos _)]
      have hbit' : t.canonical.leadingBytes.testBit 23 = true := by
        rw [hcut]
        rw [Nat.testBit_eq_decide_div_mod_eq] at hbit ⊢
        simp only [decide_eq_true_eq] at hbit ⊢
        omega
      rw [if_pos hbit, if_pos hbit', hcut, Nat.mul_div_cancel _ (Nat.two_pow_pos _)]
    · have hc : t.cutBits = 8 * (t.significantBytes - 3) := by rw [cutBits, if_neg (not_not.mpr h3), if_neg hbit]
      have hcut : t.canonical.leadingBytes = t.leadingBytes := by
        rw [hlead', hlead, hc, Nat.mul_div_cancel _ (Nat.two_pow_pos _)]
      rw [hcut]
  · have hsame : t.canonical = t := by
      refine eq_of_toNat_eq ?_
      rw [toNat_canonical, cutBits, if_pos h3]
      simp
    rw [hsame]

theorem fromCompact_toCompact (t : Target) : fromCompact t.toCompact = some t.canonical := (Option.some_get _).symm

theorem canonical_canonical (t : Target) : t.canonical.canonical = t.canonical := by
  have h := t.canonical.fromCompact_toCompact
  rw [toCompact_canonical, fromCompact_toCompact] at h
  exact (Option.some.inj h).symm

variable {bits : U32}

/-! ## The compact form as a number -/

/-- What the mantissa and the size of a compact form denote, its sign apart: ⌊mantissa · 256^(size - 3)⌋. -/
def compactValue (bits : U32) : ℕ := bits.toNat % 2 ^ 23 * 256 ^ (bits.toNat / 2 ^ 24) / 256 ^ 3

theorem compactValue_of_le (h : 3 ≤ bits.toNat / 2 ^ 24) :
    compactValue bits = bits.toNat % 2 ^ 23 * 256 ^ (bits.toNat / 2 ^ 24 - 3) := by
  rw [compactValue, ← Nat.sub_add_cancel h, pow_add, ← Nat.mul_assoc, Nat.mul_div_cancel _ (by decide)]
  rfl

theorem compactValue_of_lt (h : bits.toNat / 2 ^ 24 ≤ 3) :
    compactValue bits = bits.toNat % 2 ^ 23 / 256 ^ (3 - bits.toNat / 2 ^ 24) := by
  have hsplit : 256 ^ 3 = 256 ^ (3 - bits.toNat / 2 ^ 24) * 256 ^ (bits.toNat / 2 ^ 24) := by
    rw [← pow_add, Nat.sub_add_cancel h]
  rw [compactValue, hsplit, Nat.mul_div_mul_right _ _ (Nat.pow_pos (by decide))]

theorem toNat_of_fromCompact (h : fromCompact bits = some t) : t.toNat = compactValue bits := by
  unfold fromCompact at h
  dsimp only at h
  split_ifs at h with hsign hzero hlarge hsmall
  · cases h
    rw [compactValue, hzero, Nat.zero_mul]
    rfl
  · cases h
    have hlt : bits.toNat % 2 ^ 23 / 256 ^ (3 - bits.toNat / 2 ^ 24) < 2 ^ 256 :=
      (Nat.div_le_self _ _).trans_lt ((Nat.mod_lt _ (by decide)).trans (by decide))
    rw [compactValue_of_lt hsmall, toNat_ofNat, Nat.shiftRight_eq_div_pow, pow_mul]
    exact Nat.mod_eq_of_lt hlt
  · cases h
    -- The three bounds say that no byte of the mantissa leaves the word.
    have hbound : ∀ k, bits.toNat % 2 ^ 23 < 256 ^ k → k + (bits.toNat / 2 ^ 24 - 3) ≤ 32 →
        bits.toNat % 2 ^ 23 * 256 ^ (bits.toNat / 2 ^ 24 - 3) < 2 ^ 256 := by
      intro k hk hsize
      calc bits.toNat % 2 ^ 23 * 256 ^ (bits.toNat / 2 ^ 24 - 3)
          < 256 ^ k * 256 ^ (bits.toNat / 2 ^ 24 - 3) := Nat.mul_lt_mul_of_pos_right hk (Nat.pow_pos (by decide))
        _ = 256 ^ (k + (bits.toNat / 2 ^ 24 - 3)) := (pow_add ..).symm
        _ ≤ 256 ^ 32 := Nat.pow_le_pow_right (by decide) hsize
        _ = 2 ^ 256 := by decide
    have hlt : bits.toNat % 2 ^ 23 * 256 ^ (bits.toNat / 2 ^ 24 - 3) < 2 ^ 256 := by
      have hmantissa := Nat.mod_lt bits.toNat (by decide : 0 < 2 ^ 23)
      by_cases h1 : bits.toNat % 2 ^ 23 < 256
      · exact hbound 1 (by omega) (by omega)
      by_cases h2 : bits.toNat % 2 ^ 23 < 65536
      · exact hbound 2 (by omega) (by omega)
      · exact hbound 3 (by omega) (by omega)
    rw [compactValue_of_le (by omega), toNat_ofNat, Nat.shiftLeft_eq, pow_mul]
    exact Nat.mod_eq_of_lt hlt

theorem of_fromCompact_eq_none (h : fromCompact bits = none) :
    bits.toNat.testBit 23 = true ∨ 2 ^ 256 ≤ compactValue bits := by
  unfold fromCompact at h
  dsimp only at h
  split_ifs at h with hsign hzero hlarge
  · exact .inl hsign
  have hbound : ∀ k, 256 ^ k ≤ bits.toNat % 2 ^ 23 → 35 ≤ k + bits.toNat / 2 ^ 24 → 2 ^ 256 ≤ compactValue bits := by
    intro k hk hsize
    have hmantissa := Nat.mod_lt bits.toNat (by decide : 0 < 2 ^ 23)
    have hk3 : k < 3 := (Nat.pow_lt_pow_iff_right (by decide : 1 < 256)).mp (hk.trans_lt (hmantissa.trans (by decide)))
    rw [compactValue_of_le (by omega)]
    calc 2 ^ 256 = 256 ^ 32 := by decide
      _ ≤ 256 ^ (k + (bits.toNat / 2 ^ 24 - 3)) := Nat.pow_le_pow_right (by decide) (by omega)
      _ = 256 ^ k * 256 ^ (bits.toNat / 2 ^ 24 - 3) := pow_add ..
      _ ≤ _ := Nat.mul_le_mul_right _ hk
  refine .inr ?_
  rcases hlarge with hsize | ⟨hmantissa, hsize⟩ | ⟨hmantissa, hsize⟩
  · exact hbound 0 (by omega) (by omega)
  · exact hbound 1 (by omega) (by omega)
  · exact hbound 2 (by omega) (by omega)

/-! ## Precision -/

theorem lt_two_pow_cutBits (t : Target) : t.toNat < 2 ^ (t.cutBits + 23) ∧ 8 ∣ t.cutBits := by
  have hlt := t.lt_two_pow_significantBytes
  have hlead := t.leadingBytes_lt
  rw [cutBits]
  split_ifs with h3 hbit
  · exact ⟨hlt.trans_le (Nat.pow_le_pow_right (by decide) (by omega)), Nat.dvd_mul_right 8 _⟩
  · refine ⟨?_, Nat.dvd_mul_right 8 _⟩
    have hshort := lt_of_not_testBit hbit hlead
    rw [leadingBytes_of_le h3, Nat.div_lt_iff_lt_mul (Nat.two_pow_pos _), ← pow_add, Nat.add_comm] at hshort
    exact hshort
  · exact ⟨hlt.trans_le (Nat.pow_le_pow_right (by decide) (by omega)), Nat.dvd_zero 8⟩

theorem two_pow_le_of_cutBits (h : 0 < t.cutBits) : 2 ^ (t.cutBits + 15) ≤ t.canonical.toNat := by
  rcases t.two_pow_le_div_cutBits with h0 | hle
  · omega
  rw [toNat_canonical, Nat.add_comm, pow_add]
  exact Nat.mul_le_mul_right _ hle

/-- Fewer bits are cut off the smaller target, and what is left of it is smaller. -/
theorem canonical_mono {t' : Target} (h : t.toNat ≤ t'.toNat) : t.canonical.toNat ≤ t'.canonical.toNat := by
  obtain ⟨hlt, k, hk⟩ := t.lt_two_pow_cutBits
  obtain ⟨hlt', k', hk'⟩ := t'.lt_two_pow_cutBits
  rcases lt_trichotomy t.cutBits t'.cutBits with hcut | hcut | hcut
  · have hle : 2 ^ (t.cutBits + 23) ≤ 2 ^ (t'.cutBits + 15) := Nat.pow_le_pow_right (by decide) (by omega)
    have hhigh := two_pow_le_of_cutBits (Nat.zero_lt_of_lt hcut)
    have hlow := t.canonical_le
    omega
  · rw [toNat_canonical, toNat_canonical, hcut]
    exact Nat.mul_le_mul_right _ (Nat.div_le_div_right h)
  · have hle : 2 ^ (t'.cutBits + 23) ≤ 2 ^ (t.cutBits + 15) := Nat.pow_le_pow_right (by decide) (by omega)
    have hhigh := two_pow_le_of_cutBits (Nat.zero_lt_of_lt hcut)
    have hlow := t.canonical_le
    omega

/-- Less than one part in 2¹⁵ is lost. -/
theorem sub_canonical_lt (h : t ≠ 0) : (t.toNat - t.canonical.toNat) * 2 ^ 15 < t.toNat := by
  have hpos := Nat.pos_of_ne_zero (toNat_ne_zero h)
  rcases Nat.eq_zero_or_pos t.cutBits with h0 | hcut
  · rw [toNat_canonical, h0, pow_zero, Nat.div_one, Nat.mul_one, Nat.sub_self, Nat.zero_mul]
    exact hpos
  have hhigh := two_pow_le_of_cutBits hcut
  have hlow := t.canonical_le
  have hlost : t.toNat - t.canonical.toNat < 2 ^ t.cutBits := by
    rw [toNat_canonical, Nat.mul_comm, ← Nat.mod_eq_sub_mul_div]
    exact Nat.mod_lt _ (Nat.two_pow_pos _)
  rw [pow_add] at hhigh
  omega

/-- A target is read back from its compact form as the greatest of its precision that is not above it; and a compact form
denotes the number its fields say, or it is negative or too large. -/
theorem compact_bits_faithful :
    (∀ t : Target, fromCompact t.toCompact = some t.canonical ∧ t.canonical.toNat ≤ t.toNat ∧
      (t ≠ 0 → t.canonical ≠ 0 ∧ (t.toNat - t.canonical.toNat) * 2 ^ 15 < t.toNat) ∧
      t.canonical.toCompact = t.toCompact ∧ t.canonical.canonical = t.canonical) ∧
    (∀ t t' : Target, t.toNat ≤ t'.toNat → t.canonical.toNat ≤ t'.canonical.toNat) ∧
    (∀ bits t, fromCompact bits = some t → t.toNat = compactValue bits) ∧
    ∀ bits, fromCompact bits = none → bits.toNat.testBit 23 = true ∨ 2 ^ 256 ≤ compactValue bits := by
  refine ⟨fun t => ⟨t.fromCompact_toCompact, t.canonical_le, fun h => ⟨?_, sub_canonical_lt h⟩, t.toCompact_canonical,
    t.canonical_canonical⟩, fun _ _ => canonical_mono, fun _ _ => toNat_of_fromCompact, fun _ => of_fromCompact_eq_none⟩
  intro h0
  have hle := t.le_two_mul_canonical
  rw [h0] at hle
  exact toNat_ne_zero h (Nat.le_zero.mp hle)

end Target

/-- Accumulated work. -/
abbrev Work := BitVec 256

/-- The expected number of attempts for one block at a target. -/
def Work.ofTarget (t : Target) : Work :=
  if t = BitVec.allOnes 256 then 1
  else BitVec.ofNat 256 ((2 ^ 256 - 1 - t.toNat) / (t.toNat + 1) + 1)

/-- `Work::of_target` as the source computes it, `none` where its 256-bit arithmetic overflows. -/
def Work.tryOfTarget (t : Target) : Option Work :=
  if t = BitVec.allOnes 256 then some 1
  else do
    let next ← t.checkedAdd 1
    ((BitVec.allOnes 256 - t) / next).checkedAdd 1

namespace Work
variable {t t' : Target}

/-- Through the complement, 2²⁵⁶ need not be represented. -/
theorem complement_div_add_one (t : Target) :
    (2 ^ 256 - 1 - t.toNat) / (t.toNat + 1) + 1 = 2 ^ 256 / (t.toNat + 1) := by
  have hlt := t.isLt
  have hsum : 2 ^ 256 - 1 - t.toNat + (t.toNat + 1) = 2 ^ 256 := by omega
  rw [← Nat.add_div_right _ (Nat.succ_pos _), hsum]

theorem toNat_ofTarget (h : t ≠ 0) : (ofTarget t).toNat = 2 ^ 256 / (t.toNat + 1) := by
  have hpos : 0 < t.toNat := Nat.pos_of_ne_zero (Target.toNat_ne_zero h)
  unfold ofTarget
  split_ifs with hmax
  · rw [hmax]
    rfl
  · rw [complement_div_add_one, toNat_ofNat, Nat.mod_eq_of_lt (Nat.div_lt_self (by decide) (by omega))]

theorem ofTarget_pos (h : t ≠ 0) : 0 < (ofTarget t).toNat := by
  have hlt := t.isLt
  rw [toNat_ofTarget h]
  exact Nat.div_pos (by omega) (Nat.succ_pos _)

theorem ofTarget_anti (h : t ≠ 0) (hle : t ≤ t') : ofTarget t' ≤ ofTarget t := by
  rw [BitVec.le_def] at hle ⊢
  have h' : t' ≠ 0 := by
    rintro rfl
    exact Target.toNat_ne_zero h (Nat.le_zero.mp hle)
  rw [toNat_ofTarget h, toNat_ofTarget h']
  exact Nat.div_le_div_left (by omega) (Nat.succ_pos _)

theorem tryOfTarget_eq (h : t ≠ 0) : tryOfTarget t = some (ofTarget t) := by
  have hvalue := toNat_ofTarget h
  unfold tryOfTarget
  unfold ofTarget at hvalue ⊢
  by_cases hmax : t = BitVec.allOnes 256
  · rw [if_pos hmax, if_pos hmax]
  have hlt := t.isLt
  have hne : t.toNat ≠ 2 ^ 256 - 1 := fun h => hmax (eq_of_toNat_eq (by simpa using h))
  have hone : (1 : Target).toNat = 1 := by simp
  have hnext : t.checkedAdd 1 = some (t + 1) := if_pos (by omega)
  have htoNat : (t + 1).toNat = t.toNat + 1 := by rw [← BitVec.checkedAdd_eq_some.mp hnext, hone]
  have hnot : (BitVec.allOnes 256 - t).toNat = 2 ^ 256 - 1 - t.toNat := by
    rw [BitVec.allOnes_sub_eq_not, BitVec.toNat_not]
  rw [if_neg hmax] at hvalue
  rw [if_neg hmax, if_neg hmax, hnext, Option.bind_eq_bind, Option.bind_some, BitVec.checkedAdd_eq_some, hvalue,
    BitVec.toNat_udiv, hnot, htoNat, hone, complement_div_add_one]

end Work

/-- A difficulty, at least 1 where the code uses it. -/
abbrev Difficulty := U128

namespace Difficulty

def toTarget (d : Difficulty) : Target := BitVec.ofNat 256 ((2 ^ 256 - 1) / max d.toNat 1)

theorem toNat_toTarget (d : Difficulty) : d.toTarget.toNat = (2 ^ 256 - 1) / max d.toNat 1 := by
  have hlt : (2 ^ 256 - 1) / max d.toNat 1 < 2 ^ 256 := (Nat.div_le_self _ _).trans_lt (by decide)
  rw [toTarget, toNat_ofNat, Nat.mod_eq_of_lt hlt]

def fromTarget (t : Target) : Difficulty :=
  if t = 0 then BitVec.allOnes 128 else BitVec.ofNat 128 (min ((2 ^ 256 - 1) / t.toNat) (2 ^ 128 - 1))

/-- The sum of `i · solvetime_i` over the window, the oldest block with weight `i`; solve times are
clamped to `[1, 6 t]`. -/
def weightedSolvetimes (t : ℕ) : ℕ → List U64 → ℕ
  | _, [] => 0
  | i, st :: rest => i * min (max st.toNat 1) (6 * t) + weightedSolvetimes t (i + 1) rest

/-- The linearly weighted moving average over a window, oldest first; one step at most doubles or halves
the parent's difficulty. -/
def lwma (diffs : List Difficulty) (solvetimesMs : List U64) (targetMs : U64) : Difficulty :=
  if diffs = [] ∨ solvetimesMs.length ≠ diffs.length then 1
  else
    let t := max targetMs.toNat 1
    let sumD := (diffs.map BitVec.toNat).sum
    let weighted := max (weightedSolvetimes t 1 solvetimesMs) 1
    let next := max (min (sumD * t * (diffs.length + 1) / (2 * weighted)) (2 ^ 128 - 1)) 1
    let parent := max (diffs.getLast?.getD 1).toNat 1
    let lo := max (parent / 2) 1
    let hi := min (parent * 2) (2 ^ 128 - 1)
    BitVec.ofNat 128 (max lo (min next hi))

/-- One step of the average at most doubles the difficulty of the parent. -/
theorem toNat_lwma_le {diffs : List Difficulty} {times : List U64} {targetMs : U64} {d : Difficulty}
    (hlast : diffs.getLast? = some d) : (lwma diffs times targetMs).toNat ≤ 2 * max d.toNat 1 := by
  unfold lwma
  split_ifs with h
  · change 1 ≤ _
    omega
  dsimp only
  rw [hlast, Option.getD_some, toNat_ofNat]
  refine (Nat.mod_le _ _).trans ?_
  omega

def edaStallFactor : ℕ := 6

def edaMaxHalvings : ℕ := 8

/-- One halving for each full stall interval since the parent. -/
def edaHalvings (elapsedMs targetMs : U64) : ℕ :=
  min (elapsedMs.toNat / min (edaStallFactor * max targetMs.toNat 1) (2 ^ 64 - 1)) edaMaxHalvings

/-- The emergency adjustment of a stalled chain. -/
def eda (d : Difficulty) (elapsedMs targetMs : U64) : Difficulty :=
  BitVec.ofNat 128 (max (d.toNat >>> edaHalvings elapsedMs targetMs) 1)

end Difficulty
end Sov
