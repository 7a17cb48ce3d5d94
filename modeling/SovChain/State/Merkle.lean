import SovChain.State.Ledger

/-!
# The state root

The root of the sparse Merkle tree is a function of the leaves. As long as the digest has no collision
between the preimages hashed for two trees, and none of them digests to the zero hash that stands for an
empty leaf, equal roots mean equal leaves (`commitment_eq_of_stateRoot_eq`).
-/

namespace Sov
open FixedBytes (bytes_injective length_eq)
open Codec

theorem Ledger.key_eq_of_keyBit {a b : Hash} (h : ∀ i < treeHeight, keyBit a i = keyBit b i) : a = b := by
  refine bytes_injective (List.ext_getElem (a.length_eq.trans b.length_eq.symm) fun j hj hj' => ?_)
  have hj32 : j < 32 := a.length_eq ▸ hj
  refine UInt8.toNat_inj.mp (Nat.eq_of_testBit_eq fun i => ?_)
  by_cases hi : i < 8
  · have hbit := h (8 * j + (7 - i)) (by unfold treeHeight; omega)
    have hdiv : (8 * j + (7 - i)) / 8 = j := by omega
    have hmod : 7 - (8 * j + (7 - i)) % 8 = i := by omega
    unfold keyBit at hbit
    rw [hdiv, hmod, List.getD_eq_getElem?_getD, List.getD_eq_getElem?_getD, List.getElem?_eq_getElem hj,
      List.getElem?_eq_getElem hj'] at hbit
    exact hbit
  · have hlt : ∀ x : UInt8, x.toNat < 2 ^ i := fun x =>
      x.toNat_lt.trans_le (Nat.pow_le_pow_right (by decide) (by omega))
    rw [Nat.testBit_lt_two_pow (hlt _), Nat.testBit_lt_two_pow (hlt _)]

namespace Ledger
variable {C : Crypto} {h : ℕ} {l l' : List (Hash × Bytes)} {e : Hash × Bytes}

/-- The leaves below the two children of a node of height `h + 1`. -/
def onSide (h : ℕ) (side : Bool) (l : List (Hash × Bytes)) : List (Hash × Bytes) :=
  l.filter fun e => keyBit e.1 (treeHeight - (h + 1)) == side

theorem subtreeRoot_nil (h : ℕ) : subtreeRoot C h [] = defaultRoot C h := by
  cases h <;> rfl

theorem subtreeRoot_succ (h : ℕ) (l : List (Hash × Bytes)) : subtreeRoot C (h + 1) l =
      hashNode C (subtreeRoot C h (onSide h false l)) (subtreeRoot C h (onSide h true l)) := by
  cases l with
  | nil => simp only [subtreeRoot_nil, onSide, List.filter_nil, defaultRoot]
  | cons e es => simp [subtreeRoot, onSide]

/-- The byte strings hashed for the root of a subtree. -/
def Hashed (C : Crypto) : ℕ → List (Hash × Bytes) → Bytes → Prop
  | 0, l, p => ∃ e ∈ l.head?, p = 0 :: e.2
  | h + 1, l, p =>
    p = 1 :: ((subtreeRoot C h (onSide h false l)).bytes ++ (subtreeRoot C h (onSide h true l)).bytes) ∨
      Hashed C h (onSide h false l) p ∨ Hashed C h (onSide h true l) p

/-- The keys below a node of height `h` agree above it. -/
def Aligned (h : ℕ) (l : List (Hash × Bytes)) : Prop :=
  ∀ a ∈ l, ∀ b ∈ l, ∀ i < treeHeight - h, keyBit a.1 i = keyBit b.1 i

theorem Aligned.onSide (hl : Aligned (h + 1) l) (side : Bool) : Aligned h (onSide h side l) := by
  intro a ha b hb i hi
  simp only [Ledger.onSide, List.mem_filter, beq_iff_eq] at ha hb
  by_cases hi' : i < treeHeight - (h + 1)
  · exact hl a ha.1 b hb.1 i hi'
  · have : i = treeHeight - (h + 1) := by omega
    rw [this, ha.2, hb.2]

theorem mem_onSide : e ∈ l ↔ e ∈ onSide h false l ∨ e ∈ onSide h true l := by
  simp only [onSide, List.mem_filter, beq_iff_eq]
  cases keyBit e.1 (treeHeight - (h + 1)) <;> simp

theorem eq_singleton_of_aligned {es : List (Hash × Bytes)} (hl : Aligned 0 (e :: es))
    (hkeys : ((e :: es).map Prod.fst).Nodup) : es = [] := by
  rcases es with _ | ⟨e', es⟩
  · rfl
  have heq : e.1 = e'.1 := key_eq_of_keyBit fun i hi =>
    hl e List.mem_cons_self e' (List.mem_cons_of_mem _ List.mem_cons_self) i hi
  simp [heq] at hkeys

/-- Equal roots, equal leaves: by induction on the height, as the digest gives back what was hashed. -/
theorem mem_iff_of_subtreeRoot_eq (hC : C.CollisionFree fun p => Hashed C h l p ∨ Hashed C h l' p)
    (hzero : ∀ p, Hashed C h l p ∨ Hashed C h l' p → C.digest p ≠ Hash.zero)
    (hl : Aligned h (l ++ l')) (hk : (l.map Prod.fst).Nodup) (hk' : (l'.map Prod.fst).Nodup)
    (heq : subtreeRoot C h l = subtreeRoot C h l') : ∀ e, e ∈ l ↔ e ∈ l' := by
  induction h generalizing l l' with
  | zero =>
    have hleft : Aligned 0 l := fun a ha b hb => hl a (by simp [ha]) b (by simp [hb])
    have hright : Aligned 0 l' := fun a ha b hb => hl a (by simp [ha]) b (by simp [hb])
    cases l with
    | nil =>
      cases l' with
      | nil => simp
      | cons e es => exact absurd heq.symm (hzero _ (.inr ⟨e, rfl, rfl⟩))
    | cons e es =>
      rcases l' with _ | ⟨e', es'⟩
      · exact absurd heq (hzero _ (.inl ⟨e, rfl, rfl⟩))
      obtain rfl := eq_singleton_of_aligned hleft hk
      obtain rfl := eq_singleton_of_aligned hright hk'
      have hvalue := hC _ _ (.inl ⟨e, rfl, rfl⟩) (.inr ⟨e', rfl, rfl⟩) heq
      have hkey : e.1 = e'.1 := key_eq_of_keyBit fun i hi => hl e (by simp) e' (by simp) i hi
      have : e = e' := Prod.ext hkey (List.cons.inj hvalue).2
      simp [this]
  | succ h ih =>
    rw [subtreeRoot_succ, subtreeRoot_succ] at heq
    have hnode := (List.cons.inj (hC _ _ (.inl (.inl rfl)) (.inr (.inl rfl)) heq)).2
    obtain ⟨hfalse, htrue⟩ := List.append_inj hnode (by rw [length_eq, length_eq])
    have hside : ∀ side, subtreeRoot C h (onSide h side l) = subtreeRoot C h (onSide h side l') →
        ∀ e, e ∈ onSide h side l ↔ e ∈ onSide h side l' := by
      intro side hroot
      have hsub : ∀ p, Hashed C h (onSide h side l) p ∨ Hashed C h (onSide h side l') p →
          Hashed C (h + 1) l p ∨ Hashed C (h + 1) l' p := by
        intro p hp
        cases side with
        | false => exact hp.imp (fun hp => .inr (.inl hp)) fun hp => .inr (.inl hp)
        | true => exact hp.imp (fun hp => .inr (.inr hp)) fun hp => .inr (.inr hp)
      refine ih (hC.mono hsub) (fun p hp => hzero p (hsub p hp)) ?_
        (hk.sublist (List.filter_sublist.map _)) (hk'.sublist (List.filter_sublist.map _)) hroot
      have happ : onSide h side l ++ onSide h side l' = onSide h side (l ++ l') := by
        simp [onSide, List.filter_append]
      rw [happ]
      exact hl.onSide side
    intro e
    rw [mem_onSide (h := h), hside false (bytes_injective hfalse) e,
      hside true (bytes_injective htrue) e, ← mem_onSide]

/-- The byte strings hashed for the state root. -/
def RootPreimage (C : Crypto) (L : Ledger) : Bytes → Prop := Hashed C treeHeight L.commitment.entries

/-- The digest tells the trees of two ledgers apart: no collision between the strings hashed, and none
digests to the zero hash. -/
structure Separates (C : Crypto) (L L' : Ledger) : Prop where
  collisionFree : C.CollisionFree fun p => L.RootPreimage C p ∨ L'.RootPreimage C p
  nonzero : ∀ p, L.RootPreimage C p ∨ L'.RootPreimage C p → C.digest p ≠ Hash.zero

theorem commitment_eq_of_stateRoot_eq {L L' : Ledger} (hsep : Separates C L L')
    (heq : L.stateRoot C = L'.stateRoot C) : L.commitment = L'.commitment := by
  have hmem := mem_iff_of_subtreeRoot_eq hsep.collisionFree hsep.nonzero
    (fun a _ b _ i hi => absurd hi (by simp)) L.commitment.nodup_keys L'.commitment.nodup_keys heq
  refine OrdMap.ext_get? fun k => Option.ext fun v => ?_
  rw [OrdMap.get?_eq_some_iff, OrdMap.get?_eq_some_iff]
  exact hmem (k, v)

end Ledger

/-! ## Two digests to compute with -/

/-- The first 32 bytes. -/
def padHash (p : Bytes) : Hash := FixedBytes.pad 32 p

/-- A number as a hash. -/
def natHash (n : ℕ) : Hash := ⟨leBytes 32 n, length_leBytes 32 n⟩

def xorHash (a b : Hash) : Hash :=
  ⟨List.zipWith (· ^^^ ·) a.bytes b.bytes, by simp [a.length_eq, b.length_eq]⟩

/-- Every primitive but the digest is trivial. -/
def digestCrypto (digest : Bytes → Hash) : Crypto where
  digest := digest
  sha256 := digest
  verifyEd25519 _ _ _ := false
  verifyMlDsa65 _ _ _ := false
  orchardRoot _ := Hash.zero
  pqRoot _ := Hash.zero

/-- A node is the exclusive or of its children, and the root that of the leaves. -/
def xorCrypto : Crypto := digestCrypto fun p =>
  if p.length = 65 then xorHash (padHash (p.drop 1)) (padHash (p.drop 33)) else padHash p

namespace Ledger

theorem padHash_append (a : Hash) (rest : Bytes) : padHash (a.bytes ++ rest) = a := by
  refine bytes_injective ?_
  change ((a.bytes ++ rest) ++ _).take 32 = a.bytes
  rw [List.append_assoc, List.take_left' a.length_eq]

/-- Short strings without a zero byte are kept apart. -/
theorem padHash_inj {p q : Bytes} (hp : 0 ∉ p ∧ p.length ≤ 32) (hq : 0 ∉ q ∧ q.length ≤ 32)
    (h : padHash p = padHash q) : p = q := by
  have hback : ∀ p : Bytes, 0 ∉ p ∧ p.length ≤ 32 → (padHash p).bytes.takeWhile (· ≠ 0) = p := by
    rintro p ⟨hzero, hlen⟩
    have hbytes : (padHash p).bytes = p ++ List.replicate (32 - p.length) 0 := by
      change (p ++ List.replicate 32 0).take 32 = _
      rw [List.take_append, List.take_of_length_le hlen, List.take_replicate]
      congr 2
      omega
    have hmem : ∀ x ∈ p, decide (x ≠ 0) = true := fun x hx => by
      simpa using fun h0 : x = 0 => hzero (h0 ▸ hx)
    rw [hbytes, List.takeWhile_append_of_pos hmem]
    cases 32 - p.length with
    | zero => simp
    | succ n => simp [List.replicate_succ]
  rw [← hback p hp, h, hback q hq]

theorem hashNode_xorCrypto (a b : Hash) : hashNode xorCrypto a b = xorHash a b := by
  have hlen : (1 :: (a.bytes ++ b.bytes)).length = 65 := by simp [a.length_eq, b.length_eq]
  have hleft : padHash ((1 :: (a.bytes ++ b.bytes)).drop 1) = a := padHash_append a b.bytes
  have hright : padHash ((1 :: (a.bytes ++ b.bytes)).drop 33) = b := by
    rw [List.drop_succ_cons, List.drop_left' a.length_eq]
    simpa using padHash_append b []
  simp only [hashNode, xorCrypto, digestCrypto]
  rw [if_pos hlen, hleft, hright]

theorem xorHash_zero (a : Hash) : xorHash a Hash.zero = a := by
  refine bytes_injective ?_
  have h : ∀ l : Bytes, List.zipWith (· ^^^ ·) l (List.replicate l.length 0) = l := by
    intro l
    induction l with
    | nil => rfl
    | cons x l ih => simp [List.replicate_succ, ih]
  have := h a.bytes
  rwa [a.length_eq] at this

theorem zero_xorHash (a : Hash) : xorHash Hash.zero a = a := by
  refine bytes_injective ?_
  have h : ∀ l : Bytes, List.zipWith (· ^^^ ·) (List.replicate l.length 0) l = l := by
    intro l
    induction l with
    | nil => rfl
    | cons x l ih => simp [List.replicate_succ, ih]
  have := h a.bytes
  rwa [a.length_eq] at this

section Xor
variable {C : Crypto} (hC : ∀ a b, hashNode C a b = xorHash a b)

include hC

theorem defaultRoot_of_xor (h : ℕ) : defaultRoot C h = Hash.zero := by
  induction h with
  | zero => rfl
  | succ h ih =>
    rw [defaultRoot]
    simp only [ih]
    rw [hC, xorHash_zero]

theorem subtreeRoot_singleton_of_xor (h : ℕ) (e : Hash × Bytes) : subtreeRoot C h [e] = hashLeaf C e.2 := by
  induction h with
  | zero => rfl
  | succ h ih =>
    rw [subtreeRoot_succ, hC]
    -- The other side is empty, and its root is zero.
    cases hbit : keyBit e.1 (treeHeight - (h + 1)) <;>
      simp [onSide, hbit, ih, subtreeRoot_nil, defaultRoot_of_xor hC, xorHash_zero, zero_xorHash]

/-- Two leaves whose keys part below the top. -/
theorem subtreeRoot_pair_of_xor {h i : ℕ} {e f : Hash × Bytes} (hi : i < h)
    (hbit : keyBit e.1 (treeHeight - (i + 1)) ≠ keyBit f.1 (treeHeight - (i + 1))) :
    subtreeRoot C h [e, f] = xorHash (hashLeaf C e.2) (hashLeaf C f.2) ∨
      subtreeRoot C h [e, f] = xorHash (hashLeaf C f.2) (hashLeaf C e.2) := by
  induction h with
  | zero => omega
  | succ h ih =>
    rw [subtreeRoot_succ, hC]
    by_cases hsame : keyBit e.1 (treeHeight - (h + 1)) = keyBit f.1 (treeHeight - (h + 1))
    · -- both on one side, and they part further down
      have hlt : i < h := by
        rcases Nat.lt_succ_iff_lt_or_eq.mp hi with hlt | rfl
        · exact hlt
        · exact absurd hsame hbit
      cases hf : keyBit f.1 (treeHeight - (h + 1)) <;> rw [hf] at hsame <;>
        simpa [onSide, hf, hsame, subtreeRoot_nil, defaultRoot_of_xor hC, xorHash_zero, zero_xorHash] using ih hlt
    · have he := Bool.eq_not.mpr hsame
      cases hf : keyBit f.1 (treeHeight - (h + 1)) <;> rw [hf] at he <;>
        simp [onSide, hf, he, subtreeRoot_singleton_of_xor hC]

end Xor

theorem natHash_inj {n m : ℕ} (hn : n < 256 ^ 32) (hm : m < 256 ^ 32) (h : natHash n = natHash m) : n = m := by
  have hbytes : leBytes 32 n = leBytes 32 m := congrArg FixedBytes.bytes h
  rw [← ofLeBytes_leBytes 32 n hn, hbytes, ofLeBytes_leBytes 32 m hm]

end Ledger
end Sov
