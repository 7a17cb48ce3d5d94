import SovChain.State.Operations
import SovChain.State.Merkle

/-!
# `sov-shielded`, `sov-state`: a bundle on the Orchard pool

A bundle spends its nullifiers first and then appends its notes one by one. A tree that fills up on the way leaves the pool
where the bundle got to, so an error means an unchanged pool only for the bundles that are refused at once
(`allOrNothing_iff`).
-/

namespace Sov
namespace ShieldedState
variable {C : Crypto} {pool pool' : ShieldedState} {bundle : ShieldedBundle}

theorem addCommitments_added {notes : List Hash} (h : pool.addCommitments C notes = (pool', none)) :
    pool'.commitments = pool.commitments ++ notes ∧
      ∀ a, pool'.anchors.contains a = true ↔ pool.anchors.contains a = true ∨
        ∃ k < notes.length, a = C.orchardRoot (pool.commitments ++ notes.take (k + 1)) := by
  induction notes generalizing pool with
  | nil =>
    cases h
    simp
  | cons cmx rest ih =>
    rw [addCommitments] at h
    split_ifs at h with hfull
    · cases h
    obtain ⟨hcommitments, hanchors⟩ := ih h
    refine ⟨by rw [hcommitments, addCommitment, List.append_assoc, List.singleton_append], fun a => ?_⟩
    rw [hanchors]
    simp only [addCommitment, OrdMap.contains_eq, OrdMap.get?_insert, List.append_assoc, List.singleton_append]
    constructor
    · intro ha
      rcases ha with ha | ⟨k, hk, rfl⟩
      · split_ifs at ha with hroot
        · exact .inr ⟨0, by simp, by rw [← hroot]; rfl⟩
        · exact .inl ha
      · exact .inr ⟨k + 1, by simpa using hk, rfl⟩
    · intro ha
      rcases ha with ha | ⟨k, hk, rfl⟩
      · by_cases hroot : C.orchardRoot (pool.commitments ++ [cmx]) = a
        · simp [hroot]
        · simp [hroot, ha]
      · rcases k with _ | k
        · simp
        · exact .inr ⟨k, by simpa using hk, rfl⟩

/-- The bundle's nullifiers and notes are new in the pool, and nothing else is. -/
structure Added (C : Crypto) (pool : ShieldedState) (bundle : ShieldedBundle) (pool' : ShieldedState) : Prop where
  nullifiers : ∀ nf, pool'.nullifiers.contains nf = true ↔
    pool.nullifiers.contains nf = true ∨ nf ∈ bundle.nullifiers
  fresh : ∀ nf ∈ bundle.nullifiers, pool.nullifiers.contains nf = false
  commitments : pool'.commitments = pool.commitments ++ bundle.noteCommitments
  anchors : ∀ a, pool'.anchors.contains a = true ↔ pool.anchors.contains a = true ∨
    ∃ k < bundle.noteCommitments.length, a = C.orchardRoot (pool.commitments ++ bundle.noteCommitments.take (k + 1))

theorem applyBundle_added (h : pool.applyBundle C bundle = (pool', none)) : Added C pool bundle pool' := by
  unfold applyBundle at h
  split_ifs at h with hfresh
  swap
  · cases h
  simp only [nullifiersFresh, Bool.and_eq_true, List.all_eq_true, Bool.not_eq_true'] at hfresh
  obtain ⟨hcommitments, hanchors⟩ := addCommitments_added h
  refine ⟨fun nf => ?_, hfresh.2, hcommitments, hanchors⟩
  rw [addCommitments_nullifiers h, OrdMap.contains_eq, OrdMap.get?_foldl_insert]
  by_cases hnf : nf ∈ bundle.nullifiers
  · simp [hnf]
  · simp [hnf]

end ShieldedState

namespace Ledger
variable {C : Crypto} {L : Ledger} {bundle : ShieldedBundle}

/-- The leaf of the Orchard pool in the tree is the one its store gives. -/
def DescribesPool (C : Crypto) (L : Ledger) : Prop :=
  L.commitment.get? ((Slot.reserved .shielded).hash C) = L.toStores.leaf C (.reserved .shielded)

/-- A bundle is applied whole, or not at all. -/
structure AllOrNothing (C : Crypto) (L : Ledger) (bundle : ShieldedBundle) : Prop where
  /-- The pool's own operation. -/
  poolRefused : ∀ pool e, L.shielded.applyBundle C bundle = (pool, some e) → pool = L.shielded
  poolApplied : ∀ pool, L.shielded.applyBundle C bundle = (pool, none) → L.shielded.Added C bundle pool
  /-- The ledger's: the digest in the tree goes with the pool. -/
  refused : ∀ L' e, L.applyShieldedBundle C bundle = (L', some e) →
    L'.shielded = L.shielded ∧ (L.DescribesPool C → L'.DescribesPool C)
  applied : ∀ L', L.applyShieldedBundle C bundle = (L', none) →
    L.shielded.Added C bundle L'.shielded ∧ L'.DescribesPool C

theorem allOrNothing_of_refused
    (h : ∀ pool e, L.shielded.applyBundle C bundle = (pool, some e) → pool = L.shielded) : L.AllOrNothing C bundle := by
  refine ⟨h, fun pool => ShieldedState.applyBundle_added, fun L' e happly => ?_, fun L' happly => ?_⟩
  · unfold applyShieldedBundle at happly
    rcases hpool : L.shielded.applyBundle C bundle with ⟨pool, _ | e'⟩
    · rw [hpool] at happly
      cases happly
    rw [hpool] at happly
    cases happly
    have hsame := h pool e hpool
    subst hsame
    exact ⟨rfl, fun hdescribes => hdescribes⟩
  · unfold applyShieldedBundle at happly
    rcases hpool : L.shielded.applyBundle C bundle with ⟨pool, _ | e'⟩
    · rw [hpool] at happly
      cases happly
      exact ⟨ShieldedState.applyBundle_added hpool, OrdMap.get?_set_self _ _ _⟩
    · rw [hpool] at happly
      cases happly

/-- A bundle is applied whole or not at all exactly if a nullifier of it is spent or repeated, or the tree has room for all
of its notes, or it has no nullifiers and the tree is full. -/
theorem allOrNothing_iff (C : Crypto) (L : Ledger) (bundle : ShieldedBundle) : L.AllOrNothing C bundle ↔
      (¬bundle.nullifiers.Nodup ∨ ∃ nf ∈ bundle.nullifiers, L.shielded.nullifiers.contains nf = true) ∨
      bundle.noteCommitments = [] ∨ L.shielded.commitments.length + bundle.noteCommitments.length ≤ 2 ^ 32 ∨
      (bundle.nullifiers = [] ∧ 2 ^ 32 ≤ L.shielded.commitments.length) := by
  constructor
  · intro h
    by_contra hnot
    push Not at hnot
    obtain ⟨⟨hnodup, hunspent⟩, hnotes, hroom, hfull⟩ := hnot
    have hfresh : L.shielded.nullifiersFresh bundle.nullifiers = true := by
      simpa [ShieldedState.nullifiersFresh, hnodup] using hunspent
    -- Neither accepted nor refused at once: what the bundle leaves behind is not the pool it met.
    have haccepts : L.shielded.accepts bundle = false := by
      simp only [ShieldedState.accepts, hfresh, Bool.true_and, Bool.or_eq_false_iff, List.isEmpty_eq_false_iff,
        decide_eq_false_iff_not, not_le]
      exact ⟨hnotes, hroom⟩
    have hrefuses : L.shielded.refuses bundle = false := by
      simp only [ShieldedState.refuses, hfresh, Bool.not_true, Bool.false_or, Bool.and_eq_false_iff,
        List.isEmpty_eq_false_iff, decide_eq_false_iff_not, not_le]
      by_cases hnf : bundle.nullifiers = []
      · exact .inr (hfull hnf)
      · exact .inl (.inl hnf)
    obtain ⟨pool', e, happly, hne⟩ := ShieldedState.applyBundle_torn (C := C) haccepts hrefuses
    exact hne pool' .refl (h.poolRefused pool' e happly)
  · intro h
    refine allOrNothing_of_refused fun pool e happly => ?_
    by_cases hfresh : L.shielded.nullifiersFresh bundle.nullifiers = true
    · rcases h with hspent | hnotes | hroom | ⟨hnf, hfull⟩
      · simp only [ShieldedState.nullifiersFresh, Bool.and_eq_true, decide_eq_true_eq, List.all_eq_true,
          Bool.not_eq_true'] at hfresh
        rcases hspent with hdup | ⟨nf, hmem, hseen⟩
        · exact absurd hfresh.1 hdup
        · rw [hfresh.2 nf hmem] at hseen
          cases hseen
      · rw [ShieldedState.applyBundle, if_pos hfresh, hnotes] at happly
        cases happly
      · exact ShieldedState.applyBundle_of_room hroom happly
      by_cases hnotes : bundle.noteCommitments = []
      · rw [ShieldedState.applyBundle, if_pos hfresh, hnotes] at happly
        cases happly
      have hrefuses : L.shielded.refuses bundle = true := by
        simp only [ShieldedState.refuses, hfresh, Bool.not_true, Bool.false_or, Bool.and_eq_true, List.isEmpty_iff,
          Bool.not_eq_true', List.isEmpty_eq_false_iff, decide_eq_true_eq]
        exact ⟨⟨hnf, hnotes⟩, hfull⟩
      obtain ⟨e', hrefused⟩ := ShieldedState.applyBundle_of_refuses (C := C) hrefuses
      rw [hrefused] at happly
      cases happly
      rfl
    · rw [ShieldedState.applyBundle, if_neg hfresh] at happly
      cases happly
      rfl

theorem exists_pool {n : ℕ} (hn : n ≤ 2 ^ 32) :
    ∃ pool, (ShieldedState.new C).addCommitments C (List.replicate n Hash.zero) = (pool, none) ∧
      pool.nullifiers = .empty ∧ pool.commitments.length = n := by
  rcases hadd : (ShieldedState.new C).addCommitments C (List.replicate n Hash.zero) with ⟨pool, e⟩
  have hroom : (ShieldedState.new C).commitments.length + (List.replicate n Hash.zero).length ≤ 2 ^ 32 := by
    rw [List.length_replicate, ShieldedState.new, List.length_nil, Nat.zero_add]
    exact hn
  have hnone := ShieldedState.addCommitments_of_room hroom hadd
  subst hnone
  refine ⟨pool, rfl, ShieldedState.addCommitments_nullifiers hadd, ?_⟩
  rw [(ShieldedState.addCommitments_added hadd).1, ShieldedState.new, List.nil_append, List.length_replicate]

/-- Two actions, each with a nullifier and a note. -/
def overflowingBundle : ShieldedBundle where
  nullifiers := [Hash.zero, padHash [1]]
  noteCommitments := [Hash.zero, Hash.zero]
  anchor := Hash.zero
  valueBalance := 0

/-- With room for one of its two notes the bundle fails half way. -/
theorem applyBundle_overflowing {pool : ShieldedState} (hnf : pool.nullifiers = .empty)
    (hlen : pool.commitments.length + 1 = 2 ^ 32) :
    ∃ pool', pool.applyBundle C overflowingBundle = (pool', some .treeFull) ∧
      (∀ nf ∈ overflowingBundle.nullifiers, pool'.nullifiers.contains nf = true) ∧
      pool'.commitments = pool.commitments ++ [Hash.zero] := by
  have hfresh : pool.nullifiersFresh overflowingBundle.nullifiers = true := by
    rw [ShieldedState.nullifiersFresh, hnf]
    decide
  have hroom : ¬2 ^ 32 ≤ pool.commitments.length := by omega
  have hfull : 2 ^ 32 ≤ (pool.commitments ++ [Hash.zero]).length := by
    rw [List.length_append, List.length_singleton, hlen]
  refine ⟨{ pool with nullifiers := overflowingBundle.nullifiers.foldl (fun m nf => m.insert nf ()) pool.nullifiers }
    |>.addCommitment C Hash.zero, ?_, fun nf hmem => ?_, rfl⟩
  · rw [ShieldedState.applyBundle, if_pos hfresh, overflowingBundle, ShieldedState.addCommitments, if_neg hroom,
      ShieldedState.addCommitments, if_pos (by exact hfull)]
  · rw [ShieldedState.addCommitment, OrdMap.contains_eq, OrdMap.get?_foldl_insert, if_pos (by exact hmem)]
    rfl

/-- A ledger whose tree has room for one more note, reached by appending notes to a new pool: a bundle of two actions
fails, but its nullifiers are spent and its first note is in the tree, and the tree's leaf is that of the pool before. -/
theorem overflowingBundle_torn : ∃ n pool L', n + 1 = 2 ^ 32 ∧
      (ShieldedState.new xorCrypto).addCommitments xorCrypto (List.replicate n Hash.zero) = (pool, none) ∧
      ((Ledger.new xorCrypto).overwrite xorCrypto (.shielded pool)).applyShieldedBundle xorCrypto
        overflowingBundle = (L', some .treeFull) ∧
      pool.nullifiers = .empty ∧ (∀ nf ∈ overflowingBundle.nullifiers, L'.shielded.nullifiers.contains nf = true) ∧
      L'.shielded.commitments = pool.commitments ++ [Hash.zero] ∧
      L'.commitment = ((Ledger.new xorCrypto).overwrite xorCrypto (.shielded pool)).commitment ∧
      ¬((Ledger.new xorCrypto).overwrite xorCrypto (.shielded pool)).AllOrNothing xorCrypto overflowingBundle := by
  obtain ⟨n, hn⟩ : ∃ n, n + 1 = 2 ^ 32 := ⟨2 ^ 32 - 1, by omega⟩
  obtain ⟨pool, hadd, hnf, hlen⟩ := exists_pool (C := xorCrypto) (n := n) (by omega)
  obtain ⟨pool', happly, hspent, hnotes⟩ := applyBundle_overflowing (C := xorCrypto) hnf (by rw [hlen, hn])
  have hpool : ((Ledger.new xorCrypto).overwrite xorCrypto (.shielded pool)).shielded = pool := rfl
  have hledger : ((Ledger.new xorCrypto).overwrite xorCrypto (.shielded pool)).applyShieldedBundle xorCrypto
      overflowingBundle =
        ({ (Ledger.new xorCrypto).overwrite xorCrypto (.shielded pool) with shielded := pool' }, some .treeFull) := by
    rw [applyShieldedBundle, hpool, happly]
  refine ⟨n, pool, _, hn, hadd, hledger, hnf, hspent, hnotes, rfl, fun hall => ?_⟩
  have hsame := hall.poolRefused pool' _ (by rw [hpool]; exact happly)
  rw [hpool] at hsame
  have hzero := hspent _ List.mem_cons_self
  rw [hsame, hnf] at hzero
  cases hzero

end Ledger
end Sov
