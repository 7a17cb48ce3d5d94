import SovChain.Chain.Heaviest

/-!
# Targets and work along a chain

The work of a target is `⌊2²⁵⁶ / (t + 1)⌋`, and no target that the chain requires is zero, so the work of a branch grows
with every block until it saturates (`chain_work_exact`).
-/

namespace Sov
namespace Blockchain
variable {N : NodeEnv} {bc : Blockchain} {block : Block} {cand : Candidate} {parent : BlockIndexEntry} {t : Target}
  {timestampMs : U64}

theorem lt_saturatingAdd_or (hz : bc.rules.mining.sha256dTarget ≠ 0) (ht : bc.expectedTarget parent timestampMs = .ok t)
    (w : Work) : w < w.saturatingAdd (Work.ofTarget t) ∨ w.saturatingAdd (Work.ofTarget t) = BitVec.maxValue 256 := by
  have hpos := Work.ofTarget_pos (expectedTarget_ne_zero (mt Target.canonical_eq_zero.mp hz) ht)
  by_cases hfits : w.toNat + (Work.ofTarget t).toNat < 2 ^ 256
  · refine .inl ?_
    rw [BitVec.lt_def, BitVec.toNat_saturatingAdd]
    omega
  · refine .inr (BitVec.eq_of_toNat_eq ?_)
    rw [BitVec.toNat_saturatingAdd, BitVec.toNat_maxValue]
    omega

/-- The work of a target is exact, never overflows and falls with the target; no target is required that is zero; every
validated and every indexed block has more work than its parent, or the greatest number. -/
theorem chain_work_exact (N : NodeEnv) : (∀ t : Target, t ≠ 0 → Work.tryOfTarget t = some (Work.ofTarget t) ∧
      (Work.ofTarget t).toNat = 2 ^ 256 / (t.toNat + 1) ∧ 1 ≤ (Work.ofTarget t).toNat ∧
      ∀ t', t ≤ t' → Work.ofTarget t' ≤ Work.ofTarget t) ∧
    (∀ (bc : Blockchain) (parent : BlockIndexEntry) (timestampMs : U64) (t : Target),
      bc.rules.mining.sha256dTarget ≠ 0 → bc.expectedTarget parent timestampMs = .ok t → t ≠ 0) ∧
    (∀ (bc : Blockchain) (block : Block) (cand : Candidate), bc.rules.mining.sha256dTarget ≠ 0 →
      bc.validateCandidate N block = .ok (.ok cand) → Work.tryOfTarget cand.shaTarget = some (Work.ofTarget cand.shaTarget) ∧
        ∃ parent, bc.index.get? block.header.prevHash = some parent ∧
          (parent.chainWork < cand.newWork ∨ cand.newWork = BitVec.maxValue 256)) ∧
    ∀ bc : Blockchain, Reachable N bc → bc.rules.mining.sha256dTarget ≠ 0 ∧
      ∀ (k : Hash) (e p : BlockIndexEntry), bc.index.get? k = some e → k ≠ bc.rules.genesisHash →
        bc.index.get? e.block.header.prevHash = some p →
          p.chainWork < e.chainWork ∨ e.chainWork = BitVec.maxValue 256 := by
  have hnonzero : ∀ {bc : Blockchain} {parent : BlockIndexEntry} {timestampMs : U64} {t : Target},
      bc.rules.mining.sha256dTarget ≠ 0 → bc.expectedTarget parent timestampMs = .ok t → t ≠ 0 :=
    fun hz ht => expectedTarget_ne_zero (mt Target.canonical_eq_zero.mp hz) ht
  refine ⟨?_, fun _ _ _ _ => hnonzero, ?_, ?_⟩
  · intro t ht
    exact ⟨Work.tryOfTarget_eq ht, Work.toNat_ofTarget ht, Work.ofTarget_pos ht, fun t' => Work.ofTarget_anti ht⟩
  · intro bc block cand hz hvalid
    obtain ⟨parent, hv⟩ := validateCandidate_eq_ok hvalid
    refine ⟨Work.tryOfTarget_eq (hnonzero hz hv.target), parent, hv.parent_eq, ?_⟩
    rw [hv.work]
    exact lt_saturatingAdd_or hz hv.target _
  · intro bc h
    have hz : bc.rules.mining.sha256dTarget ≠ 0 := fun h0 => h.target_ne_zero (Target.canonical_eq_zero.mpr h0)
    refine ⟨hz, fun k e p he hk hp => ?_⟩
    obtain ⟨p', hd⟩ := h.derived.entries he hk
    obtain rfl : p' = p := Option.some.inj (hd.parent.symm.trans hp)
    rw [hd.work]
    exact lt_saturatingAdd_or hz hd.target _

end Blockchain
end Sov
