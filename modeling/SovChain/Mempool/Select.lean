import SovChain.Mempool.Bids
import Mathlib.Data.Prod.Lex
import Mathlib.Data.List.Nodup
import Mathlib.Data.List.Perm.Subperm
import Mathlib.Order.Fin.Basic

/-!
# `sov-mempool`: what a block is filled with

`select` keeps one queue for each signer, its pooled transactions from the account's nonce up to the first gap, and
takes the head with the highest tip, again and again.
-/

namespace Sov
namespace Mempool

/-- The ready region: transactions by id, and the slot of each. The length of a map is a `usize`. -/
structure Ready where
  byId : OrdMap Hash SignedTransaction
  bySender : OrdMap (AccountId ×ₗ Fin (2 ^ 64)) Hash
  known : ∀ slot id, bySender.get? slot = some id → (byId.get? id).isSome
  fits : bySender.entries.length < 2 ^ 64

/-- What a signer has left to be mined. -/
structure Queue where
  signer : AccountId
  head : SignedTransaction
  rest : List SignedTransaction

def queue? (signer : AccountId) : List SignedTransaction → Option Queue
  | [] => none
  | tx :: rest => some ⟨signer, tx, rest⟩

namespace Ready
variable (r : Ready)

def slot? (signer : AccountId) (nonce : U64) : Option SignedTransaction :=
  (r.bySender.get? (toLex (signer, nonce.toFin))).bind r.byId.get?

-- `nonce += 1` wraps in a release build.
def walk (signer : AccountId) : ℕ → U64 → List SignedTransaction
  | 0, _ => []
  | fuel + 1, nonce =>
    match r.slot? signer nonce with
    | none => []
    | some tx => tx :: walk signer fuel (nonce + 1)

/-- The transactions of a signer from a nonce up to the first gap. -/
def run (currentNonce : AccountId → U64) (signer : AccountId) : List SignedTransaction :=
  r.walk signer (r.bySender.entries.length + 1) (currentNonce signer)

def signers : List AccountId := (OrdMap.ofKeys (r.bySender.keys.map fun k => (ofLex k).1)).keys

def queues (currentNonce : AccountId → U64) : List Queue := r.signers.filterMap fun s => queue? s (r.run currentNonce s)

end Ready

namespace Queue

def headTip (q : Queue) : ℕ := (effectiveTip q.head).toNat

def better (b q : Queue) : Queue := if b.headTip < q.headTip then q else b

def best : List Queue → Option Queue
  | [] => none
  | q :: qs => some (qs.foldl better q)

def advance (qs : List Queue) (winner : Queue) : List Queue :=
  qs.filterMap fun q => if q.signer = winner.signer then queue? winner.signer winner.rest else some q

def auction : ℕ → List Queue → List SignedTransaction
  | 0, _ => []
  | n + 1, qs =>
    match best qs with
    | none => []
    | some q => q.head :: auction n (advance qs q)

end Queue

def Ready.select (r : Ready) (currentNonce : AccountId → U64) (max : ℕ) : List SignedTransaction :=
  Queue.auction max (r.queues currentNonce)

/-! ## The highest head first -/

namespace Queue

/-- A higher tip, or the same and a smaller signer. -/
def Leads (q p : Queue) : Prop := p.headTip < q.headTip ∨ p.headTip = q.headTip ∧ q.signer ≤ p.signer

/-- Each transaction is the leading head of what the ones before it have left. -/
inductive Greedy : List Queue → List SignedTransaction → Prop
  | stop (qs : List Queue) : Greedy qs []
  | take {qs : List Queue} {q : Queue} {out : List SignedTransaction} (hq : q ∈ qs) (hleads : ∀ p ∈ qs, Leads q p)
      (h : Greedy (advance qs q) out) : Greedy qs (q.head :: out)

abbrev Sorted (qs : List Queue) : Prop := qs.Pairwise fun p q => p.signer < q.signer

variable {q b : Queue} {qs l : List Queue}

theorem foldl_better (h : Sorted (b :: l)) : l.foldl better b ∈ b :: l ∧ ∀ p ∈ b :: l, Leads (l.foldl better b) p := by
  induction l generalizing b with
  | nil => simp [Leads]
  | cons p l ih =>
    obtain ⟨hb, hp, hl⟩ : (∀ q ∈ p :: l, b.signer < q.signer) ∧ (∀ q ∈ l, p.signer < q.signer) ∧ Sorted l := by
      simpa using h
    rw [List.foldl_cons, better]
    by_cases htip : b.headTip < p.headTip
    · rw [if_pos htip]
      obtain ⟨hmem, hleads⟩ := ih (List.pairwise_cons.mpr ⟨hp, hl⟩)
      refine ⟨List.mem_cons_of_mem _ hmem, List.forall_mem_cons.mpr ⟨.inl ?_, hleads⟩⟩
      rcases hleads p List.mem_cons_self with hlt | ⟨heq, -⟩ <;> omega
    · rw [if_neg htip]
      obtain ⟨hmem, hleads⟩ := ih (List.pairwise_cons.mpr ⟨fun q hq => hb q (List.mem_cons_of_mem _ hq), hl⟩)
      obtain ⟨hself, hrest⟩ := List.forall_mem_cons.mp hleads
      refine ⟨List.mem_cons.mpr ((List.mem_cons.mp hmem).imp_right (List.mem_cons_of_mem _)), ?_⟩
      refine List.forall_mem_cons.mpr ⟨hself, List.forall_mem_cons.mpr ⟨?_, hrest⟩⟩
      have hlt := hb p List.mem_cons_self
      rcases hself with hself | ⟨heq, hle⟩
      · exact .inl (by omega)
      · rcases (not_lt.mp htip).lt_or_eq with htip | htip
        · exact .inl (by omega)
        · exact .inr ⟨htip.trans heq, hle.trans hlt.le⟩

theorem signer_of_queue? {signer : AccountId} {txs : List SignedTransaction} (h : queue? signer txs = some q) :
    q.signer = signer := by
  cases txs with
  | nil => cases h
  | cons tx rest =>
    cases h
    rfl

theorem Sorted.advance (h : Sorted qs) : Sorted (advance qs q) := by
  refine h.filterMap _ fun p p' hlt c hc c' hc' => ?_
  have hsigner : ∀ {p c : Queue}, (if p.signer = q.signer then queue? q.signer q.rest else some p) = some c →
      c.signer = p.signer := by
    intro p c hc
    split_ifs at hc with hp
    · rw [signer_of_queue? hc, hp]
    · cases hc
      rfl
  rw [hsigner hc, hsigner hc']
  exact hlt

theorem auction_greedy (h : Sorted qs) (n : ℕ) : Greedy qs (auction n qs) := by
  induction n generalizing qs with
  | zero => exact .stop qs
  | succ n ih =>
    cases qs with
    | nil => exact .stop []
    | cons q qs =>
      obtain ⟨hmem, hleads⟩ := foldl_better h
      exact .take hmem hleads (ih h.advance)

theorem auction_prefix {m n : ℕ} (h : m ≤ n) (qs : List Queue) : auction m qs <+: auction n qs := by
  induction m generalizing n qs with
  | zero => exact List.nil_prefix
  | succ m ih =>
    cases n with
    | zero => cases h
    | succ n =>
      rw [auction, auction]
      cases best qs with
      | none => exact List.nil_prefix
      | some q => exact List.prefix_cons_inj _ |>.mpr (ih (Nat.le_of_succ_le_succ h) _)

/-! ## Without tips -/

/-- All that a queue holds. -/
def txs (q : Queue) : List SignedTransaction := q.head :: q.rest

theorem toList_queue? (signer : AccountId) (l : List SignedTransaction) : (queue? signer l).toList.flatMap txs = l := by
  cases l <;> simp [queue?, txs]

theorem auction_of_untipped (h : Sorted qs) (htips : ∀ q ∈ qs, ∀ tx ∈ q.txs, effectiveTip tx = 0) (n : ℕ) :
    auction n qs = (qs.flatMap txs).take n := by
  induction n generalizing qs with
  | zero => rfl
  | succ n ih =>
    cases qs with
    | nil => rfl
    | cons q qs =>
      have hzero : ∀ p ∈ q :: qs, p.headTip = 0 := by
        intro p hp
        rw [headTip, htips p hp p.head List.mem_cons_self]
        rfl
      have hfirst : qs.foldl better q = q := by
        have : ∀ l ⊆ q :: qs, l.foldl better q = q := by
          intro l hl
          induction l with
          | nil => rfl
          | cons p l ihl =>
            rw [List.foldl_cons, better, hzero p (hl List.mem_cons_self), if_neg (Nat.not_lt_zero _)]
            exact ihl fun x hx => hl (List.mem_cons_of_mem _ hx)
        exact this qs (List.subset_cons_self _ _)
      have hadvance : advance (q :: qs) q = (queue? q.signer q.rest).toList ++ qs := by
        have hothers : qs.filterMap (fun p => if p.signer = q.signer then queue? q.signer q.rest else some p) = qs := by
          rw [List.filterMap_congr fun p hp => if_neg ((List.pairwise_cons.mp h).1 p hp).ne', List.filterMap_some]
        rw [advance, List.filterMap_cons, if_pos rfl, hothers]
        cases queue? q.signer q.rest <;> rfl
      have hflat : ((queue? q.signer q.rest).toList ++ qs).flatMap txs = q.rest ++ qs.flatMap txs := by
        rw [List.flatMap_append, toList_queue?]
      rw [auction, best, hfirst]
      dsimp only
      rw [ih h.advance fun p hp tx htx => ?_, hadvance, hflat]
      · rfl
      · have hall := List.mem_flatMap.mpr ⟨p, hadvance ▸ hp, htx⟩
        rw [hflat, List.mem_append] at hall
        rcases hall with hrest | hrest
        · exact htips q List.mem_cons_self tx (List.mem_cons_of_mem _ hrest)
        · obtain ⟨p, hp, htx⟩ := List.mem_flatMap.mp hrest
          exact htips p (List.mem_cons_of_mem _ hp) tx htx

end Queue

namespace Ready
variable {r : Ready} {signer : AccountId}

/-- A walk holds what is pooled from a nonce on, and unless it runs out of fuel it ends at a gap. -/
theorem walk_spec (fuel : ℕ) (nonce : U64) :
    (∀ i < (r.walk signer fuel nonce).length,
        (r.walk signer fuel nonce)[i]? = r.slot? signer (nonce + BitVec.ofNat 64 i)) ∧
      (r.walk signer fuel nonce).length ≤ fuel ∧ ((r.walk signer fuel nonce).length < fuel →
        r.slot? signer (nonce + BitVec.ofNat 64 (r.walk signer fuel nonce).length) = none) := by
  induction fuel generalizing nonce with
  | zero => exact ⟨fun i hi => (by cases hi), le_rfl, fun h => (by cases h)⟩
  | succ fuel ih =>
    obtain ⟨hget, hle, hgap⟩ := ih (nonce + 1)
    have hnext : ∀ i, nonce + 1 + BitVec.ofNat 64 i = nonce + BitVec.ofNat 64 (i + 1) := by
      intro i
      rw [BitVec.ofNat_add, BitVec.add_assoc, BitVec.add_comm 1]
      rfl
    rw [walk]
    split
    · rename_i hnone
      exact ⟨fun i hi => (by cases hi), Nat.zero_le _, fun _ => by simpa using hnone⟩
    · rename_i tx htx
      rw [List.length_cons, ← hnext]
      refine ⟨fun i hi => ?_, Nat.succ_le_succ hle, fun h => hgap (Nat.lt_of_succ_lt_succ h)⟩
      cases i with
      | zero => simpa using htx.symm
      | succ i => rw [List.getElem?_cons_succ, hget i (Nat.lt_of_succ_lt_succ hi), hnext]

/-- The slots of a walk are apart as long as the nonces do not come round. -/
theorem length_walk_le {fuel : ℕ} (hfuel : fuel ≤ 2 ^ 64) (nonce : U64) :
    (r.walk signer fuel nonce).length ≤ r.bySender.entries.length := by
  obtain ⟨hget, hle, -⟩ := @walk_spec r signer fuel nonce
  have hnodup : ((List.range (r.walk signer fuel nonce).length).map fun i =>
      toLex (signer, (nonce + BitVec.ofNat 64 i).toFin)).Nodup := by
    refine List.Nodup.map_on (fun i hi j hj hij => ?_) List.nodup_range
    rw [List.mem_range] at hi hj
    have hsum := BitVec.eq_of_toFin_eq (congrArg (fun k => (ofLex k).2) hij)
    have heq := congrArg BitVec.toNat ((BitVec.add_right_inj nonce).mp hsum)
    rwa [BitVec.toNat_ofNat, BitVec.toNat_ofNat, Nat.mod_eq_of_lt (by omega), Nat.mod_eq_of_lt (by omega)] at heq
  have hkeys : ((List.range (r.walk signer fuel nonce).length).map fun i =>
      toLex (signer, (nonce + BitVec.ofNat 64 i).toFin)) ⊆ r.bySender.keys := by
    intro k hk
    obtain ⟨i, hi, rfl⟩ := List.mem_map.mp hk
    have hget := hget i (List.mem_range.mp hi)
    rw [List.getElem?_eq_getElem (List.mem_range.mp hi)] at hget
    obtain ⟨id, hid, -⟩ := Option.bind_eq_some_iff.mp hget.symm
    exact OrdMap.mem_keys.mpr (by rw [hid]; rfl)
  simpa [OrdMap.keys] using (List.subperm_of_subset hnodup hkeys).length_le

/-- Whoever has a transaction pooled takes part. -/
theorem mem_signers : signer ∈ r.signers ↔ ∃ nonce, (r.slot? signer nonce).isSome := by
  rw [signers, OrdMap.mem_keys_ofKeys, List.mem_map]
  constructor
  · rintro ⟨k, hk, rfl⟩
    obtain ⟨id, hid⟩ := Option.isSome_iff_exists.mp (OrdMap.mem_keys.mp hk)
    refine ⟨.ofFin (ofLex k).2, ?_⟩
    have hslot : r.slot? (ofLex k).1 (.ofFin (ofLex k).2) = r.byId.get? id := by
      change (r.bySender.get? k).bind r.byId.get? = _
      rw [hid]
      rfl
    rw [hslot]
    exact r.known k id hid
  · rintro ⟨nonce, hslot⟩
    obtain ⟨tx, htx⟩ := Option.isSome_iff_exists.mp hslot
    obtain ⟨id, hid, -⟩ := Option.bind_eq_some_iff.mp htx
    exact ⟨toLex (signer, nonce.toFin), OrdMap.mem_keys.mpr (by rw [hid]; rfl), rfl⟩

theorem signers_sorted (r : Ready) : r.signers.Pairwise (· < ·) :=
  List.pairwise_map.mpr (OrdMap.ofKeys _).sorted

theorem queues_sorted (currentNonce : AccountId → U64) : Queue.Sorted (r.queues currentNonce) :=
  r.signers_sorted.filterMap _ fun s s' hlt q hq q' hq' => by
    rw [Queue.signer_of_queue? hq, Queue.signer_of_queue? hq']
    exact hlt

theorem flatMap_queues (currentNonce : AccountId → U64) :
    (r.queues currentNonce).flatMap Queue.txs = r.signers.flatMap (r.run currentNonce) := by
  unfold queues
  induction r.signers with
  | nil => rfl
  | cons s l ih =>
    rw [List.flatMap_cons, ← Queue.toList_queue? s (r.run currentNonce s), ← ih, ← List.flatMap_append,
      List.filterMap_cons]
    cases queue? s (r.run currentNonce s) <;> rfl

/-- Selection takes the leading head each time, a longer one goes on where a shorter one stops, and without tips it
is the signers in order with their runs. All with a pooled transaction are signers, and a run goes up to the first gap. -/
theorem select_head_greedy (r : Ready) (currentNonce : AccountId → U64) :
    (∀ max, Queue.Greedy (r.queues currentNonce) (r.select currentNonce max)) ∧
    (∀ m n, m ≤ n → r.select currentNonce m <+: r.select currentNonce n) ∧
    ((∀ signer, ∀ tx ∈ r.run currentNonce signer, effectiveTip tx = 0) → ∀ max,
      r.select currentNonce max = (r.signers.flatMap (r.run currentNonce)).take max) ∧
    (r.signers.Pairwise (· < ·) ∧ ∀ signer, signer ∈ r.signers ↔ ∃ nonce, (r.slot? signer nonce).isSome) ∧
    ∀ signer, (∀ i < (r.run currentNonce signer).length,
        (r.run currentNonce signer)[i]? = r.slot? signer (currentNonce signer + BitVec.ofNat 64 i)) ∧
      r.slot? signer (currentNonce signer + BitVec.ofNat 64 (r.run currentNonce signer).length) = none := by
  refine ⟨Queue.auction_greedy (queues_sorted _), fun m n h => Queue.auction_prefix h _, fun htips max => ?_,
    ⟨r.signers_sorted, fun _ => mem_signers⟩, fun signer => ?_⟩
  · rw [select, Queue.auction_of_untipped (queues_sorted _), flatMap_queues]
    intro q hq tx htx
    have hall := List.mem_flatMap.mpr ⟨q, hq, htx⟩
    rw [flatMap_queues] at hall
    obtain ⟨signer, -, htx⟩ := List.mem_flatMap.mp hall
    exact htips signer tx htx
  · obtain ⟨hget, -, hgap⟩ := walk_spec (r.bySender.entries.length + 1) (currentNonce signer)
    exact ⟨hget, hgap (Nat.lt_succ_of_le (length_walk_le r.fits _))⟩

end Ready
end Mempool
end Sov
