import SovChain.Runtime.Nonces
import SovChain.Runtime.Oblivious
import SovChain.Runtime.Writes
import SovChain.State.History

/-!
# Rolling a block back

A block is executed in place, with a journal. On a ledger between two blocks (`Ledger.Settled`) a tame block
is rolled back exactly, whether it was accepted or rejected in the middle, and an accepted one leaves a
ledger that is settled again. Tame means that every id in it validates, that its notes have room in the
Orchard tree, and that what it writes lies in slots on which the digest is taken to have no collision.
-/

namespace Sov
open Codec

/-- The slots with a preimage in `P` whose ids validate. -/
def Slot.Covered (P : Bytes → Prop) (s : Slot) : Prop := P s.preimage ∧ s.WellFormed

/-- The digest has no collision on `P`, which holds the reserved slots. -/
structure Crypto.Separating (C : Crypto) (P : Bytes → Prop) : Prop where
  collisionFree : C.CollisionFree P
  reserved : ∀ r, P (Slot.reserved r).preimage

namespace Crypto.Separating
variable {C : Crypto} {P : Bytes → Prop}

theorem keysDistinct (h : C.Separating P) : Ledger.KeysDistinct C (Slot.Covered P) := fun _ _ ha hb heq =>
  Slot.preimage_inj ha.2 hb.2 (h.collisionFree _ _ ha.1 hb.1 heq)

theorem covered_reserved (h : C.Separating P) (r : Reserved) : (Slot.reserved r).Covered P :=
  ⟨h.reserved r, nofun⟩

end Crypto.Separating

theorem UndoOp.wellFormed_slot {op : UndoOp} (h : ∀ id ∈ op.ids, id.WellFormed) : op.slot.WellFormed := by
  intro id hid
  cases op <;> first | exact h id hid | cases hid

namespace Ledger
variable {C : Crypto} {P : Bytes → Prop} {L L' : Ledger} {S : Slot → Prop}

/-- A ledger between two blocks. -/
structure Settled (C : Crypto) (P : Bytes → Prop) (L : Ledger) : Prop where
  canonical : L.Canonical
  committed : L.Committed C (Slot.Covered P)
  named : L.Named AccountId.WellFormed
  undo_eq : L.undo = none

theorem Steps.committed (h : Steps C (fun op => S op.slot) False L L')
    (hS : KeysDistinct C S) (hL : L.Committed C S) : L'.Committed C S := by
  induction h with
  | refl => exact hL
  | tail _ hstep ih =>
    cases hstep with
    | write op hop => exact ih.overwrite hS op hop
    | torn _ hT => exact hT.elim

theorem forget_of_undo_eq (h : L.undo = none) : L.forget = L := by
  unfold forget
  rw [← h]

/-- What was written in slots of their own is rolled back exactly. -/
theorem Steps.rollback_eq (h : Steps C (fun op => S op.slot) False L.beginUndo L')
    (hS : KeysDistinct C S) (hc : L.Canonical) (hf : L.Faithful C S) : L'.rollback C = L.forget := by
  have hnil : L.beginUndo.undo = some [] := rfl
  obtain ⟨log, hlog⟩ := Steps.undo_eq h hnil
  have hundo : log.reverse.foldl (put C) L'.forget = L.forget :=
    (Steps.undo_exact h hS hc hf hnil hlog :)
  unfold rollback takeUndo applyUndo
  rw [hlog]
  change { log.reverse.foldl (put C) L'.forget with undo := none } = L.forget
  rw [hundo]
  rfl

end Ledger

namespace Runtime
variable {E : Env} {ctx : BlockContext} {P : Bytes → Prop} {L L' : Ledger} {txs : List SignedTransaction}
  {receipts : List Receipt}

/-- The ledger an execution leaves, unless it panics. -/
def leaves {α : Type} : Except Fault (Ledger × α) → Option Ledger
  | .ok (L, _) => some L
  | .error (.reject L _) => some L
  | .error .panic => none

/-- A block that can be rolled back from this ledger. -/
structure Tame (E : Env) (P : Bytes → Prop) (ctx : BlockContext) (L : Ledger) (txs : List SignedTransaction) :
    Prop where
  names : ∀ stx ∈ txs, stx.Names AccountId.WellFormed
  miner : ctx.miner.WellFormed
  room : L.shielded.commitments.length + notesAll E txs ≤ 2 ^ 32
  journal : ∀ L', leaves (executeBlock E ctx L.beginUndo txs) = some L' →
    ∀ op ∈ L'.takeUndo.2, P op.slot.preimage

section Tame
variable (h : Tame E P ctx L txs) (hE : E.Separating P) (hL : L.Settled E P)
  (hx : leaves (executeBlock E ctx L.beginUndo txs) = some L')

include h hL hx

theorem Tame.writes : L.beginUndo.Writes E AccountId.WellFormed False L' := by
  cases hr : executeBlock E ctx L.beginUndo txs with
  | ok r =>
    rw [hr] at hx
    cases hx
    exact (executeBlock_applies (L := L.beginUndo) hL.named h.names h.miner (fun _ => h.room) hr).writes
  | error f =>
    rw [hr] at hx
    cases f with
    | panic => cases hx
    | reject L1 e =>
      cases hx
      exact executeBlock_rejects (L := L.beginUndo) hL.named h.names h.miner (fun _ => h.room) _ e hr

theorem Tame.steps : Ledger.Steps E (fun op => op.slot.Covered P) False L.beginUndo L' := by
  have hw := h.writes hL hx
  have hnil : L.beginUndo.undo = some [] := rfl
  obtain ⟨log, hlog⟩ := Ledger.Steps.undo_eq hw hnil
  have hjournal : ∀ op ∈ log, P op.slot.preimage := by
    have := h.journal L' hx
    rwa [Ledger.takeUndo, hlog] at this
  have hsteps := Ledger.Steps.of_undo (S := fun slot => P slot.preimage) hw hnil hlog hjournal
  refine Relation.ReflTransGen.mono (fun L1 L2 hstep => ?_) _ _ hsteps
  cases hstep with
  | write op hop => exact .write op ⟨hop.2, UndoOp.wellFormed_slot hop.1⟩
  | torn _ hT => exact hT.elim

include hE

/-- Whatever becomes of it, a tame block can be rolled back. -/
theorem Tame.rollback_eq : L'.rollback E = L := by
  rw [Ledger.Steps.rollback_eq (h.steps hL hx) hE.keysDistinct hL.canonical hL.committed.faithful,
    Ledger.forget_of_undo_eq hL.undo_eq]

theorem Tame.settled : L'.forget.Settled E P where
  canonical := by
    have hL' : L'.Canonical := Ledger.Steps.canonical (h.steps hL hx) hL.canonical
    exact hL'
  committed := by
    have hL' := Ledger.Steps.committed (h.steps hL hx) hE.keysDistinct (hL.committed.congr rfl rfl)
    exact hL'.congr rfl rfl
  named := (h.writes hL hx).named hL.named
  undo_eq := rfl

end Tame

theorem executeBlock_settled (hL : L.undo = none) : executeBlock E ctx L txs =
      (executeBlock E ctx L.beginUndo txs).forgetting fun r => (r.1.forget, r.2) := by
  rw [← executeBlock_forget]
  exact congrArg (executeBlock E ctx · txs) (Ledger.forget_of_undo_eq hL).symm

/-! ## The receipts of a block -/

theorem applyTransactions_ids (h : applyTransactions E ctx L txs = .ok (L', receipts)) :
    receipts.map Receipt.txId = txs.map (SignedTransaction.id E) := by
  induction txs generalizing L L' receipts with
  | nil =>
    cases h
    rfl
  | cons stx rest ih =>
    obtain ⟨⟨L1, receipt⟩, hstx, h⟩ := bind_eq_ok.mp h
    obtain ⟨⟨L2, tail⟩, hrest, h⟩ := bind_eq_ok.mp h
    cases h
    obtain ⟨p, x, status, -, -, -, rfl⟩ := applyTransaction_eq_ok hstx
    rw [List.map_cons, List.map_cons, ih hrest]

theorem executeBlock_ids (h : executeBlock E ctx L txs = .ok (L', receipts)) :
    receipts.map Receipt.txId = txs.map (SignedTransaction.id E) := by
  obtain ⟨⟨L1, reward⟩, -, h⟩ := bind_eq_ok.mp h
  exact applyTransactions_ids h

/-- Along a chain no two transactions have one id, as long as the digest tells their encodings apart. -/
theorem Accepted.ids_nodup {G : Ledger} (h : Accepted E G txs L) (hC : E.CollisionFree P)
    (hfits : ∀ stx ∈ txs, Transaction.codec.Fits stx.transaction ∧ P stx.transaction.signingBytes) :
    (txs.map (SignedTransaction.id E)).Nodup := by
  refine List.Nodup.map_on (fun a ha b hb heq => ?_) (List.Nodup.of_map _ h.counts.1.nodup)
  have hbytes : a.transaction.signingBytes = b.transaction.signingBytes :=
    hC _ _ (hfits a ha).2 (hfits b hb).2 heq
  have hbody : a.transaction = b.transaction :=
    Transaction.codec.encode_inj (hfits a ha).1 (hfits b hb).1 hbytes
  exact List.inj_on_of_nodup_map h.counts.1.nodup ha hb (by rw [hbody])

end Runtime
end Sov
