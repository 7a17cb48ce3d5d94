import SovChain.State.Slots
import Mathlib.Logic.Relation

/-!
# Undoing

A journal holds, write by write, what the written cell contained. Writing the contents back, the latest
first, restores the stores (`Steps.undo_poolless`): a stored value is never one that a write would drop, so
each cell gets back what it had. The leaves are restored as well if no two of the slots written share a key
and nothing bypasses the journal (`Steps.undo_exact`).
-/

namespace Sov
open OrdMap (get?_set get?_set_eq_some set_get? set_set)
open Codec
namespace Stores
variable {s : Stores}

/-- Nothing is stored that a write would not store. -/
structure Canonical (s : Stores) : Prop where
  account : ∀ id a, s.accounts.get? id = some a → a.isEmpty = false
  contract : ∀ k v, s.contractStorage.get? k = some v → v.isEmpty = false
  balance : ∀ k b, s.tokenBalances.get? k = some b → b ≠ 0
  window : ∀ k w, s.tokenWindows.get? k = some w → w ≠ default

theorem Canonical.new (C : Crypto) : (Stores.new C).Canonical where
  account := nofun
  contract := nofun
  balance := nofun
  window := nofun

theorem Canonical.store (h : s.Canonical) (op : UndoOp) : (s.store op).Canonical := by
  cases op with
  | account id v =>
    refine { h with account := fun id' a ha => ?_ }
    obtain ⟨-, hv⟩ | ha := get?_set_eq_some ha
    · simpa using (Option.filter_eq_some_iff.mp hv).2
    · exact h.account id' a ha
  | contract id key v =>
    refine { h with contract := fun k b hb => ?_ }
    obtain ⟨-, hv⟩ | hb := get?_set_eq_some hb
    · simpa using (Option.filter_eq_some_iff.mp hv).2
    · exact h.contract k b hb
  | tokenBalance asset holder v =>
    refine { h with balance := fun k b hb => ?_ }
    obtain ⟨-, hv⟩ | hb := get?_set_eq_some hb
    · simpa using (Option.filter_eq_some_iff.mp hv).2
    · exact h.balance k b hb
  | tokenWindow asset holder v =>
    refine { h with window := fun k w hw => ?_ }
    obtain ⟨-, hv⟩ | hw := get?_set_eq_some hw
    · simpa using (Option.filter_eq_some_iff.mp hv).2
    · exact h.window k w hw
  | _ => exact { h with }

theorem slot_content (op : UndoOp) : (s.content op).slot = op.slot := by
  cases op <;> rfl

theorem filter_get? {κ ν : Type} [LinearOrder κ] {m : OrdMap κ ν} {k : κ} {p : ν → Bool}
    (h : ∀ v, m.get? k = some v → p v = true) : (m.get? k).filter p = m.get? k := by
  cases hv : m.get? k with
  | none => rfl
  | some v => simp [Option.filter, h v hv]

theorem store_content (h : s.Canonical) (op : UndoOp) : (s.store op).store (s.content op) = s := by
  cases op with
  | account id v =>
    simp only [store, content, set_set]
    rw [filter_get? fun a ha => by simp [h.account id a ha], set_get?]
  | contract id key v =>
    simp only [store, content, set_set]
    rw [filter_get? fun a ha => by simp [h.contract _ a ha], set_get?]
  | tokenBalance asset holder v =>
    simp only [store, content, set_set]
    rw [filter_get? fun a ha => by simpa using h.balance _ a ha, set_get?]
  | tokenWindow asset holder v =>
    simp only [store, content, set_set]
    rw [filter_get? fun a ha => by simpa using h.window _ a ha, set_get?]
  | _ => simp only [store, content, set_set, set_get?]

theorem leaf_store_of_ne {C : Crypto} {op : UndoOp} {slot : Slot} (h : slot ≠ op.slot) :
    (s.store op).leaf C slot = s.leaf C slot := by
  have hset : ∀ {κ ν : Type} [LinearOrder κ] (m : OrdMap κ ν) {k k' : κ} (v : Option ν), k ≠ k' →
      (m.set k v).get? k' = m.get? k' := fun m k k' v hne => by rw [get?_set, if_neg hne]
  cases slot with
  | reserved r => cases op <;> cases r <;> first | rfl | exact absurd rfl h
  | _ =>
    -- A write to another store is no write here, and one to the same store has another key.
    cases op <;> try rfl
    all_goals
      simp only [store, leaf]
      rw [hset]
      intro he
      exact h (by cases he; rfl)

/-- The stores without the Orchard pool. -/
def poolless (s : Stores) : Stores := { s with shielded := ⟨.empty, .empty, []⟩ }

theorem poolless_store {s' : Stores} (h : s.poolless = s'.poolless) (op : UndoOp) :
    (s.store op).poolless = (s'.store op).poolless := by
  simp only [poolless, Stores.mk.injEq] at h
  cases op <;> simp only [poolless, store, h]

end Stores

namespace Ledger
variable {C : Crypto} {L L' L₀ : Ledger}

/-- The ledger without its journal. -/
def forget (L : Ledger) : Ledger := { L with undo := none }

/-- One change of a ledger: a journalled write that satisfies `Q`, or, if `T` allows it, a change of the
Orchard pool past the journal and the commitment. -/
inductive Step (C : Crypto) (Q : UndoOp → Prop) (T : Prop) : Ledger → Ledger → Prop
  | write {L : Ledger} (op : UndoOp) (hQ : Q op) : Step C Q T L (L.overwrite C op)
  | torn {L : Ledger} (pool : ShieldedState) (hT : T) : Step C Q T L { L with shielded := pool }

abbrev Steps (C : Crypto) (Q : UndoOp → Prop) (T : Prop) : Ledger → Ledger → Prop :=
  Relation.ReflTransGen (Step C Q T)

/-- The leaves of the slots in `S` are those of the stores. -/
def Faithful (C : Crypto) (S : Slot → Prop) (L : Ledger) : Prop :=
  ∀ slot, S slot → L.commitment.get? (slot.hash C) = L.leaf C slot

/-- No two slots in `S` have one key. -/
def KeysDistinct (C : Crypto) (S : Slot → Prop) : Prop :=
  ∀ a b, S a → S b → a.hash C = b.hash C → a = b

variable {S : Slot → Prop} {op : UndoOp}

theorem Faithful.overwrite (h : L.Faithful C S) (hS : KeysDistinct C S) (hop : S op.slot) :
    (L.overwrite C op).Faithful C S := by
  intro slot hslot
  change (L.commitment.set _ _).get? _ = (L.store op).leaf C slot
  by_cases heq : slot = op.slot
  · rw [heq, OrdMap.get?_set_self]
    rfl
  · have hkey : op.slot.hash C ≠ slot.hash C := fun hk => heq (hS _ _ hslot hop hk.symm)
    rw [get?_set, if_neg hkey, Stores.leaf_store_of_ne heq]
    exact h slot hslot

theorem put_content (hc : L.Canonical) (hleaf : L.commitment.get? (op.slot.hash C) = L.leaf C op.slot) :
    (L.overwrite C op).forget.put C (L.content op) = L.forget := by
  have hstores : (L.store op).store (L.content op) = L.toStores := Stores.store_content hc op
  have hcommit : ((L.commitment.set (op.slot.hash C) ((L.store op).leaf C op.slot)).set
      ((L.content op).slot.hash C) (L.leaf C (L.content op).slot)) = L.commitment := by
    rw [Stores.slot_content, set_set, ← hleaf, set_get?]
  unfold put forget
  simp only [overwrite, put, record]
  rw [hstores, hcommit]

variable {T : Prop} {Q : UndoOp → Prop}

theorem Steps.canonical (h : Steps C Q T L₀ L) (hc : L₀.Canonical) : L.Canonical := by
  induction h with
  | refl => exact hc
  | tail _ hstep ih =>
    cases hstep with
    | write op _ => exact ih.store op
    | torn pool _ => exact { ih with }

theorem Steps.faithful (h : Steps C (fun op => S op.slot) False L₀ L) (hS : KeysDistinct C S)
    (hf : L₀.Faithful C S) : L.Faithful C S := by
  induction h with
  | refl => exact hf
  | tail _ hstep ih =>
    cases hstep with
    | write op hop => exact ih.overwrite hS hop
    | torn _ hT => exact hT.elim

variable {log : List UndoOp}

theorem undo_overwrite {log' : List UndoOp} (h : L.undo = some log) (h' : (L.overwrite C op).undo = some log') :
    log' = log ++ [L.content op] := by
  have : L.undo.map (· ++ [L.content op]) = some log' := h'
  rw [h, Option.map_some, Option.some.injEq] at this
  exact this.symm

variable {log₀ : List UndoOp}

/-- The journal grows with the writes. -/
theorem Steps.undo_eq (h : Steps C Q T L₀ L) (h0 : L₀.undo = some log₀) : ∃ log, L.undo = some (log₀ ++ log) := by
  induction h with
  | refl => exact ⟨[], by simpa using h0⟩
  | @tail L1 L2 _ hstep ih =>
    obtain ⟨log, hlog⟩ := ih
    cases hstep with
    | write op _ =>
      refine ⟨log ++ [L1.content op], ?_⟩
      change L1.undo.map _ = _
      rw [hlog, Option.map_some, List.append_assoc]
    | torn _ _ => exact ⟨log, hlog⟩

theorem Steps.of_undo (h : Steps C Q T L₀ L) (h0 : L₀.undo = some log₀) (hlog : L.undo = some log)
    (hS : ∀ op ∈ log, S op.slot) : Steps C (fun op => Q op ∧ S op.slot) T L₀ L := by
  induction h generalizing log with
  | refl => exact .refl
  | @tail L1 L2 hsteps hstep ih =>
    obtain ⟨log1, hlog1⟩ := Steps.undo_eq hsteps h0
    cases hstep with
    | write op hQ =>
      obtain rfl := undo_overwrite hlog1 hlog
      have hop : S op.slot := by
        have := hS (L1.content op) (by simp)
        rwa [Stores.slot_content] at this
      exact (ih hlog1 fun op' hop' => hS op' (List.mem_append_left _ hop')).tail (.write op ⟨hQ, hop⟩)
    | torn pool hT => exact (ih hlog hS).tail (.torn pool hT)

theorem Steps.undo_exact (h : Steps C (fun op => S op.slot) False L₀ L) (hS : KeysDistinct C S)
    (hc : L₀.Canonical) (hf : L₀.Faithful C S) (h0 : L₀.undo = some log₀) (hlog : L.undo = some (log₀ ++ log)) :
    log.reverse.foldl (put C) L.forget = L₀.forget := by
  induction h generalizing log with
  | refl =>
    have : log = [] := by simpa [h0] using hlog
    subst this
    rfl
  | @tail L1 L2 hsteps hstep ih =>
    obtain ⟨log1, hlog1⟩ := Steps.undo_eq hsteps h0
    cases hstep with
    | write op hop =>
      have hnext : log = log1 ++ [L1.content op] := by
        simpa using undo_overwrite hlog1 hlog
      rw [hnext, List.reverse_append, List.reverse_singleton, List.singleton_append, List.foldl_cons,
        put_content (Steps.canonical hsteps hc) (Steps.faithful hsteps hS hf _ hop)]
      exact ih hlog1
    | torn _ hT => exact hT.elim

theorem toStores_foldl_put (log : List UndoOp) (L : Ledger) :
    (log.foldl (put C) L).toStores = log.foldl Stores.store L := by
  induction log generalizing L with
  | nil => rfl
  | cons op log ih => exact ih (L.put C op)

theorem foldl_store_poolless (log : List UndoOp) {s s' : Stores} (h : s.poolless = s'.poolless) :
    (log.foldl Stores.store s).poolless = (log.foldl Stores.store s').poolless := by
  induction log generalizing s s' with
  | nil => exact h
  | cons op log ih => exact ih (Stores.poolless_store h op)

/-- Undoing all writes restores the stores, whatever became of the pool. -/
theorem Steps.undo_poolless (h : Steps C Q T L₀ L) (hc : L₀.Canonical) (h0 : L₀.undo = some log₀)
    (hlog : L.undo = some (log₀ ++ log)) : (log.reverse.foldl Stores.store L).poolless = L₀.poolless := by
  induction h generalizing log with
  | refl =>
    have : log = [] := by simpa [h0] using hlog
    subst this
    rfl
  | @tail L1 L2 hsteps hstep ih =>
    obtain ⟨log1, hlog1⟩ := Steps.undo_eq hsteps h0
    cases hstep with
    | write op hop =>
      have hnext : log = log1 ++ [L1.content op] := by
        simpa using undo_overwrite hlog1 hlog
      rw [hnext, List.reverse_append, List.reverse_singleton, List.singleton_append, List.foldl_cons,
        toStores_overwrite, Stores.store_content (Steps.canonical hsteps hc)]
      exact ih hlog1
    | torn pool _ =>
      rw [← ih hlog]
      exact foldl_store_poolless _ rfl

end Ledger
end Sov
