import SovChain.State.Operations
import SovChain.State.Snapshot
import SovChain.State.SparseTree

/-!
# Whole lives of a ledger

A ledger is made by `new` or from a snapshot, and changed by calls, by journalling and by undoing
(`Ledger.Reached`). Two results hold over every such life.

* A sequence of calls is undone exactly if `LedgerCall.Restorable` holds: no Orchard bundle failed half way
  before the first one that was applied, and the commitment was in step with the stores at the slots
  written.
* In a life in which every id in a slot validates and no bundle fails half way, the commitment holds exactly
  the leaves of the stores.
-/

namespace Sov
open List (mem_append mem_cons_self mem_map_of_mem)
open Codec

/-- One step in the life of a ledger. -/
inductive LedgerStep where
  | call (call : LedgerCall)
  | beginUndo
  | takeUndo
  | applyUndo (log : List UndoOp)
  | load (bytes : Bytes)

def LedgerStep.run (C : Crypto) (isCmx : Hash → Bool) (L : Ledger) : LedgerStep → Option Ledger
  | call c => c.run C L
  | beginUndo => some L.beginUndo
  | takeUndo => some L.takeUndo.1
  | applyUndo log => some (L.applyUndo C log)
  | load bytes => (Ledger.fromSnapshotBytes C isCmx bytes).toOption

/-- The ledgers reached by steps that satisfy `G` where they are taken. -/
inductive Ledger.Reached (C : Crypto) (isCmx : Hash → Bool) (G : Ledger → LedgerStep → Prop) : Ledger → Prop
  | new : Reached C isCmx G (Ledger.new C)
  | step {L L' : Ledger} {step : LedgerStep} (h : Reached C isCmx G L) (hG : G L step)
      (hrun : step.run C isCmx L = some L') : Reached C isCmx G L'

/-! ## What is stored is worth storing -/

namespace Ledger
variable {C : Crypto} {L L' : Ledger}

theorem canonical_foldl_apply {cs : List Change} (h : L.Canonical) : (cs.foldl (Change.apply C) L).Canonical := by
  induction cs generalizing L with
  | nil => exact h
  | cons c cs ih =>
    refine ih (L := c.apply C L) ?_
    cases c with
    | write op => exact h.store op
    | torn pool => exact { h with }
    | mark id => exact h.store (.intent id (some ()))

theorem canonical_foldl_store {log : List UndoOp} {s : Stores} (h : s.Canonical) :
    (log.foldl Stores.store s).Canonical := by
  induction log generalizing s with
  | nil => exact h
  | cons op log ih => exact ih (h.store op)

theorem canonical_foldl {α : Type} {f : Ledger → α → Ledger} (hf : ∀ L a, L.Canonical → (f L a).Canonical)
    {l : List α} (h : L.Canonical) : (l.foldl f L).Canonical := by
  induction l generalizing L with
  | nil => exact h
  | cons a l ih => exact ih (hf L a h)

theorem canonical_run {call : LedgerCall} (h : L.Canonical) (hrun : call.run C L = some L') : L'.Canonical := by
  rw [LedgerCall.run_eq hrun]
  exact canonical_foldl_apply h

variable {s : LegacySnapshot}

theorem canonical_loadPool {pool : ShieldedState} (h : L.Canonical) : (loadPool C s pool L).Canonical := { h with }

theorem canonical_loadRegistries (h : L.Canonical) : (loadRegistries C s L).Canonical := by
  unfold loadRegistries
  extract_lets L1 L2 L3 L4 L5 L6
  have h1 : L1.Canonical := { h with }
  have h2 : L2.Canonical := { h1 with }
  have h3 : L3.Canonical := { h2 with }
  have h4 : L4.Canonical := { h3 with }
  have h5 : L5.Canonical := { h4 with }
  have h6 : L6.Canonical := { h5 with }
  exact { h6 with }

theorem canonical_loadV2 {v2 : V2Snapshot} {pool : ShieldedV2State} (h : L.Canonical) :
    (loadV2 C v2 pool L).Canonical := { h with }

theorem canonical_loadAccounts : (loadAccounts C s).Canonical := by
  refine { canonical_foldl (fun L e h => ?_) (canonical_foldl (fun L e h => ?_) (.new C)) with }
  · exact h.store (.contract e.1.1 e.1.2 (some e.2))
  · exact h.store (.account e.1 (some e.2))

theorem canonical_loadTokens (h : L.Canonical) : (loadTokens C s L).Canonical := by
  have hrun : ∀ (call : LedgerCall) {L L' : Ledger}, call.run C L = some L' → L.Canonical → L'.Canonical :=
    fun call L L' hrun h => canonical_run h hrun
  refine Stores.Canonical.store ?_ (.deshieldWindow s.deshieldWindow)
  refine canonical_foldl (fun L id h => hrun (.consumeIntent id) rfl h) ?_
  refine canonical_foldl (fun L e h => hrun (.setTokenWindow e.1.1 e.1.2 e.2) rfl h) ?_
  refine canonical_foldl (fun L e h => hrun (.setTokenPolicy e.1 e.2) rfl h) ?_
  refine canonical_foldl (fun L e h => hrun (.setTokenBalance e.1.1 e.1.2 e.2) rfl h) ?_
  exact canonical_foldl (fun L e h => hrun (.setToken e.1 e.2) rfl h) h

variable {isCmx : Hash → Bool}

theorem canonical_fromSnapshot {v2 : V2Snapshot} (h : fromSnapshot C isCmx s v2 = .ok L) : L.Canonical := by
  unfold fromSnapshot at h
  split at h
  · cases h
  split at h
  · cases h
  cases h
  exact canonical_loadV2 (canonical_loadRegistries (canonical_loadTokens (canonical_loadPool canonical_loadAccounts)))

theorem canonical_fromSnapshotBytes {bytes : Bytes} (h : fromSnapshotBytes C isCmx bytes = .ok L) : L.Canonical := by
  unfold fromSnapshotBytes at h
  split at h
  · exact canonical_fromSnapshot h
  · split at h
    · exact canonical_fromSnapshot h
    · cases h

theorem Reached.canonical {G : Ledger → LedgerStep → Prop} (h : Reached C isCmx G L) : L.Canonical := by
  induction h with
  | new => exact .new C
  | @step L L' step _ _ hrun ih =>
    cases step with
    | call c => exact canonical_run ih hrun
    | beginUndo | takeUndo =>
      cases hrun
      exact { ih with }
    | applyUndo log =>
      cases hrun
      change (log.reverse.foldl (put C) { L with undo := none }).Canonical
      rw [toStores_foldl_put]
      exact canonical_foldl_store ih
    | load bytes =>
      unfold LedgerStep.run at hrun
      dsimp only at hrun
      rcases hload : fromSnapshotBytes C isCmx bytes with e | L1
      · simp [hload, Except.toOption] at hrun
      simp only [hload, Except.toOption, Option.some.injEq] at hrun
      exact hrun ▸ canonical_fromSnapshotBytes hload

end Ledger

/-! ## Undoing -/

/-- The ledger after `take_undo` and `apply_undo`. -/
def Ledger.rollback (C : Crypto) (L : Ledger) : Ledger := L.takeUndo.1.applyUndo C L.takeUndo.2

namespace LedgerCall
variable {C : Crypto} {isCmx : Hash → Bool} {L L' : Ledger} {calls : List LedgerCall}

/-- The commitment is in step with the stores where the changes touch it: under each key at the first slot
journalled there, and at an intent that is marked again under a key that is not journalled. -/
structure InStep (C : Crypto) (L : Ledger) (cs : List Change) : Prop where
  written : ∀ k slot, Change.firstAt C cs k = some slot → L.commitment.get? k = L.leaf C slot
  marked : ∀ id ∈ Change.marked cs, Change.firstAt C cs ((Slot.intent id).hash C) = none →
    L.commitment.get? ((Slot.intent id).hash C) = L.leaf C (.intent id)

/-- The calls can be undone exactly. -/
structure Restorable (C : Crypto) (L : Ledger) (calls : List LedgerCall) : Prop where
  orderly : L.shielded.orderly (calls.filterMap bundle?) = true
  inStep : InStep C L (changesAll C L.toStores calls)

theorem undo_undone (cs : List Change) : (Change.undone C L cs).undo = none := by
  induction cs generalizing L with
  | nil => rfl
  | cons c cs ih => cases c <;> exact ih

theorem rollback_eq (hrun : runAll C L.beginUndo calls = some L') :
    L'.rollback C = Change.undone C L.beginUndo (changesAll C L calls) := by
  have hL' : L' = (changesAll C L calls).foldl (Change.apply C) L.beginUndo := runAll_eq hrun
  obtain ⟨log, hlog, hundone⟩ := Change.undo_foldl_apply (C := C) (L := L.beginUndo)
    (changesAll C L calls) rfl
  rw [← hL'] at hlog hundone
  have hnone := undo_undone (C := C) (L := L.beginUndo) (changesAll C L calls)
  rw [← hundone] at hnone ⊢
  unfold Ledger.rollback Ledger.takeUndo Ledger.applyUndo
  dsimp only
  rw [hlog, Option.getD_some, List.nil_append]
  exact congrArg (fun u => { log.reverse.foldl (Ledger.put C) L'.forget with undo := u }) hnone.symm

/-- An intent that is marked again, and not journalled, was used before. -/
theorem leaf_of_marked {s : Stores} {cs : List Change} (hs : Change.Sound s cs) {id : Hash}
    (hid : id ∈ Change.marked cs) (hfirst : Change.firstAt C cs ((Slot.intent id).hash C) = none) :
    s.leaf C (.intent id) = some [1] := by
  have hused : ∀ {s : Stores}, s.intentConsumed id = true → s.leaf C (.intent id) = some [1] := by
    intro s h
    obtain ⟨u, hu⟩ := Option.isSome_iff_exists.mp h
    simp [Stores.leaf, hu]
  induction cs generalizing s with
  | nil => cases hid
  | cons c cs ih =>
    cases c with
    | write op =>
      have hne : op.slot.hash C ≠ (Slot.intent id).hash C := fun heq => by
        simp [Change.firstAt, Change.written, Change.slot?, heq] at hfirst
      have hrest : Change.firstAt C cs ((Slot.intent id).hash C) = none := by
        simpa [Change.firstAt, Change.written, Change.slot?, hne] using hfirst
      have hslot : Slot.intent id ≠ op.slot := fun heq => hne (by rw [heq])
      rw [← Stores.leaf_store_of_ne hslot]
      exact ih hs.2 hid hrest
    | torn pool => exact ih (s := { s with shielded := pool }) hs.2 hid hfirst
    | mark id' =>
      by_cases heq : id' = id
      · exact hused (hs.1 id (by rw [heq]))
      have hmem : id ∈ Change.marked cs := by
        obtain hhead | htail := List.mem_cons.mp (show id ∈ id' :: Change.marked cs from hid)
        · exact absurd hhead.symm heq
        · exact htail
      have hrest := ih hs.2 hmem hfirst
      rwa [Change.store, Change.store_mark (hs.1 id' rfl)] at hrest

theorem commitment_undone_iff {cs : List Change} (hs : Change.Sound L cs)
    (hstores : (Change.undone C L cs).toStores = L.toStores) :
    (Change.undone C L cs).commitment = L.commitment ↔ InStep C L cs := by
  have hget := fun k => Change.get?_undone (C := C) cs hs k
  rw [hstores] at hget
  constructor
  · intro heq
    rw [heq] at hget
    refine ⟨fun k slot hfirst => ?_, fun id hid hfirst => ?_⟩
    · rw [hget k, hfirst]
    · rw [hget, hfirst, leaf_of_marked hs hid hfirst]
      exact if_pos ⟨id, hid, rfl⟩
  · intro hin
    refine OrdMap.ext_get? fun k => ?_
    rw [hget k]
    cases hfirst : Change.firstAt C cs k with
    | some slot => exact (hin.written k slot hfirst).symm
    | none =>
      simp only
      split_ifs with hmark
      · obtain ⟨id, hid, rfl⟩ := hmark
        rw [hin.marked id hid hfirst, leaf_of_marked hs hid hfirst]
      · rfl

/-- A sequence of calls that does not panic is undone exactly, in the stores and in the state root, if and
only if it is restorable. -/
theorem undo_restores_iff (hL : L.Reached C isCmx fun _ _ => True)
    (hrun : runAll C L.beginUndo calls = some L') (hsep : Ledger.Separates C (L'.rollback C) L) :
    ((L'.rollback C).toStores = L.toStores ∧ (L'.rollback C).stateRoot C = L.stateRoot C) ↔ Restorable C L calls := by
  have hstores : (L'.rollback C).toStores = L.toStores ↔
      L.shielded.orderly (calls.filterMap bundle?) = true := by
    have hundone : (Change.undone C L.beginUndo (changesAll C L calls)).toStores =
        { L.toStores with shielded := Change.poolLeft L.shielded (changesAll C L calls) } :=
      Change.toStores_undone (L := L.beginUndo) hL.canonical (sound_changesAll calls)
    rw [rollback_eq hrun, hundone, ← ShieldedState.untilApplied_eq_iff (C := C), ← poolLeft_changesAll (s := L)]
    constructor
    · exact fun h => congrArg Stores.shielded h
    · intro h
      rw [h]
  have hroot : (L'.rollback C).toStores = L.toStores →
      ((L'.rollback C).stateRoot C = L.stateRoot C ↔ InStep C L (changesAll C L calls)) := by
    intro heq
    rw [rollback_eq hrun] at heq hsep ⊢
    have hcommit := commitment_undone_iff (C := C) (L := L.beginUndo) (sound_changesAll calls) heq
    constructor
    · intro hr
      have htree : (Change.undone C L.beginUndo (changesAll C L calls)).commitment = L.commitment :=
        Ledger.commitment_eq_of_stateRoot_eq hsep hr
      have hin := hcommit.mp htree
      exact ⟨hin.written, hin.marked⟩
    · intro hin
      have h := hcommit.mpr ⟨hin.written, hin.marked⟩
      exact congrArg (fun m : OrdMap Hash Bytes => Ledger.subtreeRoot C Ledger.treeHeight m.entries) h
  constructor
  · exact fun ⟨hs, hr⟩ => ⟨hstores.mp hs, (hroot hs).mp hr⟩
  · exact fun h => ⟨hstores.mpr h.orderly, (hroot (hstores.mpr h.orderly)).mpr h.inStep⟩

/-- A ledger with one account. -/
def aliceLedger : Ledger := (Ledger.new peakCrypto).setAccount peakCrypto ⟨"alice.sov"⟩ { balance := 5 }

/-- Two calls that change the account, undone. -/
theorem undo_restores_account : ∃ L', runAll peakCrypto aliceLedger.beginUndo
        [.setAccount ⟨"alice.sov"⟩ { balance := 7 }, .setAccount ⟨"alice.sov"⟩ { balance := 9 }] = some L' ∧
      (L'.rollback peakCrypto).toStores = aliceLedger.toStores ∧
      (L'.rollback peakCrypto).stateRoot peakCrypto = aliceLedger.stateRoot peakCrypto := by
  have hrest : Restorable peakCrypto aliceLedger
      [.setAccount ⟨"alice.sov"⟩ { balance := 7 }, .setAccount ⟨"alice.sov"⟩ { balance := 9 }] := by
    refine ⟨rfl, fun k slot h => ?_, fun id hid => (nomatch hid)⟩
    have hmem : slot ∈ [Slot.account ⟨"alice.sov"⟩, .account ⟨"alice.sov"⟩] := List.mem_of_find?_eq_some h
    obtain rfl : slot = .account ⟨"alice.sov"⟩ := by simpa using hmem
    obtain rfl : (Slot.account ⟨"alice.sov"⟩).hash peakCrypto = k := by simpa using List.find?_some h
    rfl
  have hreached : aliceLedger.Reached peakCrypto (fun _ => true) fun _ _ => True :=
    @Ledger.Reached.step _ _ _ _ _ (.call (.setAccount ⟨"alice.sov"⟩ { balance := 5 })) .new trivial rfl
  exact ⟨_, rfl, (undo_restores_iff hreached rfl (separates_peakCrypto (by decide) rfl rfl)).mpr hrest⟩

/-- A ledger with one entry in the storage of a contract. -/
def contractLedger : Ledger := (Ledger.new xorCrypto).setContractValue xorCrypto ⟨"bob"⟩ [97] [1]

/-- An id that is the preimage of the slot of that entry. -/
def forgedHolder : AccountId := ⟨"bob\x01a"⟩

/-- Writing an account under the forged id and undoing it drops the leaf of the contract's entry: the stores
are back, the state root is not. -/
theorem undo_drops_leaf_of_forged_id : contractLedger.Reached xorCrypto (fun _ => true) (fun _ _ => True) ∧
      ∃ L', runAll xorCrypto contractLedger.beginUndo [.setAccount forgedHolder { balance := 5 }] = some L' ∧
        (L'.rollback xorCrypto).toStores = contractLedger.toStores ∧
        (L'.rollback xorCrypto).stateRoot xorCrypto ≠ contractLedger.stateRoot xorCrypto := by
  have hstep : (LedgerStep.call (.setContractValue ⟨"bob"⟩ [97] [1])).run xorCrypto (fun _ => true)
      (Ledger.new xorCrypto) = some contractLedger := rfl
  refine ⟨.step .new trivial hstep, _, rfl, rfl, ?_⟩
  intro heq
  have hbefore : contractLedger.stateRoot xorCrypto = Ledger.hashLeaf xorCrypto [1] :=
    Ledger.subtreeRoot_singleton_of_xor Ledger.hashNode_xorCrypto _ ((Slot.contract ⟨"bob"⟩ [97]).hash xorCrypto, [1])
  rw [hbefore] at heq
  have hafter : Hash.zero = Ledger.hashLeaf xorCrypto [1] :=
    (Ledger.defaultRoot_of_xor Ledger.hashNode_xorCrypto Ledger.treeHeight).symm.trans heq
  exact absurd hafter (by decide +kernel)

end LedgerCall

/-! ## The commitment is a function of the stores -/

namespace LedgerCall

/-- The slots a call writes. -/
def slots (C : Crypto) (s : Stores) (call : LedgerCall) : List Slot :=
  (call.cells C s).map UndoOp.slot ++ (Change.marked (call.bypass C s).toList).map .intent

end LedgerCall

/-- The slots of a snapshot, apart from the reserved ones. -/
def LegacySnapshot.slots (s : LegacySnapshot) : List Slot :=
  s.accounts.map (fun e => .account e.1) ++ s.storage.map (fun e => .contract e.1.1 e.1.2) ++
    s.tokens.map (fun e => .token e.1) ++ s.tokenBalances.map (fun e => .tokenBalance e.1.1 e.1.2) ++
    s.tokenPolicies.map (fun e => .tokenPolicy e.1) ++
    s.tokenWindows.map (fun e => .tokenWindow e.1.1 e.1.2) ++ s.consumedIntents.map .intent

namespace LedgerStep

/-- The slots a step writes, apart from the reserved ones of a snapshot. -/
def slots (C : Crypto) (L : Ledger) : LedgerStep → List Slot
  | call c => c.slots C L.toStores
  | applyUndo log => log.map UndoOp.slot
  | load bytes =>
    match (LegacySnapshot.codec.pair V2Snapshot.codec).decodeAll bytes with
    | some (s, _) => s.slots
    | none => ((LegacySnapshot.codec.decodeAll bytes).map LegacySnapshot.slots).getD []
  | _ => []

/-- The Orchard bundle of a step is applied or refused as a whole. -/
def wholeBundle (L : Ledger) : LedgerStep → Bool
  | call c => c.bundle?.all fun b => L.shielded.accepts b || L.shielded.refuses b
  | _ => true

/-- Every id in a slot the step writes validates, a bundle is applied whole or refused, and the slots are
among `S`. -/
structure Clean (C : Crypto) (S : Slot → Prop) (L : Ledger) (step : LedgerStep) : Prop where
  ids : ∀ slot ∈ step.slots C L, slot.WellFormed
  bundle : step.wholeBundle L = true
  slots : ∀ slot ∈ step.slots C L, S slot

end LedgerStep

namespace Ledger
variable {C : Crypto} {S : Slot → Prop} {L L' : Ledger}

/-- The commitment holds the leaves of the stores, all in slots of `S`. -/
structure Committed (C : Crypto) (S : Slot → Prop) (L : Ledger) : Prop where
  faithful : L.Faithful C S
  inside : ∀ slot, L.leaf C slot ≠ none → S slot
  covered : ∀ k v, L.commitment.get? k = some v → ∃ slot, S slot ∧ slot.hash C = k

theorem Committed.congr (h : L.Committed C S) (hstores : L'.toStores = L.toStores)
    (hcommit : L'.commitment = L.commitment) : L'.Committed C S where
  faithful slot hslot := by rw [hcommit, hstores]; exact h.faithful slot hslot
  inside slot hslot := h.inside slot (by rwa [← hstores])
  covered k v hk := h.covered k v (by rwa [← hcommit])

/-- Changing the stores behind one slot, with its leaf. -/
theorem Committed.install (h : L.Committed C S) (hS : KeysDistinct C S) {s : Stores} {slot : Slot}
    (hslot : S slot) (hframe : ∀ a, a ≠ slot → s.leaf C a = L.leaf C a) (hstores : L'.toStores = s)
    (hcommit : L'.commitment = L.commitment.set (slot.hash C) (s.leaf C slot)) : L'.Committed C S where
  faithful a ha := by
    rw [hcommit, hstores]
    by_cases heq : a = slot
    · rw [heq, OrdMap.get?_set_self]
    · have hkey : slot.hash C ≠ a.hash C := fun hk => heq (hS _ _ ha hslot hk.symm)
      rw [OrdMap.get?_set, if_neg hkey, hframe a heq]
      exact h.faithful a ha
  inside a ha := by
    by_cases heq : a = slot
    · exact heq ▸ hslot
    · exact h.inside a (by rwa [← hframe a heq, ← hstores])
  covered k v hk := by
    rw [hcommit] at hk
    obtain ⟨rfl, -⟩ | hk := OrdMap.get?_set_eq_some hk
    · exact ⟨slot, hslot, rfl⟩
    · exact h.covered k v hk

theorem Committed.put (h : L.Committed C S) (hS : KeysDistinct C S) (op : UndoOp) (hop : S op.slot) :
    (L.put C op).Committed C S :=
  h.install hS hop (fun _ hne => Stores.leaf_store_of_ne hne) rfl rfl

theorem Committed.overwrite (h : L.Committed C S) (hS : KeysDistinct C S) (op : UndoOp) (hop : S op.slot) :
    (L.overwrite C op).Committed C S :=
  (h.congr rfl rfl : (L.record (L.content op)).Committed C S).put hS op hop

theorem Committed.foldl_put (h : L.Committed C S) (hS : KeysDistinct C S) {log : List UndoOp}
    (hlog : ∀ op ∈ log, S op.slot) : (log.foldl (Ledger.put C) L).Committed C S := by
  induction log generalizing L with
  | nil => exact h
  | cons op log ih =>
    exact ih (h.put hS op (hlog op mem_cons_self)) fun op' hop' => hlog op' (List.mem_cons_of_mem _ hop')

theorem Committed.foldl_overwrite (h : L.Committed C S) (hS : KeysDistinct C S) {ops : List UndoOp}
    (hops : ∀ op ∈ ops, S op.slot) : (ops.foldl (Ledger.overwrite C) L).Committed C S := by
  induction ops generalizing L with
  | nil => exact h
  | cons op ops ih =>
    exact ih (h.overwrite hS op (hops op mem_cons_self)) fun op' hop' =>
      hops op' (List.mem_cons_of_mem _ hop')

theorem Committed.new (hS : ∀ r, S (.reserved r)) : (Ledger.new C).Committed C S where
  faithful slot _ := by
    cases slot with
    | reserved r => cases r <;> rfl
    | _ => rfl
  inside slot hslot := by
    cases slot with
    | reserved r => exact hS r
    | _ => exact absurd rfl hslot
  covered k v hk := by cases hk

theorem Committed.run (h : L.Committed C S) (hS : KeysDistinct C S) (call : LedgerCall)
    (hslots : ∀ slot ∈ call.slots C L, S slot)
    (hbundle : ∀ b, call.bundle? = some b → (L.shielded.accepts b || L.shielded.refuses b) = true)
    (hrun : call.run C L = some L') : L'.Committed C S := by
  have hcells : ∀ op ∈ call.cells C L, S op.slot := fun op hop =>
    hslots _ (List.mem_append_left _ (mem_map_of_mem hop))
  have hwrites := h.foldl_overwrite hS hcells
  rw [LedgerCall.run_eq hrun, LedgerCall.changes, List.foldl_append, Change.foldl_apply_write]
  obtain hnone | ⟨id, hmark⟩ | ⟨bundle, pool, e, rfl, he, htorn⟩ :=
    LedgerCall.bypass_cases (C := C) (s := L) call
  · rw [hnone]
    exact hwrites
  · rw [hmark]
    refine hwrites.put hS (.intent id (some ())) (hslots _ (List.mem_append_right _ ?_))
    simp [hmark, Change.marked, UndoOp.slot]
  -- the bundle was refused, so the pool is the one it was
  have hwhole := hbundle bundle rfl
  rw [Bool.or_eq_true] at hwhole
  obtain ha | hr := hwhole
  · have hnone := ShieldedState.applyBundle_of_accepts (C := C) ha
    rw [he] at hnone
    cases hnone
  obtain ⟨e', he'⟩ := ShieldedState.applyBundle_of_refuses (C := C) hr
  have hpool : pool = L.shielded := by
    rw [he', Prod.mk.injEq] at he
    exact he.1.symm
  have hnone : LedgerCall.cells C L (.applyShieldedBundle bundle) = [] := by
    unfold LedgerCall.cells
    simp only [he']
  rw [htorn, hnone, hpool]
  exact h.congr rfl rfl

variable {C : Crypto} {isCmx : Hash → Bool} {S : Slot → Prop} {L L' : Ledger}

theorem Committed.foldl {α : Type} {f : Ledger → α → Ledger} {l : List α} (h : L.Committed C S)
    (hf : ∀ L, L.Committed C S → ∀ a ∈ l, (f L a).Committed C S) : (l.foldl f L).Committed C S := by
  induction l generalizing L with
  | nil => exact h
  | cons a l ih =>
    exact ih (hf L h a mem_cons_self) fun L hL b hb => hf L hL b (List.mem_cons_of_mem _ hb)

section Load
variable (hS : KeysDistinct C S) (hres : ∀ r, S (.reserved r))

include hS

include hres in
/-- Writing a reserved slot anew after the stores behind it, and no others, have changed. -/
theorem Committed.recommit (h : L.Committed C S) {L1 : Ledger} {r : Reserved} (hcommit : L1.commitment = L.commitment)
    (hframe : ∀ a, a ≠ .reserved r → L1.leaf C a = L.leaf C a) : (L1.recommit C r).Committed C S :=
  h.install hS (hres r) hframe rfl (by rw [← hcommit]; rfl)

variable {s : LegacySnapshot}

include hres in
theorem committed_loadAccounts (hslots : ∀ slot ∈ s.slots, S slot) : (loadAccounts C s).Committed C S := by
  unfold loadAccounts
  extract_lets L1 L2
  have h1 : L1.Committed C S := Committed.foldl (.new hres) fun L hL e he => by
    refine hL.overwrite hS (.account e.1 (some e.2)) (hslots _ ?_)
    simp only [LegacySnapshot.slots, mem_append]
    exact .inl (.inl (.inl (.inl (.inl (.inl (mem_map_of_mem he))))))
  have h2 : L2.Committed C S := Committed.foldl h1 fun L hL e he => by
    refine hL.overwrite hS (.contract e.1.1 e.1.2 (some e.2)) (hslots _ ?_)
    simp only [LegacySnapshot.slots, mem_append]
    exact .inl (.inl (.inl (.inl (.inl (.inr (mem_map_of_mem he))))))
  exact h2.put hS (.minedEmitted s.minedEmitted) (hres _)

include hres in
theorem committed_loadPool {pool : ShieldedState} (h : L.Committed C S) : (loadPool C s pool L).Committed C S := by
  unfold loadPool
  extract_lets L1 L2 L3
  have h1 : L1.Committed C S := h.put hS (.shieldedValue s.shieldedValue) (hres _)
  have h2 : L2.Committed C S := h1.put hS (.shielded pool) (hres _)
  have h3 : L3.Committed C S := h2.put hS (.htlcLocked s.htlcLocked) (hres _)
  refine h3.recommit hS hres rfl fun a ha => ?_
  cases a with
  | reserved r => cases r <;> first | rfl | exact absurd rfl ha
  | _ => rfl

include hres in
theorem committed_loadTokens (h : L.Committed C S) (hslots : ∀ slot ∈ s.slots, S slot) :
    (loadTokens C s L).Committed C S := by
  have hmem : ∀ {slot : Slot}, slot ∈ s.slots ↔
      ((((((slot ∈ s.accounts.map (fun e => Slot.account e.1) ∨
        slot ∈ s.storage.map (fun e => Slot.contract e.1.1 e.1.2)) ∨ slot ∈ s.tokens.map (fun e => Slot.token e.1)) ∨
        slot ∈ s.tokenBalances.map (fun e => Slot.tokenBalance e.1.1 e.1.2)) ∨
        slot ∈ s.tokenPolicies.map (fun e => Slot.tokenPolicy e.1)) ∨
        slot ∈ s.tokenWindows.map (fun e => Slot.tokenWindow e.1.1 e.1.2)) ∨
        slot ∈ s.consumedIntents.map Slot.intent) := by
    intro slot
    simp only [LegacySnapshot.slots, mem_append]
  unfold loadTokens
  extract_lets L1 L2 L3 L4 L5
  have h1 : L1.Committed C S := Committed.foldl h fun L hL e he =>
    hL.overwrite hS (.token e.1 (some e.2)) (hslots _ (hmem.mpr
      (.inl (.inl (.inl (.inl (.inr (mem_map_of_mem he))))))))
  have h2 : L2.Committed C S := Committed.foldl h1 fun L hL e he =>
    hL.overwrite hS (.tokenBalance e.1.1 e.1.2 (some e.2)) (hslots _ (hmem.mpr
      (.inl (.inl (.inl (.inr (mem_map_of_mem he)))))))
  have h3 : L3.Committed C S := Committed.foldl h2 fun L hL e he => by
    have hpolicy : S (.tokenPolicy e.1) :=
      hslots _ (hmem.mpr (.inl (.inl (.inr (mem_map_of_mem he)))))
    refine hL.run hS (.setTokenPolicy e.1 e.2) (fun slot hslot => ?_) nofun rfl
    simp only [LedgerCall.slots, LedgerCall.cells, LedgerCall.bypass, Option.toList_none, Change.marked,
      List.filterMap_nil, List.map_nil, List.append_nil, List.map_cons, List.map_map, List.mem_cons,
      List.mem_map, Function.comp_apply] at hslot
    obtain rfl | ⟨holder, hholder, rfl⟩ := hslot
    · exact hpolicy
    -- a window that is cleared is in the stores, so its slot is among those in use
    refine hL.inside _ ?_
    obtain ⟨k, hk, rfl⟩ := List.mem_map.mp hholder
    obtain ⟨hkey, hasset⟩ := List.mem_filter.mp hk
    obtain ⟨w, hw⟩ := Option.isSome_iff_exists.mp (OrdMap.mem_keys.mp hkey)
    have hk' : k = toLex (e.1, (ofLex k).2) := by
      rw [← of_decide_eq_true hasset]
      rfl
    rw [hk'] at hw
    simp only [UndoOp.slot, Stores.leaf]
    simp [hw]
  have h4 : L4.Committed C S := Committed.foldl h3 fun L hL e he =>
    hL.overwrite hS (.tokenWindow e.1.1 e.1.2 (some e.2)) (hslots _ (hmem.mpr
      (.inl (.inr (mem_map_of_mem he)))))
  have h5 : L5.Committed C S := Committed.foldl h4 fun L hL id hid => by
    have hintent : S (.intent id) := hslots _ (hmem.mpr (.inr (mem_map_of_mem hid)))
    unfold consumeIntent
    split_ifs
    · exact hL.put hS (.intent id (some ())) hintent
    · exact hL.overwrite hS (.intent id (some ())) hintent
  exact h5.overwrite hS (.deshieldWindow s.deshieldWindow) (hres _)

include hres in
theorem committed_loadRegistries (h : L.Committed C S) : (loadRegistries C s L).Committed C S := by
  have hframe : ∀ {L1 L2 : Ledger} {r : Reserved}, (∀ a, (∀ r', a ≠ .reserved r') → L2.leaf C a = L1.leaf C a) →
      (∀ r', r' ≠ r → L2.reservedLeaf C r' = L1.reservedLeaf C r') →
      ∀ a, a ≠ .reserved r → L2.leaf C a = L1.leaf C a := by
    intro L1 L2 r hplain hreserved a ha
    cases a with
    | reserved r' => exact hreserved r' fun he => ha (he ▸ rfl)
    | _ => exact hplain _ nofun
  unfold loadRegistries
  extract_lets L1 L2 L3 L4 L5 L6
  have h5 : L5.Committed C S := by
    refine (((((h.recommit hS hres rfl (hframe ?_ ?_) : L1.Committed C S).recommit hS hres rfl (hframe ?_ ?_) :
      L2.Committed C S).recommit hS hres rfl (hframe ?_ ?_) : L3.Committed C S).recommit hS hres rfl (hframe ?_ ?_) :
      L4.Committed C S).recommit hS hres rfl (hframe ?_ ?_) : L5.Committed C S)
    all_goals
      intro a ha
      cases a <;> first | rfl | exact absurd rfl ha | exact absurd rfl (ha _)
  have h6 : L6.Committed C S := h5.put hS (.vaultCollateral s.vaultCollateral) (hres _)
  exact h6.put hS (.oraclePrice s.oraclePrice) (hres _)

include hres in
theorem committed_loadV2 {v2 : V2Snapshot} {pool : ShieldedV2State} (h : L.Committed C S) :
    (loadV2 C v2 pool L).Committed C S := by
  unfold loadV2
  extract_lets L1 L2
  have h1 : L1.Committed C S := h.put hS (.shieldedV2 pool) (hres _)
  have h2 : L2.Committed C S := h1.put hS (.shieldedV2Value v2.value) (hres _)
  exact h2.overwrite hS (.deshieldV2Window v2.window) (hres _)

include hres in
theorem committed_fromSnapshot {v2 : V2Snapshot} (hslots : ∀ slot ∈ s.slots, S slot)
    (h : fromSnapshot C isCmx s v2 = .ok L) : L.Committed C S := by
  unfold fromSnapshot at h
  split at h
  · cases h
  split at h
  · cases h
  cases h
  exact committed_loadV2 hS hres (committed_loadRegistries hS hres (committed_loadTokens hS hres
    (committed_loadPool hS hres (committed_loadAccounts hS hres hslots)) hslots))

include hres in
theorem committed_load {bytes : Bytes} (hslots : ∀ slot ∈ (LedgerStep.load bytes).slots C L, S slot)
    (h : fromSnapshotBytes C isCmx bytes = .ok L') : L'.Committed C S := by
  unfold fromSnapshotBytes at h
  unfold LedgerStep.slots at hslots
  dsimp only at hslots
  split at h
  · rename_i s v2 hdecode
    simp only [hdecode] at hslots
    exact committed_fromSnapshot hS hres hslots h
  rename_i hcurrent
  simp only [hcurrent] at hslots
  split at h
  · rename_i s hdecode
    rw [hdecode] at hslots
    exact committed_fromSnapshot hS hres hslots h
  · cases h

end Load

theorem keysDistinct_of_collisionFree (hC : C.CollisionFree fun p => ∃ slot, S slot ∧ slot.preimage = p) :
    KeysDistinct C fun slot => S slot ∧ slot.WellFormed := fun a b ha hb heq =>
  Slot.preimage_inj ha.2 hb.2 (hC _ _ ⟨a, ha.1, rfl⟩ ⟨b, hb.1, rfl⟩ heq)

theorem Reached.committed (hres : ∀ r, S (.reserved r))
    (hC : C.CollisionFree fun p => ∃ slot, S slot ∧ slot.preimage = p) (h : L.Reached C isCmx (LedgerStep.Clean C S)) :
    L.Committed C fun slot => S slot ∧ slot.WellFormed := by
  have hS := keysDistinct_of_collisionFree hC
  have hres' : ∀ r, S (.reserved r) ∧ (Slot.reserved r).WellFormed := fun r => ⟨hres r, nofun⟩
  induction h with
  | new => exact .new hres'
  | @step L L' step _ hG hrun ih =>
    have hslots : ∀ slot ∈ step.slots C L, S slot ∧ slot.WellFormed := fun slot hslot =>
      ⟨hG.slots slot hslot, hG.ids slot hslot⟩
    cases step with
    | call c =>
      refine ih.run hS c hslots (fun b hb => ?_) hrun
      have hwhole := hG.bundle
      simpa [LedgerStep.wholeBundle, hb] using hwhole
    | beginUndo | takeUndo =>
      cases hrun
      exact ih.congr rfl rfl
    | applyUndo log =>
      cases hrun
      have hforget : L.forget.Committed C fun slot => S slot ∧ slot.WellFormed := ih.congr rfl rfl
      have hlog : ∀ op ∈ log.reverse, S op.slot ∧ op.slot.WellFormed := fun op hop =>
        hslots _ (mem_map_of_mem (List.mem_reverse.mp hop))
      exact (hforget.foldl_put hS hlog).congr rfl rfl
    | load bytes =>
      unfold LedgerStep.run at hrun
      dsimp only at hrun
      rcases hload : fromSnapshotBytes C isCmx bytes with e | L1
      · simp [hload, Except.toOption] at hrun
      simp only [hload, Except.toOption, Option.some.injEq] at hrun
      exact hrun ▸ committed_load hS hres' hslots hload

/-- A commitment in step with the stores holds their leaves and nothing else. -/
theorem Committed.get?_eq_some_iff (h : L.Committed C S) {k : Hash} {v : Bytes} :
    L.commitment.get? k = some v ↔ ∃ slot, slot.hash C = k ∧ L.leaf C slot = some v := by
  constructor
  · intro hk
    obtain ⟨slot, hslot, rfl⟩ := h.covered k v hk
    exact ⟨slot, rfl, by rw [← h.faithful slot hslot, hk]⟩
  · rintro ⟨slot, rfl, hleaf⟩
    rw [h.faithful slot (h.inside slot (by rw [hleaf]; nofun)), hleaf]

theorem Committed.commitment_eq (h : L.Committed C S) (h' : L'.Committed C S)
    (hstores : L'.toStores = L.toStores) : L'.commitment = L.commitment := by
  refine OrdMap.ext_get? fun k => Option.ext fun v => ?_
  rw [h.get?_eq_some_iff, h'.get?_eq_some_iff, hstores]

/-- In a life in which every id in a slot validates and no bundle fails half way, the commitment holds exactly
the leaves of the stores, each reserved slot as its rule says, and the state root is a function of the stores. -/
theorem commitment_exact_of_clean (hres : ∀ r, S (.reserved r))
    (hC : C.CollisionFree fun p => ∃ slot, S slot ∧ slot.preimage = p) (h : L.Reached C isCmx (LedgerStep.Clean C S)) :
    (∀ k v, L.commitment.get? k = some v ↔ ∃ slot, slot.hash C = k ∧ L.leaf C slot = some v) ∧
      (∀ r, L.commitment.get? ((Slot.reserved r).hash C) = L.reservedLeaf C r) ∧
      ∀ L' : Ledger, L'.Reached C isCmx (LedgerStep.Clean C S) → L'.toStores = L.toStores →
        L'.stateRoot C = L.stateRoot C := by
  have hL := h.committed hres hC
  refine ⟨fun k v => hL.get?_eq_some_iff, fun r => hL.faithful _ ⟨hres r, nofun⟩, fun L' h' hstores => ?_⟩
  exact congrArg (fun m : OrdMap Hash Bytes => subtreeRoot C treeHeight m.entries)
    (hL.commitment_eq (h'.committed hres hC) hstores)

/-- The reserved slots and two accounts. -/
def sampleSlots (slot : Slot) : Prop :=
  (∃ r, slot = .reserved r) ∨ slot = .account ⟨"alice.sov"⟩ ∨ slot = .account ⟨"bob.sov"⟩

theorem collisionFree_sampleSlots : xorCrypto.CollisionFree fun p => ∃ slot, sampleSlots slot ∧ slot.preimage = p := by
  have hshort : ∀ slot, sampleSlots slot → (0 : UInt8) ∉ slot.preimage ∧ slot.preimage.length ≤ 32 := by
    rintro slot (⟨r, rfl⟩ | rfl | rfl)
    · cases r <;> decide
    · decide
    · decide
  have hpad : ∀ slot, sampleSlots slot → xorCrypto.digest slot.preimage = padHash slot.preimage := by
    intro slot hslot
    have := (hshort slot hslot).2
    simp only [xorCrypto, digestCrypto]
    rw [if_neg (by omega)]
  rintro p q ⟨a, ha, rfl⟩ ⟨b, hb, rfl⟩ heq
  rw [hpad a ha, hpad b hb] at heq
  exact padHash_inj (hshort a ha) (hshort b hb) heq

theorem reached_setAccount {id : AccountId} {a : Account} (hid : id.WellFormed) (hslot : sampleSlots (.account id))
    (h : L.Reached xorCrypto (fun _ => true) (LedgerStep.Clean xorCrypto sampleSlots)) :
    (L.setAccount xorCrypto id a).Reached xorCrypto (fun _ => true) (LedgerStep.Clean xorCrypto sampleSlots) := by
  refine @Reached.step _ _ _ _ _ (.call (.setAccount id a)) h ⟨fun slot hmem => ?_, rfl, fun slot hmem => ?_⟩ rfl
  · rw [List.mem_singleton.mp hmem]
    intro id' hid'
    rwa [List.mem_singleton.mp hid']
  · rwa [List.mem_singleton.mp hmem]

/-- Two accounts, one of them set twice. -/
def sampleAccounts : Ledger :=
  (((Ledger.new xorCrypto).setAccount xorCrypto ⟨"alice.sov"⟩ { balance := 5 }).setAccount xorCrypto ⟨"bob.sov"⟩
    { balance := 3 }).setAccount xorCrypto ⟨"alice.sov"⟩ { balance := 7 }

theorem commitment_exact_sampleAccounts : sampleAccounts.commitment.get?
    ((Slot.account ⟨"alice.sov"⟩).hash xorCrypto) = some (Account.codec.encode { balance := 7 }) := by
  have h := commitment_exact_of_clean (L := sampleAccounts) (fun r => .inl ⟨r, rfl⟩) collisionFree_sampleSlots
    (reached_setAccount (by decide) (.inr (.inl rfl)) (reached_setAccount (by decide) (.inr (.inr rfl))
      (reached_setAccount (by decide) (.inr (.inl rfl)) .new)))
  exact (h.1 _ _).mpr ⟨.account ⟨"alice.sov"⟩, rfl, rfl⟩

/-- Two ledgers with one entry under a forged id and one in the storage of the contract it collides with: the
stores are the same, and the state root is that of the entry written last. -/
theorem equal_stores_different_roots : ∃ L L' : Ledger, L.Reached xorCrypto (fun _ => true) (fun _ _ => True) ∧
      L'.Reached xorCrypto (fun _ => true) (fun _ _ => True) ∧ L.toStores = L'.toStores ∧
      L.stateRoot xorCrypto ≠ L'.stateRoot xorCrypto := by
  have hcontract : ∀ L : Ledger, (LedgerStep.call (.setContractValue ⟨"bob"⟩ [97] [1])).run xorCrypto
      (fun _ => true) L = some (L.setContractValue xorCrypto ⟨"bob"⟩ [97] [1]) := fun _ => rfl
  have haccount : ∀ L : Ledger, (LedgerStep.call (.setAccount LedgerCall.forgedHolder { balance := 5 })).run
      xorCrypto (fun _ => true) L =
        some (L.setAccount xorCrypto LedgerCall.forgedHolder { balance := 5 }) := fun _ => rfl
  refine ⟨_, _, .step (.step .new trivial (hcontract _)) trivial (haccount _),
    .step (.step .new trivial (haccount _)) trivial (hcontract _), rfl, fun heq => ?_⟩
  have hlast : Ledger.hashLeaf xorCrypto (Account.codec.encode { balance := 5 }) =
      Ledger.hashLeaf xorCrypto [1] := by
    refine Eq.trans ?_ (heq.trans ?_)
    · exact (subtreeRoot_singleton_of_xor hashNode_xorCrypto _ ((Slot.contract ⟨"bob"⟩ [97]).hash xorCrypto, _)).symm
    · exact subtreeRoot_singleton_of_xor hashNode_xorCrypto _ ((Slot.contract ⟨"bob"⟩ [97]).hash xorCrypto, _)
  exact absurd hlast (by decide +kernel)

end Ledger
end Sov
