import SovChain.State.History

/-!
# Loading what was saved

A ledger whose pools can be replayed from their notes is loaded back from its snapshot as it was
(`fromSnapshotBytes_toSnapshotBytes`), as long as Borsh can carry it and no two of its entries share a slot. Before the
post-quantum pool is used the blob of older versions does as well, and no blob is read in both ways.
-/

namespace Sov
open Codec

/-! ## The pools -/

namespace ShieldedState
variable {C : Crypto} {isCmx : Hash → Bool} {s s' : ShieldedState} {e : Option ShieldedError}

/-- Replaying the notes gives the pool, but for its nullifiers. -/
def Replayable (C : Crypto) (isCmx : Hash → Bool) (s : ShieldedState) : Prop :=
  (new C).replay C isCmx s.commitments = .ok { s with nullifiers := .empty }

theorem replay_append {t : ShieldedState} {past notes : List Hash} (h : s.replay C isCmx past = .ok t) :
    s.replay C isCmx (past ++ notes) = t.replay C isCmx notes := by
  induction past generalizing s with
  | nil =>
    cases h
    rfl
  | cons cmx rest ih =>
    rw [replay] at h
    rw [List.cons_append, replay]
    split_ifs at h ⊢
    exact ih h

theorem Replayable.new : (ShieldedState.new C).Replayable C isCmx := rfl

theorem Replayable.addCommitment {cmx : Hash} (h : s.Replayable C isCmx) (hcmx : isCmx cmx = true)
    (hroom : s.commitments.length < 2 ^ 32) : (s.addCommitment C cmx).Replayable C isCmx := by
  have hlen : ¬2 ^ 32 ≤ ({ s with nullifiers := .empty } : ShieldedState).commitments.length := by
    exact Nat.not_le.mpr hroom
  unfold Replayable
  change (ShieldedState.new C).replay C isCmx (s.commitments ++ [cmx]) = _
  rw [replay_append h, replay, hcmx, Bool.not_true, if_neg Bool.false_ne_true, if_neg hlen]
  rfl

theorem Replayable.addCommitments {notes : List Hash} (h : s.Replayable C isCmx)
    (hnotes : ∀ cmx ∈ notes, isCmx cmx = true) (hadd : s.addCommitments C notes = (s', e)) : s'.Replayable C isCmx := by
  induction notes generalizing s with
  | nil =>
    cases hadd
    exact h
  | cons cmx rest ih =>
    rw [ShieldedState.addCommitments] at hadd
    split_ifs at hadd with hfull
    · cases hadd
      exact h
    · refine ih (h.addCommitment (hnotes cmx List.mem_cons_self) (Nat.not_le.mp hfull)) ?_ hadd
      exact fun c hc => hnotes c (List.mem_cons_of_mem _ hc)

/-- Spent nullifiers are not part of what is replayed. -/
theorem Replayable.spend (h : s.Replayable C isCmx) (nullifiers : OrdMap Hash Unit) :
    ({ s with nullifiers } : ShieldedState).Replayable C isCmx := h

theorem Replayable.applyBundle {bundle : ShieldedBundle} (h : s.Replayable C isCmx)
    (hnotes : ∀ cmx ∈ bundle.noteCommitments, isCmx cmx = true) (happly : s.applyBundle C bundle = (s', e)) :
    s'.Replayable C isCmx := by
  unfold ShieldedState.applyBundle at happly
  split_ifs at happly
  · exact (h.spend _).addCommitments hnotes happly
  · cases happly
    exact h

theorem Replayable.restore (h : s.Replayable C isCmx) :
    ShieldedState.restore C isCmx s.commitments s.nullifiers.keys = .ok s := by
  unfold ShieldedState.restore
  rw [h]
  exact congrArg (fun m => Except.ok { s with nullifiers := m }) (OrdMap.ofKeys_keys s.nullifiers)

end ShieldedState

namespace ShieldedV2State
variable {C : Crypto} {s s' : ShieldedV2State}

/-- Replaying the notes gives the pool, but for its nullifiers, and these are digests that a snapshot may hold. -/
structure Replayable (C : Crypto) (s : ShieldedV2State) : Prop where
  notes : (new C).replay C s.commitments = .ok { s with nullifiers := .empty }
  nullifiers : ∀ nf ∈ s.nullifiers.keys, isCanonical nf = true ∧ nf ≠ Hash.zero

theorem replay_append {t : ShieldedV2State} {past notes : List Hash} (h : s.replay C past = .ok t) :
    s.replay C (past ++ notes) = t.replay C notes := by
  induction past generalizing s with
  | nil =>
    cases h
    rfl
  | cons cm rest ih =>
    rw [replay] at h
    rw [List.cons_append, replay]
    split_ifs at h ⊢
    exact ih h

theorem Replayable.new : (ShieldedV2State.new C).Replayable C := ⟨rfl, by nofun⟩

theorem nullifiers_appendCommitment (cm : Hash) : (s.appendCommitment C cm).nullifiers = s.nullifiers := by
  cases s
  rfl

theorem commitments_appendCommitment (cm : Hash) : (s.appendCommitment C cm).commitments = s.commitments ++ [cm] := by
  cases s
  rfl

theorem Replayable.appendCommitment {cm : Hash} (h : s.Replayable C) (hcanonical : isCanonical cm = true)
    (hzero : cm ≠ Hash.zero) (hroom : s.commitments.length < maxV2Notes) : (s.appendCommitment C cm).Replayable C := by
  have hlen : ¬maxV2Notes ≤ ({ s with nullifiers := .empty } : ShieldedV2State).commitments.length := by
    exact Nat.not_le.mpr hroom
  constructor
  · rw [commitments_appendCommitment, replay_append h.notes, replay, hcanonical, Bool.not_true,
      if_neg Bool.false_ne_true, if_neg hzero, if_neg hlen, replay]
    simp only [ShieldedV2State.appendCommitment]
  · rw [nullifiers_appendCommitment]
    exact h.nullifiers

theorem Replayable.foldl_appendCommitment {notes : List Hash} (h : s.Replayable C)
    (hnotes : ∀ cm ∈ notes, isCanonical cm = true ∧ cm ≠ Hash.zero)
    (hroom : s.commitments.length + notes.length ≤ maxV2Notes) :
    (notes.foldl (ShieldedV2State.appendCommitment C) s).Replayable C := by
  induction notes generalizing s with
  | nil => exact h
  | cons cm rest ih =>
    rw [List.length_cons] at hroom
    obtain ⟨hcanonical, hzero⟩ := hnotes cm List.mem_cons_self
    have hone := h.appendCommitment hcanonical hzero (by omega)
    rw [List.foldl_cons]
    refine ih hone (fun c hc => hnotes c (List.mem_cons_of_mem _ hc)) ?_
    rw [commitments_appendCommitment, List.length_append, List.length_singleton]
    omega

theorem checkNullifiers_eq_ok {batch nullifiers : List Hash} (h : s.checkNullifiers batch nullifiers = .ok ()) :
    ∀ nf ∈ nullifiers, isCanonical nf = true ∧ nf ≠ Hash.zero := by
  induction nullifiers generalizing batch with
  | nil => exact fun _ hnf => (List.not_mem_nil hnf).elim
  | cons nf rest ih =>
    unfold checkNullifiers at h
    split_ifs at h with hzero hcanonical
    intro nf' hnf'
    rcases List.mem_cons.mp hnf' with rfl | hrest
    · exact ⟨by simpa using hcanonical, hzero⟩
    · exact ih h nf' hrest

theorem Replayable.apply {nullifiers commitments : List Hash} (h : s.Replayable C)
    (happly : s.apply C nullifiers commitments = .ok s') : s'.Replayable C := by
  unfold ShieldedV2State.apply at happly
  split_ifs at happly with hfull hzero hcanonical
  rcases hcheck : s.checkNullifiers [] nullifiers with e | u
  · rw [hcheck] at happly
    cases happly
  rw [hcheck] at happly
  cases happly
  have hspent : ({ s with nullifiers := nullifiers.foldl (fun m nf => m.insert nf ()) s.nullifiers } :
      ShieldedV2State).Replayable C := by
    refine ⟨h.notes, fun nf hnf => ?_⟩
    rw [OrdMap.mem_keys, OrdMap.get?_foldl_insert] at hnf
    split_ifs at hnf with hmem
    · exact checkNullifiers_eq_ok hcheck nf hmem
    · exact h.nullifiers nf (OrdMap.mem_keys.mpr hnf)
  refine hspent.foldl_appendCommitment (fun cm hcm => ⟨?_, ?_⟩) (Nat.not_lt.mp hfull)
  · exact List.all_eq_true.mp (by simpa using hcanonical) cm hcm
  · rintro rfl
    exact hzero (List.contains_iff_mem.mpr hcm)

theorem restoreNullifiers_eq {nullifiers : List Hash} (h : ∀ nf ∈ nullifiers, isCanonical nf = true ∧ nf ≠ Hash.zero) :
    s.restoreNullifiers nullifiers =
      .ok { s with nullifiers := nullifiers.foldl (fun m nf => m.insert nf ()) s.nullifiers } := by
  induction nullifiers generalizing s with
  | nil => rfl
  | cons nf rest ih =>
    obtain ⟨hcanonical, hzero⟩ := h nf List.mem_cons_self
    rw [restoreNullifiers, hcanonical, Bool.not_true, if_neg Bool.false_ne_true, if_neg hzero,
      ih fun nf' hnf' => h nf' (List.mem_cons_of_mem _ hnf')]
    rfl

theorem Replayable.restore (h : s.Replayable C) :
    ShieldedV2State.restore C s.commitments s.nullifiers.keys = .ok s := by
  unfold ShieldedV2State.restore
  rw [h.notes]
  dsimp only
  rw [restoreNullifiers_eq h.nullifiers]
  exact congrArg (fun m => Except.ok { s with nullifiers := m }) (OrdMap.ofKeys_keys s.nullifiers)

end ShieldedV2State

/-! ## The stores -/

namespace Ledger
section Load
variable {C : Crypto} {s : Stores} {L : Ledger} {t : Stores}

/-- Writing the entries of a map one by one into an empty store. -/
theorem toStores_foldl_overwrite {κ ν : Type} [LinearOrder κ] {o : κ × ν → UndoOp}
    {p : Stores → OrdMap κ ν → Stores} {f : ν → Option ν}
    (hstore : ∀ s m e, (p s m).store (o e) = p s (m.set e.1 (f e.2))) {m : OrdMap κ ν}
    (hm : ∀ k v, m.get? k = some v → f v = some v) (hL : L.toStores = p s .empty) :
    (m.entries.foldl (fun L e => L.overwrite C (o e)) L).toStores = p s m := by
  have hfold : ∀ (l : List (κ × ν)) (past : OrdMap κ ν) (L : Ledger), L.toStores = p s past →
      (l.foldl (fun L e => L.overwrite C (o e)) L).toStores = p s (l.foldl (fun m e => m.set e.1 (f e.2)) past) := by
    intro l
    induction l with
    | nil => exact fun _ _ h => h
    | cons e rest ih =>
      intro past L h
      refine ih _ _ ?_
      rw [toStores_overwrite, h, hstore]
  rw [hfold m.entries .empty L hL]
  exact congrArg (p s) (OrdMap.overlay_self hm)

theorem toStores_loadAccounts (hs : s.Canonical) :
    (loadAccounts C (legacySnapshot s)).toStores = { Stores.new C with
      accounts := s.accounts, contractStorage := s.contractStorage, minedEmitted := s.minedEmitted } := by
  unfold loadAccounts
  extract_lets L1 L2
  have h1 : L1.toStores = { Stores.new C with accounts := s.accounts } := by
    refine toStores_foldl_overwrite (s := Stores.new C) (p := fun s m => { s with accounts := m })
      (f := fun a => (some a).filter fun a => !a.isEmpty) (fun _ _ _ => rfl) (fun id a ha => ?_) rfl
    simp [Option.filter, hs.account id a ha]
  have h2 : L2.toStores = { Stores.new C with accounts := s.accounts, contractStorage := s.contractStorage } := by
    change (List.foldl _ L1 (s.contractStorage.entries.map _)).toStores = _
    rw [List.foldl_map]
    refine toStores_foldl_overwrite (s := { Stores.new C with accounts := s.accounts })
      (p := fun s m => { s with contractStorage := m }) (f := fun b => (some b).filter fun b => !b.isEmpty)
      (fun _ _ _ => rfl) (fun k v hv => ?_) h1
    simp [Option.filter, hs.contract k v hv]
  change { L2.toStores with minedEmitted := s.minedEmitted } = _
  rw [h2]

theorem toStores_loadPool (hL : L.toStores = t) :
    (loadPool C (legacySnapshot s) s.shielded L).toStores = { t with
      shieldedValue := s.shieldedValue, shielded := s.shielded, htlcLocked := s.htlcLocked, htlcs := s.htlcs } := by
  rw [← hL]
  change ({ L.toStores with shieldedValue := _, shielded := _, htlcLocked := _, htlcs := OrdMap.collect s.htlcs.entries } :
    Stores) = _
  rw [OrdMap.collect_entries]
  rfl

theorem toStores_foldl_setTokenPolicy (m : OrdMap Hash CompliancePolicy) (ht : t.tokenWindows = .empty)
    (hL : L.toStores = { t with tokenPolicies := .empty }) :
    (m.entries.foldl (fun L e => L.setTokenPolicy C e.1 e.2) L).toStores = { t with tokenPolicies := m } := by
  have hone : ∀ (L : Ledger) (e : Hash × CompliancePolicy), L.tokenWindows = .empty →
      L.setTokenPolicy C e.1 e.2 = L.overwrite C (.tokenPolicy e.1 (some e.2)) := by
    intro L e hL
    have hnone : windowHolders L e.1 = [] := by
      rw [windowHolders, hL]
      rfl
    rw [setTokenPolicy, hnone]
    rfl
  have hfold : ∀ (l : List (Hash × CompliancePolicy)) (L : Ledger), L.tokenWindows = .empty →
      l.foldl (fun L e => L.setTokenPolicy C e.1 e.2) L =
        l.foldl (fun L e => L.overwrite C (.tokenPolicy e.1 (some e.2))) L := by
    intro l
    induction l with
    | nil => exact fun _ _ => rfl
    | cons e rest ih =>
      intro L hL
      rw [List.foldl_cons, List.foldl_cons, hone L e hL]
      exact ih _ hL
  rw [hfold _ L (by rw [hL]; exact ht)]
  exact toStores_foldl_overwrite (s := t) (p := fun s m => { s with tokenPolicies := m }) (f := some)
    (fun _ _ _ => rfl) (fun _ _ _ => rfl) hL

theorem toStores_foldl_consumeIntent (m : OrdMap Hash Unit)
    (hL : L.toStores = { t with consumedIntents := .empty }) :
    (m.keys.foldl (consumeIntent C) L).toStores = { t with consumedIntents := m } := by
  have hone : ∀ (L : Ledger) (id : Hash), (L.consumeIntent C id).toStores = L.toStores.store (.intent id (some ())) := by
    intro L id
    unfold consumeIntent
    split_ifs <;> rfl
  have hfold : ∀ (l : List Hash) (past : OrdMap Hash Unit) (L : Ledger),
      L.toStores = { t with consumedIntents := past } → (l.foldl (consumeIntent C) L).toStores =
        { t with consumedIntents := l.foldl (fun m k => m.insert k ()) past } := by
    intro l
    induction l with
    | nil => exact fun _ _ h => h
    | cons id rest ih =>
      intro past L h
      refine ih _ _ ?_
      rw [hone, h]
      rfl
  rw [hfold m.keys .empty L hL]
  exact congrArg (fun m => { t with consumedIntents := m }) (OrdMap.ofKeys_keys m)

theorem toStores_loadTokens (hs : s.Canonical) (hL : L.toStores = { t with
      tokens := .empty, tokenBalances := .empty, tokenPolicies := .empty, tokenWindows := .empty
      consumedIntents := .empty }) :
    (loadTokens C (legacySnapshot s) L).toStores = { t with
      tokens := s.tokens, tokenBalances := s.tokenBalances, tokenPolicies := s.tokenPolicies
      tokenWindows := s.tokenWindows, consumedIntents := s.consumedIntents, deshieldWindow := s.deshieldWindow } := by
  unfold loadTokens
  extract_lets L1 L2 L3 L4 L5
  let t1 : Stores := { t with
    tokens := s.tokens, tokenBalances := .empty, tokenPolicies := .empty, tokenWindows := .empty
    consumedIntents := .empty }
  let t2 : Stores := { t1 with tokenBalances := s.tokenBalances }
  let t3 : Stores := { t2 with tokenPolicies := s.tokenPolicies }
  let t4 : Stores := { t3 with tokenWindows := s.tokenWindows }
  have h1 : L1.toStores = t1 := toStores_foldl_overwrite (s := t1) (p := fun s m => { s with tokens := m }) (f := some)
    (fun _ _ _ => rfl) (fun _ _ _ => rfl) hL
  have h2 : L2.toStores = t2 := by
    change (List.foldl _ L1 (s.tokenBalances.entries.map _)).toStores = _
    rw [List.foldl_map]
    refine toStores_foldl_overwrite (s := t1) (p := fun s m => { s with tokenBalances := m })
      (f := fun b => (some b).filter (· ≠ 0)) (fun _ _ _ => rfl) (fun k b hb => ?_) h1
    simpa [Option.filter] using hs.balance k b hb
  have h3 : L3.toStores = t3 := toStores_foldl_setTokenPolicy (t := t2) s.tokenPolicies rfl h2
  have h4 : L4.toStores = t4 := by
    change (List.foldl _ L3 (s.tokenWindows.entries.map _)).toStores = _
    rw [List.foldl_map]
    refine toStores_foldl_overwrite (s := t3) (p := fun s m => { s with tokenWindows := m })
      (f := fun w => (some w).filter (· ≠ default)) (fun _ _ _ => rfl) (fun k w hw => ?_) h3
    simp [Option.filter, hs.window k w hw]
  have h5 : L5.toStores = { t4 with consumedIntents := s.consumedIntents } :=
    toStores_foldl_consumeIntent (t := t4) s.consumedIntents h4
  rw [setDeshieldWindow, toStores_overwrite, h5]
  rfl

theorem toStores_recommit (r : Reserved) : (L.recommit C r).toStores = L.toStores := rfl

theorem toStores_loadRegistries (hL : L.toStores = t) :
    (loadRegistries C (legacySnapshot s) L).toStores = { t with
      nftClasses := s.nftClasses, nfts := s.nfts, multisig := s.multisig, proposals := s.proposals, vaults := s.vaults
      vaultCollateral := s.vaultCollateral, oraclePrice := s.oraclePrice } := by
  have hnfts : OrdMap.collect ((s.nfts.entries.map fun e => (ofLex e.1, e.2)).map
      fun e : (Hash × Bytes) × NftToken => (toLex e.1, e.2)) = s.nfts := by
    rw [List.map_map]
    refine Eq.trans (congrArg OrdMap.collect ?_) (OrdMap.collect_entries s.nfts)
    exact List.map_id _
  simp only [loadRegistries, toStores_recommit, legacySnapshot, OrdMap.collect_entries, hnfts, hL]

/-- A snapshot of stores with replayable pools is accepted, and the stores come back. -/
theorem fromSnapshot_stores {isCmx : Hash → Bool} (hs : s.Canonical) (hpool : s.shielded.Replayable C isCmx)
    (hv2 : s.shieldedV2.Replayable C) :
    ∃ L, fromSnapshot C isCmx (legacySnapshot s) (v2Snapshot s) = .ok L ∧ L.toStores = s := by
  have h1 := toStores_loadAccounts (C := C) hs
  have h2 := toStores_loadPool (C := C) (s := s) h1
  have h3 := toStores_loadTokens (C := C) (t := { Stores.new C with
    accounts := s.accounts, contractStorage := s.contractStorage, minedEmitted := s.minedEmitted
    shieldedValue := s.shieldedValue, shielded := s.shielded, htlcLocked := s.htlcLocked, htlcs := s.htlcs }) hs h2
  have h4 := toStores_loadRegistries (C := C) (s := s) h3
  refine ⟨loadV2 C (v2Snapshot s) s.shieldedV2 (loadRegistries C (legacySnapshot s) (loadTokens C (legacySnapshot s)
    (loadPool C (legacySnapshot s) s.shielded (loadAccounts C (legacySnapshot s))))), ?_, ?_⟩
  · have hpool' : ShieldedState.restore C isCmx (legacySnapshot s).shieldedCommitments
        (legacySnapshot s).shieldedNullifiers = .ok s.shielded := hpool.restore
    have hv2' : ShieldedV2State.restore C (v2Snapshot s).commitments (v2Snapshot s).nullifiers = .ok s.shieldedV2 :=
      hv2.restore
    rw [fromSnapshot, hpool', hv2']
  · simp only [loadV2, toStores_recommit, setDeshieldV2Window, toStores_overwrite, Stores.store, h4, v2Snapshot]

end Load

/-! ## The whole ledger -/

section Whole
variable {C : Crypto} {isCmx : Hash → Bool} {S : Slot → Prop} {L : Ledger}

theorem overwrite_unjournalled (op : UndoOp) (h : L.undo = none) : (L.overwrite C op).undo = none := by
  change L.undo.map _ = none
  rw [h]
  rfl

theorem foldl_unjournalled {α : Type} {f : Ledger → α → Ledger} (hf : ∀ L a, L.undo = none → (f L a).undo = none)
    (l : List α) (h : L.undo = none) : (l.foldl f L).undo = none :=
  List.foldlRecOn l f h fun L hL a _ => hf L a hL

theorem undo_recommit (r : Reserved) : (L.recommit C r).undo = L.undo := rfl

theorem undo_fromSnapshot {s : LegacySnapshot} {v2 : V2Snapshot} (h : fromSnapshot C isCmx s v2 = .ok L) :
    L.undo = none := by
  have haccounts : (loadAccounts C s).undo = none :=
    foldl_unjournalled (fun _ _ => overwrite_unjournalled _) _ (foldl_unjournalled (fun _ _ => overwrite_unjournalled _) _ rfl)
  have htokens : ∀ L : Ledger, L.undo = none → (loadTokens C s L).undo = none := by
    intro L hL
    refine overwrite_unjournalled _ (foldl_unjournalled (fun L id hL => ?_) _ (foldl_unjournalled (fun _ _ => overwrite_unjournalled _) _
      (foldl_unjournalled (fun L e hL => ?_) _ (foldl_unjournalled (fun _ _ => overwrite_unjournalled _) _
        (foldl_unjournalled (fun _ _ => overwrite_unjournalled _) _ hL)))))
    · unfold consumeIntent
      split_ifs
      · exact hL
      · exact overwrite_unjournalled _ hL
    · exact foldl_unjournalled (fun _ _ => overwrite_unjournalled _) _ (overwrite_unjournalled _ hL)
  unfold fromSnapshot at h
  split at h
  · cases h
  rename_i pool _
  split at h
  · cases h
  cases h
  have hpool : ∀ L : Ledger, (loadPool C s pool L).undo = L.undo := fun _ => rfl
  have hregistries : ∀ L : Ledger, (loadRegistries C s L).undo = L.undo := fun L => by
    simp only [loadRegistries, undo_recommit]
  unfold loadV2
  refine overwrite_unjournalled _ ?_
  simp only [undo_recommit, hregistries]
  refine htokens _ ?_
  rw [hpool]
  exact haccounts

theorem leaf_of_mem_slots {s : Stores} {slot : Slot} (h : slot ∈ (legacySnapshot s).slots) : s.leaf C slot ≠ none := by
  have hget : ∀ {κ ν : Type} [LinearOrder κ] {m : OrdMap κ ν} {e : κ × ν}, e ∈ m.entries → m.get? e.1 = some e.2 :=
    fun he => OrdMap.get?_eq_some_iff.mpr he
  simp only [LegacySnapshot.slots, legacySnapshot, List.map_map, List.mem_append, List.mem_map] at h
  rcases h with (((((⟨e, he, rfl⟩ | ⟨e, he, rfl⟩) | ⟨e, he, rfl⟩) | ⟨e, he, rfl⟩) | ⟨e, he, rfl⟩) | ⟨e, he, rfl⟩) |
    ⟨id, hid, rfl⟩
  · simp [Stores.leaf, hget he]
  · simp [Stores.leaf, hget he]
  · simp [Stores.leaf, hget he]
  · simp [Stores.leaf, hget he]
  · simp [Stores.leaf, hget he]
  · simp [Stores.leaf, hget he]
  · obtain ⟨u, hu⟩ := Option.isSome_iff_exists.mp (OrdMap.mem_keys.mp hid)
    simp [Stores.leaf, hu]

/-- A ledger in step with its stores comes back whole, commitment included. -/
theorem fromSnapshot_eq (hS : KeysDistinct C S) (hres : ∀ r, S (.reserved r)) (hL : L.Committed C S)
    (hc : L.Canonical) (hundo : L.undo = none) (hpool : L.shielded.Replayable C isCmx)
    (hv2 : L.shieldedV2.Replayable C) :
    fromSnapshot C isCmx (legacySnapshot L) (v2Snapshot L) = .ok L := by
  obtain ⟨L', hload, hstores⟩ := fromSnapshot_stores hc hpool hv2
  have hslots : ∀ slot ∈ (legacySnapshot L).slots, S slot := fun slot hslot =>
    hL.inside slot (leaf_of_mem_slots hslot)
  have hcommit := hL.commitment_eq (committed_fromSnapshot hS hres hslots hload) hstores
  have hundo' := undo_fromSnapshot hload
  have heq : L' = L := by
    obtain ⟨s, u, m⟩ := L
    obtain ⟨s', u', m'⟩ := L'
    cases hstores
    cases hcommit
    cases hundo
    cases hundo'
    rfl
  rw [hload, heq]

/-! ## The two formats -/

/-- The blob of today does not end where the older one does. -/
theorem formats_exclusive (bytes : Bytes) :
    (LegacySnapshot.codec.pair V2Snapshot.codec).decodeAll bytes = none ∨ LegacySnapshot.codec.decodeAll bytes = none := by
  rcases hlegacy : LegacySnapshot.codec.decodeAll bytes with _ | s
  · exact .inr rfl
  refine .inl ?_
  unfold Codec.decodeAll at hlegacy ⊢
  have hread : LegacySnapshot.codec.decode bytes = some (s, []) := by
    split at hlegacy
    · rename_i hd
      cases hlegacy
      exact hd
    · cases hlegacy
  have hnothing : V2Snapshot.codec.decode [] = none := rfl
  have hboth : (LegacySnapshot.codec.pair V2Snapshot.codec).decode bytes = none := by
    change (LegacySnapshot.codec.decode bytes).bind _ = none
    rw [hread, Option.bind_some]
    change (V2Snapshot.codec.decode []).bind _ = none
    rw [hnothing]
    rfl
  rw [hboth]

theorem fromSnapshotBytes_toSnapshotBytes
    (hfits : (LegacySnapshot.codec.pair V2Snapshot.codec).Fits (legacySnapshot L, v2Snapshot L)) :
    fromSnapshotBytes C isCmx L.toSnapshotBytes =
      fromSnapshot C isCmx (legacySnapshot L) (v2Snapshot L) := by
  unfold fromSnapshotBytes toSnapshotBytes
  rw [Codec.decodeAll_encode _ hfits]

theorem fromSnapshotBytes_legacy {s : LegacySnapshot} (hfits : LegacySnapshot.codec.Fits s) :
    fromSnapshotBytes C isCmx (LegacySnapshot.codec.encode s) = fromSnapshot C isCmx s .empty := by
  have hread := LegacySnapshot.codec.decodeAll_encode hfits
  have hnot : (LegacySnapshot.codec.pair V2Snapshot.codec).decodeAll (LegacySnapshot.codec.encode s) = none := by
    rcases formats_exclusive (LegacySnapshot.codec.encode s) with h | h
    · exact h
    · rw [hread] at h
      cases h
  unfold fromSnapshotBytes
  rw [hnot, hread]

end Whole
end Ledger
end Sov
