import SovChain.State.Journal

/-!
# Undoing any sequence of calls

`LedgerCall` lists the mutators of the ledger. A call amounts to journalled writes, apart from two cases
(`LedgerCall.run_eq`): an Orchard bundle that fails half way leaves the pool changed, and an intent that is
used already is marked again.

Undoing a sequence of calls restores every store exactly if no bundle failed half way before the first one
that was applied, and every leaf exactly if the commitment was in step with the stores at the slots written
(`undo_restores_iff`).
-/

namespace Sov
open List (foldl_append foldl_cons foldl_map length_append length_cons length_singleton map_cons)
open Codec

/-- The mutators of the ledger, with their arguments. -/
inductive LedgerCall where
  | setAccount (id : AccountId) (account : Account)
  | setContractValue (contract : AccountId) (key value : Bytes)
  | applyShieldedBundle (bundle : ShieldedBundle)
  | addShieldedValue (amount : Balance)
  | subShieldedValue (amount : Balance)
  | applyShieldedV2 (nullifiers commitments : List Hash)
  | addShieldedV2Value (amount : Balance)
  | subShieldedV2Value (amount : Balance)
  | setDeshieldV2Window (windowStart : U64) (spent : Balance)
  | lockHtlc (id : Hash) (htlc : Htlc)
  | settleHtlc (id : Hash)
  | setOraclePrice (price : U128)
  | setVault (owner : AccountId) (vault : Vault)
  | registerName (name : String) (owner : AccountId) (height : U64)
  | transferName (name : String) (newOwner : AccountId)
  | setMultisig (account : AccountId) (policy : Multisig)
  | setProposal (id : Hash) (proposal : MultisigProposal)
  | removeProposal (id : Hash)
  | removeProposalsFor (account : AccountId)
  | setNftClass (id : Hash) (nftClass : NftClass)
  | mintNft (collection : Hash) (tokenId : Bytes) (owner : AccountId) (metadata : Bytes) (height : U64)
  | transferNft (collection : Hash) (tokenId : Bytes) (newOwner : AccountId)
  | setNftMeta (collection : Hash) (tokenId metadata : Bytes)
  | setToken (asset : Hash) (info : TokenInfo)
  | setTokenBalance (asset : Hash) (holder : AccountId) (balance : Balance)
  | setTokenPolicy (asset : Hash) (policy : CompliancePolicy)
  | setTokenWindow (asset : Hash) (holder : AccountId) (window : SpendWindow)
  | setDeshieldWindow (windowStart : U64) (spent : Balance)
  | consumeIntent (id : Hash)
  | addMinedEmitted (amount : Balance)

/-- What a call does to the ledger, piece by piece. -/
inductive Change where
  | write (op : UndoOp)
  | torn (pool : ShieldedState)
  | mark (id : Hash)

namespace Change
variable (C : Crypto)

def apply (L : Ledger) : Change → Ledger
  | write op => L.overwrite C op
  | torn pool => { L with shielded := pool }
  | mark id => L.put C (.intent id (some ()))

/-- The slot a change journals. -/
def slot? : Change → Option Slot
  | write op => some op.slot
  | _ => none

end Change

namespace LedgerCall
variable (C : Crypto)

/-- The ledger after a call; `none` is the panic of `set_vault`. A refused call leaves the ledger as it was,
but for `apply_shielded_bundle`. -/
def run (L : Ledger) : LedgerCall → Option Ledger
  | setAccount id account => some (L.setAccount C id account)
  | setContractValue contract key value => some (L.setContractValue C contract key value)
  | applyShieldedBundle bundle => some (L.applyShieldedBundle C bundle).1
  | addShieldedValue amount => some ((L.addShieldedValue C amount).getD L)
  | subShieldedValue amount => some ((L.subShieldedValue C amount).getD L)
  | applyShieldedV2 nullifiers commitments =>
    some ((L.applyShieldedV2 C nullifiers commitments).toOption.getD L)
  | addShieldedV2Value amount => some ((L.addShieldedV2Value C amount).getD L)
  | subShieldedV2Value amount => some ((L.subShieldedV2Value C amount).getD L)
  | setDeshieldV2Window windowStart spent => some (L.setDeshieldV2Window C windowStart spent)
  | lockHtlc id htlc => some ((L.lockHtlc C id htlc).getD L)
  | settleHtlc id => some (((L.settleHtlc C id).map Prod.fst).getD L)
  | setOraclePrice price => some (L.setOraclePrice C price)
  | setVault owner vault => L.setVault C owner vault
  | registerName name owner height => some ((L.registerName C name owner height).getD L)
  | transferName name newOwner => some ((L.transferName C name newOwner).getD L)
  | setMultisig account policy => some (L.setMultisig C account policy)
  | setProposal id proposal => some (L.setProposal C id proposal)
  | removeProposal id => some (L.removeProposal C id)
  | removeProposalsFor account => some (L.removeProposalsFor C account)
  | setNftClass id nftClass => some (L.setNftClass C id nftClass)
  | mintNft collection tokenId owner metadata height =>
    some ((L.mintNft C collection tokenId owner metadata height).getD L)
  | transferNft collection tokenId newOwner => some ((L.transferNft C collection tokenId newOwner).getD L)
  | setNftMeta collection tokenId metadata => some ((L.setNftMeta C collection tokenId metadata).getD L)
  | setToken asset info => some (L.setToken C asset info)
  | setTokenBalance asset holder balance => some (L.setTokenBalance C asset holder balance)
  | setTokenPolicy asset policy => some (L.setTokenPolicy C asset policy)
  | setTokenWindow asset holder window => some (L.setTokenWindow C asset holder window)
  | setDeshieldWindow windowStart spent => some (L.setDeshieldWindow C windowStart spent)
  | consumeIntent id => some (L.consumeIntent C id)
  | addMinedEmitted amount => some ((L.addMinedEmitted C amount).getD L)

/-- The cells a call writes through the journal, with what it writes, in order. -/
def cells (s : Stores) : LedgerCall → List UndoOp
  | setAccount id account => [.account id (some account)]
  | setContractValue contract key value => [.contract contract key (some value)]
  | applyShieldedBundle bundle =>
    match s.shielded.applyBundle C bundle with
    | (pool, none) => [.shielded pool]
    | (_, some _) => []
  | addShieldedValue amount => ((s.shieldedValue.checkedAdd amount).map .shieldedValue).toList
  | subShieldedValue amount => ((s.shieldedValue.checkedSub amount).map .shieldedValue).toList
  | applyShieldedV2 nullifiers commitments =>
    ((s.shieldedV2.apply C nullifiers commitments).toOption.map .shieldedV2).toList
  | addShieldedV2Value amount => ((s.shieldedV2Value.checkedAdd amount).map .shieldedV2Value).toList
  | subShieldedV2Value amount => ((s.shieldedV2Value.checkedSub amount).map .shieldedV2Value).toList
  | setDeshieldV2Window windowStart spent => [.deshieldV2Window (windowStart, spent)]
  | lockHtlc id htlc =>
    if s.htlcs.contains id then []
    else match s.htlcLocked.checkedAdd htlc.amount with
    | none => []
    | some next => [.htlcLocked next, .htlc id (some htlc)]
  | settleHtlc id =>
    match s.htlcs.get? id with
    | none => []
    | some htlc => [.htlcLocked (s.htlcLocked.saturatingSub htlc.amount), .htlc id none]
  | setOraclePrice price => [.oraclePrice (some price)]
  | setVault owner vault =>
    match s.vaultCollateral.checkedSub (s.vault owner).collateral with
    | none => []
    | some base =>
      match base.checkedAdd vault.collateral with
      | none => []
      | some next => [.vaultCollateral next, .vault owner (if vault.isEmpty then none else some vault)]
  | registerName name owner height =>
    if s.nameTaken C name then [] else [.nft (snsClass C) (strBytes name) (some ⟨owner, [], height⟩)]
  | transferName name newOwner =>
    ((s.nameToken C name).map fun token =>
      .nft (snsClass C) (strBytes name) (some { token with owner := newOwner })).toList
  | setMultisig account policy => [.multisig account (some policy)]
  | setProposal id proposal => [.proposal id (some proposal)]
  | removeProposal id => [.proposal id none]
  | removeProposalsFor account => (Ledger.proposalIdsFor s account).map fun id => .proposal id none
  | setNftClass id nftClass => [.nftClass id (some nftClass)]
  | mintNft collection tokenId owner metadata height =>
    if (s.nft collection tokenId).isSome then []
    else [.nft collection tokenId (some ⟨owner, metadata, height⟩)]
  | transferNft collection tokenId newOwner =>
    ((s.nft collection tokenId).map fun token =>
      .nft collection tokenId (some { token with owner := newOwner })).toList
  | setNftMeta collection tokenId metadata =>
    ((s.nft collection tokenId).map fun token =>
      .nft collection tokenId (some { token with metadata })).toList
  | setToken asset info => [.token asset (some info)]
  | setTokenBalance asset holder balance => [.tokenBalance asset holder (some balance)]
  | setTokenPolicy asset policy =>
    .tokenPolicy asset (some policy) ::
      (Ledger.windowHolders s asset).map fun holder => .tokenWindow asset holder none
  | setTokenWindow asset holder window => [.tokenWindow asset holder (some window)]
  | setDeshieldWindow windowStart spent => [.deshieldWindow (windowStart, spent)]
  | consumeIntent id => if s.intentConsumed id then [] else [.intent id (some ())]
  | addMinedEmitted amount => ((s.minedEmitted.checkedAdd amount).map .minedEmitted).toList

/-- What a call does past the journal. -/
def bypass (s : Stores) : LedgerCall → Option Change
  | applyShieldedBundle bundle =>
    match s.shielded.applyBundle C bundle with
    | (_, none) => none
    | (pool, some _) => some (.torn pool)
  | consumeIntent id => if s.intentConsumed id then some (.mark id) else none
  | _ => none

/-- Everything a call does. -/
def changes (s : Stores) (call : LedgerCall) : List Change :=
  (call.cells C s).map .write ++ (call.bypass C s).toList

end LedgerCall

namespace Change
variable {C : Crypto} {L : Ledger}

/-- What a change does to the stores. -/
def store (s : Stores) : Change → Stores
  | write op => s.store op
  | torn pool => { s with shielded := pool }
  | mark id => s.store (.intent id (some ()))

theorem toStores_apply (c : Change) : (c.apply C L).toStores = c.store L := by
  cases c <;> rfl

theorem foldl_apply_write (ops : List UndoOp) :
    (ops.map write).foldl (apply C) L = ops.foldl (Ledger.overwrite C) L := by
  rw [foldl_map]
  rfl

end Change

namespace LedgerCall
variable {C : Crypto} {L L' : Ledger}

theorem changes_eq {call : LedgerCall} (h : call.bypass C L = none) : (call.changes C L).foldl (Change.apply C) L =
      (call.cells C L).foldl (Ledger.overwrite C) L := by
  rw [changes, h, Option.toList_none, List.append_nil, Change.foldl_apply_write]

theorem run_eq {call : LedgerCall} (h : call.run C L = some L') : L' = (call.changes C L).foldl (Change.apply C) L := by
  have hcounter : ∀ (n : Option Balance) (f : Balance → UndoOp),
      (n.map fun next => L.overwrite C (f next)).getD L = (n.map f).toList.foldl (Ledger.overwrite C) L := by
    intro n f
    cases n <;> rfl
  have hnft : ∀ (t : Option NftToken) (f : NftToken → UndoOp),
      (t.map fun token => L.overwrite C (f token)).getD L =
        (t.map f).toList.foldl (Ledger.overwrite C) L := by
    intro t f
    cases t <;> rfl
  cases call
  case applyShieldedBundle bundle =>
    cases h
    unfold changes cells bypass Ledger.applyShieldedBundle
    dsimp only
    cases hb : L.shielded.applyBundle C bundle with
    | mk pool e => cases e <;> rfl
  case consumeIntent id =>
    cases h
    unfold changes cells bypass Ledger.consumeIntent
    dsimp only
    split_ifs <;> rfl
  case setVault owner vault =>
    rw [changes_eq rfl]
    unfold run Ledger.setVault at h
    unfold cells
    dsimp only at h ⊢
    rcases hbase : L.vaultCollateral.checkedSub (L.vault owner).collateral with _ | base
    · simp [hbase] at h
    rcases hnext : base.checkedAdd vault.collateral with _ | next
    · simp [hbase, hnext] at h
    simp only [hbase, hnext, Option.bind_eq_bind, Option.bind_some, Option.pure_def, Option.some.injEq] at h
    simp [← h, hnext]
  case lockHtlc id htlc =>
    cases h
    rw [changes_eq rfl]
    unfold cells Ledger.lockHtlc
    dsimp only
    split_ifs
    · rfl
    · cases L.htlcLocked.checkedAdd htlc.amount <;> rfl
  case settleHtlc id =>
    cases h
    rw [changes_eq rfl]
    unfold cells Ledger.settleHtlc
    dsimp only
    cases L.htlcs.get? id <;> rfl
  case registerName name owner height =>
    cases h
    rw [changes_eq rfl]
    unfold cells Ledger.registerName Ledger.mintNft Stores.nameTaken Stores.nameToken
    dsimp only
    split_ifs <;> rfl
  case mintNft =>
    cases h
    rw [changes_eq rfl]
    unfold cells Ledger.mintNft
    dsimp only
    split_ifs <;> rfl
  case applyShieldedV2 nullifiers commitments =>
    cases h
    rw [changes_eq rfl]
    unfold cells Ledger.applyShieldedV2
    dsimp only
    cases L.shieldedV2.apply C nullifiers commitments <;> rfl
  case removeProposalsFor account =>
    cases h
    rw [changes_eq rfl]
    unfold cells Ledger.removeProposalsFor
    dsimp only
    rw [foldl_map]
    rfl
  case setTokenPolicy asset policy =>
    cases h
    rw [changes_eq rfl]
    unfold cells Ledger.setTokenPolicy
    dsimp only
    rw [foldl_cons, foldl_map]
  case addShieldedValue | subShieldedValue | addShieldedV2Value | subShieldedV2Value | addMinedEmitted =>
    cases h
    rw [changes_eq rfl]
    exact hcounter _ _
  case transferName | transferNft | setNftMeta =>
    cases h
    rw [changes_eq rfl]
    exact hnft _ _
  all_goals
    cases h
    rfl

end LedgerCall

namespace Change
variable {C : Crypto} {L L' : Ledger} {s : Stores}

theorem toStores_foldl_apply (cs : List Change) : (cs.foldl (apply C) L).toStores = cs.foldl store L := by
  induction cs generalizing L with
  | nil => rfl
  | cons c cs ih => rw [foldl_cons, foldl_cons, ih, toStores_apply]

/-- Only a used intent is marked again. -/
def Sound : Stores → List Change → Prop
  | _, [] => True
  | s, c :: cs => (∀ id, c = .mark id → s.intentConsumed id = true) ∧ Sound (c.store s) cs

theorem Sound.append {cs cs' : List Change} (h : Sound s cs) (h' : Sound (cs.foldl store s) cs') :
    Sound s (cs ++ cs') := by
  induction cs generalizing s with
  | nil => exact h'
  | cons c cs ih => exact ⟨h.1, ih h.2 h'⟩

theorem sound_map_write (ops : List UndoOp) : Sound s (ops.map write) := by
  induction ops generalizing s with
  | nil => trivial
  | cons op ops ih => exact ⟨fun id h => (nomatch h), ih⟩

theorem store_mark {id : Hash} (h : s.intentConsumed id = true) : s.store (.intent id (some ())) = s := by
  obtain ⟨u, hget⟩ := Option.isSome_iff_exists.mp h
  simp only [Stores.store]
  rw [← hget, OrdMap.set_get?]

/-- The ledger after the changes are undone: what was journalled is written back, the latest first. -/
def undone (C : Crypto) (L : Ledger) : List Change → Ledger
  | [] => L.forget
  | .write op :: cs => (undone C (L.overwrite C op) cs).put C (L.content op)
  | .torn pool :: cs => undone C (Change.apply C L (.torn pool)) cs
  | .mark id :: cs => undone C (Change.apply C L (.mark id)) cs

theorem undo_foldl_apply (cs : List Change) {log0 : List UndoOp} (h : L.undo = some log0) :
    ∃ log, (cs.foldl (apply C) L).undo = some (log0 ++ log) ∧
      log.reverse.foldl (Ledger.put C) (cs.foldl (apply C) L).forget = undone C L cs := by
  induction cs generalizing L log0 with
  | nil => exact ⟨[], by simpa using h, rfl⟩
  | cons c cs ih =>
    rw [foldl_cons]
    cases c with
    | write op =>
      have hop : (L.overwrite C op).undo = some (log0 ++ [L.content op]) := by
        change L.undo.map _ = _
        rw [h, Option.map_some]
      obtain ⟨log, hlog, hundone⟩ := ih hop
      refine ⟨L.content op :: log, ?_, ?_⟩
      · rw [List.append_cons]
        exact hlog
      · rw [List.reverse_cons, foldl_append, foldl_cons, List.foldl_nil]
        exact congrArg (fun L1 => Ledger.put C L1 (L.content op)) hundone
    | torn pool => exact ih (L := apply C L (.torn pool)) h
    | mark id => exact ih (L := apply C L (.mark id)) h

/-- The pool that undoing leaves: the one before the first bundle that was applied. -/
def poolLeft (pool : ShieldedState) : List Change → ShieldedState
  | [] => pool
  | .write (.shielded _) :: _ => pool
  | .write _ :: cs => poolLeft pool cs
  | .torn pool' :: cs => poolLeft pool' cs
  | .mark _ :: cs => poolLeft pool cs

variable {op : UndoOp}

theorem store_with_shielded (h : ∀ pool, op ≠ .shielded pool) (pool : ShieldedState) :
    { s with shielded := pool }.store op = { s.store op with shielded := pool } := by
  cases op <;> first | rfl | exact absurd rfl (h _)

theorem shielded_store (h : ∀ pool, op ≠ .shielded pool) : (s.store op).shielded = s.shielded := by
  cases op <;> first | rfl | exact absurd rfl (h _)

theorem content_ne_shielded (h : ∀ pool, op ≠ .shielded pool) (pool : ShieldedState) :
    s.content op ≠ .shielded pool := by
  intro he
  cases op <;> first | exact absurd rfl (h _) | cases he

theorem poolLeft_write (h : ∀ pool, op ≠ .shielded pool) (pool : ShieldedState) (cs : List Change) :
    poolLeft pool (.write op :: cs) = poolLeft pool cs := by
  cases op <;> first | rfl | exact absurd rfl (h _)

theorem toStores_undone {cs : List Change} (hc : L.Canonical) (hs : Sound L cs) :
    (undone C L cs).toStores = { L.toStores with shielded := poolLeft L.shielded cs } := by
  induction cs generalizing L with
  | nil => rfl
  | cons c cs ih =>
    cases c with
    | write op =>
      have hrest := ih (L := L.overwrite C op) (hc.store op) hs.2
      have hback := Stores.store_content hc op
      change (undone C (L.overwrite C op) cs).store (L.content op) = _
      rw [hrest, Ledger.toStores_overwrite]
      by_cases hop : ∃ pool, op = .shielded pool
      · obtain ⟨pool, rfl⟩ := hop
        rfl
      · push Not at hop
        rw [store_with_shielded (content_ne_shielded hop), hback, poolLeft_write hop, shielded_store hop]
    | torn pool => exact ih (L := apply C L (.torn pool)) { hc with } hs.2
    | mark id =>
      have hstores : (apply C L (.mark id)).toStores = L.toStores := store_mark (hs.1 id rfl)
      have hrest := ih (L := apply C L (.mark id)) (by rw [hstores]; exact hc) hs.2
      rw [hstores] at hrest
      exact hrest

/-- The slots that were journalled. -/
def written (cs : List Change) : List Slot := cs.filterMap slot?

/-- The intents that were marked again. -/
def marked (cs : List Change) : List Hash :=
  cs.filterMap fun
    | .mark id => some id
    | _ => none

/-- The first slot journalled under a key. -/
def firstAt (C : Crypto) (cs : List Change) (k : Hash) : Option Slot :=
  (written cs).find? fun slot => slot.hash C = k

/-- The leaves that undoing leaves. Under a key that was journalled it is the leaf of the first slot there. -/
theorem get?_undone (cs : List Change) (hs : Sound L cs) (k : Hash) : (undone C L cs).commitment.get? k =
      match firstAt C cs k with
      | some slot => (undone C L cs).leaf C slot
      | none =>
        if ∃ id ∈ marked cs, (Slot.intent id).hash C = k then some [1] else L.commitment.get? k := by
  induction cs generalizing L with
  | nil => rfl
  | cons c cs ih =>
    cases c with
    | write op =>
      have hrest := ih (L := L.overwrite C op) hs.2
      change ((undone C (L.overwrite C op) cs).commitment.set ((L.content op).slot.hash C) _).get? k = _
      have hfirst : firstAt C (.write op :: cs) k =
          if op.slot.hash C = k then some op.slot else firstAt C cs k := by
        simp only [firstAt, written, slot?, List.filterMap_cons, List.find?_cons]
        split_ifs with hk <;> simp [hk]
      have hmarked : marked (.write op :: cs) = marked cs := rfl
      rw [Stores.slot_content, OrdMap.get?_set, hfirst, hmarked]
      by_cases hk : op.slot.hash C = k
      · rw [if_pos hk, if_pos hk]
        rfl
      rw [if_neg hk, if_neg hk, hrest]
      cases hf : firstAt C cs k with
      | none =>
        have hcommit : (L.overwrite C op).commitment.get? k = L.commitment.get? k := by
          change (L.commitment.set _ _).get? k = _
          rw [OrdMap.get?_set, if_neg hk]
        simp only [hcommit]
      | some slot =>
        have hslot : slot.hash C = k := by simpa using List.find?_some hf
        have hne : slot ≠ (L.content op).slot := by
          rw [Stores.slot_content]
          exact fun he => hk (he ▸ hslot)
        exact (Stores.leaf_store_of_ne hne).symm
    | torn pool => exact ih (L := apply C L (.torn pool)) hs.2
    | mark id =>
      have hrest := ih (L := apply C L (.mark id)) hs.2
      change (undone C (apply C L (.mark id)) cs).commitment.get? k = _
      rw [hrest]
      have hfirst : firstAt C (.mark id :: cs) k = firstAt C cs k := rfl
      have hmarked : marked (.mark id :: cs) = id :: marked cs := rfl
      rw [hfirst, hmarked]
      cases firstAt C cs k with
      | some slot => rfl
      | none =>
        have hcommit : (apply C L (.mark id)).commitment.get? k =
            if (Slot.intent id).hash C = k then some [1] else L.commitment.get? k := by
          change (L.commitment.set ((Slot.intent id).hash C) (Option.map (fun _ => [1])
            ((L.consumedIntents.set id (some ())).get? id))).get? k = _
          rw [OrdMap.get?_set_self, OrdMap.get?_set, Option.map_some]
          congr
        simp only [hcommit, List.mem_cons, exists_eq_or_imp]
        by_cases hk : (Slot.intent id).hash C = k
        · simp only [hk, if_true, true_or, ite_self]
        · simp only [hk, if_false, false_or]

end Change

/-! ## The Orchard pool -/

namespace ShieldedState
variable {C : Crypto} {pool pool' : ShieldedState} {bundle : ShieldedBundle} {e : Option ShieldedError}
  {cmxs : List Hash}

theorem addCommitments_length (h : pool.addCommitments C cmxs = (pool', e)) :
    pool'.commitments.length ≤ pool.commitments.length + cmxs.length := by
  induction cmxs generalizing pool with
  | nil =>
    cases h
    simp
  | cons cmx rest ih =>
    rw [addCommitments] at h
    split_ifs at h
    · cases h
      omega
    have := ih h
    simp only [addCommitment, length_append, length_singleton] at this
    simp only [length_cons]
    omega

theorem addCommitments_of_room (hroom : pool.commitments.length + cmxs.length ≤ 2 ^ 32)
    (h : pool.addCommitments C cmxs = (pool', e)) : e = none := by
  induction cmxs generalizing pool with
  | nil =>
    cases h
    rfl
  | cons cmx rest ih =>
    rw [addCommitments] at h
    simp only [length_cons] at hroom
    split_ifs at h with hfull
    · omega
    · refine ih ?_ h
      simp only [addCommitment, length_append, length_singleton]
      omega

theorem applyBundle_length (h : pool.applyBundle C bundle = (pool', e)) :
    pool'.commitments.length ≤ pool.commitments.length + bundle.noteCommitments.length := by
  unfold applyBundle at h
  split_ifs at h
  · have := addCommitments_length h
    exact this
  · cases h
    omega

theorem applyBundle_of_room {e : ShieldedError}
    (hroom : pool.commitments.length + bundle.noteCommitments.length ≤ 2 ^ 32)
    (h : pool.applyBundle C bundle = (pool', some e)) : pool' = pool := by
  unfold applyBundle at h
  split_ifs at h
  · have := addCommitments_of_room (by exact hroom) h
    cases this
  · cases h
    rfl

/-- The bundle is applied whole. -/
def accepts (pool : ShieldedState) (bundle : ShieldedBundle) : Bool :=
  pool.nullifiersFresh bundle.nullifiers &&
    (bundle.noteCommitments.isEmpty ||
      decide (pool.commitments.length + bundle.noteCommitments.length ≤ 2 ^ 32))

/-- The bundle is refused before the pool is touched: a nullifier is spent, or there is none and the tree is
full. -/
def refuses (pool : ShieldedState) (bundle : ShieldedBundle) : Bool :=
  !pool.nullifiersFresh bundle.nullifiers ||
    (bundle.nullifiers.isEmpty && !bundle.noteCommitments.isEmpty && decide (2 ^ 32 ≤ pool.commitments.length))

/-- Up to the first bundle that is applied, all are refused before they touch the pool. -/
def orderly (pool : ShieldedState) : List ShieldedBundle → Bool
  | [] => true
  | bundle :: rest => pool.accepts bundle || (pool.refuses bundle && pool.orderly rest)

/-- What was spent stays spent and no note is lost. -/
structure Grows (pool pool' : ShieldedState) : Prop where
  nullifiers : ∀ nf, (pool.nullifiers.get? nf).isSome → (pool'.nullifiers.get? nf).isSome
  commitments : pool.commitments.length ≤ pool'.commitments.length

theorem Grows.refl : Grows pool pool := ⟨fun _ h => h, le_rfl⟩

theorem Grows.trans {pool'' : ShieldedState} (h : Grows pool pool') (h' : Grows pool' pool'') : Grows pool pool'' :=
  ⟨fun nf hnf => h'.nullifiers nf (h.nullifiers nf hnf), h.commitments.trans h'.commitments⟩

theorem addCommitments_nullifiers (h : pool.addCommitments C cmxs = (pool', e)) :
    pool'.nullifiers = pool.nullifiers := by
  induction cmxs generalizing pool with
  | nil =>
    cases h
    rfl
  | cons cmx rest ih =>
    rw [addCommitments] at h
    split_ifs at h
    · cases h
      rfl
    · have := ih h
      exact this

theorem addCommitments_le (h : pool.addCommitments C cmxs = (pool', e)) :
    pool.commitments.length ≤ pool'.commitments.length := by
  induction cmxs generalizing pool with
  | nil =>
    cases h
    rfl
  | cons cmx rest ih =>
    rw [addCommitments] at h
    split_ifs at h
    · cases h
      rfl
    · refine le_trans ?_ (ih h)
      simp [addCommitment]

theorem addCommitments_eq_none (h : pool.addCommitments C cmxs = (pool', none)) :
    cmxs = [] ∨ pool.commitments.length + cmxs.length ≤ 2 ^ 32 := by
  induction cmxs generalizing pool with
  | nil => exact .inl rfl
  | cons cmx rest ih =>
    rw [addCommitments] at h
    split_ifs at h with hfull
    · cases h
    have hrest := ih h
    simp only [addCommitment, length_append, length_singleton] at hrest
    simp only [length_cons]
    obtain rfl | hrest := hrest
    · simp only [List.length_nil]
      omega
    · omega

theorem applyBundle_grows (h : pool.applyBundle C bundle = (pool', e)) : Grows pool pool' := by
  unfold applyBundle at h
  split_ifs at h
  · have hle := addCommitments_le h
    refine ⟨fun nf hnf => ?_, hle⟩
    rw [addCommitments_nullifiers h, OrdMap.get?_foldl_insert]
    split_ifs
    · rfl
    · exact hnf
  · cases h
    exact .refl

theorem applyBundle_of_accepts (h : pool.accepts bundle = true) : (pool.applyBundle C bundle).2 = none := by
  simp only [accepts, Bool.and_eq_true, Bool.or_eq_true, List.isEmpty_iff, decide_eq_true_eq] at h
  obtain ⟨hfresh, hroom⟩ := h
  rw [applyBundle, if_pos hfresh]
  obtain hnone | hroom := hroom
  · rw [hnone]
    rfl
  · exact addCommitments_of_room (by exact hroom) rfl

theorem applyBundle_of_refuses (h : pool.refuses bundle = true) : ∃ e, pool.applyBundle C bundle = (pool, some e) := by
  simp only [refuses, Bool.or_eq_true, Bool.not_eq_true', Bool.and_eq_true, List.isEmpty_iff,
    List.isEmpty_eq_false_iff, decide_eq_true_eq] at h
  obtain hspent | ⟨⟨hnone, hnotes⟩, hfull⟩ := h
  · exact ⟨.doubleSpend, by rw [applyBundle, if_neg (by simp [hspent])]⟩
  obtain ⟨cmx, rest, hcons⟩ := List.exists_cons_of_ne_nil hnotes
  refine ⟨.treeFull, ?_⟩
  rw [applyBundle, if_pos (by simp [hnone, nullifiersFresh]), hnone, hcons, addCommitments,
    if_pos (by exact hfull)]
  rfl

/-- A bundle that is neither applied nor refused at once leaves its mark on the pool. -/
theorem applyBundle_torn (ha : pool.accepts bundle = false) (hr : pool.refuses bundle = false) :
    ∃ pool' e, pool.applyBundle C bundle = (pool', some e) ∧ ∀ pool'', Grows pool' pool'' → pool'' ≠ pool := by
  simp only [refuses, Bool.or_eq_false_iff, Bool.not_eq_false', Bool.and_eq_false_iff,
    decide_eq_false_iff_not, not_le, List.isEmpty_eq_false_iff] at hr
  obtain ⟨hfresh, hr⟩ := hr
  cases hb : pool.applyBundle C bundle with
  | mk pool' e =>
    have happ := hb
    rw [applyBundle, if_pos hfresh] at happ
    cases e with
    | none =>
      exfalso
      have hroom := addCommitments_eq_none happ
      simp only [accepts, hfresh, Bool.true_and, Bool.or_eq_false_iff, decide_eq_false_iff_not,
        List.isEmpty_eq_false_iff] at ha
      obtain hnil | hroom := hroom
      · exact ha.1 hnil
      · exact ha.2 hroom
    | some e =>
      refine ⟨pool', e, rfl, fun pool'' hgrows heq => ?_⟩
      subst heq
      obtain hnf | hroom := hr
      · have hnotes : bundle.noteCommitments ≠ [] := fun hnil => by
          rw [hnil] at happ
          cases happ
        have hnf' : bundle.nullifiers ≠ [] := by
          obtain hnf | hnotes' := hnf
          · exact hnf
          · exact absurd hnotes' (by simpa using hnotes)
        obtain ⟨nf, rest, hcons⟩ := List.exists_cons_of_ne_nil hnf'
        have hspent : (pool'.nullifiers.get? nf).isSome := by
          rw [addCommitments_nullifiers happ, OrdMap.get?_foldl_insert, if_pos (by simp [hcons])]
          rfl
        have hunspent : pool''.nullifiers.contains nf = false := by
          simp only [nullifiersFresh, Bool.and_eq_true, List.all_eq_true, Bool.not_eq_true'] at hfresh
          exact hfresh.2 nf (by simp [hcons])
        have := hgrows.nullifiers nf hspent
        rw [OrdMap.contains] at hunspent
        simp [hunspent] at this
      · have hlen := hgrows.commitments
        obtain ⟨cmx, rest, hcons⟩ : ∃ cmx rest, bundle.noteCommitments = cmx :: rest :=
          List.exists_cons_of_ne_nil fun hnil => by
            rw [hnil] at happ
            cases happ
        rw [hcons, addCommitments, if_neg (by simpa using hroom)] at happ
        have := addCommitments_le happ
        simp only [addCommitment, length_append, length_singleton] at this
        omega

/-- The pool before the first bundle that is applied, or the last one if none is. -/
def untilApplied (C : Crypto) (pool : ShieldedState) : List ShieldedBundle → ShieldedState
  | [] => pool
  | bundle :: rest =>
    match pool.applyBundle C bundle with
    | (_, none) => pool
    | (pool', some _) => pool'.untilApplied C rest

theorem untilApplied_grows (bundles : List ShieldedBundle) : Grows pool (pool.untilApplied C bundles) := by
  induction bundles generalizing pool with
  | nil => exact .refl
  | cons bundle rest ih =>
    rw [untilApplied]
    split
    · exact .refl
    · rename_i pool' e hb
      exact (applyBundle_grows hb).trans ih

theorem untilApplied_eq_iff (bundles : List ShieldedBundle) :
    pool.untilApplied C bundles = pool ↔ pool.orderly bundles = true := by
  induction bundles with
  | nil => simp [untilApplied, orderly]
  | cons bundle rest ih =>
    rw [untilApplied, orderly]
    by_cases ha : pool.accepts bundle = true
    · have hnone := applyBundle_of_accepts (C := C) ha
      cases hb : pool.applyBundle C bundle with
      | mk pool' e =>
        rw [hb] at hnone
        cases hnone
        simp [ha]
    · rw [Bool.not_eq_true] at ha
      by_cases hr : pool.refuses bundle = true
      · obtain ⟨e, hb⟩ := applyBundle_of_refuses (C := C) hr
        rw [hb]
        simpa [ha, hr] using ih
      · rw [Bool.not_eq_true] at hr
        obtain ⟨pool', e, hb, hne⟩ := applyBundle_torn (C := C) ha hr
        rw [hb]
        simp only [ha, hr, Bool.false_and, Bool.or_self, Bool.false_eq_true, iff_false]
        exact hne _ (untilApplied_grows rest)

end ShieldedState

/-! ## Sequences of calls -/

namespace LedgerCall
variable {C : Crypto} {L L' : Ledger} {s : Stores}

/-- The ledger after a sequence of calls, unless one panics. -/
def runAll (C : Crypto) (L : Ledger) : List LedgerCall → Option Ledger
  | [] => some L
  | call :: rest => (call.run C L).bind fun L => runAll C L rest

/-- Everything a sequence of calls does. -/
def changesAll (C : Crypto) (s : Stores) : List LedgerCall → List Change
  | [] => []
  | call :: rest => call.changes C s ++ changesAll C ((call.changes C s).foldl Change.store s) rest

/-- The Orchard bundle of a call. -/
def bundle? : LedgerCall → Option ShieldedBundle
  | applyShieldedBundle bundle => some bundle
  | _ => none

theorem runAll_eq {calls : List LedgerCall} (h : runAll C L calls = some L') :
    L' = (changesAll C L calls).foldl (Change.apply C) L := by
  induction calls generalizing L with
  | nil =>
    cases h
    rfl
  | cons call rest ih =>
    obtain ⟨L1, h1, h⟩ := Option.bind_eq_some_iff.mp h
    rw [changesAll, foldl_append, ← run_eq h1, ih h, run_eq h1, Change.toStores_foldl_apply]

theorem sound_changes (call : LedgerCall) : Change.Sound s (call.changes C s) := by
  unfold changes
  rcases hb : call.bypass C s with _ | c
  · rw [Option.toList_none, List.append_nil]
    exact Change.sound_map_write _
  refine (Change.sound_map_write _).append ⟨?_, trivial⟩
  rintro id rfl
  cases call
  case consumeIntent id' =>
    unfold bypass at hb
    dsimp only at hb
    split_ifs at hb with hused
    cases hb
    -- a used intent is not journalled, so nothing was written before
    have hnone : cells C s (consumeIntent id) = [] := if_pos hused
    rw [hnone]
    exact hused
  case applyShieldedBundle bundle =>
    unfold bypass at hb
    dsimp only at hb
    split at hb <;> cases hb
  all_goals cases hb

theorem sound_changesAll (calls : List LedgerCall) : Change.Sound s (changesAll C s calls) := by
  induction calls generalizing s with
  | nil => trivial
  | cons call rest ih => exact (sound_changes call).append ih

variable {call : LedgerCall}

theorem cells_ne_shielded (h : call.bundle? = none) {op : UndoOp} (hop : op ∈ call.cells C s)
    (pool : ShieldedState) : op ≠ .shielded pool := by
  intro he
  subst he
  cases call
  case applyShieldedBundle => cases h
  all_goals
    unfold cells at hop
    dsimp only at hop
  case lockHtlc =>
    split_ifs at hop
    · cases hop
    · split at hop <;> simp at hop
  case settleHtlc => split at hop <;> simp at hop
  case setVault =>
    split at hop
    · cases hop
    · split at hop <;> simp at hop
  case registerName | mintNft | consumeIntent => split_ifs at hop <;> simp at hop
  all_goals simp at hop

/-- What passes the journal by: a mark, or the rest of a bundle that failed. -/
theorem bypass_cases (call : LedgerCall) : call.bypass C s = none ∨ (∃ id, call.bypass C s = some (.mark id)) ∨
      ∃ bundle pool e, call = applyShieldedBundle bundle ∧ s.shielded.applyBundle C bundle = (pool, some e) ∧
        call.bypass C s = some (.torn pool) := by
  cases call
  case applyShieldedBundle bundle =>
    unfold bypass
    dsimp only
    split
    · exact .inl rfl
    · rename_i pool e hb
      exact .inr (.inr ⟨bundle, pool, e, rfl, hb, rfl⟩)
  case consumeIntent id =>
    unfold bypass
    dsimp only
    split_ifs
    · exact .inr (.inl ⟨id, rfl⟩)
    · exact .inl rfl
  all_goals exact .inl rfl

theorem bypass_of_bundle?_none (h : call.bundle? = none) :
    call.bypass C s = none ∨ ∃ id, call.bypass C s = some (.mark id) := by
  obtain hnone | hmark | ⟨bundle, pool, e, rfl, -⟩ := bypass_cases (C := C) (s := s) call
  · exact .inl hnone
  · exact .inr hmark
  · cases h

theorem poolLeft_append_of_bundle?_none (h : call.bundle? = none) (pool : ShieldedState) (cs : List Change) :
    Change.poolLeft pool (call.changes C s ++ cs) = Change.poolLeft pool cs := by
  have hwrites : ∀ ops : List UndoOp, (∀ op ∈ ops, ∀ p, op ≠ .shielded p) → ∀ cs,
      Change.poolLeft pool (ops.map .write ++ cs) = Change.poolLeft pool cs := by
    intro ops hops cs
    induction ops with
    | nil => rfl
    | cons op ops ih =>
      rw [map_cons, List.cons_append, Change.poolLeft_write (hops op List.mem_cons_self)]
      exact ih fun op' hop' => hops op' (List.mem_cons_of_mem _ hop')
  rw [changes, List.append_assoc, hwrites _ fun op hop => cells_ne_shielded h hop]
  obtain hnone | ⟨id, hmark⟩ := bypass_of_bundle?_none (C := C) (s := s) h
  · rw [hnone]
    rfl
  · rw [hmark]
    rfl

theorem shielded_foldl_store_of_bundle?_none (h : call.bundle? = none) :
    ((call.changes C s).foldl Change.store s).shielded = s.shielded := by
  have hwrites : ∀ ops : List UndoOp, (∀ op ∈ ops, ∀ p, op ≠ .shielded p) → ∀ s : Stores,
      ((ops.map Change.write).foldl Change.store s).shielded = s.shielded := by
    intro ops hops
    induction ops with
    | nil => exact fun _ => rfl
    | cons op ops ih =>
      intro s
      rw [map_cons, foldl_cons, ih fun op' hop' => hops op' (List.mem_cons_of_mem _ hop')]
      exact Change.shielded_store (hops op List.mem_cons_self)
  rw [changes, foldl_append]
  have hcells := hwrites (call.cells C s) (fun op hop => cells_ne_shielded h hop) s
  obtain hnone | ⟨id, hmark⟩ := bypass_of_bundle?_none (C := C) (s := s) h
  · rw [hnone]
    exact hcells
  · rw [hmark]
    exact hcells

theorem poolLeft_changesAll (calls : List LedgerCall) :
    Change.poolLeft s.shielded (changesAll C s calls) = s.shielded.untilApplied C (calls.filterMap bundle?) := by
  induction calls generalizing s with
  | nil => rfl
  | cons call rest ih =>
    rw [changesAll]
    cases hcall : call.bundle? with
    | none =>
      rw [poolLeft_append_of_bundle?_none hcall, List.filterMap_cons_none hcall,
        ← shielded_foldl_store_of_bundle?_none (C := C) hcall]
      exact ih
    | some bundle =>
      rw [List.filterMap_cons_some hcall, ShieldedState.untilApplied]
      cases call <;> cases hcall
      unfold changes cells bypass
      dsimp only
      cases hb : s.shielded.applyBundle C bundle with
      | mk pool e =>
        cases e with
        | none => rfl
        | some e => exact ih (s := { s with shielded := pool })

end LedgerCall
end Sov
