import SovChain.Runtime.Conservation
import SovChain.Runtime.Naming
import SovChain.State.Operations

/-!
# What a transaction writes

A transaction changes the ledger through journalled writes alone, whether it is applied or rejected, except
that an Orchard bundle that meets a full tree changes the pool past the journal. `applyTransaction_writes`
and `executeBlock_writes` say so, with the ids the writes are under; a tree with room for the notes of a
block rules the exception out.
-/

namespace Sov
open Codec

/-- Changes under ids that satisfy `P`; `T` allows the Orchard pool to be changed past the journal. -/
abbrev Ledger.Writes (C : Crypto) (P : AccountId → Prop) (T : Prop) : Ledger → Ledger → Prop :=
  Ledger.Steps C (fun op => ∀ id ∈ op.ids, P id) T

namespace Ledger.Writes
variable {C : Crypto} {P : AccountId → Prop} {T : Prop} {L L' : Ledger}

theorem of_ids_nil (op : UndoOp) (h : op.ids = []) : Writes C P T L (L.overwrite C op) :=
  .single (.write op (by simp [h]))

theorem of_ids_singleton (op : UndoOp) {id : AccountId} (h : op.ids = [id]) (hid : P id) :
    Writes C P T L (L.overwrite C op) :=
  .single (.write op (by simpa [h] using hid))

theorem setAccount (id : AccountId) (a : Account) (hid : P id) : Writes C P T L (L.setAccount C id a) :=
  of_ids_singleton (.account id (some a)) rfl hid

theorem foldl {α : Type} {f : α → UndoOp} {l : List α} (h : ∀ a ∈ l, ∀ id ∈ (f a).ids, P id) :
    Writes C P T L (l.foldl (fun L a => L.overwrite C (f a)) L) := by
  induction l generalizing L with
  | nil => exact .refl
  | cons a l ih =>
    exact .head (.write (f a) (h a List.mem_cons_self)) (ih fun b hb => h b (List.mem_cons_of_mem _ hb))

end Ledger.Writes

namespace Runtime
open Ledger (Writes)
section Batch
variable {C : Crypto} {P : AccountId → Prop} {s : Stores} {contract : AccountId} {height : U64}
  {t t' : TransferScratch}

theorem settleCmd_keys {cmd : TokenTransferCmd} (hc : P contract) (hwf : ∀ id : AccountId, id.WellFormed → P id)
    (ht : ∀ k ∈ t.balances.keys, P (ofLex k).2) (h : settleCmd s contract height t cmd = .ok t') :
    ∀ k ∈ t'.balances.keys, P (ofLex k).2 := by
  obtain ⟨dest, -, remaining, credited, -, hdest, -, -, -, rfl⟩ := settleCmd_eq_ok h
  intro k hk
  simp only [OrdMap.mem_keys, OrdMap.get?_insert] at hk
  split_ifs at hk with h1 h2
  · rw [← h1]
    exact hwf dest (AccountId.new_eq_ok hdest)
  · rw [← h2]
    exact hc
  · exact ht k (OrdMap.mem_keys.mpr hk)

theorem settleContractTokenTransfers_writes {T : Prop} {L L' : Ledger} {cmds : List TokenTransferCmd}
    (hc : P contract) (hwf : ∀ id : AccountId, id.WellFormed → P id)
    (h : settleContractTokenTransfers C L contract cmds height = .ok L') : Writes C P T L L' := by
  have hkeys : ∀ {cmds : List TokenTransferCmd} {t t' : TransferScratch},
      (∀ k ∈ t.balances.keys, P (ofLex k).2) →
      cmds.foldlM (settleCmd L contract height) t = .ok t' →
      ∀ k ∈ t'.balances.keys, P (ofLex k).2 := by
    intro cmds
    induction cmds with
    | nil =>
      intro t t' ht h
      cases h
      exact ht
    | cons cmd cmds ih =>
      intro t t' ht h
      obtain ⟨t1, hcmd, h⟩ := bind_eq_ok.mp h
      exact ih (settleCmd_keys hc hwf ht hcmd) h
  obtain ⟨t, hcmds, rfl⟩ := settleContractTokenTransfers_eq_ok h
  have ht := hkeys (fun k hk => absurd hk (by simp [OrdMap.keys, OrdMap.empty])) hcmds
  have hbalances : Writes C P T L (t.balances.entries.foldl
      (fun L e => L.setTokenBalance C (ofLex e.1).1 (ofLex e.1).2 e.2) L) := by
    refine Ledger.Writes.foldl
      (f := fun e : (Hash ×ₗ AccountId) × U128 => .tokenBalance (ofLex e.1).1 (ofLex e.1).2 (some e.2))
      fun e he id hid => ?_
    rw [List.mem_singleton.mp hid]
    exact ht e.1 (List.mem_map_of_mem he)
  refine hbalances.trans (Ledger.Writes.foldl
    (f := fun e : Hash × SpendWindow => .tokenWindow e.1 contract (some e.2)) fun e _ id hid => ?_)
  rw [List.mem_singleton.mp hid]
  exact hc

end Batch
end Runtime

/-- Every effect is a sequence of writes under the ids the transaction brings up. -/
theorem Effect.writes {C : Crypto} {sid : AccountId} {G : Grant} {s s' : InFlight}
    (hstep : Effect C sid G s s') : s.ledger.Writes C G.mentions G.pool s'.ledger := by
  have hone : ∀ (L : Ledger) (op : UndoOp) {id : AccountId}, op.ids = [id] → G.mentions id →
      L.Writes C G.mentions G.pool (L.overwrite C op) := fun L op _ h hid =>
    Ledger.Writes.of_ids_singleton op h hid
  have hnone : ∀ (L : Ledger) (op : UndoOp), op.ids = [] →
      L.Writes C G.mentions G.pool (L.overwrite C op) := fun L op h => Ledger.Writes.of_ids_nil op h
  cases hstep with
  | write op _ hi => exact .single (.write op hi)
  | signer _ | fee _ _ => exact .refl
  | pay _ hi _ _ | collect _ _ hi _ _ | touch hi => exact hone _ (.account _ _) rfl hi
  | exec _ _ hi hd _ _ => exact (hone _ (.account _ _) rfl hd).trans (hone _ (.account _ _) rfl hi)
  | shield _ _ | deshield _ _ => exact hnone _ (.shieldedValue _) rfl
  | shieldV2 _ _ | deshieldV2 _ _ => exact hnone _ (.shieldedV2Value _) rfl
  | pool _ _ => exact hnone _ (.shielded _) rfl
  | torn hp _ => exact .single (.torn _ hp)
  | lock _ _ _ | settle _ _ => exact (hnone _ (.htlcLocked _) rfl).trans (hnone _ (.htlc _ _) rfl)
  | vault hv hi _ =>
    obtain ⟨next, -, rfl⟩ := Ledger.setVault_eq_some hv
    exact (hnone _ (.vaultCollateral _) rfl).trans (hone _ (.vault _ _) rfl hi)
  | mint _ hi hm =>
    obtain ⟨_, _, -, -, rfl⟩ := Runtime.mintTokens_eq_some hm
    exact (hnone _ (.token _ _) rfl).trans (hone _ (.tokenBalance _ _ _) rfl hi)
  | burn _ hi _ _ => exact (hnone _ (.token _ _) rfl).trans (hone _ (.tokenBalance _ _ _) rfl hi)
  | tokenMove _ _ hs hd _ _ _ =>
    exact (hone _ (.tokenBalance _ _ _) rfl hs).trans (hone _ (.tokenBalance _ _ _) rfl hd)
  | batch _ hs hwf hb => exact Runtime.settleContractTokenTransfers_writes hs hwf hb

theorem Effects.writes {C : Crypto} {sid : AccountId} {G : Grant} {s s' : InFlight}
    (hsteps : Effects C sid G s s') : s.ledger.Writes C G.mentions G.pool s'.ledger := by
  induction hsteps with
  | refl => exact .refl
  | tail _ hstep ih => exact ih.trans hstep.writes

/-! ## Rejections -/

end Sov

section
open Sov

/-- What holds of the ledger a rejection leaves. -/
def Except.Rejects {α : Type} (r : Except Fault α) (Q : Ledger → Prop) : Prop :=
  ∀ L e, r = .error (.reject L e) → Q L

namespace Except
variable {α β : Type} {Q : Ledger → Prop} {s : InFlight} {r : Except Fault α}

theorem rejects_ok {a : α} : Rejects (.ok a : Except Fault α) Q := fun _ _ h => by cases h

theorem rejects_panic : Rejects (.error .panic : Except Fault α) Q := fun _ _ h => by cases h

theorem rejects_reject {L : Ledger} {e : ExecutionError} (h : Q L) :
    Rejects (.error (.reject L e) : Except Fault α) Q := fun _ _ he => by cases he; exact h

theorem rejects_failed {reason : String} : Rejects (s.failed reason) Q := rejects_ok

theorem rejects_done : Rejects s.done Q := rejects_ok

theorem rejects_overflow (h : Q s.ledger) : Rejects (s.overflow : Except Fault α) Q := rejects_reject h

theorem rejects_guard {c : Prop} [Decidable c] {reason : String} {r : Arm} (h : Rejects r Q) :
    Rejects (if c then s.failed reason else r) Q := by
  split
  · exact rejects_failed
  · exact h

theorem Rejects.mono {Q' : Ledger → Prop} (h : r.Rejects Q) (hQ : ∀ L, Q L → Q' L) :
    r.Rejects Q' := fun L e he => hQ L (h L e he)

theorem Rejects.map {f : α → β} (h : r.Rejects Q) : (r.map f).Rejects Q := by
  intro L e he
  cases r with
  | ok a => cases he
  | error fault =>
    cases he
    exact h L e rfl

theorem Rejects.bind {f : α → Except Fault β} (h : r.Rejects Q)
    (hf : ∀ a, r = .ok a → (f a).Rejects Q) : (r >>= f).Rejects Q := by
  cases r with
  | ok a => exact hf a rfl
  | error fault => exact fun L e he => h L e (by cases he; rfl)

end Except
end

namespace Sov

/-- Accepted or rejected, the arm leaves a ledger in `Q`. -/
def Arm.Leaves (r : Arm) (Q : Ledger → Prop) : Prop :=
  r.Ensures (fun s' => Q s'.ledger) ∧ Except.Rejects r Q

variable {s : InFlight}

theorem Arm.Leaves.failed {Q : Ledger → Prop} {reason : String} (h : Q s.ledger) : Arm.Leaves (s.failed reason) Q :=
  ⟨.failed h, Except.rejects_failed⟩

namespace Runtime
open Ledger (Writes)
open Except
section Rejections
variable {C : Crypto} {ctx : BlockContext} {sid : AccountId} {s : InFlight} {P : AccountId → Prop} {T : Prop}
  {amount : Balance}

theorem doTransfer_clean {L : Ledger} {sender dest : AccountId} {acct : Account} :
    (doTransfer C L sender acct dest amount).Rejects (· = L) := by
  unfold doTransfer
  dsimp only
  split
  · exact rejects_ok
  split_ifs
  · exact rejects_ok
  · split
    · exact rejects_reject rfl
    · exact rejects_ok

variable {nonce : U64} {deferred : Option Balance} {effects : V2Effects}

theorem applyV2Out_rejects :
    (applyV2Out C deferred effects s).Rejects (Writes C P T s.ledger) := by
  unfold applyV2Out Ledger.subShieldedV2Value
  split_ifs
  · exact rejects_done
  rcases hn : s.ledger.shieldedV2Value.checkedSub effects.deshieldOut with _ | n
  · exact rejects_overflow .refl
  have hwrite : Writes C P T s.ledger (s.ledger.overwrite C (.shieldedV2Value n)) := .of_ids_nil _ rfl
  simp only [Option.map_some]
  split
  · exact rejects_overflow hwrite
  · split
    · exact rejects_overflow hwrite
    · exact rejects_done

theorem applyV2_rejects :
    (applyV2 C deferred effects s).Rejects (Writes C P T s.ledger) := by
  unfold applyV2 Ledger.applyShieldedV2 Ledger.addShieldedV2Value
  rcases hpool : s.ledger.shieldedV2.apply C effects.nullifiers effects.commitments with e | pool
  · exact rejects_reject .refl
  have hwrite : Writes C P T s.ledger (s.ledger.overwrite C (.shieldedV2 pool)) := .of_ids_nil _ rfl
  simp only [Except.map]
  split_ifs
  · exact fun L e he => hwrite.trans (applyV2Out_rejects L e he)
  split
  · exact rejects_overflow hwrite
  cases hn : (s.ledger.overwrite C (.shieldedV2 pool)).shieldedV2Value.checkedAdd
      effects.shieldIn with
  | none => exact rejects_overflow hwrite
  | some n =>
    have hin : Writes C P T s.ledger _ := hwrite.trans (Writes.of_ids_nil (.shieldedV2Value n) rfl)
    exact fun L e he => hin.trans (applyV2Out_rejects L e he)

theorem shieldedV2_rejects {E : Env} {fee : Balance} {feeFunded : Option V2Effects} {bundle : Bytes} :
    (shieldedV2 ctx sid E nonce fee feeFunded bundle s).Rejects (Writes E P T s.ledger) := by
  unfold shieldedV2
  split_ifs
  · exact rejects_reject .refl
  split
  · exact applyV2_rejects
  · split
    · exact rejects_reject .refl
    · exact applyV2_rejects

variable {htlcId : Hash} {settlement : Settlement}

theorem payOutHtlc_rejects : (payOutHtlc C htlcId s).Rejects (Writes C P T s.ledger) := by
  unfold payOutHtlc Ledger.settleHtlc
  rcases s.ledger.htlcs.get? htlcId with _ | htlc
  · exact rejects_failed
  simp only [Option.map_some]
  split
  · exact rejects_overflow (Relation.ReflTransGen.trans (Writes.of_ids_nil (.htlcLocked _) rfl)
      (Writes.of_ids_nil (.htlc htlcId none) rfl))
  · exact rejects_done

theorem settleIntentLegs_clean {L : Ledger} {signer : Account} {height : U64} :
    (settleIntentLegs C L signer sid settlement height).Rejects (· = L) := by
  have hcredit : ∀ leg : SettleLeg, (leg.creditFailed L).Rejects (· = L) := by
    intro leg
    cases leg with
    | native => exact rejects_reject rfl
    | token asset => exact rejects_ok
  unfold settleIntentLegs
  dsimp only
  split
  · exact rejects_ok
  · exact rejects_ok
  split
  · exact rejects_ok
  · exact rejects_ok
  split
  · exact rejects_ok
  · exact rejects_ok
  split
  · exact hcredit _
  · exact hcredit _
  · exact rejects_ok

theorem intentSettle_clean :
    (intentSettle C ctx sid settlement s).Rejects (· = s.ledger) := by
  unfold intentSettle
  dsimp only
  iterate 10 refine rejects_guard ?_
  split
  · rename_i fault hlegs
    exact fun L e he => settleIntentLegs_clean L e (by cases he; exact hlegs)
  · exact rejects_failed
  · exact rejects_done

variable {account : AccountId}

theorem executeFor_clean {action : Action} : (executeFor C account action s).Rejects (· = s.ledger) := by
  unfold executeFor executeProposalAction
  split
  · exact (doTransfer_clean.bind fun _ _ => rejects_ok).map
  · exact rejects_ok.map

theorem registerName_clean {name : String} : (registerName C ctx sid name s).Rejects (· = s.ledger) := by
  unfold registerName
  split
  · exact rejects_failed
  split_ifs
  · exact rejects_failed
  · exact rejects_failed
  · exact rejects_failed
  split
  · exact rejects_failed
  · exact rejects_overflow rfl
  · exact rejects_done

theorem writeVault_rejects {Q : Ledger → Prop} {v : Vault} : (writeVault C sid v s).Rejects Q := by
  unfold writeVault
  split
  · exact rejects_panic
  · exact rejects_done

variable {x : ExecState}

theorem call_clean {E : Env} {contract : AccountId} {gasLimit : U64} {calldata : Bytes} :
    (call E ctx sid contract gasLimit calldata x).Rejects (· = x.ledger) := by
  unfold call
  split
  · exact rejects_ok
  dsimp only
  split
  · exact rejects_ok
  · exact rejects_ok
  split
  · exact rejects_overflow rfl
  split
  · exact rejects_ok
  · exact rejects_overflow rfl
  · split
    · exact rejects_ok
    · exact rejects_ok

theorem lift_rejects {Q : Ledger → Prop} {arm : InFlight → Arm} (h : (arm x.toInFlight).Rejects Q) :
    (lift x arm).Rejects Q := h.map

/-- Every action but an Orchard bundle writes what it writes before a rejection through the journal. -/
theorem dispatch_rejects {E : Env} {stx : SignedTransaction} {p : Prepared}
    (hp : ∀ bundle, p.action ≠ .shielded bundle) : (dispatch E ctx stx p x).Rejects (Writes E P T x.ledger) := by
  have hrefl : ∀ L, L = x.ledger → Writes E P T x.ledger L := fun L hL => hL ▸ .refl
  unfold dispatch
  cases haction : p.action <;> simp only
  case shielded bundle => exact absurd haction (hp bundle)
  case tipped | timestamped => exact rejects_reject .refl
  case shieldedV2 => exact lift_rejects shieldedV2_rejects
  case transfer => exact lift_rejects ((doTransfer_clean.bind fun _ _ => rejects_ok).mono hrefl)
  case call => exact call_clean.mono hrefl
  case intentSettle => exact lift_rejects (intentSettle_clean.mono hrefl)
  case registerName => exact lift_rejects (registerName_clean.mono hrefl)
  case multisigExec => exact lift_rejects rejects_failed
  -- The others end with a status, in an overflow before the first write or, writing a vault, in a panic, or hand over.
  all_goals
    refine lift_rejects ?_
    first
    | unfold claimVesting
    | unfold deploy
    | unfold rotateKey
    | unfold htlcLock
    | unfold htlcClaim
    | unfold htlcRefund
    | unfold tokenIssue
    | unfold tokenTransfer
    | unfold tokenBurn
    | unfold tokenSetPolicy
    | unfold intentCancel
    | unfold transferName
    | unfold nftMint
    | unfold nftTransfer
    | unfold nftSetMeta
    | unfold setMultisig
    | unfold proposeMultisig
    | unfold approveMultisig
    | unfold cancelMultisig
    | unfold vaultDeposit
    | unfold vaultWithdraw
    | unfold vaultMint
    | unfold vaultBurn
    | unfold oracleUpdate
    try dsimp only
    repeat' split
    all_goals
      first
      | with_reducible exact rejects_failed
      | with_reducible exact rejects_done
      | exact rejects_overflow .refl
      | exact writeVault_rejects
      | exact payOutHtlc_rejects
      | exact executeFor_clean.mono hrefl
      | exact executeFor_clean.map.mono hrefl

end Rejections
end Runtime

namespace Runtime
open Ledger (Writes)
open Except
section Pool
variable {C : Crypto} {ctx : BlockContext} {sid : AccountId} {s : InFlight} {P : AccountId → Prop} {T : Prop}
  {sb : ShieldedBundle}

/-- The number of notes the Orchard bundle of a transaction brings. -/
def notes (E : Env) (stx : SignedTransaction) : ℕ :=
  match stx.transaction.action.resolved with
  | .shielded bundle => ((E.decodeShielded bundle).map fun sb => sb.noteCommitments.length).getD 0
  | _ => 0

/-- What an arm that applies the bundle `sb` may do to the ledger. -/
structure Absorbs (C : Crypto) (P : AccountId → Prop) (T : Prop) (sb : ShieldedBundle) (L L' : Ledger) :
    Prop where
  writes : L.Writes C P T L'
  notes_le : L'.shielded.commitments.length ≤ L.shielded.commitments.length + sb.noteCommitments.length

theorem Absorbs.refl {L : Ledger} : Absorbs C P T sb L L := ⟨.refl, by omega⟩

theorem Absorbs.write {L L' : Ledger} (h : Absorbs C P T sb L L') (op : UndoOp) (hids : op.ids = [])
    (hpool : (L'.overwrite C op).shielded = L'.shielded) : Absorbs C P T sb L (L'.overwrite C op) :=
  ⟨h.writes.trans (Writes.of_ids_nil op hids), by rw [hpool]; exact h.notes_le⟩

theorem applyShielded_absorbs {window : Option (U64 × Balance)}
    (hroom : ¬T → s.ledger.shielded.commitments.length + sb.noteCommitments.length ≤ 2 ^ 32) :
    (applyShielded C sb window s).Leaves (Absorbs C P T sb s.ledger) := by
  unfold applyShielded Ledger.applyShieldedBundle
  cases hbundle : s.ledger.shielded.applyBundle C sb with
  | mk pool e =>
    have hlen := ShieldedState.applyBundle_length hbundle
    cases e with
    | some e =>
      refine ⟨.failed ?_, rejects_failed⟩
      by_cases hT : T
      · exact ⟨.single (.torn pool hT), hlen⟩
      · rw [ShieldedState.applyBundle_of_room (hroom hT) hbundle]
        exact .refl
    | none =>
      have hpool : Absorbs C P T sb s.ledger (s.ledger.overwrite C (.shielded pool)) :=
        ⟨.of_ids_nil _ rfl, hlen⟩
      simp only [Ledger.addShieldedValue, Ledger.subShieldedValue]
      split_ifs
      · split
        · exact ⟨Arm.ensures_overflow, rejects_overflow hpool⟩
        split
        · exact ⟨Arm.ensures_overflow, rejects_overflow hpool⟩
        · rename_i L hL
          obtain ⟨n, -, rfl⟩ := Option.map_eq_some_iff.mp hL
          exact ⟨.done (hpool.write (.shieldedValue n) rfl rfl), rejects_done⟩
      · split
        · exact ⟨Arm.ensures_overflow, rejects_overflow hpool⟩
        rename_i L hL
        obtain ⟨n, -, rfl⟩ := Option.map_eq_some_iff.mp hL
        have hout := hpool.write (.shieldedValue n) rfl rfl
        split
        · exact ⟨Arm.ensures_overflow, rejects_overflow hout⟩
        refine ⟨.done ?_, rejects_done⟩
        cases window with
        | none => exact hout
        | some w => exact hout.write (.deshieldWindow (w.1, w.2)) rfl rfl
      · exact ⟨.done hpool, rejects_done⟩

theorem shielded_absorbs {E : Env} {nonce : U64} {bundle : Bytes} (hsb : E.decodeShielded bundle = some sb)
    (hroom : ¬T → s.ledger.shielded.commitments.length + sb.noteCommitments.length ≤ 2 ^ 32) :
    (shielded ctx sid E nonce bundle s).Leaves (Absorbs E P T sb s.ledger) := by
  refine shielded_cases (fun r => r.Leaves _) (fun _ => .failed .refl) fun sb' _ hsb' _ _ _ => ?_
  cases hsb.symm.trans hsb'
  exact applyShielded_absorbs hroom

end Pool
end Runtime

theorem Runtime.moves_shielded_eq {contract : AccountId} {st st' : Stores}
    (h : Relation.ReflTransGen (Runtime.Moves contract) st st') : st'.shielded = st.shielded := by
  induction h with
  | refl => rfl
  | tail _ hstep ih => cases hstep <;> exact ih

variable {C : Crypto}

theorem Effect.shielded_eq {sid : AccountId} {G : Grant} {s' : InFlight} (hstep : Effect C sid G s s')
    (hG : ¬G.pool) : s'.ledger.shielded = s.ledger.shielded := by
  cases hstep with
  | write op hp _ =>
    cases op <;> first | rfl | exact hp.elim
  | pool hp _ => exact absurd hp hG
  | torn hp _ => exact absurd hp hG
  | vault hv _ _ =>
    obtain ⟨next, -, rfl⟩ := Ledger.setVault_eq_some hv
    rfl
  | mint _ _ hm =>
    obtain ⟨_, _, -, -, rfl⟩ := Runtime.mintTokens_eq_some hm
    rfl
  | batch _ _ _ hb =>
    exact Runtime.moves_shielded_eq (Runtime.settleContractTokenTransfers_moves hb)
  | _ => rfl

theorem Effects.shielded_eq {sid : AccountId} {G : Grant} {s' : InFlight} (hsteps : Effects C sid G s s')
    (hG : ¬G.pool) : s'.ledger.shielded = s.ledger.shielded := by
  induction hsteps with
  | refl => rfl
  | tail _ hstep ih => exact (hstep.shielded_eq hG).trans ih

theorem Ledger.Writes.of_not_torn {P : AccountId → Prop} {T : Prop} {L L' : Ledger}
    (h : L.Writes C P False L') : L.Writes C P T L' := by
  induction h with
  | refl => exact .refl
  | tail _ hstep ih =>
    cases hstep with
    | write op hop => exact ih.tail (.write op hop)
    | torn _ hT => exact hT.elim

/-! ## Transactions and blocks -/

namespace Runtime
open Ledger (Writes)
open Except
section Transactions
variable {E : Env} {ctx : BlockContext} {P : AccountId → Prop} {T : Prop} {L L' : Ledger}
  {stx : SignedTransaction} {p : Prepared}

/-- What applying a transaction may do to the ledger, whether it is accepted or not. -/
structure Applies (E : Env) (P : AccountId → Prop) (T : Prop) (n : ℕ) (L L' : Ledger) : Prop where
  writes : L.Writes E.toCrypto P T L'
  notes_le : L'.shielded.commitments.length ≤ L.shielded.commitments.length + n

theorem Applies.refl {n : ℕ} : Applies E P T n L L := ⟨.refl, by omega⟩

theorem Applies.trans {n m : ℕ} {L1 : Ledger} (h : Applies E P T n L L1) (h' : Applies E P T m L1 L') :
    Applies E P T (n + m) L L' :=
  ⟨h.writes.trans h'.writes, by have := h.notes_le; have := h'.notes_le; omega⟩

theorem Applies.tail {n : ℕ} {L1 : Ledger} (h : Applies E P T n L L1) (h' : L1.Writes E P T L')
    (hpool : L'.shielded = L1.shielded) : Applies E P T n L L' :=
  ⟨h.writes.trans h', by rw [hpool]; exact h.notes_le⟩

variable {C : Crypto}

theorem covers_ids {st : Stores} (hst : st.Named P) (hnames : stx.Names P)
    (hpool : ∀ bundle, stx.transaction.action.resolved ≠ .shielded bundle) :
    Covers C ctx st stx.transaction.signer stx.transaction.publicKey stx.transaction.action.resolved
      ⟨fun _ => True, fun _ => True, fun _ => True, False, P⟩ where
  signer := hnames.ids _ List.mem_cons_self
  wellFormed := hnames.wellFormed
  ids := by
    rw [Action.ids_resolved]
    exact fun id hid => hnames.ids id (List.mem_cons_of_mem _ hid)
  owners := hst.owner
  windows asset holder hholder := by
    obtain ⟨k, hk, rfl⟩ := List.mem_map.mp hholder
    obtain ⟨w, hw⟩ := Option.isSome_iff_exists.mp (OrdMap.mem_keys.mp (List.mem_filter.mp hk).1)
    exact hst.window (ofLex k).1 (ofLex k).2 w hw
  proposals id prop dest amount hp hd := hst.payee id prop hp dest (MultisigProposal.mem_payees.mpr ⟨amount, hd⟩)
  proposed := hnames.proposed
  intent _ _ _ := trivial
  contract _ _ _ _ := trivial
  vault _ _ _ := trivial
  pool bundle h := hpool bundle h

theorem notes_eq {bundle : Bytes} {sb : ShieldedBundle} (haction : stx.transaction.action.resolved = .shielded bundle)
    (hsb : E.decodeShielded bundle = some sb) : notes E stx = sb.noteCommitments.length := by
  simp [notes, haction, hsb]

theorem dispatch_shielded {x : ExecState} {bundle : Bytes} (hp : p.action = .shielded bundle)
    (haction : stx.transaction.action.resolved = .shielded bundle)
    (hroom : ¬T → x.ledger.shielded.commitments.length + notes E stx ≤ 2 ^ 32) :
    (∀ x' status, dispatch E ctx stx p x = .ok (x', status) → Applies E P T (notes E stx) x.ledger x'.ledger) ∧
      (dispatch E ctx stx p x).Rejects (Applies E P T (notes E stx) x.ledger) := by
  unfold dispatch
  simp only [hp]
  cases hsb : E.decodeShielded bundle with
  | none =>
    have hfailed : shielded ctx stx.transaction.signer E stx.transaction.nonce bundle x.toInFlight =
        x.toInFlight.failed "malformed shielded bundle" := by
      unfold shielded
      simp only [hsb]
    refine ⟨fun x' status h => ?_, lift_rejects (hfailed ▸ rejects_failed)⟩
    exact lift_ensures (P := fun s' => Applies E P T (notes E stx) x.ledger s'.ledger)
      (hfailed ▸ .failed .refl) h
  | some sb =>
    rw [notes_eq haction hsb] at hroom ⊢
    have hleaves : (shielded ctx stx.transaction.signer E stx.transaction.nonce bundle x.toInFlight).Leaves
        (Absorbs E P T sb x.ledger) := shielded_absorbs hsb hroom
    obtain ⟨hok, hrej⟩ := hleaves
    refine ⟨fun x' status h => ?_, lift_rejects fun L' e he => ?_⟩
    · have := lift_ensures hok h
      exact ⟨this.writes, this.notes_le⟩
    · have := hrej L' e he
      exact ⟨this.writes, this.notes_le⟩

theorem execute_applies (hp : prepare E ctx L stx = .ok p) (hst : L.Named P) (hnames : stx.Names P)
    (hroom : ¬T → L.shielded.commitments.length + notes E stx ≤ 2 ^ 32) :
    (∀ x status, execute E ctx stx p L = .ok (x, status) → Applies E P T (notes E stx) L x.ledger) ∧
      (execute E ctx stx p L).Rejects (Writes E P T L) := by
  have haction := prepare_action hp
  cases hms : p.msError with
  | some reason =>
    unfold execute
    simp only [hms]
    refine ⟨fun x status h => ?_, rejects_ok⟩
    cases h
    exact .refl
  | none =>
    by_cases hpool : ∃ bundle, p.action = .shielded bundle
    · obtain ⟨bundle, hbundle⟩ := hpool
      unfold execute
      simp only [hms]
      have hresolved : stx.transaction.action.resolved = .shielded bundle := haction ▸ hbundle
      exact ⟨fun x status h => (dispatch_shielded hbundle hresolved hroom).1 x status h,
        fun L' e he => ((dispatch_shielded hbundle hresolved hroom).2 L' e he).writes⟩
    · push Not at hpool
      refine ⟨fun x status h => ?_, ?_⟩
      · have heffects := execute_effects hp (haction ▸ covers_ids hst hnames (haction ▸ hpool)) h
        refine ⟨heffects.writes.of_not_torn, ?_⟩
        rw [heffects.shielded_eq id]
        exact Nat.le_add_right _ _
      · unfold execute
        simp only [hms]
        exact dispatch_rejects hpool

theorem credit_writes {id : AccountId} {amount : Balance} (hid : P id) (h : credit C L id amount = .ok L') :
    Writes C P T L L' ∧ L'.shielded = L.shielded := by
  unfold credit at h
  split_ifs at h
  · cases h
    exact ⟨.refl, rfl⟩
  split at h
  · cases h
  · cases h
    exact ⟨.setAccount _ _ hid, rfl⟩

theorem credit_rejects {id : AccountId} {amount : Balance} : (credit C L id amount).Rejects (Writes C P T L) := by
  unfold credit
  split_ifs
  · exact rejects_ok
  · split
    · exact rejects_reject .refl
    · exact rejects_ok

theorem finish_writes {sid : AccountId} {tip : Balance} {s : InFlight} (hsid : P sid) (hminer : P ctx.miner)
    (h : finish C ctx sid tip s = .ok L') : Writes C P T s.ledger L' ∧ L'.shielded = s.ledger.shielded := by
  obtain ⟨L1, h1, h2⟩ := bind_eq_ok.mp h
  obtain ⟨hw1, hs1⟩ := credit_writes (T := T) hminer h1
  obtain ⟨hw2, hs2⟩ := credit_writes (T := T) hminer h2
  exact ⟨(Writes.setAccount sid s.signer hsid).trans (hw1.trans hw2), hs2.trans hs1⟩

theorem finish_rejects {sid : AccountId} {tip : Balance} {s : InFlight} (hsid : P sid) (hminer : P ctx.miner) :
    (finish C ctx sid tip s).Rejects (Writes C P T s.ledger) := by
  have hset : Writes C P T s.ledger (s.ledger.setAccount C sid s.signer) := .setAccount _ _ hsid
  refine Rejects.bind (fun L' e he => hset.trans (credit_rejects L' e he)) fun L1 h1 L' e he => ?_
  exact (hset.trans (credit_writes hminer h1).1).trans (credit_rejects L' e he)

theorem applyTransaction_applies {receipt : Receipt} (hst : L.Named P) (hnames : stx.Names P)
    (hminer : P ctx.miner) (hroom : ¬T → L.shielded.commitments.length + notes E stx ≤ 2 ^ 32)
    (h : applyTransaction E ctx L stx = .ok (L', receipt)) : Applies E P T (notes E stx) L L' := by
  obtain ⟨p, x, status, hp, hx, hL, -⟩ := applyTransaction_eq_ok h
  obtain ⟨hw, hpool⟩ := finish_writes (hnames.ids _ List.mem_cons_self) hminer hL
  exact ((execute_applies hp hst hnames hroom).1 x status hx).tail hw hpool

theorem applyTransaction_rejects (hst : L.Named P) (hnames : stx.Names P) (hminer : P ctx.miner)
    (hroom : ¬T → L.shielded.commitments.length + notes E stx ≤ 2 ^ 32) :
    (applyTransaction E ctx L stx).Rejects (Writes E P T L) := by
  unfold applyTransaction
  split
  · exact rejects_reject .refl
  rename_i p hp
  obtain ⟨hok, hrej⟩ := execute_applies hp hst hnames hroom
  refine Rejects.bind hrej fun r hr => Rejects.bind (fun L' e he => ?_) fun _ _ => rejects_ok
  exact (hok r.1 r.2 hr).writes.trans (finish_rejects (hnames.ids _ List.mem_cons_self) hminer L' e he)

/-- The notes of a list of transactions. -/
def notesAll (E : Env) (txs : List SignedTransaction) : ℕ := (txs.map (notes E)).sum

theorem applyCoinbase_writes {reward : Balance} (hminer : P ctx.miner)
    (h : applyCoinbase C ctx L = .ok (L', reward)) : Writes C P T L L' ∧ L'.shielded = L.shielded := by
  obtain ⟨-, ⟨-, rfl⟩ | ⟨L1, n, h1, -, rfl⟩⟩ := applyCoinbase_eq_ok h
  · exact ⟨.refl, rfl⟩
  obtain ⟨hw, hs⟩ := credit_writes (T := T) hminer h1
  exact ⟨hw.trans (Writes.of_ids_nil (.minedEmitted n) rfl), hs⟩

theorem applyCoinbase_rejects (hminer : P ctx.miner) : (applyCoinbase C ctx L).Rejects (Writes C P T L) := by
  unfold applyCoinbase
  dsimp only
  split_ifs
  · exact rejects_ok
  refine Rejects.bind credit_rejects fun L1 h1 => ?_
  split
  · exact rejects_reject (credit_writes hminer h1).1
  · exact rejects_ok

section Blocks
variable {txs : List SignedTransaction} {receipts : List Receipt} (hst : L.Named P)
  (hnames : ∀ stx ∈ txs, stx.Names P) (hminer : P ctx.miner)
  (hroom : ¬T → L.shielded.commitments.length + notesAll E txs ≤ 2 ^ 32)

include hst hnames hminer hroom

theorem applyTransactions_applies (h : applyTransactions E ctx L txs = .ok (L', receipts)) :
    Applies E P T (notesAll E txs) L L' := by
  induction txs generalizing L receipts with
  | nil =>
    cases h
    exact .refl
  | cons stx rest ih =>
    obtain ⟨⟨L1, receipt⟩, h1, h⟩ := bind_eq_ok.mp h
    obtain ⟨⟨L2, receipts'⟩, h2, h⟩ := bind_eq_ok.mp h
    cases h
    simp only [notesAll, List.map_cons, List.sum_cons] at hroom ⊢
    have hstep := applyTransaction_applies hst (hnames stx List.mem_cons_self) hminer
      (fun hT => by have := hroom hT; omega) h1
    refine hstep.trans (ih (hstep.writes.named hst) (fun stx' h' => hnames stx' (List.mem_cons_of_mem _ h'))
      (fun hT => ?_) h2)
    have := hroom hT
    have := hstep.notes_le
    unfold notesAll
    omega

theorem applyTransactions_rejects : (applyTransactions E ctx L txs).Rejects (Writes E P T L) := by
  induction txs generalizing L with
  | nil => exact rejects_ok
  | cons stx rest ih =>
    simp only [notesAll, List.map_cons, List.sum_cons] at hroom
    have hroom1 : ¬T → L.shielded.commitments.length + notes E stx ≤ 2 ^ 32 := fun hT => by
      have := hroom hT
      omega
    have hnames1 := hnames stx List.mem_cons_self
    refine Rejects.bind (applyTransaction_rejects hst hnames1 hminer hroom1) fun r h1 =>
      Rejects.bind (fun L' e he => ?_) fun _ _ => rejects_ok
    have hstep : Applies E P T (notes E stx) L r.1 := applyTransaction_applies hst hnames1 hminer hroom1 h1
    refine hstep.writes.trans (ih (hstep.writes.named hst)
      (fun stx' h' => hnames stx' (List.mem_cons_of_mem _ h')) (fun hT => ?_) L' e he)
    have := hroom hT
    have := hstep.notes_le
    unfold notesAll
    omega

/-- Executing a block changes the ledger through the journal, under ids that the ledger or the block names,
as long as its notes have room in the Orchard tree or `T` admits what has not. -/
theorem executeBlock_applies (h : executeBlock E ctx L txs = .ok (L', receipts)) :
    Applies E P T (notesAll E txs) L L' := by
  obtain ⟨⟨L1, reward⟩, h1, h2⟩ := bind_eq_ok.mp h
  obtain ⟨hw, hs⟩ := applyCoinbase_writes (T := T) hminer h1
  have hrest := applyTransactions_applies (L := L1) (hw.named hst) hnames hminer (by rwa [hs]) h2
  exact ⟨hw.trans hrest.writes, by rw [← hs]; exact hrest.notes_le⟩

theorem executeBlock_rejects : (executeBlock E ctx L txs).Rejects (Writes E P T L) := by
  refine Rejects.bind (applyCoinbase_rejects hminer) fun r h1 L' e he => ?_
  obtain ⟨hw, hs⟩ : Writes E P T L r.1 ∧ r.1.shielded = L.shielded := applyCoinbase_writes hminer h1
  exact hw.trans (applyTransactions_rejects (hw.named hst) hnames hminer (by rwa [hs]) L' e he)

end Blocks
end Transactions
end Runtime
end Sov
