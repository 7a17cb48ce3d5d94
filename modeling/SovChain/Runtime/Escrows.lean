import SovChain.Runtime.Failures
import SovChain.Runtime.Traces

/-!
# Escrows

An escrow is opened by the transaction whose id it bears and closed once, by its recipient with the preimage before
the timeout or by its locker from the timeout on. Along a chain every settlement closes an escrow that some earlier
transaction opened and that none closed since (`htlc_settled_once`), and the escrow counter is the sum of what is open.
-/

namespace Sov
namespace Runtime

/-- Who may close an escrow in a block: the recipient with the preimage before the timeout, or the locker from then
on. -/
inductive MaySettle (C : Crypto) (ctx : BlockContext) (sid : AccountId) (id : Hash) (htlc : Htlc) : Action → Prop
  | claim {preimage : Bytes} (hparty : sid = htlc.recipient) (hpreimage : C.sha256 preimage = htlc.hashlock)
      (hheight : ctx.height.toNat < htlc.timeoutHeight.toNat) : MaySettle C ctx sid id htlc (.htlcClaim id preimage)
  | refund (hparty : sid = htlc.locker) (hheight : htlc.timeoutHeight.toNat ≤ ctx.height.toNat) :
      MaySettle C ctx sid id htlc (.htlcRefund id)

/-- The signer of a transaction gains `amount`, its dues go to the miner, and nobody else's balance changes. -/
def Receives (ctx : BlockContext) (tx : Transaction) (amount : ℕ) (L L' : Ledger) : Prop :=
  ∀ id, (L'.account id).balance.toNat + (if id = tx.signer then dues ctx tx else 0) =
    (L.account id).balance.toNat + (if id = tx.signer then amount else 0) + if id = ctx.miner then dues ctx tx else 0

/-! ## The arms -/

section Arms
variable {C : Crypto} {ctx : BlockContext} {sid : AccountId} {s s' : InFlight} {status : ExecutionStatus}

theorem htlcLock_eq_ok {txId : Hash} {recipient : AccountId} {amount : Balance} {hashlock : Hash} {timeoutHeight : U64}
    (h : htlcLock C sid txId recipient amount hashlock timeoutHeight s = .ok (s', status)) :
    (s' = s ∧ status ≠ .success) ∨ status = .success ∧ s.ledger.htlcs.get? txId = none ∧ ∃ n b : Balance,
        n.toNat = s.ledger.htlcLocked.toNat + amount.toNat ∧
        s' = { s with
                ledger := (s.ledger.overwrite C (.htlcLocked n)).overwrite C
                  (.htlc txId (some ⟨sid, recipient, amount, hashlock, timeoutHeight⟩)) }.withBalance b := by
  unfold htlcLock at h
  split at h
  · cases h
    exact .inl ⟨rfl, nofun⟩
  rename_i remaining _
  split at h
  · cases h
    exact .inl ⟨rfl, nofun⟩
  rename_i L hlock
  cases h
  unfold Ledger.lockHtlc at hlock
  split_ifs at hlock with hid
  obtain ⟨n, hn, rfl⟩ := Option.map_eq_some_iff.mp hlock
  refine .inr ⟨rfl, ?_, n, remaining, (BitVec.checkedAdd_eq_some.mp hn).symm, rfl⟩
  simpa using hid

theorem payOutHtlc_eq_ok {id : Hash} {htlc : Htlc} (hid : s.ledger.htlcs.get? id = some htlc)
    (h : payOutHtlc C id s = .ok (s', status)) :
    status = .success ∧ ∃ b : Balance, b.toNat = s.signer.balance.toNat + htlc.amount.toNat ∧
      s' = { s with
              ledger := (s.ledger.overwrite C (.htlcLocked (s.ledger.htlcLocked.saturatingSub htlc.amount))).overwrite C
                (.htlc id none) }.withBalance b := by
  unfold payOutHtlc Ledger.settleHtlc at h
  rw [hid] at h
  dsimp only [Option.map_some] at h
  split at h
  · cases h
  · rename_i b hb
    cases h
    exact ⟨rfl, b, (BitVec.checkedAdd_eq_some.mp hb).symm, rfl⟩

/-- A claim or a refund: nothing happens, or the party closes the escrow and receives it. -/
theorem settle_eq_ok {id : Hash} {arm : InFlight → Arm} {action : Action}
    (harm : (∃ preimage, action = .htlcClaim id preimage ∧ arm = htlcClaim C ctx sid id preimage) ∨
      action = .htlcRefund id ∧ arm = htlcRefund C ctx sid id) (h : arm s = .ok (s', status)) :
    (s' = s ∧ status ≠ .success) ∨
      status = .success ∧ ∃ (htlc : Htlc) (b : Balance), s.ledger.htlcs.get? id = some htlc ∧
        MaySettle C ctx sid id htlc action ∧ b.toNat = s.signer.balance.toNat + htlc.amount.toNat ∧
        s' = { s with
                ledger := (s.ledger.overwrite C
                  (.htlcLocked (s.ledger.htlcLocked.saturatingSub htlc.amount))).overwrite C
                    (.htlc id none) }.withBalance b := by
  rcases harm with ⟨preimage, rfl, rfl⟩ | ⟨rfl, rfl⟩
  · unfold htlcClaim at h
    split at h
    · cases h
      exact .inl ⟨rfl, nofun⟩
    rename_i htlc hid
    split_ifs at h with hparty htimeout hpreimage
    · cases h
      exact .inl ⟨rfl, nofun⟩
    · cases h
      exact .inl ⟨rfl, nofun⟩
    · cases h
      exact .inl ⟨rfl, nofun⟩
    · obtain ⟨hstatus, b, hb, hs⟩ := payOutHtlc_eq_ok hid h
      exact .inr ⟨hstatus, htlc, b, hid, .claim (not_not.mp hparty) (not_not.mp hpreimage) (not_le.mp htimeout), hb, hs⟩
  · unfold htlcRefund at h
    split at h
    · cases h
      exact .inl ⟨rfl, nofun⟩
    rename_i htlc hid
    split_ifs at h with hparty htimeout
    · cases h
      exact .inl ⟨rfl, nofun⟩
    · cases h
      exact .inl ⟨rfl, nofun⟩
    · obtain ⟨hstatus, b, hb, hs⟩ := payOutHtlc_eq_ok hid h
      exact .inr ⟨hstatus, htlc, b, hid, .refund (not_not.mp hparty) (not_lt.mp htimeout), hb, hs⟩

end Arms

/-! ## One transaction -/

namespace Step

/-- The step opens the escrow `id`. -/
def Locks (E : Env) (st : Step) (id : Hash) (htlc : Htlc) : Prop :=
  st.receipt.status = .success ∧ id = st.tx.id E.toCrypto ∧ htlc.locker = st.tx.transaction.signer ∧
    st.tx.transaction.action.resolved =
      .htlcLock htlc.recipient htlc.amount htlc.hashlock htlc.timeoutHeight

/-- The step is a successful claim or refund of the escrow `id`. -/
def Settles (st : Step) (id : Hash) : Prop :=
  st.receipt.status = .success ∧
    ((∃ preimage, st.tx.transaction.action.resolved = .htlcClaim id preimage) ∨
      st.tx.transaction.action.resolved = .htlcRefund id)

theorem Settles.unique {st : Step} {id id' : Hash} (h : st.Settles id) (h' : st.Settles id') : id = id' := by
  obtain ⟨-, ⟨preimage, hclaim⟩ | hrefund⟩ := h <;> obtain ⟨-, ⟨preimage', hclaim'⟩ | hrefund'⟩ := h'
  · cases hclaim.symm.trans hclaim'
    rfl
  · cases hclaim.symm.trans hrefund'
  · cases hrefund.symm.trans hclaim'
  · cases hrefund.symm.trans hrefund'
    rfl

theorem Locks.not_settles {E : Env} {st : Step} {id id' : Hash} {htlc : Htlc} (h : st.Locks E id htlc) :
    ¬st.Settles id' := by
  rintro ⟨-, ⟨preimage, hclaim⟩ | hrefund⟩
  · cases h.2.2.2.symm.trans hclaim
  · cases h.2.2.2.symm.trans hrefund

end Step

/-- How a transaction leaves the escrows. -/
inductive EscrowStep (E : Env) (st : Step) : Prop
  | keep (hhtlcs : st.after.htlcs = st.before.htlcs) (hlocked : st.after.htlcLocked = st.before.htlcLocked)
      (hidle : ∀ id, ¬st.Settles id)
  | lock {id : Hash} {htlc : Htlc} (hlock : st.Locks E id htlc) (hid : st.before.htlcs.get? id = none)
      (hhtlcs : st.after.htlcs = st.before.htlcs.set id (some htlc))
      (hlocked : st.after.htlcLocked.toNat = st.before.htlcLocked.toNat + htlc.amount.toNat)
  | settle {id : Hash} {htlc : Htlc} (hsettle : st.Settles id) (hid : st.before.htlcs.get? id = some htlc)
      (hmay : MaySettle E.toCrypto st.ctx st.tx.transaction.signer id htlc st.tx.transaction.action.resolved)
      (hhtlcs : st.after.htlcs = st.before.htlcs.set id none)
      (hlocked : st.after.htlcLocked = st.before.htlcLocked.saturatingSub htlc.amount)
      (hpaid : Receives st.ctx st.tx.transaction htlc.amount.toNat st.before st.after)

section Transactions
variable {E : Env} {st : Step}

theorem Step.Valid.settle (hvalid : st.Valid E) (id : Hash) {arm : InFlight → Arm}
    (harm : (∃ preimage, st.tx.transaction.action.resolved = .htlcClaim id preimage ∧
        arm = htlcClaim E st.ctx st.tx.transaction.signer id preimage) ∨
      st.tx.transaction.action.resolved = .htlcRefund id ∧
        arm = htlcRefund E st.ctx st.tx.transaction.signer id) : EscrowStep E st := by
  have hdispatch : ∀ (p : Prepared) (x : ExecState), p.action = st.tx.transaction.action.resolved →
      dispatch E st.ctx st.tx p x = lift x arm := by
    intro p x hp
    rcases harm with ⟨preimage, haction, rfl⟩ | ⟨haction, rfl⟩ <;> simp only [dispatch, hp, haction]
  have hv2 : ∀ bundle, st.tx.transaction.action.resolved ≠ .shieldedV2 bundle := by
    intro bundle hbundle
    rcases harm with ⟨preimage, haction, -⟩ | ⟨haction, -⟩ <;> rw [haction] at hbundle <;> cases hbundle
  obtain ⟨p, s, hp, hs, hL⟩ := applyTransaction_arm (a := fun _ => arm) hvalid hdispatch
  have hstores := finish_stores hL
  have hidle : st.receipt.status ≠ .success → ∀ id, ¬st.Settles id := fun hne id hsettle => hne hsettle.1
  rcases hs with ⟨rfl, hne⟩ | hs
  · exact .keep (by rw [hstores]) (by rw [hstores]) (hidle hne)
  rcases settle_eq_ok harm hs with ⟨rfl, hne⟩ | ⟨hok, htlc, b, hid, hmay, hb, rfl⟩
  · exact .keep (by rw [hstores]) (by rw [hstores]) (hidle hne)
  have hsettles : st.Settles id := by
    refine ⟨hok, ?_⟩
    rcases harm with ⟨preimage, haction, -⟩ | ⟨haction, -⟩
    · exact .inl ⟨preimage, haction⟩
    · exact .inr haction
  refine .settle hsettles hid hmay (by rw [hstores]; rfl) (by rw [hstores]; rfl) fun who => ?_
  obtain ⟨hsigner, hother⟩ := finish_balances hp hv2 rfl hL
  dsimp only [InFlight.withBalance] at hb hsigner hother
  by_cases hwho : who = st.tx.transaction.signer
  · subst hwho
    simp only [if_true]
    omega
  · rw [if_neg hwho, if_neg hwho]
    exact hother who hwho

theorem Step.Valid.lock (hvalid : st.Valid E) {recipient : AccountId} {amount : Balance} {hashlock : Hash}
    {timeoutHeight : U64}
    (haction : st.tx.transaction.action.resolved = .htlcLock recipient amount hashlock timeoutHeight) :
    EscrowStep E st := by
  obtain ⟨p, s, -, hs, hL⟩ := applyTransaction_arm (a := fun _ => htlcLock E st.tx.transaction.signer
    (st.tx.id E) recipient amount hashlock timeoutHeight) hvalid
    (fun p x hp => by simp only [dispatch, hp, haction])
  have hstores := finish_stores hL
  have hidle : ∀ id, ¬st.Settles id := by
    rintro id ⟨-, ⟨preimage, hclaim⟩ | hrefund⟩
    · cases haction.symm.trans hclaim
    · cases haction.symm.trans hrefund
  rcases hs with ⟨rfl, -⟩ | hs
  · exact .keep (by rw [hstores]) (by rw [hstores]) hidle
  rcases htlcLock_eq_ok hs with ⟨rfl, -⟩ | ⟨hok, hid, n, b, hn, rfl⟩
  · exact .keep (by rw [hstores]) (by rw [hstores]) hidle
  have hlocks : st.Locks E (st.tx.id E)
      ⟨st.tx.transaction.signer, recipient, amount, hashlock, timeoutHeight⟩ := ⟨hok, rfl, rfl, haction⟩
  refine .lock hlocks hid (by rw [hstores]; rfl) ?_
  rw [hstores]
  exact hn

/-- A transaction opens an escrow, settles one or leaves them all alone. -/
theorem Step.Valid.escrowStep (hvalid : st.Valid E) : EscrowStep E st := by
  by_cases hfields : .htlc ∈ st.tx.transaction.action.resolved.fields
  · cases haction : st.tx.transaction.action.resolved <;> rw [haction] at hfields
    case htlcLock => exact hvalid.lock haction
    case htlcClaim id preimage => exact hvalid.settle id (.inl ⟨preimage, haction, rfl⟩)
    case htlcRefund id => exact hvalid.settle id (.inr ⟨haction, rfl⟩)
    all_goals simp [Action.fields] at hfields
  · have hlocked : .htlcLocked ∉ st.tx.transaction.action.resolved.fields := by
      cases haction : st.tx.transaction.action.resolved <;> simp_all [Action.fields]
    refine .keep (applyTransaction_same (f := .htlc) hvalid hfields (by simp))
      (applyTransaction_same (f := .htlcLocked) hvalid hlocked (by simp)) ?_
    rintro id ⟨-, ⟨preimage, haction⟩ | haction⟩ <;> exact hfields (by simp [haction, Action.fields])

end Transactions

/-! ## Chains -/

/-- The escrow `id` was opened by one of the steps, and not closed since. -/
def Opened (E : Env) (accepted : List Step) (id : Hash) (htlc : Htlc) : Prop :=
  ∃ before lock between, accepted = before ++ lock :: between ∧ lock.Locks E id htlc ∧
    ∀ st ∈ between, ¬st.Settles id

/-- The counter is the sum of the open escrows, and each of them was opened on the way. -/
structure EscrowsTraced (E : Env) (accepted : List Step) (L : Ledger) : Prop where
  sum : L.htlcLocked.toNat = L.escrowed
  opened : ∀ id htlc, L.htlcs.get? id = some htlc → Opened E accepted id htlc

section Chains
variable {E : Env} {accepted : List Step} {st : Step} {id : Hash} {htlc : Htlc}

theorem Opened.snoc (h : Opened E accepted id htlc) (hst : ¬st.Settles id) : Opened E (accepted ++ [st]) id htlc := by
  obtain ⟨before, lock, between, rfl, hlock, hopen⟩ := h
  refine ⟨before, lock, between ++ [st], by simp, hlock, ?_⟩
  rw [List.forall_mem_append, List.forall_mem_singleton]
  exact ⟨hopen, hst⟩

theorem EscrowsTraced.step (h : EscrowsTraced E accepted st.before) (hstep : EscrowStep E st) :
    EscrowsTraced E (accepted ++ [st]) st.after := by
  cases hstep with
  | keep hhtlcs hlocked hidle =>
    refine ⟨?_, fun id htlc hid => ?_⟩
    · rw [hlocked, Stores.escrowed, hhtlcs]
      exact h.sum
    · rw [hhtlcs] at hid
      exact (h.opened id htlc hid).snoc (hidle id)
  | @lock id0 htlc0 hlock hid0 hhtlcs hlocked =>
    refine ⟨?_, fun id htlc hid => ?_⟩
    · have hsum := st.before.escrowed_store_some hid0 htlc0
      have hescrowed : st.after.escrowed = (st.before.store (.htlc id0 (some htlc0))).escrowed := by
        rw [Stores.escrowed, hhtlcs]
        rfl
      rw [hlocked, hescrowed, hsum, h.sum]
    · rw [hhtlcs, OrdMap.get?_set] at hid
      split_ifs at hid with heq
      · cases hid
        exact ⟨accepted, st, [], rfl, heq ▸ hlock, List.forall_mem_nil _⟩
      · exact (h.opened id htlc hid).snoc hlock.not_settles
  | @settle id0 htlc0 hsettle hid0 _ hhtlcs hlocked _ =>
    refine ⟨?_, fun id htlc hid => ?_⟩
    · have hsum := st.before.escrowed_store_none hid0
      have hescrowed : st.after.escrowed = (st.before.store (.htlc id0 none)).escrowed := by
        rw [Stores.escrowed, hhtlcs]
        rfl
      have hopen := h.sum
      rw [hlocked, hescrowed, BitVec.toNat_saturatingSub]
      omega
    · rw [hhtlcs, OrdMap.get?_set] at hid
      split_ifs at hid with heq
      exact (h.opened id htlc hid).snoc fun hother => heq (hsettle.unique hother)

/-- What holds of a step that settles an escrow, given the steps before it. -/
theorem EscrowsTraced.settled (h : EscrowsTraced E accepted st.before) (hstep : EscrowStep E st)
    (hsettle : st.Settles id) : ∃ htlc, Opened E accepted id htlc ∧
      MaySettle E st.ctx st.tx.transaction.signer id htlc st.tx.transaction.action.resolved ∧
      Receives st.ctx st.tx.transaction htlc.amount.toNat st.before st.after ∧ st.before.htlcs.get? id = some htlc := by
  cases hstep with
  | keep _ _ hidle => exact absurd hsettle (hidle id)
  | lock hlock => exact absurd hsettle hlock.not_settles
  | @settle id0 htlc0 hsettle0 hid0 hmay _ _ hpaid =>
    obtain rfl : id0 = id := hsettle0.unique hsettle
    exact ⟨htlc0, h.opened _ _ hid0, hmay, hpaid, hid0⟩

theorem Opened.between {a b : List Step} (h : Opened E (a ++ st :: b) id htlc) (hsettle : st.Settles id) :
    ∃ lock ∈ b, lock.Locks E id htlc := by
  obtain ⟨before, lock, between, hsplit, hlock, hopen⟩ := h
  have hne : st ≠ lock := by
    rintro rfl
    exact hlock.not_settles hsettle
  have hnot : st ∉ between := fun hmem => hopen st hmem hsettle
  rcases List.append_eq_append_iff.mp hsplit with ⟨c, -, hc⟩ | ⟨c, -, hc⟩
  · rcases c with _ | ⟨st', c⟩
    · exact absurd (List.cons.inj hc).1 hne
    refine ⟨lock, ?_, hlock⟩
    rw [(List.cons.inj hc).2]
    simp
  · have hmem : st ∈ lock :: between := by
      rw [hc]
      simp
    rcases List.mem_cons.mp hmem with heq | hin
    · exact absurd heq hne
    · exact absurd hin hnot

end Chains

theorem escrowsTraced_build {E : Env} {config : GenesisConfig} {g : Genesis}
    (hg : config.build E = .ok g) : EscrowsTraced E [] g.ledger := by
  have hstores := GenesisConfig.build_stores hg
  refine ⟨?_, fun id htlc hid => ?_⟩
  · rw [hstores]
    rfl
  · rw [hstores] at hid
    cases hid

theorem EscrowsTraced.reward {E : Env} {accepted : List Step} {L L' : Ledger} {ctx : BlockContext} {amount : Balance}
    (h : EscrowsTraced E accepted L) (hreward : applyCoinbase E ctx L = .ok (L', amount)) :
    EscrowsTraced E accepted L' := by
  have hstores := applyCoinbase_stores hreward
  refine ⟨?_, ?_⟩
  · rw [hstores]
    exact h.sum
  · rw [hstores]
    exact h.opened

/-- Along a chain the escrow counter is the sum of the open escrows; every settlement closes an escrow opened before and
not settled since, in favour of the party that may, and pays it exactly the amount; two settlements of one id are of two
locks; an escrow leaves the ledger by a settlement only; and no height admits a claim and a refund of one escrow. -/
theorem htlc_settled_once (E : Env) (config : GenesisConfig) (g : Genesis) (height : ℕ) (accepted : List Step)
    (L : Ledger) (hg : config.build E.toCrypto = .ok g) (h : Chained E g.ledger 0 height accepted L) :
    L.htlcLocked.toNat = L.escrowed ∧ (∀ earlier st later id, accepted = earlier ++ st :: later → st.Settles id →
      ∃ htlc, Opened E earlier id htlc ∧
        MaySettle E.toCrypto st.ctx st.tx.transaction.signer id htlc st.tx.transaction.action.resolved ∧
        Receives st.ctx st.tx.transaction htlc.amount.toNat st.before st.after) ∧
    (∀ earlier st between st' later id, accepted = earlier ++ st :: (between ++ st' :: later) → st.Settles id →
      st'.Settles id → ∃ lock ∈ between, ∃ htlc, lock.Locks E id htlc) ∧
    (∀ st ∈ accepted, ∀ id htlc, st.before.htlcs.get? id = some htlc →
      st.after.htlcs.get? id = some htlc ∨ st.Settles id) ∧
    ∀ (st st' : Step) (id : Hash) (preimage : Bytes), st.Valid E → st'.Valid E →
      st.ctx.height = st'.ctx.height → st.before.htlcs.get? id = st'.before.htlcs.get? id →
      st.tx.transaction.action.resolved = .htlcClaim id preimage → st'.tx.transaction.action.resolved = .htlcRefund id →
      ¬(st.receipt.status = .success ∧ st'.receipt.status = .success) := by
  obtain ⟨htraced, hsettled⟩ := Chained.history (J := EscrowsTraced E)
    (Q := fun earlier st => ∀ id, st.Settles id → ∃ htlc, Opened E earlier id htlc ∧
      MaySettle E st.ctx st.tx.transaction.signer id htlc st.tx.transaction.action.resolved ∧
      Receives st.ctx st.tx.transaction htlc.amount.toNat st.before st.after)
    (escrowsTraced_build hg) (fun hreward hJ => hJ.reward hreward)
    (fun hvalid hJ => ⟨fun id hid => by
      obtain ⟨htlc, hopened, hmay, hpaid, -⟩ := hJ.settled hvalid.escrowStep hid
      exact ⟨htlc, hopened, hmay, hpaid⟩, hJ.step hvalid.escrowStep⟩) h
  refine ⟨htraced.sum, fun earlier st later id hsplit => hsettled earlier st later hsplit id, ?_, ?_, ?_⟩
  · intro earlier st between st' later id hsplit hst hst'
    rw [← List.cons_append, ← List.append_assoc] at hsplit
    obtain ⟨htlc, hopened, -⟩ := hsettled _ st' later hsplit id hst'
    obtain ⟨lock, hmem, hlock⟩ := hopened.between hst
    exact ⟨lock, hmem, htlc, hlock⟩
  · intro st hst id htlc hid
    cases (h.valid st hst).escrowStep with
    | keep hhtlcs => exact .inl (hhtlcs ▸ hid)
    | @lock id0 htlc0 _ hid0 hhtlcs =>
      have hne : id0 ≠ id := by
        rintro rfl
        cases hid0.symm.trans hid
      rw [hhtlcs, OrdMap.get?_set, if_neg hne]
      exact .inl hid
    | @settle id0 htlc0 hsettle _ _ hhtlcs =>
      by_cases heq : id0 = id
      · exact .inr (heq ▸ hsettle)
      · rw [hhtlcs, OrdMap.get?_set, if_neg heq]
        exact .inl hid
  · rintro st st' id preimage hvalid hvalid' hheight hsame hclaim hrefund ⟨hok, hok'⟩
    cases hvalid.escrowStep with
    | keep _ _ hidle => exact hidle id ⟨hok, .inl ⟨preimage, hclaim⟩⟩
    | lock hlock => cases hlock.2.2.2.symm.trans hclaim
    | @settle id1 htlc1 hsettle1 hid1 hmay1 =>
      cases hvalid'.escrowStep with
      | keep _ _ hidle => exact hidle id ⟨hok', .inr hrefund⟩
      | lock hlock => cases hlock.2.2.2.symm.trans hrefund
      | @settle id2 htlc2 hsettle2 hid2 hmay2 =>
        obtain rfl : id1 = id := hsettle1.unique ⟨hok, .inl ⟨preimage, hclaim⟩⟩
        obtain rfl : id2 = id1 := hsettle2.unique ⟨hok', .inr hrefund⟩
        cases hid1.symm.trans (hsame.trans hid2)
        rw [hclaim] at hmay1
        rw [hrefund] at hmay2
        cases hmay1 with
        | claim _ _ hbelow =>
          cases hmay2 with
          | refund _ habove =>
            rw [hheight] at hbelow
            omega

/-- An escrow of two grains, opened before height five. -/
def sampleLock : SignedTransaction :=
  keyedTx (memberKey 0) "vault.sov" (.htlcLock ⟨"bob.sov"⟩ 2 (.pad 32 [7]) 5)

/-- The recipient shows the preimage. -/
def sampleClaim : SignedTransaction :=
  keyedTx (memberKey 1) "bob.sov" (.htlcClaim (sampleLock.id sampleCrypto) [7])

/-- The steps of a block after that genesis. -/
def treasurySteps (txs : List SignedTransaction) : List Step := blockSteps sampleEnv sampleContext treasury txs

theorem chained_treasurySteps {txs : List SignedTransaction} {receipts : List Receipt}
    (h : executeBlock sampleEnv sampleContext treasury txs = .ok (L, receipts)) :
    Chained sampleEnv treasury 0 1 (treasurySteps txs) L := .block .start rfl h

theorem claimed_escrow_settled : ∃ L, Chained sampleEnv treasury 0 1 (treasurySteps [sampleLock, sampleClaim]) L ∧
    (∃ st ∈ treasurySteps [sampleLock, sampleClaim], st.Settles (sampleLock.id sampleCrypto)) ∧
    L.htlcLocked.toNat = L.escrowed := by
  obtain ⟨⟨L, receipts⟩, hL⟩ := exists_of_toOption (x := executeBlock sampleEnv sampleContext treasury
    [sampleLock, sampleClaim]) (by decide +kernel)
  have hclaimed : (treasurySteps [sampleLock, sampleClaim]).any (fun st =>
      decide (st.receipt.status = .success ∧ st.tx = sampleClaim)) = true := by decide +kernel
  have hchain := chained_treasurySteps hL
  obtain ⟨st, hst, hclaim⟩ := List.any_eq_true.mp hclaimed
  obtain ⟨hok, htx⟩ := of_decide_eq_true hclaim
  refine ⟨L, hchain, ⟨st, hst, hok, .inl ⟨[7], by rw [htx]; rfl⟩⟩,
    (htlc_settled_once sampleEnv treasuryGenesis _ 1 _ L rfl hchain).1⟩

end Runtime
end Sov
