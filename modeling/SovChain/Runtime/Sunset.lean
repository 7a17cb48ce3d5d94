import SovChain.Runtime.Limiter
import SovChain.Runtime.Orchard

/-!
# The post-quantum sunset

From the sunset on, every signature an accepted transaction rests on is of a hybrid key: the transaction's own, the
approvals that count for a vault, also those cached before the sunset, the owner's of a settled intent and the proof of
a new key. No account or vault comes under a legacy key, and the Orchard pool stands still. It takes no deposit from the
rotation window on: the value balance that the gate reads in the header is the one the bundle codec reads.
-/

namespace Sov
namespace Runtime
section Transactions
variable {E : Env} {ctx : BlockContext} {stx : SignedTransaction} {p : Prepared} {L L' : Ledger} {receipt : Receipt}
  {x x' : ExecState} {status : ExecutionStatus} {pq : PqSchedule}

/-- Only a rotation changes the key of the signer, to a key the post-quantum policy allows. -/
theorem dispatch_key (h : dispatch E ctx stx p x = .ok (x', status)) :
    x'.signer.key = x.signer.key ∨ ∃ newKey proof, p.action = .rotateKey newKey proof ∧
      x'.signer.key = some newKey ∧ (p.requiresHybrid = true → isHybridKey newKey = true) := by
  by_cases hpersonal : p.action.Personal
  · rcases hpersonal.cases with haction | ⟨code, haction⟩ | ⟨newKey, proof, haction⟩
    all_goals
      simp only [dispatch, haction] at h
      obtain ⟨s, hs, rfl⟩ := lift_eq_ok.mp h
    · unfold claimVesting at hs
      split at hs
      · cases hs
        exact .inl rfl
      · split at hs <;> cases hs
        exact .inl rfl
    · unfold deploy at hs
      split at hs <;> cases hs <;> exact .inl rfl
    unfold rotateKey at hs
    split_ifs at hs with hhybrid
    · cases hs
      exact .inl rfl
    · cases hs
      exact .inl rfl
    · cases hs
      exact .inr ⟨newKey, proof, haction, rfl, fun hrequired => by simpa [hrequired] using hhybrid⟩
  · exact .inl (Account.key_of_standing (dispatch_spends hpersonal h))

/-! ## What the gates give from the sunset on -/

theorem pqRequiresHybridAuthority_of_sunset (hpq : ctx.pq = some pq)
    (hsunset : pq.sunsetHeight.toNat ≤ ctx.height.toNat) (account : Account) :
    pqRequiresHybridAuthority account ctx = true := by
  simp [pqRequiresHybridAuthority, hpq, hsunset]

theorem pqGate_of_sunset {tx : Transaction} {requiresHybrid : Bool} (hpq : ctx.pq = some pq)
    (hsunset : pq.sunsetHeight.toNat ≤ ctx.height.toNat) (h : pqGate ctx tx requiresHybrid = .ok ()) :
    isHybridKey tx.publicKey = true := by
  unfold pqGate at h
  rw [hpq] at h
  dsimp only at h
  split_ifs at h with hlegacy
  all_goals simpa [hsunset] using hlegacy

theorem isPqMultisigMigration_of_sunset (hpq : ctx.pq = some pq)
    (hsunset : pq.sunsetHeight.toNat ≤ ctx.height.toNat) (action : Action) :
    isPqMultisigMigration ctx action = false := by
  unfold isPqMultisigMigration
  split
  · simp [hpq, hsunset]
  · rfl

theorem checkRetired_resolved (action : Action) (h : checkRetired E ctx pq action = .ok ()) :
    checkRetired E ctx pq action.resolved = .ok () := by
  have huntimed : checkRetired E ctx pq action.untimed = .ok () := by
    cases action <;> exact h
  unfold Action.resolved
  generalize action.untimed = inner at huntimed
  cases inner <;> exact huntimed

/-- An Orchard bundle that is carried out in the rotation window is no deposit, and comes before the sunset. -/
theorem retired_of_shielded {bundle : Bytes} (hpq : ctx.pq = some pq)
    (hwindow : pq.rotationOnlyHeight.toNat ≤ ctx.height.toNat ∨ pq.sunsetHeight.toNat ≤ ctx.height.toNat)
    (h : checkShieldedRetirement E ctx stx.transaction.action = .ok ())
    (haction : stx.transaction.action.resolved = .shielded bundle) :
    ctx.height.toNat < pq.sunsetHeight.toNat ∧ claimsDeposit bundle = false := by
  unfold checkShieldedRetirement at h
  rw [hpq] at h
  dsimp only at h
  split_ifs at h with hbefore
  · omega
  have hretired := checkRetired_resolved _ h
  rw [haction] at hretired
  simp only [checkRetired] at hretired
  split_ifs at hretired with hsunset hdeposit
  exact ⟨by omega, by simpa using hdeposit⟩

/-! ## Signatures -/

/-- The keys whose signatures the effect of a transaction rests on. -/
inductive Authorizes (C : Crypto) (ctx : BlockContext) (st : Stores) (tx : Transaction) (status : ExecutionStatus) :
    PublicKey → Prop
  /-- The transaction is signed. A member that proposes for a vault, or approves, does so with this signature. -/
  | transaction : Authorizes C ctx st tx status tx.publicKey
  /-- An approval that counts for the policy of the signer's account. -/
  | approval {inner : Action} {approvals : List MultisigApproval} {policy : Multisig} {i : U16} {key : PublicKey}
      (haction : tx.action.untimed = .multisigExec inner approvals) (hpolicy : st.multisig.get? tx.signer = some policy)
      (hi : i ∈ countedApprovals C ctx tx (pqRequiresHybridAuthority (st.account tx.signer) ctx) policy inner approvals)
      (hkey : policy.signers[i.toNat]? = some key) : Authorizes C ctx st tx status key
  /-- An approval of a proposal that was cached earlier and still counts. -/
  | cached {account : AccountId} {proposal : Hash} {policy : Multisig} {prop : MultisigProposal} {i : U16}
      {key : PublicKey} (haction : tx.action.resolved = .approveMultisig account proposal)
      (hpolicy : st.multisig.get? account = some policy) (hprop : st.proposals.get? proposal = some prop)
      (hi : i ∈ retainedApprovers policy (pqRequiresHybridAuthority (st.account account) ctx) prop.approvers)
      (hkey : policy.signers[i.toNat]? = some key) : Authorizes C ctx st tx status key
  /-- The owner of an intent that is settled. -/
  | owner {settlement : Settlement} (haction : tx.action.resolved = .intentSettle settlement)
      (hstatus : status = .success) : Authorizes C ctx st tx status settlement.intent.intent.publicKey
  /-- The proof of a key that is installed. -/
  | rotation {newKey : PublicKey} {proof : Signature} (haction : tx.action.resolved = .rotateKey newKey proof)
      (hstatus : status = .success) : Authorizes C ctx st tx status newKey

variable {C : Crypto} {policy : Multisig} {key : PublicKey}

theorem hybrid_of_countedApprovals {tx : Transaction} {inner : Action} {approvals : List MultisigApproval}
    {i : U16} (hmigration : isPqMultisigMigration ctx inner = false)
    (hi : i ∈ countedApprovals C ctx tx true policy inner approvals)
    (hkey : policy.signers[i.toNat]? = some key) : isHybridKey key = true := by
  unfold countedApprovals at hi
  rw [List.mem_dedup, List.mem_map] at hi
  obtain ⟨ap, hap, rfl⟩ := hi
  have hcounts := (List.mem_filter.mp hap).2
  rw [hkey] at hcounts
  simp only [hmigration, Bool.not_true, Bool.false_or, Bool.or_false, Bool.and_eq_true] at hcounts
  exact hcounts.1

theorem hybrid_of_retainedApprovers {approvers : List U16} {i : U16}
    (hi : i ∈ retainedApprovers policy true approvers) (hkey : policy.signers[i.toNat]? = some key) :
    isHybridKey key = true := by
  simp only [retainedApprovers, if_true, List.mem_filter, hkey, Option.any_some] at hi
  exact hi.2

theorem intentSettle_hybrid {sid : AccountId} {settlement : Settlement} {s s' : InFlight}
    (hrequired : ∀ account, pqRequiresHybridAuthority account ctx = true)
    (h : intentSettle C ctx sid settlement s = .ok (s', .success)) :
    isHybridKey settlement.intent.intent.publicKey = true := by
  obtain ⟨-, hne⟩ | ⟨-, -, hhybrid, -⟩ := intentSettle_eq_ok h
  · exact absurd rfl hne
  · exact hhybrid (hrequired _)

theorem dispatch_of_success (hx : execute E ctx stx p L = .ok (x, .success)) :
    dispatch E ctx stx p { ledger := L, signer := p.signer, feePaid := p.fee, gasUsed := p.gasUsed, returnData := []
                           events := [] } = .ok (x, .success) := by
  unfold execute at hx
  dsimp only at hx
  split at hx
  · cases hx
  · exact hx

theorem hybrid_of_authorizes (hpq : ctx.pq = some pq) (hsunset : pq.sunsetHeight.toNat ≤ ctx.height.toNat)
    (h : applyTransaction E ctx L stx = .ok (L', receipt))
    (hkey : Authorizes E ctx L stx.transaction receipt.status key) : isHybridKey key = true := by
  obtain ⟨p, x, status, hp, hx, -, rfl⟩ := applyTransaction_eq_ok h
  obtain ⟨signer, action, nonce, balance, r, hadm⟩ := prepare_eq_ok hp
  have hrequired := pqRequiresHybridAuthority_of_sunset hpq hsunset
  cases hkey with
  | transaction => exact pqGate_of_sunset hpq hsunset hadm.gate
  | approval _ _ hi hkey =>
    rw [hrequired] at hi
    exact hybrid_of_countedApprovals (isPqMultisigMigration_of_sunset hpq hsunset _) hi hkey
  | cached _ _ _ hi hkey =>
    rw [hrequired] at hi
    exact hybrid_of_retainedApprovers hi hkey
  | owner haction hstatus =>
    cases (hstatus : status = .success)
    have hdispatch := dispatch_of_success hx
    simp only [dispatch, hadm.action_eq.trans haction] at hdispatch
    obtain ⟨s, hs, -⟩ := lift_eq_ok.mp hdispatch
    exact intentSettle_hybrid hrequired hs
  | rotation haction hstatus =>
    cases (hstatus : status = .success)
    have hdispatch := dispatch_of_success hx
    have hhybrid : p.requiresHybrid = true := by rw [hadm.prepared, hrequired]
    simp only [dispatch, hadm.action_eq.trans haction, hhybrid] at hdispatch
    obtain ⟨s, hs, -⟩ := lift_eq_ok.mp hdispatch
    unfold rotateKey at hs
    split_ifs at hs with hlegacy
    · cases hs
    · cases hs
    · simpa using hlegacy

/-! ## What is installed -/

variable {id : AccountId}

theorem key_of_sunset (hpq : ctx.pq = some pq) (hsunset : pq.sunsetHeight.toNat ≤ ctx.height.toNat)
    (h : applyTransaction E ctx L stx = .ok (L', receipt)) (hkey : (L'.account id).key = some key) :
    (L.account id).key = some key ∨ isHybridKey key = true := by
  by_cases hid : id = stx.transaction.signer
  · obtain ⟨p, x, status, hp, hx, hL, -⟩ := applyTransaction_eq_ok h
    obtain ⟨signer, action, nonce, balance, r, hadm⟩ := prepare_eq_ok hp
    obtain ⟨b, hb, -⟩ := finish_account hL id
    rw [if_pos hid] at hb
    rw [hb] at hkey
    obtain ⟨key', hsigner, -, hbound⟩ := hadm.signer_eq
    have hadmitted : p.signer.key = some key → (L.account id).key = some key ∨ isHybridKey key = true := by
      intro heq
      rw [hsigner] at heq
      cases (heq : key' = some key)
      obtain hold | ⟨-, hnew⟩ := hbound
      · exact .inl (hid ▸ hold.symm)
      · cases hnew
        exact .inr (pqGate_of_sunset hpq hsunset hadm.gate)
    unfold execute at hx
    dsimp only at hx
    split at hx
    · cases hx
      exact hadmitted hkey
    obtain hsame | ⟨newKey, proof, -, hnew, hhybrid⟩ := dispatch_key hx
    · exact hadmitted (hsame.symm.trans hkey)
    cases hnew.symm.trans hkey
    refine .inr (hhybrid ?_)
    rw [hadm.prepared]
    exact pqRequiresHybridAuthority_of_sunset hpq hsunset _
  · rw [(applyTransaction_bystander h hid).key] at hkey
    exact .inl hkey

theorem setMultisig_hybrid {sid : AccountId} {signers : List PublicKey} {threshold : U16} {s : InFlight} :
    (setMultisig C sid true signers threshold s).Ensures fun s' => s'.ledger.multisig.get? id = some policy →
      s.ledger.multisig.get? id = some policy ∨ ∀ key ∈ policy.signers, isHybridKey key = true := by
  unfold setMultisig
  refine .guard .inl fun _ => .guard .inl fun _ => .guard .inl fun _ => .guard .inl fun hhybrid => ?_
  refine .done fun hpolicy => ?_
  have halters := Stores.Alters.foldl (K := [.proposal]) (C := C) (L := s.ledger.setMultisig C sid ⟨signers, threshold⟩)
    (l := Ledger.proposalIdsFor (s.ledger.setMultisig C sid ⟨signers, threshold⟩) sid)
    (g := fun id => .proposal id none) (by simp)
  have hsame : ((s.ledger.setMultisig C sid ⟨signers, threshold⟩).removeProposalsFor C sid).multisig =
      s.ledger.multisig.set sid (some ⟨signers, threshold⟩) := halters.same (f := .multisig) (by simp)
  dsimp only at hpolicy
  rw [hsame, OrdMap.get?_set] at hpolicy
  split_ifs at hpolicy with hid
  · cases hpolicy
    exact .inr (by simpa using hhybrid)
  · exact .inl hpolicy

theorem policy_of_sunset (hpq : ctx.pq = some pq) (hsunset : pq.sunsetHeight.toNat ≤ ctx.height.toNat)
    (h : applyTransaction E ctx L stx = .ok (L', receipt)) (hpolicy : L'.multisig.get? id = some policy) :
    L.multisig.get? id = some policy ∨ ∀ key ∈ policy.signers, isHybridKey key = true := by
  by_cases haction : ∃ signers threshold, stx.transaction.action.resolved = .setMultisig signers threshold
  · obtain ⟨signers, threshold, haction⟩ := haction
    obtain ⟨p, x, status, hp, hx, hL, -⟩ := applyTransaction_eq_ok h
    obtain ⟨signer, action, nonce, balance, r, hadm⟩ := prepare_eq_ok hp
    have hread : L'.multisig = x.ledger.multisig := by rw [finish_stores hL]
    rw [hread] at hpolicy
    unfold execute at hx
    dsimp only at hx
    split at hx
    · cases hx
      exact .inl hpolicy
    have hhybrid : p.requiresHybrid = true := by
      rw [hadm.prepared]
      exact pqRequiresHybridAuthority_of_sunset hpq hsunset _
    simp only [dispatch, hadm.action_eq.trans haction, hhybrid] at hx
    exact lift_ensures setMultisig_hybrid hx hpolicy
  · have hsame : L'.multisig = L.multisig := by
      refine applyTransaction_same (f := .multisig) h ?_ (by simp)
      cases hresolved : stx.transaction.action.resolved <;> simp_all [Action.fields]
    rw [hsame] at hpolicy
    exact .inl hpolicy

/-! ## The Orchard pool -/

theorem pool_of_sunset (hpq : ctx.pq = some pq) (hsunset : pq.sunsetHeight.toNat ≤ ctx.height.toNat)
    (h : applyTransaction E ctx L stx = .ok (L', receipt)) :
    (∀ bundle, stx.transaction.action.resolved ≠ .shielded bundle) ∧ L'.shielded = L.shielded ∧
      L'.shieldedValue = L.shieldedValue := by
  obtain ⟨p, x, status, hp, -, -, -⟩ := applyTransaction_eq_ok h
  obtain ⟨signer, action, nonce, balance, r, hadm⟩ := prepare_eq_ok hp
  have hnone : ∀ bundle, stx.transaction.action.resolved ≠ .shielded bundle := fun bundle haction =>
    absurd (retired_of_shielded hpq (.inr hsunset) hadm.retirement haction).1 (not_lt.mpr hsunset)
  have hfields : ∀ f ∈ [Field.shielded, .shieldedValue], f ∉ stx.transaction.action.resolved.fields := by
    cases hresolved : stx.transaction.action.resolved <;> simp_all [Action.fields]
  exact ⟨hnone, applyTransaction_same (f := .shielded) h (hfields _ (by simp)) (by simp),
    applyTransaction_same (f := .shieldedValue) h (hfields _ (by simp)) (by simp)⟩

/-- The header tells what the codec reads. -/
theorem msb_of_claimsDeposit {O : Orchard} {bundle : Bytes} {sb : ShieldedBundle}
    (hsb : OrchardBundle.decode O bundle = some sb) (h : claimsDeposit bundle = false) :
    sb.valueBalance.msb = false := by
  unfold OrchardBundle.decode at hsb
  obtain ⟨b, hb, rfl⟩ := Option.map_eq_some_iff.mp hsb
  have hbytes := OrchardBundle.eq_toBytes_of_fromBytes (eq_ok_of_toOption hb)
  obtain ⟨hlen, hvalue⟩ := b.header_toBytes
  rw [← hbytes] at hlen hvalue
  rw [claimsDeposit, hvalue, decide_eq_true hlen, Bool.true_and] at h
  exact h

theorem no_deposit_of_rotation {O : Orchard} (hE : E.decodeShielded = OrchardBundle.decode O)
    (hpq : ctx.pq = some pq) (hrotation : pq.rotationOnlyHeight.toNat ≤ ctx.height.toNat)
    (h : applyTransaction E ctx L stx = .ok (L', receipt)) : L'.shieldedValue.toNat ≤ L.shieldedValue.toNat := by
  obtain ⟨hvalue, -⟩ | ⟨bundle, haction, hstep⟩ := applyTransaction_orchard h
  · rw [hvalue]
  cases hstep with
  | keep hvalue => rw [hvalue]
  | withdrawal hvalue => omega
  | deposit hsb hneg =>
    obtain ⟨p, x, status, hp, -, -, -⟩ := applyTransaction_eq_ok h
    obtain ⟨signer, action, nonce, balance, r, hadm⟩ := prepare_eq_ok hp
    have hclosed := (retired_of_shielded hpq (.inl hrotation) hadm.retirement haction).2
    rw [hE] at hsb
    rw [msb_of_claimsDeposit hsb hclosed] at hneg
    cases hneg

end Transactions

/-- The sunset is complete. -/
theorem sunset_complete (E : Env) (O : Orchard) (ctx : BlockContext) (pq : PqSchedule) (L L' : Ledger)
    (stx : SignedTransaction) (receipt : Receipt) (hE : E.decodeShielded = OrchardBundle.decode O)
    (hpq : ctx.pq = some pq) (h : applyTransaction E ctx L stx = .ok (L', receipt)) :
    (pq.sunsetHeight.toNat ≤ ctx.height.toNat →
      (∀ key, Authorizes E.toCrypto ctx L.toStores stx.transaction receipt.status key → isHybridKey key = true) ∧
      (∀ id key, (L'.account id).key = some key → (L.account id).key = some key ∨ isHybridKey key = true) ∧
      (∀ id policy, L'.multisig.get? id = some policy →
        L.multisig.get? id = some policy ∨ ∀ key ∈ policy.signers, isHybridKey key = true) ∧
      (∀ bundle, stx.transaction.action.resolved ≠ .shielded bundle) ∧ L'.shielded = L.shielded ∧
      L'.shieldedValue = L.shieldedValue) ∧
    (pq.rotationOnlyHeight.toNat ≤ ctx.height.toNat → L'.shieldedValue.toNat ≤ L.shieldedValue.toNat) :=
  ⟨fun hsunset => ⟨fun _ => hybrid_of_authorizes hpq hsunset h, fun _ _ => key_of_sunset hpq hsunset h,
    fun _ _ => policy_of_sunset hpq hsunset h, pool_of_sunset hpq hsunset h⟩,
    fun hrotation => no_deposit_of_rotation hE hpq hrotation h⟩

def hybridKey : PublicKey := .v2HybridMlDsa65 (FixedBytes.zero 32) (FixedBytes.zero 1952)

/-- An account under a hybrid key. -/
def hybridLedger : Ledger :=
  (Ledger.new sampleCrypto).setAccount sampleCrypto ⟨"alice.sov"⟩ { balance := 7, key := some hybridKey }

/-- The codec over primitives that accept everything. -/
def lenientOrchard : Orchard :=
  ⟨fun _ => true, fun _ => true, fun _ => true, fun _ => true, fun _ => true, fun _ => true, fun _ => true,
    fun _ => true⟩

def orchardEnv : Env := { sampleEnv with decodeShielded := OrchardBundle.decode lenientOrchard }

/-- A schedule that is over. -/
def sunsetContext : BlockContext := { sampleContext with pq := some ⟨1, 0, 0⟩ }

def hybridTx : SignedTransaction where
  transaction := { signer := ⟨"alice.sov"⟩, publicKey := hybridKey, nonce := 0, action := .transfer ⟨"bob.sov"⟩ 3 }
  signature := .v2HybridMlDsa65 (FixedBytes.zero 64) (FixedBytes.zero 3309)

theorem hybrid_transfer_after_sunset :
    ∃ L' receipt, applyTransaction orchardEnv sunsetContext hybridLedger hybridTx = .ok (L', receipt) ∧
      receipt.status = .success ∧
      (∀ key, Authorizes orchardEnv.toCrypto sunsetContext hybridLedger.toStores hybridTx.transaction receipt.status key →
        isHybridKey key = true) ∧ (∀ id key, (L'.account id).key = some key →
        (hybridLedger.account id).key = some key ∨ isHybridKey key = true) ∧
      L'.shieldedValue.toNat ≤ hybridLedger.shieldedValue.toNat := by
  have hstatus : (applyTransaction orchardEnv sunsetContext hybridLedger hybridTx).toOption.map
      (fun r => r.2.status) = some .success := by decide +kernel
  obtain ⟨⟨L', receipt⟩, h, hok⟩ := exists_of_map_toOption hstatus
  obtain ⟨hsunset, hrotation⟩ := sunset_complete orchardEnv lenientOrchard sunsetContext _ hybridLedger L' hybridTx
    receipt rfl rfl h
  obtain ⟨hkeys, haccounts, -⟩ := hsunset (by decide)
  exact ⟨L', receipt, h, hok, hkeys, haccounts, hrotation (by decide)⟩

end Runtime
end Sov
