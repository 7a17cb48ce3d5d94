import SovChain.Runtime.Authorization
import SovChain.Types.SigningMessages

/-!
# The network a signature was made for

Once a block context binds signatures to a network, the transaction's own signature and an intent
owner's are over messages framed with it. The approvals of a `multisigExec` and the proof of a key
rotation are not: their messages name the account and the nonce, but no network.

`authorizing` lists the messages whose signatures stand behind what a transaction did, and
`applyTransaction_honoring` says that the list is complete: with every other signature refused, the
transaction leaves the same ledger.
-/

namespace Sov
open Codec SigningMessage
namespace SigningDomain

/-- The name of the network does not contain the separator of the frame. -/
def Named (d : SigningDomain) : Prop := 0 ∉ strBytes d.chainId

/-- The message is a transaction's or an intent's, framed with the network. -/
def Frames (d : SigningDomain) (m : Bytes) : Prop :=
  ∃ tag ∈ [Transaction.signingDomainTag, Intent.signingDomainTag], ∃ body, m = d.frame tag body

/-- The message determines the chain id and the genesis hash of the network. -/
def Binds (d : SigningDomain) (m : Bytes) : Prop :=
  d.Frames m ∧ ∀ d' : SigningDomain, d'.Named → d'.Frames m → d' = d

theorem zero_notMem_of_mem_tags {tag : Bytes}
    (h : tag ∈ [Transaction.signingDomainTag, Intent.signingDomainTag]) : 0 ∉ tag := by
  have hall : ∀ t ∈ [Transaction.signingDomainTag, Intent.signingDomainTag], (0 : UInt8) ∉ t := by decide
  exact hall tag h

variable {m : Bytes} {d : SigningDomain}

theorem Frames.unique {d' : SigningDomain} (hd : d.Named) (hd' : d'.Named) (h : d.Frames m) (h' : d'.Frames m) :
    d' = d := by
  obtain ⟨tag, htag, body, rfl⟩ := h
  obtain ⟨tag', htag', body', h⟩ := h'
  simp only [frame, List.append_assoc] at h
  obtain ⟨-, h⟩ := append_sep_inj (zero_notMem_of_mem_tags htag) (zero_notMem_of_mem_tags htag') h
  obtain ⟨hchain, h⟩ := append_sep_inj hd hd' h
  change d.genesis.bytes ++ body = d'.genesis.bytes ++ body' at h
  have hgenesis := (List.append_inj h (by rw [d.genesis.length_eq, d'.genesis.length_eq])).1
  obtain ⟨chainId, bytes, _⟩ := d
  obtain ⟨chainId', bytes', _⟩ := d'
  cases strBytes_injective hchain
  cases (hgenesis : bytes = bytes')
  rfl

theorem Frames.binds (hd : d.Named) (h : d.Frames m) : d.Binds m :=
  ⟨h, fun _ hd' h' => h.unique hd hd' h'⟩

theorem frames_transaction (d : SigningDomain) (t : Transaction) : d.Frames (t.signingBytesIn (some d)) :=
  ⟨_, by simp, _, rfl⟩

theorem frames_intent (d : SigningDomain) (i : Intent) : d.Frames (i.signingBytesIn (some d)) :=
  ⟨_, by simp, _, rfl⟩

/-- A framed message carries the tag of a transaction or an intent. -/
theorem Frames.tagged (h : d.Frames m) : Tagged 116 m ∨ Tagged 105 m := by
  obtain ⟨tag, htag, body, rfl⟩ := h
  simp only [List.mem_cons, List.not_mem_nil, or_false] at htag
  obtain rfl | rfl := htag
  · exact .inl (tagged_frame tagged_tx body)
  · exact .inr (tagged_frame tagged_intent body)

theorem not_frames_of_tagged {c : UInt8} (h : Tagged c m) (htx : c ≠ 116) (hintent : c ≠ 105) : ¬ d.Frames m := by
  intro hframes
  obtain htag | htag := hframes.tagged
  · exact htx (h.unique htag)
  · exact hintent (h.unique htag)

theorem not_frames_approval (d : SigningDomain) (account : AccountId) (nonce : U64) (action : Action) :
    ¬ d.Frames (multisigSigningBytes account nonce action) :=
  not_frames_of_tagged (tagged_approval account nonce action) (by decide) (by decide)

theorem not_frames_rotation (d : SigningDomain) (signer : AccountId) (nonce : U64) (newKey : PublicKey) :
    ¬ d.Frames (rotationSigningBytes signer nonce newKey) :=
  not_frames_of_tagged (tagged_rotation signer nonce newKey) (by decide) (by decide)

end SigningDomain

/-- The environment that refuses every signature but those over the listed messages. -/
def Env.honoring (E : Env) (messages : List Bytes) : Env :=
  { E with
    verifyEd25519 := fun key m sig => decide (m ∈ messages) && E.verifyEd25519 key m sig
    verifyMlDsa65 := fun key m sig => decide (m ∈ messages) && E.verifyMlDsa65 key m sig }

namespace Runtime
variable {E : Env} {ctx : BlockContext} {stx : SignedTransaction} {p : Prepared} {L L' : Ledger}
  {receipt : Receipt} {messages : List Bytes} {D : SigningDomain}

/-! ## The messages behind a transaction -/

/-- The message of the approvals, when enough of them count for the action to run. -/
def approvalMessages (C : Crypto) (ctx : BlockContext) (st : Stores) (tx : Transaction) : List Bytes :=
  match tx.action.untimed, st.multisig.get? tx.signer with
  | .multisigExec inner approvals, some policy =>
    let requiresHybrid := pqRequiresHybridAuthority (st.account tx.signer) ctx
    if execError C ctx st tx = none ∧
        countedApprovals C ctx tx requiresHybrid policy inner approvals ≠ [] then
      [multisigSigningBytes tx.signer tx.nonce inner]
    else []
  | _, _ => []

/-- The message of the signature a successful action itself brought. -/
def actionMessages (D : SigningDomain) (tx : Transaction) (status : ExecutionStatus) : List Bytes :=
  match status, tx.action.resolved with
  | .success, .intentSettle settlement => [settlement.intent.intent.signingBytesIn (some D)]
  | .success, .rotateKey newKey _ => [rotationSigningBytes tx.signer tx.nonce newKey]
  | _, _ => []

/-- The messages whose signatures authorized what a transaction did in a context bound to `D`. -/
def authorizing (C : Crypto) (ctx : BlockContext) (D : SigningDomain) (st : Stores) (tx : Transaction)
    (status : ExecutionStatus) : List Bytes :=
  tx.signingBytesIn (some D) :: (approvalMessages C ctx st tx ++ actionMessages D tx status)

/-! ## The executor under restricted verifiers -/

theorem verify_honoring (key : PublicKey) (m : Bytes) (sig : Signature) : key.verify (E.honoring messages) m sig =
      (decide (m ∈ messages) && key.verify E m sig) := by
  cases key <;> cases sig
  · rfl
  · exact (Bool.and_false _).symm
  · exact (Bool.and_false _).symm
  · simp only [PublicKey.verify, Env.honoring]
    cases decide (m ∈ messages) <;> simp

variable {m : Bytes}

theorem verify_honoring_of_mem {key : PublicKey} {sig : Signature} (hm : m ∈ messages) :
    key.verify (E.honoring messages) m sig = key.verify E m sig := by
  rw [verify_honoring, decide_eq_true hm, Bool.true_and]

theorem verify_honoring_of_notMem {key : PublicKey} {sig : Signature} (hm : m ∉ messages) :
    key.verify (E.honoring messages) m sig = false := by
  rw [verify_honoring, decide_eq_false hm, Bool.false_and]

variable {signer : Account} {action : Action} {balance : Balance} {r : Resolved} {st : Stores}
  {nonce : U64}

/-- The checks an admitted transaction passed are all the checks there are. -/
theorem Admitted.prepare_eq (h : Admitted E ctx st stx p signer action nonce balance r) :
    prepare E ctx st stx = .ok p := by
  unfold prepare
  simp only [h.verified, h.authorized, h.nonce_eq, h.gate, h.retirement, h.active, h.unnested, h.unwrapped,
    h.size, h.fee_eq, h.funded, h.next_nonce, h.paid, h.resolved, bind, Except.bind, pure, Except.pure,
    Bool.not_true, Bool.false_eq_true, ne_eq, not_true_eq_false, if_false]
  exact congrArg Except.ok h.prepared.symm

theorem addCommitments_honoring (s : ShieldedState) (cmxs : List Hash) :
    s.addCommitments (E.honoring messages) cmxs = s.addCommitments E cmxs := by
  induction cmxs generalizing s with
  | nil => rfl
  | cons cmx rest ih =>
    unfold ShieldedState.addCommitments
    rw [ih]
    rfl

theorem applyShielded_honoring : applyShielded (E.honoring messages).toCrypto = applyShielded E := by
  have hpool : ∀ L : Ledger, L.applyShieldedBundle (E.honoring messages).toCrypto =
      L.applyShieldedBundle E := by
    intro L
    funext bundle
    unfold Ledger.applyShieldedBundle ShieldedState.applyBundle
    rw [addCommitments_honoring]
    rfl
  funext sb window s
  unfold applyShielded
  rw [hpool]
  rfl

theorem shielded_honoring (sid : AccountId) : shielded ctx sid (E.honoring messages) = shielded ctx sid E := by
  unfold shielded
  rw [applyShielded_honoring]
  rfl

theorem registerName_honoring (sid : AccountId) :
    registerName (E.honoring messages) ctx sid = registerName E ctx sid := by
  have htaken : @Stores.nameTaken (E.honoring messages).toCrypto = @Stores.nameTaken E := rfl
  have hregister : @Ledger.registerName (E.honoring messages).toCrypto = @Ledger.registerName E :=
    rfl
  unfold registerName
  rw [htaken, hregister]

variable {x : ExecState}

theorem dispatch_honoring (hintent : ∀ settlement, p.action ≠ .intentSettle settlement)
    (hrotate : ∀ newKey proof, p.action ≠ .rotateKey newKey proof) :
    dispatch (E.honoring messages) ctx stx p x = dispatch E ctx stx p x := by
  cases haction : p.action with
  | intentSettle settlement => exact absurd haction (hintent settlement)
  | rotateKey newKey proof => exact absurd haction (hrotate newKey proof)
  | shielded bundle => simp only [dispatch, haction, shielded_honoring]
  | registerName name => simp only [dispatch, haction, registerName_honoring]
  | call contract gasLimit calldata =>
    have hcall : call (E.honoring messages) ctx = call E ctx := rfl
    simp only [dispatch, haction, hcall]
  | _ =>
    simp only [dispatch, haction]
    try rfl

theorem checkRetired_honoring (pq : PqSchedule) (action : Action) :
    checkRetired (E.honoring messages) ctx pq action = checkRetired E ctx pq action := by
  fun_induction checkRetired E ctx pq action <;> simp_all [checkRetired, Env.honoring]

/-! ### Approvals -/

section Approvals
variable {st : Stores} {tx : Transaction} {requiresHybrid : Bool} {inner : Action}
  {approvals : List MultisigApproval} {policy : Multisig}

theorem countedApprovals_honoring (hm : multisigSigningBytes tx.signer tx.nonce inner ∈ messages) :
    countedApprovals (E.honoring messages) ctx tx requiresHybrid policy inner approvals =
      countedApprovals E ctx tx requiresHybrid policy inner approvals := by
  unfold countedApprovals
  simp only [verify_honoring_of_mem hm]

theorem countedApprovals_honoring_eq_nil
    (hm : multisigSigningBytes tx.signer tx.nonce inner ∉ messages) :
    countedApprovals (E.honoring messages) ctx tx requiresHybrid policy inner approvals = [] := by
  unfold countedApprovals
  rw [List.filter_eq_nil_iff.mpr]
  · rfl
  intro ap _
  cases policy.signers[ap.signer.toNat]? with
  | none => exact Bool.false_ne_true
  | some pk => simp [verify_honoring_of_notMem hm]

theorem multisigError_honoring_none (h : multisigError E ctx st tx requiresHybrid inner approvals = none)
    (hm : ∀ policy, st.multisig.get? tx.signer = some policy →
      countedApprovals E ctx tx requiresHybrid policy inner approvals ≠ [] →
        multisigSigningBytes tx.signer tx.nonce inner ∈ messages) :
    multisigError (E.honoring messages) ctx st tx requiresHybrid inner approvals = none := by
  unfold multisigError at h ⊢
  split at h
  · cases h
  rename_i hinner
  rw [if_neg hinner]
  rcases hpolicy : st.multisig.get? tx.signer with _ | policy
  · simp [hpolicy] at h
  simp only [hpolicy] at h ⊢
  by_cases hcounted : countedApprovals E ctx tx requiresHybrid policy inner approvals = []
  · -- Nothing counted, so nothing was needed.
    rw [hcounted] at h
    split_ifs at h with hlt
    rw [if_neg]
    simp only [List.length_nil, BitVec.toNat_ofNat, Nat.zero_mod] at hlt
    omega
  · rw [countedApprovals_honoring (hm policy hpolicy hcounted)]
    exact h

theorem multisigError_honoring_some (h : multisigError E ctx st tx requiresHybrid inner approvals ≠ none)
    (hm : multisigSigningBytes tx.signer tx.nonce inner ∉ messages) :
    multisigError (E.honoring messages) ctx st tx requiresHybrid inner approvals ≠ none := by
  unfold multisigError at h ⊢
  split at h
  · rename_i hinner
    rw [if_pos hinner]
    exact Option.some_ne_none _
  rename_i hinner
  rw [if_neg hinner]
  rcases hpolicy : st.multisig.get? tx.signer with _ | policy
  · exact Option.some_ne_none _
  simp only [hpolicy, countedApprovals_honoring_eq_nil hm] at h ⊢
  split_ifs at h with hlt
  · rw [if_pos]
    · exact Option.some_ne_none _
    · simp only [List.length_nil, BitVec.toNat_ofNat, Nat.zero_mod]
      omega
  · exact absurd rfl h

theorem execError_honoring_none (h : execError E ctx st tx = none)
    (hm : ∀ m ∈ approvalMessages E ctx st tx, m ∈ messages) : execError (E.honoring messages) ctx st tx = none := by
  unfold execError at h ⊢
  split at h
  · rename_i inner approvals haction
    refine multisigError_honoring_none h fun policy hpolicy hcounted => hm _ ?_
    have herror : execError E ctx st tx = none := by
      simpa only [execError, haction] using h
    simp [approvalMessages, haction, hpolicy, herror, hcounted]
  · rfl

theorem execError_honoring_some (h : execError E ctx st tx ≠ none)
    (hm : ∀ inner, multisigSigningBytes tx.signer tx.nonce inner ∉ messages) :
    execError (E.honoring messages) ctx st tx ≠ none := by
  unfold execError at h ⊢
  split at h
  · rename_i inner approvals haction
    exact multisigError_honoring_some h (hm inner)
  · exact absurd rfl h

end Approvals

/-! ### Admission and execution -/

theorem Admitted.honoring (h : Admitted E ctx st stx p signer action nonce balance r)
    (hv : stx.verifySignatureMode (E.honoring messages) ctx.txDomain = true) : Admitted (E.honoring messages) ctx st stx
      { p with msError := execError (E.honoring messages) ctx st stx.transaction } signer action
      nonce balance
      { r with msError := execError (E.honoring messages) ctx st stx.transaction } where
  verified := hv
  authorized := h.authorized
  nonce_eq := h.nonce_eq
  gate := h.gate
  retirement := by
    have hr := h.retirement
    unfold checkShieldedRetirement at hr ⊢
    simpa only [checkRetired_honoring] using hr
  active := h.active
  unnested := h.unnested
  unwrapped := h.unwrapped
  size := h.size
  fee_eq := h.fee_eq
  funded := h.funded
  next_nonce := h.next_nonce
  paid := h.paid
  resolved := by
    have hholdings := authorize_holdings h.authorized
    have hresolved := h.resolved
    rw [pqRequiresHybridAuthority_congr hholdings.1 hholdings.2] at hresolved ⊢
    rw [execError, ← unwrapTimestamp_eq_ok h.unwrapped]
    cases action with
    | multisigExec inner approvals =>
      cases hresolved
      rfl
    | tipped tip inner =>
      have hnone : r.msError = none := by
        obtain ⟨_, _, -, -, -, -, -, -, herr⟩ | ⟨_, _, hexec, -⟩ | ⟨-, -, rfl⟩ := resolve_eq_ok hresolved
        · exact herr
        · cases hexec
        · rfl
      have hr : { r with msError := none } = r := by rw [← hnone]
      rw [hr]
      exact hresolved
    | _ =>
      cases hresolved
      rfl
  prepared := congrArg (fun q : Prepared =>
    { q with msError := execError (E.honoring messages) ctx st stx.transaction }) h.prepared

variable {sid : AccountId} {C : Crypto} {settlement : Settlement}

theorem intentSettle_of_not_verifies (hv : settlement.intent.verifyMode C ctx.txDomain = false) (s : InFlight) :
    ∃ reason, intentSettle C ctx sid settlement s = .ok (s, .failed reason) := by
  unfold intentSettle
  simp only [hv, Bool.not_false, if_true]
  split_ifs <;> exact ⟨_, rfl⟩

theorem intentSettle_honoring (hv : settlement.intent.verifyMode (E.honoring messages) ctx.txDomain =
      settlement.intent.verifyMode E ctx.txDomain) (s : InFlight) :
    intentSettle (E.honoring messages) ctx sid settlement s = intentSettle E ctx sid settlement s := by
  unfold intentSettle
  rw [hv]
  rfl

variable {status : ExecutionStatus}

theorem intentSettle_honoring_of_mem {s s' : InFlight} (hmode : ctx.txDomain = .bound D)
    (hm : status = .success → settlement.intent.intent.signingBytesIn (some D) ∈ messages)
    (h : intentSettle E ctx sid settlement s = .ok (s', status)) :
    ∃ status', intentSettle (E.honoring messages) ctx sid settlement s = .ok (s', status') := by
  have hverify : settlement.intent.verifyMode (E.honoring messages) ctx.txDomain =
      (decide (settlement.intent.intent.signingBytesIn (some D) ∈ messages) &&
        settlement.intent.verifyMode E ctx.txDomain) := by
    rw [hmode]
    exact verify_honoring _ _ _
  by_cases hmem : settlement.intent.intent.signingBytesIn (some D) ∈ messages
  · rw [decide_eq_true hmem, Bool.true_and] at hverify
    exact ⟨status, (intentSettle_honoring hverify s).trans h⟩
  rw [decide_eq_false hmem, Bool.false_and] at hverify
  cases status with
  | success => exact absurd (hm rfl) hmem
  | failed reason =>
    rw [intentSettle_failsClean s' reason h]
    obtain ⟨reason', hfailed⟩ := intentSettle_of_not_verifies hverify s
    exact ⟨_, hfailed⟩

variable {newKey : PublicKey} {proof : Signature}

theorem rotateKey_honoring_of_mem {requiresHybrid : Bool} {s s' : InFlight}
    (hm : status = .success → rotationSigningBytes sid nonce newKey ∈ messages)
    (h : rotateKey E sid nonce requiresHybrid newKey proof s = .ok (s', status)) :
    rotateKey (E.honoring messages) sid nonce requiresHybrid newKey proof s = .ok (s', status) := by
  unfold rotateKey at h ⊢
  split at h
  · rename_i hlegacy
    rw [if_pos hlegacy]
    exact h
  rename_i hlegacy
  rw [if_neg hlegacy, verify_honoring]
  split at h
  · rename_i hv
    rw [Bool.not_eq_true'] at hv
    rw [hv, Bool.and_false]
    exact h
  · rename_i hv
    rw [Bool.not_eq_true', Bool.not_eq_false] at hv
    cases h
    rw [hv, decide_eq_true (hm rfl)]
    rfl

/-- Refusing signatures over messages that stand behind nothing leaves the action's state the same. -/
theorem dispatch_honoring_of_mem {y : ExecState} (hmode : ctx.txDomain = .bound D)
    (haction : p.action = stx.transaction.action.resolved)
    (hm : ∀ m ∈ actionMessages D stx.transaction status, m ∈ messages) (h : dispatch E ctx stx p x = .ok (y, status)) :
    ∃ z status', dispatch (E.honoring messages) ctx stx p x = .ok (z, status') ∧ z.toInFlight = y.toInFlight := by
  by_cases hintent : ∃ settlement, p.action = .intentSettle settlement
  · obtain ⟨settlement, hs⟩ := hintent
    simp only [dispatch, hs] at h ⊢
    obtain ⟨s, harm, rfl⟩ := lift_eq_ok.mp h
    obtain ⟨status', harm'⟩ := intentSettle_honoring_of_mem hmode
      (fun hsuccess => hm _ (by simp [actionMessages, hsuccess, ← haction, hs])) harm
    exact ⟨_, status', lift_eq_ok.mpr ⟨s, harm', rfl⟩, rfl⟩
  by_cases hrotate : ∃ newKey proof, p.action = .rotateKey newKey proof
  · obtain ⟨newKey, proof, hr⟩ := hrotate
    simp only [dispatch, hr] at h ⊢
    obtain ⟨s, harm, rfl⟩ := lift_eq_ok.mp h
    exact ⟨_, status, lift_eq_ok.mpr ⟨s, rotateKey_honoring_of_mem
      (fun hsuccess => hm _ (by simp [actionMessages, hsuccess, ← haction, hr])) harm, rfl⟩, rfl⟩
  · refine ⟨y, status, ?_, rfl⟩
    rw [dispatch_honoring (fun t ht => hintent ⟨t, ht⟩) (fun k q hr => hrotate ⟨k, q, hr⟩)]
    exact h

theorem execute_honoring (hmode : ctx.txDomain = .bound D) (hp : prepare E ctx L stx = .ok p)
    (hx : execute E ctx stx p L = .ok (x, status))
    (hmessages : messages = authorizing E ctx D L stx.transaction status) :
    ∃ y status', execute (E.honoring messages) ctx stx
      { p with msError := execError (E.honoring messages) ctx L stx.transaction } L =
        .ok (y, status') ∧ y.toInFlight = x.toInFlight := by
  have hms := prepare_msError hp
  unfold execute at hx ⊢
  dsimp only at hx ⊢
  cases herror : execError E ctx L stx.transaction with
  | none =>
    rw [herror] at hms
    simp only [hms] at hx
    rw [execError_honoring_none herror (fun m hm => by simp [hmessages, authorizing, hm])]
    have hp' : { p with msError := none } = p := by rw [← hms]
    rw [hp']
    exact dispatch_honoring_of_mem hmode (prepare_action hp)
      (fun m hm => by simp [hmessages, authorizing, hm]) hx
  | some reason =>
    rw [herror] at hms
    simp only [hms] at hx
    cases hx
    have hne : ∀ inner, multisigSigningBytes stx.transaction.signer stx.transaction.nonce inner ∉
        messages := by
      intro inner hm
      have happrovals : approvalMessages E ctx L stx.transaction = [] := by
        simp only [approvalMessages, herror, reduceCtorEq, false_and, if_false]
        split <;> rfl
      simp only [hmessages, authorizing, happrovals, actionMessages, List.append_nil, List.mem_singleton] at hm
      exact D.not_frames_approval _ _ _ (hm ▸ D.frames_transaction stx.transaction)
    have herror' := execError_honoring_some (herror ▸ Option.some_ne_none reason) hne
    obtain ⟨reason', hreason'⟩ := Option.ne_none_iff_exists'.mp herror'
    rw [hreason']
    exact ⟨_, _, rfl, rfl⟩

/-- The messages of `authorizing` are all there is behind a transaction: with every other signature refused
it leaves the same ledger. -/
theorem applyTransaction_honoring (hmode : ctx.txDomain = .bound D)
    (h : applyTransaction E ctx L stx = .ok (L', receipt)) : ∃ receipt', applyTransaction
      (E.honoring (authorizing E ctx D L stx.transaction receipt.status)) ctx L stx = .ok (L', receipt') := by
  obtain ⟨p, x, status, hp, hx, hL, rfl⟩ := applyTransaction_eq_ok h
  dsimp only
  obtain ⟨signer, action, nonce, balance, r, hadm⟩ := prepare_eq_ok hp
  obtain ⟨y, status', hy, hxy⟩ := execute_honoring hmode hp hx rfl
  have hverified : stx.verifySignatureMode
      (E.honoring (authorizing E ctx D L stx.transaction status))
      ctx.txDomain = true := by
    have hv := hadm.verified
    rw [hmode] at hv ⊢
    exact (verify_honoring_of_mem (List.mem_cons_self ..)).trans hv
  unfold applyTransaction
  rw [(hadm.honoring hverified).prepare_eq]
  dsimp only
  rw [hy]
  have hfinish : finish (E.honoring (authorizing E ctx D L stx.transaction status))
      ctx stx.transaction.signer p.tip y.toInFlight = .ok L' := hxy ▸ hL
  exact ⟨_, bind_eq_ok.mpr ⟨_, rfl, bind_eq_ok.mpr ⟨_, hfinish, rfl⟩⟩⟩

/-! ## Signatures that name no network -/

/-- The action runs on approvals that count. -/
def RunsOnApprovals (C : Crypto) (ctx : BlockContext) (st : Stores) (tx : Transaction) : Prop :=
  ∃ inner approvals policy, tx.action.untimed = .multisigExec inner approvals ∧
    st.multisig.get? tx.signer = some policy ∧ execError C ctx st tx = none ∧
    countedApprovals C ctx tx (pqRequiresHybridAuthority (st.account tx.signer) ctx) policy inner approvals ≠
      []

/-- The transaction installs a key that its proof verifies under. -/
def RotatesKey (C : Crypto) (ctx : BlockContext) (st : Stores) (tx : Transaction) : Prop :=
  ∃ newKey proof, tx.action = .rotateKey newKey proof ∧
    (pqRequiresHybridAuthority (st.account tx.signer) ctx = true → isHybridKey newKey = true) ∧
    newKey.verify C (rotationSigningBytes tx.signer tx.nonce newKey) proof = true

variable {tx : Transaction}

theorem mem_approvalMessages (h : m ∈ approvalMessages C ctx st tx) :
    RunsOnApprovals C ctx st tx ∧ ∃ inner, m = multisigSigningBytes tx.signer tx.nonce inner := by
  unfold approvalMessages at h
  split at h
  · rename_i inner approvals policy haction hpolicy
    dsimp only at h
    split_ifs at h with hcounted
    · exact ⟨⟨inner, approvals, policy, haction, hpolicy, hcounted⟩, inner, List.mem_singleton.mp h⟩
    · cases h
  · cases h

theorem approvalMessages_of_runsOnApprovals (h : RunsOnApprovals C ctx st tx) :
    ∃ inner, multisigSigningBytes tx.signer tx.nonce inner ∈ approvalMessages C ctx st tx := by
  obtain ⟨inner, approvals, policy, haction, hpolicy, herror, hcounted⟩ := h
  exact ⟨inner, by simp [approvalMessages, haction, hpolicy, herror, hcounted]⟩

theorem Admitted.rotateKey_eq (h : Admitted E ctx st stx p signer action nonce balance r)
    (hms : p.msError = none) (haction : stx.transaction.action.resolved = .rotateKey newKey proof) :
    stx.transaction.action = .rotateKey newKey proof := by
  have hr : r.action = .rotateKey newKey proof := by rw [← haction, ← h.action_eq, h.prepared]
  have hrms : r.msError = none := by rw [← hms, h.prepared]
  have hunwrapped := h.unwrapped
  obtain ⟨tip, inner, -, -, hinner, -, rfl, -⟩ | ⟨inner, approvals, -, -, rfl, -, herror⟩ | ⟨-, -, rfl⟩ :=
    resolve_eq_ok h.resolved
  · simp [hr, isRotateKey] at hinner
  · simp [hrms, hr, multisigError, isRotateKey] at herror
  cases (hr : action = .rotateKey newKey proof)
  have hinner := unwrapTimestamp_eq_ok hunwrapped
  cases hcase : stx.transaction.action with
  | timestamped ms inner =>
    rw [hcase] at hinner hunwrapped
    cases (hinner : _ = inner)
    simp [unwrapTimestamp, isRotateKey] at hunwrapped
  | _ =>
    rw [hcase] at hinner
    exact hinner.symm

/-- A rotation goes through exactly when its proof verifies and the key is one the account may have. -/
theorem rotation_success_iff (hp : prepare E ctx L stx = .ok p) (hx : execute E ctx stx p L = .ok (x, status))
    (haction : stx.transaction.action = .rotateKey newKey proof) : status = .success ↔
      (pqRequiresHybridAuthority (L.account stx.transaction.signer) ctx = true → isHybridKey newKey = true) ∧
      newKey.verify E (rotationSigningBytes stx.transaction.signer stx.transaction.nonce newKey) proof = true := by
  obtain ⟨signer, action, nonce, balance, r, hadm⟩ := prepare_eq_ok hp
  have hholdings := authorize_holdings hadm.authorized
  have hms : p.msError = none := by rw [hadm.msError_eq, execError, haction]; rfl
  have hresolved : p.action = .rotateKey newKey proof := by rw [hadm.action_eq, haction]; rfl
  have hhybrid : p.requiresHybrid =
      pqRequiresHybridAuthority (L.account stx.transaction.signer) ctx := by
    rw [hadm.prepared]
    exact pqRequiresHybridAuthority_congr hholdings.1 hholdings.2
  simp only [execute, hms, dispatch, hresolved, hhybrid] at hx
  obtain ⟨s, harm, rfl⟩ := lift_eq_ok.mp hx
  unfold rotateKey at harm
  split at harm
  · rename_i hlegacy
    cases harm
    simp only [Bool.and_eq_true, Bool.not_eq_true'] at hlegacy
    simp [hlegacy.1, hlegacy.2]
  rename_i hlegacy
  simp only [Bool.and_eq_true, Bool.not_eq_true', not_and, Bool.not_eq_false] at hlegacy
  split at harm
  · rename_i hv
    cases harm
    simp only [Bool.not_eq_true'] at hv
    simp [hv]
  · rename_i hv
    cases harm
    simp only [Bool.not_eq_true', Bool.not_eq_false] at hv
    exact iff_of_true rfl ⟨hlegacy, hv⟩

/-- The message of an action that is not framed is that of a rotation. -/
theorem mem_actionMessages (h : m ∈ actionMessages D tx status) :
    D.Frames m ∨ status = .success ∧ ∃ newKey proof, tx.action.resolved = .rotateKey newKey proof := by
  unfold actionMessages at h
  split at h
  · rw [List.mem_singleton.mp h]
    exact .inl (D.frames_intent _)
  · rename_i newKey proof haction
    exact .inr ⟨rfl, newKey, proof, haction⟩
  · cases h

/-- In a context bound to `D`, every signature behind an accepted transaction is over a message that
determines `D`, and refusing all others changes nothing, unless the transaction runs on the approvals of a
multisig or installs a key. -/
theorem signatures_bound_iff (E : Env) (ctx : BlockContext) (D : SigningDomain) (L L' : Ledger)
    (stx : SignedTransaction) (receipt : Receipt) (hmode : ctx.txDomain = .bound D) (hD : D.Named)
    (h : applyTransaction E ctx L stx = .ok (L', receipt)) : (∃ receipt', applyTransaction
      (E.honoring (authorizing E.toCrypto ctx D L.toStores stx.transaction receipt.status)) ctx L stx =
        .ok (L', receipt')) ∧
    ((∀ m ∈ authorizing E.toCrypto ctx D L.toStores stx.transaction receipt.status, D.Binds m) ↔
      ¬ RunsOnApprovals E.toCrypto ctx L.toStores stx.transaction ∧
        ¬ RotatesKey E.toCrypto ctx L.toStores stx.transaction) := by
  refine ⟨applyTransaction_honoring hmode h, ?_⟩
  obtain ⟨p, x, status, hp, hx, -, rfl⟩ := applyTransaction_eq_ok h
  constructor
  · intro hbinds
    constructor
    · intro happrovals
      obtain ⟨inner, hm⟩ := approvalMessages_of_runsOnApprovals happrovals
      exact D.not_frames_approval _ _ _
        (hbinds _ (List.mem_cons_of_mem _ (List.mem_append_left _ hm))).1
    · rintro ⟨newKey, proof, haction, hhybrid, hv⟩
      obtain rfl := (rotation_success_iff hp hx haction).mpr ⟨hhybrid, hv⟩
      refine D.not_frames_rotation stx.transaction.signer stx.transaction.nonce newKey
        (hbinds _ ?_).1
      simp [authorizing, actionMessages, haction, Action.resolved, Action.untimed, Action.unwrapped]
  · rintro ⟨happrovals, hrotates⟩ m hm
    simp only [authorizing, List.mem_cons, List.mem_append] at hm
    obtain rfl | hm | hm := hm
    · exact (D.frames_transaction _).binds hD
    · exact absurd (mem_approvalMessages hm).1 happrovals
    obtain hframes | ⟨rfl, newKey, proof, hresolved⟩ := mem_actionMessages hm
    · exact hframes.binds hD
    obtain ⟨signer, action, nonce, balance, r, hadm⟩ := prepare_eq_ok hp
    have hms : p.msError = none := by
      rcases hms : p.msError with _ | reason
      · rfl
      simp only [execute, hms] at hx
      cases hx
    have haction := hadm.rotateKey_eq hms hresolved
    exact absurd ⟨newKey, proof, haction, (rotation_success_iff hp hx haction).mp rfl⟩ hrotates

/-! ## Two networks -/

def boundContext (D : SigningDomain) : BlockContext := { sampleContext with txDomain := .bound D }

/-- A transaction that names a new key, and one of a vault that carries an approval. -/
def rotation : SignedTransaction :=
  sampleTx "alice.sov" (.rotateKey sampleKey (.v1Ed25519 (FixedBytes.zero 64)))

def approvedTransfer : SignedTransaction :=
  sampleTx "vault.sov" (.multisigExec (.transfer ⟨"bob.sov"⟩ 5) [⟨0, .v1Ed25519 (FixedBytes.zero 64)⟩])

/-- The proof and the approval, made once: beside them only the two networks' own transaction signatures
verify. -/
def replayEnv : Env := sampleEnv.honoring
  ([rotationSigningBytes ⟨"alice.sov"⟩ 0 sampleKey,
    multisigSigningBytes ⟨"vault.sov"⟩ 0 (.transfer ⟨"bob.sov"⟩ 5)] ++
    [⟨"sov", Hash.zero⟩, ⟨"sov-test", Hash.zero⟩].flatMap fun D =>
      [rotation.transaction.signingBytesIn (some D), approvedTransfer.transaction.signingBytesIn (some D)])

/-- The same proof of possession and the same approval are good on both networks. -/
theorem unbound_signatures_replay : (⟨"sov", Hash.zero⟩ : SigningDomain) ≠ ⟨"sov-test", Hash.zero⟩ ∧
    ∀ D ∈ ([⟨"sov", Hash.zero⟩, ⟨"sov-test", Hash.zero⟩] : List SigningDomain), ∀ stx ∈ [rotation, approvedTransfer],
        ((applyTransaction replayEnv (boundContext D) vaultLedger stx).toOption.map fun r => r.2.status) =
          some .success ∧ ∃ m ∈ authorizing replayEnv.toCrypto (boundContext D) D vaultLedger.toStores stx.transaction
          .success, ¬ D.Binds m := by
  have hsuccess : ∀ D ∈ ([⟨"sov", Hash.zero⟩, ⟨"sov-test", Hash.zero⟩] : List SigningDomain),
      ∀ stx ∈ [rotation, approvedTransfer],
        ((applyTransaction replayEnv (boundContext D) vaultLedger stx).toOption.map fun r => r.2.status) =
          some .success ∧
        (rotationSigningBytes ⟨"alice.sov"⟩ 0 sampleKey ∈ authorizing replayEnv (boundContext D) D
            vaultLedger stx.transaction .success ∨
          multisigSigningBytes ⟨"vault.sov"⟩ 0 (.transfer ⟨"bob.sov"⟩ 5) ∈ authorizing replayEnv
            (boundContext D) D vaultLedger stx.transaction .success) := by decide +kernel
  refine ⟨by decide, fun D hD stx hstx => ?_⟩
  obtain ⟨hstatus, hm | hm⟩ := hsuccess D hD stx hstx
  · exact ⟨hstatus, _, hm, fun hbinds => D.not_frames_rotation _ _ _ hbinds.1⟩
  · exact ⟨hstatus, _, hm, fun hbinds => D.not_frames_approval _ _ _ hbinds.1⟩

/-- A transfer is good on its own network alone. -/
theorem bound_transfer_honored :
    ∃ r, applyTransaction sampleEnv (boundContext ⟨"sov", Hash.zero⟩) aliceFunded samplePayment = .ok r ∧
      ∀ m ∈ authorizing sampleCrypto (boundContext ⟨"sov", Hash.zero⟩) ⟨"sov", Hash.zero⟩ aliceFunded.toStores
        samplePayment.transaction r.2.status,
        SigningDomain.Binds ⟨"sov", Hash.zero⟩ m := by
  obtain ⟨r, hr⟩ := exists_of_toOption (x := applyTransaction sampleEnv
    (boundContext ⟨"sov", Hash.zero⟩) aliceFunded
    samplePayment) (by decide +kernel)
  have hnamed : SigningDomain.Named ⟨"sov", Hash.zero⟩ := by unfold SigningDomain.Named; decide
  refine ⟨r, hr, (signatures_bound_iff sampleEnv (boundContext ⟨"sov", Hash.zero⟩) ⟨"sov", Hash.zero⟩
    aliceFunded r.1 _ r.2 rfl hnamed hr).2.mpr ⟨?_, ?_⟩⟩
  · rintro ⟨inner, approvals, policy, haction, -⟩
    cases haction
  · rintro ⟨newKey, proof, haction, -⟩
    cases haction

end Runtime
end Sov
