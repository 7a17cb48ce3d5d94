import SovChain.Runtime.Escrows

/-!
# Pending proposals

A proposal waits in the ledger with the members who have approved it, as indices into the policy of its vault. Along a
chain these indices never come to mean anybody else (`pending_proposals_sound`): each was recorded by a transaction of
the member it names, and the policy has not been replaced since. A new proposal takes its id from the key and the nonce
of the proposer, though, and nonces are counted per account: from two accounts with one key it may come to be stored over
one that is pending, whose approvals are lost (`shared_key_drops_approval`, `proposal_keeps_pending_iff`).
-/

namespace Sov

/-! ## Dropping the proposals of a vault -/

namespace Ledger
variable {C : Crypto}

theorem foldl_removeProposal_proposals (ids : List Hash) (L : Ledger) :
    (ids.foldl (removeProposal C) L).proposals = ids.foldl OrdMap.erase L.proposals := by
  induction ids generalizing L with
  | nil => rfl
  | cons id rest ih => exact ih (L.removeProposal C id)

variable {account : AccountId}

theorem mem_proposalIdsFor {s : Stores} {id : Hash} :
    id ∈ proposalIdsFor s account ↔ ∃ prop, s.proposals.get? id = some prop ∧ prop.account = account := by
  simp only [proposalIdsFor, List.mem_map, List.mem_filter, decide_eq_true_eq, Prod.exists, exists_and_right,
    exists_eq_right, OrdMap.get?_eq_some_iff]

theorem get?_removeProposalsFor {L : Ledger} {id : Hash} {prop : MultisigProposal} :
    (L.removeProposalsFor C account).proposals.get? id = some prop ↔
      L.proposals.get? id = some prop ∧ prop.account ≠ account := by
  rw [removeProposalsFor, foldl_removeProposal_proposals, OrdMap.get?_foldl_erase]
  by_cases hmem : id ∈ proposalIdsFor L account
  · obtain ⟨prop', hprop', haccount⟩ := mem_proposalIdsFor.mp hmem
    simp only [hmem, if_true, reduceCtorEq, false_iff, hprop', Option.some.injEq]
    rintro ⟨rfl, hne⟩
    exact hne haccount
  · simp only [hmem, if_false, iff_self_and]
    exact fun hprop haccount => hmem (mem_proposalIdsFor.mpr ⟨prop, hprop, haccount⟩)

theorem multisig_removeProposalsFor {L : Ledger} : (L.removeProposalsFor C account).multisig = L.multisig := by
  have halters := Stores.Alters.foldl (K := [.proposal]) (C := C) (L := L) (l := proposalIdsFor L account)
    (g := fun id => .proposal id none) (by simp)
  exact halters.same (f := .multisig) (by simp)

end Ledger

namespace Runtime

/-! ## The arms -/

section Arms
variable {C : Crypto} {ctx : BlockContext} {sid account : AccountId} {key : PublicKey} {s s' : InFlight}
  {status : ExecutionStatus}

theorem setMultisig_eq_ok {requiresHybrid : Bool} {signers : List PublicKey} {threshold : U16}
    (h : setMultisig C sid requiresHybrid signers threshold s = .ok (s', status)) : (s' = s ∧ status ≠ .success) ∨
      status = .success ∧ signers.length ≤ maxMultisigSigners ∧
        s' = { s with ledger := (s.ledger.setMultisig C sid ⟨signers, threshold⟩).removeProposalsFor C sid } := by
  unfold setMultisig at h
  dsimp only at h
  split_ifs at h with hsize
  case neg =>
    cases h
    exact .inr ⟨rfl, not_lt.mp fun hlt => hsize (.inr hlt), rfl⟩
  all_goals
    cases h
    exact .inl ⟨rfl, nofun⟩

theorem executeFor_governance {action : Action} (h : executeFor C account action s = .ok (s', status)) :
    s'.ledger.multisig = s.ledger.multisig ∧ s'.ledger.proposals = s.ledger.proposals := by
  have halters := executeFor_alters s' status h
  exact ⟨halters.same (f := .multisig) (by simp), halters.same (f := .proposal) (by simp)⟩

/-- The member with `key` approves for `account`, which takes the list of approvals to `approvers`. -/
structure Tally (st : Stores) (key : PublicKey) (account : AccountId) (policy : Multisig) (idx : U16)
    (approvers : List U16) (met : Bool) : Prop where
  stored : st.multisig.get? account = some policy
  member : memberIndex policy key = some idx
  count : thresholdMet approvers policy = met

/-- A proposal that is not carried out at once is stored with the proposer's approval. -/
theorem proposeMultisig_eq_ok {nonce : U64} {action : Action}
    (h : proposeMultisig C ctx key nonce account action s = .ok (s', status)) :
    (s'.ledger.multisig = s.ledger.multisig ∧ s'.ledger.proposals = s.ledger.proposals ∧
        (status = .success → ∃ policy idx, Tally s.ledger key account policy idx [idx] true)) ∨
      status = .success ∧ ∃ policy idx, Tally s.ledger key account policy idx [idx] false ∧
        s' = { s with
          ledger := s.ledger.setProposal C (proposalId C account (PublicKey.codec.encode key) nonce
            (Action.codec.encode action)) ⟨account, Action.codec.encode action, [idx]⟩ } := by
  revert h
  refine proposeMultisig_cases (· = .ok (s', status) → _) (fun _ _ h => ?_)
    (fun policy idx _ hpolicy hmember hmet h => ?_) fun ha h => ?_
  · cases h
    exact .inl ⟨rfl, rfl, nofun⟩
  · cases h
    exact .inr ⟨rfl, policy, idx, ⟨hpolicy, hmember, hmet⟩, rfl⟩
  · obtain ⟨hmultisig, hproposals⟩ := executeFor_governance h
    obtain ⟨-, -, -, -, policy, idx, hpolicy, hmember, hmet⟩ := ha
    exact .inl ⟨hmultisig, hproposals, fun _ => ⟨policy, idx, hpolicy, hmember, hmet⟩⟩

theorem approveMultisig_eq_ok {proposal : Hash} (h : approveMultisig C ctx key account proposal s = .ok (s', status)) :
    (s'.ledger.multisig = s.ledger.multisig ∧ s'.ledger.proposals = s.ledger.proposals) ∨
      (s'.ledger.multisig = s.ledger.multisig ∧ s'.ledger.proposals = s.ledger.proposals.set proposal none) ∨
      status = .success ∧ ∃ prop policy idx hybridOnly, s.ledger.proposals.get? proposal = some prop ∧
        prop.account = account ∧ Tally s.ledger key account policy idx
          (addApprover (retainedApprovers policy hybridOnly prop.approvers) idx) false ∧
        s' = { s with
          ledger := s.ledger.setProposal C proposal
            { prop with approvers := addApprover (retainedApprovers policy hybridOnly prop.approvers) idx } } := by
  revert h
  refine approveMultisig_cases (· = .ok (s', status) → _) (fun _ _ h => ?_)
    (fun policy idx prop _ hpolicy hmember hprop haccount _ happrovers hmet h => ?_) fun inner prop _ _ _ h => ?_
  · cases h
    exact .inl ⟨rfl, rfl⟩
  · cases h
    subst happrovers
    exact .inr (.inr ⟨rfl, prop, policy, idx, _, hprop, haccount, ⟨hpolicy, hmember, hmet⟩, rfl⟩)
  rcases hexec : executeFor C account inner s with e | r
  · rw [hexec] at h
    cases h
  rw [hexec] at h
  cases h
  obtain ⟨hmultisig, hproposals⟩ := executeFor_governance hexec
  refine .inr (.inl ⟨hmultisig, ?_⟩)
  rw [← hproposals]
  rfl

theorem cancelMultisig_eq_ok {proposal : Hash} (h : cancelMultisig C ctx key account proposal s = .ok (s', status)) :
    s' = s ∨ s' = { s with ledger := s.ledger.removeProposal C proposal } := by
  unfold cancelMultisig at h
  split_ifs at h <;> cases h
  · exact .inl rfl
  · exact .inl rfl
  · exact .inl rfl
  · exact .inr rfl

end Arms

/-! ## One transaction -/

/-- The step gives `account` a policy. -/
def Step.Replaces (st : Step) (account : AccountId) : Prop :=
  st.receipt.status = .success ∧ st.tx.transaction.signer = account ∧
    ∃ signers threshold, st.tx.transaction.action.resolved = .setMultisig signers threshold

/-- How a transaction leaves policies and proposals. -/
inductive ApprovalStep (C : Crypto) (st : Step) : Prop
  | keep (hidle : ∀ account, ¬st.Replaces account) (hmultisig : st.after.multisig = st.before.multisig)
      (hproposals : st.after.proposals = st.before.proposals)
  | replace {p : Multisig} (hset : st.Replaces st.tx.transaction.signer)
      (hsize : p.signers.length ≤ maxMultisigSigners)
      (hmultisig : st.after.multisig = st.before.multisig.set st.tx.transaction.signer (some p))
      (hproposals : ∀ id prop, st.after.proposals.get? id = some prop ↔
        st.before.proposals.get? id = some prop ∧ prop.account ≠ st.tx.transaction.signer)
  | propose {account : AccountId} {action : Action} {policy : Multisig} {idx : U16}
      (haction : st.tx.transaction.action.resolved = .proposeMultisig account action)
      (hok : st.receipt.status = .success)
      (htally : Tally st.before.toStores st.tx.transaction.publicKey account policy idx [idx] false)
      (hmultisig : st.after.multisig = st.before.multisig)
      (hproposals : st.after.proposals = st.before.proposals.set
        (proposalId C account (PublicKey.codec.encode st.tx.transaction.publicKey) st.tx.transaction.nonce
          (Action.codec.encode action)) (some ⟨account, Action.codec.encode action, [idx]⟩))
  | approve {id : Hash} {prop : MultisigProposal} {policy : Multisig} {idx : U16} {hybridOnly : Bool}
      (haction : st.tx.transaction.action.resolved = .approveMultisig prop.account id)
      (hok : st.receipt.status = .success) (hprop : st.before.proposals.get? id = some prop)
      (htally : Tally st.before.toStores st.tx.transaction.publicKey prop.account policy idx
        (addApprover (retainedApprovers policy hybridOnly prop.approvers) idx) false)
      (hmultisig : st.after.multisig = st.before.multisig)
      (hproposals : st.after.proposals = st.before.proposals.set id
        (some { prop with approvers := addApprover (retainedApprovers policy hybridOnly prop.approvers) idx }))
  | drop {id : Hash} (hidle : ∀ account, ¬st.Replaces account) (hmultisig : st.after.multisig = st.before.multisig)
      (hproposals : st.after.proposals = st.before.proposals.set id none)

section Transactions
variable {E : Env} {st : Step}

theorem Step.not_replaces {account : AccountId}
    (h : ∀ signers threshold, st.tx.transaction.action.resolved ≠ .setMultisig signers threshold) :
    ¬st.Replaces account := by
  rintro ⟨-, -, signers, threshold, haction⟩
  exact h signers threshold haction

theorem Step.Valid.approvalStep (hvalid : st.Valid E) : ApprovalStep E st := by
  by_cases hfields : .proposal ∈ st.tx.transaction.action.resolved.fields
  · cases haction : st.tx.transaction.action.resolved <;> rw [haction] at hfields
    case setMultisig signers threshold =>
      obtain ⟨p, s, hp, hs, hL⟩ := applyTransaction_arm
        (a := fun p => setMultisig E st.tx.transaction.signer p.requiresHybrid signers threshold) hvalid
        (fun p x hp => by simp only [dispatch, hp, haction])
      have hstores := finish_stores hL
      rcases hs with ⟨rfl, hne⟩ | hs
      · exact .keep (fun _ hset => hne hset.1) (by rw [hstores]) (by rw [hstores])
      rcases setMultisig_eq_ok hs with ⟨rfl, hne⟩ | ⟨hok, hsize, rfl⟩
      · exact .keep (fun _ hset => hne hset.1) (by rw [hstores]) (by rw [hstores])
      refine ApprovalStep.replace (p := ⟨signers, threshold⟩) ⟨hok, rfl, signers, threshold, haction⟩ hsize ?_ fun id prop => ?_
      · rw [hstores]
        exact Ledger.multisig_removeProposalsFor
      · rw [hstores]
        exact Ledger.get?_removeProposalsFor
    case proposeMultisig account action =>
      have hidle : ∀ account, ¬st.Replaces account := fun _ => Step.not_replaces (by simp [haction])
      obtain ⟨p, s, hp, hs, hL⟩ := applyTransaction_arm
        (a := fun _ => proposeMultisig E st.ctx st.tx.transaction.publicKey st.tx.transaction.nonce account
          action) hvalid (fun p x hp => by simp only [dispatch, hp, haction])
      have hstores := finish_stores hL
      rcases hs with ⟨rfl, -⟩ | hs
      · exact .keep hidle (by rw [hstores]) (by rw [hstores])
      rcases proposeMultisig_eq_ok hs with ⟨hmultisig, hproposals, -⟩ | ⟨hok, policy, idx, htally, rfl⟩
      · exact .keep hidle (by rw [hstores]; exact hmultisig) (by rw [hstores]; exact hproposals)
      · exact .propose haction hok htally (by rw [hstores]; rfl) (by rw [hstores]; rfl)
    case approveMultisig account id =>
      have hidle : ∀ account, ¬st.Replaces account := fun _ => Step.not_replaces (by simp [haction])
      obtain ⟨p, s, hp, hs, hL⟩ := applyTransaction_arm
        (a := fun _ => approveMultisig E st.ctx st.tx.transaction.publicKey account id) hvalid
        (fun p x hp => by simp only [dispatch, hp, haction])
      have hstores := finish_stores hL
      rcases hs with ⟨rfl, -⟩ | hs
      · exact .keep hidle (by rw [hstores]) (by rw [hstores])
      rcases approveMultisig_eq_ok hs with ⟨hmultisig, hproposals⟩ | ⟨hmultisig, hproposals⟩ |
        ⟨hok, prop, policy, idx, hybridOnly, hprop, rfl, htally, rfl⟩
      · exact .keep hidle (by rw [hstores]; exact hmultisig) (by rw [hstores]; exact hproposals)
      · exact .drop hidle (by rw [hstores]; exact hmultisig) (by rw [hstores]; exact hproposals)
      · exact .approve haction hok hprop htally (by rw [hstores]; rfl) (by rw [hstores]; rfl)
    case cancelMultisig account id =>
      have hidle : ∀ account, ¬st.Replaces account := fun _ => Step.not_replaces (by simp [haction])
      obtain ⟨p, s, hp, hs, hL⟩ := applyTransaction_arm
        (a := fun _ => cancelMultisig E st.ctx st.tx.transaction.publicKey account id) hvalid
        (fun p x hp => by simp only [dispatch, hp, haction])
      have hstores := finish_stores hL
      rcases hs with ⟨rfl, -⟩ | hs
      · exact .keep hidle (by rw [hstores]) (by rw [hstores])
      rcases cancelMultisig_eq_ok hs with rfl | rfl
      · exact .keep hidle (by rw [hstores]) (by rw [hstores])
      · exact .drop hidle (by rw [hstores]; rfl) (by rw [hstores]; rfl)
    all_goals simp [Action.fields] at hfields
  · have hmultisig : .multisig ∉ st.tx.transaction.action.resolved.fields := by
      intro hmem
      cases haction : st.tx.transaction.action.resolved <;> rw [haction] at hfields hmem <;>
        simp [Action.fields] at hfields hmem
    refine .keep (fun _ => Step.not_replaces fun signers threshold haction => ?_)
      (applyTransaction_same (f := .multisig) hvalid hmultisig (by simp))
      (applyTransaction_same (f := .proposal) hvalid hfields (by simp))
    exact hfields (by simp [haction, Action.fields])

end Transactions

/-! ## Chains -/

/-- A member of a policy of the size the code allows is found at its index. -/
theorem memberIndex_eq_some {policy : Multisig} {key : PublicKey} {idx : U16} (h : memberIndex policy key = some idx)
    (hsize : policy.signers.length ≤ maxMultisigSigners) : policy.signers[idx.toNat]? = some key := by
  unfold memberIndex at h
  split_ifs at h with hmem
  cases h
  have hlt := List.idxOf_lt_length_iff.mpr hmem
  have hsmall : policy.signers.idxOf key < 2 ^ 16 := by
    rw [maxMultisigSigners] at hsize
    omega
  rw [BitVec.toNat_ofNat, Nat.mod_eq_of_lt hsmall, List.getElem?_eq_getElem hlt]
  exact congrArg some (List.getElem_idxOf hlt)

/-- The step records the approval of the member `idx` of `policy` for the proposal `id` of `account`: it proposes it or
approves it, signed with the key at that index. -/
structure Step.Records (C : Crypto) (st : Step) (id : Hash) (account : AccountId) (policy : Multisig) (idx : U16) :
    Prop where
  success : st.receipt.status = .success
  names : (∃ action, st.tx.transaction.action.resolved = .proposeMultisig account action ∧
      id = proposalId C account (PublicKey.codec.encode st.tx.transaction.publicKey) st.tx.transaction.nonce
        (Action.codec.encode action)) ∨
    st.tx.transaction.action.resolved = .approveMultisig account id
  stored : st.before.multisig.get? account = some policy
  signed : policy.signers[idx.toNat]? = some st.tx.transaction.publicKey

/-- The approval was recorded on the way, and the account has taken no policy since. -/
def Recorded (C : Crypto) (accepted : List Step) (id : Hash) (account : AccountId) (policy : Multisig) (idx : U16) :
    Prop :=
  ∃ earlier st later, accepted = earlier ++ st :: later ∧ st.Records C id account policy idx ∧
    ∀ st' ∈ later, ¬st'.Replaces account

/-- What holds of a proposal that waits. -/
structure Pending (C : Crypto) (accepted : List Step) (id : Hash) (prop : MultisigProposal) (policy : Multisig) :
    Prop where
  distinct : prop.approvers.Nodup
  short : prop.approvers.length < policy.threshold.toNat
  recorded : ∀ idx ∈ prop.approvers, Recorded C accepted id prop.account policy idx

/-- The policies are of the size allowed, and every proposal waits for the policy of its account. -/
structure ApprovalsTraced (C : Crypto) (accepted : List Step) (L : Ledger) : Prop where
  sized : ∀ account policy, L.multisig.get? account = some policy → policy.signers.length ≤ maxMultisigSigners
  pending : ∀ id prop, L.proposals.get? id = some prop →
    ∃ policy, L.multisig.get? prop.account = some policy ∧ Pending C accepted id prop policy

section Chains
variable {C : Crypto} {accepted : List Step} {st : Step} {id : Hash} {account : AccountId} {policy : Multisig}
  {idx : U16} {prop : MultisigProposal}

theorem Recorded.snoc (h : Recorded C accepted id account policy idx) (hst : ¬st.Replaces account) :
    Recorded C (accepted ++ [st]) id account policy idx := by
  obtain ⟨earlier, st', later, rfl, hrecords, hkept⟩ := h
  refine ⟨earlier, st', later ++ [st], by simp, hrecords, fun st'' hst'' => ?_⟩
  rcases List.mem_append.mp hst'' with hold | hnew
  · exact hkept st'' hold
  · rw [List.mem_singleton.mp hnew]
    exact hst

theorem recorded_last (h : st.Records C id account policy idx) : Recorded C (accepted ++ [st]) id account policy idx :=
  ⟨accepted, st, [], rfl, h, by simp⟩

theorem Pending.snoc (h : Pending C accepted id prop policy) (hst : ¬st.Replaces prop.account) :
    Pending C (accepted ++ [st]) id prop policy :=
  ⟨h.distinct, h.short, fun idx hidx => (h.recorded idx hidx).snoc hst⟩

variable {approvers : List U16} {hybridOnly : Bool}

theorem length_lt_of_thresholdMet (hlen : approvers.length < 2 ^ 16)
    (h : thresholdMet approvers policy = false) : approvers.length < policy.threshold.toNat := by
  rw [thresholdMet, decide_eq_false_iff_not, BitVec.toNat_ofNat, Nat.mod_eq_of_lt hlen] at h
  omega

theorem mem_retainedApprovers (h : idx ∈ retainedApprovers policy hybridOnly approvers) :
    idx ∈ approvers := by
  unfold retainedApprovers at h
  split_ifs at h
  · exact (List.mem_filter.mp h).1
  · exact h

theorem mem_addApprover {i : U16} (h : i ∈ addApprover approvers idx) : i ∈ approvers ∨ i = idx := by
  unfold addApprover at h
  split_ifs at h
  · exact .inl h
  · simpa using h

/-- A stored approval adds the signer to members who had approved. -/
theorem Pending.approve (h : Pending C accepted id prop policy)
    (hrecords : st.Records C id prop.account policy idx) (hst : ¬st.Replaces prop.account)
    (hmet : thresholdMet (addApprover (retainedApprovers policy hybridOnly prop.approvers) idx) policy = false) :
    Pending C (accepted ++ [st]) id
      { prop with approvers := addApprover (retainedApprovers policy hybridOnly prop.approvers) idx } policy := by
  have hretained : (retainedApprovers policy hybridOnly prop.approvers).Sublist prop.approvers := by
    unfold retainedApprovers
    split_ifs
    · exact List.filter_sublist
    · exact .refl _
  have hdistinct := h.distinct.sublist hretained
  have hadded : (addApprover (retainedApprovers policy hybridOnly prop.approvers) idx).length ≤
      prop.approvers.length + 1 := by
    have hle := hretained.length_le
    unfold addApprover
    split_ifs
    · omega
    · rw [List.length_append, List.length_singleton]
      omega
  refine ⟨?_, length_lt_of_thresholdMet ?_ hmet, fun i hi => ?_⟩
  · dsimp only
    unfold addApprover
    split_ifs with hmem
    · exact hdistinct
    · refine List.nodup_append.mpr ⟨hdistinct, List.nodup_singleton _, fun i hi j hj heq => hmem ?_⟩
      rw [← List.mem_singleton.mp hj, ← heq]
      exact hi
  · have hshort := h.short
    have hbound := policy.threshold.isLt
    dsimp only
    omega
  · rcases mem_addApprover hi with hi | rfl
    · exact (h.recorded i (mem_retainedApprovers hi)).snoc hst
    · exact recorded_last hrecords

/-- A step that leaves the policies alone: what was pending with another id still is. -/
theorem ApprovalsTraced.keep (h : ApprovalsTraced C accepted st.before) (hidle : ∀ account, ¬st.Replaces account)
    (hmultisig : st.after.multisig = st.before.multisig)
    (hproposals : ∀ id prop, st.after.proposals.get? id = some prop → st.before.proposals.get? id = some prop ∨
      ∃ policy, st.before.multisig.get? prop.account = some policy ∧ Pending C (accepted ++ [st]) id prop policy) :
    ApprovalsTraced C (accepted ++ [st]) st.after := by
  refine ⟨fun account policy hpolicy => h.sized account policy (hmultisig ▸ hpolicy), fun id prop hprop => ?_⟩
  rw [hmultisig]
  rcases hproposals id prop hprop with hold | hnew
  · obtain ⟨policy, hpolicy, hpending⟩ := h.pending id prop hold
    exact ⟨policy, hpolicy, hpending.snoc (hidle _)⟩
  · exact hnew

theorem ApprovalsTraced.step (h : ApprovalsTraced C accepted st.before) (hstep : ApprovalStep C st) :
    ApprovalsTraced C (accepted ++ [st]) st.after := by
  cases hstep with
  | keep hidle hmultisig hproposals =>
    exact h.keep hidle hmultisig fun id prop hprop => .inl (hproposals ▸ hprop)
  | drop hidle hmultisig hproposals =>
    refine h.keep hidle hmultisig fun id prop hprop => .inl ?_
    rw [hproposals, OrdMap.get?_set] at hprop
    split_ifs at hprop
    exact hprop
  | @replace policy hset hsize hmultisig hproposals =>
    refine ⟨fun account policy' hpolicy' => ?_, fun id prop hprop => ?_⟩
    · rw [hmultisig, OrdMap.get?_set] at hpolicy'
      split_ifs at hpolicy'
      · cases hpolicy'
        exact hsize
      · exact h.sized account policy' hpolicy'
    · obtain ⟨hold, hother⟩ := (hproposals id prop).mp hprop
      obtain ⟨policy', hpolicy', hpending⟩ := h.pending id prop hold
      refine ⟨policy', ?_, hpending.snoc fun hset' => hother hset'.2.1.symm⟩
      rw [hmultisig, OrdMap.get?_set, if_neg (Ne.symm hother)]
      exact hpolicy'
  | @propose account action policy idx haction hok htally hmultisig hproposals =>
    have hidle : ∀ account, ¬st.Replaces account := fun _ => Step.not_replaces (by simp [haction])
    refine h.keep hidle hmultisig fun id prop hprop => ?_
    rw [hproposals, OrdMap.get?_set] at hprop
    split_ifs at hprop with hid
    · cases hprop
      have hsigned := memberIndex_eq_some htally.member (h.sized _ _ htally.stored)
      refine .inr ⟨policy, htally.stored, List.nodup_singleton _, length_lt_of_thresholdMet (by simp) htally.count,
        fun i hi => ?_⟩
      rw [List.mem_singleton.mp hi]
      exact recorded_last ⟨hok, .inl ⟨action, haction, hid.symm⟩, htally.stored, hsigned⟩
    · exact .inl hprop
  | @approve id0 prop0 policy idx hybridOnly haction hok hprop0 htally hmultisig hproposals =>
    have hidle : ∀ account, ¬st.Replaces account := fun _ => Step.not_replaces (by simp [haction])
    refine h.keep hidle hmultisig fun id prop hprop => ?_
    rw [hproposals, OrdMap.get?_set] at hprop
    split_ifs at hprop with hid
    · cases hprop
      subst hid
      obtain ⟨policy', hpolicy', hpending⟩ := h.pending _ _ hprop0
      cases hpolicy'.symm.trans htally.stored
      have hsigned := memberIndex_eq_some htally.member (h.sized _ _ htally.stored)
      exact .inr ⟨policy, htally.stored,
        hpending.approve ⟨hok, .inr haction, htally.stored, hsigned⟩ (hidle _) htally.count⟩
    · exact .inl hprop

/-- Along a chain every pending proposal is of an account with a policy, has fewer approvals than the threshold, from
distinct members, and each was recorded by a transaction of the member under the policy the account still has. -/
theorem pending_proposals_sound (E : Env) (config : GenesisConfig) (g : Genesis) (height : ℕ) (accepted : List Step)
    (L : Ledger) (hg : config.build E.toCrypto = .ok g) (h : Chained E g.ledger 0 height accepted L) (id : Hash)
    (prop : MultisigProposal) (hprop : L.proposals.get? id = some prop) :
    ∃ policy, L.multisig.get? prop.account = some policy ∧ prop.approvers.Nodup ∧
      prop.approvers.length < policy.threshold.toNat ∧ ∀ idx ∈ prop.approvers, idx.toNat < policy.signers.length ∧
        Recorded E.toCrypto accepted id prop.account policy idx := by
  have htraced : ApprovalsTraced E accepted L := by
    refine Chained.induct (I := fun _ accepted L => ApprovalsTraced E accepted L) ⟨?_, ?_⟩
      (fun hreward hI => ?_) (fun _ hvalid hI => hI.step hvalid.approvalStep) h
    · rw [GenesisConfig.build_stores hg]
      intro account policy hpolicy
      cases hpolicy
    · rw [GenesisConfig.build_stores hg]
      intro id prop hprop
      cases hprop
    · have hstores := applyCoinbase_stores hreward
      exact ⟨by rw [hstores]; exact hI.sized, by rw [hstores]; exact hI.pending⟩
  obtain ⟨policy, hpolicy, hpending⟩ := htraced.pending id prop hprop
  refine ⟨policy, hpolicy, hpending.distinct, hpending.short, fun idx hidx => ?_⟩
  obtain ⟨earlier, st, later, hsplit, hrecords, hkept⟩ := hpending.recorded idx hidx
  exact ⟨(List.getElem?_eq_some_iff.mp hrecords.signed).1, earlier, st, later, hsplit, hrecords, hkept⟩

theorem sample_proposal_sound :
    ∃ L prop policy, Chained sampleEnv treasury 0 1 (treasurySteps treasuryTxs) L ∧
      L.proposals.get? pendingProposal = some prop ∧ prop.approvers = [0] ∧ L.multisig.get? prop.account = some policy ∧
      Recorded sampleCrypto (treasurySteps treasuryTxs) pendingProposal prop.account
        policy 0 := by
  have hrun : (executeBlock sampleEnv sampleContext treasury treasuryTxs).toOption.map (fun r =>
      (r.1.proposals.get? pendingProposal).map MultisigProposal.approvers) = some (some [0]) := by decide +kernel
  obtain ⟨⟨L, receipts⟩, hL, hpending⟩ := exists_of_map_toOption hrun
  obtain ⟨prop, hprop, happrovers⟩ := Option.map_eq_some_iff.mp hpending
  have hchain := chained_treasurySteps hL
  obtain ⟨policy, hpolicy, -, -, hrecorded⟩ :=
    pending_proposals_sound sampleEnv treasuryGenesis _ 1 _ L rfl hchain pendingProposal prop hprop
  refine ⟨L, prop, policy, hchain, hprop, happrovers, hpolicy, (hrecorded 0 ?_).2⟩
  rw [happrovers]
  decide

end Chains

/-! ## A new proposal beside the pending ones -/

/-- What was pending still is, with its action and its approvals. -/
def KeepsProposals (st st' : Stores) : Prop :=
  ∀ id prop, st.proposals.get? id = some prop → ∃ prop', st'.proposals.get? id = some prop' ∧
    prop'.action = prop.action ∧ prop'.approvers = prop.approvers

/-- The proposal is to be stored under the id of one that is pending for another action or with other approvals. The id
is made of the vault, the key and the nonce of the proposer and the action, and two accounts may have one key. -/
def Overwrites (C : Crypto) (st : Stores) (tx : Transaction) (account : AccountId) (action : Action) : Prop :=
  ∃ policy idx prop, Tally st tx.publicKey account policy idx [idx] false ∧
    st.proposals.get? (proposalId C account (PublicKey.codec.encode tx.publicKey) tx.nonce
      (Action.codec.encode action)) = some prop ∧
    ¬(prop.action = Action.codec.encode action ∧ prop.approvers = [idx])

/-- A proposal leaves the pending ones alone unless it is stored over one of them. -/
theorem proposal_keeps_pending_iff (E : Env) (st : Step) (account : AccountId) (action : Action)
    (hvalid : st.Valid E) (haction : st.tx.transaction.action.resolved = .proposeMultisig account action)
    (hok : st.receipt.status = .success) : KeepsProposals st.before.toStores st.after.toStores ↔
      ¬Overwrites E.toCrypto st.before.toStores st.tx.transaction account action := by
  obtain ⟨p, s, hp, hs, hL⟩ := applyTransaction_arm
    (a := fun _ => proposeMultisig E st.ctx st.tx.transaction.publicKey st.tx.transaction.nonce account
      action) hvalid (fun p x hp => by simp only [dispatch, hp, haction])
  have hstores := finish_stores hL
  rcases hs with ⟨-, hne⟩ | hs
  · exact absurd hok hne
  rcases proposeMultisig_eq_ok hs with ⟨-, hproposals, hmet⟩ | ⟨-, policy, idx, htally, rfl⟩
  · -- the proposal is carried out at once
    obtain ⟨policy, idx, htally⟩ := hmet hok
    have hkeeps : KeepsProposals st.before st.after := by
      intro id prop hprop
      rw [hstores]
      exact ⟨prop, by rw [hproposals]; exact hprop, rfl, rfl⟩
    refine iff_of_true hkeeps ?_
    rintro ⟨policy', idx', prop, htally', -, -⟩
    cases htally.stored.symm.trans htally'.stored
    cases htally.member.symm.trans htally'.member
    exact absurd (htally.count.symm.trans htally'.count) (by decide)
  · have hset : st.after.proposals = st.before.proposals.set
        (proposalId E account (PublicKey.codec.encode st.tx.transaction.publicKey) st.tx.transaction.nonce
          (Action.codec.encode action)) (some ⟨account, Action.codec.encode action, [idx]⟩) := by
      rw [hstores]
      rfl
    constructor
    · rintro hkeeps ⟨policy', idx', prop, htally', hprop, hother⟩
      cases htally.stored.symm.trans htally'.stored
      cases htally.member.symm.trans htally'.member
      obtain ⟨prop', hprop', hsame, happrovers⟩ := hkeeps _ prop hprop
      rw [hset, OrdMap.get?_set_self] at hprop'
      cases hprop'
      exact hother ⟨hsame.symm, happrovers.symm⟩
    · intro hnot id prop hprop
      rw [hset, OrdMap.get?_set]
      split_ifs with hid
      · subst hid
        have hsame : prop.action = Action.codec.encode action ∧ prop.approvers = [idx] := by
          by_contra hother
          exact hnot ⟨policy, idx, prop, htally, hprop, hother⟩
        exact ⟨_, rfl, hsame.1.symm, hsame.2.symm⟩
      · exact ⟨prop, hprop, rfl, rfl⟩

/-- Two of the accounts have one key. -/
def sharedGenesis : GenesisConfig :=
  { treasuryGenesis with
    accounts := [⟨⟨"vault.sov"⟩, memberKey 0, 3⟩, ⟨⟨"bob.sov"⟩, memberKey 1, 0⟩, ⟨⟨"carol.sov"⟩, memberKey 2, 0⟩,
      ⟨⟨"dave.sov"⟩, memberKey 1, 0⟩] }

def sharedLedger : Ledger := sharedGenesis.accounts.foldl (GenesisConfig.fund sampleCrypto) (Ledger.new sampleCrypto)

def samplePropose (signer : String) : SignedTransaction :=
  keyedTx (memberKey 1) signer (.proposeMultisig ⟨"vault.sov"⟩ (.transfer ⟨"bob.sov"⟩ 5))

/-- Three members have to agree; the first proposes and the second approves. -/
def twoApprovals : List SignedTransaction :=
  [keyedTx (memberKey 0) "vault.sov" (.setMultisig [memberKey 1, memberKey 2, memberKey 3] 3),
   samplePropose "bob.sov",
   keyedTx (memberKey 2) "carol.sov" (.approveMultisig ⟨"vault.sov"⟩ pendingProposal)]

/-- The second member proposes as well. -/
def laterPropose : SignedTransaction :=
  numberedTx (memberKey 2) "carol.sov" 1 (.proposeMultisig ⟨"vault.sov"⟩ (.transfer ⟨"bob.sov"⟩ 5))

/-- The steps of a block with one more transaction. -/
def sharedSteps (last : SignedTransaction) : List Step :=
  blockSteps sampleEnv sampleContext sharedLedger (twoApprovals ++ [last])

theorem later_proposal_keeps_pending : ∃ L st, Chained sampleEnv sharedLedger 0 1 (sharedSteps laterPropose) L ∧
      st ∈ sharedSteps laterPropose ∧ st.tx = laterPropose ∧
      (st.before.proposals.get? pendingProposal).map MultisigProposal.approvers = some [0, 1] ∧
      KeepsProposals st.before.toStores st.after.toStores := by
  obtain ⟨⟨L, receipts⟩, hL⟩ := exists_of_toOption (x := executeBlock sampleEnv sampleContext sharedLedger
    (twoApprovals ++ [laterPropose])) (by decide +kernel)
  have hlast : (sharedSteps laterPropose).any
      (fun st => decide (st.tx = laterPropose ∧ st.receipt.status = .success ∧
        (st.before.proposals.get? pendingProposal).map MultisigProposal.approvers = some [0, 1] ∧
        st.before.proposals.get? (proposalId sampleCrypto ⟨"vault.sov"⟩ (PublicKey.codec.encode (memberKey 2)) 1
          (Action.codec.encode (.transfer ⟨"bob.sov"⟩ 5))) = none)) = true := by decide +kernel
  have hchain : Chained sampleEnv sharedLedger 0 1 (sharedSteps laterPropose) L := .block .start rfl hL
  obtain ⟨st, hst, hproposes⟩ := List.any_eq_true.mp hlast
  obtain ⟨htx, hok, hpending, hnone⟩ := of_decide_eq_true hproposes
  refine ⟨L, st, hchain, hst, htx, hpending, (proposal_keeps_pending_iff sampleEnv st ⟨"vault.sov"⟩
    (.transfer ⟨"bob.sov"⟩ 5) (hchain.valid st hst) (by rw [htx]; rfl) hok).mpr ?_⟩
  rintro ⟨policy, idx, prop, -, hprop, -⟩
  rw [htx] at hprop
  cases hnone.symm.trans hprop

/-- The other account of the first member proposes the same with its own nonce zero, and the second member's approval is
gone. -/
theorem shared_key_drops_approval : ∃ g L, sharedGenesis.build sampleCrypto = .ok g ∧
      Chained sampleEnv g.ledger 0 1 (sharedSteps (samplePropose "dave.sov")) L ∧
      ∃ st ∈ sharedSteps (samplePropose "dave.sov"), st.tx = samplePropose "dave.sov" ∧ st.receipt.status = .success ∧
        (st.before.proposals.get? pendingProposal).map MultisigProposal.approvers = some [0, 1] ∧
        (st.after.proposals.get? pendingProposal).map MultisigProposal.approvers = some [0] := by
  obtain ⟨⟨L, receipts⟩, hL⟩ := exists_of_toOption (x := executeBlock sampleEnv sampleContext sharedLedger
    (twoApprovals ++ [samplePropose "dave.sov"])) (by decide +kernel)
  have hlast : (sharedSteps (samplePropose "dave.sov")).any
      (fun st => decide (st.tx = samplePropose "dave.sov" ∧ st.receipt.status = .success ∧
        (st.before.proposals.get? pendingProposal).map MultisigProposal.approvers = some [0, 1] ∧
        (st.after.proposals.get? pendingProposal).map MultisigProposal.approvers = some [0])) = true := by
    decide +kernel
  obtain ⟨st, hst, hdrops⟩ := List.any_eq_true.mp hlast
  exact ⟨_, L, rfl, .block .start rfl hL, st, hst, of_decide_eq_true hdrops⟩

end Runtime
end Sov
