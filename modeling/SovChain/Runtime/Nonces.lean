import SovChain.Runtime.Standing

/-!
# Nonces

The signer's account is a copy that the dispatch works on beside the ledger's own, and credits, proposals
and intents write accounts too. None of them touches a nonce: it moves when a transaction is admitted, by
one, and only the signer's. So the nonces accepted along a chain count each signer's transactions.
-/

namespace Sov
namespace Ledger

/-- The nonce of an account as a number. -/
def nonce (L : Ledger) (id : AccountId) : ℕ := (L.account id).nonce.toNat

end Ledger

section Effects
variable {C : Crypto} {G : Grant} {sid : AccountId} {s s' : InFlight}

theorem Effect.signer_nonce (h : Effect C sid G s s') : s'.signer.nonce = s.signer.nonce := by
  cases h with
  | signer _ hn => exact hn
  | _ => rfl

theorem Effects.nonces (h : Effects C sid G s s') :
    (∀ id, s'.ledger.nonce id = s.ledger.nonce id) ∧ s'.signer.nonce = s.signer.nonce := by
  refine ⟨fun id => congrArg (fun a => a.nonce.toNat) (h.standing id), ?_⟩
  induction h with
  | refl => rfl
  | tail _ hstep ih => exact hstep.signer_nonce.trans ih

end Effects

namespace Runtime
variable {E : Env} {ctx : BlockContext} {stx : SignedTransaction} {L L' : Ledger} {receipt : Receipt}

theorem authorize_nonce {C : Crypto} {st : Stores} {tx : Transaction} {signer : Account}
    (h : authorize C st tx = .ok signer) : signer.nonce = (st.account tx.signer).nonce := by
  obtain ⟨policy, -, -, -, rfl⟩ | ⟨-, -, rfl⟩ | ⟨-, -, rfl, -⟩ := authorize_eq_ok h
  all_goals rfl

/-- An admitted transaction carries the signer's nonce, and the copy in flight has the next one. -/
theorem prepare_nonce {st : Stores} {p : Prepared} (h : prepare E ctx st stx = .ok p) :
    stx.transaction.nonce = (st.account stx.transaction.signer).nonce ∧
      p.signer.nonce.toNat = (st.account stx.transaction.signer).nonce.toNat + 1 := by
  obtain ⟨signer, action, nonce, balance, r, hadm⟩ := prepare_eq_ok h
  have hsame := authorize_nonce hadm.authorized
  have hnext := BitVec.checkedAdd_eq_some.mp hadm.next_nonce
  refine ⟨hadm.nonce_eq.trans hsame, ?_⟩
  rw [hadm.prepared, ← hsame]
  exact hnext.symm

theorem applyTransaction_nonce (h : applyTransaction E ctx L stx = .ok (L', receipt)) :
    stx.transaction.nonce.toNat = L.nonce stx.transaction.signer ∧
      ∀ id, L'.nonce id = L.nonce id + if stx.transaction.signer = id then 1 else 0 := by
  obtain ⟨p, x, status, hp, hx, hL, -⟩ := applyTransaction_eq_ok h
  have hG := covers_txGrant E ctx L stx.transaction
  rw [← prepare_action hp] at hG
  obtain ⟨hothers, hsigner⟩ := (execute_effects hp hG hx).nonces
  obtain ⟨heq, hnext⟩ := prepare_nonce hp
  refine ⟨congrArg BitVec.toNat heq, fun id => ?_⟩
  obtain ⟨b, hb, -⟩ := finish_account hL id
  rw [Ledger.nonce, hb]
  by_cases hid : id = stx.transaction.signer
  · subst hid
    rw [if_pos rfl, if_pos rfl, hsigner]
    exact hnext
  · rw [if_neg hid, if_neg (Ne.symm hid)]
    exact hothers id

theorem applyCoinbase_nonce {reward : Balance} (h : applyCoinbase E ctx L = .ok (L', reward))
    (id : AccountId) : L'.nonce id = L.nonce id := by
  obtain ⟨-, ⟨-, rfl⟩ | ⟨L1, n, hcredit, -, rfl⟩⟩ := applyCoinbase_eq_ok h
  · rfl
  obtain ⟨b, hb, -⟩ := credit_account hcredit id
  change (L1.account id).nonce.toNat = (L.account id).nonce.toNat
  rw [hb]

end Runtime

/-! ## Along a chain -/

/-- The transactions of one signer in a list. -/
def sentBy (txs : List SignedTransaction) (id : AccountId) : ℕ :=
  txs.countP fun stx => decide (stx.transaction.signer = id)

@[simp] theorem sentBy_nil (id : AccountId) : sentBy [] id = 0 := rfl

@[simp] theorem sentBy_append (xs ys : List SignedTransaction) (id : AccountId) :
    sentBy (xs ++ ys) id = sentBy xs id + sentBy ys id := List.countP_append

theorem sentBy_cons (stx : SignedTransaction) (txs : List SignedTransaction) (id : AccountId) :
    sentBy (stx :: txs) id = sentBy txs id + if stx.transaction.signer = id then 1 else 0 := by
  simp [sentBy, List.countP_cons]

/-- Every transaction carries the number of earlier ones of its signer, counted from `n`. -/
def Numbered (n : AccountId → ℕ) (txs : List SignedTransaction) : Prop :=
  ∀ earlier stx later, txs = earlier ++ stx :: later →
    stx.transaction.nonce.toNat = n stx.transaction.signer + sentBy earlier stx.transaction.signer

namespace Numbered
variable {n n' : AccountId → ℕ} {xs ys : List SignedTransaction} {stx : SignedTransaction}

theorem nil : Numbered n [] := fun earlier stx later h => by simp at h

theorem append (hx : Numbered n xs) (hy : Numbered n' ys) (hn : ∀ id, n' id = n id + sentBy xs id) :
    Numbered n (xs ++ ys) := by
  intro earlier stx later h
  obtain ⟨rest, rfl, hys⟩ | ⟨rest, rfl, hrest⟩ := List.append_eq_append_iff.mp h
  · rw [hy rest stx later hys, hn, sentBy_append, Nat.add_assoc]
  rcases rest with _ | ⟨head, rest⟩
  · rw [hy [] stx later hrest.symm, hn]
    simp
  obtain ⟨rfl, rfl⟩ := List.cons.inj hrest
  exact hx earlier stx rest rfl

theorem cons (h : stx.transaction.nonce.toNat = n stx.transaction.signer) (hx : Numbered n' xs)
    (hn : ∀ id, n' id = n id + if stx.transaction.signer = id then 1 else 0) : Numbered n (stx :: xs) := by
  have hone : Numbered n [stx] := by
    intro earlier stx' later heq
    obtain ⟨rfl, heq⟩ | ⟨rest, rfl, heq⟩ := List.cons_eq_append_iff.mp heq
    · obtain ⟨rfl, -⟩ := List.cons.inj heq
      exact h
    · simp at heq
  exact hone.append hx fun id => by rw [hn, sentBy_cons, sentBy_nil, Nat.zero_add]

/-- Two transactions of one signer carry different nonces: the later one has counted the earlier. -/
theorem nodup (h : Numbered n xs) : (xs.map fun stx => (stx.transaction.signer, stx.transaction.nonce)).Nodup := by
  rw [List.Nodup, List.pairwise_map, List.pairwise_iff_getElem]
  intro i j hi hj hij heq
  obtain ⟨hsigner, hnonce⟩ := Prod.mk.inj heq
  have hsplit : ∀ k (hk : k < xs.length), xs = xs.take k ++ xs[k] :: xs.drop (k + 1) := fun k hk => by
    rw [← List.drop_eq_getElem_cons hk, List.take_append_drop]
  have h1 := h _ _ _ (hsplit i hi)
  have h2 := h _ _ _ (hsplit j hj)
  -- What comes before the later one is what comes before the earlier, the earlier itself and the rest.
  have htake : xs.take j = xs.take i ++ xs[i] :: (xs.take j).drop (i + 1) := by
    have hlen : i < (xs.take j).length := by rw [List.length_take]; omega
    have := List.take_append_drop i (xs.take j)
    rw [List.drop_eq_getElem_cons hlen, List.take_take, List.getElem_take, Nat.min_eq_left hij.le] at this
    exact this.symm
  rw [htake, sentBy_append, sentBy_cons, if_pos hsigner, ← hsigner] at h2
  rw [hnonce] at h1
  omega

end Numbered

namespace Runtime
variable {E : Env} {ctx : BlockContext} {L L' : Ledger} {txs : List SignedTransaction}
  {receipts : List Receipt}

/-- The nonces follow the transactions. -/
def Counts (txs : List SignedTransaction) (L L' : Ledger) : Prop :=
  Numbered L.nonce txs ∧ ∀ id, L'.nonce id = L.nonce id + sentBy txs id

theorem applyTransactions_counts (h : applyTransactions E ctx L txs = .ok (L', receipts)) : Counts txs L L' := by
  induction txs generalizing L L' receipts with
  | nil =>
    cases h
    exact ⟨.nil, fun _ => rfl⟩
  | cons stx rest ih =>
    obtain ⟨⟨L1, receipt⟩, hstx, h⟩ := bind_eq_ok.mp h
    obtain ⟨⟨L2, tail⟩, hrest, h⟩ := bind_eq_ok.mp h
    cases h
    obtain ⟨hnonce, hstep⟩ := applyTransaction_nonce hstx
    obtain ⟨hnumbered, hcount⟩ := ih hrest
    exact ⟨.cons hnonce hnumbered hstep, fun id => by rw [hcount, hstep, sentBy_cons]; omega⟩

theorem executeBlock_counts (h : executeBlock E ctx L txs = .ok (L', receipts)) : Counts txs L L' := by
  obtain ⟨⟨L1, reward⟩, hcoinbase, h⟩ := bind_eq_ok.mp h
  have hsame : L1.nonce = L.nonce := funext (applyCoinbase_nonce hcoinbase)
  have hcounts := applyTransactions_counts h
  rwa [Counts, hsame] at hcounts

/-- The ledger after executing blocks from `G`, with the transactions accepted so far, oldest first. -/
inductive Accepted (E : Env) (G : Ledger) : List SignedTransaction → Ledger → Prop
  | genesis : Accepted E G [] G
  | block {txs block : List SignedTransaction} {L L' : Ledger} {ctx : BlockContext} {receipts : List Receipt}
      (h : Accepted E G txs L) (hx : executeBlock E ctx L block = .ok (L', receipts)) :
      Accepted E G (txs ++ block) L'

theorem Accepted.counts {G : Ledger} (h : Accepted E G txs L) : Counts txs G L := by
  induction h with
  | genesis => exact ⟨.nil, fun _ => rfl⟩
  | block _ hx ih =>
    obtain ⟨hnumbered, hcount⟩ := executeBlock_counts hx
    exact ⟨ih.1.append hnumbered ih.2, fun id => by rw [hcount, ih.2, sentBy_append, Nat.add_assoc]⟩

/-- Each accepted transaction moves its signer's nonce by one and no other. Along a chain, the nonce of a
transaction is the number of earlier ones of its signer on top of the nonce at genesis, and no pair of
signer and nonce is accepted twice. -/
theorem nonces_exact {G : Ledger} (h : Accepted E G txs L) :
    (∀ ctx L₁ L₂ stx receipt, applyTransaction E ctx L₁ stx = .ok (L₂, receipt) →
      (L₂.account stx.transaction.signer).nonce.toNat = (L₁.account stx.transaction.signer).nonce.toNat + 1 ∧
        ∀ id, id ≠ stx.transaction.signer → (L₂.account id).nonce = (L₁.account id).nonce) ∧
    (txs.map fun stx => (stx.transaction.signer, stx.transaction.nonce)).Nodup ∧
    ∀ earlier stx later, txs = earlier ++ stx :: later →
      stx.transaction.nonce.toNat = (G.account stx.transaction.signer).nonce.toNat +
        earlier.countP fun stx' => decide (stx'.transaction.signer = stx.transaction.signer) := by
  refine ⟨fun ctx L₁ L₂ stx receipt hstx => ?_, h.counts.1.nodup, h.counts.1⟩
  obtain ⟨-, hstep⟩ := applyTransaction_nonce hstx
  refine ⟨?_, fun id hid => BitVec.eq_of_toNat_eq ?_⟩
  · have hsigner := hstep stx.transaction.signer
    rwa [if_pos rfl] at hsigner
  · have hother := hstep id
    rwa [if_neg (Ne.symm hid), Nat.add_zero] at hother

/-- The second transfer of one signer in one block. -/
def secondTransfer : SignedTransaction :=
  { sampleTx "alice.sov" (.transfer ⟨"bob.sov"⟩ 1) with transaction.nonce := 1 }

theorem nonces_exact_two_transfers : ∃ L, Accepted sampleEnv aliceFunded
        [samplePayment, secondTransfer] L ∧ secondTransfer.transaction.nonce.toNat =
        (aliceFunded.account ⟨"alice.sov"⟩).nonce.toNat + 1 := by
  obtain ⟨⟨L, receipts⟩, hL⟩ := exists_of_toOption (x := executeBlock sampleEnv sampleContext aliceFunded
    [samplePayment, secondTransfer]) (by decide +kernel)
  have hrun := Accepted.block .genesis hL
  exact ⟨L, hrun, (nonces_exact hrun).2.2 [_] _ [] rfl⟩

end Runtime
end Sov
