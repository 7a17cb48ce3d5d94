import SovChain.Chain.Genesis
import SovChain.Runtime.Dispatch

/-!
# Chains of blocks, transaction by transaction

`Chained` is a chain of executed blocks of consecutive heights together with the transactions accepted on the way,
each with the ledger before and after it. `Chained.induct` is its induction: what holds at the start and is kept by
a reward and by a transaction holds along the chain.
-/

namespace Sov
namespace GenesisConfig
variable {C : Crypto} {config : GenesisConfig}

theorem build_stores {g : Genesis} (h : config.build C = .ok g) :
    g.ledger.toStores = { (Ledger.new C).toStores with accounts := g.ledger.accounts } := by
  have hset : ∀ (L : Ledger) (id : AccountId) (account : Account),
      L.toStores = { (Ledger.new C).toStores with accounts := L.accounts } →
      (L.setAccount C id account).toStores =
        { (Ledger.new C).toStores with accounts := (L.setAccount C id account).accounts } := by
    intro L id account hL
    have hsame : (L.setAccount C id account).toStores =
        { L.toStores with accounts := (L.setAccount C id account).accounts } := rfl
    rw [hsame, hL]
  refine build_induct (I := fun _ L => L.toStores = { (Ledger.new C).toStores with accounts := L.accounts }) rfl
    (fun a _ L hL => hset L _ _ hL) (fun hv hL => ?_) h
  obtain ⟨-, locked, -, rfl⟩ := vest_eq_ok hv
  exact hset _ _ _ hL

end GenesisConfig

namespace Runtime

/-- An accepted transaction with the ledger before and after it. -/
structure Step where
  ctx : BlockContext
  before : Ledger
  tx : SignedTransaction
  after : Ledger
  receipt : Receipt

/-- The step is what the code does. -/
def Step.Valid (E : Env) (st : Step) : Prop :=
  applyTransaction E st.ctx st.before st.tx = .ok (st.after, st.receipt)

/-- The steps of applying transactions in order. -/
def steps (E : Env) (ctx : BlockContext) (L : Ledger) : List SignedTransaction → List Step
  | [] => []
  | stx :: rest =>
    match applyTransaction E ctx L stx with
    | .error _ => []
    | .ok (L', receipt) => ⟨ctx, L, stx, L', receipt⟩ :: steps E ctx L' rest

/-- The steps of executing a block: the reward comes before the first. -/
def blockSteps (E : Env) (ctx : BlockContext) (L : Ledger) (txs : List SignedTransaction) : List Step :=
  match applyCoinbase E.toCrypto ctx L with
  | .error _ => []
  | .ok (L, _) => steps E ctx L txs

/-- Blocks executed one height after the other on top of `G`, which stands at height `base`: the height reached, the
transactions accepted, oldest first, and the ledger. -/
inductive Chained (E : Env) (G : Ledger) (base : ℕ) : ℕ → List Step → Ledger → Prop
  | start : Chained E G base base [] G
  | block {height : ℕ} {accepted : List Step} {L L' : Ledger} {ctx : BlockContext}
      {txs : List SignedTransaction} {receipts : List Receipt} (h : Chained E G base height accepted L)
      (hheight : ctx.height.toNat = height + 1) (hx : executeBlock E ctx L txs = .ok (L', receipts)) :
      Chained E G base (height + 1) (accepted ++ blockSteps E ctx L txs) L'

variable {E : Env} {G L L' : Ledger} {base height : ℕ} {ctx : BlockContext} {accepted : List Step}
  {txs : List SignedTransaction} {receipts : List Receipt}

theorem applyCoinbase_stores {C : Crypto} {reward : Balance} (h : applyCoinbase C ctx L = .ok (L', reward)) :
    L'.toStores = { L.toStores with accounts := L'.accounts, minedEmitted := L'.minedEmitted } := by
  obtain ⟨-, ⟨-, rfl⟩ | ⟨L1, n, hcredit, -, rfl⟩⟩ := applyCoinbase_eq_ok h
  · rfl
  change ({ L1.toStores with minedEmitted := n } : Stores) = _
  rw [credit_stores hcredit]
  rfl

theorem applyCoinbase_account {C : Crypto} {reward : Balance} (h : applyCoinbase C ctx L = .ok (L', reward))
    (id : AccountId) : ∃ b : Balance, L'.account id = { L.account id with balance := b } := by
  obtain ⟨-, ⟨-, rfl⟩ | ⟨L1, n, hcredit, -, rfl⟩⟩ := applyCoinbase_eq_ok h
  · exact ⟨_, rfl⟩
  obtain ⟨b, hb, -⟩ := credit_account hcredit id
  exact ⟨b, hb⟩

theorem applyTransactions_induct {I : List Step → Ledger → Prop}
    (step : ∀ {accepted : List Step} {st : Step}, st.ctx = ctx → st.Valid E → I accepted st.before →
      I (accepted ++ [st]) st.after) (hI : I accepted L) (h : applyTransactions E ctx L txs = .ok (L', receipts)) :
    I (accepted ++ steps E ctx L txs) L' := by
  induction txs generalizing accepted L receipts with
  | nil =>
    cases h
    simpa [steps] using hI
  | cons stx rest ih =>
    obtain ⟨⟨L1, receipt⟩, hstx, h⟩ := bind_eq_ok.mp h
    obtain ⟨⟨L2, receipts'⟩, hrest, h⟩ := bind_eq_ok.mp h
    cases h
    have hone : I (accepted ++ [⟨ctx, L, stx, L1, receipt⟩]) L1 := step rfl hstx hI
    have hall := ih hone hrest
    rw [steps, hstx]
    rwa [List.append_assoc] at hall

/-- Induction along a chain, reward by reward and transaction by transaction. -/
theorem Chained.induct {I : ℕ → List Step → Ledger → Prop} (start : I base [] G)
    (reward : ∀ {height : ℕ} {accepted : List Step} {L L' : Ledger} {ctx : BlockContext} {amount : Balance},
      applyCoinbase E ctx L = .ok (L', amount) → I height accepted L → I (height + 1) accepted L')
    (step : ∀ {height : ℕ} {accepted : List Step} {st : Step}, st.ctx.height.toNat = height → st.Valid E →
      I height accepted st.before → I height (accepted ++ [st]) st.after)
    (h : Chained E G base height accepted L) : I height accepted L := by
  induction h with
  | start => exact start
  | @block height accepted L L' ctx txs receipts _ hheight hx ih =>
    obtain ⟨⟨L1, amount⟩, hcoinbase, hx⟩ := bind_eq_ok.mp hx
    rw [blockSteps, hcoinbase]
    refine applyTransactions_induct (I := I (height + 1)) (fun hctx hvalid hI => ?_) (reward hcoinbase ih) hx
    exact step (hctx ▸ hheight) hvalid hI

theorem Chained.valid (h : Chained E G base height accepted L) : ∀ st ∈ accepted, st.Valid E := by
  refine Chained.induct (I := fun _ accepted _ => ∀ st ∈ accepted, st.Valid E) (List.forall_mem_nil _)
    (fun _ ih => ih)
    (fun _ hvalid ih st' hst' => ?_) h
  obtain hold | hnew := List.mem_append.mp hst'
  · exact ih st' hold
  · exact List.mem_singleton.mp hnew ▸ hvalid

theorem Chained.height_le (h : Chained E G base height accepted L) : ∀ st ∈ accepted, st.ctx.height.toNat ≤ height := by
  refine Chained.induct (I := fun height accepted _ => ∀ st ∈ accepted, st.ctx.height.toNat ≤ height)
    (List.forall_mem_nil _) (fun _ ih st hst => (ih st hst).trans (Nat.le_succ _))
    (fun hheight _ ih st' hst' => ?_) h
  obtain hold | hnew := List.mem_append.mp hst'
  · exact ih st' hold
  · exact List.mem_singleton.mp hnew ▸ hheight.le

/-- What holds of a chain and of each step given the steps before it: `J` is kept, and `Q` holds of every step at its
place. -/
theorem Chained.history {J : List Step → Ledger → Prop} {Q : List Step → Step → Prop} (start : J [] G)
    (reward : ∀ {accepted : List Step} {L L' : Ledger} {ctx : BlockContext} {amount : Balance},
      applyCoinbase E ctx L = .ok (L', amount) → J accepted L → J accepted L')
    (step : ∀ {accepted : List Step} {st : Step}, st.Valid E → J accepted st.before →
      Q accepted st ∧ J (accepted ++ [st]) st.after) (h : Chained E G base height accepted L) :
    J accepted L ∧ ∀ earlier st later, accepted = earlier ++ st :: later → Q earlier st := by
  refine Chained.induct (I := fun _ accepted L =>
    J accepted L ∧ ∀ earlier st later, accepted = earlier ++ st :: later → Q earlier st) ⟨start, by simp⟩
    (fun hreward ih => ⟨reward hreward ih.1, ih.2⟩) (fun _ hvalid ih => ?_) h
  obtain ⟨hstep, hkept⟩ := step hvalid ih.1
  refine ⟨hkept, fun earlier st' later hsplit => ?_⟩
  rcases List.eq_nil_or_concat' later with rfl | ⟨later', last, rfl⟩
  · obtain ⟨rfl, hst⟩ := List.append_inj' hsplit rfl
    cases hst
    exact hstep
  · rw [← List.cons_append, ← List.append_assoc] at hsplit
    exact ih.2 earlier st' later' (List.append_inj' hsplit rfl).1

/-- Execute blocks in order: the transactions accepted and the ledger. -/
def runBlocks (E : Env) (L : Ledger) :
    List (BlockContext × List SignedTransaction) → Except Fault (List Step × Ledger)
  | [] => .ok ([], L)
  | (ctx, txs) :: rest => do
    let (L', _) ← executeBlock E ctx L txs
    let (later, L'') ← runBlocks E L' rest
    return (blockSteps E ctx L txs ++ later, L'')

theorem Chained.runBlocks {blocks : List (BlockContext × List SignedTransaction)} {later : List Step}
    (h : Chained E G base height accepted L)
    (hheights : blocks.map (fun b => b.1.height.toNat) = List.range' (height + 1) blocks.length)
    (hx : runBlocks E L blocks = .ok (later, L')) :
    Chained E G base (height + blocks.length) (accepted ++ later) L' := by
  induction blocks generalizing height accepted L later with
  | nil =>
    cases hx
    simpa using h
  | cons b rest ih =>
    obtain ⟨⟨L1, receipts⟩, hblock, hx⟩ := bind_eq_ok.mp hx
    obtain ⟨⟨later', L2⟩, hrest, hx⟩ := bind_eq_ok.mp hx
    cases hx
    rw [List.map_cons, List.length_cons, List.range'_succ, List.cons.injEq] at hheights
    have hchain := ih (.block h hheights.1 hblock) hheights.2 hrest
    rw [List.append_assoc] at hchain
    rw [List.length_cons, Nat.add_comm rest.length, ← Nat.add_assoc]
    exact hchain

end Runtime
end Sov
