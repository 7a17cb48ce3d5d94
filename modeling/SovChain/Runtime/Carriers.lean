import SovChain.Runtime.Fees

/-!
# Carriers

Four actions carry another one: an approval of a multisig, a proposal to one, a tip and a creation time. What a
transaction may hold is checked by walks down this chain that do not all go equally deep. The walks for dormant
features and for misplaced creation times see every node. The cap on code and calldata looks under the creation
time only, and the price stops at a proposal.
-/

namespace Sov
namespace Action
open Sov.Runtime (isMultisigExec)

/-- The nodes of the carrier chain, outermost first. -/
def chain : Action → List Action
  | .multisigExec inner approvals => .multisigExec inner approvals :: inner.chain
  | .proposeMultisig account inner => .proposeMultisig account inner :: inner.chain
  | .tipped tip inner => .tipped tip inner :: inner.chain
  | .timestamped createdAtMs inner => .timestamped createdAtMs inner :: inner.chain
  | action => [action]

/-- The code or the calldata of a node. -/
def data : Action → Option Bytes
  | .deploy code => some code
  | .call _ _ calldata => some calldata
  | _ => none

def approvalCount : Action → ℕ
  | .multisigExec _ approvals => approvals.length
  | _ => 0

/-- Every list of approvals has a length that Borsh can write. The signing message of another transaction does
not exist. -/
def Writable (a : Action) : Prop := ∀ node ∈ a.chain, node.approvalCount < 2 ^ 32

def isTipped : Action → Bool
  | .tipped .. => true
  | _ => false

def isTimestamped : Action → Bool
  | .timestamped .. => true
  | _ => false

/-- The price of the action takes in that of its innermost one: no proposal is on the way, and no carrier holds
one of its own kind. -/
def priced : Action → Bool
  | .multisigExec inner _ => !isMultisigExec inner && inner.priced
  | .proposeMultisig .. => false
  | .tipped _ inner => !inner.isTipped && inner.priced
  | .timestamped _ inner => !inner.isTimestamped && inner.priced
  | _ => true

theorem mem_chain_self (a : Action) : a ∈ a.chain := by
  cases a <;> exact List.mem_cons_self

/-- Below the top are the nodes of the carried action. -/
theorem chain_eq (a : Action) : a.chain = a :: (Runtime.carried a).elim [] chain := by
  cases a <;> rfl

variable {a : Action}

theorem chain_of_data (h : a.data.isSome) : a.chain = [a] ∧ a.priced = true := by
  cases a <;> first | exact ⟨rfl, rfl⟩ | cases h

theorem unwrapped_of_data (h : a.unwrapped.data.isSome) :
    a.isTimestamped = false ∧ a.priced = true ∧ a.chain.length ≤ 2 := by
  cases a with
  | tipped tip inner | multisigExec inner approvals =>
    obtain ⟨hchain, hpriced⟩ := chain_of_data h
    refine ⟨rfl, ?_, by simp [chain, show inner.chain = [inner] from hchain]⟩
    cases inner <;> first | rfl | cases h
  | deploy | call => exact ⟨rfl, rfl, by simp [chain]⟩
  | _ => cases h

theorem resolved_of_data (h : a.resolved.data.isSome) : a.priced = true ∧ a.chain.length ≤ 3 := by
  obtain ⟨htimed, hpriced, hlength⟩ := unwrapped_of_data h
  cases a with
  | timestamped createdAtMs inner =>
    rw [priced, chain, List.length_cons]
    exact ⟨Bool.and_eq_true_iff.mpr ⟨by rw [show inner.isTimestamped = false from htimed]; rfl, hpriced⟩, Nat.succ_le_succ hlength⟩
  | _ => exact ⟨hpriced, hlength.trans (by omega)⟩

end Action

namespace Runtime

/-! ## Dormant features and creation times -/

section Gates
variable {ctx : BlockContext} {a : Action}

theorem findInactiveFeature_eq_none :
    findInactiveFeature ctx a = none ↔ ∀ node ∈ a.chain, dormantFeature ctx node = none := by
  induction a with
  | multisigExec inner approvals ih | proposeMultisig account inner ih | tipped tip inner ih
  | timestamped createdAtMs inner ih =>
    rw [Action.chain, List.forall_mem_cons, ← ih, findInactiveFeature]
    split <;> simp_all
  | _ =>
    rw [Action.chain.eq_def, List.forall_mem_singleton, findInactiveFeature.eq_def]
    split <;> simp_all

theorem containsTimestamp_eq_false : containsTimestamp a = false ↔ ∀ node ∈ a.chain, node.isTimestamped = false := by
  induction a with
  | multisigExec inner approvals ih | proposeMultisig account inner ih | tipped tip inner ih =>
    rw [Action.chain, List.forall_mem_cons, ← ih, containsTimestamp]
    simp [Action.isTimestamped]
  | _ => simp [Action.chain, containsTimestamp, Action.isTimestamped]

theorem hasNestedTimestamp_eq_false :
    hasNestedTimestamp a = false ↔ ∀ node ∈ a.chain.tail, node.isTimestamped = false := by
  rw [Action.chain_eq, List.tail_cons, hasNestedTimestamp]
  cases carried a with
  | none => simp
  | some inner => exact containsTimestamp_eq_false

theorem unwrapTimestamp_timestamped {createdAtMs : U64} {inner action : Action} {timing : Option U64}
    (h : unwrapTimestamp ctx (.timestamped createdAtMs inner) = .ok (action, timing)) :
    isMultisigExec inner = false ∧ isRotateKey inner = false ∧
      ctx.blockTimeMs.toNat ≤ createdAtMs.toNat + txTimestampMaxAgeMs.toNat ∧
      createdAtMs.toNat ≤ ctx.blockTimeMs.toNat + txTimestampFutureToleranceMs.toNat ∧
      timing = if ctx.txTimestampActive then some createdAtMs else none := by
  rw [unwrapTimestamp] at h
  split at h
  · cases h
  rename_i hinner
  split at h
  · cases h
  rename_i hfuture
  split at h
  · cases h
  rename_i hexpired
  rw [BitVec.toNat_saturatingAdd] at hfuture
  rw [BitVec.toNat_saturatingSub] at hexpired
  simp only [Bool.or_eq_true, not_or, Bool.not_eq_true] at hinner
  exact ⟨hinner.1, hinner.2, by omega, by omega, (Prod.mk.inj (Except.ok.inj h)).2.symm⟩

end Gates

/-! ## The price of a chain -/

section Price
variable {a node : Action} {d : Bytes}

theorem toNat_ofLen {n : ℕ} (h : n < 2 ^ 32) : (Gas.ofLen n).toNat = n := by
  rw [Gas.ofLen, BitVec.toNat_ofNat]
  omega

theorem gasFor_of_data (hdata : node.data = some d) (hlen : d.length < 2 ^ 32) : (Gas.gasFor node).toNat ≤ 2 ^ 47 := by
  have hrated : ∀ rate : U64, rate.toNat ≤ 200 → (Gas.intrinsic + Gas.ofLen d.length * rate).toNat ≤ 2 ^ 47 := by
    intro rate hrate
    have hfixed : Gas.intrinsic.toNat = 21000 := rfl
    have hmul : d.length * rate.toNat ≤ 2 ^ 32 * 200 := Nat.mul_le_mul hlen.le hrate
    rw [BitVec.toNat_add, BitVec.toNat_mul, toNat_ofLen hlen, hfixed]
    omega
  cases node with
  | deploy code =>
    cases hdata
    exact hrated Gas.deployPerByte (by decide)
  | call contract gasLimit calldata =>
    cases hdata
    exact hrated Gas.calldataPerByte (by decide)
  | _ => cases hdata

variable {inner : Action}

theorem gasFor_multisigExec {approvals : List MultisigApproval} (h : isMultisigExec inner = false) :
    Gas.gasFor (.multisigExec inner approvals) =
      Gas.intrinsic + Gas.ofLen approvals.length * Gas.intentVerify + Gas.gasFor inner := by
  cases inner with
  | multisigExec => cases h
  | _ => rfl

theorem gasFor_tipped {tip : Balance} (h : inner.isTipped = false) :
    Gas.gasFor (.tipped tip inner) = (Gas.gasFor inner).saturatingAdd Gas.bookkeeping := by
  cases inner with
  | tipped => cases h
  | _ => rfl

theorem gasFor_timestamped {createdAtMs : U64} (h : inner.isTimestamped = false) :
    Gas.gasFor (.timestamped createdAtMs inner) = (Gas.gasFor inner).saturatingAdd Gas.bookkeeping := by
  cases inner with
  | timestamped => cases h
  | _ => rfl

theorem toNat_saturatingAdd_bookkeeping {g : U64} (hg : g.toNat ≤ 2 ^ 63) :
    (g.saturatingAdd Gas.bookkeeping).toNat = g.toNat + 30000 := by
  have hrate : Gas.bookkeeping.toNat = 30000 := rfl
  rw [BitVec.toNat_saturatingAdd, hrate]
  omega

/-- A chain that is priced to its end costs what its data costs, and no sum of prices wraps. -/
theorem gasFor_priced (hpriced : a.priced = true) (hwritable : a.Writable)
    (hdepth : a.chain.length ≤ 2 ^ 16) (hnode : node ∈ a.chain) (hdata : node.data = some d)
    (hlen : d.length < 2 ^ 32) :
    (Gas.gasFor node).toNat ≤ (Gas.gasFor a).toNat ∧ (Gas.gasFor a).toNat ≤ a.chain.length * 2 ^ 47 := by
  induction a with
  | multisigExec inner approvals ih =>
    obtain ⟨hinner, hpriced⟩ := Bool.and_eq_true_iff.mp hpriced
    obtain ⟨hcount, hwritable⟩ := List.forall_mem_cons.mp hwritable
    obtain rfl | hnode := List.mem_cons.mp hnode
    · cases hdata
    rw [Action.chain, List.length_cons] at hdepth ⊢
    obtain ⟨hle, hbound⟩ := ih hpriced hwritable (by omega) hnode
    have hrate : Gas.intrinsic.toNat = 21000 ∧ Gas.intentVerify.toNat = 30000 := ⟨rfl, rfl⟩
    have hcount : approvals.length < 2 ^ 32 := hcount
    rw [gasFor_multisigExec (by simpa using hinner), BitVec.toNat_add, BitVec.toNat_add, BitVec.toNat_mul,
      toNat_ofLen hcount, hrate.1, hrate.2]
    have hsum : 21000 + approvals.length * 30000 ≤ 2 ^ 47 := by omega
    have hfits : 21000 + approvals.length * 30000 + (Gas.gasFor inner).toNat < 2 ^ 64 := by omega
    rw [Nat.mod_eq_of_lt (by omega : approvals.length * 30000 < 2 ^ 64),
      Nat.mod_eq_of_lt (by omega : 21000 + approvals.length * 30000 < 2 ^ 64), Nat.mod_eq_of_lt hfits]
    omega
  | tipped _ inner ih | timestamped _ inner ih =>
    obtain ⟨hinner, hpriced⟩ := Bool.and_eq_true_iff.mp hpriced
    obtain ⟨-, hwritable⟩ := List.forall_mem_cons.mp hwritable
    obtain rfl | hnode := List.mem_cons.mp hnode
    · cases hdata
    rw [Action.chain, List.length_cons] at hdepth ⊢
    obtain ⟨hle, hbound⟩ := ih hpriced hwritable (by omega) hnode
    have hinner := Bool.not_eq_true' _ ▸ hinner
    first | rw [gasFor_tipped hinner] | rw [gasFor_timestamped hinner]
    rw [toNat_saturatingAdd_bookkeeping (by omega)]
    omega
  | proposeMultisig => cases hpriced
  | _ =>
    cases List.mem_singleton.mp hnode
    have hbound := gasFor_of_data hdata hlen
    rw [Action.chain.eq_def, List.length_singleton]
    omega

theorem envelope_le (key : PublicKey) : (Gas.envelope key).toNat ≤ 2 ^ 20 := by
  cases key with
  | v1Ed25519 => exact Nat.zero_le _
  | v2HybridMlDsa65 =>
    change (Gas.ofLen (1952 + 3309) * Gas.calldataPerByte + Gas.mlDsaVerify).toNat ≤ 2 ^ 20
    decide

end Price

/-! ## Accepted transactions -/

section Transactions
variable {E : Env} {ctx : BlockContext} {stx : SignedTransaction} {p : Prepared} {L L' : Ledger}
  {x x' : ExecState} {status : ExecutionStatus}

theorem dispatch_gasUsed (h : dispatch E ctx stx p x = .ok (x', status)) : x'.gasUsed = x.gasUsed ∨
      ∃ contract gasLimit calldata, p.action = .call contract gasLimit calldata ∧
        x.gasUsed.toNat ≤ x'.gasUsed.toNat := by
  unfold dispatch at h
  cases haction : p.action <;> simp only [haction] at h
  case call contract gasLimit calldata =>
    obtain ⟨run, outcome, -, -, -, hcharged⟩ | ⟨rfl, -⟩ := call_outcome h
    · refine .inr ⟨contract, gasLimit, calldata, rfl, ?_⟩
      rw [hcharged.gasUsed, BitVec.toNat_saturatingAdd]
      have := x.gasUsed.isLt
      omega
    · exact .inl rfl
  case tipped | timestamped => cases h
  all_goals
    obtain ⟨s', -, rfl⟩ := lift_eq_ok.mp h
    exact .inl rfl

theorem execute_gasUsed (h : execute E ctx stx p L = .ok (x, status)) : x.gasUsed = p.gasUsed ∨
      ∃ contract gasLimit calldata, p.action = .call contract gasLimit calldata ∧
        p.gasUsed.toNat ≤ x.gasUsed.toNat := by
  unfold execute at h
  dsimp only at h
  split at h
  · cases h
    exact .inl rfl
  · exact dispatch_gasUsed h

theorem checkDataSize_eq_ok {a : Action} {d : Bytes} (hdata : a.data = some d)
    (hcap : ctx.mining.maxCodeBytes ≠ 0) (h : checkDataSize ctx a = .ok ()) :
    d.length ≤ ctx.mining.maxCodeBytes.toNat := by
  have hzero : ctx.mining.maxCodeBytes.toNat ≠ 0 := fun h0 => hcap (BitVec.eq_of_toNat_eq h0)
  unfold checkDataSize at h
  cases a with
  | deploy | call =>
    cases hdata
    dsimp only at h
    split_ifs at h with hbig
    by_contra hlt
    exact hbig ⟨hzero, by omega⟩
  | _ => cases hdata

/-- The data of an accepted transaction is below the cap and paid for, unless it comes under a tip, an approval or
a proposal, where the cap is not looked at, or where the price does not reach it. -/
theorem data_capped_and_priced_iff (E : Env) (ctx : BlockContext) (L L' : Ledger) (stx : SignedTransaction)
    (receipt : Receipt) (node : Action) (d : Bytes) (hwritable : stx.transaction.action.Writable)
    (hcap : ctx.mining.maxCodeBytes ≠ 0) (h : applyTransaction E ctx L stx = .ok (L', receipt))
    (hnode : node ∈ stx.transaction.action.chain) (hdata : node.data = some d) :
    d.length ≤ ctx.mining.maxCodeBytes.toNat ∧ (Gas.gasFor node).toNat ≤ receipt.gasUsed.toNat ↔
      (stx.transaction.action.untimed = node ∨ d.length ≤ ctx.mining.maxCodeBytes.toNat) ∧
      (stx.transaction.action.priced = true ∧ stx.transaction.action.chain.length ≤ 2 ^ 16 ∨
        (Gas.gasFor node).toNat ≤ (intrinsicGas stx.transaction).toNat) := by
  obtain ⟨p, x, status, hp, hx, -, rfl⟩ := applyTransaction_eq_ok h
  obtain ⟨signer, action, nonce, balance, r, hadm⟩ := prepare_eq_ok hp
  have hgas : p.gasUsed = intrinsicGas stx.transaction := by rw [hadm.prepared]
  have hused := execute_gasUsed hx
  dsimp only
  constructor
  · rintro ⟨hlen, hpaid⟩
    refine ⟨.inr hlen, ?_⟩
    obtain heq | ⟨contract, gasLimit, calldata, hcall, -⟩ := hused
    · rw [heq, hgas] at hpaid
      exact .inr hpaid
    -- What was called is what the chain holds, and a call that runs is near the top.
    rw [hadm.action_eq] at hcall
    obtain ⟨hpriced, hlength⟩ := Action.resolved_of_data (a := stx.transaction.action) (by rw [hcall]; rfl)
    exact .inl ⟨hpriced, hlength.trans (by decide)⟩
  · rintro ⟨hdirect, hprice⟩
    have hlen : d.length ≤ ctx.mining.maxCodeBytes.toNat := by
      obtain rfl | hlen := hdirect
      · have hsize := hadm.size
        rw [unwrapTimestamp_eq_ok hadm.unwrapped] at hsize
        exact checkDataSize_eq_ok hdata hcap hsize
      · exact hlen
    have hle : (intrinsicGas stx.transaction).toNat ≤ x.gasUsed.toNat := by
      obtain heq | ⟨-, -, -, -, hle⟩ := hused
      · rw [heq, hgas]
      · rwa [hgas] at hle
    refine ⟨hlen, le_trans ?_ hle⟩
    obtain ⟨hpriced, hdepth⟩ | hprice := hprice
    · have hshort : d.length < 2 ^ 32 := lt_of_le_of_lt hlen ctx.mining.maxCodeBytes.isLt
      obtain ⟨hinner, hbound⟩ := gasFor_priced hpriced hwritable hdepth hnode hdata hshort
      have henvelope := envelope_le stx.transaction.publicKey
      rw [intrinsicGas, BitVec.toNat_add_of_lt (by omega)]
      omega
    · exact hprice

/-- A fee auction and a cap on data. -/
def cappedContext (cap : U32) : BlockContext :=
  { sampleContext with feeAuctionActive := true, mining.maxCodeBytes := cap }

/-- A tip of nothing deploys three bytes over a cap of two, and a proposal brings two hundred bytes of code for
less than their price. -/
theorem carriers_evade_cap_and_price : ((applyTransaction sampleEnv (cappedContext 2) aliceFunded
      (sampleTx "alice.sov" (.tipped 0 (.deploy [0, 0, 0])))).toOption.map fun r =>
        (r.2.status, (r.1.account ⟨"alice.sov"⟩).code)) = some (.success, some [0, 0, 0]) ∧
    ((applyTransaction sampleEnv (cappedContext 200) aliceFunded
      (sampleTx "alice.sov" (.proposeMultisig ⟨"vault.sov"⟩ (.deploy (List.replicate 200 0))))).toOption.map
        fun r => r.2.gasUsed) = some 51000 ∧ Gas.gasFor (.deploy (List.replicate 200 0)) = 61000 := by
  refine ⟨?_, ?_, ?_⟩ <;> decide +kernel

/-- Code within the cap, deployed without a carrier. -/
theorem plain_deploy_capped_and_priced :
    ∃ r, applyTransaction sampleEnv (cappedContext 2) aliceFunded (sampleTx "alice.sov" (.deploy [0, 0])) = .ok r ∧
      [(0 : UInt8), 0].length ≤ (cappedContext 2).mining.maxCodeBytes.toNat ∧
      (Gas.gasFor (.deploy [0, 0])).toNat ≤ r.2.gasUsed.toNat := by
  obtain ⟨r, hr⟩ := exists_of_toOption (x := applyTransaction sampleEnv (cappedContext 2)
    aliceFunded (sampleTx "alice.sov" (.deploy [0, 0]))) (by decide +kernel)
  refine ⟨r, hr, (data_capped_and_priced_iff _ _ _ _ _ r.2 (.deploy [0, 0]) [0, 0] ?_ (by decide) hr ?_ rfl).mpr
    ⟨.inl rfl, .inl ⟨rfl, by decide⟩⟩⟩
  · intro node hnode
    cases List.mem_singleton.mp hnode
    decide
  · exact List.mem_singleton.mpr rfl

/-- No accepted transaction has a dormant feature anywhere in its chain. A creation time stands at the top only,
lies within its bounds and is over neither an approval nor a key rotation, and the receipt has it. -/
theorem dormant_features_kept_out (E : Env) (ctx : BlockContext) (L L' : Ledger) (stx : SignedTransaction)
    (receipt : Receipt) (h : applyTransaction E ctx L stx = .ok (L', receipt)) : (∀ node ∈ stx.transaction.action.chain,
      (∀ tip inner, node = .tipped tip inner → ctx.feeAuctionActive = true) ∧
      (∀ bundle, node = .shieldedV2 bundle → ctx.shieldedV2Active = true) ∧
      (∀ createdAtMs inner, node = .timestamped createdAtMs inner → ctx.txTimestampActive = true)) ∧
    (∀ node ∈ stx.transaction.action.chain.tail, ∀ createdAtMs inner, node ≠ .timestamped createdAtMs inner) ∧
    (∀ createdAtMs inner, stx.transaction.action = .timestamped createdAtMs inner →
      ctx.blockTimeMs.toNat ≤ createdAtMs.toNat + txTimestampMaxAgeMs.toNat ∧
      createdAtMs.toNat ≤ ctx.blockTimeMs.toNat + txTimestampFutureToleranceMs.toNat ∧
      (∀ action approvals, inner ≠ .multisigExec action approvals) ∧
      (∀ newKey proof, inner ≠ .rotateKey newKey proof)) ∧ ∀ createdAtMs, receipt.timing = some createdAtMs ↔
      ∃ inner, stx.transaction.action = .timestamped createdAtMs inner := by
  obtain ⟨p, x, status, hp, -, -, rfl⟩ := applyTransaction_eq_ok h
  obtain ⟨signer, action, nonce, balance, r, hadm⟩ := prepare_eq_ok hp
  have hactive := findInactiveFeature_eq_none.mp hadm.active
  have hunnested := hasNestedTimestamp_eq_false.mp hadm.unnested
  have hunwrapped := hadm.unwrapped
  refine ⟨fun node hnode => ⟨?_, ?_, ?_⟩, ?_, ?_, ?_⟩
  · rintro tip inner rfl
    simpa [dormantFeature] using hactive _ hnode
  · rintro bundle rfl
    simpa [dormantFeature] using hactive _ hnode
  · rintro createdAtMs inner rfl
    simpa [dormantFeature] using hactive _ hnode
  · rintro node hnode createdAtMs inner rfl
    cases hunnested _ hnode
  · intro createdAtMs inner haction
    rw [haction] at hunwrapped
    obtain ⟨hexec, hrotate, hage, hfuture, -⟩ := unwrapTimestamp_timestamped hunwrapped
    refine ⟨hage, hfuture, ?_, ?_⟩
    · rintro action approvals rfl
      cases hexec
    · rintro newKey proof rfl
      cases hrotate
  · intro createdAtMs
    dsimp only
    cases haction : stx.transaction.action with
    | timestamped created inner =>
      have hon : ctx.txTimestampActive = true := by
        simpa [dormantFeature] using hactive (.timestamped created inner) (haction ▸ Action.mem_chain_self _)
      rw [haction] at hunwrapped
      obtain ⟨-, -, -, -, htiming⟩ := unwrapTimestamp_timestamped hunwrapped
      rw [htiming, hon]
      simp
    | _ =>
      rw [haction] at hunwrapped
      rw [← (Prod.mk.inj (Except.ok.inj hunwrapped)).2]
      simp

/-- A transfer dated to the block it is in. -/
theorem dated_transfer_commits_its_time :
    ∃ L' receipt, applyTransaction sampleEnv { sampleContext with txTimestampActive := true } aliceFunded
        (sampleTx "alice.sov" (.timestamped 0 (.transfer ⟨"bob.sov"⟩ 5))) = .ok (L', receipt) ∧
      receipt.timing = some 0 := by
  obtain ⟨⟨L', receipt⟩, h⟩ := exists_of_toOption (x := applyTransaction sampleEnv
    { sampleContext with txTimestampActive := true } aliceFunded
    (sampleTx "alice.sov" (.timestamped 0 (.transfer ⟨"bob.sov"⟩ 5)))) (by decide +kernel)
  exact ⟨L', receipt, h, ((dormant_features_kept_out _ _ _ _ _ _ h).2.2.2 0).mpr ⟨_, rfl⟩⟩

end Transactions
end Runtime
end Sov
