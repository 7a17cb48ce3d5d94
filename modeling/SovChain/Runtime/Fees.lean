import SovChain.Runtime.Conservation

/-!
# What a contract call costs

The intrinsic fee is taken before the action, the fee for the fuel only after the engine has returned.
A call that traps, runs out of gas or cannot pay for its fuel has consumed it all the same and is charged
the intrinsic fee alone.
-/

namespace Sov
namespace Runtime
variable {E : Env} {ctx : BlockContext} {stx : SignedTransaction} {p : Prepared} {L L' : Ledger}

/-- The run of the engine a call causes; an account without code runs nothing. -/
def callRun (E : Env) (ctx : BlockContext) (st : Stores) (sid contract : AccountId) (gasLimit : U64)
    (calldata : Bytes) : Option VmRun :=
  (st.account contract).code.map fun code =>
    E.vm
      { wasm := code, entry := "call", gasLimit, blockHeight := ctx.height, caller := sid.raw
        contract := contract.raw, calldata, tokenBalances := contractTokenBalances st contract
        storage := st.contractEntries contract }

/-- The run a transaction causes. -/
def vmRun (E : Env) (ctx : BlockContext) (st : Stores) (tx : Transaction) : Option VmRun :=
  match execError E.toCrypto ctx st tx, tx.action.resolved with
  | none, .call contract gasLimit calldata => callRun E ctx st tx.signer contract gasLimit calldata
  | _, _ => none

/-- The fuel a run consumed. -/
def fuelOf (run : Option VmRun) : ℕ := run.elim 0 fun r => r.fuel.toNat

/-- The state after a call whose fuel is paid for. -/
structure Charged (ctx : BlockContext) (run : VmRun) (x x' : ExecState) : Prop where
  accounts : x'.ledger.accounts = x.ledger.accounts
  gasUsed : x'.gasUsed = x.gasUsed.saturatingAdd run.fuel
  balance : x.signer.balance.toNat = x'.signer.balance.toNat + run.fuel.toNat * ctx.gasPrice.toNat
  feePaid : x'.feePaid.toNat = x.feePaid.toNat + run.fuel.toNat * ctx.gasPrice.toNat

theorem accounts_foldl_setContractValue (C : Crypto) (contract : AccountId) (L : Ledger) (l : List (Bytes × Bytes)) :
    (l.foldl (fun L e => L.setContractValue C contract e.1 e.2) L).accounts = L.accounts := by
  induction l generalizing L with
  | nil => rfl
  | cons e l ih => exact ih _

variable {x : ExecState} {status : ExecutionStatus}

/-- A call is charged for its fuel exactly when the engine returned and the signer can pay. -/
theorem call_outcome {sid contract : AccountId} {gasLimit : U64} {calldata : Bytes} {x' : ExecState}
    (h : call E ctx sid contract gasLimit calldata x = .ok (x', status)) :
    (∃ run outcome, callRun E ctx x.ledger sid contract gasLimit calldata = some run ∧
      run.result = .ok outcome ∧ run.fuel.toNat * ctx.gasPrice.toNat ≤ x.signer.balance.toNat ∧ Charged ctx run x x') ∨
    (x' = x ∧ ∀ run outcome, callRun E ctx x.ledger sid contract gasLimit calldata = some run →
      run.result = .ok outcome → x.signer.balance.toNat < run.fuel.toNat * ctx.gasPrice.toNat) := by
  unfold call at h
  unfold callRun
  cases hcode : (x.ledger.account contract).code with
  | none =>
    simp only [hcode] at h
    cases h
    exact .inr ⟨rfl, fun _ _ hrun => by cases hrun⟩
  | some code =>
    simp only [hcode] at h
    simp only [Option.map_some, Option.some.injEq]
    generalize E.vm _ = run at h ⊢
    cases hresult : run.result with
    | error e =>
      have hno : ∀ run' outcome, run = run' → run'.result = .ok outcome →
          x.signer.balance.toNat < run'.fuel.toNat * ctx.gasPrice.toNat := by
        rintro run' outcome rfl hok
        rw [hresult] at hok
        cases hok
      rw [hresult] at h
      cases e <;> (cases h; exact .inr ⟨rfl, hno⟩)
    | ok outcome =>
      simp only [hresult] at h
      have hwidth : ((run.fuel.setWidth 128 : Balance)).toNat = run.fuel.toNat := by
        rw [BitVec.toNat_setWidth]
        exact Nat.mod_eq_of_lt (by have := run.fuel.isLt; omega)
      split at h
      · cases h
      rename_i vmFee hfee
      rw [BitVec.checkedMul_eq_some, hwidth] at hfee
      split at h
      · rename_i hb
        cases h
        rw [BitVec.checkedSub_eq_none] at hb
        refine .inr ⟨rfl, ?_⟩
        rintro run' outcome' rfl -
        omega
      · cases h
      rename_i remaining feePaid hb ht
      rw [BitVec.checkedSub_eq_some] at hb
      rw [BitVec.checkedAdd_eq_some] at ht
      refine .inl ⟨run, outcome, rfl, hresult, by omega, ?_⟩
      split at h
      · cases h
        exact ⟨rfl, rfl, by dsimp only; omega, by dsimp only; omega⟩
      rename_i L1 hbatch
      cases h
      refine ⟨?_, rfl, by dsimp only; omega, by dsimp only; omega⟩
      rw [accounts_foldl_setContractValue]
      exact (Stores.SameCoin.of_moves (settleContractTokenTransfers_moves hbatch)).accounts

/-- The signer has paid `amount` to the miner. -/
structure FeeCharged (L L' : Ledger) (sid miner : AccountId) (amount : ℕ) : Prop where
  signer : (L'.account sid).balance.toNat + amount =
    (L.account sid).balance.toNat + if sid = miner then amount else 0
  miner : (L'.account miner).balance.toNat + (if miner = sid then amount else 0) =
    (L.account miner).balance.toNat + amount

/-- What an action takes from the signer for fees alone ends up with the miner. -/
theorem feeCharged_of_finish (taken : ℕ) (hp : prepare E ctx L stx = .ok p)
    (hfee : p.feeFunded = none) (haccounts : x.ledger.accounts = L.accounts)
    (hbalance : p.signer.balance.toNat = x.signer.balance.toNat + taken) (hpaid : x.feePaid.toNat = p.fee.toNat + taken)
    (hL : finish E ctx stx.transaction.signer p.tip x.toInFlight = .ok L') :
    FeeCharged L L' stx.transaction.signer ctx.miner (x.feePaid.toNat + p.tip.toNat) := by
  obtain ⟨signer, action, nonce, balance, r, hadm⟩ := prepare_eq_ok hp
  have hsigner := hadm.balance_eq
  simp only [hfee, Option.isSome_none, Bool.false_eq_true, if_false] at hsigner
  have haccount : ∀ id, x.ledger.account id = L.account id := fun id => by
    rw [Stores.account, haccounts, Stores.account]
  refine ⟨?_, ?_⟩
  · obtain ⟨b, hb, hnat⟩ := finish_account hL stx.transaction.signer
    rw [hb]
    dsimp only
    rw [hnat, if_pos rfl]
    omega
  · obtain ⟨b, hb, hnat⟩ := finish_account hL ctx.miner
    rw [hb]
    dsimp only
    rw [hnat, if_pos rfl, haccount]
    by_cases hm : ctx.miner = stx.transaction.signer
    · rw [if_pos hm, if_pos hm, hm]
      omega
    · rw [if_neg hm, if_neg hm]
      omega

/-- The fuel a transaction consumes is none, or the engine returned, the meter does not overflow and the
signer can pay for everything. -/
def FuelPaid (E : Env) (ctx : BlockContext) (st : Stores) (tx : Transaction) : Prop :=
  fuelOf (vmRun E ctx st tx) = 0 ∨
    ∃ run outcome, vmRun E ctx st tx = some run ∧ run.result = .ok outcome ∧
      (intrinsicGas tx).toNat + run.fuel.toNat < 2 ^ 64 ∧
      ((intrinsicGas tx).toNat + run.fuel.toNat) * ctx.gasPrice.toNat + tx.action.tip.toNat ≤
        (st.account tx.signer).balance.toNat

theorem intrinsicFee_eq_ok {tx : Transaction} {fee : Balance} (h : intrinsicFee ctx tx = .ok fee) :
    fee.toNat = (intrinsicGas tx).toNat * ctx.gasPrice.toNat := by
  unfold intrinsicFee at h
  have hwidth : ((intrinsicGas tx).setWidth 128 : Balance).toNat = (intrinsicGas tx).toNat := by
    rw [BitVec.toNat_setWidth]
    exact Nat.mod_eq_of_lt (by have := (intrinsicGas tx).isLt; omega)
  split_ifs at h with h0
  · cases h
    simp [h0]
  split at h
  · cases h
  rename_i fee' hfee
  cases h
  rw [BitVec.checkedMul_eq_some, hwidth] at hfee
  exact hfee.symm

/-- What a transaction that runs no contract pays: the intrinsic fee and the tip. -/
def dues (ctx : BlockContext) (tx : Transaction) : ℕ :=
  (intrinsicGas tx).toNat * ctx.gasPrice.toNat + tx.action.tip.toNat

/-- Admission has taken the dues from the signer, unless a withdrawal pays the fee. -/
theorem prepare_dues (hp : prepare E ctx L stx = .ok p)
    (hv2 : ∀ bundle, stx.transaction.action.resolved ≠ .shieldedV2 bundle) :
    p.fee.toNat + p.tip.toNat = dues ctx stx.transaction ∧
      (L.account stx.transaction.signer).balance.toNat = p.signer.balance.toNat + dues ctx stx.transaction := by
  obtain ⟨signer, action, nonce, balance, r, hadm⟩ := prepare_eq_ok hp
  have hfunded : p.feeFunded = none := by
    rcases hfee : p.feeFunded with _ | effects
    · rfl
    obtain ⟨⟨bundle, haction⟩, -⟩ := prepare_feeFunded hp hfee
    exact absurd (hadm.action_eq.symm.trans haction) (hv2 bundle)
  have hfee := intrinsicFee_eq_ok hadm.fee_eq
  have hbalance := hadm.balance_eq
  simp only [hfunded, Option.isSome_none, Bool.false_eq_true, if_false] at hbalance
  unfold dues
  rw [← hadm.tip_eq, ← hfee]
  exact ⟨rfl, by omega⟩

/-- The balances as the books close on an action that takes no fee of its own: what the action gave to the signer in
flight and to the others in the ledger, and the dues from the signer to the miner. -/
theorem finish_balances {s : InFlight} (hp : prepare E ctx L stx = .ok p)
    (hv2 : ∀ bundle, stx.transaction.action.resolved ≠ .shieldedV2 bundle) (hpaid : s.feePaid = p.fee)
    (hL : finish E ctx stx.transaction.signer p.tip s = .ok L') :
    (L'.account stx.transaction.signer).balance.toNat + p.signer.balance.toNat + dues ctx stx.transaction =
        (L.account stx.transaction.signer).balance.toNat + s.signer.balance.toNat +
          (if stx.transaction.signer = ctx.miner then dues ctx stx.transaction else 0) ∧
      ∀ id, id ≠ stx.transaction.signer → (L'.account id).balance.toNat =
        (s.ledger.account id).balance.toNat + if id = ctx.miner then dues ctx stx.transaction else 0 := by
  obtain ⟨hdues, hbalance⟩ := prepare_dues hp hv2
  rw [← hpaid] at hdues
  constructor
  · obtain ⟨b, hb, hnat⟩ := finish_account hL stx.transaction.signer
    rw [if_pos rfl, hdues] at hnat
    rw [hb]
    dsimp only
    omega
  · intro id hid
    obtain ⟨b, hb, hnat⟩ := finish_account hL id
    rw [if_neg hid, hdues] at hnat
    rw [hb]
    exact hnat

theorem execute_call {contract : AccountId} {gasLimit : U64} {calldata : Bytes}
    (hp : prepare E ctx L stx = .ok p) (hcall : stx.transaction.action.resolved = .call contract gasLimit calldata)
    (hx : execute E ctx stx p L = .ok (x, status)) : p.feeFunded = none ∧
    ((∃ run outcome, vmRun E ctx L stx.transaction = some run ∧ run.result = .ok outcome ∧
      run.fuel.toNat * ctx.gasPrice.toNat ≤ p.signer.balance.toNat ∧
      Charged ctx run ⟨⟨L, p.signer, p.fee⟩, p.gasUsed, [], []⟩ x) ∨ (x = ⟨⟨L, p.signer, p.fee⟩, p.gasUsed, [], []⟩ ∧
      ∀ run outcome, vmRun E ctx L stx.transaction = some run → run.result = .ok outcome →
        p.signer.balance.toNat < run.fuel.toNat * ctx.gasPrice.toNat)) := by
  have haction := (prepare_action hp).trans hcall
  refine ⟨?_, ?_⟩
  · rcases hfee : p.feeFunded with _ | effects
    · rfl
    obtain ⟨⟨bundle, hv2⟩, -⟩ := prepare_feeFunded hp hfee
    cases haction.symm.trans hv2
  · unfold vmRun
    rw [← prepare_msError hp, hcall]
    unfold execute at hx
    dsimp only at hx
    cases hms : p.msError with
    | some reason =>
      simp only [hms] at hx
      cases hx
      exact .inr ⟨rfl, fun run _ hrun => by cases hrun⟩
    | none =>
      simp only [hms, dispatch, haction] at hx
      exact call_outcome hx

/-- A call pays for the fuel it consumed exactly when it consumed none, or the engine returned and the
signer could afford it. -/
theorem call_paid_iff (E : Env) (ctx : BlockContext) (L L' : Ledger) (stx : SignedTransaction)
    (receipt : Receipt) (contract : AccountId) (gasLimit : U64) (calldata : Bytes)
    (hcall : stx.transaction.action.resolved = .call contract gasLimit calldata)
    (h : applyTransaction E ctx L stx = .ok (L', receipt)) :
    ((intrinsicGas stx.transaction).toNat + fuelOf (vmRun E ctx L.toStores stx.transaction) ≤ receipt.gasUsed.toNat ∧
      FeeCharged L L' stx.transaction.signer ctx.miner
        (receipt.gasUsed.toNat * ctx.gasPrice.toNat + stx.transaction.action.tip.toNat)) ↔
      FuelPaid E ctx L.toStores stx.transaction := by
  obtain ⟨p, x, status, hp, hx, hL, rfl⟩ := applyTransaction_eq_ok h
  obtain ⟨signer, action, nonce, balance, r, hadm⟩ := prepare_eq_ok hp
  obtain ⟨hfunded, hout⟩ := execute_call hp hcall hx
  have hfee := intrinsicFee_eq_ok hadm.fee_eq
  have hgas : p.gasUsed = intrinsicGas stx.transaction := by rw [hadm.prepared]
  have hsigner := hadm.balance_eq
  simp only [hfunded, Option.isSome_none, Bool.false_eq_true, if_false] at hsigner
  dsimp only
  rw [← hadm.tip_eq]
  obtain ⟨run, outcome, hrun, hresult, hafford, hcharged⟩ | ⟨rfl, hno⟩ := hout
  · -- The fuel is charged; what remains is that the meter does not saturate.
    have hmeter := congrArg BitVec.toNat hcharged.gasUsed
    rw [BitVec.toNat_saturatingAdd, hgas] at hmeter
    have hcharge := feeCharged_of_finish _ hp hfunded hcharged.accounts hcharged.balance hcharged.feePaid hL
    have hpaid := hcharged.feePaid
    dsimp only at hpaid
    have hfuel : fuelOf (vmRun E ctx L stx.transaction) = run.fuel.toNat := by rw [hrun]; rfl
    rw [hfuel, hmeter]
    have hsum := Nat.add_mul (intrinsicGas stx.transaction).toNat run.fuel.toNat ctx.gasPrice.toNat
    constructor
    · rintro ⟨hle, -⟩
      refine .inr ⟨run, outcome, hrun, hresult, by omega, ?_⟩
      rw [← hadm.tip_eq]
      omega
    · intro hpaid'
      have hlt : (intrinsicGas stx.transaction).toNat + run.fuel.toNat < 2 ^ 64 := by
        rcases hpaid' with h0 | ⟨run', -, hrun', -, hlt, -⟩
        · have := (intrinsicGas stx.transaction).isLt
          omega
        · cases hrun.symm.trans hrun'
          exact hlt
      have hmin : min ((intrinsicGas stx.transaction).toNat + run.fuel.toNat) (2 ^ 64 - 1) =
          (intrinsicGas stx.transaction).toNat + run.fuel.toNat := by omega
      rw [hmin]
      refine ⟨le_rfl, ?_⟩
      rw [hsum, ← hfee, ← hpaid]
      exact hcharge
  · -- Nothing but the intrinsic fee is charged.
    have hcharge := feeCharged_of_finish 0 hp hfunded rfl rfl rfl hL
    dsimp only at hcharge ⊢
    rw [hgas]
    rw [hfee] at hcharge
    constructor
    · rintro ⟨hle, -⟩
      exact .inl (by omega)
    rintro (h0 | ⟨run, outcome, hrun, hresult, hlt, hafford⟩)
    · exact ⟨by omega, hcharge⟩
    have := hno run outcome hrun hresult
    have hsum := Nat.add_mul (intrinsicGas stx.transaction).toNat run.fuel.toNat ctx.gasPrice.toNat
    rw [← hadm.tip_eq] at hafford
    omega

/-- An engine that burns all the gas it is given. -/
def burningEnv (result : Except VmError VmOutcome) : Env :=
  { sampleEnv with vm := fun input => ⟨input.gasLimit, result⟩ }

def pricedContext : BlockContext := { sampleContext with gasPrice := 1 }

/-- A contract and an account that can pay for two million units of gas. -/
def contractLedger : Ledger :=
  (sampleLedger [("alice.sov", 2000000)]).setAccount sampleCrypto ⟨"app.sov"⟩ { code := some [0] }

def sampleCall : SignedTransaction := sampleTx "alice.sov" (.call ⟨"app.sov"⟩ 1000000 [])

/-- A call that runs out of gas burns a million units and pays for the intrinsic ones alone. -/
theorem out_of_gas_is_free : fuelOf (vmRun (burningEnv (.error .outOfGas)) pricedContext contractLedger.toStores
      sampleCall.transaction) = 1000000 ∧
    ((applyTransaction (burningEnv (.error .outOfGas)) pricedContext contractLedger sampleCall).toOption.map
      fun r => (r.2.gasUsed, (r.1.account ⟨"alice.sov"⟩).balance, (r.1.account ⟨"miner.sov"⟩).balance)) =
      some (21000, 1979000, 21000) := by
  refine ⟨?_, ?_⟩ <;> decide +kernel

/-- A call that returns pays for what it burned. -/
theorem returning_call_pays :
    ∃ r, applyTransaction (burningEnv (.ok ⟨[], [], [], []⟩)) pricedContext contractLedger sampleCall = .ok r ∧
      21000 + 1000000 ≤ r.2.gasUsed.toNat ∧
      FeeCharged contractLedger r.1 ⟨"alice.sov"⟩ ⟨"miner.sov"⟩ (r.2.gasUsed.toNat * 1 + 0) := by
  obtain ⟨r, hr⟩ := exists_of_toOption (x := applyTransaction (burningEnv (.ok ⟨[], [], [], []⟩))
    pricedContext contractLedger sampleCall) (by decide +kernel)
  have hpaid : FuelPaid (burningEnv (.ok ⟨[], [], [], []⟩)) pricedContext contractLedger
      sampleCall.transaction :=
    .inr ⟨⟨1000000, .ok ⟨[], [], [], []⟩⟩, ⟨[], [], [], []⟩, rfl, rfl, by decide +kernel,
      by decide +kernel⟩
  exact ⟨r, hr, (call_paid_iff (burningEnv (.ok ⟨[], [], [], []⟩)) pricedContext contractLedger r.1
    sampleCall r.2 ⟨"app.sov"⟩ 1000000 [] rfl hr).mpr hpaid⟩

end Runtime
end Sov
