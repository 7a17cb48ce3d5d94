import SovChain.Runtime.Execution
import SovChain.State.Frame
import Mathlib.Logic.Relation

/-!
# What an action can do

Every arm of the dispatch is a sequence of a few elementary effects on the ledger and the signer in
flight. `Effect` lists them with the conditions under which the code brings them about; `dispatch_effects`
shows that no action does anything else. What holds of every effect then holds of every transaction, and
an arm that changes is looked at once, here.
-/

namespace Sov
open Codec

/-- What a transaction may draw on beyond its signer: the accounts whose coin and tokens an intent
hands over, the contract whose tokens its own code moves, the vault a proposal pays from, and the Orchard
pool. `mentions` are the ids the transaction brings up. -/
structure Grant where
  intent : AccountId → Prop
  contract : AccountId → Prop
  vault : AccountId → Prop
  pool : Prop
  mentions : AccountId → Prop

/-- Whom a stored proposal would pay. -/
def MultisigProposal.payees (prop : MultisigProposal) : List AccountId :=
  match Action.codec.decodeAll prop.action with
  | some (.transfer dest _) => [dest]
  | _ => []

theorem MultisigProposal.mem_payees {prop : MultisigProposal} {id : AccountId} :
    id ∈ prop.payees ↔ ∃ amount, Action.codec.decodeAll prop.action = some (.transfer id amount) := by
  unfold payees
  split
  · rename_i dest amount h
    simp [h, eq_comm]
  · rename_i h
    simp only [List.not_mem_nil, false_iff, not_exists]
    exact fun amount he => h id amount he

/-- The ids a write puts into the ledger: as keys, as the owner of an NFT or as the payee of a proposal. -/
def UndoOp.ids : UndoOp → List AccountId
  | .account id _ => [id]
  | .contract id _ _ => [id]
  | .tokenBalance _ holder _ => [holder]
  | .tokenWindow _ holder _ => [holder]
  | .nft _ _ (some t) => [t.owner]
  | .proposal _ (some prop) => prop.payees
  | .multisig id _ => [id]
  | .vault owner _ => [owner]
  | _ => []

/-- The writes that move no value and need no more than this: an NFT is new or the signer's own, a
multisig policy is the signer's own, a compliance policy is for an asset that exists and a spend window for
one with a policy. -/
def Permitted (sid : AccountId) (s : Stores) : UndoOp → Prop
  | .contract .. => True
  | .tokenPolicy asset (some _) => (s.tokens.get? asset).isSome
  | .tokenWindow asset _ window => window.isSome → (s.tokenPolicies.get? asset).isSome
  | .nftClass .. => True
  | .nft collection tokenId (some _) => ∀ token, s.nft collection tokenId = some token → token.owner = sid
  | .multisig account (some _) => account = sid
  | .proposal .. => True
  | .intent _ (some _) => True
  | .deshieldWindow _ => True
  | .shieldedV2 _ => True
  | .deshieldV2Window _ => True
  | .oraclePrice _ => True
  | _ => False

/-- The elementary effects. -/
inductive Effect (C : Crypto) (sid : AccountId) (G : Grant) : InFlight → InFlight → Prop
  /-- A write that moves no value. -/
  | write {s : InFlight} (op : UndoOp) (hp : Permitted sid s.ledger.toStores op)
      (hi : ∀ id ∈ op.ids, G.mentions id) : Effect C sid G s { s with ledger := s.ledger.overwrite C op }
  /-- The signer's account changes without gaining or losing, and its nonce stays. -/
  | signer {s : InFlight} {a : Account} (h : a.worth = s.signer.worth) (hn : a.nonce = s.signer.nonce) :
      Effect C sid G s { s with signer := a }
  /-- The signer pays a fee. -/
  | fee {s : InFlight} {amount b t : Balance} (hb : s.signer.balance.checkedSub amount = some b)
      (ht : s.feePaid.checkedAdd amount = some t) : Effect C sid G s ({ s with feePaid := t }.withBalance b)
  /-- The signer pays another account. -/
  | pay {s : InFlight} {dest : AccountId} {amount b c : Balance} (hne : dest ≠ sid)
      (hi : G.mentions dest) (hb : s.signer.balance.checkedSub amount = some b)
      (hc : (s.ledger.account dest).balance.checkedAdd amount = some c) :
      Effect C sid G s
        ({ s with ledger := s.ledger.setAccount C dest { s.ledger.account dest with balance := c } }.withBalance b)
  /-- The owner of an intent pays the signer. -/
  | collect {s : InFlight} {owner : AccountId} {amount b c : Balance} (hne : owner ≠ sid)
      (hg : G.intent owner) (hi : G.mentions owner)
      (hc : (s.ledger.account owner).balance.checkedSub amount = some c)
      (hb : s.signer.balance.checkedAdd amount = some b) :
      Effect C sid G s
        ({ s with ledger := s.ledger.setAccount C owner { s.ledger.account owner with balance := c } }.withBalance b)
  /-- An account is written back as it is. -/
  | touch {s : InFlight} {id : AccountId} (hi : G.mentions id) :
      Effect C sid G s { s with ledger := s.ledger.setAccount C id (s.ledger.account id) }
  /-- A proposal moves coin out of a vault, on the ledger's own copies. -/
  | exec {s : InFlight} {vault dest : AccountId} {amount b c : Balance} (hne : dest ≠ vault)
      (hg : G.vault vault) (hi : G.mentions vault) (hd : G.mentions dest)
      (hb : (s.ledger.account vault).balance.checkedSub amount = some b)
      (hc : (s.ledger.account dest).balance.checkedAdd amount = some c) :
      Effect C sid G s
        { s with
          ledger := (s.ledger.setAccount C dest { s.ledger.account dest with balance := c }).setAccount C
            vault { s.ledger.account vault with balance := b } }
  /-- Coin enters the Orchard pool. -/
  | shield {s : InFlight} {amount b n : Balance} (hb : s.signer.balance.checkedSub amount = some b)
      (hn : s.ledger.shieldedValue.checkedAdd amount = some n) :
      Effect C sid G s ({ s with ledger := s.ledger.overwrite C (.shieldedValue n) }.withBalance b)
  /-- Coin leaves the Orchard pool. -/
  | deshield {s : InFlight} {amount b n : Balance} (hb : s.signer.balance.checkedAdd amount = some b)
      (hn : s.ledger.shieldedValue.checkedSub amount = some n) :
      Effect C sid G s ({ s with ledger := s.ledger.overwrite C (.shieldedValue n) }.withBalance b)
  /-- Coin enters the post-quantum pool. -/
  | shieldV2 {s : InFlight} {amount b n : Balance} (hb : s.signer.balance.checkedSub amount = some b)
      (hn : s.ledger.shieldedV2Value.checkedAdd amount = some n) :
      Effect C sid G s ({ s with ledger := s.ledger.overwrite C (.shieldedV2Value n) }.withBalance b)
  /-- Coin leaves the post-quantum pool. -/
  | deshieldV2 {s : InFlight} {amount b n : Balance} (hb : s.signer.balance.checkedAdd amount = some b)
      (hn : s.ledger.shieldedV2Value.checkedSub amount = some n) :
      Effect C sid G s ({ s with ledger := s.ledger.overwrite C (.shieldedV2Value n) }.withBalance b)
  /-- The Orchard pool takes a bundle. -/
  | pool {s : InFlight} {bundle : ShieldedBundle} {pool : ShieldedState} (hp : G.pool)
      (h : s.ledger.shielded.applyBundle C bundle = (pool, none)) :
      Effect C sid G s { s with ledger := s.ledger.overwrite C (.shielded pool) }
  /-- An Orchard bundle fails on a full tree and leaves the pool half changed. -/
  | torn {s : InFlight} {bundle : ShieldedBundle} {pool : ShieldedState} {e : ShieldedError} (hp : G.pool)
      (h : s.ledger.shielded.applyBundle C bundle = (pool, some e)) :
      Effect C sid G s { s with ledger := { s.ledger with shielded := pool } }
  /-- The signer opens an escrow. -/
  | lock {s : InFlight} {id : Hash} {htlc : Htlc} {b n : Balance} (hid : s.ledger.htlcs.get? id = none)
      (hb : s.signer.balance.checkedSub htlc.amount = some b)
      (hn : s.ledger.htlcLocked.checkedAdd htlc.amount = some n) :
      Effect C sid G s
        ({ s with ledger := (s.ledger.overwrite C (.htlcLocked n)).overwrite C (.htlc id (some htlc)) }.withBalance
          b)
  /-- The signer receives an escrow. -/
  | settle {s : InFlight} {id : Hash} {htlc : Htlc} {b : Balance}
      (hid : s.ledger.htlcs.get? id = some htlc)
      (hb : s.signer.balance.checkedAdd htlc.amount = some b) :
      Effect C sid G s
        ({ s with
            ledger := (s.ledger.overwrite C
              (.htlcLocked (s.ledger.htlcLocked.saturatingSub htlc.amount))).overwrite C
                (.htlc id none) }.withBalance b)
  /-- The signer's vault and balance change together. -/
  | vault {s : InFlight} {v : Vault} {L : Ledger} {b : Balance} (h : s.ledger.setVault C sid v = some L)
      (hi : G.mentions sid)
      (hb : b.toNat + v.collateral.toNat = s.signer.balance.toNat + (s.ledger.vault sid).collateral.toNat) :
      Effect C sid G s ({ s with ledger := L }.withBalance b)
  /-- Tokens are issued. -/
  | mint {s : InFlight} {asset : Hash} {info : TokenInfo} {dest : AccountId} {amount : Balance} {L : Ledger}
      (hinfo : s.ledger.tokens.get? asset = some info ∨
        s.ledger.tokens.get? asset = none ∧ info.issued = 0 ∧ info.burned = 0)
      (hi : G.mentions dest) (h : Runtime.mintTokens C asset info dest amount s.ledger = some L) :
      Effect C sid G s { s with ledger := L }
  /-- The signer burns tokens. -/
  | burn {s : InFlight} {asset : Hash} {info : TokenInfo} {amount remaining burned : Balance}
      (hinfo : s.ledger.tokens.get? asset = some info) (hi : G.mentions sid)
      (hr : (s.ledger.tokenBalance asset sid).checkedSub amount = some remaining)
      (hburn : info.burned.checkedAdd amount = some burned) :
      Effect C sid G s
        { s with
          ledger := (s.ledger.setToken C asset { info with burned }).setTokenBalance C asset sid remaining }
  /-- Tokens move between two accounts. -/
  | tokenMove {s : InFlight} {asset : Hash} {sender dest : AccountId} {amount debited credited : Balance}
      (hne : dest ≠ sender) (hg : sender = sid ∨ G.intent sender) (hs : G.mentions sender)
      (hd : G.mentions dest) (hasset : (s.ledger.tokens.get? asset).isSome)
      (hdeb : (s.ledger.tokenBalance asset sender).checkedSub amount = some debited)
      (hcred : (s.ledger.tokenBalance asset dest).checkedAdd amount = some credited) :
      Effect C sid G s
        { s with
          ledger := (s.ledger.setTokenBalance C asset sender debited).setTokenBalance C asset dest credited }
  /-- A contract moves its tokens in one batch. -/
  | batch {s : InFlight} {contract : AccountId} {cmds : List TokenTransferCmd} {height : U64} {L : Ledger}
      (hg : G.contract contract) (hs : G.mentions contract)
      (hwf : ∀ id : AccountId, id.WellFormed → G.mentions id)
      (h : Runtime.settleContractTokenTransfers C s.ledger contract cmds height = .ok L) :
      Effect C sid G s { s with ledger := L }

/-- A sequence of effects. -/
abbrev Effects (C : Crypto) (sid : AccountId) (G : Grant) : InFlight → InFlight → Prop :=
  Relation.ReflTransGen (Effect C sid G)

namespace Arm

/-- What holds of the state an arm ends in, whatever its status. -/
def Ensures (r : Arm) (P : InFlight → Prop) : Prop := ∀ s st, r = .ok (s, st) → P s

variable {P Q : InFlight → Prop} {s : InFlight} {reason : String} {r : Arm}

@[simp] theorem ensures_failed : Ensures (s.failed reason) P ↔ P s :=
  ⟨fun h => h _ _ rfl, fun h _ _ he => by cases he; exact h⟩

@[simp] theorem ensures_done : Ensures s.done P ↔ P s :=
  ⟨fun h => h _ _ rfl, fun h _ _ he => by cases he; exact h⟩

@[simp] theorem ensures_ok {st : ExecutionStatus} : Ensures (.ok (s, st)) P ↔ P s :=
  ⟨fun h => h _ _ rfl, fun h _ _ he => by cases he; exact h⟩

@[simp] theorem ensures_error {f : Fault} : Ensures (.error f) P :=
  fun _ _ he => by cases he

@[simp] theorem ensures_overflow : Ensures s.overflow P := ensures_error

theorem Ensures.mono (h : Ensures r P) (hPQ : ∀ s, P s → Q s) : Ensures r Q :=
  fun s st he => hPQ s (h s st he)

theorem Ensures.failed (h : P s) : Ensures (s.failed reason) P := ensures_failed.mpr h

theorem Ensures.done (h : P s) : Ensures s.done P := ensures_done.mpr h

theorem Ensures.map {f : InFlight → InFlight} (h : Ensures r fun s => P (f s)) :
    Ensures (r.map fun x => (f x.1, x.2)) P := by
  intro s st he
  rcases r with e | x
  · cases he
  cases he
  exact h x.1 x.2 rfl

theorem guard_eq_ok {c : Prop} [Decidable c] {s' : InFlight} {status : ExecutionStatus}
    (h : (if c then s.failed reason else r) = .ok (s', status)) :
    (s' = s ∧ status ≠ .success) ∨ (¬c ∧ r = .ok (s', status)) := by
  split_ifs at h with hc
  · cases h
    exact .inl ⟨rfl, nofun⟩
  · exact .inr ⟨hc, h⟩

theorem Ensures.guard {c : Prop} [Decidable c] (hs : P s) (hr : ¬c → Ensures r P) :
    Ensures (if c then s.failed reason else r) P := by
  split_ifs with hc
  · exact .failed hs
  · exact hr hc

end Arm

namespace Runtime
section ArmEffects
variable {C : Crypto} {ctx : BlockContext} {sid : AccountId} {G : Grant} {s : InFlight}

open Relation.ReflTransGen (single)
variable {dest : AccountId} {amount : Balance}

theorem transfer_effects (hd : G.mentions (resolveRecipient C s.ledger dest)) :
    (transfer C sid dest amount s).Ensures (Effects C sid G s) := by
  unfold transfer doTransfer
  simp only
  split
  · exact fun _ _ h => by cases h; exact .refl
  rename_i remaining hb
  split_ifs with hself
  · exact fun _ _ h => by cases h; exact .refl
  split
  · exact fun _ _ h => by cases h
  · rename_i credited hc
    exact fun _ _ h => by cases h; exact single (.pay hself hd hb hc)

theorem claimVesting_effects : (claimVesting ctx s).Ensures (Effects C sid G s) := by
  unfold claimVesting
  split_ifs
  · simpa using .refl
  split
  · simp
  rename_i balance hb
  rw [BitVec.checkedAdd_eq_some] at hb
  refine .done (single (.signer ?_ rfl))
  simp only [Account.worth, BitVec.ofNat_eq_ofNat, BitVec.toNat_ofNat, Nat.zero_mod]
  omega

theorem deploy_effects {code : Bytes} : (deploy code s).Ensures (Effects C sid G s) := by
  unfold deploy
  split_ifs
  · simpa using .refl
  · exact .done (single (.signer rfl rfl))

variable {nonce : U64} {requiresHybrid : Bool}

theorem rotateKey_effects {newKey : PublicKey} {proof : Signature} :
    (rotateKey C sid nonce requiresHybrid newKey proof s).Ensures (Effects C sid G s) := by
  unfold rotateKey
  split_ifs
  · simpa using .refl
  · simpa using .refl
  · exact .done (single (.signer rfl rfl))

theorem write_effect (op : UndoOp) (hp : Permitted sid s.ledger op) (hi : op.ids = []) :
    Effect C sid G s { s with ledger := s.ledger.overwrite C op } :=
  .write op hp (by simp [hi])

theorem applyShielded_effects {sb : ShieldedBundle} {window : Option (U64 × Balance)} (hp : G.pool) :
    (applyShielded C sb window s).Ensures (Effects C sid G s) := by
  unfold applyShielded Ledger.applyShieldedBundle
  split
  · rename_i ledger e heq
    split at heq
    · cases heq
    · rename_i pool e' hpool
      cases heq
      exact .failed (single (.torn hp hpool))
  · rename_i ledger heq
    split at heq
    · rename_i pool hpool
      cases heq
      -- The bundle is in the pool; what follows is the value crossing its boundary.
      have hpool : Effect C sid G s { s with ledger := s.ledger.overwrite C (.shielded pool) } :=
        .pool hp hpool
      simp only [Ledger.addShieldedValue, Ledger.subShieldedValue]
      split_ifs
      · split
        · simp
        rename_i b hb
        split
        · simp
        · rename_i L hL
          obtain ⟨n, hn, rfl⟩ := Option.map_eq_some_iff.mp hL
          exact .done ((single hpool).tail (.shield hb hn))
      · split
        · simp
        rename_i L hL
        obtain ⟨n, hn, rfl⟩ := Option.map_eq_some_iff.mp hL
        split
        · simp
        rename_i b hb
        have hout := (single hpool).tail (.deshield hb hn)
        rcases window with _ | w
        · exact .done hout
        exact .done (hout.tail (write_effect (.deshieldWindow (w.1, w.2)) trivial rfl))
      · exact .done (single hpool)
    · cases heq

variable {bundle : Bytes} {E : Env}

/-- What the arm has checked when it applies a bundle. -/
theorem shielded_cases (P : Arm → Prop) (hfailed : ∀ reason, P (s.failed reason))
    (happly : ∀ sb window, E.decodeShielded bundle = some sb →
      (sb.valueBalance.msb = true → (s.signer.balance.checkedSub (unsignedAbs sb.valueBalance)).isSome) →
      (sb.valueBalance.msb = false → sb.valueBalance ≠ 0 →
        (s.ledger.shieldedValue.checkedSub (unsignedAbs sb.valueBalance)).isSome) →
      (sb.valueBalance.msb = false → sb.valueBalance ≠ 0 → ctx.mining.deshieldWindowBlocks ≠ 0 →
        ∃ w, window = some w ∧ ShieldedV2.drainWindow ctx.mining ctx.height s.ledger.deshieldWindow
          (unsignedAbs sb.valueBalance) = some w) → P (applyShielded E sb window s)) :
    P (shielded ctx sid E nonce bundle s) := by
  unfold shielded
  extract_lets rotationWindow verified
  split
  · exact hfailed _
  rename_i sb hsb
  extract_lets mag leaving affordable
  have hleaving : leaving = true ↔ sb.valueBalance.msb = false ∧ sb.valueBalance ≠ 0 := by
    simp [leaving]
  -- Both ways of applying the bundle come after the check that it can be paid for.
  have hpaid : ∀ window, affordable = true →
      (sb.valueBalance.msb = false → sb.valueBalance ≠ 0 → ctx.mining.deshieldWindowBlocks ≠ 0 →
        ∃ w, window = some w ∧ ShieldedV2.drainWindow ctx.mining ctx.height s.ledger.deshieldWindow
          (unsignedAbs sb.valueBalance) = some w) → P (applyShielded E sb window s) := by
    intro window hafford hwindow
    refine happly sb window hsb (fun hneg => ?_) (fun hpos hzero => ?_) hwindow
    · simpa [affordable, hneg] using hafford
    · simpa [affordable, hpos, hleaving.mpr ⟨hpos, hzero⟩] using hafford
  split
  · exact hfailed _
  split
  · exact hfailed _
  by_cases hmetered : (leaving && decide (ctx.mining.deshieldWindowBlocks ≠ 0)) = true
  · rw [if_pos hmetered]
    split
    · exact hfailed _
    rename_i window hdrain
    split
    · exact hfailed _
    rename_i hafford
    exact hpaid _ (by simpa using hafford) fun _ _ _ => ⟨window, rfl, hdrain⟩
  · rw [if_neg hmetered]
    split
    · exact hfailed _
    rename_i hafford
    refine hpaid _ (by simpa using hafford) fun hpos hzero hW => absurd ?_ hmetered
    simpa [hleaving.mpr ⟨hpos, hzero⟩] using hW

theorem shielded_effects (hp : G.pool) : (shielded ctx sid E nonce bundle s).Ensures (Effects E sid G s) :=
  shielded_cases (fun r => r.Ensures _) (fun _ => .failed .refl) fun _ _ _ _ _ _ => applyShielded_effects hp

variable {effects : V2Effects} {deferred : Option Balance}

/-- The withdrawal leg. A deferred fee is on the books before it is taken, so the effects start from a
state that owes it not yet, with `t` collected. -/
theorem applyV2Out_effects {t : Balance}
    (ht : t.checkedAdd (deferred.getD 0) = some s.feePaid) (h0 : effects.deshieldOut = 0 → deferred = none) :
    (applyV2Out C deferred effects s).Ensures (Effects C sid G { s with feePaid := t }) := by
  unfold applyV2Out Ledger.subShieldedV2Value
  split_ifs with hout
  · have : t = s.feePaid := by
      simpa [h0 hout, BitVec.checkedAdd_eq_some, BitVec.toNat_inj] using ht
    subst this
    exact .done .refl
  · rcases hn : s.ledger.shieldedV2Value.checkedSub effects.deshieldOut with _ | n
    · simp
    simp only [Option.map_some]
    rcases hgross : s.signer.balance.checkedAdd effects.deshieldOut with _ | gross
    · simp
    simp only
    rcases hb : gross.checkedSub (deferred.getD 0) with _ | b
    · simp
    have hpaid : Effects C sid G { s with feePaid := t }
        ({ s with ledger := s.ledger.overwrite C (.shieldedV2Value n) }.withBalance b) :=
      (single (.deshieldV2 (s := { s with feePaid := t }) hgross hn)).tail (.fee hb ht)
    rcases effects.windowUpdate with _ | w
    · exact .done hpaid
    exact .done (hpaid.tail (write_effect (.deshieldV2Window (w.1, w.2)) trivial rfl))

theorem applyV2_effects {t : Balance}
    (ht : t.checkedAdd (deferred.getD 0) = some s.feePaid) (h0 : effects.deshieldOut = 0 → deferred = none) :
    (applyV2 C deferred effects s).Ensures (Effects C sid G { s with feePaid := t }) := by
  unfold applyV2 Ledger.applyShieldedV2 Ledger.addShieldedV2Value
  rcases hpool : s.ledger.shieldedV2.apply C effects.nullifiers effects.commitments with e | pool
  · simp [Except.map]
  simp only [Except.map]
  have hwrite : Effects C sid G { s with feePaid := t }
      { s with ledger := s.ledger.overwrite C (.shieldedV2 pool), feePaid := t } :=
    single (write_effect (s := { s with feePaid := t }) (.shieldedV2 pool) trivial rfl)
  split_ifs with hin
  · refine Arm.Ensures.mono (applyV2Out_effects (t := t) ?_ h0) fun _ h => hwrite.trans h
    exact ht
  rcases hb : s.signer.balance.checkedSub effects.shieldIn with _ | b
  · simp
  simp only
  cases hn : (s.ledger.overwrite C (.shieldedV2 pool)).shieldedV2Value.checkedAdd
      effects.shieldIn with
  | none => simp
  | some n =>
    simp only [Option.map_some]
    have hin := hwrite.tail (.shieldV2 hb hn)
    refine Arm.Ensures.mono (applyV2Out_effects (t := t) ?_ h0) fun _ h => hin.trans h
    exact ht

theorem checkedAdd_zero (t : Balance) : t.checkedAdd 0 = some t := by
  simp [BitVec.checkedAdd_eq_some]

theorem shieldedV2_effects {fee : Balance} :
    (shieldedV2 ctx sid E nonce fee none bundle s).Ensures (Effects E sid G s) := by
  unfold shieldedV2
  split_ifs
  · simp
  simp only
  split
  · simp
  · exact applyV2_effects (checkedAdd_zero s.feePaid) fun _ => rfl

/-- A withdrawal that pays its own fee: nothing was collected before it. -/
theorem shieldedV2_effects_deferred {fee : Balance} (hfee : s.feePaid = fee) (hout : effects.deshieldOut ≠ 0) :
    (shieldedV2 ctx sid E nonce fee (some effects) bundle s).Ensures (Effects E sid G { s with feePaid := 0 }) := by
  unfold shieldedV2
  split_ifs
  · simp
  · exact applyV2_effects (by simp [BitVec.checkedAdd_eq_some, hfee]) fun h => absurd h hout

theorem foldl_write_effects {α : Type} {f : α → UndoOp} {l : List α}
    (hp : ∀ a ∈ l, ∀ st, Permitted sid st (f a)) (hi : ∀ a ∈ l, ∀ id ∈ (f a).ids, G.mentions id) :
    Effects C sid G s { s with ledger := l.foldl (fun L a => L.overwrite C (f a)) s.ledger } := by
  induction l generalizing s with
  | nil => exact .refl
  | cons a l ih =>
    have hstep : Effect C sid G s { s with ledger := s.ledger.overwrite C (f a) } :=
      .write _ (hp a List.mem_cons_self _) (hi a List.mem_cons_self)
    exact .head hstep (ih (fun b hb => hp b (List.mem_cons_of_mem _ hb)) fun b hb => hi b (List.mem_cons_of_mem _ hb))

variable {recipient : AccountId}

theorem htlcLock_effects {txId : Hash} {hashlock : Hash} {timeoutHeight : U64} :
    (htlcLock C sid txId recipient amount hashlock timeoutHeight s).Ensures (Effects C sid G s) := by
  unfold htlcLock Ledger.lockHtlc
  rcases hb : s.signer.balance.checkedSub amount with _ | remaining
  · simpa using .refl
  cases hid : s.ledger.htlcs.get? txId with
  | some h => simpa [hid] using .refl
  | none =>
    rcases hn : s.ledger.htlcLocked.checkedAdd amount with _ | n
    · simpa [hid, hn] using .refl
    simp only [OrdMap.contains_eq, hid, Option.isSome_none, Bool.false_eq_true, if_false,
      Option.map_some, Arm.ensures_done]
    exact single (.lock hid hb hn)

variable {htlcId : Hash}

theorem payOutHtlc_effects : (payOutHtlc C htlcId s).Ensures (Effects C sid G s) := by
  unfold payOutHtlc Ledger.settleHtlc
  rcases hid : s.ledger.htlcs.get? htlcId with _ | htlc
  · simpa using .refl
  simp only [Option.map_some]
  cases hb : s.signer.balance.checkedAdd htlc.amount with
  | none => simp
  | some b => exact .done (single (.settle hid hb))

theorem htlcClaim_effects {preimage : Bytes} : (htlcClaim C ctx sid htlcId preimage s).Ensures (Effects C sid G s) := by
  unfold htlcClaim
  cases s.ledger.htlcs.get? htlcId with
  | none => simpa using .refl
  | some htlc =>
    exact .guard .refl fun _ => .guard .refl fun _ => .guard .refl fun _ => payOutHtlc_effects

theorem htlcRefund_effects : (htlcRefund C ctx sid htlcId s).Ensures (Effects C sid G s) := by
  unfold htlcRefund
  cases s.ledger.htlcs.get? htlcId with
  | none => simpa using .refl
  | some htlc => exact .guard .refl fun _ => .guard .refl fun _ => payOutHtlc_effects

/-! ### Tokens -/

theorem getD_info (tokens : OrdMap Hash TokenInfo) (asset : Hash) (issuer : AccountId) (symbol : String) :
    tokens.get? asset = some ((tokens.get? asset).getD ⟨issuer, symbol, 0, 0⟩) ∨
      tokens.get? asset = none ∧ ((tokens.get? asset).getD ⟨issuer, symbol, 0, 0⟩).issued = 0 ∧
        ((tokens.get? asset).getD ⟨issuer, symbol, 0, 0⟩).burned = 0 := by
  cases tokens.get? asset with
  | none => exact .inr ⟨rfl, rfl, rfl⟩
  | some info => exact .inl rfl

theorem mintTokens_eq_some {asset : Hash} {info : TokenInfo} {L L' : Ledger}
    (h : mintTokens C asset info dest amount L = some L') :
    ∃ issued credited, info.issued.checkedAdd amount = some issued ∧
      (L.tokenBalance asset dest).checkedAdd amount = some credited ∧
      L' = (L.setToken C asset { info with issued }).setTokenBalance C asset dest credited := by
  unfold mintTokens at h
  split at h
  · rename_i issued credited hissued hcred
    cases h
    exact ⟨issued, credited, hissued, hcred, rfl⟩
  · cases h

theorem tokenIssue_effects {symbol : String} (hd : G.mentions dest) :
    (tokenIssue C sid symbol amount dest s).Ensures (Effects C sid G s) := by
  unfold tokenIssue
  extract_lets asset info
  refine .guard .refl fun _ => .guard .refl fun _ => .guard .refl fun _ => .guard .refl fun _ => ?_
  cases issueBlocked s.ledger asset dest with
  | some reason => simpa using .refl
  | none =>
    simp only
    cases hm : mintTokens C asset info dest amount s.ledger with
    | none => simpa using .refl
    | some L => exact .done (single (.mint (getD_info _ _ _ _) hd hm))

variable {sender : AccountId} {asset : Hash} {window : Option SpendWindow} {st : Stores}
  {height : U64} {counterparty : AccountId}

theorem checkTokenOutgoing_window
    (h : checkTokenOutgoing st asset sender counterparty amount height = .ok window) :
    window.isSome → (st.tokenPolicies.get? asset).isSome := by
  unfold checkTokenOutgoing at h
  split at h
  · cases h
    exact nofun
  · rename_i policy hpolicy
    exact fun _ => by simp [hpolicy]

theorem storeWindow_effects {holder : AccountId} (hi : G.mentions holder)
    (hp : window.isSome → (s.ledger.tokenPolicies.get? asset).isSome) :
    Effects C sid G s { s with ledger := storeWindow C s.ledger asset holder window } := by
  cases window with
  | none => exact .refl
  | some w => exact single (.write (.tokenWindow asset holder (some w)) hp (by simpa [UndoOp.ids]))

theorem tokenTransfer_effects (hs : G.mentions sid) (hd : G.mentions (resolveRecipient C s.ledger dest)) :
    (tokenTransfer C ctx sid asset dest amount s).Ensures (Effects C sid G s) := by
  unfold tokenTransfer
  extract_lets target
  rcases hasset : s.ledger.tokens.get? asset with _ | info
  · simpa using .refl
  simp only
  rcases hcheck : checkTokenOutgoing s.ledger asset sid target amount ctx.height with reason | window
  · simpa using .refl
  simp only
  rcases hdeb : (s.ledger.tokenBalance asset sid).checkedSub amount with _ | remaining
  · simpa using .refl
  simp only
  split_ifs with hself
  · exact .done .refl
  rcases hcred : (s.ledger.tokenBalance asset target).checkedAdd amount with _ | credited
  · simpa using .refl
  have hmove : Effect C sid G s _ :=
    .tokenMove hself (.inl rfl) hs hd (by simp [hasset]) hdeb hcred
  exact .done
    (.head hmove (storeWindow_effects hs (checkTokenOutgoing_window hcheck)))

theorem tokenBurn_effects (hs : G.mentions sid) : (tokenBurn C ctx sid asset amount s).Ensures (Effects C sid G s) := by
  unfold tokenBurn
  rcases hasset : s.ledger.tokens.get? asset with _ | info
  · simpa using .refl
  simp only
  rcases hcheck : checkTokenOutgoing s.ledger asset sid sid amount ctx.height with reason | window
  · simpa using .refl
  simp only
  rcases hdeb : (s.ledger.tokenBalance asset sid).checkedSub amount with _ | remaining
  · simpa using .refl
  simp only
  rcases hburn : info.burned.checkedAdd amount with _ | burned
  · simpa using .refl
  have hburnt : Effect C sid G s _ := .burn hasset hs hdeb hburn
  exact .done
    (.head hburnt (storeWindow_effects hs (checkTokenOutgoing_window hcheck)))

theorem tokenSetPolicy_effects {policy : CompliancePolicy}
    (hw : ∀ holder ∈ Ledger.windowHolders s.ledger asset, G.mentions holder) :
    (tokenSetPolicy C sid asset policy s).Ensures (Effects C sid G s) := by
  unfold tokenSetPolicy Ledger.setTokenPolicy
  rcases hasset : s.ledger.tokens.get? asset with _ | info
  · simpa using .refl
  refine .guard .refl fun _ => .guard .refl fun _ => .done ?_
  refine .head (write_effect (.tokenPolicy asset (some policy)) (by simp [Permitted, hasset]) rfl) ?_
  refine foldl_write_effects (f := fun holder => .tokenWindow asset holder none)
    (fun _ _ _ => nofun) fun holder hh id hid => ?_
  simp only [UndoOp.ids, List.mem_singleton] at hid
  exact hid ▸ hw holder hh

/-! ### Intents -/

theorem settleLeg_token {a : Asset} {id : Hash} (h : settleLeg st a = .ok (.token id)) :
    a = .token id ∧ (st.tokens.get? id).isSome := by
  cases a with
  | sov => cases h
  | token x =>
    simp only [settleLeg] at h
    split_ifs at h with hx
    cases h
    exact ⟨rfl, by simpa [Option.isSome_iff_ne_none] using hx⟩

theorem settleLeg_native {a : Asset} (h : settleLeg st a = .ok .native) : a = .sov := by
  cases a with
  | sov => rfl
  | token x =>
    simp only [settleLeg] at h
    split_ifs at h
    cases h

variable {leg : SettleLeg}

theorem writeWindow_effects (hi : G.mentions sender)
    (hgate : leg.gate st sender counterparty amount height = .ok window)
    (hst : s.ledger.tokenPolicies = st.tokenPolicies) :
    Effects C sid G s { s with ledger := leg.writeWindow C s.ledger sender window } := by
  cases leg with
  | native => exact .refl
  | token asset => exact storeWindow_effects hi (hst ▸ checkTokenOutgoing_window hgate)

variable {debited credited : Balance}

theorem leg_write_effects (amount : Balance) (hne : recipient ≠ sender) (hg : sender = sid ∨ G.intent sender)
    (hs : G.mentions sender) (hr : G.mentions recipient)
    (hleg : ∀ asset, leg = .token asset → (s.ledger.tokens.get? asset).isSome ∧
      (s.ledger.tokenBalance asset sender).checkedSub amount = some debited ∧
      (s.ledger.tokenBalance asset recipient).checkedAdd amount = some credited) :
    Effects C sid G s { s with ledger := leg.write C s.ledger sender debited recipient credited } := by
  cases leg with
  | native => exact .refl
  | token asset =>
    obtain ⟨hasset, hdeb, hcred⟩ := hleg asset rfl
    exact single (.tokenMove hne hg hs hr hasset hdeb hcred)

variable {L : Ledger}

theorem tokenBalance_leg_write {who : AccountId} (h : leg ≠ .token asset) :
    (leg.write C L sender debited recipient credited).tokenBalance asset who = L.tokenBalance asset who := by
  cases leg with
  | native => rfl
  | token asset' =>
    have hne : asset' ≠ asset := fun he => h (he ▸ rfl)
    rw [SettleLeg.write, Ledger.tokenBalance_setTokenBalance_of_asset_ne _ _ hne,
      Ledger.tokenBalance_setTokenBalance_of_asset_ne _ _ hne]

theorem tokens_leg_write : (leg.write C L sender debited recipient credited).tokens = L.tokens := by
  cases leg <;> rfl

theorem tokenPolicies_leg_write :
    (leg.write C L sender debited recipient credited).tokenPolicies = L.tokenPolicies := by
  cases leg <;> rfl

theorem tokenPolicies_writeWindow : (leg.writeWindow C L sender window).tokenPolicies = L.tokenPolicies := by
  cases leg <;> cases window <;> rfl

/-- The balances of a swap as effects. The legs touch different cells: the assets differ and so do the
parties, so the second leg finds the balances it was computed from. -/
theorem legs_effects {owner : AccountId} {giveAsset wantAsset : Asset} {giveLeg wantLeg : SettleLeg}
    {give deliver ownerDebited solverDebited ownerCredited solverCredited : Balance} (hne : owner ≠ sid)
    (hg : G.intent owner) (ho : G.mentions owner) (hs : G.mentions sid) (hdiff : giveAsset ≠ wantAsset)
    (hgive : settleLeg s.ledger giveAsset = .ok giveLeg) (hwant : settleLeg s.ledger wantAsset = .ok wantLeg)
    (hod : (giveLeg.balance s.ledger owner (s.ledger.account owner).balance).checkedSub give = some ownerDebited)
    (hsd : (wantLeg.balance s.ledger sid s.signer.balance).checkedSub deliver = some solverDebited)
    (hsc : (giveLeg.balance s.ledger sid s.signer.balance).checkedAdd give = some solverCredited)
    (hoc : (wantLeg.balance s.ledger owner (s.ledger.account owner).balance).checkedAdd deliver = some ownerCredited) :
    Effects C sid G s
      ({ s with
          ledger := wantLeg.write C
            (giveLeg.write C
              (s.ledger.setAccount C owner
                { s.ledger.account owner with
                  balance := wantLeg.nativeOr ownerCredited
                    (giveLeg.nativeOr ownerDebited (s.ledger.account owner).balance) })
              owner ownerDebited sid solverCredited)
            sid solverDebited owner ownerCredited }.withBalance
        (giveLeg.nativeOr solverCredited (wantLeg.nativeOr solverDebited s.signer.balance))) := by
  -- The native side: one account is written in any case.
  let s1 := { s with
    ledger := s.ledger.setAccount C owner
      { s.ledger.account owner with
        balance := wantLeg.nativeOr ownerCredited
          (giveLeg.nativeOr ownerDebited (s.ledger.account owner).balance) } }.withBalance
      (giveLeg.nativeOr solverCredited (wantLeg.nativeOr solverDebited s.signer.balance))
  have hnative : Effects C sid G s s1 := by
    cases giveLeg with
    | native =>
      cases wantLeg with
      | native => exact absurd ((settleLeg_native hgive).trans (settleLeg_native hwant).symm) hdiff
      | token asset => exact single (.collect hne hg ho hod hsc)
    | token asset =>
      cases wantLeg with
      | native => exact single (.pay hne ho hsd hoc)
      | token asset' => exact single (.touch ho)
  have hgiveLeg : Effects C sid G s1
      { s1 with ledger := giveLeg.write C s1.ledger owner ownerDebited sid solverCredited } :=
    leg_write_effects give (Ne.symm hne) (.inr hg) ho hs fun asset hleg => by
      subst hleg
      exact ⟨(settleLeg_token hgive).2, hod, hsc⟩
  refine (hnative.trans hgiveLeg).trans (leg_write_effects deliver hne (.inl rfl) hs ho fun asset hleg => ?_)
  subst hleg
  have hother : giveLeg ≠ .token asset := by
    rintro rfl
    exact hdiff ((settleLeg_token hgive).1.trans (settleLeg_token hwant).1.symm)
  refine ⟨?_, ?_, ?_⟩
  · rw [tokens_leg_write]
    exact (settleLeg_token hwant).2
  · rw [tokenBalance_leg_write hother]
    exact hsd
  · rw [tokenBalance_leg_write hother]
    exact hoc

/-- What a swap that went through has checked and computed: the legs, what the gates let through, and the four
balances. -/
structure Swap (C : Crypto) (L : Ledger) (signer : Account) (solver : AccountId) (settlement : Settlement)
    (height : U64) (L' : Ledger) (a : Account) (giveLeg wantLeg : SettleLeg)
    (ownerWindow solverWindow : Option SpendWindow)
    (ownerDebited solverDebited solverCredited ownerCredited : Balance) : Prop where
  give : settleLeg L.toStores settlement.intent.intent.giveAsset = .ok giveLeg
  want : settleLeg L.toStores settlement.intent.intent.wantAsset = .ok wantLeg
  ownerGate : giveLeg.gate L.toStores settlement.intent.intent.owner solver settlement.intent.intent.giveAmount height =
    .ok ownerWindow
  solverGate : wantLeg.gate L.toStores solver settlement.intent.intent.owner settlement.deliverAmount height =
    .ok solverWindow
  ownerPays : (giveLeg.balance L.toStores settlement.intent.intent.owner
    (L.account settlement.intent.intent.owner).balance).checkedSub settlement.intent.intent.giveAmount =
      some ownerDebited
  solverPays : (wantLeg.balance L.toStores solver signer.balance).checkedSub settlement.deliverAmount =
    some solverDebited
  solverGets : (giveLeg.balance L.toStores solver signer.balance).checkedAdd settlement.intent.intent.giveAmount =
    some solverCredited
  ownerGets : (wantLeg.balance L.toStores settlement.intent.intent.owner
    (L.account settlement.intent.intent.owner).balance).checkedAdd settlement.deliverAmount = some ownerCredited
  ledger : L' = wantLeg.writeWindow C
    (giveLeg.writeWindow C (wantLeg.write C (giveLeg.write C (L.setAccount C settlement.intent.intent.owner
            { L.account settlement.intent.intent.owner with
              balance := wantLeg.nativeOr ownerCredited
                (giveLeg.nativeOr ownerDebited (L.account settlement.intent.intent.owner).balance) })
          settlement.intent.intent.owner ownerDebited solver solverCredited)
        solver solverDebited settlement.intent.intent.owner ownerCredited)
      settlement.intent.intent.owner ownerWindow) solver solverWindow
  signer : a = { signer with
    balance := giveLeg.nativeOr solverCredited (wantLeg.nativeOr solverDebited signer.balance) }

variable {a : Account} {settlement : Settlement} {solver : AccountId}

theorem settleIntentLegs_eq_ok {L' : Ledger} {signer : Account}
    (h : settleIntentLegs C L signer solver settlement height = .ok (.ok (L', a))) :
    ∃ giveLeg wantLeg ownerWindow solverWindow ownerDebited solverDebited solverCredited ownerCredited,
      Swap C L signer solver settlement height L' a giveLeg wantLeg ownerWindow solverWindow ownerDebited solverDebited
        solverCredited ownerCredited := by
  unfold settleIntentLegs at h
  extract_lets intent owner st ownerAcct at h
  split at h
  · cases h
  · cases h
  rename_i giveLeg wantLeg hgive hwant
  split at h
  · cases h
  · cases h
  rename_i ownerWindow solverWindow hownerGate hsolverGate
  split at h
  · cases h
  · cases h
  rename_i ownerDebited solverDebited hod hsd
  split at h
  · cases giveLeg <;> cases h
  · cases wantLeg <;> cases h
  rename_i solverCredited ownerCredited hsc hoc
  cases h
  exact ⟨giveLeg, wantLeg, ownerWindow, solverWindow, ownerDebited, solverDebited, solverCredited, ownerCredited,
    hgive, hwant, hownerGate, hsolverGate, hod, hsd, hsc, hoc, rfl, rfl⟩

theorem settleIntentLegs_effects (hne : settlement.intent.intent.owner ≠ sid)
    (hg : G.intent settlement.intent.intent.owner) (ho : G.mentions settlement.intent.intent.owner)
    (hs : G.mentions sid) (hdiff : settlement.intent.intent.giveAsset ≠ settlement.intent.intent.wantAsset)
    (h : settleIntentLegs C s.ledger s.signer sid settlement height = .ok (.ok (L, a))) :
    Effects C sid G s { s with ledger := L, signer := a } := by
  obtain ⟨giveLeg, wantLeg, ownerWindow, solverWindow, ownerDebited, solverDebited, solverCredited, ownerCredited,
    hswap⟩ := settleIntentLegs_eq_ok h
  have hlegs := legs_effects (C := C) hne hg ho hs hdiff hswap.give hswap.want hswap.ownerPays hswap.solverPays
    hswap.solverGets hswap.ownerGets
  rw [hswap.ledger, hswap.signer]
  refine (hlegs.trans (writeWindow_effects ho hswap.ownerGate ?_)).trans (writeWindow_effects hs hswap.solverGate ?_)
  · simp only [InFlight.withBalance, tokenPolicies_leg_write]
    rfl
  · simp only [InFlight.withBalance, tokenPolicies_leg_write, tokenPolicies_writeWindow]
    rfl

/-- An intent that is not used yet is journalled. -/
theorem consumeIntent_effect {id : Hash} (h : s.ledger.intentConsumed id = false) :
    Effect C sid G s { s with ledger := s.ledger.consumeIntent C id } := by
  rw [Ledger.consumeIntent, if_neg (by simp [h])]
  exact write_effect _ trivial rfl

theorem consumedIntents_settleIntentLegs {L' : Ledger} {signer : Account}
    (h : settleIntentLegs C L signer solver settlement height = .ok (.ok (L', a))) :
    L'.consumedIntents = L.consumedIntents := by
  obtain ⟨giveLeg, wantLeg, ownerWindow, solverWindow, _, _, _, _, hswap⟩ := settleIntentLegs_eq_ok h
  rw [hswap.ledger]
  cases giveLeg <;> cases wantLeg <;> cases ownerWindow <;> cases solverWindow <;> rfl

/-- What a settlement must show for its owner to be bound by it. -/
structure Consents (C : Crypto) (ctx : BlockContext) (st : Stores) (settlement : Settlement) : Prop where
  noPolicy : st.multisig.get? settlement.intent.intent.owner = none
  key : (st.account settlement.intent.intent.owner).key = some settlement.intent.intent.publicKey
  verified : settlement.intent.verifyMode C ctx.txDomain = true

/-- What a settlement has passed before its legs are looked at. -/
structure Settleable (C : Crypto) (ctx : BlockContext) (sid : AccountId) (settlement : Settlement) (st : Stores) :
    Prop where
  solver : settlement.solver = sid
  parties : settlement.intent.intent.owner ≠ sid
  unexpired : ctx.height.toNat ≤ settlement.intent.intent.expiryHeight.toNat
  unused : st.intentConsumed (settlement.intent.intent.id C) = false
  assets : settlement.intent.intent.giveAsset ≠ settlement.intent.intent.wantAsset
  minimum : settlement.intent.intent.minReceive.toNat ≤ settlement.deliverAmount.toNat

theorem intentSettle_eq_ok {s' : InFlight} {status : ExecutionStatus}
    (h : intentSettle C ctx sid settlement s = .ok (s', status)) : (s' = s ∧ status ≠ .success) ∨
      status = .success ∧ Consents C ctx s.ledger settlement ∧
        (pqRequiresHybridAuthority (s.ledger.account settlement.intent.intent.owner) ctx = true →
          isHybridKey settlement.intent.intent.publicKey = true) ∧ Settleable C ctx sid settlement s.ledger ∧
        ∃ L a, settleIntentLegs C s.ledger s.signer sid settlement ctx.height = .ok (.ok (L, a)) ∧
          s' = { s with ledger := L.consumeIntent C (settlement.intent.intent.id C), signer := a } := by
  unfold intentSettle at h
  extract_lets intent owner at h
  obtain hfailed | ⟨hsolver, h⟩ := Arm.guard_eq_ok h
  · exact .inl hfailed
  obtain hfailed | ⟨hparties, h⟩ := Arm.guard_eq_ok h
  · exact .inl hfailed
  obtain hfailed | ⟨hpolicy, h⟩ := Arm.guard_eq_ok h
  · exact .inl hfailed
  obtain hfailed | ⟨hkey, h⟩ := Arm.guard_eq_ok h
  · exact .inl hfailed
  obtain hfailed | ⟨hpq, h⟩ := Arm.guard_eq_ok h
  · exact .inl hfailed
  obtain hfailed | ⟨hsigned, h⟩ := Arm.guard_eq_ok h
  · exact .inl hfailed
  obtain hfailed | ⟨hexpired, h⟩ := Arm.guard_eq_ok h
  · exact .inl hfailed
  obtain hfailed | ⟨hused, h⟩ := Arm.guard_eq_ok h
  · exact .inl hfailed
  obtain hfailed | ⟨hassets, h⟩ := Arm.guard_eq_ok h
  · exact .inl hfailed
  obtain hfailed | ⟨hminimum, h⟩ := Arm.guard_eq_ok h
  · exact .inl hfailed
  split at h
  · cases h
  · cases h
    exact .inl ⟨rfl, nofun⟩
  rename_i L a hlegs
  cases h
  exact .inr ⟨rfl, ⟨by simpa using hpolicy, not_not.mp hkey, by simpa using hsigned⟩,
    fun (hrequired : pqRequiresHybridAuthority owner ctx = true) => by simpa [hrequired] using hpq,
    ⟨not_not.mp hsolver, hparties, not_lt.mp hexpired, by simpa using hused, hassets, not_lt.mp hminimum⟩,
    L, a, hlegs, rfl⟩

theorem intentSettle_effects (hs : G.mentions sid) (ho : G.mentions settlement.intent.intent.owner)
    (hg : Consents C ctx s.ledger settlement → G.intent settlement.intent.intent.owner) :
    (intentSettle C ctx sid settlement s).Ensures (Effects C sid G s) := by
  intro s' status h
  obtain ⟨rfl, -⟩ | ⟨-, hconsents, -, hpassed, L, a, hlegs, rfl⟩ := intentSettle_eq_ok h
  · exact .refl
  have hunused : L.intentConsumed (settlement.intent.intent.id C) = false := by
    simpa [Stores.intentConsumed, consumedIntents_settleIntentLegs hlegs] using hpassed.unused
  have hswap := settleIntentLegs_effects (G := G) hpassed.parties (hg hconsents) ho hs hpassed.assets hlegs
  exact hswap.tail (consumeIntent_effect hunused)

theorem intentCancel_effects {intent : Intent} : (intentCancel C sid intent s).Ensures (Effects C sid G s) := by
  unfold intentCancel
  refine .guard .refl fun _ => .guard .refl fun hused => .done (single ?_)
  exact consumeIntent_effect (by simpa using hused)

/-! ### Names and NFTs -/

variable {tokenId : Bytes} {collection : Hash}

theorem nft_effect {token : NftToken} (hi : G.mentions token.owner)
    (hp : ∀ t, s.ledger.nft collection tokenId = some t → t.owner = sid) :
    Effect C sid G s { s with ledger := s.ledger.overwrite C (.nft collection tokenId (some token)) } :=
  .write _ hp (by simpa [UndoOp.ids] using hi)

theorem registerName_effects {name : String} (hs : G.mentions sid) :
    (registerName C ctx sid name s).Ensures (Effects C sid G s) := by
  unfold registerName
  rcases AccountId.new name with e | id
  · simpa using .refl
  refine .guard .refl fun _ => .guard .refl fun htaken => .guard .refl fun _ => ?_
  rcases hb : s.signer.balance.checkedSub nameRegistrationFeeGrains with _ | remaining
  · simpa using .refl
  rcases ht : s.feePaid.checkedAdd nameRegistrationFeeGrains with _ | feePaid
  · simp
  have hfree : s.ledger.nft (snsClass C) (strBytes name) = none := by
    simpa [Stores.nameTaken, Stores.nameToken] using htaken
  simp only [Ledger.registerName, Ledger.mintNft, hfree, Option.isSome_none, Bool.false_eq_true,
    if_false, Option.getD_some, Arm.ensures_done]
  refine .head (.fee hb ht) (single (nft_effect hs fun t ht => ?_))
  exact absurd (hfree.symm.trans ht) nofun

theorem transferName_effects {name : String} (hd : G.mentions dest) :
    (transferName C sid name dest s).Ensures (Effects C sid G s) := by
  unfold transferName Ledger.transferName Ledger.transferNft Stores.nameToken
  rcases htoken : s.ledger.nft (snsClass C) (strBytes name) with _ | token
  · simpa using .refl
  refine .guard .refl fun howner => .done (single (nft_effect hd fun t ht => ?_))
  cases htoken.symm.trans ht
  simpa using howner

theorem nftMint_effects {symbol : String} {metadata : Bytes} (hd : G.mentions dest) :
    (nftMint C ctx sid symbol tokenId dest metadata s).Ensures (Effects C sid G s) := by
  unfold nftMint Ledger.mintNft
  refine .guard .refl fun _ => ?_
  extract_lets classId existing
  refine .guard .refl fun _ => ?_
  cases htoken : s.ledger.nft classId tokenId with
  | some token => simpa [htoken] using .refl
  | none =>
    simp only [Option.isSome_none, Bool.false_eq_true, if_false, Arm.ensures_done]
    refine .head (nft_effect hd fun t ht => ?_) (single (write_effect _ trivial rfl))
    exact absurd (htoken.symm.trans ht) nofun

theorem nftTransfer_effects (hd : G.mentions dest) :
    (nftTransfer C sid collection tokenId dest s).Ensures (Effects C sid G s) := by
  unfold nftTransfer Ledger.transferNft Stores.nftOwner
  rcases htoken : s.ledger.nft collection tokenId with _ | token
  · simpa using .refl
  refine .guard .refl fun howner => .done (single (nft_effect hd fun t ht => ?_))
  cases htoken.symm.trans ht
  simpa using howner

theorem nftSetMeta_effects {metadata : Bytes} (hs : G.mentions sid) :
    (nftSetMeta C sid collection tokenId metadata s).Ensures (Effects C sid G s) := by
  unfold nftSetMeta Ledger.setNftMeta Stores.nftOwner
  rcases htoken : s.ledger.nft collection tokenId with _ | token
  · simpa using .refl
  refine .guard .refl fun howner => ?_
  have howner : token.owner = sid := by simpa using howner
  refine .done (single (nft_effect (howner ▸ hs) fun t ht => ?_))
  cases htoken.symm.trans ht
  exact howner

/-! ### Multisig -/

/-- `action` is the proposal, or the approval, that brings `inner` to the threshold of `vault`. -/
def Approves (ctx : BlockContext) (st : Stores) (key : PublicKey) (vault : AccountId) (inner : Action) :
    Action → Prop
  | .proposeMultisig account proposed => account = vault ∧ proposed = inner ∧ isProposable inner = true ∧
      (isHybridKey key = true ∨ pqRequiresHybridAuthority (st.account vault) ctx = false) ∧
      ∃ policy idx, st.multisig.get? vault = some policy ∧ memberIndex policy key = some idx ∧
        thresholdMet [idx] policy = true
  | .approveMultisig account proposal => account = vault ∧
      (isHybridKey key = true ∨ pqRequiresHybridAuthority (st.account vault) ctx = false) ∧
      ∃ policy idx prop, st.multisig.get? vault = some policy ∧ memberIndex policy key = some idx ∧
        st.proposals.get? proposal = some prop ∧ prop.account = vault ∧
        thresholdMet (addApprover (retainedApprovers policy
          (pqRequiresHybridAuthority (st.account vault) ctx) prop.approvers) idx) policy = true ∧
        Action.codec.decodeAll prop.action = some inner
  | _ => False

variable {account : AccountId}

theorem executeFor_effects {action : Action} (hg : G.vault account) (hi : G.mentions account)
    (hd : ∀ dest amount, action = .transfer dest amount → G.mentions (resolveRecipient C s.ledger dest)) :
    (executeFor C account action s).Ensures (Effects C sid G s) := by
  unfold executeFor executeProposalAction
  split
  · rename_i dest amount
    unfold doTransfer
    extract_lets target
    rcases hb : (s.ledger.account account).balance.checkedSub amount with _ | remaining
    · exact Arm.ensures_ok.mpr (single (.touch hi))
    simp only
    by_cases hself : target = account
    · rw [if_pos hself]
      exact Arm.ensures_ok.mpr (single (.touch hi))
    rw [if_neg hself]
    cases hc : (s.ledger.account target).balance.checkedAdd amount with
    | none => exact Arm.ensures_error
    | some credited => exact Arm.ensures_ok.mpr (single (.exec hself hg hi (hd dest amount rfl) hb hc))
  · exact Arm.ensures_ok.mpr .refl

variable {key : PublicKey} {action : Action} {proposal : Hash}

/-- A proposal is refused, stored below the threshold or carried out at once. -/
theorem proposeMultisig_cases (P : Arm → Prop) (refused : ∀ reason, (∀ vault inner,
      ¬Approves ctx s.ledger key vault inner (.proposeMultisig account action)) → P (s.failed reason))
    (stored : ∀ policy idx, (∀ vault inner, ¬Approves ctx s.ledger key vault inner (.proposeMultisig account action)) →
      s.ledger.multisig.get? account = some policy → memberIndex policy key = some idx →
      thresholdMet [idx] policy = false →
      P { s with ledger := s.ledger.setProposal C (proposalId C account (PublicKey.codec.encode key) nonce
          (Action.codec.encode action)) ⟨account, Action.codec.encode action, [idx]⟩ }.done)
    (carried : Approves ctx s.ledger key account action (.proposeMultisig account action) →
      P (executeFor C account action s)) :
    P (proposeMultisig C ctx key nonce account action s) := by
  unfold proposeMultisig
  cases hpolicy : s.ledger.multisig.get? account with
  | none =>
    refine refused _ ?_
    rintro vault inner ⟨rfl, -, -, -, policy, idx, hp, -⟩
    cases hpolicy.symm.trans hp
  | some policy =>
    dsimp only
    cases hidx : memberIndex policy key with
    | none =>
      refine refused _ ?_
      rintro vault inner ⟨rfl, -, -, -, policy', idx, hp, hi, -⟩
      cases hpolicy.symm.trans hp
      cases hidx.symm.trans hi
    | some idx =>
      dsimp only
      split_ifs with hkind hhybrid hmet
      · refine refused _ ?_
        rintro vault inner ⟨rfl, rfl, hk, -⟩
        simp [hk] at hkind
      · refine refused _ ?_
        rintro vault inner ⟨rfl, rfl, -, hh, -⟩
        rcases hh with hh | hh <;> simp [hh] at hhybrid
      · exact carried ⟨rfl, rfl, by simpa using hkind, by simpa [or_iff_not_imp_left] using hhybrid, policy, idx,
          hpolicy, hidx, hmet⟩
      refine stored policy idx ?_ hpolicy hidx (by simpa using hmet)
      rintro vault inner ⟨rfl, rfl, -, -, policy', idx', hp, hi, hm⟩
      cases hpolicy.symm.trans hp
      cases hidx.symm.trans hi
      exact hmet hm

theorem approveMultisig_cases (P : Arm → Prop) (refused : ∀ reason, (∀ vault inner,
      ¬Approves ctx s.ledger key vault inner (.approveMultisig account proposal)) → P (s.failed reason))
    (stored : ∀ policy idx prop, (∀ vault inner,
      ¬Approves ctx s.ledger key vault inner (.approveMultisig account proposal)) →
      s.ledger.multisig.get? account = some policy → memberIndex policy key = some idx →
      s.ledger.proposals.get? proposal = some prop → prop.account = account → ∀ approvers,
      approvers = addApprover (retainedApprovers policy
        (pqRequiresHybridAuthority (s.ledger.account account) ctx) prop.approvers) idx →
      thresholdMet approvers policy = false →
      P { s with ledger := s.ledger.setProposal C proposal { prop with approvers } }.done)
    (carried : ∀ inner prop, s.ledger.proposals.get? proposal = some prop →
      Action.codec.decodeAll prop.action = some inner →
      Approves ctx s.ledger key account inner (.approveMultisig account proposal) →
      P ((executeFor C account inner s).map fun r => ({ r.1 with ledger := r.1.ledger.removeProposal C proposal }, r.2))) :
    P (approveMultisig C ctx key account proposal s) := by
  unfold approveMultisig
  cases hpolicy : s.ledger.multisig.get? account with
  | none =>
    refine refused _ ?_
    rintro vault inner ⟨rfl, -, policy, idx, prop, hp, -⟩
    cases hpolicy.symm.trans hp
  | some policy =>
    dsimp only
    cases hidx : memberIndex policy key with
    | none =>
      refine refused _ ?_
      rintro vault inner ⟨rfl, -, policy', idx, prop, hp, hi, -⟩
      cases hpolicy.symm.trans hp
      cases hidx.symm.trans hi
    | some idx =>
      cases hprop : s.ledger.proposals.get? proposal with
      | none =>
        refine refused _ ?_
        rintro vault inner ⟨rfl, -, policy', idx', prop, -, -, hpr, -⟩
        cases hprop.symm.trans hpr
      | some prop =>
        dsimp only
        -- The policy, the member and the proposal are those of any approval.
        have hsame : ∀ {vault inner},
            Approves ctx s.ledger key vault inner (.approveMultisig account proposal) →
            (isHybridKey key = true ∨ pqRequiresHybridAuthority (s.ledger.account account) ctx = false) ∧
            prop.account = account ∧ thresholdMet (addApprover (retainedApprovers policy
              (pqRequiresHybridAuthority (s.ledger.account account) ctx) prop.approvers) idx) policy = true ∧
            Action.codec.decodeAll prop.action = some inner := by
          rintro vault inner ⟨rfl, hhybrid, policy', idx', prop', hp, hi, hpr, hrest⟩
          cases hpolicy.symm.trans hp
          cases hidx.symm.trans hi
          cases hprop.symm.trans hpr
          exact ⟨hhybrid, hrest⟩
        split_ifs with hacct hhybrid hmet
        · exact refused _ fun vault inner ha => hacct (hsame ha).2.1
        · refine refused _ fun vault inner ha => ?_
          rcases (hsame ha).1 with hh | hh <;> simp [hh] at hhybrid
        · rcases hdecode : Action.codec.decodeAll prop.action with _ | inner
          · refine refused _ fun vault inner ha => ?_
            cases hdecode.symm.trans (hsame ha).2.2.2
          exact carried inner prop hprop hdecode ⟨rfl, by simpa [or_iff_not_imp_left] using hhybrid, policy, idx,
            prop, hpolicy, hidx, hprop, not_not.mp hacct, hmet, hdecode⟩
        · exact stored policy idx prop (fun vault inner ha => hmet (hsame ha).2.2.1) hpolicy hidx hprop
            (not_not.mp hacct) _ rfl (by simpa using hmet)

theorem proposeMultisig_effects (hi : G.mentions account)
    (hg : Approves ctx s.ledger key account action (.proposeMultisig account action) →
      G.vault account) (hd : ∀ dest amount, action = .transfer dest amount →
      G.mentions (resolveRecipient C s.ledger dest)) (hstored : ∀ dest amount,
      Action.codec.decodeAll (Action.codec.encode action) = some (.transfer dest amount) → G.mentions dest) :
    (proposeMultisig C ctx key nonce account action s).Ensures (Effects C sid G s) := by
  refine proposeMultisig_cases (·.Ensures (Effects C sid G s)) (fun _ _ => .failed .refl) (fun policy idx _ _ _ _ => ?_)
    fun ha => executeFor_effects (hg ha) hi hd
  refine .done (single (.write _ trivial fun id hid => ?_))
  obtain ⟨amount, hdecoded⟩ := MultisigProposal.mem_payees.mp hid
  exact hstored id amount hdecoded

theorem approveMultisig_effects (hi : G.mentions account)
    (hg : ∀ inner, Approves ctx s.ledger key account inner (.approveMultisig account proposal) →
      G.vault account) (hd : ∀ prop dest amount, s.ledger.proposals.get? proposal = some prop →
      Action.codec.decodeAll prop.action = some (.transfer dest amount) →
      G.mentions dest ∧ G.mentions (resolveRecipient C s.ledger dest)) :
    (approveMultisig C ctx key account proposal s).Ensures (Effects C sid G s) := by
  refine approveMultisig_cases (·.Ensures (Effects C sid G s)) (fun _ _ => .failed .refl)
    (fun policy idx prop _ _ _ hprop _ _ _ _ => ?_)
    fun inner prop hprop hdecode ha => ?_
  · refine .done (single (.write _ trivial fun id hid => ?_))
    obtain ⟨amount, hdecoded⟩ := MultisigProposal.mem_payees.mp hid
    exact (hd prop id amount hprop hdecoded).1
  · have hexec : (executeFor C account inner s).Ensures (Effects C sid G s) :=
      executeFor_effects (hg inner ha) hi fun dest amount he => (hd prop dest amount hprop (he ▸ hdecode)).2
    exact Arm.Ensures.map (f := fun s' => { s' with ledger := s'.ledger.removeProposal C proposal })
      (hexec.mono fun s' h => h.tail (write_effect _ trivial rfl))

theorem cancelMultisig_effects : (cancelMultisig C ctx key account proposal s).Ensures (Effects C sid G s) := by
  unfold cancelMultisig
  exact .guard .refl fun _ => .guard .refl fun _ => .guard .refl fun _ =>
    .done (single (write_effect _ trivial rfl))

theorem setMultisig_effects {signers : List PublicKey} {threshold : U16} (hs : G.mentions sid) :
    (setMultisig C sid requiresHybrid signers threshold s).Ensures (Effects C sid G s) := by
  unfold setMultisig Ledger.removeProposalsFor
  refine .guard .refl fun _ => .guard .refl fun _ => .guard .refl fun _ => .guard .refl fun _ => ?_
  refine .done (.head (.write (.multisig sid (some ⟨signers, threshold⟩)) rfl (by simpa [UndoOp.ids] using hs)) ?_)
  exact foldl_write_effects (f := fun id => .proposal id none) (fun _ _ _ => trivial)
    (fun _ _ _ h => by cases h)

/-! ### Vaults and the price feed -/

theorem writeVault_effects {v : Vault} {b : Balance} (hs : G.mentions sid)
    (hb : b.toNat + v.collateral.toNat = s.signer.balance.toNat + (s.ledger.vault sid).collateral.toNat) :
    (writeVault C sid v (s.withBalance b)).Ensures (Effects C sid G s) := by
  unfold writeVault
  cases hset : (s.withBalance b).ledger.setVault C sid v with
  | none => simp
  | some L => exact .done (single (.vault hset hs hb))

theorem vaultDeposit_effects (hs : G.mentions sid) : (vaultDeposit C sid amount s).Ensures (Effects C sid G s) := by
  unfold vaultDeposit
  refine .guard .refl fun _ => ?_
  rcases hb : s.signer.balance.checkedSub amount with _ | remaining
  · simpa using .refl
  simp only
  rcases hc : (s.ledger.vault sid).collateral.checkedAdd amount with _ | collateral
  · simpa using .refl
  refine writeVault_effects hs ?_
  rw [BitVec.checkedSub_eq_some] at hb
  rw [BitVec.checkedAdd_eq_some] at hc
  simp only
  omega

theorem vaultWithdraw_effects (hs : G.mentions sid) : (vaultWithdraw C sid amount s).Ensures (Effects C sid G s) := by
  unfold vaultWithdraw
  refine .guard .refl fun _ => ?_
  simp only
  rcases hc : (s.ledger.vault sid).collateral.checkedSub amount with _ | collateral
  · simpa using .refl
  refine .guard .refl fun _ => ?_
  rcases hb : s.signer.balance.checkedAdd amount with _ | balance
  · simpa using .refl
  refine writeVault_effects hs ?_
  rw [BitVec.checkedAdd_eq_some] at hb
  rw [BitVec.checkedSub_eq_some] at hc
  simp only
  omega

theorem writeVault_debt_effects {debt : Balance} (hs : G.mentions sid) :
    (writeVault C sid { s.ledger.vault sid with debt } s).Ensures (Effects C sid G s) :=
  writeVault_effects (b := s.signer.balance) hs rfl

theorem vaultMint_effects (hs : G.mentions sid) : (vaultMint C sid amount s).Ensures (Effects C sid G s) := by
  unfold vaultMint
  refine .guard .refl fun _ => ?_
  simp only
  rcases (s.ledger.vault sid).debt.checkedAdd amount with _ | debt
  · simpa using .refl
  refine .guard .refl fun _ => ?_
  cases hm : mintTokens C (xusdAssetId C) ((s.ledger.tokens.get? (xusdAssetId C)).getD
      ⟨⟨Vault.xusdIssuer⟩, Vault.xusdSymbol, 0, 0⟩) sid amount s.ledger with
  | none => simpa using .refl
  | some L =>
    have hmint : Effect C sid G s { s with ledger := L } := .mint (getD_info _ _ _ _) hs hm
    have hvault : L.vault sid = s.ledger.vault sid := by
      obtain ⟨_, _, -, -, rfl⟩ := mintTokens_eq_some hm
      rfl
    simp only [← hvault]
    exact (writeVault_debt_effects (s := { s with ledger := L }) hs).mono fun _ h => .head hmint h

theorem vaultBurn_effects (hs : G.mentions sid) : (vaultBurn C sid amount s).Ensures (Effects C sid G s) := by
  unfold vaultBurn
  refine .guard .refl fun _ => ?_
  simp only
  rcases hr : (s.ledger.tokenBalance (xusdAssetId C) sid).checkedSub amount with _ | remaining
  · simpa using .refl
  rcases (s.ledger.vault sid).debt.checkedSub amount with _ | debt
  · simpa using .refl
  simp only
  rcases hinfo : s.ledger.tokens.get? (xusdAssetId C) with _ | info
  · simpa using .refl
  simp only
  cases hburn : info.burned.checkedAdd amount with
  | none => simpa using .refl
  | some burned =>
    exact (writeVault_debt_effects hs).mono fun _ h => .head (.burn hinfo hs hr hburn) h

theorem oracleUpdate_effects {price : U128} : (oracleUpdate C sid price s).Ensures (Effects C sid G s) := by
  unfold oracleUpdate
  exact .guard .refl fun _ => .guard .refl fun _ => .guard .refl fun _ =>
    .done (single (write_effect _ trivial rfl))

/-! ### Contract calls -/

variable {contract : AccountId} {gasLimit : U64} {calldata : Bytes} {x x' : ExecState} {st : ExecutionStatus}

/-- A call fails before the fee of the run, fails after it, or settles its queue and writes its storage. -/
theorem call_cases (h : call E ctx sid contract gasLimit calldata x = .ok (x', st)) : (x' = x ∧ st ≠ .success) ∨
    ∃ vmFee remaining feePaid gasUsed, x.signer.balance.checkedSub vmFee = some remaining ∧
      x.feePaid.checkedAdd vmFee = some feePaid ∧
      ((x' = { x with signer := { x.signer with balance := remaining }, feePaid, gasUsed } ∧ st ≠ .success) ∨
        ∃ (batch : Ledger) (outcome : VmOutcome),
          settleContractTokenTransfers E x.ledger contract outcome.tokenTransfers ctx.height = .ok batch ∧
          x' = ⟨⟨outcome.storage.foldl (fun L e => L.setContractValue E contract e.1 e.2) batch,
            { x.signer with balance := remaining }, feePaid⟩, gasUsed, outcome.returnData, outcome.events⟩ ∧
          st = .success) := by
  unfold call at h
  split at h
  · cases h
    exact .inl ⟨rfl, nofun⟩
  extract_lets run at h
  split at h
  · cases h
    exact .inl ⟨rfl, nofun⟩
  · cases h
    exact .inl ⟨rfl, nofun⟩
  rename_i outcome _
  split at h
  · cases h
  rename_i vmFee _
  split at h
  · cases h
    exact .inl ⟨rfl, nofun⟩
  · cases h
  rename_i remaining feePaid hb ht
  refine .inr ⟨vmFee, remaining, feePaid, x.gasUsed.saturatingAdd run.fuel, hb, ht, ?_⟩
  dsimp only at h
  split at h
  · cases h
    exact .inl ⟨rfl, nofun⟩
  · rename_i batch hbatch
    cases h
    exact .inr ⟨batch, outcome, hbatch, rfl, rfl⟩

theorem call_effects (hg : G.contract contract) (hi : G.mentions contract)
    (hwf : ∀ id : AccountId, id.WellFormed → G.mentions id)
    (h : call E ctx sid contract gasLimit calldata x = .ok (x', st)) : Effects E sid G x.toInFlight x'.toInFlight := by
  obtain ⟨rfl, -⟩ | ⟨_, remaining, feePaid, _, hb, ht, hx⟩ := call_cases h
  · exact .refl
  have hfee : Effect E sid G x.toInFlight
      ({ x.toInFlight with feePaid }.withBalance remaining) := .fee hb ht
  obtain ⟨rfl, -⟩ | ⟨L, _, hbatch, rfl, -⟩ := hx
  · exact single hfee
  refine .head hfee (.head (.batch (L := L) hg hi hwf hbatch) ?_)
  refine foldl_write_effects (f := fun e : Bytes × Bytes => .contract contract e.1 (some e.2))
    (fun _ _ _ => trivial) fun e _ id hid => ?_
  simp only [UndoOp.ids, List.mem_singleton] at hid
  exact hid ▸ hi

end ArmEffects
end Runtime
end Sov
