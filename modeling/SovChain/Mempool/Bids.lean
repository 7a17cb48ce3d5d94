import SovChain.Runtime.Conservation

/-!
# `sov-mempool`: what a transaction bids

The pool ranks a transaction by the tip of a `Tipped` envelope at its top. The executor takes a creation-time
envelope off first, so it also pays a tip below one: such a transaction bids nothing and pays.
-/

namespace Sov

/-- The tip of a top-level envelope. -/
def effectiveTip (stx : SignedTransaction) : Balance :=
  match stx.transaction.action with
  | .tipped tip _ => tip
  | _ => 0

namespace Runtime

/-- The transaction leads from `L` to `L'`, and what is credited last, after the fee, is the tip. -/
def TipCredited (E : Env) (ctx : BlockContext) (L L' : Ledger) (stx : SignedTransaction) (tip : Balance) : Prop :=
  ∃ p x status L₁, prepare E ctx L.toStores stx = .ok p ∧ execute E ctx stx p L = .ok (x, status) ∧
    credit E.toCrypto (x.ledger.setAccount E.toCrypto stx.transaction.signer x.signer) ctx.miner x.feePaid = .ok L₁ ∧
    tip = p.tip ∧ credit E.toCrypto L₁ ctx.miner tip = .ok L'

/-- The miner is paid the bid, unless a tip sits below a creation-time envelope. -/
theorem tip_eq_bid_iff (E : Env) (ctx : BlockContext) (L L' : Ledger) (stx : SignedTransaction) (receipt : Receipt)
    (h : applyTransaction E ctx L stx = .ok (L', receipt)) :
    ∃ tip, TipCredited E ctx L L' stx tip ∧ (tip = effectiveTip stx ↔
      ∀ createdAtMs hidden inner, stx.transaction.action = .timestamped createdAtMs (.tipped hidden inner) →
        hidden = 0) := by
  obtain ⟨p, x, status, hp, hx, hL, -⟩ := applyTransaction_eq_ok h
  obtain ⟨L1, hfee, htip⟩ := finish_eq_ok hL
  obtain ⟨signer, action, nonce, balance, r, hadm⟩ := prepare_eq_ok hp
  refine ⟨p.tip, ⟨p, x, status, L1, hp, hx, hfee, rfl, htip⟩, ?_⟩
  rw [hadm.tip_eq, Action.tip, effectiveTip]
  cases stx.transaction.action with
  | timestamped createdAtMs inner =>
    cases inner with
    | tipped hidden inner =>
      constructor
      · rintro hpaid _ _ _ ⟨⟩
        exact hpaid
      · intro hall
        exact hall createdAtMs hidden inner rfl
    | _ => exact ⟨fun _ _ _ _ heq => (by cases heq), fun _ => rfl⟩
  | _ => exact ⟨fun _ _ _ _ heq => (by cases heq), fun _ => rfl⟩

def auctionContext : BlockContext := { sampleContext with feeAuctionActive := true, txTimestampActive := true }

/-- A dated transfer pays a tip of two and bids nothing. -/
theorem dated_tip_is_no_bid : ((applyTransaction sampleEnv auctionContext aliceFunded
        (sampleTx "alice.sov" (.timestamped 0 (.tipped 2 (.transfer ⟨"bob.sov"⟩ 5))))).toOption.map
      fun r => (r.1.account ⟨"miner.sov"⟩).balance) = some 2 ∧
      effectiveTip (sampleTx "alice.sov" (.timestamped 0 (.tipped 2 (.transfer ⟨"bob.sov"⟩ 5)))) = 0 := by
  refine ⟨?_, rfl⟩
  decide +kernel

theorem tipped_transfer_pays_bid : ∃ L' tip, TipCredited sampleEnv auctionContext aliceFunded L'
      (sampleTx "alice.sov" (.tipped 2 (.transfer ⟨"bob.sov"⟩ 5))) tip ∧ tip = 2 := by
  obtain ⟨⟨L', receipt⟩, h⟩ := exists_of_toOption (x := applyTransaction sampleEnv auctionContext
    aliceFunded (sampleTx "alice.sov" (.tipped 2 (.transfer ⟨"bob.sov"⟩ 5)))) (by decide +kernel)
  obtain ⟨tip, hcredited, hbid⟩ := tip_eq_bid_iff _ _ _ _ _ _ h
  exact ⟨L', tip, hcredited, hbid.mpr fun _ _ _ heq => (by cases heq)⟩

end Runtime
end Sov
