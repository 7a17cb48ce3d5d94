import SovChain.Runtime.Failures
import SovChain.Runtime.Traces

/-!
# Names

A name is an item of a reserved collection. It stands for the account that its metadata names, and for its owner where
they name none. Transferring it changes the owner and keeps the metadata, so a name with a target stays with the old one.
-/

namespace Sov
open Codec

/-- The account that the metadata of a name stand for. -/
def NftToken.target (token : NftToken) : Option AccountId :=
  if token.metadata.isEmpty then none
  else (ofStrBytes token.metadata).bind fun target => (AccountId.new target).toOption

theorem Stores.resolveName_eq (C : Crypto) (s : Stores) (name : String) :
    s.resolveName C name = (s.nameToken C name).map fun token => token.target.getD token.owner := by
  refine congrArg (Option.map · _) (funext fun token => ?_)
  unfold NftToken.target
  split_ifs with hempty
  · rfl
  rcases ofStrBytes token.metadata with _ | target
  · rfl
  dsimp only [Option.bind_some]
  cases AccountId.new target <;> rfl

namespace Runtime

/-- The step moves the item of a name to `dest`. -/
def Step.MovesName (C : Crypto) (st : Step) (name : String) (dest : AccountId) : Prop :=
  st.receipt.status = .success ∧ (st.tx.transaction.action.resolved = .transferName name dest ∨
    st.tx.transaction.action.resolved = .nftTransfer (snsClass C) (strBytes name) dest)

instance (C : Crypto) (st : Step) (name : String) (dest : AccountId) : Decidable (st.MovesName C name dest) :=
  inferInstanceAs (Decidable (_ ∧ _))

section Transfers
variable {C : Crypto} {E : Env} {st : Step} {name : String} {sid dest : AccountId} {s s' : InFlight}

theorem nameToken_of_moved {arm : InFlight → Arm} (harm : arm = transferName C sid name dest ∨
      arm = nftTransfer C sid (snsClass C) (strBytes name) dest) (h : arm s = .ok (s', .success)) :
    ∃ token, s.ledger.nameToken C name = some token ∧
      s'.ledger.nameToken C name = some { token with owner := dest } := by
  unfold Stores.nameToken
  rcases htoken : s.ledger.nft (snsClass C) (strBytes name) with _ | token
  · rcases harm with rfl | rfl <;>
      simp [transferName, nftTransfer, Stores.nftOwner, Stores.nameToken, htoken, InFlight.failed] at h
  refine ⟨token, rfl, ?_⟩
  rcases harm with rfl | rfl
  all_goals
    simp only [transferName, nftTransfer, Ledger.transferName, Ledger.transferNft, Stores.nftOwner, Stores.nameToken,
      htoken, Option.map_some, Option.getD_some] at h
    split_ifs at h
    · cases h
    · cases h
      exact OrdMap.get?_set_self _ _ _

theorem Step.MovesName.nameToken (h : st.MovesName E name dest) (hvalid : st.Valid E) :
    ∃ token, st.before.nameToken E name = some token ∧
      st.after.nameToken E name = some { token with owner := dest } := by
  obtain ⟨hok, haction⟩ := h
  obtain ⟨arm, harm, hdispatch⟩ : ∃ arm, (arm = transferName E st.tx.transaction.signer name dest ∨
      arm = nftTransfer E st.tx.transaction.signer (snsClass E) (strBytes name) dest) ∧
      ∀ p x, p.action = st.tx.transaction.action.resolved → dispatch E st.ctx st.tx p x = lift x arm := by
    rcases haction with haction | haction
    · exact ⟨_, .inl rfl, fun p x hp => by simp only [dispatch, hp, haction]⟩
    · exact ⟨_, .inr rfl, fun p x hp => by simp only [dispatch, hp, haction]⟩
  obtain ⟨p, s, -, ⟨-, hne⟩ | hs, hL⟩ := applyTransaction_arm (a := fun _ => arm) hvalid hdispatch
  · exact absurd hok hne
  · rw [finish_stores hL]
    exact nameToken_of_moved harm (hok ▸ hs)

/-- A transferred name stands for its new owner exactly if its metadata named no other account. -/
theorem transferred_name_resolves_iff (E : Env) (st : Step) (name : String) (dest : AccountId) (hvalid : st.Valid E)
    (hmoves : st.MovesName E.toCrypto name dest) : (st.after.resolveName E.toCrypto name = some dest ↔
      ∀ token target, st.before.nameToken E.toCrypto name = some token → token.target = some target → target = dest) ∧
    ((⟨name⟩ : AccountId).isImplicit = false →
      (resolveRecipient E.toCrypto st.after.toStores ⟨name⟩ = dest ↔ ∀ token target,
        st.before.nameToken E.toCrypto name = some token → token.target = some target → target = dest)) := by
  obtain ⟨token, hbefore, hafter⟩ := hmoves.nameToken hvalid
  have hresolve : st.after.resolveName E name = some (token.target.getD dest) := by
    rw [Stores.resolveName_eq, hafter]
    rfl
  have hiff : token.target.getD dest = dest ↔ ∀ token target,
      st.before.nameToken E name = some token → token.target = some target → target = dest := by
    constructor
    · rintro h token' target htoken htarget
      cases hbefore.symm.trans htoken
      rwa [htarget] at h
    · intro h
      cases htarget : token.target with
      | none => rfl
      | some target => exact h token target hbefore htarget
  rw [hresolve, Option.some_inj]
  refine ⟨hiff, fun himplicit => ?_⟩
  rw [resolveRecipient, himplicit, hresolve]
  exact hiff

/-- The first account can pay for a name. -/
def namingGenesis : GenesisConfig :=
  { treasuryGenesis with accounts := [⟨⟨"alice.sov"⟩, memberKey 0, 300000000⟩] }

def namingLedger : Ledger := (namingGenesis.build sampleCrypto).toOption.elim treasury Genesis.ledger

/-- It registers the name, points it at an account and gives it away. -/
def namingTxs (target : String) : List SignedTransaction :=
  [numberedTx (memberKey 0) "alice.sov" 0 (.registerName "shop.sov"),
   numberedTx (memberKey 0) "alice.sov" 1 (.nftSetMeta (snsClass sampleCrypto) (strBytes "shop.sov") (strBytes target)),
   numberedTx (memberKey 0) "alice.sov" 2 (.transferName "shop.sov" ⟨"bob.sov"⟩)]

/-- The steps of the block after genesis that do it. -/
def namingSteps (target : String) : List Step :=
  blockSteps sampleEnv sampleContext namingLedger (namingTxs target)

theorem exists_namingGenesis : ∃ g, namingGenesis.build sampleCrypto = .ok g ∧ namingLedger = g.ledger := by
  obtain ⟨g, hg⟩ := exists_of_toOption (x := namingGenesis.build sampleCrypto) (by decide +kernel)
  refine ⟨g, hg, ?_⟩
  rw [namingLedger, hg]
  rfl

theorem chained_namingSteps (target : String)
    (h : (executeBlock sampleEnv sampleContext namingLedger (namingTxs target)).toOption.isSome) :
    ∃ g L, namingGenesis.build sampleCrypto = .ok g ∧ Chained sampleEnv g.ledger 0 1 (namingSteps target) L := by
  obtain ⟨g, hg, hledger⟩ := exists_namingGenesis
  obtain ⟨⟨L, receipts⟩, hL⟩ := exists_of_toOption h
  rw [hledger] at hL
  refine ⟨g, L, hg, ?_⟩
  rw [namingSteps, hledger]
  exact .block .start rfl hL

/-- The old owner had pointed the name at itself, and keeps it. -/
theorem sold_name_stays :
    ∃ g L, namingGenesis.build sampleCrypto = .ok g ∧ Chained sampleEnv g.ledger 0 1 (namingSteps "alice.sov") L ∧
      ∃ st ∈ namingSteps "alice.sov", st.MovesName sampleCrypto "shop.sov" ⟨"bob.sov"⟩ ∧
        st.after.resolveName sampleCrypto "shop.sov" = some ⟨"alice.sov"⟩ ∧
        resolveRecipient sampleCrypto st.after.toStores ⟨"shop.sov"⟩ = ⟨"alice.sov"⟩ := by
  obtain ⟨g, L, hg, hchain⟩ := chained_namingSteps "alice.sov" (by decide +kernel)
  have hmoved : (namingSteps "alice.sov").any (fun st => decide (st.MovesName sampleCrypto "shop.sov" ⟨"bob.sov"⟩ ∧
      st.after.resolveName sampleCrypto "shop.sov" = some ⟨"alice.sov"⟩ ∧
      resolveRecipient sampleCrypto st.after ⟨"shop.sov"⟩ = ⟨"alice.sov"⟩)) = true := by decide +kernel
  obtain ⟨st, hst, hmoved⟩ := List.any_eq_true.mp hmoved
  exact ⟨g, L, hg, hchain, st, hst, of_decide_eq_true hmoved⟩

/-- A name that points at its buyer moves. -/
theorem pointed_name_moves : ∃ st ∈ namingSteps "bob.sov", st.MovesName sampleCrypto "shop.sov" ⟨"bob.sov"⟩ ∧
      st.after.resolveName sampleCrypto "shop.sov" = some ⟨"bob.sov"⟩ := by
  obtain ⟨g, L, -, hchain⟩ := chained_namingSteps "bob.sov" (by decide +kernel)
  have hmoved : (namingSteps "bob.sov").any (fun st => decide (st.MovesName sampleCrypto "shop.sov" ⟨"bob.sov"⟩ ∧
      (st.before.nameToken sampleCrypto "shop.sov").bind NftToken.target = some ⟨"bob.sov"⟩)) = true := by
    decide +kernel
  obtain ⟨st, hst, hmoved⟩ := List.any_eq_true.mp hmoved
  obtain ⟨hmoves, htarget⟩ := of_decide_eq_true hmoved
  refine ⟨st, hst, hmoves, (transferred_name_resolves_iff sampleEnv st _ _ (hchain.valid st hst) hmoves).1.mpr ?_⟩
  intro token target htoken hpoints
  rw [show st.before.nameToken sampleCrypto "shop.sov" = some token from htoken, Option.bind_some, hpoints] at htarget
  exact Option.some.inj htarget

end Transfers
end Runtime
end Sov
