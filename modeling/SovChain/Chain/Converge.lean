import SovChain.Chain.Local

/-!
# Fork choice converges

Blocks that are imported parents first are accepted or refused by their branch alone, so the order of arrival does not
matter: any two orders accept the same blocks and end with the same head, the heaviest accepted block, and the one with
the smallest hash among those (`fork_choice_converges`). This needs that every import can be undone where the node undoes it.
-/

namespace Sov
namespace Difficulty

theorem canonical_toTarget_ne_zero (d : Difficulty) : d.toTarget.canonical ≠ 0 := by
  have hpos : 0 < (2 ^ 256 - 1) / max d.toNat 1 := by
    refine Nat.div_pos ?_ (by omega)
    have := d.isLt
    omega
  intro h0
  have hle := d.toTarget.le_two_mul_canonical
  rw [h0, toNat_toTarget] at hle
  change _ ≤ 0 at hle
  omega

end Difficulty

namespace Blockchain
open BlockIndex (Links Tree AgreesBelow Rootless)
variable {N : NodeEnv} {P : Bytes → Prop} {bc bc' bc₀ : Blockchain} {block : Block} {k : Hash}
  {e parent : BlockIndexEntry} {l xs : List Block}

/-- Import blocks one after the other; those that are refused change nothing that matters here. -/
def importAll (N : NodeEnv) : Blockchain → List Block → Run Blockchain
  | bc, [] => .ok bc
  | bc, block :: rest => do
    let (bc, _) ← importBlockTracked N bc block
    importAll N bc rest

theorem importAll_append (bc : Blockchain) (xs ys : List Block) :
    importAll N bc (xs ++ ys) = importAll N bc xs >>= fun bc => importAll N bc ys := by
  induction xs generalizing bc with
  | nil => rfl
  | cons b xs ih =>
    change (importBlockTracked N bc b >>= fun r => importAll N r.1 (xs ++ ys)) = _
    change _ = (importBlockTracked N bc b >>= fun r => importAll N r.1 xs) >>= _
    cases importBlockTracked N bc b with
    | error p => rfl
    | ok r => exact ih r.1

/-- What is asked of a block where it arrives: it is clean on its branch, its branch is not longer above an undoable fork
than the ring of journals, and the work of its branch does not reach the greatest number. -/
structure Manageable (N : NodeEnv) (P : Bytes → Prop) (bc : Blockchain) (block : Block) : Prop where
  clean : CleanImport N P bc block
  short : ∀ {fork blocks}, bc.coveredFork N block = some (fork, blocks) → blocks.length ≤ reorgUndoWindow
  light : ∀ {parent t}, bc.index.get? block.header.prevHash = some parent →
    bc.expectedTarget parent block.header.timestampMs = .ok t →
      parent.chainWork.toNat + (Work.ofTarget t).toNat < 2 ^ 256

/-- The head is the heaviest block, and the smallest hash among the heaviest. -/
def HeadBest (bc : Blockchain) : Prop :=
  ∃ h, bc.index.get? bc.head = some h ∧ ∀ {k e}, bc.index.get? k = some e →
    e.chainWork < h.chainWork ∨ e.chainWork = h.chainWork ∧ bc.head ≤ k

/-- A chain that started as `bc₀` and took blocks of `l`. -/
structure Tracked (N : NodeEnv) (P : Bytes → Prop) (bc₀ : Blockchain) (l : List Block) (bc : Blockchain) : Prop where
  sound : Sound N P bc
  derived : Derived bc
  alike : Alike bc₀ bc
  source : ∀ {k e}, bc.index.get? k = some e → k ≠ bc.rules.genesisHash → e.block ∈ l
  vetted : ∀ {k e}, bc.index.get? k = some e → k ≠ bc.rules.genesisHash →
    ∃ cand, bc.validateCandidate N e.block = .ok (.ok cand) ∧ cand.shaTarget = e.shaTarget
  target : bc.rules.mining.sha256dTarget.canonical ≠ 0
  best : HeadBest bc

/-- The blocks and genesis have different hashes, and none has the hash genesis names as its parent. -/
structure Apart (C : Crypto) (genesis : Block) (l : List Block) : Prop where
  injective : ∀ a ∈ genesis :: l, ∀ b ∈ genesis :: l, a.hash C = b.hash C → a = b
  rootless : ∀ a ∈ genesis :: l, a.hash C ≠ genesis.header.prevHash

variable {t : Target} {timestampMs : U64}

/-- A target is that of genesis or of a difficulty, at the precision of its compact form. -/
theorem expectedTarget_cases (h : bc.expectedTarget parent timestampMs = .ok t) :
    t = bc.rules.mining.sha256dTarget.canonical ∨ ∃ d : Difficulty, t = d.toTarget.canonical := by
  have hbase : ∀ {b}, bc.baseTarget parent = .ok b →
      b = bc.rules.mining.sha256dTarget.canonical ∨ ∃ d : Difficulty, b = d.toTarget.canonical := by
    intro b hb
    unfold baseTarget at hb
    split_ifs at hb
    · cases hb
      exact .inl rfl
    dsimp only at hb
    split_ifs at hb
    cases hb
    exact .inr ⟨_, rfl⟩
  unfold expectedTarget at h
  obtain ⟨b, hb, h⟩ := Runtime.bind_eq_ok.mp h
  dsimp only at h
  split_ifs at h
  · cases h
    exact hbase hb
  · cases h
    exact hbase hb
  · cases h
    exact .inr ⟨_, rfl⟩

theorem expectedTarget_ne_zero (hz : bc.rules.mining.sha256dTarget.canonical ≠ 0)
    (h : bc.expectedTarget parent timestampMs = .ok t) : t ≠ 0 := by
  rcases expectedTarget_cases h with rfl | ⟨d, rfl⟩
  · exact hz
  · exact Difficulty.canonical_toTarget_ne_zero d

theorem expectedTarget_canonical (h : bc.expectedTarget parent timestampMs = .ok t) : t.canonical = t := by
  rcases expectedTarget_cases h with rfl | ⟨d, rfl⟩
  · exact Target.canonical_canonical _
  · exact Target.canonical_canonical _

theorem mem_of_source (hs : Skeleton N bc)
    (hsource : ∀ {k e}, bc.index.get? k = some e → k ≠ bc.rules.genesisHash → e.block ∈ l)
    (he : bc.index.get? k = some e) : e.block ∈ bc.blocks.genesis :: l ∧ e.block.hash N = k := by
  refine ⟨?_, hs.tree.hash_eq he⟩
  by_cases hk : k = bc.rules.genesisHash
  · rw [hk, hs.genesis_hash] at he
    rw [(hs.tree.block_of_genesis he).1]
    exact List.mem_cons_self
  · exact List.mem_cons_of_mem _ (hsource he hk)

theorem rootless_of_source (hs : Skeleton N bc)
    (hsource : ∀ {k e}, bc.index.get? k = some e → k ≠ bc.rules.genesisHash → e.block ∈ l)
    (hl : Apart N bc.blocks.genesis l) : Rootless bc.blocks.genesis bc.index := by
  refine Option.eq_none_iff_forall_ne_some.mpr fun e he => ?_
  obtain ⟨hmem, hhash⟩ := mem_of_source hs hsource he
  exact hl.rootless _ hmem hhash

namespace Tracked
variable (h : Tracked N P bc₀ l bc) (hl : Apart N.toCrypto bc₀.blocks.genesis l)

include h

theorem mem (he : bc.index.get? k = some e) : e.block ∈ bc₀.blocks.genesis :: l ∧ e.block.hash N = k :=
  h.alike.genesis ▸ mem_of_source h.sound.grounded.skeleton h.source he

include hl

theorem rootless : Rootless bc.blocks.genesis bc.index :=
  rootless_of_source h.sound.grounded.skeleton h.source (h.alike.genesis.symm ▸ hl)

theorem agrees (h' : Tracked N P bc₀ l bc') (n : ℕ) : AgreesBelow n bc.index bc'.index := by
  have ha : Alike bc bc' := h.alike.symm.trans h'.alike
  have hblocks : ∀ {k e e'}, bc.index.get? k = some e → bc'.index.get? k = some e' → e.block = e'.block := by
    intro k e e' he he'
    obtain ⟨hmem, hhash⟩ := h.mem he
    obtain ⟨hmem', hhash'⟩ := h'.mem he'
    exact hl.injective _ hmem _ hmem' (hhash.trans hhash'.symm)
  intro k e e'
  exact agrees_of_derived h.sound.grounded.skeleton h'.sound.grounded.skeleton h.derived h'.derived ha
    (h.rootless hl) (ha.genesis ▸ h'.rootless hl) hblocks

omit hl in
theorem lt_newWork {cand : Candidate} (hm : Manageable N P bc block) (hv : Validated N bc block cand parent) :
    parent.chainWork < cand.newWork := by
  have hpos := Work.ofTarget_pos (expectedTarget_ne_zero h.target hv.target)
  have hlight := hm.light hv.parent_eq hv.target
  rw [BitVec.lt_def, hv.work, BitVec.toNat_saturatingAdd]
  omega

theorem grow (hderived : Derived bc') (ha : Alike bc bc') (hsound : Sound N P bc')
    (hbest : HeadBest bc') (hsub : ∀ {k e}, bc.index.get? k = some e → bc'.index.get? k = some e)
    (hcases : ∀ {k e}, bc'.index.get? k = some e → bc.index.get? k = some e ∨
      e.block ∈ l ∧ ∃ cand, bc.validateCandidate N e.block = .ok (.ok cand) ∧ cand.shaTarget = e.shaTarget) :
    Tracked N P bc₀ l bc' := by
  have hsource : ∀ {k e}, bc'.index.get? k = some e → k ≠ bc'.rules.genesisHash → e.block ∈ l := by
    intro k e he hk
    rcases hcases he with he | ⟨hb, -⟩
    · exact h.source he (ha.rules ▸ hk)
    · exact hb
  have hagree : ∀ n, AgreesBelow n bc.index bc'.index := by
    intro n k e e' he he' _
    exact Option.some.inj ((hsub he).symm.trans he')
  have hroot' : Rootless bc.blocks.genesis bc'.index := by
    have hgenesis : bc'.blocks.genesis = bc₀.blocks.genesis := ha.genesis.trans h.alike.genesis
    exact ha.genesis ▸ rootless_of_source hsound.grounded.skeleton hsource (hgenesis.symm ▸ hl)
  have hverdict : ∀ {b : Block} {p}, bc.index.get? b.header.prevHash = some p →
      bc'.validateCandidate N b = bc.validateCandidate N b := fun hp =>
    validateCandidate_congr h.sound hsound ha hagree (h.rootless hl) hroot' hp (hsub hp)
  refine ⟨hsound, hderived, h.alike.trans ha, hsource, fun {k e} he hk => ?_, ha.rules ▸ h.target, hbest⟩
  rcases hcases he with he | ⟨-, cand, hvalid, htarget⟩
  · obtain ⟨cand, hvalid, htarget⟩ := h.vetted he (ha.rules ▸ hk)
    obtain ⟨p, hp⟩ := h.derived.entries he (ha.rules ▸ hk)
    exact ⟨cand, (hverdict hp.parent).trans hvalid, htarget⟩
  · obtain ⟨parent, hv⟩ := validateCandidate_eq_ok hvalid
    exact ⟨cand, (hverdict hv.parent_eq).trans hvalid, htarget⟩

end Tracked

/-- What replaying its branch says about a valid block. -/
def Judged (N : NodeEnv) (bc : Blockchain) (block : Block) (x : Run (Except ChainError Rebuilt)) : Prop :=
  ∃ cand parent rp, Validated N bc block cand parent ∧ Replay N bc block.header.prevHash rp ∧
    Rebuilt.extend N bc.rules rp block cand.shaTarget = x

theorem Judged.unique {x y : Run (Except ChainError Rebuilt)} (h : Judged N bc block x) (h' : Judged N bc block y) :
    x = y := by
  obtain ⟨cand, parent, rp, hv, hr, rfl⟩ := h
  obtain ⟨cand', parent', rp', hv', hr', rfl⟩ := h'
  have hcand : cand = cand' := by
    have := hv.valid.symm.trans hv'.valid
    injection this with this
    injection this
  rw [hcand, hr.unique hr']

variable {cand : Candidate} {rest : List Block}

theorem Probed.judged {rp : Rebuilt} (hp : Probed N P bc block cand parent rp) :
    Judged N bc block (Rebuilt.extend N bc.rules rp block cand.shaTarget) :=
  ⟨cand, parent, rp, hp.valid, hp.replay, rfl⟩

/-- What importing a block of the list comes to. -/
structure Took (N : NodeEnv) (P : Bytes → Prop) (bc₀ : Blockchain) (l : List Block) (bc : Blockchain) (block : Block)
    (bc' : Blockchain) : Prop where
  tracked : Tracked N P bc₀ l bc'
  kept : ∀ {k e}, bc.index.get? k = some e → bc'.index.get? k = some e
  added : ∀ {k e}, bc'.index.get? k = some e → bc.index.get? k = some e ∨ k = block.hash N.toCrypto
  accepted : ∀ {r}, Judged N bc block (.ok (.ok r)) → ∃ e, bc'.index.get? (block.hash N.toCrypto) = some e
  sane : ∀ {p}, bc.index.get? (block.hash N.toCrypto) = none → ¬Judged N bc block (.error p)

/-- The heads before and after a block that becomes the head. -/
theorem headBest_of_adopted (hbest : HeadBest bc) (hindex : bc'.index = (bc.insertEntry N block cand).index)
    (hhead : bc'.head = block.hash N) (hbeats : ∀ {h}, bc.index.get? bc.head = some h →
      h.chainWork < cand.newWork ∨ cand.newWork = h.chainWork ∧ block.hash N < bc.head) : HeadBest bc' := by
  obtain ⟨h, hh, hold⟩ := hbest
  refine ⟨⟨block, cand.shaTarget, cand.newWork, cand.height, block.serializedSize⟩, ?_, fun {k e} he => ?_⟩
  · rw [hindex, hhead]
    exact OrdMap.get?_insert_self ..
  rw [hindex] at he
  change (bc.index.insert (block.hash N) _).get? k = some e at he
  rw [OrdMap.get?_insert] at he
  dsimp only
  split_ifs at he with hk
  · cases he
    exact .inr ⟨rfl, by rw [hhead, hk]⟩
  have hbeats := hbeats hh
  rw [hhead]
  rcases hold he with hlt | ⟨heq, hle⟩
  · rcases hbeats with hlt' | ⟨heq', -⟩
    · exact .inl (BitVec.lt_trans hlt hlt')
    · exact .inl (heq' ▸ hlt)
  · rcases hbeats with hlt' | ⟨heq', hlt'⟩
    · exact .inl (heq ▸ hlt')
    · exact .inr ⟨heq.trans heq'.symm, hlt'.le.trans hle⟩

theorem headBest_of_stored (hbest : HeadBest bc) (hnew : bc.index.get? (block.hash N) = none)
    (hindex : bc'.index = (bc.insertEntry N block cand).index) (hhead : bc'.head = bc.head)
    (hbeats : ∀ {h}, bc.index.get? bc.head = some h →
      beats cand.newWork (block.hash N) h.chainWork bc.head = false) : HeadBest bc' := by
  obtain ⟨h, hh, hold⟩ := hbest
  refine ⟨h, ?_, fun {k e} he => ?_⟩
  · rw [hindex, hhead]
    exact BlockIndex.get?_insert_of_some hnew hh
  rw [hindex] at he
  change (bc.index.insert (block.hash N) _).get? k = some e at he
  rw [OrdMap.get?_insert] at he
  rw [hhead]
  split_ifs at he with hk
  · cases he
    have hnot : ¬(h.chainWork < cand.newWork ∨ cand.newWork = h.chainWork ∧ block.hash N < bc.head) :=
      of_decide_eq_false (hbeats hh)
    push Not at hnot
    obtain ⟨hle, htie⟩ := hnot
    dsimp only
    by_cases heq : cand.newWork = h.chainWork
    · exact .inr ⟨heq, hk ▸ htie heq⟩
    · have hne : cand.newWork.toNat ≠ h.chainWork.toNat := fun hnat => heq (BitVec.eq_of_toNat_eq hnat)
      rw [BitVec.lt_def] at hle
      exact .inl (BitVec.lt_def.mpr (by omega))
  · exact hold he

theorem get?_insertEntry (N : NodeEnv) (cand : Candidate) (hnew : bc.index.get? (block.hash N) = none) :
    (∀ {k e}, bc.index.get? k = some e → (bc.insertEntry N block cand).index.get? k = some e) ∧
      ∀ {k e}, (bc.insertEntry N block cand).index.get? k = some e → bc.index.get? k = some e ∨
        k = block.hash N ∧ e.block = block ∧ e.shaTarget = cand.shaTarget := by
  refine ⟨fun he => BlockIndex.get?_insert_of_some hnew he, fun {k e} he => ?_⟩
  change (bc.index.insert (block.hash N) _).get? k = some e at he
  rw [OrdMap.get?_insert] at he
  split_ifs at he with hk
  · cases he
    exact .inr ⟨hk.symm, rfl, rfl⟩
  · exact .inl he

section Step
variable (h : Tracked N P bc₀ l bc) (hl : Apart N.toCrypto bc₀.blocks.genesis l)

include h hl

theorem Tracked.took {cand : Candidate} (hb : block ∈ l) (hv : Validated N bc block cand parent)
    (hnew : bc.index.get? (block.hash N) = none) (hindex : bc'.index = (bc.insertEntry N block cand).index)
    (ha : Alike bc bc') (hsound : Sound N P bc') (hbest : HeadBest bc') {r : Rebuilt}
    (hj : Judged N bc block (.ok (.ok r))) : Took N P bc₀ l bc block bc' := by
  obtain ⟨hsub, hcases⟩ := get?_insertEntry N cand hnew
  rw [← hindex] at hsub hcases
  have hderived : Derived bc' := (h.derived.insertEntry h.sound.grounded.skeleton hv hnew).congr ha.rules ha.genesis hindex
  refine ⟨h.grow hl hderived ha hsound hbest hsub fun he => ?_, hsub, fun he => ?_, fun _ => ?_, fun _ hj' => ?_⟩
  · rcases hcases he with he | ⟨-, rfl, htarget⟩
    · exact .inl he
    · exact .inr ⟨hb, cand, hv.valid, htarget.symm⟩
  · rcases hcases he with he | ⟨hk, -⟩
    · exact .inl he
    · exact .inr hk
  · rw [hindex]
    exact ⟨_, OrdMap.get?_insert_self ..⟩
  · cases hj.unique hj'

theorem Tracked.withRing {ring : List UndoEntry} (hsound : Sound N P { bc with undoRing := ring }) :
    Tracked N P bc₀ l { bc with undoRing := ring } :=
  h.grow hl (h.derived.congr rfl rfl rfl) ⟨rfl, rfl, rfl, rfl, rfl⟩ hsound h.best id .inl

theorem Tracked.step (hN : N.Separating P) (hb : block ∈ l) (hm : Manageable N P bc block) :
    (importBlockTracked N bc block = .error .execution ∧ bc.index.get? (block.hash N) = none ∧
      Judged N bc block (.error .execution)) ∨
    ∃ bc' res, importBlockTracked N bc block = .ok (bc', res) ∧ Took N P bc₀ l bc block bc' := by
  have hout := importBlockTracked_outcome hN h.sound hm.clean
  generalize importBlockTracked N bc block = result at hout ⊢
  cases hout with
  | known hknown =>
    refine .inr ⟨_, _, rfl, h, id, .inl, fun _ => Option.isSome_iff_exists.mp hknown, fun hnew => ?_⟩
    rw [hnew] at hknown
    cases hknown
  | @invalid e hnew hv =>
    have hnot : ∀ {x}, ¬Judged N bc block x := by
      rintro x ⟨cand, parent, rp, hvalid, -⟩
      cases hv.symm.trans hvalid.valid
    exact .inr ⟨_, _, rfl, h, id, .inl, fun hj => absurd hj hnot, fun _ => hnot⟩
  | @panicked cand parent rp hp hx => exact .inl ⟨rfl, hp.new, hx ▸ hp.judged⟩
  | @rejected cand parent rp e ring hp hx hsound =>
    refine .inr ⟨_, _, rfl, h.withRing hl hsound, id, .inl, fun hj => ?_, fun _ hj => ?_⟩
    · cases (hp.judged.unique hj).symm.trans hx
    · cases (hp.judged.unique hj).symm.trans hx
  | @stored cand parent head rp r' ring hp hx hprev hhd hbeats hreach hsound =>
    refine .inr ⟨_, _, rfl, h.took hl hb hp.valid hp.new rfl ⟨rfl, rfl, rfl, rfl, rfl⟩ hsound ?_ (hx ▸ hp.judged)⟩
    refine headBest_of_stored h.best hp.new rfl rfl fun {hd} hhd' => ?_
    cases hhd.symm.trans hhd'
    exact hbeats
  | @adopted cand parent rp r' ring d reverted hp hx hbest hsound =>
    have ha : Alike bc (adopted N bc block cand r' ring d) := alike_adopted hp.replay hx
    refine .inr ⟨_, _, rfl, h.took hl hb hp.valid hp.new rfl ha hsound ?_ (hx ▸ hp.judged)⟩
    refine headBest_of_adopted h.best rfl rfl fun {hd} hhd => ?_
    rcases hbest with hprev | ⟨hd', hhd', hbeats⟩
    · have hparent := hp.valid.parent_eq
      rw [hprev] at hparent
      cases hparent.symm.trans hhd
      exact .inl (h.lt_newWork hm hp.valid)
    · cases hhd'.symm.trans hhd
      exact of_decide_eq_true hbeats
  | exhausted hfork hlong =>
    have := hm.short hfork
    omega

end Step

/-! ## Runs -/

/-- Every block is manageable where it arrives. -/
def Managed (N : NodeEnv) (P : Bytes → Prop) : Blockchain → List Block → Prop
  | _, [] => True
  | bc, block :: rest => Manageable N P bc block ∧
      ∀ {bc' res}, importBlockTracked N bc block = .ok (bc', res) → Managed N P bc' rest

theorem importAll_cons_of_ok {res : Except ChainError Imported}
    (h : importBlockTracked N bc block = .ok (bc', res)) : importAll N bc (block :: rest) = importAll N bc' rest := by
  rw [importAll, h]
  rfl

theorem importAll_cons_of_error {p : Panic} (h : importBlockTracked N bc block = .error p) :
    importAll N bc (block :: rest) = .error p := by
  rw [importAll, h]
  rfl

theorem Managed.append {ys : List Block} (h : Managed N P bc (xs ++ ys)) (hrun : importAll N bc xs = .ok bc') :
    Managed N P bc' ys := by
  induction xs generalizing bc with
  | nil =>
    cases hrun
    exact h
  | cons b xs ih =>
    rcases hb : importBlockTracked N bc b with p | x
    · rw [importAll_cons_of_error hb] at hrun
      cases hrun
    obtain ⟨bc1, res⟩ := x
    rw [importAll_cons_of_ok hb] at hrun
    exact ih (h.2 hb) hrun

theorem Managed.left {ys : List Block} (h : Managed N P bc (xs ++ ys)) : Managed N P bc xs := by
  induction xs generalizing bc with
  | nil => trivial
  | cons b xs ih => exact ⟨h.1, fun hb => ih (h.2 hb)⟩

section Run
variable (hN : N.toCrypto.Separating P) (hl : Apart N.toCrypto bc₀.blocks.genesis l)

include hN hl

/-- A run over manageable blocks goes through, unless executing one panics. -/
theorem Tracked.run (h : Tracked N P bc₀ l bc) (hxs : ∀ b ∈ xs, b ∈ l) (hm : Managed N P bc xs) :
    (∃ ys block zs bc', xs = ys ++ block :: zs ∧ importAll N bc ys = .ok bc' ∧ Tracked N P bc₀ l bc' ∧
      bc'.index.get? (block.hash N) = none ∧ Judged N bc' block (.error .execution) ∧
      importAll N bc xs = .error .execution) ∨ ∃ bc', importAll N bc xs = .ok bc' ∧ Tracked N P bc₀ l bc' ∧
      (∀ {k e}, bc.index.get? k = some e → bc'.index.get? k = some e) ∧
      ∀ {k e}, bc'.index.get? k = some e → bc.index.get? k = some e ∨ ∃ b ∈ xs, b.hash N = k := by
  induction xs generalizing bc with
  | nil => exact .inr ⟨bc, rfl, h, id, .inl⟩
  | cons b xs ih =>
    rcases h.step hl hN (hxs b List.mem_cons_self) hm.1 with ⟨hpanic, hnew, hj⟩ | ⟨bc1, res, hok, htook⟩
    · exact .inl ⟨[], b, xs, bc, rfl, rfl, h, hnew, hj, importAll_cons_of_error hpanic⟩
    rcases ih htook.tracked (fun c hc => hxs c (List.mem_cons_of_mem _ hc)) (hm.2 hok) with
      ⟨ys, block, zs, bc', rfl, hrun, ht, hnew, hj, herr⟩ | ⟨bc', hrun, ht, hkept, hadded⟩
    · exact .inl ⟨b :: ys, block, zs, bc', rfl, (importAll_cons_of_ok hok).trans hrun, ht, hnew, hj,
        (importAll_cons_of_ok hok).trans herr⟩
    refine .inr ⟨bc', (importAll_cons_of_ok hok).trans hrun, ht, fun he => hkept (htook.kept he), fun he => ?_⟩
    rcases hadded he with he | ⟨c, hc, hk⟩
    · rcases htook.added he with he | hk
      · exact .inl he
      · exact .inr ⟨b, List.mem_cons_self, hk.symm⟩
    · exact .inr ⟨c, List.mem_cons_of_mem _ hc, hk⟩

omit hN in
theorem Judged.congr (h : Tracked N P bc₀ l bc) (h' : Tracked N P bc₀ l bc') {x : Run (Except ChainError Rebuilt)}
    (hj : Judged N bc block x) (hp' : bc'.index.get? block.header.prevHash = some parent) : Judged N bc' block x := by
  obtain ⟨cand, p, rp, hv, hr, hx⟩ := hj
  have ha : Alike bc bc' := h.alike.symm.trans h'.alike
  have hagree : ∀ n, AgreesBelow n bc.index bc'.index := fun n => h.agrees hl h' n
  obtain rfl : p = parent := hagree (p.height + 1) hv.parent_eq hp' (Nat.lt_succ_self _)
  have hvalid := validateCandidate_congr h.sound h'.sound ha hagree (h.rootless hl) (ha.genesis ▸ h'.rootless hl)
    hv.parent_eq hp'
  obtain ⟨p', hv'⟩ := validateCandidate_eq_ok (hvalid.trans hv.valid)
  exact ⟨cand, p', rp, hv', hr.congr h'.sound ha hagree hp', ha.rules ▸ hx⟩

end Run

/-! ## Two orders of arrival -/

/-- A parent that is delivered at all is delivered before its children. -/
def ParentsFirst (C : Crypto) (l : List Block) : Prop :=
  ∀ xs b zs, l = xs ++ b :: zs → ∀ c ∈ l, c.hash C = b.header.prevHash → c ∈ xs

/-- A whole run over the list. -/
structure Delivered (N : NodeEnv) (P : Bytes → Prop) (bc₀ : Blockchain) (l ys : List Block) : Prop where
  start : Tracked N P bc₀ l bc₀
  first : bc₀.index = OrdMap.empty.insert bc₀.rules.genesisHash bc₀.rootEntry
  same : ∀ b, b ∈ ys ↔ b ∈ l
  nodup : ys.Nodup
  parents : ParentsFirst N.toCrypto ys
  managed : Managed N P bc₀ ys

section Orders
variable (hN : N.toCrypto.Separating P) (hl : Apart N.toCrypto bc₀.blocks.genesis l) {ys zs : List Block}
  (hd : Delivered N P bc₀ l ys)

include hN hl hd

/-- The chain when a block of a completed run arrives: the block is new, and its parent is there if it is there in the
end. -/
theorem Delivered.arrival (hsplit : ys = xs ++ block :: zs) (hrun : importAll N bc₀ ys = .ok bc) :
    ∃ bc', Tracked N P bc₀ l bc' ∧ Managed N P bc' (block :: zs) ∧ importAll N bc' (block :: zs) = .ok bc ∧
      (block.hash N ≠ bc₀.rules.genesisHash → bc'.index.get? (block.hash N) = none) ∧
      ∀ {e}, bc.index.get? block.header.prevHash = some e → ∃ p, bc'.index.get? block.header.prevHash = some p := by
  have hmem : ∀ b ∈ xs ++ block :: zs, b ∈ l := fun b hb => (hd.same b).mp (hsplit ▸ hb)
  have hxs : ∀ b ∈ xs, b ∈ l := fun b hb => hmem b (List.mem_append_left _ hb)
  have hrest : ∀ b ∈ block :: zs, b ∈ l := fun b hb => hmem b (List.mem_append_right _ hb)
  have hapart : ∀ b ∈ xs, ∀ c ∈ block :: zs, b.hash N ≠ c.hash N := by
    intro b hb c hc hhash
    obtain rfl := hl.injective b (List.mem_cons_of_mem _ (hxs b hb)) c (List.mem_cons_of_mem _ (hrest c hc)) hhash
    have hnodup := hd.nodup
    rw [hsplit] at hnodup
    exact (List.nodup_append.mp hnodup).2.2 b hb b hc rfl
  have hmanaged : Managed N P bc₀ (xs ++ block :: zs) := hsplit ▸ hd.managed
  rw [hsplit, importAll_append] at hrun
  obtain ⟨bc', hbefore, hafter⟩ := Runtime.bind_eq_ok.mp hrun
  have hmanaged' := hmanaged.append hbefore
  rcases hd.start.run hN hl hxs hmanaged.left with ⟨-, -, -, -, -, -, -, -, -, herr⟩ | ⟨bc1, hrun1, ht, -, hadded⟩
  · cases herr.symm.trans hbefore
  obtain rfl : bc1 = bc' := Except.ok.inj (hrun1.symm.trans hbefore)
  refine ⟨bc1, ht, hmanaged', hafter, fun hgenesis => ?_, fun {e} he => ?_⟩
  · refine Option.eq_none_iff_forall_ne_some.mpr fun e he => ?_
    rcases hadded he with he | ⟨b, hb, hhash⟩
    · rw [hd.first, OrdMap.get?_insert, OrdMap.get?_empty] at he
      split_ifs at he with hk
      exact hgenesis hk.symm
    · exact hapart b hb block List.mem_cons_self hhash
  · rcases ht.run hN hl hrest hmanaged' with ⟨-, -, -, -, -, -, -, -, -, herr⟩ | ⟨bc2, hrun2, -, -, hlater⟩
    · cases herr.symm.trans hafter
    obtain rfl : bc2 = bc := Except.ok.inj (hrun2.symm.trans hafter)
    rcases hlater he with he | ⟨c, hc, hhash⟩
    · exact ⟨e, he⟩
    · have hin : c ∈ ys := hsplit ▸ List.mem_append_right _ hc
      exact absurd rfl (hapart c (hd.parents xs block zs hsplit c hin hhash) c hc)

theorem Delivered.accepts (hrun : importAll N bc₀ ys = .ok bc) (h : Tracked N P bc₀ l bc')
    (he : bc'.index.get? k = some e) : ∃ e', bc.index.get? k = some e' := by
  obtain ⟨ht, hkept⟩ : Tracked N P bc₀ l bc ∧ ∀ {k e}, bc₀.index.get? k = some e → bc.index.get? k = some e := by
    rcases hd.start.run hN hl (fun b hb => (hd.same b).mp hb) hd.managed with
      ⟨-, -, -, -, -, -, -, -, -, herr⟩ | ⟨bc1, hrun1, ht, hkept, -⟩
    · cases herr.symm.trans hrun
    · obtain rfl : bc1 = bc := Except.ok.inj (hrun1.symm.trans hrun)
      exact ⟨ht, hkept⟩
  induction hheight : e.height using Nat.strong_induction_on generalizing k e with
  | _ n ih =>
    by_cases hk : k = bc'.rules.genesisHash
    · refine ⟨bc.rootEntry, ?_⟩
      rw [hk, h.alike.rules, ← ht.alike.rules]
      exact ht.derived.root
    obtain ⟨p, hp⟩ := h.derived.entries he hk
    obtain ⟨p', hp'⟩ := ih p.height (by rw [← hheight, hp.height]; omega) hp.parent rfl
    obtain ⟨hmem, hhash⟩ := h.mem he
    obtain ⟨xs, zs, hsplit⟩ := List.append_of_mem ((hd.same _).mpr (h.source he hk))
    obtain ⟨bc1, ht1, hm1, hafter, -, hparent⟩ := hd.arrival hN hl hsplit hrun
    obtain ⟨p1, hp1⟩ := hparent hp'
    obtain ⟨r, hj⟩ : ∃ r, Judged N bc' e.block (.ok (.ok r)) := by
      obtain ⟨cand, hvalid, htarget⟩ := h.vetted he hk
      obtain ⟨rp, r, hr, -, hx⟩ := h.sound.grounded.entries he hk
      obtain ⟨q, hv⟩ := validateCandidate_eq_ok hvalid
      exact ⟨r, cand, q, rp, hv, hr, htarget ▸ hx⟩
    rcases ht1.step hl hN (h.source he hk) hm1.1 with ⟨hpanic, -⟩ | ⟨bc2, res, hok, htook⟩
    · cases (importAll_cons_of_error hpanic).symm.trans hafter
    obtain ⟨e', he'⟩ := htook.accepted (hj.congr hl h ht1 hp1)
    have hzs : ∀ b ∈ zs, b ∈ l := fun b hb => (hd.same b).mp (hsplit ▸ by simp [hb])
    rw [importAll_cons_of_ok hok] at hafter
    rcases htook.tracked.run hN hl hzs (hm1.2 hok) with
      ⟨-, -, -, -, -, -, -, -, -, herr⟩ | ⟨bc3, hrun3, -, hlater, -⟩
    · cases herr.symm.trans hafter
    · obtain rfl : bc3 = bc := Except.ok.inj (hrun3.symm.trans hafter)
      exact ⟨e', hhash ▸ hlater he'⟩

theorem Delivered.no_panic (hrun : importAll N bc₀ ys = .ok bc) (h : Tracked N P bc₀ l bc') (hb : block ∈ l)
    (hnew : bc'.index.get? (block.hash N) = none) : ¬Judged N bc' block (.error .execution) := by
  intro hj
  have hjudged := hj
  obtain ⟨cand, p, rp, hv, -⟩ := hj
  obtain ⟨p', hp'⟩ := hd.accepts hN hl hrun h hv.parent_eq
  obtain ⟨xs, zs, hsplit⟩ := List.append_of_mem ((hd.same block).mpr hb)
  obtain ⟨bc1, ht1, hm1, hafter, hfirst, hparent⟩ := hd.arrival hN hl hsplit hrun
  obtain ⟨p1, hp1⟩ := hparent hp'
  have hgenesis : block.hash N ≠ bc₀.rules.genesisHash := by
    intro heq
    have hroot := h.derived.root
    rw [h.alike.rules, ← heq, hnew] at hroot
    cases hroot
  rcases ht1.step hl hN hb hm1.1 with ⟨hpanic, -⟩ | ⟨bc2, res, hok, htook⟩
  · cases (importAll_cons_of_error hpanic).symm.trans hafter
  · exact htook.sane (hfirst hgenesis) (hjudged.congr hl h ht1 hp1)

end Orders

theorem head_eq (hl : Apart N bc₀.blocks.genesis l) (h : Tracked N P bc₀ l bc) (h' : Tracked N P bc₀ l bc')
    (hsub : ∀ {k e}, bc.index.get? k = some e → ∃ e', bc'.index.get? k = some e')
    (hsub' : ∀ {k e}, bc'.index.get? k = some e → ∃ e', bc.index.get? k = some e') : bc.head = bc'.head := by
  obtain ⟨hd, hhd, hbest⟩ := h.best
  obtain ⟨hd', hhd', hbest'⟩ := h'.best
  obtain ⟨e', he'⟩ := hsub hhd
  obtain rfl := h.agrees hl h' (hd.height + 1) hhd he' (Nat.lt_succ_self _)
  obtain ⟨e, he⟩ := hsub' hhd'
  obtain rfl := h'.agrees hl h (hd'.height + 1) hhd' he (Nat.lt_succ_self _)
  rcases hbest he with hlt | ⟨heq, hle⟩
  · rcases hbest' he' with hlt' | ⟨heq', -⟩
    · rw [BitVec.lt_def] at hlt hlt'
      omega
    · rw [heq', BitVec.lt_def] at hlt
      omega
  · rcases hbest' he' with hlt' | ⟨-, hle'⟩
    · rw [heq, BitVec.lt_def] at hlt'
      omega
    · exact le_antisymm hle hle'

/-- A chain that has only its genesis block, with any deployments and pins. -/
def Starting (N : NodeEnv) (P : Bytes → Prop) (bc : Blockchain) : Prop :=
  ∃ fresh, Fresh N P fresh ∧ bc.unpinned = fresh.unpinned

theorem Starting.index_eq (h : Starting N P bc) :
    bc.index = OrdMap.empty.insert bc.rules.genesisHash bc.rootEntry ∧ bc.head = bc.rules.genesisHash ∧
      bc.rules.mining.sha256dTarget.canonical ≠ 0 := by
  obtain ⟨fresh, hfresh, hun⟩ := h
  rw [eq_of_unpinned hun]
  obtain @⟨config, bc1, R, -, hnew, hR⟩ := hfresh
  obtain ⟨g, -, -, hz, rfl⟩ := new_eq_ok hnew
  have hmining : R.mining = config.mining := hR.mining
  have hgenesis : R.genesisHash = g.block.hash N := hR.genesisHash
  refine ⟨?_, hgenesis.symm, ?_⟩
  · change OrdMap.empty.insert (g.block.hash N) _ = OrdMap.empty.insert R.genesisHash _
    unfold rootEntry
    dsimp only
    rw [hmining, hgenesis]
    rfl
  · change R.mining.sha256dTarget.canonical ≠ 0
    rw [hmining]
    exact hz

theorem Starting.tracked (hN : N.Separating P) (h : Starting N P bc) : Tracked N P bc l bc := by
  obtain ⟨hindex, hhead, hz⟩ := h.index_eq
  obtain ⟨fresh, hfresh, hun⟩ := h
  have hsound : Sound N P bc := (hfresh.sound hN).of_unpinned hun
  have honly : ∀ {k e}, bc.index.get? k = some e → bc.rules.genesisHash = k ∧ e = bc.rootEntry := by
    intro k e he
    rw [hindex, OrdMap.get?_insert, OrdMap.get?_empty] at he
    split_ifs at he with hk
    cases he
    exact ⟨hk, rfl⟩
  have hroot : bc.index.get? bc.rules.genesisHash = some bc.rootEntry := by
    rw [hindex]
    exact OrdMap.get?_insert_self ..
  refine ⟨hsound, ⟨hroot, fun he hk => absurd (honly he).1.symm hk⟩, ⟨rfl, rfl, rfl, rfl, rfl⟩,
    fun he hk => absurd (honly he).1.symm hk, fun he hk => absurd (honly he).1.symm hk, hz,
    ⟨bc.rootEntry, by rw [hhead]; exact hroot, fun he => ?_⟩⟩
  obtain ⟨hk, rfl⟩ := honly he
  exact .inr ⟨rfl, by rw [hhead, hk]⟩

/-- Two orders that deliver parents first, of blocks that are manageable where they arrive, accept the same blocks and end
with the same head, or both meet a block whose execution panics. After every import the head is the best accepted block. -/
theorem fork_choice_converges (hN : N.toCrypto.Separating P) (hstart : Starting N P bc₀) {l₁ l₂ : List Block}
    (hl : Apart N.toCrypto bc₀.blocks.genesis l₁) (hnodup : l₁.Nodup) (hperm : l₁.Perm l₂)
    (hparents₁ : ParentsFirst N.toCrypto l₁) (hparents₂ : ParentsFirst N.toCrypto l₂)
    (hmanaged₁ : Managed N P bc₀ l₁) (hmanaged₂ : Managed N P bc₀ l₂) :
    ((importAll N bc₀ l₁ = .error .execution ∧ importAll N bc₀ l₂ = .error .execution) ∨
      ∃ bc₁ bc₂, importAll N bc₀ l₁ = .ok bc₁ ∧ importAll N bc₀ l₂ = .ok bc₂ ∧ bc₁.head = bc₂.head ∧
        ∀ b ∈ l₁, (bc₁.index.get? (b.hash N.toCrypto)).isSome = (bc₂.index.get? (b.hash N.toCrypto)).isSome) ∧
      ∀ xs ys bc, l₁ = xs ++ ys → importAll N bc₀ xs = .ok bc → HeadBest bc := by
  have ht : Tracked N P bc₀ l₁ bc₀ := hstart.tracked hN
  have hd1 : Delivered N P bc₀ l₁ l₁ :=
    ⟨ht, hstart.index_eq.1, fun _ => Iff.rfl, hnodup, hparents₁, hmanaged₁⟩
  have hd2 : Delivered N P bc₀ l₁ l₂ :=
    ⟨ht, hstart.index_eq.1, fun _ => hperm.mem_iff.symm, hperm.nodup_iff.mp hnodup, hparents₂, hmanaged₂⟩
  have hmem2 : ∀ b ∈ l₂, b ∈ l₁ := fun b hb => hperm.mem_iff.mpr hb
  refine ⟨?_, fun xs ys bc hsplit hrun => ?_⟩
  · rcases ht.run hN hl (fun b hb => hb) hmanaged₁ with
      ⟨xs1, b1, zs1, bc₁, hsplit1, -, ht1, hnew1, hj1, herr1⟩ | ⟨bc₁, hrun1, ht1, -⟩
    · rcases ht.run hN hl hmem2 hmanaged₂ with ⟨-, -, -, -, -, -, -, -, -, herr2⟩ | ⟨bc₂, hrun2, -⟩
      · exact .inl ⟨herr1, herr2⟩
      · exact absurd hj1 (hd2.no_panic hN hl hrun2 ht1 (hsplit1 ▸ by simp) hnew1)
    rcases ht.run hN hl hmem2 hmanaged₂ with
      ⟨xs2, b2, zs2, bc₂, hsplit2, -, ht2, hnew2, hj2, herr2⟩ | ⟨bc₂, hrun2, ht2, -⟩
    · exact absurd hj2 (hd1.no_panic hN hl hrun1 ht2 (hmem2 b2 (hsplit2 ▸ by simp)) hnew2)
    have hsub : ∀ {k e}, bc₁.index.get? k = some e → ∃ e', bc₂.index.get? k = some e' :=
      fun he => hd2.accepts hN hl hrun2 ht1 he
    have hsub' : ∀ {k e}, bc₂.index.get? k = some e → ∃ e', bc₁.index.get? k = some e' :=
      fun he => hd1.accepts hN hl hrun1 ht2 he
    refine .inr ⟨bc₁, bc₂, hrun1, hrun2, head_eq hl ht1 ht2 hsub hsub', fun b _ => ?_⟩
    rw [Bool.eq_iff_iff, Option.isSome_iff_exists, Option.isSome_iff_exists]
    constructor
    · rintro ⟨e, he⟩
      exact hsub he
    · rintro ⟨e, he⟩
      exact hsub' he
  · have hmanaged : Managed N P bc₀ xs := Managed.left (hsplit ▸ hmanaged₁)
    have hxs : ∀ b ∈ xs, b ∈ l₁ := fun b hb => hsplit ▸ List.mem_append_left _ hb
    rcases ht.run hN hl hxs hmanaged with ⟨-, -, -, -, -, -, -, -, -, herr⟩ | ⟨bc', hrun', ht', -⟩
    · cases herr.symm.trans hrun
    · obtain rfl : bc' = bc := Except.ok.inj (hrun'.symm.trans hrun)
      exact ht'.best

end Blockchain
end Sov
