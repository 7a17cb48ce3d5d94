import SovChain.Chain.Boot
import SovChain.Chain.Converge

/-!
# The heaviest chain of a log

The chain that is reconstructed from a log is linked from genesis to the heaviest tip, whatever the log holds
(`heaviestChain_linked`), and it can be reconstructed unless a block that is connected to genesis has a target of zero
(`cumulativeWork_eq_error`). For the blocks of a node, in any order, it is the active chain of the node
(`heaviestChain_eq_active`), as long as no sum of work reaches the greatest number.
-/

namespace Sov
open List (all_eq_true foldl_cons mem_append_right mem_cons_of_mem mem_cons_self not_mem_nil)
open OrdMap (get?_empty get?_insert get?_insert_self)

theorem Target.canonical_eq_zero {t : Target} : t.canonical = 0 ↔ t = 0 := by
  constructor
  · intro h
    have hle := t.le_two_mul_canonical
    rw [h] at hle
    change _ ≤ 0 at hle
    exact BitVec.eq_of_toNat_eq (Nat.le_zero.mp hle)
  · rintro rfl
    rfl

namespace BlockLog
variable {C : Crypto} {genesis k : Hash} {w₀ : Work} {log pre bs : List Block} {b : Block}
  {cum cum' : OrdMap Hash Work} {m : OrdMap Hash Block} {w : Work}

/-! ## Blocks by hash -/

theorem get?_foldl_byHash (h : (log.foldl (fun m b => m.insert (b.hash C) b) m).get? k = some b) :
    b ∈ log ∧ b.hash C = k ∨ m.get? k = some b := by
  induction log generalizing m with
  | nil => exact .inr h
  | cons a rest ih =>
    rcases ih h with ⟨hb, hk⟩ | h
    · exact .inl ⟨mem_cons_of_mem _ hb, hk⟩
    rw [get?_insert] at h
    split_ifs at h with hk
    · cases h
      exact .inl ⟨mem_cons_self, hk⟩
    · exact .inr h

theorem byHash_eq_some (h : (byHash C log).get? k = some b) : b ∈ log ∧ b.hash C = k := by
  rcases get?_foldl_byHash h with h | h
  · exact h
  · cases h

theorem isSome_foldl_byHash (h : (m.get? k).isSome ∨ ∃ b ∈ log, b.hash C = k) :
    ((log.foldl (fun m b => m.insert (b.hash C) b) m).get? k).isSome := by
  induction log generalizing m with
  | nil =>
    rcases h with h | ⟨b, hb, -⟩
    · exact h
    · exact absurd hb not_mem_nil
  | cons a rest ih =>
    refine ih ?_
    rw [get?_insert]
    split_ifs with hk
    · exact .inl rfl
    rcases h with h | ⟨b, hb, hbk⟩
    · exact .inl h
    · rcases List.mem_cons.mp hb with rfl | hb
      · exact absurd hbk hk
      · exact .inr ⟨b, hb, hbk⟩

theorem exists_byHash (hb : b ∈ log) : ∃ b', (byHash C log).get? (b.hash C) = some b' :=
  Option.isSome_iff_exists.mp (isSome_foldl_byHash (.inr ⟨b, hb, rfl⟩))

/-! ## Linked chains -/

/-- Blocks, oldest first, each the parent of the next, on top of genesis. -/
inductive Linked (C : Crypto) (genesis : Hash) : List Block → Hash → Prop
  | nil : Linked C genesis [] genesis
  | snoc {bs : List Block} {b : Block} (h : Linked C genesis bs b.header.prevHash) :
      Linked C genesis (bs ++ [b]) (b.hash C)

/-- Blocks of the log with one hash have one header. -/
def HashesApart (C : Crypto) (log : List Block) : Prop :=
  ∀ a ∈ log, ∀ b ∈ log, a.hash C = b.hash C → a.header = b.header

theorem walkBack_linked (hapart : HashesApart C log) (h : Linked C genesis bs k) (hlog : ∀ b ∈ bs, b ∈ log) {n : ℕ}
    (hn : bs.length ≤ n) (above : List Block) :
    ∃ chain, walkBack (byHash C log) genesis (n + 1) k above = (genesis, chain ++ above) ∧ Linked C genesis chain k ∧
      ∀ b ∈ chain, b ∈ log ∧ b.hash C ≠ genesis := by
  induction h generalizing n above with
  | nil =>
    refine ⟨[], ?_, .nil, fun b hb => absurd hb not_mem_nil⟩
    rw [walkBack, if_pos rfl]
    rfl
  | @snoc bs b h ih =>
    by_cases hk : b.hash C = genesis
    · refine ⟨[], ?_, hk ▸ .nil, fun b hb => absurd hb not_mem_nil⟩
      rw [walkBack, if_pos hk, hk]
      rfl
    have hb : b ∈ log := hlog b (mem_append_right _ mem_cons_self)
    obtain ⟨b', hget⟩ := exists_byHash (C := C) hb
    obtain ⟨hb', hhash⟩ := byHash_eq_some hget
    have hheader : b'.header = b.header := hapart b' hb' b hb hhash
    rw [List.length_append, List.length_singleton] at hn
    obtain ⟨m, rfl⟩ : ∃ m, n = m + 1 := ⟨n - 1, by omega⟩
    obtain ⟨chain, hwalk, hlinked, hchain⟩ := ih (fun x hx => hlog x (List.mem_append_left _ hx))
      (show bs.length ≤ m by omega) (b' :: above)
    refine ⟨chain ++ [b'], ?_, ?_, fun x hx => ?_⟩
    · rw [walkBack, if_neg hk, hget]
      dsimp only
      rw [hheader, hwalk, List.append_assoc, List.singleton_append]
    · rw [← hheader] at hlinked
      rw [← hhash]
      exact .snoc hlinked
    · rcases List.mem_append.mp hx with hx | hx
      · exact hchain x hx
      · rw [List.mem_singleton.mp hx]
        exact ⟨hb', hhash ▸ hk⟩

theorem chainTo_linked (hapart : HashesApart C log) (h : Linked C genesis bs k) (hbs : bs.Sublist (sorted log)) :
    Linked C genesis (chainTo C genesis log k) k ∧ ∀ b ∈ chainTo C genesis log k, b ∈ log ∧ b.hash C ≠ genesis := by
  have hperm : (sorted log).Perm log := List.perm_insertionSort _ log
  obtain ⟨chain, hwalk, hlinked, hchain⟩ := walkBack_linked hapart h (fun b hb => hperm.mem_iff.mp (hbs.subset hb))
    (hbs.length_le.trans hperm.length_eq.le) []
  rw [List.append_nil] at hwalk
  have hto : chainTo C genesis log k = chain := by
    unfold chainTo
    rw [hwalk]
    dsimp only
    rw [if_neg fun hne => hne.1 rfl]
  rw [hto]
  exact ⟨hlinked, hchain⟩

/-! ## Sums of work -/

/-- The work up to a hash, as far as it is known. -/
def knownWork (genesis : Hash) (w₀ : Work) (cum : OrdMap Hash Work) (hash : Hash) : Option Work :=
  if hash = genesis then some w₀ else cum.get? hash

theorem addWork_of_unknown (h : knownWork genesis w₀ cum b.header.prevHash = none) :
    addWork C genesis w₀ cum b = .ok cum := by
  unfold knownWork at h
  unfold addWork
  rw [h]

theorem addWork_of_known {t : Target} (h : knownWork genesis w₀ cum b.header.prevHash = some w)
    (ht : Target.fromCompact b.header.bits = some t) (hzero : t ≠ 0) :
    addWork C genesis w₀ cum b = .ok (cum.insert (b.hash C) (w.saturatingAdd (Work.ofTarget t.canonical))) := by
  unfold knownWork at h
  unfold addWork
  rw [h, ht]
  dsimp only
  rw [Work.checkedOfTarget, if_neg (mt Target.canonical_eq_zero.mp hzero)]
  rfl

theorem addWork_of_zero (h : knownWork genesis w₀ cum b.header.prevHash = some w)
    (ht : Target.fromCompact b.header.bits = some 0) : addWork C genesis w₀ cum b = .error .workOverflow := by
  unfold knownWork at h
  unfold addWork
  rw [h, ht]
  rfl

/-- What adding the work of a block comes to. -/
theorem addWork_cases (C : Crypto) (genesis : Hash) (w₀ : Work) (cum : OrdMap Hash Work) (b : Block) :
    (addWork C genesis w₀ cum b = .ok cum ∧
      (knownWork genesis w₀ cum b.header.prevHash = none ∨ Target.fromCompact b.header.bits = none)) ∨
    ∃ w t, knownWork genesis w₀ cum b.header.prevHash = some w ∧ Target.fromCompact b.header.bits = some t ∧
      (t = 0 ∧ addWork C genesis w₀ cum b = .error .workOverflow ∨ t ≠ 0 ∧ addWork C genesis w₀ cum b =
          .ok (cum.insert (b.hash C) (w.saturatingAdd (Work.ofTarget t.canonical)))) := by
  rcases hw : knownWork genesis w₀ cum b.header.prevHash with _ | w
  · exact .inl ⟨addWork_of_unknown hw, .inl rfl⟩
  rcases ht : Target.fromCompact b.header.bits with _ | t
  · refine .inl ⟨?_, .inr rfl⟩
    unfold knownWork at hw
    unfold addWork
    rw [hw, ht]
  · refine .inr ⟨w, t, rfl, rfl, ?_⟩
    by_cases hzero : t = 0
    · subst hzero
      exact .inl ⟨rfl, addWork_of_zero hw ht⟩
    · exact .inr ⟨hzero, addWork_of_known hw ht hzero⟩

theorem foldlM_snoc (h : (pre ++ [b]).foldlM (addWork C genesis w₀) cum = .ok cum') :
    ∃ c, pre.foldlM (addWork C genesis w₀) cum = .ok c ∧ addWork C genesis w₀ c b = .ok cum' := by
  rw [List.foldlM_append] at h
  obtain ⟨c, hc, h⟩ := Runtime.bind_eq_ok.mp h
  rw [List.foldlM_cons] at h
  obtain ⟨c', hc', h⟩ := Runtime.bind_eq_ok.mp h
  cases h
  exact ⟨c, hc, hc'⟩

/-- Blocks whose bits can be read. -/
def Readable (bs : List Block) : Prop := ∀ b ∈ bs, (Target.fromCompact b.header.bits).isSome

/-- What has work is linked to genesis by blocks met before. -/
theorem exists_linked (h : pre.foldlM (addWork C genesis w₀) .empty = .ok cum)
    (hk : knownWork genesis w₀ cum k = some w) : ∃ bs, bs.Sublist pre ∧ Linked C genesis bs k ∧ Readable bs := by
  unfold knownWork at hk
  split_ifs at hk with hgenesis
  · exact ⟨[], List.nil_sublist _, hgenesis ▸ .nil, fun b hb => absurd hb not_mem_nil⟩
  induction pre using List.reverseRecOn generalizing cum k w with
  | nil =>
    cases h
    cases hk
  | append_singleton pre b ih =>
    obtain ⟨c, hc, hadd⟩ := foldlM_snoc h
    have hbefore : ∀ {w}, c.get? k = some w → ∃ bs, bs.Sublist (pre ++ [b]) ∧ Linked C genesis bs k ∧ Readable bs := by
      intro w hw
      obtain ⟨bs, hbs, hlinked, hread⟩ := ih hc hgenesis hw
      exact ⟨bs, hbs.trans (List.sublist_append_left _ _), hlinked, hread⟩
    rcases addWork_cases C genesis w₀ c b with ⟨hsame, -⟩ | ⟨pw, t, hpw, ht, ⟨-, hpanic⟩ | ⟨-, hins⟩⟩
    · cases hsame.symm.trans hadd
      exact hbefore hk
    · cases hpanic.symm.trans hadd
    cases hins.symm.trans hadd
    rw [get?_insert] at hk
    split_ifs at hk with hkey
    · subst hkey
      obtain ⟨bs, hbs, hlinked, hread⟩ : ∃ bs, bs.Sublist pre ∧ Linked C genesis bs b.header.prevHash ∧ Readable bs := by
        unfold knownWork at hpw
        split_ifs at hpw with hroot
        · exact ⟨[], List.nil_sublist _, hroot ▸ .nil, fun b hb => absurd hb not_mem_nil⟩
        · exact ih hc hroot hpw
      refine ⟨bs ++ [b], hbs.append (List.Sublist.refl _), .snoc hlinked, fun x hx => ?_⟩
      rcases List.mem_append.mp hx with hx | hx
      · exact hread x hx
      · rw [List.mem_singleton.mp hx, ht]
        rfl
    · exact hbefore hk

/-! ## The heaviest tip -/

/-- `x` is at least as good a tip as `y`. -/
def AtLeast (x y : Hash × Work) : Prop := y.2 < x.2 ∨ y.2 = x.2 ∧ x.1 ≤ y.1

theorem AtLeast.trans {x y z : Hash × Work} (h : AtLeast x y) (h' : AtLeast y z) : AtLeast x z := by
  rcases h with hlt | ⟨heq, hle⟩
  · rcases h' with hlt' | ⟨heq', -⟩
    · exact .inl (BitVec.lt_trans hlt' hlt)
    · exact .inl (heq' ▸ hlt)
  · rcases h' with hlt' | ⟨heq', hle'⟩
    · exact .inl (heq ▸ hlt')
    · exact .inr ⟨heq'.trans heq, hle.trans hle'⟩

theorem foldl_better (l : List (Hash × Work)) (y : Hash × Work) :
    ∃ x ∈ y :: l, l.foldl better (some y) = some x ∧ ∀ z ∈ y :: l, AtLeast x z := by
  induction l generalizing y with
  | nil =>
    refine ⟨y, mem_cons_self, rfl, fun z hz => ?_⟩
    rw [List.mem_singleton.mp hz]
    exact .inr ⟨rfl, le_rfl⟩
  | cons a rest ih =>
    -- The winner of the first two plays on.
    obtain ⟨m, hm, hbetter, hy, ha⟩ : ∃ m, m ∈ [y, a] ∧ better (some y) a = some m ∧ AtLeast m y ∧ AtLeast m a := by
      unfold better
      dsimp only
      split_ifs with h
      · refine ⟨a, by simp, rfl, ?_, .inr ⟨rfl, le_rfl⟩⟩
        rcases h with hlt | ⟨heq, hlt⟩
        · exact .inl hlt
        · exact .inr ⟨heq.symm, hlt.le⟩
      · refine ⟨y, by simp, rfl, .inr ⟨rfl, le_rfl⟩, ?_⟩
        push Not at h
        by_cases heq : a.2 = y.2
        · exact .inr ⟨heq, h.2 heq⟩
        · exact .inl (BitVec.lt_of_le_ne (BitVec.not_lt.mp h.1) heq)
    obtain ⟨x, hx, hfold, hbest⟩ := ih m
    have hmem : ∀ z ∈ m :: rest, z ∈ y :: a :: rest := by
      intro z hz
      rcases List.mem_cons.mp hz with rfl | hz
      · rcases List.mem_cons.mp hm with rfl | hm
        · exact mem_cons_self
        · rw [List.mem_singleton.mp hm]
          exact mem_cons_of_mem _ mem_cons_self
      · exact mem_cons_of_mem _ (mem_cons_of_mem _ hz)
    refine ⟨x, hmem x hx, by rw [foldl_cons, hbetter, hfold], fun z hz => ?_⟩
    have hxm := hbest m mem_cons_self
    rcases List.mem_cons.mp hz with rfl | hz
    · exact hxm.trans hy
    · rcases List.mem_cons.mp hz with rfl | hz
      · exact hxm.trans ha
      · exact hbest z (mem_cons_of_mem _ hz)

theorem heaviestTip_eq_none (h : heaviestTip cum = none) : cum = .empty := by
  unfold heaviestTip at h
  rcases hentries : cum.entries with _ | ⟨y, l⟩
  · exact OrdMap.ext_entries hentries
  · obtain ⟨x, -, hfold, -⟩ := foldl_better l y
    rw [hentries, foldl_cons] at h
    cases hfold.symm.trans h

theorem heaviestTip_eq_some {x : Hash × Work} (h : heaviestTip cum = some x) :
    cum.get? x.1 = some x.2 ∧ ∀ k w, cum.get? k = some w → AtLeast x (k, w) := by
  unfold heaviestTip at h
  rcases hentries : cum.entries with _ | ⟨y, l⟩
  · rw [hentries] at h
    cases h
  obtain ⟨x', hx', hfold, hbest⟩ := foldl_better l y
  rw [hentries, foldl_cons] at h
  cases hfold.symm.trans h
  refine ⟨OrdMap.get?_eq_some_iff.mpr (hentries ▸ hx'), fun k w hk => hbest (k, w) ?_⟩
  exact hentries ▸ OrdMap.get?_eq_some_iff.mp hk

end BlockLog

namespace Blockchain
open BlockLog (Linked HashesApart sorted knownWork addWork)
open BlockIndex (Links Tree)
variable {N : NodeEnv} {C : Crypto} {bc bc' : Blockchain} {block : Block} {k : Hash} {e : BlockIndexEntry}
  {log chain : List Block} {res : Except ChainError Imported}

/-! ## The index of a reachable chain -/

/-- What the index, the rules and genesis make true holds if inserting a validated block keeps it. -/
theorem Reachable.inductIndex {I : Blockchain → Prop}
    (new : ∀ {config : GenesisConfig} {g : Genesis} {R : Rules}, config.mining.sha256dTarget.canonical ≠ 0 →
      (ofGenesis N config g).rules.Redeployed R → I { ofGenesis N config g with rules := R })
    (congr : ∀ {bc bc' : Blockchain}, bc'.rules = bc.rules → bc'.blocks.genesis = bc.blocks.genesis →
      bc'.index = bc.index → I bc → I bc')
    (insert : ∀ {bc : Blockchain} {block : Block} {cand : Candidate} {parent : BlockIndexEntry},
      Skeleton N bc → Validated N bc block cand parent → bc.index.get? (block.hash N) = none → I bc →
        I (bc.insertEntry N block cand))
    (h : Reachable N bc) : I bc := by
  induction h with
  | new h hR =>
    obtain ⟨g, -, -, hzero, rfl⟩ := new_eq_ok h
    exact new hzero hR
  | @call bc bc' c hbc hrun ih =>
    obtain ⟨block, res, -, hi⟩ | hun := run_cases hrun
    · have hsetup := setup_importBlockTracked hi
      have hrules : bc'.rules = bc.rules := congrArg Setup.rules hsetup
      have hgenesis : bc'.blocks.genesis = bc.blocks.genesis := congrArg Setup.genesis hsetup
      obtain hindex | ⟨cand, parent, hv, hnew, hindex⟩ := importBlockTracked_index hbc.skeleton hi
      · exact congr hrules hgenesis hindex ih
      · exact @congr (bc.insertEntry N block cand) bc' hrules hgenesis hindex (insert hbc.skeleton hv hnew ih)
    · have hrules : bc'.rules = bc.rules := (congrArg rules hun :)
      have hgenesis : bc'.blocks.genesis = bc.blocks.genesis := (congrArg (fun c => c.blocks.genesis) hun :)
      have hindex : bc'.index = bc.index := (congrArg index hun :)
      exact congr hrules hgenesis hindex ih

theorem Reachable.derived (h : Reachable N bc) : Derived bc := by
  refine h.inductIndex (fun {config g R} _ hR => ⟨?_, fun {k e} he hk => ?_⟩) (fun hr hg hi hd => hd.congr hr hg hi)
    fun hs hv hnew hd => hd.insertEntry hs hv hnew
  · have hroot : ({ ofGenesis N config g with rules := R } : Blockchain).rootEntry = (ofGenesis N config g).rootEntry := by
      unfold rootEntry
      rw [hR.mining]
    change (OrdMap.empty.insert (g.block.hash N) _).get? R.genesisHash = _
    rw [hR.genesisHash, hroot]
    exact get?_insert_self ..
  · change (OrdMap.empty.insert (g.block.hash N) _).get? k = some e at he
    rw [get?_insert, get?_empty] at he
    split_ifs at he with hkey
    exact absurd (hkey.symm.trans hR.genesisHash.symm) hk

theorem Reachable.target_ne_zero (h : Reachable N bc) : bc.rules.mining.sha256dTarget.canonical ≠ 0 :=
  h.inductIndex (I := fun bc => bc.rules.mining.sha256dTarget.canonical ≠ 0)
    (fun hzero hR => by
      rw [hR.mining]
      exact hzero)
    (fun hr _ _ hz => by
      rw [hr]
      exact hz)
    fun _ _ _ hz => hz

theorem Validated.bits {cand : Candidate} {parent : BlockIndexEntry} (hv : Validated N bc block cand parent) :
    block.header.bits = cand.shaTarget.toCompact := by
  have h := hv.valid
  unfold validateCandidate at h
  rw [hv.parent_eq] at h
  dsimp only at h
  split at h
  · cases h
  rw [hv.target] at h
  have h : bc.checkCandidate N block parent cand.shaTarget = .ok cand := Except.ok.inj h
  unfold checkCandidate at h
  dsimp only at h
  iterate 4
    split at h
    · cases h
  split at h
  · cases h
  · rename_i hbits
    exact not_not.mp hbits

theorem Reachable.fromCompact_bits (h : Reachable N bc) (he : bc.index.get? k = some e) (hk : k ≠ bc.rules.genesisHash) :
    Target.fromCompact e.block.header.bits = some e.shaTarget := by
  have hrated : ∀ {k e}, bc.index.get? k = some e → k ≠ bc.rules.genesisHash →
      e.block.header.bits = e.shaTarget.toCompact := by
    refine h.inductIndex (I := fun bc => ∀ {k e}, bc.index.get? k = some e → k ≠ bc.rules.genesisHash →
      e.block.header.bits = e.shaTarget.toCompact) (fun {config g R} _ hR k e he hk => ?_)
      (fun hr _ hi hbits k e he hk => hbits (hi ▸ he) (hr ▸ hk)) fun {bc block cand parent} _ hv hnew hbits k e he hk => ?_
    · change (OrdMap.empty.insert (g.block.hash N) _).get? k = some e at he
      rw [get?_insert, get?_empty] at he
      split_ifs at he with hkey
      exact absurd (hkey.symm.trans hR.genesisHash.symm) hk
    · rcases (get?_insertEntry N cand hnew).2 he with hold | ⟨-, hblock, htarget⟩
      · exact hbits hold hk
      · rw [hblock, htarget]
        exact hv.bits
  obtain ⟨p, hp⟩ := h.derived.entries he hk
  rw [hrated he hk, Target.fromCompact_toCompact, expectedTarget_canonical hp.target]

/-! ## Fork choice -/

/-- No sum of work reached the greatest number. -/
def Unsaturated (bc : Blockchain) : Prop :=
  ∀ {k e p}, bc.index.get? k = some e → k ≠ bc.rules.genesisHash → bc.index.get? e.block.header.prevHash = some p →
    p.chainWork.toNat + (Work.ofTarget e.shaTarget).toNat < 2 ^ 256

theorem Reachable.parent_lt (h : Reachable N bc) (hsat : Unsaturated bc) (he : bc.index.get? k = some e)
    (hk : k ≠ bc.rules.genesisHash) {p : BlockIndexEntry} (hp : bc.index.get? e.block.header.prevHash = some p) :
    p.chainWork < e.chainWork := by
  obtain ⟨p', hd⟩ := h.derived.entries he hk
  obtain rfl : p' = p := Option.some.inj (hd.parent.symm.trans hp)
  have hpos := Work.ofTarget_pos (expectedTarget_ne_zero h.target_ne_zero hd.target)
  have hlight := hsat he hk hp
  rw [BitVec.lt_def, hd.work, BitVec.toNat_saturatingAdd]
  omega

theorem Reachable.root_lt (h : Reachable N bc) (hsat : Unsaturated bc) (he : bc.index.get? k = some e)
    (hk : k ≠ bc.rules.genesisHash) : bc.rootEntry.chainWork < e.chainWork := by
  induction hheight : e.height using Nat.strong_induction_on generalizing k e with
  | _ n ih =>
    obtain ⟨p, hp⟩ := h.derived.entries he hk
    have hlt := h.parent_lt hsat he hk hp.parent
    by_cases hroot : e.block.header.prevHash = bc.rules.genesisHash
    · have hentry := hp.parent
      rw [hroot, h.derived.root] at hentry
      rw [Option.some.inj hentry]
      exact hlt
    · have hbelow := ih p.height (by rw [← hheight, hp.height]; exact Nat.lt_succ_self _) hp.parent hroot rfl
      exact BitVec.lt_trans hbelow hlt

theorem Reachable.headBest (h : Reachable N bc) (hsat : Unsaturated bc) : HeadBest bc := by
  induction h with
  | @new config bc R h hR =>
    obtain ⟨g, -, -, -, rfl⟩ := new_eq_ok h
    refine ⟨_, get?_insert_self .., fun {k e} he => ?_⟩
    change (OrdMap.empty.insert (g.block.hash N) _).get? k = some e at he
    rw [get?_insert, get?_empty] at he
    split_ifs at he with hkey
    cases he
    exact .inr ⟨rfl, hkey.le⟩
  | @call bc bc' c hbc hrun ih =>
    have hafter : Reachable N bc' := hbc.call hrun
    obtain ⟨block, res, -, hi⟩ | hun := run_cases hrun
    · have hrules : bc'.rules = bc.rules := congrArg Setup.rules (setup_importBlockTracked hi)
      have hgrown : ∀ {cand}, bc.index.get? (block.hash N) = none →
          bc'.index = (bc.insertEntry N block cand).index → HeadBest bc := by
        intro cand hnew hindex
        have hsub : ∀ {k e}, bc.index.get? k = some e → bc'.index.get? k = some e := by
          intro k e he
          rw [hindex]
          exact (get?_insertEntry N cand hnew).1 he
        exact ih fun he hk hp => hsat (hsub he) (hrules ▸ hk) (hsub hp)
      cases importBlockTracked_grows hbc.skeleton hi with
      | same hout =>
        have hindex : bc'.index = bc.index := congrArg Outline.index hout
        have hhead : bc'.head = bc.head := congrArg Outline.head hout
        have hbest := ih fun he hk hp => hsat (hindex ▸ he) (hrules ▸ hk) (hindex ▸ hp)
        unfold HeadBest
        rw [hindex, hhead]
        exact hbest
      | stored hv hnew hout hworse =>
        have hindex := congrArg Outline.index hout
        obtain ⟨head, hhead, hbeats⟩ := hworse
        refine headBest_of_stored (hgrown hnew hindex) hnew hindex (congrArg Outline.head hout) fun {x} hx => ?_
        rw [Option.some.inj (hx.symm.trans hhead)]
        exact hbeats
      | @adopted cand parent bs hv hnew hpath hout hbest =>
        have hindex : bc'.index = (bc.insertEntry N block cand).index := congrArg Outline.index hout
        refine headBest_of_adopted (hgrown hnew hindex) hindex (congrArg Outline.head hout) fun {x} hx => ?_
        rcases hbest with hprev | ⟨head, hhead, hbeats⟩
        · have hself : bc'.index.get? (block.hash N) = some ⟨block, cand.shaTarget, cand.newWork, cand.height,
              block.serializedSize⟩ := by
            rw [hindex]
            exact get?_insert_self ..
          have hkey : block.hash N ≠ bc'.rules.genesisHash := by
            intro heq
            rw [heq, hrules, hbc.derived.root] at hnew
            cases hnew
          have hparent : bc'.index.get? block.header.prevHash = some x := by
            rw [hindex, hprev]
            exact (get?_insertEntry N cand hnew).1 hx
          exact .inl (hafter.parent_lt hsat hself hkey hparent)
        · rw [Option.some.inj (hx.symm.trans hhead)]
          exact of_decide_eq_true hbeats
    · have hindex : bc'.index = bc.index := (congrArg index hun :)
      have hhead : bc'.head = bc.head := (congrArg head hun :)
      have hrules : bc'.rules = bc.rules := (congrArg rules hun :)
      have hbest := ih fun he hk hp => hsat (hindex ▸ he) (hrules ▸ hk) (hindex ▸ hp)
      unfold HeadBest
      rw [hindex, hhead]
      exact hbest

/-! ## The blocks of a node -/

/-- The blocks that a node has accepted, in any order and any number of times. -/
def LogOf (bc : Blockchain) (log : List Block) : Prop :=
  ∀ b, b ∈ log ↔ ∃ k e, bc.index.get? k = some e ∧ k ≠ bc.rules.genesisHash ∧ e.block = b

theorem height_le_of_sorted {pre post : List Block} (h : sorted log = pre ++ block :: post) {b : Block}
    (hb : b ∈ log) (hlow : b.header.height.toNat < block.header.height.toNat) : b ∈ pre := by
  have hsorted : (sorted log).Pairwise fun a b => a.header.height.toNat ≤ b.header.height.toNat := by
    have : Std.Total fun a b : Block => a.header.height.toNat ≤ b.header.height.toNat := ⟨fun _ _ => le_total _ _⟩
    have : IsTrans Block fun a b => a.header.height.toNat ≤ b.header.height.toNat := ⟨fun _ _ _ => le_trans⟩
    exact List.pairwise_insertionSort _ log
  have hmem : b ∈ pre ++ block :: post := h ▸ (List.mem_insertionSort _).mpr hb
  rw [h] at hsorted
  rcases List.mem_append.mp hmem with hb | hb
  · exact hb
  rcases List.mem_cons.mp hb with rfl | hb
  · exact absurd hlow (Nat.lt_irrefl _)
  · have hle := (List.pairwise_cons.mp (List.pairwise_append.mp hsorted).2.1).1 b hb
    omega

/-- The sums of work up a log of accepted blocks are those of the index. -/
theorem Reachable.cumulativeWork (h : Reachable N bc) (hlog : LogOf bc log) {pre post : List Block}
    (hsplit : sorted log = pre ++ post) :
    ∃ cum, pre.foldlM (addWork N bc.rules.genesisHash bc.genesisWork) .empty = .ok cum ∧ ∀ k w,
      cum.get? k = some w ↔ ∃ e, bc.index.get? k = some e ∧ k ≠ bc.rules.genesisHash ∧ e.block ∈ pre ∧ e.chainWork = w := by
  have hhash : ∀ {k e}, bc.index.get? k = some e → e.block.hash N = k := h.skeleton.tree.hash_eq
  induction pre using List.reverseRecOn generalizing post with
  | nil =>
    refine ⟨.empty, rfl, fun k w => ⟨fun hk => ?_, ?_⟩⟩
    · cases hk
    · rintro ⟨e, -, -, hmem, -⟩
      exact absurd hmem not_mem_nil
  | append_singleton pre b ih =>
    rw [List.append_assoc, List.singleton_append] at hsplit
    obtain ⟨c, hc, hget⟩ := ih hsplit
    have hb : b ∈ log := (List.mem_insertionSort _).mp (hsplit ▸ mem_append_right _ mem_cons_self)
    obtain ⟨k, e, he, hk, rfl⟩ := (hlog b).mp hb
    obtain ⟨p, hp⟩ := h.derived.entries he hk
    -- The parent is genesis, or it is lower and so its work is known.
    have hknown : knownWork bc.rules.genesisHash bc.genesisWork c e.block.header.prevHash = some p.chainWork := by
      unfold knownWork
      split_ifs with hroot
      · have hentry := hp.parent
        rw [hroot] at hentry
        rw [genesisWork, hentry]
        rfl
      · refine (hget _ _).mpr ⟨p, hp.parent, hroot, ?_, rfl⟩
        refine height_le_of_sorted hsplit ((hlog _).mpr ⟨_, p, hp.parent, hroot, rfl⟩) ?_
        rw [h.skeleton.tree.height_eq hp.parent, h.skeleton.tree.height_eq he, hp.height]
        exact Nat.lt_succ_self _
    have hzero : e.shaTarget ≠ 0 := expectedTarget_ne_zero h.target_ne_zero hp.target
    have hadd := BlockLog.addWork_of_known (C := N) hknown (h.fromCompact_bits he hk) hzero
    rw [expectedTarget_canonical hp.target, ← hp.work] at hadd
    refine ⟨c.insert (e.block.hash N) e.chainWork, ?_, fun k' w => ?_⟩
    · rw [List.foldlM_append, hc]
      change (addWork N bc.rules.genesisHash bc.genesisWork c e.block >>= fun c' => pure c') = _
      rw [bind_pure]
      exact hadd
    · rw [get?_insert, hhash he]
      split_ifs with hkey
      · subst hkey
        constructor
        · intro hw
          exact ⟨e, he, hk, mem_append_right _ mem_cons_self, Option.some.inj hw⟩
        · rintro ⟨e', he', -, -, rfl⟩
          rw [Option.some.inj (he.symm.trans he')]
      · rw [hget]
        constructor
        · rintro ⟨e', he', hk', hmem, hw⟩
          exact ⟨e', he', hk', List.mem_append_left _ hmem, hw⟩
        rintro ⟨e', he', hk', hmem, hw⟩
        rcases List.mem_append.mp hmem with hmem | hmem
        · exact ⟨e', he', hk', hmem, hw⟩
        · have hsame : k = k' := by rw [← hhash he, ← hhash he', List.mem_singleton.mp hmem]
          exact absurd hsame hkey

theorem Reachable.links_of_linked (h : Reachable N bc) (hlog : LogOf bc log)
    (hlinked : Linked N bc.rules.genesisHash chain k)
    (hchain : ∀ b ∈ chain, b ∈ log ∧ b.hash N ≠ bc.rules.genesisHash) :
    Links bc.index bc.rules.genesisHash bc.rules.genesisHash chain k := by
  induction hlinked with
  | nil => exact .nil
  | @snoc bs b hbelow ih =>
    obtain ⟨hb, hne⟩ := hchain b (mem_append_right _ mem_cons_self)
    obtain ⟨k', e, he, -, rfl⟩ := (hlog b).mp hb
    rw [h.skeleton.tree.hash_eq he]
    rw [h.skeleton.tree.hash_eq he] at hne
    exact .snoc (ih fun x hx => hchain x (List.mem_append_left _ hx)) he rfl hne

/-- From the blocks a node has accepted, in any order and with repetitions, its active chain is reconstructed. -/
theorem heaviestChain_eq_active (N : NodeEnv) (bc fresh : Blockchain) (log : List Block) (h : Reachable N bc)
    (hsat : Unsaturated bc) (hlog : LogOf bc log) (hgenesis : fresh.rules.genesisHash = bc.rules.genesisHash)
    (hentry : fresh.index.get? fresh.rules.genesisHash = bc.index.get? bc.rules.genesisHash) :
    fresh.heaviestChain N.toCrypto log = .ok bc.blocks.toList.tail := by
  have hwork : fresh.genesisWork = bc.genesisWork := by
    unfold genesisWork
    rw [hentry]
  obtain ⟨cum, hcum, hget⟩ := h.cumulativeWork hlog (List.append_nil (sorted log)).symm
  have hget : ∀ k w, cum.get? k = some w ↔
      ∃ e, bc.index.get? k = some e ∧ k ≠ bc.rules.genesisHash ∧ e.chainWork = w := by
    intro k w
    rw [hget]
    constructor
    · rintro ⟨e, he, hk, -, hw⟩
      exact ⟨e, he, hk, hw⟩
    · rintro ⟨e, he, hk, hw⟩
      exact ⟨e, he, hk, (List.mem_insertionSort _).mpr ((hlog _).mpr ⟨k, e, he, hk, rfl⟩), hw⟩
  obtain ⟨bs, hbs, hactive⟩ := h.skeleton.active
  rw [← h.skeleton.genesis_hash] at hbs
  have htail : bc.blocks.toList.tail = bs := by
    rw [hactive, ActiveChain.toList_extend]
    rfl
  obtain ⟨head, hhead, hbest⟩ := h.headBest hsat
  have hapart : HashesApart N log := by
    intro a ha b hb hab
    obtain ⟨ka, ea, hea, -, rfl⟩ := (hlog a).mp ha
    obtain ⟨kb, eb, heb, -, rfl⟩ := (hlog b).mp hb
    rw [h.skeleton.tree.hash_eq hea, h.skeleton.tree.hash_eq heb] at hab
    subst hab
    rw [Option.some.inj (hea.symm.trans heb)]
  unfold heaviestChain BlockLog.cumulativeWork
  rw [hgenesis, hwork, hcum]
  change Except.ok _ = _
  rw [htail]
  congr 1
  rcases htip : BlockLog.heaviestTip cum with _ | x
  · -- No block but genesis is known.
    rw [BlockLog.heaviestTip_eq_none htip] at hget
    by_cases hroot : bc.head = bc.rules.genesisHash
    · rw [hroot] at hbs
      exact (Links.nil.unique hbs)
    · exact absurd ((hget bc.head head.chainWork).mpr ⟨head, hhead, hroot, rfl⟩) (by simp)
  · obtain ⟨hx, hmost⟩ := BlockLog.heaviestTip_eq_some htip
    obtain ⟨e, he, hk, hw⟩ := (hget _ _).mp hx
    have hroot : bc.head ≠ bc.rules.genesisHash := by
      intro heq
      have hlt := h.root_lt hsat he hk
      rw [heq, h.derived.root] at hhead
      cases hhead
      rw [BitVec.lt_def] at hlt
      rcases hbest he with hlt' | ⟨heq', -⟩
      · rw [BitVec.lt_def] at hlt'
        omega
      · rw [heq'] at hlt
        omega
    have htiphead : x.1 = bc.head := by
      have hmost := hmost _ _ ((hget bc.head head.chainWork).mpr ⟨head, hhead, hroot, rfl⟩)
      have hbest := hbest he
      rw [hw] at hbest
      unfold BlockLog.AtLeast at hmost
      dsimp only at hmost
      rw [BitVec.lt_def] at hmost hbest
      rcases hmost with hlt | ⟨heq, hle⟩
      · rcases hbest with hlt' | ⟨heq', -⟩
        · omega
        · rw [heq'] at hlt
          omega
      · rcases hbest with hlt' | ⟨-, hle'⟩
        · rw [heq] at hlt'
          omega
        · exact le_antisymm hle hle'
    have hknown : knownWork bc.rules.genesisHash bc.genesisWork cum x.1 = some x.2 := by
      rw [knownWork, if_neg hk]
      exact hx
    obtain ⟨bs', hsub, hlinked, -⟩ := BlockLog.exists_linked hcum hknown
    obtain ⟨hto, hmem⟩ := BlockLog.chainTo_linked hapart hlinked hsub
    have hlinks := h.links_of_linked hlog hto hmem
    rw [htiphead] at hlinks
    change BlockLog.chainTo N bc.rules.genesisHash log x.1 = bs
    rw [htiphead]
    exact hlinks.unique hbs

/-! ## Two nodes to compute with -/

/-- `LogOf`, over the entries of the index. -/
def listsBlocks (bc : Blockchain) (log : List Block) : Bool :=
  (log.all fun b => bc.index.entries.any fun x => x.1 ≠ bc.rules.genesisHash && x.2.block = b) &&
    bc.index.entries.all fun x => x.1 = bc.rules.genesisHash || log.contains x.2.block

theorem logOf_of_listsBlocks (h : bc.listsBlocks log = true) : LogOf bc log := by
  unfold listsBlocks at h
  rw [Bool.and_eq_true, all_eq_true, all_eq_true] at h
  obtain ⟨hlisted, hall⟩ := h
  intro b
  constructor
  · intro hb
    obtain ⟨x, hx, hxb⟩ := List.any_eq_true.mp (hlisted b hb)
    rw [Bool.and_eq_true, decide_eq_true_eq, decide_eq_true_eq] at hxb
    exact ⟨x.1, x.2, OrdMap.get?_eq_some_iff.mpr hx, hxb⟩
  · rintro ⟨k, e, he, hk, rfl⟩
    have hx := hall (k, e) (OrdMap.get?_eq_some_iff.mp he)
    rw [Bool.or_eq_true, decide_eq_true_eq] at hx
    exact List.contains_iff_mem.mp (hx.resolve_left hk)

/-- `Unsaturated`, over the entries of the index. -/
def sumsBelow (bc : Blockchain) : Bool :=
  bc.index.entries.all fun x => bc.index.entries.all fun y =>
    y.2.chainWork.toNat + (Work.ofTarget x.2.shaTarget).toNat < 2 ^ 256

theorem unsaturated_of_sumsBelow (h : bc.sumsBelow = true) : Unsaturated bc := by
  unfold sumsBelow at h
  rw [all_eq_true] at h
  intro k e p he _ hp
  have hx := List.all_eq_true.mp (h (k, e) (OrdMap.get?_eq_some_iff.mp he)) _ (OrdMap.get?_eq_some_iff.mp hp)
  exact of_decide_eq_true hx

/-- The genesis of a chain and its entry stay as they are. -/
theorem Reachable.importAll {blocks : List Block} (h : Reachable N bc) (hrun : Blockchain.importAll N bc blocks = .ok bc') :
    Reachable N bc' ∧ bc.rules = bc'.rules ∧
      bc.index.get? bc.rules.genesisHash = bc'.index.get? bc'.rules.genesisHash := by
  induction blocks generalizing bc with
  | nil =>
    cases hrun
    exact ⟨h, rfl, rfl⟩
  | cons block rest ih =>
    obtain ⟨⟨bc1, res⟩, hi, hrun⟩ := Runtime.bind_eq_ok.mp hrun
    have hreach : Reachable N bc1 := h.call (c := .importBlock block) (by rw [ChainCall.run, hi]; rfl)
    have hsetup := setup_importBlockTracked hi
    have hrules : bc1.rules = bc.rules := congrArg Setup.rules hsetup
    have hgenesis : bc1.blocks.genesis = bc.blocks.genesis := congrArg Setup.genesis hsetup
    have hroot : bc.index.get? bc.rules.genesisHash = bc1.index.get? bc1.rules.genesisHash := by
      rw [h.derived.root, hreach.derived.root, rootEntry, rootEntry, hrules, hgenesis]
    obtain ⟨hreach', hrules', hroot'⟩ := ih hreach hrun
    exact ⟨hreach', hrules.symm.trans hrules', hroot.trans hroot'⟩

/-- A node that left two slow blocks for the quick one boots from a log in another order, with a block twice. -/
theorem overtaken_chain_reconstructed :
    ∃ bc, importAll stampNode stampChain [slowBlock, slowerBlock, quickBlock] = .ok bc ∧
      bc.blocks.toList.tail = [quickBlock] ∧
      stampChain.heaviestChain stampCrypto [slowerBlock, quickBlock, slowBlock, quickBlock] =
        .ok bc.blocks.toList.tail := by
  have hstatus : (importAll stampNode stampChain [slowBlock, slowerBlock, quickBlock]).toOption.map (fun bc =>
      (bc.listsBlocks [slowerBlock, quickBlock, slowBlock, quickBlock], bc.sumsBelow, bc.blocks.toList.tail)) =
        some (true, true, [quickBlock]) := by
    decide +kernel
  obtain ⟨bc, hrun, hbc⟩ := Option.map_eq_some_iff.mp hstatus
  obtain ⟨hlog, hsat, htail⟩ := by simpa using hbc
  replace hrun := Runtime.eq_ok_of_toOption hrun
  obtain ⟨hreach, hrules, hroot⟩ := reachable_stampChain.importAll hrun
  exact ⟨bc, hrun, htail, heaviestChain_eq_active stampNode bc stampChain _ hreach (unsaturated_of_sumsBelow hsat)
    (logOf_of_listsBlocks hlog) (congrArg Rules.genesisHash hrules) hroot⟩

/-- The hardest target that has a work, of 2²⁵⁵ attempts: the first block above genesis has the greatest sum. -/
def mightyConfig : GenesisConfig := { stampConfig with mining := { stampConfig.mining with sha256dTarget := 1 } }

def mightyGenesis : Genesis where
  ledger := .new stampCrypto
  block := mightyConfig.block stampCrypto (.new stampCrypto)
  coinbase := mightyConfig.coinbase

def mightyChain : Blockchain := ofGenesis stampNode mightyConfig mightyGenesis

def mightyBlock : Block := stampBlock mightyGenesis.block 1 1

def mightierBlock : Block := stampBlock mightyBlock 2 1

/-- Two blocks of a node have the greatest work both, and the lower one is reconstructed as the head. -/
theorem saturated_head_lost : ∃ bc, Blockchain.new stampNode mightyConfig = .ok mightyChain ∧ Reachable stampNode bc ∧
    LogOf bc [mightyBlock, mightierBlock] ∧ mightyChain.rules = bc.rules ∧
    mightyChain.index.get? mightyChain.rules.genesisHash = bc.index.get? bc.rules.genesisHash ∧
    bc.blocks.toList.tail = [mightyBlock, mightierBlock] ∧
    mightyChain.heaviestChain stampCrypto [mightyBlock, mightierBlock] = .ok [mightyBlock] := by
  have hnew : Blockchain.new stampNode mightyConfig = .ok mightyChain := rfl
  have hboot : (mightyChain.heaviestChain stampCrypto [mightyBlock, mightierBlock]).toOption = some [mightyBlock] := by
    decide +kernel
  have hstatus : (importAll stampNode mightyChain [mightyBlock, mightierBlock]).toOption.map
      (fun bc => (bc.listsBlocks [mightyBlock, mightierBlock], bc.blocks.toList.tail)) =
        some (true, [mightyBlock, mightierBlock]) := by
    decide +kernel
  obtain ⟨bc, hrun, hbc⟩ := Option.map_eq_some_iff.mp hstatus
  obtain ⟨hlog, htail⟩ := Prod.mk.inj hbc
  obtain ⟨hreach, hrules, hroot⟩ := (reachable_new hnew).importAll (Runtime.eq_ok_of_toOption hrun)
  exact ⟨bc, hnew, hreach, logOf_of_listsBlocks hlog, hrules, hroot, htail, Runtime.eq_ok_of_toOption hboot⟩

end Blockchain
end Sov
