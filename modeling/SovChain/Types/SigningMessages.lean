import SovChain.Types.Transaction

/-!
# Messages of different purposes

Four kinds of message are signed: transactions, intents, multisig approvals and key-rotation proofs.
The first two are signed as their bare Borsh encoding, as that encoding framed with the network, or
either, depending on the mode of the block; the other two are tagged and separate their account id
by zero bytes.

The encodings stay apart only as far as account ids do. The Borsh decoder accepts ids with any
characters, so an approval's id may contain the separator, and a transfer's recipient may carry the
tag byte of an intent's asset at the place where the intent has it: the two messages then coincide.
`SigningMessage.Separated` states what an id must not contain; every validated id meets it.
-/

namespace Sov
open Codec

/-- A value that some key signs. -/
inductive SigningMessage where
  | transaction (t : Transaction)
  | intent (i : Intent)
  | approval (account : AccountId) (nonce : U64) (action : Action)
  | rotation (signer : AccountId) (nonce : U64) (newKey : PublicKey)
deriving DecidableEq

/-- The domains a signature may be made under in a mode. -/
def TxDomainMode.domains : TxDomainMode → List (Option SigningDomain)
  | legacy => [none]
  | grace d => [some d, none]
  | bound d => [some d]

namespace SigningMessage

/-- The byte strings whose signature counts for the message in a mode. -/
def preimages (mode : TxDomainMode) : SigningMessage → List Bytes
  | transaction t => mode.domains.map t.signingBytesIn
  | intent i => mode.domains.map i.signingBytesIn
  | approval account nonce action => [multisigSigningBytes account nonce action]
  | rotation signer nonce newKey => [rotationSigningBytes signer nonce newKey]

/-- The message is made of values the Borsh decoders return. -/
def Decodable : SigningMessage → Prop
  | transaction t => ∃ b s, Transaction.codec.decode b = some (t, s)
  | intent i => ∃ b s, Intent.codec.decode b = some (i, s)
  | approval account _ action =>
    (∃ b s, AccountId.codec.decode b = some (account, s)) ∧
      ∃ b s, Action.codec.decode b = some (action, s)
  | rotation signer _ _ => ∃ b s, AccountId.codec.decode b = some (signer, s)

/-- The four bytes `sov:` read as a little-endian length. -/
def tagLength : ℕ := 0x3a766f73

/-- A transfer's recipient that has the tag byte of an intent's wanted asset where the intent has
it: the native coin's, in 21 bytes, or a token's, in 53. -/
def LooksLikeIntent (dest : AccountId) : Prop :=
  (dest.bytes.length = 21 ∧ dest.bytes[12]? = some 0) ∨
    (dest.bytes.length = 53 ∧ dest.bytes[12]? = some 1)

/-- The ids of the message cannot be mistaken for another part of a message. -/
def Separated : SigningMessage → Prop
  | transaction t => t.signer.bytes.length ≠ tagLength ∧
      ∀ dest amt, t.action = .transfer dest amt → ¬ LooksLikeIntent dest
  | intent i => i.owner.bytes.length ≠ tagLength
  | approval account _ _ => 0 ∉ account.bytes
  | rotation signer _ _ => 0 ∉ signer.bytes

/-- The ids of the message that `Separated` speaks about pass `AccountId::validate`. -/
def WellFormedIds : SigningMessage → Prop
  | transaction t => t.signer.WellFormed ∧
      ∀ dest amt, t.action = .transfer dest amt → dest.WellFormed
  | intent i => i.owner.WellFormed
  | approval account _ _ => account.WellFormed
  | rotation signer _ _ => signer.WellFormed

variable {id : AccountId} {m : SigningMessage}

theorem WellFormedIds.separated (h : m.WellFormedIds) : m.Separated := by
  have hlength : ∀ {id : AccountId}, id.WellFormed → id.bytes.length ≠ tagLength := by
    intro id hid
    have := hid.length_bounds
    unfold tagLength
    omega
  cases m with
  | transaction t =>
    refine ⟨hlength h.1, fun dest amt ht => ?_⟩
    rintro (⟨-, hb⟩ | ⟨-, hb⟩)
    · exact (h.2 dest amt ht).ne_of_mem (List.mem_of_getElem? hb) (by decide) rfl
    · exact (h.2 dest amt ht).ne_of_mem (List.mem_of_getElem? hb) (by decide) rfl
  | intent i => exact hlength h
  | approval => exact fun hmem => AccountId.WellFormed.ne_of_mem h hmem (by decide) rfl
  | rotation => exact fun hmem => AccountId.WellFormed.ne_of_mem h hmem (by decide) rfl

/-! ## The shapes of the messages -/

theorem flatMap_u8_encode (b : Bytes) : b.flatMap u8.encode = b := by
  induction b with
  | nil => rfl
  | cons x xs ih => simp [u8] at ih ⊢

theorem accountId_encode (id : AccountId) :
    AccountId.codec.encode id = leBytes 4 (id.bytes.length % 2 ^ 32) ++ id.bytes := by
  show leBytes 4 (BitVec.ofNat 32 id.bytes.length).toNat ++ id.bytes.flatMap u8.encode = _
  rw [flatMap_u8_encode, BitVec.toNat_ofNat]

theorem accountId_fits (h : AccountId.codec.Fits id) : id.bytes.length < 2 ^ 32 := h.1

/-- A message that begins with a length is not one that begins with `sov:`, unless the length is
that tag. -/
theorem length_prefix_ne_tag (hf : AccountId.codec.Fits id) (hlen : id.bytes.length ≠ tagLength) (x y : Bytes) :
    AccountId.codec.encode id ++ x ≠ strBytes "sov:" ++ y := by
  intro h
  rw [accountId_encode, Nat.mod_eq_of_lt (accountId_fits hf), List.append_assoc] at h
  have h4 := (List.append_inj h (by rw [length_leBytes]; rfl)).1
  have hv := congrArg ofLeBytes h4
  rw [ofLeBytes_leBytes 4 _ (accountId_fits hf)] at hv
  exact hlen (hv.trans (by decide))

/-- The message begins with `sov:` and the byte `c`. -/
def Tagged (c : UInt8) (b : Bytes) : Prop := ∃ y, b = strBytes "sov:" ++ c :: y

variable {b : Bytes} {c c' : UInt8}

theorem Tagged.unique (h : Tagged c b) (h' : Tagged c' b) : c = c' := by
  obtain ⟨y, rfl⟩ := h
  obtain ⟨y', h'⟩ := h'
  exact (List.cons.inj (List.append_cancel_left h')).1

theorem Tagged.append (h : Tagged c b) (x : Bytes) : Tagged c (b ++ x) := by
  obtain ⟨y, rfl⟩ := h
  exact ⟨y ++ x, by simp⟩

variable {tag : Bytes}

theorem tagged_frame {d : SigningDomain} (h : Tagged c tag) (body : Bytes) : Tagged c (d.frame tag body) :=
  ((((h.append _).append _).append _).append _).append _

theorem tagged_tx : Tagged 116 Transaction.signingDomainTag := ⟨strBytes "x:v1", by decide⟩

theorem tagged_intent : Tagged 105 Intent.signingDomainTag := ⟨strBytes "ntent:v1", by decide⟩

theorem tagged_approval (account : AccountId) (nonce : U64) (action : Action) :
    Tagged 109 (multisigSigningBytes account nonce action) := by
  have h : Tagged 109 (strBytes "sov:multisig:v1") := ⟨strBytes "ultisig:v1", by decide⟩
  exact ((((h.append _).append _).append _).append _).append _

theorem tagged_rotation (signer : AccountId) (nonce : U64) (newKey : PublicKey) :
    Tagged 114 (rotationSigningBytes signer nonce newKey) := by
  have h : Tagged 114 (strBytes "sov:rotate:v1") := ⟨strBytes "otate:v1", by decide⟩
  exact ((((h.append _).append _).append _).append _).append _

theorem transaction_signingBytes (t : Transaction) : t.signingBytes =
    AccountId.codec.encode t.signer ++ (PublicKey.codec.encode t.publicKey ++
      ((uint 8).encode t.nonce ++ Action.codec.encode t.action)) := rfl

theorem intent_signingBytes (i : Intent) : i.signingBytes =
    AccountId.codec.encode i.owner ++ (PublicKey.codec.encode i.publicKey ++
      ((uint 8).encode i.nonce ++ (Asset.codec.encode i.giveAsset ++ ((uint 16).encode i.giveAmount ++
        (Asset.codec.encode i.wantAsset ++ ((uint 16).encode i.minReceive ++ (uint 8).encode i.expiryHeight)))))) := rfl

theorem transaction_not_tagged {t : Transaction} (hf : Transaction.codec.Fits t)
    (hs : (transaction t).Separated) (c : UInt8) : ¬ Tagged c t.signingBytes := by
  rintro ⟨y, h⟩
  rw [transaction_signingBytes] at h
  exact length_prefix_ne_tag hf.1 hs.1 _ _ h

theorem intent_not_tagged {i : Intent} (hf : Intent.codec.Fits i) (hs : (intent i).Separated)
    (c : UInt8) : ¬ Tagged c i.signingBytes := by
  rintro ⟨y, h⟩
  rw [intent_signingBytes] at h
  exact length_prefix_ne_tag hf.1 hs _ _ h

/-! ## Transactions and intents -/

/-- The bare encodings of a transfer and an intent agree only if the recipient of the transfer looks
like an intent. The bytes after the common head are, for the transfer, four of length, the recipient
and sixteen of amount; for the intent, sixteen of amount and the tag of the wanted asset, which
therefore falls on the recipient's byte 12. -/
theorem transfer_encode_eq {dest : AccountId} {amt : Balance} {x y : U128} {want : Asset} {z : U64}
    (hf : AccountId.codec.Fits dest) (h : AccountId.codec.encode dest ++ (uint 16).encode amt =
      (uint 16).encode x ++ (Asset.codec.encode want ++ ((uint 16).encode y ++ (uint 8).encode z))) :
    LooksLikeIntent dest := by
  rw [accountId_encode, Nat.mod_eq_of_lt (accountId_fits hf)] at h
  have hlen := congrArg List.length h
  have h16 := congrArg (fun b => b[16]?) h
  have hx : ((uint 16).encode x).length = 16 := length_leBytes 16 _
  have ha : ((uint 16).encode amt).length = 16 := length_leBytes 16 _
  have hy : ((uint 16).encode y).length = 16 := length_leBytes 16 _
  have hz : ((uint 8).encode z).length = 8 := length_leBytes 8 _
  simp only [List.length_append, length_leBytes, hx, ha, hy, hz] at hlen
  have hw : (Asset.codec.encode want).length = 1 ∨ (Asset.codec.encode want).length = 33 := by
    cases want with
    | sov => exact .inl rfl
    | token id => exact .inr (congrArg (· + 1) id.length_eq)
  have hdest : 12 < dest.bytes.length := by omega
  have hbyte : dest.bytes[12]? = (Asset.codec.encode want)[0]? := by
    rw [List.append_assoc, List.getElem?_append_right (by rw [length_leBytes]; omega),
      length_leBytes, List.getElem?_append_left hdest,
      List.getElem?_append_right (by rw [hx]), hx,
      List.getElem?_append_left (by omega)] at h16
    exact h16
  cases want with
  | sov =>
    refine .inl ⟨?_, hbyte⟩
    have : (Asset.codec.encode Asset.sov).length = 1 := rfl
    omega
  | token id =>
    refine .inr ⟨?_, hbyte⟩
    have : (Asset.codec.encode (Asset.token id)).length = 33 := congrArg (· + 1) id.length_eq
    omega

/-- An action's encoding is an intent's offer only for a transfer that looks like one. -/
theorem action_encode_ne_offer {a : Action} {d : ℕ} (hf : a.Fits d)
    (hs : ∀ dest amt, a = .transfer dest amt → ¬ LooksLikeIntent dest) (i : Intent) :
    a.encode ≠ Asset.codec.encode i.giveAsset ++ ((uint 16).encode i.giveAmount ++
      (Asset.codec.encode i.wantAsset ++ ((uint 16).encode i.minReceive ++ (uint 8).encode i.expiryHeight))) := by
  intro h
  -- The first byte is the action's tag and the given asset's: zero or one.
  have h0 := congrArg (fun b => b[0]?) h
  cases hg : i.giveAsset with
  | sov =>
    rw [hg] at h h0
    cases a with
    | transfer dest amt =>
      exact hs dest amt rfl (transfer_encode_eq hf.1 (List.cons.inj h).2)
    | _ => exact absurd (Option.some.inj h0) (by decide)
  | token id =>
    rw [hg] at h h0
    cases a with
    | claimVesting =>
      have hlen := congrArg List.length h
      have : ((uint 16).encode i.giveAmount).length = 16 := length_leBytes 16 _
      simp only [Action.encode, List.length_append, List.length_cons, List.length_nil, this] at hlen
      omega
    | _ => exact absurd (Option.some.inj h0) (by decide)

theorem transaction_ne_intent {t : Transaction} {i : Intent} (ht : Transaction.codec.Fits t)
    (hi : Intent.codec.Fits i) (hs : (transaction t).Separated) : t.signingBytes ≠ i.signingBytes := by
  intro h
  rw [transaction_signingBytes, intent_signingBytes] at h
  have h1 := (AccountId.codec.encode_append_inj ht.1 hi.1 h).2
  have h2 := (PublicKey.codec.encode_append_inj (PublicKey.codec_fits _) (PublicKey.codec_fits _) h1).2
  have h3 := ((uint 8).encode_append_inj trivial trivial h2).2
  exact action_encode_ne_offer ht.2.2.2 hs.2 i h3

/-! ## What a message accepts -/

variable {mode : TxDomainMode}

theorem mem_domains {d d' : SigningDomain} (h : some d ∈ mode.domains) (h' : some d' ∈ mode.domains) : d = d' := by
  cases mode <;> simp_all [TxDomainMode.domains]

/-- The message of a record: its encoding, framed under a domain if there is one. Both
`signing_bytes_in` functions have this form. -/
def recordBytes (tag body : Bytes) : Option SigningDomain → Bytes
  | none => body
  | some d => d.frame tag body

theorem transaction_signingBytesIn (t : Transaction) :
    t.signingBytesIn = recordBytes Transaction.signingDomainTag t.signingBytes := by
  funext o
  cases o <;> rfl

theorem intent_signingBytesIn (i : Intent) : i.signingBytesIn = recordBytes Intent.signingDomainTag i.signingBytes := by
  funext o
  cases o <;> rfl

variable {body : Bytes} {o : Option SigningDomain} {o' : Option SigningDomain}

theorem recordBytes_tag (htag : Tagged c tag) (hbody : ¬ Tagged c' body)
    (h : Tagged c' (recordBytes tag body o)) : c' = c := by
  cases o with
  | none => exact absurd h hbody
  | some d => exact h.unique (tagged_frame htag _)

theorem recordBytes_inj {body' : Bytes} (htag : Tagged c tag)
    (hbody : ¬ Tagged c body) (hbody' : ¬ Tagged c body') (ho : o ∈ mode.domains) (ho' : o' ∈ mode.domains)
    (h : recordBytes tag body o = recordBytes tag body' o') : body = body' := by
  cases o with
  | none =>
    rcases o' with _ | d'
    · exact h
    change body = _ at h
    exact absurd (h ▸ tagged_frame htag body') hbody
  | some d =>
    rcases o' with _ | d'
    · change _ = body' at h
      exact absurd (h ▸ tagged_frame htag body) hbody'
    obtain rfl := mem_domains ho ho'
    exact SigningDomain.frame_inj_body h

/-- Untagged records of kinds with different tags have a common message only if their encodings are
equal. -/
theorem recordBytes_eq {tag' body' : Bytes} (htag : Tagged c tag)
    (htag' : Tagged c' tag') (hne : c ≠ c') (hbody : ¬ Tagged c' body) (hbody' : ¬ Tagged c body')
    (h : recordBytes tag body o = recordBytes tag' body' o') : body = body' := by
  cases o with
  | none =>
    rcases o' with _ | d'
    · exact h
    change body = _ at h
    exact absurd (h ▸ tagged_frame htag' body') hbody
  | some d =>
    rcases o' with _ | d'
    · change _ = body' at h
      exact absurd (h ▸ tagged_frame htag body) hbody'
    have hc : Tagged c (d'.frame tag' body') := by
      change d.frame tag body = d'.frame tag' body' at h
      exact h ▸ tagged_frame htag body
    exact absurd (hc.unique (tagged_frame htag' body')) hne

theorem approval_inj {a a' : AccountId} {n n' : U64} {x x' : Action} (ha : 0 ∉ a.bytes)
    (ha' : 0 ∉ a'.bytes) (hf : Action.codec.Fits x) (hf' : Action.codec.Fits x')
    (h : multisigSigningBytes a n x = multisigSigningBytes a' n' x') : a = a' ∧ n = n' ∧ x = x' := by
  simp only [multisigSigningBytes, List.append_assoc, List.append_cancel_left_eq] at h
  obtain ⟨hid, h⟩ := append_sep_inj ha ha' h
  obtain ⟨rfl, hx⟩ := (uint 8).encode_append_inj trivial trivial h
  exact ⟨AccountId.bytes_injective hid, rfl, Action.codec.encode_inj hf hf' hx⟩

theorem rotation_inj {a a' : AccountId} {n n' : U64} {k k' : PublicKey} (ha : 0 ∉ a.bytes)
    (ha' : 0 ∉ a'.bytes) (h : rotationSigningBytes a n k = rotationSigningBytes a' n' k') :
    a = a' ∧ n = n' ∧ k = k' := by
  simp only [rotationSigningBytes, List.append_assoc, List.append_cancel_left_eq] at h
  obtain ⟨hid, h⟩ := append_sep_inj ha ha' h
  obtain ⟨rfl, hk⟩ := (uint 8).encode_append_inj trivial trivial h
  exact ⟨AccountId.bytes_injective hid, rfl,
    PublicKey.codec.encode_inj (PublicKey.codec_fits _) (PublicKey.codec_fits _) hk⟩

/-! ## Separation -/

/-- What a preimage of a message is, with what the decoders guarantee. -/
inductive Preimage (mode : TxDomainMode) : SigningMessage → Bytes → Prop
  | transaction {t : Transaction} {o : Option SigningDomain} (ho : o ∈ mode.domains)
      (hf : Transaction.codec.Fits t) :
      Preimage mode (.transaction t) (recordBytes Transaction.signingDomainTag t.signingBytes o)
  | intent {i : Intent} {o : Option SigningDomain} (ho : o ∈ mode.domains)
      (hf : Intent.codec.Fits i) :
      Preimage mode (.intent i) (recordBytes Intent.signingDomainTag i.signingBytes o)
  | approval {a : AccountId} {n : U64} {x : Action} (hf : Action.codec.Fits x) :
      Preimage mode (.approval a n x) (multisigSigningBytes a n x)
  | rotation {a : AccountId} {n : U64} {k : PublicKey} :
      Preimage mode (.rotation a n k) (rotationSigningBytes a n k)

theorem preimage_of_mem (hd : m.Decodable) (hb : b ∈ m.preimages mode) : Preimage mode m b := by
  cases m with
  | transaction t =>
    obtain ⟨b', s, hdec⟩ := hd
    rw [preimages, transaction_signingBytesIn] at hb
    obtain ⟨o, ho, rfl⟩ := List.mem_map.mp hb
    exact .transaction ho (Transaction.codec.fits_of_decode hdec)
  | intent i =>
    obtain ⟨b', s, hdec⟩ := hd
    rw [preimages, intent_signingBytesIn] at hb
    obtain ⟨o, ho, rfl⟩ := List.mem_map.mp hb
    exact .intent ho (Intent.codec.fits_of_decode hdec)
  | approval a n x =>
    obtain ⟨-, b', s, hdec⟩ := hd
    obtain rfl := List.mem_singleton.mp hb
    exact .approval (Action.codec.fits_of_decode hdec)
  | rotation a n k =>
    obtain rfl := List.mem_singleton.mp hb
    exact .rotation

/-- The tag of a message of each kind, when it has one. -/
def tagByte : SigningMessage → UInt8
  | transaction _ => 116
  | intent _ => 105
  | approval _ _ _ => 109
  | rotation _ _ _ => 114

theorem tag_of_preimage (hs : m.Separated) (hp : Preimage mode m b) (h : Tagged c b) : c = m.tagByte := by
  cases hp with
  | transaction ho hf => exact recordBytes_tag tagged_tx (transaction_not_tagged hf hs c) h
  | intent ho hf => exact recordBytes_tag tagged_intent (intent_not_tagged hf hs c) h
  | approval hf => exact h.unique (tagged_approval _ _ _)
  | rotation => exact h.unique (tagged_rotation _ _ _)

/-- In every mode, a byte string that is a preimage of two separated messages is a preimage of one:
no signature counts for two purposes or two values. -/
theorem preimage_determines_message (mode : TxDomainMode) (m m' : SigningMessage)
    (hd : m.Decodable) (hd' : m'.Decodable) (hs : m.Separated) (hs' : m'.Separated) (b : Bytes)
    (hb : b ∈ m.preimages mode) (hb' : b ∈ m'.preimages mode) : m = m' := by
  have hp := preimage_of_mem hd hb
  have hp' := preimage_of_mem hd' hb'
  -- An approval or a rotation is tagged, so the other message is of its kind.
  generalize hbb : b = b' at hp'
  cases hp with
  | transaction ho hf =>
    cases hp' with
    | transaction ho' hf' =>
      have := recordBytes_inj tagged_tx (transaction_not_tagged hf hs _)
        (transaction_not_tagged hf' hs' _) ho ho' hbb
      rw [Transaction.codec.encode_inj hf hf' this]
    | intent ho' hf' =>
      exact absurd (recordBytes_eq tagged_tx tagged_intent (by decide)
        (transaction_not_tagged hf hs _) (intent_not_tagged hf' hs' _) hbb)
        (transaction_ne_intent hf hf' hs)
    | approval hf' =>
      exact absurd (tag_of_preimage hs (.transaction ho hf) (hbb ▸ tagged_approval _ _ _))
        (show (109 : UInt8) ≠ 116 by decide)
    | rotation =>
      exact absurd (tag_of_preimage hs (.transaction ho hf) (hbb ▸ tagged_rotation _ _ _))
        (show (114 : UInt8) ≠ 116 by decide)
  | intent ho hf =>
    cases hp' with
    | transaction ho' hf' =>
      exact absurd (recordBytes_eq tagged_tx tagged_intent (by decide)
        (transaction_not_tagged hf' hs' _) (intent_not_tagged hf hs _) hbb.symm)
        (transaction_ne_intent hf' hf hs')
    | intent ho' hf' =>
      have := recordBytes_inj tagged_intent (intent_not_tagged hf hs _)
        (intent_not_tagged hf' hs' _) ho ho' hbb
      rw [Intent.codec.encode_inj hf hf' this]
    | approval hf' =>
      exact absurd (tag_of_preimage hs (.intent ho hf) (hbb ▸ tagged_approval _ _ _))
        (show (109 : UInt8) ≠ 105 by decide)
    | rotation =>
      exact absurd (tag_of_preimage hs (.intent ho hf) (hbb ▸ tagged_rotation _ _ _))
        (show (114 : UInt8) ≠ 105 by decide)
  | approval hf =>
    have htag := tag_of_preimage hs' hp' (hbb ▸ tagged_approval _ _ _)
    cases hp' with
    | approval hf' =>
      obtain ⟨rfl, rfl, rfl⟩ := approval_inj hs hs' hf hf' hbb
      rfl
    | transaction => exact absurd htag (show (109 : UInt8) ≠ 116 by decide)
    | intent => exact absurd htag (show (109 : UInt8) ≠ 105 by decide)
    | rotation => exact absurd htag (show (109 : UInt8) ≠ 114 by decide)
  | rotation =>
    have htag := tag_of_preimage hs' hp' (hbb ▸ tagged_rotation _ _ _)
    cases hp' with
    | rotation =>
      obtain ⟨rfl, rfl, rfl⟩ := rotation_inj hs hs' hbb
      rfl
    | transaction => exact absurd htag (show (114 : UInt8) ≠ 116 by decide)
    | intent => exact absurd htag (show (114 : UInt8) ≠ 105 by decide)
    | approval => exact absurd htag (show (114 : UInt8) ≠ 109 by decide)

/-! ## Where ids are not validated -/

def sampleKey : PublicKey := .v1Ed25519 (FixedBytes.zero 32)

def sampleDomain : SigningDomain := ⟨"sov", FixedBytes.zero 32⟩

/-- A transfer whose recipient has a zero byte at place 12. -/
def forgedTransfer : Transaction where
  signer := ⟨"alice.sov"⟩
  publicKey := sampleKey
  nonce := 7
  action := .transfer ⟨"aaaaaaaaaaaa\x00aaaaaaaa"⟩ 0

/-- The intent with the encoding of `forgedTransfer`: its amounts are the bytes of the recipient. -/
def forgedIntent : Intent where
  owner := ⟨"alice.sov"⟩
  publicKey := sampleKey
  nonce := 7
  giveAsset := .sov
  giveAmount := 0x61616161616161616161616100000015
  wantAsset := .sov
  minReceive := 0x6161616161616161
  expiryHeight := 0

/-- An account id that contains the separator, a nonce and the head of an encoded action. -/
def forgedAccount : AccountId := ⟨"ab\x00aaaaaaaa\x02\x0a\x00\x00\x00"⟩

def claimedAction : Action := .deploy [0, 0, 0, 0, 0, 0, 0, 0, 0, 1]

theorem decodable_of_fits {α : Type} (c : Codec α) {a : α} (h : c.Fits a) : ∃ b s, c.decode b = some (a, s) :=
  ⟨c.encode a ++ [], [], c.decode_encode [] h⟩

theorem accountId_fits_of_length (h : id.bytes.length < 2 ^ 32) : AccountId.codec.Fits id := ⟨h, fun _ _ => trivial⟩

/-- In legacy mode a signature under a transfer is one under an intent, and in bound mode an approval
of a deployment is an approval of another account's vesting claim. All four values decode. -/
theorem unvalidated_ids_confuse_messages : ((transaction forgedTransfer).Decodable ∧ (intent forgedIntent).Decodable ∧
      ∃ b, b ∈ (transaction forgedTransfer).preimages .legacy ∧ b ∈ (intent forgedIntent).preimages .legacy) ∧
    ((approval ⟨"ab"⟩ 0x6161616161616161 claimedAction).Decodable ∧ (approval forgedAccount 0 .claimVesting).Decodable ∧
      approval ⟨"ab"⟩ 0x6161616161616161 claimedAction ≠ approval forgedAccount 0 .claimVesting ∧
      ∃ b, b ∈ (approval ⟨"ab"⟩ 0x6161616161616161 claimedAction).preimages (.bound sampleDomain) ∧
        b ∈ (approval forgedAccount 0 .claimVesting).preimages (.bound sampleDomain)) := by
  refine ⟨⟨?_, ?_, forgedTransfer.signingBytes, ?_, ?_⟩, ⟨⟨?_, ?_⟩, ⟨?_, ?_⟩, by decide,
    multisigSigningBytes ⟨"ab"⟩ 0x6161616161616161 claimedAction, ?_, ?_⟩⟩
  · exact decodable_of_fits _ ⟨accountId_fits_of_length (by decide), PublicKey.codec_fits _, trivial,
      accountId_fits_of_length (by decide), trivial⟩
  · exact decodable_of_fits _ ⟨accountId_fits_of_length (by decide), PublicKey.codec_fits _, trivial,
      Asset.codec_fits _, trivial, Asset.codec_fits _, trivial, trivial⟩
  · exact List.mem_singleton.mpr rfl
  · exact List.mem_singleton.mpr (by decide)
  · exact decodable_of_fits _ (accountId_fits_of_length (by decide))
  · exact decodable_of_fits Action.codec (a := claimedAction) ⟨by decide, fun _ _ => trivial⟩
  · exact decodable_of_fits _ (accountId_fits_of_length (by decide))
  · exact decodable_of_fits Action.codec (a := Action.claimVesting) trivial
  · exact List.mem_singleton.mpr rfl
  · exact List.mem_singleton.mpr (by decide)

/-- A transfer to a validated recipient shares no message with an intent, even in grace mode. -/
theorem honest_transfer_is_no_intent :
    (intent forgedIntent).Decodable ∧ ∀ b ∈ (intent forgedIntent).preimages (.grace sampleDomain),
      b ∉ (transaction { forgedTransfer with action := .transfer ⟨"bob.sov"⟩ 5 }).preimages
        (.grace sampleDomain) := by
  have hi : (intent forgedIntent).Decodable :=
    decodable_of_fits _ ⟨accountId_fits_of_length (by decide), PublicKey.codec_fits _, trivial,
      Asset.codec_fits _, trivial, Asset.codec_fits _, trivial, trivial⟩
  refine ⟨hi, fun b hb hb' => ?_⟩
  have ht : (transaction { forgedTransfer with action := .transfer ⟨"bob.sov"⟩ 5 }).Decodable :=
    decodable_of_fits _ ⟨accountId_fits_of_length (by decide), PublicKey.codec_fits _, trivial,
      accountId_fits_of_length (by decide), trivial⟩
  have hts : (transaction { forgedTransfer with action := .transfer ⟨"bob.sov"⟩ 5 }).WellFormedIds := by
    refine ⟨by decide, fun dest amt h => ?_⟩
    cases h
    decide
  have his : (intent forgedIntent).WellFormedIds := show forgedIntent.owner.WellFormed by decide
  cases preimage_determines_message (.grace sampleDomain) _ _ hi ht his.separated hts.separated b hb hb'

end SigningMessage
end Sov
