import SovChain.Types.Inclusion

/-!
# The block log

The file a node replays on restart: framed, checksummed records that are only ever appended to. A reader takes the
records up to the first damaged one, and a node that restarts opens the file for appending where it ends. So whatever is
appended after a torn record stands behind it, out of the reader's reach.
-/

namespace Sov
open List (append_assoc append_nil drop_left' length_append)
namespace BlockLog
open Codec (leBytes ofLeBytes)

/-- The largest payload of a record. -/
def maxRecord : ℕ := 16 * 1024 * 1024

/-- The length and the checksum in front of a payload. -/
def header : ℕ := 4 + 32

/-- `[len: u32 LE][checksum][payload]`. -/
def writeRecord (C : Crypto) (payload : Bytes) : Bytes :=
  leBytes 4 payload.length ++ (C.digest payload).bytes ++ payload

/-- Every intact record, up to the first that is truncated or damaged. -/
def readRecords (C : Crypto) (data : Bytes) : List Bytes :=
  if header ≤ data.length then
    let len := ofLeBytes (data.take 4)
    let checksum := (data.drop 4).take 32
    let payload := (data.drop header).take len
    if len = 0 ∨ maxRecord < len ∨ data.length < header + len then []
    else if (C.digest payload).bytes ≠ checksum then []
    else payload :: readRecords C (data.drop (header + len))
  else []
termination_by data.length
decreasing_by
  simp only [List.length_drop, header] at *
  omega

/-- Open the file for appending, or create it. -/
def openAppend (file : Option Bytes) : Bytes := file.getD []

def append (C : Crypto) (log : Bytes) (block : Block) : Bytes :=
  log ++ writeRecord C (Block.codec.encode block)

/-- The blocks of a file. An intact record that is no block is an error. -/
def loadBlocks (C : Crypto) (file : Option Bytes) : Option (List Block) :=
  (file.elim [] (readRecords C)).mapM Block.codec.decodeAll

/-- A block that a record can hold. -/
structure Loggable (b : Block) : Prop where
  fits : Block.codec.Fits b
  size : b.serializedSize ≤ maxRecord

/-- The records of a list of blocks. -/
def records (C : Crypto) (blocks : List Block) : Bytes :=
  blocks.flatMap fun b => writeRecord C (Block.codec.encode b)

variable {C : Crypto} {payload rest torn : Bytes} {blocks : List Block}

theorem foldl_append (log : Bytes) : blocks.foldl (append C) log = log ++ records C blocks := by
  induction blocks generalizing log with
  | nil => exact (append_nil log).symm
  | cons b blocks ih => rw [List.foldl_cons, ih, append, records, records, List.flatMap_cons, append_assoc]

theorem length_writeRecord : (writeRecord C payload).length = header + payload.length := by
  simp [writeRecord, header, (C.digest payload).length_eq]
  omega

/-- The header of a record, whatever follows it. -/
theorem take_four_writeRecord (hsize : payload.length ≤ maxRecord) :
    ofLeBytes ((writeRecord C payload ++ rest).take 4) = payload.length := by
  have hlen : payload.length < 256 ^ 4 := hsize.trans_lt (by decide)
  rw [writeRecord, append_assoc, append_assoc, List.take_left' (Codec.length_leBytes 4 _),
    Codec.ofLeBytes_leBytes 4 _ hlen]

theorem readRecords_writeRecord (hpos : payload ≠ []) (hsize : payload.length ≤ maxRecord) :
    readRecords C (writeRecord C payload ++ rest) = payload :: readRecords C rest := by
  have hlen : (writeRecord C payload).length = header + payload.length := length_writeRecord
  have hpayload : ((writeRecord C payload ++ rest).drop header).take payload.length = payload := by
    rw [writeRecord, append_assoc, drop_left' (by simp [header, (C.digest payload).length_eq]),
      List.take_left]
  have hchecksum : ((writeRecord C payload ++ rest).drop 4).take 32 = (C.digest payload).bytes := by
    rw [writeRecord, append_assoc, append_assoc, drop_left' (Codec.length_leBytes 4 _),
      List.take_left' (C.digest payload).length_eq]
  have hbound : ¬(payload.length = 0 ∨ maxRecord < payload.length ∨
      (writeRecord C payload ++ rest).length < header + payload.length) := by
    have hlong := List.length_pos_iff.mpr hpos
    rw [length_append, hlen]
    omega
  rw [readRecords, if_pos (by rw [length_append, hlen]; omega)]
  dsimp only
  rw [take_four_writeRecord hsize, if_neg hbound, hpayload, hchecksum, if_neg (not_not.mpr rfl), drop_left' hlen]

/-- No record that could have been written stands in front. -/
def Damaged (C : Crypto) (data : Bytes) : Prop :=
  ∀ payload rest, payload ≠ [] → payload.length ≤ maxRecord → data ≠ writeRecord C payload ++ rest

theorem Damaged.readRecords {data : Bytes} (h : Damaged C data) : readRecords C data = [] := by
  rw [BlockLog.readRecords]
  split_ifs with hheader
  · dsimp only
    split_ifs with hbound hchecksum
    · rfl
    · rfl
    -- The parts of an intact record are those of the record of its payload.
    exfalso
    push Not at hbound hchecksum
    obtain ⟨hzero, hmax, hlong⟩ := hbound
    have hlen : ((data.drop header).take (ofLeBytes (data.take 4))).length = ofLeBytes (data.take 4) := by
      rw [List.length_take, List.length_drop]
      omega
    refine h _ (data.drop (header + ofLeBytes (data.take 4))) ?_ (hlen.trans_le hmax) ?_
    · rw [← List.length_pos_iff, hlen]
      omega
    have hfour : (data.take 4).length = 4 := by
      rw [List.length_take]
      simp only [header] at hheader
      omega
    rw [writeRecord, hlen, hchecksum, Codec.leBytes_ofLeBytes hfour, append_assoc, ← List.drop_drop,
      List.take_append_drop, header, ← List.drop_drop, append_assoc, List.take_append_drop, List.take_append_drop]
  · rfl

/-- A strict beginning of a record holds no record. -/
theorem readRecords_torn (hsize : payload.length ≤ maxRecord) (htorn : torn <+: writeRecord C payload)
    (hstrict : torn ≠ writeRecord C payload) : readRecords C torn = [] := by
  obtain ⟨tail, htail⟩ := htorn
  have hne : tail ≠ [] := by
    rintro rfl
    exact hstrict (by rw [← htail, append_nil])
  refine Damaged.readRecords fun payload' rest' _ hsize' hread => ?_
  have hsame : payload'.length = payload.length := by
    have hfour : ofLeBytes ((writeRecord C payload' ++ (rest' ++ tail)).take 4) = payload'.length :=
      take_four_writeRecord hsize'
    rw [← hfour, ← append_assoc, ← hread, htail,
      ← append_nil (writeRecord C payload), take_four_writeRecord hsize]
  have hlength := congrArg List.length htail
  rw [hread, length_append, length_append, length_writeRecord, length_writeRecord, hsame] at hlength
  exact hne (List.length_eq_zero_iff.mp (by omega))

theorem encode_ne_nil (b : Block) : Block.codec.encode b ≠ [] := by
  have hlow : ∃ x l, Block.codec.encode b = x :: l := ⟨_, _, rfl⟩
  obtain ⟨x, l, h⟩ := hlow
  rw [h]
  exact List.cons_ne_nil x l

theorem readRecords_records (h : ∀ b ∈ blocks, Loggable b) :
    readRecords C (records C blocks ++ rest) = blocks.map Block.codec.encode ++ readRecords C rest := by
  induction blocks with
  | nil => rfl
  | cons b blocks ih =>
    obtain ⟨hb, hblocks⟩ := List.forall_mem_cons.mp h
    rw [records, List.flatMap_cons, append_assoc, readRecords_writeRecord (encode_ne_nil b) hb.size, ← records,
      ih hblocks]
    rfl

theorem mapM_decodeAll (h : ∀ b ∈ blocks, Loggable b) :
    (blocks.map Block.codec.encode).mapM Block.codec.decodeAll = some blocks := by
  induction blocks with
  | nil => rfl
  | cons b blocks ih =>
    obtain ⟨hb, hblocks⟩ := List.forall_mem_cons.mp h
    rw [List.map_cons, List.mapM_cons, Block.codec.decodeAll_encode hb.fits, ih hblocks]
    rfl

/-- The file after some blocks, a crash that leaves `torn` of the next record, a restart and more blocks. -/
def afterCrash (C : Crypto) (R : List Block) (torn : Bytes) (S : List Block) : Bytes :=
  S.foldl (append C) (openAppend (some (R.foldl (append C) (openAppend none) ++ torn)))

theorem readRecords_afterCrash {R S : List Block} (hR : ∀ b ∈ R, Loggable b) :
    readRecords C (afterCrash C R torn S) = R.map Block.codec.encode ++ readRecords C (torn ++ records C S) := by
  rw [afterCrash, foldl_append, foldl_append, openAppend, openAppend, Option.getD_some, Option.getD_none,
    List.nil_append, append_assoc, readRecords_records hR]

/-- A log that was torn loads what was appended before and after if nothing was left of the torn record or nothing was
appended after it. Otherwise all that came after it is lost, as what stands there is damaged. -/
theorem torn_log_loads (C : Crypto) (R S : List Block) (next : Block) (torn : Bytes)
    (hR : ∀ b ∈ R, Loggable b) (hS : ∀ b ∈ S, Loggable b) (hnext : Loggable next)
    (htorn : torn <+: writeRecord C (Block.codec.encode next))
    (hstrict : torn ≠ writeRecord C (Block.codec.encode next)) :
    (torn = [] ∨ S = [] → loadBlocks C (some (afterCrash C R torn S)) = some (R ++ S)) ∧
      (Damaged C (torn ++ records C S) → loadBlocks C (some (afterCrash C R torn S)) = some R) := by
  unfold loadBlocks
  rw [Option.elim_some, readRecords_afterCrash hR]
  constructor
  · intro hnone
    have hrest : readRecords C (torn ++ records C S) = S.map Block.codec.encode := by
      rcases hnone with rfl | rfl
      · have hend : readRecords C [] = [] := by
          rw [readRecords]
          rfl
        rw [List.nil_append, ← append_nil (records C S), readRecords_records hS, hend, append_nil]
      · rw [records, List.flatMap_nil, append_nil, readRecords_torn hnext.size htorn hstrict]
        rfl
    rw [hrest, ← List.map_append]
    exact mapM_decodeAll (List.forall_mem_append.mpr ⟨hR, hS⟩)
  · intro hdamaged
    rw [hdamaged.readRecords, append_nil]
    exact mapM_decodeAll hR

def loggedBlock : Block :=
  .assemble prefixCrypto 1 Hash.zero Hash.zero Hash.zero 0 ⟨"miner.sov"⟩ []

theorem loggable_loggedBlock : Loggable loggedBlock where
  fits := ⟨⟨trivial, trivial, trivial, trivial, trivial, trivial, ⟨by decide, fun _ _ => trivial⟩, trivial, trivial,
    trivial⟩, by simp [loggedBlock, Block.assemble], by simp [loggedBlock, Block.assemble]⟩
  size := by decide +kernel

/-- What a crash after one byte of a record leaves. -/
def tornByte : Bytes := (writeRecord prefixCrypto (Block.codec.encode loggedBlock)).take 1

/-- After the restart the block is appended again, and not found by the next one. -/
theorem appended_block_lost : tornByte <+: writeRecord prefixCrypto (Block.codec.encode loggedBlock) ∧
      tornByte ≠ writeRecord prefixCrypto (Block.codec.encode loggedBlock) ∧
      loadBlocks prefixCrypto (some (afterCrash prefixCrypto [] tornByte [loggedBlock])) = some [] := by
  refine ⟨List.take_prefix 1 _, by decide +kernel, ?_⟩
  have hread : readRecords prefixCrypto (afterCrash prefixCrypto [] tornByte [loggedBlock]) = [] := by
    rw [readRecords]
    decide +kernel
  rw [loadBlocks, Option.elim_some, hread]
  rfl

theorem torn_tail_dropped :
    loadBlocks prefixCrypto (some (afterCrash prefixCrypto [loggedBlock] tornByte [])) = some [loggedBlock] :=
  (torn_log_loads prefixCrypto [loggedBlock] [] loggedBlock tornByte (by simp [loggable_loggedBlock]) (by simp)
    loggable_loggedBlock (List.take_prefix 1 _) (by decide +kernel)).1 (.inr rfl)

end BlockLog
end Sov
