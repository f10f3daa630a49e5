import LevelDb.Util.Crc32c

/-!
# The log writer

`log::Writer` of `db/log_writer.cc`: a record is cut into fragments, so that no physical record
crosses a block boundary; a block that has no room for a header is filled with zeros. Addresses do
not matter to the checksums (`Crc32c.extend_append`), and all data is taken to lie at address 0.
Appending to the file may fail, which leaves the file as it is; `Flush` does not fail.
-/

namespace LevelDb.Log

/-! ## Format -/

/-- `RecordType` -/
inductive RecordType where
  /-- `kZeroType`, reserved for preallocated files. -/
  | zero
  /-- `kFullType` -/
  | full
  /-- `kFirstType` -/
  | first
  /-- `kMiddleType` -/
  | middle
  /-- `kLastType` -/
  | last
  deriving DecidableEq, Repr

/-- The number that stands for a record type. -/
def RecordType.toNat : RecordType → ℕ
  | .zero => 0
  | .full => 1
  | .first => 2
  | .middle => 3
  | .last => 4

/-- `kMaxRecordType` -/
def kMaxRecordType : ℕ := RecordType.last.toNat

/-- `kBlockSize` -/
def kBlockSize : ℕ := 32768

/-- `kHeaderSize`: checksum (4 bytes), length (2 bytes), type (1 byte). -/
def kHeaderSize : ℕ := 4 + 1 + 2

/-! ## The file -/

/-- A file that is being written. -/
structure WritableFile where
  /-- What the file holds. -/
  bytes : Slice := []
  /-- Which of the next calls of `Append` fail. -/
  failures : List Bool := []

/-- `WritableFile::Append`: whether it succeeds, and the file after it. -/
def WritableFile.append (file : WritableFile) (data : Slice) : Bool × WritableFile :=
  match file.failures with
  | [] => (true, { file with bytes := file.bytes ++ data })
  | true :: failures => (false, { file with failures := failures })
  | false :: failures => (true, { bytes := file.bytes ++ data, failures := failures })

/-! ## The writer -/

/-- The state of a `log::Writer`. -/
structure Writer where
  /-- `dest_` -/
  dest : WritableFile := {}
  /-- `block_offset_`: the current offset in the block. -/
  blockOffset : ℕ := 0

/-- `type_crc_`: the checksums of all record types. -/
def typeCrc (t : RecordType) : ℕ := Crc32c.value 0 [UInt8.ofNat t.toNat]

/-- The header of a physical record. -/
def header (t : RecordType) (payload : Slice) : Slice :=
  encodeFixed32 (Crc32c.mask (Crc32c.extend 0 (typeCrc t) payload)) ++
    [UInt8.ofNat payload.length, UInt8.ofNat (payload.length / 2^8), UInt8.ofNat t.toNat]

/-- `Writer::EmitPhysicalRecord`. The block offset advances even when an append fails. -/
def Writer.emitPhysicalRecord (w : Writer) (t : RecordType) (payload : Slice) : Bool × Writer :=
  let r := w.dest.append (header t payload)
  let r := if r.1 then r.2.append payload else r
  (r.1, ⟨r.2, w.blockOffset + kHeaderSize + payload.length⟩)

/-- The switch to a new block when the current one has no room for a header. Failures of filling the
trailer are not looked at. -/
def Writer.switchBlock (w : Writer) : Writer :=
  let leftover := kBlockSize - w.blockOffset
  if leftover < kHeaderSize then
    { dest := if 0 < leftover then (w.dest.append (List.replicate leftover 0)).2 else w.dest
      blockOffset := 0 }
  else w

/-- `fragment_length`: what is left, or what fits in the block. -/
def Writer.fragmentLength (w : Writer) (left : Slice) : ℕ :=
  let avail := kBlockSize - w.blockOffset - kHeaderSize
  if left.length < avail then left.length else avail

/-- The type of a fragment. -/
def fragmentType (isBegin isEnd : Bool) : RecordType :=
  if isBegin && isEnd then .full
  else if isBegin then .first
  else if isEnd then .last
  else .middle

/-- The block offset after a physical record. -/
@[simp] theorem Writer.emitPhysicalRecord_blockOffset (w : Writer) (t : RecordType)
    (payload : Slice) : (w.emitPhysicalRecord t payload).2.blockOffset =
      w.blockOffset + kHeaderSize + payload.length := rfl

/-- A block with room for a header is not left. -/
theorem Writer.switchBlock_of_room {w : Writer} (h : kHeaderSize ≤ kBlockSize - w.blockOffset) :
    w.switchBlock = w := if_neg (not_lt.mpr h)

/-- A block without room for a header is left. -/
theorem Writer.switchBlock_of_full {w : Writer} (h : kBlockSize - w.blockOffset < kHeaderSize) :
    w.switchBlock.blockOffset = 0 := by
  unfold switchBlock
  dsimp only
  rw [if_pos h]

/-- What is left of the record decreases, or an empty fragment has filled a block in which only a
header fits. -/
theorem Writer.addFragments_decreasing {w : Writer} {left : Slice} {t : RecordType}
    (hmore : 0 < left.length - w.switchBlock.fragmentLength left) :
    2 * (left.drop (w.switchBlock.fragmentLength left)).length +
        (if kBlockSize - (w.switchBlock.emitPhysicalRecord t
            (left.take (w.switchBlock.fragmentLength left))).2.blockOffset = kHeaderSize
          then 1 else 0) <
      2 * left.length + (if kBlockSize - w.blockOffset = kHeaderSize then 1 else 0) := by
  rw [List.length_drop, emitPhysicalRecord_blockOffset, List.length_take]
  by_cases hn : 0 < w.switchBlock.fragmentLength left
  · split_ifs <;> omega
  · have havail : kBlockSize - w.switchBlock.blockOffset ≤ kHeaderSize := by
      unfold fragmentLength at hn hmore
      dsimp only at hn hmore
      split_ifs at hn hmore <;> omega
    have hroom : kHeaderSize ≤ kBlockSize - w.blockOffset := by
      by_contra hfull
      rw [switchBlock_of_full (not_le.mp hfull)] at havail
      exact absurd havail (by decide)
    rw [switchBlock_of_room hroom] at havail hn ⊢
    rw [if_pos (le_antisymm havail hroom), if_neg (by unfold kHeaderSize at *; omega)]
    omega

/-- The loop of `Writer::AddRecord` over what is left of the record. -/
def Writer.addFragments (w : Writer) (isBegin : Bool) (left : Slice) : Bool × Writer :=
  let n := w.switchBlock.fragmentLength left
  let r := w.switchBlock.emitPhysicalRecord (fragmentType isBegin (decide (left.length = n)))
    (left.take n)
  if r.1 = true ∧ 0 < left.length - n then r.2.addFragments false (left.drop n) else r
termination_by 2 * left.length + (if kBlockSize - w.blockOffset = kHeaderSize then 1 else 0)
decreasing_by
  rename_i h
  exact addFragments_decreasing h.2

/-- `Writer::AddRecord`. -/
def Writer.addRecord (w : Writer) (record : Slice) : Bool × Writer := w.addFragments true record

end LevelDb.Log
