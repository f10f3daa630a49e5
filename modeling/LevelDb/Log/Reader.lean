import LevelDb.Log.Writer

/-!
# The log reader

`log::Reader` of `db/log_reader.cc`, with the reports that it makes. `ReadPhysicalRecord` returns
the type byte of a record as an `unsigned int`, or one of the codes `kEof` and `kBadRecord`, which
are numbers of the same range. A reporter is given; `reports` are the calls of
`Reporter::Corruption` so far.
-/

namespace LevelDb.Log

/-- A file that is being read. -/
structure SequentialFile where
  /-- The bytes that were not read yet. -/
  rest : Slice
  /-- Whether reading and skipping fail. -/
  broken : Bool := false
  /-- Whether skipping behind the end fails. Otherwise it leads to the end. -/
  failsPastEnd : Bool := false

/-- The state of a `log::Reader`. -/
structure Reader where
  /-- `file_` -/
  file : SequentialFile
  /-- `checksum_` -/
  checksum : Bool := true
  /-- `buffer_` -/
  buffer : Slice := []
  /-- `eof_`: the last read returned less than a block. -/
  eof : Bool := false
  /-- `last_record_offset_` -/
  lastRecordOffset : ℕ := 0
  /-- `end_of_buffer_offset_` -/
  endOfBufferOffset : ℕ := 0
  /-- `initial_offset_` -/
  initialOffset : ℕ := 0
  /-- The calls of `Reporter::Corruption`: dropped bytes and reason. -/
  reports : List (ℕ × String) := []

/-- Subtraction of `uint64_t`. -/
def sub64 (a b : ℕ) : ℕ := (a + 2^64 - b % 2^64) % 2^64

/-- `kEof` -/
def kEof : ℕ := kMaxRecordType + 1

/-- `kBadRecord` -/
def kBadRecord : ℕ := kMaxRecordType + 2

/-- `Reader::ReportDrop`, which says nothing about data before the initial offset. -/
def Reader.reportDrop (rd : Reader) (bytes : ℕ) (reason : String) : Reader :=
  if rd.initialOffset ≤ sub64 (sub64 rd.endOfBufferOffset rd.buffer.length) bytes then
    { rd with reports := rd.reports ++ [(bytes, reason)] }
  else rd

/-- `Reader::ReportCorruption`. -/
def Reader.reportCorruption (rd : Reader) (bytes : ℕ) (reason : String) : Reader :=
  rd.reportDrop bytes ("Corruption: " ++ reason)

/-- `Reader::SkipToInitialBlock`: whether it succeeds, and the reader after it. -/
def Reader.skipToInitialBlock (rd : Reader) : Bool × Reader :=
  let offsetInBlock := rd.initialOffset % kBlockSize
  let blockStart := rd.initialOffset - offsetInBlock
  -- Don't search a block if we'd be in the trailer
  let blockStart :=
    if kBlockSize - 6 < offsetInBlock then (blockStart + kBlockSize) % 2^64 else blockStart
  let rd : Reader := { rd with endOfBufferOffset := blockStart }
  if 0 < blockStart then
    if rd.file.broken = true ∨ (rd.file.failsPastEnd = true ∧ rd.file.rest.length < blockStart) then
      (false, rd.reportDrop blockStart "IO error")
    else (true, { rd with file := { rd.file with rest := rd.file.rest.drop blockStart } })
  else (true, rd)

/-! ## `ReadPhysicalRecord` -/

/-- The result of `Reader::ReadPhysicalRecord`. -/
structure PhysicalResult where
  /-- The returned type or code. -/
  type : ℕ
  /-- `*result` -/
  fragment : Slice
  /-- The reader after the call. -/
  reader : Reader

/-- A `char` as an `unsigned int`: negative values wrap around. -/
def charToUnsigned (b : UInt8) : ℕ := if b.toNat < 2^7 then b.toNat else 2^32 - 2^8 + b.toNat

/-- The part of `Reader::ReadPhysicalRecord` that parses the header at the start of the buffer. -/
def Reader.readHeader (rd : Reader) : PhysicalResult :=
  let length := (rd.buffer.getD 4 0).toNat + 2^8 * (rd.buffer.getD 5 0).toNat
  let type := charToUnsigned (rd.buffer.getD 6 0)
  let dropped := { rd with buffer := [] }
  if rd.buffer.length < kHeaderSize + length then
    ⟨kBadRecord, [], dropped.reportCorruption rd.buffer.length "bad record length"⟩
  else if type = RecordType.zero.toNat ∧ length = 0 then
    -- Skip zero length record without reporting any drops
    ⟨kBadRecord, [], dropped⟩
  else if rd.checksum = true ∧ Crc32c.value 0 ((rd.buffer.drop 6).take (1 + length)) ≠
      Crc32c.unmask (decodeFixed32 rd.buffer) then
    ⟨kBadRecord, [], dropped.reportCorruption rd.buffer.length "checksum mismatch"⟩
  else
    let rd' := { rd with buffer := rd.buffer.drop (kHeaderSize + length) }
    -- Skip physical record that started before initial_offset_
    if sub64 (sub64 (sub64 rd'.endOfBufferOffset rd'.buffer.length) kHeaderSize) length <
        rd'.initialOffset then ⟨kBadRecord, [], rd'⟩
    else ⟨type, (rd.buffer.drop kHeaderSize).take length, rd'⟩

/-- The read of the next block. -/
def Reader.readBlock (rd : Reader) : Reader :=
  let block := rd.file.rest.take kBlockSize
  { rd with
    file := { rd.file with rest := rd.file.rest.drop kBlockSize }
    buffer := block
    endOfBufferOffset := rd.endOfBufferOffset + block.length
    eof := decide (block.length < kBlockSize) }

/-- `Reader::ReadPhysicalRecord`. -/
def Reader.readPhysicalRecord (rd : Reader) : PhysicalResult :=
  if rd.buffer.length < kHeaderSize then
    if rd.eof = false then
      -- Last read was a full read, so this is a trailer to skip
      if rd.file.broken then
        ⟨kEof, [], { rd with buffer := [], eof := true }.reportDrop kBlockSize "IO error"⟩
      else rd.readBlock.readPhysicalRecord
    else if rd.buffer.length = 0 then ⟨kEof, [], rd⟩
    else
      ⟨kEof, [], { rd with buffer := [] }.reportCorruption rd.buffer.length
        "truncated record at end of file"⟩
  else rd.readHeader
termination_by if rd.eof then 0 else rd.file.rest.length + 1
decreasing_by
  rename_i heof _
  rw [heof, if_neg Bool.false_ne_true]
  simp only [readBlock, List.length_take, List.length_drop, decide_eq_true_eq]
  split_ifs with hshort
  · omega
  · unfold kBlockSize at hshort ⊢
    omega

/-! ## `ReadRecord` -/

/-- The bytes that a reader has left. -/
def Reader.remaining (rd : Reader) : ℕ := rd.file.rest.length + rd.buffer.length

@[simp] theorem Reader.reportDrop_remaining (rd : Reader) (bytes : ℕ) (reason : String) :
    (rd.reportDrop bytes reason).remaining = rd.remaining := by
  unfold reportDrop
  split_ifs <;> rfl

@[simp] theorem Reader.reportCorruption_remaining (rd : Reader) (bytes : ℕ) (reason : String) :
    (rd.reportCorruption bytes reason).remaining = rd.remaining := rd.reportDrop_remaining _ _

/-- Parsing a header uses up bytes, if there are enough for a header. -/
theorem Reader.readHeader_remaining {rd : Reader} (h : kHeaderSize ≤ rd.buffer.length) :
    rd.readHeader.reader.remaining < rd.remaining := by
  have hpos : 0 < kHeaderSize := by decide
  unfold readHeader
  dsimp only
  split_ifs
  · rw [reportCorruption_remaining]
    dsimp only [remaining, List.length_nil]
    omega
  · dsimp only [remaining, List.length_nil]
    omega
  · rw [reportCorruption_remaining]
    dsimp only [remaining, List.length_nil]
    omega
  · dsimp only [remaining]
    rw [List.length_drop]
    omega
  · dsimp only [remaining]
    rw [List.length_drop]
    omega

/-- A read moves bytes from the file to the buffer, and drops what was left there. -/
theorem Reader.readBlock_remaining (rd : Reader) : rd.readBlock.remaining ≤ rd.remaining := by
  simp only [remaining, readBlock, List.length_drop, List.length_take]
  omega

/-- Every physical record but the end of the file uses up bytes. -/
theorem Reader.readPhysicalRecord_remaining (rd : Reader) :
    rd.readPhysicalRecord.type ≠ kEof →
      rd.readPhysicalRecord.reader.remaining < rd.remaining := by
  induction rd using Reader.readPhysicalRecord.induct with
  | case1 rd hlen heof hbroken =>
    rw [readPhysicalRecord, if_pos hlen, if_pos heof, if_pos hbroken]
    exact fun h => absurd rfl h
  | case2 rd hlen heof hbroken ih =>
    rw [readPhysicalRecord, if_pos hlen, if_pos heof, if_neg hbroken]
    exact fun h => (ih h).trans_le rd.readBlock_remaining
  | case3 rd hlen heof hempty =>
    rw [readPhysicalRecord, if_pos hlen, if_neg heof, if_pos hempty]
    exact fun h => absurd rfl h
  | case4 rd hlen heof hempty =>
    rw [readPhysicalRecord, if_pos hlen, if_neg heof, if_neg hempty]
    exact fun h => absurd rfl h
  | case5 rd hlen =>
    rw [readPhysicalRecord, if_neg hlen]
    exact fun _ => readHeader_remaining (not_lt.mp hlen)

/-- The state of the loop of `Reader::ReadRecord`. -/
structure RecordState where
  /-- `*scratch` -/
  scratch : Slice := []
  /-- `in_fragmented_record` -/
  inFragmentedRecord : Bool := false
  /-- `prospective_record_offset` -/
  prospectiveRecordOffset : ℕ := 0

/-- The report of `ReadRecord` when a record starts inside another one. An empty first fragment at
the end of a block is not reported: earlier writers could emit it. -/
def Reader.reportPartial (rd : Reader) (st : RecordState) (reason : String) : Reader :=
  if st.inFragmentedRecord && !st.scratch.isEmpty then
    rd.reportCorruption st.scratch.length reason
  else rd

@[simp] theorem Reader.reportPartial_remaining (rd : Reader) (st : RecordState) (reason : String) :
    (rd.reportPartial st reason).remaining = rd.remaining := by
  unfold reportPartial
  split_ifs
  · rw [reportCorruption_remaining]
  · rfl

/-- The loop of `Reader::ReadRecord`: a record, or `none` at the end of the file. -/
def Reader.readLoop (rd : Reader) (st : RecordState) : Option Slice × Reader :=
  let physicalRecordOffset := sub64 rd.endOfBufferOffset rd.buffer.length
  let r := rd.readPhysicalRecord
  if r.type = RecordType.full.toNat then
    let rd := r.reader.reportPartial st "partial record without end(1)"
    (some r.fragment, { rd with lastRecordOffset := physicalRecordOffset })
  else if r.type = RecordType.first.toNat then
    (r.reader.reportPartial st "partial record without end(2)").readLoop
      { scratch := r.fragment
        inFragmentedRecord := true
        prospectiveRecordOffset := physicalRecordOffset }
  else if r.type = RecordType.middle.toNat then
    if st.inFragmentedRecord then
      r.reader.readLoop { st with scratch := st.scratch ++ r.fragment }
    else
      (r.reader.reportCorruption r.fragment.length
        "missing start of fragmented record(1)").readLoop st
  else if r.type = RecordType.last.toNat then
    if st.inFragmentedRecord then
      (some (st.scratch ++ r.fragment),
        { r.reader with lastRecordOffset := st.prospectiveRecordOffset })
    else
      (r.reader.reportCorruption r.fragment.length
        "missing start of fragmented record(2)").readLoop st
  else if r.type = kEof then
    if st.inFragmentedRecord then
      (none, r.reader.reportCorruption st.scratch.length "partial record without end(3)")
    else (none, r.reader)
  else if r.type = kBadRecord then
    if st.inFragmentedRecord then
      (r.reader.reportCorruption st.scratch.length "error in middle of record").readLoop
        { st with scratch := [], inFragmentedRecord := false }
    else r.reader.readLoop st
  else
    (r.reader.reportCorruption
      (r.fragment.length + if st.inFragmentedRecord then st.scratch.length else 0)
      ("unknown record type " ++ toString r.type)).readLoop
        { st with scratch := [], inFragmentedRecord := false }
termination_by rd.remaining
decreasing_by
  all_goals
    have hne : r.type ≠ kEof := by
      intro heof
      simp_all [RecordType.toNat, kEof, kBadRecord, kMaxRecordType]
    have hlt := rd.readPhysicalRecord_remaining hne
    simpa using hlt

/-- `Reader::ReadRecord`. -/
def Reader.readRecord (rd : Reader) : Option Slice × Reader :=
  if rd.lastRecordOffset < rd.initialOffset then
    let r := rd.skipToInitialBlock
    if r.1 then r.2.readLoop {} else (none, r.2)
  else rd.readLoop {}

end LevelDb.Log
