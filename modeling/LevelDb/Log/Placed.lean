import LevelDb.Log.Damage
import LevelDb.Log.Checksum

/-!
# Where the reader stands

`Reader.Stands` adds to `Reader.At` the position in the file: the reader keeps it as the end of its
buffer and the length of what is left there, and compares it with the initial offset. One call of
`ReadPhysicalRecord` is described for a physical record with any type byte (`RawRecord`), since the type
byte of a log need not be one that a writer writes; the loop of `ReadRecord` then returns a record that
lies behind the initial offset (`Fragments.readLoop_placed`), with the position at which it stood before
it as the offset of the record, and passes over one that starts before it
(`Fragments.readLoop_passed`).
-/

namespace LevelDb.Log

/-! ## Physical records with any type byte -/

/-- A physical record with any type byte. -/
structure RawRecord where
  /-- The type byte. -/
  type : UInt8
  /-- The bytes of the fragment. -/
  payload : Slice

/-- The bytes of a physical record. -/
def RawRecord.encode (r : RawRecord) : Slice :=
  encodeFixed32 (Crc32c.mask (Crc32c.value 0 (r.type :: r.payload))) ++
    ([UInt8.ofNat r.payload.length, UInt8.ofNat (r.payload.length / 2^8), r.type] ++ r.payload)

/-- A physical record that a writer writes. -/
def PhysicalRecord.raw (p : PhysicalRecord) : RawRecord := ⟨UInt8.ofNat p.type.toNat, p.payload⟩

/-- Both forms of a physical record have the same bytes. -/
theorem PhysicalRecord.raw_encode (p : PhysicalRecord) : p.raw.encode = p.encode := by
  unfold RawRecord.encode PhysicalRecord.encode header raw
  dsimp only
  rw [← Crc32c.extend_typeCrc 0 0, List.append_assoc]

/-- A physical record with any type byte takes its header and its payload. -/
@[simp] theorem RawRecord.encode_length (r : RawRecord) :
    r.encode.length = kHeaderSize + r.payload.length := by
  unfold encode kHeaderSize
  rw [List.length_append, encodeFixed32_length, List.length_append, List.length_cons, List.length_cons,
    List.length_singleton]
  omega

/-! ## One physical record -/

/-- The reader stands at a position of the file, which is at an offset of a block, with the bytes `rest`
before it and the initial offset `o`. Positions are 64-bit words. -/
structure Reader.Stands (rd : Reader) (rest : Slice) (offset pos o : ℕ) : Prop where
  /-- What the block has left. -/
  buffer : rd.buffer = rest.take (kBlockSize - offset)
  /-- The blocks after it. -/
  file : rd.file.rest = rest.drop (kBlockSize - offset)
  /-- Whether the block is the last one. -/
  eof : rd.eof = decide (rest.length < kBlockSize - offset)
  /-- The offset lies in the block. -/
  le : offset ≤ kBlockSize
  /-- The file can be read. -/
  unbroken : rd.file.broken = false
  /-- The initial offset. -/
  initial : rd.initialOffset = o
  /-- The buffer ends where its bytes lead. -/
  behind : rd.endOfBufferOffset = pos + rd.buffer.length
  /-- The file ends at a position. -/
  bounded : pos + rest.length < 2^64

/-- Nothing is reported or returned on the way from one reader to another. -/
structure Reader.Quiet (rd rd' : Reader) : Prop where
  /-- Nothing is reported. -/
  reports : rd'.reports = rd.reports
  /-- No record is returned. -/
  lastRecordOffset : rd'.lastRecordOffset = rd.lastRecordOffset

/-- What is done without a report, twice, is done without a report. -/
theorem Reader.Quiet.trans {rd rd' rd'' : Reader} (h : rd.Quiet rd') (h' : rd'.Quiet rd'') :
    rd.Quiet rd'' :=
  ⟨h'.reports.trans h.reports, h'.lastRecordOffset.trans h.lastRecordOffset⟩

/-- A `uint64_t` is the difference of its sum with another number and this number, also when the sum
wraps. -/
theorem sub64_add {a : ℕ} (b : ℕ) (h : a < 2^64) : sub64 (a + b) b = a := by
  unfold sub64
  omega

section

variable {rd : Reader} {rest : Slice} {offset pos o : ℕ}

/-- What the reader takes for its position is its position. -/
theorem Reader.Stands.position (h : rd.Stands rest offset pos o) :
    sub64 rd.endOfBufferOffset rd.buffer.length = pos := by
  have hbound := h.bounded
  rw [h.behind]
  exact sub64_add _ (by omega)

/-- Where a reader stands does not depend on its reports and on the last record. -/
theorem Reader.Stands.congr (h : rd.Stands rest offset pos o) {rd' : Reader} (heq : rd'.input = rd.input) :
    rd'.Stands rest offset pos o := by
  have hbuffer : rd'.buffer = rd.buffer := show rd'.input.buffer = rd.input.buffer by rw [heq]
  have hfile : rd'.file = rd.file := show rd'.input.file = rd.input.file by rw [heq]
  have heof : rd'.eof = rd.eof := show rd'.input.eof = rd.input.eof by rw [heq]
  have hend : rd'.endOfBufferOffset = rd.endOfBufferOffset :=
    show rd'.input.endOfBufferOffset = rd.input.endOfBufferOffset by rw [heq]
  have hinit : rd'.initialOffset = rd.initialOffset :=
    show rd'.input.initialOffset = rd.input.initialOffset by rw [heq]
  exact ⟨by rw [hbuffer, h.buffer], by rw [hfile, h.file], by rw [heof, h.eof], h.le,
    by rw [hfile, h.unbroken], by rw [hinit, h.initial], by rw [hend, hbuffer, h.behind], h.bounded⟩

/-- `ReadPhysicalRecord` skips the trailer of a block without a report, and reads what follows at the
start of the next one. -/
theorem Reader.Stands.skip_trailer (h : rd.Stands (trailer offset ++ rest) offset pos o) :
    ∃ rd' : Reader, rd'.Stands rest (recordStart offset) (pos + (trailer offset).length) o ∧
      rd.Quiet rd' ∧ rd.readPhysicalRecord = rd'.readPhysicalRecord := by
  have hbound := h.bounded
  rw [List.length_append] at hbound
  by_cases hfull : kBlockSize - offset < kHeaderSize
  · have htrailer : trailer offset = List.replicate (kBlockSize - offset) 0 := if_pos hfull
    have hstart : recordStart offset = 0 := if_pos hfull
    have hlen : (trailer offset).length = kBlockSize - offset := by
      rw [htrailer, List.length_replicate]
    have hbuf : rd.buffer.length = kBlockSize - offset := by
      rw [h.buffer, List.take_left' hlen, hlen]
    have hfile : rd.file.rest = rest := by rw [h.file, List.drop_left' hlen]
    have heof : rd.eof = false := by
      rw [h.eof, List.length_append]
      exact decide_eq_false (by omega)
    -- What is left of the block is too short for a header, so the next block is read.
    refine ⟨rd.readBlock, ⟨?_, ?_, ?_, ?_, h.unbroken, h.initial, ?_, by omega⟩, ⟨rfl, rfl⟩, ?_⟩
    · rw [hstart, Nat.sub_zero, ← hfile]
      rfl
    · rw [hstart, Nat.sub_zero, ← hfile]
      rfl
    · rw [hstart, Nat.sub_zero, ← hfile]
      refine decide_eq_decide.mpr ?_
      rw [List.length_take]
      omega
    · rw [hstart]
      exact Nat.zero_le _
    · show rd.endOfBufferOffset + rd.readBlock.buffer.length = _
      rw [h.behind, hbuf, hlen]
    · rw [readPhysicalRecord, if_pos (by omega), if_pos heof, if_neg (by rw [h.unbroken]; simp)]
  · have htrailer : trailer offset = [] := if_neg hfull
    have hstart : recordStart offset = offset := if_neg hfull
    rw [htrailer, List.nil_append] at h
    rw [htrailer, hstart, List.length_nil, Nat.add_zero]
    exact ⟨rd, h, ⟨rfl, rfl⟩, rfl⟩

/-- A reader at the end of a block goes on like one at the start of the next block. -/
theorem Reader.Stands.next_block (h : rd.Stands rest kBlockSize pos o) :
    ∃ rd' : Reader, rd'.Stands rest 0 pos o ∧ rd.Quiet rd' ∧ ∀ st, rd.readLoop st = rd'.readLoop st := by
  have htrailer : trailer kBlockSize = [] := rfl
  rw [← List.nil_append rest, ← htrailer] at h
  obtain ⟨rd', h', hquiet, hskip⟩ := h.skip_trailer
  rw [htrailer, List.length_nil, Nat.add_zero] at h'
  refine ⟨rd', h', hquiet, fun st => ?_⟩
  conv_lhs => rw [readLoop, hskip, h.position]
  conv_rhs => rw [readLoop, h'.position]

end

/-- Only a zero byte is the reserved type. -/
theorem charToUnsigned_eq_zero_iff (b : UInt8) : charToUnsigned b = RecordType.zero.toNat ↔ b = 0 := by
  have hall : ∀ n : Fin 256, charToUnsigned (UInt8.ofNat n.val) = RecordType.zero.toNat ↔
      UInt8.ofNat n.val = 0 := by decide +kernel
  have h := hall ⟨b.toNat, b.toNat_lt⟩
  rwa [UInt8.ofNat_toNat] at h

/-- The header of a physical record at the start of the buffer is accepted, and the record is returned
unless it starts before the initial offset. -/
theorem Reader.readHeader_raw {rd : Reader} {r : RawRecord} {rest : Slice} {start : ℕ}
    (hbuf : rd.buffer = r.encode ++ rest) (hlen : r.payload.length < 2^16) (htype : r.type ≠ 0)
    (hend : rd.endOfBufferOffset = start + rd.buffer.length) (hbound : rd.endOfBufferOffset < 2^64) :
    rd.readHeader = if start < rd.initialOffset then ⟨kBadRecord, [], { rd with buffer := rest }⟩
      else ⟨charToUnsigned r.type, r.payload, { rd with buffer := rest }⟩ := by
  have hbuflen : rd.buffer.length = kHeaderSize + r.payload.length + rest.length := by
    rw [hbuf, List.length_append, RawRecord.encode_length]
  have hdrop : rd.buffer.drop (kHeaderSize + r.payload.length) = rest := by
    rw [hbuf, List.drop_left' r.encode_length]
  -- The bytes of the header, one by one.
  obtain ⟨b0, b1, b2, b3, hbytes, hcrc⟩ : ∃ b0 b1 b2 b3,
      rd.buffer = b0 :: b1 :: b2 :: b3 :: UInt8.ofNat r.payload.length ::
        UInt8.ofNat (r.payload.length / 2^8) :: r.type :: (r.payload ++ rest) ∧
      decodeFixed32 rd.buffer = Crc32c.mask (Crc32c.value 0 (r.type :: r.payload)) := by
    refine ⟨_, _, _, _, hbuf, ?_⟩
    rw [hbuf, RawRecord.encode, List.append_assoc]
    exact decodeFixed32_encodeFixed32 (Crc32c.mask_lt _) _
  have hlength : (rd.buffer.getD 4 0).toNat + 2^8 * (rd.buffer.getD 5 0).toNat = r.payload.length := by
    rw [hbytes]
    simp only [List.getD_cons_succ, List.getD_cons_zero, UInt8.toNat_ofNat']
    omega
  have ht : rd.buffer.getD 6 0 = r.type := by
    rw [hbytes]
    rfl
  have hsum : Crc32c.value 0 ((rd.buffer.drop 6).take (1 + r.payload.length)) =
      Crc32c.unmask (decodeFixed32 rd.buffer) := by
    have hvalue : Crc32c.value 0 (r.type :: r.payload) < 2^32 := Crc32c.extend_lt (by decide) 0 _
    have htake : (r.type :: (r.payload ++ rest)).take (1 + r.payload.length) = r.type :: r.payload := by
      rw [Nat.add_comm, List.take_succ_cons, List.take_left]
    rw [hcrc, Crc32c.unmask_mask hvalue, hbytes]
    show Crc32c.value 0 ((r.type :: (r.payload ++ rest)).take (1 + r.payload.length)) = _
    rw [htake]
  have hpayload : (rd.buffer.drop kHeaderSize).take r.payload.length = r.payload := by
    rw [hbytes]
    show (r.payload ++ rest).take r.payload.length = r.payload
    rw [List.take_left]
  have hstart : sub64 (sub64 (sub64 rd.endOfBufferOffset rest.length) kHeaderSize) r.payload.length =
      start := by
    rw [hend, hbuflen, show start + (kHeaderSize + r.payload.length + rest.length) =
      start + r.payload.length + kHeaderSize + rest.length by omega, sub64_add _ (by omega),
      sub64_add _ (by omega), sub64_add _ (by omega)]
  unfold readHeader
  dsimp only
  rw [hlength, ht, if_neg (by omega),
    if_neg (fun h => htype ((charToUnsigned_eq_zero_iff r.type).mp h.1)), if_neg (fun h => h.2 hsum),
    hdrop, hpayload, hstart]

/-- `ReadPhysicalRecord` reads a physical record that fits in its block, with the trailer before it. It
is a bad record if it starts before the initial offset. -/
theorem Reader.Stands.readPhysicalRecord {rd : Reader} {r : RawRecord} {rest : Slice} {offset pos o : ℕ}
    (h : rd.Stands (trailer offset ++ (r.encode ++ rest)) offset pos o)
    (hfit : recordStart offset + kHeaderSize + r.payload.length ≤ kBlockSize) (htype : r.type ≠ 0) :
    ∃ rd' : Reader, (rd.readPhysicalRecord = if pos + (trailer offset).length < o then
        ⟨kBadRecord, [], rd'⟩ else ⟨charToUnsigned r.type, r.payload, rd'⟩) ∧
      rd'.Stands rest (recordStart offset + kHeaderSize + r.payload.length)
        (pos + (trailer offset).length + r.encode.length) o ∧ rd.Quiet rd' := by
  obtain ⟨rd₁, h₁, hquiet, hskip⟩ := h.skip_trailer
  set start := pos + (trailer offset).length
  have hsize : kBlockSize - recordStart offset =
      r.encode.length + (kBlockSize - (recordStart offset + kHeaderSize + r.payload.length)) := by
    rw [RawRecord.encode_length]
    omega
  have hbuf : rd₁.buffer = r.encode ++
      rest.take (kBlockSize - (recordStart offset + kHeaderSize + r.payload.length)) := by
    rw [h₁.buffer, hsize, List.take_length_add_append]
  have hroom : ¬rd₁.buffer.length < kHeaderSize := by
    rw [hbuf, List.length_append, RawRecord.encode_length]
    omega
  have hshort : r.payload.length < 2^16 := by
    unfold kBlockSize at hfit
    omega
  have hbound := h₁.bounded
  rw [List.length_append] at hbound
  have hbehind : rd₁.endOfBufferOffset < 2^64 := by
    rw [h₁.behind, hbuf, List.length_append, List.length_take]
    omega
  refine ⟨{ rd₁ with
      buffer := rest.take (kBlockSize - (recordStart offset + kHeaderSize + r.payload.length)) },
    ?_, ⟨rfl, ?_, ?_, hfit, h₁.unbroken, h₁.initial, ?_, by omega⟩, ⟨hquiet.reports, hquiet.lastRecordOffset⟩⟩
  · rw [hskip, Reader.readPhysicalRecord, if_neg hroom,
      readHeader_raw hbuf hshort htype h₁.behind hbehind, h₁.initial]
  · show rd₁.file.rest = _
    rw [h₁.file, hsize, List.drop_length_add_append]
  · show rd₁.eof = _
    rw [h₁.eof, List.length_append]
    refine decide_eq_decide.mpr ?_
    omega
  · show rd₁.endOfBufferOffset = _
    rw [h₁.behind, hbuf, List.length_append]
    dsimp only
    omega

/-- `ReadPhysicalRecord` finds no physical record at the end of the file. -/
theorem Reader.Stands.readPhysicalRecord_end {rd : Reader} {offset pos o : ℕ}
    (h : rd.Stands [] offset pos o) :
    ∃ rd' : Reader, rd.readPhysicalRecord = ⟨kEof, [], rd'⟩ ∧ rd.Quiet rd' := by
  have hbuf : rd.buffer.length = 0 := by rw [h.buffer, List.take_nil, List.length_nil]
  have hlen : rd.buffer.length < kHeaderSize := by
    rw [hbuf]
    decide
  cases heof : rd.eof with
  | true =>
    refine ⟨rd, ?_, ⟨rfl, rfl⟩⟩
    rw [Reader.readPhysicalRecord, if_pos hlen, if_neg (by rw [heof]; simp), if_pos hbuf]
  | false =>
    -- The block before was full, so that one more block is read, which is empty.
    have hfile : rd.file.rest = [] := by rw [h.file, List.drop_nil]
    have hbuf' : rd.readBlock.buffer.length = 0 := by
      show (rd.file.rest.take kBlockSize).length = 0
      rw [hfile, List.take_nil, List.length_nil]
    have heof' : rd.readBlock.eof = true := by
      show decide ((rd.file.rest.take kBlockSize).length < kBlockSize) = true
      rw [hfile]
      decide
    refine ⟨rd.readBlock, ?_, ⟨rfl, rfl⟩⟩
    rw [Reader.readPhysicalRecord, if_pos hlen, if_pos heof, if_neg (by rw [h.unbroken]; simp),
      Reader.readPhysicalRecord, if_pos (by rw [hbuf']; decide), if_neg (by rw [heof']; simp),
      if_pos hbuf']

/-- `ReadPhysicalRecord` at a physical record that a writer wrote. -/
theorem Reader.Stands.readFragment {rd : Reader} {p : PhysicalRecord} {ps : List PhysicalRecord}
    {rest : Slice} {offset pos o : ℕ} (h : rd.Stands (encodeAll offset (p :: ps) ++ rest) offset pos o)
    (hfit : recordEnd offset p ≤ kBlockSize) (htype : p.type ≠ .zero) :
    ∃ rd' : Reader, (rd.readPhysicalRecord = if pos + (trailer offset).length < o then
        ⟨kBadRecord, [], rd'⟩ else ⟨p.type.toNat, p.payload, rd'⟩) ∧
      rd'.Stands (encodeAll (recordEnd offset p) ps ++ rest) (recordEnd offset p)
        (pos + (trailer offset).length + p.encode.length) o ∧ rd.Quiet rd' := by
  rw [encodeAll, List.append_assoc, List.append_assoc, ← p.raw_encode] at h
  have hbyte : p.raw.type ≠ 0 := by
    show UInt8.ofNat p.type.toNat ≠ 0
    cases hp : p.type
    · exact absurd hp htype
    all_goals decide
  have hread := h.readPhysicalRecord hfit hbyte
  rw [p.raw_encode, show charToUnsigned p.raw.type = p.type.toNat from charToUnsigned_type p.type] at hread
  exact hread

/-! ## One record -/

section

variable {rd rd' : Reader} {st : RecordState} {fragment : Slice}

/-- A fragment in the middle or at the end of a record whose start was not read. -/
theorem Reader.readLoop_missing {isEnd : Bool}
    (h : rd.readPhysicalRecord = ⟨(fragmentType false isEnd).toNat, fragment, rd'⟩)
    (hst : st.inFragmentedRecord = false) :
    ∃ reason, rd.readLoop st = (rd'.reportCorruption fragment.length reason).readLoop st := by
  cases isEnd with
  | false =>
    refine ⟨"missing start of fragmented record(1)", ?_⟩
    rw [readLoop, h]
    dsimp only
    rw [if_neg (by decide), if_neg (by decide), if_pos (by decide), if_neg (by rw [hst]; simp)]
  | true =>
    refine ⟨"missing start of fragmented record(2)", ?_⟩
    rw [readLoop, h]
    dsimp only
    rw [if_neg (by decide), if_neg (by decide), if_neg (by decide), if_pos (by decide),
      if_neg (by rw [hst]; simp)]

end

/-- Bytes that lie behind the initial offset are reported. -/
theorem Reader.Stands.reportCorruption_eq {rd : Reader} {rest : Slice} {offset pos o bytes : ℕ}
    (h : rd.Stands rest offset pos o) (hle : o + bytes ≤ pos) (reason : String) :
    rd.reportCorruption bytes reason =
      { rd with reports := rd.reports ++ [(bytes, "Corruption: " ++ reason)] } := by
  have hbound := h.bounded
  have hsub : sub64 pos bytes = pos - bytes := by
    have hadd := sub64_add (a := pos - bytes) bytes (by omega)
    rwa [Nat.sub_add_cancel (by omega)] at hadd
  unfold reportCorruption reportDrop
  rw [h.position, h.initial, hsub, if_pos (by omega)]

/-- The loop of `ReadRecord` passes over a fragment that starts before the initial offset, or whose
record does. It reports the fragment if that one starts behind the initial offset. -/
theorem Reader.Stands.readLoop_pass {rd : Reader} {isBegin isEnd : Bool} {payload rest : Slice}
    {ps : List PhysicalRecord} {offset pos o : ℕ} {st : RecordState}
    (h : rd.Stands (encodeAll offset (⟨fragmentType isBegin isEnd, payload⟩ :: ps) ++ rest) offset pos o)
    (hfit : recordStart offset + kHeaderSize + payload.length ≤ kBlockSize)
    (hbefore : isBegin = true → pos + (trailer offset).length < o)
    (hst : st.inFragmentedRecord = false) :
    ∃ rd' : Reader, rd.readLoop st = rd'.readLoop st ∧
      rd'.Stands (encodeAll (recordEnd offset ⟨fragmentType isBegin isEnd, payload⟩) ps ++ rest)
        (recordEnd offset ⟨fragmentType isBegin isEnd, payload⟩)
        (pos + (trailer offset).length + (kHeaderSize + payload.length)) o ∧
      Reports (o ≤ pos + (trailer offset).length) rd rd' ∧
      rd'.lastRecordOffset = rd.lastRecordOffset := by
  obtain ⟨rd₁, hread, h₁, hquiet⟩ := h.readFragment hfit (fragmentType_ne_zero _ _)
  rw [PhysicalRecord.encode_length] at h₁
  by_cases hstart : pos + (trailer offset).length < o
  · rw [if_pos hstart] at hread
    exact ⟨rd₁, readLoop_bad hread hst, h₁, .of_eq hquiet.reports (by omega), hquiet.lastRecordOffset⟩
  · rw [if_neg hstart] at hread
    obtain rfl : isBegin = false := by
      cases isBegin with
      | true => exact absurd (hbefore rfl) hstart
      | false => rfl
    obtain ⟨reason, hloop⟩ := readLoop_missing hread hst
    dsimp only at hloop h₁
    rw [h₁.reportCorruption_eq (by omega)] at hloop
    exact ⟨_, hloop, h₁.congr rfl, .of_append (by rw [hquiet.reports]) (by omega), hquiet.lastRecordOffset⟩

/-- The loop of `ReadRecord` passes over a record that starts before the initial offset, or over the
rest of one, and reports it if one of its fragments starts behind the initial offset. -/
theorem Fragments.readLoop_passed {offset o : ℕ} {isBegin : Bool} {data : Slice}
    {ps : List PhysicalRecord} (h : Fragments offset isBegin data ps) :
    ∀ (rd : Reader) (rest : Slice) (st : RecordState) (pos : ℕ),
    rd.Stands (encodeAll offset ps ++ rest) offset pos o →
    (isBegin = true → pos + (trailer offset).length < o) → st.inFragmentedRecord = false →
    ∃ rd' : Reader, rd.readLoop st = rd'.readLoop st ∧
      rd'.Stands rest (endAll offset ps) (pos + (encodeAll offset ps).length) o ∧
      Reports (∃ start ∈ starts pos offset ps, o ≤ start) rd rd' ∧
      rd'.lastRecordOffset = rd.lastRecordOffset := by
  induction h with
  | @final offset isBegin payload hfit =>
    intro rd rest st pos hat hbefore hst
    obtain ⟨rd₁, hloop, h₁, hrep, hlast⟩ := hat.readLoop_pass hfit hbefore hst
    refine ⟨rd₁, hloop, ?_, hrep.congr ?_, hlast⟩
    · rw [encodeAll, encodeAll, List.append_nil, List.length_append, PhysicalRecord.encode_length,
        ← Nat.add_assoc]
      exact h₁
    · simp [starts]
  | @more offset isBegin payload data ps hfit hrest ih =>
    intro rd rest st pos hat hbefore hst
    obtain ⟨rd₁, hloop, h₁, hrep, hlast⟩ := hat.readLoop_pass hfit hbefore hst
    obtain ⟨rd₂, hloop', h₂, hrep', hlast'⟩ :=
      ih rd₁ rest st _ h₁ (fun hfalse => absurd hfalse Bool.false_ne_true) hst
    refine ⟨rd₂, hloop.trans hloop', ?_, hrep.trans hrep' ?_, hlast'.trans hlast⟩
    · rw [encodeAll, List.length_append, List.length_append, PhysicalRecord.encode_length]
      have hpos : pos + ((trailer offset).length + (kHeaderSize + payload.length) +
          (encodeAll (recordEnd offset ⟨fragmentType isBegin false, payload⟩) ps).length) =
          pos + (trailer offset).length + (kHeaderSize + payload.length) +
          (encodeAll (recordEnd offset ⟨fragmentType isBegin false, payload⟩) ps).length := by omega
      rw [hpos]
      exact h₂
    · rw [starts, List.exists_mem_cons_iff, PhysicalRecord.encode_length]
      rfl

/-- The loop of `ReadRecord` puts the fragments of a record together that lies behind the initial
offset. What it keeps as the offset of the record is where the reader stood before it. -/
theorem Fragments.readLoop_placed {offset o : ℕ} {isBegin : Bool} {data : Slice}
    {ps : List PhysicalRecord} (h : Fragments offset isBegin data ps) :
    ∀ (rd : Reader) (rest : Slice) (st : RecordState) (pos : ℕ),
    rd.Stands (encodeAll offset ps ++ rest) offset pos o → o ≤ pos + (trailer offset).length →
    st.inFragmentedRecord = !isBegin →
    ∃ rd' : Reader, rd.readLoop st = (some (if isBegin then data else st.scratch ++ data), rd') ∧
      rd'.Stands rest (endAll offset ps) (pos + (encodeAll offset ps).length) o ∧
      rd'.reports = rd.reports ∧
      rd'.lastRecordOffset = if isBegin then pos else st.prospectiveRecordOffset := by
  induction h with
  -- The last fragment ends the record, the other ones go to the scratch.
  | @final offset isBegin payload hfit =>
    intro rd rest st pos hat hbehind hst
    obtain ⟨rd₁, hread, h₁, hquiet⟩ := hat.readFragment hfit (fragmentType_ne_zero _ _)
    rw [if_neg (Nat.not_lt.mpr hbehind)] at hread
    have hpos : pos + (encodeAll offset [⟨fragmentType isBegin true, payload⟩]).length =
        pos + (trailer offset).length +
          (PhysicalRecord.encode ⟨fragmentType isBegin true, payload⟩).length := by
      rw [encodeAll, encodeAll, List.append_nil, List.length_append, ← Nat.add_assoc]
    rw [hpos]
    cases isBegin with
    | true =>
      rw [Reader.readLoop_full hread hst, hat.position]
      exact ⟨_, rfl, h₁.congr rfl, hquiet.reports, rfl⟩
    | false =>
      rw [Reader.readLoop_last hread hst]
      exact ⟨_, rfl, h₁.congr rfl, hquiet.reports, rfl⟩
  | @more offset isBegin payload data ps hfit hrest ih =>
    intro rd rest st pos hat hbehind hst
    obtain ⟨rd₁, hread, h₁, hquiet⟩ := hat.readFragment hfit (fragmentType_ne_zero _ _)
    rw [if_neg (Nat.not_lt.mpr hbehind)] at hread
    have hpos : pos + (encodeAll offset (⟨fragmentType isBegin false, payload⟩ :: ps)).length =
        pos + (trailer offset).length +
          (PhysicalRecord.encode ⟨fragmentType isBegin false, payload⟩).length +
          (encodeAll (recordEnd offset ⟨fragmentType isBegin false, payload⟩) ps).length := by
      rw [encodeAll, List.length_append, List.length_append]
      omega
    rw [hpos]
    cases isBegin with
    | true =>
      rw [Reader.readLoop_first hread hst, hat.position]
      obtain ⟨rd₂, hloop, h₂, hrep, hlast⟩ := ih rd₁ rest ⟨payload, true, pos⟩ _ h₁ (by omega) rfl
      exact ⟨rd₂, hloop, h₂, hrep.trans hquiet.reports, hlast⟩
    | false =>
      rw [Reader.readLoop_middle hread hst]
      obtain ⟨rd₂, hloop, h₂, hrep, hlast⟩ :=
        ih rd₁ rest { st with scratch := st.scratch ++ payload } _ h₁ (by omega) hst
      refine ⟨rd₂, ?_, h₂, hrep.trans hquiet.reports, hlast⟩
      rw [hloop, if_neg Bool.false_ne_true, if_neg Bool.false_ne_true, List.append_assoc]

end LevelDb.Log
