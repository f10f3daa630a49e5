import LevelDb.Log.Reader

/-!
# What is written is read back

Between the bytes of a log and its records lie the physical records: `encodeAll` lays out a list of
physical records from an offset in a block on, with the trailers between them, and `Fragments` says
which physical records make up a record. The writer produces such a layout, the reader takes it
apart again, and both move through the offsets of the block in step (`Reader.At`).
-/

namespace LevelDb.Log

/-! ## Physical records -/

/-- A physical record: a fragment of a record with its type. -/
structure PhysicalRecord where
  /-- The type of the fragment. -/
  type : RecordType
  /-- The bytes of the fragment. -/
  payload : Slice

/-- The bytes of a physical record. -/
def PhysicalRecord.encode (p : PhysicalRecord) : Slice := header p.type p.payload ++ p.payload

/-- Where the next physical record starts: at the offset, or in the next block when there is no room
for a header. -/
def recordStart (offset : ℕ) : ℕ := if kBlockSize - offset < kHeaderSize then 0 else offset

/-- The zeros that fill a block without room for a header. -/
def trailer (offset : ℕ) : Slice :=
  if kBlockSize - offset < kHeaderSize then List.replicate (kBlockSize - offset) 0 else []

/-- The offset after a physical record. -/
def recordEnd (offset : ℕ) (p : PhysicalRecord) : ℕ :=
  recordStart offset + kHeaderSize + p.payload.length

/-- The bytes of physical records from an offset on. -/
def encodeAll : ℕ → List PhysicalRecord → Slice
  | _, [] => []
  | offset, p :: ps => trailer offset ++ p.encode ++ encodeAll (recordEnd offset p) ps

/-- The offset after physical records. -/
def endAll (offset : ℕ) (ps : List PhysicalRecord) : ℕ := ps.foldl recordEnd offset

/-- The physical records that make up a record, or the rest of one when `isBegin` is `false`. Each
fits in its block. -/
inductive Fragments : ℕ → Bool → Slice → List PhysicalRecord → Prop
  /-- The record ends with this fragment. -/
  | final {offset : ℕ} {isBegin : Bool} {payload : Slice}
      (hfit : recordStart offset + kHeaderSize + payload.length ≤ kBlockSize) :
      Fragments offset isBegin payload [⟨fragmentType isBegin true, payload⟩]
  /-- More fragments follow. -/
  | more {offset : ℕ} {isBegin : Bool} {payload rest : Slice} {ps : List PhysicalRecord}
      (hfit : recordStart offset + kHeaderSize + payload.length ≤ kBlockSize)
      (hrest : Fragments (recordStart offset + kHeaderSize + payload.length) false rest ps) :
      Fragments offset isBegin (payload ++ rest) (⟨fragmentType isBegin false, payload⟩ :: ps)

/-- The header of a physical record has seven bytes, whatever type and payload are. -/
@[simp] theorem header_length (t : RecordType) (payload : Slice) :
    (header t payload).length = kHeaderSize := rfl

/-- A physical record takes the bytes of its header and of its payload. -/
@[simp] theorem PhysicalRecord.encode_length (p : PhysicalRecord) :
    p.encode.length = kHeaderSize + p.payload.length := by
  rw [encode, List.length_append, header_length]

/-- After a trailer there is room for a header. -/
theorem recordStart_room (offset : ℕ) : kHeaderSize ≤ kBlockSize - recordStart offset := by
  unfold recordStart
  split_ifs with h
  · decide
  · omega

/-- The layout of two lists of physical records. -/
theorem encodeAll_append : ∀ (ps qs : List PhysicalRecord) (offset : ℕ),
    encodeAll offset (ps ++ qs) = encodeAll offset ps ++ encodeAll (endAll offset ps) qs
  | [], qs, offset => rfl
  | p :: ps, qs, offset => by
    rw [List.cons_append, encodeAll, encodeAll, encodeAll_append ps qs, endAll, endAll,
      List.foldl_cons, List.append_assoc, List.append_assoc, List.append_assoc]

/-- A trailer leads to where the next physical record starts. -/
theorem trailer_length_mod {offset : ℕ} (h : offset ≤ kBlockSize) :
    (offset + (trailer offset).length) % kBlockSize = recordStart offset % kBlockSize := by
  unfold trailer recordStart
  split_ifs with hfull
  · rw [List.length_replicate, Nat.add_sub_cancel' h, Nat.mod_self, Nat.zero_mod]
  · rw [List.length_nil, Nat.add_zero]

/-- The fragments of a record end in the block that their bytes have reached. -/
theorem Fragments.length_mod {offset : ℕ} {isBegin : Bool} {data : Slice}
    {ps : List PhysicalRecord} (h : Fragments offset isBegin data ps) : offset ≤ kBlockSize →
    (offset + (encodeAll offset ps).length) % kBlockSize = endAll offset ps % kBlockSize ∧
      endAll offset ps ≤ kBlockSize := by
  induction h with
  | @final offset isBegin payload hfit =>
    intro hle
    refine ⟨?_, hfit⟩
    rw [encodeAll, encodeAll, List.append_nil, List.length_append, ← Nat.add_assoc, Nat.add_mod,
      trailer_length_mod hle, ← Nat.add_mod, PhysicalRecord.encode_length, endAll, List.foldl_cons,
      List.foldl_nil, recordEnd, Nat.add_assoc]
  | @more offset isBegin payload rest ps hfit hrest ih =>
    intro hle
    obtain ⟨hmod, hend⟩ := ih hfit
    have hcons : endAll offset (⟨fragmentType isBegin false, payload⟩ :: ps) =
        endAll (recordStart offset + kHeaderSize + payload.length) ps := rfl
    rw [hcons]
    refine ⟨?_, hend⟩
    rw [← hmod, encodeAll, List.length_append, List.length_append, PhysicalRecord.encode_length,
      recordEnd]
    dsimp only
    -- The trailer is the only part that is not counted from where the record starts.
    rw [← Nat.add_assoc, ← Nat.add_assoc, Nat.add_assoc, Nat.add_mod, trailer_length_mod hle,
      ← Nat.add_mod]
    congr 1
    omega

/-! ## The writer -/

/-- On a file that does not fail, `switchBlock` appends the zeros of the trailer, and nothing if there
is room for a header. -/
theorem Writer.switchBlock_eq {w : Writer} (h : w.dest.failures = []) :
    w.switchBlock =
      ⟨{ bytes := w.dest.bytes ++ trailer w.blockOffset }, recordStart w.blockOffset⟩ := by
  obtain ⟨⟨bytes, failures⟩, offset⟩ := w
  obtain rfl : failures = [] := h
  unfold switchBlock trailer recordStart
  dsimp only
  by_cases hfull : kBlockSize - offset < kHeaderSize
  · rw [if_pos hfull, if_pos hfull, if_pos hfull]
    by_cases hpos : 0 < kBlockSize - offset
    · rw [if_pos hpos]
      rfl
    · have hzero : kBlockSize - offset = 0 := by omega
      rw [if_neg hpos, hzero, List.replicate_zero, List.append_nil]
  · rw [if_neg hfull, if_neg hfull, if_neg hfull, List.append_nil]

/-- A physical record is appended to a file that does not fail. -/
theorem Writer.emitPhysicalRecord_eq (bytes : Slice) (offset : ℕ) (t : RecordType)
    (payload : Slice) :
    Writer.emitPhysicalRecord ⟨{ bytes := bytes }, offset⟩ t payload =
      (true, ⟨{ bytes := bytes ++ PhysicalRecord.encode ⟨t, payload⟩ },
        offset + kHeaderSize + payload.length⟩) := by
  simp [emitPhysicalRecord, WritableFile.append, PhysicalRecord.encode]

/-- A fragment is a part of what is left, and fits in its block. -/
theorem Writer.fragmentLength_spec {w : Writer} (h : w.dest.failures = []) (left : Slice) :
    w.switchBlock.fragmentLength left ≤ left.length ∧
      recordStart w.blockOffset + kHeaderSize + w.switchBlock.fragmentLength left ≤ kBlockSize ∧
      (w.switchBlock.fragmentLength left < left.length →
        recordStart w.blockOffset + kHeaderSize + w.switchBlock.fragmentLength left = kBlockSize) := by
  have hroom := recordStart_room w.blockOffset
  have hpos : 0 < kHeaderSize := by decide
  rw [switchBlock_eq h, fragmentLength]
  dsimp only
  split_ifs with hlt
  · exact ⟨le_refl _, by omega, by omega⟩
  · exact ⟨by omega, by omega, by omega⟩

/-- The physical records that the loop of `AddRecord` emits. -/
def Writer.emitted (w : Writer) (isBegin : Bool) (left : Slice) : List PhysicalRecord :=
  let n := w.switchBlock.fragmentLength left
  let t := fragmentType isBegin (decide (left.length = n))
  let r := w.switchBlock.emitPhysicalRecord t (left.take n)
  ⟨t, left.take n⟩ ::
    if r.1 = true ∧ 0 < left.length - n then r.2.emitted false (left.drop n) else []
termination_by 2 * left.length + (if kBlockSize - w.blockOffset = kHeaderSize then 1 else 0)
decreasing_by
  rename_i h
  exact addFragments_decreasing h.2

/-- Every physical record but the last one ends with its block. -/
def FillsBlocks : ℕ → List PhysicalRecord → Prop
  | _, [] => True
  | offset, p :: ps =>
    (ps ≠ [] → recordEnd offset p = kBlockSize) ∧ FillsBlocks (recordEnd offset p) ps

/-- The loop of `AddRecord` lays out the fragments of what is left. -/
theorem Writer.addFragments_emitted (w : Writer) (isBegin : Bool) (left : Slice) :
    w.dest.failures = [] → Fragments w.blockOffset isBegin left (w.emitted isBegin left) ∧
      FillsBlocks w.blockOffset (w.emitted isBegin left) ∧
      w.addFragments isBegin left =
        (true, ⟨{ bytes := w.dest.bytes ++ encodeAll w.blockOffset (w.emitted isBegin left) },
          endAll w.blockOffset (w.emitted isBegin left)⟩) := by
  induction w, isBegin, left using Writer.addFragments.induct with
  | case1 w isBegin left n r hmore ih =>
    intro hw
    obtain ⟨hle, hfit, hfill⟩ := fragmentLength_spec hw left
    have hlen : (left.take n).length = n := List.length_take_of_le hle
    have hnot : decide (left.length = n) = false := decide_eq_false (by omega)
    have hr : r = (true, ⟨{ bytes := w.dest.bytes ++ trailer w.blockOffset ++
        PhysicalRecord.encode ⟨fragmentType isBegin false, left.take n⟩ },
        recordStart w.blockOffset + kHeaderSize + (left.take n).length⟩) := by
      unfold r
      rw [switchBlock_eq hw, emitPhysicalRecord_eq, hnot]
    have hstep : w.addFragments isBegin left = r.2.addFragments false (left.drop n) := by
      rw [addFragments]
      exact if_pos hmore
    have hemit : w.emitted isBegin left =
        ⟨fragmentType isBegin false, left.take n⟩ :: r.2.emitted false (left.drop n) := by
      rw [emitted, ← hnot]
      exact congrArg (_ :: ·) (if_pos hmore)
    obtain ⟨hps, hfills, heq⟩ := ih (by rw [hr])
    rw [hemit, hstep, heq]
    rw [hr] at hps hfills ⊢
    refine ⟨?_, ⟨fun _ => ?_, hfills⟩, ?_⟩
    · have hfrag : Fragments w.blockOffset isBegin (left.take n ++ left.drop n) _ :=
        .more (by rw [hlen]; exact hfit) hps
      rwa [List.take_append_drop] at hfrag
    · show recordStart w.blockOffset + kHeaderSize + (left.take n).length = kBlockSize
      rw [hlen]
      exact hfill (by omega)
    · rw [encodeAll]
      simp only [List.append_assoc]
      rfl
  | case2 w isBegin left n r hlast =>
    intro hw
    obtain ⟨hle, hfit, -⟩ := fragmentLength_spec hw left
    have hr : r = (true, ⟨{ bytes := w.dest.bytes ++ trailer w.blockOffset ++
        PhysicalRecord.encode ⟨fragmentType isBegin (decide (left.length = n)), left.take n⟩ },
        recordStart w.blockOffset + kHeaderSize + (left.take n).length⟩) := by
      unfold r
      rw [switchBlock_eq hw, emitPhysicalRecord_eq]
    have hstep : w.addFragments isBegin left = r := by
      rw [addFragments]
      exact if_neg hlast
    have hemit : w.emitted isBegin left =
        [⟨fragmentType isBegin (decide (left.length = n)), left.take n⟩] := by
      rw [emitted]
      exact congrArg (_ :: ·) (if_neg hlast)
    -- The loop ends because nothing is left.
    have hend : left.length = n := by
      rw [hr] at hlast
      have : ¬ 0 < left.length - n := fun h => hlast ⟨rfl, h⟩
      omega
    have htake : left.take n = left := by rw [← hend, List.take_length]
    rw [decide_eq_true hend, htake] at hr hemit
    rw [hemit, hstep, hr, encodeAll, encodeAll, List.append_nil, List.append_assoc]
    exact ⟨.final (by rw [hend]; exact hfit), ⟨fun h => absurd rfl h, trivial⟩, rfl⟩

/-- The loop of `AddRecord` lays out fragments of what is left. -/
theorem Writer.addFragments_spec (w : Writer) (isBegin : Bool) (left : Slice)
    (hw : w.dest.failures = []) : ∃ ps, Fragments w.blockOffset isBegin left ps ∧
      w.addFragments isBegin left =
        (true, ⟨{ bytes := w.dest.bytes ++ encodeAll w.blockOffset ps },
          endAll w.blockOffset ps⟩) := by
  obtain ⟨hps, -, heq⟩ := w.addFragments_emitted isBegin left hw
  exact ⟨_, hps, heq⟩

/-! ## The reader -/

/-- The reader is at an offset of a block with the bytes `rest` before it: the buffer holds what the
block has left, and a block that is not full is the last one. -/
structure Reader.At (rd : Reader) (rest : Slice) (offset : ℕ) : Prop where
  /-- What the block has left. -/
  buffer : rd.buffer = rest.take (kBlockSize - offset)
  /-- The blocks after it. -/
  file : rd.file.rest = rest.drop (kBlockSize - offset)
  /-- Whether the block is the last one. -/
  eof : rd.eof = decide (rest.length < kBlockSize - offset)
  /-- The offset lies in the block. -/
  le : offset ≤ kBlockSize
  /-- The file can be read. -/
  unbroken : rd.file.broken = false
  /-- Nothing is skipped. -/
  initial : rd.initialOffset = 0

/-- A new reader is at the end of a block that lies before the file. -/
theorem Reader.at_start (bytes : Slice) (checksum : Bool) :
    Reader.At { file := { rest := bytes }, checksum := checksum } bytes kBlockSize where
  buffer := by rw [Nat.sub_self, List.take_zero]
  file := by rw [Nat.sub_self, List.drop_zero]
  eof := by rw [Nat.sub_self]; rfl
  le := le_refl _
  unbroken := rfl
  initial := rfl

/-- Reading a block leads from the end of one block to the start of the next. -/
theorem Reader.At.readBlock {rd : Reader} {rest : Slice} {offset : ℕ} (h : rd.At rest offset) :
    rd.readBlock.At (rest.drop (kBlockSize - offset)) 0 where
  buffer := by
    dsimp only [Reader.readBlock]
    rw [h.file, Nat.sub_zero]
  file := by
    dsimp only [Reader.readBlock]
    rw [h.file, Nat.sub_zero]
  eof := by
    dsimp only [Reader.readBlock]
    rw [h.file, Nat.sub_zero, List.length_take]
    refine decide_eq_decide.mpr ?_
    omega
  le := Nat.zero_le _
  unbroken := h.unbroken
  initial := h.initial

/-- `ReadPhysicalRecord` at a trailer reads what it reads at the start of the next block, without a
report. -/
theorem Reader.At.skip_trailer {rd : Reader} {rest : Slice} {offset : ℕ}
    (h : rd.At (trailer offset ++ rest) offset) :
    ∃ rd' : Reader, rd'.At rest (recordStart offset) ∧ rd'.reports = rd.reports ∧
      rd.readPhysicalRecord = rd'.readPhysicalRecord := by
  unfold trailer at h
  unfold recordStart
  by_cases hfull : kBlockSize - offset < kHeaderSize
  · rw [if_pos hfull] at h
    rw [if_pos hfull]
    have hnext := h.readBlock
    rw [List.drop_left' List.length_replicate] at hnext
    refine ⟨rd.readBlock, hnext, rfl, ?_⟩
    have hlen : rd.buffer.length < kHeaderSize := by
      rw [h.buffer, List.length_take]
      omega
    have heof : rd.eof = false := by
      rw [h.eof, List.length_append, List.length_replicate]
      exact decide_eq_false (by omega)
    rw [readPhysicalRecord, if_pos hlen, if_pos heof, if_neg (by rw [h.unbroken]; simp)]
  · rw [if_neg hfull] at h ⊢
    exact ⟨rd, h, rfl, rfl⟩

/-- The bytes of a physical record, one by one. -/
theorem PhysicalRecord.encode_append (p : PhysicalRecord) (rest : Slice) : ∃ b0 b1 b2 b3,
    p.encode ++ rest = b0 :: b1 :: b2 :: b3 :: UInt8.ofNat p.payload.length ::
      UInt8.ofNat (p.payload.length / 2^8) :: UInt8.ofNat p.type.toNat :: (p.payload ++ rest) ∧
    ∀ rest', decodeFixed32 (b0 :: b1 :: b2 :: b3 :: rest') =
      Crc32c.mask (Crc32c.extend 0 (typeCrc p.type) p.payload) := by
  refine ⟨_, _, _, _, rfl, fun rest' => ?_⟩
  exact decodeFixed32_encodeFixed32 (Crc32c.mask_lt _) rest'

/-- The type byte of a physical record is its type. -/
theorem charToUnsigned_type (t : RecordType) : charToUnsigned (UInt8.ofNat t.toNat) = t.toNat := by
  cases t <;> decide

/-- The checksum of type and payload is the one in the header. -/
theorem value_cons_payload (t : RecordType) (payload : Slice) :
    Crc32c.value 0 (UInt8.ofNat t.toNat :: payload) =
      Crc32c.unmask (Crc32c.mask (Crc32c.extend 0 (typeCrc t) payload)) := by
  have hzero : (0 : ℕ) < 2^32 := by decide
  have htype : typeCrc t < 2^32 := Crc32c.extend_lt hzero 0 _
  rw [Crc32c.unmask_mask (Crc32c.extend_lt htype 0 payload), typeCrc, Crc32c.value, Crc32c.value,
    Crc32c.extend_append hzero 0 0 0, List.singleton_append]

/-- The header of a physical record at the start of the buffer is accepted. -/
theorem Reader.readHeader_encode {rd : Reader} {p : PhysicalRecord} {rest : Slice}
    (hbuf : rd.buffer = p.encode ++ rest) (hlen : p.payload.length < 2^16)
    (htype : p.type ≠ .zero) (hinit : rd.initialOffset = 0) :
    rd.readHeader = ⟨p.type.toNat, p.payload, { rd with buffer := rest }⟩ := by
  obtain ⟨b0, b1, b2, b3, hbytes, hcrc⟩ := p.encode_append rest
  have hbuflen : rd.buffer.length = kHeaderSize + p.payload.length + rest.length := by
    rw [hbuf, List.length_append, PhysicalRecord.encode_length]
  have hdrop : rd.buffer.drop (kHeaderSize + p.payload.length) = rest := by
    rw [hbuf, List.drop_left' p.encode_length]
  rw [hbytes] at hbuf
  have hlength : (rd.buffer.getD 4 0).toNat + 2^8 * (rd.buffer.getD 5 0).toNat =
      p.payload.length := by
    rw [hbuf]
    simp only [List.getD_cons_succ, List.getD_cons_zero, UInt8.toNat_ofNat']
    omega
  have ht : charToUnsigned (rd.buffer.getD 6 0) = p.type.toNat := by
    rw [hbuf]
    exact charToUnsigned_type p.type
  have hnonzero : p.type.toNat ≠ RecordType.zero.toNat := by
    cases hp : p.type
    · exact absurd hp htype
    all_goals decide
  have hsum : Crc32c.value 0 ((rd.buffer.drop 6).take (1 + p.payload.length)) =
      Crc32c.unmask (decodeFixed32 rd.buffer) := by
    rw [hbuf, hcrc]
    have htake : (UInt8.ofNat p.type.toNat :: (p.payload ++ rest)).take (1 + p.payload.length) =
        UInt8.ofNat p.type.toNat :: p.payload := by
      rw [Nat.add_comm, List.take_succ_cons, List.take_left]
    show Crc32c.value 0 ((UInt8.ofNat p.type.toNat :: (p.payload ++ rest)).take
      (1 + p.payload.length)) = _
    rw [htake, value_cons_payload]
  have hpayload : (rd.buffer.drop kHeaderSize).take p.payload.length = p.payload := by
    rw [hbuf]
    show (p.payload ++ rest).take p.payload.length = p.payload
    rw [List.take_left]
  -- None of the three checks fails, and nothing is skipped before the initial offset.
  unfold readHeader
  dsimp only
  rw [hlength, ht, if_neg (by omega), if_neg (fun h => hnonzero h.1),
    if_neg (fun h => h.2 hsum), hdrop, hpayload, if_neg (by rw [hinit]; exact Nat.not_lt_zero _)]

/-- `ReadPhysicalRecord` reads a physical record that fits in its block. -/
theorem Reader.At.readPhysicalRecord {rd : Reader} {p : PhysicalRecord} {rest : Slice} {offset : ℕ}
    (h : rd.At (p.encode ++ rest) offset) (hfit : offset + kHeaderSize + p.payload.length ≤ kBlockSize)
    (htype : p.type ≠ .zero) :
    ∃ rd' : Reader, rd.readPhysicalRecord = ⟨p.type.toNat, p.payload, rd'⟩ ∧
      rd'.At rest (offset + kHeaderSize + p.payload.length) ∧ rd'.reports = rd.reports := by
  have hsize : kBlockSize - offset =
      p.encode.length + (kBlockSize - (offset + kHeaderSize + p.payload.length)) := by
    rw [PhysicalRecord.encode_length]
    omega
  have hbuf : rd.buffer =
      p.encode ++ rest.take (kBlockSize - (offset + kHeaderSize + p.payload.length)) := by
    rw [h.buffer, hsize, List.take_length_add_append]
  have hroom : ¬ rd.buffer.length < kHeaderSize := by
    rw [hbuf, List.length_append, PhysicalRecord.encode_length]
    omega
  have hshort : p.payload.length < 2^16 := by
    unfold kBlockSize at hfit
    omega
  refine ⟨{ rd with buffer := rest.take (kBlockSize - (offset + kHeaderSize + p.payload.length)) },
    ?_, ⟨rfl, ?_, ?_, hfit, h.unbroken, h.initial⟩, rfl⟩
  · rw [Reader.readPhysicalRecord, if_neg hroom, readHeader_encode hbuf hshort htype h.initial]
  · show rd.file.rest = _
    rw [h.file, hsize, List.drop_length_add_append]
  · show rd.eof = _
    rw [h.eof, List.length_append]
    refine decide_eq_decide.mpr ?_
    omega

/-- A fragment is not of the reserved type. -/
theorem fragmentType_ne_zero (isBegin isEnd : Bool) : fragmentType isBegin isEnd ≠ .zero := by
  cases isBegin <;> cases isEnd <;> decide

/-- Nothing is reported about a record that starts outside of another one. -/
theorem Reader.reportPartial_of_outside {rd : Reader} {st : RecordState} {reason : String}
    (h : st.inFragmentedRecord = false) : rd.reportPartial st reason = rd := by
  rw [reportPartial, h, Bool.false_and, if_neg Bool.false_ne_true]

/-- Where a reader is does not depend on the offset of the last record. -/
theorem Reader.At.setLastRecordOffset {rd : Reader} {rest : Slice} {offset : ℕ}
    (h : rd.At rest offset) (n : ℕ) : Reader.At { rd with lastRecordOffset := n } rest offset :=
  ⟨h.buffer, h.file, h.eof, h.le, h.unbroken, h.initial⟩

/-! ### One round of `ReadRecord` -/

section

variable {rd rd' : Reader} {st : RecordState} {fragment : Slice}

/-- A full record outside of a fragmented one is returned as it is. -/
theorem Reader.readLoop_full
    (h : rd.readPhysicalRecord = ⟨RecordType.full.toNat, fragment, rd'⟩)
    (hst : st.inFragmentedRecord = false) :
    rd.readLoop st = (some fragment,
      { rd' with lastRecordOffset := sub64 rd.endOfBufferOffset rd.buffer.length }) := by
  rw [readLoop, h]
  dsimp only
  rw [if_pos rfl, reportPartial_of_outside hst]

/-- The first fragment of a record is kept, and the loop goes on inside the record. -/
theorem Reader.readLoop_first
    (h : rd.readPhysicalRecord = ⟨RecordType.first.toNat, fragment, rd'⟩)
    (hst : st.inFragmentedRecord = false) :
    rd.readLoop st = rd'.readLoop
      { scratch := fragment
        inFragmentedRecord := true
        prospectiveRecordOffset := sub64 rd.endOfBufferOffset rd.buffer.length } := by
  rw [readLoop, h]
  dsimp only
  rw [if_neg (by decide), if_pos rfl, reportPartial_of_outside hst]

/-- A fragment in the middle of a record. -/
theorem Reader.readLoop_middle
    (h : rd.readPhysicalRecord = ⟨RecordType.middle.toNat, fragment, rd'⟩)
    (hst : st.inFragmentedRecord = true) :
    rd.readLoop st = rd'.readLoop { st with scratch := st.scratch ++ fragment } := by
  rw [readLoop, h]
  dsimp only
  rw [if_neg (by decide), if_neg (by decide), if_pos rfl, if_pos hst]

/-- The last fragment of a record is returned behind the fragments before it. -/
theorem Reader.readLoop_last
    (h : rd.readPhysicalRecord = ⟨RecordType.last.toNat, fragment, rd'⟩)
    (hst : st.inFragmentedRecord = true) :
    rd.readLoop st = (some (st.scratch ++ fragment),
      { rd' with lastRecordOffset := st.prospectiveRecordOffset }) := by
  rw [readLoop, h]
  dsimp only
  rw [if_neg (by decide), if_neg (by decide), if_neg (by decide), if_pos rfl, if_pos hst]

/-- At the end of the file, outside of a fragmented record, the loop returns nothing. -/
theorem Reader.readLoop_eof (h : rd.readPhysicalRecord = ⟨kEof, fragment, rd'⟩)
    (hst : st.inFragmentedRecord = false) : rd.readLoop st = (none, rd') := by
  rw [readLoop, h]
  dsimp only
  rw [if_neg (by decide), if_neg (by decide), if_neg (by decide), if_neg (by decide), if_pos rfl,
    if_neg (by rw [hst]; exact Bool.false_ne_true)]

/-- A bad record outside of other records. -/
theorem Reader.readLoop_bad (h : rd.readPhysicalRecord = ⟨kBadRecord, fragment, rd'⟩)
    (hst : st.inFragmentedRecord = false) : rd.readLoop st = rd'.readLoop st := by
  rw [readLoop, h]
  dsimp only
  rw [if_neg (by decide), if_neg (by decide), if_neg (by decide), if_neg (by decide),
    if_neg (by decide), if_pos rfl, if_neg (by rw [hst]; exact Bool.false_ne_true)]

end

/-! ### Records -/

/-- The loop of `ReadRecord` puts the fragments of a record together. -/
theorem Fragments.readLoop {offset : ℕ} {isBegin : Bool} {data : Slice} {ps : List PhysicalRecord}
    (h : Fragments offset isBegin data ps) : ∀ (rd : Reader) (rest : Slice) (st : RecordState),
    rd.At (encodeAll offset ps ++ rest) offset → st.inFragmentedRecord = !isBegin →
    ∃ rd' : Reader, rd.readLoop st = (some (if isBegin then data else st.scratch ++ data), rd') ∧
      rd'.At rest (endAll offset ps) ∧ rd'.reports = rd.reports := by
  induction h with
  | @final offset isBegin payload hfit =>
    intro rd rest st hat hst
    rw [encodeAll, encodeAll, List.append_nil, List.append_assoc] at hat
    obtain ⟨rd₁, hat₁, hrep₁, hskip⟩ := hat.skip_trailer
    obtain ⟨rd₂, hread, hat₂, hrep₂⟩ := hat₁.readPhysicalRecord hfit (fragmentType_ne_zero _ _)
    rw [← hskip] at hread
    cases isBegin with
    | true =>
      rw [Reader.readLoop_full hread hst]
      exact ⟨_, rfl, hat₂.setLastRecordOffset _, hrep₂.trans hrep₁⟩
    | false =>
      rw [Reader.readLoop_last hread hst]
      exact ⟨_, rfl, hat₂.setLastRecordOffset _, hrep₂.trans hrep₁⟩
  | @more offset isBegin payload rest' ps hfit hrest ih =>
    intro rd rest st hat hst
    rw [encodeAll, List.append_assoc, List.append_assoc] at hat
    obtain ⟨rd₁, hat₁, hrep₁, hskip⟩ := hat.skip_trailer
    obtain ⟨rd₂, hread, hat₂, hrep₂⟩ := hat₁.readPhysicalRecord hfit (fragmentType_ne_zero _ _)
    rw [← hskip] at hread
    cases isBegin with
    | true =>
      rw [Reader.readLoop_first hread hst]
      obtain ⟨rd₃, hloop, hat₃, hrep₃⟩ := ih rd₂ rest ⟨payload, true,
        sub64 rd.endOfBufferOffset rd.buffer.length⟩ hat₂ rfl
      exact ⟨rd₃, hloop, hat₃, hrep₃.trans (hrep₂.trans hrep₁)⟩
    | false =>
      rw [Reader.readLoop_middle hread hst]
      obtain ⟨rd₃, hloop, hat₃, hrep₃⟩ :=
        ih rd₂ rest { st with scratch := st.scratch ++ payload } hat₂ hst
      refine ⟨rd₃, ?_, hat₃, hrep₃.trans (hrep₂.trans hrep₁)⟩
      rw [hloop, if_neg Bool.false_ne_true, if_neg Bool.false_ne_true, List.append_assoc]

/-! ### The end of the file -/

/-- At the end of the file there is no physical record. -/
theorem Reader.At.readPhysicalRecord_end {rd : Reader} {offset : ℕ} (h : rd.At [] offset) :
    ∃ rd' : Reader, rd.readPhysicalRecord = ⟨kEof, [], rd'⟩ ∧ rd'.reports = rd.reports := by
  have hbuf : rd.buffer.length = 0 := by rw [h.buffer, List.take_nil, List.length_nil]
  have hlen : rd.buffer.length < kHeaderSize := by
    rw [hbuf]
    decide
  cases heof : rd.eof with
  | true =>
    refine ⟨rd, ?_, rfl⟩
    rw [Reader.readPhysicalRecord, if_pos hlen, if_neg (by rw [heof]; simp), if_pos hbuf]
  | false =>
    -- The block before was full, so that one more block is read, which is empty.
    have hnext := h.readBlock
    rw [List.drop_nil] at hnext
    have hbuf' : rd.readBlock.buffer.length = 0 := by
      rw [hnext.buffer, List.take_nil, List.length_nil]
    have hlen' : rd.readBlock.buffer.length < kHeaderSize := by
      rw [hbuf']
      decide
    have heof' : rd.readBlock.eof = true := by
      rw [hnext.eof]
      decide
    refine ⟨rd.readBlock, ?_, rfl⟩
    rw [Reader.readPhysicalRecord, if_pos hlen, if_pos heof, if_neg (by rw [h.unbroken]; simp),
      Reader.readPhysicalRecord, if_pos hlen', if_neg (by rw [heof']; simp), if_pos hbuf']

/-- The rest of a block of zeros is skipped without a report. -/
theorem Reader.At.readPhysicalRecord_zeros {rd : Reader} {offset n : ℕ}
    (h : rd.At (List.replicate n 0) offset) (hroom : kHeaderSize ≤ kBlockSize - offset)
    (hn : kBlockSize - offset ≤ n) :
    ∃ rd' : Reader, rd.readPhysicalRecord = ⟨kBadRecord, [], rd'⟩ ∧
      rd'.At (List.replicate (n - (kBlockSize - offset)) 0) kBlockSize ∧
      rd'.reports = rd.reports := by
  have hbuf : rd.buffer = List.replicate (kBlockSize - offset) 0 := by
    rw [h.buffer, List.take_replicate, Nat.min_eq_left hn]
  have hlen : ¬ rd.buffer.length < kHeaderSize := by
    rw [hbuf, List.length_replicate]
    omega
  have hget : ∀ i, rd.buffer.getD i 0 = 0 := by
    intro i
    rw [hbuf, List.getD_eq_getElem?_getD, List.getElem?_replicate]
    split_ifs <;> rfl
  refine ⟨{ rd with buffer := [] }, ?_, ⟨?_, ?_, ?_, le_refl _, h.unbroken, h.initial⟩, rfl⟩
  · rw [Reader.readPhysicalRecord, if_neg hlen, readHeader]
    dsimp only
    rw [hget, hget, hget, if_neg, if_pos ⟨rfl, rfl⟩]
    exact hlen
  · rw [Nat.sub_self, List.take_zero]
  · rw [Nat.sub_self, List.drop_zero]
    show rd.file.rest = _
    rw [h.file, List.drop_replicate]
  · rw [Nat.sub_self]
    show rd.eof = _
    rw [h.eof, List.length_replicate]
    refine decide_eq_decide.mpr ?_
    omega

/-- Bytes that end with a block fill the block that they start in. -/
theorem le_of_dvd_offset {offset n : ℕ} (h : kBlockSize ∣ offset + n) (hpos : 0 < n) :
    kBlockSize - offset ≤ n := by
  have hle := Nat.le_of_dvd (by omega) h
  omega

/-- Zeros up to the end of a block, or no bytes at all, hold no record. -/
theorem Reader.At.readLoop_end (n : ℕ) : ∀ {rd : Reader} {offset : ℕ} {st : RecordState},
    rd.At (List.replicate n 0) offset → n = 0 ∨ kBlockSize ∣ offset + n →
    st.inFragmentedRecord = false →
    ∃ rd' : Reader, rd.readLoop st = (none, rd') ∧ rd'.reports = rd.reports := by
  induction n using Nat.strong_induction_on with
  | _ n ih =>
    intro rd offset st hat hn hst
    rcases Nat.eq_zero_or_pos n with rfl | hpos
    · obtain ⟨rd', hread, hrep⟩ := hat.readPhysicalRecord_end
      exact ⟨rd', Reader.readLoop_eof hread hst, hrep⟩
    have hdvd : kBlockSize ∣ offset + n := hn.resolve_left (by omega)
    have hge := le_of_dvd_offset hdvd hpos
    have hle := hat.le
    -- The trailer is part of the zeros.
    have htrailer : (trailer offset).length ≤ n ∧ List.replicate n (0 : UInt8) =
        trailer offset ++ List.replicate (n - (trailer offset).length) 0 := by
      unfold trailer
      split_ifs
      · rw [List.length_replicate, List.replicate_append_replicate, Nat.add_sub_cancel' hge]
        exact ⟨hge, rfl⟩
      · rw [List.length_nil, Nat.sub_zero, List.nil_append]
        exact ⟨Nat.zero_le n, rfl⟩
    rw [htrailer.2] at hat
    obtain ⟨rd₁, hat₁, hrep₁, hskip⟩ := hat.skip_trailer
    have hdvd' : kBlockSize ∣ recordStart offset + (n - (trailer offset).length) := by
      refine Nat.dvd_of_mod_eq_zero ?_
      rw [Nat.add_mod, ← trailer_length_mod hle, ← Nat.add_mod, Nat.add_assoc,
        Nat.add_sub_cancel' htrailer.1]
      exact Nat.mod_eq_zero_of_dvd hdvd
    have hmn : n - (trailer offset).length ≤ n := Nat.sub_le _ _
    generalize n - (trailer offset).length = m at hat₁ hdvd' hmn
    rcases Nat.eq_zero_or_pos m with rfl | hmpos
    · obtain ⟨rd₂, hread, hrep₂⟩ := hat₁.readPhysicalRecord_end
      rw [← hskip] at hread
      exact ⟨rd₂, Reader.readLoop_eof hread hst, hrep₂.trans hrep₁⟩
    · obtain ⟨rd₂, hread, hat₂, hrep₂⟩ :=
        hat₁.readPhysicalRecord_zeros (recordStart_room offset) (le_of_dvd_offset hdvd' hmpos)
      rw [← hskip] at hread
      have hroom := recordStart_room offset
      have hfill := le_of_dvd_offset hdvd' hmpos
      have hheader : 0 < kHeaderSize := by decide
      have hnext : kBlockSize + (m - (kBlockSize - recordStart offset)) =
          recordStart offset + m := by omega
      obtain ⟨rd₃, hloop, hrep₃⟩ := ih (m - (kBlockSize - recordStart offset)) (by omega) hat₂
        (Or.inr (by rw [hnext]; exact hdvd')) hst
      exact ⟨rd₃, by rw [Reader.readLoop_bad hread hst, hloop], hrep₃.trans (hrep₂.trans hrep₁)⟩

/-! ## Round trip -/

/-- Writing records one after the other. -/
def Writer.addRecords (w : Writer) (records : List Slice) : Writer :=
  records.foldl (fun w record => (w.addRecord record).2) w

/-- A number of calls of `ReadRecord`: what each of them returns, and the reader after them. -/
def Reader.readRecords : ℕ → Reader → List (Option Slice) × Reader
  | 0, rd => ([], rd)
  | n + 1, rd =>
    let r := rd.readRecord
    let rest := r.2.readRecords n
    (r.1 :: rest.1, rest.2)

/-- Without an initial offset, `ReadRecord` is its loop. -/
theorem Reader.readRecord_eq {rd : Reader} (h : rd.initialOffset = 0) :
    rd.readRecord = rd.readLoop {} := by
  rw [readRecord, h, if_neg (Nat.not_lt_zero _)]

/-- Records that are written from an offset on are read back from there, up to zeros that end with
a block. -/
theorem Writer.addRecords_read : ∀ (records : List Slice) (w : Writer), w.dest.failures = [] →
    w.blockOffset ≤ kBlockSize → ∃ bytes,
      (w.addRecords records).dest = { bytes := w.dest.bytes ++ bytes } ∧
      (w.blockOffset + bytes.length) % kBlockSize =
        (w.addRecords records).blockOffset % kBlockSize ∧
      ∀ (rd : Reader) (n : ℕ), rd.At (bytes ++ List.replicate n 0) w.blockOffset →
        n = 0 ∨ kBlockSize ∣ (w.addRecords records).blockOffset + n →
        ∃ rd', rd.readRecords (records.length + 1) = (records.map some ++ [none], rd') ∧
          rd'.reports = rd.reports
  | [], w, hw, hle => by
    refine ⟨[], by rw [List.append_nil, ← hw]; rfl, rfl, fun rd n hat hn => ?_⟩
    rw [List.nil_append] at hat
    obtain ⟨rd', hloop, hrep⟩ := hat.readLoop_end n hn (show RecordState.inFragmentedRecord {} = false from rfl)
    refine ⟨rd', ?_, hrep⟩
    rw [List.length_nil, Reader.readRecords, Reader.readRecord_eq hat.initial, hloop]
    rfl
  | record :: records, w, hw, hle => by
    obtain ⟨ps, hps, hadd⟩ := w.addFragments_spec true record hw
    obtain ⟨hmod, hend⟩ := hps.length_mod hle
    have hfold : w.addRecords (record :: records) =
        Writer.addRecords ⟨{ bytes := w.dest.bytes ++ encodeAll w.blockOffset ps },
          endAll w.blockOffset ps⟩ records := by
      rw [addRecords, List.foldl_cons, addRecord, hadd]
      rfl
    obtain ⟨bytes, hdest, hbytes, hread⟩ := addRecords_read records
      ⟨{ bytes := w.dest.bytes ++ encodeAll w.blockOffset ps }, endAll w.blockOffset ps⟩ rfl hend
    rw [← hfold] at hdest hbytes hread
    refine ⟨encodeAll w.blockOffset ps ++ bytes, ?_, ?_, fun rd n hat hn => ?_⟩
    · rw [hdest, List.append_assoc]
    · rw [List.length_append, ← Nat.add_assoc, Nat.add_mod, hmod, ← Nat.add_mod]
      exact hbytes
    -- The fragments of the first record are read, and the induction goes on where they end.
    · rw [List.append_assoc] at hat
      obtain ⟨rd₁, hloop, hat₁, hrep₁⟩ := hps.readLoop rd _ {} hat rfl
      obtain ⟨rd₂, hrest, hrep₂⟩ := hread rd₁ n hat₁ hn
      refine ⟨rd₂, ?_, hrep₂.trans hrep₁⟩
      rw [List.length_cons, Reader.readRecords, Reader.readRecord_eq hat.initial, hloop]
      dsimp only
      rw [hrest]
      rfl

/-- A writer at the start of a block writes what it would write at the end of the block before. -/
theorem Writer.addRecord_at_block_end (record : Slice) :
    Writer.addRecord {} record = Writer.addRecord { blockOffset := kBlockSize } record := by
  have hswitch : Writer.switchBlock {} = Writer.switchBlock { blockOffset := kBlockSize } := by
    rw [switchBlock_eq rfl, switchBlock_eq rfl]
    rfl
  rw [addRecord, addRecord]
  conv_lhs => rw [addFragments]
  conv_rhs => rw [addFragments]
  rw [hswitch]

/-- So it is with any number of records. -/
theorem Writer.addRecords_at_block_end (records : List Slice) :
    (Writer.addRecords {} records).dest =
      (Writer.addRecords { blockOffset := kBlockSize } records).dest := by
  cases records with
  | nil => rfl
  | cons record records =>
    rw [addRecords, addRecords, List.foldl_cons, List.foldl_cons, addRecord_at_block_end]

/-- A file of records is read to its end without a report. -/
theorem readRecords_whole (records : List Slice) :
    ∃ rd', Reader.readRecords (records.length + 1)
        { file := { rest := (Writer.addRecords {} records).dest.bytes } } =
      (records.map some ++ [none], rd') ∧ rd'.reports = [] := by
  obtain ⟨bytes, hdest, -, hread⟩ :=
    Writer.addRecords_read records { blockOffset := kBlockSize } rfl (le_refl _)
  rw [Writer.addRecords_at_block_end, hdest, List.nil_append]
  refine hread _ 0 ?_ (Or.inl rfl)
  rw [List.replicate_zero, List.append_nil]
  exact Reader.at_start bytes true

/-- Whatever records are written to an empty file, reading the file, exactly as it is or filled with
zeros up to any number of blocks, returns these records and then nothing, and reports no
corruption. -/
theorem readRecords_addRecords (records : List Slice) (blocks : ℕ) :
    let bytes := (Writer.addRecords {} records).dest.bytes
    let padded := bytes ++ List.replicate (blocks * kBlockSize - bytes.length) 0
    ∃ rd', Reader.readRecords (records.length + 1) { file := { rest := padded }, checksum := true } =
        (records.map some ++ [none], rd') ∧ rd'.reports = [] := by
  dsimp only
  rw [Writer.addRecords_at_block_end]
  obtain ⟨bytes, hdest, hmod, hread⟩ :=
    Writer.addRecords_read records { blockOffset := kBlockSize } rfl (le_refl _)
  rw [hdest, List.nil_append]
  refine hread _ _ (Reader.at_start _ _) ?_
  rcases Nat.eq_zero_or_pos (blocks * kBlockSize - bytes.length) with hzero | hpos
  · exact Or.inl hzero
  · -- The offset of the writer is the length of the file modulo the size of a block.
    right
    refine Nat.dvd_of_mod_eq_zero ?_
    rw [Nat.add_mod, ← hmod, ← Nat.add_mod]
    dsimp only
    have hsum : kBlockSize + bytes.length + (blocks * kBlockSize - bytes.length) =
        (blocks + 1) * kBlockSize := by
      rw [Nat.add_mul, Nat.one_mul]
      omega
    rw [hsum, Nat.mul_mod_left]

end LevelDb.Log
