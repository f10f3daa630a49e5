import LevelDb.Log.Offsets

/-!
# Starting in the middle of a log

A reader with an initial offset skips the blocks before it, with the block of the offset itself when that
lies in the trailer, and drops the physical records that start before it. It returns exactly the records
that start behind the offset (`initial_offset_exact`), because a record that starts before the offset is
passed over with all of its fragments. Those of its fragments that start behind the offset are reported as
corruption, which happens when the record reaches into the next block (`initial_offset_reports_iff`).
-/

namespace LevelDb.Log

/-! ## Block boundaries -/

/-- What fits in a block ends with it. -/
theorem end_le_boundary {start n boundary : ℕ} (hfit : start % kBlockSize + n ≤ kBlockSize)
    (hlt : start < boundary) (hdvd : kBlockSize ∣ boundary) : start + n ≤ boundary := by
  obtain ⟨k, rfl⟩ := hdvd
  unfold kBlockSize at *
  omega

/-- A block boundary in a trailer is the end of the trailer. -/
theorem boundary_eq {pos offset boundary : ℕ} (hle : offset ≤ kBlockSize)
    (haligned : pos % kBlockSize = offset % kBlockSize) (hdvd : kBlockSize ∣ boundary)
    (hlow : pos ≤ boundary) (hhigh : boundary ≤ pos + (trailer offset).length) :
    boundary = pos + (trailer offset).length ∧ recordStart offset = 0 := by
  obtain ⟨k, rfl⟩ := hdvd
  rw [trailer_length] at hhigh ⊢
  unfold recordStart
  unfold kBlockSize kHeaderSize at *
  split_ifs at hhigh ⊢ <;> omega

/-- The headers of physical records lie among their bytes. -/
theorem mem_starts_room {start : ℕ} : ∀ {ps : List PhysicalRecord} {pos offset : ℕ},
    start ∈ starts pos offset ps → start + kHeaderSize ≤ pos + (encodeAll offset ps).length
  | [], pos, offset, h => absurd h List.not_mem_nil
  | p :: ps, pos, offset, h => by
    rw [starts, List.mem_cons] at h
    rw [encodeAll, List.length_append, List.length_append, p.encode_length]
    rcases h with rfl | h
    · omega
    · have hrest := mem_starts_room h
      rw [p.encode_length] at hrest
      omega

/-- A record that reaches over a block boundary, behind the boundary: it is the rest of a record, and the
physical records before it lie before the boundary. -/
theorem Fragments.drop_boundary {offset : ℕ} {isBegin : Bool} {data : Slice} {ps : List PhysicalRecord}
    (h : Fragments offset isBegin data ps) : ∀ {pos boundary : ℕ}, offset ≤ kBlockSize →
    pos % kBlockSize = offset % kBlockSize → kBlockSize ∣ boundary →
    pos + (trailer offset).length < boundary → boundary < pos + (encodeAll offset ps).length →
    ∃ data' ps' before, Fragments kBlockSize false data' ps' ∧
      (encodeAll offset ps).drop (boundary - pos) = encodeAll kBlockSize ps' ∧
      endAll offset ps = endAll kBlockSize ps' ∧
      starts pos offset ps = before ++ starts boundary kBlockSize ps' ∧
      ∀ start ∈ before, start + kHeaderSize ≤ boundary := by
  induction h with
  | @final offset isBegin payload hfit =>
    intro pos boundary hle haligned hdvd hlow hhigh
    -- A single physical record does not reach over the boundary.
    have hmod := start_mod hle haligned
    have hend := end_le_boundary (n := kHeaderSize + payload.length) (by omega) hlow hdvd
    rw [encodeAll, encodeAll, List.append_nil, List.length_append, PhysicalRecord.encode_length] at hhigh
    dsimp only at hhigh
    omega
  | @more offset isBegin payload data ps hfit hrest ih =>
    intro pos boundary hle haligned hdvd hlow hhigh
    have hmod := start_mod hle haligned
    have hend := end_le_boundary (n := kHeaderSize + payload.length) (by omega) hlow hdvd
    set p : PhysicalRecord := ⟨fragmentType isBegin false, payload⟩
    have hlen : p.encode.length = kHeaderSize + payload.length := p.encode_length
    have hnext : (pos + (trailer offset).length + p.encode.length) % kBlockSize =
        recordEnd offset p % kBlockSize := by
      rw [Nat.add_mod, hmod, hlen, Nat.add_mod_mod, recordEnd, Nat.add_assoc]
    have hdrop : (encodeAll offset (p :: ps)).drop (boundary - pos) =
        (encodeAll (recordEnd offset p) ps).drop
          (boundary - (pos + (trailer offset).length + p.encode.length)) := by
      have hsplit : boundary - pos = (trailer offset ++ p.encode).length +
          (boundary - (pos + (trailer offset).length + p.encode.length)) := by
        rw [List.length_append]
        omega
      rw [encodeAll, hsplit, List.drop_length_add_append]
    rw [encodeAll, List.length_append, List.length_append] at hhigh
    rw [hdrop, starts]
    have hcons : endAll offset (p :: ps) = endAll (recordEnd offset p) ps := rfl
    rw [hcons]
    by_cases hreach : pos + (trailer offset).length + p.encode.length +
        (trailer (recordEnd offset p)).length < boundary
    · obtain ⟨data', ps', before, hfrag, hbytes, hend', hstarts, hbefore⟩ :=
        ih hfit hnext hdvd hreach (by show _ < _ + (encodeAll (recordEnd offset p) ps).length; omega)
      refine ⟨data', ps', (pos + (trailer offset).length) :: before, hfrag, hbytes, hend', ?_, ?_⟩
      · rw [List.cons_append]
        exact congrArg _ hstarts
      · intro start hstart
        rcases List.mem_cons.mp hstart with rfl | hstart
        · omega
        · exact hbefore start hstart
    · -- The next fragment starts at the boundary.
      obtain ⟨heq, hzero⟩ := boundary_eq hfit hnext hdvd (by omega) (Nat.le_of_not_lt hreach)
      obtain ⟨hfrag, hbytes, hend', hstarts⟩ := hrest.at_block_end hzero
      refine ⟨data, ps, [pos + (trailer offset).length], hfrag, ?_, hend', ?_, ?_⟩
      · rw [show encodeAll (recordEnd offset p) ps = _ from hbytes, heq, Nat.add_sub_cancel_left,
          List.drop_left' rfl]
      · rw [heq, List.singleton_append]
        exact congrArg _ (hstarts _)
      · intro start hstart
        rw [List.mem_singleton.mp hstart]
        omega

/-! ## Reading from a block on -/

/-- Where the reader stands before a record that it returns: not before the block in which it started,
and such that the header of the record lies behind the initial offset and in the file. -/
def BeforeRecord (o boundary size pos : ℕ) : Prop :=
  boundary ≤ pos ∧ ∃ offset ≤ kBlockSize, pos % kBlockSize = offset % kBlockSize ∧
    o ≤ pos + (trailer offset).length ∧ pos + (trailer offset).length + kHeaderSize ≤ size

/-- The header of a record lies in the file. -/
theorem Writer.Sound.nextStart_le {w : Writer} (h : w.Sound) (record : Slice) :
    w.nextStart + kHeaderSize ≤ (w.addRecord record).2.dest.bytes.length := by
  obtain ⟨hfrag, -, hbytes, -, -⟩ := h.addRecord record
  rw [hbytes, List.length_append, nextStart]
  have hmem : w.dest.bytes.length + (trailer w.blockOffset).length ∈
      starts w.dest.bytes.length w.blockOffset (w.emitted true record) := by
    cases hps : w.emitted true record with
    | nil => exact absurd hps hfrag.ne_nil
    | cons p ps => exact List.mem_cons_self
  exact mem_starts_room hmem

/-- The length of the file is that of what is laid out. -/
theorem Writer.Sound.length_cons {w : Writer} (h : w.Sound) (record : Slice) (records : List Slice) :
    w.dest.bytes.length + (w.laidOut (record :: records)).length =
      (w.addRecord record).2.dest.bytes.length + ((w.addRecord record).2.laidOut records).length := by
  rw [(h.addRecord record).2.2.1, laidOut, List.length_append, List.length_append, Nat.add_assoc]

/-- The offsets of the records that a writer lays out. -/
theorem Writer.Sound.beforeRecord {o boundary : ℕ} : ∀ (records : List Slice) {w : Writer}, w.Sound →
    boundary ≤ w.dest.bytes.length → ∀ r ∈ w.placed o records,
      BeforeRecord o boundary (w.dest.bytes.length + (w.laidOut records).length) r.2
  | [], w, h, hle, r, hr => absurd hr List.not_mem_nil
  | record :: records, w, h, hle, r, hr => by
    obtain ⟨-, -, hbytes, -, hnext⟩ := h.addRecord record
    have hroom := h.nextStart_le record
    have hsize := h.length_cons record records
    have hgrow : w.dest.bytes.length ≤ (w.addRecord record).2.dest.bytes.length := by
      rw [hbytes, List.length_append]
      omega
    rw [placed, List.mem_append] at hr
    rcases hr with hr | hr
    · by_cases hstart : o ≤ w.nextStart
      · rw [if_pos hstart, List.mem_singleton] at hr
        rw [hr]
        unfold nextStart at hstart hroom
        exact ⟨hle, w.blockOffset, h.le, h.aligned, hstart, by omega⟩
      · rw [if_neg hstart] at hr
        exact absurd hr List.not_mem_nil
    · rw [hsize]
      exact Writer.Sound.beforeRecord records hnext (hle.trans hgrow) r hr

section

variable {w : Writer} {o boundary : ℕ} {record : Slice}

/-- The end of the file after a record. -/
theorem Writer.Sound.length_addRecord (h : w.Sound) (record : Slice) : (w.addRecord record).2.dest.bytes.length =
    w.dest.bytes.length + (encodeAll w.blockOffset (w.emitted true record)).length := by
  rw [(h.addRecord record).2.2.1, List.length_append]

/-- Behind a boundary that a record does not reach lies what the records after it leave there. -/
theorem Writer.Sound.drop_before (h : w.Sound) (records : List Slice)
    (hbefore : (w.addRecord record).2.dest.bytes.length ≤ boundary) :
    (w.laidOut (record :: records)).drop (boundary - w.dest.bytes.length) =
      ((w.addRecord record).2.laidOut records).drop
        (boundary - (w.addRecord record).2.dest.bytes.length) := by
  have hend := h.length_addRecord record
  have hsplit : boundary - w.dest.bytes.length =
      (encodeAll w.blockOffset (w.emitted true record)).length +
        (boundary - (w.addRecord record).2.dest.bytes.length) := by omega
  rw [laidOut, hsplit, List.drop_length_add_append]

/-- No fragment of such a record lies behind an initial offset that is not long before the boundary. -/
theorem Writer.Sound.starts_before (h : w.Sound) (hnear : boundary < o + kHeaderSize)
    (hbefore : (w.addRecord record).2.dest.bytes.length ≤ boundary) : w.nextStart < o ∧
    ¬∃ start ∈ starts w.dest.bytes.length w.blockOffset (w.emitted true record), o ≤ start := by
  have hroom := h.nextStart_le record
  refine ⟨by omega, ?_⟩
  rintro ⟨start, hmem, hge⟩
  have hlast := mem_starts_room hmem
  rw [← h.length_addRecord] at hlast
  omega

/-- Behind a boundary that a record reaches over lies the rest of the record, and behind that what follows
the record. What starts behind the initial offset is in the rest. -/
theorem Writer.Sound.drop_over (h : w.Sound) (hdvd : kBlockSize ∣ boundary)
    (hnear : boundary < o + kHeaderSize) (hlow : w.nextStart < boundary)
    (hreach : boundary < (w.addRecord record).2.dest.bytes.length) :
    ∃ data ps, Fragments kBlockSize false data ps ∧
      (∀ records, (w.laidOut (record :: records)).drop (boundary - w.dest.bytes.length) =
        encodeAll kBlockSize ps ++ (w.addRecord record).2.laidOut records) ∧
      (w.addRecord record).2.blockOffset = endAll kBlockSize ps ∧
      (w.addRecord record).2.dest.bytes.length = boundary + (encodeAll kBlockSize ps).length ∧
      w.nextStart < o ∧
      ((∃ start ∈ starts w.dest.bytes.length w.blockOffset (w.emitted true record), o ≤ start) ↔
        ∃ start ∈ starts boundary kBlockSize ps, o ≤ start) := by
  obtain ⟨hfrag, -, -, hoffset, -⟩ := h.addRecord record
  have hend := h.length_addRecord record
  have hfirst : w.dest.bytes.length ≤ w.nextStart := Nat.le_add_right _ _
  obtain ⟨data, ps, before, hrest, hdrop, hend', hstarts, hearly⟩ :=
    hfrag.drop_boundary h.le h.aligned hdvd hlow (by omega)
  have hshort : boundary - w.dest.bytes.length ≤
      (encodeAll w.blockOffset (w.emitted true record)).length := by omega
  -- The first fragment is one of those before the boundary.
  have hmem : w.nextStart ∈ before := by
    have hhead : w.nextStart ∈ starts w.dest.bytes.length w.blockOffset (w.emitted true record) := by
      cases hps : w.emitted true record with
      | nil => exact absurd hps hfrag.ne_nil
      | cons p qs => exact List.mem_cons_self
    rw [hstarts, List.mem_append] at hhead
    refine hhead.resolve_right fun hlate => ?_
    have hge := (mem_starts hlate).1
    omega
  have hstart := hearly _ hmem
  refine ⟨data, ps, hrest, fun records => ?_, hoffset.trans hend', ?_, by omega, ?_⟩
  · rw [laidOut, List.drop_append_of_le_length hshort, hdrop]
  · rw [← hdrop, List.length_drop]
    omega
  · rw [hstarts]
    constructor
    · rintro ⟨start, hmem, hge⟩
      refine ⟨start, (List.mem_append.mp hmem).resolve_left fun hin => ?_, hge⟩
      have := hearly start hin
      omega
    · rintro ⟨start, hmem, hge⟩
      exact ⟨start, List.mem_append_right _ hmem, hge⟩

end

/-- Reading what a writer lays out from a block boundary on. The boundary lies before the initial offset,
or the header of no record fits between the two. -/
theorem Writer.Sound.loopReads_from {o boundary : ℕ} (hdvd : kBlockSize ∣ boundary)
    (hnear : boundary < o + kHeaderSize) : ∀ (records : List Slice) {w : Writer}, w.Sound →
    w.dest.bytes.length ≤ boundary → ∀ (rd : Reader) (st : RecordState),
    rd.Stands ((w.laidOut records).drop (boundary - w.dest.bytes.length)) kBlockSize boundary o →
    st.inFragmentedRecord = false →
    ∃ kept rd', LoopReads st rd kept rd' ∧ kept.map (·.1) = (w.placed o records).map (·.1) ∧
      Reports (w.Straddles o records) rd rd' ∧
      ∀ r ∈ kept, BeforeRecord o boundary (w.dest.bytes.length + (w.laidOut records).length) r.2
  | [], w, h, hle, rd, st, hat, hst => by
    rw [laidOut, List.drop_nil] at hat
    obtain ⟨rd', hread, hquiet⟩ := hat.readPhysicalRecord_end
    exact ⟨[], rd', .done (Reader.readLoop_eof hread hst), rfl,
      .of_eq hquiet.reports (by simp [Straddles]), fun r hr => absurd hr List.not_mem_nil⟩
  | record :: records, w, h, hle, rd, st, hat, hst => by
    obtain ⟨-, -, -, -, hnext⟩ := h.addRecord record
    rw [h.length_cons record records]
    rcases Nat.lt_or_ge boundary (w.addRecord record).2.dest.bytes.length with hreach | hbefore
    · rcases Nat.lt_or_ge w.nextStart boundary with hlow | hhigh
      · -- The record reaches over the boundary, so that its rest is passed over.
        obtain ⟨data, ps, hrest, hdrop, hoffset, hpos, hstart, hbehind⟩ :=
          h.drop_over hdvd hnear hlow hreach
        rw [hdrop] at hat
        obtain ⟨rd₁, hloop, h₁, hrep, -⟩ :=
          hrest.readLoop_passed rd _ st _ hat (fun hfalse => absurd hfalse Bool.false_ne_true) hst
        rw [← hpos, ← hoffset] at h₁
        obtain ⟨rd', hreads, hrep'⟩ := hnext.loopReads records rd₁ st h₁ hst
        refine ⟨_, rd', hreads.of_eq hloop, ?_, hrep.trans hrep' ?_, ?_⟩
        · rw [placed, if_neg (Nat.not_le.mpr hstart), List.nil_append]
        · rw [Straddles]
          exact or_congr ((and_iff_right hstart).trans hbehind) Iff.rfl
        · exact fun r hr => hnext.beforeRecord records hreach.le r hr
      · -- The record starts at the boundary.
        obtain ⟨heq, hzero⟩ := boundary_eq h.le h.aligned hdvd hle hhigh
        obtain ⟨hlaid, hplaced, hstraddles⟩ := h.fill_cons hzero o record records
        obtain ⟨hsound, -, -, hadd⟩ := h.fill hzero record
        have hlen : w.fill.dest.bytes.length = boundary := by
          rw [heq, Writer.fill, List.length_append]
        rw [hlaid, heq, Nat.add_sub_cancel_left, List.drop_left' rfl, ← heq] at hat
        obtain ⟨rd', hreads, hrep⟩ := hsound.loopReads (record :: records) rd st (by rwa [hlen]) hst
        refine ⟨_, rd', hreads, ?_, hrep.congr hstraddles.symm, ?_⟩
        · rw [hplaced, placed]
          by_cases hstart : o ≤ w.nextStart
          · rw [if_pos hstart, if_pos hstart]
            rfl
          · rw [if_neg hstart, if_neg hstart]
        · intro r hr
          have hplace := hsound.beforeRecord (record :: records) hlen.ge r hr
          rwa [hsound.length_cons, hadd] at hplace
    · -- The record ends before the boundary.
      obtain ⟨hstart, hnone⟩ := h.starts_before hnear hbefore
      rw [h.drop_before records hbefore] at hat
      obtain ⟨kept, rd', hreads, hkept, hrep, hplace⟩ :=
        Writer.Sound.loopReads_from hdvd hnear records hnext hbefore rd st hat hst
      refine ⟨kept, rd', hreads, ?_, hrep.congr ?_, hplace⟩
      · rw [placed, if_neg (Nat.not_le.mpr hstart), List.nil_append]
        exact hkept
      · rw [Straddles]
        exact or_iff_right fun hs => hnone hs.2

/-! ## The initial block -/

/-- The position to which `SkipToInitialBlock` skips. -/
def initialBlock (o : ℕ) : ℕ :=
  if kBlockSize - 6 < o % kBlockSize then (o - o % kBlockSize + kBlockSize) % 2^64
  else o - o % kBlockSize

/-- The position is a block boundary. Before it there is no room for a header behind the initial
offset. -/
theorem initialBlock_spec {o : ℕ} (ho : o < 2^64) : kBlockSize ∣ initialBlock o ∧
    initialBlock o < o + kHeaderSize ∧ initialBlock o < 2^64 := by
  unfold initialBlock
  unfold kBlockSize kHeaderSize
  split_ifs <;> omega

/-- A record that is returned does not have its offset before the initial offset, so that no block is
skipped again. -/
theorem BeforeRecord.le {o size pos : ℕ} (h : BeforeRecord o (initialBlock o) size pos)
    (hsize : size < 2^64) : o ≤ pos := by
  obtain ⟨hboundary, offset, hle, haligned, hstart, hroom⟩ := h
  rw [trailer_length] at hstart hroom
  unfold initialBlock at hboundary
  unfold kBlockSize kHeaderSize at *
  split_ifs at hboundary hstart hroom <;> omega

/-- A new reader with an initial offset. -/
def Reader.startingAt (o : ℕ) (bytes : Slice) (checksum failsPastEnd : Bool) : Reader :=
  { file := { rest := bytes, failsPastEnd := failsPastEnd }, checksum := checksum, initialOffset := o }

/-- The first call of `ReadRecord` skips to the initial block, and fails if that lies behind the end of
the file and skipping fails there. -/
theorem Reader.readRecord_startingAt {o : ℕ} (ho : o < 2^64) {bytes : Slice} (hbound : bytes.length < 2^64)
    (checksum failsPastEnd : Bool) :
    (∃ rd' : Reader, (Reader.startingAt o bytes checksum failsPastEnd).readRecord = (none, rd') ∧
      rd'.reports = [] ∧ bytes.length < initialBlock o) ∨
    ∃ rd : Reader, (Reader.startingAt o bytes checksum failsPastEnd).readRecord = rd.readLoop {} ∧
      rd.Stands (bytes.drop (initialBlock o)) kBlockSize (initialBlock o) o ∧ rd.reports = [] := by
  obtain ⟨-, -, hlt⟩ := initialBlock_spec ho
  have hbounded : initialBlock o + (bytes.drop (initialBlock o)).length < 2^64 := by
    rw [List.length_drop]
    omega
  -- The reader at the block.
  set rd : Reader := { startingAt o bytes checksum failsPastEnd with
    endOfBufferOffset := initialBlock o
    file := { rest := bytes.drop (initialBlock o), failsPastEnd := failsPastEnd } } with hrd
  have hstands : rd.Stands (bytes.drop (initialBlock o)) kBlockSize (initialBlock o) o := by
    refine ⟨?_, ?_, ?_, le_refl _, rfl, rfl, rfl, hbounded⟩
    · rw [Nat.sub_self, List.take_zero]
      rfl
    · rw [Nat.sub_self, List.drop_zero]
    · rw [Nat.sub_self]
      rfl
  by_cases hpos : 0 < o
  · have hskip : (startingAt o bytes checksum failsPastEnd).skipToInitialBlock =
        if 0 < initialBlock o then
          if failsPastEnd = true ∧ bytes.length < initialBlock o then
            (false, Reader.reportDrop { startingAt o bytes checksum failsPastEnd with
              endOfBufferOffset := initialBlock o } (initialBlock o) "IO error")
          else (true, rd)
        else (true, { startingAt o bytes checksum failsPastEnd with
          endOfBufferOffset := initialBlock o }) := by
      unfold skipToInitialBlock startingAt
      dsimp only
      rw [← initialBlock]
      simp only [Bool.false_eq_true, false_or]
      rfl
    rw [readRecord, if_pos (show (startingAt o bytes checksum failsPastEnd).lastRecordOffset <
      (startingAt o bytes checksum failsPastEnd).initialOffset from hpos), hskip]
    by_cases hblock : 0 < initialBlock o
    · rw [if_pos hblock]
      by_cases hfail : failsPastEnd = true ∧ bytes.length < initialBlock o
      · rw [if_pos hfail]
        refine Or.inl ⟨_, rfl, ?_, hfail.2⟩
        -- The drop is counted back to the start of the file, which lies before the initial offset.
        have hsub : sub64 (sub64 (initialBlock o) 0) (initialBlock o) = 0 := by
          unfold sub64
          omega
        unfold reportDrop
        rw [if_neg]
        · rfl
        · show ¬o ≤ sub64 (sub64 (initialBlock o) 0) (initialBlock o)
          omega
      · rw [if_neg hfail]
        exact Or.inr ⟨rd, rfl, hstands, rfl⟩
    · rw [if_neg hblock]
      refine Or.inr ⟨rd, ?_, hstands, rfl⟩
      rw [hrd, show initialBlock o = 0 by omega, List.drop_zero]
      rfl
  · -- Without an initial offset, there is nothing to skip.
    obtain rfl : o = 0 := by omega
    exact Or.inr ⟨rd, readRecord_eq rfl, hstands, rfl⟩

/-! ## The records behind the initial offset -/

/-- The records whose first physical record starts at an offset or behind it. -/
def Writer.recordsFrom (o : ℕ) : Writer → List Slice → List Slice
  | _, [] => []
  | w, record :: records =>
    (if o ≤ w.nextStart then [record] else []) ++ (w.addRecord record).2.recordsFrom o records

/-- These are the records that are returned. -/
theorem Writer.placed_records (o : ℕ) : ∀ (records : List Slice) (w : Writer),
    (w.placed o records).map (·.1) = w.recordsFrom o records
  | [], w => rfl
  | record :: records, w => by
    rw [placed, recordsFrom, List.map_append, placed_records o records]
    split_ifs <;> rfl

/-- Behind the end of the file no record starts. -/
theorem Writer.Sound.recordsFrom_eq_nil {o : ℕ} : ∀ (records : List Slice) {w : Writer}, w.Sound →
    w.dest.bytes.length + (w.laidOut records).length < o + kHeaderSize → w.recordsFrom o records = []
  | [], w, h, hend => rfl
  | record :: records, w, h, hend => by
    obtain ⟨-, -, -, -, hnext⟩ := h.addRecord record
    have hroom := h.nextStart_le record
    rw [h.length_cons] at hend
    rw [recordsFrom, if_neg (by omega), List.nil_append]
    exact Writer.Sound.recordsFrom_eq_nil records hnext hend

/-- Behind the end of the file no fragment starts. -/
theorem Writer.Sound.not_straddles {o : ℕ} : ∀ (records : List Slice) {w : Writer}, w.Sound →
    w.dest.bytes.length + (w.laidOut records).length < o + kHeaderSize → ¬w.Straddles o records
  | [], w, h, hend => id
  | record :: records, w, h, hend => by
    obtain ⟨-, -, hbytes, -, hnext⟩ := h.addRecord record
    rw [h.length_cons] at hend
    rintro (⟨-, start, hmem, hge⟩ | hrest)
    · have hroom := mem_starts_room hmem
      rw [hbytes, List.length_append] at hend
      omega
    · exact Writer.Sound.not_straddles records hnext hend hrest

/-- What is read with an initial offset, and when something is reported. -/
theorem readRecords_startingAt (records : List Slice) {o : ℕ} (ho : o < 2^64) (checksum failsPastEnd : Bool)
    (hbound : (Writer.addRecords {} records).dest.bytes.length < 2^64) :
    ∃ rd' : Reader, (Reader.startingAt o (Writer.addRecords {} records).dest.bytes checksum
        failsPastEnd).readRecords ((Writer.recordsFrom o {} records).length + 1) =
      ((Writer.recordsFrom o {} records).map some ++ [none], rd') ∧
      (rd'.reports = [] ↔ ¬Writer.Straddles o {} records) := by
  obtain ⟨-, hbytes⟩ := Writer.Sound.addRecords records Writer.sound_new
  rw [show (({} : Writer).dest.bytes ++ Writer.laidOut {} records) = Writer.laidOut {} records from rfl]
    at hbytes
  obtain ⟨hdvd, hnear, -⟩ := initialBlock_spec ho
  rcases Reader.readRecord_startingAt ho hbound checksum failsPastEnd with
    ⟨rd', hread, hrep, hend⟩ | ⟨rd, hread, hat, hrep⟩
  · -- The file ends before the block, so that nothing is left to read.
    have hbehind : ({} : Writer).dest.bytes.length + (Writer.laidOut {} records).length < o + kHeaderSize := by
      rw [← hbytes]
      show 0 + _ < _
      omega
    rw [Writer.sound_new.recordsFrom_eq_nil records hbehind]
    refine ⟨rd', ?_, ?_⟩
    · rw [List.length_nil, Reader.readRecords, hread]
      rfl
    · exact iff_of_true hrep (Writer.sound_new.not_straddles records hbehind)
  · rw [hbytes] at hat
    obtain ⟨kept, rd', hreads, hkept, hreports, hplace⟩ :=
      Writer.sound_new.loopReads_from hdvd hnear records (Nat.zero_le _) rd {} hat rfl
    have hbehind : ∀ r ∈ kept, o ≤ r.2 := by
      intro r hr
      refine (hplace r hr).le ?_
      rw [← hbytes]
      show 0 + _ < _
      omega
    have hcalls := hreads.readRecords hread hat.initial hbehind
    rw [hkept, Writer.placed_records] at hcalls
    have hlen : kept.length = (Writer.recordsFrom o {} records).length := by
      rw [← Writer.placed_records, ← hkept, List.length_map]
    rw [hlen] at hcalls
    refine ⟨rd', hcalls, ?_⟩
    rw [← hreports.2, hrep]

/-- A reader with an initial offset returns exactly the records whose first physical record starts at the
offset or behind it, in their order, and then nothing. -/
theorem initial_offset_exact (records : List Slice) (o : UInt64) (checksum failsPastEnd : Bool)
    (hbound : (Writer.addRecords {} records).dest.bytes.length < 2^64) :
    ((Reader.startingAt o.toNat (Writer.addRecords {} records).dest.bytes checksum
        failsPastEnd).readRecords ((Writer.recordsFrom o.toNat {} records).length + 1)).1 =
      (Writer.recordsFrom o.toNat {} records).map some ++ [none] := by
  obtain ⟨rd', hcalls, -⟩ := readRecords_startingAt records o.toNat_lt checksum failsPastEnd hbound
  rw [hcalls]

/-- With two short records and an initial offset in the payload of the first one, the second one is
returned. -/
theorem initial_offset_exact_second :
    Writer.recordsFrom 8 {} [[1, 2], [3]] = [[3]] ∧
      ((Reader.startingAt 8 (Writer.addRecords {} [[1, 2], [3]]).dest.bytes true true).readRecords 2).1 =
        [some [3], none] := by
  obtain ⟨hlen, hoffset⟩ := Writer.sound_new.addRecords_length [[1, 2]] (by decide)
  have hstart : (Writer.addRecord {} [1, 2]).2.nextStart = 9 := by
    show (Writer.addRecords {} [[1, 2]]).nextStart = 9
    rw [Writer.nextStart, hlen, hoffset]
    decide
  have hkept : Writer.recordsFrom 8 {} [[1, 2], [3]] = [[3]] := by
    rw [Writer.recordsFrom, if_neg (by decide), Writer.recordsFrom, hstart]
    rfl
  refine ⟨hkept, ?_⟩
  have hread := initial_offset_exact [[1, 2], [3]] 8 true true (by
    rw [(Writer.sound_new.addRecords_length [[1, 2], [3]] (by decide)).1]
    decide)
  rwa [show (8 : UInt64).toNat = 8 from rfl, hkept] at hread

/-! ## Reports about what lies before the initial offset -/

/-- The first block boundary at an offset or behind it. -/
def nextBoundary (o : ℕ) : ℕ := (o + kBlockSize - 1) / kBlockSize * kBlockSize

/-- A fragment of a record that starts before an offset starts behind it exactly when the record ends
behind the next block boundary, since all of its fragments but the first one start with a block. -/
theorem Fragments.straddles_iff {offset o : ℕ} {isBegin : Bool} {data : Slice} {ps : List PhysicalRecord}
    (h : Fragments offset isBegin data ps) : ∀ {pos : ℕ}, FillsBlocks offset ps → offset ≤ kBlockSize →
    pos % kBlockSize = offset % kBlockSize → pos + (trailer offset).length < o →
    ((∃ start ∈ starts pos offset ps, o ≤ start) ↔
      nextBoundary o < pos + (encodeAll offset ps).length) := by
  have hbehind : o ≤ nextBoundary o := by
    unfold nextBoundary kBlockSize
    omega
  have hdvd : kBlockSize ∣ nextBoundary o := Nat.dvd_mul_left _ _
  induction h with
  | @final offset isBegin payload hfit =>
    intro pos _ hle haligned hstart
    have hmod := start_mod hle haligned
    have hend := end_le_boundary (n := kHeaderSize + payload.length) (by omega)
      (hstart.trans_le hbehind) hdvd
    rw [starts, starts, encodeAll, encodeAll, List.append_nil, List.length_append,
      PhysicalRecord.encode_length]
    dsimp only
    constructor
    · rintro ⟨start, hmem, hge⟩
      rw [List.mem_singleton] at hmem
      omega
    · intro hlt
      omega
  | @more offset isBegin payload data ps hfit hrest ih =>
    intro pos hfills hle haligned hstart
    have hmod := start_mod hle haligned
    obtain ⟨hfull, hfills⟩ := hfills
    have hblock : recordStart offset + kHeaderSize + payload.length = kBlockSize := hfull hrest.ne_nil
    rw [hblock] at ih hrest
    set next := pos + (trailer offset).length + (kHeaderSize + payload.length) with hnext
    have hzero : next % kBlockSize = 0 := by
      rw [hnext, Nat.add_mod, hmod, Nat.add_mod_mod, ← Nat.add_assoc, hblock, Nat.mod_self]
    have hend : recordEnd offset ⟨fragmentType isBegin false, payload⟩ = kBlockSize := hblock
    rw [hend] at hfills
    rw [starts, encodeAll, List.length_append, List.length_append, PhysicalRecord.encode_length, hend,
      List.exists_mem_cons_iff, or_iff_right (Nat.not_le.mpr hstart)]
    have hpos : pos + ((trailer offset).length + (kHeaderSize + payload.length) +
        (encodeAll kBlockSize ps).length) = next + (encodeAll kBlockSize ps).length := by omega
    rw [hpos]
    rcases Nat.lt_or_ge next o with hlt | hge
    · refine ih hfills (le_refl _) (by rw [hzero, Nat.mod_self]) ?_
      rwa [trailer_kBlockSize, List.length_nil, Nat.add_zero]
    · -- The next fragment starts behind the offset.
      have hmem : next ∈ starts next kBlockSize ps := by
        cases ps with
        | nil => exact absurd rfl hrest.ne_nil
        | cons p ps =>
          rw [starts, trailer_kBlockSize, List.length_nil, Nat.add_zero]
          exact List.mem_cons_self
      have hroom := mem_starts_room hmem
      refine iff_of_true ⟨next, hmem, hge⟩ ?_
      unfold nextBoundary
      unfold kBlockSize kHeaderSize at *
      omega

/-- A record straddles an offset exactly when one that starts before it ends behind the next block
boundary. -/
theorem Writer.Sound.straddles_iff {o : ℕ} : ∀ (records : List Slice) {w : Writer}, w.Sound →
    (w.Straddles o records ↔ ∃ i < records.length, (w.addRecords (records.take i)).nextStart < o ∧
      nextBoundary o < (w.addRecords (records.take (i + 1))).dest.bytes.length)
  | [], w, h => iff_of_false id fun ⟨i, hi, _⟩ => absurd hi (Nat.not_lt_zero i)
  | record :: records, w, h => by
    obtain ⟨hfrag, hfills, hbytes, -, hnext⟩ := h.addRecord record
    have hfirst : (w.nextStart < o ∧
        ∃ start ∈ starts w.dest.bytes.length w.blockOffset (w.emitted true record), o ≤ start) ↔
        w.nextStart < o ∧ nextBoundary o < (w.addRecord record).2.dest.bytes.length := by
      refine and_congr_right fun hstart => ?_
      rw [hfrag.straddles_iff hfills h.le h.aligned hstart, hbytes, List.length_append]
    rw [Straddles, hfirst, Writer.Sound.straddles_iff records hnext]
    constructor
    · rintro (hhead | ⟨i, hi, hrest⟩)
      · exact ⟨0, Nat.succ_pos _, hhead⟩
      · exact ⟨i + 1, Nat.succ_lt_succ hi, hrest⟩
    · rintro ⟨i, hi, hrest⟩
      cases i with
      | zero => exact Or.inl hrest
      | succ i => exact Or.inr ⟨i, Nat.lt_of_succ_lt_succ hi, hrest⟩

/-- Reading an intact log to its end from an initial offset reports nothing exactly when no record that
starts before the offset ends behind the next block boundary. -/
theorem initial_offset_reports_iff (records : List Slice) (o : UInt64) (checksum failsPastEnd : Bool)
    (hbound : (Writer.addRecords {} records).dest.bytes.length < 2^64) :
    ∃ rd' : Reader, (Reader.startingAt o.toNat (Writer.addRecords {} records).dest.bytes checksum
        failsPastEnd).readRecords ((Writer.recordsFrom o.toNat {} records).length + 1) =
      ((Writer.recordsFrom o.toNat {} records).map some ++ [none], rd') ∧
      (rd'.reports = [] ↔ ∀ i < records.length,
        (Writer.addRecords {} (records.take i)).nextStart < o.toNat →
        (Writer.addRecords {} (records.take (i + 1))).dest.bytes.length ≤ nextBoundary o.toNat) := by
  obtain ⟨rd', hcalls, hreports⟩ := readRecords_startingAt records o.toNat_lt checksum failsPastEnd hbound
  refine ⟨rd', hcalls, ?_⟩
  rw [hreports, Writer.sound_new.straddles_iff]
  constructor
  · intro hnone i hi hstart
    exact Nat.le_of_not_lt fun hlt => hnone ⟨i, hi, hstart, hlt⟩
  · rintro hall ⟨i, hi, hstart, hlt⟩
    exact Nat.not_lt.mpr (hall i hi hstart) hlt

/-! ## A record in two blocks -/

/-- A record that does not fit in the first block, but in two blocks. -/
theorem length_two_blocks {record : Slice} (hlen : record.length = 40000) :
    (Writer.addRecords {} [record]).dest.bytes.length = 40014 := by
  obtain ⟨-, -, hbytes, -, -⟩ := Writer.sound_new.addRecord record
  have hfull : recordStart ({} : Writer).blockOffset + kHeaderSize + 32761 = kBlockSize := by decide
  obtain ⟨w', hworking, hoffset, hemit⟩ :=
    Writer.emitted_of_full Writer.sound_new.working true hfull (show 32761 < record.length by omega)
  have hrest : (record.drop 32761).length = 7239 := by rw [List.length_drop, hlen]
  have hfirst : (record.take 32761).length = 32761 := List.length_take_of_le (by omega)
  have hfit : recordStart w'.blockOffset + kHeaderSize + (record.drop 32761).length ≤ kBlockSize := by
    rw [hoffset, hrest]
    decide
  rw [w'.emitted_of_fit hworking false hfit] at hemit
  have hend : recordEnd ({} : Writer).blockOffset ⟨fragmentType true false, record.take 32761⟩ =
      kBlockSize := by
    rw [recordEnd]
    dsimp only
    rw [hfirst, hfull]
  show (Writer.addRecord {} record).2.dest.bytes.length = 40014
  rw [hbytes, hemit, List.length_append, encodeAll, encodeAll, encodeAll, hend, trailer_kBlockSize,
    List.append_nil, List.nil_append, List.length_append, List.length_append, PhysicalRecord.encode_length,
    PhysicalRecord.encode_length, hfirst, hrest]
  rfl

/-- A log with one record in two blocks. -/
def recordInTwoBlocks : List Slice := [List.replicate 40000 0]

/-- The log of one record of 40000 bytes has two headers more. -/
theorem recordInTwoBlocks_length :
    (Writer.addRecords {} recordInTwoBlocks).dest.bytes.length = 40014 :=
  length_two_blocks List.length_replicate

/-- With an initial offset in the second block of the record, nothing is reported. -/
theorem initial_offset_reports_iff_second_block :
    ∃ rd' : Reader, (Reader.startingAt 32769 (Writer.addRecords {} recordInTwoBlocks).dest.bytes true
        false).readRecords 1 = ([none], rd') ∧ rd'.reports = [] := by
  have hbound : (Writer.addRecords {} recordInTwoBlocks).dest.bytes.length < 2^64 := by
    rw [recordInTwoBlocks_length]
    decide
  obtain ⟨rd', hread, hreports⟩ := initial_offset_reports_iff recordInTwoBlocks 32769 true false hbound
  rw [show (32769 : UInt64).toNat = 32769 from rfl] at hread hreports
  have hkept : Writer.recordsFrom 32769 {} recordInTwoBlocks = [] := by
    rw [recordInTwoBlocks, Writer.recordsFrom, if_neg (by decide)]
    rfl
  rw [hkept] at hread
  refine ⟨rd', hread, hreports.mpr fun i hi _ => ?_⟩
  obtain rfl : i = 0 := Nat.lt_one_iff.mp hi
  show (Writer.addRecords {} recordInTwoBlocks).dest.bytes.length ≤ _
  rw [recordInTwoBlocks_length]
  decide

/-- With the initial offset 1, the second fragment of the record is reported as corruption, though the
record starts before the offset and the log is intact. -/
theorem initial_offset_reports_fragment :
    1 ≤ (Writer.addRecords {} recordInTwoBlocks).dest.bytes.length ∧
      ∃ rd' : Reader, (Reader.startingAt 1 (Writer.addRecords {} recordInTwoBlocks).dest.bytes true
        false).readRecords 1 = ([none], rd') ∧ rd'.reports ≠ [] := by
  have hbound : (Writer.addRecords {} recordInTwoBlocks).dest.bytes.length < 2^64 := by
    rw [recordInTwoBlocks_length]
    decide
  obtain ⟨rd', hread, hreports⟩ :=
    readRecords_startingAt recordInTwoBlocks (by decide : 1 < 2^64) true false hbound
  have hkept : Writer.recordsFrom 1 {} recordInTwoBlocks = [] := by
    rw [recordInTwoBlocks, Writer.recordsFrom, if_neg (by decide)]
    rfl
  rw [hkept] at hread
  refine ⟨by rw [recordInTwoBlocks_length]; decide, rd', hread, fun hnone => hreports.mp hnone ?_⟩
  rw [Writer.sound_new.straddles_iff]
  refine ⟨0, Nat.zero_lt_one, by decide, ?_⟩
  show _ < (Writer.addRecords {} recordInTwoBlocks).dest.bytes.length
  rw [recordInTwoBlocks_length]
  decide

end LevelDb.Log
