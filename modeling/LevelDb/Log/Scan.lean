import LevelDb.Log.RoundTrip

/-!
# Scanning and assembling

Reading a log has two layers. `Reader.scan` is what the calls of `ReadPhysicalRecord` return one
after the other, up to the end of the file; `assemble` is what the switch of `ReadRecord` makes of
it. `Reader.readRecords_scan` says that `ReadRecord` is the one after the other, for every file, and
so the damage that a file has taken can be followed through each layer on its own.
-/

namespace LevelDb.Log

/-! ## Reports do not matter -/

/-- A reader without what it has reported and returned so far. -/
def Reader.input (rd : Reader) : Reader := { rd with lastRecordOffset := 0, reports := [] }

theorem Reader.setLastRecordOffset_input (rd : Reader) (n : ℕ) :
    Reader.input { rd with lastRecordOffset := n } = rd.input := rfl

@[simp] theorem Reader.reportDrop_input (rd : Reader) (bytes : ℕ) (reason : String) :
    (rd.reportDrop bytes reason).input = rd.input := by
  unfold reportDrop
  split_ifs <;> rfl

@[simp] theorem Reader.reportCorruption_input (rd : Reader) (bytes : ℕ) (reason : String) :
    (rd.reportCorruption bytes reason).input = rd.input := rd.reportDrop_input _ _

@[simp] theorem Reader.reportPartial_input (rd : Reader) (st : RecordState) (reason : String) :
    (rd.reportPartial st reason).input = rd.input := by
  unfold reportPartial
  split_ifs
  · exact rd.reportCorruption_input _ _
  · rfl

/-- What `ReadPhysicalRecord` returns does not depend on earlier reports and records. -/
structure PhysicalResult.Same (r r' : PhysicalResult) : Prop where
  /-- The same type or code. -/
  type : r.type = r'.type
  /-- The same fragment. -/
  fragment : r.fragment = r'.fragment
  /-- The readers differ in reports only. -/
  reader : r.reader.input = r'.reader.input

/-- Parsing a header does not depend on earlier reports and records. -/
theorem Reader.readHeader_input (rd : Reader) : rd.input.readHeader.Same rd.readHeader := by
  unfold readHeader
  simp only [show rd.input.buffer = rd.buffer from rfl,
    show rd.input.checksum = rd.checksum from rfl,
    show rd.input.endOfBufferOffset = rd.endOfBufferOffset from rfl,
    show rd.input.initialOffset = rd.initialOffset from rfl]
  split_ifs
  · exact ⟨rfl, rfl, by rw [reportCorruption_input, reportCorruption_input]; rfl⟩
  · exact ⟨rfl, rfl, rfl⟩
  · exact ⟨rfl, rfl, by rw [reportCorruption_input, reportCorruption_input]; rfl⟩
  · exact ⟨rfl, rfl, rfl⟩
  · exact ⟨rfl, rfl, rfl⟩

/-- Reading a physical record does not depend on earlier reports and records. -/
theorem Reader.readPhysicalRecord_input (rd : Reader) :
    rd.input.readPhysicalRecord.Same rd.readPhysicalRecord := by
  have hbuffer (rd : Reader) : rd.input.buffer = rd.buffer := rfl
  have heofs (rd : Reader) : rd.input.eof = rd.eof := rfl
  have hfile (rd : Reader) : rd.input.file = rd.file := rfl
  induction rd using Reader.readPhysicalRecord.induct with
  | case1 rd hlen heof hbroken =>
    rw [readPhysicalRecord, hbuffer, heofs, hfile, if_pos hlen, if_pos heof, if_pos hbroken,
      readPhysicalRecord, if_pos hlen, if_pos heof, if_pos hbroken]
    exact ⟨rfl, rfl, by rw [reportDrop_input, reportDrop_input]; rfl⟩
  | case2 rd hlen heof hbroken ih =>
    rw [readPhysicalRecord, hbuffer, heofs, hfile, if_pos hlen, if_pos heof, if_neg hbroken]
    conv_rhs => rw [readPhysicalRecord, if_pos hlen, if_pos heof, if_neg hbroken]
    exact ih
  | case3 rd hlen heof hempty =>
    rw [readPhysicalRecord, hbuffer, heofs, if_pos hlen, if_neg heof, if_pos hempty,
      readPhysicalRecord, if_pos hlen, if_neg heof, if_pos hempty]
    exact ⟨rfl, rfl, rfl⟩
  | case4 rd hlen heof hempty =>
    rw [readPhysicalRecord, hbuffer, heofs, if_pos hlen, if_neg heof, if_neg hempty,
      readPhysicalRecord, if_pos hlen, if_neg heof, if_neg hempty]
    exact ⟨rfl, rfl, by rw [reportCorruption_input, reportCorruption_input]; rfl⟩
  | case5 rd hlen =>
    rw [readPhysicalRecord, hbuffer, if_neg hlen, readPhysicalRecord, if_neg hlen]
    exact rd.readHeader_input

/-! ## Scanning -/

/-- What the calls of `ReadPhysicalRecord` return up to the end of the file: types or codes, and
fragments. -/
def Reader.scan (rd : Reader) : List (ℕ × Slice) :=
  let r := rd.readPhysicalRecord
  if r.type = kEof then [] else (r.type, r.fragment) :: r.reader.scan
termination_by rd.remaining
decreasing_by
  rename_i hne
  exact rd.readPhysicalRecord_remaining hne

/-- At the end of the file a scan has nothing more. -/
theorem Reader.scan_eof {rd rd' : Reader} {fragment : Slice}
    (h : rd.readPhysicalRecord = ⟨kEof, fragment, rd'⟩) : rd.scan = [] := by
  rw [scan, h]
  exact if_pos rfl

/-- A scan has what `ReadPhysicalRecord` returns first, and then the scan from there on. -/
theorem Reader.scan_cons {rd rd' : Reader} {type : ℕ} {fragment : Slice}
    (h : rd.readPhysicalRecord = ⟨type, fragment, rd'⟩) (hne : type ≠ kEof) :
    rd.scan = (type, fragment) :: rd'.scan := by
  rw [scan, h]
  exact if_neg hne

/-- A scan does not depend on earlier reports and records. -/
theorem Reader.scan_congr (rd : Reader) : ∀ rd' : Reader, rd'.input = rd.input →
    rd'.scan = rd.scan := by
  induction rd using Reader.scan.induct with
  | case1 rd r heof =>
    intro rd' h
    have hsame := rd'.readPhysicalRecord_input
    rw [h] at hsame
    have htype := hsame.type.symm.trans rd.readPhysicalRecord_input.type
    have hscan : rd.scan = [] := by
      rw [scan]
      exact if_pos heof
    rw [hscan, scan, htype]
    exact if_pos heof
  | case2 rd r hne ih =>
    intro rd' h
    have hsame := rd'.readPhysicalRecord_input
    rw [h] at hsame
    have hsame' := rd.readPhysicalRecord_input
    have hrest := ih _ (hsame.reader.symm.trans hsame'.reader)
    have htype := hsame.type.symm.trans hsame'.type
    rw [scan_cons rfl hne, scan_cons rfl (htype ▸ hne), htype,
      hsame.fragment.symm.trans hsame'.fragment, hrest]

/-! ## Assembling -/

/-- What `ReadRecord` makes of a scan: the records that its calls return. The first argument is the
part of a record that was read so far, or `none` outside of a record. -/
def assemble : Option Slice → List (ℕ × Slice) → List Slice
  | _, [] => []
  | scratch, (type, fragment) :: es =>
    if type = RecordType.full.toNat then fragment :: assemble none es
    else if type = RecordType.first.toNat then assemble (some fragment) es
    else if type = RecordType.middle.toNat then assemble (scratch.map (· ++ fragment)) es
    else if type = RecordType.last.toNat then
      (scratch.map (· ++ fragment)).toList ++ assemble none es
    else assemble none es

/-- The part of a record that was read so far. -/
def RecordState.partRead (st : RecordState) : Option Slice :=
  if st.inFragmentedRecord then some st.scratch else none

/-- The result of a call of `ReadRecord` against the records of the scan. -/
def ReturnsFirst (records : List Slice) (r : Option Slice × Reader) : Prop :=
  match records with
  | [] => r.1 = none
  | record :: records => r.1 = some record ∧ assemble none r.2.scan = records

/-- A bad or unknown record ends the record that was read so far. -/
theorem assemble_other {type : ℕ} {fragment : Slice} {es : List (ℕ × Slice)} (scratch : Option Slice)
    (hfull : type ≠ RecordType.full.toNat) (hfirst : type ≠ RecordType.first.toNat)
    (hmiddle : type ≠ RecordType.middle.toNat) (hlast : type ≠ RecordType.last.toNat) :
    assemble scratch ((type, fragment) :: es) = assemble none es := by
  rw [assemble, if_neg hfull, if_neg hfirst, if_neg hmiddle, if_neg hlast]

/-- The loop of `ReadRecord` returns the first record of what is left of the scan. -/
theorem Reader.readLoop_returnsFirst (rd : Reader) (st : RecordState) :
    ReturnsFirst (assemble st.partRead rd.scan) (rd.readLoop st) := by
  -- One step of the scan, with any reports made after it.
  have hscan : ∀ rd rd' : Reader, rd.readPhysicalRecord.type ≠ kEof →
      rd'.input = rd.readPhysicalRecord.reader.input →
      rd.scan = (rd.readPhysicalRecord.type, rd.readPhysicalRecord.fragment) :: rd'.scan := by
    intro rd rd' hne hinput
    rw [scan_cons rfl hne, scan_congr _ rd' hinput]
  induction rd, st using Reader.readLoop.induct with
  | case1 rd st r hfull =>
    have hloop : rd.readLoop st = (some r.fragment,
        { r.reader.reportPartial st "partial record without end(1)" with
          lastRecordOffset := sub64 rd.endOfBufferOffset rd.buffer.length }) := by
      rw [readLoop, if_pos hfull]
    have hrest := hscan rd (rd.readLoop st).2 (by rw [hfull]; decide)
      (by rw [hloop, setLastRecordOffset_input, reportPartial_input])
    rw [hrest, assemble, if_pos hfull]
    exact ⟨by rw [hloop], rfl⟩
  | case2 rd st physicalRecordOffset r h1 hfirst ih =>
    rw [hscan rd _ (by rw [hfirst]; decide) (reportPartial_input _ st "partial record without end(2)"),
      assemble, if_neg h1, if_pos hfirst]
    rw [readLoop, if_neg h1, if_pos hfirst]
    exact ih
  | case3 rd st r h1 h2 hmiddle hst ih =>
    rw [hscan rd _ (by rw [hmiddle]; decide) rfl, assemble, if_neg h1, if_neg h2, if_pos hmiddle]
    rw [readLoop, if_neg h1, if_neg h2, if_pos hmiddle, if_pos hst]
    rw [RecordState.partRead, if_pos hst] at ih ⊢
    exact ih
  | case4 rd st r h1 h2 hmiddle hst ih =>
    rw [hscan rd _ (by rw [hmiddle]; decide) (reportCorruption_input _ r.fragment.length
      "missing start of fragmented record(1)"), assemble, if_neg h1, if_neg h2, if_pos hmiddle]
    rw [readLoop, if_neg h1, if_neg h2, if_pos hmiddle, if_neg hst]
    rw [RecordState.partRead, if_neg hst] at ih ⊢
    exact ih
  | case5 rd st r h1 h2 h3 hlast hst =>
    have hloop : rd.readLoop st = (some (st.scratch ++ r.fragment),
        { r.reader with lastRecordOffset := st.prospectiveRecordOffset }) := by
      rw [readLoop, if_neg h1, if_neg h2, if_neg h3, if_pos hlast, if_pos hst]
    have hrest := hscan rd (rd.readLoop st).2 (by rw [hlast]; decide)
      (by rw [hloop, setLastRecordOffset_input])
    rw [hrest, assemble, if_neg h1, if_neg h2, if_neg h3, if_pos hlast, RecordState.partRead,
      if_pos hst]
    exact ⟨by rw [hloop], rfl⟩
  | case6 rd st r h1 h2 h3 hlast hst ih =>
    rw [hscan rd _ (by rw [hlast]; decide) (reportCorruption_input _ r.fragment.length
      "missing start of fragmented record(2)"), assemble, if_neg h1, if_neg h2, if_neg h3,
      if_pos hlast]
    rw [readLoop, if_neg h1, if_neg h2, if_neg h3, if_pos hlast, if_neg hst]
    rw [RecordState.partRead, if_neg hst] at ih ⊢
    exact ih
  | case7 rd st r h1 h2 h3 h4 heof hst =>
    have hend : rd.scan = [] := by
      rw [scan]
      exact if_pos heof
    rw [hend, assemble, readLoop, if_neg h1, if_neg h2, if_neg h3, if_neg h4, if_pos heof,
      if_pos hst]
    rfl
  | case8 rd st r h1 h2 h3 h4 heof hst =>
    have hend : rd.scan = [] := by
      rw [scan]
      exact if_pos heof
    rw [hend, assemble, readLoop, if_neg h1, if_neg h2, if_neg h3, if_neg h4, if_pos heof,
      if_neg hst]
    rfl
  | case9 rd st r h1 h2 h3 h4 hne hbad hst ih =>
    rw [hscan rd _ hne (reportCorruption_input _ st.scratch.length "error in middle of record"),
      assemble_other _ h1 h2 h3 h4]
    rw [readLoop, if_neg h1, if_neg h2, if_neg h3, if_neg h4, if_neg hne, if_pos hbad, if_pos hst]
    exact ih
  | case10 rd st r h1 h2 h3 h4 hne hbad hst ih =>
    rw [hscan rd _ hne rfl, assemble_other _ h1 h2 h3 h4]
    rw [readLoop, if_neg h1, if_neg h2, if_neg h3, if_neg h4, if_neg hne, if_pos hbad, if_neg hst]
    rw [RecordState.partRead, if_neg hst] at ih
    exact ih
  | case11 rd st r h1 h2 h3 h4 hne hbad ih =>
    rw [hscan rd _ hne (reportCorruption_input _ _ ("unknown record type " ++ toString r.type)),
      assemble_other _ h1 h2 h3 h4]
    rw [readLoop, if_neg h1, if_neg h2, if_neg h3, if_neg h4, if_neg hne, if_neg hbad]
    exact ih

/-! ## The initial offset stays -/

theorem Reader.setLastRecordOffset_initialOffset (rd : Reader) (n : ℕ) :
    Reader.initialOffset { rd with lastRecordOffset := n } = rd.initialOffset := rfl

@[simp] theorem Reader.reportDrop_initialOffset (rd : Reader) (bytes : ℕ) (reason : String) :
    (rd.reportDrop bytes reason).initialOffset = rd.initialOffset := by
  unfold reportDrop
  split_ifs <;> rfl

@[simp] theorem Reader.reportCorruption_initialOffset (rd : Reader) (bytes : ℕ) (reason : String) :
    (rd.reportCorruption bytes reason).initialOffset = rd.initialOffset :=
  rd.reportDrop_initialOffset _ _

@[simp] theorem Reader.reportPartial_initialOffset (rd : Reader) (st : RecordState)
    (reason : String) : (rd.reportPartial st reason).initialOffset = rd.initialOffset := by
  unfold reportPartial
  split_ifs
  · exact rd.reportCorruption_initialOffset _ _
  · rfl

/-- Reading a physical record does not change the initial offset. -/
@[simp] theorem Reader.readPhysicalRecord_initialOffset (rd : Reader) :
    rd.readPhysicalRecord.reader.initialOffset = rd.initialOffset := by
  induction rd using Reader.readPhysicalRecord.induct with
  | case1 rd hlen heof hbroken =>
    rw [readPhysicalRecord, if_pos hlen, if_pos heof, if_pos hbroken]
    exact reportDrop_initialOffset _ _ _
  | case2 rd hlen heof hbroken ih =>
    rw [readPhysicalRecord, if_pos hlen, if_pos heof, if_neg hbroken]
    exact ih
  | case3 rd hlen heof hempty =>
    rw [readPhysicalRecord, if_pos hlen, if_neg heof, if_pos hempty]
  | case4 rd hlen heof hempty =>
    rw [readPhysicalRecord, if_pos hlen, if_neg heof, if_neg hempty]
    exact reportDrop_initialOffset _ _ _
  | case5 rd hlen =>
    rw [readPhysicalRecord, if_neg hlen]
    unfold readHeader reportCorruption
    dsimp only
    split_ifs <;> simp only [reportDrop_initialOffset]

/-- Reading a record does not change the initial offset. -/
theorem Reader.readLoop_initialOffset (rd : Reader) (st : RecordState) :
    (rd.readLoop st).2.initialOffset = rd.initialOffset := by
  induction rd, st using Reader.readLoop.induct with
  | case1 rd st r h =>
    rw [readLoop, if_pos h, setLastRecordOffset_initialOffset, reportPartial_initialOffset,
      readPhysicalRecord_initialOffset]
  | case2 rd st offset r h1 h ih => rw [readLoop, if_neg h1, if_pos h, ih]; simp [r]
  | case3 rd st r h1 h2 h hst ih =>
    rw [readLoop, if_neg h1, if_neg h2, if_pos h, if_pos hst, ih]
    exact rd.readPhysicalRecord_initialOffset
  | case4 rd st r h1 h2 h hst ih =>
    rw [readLoop, if_neg h1, if_neg h2, if_pos h, if_neg hst, ih]
    simp [r]
  | case5 rd st r h1 h2 h3 h hst =>
    rw [readLoop, if_neg h1, if_neg h2, if_neg h3, if_pos h, if_pos hst,
      setLastRecordOffset_initialOffset, readPhysicalRecord_initialOffset]
  | case6 rd st r h1 h2 h3 h hst ih =>
    rw [readLoop, if_neg h1, if_neg h2, if_neg h3, if_pos h, if_neg hst, ih]
    simp [r]
  | case7 rd st r h1 h2 h3 h4 h hst =>
    rw [readLoop, if_neg h1, if_neg h2, if_neg h3, if_neg h4, if_pos h, if_pos hst]
    simp
  | case8 rd st r h1 h2 h3 h4 h hst =>
    rw [readLoop, if_neg h1, if_neg h2, if_neg h3, if_neg h4, if_pos h, if_neg hst]
    exact rd.readPhysicalRecord_initialOffset
  | case9 rd st r h1 h2 h3 h4 h5 h hst ih =>
    rw [readLoop, if_neg h1, if_neg h2, if_neg h3, if_neg h4, if_neg h5, if_pos h, if_pos hst, ih]
    simp [r]
  | case10 rd st r h1 h2 h3 h4 h5 h hst ih =>
    rw [readLoop, if_neg h1, if_neg h2, if_neg h3, if_neg h4, if_neg h5, if_pos h, if_neg hst, ih]
    exact rd.readPhysicalRecord_initialOffset
  | case11 rd st r h1 h2 h3 h4 h5 h6 ih =>
    rw [readLoop, if_neg h1, if_neg h2, if_neg h3, if_neg h4, if_neg h5, if_neg h6]
    refine ih.trans ?_
    rw [reportCorruption_initialOffset, readPhysicalRecord_initialOffset]

/-- `ReadRecord` returns the records of the scan, and then nothing. -/
theorem Reader.readRecords_scan (records : List Slice) : ∀ rd : Reader, rd.initialOffset = 0 →
    assemble none rd.scan = records →
    ∃ rd', rd.readRecords (records.length + 1) = (records.map some ++ [none], rd') := by
  induction records with
  | nil =>
    intro rd hinit hscan
    have hfirst := rd.readLoop_returnsFirst {}
    rw [show RecordState.partRead {} = none from rfl, hscan] at hfirst
    refine ⟨(rd.readLoop {}).2, ?_⟩
    rw [List.length_nil, readRecords, readRecord_eq hinit]
    exact congrArg (fun o => ([o], (rd.readLoop {}).2)) hfirst
  | cons record records ih =>
    intro rd hinit hscan
    have hfirst := rd.readLoop_returnsFirst {}
    rw [show RecordState.partRead {} = none from rfl, hscan] at hfirst
    obtain ⟨hrecord, hrest⟩ := hfirst
    obtain ⟨rd', hread⟩ := ih _ ((rd.readLoop_initialOffset {}).trans hinit) hrest
    refine ⟨rd', ?_⟩
    rw [List.length_cons, readRecords, readRecord_eq hinit, hread, hrecord]
    rfl

end LevelDb.Log
