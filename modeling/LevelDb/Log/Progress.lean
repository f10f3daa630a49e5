import LevelDb.Log.RoundTrip

/-!
# Progress of the log reader

A call of `ReadRecord` only adds to the reports, and a record that it returns uses up bytes of the
file. Loops that read a log to its end terminate by this.
-/

namespace LevelDb.Log

/-! ## Going on -/

/-- A reader only goes on: nothing is taken back of its reports, and no bytes come back. -/
structure Reader.GoesOn (rd rd' : Reader) : Prop where
  /-- Reports are added at the end. -/
  reports : rd.reports <+: rd'.reports
  /-- No more bytes are left than before. -/
  remaining : rd'.remaining ≤ rd.remaining

/-- A reader that does nothing goes on. -/
theorem Reader.GoesOn.refl (rd : Reader) : rd.GoesOn rd := ⟨List.prefix_refl _, le_refl _⟩

/-- Going on twice is going on. -/
theorem Reader.GoesOn.trans {rd rd' rd'' : Reader} (h : rd.GoesOn rd') (h' : rd'.GoesOn rd'') :
    rd.GoesOn rd'' :=
  ⟨h.reports.trans h'.reports, h'.remaining.trans h.remaining⟩

/-- A report is added behind the ones before, and the reader keeps its place. -/
theorem Reader.goesOn_reportDrop (rd : Reader) (bytes : ℕ) (reason : String) :
    rd.GoesOn (rd.reportDrop bytes reason) := by
  refine ⟨?_, (rd.reportDrop_remaining bytes reason).le⟩
  unfold reportDrop
  split_ifs
  · exact List.prefix_append _ _
  · exact List.prefix_refl _

/-- A report of corruption is added behind the ones before, and the reader keeps its place. -/
theorem Reader.goesOn_reportCorruption (rd : Reader) (bytes : ℕ) (reason : String) :
    rd.GoesOn (rd.reportCorruption bytes reason) := rd.goesOn_reportDrop bytes _

/-- A report of a partial record is added. -/
theorem Reader.goesOn_reportPartial (rd : Reader) (st : RecordState) (reason : String) :
    rd.GoesOn (rd.reportPartial st reason) := by
  unfold reportPartial
  split_ifs
  · exact rd.goesOn_reportCorruption _ _
  · exact .refl rd

/-- Dropping bytes of the buffer leaves fewer bytes and the same reports. -/
theorem Reader.goesOn_dropBuffer (rd : Reader) (buffer : Slice)
    (h : buffer.length ≤ rd.buffer.length) : rd.GoesOn { rd with buffer := buffer } :=
  ⟨List.prefix_refl _, Nat.add_le_add_left h _⟩

/-- Parsing a header takes no report back, and leaves no more bytes than there were. -/
theorem Reader.goesOn_readHeader (rd : Reader) : rd.GoesOn rd.readHeader.reader := by
  have hdrop := rd.goesOn_dropBuffer [] (Nat.zero_le _)
  unfold readHeader
  dsimp only
  split_ifs
  · exact hdrop.trans (goesOn_reportCorruption _ _ _)
  · exact hdrop
  · exact hdrop.trans (goesOn_reportCorruption _ _ _)
  · exact rd.goesOn_dropBuffer _ (by rw [List.length_drop]; exact Nat.sub_le _ _)
  · exact rd.goesOn_dropBuffer _ (by rw [List.length_drop]; exact Nat.sub_le _ _)

/-- `ReadPhysicalRecord` takes no report back, and leaves no more bytes than there were. -/
theorem Reader.goesOn_readPhysicalRecord (rd : Reader) :
    rd.GoesOn rd.readPhysicalRecord.reader := by
  induction rd using Reader.readPhysicalRecord.induct with
  | case1 rd hlen heof hbroken =>
    rw [readPhysicalRecord, if_pos hlen, if_pos heof, if_pos hbroken]
    have hdrop : rd.GoesOn { rd with buffer := [], eof := true } :=
      ⟨List.prefix_refl _, Nat.add_le_add_left (Nat.zero_le _) _⟩
    exact hdrop.trans (goesOn_reportDrop _ _ _)
  | case2 rd hlen heof hbroken ih =>
    rw [readPhysicalRecord, if_pos hlen, if_pos heof, if_neg hbroken]
    have hblock : rd.GoesOn rd.readBlock := ⟨List.prefix_refl _, rd.readBlock_remaining⟩
    exact hblock.trans ih
  | case3 rd hlen heof hempty =>
    rw [readPhysicalRecord, if_pos hlen, if_neg heof, if_pos hempty]
    exact .refl rd
  | case4 rd hlen heof hempty =>
    rw [readPhysicalRecord, if_pos hlen, if_neg heof, if_neg hempty]
    exact (rd.goesOn_dropBuffer [] (Nat.zero_le _)).trans (goesOn_reportCorruption _ _ _)
  | case5 rd hlen =>
    rw [readPhysicalRecord, if_neg hlen]
    exact rd.goesOn_readHeader

/-- Setting the offset of the last record. -/
theorem Reader.goesOn_setLastRecordOffset (rd : Reader) (offset : ℕ) :
    rd.GoesOn { rd with lastRecordOffset := offset } := ⟨List.prefix_refl _, le_refl _⟩

/-! ## Reading on -/

/-- What a call of `ReadRecord` does to a reader. -/
structure ReadsOn (rd : Reader) (r : Option Slice × Reader) : Prop where
  /-- The reader goes on. -/
  goesOn : rd.GoesOn r.2
  /-- A record uses up bytes. -/
  remaining_lt : r.1.isSome = true → r.2.remaining < rd.remaining

/-- Going on before a call that reads on. -/
theorem ReadsOn.of_goesOn {rd rd' : Reader} {r : Option Slice × Reader} (h : rd.GoesOn rd')
    (h' : ReadsOn rd' r) : ReadsOn rd r :=
  ⟨h.trans h'.goesOn, fun hsome => (h'.remaining_lt hsome).trans_le h.remaining⟩

/-- The loop of `ReadRecord` takes no report back, and a record that it returns uses up bytes. -/
theorem Reader.readLoop_readsOn (rd : Reader) (st : RecordState) : ReadsOn rd (rd.readLoop st) := by
  -- Every turn starts with a physical record.
  have hphysical := fun rd : Reader => rd.goesOn_readPhysicalRecord
  have hless : ∀ (rd rd' : Reader), rd.readPhysicalRecord.type ≠ kEof →
      rd.readPhysicalRecord.reader.GoesOn rd' → rd'.remaining < rd.remaining :=
    fun rd rd' hne h => h.remaining.trans_lt (rd.readPhysicalRecord_remaining hne)
  induction rd, st using Reader.readLoop.induct with
  | case1 rd st r hfull =>
    rw [readLoop, if_pos hfull]
    have hrest := (goesOn_reportPartial r.reader st "partial record without end(1)").trans
      (goesOn_setLastRecordOffset _ (sub64 rd.endOfBufferOffset rd.buffer.length))
    exact ⟨(hphysical rd).trans hrest, fun _ => hless rd _ (by rw [hfull]; decide) hrest⟩
  | case2 rd st physicalRecordOffset r h1 hfirst ih =>
    rw [readLoop, if_neg h1, if_pos hfirst]
    exact .of_goesOn ((hphysical rd).trans (goesOn_reportPartial _ _ _)) ih
  | case3 rd st r h1 h2 hmiddle hst ih =>
    rw [readLoop, if_neg h1, if_neg h2, if_pos hmiddle, if_pos hst]
    exact .of_goesOn (hphysical rd) ih
  | case4 rd st r h1 h2 hmiddle hst ih =>
    rw [readLoop, if_neg h1, if_neg h2, if_pos hmiddle, if_neg hst]
    exact .of_goesOn ((hphysical rd).trans (goesOn_reportCorruption _ _ _)) ih
  | case5 rd st r h1 h2 h3 hlast hst =>
    rw [readLoop, if_neg h1, if_neg h2, if_neg h3, if_pos hlast, if_pos hst]
    have hrest := goesOn_setLastRecordOffset r.reader st.prospectiveRecordOffset
    exact ⟨(hphysical rd).trans hrest, fun _ => hless rd _ (by rw [hlast]; decide) hrest⟩
  | case6 rd st r h1 h2 h3 hlast hst ih =>
    rw [readLoop, if_neg h1, if_neg h2, if_neg h3, if_pos hlast, if_neg hst]
    exact .of_goesOn ((hphysical rd).trans (goesOn_reportCorruption _ _ _)) ih
  | case7 rd st r h1 h2 h3 h4 heof hst =>
    rw [readLoop, if_neg h1, if_neg h2, if_neg h3, if_neg h4, if_pos heof, if_pos hst]
    exact ⟨(hphysical rd).trans (goesOn_reportCorruption _ _ _), fun h => by cases h⟩
  | case8 rd st r h1 h2 h3 h4 heof hst =>
    rw [readLoop, if_neg h1, if_neg h2, if_neg h3, if_neg h4, if_pos heof, if_neg hst]
    exact ⟨hphysical rd, fun h => by cases h⟩
  | case9 rd st r h1 h2 h3 h4 hne hbad hst ih =>
    rw [readLoop, if_neg h1, if_neg h2, if_neg h3, if_neg h4, if_neg hne, if_pos hbad, if_pos hst]
    exact .of_goesOn ((hphysical rd).trans (goesOn_reportCorruption _ _ _)) ih
  | case10 rd st r h1 h2 h3 h4 hne hbad hst ih =>
    rw [readLoop, if_neg h1, if_neg h2, if_neg h3, if_neg h4, if_neg hne, if_pos hbad, if_neg hst]
    exact .of_goesOn (hphysical rd) ih
  | case11 rd st r h1 h2 h3 h4 hne hbad ih =>
    rw [readLoop, if_neg h1, if_neg h2, if_neg h3, if_neg h4, if_neg hne, if_neg hbad]
    exact .of_goesOn ((hphysical rd).trans (goesOn_reportCorruption _ _ _)) ih

/-- Skipping to the initial block goes on. -/
theorem Reader.goesOn_skipToInitialBlock (rd : Reader) : rd.GoesOn rd.skipToInitialBlock.2 := by
  have hoffset (offset : ℕ) : rd.GoesOn { rd with endOfBufferOffset := offset } :=
    ⟨List.prefix_refl _, le_refl _⟩
  have hskip (offset n : ℕ) : rd.GoesOn { rd with
      endOfBufferOffset := offset, file := { rd.file with rest := rd.file.rest.drop n } } :=
    ⟨List.prefix_refl _, Nat.add_le_add_right (by rw [List.length_drop]; exact Nat.sub_le _ _) _⟩
  unfold skipToInitialBlock
  dsimp only
  generalize (if kBlockSize - 6 < rd.initialOffset % kBlockSize then
    (rd.initialOffset - rd.initialOffset % kBlockSize + kBlockSize) % 2^64
    else rd.initialOffset - rd.initialOffset % kBlockSize) = start
  split_ifs
  · exact (hoffset start).trans (goesOn_reportDrop _ _ _)
  · exact hskip start start
  · exact hoffset start

/-- `ReadRecord` takes no report back, and a record that it returns uses up bytes. -/
theorem Reader.readRecord_readsOn (rd : Reader) : ReadsOn rd rd.readRecord := by
  unfold readRecord
  dsimp only
  split_ifs
  · exact .of_goesOn rd.goesOn_skipToInitialBlock (readLoop_readsOn _ _)
  · exact ⟨rd.goesOn_skipToInitialBlock, fun h => by cases h⟩
  · exact rd.readLoop_readsOn {}

/-- Calls of `ReadRecord` only add to the reports. -/
theorem Reader.readRecords_reports : ∀ (n : ℕ) (rd : Reader),
    rd.reports <+: (rd.readRecords n).2.reports
  | 0, _ => List.prefix_refl _
  | n + 1, rd => rd.readRecord_readsOn.goesOn.reports.trans (readRecords_reports n rd.readRecord.2)

end LevelDb.Log
