import LevelDb.Log.Scan

/-!
# Torn logs

A crash leaves a log that ends anywhere: in a header, in a payload, between two fragments of a
record, or in the zeros of a trailer. The reader leaves each of these through another branch, but it
never returns a part of a record (`Fragments.readLoop_cut`), and it reports every cut except those
between two records.
-/

namespace LevelDb.Log

/-! ## The end of a torn file -/

/-- The reader has nothing left: the buffer is empty, and no more is read. -/
structure Reader.AtEof (rd : Reader) : Prop where
  /-- Nothing is left in the buffer. -/
  buffer : rd.buffer = []
  /-- The last block was read. -/
  eof : rd.eof = true

/-- Nothing follows the end of the file. -/
theorem Reader.AtEof.readPhysicalRecord {rd : Reader} (h : rd.AtEof) :
    rd.readPhysicalRecord = ⟨kEof, [], rd⟩ := by
  have hlen : rd.buffer.length = 0 := by rw [h.buffer, List.length_nil]
  rw [Reader.readPhysicalRecord, if_pos (by rw [hlen]; decide), if_neg (by rw [h.eof]; simp),
    if_pos hlen]

/-- A reader without an initial offset reports every drop. -/
theorem Reader.reportDrop_eq {rd : Reader} (h : rd.initialOffset = 0) (bytes : ℕ)
    (reason : String) :
    rd.reportDrop bytes reason = { rd with reports := rd.reports ++ [(bytes, reason)] } := by
  rw [reportDrop, if_pos (by rw [h]; exact Nat.zero_le _)]

/-- What a reader reports about a part of the file: it says something more if and only if the part
is damaged. -/
def Reports (damaged : Prop) (rd rd' : Reader) : Prop :=
  rd.reports <+: rd'.reports ∧ (rd'.reports = rd.reports ↔ ¬ damaged)

/-- Nothing is reported about an intact part. -/
theorem Reports.of_eq {damaged : Prop} {rd rd' : Reader} (h : rd'.reports = rd.reports)
    (hd : ¬ damaged) : Reports damaged rd rd' := by
  unfold Reports
  rw [h]
  exact ⟨List.prefix_refl _, by simp [hd]⟩

/-- One more report about a damaged part. -/
theorem Reports.of_append {damaged : Prop} {rd rd' : Reader} {report : ℕ × String}
    (h : rd'.reports = rd.reports ++ [report]) (hd : damaged) : Reports damaged rd rd' := by
  unfold Reports
  rw [h]
  exact ⟨List.prefix_append _ _, by simp [hd]⟩

/-- A damaged part stays so, whatever follows it. -/
theorem Reports.trans {damaged damaged' damaged'' : Prop} {rd rd' rd'' : Reader}
    (h : Reports damaged rd rd') (h' : Reports damaged' rd' rd'')
    (hd : damaged'' ↔ damaged ∨ damaged') : Reports damaged'' rd rd'' := by
  obtain ⟨hpre, hiff⟩ := h
  obtain ⟨hpre', hiff'⟩ := h'
  refine ⟨hpre.trans hpre', ?_⟩
  rw [hd, not_or, ← hiff, ← hiff']
  constructor
  · intro heq
    have hmid : rd'.reports = rd.reports := by
      refine List.IsPrefix.eq_of_length (heq ▸ hpre') ?_
      exact le_antisymm ((heq ▸ hpre').length_le) hpre.length_le
    exact ⟨hmid, heq.trans hmid.symm⟩
  · intro ⟨hmid, hlast⟩
    exact hlast.trans hmid

/-- Reports do not depend on how the damage is stated. -/
theorem Reports.congr {damaged damaged' : Prop} {rd rd' : Reader} (h : Reports damaged rd rd')
    (hd : damaged' ↔ damaged) : Reports damaged' rd rd' := by
  unfold Reports at h ⊢
  rwa [hd]

/-- Reports are counted from the reports before. -/
theorem Reports.of_reports_eq {damaged : Prop} {rd rd₁ rd' : Reader} (h : Reports damaged rd₁ rd')
    (hrep : rd₁.reports = rd.reports) : Reports damaged rd rd' := by
  unfold Reports at h ⊢
  rwa [hrep] at h

/-! ## A torn physical record -/

/-- The length field of a header. -/
def lengthField (buffer : Slice) : ℕ :=
  (buffer.getD 4 0).toNat + 2^8 * (buffer.getD 5 0).toNat

/-- The length field lies in the header. -/
theorem lengthField_take {n : ℕ} (h : kHeaderSize ≤ n) (buffer : Slice) :
    lengthField (buffer.take n) = lengthField buffer := by
  have hget : ∀ i, i < n → (buffer.take n).getD i 0 = buffer.getD i 0 := by
    intro i hi
    rw [List.getD_eq_getElem?_getD, List.getD_eq_getElem?_getD, List.getElem?_take, if_pos hi]
  have hseven : kHeaderSize = 7 := rfl
  rw [lengthField, hget 4 (by omega), hget 5 (by omega), lengthField]

/-- The length field of a physical record. -/
theorem lengthField_encode (p : PhysicalRecord) (rest : Slice) (h : p.payload.length < 2^16) :
    lengthField (p.encode ++ rest) = p.payload.length := by
  obtain ⟨b0, b1, b2, b3, hbytes, -⟩ := p.encode_append rest
  rw [hbytes, lengthField]
  simp only [List.getD_cons_succ, List.getD_cons_zero, UInt8.toNat_ofNat']
  omega

/-- Less than a header at the end of the file is no record, and is reported unless it is nothing at
all. -/
theorem Reader.At.readPhysicalRecord_short {rd : Reader} {rest : Slice} {offset : ℕ}
    (h : rd.At rest offset) (hshort : rest.length < kHeaderSize)
    (hlast : rest = [] ∨ rest.length < kBlockSize - offset) :
    ∃ rd' : Reader, rd.readPhysicalRecord = ⟨kEof, [], rd'⟩ ∧ Reports (rest ≠ []) rd rd' := by
  by_cases hempty : rest = []
  · subst hempty
    obtain ⟨rd', hread, hrep⟩ := h.readPhysicalRecord_end
    exact ⟨rd', hread, .of_eq hrep (by simp)⟩
  · have hlast' := hlast.resolve_left hempty
    have hbuf : rd.buffer = rest := by
      rw [h.buffer]
      exact List.take_of_length_le hlast'.le
    have heof : rd.eof = true := by
      rw [h.eof]
      exact decide_eq_true hlast'
    have hpos : ¬ rd.buffer.length = 0 := by
      rw [hbuf]
      exact fun hlen => hempty (List.length_eq_zero_iff.mp hlen)
    refine ⟨{ rd with buffer := [], reports := rd.reports ++
      [(rd.buffer.length, "Corruption: truncated record at end of file")] }, ?_,
      .of_append rfl hempty⟩
    have hdrop := Reader.reportDrop_eq (show Reader.initialOffset { rd with buffer := [] } = 0 from
      h.initial) rd.buffer.length "Corruption: truncated record at end of file"
    rw [Reader.readPhysicalRecord, if_pos (by rw [hbuf]; exact hshort),
      if_neg (by rw [heof]; simp), if_neg hpos]
    exact congrArg (PhysicalResult.mk kEof []) hdrop

/-- A header whose payload is torn off is a bad record, and nothing follows it. -/
theorem Reader.At.readPhysicalRecord_torn {rd : Reader} {p : PhysicalRecord} {offset j : ℕ}
    (h : rd.At (p.encode.take j) offset)
    (hfit : offset + kHeaderSize + p.payload.length ≤ kBlockSize) (hheader : kHeaderSize ≤ j)
    (hj : j < kHeaderSize + p.payload.length) :
    ∃ rd' : Reader, rd.readPhysicalRecord = ⟨kBadRecord, [], rd'⟩ ∧ Reports True rd rd' ∧
      rd'.AtEof := by
  have hlen : (p.encode.take j).length = j := by
    rw [List.length_take, p.encode_length]
    omega
  have hbuf : rd.buffer = p.encode.take j := by
    rw [h.buffer, List.take_of_length_le (by rw [hlen]; omega)]
  have heof : rd.eof = true := by
    rw [h.eof, hlen]
    exact decide_eq_true (by omega)
  -- The length field is whole, and says more than there is.
  have hfield : lengthField rd.buffer = p.payload.length := by
    have hblock : kBlockSize = 32768 := rfl
    rw [hbuf, lengthField_take hheader, ← List.append_nil p.encode]
    exact lengthField_encode p [] (by omega)
  refine ⟨{ rd with buffer := [], reports := rd.reports ++
    [(rd.buffer.length, "Corruption: bad record length")] }, ?_, .of_append rfl trivial, rfl, heof⟩
  have hdrop := Reader.reportDrop_eq (show Reader.initialOffset { rd with buffer := [] } = 0 from
    h.initial) rd.buffer.length "Corruption: bad record length"
  rw [Reader.readPhysicalRecord, if_neg (by rw [hbuf, hlen]; omega), Reader.readHeader]
  dsimp only
  rw [if_pos (by rw [← lengthField, hfield, hbuf, hlen]; exact hj)]
  exact congrArg (PhysicalResult.mk kBadRecord []) hdrop

/-! ## A torn record -/

section

variable {rd rd' : Reader} {st : RecordState} {fragment : Slice}

/-- The end of the file, which is reported inside of a record. -/
theorem Reader.readLoop_eof_reports (h : rd.readPhysicalRecord = ⟨kEof, fragment, rd'⟩)
    (hinit : rd'.initialOffset = 0) :
    ∃ rd'' : Reader, rd.readLoop st = (none, rd'') ∧
      Reports (st.inFragmentedRecord = true) rd' rd'' := by
  cases hst : st.inFragmentedRecord with
  | false => exact ⟨rd', readLoop_eof h hst, .of_eq rfl (by simp)⟩
  | true =>
    refine ⟨rd'.reportCorruption st.scratch.length "partial record without end(3)", ?_, ?_⟩
    · rw [readLoop, h]
      dsimp only
      rw [if_neg (by decide), if_neg (by decide), if_neg (by decide), if_neg (by decide),
        if_pos rfl, if_pos hst]
    · rw [reportCorruption, reportDrop_eq hinit]
      exact .of_append rfl rfl

/-- A bad record, which is reported inside of a record. The state is reset, so that what follows is read
as if it were outside. -/
theorem Reader.readLoop_bad_reports (h : rd.readPhysicalRecord = ⟨kBadRecord, fragment, rd'⟩)
    (hinit : rd'.initialOffset = 0) (st : RecordState) :
    ∃ reports st', rd.readLoop st = Reader.readLoop { rd' with reports := reports } st' ∧
      st'.inFragmentedRecord = false ∧
      Reports (st.inFragmentedRecord = true) rd' { rd' with reports := reports } := by
  cases hst : st.inFragmentedRecord with
  | false => exact ⟨rd'.reports, st, readLoop_bad h hst, hst, .of_eq rfl (by simp)⟩
  | true =>
    have hreset : rd.readLoop st =
        (rd'.reportCorruption st.scratch.length "error in middle of record").readLoop
          { st with scratch := [], inFragmentedRecord := false } := by
      rw [readLoop, h]
      dsimp only
      rw [if_neg (by decide), if_neg (by decide), if_neg (by decide), if_neg (by decide),
        if_neg (by decide), if_pos rfl, if_pos hst]
    rw [reportCorruption, reportDrop_eq hinit] at hreset
    exact ⟨_, _, hreset, rfl, .of_append rfl rfl⟩

/-- A bad record at the end of the file. -/
theorem Reader.readLoop_bad_eof (h : rd.readPhysicalRecord = ⟨kBadRecord, fragment, rd'⟩)
    (hinit : rd'.initialOffset = 0) (heof : rd'.AtEof) :
    ∃ rd'' : Reader, rd.readLoop st = (none, rd'') ∧
      Reports (st.inFragmentedRecord = true) rd' rd'' := by
  obtain ⟨reports, st', hloop, hst', hrep⟩ := readLoop_bad_reports h hinit st
  refine ⟨{ rd' with reports := reports }, ?_, hrep⟩
  rw [hloop]
  exact readLoop_eof (Reader.AtEof.readPhysicalRecord ⟨heof.buffer, heof.eof⟩) hst'

end

/-- A physical record that is cut before its end ends the file. It is reported, unless the cut falls
before its first byte, outside of a record. The trailer before it may be skipped already. -/
theorem Reader.At.readLoop_cut {rd rd₀ : Reader} {p : PhysicalRecord} {rest : Slice} {offset j : ℕ}
    (h : rd.At ((p.encode ++ rest).take j) offset)
    (hskip : rd₀.readPhysicalRecord = rd.readPhysicalRecord)
    (hfit : offset + kHeaderSize + p.payload.length ≤ kBlockSize)
    (hj : j < kHeaderSize + p.payload.length) (st : RecordState) :
    ∃ rd' : Reader, rd₀.readLoop st = (none, rd') ∧
      Reports (0 < j ∨ st.inFragmentedRecord = true) rd rd' := by
  rw [List.take_append_of_le_length (by rw [p.encode_length]; exact hj.le)] at h
  have hlen : (p.encode.take j).length = j := by
    rw [List.length_take, p.encode_length]
    omega
  have hempty : p.encode.take j ≠ [] ↔ 0 < j := by
    rw [← List.length_pos_iff_ne_nil, hlen]
  have hkeep := rd.readPhysicalRecord_initialOffset
  rcases Nat.lt_or_ge j kHeaderSize with hshort | hheader
  · obtain ⟨rd₁, hread, hrep⟩ := h.readPhysicalRecord_short (by rw [hlen]; exact hshort)
      (Or.inr (by rw [hlen]; omega))
    rw [hread, h.initial] at hkeep
    obtain ⟨rd₂, hloop, hrep'⟩ := Reader.readLoop_eof_reports (hskip.trans hread) hkeep
    exact ⟨rd₂, hloop, hrep.trans hrep' (or_congr hempty.symm Iff.rfl)⟩
  · obtain ⟨rd₁, hread, hrep, heof⟩ := h.readPhysicalRecord_torn hfit hheader hj
    rw [hread, h.initial] at hkeep
    obtain ⟨rd₂, hloop, hrep'⟩ := Reader.readLoop_bad_eof (hskip.trans hread) hkeep heof
    have hpos : 0 < j := lt_of_lt_of_le (by decide) hheader
    exact ⟨rd₂, hloop, hrep.trans hrep' (or_congr (iff_of_true hpos trivial) Iff.rfl)⟩

/-- A trailer that is cut ends the file. It is reported, unless the cut falls before its first byte,
outside of a record. -/
theorem Reader.At.readLoop_cut_trailer {rd : Reader} {rest : Slice} {offset k : ℕ}
    (h : rd.At ((trailer offset ++ rest).take k) offset) (hk : k < (trailer offset).length)
    (st : RecordState) :
    ∃ rd' : Reader, rd.readLoop st = (none, rd') ∧
      Reports (0 < k ∨ st.inFragmentedRecord = true) rd rd' := by
  rw [List.take_append_of_le_length hk.le] at h
  have hlen : ((trailer offset).take k).length = k := by
    rw [List.length_take]
    omega
  have hempty : (trailer offset).take k ≠ [] ↔ 0 < k := by
    rw [← List.length_pos_iff_ne_nil, hlen]
  -- There is a trailer only when the block has no room for a header.
  have hroom : kBlockSize - offset < kHeaderSize ∧ k < kBlockSize - offset := by
    unfold trailer at hk
    split_ifs at hk with hfull
    · exact ⟨hfull, by rwa [List.length_replicate] at hk⟩
    · exact absurd hk (Nat.not_lt_zero _)
  have hkeep := rd.readPhysicalRecord_initialOffset
  obtain ⟨rd₁, hread, hrep⟩ := h.readPhysicalRecord_short (by rw [hlen]; omega)
    (Or.inr (by rw [hlen]; exact hroom.2))
  rw [hread, h.initial] at hkeep
  obtain ⟨rd₂, hloop, hrep'⟩ := Reader.readLoop_eof_reports hread hkeep
  exact ⟨rd₂, hloop, hrep.trans hrep' (or_congr hempty.symm Iff.rfl)⟩

/-- A cut in the bytes of a record falls between it and the record before: nothing of it is there but
the trailer before it. -/
def CutBefore (offset k : ℕ) : Prop := k = 0 ∨ k = (trailer offset).length

/-- In the trailer, only a cut at its start falls before the record. -/
theorem cutBefore_iff_of_lt {offset k : ℕ} (h : k < (trailer offset).length) :
    CutBefore offset k ↔ k = 0 := by
  unfold CutBefore
  omega

/-- Behind the trailer, only a cut at the start of the record falls before it. -/
theorem cutBefore_iff_of_ge {offset k : ℕ} (h : (trailer offset).length ≤ k) :
    CutBefore offset k ↔ k - (trailer offset).length = 0 := by
  unfold CutBefore
  omega

/-- A cut damages the record, unless it falls before it and the record begins there. -/
theorem damaged_iff {offset k j : ℕ} {isBegin : Bool} {st : RecordState}
    (hst : st.inFragmentedRecord = !isBegin) (hcut : CutBefore offset k ↔ j = 0) :
    (isBegin = true → ¬ CutBefore offset k) ↔ 0 < j ∨ st.inFragmentedRecord = true := by
  rw [hst, hcut, Nat.pos_iff_ne_zero]
  cases isBegin
  · simp
  · simp

/-- A record that is cut before its end is not returned: the file ends there. The cut is reported
unless it falls before the record. -/
theorem Fragments.readLoop_cut {offset : ℕ} {isBegin : Bool} {data : Slice}
    {ps : List PhysicalRecord} (h : Fragments offset isBegin data ps) :
    ∀ (rd : Reader) (k : ℕ) (st : RecordState), rd.At ((encodeAll offset ps).take k) offset →
    k < (encodeAll offset ps).length → st.inFragmentedRecord = !isBegin →
    ∃ rd' : Reader, rd.readLoop st = (none, rd') ∧
      Reports (isBegin = true → ¬ CutBefore offset k) rd rd' := by
  induction h with
  | @final offset isBegin payload hfit =>
    intro rd k st hat hk hst
    rw [encodeAll, encodeAll, List.append_nil] at hat hk
    rw [List.length_append, PhysicalRecord.encode_length] at hk
    dsimp only at hk
    rcases Nat.lt_or_ge k (trailer offset).length with hcut | hcut
    · obtain ⟨rd', hloop, hrep⟩ := hat.readLoop_cut_trailer hcut st
      exact ⟨rd', hloop, hrep.congr (damaged_iff hst (cutBefore_iff_of_lt hcut))⟩
    · rw [List.take_append, List.take_of_length_le hcut] at hat
      obtain ⟨rd₁, hat₁, hrep₁, hskip⟩ := hat.skip_trailer
      rw [← List.append_nil (PhysicalRecord.encode _)] at hat₁
      obtain ⟨rd₂, hloop, hrep⟩ := hat₁.readLoop_cut hskip hfit (by dsimp only; omega) st
      exact ⟨rd₂, hloop,
        (hrep.of_reports_eq hrep₁).congr (damaged_iff hst (cutBefore_iff_of_ge hcut))⟩
  | @more offset isBegin payload rest' ps hfit hrest ih =>
    intro rd k st hat hk hst
    rw [encodeAll, List.append_assoc] at hat hk
    rw [List.length_append, List.length_append, PhysicalRecord.encode_length] at hk
    dsimp only at hk
    rcases Nat.lt_or_ge k (trailer offset).length with hcut | hcut
    · obtain ⟨rd', hloop, hrep⟩ := hat.readLoop_cut_trailer hcut st
      exact ⟨rd', hloop, hrep.congr (damaged_iff hst (cutBefore_iff_of_lt hcut))⟩
    rw [List.take_append, List.take_of_length_le hcut] at hat
    obtain ⟨rd₁, hat₁, hrep₁, hskip⟩ := hat.skip_trailer
    rcases Nat.lt_or_ge (k - (trailer offset).length) (kHeaderSize + payload.length) with hj | hj
    · obtain ⟨rd₂, hloop, hrep⟩ := hat₁.readLoop_cut hskip hfit hj st
      exact ⟨rd₂, hloop,
        (hrep.of_reports_eq hrep₁).congr (damaged_iff hst (cutBefore_iff_of_ge hcut))⟩
    -- The first fragment is whole, and the cut lies in the rest of the record.
    rw [List.take_append, List.take_of_length_le (by rw [PhysicalRecord.encode_length]; exact hj),
      PhysicalRecord.encode_length] at hat₁
    obtain ⟨rd₂, hread, hat₂, hrep₂⟩ := hat₁.readPhysicalRecord hfit (fragmentType_ne_zero _ _)
    rw [← hskip] at hread
    have hk' : k - (trailer offset).length - (kHeaderSize + payload.length) <
        (encodeAll (recordStart offset + kHeaderSize + payload.length) ps).length := by
      have heq : recordEnd offset ⟨fragmentType isBegin false, payload⟩ =
        recordStart offset + kHeaderSize + payload.length := rfl
      rw [heq] at hk
      omega
    have hpos : 0 < kHeaderSize := by decide
    have hdamaged : isBegin = true → ¬ CutBefore offset k := by
      intro _ hcut'
      unfold CutBefore at hcut'
      omega
    cases isBegin with
    | true =>
      rw [Reader.readLoop_first hread hst]
      obtain ⟨rd₃, hloop, hrep₃⟩ := ih rd₂ _ ⟨payload, true,
        sub64 rd.endOfBufferOffset rd.buffer.length⟩ hat₂ hk' rfl
      exact ⟨rd₃, hloop, (hrep₃.of_reports_eq (hrep₂.trans hrep₁)).congr
        (iff_of_true hdamaged fun h => absurd h Bool.false_ne_true)⟩
    | false =>
      rw [Reader.readLoop_middle hread hst]
      obtain ⟨rd₃, hloop, hrep₃⟩ :=
        ih rd₂ _ { st with scratch := st.scratch ++ payload } hat₂ hk' hst
      exact ⟨rd₃, hloop, (hrep₃.of_reports_eq (hrep₂.trans hrep₁)).congr
        (iff_of_true hdamaged fun h => absurd h Bool.false_ne_true)⟩

/-! ## A torn log -/

/-- The records that lie before a position of the file with all of their bytes, when they are written
by `w`. -/
def recordsBefore (cut : ℕ) : Writer → List Slice → List Slice
  | _, [] => []
  | w, record :: records =>
    if (w.addRecord record).2.dest.bytes.length ≤ cut then
      record :: recordsBefore cut (w.addRecord record).2 records
    else recordsBefore cut (w.addRecord record).2 records

/-- What writing a record adds to a file that does not fail. -/
theorem Writer.addRecord_spec {w : Writer} (hw : w.dest.failures = [])
    (hle : w.blockOffset ≤ kBlockSize) (record : Slice) :
    ∃ ps, Fragments w.blockOffset true record ps ∧
      w.addRecord record = (true, ⟨{ bytes := w.dest.bytes ++ encodeAll w.blockOffset ps },
        endAll w.blockOffset ps⟩) ∧ endAll w.blockOffset ps ≤ kBlockSize := by
  obtain ⟨ps, hps, hadd⟩ := w.addFragments_spec true record hw
  exact ⟨ps, hps, hadd, (hps.length_mod hle).2⟩

/-- No record that is written behind a position lies before it. -/
theorem recordsBefore_of_lt {cut : ℕ} : ∀ {records : List Slice} {w : Writer},
    w.dest.failures = [] → w.blockOffset ≤ kBlockSize → cut < w.dest.bytes.length →
    recordsBefore cut w records = []
  | [], w, _, _, _ => rfl
  | record :: records, w, hw, hle, hcut => by
    obtain ⟨ps, -, hadd, hend⟩ := Writer.addRecord_spec hw hle record
    have hlen : cut < (w.dest.bytes ++ encodeAll w.blockOffset ps).length := by
      rw [List.length_append]
      omega
    rw [recordsBefore, hadd]
    dsimp only
    rw [if_neg (not_le.mpr hlen)]
    exact recordsBefore_of_lt rfl hend hlen

/-- Reading what is written from an offset on, up to a cut, returns the records before the cut. -/
theorem Writer.addRecords_read_cut (cut : ℕ) : ∀ (records : List Slice) (w : Writer),
    w.dest.failures = [] → w.blockOffset ≤ kBlockSize → ∃ bytes,
      (w.addRecords records).dest = { bytes := w.dest.bytes ++ bytes } ∧
      ∀ rd : Reader, rd.At (bytes.take (cut - w.dest.bytes.length)) w.blockOffset →
        w.dest.bytes.length ≤ cut →
        ∃ rd', rd.readRecords ((recordsBefore cut w records).length + 1) =
          ((recordsBefore cut w records).map some ++ [none], rd')
  | [], w, hw, hle => by
    refine ⟨[], by rw [List.append_nil, ← hw]; rfl, fun rd hat _ => ?_⟩
    rw [List.take_nil] at hat
    obtain ⟨rd', hread, -⟩ := hat.readPhysicalRecord_end
    refine ⟨rd', ?_⟩
    rw [recordsBefore, List.length_nil, Reader.readRecords, Reader.readRecord_eq hat.initial,
      Reader.readLoop_eof hread rfl]
    rfl
  | record :: records, w, hw, hle => by
    obtain ⟨ps, hps, hadd, hend⟩ := addRecord_spec hw hle record
    obtain ⟨bytes, hdest, hread⟩ := addRecords_read_cut cut records
      ⟨{ bytes := w.dest.bytes ++ encodeAll w.blockOffset ps }, endAll w.blockOffset ps⟩ rfl hend
    dsimp only at hdest hread
    rw [List.length_append] at hread
    refine ⟨encodeAll w.blockOffset ps ++ bytes, ?_, fun rd hat hcut => ?_⟩
    · rw [addRecords, List.foldl_cons, hadd, ← List.append_assoc]
      exact hdest
    rw [recordsBefore, hadd]
    dsimp only
    rw [List.length_append]
    by_cases hwhole : w.dest.bytes.length + (encodeAll w.blockOffset ps).length ≤ cut
    · -- The record lies before the cut, and is read back.
      rw [if_pos hwhole]
      rw [List.take_append, List.take_of_length_le (by omega), Nat.sub_sub] at hat
      obtain ⟨rd₁, hloop, hat₁, -⟩ := hps.readLoop rd _ {} hat rfl
      obtain ⟨rd₂, hrest⟩ := hread rd₁ hat₁ hwhole
      refine ⟨rd₂, ?_⟩
      rw [List.length_cons, Reader.readRecords, Reader.readRecord_eq hat.initial, hloop]
      dsimp only
      rw [hrest]
      rfl
    · -- The cut falls into the record.
      rw [if_neg hwhole, recordsBefore_of_lt rfl hend
        (show cut < (w.dest.bytes ++ encodeAll w.blockOffset ps).length by
          rw [List.length_append]; omega)]
      rw [List.take_append_of_le_length (by omega)] at hat
      obtain ⟨rd₁, hloop, -⟩ := hps.readLoop_cut rd _ {} hat (by omega) rfl
      refine ⟨rd₁, ?_⟩
      rw [List.length_nil, Reader.readRecords, Reader.readRecord_eq hat.initial, hloop]
      rfl

/-- A writer at the start of a block writes records before the same positions as one at the end of
the block before. -/
theorem recordsBefore_at_block_end (cut : ℕ) (records : List Slice) :
    recordsBefore cut {} records = recordsBefore cut { blockOffset := kBlockSize } records := by
  cases records with
  | nil => rfl
  | cons record records =>
    rw [recordsBefore, recordsBefore, Writer.addRecord_at_block_end]

/-- Whatever records are written to an empty file, and wherever the file is cut, reading what is left
returns the records that lie before the cut with all of their bytes, and then nothing. -/
theorem readRecords_truncated (records : List Slice) (cut : ℕ) :
    let bytes := (Writer.addRecords {} records).dest.bytes
    let whole := recordsBefore cut {} records
    ∃ rd', Reader.readRecords (whole.length + 1)
        { file := { rest := bytes.take cut }, checksum := true } =
      (whole.map some ++ [none], rd') := by
  dsimp only
  rw [Writer.addRecords_at_block_end, recordsBefore_at_block_end]
  obtain ⟨bytes, hdest, hread⟩ := Writer.addRecords_read_cut cut records
    { blockOffset := kBlockSize } rfl (le_refl _)
  rw [hdest]
  exact hread _ (Reader.at_start _ _) (Nat.zero_le _)

/-! ## A cut in the last record -/

/-- Reading what is written from an offset on, up to a cut in the last record: the records before it
are returned, and the cut is reported unless it falls before the last record. -/
theorem Writer.addRecords_read_torn (last : Slice) : ∀ (records : List Slice) (w : Writer),
    w.dest.failures = [] → w.blockOffset ≤ kBlockSize → ∃ whole torn,
      (w.addRecords records).dest = { bytes := w.dest.bytes ++ whole } ∧
      (w.addRecords (records ++ [last])).dest = { bytes := w.dest.bytes ++ (whole ++ torn) } ∧
      ∀ (rd : Reader) (k : ℕ), rd.At (whole ++ torn.take k) w.blockOffset → k < torn.length →
        ∃ rd', rd.readRecords (records.length + 1) = (records.map some ++ [none], rd') ∧
          Reports (¬ CutBefore (w.addRecords records).blockOffset k) rd rd'
  | [], w, hw, hle => by
    obtain ⟨ps, hps, hadd, -⟩ := addRecord_spec hw hle last
    refine ⟨[], encodeAll w.blockOffset ps, by rw [List.append_nil, ← hw]; rfl, ?_, ?_⟩
    · rw [List.nil_append, List.nil_append, addRecords, List.foldl_cons, List.foldl_nil, hadd]
    · intro rd k hat hk
      obtain ⟨rd', hloop, hrep⟩ := hps.readLoop_cut rd k {} hat hk rfl
      refine ⟨rd', ?_, hrep.congr ⟨fun h _ => h, fun h => h rfl⟩⟩
      rw [List.length_nil, Reader.readRecords, Reader.readRecord_eq hat.initial, hloop]
      rfl
  | record :: records, w, hw, hle => by
    obtain ⟨ps, hps, hadd, hend⟩ := addRecord_spec hw hle record
    obtain ⟨whole, torn, hwhole, htorn, hread⟩ := addRecords_read_torn last records
      ⟨{ bytes := w.dest.bytes ++ encodeAll w.blockOffset ps }, endAll w.blockOffset ps⟩ rfl hend
    refine ⟨encodeAll w.blockOffset ps ++ whole, torn, ?_, ?_, fun rd k hat hk => ?_⟩
    · rw [addRecords, List.foldl_cons, hadd, ← List.append_assoc]
      exact hwhole
    · rw [List.cons_append, addRecords, List.foldl_cons, hadd, List.append_assoc, ← List.append_assoc]
      exact htorn
    · rw [List.append_assoc] at hat
      -- A record before the last one is whole, and is read without a report.
      obtain ⟨rd₁, hloop, hat₁, hrep₁⟩ := hps.readLoop rd _ {} hat rfl
      obtain ⟨rd₂, hrest, hrep₂⟩ := hread rd₁ k hat₁ hk
      refine ⟨rd₂, ?_, ?_⟩
      · rw [List.length_cons, Reader.readRecords, Reader.readRecord_eq hat.initial, hloop]
        dsimp only
        rw [hrest]
        rfl
      · rw [addRecords, List.foldl_cons, hadd]
        exact hrep₂.of_reports_eq hrep₁

/-- A cut before a record that starts a block. -/
theorem cutBefore_block_start (k : ℕ) : CutBefore 0 k ↔ CutBefore kBlockSize k := Iff.rfl

/-- A file of records that is cut in the last of them: the records before it are read, and something is
reported unless the cut falls before the last record. -/
theorem readRecords_torn (records : List Slice) (last : Slice) {cut : ℕ}
    (hle : (Writer.addRecords {} records).dest.bytes.length ≤ cut)
    (hlt : cut < (Writer.addRecords {} (records ++ [last])).dest.bytes.length) :
    ∃ rd', Reader.readRecords (records.length + 1)
        { file := { rest := (Writer.addRecords {} (records ++ [last])).dest.bytes.take cut } } =
        (records.map some ++ [none], rd') ∧
      (rd'.reports = [] ↔ CutBefore (Writer.addRecords {} records).blockOffset
        (cut - (Writer.addRecords {} records).dest.bytes.length)) := by
  obtain ⟨whole, torn, hwhole, htorn, hread⟩ := Writer.addRecords_read_torn last records
    { blockOffset := kBlockSize } rfl (le_refl _)
  have hoffset : ∀ k, CutBefore (Writer.addRecords {} records).blockOffset k ↔
      CutBefore (Writer.addRecords { blockOffset := kBlockSize } records).blockOffset k := by
    intro k
    cases records with
    | nil => exact cutBefore_block_start k
    | cons record records =>
      rw [Writer.addRecords, Writer.addRecords, List.foldl_cons, List.foldl_cons,
        Writer.addRecord_at_block_end]
  rw [Writer.addRecords_at_block_end, hwhole] at hle
  rw [Writer.addRecords_at_block_end, htorn] at hlt
  dsimp only at hle hlt
  rw [List.nil_append] at hle hlt
  rw [List.length_append] at hlt
  rw [hoffset, Writer.addRecords_at_block_end, htorn, Writer.addRecords_at_block_end, hwhole]
  dsimp only
  rw [List.nil_append, List.nil_append, List.take_append, List.take_of_length_le hle]
  obtain ⟨rd', hrecords, hrep⟩ := hread _ _ (Reader.at_start _ _)
    (show cut - whole.length < torn.length by omega)
  exact ⟨rd', hrecords, hrep.2.trans not_not⟩

end LevelDb.Log
