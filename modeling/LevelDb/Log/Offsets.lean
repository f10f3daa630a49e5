import LevelDb.Log.Placed

/-!
# The offsets of records

What the calls of `ReadRecord` return for a log, with `LastRecordOffset` after each of them. The reader
takes the offset of a record from where it stands before it fetches the first physical record, which is
the end of the record before. The writer places the header behind the trailer, so that the two differ
when there is one (`last_record_offset_iff`).
-/

namespace LevelDb.Log

/-! ## What a writer lays out -/

/-- A writer whose file has not failed, and whose block offset is that of its file. -/
structure Writer.Sound (w : Writer) : Prop where
  /-- Appending does not fail. -/
  working : w.dest.failures = []
  /-- The offset lies in the block. -/
  le : w.blockOffset ≤ kBlockSize
  /-- The offset is that of the end of the file. -/
  aligned : w.dest.bytes.length % kBlockSize = w.blockOffset % kBlockSize

/-- A new writer, which has placed no records, meets the invariant. -/
theorem Writer.sound_new : Writer.Sound {} := ⟨rfl, Nat.zero_le _, rfl⟩

section

variable {w : Writer}

/-- What `AddRecord` emits, and the writer after it. -/
theorem Writer.Sound.addRecord (h : w.Sound) (record : Slice) :
    Fragments w.blockOffset true record (w.emitted true record) ∧
      FillsBlocks w.blockOffset (w.emitted true record) ∧
      (w.addRecord record).2.dest.bytes =
        w.dest.bytes ++ encodeAll w.blockOffset (w.emitted true record) ∧
      (w.addRecord record).2.blockOffset = endAll w.blockOffset (w.emitted true record) ∧
      (w.addRecord record).2.Sound := by
  obtain ⟨hfrag, hfills, hadd⟩ := w.addFragments_emitted true record h.working
  obtain ⟨hmod, hend⟩ := hfrag.length_mod h.le
  have heq : w.addRecord record = (true,
      ⟨{ bytes := w.dest.bytes ++ encodeAll w.blockOffset (w.emitted true record) },
        endAll w.blockOffset (w.emitted true record)⟩) := hadd
  rw [heq]
  refine ⟨hfrag, hfills, rfl, rfl, rfl, hend, ?_⟩
  dsimp only
  rw [List.length_append, Nat.add_mod, h.aligned, ← Nat.add_mod, hmod]

end

/-- What a writer appends to its file for records. -/
def Writer.laidOut : Writer → List Slice → Slice
  | _, [] => []
  | w, record :: records =>
    encodeAll w.blockOffset (w.emitted true record) ++ (w.addRecord record).2.laidOut records

/-- Writing records keeps the writer sound and appends what is laid out for them. -/
theorem Writer.Sound.addRecords : ∀ (records : List Slice) {w : Writer}, w.Sound →
    (w.addRecords records).Sound ∧
      (w.addRecords records).dest.bytes = w.dest.bytes ++ w.laidOut records
  | [], w, h => ⟨h, (List.append_nil _).symm⟩
  | record :: records, w, h => by
    obtain ⟨-, -, hbytes, -, hnext⟩ := h.addRecord record
    obtain ⟨hsound, hrest⟩ := Writer.Sound.addRecords records hnext
    refine ⟨hsound, ?_⟩
    rw [Writer.laidOut, ← List.append_assoc, ← hbytes]
    exact hrest

/-- The records that start behind an offset, each with the end of the record before it. -/
def Writer.placed (o : ℕ) : Writer → List Slice → List (Slice × ℕ)
  | _, [] => []
  | w, record :: records =>
    (if o ≤ w.nextStart then [(record, w.dest.bytes.length)] else []) ++
      (w.addRecord record).2.placed o records

/-- A record starts before an offset, and one of its fragments behind it. -/
def Writer.Straddles (o : ℕ) : Writer → List Slice → Prop
  | _, [] => False
  | w, record :: records =>
    (w.nextStart < o ∧
      ∃ start ∈ starts w.dest.bytes.length w.blockOffset (w.emitted true record), o ≤ start) ∨
      (w.addRecord record).2.Straddles o records

/-! ## The end of a block -/

/-- A writer that has filled the trailer of its block. -/
def Writer.fill (w : Writer) : Writer :=
  ⟨{ bytes := w.dest.bytes ++ trailer w.blockOffset }, kBlockSize⟩

/-- At the end of a block there is no trailer. -/
theorem trailer_kBlockSize : trailer kBlockSize = [] := by
  rw [← List.length_eq_zero_iff, trailer_length]
  decide

/-- Fragments that start with a block lie the same behind the block before. -/
theorem Fragments.at_block_end {offset : ℕ} {isBegin : Bool} {data : Slice} {ps : List PhysicalRecord}
    (h : Fragments offset isBegin data ps) (hstart : recordStart offset = 0) :
    Fragments kBlockSize isBegin data ps ∧ encodeAll offset ps = trailer offset ++ encodeAll kBlockSize ps ∧
      endAll offset ps = endAll kBlockSize ps ∧
      ∀ pos, starts pos offset ps = starts (pos + (trailer offset).length) kBlockSize ps := by
  have hblock : recordStart offset = recordStart kBlockSize := by
    rw [hstart]
    decide
  have hend : ∀ p, recordEnd offset p = recordEnd kBlockSize p := by
    intro p
    rw [recordEnd, recordEnd, hblock]
  have hbytes : ∀ p ps, encodeAll offset (p :: ps) = trailer offset ++ encodeAll kBlockSize (p :: ps) ∧
      endAll offset (p :: ps) = endAll kBlockSize (p :: ps) ∧
      ∀ pos, starts pos offset (p :: ps) =
        starts (pos + (trailer offset).length) kBlockSize (p :: ps) := by
    intro p ps
    refine ⟨?_, ?_, fun pos => ?_⟩
    · rw [encodeAll, encodeAll, hend, trailer_kBlockSize, List.nil_append, List.append_assoc]
    · show endAll (recordEnd offset p) ps = endAll (recordEnd kBlockSize p) ps
      rw [hend]
    · rw [starts, starts, hend, trailer_kBlockSize, List.length_nil, Nat.add_zero]
  cases h with
  | final hfit =>
    rw [hblock] at hfit
    exact ⟨.final hfit, hbytes _ _⟩
  | more hfit hrest =>
    rw [hblock] at hfit hrest
    exact ⟨.more hfit hrest, hbytes _ _⟩

section

variable {w : Writer}

/-- A writer at the end of a block goes on as if it had filled the trailer. -/
theorem Writer.Sound.fill (h : w.Sound) (hstart : recordStart w.blockOffset = 0) (record : Slice) :
    w.fill.Sound ∧ w.fill.nextStart = w.nextStart ∧ w.fill.emitted true record = w.emitted true record ∧
      w.fill.addRecord record = w.addRecord record := by
  have hswitch : w.fill.switchBlock = w.switchBlock := by
    rw [switchBlock_eq rfl, switchBlock_eq h.working, Writer.fill]
    dsimp only
    rw [trailer_kBlockSize, List.append_nil, hstart]
    rfl
  refine ⟨⟨rfl, le_refl _, ?_⟩, ?_, ?_, ?_⟩
  · rw [Writer.fill]
    dsimp only
    rw [List.length_append, start_mod h.le h.aligned, hstart]
    decide
  · rw [nextStart, nextStart, Writer.fill]
    dsimp only
    rw [trailer_kBlockSize, List.length_append, List.length_nil, Nat.add_zero]
  · conv_lhs => rw [emitted, hswitch]
    conv_rhs => rw [emitted]
  · rw [Writer.addRecord, Writer.addRecord]
    conv_lhs => rw [addFragments, hswitch]
    conv_rhs => rw [addFragments]

end

/-! ## Reading to the end -/

/-- A number of calls of `ReadRecord`, each with `LastRecordOffset` after it. -/
def Reader.readOffsets : ℕ → Reader → List (Option Slice × ℕ) × Reader
  | 0, rd => ([], rd)
  | n + 1, rd =>
    let r := rd.readRecord
    let rest := r.2.readOffsets n
    ((r.1, r.2.lastRecordOffset) :: rest.1, rest.2)

/-- The calls of `ReadRecord` without their offsets. -/
theorem Reader.readRecords_eq_readOffsets : ∀ (n : ℕ) (rd : Reader),
    rd.readRecords n = ((rd.readOffsets n).1.map (·.1), (rd.readOffsets n).2)
  | 0, rd => rfl
  | n + 1, rd => by
    rw [readRecords, readOffsets]
    dsimp only
    rw [readRecords_eq_readOffsets n]
    rfl

/-- The loop of `ReadRecord`, called again and again, returns records with their offsets, and then
nothing. The first call may start inside of a log, with the state that the loop has there. -/
inductive LoopReads : RecordState → Reader → List (Slice × ℕ) → Reader → Prop
  /-- Nothing is left. -/
  | done {st : RecordState} {rd rd' : Reader} (h : rd.readLoop st = (none, rd')) : LoopReads st rd [] rd'
  /-- A record is returned. -/
  | next {st : RecordState} {rd rd₁ rd' : Reader} {record : Slice} {kept : List (Slice × ℕ)}
      (h : rd.readLoop st = (some record, rd₁)) (hrest : LoopReads {} rd₁ kept rd') :
      LoopReads st rd ((record, rd₁.lastRecordOffset) :: kept) rd'

/-- The loop may start with what it passes over. -/
theorem LoopReads.of_eq {st st' : RecordState} {rd rd₁ rd' : Reader} {kept : List (Slice × ℕ)}
    (h : LoopReads st' rd₁ kept rd') (heq : rd.readLoop st = rd₁.readLoop st') :
    LoopReads st rd kept rd' := by
  cases h with
  | done hloop => exact .done (heq.trans hloop)
  | next hloop hrest => exact .next (heq.trans hloop) hrest

/-- Behind the initial offset, `ReadRecord` is its loop. -/
theorem LoopReads.readOffsets {o : ℕ} {st : RecordState} {rd rd' : Reader} {kept : List (Slice × ℕ)}
    (h : LoopReads st rd kept rd') : ∀ rd₀ : Reader, rd₀.readRecord = rd.readLoop st →
    rd.initialOffset = o → (∀ r ∈ kept, o ≤ r.2) →
    rd₀.readOffsets (kept.length + 1) =
      (kept.map (fun r => (some r.1, r.2)) ++ [(none, rd'.lastRecordOffset)], rd') := by
  induction h with
  | done h =>
    intro rd₀ hfirst _ _
    rw [List.length_nil, Reader.readOffsets, hfirst, h]
    rfl
  | @next st rd rd₁ rd' record kept h hrest ih =>
    intro rd₀ hfirst hinit hkept
    have hinit₁ : rd₁.initialOffset = o := by
      have hkeep := rd.readLoop_initialOffset st
      rw [h] at hkeep
      exact hkeep.trans hinit
    have hnext : rd₁.readRecord = rd₁.readLoop {} := by
      rw [Reader.readRecord, hinit₁]
      exact if_neg (Nat.not_lt.mpr (hkept _ List.mem_cons_self))
    rw [List.length_cons, Reader.readOffsets, hfirst, h]
    dsimp only
    rw [ih rd₁ hnext hinit₁ fun r hr => hkept r (List.mem_cons_of_mem _ hr)]
    rfl

/-- The calls of `ReadRecord`, without their offsets. -/
theorem LoopReads.readRecords {o : ℕ} {st : RecordState} {rd rd' rd₀ : Reader}
    {kept : List (Slice × ℕ)} (h : LoopReads st rd kept rd') (hfirst : rd₀.readRecord = rd.readLoop st)
    (hinit : rd.initialOffset = o) (hkept : ∀ r ∈ kept, o ≤ r.2) :
    rd₀.readRecords (kept.length + 1) = ((kept.map (·.1)).map some ++ [none], rd') := by
  rw [Reader.readRecords_eq_readOffsets, h.readOffsets rd₀ hfirst hinit hkept]
  dsimp only
  rw [List.map_append, List.map_map, List.map_map]
  rfl

/-- Reading what a writer lays out, from where it was laid out: the records that start behind the initial
offset are returned, and a report is made if a record straddles it. -/
theorem Writer.Sound.loopReads {o : ℕ} : ∀ (records : List Slice) {w : Writer}, w.Sound →
    ∀ (rd : Reader) (st : RecordState),
    rd.Stands (w.laidOut records) w.blockOffset w.dest.bytes.length o → st.inFragmentedRecord = false →
    ∃ rd', LoopReads st rd (w.placed o records) rd' ∧ Reports (w.Straddles o records) rd rd'
  | [], w, h, rd, st, hat, hst => by
    obtain ⟨rd', hread, hquiet⟩ := hat.readPhysicalRecord_end
    exact ⟨rd', .done (Reader.readLoop_eof hread hst), .of_eq hquiet.reports (by simp [Writer.Straddles])⟩
  | record :: records, w, h, rd, st, hat, hst => by
    obtain ⟨hfrag, -, hbytes, hoffset, hnext⟩ := h.addRecord record
    rw [Writer.laidOut] at hat
    have hpos : w.dest.bytes.length + (encodeAll w.blockOffset (w.emitted true record)).length =
        (w.addRecord record).2.dest.bytes.length := by rw [hbytes, List.length_append]
    rw [Writer.placed]
    by_cases hstart : o ≤ w.nextStart
    · -- The record is returned.
      obtain ⟨rd₁, hloop, h₁, hrep, hlast⟩ := hfrag.readLoop_placed rd _ st _ hat hstart hst
      rw [hpos, ← hoffset] at h₁
      obtain ⟨rd', hreads, hreports⟩ := Writer.Sound.loopReads records hnext rd₁ {} h₁ rfl
      refine ⟨rd', ?_, (hreports.of_reports_eq hrep).congr ?_⟩
      · rw [if_pos rfl] at hlast
        rw [if_pos hstart, ← hlast]
        exact .next hloop hreads
      · rw [Writer.Straddles]
        exact or_iff_right fun hs => absurd hs.1 (Nat.not_lt.mpr hstart)
    · -- The record is passed over.
      obtain ⟨rd₁, hloop, h₁, hrep, hlast⟩ :=
        hfrag.readLoop_passed rd _ st _ hat (fun _ => Nat.lt_of_not_le hstart) hst
      rw [hpos, ← hoffset] at h₁
      obtain ⟨rd', hreads, hreports⟩ := Writer.Sound.loopReads records hnext rd₁ st h₁ hst
      refine ⟨rd', ?_, hrep.trans hreports ?_⟩
      · rw [if_neg hstart, List.nil_append]
        exact hreads.of_eq hloop
      · rw [Writer.Straddles]
        exact or_congr (and_iff_right (Nat.lt_of_not_le hstart)) Iff.rfl

/-! ## The start of the file -/

/-- A writer at the end of a block lays out records as if it had filled the trailer. Only the end of the
record before the first one is another. -/
theorem Writer.Sound.fill_cons {w : Writer} (h : w.Sound) (hstart : recordStart w.blockOffset = 0) (o : ℕ)
    (record : Slice) (records : List Slice) :
    w.laidOut (record :: records) = trailer w.blockOffset ++ w.fill.laidOut (record :: records) ∧
      w.fill.placed o (record :: records) =
        (if o ≤ w.nextStart then [(record, w.nextStart)] else []) ++ (w.addRecord record).2.placed o records ∧
      (w.fill.Straddles o (record :: records) ↔ w.Straddles o (record :: records)) := by
  obtain ⟨-, hnext, hemit, hadd⟩ := h.fill hstart record
  obtain ⟨-, hbytes, -, hstarts⟩ := (h.addRecord record).1.at_block_end hstart
  have hlen : w.fill.dest.bytes.length = w.nextStart := by
    rw [Writer.fill, nextStart, List.length_append]
  refine ⟨?_, ?_, ?_⟩
  · rw [laidOut, laidOut, hadd, hemit, hbytes, List.append_assoc]
    rfl
  · rw [placed, hadd, hnext, hlen]
  · rw [Straddles, Straddles, hadd, hemit, hnext, hlen, hstarts]
    rfl

/-- A new reader stands at the end of a block that lies before the file. -/
theorem Reader.stands_new {bytes : Slice} (h : bytes.length < 2^64) (checksum : Bool) :
    Reader.Stands { file := { rest := bytes }, checksum := checksum } bytes kBlockSize 0 0 where
  buffer := by rw [Nat.sub_self, List.take_zero]
  file := by rw [Nat.sub_self, List.drop_zero]
  eof := by rw [Nat.sub_self]; rfl
  le := le_refl _
  unbroken := rfl
  initial := rfl
  behind := rfl
  bounded := by omega

/-- Reading a whole log from its start. -/
theorem loopReads_new (records : List Slice) (checksum : Bool)
    (hbound : (Writer.addRecords {} records).dest.bytes.length < 2^64) :
    ∃ rd', LoopReads {}
      { file := { rest := (Writer.addRecords {} records).dest.bytes }, checksum := checksum }
      (Writer.placed 0 {} records) rd' := by
  obtain ⟨-, hbytes⟩ := Writer.Sound.addRecords records Writer.sound_new
  rw [hbytes] at hbound ⊢
  obtain ⟨rd, hat, -, hloop⟩ := (Reader.stands_new hbound checksum).next_block
  obtain ⟨rd', hreads, -⟩ := Writer.sound_new.loopReads records rd {} hat rfl
  exact ⟨rd', hreads.of_eq (hloop {})⟩

/-- The records of a log with the ends of the records before them. -/
theorem Writer.placed_zero : ∀ (records : List Slice) (w : Writer) (i : ℕ),
    (w.placed 0 records)[i]? =
      records[i]?.map fun record => (record, (w.addRecords (records.take i)).dest.bytes.length)
  | [], w, i => rfl
  | record :: records, w, 0 => by
    rw [placed, if_pos (Nat.zero_le _)]
    rfl
  | record :: records, w, i + 1 => by
    rw [placed, if_pos (Nat.zero_le _), List.singleton_append, List.getElem?_cons_succ, placed_zero records,
      List.getElem?_cons_succ, List.take_succ_cons]
    rfl

/-- Without an initial offset, all records are read. -/
theorem Writer.placed_zero_length : ∀ (records : List Slice) (w : Writer),
    (w.placed 0 records).length = records.length
  | [], w => rfl
  | record :: records, w => by
    rw [placed, if_pos (Nat.zero_le _), List.singleton_append, List.length_cons, placed_zero_length records,
      List.length_cons]

/-- As many calls as there are records leave out the last one. -/
theorem Reader.readOffsets_succ : ∀ (n : ℕ) (rd : Reader) (i : ℕ), i < n →
    (rd.readOffsets n).1[i]? = (rd.readOffsets (n + 1)).1[i]?
  | n + 1, rd, 0, h => rfl
  | n + 1, rd, i + 1, h => by
    rw [readOffsets, readOffsets]
    exact readOffsets_succ n _ i (Nat.lt_of_succ_lt_succ h)

/-- There is no trailer before the next record exactly when the block has room for a header, or nothing
in it. -/
theorem Writer.Sound.nextStart_iff {w : Writer} (h : w.Sound) :
    w.dest.bytes.length = w.nextStart ↔ w.dest.bytes.length % kBlockSize ≤ kBlockSize - kHeaderSize := by
  have hle := h.le
  have haligned := h.aligned
  unfold nextStart
  rw [trailer_length]
  unfold kBlockSize kHeaderSize at *
  split_ifs <;> omega

/-- `LastRecordOffset` after a record was read is where the record before it ends. -/
theorem readOffsets_new (records : List Slice) (checksum : Bool)
    (hbound : (Writer.addRecords {} records).dest.bytes.length < 2^64) {i : ℕ} (hi : i < records.length) :
    (Reader.readOffsets records.length
        { file := { rest := (Writer.addRecords {} records).dest.bytes }, checksum := checksum }).1[i]? =
      some (records[i]?, (Writer.addRecords {} (records.take i)).dest.bytes.length) := by
  obtain ⟨rd', hreads⟩ := loopReads_new records checksum hbound
  have hcalls := hreads.readOffsets (o := 0) _ (Reader.readRecord_eq rfl) rfl fun r _ => Nat.zero_le r.2
  rw [Writer.placed_zero_length] at hcalls
  have hin : i < ((Writer.placed 0 {} records).map fun r => (some r.1, r.2)).length := by
    rwa [List.length_map, Writer.placed_zero_length]
  rw [Reader.readOffsets_succ _ _ _ hi, hcalls]
  dsimp only
  rw [List.getElem?_append_left hin, List.getElem?_map, Writer.placed_zero, List.getElem?_eq_getElem hi]
  rfl

/-- The offset of a record that `LastRecordOffset` returns after the record was read is where the writer
placed its header exactly when there was no trailer to be filled before the record. -/
theorem last_record_offset_iff (records : List Slice) (checksum : Bool)
    (hbound : (Writer.addRecords {} records).dest.bytes.length < 2^64) (i : ℕ) (hi : i < records.length) :
    ∃ offset, (Reader.readOffsets records.length
        { file := { rest := (Writer.addRecords {} records).dest.bytes }, checksum := checksum }).1[i]? =
          some (records[i]?, offset) ∧
      (offset = (Writer.addRecords {} (records.take i)).nextStart ↔
        (Writer.addRecords {} (records.take i)).dest.bytes.length % kBlockSize ≤
          kBlockSize - kHeaderSize) := by
  obtain ⟨hsound, -⟩ := Writer.Sound.addRecords (records.take i) Writer.sound_new
  exact ⟨_, readOffsets_new records checksum hbound hi, hsound.nextStart_iff⟩

/-! ## A record behind a trailer -/

section

variable {w : Writer}

/-- What fits in its block is emitted as one physical record. -/
theorem Writer.emitted_of_fit (h : w.dest.failures = []) (isBegin : Bool) {left : Slice}
    (hfit : recordStart w.blockOffset + kHeaderSize + left.length ≤ kBlockSize) :
    w.emitted isBegin left = [⟨fragmentType isBegin true, left⟩] := by
  have hn : w.switchBlock.fragmentLength left = left.length := by
    rw [switchBlock_eq h, fragmentLength]
    dsimp only
    split_ifs <;> omega
  rw [emitted, hn, List.take_length, decide_eq_true rfl]
  exact congrArg (_ :: ·) (if_neg fun hmore => by omega)

/-- What does not fit in its block fills the block, and goes on in the next one. -/
theorem Writer.emitted_of_full (h : w.dest.failures = []) (isBegin : Bool) {left : Slice} {n : ℕ}
    (hn : recordStart w.blockOffset + kHeaderSize + n = kBlockSize) (hmore : n < left.length) :
    ∃ w' : Writer, w'.dest.failures = [] ∧ w'.blockOffset = kBlockSize ∧ w.emitted isBegin left =
      ⟨fragmentType isBegin false, left.take n⟩ :: w'.emitted false (left.drop n) := by
  have hlength : w.switchBlock.fragmentLength left = n := by
    rw [switchBlock_eq h, fragmentLength]
    dsimp only
    split_ifs <;> omega
  have hnot : decide (left.length = n) = false := decide_eq_false (by omega)
  have htake : (left.take n).length = n := List.length_take_of_le hmore.le
  set w' : Writer := ⟨{ bytes := w.dest.bytes ++ trailer w.blockOffset ++
    PhysicalRecord.encode ⟨fragmentType isBegin false, left.take n⟩ },
    recordStart w.blockOffset + kHeaderSize + (left.take n).length⟩
  have hr : w.switchBlock.emitPhysicalRecord (fragmentType isBegin false) (left.take n) = (true, w') := by
    rw [switchBlock_eq h, emitPhysicalRecord_eq]
  refine ⟨w', rfl, ?_, ?_⟩
  · show recordStart w.blockOffset + kHeaderSize + (left.take n).length = kBlockSize
    rw [htake, hn]
  · rw [emitted, hlength, hnot, hr]
    exact congrArg (_ :: ·) (if_pos ⟨rfl, by omega⟩)

/-- A record that fits in its block is a single physical record. -/
theorem Writer.Sound.addRecord_length (h : w.Sound) {record : Slice}
    (hfit : recordStart w.blockOffset + kHeaderSize + record.length ≤ kBlockSize) :
    (w.addRecord record).2.dest.bytes.length = w.nextStart + kHeaderSize + record.length ∧
      (w.addRecord record).2.blockOffset = recordStart w.blockOffset + kHeaderSize + record.length := by
  obtain ⟨-, -, hbytes, hoffset, -⟩ := h.addRecord record
  rw [hbytes, hoffset, w.emitted_of_fit h.working true hfit, encodeAll, encodeAll, List.append_nil,
    List.length_append, List.length_append, PhysicalRecord.encode_length, nextStart]
  dsimp only
  exact ⟨by omega, rfl⟩

end

/-- Records that fit in the rest of a block follow each other. -/
theorem Writer.Sound.addRecords_length : ∀ (records : List Slice) {w : Writer}, w.Sound →
    w.blockOffset + (records.map fun record => kHeaderSize + record.length).sum ≤ kBlockSize →
    (w.addRecords records).dest.bytes.length =
        w.dest.bytes.length + (records.map fun record => kHeaderSize + record.length).sum ∧
      (w.addRecords records).blockOffset =
        w.blockOffset + (records.map fun record => kHeaderSize + record.length).sum
  | [], w, h, hfit => ⟨rfl, rfl⟩
  | record :: records, w, h, hfit => by
    rw [List.map_cons, List.sum_cons] at hfit ⊢
    have hroom : ¬kBlockSize - w.blockOffset < kHeaderSize := by omega
    have hstart : recordStart w.blockOffset = w.blockOffset := if_neg hroom
    have hnext : w.nextStart = w.dest.bytes.length := by
      rw [nextStart, trailer_length, if_neg hroom, Nat.add_zero]
    obtain ⟨hbytes, hoffset⟩ := h.addRecord_length (show recordStart w.blockOffset + kHeaderSize +
      record.length ≤ kBlockSize by omega)
    rw [hstart] at hoffset
    rw [hnext] at hbytes
    obtain ⟨-, -, -, -, hsound⟩ := h.addRecord record
    obtain ⟨hlen, hend⟩ := Writer.Sound.addRecords_length records hsound (by omega)
    constructor
    · exact hlen.trans (by omega)
    · exact hend.trans (by omega)

/-- Where a record that leaves three bytes of its block and an empty record end. -/
theorem lengths_before_trailer {record : Slice} (hlen : record.length = 32758) :
    (Writer.addRecords {} [record]).dest.bytes.length = 32765 ∧
      (Writer.addRecords {} [record]).nextStart = 32768 ∧
      (Writer.addRecords {} [record, []]).dest.bytes.length = 32775 := by
  have hfit : recordStart 0 + kHeaderSize + record.length ≤ kBlockSize := by
    rw [hlen]
    decide
  obtain ⟨hbytes, hoffset⟩ := Writer.sound_new.addRecord_length hfit
  obtain ⟨-, -, -, -, hsound⟩ := Writer.sound_new.addRecord record
  rw [hlen] at hbytes hoffset
  have hstart : (Writer.addRecord {} record).2.nextStart = 32768 := by
    rw [Writer.nextStart, hbytes, hoffset, trailer_length]
    decide
  have hfit' : recordStart (Writer.addRecord {} record).2.blockOffset + kHeaderSize +
      ([] : Slice).length ≤ kBlockSize := by
    rw [hoffset]
    decide
  have hsecond := (hsound.addRecord_length hfit').1
  rw [hstart] at hsecond
  exact ⟨hbytes, hstart, hsecond⟩

/-- A record that leaves three bytes of its block, and an empty record. -/
def recordBeforeTrailer : List Slice := [List.replicate 32758 0, []]

/-- The condition at the record behind the trailer. -/
theorem last_record_offset_iff_behind_trailer :
    ∃ offset, (Reader.readOffsets 2
        { file := { rest := (Writer.addRecords {} recordBeforeTrailer).dest.bytes } }).1[1]? =
          some (some [], offset) ∧
      (offset = (Writer.addRecords {} (recordBeforeTrailer.take 1)).nextStart ↔
        (Writer.addRecords {} (recordBeforeTrailer.take 1)).dest.bytes.length % kBlockSize ≤
          kBlockSize - kHeaderSize) :=
  last_record_offset_iff recordBeforeTrailer true
    (by rw [recordBeforeTrailer, (lengths_before_trailer List.length_replicate).2.2]; decide) 1 (by decide)

/-- The header of the second record is at 32768, and `LastRecordOffset` returns 32765. -/
theorem last_record_offset_in_trailer :
    (Reader.readOffsets 2
        { file := { rest := (Writer.addRecords {} recordBeforeTrailer).dest.bytes } }).1[1]? =
      some (some [], 32765) ∧ (Writer.addRecords {} (recordBeforeTrailer.take 1)).nextStart = 32768 := by
  obtain ⟨hend, hstart, hlen⟩ :=
    lengths_before_trailer (List.length_replicate (n := 32758) (a := (0 : UInt8)))
  have hbound : (Writer.addRecords {} recordBeforeTrailer).dest.bytes.length < 2^64 := by
    rw [recordBeforeTrailer, hlen]
    decide
  have hread := readOffsets_new recordBeforeTrailer true hbound (i := 1) Nat.one_lt_two
  have htake : recordBeforeTrailer.take 1 = [List.replicate 32758 0] := rfl
  rw [htake, hend] at hread
  rw [htake]
  exact ⟨hread, hstart⟩

end LevelDb.Log
