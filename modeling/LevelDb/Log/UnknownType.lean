import LevelDb.Log.Offsets

/-!
# Unknown record types

A log in which the type byte of one physical record is replaced by one that no writer writes, with the
checksum that belongs to it. The record of which the physical record is a part is left out, and something
is reported, unless the type byte is one of the two numbers that `ReadPhysicalRecord` uses for the end of
the file and for a bad record (`unknown_type_isolated_iff`): the first ends the reading, and the second
leaves out a record without a report.
-/

namespace LevelDb.Log

/-! ## The replaced type byte -/

/-- A log in which the type byte of the physical record at an offset is replaced, and its checksum
recomputed. -/
def retype (bytes : Slice) (start : ℕ) (b : UInt8) : Slice :=
  let found := bytes.drop start
  let payload := (found.drop kHeaderSize).take (lengthField found)
  bytes.take start ++
    (encodeFixed32 (Crc32c.mask (Crc32c.value 0 (b :: payload))) ++
      ((found.drop 4).take 2 ++ b :: found.drop kHeaderSize))

/-- Only the one physical record is another. -/
theorem retype_encode (left right : Slice) {p : PhysicalRecord} (hlen : p.payload.length < 2^16)
    (b : UInt8) : retype (left ++ (p.encode ++ right)) left.length b =
      left ++ (RawRecord.encode ⟨b, p.payload⟩ ++ right) := by
  obtain ⟨b0, b1, b2, b3, hbytes, -⟩ := p.encode_append right
  have hfield : lengthField (p.encode ++ right) = p.payload.length := by
    rw [hbytes, lengthField]
    simp only [List.getD_cons_succ, List.getD_cons_zero, UInt8.toNat_ofNat']
    omega
  unfold retype
  dsimp only
  rw [List.drop_left, List.take_left, hfield, hbytes, RawRecord.encode]
  have hpayload : (b0 :: b1 :: b2 :: b3 :: UInt8.ofNat p.payload.length ::
      UInt8.ofNat (p.payload.length / 2^8) :: UInt8.ofNat p.type.toNat ::
        (p.payload ++ right)).drop kHeaderSize = p.payload ++ right := rfl
  rw [hpayload, List.take_left, List.append_assoc, List.append_assoc]
  rfl

/-- The length of the log stays the same. -/
theorem PhysicalRecord.retyped_length (p : PhysicalRecord) (b : UInt8) (right : Slice) :
    (RawRecord.encode ⟨b, p.payload⟩ ++ right).length = (p.encode ++ right).length := by
  rw [List.length_append, List.length_append, RawRecord.encode_length, p.encode_length]

/-- Where the physical records of a record start. -/
def fragmentStarts (records : List Slice) (i : ℕ) : List ℕ :=
  let w := Writer.addRecords {} (records.take i)
  starts w.dest.bytes.length w.blockOffset (w.emitted true (records.getD i []))

/-! ## Reading the physical record -/

section

variable {rd rd' : Reader} {fragment : Slice}

/-- An unknown type is reported, and what was read of a record is dropped. -/
theorem Reader.readLoop_unknown {t : ℕ} (h : rd.readPhysicalRecord = ⟨t, fragment, rd'⟩)
    (ht : kBadRecord < t) (hinit : rd'.initialOffset = 0) (st : RecordState) :
    ∃ report st', rd.readLoop st = Reader.readLoop { rd' with reports := rd'.reports ++ [report] } st' ∧
      st'.inFragmentedRecord = false := by
  have hne : ∀ n, n ≤ kBadRecord → ¬t = n := fun n hn heq => by omega
  have hreset : rd.readLoop st = (rd'.reportCorruption
      (fragment.length + if st.inFragmentedRecord then st.scratch.length else 0)
      ("unknown record type " ++ toString t)).readLoop
        { st with scratch := [], inFragmentedRecord := false } := by
    rw [readLoop, h]
    dsimp only
    rw [if_neg (hne _ (by decide)), if_neg (hne _ (by decide)), if_neg (hne _ (by decide)),
      if_neg (hne _ (by decide)), if_neg (hne _ (by decide)), if_neg (hne _ (by decide))]
  rw [reportCorruption, reportDrop_eq hinit] at hreset
  exact ⟨_, _, hreset, rfl⟩

end

/-- A type byte that no writer writes is one of the two codes, or greater than both. -/
theorem charToUnsigned_unknown {b : UInt8} (hb : 4 < b) :
    (b = 5 ∧ charToUnsigned b = kEof) ∨ (b = 6 ∧ charToUnsigned b = kBadRecord) ∨
      (b ≠ 5 ∧ b ≠ 6 ∧ kBadRecord < charToUnsigned b) := by
  have hall : ∀ n : Fin 256, 4 < UInt8.ofNat n.val →
      (UInt8.ofNat n.val = 5 ∧ charToUnsigned (UInt8.ofNat n.val) = kEof) ∨
      (UInt8.ofNat n.val = 6 ∧ charToUnsigned (UInt8.ofNat n.val) = kBadRecord) ∨
      (UInt8.ofNat n.val ≠ 5 ∧ UInt8.ofNat n.val ≠ 6 ∧
        kBadRecord < charToUnsigned (UInt8.ofNat n.val)) := by decide +kernel
  have h := hall ⟨b.toNat, b.toNat_lt⟩
  rw [UInt8.ofNat_toNat] at h
  exact h hb

/-- The first of some fragments, and those behind it. -/
theorem Fragments.tail {offset : ℕ} {isBegin : Bool} {data : Slice} {p : PhysicalRecord}
    {ps : List PhysicalRecord} (h : Fragments offset isBegin data (p :: ps)) :
    recordStart offset + kHeaderSize + p.payload.length ≤ kBlockSize ∧
      (ps = [] ∨ ∃ data', Fragments (recordEnd offset p) false data' ps) := by
  cases h with
  | final hfit => exact ⟨hfit, Or.inl rfl⟩
  | more hfit hrest => exact ⟨hfit, Or.inr ⟨_, hrest⟩⟩

/-- The length of a fragment is a 16-bit number. -/
theorem Fragments.payload_lt {offset : ℕ} {isBegin : Bool} {data : Slice} {ps : List PhysicalRecord}
    (h : Fragments offset isBegin data ps) : ∀ p ∈ ps, p.payload.length < 2^16 := by
  have hblock : kBlockSize < 2^16 := by decide
  induction h with
  | final hfit =>
    intro p hp
    rw [List.mem_singleton.mp hp]
    dsimp only
    omega
  | more hfit hrest ih =>
    intro p hp
    rcases List.mem_cons.mp hp with rfl | hp
    · dsimp only
      omega
    · exact ih p hp

/-- The loop of `ReadRecord` over the fragments of a record before one of them. -/
theorem Fragments.readLoop_until {p : PhysicalRecord} {ps : List PhysicalRecord} {rest : Slice} :
    ∀ (qs : List PhysicalRecord) {offset : ℕ} {isBegin : Bool} {data : Slice},
    Fragments offset isBegin data (qs ++ p :: ps) → ∀ (rd : Reader) (st : RecordState) (pos : ℕ),
    rd.Stands (encodeAll offset qs ++ rest) offset pos 0 → st.inFragmentedRecord = !isBegin →
    ∃ (rd' : Reader) (st' : RecordState) (data' : Slice), rd.readLoop st = rd'.readLoop st' ∧
      rd'.Stands rest (endAll offset qs) (pos + (encodeAll offset qs).length) 0 ∧
      rd'.reports = rd.reports ∧ st'.inFragmentedRecord = !(isBegin && qs.isEmpty) ∧
      Fragments (endAll offset qs) (isBegin && qs.isEmpty) data' (p :: ps)
  | [], offset, isBegin, data, h, rd, st, pos, hat, hst => by
    refine ⟨rd, st, data, rfl, hat, rfl, ?_, ?_⟩
    · rw [List.isEmpty_nil, Bool.and_true, hst]
    · rw [List.isEmpty_nil, Bool.and_true]
      exact h
  | q :: qs, offset, isBegin, data, h, rd, st, pos, hat, hst => by
    obtain ⟨payload, data, hfit, hq, hrest⟩ : ∃ payload data',
        recordStart offset + kHeaderSize + payload.length ≤ kBlockSize ∧
        q = ⟨fragmentType isBegin false, payload⟩ ∧
        Fragments (recordEnd offset q) false data' (qs ++ p :: ps) := by
      rw [List.cons_append] at h
      generalize hall : qs ++ p :: ps = all at h ⊢
      cases h with
      | final hfit => exact absurd hall (by simp)
      | more hfit hrest => exact ⟨_, _, hfit, rfl, hrest⟩
    obtain ⟨rd₁, hread, h₁, hquiet⟩ := hat.readFragment (by rw [hq]; exact hfit)
      (by rw [hq]; exact fragmentType_ne_zero _ _)
    rw [if_neg (Nat.not_lt_zero _)] at hread
    -- The state after the fragment is inside of the record.
    obtain ⟨st₁, hloop, hst₁⟩ : ∃ st₁ : RecordState, rd.readLoop st = rd₁.readLoop st₁ ∧
        st₁.inFragmentedRecord = true := by
      rw [hq] at hread
      cases isBegin with
      | true => exact ⟨_, Reader.readLoop_first hread hst, rfl⟩
      | false => exact ⟨_, Reader.readLoop_middle hread hst, hst⟩
    obtain ⟨rd', st', data', hloop', h', hrep, hst', hfrag⟩ :=
      Fragments.readLoop_until qs hrest rd₁ st₁ _ h₁ hst₁
    have hpos : pos + (trailer offset).length + q.encode.length +
        (encodeAll (recordEnd offset q) qs).length = pos + (encodeAll offset (q :: qs)).length := by
      rw [encodeAll, List.length_append, List.length_append]
      omega
    rw [hpos] at h'
    refine ⟨rd', st', data', hloop.trans hloop', h', hrep.trans hquiet.reports, ?_, ?_⟩
    · rw [hst', List.isEmpty_cons, Bool.and_false, Bool.false_and]
    · rw [List.isEmpty_cons, Bool.and_false]
      exact hfrag

/-- The loop of `ReadRecord` at a fragment with an unknown type. It ends there if the type is that of the
end of the file; otherwise it passes over the fragments that are left. -/
theorem Fragments.readLoop_retyped {offset pos : ℕ} {isBegin : Bool} {data rest : Slice}
    {p : PhysicalRecord} {ps : List PhysicalRecord} (h : Fragments offset isBegin data (p :: ps)) {b : UInt8}
    (hb : 4 < b) {rd : Reader} {st : RecordState}
    (hat : rd.Stands (trailer offset ++ (RawRecord.encode ⟨b, p.payload⟩ ++
      (encodeAll (recordEnd offset p) ps ++ rest))) offset pos 0)
    (hst : st.inFragmentedRecord = !isBegin) :
    (b = 5 ∧ ∃ rd' : Reader, rd.readLoop st = (none, rd') ∧ Reports (isBegin = false) rd rd') ∨
    (b ≠ 5 ∧ ∃ (rd' : Reader) (st' : RecordState), rd.readLoop st = rd'.readLoop st' ∧
      st'.inFragmentedRecord = false ∧
      rd'.Stands rest (endAll offset (p :: ps)) (pos + (encodeAll offset (p :: ps)).length) 0 ∧
      Reports (b ≠ 6 ∨ isBegin = false ∨ ps ≠ []) rd rd') := by
  obtain ⟨hfit, htail⟩ := h.tail
  have hbyte : b ≠ 0 := fun hzero => by
    rw [hzero] at hb
    exact absurd hb (by decide)
  obtain ⟨rd₁, hread, h₁, hquiet⟩ := hat.readPhysicalRecord hfit hbyte
  rw [if_neg (Nat.not_lt_zero _)] at hread
  have hin : st.inFragmentedRecord = true ↔ isBegin = false := by rw [hst]; simp
  -- What the fragments behind this one lead to.
  have hpassed : ∀ (reports : List (ℕ × String)) (st₂ : RecordState), st₂.inFragmentedRecord = false →
      ∃ rd' : Reader, Reader.readLoop { rd₁ with reports := reports } st₂ = rd'.readLoop st₂ ∧
        rd'.Stands rest (endAll offset (p :: ps)) (pos + (encodeAll offset (p :: ps)).length) 0 ∧
        Reports (ps ≠ []) { rd₁ with reports := reports } rd' := by
    intro reports st₂ hst₂
    have h₂ : Reader.Stands { rd₁ with reports := reports } _ _ _ _ := h₁.congr rfl
    have hpos : pos + (encodeAll offset (p :: ps)).length =
        pos + (trailer offset).length + (RawRecord.encode ⟨b, p.payload⟩).length +
          (encodeAll (recordEnd offset p) ps).length := by
      rw [encodeAll, List.length_append, List.length_append, PhysicalRecord.encode_length,
        RawRecord.encode_length]
      dsimp only
      omega
    rw [hpos]
    rcases htail with rfl | ⟨data', hrest⟩
    · exact ⟨_, rfl, h₂, .of_eq rfl (by simp)⟩
    · obtain ⟨rd', hloop, h', hrep, -⟩ :=
        hrest.readLoop_passed _ _ st₂ _ h₂ (fun hfalse => absurd hfalse Bool.false_ne_true) hst₂
      refine ⟨rd', hloop, h', hrep.congr (iff_of_true hrest.ne_nil ?_)⟩
      cases ps with
      | nil => exact absurd rfl hrest.ne_nil
      | cons q qs => exact ⟨_, List.mem_cons_self, Nat.zero_le _⟩
  rcases charToUnsigned_unknown hb with ⟨hb, htype⟩ | ⟨hb, htype⟩ | ⟨hb, hb', htype⟩
  · -- The end of the file.
    rw [htype] at hread
    have hend : ∃ rd' : Reader, rd.readLoop st = (none, rd') ∧
        Reports (st.inFragmentedRecord = true) rd₁ rd' := Reader.readLoop_eof_reports hread h₁.initial
    obtain ⟨rd', hloop, hrep⟩ := hend
    exact Or.inl ⟨hb, rd', hloop, (hrep.of_reports_eq hquiet.reports).congr hin.symm⟩
  · -- A bad record.
    rw [htype] at hread
    obtain ⟨reports, st₂, hloop, hst₂, hrep⟩ := Reader.readLoop_bad_reports hread h₁.initial st
    obtain ⟨rd', hloop', h', hrep'⟩ := hpassed _ st₂ hst₂
    refine Or.inr ⟨by rw [hb]; decide, rd', st₂, hloop.trans hloop', hst₂, h',
      (hrep.of_reports_eq hquiet.reports).trans hrep' ?_⟩
    rw [hin]
    exact or_iff_right fun hne => hne hb
  · -- A type that is unknown to the loop.
    obtain ⟨report, st₂, hloop, hst₂⟩ := Reader.readLoop_unknown hread htype h₁.initial st
    obtain ⟨rd', hloop', h', hrep'⟩ := hpassed _ st₂ hst₂
    have hrep : Reports True rd { rd₁ with reports := rd₁.reports ++ [report] } :=
      .of_append (by rw [hquiet.reports]) trivial
    refine Or.inr ⟨hb, rd', st₂, hloop.trans hloop', hst₂, h', hrep.trans hrep' ?_⟩
    exact iff_of_true (Or.inl hb') (Or.inl trivial)

/-! ## Reading the log -/

/-- What a writer appends for records that follow others. -/
theorem Writer.laidOut_append (others : List Slice) : ∀ (records : List Slice) (w : Writer),
    w.laidOut (records ++ others) = w.laidOut records ++ (w.addRecords records).laidOut others
  | [], w => rfl
  | record :: records, w => by
    rw [List.cons_append, laidOut, laidOut, laidOut_append others records, List.append_assoc]
    rfl

/-- Without an initial offset, the records at the start of what is left are returned. What follows them
is read as it is from where they end. -/
theorem Writer.Sound.loopReads_before {rest : Slice} : ∀ (records : List Slice) {w : Writer}, w.Sound →
    ∀ (rd : Reader) (st : RecordState),
    rd.Stands (w.laidOut records ++ rest) w.blockOffset w.dest.bytes.length 0 →
    st.inFragmentedRecord = false →
    ∃ (rd₁ : Reader) (st₁ : RecordState),
      rd₁.Stands rest (w.addRecords records).blockOffset (w.addRecords records).dest.bytes.length 0 ∧
      st₁.inFragmentedRecord = false ∧ rd₁.reports = rd.reports ∧
      ∀ kept rd', LoopReads st₁ rd₁ kept rd' → ∃ kept', LoopReads st rd kept' rd' ∧
        kept'.map (·.1) = records ++ kept.map (·.1)
  | [], w, h, rd, st, hat, hst =>
    ⟨rd, st, hat, hst, rfl, fun kept rd' hreads => ⟨kept, hreads, rfl⟩⟩
  | record :: records, w, h, rd, st, hat, hst => by
    obtain ⟨hfrag, -, hbytes, hoffset, hnext⟩ := h.addRecord record
    rw [laidOut, List.append_assoc] at hat
    obtain ⟨rd₁, hloop, h₁, hrep, -⟩ := hfrag.readLoop_placed rd _ st _ hat (Nat.zero_le _) hst
    have hpos : w.dest.bytes.length + (encodeAll w.blockOffset (w.emitted true record)).length =
        (w.addRecord record).2.dest.bytes.length := by rw [hbytes, List.length_append]
    rw [hpos, ← hoffset] at h₁
    obtain ⟨rd₂, st₂, h₂, hst₂, hrep₂, hreads⟩ :=
      Writer.Sound.loopReads_before records hnext rd₁ {} h₁ rfl
    refine ⟨rd₂, st₂, h₂, hst₂, hrep₂.trans hrep, fun kept rd' hkept => ?_⟩
    obtain ⟨kept', hreads', hmap⟩ := hreads kept rd' hkept
    refine ⟨_, .next hloop hreads', ?_⟩
    rw [List.map_cons, hmap]
    rfl

/-- Reading a record of which one fragment has an unknown type. -/
theorem Fragments.readLoop_retyped_at {offset pos : ℕ} {data rest : Slice} {p : PhysicalRecord}
    {qs ps : List PhysicalRecord} (h : Fragments offset true data (qs ++ p :: ps)) {b : UInt8}
    (hb : 4 < b) {rd : Reader} {st : RecordState}
    (hat : rd.Stands (encodeAll offset qs ++ (trailer (endAll offset qs) ++
      (RawRecord.encode ⟨b, p.payload⟩ ++ (encodeAll (recordEnd (endAll offset qs) p) ps ++ rest))))
      offset pos 0) (hst : st.inFragmentedRecord = false) :
    (b = 5 ∧ ∃ rd' : Reader, rd.readLoop st = (none, rd') ∧ Reports (qs ≠ []) rd rd') ∨
    (b ≠ 5 ∧ ∃ (rd' : Reader) (st' : RecordState), rd.readLoop st = rd'.readLoop st' ∧
      st'.inFragmentedRecord = false ∧
      rd'.Stands rest (endAll offset (qs ++ p :: ps))
        (pos + (encodeAll offset (qs ++ p :: ps)).length) 0 ∧
      Reports (b ≠ 6 ∨ 1 < (qs ++ p :: ps).length) rd rd') := by
  obtain ⟨rd₁, st₁, data', hloop, h₁, hrep, hst₁, hfrag⟩ :=
    Fragments.readLoop_until qs h rd st pos hat hst
  have hempty : (true && qs.isEmpty) = false ↔ qs ≠ [] := by simp
  rcases hfrag.readLoop_retyped hb h₁ hst₁ with ⟨hfive, rd', hloop', hrep'⟩ |
    ⟨hfive, rd', st', hloop', hst', h', hrep'⟩
  · refine Or.inl ⟨hfive, rd', hloop.trans hloop', ?_⟩
    exact (hrep'.of_reports_eq hrep).congr hempty.symm
  · have hpos : pos + (encodeAll offset qs).length + (encodeAll (endAll offset qs) (p :: ps)).length =
        pos + (encodeAll offset (qs ++ p :: ps)).length := by
      rw [encodeAll_append, List.length_append]
      omega
    have hend : endAll (endAll offset qs) (p :: ps) = endAll offset (qs ++ p :: ps) :=
      (List.foldl_append ..).symm
    rw [hpos, hend] at h'
    refine Or.inr ⟨hfive, rd', st', hloop.trans hloop', hst', h', (hrep'.of_reports_eq hrep).congr ?_⟩
    refine or_congr Iff.rfl ?_
    rw [hempty, List.length_append, List.length_cons, ← List.length_pos_iff, ← List.length_pos_iff]
    omega

/-- What is read of a log in which one physical record has an unknown type, and when something is
reported. The physical record is the one behind `qs` in the record between `before` and `after`. -/
theorem readRecords_retyped (after : List Slice) {before : List Slice} {record : Slice} {p : PhysicalRecord}
    {qs ps : List PhysicalRecord} {w : Writer} (hw : w = Writer.addRecords {} before)
    (hsplit : w.emitted true record = qs ++ p :: ps) {b : UInt8} (hb : 4 < b) {start : ℕ}
    (hstart : start = w.dest.bytes.length + (encodeAll w.blockOffset qs).length +
      (trailer (endAll w.blockOffset qs)).length)
    (hbound : (Writer.addRecords {} (before ++ record :: after)).dest.bytes.length < 2^64) :
    (b = 5 ∧ ∃ rd' : Reader, Reader.readRecords (before.length + 1)
        { file := { rest := retype (Writer.addRecords {} (before ++ record :: after)).dest.bytes start b } } =
          (before.map some ++ [none], rd') ∧ (rd'.reports = [] ↔ ¬qs ≠ [])) ∨
    (b ≠ 5 ∧ ∃ rd' : Reader, Reader.readRecords ((before ++ after).length + 1)
        { file := { rest := retype (Writer.addRecords {} (before ++ record :: after)).dest.bytes start b } } =
          ((before ++ after).map some ++ [none], rd') ∧
        (rd'.reports = [] ↔ ¬(b ≠ 6 ∨ 1 < (qs ++ p :: ps).length))) := by
  obtain ⟨-, hall⟩ := Writer.Sound.addRecords (before ++ record :: after) Writer.sound_new
  obtain ⟨hsound, hbefore⟩ := Writer.Sound.addRecords before Writer.sound_new
  rw [← hw] at hsound hbefore
  obtain ⟨hfrag, -, hbytes, hoffset, hnext⟩ := hsound.addRecord record
  rw [hsplit] at hfrag hbytes hoffset
  set others := (w.addRecord record).2.laidOut after
  set rest := encodeAll (recordEnd (endAll w.blockOffset qs) p) ps ++ others
  set left := Writer.laidOut {} before ++ (encodeAll w.blockOffset qs ++
    trailer (endAll w.blockOffset qs)) with hleft
  -- The log around the physical record.
  have hlog : (Writer.addRecords {} (before ++ record :: after)).dest.bytes =
      left ++ (p.encode ++ rest) := by
    rw [hall, Writer.laidOut_append, ← hw, Writer.laidOut, hsplit, encodeAll_append, encodeAll]
    simp only [left, rest, List.append_assoc]
    rfl
  have hlen : start = left.length := by
    rw [hstart, hbefore, hleft, List.length_append, List.length_append, List.length_append]
    show 0 + _ + _ + _ = _
    omega
  have hpayload := hfrag.payload_lt p (List.mem_append_right _ List.mem_cons_self)
  have hsize : (left ++ (RawRecord.encode ⟨b, p.payload⟩ ++ rest)).length < 2^64 := by
    rw [List.length_append, p.retyped_length b rest, ← List.length_append, ← hlog]
    exact hbound
  rw [hlog, hlen, retype_encode left rest hpayload b]
  -- Reading the records before the changed one.
  obtain ⟨rd, hat, hquiet, hfirst⟩ := (Reader.stands_new hsize true).next_block
  rw [hleft, List.append_assoc, List.append_assoc] at hat
  obtain ⟨rd₁, st₁, h₁, hst₁, hrep₁, hreads⟩ :=
    Writer.sound_new.loopReads_before before rd {} hat rfl
  rw [← hw] at h₁
  have hnone : rd₁.reports = [] := hrep₁.trans hquiet.reports
  rcases hfrag.readLoop_retyped_at hb h₁ hst₁ with ⟨hfive, rd', hloop, hrep⟩ |
    ⟨hfive, rd₂, st₂, hloop, hst₂, h₂, hrep⟩
  · obtain ⟨kept, hkept, hmap⟩ := hreads [] rd' (.done hloop)
    have hcalls := (hkept.of_eq (hfirst {})).readRecords (o := 0) (Reader.readRecord_eq rfl) rfl
      fun r _ => Nat.zero_le r.2
    rw [← List.length_map (·.1), hmap, List.map_nil, List.append_nil] at hcalls
    refine Or.inl ⟨hfive, rd', hcalls, ?_⟩
    rw [← hrep.2, hnone]
  · have hpos : w.dest.bytes.length + (encodeAll w.blockOffset (qs ++ p :: ps)).length =
        (w.addRecord record).2.dest.bytes.length := by rw [hbytes, List.length_append]
    rw [hpos, ← hoffset, ← List.append_nil others] at h₂
    -- Reading the records behind it.
    obtain ⟨rd₃, st₃, h₃, hst₃, hrep₃, hreads₃⟩ := hnext.loopReads_before after rd₂ st₂ h₂ hst₂
    obtain ⟨rd', hend, hquiet'⟩ := h₃.readPhysicalRecord_end
    obtain ⟨kept₂, hkept₂, hmap₂⟩ := hreads₃ [] rd' (.done (Reader.readLoop_eof hend hst₃))
    obtain ⟨kept, hkept, hmap⟩ := hreads kept₂ rd' (hkept₂.of_eq hloop)
    have hcalls := (hkept.of_eq (hfirst {})).readRecords (o := 0) (Reader.readRecord_eq rfl) rfl
      fun r _ => Nat.zero_le r.2
    rw [hmap₂, List.map_nil, List.append_nil] at hmap
    rw [← List.length_map (·.1), hmap] at hcalls
    refine Or.inr ⟨hfive, rd', hcalls, ?_⟩
    rw [← hrep.2, hnone, hquiet'.reports, hrep₃]

/-- The physical record that starts at one of the starts. -/
theorem exists_of_starts {start : ℕ} : ∀ {all : List PhysicalRecord} {pos offset j : ℕ},
    (starts pos offset all)[j]? = some start → ∃ qs p ps, all = qs ++ p :: ps ∧ qs.length = j ∧
      start = pos + (encodeAll offset qs).length + (trailer (endAll offset qs)).length
  | [], pos, offset, j, h => by
    rw [starts, List.getElem?_nil] at h
    exact absurd h (by simp)
  | p :: ps, pos, offset, 0, h => by
    rw [starts, List.getElem?_cons_zero, Option.some_inj] at h
    exact ⟨[], p, ps, rfl, rfl, h.symm⟩
  | q :: all, pos, offset, j + 1, h => by
    rw [starts, List.getElem?_cons_succ] at h
    obtain ⟨qs, p, ps, hall, hlen, hstart⟩ := exists_of_starts h
    refine ⟨q :: qs, p, ps, by rw [hall, List.cons_append], by rw [List.length_cons, hlen], ?_⟩
    have hend : endAll offset (q :: qs) = endAll (recordEnd offset q) qs := rfl
    rw [hstart, hend, encodeAll, List.length_append, List.length_append]
    omega

/-- Fewer calls of `ReadRecord` return the start of what more calls return. -/
theorem Reader.readRecords_take : ∀ (m n : ℕ) (rd : Reader), m ≤ n →
    (rd.readRecords m).1 = (rd.readRecords n).1.take m
  | 0, n, rd, _ => by rw [List.take_zero, readRecords]
  | m + 1, n + 1, rd, h => by
    rw [readRecords, readRecords, List.take_succ_cons,
      readRecords_take m n _ (Nat.le_of_succ_le_succ h)]

/-- Reading does not end before the last record of a list. -/
theorem Reader.readRecords_ne {rd : Reader} {xs ys : List Slice} {n : ℕ} (hn : xs.length < ys.length)
    (hfew : (rd.readRecords (xs.length + 1)).1 = xs.map some ++ [none]) (hlen : ys.length < n) :
    (rd.readRecords n).1 ≠ ys.map some ++ [none] := by
  intro hmany
  have htake := rd.readRecords_take (xs.length + 1) n (by omega)
  have hle : xs.length + 1 ≤ (ys.map some).length := by rwa [List.length_map]
  rw [hfew, hmany, List.take_append_of_le_length hle, List.map_take.symm] at htake
  have hmem : none ∈ (ys.take (xs.length + 1)).map some := by
    rw [← htake]
    exact List.mem_append_right _ (List.mem_singleton.mpr rfl)
  obtain ⟨y, -, hy⟩ := List.mem_map.mp hmem
  exact absurd hy (Option.some_ne_none y)

/-- A property of what a run of calls reports is one of the reader to which the run leads. -/
theorem exists_reports_iff {r : List (Option Slice) × Reader} {xs : List (Option Slice)} {rd : Reader}
    (h : r = (xs, rd)) : (∃ rd' : Reader, r = (xs, rd') ∧ rd'.reports ≠ []) ↔ rd.reports ≠ [] := by
  constructor
  · rintro ⟨rd', heq, hrep⟩
    rw [h, Prod.mk.injEq] at heq
    rwa [heq.2]
  · intro hrep
    exact ⟨rd, h, hrep⟩

/-- A physical record with an unknown type is reported, and all records but the one of which it is a part
are returned, exactly when the type byte is not one of the codes of `ReadPhysicalRecord`, or it is
`kBadRecord` in a record of more than one fragment, or it is `kEof` in the last record behind its first
fragment. -/
theorem unknown_type_isolated_iff (records : List Slice) (i j start : ℕ) (hi : i < records.length)
    (hstart : (fragmentStarts records i)[j]? = some start) (b : UInt8) (hb : 4 < b)
    (hbound : (Writer.addRecords {} records).dest.bytes.length < 2^64) :
    (∃ rd' : Reader, Reader.readRecords records.length
        { file := { rest := retype (Writer.addRecords {} records).dest.bytes start b } } =
          ((records.eraseIdx i).map some ++ [none], rd') ∧ rd'.reports ≠ []) ↔
      (b ≠ 5 ∧ b ≠ 6) ∨ (b = 6 ∧ 1 < (fragmentStarts records i).length) ∨
        (b = 5 ∧ 0 < j ∧ i + 1 = records.length) := by
  obtain ⟨qs, p, ps, hsplit, hlen, hplace⟩ := exists_of_starts hstart
  have hcount : (fragmentStarts records i).length = (qs ++ p :: ps).length := by
    rw [fragmentStarts, starts_length, hsplit]
  rw [hcount, List.eraseIdx_eq_take_drop_succ]
  -- The log around the record.
  have hget : records.getD i [] = records[i] := List.getD_eq_getElem _ _ hi
  have hrecords : records.take i ++ records[i] :: records.drop (i + 1) = records := by
    rw [List.getElem_cons_drop, List.take_append_drop]
  have htake : (records.take i).length = i := List.length_take_of_le hi.le
  have hothers : (records.take i ++ records.drop (i + 1)).length + 1 = records.length := by
    rw [List.length_append, htake, List.length_drop]
    omega
  rw [hget] at hsplit
  have hread := readRecords_retyped (records.drop (i + 1)) rfl hsplit hb hplace
  rw [hrecords] at hread
  rcases hread hbound with ⟨hfive, rd', hcalls, hrep⟩ | ⟨hfive, rd', hcalls, hrep⟩
  · have hright : (b ≠ 5 ∧ b ≠ 6) ∨ (b = 6 ∧ 1 < (qs ++ p :: ps).length) ∨
        (b = 5 ∧ 0 < j ∧ i + 1 = records.length) ↔ qs ≠ [] ∧ i + 1 = records.length := by
      rw [hfive, ← hlen, List.length_pos_iff]
      simp
    rw [hright]
    by_cases hlast : i + 1 = records.length
    · -- Nothing is left behind the record.
      rw [htake, hlast] at hcalls
      rw [List.drop_of_length_le hlast.ge, List.append_nil, exists_reports_iff hcalls, Ne, hrep, not_not]
      exact (and_iff_left hlast).symm
    · -- The records behind it are not returned.
      refine iff_of_false ?_ fun hcond => hlast hcond.2
      rintro ⟨rd'', hmany, -⟩
      refine Reader.readRecords_ne ?_ (congrArg Prod.fst hcalls) ?_ (congrArg Prod.fst hmany)
      · omega
      · omega
  · rw [hothers] at hcalls
    rw [exists_reports_iff hcalls, Ne, hrep, not_not]
    constructor
    · rintro (hsix | hmore)
      · exact Or.inl ⟨hfive, hsix⟩
      · by_cases hsix : b = 6
        · exact Or.inr (Or.inl ⟨hsix, hmore⟩)
        · exact Or.inl ⟨hfive, hsix⟩
    · rintro (⟨-, hsix⟩ | ⟨-, hmore⟩ | ⟨heof, -⟩)
      · exact Or.inl hsix
      · exact Or.inr hmore
      · exact absurd heof hfive

/-! ## Two short records -/

/-- Two short records. -/
def shortRecords : List Slice := [[1], [2]]

/-- The log of the two short records has sixteen bytes. -/
theorem shortRecords_length : (Writer.addRecords {} shortRecords).dest.bytes.length = 16 :=
  (Writer.sound_new.addRecords_length shortRecords (by decide)).1

/-- The first record is one physical record, at the start of the log. -/
theorem shortRecords_emitted : Writer.emitted {} true [1] = [⟨.full, [1]⟩] :=
  Writer.emitted_of_fit rfl true (by decide)

/-- The first of the two short records has one physical record, at the start of the file. -/
theorem shortRecords_starts : fragmentStarts shortRecords 0 = [0] := by
  have hstarts : fragmentStarts shortRecords 0 = starts 0 0 (Writer.emitted {} true [1]) := rfl
  rw [hstarts, shortRecords_emitted]
  rfl

/-- With the type 7, the first record is reported, and the second one is returned. -/
theorem unknown_type_isolated_iff_seven :
    ∃ rd' : Reader, Reader.readRecords 2
        { file := { rest := retype (Writer.addRecords {} shortRecords).dest.bytes 0 7 } } =
          ([some [2], none], rd') ∧ rd'.reports ≠ [] :=
  (unknown_type_isolated_iff shortRecords 0 0 0 (by decide) (by rw [shortRecords_starts]; rfl) 7 (by decide)
    (by rw [shortRecords_length]; decide)).mpr (Or.inl (by decide))

/-- With the type 5, the reading ends at the first record, and nothing is reported. With the type 6, the
first record is left out, and nothing is reported either. -/
theorem unknown_type_not_isolated :
    (∃ rd' : Reader, Reader.readRecords 1
        { file := { rest := retype (Writer.addRecords {} shortRecords).dest.bytes 0 5 } } =
          ([none], rd') ∧ rd'.reports = []) ∧
      (¬∃ rd' : Reader, Reader.readRecords 2
        { file := { rest := retype (Writer.addRecords {} shortRecords).dest.bytes 0 5 } } =
          ([some [2], none], rd') ∧ rd'.reports ≠ []) ∧
      ¬∃ rd' : Reader, Reader.readRecords 2
        { file := { rest := retype (Writer.addRecords {} shortRecords).dest.bytes 0 6 } } =
          ([some [2], none], rd') ∧ rd'.reports ≠ [] := by
  have hbound : (Writer.addRecords {} shortRecords).dest.bytes.length < 2^64 := by
    rw [shortRecords_length]
    decide
  have hsplit : Writer.emitted (Writer.addRecords {} []) true [1] = [] ++ ⟨.full, [1]⟩ :: [] :=
    shortRecords_emitted
  have hstart : 0 = (Writer.addRecords {} []).dest.bytes.length +
      (encodeAll (Writer.addRecords {} []).blockOffset []).length +
      (trailer (endAll (Writer.addRecords {} []).blockOffset [])).length := rfl
  have heof := (readRecords_retyped (b := 5) [[2]] rfl hsplit (by decide) hstart hbound).resolve_right
    fun hne => hne.1 rfl
  have hbad := (readRecords_retyped (b := 6) [[2]] rfl hsplit (by decide) hstart hbound).resolve_left
    fun heq => absurd heq.1 (by decide)
  obtain ⟨-, rd', hcalls, hrep⟩ := heof
  obtain ⟨-, rd'', hcalls', hrep'⟩ := hbad
  refine ⟨⟨rd', hcalls, hrep.mpr (not_not.mpr rfl)⟩, ?_, ?_⟩
  · rintro ⟨rd, hmany, -⟩
    have hne := Reader.readRecords_ne (show ([] : List Slice).length < ([[2]] : List Slice).length by decide)
      (congrArg Prod.fst hcalls) Nat.one_lt_two
    exact hne (congrArg Prod.fst hmany)
  · exact fun hrun => (exists_reports_iff hcalls').mp hrun (hrep'.mpr (by decide))

end LevelDb.Log
