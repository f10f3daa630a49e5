import LevelDb.Log.Damage

/-!
# Appends that fail

An append to the file of a log may fail and leave the file as it is. `EmitPhysicalRecord` counts the
bytes of the physical record all the same, and the status of filling a trailer is not looked at. From
then on the writer's offset in the block and the length of the file disagree, and what later calls
write without an error lies across the blocks of the reader. The two agree at every step of a run if
and only if no append fails but those that take nothing away: the header of a fragment that fills a
whole block, and an empty payload. In such a run every acknowledged record is read back.
-/

namespace LevelDb.Log

/-! ## The steps of a run -/

/-- The writer after each step of `AddRecord`: after switching to a new block, and after each physical
record. -/
def Writer.trace (w : Writer) (isBegin : Bool) (left : Slice) : List Writer :=
  let n := w.switchBlock.fragmentLength left
  let r := w.switchBlock.emitPhysicalRecord (fragmentType isBegin (decide (left.length = n)))
    (left.take n)
  w.switchBlock :: r.2 ::
    if r.1 = true ∧ 0 < left.length - n then r.2.trace false (left.drop n) else []
termination_by 2 * left.length + (if kBlockSize - w.blockOffset = kHeaderSize then 1 else 0)
decreasing_by
  rename_i h
  exact addFragments_decreasing h.2

/-- The calls of `AddRecord` for some records one after the other: their statuses, and the writer
after them. -/
def Writer.addAll (w : Writer) : List Slice → List Bool × Writer
  | [] => ([], w)
  | record :: records =>
    let r := w.addRecord record
    let rest := r.2.addAll records
    (r.1 :: rest.1, rest.2)

/-- The offset in the block is that of the end of the file. -/
def Writer.InStep (w : Writer) : Prop :=
  w.blockOffset % kBlockSize = w.dest.bytes.length % kBlockSize

/-- The writer stays in step with the file at every step of the calls. -/
def Writer.StaysInStep (w : Writer) : List Slice → Prop
  | [] => w.InStep
  | record :: records =>
    w.InStep ∧ (∀ w' ∈ w.trace true record, w'.InStep) ∧ (w.addRecord record).2.StaysInStep records

/-- Every acknowledged record is read back, in order, from the file that is left. -/
def AcknowledgedRead (w : Writer) (records : List Slice) : Prop :=
  ∃ returned rd', Reader.readRecords (returned.length + 1)
      { file := { rest := (w.addAll records).2.dest.bytes }, checksum := true } =
    (returned.map some ++ [none], rd') ∧ (select (w.addAll records).1 records).Sublist returned

/-! ## Harmless failures -/

/-- The length of the next fragment when `left` bytes are left and the block is filled up to
`offset`. -/
def fragmentLengthAt (offset left : ℕ) : ℕ := min left (kBlockSize - offset - kHeaderSize)

/-- No append for the fragments of a record fails, except the header of a fragment that fills a
whole block, or an empty payload. -/
def HarmlessFragments : ℕ → ℕ → List Bool → Prop
  | _, _, [] => True
  | offset, left, [header] =>
    header = true → kHeaderSize + fragmentLengthAt offset left = kBlockSize
  | offset, left, header :: payload :: failures =>
    if header then kHeaderSize + fragmentLengthAt offset left = kBlockSize
    else if payload then fragmentLengthAt offset left = 0
    else left ≤ fragmentLengthAt offset left ∨
      HarmlessFragments 0 (left - fragmentLengthAt offset left) failures

/-- No append for a record fails, except the header of a fragment that fills a whole block, or an
empty payload. -/
def Harmless (offset left : ℕ) (failures : List Bool) : Prop :=
  if trailer offset = [] then HarmlessFragments (recordStart offset) left failures
  else failures.headD false = false ∧ HarmlessFragments 0 left failures.tail

/-- Every call of a run only meets harmless failures. -/
def Writer.MeetsHarmless (w : Writer) : List Slice → Prop
  | [] => True
  | record :: records => Harmless w.blockOffset record.length w.dest.failures ∧
    (w.addRecord record).2.MeetsHarmless records

/-! ## One round of the loop -/

/-- An append looks at the next failure. -/
theorem WritableFile.append_eq (file : WritableFile) (data : Slice) :
    file.append data = (!file.failures.headD false,
      { bytes := if file.failures.headD false then file.bytes else file.bytes ++ data
        failures := file.failures.tail }) := by
  obtain ⟨bytes, failures⟩ := file
  match failures with
  | [] => rfl
  | true :: failures => rfl
  | false :: failures => rfl

/-- `switchBlock` fills the trailer, unless the append fails. -/
theorem Writer.switchBlock_eq_of_failures (w : Writer) :
    w.switchBlock =
      ⟨{ bytes := if trailer w.blockOffset ≠ [] ∧ w.dest.failures.headD false = true then
            w.dest.bytes
          else w.dest.bytes ++ trailer w.blockOffset
         failures := if trailer w.blockOffset = [] then w.dest.failures
          else w.dest.failures.tail }, recordStart w.blockOffset⟩ := by
  obtain ⟨⟨bytes, failures⟩, offset⟩ := w
  unfold switchBlock recordStart
  dsimp only
  by_cases hfull : kBlockSize - offset < kHeaderSize
  · rw [if_pos hfull, if_pos hfull]
    have htrailer : trailer offset = List.replicate (kBlockSize - offset) 0 := if_pos hfull
    by_cases hpos : 0 < kBlockSize - offset
    · have hne : trailer offset ≠ [] := by
        rw [htrailer, ← List.length_pos_iff_ne_nil, List.length_replicate]
        exact hpos
      rw [if_pos hpos, if_neg hne, ← htrailer, WritableFile.append_eq]
      simp only [hne, ne_eq, not_false_eq_true, true_and]
    · have hnil : trailer offset = [] := by
        rw [htrailer, ← List.length_eq_zero_iff, List.length_replicate]
        omega
      rw [if_neg hpos, hnil]
      simp
  · have hnil : trailer offset = [] := if_neg hfull
    rw [if_neg hfull, if_neg hfull, hnil]
    simp

/-- `EmitPhysicalRecord` stops at the first append that fails. -/
theorem Writer.emitPhysicalRecord_eq_of_failures (w : Writer) (t : RecordType) (payload : Slice) :
    w.emitPhysicalRecord t payload =
      if w.dest.failures.headD false = true then
        (false, ⟨{ bytes := w.dest.bytes, failures := w.dest.failures.tail },
          w.blockOffset + kHeaderSize + payload.length⟩)
      else if w.dest.failures.tail.headD false = true then
        (false, ⟨{ bytes := w.dest.bytes ++ header t payload
                   failures := w.dest.failures.tail.tail },
          w.blockOffset + kHeaderSize + payload.length⟩)
      else
        (true, ⟨{ bytes := w.dest.bytes ++ PhysicalRecord.encode ⟨t, payload⟩
                  failures := w.dest.failures.tail.tail },
          w.blockOffset + kHeaderSize + payload.length⟩) := by
  unfold emitPhysicalRecord
  simp only [WritableFile.append_eq]
  by_cases hheader : w.dest.failures.headD false = true
  · rw [if_pos hheader, hheader]
    rfl
  · rw [if_neg hheader, eq_false_of_ne_true hheader]
    by_cases hpayload : w.dest.failures.tail.headD false = true
    · rw [if_pos hpayload, hpayload]
      rfl
    · rw [if_neg hpayload, eq_false_of_ne_true hpayload, PhysicalRecord.encode]
      simp

/-- After a switch of blocks, the length of the next fragment depends on its offset and on what is left
of the record only. -/
theorem Writer.fragmentLength_eq (w : Writer) (left : Slice) :
    w.switchBlock.fragmentLength left =
      fragmentLengthAt (recordStart w.blockOffset) left.length := by
  rw [switchBlock_eq_of_failures, fragmentLength, fragmentLengthAt]
  dsimp only
  split_ifs <;> omega

/-- The failures of a fragment, one by one. -/
theorem harmlessFragments_iff (offset left : ℕ) (failures : List Bool) :
    HarmlessFragments offset left failures ↔
      if failures.headD false = true then kHeaderSize + fragmentLengthAt offset left = kBlockSize
      else if failures.tail.headD false = true then fragmentLengthAt offset left = 0
      else left ≤ fragmentLengthAt offset left ∨
        HarmlessFragments 0 (left - fragmentLengthAt offset left) failures.tail.tail := by
  match failures with
  | [] => simp [HarmlessFragments]
  | [true] => simp [HarmlessFragments]
  | [false] => simp [HarmlessFragments]
  | header :: payload :: failures => rw [HarmlessFragments]; rfl

/-- A fragment fits in its block. -/
theorem fragmentLengthAt_le {offset : ℕ} (h : kHeaderSize ≤ kBlockSize - offset) (left : ℕ) :
    offset + kHeaderSize + fragmentLengthAt offset left ≤ kBlockSize ∧
      fragmentLengthAt offset left ≤ left ∧
      (fragmentLengthAt offset left < left →
        offset + kHeaderSize + fragmentLengthAt offset left = kBlockSize) := by
  have hpos : 0 < kHeaderSize := by decide
  unfold fragmentLengthAt
  omega

/-! ## Staying in step -/

/-- After a trailer the writer's offset is in step with the file exactly if the trailer was appended. -/
theorem Writer.switchBlock_inStep_iff {w : Writer} (h : w.InStep) (hle : w.blockOffset ≤ kBlockSize) :
    w.switchBlock.InStep ↔
      (trailer w.blockOffset ≠ [] → w.dest.failures.headD false = false) := by
  unfold InStep at h ⊢
  rw [switchBlock_eq_of_failures]
  dsimp only
  have hmod := start_mod hle h.symm
  have hroom := recordStart_room w.blockOffset
  have hlt : recordStart w.blockOffset < kBlockSize := by
    have : 0 < kHeaderSize := by decide
    omega
  rw [Nat.mod_eq_of_lt hlt]
  by_cases hfails : trailer w.blockOffset ≠ [] ∧ w.dest.failures.headD false = true
  · rw [if_pos hfails]
    refine iff_of_false ?_ (fun hno => Bool.false_ne_true ((hno hfails.1).symm.trans hfails.2))
    -- A trailer is shorter than a header, so that its loss shows.
    have hshort : (trailer w.blockOffset).length < kHeaderSize := by
      rw [trailer_length]
      split_ifs with hfull
      · exact hfull
      · decide
    have hpos := List.length_pos_iff_ne_nil.mpr hfails.1
    intro heq
    rw [← hmod] at heq
    unfold kBlockSize at heq
    unfold kHeaderSize at hshort
    omega
  · rw [if_neg hfails, List.length_append]
    exact iff_of_true hmod.symm (fun hne => eq_false_of_ne_true fun htrue => hfails ⟨hne, htrue⟩)

/-- The writer's offset after a physical record. -/
theorem Writer.emitPhysicalRecord_inStep_iff {w : Writer} (h : w.InStep) (t : RecordType)
    {payload : Slice} (hfit : w.blockOffset + kHeaderSize + payload.length ≤ kBlockSize) :
    (w.emitPhysicalRecord t payload).2.InStep ↔
      if w.dest.failures.headD false = true then kHeaderSize + payload.length = kBlockSize
      else w.dest.failures.tail.headD false = true → payload.length = 0 := by
  unfold InStep at h ⊢
  rw [emitPhysicalRecord_eq_of_failures]
  have hseven : kHeaderSize = 7 := rfl
  have hblock : kBlockSize = 32768 := rfl
  rw [hblock, hseven] at hfit ⊢
  rw [hblock] at h
  split_ifs with hheader hpayload
  · dsimp only
    omega
  · dsimp only
    rw [List.length_append, header_length, hseven]
    constructor
    · intro hmod _
      omega
    · intro hzero
      have := hzero hpayload
      omega
  · refine iff_of_true ?_ (fun hno => absurd hno hpayload)
    rw [List.length_append, PhysicalRecord.encode_length, hseven]
    dsimp only
    omega

/-- The failures of a trailer and of the fragments behind it. -/
theorem harmless_iff (w : Writer) (left : ℕ) :
    Harmless w.blockOffset left w.dest.failures ↔
      (trailer w.blockOffset ≠ [] → w.dest.failures.headD false = false) ∧
        HarmlessFragments (recordStart w.blockOffset) left w.switchBlock.dest.failures := by
  rw [Writer.switchBlock_eq_of_failures]
  unfold Harmless
  dsimp only
  by_cases hnil : trailer w.blockOffset = []
  · rw [if_pos hnil, if_pos hnil]
    exact ⟨fun h => ⟨fun hne => absurd hnil hne, h⟩, And.right⟩
  · have hstart : recordStart w.blockOffset = 0 := by
      unfold recordStart
      refine if_pos ?_
      by_contra hroom
      exact hnil (if_neg hroom)
    rw [if_neg hnil, if_neg hnil, hstart]
    exact ⟨fun h => ⟨fun _ => h.1, h.2⟩, fun h => ⟨h.1 hnil, h.2⟩⟩

/-- At the end of a block there is no trailer. -/
theorem trailer_block_end : trailer kBlockSize = [] := by
  rw [← List.length_eq_zero_iff, trailer_length]
  decide

/-- At the start of a block there is no trailer. -/
theorem trailer_block_start : trailer 0 = [] := by
  rw [← List.length_eq_zero_iff, trailer_length]
  decide

/-- `EmitPhysicalRecord` succeeds when neither of its appends fails. -/
theorem Writer.emitPhysicalRecord_ok_iff (w : Writer) (t : RecordType) (payload : Slice) :
    (w.emitPhysicalRecord t payload).1 = true ↔
      ¬ w.dest.failures.headD false = true ∧ ¬ w.dest.failures.tail.headD false = true := by
  rw [emitPhysicalRecord_eq_of_failures]
  split_ifs with hheader hpayload
  · exact iff_of_false not_false fun h => h.1 hheader
  · exact iff_of_false not_false fun h => h.2 hpayload
  · exact iff_of_true rfl ⟨hheader, hpayload⟩

/-- One round of the loop stays in step with the file if and only if the trailer is filled, and no
bytes of the physical record are lost. -/
theorem Writer.round_inStep_iff {w : Writer} (hstep : w.InStep) (hle : w.blockOffset ≤ kBlockSize)
    (t : RecordType) (left : Slice) :
    w.switchBlock.InStep ∧ (w.switchBlock.emitPhysicalRecord t
        (left.take (w.switchBlock.fragmentLength left))).2.InStep ↔
      (trailer w.blockOffset ≠ [] → w.dest.failures.headD false = false) ∧
        if w.switchBlock.dest.failures.headD false = true then
          kHeaderSize + fragmentLengthAt (recordStart w.blockOffset) left.length = kBlockSize
        else w.switchBlock.dest.failures.tail.headD false = true →
          fragmentLengthAt (recordStart w.blockOffset) left.length = 0 := by
  obtain ⟨hfit, hnle, -⟩ := fragmentLengthAt_le (recordStart_room w.blockOffset) left.length
  have hlen : (left.take (w.switchBlock.fragmentLength left)).length =
      fragmentLengthAt (recordStart w.blockOffset) left.length := by
    rw [fragmentLength_eq]
    exact List.length_take_of_le hnle
  have hoffset : w.switchBlock.blockOffset = recordStart w.blockOffset := by
    rw [switchBlock_eq_of_failures]
  rw [switchBlock_inStep_iff hstep hle]
  refine and_congr_right fun hswitch => ?_
  rw [emitPhysicalRecord_inStep_iff ((switchBlock_inStep_iff hstep hle).mpr hswitch) t
    (by rw [hlen, hoffset]; exact hfit), hlen]

/-- A call stays in step with the file if and only if it meets harmless failures only. -/
theorem Writer.trace_inStep_iff (w : Writer) (isBegin : Bool) (left : Slice) :
    w.InStep → w.blockOffset ≤ kBlockSize →
    ((∀ w' ∈ w.trace isBegin left, w'.InStep) ↔
      Harmless w.blockOffset left.length w.dest.failures) := by
  induction w, isBegin, left using Writer.addFragments.induct with
  | case1 w isBegin left n r hmore ih =>
    intro hstep hle
    have hn : n = fragmentLengthAt (recordStart w.blockOffset) left.length :=
      w.fragmentLength_eq left
    obtain ⟨hheader, hpayload⟩ := (emitPhysicalRecord_ok_iff _ _ _).mp hmore.1
    have hround := round_inStep_iff hstep hle (fragmentType isBegin (decide (left.length = n))) left
    have htrace : w.trace isBegin left = w.switchBlock :: r.2 :: r.2.trace false (left.drop n) := by
      rw [trace]
      exact congrArg (fun ws => w.switchBlock :: r.2 :: ws) (if_pos hmore)
    -- A fragment that is not the last one fills its block.
    have hoffset : r.2.blockOffset = kBlockSize := by
      obtain ⟨-, hnle, hfull⟩ :=
        fragmentLengthAt_le (recordStart_room w.blockOffset) left.length
      have hblock : r.2.blockOffset =
          w.switchBlock.blockOffset + kHeaderSize + (left.take n).length := rfl
      rw [hblock, switchBlock_eq_of_failures, List.length_take_of_le (by omega), hn]
      exact hfull (by omega)
    have hfailures : r.2.dest.failures = w.switchBlock.dest.failures.tail.tail := by
      show (w.switchBlock.emitPhysicalRecord _ _).2.dest.failures = _
      rw [emitPhysicalRecord_eq_of_failures, if_neg hheader, if_neg hpayload]
    rw [htrace, List.forall_mem_cons, List.forall_mem_cons, ← and_assoc, harmless_iff]
    constructor
    · rintro ⟨hfirst, hrest⟩
      have hih := (ih hfirst.2 hoffset.le).mp hrest
      rw [hoffset, Harmless, if_pos trailer_block_end, hfailures, List.length_drop, hn] at hih
      refine ⟨(hround.mp hfirst).1, ?_⟩
      rw [harmlessFragments_iff, if_neg hheader, if_neg hpayload]
      exact Or.inr hih
    · rintro ⟨hswitch, hharmless⟩
      rw [harmlessFragments_iff, if_neg hheader, if_neg hpayload, ← hn] at hharmless
      have hfirst := hround.mpr ⟨hswitch, by
        rw [if_neg hheader]
        exact fun h => absurd h hpayload⟩
      refine ⟨hfirst, (ih hfirst.2 hoffset.le).mpr ?_⟩
      rw [hoffset, Harmless, if_pos trailer_block_end, hfailures, List.length_drop]
      exact hharmless.resolve_left (by omega)
  | case2 w isBegin left n r hlast =>
    intro hstep hle
    have hn : n = fragmentLengthAt (recordStart w.blockOffset) left.length :=
      w.fragmentLength_eq left
    have hround := round_inStep_iff hstep hle (fragmentType isBegin (decide (left.length = n))) left
    have htrace : w.trace isBegin left = [w.switchBlock, r.2] := by
      rw [trace]
      exact congrArg (fun ws => w.switchBlock :: r.2 :: ws) (if_neg hlast)
    rw [htrace, List.forall_mem_cons, List.forall_mem_cons, ← and_assoc, harmless_iff,
      harmlessFragments_iff]
    rw [and_iff_left (List.forall_mem_nil _)]
    refine hround.trans (and_congr_right fun _ => ?_)
    split_ifs with hheader hpayload
    · exact Iff.rfl
    · exact ⟨fun h => h hpayload, fun h _ => h⟩
    · -- Both appends succeed, so the loop ends because nothing is left.
      have hok := (emitPhysicalRecord_ok_iff w.switchBlock
        (fragmentType isBegin (decide (left.length = n))) (left.take n)).mpr ⟨hheader, hpayload⟩
      have hend : ¬ 0 < left.length - n := fun h => hlast ⟨hok, h⟩
      exact iff_of_true (fun h => absurd h hpayload) (Or.inl (by omega))

/-! ## What is in the file -/

/-- The file holds physical records, and perhaps the trailer behind them; the writer goes on where
they end. -/
structure Writer.Holds (w : Writer) (ps : List PhysicalRecord) : Prop where
  /-- The bytes of the file, and the part of a trailer that is missing. -/
  bytes : w.dest.bytes ++ trailer w.blockOffset =
    encodeAll kBlockSize ps ++ trailer (endAll kBlockSize ps)
  /-- The next physical record starts where the physical records end. -/
  start : recordStart w.blockOffset = recordStart (endAll kBlockSize ps)
  /-- The writer is right behind the physical records, or their trailer is filled. -/
  trailing : w.blockOffset = endAll kBlockSize ps ∨ trailer w.blockOffset = []
  /-- The physical records fit. -/
  fit : Fit kBlockSize ps
  /-- The offset lies in the block. -/
  le : w.blockOffset ≤ kBlockSize

/-- The physical records of a record whose writing was given up: none of them is the last one. -/
inductive GivenUp : Bool → List PhysicalRecord → Prop
  /-- Nothing was written. -/
  | nil {isBegin : Bool} : GivenUp isBegin []
  /-- A fragment was written that is not the last one. -/
  | cons {isBegin : Bool} {payload : Slice} {ps : List PhysicalRecord} (h : GivenUp false ps) :
      GivenUp isBegin (⟨fragmentType isBegin false, payload⟩ :: ps)

/-- What a call has written: all of the record, or a part of it that the reader does not take for a
record. A record that lost an empty payload is whole, although the call failed. -/
inductive Wrote (offset : ℕ) (isBegin : Bool) (left : Slice) : Bool → List PhysicalRecord → Prop
  /-- The whole record. -/
  | whole {ok : Bool} {ps : List PhysicalRecord} (h : Fragments offset isBegin left ps) :
      Wrote offset isBegin left ok ps
  /-- A part of it. -/
  | part {ps : List PhysicalRecord} (h : GivenUp isBegin ps) : Wrote offset isBegin left false ps

/-- A physical record behind those in the file. -/
theorem Writer.Holds.snoc {w w' : Writer} {ps : List PhysicalRecord} {p : PhysicalRecord}
    (h : w.Holds ps) (hbytes : w'.dest.bytes = w.dest.bytes ++ trailer w.blockOffset ++ p.encode)
    (hoffset : w'.blockOffset = recordStart w.blockOffset + kHeaderSize + p.payload.length)
    (hle : w'.blockOffset ≤ kBlockSize) (htype : p.type ≠ .zero) : w'.Holds (ps ++ [p]) := by
  have hend : endAll kBlockSize (ps ++ [p]) = w'.blockOffset := by
    rw [endAll, List.foldl_append, List.foldl_cons, List.foldl_nil, ← endAll, recordEnd, ← h.start,
      hoffset]
  refine ⟨?_, by rw [hend], Or.inl hend.symm, h.fit.append ⟨?_, htype, trivial⟩, hle⟩
  · rw [hend, hbytes, h.bytes, encodeAll_append, encodeAll, encodeAll, List.append_nil,
      List.append_assoc, List.append_assoc, List.append_assoc, List.append_assoc]
  · rw [recordEnd, ← h.start, ← hoffset]
    exact hle

/-- The trailer behind the physical records in the file. -/
theorem Writer.Holds.trailer {w w' : Writer} {ps : List PhysicalRecord} (h : w.Holds ps)
    (hbytes : w'.dest.bytes = w.dest.bytes ++ Log.trailer w.blockOffset)
    (hstart : recordStart w.blockOffset = 0) (hoffset : w'.blockOffset = kBlockSize) :
    w'.Holds ps := by
  refine ⟨?_, ?_, Or.inr (by rw [hoffset, trailer_block_end]), h.fit, hoffset.le⟩
  · rw [hoffset, trailer_block_end, List.append_nil, hbytes, h.bytes]
  · rw [hoffset, ← h.start, hstart]
    rfl

/-- A trailer that does not fail is filled. -/
theorem Writer.switchBlock_filled {w : Writer}
    (h : trailer w.blockOffset ≠ [] → w.dest.failures.headD false = false) :
    w.switchBlock.dest.bytes = w.dest.bytes ++ trailer w.blockOffset ∧
      w.switchBlock.blockOffset = recordStart w.blockOffset := by
  rw [switchBlock_eq_of_failures]
  refine ⟨if_neg fun hfails => ?_, rfl⟩
  exact Bool.false_ne_true ((h hfails.1).symm.trans hfails.2)

/-- A physical record whose two appends succeed, behind a trailer that is filled. -/
theorem Writer.Holds.emitted {w : Writer} {ps : List PhysicalRecord} (h : w.Holds ps)
    (htrailer : Log.trailer w.blockOffset ≠ [] → w.dest.failures.headD false = false)
    {t : RecordType} {payload : Slice} (htype : t ≠ .zero)
    (hok : (w.switchBlock.emitPhysicalRecord t payload).1 = true)
    (hfit : recordStart w.blockOffset + kHeaderSize + payload.length ≤ kBlockSize) :
    let r := w.switchBlock.emitPhysicalRecord t payload
    r.2.Holds (ps ++ [⟨t, payload⟩]) ∧
      r.2.blockOffset = recordStart w.blockOffset + kHeaderSize + payload.length ∧
      r.2.dest.failures = w.switchBlock.dest.failures.tail.tail := by
  obtain ⟨hheader, hpayload⟩ := (emitPhysicalRecord_ok_iff _ _ _).mp hok
  obtain ⟨hbytes, hoffset⟩ := switchBlock_filled htrailer
  dsimp only
  rw [emitPhysicalRecord_eq_of_failures, if_neg hheader, if_neg hpayload, hbytes, hoffset]
  exact ⟨h.snoc rfl rfl hfit htype, rfl, rfl⟩

/-- The last round of a call that only meets harmless failures: an append has failed, or nothing is
left. -/
theorem Writer.Holds.lastRound {w : Writer} {ps : List PhysicalRecord} (h : w.Holds ps)
    (isBegin : Bool) {left : Slice} {n : ℕ}
    (hn : n = fragmentLengthAt (recordStart w.blockOffset) left.length)
    (hharmless : Harmless w.blockOffset left.length w.dest.failures)
    (hlast : ¬ ((w.switchBlock.emitPhysicalRecord (fragmentType isBegin (decide (left.length = n)))
      (left.take n)).1 = true ∧ 0 < left.length - n)) :
    let r := w.switchBlock.emitPhysicalRecord (fragmentType isBegin (decide (left.length = n)))
      (left.take n)
    ∃ qs, r.2.Holds (ps ++ qs) ∧ Wrote w.blockOffset isBegin left r.1 qs := by
  intro r
  obtain ⟨hfit, hnle, -⟩ := fragmentLengthAt_le (recordStart_room w.blockOffset) left.length
  rw [← hn] at hfit hnle
  have hlen : (left.take n).length = n := List.length_take_of_le hnle
  rw [harmless_iff, harmlessFragments_iff, ← hn] at hharmless
  obtain ⟨htrailer, hrest⟩ := hharmless
  obtain ⟨hbytes, hoffset⟩ := switchBlock_filled htrailer
  have hr : r = _ := emitPhysicalRecord_eq_of_failures w.switchBlock
    (fragmentType isBegin (decide (left.length = n))) (left.take n)
  rw [hbytes, hoffset, hlen] at hr
  split_ifs at hr hrest with hheader hpayload
  · -- The header of a whole block is lost, and only the trailer before it is written.
    refine ⟨[], ?_, ?_⟩
    · rw [List.append_nil]
      exact h.trailer (by rw [hr]) (by omega) (by rw [hr]; dsimp only; omega)
    · rw [hr]
      exact .part .nil
  · -- The payload is empty, so the physical record is complete without it.
    have hempty : left.take n = [] := List.length_eq_zero_iff.mp (hlen.trans hrest)
    rw [hempty] at hr
    refine ⟨[⟨fragmentType isBegin (decide (left.length = n)), []⟩], ?_, ?_⟩
    · refine h.snoc ?_ ?_ ?_ (fragmentType_ne_zero _ _)
      · rw [hr, PhysicalRecord.encode, List.append_nil]
      · rw [hr, hrest]
        rfl
      · rw [hr]
        exact hfit
    · rw [hr]
      by_cases hend : left.length = n
      · rw [decide_eq_true hend]
        obtain rfl : left = [] := List.length_eq_zero_iff.mp (hend.trans hrest)
        exact .whole (.final (by rw [hrest] at hfit; exact hfit))
      · rw [decide_eq_false hend]
        exact .part (.cons .nil)
  · -- Both appends succeed, so the loop ends because nothing is left.
    have hok : r.1 = true := by rw [hr]
    have hend : left.length = n := by
      have hmore : ¬ 0 < left.length - n := fun hmore => hlast ⟨hok, hmore⟩
      omega
    have hholds := (h.emitted htrailer (fragmentType_ne_zero _ _) hok (by rw [hlen]; exact hfit)).1
    refine ⟨_, hholds, ?_⟩
    rw [decide_eq_true hend, ← hend, List.take_length]
    exact .whole (.final (by rw [hend]; exact hfit))

/-- A call that only meets harmless failures leaves physical records in the file. -/
theorem Writer.addFragments_holds (w : Writer) (isBegin : Bool) (left : Slice) :
    ∀ ps, w.Holds ps → Harmless w.blockOffset left.length w.dest.failures →
    ∃ qs, (w.addFragments isBegin left).2.Holds (ps ++ qs) ∧
      Wrote w.blockOffset isBegin left (w.addFragments isBegin left).1 qs := by
  induction w, isBegin, left using Writer.addFragments.induct with
  | case1 w isBegin left n r hmore ih =>
    intro ps hps hharmless
    have hn : n = fragmentLengthAt (recordStart w.blockOffset) left.length :=
      w.fragmentLength_eq left
    obtain ⟨hfit, hnle, hfull⟩ :=
      fragmentLengthAt_le (recordStart_room w.blockOffset) left.length
    rw [← hn] at hfit hnle hfull
    have hlen : (left.take n).length = n := List.length_take_of_le hnle
    -- The loop goes on only behind two appends that succeeded, and then the block is full.
    obtain ⟨hheader, hpayload⟩ := (emitPhysicalRecord_ok_iff _ _ _).mp hmore.1
    rw [harmless_iff, harmlessFragments_iff, if_neg hheader, if_neg hpayload, ← hn] at hharmless
    obtain ⟨htrailer, hrest⟩ := hharmless
    obtain ⟨hholds, hoffset, hfailures⟩ :=
      hps.emitted htrailer (fragmentType_ne_zero _ _) hmore.1 (by rw [hlen]; exact hfit)
    have hend : r.2.blockOffset = kBlockSize := by
      rw [hoffset, hlen]
      exact hfull (by omega)
    obtain ⟨qs, hqs, hwrote⟩ := ih _ hholds (by
      rw [hend, Harmless, if_pos trailer_block_end, List.length_drop, hfailures]
      exact hrest.resolve_left (by omega))
    have hstep : w.addFragments isBegin left = r.2.addFragments false (left.drop n) := by
      rw [addFragments]
      exact if_pos hmore
    have hnot : decide (left.length = n) = false := decide_eq_false (by omega)
    rw [hnot] at hqs
    refine ⟨⟨fragmentType isBegin false, left.take n⟩ :: qs, ?_, ?_⟩
    · rw [hstep, ← List.singleton_append, ← List.append_assoc]
      exact hqs
    · rw [hstep]
      generalize (r.2.addFragments false (left.drop n)).1 = ok at hwrote ⊢
      cases hwrote with
      | whole hfrag =>
        refine .whole ?_
        rw [hoffset] at hfrag
        have hcons := @Fragments.more w.blockOffset isBegin _ _ _ (by rw [hlen]; exact hfit) hfrag
        rwa [List.take_append_drop] at hcons
      | part hgiven => exact .part (.cons hgiven)
  | case2 w isBegin left n r hlast =>
    intro ps hps hharmless
    have hstep : w.addFragments isBegin left = r := by
      rw [addFragments]
      exact if_neg hlast
    rw [hstep]
    exact hps.lastRound isBegin (w.fragmentLength_eq left) hharmless hlast

/-! ## Reading the file -/

/-- What the scan of a physical record gives. -/
def PhysicalRecord.event (p : PhysicalRecord) : ℕ × Slice := (p.type.toNat, p.payload)

/-- The scan of physical records, with or without the trailer behind them. -/
theorem Reader.At.scan_encodeAll : ∀ {ps : List PhysicalRecord} {rd : Reader} {offset : ℕ}
    {tail : Slice}, rd.At (encodeAll offset ps ++ tail) offset → Fit offset ps →
    tail = [] ∨ tail = trailer (endAll offset ps) → rd.scan = ps.map PhysicalRecord.event
  | [], rd, offset, tail, hat, _, htail => by
    rw [encodeAll, List.nil_append] at hat
    rcases htail with rfl | rfl
    · obtain ⟨rd', hread, -⟩ := hat.readPhysicalRecord_end
      exact Reader.scan_eof hread
    · rw [endAll, List.foldl_nil, ← List.append_nil (trailer offset)] at hat
      obtain ⟨rd₁, hat₁, -, hskip⟩ := hat.skip_trailer
      obtain ⟨rd', hread, -⟩ := hat₁.readPhysicalRecord_end
      exact Reader.scan_eof (hskip.trans hread)
  | p :: ps, rd, offset, tail, hat, hfit, htail => by
    obtain ⟨hend, htype, hrest⟩ := hfit
    rw [encodeAll, List.append_assoc, List.append_assoc] at hat
    obtain ⟨rd₁, hat₁, -, hskip⟩ := hat.skip_trailer
    obtain ⟨rd₂, hread, hat₂, -⟩ := hat₁.readPhysicalRecord hend htype
    rw [Reader.scan_cons (hskip.trans hread) (by cases p.type <;> decide), List.map_cons,
      scan_encodeAll hat₂ hrest htail]
    rfl

/-- The physical records of a record are assembled to it. -/
theorem Fragments.assemble {offset : ℕ} {isBegin : Bool} {data : Slice} {ps : List PhysicalRecord}
    (h : Fragments offset isBegin data ps) : ∀ (scratch : Option Slice) (es : List (ℕ × Slice)),
    Log.assemble scratch (ps.map PhysicalRecord.event ++ es) =
      finish isBegin scratch data ++ Log.assemble none es := by
  induction h with
  | @final offset isBegin payload hfit =>
    intro scratch es
    exact assemble_final isBegin scratch payload es
  | @more offset isBegin payload rest ps hfit hrest ih =>
    intro scratch es
    have hmore := assemble_more isBegin scratch payload (ps.map PhysicalRecord.event ++ es)
    rw [List.map_cons, List.cons_append, PhysicalRecord.event, hmore, ih]
    unfold finish
    cases isBegin
    · simp [Function.comp_def]
    · simp

/-- The physical records of a record that was given up are assembled to nothing. -/
theorem GivenUp.assemble {isBegin : Bool} {ps : List PhysicalRecord} (h : GivenUp isBegin ps) :
    ∀ (scratch : Option Slice) (es : List (ℕ × Slice)), ∃ scratch',
      Log.assemble scratch (ps.map PhysicalRecord.event ++ es) = Log.assemble scratch' es := by
  induction h with
  | nil => exact fun scratch es => ⟨scratch, rfl⟩
  | @cons isBegin payload ps h ih =>
    intro scratch es
    have hmore := assemble_more isBegin scratch payload (ps.map PhysicalRecord.event ++ es)
    rw [List.map_cons, List.cons_append, PhysicalRecord.event, hmore]
    exact ih _ _

/-- A run that only meets harmless failures leaves physical records in the file that are assembled to
the acknowledged records, and perhaps others. -/
theorem Writer.addAll_holds : ∀ (records : List Slice) (w : Writer) (ps : List PhysicalRecord),
    w.Holds ps → w.MeetsHarmless records → ∃ qs, (w.addAll records).2.Holds (ps ++ qs) ∧
      ∀ scratch, (select (w.addAll records).1 records).Sublist
        (assemble scratch (qs.map PhysicalRecord.event))
  | [], w, ps, hps, _ => ⟨[], by rw [List.append_nil]; exact hps, fun _ => List.nil_sublist _⟩
  | record :: records, w, ps, hps, ⟨hharmless, hrest⟩ => by
    obtain ⟨qs, hqs, hwrote⟩ := w.addFragments_holds true record ps hps hharmless
    obtain ⟨qs', hqs', hsub⟩ := addAll_holds records (w.addRecord record).2 (ps ++ qs) hqs hrest
    refine ⟨qs ++ qs', by rw [← List.append_assoc]; exact hqs', fun scratch => ?_⟩
    rw [addAll]
    dsimp only
    rw [List.map_append]
    unfold addRecord at hsub ⊢
    generalize (w.addFragments true record).1 = ok at hwrote ⊢
    cases hwrote with
    | whole hfrag =>
      rw [hfrag.assemble]
      cases ok with
      | true => exact (hsub none).cons_cons record
      | false => exact (hsub none).cons record
    | part hgiven =>
      obtain ⟨scratch', heq⟩ := hgiven.assemble scratch (qs'.map PhysicalRecord.event)
      rw [heq]
      exact hsub scratch'

/-! ## Runs -/

/-- The writer after a call is the one after its last step. -/
theorem Writer.addFragments_mem_trace (w : Writer) (isBegin : Bool) (left : Slice) :
    (w.addFragments isBegin left).2 ∈ w.trace isBegin left := by
  induction w, isBegin, left using Writer.addFragments.induct with
  | case1 w isBegin left n r hmore ih =>
    have hstep : w.addFragments isBegin left = r.2.addFragments false (left.drop n) := by
      rw [addFragments]
      exact if_pos hmore
    have htrace : w.trace isBegin left = w.switchBlock :: r.2 :: r.2.trace false (left.drop n) := by
      rw [trace]
      exact congrArg (fun ws => w.switchBlock :: r.2 :: ws) (if_pos hmore)
    rw [hstep, htrace]
    exact List.mem_cons_of_mem _ (List.mem_cons_of_mem _ ih)
  | case2 w isBegin left n r hlast =>
    have hstep : w.addFragments isBegin left = r := by
      rw [addFragments]
      exact if_neg hlast
    have htrace : w.trace isBegin left = [w.switchBlock, r.2] := by
      rw [trace]
      exact congrArg (fun ws => w.switchBlock :: r.2 :: ws) (if_neg hlast)
    rw [hstep, htrace]
    exact List.mem_cons_of_mem _ List.mem_cons_self

/-- The writer never leaves the block. -/
theorem Writer.addFragments_le (w : Writer) (isBegin : Bool) (left : Slice) :
    (w.addFragments isBegin left).2.blockOffset ≤ kBlockSize := by
  induction w, isBegin, left using Writer.addFragments.induct with
  | case1 w isBegin left n r hmore ih =>
    have hstep : w.addFragments isBegin left = r.2.addFragments false (left.drop n) := by
      rw [addFragments]
      exact if_pos hmore
    rw [hstep]
    exact ih
  | case2 w isBegin left n r hlast =>
    have hstep : w.addFragments isBegin left = r := by
      rw [addFragments]
      exact if_neg hlast
    have hn : n = fragmentLengthAt (recordStart w.blockOffset) left.length :=
      w.fragmentLength_eq left
    obtain ⟨hfit, hnle, -⟩ := fragmentLengthAt_le (recordStart_room w.blockOffset) left.length
    have hblock : r.2.blockOffset =
        w.switchBlock.blockOffset + kHeaderSize + (left.take n).length := rfl
    rw [hstep, hblock, switchBlock_eq_of_failures, List.length_take_of_le (by omega), hn]
    exact hfit

/-- A run stays in step with the file if and only if it meets harmless failures only. -/
theorem Writer.staysInStep_iff : ∀ (records : List Slice) (w : Writer), w.InStep →
    w.blockOffset ≤ kBlockSize → (w.StaysInStep records ↔ w.MeetsHarmless records)
  | [], w, hstep, _ => iff_of_true hstep trivial
  | record :: records, w, hstep, hle => by
    have hcall := w.trace_inStep_iff true record hstep hle
    have hle' : (w.addRecord record).2.blockOffset ≤ kBlockSize := w.addFragments_le true record
    constructor
    · intro ⟨_, htrace, hrest⟩
      have hstep' := htrace _ (w.addFragments_mem_trace true record)
      exact ⟨hcall.mp htrace, (staysInStep_iff records _ hstep' hle').mp hrest⟩
    · intro ⟨hharmless, hrest⟩
      have htrace := hcall.mpr hharmless
      have hstep' := htrace _ (w.addFragments_mem_trace true record)
      exact ⟨hstep, htrace, (staysInStep_iff records _ hstep' hle').mpr hrest⟩

/-- A file that holds physical records is read back to what they are assembled to. -/
theorem Writer.Holds.readRecords {w : Writer} {ps : List PhysicalRecord} (h : w.Holds ps) :
    ∃ rd', Reader.readRecords ((assemble none (ps.map PhysicalRecord.event)).length + 1)
        { file := { rest := w.dest.bytes }, checksum := true } =
      ((assemble none (ps.map PhysicalRecord.event)).map some ++ [none], rd') := by
  obtain ⟨tail, hbytes, htail⟩ : ∃ tail, w.dest.bytes = encodeAll kBlockSize ps ++ tail ∧
      (tail = [] ∨ tail = Log.trailer (endAll kBlockSize ps)) := by
    have hsum := h.bytes
    rcases h.trailing with hoffset | hnil
    · rw [hoffset] at hsum
      exact ⟨[], by rw [List.append_nil]; exact List.append_cancel_right hsum, Or.inl rfl⟩
    · rw [hnil, List.append_nil] at hsum
      exact ⟨_, hsum, Or.inr rfl⟩
  have hat := Reader.at_start w.dest.bytes true
  have hscan : Reader.scan { file := { rest := w.dest.bytes }, checksum := true } =
      ps.map PhysicalRecord.event := by
    refine Reader.At.scan_encodeAll ?_ h.fit htail
    rwa [hbytes] at hat ⊢
  exact Reader.readRecords_scan _ _ rfl (by rw [hscan])

/-- Whatever records are added to an empty log, and whichever appends fail: the writer stays in step
with the file and every acknowledged record is read back if and only if no append fails but those of
headers of fragments that fill a whole block, and of empty payloads. -/
theorem acknowledgedRead_iff (records : List Slice) (failures : List Bool) :
    AcknowledgedRead { dest := { failures := failures } } records ∧
        Writer.StaysInStep { dest := { failures := failures } } records ↔
      Writer.MeetsHarmless { dest := { failures := failures } } records := by
  have hstep : Writer.InStep { dest := { failures := failures } } := rfl
  have hsync := Writer.staysInStep_iff records _ hstep (Nat.zero_le _)
  constructor
  · intro ⟨_, hstays⟩
    exact hsync.mp hstays
  · intro hharmless
    refine ⟨?_, hsync.mpr hharmless⟩
    have hempty : Writer.Holds { dest := { failures := failures } } [] := by
      refine ⟨?_, rfl, Or.inr trailer_block_start, trivial, Nat.zero_le _⟩
      rw [trailer_block_start, endAll, List.foldl_nil, trailer_block_end]
      rfl
    obtain ⟨qs, hqs, hsub⟩ := Writer.addAll_holds records _ [] hempty hharmless
    rw [List.nil_append] at hqs
    obtain ⟨rd', hread⟩ := hqs.readRecords
    exact ⟨_, rd', hread, hsub none⟩

/-- A record whose payload is lost takes the next record with it, although that one is
acknowledged. -/
theorem acknowledged_record_lost :
    (Writer.addAll { dest := { failures := [false, true] } } exampleRecords).1 = [false, true] ∧
      ¬ AcknowledgedRead { dest := { failures := [false, true] } } exampleRecords := by
  refine ⟨by decide +kernel, ?_⟩
  intro ⟨returned, rd', hread, hsub⟩
  have hnone : (Reader.readRecord { file := { rest := (Writer.addAll
      { dest := { failures := [false, true] } } exampleRecords).2.dest.bytes } }).1 = none := by
    decide +kernel
  have hselect : select (Writer.addAll { dest := { failures := [false, true] } } exampleRecords).1
      exampleRecords = [[2]] := by decide +kernel
  rw [hselect] at hsub
  cases returned with
  | nil => exact absurd hsub.length_le (by decide)
  | cons record returned =>
    rw [List.length_cons, Reader.readRecords] at hread
    have hfirst := congrArg (fun r => r.1.head?) hread
    dsimp only [List.map_cons, List.cons_append, List.head?_cons] at hfirst
    rw [hnone] at hfirst
    exact absurd hfirst (by simp)

/-! ## Calls that succeed -/

/-- A writer on a file whose appends do not fail. -/
def Writer.clear (w : Writer) : Writer := { w with dest := { bytes := w.dest.bytes } }

/-- The append that fills the block before the next record, if there is one, does not fail. -/
def Writer.TrailerFills (w : Writer) : Prop :=
  trailer w.blockOffset ≠ [] → w.dest.failures.headD false = false

/-- The length of a fragment does not depend on failures. -/
theorem Writer.clear_fragmentLength (w : Writer) (left : Slice) :
    w.clear.fragmentLength left = w.fragmentLength left := rfl

/-- Filling the block does the same without failures. -/
theorem Writer.TrailerFills.switchBlock_clear {w : Writer} (h : w.TrailerFills) :
    w.clear.switchBlock = w.switchBlock.clear := by
  obtain ⟨hbytes, hoffset⟩ := switchBlock_filled h
  have hclear : w.clear.TrailerFills := fun _ => rfl
  obtain ⟨hbytes', hoffset'⟩ := switchBlock_filled hclear
  have hfailures : w.clear.switchBlock.dest.failures = [] := by
    rw [switchBlock_eq_of_failures]
    show (if _ then ([] : List Bool) else [].tail) = []
    split_ifs <;> rfl
  have hdest : w.clear.switchBlock.dest = w.switchBlock.clear.dest := by
    cases hd : w.clear.switchBlock.dest with
    | mk bytes failures =>
      rw [hd] at hbytes' hfailures
      dsimp only at hbytes' hfailures
      rw [hbytes', hfailures]
      show _ = WritableFile.mk w.switchBlock.dest.bytes []
      rw [hbytes]
      rfl
  cases hw : w.clear.switchBlock with
  | mk dest offset =>
    rw [hw] at hdest hoffset'
    dsimp only at hdest hoffset'
    rw [hdest, hoffset']
    show _ = Writer.mk _ w.switchBlock.blockOffset
    rw [hoffset]
    rfl

/-- A physical record that is written is written in the same way without failures. -/
theorem Writer.emitPhysicalRecord_clear {w : Writer} {t : RecordType} {payload : Slice}
    (h : (w.emitPhysicalRecord t payload).1 = true) :
    w.clear.emitPhysicalRecord t payload = (true, (w.emitPhysicalRecord t payload).2.clear) := by
  obtain ⟨hheader, hpayload⟩ := (w.emitPhysicalRecord_ok_iff t payload).mp h
  rw [emitPhysicalRecord_eq_of_failures, emitPhysicalRecord_eq_of_failures, if_neg hheader,
    if_neg hpayload]
  rfl

/-- A record that is written, with a trailer before it that is filled, is written in the same way
without failures. -/
theorem Writer.addFragments_clear (w : Writer) (isBegin : Bool) (left : Slice) :
    w.TrailerFills → (w.addFragments isBegin left).1 = true →
    w.clear.addFragments isBegin left = (true, (w.addFragments isBegin left).2.clear) := by
  induction w, isBegin, left using Writer.addFragments.induct with
  | case1 w isBegin left n r hmore ih =>
    intro htrailer hok
    have hloop : w.addFragments isBegin left = r.2.addFragments false (left.drop n) := by
      rw [addFragments]
      exact if_pos hmore
    have hloop' : w.clear.addFragments isBegin left =
        r.2.clear.addFragments false (left.drop n) := by
      rw [addFragments, htrailer.switchBlock_clear]
      rw [clear_fragmentLength, emitPhysicalRecord_clear hmore.1]
      exact if_pos ⟨rfl, hmore.2⟩
    -- The fragment has filled its block, so that no trailer follows.
    have hfull : r.2.TrailerFills := by
      refine fun hne => absurd ?_ hne
      have hroom := recordStart_room w.blockOffset
      have hn : n = fragmentLengthAt (recordStart w.blockOffset) left.length := w.fragmentLength_eq left
      obtain ⟨-, hle, hfill⟩ := fragmentLengthAt_le hroom left.length
      have hoffset : r.2.blockOffset = kBlockSize := by
        show w.switchBlock.blockOffset + kHeaderSize + (left.take n).length = kBlockSize
        rw [List.length_take, (switchBlock_filled htrailer).2, hn, Nat.min_eq_left hle]
        exact hfill (by omega)
      rw [hoffset, trailer_block_end]
    rw [hloop] at hok ⊢
    rw [hloop']
    exact ih hfull hok
  | case2 w isBegin left n r hmore =>
    intro htrailer hok
    have hloop : w.addFragments isBegin left = r := by
      rw [addFragments]
      exact if_neg hmore
    rw [hloop] at hok ⊢
    rw [addFragments, htrailer.switchBlock_clear]
    rw [clear_fragmentLength, emitPhysicalRecord_clear hok]
    exact if_neg fun h => hmore ⟨hok, h.2⟩

/-- A call that succeeds, with a trailer before its record that is filled, does what it does without
failures. -/
theorem Writer.addRecord_clear {w : Writer} {record : Slice} (h : w.TrailerFills)
    (hok : (w.addRecord record).1 = true) :
    w.clear.addRecord record = (true, (w.addRecord record).2.clear) :=
  w.addFragments_clear true record h hok

/-- A call in which no append fails succeeds. -/
theorem Writer.addFragments_ok (w : Writer) (isBegin : Bool) (left : Slice) :
    (∀ fails ∈ w.dest.failures, fails = false) → (w.addFragments isBegin left).1 = true ∧
      ∀ fails ∈ (w.addFragments isBegin left).2.dest.failures, fails = false := by
  have hhead : ∀ {failures : List Bool}, (∀ fails ∈ failures, fails = false) →
      failures.headD false = false ∧ ∀ fails ∈ failures.tail, fails = false := by
    intro failures h
    cases failures with
    | nil => exact ⟨rfl, h⟩
    | cons fails failures =>
      exact ⟨h fails List.mem_cons_self, fun f hf => h f (List.mem_cons_of_mem _ hf)⟩
  -- One round only takes flags off the list.
  have hround : ∀ (w : Writer) (t : RecordType) (payload : Slice),
      (∀ fails ∈ w.dest.failures, fails = false) →
      (w.switchBlock.emitPhysicalRecord t payload).1 = true ∧
        ∀ fails ∈ (w.switchBlock.emitPhysicalRecord t payload).2.dest.failures, fails = false := by
    intro w t payload h
    have hswitch : ∀ fails ∈ w.switchBlock.dest.failures, fails = false := by
      rw [switchBlock_eq_of_failures]
      dsimp only
      split_ifs
      · exact h
      · exact (hhead h).2
    obtain ⟨hheader, htail⟩ := hhead hswitch
    obtain ⟨hpayload, htail'⟩ := hhead htail
    rw [emitPhysicalRecord_eq_of_failures, if_neg (by rw [hheader]; exact Bool.false_ne_true),
      if_neg (by rw [hpayload]; exact Bool.false_ne_true)]
    exact ⟨rfl, htail'⟩
  induction w, isBegin, left using Writer.addFragments.induct with
  | case1 w isBegin left n r hmore ih =>
    intro h
    have hloop : w.addFragments isBegin left = r.2.addFragments false (left.drop n) := by
      rw [addFragments]
      exact if_pos hmore
    rw [hloop]
    exact ih (hround w _ _ h).2
  | case2 w isBegin left n r hmore =>
    intro h
    have hloop : w.addFragments isBegin left = r := by
      rw [addFragments]
      exact if_neg hmore
    rw [hloop]
    exact hround w _ _ h

/-- A call whose first append is that of a header, and fails, leaves the file alone. -/
theorem Writer.addRecord_header_fails {w : Writer} (record : Slice)
    (hfails : w.dest.failures.headD false = true) (htrailer : trailer w.blockOffset = []) :
    (w.addRecord record).1 = false ∧ (w.addRecord record).2.dest.bytes = w.dest.bytes ∧
      (w.addRecord record).2.blockOffset ≤ kBlockSize := by
  have hfilled : w.TrailerFills := fun hne => absurd htrailer hne
  have hswitch : w.switchBlock.dest.failures = w.dest.failures := by
    rw [switchBlock_eq_of_failures]
    exact if_pos htrailer
  obtain ⟨hbytes, hoffset⟩ := switchBlock_filled hfilled
  rw [htrailer, List.append_nil] at hbytes
  have hroom := recordStart_room w.blockOffset
  obtain ⟨hfit, hle, -⟩ := fragmentLengthAt_le hroom record.length
  rw [addRecord, addFragments]
  rw [emitPhysicalRecord_eq_of_failures, hswitch, if_pos hfails]
  dsimp only
  rw [if_neg fun h => Bool.false_ne_true h.1]
  refine ⟨rfl, hbytes, ?_⟩
  dsimp only
  rw [List.length_take, hoffset, w.fragmentLength_eq, Nat.min_eq_left hle]
  exact hfit

/-! ## Writers in step -/

/-- The writer of a file of records is in step. -/
theorem Writer.addRecords_inStep : ∀ (records : List Slice) (w : Writer), w.dest.failures = [] →
    w.InStep → w.blockOffset ≤ kBlockSize →
    (w.addRecords records).dest.failures = [] ∧ (w.addRecords records).InStep ∧
      (w.addRecords records).blockOffset ≤ kBlockSize
  | [], _, hw, hstep, hle => ⟨hw, hstep, hle⟩
  | record :: records, w, hw, hstep, hle => by
    obtain ⟨ps, hps, hadd, hend⟩ := addRecord_spec hw hle record
    have hstep' : Writer.InStep ⟨{ bytes := w.dest.bytes ++ encodeAll w.blockOffset ps },
        endAll w.blockOffset ps⟩ := by
      unfold InStep at hstep ⊢
      dsimp only
      rw [List.length_append, Nat.add_mod, ← hstep, ← Nat.add_mod]
      exact (hps.length_mod hle).1.symm
    rw [addRecords, List.foldl_cons, hadd]
    exact addRecords_inStep records _ rfl hstep' hend

/-- A writer at the start of a block, on any file, writes what it would write at the end of the block
before. -/
theorem Writer.addRecord_block_end (dest : WritableFile) (record : Slice) :
    Writer.addRecord ⟨dest, 0⟩ record = Writer.addRecord ⟨dest, kBlockSize⟩ record := by
  have hswitch : Writer.switchBlock ⟨dest, 0⟩ = Writer.switchBlock ⟨dest, kBlockSize⟩ := by
    rw [switchBlock_eq_of_failures, switchBlock_eq_of_failures, trailer_block_start,
      trailer_block_end]
    rfl
  rw [addRecord, addRecord]
  conv_lhs => rw [addFragments]
  conv_rhs => rw [addFragments]
  rw [hswitch]

/-- Two writers on the same file that are in step write the same. -/
theorem Writer.InStep.addRecord_eq {w w' : Writer} (h : w.InStep) (h' : w'.InStep)
    (hdest : w'.dest = w.dest) (hle : w.blockOffset ≤ kBlockSize) (hle' : w'.blockOffset ≤ kBlockSize)
    (record : Slice) : w'.addRecord record = w.addRecord record := by
  obtain ⟨dest, offset⟩ := w
  obtain ⟨dest', offset'⟩ := w'
  dsimp only at hdest hle hle'
  subst hdest
  unfold InStep at h h'
  dsimp only at h h'
  have hmod : offset' % kBlockSize = offset % kBlockSize := h'.trans h.symm
  -- Equal offsets up to the two ends of a block.
  have hcases : offset' = offset ∨ (offset' = 0 ∧ offset = kBlockSize) ∨
      (offset' = kBlockSize ∧ offset = 0) := by
    unfold kBlockSize at *
    omega
  rcases hcases with rfl | ⟨rfl, rfl⟩ | ⟨rfl, rfl⟩
  · rfl
  · exact addRecord_block_end dest' record
  · exact (addRecord_block_end dest' record).symm

end LevelDb.Log
