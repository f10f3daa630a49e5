import LevelDb.Log.Torn

/-!
# Damaged logs

When bytes of a log have changed, the reader drops the rest of the block at the first physical record
that does not pass its checksum, and goes on with the next block. As long as a checksum is only
passed by the bytes that were written, the reader never comes to lie between two physical records of
the writer, and the scan of the damaged log is the scan of the log that was written with parts
replaced by bad records (`Damaged`). Such a scan is assembled to the records that lost nothing
(`Damaged.assemble`).
-/

namespace LevelDb.Log

/-! ## Records with lost fragments -/

/-- The elements of a list that are marked. -/
def select {α : Type} : List Bool → List α → List α
  | true :: marks, a :: as => a :: select marks as
  | false :: marks, _ :: as => select marks as
  | _, _ => []

/-- What is selected comes in order. -/
theorem select_sublist {α : Type} : ∀ (marks : List Bool) (as : List α),
    (select marks as).Sublist as
  | [], as => List.nil_sublist as
  | mark :: marks, [] => by cases mark <;> exact List.Sublist.slnil
  | true :: marks, a :: as => (select_sublist marks as).cons_cons a
  | false :: marks, a :: as => (select_sublist marks as).cons a

/-- The scan of a damaged log: a physical record that was written is found (and marked), or a bad
record is found in its place. Behind a bad record, indicated by the first argument, more may be
missing. -/
inductive Damaged : Bool → List PhysicalRecord → List Bool → List (ℕ × Slice) → Prop
  /-- The end of the log. -/
  | done {dropping : Bool} : Damaged dropping [] [] []
  /-- A physical record is found. -/
  | keep {dropping : Bool} {p : PhysicalRecord} {ps : List PhysicalRecord} {marks : List Bool}
      {es : List (ℕ × Slice)} (h : Damaged false ps marks es) :
      Damaged dropping (p :: ps) (true :: marks) ((p.type.toNat, p.payload) :: es)
  /-- A bad record is found in its place. -/
  | bad {dropping : Bool} {p : PhysicalRecord} {ps : List PhysicalRecord} {marks : List Bool}
      {es : List (ℕ × Slice)} (h : Damaged true ps marks es) :
      Damaged dropping (p :: ps) (false :: marks) ((kBadRecord, []) :: es)
  /-- It is missing behind a bad record. -/
  | lost {p : PhysicalRecord} {ps : List PhysicalRecord} {marks : List Bool}
      {es : List (ℕ × Slice)} (h : Damaged true ps marks es) :
      Damaged true (p :: ps) (false :: marks) es

/-- Which records lost nothing. -/
def recordMarks : List (List PhysicalRecord) → List Bool → List Bool
  | [], _ => []
  | ps :: pss, marks => (marks.take ps.length).all id :: recordMarks pss (marks.drop ps.length)

/-- The physical records `ps` are the rest of a record, which lacks `rest`. At the end of a record
nothing is left. -/
def RestOf (rest : Slice) (ps : List PhysicalRecord) : Prop :=
  ps = [] ∨ ∃ offset, Fragments offset false rest ps

/-- The record that its last physical record completes. -/
def finish (isBegin : Bool) (scratch : Option Slice) (data : Slice) : List Slice :=
  if isBegin then [data] else (scratch.map (· ++ data)).toList

/-- The record that the physical records `ps` complete, if none of them is lost. -/
def complete (isBegin : Bool) (scratch : Option Slice) (data : Slice) (ps : List PhysicalRecord)
    (marks : List Bool) : List Slice :=
  if ps ≠ [] ∧ (marks.take ps.length).all id then finish isBegin scratch data else []

/-- The records of a log with their physical records. -/
def RecordsOf (rs : List (Slice × List PhysicalRecord)) : Prop :=
  ∀ r ∈ rs, ∃ offset, Fragments offset true r.1 r.2

/-- The records that lost nothing. -/
def wholeRecords (rs : List (Slice × List PhysicalRecord)) (marks : List Bool) : List Slice :=
  select (recordMarks (rs.map (·.2)) marks) (rs.map (·.1))

/-- The first record is whole, or it is not. -/
theorem wholeRecords_cons {data : Slice} {ps : List PhysicalRecord} (hps : ps ≠ [])
    (rs : List (Slice × List PhysicalRecord)) (marks : List Bool) :
    wholeRecords ((data, ps) :: rs) marks =
      complete true none data ps marks ++ wholeRecords rs (marks.drop ps.length) := by
  unfold wholeRecords complete finish
  rw [List.map_cons, List.map_cons, recordMarks]
  cases hall : (marks.take ps.length).all id with
  | true =>
    rw [if_pos ⟨hps, rfl⟩]
    rfl
  | false =>
    rw [if_neg (fun h => Bool.false_ne_true h.2)]
    rfl

/-- A record, even an empty one, has at least one physical record. -/
theorem Fragments.ne_nil {offset : ℕ} {isBegin : Bool} {data : Slice} {ps : List PhysicalRecord}
    (h : Fragments offset isBegin data ps) : ps ≠ [] := by
  cases h <;> exact List.cons_ne_nil _ _

/-- The first physical record of a record or of the rest of one: it is the last one as well, or the
rest of the record follows it. -/
theorem Fragments.head {offset : ℕ} {isBegin : Bool} {data : Slice} {p : PhysicalRecord}
    {ps : List PhysicalRecord} (h : Fragments offset isBegin data (p :: ps)) :
    (p = ⟨fragmentType isBegin true, data⟩ ∧ ps = []) ∨
      ∃ payload rest offset', p = ⟨fragmentType isBegin false, payload⟩ ∧ data = payload ++ rest ∧
        Fragments offset' false rest ps := by
  cases h with
  | final hfit => exact Or.inl ⟨rfl, rfl⟩
  | more hfit hrest => exact Or.inr ⟨_, _, _, rfl, rfl, hrest⟩

/-- What follows the first physical record of a record is the rest of it. -/
theorem Fragments.restOf {offset : ℕ} {isBegin : Bool} {data : Slice} {p : PhysicalRecord}
    {ps : List PhysicalRecord} (h : Fragments offset isBegin data (p :: ps)) :
    ∃ rest, RestOf rest ps := by
  rcases h.head with ⟨-, hnil⟩ | ⟨payload, rest, offset', -, -, hrest⟩
  · exact ⟨[], Or.inl hnil⟩
  · exact ⟨rest, Or.inr ⟨offset', hrest⟩⟩

/-- Without the part before it, the rest of a record completes nothing. -/
@[simp] theorem complete_none (data : Slice) (ps : List PhysicalRecord) (marks : List Bool) :
    complete false none data ps marks = [] := by
  unfold complete
  split_ifs <;> rfl

/-- Without physical records there is nothing that a record could be completed with. -/
@[simp] theorem complete_nil (isBegin : Bool) (scratch : Option Slice) (data : Slice)
    (marks : List Bool) : complete isBegin scratch data [] marks = [] := by
  unfold complete
  rw [if_neg (fun h => h.1 rfl)]

/-- A lost physical record leaves the record incomplete. -/
@[simp] theorem complete_lost (isBegin : Bool) (scratch : Option Slice) (data : Slice)
    (p : PhysicalRecord) (ps : List PhysicalRecord) (marks : List Bool) :
    complete isBegin scratch data (p :: ps) (false :: marks) = [] := by
  unfold complete
  rw [if_neg (by simp)]

/-- The last physical record of a record completes it. -/
theorem assemble_final (isBegin : Bool) (scratch : Option Slice) (data : Slice)
    (es : List (ℕ × Slice)) :
    assemble scratch (((fragmentType isBegin true).toNat, data) :: es) =
      finish isBegin scratch data ++ assemble none es := by
  cases isBegin with
  | true =>
    rw [assemble]
    exact if_pos rfl
  | false =>
    rw [assemble, if_neg (by decide), if_neg (by decide), if_neg (by decide)]
    exact if_pos rfl

/-- The other physical records of a record are collected. -/
theorem assemble_more (isBegin : Bool) (scratch : Option Slice) (payload : Slice)
    (es : List (ℕ × Slice)) :
    assemble scratch (((fragmentType isBegin false).toNat, payload) :: es) =
      assemble (if isBegin then some payload else scratch.map (· ++ payload)) es := by
  cases isBegin with
  | true =>
    rw [assemble, if_neg (by decide)]
    exact if_pos rfl
  | false =>
    rw [assemble, if_neg (by decide), if_neg (by decide)]
    exact if_pos rfl

/-- The record that the first physical record of a log belongs to: the one that was begun, or the
next one. -/
theorem exists_current {rest : Slice} {p : PhysicalRecord} {ps qs : List PhysicalRecord}
    {rs : List (Slice × List PhysicalRecord)} (hqs : p :: qs = ps ++ rs.flatMap (·.2))
    (hrest : RestOf rest ps) (hrs : RecordsOf rs) :
    ∃ offset isBegin data ps' rs', Fragments offset isBegin data (p :: ps') ∧
      qs = ps' ++ rs'.flatMap (·.2) ∧ RecordsOf rs' ∧ ∀ scratch marks,
        complete false scratch rest ps marks ++ wholeRecords rs (marks.drop ps.length) =
          complete isBegin scratch data (p :: ps') marks ++
            wholeRecords rs' (marks.drop (p :: ps').length) := by
  rcases hrest with rfl | ⟨offset, hfrag⟩
  · cases rs with
    | nil => exact absurd hqs (List.cons_ne_nil _ _)
    | cons r rs =>
      obtain ⟨offset, hfrag⟩ := hrs r List.mem_cons_self
      obtain ⟨data, fs⟩ := r
      dsimp only at hfrag
      cases fs with
      | nil => exact absurd rfl hfrag.ne_nil
      | cons f fs =>
        rw [List.nil_append, List.flatMap_cons, List.cons_append, List.cons.injEq] at hqs
        obtain ⟨rfl, rfl⟩ := hqs
        refine ⟨offset, true, data, fs, rs, hfrag, rfl,
          fun r hr => hrs r (List.mem_cons_of_mem _ hr), fun scratch marks => ?_⟩
        rw [complete_nil, List.nil_append, List.length_nil, List.drop_zero,
          wholeRecords_cons (List.cons_ne_nil _ _)]
        rfl
  · cases ps with
    | nil => exact absurd rfl hfrag.ne_nil
    | cons f fs =>
      rw [List.cons_append, List.cons.injEq] at hqs
      obtain ⟨rfl, rfl⟩ := hqs
      exact ⟨offset, false, rest, fs, rs, hfrag, rfl, hrs, fun _ _ => rfl⟩

/-- The scan of a damaged log is assembled to the records that lost nothing. Behind a bad record, no
part of a record is kept. -/
theorem Damaged.assemble {dropping : Bool} {qs : List PhysicalRecord} {marks : List Bool}
    {es : List (ℕ × Slice)} (h : Damaged dropping qs marks es) :
    ∀ (rest : Slice) (ps : List PhysicalRecord) (rs : List (Slice × List PhysicalRecord))
      (scratch : Option Slice), qs = ps ++ rs.flatMap (·.2) → RestOf rest ps → RecordsOf rs →
      (dropping = true → scratch = none) →
      Log.assemble scratch es =
        complete false scratch rest ps marks ++ wholeRecords rs (marks.drop ps.length) := by
  induction h with
  | done =>
    intro rest ps rs scratch hqs hrest hrs _
    obtain ⟨rfl, hflat⟩ := List.append_eq_nil_iff.mp hqs.symm
    cases rs with
    | nil => rw [Log.assemble, complete_nil]; rfl
    | cons r rs =>
      obtain ⟨offset, hfrag⟩ := hrs r List.mem_cons_self
      rw [List.flatMap_cons, List.append_eq_nil_iff] at hflat
      exact absurd hflat.1 hfrag.ne_nil
  | @keep dropping p qs marks es h ih =>
    intro rest ps rs scratch hqs hrest hrs _
    obtain ⟨offset, isBegin, data, ps', rs', hfrag, hqs', hrs', heq⟩ :=
      exists_current hqs hrest hrs
    rw [heq]
    have hall : complete isBegin scratch data (p :: ps') (true :: marks) =
        if (marks.take ps'.length).all id then finish isBegin scratch data else [] := by
      simp [complete]
    rcases hfrag.head with ⟨rfl, rfl⟩ | ⟨payload, rest', offset', rfl, rfl, hrest'⟩
    · -- The record ends here.
      have hnext := ih [] [] rs' none hqs' (Or.inl rfl) hrs' (fun _ => rfl)
      rw [assemble_final, hnext, complete_nil, hall]
      rfl
    · have hnext := ih rest' ps' rs' (if isBegin then some payload else scratch.map (· ++ payload))
        hqs' (Or.inr ⟨offset', hrest'⟩) hrs' (fun h => absurd h Bool.false_ne_true)
      rw [assemble_more, hnext, hall]
      congr 1
      unfold complete
      simp only [hrest'.ne_nil, ne_eq, not_false_eq_true, true_and]
      congr 1
      unfold finish
      cases isBegin
      · simp [Function.comp_def]
      · simp
  | @bad dropping p qs marks es h ih =>
    intro rest ps rs scratch hqs hrest hrs _
    obtain ⟨offset, isBegin, data, ps', rs', hfrag, hqs', hrs', heq⟩ :=
      exists_current hqs hrest hrs
    obtain ⟨rest', hrest'⟩ := hfrag.restOf
    have hnext := ih rest' ps' rs' none hqs' hrest' hrs' (fun _ => rfl)
    rw [heq, complete_lost, assemble_other scratch (by decide) (by decide) (by decide) (by decide),
      hnext, complete_none]
    rfl
  | @lost p qs marks es h ih =>
    intro rest ps rs scratch hqs hrest hrs hscratch
    obtain rfl := hscratch rfl
    obtain ⟨offset, isBegin, data, ps', rs', hfrag, hqs', hrs', heq⟩ :=
      exists_current hqs hrest hrs
    obtain ⟨rest', hrest'⟩ := hfrag.restOf
    have hnext := ih rest' ps' rs' none hqs' hrest' hrs' (fun _ => rfl)
    rw [heq, complete_lost, hnext, complete_none]
    rfl

/-! ## The blocks of a log -/

/-- Every physical record fits in the block that it starts in, and is of a type that is written. -/
def Fit : ℕ → List PhysicalRecord → Prop
  | _, [] => True
  | offset, p :: ps =>
    recordEnd offset p ≤ kBlockSize ∧ p.type ≠ .zero ∧ Fit (recordEnd offset p) ps

/-- The fragments of a record fit. -/
theorem Fragments.fit {offset : ℕ} {isBegin : Bool} {data : Slice} {ps : List PhysicalRecord}
    (h : Fragments offset isBegin data ps) : Fit offset ps := by
  induction h with
  | final hfit => exact ⟨hfit, fragmentType_ne_zero _ _, trivial⟩
  | more hfit hrest ih => exact ⟨hfit, fragmentType_ne_zero _ _, ih⟩

/-- Physical records that follow each other fit. -/
theorem Fit.append : ∀ {ps qs : List PhysicalRecord} {offset : ℕ}, Fit offset ps →
    Fit (endAll offset ps) qs → Fit offset (ps ++ qs)
  | [], _, _, _, hqs => hqs
  | _ :: _, _, _, hps, hqs => ⟨hps.1, hps.2.1, hps.2.2.append hqs⟩

/-- A trailer ends with the block. -/
theorem trailer_length (offset : ℕ) :
    (trailer offset).length = if kBlockSize - offset < kHeaderSize then kBlockSize - offset else 0 := by
  unfold trailer
  split_ifs
  · exact List.length_replicate
  · rfl

/-- At the end of a block, records are laid out as at the start of the next. -/
theorem encodeAll_block_end {offset : ℕ} (hfull : kBlockSize - offset < kHeaderSize)
    (p : PhysicalRecord) (ps : List PhysicalRecord) :
    encodeAll offset (p :: ps) = trailer offset ++ encodeAll kBlockSize (p :: ps) ∧
      (Fit offset (p :: ps) → Fit kBlockSize (p :: ps)) := by
  have hstart : recordStart offset = recordStart kBlockSize := by
    unfold recordStart
    rw [if_pos hfull, if_pos (by decide)]
  have hend : recordEnd offset p = recordEnd kBlockSize p := by
    rw [recordEnd, recordEnd, hstart]
  have hnone : trailer kBlockSize = [] := by
    rw [← List.length_eq_zero_iff, trailer_length]
    decide
  constructor
  · rw [encodeAll, encodeAll, hend, hnone, List.nil_append, List.append_assoc]
  · intro hfit
    unfold Fit at hfit ⊢
    rwa [hend] at hfit

/-- Where physical records start in the file, when `pos` is the position of the first one with its
trailer. -/
def starts : ℕ → ℕ → List PhysicalRecord → List ℕ
  | _, _, [] => []
  | pos, offset, p :: ps =>
    (pos + (trailer offset).length) ::
      starts (pos + (trailer offset).length + p.encode.length) (recordEnd offset p) ps

/-- As many starts as physical records. -/
@[simp] theorem starts_length : ∀ (ps : List PhysicalRecord) (pos offset : ℕ),
    (starts pos offset ps).length = ps.length
  | [], _, _ => rfl
  | p :: ps, pos, offset => by rw [starts, List.length_cons, List.length_cons, starts_length ps]

/-- The rest of a block: some physical records, and behind it those of the next blocks. -/
theorem exists_next_block : ∀ (ps : List PhysicalRecord) (pos offset : ℕ), Fit offset ps →
    offset ≤ kBlockSize → ∃ qs ps', ps = qs ++ ps' ∧ Fit kBlockSize ps' ∧
      (encodeAll offset ps).drop (kBlockSize - offset) = encodeAll kBlockSize ps' ∧
      (∀ start ∈ starts pos offset qs, pos ≤ start ∧ start < pos + (kBlockSize - offset)) ∧
      starts pos offset ps = starts pos offset qs ++
        starts (pos + (kBlockSize - offset)) kBlockSize ps'
  | [], pos, offset, _, _ => by
    refine ⟨[], [], rfl, trivial, ?_, ?_, rfl⟩
    · rw [encodeAll, encodeAll, List.drop_nil]
    · intro start hstart
      exact absurd hstart List.not_mem_nil
  | p :: ps, pos, offset, hfit, hle => by
    by_cases hfull : kBlockSize - offset < kHeaderSize
    · -- The block has only its trailer left.
      obtain ⟨hbytes, hfit'⟩ := encodeAll_block_end hfull p ps
      have hlen : (trailer offset).length = kBlockSize - offset := by
        rw [trailer_length, if_pos hfull]
      refine ⟨[], p :: ps, rfl, hfit' hfit, ?_, ?_, ?_⟩
      · rw [hbytes, List.drop_left' hlen]
      · intro start hstart
        exact absurd hstart List.not_mem_nil
      · have hzero : (trailer kBlockSize).length = 0 := by
          rw [trailer_length]
          decide
        have hend : recordEnd offset p = recordEnd kBlockSize p := by
          unfold recordEnd recordStart
          rw [if_pos hfull, if_pos (by decide)]
        rw [starts, starts, starts, List.nil_append, hlen, hzero, Nat.add_zero, hend]
    · obtain ⟨hend, htype, hrest⟩ := hfit
      have hlen : (trailer offset).length = 0 := by rw [trailer_length, if_neg hfull]
      have hnil : trailer offset = [] := List.length_eq_zero_iff.mp hlen
      have hrecord : recordEnd offset p = offset + p.encode.length := by
        unfold recordEnd recordStart
        rw [if_neg hfull, p.encode_length, Nat.add_assoc]
      obtain ⟨qs, ps', hps, hfit', hdrop, hin, hstarts⟩ :=
        exists_next_block ps (pos + p.encode.length) (recordEnd offset p) hrest hend
      have hsize : kBlockSize - offset =
          p.encode.length + (kBlockSize - recordEnd offset p) := by omega
      have hpos : pos + (kBlockSize - offset) =
          pos + p.encode.length + (kBlockSize - recordEnd offset p) := by omega
      refine ⟨p :: qs, ps', by rw [hps]; rfl, hfit', ?_, ?_, ?_⟩
      · rw [encodeAll, hnil, List.nil_append, hsize, List.drop_length_add_append, hdrop]
      · intro start hstart
        rw [starts, hlen, Nat.add_zero, List.mem_cons] at hstart
        rcases hstart with rfl | hstart
        · exact ⟨le_refl _, by rw [p.encode_length] at hsize; have : 0 < kHeaderSize := by decide
                               omega⟩
        · have := hin start hstart
          omega
      · rw [starts, starts, hlen, Nat.add_zero, hstarts, hpos]
        rfl

/-! ## The reader in a damaged log -/

/-- The physical record at the start of a buffer passes the checks of length and checksum. -/
def PassesCrc (buffer : Slice) : Prop :=
  kHeaderSize + lengthField buffer ≤ buffer.length ∧
    Crc32c.value 0 ((buffer.drop 6).take (1 + lengthField buffer)) =
      Crc32c.unmask (decodeFixed32 buffer)

instance (buffer : Slice) : Decidable (PassesCrc buffer) := instDecidableAnd

/-- What the block of a position holds from there on. -/
def restOfBlock (bytes : Slice) (pos : ℕ) : Slice :=
  (bytes.drop pos).take (kBlockSize - pos % kBlockSize)

/-- The checksums detect every change: a physical record passes them at some position only if its
bytes are those that were written there. -/
def ChangesDetected (written found : Slice) : Prop :=
  ∀ pos, PassesCrc (restOfBlock found pos) →
    (restOfBlock found pos).take (kHeaderSize + lengthField (restOfBlock found pos)) =
      (restOfBlock written pos).take (kHeaderSize + lengthField (restOfBlock found pos))

/-- No byte of a block has changed. -/
def BlockUntouched (written found : Slice) (block : ℕ) : Prop :=
  ∀ pos, pos / kBlockSize = block → found[pos]? = written[pos]?

/-- An untouched block is what was written. -/
theorem BlockUntouched.restOfBlock_eq {written found : Slice} {pos : ℕ}
    (h : BlockUntouched written found (pos / kBlockSize)) :
    restOfBlock found pos = restOfBlock written pos := by
  refine List.ext_getElem? fun i => ?_
  unfold restOfBlock
  rw [List.getElem?_take, List.getElem?_take]
  split_ifs with hi
  · rw [List.getElem?_drop, List.getElem?_drop]
    refine h (pos + i) ?_
    unfold kBlockSize at hi ⊢
    omega
  · rfl

/-- Reading a physical record does not change whether checksums are compared. -/
theorem Reader.readPhysicalRecord_checksum (rd : Reader) :
    rd.readPhysicalRecord.reader.checksum = rd.checksum := by
  have hdrop (rd : Reader) (bytes : ℕ) (reason : String) :
      (rd.reportDrop bytes reason).checksum = rd.checksum := by
    unfold reportDrop
    split_ifs <;> rfl
  induction rd using Reader.readPhysicalRecord.induct with
  | case1 rd hlen heof hbroken =>
    rw [readPhysicalRecord, if_pos hlen, if_pos heof, if_pos hbroken]
    exact hdrop _ _ _
  | case2 rd hlen heof hbroken ih =>
    rw [readPhysicalRecord, if_pos hlen, if_pos heof, if_neg hbroken]
    exact ih
  | case3 rd hlen heof hempty =>
    rw [readPhysicalRecord, if_pos hlen, if_neg heof, if_pos hempty]
  | case4 rd hlen heof hempty =>
    rw [readPhysicalRecord, if_pos hlen, if_neg heof, if_neg hempty]
    exact hdrop _ _ _
  | case5 rd hlen =>
    rw [readPhysicalRecord, if_neg hlen]
    unfold readHeader reportCorruption
    dsimp only
    split_ifs <;> simp only [hdrop]

/-- What does not pass the checks is a bad record, and the rest of the buffer is dropped. -/
theorem Reader.readHeader_bad {rd : Reader} (hsum : rd.checksum = true)
    (h : ¬ PassesCrc rd.buffer) :
    ∃ rd' : Reader, rd.readHeader = ⟨kBadRecord, [], rd'⟩ ∧
      rd'.input = Reader.input { rd with buffer := [] } := by
  unfold readHeader
  dsimp only
  split_ifs with hlen hzero hcrc
  · exact ⟨_, rfl, reportCorruption_input _ _ _⟩
  · exact ⟨_, rfl, rfl⟩
  · exact ⟨_, rfl, reportCorruption_input _ _ _⟩
  all_goals
    refine absurd ⟨not_lt.mp hlen, ?_⟩ h
    by_contra hne
    exact hcrc ⟨hsum, hne⟩

/-- Behind a dropped buffer, the scan goes on with the next block. -/
theorem Reader.At.scan_dropped {rd : Reader} {rest : Slice} {offset : ℕ} (h : rd.At rest offset) :
    (rest.drop (kBlockSize - offset) = [] ∧ Reader.scan { rd with buffer := [] } = []) ∨
      Reader.At { rd with buffer := [] } (rest.drop (kBlockSize - offset)) kBlockSize := by
  by_cases hlast : rest.length < kBlockSize - offset
  · left
    refine ⟨List.drop_of_length_le hlast.le, ?_⟩
    refine Reader.scan_eof (Reader.AtEof.readPhysicalRecord ⟨rfl, ?_⟩)
    show rd.eof = true
    rw [h.eof]
    exact decide_eq_true hlast
  · right
    refine ⟨?_, ?_, ?_, le_refl _, h.unbroken, h.initial⟩
    · rw [Nat.sub_self, List.take_zero]
    · rw [Nat.sub_self, List.drop_zero]
      exact h.file
    · show rd.eof = _
      rw [h.eof, Nat.sub_self, decide_eq_false hlast, decide_eq_false (Nat.not_lt_zero _)]

/-- `ReadPhysicalRecord` skips what lies in a trailer, whatever it is. -/
theorem Reader.At.skip_rest {rd : Reader} {rest : Slice} {offset : ℕ} (h : rd.At rest offset)
    (hlen : (trailer offset).length ≤ rest.length) :
    ∃ rd' : Reader, rd'.At (rest.drop (trailer offset).length) (recordStart offset) ∧
      rd'.checksum = rd.checksum ∧ rd.readPhysicalRecord = rd'.readPhysicalRecord := by
  rw [trailer_length] at hlen ⊢
  unfold recordStart
  by_cases hfull : kBlockSize - offset < kHeaderSize
  · rw [if_pos hfull] at hlen ⊢
    rw [if_pos hfull]
    refine ⟨rd.readBlock, h.readBlock, rfl, ?_⟩
    have hbuf : rd.buffer.length < kHeaderSize := by
      rw [h.buffer, List.length_take]
      omega
    have heof : rd.eof = false := by
      rw [h.eof]
      exact decide_eq_false (by omega)
    rw [Reader.readPhysicalRecord, if_pos hbuf, if_pos heof, if_neg (by rw [h.unbroken]; simp)]
  · rw [if_neg hfull, if_neg hfull, List.drop_zero]
    exact ⟨rd, h, rfl, rfl⟩

/-- More physical records may be missing behind a bad record. -/
theorem Damaged.lost_all {ps : List PhysicalRecord} {marks : List Bool} {es : List (ℕ × Slice)} :
    ∀ {qs : List PhysicalRecord}, Damaged true ps marks es →
      Damaged true (qs ++ ps) (List.replicate qs.length false ++ marks) es
  | [], h => h
  | _ :: _, h => .lost h.lost_all

/-- Behind a bad record, nothing needs to be missing. -/
theorem Damaged.dropping {ps : List PhysicalRecord} {marks : List Bool} {es : List (ℕ × Slice)}
    (h : Damaged false ps marks es) : Damaged true ps marks es := by
  cases h with
  | done => exact .done
  | keep h => exact .keep h
  | bad h => exact .bad h

/-- What the block of a physical record holds from its start on. -/
theorem restOfBlock_encode {bytes rest : Slice} {pos : ℕ} {p : PhysicalRecord}
    (h : bytes.drop pos = p.encode ++ rest)
    (hfit : pos % kBlockSize + kHeaderSize + p.payload.length ≤ kBlockSize) :
    restOfBlock bytes pos =
      p.encode ++ rest.take (kBlockSize - pos % kBlockSize - p.encode.length) := by
  have hle : p.encode.length ≤ kBlockSize - pos % kBlockSize := by
    rw [p.encode_length]
    omega
  rw [restOfBlock, h, List.take_append, List.take_of_length_le hle]

/-- A physical record that was written at a position is found there, or what is there does not pass
the checks. -/
theorem not_passesCrc_of_changed {written found : Slice} {pos : ℕ} {p : PhysicalRecord}
    {rest : Slice} (hdetect : ChangesDetected written found)
    (hwritten : written.drop pos = p.encode ++ rest)
    (hfit : pos % kBlockSize + kHeaderSize + p.payload.length ≤ kBlockSize)
    (hchanged : ¬ p.encode <+: found.drop pos) : ¬ PassesCrc (restOfBlock found pos) := by
  intro hpass
  have hsame := hdetect pos hpass
  obtain ⟨hlen, -⟩ := hpass
  have hblock := restOfBlock_encode hwritten hfit
  -- The length field is the one that was written, so the whole record is.
  have hfield : lengthField (restOfBlock found pos) = p.payload.length := by
    rw [← lengthField_take (Nat.le_add_right kHeaderSize _), hsame, hblock,
      lengthField_take (Nat.le_add_right _ _)]
    refine lengthField_encode p _ ?_
    unfold kBlockSize at hfit
    omega
  rw [hfield, ← p.encode_length, hblock, List.take_left] at hsame
  refine hchanged ?_
  rw [← hsame]
  exact (List.take_prefix _ _).trans (List.take_prefix _ _)

/-- Only no physical records at all have no bytes. -/
theorem eq_nil_of_encodeAll_eq_nil {offset : ℕ} : ∀ {ps : List PhysicalRecord},
    encodeAll offset ps = [] → ps = []
  | [], _ => rfl
  | p :: ps, h => by
    have hpos : 0 < kHeaderSize := by decide
    have hlen := congrArg List.length h
    rw [encodeAll, List.length_append, List.length_append, p.encode_length, List.length_nil] at hlen
    omega

/-- The start of a physical record is where its trailer ends. -/
theorem start_mod {pos offset : ℕ} (hle : offset ≤ kBlockSize)
    (hpos : pos % kBlockSize = offset % kBlockSize) :
    (pos + (trailer offset).length) % kBlockSize = recordStart offset := by
  have hroom := recordStart_room offset
  have hheader : 0 < kHeaderSize := by decide
  rw [Nat.add_mod, hpos, ← Nat.add_mod, trailer_length_mod hle]
  exact Nat.mod_eq_of_lt (by omega)

/-- A list against as many copies of one element. -/
theorem forall₂_replicate {α β : Type} {R : α → β → Prop} {b : β} :
    ∀ {as : List α}, (∀ a ∈ as, R a b) → List.Forall₂ R as (List.replicate as.length b)
  | [], _ => .nil
  | a :: _, h => .cons (h a List.mem_cons_self)
      (forall₂_replicate fun a' ha' => h a' (List.mem_cons_of_mem a ha'))

/-- The marks of physical records say which are read: only those that start in blocks that were touched may
be lost. -/
def LostWhereTouched (written found : Slice) : List ℕ → List Bool → Prop :=
  List.Forall₂ fun start mark => BlockUntouched written found (start / kBlockSize) → mark = true

section

variable {written found : Slice} {start offset : ℕ} {p : PhysicalRecord} {ps : List PhysicalRecord}

/-- The block of a physical record that is not found was touched. -/
theorem touched_of_changed {rest : Slice} (hwritten : written.drop start = p.encode ++ rest)
    (hfit : start % kBlockSize + kHeaderSize + p.payload.length ≤ kBlockSize)
    (hfound : ¬p.encode <+: found.drop start) : ¬BlockUntouched written found (start / kBlockSize) := by
  intro huntouched
  refine hfound ?_
  have hprefix : p.encode <+: restOfBlock written start := by
    rw [restOfBlock_encode hwritten hfit]
    exact List.prefix_append _ _
  rw [← huntouched.restOfBlock_eq] at hprefix
  exact hprefix.trans (List.take_prefix _ _)

/-- A physical record that is not found is a bad record, and the rest of its block is dropped. -/
theorem Reader.At.read_changed {rd : Reader} {rest : Slice} (hat : rd.At (found.drop start) offset)
    (hsum : rd.checksum = true) (hdetect : ChangesDetected written found)
    (hlen : found.length = written.length) (hwritten : written.drop start = p.encode ++ rest)
    (hstart : start % kBlockSize = offset) (hfit : offset + kHeaderSize + p.payload.length ≤ kBlockSize)
    (hfound : ¬p.encode <+: found.drop start) :
    ∃ rd' : Reader, rd.readPhysicalRecord = ⟨kBadRecord, [], rd'⟩ ∧
      rd'.scan = Reader.scan { rd with buffer := [] } := by
  have hbuf : rd.buffer = restOfBlock found start := by rw [hat.buffer, restOfBlock, hstart]
  have hsize : kHeaderSize ≤ rd.buffer.length := by
    have hroom : (found.drop start).length = (written.drop start).length := by
      rw [List.length_drop, List.length_drop, hlen]
    rw [hat.buffer, List.length_take, hroom, hwritten, List.length_append, p.encode_length]
    omega
  have hpass : ¬PassesCrc rd.buffer := by
    rw [hbuf]
    refine not_passesCrc_of_changed hdetect hwritten ?_ hfound
    rwa [hstart]
  obtain ⟨rd', hbad, hinput⟩ := Reader.readHeader_bad hsum hpass
  refine ⟨rd', ?_, Reader.scan_congr { rd with buffer := [] } rd' hinput⟩
  rw [Reader.readPhysicalRecord, if_neg (not_lt.mpr hsize), hbad]

/-- The physical records behind one are the others of its block, and those of the next blocks. -/
theorem exists_rest_of_block (hwritten : written.drop start =
      p.encode ++ encodeAll (recordEnd offset p) ps)
    (hstart : start % kBlockSize = recordStart offset) (hend : recordEnd offset p ≤ kBlockSize)
    (hfit : Fit (recordEnd offset p) ps) : ∃ qs ps', ps = qs ++ ps' ∧ Fit kBlockSize ps' ∧
      written.drop (start + (kBlockSize - recordStart offset)) = encodeAll kBlockSize ps' ∧
      (∀ start' ∈ starts (start + p.encode.length) (recordEnd offset p) qs,
        start' / kBlockSize = start / kBlockSize) ∧
      starts (start + p.encode.length) (recordEnd offset p) ps =
        starts (start + p.encode.length) (recordEnd offset p) qs ++
          starts (start + (kBlockSize - recordStart offset)) kBlockSize ps' := by
  have hrecord : recordEnd offset p = recordStart offset + p.encode.length := by
    rw [recordEnd, p.encode_length, Nat.add_assoc]
  have hblock : start + p.encode.length + (kBlockSize - recordEnd offset p) =
      start + (kBlockSize - recordStart offset) := by omega
  obtain ⟨qs, ps', hps, hfit', hdrop, hin, hstarts⟩ :=
    exists_next_block ps (start + p.encode.length) (recordEnd offset p) hfit hend
  rw [hblock] at hstarts
  refine ⟨qs, ps', hps, hfit', ?_, fun start' hstart' => ?_, hstarts⟩
  · rw [← hblock, ← List.drop_drop, ← List.drop_drop, hwritten, List.drop_left, hdrop]
  · have hrange := hin start' hstart'
    unfold kBlockSize at *
    omega

/-- Physical records that start in a touched block may be lost. -/
theorem lostWhereTouched_block {block : ℕ} {starts : List ℕ}
    (htouched : ¬BlockUntouched written found block) (hin : ∀ start ∈ starts, start / kBlockSize = block) :
    LostWhereTouched written found starts (List.replicate starts.length false) := by
  refine forall₂_replicate fun start hstart huntouched => absurd huntouched ?_
  rwa [hin start hstart]

end

/-- A reader of a damaged log is where some physical records of the written log begin. -/
structure Reader.Beside (written found : Slice) (rd : Reader) (pos offset : ℕ) (ps : List PhysicalRecord) :
    Prop where
  /-- The reader is at the position. -/
  position : rd.At (found.drop pos) offset
  /-- It verifies checksums. -/
  checksum : rd.checksum = true
  /-- The physical records follow in the written log. -/
  written : written.drop pos = encodeAll offset ps
  /-- They fit into their blocks. -/
  fit : Fit offset ps
  /-- The offset is that of the position in its block. -/
  inBlock : pos % kBlockSize = offset % kBlockSize

/-- The scan of a damaged log only loses physical records that start in blocks that were touched. -/
def Reader.ScansDamaged (written found : Slice) (rd : Reader) (pos offset : ℕ) (ps : List PhysicalRecord) :
    Prop :=
  ∃ marks, Damaged false ps marks rd.scan ∧ LostWhereTouched written found (starts pos offset ps) marks

section

variable {written found : Slice} {rd : Reader} {pos offset : ℕ} {p : PhysicalRecord}
  {ps : List PhysicalRecord}

/-- Both logs are as long from a position on. -/
theorem length_drop_eq (hlen : found.length = written.length) (pos : ℕ) :
    (found.drop pos).length = (written.drop pos).length := by
  rw [List.length_drop, List.length_drop, hlen]

/-- At the end of the written log the damaged one ends, too. -/
theorem Reader.Beside.scan_end (h : Reader.Beside written found rd pos offset [])
    (hlen : found.length = written.length) : Reader.ScansDamaged written found rd pos offset [] := by
  have hempty : found.drop pos = [] := by
    rw [← List.length_eq_zero_iff, length_drop_eq hlen, h.written]
    rfl
  have hat := h.position
  rw [hempty] at hat
  obtain ⟨rd', hread, -⟩ := hat.readPhysicalRecord_end
  refine ⟨[], ?_, List.Forall₂.nil⟩
  rw [Reader.scan_eof hread]
  exact .done

/-- Behind the trailer in front of it, the next physical record starts in both logs. -/
theorem Reader.Beside.skip_trailer (h : Reader.Beside written found rd pos offset (p :: ps))
    (hlen : found.length = written.length) :
    written.drop (pos + (trailer offset).length) = p.encode ++ encodeAll (recordEnd offset p) ps ∧
      ∃ rd' : Reader, rd'.At (found.drop (pos + (trailer offset).length)) (recordStart offset) ∧
        rd'.checksum = true ∧ rd.readPhysicalRecord = rd'.readPhysicalRecord := by
  have hwritten := h.written
  rw [encodeAll, List.append_assoc] at hwritten
  obtain ⟨rd', hat, hsum, hskip⟩ := h.position.skip_rest (by
    rw [length_drop_eq hlen, hwritten, List.length_append]
    omega)
  rw [List.drop_drop] at hat
  refine ⟨?_, rd', hat, hsum.trans h.checksum, hskip⟩
  rw [← List.drop_drop, hwritten, List.drop_left]

/-- A physical record that is found as it was written is read, and the scan goes on behind it. -/
theorem Reader.Beside.scan_found (h : Reader.Beside written found rd pos offset (p :: ps))
    (hlen : found.length = written.length)
    (hfound : p.encode <+: found.drop (pos + (trailer offset).length))
    (hnext : ∀ {rd' : Reader} {pos' : ℕ}, Reader.Beside written found rd' pos' (recordEnd offset p) ps →
      Reader.ScansDamaged written found rd' pos' (recordEnd offset p) ps) :
    Reader.ScansDamaged written found rd pos offset (p :: ps) := by
  obtain ⟨hend, htype, hrest⟩ := h.fit
  have hstart := start_mod h.position.le h.inBlock
  obtain ⟨hwritten, rd₁, hat₁, hsum₁, hskip⟩ := h.skip_trailer hlen
  unfold Reader.ScansDamaged
  rw [starts]
  generalize pos + (trailer offset).length = start at *
  obtain ⟨rest, hfound⟩ := hfound
  rw [← hfound] at hat₁
  obtain ⟨rd₂, hread, hat₂, -⟩ := hat₁.readPhysicalRecord hend htype
  have hsum₂ : rd₂.checksum = true := by
    have hkept := rd₁.readPhysicalRecord_checksum
    rw [hread] at hkept
    exact hkept.trans hsum₁
  have hbeside : Reader.Beside written found rd₂ (start + p.encode.length) (recordEnd offset p) ps := by
    refine ⟨?_, hsum₂, ?_, hrest, ?_⟩
    · rwa [← List.drop_drop, ← hfound, List.drop_left]
    · rw [← List.drop_drop, hwritten, List.drop_left]
    · rw [recordEnd, Nat.add_assoc, ← p.encode_length, ← hstart, Nat.mod_add_mod]
  obtain ⟨marks, hdamaged, hmarks⟩ := hnext hbeside
  refine ⟨true :: marks, ?_, .cons (fun _ => rfl) hmarks⟩
  rw [Reader.scan_cons (hskip.trans hread) (by cases p.type <;> decide)]
  exact .keep hdamaged

/-- A physical record that is not found as it was written takes the rest of its block with it, which was
touched; the scan goes on with the next block, if there is one. -/
theorem Reader.Beside.scan_changed (h : Reader.Beside written found rd pos offset (p :: ps))
    (hlen : found.length = written.length) (hdetect : ChangesDetected written found)
    (hfound : ¬p.encode <+: found.drop (pos + (trailer offset).length))
    (hnext : ∀ {rd' : Reader} {pos' offset' : ℕ} {ps' : List PhysicalRecord}, ps'.length ≤ ps.length →
      Reader.Beside written found rd' pos' offset' ps' →
      Reader.ScansDamaged written found rd' pos' offset' ps') :
    Reader.ScansDamaged written found rd pos offset (p :: ps) := by
  obtain ⟨hend, -, hrest⟩ := h.fit
  have hstart := start_mod h.position.le h.inBlock
  obtain ⟨hwritten, rd₁, hat₁, hsum₁, hskip⟩ := h.skip_trailer hlen
  unfold Reader.ScansDamaged
  rw [starts]
  generalize pos + (trailer offset).length = start at *
  have hfit : start % kBlockSize + kHeaderSize + p.payload.length ≤ kBlockSize := by
    rw [hstart]
    exact hend
  obtain ⟨rd₂, hread, hscan⟩ := hat₁.read_changed hsum₁ hdetect hlen hwritten hstart hend hfound
  obtain ⟨qs, ps', rfl, hfitrest, hdrop, hin, hstarts⟩ := exists_rest_of_block hwritten hstart hend hrest
  have htouched := touched_of_changed hwritten hfit hfound
  have hlost := lostWhereTouched_block htouched hin
  rw [starts_length] at hlost
  -- What follows in the next block.
  obtain ⟨marks, hdamaged, hmarks⟩ : Reader.ScansDamaged written found rd₂
      (start + (kBlockSize - recordStart offset)) kBlockSize ps' := by
    unfold Reader.ScansDamaged
    rw [hscan]
    rcases hat₁.scan_dropped with ⟨hempty, hnil⟩ | hat₂
    · rw [List.drop_drop] at hempty
      have hzero : encodeAll kBlockSize ps' = [] := by
        rw [← hdrop, ← List.length_eq_zero_iff, ← length_drop_eq hlen, hempty]
        rfl
      obtain rfl := eq_nil_of_encodeAll_eq_nil hzero
      rw [hnil]
      exact ⟨[], .done, .nil⟩
    · rw [List.drop_drop] at hat₂
      refine hnext (by rw [List.length_append]; omega) ⟨hat₂, hsum₁, hdrop, hfitrest, ?_⟩
      have hroom := recordStart_room offset
      unfold kBlockSize at *
      omega
  refine ⟨false :: (List.replicate qs.length false ++ marks), ?_, ?_⟩
  · rw [Reader.scan_cons (hskip.trans hread) (by decide)]
    exact .bad hdamaged.dropping.lost_all
  · refine .cons (fun huntouched => absurd huntouched htouched) ?_
    rw [hstarts]
    exact List.rel_append hlost hmarks

/-- From a position of both logs on, the scan of the damaged log only loses physical records that start in
blocks that were touched. The induction is on how many physical records are left. -/
theorem Reader.Beside.scan_damaged (hlen : found.length = written.length)
    (hdetect : ChangesDetected written found) (n : ℕ) :
    ∀ {ps : List PhysicalRecord} {pos offset : ℕ} {rd : Reader}, ps.length ≤ n →
      Reader.Beside written found rd pos offset ps →
      Reader.ScansDamaged written found rd pos offset ps := by
  induction n with
  | zero =>
    intro ps pos offset rd hn h
    obtain rfl : ps = [] := List.length_eq_zero_iff.mp (Nat.le_zero.mp hn)
    exact h.scan_end hlen
  | succ n ih =>
    intro ps pos offset rd hn h
    cases ps with
    | nil => exact h.scan_end hlen
    | cons p ps =>
      have hn' : ps.length ≤ n := Nat.le_of_succ_le_succ hn
      by_cases hfound : p.encode <+: found.drop (pos + (trailer offset).length)
      · exact h.scan_found hlen hfound fun hbeside => ih hn' hbeside
      · exact h.scan_changed hlen hdetect hfound fun hle hbeside => ih (hle.trans hn') hbeside

end

/-! ## A damaged log -/

/-- The starts of physical records that follow each other. -/
theorem starts_append : ∀ (ps qs : List PhysicalRecord) (pos offset : ℕ),
    starts pos offset (ps ++ qs) = starts pos offset ps ++
      starts (pos + (encodeAll offset ps).length) (endAll offset ps) qs
  | [], qs, pos, offset => rfl
  | p :: ps, qs, pos, offset => by
    have hpos : pos + (trailer offset).length + p.encode.length +
        (encodeAll (recordEnd offset p) ps).length = pos + (encodeAll offset (p :: ps)).length := by
      rw [encodeAll, List.length_append, List.length_append]
      omega
    have hend : endAll offset (p :: ps) = endAll (recordEnd offset p) ps := rfl
    rw [List.cons_append, starts, starts, starts_append ps qs, hpos, hend, List.cons_append]

/-- The starts of physical records lie among their bytes. -/
theorem mem_starts {start : ℕ} : ∀ {ps : List PhysicalRecord} {pos offset : ℕ},
    start ∈ starts pos offset ps →
      pos + (trailer offset).length ≤ start ∧ start < pos + (encodeAll offset ps).length
  | [], pos, offset, h => absurd h List.not_mem_nil
  | p :: ps, pos, offset, h => by
    have hheader : 0 < kHeaderSize := by decide
    rw [starts, List.mem_cons] at h
    rw [encodeAll, List.length_append, List.length_append, p.encode_length]
    rcases h with rfl | h
    · omega
    · have hrest := mem_starts h
      rw [p.encode_length] at hrest
      omega

/-- Where the first physical record of the next record starts. -/
def Writer.nextStart (w : Writer) : ℕ := w.dest.bytes.length + (trailer w.blockOffset).length

/-- Every block that holds a fragment of the record at an index is untouched. -/
def RecordUntouched (written found : Slice) (records : List Slice) (i : ℕ) : Prop :=
  ∀ pos, (Writer.addRecords {} (records.take i)).nextStart ≤ pos →
    pos < (Writer.addRecords {} (records.take (i + 1))).dest.bytes.length →
    BlockUntouched written found (pos / kBlockSize)

/-- All marks of intact physical records are set. -/
theorem all_of_forall₂ {Intact : ℕ → Prop} {ss : List ℕ} {marks : List Bool}
    (h : List.Forall₂ (fun start mark => Intact start → mark = true) ss marks) :
    (∀ start ∈ ss, Intact start) → marks.all id = true := by
  induction h with
  | nil => exact fun _ => rfl
  | @cons start mark ss marks hmark _ ih =>
    intro hall
    rw [List.all_cons, ih fun s hs => hall s (List.mem_cons_of_mem start hs), Bool.and_true]
    exact hmark (hall start List.mem_cons_self)

/-- The physical records that are written for records, and which records lose none of them. -/
theorem Writer.addRecords_layout (Intact : ℕ → Prop) : ∀ (records : List Slice) (w : Writer),
    w.dest.failures = [] → w.blockOffset ≤ kBlockSize →
    ∃ rs : List (Slice × List PhysicalRecord), rs.map (·.1) = records ∧ RecordsOf rs ∧
      Fit w.blockOffset (rs.flatMap (·.2)) ∧
      (w.addRecords records).dest.bytes =
        w.dest.bytes ++ encodeAll w.blockOffset (rs.flatMap (·.2)) ∧
      ∀ marks, List.Forall₂ (fun start mark => Intact start → mark = true)
        (starts w.dest.bytes.length w.blockOffset (rs.flatMap (·.2))) marks →
        ∀ i < records.length, (∀ pos, (w.addRecords (records.take i)).nextStart ≤ pos →
          pos < (w.addRecords (records.take (i + 1))).dest.bytes.length → Intact pos) →
          (recordMarks (rs.map (·.2)) marks)[i]? = some true
  | [], w, _, _ => by
    refine ⟨[], rfl, by simp [RecordsOf], trivial, ?_, fun _ _ i hi => absurd hi (Nat.not_lt_zero i)⟩
    rw [List.flatMap_nil, encodeAll, List.append_nil]
    rfl
  | record :: records, w, hw, hle => by
    obtain ⟨ps, hps, hadd, hend⟩ := addRecord_spec hw hle record
    obtain ⟨rs, hmap, hrs, hfit, hbytes, hmarks⟩ := addRecords_layout Intact records
      ⟨{ bytes := w.dest.bytes ++ encodeAll w.blockOffset ps }, endAll w.blockOffset ps⟩ rfl hend
    dsimp only at hfit hbytes hmarks
    have hcons : ∀ rest : List Slice, w.addRecords (record :: rest) =
        Writer.addRecords ⟨{ bytes := w.dest.bytes ++ encodeAll w.blockOffset ps },
          endAll w.blockOffset ps⟩ rest := by
      intro rest
      rw [addRecords, List.foldl_cons, hadd]
      rfl
    refine ⟨(record, ps) :: rs, ?_, ?_, hps.fit.append hfit, ?_, ?_⟩
    · rw [List.map_cons, hmap]
    · intro r hr
      rcases List.mem_cons.mp hr with rfl | hr
      · exact ⟨_, hps⟩
      · exact hrs r hr
    · rw [hcons, hbytes, List.flatMap_cons, encodeAll_append, List.append_assoc]
    · intro marks hforall i hi hintact
      rw [List.flatMap_cons, starts_append] at hforall
      have hflip : List.Forall₂ (flip fun start mark => Intact start → mark = true) marks _ :=
        hforall.flip
      have hfirst := (List.forall₂_take_append _ _ _ hflip).flip
      have hrest := (List.forall₂_drop_append _ _ _ hflip).flip
      rw [starts_length] at hfirst hrest
      rw [List.map_cons, recordMarks]
      cases i with
      | zero =>
        -- All physical records of the first record start in it.
        rw [List.getElem?_cons_zero, Option.some.injEq]
        rw [List.take_zero, List.take_succ_cons, List.take_zero, hcons] at hintact
        refine all_of_forall₂ hfirst fun start hstart => ?_
        have hrange := mem_starts hstart
        exact hintact start hrange.1 (hrange.2.trans_eq List.length_append.symm)
      | succ i =>
        rw [List.getElem?_cons_succ]
        refine hmarks _ ?_ i (Nat.lt_of_succ_lt_succ hi) ?_
        · rwa [List.length_append]
        · intro pos hlow hhigh
          refine hintact pos ?_ ?_
          · rwa [List.take_succ_cons, hcons]
          · rwa [List.take_succ_cons, hcons]

/-- A writer at the start of a block places records as one at the end of the block before. -/
theorem Writer.addRecords_placed (records : List Slice) :
    (Writer.addRecords {} records).nextStart =
      (Writer.addRecords { blockOffset := kBlockSize } records).nextStart := by
  cases records with
  | nil =>
    unfold nextStart addRecords
    rw [trailer_length, trailer_length]
    decide
  | cons record records =>
    rw [addRecords, addRecords, List.foldl_cons, List.foldl_cons, addRecord_at_block_end]

/-- Whatever records are written to an empty file, and however its bytes are changed in place, as
long as the checksums detect the changes: reading the file returns some of the records in their
order, and then nothing, and every record whose fragments all lie in blocks that were not touched is
among them. -/
theorem readRecords_corrupted (records : List Slice) (found : Slice)
    (hlen : found.length = (Writer.addRecords {} records).dest.bytes.length)
    (hdetect : ChangesDetected (Writer.addRecords {} records).dest.bytes found) :
    ∃ kept : List Bool,
      (∃ rd', Reader.readRecords ((select kept records).length + 1)
        { file := { rest := found }, checksum := true } =
          ((select kept records).map some ++ [none], rd')) ∧
      (select kept records).Sublist records ∧
      ∀ i < records.length,
        RecordUntouched (Writer.addRecords {} records).dest.bytes found records i →
        kept[i]? = some true := by
  obtain ⟨rs, hmap, hrs, hfit, hbytes, hmarks⟩ := Writer.addRecords_layout
    (fun pos => BlockUntouched (Writer.addRecords {} records).dest.bytes found (pos / kBlockSize))
    records { blockOffset := kBlockSize } rfl (le_refl _)
  rw [List.nil_append, ← Writer.addRecords_at_block_end] at hbytes
  dsimp only at hfit hbytes hmarks
  have hat := Reader.at_start found true
  rw [← List.drop_zero (l := found)] at hat
  obtain ⟨marks, hdamaged, hforall⟩ := Reader.Beside.scan_damaged hlen hdetect _ (le_refl _)
    ⟨hat, rfl, by rw [List.drop_zero, hbytes], hfit, by rw [Nat.zero_mod, Nat.mod_self]⟩
  have hassemble := hdamaged.assemble [] [] rs none rfl (Or.inl rfl) hrs (fun _ => rfl)
  rw [complete_nil, List.nil_append, List.length_nil, List.drop_zero] at hassemble
  unfold wholeRecords at hassemble
  rw [hmap] at hassemble
  refine ⟨recordMarks (rs.map (·.2)) marks, ?_, select_sublist _ _, ?_⟩
  · rw [List.drop_zero] at hassemble
    exact Reader.readRecords_scan _ _ rfl hassemble
  · intro i hi huntouched
    refine hmarks marks hforall i hi fun pos hlow hhigh => huntouched pos ?_ ?_
    · rwa [Writer.addRecords_placed]
    · rwa [Writer.addRecords_at_block_end]

/-- Nothing passes the checks behind the end of a file. -/
theorem changesDetected_of_lt {written found : Slice}
    (h : ∀ pos < found.length, PassesCrc (restOfBlock found pos) →
      (restOfBlock found pos).take (kHeaderSize + lengthField (restOfBlock found pos)) =
        (restOfBlock written pos).take (kHeaderSize + lengthField (restOfBlock found pos))) :
    ChangesDetected written found := by
  intro pos hpass
  refine h pos ?_ hpass
  by_contra hle
  have hnil : restOfBlock found pos = [] := by
    rw [restOfBlock, List.drop_of_length_le (not_lt.mp hle), List.take_nil]
  obtain ⟨hsize, -⟩ := hpass
  rw [hnil, List.length_nil] at hsize
  have hheader : 0 < kHeaderSize := by decide
  omega

/-- Two records. -/
def exampleRecords : List Slice := [[1], [2]]

/-- Their log, with the payload of the second one changed. -/
def exampleDamagedLog : Slice :=
  (Writer.addRecords {} exampleRecords).dest.bytes.dropLast ++ [3]

/-- The log of two records with a changed byte. -/
theorem readRecords_corrupted_example :
    ∃ kept : List Bool,
      (∃ rd', Reader.readRecords ((select kept exampleRecords).length + 1)
        { file := { rest := exampleDamagedLog }, checksum := true } =
          ((select kept exampleRecords).map some ++ [none], rd')) ∧
      (select kept exampleRecords).Sublist exampleRecords ∧
      ∀ i < exampleRecords.length, RecordUntouched
        (Writer.addRecords {} exampleRecords).dest.bytes exampleDamagedLog exampleRecords i →
        kept[i]? = some true :=
  readRecords_corrupted exampleRecords exampleDamagedLog (by decide +kernel)
    (changesDetected_of_lt (by decide +kernel))

end LevelDb.Log
