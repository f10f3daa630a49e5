import LevelDb.Log.Progress
import LevelDb.Log.Torn
import LevelDb.Version.Encode
import LevelDb.Version.Manifest

/-!
# The manifest as a file

`VersionSet::Recover` reads the manifest with a `log::Reader` whose reporter turns every report into
an error, and decodes every record into an edit. On a file that holds the encodings of edits it does
what `VersionSet.recover` does on the edits (`VersionSet.recoverFile_manifestFile`). A manifest that
ends inside its last record is an error, unless nothing of that record is there.
-/

namespace LevelDb

variable {K : Type} [LinearOrder K]

/-! ## `Recover` on a file -/

/-- The status that comes with a report of corruption, without the name of its code. -/
def reportStatus (report : ℕ × String) : Status :=
  .corruption (ascii (String.ofList (report.2.toList.drop "Corruption: ".length)))

/-- What the loop of `VersionSet::Recover` does with one record. -/
def RecoverState.decodeRecord (bytes : K ≃ Slice) (comparator : Slice) (st : RecoverState K)
    (data : Slice) : Except Status (RecoverState K) := do
  let r ← EditRecord.decodeFrom {} data
  st.record comparator (r.toEdit bytes)

/-- The loop of `VersionSet::Recover`. The first report ends it. -/
def RecoverState.replay (bytes : K ≃ Slice) (comparator : Slice) (st : RecoverState K)
    (rd : Log.Reader) : Except Status (RecoverState K) :=
  let r := rd.readRecord
  match r.2.reports with
  | report :: _ => .error (reportStatus report)
  | [] =>
    match hrecord : r.1 with
    | none => .ok st
    | some data =>
      match st.decodeRecord bytes comparator data with
      | .error s => .error s
      | .ok st' =>
        have : r.2.remaining < rd.remaining :=
          rd.readRecord_readsOn.remaining_lt (by rw [hrecord]; rfl)
        st'.replay bytes comparator r.2
termination_by rd.remaining

/-- The part of `VersionSet::Recover` behind the loop. -/
def RecoverState.install (st : RecoverState K) : Except Status (VersionSet K) :=
  match st.nextFile, st.logNumber, st.lastSequence with
  | none, _, _ => .error (.corruption (ascii "no meta-nextfile entry in descriptor"))
  | some _, none, _ => .error (.corruption (ascii "no meta-lognumber entry in descriptor"))
  | some _, some _, none =>
    .error (.corruption (ascii "no last-sequence-number entry in descriptor"))
  | some nextFile, some logNumber, some lastSequence =>
    .ok
      { nextFileNumber := nextFile + 1
        manifestFileNumber := nextFile
        lastSequence := lastSequence
        logNumber := logNumber
        prevLogNumber := st.prevLogNumber.getD 0
        current := finalize (st.builder.saveTo {})
        compactPointer := st.compactPointer }

/-- `VersionSet::Recover` on the bytes of the manifest that `CURRENT` names. -/
def VersionSet.recoverFile (bytes : K ≃ Slice) (comparator file : Slice) :
    Except Status (VersionSet K) := do
  let st ← RecoverState.replay bytes comparator {} { file := { rest := file } }
  st.install

/-- `VersionSet::Recover` on records is the loop over them and what is behind it. -/
theorem VersionSet.recover_eq (comparator : Slice) (manifest : List (VersionEdit K)) :
    VersionSet.recover comparator manifest =
      manifest.foldlM (RecoverState.record comparator) {} >>= RecoverState.install := rfl

/-! ## Files of records -/

section Replay

variable {bytes : K ≃ Slice} {comparator : Slice}

/-- One turn of the loop, whatever is read. -/
theorem RecoverState.replay_eq (st : RecoverState K) (rd : Log.Reader) :
    st.replay bytes comparator rd =
      match rd.readRecord.2.reports, rd.readRecord.1 with
      | report :: _, _ => .error (reportStatus report)
      | [], none => .ok st
      | [], some data => st.decodeRecord bytes comparator data >>= fun st' =>
          st'.replay bytes comparator rd.readRecord.2 := by
  rw [replay]
  dsimp only
  split
  · rename_i report reports hreports
    rw [hreports]
  · rename_i hreports
    rw [hreports]
    split
    · rename_i hrecord
      rw [hrecord]
    · rename_i data hrecord
      rw [hrecord]
      dsimp only
      cases st.decodeRecord bytes comparator data with
      | error s => rfl
      | ok st' => rfl

/-- One turn of the loop that ends with a report. -/
theorem RecoverState.replay_reported (st : RecoverState K) {rd : Log.Reader}
    (hrep : rd.readRecord.2.reports ≠ []) :
    ∃ msg, st.replay bytes comparator rd = .error (.corruption msg) := by
  obtain ⟨report, reports, hreports⟩ := List.exists_cons_of_ne_nil hrep
  rw [replay_eq, hreports]
  exact ⟨_, rfl⟩

/-- Replaying a file that the reader reads to its end without a report: every record is decoded and
applied. -/
theorem RecoverState.replay_records : ∀ {records : List Slice} {rd rd' : Log.Reader},
    rd.readRecords (records.length + 1) = (records.map some ++ [none], rd') → rd'.reports = [] →
    ∀ st : RecoverState K, st.replay bytes comparator rd =
      records.foldlM (RecoverState.decodeRecord bytes comparator) st
  | [], rd, rd', hread, hrep, st => by
    simp only [List.length_nil, Log.Reader.readRecords, List.map_nil, List.nil_append,
      Prod.mk.injEq, List.cons.injEq, and_true] at hread
    rw [replay_eq, hread.1, hread.2, hrep]
    rfl
  | data :: records, rd, rd', hread, hrep, st => by
    rw [List.length_cons, Log.Reader.readRecords] at hread
    simp only [List.map_cons, List.cons_append, Prod.mk.injEq, List.cons.injEq] at hread
    obtain ⟨⟨hrecord, hrest⟩, hlast⟩ := hread
    -- Reports are never taken back, so that there are none before the last call.
    have hnone : rd.readRecord.2.reports = [] := by
      have hpre := Log.Reader.readRecords_reports (records.length + 1) rd.readRecord.2
      rw [hlast, hrep] at hpre
      exact List.prefix_nil.mp hpre
    rw [replay_eq, hrecord, hnone, List.foldlM_cons]
    dsimp only
    congr 1
    funext st'
    exact replay_records (Prod.ext hrest hlast) hrep st'

/-- Replaying a file that is reported: this is an error, unless an earlier record is. -/
theorem RecoverState.replay_torn : ∀ {records : List Slice} {rd rd' : Log.Reader},
    rd.readRecords (records.length + 1) = (records.map some ++ [none], rd') → rd'.reports ≠ [] →
    ∀ st st' : RecoverState K, records.foldlM (RecoverState.decodeRecord bytes comparator) st = .ok st' →
      ∃ msg, st.replay bytes comparator rd = .error (.corruption msg)
  | [], rd, rd', hread, hrep, st, st', _ => by
    simp only [List.length_nil, Log.Reader.readRecords, List.map_nil, List.nil_append,
      Prod.mk.injEq, List.cons.injEq, and_true] at hread
    exact st.replay_reported (hread.2 ▸ hrep)
  | data :: records, rd, rd', hread, hrep, st, st', hst => by
    rw [List.length_cons, Log.Reader.readRecords] at hread
    simp only [List.map_cons, List.cons_append, Prod.mk.injEq, List.cons.injEq] at hread
    obtain ⟨⟨hrecord, hrest⟩, hlast⟩ := hread
    by_cases hnone : rd.readRecord.2.reports = []
    swap
    · exact st.replay_reported hnone
    rw [replay_eq, hrecord, hnone]
    dsimp only
    rw [List.foldlM_cons] at hst
    cases hdecode : st.decodeRecord bytes comparator data with
    | error s =>
      rw [hdecode] at hst
      cases hst
    | ok st₁ =>
      rw [hdecode] at hst
      exact replay_torn (Prod.ext hrest hlast) hrep st₁ st' hst

end Replay

/-! ## Files of edits -/

section Edits

variable (bytes : K ≃ Slice) (comparator : Slice)

omit [LinearOrder K] in
/-- The bytes of an edit. -/
def VersionEdit.encode (edit : VersionEdit K) : Slice := (edit.toRecord bytes).encodeTo

/-- The edit can be spelled in a record. -/
def VersionEdit.Encodable (edit : VersionEdit K) : Prop := (edit.toRecord bytes).Encodable

/-- Whether an edit can be spelled is that of its record. -/
instance (edit : VersionEdit K) : Decidable (edit.Encodable bytes) :=
  inferInstanceAs (Decidable (edit.toRecord bytes).Encodable)

/-- The file that a `log::Writer` makes of edits. -/
def manifestFile (edits : List (VersionEdit K)) : Slice :=
  (Log.Writer.addRecords {} (edits.map (VersionEdit.encode bytes))).dest.bytes

variable {bytes}

/-- An encoded edit is read back, with its deletions as a set. -/
theorem RecoverState.decodeRecord_encode (st : RecoverState K) {edit : VersionEdit K}
    (h : edit.Encodable bytes) :
    st.decodeRecord bytes comparator (edit.encode bytes) = st.record comparator edit.canonical := by
  unfold decodeRecord VersionEdit.encode
  rw [EditRecord.decodeFrom_encodeTo h (deletedFileSet_sorted _), ← edit.toEdit_toRecord bytes]
  rfl

/-- Encoded edits are replayed like the edits. -/
theorem foldlM_decodeRecord : ∀ {edits : List (VersionEdit K)},
    (∀ edit ∈ edits, edit.Encodable bytes) → ∀ st : RecoverState K,
    (edits.map (VersionEdit.encode bytes)).foldlM (RecoverState.decodeRecord bytes comparator) st =
      (edits.map VersionEdit.canonical).foldlM (RecoverState.record comparator) st
  | [], _, _ => rfl
  | edit :: edits, h, st => by
    rw [List.map_cons, List.map_cons, List.foldlM_cons, List.foldlM_cons,
      st.decodeRecord_encode comparator (h edit List.mem_cons_self)]
    congr 1
    funext st'
    exact foldlM_decodeRecord (fun e he => h e (List.mem_cons_of_mem edit he)) st'

/-- `VersionSet::Recover` of the file that a writer has made of edits is the recovery from these edits. -/
theorem VersionSet.recoverFile_manifestFile {edits : List (VersionEdit K)}
    (h : ∀ edit ∈ edits, edit.Encodable bytes) :
    VersionSet.recoverFile bytes comparator (manifestFile bytes edits) =
      VersionSet.recover comparator (edits.map VersionEdit.canonical) := by
  obtain ⟨rd', hread, hrep⟩ := Log.readRecords_whole (edits.map (VersionEdit.encode bytes))
  unfold VersionSet.recoverFile
  rw [VersionSet.recover_eq, ← foldlM_decodeRecord comparator h]
  unfold manifestFile
  rw [RecoverState.replay_records hread hrep]

/-! ## A torn manifest -/

omit [LinearOrder K] in
/-- The records of a manifest: the snapshot of a version set, and then an edit as each call of
`LogAndApply` completes it. -/
def manifestRecords (vs : VersionSet K) (calls : List (VersionSet K × VersionEdit K)) :
    List (VersionEdit K) :=
  vs.snapshotEdit comparator :: calls.map fun call => call.1.completeEdit call.2

/-- Records with the right comparator, or with none, are replayed without an error. -/
theorem foldlM_record_ok {comparator : Slice} : ∀ {edits : List (VersionEdit K)},
    (∀ edit ∈ edits, edit.comparator = none ∨ edit.comparator = some comparator) →
    ∀ st : RecoverState K, ∃ st', edits.foldlM (RecoverState.record comparator) st = .ok st'
  | [], _, st => ⟨st, rfl⟩
  | edit :: edits, h, st => by
    obtain ⟨st', hst'⟩ := foldlM_record_ok (fun e he => h e (List.mem_cons_of_mem edit he))
      { builder := st.builder.apply edit
        logNumber := edit.logNumber <|> st.logNumber
        prevLogNumber := edit.prevLogNumber <|> st.prevLogNumber
        nextFile := edit.nextFileNumber <|> st.nextFile
        lastSequence := edit.lastSequence <|> st.lastSequence
        compactPointer := applyCompactPointers st.compactPointer edit }
    refine ⟨st', ?_⟩
    rw [List.foldlM_cons, st.record_ok (h edit List.mem_cons_self)]
    exact hst'

omit [LinearOrder K] in
/-- The records of a manifest name the comparator or none. -/
theorem manifestRecords_comparator (vs : VersionSet K) {calls : List (VersionSet K × VersionEdit K)}
    (h : ∀ call ∈ calls, call.2.comparator = none) :
    ∀ edit ∈ (manifestRecords comparator vs calls).map VersionEdit.canonical,
      edit.comparator = none ∨ edit.comparator = some comparator := by
  intro edit hedit
  obtain ⟨e, he, rfl⟩ := List.mem_map.mp hedit
  rcases List.mem_cons.mp he with rfl | he
  · obtain ⟨pointers, hsnap⟩ := vs.snapshotEdit_eq comparator
    rw [hsnap]
    exact Or.inr rfl
  · obtain ⟨call, hcall, rfl⟩ := List.mem_map.mp he
    exact Or.inl (h call hcall)

/-- A manifest with a record of `LogAndApply` can be recovered. -/
theorem recover_manifestRecords (vs : VersionSet K) {calls : List (VersionSet K × VersionEdit K)}
    (h : ∀ call ∈ calls, call.2.comparator = none) (hne : calls ≠ []) :
    ∃ vs', VersionSet.recover comparator
      ((manifestRecords comparator vs calls).map VersionEdit.canonical) = .ok vs' := by
  have haccepted := manifestRecords_comparator comparator vs h
  rw [← List.dropLast_append_getLast hne] at haccepted ⊢
  generalize calls.getLast hne = last at haccepted ⊢
  rw [manifestRecords, List.map_append, ← List.cons_append, List.map_append] at haccepted ⊢
  obtain ⟨st, hst⟩ := foldlM_record_ok
    (fun e he => haccepted e (List.mem_append_left _ he)) ({} : RecoverState K)
  have hlast := haccepted (last.1.completeEdit last.2).canonical (List.mem_append_right _ (by simp))
  -- The last record sets everything that `Recover` asks for.
  rw [VersionSet.recover_eq, List.foldlM_append, hst]
  simp only [List.map_cons, List.map_nil, List.foldlM_cons, List.foldlM_nil, bind, Except.bind,
    st.record_ok hlast, pure, Except.pure]
  exact ⟨_, rfl⟩

/-- The cut of a manifest in the record that the last call of `LogAndApply` appends falls before that
record: nothing of it is there but the zeros that fill the block before it. -/
def CutBeforeLast (bytes : K ≃ Slice) (records : List (VersionEdit K)) (cut : ℕ) : Prop :=
  Log.CutBefore (Log.Writer.addRecords {} (records.map (VersionEdit.encode bytes))).blockOffset
    (cut - (manifestFile bytes records).length)

/-- The records behind which a manifest can be recovered are replayed without an error. -/
theorem exists_replayed {comparator : Slice} {records : List (VersionEdit K)} {vs : VersionSet K}
    (h : VersionSet.recover comparator records = .ok vs) :
    ∃ st, records.foldlM (RecoverState.record comparator) {} = .ok st ∧ st.install = .ok vs := by
  rw [VersionSet.recover_eq] at h
  cases hst : records.foldlM (RecoverState.record comparator) {} with
  | ok st =>
    rw [hst] at h
    exact ⟨st, rfl, h⟩
  | error s =>
    rw [hst] at h
    cases h

/-- `VersionSet::Recover` on a file that is cut in the last of its records. -/
theorem VersionSet.recoverFile_cut {records : List (VersionEdit K)} {last : VersionEdit K} {cut : ℕ}
    {vs : VersionSet K} (hencodable : ∀ edit ∈ records, edit.Encodable bytes)
    (hvs : VersionSet.recover comparator (records.map VersionEdit.canonical) = .ok vs)
    (hle : (manifestFile bytes records).length ≤ cut)
    (hlt : cut < (manifestFile bytes (records ++ [last])).length) :
    (CutBeforeLast bytes records cut → VersionSet.recoverFile bytes comparator
        ((manifestFile bytes (records ++ [last])).take cut) = .ok vs) ∧
      (¬ CutBeforeLast bytes records cut → ∃ msg, VersionSet.recoverFile bytes comparator
        ((manifestFile bytes (records ++ [last])).take cut) = .error (.corruption msg)) := by
  have hencode := foldlM_decodeRecord comparator hencodable ({} : RecoverState K)
  obtain ⟨st, hst, hinstall⟩ := exists_replayed hvs
  unfold manifestFile at hle hlt ⊢
  rw [List.map_append, List.map_singleton] at hlt ⊢
  obtain ⟨rd', hread, hrep⟩ := Log.readRecords_torn _ _ hle hlt
  unfold VersionSet.recoverFile
  constructor
  · intro hcut
    rw [RecoverState.replay_records hread (hrep.mpr hcut), hencode, hst]
    exact hinstall
  · intro hcut
    obtain ⟨msg, hmsg⟩ := RecoverState.replay_torn hread (fun h => hcut (hrep.mp h)) {} st
      (hencode.trans hst)
    rw [hmsg]
    exact ⟨msg, rfl⟩

/-- `VersionSet::Recover` on a manifest that is cut in its last record, with a record of `LogAndApply`
before it. The records before the last one give a version. So does the cut manifest when nothing of
the last record is there; otherwise it is an error, `Corruption`. -/
theorem recoverFile_torn {vs : VersionSet K} {calls : List (VersionSet K × VersionEdit K)}
    {last : VersionSet K × VersionEdit K} {cut : ℕ} (hne : calls ≠ [])
    (hcomparator : ∀ call ∈ calls, call.2.comparator = none)
    (hencodable : ∀ edit ∈ manifestRecords comparator vs calls, edit.Encodable bytes)
    (hle : (manifestFile bytes (manifestRecords comparator vs calls)).length ≤ cut)
    (hlt : cut < (manifestFile bytes (manifestRecords comparator vs (calls ++ [last]))).length) :
    let whole := manifestFile bytes (manifestRecords comparator vs calls)
    let file := manifestFile bytes (manifestRecords comparator vs (calls ++ [last]))
    ∃ vs', VersionSet.recoverFile bytes comparator whole = .ok vs' ∧
      (CutBeforeLast bytes (manifestRecords comparator vs calls) cut →
        VersionSet.recoverFile bytes comparator (file.take cut) = .ok vs') ∧
      (¬ CutBeforeLast bytes (manifestRecords comparator vs calls) cut →
        ∃ msg, VersionSet.recoverFile bytes comparator (file.take cut) =
          .error (.corruption msg)) := by
  dsimp only
  obtain ⟨vs', hvs'⟩ := recover_manifestRecords comparator vs hcomparator hne
  have hrecords : manifestRecords comparator vs (calls ++ [last]) =
      manifestRecords comparator vs calls ++ [last.1.completeEdit last.2] := by
    rw [manifestRecords, List.map_append, ← List.cons_append]
    rfl
  rw [hrecords] at hlt ⊢
  exact ⟨vs', (VersionSet.recoverFile_manifestFile comparator hencodable).trans hvs',
    VersionSet.recoverFile_cut comparator hencodable hvs' hle hlt⟩

end Edits

/-! ### An example -/

/-- A call of `LogAndApply` on an empty version set that changes nothing. -/
def exampleCall : VersionSet Slice × VersionEdit Slice := ({}, {})

/-- The manifest of the snapshot of an empty version set and of some calls. -/
def exampleManifest (calls : List (VersionSet Slice × VersionEdit Slice)) : Slice :=
  manifestFile (Equiv.refl Slice) (manifestRecords (ascii "c") {} calls)

/-- A manifest of 40 bytes, whose last record starts with byte 25, is cut between its header and
its payload: the records before the last one can be recovered, the cut manifest cannot. -/
theorem recoverFile_torn_fails :
    (exampleManifest [exampleCall]).length = 25 ∧
      (exampleManifest [exampleCall, exampleCall]).length = 40 ∧
      (VersionSet.recoverFile (Equiv.refl Slice) (ascii "c") (exampleManifest [exampleCall])).isOk =
        true ∧
      (VersionSet.recoverFile (Equiv.refl Slice) (ascii "c")
        ((exampleManifest [exampleCall, exampleCall]).take 32)).isOk = false := by
  decide +kernel

/-- The records of the example can be spelled. -/
theorem exampleManifest_encodable :
    ∀ edit ∈ manifestRecords (ascii "c") ({} : VersionSet Slice) [exampleCall],
      edit.Encodable (Equiv.refl Slice) := by
  intro edit hedit
  rcases List.mem_cons.mp hedit with rfl | hedit
  · constructor <;> decide
  · rw [List.map_singleton, List.mem_singleton] at hedit
    subst hedit
    constructor <;> decide

/-- The cut behind the header of the last record of the example. -/
theorem recoverFile_torn_example : exampleCall.2.comparator = none ∧
    ∃ vs', VersionSet.recoverFile (Equiv.refl Slice) (ascii "c") (exampleManifest [exampleCall]) =
        .ok vs' ∧
      (CutBeforeLast (Equiv.refl Slice) (manifestRecords (ascii "c") {} [exampleCall]) 32 →
        VersionSet.recoverFile (Equiv.refl Slice) (ascii "c")
          ((exampleManifest [exampleCall, exampleCall]).take 32) = .ok vs') ∧
      (¬ CutBeforeLast (Equiv.refl Slice) (manifestRecords (ascii "c") {} [exampleCall]) 32 →
        ∃ msg, VersionSet.recoverFile (Equiv.refl Slice) (ascii "c")
          ((exampleManifest [exampleCall, exampleCall]).take 32) = .error (.corruption msg)) :=
  ⟨rfl, recoverFile_torn (ascii "c") (by simp) (by simp [exampleCall]) exampleManifest_encodable
    (by decide +kernel) (by decide +kernel)⟩

end LevelDb
