import LevelDb.Db.Host
import LevelDb.Db.Layout

/-!
# File operations and crashes

A database with the contents of its files, file operation by file operation: a record that is added to a
log, a table that is built, a record of the manifest, `SetCurrentFile`, and the deletion of a file are
steps of their own, and so is what a thread does in memory between two of them. Writes go on while the
background thread has released the mutex. `DB::Open` takes such steps too, and the process may crash
between any two; what has been written survives. File operations succeed. A database that is closed leaves
what a crash leaves, and so does an `Open` that fails.
-/

namespace LevelDb

variable {K V : Type}

/-! ## The directory -/

/-- The files of a database and what they hold. -/
structure Directory (K V : Type) where
  /-- The number of the manifest that `CURRENT` names, if there is a `CURRENT`. -/
  current : Option ℕ := none
  /-- The records of the manifests by their numbers. -/
  manifests : ℕ → List (VersionEdit K) := fun _ => []
  /-- The log files with their records. -/
  logs : List (ℕ × List (WriteBatch K V)) := []
  /-- The table files. A table that does not exist has no entries, and every other table has some. -/
  tables : Tables K V := fun _ => []

/-- A new manifest, with its first records. -/
def Directory.createManifest (dir : Directory K V) (number : ℕ) (records : List (VersionEdit K)) :
    Directory K V :=
  { dir with manifests := Function.update dir.manifests number records }

/-- `AddRecord` for a manifest. -/
def Directory.addEdit (dir : Directory K V) (number : ℕ) (record : VersionEdit K) : Directory K V :=
  dir.createManifest number (dir.manifests number ++ [record])

/-- A new log file. -/
def Directory.createLog (dir : Directory K V) (number : ℕ) : Directory K V :=
  { dir with logs := (dir.logs.filter fun l => l.1 ≠ number) ++ [(number, [])] }

/-- `AddRecord` for a log file. -/
def Directory.addBatch (dir : Directory K V) (number : ℕ) (batch : WriteBatch K V) : Directory K V :=
  { dir with
    logs := dir.logs.map fun l => if l.1 = number then (l.1, l.2 ++ [batch]) else l }

/-- A log file is deleted. -/
def Directory.deleteLog (dir : Directory K V) (number : ℕ) : Directory K V :=
  { dir with logs := dir.logs.filter fun l => l.1 ≠ number }

/-- `BuildTable`, which leaves no file if there are no entries. -/
def Directory.buildTable (dir : Directory K V) (number : ℕ) (entries : List (Entry K V)) :
    Directory K V :=
  { dir with tables := Function.update dir.tables number entries }

/-! ## The open database -/

/-- What `LogAndApply` is called for. -/
inductive Cause where
  /-- `CompactMemTable` -/
  | flush
  /-- A trivial move. -/
  | move
  /-- `InstallCompactionResults` -/
  | results

/-- Where the background thread stands. -/
inductive Background (K : Type) where
  /-- There is none, or it is in the loop of `DoCompactionWork`. -/
  | idle
  /-- In `BuildTable` of `CompactMemTable`, where the table may be complete. -/
  | building (number : ℕ) (base : Version K) (built : Bool)
  /-- In `LogAndApply`, where the record may be written. -/
  | logging (edit record : VersionEdit K) (cause : Cause) (written : Bool)
  /-- In `DeleteObsoleteFiles`. -/
  | deleting

/-- The state of `DBImpl` in memory. -/
structure Session (K V : Type) where
  /-- `versions_` -/
  versions : VersionSet K
  /-- `logfile_number_` -/
  logFileNumber : ℕ
  /-- `mem_` -/
  mem : List (Entry K V) := []
  /-- `imm_` -/
  imm : Option (List (Entry K V)) := none
  /-- `snapshots_`, oldest first. -/
  snapshots : List ℕ := []
  /-- The compaction in flight. -/
  compacting : Option (CompactionState K V) := none
  /-- How many of its outputs are complete as files. -/
  built : ℕ := 0
  /-- The batch that `Write` has added to the log, and not yet to the memtable. -/
  writing : Option (WriteBatch K V) := none
  /-- Where the background thread stands. -/
  background : Background K := .idle

/-- The database of this session over the given files. -/
def Session.db (s : Session K V) (manifest : List (VersionEdit K)) (tables : Tables K V)
    (oldLogs : List (ℕ × List (WriteBatch K V))) (log : List (WriteBatch K V)) : Db K V :=
  { versions := s.versions
    manifest := manifest
    tables := tables
    oldLogs := oldLogs
    logFileNumber := s.logFileNumber
    log := log
    mem := s.mem
    imm := s.imm
    snapshots := s.snapshots
    compacting := s.compacting }

/-- What has happened to a database, over all its processes. -/
structure Journal (K V : Type) where
  /-- The batches that have been added to a log. -/
  written : List (WriteBatch K V) := []
  /-- Those for which `Write` has returned OK. -/
  acknowledged : List (WriteBatch K V) := []
  /-- The inputs and the outputs of the compactions whose results are in a manifest. -/
  compacted : List (List (Entry K V) × List (Entry K V)) := []

section

variable [LinearOrder K]

/-! ## Writes -/

/-- `Write` after `MakeRoomForWrite`: the batch gets the next sequence numbers, and goes to the log. -/
def Session.addRecord (s : Session K V) (dir : Directory K V) (updates : List (Update K V)) :
    Option (Directory K V × Session K V × WriteBatch K V) :=
  let batch : WriteBatch K V := ⟨s.versions.lastSequence + 1, updates⟩
  if s.writing.isSome then none
  else some (dir.addBatch s.logFileNumber batch, { s with writing := some batch }, batch)

/-- The rest of `Write`: the batch goes to the memtable. -/
def Session.insertInto [Inhabited V] (s : Session K V) (batch : WriteBatch K V) : Session K V :=
  { s with
    mem := LevelDb.insertInto s.mem batch
    versions := { s.versions with lastSequence := s.versions.lastSequence + batch.count }
    writing := none }

/-- What `MakeRoomForWrite` changes in memory when it switches to a new memtable. -/
def Session.newMemTable (s : Session K V) : Session K V :=
  { s with
    logFileNumber := s.versions.nextFileNumber
    imm := some s.mem
    mem := []
    versions := { s.versions with nextFileNumber := s.versions.nextFileNumber + 1 } }

/-- The branch of `MakeRoomForWrite` that switches to a new memtable and log file. -/
def Session.switchMemTable (s : Session K V) (dir : Directory K V) :
    Option (Directory K V × Session K V) :=
  if s.writing.isNone ∧ s.imm.isNone ∧
      (s.versions.current.files 0).length < kL0StopWritesTrigger then
    some (dir.createLog s.versions.nextFileNumber, s.newMemTable)
  else none

/-! ## Reads -/

/-- `Get`, as far as it changes the seek statistics. -/
def Session.get (s : Session K V) (dir : Directory K V) (key : K) (snapshot : Option ℕ) : Session K V :=
  { s with versions := ((s.db [] dir.tables [] []).get key snapshot).2.versions }

/-! ## Background work -/

/-- `LogAndApply` up to the writing of its record. -/
def Session.beginLog (s : Session K V) (edit : VersionEdit K) (cause : Cause) : Session K V :=
  { s with background := .logging edit (s.versions.completeEdit edit) cause false }

/-- `CompactMemTable` up to `BuildTable`. From inside the loop of `DoCompactionWork` it only runs while
there is input left. -/
def Session.beginFlush (s : Session K V) : Option (Session K V) :=
  if s.imm.isSome ∧ ¬s.compacting.any (fun st => st.input.isEmpty) then
    some
      { s with
        versions := { s.versions with nextFileNumber := s.versions.nextFileNumber + 1 }
        background := .building s.versions.nextFileNumber s.versions.current false }
  else none

/-- The edit of `CompactMemTable`, with the table unless the memtable is empty. -/
def Session.flushEdit (o : DbOptions K V) (s : Session K V) (imm : List (Entry K V)) (number : ℕ)
    (base : Version K) : VersionEdit K :=
  let edit : VersionEdit K :=
    match imm.head?, imm.getLast? with
    | some first, some last =>
      VersionEdit.addFile {} (memTableLevel (some base) first.key.userKey last.key.userKey) number
        (o.sizes.finished imm) first.key last.key
    | _, _ => {}
  -- Earlier logs no longer needed
  { edit with prevLogNumber := some 0, logNumber := some s.logFileNumber }

/-- `BackgroundCompaction` without a manual compaction, up to the loop of `DoCompactionWork` or to the
record of a trivial move. -/
def Session.beginCompaction (s : Session K V) (dir : Directory K V) : Option (Session K V) :=
  if s.imm.isSome ∨ s.compacting.isSome then none
  else
    match s.versions.pickCompaction with
    | none => none
    | some (c, versions) =>
      match c.isTrivialMove, c.inputs0.head? with
      | true, some f => some ({ s with versions := versions }.beginLog (c.moveEdit f) .move)
      | _, _ =>
        some
          { s with
            versions := versions
            compacting := some (c.start dir.tables (s.snapshots.head?.getD s.versions.lastSequence))
            built := 0 }

/-- `BackgroundCompaction` for `TEST_CompactRange`, up to the loop of `DoCompactionWork`. -/
def Session.beginManual (s : Session K V) (dir : Directory K V) (level : ℕ) (first last : K) :
    Option (Session K V) :=
  if s.imm.isSome ∨ s.compacting.isSome ∨ kNumLevels ≤ level + 1 then none
  else
    match s.versions.compactRange level (.pack first kMaxSequenceNumber kValueTypeForSeek)
        (.pack last 0 .deletion) with
    | none => none
    | some (c, versions) =>
      some
        { s with
          versions := versions
          compacting := some (c.start dir.tables (s.snapshots.head?.getD s.versions.lastSequence))
          built := 0 }

/-- One round of the loop of `DoCompactionWork`. The outputs that it finishes become files after it, and
before the next one. -/
def Session.workCompaction (o : DbOptions K V) (s : Session K V) : Option (Session K V) :=
  match s.compacting with
  | none => none
  | some st =>
    if st.input.isEmpty ∨ s.built ≠ st.cutting.outputs.length then none
    else
      let r := st.workStep o.sizes s.versions.nextFileNumber
      some
        { s with
          compacting := some r.1
          versions := { s.versions with nextFileNumber := r.2 } }

/-- The outputs that a compaction in flight has finished. They are all outputs when there is no input
left. -/
def CompactionState.finished (st : CompactionState K V) (sizes : TableSizes K V) :
    List (FileMetaData K × List (Entry K V)) :=
  if st.input.isEmpty then st.finalOutputs sizes else st.cutting.outputs

/-- `FinishCompactionOutputFile` for the next output. -/
def Session.buildOutput (o : DbOptions K V) (s : Session K V) (dir : Directory K V) :
    Option (Directory K V × Session K V) :=
  s.compacting.bind fun st =>
    (st.finished o.sizes)[s.built]?.map fun out =>
      (dir.buildTable out.1.number out.2, { s with built := s.built + 1 })

/-- The end of `DoCompactionWork`, and `InstallCompactionResults` up to the writing of the record. -/
def Session.beginResults (o : DbOptions K V) (s : Session K V) : Option (Session K V) :=
  match s.compacting with
  | none => none
  | some st =>
    if st.input.isEmpty ∧ s.built = (st.finalOutputs o.sizes).length then
      some (s.beginLog (st.compaction.resultEdit (st.finalOutputs o.sizes)) .results)
    else none

/-- `LogAndApply` installs the new version, and its caller goes on up to `DeleteObsoleteFiles`. -/
def Session.install (s : Session K V) (edit : VersionEdit K) (cause : Cause) : Session K V :=
  let t := { s with versions := s.versions.logAndApply edit }
  match cause with
  | .flush => { t with imm := none }
  | .move => t
  | .results => { t with compacting := none }

/-- The numbers in `pending_outputs_` that `DeleteObsoleteFiles` sees. -/
def Session.pendingOutputs (s : Session K V) : List ℕ :=
  s.compacting.toList.flatMap fun st => st.cutting.numbers

/-- A table that `DeleteObsoleteFiles` may delete. It also keeps the files of older versions that are
still in use. -/
def Session.Obsolete (s : Session K V) (number : ℕ) : Prop :=
  number ∉ s.pendingOutputs ∧
    ∀ level ∈ List.range kNumLevels, ∀ f ∈ s.versions.current.files level, f.number ≠ number
  deriving Decidable

/-- What a background thread does next. -/
inductive BackgroundAction (K : Type) where
  /-- `CompactMemTable` begins. -/
  | beginFlush
  /-- `BuildTable` -/
  | buildTable
  /-- `CompactMemTable` calls `LogAndApply`. -/
  | logFlush
  /-- A compaction chosen by `PickCompaction` begins. -/
  | beginCompaction
  /-- A compaction chosen by `CompactRange` begins. -/
  | beginManual (level : ℕ) (first last : K)
  /-- One round of the loop of `DoCompactionWork`. -/
  | workCompaction
  /-- `FinishCompactionOutputFile` -/
  | buildOutput
  /-- `InstallCompactionResults` calls `LogAndApply`. -/
  | logResults
  /-- `LogAndApply` adds its record to the manifest. -/
  | addEdit
  /-- `LogAndApply` installs the new version. -/
  | install
  /-- `DeleteObsoleteFiles` deletes a log file. -/
  | deleteLog (number : ℕ)
  /-- `DeleteObsoleteFiles` deletes a manifest. -/
  | deleteManifest (number : ℕ)
  /-- `DeleteObsoleteFiles` deletes a table file. -/
  | deleteTable (number : ℕ)
  /-- `DeleteObsoleteFiles` returns, and may have left some files. -/
  | endDelete

/-- The inputs and the outputs of the compaction whose results a record has. -/
def Session.compacted (o : DbOptions K V) (s : Session K V) (dir : Directory K V) :
    Cause → List (List (Entry K V) × List (Entry K V))
  | .flush | .move => []
  | .results => s.compacting.toList.map fun st =>
    (st.compaction.makeInputIterator dir.tables, (st.finalOutputs o.sizes).flatMap (·.2))

/-- One step of the background thread. -/
def Session.work (o : DbOptions K V) (s : Session K V) (dir : Directory K V) (j : Journal K V)
    (a : BackgroundAction K) : Option (Directory K V × Session K V × Journal K V) :=
  match s.background, a with
  | .idle, .beginFlush => s.beginFlush.map fun t => (dir, t, j)
  | .building number base false, .buildTable =>
    s.imm.map fun imm =>
      (dir.buildTable number imm, { s with background := .building number base true }, j)
  | .building number base true, .logFlush =>
    s.imm.map fun imm => (dir, s.beginLog (s.flushEdit o imm number base) .flush, j)
  | .idle, .beginCompaction => (s.beginCompaction dir).map fun t => (dir, t, j)
  | .idle, .beginManual level first last => (s.beginManual dir level first last).map fun t => (dir, t, j)
  | .idle, .workCompaction => (s.workCompaction o).map fun t => (dir, t, j)
  | .idle, .buildOutput => (s.buildOutput o dir).map fun r => (r.1, r.2, j)
  | .idle, .logResults => (s.beginResults o).map fun t => (dir, t, j)
  | .logging edit record cause false, .addEdit =>
    some (dir.addEdit s.versions.manifestFileNumber record,
      { s with background := .logging edit record cause true },
      { j with compacted := j.compacted ++ s.compacted o dir cause })
  | .logging edit _ cause true, .install =>
    let next := match cause with
      | .flush | .results => .deleting
      | .move => .idle
    some (dir, { s.install edit cause with background := next }, j)
  | .deleting, .deleteLog number =>
    if number < s.versions.logNumber ∧ number ≠ s.versions.prevLogNumber then
      some (dir.deleteLog number, s, j)
    else none
  | .deleting, .deleteManifest number =>
    if number < s.versions.manifestFileNumber then some (dir.createManifest number [], s, j) else none
  | .deleting, .deleteTable number =>
    if s.Obsolete number then some (dir.buildTable number [], s, j) else none
  | .deleting, .endDelete => some (dir, { s with background := .idle }, j)
  | _, _ => none

/-! ## `DB::Open` -/

/-- `DB::Open` in the loop of `DBImpl::Recover` over log files. -/
structure Replaying (K V : Type) where
  /-- `versions_` -/
  versions : VersionSet K
  /-- `edit` -/
  edit : VersionEdit K := {}
  /-- `max_sequence` -/
  maxSequence : ℕ := 0
  /-- The log files that are left, the first one without the records that have been read. -/
  logs : List (ℕ × List (WriteBatch K V))
  /-- `mem` of `RecoverLogFile` -/
  mem : Option (List (Entry K V)) := none

/-- `WriteLevel0Table` of `RecoverLogFile`. -/
def Replaying.writeLevel0Table (o : DbOptions K V) (r : Replaying K V) (dir : Directory K V)
    (mem : List (Entry K V)) : Directory K V × Replaying K V :=
  let w := TableWriter.writeLevel0Table o ⟨r.versions, dir.tables, r.edit⟩ mem none
  ({ dir with tables := w.tables }, { r with versions := w.versions, edit := w.edit, mem := none })

/-- One round of `RecoverLogFile`, or `MarkFileNumberUsed` after it. -/
def Replaying.round [Inhabited V] (o : DbOptions K V) (r : Replaying K V) (dir : Directory K V)
    (number : ℕ) (batches : List (WriteBatch K V)) (logs : List (ℕ × List (WriteBatch K V))) :
    Directory K V × Replaying K V :=
  match batches, r.mem with
  | [], none => (dir, { r with versions := r.versions.markFileNumberUsed number, logs := logs })
  | [], some mem => r.writeLevel0Table o dir mem
  | b :: batches, mem =>
    let mem := LevelDb.insertInto (mem.getD []) b
    let r := { r with
      maxSequence := max r.maxSequence (b.sequence + b.count - 1)
      logs := (number, batches) :: logs }
    if o.writeBufferSize < o.approximateMemoryUsage mem then r.writeLevel0Table o dir mem
    else (dir, { r with mem := some mem })

/-- `DB::Open` in its `LogAndApply`. -/
structure Opening (K : Type) where
  /-- `versions_` -/
  versions : VersionSet K
  /-- `edit` -/
  edit : VersionEdit K
  /-- `logfile_number_` -/
  logFileNumber : ℕ
  /-- How far the manifest is. -/
  stage : ManifestStage := .missing

/-- The end of `DBImpl::Recover`, and the new log file of `DB::Open`. -/
def Replaying.newLog (r : Replaying K V) (dir : Directory K V) : Directory K V × Opening K :=
  let versions := Recovery.setLastSequence ⟨⟨r.versions, dir.tables, r.edit⟩, r.maxSequence⟩
  let number := versions.nextFileNumber
  (dir.createLog number,
    { versions := { versions with nextFileNumber := number + 1 }
      edit := { r.edit with logNumber := some number }
      logFileNumber := number })

/-- `LogAndApply` creates the new manifest, writes the snapshot and adds the edit. -/
def Opening.writeManifest (o : DbOptions K V) (r : Opening K) (dir : Directory K V) :
    Option (Directory K V × Opening K) :=
  let manifest := r.versions.manifestFileNumber
  match r.stage with
  | .missing => some (dir.createManifest manifest [], { r with stage := .created })
  | .created =>
    some (dir.addEdit manifest (r.versions.snapshotEdit o.comparator), { r with stage := .snapshot })
  | .snapshot =>
    some (dir.addEdit manifest (r.versions.completeEdit r.edit), { r with stage := .recorded })
  | .recorded => none

/-- The session after `LogAndApply`, before `DeleteObsoleteFiles`. -/
def Opening.session (r : Opening K) : Session K V :=
  { versions := r.versions.logAndApply r.edit
    logFileNumber := r.logFileNumber
    background := .deleting }

/-! ## Runs -/

/-- What runs on a database. -/
inductive Stage (K V : Type) where
  /-- Nothing. -/
  | down
  /-- `NewDB`, which has written its manifest. -/
  | creating
  /-- `DBImpl::Recover` -/
  | replaying (r : Replaying K V)
  /-- `LogAndApply` of `DB::Open` -/
  | opening (r : Opening K)
  /-- The open database. -/
  | up (s : Session K V)

/-- A database with its files and its history. -/
structure Site (K V : Type) where
  /-- The files. -/
  dir : Directory K V := {}
  /-- The process. -/
  stage : Stage K V := .down
  /-- The history. -/
  journal : Journal K V := {}

/-- `VersionSet::Recover` and the listing of the log files. -/
def Directory.recover (o : DbOptions K V) (dir : Directory K V) (manifest : ℕ) : Stage K V :=
  match VersionSet.recover o.comparator (dir.manifests manifest) with
  | .error _ => .down
  | .ok versions => .replaying { versions := versions, logs := logsToRecover versions dir.logs }

/-- The next step of `DB::Open`, which is called if there is no process. -/
def Site.open [Inhabited V] (o : DbOptions K V) (x : Site K V) : Option (Site K V) :=
  match x.stage with
  | .down =>
    match x.dir.current with
    | none => some { x with dir := x.dir.createManifest 1 (newDbManifest o), stage := .creating }
    | some manifest => some { x with stage := x.dir.recover o manifest }
  | .creating => some { x with dir := { x.dir with current := some 1 }, stage := x.dir.recover o 1 }
  | .replaying r =>
    match r.logs with
    | [] =>
      let t := r.newLog x.dir
      some { x with dir := t.1, stage := .opening t.2 }
    | (number, batches) :: logs =>
      let t := r.round o x.dir number batches logs
      some { x with dir := t.1, stage := .replaying t.2 }
  | .opening r =>
    match r.writeManifest o x.dir with
    | some t => some { x with dir := t.1, stage := .opening t.2 }
    | none =>
      -- `SetCurrentFile`
      some
        { x with
          dir := { x.dir with current := some r.versions.manifestFileNumber }
          stage := .up r.session }
  | .up _ => none

/-- What happens to a database. -/
inductive SiteAction (K V : Type) where
  /-- `DB::Open` goes on. -/
  | open
  /-- The process crashes or ends. -/
  | crash
  /-- `Write` adds its batch to the log. -/
  | addRecord (updates : List (Update K V))
  /-- `Write` adds its batch to the memtable and returns OK. -/
  | insertInto
  /-- `MakeRoomForWrite` switches memtables. -/
  | switchMemTable
  /-- `Get`, possibly at a snapshot. -/
  | get (key : K) (snapshot : Option ℕ)
  /-- `GetSnapshot` -/
  | getSnapshot
  /-- `ReleaseSnapshot` -/
  | releaseSnapshot (snapshot : ℕ)
  /-- The background thread goes on. -/
  | background (a : BackgroundAction K)

variable [Inhabited V]

/-- One step of an open database. -/
def Session.step (o : DbOptions K V) (s : Session K V) (dir : Directory K V) (j : Journal K V) :
    SiteAction K V → Option (Directory K V × Session K V × Journal K V)
  | .open | .crash => none
  | .addRecord updates =>
    (s.addRecord dir updates).map fun r => (r.1, r.2.1, { j with written := j.written ++ [r.2.2] })
  | .insertInto =>
    s.writing.map fun b => (dir, s.insertInto b, { j with acknowledged := j.acknowledged ++ [b] })
  | .switchMemTable => (s.switchMemTable dir).map fun r => (r.1, r.2, j)
  | .get key snapshot =>
    if snapshot.all (· ∈ s.snapshots) then some (dir, s.get dir key snapshot, j) else none
  | .getSnapshot => some (dir, { s with snapshots := s.snapshots ++ [s.versions.lastSequence] }, j)
  | .releaseSnapshot snapshot => some (dir, { s with snapshots := s.snapshots.erase snapshot }, j)
  | .background a => s.work o dir j a

/-- One step. -/
def Site.step (o : DbOptions K V) (x : Site K V) (a : SiteAction K V) : Option (Site K V) :=
  match a, x.stage with
  | .open, _ => x.open o
  | .crash, _ => some { x with stage := .down }
  | a, .up s => (s.step o x.dir x.journal a).map fun r => ⟨r.1, .up r.2.1, r.2.2⟩
  | _, _ => none

/-- A run. -/
def Site.run (o : DbOptions K V) : Site K V → List (SiteAction K V) → Option (Site K V)
  | x, [] => some x
  | x, a :: as => (x.step o a).bind fun y => y.run o as

/-- Every step of a run meets a condition on the state before it. -/
def Site.RunMeets (o : DbOptions K V) (cond : Site K V → SiteAction K V → Prop) :
    Site K V → List (SiteAction K V) → Prop
  | _, [] => True
  | x, a :: as => cond x a ∧ ∀ y ∈ x.step o a, y.RunMeets o cond as

end

end LevelDb
