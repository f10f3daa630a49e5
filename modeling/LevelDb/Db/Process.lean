import LevelDb.Lib.RefCount
import LevelDb.Version.Get
import LevelDb.Version.Placement
import LevelDb.Compaction.Work
import Mathlib.Data.Finset.Basic

/-!
# The process

`DBImpl` at the granularity of `mutex_`, with the files of its directory. A step is what one thread
does from one `Lock` to the next `Unlock` or `Wait`; the file operations that it does without the
mutex are joined to such a critical section. `MakeRoomForWrite` takes one step for each round of its
loop, though it keeps the mutex between some of them. Calls of the environment may fail. What tables
and memtables hold is not part of this model: a memtable is the number of the log that holds its
entries, and a compaction may write any number of outputs with any key ranges.
-/

namespace LevelDb

open Lib

variable {K : Type}

/-! ## The directory -/

/-- `FileType` of `db/filename.h`. -/
inductive FileType where
  | logFile
  | dbLockFile
  | tableFile
  | descriptorFile
  | currentFile
  | tempFile
  | infoLogFile
  deriving DecidableEq

/-- The name of a file of the database, as `ParseFileName` reads it. -/
structure FileName where
  /-- The type of the file. -/
  type : FileType
  /-- Its number. -/
  number : ℕ
  deriving DecidableEq

/-- The directory of a database. -/
structure Disk (K : Type) where
  /-- What `GetChildren` lists. -/
  files : List FileName := []
  /-- The records of the manifests by their numbers. -/
  records : ℕ → List (VersionEdit K) := fun _ => []
  /-- The number of the manifest that `CURRENT` names, if there is a `CURRENT`. -/
  current : Option ℕ := none
  /-- The files for which `NewWritableFile` has been called, the last one first. -/
  created : List FileName := []

/-- `NewWritableFile`. -/
def Disk.create (disk : Disk K) (name : FileName) : Disk K :=
  { disk with files := disk.files.insert name, created := name :: disk.created }

/-- `DeleteFile`. -/
def Disk.delete (disk : Disk K) (name : FileName) : Disk K :=
  { disk with files := disk.files.filter (· ≠ name) }

/-- A record is appended to a manifest. -/
def Disk.append (disk : Disk K) (manifest : ℕ) (record : VersionEdit K) : Disk K :=
  { disk with
    records := Function.update disk.records manifest (disk.records manifest ++ [record]) }

/-! ## Threads -/

/-- The files of a version by level. -/
abbrev LevelFiles (K : Type) := ℕ → List (FileMetaData K)

/-- Where the thread stands that has the logging responsibility. -/
inductive LoggerPoint where
  /-- In the loop of `MakeRoomForWrite`. -/
  | room (force allowDelay : Bool)
  /-- In `SleepForMicroseconds`. -/
  | sleeping (force : Bool)
  /-- Blocked on `bg_cv_`. -/
  | waiting (force allowDelay : Bool)
  /-- Writing to the log and to the memtable. -/
  | writing

/-- The thread that has the logging responsibility. -/
structure Logger where
  /-- Whether it is in `Write`, and not in `TEST_CompactMemTable`. -/
  write : Bool
  /-- Where it stands. -/
  point : LoggerPoint

/-- `ManualCompaction`. -/
structure ManualCompaction (K : Type) where
  /-- `level` -/
  level : ℕ
  /-- `begin` -/
  first : K
  /-- `end` -/
  last : K

/-- `CompactionState`, as far as it concerns files. -/
structure BgCompaction (K : Type) where
  /-- `is_manual` -/
  manual : Bool
  /-- `compaction` -/
  compaction : Compaction K
  /-- `input_version_` -/
  input : Held (LevelFiles K)
  /-- The numbers of `outputs`. -/
  outputs : List ℕ := []

/-- What calls `LogAndApply`. -/
inductive Work (K : Type) where
  /-- `CompactMemTable`, possibly inside the loop of a compaction. -/
  | flush (outer : Option (BgCompaction K))
  /-- A trivial move. -/
  | move (job : BgCompaction K)
  /-- `InstallCompactionResults` -/
  | results (job : BgCompaction K)

/-- Where a running `BGWork` stands while it does not hold the mutex. -/
inductive BgPoint (K : Type) where
  /-- In `BuildTable` for `CompactMemTable`, which may be inside the loop of a compaction. -/
  | flushing (number : ℕ) (base : Held (LevelFiles K)) (outer : Option (BgCompaction K))
  /-- In `LogAndApply`. -/
  | logging (edit record : VersionEdit K) (work : Work K)
  /-- In the loop of `DoCompactionWork`. -/
  | compacting (job : BgCompaction K)

/-- The part of the state of `DBImpl` that concerns files, with its directory. -/
structure FileState (K : Type) where
  /-- The directory. -/
  disk : Disk K
  /-- `versions_` -/
  versions : VersionSet K
  /-- The list `dummy_versions_` of `versions_`, with the reference counts. -/
  pool : List (Node (LevelFiles K))
  /-- The address of `current_`. -/
  currentId : ℕ
  /-- The address of the next version. -/
  nextId : ℕ
  /-- `pending_outputs_` -/
  pendingOutputs : Finset ℕ := ∅
  /-- `logfile_number_`, which is the log that holds the entries of `mem_`. -/
  logFileNumber : ℕ
  /-- `imm_`, by the number of the log that holds its entries. -/
  imm : Option ℕ := none
  /-- The references to versions that `Get`, iterators and `GetApproximateSizes` hold. -/
  readers : List (Held (LevelFiles K)) := []

/-- The state of `DBImpl`, with its directory and its threads. -/
structure DbImpl (K : Type) extends FileState K where
  /-- `options_.paranoid_checks` -/
  paranoidChecks : Bool
  /-- `shutting_down_` -/
  shuttingDown : Bool := false
  /-- `bg_compaction_scheduled_` -/
  bgCompactionScheduled : Bool := false
  /-- `bg_error_`, which is `none` for OK. -/
  bgError : Option Status := none
  /-- `manual_compaction_` -/
  manualCompaction : Option (ManualCompaction K) := none
  /-- `logger_` -/
  logger : Option Logger := none
  /-- What `Write`, and `MakeRoomForWrite` of `TEST_CompactMemTable`, have returned, the last one first,
  and whether it was `Write`. -/
  returned : List (Bool × Option Status) := []
  /-- The number of `BGWork` calls that are queued in the environment. -/
  queued : ℕ := 0
  /-- The `BGWork` calls that are running. -/
  running : List (BgPoint K) := []

/-! ## Versions and files -/

/-- A reference to the current version. -/
def FileState.currentVersion (s : FileState K) : Held (LevelFiles K) :=
  ⟨s.currentId, s.versions.current.files⟩

/-- `current()->Ref` -/
def FileState.refCurrent (s : FileState K) : FileState K := { s with pool := ref s.pool s.currentId }

/-- `Version::Unref` -/
def FileState.unref (s : FileState K) (id : ℕ) : FileState K :=
  { s with pool := Lib.unref s.pool id }

/-- `VersionSet::NewFileNumber` moves the counter. -/
def FileState.newFileNumber (s : FileState K) : FileState K :=
  { s with versions := { s.versions with nextFileNumber := s.versions.nextFileNumber + 1 } }

/-- A new file number goes into `pending_outputs_`. -/
def FileState.newOutput (s : FileState K) : FileState K :=
  { s.newFileNumber with
    pendingOutputs := insert s.versions.nextFileNumber s.pendingOutputs }

/-- Numbers go out of `pending_outputs_`. -/
def FileState.erasePending (s : FileState K) (outputs : List ℕ) : FileState K :=
  { s with pendingOutputs := outputs.foldl Finset.erase s.pendingOutputs }

/-- The numbers of the files of a version. -/
def fileNumbers (files : LevelFiles K) : List ℕ :=
  (List.range kNumLevels).flatMap fun level => (files level).map (·.number)

/-- `VersionSet::AddLiveFiles` -/
def addLiveFiles (pool : List (Node (LevelFiles K))) (live : Finset ℕ) : Finset ℕ :=
  live ∪ (pool.flatMap fun n => fileNumbers n.value).toFinset

/-- The files that `DeleteObsoleteFiles` keeps. -/
def FileState.keep (s : FileState K) (name : FileName) : Bool :=
  match name.type with
  | .logFile => decide (s.versions.logNumber ≤ name.number) ||
      decide (name.number = s.versions.prevLogNumber)
  -- Keep my manifest file, and any newer incarnations'
  | .descriptorFile => decide (s.versions.manifestFileNumber ≤ name.number)
  | .tableFile | .tempFile => decide (name.number ∈ addLiveFiles s.pool s.pendingOutputs)
  | .currentFile | .dbLockFile | .infoLogFile => true

/-- `DeleteObsoleteFiles`, where some files cannot be deleted. -/
def FileState.deleteObsoleteFiles (s : FileState K) (undeleted : List FileName) : FileState K :=
  { s with disk :=
    { s.disk with files := s.disk.files.filter fun name => s.keep name || undeleted.contains name } }

/-- The first critical section of `Get`, `NewInternalIterator` or `GetApproximateSizes`. -/
def FileState.acquire (s : FileState K) : FileState K :=
  { s.refCurrent with readers := s.currentVersion :: s.readers }

/-- A reader gives its reference back. -/
def FileState.release (s : FileState K) (reader : ℕ) (r : Held (LevelFiles K)) : FileState K :=
  { s.unref r.id with readers := s.readers.eraseIdx reader }

/-- The current version has other seek statistics. -/
def FileState.setCurrent (s : FileState K) (v : Version K) : FileState K :=
  { s with versions := { s.versions with current := v } }

/-- The part of `MakeRoomForWrite` that switches to a new memtable and log file. -/
def FileState.switchMemTable (s : FileState K) : FileState K :=
  { s.newFileNumber with
    disk := s.disk.create ⟨.logFile, s.versions.nextFileNumber⟩
    logFileNumber := s.versions.nextFileNumber
    imm := some s.logFileNumber }

/-- How `BuildTable` ends. -/
inductive BuildResult (K : Type) where
  /-- With an error, and possibly with a file left. -/
  | failed (left : Bool)
  /-- Without a table, as there are no entries. -/
  | empty
  /-- With a table. -/
  | table (fileSize : ℕ) (smallest largest : InternalKey K)

/-- Whether `BuildTable` returns OK. -/
def BuildResult.ok : BuildResult K → Bool
  | .failed _ => false
  | .empty | .table _ _ _ => true

/-- The table file that `BuildTable` leaves. Without entries there is nothing to create, and still the
file is deleted. -/
def BuildResult.apply (r : BuildResult K) (disk : Disk K) (number : ℕ) : Disk K :=
  let name : FileName := ⟨.tableFile, number⟩
  match r with
  | .failed true | .table _ _ _ => disk.create name
  | .failed false => (disk.create name).delete name
  | .empty => disk.delete name

/-- `CompactMemTable` after `BuildTable`. -/
def FileState.endBuild (s : FileState K) (number : ℕ) (base : Held (LevelFiles K))
    (result : BuildResult K) : FileState K :=
  { s.unref base.id with
    disk := result.apply s.disk number
    pendingOutputs := s.pendingOutputs.erase number }

/-- `LogAndApply` up to where it releases the mutex. `Builder::Apply` moves the compaction pointers
here. -/
def FileState.beginLog (s : FileState K) (edit : VersionEdit K) : FileState K :=
  { s with versions :=
    { s.versions with
      compactPointer :=
        applyCompactPointers s.versions.compactPointer (s.versions.completeEdit edit) } }

/-- A record gets into the manifest. -/
def FileState.logRecord (s : FileState K) (record : VersionEdit K) : FileState K :=
  { s with disk := s.disk.append s.versions.manifestFileNumber record }

/-- `LogAndApply` installs the new version. -/
def FileState.install [LinearOrder K] (s : FileState K) (edit : VersionEdit K) : FileState K :=
  let versions := s.versions.logAndApply edit
  { s with
    versions := versions
    -- `AppendVersion`
    pool := appendNode (Lib.unref s.pool s.currentId) s.nextId versions.current.files
    currentId := s.nextId
    nextId := s.nextId + 1 }

/-! ## Scheduling -/

/-- `MaybeScheduleCompaction`. -/
def DbImpl.maybeScheduleCompaction (s : DbImpl K) : DbImpl K :=
  if s.bgCompactionScheduled then s
  else if s.shuttingDown then s
  else if s.imm.isNone && s.manualCompaction.isNone && !s.versions.needsCompaction then s
  else { s with bgCompactionScheduled := true, queued := s.queued + 1 }

/-- A thread that is blocked on `bg_cv_` is woken up. -/
def Logger.wake (l : Logger) : Logger :=
  match l.point with
  | .waiting force allowDelay => { l with point := .room force allowDelay }
  | _ => l

/-- `bg_cv_.SignalAll` -/
def DbImpl.signalAll (s : DbImpl K) : DbImpl K := { s with logger := s.logger.map Logger.wake }

/-- The end of `BackgroundCall`. -/
def DbImpl.endCall (s : DbImpl K) : DbImpl K :=
  { s with bgCompactionScheduled := false }.maybeScheduleCompaction.signalAll

/-! ## Readers -/

/-- The first critical section of a reader. -/
def DbImpl.acquire (s : DbImpl K) : DbImpl K := { s with toFileState := s.toFileState.acquire }

/-- The last critical section of an iterator or of `GetApproximateSizes`. -/
def DbImpl.release (s : DbImpl K) (reader : ℕ) : Option (DbImpl K) :=
  s.readers[reader]?.map fun r => { s with toFileState := s.toFileState.release reader r }

/-- What `UpdateStats` does to the current version when it is called on an older one: the seeks of a
file may be those of a file of the current version. -/
def Version.shareSeeks (v : Version K) (stats : GetStats K) (shared : Bool) : Version K :=
  if shared then { v with allowedSeeks := (v.updateStats stats).allowedSeeks } else v

/-- The last critical section of `Get`: `UpdateStats` on the version that was read, which need not be
the current one any more. The file is one of that version. Of an older version it is left open whether
it shares the file and whether a file is picked. -/
def DbImpl.endGet [DecidableEq K] (s : DbImpl K) (reader : ℕ) (stats : GetStats K)
    (shared picked : Bool) : Option (DbImpl K) :=
  (s.readers[reader]?.filter fun r => stats.all fun p => decide (p.1 ∈ r.value p.2)).bind fun r =>
    let isCurrent := decide (r.id = s.currentId)
    let current := s.versions.current
    let updated := if isCurrent then current.updateStats stats else current.shareSeeks stats shared
    let picks := if isCurrent then current.updateStatsPicks stats else picked
    let t := { s with toFileState := s.toFileState.setCurrent updated }
    (if picks then t.maybeScheduleCompaction else t).release reader

/-! ## Writers -/

/-- `AcquireLoggingResponsibility`, by `Write` or by `TEST_CompactMemTable`. -/
def DbImpl.acquireLogger (s : DbImpl K) (write : Bool) : Option (DbImpl K) :=
  if s.logger.isSome then none
  else some { s with logger := some ⟨write, .room (!write) write⟩ }

/-- The branch of `MakeRoomForWrite` that switches to a new memtable and log file. -/
def DbImpl.switchMemTable (s : DbImpl K) (l : Logger) (allowDelay : Bool) (newLog : Option Status) :
    DbImpl K :=
  if newLog.isNone then
    { s with
      toFileState := s.toFileState.switchMemTable
      logger := some { l with point := .room false allowDelay } }.maybeScheduleCompaction
  else
    { s with
      toFileState := s.toFileState.newFileNumber
      logger := none
      returned := (l.write, newLog) :: s.returned }

/-- One round of the loop of `MakeRoomForWrite`. Whether the memtable has room is left open, and so is
what `NewWritableFile` returns for a new log file. -/
def DbImpl.makeRoomForWrite (s : DbImpl K) (hasRoom : Bool) (newLog : Option Status) : Option (DbImpl K) :=
  match s.logger with
  | some ⟨write, .room force allowDelay⟩ =>
    let numFiles := (s.versions.current.files 0).length
    some (
      if s.bgError.isSome then
        -- Yield previous error
        { s with logger := none, returned := (write, s.bgError) :: s.returned }
      else if allowDelay && decide (kL0SlowdownWritesTrigger ≤ numFiles) then
        { s with logger := some ⟨write, .sleeping force⟩ }
      else if !force && hasRoom then
        if write then { s with logger := some ⟨write, .writing⟩ }
        else { s with logger := none, returned := (write, none) :: s.returned }
      else if s.imm.isSome then { s with logger := some ⟨write, .waiting force allowDelay⟩ }
      else if kL0StopWritesTrigger ≤ numFiles then
        { s with logger := some ⟨write, .waiting force allowDelay⟩ }
      else s.switchMemTable ⟨write, .room force allowDelay⟩ allowDelay newLog)
  | _ => none

/-- The end of `SleepForMicroseconds`. -/
def DbImpl.endSleep (s : DbImpl K) : Option (DbImpl K) :=
  match s.logger with
  | some ⟨write, .sleeping force⟩ => some { s with logger := some ⟨write, .room force false⟩ }
  | _ => none

/-- `SetLastSequence` after so many entries. -/
def FileState.addSequence (s : FileState K) (count : ℕ) : FileState K :=
  { s with versions := { s.versions with lastSequence := s.versions.lastSequence + count } }

/-- The end of `Write` with so many entries, which moves the last sequence number also after an
error. -/
def DbImpl.endWrite (s : DbImpl K) (count : ℕ) (status : Option Status) : Option (DbImpl K) :=
  match s.logger with
  | some ⟨write, .writing⟩ =>
    some
      { s with
        toFileState := s.toFileState.addSequence count
        logger := none
        returned := (write, status) :: s.returned }
  | _ => none

/-- `TEST_CompactRange`, when there is no manual compaction. -/
def DbImpl.compactRange (s : DbImpl K) (m : ManualCompaction K) : Option (DbImpl K) :=
  if s.manualCompaction.isSome ∨ kNumLevels ≤ m.level + 1 then none
  else some { s with manualCompaction := some m }.maybeScheduleCompaction

/-! ## Background work -/

/-- What the critical section of a background thread leaves: the state, and where the thread goes on, if
`BackgroundCompaction` has not returned. -/
abbrev BgResult (K : Type) := DbImpl K × Option (BgPoint K)

/-- The first critical section of `CompactMemTable`, up to `BuildTable`. -/
def DbImpl.compactMemTable (s : DbImpl K) (outer : Option (BgCompaction K)) : BgResult K :=
  ({ s with toFileState := s.toFileState.newOutput.refCurrent },
    some (.flushing s.versions.nextFileNumber s.currentVersion outer))

/-- `CompactMemTable` returns, to `BackgroundCompaction` or to the loop of `DoCompactionWork`. -/
def DbImpl.endFlush (s : DbImpl K) : Option (BgCompaction K) → BgResult K
  | none => (s, none)
  | some job => (s.signalAll, some (.compacting job))

/-- `LogAndApply` up to where it releases the mutex. -/
def DbImpl.beginLogAndApply (s : DbImpl K) (edit : VersionEdit K) (work : Work K) : BgResult K :=
  ({ s with toFileState := s.toFileState.beginLog edit },
    some (.logging edit (s.versions.completeEdit edit) work))

/-- A compaction begins. -/
def DbImpl.beginJob (s : DbImpl K) (manual : Bool) (c : Compaction K) (versions : VersionSet K) :
    DbImpl K × BgCompaction K :=
  ({ s with toFileState := { s.toFileState.refCurrent with versions := versions } },
    ⟨manual, c, s.currentVersion, []⟩)

/-- The end of `BackgroundCompaction` for a compaction, which has given up or been installed. -/
def DbImpl.endJob (s : DbImpl K) (job : BgCompaction K) (status : Option Status) : DbImpl K :=
  { s with
    toFileState := s.toFileState.unref job.input.id
    manualCompaction := if job.manual then none else s.manualCompaction
    bgError :=
      if status.isNone then s.bgError
      else if s.shuttingDown then s.bgError
      else if s.paranoidChecks && s.bgError.isNone then status
      else s.bgError }

/-- How the writes of `LogAndApply` to its manifest end. -/
inductive LogResult where
  /-- Without an error. -/
  | ok
  /-- With an error, after which the record may be in the manifest all the same. -/
  | failed (written : Bool) (error : Status)

/-- What a background thread does next. -/
inductive BgAction (K : Type) where
  /-- `BuildTable` returns. -/
  | buildTable (result : BuildResult K)
  /-- The writes of `LogAndApply` are done. `DeleteObsoleteFiles`, if it follows, cannot delete some
  files. -/
  | logAndApply (result : LogResult) (undeleted : List FileName)
  /-- `has_imm_` is seen in the loop of `DoCompactionWork`. -/
  | compactMemTable
  /-- `OpenCompactionOutputFile`, and what `NewWritableFile` returns. -/
  | openOutput (status : Option Status)
  /-- The loop of `DoCompactionWork` ends, with an error or with such outputs. -/
  | finish (status : Option Status) (outputs : ℕ → FileMetaData K)

section

variable [LinearOrder K]

/-- `BackgroundCompaction` up to where it releases the mutex. -/
def DbImpl.backgroundCompaction (s : DbImpl K) : BgResult K :=
  if s.imm.isSome then s.compactMemTable none
  else
    match s.manualCompaction with
    | some m =>
      match s.versions.compactRange m.level (.pack m.first kMaxSequenceNumber kValueTypeForSeek)
          (.pack m.last 0 .deletion) with
      | none => ({ s with manualCompaction := none }, none)
      | some (c, versions) =>
        let r := s.beginJob true c versions
        (r.1, some (.compacting r.2))
    | none =>
      match s.versions.pickCompaction with
      | none => (s, none)
      | some (c, versions) =>
        let r := s.beginJob false c versions
        match c.isTrivialMove, c.inputs0.head? with
        | true, some f => r.1.beginLogAndApply (c.moveEdit f) (.move r.2)
        | _, _ => (r.1, some (.compacting r.2))

/-- The edit of `CompactMemTable`. -/
def FileState.flushEdit (s : FileState K) (number : ℕ) (base : Held (LevelFiles K)) :
    BuildResult K → VersionEdit K
  | .table fileSize smallest largest =>
    -- Earlier logs no longer needed
    VersionEdit.addFile { prevLogNumber := some 0, logNumber := some s.logFileNumber }
      (memTableLevel (some { files := base.value }) smallest.userKey largest.userKey) number fileSize
      smallest largest
  | _ => { prevLogNumber := some 0, logNumber := some s.logFileNumber }

/-- `WriteLevel0Table` from the end of `BuildTable` on, and `CompactMemTable` up to where `LogAndApply`
releases the mutex. -/
def DbImpl.endBuild (s : DbImpl K) (number : ℕ) (base : Held (LevelFiles K))
    (outer : Option (BgCompaction K)) (result : BuildResult K) : BgResult K :=
  let t := { s with toFileState := s.toFileState.endBuild number base result }
  if result.ok && !s.shuttingDown then
    t.beginLogAndApply (s.flushEdit number base result) (.flush outer)
  else t.endFlush outer

/-- What follows a `LogAndApply` that succeeds. -/
def DbImpl.endLogAndApply (s : DbImpl K) (edit record : VersionEdit K) (undeleted : List FileName) :
    Work K → BgResult K
  | .flush outer =>
    { s with
      toFileState := { (s.toFileState.logRecord record).install edit with
        imm := none }.deleteObsoleteFiles undeleted }.endFlush outer
  | .move job =>
    ({ s with toFileState := (s.toFileState.logRecord record).install edit }.endJob job none, none)
  | .results job =>
    let t := { s with toFileState := (s.toFileState.logRecord record).install edit }.endJob job none
    ({ t with toFileState := t.toFileState.deleteObsoleteFiles undeleted }, none)

/-- What follows a `LogAndApply` that fails. -/
def DbImpl.failLogAndApply (s : DbImpl K) (record : VersionEdit K) (written : Bool) (error : Status)
    (work : Work K) : BgResult K :=
  let t := if written then { s with toFileState := s.toFileState.logRecord record } else s
  match work with
  | .flush outer => t.endFlush outer
  | .move job | .results job => (t.endJob job (some error), none)

/-- `OpenCompactionOutputFile`. When the file cannot be created, the compaction is given up, and
`CleanupCompaction` takes the outputs out of `pending_outputs_`. -/
def DbImpl.openOutput (s : DbImpl K) (job : BgCompaction K) (status : Option Status) : BgResult K :=
  let number := s.versions.nextFileNumber
  let outputs := job.outputs ++ [number]
  let t := s.toFileState.newOutput
  if status.isNone then
    ({ s with toFileState := { t with disk := t.disk.create ⟨.tableFile, number⟩ } },
      some (.compacting { job with outputs := outputs }))
  else ({ s with toFileState := t.erasePending outputs }.endJob job status, none)

/-- The edit of `InstallCompactionResults`. -/
def BgCompaction.resultEdit (job : BgCompaction K) (outputs : ℕ → FileMetaData K) : VersionEdit K :=
  job.compaction.resultEdit
    (job.outputs.map fun n => ({ outputs n with number := n }, ([] : List (Entry K Unit))))

/-- The end of `DoCompactionWork`, with the part of `InstallCompactionResults` before
`LogAndApply`. -/
def DbImpl.endCompaction (s : DbImpl K) (job : BgCompaction K) (status : Option Status)
    (outputs : ℕ → FileMetaData K) : BgResult K :=
  let t := { s with toFileState := s.toFileState.erasePending job.outputs }
  if status.isNone then
    t.beginLogAndApply (job.resultEdit outputs) (.results { job with outputs := [] })
  else (t.endJob job status, none)

/-- A critical section of a background thread. -/
def DbImpl.background (s : DbImpl K) : BgPoint K → BgAction K → Option (BgResult K)
  | .flushing number base outer, .buildTable result => some (s.endBuild number base outer result)
  | .logging edit record work, .logAndApply .ok undeleted =>
    some (s.endLogAndApply edit record undeleted work)
  | .logging _ record work, .logAndApply (.failed written error) _ =>
    some (s.failLogAndApply record written error work)
  | .compacting job, .compactMemTable =>
    some (if s.imm.isSome then s.compactMemTable (some job) else (s, some (.compacting job)))
  | .compacting job, .openOutput status => some (s.openOutput job status)
  | .compacting job, .finish status outputs => some (s.endCompaction job status outputs)
  | _, _ => none

/-- A queued `BGWork` starts. -/
def DbImpl.startWork (s : DbImpl K) : Option (DbImpl K) :=
  if s.queued = 0 then none
  else
    let t := { s with queued := s.queued - 1 }
    if s.shuttingDown then some t.endCall
    else
      match t.backgroundCompaction with
      | (t', none) => some t'.endCall
      | (t', some p) => some { t' with running := p :: t'.running }

/-- A running `BGWork` goes on. -/
def DbImpl.continueWork (s : DbImpl K) (i : ℕ) (a : BgAction K) : Option (DbImpl K) :=
  s.running[i]?.bind fun p => (s.background p a).map fun r =>
    match r with
    | (t, none) => { t with running := t.running.eraseIdx i }.endCall
    | (t, some p') => { t with running := t.running.set i p' }

/-! ## Steps -/

/-- The critical sections. -/
inductive Action (K : Type) where
  /-- A version is referenced by a reader. -/
  | acquire
  /-- An iterator is deleted. -/
  | release (reader : ℕ)
  /-- `Get` has read. -/
  | endGet (reader : ℕ) (stats : GetStats K) (shared picked : Bool)
  /-- `Write` or `TEST_CompactMemTable` becomes the logger. -/
  | acquireLogger (write : Bool)
  /-- A round of `MakeRoomForWrite`. -/
  | makeRoomForWrite (hasRoom : Bool) (newLog : Option Status)
  /-- The logger has slept. -/
  | endSleep
  /-- `bg_cv_` wakes its threads up without a signal. -/
  | wake
  /-- The logger has written. -/
  | endWrite (count : ℕ) (status : Option Status)
  /-- `TEST_CompactRange` -/
  | compactRange (m : ManualCompaction K)
  /-- The destructor begins. -/
  | shutDown
  /-- A queued `BGWork` starts. -/
  | startWork
  /-- A running `BGWork` goes on. -/
  | continueWork (i : ℕ) (a : BgAction K)

/-- One step of the process. -/
def DbImpl.step (s : DbImpl K) : Action K → Option (DbImpl K)
  | .acquire => some s.acquire
  | .release reader => s.release reader
  | .endGet reader stats shared picked => s.endGet reader stats shared picked
  | .acquireLogger write => s.acquireLogger write
  | .makeRoomForWrite hasRoom newLog => s.makeRoomForWrite hasRoom newLog
  | .endSleep => s.endSleep
  | .wake => some s.signalAll
  | .endWrite count status => s.endWrite count status
  | .compactRange m => s.compactRange m
  | .shutDown => some { s with shuttingDown := true }
  | .startWork => s.startWork
  | .continueWork i a => s.continueWork i a

end

end LevelDb
