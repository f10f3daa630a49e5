import LevelDb.Db.Batch
import LevelDb.Version.Get
import LevelDb.Version.Placement
import LevelDb.Compaction.Work

/-!
# The database

`DBImpl` as a state machine whose steps are whole calls and whole critical sections: a write, a
memtable switch of `MakeRoomForWrite`, `CompactMemTable`, the parts of a background compaction, and
close with reopen. A compaction in flight is kept in the state round by round, since `CompactMemTable`
also runs from inside its loop. File operations succeed. Log files are lists of batches and the
manifest is a list of edits; the encodings of both, and of tables, are not part of this model.
-/

namespace LevelDb

variable {K V : Type}

/-- The options of a database, and what its file and memory sizes are. -/
structure DbOptions (K V : Type) where
  /-- `options.comparator->Name()` -/
  comparator : Slice
  /-- The sizes of table files. -/
  sizes : TableSizes K V
  /-- `options.write_buffer_size` -/
  writeBufferSize : ℕ
  /-- `MemTable::ApproximateMemoryUsage` -/
  approximateMemoryUsage : List (Entry K V) → ℕ

/-- The state of a database that is open, with its files. -/
structure Db (K V : Type) where
  /-- `versions_` -/
  versions : VersionSet K
  /-- The records of the manifest that `CURRENT` names. -/
  manifest : List (VersionEdit K)
  /-- The table files. -/
  tables : Tables K V
  /-- The log files other than the current one. -/
  oldLogs : List (ℕ × List (WriteBatch K V))
  /-- `logfile_number_` -/
  logFileNumber : ℕ
  /-- The records of the current log file. -/
  log : List (WriteBatch K V)
  /-- `mem_` -/
  mem : List (Entry K V)
  /-- `imm_` -/
  imm : Option (List (Entry K V))
  /-- `snapshots_`, oldest first. -/
  snapshots : List ℕ
  /-- The compaction in flight. -/
  compacting : Option (CompactionState K V)

section

variable [LinearOrder K]

/-! ## Memtables -/

/-- `MemTable::Add`: the skip list is ordered by internal key. -/
def memTableAdd (mem : List (Entry K V)) (e : Entry K V) : List (Entry K V) :=
  mem.orderedInsert (fun a b => a.key ≤ b.key) e

/-- `WriteBatchInternal::InsertInto`. -/
def insertInto [Inhabited V] (mem : List (Entry K V)) (b : WriteBatch K V) : List (Entry K V) :=
  (batchEntries b).foldl memTableAdd mem

/-! ## Reads and writes -/

/-- `DBImpl::Write` after `MakeRoomForWrite`: the batch gets the next sequence numbers, and goes to
the log and to the memtable. -/
def Db.write [Inhabited V] (db : Db K V) (updates : List (Update K V)) : Db K V :=
  let batch : WriteBatch K V := ⟨db.versions.lastSequence + 1, updates⟩
  { db with
    log := db.log ++ [batch]
    mem := insertInto db.mem batch
    versions :=
      { db.versions with lastSequence := db.versions.lastSequence + updates.length } }

/-- `DBImpl::Get`, with the seek statistics that it updates. -/
def Db.get (db : Db K V) (key : K) (snapshot : Option ℕ) : Option V × Db K V :=
  let lkey := lookupKey key (snapshot.getD db.versions.lastSequence)
  -- First look in the memtable, then in the immutable memtable (if any).
  match getValue key (seek db.mem lkey) with
  | some r => (r, db)
  | none =>
    match db.imm.bind fun imm => getValue key (seek imm lkey) with
    | some r => (r, db)
    | none =>
      let found := db.versions.current.get db.tables lkey
      (found.1.getD none,
        { db with versions :=
          { db.versions with current := db.versions.current.updateStats found.2 } })

/-- `DBImpl::GetSnapshot`. -/
def Db.getSnapshot (db : Db K V) : Db K V :=
  { db with snapshots := db.snapshots ++ [db.versions.lastSequence] }

/-- `DBImpl::ReleaseSnapshot`. -/
def Db.releaseSnapshot (db : Db K V) (snapshot : ℕ) : Db K V :=
  { db with snapshots := db.snapshots.erase snapshot }

/-- The branch of `MakeRoomForWrite` that switches to a new memtable and log file. It is not taken
while the previous memtable is being compacted, or when there are too many level-0 files. -/
def Db.switchMemTable (db : Db K V) : Option (Db K V) :=
  if db.imm.isNone ∧ (db.versions.current.files 0).length < kL0StopWritesTrigger then
    some
      { db with
        oldLogs := db.oldLogs ++ [(db.logFileNumber, db.log)]
        logFileNumber := db.versions.nextFileNumber
        log := []
        imm := some db.mem
        mem := []
        versions := { db.versions with nextFileNumber := db.versions.nextFileNumber + 1 } }
  else none

/-! ## `CompactMemTable` -/

/-- What `WriteLevel0Table` works on. -/
structure TableWriter (K V : Type) where
  /-- `versions_` -/
  versions : VersionSet K
  /-- The table files. -/
  tables : Tables K V
  /-- `edit` -/
  edit : VersionEdit K

/-- `DBImpl::WriteLevel0Table`: a new table with the entries of the memtable, unless it is empty, is
added to the edit at the level that the base version allows. -/
def TableWriter.writeLevel0Table (o : DbOptions K V) (w : TableWriter K V) (mem : List (Entry K V))
    (base : Option (Version K)) : TableWriter K V :=
  let number := w.versions.nextFileNumber
  let versions := { w.versions with nextFileNumber := number + 1 }
  match mem.head?, mem.getLast? with
  | some first, some last =>
    { versions := versions
      tables := Function.update w.tables number mem
      edit := w.edit.addFile (memTableLevel base first.key.userKey last.key.userKey) number
        (o.sizes.finished mem) first.key last.key }
  | _, _ => { w with versions := versions }

/-- `VersionSet::LogAndApply` with the manifest to which it appends. -/
def Db.logAndApply (db : Db K V) (edit : VersionEdit K) : Db K V :=
  { db with
    manifest := db.manifest ++ [db.versions.completeEdit edit]
    versions := db.versions.logAndApply edit }

/-- The log files that `DeleteObsoleteFiles` keeps. It also deletes tables, which no version names
any more; these are left in place here. -/
def Db.deleteObsoleteFiles (db : Db K V) : Db K V :=
  { db with
    oldLogs := db.oldLogs.filter fun l =>
      decide (db.versions.logNumber ≤ l.1) || decide (l.1 = db.versions.prevLogNumber) }

/-- `DBImpl::CompactMemTable`. From inside the loop of `DoCompactionWork` it only runs while there is
input left. -/
def Db.compactMemTable (o : DbOptions K V) (db : Db K V) : Option (Db K V) :=
  match db.imm with
  | none => none
  | some imm =>
    if db.compacting.any fun st => st.input.isEmpty then none
    else
      let w := TableWriter.writeLevel0Table o ⟨db.versions, db.tables, {}⟩ imm
        (some db.versions.current)
      -- Earlier logs no longer needed
      let edit := { w.edit with prevLogNumber := some 0, logNumber := some db.logFileNumber }
      some ({ { db with versions := w.versions, tables := w.tables }.logAndApply edit with
        imm := none }.deleteObsoleteFiles)

/-! ## Background compactions -/

/-- `smallest_snapshot` of a compaction that begins now. -/
def Db.smallestSnapshot (db : Db K V) : ℕ := db.snapshots.head?.getD db.versions.lastSequence

/-- `BackgroundCompaction` without a manual compaction, up to the loop of `DoCompactionWork`. A
memtable that waits is compacted instead. -/
def Db.beginCompaction (db : Db K V) : Option (Db K V) :=
  if db.imm.isSome ∨ db.compacting.isSome then none
  else
    match db.versions.pickCompaction with
    | none => none
    | some (c, versions) =>
      match c.isTrivialMove, c.inputs0.head? with
      | true, some f => some ({ db with versions := versions }.logAndApply (c.moveEdit f))
      | _, _ =>
        some
          { db with
            versions := versions
            compacting := some (c.start db.tables db.smallestSnapshot) }

/-- `BackgroundCompaction` for `TEST_CompactRange`, up to the loop of `DoCompactionWork`. -/
def Db.beginManual (db : Db K V) (level : ℕ) (first last : K) : Option (Db K V) :=
  if db.imm.isSome ∨ db.compacting.isSome ∨ kNumLevels ≤ level + 1 then none
  else
    match db.versions.compactRange level (.pack first kMaxSequenceNumber kValueTypeForSeek)
        (.pack last 0 .deletion) with
    | none => none
    | some (c, versions) =>
      some
        { db with
          versions := versions
          compacting := some (c.start db.tables db.smallestSnapshot) }

/-- One round of the loop of `DoCompactionWork`. -/
def Db.workCompaction (o : DbOptions K V) (db : Db K V) : Option (Db K V) :=
  match db.compacting with
  | none => none
  | some st =>
    if st.input.isEmpty then none
    else
      let r := st.workStep o.sizes db.versions.nextFileNumber
      some
        { db with
          compacting := some r.1
          versions := { db.versions with nextFileNumber := r.2 } }

/-- The end of `DoCompactionWork`: the last output is finished and the results are installed. -/
def Db.finishCompaction (o : DbOptions K V) (db : Db K V) : Option (Db K V) :=
  match db.compacting with
  | none => none
  | some st =>
    if st.input.isEmpty then
      let outputs := st.finalOutputs o.sizes
      some ({ { db with tables := addTables db.tables outputs }.logAndApply
        (st.compaction.resultEdit outputs) with compacting := none }.deleteObsoleteFiles)
    else none

/-! ## Recovery -/

/-- What `DBImpl::Recover` has done so far. -/
structure Recovery (K V : Type) where
  /-- The version set and the edit. -/
  writer : TableWriter K V
  /-- `max_sequence` -/
  maxSequence : ℕ

/-- The loop of `RecoverLogFile` over the records of a log file, with the memtable if there is one.
`WriteLevel0Table` gets no base version. -/
def Recovery.replay [Inhabited V] (o : DbOptions K V) :
    List (WriteBatch K V) → Option (List (Entry K V)) → Recovery K V → Recovery K V
  | [], none, r => r
  | [], some mem, r => { r with writer := r.writer.writeLevel0Table o mem none }
  | b :: batches, mem, r =>
    let mem := insertInto (mem.getD []) b
    let r := { r with maxSequence := max r.maxSequence (b.sequence + b.count - 1) }
    if o.writeBufferSize < o.approximateMemoryUsage mem then
      replay o batches none { r with writer := r.writer.writeLevel0Table o mem none }
    else replay o batches (some mem) r

/-- `RecoverLogFile` and `MarkFileNumberUsed` for one log file. -/
def Recovery.recoverLogFile [Inhabited V] (o : DbOptions K V) (r : Recovery K V)
    (log : ℕ × List (WriteBatch K V)) : Recovery K V :=
  let r := r.replay o log.2 none
  { r with writer := { r.writer with versions := r.writer.versions.markFileNumberUsed log.1 } }

/-- The log files that `DBImpl::Recover` replays, in the order in which they were generated. -/
def logsToRecover (vs : VersionSet K) (logs : List (ℕ × List (WriteBatch K V))) :
    List (ℕ × List (WriteBatch K V)) :=
  (logs.filter fun l => decide (vs.logNumber ≤ l.1) || decide (l.1 = vs.prevLogNumber)).insertionSort
    fun a b => a.1 ≤ b.1

/-- The end of `DBImpl::Recover`. -/
def Recovery.setLastSequence (r : Recovery K V) : VersionSet K :=
  if r.writer.versions.lastSequence < r.maxSequence then
    { r.writer.versions with lastSequence := r.maxSequence }
  else r.writer.versions

/-- `DB::Open` on the files of a database: `Recover`, a new log file, and a first `LogAndApply`, which
starts a new manifest. -/
def openDb [Inhabited V] (o : DbOptions K V) (manifest : List (VersionEdit K))
    (tables : Tables K V) (logs : List (ℕ × List (WriteBatch K V))) : Except Status (Db K V) := do
  let vs ← VersionSet.recover o.comparator manifest
  let r := (logsToRecover vs logs).foldl (Recovery.recoverLogFile o) ⟨⟨vs, tables, {}⟩, 0⟩
  let vs := r.setLastSequence
  let newLogNumber := vs.nextFileNumber
  let vs := { vs with nextFileNumber := newLogNumber + 1 }
  let edit := { r.writer.edit with logNumber := some newLogNumber }
  pure (Db.deleteObsoleteFiles
    { versions := vs.logAndApply edit
      manifest := [vs.snapshotEdit o.comparator, vs.completeEdit edit]
      tables := r.writer.tables
      oldLogs := logs
      logFileNumber := newLogNumber
      log := []
      mem := []
      imm := none
      snapshots := []
      compacting := none })

/-- The manifest that `DBImpl::NewDB` writes. -/
def newDbManifest (o : DbOptions K V) : List (VersionEdit K) :=
  [{ comparator := some o.comparator
     logNumber := some 0
     nextFileNumber := some 2
     lastSequence := some 0 }]

/-- `DB::Open` of a database that does not exist. -/
def createDb [Inhabited V] (o : DbOptions K V) : Except Status (Db K V) :=
  openDb o (newDbManifest o) (fun _ => []) []

/-- Close and reopen. A compaction in flight is given up when the database is closed. -/
def Db.reopen [Inhabited V] (o : DbOptions K V) (db : Db K V) : Except Status (Db K V) :=
  openDb o db.manifest db.tables (db.oldLogs ++ [(db.logFileNumber, db.log)])

/-! ## Runs -/

/-- The steps of a database. -/
inductive Step (K V : Type) where
  /-- `Put`, `Delete` or `Write` -/
  | write (updates : List (Update K V))
  /-- `Get`, possibly at a snapshot. -/
  | get (key : K) (snapshot : Option ℕ)
  /-- `GetSnapshot` -/
  | getSnapshot
  /-- `ReleaseSnapshot` -/
  | releaseSnapshot (snapshot : ℕ)
  /-- `MakeRoomForWrite` switches memtables. -/
  | switchMemTable
  /-- `CompactMemTable` -/
  | compactMemTable
  /-- A background compaction chosen by `PickCompaction` begins, or moves a file. -/
  | beginCompaction
  /-- A background compaction chosen by `CompactRange` begins. -/
  | beginManual (level : ℕ) (first last : K)
  /-- One round of the loop of `DoCompactionWork`. -/
  | workCompaction
  /-- The results of a background compaction are installed. -/
  | finishCompaction
  /-- Close and reopen. -/
  | reopen

variable [Inhabited V]

/-- One step, if it can be taken. -/
def Db.step (o : DbOptions K V) (db : Db K V) : Step K V → Option (Db K V)
  | .write updates => some (db.write updates)
  | .get key snapshot => if snapshot.all (· ∈ db.snapshots) then some (db.get key snapshot).2 else none
  | .getSnapshot => some db.getSnapshot
  | .releaseSnapshot snapshot => some (db.releaseSnapshot snapshot)
  | .switchMemTable => db.switchMemTable
  | .compactMemTable => db.compactMemTable o
  | .beginCompaction => db.beginCompaction
  | .beginManual level first last => db.beginManual level first last
  | .workCompaction => db.workCompaction o
  | .finishCompaction => db.finishCompaction o
  | .reopen => (db.reopen o).toOption

/-- A run. -/
def Db.run (o : DbOptions K V) : Db K V → List (Step K V) → Option (Db K V)
  | db, [] => some db
  | db, s :: ss => (db.step o s).bind fun db' => db'.run o ss

/-- Every step of a run meets a condition on the state before it. -/
def Db.RunMeets (o : DbOptions K V) (cond : Db K V → Step K V → Prop) :
    Db K V → List (Step K V) → Prop
  | _, [] => True
  | db, s :: ss => cond db s ∧ ∀ db' ∈ db.step o s, db'.RunMeets o cond ss

instance instDecidableRunMeets (o : DbOptions K V) (cond : Db K V → Step K V → Prop) [∀ db s, Decidable (cond db s)] :
    ∀ (ss : List (Step K V)) (db : Db K V), Decidable (db.RunMeets o cond ss)
  | [], _ => isTrue trivial
  | s :: ss, db =>
    have (db' : Db K V) : Decidable (db'.RunMeets o cond ss) := instDecidableRunMeets o cond ss db'
    inferInstanceAs (Decidable (cond db s ∧ ∀ db' ∈ db.step o s, db'.RunMeets o cond ss))

end

end LevelDb
