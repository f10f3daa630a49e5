import LevelDb.Db.Batch
import Mathlib.Logic.Function.Basic

/-!
# Concurrent writes

The threads of `DBImpl` that call `Write`, `TEST_CompactMemTable`, `Get`, `NewIterator` and
`GetSnapshot`, together with the background thread, as a machine whose steps are the parts of their
code between two points at which another thread can interfere. A thread that holds `mutex_` keeps
the others from every step that needs it; `Write` releases the mutex while it appends to the log and
inserts into the memtable, and only `logger_` protects it then. Sequence numbers are natural
numbers: the 64-bit counter of the source does not wrap in fewer than `2^64` updates.
-/

namespace LevelDb

variable {T K V : Type}

/-- What a thread calls that needs logging responsibility. -/
inductive Job (K V : Type) where
  /-- `DBImpl::Write` with `options.sync` and whether `options.post_write_snapshot` is set. -/
  | write (updates : List (Update K V)) (sync postWriteSnapshot : Bool)
  /-- `DBImpl::TEST_CompactMemTable` -/
  | compactMemTable

/-- The argument `force` of `MakeRoomForWrite`. -/
def Job.force : Job K V → Bool
  | .write .. => false
  | .compactMemTable => true

/-- The local variables of `Write` from `SetSequence` on. -/
structure Logging (K V : Type) where
  /-- `updates` with its sequence number. -/
  batch : WriteBatch K V
  /-- `last_sequence` -/
  lastSequence : ℕ
  /-- `options.sync` -/
  sync : Bool
  /-- Whether `options.post_write_snapshot` is set. -/
  postWriteSnapshot : Bool
  /-- `last_sequence` is the number of the last update. -/
  lastSequence_eq : lastSequence + 1 = batch.limit

/-- `SetSequence(updates, last_sequence + 1)` and `last_sequence += Count(updates)`. -/
def Logging.start (lastSequence : ℕ) (updates : List (Update K V)) (sync postWriteSnapshot : Bool) :
    Logging K V :=
  { batch := ⟨lastSequence + 1, updates⟩
    lastSequence := lastSequence + updates.length
    sync := sync
    postWriteSnapshot := postWriteSnapshot
    lastSequence_eq := by
      simp only [Lib.Batch.limit, Lib.Batch.count]
      omega }

/-- Where a thread is. -/
inductive Pc (K V : Type) where
  /-- Outside of the database. -/
  | idle
  /-- Before `MutexLock l(&mutex_)`. -/
  | lock (job : Job K V)
  /-- At the test of `AcquireLoggingResponsibility`, with the mutex. -/
  | acquire (job : Job K V)
  /-- In `logger_cv_.Wait()`. -/
  | waitLogger (job : Job K V)
  /-- At the top of the loop of `MakeRoomForWrite`, with the mutex. -/
  | makeRoom (job : Job K V) (force allowDelay : Bool)
  /-- In `SleepForMicroseconds`, without the mutex. -/
  | sleep (job : Job K V) (force : Bool)
  /-- In a `bg_cv_.Wait()` of `MakeRoomForWrite`. -/
  | waitRoom (job : Job K V) (force allowDelay : Bool)
  /-- After `MakeRoomForWrite` with its status, with the mutex. -/
  | madeRoom (job : Job K V) (ok : Bool)
  /-- Before `log_->AddRecord`, without the mutex. -/
  | addRecord (w : Logging K V)
  /-- In `InsertInto` with these updates left, without the mutex. -/
  | insertInto (w : Logging K V) (rest : List (Update K V × ℕ))
  /-- Before `mutex_.Lock()` with the status of the write. -/
  | relock (w : Logging K V) (ok : Bool)
  /-- Before `SetLastSequence`, with the mutex. -/
  | setLastSequence (w : Logging K V) (ok : Bool)
  /-- Before `ReleaseLoggingResponsibility` of `Write`, with the mutex: the snapshot to take. -/
  | release (postWriteSnapshot : Bool) (lastSequence : ℕ) (ok : Bool)
  /-- At the last loop of `TEST_CompactMemTable`, with the mutex. -/
  | checkImm
  /-- In the `bg_cv_.Wait()` of `TEST_CompactMemTable`. -/
  | waitImm

/-- The background thread in `CompactMemTable`. -/
inductive BackgroundPc where
  /-- Not in `CompactMemTable`. -/
  | idle
  /-- In `BuildTable`, without the mutex. -/
  | buildTable
  /-- In `LogAndApply`, without the mutex. -/
  | logAndApply
  deriving DecidableEq

/-- The state that the threads share, and where they are. -/
structure Threads (T K V : Type) where
  /-- The thread that holds `mutex_` over a step. -/
  mutex : Option T := none
  /-- `logger_` -/
  logger : Option T := none
  /-- `versions_->LastSequence()` -/
  lastSequence : ℕ
  /-- `versions_->next_file_number_` -/
  nextFileNumber : ℕ
  /-- `logfile_number_` -/
  logFileNumber : ℕ
  /-- The records of `log_`, with the status of the write that appended each. -/
  log : List (Lib.Record (Update K V)) := []
  /-- `mem_`: the updates in the order of their insertion. -/
  mem : List (Update K V × ℕ) := []
  /-- `imm_` -/
  imm : Option (List (Update K V × ℕ)) := none
  /-- `versions_->NumLevelFiles(0)` -/
  level0Files : ℕ := 0
  /-- Whether `bg_error_` is set. -/
  bgError : Bool := false
  /-- `snapshots_` -/
  snapshots : List ℕ := []
  /-- The background thread. -/
  background : BackgroundPc := .idle
  /-- Where each thread is. -/
  pcs : T → Pc K V := fun _ => .idle
  /-- History: the log files before the current one with their numbers and memtables. -/
  oldLogs : List (ℕ × Lib.Segment (Update K V)) := []
  /-- History: the sequence numbers at which readers read. -/
  chosen : List ℕ := []

/-- The options that the machine depends on. -/
structure WriteOptions (K V : Type) where
  /-- `options_.write_buffer_size` -/
  writeBufferSize : ℕ
  /-- `MemTable::ApproximateMemoryUsage` -/
  approximateMemoryUsage : List (Update K V × ℕ) → ℕ

/-- What happens next. -/
inductive Event (T K V : Type) where
  /-- A thread calls `Write` or `TEST_CompactMemTable`. -/
  | call (t : T) (job : Job K V)
  /-- A thread goes on; `ok` is the status of the file operation of the step, if it has one, and
  `synced` that of a `Sync` after it. -/
  | next (t : T) (ok synced : Bool)
  /-- `Get` or `NewIterator` without a snapshot chooses its sequence number. -/
  | read
  /-- `Get` or `NewIterator` with a snapshot. -/
  | readAt (snapshot : ℕ)
  /-- `GetSnapshot` -/
  | getSnapshot
  /-- `ReleaseSnapshot` -/
  | releaseSnapshot (snapshot : ℕ)
  /-- The background thread enters `CompactMemTable`. -/
  | flushBegin
  /-- `BuildTable` returns with a status. -/
  | flushBuilt (ok : Bool)
  /-- `LogAndApply` returns with a status; level 0 has so many files then. -/
  | flushEnd (ok : Bool) (level0Files : ℕ)
  /-- A table compaction takes a file number. -/
  | compactionFile
  /-- A table compaction ends, and may have failed; level 0 has so many files then. -/
  | compactionEnd (ok : Bool) (level0Files : ℕ)

section

variable [DecidableEq T]

/-- Thread `t` goes to `pc`. -/
def Threads.goto (st : Threads T K V) (t : T) (pc : Pc K V) : Threads T K V :=
  { st with pcs := Function.update st.pcs t pc }

/-- Thread `t` takes the mutex, if it is free, and goes to `pc`. -/
def Threads.lock (st : Threads T K V) (t : T) (pc : Pc K V) : Option (Threads T K V) :=
  if st.mutex.isNone then some ({ st with mutex := some t }.goto t pc) else none

/-- Thread `t` releases the mutex and goes to `pc`. -/
def Threads.unlock (st : Threads T K V) (t : T) (pc : Pc K V) : Threads T K V :=
  { st with mutex := none }.goto t pc

/-- The end of the branch of `MakeRoomForWrite` that switches to a new memtable and log file. -/
def Threads.switch (st : Threads T K V) : Threads T K V :=
  { st with
    oldLogs := st.oldLogs ++ [(st.logFileNumber, ⟨st.log, st.mem⟩)]
    log := []
    logFileNumber := st.nextFileNumber
    nextFileNumber := st.nextFileNumber + 1
    imm := some st.mem
    mem := [] }

/-- One round of the loop of `MakeRoomForWrite`; `ok` is the status of `NewWritableFile`. -/
def Threads.makeRoomForWrite (o : WriteOptions K V) (st : Threads T K V) (t : T) (job : Job K V)
    (force allowDelay ok : Bool) : Threads T K V :=
  if st.bgError then
    -- Yield previous error
    st.goto t (.madeRoom job false)
  else if allowDelay ∧ kL0SlowdownWritesTrigger ≤ st.level0Files then
    st.unlock t (.sleep job force)
  else if ¬ force ∧ o.approximateMemoryUsage st.mem ≤ o.writeBufferSize then
    -- There is room in current memtable
    st.goto t (.madeRoom job true)
  else if st.imm.isSome then
    st.unlock t (.waitRoom job force allowDelay)
  else if kL0StopWritesTrigger ≤ st.level0Files then
    st.unlock t (.waitRoom job force allowDelay)
  else if ok then
    -- Attempt to switch to a new memtable and trigger compaction of old
    st.switch.goto t (.makeRoom job false allowDelay)
  else
    { st with nextFileNumber := st.nextFileNumber + 1 }.goto t (.madeRoom job false)

/-- `AddRecord` of a batch, with the status of the write so far. -/
def Threads.append (st : Threads T K V) (r : Lib.Record (Update K V)) : Threads T K V :=
  { st with log := st.log ++ [r] }

/-- `MemTable::Add`. -/
def Threads.add (st : Threads T K V) (x : Update K V × ℕ) : Threads T K V :=
  { st with mem := st.mem ++ [x] }

/-- The next step of thread `t`. -/
def Threads.next (o : WriteOptions K V) (st : Threads T K V) (t : T) (ok synced : Bool) :
    Option (Threads T K V) :=
  match st.pcs t with
  | .idle => none
  | .lock job => st.lock t (.acquire job)
  | .acquire job =>
    match st.logger with
    | none => some ({ st with logger := some t }.goto t (.makeRoom job job.force (!job.force)))
    | some _ => some (st.unlock t (.waitLogger job))
  | .waitLogger job => st.lock t (.acquire job)
  | .makeRoom job force allowDelay => some (st.makeRoomForWrite o t job force allowDelay ok)
  | .sleep job force => st.lock t (.makeRoom job force false)
  | .waitRoom job force allowDelay => st.lock t (.makeRoom job force allowDelay)
  | .madeRoom (.write updates sync post) true =>
    some (st.unlock t (.addRecord (.start st.lastSequence updates sync post)))
  | .madeRoom (.write _ _ post) false => some (st.goto t (.release post st.lastSequence false))
  | .madeRoom .compactMemTable made =>
    if made then some ({ st with logger := none }.goto t .checkImm)
    else some ({ st with logger := none }.unlock t .idle)
  | .addRecord w =>
    -- `Sync` is called after a successful `AddRecord`, if the write asks for it.
    let status := ok && (!w.sync || synced)
    some ((st.append ⟨w.batch, status⟩).goto t
      (if status then .insertInto w w.batch.numbered else .relock w false))
  | .insertInto w [] => some (st.goto t (.relock w true))
  | .insertInto w (x :: rest) =>
    some ((st.add x).goto t (.insertInto w rest))
  | .relock w made => st.lock t (.setLastSequence w made)
  | .setLastSequence w made =>
    some ({ st with lastSequence := w.lastSequence }.goto t
      (.release w.postWriteSnapshot w.lastSequence made))
  | .release post lastSequence made =>
    let st := if post ∧ made then
        { st with
          snapshots := st.snapshots ++ [lastSequence]
          chosen := st.chosen ++ [lastSequence] }
      else st
    some ({ st with logger := none }.unlock t .idle)
  | .checkImm =>
    if st.imm.isSome ∧ ¬ st.bgError then some (st.unlock t .waitImm) else some (st.unlock t .idle)
  | .waitImm => st.lock t .checkImm

/-- A reader's critical section, which chooses `sequence`. -/
def Threads.choose (st : Threads T K V) (sequence : ℕ) : Threads T K V :=
  { st with chosen := st.chosen ++ [sequence] }

/-- One step of the machine. Readers and the background thread do their critical sections in one
step, for which the mutex has to be free. -/
def Threads.step (o : WriteOptions K V) (st : Threads T K V) :
    Event T K V → Option (Threads T K V)
  | .call t job =>
    match st.pcs t with
    | .idle => some (st.goto t (.lock job))
    | _ => none
  | .next t ok synced => st.next o t ok synced
  | .read => if st.mutex.isNone then some (st.choose st.lastSequence) else none
  | .readAt snapshot =>
    if st.mutex.isNone ∧ snapshot ∈ st.snapshots then some (st.choose snapshot) else none
  | .getSnapshot =>
    if st.mutex.isNone then
      some ({ st with snapshots := st.snapshots ++ [st.lastSequence] }.choose st.lastSequence)
    else none
  | .releaseSnapshot snapshot =>
    if st.mutex.isNone then some { st with snapshots := st.snapshots.erase snapshot } else none
  | .flushBegin =>
    if st.mutex.isNone ∧ st.background = .idle ∧ st.imm.isSome then
      some { st with background := .buildTable, nextFileNumber := st.nextFileNumber + 1 }
    else none
  | .flushBuilt ok =>
    if st.mutex.isNone ∧ st.background = .buildTable then
      some { st with background := if ok then .logAndApply else .idle }
    else none
  | .flushEnd ok level0Files =>
    if st.mutex.isNone ∧ st.background = .logAndApply then
      if ok then some { st with background := .idle, imm := none, level0Files := level0Files }
      else some { st with background := .idle }
    else none
  | .compactionFile =>
    if st.mutex.isNone then some { st with nextFileNumber := st.nextFileNumber + 1 } else none
  | .compactionEnd ok level0Files =>
    if st.mutex.isNone then
      if ok then some { st with level0Files := level0Files } else some { st with bgError := true }
    else none

/-- A run of the machine. -/
def Threads.run (o : WriteOptions K V) : Threads T K V → List (Event T K V) →
    Option (Threads T K V)
  | st, [] => some st
  | st, ev :: evs => (st.step o ev).bind fun st' => st'.run o evs

/-- The state after `DB::Open`: no thread is inside, and the log and the memtable are new. -/
def Threads.opened (lastSequence nextFileNumber logFileNumber level0Files : ℕ) : Threads T K V :=
  { lastSequence := lastSequence
    nextFileNumber := nextFileNumber
    logFileNumber := logFileNumber
    level0Files := level0Files }

end

end LevelDb
