import LevelDb.Db.Obsolete
import LevelDb.Db.SiteSteps

/-!
# Calls as critical sections

`Db` takes whole calls as its steps, and `Host` critical sections and the parts of `DB::Open`. Every run of
`Db` is a history of `Host` in which every call of the environment succeeds and no call is interrupted: the
critical sections of each call lead from a process that carries the database before the call to one that
carries the database after it (`DbImpl.Carries`, `run_history`). So `LogAndApply`, `DeleteObsoleteFiles`,
`CompactMemTable` and `DB::Open` of the two models are the same, and what holds of every history holds after
every run. The process does not know what logs and tables hold, but which logs there are, what the manifest
says, and which tables a compaction has begun.
-/

namespace LevelDb

open Lib

variable {K V : Type}

/-! ## Directories -/

/-- The numbers of the log files. -/
def Disk.logNumbers (disk : Disk K) : List ℕ :=
  (disk.files.filter fun name => decide (name.type = .logFile)).map (·.number)

/-- A directory has a manifest, which `CURRENT` names, and such log files. -/
structure Disk.Holds (disk : Disk K) (manifest : ℕ) (records : List (VersionEdit K)) (logs : List ℕ) :
    Prop where
  /-- `CURRENT` -/
  current : disk.current = some manifest
  /-- The manifest is there. -/
  mem : (⟨.descriptorFile, manifest⟩ : FileName) ∈ disk.files
  /-- Its records. -/
  records_eq : disk.records manifest = records
  /-- The log files. -/
  logs : disk.logNumbers.Perm logs

/-- A file that is created and is no log adds no log. -/
theorem Disk.logNumbers_create {disk : Disk K} {name : FileName} (hname : name.type ≠ .logFile) :
    (disk.create name).logNumbers = disk.logNumbers := by
  unfold Disk.logNumbers
  have hskip : ∀ names : List FileName, (name :: names).filter (fun name => decide (name.type = .logFile)) =
      names.filter fun name => decide (name.type = .logFile) := fun names =>
    List.filter_cons_of_neg (by simpa using hname)
  by_cases hmem : name ∈ disk.files
  · rw [show (disk.create name).files = disk.files from List.insert_of_mem hmem]
  · rw [show (disk.create name).files = name :: disk.files from List.insert_of_not_mem hmem, hskip]

/-- A file that is deleted and is no log leaves the logs. -/
theorem Disk.logNumbers_delete {disk : Disk K} {name : FileName} (hname : name.type ≠ .logFile) :
    (disk.delete name).logNumbers = disk.logNumbers := by
  unfold Disk.logNumbers
  show ((disk.files.filter _).filter _).map _ = _
  rw [List.filter_filter]
  congr 1
  refine List.filter_congr fun other _ => ?_
  rw [← Bool.decide_and]
  refine decide_eq_decide.mpr (and_iff_left_of_imp fun hother => ?_)
  rintro rfl
  exact hname hother

/-- A new log file. -/
theorem Disk.logNumbers_createLog {disk : Disk K} {n : ℕ}
    (hnew : (⟨.logFile, n⟩ : FileName) ∉ disk.files) :
    (disk.create ⟨.logFile, n⟩).logNumbers = n :: disk.logNumbers := by
  unfold Disk.logNumbers
  have hfiles : (disk.create ⟨.logFile, n⟩).files = ⟨.logFile, n⟩ :: disk.files :=
    List.insert_of_not_mem hnew
  rw [hfiles]
  rfl

/-- However `BuildTable` ends, the logs are what they were. -/
theorem BuildResult.logNumbers_apply (result : BuildResult K) (disk : Disk K) (number : ℕ) :
    (result.apply disk number).logNumbers = disk.logNumbers := by
  have htable : (⟨.tableFile, number⟩ : FileName).type ≠ .logFile := FileType.noConfusion
  cases result with
  | failed left =>
    cases left with
    | false => exact (Disk.logNumbers_delete htable).trans (Disk.logNumbers_create htable)
    | true => exact Disk.logNumbers_create htable
  | empty => exact Disk.logNumbers_delete htable
  | table => exact Disk.logNumbers_create htable

section Holds

variable {disk : Disk K} {manifest : ℕ} {records : List (VersionEdit K)} {logs : List ℕ}

/-- `BuildTable` touches neither the manifest nor a log. -/
theorem Disk.Holds.buildTable (h : disk.Holds manifest records logs) (result : BuildResult K) (number : ℕ) :
    (result.apply disk number).Holds manifest records logs := by
  obtain ⟨hrecords, hcurrent⟩ := result.apply_manifests disk number
  refine ⟨hcurrent.trans h.current, BuildResult.mem_apply h.mem ?_, ?_, ?_⟩
  · exact fun heq => FileType.noConfusion (congrArg FileName.type heq)
  · rw [hrecords]
    exact h.records_eq
  · rw [result.logNumbers_apply]
    exact h.logs

/-- A new log file in a directory. -/
theorem Disk.Holds.createLog (h : disk.Holds manifest records logs) {n : ℕ}
    (hnew : (⟨.logFile, n⟩ : FileName) ∉ disk.files) :
    (disk.create ⟨.logFile, n⟩).Holds manifest records (logs ++ [n]) := by
  refine ⟨h.current, List.mem_insert_of_mem h.mem, h.records_eq, ?_⟩
  rw [Disk.logNumbers_createLog hnew]
  exact (h.logs.cons n).trans (List.perm_append_singleton n logs).symm

/-- A record that is appended to the manifest. -/
theorem Disk.Holds.append (h : disk.Holds manifest records logs) (record : VersionEdit K) :
    (disk.append manifest record).Holds manifest (records ++ [record]) logs := by
  refine ⟨h.current, h.mem, ?_, h.logs⟩
  rw [disk.append_records_self, h.records_eq]

end Holds

/-- `DeleteObsoleteFiles` keeps the manifest, and of the logs those that recovery would replay. -/
theorem FileState.deleteObsoleteFiles_holds {s : FileState K} {records : List (VersionEdit K)}
    {logs : List ℕ} (h : s.disk.Holds s.versions.manifestFileNumber records logs) :
    (s.deleteObsoleteFiles []).disk.Holds s.versions.manifestFileNumber records
      (logs.filter s.versions.replays) := by
  refine ⟨h.current, List.mem_filter.mpr ⟨h.mem, ?_⟩, h.records_eq, ?_⟩
  · unfold FileState.keep
    dsimp only
    rw [decide_eq_true le_rfl, Bool.true_or]
  · have hlogs : (s.deleteObsoleteFiles []).disk.logNumbers =
        s.disk.logNumbers.filter s.versions.replays := by
      unfold Disk.logNumbers FileState.deleteObsoleteFiles
      dsimp only
      rw [List.filter_filter, List.filter_map, List.filter_filter]
      congr 1
      refine List.filter_congr fun name _ => ?_
      obtain ⟨type, number⟩ := name
      cases type <;> simp [FileState.keep, VersionSet.replays]
    rw [hlogs]
    exact h.logs.filter _

/-! ## `LogAndApply` and `DeleteObsoleteFiles` -/

/-- The numbers of the log files, the current one last. -/
def Db.logNumbers (db : Db K V) : List ℕ := db.oldLogs.map (·.1) ++ [db.logFileNumber]

/-- The files and the versions of a process are those of a database. -/
structure FileState.Carries (s : FileState K) (db : Db K V) : Prop where
  /-- `versions_` -/
  versions : s.versions = db.versions
  /-- `logfile_number_` -/
  logFileNumber : s.logFileNumber = db.logFileNumber
  /-- Whether there is an immutable memtable. -/
  imm : s.imm.isSome = db.imm.isSome
  /-- The directory. -/
  disk : s.disk.Holds db.versions.manifestFileNumber db.manifest db.logNumbers

/-- Updates at other places leave a value as it is. -/
theorem foldl_update_of_notMem {α β : Type} [DecidableEq α] {x : α} :
    ∀ {l : List (α × β)} (f : α → Option β), x ∉ l.map (·.1) →
    l.foldl (fun (f : α → Option β) q => Function.update f q.1 (some q.2)) f x = f x
  | [], _, _ => rfl
  | q :: l, f, h => by
    obtain ⟨hne, hrest⟩ := not_or.mp (List.mem_cons.not.mp h)
    rw [List.foldl_cons, foldl_update_of_notMem _ hrest]
    exact Function.update_of_ne hne _ _

/-- After an update the value from before does not matter. -/
theorem foldl_update_of_mem {α β : Type} [DecidableEq α] {x : α} :
    ∀ {l : List (α × β)} (f g : α → Option β), x ∈ l.map (·.1) →
    l.foldl (fun (f : α → Option β) q => Function.update f q.1 (some q.2)) f x =
      l.foldl (fun (f : α → Option β) q => Function.update f q.1 (some q.2)) g x
  | [], _, _, h => absurd h List.not_mem_nil
  | q :: l, f, g, h => by
    rw [List.foldl_cons, List.foldl_cons]
    by_cases hrest : x ∈ l.map (·.1)
    · exact foldl_update_of_mem _ _ hrest
    · obtain rfl := (List.mem_cons.mp h).resolve_right hrest
      rw [foldl_update_of_notMem _ hrest, foldl_update_of_notMem _ hrest, Function.update_self,
        Function.update_self]

/-- `Builder::Apply` may move the compaction pointers twice for one edit. -/
theorem applyCompactPointers_idem (pointer : ℕ → Option (InternalKey K)) (edit : VersionEdit K) :
    applyCompactPointers (applyCompactPointers pointer edit) edit = applyCompactPointers pointer edit := by
  funext level
  by_cases hlevel : level ∈ edit.compactPointers.map (·.1)
  · exact foldl_update_of_mem _ _ hlevel
  · exact foldl_update_of_notMem _ hlevel

section

variable [LinearOrder K]

/-- `LogAndApply` from the pointers that it moves first to the version that it installs. -/
theorem FileState.Carries.logAndApply {s : FileState K} {db : Db K V} (h : s.Carries db)
    (edit : VersionEdit K) :
    (((s.beginLog edit).logRecord (s.versions.completeEdit edit)).install edit).Carries
      (db.logAndApply edit) := by
  have hversions : (((s.beginLog edit).logRecord (s.versions.completeEdit edit)).install edit).versions =
      s.versions.logAndApply edit := by
    have hidem := applyCompactPointers_idem s.versions.compactPointer (s.versions.completeEdit edit)
    show VersionSet.logAndApply { s.versions with compactPointer := _ } edit = _
    unfold VersionSet.logAndApply
    dsimp only
    exact congrArg (fun pointer => ({ s.versions with
      current := _, logNumber := _, prevLogNumber := _, compactPointer := pointer } : VersionSet K)) hidem
  refine ⟨hversions.trans (h.versions ▸ rfl), h.logFileNumber, h.imm, ?_⟩
  have hdisk := h.disk.append (db.versions.completeEdit edit)
  rw [← h.versions] at hdisk
  show (s.disk.append s.versions.manifestFileNumber _).Holds db.versions.manifestFileNumber
    (db.manifest ++ [db.versions.completeEdit edit]) db.logNumbers
  rw [← h.versions]
  exact hdisk

end

/-- `DeleteObsoleteFiles` deletes the same log files. -/
theorem FileState.Carries.deleteObsoleteFiles {s : FileState K} {db : Db K V} (h : s.Carries db)
    (hneeded : db.versions.logNumber ≤ db.logFileNumber) :
    (s.deleteObsoleteFiles []).Carries db.deleteObsoleteFiles := by
  refine ⟨h.versions, h.logFileNumber, h.imm, ?_⟩
  have hdisk := h.disk
  rw [← h.versions] at hdisk
  have hdeleted := FileState.deleteObsoleteFiles_holds hdisk
  rw [h.versions] at hdeleted
  have hlogs : db.logNumbers.filter db.versions.replays = db.deleteObsoleteFiles.logNumbers := by
    have hcurrent : db.versions.replays db.logFileNumber = true := by
      unfold VersionSet.replays
      rw [decide_eq_true hneeded, Bool.true_or]
    unfold Db.logNumbers
    rw [List.filter_append, List.filter_map, List.filter_cons_of_pos hcurrent]
    rfl
  rw [hlogs] at hdeleted
  exact hdeleted

/-! ## The relation -/

/-- The background thread is in the loop of the compaction in flight, if there is one. -/
def DbImpl.Works (p : DbImpl K) : Option (CompactionState K V) → Prop
  | none => p.running = [] ∧ p.manualCompaction = none
  | some st => ∃ job : BgCompaction K, p.running = [.compacting job] ∧ job.compaction = st.compaction ∧
      job.outputs = st.cutting.numbers ∧ job.outputs.Nodup ∧
      (job.manual = false → p.manualCompaction = none)

/-- A process between two calls carries a database. -/
structure DbImpl.Carries (p : DbImpl K) (db : Db K V) : Prop where
  /-- Files and versions. -/
  files : p.toFileState.Carries db
  /-- The compaction in flight. -/
  works : p.Works db.compacting
  /-- Nobody writes. -/
  logger : p.logger = none
  /-- The database is not being closed. -/
  shuttingDown : p.shuttingDown = false
  /-- No background work has failed. -/
  bgError : p.bgError = none

/-- What a background thread calls succeeds. -/
def BgAction.Succeeds : BgAction K → Prop
  | .buildTable result => result.ok = true
  | .logAndApply result undeleted => result = .ok ∧ undeleted = []
  | .compactMemTable => True
  | .openOutput status | .finish status _ => status = none

/-- What a critical section calls succeeds. -/
def Action.Succeeds : Action K → Prop
  | .makeRoomForWrite _ newLog => newLog = none
  | .endWrite _ status => status = none
  | .continueWork _ a => a.Succeeds
  | _ => True

/-- Every call of the environment succeeds. -/
def HostAction.Succeeds : HostAction K → Prop
  | .switchCurrent result undeleted => result = .switched ∧ undeleted = []
  | .failNewDb | .failManifest _ => False
  | .writeLevel0Table result => result.ok = true
  | .endLog ok => ok = true
  | .step a => a.Succeeds
  | _ => True

section

variable [LinearOrder K]

/-- A history in which every call of the environment succeeds leads from one state to the other. -/
def Host.Succeeds (h h' : Host K) : Prop := Host.Reaches (fun _ a => a.Succeeds) h h'

/-- The critical sections of a call lead to a process that carries the database after it. -/
def Host.Performs (h : Host K) (db : Db K V) : Prop := ∃ p, h.Succeeds (.up p) ∧ p.Carries db

/-- A step before a history. -/
theorem Host.Succeeds.head {h h' h'' : Host K} {a : HostAction K} (ha : a.Succeeds)
    (hs : h.step a = some h') (hr : h'.Succeeds h'') : h.Succeeds h'' :=
  ((Host.Reaches.refl h).step ha hs).trans hr

/-- A step before a call. -/
theorem Host.Performs.head {h h' : Host K} {db : Db K V} {a : HostAction K} (ha : a.Succeeds)
    (hs : h.step a = some h') (hp : h'.Performs db) : h.Performs db := by
  obtain ⟨p, hr, hp⟩ := hp
  exact ⟨p, hr.head ha hs, hp⟩

/-- A critical section before a call. -/
theorem DbImpl.performs_step {p q : DbImpl K} {db : Db K V} {a : Action K} (ha : a.Succeeds)
    (hs : p.step a = some q) (hp : (Host.up q).Performs db) : (Host.up p).Performs db :=
  Host.Performs.head (a := .step a) ha (congrArg (Option.map Host.up) hs) hp

/-- A process that carries the database is at the end of the call. -/
theorem DbImpl.Carries.performs {p : DbImpl K} {db : Db K V} (h : p.Carries db) : (Host.up p).Performs db :=
  ⟨p, .refl _, h⟩

section Carries

variable {p : DbImpl K} {db : Db K V}

omit [LinearOrder K] in
/-- `MaybeScheduleCompaction` only queues background work. -/
theorem DbImpl.Carries.maybeScheduleCompaction (h : p.Carries db) : p.maybeScheduleCompaction.Carries db := by
  rw [p.maybeScheduleCompaction_eq]
  exact ⟨h.files, h.works, h.logger, h.shuttingDown, h.bgError⟩

omit [LinearOrder K] in
/-- The end of `BackgroundCall` wakes nobody up, as nobody writes. -/
theorem DbImpl.Carries.endCall (h : p.Carries db) : p.endCall.Carries db := by
  have hcarries : DbImpl.Carries { p with bgCompactionScheduled := false } db :=
    ⟨h.files, h.works, h.logger, h.shuttingDown, h.bgError⟩
  obtain ⟨hfiles, hworks, hlogger, hshut, herror⟩ := hcarries.maybeScheduleCompaction
  refine ⟨hfiles, hworks, ?_, hshut, herror⟩
  show Option.map Logger.wake _ = none
  rw [hlogger]
  rfl

/-! ## Writes and reads -/

/-- `Write` becomes the logger, waits once if there are many level-0 files, and then writes. -/
theorem DbImpl.Carries.write [Inhabited V] (h : p.Carries db) (updates : List (Update K V)) :
    (Host.up p).Performs (db.write updates) := by
  have hacquire : p.step (.acquireLogger true) =
      some { p with logger := some ⟨true, .room false true⟩ } := by
    unfold DbImpl.step DbImpl.acquireLogger
    rw [h.logger]
    rfl
  have hwrite : (Host.up { p with logger := some ⟨true, .writing⟩ }).Performs (db.write updates) := by
    refine DbImpl.performs_step (a := .endWrite updates.length none) rfl rfl (DbImpl.Carries.performs ?_)
    obtain ⟨hversions, hnumber, himm, hdisk⟩ := h.files
    exact ⟨⟨congrArg (fun vs : VersionSet K => { vs with
      lastSequence := vs.lastSequence + updates.length }) hversions, hnumber, himm, hdisk⟩, h.works, rfl,
      h.shuttingDown, h.bgError⟩
  have hroom : ∀ delay : Bool, (delay && decide (kL0SlowdownWritesTrigger ≤
      (p.versions.current.files 0).length)) = false →
      (Host.up { p with logger := some ⟨true, .room false delay⟩ }).Performs (db.write updates) := by
    intro delay hdelay
    refine DbImpl.performs_step (a := .makeRoomForWrite true none) rfl ?_ hwrite
    unfold DbImpl.step DbImpl.makeRoomForWrite
    dsimp only
    rw [h.bgError, hdelay]
    rfl
  refine DbImpl.performs_step (a := .acquireLogger true) trivial hacquire ?_
  by_cases hdelay : kL0SlowdownWritesTrigger ≤ (p.versions.current.files 0).length
  · have hsleep :
        DbImpl.step { p with logger := some ⟨true, .room false true⟩ } (.makeRoomForWrite true none) =
          some { p with logger := some ⟨true, .sleeping false⟩ } := by
      unfold DbImpl.step DbImpl.makeRoomForWrite
      dsimp only
      rw [h.bgError, decide_eq_true hdelay]
      rfl
    exact DbImpl.performs_step (a := .makeRoomForWrite true none) rfl hsleep
      (DbImpl.performs_step (a := .endSleep) trivial rfl (hroom false rfl))
  · refine hroom true ?_
    rw [decide_eq_false hdelay]
    rfl

/-- A reader of the current version gives its reference back with the statistics of its read. -/
theorem DbImpl.Carries.endGet (h : p.Carries db) {stats : GetStats K}
    (hstats : ∀ f l, stats = some (f, l) → f ∈ p.versions.current.files l) :
    (Host.up p).Performs
      { db with versions := { db.versions with current := db.versions.current.updateStats stats } } := by
  refine DbImpl.performs_step (a := .acquire) trivial rfl ?_
  obtain ⟨hversions, hnumber, himm, hdisk⟩ := h.files
  -- The version that was read is still the current one.
  set t : DbImpl K := { p.acquire with
    toFileState := p.acquire.toFileState.setCurrent (p.versions.current.updateStats stats) } with ht
  have htcarries : t.Carries
      { db with versions := { db.versions with current := db.versions.current.updateStats stats } } :=
    ⟨⟨congrArg (fun vs : VersionSet K => { vs with current := vs.current.updateStats stats }) hversions,
      hnumber, himm, hdisk⟩, h.works, h.logger, h.shuttingDown, h.bgError⟩
  obtain ⟨u, hu, hreaders, hend⟩ : ∃ u : DbImpl K, u.Carries
      { db with versions := { db.versions with current := db.versions.current.updateStats stats } } ∧
      u.readers = p.currentVersion :: p.readers ∧
      p.acquire.endGet 0 stats false false = u.release 0 := by
    refine ⟨if p.versions.current.updateStatsPicks stats then t.maybeScheduleCompaction else t, ?_, ?_, ?_⟩
    · split_ifs
      · exact htcarries.maybeScheduleCompaction
      · exact htcarries
    · split_ifs
      · rw [t.maybeScheduleCompaction_eq]
        rfl
      · rfl
    · have hread : stats.all (fun f => decide (f.1 ∈ p.currentVersion.value f.2)) = true := by
        cases stats with
        | none => rfl
        | some f => exact decide_eq_true (hstats f.1 f.2 rfl)
      have hfound : (p.acquire.readers[0]?.filter fun r =>
          stats.all fun f => decide (f.1 ∈ r.value f.2)) = some p.currentVersion := by
        show (some p.currentVersion).filter _ = _
        rw [Option.filter_some, if_pos hread]
      unfold DbImpl.endGet
      rw [hfound, Option.bind_some]
      dsimp only
      rw [show decide (p.currentVersion.id = p.acquire.currentId) = true from decide_eq_true rfl]
      rfl
  have hrelease : p.acquire.step (.endGet 0 stats false false) =
      some { u with toFileState := u.toFileState.release 0 p.currentVersion } := by
    refine hend.trans ?_
    unfold DbImpl.release
    rw [hreaders]
    rfl
  refine DbImpl.performs_step (a := .endGet 0 stats false false) trivial hrelease (DbImpl.Carries.performs ?_)
  obtain ⟨hversions, hnumber, himm, hdisk⟩ := hu.files
  exact ⟨⟨hversions, hnumber, himm, hdisk⟩, hu.works, hu.logger, hu.shuttingDown, hu.bgError⟩

/-- `Get` reads tables only if the memtables do not have the key, and then updates statistics. -/
theorem DbImpl.Carries.get (h : p.Carries db) (key : K) (snapshot : Option ℕ) :
    (Host.up p).Performs (db.get key snapshot).2 := by
  unfold Db.get
  dsimp only
  split
  · exact h.performs
  · split
    · exact h.performs
    · refine h.endGet fun f l hf => ?_
      rw [h.files.versions]
      exact (Version.get_stats hf).1

/-- A switch of memtables by `TEST_CompactMemTable`, which does not wait for level-0 files. -/
theorem DbImpl.Carries.switchMemTable (h : p.Carries db) (hn : p.Numbered p.running) {db' : Db K V}
    (hswitch : db.switchMemTable = some db') : (Host.up p).Performs db' := by
  unfold Db.switchMemTable at hswitch
  split_ifs at hswitch with hcond
  obtain rfl := Option.some.inj hswitch
  obtain ⟨hversions, hnumber, himm, hdisk⟩ := h.files
  have hacquire : p.step (.acquireLogger false) =
      some { p with logger := some ⟨false, .room true false⟩ } := by
    unfold DbImpl.step DbImpl.acquireLogger
    rw [h.logger]
    rfl
  set t : DbImpl K := { p with
    toFileState := p.toFileState.switchMemTable
    logger := some ⟨false, .room false false⟩ } with ht
  have hroom :
      DbImpl.step { p with logger := some ⟨false, .room true false⟩ } (.makeRoomForWrite false none) =
        some t.maybeScheduleCompaction := by
    have hnone : ¬p.imm.isSome = true := by
      rw [himm, Option.isNone_iff_eq_none.mp hcond.1]
      exact Bool.false_ne_true
    have hstop : ¬kL0StopWritesTrigger ≤ (p.versions.current.files 0).length := by
      rw [hversions]
      exact not_le.mpr hcond.2
    have herror : ¬p.bgError.isSome = true := by
      rw [h.bgError]
      exact Bool.false_ne_true
    unfold DbImpl.step DbImpl.makeRoomForWrite
    dsimp only
    rw [if_neg herror, Bool.false_and, if_neg Bool.false_ne_true, Bool.and_false, if_neg Bool.false_ne_true,
      if_neg hnone, if_neg hstop]
    rfl
  have hleave : t.maybeScheduleCompaction.step (.makeRoomForWrite true none) =
      some { t.maybeScheduleCompaction with
        logger := none
        returned := (false, none) :: t.maybeScheduleCompaction.returned } := by
    rw [t.maybeScheduleCompaction_eq]
    unfold DbImpl.step DbImpl.makeRoomForWrite
    dsimp only
    rw [h.bgError]
    rfl
  refine DbImpl.performs_step (a := .acquireLogger false) trivial hacquire
    (DbImpl.performs_step (a := .makeRoomForWrite false none) rfl hroom
      (DbImpl.performs_step (a := .makeRoomForWrite true none) rfl hleave (DbImpl.Carries.performs ?_)))
  rw [t.maybeScheduleCompaction_eq]
  refine ⟨⟨congrArg (fun vs : VersionSet K => { vs with nextFileNumber := vs.nextFileNumber + 1 }) hversions,
    congrArg VersionSet.nextFileNumber hversions, rfl, ?_⟩, h.works, rfl, h.shuttingDown, h.bgError⟩
  -- No log file has the number of the new one.
  have hnew : (⟨.logFile, p.versions.nextFileNumber⟩ : FileName) ∉ p.disk.files := fun hmem =>
    absurd (hn.logs.lt _ hmem) (Nat.lt_irrefl _)
  have hlogs : db.logNumbers ++ [p.versions.nextFileNumber] =
      (db.oldLogs ++ [(db.logFileNumber, db.log)]).map (·.1) ++ [db.versions.nextFileNumber] := by
    rw [hversions, List.map_append]
    rfl
  have hcreated := hdisk.createLog hnew
  rw [hlogs] at hcreated
  exact hcreated

/-! ## Background work -/

omit [LinearOrder K] in
/-- While nothing runs and there is something to do, a `BGWork` is queued. -/
theorem DbImpl.Scheduled.queued_eq (hs : p.Scheduled) (hshut : p.shuttingDown = false)
    (hrun : p.running = []) (hwork : p.hasWork = true) : p.queued = 1 := by
  have hcount := hs.exclusive
  unfold DbImpl.Exclusive at hcount
  rw [hs.hasWork hshut hwork, hrun] at hcount
  exact hcount

/-- The `BGWork` that is queued starts. -/
theorem DbImpl.performs_start (hs : p.Scheduled) (hshut : p.shuttingDown = false) (hrun : p.running = [])
    (hwork : p.hasWork = true) {t : DbImpl K} {point : BgPoint K}
    (hback : DbImpl.backgroundCompaction { p with queued := 0 } = (t, some point))
    (hp : (Host.up { t with running := [point] }).Performs db) : (Host.up p).Performs db := by
  refine DbImpl.performs_step (a := .startWork) trivial ?_ hp
  have hqueued := hs.queued_eq hshut hrun hwork
  have hsame := DbImpl.backgroundCompaction_sameWork { p with queued := 0 }
  rw [hback] at hsame
  have hnone : t.running = [] := hsame.running.trans hrun
  unfold DbImpl.step DbImpl.startWork
  dsimp only
  rw [hqueued, if_neg Nat.one_ne_zero, if_neg (by rw [hshut]; exact Bool.false_ne_true), Nat.sub_self, hback]
  dsimp only
  rw [hnone]

/-- The running `BGWork` goes on, and does not return yet. -/
theorem DbImpl.performs_continue {point point' : BgPoint K} (hrun : p.running = [point]) {a : BgAction K}
    (ha : a.Succeeds) {t : DbImpl K} (hback : p.background point a = some (t, some point'))
    (hp : (Host.up { t with running := [point'] }).Performs db) : (Host.up p).Performs db := by
  refine DbImpl.performs_step (a := .continueWork 0 a) ha ?_ hp
  have hsame : t.running = [point] := (DbImpl.background_sameWork hback).running.trans hrun
  unfold DbImpl.step DbImpl.continueWork
  dsimp only
  rw [hrun, List.getElem?_cons_zero, Option.bind_some, hback, Option.map_some]
  dsimp only
  rw [hsame, List.set_cons_zero]

/-- The running `BGWork` returns. -/
theorem DbImpl.performs_end {point : BgPoint K} (hrun : p.running = [point]) {a : BgAction K}
    (ha : a.Succeeds) {t : DbImpl K} (hback : p.background point a = some (t, none))
    (hp : DbImpl.Carries { t with running := [] } db) : (Host.up p).Performs db := by
  refine DbImpl.performs_step (a := .continueWork 0 a) ha ?_ hp.endCall.performs
  have hsame : t.running = [point] := (DbImpl.background_sameWork hback).running.trans hrun
  unfold DbImpl.step DbImpl.continueWork
  dsimp only
  rw [hrun, List.getElem?_cons_zero, Option.bind_some, hback, Option.map_some]
  dsimp only
  rw [hsame, List.eraseIdx_cons_zero]

/-! ## `CompactMemTable` -/

omit [LinearOrder K] in
/-- How `BuildTable` ends for a memtable when it succeeds. -/
def BuildResult.ofMemTable (o : DbOptions K V) (mem : List (Entry K V)) : BuildResult K :=
  match mem.head?, mem.getLast? with
  | some first, some last => .table (o.sizes.finished mem) first.key last.key
  | _, _ => .empty

omit [LinearOrder K] in
/-- Such an end is one without an error. -/
theorem BuildResult.ofMemTable_ok (o : DbOptions K V) (mem : List (Entry K V)) :
    (BuildResult.ofMemTable o mem).ok = true := by
  unfold BuildResult.ofMemTable
  split <;> rfl

/-- The table that `BuildTable` leaves for a memtable is added to the edit. -/
def BuildResult.addTo (result : BuildResult K) (edit : VersionEdit K) (base : Option (Version K))
    (number : ℕ) : VersionEdit K :=
  match result with
  | .table fileSize smallest largest =>
    edit.addFile (memTableLevel base smallest.userKey largest.userKey) number fileSize smallest largest
  | _ => edit

/-- `WriteLevel0Table` takes a number, and adds the table to the edit if there is one. -/
theorem TableWriter.writeLevel0Table_addTo (o : DbOptions K V) (w : TableWriter K V)
    (mem : List (Entry K V)) (base : Option (Version K)) :
    (w.writeLevel0Table o mem base).versions =
        { w.versions with nextFileNumber := w.versions.nextFileNumber + 1 } ∧
      (w.writeLevel0Table o mem base).edit =
        (BuildResult.ofMemTable o mem).addTo w.edit base w.versions.nextFileNumber := by
  unfold TableWriter.writeLevel0Table BuildResult.ofMemTable
  cases mem.head? with
  | none => exact ⟨rfl, rfl⟩
  | some first =>
    cases mem.getLast? with
    | none => exact ⟨rfl, rfl⟩
    | some last => exact ⟨rfl, rfl⟩

/-- The edit of a flush is that of `WriteLevel0Table` with the log number. -/
theorem FileState.flushEdit_eq (s : FileState K) (number : ℕ) {base : Held (LevelFiles K)} {v : Version K}
    (hbase : base.value = v.files) (result : BuildResult K) :
    s.flushEdit number base result = { result.addTo {} (some v) number with
      prevLogNumber := some 0
      logNumber := some s.logFileNumber } := by
  cases result with
  | failed left => rfl
  | empty => rfl
  | table fileSize smallest largest =>
    unfold FileState.flushEdit BuildResult.addTo
    dsimp only
    rw [memTableLevel_congr (u := { files := base.value }) (v := v) hbase]
    rfl

/-- `CompactMemTable` from `BuildTable` on: its record, the new version and the deletion of the log files that
are not needed any more. -/
theorem DbImpl.performs_flush {number : ℕ} {base : Held (LevelFiles K)} {outer : Option (BgCompaction K)}
    {result : BuildResult K} {edit : VersionEdit K} (hrun : p.running = [.flushing number base outer])
    (hok : result.ok = true) (hedit : p.flushEdit number base result = edit)
    (hfiles : (p.toFileState.endBuild number base result).Carries db)
    (hneeded : (db.versions.logAndApply edit).logNumber ≤ db.logFileNumber)
    (hworks : DbImpl.Works { p with running := resumed outer } db.compacting) (hlogger : p.logger = none)
    (hshut : p.shuttingDown = false) (herror : p.bgError = none) :
    (Host.up p).Performs { db.logAndApply edit with imm := none }.deleteObsoleteFiles := by
  set t : FileState K := p.toFileState.endBuild number base result with ht
  set record : VersionEdit K := t.versions.completeEdit edit with hrecord
  have hbuild : p.background (.flushing number base outer) (.buildTable result) =
      some ({ p with toFileState := t.beginLog edit }, some (.logging edit record (.flush outer))) := by
    unfold DbImpl.background DbImpl.endBuild
    dsimp only
    rw [hok, hshut, hedit]
    rfl
  refine DbImpl.performs_continue hrun (a := .buildTable result) hok hbuild ?_
  set u : FileState K :=
    { ((t.beginLog edit).logRecord record).install edit with imm := none }.deleteObsoleteFiles [] with hu
  have hcarries : u.Carries { db.logAndApply edit with imm := none }.deleteObsoleteFiles := by
    obtain ⟨hversions, hnumber, -, hdisk⟩ := hfiles.logAndApply edit
    have hflushed : FileState.Carries { ((t.beginLog edit).logRecord record).install edit with imm := none }
        { db.logAndApply edit with imm := none } := ⟨hversions, hnumber, rfl, hdisk⟩
    exact hflushed.deleteObsoleteFiles hneeded
  cases outer with
  | none =>
    refine DbImpl.performs_end (t := { p with
        toFileState := u
        running := [.logging edit record (.flush none)] }) rfl (a := .logAndApply .ok []) ⟨rfl, rfl⟩ rfl ?_
    exact ⟨hcarries, hworks, hlogger, hshut, herror⟩
  | some job =>
    refine DbImpl.performs_continue (t := DbImpl.signalAll { p with
        toFileState := u
        running := [.logging edit record (.flush (some job))] }) rfl (a := .logAndApply .ok []) ⟨rfl, rfl⟩ rfl
      (DbImpl.Carries.performs ⟨hcarries, hworks, ?_, hshut, herror⟩)
    show Option.map Logger.wake p.logger = none
    rw [hlogger]
    rfl

/-- `CompactMemTable` begins, in a new `BGWork` or inside the loop of the compaction in flight. -/
theorem DbImpl.Carries.beginFlush (h : p.Carries db) (hs : p.Scheduled) (himm : p.imm.isSome = true) :
    ∃ (q : DbImpl K) (outer : Option (BgCompaction K)), q.toFileState = p.toFileState.newOutput.refCurrent ∧
      q.running = [.flushing p.versions.nextFileNumber p.currentVersion outer] ∧
      DbImpl.Works { q with running := resumed outer } db.compacting ∧ q.logger = none ∧
      q.shuttingDown = false ∧ q.bgError = none ∧
      ∀ db' : Db K V, (Host.up q).Performs db' → (Host.up p).Performs db' := by
  have hworks := h.works
  cases hcompacting : db.compacting with
  | none =>
    rw [hcompacting] at hworks
    obtain ⟨hrun, hmanual⟩ := hworks
    have hwork : p.hasWork = true := by
      unfold DbImpl.hasWork
      rw [himm]
      rfl
    have hback : DbImpl.backgroundCompaction { p with queued := 0 } =
        ({ p with queued := 0, toFileState := p.toFileState.newOutput.refCurrent },
          some (.flushing p.versions.nextFileNumber p.currentVersion none)) := by
      unfold DbImpl.backgroundCompaction
      rw [if_pos himm]
      rfl
    refine ⟨{ p with
      toFileState := p.toFileState.newOutput.refCurrent
      queued := 0
      running := [.flushing p.versions.nextFileNumber p.currentVersion none] }, none, rfl, rfl,
      ⟨rfl, hmanual⟩, h.logger, h.shuttingDown, h.bgError, fun _ hperforms => ?_⟩
    exact DbImpl.performs_start hs h.shuttingDown hrun hwork hback hperforms
  | some st =>
    rw [hcompacting] at hworks
    obtain ⟨job, hrun, hjob⟩ := hworks
    have hback : p.background (.compacting job) .compactMemTable =
        some ({ p with toFileState := p.toFileState.newOutput.refCurrent },
          some (.flushing p.versions.nextFileNumber p.currentVersion (some job))) := by
      unfold DbImpl.background
      dsimp only
      rw [if_pos himm]
      rfl
    refine ⟨{ p with
      toFileState := p.toFileState.newOutput.refCurrent
      running := [.flushing p.versions.nextFileNumber p.currentVersion (some job)] }, some job, rfl, rfl,
      ⟨job, rfl, hjob⟩, h.logger, h.shuttingDown, h.bgError, fun _ hperforms => ?_⟩
    exact DbImpl.performs_continue hrun (a := .compactMemTable) trivial hback hperforms

/-- `CompactMemTable` of the process writes the table that `CompactMemTable` of the database writes. -/
theorem DbImpl.Carries.compactMemTable (h : p.Carries db) (hs : p.Scheduled) {o : DbOptions K V}
    {db' : Db K V} (hflush : db.compactMemTable o = some db') : (Host.up p).Performs db' := by
  obtain ⟨imm, himm, rfl⟩ := Db.compactMemTable_eq_some hflush
  obtain ⟨hversions, hedit⟩ := TableWriter.writeLevel0Table_addTo o ⟨db.versions, db.tables, {}⟩ imm
    (some db.versions.current)
  generalize TableWriter.writeLevel0Table o ⟨db.versions, db.tables, {}⟩ imm
    (some db.versions.current) = w at *
  set result := BuildResult.ofMemTable o imm with hresult
  have himm' : p.imm.isSome = true := by
    rw [h.files.imm, himm]
    rfl
  obtain ⟨q, outer, hq, hrun, hworks, hlogger, hshut, herror, hperforms⟩ := h.beginFlush hs himm'
  have hfiles : (q.toFileState.endBuild p.versions.nextFileNumber p.currentVersion result).Carries
      { db with versions := w.versions, tables := w.tables } := by
    rw [hq]
    refine ⟨?_, h.files.logFileNumber, h.files.imm, ?_⟩
    · rw [hversions]
      exact congrArg (fun vs : VersionSet K => { vs with nextFileNumber := vs.nextFileNumber + 1 })
        h.files.versions
    · rw [hversions]
      exact h.files.disk.buildTable result _
  have hedit' : q.flushEdit p.versions.nextFileNumber p.currentVersion result =
      { w.edit with prevLogNumber := some 0, logNumber := some db.logFileNumber } := by
    have hcurrent : p.currentVersion.value = db.versions.current.files :=
      congrArg (fun vs : VersionSet K => vs.current.files) h.files.versions
    have hnumber : q.logFileNumber = db.logFileNumber := by
      rw [hq]
      exact h.files.logFileNumber
    rw [q.flushEdit_eq _ hcurrent, hedit, hnumber, h.files.versions]
  exact hperforms _ (DbImpl.performs_flush hrun (BuildResult.ofMemTable_ok o imm) hedit' hfiles
    (le_refl db.logFileNumber) hworks hlogger hshut herror)

/-! ## Compactions -/

/-- What `PickCompaction` finds is a reason to compact. -/
theorem VersionSet.needsCompaction_of_pick {vs : VersionSet K} {r : Compaction K × VersionSet K}
    (h : vs.pickCompaction = some r) : vs.needsCompaction = true := by
  unfold VersionSet.pickCompaction at h
  unfold VersionSet.needsCompaction
  cases hpick : vs.pickFile with
  | none =>
    rw [hpick] at h
    cases h
  | some f =>
    unfold VersionSet.pickFile at hpick
    split_ifs at hpick with hscore
    · rw [decide_eq_true hscore, Bool.true_or]
    · obtain ⟨q, hq, -⟩ := Option.map_eq_some_iff.mp hpick
      rw [hq]
      exact Bool.or_true _

omit [LinearOrder K] in
/-- A process that begins a compaction carries the database in which it is in flight, with no output yet. -/
theorem FileState.Carries.beginJob (h : p.toFileState.Carries db) (versions : VersionSet K)
    (hmanifest : versions.manifestFileNumber = db.versions.manifestFileNumber) :
    FileState.Carries { p.toFileState.refCurrent with versions := versions }
      { db with versions := versions } :=
  ⟨rfl, h.logFileNumber, h.imm, hmanifest.symm ▸ h.disk⟩

/-- What `BackgroundCompaction` does with the compaction that `PickCompaction` chooses. -/
theorem DbImpl.backgroundCompaction_of_pick {c : Compaction K} {versions : VersionSet K}
    (himm : ¬p.imm.isSome = true) (hmanual : p.manualCompaction = none)
    (hpick : p.versions.pickCompaction = some (c, versions)) :
    (∀ f, c.isTrivialMove = true → c.inputs0.head? = some f →
        p.backgroundCompaction = (p.beginJob false c versions).1.beginLogAndApply (c.moveEdit f)
          (.move (p.beginJob false c versions).2)) ∧
      ((∀ f, c.isTrivialMove = true → ¬c.inputs0.head? = some f) →
        p.backgroundCompaction =
          ((p.beginJob false c versions).1, some (.compacting (p.beginJob false c versions).2))) := by
  unfold DbImpl.backgroundCompaction
  rw [if_neg himm, hmanual]
  dsimp only
  rw [hpick]
  dsimp only
  constructor
  · intro f htriv hhead
    simp only [htriv, hhead]
  · intro hother
    split
    · next f htriv hhead => exact absurd hhead (hother f htriv)
    · rfl

/-- `BackgroundCompaction` begins the compaction that `PickCompaction` chooses, or moves a file. -/
theorem DbImpl.Carries.beginCompaction (h : p.Carries db) (hs : p.Scheduled) {db' : Db K V}
    (hbegin : db.beginCompaction = some db') : (Host.up p).Performs db' := by
  unfold Db.beginCompaction at hbegin
  split_ifs at hbegin with hidle
  obtain ⟨himm, hcompacting⟩ := not_or.mp hidle
  split at hbegin
  · cases hbegin
  · next c versions hpick =>
    obtain ⟨-, -, -, hversions⟩ := VersionSet.pickCompaction_eq_some hpick
    have hworks := h.works
    rw [Option.not_isSome_iff_eq_none.mp hcompacting] at hworks
    obtain ⟨hrun, hmanual⟩ := hworks
    rw [← h.files.versions] at hpick
    have hwork : p.hasWork = true := by
      unfold DbImpl.hasWork
      rw [VersionSet.needsCompaction_of_pick hpick]
      exact Bool.or_true _
    obtain ⟨hmove, hbackground⟩ := DbImpl.backgroundCompaction_of_pick (p := { p with queued := 0 })
      (show ¬p.imm.isSome = true from h.files.imm ▸ himm) hmanual hpick
    have hfiles := h.files.beginJob versions (by rw [hversions])
    split at hbegin
    · next f htriv hhead =>
      obtain rfl := Option.some.inj hbegin
      refine DbImpl.performs_start hs h.shuttingDown hrun hwork (hmove f htriv hhead) ?_
      obtain ⟨hv, hn, hi, hd⟩ := hfiles.logAndApply (c.moveEdit f)
      refine DbImpl.performs_end rfl (a := .logAndApply .ok []) ⟨rfl, rfl⟩ rfl
        ⟨⟨hv, hn, hi, hd⟩, ?_, h.logger, h.shuttingDown, h.bgError⟩
      have hnone : db.compacting = none := Option.not_isSome_iff_eq_none.mp hcompacting
      show DbImpl.Works _ db.compacting
      rw [hnone]
      exact ⟨rfl, hmanual⟩
    · next hother =>
      obtain rfl := Option.some.inj hbegin
      refine DbImpl.performs_start hs h.shuttingDown hrun hwork (hbackground hother) (DbImpl.Carries.performs
        ⟨⟨hfiles.versions, hfiles.logFileNumber, hfiles.imm, hfiles.disk⟩,
          ⟨_, rfl, rfl, rfl, List.nodup_nil, fun _ => hmanual⟩, h.logger, h.shuttingDown, h.bgError⟩)

/-- `TEST_CompactRange` asks for a compaction, and `BackgroundCompaction` begins it. -/
theorem DbImpl.Carries.beginManual (h : p.Carries db) (hs : p.Scheduled) {level : ℕ} {first last : K}
    {db' : Db K V} (hbegin : db.beginManual level first last = some db') : (Host.up p).Performs db' := by
  unfold Db.beginManual at hbegin
  split_ifs at hbegin with hidle
  obtain ⟨himm, hidle⟩ := not_or.mp hidle
  obtain ⟨hcompacting, hlevel⟩ := not_or.mp hidle
  split at hbegin
  · cases hbegin
  · next c versions hrange =>
    obtain rfl := Option.some.inj hbegin
    obtain ⟨-, hversions⟩ := VersionSet.compactRange_eq_some hrange
    have hworks := h.works
    rw [Option.not_isSome_iff_eq_none.mp hcompacting] at hworks
    obtain ⟨hrun, hmanual⟩ := hworks
    rw [← h.files.versions] at hrange
    set t : DbImpl K := { p with manualCompaction := some ⟨level, first, last⟩ } with ht
    have hask : p.step (.compactRange ⟨level, first, last⟩) = some t.maybeScheduleCompaction := by
      have hfree : ¬(p.manualCompaction.isSome = true ∨ kNumLevels ≤ level + 1) := by
        rw [hmanual]
        exact not_or.mpr ⟨Bool.false_ne_true, hlevel⟩
      unfold DbImpl.step DbImpl.compactRange
      dsimp only
      rw [if_neg hfree]
    have hscheduled := hs.step hask
    refine DbImpl.performs_step (a := .compactRange ⟨level, first, last⟩) trivial hask ?_
    rw [t.maybeScheduleCompaction_eq] at hscheduled ⊢
    generalize t.maybeScheduleCompaction.bgCompactionScheduled = flag at hscheduled ⊢
    generalize t.maybeScheduleCompaction.queued = queued at hscheduled ⊢
    set u : DbImpl K := { t with bgCompactionScheduled := flag, queued := queued } with hu
    have hwork : u.hasWork = true := by
      unfold DbImpl.hasWork
      rw [show u.manualCompaction.isSome = true from rfl, Bool.or_true, Bool.true_or]
    have hback : DbImpl.backgroundCompaction { u with queued := 0 } =
        ((DbImpl.beginJob { u with queued := 0 } true c versions).1,
          some (.compacting (DbImpl.beginJob { u with queued := 0 } true c versions).2)) := by
      unfold DbImpl.backgroundCompaction
      rw [if_neg (show ¬u.imm.isSome = true from h.files.imm ▸ himm)]
      dsimp only
      rw [show u.manualCompaction = some ⟨level, first, last⟩ from rfl]
      dsimp only
      rw [show u.versions = p.versions from rfl, hrange]
    have hfiles := h.files.beginJob versions (by rw [hversions])
    refine DbImpl.performs_start hscheduled h.shuttingDown hrun hwork hback (DbImpl.Carries.performs
      ⟨⟨hfiles.versions, hfiles.logFileNumber, hfiles.imm, hfiles.disk⟩,
        ⟨_, rfl, rfl, rfl, List.nodup_nil, fun hm => absurd hm Bool.noConfusion⟩, h.logger, h.shuttingDown,
        h.bgError⟩)

omit [LinearOrder K] in
/-- Adding an entry opens an output with the next number if there is none. -/
theorem CutState.writeEntry_numbers (sizes : TableSizes K V) (st : CutState K V) (next : ℕ)
    (e : Entry K V) :
    ((st.writeEntry sizes next e).2 = next ∧ (st.writeEntry sizes next e).1.numbers = st.numbers) ∨
      ((st.writeEntry sizes next e).2 = next + 1 ∧
        (st.writeEntry sizes next e).1.numbers = st.numbers ++ [next]) := by
  -- The output may be closed, which keeps its number.
  have hclose : ∀ (b : OpenOutput K V) (n : ℕ),
      (if kTargetFileSize ≤ sizes.soFar b.entries then ({ st with builder := some b }.finishOutput sizes, n)
        else ({ st with builder := some b }, n)).2 = n ∧
      (if kTargetFileSize ≤ sizes.soFar b.entries then ({ st with builder := some b }.finishOutput sizes, n)
        else ({ st with builder := some b }, n)).1.numbers =
        st.outputs.map (·.1.number) ++ [b.number] := by
    intro b n
    split_ifs
    · exact ⟨rfl, CutState.finishOutput_numbers sizes _⟩
    · exact ⟨rfl, rfl⟩
  unfold CutState.writeEntry CutState.numbers
  cases hb : st.builder with
  | none =>
    obtain ⟨hnext, hnumbers⟩ := hclose ⟨next, e.key, e.key, [e]⟩ (next + 1)
    refine Or.inr ⟨hnext, hnumbers.trans ?_⟩
    rw [Option.map_none, Option.toList_none, List.append_nil]
  | some b =>
    obtain ⟨hnext, hnumbers⟩ := hclose { b with largest := e.key, entries := b.entries ++ [e] } next
    exact Or.inl ⟨hnext, hnumbers⟩

/-- A round opens at most one output, with the next number. -/
theorem CompactionState.workStep_numbers (sizes : TableSizes K V) (st : CompactionState K V) (next : ℕ) :
    (st.workStep sizes next).1.compaction = st.compaction ∧
      (((st.workStep sizes next).2 = next ∧
          (st.workStep sizes next).1.cutting.numbers = st.cutting.numbers) ∨
        ((st.workStep sizes next).2 = next + 1 ∧
          (st.workStep sizes next).1.cutting.numbers = st.cutting.numbers ++ [next])) := by
  unfold CompactionState.workStep
  cases st.input with
  | nil => exact ⟨rfl, Or.inl ⟨rfl, rfl⟩⟩
  | cons e input =>
    refine ⟨rfl, ?_⟩
    dsimp only
    have hstop : (st.compaction.shouldStopBefore st.cutting e.key).2.numbers = st.cutting.numbers := by
      unfold Compaction.shouldStopBefore
      dsimp only
      split_ifs <;> rfl
    have hcut : (if (st.compaction.shouldStopBefore st.cutting e.key).1 then
        (st.compaction.shouldStopBefore st.cutting e.key).2.finishOutput sizes
        else (st.compaction.shouldStopBefore st.cutting e.key).2).numbers = st.cutting.numbers := by
      split_ifs
      · rw [CutState.finishOutput_numbers, hstop]
      · exact hstop
    rw [← hcut]
    split_ifs
    · exact Or.inl ⟨rfl, rfl⟩
    · exact Or.inl ⟨rfl, rfl⟩
    · exact CutState.writeEntry_numbers _ _ _ _
    · exact CutState.writeEntry_numbers _ _ _ _

/-- A round of the loop of `DoCompactionWork` creates a file if it opens an output. -/
theorem DbImpl.Carries.workCompaction (h : p.Carries db) (hn : p.Numbered p.running) {o : DbOptions K V}
    {db' : Db K V} (hwork : db.workCompaction o = some db') : (Host.up p).Performs db' := by
  unfold Db.workCompaction at hwork
  have hworks := h.works
  split at hwork
  · cases hwork
  · next st hst =>
    split_ifs at hwork
    obtain rfl := Option.some.inj hwork
    rw [hst] at hworks
    obtain ⟨job, hrun, hcompaction, houtputs, hnodup, hplain⟩ := hworks
    obtain ⟨hsame, hnumbers⟩ := st.workStep_numbers o.sizes db.versions.nextFileNumber
    generalize st.workStep o.sizes db.versions.nextFileNumber = r at *
    obtain ⟨st', next⟩ := r
    rcases hnumbers with ⟨hnext, hnumbers⟩ | ⟨hnext, hnumbers⟩
    · obtain rfl : next = db.versions.nextFileNumber := hnext
      refine DbImpl.Carries.performs ⟨⟨h.files.versions, h.files.logFileNumber, h.files.imm, h.files.disk⟩,
        ⟨job, hrun, hcompaction.trans hsame.symm, houtputs.trans hnumbers.symm, hnodup, hplain⟩, h.logger,
        h.shuttingDown, h.bgError⟩
    · obtain rfl : next = db.versions.nextFileNumber + 1 := hnext
      -- The number of the new output is above those of the others, which are pending.
      have hnew : p.versions.nextFileNumber ∉ job.outputs := fun hmem => by
        have hpending := hn.pending
        rw [hrun] at hpending
        have hin : p.versions.nextFileNumber ∈ p.pendingOutputs := by
          rw [hpending.eq, singleton_pending, List.mem_toFinset]
          exact hmem
        exact absurd (hpending.lt _ hin) (Nat.lt_irrefl _)
      have hback : p.background (.compacting job) (.openOutput none) = some (p.openOutput job none) := rfl
      refine DbImpl.performs_continue hrun (a := .openOutput none) rfl hback (DbImpl.Carries.performs
        ⟨⟨?_, h.files.logFileNumber, h.files.imm, h.files.disk.buildTable (.failed true) _⟩, ?_, h.logger,
          h.shuttingDown, h.bgError⟩)
      · exact congrArg (fun vs : VersionSet K => { vs with nextFileNumber := vs.nextFileNumber + 1 })
          h.files.versions
      · refine ⟨_, rfl, hcompaction.trans hsame.symm, ?_, ?_, hplain⟩
        · show job.outputs ++ [p.versions.nextFileNumber] = st'.cutting.numbers
          rw [houtputs, h.files.versions, hnumbers]
        · refine List.nodup_append.mpr ⟨hnodup, List.nodup_singleton _, fun a ha b hb hab => ?_⟩
          rw [hab, List.mem_singleton.mp hb] at ha
          exact hnew ha

omit [LinearOrder K] in
/-- The edit of `InstallCompactionResults` is the same for files that have the numbers of the outputs. -/
theorem BgCompaction.Plain.exists_resultEdit {job : BgCompaction K} (h : job.Plain)
    {outputs : List (FileMetaData K × List (Entry K V))} (hnumbers : outputs.map (·.1.number) = job.outputs)
    (hnodup : job.outputs.Nodup) : ∃ files, job.resultEdit files = job.compaction.resultEdit outputs := by
  obtain ⟨-, key, -⟩ := h
  set files : ℕ → FileMetaData K := fun n =>
    ((outputs.find? fun out => decide (out.1.number = n)).map (·.1)).getD ⟨n, 0, key, key⟩ with hfiles
  have hfile : ∀ out ∈ outputs, files out.1.number = out.1 := by
    intro out hout
    obtain ⟨found, hfound⟩ : ∃ found,
        (outputs.find? fun other => decide (other.1.number = out.1.number)) = some found :=
      Option.isSome_iff_exists.mp (List.find?_isSome.mpr ⟨out, hout, decide_eq_true rfl⟩)
    have heq : found = out := List.inj_on_of_nodup_map (hnumbers.symm ▸ hnodup)
      (List.mem_of_find?_eq_some hfound) hout (by simpa using List.find?_some hfound)
    rw [hfiles]
    dsimp only
    rw [hfound, heq]
    rfl
  have hnew : (outputs.map fun out => ({ files out.1.number with number := out.1.number } : FileMetaData K)) =
      outputs.map (·.1) := List.map_congr_left fun out hout => by rw [hfile out hout]
  have hlevels := congrArg (List.map fun f => (job.compaction.level + 1, f)) hnew
  rw [List.map_map, List.map_map] at hlevels
  refine ⟨files, ?_⟩
  unfold BgCompaction.resultEdit
  rw [Compaction.resultEdit_eq, Compaction.resultEdit_eq, ← hnumbers, List.map_map, List.map_map]
  exact congrArg (fun new => ({ job.compaction.edit with
    deletedFiles := _, newFiles := job.compaction.edit.newFiles ++ new } : VersionEdit K)) hlevels

omit [LinearOrder K] in
/-- The outputs at the end have all numbers that the compaction has taken. -/
theorem CompactionState.finalOutputs_numbers (sizes : TableSizes K V) (st : CompactionState K V) :
    (st.finalOutputs sizes).map (·.1.number) = st.cutting.numbers := by
  rw [← CutState.finishOutput_numbers sizes]
  unfold CompactionState.finalOutputs CutState.finishOutput CutState.numbers
  cases hb : st.cutting.builder with
  | none =>
    dsimp only
    rw [hb]
    exact (List.append_nil _).symm
  | some b => exact (List.append_nil _).symm

/-- The end of `DoCompactionWork`: the outputs are installed. -/
theorem DbImpl.Carries.finishCompaction (h : p.Carries db) (hn : p.Numbered p.running) {o : DbOptions K V}
    {db' : Db K V} (hfinish : db.finishCompaction o = some db') : (Host.up p).Performs db' := by
  unfold Db.finishCompaction at hfinish
  have hworks := h.works
  split at hfinish
  · cases hfinish
  · next st hst =>
    split_ifs at hfinish
    obtain rfl := Option.some.inj hfinish
    rw [hst] at hworks
    obtain ⟨job, hrun, hcompaction, houtputs, hnodup, hmanual⟩ := hworks
    have hplain : job.Plain := hn.plain (.compacting job) (hrun ▸ List.mem_singleton_self _) job
      (List.mem_singleton_self job)
    obtain ⟨files, hedit⟩ := hplain.exists_resultEdit
      ((st.finalOutputs_numbers o.sizes).trans houtputs.symm) hnodup
    have hlogNumber := hplain.resultEdit_logNumber files
    rw [hedit, hcompaction] at hlogNumber
    rw [hcompaction] at hedit
    generalize st.compaction.resultEdit (st.finalOutputs o.sizes) = edit at hedit hlogNumber ⊢
    set t : FileState K := p.toFileState.erasePending job.outputs with ht
    set record : VersionEdit K := t.versions.completeEdit edit with hrecord
    have hback : p.background (.compacting job) (.finish none files) =
        some ({ p with toFileState := t.beginLog edit },
          some (.logging edit record (.results { job with outputs := [] }))) := by
      unfold DbImpl.background DbImpl.endCompaction
      dsimp only
      rw [hedit]
      rfl
    have hcarries : t.Carries { db with tables := addTables db.tables (st.finalOutputs o.sizes) } :=
      ⟨h.files.versions, h.files.logFileNumber, h.files.imm, h.files.disk⟩
    obtain ⟨hv, hl, hi, hd⟩ := hcarries.logAndApply edit
    set u : FileState K := ((t.beginLog edit).logRecord record).install edit with hu
    have hinstalled : (u.unref job.input.id).Carries
        { { db with tables := addTables db.tables (st.finalOutputs o.sizes) }.logAndApply edit with
          compacting := none } := ⟨hv, hl, hi, hd⟩
    have hneeded : (db.versions.logAndApply edit).logNumber ≤ db.logFileNumber := by
      show edit.logNumber.getD db.versions.logNumber ≤ db.logFileNumber
      rw [hlogNumber, ← h.files.versions, ← h.files.logFileNumber]
      exact hn.logs.logNumber_le
    refine DbImpl.performs_continue hrun (a := .finish none files) rfl hback
      (DbImpl.performs_end rfl (a := .logAndApply .ok []) ⟨rfl, rfl⟩ rfl
        ⟨hinstalled.deleteObsoleteFiles hneeded, ⟨rfl, ?_⟩, h.logger, h.shuttingDown, h.bgError⟩)
    -- A manual compaction is done.
    show (if job.manual then none else p.manualCompaction) = none
    split_ifs with hm
    · rfl
    · exact hmanual (Bool.not_eq_true _ ▸ hm)

end Carries

end

end LevelDb
