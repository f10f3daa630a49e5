import LevelDb.Db.Process

/-!
# Opening and crashing

The life of a database over many processes. `DB::Open` creates the database if there is none, recovers
the version set from the manifest that `CURRENT` names, writes the entries of the log files to tables,
starts a new log and a new manifest, and switches `CURRENT`. The process may crash between any two
operations on files; an `Open` that fails, and a database that is closed, leave what a crash leaves.
-/

namespace LevelDb

open Lib

variable {K : Type}

/-- The options of `DB::Open`. -/
structure OpenOptions where
  /-- `comparator->Name()` -/
  comparator : Slice
  /-- `create_if_missing` -/
  createIfMissing : Bool
  /-- `error_if_exists` -/
  errorIfExists : Bool
  /-- `paranoid_checks` -/
  paranoidChecks : Bool

/-- How `SetCurrentFile` ends. -/
inductive SwitchResult where
  /-- With OK, and `CURRENT` names the new manifest. -/
  | switched
  /-- With OK, and `CURRENT` is what it was. -/
  | unnoticed
  /-- With an error, and `CURRENT` is what it was. -/
  | failed
  /-- With an error, and `CURRENT` is gone. -/
  | removed
  deriving DecidableEq

/-- What `SetCurrentFile` does to `CURRENT`. -/
def SwitchResult.apply (r : SwitchResult) (disk : Disk K) (manifest : ℕ) : Disk K :=
  match r with
  | .switched => { disk with current := some manifest }
  | .unnoticed | .failed => disk
  | .removed => { disk with current := none }

/-- Whether `SetCurrentFile` returns OK. -/
def SwitchResult.ok (r : SwitchResult) : Bool :=
  match r with
  | .switched | .unnoticed => true
  | .failed | .removed => false

/-- `DB::Open` in the loop of `DBImpl::Recover` over log files. -/
structure Recovering (K : Type) where
  /-- The options. -/
  options : OpenOptions
  /-- The directory. -/
  disk : Disk K
  /-- `versions_` -/
  versions : VersionSet K
  /-- `edit` -/
  edit : VersionEdit K := {}
  /-- The log files that are left. -/
  logs : List ℕ
  /-- The log files before, the last one first, and whether `RecoverLogFile` returned OK for them. -/
  results : List (ℕ × Bool) := []

/-- How far `LogAndApply` has got with the new manifest. -/
inductive ManifestStage where
  /-- There is no file. -/
  | missing
  /-- There is an empty file. -/
  | created
  /-- `WriteSnapshot` has been called. -/
  | snapshot
  /-- The edit has been added. -/
  | recorded
  deriving DecidableEq

/-- `DB::Open` in its `LogAndApply`. -/
structure Starting (K : Type) where
  /-- The options. -/
  options : OpenOptions
  /-- The directory. -/
  disk : Disk K
  /-- `versions_` -/
  versions : VersionSet K
  /-- `edit` -/
  edit : VersionEdit K
  /-- `logfile_number_` -/
  logFileNumber : ℕ
  /-- What `RecoverLogFile` returned for the log files. -/
  results : List (ℕ × Bool) := []
  /-- How far the manifest is. -/
  stage : ManifestStage := .missing

/-- A database with its process, if there is one. -/
inductive Host (K : Type) where
  /-- There is no process. -/
  | down (disk : Disk K)
  /-- `NewDB` has written a manifest. -/
  | creating (options : OpenOptions) (disk : Disk K)
  /-- `DBImpl::Recover` replays log files. -/
  | recovering (r : Recovering K)
  /-- `DB::Open` starts a new manifest. -/
  | starting (r : Starting K)
  /-- The database is open. -/
  | up (s : DbImpl K)

/-- The directory. -/
def Host.disk : Host K → Disk K
  | .down disk => disk
  | .creating _ disk => disk
  | .recovering r => r.disk
  | .starting r => r.disk
  | .up s => s.disk

/-! ## Creating and recovering -/

/-- `NewDB` up to `SetCurrentFile`. -/
def Disk.newDb (disk : Disk K) (options : OpenOptions) : Disk K :=
  { disk.create ⟨.descriptorFile, 1⟩ with
    records := Function.update disk.records 1
      [{ comparator := some options.comparator
         logNumber := some 0
         nextFileNumber := some 2
         lastSequence := some 0 }] }

/-- The log files that `DBImpl::Recover` replays, in the order in which they were generated. -/
def Disk.logsToRecover (disk : Disk K) (versions : VersionSet K) : List ℕ :=
  ((disk.files.filter fun name => decide (name.type = .logFile) &&
    (decide (versions.logNumber ≤ name.number) ||
      decide (name.number = versions.prevLogNumber))).map (·.number)).insertionSort (· ≤ ·)

section

variable [LinearOrder K]

/-- `VersionSet::Recover` and the listing of the log files. -/
def Disk.recover (disk : Disk K) (options : OpenOptions) : Host K :=
  match disk.current with
  | none => .down disk
  | some manifest =>
    if (⟨.descriptorFile, manifest⟩ : FileName) ∈ disk.files then
      match VersionSet.recover options.comparator (disk.records manifest) with
      | .error _ => .down disk
      | .ok versions =>
        .recovering
          { options := options
            disk := disk
            versions := versions
            logs := disk.logsToRecover versions }
    else .down disk

/-- `DB::Open` begins. -/
def Disk.open (disk : Disk K) (options : OpenOptions) : Host K :=
  if disk.current.isNone then
    if options.createIfMissing then .creating options (disk.newDb options) else .down disk
  else if options.errorIfExists then .down disk
  else disk.recover options

/-- `RecoverLogFile` returns, and its number is marked. -/
def Recovering.endLog (r : Recovering K) (ok : Bool) : Option (Recovering K) :=
  match r.logs with
  | [] => none
  | log :: logs =>
    some
      { r with
        versions := r.versions.markFileNumberUsed log
        logs := logs
        results := (log, ok) :: r.results }

/-- `WriteLevel0Table` of `RecoverLogFile`, which returns the error if there is one. -/
def Recovering.writeLevel0Table (r : Recovering K) (result : BuildResult K) : Option (Recovering K) :=
  let number := r.versions.nextFileNumber
  let t := { r with
    disk := result.apply r.disk number
    versions := { r.versions with nextFileNumber := number + 1 } }
  match r.logs, result with
  | [], _ => none
  | _ :: _, .failed _ => t.endLog false
  | _ :: _, .empty => some t
  | _ :: _, .table fileSize smallest largest =>
    some { t with edit := r.edit.addFile 0 number fileSize smallest largest }

/-- Whether `DBImpl::Recover` returns OK. Each `RecoverLogFile` overwrites the status of the one
before. -/
def Recovering.ok (r : Recovering K) : Bool := (r.results.head?.map Prod.snd).getD true

/-- `DBImpl::Recover` returns OK, with the largest sequence number that it has found, and `DB::Open`
creates a new log file. -/
def Recovering.newLog (r : Recovering K) (maxSequence : ℕ) : Option (Starting K) :=
  match r.logs with
  | _ :: _ => none
  | [] =>
    let number := r.versions.nextFileNumber
    if r.ok then
      some
        { options := r.options
          disk := r.disk.create ⟨.logFile, number⟩
          versions :=
            { r.versions with
              nextFileNumber := number + 1
              lastSequence := max r.versions.lastSequence maxSequence }
          edit := { r.edit with logNumber := some number }
          logFileNumber := number
          results := r.results }
    else none

/-! ## The new manifest -/

/-- The file of the new manifest. -/
def Starting.manifest (r : Starting K) : FileName := ⟨.descriptorFile, r.versions.manifestFileNumber⟩

/-- `LogAndApply` creates the new manifest, writes the snapshot and adds the edit. -/
def Starting.writeManifest (r : Starting K) : Option (Starting K) :=
  let manifest := r.versions.manifestFileNumber
  match r.stage with
  | .missing =>
    some
      { r with
        disk := { r.disk.create r.manifest with
          records := Function.update r.disk.records manifest [] }
        stage := .created }
  | .created =>
    some
      { r with
        disk := r.disk.append manifest (r.versions.snapshotEdit r.options.comparator)
        stage := .snapshot }
  | .snapshot =>
    some
      { r with
        disk := r.disk.append manifest (r.versions.completeEdit r.edit)
        stage := .recorded }
  | .recorded => none

/-- `LogAndApply` fails, and the new manifest is deleted if that is possible. -/
def Starting.fail (r : Starting K) (undeleted : List FileName) : Disk K :=
  if undeleted.contains r.manifest then r.disk else r.disk.delete r.manifest

/-- `LogAndApply` succeeds, and `DB::Open` returns the database. -/
def Starting.finish (r : Starting K) (undeleted : List FileName) : DbImpl K :=
  let versions := r.versions.logAndApply r.edit
  let s : FileState K :=
    { disk := r.disk
      versions := versions
      pool := [⟨0, 1, versions.current.files⟩]
      currentId := 0
      nextId := 1
      logFileNumber := r.logFileNumber }
  { toFileState := s.deleteObsoleteFiles undeleted
    paranoidChecks := r.options.paranoidChecks : DbImpl K }.maybeScheduleCompaction

/-- `SetCurrentFile` in `LogAndApply`, and what follows it. -/
def Starting.switchCurrent (r : Starting K) (result : SwitchResult) (undeleted : List FileName) :
    Option (Host K) :=
  match r.stage with
  | .recorded =>
    let t := { r with disk := result.apply r.disk r.versions.manifestFileNumber }
    some (if result.ok then .up (t.finish undeleted) else .down (t.fail undeleted))
  | _ => none

/-! ## Histories -/

/-- What happens to a database. -/
inductive HostAction (K : Type) where
  /-- `DB::Open` is called. -/
  | open (options : OpenOptions)
  /-- `SetCurrentFile` returns, in `NewDB` or in `LogAndApply`. Some files cannot be deleted after
  it. -/
  | switchCurrent (result : SwitchResult) (undeleted : List FileName)
  /-- `NewDB` fails before that, and deletes its manifest. -/
  | failNewDb
  /-- `RecoverLogFile` writes a table. -/
  | writeLevel0Table (result : BuildResult K)
  /-- `RecoverLogFile` returns. -/
  | endLog (ok : Bool)
  /-- `DBImpl::Recover` returns, and a new log file is created. -/
  | newLog (maxSequence : ℕ)
  /-- `LogAndApply` of `DB::Open` goes on with the new manifest. -/
  | writeManifest
  /-- It fails to do so. -/
  | failManifest (undeleted : List FileName)
  /-- The process crashes, `DB::Open` fails without touching files, or the database is closed. -/
  | crash
  /-- A critical section of the open database. -/
  | step (a : Action K)

/-- One step of a history. -/
def Host.step : Host K → HostAction K → Option (Host K)
  | .down disk, .open options => some (disk.open options)
  | .creating options disk, .switchCurrent result _ =>
    some (if result.ok then (result.apply disk 1).recover options else .down (result.apply disk 1))
  | .creating _ disk, .failNewDb => some (.down (disk.delete ⟨.descriptorFile, 1⟩))
  | .recovering r, .writeLevel0Table result => (r.writeLevel0Table result).map .recovering
  | .recovering r, .endLog ok => (r.endLog ok).map .recovering
  | .recovering r, .newLog maxSequence => (r.newLog maxSequence).map .starting
  | .starting r, .writeManifest => r.writeManifest.map .starting
  | .starting r, .failManifest undeleted => some (.down (r.fail undeleted))
  | .starting r, .switchCurrent result undeleted => r.switchCurrent result undeleted
  | h, .crash => some (.down h.disk)
  | .up s, .step a => (s.step a).map .up
  | _, _ => none

/-- What the steps of a history are. -/
inductive HostStep : Host K → HostAction K → Host K → Prop
  /-- There is no database, and `DB::Open` creates one. -/
  | newDb {disk : Disk K} (options : OpenOptions) (hnone : disk.current = none) :
      HostStep (.down disk) (.open options) (.creating options (disk.newDb options))
  /-- `DB::Open` returns an error at once. -/
  | refused (disk : Disk K) (options : OpenOptions) : HostStep (.down disk) (.open options) (.down disk)
  /-- `DB::Open` recovers the database. -/
  | opened (disk : Disk K) (options : OpenOptions) :
      HostStep (.down disk) (.open options) (disk.recover options)
  /-- `NewDB` succeeds. -/
  | created (options : OpenOptions) (disk : Disk K) {result : SwitchResult} (undeleted : List FileName)
      (hok : result.ok = true) : HostStep (.creating options disk) (.switchCurrent result undeleted)
        ((result.apply disk 1).recover options)
  /-- `SetCurrentFile` fails in `NewDB`. -/
  | notCreated (options : OpenOptions) (disk : Disk K) {result : SwitchResult}
      (undeleted : List FileName) (hok : ¬result.ok = true) :
      HostStep (.creating options disk) (.switchCurrent result undeleted) (.down (result.apply disk 1))
  /-- `NewDB` fails before that. -/
  | failNewDb (options : OpenOptions) (disk : Disk K) :
      HostStep (.creating options disk) .failNewDb (.down (disk.delete ⟨.descriptorFile, 1⟩))
  /-- `RecoverLogFile` writes a table. -/
  | writeLevel0Table {r t : Recovering K} {result : BuildResult K}
      (ht : r.writeLevel0Table result = some t) :
      HostStep (.recovering r) (.writeLevel0Table result) (.recovering t)
  /-- `RecoverLogFile` returns. -/
  | endLog {r t : Recovering K} {ok : Bool} (ht : r.endLog ok = some t) :
      HostStep (.recovering r) (.endLog ok) (.recovering t)
  /-- A new log file is created. -/
  | newLog {r : Recovering K} {t : Starting K} {maxSequence : ℕ} (ht : r.newLog maxSequence = some t) :
      HostStep (.recovering r) (.newLog maxSequence) (.starting t)
  /-- `LogAndApply` goes on with the new manifest. -/
  | writeManifest {r t : Starting K} (ht : r.writeManifest = some t) :
      HostStep (.starting r) .writeManifest (.starting t)
  /-- It fails to do so. -/
  | failManifest (r : Starting K) (undeleted : List FileName) :
      HostStep (.starting r) (.failManifest undeleted) (.down (r.fail undeleted))
  /-- `SetCurrentFile` succeeds, and the database is open. -/
  | finished {r : Starting K} {result : SwitchResult} (undeleted : List FileName)
      (hstage : r.stage = .recorded) (hok : result.ok = true) :
      HostStep (.starting r) (.switchCurrent result undeleted)
        (.up (Starting.finish { r with disk := result.apply r.disk r.versions.manifestFileNumber }
          undeleted))
  /-- `SetCurrentFile` fails. -/
  | notFinished {r : Starting K} {result : SwitchResult} (undeleted : List FileName)
      (hstage : r.stage = .recorded) (hok : ¬result.ok = true) :
      HostStep (.starting r) (.switchCurrent result undeleted)
        (.down (Starting.fail { r with disk := result.apply r.disk r.versions.manifestFileNumber }
          undeleted))
  /-- There is no process any more. -/
  | crash (h : Host K) : HostStep h .crash (.down h.disk)
  /-- A critical section of the open database. -/
  | step {s t : DbImpl K} {a : Action K} (ht : s.step a = some t) : HostStep (.up s) (.step a) (.up t)

/-- Every step of a history is one of these. -/
theorem Host.hostStep {h h' : Host K} {a : HostAction K} (hs : h.step a = some h') : HostStep h a h' := by
  unfold Host.step at hs
  split at hs
  · obtain rfl := Option.some.inj hs
    unfold Disk.open
    split_ifs with hnone
    · exact .newDb _ (Option.isNone_iff_eq_none.mp hnone)
    · exact .refused _ _
    · exact .refused _ _
    · exact .opened _ _
  · obtain rfl := Option.some.inj hs
    split_ifs with hok
    · exact .created _ _ _ hok
    · exact .notCreated _ _ _ hok
  · obtain rfl := Option.some.inj hs
    exact .failNewDb _ _
  · obtain ⟨t, ht, rfl⟩ := Option.map_eq_some_iff.mp hs
    exact .writeLevel0Table ht
  · obtain ⟨t, ht, rfl⟩ := Option.map_eq_some_iff.mp hs
    exact .endLog ht
  · obtain ⟨t, ht, rfl⟩ := Option.map_eq_some_iff.mp hs
    exact .newLog ht
  · obtain ⟨t, ht, rfl⟩ := Option.map_eq_some_iff.mp hs
    exact .writeManifest ht
  · obtain rfl := Option.some.inj hs
    exact .failManifest _ _
  · unfold Starting.switchCurrent at hs
    split at hs
    · rename_i hstage
      obtain rfl := Option.some.inj hs
      split_ifs with hok
      · exact .finished _ hstage hok
      · exact .notFinished _ hstage hok
    · cases hs
  · obtain rfl := Option.some.inj hs
    exact .crash _
  · obtain ⟨t, ht, rfl⟩ := Option.map_eq_some_iff.mp hs
    exact .step ht
  · cases hs

/-- A history of actions that all meet a condition leads from one state to another. -/
inductive Host.Reaches (cond : Host K → HostAction K → Prop) : Host K → Host K → Prop
  /-- Nothing happens. -/
  | refl (h : Host K) : Reaches cond h h
  /-- One more step. -/
  | step {h h' h'' : Host K} {a : HostAction K} (hr : Reaches cond h h') (hc : cond h' a)
      (hs : h'.step a = some h'') : Reaches cond h h''

/-- A directory without a database. -/
def Host.empty : Host K := .down {}

/-- A state that some history reaches from an empty directory. -/
def Host.Reachable (h : Host K) : Prop := Reaches (fun _ _ => True) empty h

/-- An invariant of every step is an invariant of every history. -/
theorem Host.Reaches.induct {cond : Host K → HostAction K → Prop} {P : Host K → Prop} {h h' : Host K}
    (hr : Reaches cond h h') (hinit : P h)
    (hstep : ∀ h₁ a h₂, P h₁ → cond h₁ a → h₁.step a = some h₂ → P h₂) : P h' := by
  induction hr with
  | refl => exact hinit
  | step _ hc hs ih => exact hstep _ _ _ ih hc hs

/-- The state after some actions, if they can be taken. -/
def Host.run : Host K → List (HostAction K) → Option (Host K)
  | h, [] => some h
  | h, a :: as => (h.step a).bind fun h' => h'.run as

/-- The open database, if there is one. -/
def Host.impl? : Host K → Option (DbImpl K)
  | .up s => some s
  | _ => none

/-- A list of actions that ends with an open database of some kind. -/
theorem Host.exists_of_run (h : Host K) (as : List (HostAction K)) {P : DbImpl K → Prop}
    [DecidablePred P] (hrun : ((h.run as).bind impl?).any (fun s => decide (P s)) = true) :
    ∃ s, h.run as = some (.up s) ∧ P s := by
  cases hr : h.run as with
  | none =>
    rw [hr] at hrun
    cases hrun
  | some h' =>
    rw [hr] at hrun
    cases h' with
    | up s => exact ⟨s, rfl, of_decide_eq_true hrun⟩
    | _ => cases hrun

/-- A history whose actions meet a condition can be continued by another one. -/
theorem Host.Reaches.trans {cond : Host K → HostAction K → Prop} {h h' h'' : Host K}
    (hr : Reaches cond h h') (hr' : Reaches cond h' h'') : Reaches cond h h'' := by
  induction hr' with
  | refl => exact hr
  | step _ hc hs ih => exact ih.step hc hs

/-- A list of actions that can be taken, each of which meets a condition, is such a history. -/
theorem Host.reaches_of_run {cond : Host K → HostAction K → Prop} {as : List (HostAction K)}
    (hc : ∀ h, ∀ a ∈ as, cond h a) {h h' : Host K} (hr : h.run as = some h') : Reaches cond h h' := by
  induction as generalizing h with
  | nil =>
    obtain rfl := Option.some.inj hr
    exact .refl h
  | cons a as ih =>
    obtain ⟨h₁, hs, hr'⟩ := Option.bind_eq_some_iff.mp hr
    have hone : Reaches cond h h₁ := (Reaches.refl h).step (hc h a List.mem_cons_self) hs
    exact hone.trans (ih (fun h b hb => hc h b (List.mem_cons_of_mem _ hb)) hr')

end

end LevelDb
