import LevelDb.Db.CriticalSections

/-!
# Runs as histories

`DB::Open` of `Db` is one call, and of `Host` a list of steps: one for each table that `RecoverLogFile`
writes, one for each log file, the new log, the records of the new manifest and `SetCurrentFile`. They do
the same (`Disk.Holds.performs`). With the critical sections of the other calls, every run of a new database
is a history of `Host` (`run_history`), so that the invariants of histories hold after every run
(`run_numbers`).
-/

namespace LevelDb

open Lib

variable {K V : Type}

/-! ## Log files -/

/-- The log files that the two models replay are the same. -/
theorem Disk.logsToRecover_eq {disk : Disk K} {logs : List (ℕ × List (WriteBatch K V))}
    (h : disk.logNumbers.Perm (logs.map (·.1))) (vs : VersionSet K) :
    disk.logsToRecover vs = (LevelDb.logsToRecover vs logs).map (·.1) := by
  have hfilter : ((disk.files.filter fun name => decide (name.type = .logFile) &&
      (decide (vs.logNumber ≤ name.number) || decide (name.number = vs.prevLogNumber))).map (·.number)) =
      disk.logNumbers.filter vs.replays := by
    unfold Disk.logNumbers
    rw [List.filter_map, List.filter_filter]
    congr 1
    exact List.filter_congr fun name _ => Bool.and_comm _ _
  have hperm : (disk.logsToRecover vs).Perm ((LevelDb.logsToRecover vs logs).map (·.1)) := by
    unfold Disk.logsToRecover LevelDb.logsToRecover
    rw [hfilter]
    refine (List.perm_insertionSort _ _).trans ((h.filter vs.replays).trans ?_)
    rw [List.filter_map]
    exact (List.perm_insertionSort _ _).symm.map Prod.fst
  have hsorted : (disk.logsToRecover vs).Pairwise (· ≤ ·) := List.pairwise_insertionSort _ _
  have : Std.Total fun a b : ℕ × List (WriteBatch K V) => a.1 ≤ b.1 := ⟨fun a b => le_total a.1 b.1⟩
  have : IsTrans (ℕ × List (WriteBatch K V)) fun a b => a.1 ≤ b.1 := ⟨fun _ _ _ => le_trans⟩
  have hsorted' : ((LevelDb.logsToRecover vs logs).map (·.1)).Pairwise (· ≤ ·) :=
    List.pairwise_map.mpr (List.pairwise_insertionSort _ _)
  exact hperm.eq_of_pairwise (fun a b _ _ => le_antisymm) hsorted hsorted'

/-- What a step of `DBImpl::Recover` leaves alone. -/
structure Recovering.Frame (r t : Recovering K) : Prop where
  /-- The options. -/
  options : t.options = r.options
  /-- The log files in the directory. -/
  logNumbers : t.disk.logNumbers = r.disk.logNumbers

/-- `DBImpl::Recover` has got as far as a recovery that knows what the logs hold. -/
structure Recovering.Follows (r : Recovering K) (recovery : Recovery K V) : Prop where
  /-- The version set. -/
  versions : r.versions = recovery.writer.versions
  /-- The edit. -/
  edit : r.edit = recovery.writer.edit
  /-- No log file has failed. -/
  ok : r.ok = true

section

variable [LinearOrder K]

/-- `WriteLevel0Table` in `RecoverLogFile` is one step. -/
theorem Recovering.Follows.writeLevel0Table {r : Recovering K} {recovery : Recovery K V}
    (h : r.Follows recovery) (hlogs : r.logs ≠ []) (o : DbOptions K V) (mem : List (Entry K V)) :
    ∃ t : Recovering K, (Host.recovering r).Succeeds (.recovering t) ∧
      t.Follows { recovery with writer := recovery.writer.writeLevel0Table o mem none } ∧
      t.logs = r.logs ∧ r.Frame t := by
  obtain ⟨hversions, hedit⟩ := TableWriter.writeLevel0Table_addTo o recovery.writer mem none
  have hok := BuildResult.ofMemTable_ok o mem
  generalize BuildResult.ofMemTable o mem = result at hedit hok
  set t : Recovering K := { r with
    disk := result.apply r.disk r.versions.nextFileNumber
    versions := { r.versions with nextFileNumber := r.versions.nextFileNumber + 1 }
    edit := result.addTo r.edit none r.versions.nextFileNumber } with ht
  have hstep : r.writeLevel0Table result = some t := by
    obtain ⟨log, logs, hcons⟩ := List.exists_cons_of_ne_nil hlogs
    rw [ht]
    unfold Recovering.writeLevel0Table
    dsimp only
    rw [hcons]
    cases result with
    | failed left => cases hok
    | empty => rfl
    | table fileSize smallest largest => rfl
  refine ⟨t, Host.Succeeds.head (a := .writeLevel0Table result) hok
    (congrArg (Option.map Host.recovering) hstep) (.refl _), ⟨?_, ?_, h.ok⟩, rfl, rfl,
    result.logNumbers_apply _ _⟩
  · rw [hversions, ← h.versions]
  · rw [hedit, ← h.versions, ← h.edit]

omit [LinearOrder K] in
/-- Two parts of `DBImpl::Recover`. -/
theorem Recovering.Frame.trans {r t u : Recovering K} (h : r.Frame t) (h' : t.Frame u) : r.Frame u :=
  ⟨h'.options.trans h.options, h'.logNumbers.trans h.logNumbers⟩

/-- Histories after one another. -/
theorem Host.Succeeds.trans {h h' h'' : Host K} (hr : h.Succeeds h') (hr' : h'.Succeeds h'') :
    h.Succeeds h'' :=
  Host.Reaches.trans hr hr'

variable [Inhabited V]

/-- The loop of `RecoverLogFile` is a step for each table that it writes, by induction on the records. -/
theorem Recovering.Follows.replay (o : DbOptions K V) :
    ∀ (batches : List (WriteBatch K V)) (mem : Option (List (Entry K V))) {r : Recovering K}
      {recovery : Recovery K V}, r.Follows recovery → r.logs ≠ [] →
    ∃ t : Recovering K, (Host.recovering r).Succeeds (.recovering t) ∧
      t.Follows (recovery.replay o batches mem) ∧ t.logs = r.logs ∧ r.Frame t
  | [], none, r, _, h, _ => ⟨r, .refl _, h, rfl, rfl, rfl⟩
  | [], some mem, _, _, h, hlogs => h.writeLevel0Table hlogs o mem
  | b :: batches, mem, r, recovery, h, hlogs => by
    have hnext : r.Follows
        { recovery with maxSequence := max recovery.maxSequence (b.sequence + b.count - 1) } :=
      ⟨h.versions, h.edit, h.ok⟩
    unfold Recovery.replay
    dsimp only
    split_ifs
    · obtain ⟨t, hreach, ht, htlogs, hframe⟩ :=
        hnext.writeLevel0Table hlogs o (insertInto (mem.getD []) b)
      obtain ⟨u, hreach', hu, hulogs, hframe'⟩ :=
        Recovering.Follows.replay o batches none ht (htlogs.symm ▸ hlogs)
      exact ⟨u, hreach.trans hreach', hu, hulogs.trans htlogs, hframe.trans hframe'⟩
    · exact Recovering.Follows.replay o batches _ hnext hlogs

/-- `DBImpl::Recover` replays the log files one after the other, by induction on them. -/
theorem Recovering.Follows.recoverLogFiles (o : DbOptions K V) :
    ∀ (logs : List (ℕ × List (WriteBatch K V))) {r : Recovering K} {recovery : Recovery K V},
      r.Follows recovery → r.logs = logs.map (·.1) →
    ∃ t : Recovering K, (Host.recovering r).Succeeds (.recovering t) ∧
      t.Follows (logs.foldl (Recovery.recoverLogFile o) recovery) ∧ t.logs = [] ∧ r.Frame t
  | [], r, _, h, hlogs => ⟨r, .refl _, h, hlogs, rfl, rfl⟩
  | log :: logs, r, recovery, h, hlogs => by
    have hne : r.logs ≠ [] := hlogs ▸ List.cons_ne_nil _ _
    obtain ⟨t, hreach, ht, htlogs, hframe⟩ := Recovering.Follows.replay o log.2 none h hne
    set u : Recovering K := { t with
      versions := t.versions.markFileNumberUsed log.1
      logs := logs.map (·.1)
      results := (log.1, true) :: t.results } with hu
    have hend : t.endLog true = some u := by
      unfold Recovering.endLog
      rw [htlogs, hlogs]
      rfl
    have hufollows : u.Follows (recovery.recoverLogFile o log) :=
      ⟨congrArg (VersionSet.markFileNumberUsed · log.1) ht.versions, ht.edit, rfl⟩
    obtain ⟨v, hreach', hv, hvlogs, hframe'⟩ := Recovering.Follows.recoverLogFiles o logs hufollows rfl
    have hstep : (Host.recovering t).Succeeds (.recovering v) :=
      Host.Succeeds.head (a := .endLog true) rfl (congrArg (Option.map Host.recovering) hend) hreach'
    exact ⟨v, hreach.trans hstep, hv, hvlogs, hframe.trans ⟨hframe'.options, hframe'.logNumbers⟩⟩

/-! ## The new manifest -/

omit [Inhabited V] in
/-- `LogAndApply` of `DB::Open` writes the records of the new manifest, and `SetCurrentFile` names it. -/
theorem Starting.reaches_up (r : Starting K) (hstage : r.stage = .missing) :
    ∃ disk : Disk K, (Host.starting r).Succeeds
        (.up (Starting.finish { r with disk := disk, stage := .recorded } [])) ∧
      disk.Holds r.versions.manifestFileNumber
        [r.versions.snapshotEdit r.options.comparator, r.versions.completeEdit r.edit] r.disk.logNumbers := by
  obtain ⟨options, disk, versions, edit, logFileNumber, results, stage⟩ := r
  obtain rfl : stage = .missing := hstage
  set number := versions.manifestFileNumber with hnumber
  set created : Disk K := { disk.create ⟨.descriptorFile, number⟩ with
    records := Function.update disk.records number [] } with hcreated
  set snapshot := created.append number (versions.snapshotEdit options.comparator) with hsnapshot
  set recorded := snapshot.append number (versions.completeEdit edit) with hrecorded
  -- How far the manifest is, with this directory.
  set state : Disk K → ManifestStage → Starting K := fun d stage =>
    ⟨options, d, versions, edit, logFileNumber, results, stage⟩ with hstate
  have hcreate : (Host.starting (state disk .missing)).step .writeManifest =
      some (.starting (state created .created)) := rfl
  have hwrite : (Host.starting (state created .created)).step .writeManifest =
      some (.starting (state snapshot .snapshot)) := rfl
  have hadd : (Host.starting (state snapshot .snapshot)).step .writeManifest =
      some (.starting (state recorded .recorded)) := rfl
  have hswitch : (Host.starting (state recorded .recorded)).step (.switchCurrent .switched []) =
      some (.up (Starting.finish (state { recorded with current := some number } .recorded) [])) := rfl
  refine ⟨{ recorded with current := some number }, ?_, rfl, List.mem_insert_self, ?_, ?_⟩
  · exact Host.Succeeds.head (a := .writeManifest) trivial hcreate
      (Host.Succeeds.head (a := .writeManifest) trivial hwrite
        (Host.Succeeds.head (a := .writeManifest) trivial hadd
          (Host.Succeeds.head (a := .switchCurrent .switched []) ⟨rfl, rfl⟩ hswitch (.refl _))))
  · have hfirst : created.records number = [] := Function.update_self _ _ _
    show recorded.records number = _
    rw [hrecorded, Disk.append_records_self, hsnapshot, Disk.append_records_self, hfirst]
    rfl
  · show (disk.create ⟨.descriptorFile, number⟩).logNumbers.Perm _
    rw [Disk.logNumbers_create FileType.noConfusion]

/-! ## `DB::Open` -/

omit [Inhabited V] in
/-- What can be reached without a failure can be reached. -/
theorem Host.Succeeds.reachable {h h' : Host K} (hr : h.Succeeds h') (hreach : h.Reachable) :
    h'.Reachable := by
  refine hreach.trans ?_
  unfold Host.Succeeds at hr
  induction hr with
  | refl => exact .refl _
  | step _ _ hs ih => exact ih.step trivial hs

/-- `DB::Open` leads to a process that carries the database that it returns. -/
theorem Disk.Holds.performs {o : DbOptions K V} {disk : Disk K} {manifest : ℕ}
    {records : List (VersionEdit K)} {tables : Tables K V} {logs : List (ℕ × List (WriteBatch K V))}
    (h : disk.Holds manifest records (logs.map (·.1))) {options : OpenOptions}
    (hcomparator : options.comparator = o.comparator) (hreach : (disk.recover options).Reachable)
    {db : Db K V} (hopen : openDb o records tables logs = .ok db) : (disk.recover options).Performs db := by
  unfold openDb at hopen
  cases hrec : VersionSet.recover o.comparator records with
  | error e =>
    rw [hrec] at hopen
    cases hopen
  | ok vs =>
    rw [hrec] at hopen
    simp only [bind, Except.bind, pure, Except.pure] at hopen
    obtain rfl := Except.ok.inj hopen
    set r : Recovering K := { options := options, disk := disk, versions := vs,
                              logs := disk.logsToRecover vs } with hr
    have hstart : disk.recover options = .recovering r := by
      unfold Disk.recover
      rw [h.current]
      dsimp only
      rw [if_pos h.mem, h.records_eq, hcomparator, hrec]
    have hfollows : r.Follows (⟨⟨vs, tables, {}⟩, 0⟩ : Recovery K V) := ⟨rfl, rfl, rfl⟩
    obtain ⟨t, hreplay, ht, htlogs, hframe⟩ :=
      hfollows.recoverLogFiles o (LevelDb.logsToRecover vs logs) (Disk.logsToRecover_eq h.logs vs)
    rw [hstart] at hreach ⊢
    have hnumbered := (hreplay.reachable hreach).numbered.2
    generalize (LevelDb.logsToRecover vs logs).foldl (Recovery.recoverLogFile o)
      ⟨⟨vs, tables, {}⟩, 0⟩ = done at *
    -- The new log file has a number that no log file has.
    have hnew : (⟨.logFile, t.versions.nextFileNumber⟩ : FileName) ∉ t.disk.files := fun hmem => by
      rcases Recovering.Numbered.logs hnumbered _ hmem with hlt | hleft
      · exact absurd hlt (Nat.lt_irrefl _)
      · rw [htlogs] at hleft
        exact absurd hleft List.not_mem_nil
    have hlast : done.setLastSequence = { done.writer.versions with
        lastSequence := max done.writer.versions.lastSequence done.maxSequence } := by
      unfold Recovery.setLastSequence
      split_ifs with hlt
      · rw [max_eq_right hlt.le]
      · rw [max_eq_left (not_lt.mp hlt)]
    rw [hlast]
    set number := done.writer.versions.nextFileNumber with hnumber
    set versions : VersionSet K := { done.writer.versions with
      nextFileNumber := number + 1
      lastSequence := max done.writer.versions.lastSequence done.maxSequence } with hversions
    set edit : VersionEdit K := { done.writer.edit with logNumber := some number } with hedit
    set u : Starting K :=
      { options := options
        disk := t.disk.create ⟨.logFile, number⟩
        versions := versions
        edit := edit
        logFileNumber := number
        results := t.results } with hu
    have hlog : (Host.recovering t).step (.newLog done.maxSequence) = some (.starting u) := by
      show (t.newLog done.maxSequence).map Host.starting = _
      unfold Recovering.newLog
      rw [htlogs]
      dsimp only
      rw [if_pos ht.ok, ht.versions, ht.edit, hframe.options]
      rfl
    obtain ⟨disk', hopened, hholds⟩ := u.reaches_up rfl
    refine ⟨_, hreplay.trans (Host.Succeeds.head (a := .newLog done.maxSequence) trivial hlog hopened),
      DbImpl.Carries.maybeScheduleCompaction ⟨?_, ⟨rfl, rfl⟩, rfl, rfl, rfl⟩⟩
    set before : Db K V :=
      { versions := versions.logAndApply edit
        manifest := [versions.snapshotEdit o.comparator, versions.completeEdit edit]
        tables := done.writer.tables
        oldLogs := logs
        logFileNumber := number
        log := []
        mem := []
        imm := none
        snapshots := []
        compacting := none } with hbefore
    refine FileState.Carries.deleteObsoleteFiles (?_ : FileState.Carries _ before) (le_refl number)
    refine ⟨rfl, rfl, rfl, ?_⟩
    obtain ⟨hcurrent, hmem, hrecords, hlogs⟩ := hholds
    rw [show u.options.comparator = o.comparator from hcomparator] at hrecords
    refine ⟨hcurrent, hmem, hrecords, hlogs.trans ?_⟩
    show (t.disk.create ⟨.logFile, number⟩).logNumbers.Perm (logs.map (·.1) ++ [number])
    rw [ht.versions] at hnew
    rw [Disk.logNumbers_createLog hnew, hframe.logNumbers]
    exact (h.logs.cons number).trans (List.perm_append_singleton _ _).symm

/-- `NewDB` and `DB::Open` lead to a process that carries a new database. -/
theorem Host.empty_performs {o : DbOptions K V} {db : Db K V} (hcreate : createDb o = .ok db) :
    (Host.empty : Host K).Performs db := by
  set options : OpenOptions :=
    { comparator := o.comparator, createIfMissing := true, errorIfExists := false, paranoidChecks := false }
    with hoptions
  set disk : Disk K := { ({} : Disk K).newDb options with current := some 1 } with hdisk
  have hnew : (Host.empty : Host K).step (.open options) =
      some (.creating options (({} : Disk K).newDb options)) := rfl
  have hswitch : (Host.creating options (({} : Disk K).newDb options)).step (.switchCurrent .switched []) =
      some (disk.recover options) := rfl
  have hreach : (Host.empty : Host K).Succeeds (disk.recover options) :=
    Host.Succeeds.head (a := .open options) trivial hnew
      (Host.Succeeds.head (a := .switchCurrent .switched []) ⟨rfl, rfl⟩ hswitch (.refl _))
  have hholds : disk.Holds 1 (newDbManifest o) (([] : List (ℕ × List (WriteBatch K V))).map (·.1)) := by
    refine ⟨rfl, ?_, ?_, List.Perm.refl _⟩
    · show (⟨.descriptorFile, 1⟩ : FileName) ∈ List.insert ⟨.descriptorFile, 1⟩ []
      exact List.mem_insert_self
    · show Function.update (fun _ => []) 1 _ 1 = newDbManifest o
      exact Function.update_self _ _ _
  obtain ⟨p, hopened, hcarries⟩ := hholds.performs rfl (hreach.reachable (.refl _)) hcreate
  exact ⟨p, hreach.trans hopened, hcarries⟩

/-! ## Runs -/

/-- The critical sections of every step lead to a process that carries the database after it. -/
theorem DbImpl.Carries.step {o : DbOptions K V} {p : DbImpl K} {db db' : Db K V} (h : p.Carries db)
    (hreach : (Host.up p).Reachable) {a : Step K V} (hstep : db.step o a = some db') :
    (Host.up p).Performs db' := by
  obtain ⟨hs, hn⟩ := hreach.numbered
  cases a with
  | write updates =>
    obtain rfl := Option.some.inj hstep
    exact h.write updates
  | get key snapshot =>
    unfold Db.step at hstep
    dsimp only at hstep
    split_ifs at hstep
    obtain rfl := Option.some.inj hstep
    exact h.get key snapshot
  | getSnapshot | releaseSnapshot =>
    -- The process does not know the snapshots.
    obtain rfl := Option.some.inj hstep
    obtain ⟨hversions, hnumber, himm, hdisk⟩ := h.files
    exact DbImpl.Carries.performs
      ⟨⟨hversions, hnumber, himm, hdisk⟩, h.works, h.logger, h.shuttingDown, h.bgError⟩
  | switchMemTable => exact h.switchMemTable hn hstep
  | compactMemTable => exact h.compactMemTable hs hstep
  | beginCompaction => exact h.beginCompaction hs hstep
  | beginManual level first last => exact h.beginManual hs hstep
  | workCompaction => exact h.workCompaction hn hstep
  | finishCompaction => exact h.finishCompaction hn hstep
  | reopen =>
    have hopen : openDb o db.manifest db.tables (db.oldLogs ++ [(db.logFileNumber, db.log)]) = .ok db' := by
      unfold Db.step at hstep
      dsimp only at hstep
      cases hresult : db.reopen o with
      | error e =>
        rw [hresult] at hstep
        cases hstep
      | ok db₁ =>
        rw [hresult] at hstep
        obtain rfl := Option.some.inj hstep
        exact hresult
    set options : OpenOptions :=
      { comparator := o.comparator, createIfMissing := true, errorIfExists := false, paranoidChecks := false }
      with hoptions
    have hholds : p.disk.Holds db.versions.manifestFileNumber db.manifest
        ((db.oldLogs ++ [(db.logFileNumber, db.log)]).map (·.1)) := by
      rw [List.map_append]
      exact h.files.disk
    have hdown : (Host.down p.disk).step (.open options) = some (p.disk.recover options) := by
      show some (p.disk.open options) = _
      unfold Disk.open
      rw [hholds.current]
      rfl
    have hclosed : (Host.up p).Succeeds (p.disk.recover options) :=
      Host.Succeeds.head (a := .crash) trivial (show (Host.up p).step .crash = some (.down p.disk) from rfl)
        (Host.Succeeds.head (a := .open options) trivial hdown (.refl _))
    obtain ⟨q, hopened, hcarries⟩ := hholds.performs rfl (hclosed.reachable hreach) hopen
    exact ⟨q, hclosed.trans hopened, hcarries⟩

/-- The critical sections of a run lead to a process that carries the database after it, by induction on
the steps. -/
theorem DbImpl.Carries.run {o : DbOptions K V} {db' : Db K V} : ∀ {steps : List (Step K V)} {p : DbImpl K}
    {db : Db K V}, p.Carries db → (Host.up p).Reachable → db.run o steps = some db' →
    (Host.up p).Performs db'
  | [], _, _, h, _, hrun => Option.some.inj hrun ▸ h.performs
  | a :: steps, _, db, h, hreach, hrun => by
    obtain ⟨db₁, hstep, hrest⟩ := Option.bind_eq_some_iff.mp hrun
    obtain ⟨q, hq, hcarries⟩ := h.step hreach hstep
    obtain ⟨p', hp', hcarries'⟩ := hcarries.run (hq.reachable hreach) hrest
    exact ⟨p', hq.trans hp', hcarries'⟩

/-- Every run of a new database is also a history of critical sections in which every call of the environment
succeeds: after it, the process carries the database that the run reaches. -/
theorem run_history (o : DbOptions K V) (db₀ db : Db K V) (steps : List (Step K V))
    (hcreate : createDb o = .ok db₀) (hrun : db₀.run o steps = some db) :
    ∃ p : DbImpl K, (Host.empty : Host K).Succeeds (.up p) ∧ p.Carries db := by
  obtain ⟨p, hp, hcarries⟩ := Host.empty_performs hcreate
  obtain ⟨q, hq, hcarries'⟩ := hcarries.run (hp.reachable (.refl _)) hrun
  exact ⟨q, hp.trans hq, hcarries'⟩

/-- After every run the numbers of tables and logs are below the next one, and the current log is one that
recovery replays: the process that carries the database numbers its files so. -/
theorem run_numbers (o : DbOptions K V) (db₀ db : Db K V) (steps : List (Step K V))
    (hcreate : createDb o = .ok db₀) (hrun : db₀.run o steps = some db) :
    (∀ n ∈ fileNumbers db.versions.current.files, n < db.versions.nextFileNumber) ∧
      (∀ n ∈ db.logNumbers, n < db.versions.nextFileNumber) ∧
      db.versions.logNumber ≤ db.logFileNumber := by
  obtain ⟨p, hp, hcarries⟩ := run_history o db₀ db steps hcreate hrun
  have hn : p.Numbered p.running := (hp.reachable (.refl _)).numbered.2
  obtain ⟨hversions, hnumber, -, hdisk⟩ := hcarries.files
  rw [← hversions, ← hnumber]
  refine ⟨hn.tables.lt p.currentVersion (FileState.mem_held.mpr (Or.inl rfl)), fun n hmem => ?_,
    hn.logs.logNumber_le⟩
  -- The log files of the database are those of the directory.
  obtain ⟨name, hname, rfl⟩ := List.mem_map.mp (hdisk.logs.mem_iff.mpr hmem)
  obtain ⟨hfile, htype⟩ := List.mem_filter.mp hname
  obtain ⟨type, number⟩ := name
  obtain rfl : type = .logFile := of_decide_eq_true htype
  exact hn.logs.lt number hfile

end

end LevelDb
