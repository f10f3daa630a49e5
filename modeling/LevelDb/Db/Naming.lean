import LevelDb.Db.Numbers
import LevelDb.Env.FileName

/-!
# Names of new files

Over the whole life of a database, with crashes at any point and failures of any file operation, a new
file never takes the name of a file that is still needed. Before `DB::Open` has started its new
manifest, `next_file_number_` need not be above the numbers of the logs that are left to replay: a
table may then get the number of a log, and only the suffix of its name tells it from the log.
-/

namespace LevelDb

open Lib

variable {K : Type}

/-! ## Opening -/

/-- The manifest that `CURRENT` names, if it names one, has its numbers in order. -/
def Disk.Bounded (disk : Disk K) : Prop :=
  ∀ m, disk.current = some m → ∃ next, ManifestBounded m (disk.records m) next

/-- The counters of a version set that has been recovered, and the edit that goes with it. -/
structure VersionSet.Ahead (vs : VersionSet K) (edit : VersionEdit K) : Prop where
  /-- The number of the next manifest. -/
  manifest_lt : vs.manifestFileNumber < vs.nextFileNumber
  /-- The log number. -/
  logNumber_lt : vs.logNumber < vs.nextFileNumber
  /-- The version is tidy. -/
  tidy : vs.current.Tidy
  /-- The numbers of tables. -/
  tables_lt : ∀ n ∈ fileNumbers vs.current.files, n < vs.nextFileNumber
  /-- The numbers of new tables. -/
  edit_lt : ∀ l f, (l, f) ∈ edit.newFiles → f.number < vs.nextFileNumber

/-- A version set whose counter is ahead of an edit stays ahead when more numbers are in use. -/
theorem VersionSet.Ahead.mono {vs : VersionSet K} {edit : VersionEdit K} (h : vs.Ahead edit)
    {next : ℕ} (last : ℕ) (hnext : vs.nextFileNumber ≤ next) :
    ({ vs with nextFileNumber := next, lastSequence := last } : VersionSet K).Ahead edit :=
  ⟨h.manifest_lt.trans_le hnext, h.logNumber_lt.trans_le hnext, h.tidy,
    fun n hn => (h.tables_lt n hn).trans_le hnext,
    fun l f hf => (h.edit_lt l f hf).trans_le hnext⟩

/-- The number of a log is marked. -/
theorem VersionSet.markFileNumberUsed_eq (vs : VersionSet K) (n : ℕ) : ∃ next,
    vs.markFileNumberUsed n = { vs with nextFileNumber := next } ∧ vs.nextFileNumber ≤ next ∧
      n < next := by
  unfold VersionSet.markFileNumberUsed
  split_ifs with h
  · exact ⟨n + 1, rfl, h.trans (Nat.le_succ n), Nat.lt_succ_self n⟩
  · exact ⟨vs.nextFileNumber, rfl, le_rfl, not_le.mp h⟩

/-- `CURRENT` names an older manifest than the next one. -/
structure Disk.Behind (disk : Disk K) (manifest : ℕ) : Prop where
  /-- Its numbers are in order. -/
  bounded : disk.Bounded
  /-- It is older. -/
  current_lt : ∀ m, disk.current = some m → m < manifest

/-- Manifests depend on `CURRENT` and the records. -/
theorem Disk.Behind.congr {disk disk' : Disk K} {manifest : ℕ} (h : disk.Behind manifest)
    (hrecords : disk'.records = disk.records) (hcurrent : disk'.current = disk.current) :
    disk'.Behind manifest := by
  constructor
  · intro m hm
    rw [hrecords]
    exact h.bounded m (hcurrent ▸ hm)
  · exact fun m hm => h.current_lt m (hcurrent ▸ hm)

/-- Only the next manifest is written. -/
theorem Disk.Behind.update {disk disk' : Disk K} {manifest : ℕ} (h : disk.Behind manifest)
    (hrecords : ∀ m, m ≠ manifest → disk'.records m = disk.records m)
    (hcurrent : disk'.current = disk.current) : disk'.Behind manifest := by
  constructor
  · intro m hm
    rw [hcurrent] at hm
    rw [hrecords m (h.current_lt m hm).ne]
    exact h.bounded m hm
  · exact fun m hm => h.current_lt m (hcurrent ▸ hm)

/-- The invariant of `DBImpl::Recover`. -/
structure Recovering.Numbered (r : Recovering K) : Prop where
  /-- What `CURRENT` names. -/
  behind : r.disk.Behind r.versions.manifestFileNumber
  /-- The counters. -/
  ahead : r.versions.Ahead r.edit
  /-- A log is left to replay if its number may still be above the counter. -/
  logs : ∀ n, (⟨.logFile, n⟩ : FileName) ∈ r.disk.files → n < r.versions.nextFileNumber ∨ n ∈ r.logs

/-- The records of the next manifest. -/
def Starting.written (r : Starting K) : List (VersionEdit K) :=
  match r.stage with
  | .missing | .created => []
  | .snapshot => [r.versions.snapshotEdit r.options.comparator]
  | .recorded => [r.versions.snapshotEdit r.options.comparator, r.versions.completeEdit r.edit]

/-- The invariant of `DB::Open` in its `LogAndApply`. -/
structure Starting.Numbered (r : Starting K) : Prop where
  /-- What `CURRENT` names. -/
  behind : r.disk.Behind r.versions.manifestFileNumber
  /-- The counters. -/
  ahead : r.versions.Ahead r.edit
  /-- Logs. -/
  logs : ∀ n, (⟨.logFile, n⟩ : FileName) ∈ r.disk.files → n < r.versions.nextFileNumber
  /-- The new log. -/
  logFile_lt : r.logFileNumber < r.versions.nextFileNumber
  /-- It is the one that the edit records. -/
  edit_logNumber : r.edit.logNumber = some r.logFileNumber
  /-- The next manifest. -/
  records : r.stage ≠ .missing → r.disk.records r.versions.manifestFileNumber = r.written

/-- The invariant about numbers. -/
def Host.Numbered : Host K → Prop
  | .down disk => disk.Bounded
  | .creating _ disk => disk.current = none ∧ ManifestBounded 1 (disk.records 1) 2
  | .recovering r => r.Numbered
  | .starting r => r.Numbered
  | .up s => s.Numbered s.running

/-- A crash leaves a directory in order. -/
theorem Host.Numbered.disk_bounded {h : Host K} (hn : h.Numbered) : h.disk.Bounded := by
  cases h with
  | down disk => exact hn
  | creating options disk =>
    intro m hm
    have hnone : some m = none := hm.symm.trans hn.1
    cases hnone
  | recovering r => exact Recovering.Numbered.behind hn |>.bounded
  | starting r => exact Starting.Numbered.behind hn |>.bounded
  | up s => exact (FileState.Numbered.manifests hn).current

section

variable [LinearOrder K]

/-- `VersionSet::Recover` of a bounded directory, and the listing of its logs, start a replay whose
numbers are in order. -/
theorem Disk.Bounded.recover {disk : Disk K} (h : disk.Bounded) (options : OpenOptions) :
    (disk.recover options).Numbered := by
  unfold Disk.recover
  split
  · exact h
  · rename_i manifest hcurrent
    split_ifs
    · split
      · exact h
      · rename_i versions hversions
        obtain ⟨next, hbounded⟩ := h manifest hcurrent
        have hrec := hbounded.recover hversions
        refine ⟨⟨h, ?_⟩, ⟨?_, ?_, hrec.tidy, ?_, ?_⟩, ?_⟩
        · intro m hm
          obtain rfl := Option.some.inj (hcurrent.symm.trans hm)
          rw [hrec.manifestFileNumber]
          exact hrec.manifest_lt
        · rw [hrec.manifestFileNumber, hrec.nextFileNumber]
          exact Nat.lt_succ_self _
        · rw [hrec.nextFileNumber]
          exact Nat.lt_succ_of_le hrec.logNumber_le
        · intro n hn
          rw [hrec.nextFileNumber]
          exact (hrec.tables_lt n hn).trans (Nat.lt_succ_self _)
        · exact fun l f hf => absurd hf List.not_mem_nil
        · intro n hn
          -- The logs that are not listed are below the log number.
          by_cases hlog : versions.logNumber ≤ n
          · refine Or.inr ((List.mem_insertionSort _).mpr (List.mem_map.mpr ⟨⟨.logFile, n⟩, ?_, rfl⟩))
            exact List.mem_filter.mpr ⟨hn, by simp [hlog]⟩
          · refine Or.inl ?_
            rw [hrec.nextFileNumber]
            exact ((not_le.mp hlog).trans_le hrec.logNumber_le).trans (Nat.lt_succ_self _)
    · exact h

omit [LinearOrder K] in
/-- After `NewDB` has written the first manifest, the invariant of numbers holds. -/
theorem Disk.newDb_numbered {disk : Disk K} (options : OpenOptions) (hnone : disk.current = none) :
    (Host.creating options (disk.newDb options)).Numbered := by
  refine ⟨hnone, ?_⟩
  show ManifestBounded 1 (Function.update disk.records 1 _ 1) 2
  rw [Function.update_self]
  refine ⟨⟨_, 0, rfl, rfl, rfl, Nat.zero_le _⟩, Nat.one_lt_two, ?_⟩
  intro f hf
  obtain ⟨edit, hedit, l, hl⟩ := hf
  rw [List.mem_singleton.mp hedit] at hl
  exact absurd hl List.not_mem_nil

omit [LinearOrder K] in
/-- However `SetCurrentFile` of `NewDB` ends, the manifest that `CURRENT` names then, if it names one,
has its numbers in order. -/
theorem SwitchResult.apply_bounded {disk : Disk K} (hnone : disk.current = none)
    (h : ManifestBounded 1 (disk.records 1) 2) (result : SwitchResult) :
    (result.apply disk 1).Bounded := by
  intro m hm
  cases result with
  | switched =>
    obtain rfl := Option.some.inj hm
    exact ⟨2, h⟩
  | unnoticed | failed =>
    have hm' : disk.current = some m := hm
    rw [hnone] at hm'
    cases hm'
  | removed => cases hm

omit [LinearOrder K] in
/-- When `RecoverLogFile` returns, the next log is turned to and the invariant of numbers holds. -/
theorem Recovering.Numbered.endLog {r t : Recovering K} (h : r.Numbered) {ok : Bool}
    (ht : r.endLog ok = some t) : t.Numbered := by
  unfold Recovering.endLog at ht
  split at ht
  · cases ht
  · rename_i log logs hlogs
    obtain rfl := Option.some.inj ht
    obtain ⟨next, heq, hle, hlt⟩ := r.versions.markFileNumberUsed_eq log
    have hversions : r.versions.markFileNumberUsed log =
        { r.versions with nextFileNumber := next, lastSequence := r.versions.lastSequence } := heq
    constructor
    · dsimp only
      rw [hversions]
      exact h.behind
    · dsimp only
      rw [hversions]
      exact h.ahead.mono _ hle
    · intro n hn
      dsimp only at hn ⊢
      rw [hversions]
      rcases h.logs n hn with hn | hn
      · exact Or.inl (hn.trans_le hle)
      · rw [hlogs] at hn
        rcases List.mem_cons.mp hn with rfl | hn
        · exact Or.inl hlt
        · exact Or.inr hn

omit [LinearOrder K] in
/-- A table that `RecoverLogFile` writes takes the next number, which keeps the invariant of numbers. -/
theorem Recovering.Numbered.writeLevel0Table {r t : Recovering K} (h : r.Numbered)
    {result : BuildResult K} (ht : r.writeLevel0Table result = some t) : t.Numbered := by
  have hle := Nat.le_succ r.versions.nextFileNumber
  -- Before the edit is extended.
  have hmid : Recovering.Numbered { r with
      disk := result.apply r.disk r.versions.nextFileNumber
      versions := { r.versions with nextFileNumber := r.versions.nextFileNumber + 1 } } := by
    obtain ⟨hrecords, hcurrent⟩ := result.apply_manifests r.disk r.versions.nextFileNumber
    constructor
    · exact h.behind.congr hrecords hcurrent
    · exact h.ahead.mono _ hle
    · intro n hn
      rcases h.logs n (BuildResult.log_mem_apply hn) with hn | hn
      · exact Or.inl (hn.trans_le hle)
      · exact Or.inr hn
  unfold Recovering.writeLevel0Table at ht
  dsimp only at ht
  split at ht
  · cases ht
  · exact hmid.endLog ht
  · obtain rfl := Option.some.inj ht
    exact hmid
  · obtain rfl := Option.some.inj ht
    refine ⟨hmid.behind, ⟨hmid.ahead.manifest_lt, hmid.ahead.logNumber_lt, hmid.ahead.tidy,
      hmid.ahead.tables_lt, ?_⟩, hmid.logs⟩
    intro l f hf
    rcases List.mem_append.mp hf with hf | hf
    · exact hmid.ahead.edit_lt l f hf
    · obtain ⟨-, rfl⟩ := Prod.mk.inj (List.mem_singleton.mp hf)
      exact Nat.lt_succ_self _

omit [LinearOrder K] in
/-- When `DB::Open` creates its log, the number is new and the invariant of numbers holds. -/
theorem Recovering.Numbered.newLog {r : Recovering K} (h : r.Numbered) {maxSequence : ℕ}
    {t : Starting K} (ht : r.newLog maxSequence = some t) : t.Numbered := by
  unfold Recovering.newLog at ht
  split at ht
  · cases ht
  · rename_i hlogs
    dsimp only at ht
    split_ifs at ht
    obtain rfl := Option.some.inj ht
    have hle := Nat.le_succ r.versions.nextFileNumber
    refine ⟨h.behind.congr rfl rfl, ?_, ?_, Nat.lt_succ_self _, rfl, fun hstage => absurd rfl hstage⟩
    · have hahead := h.ahead.mono (max r.versions.lastSequence maxSequence) hle
      exact ⟨hahead.manifest_lt, hahead.logNumber_lt, hahead.tidy, hahead.tables_lt, hahead.edit_lt⟩
    · intro n hn
      rcases List.mem_insert_iff.mp hn with heq | hn
      · cases heq
        exact Nat.lt_succ_self _
      · rcases h.logs n hn with hn | hn
        · exact hn.trans_le hle
        · rw [hlogs] at hn
          exact absurd hn List.not_mem_nil

omit [LinearOrder K] in
/-- `LogAndApply` of `DB::Open` goes on with the new manifest. -/
theorem Starting.Numbered.writeManifest {r t : Starting K} (h : r.Numbered)
    (ht : r.writeManifest = some t) : t.Numbered := by
  unfold Starting.writeManifest at ht
  dsimp only at ht
  split at ht
  · obtain rfl := Option.some.inj ht
    refine ⟨h.behind.update (fun m hm => Function.update_of_ne hm _ _) rfl, h.ahead, ?_, h.logFile_lt,
      h.edit_logNumber, fun _ => Function.update_self _ _ _⟩
    intro n hn
    rcases List.mem_insert_iff.mp hn with heq | hn
    · cases heq
    · exact h.logs n hn
  · rename_i hstage
    obtain rfl := Option.some.inj ht
    refine ⟨h.behind.update (fun m hm => Disk.append_records_of_ne hm) rfl, h.ahead, h.logs,
      h.logFile_lt, h.edit_logNumber, fun _ => ?_⟩
    have hbefore := h.records (by rw [hstage]; decide)
    rw [Starting.written, hstage] at hbefore
    exact (Disk.append_records_self _ _ _).trans (by rw [hbefore]; rfl)
  · rename_i hstage
    obtain rfl := Option.some.inj ht
    refine ⟨h.behind.update (fun m hm => Disk.append_records_of_ne hm) rfl, h.ahead, h.logs,
      h.logFile_lt, h.edit_logNumber, fun _ => ?_⟩
    have hbefore := h.records (by rw [hstage]; decide)
    rw [Starting.written, hstage] at hbefore
    exact (Disk.append_records_self _ _ _).trans (by rw [hbefore]; rfl)
  · cases ht

omit [LinearOrder K] in
/-- The next manifest, when all is written. -/
theorem Starting.Numbered.bounded {r : Starting K} (h : r.Numbered) (hstage : r.stage = .recorded) :
    ManifestBounded r.versions.manifestFileNumber
      (r.disk.records r.versions.manifestFileNumber) r.versions.nextFileNumber := by
  rw [h.records (by rw [hstage]; decide), Starting.written, hstage]
  refine ⟨⟨r.versions.completeEdit r.edit, r.logFileNumber, rfl, rfl, ?_, h.logFile_lt.le⟩,
    h.ahead.manifest_lt, ?_⟩
  · show some (r.edit.logNumber.getD r.versions.logNumber) = some r.logFileNumber
    rw [h.edit_logNumber]
    rfl
  · intro f hf
    obtain ⟨edit, hedit, l, hl⟩ := hf
    simp only [List.mem_cons, List.not_mem_nil, or_false] at hedit
    rcases hedit with rfl | rfl
    · obtain ⟨hlevel, hmem⟩ := VersionSet.mem_snapshotEdit_newFiles.mp hl
      exact h.ahead.tables_lt f.number (mem_fileNumbers.mpr ⟨l, hlevel, f, hmem, rfl⟩)
    · exact h.ahead.edit_lt l f hl

omit [LinearOrder K] in
/-- `DeleteObsoleteFiles` only takes files away, and keeps the invariant of numbers. -/
theorem FileState.Numbered.deleteObsoleteFiles {s : FileState K} {ps : List (BgPoint K)}
    (h : s.Numbered ps) (undeleted : List FileName) : (s.deleteObsoleteFiles undeleted).Numbered ps :=
  ⟨h.referenced, h.pending.congr rfl le_rfl rfl fun _ _ _ => id, h.plain,
    h.tables.mono le_rfl h.tables.tidy (fun _ => id) fun _ _ _ => id,
    h.manifests.mono le_rfl rfl rfl rfl fun _ _ _ => id,
    h.logs.mono (fun _ hn => (List.mem_filter.mp hn).1) le_rfl rfl rfl rfl fun _ _ _ => id⟩

/-- When `LogAndApply` of `DB::Open` succeeds, the process starts with its numbers in order. -/
theorem Starting.Numbered.finish {r : Starting K} (h : r.Numbered) (hstage : r.stage = .recorded)
    (result : SwitchResult) (undeleted : List FileName) :
    Host.Numbered (.up (Starting.finish
      { r with disk := result.apply r.disk r.versions.manifestFileNumber } undeleted)) := by
  have hrecords : (result.apply r.disk r.versions.manifestFileNumber).records = r.disk.records := by
    cases result <;> rfl
  have hfiles : (result.apply r.disk r.versions.manifestFileNumber).files = r.disk.files := by
    cases result <;> rfl
  have hbounded := h.bounded hstage
  -- Nothing runs in the background yet, and the only version is the current one.
  have hnumbered : FileState.Numbered
      { disk := result.apply r.disk r.versions.manifestFileNumber
        versions := r.versions.logAndApply r.edit
        pool := [⟨0, 1, (r.versions.logAndApply r.edit).current.files⟩]
        currentId := 0
        nextId := 1
        logFileNumber := r.logFileNumber } [] := by
    refine ⟨?_, FileState.Pending.none rfl rfl fun _ _ _ => List.not_mem_nil,
      fun p hp => absurd hp List.not_mem_nil, ⟨r.versions.logAndApply_tidy _, ?_, ?_⟩, ⟨?_, ?_, ?_⟩,
      ⟨?_, h.logFile_lt, ?_, ?_, ?_⟩⟩
    · have hempty : Counted ([] : List (Node (LevelFiles K))) [] 0 :=
        ⟨List.nodup_nil, by simp, by simp, by simp⟩
      exact hempty.append _
    · intro v hv n hn
      obtain rfl := List.mem_singleton.mp hv
      rcases VersionSet.logAndApply_fileNumbers hn with hn | ⟨l, f, hf, rfl⟩
      · exact h.ahead.tables_lt n hn
      · exact h.ahead.edit_lt l f hf
    · exact fun _ _ _ hp => absurd hp List.not_mem_nil
    · exact ⟨r.versions.nextFileNumber, le_rfl, by rw [hrecords]; exact hbounded⟩
    · intro m hm
      rw [hrecords]
      cases result with
      | switched =>
        obtain rfl := Option.some.inj hm
        exact ⟨_, hbounded⟩
      | unnoticed | failed => exact h.behind.bounded m hm
      | removed => cases hm
    · exact fun _ _ _ hp => absurd hp List.not_mem_nil
    · rw [hfiles]
      exact h.logs
    · show r.edit.logNumber.getD r.versions.logNumber ≤ r.logFileNumber
      rw [h.edit_logNumber]
      exact le_rfl
    · exact fun l hl => by cases hl
    · exact fun _ _ _ hp => absurd hp List.not_mem_nil
  have hdone := hnumbered.deleteObsoleteFiles undeleted
  unfold Starting.finish Host.Numbered
  dsimp only
  rw [(DbImpl.maybeScheduleCompaction_files _).1, (DbImpl.maybeScheduleCompaction_files _).2]
  exact hdone

/-! ## Every step -/

omit [LinearOrder K] in
/-- When `LogAndApply` of `DB::Open` fails, the manifest that `CURRENT` names still has its numbers in
order. -/
theorem Starting.Numbered.fail {r : Starting K} (h : r.disk.Bounded) (undeleted : List FileName) :
    (r.fail undeleted).Bounded := by
  unfold Starting.fail
  split_ifs
  · exact h
  · exact h

/-- Every step of a history keeps the numbers in order. -/
theorem Host.Numbered.step {h h' : Host K} (hscheduled : h.Scheduled) (hn : h.Numbered)
    {a : HostAction K} (hs : h.step a = some h') : h'.Numbered := by
  cases Host.hostStep hs with
  | newDb options hnone => exact Disk.newDb_numbered options hnone
  | refused => exact hn
  | opened => exact Disk.Bounded.recover hn _
  | created => exact (SwitchResult.apply_bounded hn.1 hn.2 _).recover _
  | notCreated => exact SwitchResult.apply_bounded hn.1 hn.2 _
  | failNewDb =>
    intro m hm
    have hnone : some m = none := hm.symm.trans hn.1
    cases hnone
  | writeLevel0Table ht => exact Recovering.Numbered.writeLevel0Table hn ht
  | endLog ht => exact Recovering.Numbered.endLog hn ht
  | newLog ht => exact Recovering.Numbered.newLog hn ht
  | writeManifest ht => exact Starting.Numbered.writeManifest hn ht
  | failManifest => exact Starting.Numbered.fail (Starting.Numbered.behind hn).bounded _
  | finished undeleted hstage hok => exact Starting.Numbered.finish hn hstage _ _
  | @notFinished r result undeleted _ hok =>
    refine Starting.Numbered.fail ?_ _
    intro m hm
    cases result with
    | switched => exact absurd rfl hok
    | unnoticed => exact absurd rfl hok
    | failed => exact (Starting.Numbered.behind hn).bounded m hm
    | removed => cases hm
  | crash => exact hn.disk_bounded
  | step ht => exact (DbImpl.Scheduled.fileStep hscheduled ht).numbered hn

/-- The invariant holds in every state of every history. -/
theorem Host.Reachable.numbered {h : Host K} (hr : h.Reachable) : h.Scheduled ∧ h.Numbered := by
  refine hr.induct (P := fun h => h.Scheduled ∧ h.Numbered) ⟨trivial, fun m hm => by cases hm⟩ ?_
  intro h₁ a h₂ hinv _ hs
  exact ⟨hinv.1.step hs, Host.Numbered.step hinv.1 hinv.2 hs⟩

end

/-! ## New files -/

/-- The name of a file in its directory. -/
def FileName.path (dbname : Slice) (name : FileName) : Slice :=
  match name.type with
  | .logFile => logFileName dbname name.number
  | .dbLockFile => lockFileName dbname
  | .tableFile => tableFileName dbname name.number
  | .descriptorFile => descriptorFileName dbname name.number
  | .currentFile => currentFileName dbname
  | .tempFile => tempFileName dbname name.number
  | .infoLogFile => infoLogFileName dbname

/-- Tables, logs and manifests. -/
def FileName.Data (name : FileName) : Prop :=
  name.type = .logFile ∨ name.type = .tableFile ∨ name.type = .descriptorFile

/-- Different tables, logs and manifests have different names. -/
theorem FileName.path_injective {dbname : Slice} {name other : FileName} (hname : name.Data)
    (hother : other.Data) (h : name.path dbname = other.path dbname) : name = other := by
  obtain ⟨type, number⟩ := name
  obtain ⟨type', number'⟩ := other
  have htypes : ∀ m n, tableFileName dbname m ≠ logFileName dbname n :=
    fun m n heq => logFileName_ne_tableFileName dbname n m heq.symm
  rcases hname with hname | hname | hname
  all_goals
    rcases hother with hother | hother | hother
    all_goals
      dsimp only at hname hother
      subst hname hother
  · exact congrArg _ (makeFileName_injective h)
  · exact absurd h (logFileName_ne_tableFileName dbname _ _)
  · exact absurd h (makeFileName_ne_descriptorFileName dbname _ _ _)
  · exact absurd h (htypes _ _)
  · exact congrArg _ (makeFileName_injective h)
  · exact absurd h (makeFileName_ne_descriptorFileName dbname _ _ _)
  · exact absurd h.symm (makeFileName_ne_descriptorFileName dbname _ _ _)
  · exact absurd h.symm (makeFileName_ne_descriptorFileName dbname _ _ _)
  · exact congrArg _ (descriptorFileName_injective h)

/-- The files that are needed: the tables of the current version, the logs from `LogNumber()` on, and
the manifest that `CURRENT` names. -/
def InUse (versions : Option (VersionSet K)) (disk : Disk K) (name : FileName) : Prop :=
  match name.type with
  | .tableFile => ∃ vs, versions = some vs ∧ name.number ∈ fileNumbers vs.current.files
  | .logFile => name ∈ disk.files ∧ ∃ vs, versions = some vs ∧ vs.logNumber ≤ name.number
  | .descriptorFile => disk.current = some name.number
  | _ => False

/-- What is needed is a table, a log or a manifest. -/
theorem InUse.data {versions : Option (VersionSet K)} {disk : Disk K} {name : FileName}
    (h : InUse versions disk name) : name.Data := by
  unfold InUse at h
  unfold FileName.Data
  split at h
  · rename_i htype
    exact Or.inr (Or.inl htype)
  · rename_i htype
    exact Or.inl htype
  · rename_i htype
    exact Or.inr (Or.inr htype)
  · exact absurd h id

/-- The files that a step creates are not needed. -/
def CreatesUnused (versions : Option (VersionSet K)) (disk disk' : Disk K) : Prop :=
  ∃ new, disk'.created = new ++ disk.created ∧
    ∀ name ∈ new, name.Data ∧ ¬InUse versions disk name

/-- A step that creates no file creates none that is needed. -/
theorem CreatesUnused.none {versions : Option (VersionSet K)} {disk disk' : Disk K}
    (h : disk'.created = disk.created) : CreatesUnused versions disk disk' :=
  ⟨[], h, fun _ hname => absurd hname List.not_mem_nil⟩

/-- A step that creates one file creates none that is needed, if the name of this file is not in use. -/
theorem CreatesUnused.one {versions : Option (VersionSet K)} {disk disk' : Disk K} {name : FileName}
    (h : disk'.created = name :: disk.created) (hdata : name.Data)
    (hname : ¬InUse versions disk name) : CreatesUnused versions disk disk' := by
  refine ⟨[name], h, fun other hother => ?_⟩
  obtain rfl := List.mem_singleton.mp hother
  exact ⟨hdata, hname⟩

/-- `BuildTable` creates a table that is in no version. -/
theorem BuildResult.createsUnused {vs : VersionSet K} (result : BuildResult K) {disk : Disk K}
    {number : ℕ} (hfresh : number ∉ fileNumbers vs.current.files) :
    CreatesUnused (some vs) disk (result.apply disk number) := by
  have hone : ∀ disk' : Disk K, disk'.created = ⟨.tableFile, number⟩ :: disk.created →
      CreatesUnused (some vs) disk disk' := by
    intro disk' hcreated
    refine CreatesUnused.one hcreated (Or.inr (Or.inl rfl)) ?_
    rintro ⟨vs', hvs, hmem⟩
    obtain rfl := Option.some.inj hvs
    exact hfresh hmem
  cases result with
  | failed left => cases left <;> exact hone _ rfl
  | empty => exact CreatesUnused.none rfl
  | table => exact hone _ rfl

/-- A log with a new number is not in the directory. -/
theorem CreatesUnused.log {versions : Option (VersionSet K)} {disk : Disk K} {next : ℕ}
    (hlogs : ∀ n, (⟨.logFile, n⟩ : FileName) ∈ disk.files → n < next) :
    CreatesUnused versions disk (disk.create ⟨.logFile, next⟩) := by
  refine CreatesUnused.one rfl (Or.inl rfl) ?_
  rintro ⟨hmem, -⟩
  exact absurd (hlogs next hmem) (Nat.lt_irrefl _)

section

variable [LinearOrder K]

/-- The critical sections of the process create files that are not needed. -/
theorem FileStep.createsUnused {s t : FileState K} {ps qs : List (BgPoint K)}
    (h : FileStep s ps t qs) (hs : s.Numbered ps) : CreatesUnused (some s.versions) s.disk t.disk := by
  have hnew : s.versions.nextFileNumber ∉ fileNumbers s.versions.current.files := fun hmem =>
    absurd (hs.tables.lt s.currentVersion List.mem_cons_self _ hmem) (Nat.lt_irrefl _)
  cases h with
  | skip | acquire | release | endGet | newFileNumber | addSequence | beginFlush | beginJob
  | beginMove | failOutput | giveUp | logResults | installFlush | installMove | installResults =>
    exact CreatesUnused.none rfl
  | failLogFlush edit record outer written | failLogMove edit record job written
  | failLogResults edit record job written =>
    cases written <;> exact CreatesUnused.none rfl
  | switchMemTable => exact CreatesUnused.log hs.logs.lt
  | failFlush number base outer result | logFlush number base outer result =>
    obtain ⟨-, hfresh⟩ := hs.tables.fresh number base outer (List.mem_singleton_self _)
    exact result.createsUnused (hfresh s.currentVersion List.mem_cons_self)
  | openOutput job => exact (BuildResult.failed true : BuildResult K).createsUnused hnew

omit [LinearOrder K] in
/-- `WriteLevel0Table` in `RecoverLogFile` leaves what `BuildTable` does to the next number, and adds a
file to the edit only with a table. -/
theorem Recovering.writeLevel0Table_eq {r t : Recovering K} {result : BuildResult K}
    (ht : r.writeLevel0Table result = some t) :
    t.disk = result.apply r.disk r.versions.nextFileNumber ∧
      t.versions.current = r.versions.current ∧
      (t.edit = r.edit ∨ ∃ size lo hi, result = .table size lo hi) := by
  unfold Recovering.writeLevel0Table Recovering.endLog at ht
  dsimp only at ht
  split at ht
  · cases ht
  · split at ht
    · cases ht
    · rw [← Option.some.inj ht]
      refine ⟨rfl, ?_, Or.inl rfl⟩
      unfold VersionSet.markFileNumberUsed
      split_ifs <;> rfl
  · rw [← Option.some.inj ht]
    exact ⟨rfl, rfl, Or.inl rfl⟩
  · rw [← Option.some.inj ht]
    exact ⟨rfl, rfl, Or.inr ⟨_, _, _, rfl⟩⟩

omit [LinearOrder K] in
/-- `RecoverLogFile` creates tables that are not in the version that was recovered. -/
theorem Recovering.Numbered.createsUnused {r t : Recovering K} (h : r.Numbered)
    {result : BuildResult K} (ht : r.writeLevel0Table result = some t) :
    CreatesUnused (some r.versions) r.disk t.disk := by
  have hnew : r.versions.nextFileNumber ∉ fileNumbers r.versions.current.files := fun hmem =>
    absurd (h.ahead.tables_lt _ hmem) (Nat.lt_irrefl _)
  rw [(Recovering.writeLevel0Table_eq ht).1]
  exact result.createsUnused hnew

omit [LinearOrder K] in
/-- The new manifest is not the one that `CURRENT` names. -/
theorem Starting.Numbered.createsUnused {r t : Starting K} (h : r.Numbered)
    (ht : r.writeManifest = some t) : CreatesUnused (some r.versions) r.disk t.disk := by
  unfold Starting.writeManifest at ht
  dsimp only at ht
  split at ht
  · obtain rfl := Option.some.inj ht
    refine CreatesUnused.one rfl (Or.inr (Or.inr rfl)) fun hcurrent => ?_
    exact absurd (h.behind.current_lt _ hcurrent) (Nat.lt_irrefl _)
  · obtain rfl := Option.some.inj ht
    exact CreatesUnused.none rfl
  · obtain rfl := Option.some.inj ht
    exact CreatesUnused.none rfl
  · cases ht

/-- `VersionSet::Recover` does not touch the directory. -/
theorem Disk.recover_disk (disk : Disk K) (options : OpenOptions) :
    (disk.recover options).disk = disk := by
  unfold Disk.recover
  split
  · rfl
  · split_ifs
    · split <;> rfl
    · rfl

end

/-- The version set of the process, if there is one. -/
def Host.versions? : Host K → Option (VersionSet K)
  | .down _ | .creating _ _ => none
  | .recovering r => some r.versions
  | .starting r => some r.versions
  | .up s => some s.versions

/-- The files that are needed. -/
def Host.InUse (h : Host K) (name : FileName) : Prop := LevelDb.InUse h.versions? h.disk name

section

variable [LinearOrder K]

/-- Every step creates only files that are not needed. -/
theorem Host.Numbered.createsUnused {h h' : Host K} (hscheduled : h.Scheduled) (hn : h.Numbered)
    {a : HostAction K} (hs : h.step a = some h') : CreatesUnused h.versions? h.disk h'.disk := by
  cases Host.hostStep hs with
  | newDb _ hnone =>
    -- Without a `CURRENT` there is nothing that `NewDB` could overwrite.
    refine CreatesUnused.one rfl (Or.inr (Or.inr rfl)) fun hcurrent => ?_
    have hsome : none = some 1 := hnone.symm.trans hcurrent
    cases hsome
  | refused | failNewDb | crash => exact CreatesUnused.none rfl
  | opened => exact CreatesUnused.none (by rw [Disk.recover_disk]; rfl)
  | @created _ disk result =>
    have hcreated : (result.apply disk 1).created = disk.created := by cases result <;> rfl
    exact CreatesUnused.none (by rw [Disk.recover_disk]; exact hcreated)
  | @notCreated _ disk result =>
    have hcreated : (result.apply disk 1).created = disk.created := by cases result <;> rfl
    exact CreatesUnused.none hcreated
  | writeLevel0Table ht => exact Recovering.Numbered.createsUnused hn ht
  | endLog ht =>
    unfold Recovering.endLog at ht
    split at ht
    · cases ht
    · rw [← Option.some.inj ht]
      exact CreatesUnused.none rfl
  | @newLog r _ maxSequence ht =>
    have hstart : r.Numbered := hn
    unfold Recovering.newLog at ht
    split at ht
    · cases ht
    · rename_i hlogs
      dsimp only at ht
      split_ifs at ht
      rw [← Option.some.inj ht]
      refine CreatesUnused.log fun n hmem => ?_
      rcases hstart.logs n hmem with hlt | hleft
      · exact hlt
      · rw [hlogs] at hleft
        exact absurd hleft List.not_mem_nil
  | writeManifest ht => exact Starting.Numbered.createsUnused hn ht
  | failManifest =>
    refine CreatesUnused.none ?_
    unfold Starting.fail
    split_ifs <;> rfl
  | @finished r result undeleted =>
    have hcreated : (result.apply r.disk r.versions.manifestFileNumber).created =
        r.disk.created := by cases result <;> rfl
    refine CreatesUnused.none ?_
    unfold Starting.finish Host.disk
    dsimp only
    rw [(DbImpl.maybeScheduleCompaction_files _).1]
    exact hcreated
  | @notFinished r result undeleted =>
    have hcreated : (result.apply r.disk r.versions.manifestFileNumber).created =
        r.disk.created := by cases result <;> rfl
    refine CreatesUnused.none ?_
    unfold Starting.fail
    split_ifs <;> exact hcreated
  | step ht => exact (DbImpl.Scheduled.fileStep hscheduled ht).createsUnused hn

/-- In every history, the files that a step creates have other names than the files that are needed:
the tables of the current version, the logs from `LogNumber()` on, and the manifest that `CURRENT`
names. -/
theorem new_file_name_unused (dbname : Slice) {h h' : Host K} {a : HostAction K} (hr : h.Reachable)
    (hs : h.step a = some h') : ∃ new, h'.disk.created = new ++ h.disk.created ∧
      ∀ name ∈ new, ∀ other, h.InUse other → name.path dbname ≠ other.path dbname := by
  obtain ⟨hscheduled, hnumbered⟩ := hr.numbered
  obtain ⟨new, hcreated, hunused⟩ := Host.Numbered.createsUnused hscheduled hnumbered hs
  refine ⟨new, hcreated, fun name hname other hother hpath => ?_⟩
  obtain ⟨hdata, hnot⟩ := hunused name hname
  exact hnot (FileName.path_injective hdata hother.data hpath ▸ hother)

end

/-- After a log could not be created and another one was, the process crashes, and the recovery replays
its logs. The next table then gets the number of the second log. -/
def exampleReplay : List (HostAction Slice) :=
  exampleOpen ++ [.step (.acquireLogger true), .step (.makeRoomForWrite false (some (.ioError []))),
    .step (.acquireLogger true), .step (.makeRoomForWrite false none), .crash,
    .open exampleOpenOptions]

/-- A table and a log with the same number. -/
theorem new_file_name_unused_example : ∃ h h' : Host Slice, h.Reachable ∧
    h.step (.writeLevel0Table (.failed true)) = some h' ∧ h.InUse ⟨.logFile, 5⟩ ∧
    (∃ new, h'.disk.created = new ++ h.disk.created ∧ ∀ name ∈ new,
      name.path (ascii "db") ≠ FileName.path (ascii "db") ⟨.logFile, 5⟩) ∧
    h'.disk.created.head? = some ⟨.tableFile, 5⟩ := by
  obtain ⟨h, hrun, hp⟩ := (Option.any_eq_true _ _).mp (show ((Host.empty : Host Slice).run
    exampleReplay).any (fun h => match h with
      | .recovering r => decide (⟨.logFile, 5⟩ ∈ r.disk.files ∧ r.versions.logNumber ≤ 5 ∧
          r.versions.nextFileNumber = 5 ∧ r.logs ≠ [])
      | _ => false) = true by decide +kernel)
  have hreach : h.Reachable := Host.reaches_of_run (fun _ _ _ => trivial) hrun
  cases h with
  | recovering r =>
    obtain ⟨hmem, hlog, hnext, hlogs⟩ := of_decide_eq_true hp
    have huse : Host.InUse (.recovering r) ⟨.logFile, 5⟩ := ⟨hmem, r.versions, rfl, hlog⟩
    obtain ⟨log, logs, hcons⟩ := List.exists_cons_of_ne_nil hlogs
    have hstep : ∃ h', (Host.recovering r).step (.writeLevel0Table (.failed true)) = some h' ∧
        h'.disk.created.head? = some ⟨.tableFile, 5⟩ := by
      simp [Host.step, Recovering.writeLevel0Table, Recovering.endLog, hcons, BuildResult.apply,
        Disk.create, Host.disk, hnext]
    obtain ⟨h', hs, hhead⟩ := hstep
    obtain ⟨new, hcreated, hnames⟩ := new_file_name_unused (ascii "db") hreach hs
    exact ⟨_, h', hreach, hs, huse, ⟨new, hcreated, fun name hname => hnames name hname _ huse⟩, hhead⟩
  | _ => cases hp

end LevelDb
