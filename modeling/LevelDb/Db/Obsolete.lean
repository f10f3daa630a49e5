import LevelDb.Db.Naming
import LevelDb.Env.SetCurrentFile

/-!
# Obsolete files

What `DeleteObsoleteFiles` keeps. A file is needed while a version lists it that somebody holds a
reference to, while the running flush or compaction still has to install it, while a memtable has its
entries in it, or while `CURRENT` names it. Outputs go out of
`pending_outputs_` before they are installed; that is safe because only the thread that installs them
calls `DeleteObsoleteFiles` meanwhile.

The manifest that `CURRENT` names is lost when `SetCurrentFile` returns OK without having switched
`CURRENT`. `Win32Env::RenameFile` makes that possible (`setCurrentFile_switchResult`).
-/

namespace LevelDb

open Lib

variable {K : Type}

/-! ## Needed files -/

/-- The tables that the background work has begun and not installed. -/
def BgPoint.outputs : BgPoint K → List ℕ
  | .flushing number _ outer => number :: outerOutputs outer
  | .logging edit _ (.flush outer) => edit.newFiles.map (·.2.number) ++ outerOutputs outer
  | .logging edit _ (.move _) | .logging edit _ (.results _) => edit.newFiles.map (·.2.number)
  | .compacting job => job.outputs

/-- The files that an open database needs. -/
def FileState.Needed (s : FileState K) (ps : List (BgPoint K)) (name : FileName) : Prop :=
  match name.type with
  | .tableFile => (∃ r ∈ s.held ps, name.number ∈ fileNumbers r.value) ∨
      ∃ p ∈ ps, name.number ∈ p.outputs
  | .logFile => name.number = s.logFileNumber ∨ s.imm = some name.number
  | .descriptorFile => s.disk.current = some name.number
  | _ => False

/-- The files that a database needs while `DB::Open` runs: the tables of the version that was recovered
and of the edit, the logs that are left to replay, and the manifest that `CURRENT` names. -/
def NeededToOpen (disk : Disk K) (versions : VersionSet K) (edit : VersionEdit K) (logs : List ℕ)
    (name : FileName) : Prop :=
  match name.type with
  | .tableFile => name.number ∈ fileNumbers versions.current.files ∨
      ∃ l f, (l, f) ∈ edit.newFiles ∧ f.number = name.number
  | .logFile => name.number ∈ logs
  | .descriptorFile => disk.current = some name.number
  | _ => False

/-- The files that a database needs. -/
def Host.Needed : Host K → FileName → Prop
  | .down disk, name | .creating _ disk, name =>
    name.type = .descriptorFile ∧ disk.current = some name.number
  | .recovering r, name => NeededToOpen r.disk r.versions r.edit r.logs name
  | .starting r, name => NeededToOpen r.disk r.versions r.edit [r.logFileNumber] name
  | .up s, name => s.Needed s.running name

/-! ## What is kept -/

/-- What is referenced is in the list of versions. -/
theorem FileState.Referenced.mem_live {s : FileState K} {ps : List (BgPoint K)} (h : s.Referenced ps)
    {r : Held (LevelFiles K)} (hr : r ∈ s.held ps) {n : ℕ} (hn : n ∈ fileNumbers r.value)
    (live : Finset ℕ) : n ∈ addLiveFiles s.pool live := by
  obtain ⟨node, hnode, -, hvalue⟩ := Counted.found h r hr
  refine Finset.mem_union_right _ (List.mem_toFinset.mpr (List.mem_flatMap.mpr ⟨node, hnode, ?_⟩))
  rw [hvalue]
  exact hn

/-- `DeleteObsoleteFiles` keeps every file that is needed when no `LogAndApply` is in progress. -/
theorem FileState.Numbered.keep_of_needed {s : FileState K} {ps : List (BgPoint K)}
    (h : s.Numbered ps) (hlogging : ∀ edit record work, .logging edit record work ∉ ps)
    (hcurrent : s.disk.current = some s.versions.manifestFileNumber) {name : FileName}
    (hneeded : s.Needed ps name) : s.keep name = true := by
  obtain ⟨type, number⟩ := name
  cases type with
  | logFile =>
    have hle : s.versions.logNumber ≤ number := by
      rcases hneeded with heq | himm
      · rw [show number = s.logFileNumber from heq]
        exact h.logs.logNumber_le
      · exact h.logs.imm number himm
    simp [FileState.keep, hle]
  | tableFile =>
    refine decide_eq_true ?_
    rcases hneeded with ⟨r, hr, hn⟩ | ⟨p, hp, hn⟩
    · exact h.referenced.mem_live hr hn _
    · -- Without a `LogAndApply` in progress, the outputs are all pending.
      have hpending : number ∈ p.pending := by
        cases p with
        | flushing => exact hn
        | logging edit record work => exact absurd hp (hlogging _ _ _)
        | compacting => exact hn
      refine Finset.mem_union_left _ ?_
      rw [h.pending.eq, List.mem_toFinset]
      exact List.mem_flatMap.mpr ⟨p, hp, hpending⟩
  | descriptorFile =>
    have heq : s.versions.manifestFileNumber = number :=
      Option.some.inj (hcurrent.symm.trans hneeded)
    simp [FileState.keep, heq]
  | dbLockFile | currentFile | tempFile | infoLogFile => exact absurd hneeded id

/-- `BuildTable` deletes no other file than its own. -/
theorem BuildResult.mem_apply {result : BuildResult K} {disk : Disk K} {number : ℕ} {name : FileName}
    (hmem : name ∈ disk.files) (hname : name ≠ ⟨.tableFile, number⟩) :
    name ∈ (result.apply disk number).files := by
  have hcreate : name ∈ (disk.create ⟨.tableFile, number⟩).files :=
    List.mem_insert_of_mem hmem
  cases result with
  | failed left =>
    cases left with
    | false => exact List.mem_filter.mpr ⟨hcreate, decide_eq_true hname⟩
    | true => exact hcreate
  | empty => exact List.mem_filter.mpr ⟨hmem, decide_eq_true hname⟩
  | table => exact hcreate

/-- The table of a flush that ends without installing it is not needed. -/
theorem FileState.Numbered.not_needed {s t : FileState K} {number : ℕ} {base : Held (LevelFiles K)}
    {outer : Option (BgCompaction K)} {qs : List (BgPoint K)}
    (h : s.Numbered [.flushing number base outer])
    (hheld : ∀ r ∈ t.held qs, r ∈ s.held [.flushing number base outer])
    (houtputs : ∀ p ∈ qs, p.outputs = outerOutputs outer) :
    ¬t.Needed qs ⟨.tableFile, number⟩ := by
  obtain ⟨-, hfresh⟩ := h.tables.fresh number base outer (List.mem_singleton_self _)
  rintro (⟨r, hr, hn⟩ | ⟨p, hp, hn⟩)
  · exact hfresh r (hheld r hr) hn
  · rw [houtputs p hp] at hn
    exact h.pending.fresh number base outer (List.mem_singleton_self _) hn

/-- The end of `BuildTable` deletes no file that is needed. -/
theorem FileState.Numbered.endBuild_keeps {s t : FileState K} {number : ℕ}
    {base : Held (LevelFiles K)} {outer : Option (BgCompaction K)} {qs : List (BgPoint K)}
    (h : s.Numbered [.flushing number base outer]) {name : FileName} (hmem : name ∈ s.disk.files)
    (hneeded : t.Needed qs name) {result : BuildResult K}
    (hdisk : t.disk = result.apply s.disk number)
    (hheld : ∀ r ∈ t.held qs, r ∈ s.held [.flushing number base outer])
    (houtputs : (∀ p ∈ qs, p.outputs = outerOutputs outer) ∨
      ∃ size lo hi, result = .table size lo hi) : name ∈ t.disk.files := by
  rw [hdisk]
  by_cases hname : name = ⟨.tableFile, number⟩
  · rcases houtputs with houtputs | ⟨size, lo, hi, rfl⟩
    · rw [hname] at hneeded
      exact absurd hneeded (h.not_needed hheld houtputs)
    · exact List.mem_insert_of_mem hmem
  · exact BuildResult.mem_apply hmem hname

section

variable [LinearOrder K]

/-- No step of the process deletes a file that is needed. -/
theorem FileStep.keeps_needed {s t : FileState K} {ps qs : List (BgPoint K)} (h : FileStep s ps t qs)
    (hs : s.Numbered ps) (hcurrent : s.disk.current = some s.versions.manifestFileNumber)
    {name : FileName} (hmem : name ∈ s.disk.files) (hneeded : t.Needed qs name) :
    name ∈ t.disk.files := by
  have ht := h.numbered hs
  cases h with
  | skip | acquire | release | endGet | newFileNumber | addSequence | beginFlush | beginJob
  | beginMove | failOutput | giveUp | logResults | installMove => exact hmem
  | switchMemTable | openOutput => exact List.mem_insert_of_mem hmem
  | failLogFlush edit record outer written | failLogMove edit record job written
  | failLogResults edit record job written =>
    cases written <;> exact hmem
  | failFlush number base outer result =>
    refine hs.endBuild_keeps hmem hneeded rfl
      (FileState.held_subset rfl (List.Subset.refl _) fun r hr => ?_) (Or.inl fun p hp => ?_)
    · rw [flushing_held]
      exact Or.inr (List.mem_cons_of_mem _ hr)
    · obtain ⟨job, hjob, rfl⟩ := List.mem_map.mp hp
      cases outer with
      | none => exact absurd hjob List.not_mem_nil
      | some job' =>
        obtain rfl := List.mem_singleton.mp hjob
        exact (List.append_nil _).symm
  | logFlush number base outer result =>
    refine hs.endBuild_keeps hmem hneeded rfl
      (FileState.held_subset rfl (List.Subset.refl _) fun r hr => ?_) ?_
    · rw [loggingFlush_held] at hr
      rw [flushing_held]
      exact Or.inr (List.mem_cons_of_mem _ hr)
    · cases result with
      | table size lo hi => exact Or.inr ⟨size, lo, hi, rfl⟩
      | failed left | empty =>
        refine Or.inl fun p hp => ?_
        rw [List.mem_singleton.mp hp]
        rfl
  -- Only these two run `DeleteObsoleteFiles`, which keeps what the state after the step needs.
  | installFlush edit record outer undeleted =>
    have hkeep := ht.keep_of_needed (fun _ _ _ => logging_notMem_resumed) hcurrent hneeded
    exact List.mem_filter.mpr ⟨hmem, (Bool.or_eq_true _ _).mpr (Or.inl hkeep)⟩
  | installResults edit record job undeleted =>
    have hkeep := ht.keep_of_needed (fun _ _ _ => List.not_mem_nil) hcurrent hneeded
    exact List.mem_filter.mpr ⟨hmem, (Bool.or_eq_true _ _).mpr (Or.inl hkeep)⟩

/-! ## Histories -/

/-- `SetCurrentFile` does not return OK in `DB::Open` without having switched `CURRENT`. -/
def Host.RenameNoticed : Host K → HostAction K → Prop
  | .starting _, .switchCurrent result _ => result ≠ .unnoticed
  | _, _ => True

/-- `CURRENT` names the manifest of the process. -/
def Host.Switched : Host K → Prop
  | .up s => s.disk.current = some s.versions.manifestFileNumber
  | _ => True

/-- The process neither switches `CURRENT` nor starts another manifest. -/
theorem FileStep.switched {s t : FileState K} {ps qs : List (BgPoint K)} (h : FileStep s ps t qs)
    (hs : s.disk.current = some s.versions.manifestFileNumber) :
    t.disk.current = some t.versions.manifestFileNumber := by
  cases h with
  | failFlush number base outer result | logFlush number base outer result =>
    exact ((result.apply_manifests s.disk number).2).trans hs
  | failLogFlush edit record outer written | failLogMove edit record job written
  | failLogResults edit record job written =>
    cases written <;> exact hs
  | _ => exact hs

/-- Recovery does not open the database yet. -/
theorem Disk.recover_switched (disk : Disk K) (options : OpenOptions) :
    (disk.recover options).Switched := by
  unfold Disk.recover
  split
  · trivial
  · split_ifs
    · split <;> trivial
    · trivial

/-- `CURRENT` names the manifest of the process, if renames are noticed. -/
theorem Host.Switched.step {h h' : Host K} (hscheduled : h.Scheduled) (hinv : h.Switched)
    {a : HostAction K} (hc : h.RenameNoticed a) (hs : h.step a = some h') : h'.Switched := by
  cases Host.hostStep hs with
  | opened | created => exact Disk.recover_switched _ _
  | @finished r result undeleted _ hok =>
    unfold Starting.finish Host.Switched
    dsimp only
    rw [(DbImpl.maybeScheduleCompaction_files _).1]
    cases result with
    | switched => rfl
    | unnoticed => exact absurd rfl hc
    | failed | removed => cases hok
  | step ht => exact (DbImpl.Scheduled.fileStep hscheduled ht).switched hinv
  | newDb | refused | notCreated | failNewDb | writeLevel0Table | endLog | newLog | writeManifest
  | failManifest | notFinished | crash => trivial

omit [LinearOrder K] in
/-- `RecoverLogFile` deletes no file that is needed. -/
theorem Recovering.Numbered.keeps_needed {r t : Recovering K} (h : r.Numbered)
    {result : BuildResult K} (ht : r.writeLevel0Table result = some t) {name : FileName}
    (hmem : name ∈ r.disk.files) (hneeded : Host.Needed (.recovering t) name) :
    name ∈ t.disk.files := by
  obtain ⟨hdisk, hcurrent, hedit⟩ := Recovering.writeLevel0Table_eq ht
  rw [hdisk]
  by_cases hname : name = ⟨.tableFile, r.versions.nextFileNumber⟩
  · rcases hedit with hedit | ⟨size, lo, hi, rfl⟩
    · rw [hname] at hneeded
      -- The number of the table is new.
      rcases hneeded with hn | ⟨l, f, hf, hn⟩
      · rw [hcurrent] at hn
        exact absurd (h.ahead.tables_lt _ hn) (Nat.lt_irrefl _)
      · rw [hedit] at hf
        have hlt := h.ahead.edit_lt l f hf
        rw [hn] at hlt
        exact absurd hlt (Nat.lt_irrefl _)
    · exact List.mem_insert_of_mem hmem
  · exact BuildResult.mem_apply hmem hname

omit [LinearOrder K] in
/-- A `LogAndApply` that fails deletes its own manifest only. -/
theorem Starting.fail_keeps_needed {r : Starting K} (undeleted : List FileName)
    (hcurrent : r.disk.current ≠ some r.versions.manifestFileNumber) {name : FileName}
    (hmem : name ∈ r.disk.files) (hneeded : Host.Needed (.down (r.fail undeleted)) name) :
    name ∈ (r.fail undeleted).files := by
  unfold Starting.fail at hneeded ⊢
  split_ifs at hneeded ⊢
  · exact hmem
  · refine List.mem_filter.mpr ⟨hmem, decide_eq_true ?_⟩
    rintro rfl
    exact hcurrent hneeded.2

/-- `DB::Open` deletes no file that is needed when it has switched `CURRENT`. -/
theorem Starting.finish_keeps_needed {r : Starting K} (undeleted : List FileName)
    (hn : Host.Numbered (.up (r.finish undeleted))) (hs : Host.Switched (.up (r.finish undeleted)))
    {name : FileName} (hmem : name ∈ r.disk.files)
    (hneeded : Host.Needed (.up (r.finish undeleted)) name) :
    name ∈ (r.finish undeleted).disk.files := by
  unfold Host.Numbered at hn
  unfold Host.Switched at hs
  unfold Host.Needed at hneeded
  unfold Starting.finish at hn hs hneeded ⊢
  dsimp only at hn hs hneeded ⊢
  rw [(DbImpl.maybeScheduleCompaction_files _).1] at hn hs hneeded ⊢
  rw [(DbImpl.maybeScheduleCompaction_files _).2] at hn hneeded
  have hkeep := hn.keep_of_needed (fun _ _ _ => List.not_mem_nil) hs hneeded
  exact List.mem_filter.mpr ⟨hmem, (Bool.or_eq_true _ _).mpr (Or.inl hkeep)⟩

/-- No step deletes a file that is needed, if renames are noticed. -/
theorem Host.Numbered.keeps_needed {h h' : Host K} (hscheduled : h.Scheduled) (hn : h.Numbered)
    (hswitched : h.Switched) {a : HostAction K} (hc : h.RenameNoticed a) (hs : h.step a = some h')
    {name : FileName} (hmem : name ∈ h.disk.files) (hneeded : h'.Needed name) :
    name ∈ h'.disk.files := by
  have hn' := hn.step hscheduled hs
  have hswitched' := hswitched.step hscheduled hc hs
  cases Host.hostStep hs with
  | newDb => exact List.mem_insert_of_mem hmem
  | refused | crash => exact hmem
  | opened =>
    rw [Disk.recover_disk]
    exact hmem
  | @created _ disk result =>
    rw [Disk.recover_disk]
    have hfiles : (result.apply disk 1).files = disk.files := by cases result <;> rfl
    rw [hfiles]
    exact hmem
  | @notCreated _ disk result =>
    have hfiles : (result.apply disk 1).files = disk.files := by cases result <;> rfl
    show name ∈ (result.apply disk 1).files
    rw [hfiles]
    exact hmem
  | failNewDb =>
    -- `NewDB` fails, and there is no `CURRENT`.
    have hsome : none = some name.number := hn.1.symm.trans hneeded.2
    cases hsome
  | writeLevel0Table ht => exact Recovering.Numbered.keeps_needed hn ht hmem hneeded
  | endLog ht =>
    unfold Recovering.endLog at ht
    split at ht
    · cases ht
    · rw [← Option.some.inj ht]
      exact hmem
  | newLog ht =>
    unfold Recovering.newLog at ht
    split at ht
    · cases ht
    · dsimp only at ht
      split_ifs at ht
      rw [← Option.some.inj ht]
      exact List.mem_insert_of_mem hmem
  | writeManifest ht =>
    unfold Starting.writeManifest at ht
    dsimp only at ht
    split at ht
    · rw [← Option.some.inj ht]
      exact List.mem_insert_of_mem hmem
    · rw [← Option.some.inj ht]
      exact hmem
    · rw [← Option.some.inj ht]
      exact hmem
    · cases ht
  | failManifest r undeleted =>
    -- The manifest that is deleted is not the one that `CURRENT` names.
    refine Starting.fail_keeps_needed undeleted (fun hcurrent => ?_) hmem hneeded
    exact absurd ((Starting.Numbered.behind hn).current_lt _ hcurrent) (Nat.lt_irrefl _)
  | @finished r result undeleted _ hok =>
    have hfiles : (result.apply r.disk r.versions.manifestFileNumber).files = r.disk.files := by
      cases result <;> rfl
    have hmem' : name ∈ (result.apply r.disk r.versions.manifestFileNumber).files := by
      rw [hfiles]
      exact hmem
    exact Starting.finish_keeps_needed undeleted hn' hswitched' hmem' hneeded
  | @notFinished r result undeleted _ hok =>
    have hfiles : (result.apply r.disk r.versions.manifestFileNumber).files = r.disk.files := by
      cases result <;> rfl
    have hmem' : name ∈ (result.apply r.disk r.versions.manifestFileNumber).files := by
      rw [hfiles]
      exact hmem
    refine Starting.fail_keeps_needed undeleted (fun hcurrent => ?_) hmem' hneeded
    cases result with
    | switched | unnoticed => exact absurd rfl hok
    | failed => exact absurd ((Starting.Numbered.behind hn).current_lt _ hcurrent) (Nat.lt_irrefl _)
    | removed => cases hcurrent
  | step ht => exact (DbImpl.Scheduled.fileStep hscheduled ht).keeps_needed hn hswitched hmem hneeded

/-- The invariants of histories in which renames are noticed. -/
theorem Host.Reaches.noticed {h : Host K} (hr : Host.Reaches Host.RenameNoticed Host.empty h) :
    h.Scheduled ∧ h.Numbered ∧ h.Switched := by
  refine hr.induct (P := fun h => h.Scheduled ∧ h.Numbered ∧ h.Switched)
    ⟨trivial, (fun m hm => by cases hm), trivial⟩ ?_
  intro h₁ a h₂ hinv hc hs
  exact ⟨hinv.1.step hs, hinv.2.1.step hinv.1 hs, hinv.2.2.step hinv.1 hc hs⟩

/-- In every history in which `SetCurrentFile` does not return OK without having switched `CURRENT`, no
step deletes a file that is needed after it, and `pending_outputs_` is the same whenever no
`BackgroundCompaction` is running. -/
theorem needed_files_kept {h h' : Host K} {a : HostAction K}
    (hr : Host.Reaches Host.RenameNoticed Host.empty h) (hc : h.RenameNoticed a)
    (hs : h.step a = some h') :
    (∀ name ∈ h.disk.files, h'.Needed name → name ∈ h'.disk.files) ∧
      ∀ s t, h = .up s → s.running = [] → Host.Reaches Host.RenameNoticed h (.up t) →
        t.running = [] → t.pendingOutputs = s.pendingOutputs := by
  obtain ⟨hscheduled, hnumbered, hswitched⟩ := hr.noticed
  constructor
  · intro name hmem hneeded
    exact hnumbered.keeps_needed hscheduled hswitched hc hs hmem hneeded
  · rintro s t rfl hsrun hrt htrun
    obtain ⟨-, hnt, -⟩ := (hr.trans hrt).noticed
    have hpending : ∀ u : DbImpl K, Host.Numbered (.up u) → u.running = [] → u.pendingOutputs = ∅ := by
      intro u hu hrun
      have heq := (FileState.Numbered.pending hu).eq
      rw [hrun] at heq
      exact heq
    rw [hpending s hnumbered hsrun, hpending t hnt htrun]

end

/-- After the memtable was compacted its log is deleted, and the new one is kept. -/
theorem needed_files_kept_example : ∃ h h' : Host Slice,
    Host.Reaches Host.RenameNoticed Host.empty h ∧
    h.step (.step (.continueWork 0 (.logAndApply .ok []))) = some h' ∧
    (⟨.logFile, 3⟩ : FileName) ∈ h.disk.files ∧ (⟨.logFile, 3⟩ : FileName) ∉ h'.disk.files ∧
    h'.Needed ⟨.logFile, 4⟩ ∧ (⟨.logFile, 4⟩ : FileName) ∈ h'.disk.files := by
  let actions : List (HostAction Slice) := exampleOpen ++ [.step (.acquireLogger false),
    .step (.makeRoomForWrite false none), .step .startWork,
    .step (.continueWork 0 (.buildTable .empty))]
  obtain ⟨h, hrun, hp⟩ := (Option.any_eq_true _ _).mp (show ((Host.empty : Host Slice).run
    actions).any (fun h => decide (⟨.logFile, 3⟩ ∈ h.disk.files ∧ ⟨.logFile, 4⟩ ∈ h.disk.files) &&
      ((h.step (.step (.continueWork 0 (.logAndApply .ok [])))).any fun h' =>
        decide (⟨.logFile, 3⟩ ∉ h'.disk.files) &&
          h'.impl?.any fun s => decide (s.logFileNumber = 4))) = true by decide +kernel)
  have hreach : Host.Reaches Host.RenameNoticed Host.empty h := by
    refine Host.reaches_of_run (fun h a ha => ?_) hrun
    unfold Host.RenameNoticed
    split
    · rename_i result undeleted
      have hresult : result = .switched ∧ undeleted = [] := by
        simpa [actions, exampleOpen] using ha
      rw [hresult.1]
      decide
    · trivial
  obtain ⟨hfiles, hstep⟩ := (Bool.and_eq_true _ _).mp hp
  obtain ⟨h', hs, hafter⟩ := (Option.any_eq_true _ _).mp hstep
  obtain ⟨hgone, himpl⟩ := (Bool.and_eq_true _ _).mp hafter
  obtain ⟨s, hup, hlog⟩ := (Option.any_eq_true _ _).mp himpl
  obtain ⟨hold, hnew⟩ := of_decide_eq_true hfiles
  have hc : h.RenameNoticed (.step (.continueWork 0 (.logAndApply .ok []))) := by
    cases h <;> trivial
  have hneeded : h'.Needed ⟨.logFile, 4⟩ := by
    cases h' with
    | up s' =>
      obtain rfl := Option.some.inj hup
      exact Or.inl (of_decide_eq_true hlog).symm
    | _ => cases hup
  obtain ⟨hkept, -⟩ := needed_files_kept hreach hc hs
  exact ⟨h, h', hreach, hs, hold, of_decide_eq_true hgone, hneeded, hkept _ hnew hneeded⟩

/-- In the first `Open` of a database, `MoveFile` fails with a code that `RenameFile` does not look at.
`CURRENT` goes on naming the first manifest, and `DeleteObsoleteFiles` deletes it. -/
theorem current_manifest_deleted : ∃ h h' : Host Slice, h.Reachable ∧
    h.step (.switchCurrent .unnoticed []) = some h' ∧
    ∃ name ∈ h.disk.files, h'.Needed name ∧ name ∉ h'.disk.files := by
  let actions : List (HostAction Slice) := [.open exampleOpenOptions, .switchCurrent .switched [],
    .newLog 0, .writeManifest, .writeManifest, .writeManifest]
  obtain ⟨h, hrun, hp⟩ := (Option.any_eq_true _ _).mp (show ((Host.empty : Host Slice).run
    actions).any (fun h => decide (⟨.descriptorFile, 1⟩ ∈ h.disk.files) &&
      ((h.step (.switchCurrent .unnoticed [])).any fun h' =>
        decide (⟨.descriptorFile, 1⟩ ∉ h'.disk.files) &&
          h'.impl?.any fun s => decide (s.disk.current = some 1))) = true by decide +kernel)
  have hreach : h.Reachable := Host.reaches_of_run (fun _ _ _ => trivial) hrun
  obtain ⟨hfile, hstep⟩ := (Bool.and_eq_true _ _).mp hp
  obtain ⟨h', hs, hafter⟩ := (Option.any_eq_true _ _).mp hstep
  obtain ⟨hgone, himpl⟩ := (Bool.and_eq_true _ _).mp hafter
  obtain ⟨s, hup, hcurrent⟩ := (Option.any_eq_true _ _).mp himpl
  have hneeded : h'.Needed ⟨.descriptorFile, 1⟩ := by
    cases h' with
    | up s' =>
      obtain rfl := Option.some.inj hup
      have hone : s'.disk.current = some 1 := of_decide_eq_true hcurrent
      exact hone
    | _ => cases hup
  exact ⟨h, h', hreach, hs, _, of_decide_eq_true hfile, hneeded, of_decide_eq_true hgone⟩

/-! ## `SetCurrentFile` -/

/-- What is left in `CURRENT`. -/
def SwitchResult.contents (r : SwitchResult) (old new : Option Slice) : Option Slice :=
  match r with
  | .switched => new
  | .unnoticed | .failed => old
  | .removed => none

/-- What a function returns and leaves in `CURRENT` is what the result says. -/
def SwitchResult.Describes (r : SwitchResult) (run : Win32.Run) (files : Win32.Files)
    (dbname : Slice) (n : ℕ) : Prop :=
  run.ok = r.ok ∧ run.final files (currentFileName dbname) =
    r.contents (files (currentFileName dbname)) (some (Win32.currentContents dbname n))

/-- `SetCurrentFile` ends as its `RenameFile` ends. -/
theorem SwitchResult.Describes.setCurrentFile {r : SwitchResult} {files : Win32.Files}
    {dbname : Slice} {n : ℕ} {o : Win32.Outcomes} (h : o.Written)
    (hr : ∀ s : Win32.Files, s (currentFileName dbname) = files (currentFileName dbname) →
      s (tempFileName dbname n) = some (Win32.currentContents dbname n) →
      ∃ rest last, Win32.renameFile s (tempFileName dbname n) (currentFileName dbname) o =
        ⟨r.ok, rest ++ [last]⟩ ∧ last (currentFileName dbname) =
          r.contents (files (currentFileName dbname)) (some (Win32.currentContents dbname n))) :
    r.Describes (Win32.setCurrentFile files dbname n o) files dbname n := by
  obtain ⟨s₁, s₂, s₃, -, -, hcurrent, htemp, hrun⟩ := Win32.setCurrentFile_written files dbname n h
  obtain ⟨rest, last, hrename, hlast⟩ := hr s₃ hcurrent htemp
  have hne := (tempFileName_ne_currentFileName dbname n).symm
  unfold SwitchResult.Describes
  rw [hrun, hrename]
  dsimp only
  split_ifs with hok
  · refine ⟨hok.symm, ?_⟩
    rw [Win32.Run.final, show s₁ :: s₂ :: s₃ :: (rest ++ [last]) = (s₁ :: s₂ :: s₃ :: rest) ++ [last]
      from rfl, List.getLastD_concat]
    exact hlast
  · refine ⟨(Bool.not_eq_true _ ▸ hok).symm, ?_⟩
    rw [Win32.Run.final, show ∀ x, s₁ :: s₂ :: s₃ :: (rest ++ [last] ++ [x]) =
      (s₁ :: s₂ :: s₃ :: (rest ++ [last])) ++ [x] from fun x => rfl, List.getLastD_concat,
      Win32.deleteFile_of_ne _ hne, Win32.Run.final, List.getLastD_concat]
    exact hlast

/-- `SetCurrentFile` on Windows ends in one of the ways of `SwitchResult`, whatever its calls do. It
returns OK without having switched `CURRENT` only when the first `MoveFile` fails with a code that
`RenameFile` does not look at. -/
theorem Win32.setCurrentFile_switchResult (files : Win32.Files) (dbname : Slice) (n : ℕ)
    (o : Win32.Outcomes) : ∃ r : SwitchResult,
      r.Describes (Win32.setCurrentFile files dbname n o) files dbname n ∧
      (r = .unnoticed → ∃ code, o.moveFile = .failure code ∧ code ≠ Win32.errorAlreadyExists) := by
  by_cases hwritten : o.Written
  swap
  · obtain ⟨hok, hstates⟩ := @Win32.setCurrentFile_not_written files dbname n o hwritten
    exact ⟨.failed, ⟨hok, Win32.Run.left_unchanged hstates none⟩, fun h => by cases h⟩
  have hne := tempFileName_ne_currentFileName dbname n
  by_cases hcode : ∃ code, o.moveFile = .failure code ∧ code ≠ Win32.errorAlreadyExists
  · obtain ⟨code, hmove, hother⟩ := hcode
    refine ⟨.unnoticed, SwitchResult.Describes.setCurrentFile hwritten fun s hs _ => ?_,
      fun _ => ⟨code, hmove, hother⟩⟩
    exact ⟨[], s, Win32.renameFile_unnoticed hmove hother, hs⟩
  have hmove : o.moveFile = .success ∨ o.moveFile = .failure Win32.errorAlreadyExists := by
    cases hm : o.moveFile with
    | success => exact Or.inl rfl
    | failure code =>
      by_contra hne
      exact hcode ⟨code, hm, fun heq => hne (Or.inr (by rw [heq]))⟩
  -- From here the first `MoveFile` succeeded or found the target.
  cases hold : files (currentFileName dbname) with
  | none =>
    rcases hmove with hmove | hmove
    · refine ⟨.switched, SwitchResult.Describes.setCurrentFile hwritten fun s hs ht => ?_,
        fun h => by cases h⟩
      obtain ⟨moved, hmoved, hrename⟩ := Win32.renameFile_moved hne ht (hs.trans hold) hmove
      exact ⟨[], moved, hrename, hmoved⟩
    · refine ⟨.failed, SwitchResult.Describes.setCurrentFile hwritten fun s hs ht => ?_,
        fun h => by cases h⟩
      exact ⟨[s], s, Win32.renameFile_nothing_to_delete (hs.trans hold) hmove, hs⟩
  | some old =>
    by_cases hdelete : o.deleteFile = .success
    · by_cases hagain : o.moveFileAgain = .success
      · refine ⟨.switched, SwitchResult.Describes.setCurrentFile hwritten fun s hs ht => ?_,
          fun h => by cases h⟩
        obtain ⟨removed, replaced, -, hnew, hrename⟩ :=
          Win32.renameFile_replaced hne ht (hs.trans hold) hmove hdelete hagain
        exact ⟨[s, removed], replaced, hrename, hnew⟩
      · refine ⟨.removed, SwitchResult.Describes.setCurrentFile hwritten fun s hs _ => ?_,
          fun h => by cases h⟩
        obtain ⟨removed, hnone, hrename⟩ :=
          Win32.renameFile_removed (tempFileName dbname n) (hs.trans hold) hmove hdelete hagain
        exact ⟨[s, removed], removed, hrename, hnone⟩
    · refine ⟨.failed, SwitchResult.Describes.setCurrentFile hwritten fun s hs _ => ?_,
        fun h => by cases h⟩
      exact ⟨[s], s, Win32.renameFile_kept (hs.trans hold) hmove hdelete, hs⟩

end LevelDb
