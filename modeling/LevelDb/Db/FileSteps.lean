import LevelDb.Db.Schedule

/-!
# What a step does to files

The effects that the critical sections of `DBImpl` have on the versions, on `pending_outputs_` and on
the directory, together with where the background thread stands before and after them (`FileStep`).
Since there is at most one `BGWork`, this is all that can happen (`DbImpl.Scheduled.fileStep`), and
invariants about files are proved against these effects and not against the code.
-/

namespace LevelDb

open Lib

variable {K : Type} [LinearOrder K]

/-- Where the background thread goes on after `CompactMemTable`. -/
def resumed (outer : Option (BgCompaction K)) : List (BgPoint K) := outer.toList.map .compacting

/-- The effect of a step on files, with where the background thread stands before and after it. -/
inductive FileStep : FileState K → List (BgPoint K) → FileState K → List (BgPoint K) → Prop
  /-- None. -/
  | skip (s : FileState K) (ps : List (BgPoint K)) : FileStep s ps s ps
  /-- A reader comes. -/
  | acquire (s : FileState K) (ps : List (BgPoint K)) : FileStep s ps s.acquire ps
  /-- A reader goes. -/
  | release {s : FileState K} {ps : List (BgPoint K)} {i : ℕ} {r : Held (LevelFiles K)}
      (hr : s.readers[i]? = some r) : FileStep s ps (s.release i r) ps
  /-- `Get` updates the statistics of the current version, and goes. -/
  | endGet {s : FileState K} {ps : List (BgPoint K)} {i : ℕ} {r : Held (LevelFiles K)}
      {v : Version K} (hr : s.readers[i]? = some r) (hfiles : v.files = s.versions.current.files)
      (hpick : ∀ f l, v.fileToCompact = some (f, l) →
        s.versions.current.fileToCompact = some (f, l) ∨ (r.id = s.currentId ∧ f ∈ r.value l)) :
      FileStep s ps ((s.setCurrent v).release i r) ps
  /-- A log file cannot be created. -/
  | newFileNumber (s : FileState K) (ps : List (BgPoint K)) : FileStep s ps s.newFileNumber ps
  /-- `Write` ends. -/
  | addSequence (s : FileState K) (ps : List (BgPoint K)) (count : ℕ) :
      FileStep s ps (s.addSequence count) ps
  /-- The memtable is switched. -/
  | switchMemTable {s : FileState K} (ps : List (BgPoint K)) (himm : s.imm = none) :
      FileStep s ps s.switchMemTable ps
  /-- `CompactMemTable` begins. -/
  | beginFlush {s : FileState K} (outer : Option (BgCompaction K)) (himm : s.imm.isSome = true) :
      FileStep s (resumed outer) s.newOutput.refCurrent
        [.flushing s.versions.nextFileNumber s.currentVersion outer]
  /-- `CompactMemTable` ends without a table. -/
  | failFlush (s : FileState K) (number : ℕ) (base : Held (LevelFiles K))
      (outer : Option (BgCompaction K)) (result : BuildResult K) :
      FileStep s [.flushing number base outer] (s.endBuild number base result) (resumed outer)
  /-- `CompactMemTable` calls `LogAndApply`. -/
  | logFlush (s : FileState K) (number : ℕ) (base : Held (LevelFiles K))
      (outer : Option (BgCompaction K)) (result : BuildResult K) :
      FileStep s [.flushing number base outer]
        ((s.endBuild number base result).beginLog (s.flushEdit number base result))
        [.logging (s.flushEdit number base result)
          (s.versions.completeEdit (s.flushEdit number base result)) (.flush outer)]
  /-- A compaction begins. -/
  | beginJob {s : FileState K} {job : BgCompaction K} {pointer : ℕ → Option (InternalKey K)}
      (hinput : job.input = s.currentVersion) (houtputs : job.outputs = [])
      (hedit : ∃ l key, job.compaction.edit = VersionEdit.setCompactPointer {} l key) :
      FileStep s [] { s.refCurrent with versions := { s.versions with compactPointer := pointer } }
        [.compacting job]
  /-- A trivial move begins. -/
  | beginMove {s : FileState K} {job : BgCompaction K} {pointer : ℕ → Option (InternalKey K)}
      {f : FileMetaData K} (hinput : job.input = s.currentVersion)
      (hedit : ∃ l key, job.compaction.edit = VersionEdit.setCompactPointer {} l key)
      (hf : f ∈ s.versions.current.files job.compaction.level ∨
        s.versions.current.fileToCompact = some (f, job.compaction.level)) :
      FileStep s []
        (FileState.beginLog
          { s.refCurrent with versions := { s.versions with compactPointer := pointer } }
          (job.compaction.moveEdit f))
        [.logging (job.compaction.moveEdit f) (s.versions.completeEdit (job.compaction.moveEdit f))
          (.move job)]
  /-- An output file is created. -/
  | openOutput (s : FileState K) (job : BgCompaction K) :
      FileStep s [.compacting job]
        { s.newOutput with disk := s.disk.create ⟨.tableFile, s.versions.nextFileNumber⟩ }
        [.compacting { job with outputs := job.outputs ++ [s.versions.nextFileNumber] }]
  /-- An output file cannot be created, and the compaction is given up. -/
  | failOutput (s : FileState K) (job : BgCompaction K) :
      FileStep s [.compacting job]
        ((s.newOutput.erasePending (job.outputs ++ [s.versions.nextFileNumber])).unref job.input.id) []
  /-- A compaction is given up. -/
  | giveUp (s : FileState K) (job : BgCompaction K) :
      FileStep s [.compacting job] ((s.erasePending job.outputs).unref job.input.id) []
  /-- `InstallCompactionResults` calls `LogAndApply`. -/
  | logResults (s : FileState K) (job : BgCompaction K) (outputs : ℕ → FileMetaData K) :
      FileStep s [.compacting job] ((s.erasePending job.outputs).beginLog (job.resultEdit outputs))
        [.logging (job.resultEdit outputs) (s.versions.completeEdit (job.resultEdit outputs))
          (.results { job with outputs := [] })]
  /-- The table of a memtable is installed. -/
  | installFlush (s : FileState K) (edit record : VersionEdit K) (outer : Option (BgCompaction K))
      (undeleted : List FileName) :
      FileStep s [.logging edit record (.flush outer)]
        ({ (s.logRecord record).install edit with imm := none }.deleteObsoleteFiles undeleted)
        (resumed outer)
  /-- A trivial move is installed. -/
  | installMove (s : FileState K) (edit record : VersionEdit K) (job : BgCompaction K) :
      FileStep s [.logging edit record (.move job)]
        (((s.logRecord record).install edit).unref job.input.id) []
  /-- The results of a compaction are installed. -/
  | installResults (s : FileState K) (edit record : VersionEdit K) (job : BgCompaction K)
      (undeleted : List FileName) :
      FileStep s [.logging edit record (.results job)]
        ((((s.logRecord record).install edit).unref job.input.id).deleteObsoleteFiles undeleted) []
  /-- `LogAndApply` fails for the table of a memtable. -/
  | failLogFlush (s : FileState K) (edit record : VersionEdit K) (outer : Option (BgCompaction K))
      (written : Bool) :
      FileStep s [.logging edit record (.flush outer)] (if written then s.logRecord record else s)
        (resumed outer)
  /-- `LogAndApply` fails for a trivial move. -/
  | failLogMove (s : FileState K) (edit record : VersionEdit K) (job : BgCompaction K)
      (written : Bool) :
      FileStep s [.logging edit record (.move job)]
        ((if written then s.logRecord record else s).unref job.input.id) []
  /-- `LogAndApply` fails for the results of a compaction. -/
  | failLogResults (s : FileState K) (edit record : VersionEdit K) (job : BgCompaction K)
      (written : Bool) :
      FileStep s [.logging edit record (.results job)]
        ((if written then s.logRecord record else s).unref job.input.id) []

/-! ## Inputs of compactions -/

/-- The inputs that `SetupOtherInputs` ends with are files of the level, or those it began with. -/
theorem Version.mem_finalInputs {v : Version K} {level : ℕ} {inputs0 : List (FileMetaData K)}
    {smallest largest : InternalKey K} {f : FileMetaData K}
    (hf : f ∈ (v.finalInputs level inputs0 smallest largest).1) :
    f ∈ v.files level ∨ f ∈ inputs0 := by
  unfold Version.finalInputs at hf
  dsimp only at hf
  split at hf
  · rename_i range expanded hgrow
    obtain ⟨allStart, allLimit⟩ := range
    obtain ⟨expanded0, expanded1⟩ := expanded
    obtain ⟨-, hexpanded, -⟩ := Version.growInputs_eq_some hgrow
    rw [hexpanded] at hf
    exact Or.inl (Version.mem_getOverlappingInputs.mp hf).1
  · exact Or.inr hf

/-- The inputs of a compaction that `PickCompaction` returns are files of their level, or the file
picked by seek statistics. -/
theorem VersionSet.pickCompaction_inputs0 {vs vs' : VersionSet K} {c : Compaction K}
    (h : vs.pickCompaction = some (c, vs')) {f : FileMetaData K} (hf : f ∈ c.inputs0) :
    f ∈ vs.current.files c.level ∨ vs.current.fileToCompact = some (f, c.level) := by
  obtain ⟨g, hpick, hset, -⟩ := VersionSet.pickCompaction_eq_some h
  obtain ⟨smallest, largest, -, -, -, hinputs, -⟩ := Version.setupOtherInputs_eq_some hset
  have hf' : f ∈ (vs.current.finalInputs c.level (if c.level = 0 then
      vs.current.getOverlappingInputs 0 g.smallest g.largest else [g]) smallest largest).1 := by
    rw [← hinputs]
    exact hf
  rcases Version.mem_finalInputs hf' with hmem | hmem
  · exact Or.inl hmem
  · split_ifs at hmem with hlevel
    · rw [hlevel]
      exact Or.inl (Version.mem_getOverlappingInputs.mp hmem).1
    · obtain rfl := List.mem_singleton.mp hmem
      unfold VersionSet.pickFile at hpick
      split_ifs at hpick
      · dsimp only at hpick
        obtain ⟨g, hg, heq⟩ := Option.map_eq_some_iff.mp hpick
        obtain ⟨hl, rfl⟩ := Prod.mk.inj heq
        rw [hl] at hg
        rw [Option.orElse_eq_orElse, Option.orElse_eq_or] at hg
        rcases Option.or_eq_some_iff.mp hg with hg | ⟨-, hg⟩
        · exact Or.inl (List.mem_of_find?_eq_some hg)
        · exact Or.inl (List.mem_of_mem_head? hg)
      · obtain ⟨⟨g, l⟩, hg, heq⟩ := Option.map_eq_some_iff.mp hpick
        obtain ⟨rfl, rfl⟩ := Prod.mk.inj heq
        exact Or.inr hg

/-- The edit of a compaction has a compaction pointer only. -/
theorem VersionSet.pickCompaction_edit {vs vs' : VersionSet K} {c : Compaction K}
    (h : vs.pickCompaction = some (c, vs')) :
    ∃ l key, c.edit = VersionEdit.setCompactPointer {} l key := by
  obtain ⟨g, -, hset, -⟩ := VersionSet.pickCompaction_eq_some h
  obtain ⟨-, -, -, -, -, -, limit, -, hedit⟩ := Version.setupOtherInputs_eq_some hset
  exact ⟨_, limit, hedit⟩

/-- The edit of a manual compaction has a compaction pointer only. -/
theorem VersionSet.compactRange_edit {vs vs' : VersionSet K} {level : ℕ} {lo hi : InternalKey K}
    {c : Compaction K} (h : vs.compactRange level lo hi = some (c, vs')) :
    ∃ l key, c.edit = VersionEdit.setCompactPointer {} l key := by
  obtain ⟨hset, -⟩ := VersionSet.compactRange_eq_some h
  obtain ⟨-, -, -, -, -, -, limit, -, hedit⟩ := Version.setupOtherInputs_eq_some hset
  exact ⟨_, limit, hedit⟩

/-! ## Every step -/

omit [LinearOrder K] in
/-- `MaybeScheduleCompaction` does not touch files, nor does the background thread move. -/
theorem DbImpl.maybeScheduleCompaction_files (s : DbImpl K) :
    s.maybeScheduleCompaction.toFileState = s.toFileState ∧
      s.maybeScheduleCompaction.running = s.running := by
  rw [s.maybeScheduleCompaction_eq]
  exact ⟨rfl, rfl⟩

omit [LinearOrder K] in
/-- The end of `BackgroundCall` does not touch files. -/
theorem DbImpl.endCall_files (s : DbImpl K) :
    s.endCall.toFileState = s.toFileState ∧ s.endCall.running = s.running :=
  DbImpl.maybeScheduleCompaction_files { s with bgCompactionScheduled := false }

omit [LinearOrder K] in
/-- Where the background thread goes on after `CompactMemTable`. -/
theorem DbImpl.endFlush_files (s : DbImpl K) (outer : Option (BgCompaction K)) :
    (s.endFlush outer).1.toFileState = s.toFileState ∧
      (s.endFlush outer).2.toList = resumed outer := by
  cases outer <;> exact ⟨rfl, rfl⟩

/-- The last section of `Get` is one of the steps that concern files: seek statistics, and a reference
that is given back. -/
theorem DbImpl.endGet_fileStep {s t : DbImpl K} {reader : ℕ} {stats : GetStats K}
    {shared picked : Bool} (ht : s.endGet reader stats shared picked = some t) :
    FileStep s.toFileState s.running t.toFileState t.running := by
  unfold DbImpl.endGet at ht
  obtain ⟨r, hr, ht⟩ := Option.bind_eq_some_iff.mp ht
  obtain ⟨hr, hstats⟩ := Option.filter_eq_some_iff.mp hr
  dsimp only at ht
  set updated := if decide (r.id = s.currentId) then s.versions.current.updateStats stats
    else s.versions.current.shareSeeks stats shared with hupdated
  have hfiles : updated.files = s.versions.current.files := by
    rw [hupdated]
    unfold Version.shareSeeks
    split_ifs
    · exact Version.updateStats_files _ _
    · rfl
    · rfl
  have hpick : ∀ f l, updated.fileToCompact = some (f, l) →
      s.versions.current.fileToCompact = some (f, l) ∨ (r.id = s.currentId ∧ f ∈ r.value l) := by
    intro f l hf
    rw [hupdated] at hf
    split_ifs at hf with hid
    · unfold Version.updateStats at hf
      split at hf
      · exact Or.inl hf
      · rename_i g level
        dsimp only at hf
        split_ifs at hf
        · obtain ⟨rfl, rfl⟩ := Prod.mk.inj (Option.some.inj hf)
          exact Or.inr ⟨of_decide_eq_true hid, by simpa using hstats⟩
        · exact Or.inl hf
    · unfold Version.shareSeeks at hf
      split_ifs at hf <;> exact Or.inl hf
  -- Scheduling in between leaves files alone.
  generalize (if decide (r.id = s.currentId) = true then
    s.versions.current.updateStatsPicks stats else picked) = picks at ht
  obtain ⟨u, hu, hrunning, hrelease⟩ : ∃ u : DbImpl K,
      u.toFileState = s.toFileState.setCurrent updated ∧ u.running = s.running ∧
        u.release reader = some t := by
    refine ⟨_, ?_, ?_, ht⟩
    · split_ifs
      · exact (DbImpl.maybeScheduleCompaction_files _).1
      · rfl
    · split_ifs
      · exact (DbImpl.maybeScheduleCompaction_files _).2
      · rfl
  obtain ⟨r', hr', rfl⟩ := Option.map_eq_some_iff.mp hrelease
  have hreaders : u.readers = s.readers := by rw [hu]; rfl
  obtain rfl : r' = r := Option.some.inj (by rw [← hr', hreaders, hr])
  show FileStep s.toFileState s.running (u.toFileState.release reader r') u.running
  rw [hu, hrunning]
  exact .endGet hr hfiles hpick

/-- A round of `MakeRoomForWrite` is one of the steps that concern files, or concerns none. -/
theorem DbImpl.makeRoomForWrite_fileStep {s t : DbImpl K} {hasRoom : Bool} {newLog : Option Status}
    (ht : s.makeRoomForWrite hasRoom newLog = some t) :
    FileStep s.toFileState s.running t.toFileState t.running := by
  unfold DbImpl.makeRoomForWrite at ht
  split at ht
  · obtain rfl := Option.some.inj ht
    split_ifs with herror hdelay hroom hwrite himm hstop
    · exact .skip _ _
    · exact .skip _ _
    · exact .skip _ _
    · exact .skip _ _
    · exact .skip _ _
    · exact .skip _ _
    · unfold DbImpl.switchMemTable
      split_ifs
      · obtain ⟨hfiles, hrunning⟩ := DbImpl.maybeScheduleCompaction_files
          { s with
            toFileState := s.toFileState.switchMemTable
            logger := some _ }
        rw [hfiles, hrunning]
        exact .switchMemTable _ (Option.not_isSome_iff_eq_none.mp himm)
      · exact .newFileNumber _ _
  · cases ht

/-- The first critical section of a `BGWork`. -/
theorem DbImpl.backgroundCompaction_fileStep (s : DbImpl K) :
    FileStep s.toFileState [] s.backgroundCompaction.1.toFileState
      s.backgroundCompaction.2.toList := by
  unfold DbImpl.backgroundCompaction
  split_ifs with himm
  · exact .beginFlush none himm
  · split
    · split
      · exact .skip _ _
      · rename_i c versions hc
        obtain ⟨-, rfl⟩ := VersionSet.compactRange_eq_some hc
        exact .beginJob rfl rfl (VersionSet.compactRange_edit hc)
    · split
      · exact .skip _ _
      · rename_i c versions hc
        obtain ⟨_, -, -, rfl⟩ := VersionSet.pickCompaction_eq_some hc
        have hedit := VersionSet.pickCompaction_edit hc
        dsimp only
        split
        · rename_i f _ hhead
          have hf := VersionSet.pickCompaction_inputs0 hc (List.mem_of_mem_head? hhead)
          exact @FileStep.beginMove K _ s.toFileState ⟨false, c, s.currentVersion, []⟩ _ f rfl hedit hf
        · exact .beginJob rfl rfl hedit

/-- Every other critical section of a `BGWork`. -/
theorem DbImpl.background_fileStep {s : DbImpl K} {p : BgPoint K} {a : BgAction K} {r : BgResult K}
    (h : s.background p a = some r) :
    FileStep s.toFileState [p] r.1.toFileState r.2.toList := by
  unfold DbImpl.background at h
  split at h
  · rename_i number base outer result
    obtain rfl := Option.some.inj h
    unfold DbImpl.endBuild
    dsimp only
    split_ifs
    · exact .logFlush _ _ _ _ _
    · obtain ⟨hfiles, hpoints⟩ := DbImpl.endFlush_files
        { s with toFileState := s.toFileState.endBuild number base result } outer
      rw [hfiles, hpoints]
      exact .failFlush _ _ _ _ _
  · -- What follows `LogAndApply` depends on who has called it.
    rename_i edit record work undeleted
    obtain rfl := Option.some.inj h
    cases work with
    | flush outer =>
      obtain ⟨hfiles, hpoints⟩ := DbImpl.endFlush_files
        { s with
          toFileState := { (s.toFileState.logRecord record).install edit with
            imm := none }.deleteObsoleteFiles undeleted } outer
      unfold DbImpl.endLogAndApply
      rw [hfiles, hpoints]
      exact .installFlush _ _ _ _ _
    | move job => exact .installMove _ _ _ _
    | results job => exact .installResults _ _ _ _ _
  · rename_i edit record work written error undeleted
    obtain rfl := Option.some.inj h
    have hlog : (if written then { s with toFileState := s.toFileState.logRecord record }
        else s).toFileState = if written then s.toFileState.logRecord record else s.toFileState := by
      split_ifs <;> rfl
    unfold DbImpl.failLogAndApply
    cases work with
    | flush outer =>
      dsimp only
      obtain ⟨hfiles, hpoints⟩ := DbImpl.endFlush_files
        (if written then { s with toFileState := s.toFileState.logRecord record } else s) outer
      rw [hfiles, hpoints, hlog]
      exact .failLogFlush _ _ _ _ _
    | move job =>
      show FileStep _ _ (FileState.unref (if written then { s with
        toFileState := s.toFileState.logRecord record } else s).toFileState job.input.id) []
      rw [hlog]
      exact .failLogMove _ _ _ _ _
    | results job =>
      show FileStep _ _ (FileState.unref (if written then { s with
        toFileState := s.toFileState.logRecord record } else s).toFileState job.input.id) []
      rw [hlog]
      exact .failLogResults _ _ _ _ _
  · -- `DoCompactionWork` looks at `imm_` between two entries.
    rename_i job
    obtain rfl := Option.some.inj h
    split_ifs with himm
    · exact .beginFlush (some job) himm
    · exact .skip _ _
  · rename_i job status
    obtain rfl := Option.some.inj h
    unfold DbImpl.openOutput
    dsimp only
    split_ifs
    · exact .openOutput _ _
    · exact .failOutput _ _
  · rename_i job status outputs
    obtain rfl := Option.some.inj h
    unfold DbImpl.endCompaction
    dsimp only
    split_ifs
    · exact .logResults _ _ _
    · exact .giveUp _ _
  · cases h

/-- A `BGWork` starts only when none is running. -/
theorem DbImpl.Scheduled.startWork_fileStep {s t : DbImpl K} (h : s.Scheduled)
    (ht : s.startWork = some t) : FileStep s.toFileState s.running t.toFileState t.running := by
  have hcount := h.exclusive
  unfold DbImpl.Exclusive at hcount
  unfold DbImpl.startWork at ht
  split_ifs at ht with hqueue hshut
  · obtain rfl := Option.some.inj ht
    obtain ⟨hfiles, hrunning⟩ := DbImpl.endCall_files { s with queued := s.queued - 1 }
    rw [hfiles, hrunning]
    exact .skip _ _
  · have hnone : s.running = [] := by
      rw [← List.length_eq_zero_iff]
      split_ifs at hcount <;> omega
    set u : DbImpl K := { s with queued := s.queued - 1 } with hu
    have hstep := u.backgroundCompaction_fileStep
    have hsame := u.backgroundCompaction_sameWork.running
    dsimp only at ht
    split at ht
    · rename_i t' hr
      obtain rfl := Option.some.inj ht
      rw [hr] at hstep hsame
      obtain ⟨hfiles, hrunning⟩ := t'.endCall_files
      rw [hfiles, hrunning, show t'.running = s.running from hsame, hnone]
      exact hstep
    · rename_i t' p hr
      obtain rfl := Option.some.inj ht
      rw [hr] at hstep hsame
      show FileStep s.toFileState s.running t'.toFileState (p :: t'.running)
      rw [show t'.running = s.running from hsame, hnone]
      exact hstep

/-- The `BGWork` that goes on is the only one. -/
theorem DbImpl.Scheduled.continueWork_fileStep {s t : DbImpl K} (h : s.Scheduled) {i : ℕ}
    {a : BgAction K} (ht : s.continueWork i a = some t) :
    FileStep s.toFileState s.running t.toFileState t.running := by
  have hcount := h.exclusive
  unfold DbImpl.Exclusive at hcount
  unfold DbImpl.continueWork at ht
  obtain ⟨p, hp, ht⟩ := Option.bind_eq_some_iff.mp ht
  obtain ⟨r, hr, ht⟩ := Option.map_eq_some_iff.mp ht
  obtain ⟨hi, hget⟩ := List.getElem?_eq_some_iff.mp hp
  have hone : s.running.length = 1 := by
    split_ifs at hcount <;> omega
  obtain ⟨q, hq⟩ := List.length_eq_one_iff.mp hone
  obtain rfl : i = 0 := by omega
  obtain rfl : q = p := by
    rw [hq] at hp
    exact Option.some.inj hp
  have hstep := DbImpl.background_fileStep hr
  have hsame := (DbImpl.background_sameWork hr).running
  obtain ⟨u, next⟩ := r
  cases next with
  | none =>
    obtain rfl := ht
    obtain ⟨hfiles, hrunning⟩ := DbImpl.endCall_files { u with running := u.running.eraseIdx 0 }
    rw [hfiles, hrunning, hq]
    show FileStep s.toFileState [q] u.toFileState (u.running.eraseIdx 0)
    rw [show u.running = s.running from hsame, hq]
    exact hstep
  | some p' =>
    obtain rfl := ht
    show FileStep s.toFileState s.running u.toFileState (u.running.set 0 p')
    rw [show u.running = s.running from hsame, hq]
    exact hstep

/-- Every step of the process has one of the effects. -/
theorem DbImpl.Scheduled.fileStep {s t : DbImpl K} (h : s.Scheduled) {a : Action K}
    (ht : s.step a = some t) : FileStep s.toFileState s.running t.toFileState t.running := by
  -- What a thread waits for does not concern files.
  cases a with
  | acquire =>
    obtain rfl := Option.some.inj ht
    exact .acquire _ _
  | release reader =>
    obtain ⟨r, hr, rfl⟩ := Option.map_eq_some_iff.mp ht
    exact .release hr
  | endGet reader stats shared picked => exact DbImpl.endGet_fileStep ht
  | acquireLogger write =>
    unfold DbImpl.step DbImpl.acquireLogger at ht
    dsimp only at ht
    split_ifs at ht
    obtain rfl := Option.some.inj ht
    exact .skip _ _
  | makeRoomForWrite hasRoom logCreated => exact DbImpl.makeRoomForWrite_fileStep ht
  | endSleep =>
    unfold DbImpl.step DbImpl.endSleep at ht
    dsimp only at ht
    split at ht
    · obtain rfl := Option.some.inj ht
      exact .skip _ _
    · cases ht
  | wake =>
    obtain rfl := Option.some.inj ht
    exact .skip _ _
  | endWrite count =>
    unfold DbImpl.step DbImpl.endWrite at ht
    dsimp only at ht
    split at ht
    · obtain rfl := Option.some.inj ht
      exact .addSequence _ _ _
    · cases ht
  | compactRange m =>
    unfold DbImpl.step DbImpl.compactRange at ht
    dsimp only at ht
    split_ifs at ht
    obtain rfl := Option.some.inj ht
    obtain ⟨hfiles, hrunning⟩ := DbImpl.maybeScheduleCompaction_files
      { s with manualCompaction := some m }
    rw [hfiles, hrunning]
    exact .skip _ _
  | shutDown =>
    obtain rfl := Option.some.inj ht
    exact .skip _ _
  | startWork => exact h.startWork_fileStep ht
  | continueWork i a => exact h.continueWork_fileStep ht

end LevelDb
