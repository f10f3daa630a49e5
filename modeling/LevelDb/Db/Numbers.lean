import LevelDb.Db.References
import LevelDb.Version.Manifest
import LevelDb.Compaction.Install

/-!
# File numbers

`next_file_number_` is above every number in use, but it is persisted only with the records of the
manifest. What was handed out after the last record is found again: tables that no record lists are
not needed, and log files are found by their names. The invariant has three parts: what manifests say
(`Manifests`), the numbers of tables (`Tables`), and those of logs (`Logs`).
-/

namespace LevelDb

open Lib

variable {K : Type}

/-! ## The numbers of a version -/

/-- The numbers of the files of a version. -/
theorem mem_fileNumbers {files : LevelFiles K} {n : ℕ} :
    n ∈ fileNumbers files ↔ ∃ l < kNumLevels, ∃ f ∈ files l, f.number = n := by
  simp [fileNumbers]

/-- A version has `kNumLevels` levels, and the file picked by seek statistics is one of it. -/
structure Version.Tidy (v : Version K) : Prop where
  /-- There are only `kNumLevels` levels. -/
  levels : ∀ l, kNumLevels ≤ l → v.files l = []
  /-- The file that is picked is one of the version. -/
  toCompact : ∀ f l, v.fileToCompact = some (f, l) → f ∈ v.files l

/-- The number of a file of a version, or of the one picked in it. -/
theorem Version.Tidy.mem_fileNumbers {v : Version K} (h : v.Tidy) {f : FileMetaData K} {l : ℕ}
    (hf : f ∈ v.files l ∨ v.fileToCompact = some (f, l)) : f.number ∈ fileNumbers v.files := by
  have hmem : f ∈ v.files l := by
    rcases hf with hf | hf
    · exact hf
    · exact h.toCompact f l hf
  refine LevelDb.mem_fileNumbers.mpr ⟨l, ?_, f, hmem, rfl⟩
  by_contra hl
  rw [h.levels l (not_lt.mp hl)] at hmem
  exact absurd hmem List.not_mem_nil

section

variable [LinearOrder K]

/-- The version that `LogAndApply` installs has `kNumLevels` levels, and a file that is picked is one
of it. -/
theorem VersionSet.logAndApply_tidy (vs : VersionSet K) (edit : VersionEdit K) :
    (vs.logAndApply edit).current.Tidy := by
  refine ⟨fun l hl => vs.logAndApply_levels edit hl, fun f l hf => ?_⟩
  unfold VersionSet.logAndApply at hf
  rw [finalize_fileToCompact] at hf
  cases hf

/-- The numbers of the new version are those of the old one and those of the edit. -/
theorem VersionSet.logAndApply_fileNumbers {vs : VersionSet K} {edit : VersionEdit K} {n : ℕ}
    (h : n ∈ fileNumbers (vs.logAndApply edit).current.files) :
    n ∈ fileNumbers vs.current.files ∨ ∃ l f, (l, f) ∈ edit.newFiles ∧ f.number = n := by
  obtain ⟨l, hl, f, hf, rfl⟩ := mem_fileNumbers.mp h
  rw [vs.logAndApply_files, if_pos hl, mem_saveLevel] at hf
  rcases hf.1 with hbase | hadded
  · exact Or.inl (mem_fileNumbers.mpr ⟨l, hl, f, hbase, rfl⟩)
  · have hall : f ∈ (({} : Builder K).apply (vs.completeEdit edit)).allFiles := ⟨l, hadded⟩
    rcases Builder.allFiles_apply hall with ⟨l', hnone⟩ | ⟨l', hnew⟩
    · exact absurd hnone List.not_mem_nil
    · exact Or.inr ⟨l', f, hnew, rfl⟩

end

/-! ## Manifests -/

section Manifest

variable [LinearOrder K]

/-- The last record of a manifest has a counter that is above the manifest's number, above all numbers
of files in its records, and not below the log number. -/
structure ManifestBounded (manifest : ℕ) (records : List (VersionEdit K)) (next : ℕ) : Prop where
  /-- The last record. -/
  last : ∃ record log, records.getLast? = some record ∧ record.nextFileNumber = some next ∧
    record.logNumber = some log ∧ log ≤ next
  /-- The number of the manifest. -/
  manifest_lt : manifest < next
  /-- The numbers of files. -/
  files_lt : ∀ f ∈ manifestFiles records, f.number < next

omit [LinearOrder K] in
/-- A manifest stays bounded when a record is appended whose numbers are below the counter that it
names. -/
theorem ManifestBounded.append {manifest next next' log : ℕ} {records : List (VersionEdit K)}
    {record : VersionEdit K} (h : ManifestBounded manifest records next) (hle : next ≤ next')
    (hnext : record.nextFileNumber = some next') (hlog : record.logNumber = some log)
    (hlog_le : log ≤ next') (hfiles : ∀ l f, (l, f) ∈ record.newFiles → f.number < next') :
    ManifestBounded manifest (records ++ [record]) next' := by
  refine ⟨⟨record, log, by simp, hnext, hlog, hlog_le⟩, h.manifest_lt.trans_le hle, ?_⟩
  intro f hf
  rcases mem_manifestFiles_append.mp hf with hf | ⟨l, hf⟩
  · exact (h.files_lt f hf).trans_le hle
  · exact hfiles l f hf

/-- The files that the loop of `Recover` collects are those of the records. -/
theorem foldlM_record_allFiles {comparator : Slice} :
    ∀ {records : List (VersionEdit K)} {st st' : RecoverState K},
    records.foldlM (RecoverState.record comparator) st = .ok st' →
    st'.builder.allFiles ⊆ st.builder.allFiles ∪ manifestFiles records
  | [], st, st', h => by
    obtain rfl : st = st' := Except.ok.inj h
    exact fun f hf => Or.inl hf
  | record :: records, st, st', h => by
    rw [List.foldlM_cons] at h
    cases hone : RecoverState.record comparator st record with
    | error e =>
      rw [hone] at h
      cases h
    | ok st₁ =>
      rw [hone] at h
      intro f hf
      have hbuilder : st₁.builder = st.builder.apply record := by
        unfold RecoverState.record at hone
        split_ifs at hone
        rw [← Except.ok.inj hone]
      rcases foldlM_record_allFiles h hf with hf | ⟨edit, hmem, hedit⟩
      · rw [hbuilder] at hf
        rcases Builder.allFiles_apply hf with hf | hf
        · exact Or.inl hf
        · exact Or.inr ⟨record, List.mem_cons_self, hf⟩
      · exact Or.inr ⟨edit, List.mem_cons_of_mem _ hmem, hedit⟩

/-- The counters that the loop of `Recover` ends with are those of the last record. -/
theorem foldlM_record_last {comparator : Slice} {records : List (VersionEdit K)}
    {record : VersionEdit K} (hlast : records.getLast? = some record) {st st' : RecoverState K}
    (h : records.foldlM (RecoverState.record comparator) st = .ok st') {next log : ℕ}
    (hnext : record.nextFileNumber = some next) (hlog : record.logNumber = some log) :
    st'.nextFile = some next ∧ st'.logNumber = some log := by
  obtain ⟨init, rfl⟩ := List.getLast?_eq_some_iff.mp hlast
  rw [List.foldlM_append] at h
  cases hinit : init.foldlM (RecoverState.record comparator) st with
  | error e =>
    rw [hinit] at h
    cases h
  | ok st₁ =>
    rw [hinit] at h
    cases hone : RecoverState.record comparator st₁ record with
    | error e => simp [bind, Except.bind, hone] at h
    | ok st₂ =>
      obtain rfl : st₂ = st' := by
        simpa [bind, Except.bind, pure, Except.pure, hone] using h
      unfold RecoverState.record at hone
      split_ifs at hone
      rw [← Except.ok.inj hone]
      simp [hnext, hlog]

/-- What `VersionSet::Recover` makes of a manifest: its counters are above all numbers. -/
structure Recovered (vs : VersionSet K) (manifest next : ℕ) : Prop where
  /-- The next manifest gets the recorded counter as its number. -/
  manifestFileNumber : vs.manifestFileNumber = next
  /-- The counter is behind it. -/
  nextFileNumber : vs.nextFileNumber = next + 1
  /-- The manifest that was read has a smaller number. -/
  manifest_lt : manifest < next
  /-- The log number is in use. -/
  logNumber_le : vs.logNumber ≤ next
  /-- The numbers of tables are in use. -/
  tables_lt : ∀ n ∈ fileNumbers vs.current.files, n < next
  /-- The version is tidy. -/
  tidy : vs.current.Tidy

/-- `VersionSet::Recover` on a bounded manifest gives a version set whose counter is above all numbers
in use. -/
theorem ManifestBounded.recover {manifest next : ℕ} {records : List (VersionEdit K)}
    (h : ManifestBounded manifest records next) {comparator : Slice} {vs : VersionSet K}
    (hvs : VersionSet.recover comparator records = .ok vs) : Recovered vs manifest next := by
  obtain ⟨record, log, hlast, hnext, hlog, hle⟩ := h.last
  unfold VersionSet.recover at hvs
  cases hst : records.foldlM (RecoverState.record comparator) ({} : RecoverState K) with
  | error e =>
    rw [hst] at hvs
    cases hvs
  | ok st =>
    -- The last record names both numbers, so what the earlier ones say does not count.
    obtain ⟨hnextFile, hlogNumber⟩ := foldlM_record_last hlast hst hnext hlog
    rw [hst] at hvs
    simp only [bind, Except.bind, hnextFile, hlogNumber] at hvs
    cases hseq : st.lastSequence with
    | none =>
      rw [hseq] at hvs
      cases hvs
    | some lastSequence =>
      rw [hseq] at hvs
      obtain rfl := Except.ok.inj hvs
      refine ⟨rfl, rfl, h.manifest_lt, hle, ?_, ?_⟩
      · intro n hn
        obtain ⟨l, hl, f, hf, rfl⟩ := mem_fileNumbers.mp hn
        have hf' : f ∈ saveLevel ([] : List (FileMetaData K)) (st.builder.levels l) := by
          simpa [Builder.saveTo, hl] using hf
        rcases (mem_saveLevel.mp hf').1 with hnone | hadded
        · exact absurd hnone List.not_mem_nil
        · rcases foldlM_record_allFiles hst ⟨l, hadded⟩ with ⟨l', hnone⟩ | hfile
          · exact absurd hnone List.not_mem_nil
          · exact h.files_lt f hfile
      · refine ⟨fun l hl => ?_, fun f l hf => ?_⟩
        · show (finalize (st.builder.saveTo {})).files l = []
          rw [finalize_files]
          exact if_neg (not_lt.mpr hl)
        · have hf' : (finalize (st.builder.saveTo {})).fileToCompact = some (f, l) := hf
          rw [finalize_fileToCompact] at hf'
          cases hf'

end Manifest

/-! ## The edits of background work -/

section Edits

/-- The compactions that a running `BGWork` is in. -/
def BgPoint.jobs : BgPoint K → List (BgCompaction K)
  | .flushing _ _ outer => outer.toList
  | .logging _ _ (.flush outer) => outer.toList
  | .logging _ _ (.move job) | .logging _ _ (.results job) => [job]
  | .compacting job => [job]

/-- The edit of a compaction has a compaction pointer only. -/
def BgCompaction.Plain (job : BgCompaction K) : Prop :=
  ∃ l key, job.compaction.edit = VersionEdit.setCompactPointer {} l key

/-- The edit of a compaction adds its outputs. -/
theorem BgCompaction.Plain.mem_resultEdit {job : BgCompaction K} (h : job.Plain)
    {outputs : ℕ → FileMetaData K} {l : ℕ} {f : FileMetaData K}
    (hf : (l, f) ∈ (job.resultEdit outputs).newFiles) : f.number ∈ job.outputs := by
  obtain ⟨level, key, hedit⟩ := h
  unfold BgCompaction.resultEdit at hf
  rw [job.compaction.resultEdit_eq, hedit] at hf
  simp only [VersionEdit.setCompactPointer, List.nil_append, List.mem_map, Prod.mk.injEq] at hf
  obtain ⟨out, ⟨n, hn, rfl⟩, -, rfl⟩ := hf
  exact hn

/-- The edit of a compaction has no log number. -/
theorem BgCompaction.Plain.resultEdit_logNumber {job : BgCompaction K} (h : job.Plain)
    (outputs : ℕ → FileMetaData K) : (job.resultEdit outputs).logNumber = none := by
  obtain ⟨level, key, hedit⟩ := h
  unfold BgCompaction.resultEdit
  rw [job.compaction.resultEdit_eq, hedit]
  rfl

/-- The edit of a trivial move adds the file that it moves. -/
theorem BgCompaction.Plain.mem_moveEdit {job : BgCompaction K} (h : job.Plain) {g f : FileMetaData K}
    {l : ℕ} (hf : (l, f) ∈ (job.compaction.moveEdit g).newFiles) : f.number = g.number := by
  obtain ⟨level, key, hedit⟩ := h
  unfold Compaction.moveEdit at hf
  rw [hedit] at hf
  obtain ⟨-, rfl⟩ := Prod.mk.inj (List.mem_singleton.mp hf)
  rfl

/-- The edit of a trivial move has no log number. -/
theorem BgCompaction.Plain.moveEdit_logNumber {job : BgCompaction K} (h : job.Plain)
    (f : FileMetaData K) : (job.compaction.moveEdit f).logNumber = none := by
  obtain ⟨level, key, hedit⟩ := h
  unfold Compaction.moveEdit
  rw [hedit]
  rfl

variable [LinearOrder K]

/-- The edit of a flush adds its table. -/
theorem FileState.mem_flushEdit {s : FileState K} {number : ℕ} {base : Held (LevelFiles K)}
    {result : BuildResult K} {l : ℕ} {f : FileMetaData K}
    (h : (l, f) ∈ (s.flushEdit number base result).newFiles) : f.number = number := by
  cases result with
  | failed left => exact absurd h List.not_mem_nil
  | empty => exact absurd h List.not_mem_nil
  | table fileSize smallest largest =>
    obtain ⟨-, rfl⟩ := Prod.mk.inj (List.mem_singleton.mp h)
    rfl

/-- The edit of a flush has the number of the current log. -/
theorem FileState.flushEdit_logNumber (s : FileState K) (number : ℕ) (base : Held (LevelFiles K))
    (result : BuildResult K) :
    (s.flushEdit number base result).logNumber = some s.logFileNumber := by
  cases result <;> rfl

/-- Every compaction that a `BGWork` is in has a plain edit. -/
theorem FileStep.plain {s t : FileState K} {ps qs : List (BgPoint K)} (h : FileStep s ps t qs)
    (hs : ∀ p ∈ ps, ∀ job ∈ p.jobs, job.Plain) : ∀ p ∈ qs, ∀ job ∈ p.jobs, job.Plain := by
  have hresumed : ∀ outer : Option (BgCompaction K), (∀ job ∈ outer.toList, job.Plain) →
      ∀ p ∈ resumed outer, ∀ job ∈ p.jobs, job.Plain := by
    intro outer houter p hp job hjob
    obtain ⟨job', hjob', rfl⟩ := List.mem_map.mp hp
    rw [List.mem_singleton.mp hjob]
    exact houter job' hjob'
  cases h with
  | skip | acquire | release | endGet | newFileNumber | addSequence | switchMemTable => exact hs
  | beginFlush outer =>
    intro p hp job hjob
    rw [List.mem_singleton.mp hp] at hjob
    exact hs (.compacting job) (List.mem_map_of_mem hjob) job (List.mem_singleton_self _)
  | failFlush | installFlush | failLogFlush =>
    exact hresumed _ (hs _ (List.mem_singleton_self _))
  | logFlush =>
    intro p hp job hjob
    rw [List.mem_singleton.mp hp] at hjob
    exact hs _ (List.mem_singleton_self _) job hjob
  | beginJob _ _ hedit | beginMove _ hedit =>
    intro p hp job hjob
    rw [List.mem_singleton.mp hp] at hjob
    rw [List.mem_singleton.mp hjob]
    exact hedit
  | openOutput job | logResults job =>
    intro p hp job' hjob
    rw [List.mem_singleton.mp hp] at hjob
    rw [List.mem_singleton.mp hjob]
    exact hs (.compacting job) (List.mem_singleton_self _) job (List.mem_singleton_self _)
  | failOutput | giveUp | installMove | installResults | failLogMove | failLogResults =>
    exact fun p hp => absurd hp List.not_mem_nil

end Edits

/-! ## Tables -/

/-- A reference to a version is held as the current version, by a reader, or by the background work. -/
theorem FileState.mem_held {s : FileState K} {ps : List (BgPoint K)} {r : Held (LevelFiles K)} :
    r ∈ s.held ps ↔ r = s.currentVersion ∨ r ∈ s.readers ∨ ∃ p ∈ ps, r ∈ p.held := by
  simp [FileState.held]

/-- The numbers of tables are in use, and the table of a flush is in no version yet. -/
structure FileState.Tables (s : FileState K) (ps : List (BgPoint K)) : Prop where
  /-- The current version is tidy. -/
  tidy : s.versions.current.Tidy
  /-- The numbers of tables are in use. -/
  lt : ∀ r ∈ s.held ps, ∀ n ∈ fileNumbers r.value, n < s.versions.nextFileNumber
  /-- The table of a flush is in no version. -/
  fresh : ∀ number base outer, .flushing number base outer ∈ ps →
    number < s.versions.nextFileNumber ∧ ∀ r ∈ s.held ps, number ∉ fileNumbers r.value

/-- The record that a `LogAndApply` writes: its counter is above the numbers of its files, and not
below that of the manifest so far. -/
structure FileState.Loggable (s : FileState K) (edit record : VersionEdit K)
    (next log previous : ℕ) : Prop where
  /-- The counter of the record. -/
  nextFileNumber : record.nextFileNumber = some next
  /-- The counter has only grown since. -/
  next_le : next ≤ s.versions.nextFileNumber
  /-- The log number of the record. -/
  logNumber : record.logNumber = some log
  /-- It is in use. -/
  log_le : log ≤ next
  /-- The files of the record are those of the edit. -/
  newFiles : record.newFiles = edit.newFiles
  /-- The numbers of its files. -/
  files_lt : ∀ l f, (l, f) ∈ edit.newFiles → f.number < next
  /-- The manifest so far. -/
  descriptor : ManifestBounded s.versions.manifestFileNumber
    (s.disk.records s.versions.manifestFileNumber) previous
  /-- Its counter. -/
  previous_le : previous ≤ next

/-- What manifests say about numbers. -/
structure FileState.Manifests (s : FileState K) (ps : List (BgPoint K)) : Prop where
  /-- The manifest that the process writes. -/
  descriptor : ∃ next ≤ s.versions.nextFileNumber, ManifestBounded s.versions.manifestFileNumber
    (s.disk.records s.versions.manifestFileNumber) next
  /-- The manifest that `CURRENT` names. -/
  current : ∀ m, s.disk.current = some m → ∃ next, ManifestBounded m (s.disk.records m) next
  /-- The record that is about to be written. -/
  logging : ∀ edit record work, .logging edit record work ∈ ps →
    ∃ next log previous, s.Loggable edit record next log previous

/-- Tables when versions stay as they are. -/
theorem FileState.Tables.mono {s t : FileState K} {ps qs : List (BgPoint K)} (h : s.Tables ps)
    (hnext : s.versions.nextFileNumber ≤ t.versions.nextFileNumber)
    (htidy : t.versions.current.Tidy) (hheld : ∀ r ∈ t.held qs, r ∈ s.held ps)
    (hfresh : ∀ number base outer, .flushing number base outer ∈ qs →
      .flushing number base outer ∈ ps) : t.Tables qs := by
  refine ⟨htidy, fun r hr n hn => (h.lt r (hheld r hr) n hn).trans_le hnext, ?_⟩
  intro number base outer hmem
  obtain ⟨hlt, hfree⟩ := h.fresh number base outer (hfresh _ _ _ hmem)
  exact ⟨hlt.trans_le hnext, fun r hr => hfree r (hheld r hr)⟩

/-- References of readers and of the current version stay, and threads keep theirs. -/
theorem FileState.held_subset {s t : FileState K} {ps qs : List (BgPoint K)}
    (hcurrent : t.currentVersion = s.currentVersion) (hreaders : t.readers ⊆ s.readers)
    (hps : ∀ r ∈ qs.flatMap BgPoint.held, r = s.currentVersion ∨ r ∈ ps.flatMap BgPoint.held) :
    ∀ r ∈ t.held qs, r ∈ s.held ps := by
  intro r hr
  unfold FileState.held at hr ⊢
  rw [hcurrent] at hr
  simp only [List.mem_cons, List.mem_append] at hr ⊢
  rcases hr with hr | hr | hr
  · exact Or.inl hr
  · exact Or.inr (Or.inl (hreaders hr))
  · rcases hps r hr with hr | hr
    · exact Or.inl hr
    · exact Or.inr (Or.inr hr)

section Steps

variable [LinearOrder K]

/-- The numbers of a version that is installed. -/
theorem FileState.Tables.install {s : FileState K} {ps qs : List (BgPoint K)} (h : s.Tables ps)
    {edit : VersionEdit K} (hedit : ∀ l f, (l, f) ∈ edit.newFiles →
      f.number < s.versions.nextFileNumber)
    {t : FileState K} (hversions : t.versions = s.versions.logAndApply edit)
    (hreaders : t.readers = s.readers)
    (hps : ∀ r ∈ qs.flatMap BgPoint.held, r ∈ ps.flatMap BgPoint.held)
    (hfresh : ∀ number base outer, .flushing number base outer ∉ qs) : t.Tables qs := by
  have hnext : t.versions.nextFileNumber = s.versions.nextFileNumber := by rw [hversions]; rfl
  refine ⟨by rw [hversions]; exact s.versions.logAndApply_tidy edit, ?_, ?_⟩
  · intro r hr n hn
    rw [hnext]
    unfold FileState.held at hr
    simp only [List.mem_cons, List.mem_append] at hr
    rcases hr with rfl | hr | hr
    · have hn' : n ∈ fileNumbers (s.versions.logAndApply edit).current.files := by
        rw [← hversions]
        exact hn
      rcases VersionSet.logAndApply_fileNumbers hn' with hold | ⟨l, f, hf, rfl⟩
      · exact h.lt _ (FileState.mem_held.mpr (Or.inl rfl)) n hold
      · exact hedit l f hf
    · rw [hreaders] at hr
      exact h.lt r (FileState.mem_held.mpr (Or.inr (Or.inl hr))) n hn
    · have hmem : r ∈ s.held ps :=
        List.mem_cons_of_mem _ (List.mem_append_right _ (hps r hr))
      exact h.lt r hmem n hn
  · exact fun number base outer hmem => absurd hmem (hfresh _ _ _)

omit [LinearOrder K] in
/-- The table numbers of a new version are in use, as the record that was written says. -/
theorem FileState.Manifests.edit_lt {s : FileState K} {edit record : VersionEdit K} {work : Work K}
    (h : s.Manifests [.logging edit record work]) :
    ∀ l f, (l, f) ∈ edit.newFiles → f.number < s.versions.nextFileNumber := by
  obtain ⟨next, log, previous, hlog⟩ := h.logging edit record work (List.mem_singleton_self _)
  exact fun l f hf => (hlog.files_lt l f hf).trans_le hlog.next_le

omit [LinearOrder K] in
/-- `Get` changes the statistics of the current version only, and picks a file of it at most. -/
theorem FileState.Tables.endGet {s : FileState K} {ps : List (BgPoint K)} (hs : s.Tables ps)
    (hr : s.Referenced ps) {i : ℕ} {r : Held (LevelFiles K)} {v : Version K}
    (hreader : s.readers[i]? = some r) (hfiles : v.files = s.versions.current.files)
    (hpick : ∀ f l, v.fileToCompact = some (f, l) →
      s.versions.current.fileToCompact = some (f, l) ∨ (r.id = s.currentId ∧ f ∈ r.value l)) :
    ((s.setCurrent v).release i r).Tables ps := by
  have hcurrent : (s.setCurrent v).currentVersion = s.currentVersion := by
    show (⟨s.currentId, v.files⟩ : Held (LevelFiles K)) = _
    rw [hfiles]
    rfl
  refine hs.mono le_rfl ?_ (FileState.held_subset hcurrent (List.eraseIdx_subset) fun r => Or.inr)
    fun _ _ _ => id
  refine ⟨fun l hl => ?_, fun f l hf => ?_⟩
  · show v.files l = []
    rw [hfiles]
    exact hs.tidy.levels l hl
  · show f ∈ v.files l
    rw [hfiles]
    rcases hpick f l hf with hold | ⟨hid, hmem⟩
    · exact hs.tidy.toCompact f l hold
    · have hheld : r ∈ s.held ps :=
        FileState.mem_held.mpr (Or.inr (Or.inl (List.mem_of_getElem? hreader)))
      rw [← hr.eq_current hheld hid]
      exact hmem

omit [LinearOrder K] in
/-- `CompactMemTable` takes a new number for its table, and holds the current version. -/
theorem FileState.Tables.beginFlush {s : FileState K} {outer : Option (BgCompaction K)}
    (hs : s.Tables (resumed outer)) : s.newOutput.refCurrent.Tables
      [.flushing s.versions.nextFileNumber s.currentVersion outer] := by
  have hheld : ∀ r ∈ s.newOutput.refCurrent.held
      [.flushing s.versions.nextFileNumber s.currentVersion outer], r ∈ s.held (resumed outer) := by
    refine FileState.held_subset rfl (List.Subset.refl _) fun r hr => ?_
    rw [flushing_held] at hr
    exact List.mem_cons.mp hr
  refine ⟨hs.tidy, fun r hr n hn => (hs.lt r (hheld r hr) n hn).trans (Nat.lt_succ_self _), ?_⟩
  intro number base outer' hmem
  obtain ⟨rfl, -, -⟩ := BgPoint.flushing.inj (List.mem_singleton.mp hmem)
  -- The number of the new table is that of no table in a version that is held.
  refine ⟨Nat.lt_succ_self _, fun r hr hn => ?_⟩
  exact absurd (hs.lt r (hheld r hr) _ hn) (Nat.lt_irrefl _)

/-- Every step keeps the numbers of tables in use. -/
theorem FileStep.tables {s t : FileState K} {ps qs : List (BgPoint K)} (h : FileStep s ps t qs)
    (hr : s.Referenced ps) (hm : s.Manifests ps) (hs : s.Tables ps) : t.Tables qs := by
  cases h with
  | skip => exact hs
  | acquire =>
    refine hs.mono le_rfl hs.tidy ?_ fun _ _ _ => id
    intro r hr
    rcases FileState.mem_held.mp hr with rfl | hr | hr
    · exact FileState.mem_held.mpr (Or.inl rfl)
    · rcases List.mem_cons.mp hr with rfl | hr
      · exact FileState.mem_held.mpr (Or.inl rfl)
      · exact FileState.mem_held.mpr (Or.inr (Or.inl hr))
    · exact FileState.mem_held.mpr (Or.inr (Or.inr hr))
  -- Whoever goes takes a version with him, and whoever comes holds the current one.
  | release =>
    refine hs.mono le_rfl hs.tidy ?_ fun _ _ _ => id
    exact FileState.held_subset rfl (List.eraseIdx_subset) fun r => Or.inr
  | endGet hreader hfiles hpick => exact hs.endGet hr hreader hfiles hpick
  | newFileNumber => exact hs.mono (Nat.le_succ _) hs.tidy (fun r => id) fun _ _ _ => id
  | addSequence => exact hs.mono le_rfl hs.tidy (fun r => id) fun _ _ _ => id
  | switchMemTable => exact hs.mono (Nat.le_succ _) hs.tidy (fun r => id) fun _ _ _ => id
  | beginFlush outer => exact hs.beginFlush
  | failFlush number base outer result =>
    refine hs.mono le_rfl hs.tidy (FileState.held_subset rfl (List.Subset.refl _) fun r hr => ?_)
      fun _ _ _ hmem => absurd hmem flushing_notMem_resumed
    rw [flushing_held]
    exact Or.inr (List.mem_cons_of_mem _ hr)
  | logFlush number base outer result =>
    refine hs.mono le_rfl hs.tidy (FileState.held_subset rfl (List.Subset.refl _) fun r hr => ?_)
      fun _ _ _ hmem => by cases List.mem_singleton.mp hmem
    rw [loggingFlush_held] at hr
    rw [flushing_held]
    exact Or.inr (List.mem_cons_of_mem _ hr)
  | beginJob hinput =>
    refine hs.mono le_rfl hs.tidy (FileState.held_subset rfl (List.Subset.refl _) fun r hr => ?_)
      fun _ _ _ hmem => by cases List.mem_singleton.mp hmem
    rw [singleton_held] at hr
    exact Or.inl ((List.mem_singleton.mp hr).trans hinput)
  | beginMove hinput =>
    refine hs.mono le_rfl hs.tidy (FileState.held_subset rfl (List.Subset.refl _) fun r hr => ?_)
      fun _ _ _ hmem => by cases List.mem_singleton.mp hmem
    rw [singleton_held] at hr
    exact Or.inl ((List.mem_singleton.mp hr).trans hinput)
  | openOutput job =>
    exact hs.mono (Nat.le_succ _) hs.tidy (fun r => id) fun _ _ _ hmem => by
      cases List.mem_singleton.mp hmem
  | failOutput job =>
    refine hs.mono (Nat.le_succ _) hs.tidy (FileState.held_subset rfl (List.Subset.refl _) ?_)
      fun _ _ _ => by simp
    simp
  | giveUp job =>
    refine hs.mono le_rfl hs.tidy (FileState.held_subset rfl (List.Subset.refl _) ?_)
      fun _ _ _ => by simp
    simp
  | logResults job outputs =>
    exact hs.mono le_rfl hs.tidy (fun r => id) fun _ _ _ hmem => by
      cases List.mem_singleton.mp hmem
  | installFlush edit record outer undeleted =>
    refine hs.install hm.edit_lt rfl rfl ?_ fun _ _ _ => flushing_notMem_resumed
    intro r hr
    rwa [loggingFlush_held]
  | installMove edit record job =>
    exact hs.install hm.edit_lt rfl rfl (by simp) fun _ _ _ => List.not_mem_nil
  | installResults edit record job undeleted =>
    exact hs.install hm.edit_lt rfl rfl (by simp) fun _ _ _ => List.not_mem_nil
  | failLogFlush edit record outer written =>
    have hsub : ∀ r ∈ (resumed outer).flatMap BgPoint.held, r = s.currentVersion ∨
        r ∈ [BgPoint.logging edit record (.flush outer)].flatMap BgPoint.held := by
      intro r hr
      rw [loggingFlush_held]
      exact Or.inr hr
    cases written <;> exact hs.mono le_rfl hs.tidy
      (FileState.held_subset rfl (List.Subset.refl _) hsub)
      fun _ _ _ hmem => absurd hmem flushing_notMem_resumed
  | failLogMove edit record job written | failLogResults edit record job written =>
    cases written <;> exact hs.mono le_rfl hs.tidy
      (FileState.held_subset rfl (List.Subset.refl _) (by simp)) fun _ _ _ => by simp

end Steps

/-! ## What is written to manifests -/

/-- The manifest to which a record is appended has this record at its end. -/
theorem Disk.append_records_self (disk : Disk K) (manifest : ℕ) (record : VersionEdit K) :
    (disk.append manifest record).records manifest = disk.records manifest ++ [record] :=
  Function.update_self _ _ _

/-- A record that is appended to one manifest leaves the others as they are. -/
theorem Disk.append_records_of_ne {disk : Disk K} {m manifest : ℕ} (h : m ≠ manifest)
    {record : VersionEdit K} : (disk.append manifest record).records m = disk.records m :=
  Function.update_of_ne h _ _

/-- What the steps read and write of the manifests: the counter, the number of the manifest, and the
directory. -/
theorem FileState.Manifests.mono {s t : FileState K} {ps qs : List (BgPoint K)} (h : s.Manifests ps)
    (hnext : s.versions.nextFileNumber ≤ t.versions.nextFileNumber)
    (hmanifest : t.versions.manifestFileNumber = s.versions.manifestFileNumber)
    (hrecords : t.disk.records = s.disk.records) (hcurrent : t.disk.current = s.disk.current)
    (hlogging : ∀ edit record work, .logging edit record work ∈ qs →
      .logging edit record work ∈ ps) : t.Manifests qs := by
  obtain ⟨next, hle, hdescriptor⟩ := h.descriptor
  constructor
  · rw [hmanifest, hrecords]
    exact ⟨next, hle.trans hnext, hdescriptor⟩
  · rw [hrecords, hcurrent]
    exact h.current
  · intro edit record work hmem
    obtain ⟨next, log, previous, hlog⟩ := h.logging edit record work (hlogging _ _ _ hmem)
    refine ⟨next, log, previous, hlog.nextFileNumber, hlog.next_le.trans hnext, hlog.logNumber,
      hlog.log_le, hlog.newFiles, hlog.files_lt, ?_, hlog.previous_le⟩
    rw [hmanifest, hrecords]
    exact hlog.descriptor

/-- `LogAndApply` completes an edit whose numbers are in use. -/
theorem FileState.Manifests.begin {s t : FileState K} {ps : List (BgPoint K)} (h : s.Manifests ps)
    {edit : VersionEdit K} {work : Work K}
    (hfiles : ∀ l f, (l, f) ∈ edit.newFiles → f.number < s.versions.nextFileNumber)
    (hlog : edit.logNumber.getD s.versions.logNumber ≤ s.versions.nextFileNumber)
    (hnext : t.versions.nextFileNumber = s.versions.nextFileNumber)
    (hmanifest : t.versions.manifestFileNumber = s.versions.manifestFileNumber)
    (hrecords : t.disk.records = s.disk.records) (hcurrent : t.disk.current = s.disk.current) :
    t.Manifests [.logging edit (s.versions.completeEdit edit) work] := by
  obtain ⟨previous, hle, hdescriptor⟩ := h.descriptor
  have hdescriptor' : ManifestBounded t.versions.manifestFileNumber
      (t.disk.records t.versions.manifestFileNumber) previous := by
    rw [hmanifest, hrecords]
    exact hdescriptor
  constructor
  · exact ⟨previous, hle.trans hnext.ge, hdescriptor'⟩
  · rw [hrecords, hcurrent]
    exact h.current
  · intro edit' record' work' hmem
    obtain ⟨rfl, rfl, -⟩ := BgPoint.logging.inj (List.mem_singleton.mp hmem)
    exact ⟨s.versions.nextFileNumber, _, previous, rfl, hnext.ge, rfl, hlog, rfl, hfiles,
      hdescriptor', hle⟩

/-- When the record of `LogAndApply` gets into the manifest, this manifest is still in order. -/
theorem FileState.Manifests.append {s t : FileState K} {edit record : VersionEdit K} {work : Work K}
    {qs : List (BgPoint K)} (h : s.Manifests [.logging edit record work])
    (hnext : t.versions.nextFileNumber = s.versions.nextFileNumber)
    (hmanifest : t.versions.manifestFileNumber = s.versions.manifestFileNumber)
    (hrecords : t.disk.records = (s.disk.append s.versions.manifestFileNumber record).records)
    (hcurrent : t.disk.current = s.disk.current)
    (hlogging : ∀ edit record work, .logging edit record work ∉ qs) : t.Manifests qs := by
  obtain ⟨next, log, previous, hlog⟩ := h.logging edit record work (List.mem_singleton_self _)
  have happend : ManifestBounded s.versions.manifestFileNumber
      (t.disk.records s.versions.manifestFileNumber) next := by
    rw [hrecords, Disk.append_records_self]
    refine hlog.descriptor.append hlog.previous_le hlog.nextFileNumber hlog.logNumber hlog.log_le ?_
    rw [hlog.newFiles]
    exact hlog.files_lt
  constructor
  · rw [hmanifest]
    exact ⟨next, hlog.next_le.trans hnext.ge, happend⟩
  · intro m hm
    rw [hcurrent] at hm
    -- `CURRENT` need not name the manifest that is written.
    by_cases hother : m = s.versions.manifestFileNumber
    · rw [hother]
      exact ⟨next, happend⟩
    · obtain ⟨next', hbounded⟩ := h.current m hm
      refine ⟨next', ?_⟩
      rw [hrecords, Disk.append_records_of_ne hother]
      exact hbounded
  · exact fun edit record work hmem => absurd hmem (hlogging _ _ _)

/-- The record gets into the manifest, or it does not. -/
theorem FileState.Manifests.fail {s t : FileState K} {edit record : VersionEdit K} {work : Work K}
    {qs : List (BgPoint K)} (h : s.Manifests [.logging edit record work]) (written : Bool)
    (hversions : t.versions = s.versions)
    (hdisk : t.disk = if written then s.disk.append s.versions.manifestFileNumber record else s.disk)
    (hlogging : ∀ edit record work, .logging edit record work ∉ qs) : t.Manifests qs := by
  cases written with
  | true =>
    refine h.append (by rw [hversions]) (by rw [hversions]) ?_ ?_ hlogging
    · rw [hdisk]
      rfl
    · rw [hdisk]
      rfl
  | false =>
    refine h.mono (by rw [hversions]) (by rw [hversions]) ?_ ?_ fun _ _ _ hmem =>
      absurd hmem (hlogging _ _ _)
    · rw [hdisk]
      rfl
    · rw [hdisk]
      rfl

/-! ## Logs -/

/-- The numbers of logs: all are in use, and `log_number_` is not above those that hold the entries of
the memtables. -/
structure FileState.Logs (s : FileState K) (ps : List (BgPoint K)) : Prop where
  /-- The logs in the directory. -/
  lt : ∀ n, (⟨.logFile, n⟩ : FileName) ∈ s.disk.files → n < s.versions.nextFileNumber
  /-- The log of `mem_` -/
  logFile_lt : s.logFileNumber < s.versions.nextFileNumber
  /-- The log of `mem_` is replayed. -/
  logNumber_le : s.versions.logNumber ≤ s.logFileNumber
  /-- The log of `imm_` is replayed. -/
  imm : ∀ l, s.imm = some l → s.versions.logNumber ≤ l
  /-- Only the edit of a flush moves `log_number_`. -/
  logging : ∀ edit record work, .logging edit record work ∈ ps →
    edit.logNumber = none ∨ (∃ outer, work = .flush outer) ∧
      ∃ log, edit.logNumber = some log ∧ log ≤ s.logFileNumber

/-- After `CompactMemTable` there is no `LogAndApply`. -/
theorem logging_notMem_resumed {edit record : VersionEdit K} {work : Work K}
    {outer : Option (BgCompaction K)} : .logging edit record work ∉ resumed outer := by
  cases outer <;> simp [resumed]

/-- A thread in a compaction is not in `LogAndApply`. -/
theorem logging_notMem_compacting {edit record : VersionEdit K} {work : Work K}
    {job : BgCompaction K} : .logging edit record work ∉ [BgPoint.compacting job] := by
  simp

/-- A thread in `BuildTable` is not in `LogAndApply`. -/
theorem logging_notMem_flushing {edit record : VersionEdit K} {work : Work K} {number : ℕ}
    {base : Held (LevelFiles K)} {outer : Option (BgCompaction K)} :
    .logging edit record work ∉ [BgPoint.flushing number base outer] := by
  simp

/-- The logs when no log is created and `log_number_` stays. -/
theorem FileState.Logs.mono {s t : FileState K} {ps qs : List (BgPoint K)} (h : s.Logs ps)
    (hfiles : ∀ n, (⟨.logFile, n⟩ : FileName) ∈ t.disk.files →
      (⟨.logFile, n⟩ : FileName) ∈ s.disk.files)
    (hnext : s.versions.nextFileNumber ≤ t.versions.nextFileNumber)
    (hlogNumber : t.versions.logNumber = s.versions.logNumber)
    (hlogFile : t.logFileNumber = s.logFileNumber) (himm : t.imm = s.imm)
    (hlogging : ∀ edit record work, .logging edit record work ∈ qs →
      .logging edit record work ∈ ps) : t.Logs qs := by
  constructor
  · exact fun n hn => (h.lt n (hfiles n hn)).trans_le hnext
  · rw [hlogFile]
    exact h.logFile_lt.trans_le hnext
  · rw [hlogNumber, hlogFile]
    exact h.logNumber_le
  · rw [hlogNumber, himm]
    exact h.imm
  · rw [hlogFile]
    exact fun edit record work hmem => h.logging edit record work (hlogging _ _ _ hmem)

/-- A table that is created is no log. -/
theorem log_mem_create {disk : Disk K} {number n : ℕ}
    (h : (⟨.logFile, n⟩ : FileName) ∈ (disk.create ⟨.tableFile, number⟩).files) :
    (⟨.logFile, n⟩ : FileName) ∈ disk.files := by
  rcases List.mem_insert_iff.mp h with h | h
  · cases h
  · exact h

/-- However `BuildTable` ends, manifests and `CURRENT` are as they were. -/
theorem BuildResult.apply_manifests (result : BuildResult K) (disk : Disk K) (number : ℕ) :
    (result.apply disk number).records = disk.records ∧
      (result.apply disk number).current = disk.current := by
  cases result with
  | failed left => cases left <;> exact ⟨rfl, rfl⟩
  | empty => exact ⟨rfl, rfl⟩
  | table => exact ⟨rfl, rfl⟩

/-- The tables that `BuildTable` creates and deletes are not logs. -/
theorem BuildResult.log_mem_apply {result : BuildResult K} {disk : Disk K} {number n : ℕ}
    (h : (⟨.logFile, n⟩ : FileName) ∈ (result.apply disk number).files) :
    (⟨.logFile, n⟩ : FileName) ∈ disk.files := by
  cases result with
  | failed left =>
    cases left with
    | false => exact log_mem_create (List.mem_filter.mp h).1
    | true => exact log_mem_create h
  | empty => exact (List.mem_filter.mp h).1
  | table => exact log_mem_create h

/-! ## The invariant -/

/-- The invariant of the process about numbers and references. -/
structure FileState.Numbered (s : FileState K) (ps : List (BgPoint K)) : Prop where
  /-- Reference counts are right. -/
  referenced : s.Referenced ps
  /-- `pending_outputs_` has the numbers of the work in progress. -/
  pending : s.Pending ps
  /-- Compactions have plain edits. -/
  plain : ∀ p ∈ ps, ∀ job ∈ p.jobs, job.Plain
  /-- The numbers of tables. -/
  tables : s.Tables ps
  /-- What manifests say. -/
  manifests : s.Manifests ps
  /-- The numbers of logs. -/
  logs : s.Logs ps

section Steps

variable [LinearOrder K]

/-- Every step keeps what manifests say in order. -/
theorem FileStep.manifests {s t : FileState K} {ps qs : List (BgPoint K)} (h : FileStep s ps t qs)
    (hs : s.Numbered ps) : t.Manifests qs := by
  have hm := hs.manifests
  have hlog : s.versions.logNumber ≤ s.versions.nextFileNumber :=
    hs.logs.logNumber_le.trans hs.logs.logFile_lt.le
  cases h with
  | skip => exact hm
  | acquire | release | endGet | addSequence => exact hm.mono le_rfl rfl rfl rfl fun _ _ _ => id
  | newFileNumber | switchMemTable => exact hm.mono (Nat.le_succ _) rfl rfl rfl fun _ _ _ => id
  | beginFlush outer =>
    exact hm.mono (Nat.le_succ _) rfl rfl rfl fun _ _ _ hmem => absurd hmem logging_notMem_flushing
  | failFlush number base outer result =>
    refine hm.mono le_rfl rfl ?_ ?_ fun _ _ _ hmem => absurd hmem logging_notMem_resumed
    · exact (result.apply_manifests s.disk number).1
    · exact (result.apply_manifests s.disk number).2
  -- Where `LogAndApply` begins, the numbers of the new tables are in use.
  | logFlush number base outer result =>
    obtain ⟨hnumber, -⟩ := hs.tables.fresh number base outer (List.mem_singleton_self _)
    refine hm.begin ?_ ?_ rfl rfl ?_ ?_
    · intro l f hf
      rw [FileState.mem_flushEdit hf]
      exact hnumber
    · rw [s.flushEdit_logNumber]
      exact hs.logs.logFile_lt.le
    · exact (result.apply_manifests s.disk number).1
    · exact (result.apply_manifests s.disk number).2
  | beginJob =>
    exact hm.mono le_rfl rfl rfl rfl fun _ _ _ hmem => absurd hmem logging_notMem_compacting
  | @beginMove job pointer f hinput hedit hf =>
    have hplain : job.Plain := hedit
    refine hm.begin ?_ ?_ rfl rfl rfl rfl
    · intro l g hg
      rw [hplain.mem_moveEdit hg]
      exact hs.tables.lt _ List.mem_cons_self _ (hs.tables.tidy.mem_fileNumbers hf)
    · rw [hplain.moveEdit_logNumber]
      exact hlog
  | openOutput job =>
    exact hm.mono (Nat.le_succ _) rfl rfl rfl fun _ _ _ hmem => absurd hmem logging_notMem_compacting
  | failOutput job =>
    exact hm.mono (Nat.le_succ _) rfl rfl rfl fun _ _ _ hmem => absurd hmem List.not_mem_nil
  | giveUp job => exact hm.mono le_rfl rfl rfl rfl fun _ _ _ hmem => absurd hmem List.not_mem_nil
  | logResults job outputs =>
    have hplain := hs.plain _ (List.mem_singleton_self _) job (List.mem_singleton_self _)
    refine hm.begin ?_ ?_ rfl rfl rfl rfl
    · intro l f hf
      refine hs.pending.lt f.number ?_
      rw [hs.pending.eq, singleton_pending, List.mem_toFinset]
      exact hplain.mem_resultEdit hf
    · rw [hplain.resultEdit_logNumber]
      exact hlog
  | installFlush edit record outer undeleted =>
    exact hm.append rfl rfl rfl rfl fun _ _ _ => logging_notMem_resumed
  | installMove | installResults => exact hm.append rfl rfl rfl rfl fun _ _ _ => List.not_mem_nil
  | failLogFlush edit record outer written =>
    refine hm.fail written ?_ ?_ fun _ _ _ => logging_notMem_resumed
    · cases written <;> rfl
    · cases written <;> rfl
  | failLogMove edit record job written | failLogResults edit record job written =>
    refine hm.fail written ?_ ?_ fun _ _ _ => List.not_mem_nil
    · cases written <;> rfl
    · cases written <;> rfl

/-- Every step keeps the numbers of logs in order. -/
theorem FileStep.logs {s t : FileState K} {ps qs : List (BgPoint K)} (h : FileStep s ps t qs)
    (hs : s.Numbered ps) : t.Logs qs := by
  have hl := hs.logs
  cases h with
  | skip => exact hl
  | acquire | release | endGet | addSequence =>
    exact hl.mono (fun _ => id) le_rfl rfl rfl rfl fun _ _ _ => id
  | newFileNumber => exact hl.mono (fun _ => id) (Nat.le_succ _) rfl rfl rfl fun _ _ _ => id
  | switchMemTable =>
    constructor
    · intro n hn
      rcases List.mem_insert_iff.mp hn with heq | hn
      · cases heq
        exact Nat.lt_succ_self _
      · exact (hl.lt n hn).trans (Nat.lt_succ_self _)
    · exact Nat.lt_succ_self _
    · exact hl.logNumber_le.trans hl.logFile_lt.le
    · intro l himm
      obtain rfl := Option.some.inj himm
      exact hl.logNumber_le
    · intro edit record work hmem
      rcases hl.logging edit record work hmem with hnone | ⟨houter, log, hlog, hle⟩
      · exact Or.inl hnone
      · exact Or.inr ⟨houter, log, hlog, hle.trans hl.logFile_lt.le⟩
  | beginFlush outer =>
    exact hl.mono (fun _ => id) (Nat.le_succ _) rfl rfl rfl fun _ _ _ hmem =>
      absurd hmem logging_notMem_flushing
  | failFlush number base outer result =>
    exact hl.mono (fun _ => BuildResult.log_mem_apply) le_rfl rfl rfl rfl fun _ _ _ hmem =>
      absurd hmem logging_notMem_resumed
  -- The edit of a flush has the number of the log that is in use.
  | logFlush number base outer result =>
    refine ⟨fun n hn => hl.lt n (BuildResult.log_mem_apply hn), hl.logFile_lt, hl.logNumber_le,
      hl.imm, ?_⟩
    intro edit record work hmem
    obtain ⟨rfl, -, rfl⟩ := BgPoint.logging.inj (List.mem_singleton.mp hmem)
    exact Or.inr ⟨⟨outer, rfl⟩, s.logFileNumber, s.flushEdit_logNumber _ _ _, le_rfl⟩
  | beginJob =>
    exact hl.mono (fun _ => id) le_rfl rfl rfl rfl fun _ _ _ hmem =>
      absurd hmem logging_notMem_compacting
  | @beginMove job pointer f hinput hedit hf =>
    have hplain : job.Plain := hedit
    refine ⟨hl.lt, hl.logFile_lt, hl.logNumber_le, hl.imm, ?_⟩
    intro edit record work hmem
    obtain ⟨rfl, -, -⟩ := BgPoint.logging.inj (List.mem_singleton.mp hmem)
    exact Or.inl (hplain.moveEdit_logNumber f)
  | openOutput job =>
    refine hl.mono ?_ (Nat.le_succ _) rfl rfl rfl fun _ _ _ hmem =>
      absurd hmem logging_notMem_compacting
    exact fun n => log_mem_create
  | failOutput job =>
    exact hl.mono (fun _ => id) (Nat.le_succ _) rfl rfl rfl fun _ _ _ hmem =>
      absurd hmem List.not_mem_nil
  | giveUp job =>
    exact hl.mono (fun _ => id) le_rfl rfl rfl rfl fun _ _ _ hmem => absurd hmem List.not_mem_nil
  | logResults job outputs =>
    have hplain := hs.plain _ (List.mem_singleton_self _) job (List.mem_singleton_self _)
    refine ⟨hl.lt, hl.logFile_lt, hl.logNumber_le, hl.imm, ?_⟩
    intro edit record work hmem
    obtain ⟨rfl, -, -⟩ := BgPoint.logging.inj (List.mem_singleton.mp hmem)
    exact Or.inl (hplain.resultEdit_logNumber outputs)
  | installFlush edit record outer undeleted =>
    have hle : edit.logNumber.getD s.versions.logNumber ≤ s.logFileNumber := by
      rcases hl.logging edit record _ (List.mem_singleton_self _) with hnone | ⟨-, log, hlog, hle⟩
      · rw [hnone]
        exact hl.logNumber_le
      · rw [hlog]
        exact hle
    refine ⟨fun n hn => hl.lt n (List.mem_filter.mp hn).1, hl.logFile_lt, hle, ?_, ?_⟩
    · intro l himm
      cases himm
    · exact fun edit record work hmem => absurd hmem logging_notMem_resumed
  | installMove edit record job | installResults edit record job =>
    -- The edit of a compaction leaves the log number as it is.
    have hnone : edit.logNumber = none := by
      rcases hl.logging edit record _ (List.mem_singleton_self _) with hnone | ⟨⟨outer, hwork⟩, -⟩
      · exact hnone
      · cases hwork
    refine hl.mono ?_ le_rfl ?_ rfl rfl fun _ _ _ hmem => absurd hmem List.not_mem_nil
    · first
      | exact fun _ => id
      | exact fun n hn => (List.mem_filter.mp hn).1
    · show edit.logNumber.getD s.versions.logNumber = s.versions.logNumber
      rw [hnone]
      rfl
  | failLogFlush edit record outer written =>
    cases written <;> exact hl.mono (fun _ => id) le_rfl rfl rfl rfl fun _ _ _ hmem =>
      absurd hmem logging_notMem_resumed
  | failLogMove edit record job written | failLogResults edit record job written =>
    cases written <;> exact hl.mono (fun _ => id) le_rfl rfl rfl rfl fun _ _ _ hmem =>
      absurd hmem List.not_mem_nil

/-- Every step that concerns files keeps the invariant of numbers. -/
theorem FileStep.numbered {s t : FileState K} {ps qs : List (BgPoint K)} (h : FileStep s ps t qs)
    (hs : s.Numbered ps) : t.Numbered qs :=
  ⟨h.referenced hs.referenced, h.pending hs.pending, h.plain hs.plain,
    h.tables hs.referenced hs.manifests hs.tables, h.manifests hs, h.logs hs⟩

end Steps

end LevelDb
