import LevelDb.Db.Survival

/-!
# Calls as file operations

`Db` takes whole calls as its steps, and `Site` single file operations. Every run of `Db` is a run of `Site`
in which no call is interrupted: the file operations of each call, one after the other, lead from a site
that carries the database before the call to one that carries the database after it
(`Session.Carries`, `run_carried`). So `CompactMemTable`, `LogAndApply`, `DeleteObsoleteFiles` and
`DB::Open` of the two models are the same. A site may also hold tables that no version names, which only it
builds before the end of a compaction.
-/

namespace LevelDb

open Lib

variable {K V : Type} [LinearOrder K]

/-! ## Tables that no version names -/

/-- The loop of `Version::Get` reads the tables of the files it is given and no others. -/
theorem searchFiles_congr {tables tables' : Tables K V} (ikey : InternalKey K) :
    ∀ {files : List (FileMetaData K × ℕ)} (last : Option (FileMetaData K × ℕ)) (stats : GetStats K),
    (∀ f ∈ files, tables' f.1.number = tables f.1.number) →
    searchFiles tables' ikey files last stats = searchFiles tables ikey files last stats
  | [], _, _, _ => rfl
  | f :: files, last, stats, h => by
    unfold searchFiles
    dsimp only
    rw [h f List.mem_cons_self, searchFiles_congr ikey _ _ fun g hg => h g (List.mem_cons_of_mem f hg)]

/-- `Version::Get` does not see tables that the version does not name. -/
theorem Version.get_congr {v : Version K} {tables tables' : Tables K V}
    (hsame : ∀ g ∈ v.liveFiles, tables' g.number = tables g.number) (ikey : InternalKey K) :
    v.get tables' ikey = v.get tables ikey := by
  refine searchFiles_congr ikey none none fun p hp => ?_
  obtain ⟨level, -, hp⟩ := List.mem_flatMap.mp hp
  obtain ⟨f, hf, rfl⟩ := List.mem_map.mp hp
  exact hsame f ⟨level, Version.mem_of_mem_filesToSearch hf⟩

/-- A compaction whose inputs are live starts from their tables. -/
theorem Compaction.LiveIn.start_congr {c : Compaction K} {v : Version K} (h : c.LiveIn v)
    {tables tables' : Tables K V} (hsame : ∀ g ∈ v.liveFiles, tables' g.number = tables g.number)
    (smallestSnapshot : ℕ) : c.start tables' smallestSnapshot = c.start tables smallestSnapshot := by
  have hinputs : ∀ f ∈ c.inputs0 ++ c.inputs1, tables' f.number = tables f.number := by
    intro f hf
    rcases h.mem_files hf with ⟨-, hf⟩ | ⟨-, hf⟩
    · exact hsame f ⟨_, hf⟩
    · exact hsame f ⟨_, hf⟩
  unfold Compaction.start Compaction.makeInputIterator
  rw [List.flatMap_congr hinputs]

/-- The files of the version that `LogAndApply` installs were live before, or are those of the edit. -/
theorem VersionSet.logAndApply_liveFiles {vs : VersionSet K} {edit : VersionEdit K} {g : FileMetaData K}
    (h : g ∈ (vs.logAndApply edit).current.liveFiles) :
    g ∈ vs.current.liveFiles ∨ ∃ l, (l, g) ∈ edit.newFiles := by
  obtain ⟨l, hg⟩ := h
  rw [vs.logAndApply_files] at hg
  split_ifs at hg
  · rcases (mem_saveLevel.mp hg).1 with hbase | hadded
    · exact Or.inl ⟨l, hbase⟩
    · have hall : g ∈ (({} : Builder K).apply (vs.completeEdit edit)).allFiles := ⟨l, hadded⟩
      rcases Builder.allFiles_apply hall with ⟨l', hnone⟩ | hnew
      · exact absurd hnone List.not_mem_nil
      · exact Or.inr hnew
  · exact absurd hg List.not_mem_nil

/-! ## Runs -/

variable [Inhabited V]

/-- A run leads from one site to the other. -/
def Site.Reaches (o : DbOptions K V) (x y : Site K V) : Prop := ∃ as, x.run o as = some y

section Reaches

variable {o : DbOptions K V} {x y z : Site K V}

/-- A site reaches itself. -/
theorem Site.Reaches.refl (x : Site K V) : x.Reaches o x := ⟨[], rfl⟩

/-- A step before a run. -/
theorem Site.Reaches.head {a : SiteAction K V} (hstep : x.step o a = some y) (h : y.Reaches o z) :
    x.Reaches o z := by
  obtain ⟨as, hrun⟩ := h
  refine ⟨a :: as, ?_⟩
  show (x.step o a).bind (fun y => y.run o as) = some z
  rw [hstep]
  exact hrun

/-- Runs after one another. -/
theorem Site.Reaches.trans (h : x.Reaches o y) (h' : y.Reaches o z) : x.Reaches o z := by
  obtain ⟨as, hrun⟩ := h
  induction as generalizing x with
  | nil => exact Option.some.inj hrun ▸ h'
  | cons a as ih =>
    obtain ⟨w, hstep, hrun⟩ := Option.bind_eq_some_iff.mp hrun
    exact Site.Reaches.head hstep (ih hrun)

/-- A step of an open database. -/
theorem Session.reaches_step {s s' : Session K V} {dir dir' : Directory K V} {j j' : Journal K V}
    {a : SiteAction K V} (hstep : s.step o dir j a = some (dir', s', j')) :
    (⟨dir, .up s, j⟩ : Site K V).Reaches o ⟨dir', .up s', j'⟩ := by
  have hsite : (⟨dir, .up s, j⟩ : Site K V).step o a = some ⟨dir', .up s', j'⟩ := by
    cases a with
    | «open» => cases hstep
    | crash => cases hstep
    | _ =>
      unfold Site.step
      exact Option.map_eq_some_iff.mpr ⟨_, hstep, rfl⟩
  exact Site.Reaches.head hsite (Site.Reaches.refl _)

end Reaches

/-! ## The relation -/

/-- A session, with its files, carries a database while no call is under way: the database with these tables
and log files, and with the manifest that `CURRENT` names. -/
structure Session.Carries (o : DbOptions K V) (s : Session K V) (dir : Directory K V) (tables : Tables K V)
    (oldLogs : List (ℕ × List (WriteBatch K V))) (log : List (WriteBatch K V)) : Prop where
  /-- No flush and no `LogAndApply` is under way. -/
  background : s.background = .idle
  /-- No write is. -/
  writing : s.writing = none
  /-- `CURRENT` -/
  current : dir.current = some s.versions.manifestFileNumber
  /-- The log files. -/
  logs : dir.logs = oldLogs ++ [(s.logFileNumber, log)]
  /-- The tables of the current version. -/
  tables : ∀ g ∈ s.versions.current.liveFiles, dir.tables g.number = tables g.number
  /-- The tables of the compaction in flight. -/
  outputs : s.OutputsBuilt o dir

/-- All outputs that the compaction in flight has finished are files. -/
def Session.AllBuilt (o : DbOptions K V) (s : Session K V) : Prop :=
  ∀ st ∈ s.compacting, s.built = (st.finished o.sizes).length

/-- The database of a session over its manifest. -/
def Session.dbOn (s : Session K V) (dir : Directory K V) (tables : Tables K V)
    (oldLogs : List (ℕ × List (WriteBatch K V))) (log : List (WriteBatch K V)) : Db K V :=
  s.db (dir.manifests s.versions.manifestFileNumber) tables oldLogs log

/-- A site carries a database. -/
def Site.Carries (o : DbOptions K V) (x : Site K V) (db : Db K V) : Prop :=
  ∃ s tables oldLogs log, x.stage = .up s ∧ db = s.dbOn x.dir tables oldLogs log ∧
    s.Carries o x.dir tables oldLogs log ∧ s.AllBuilt o

/-- The file operations of a call lead to a site that carries the database after it. -/
def Site.Performs (o : DbOptions K V) (x : Site K V) (db : Db K V) : Prop :=
  ∃ y, x.Reaches o y ∧ y.Carries o db

section Carries

variable {o : DbOptions K V} {s : Session K V} {dir : Directory K V} {j : Journal K V} {tables : Tables K V}
  {oldLogs : List (ℕ × List (WriteBatch K V))} {log : List (WriteBatch K V)} {m : Marks}

/-- What a site performs that can be reached, a site performs from the start. -/
theorem Site.Reaches.performs {x y : Site K V} {db : Db K V} (h : x.Reaches o y) (h' : y.Performs o db) :
    x.Performs o db := by
  obtain ⟨z, hreach, hcarries⟩ := h'
  exact ⟨z, h.trans hreach, hcarries⟩

/-- A session that carries a database, with all outputs built, is at the end of the call. -/
theorem Session.Carries.performs_db (h : s.Carries o dir tables oldLogs log) (hbuilt : s.AllBuilt o)
    {manifest : List (VersionEdit K)} (hmanifest : dir.manifests s.versions.manifestFileNumber = manifest) :
    (⟨dir, .up s, j⟩ : Site K V).Performs o (s.db manifest tables oldLogs log) :=
  ⟨_, Site.Reaches.refl _, s, tables, oldLogs, log, rfl, hmanifest ▸ rfl, h, hbuilt⟩

/-- So it is with the manifest as the directory has it. -/
theorem Session.Carries.performs (h : s.Carries o dir tables oldLogs log) (hbuilt : s.AllBuilt o) :
    (⟨dir, .up s, j⟩ : Site K V).Performs o (s.dbOn dir tables oldLogs log) :=
  h.performs_db hbuilt rfl

/-- The current log has the largest number of a log file, and the next number is larger. -/
theorem Session.Carries.logs_lt (h : s.Carries o dir tables oldLogs log)
    (hinv : (s.dbOn dir tables oldLogs log).Inv o m) :
    (∀ l ∈ oldLogs, l.1 < s.logFileNumber) ∧ ∀ l ∈ dir.logs, l.1 < s.versions.nextFileNumber := by
  obtain ⟨hold, -⟩ := pairwise_number_concat hinv.openable.sorted log
  have hlast : s.logFileNumber < s.versions.nextFileNumber := hinv.logFile_lt
  refine ⟨hold, fun l hl => ?_⟩
  rw [h.logs] at hl
  rcases List.mem_append.mp hl with hl | hl
  · exact (hold l hl).trans hlast
  · rw [List.mem_singleton.mp hl]
    exact hlast

/-! ## Writes and reads -/

/-- `Write` is a record in the log and then an insertion into the memtable. -/
theorem Session.Carries.write (h : s.Carries o dir tables oldLogs log) (hbuilt : s.AllBuilt o)
    (hinv : (s.dbOn dir tables oldLogs log).Inv o m) (updates : List (Update K V)) :
    (⟨dir, .up s, j⟩ : Site K V).Performs o ((s.dbOn dir tables oldLogs log).write updates) := by
  set b : WriteBatch K V := ⟨s.versions.lastSequence + 1, updates⟩ with hb
  have hadd : s.step o dir j (.addRecord updates) = some (dir.addBatch s.logFileNumber b,
      { s with writing := some b }, { j with written := j.written ++ [b] }) := by
    unfold Session.step Session.addRecord
    dsimp only
    rw [h.writing]
    rfl
  have hinsert : Session.step o { s with writing := some b } (dir.addBatch s.logFileNumber b)
      { j with written := j.written ++ [b] } .insertInto = some (dir.addBatch s.logFileNumber b,
        s.insertInto b,
        { j with written := j.written ++ [b], acknowledged := j.acknowledged ++ [b] }) := rfl
  have hlogs : (dir.addBatch s.logFileNumber b).logs = oldLogs ++ [(s.logFileNumber, log ++ [b])] := by
    unfold Directory.addBatch
    rw [h.logs]
    exact map_addRecord (h.logs_lt hinv).1 log b
  refine (Session.reaches_step hadd).performs ((Session.reaches_step hinsert).performs ?_)
  have hcarries : (s.insertInto b).Carries o (dir.addBatch s.logFileNumber b) tables oldLogs (log ++ [b]) :=
    ⟨h.background, rfl, h.current, hlogs, h.tables, h.outputs⟩
  exact hcarries.performs hbuilt

omit [Inhabited V] in
/-- `Get` does not see tables that no version names, so that it changes the same statistics. -/
theorem Session.get_dbOn (htables : ∀ g ∈ s.versions.current.liveFiles, dir.tables g.number = tables g.number)
    (key : K) (snapshot : Option ℕ) :
    (s.get dir key snapshot).dbOn dir tables oldLogs log =
      ((s.dbOn dir tables oldLogs log).get key snapshot).2 := by
  have hget := Version.get_congr htables (lookupKey key (snapshot.getD s.versions.lastSequence))
  unfold Session.get Db.get
  dsimp only [Session.dbOn, Session.db]
  rw [hget]
  split
  · rfl
  · split <;> rfl

/-- `Get` is one step, after which the files are the same. -/
theorem Session.Carries.get (h : s.Carries o dir tables oldLogs log) (hbuilt : s.AllBuilt o) (key : K)
    (snapshot : Option ℕ) (hsnapshot : snapshot.all (· ∈ s.snapshots) = true) :
    (⟨dir, .up s, j⟩ : Site K V).Performs o ((s.dbOn dir tables oldLogs log).get key snapshot).2 := by
  have hstep : s.step o dir j (.get key snapshot) = some (dir, s.get dir key snapshot, j) :=
    if_pos hsnapshot
  refine (Session.reaches_step hstep).performs ?_
  rw [← Session.get_dbOn h.tables]
  obtain ⟨stats, heq, -⟩ := s.get_eq dir key snapshot
  rw [heq]
  refine Session.Carries.performs ⟨h.background, h.writing, h.current, h.logs, fun g hg => ?_, h.outputs⟩ hbuilt
  obtain ⟨l, hg⟩ := hg
  exact h.tables g ⟨l, s.versions.current.updateStats_files stats ▸ hg⟩

/-- `GetSnapshot` and `ReleaseSnapshot` change the list of snapshots only. -/
theorem Session.Carries.of_snapshots (h : s.Carries o dir tables oldLogs log) (hbuilt : s.AllBuilt o)
    (snapshots : List ℕ) : (⟨dir, .up { s with snapshots := snapshots }, j⟩ : Site K V).Performs o
      { s.dbOn dir tables oldLogs log with snapshots := snapshots } :=
  Session.Carries.performs (s := { s with snapshots := snapshots })
    ⟨h.background, h.writing, h.current, h.logs, h.tables, h.outputs⟩ hbuilt

/-- A switch of memtables creates a log file with a number that no log file has. -/
theorem Session.Carries.switchMemTable (h : s.Carries o dir tables oldLogs log) (hbuilt : s.AllBuilt o)
    (hinv : (s.dbOn dir tables oldLogs log).Inv o m) {db : Db K V}
    (hswitch : (s.dbOn dir tables oldLogs log).switchMemTable = some db) :
    (⟨dir, .up s, j⟩ : Site K V).Performs o db := by
  unfold Db.switchMemTable at hswitch
  split_ifs at hswitch with hcond
  obtain rfl := Option.some.inj hswitch
  have hstep : s.step o dir j .switchMemTable =
      some (dir.createLog s.versions.nextFileNumber, s.newMemTable, j) := by
    unfold Session.step Session.switchMemTable
    dsimp only
    rw [if_pos ⟨Option.isNone_iff_eq_none.mpr h.writing, hcond⟩]
    rfl
  have hlogs : (dir.createLog s.versions.nextFileNumber).logs =
      (oldLogs ++ [(s.logFileNumber, log)]) ++ [(s.versions.nextFileNumber, [])] := by
    have hkeep : dir.logs.filter (fun l => decide (l.1 ≠ s.versions.nextFileNumber)) = dir.logs :=
      List.filter_eq_self.mpr fun l hl => decide_eq_true ((h.logs_lt hinv).2 l hl).ne
    unfold Directory.createLog
    dsimp only
    rw [hkeep, h.logs]
  refine (Session.reaches_step hstep).performs ?_
  have hcarries : s.newMemTable.Carries o (dir.createLog s.versions.nextFileNumber) tables
      (oldLogs ++ [(s.logFileNumber, log)]) [] :=
    ⟨h.background, h.writing, h.current, hlogs, h.tables, h.outputs⟩
  exact hcarries.performs hbuilt

/-! ## `LogAndApply` and `DeleteObsoleteFiles` -/

/-- A run of deletions of log files that are not needed. -/
theorem Session.reaches_deleteLogs (hb : s.background = .deleting) : ∀ (numbers : List ℕ) (dir : Directory K V),
    (∀ n ∈ numbers, s.versions.replays n = false) →
    (⟨dir, .up s, j⟩ : Site K V).Reaches o
      ⟨{ dir with logs := dir.logs.filter fun l => l.1 ∉ numbers }, .up s, j⟩
  | [], dir, _ => by
    have hkeep : dir.logs.filter (fun l => decide (l.1 ∉ ([] : List ℕ))) = dir.logs :=
      List.filter_eq_self.mpr fun l _ => decide_eq_true List.not_mem_nil
    rw [hkeep]
    exact Site.Reaches.refl _
  | n :: numbers, dir, h => by
    have hn := h n List.mem_cons_self
    unfold VersionSet.replays at hn
    rw [Bool.or_eq_false_iff, decide_eq_false_iff_not, decide_eq_false_iff_not] at hn
    have hstep : s.step o dir j (.background (.deleteLog n)) = some (dir.deleteLog n, s, j) := by
      unfold Session.step Session.work
      rw [hb]
      exact if_pos ⟨not_le.mp hn.1, hn.2⟩
    have hrest := Session.reaches_deleteLogs hb numbers (dir.deleteLog n) fun k hk =>
      h k (List.mem_cons_of_mem n hk)
    have hfilter : (dir.deleteLog n).logs.filter (fun l => decide (l.1 ∉ numbers)) =
        dir.logs.filter fun l => decide (l.1 ∉ n :: numbers) := by
      unfold Directory.deleteLog
      dsimp only
      rw [List.filter_filter]
      refine List.filter_congr fun l _ => ?_
      rw [← Bool.decide_and]
      refine decide_eq_decide.mpr ?_
      rw [List.mem_cons, not_or]
      exact and_comm
    rw [hfilter] at hrest
    exact (Session.reaches_step hstep).trans hrest

/-- `DeleteObsoleteFiles` may delete just the log files that recovery would not replay. -/
theorem Session.reaches_deleteObsoleteFiles (hb : s.background = .deleting) :
    (⟨dir, .up s, j⟩ : Site K V).Reaches o
      ⟨{ dir with logs := dir.logs.filter fun l => s.versions.replays l.1 },
        .up { s with background := .idle }, j⟩ := by
  have hdelete := Session.reaches_deleteLogs (o := o) (j := j) hb
    ((dir.logs.map (·.1)).filter fun n => !s.versions.replays n) dir fun n hn => by
      simpa using (List.mem_filter.mp hn).2
  have hfilter : dir.logs.filter (fun l => decide (l.1 ∉
      (dir.logs.map (·.1)).filter fun n => !s.versions.replays n)) =
      dir.logs.filter fun l => s.versions.replays l.1 := by
    refine List.filter_congr fun l hl => ?_
    have hmem : l.1 ∈ dir.logs.map (·.1) := List.mem_map_of_mem hl
    cases hl : s.versions.replays l.1 <;> simp [List.mem_filter, hmem, hl]
  rw [hfilter] at hdelete
  refine hdelete.trans (Session.reaches_step (a := .background .endDelete) ?_)
  unfold Session.step Session.work
  rw [hb]

omit [LinearOrder K] [Inhabited V] in
/-- The current log file is kept. -/
theorem filter_replays {vs : VersionSet K} {n : ℕ} (hn : vs.logNumber ≤ n)
    (oldLogs : List (ℕ × List (WriteBatch K V))) (log : List (WriteBatch K V)) :
    (oldLogs ++ [(n, log)]).filter (fun l => vs.replays l.1) =
      oldLogs.filter (fun l => vs.replays l.1) ++ [(n, log)] := by
  have hreplays : vs.replays n = true := by
    unfold VersionSet.replays
    rw [decide_eq_true hn, Bool.true_or]
  rw [List.filter_append, List.filter_singleton]
  dsimp only
  rw [hreplays, cond_true]

/-- What the caller of `LogAndApply` does after it. -/
def Db.afterLog : Cause → Db K V → Db K V
  | .flush, db => { db with imm := none }.deleteObsoleteFiles
  | .move, db => db
  | .results, db => { db with compacting := none }.deleteObsoleteFiles

/-- `LogAndApply` from the writing of its record on, up to where its caller may delete files. -/
theorem Session.reaches_install (s : Session K V) (dir : Directory K V) (j : Journal K V)
    (edit : VersionEdit K) (cause : Cause) : ∃ j' : Journal K V,
    (⟨dir, .up (s.beginLog edit cause), j⟩ : Site K V).Reaches o
      ⟨dir.addEdit s.versions.manifestFileNumber (s.versions.completeEdit edit),
        .up { s.install edit cause with
          background := match cause with
            | .flush | .results => .deleting
            | .move => .idle }, j'⟩ := by
  have hadd : (s.beginLog edit cause).step o dir j (.background .addEdit) =
      some (dir.addEdit s.versions.manifestFileNumber (s.versions.completeEdit edit),
        { s with background := .logging edit (s.versions.completeEdit edit) cause true },
        { j with compacted := j.compacted ++ s.compacted o dir cause }) := by
    cases cause <;> rfl
  refine ⟨{ j with compacted := j.compacted ++ s.compacted o dir cause },
    (Session.reaches_step hadd).trans (Session.reaches_step (a := .background .install) ?_)⟩
  cases cause <;> rfl

/-- The new version has no files but the old ones and those of the edit, so that a session carries its
database after `LogAndApply` if the tables of the new files are there. -/
theorem Session.Carries.install (h : s.Carries o dir tables oldLogs log) {edit : VersionEdit K}
    (hnew : ∀ p ∈ edit.newFiles, dir.tables p.2.number = tables p.2.number) (cause : Cause)
    {oldLogs' logs : List (ℕ × List (WriteBatch K V))} (hlogs : logs = oldLogs' ++ [(s.logFileNumber, log)])
    (hbuilt : (s.install edit cause).AllBuilt o) :
    (⟨{ dir.addEdit s.versions.manifestFileNumber (s.versions.completeEdit edit) with logs := logs },
      .up { s.install edit cause with background := .idle }, j⟩ : Site K V).Performs o
      ({ s.install edit cause with background := .idle }.db
        (dir.manifests s.versions.manifestFileNumber ++ [s.versions.completeEdit edit]) tables oldLogs' log) := by
  obtain ⟨hwriting, hnumber, hversions⟩ := s.install_spec edit cause
  refine Session.Carries.performs_db (s := { s.install edit cause with background := .idle })
    ⟨rfl, hwriting.trans h.writing, ?_, ?_, fun g hg => ?_, ?_⟩ hbuilt ?_
  · show dir.current = some (s.install edit cause).versions.manifestFileNumber
    rw [hversions]
    exact h.current
  · show logs = oldLogs' ++ [((s.install edit cause).logFileNumber, log)]
    rw [hnumber]
    exact hlogs
  · have hg' : g ∈ (s.versions.logAndApply edit).current.liveFiles := hversions ▸ hg
    rcases VersionSet.logAndApply_liveFiles hg' with hg' | ⟨l, hg'⟩
    · exact h.tables g hg'
    · exact hnew (l, g) hg'
  · cases cause with
    | flush => exact h.outputs
    | move => exact h.outputs
    | results => exact fun st hst => (Option.not_mem_none st hst).elim
  · show (dir.addEdit s.versions.manifestFileNumber _).manifests
      (s.install edit cause).versions.manifestFileNumber = _
    rw [hversions]
    exact Function.update_self _ _ _

/-- The rest of a call from `LogAndApply` on: its record, the new version, and the deletion of the log files
that are not needed any more. -/
theorem Session.Carries.logAndApply (h : s.Carries o dir tables oldLogs log) {edit : VersionEdit K}
    (hnew : ∀ p ∈ edit.newFiles, dir.tables p.2.number = tables p.2.number) (cause : Cause)
    (hneeded : (s.versions.logAndApply edit).logNumber ≤ s.logFileNumber)
    (hbuilt : (s.install edit cause).AllBuilt o) :
    (⟨dir, .up (s.beginLog edit cause), j⟩ : Site K V).Performs o
      (((s.dbOn dir tables oldLogs log).logAndApply edit).afterLog cause) := by
  obtain ⟨j', hinstall⟩ := s.reaches_install (o := o) dir j edit cause
  refine hinstall.performs ?_
  have hlogs : dir.logs.filter (fun l => (s.versions.logAndApply edit).replays l.1) =
      oldLogs.filter (fun l => (s.versions.logAndApply edit).replays l.1) ++ [(s.logFileNumber, log)] := by
    rw [h.logs, filter_replays hneeded]
  cases cause with
  | flush => exact (Session.reaches_deleteObsoleteFiles rfl).performs (h.install hnew .flush hlogs hbuilt)
  | move => exact h.install hnew .move h.logs hbuilt
  | results => exact (Session.reaches_deleteObsoleteFiles rfl).performs (h.install hnew .results hlogs hbuilt)

/-! ## `CompactMemTable` -/

/-- The number of an output that is finished is below the counter, and no live file has it. -/
theorem Session.output_number (hinv : (s.dbOn dir tables oldLogs log).Inv o m) {st : CompactionState K V}
    (hst : s.compacting = some st) {out : FileMetaData K × List (Entry K V)}
    (hout : out ∈ st.finished o.sizes) : out.1.number < s.versions.nextFileNumber ∧
      ∀ g ∈ s.versions.current.liveFiles, g.number ≠ out.1.number := by
  have hcutting := (hinv.compacting st hst).cutting
  have hmem : out.1.number ∈ st.cutting.numbers :=
    (st.finished_numbers o.sizes).subset (List.mem_map_of_mem hout)
  refine ⟨hcutting.number_lt _ hmem, ?_⟩
  rintro g ⟨l, hg⟩
  exact hcutting.unused _ hmem g (hinv.manifest.mem_manifestFiles hg)

omit [Inhabited V] in
/-- What `WriteLevel0Table` does for `CompactMemTable`: it takes a number, and if the memtable has entries,
it writes them to the table of that number and adds it to the edit. -/
theorem Session.writeLevel0Table_spec (o : DbOptions K V) (s : Session K V) (tables : Tables K V)
    (imm : List (Entry K V)) :
    ∃ w, TableWriter.writeLevel0Table o ⟨s.versions, tables, {}⟩ imm (some s.versions.current) = w ∧
      w.versions = { s.versions with nextFileNumber := s.versions.nextFileNumber + 1 } ∧
      { w.edit with prevLogNumber := some 0, logNumber := some s.logFileNumber } =
        s.flushEdit o imm s.versions.nextFileNumber s.versions.current ∧
      (∀ n, n ≠ s.versions.nextFileNumber → w.tables n = tables n) ∧
      ∀ p ∈ w.edit.newFiles, p.2.number = s.versions.nextFileNumber ∧
        w.tables s.versions.nextFileNumber = imm := by
  refine ⟨_, rfl, ?_⟩
  unfold TableWriter.writeLevel0Table Session.flushEdit
  cases imm.head? with
  | none => exact ⟨rfl, rfl, fun _ _ => rfl, fun p hp => absurd hp List.not_mem_nil⟩
  | some first =>
    cases imm.getLast? with
    | none => exact ⟨rfl, rfl, fun _ _ => rfl, fun p hp => absurd hp List.not_mem_nil⟩
    | some last =>
      refine ⟨rfl, rfl, fun n hn => Function.update_of_ne hn _ _, fun p hp => ⟨?_, Function.update_self _ _ _⟩⟩
      obtain rfl := List.mem_singleton.mp hp
      rfl

/-- `CompactMemTable` is `BuildTable`, a record in the manifest, the new version and the deletion of the logs
that are not needed any more. -/
theorem Session.Carries.compactMemTable (h : s.Carries o dir tables oldLogs log) (hbuilt : s.AllBuilt o)
    (hinv : (s.dbOn dir tables oldLogs log).Inv o m) {db : Db K V}
    (hflush : (s.dbOn dir tables oldLogs log).compactMemTable o = some db) :
    (⟨dir, .up s, j⟩ : Site K V).Performs o db := by
  unfold Db.compactMemTable at hflush
  split at hflush
  · simp at hflush
  · next imm himm =>
    split_ifs at hflush with hinput
    obtain rfl := Option.some.inj hflush
    obtain ⟨w, hw, hversions, hedit, hother, hnew⟩ := s.writeLevel0Table_spec o tables imm
    set number := s.versions.nextFileNumber with hnumber
    set t : Session K V := { s with versions := { s.versions with nextFileNumber := number + 1 } } with ht
    set edit := s.flushEdit o imm number s.versions.current with heq
    have hbegin : s.step o dir j (.background .beginFlush) =
        some (dir, { t with background := .building number s.versions.current false }, j) := by
      unfold Session.step Session.work Session.beginFlush
      rw [h.background]
      dsimp only
      rw [if_pos ⟨Option.isSome_iff_exists.mpr ⟨imm, himm⟩, hinput⟩]
      rfl
    have hbuild : Session.step o { t with background := .building number s.versions.current false } dir j
        (.background .buildTable) = some (dir.buildTable number imm,
          { t with background := .building number s.versions.current true }, j) := by
      unfold Session.step Session.work
      exact Option.map_eq_some_iff.mpr ⟨imm, himm, rfl⟩
    have hlog : Session.step o { t with background := .building number s.versions.current true }
        (dir.buildTable number imm) j (.background .logFlush) =
        some (dir.buildTable number imm, t.beginLog edit .flush, j) := by
      unfold Session.step Session.work
      exact Option.map_eq_some_iff.mpr ⟨imm, himm, rfl⟩
    have hlive : ∀ g ∈ s.versions.current.liveFiles, g.number ≠ number := fun g hg =>
      ((hinv.manifest.live_lt g hg).trans_le hinv.manifest.nextFile_le).ne
    have hcarries : t.Carries o (dir.buildTable number imm) w.tables oldLogs log := by
      refine ⟨h.background, h.writing, h.current, h.logs, fun g hg => ?_, fun st hst i hi out hout => ?_⟩
      · rw [hother _ (hlive g hg)]
        exact (Function.update_of_ne (hlive g hg) _ _).trans (h.tables g hg)
      · have hlt := (Session.output_number hinv hst (List.mem_of_getElem? hout)).1
        exact (Function.update_of_ne hlt.ne _ _).trans (h.outputs st hst i hi out hout)
    have hflushed : (s.dbOn dir tables oldLogs log).flushed w =
        ((t.dbOn (dir.buildTable number imm) w.tables oldLogs log).logAndApply edit).afterLog .flush := by
      unfold Db.flushed Session.dbOn
      dsimp only [Session.db]
      rw [hversions, hedit]
      rfl
    have hperforms : (⟨dir.buildTable number imm, .up (t.beginLog edit .flush), j⟩ : Site K V).Performs o
        ((s.dbOn dir tables oldLogs log).flushed w) := by
      rw [hflushed]
      refine hcarries.logAndApply (fun p hp => ?_) .flush (le_refl s.logFileNumber) hbuilt
      rw [← hedit] at hp
      obtain ⟨hp, htable⟩ := hnew p hp
      rw [hp, htable]
      exact Function.update_self _ _ _
    rw [← hw] at hperforms
    exact (Session.reaches_step hbegin).performs ((Session.reaches_step hbuild).performs
      ((Session.reaches_step hlog).performs hperforms))

/-! ## Compactions -/

/-- The outputs that a compaction in flight has finished become files, by induction on their number. -/
theorem Session.Carries.buildOutputs : ∀ (k : ℕ) {s : Session K V} {dir : Directory K V},
    s.Carries o dir tables oldLogs log → (s.dbOn dir tables oldLogs log).Inv o m →
    (∀ st ∈ s.compacting, s.built + k = (st.finished o.sizes).length) →
    (⟨dir, .up s, j⟩ : Site K V).Performs o (s.dbOn dir tables oldLogs log)
  | 0, s, dir, h, _, hk => h.performs hk
  | k + 1, s, dir, h, hinv, hk => by
    cases hst : s.compacting with
    | none => exact h.performs fun st hst' => (Option.not_mem_none st (hst ▸ hst')).elim
    | some st =>
      have hlt : s.built < (st.finished o.sizes).length := by
        have := hk st hst
        omega
      obtain ⟨out, hout⟩ : ∃ out, (st.finished o.sizes)[s.built]? = some out :=
        ⟨_, List.getElem?_eq_getElem hlt⟩
      have hstep : s.step o dir j (.background .buildOutput) =
          some (dir.buildTable out.1.number out.2, { s with built := s.built + 1 }, j) := by
        unfold Session.step Session.work Session.buildOutput
        rw [h.background]
        dsimp only
        rw [hst, Option.bind_some, hout]
        rfl
      have hnumber := (Session.output_number hinv hst (List.mem_of_getElem? hout)).2
      have hcarries : { s with built := s.built + 1 }.Carries o (dir.buildTable out.1.number out.2)
          tables oldLogs log := by
        refine ⟨h.background, h.writing, h.current, h.logs, fun g hg => ?_,
          h.outputs.buildOutput hst (hinv.compacting st hst).cutting.numbers hout⟩
        exact (Function.update_of_ne (hnumber g hg) _ _).trans (h.tables g hg)
      refine (Session.reaches_step hstep).performs (hcarries.buildOutputs k hinv fun st' hst' => ?_)
      have := hk st' hst'
      show s.built + 1 + k = _
      omega

/-- A compaction begins with the tables of its inputs, and has finished no output. -/
theorem Session.Carries.start (h : s.Carries o dir tables oldLogs log)
    (hinv : (s.dbOn dir tables oldLogs log).Inv o m) {c : Compaction K} {level : ℕ}
    (hset : c.SetUpFrom s.versions.current level) (hlevel : level + 1 < kNumLevels)
    (pointer : ℕ → Option (InternalKey K)) :
    (⟨dir, .up { s with
        versions := { s.versions with compactPointer := pointer }
        compacting := some (c.start dir.tables (s.snapshots.head?.getD s.versions.lastSequence))
        built := 0 }, j⟩ : Site K V).Performs o
      { s.dbOn dir tables oldLogs log with
        versions := { s.versions with compactPointer := pointer }
        compacting := some (c.start tables (s.dbOn dir tables oldLogs log).smallestSnapshot) } := by
  have hstart := (hset.liveIn hlevel).start_congr h.tables (s.snapshots.head?.getD s.versions.lastSequence)
  rw [hstart]
  refine Session.Carries.buildOutputs (s := { s with
      versions := { s.versions with compactPointer := pointer }
      compacting := some (c.start tables (s.snapshots.head?.getD s.versions.lastSequence))
      built := 0 }) ((c.start tables (s.snapshots.head?.getD s.versions.lastSequence)).finished o.sizes).length
    ⟨h.background, h.writing, h.current, h.logs, h.tables, fun st _ i hi => absurd hi (Nat.not_lt_zero i)⟩
    (hinv.start hset hlevel pointer _) fun st hst => ?_
  obtain rfl := Option.some.inj hst
  exact Nat.zero_add _

/-- A compaction chosen by `PickCompaction` begins, or moves a file. -/
theorem Session.Carries.beginCompaction (h : s.Carries o dir tables oldLogs log)
    (hinv : (s.dbOn dir tables oldLogs log).Inv o m) {db : Db K V}
    (hbegin : (s.dbOn dir tables oldLogs log).beginCompaction = some db) :
    (⟨dir, .up s, j⟩ : Site K V).Performs o db := by
  unfold Db.beginCompaction at hbegin
  split_ifs at hbegin with hidle
  have hnone : s.compacting = none := Option.not_isSome_iff_eq_none.mp (not_or.mp hidle).2
  split at hbegin
  · simp at hbegin
  · next c vs hpick =>
    obtain ⟨hset, hlevel, pointer, rfl⟩ := hinv.layout.pickCompaction_setUpFrom hpick
    have hstep : ∀ {t : Session K V}, s.beginCompaction dir = some t →
        s.step o dir j (.background .beginCompaction) = some (dir, t, j) := by
      intro t ht
      unfold Session.step Session.work
      rw [h.background]
      exact Option.map_eq_some_iff.mpr ⟨t, ht, rfl⟩
    have hpick : s.versions.pickCompaction = some (c, { s.versions with compactPointer := pointer }) := hpick
    unfold Session.beginCompaction at hstep
    rw [if_neg (show ¬(s.imm.isSome ∨ s.compacting.isSome) from hidle), hpick] at hstep
    dsimp only at hstep
    split at hbegin
    · next f htriv hhead =>
      obtain rfl := Option.some.inj hbegin
      rw [htriv, hhead] at hstep
      have hmove : { s with versions := { s.versions with compactPointer := pointer } }.Carries o dir tables
          oldLogs log := ⟨h.background, h.writing, h.current, h.logs, h.tables, h.outputs⟩
      obtain ⟨key, hkey⟩ := hset.edit
      refine (Session.reaches_step (hstep rfl)).performs
        (hmove.logAndApply (fun p hp => ?_) .move ?_ fun st hst => ?_)
      · -- The new file is the one that moves.
        unfold Compaction.moveEdit at hp
        rw [hkey] at hp
        obtain rfl := List.mem_singleton.mp hp
        exact h.tables f ⟨_, hset.inputs0.subset (List.mem_of_mem_head? hhead)⟩
      · show (c.moveEdit f).logNumber.getD s.versions.logNumber ≤ s.logFileNumber
        unfold Compaction.moveEdit
        rw [hkey]
        exact hinv.logNumber_le
      · exact (Option.not_mem_none st (hnone ▸ hst)).elim
    · next hother =>
      obtain rfl := Option.some.inj hbegin
      refine (Session.reaches_step (hstep ?_)).performs (h.start hinv hset hlevel pointer)
      split
      · next f htriv hhead => exact absurd hhead (hother f htriv)
      · rfl

/-- A compaction chosen by `CompactRange` begins. -/
theorem Session.Carries.beginManual (h : s.Carries o dir tables oldLogs log)
    (hinv : (s.dbOn dir tables oldLogs log).Inv o m) {level : ℕ} {first last : K} {db : Db K V}
    (hbegin : (s.dbOn dir tables oldLogs log).beginManual level first last = some db) :
    (⟨dir, .up s, j⟩ : Site K V).Performs o db := by
  unfold Db.beginManual at hbegin
  split_ifs at hbegin with hidle
  split at hbegin
  · simp at hbegin
  · next c vs hrange =>
    obtain rfl := Option.some.inj hbegin
    obtain ⟨hset, pointer, rfl⟩ := hinv.layout.compactRange_setUpFrom hrange
    have hperforms := h.start (j := j) hinv hset (not_le.mp (not_or.mp (not_or.mp hidle).2).2) pointer
    refine (Session.reaches_step (a := .background (.beginManual level first last)) ?_).performs hperforms
    have hrange : s.versions.compactRange level (.pack first kMaxSequenceNumber kValueTypeForSeek)
        (.pack last 0 .deletion) = some (c, { s.versions with compactPointer := pointer }) := hrange
    unfold Session.step Session.work Session.beginManual
    rw [h.background]
    dsimp only
    rw [if_neg (show ¬(s.imm.isSome ∨ s.compacting.isSome ∨ kNumLevels ≤ level + 1) from hidle), hrange]
    rfl

/-- A round of the loop of `DoCompactionWork`, and the outputs that it finishes. -/
theorem Session.Carries.workCompaction (h : s.Carries o dir tables oldLogs log) (hbuilt : s.AllBuilt o)
    (hinv : (s.dbOn dir tables oldLogs log).Inv o m) {db : Db K V}
    (hwork : (s.dbOn dir tables oldLogs log).workCompaction o = some db) :
    (⟨dir, .up s, j⟩ : Site K V).Performs o db := by
  have hinv' := hinv.workCompaction hwork
  unfold Db.workCompaction at hwork
  split at hwork
  · simp at hwork
  · next st hst =>
    split_ifs at hwork with hempty
    obtain rfl := Option.some.inj hwork
    have hfinished : st.finished o.sizes = st.cutting.outputs := if_neg hempty
    have hlength : s.built = st.cutting.outputs.length := hfinished ▸ hbuilt st hst
    have hstep : s.step o dir j (.background .workCompaction) = some (dir, { s with
        compacting := some (st.workStep o.sizes s.versions.nextFileNumber).1
        versions := { s.versions with
          nextFileNumber := (st.workStep o.sizes s.versions.nextFileNumber).2 } }, j) := by
      unfold Session.step Session.work Session.workCompaction
      rw [h.background]
      dsimp only
      rw [show s.compacting = some st from hst]
      dsimp only
      rw [if_neg (not_or.mpr ⟨hempty, not_not.mpr hlength⟩)]
      rfl
    refine (Session.reaches_step hstep).performs ?_
    have hle : s.built ≤ ((st.workStep o.sizes s.versions.nextFileNumber).1.finished o.sizes).length := by
      rw [hlength]
      exact ((st.outputs_workStep o.sizes _).trans (CompactionState.outputs_finished o.sizes _)).length_le
    obtain ⟨k, hk⟩ := Nat.exists_eq_add_of_le hle
    refine Session.Carries.buildOutputs (s := { s with
        compacting := some (st.workStep o.sizes s.versions.nextFileNumber).1
        versions := { s.versions with
          nextFileNumber := (st.workStep o.sizes s.versions.nextFileNumber).2 } }) k
      ⟨h.background, h.writing, h.current, h.logs, h.tables, fun st' hst' i hi out hout => ?_⟩ hinv'
      fun st' hst' => ?_
    · obtain rfl := Option.some.inj hst'
      rw [st.getElem?_workStep o.sizes s.versions.nextFileNumber (hlength ▸ hi)] at hout
      exact h.outputs st hst i hi out hout
    · obtain rfl := Option.some.inj hst'
      exact hk.symm

/-- The end of `DoCompactionWork`: when all outputs are files, `LogAndApply` installs them. -/
theorem Session.Carries.finishCompaction (h : s.Carries o dir tables oldLogs log) (hbuilt : s.AllBuilt o)
    (hinv : (s.dbOn dir tables oldLogs log).Inv o m) {db : Db K V}
    (hfinish : (s.dbOn dir tables oldLogs log).finishCompaction o = some db) :
    (⟨dir, .up s, j⟩ : Site K V).Performs o db := by
  unfold Db.finishCompaction at hfinish
  split at hfinish
  · simp at hfinish
  · next st hst =>
    split_ifs at hfinish with hempty
    obtain rfl := Option.some.inj hfinish
    have hfinished : st.finished o.sizes = st.finalOutputs o.sizes := if_pos hempty
    have hlength : s.built = (st.finalOutputs o.sizes).length := hfinished ▸ hbuilt st hst
    have hstep : s.step o dir j (.background .logResults) = some (dir,
        s.beginLog (st.compaction.resultEdit (st.finalOutputs o.sizes)) .results, j) := by
      unfold Session.step Session.work Session.beginResults
      rw [h.background]
      dsimp only
      rw [show s.compacting = some st from hst]
      dsimp only
      rw [if_pos ⟨hempty, hlength⟩]
      rfl
    have hfiles : ∀ out ∈ st.finalOutputs o.sizes, dir.tables out.1.number = out.2 := by
      intro out hout
      obtain ⟨i, hi, heq⟩ := List.mem_iff_getElem.mp hout
      exact h.outputs st hst i (hlength ▸ hi) out (hfinished ▸ List.getElem?_eq_some_iff.mpr ⟨hi, heq⟩)
    have hinflight := hinv.compacting st hst
    have hnumber : ∀ out ∈ st.finalOutputs o.sizes, _ := fun out hout =>
      (Session.output_number hinv hst (hfinished ▸ hout)).2
    obtain ⟨hproduces, -⟩ := hinflight.finalOutputs (List.isEmpty_iff.mp hempty) o.sizes fun g hg => by
      obtain ⟨l, hg⟩ := hg
      exact hinv.manifest.mem_manifestFiles hg
    have hcarries : s.Carries o dir (addTables tables (st.finalOutputs o.sizes)) oldLogs log := by
      refine ⟨h.background, h.writing, h.current, h.logs, fun g hg => ?_, h.outputs⟩
      rw [addTables_of_ne fun out hout => (hnumber out hout g hg).symm]
      exact h.tables g hg
    obtain ⟨l, key, hkey⟩ := hinflight.live.edit
    refine (Session.reaches_step hstep).performs
      (hcarries.logAndApply (fun p hp => ?_) .results ?_ fun st' hst' => (Option.not_mem_none st' hst').elim)
    · obtain ⟨-, out, hout, heq⟩ := (hinflight.live.mem_newFiles _ p.1 p.2).mp hp
      rw [← heq, hfiles out hout, addTables_of_mem hproduces.numbers out hout]
    · show (st.compaction.resultEdit _).logNumber.getD s.versions.logNumber ≤ s.logFileNumber
      rw [st.compaction.resultEdit_eq, hkey]
      exact hinv.logNumber_le

end Carries

/-! ## `DB::Open` -/

/-- Two recoveries differ in tables only, and agree on those of some numbers and of the new files. -/
structure Recovery.Alike (numbers : Set ℕ) (r r' : Recovery K V) : Prop where
  /-- The version sets are the same. -/
  versions : r'.writer.versions = r.writer.versions
  /-- So are the edits. -/
  edit : r'.writer.edit = r.writer.edit
  /-- So are the largest sequence numbers. -/
  maxSequence : r'.maxSequence = r.maxSequence
  /-- The tables of the numbers. -/
  tables : ∀ n ∈ numbers, r'.writer.tables n = r.writer.tables n
  /-- The tables of the new files. -/
  newTables : ∀ p ∈ r.writer.edit.newFiles, r'.writer.tables p.2.number = r.writer.tables p.2.number

section Open

variable {o : DbOptions K V} {dir : Directory K V} {j : Journal K V}

omit [Inhabited V] in
/-- `WriteLevel0Table` writes the same table. -/
theorem Recovery.Alike.writeLevel0Table {numbers : Set ℕ} {r r' : Recovery K V} (h : r.Alike numbers r')
    (mem : List (Entry K V)) :
    ({ r with writer := r.writer.writeLevel0Table o mem none } : Recovery K V).Alike numbers
      { r' with writer := r'.writer.writeLevel0Table o mem none } := by
  obtain ⟨⟨versions, tables, edit⟩, maxSequence⟩ := r
  obtain ⟨⟨versions', tables', edit'⟩, maxSequence'⟩ := r'
  obtain ⟨rfl, rfl, rfl, htables, hnew⟩ := h
  unfold TableWriter.writeLevel0Table
  cases mem.head? with
  | none => exact ⟨rfl, rfl, rfl, htables, hnew⟩
  | some first =>
    cases mem.getLast? with
    | none => exact ⟨rfl, rfl, rfl, htables, hnew⟩
    | some last =>
      have hupdate : ∀ n, tables' n = tables n → Function.update tables' versions'.nextFileNumber mem n =
          Function.update tables versions'.nextFileNumber mem n := by
        intro n hn
        by_cases heq : n = versions'.nextFileNumber
        · rw [heq, Function.update_self, Function.update_self]
        · rw [Function.update_of_ne heq, Function.update_of_ne heq, hn]
      refine ⟨rfl, rfl, rfl, fun n hn => hupdate n (htables n hn), fun p hp => ?_⟩
      rcases List.mem_append.mp hp with hp | hp
      · exact hupdate _ (hnew p hp)
      · obtain rfl := List.mem_singleton.mp hp
        dsimp only
        rw [Function.update_self, Function.update_self]

/-- The loop of `RecoverLogFile` does the same with other tables, by induction on the records. -/
theorem Recovery.Alike.replay {numbers : Set ℕ} : ∀ (batches : List (WriteBatch K V))
    (mem : Option (List (Entry K V))) {r r' : Recovery K V}, r.Alike numbers r' →
    (r.replay o batches mem).Alike numbers (r'.replay o batches mem)
  | [], none, r, r', h => h
  | [], some mem, r, r', h => h.writeLevel0Table mem
  | b :: batches, mem, r, r', h => by
    have hmax : ({ r with maxSequence := max r.maxSequence (b.sequence + b.count - 1) } :
        Recovery K V).Alike numbers
        { r' with maxSequence := max r'.maxSequence (b.sequence + b.count - 1) } :=
      ⟨h.versions, h.edit, congrArg (max · _) h.maxSequence, h.tables, h.newTables⟩
    rw [Recovery.replay, Recovery.replay]
    split_ifs
    · exact Recovery.Alike.replay batches none (hmax.writeLevel0Table _)
    · exact Recovery.Alike.replay batches _ hmax

/-- `DBImpl::Recover` does the same with other tables, by induction on the log files. -/
theorem Recovery.Alike.recoverLogFiles {numbers : Set ℕ} : ∀ (logs : List (ℕ × List (WriteBatch K V)))
    {r r' : Recovery K V}, r.Alike numbers r' → (logs.foldl (Recovery.recoverLogFile o) r).Alike numbers
      (logs.foldl (Recovery.recoverLogFile o) r')
  | [], r, r', h => h
  | l :: logs, r, r', h => by
    have hreplay := h.replay (o := o) l.2 none
    have hfile : (r.recoverLogFile o l).Alike numbers (r'.recoverLogFile o l) :=
      ⟨congrArg (fun vs => vs.markFileNumberUsed l.1) hreplay.versions, hreplay.edit, hreplay.maxSequence,
        hreplay.tables, hreplay.newTables⟩
    exact Recovery.Alike.recoverLogFiles logs hfile

omit [LinearOrder K] [Inhabited V] in
/-- The last sequence number is the same. -/
theorem Recovery.Alike.setLastSequence {numbers : Set ℕ} {r r' : Recovery K V} (h : r.Alike numbers r') :
    r'.setLastSequence = r.setLastSequence := by
  unfold Recovery.setLastSequence
  rw [h.versions, h.maxSequence]

/-- `DBImpl::Recover` gets to the end of the log files and writes tables on the way, by induction on how far
it is from the end. -/
theorem Replaying.reaches_end : ∀ (n : ℕ) (r : Replaying K V) (dir : Directory K V), r.rank = n →
    (r.logs = [] → r.mem = none) → ∃ r' tables',
      (⟨dir, .replaying r, j⟩ : Site K V).Reaches o ⟨{ dir with tables := tables' }, .replaying r', j⟩ ∧
        r'.logs = [] ∧ r'.recovery tables' = r.finish o dir.tables := by
  intro n
  induction n using Nat.strong_induction_on with
  | _ n ih =>
    intro r dir hn hmem
    cases hlogs : r.logs with
    | nil =>
      refine ⟨r, dir.tables, Site.Reaches.refl _, hlogs, ?_⟩
      rw [Replaying.finish_of_mem o (hmem hlogs), hlogs]
      rfl
    | cons log logs =>
      obtain ⟨number, batches⟩ := log
      obtain ⟨hframe, hfinish, hmem', hlt⟩ := Replaying.round_spec o r dir hlogs
      have hstep : (⟨dir, .replaying r, j⟩ : Site K V).step o .open =
          some ⟨(r.round o dir number batches logs).1, .replaying (r.round o dir number batches logs).2, j⟩ := by
        unfold Site.step Site.open
        dsimp only
        rw [hlogs]
      obtain ⟨r', tables', hreach, hnil, hrecovery⟩ :=
        ih _ (hn ▸ hlt) (r.round o dir number batches logs).2 (r.round o dir number batches logs).1 rfl hmem'
      refine ⟨r', tables', Site.Reaches.head hstep ?_, hnil, hrecovery.trans hfinish⟩
      rw [hframe.dir_eq] at hreach ⊢
      exact hreach

/-- `LogAndApply` of `DB::Open` writes the records of the new manifest, and `SetCurrentFile` names it. -/
theorem Opening.reaches_session (r : Opening K) (hstage : r.stage = .missing) (dir : Directory K V) :
    ∃ dir' : Directory K V, (⟨dir, .opening r, j⟩ : Site K V).Reaches o ⟨dir', .up r.session, j⟩ ∧
      dir'.current = some r.versions.manifestFileNumber ∧
      dir'.manifests r.versions.manifestFileNumber = r.records o ∧ dir'.logs = dir.logs ∧
      dir'.tables = dir.tables := by
  obtain ⟨versions, edit, logFileNumber, stage⟩ := r
  obtain rfl : stage = .missing := hstage
  set number := versions.manifestFileNumber with hnumber
  set created := dir.createManifest number [] with hcreated
  set snapshot := created.addEdit number (versions.snapshotEdit o.comparator) with hsnapshot
  set recorded := snapshot.addEdit number (versions.completeEdit edit) with hrecorded
  have hopen : ∀ {dir dir' : Directory K V} {stage : ManifestStage} (stage' : ManifestStage),
      (⟨versions, edit, logFileNumber, stage⟩ : Opening K).writeManifest o dir =
        some (dir', ⟨versions, edit, logFileNumber, stage'⟩) →
      (⟨dir, .opening ⟨versions, edit, logFileNumber, stage⟩, j⟩ : Site K V).step o .open =
        some ⟨dir', .opening ⟨versions, edit, logFileNumber, stage'⟩, j⟩ := by
    intro dir dir' stage stage' hwrite
    unfold Site.step Site.open
    dsimp only
    rw [hwrite]
  have hcurrent : (⟨recorded, .opening ⟨versions, edit, logFileNumber, .recorded⟩, j⟩ : Site K V).step o .open =
      some ⟨{ recorded with current := some number },
        .up (Opening.session ⟨versions, edit, logFileNumber, .recorded⟩), j⟩ := rfl
  refine ⟨{ recorded with current := some number }, ?_, rfl, ?_, rfl, rfl⟩
  · exact Site.Reaches.head (hopen .created rfl) (Site.Reaches.head (hopen .snapshot rfl)
      (Site.Reaches.head (hopen .recorded rfl) (Site.Reaches.head hcurrent (Site.Reaches.refl _))))
  · have hfirst : created.manifests number = [] := Function.update_self _ _ _
    have hsecond : snapshot.manifests number = [versions.snapshotEdit o.comparator] := by
      rw [hsnapshot]
      exact (Function.update_self _ _ _).trans (by rw [hfirst, List.nil_append])
    show recorded.manifests number = _
    rw [hrecorded]
    exact (Function.update_self _ _ _).trans (by rw [hsecond]; rfl)

/-- `DB::Open` after `VersionSet::Recover` leads to a site that carries the database that it returns. -/
theorem Openable.performs {manifest : ℕ} {tables : Tables K V} {logs : List (ℕ × List (WriteBatch K V))}
    {vs : VersionSet K} {m : Marks} {last : ℕ}
    (h : Openable o (dir.manifests manifest) tables logs vs m last) (hlogs : dir.logs = logs)
    (htables : ∀ g ∈ vs.current.liveFiles, dir.tables g.number = tables g.number) {db : Db K V}
    (hopen : openDb o (dir.manifests manifest) tables logs = .ok db) :
    (⟨dir, dir.recover o manifest, j⟩ : Site K V).Performs o db := by
  obtain ⟨vs', hrec, hfiles, -, hlog, -⟩ := h.manifest.recover_layout h.layout
  have hneeded : logsToRecover vs' logs = logs :=
    logsToRecover_eq h.sorted fun l hl => hlog ▸ (h.needed l hl).2
  obtain ⟨news, hadds, -, -, hused⟩ := Recovery.recoverLogFiles_spec o h.sequence_le logs
    ⟨⟨vs', tables, {}⟩, 0⟩ h.log
  -- What `Recover` has done with the tables of the two models.
  set numbers : Set ℕ := {n | ∃ g ∈ vs'.current.liveFiles, g.number = n} with hnumbers
  have hstart : (⟨⟨vs', tables, {}⟩, 0⟩ : Recovery K V).Alike numbers ⟨⟨vs', dir.tables, {}⟩, 0⟩ := by
    refine ⟨rfl, rfl, rfl, ?_, fun p hp => absurd hp List.not_mem_nil⟩
    rintro n ⟨g, ⟨l, hg⟩, rfl⟩
    exact htables g ⟨l, hfiles ▸ hg⟩
  have halike := hstart.recoverLogFiles (o := o) logs
  obtain ⟨r, tables', hreach, hnil, hfinish⟩ := Replaying.reaches_end (o := o) (j := j) _
    { versions := vs', logs := logs } dir rfl fun _ => rfl
  rw [Replaying.finish_of_mem o rfl] at hfinish
  have hfinish : r.recovery tables' =
      logs.foldl (Recovery.recoverLogFile o) ⟨⟨vs', dir.tables, {}⟩, 0⟩ := hfinish
  rw [← hfinish] at halike
  unfold openDb at hopen
  rw [hrec] at hopen
  simp only [bind, Except.bind, pure, Except.pure] at hopen
  rw [hneeded] at hopen
  obtain rfl := Except.ok.inj hopen
  generalize logs.foldl (Recovery.recoverLogFile o) ⟨⟨vs', tables, {}⟩, 0⟩ = done at *
  have hsame : done.setLastSequence.nextFileNumber = done.writer.versions.nextFileNumber ∧
      done.setLastSequence.current = vs'.current := by
    have hcurrent : done.writer.versions.current = vs'.current := congrArg (·.current) hadds.versions
    unfold Recovery.setLastSequence
    split_ifs
    · exact ⟨rfl, hcurrent⟩
    · exact ⟨rfl, hcurrent⟩
  -- The new log file, the new manifest and the deletion of the old log files.
  have hnew : r.newLog { dir with tables := tables' } =
      ({ dir with tables := tables' }.createLog done.setLastSequence.nextFileNumber,
        { versions := { done.setLastSequence with
            nextFileNumber := done.setLastSequence.nextFileNumber + 1 }
          edit := { done.writer.edit with logNumber := some done.setLastSequence.nextFileNumber }
          logFileNumber := done.setLastSequence.nextFileNumber }) := by
    have hset : Recovery.setLastSequence ⟨⟨r.versions, tables', r.edit⟩, r.maxSequence⟩ =
        done.setLastSequence := halike.setLastSequence
    unfold Replaying.newLog
    dsimp only
    rw [hset, show r.edit = done.writer.edit from halike.edit]
  have hstep : (⟨{ dir with tables := tables' }, .replaying r, j⟩ : Site K V).step o .open =
      some ⟨(r.newLog { dir with tables := tables' }).1, .opening (r.newLog { dir with tables := tables' }).2,
        j⟩ := by
    unfold Site.step Site.open
    dsimp only
    rw [hnil]
  rw [hnew] at hstep
  dsimp only at hstep
  generalize done.setLastSequence = versions at *
  set number := versions.nextFileNumber with hnumber
  set edit : VersionEdit K := { done.writer.edit with logNumber := some number } with hedit
  set t : Opening K := ⟨{ versions with nextFileNumber := number + 1 }, edit, number, .missing⟩ with ht
  obtain ⟨dir', hopening, hcurrent, hmanifest, hlogs', htables'⟩ := t.reaches_session (o := o) (j := j) rfl
    ({ dir with tables := tables' }.createLog number)
  have hstage : dir.recover o manifest = .replaying { versions := vs', logs := logs } := by
    unfold Directory.recover
    rw [hrec]
    dsimp only
    rw [hlogs, hneeded]
  rw [hstage]
  refine hreach.performs (Site.Reaches.performs (Site.Reaches.head hstep hopening)
    ((Session.reaches_deleteObsoleteFiles rfl).performs ?_))
  have hcarries : { (t.session : Session K V) with background := .idle }.Carries o
      { dir' with logs := dir'.logs.filter fun l => (t.session : Session K V).versions.replays l.1 }
      done.writer.tables (logs.filter fun l => (t.session : Session K V).versions.replays l.1) [] := by
    refine ⟨rfl, rfl, hcurrent, ?_, fun g hg => ?_, fun st hst => (Option.not_mem_none st hst).elim⟩
    · have hkeep : dir.logs.filter (fun l => decide (l.1 ≠ number)) = logs := by
        rw [hlogs]
        exact List.filter_eq_self.mpr fun l hl => decide_eq_true (hsame.1 ▸ hused l hl).ne
      show dir'.logs.filter _ = _
      rw [hlogs']
      unfold Directory.createLog
      dsimp only
      rw [hkeep]
      exact filter_replays (le_refl number) logs []
    · show dir'.tables g.number = _
      rw [htables']
      rcases VersionSet.logAndApply_liveFiles hg with ⟨l, hg⟩ | ⟨l, hg⟩
      · exact halike.tables _ ⟨g, ⟨l, hsame.2 ▸ hg⟩, rfl⟩
      · exact halike.newTables (l, g) hg
  exact hcarries.performs_db (fun st hst => (Option.not_mem_none st hst).elim) hmanifest

/-- `NewDB` and `DB::Open` lead to a site that carries a new database. -/
theorem createDb_performs {db : Db K V} (hcreate : createDb o = .ok db) :
    ({} : Site K V).Performs o db := by
  have hmanifest : (Directory.createManifest {} 1 (newDbManifest o) : Directory K V).manifests 1 =
      newDbManifest o := by
    simp [Directory.createManifest]
  generalize hcreated : (Directory.createManifest {} 1 (newDbManifest o) : Directory K V) = created at hmanifest
  have hnew : ({} : Site K V).step o .open = some ⟨created, .creating, {}⟩ := hcreated ▸ rfl
  have hcurrent : (⟨created, .creating, {}⟩ : Site K V).step o .open =
      some ⟨{ created with current := some 1 }, created.recover o 1, {}⟩ := rfl
  have hopenable : Openable o (created.manifests 1) (fun _ => []) [] ({} : VersionSet K) ⟨0, 0, 2, 0⟩ 0 :=
    hmanifest.symm ▸ openable_create o
  have hlogs : created.logs = [] := hcreated ▸ rfl
  have hnone : ∀ g ∈ ({} : VersionSet K).current.liveFiles, created.tables g.number = [] := by
    rintro g ⟨l, hg⟩
    exact absurd hg List.not_mem_nil
  have hopen : openDb o (created.manifests 1) (fun _ => []) [] = .ok db := by
    rw [hmanifest]
    exact hcreate
  have hperforms : (⟨{ created with current := some 1 }, created.recover o 1, {}⟩ : Site K V).Performs o db :=
    @Openable.performs K V _ _ o { created with current := some 1 } {} 1 _ [] {} ⟨0, 0, 2, 0⟩ 0 hopenable hlogs
      hnone db hopen
  exact (Site.Reaches.head hnew (Site.Reaches.head hcurrent (Site.Reaches.refl _))).performs hperforms

end Open

/-! ## Runs -/

section Runs

variable {o : DbOptions K V} {x : Site K V} {db db' : Db K V} {m : Marks}

/-- The file operations of every step lead to a site that carries the database after it. -/
theorem Site.Carries.step (h : x.Carries o db) (hinv : db.Inv o m) {a : Step K V}
    (hstep : db.step o a = some db') : x.Performs o db' := by
  obtain ⟨dir, stage, j⟩ := x
  obtain ⟨s, tables, oldLogs, log, rfl, rfl, hs, hbuilt⟩ := h
  cases a with
  | write updates =>
    obtain rfl := Option.some.inj hstep
    exact hs.write hbuilt hinv updates
  | get key snapshot =>
    unfold Db.step at hstep
    dsimp only at hstep
    split_ifs at hstep with hsnapshot
    obtain rfl := Option.some.inj hstep
    exact hs.get hbuilt key snapshot hsnapshot
  | getSnapshot =>
    obtain rfl := Option.some.inj hstep
    exact (Session.reaches_step (a := .getSnapshot) rfl).performs (hs.of_snapshots hbuilt _)
  | releaseSnapshot snapshot =>
    obtain rfl := Option.some.inj hstep
    exact (Session.reaches_step (a := .releaseSnapshot snapshot) rfl).performs (hs.of_snapshots hbuilt _)
  | switchMemTable => exact hs.switchMemTable hbuilt hinv hstep
  | compactMemTable => exact hs.compactMemTable hbuilt hinv hstep
  | beginCompaction => exact hs.beginCompaction hinv hstep
  | beginManual level first last => exact hs.beginManual hinv hstep
  | workCompaction => exact hs.workCompaction hbuilt hinv hstep
  | finishCompaction => exact hs.finishCompaction hbuilt hinv hstep
  | reopen =>
    have hopen : openDb o (dir.manifests s.versions.manifestFileNumber) tables
        (oldLogs ++ [(s.logFileNumber, log)]) = .ok db' := by
      cases hresult : (s.dbOn dir tables oldLogs log).reopen o with
      | error e =>
        unfold Db.step at hstep
        dsimp only at hstep
        rw [hresult] at hstep
        cases hstep
      | ok db₁ =>
        unfold Db.step at hstep
        dsimp only at hstep
        rw [hresult] at hstep
        obtain rfl := Option.some.inj hstep
        exact hresult
    have hrecover : (⟨dir, .down, j⟩ : Site K V).step o .open =
        some ⟨dir, dir.recover o s.versions.manifestFileNumber, j⟩ := by
      unfold Site.step Site.open
      dsimp only
      rw [hs.current]
    have hcrash : (⟨dir, .up s, j⟩ : Site K V).step o .crash = some ⟨dir, .down, j⟩ := rfl
    exact (Site.Reaches.head hcrash (Site.Reaches.head hrecover (Site.Reaches.refl _))).performs
      (hinv.openable.performs hs.logs hs.tables hopen)

/-- The file operations of a run lead to a site that carries the database after it, by induction on the
steps. -/
theorem Site.Carries.run : ∀ {steps : List (Step K V)} {x : Site K V} {db : Db K V} {m : Marks},
    x.Carries o db → db.Inv o m → db.RunMeets o Db.KeepsLevels steps → db.run o steps = some db' →
    x.Performs o db'
  | [], x, db, m, h, _, _, hrun => Option.some.inj hrun ▸ ⟨x, Site.Reaches.refl x, h⟩
  | a :: steps, x, db, m, h, hinv, hmeets, hrun => by
    obtain ⟨db₁, hstep, hrest⟩ := Option.bind_eq_some_iff.mp hrun
    obtain ⟨m₁, hinv₁⟩ := hinv.step hmeets.1 hstep
    obtain ⟨y, hreach, hy⟩ := h.step hinv hstep
    exact hreach.performs (hy.run hinv₁ (hmeets.2 db₁ hstep) hrest)

end Runs

/-- Every run of a new database in which sequence numbers fit and no memtable is written in the way of a
compaction in flight is also one of single file operations: after it, the files and the process carry the
database that the run reaches. -/
theorem run_carried (o : DbOptions K V) (db₀ db : Db K V) (steps : List (Step K V))
    (hcreate : createDb o = .ok db₀) (hmeets : db₀.RunMeets o Db.KeepsLevels steps)
    (hrun : db₀.run o steps = some db) :
    ∃ as x, ({} : Site K V).run o as = some x ∧ x.Carries o db := by
  obtain ⟨db₁, m, hcreate₁, hinv⟩ := createDb_inv o
  obtain rfl : db₁ = db₀ := Except.ok.inj (hcreate₁.symm.trans hcreate)
  obtain ⟨x, hreach, hx⟩ := createDb_performs hcreate
  obtain ⟨y, ⟨as, hreach⟩, hy⟩ := hreach.performs (hx.run hinv hmeets hrun)
  exact ⟨as, y, hreach, hy⟩

end LevelDb
