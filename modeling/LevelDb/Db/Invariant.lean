import LevelDb.Db.Recovery
import LevelDb.Compaction.Install

/-!
# The invariant of a database

What ties the parts of an open database together: the layout of its current version, the manifest
that describes it, the log files whose batches are in the memtables, and the compaction in flight.
Sequence numbers divide into those of tables, of the memtable that is being compacted, and of the
current memtable (`Marks`). Opening a database establishes the invariant (`Openable.openDb_inv`).
-/

namespace LevelDb

open Lib

variable {K V : Type} [LinearOrder K]

/-! ## The invariant -/

/-- Bounds that the state of a database does not name. -/
structure Marks where
  /-- The last sequence number in tables. -/
  flushed : ℕ
  /-- The last sequence number outside the current memtable. -/
  switched : ℕ
  /-- The file number counter of the last record of the manifest. -/
  nextFile : ℕ
  /-- The last sequence number of the last record of the manifest. -/
  recorded : ℕ

/-- The compaction in flight: its inputs are live, it has written what the drop rules keep of what it
has read, and the numbers of its outputs are its own. -/
structure CompactionState.InFlight (st : CompactionState K V) (db : Db K V) : Prop where
  /-- The inputs are live. -/
  live : st.compaction.LiveIn db.versions.current
  /-- The input comes by strictly increasing key. -/
  sorted : KeySorted (st.compaction.makeInputIterator db.tables)
  /-- What has been read and what is left make up the input. -/
  progress : ∃ done, st.compaction.makeInputIterator db.tables = done ++ st.input ∧
    st.Progress done
  /-- The outputs so far. -/
  cutting : st.cutting.Sound (fun n => ∀ f ∈ manifestFiles db.manifest, f.number ≠ n)
    db.versions.nextFileNumber

/-- A compaction stays in flight when its version gains files that are not in its way. -/
theorem CompactionState.InFlight.gain {st : CompactionState K V} {db db' : Db K V}
    (h : st.InFlight db)
    (hold : ∀ l g, g ∈ db.versions.current.files l → g ∈ db'.versions.current.files l)
    (hnew : ∀ g ∈ db'.versions.current.files (st.compaction.level + 1),
      g ∈ db.versions.current.files (st.compaction.level + 1) ∨ st.compaction.OutsideInputs g)
    (htab : ∀ g ∈ db.versions.current.liveFiles, db'.tables g.number = db.tables g.number)
    (hnext : db.versions.nextFileNumber ≤ db'.versions.nextFileNumber)
    (hman : ∀ f ∈ manifestFiles db'.manifest,
      f ∈ manifestFiles db.manifest ∨ db.versions.nextFileNumber ≤ f.number) : st.InFlight db' := by
  have hinput : st.compaction.makeInputIterator db'.tables =
      st.compaction.makeInputIterator db.tables := by
    have hflat : ∀ f ∈ st.compaction.inputs0 ++ st.compaction.inputs1,
        db'.tables f.number = db.tables f.number := by
      intro f hf
      rcases h.live.mem_files hf with ⟨-, hf⟩ | ⟨-, hf⟩
      · exact htab f ⟨_, hf⟩
      · exact htab f ⟨_, hf⟩
    unfold Compaction.makeInputIterator
    rw [List.flatMap_congr hflat]
  refine ⟨h.live.gain hold hnew, hinput ▸ h.sorted, hinput ▸ h.progress, h.cutting.mono hnext ?_⟩
  intro n hn hun f hf
  rcases hman f hf with hf | hf
  · exact hun f hf
  · omega

section Defs

variable [Inhabited V]

/-- The log file of the memtable that is being compacted, if there is one. -/
def Db.ImmLogged (db : Db K V) (flushed switched : ℕ) : Prop :=
  match db.imm with
  | none => db.oldLogs = [] ∧ flushed = switched
  | some imm => ∃ number bs, db.oldLogs = [(number, bs)] ∧ imm = memTableOf bs ∧
      Consecutive flushed bs switched ∧ db.versions.logNumber ≤ number ∧ number < db.logFileNumber

/-- The log of the memtable that is being compacted depends on four parts of the state. -/
theorem Db.ImmLogged.congr {db db' : Db K V} {flushed switched : ℕ}
    (h : db.ImmLogged flushed switched) (himm : db'.imm = db.imm)
    (hold : db'.oldLogs = db.oldLogs) (hlog : db'.versions.logNumber = db.versions.logNumber)
    (hnumber : db'.logFileNumber = db.logFileNumber) : db'.ImmLogged flushed switched := by
  unfold Db.ImmLogged at h ⊢
  rw [himm, hold, hlog, hnumber]
  exact h

/-- The invariant of a database. -/
structure Db.Inv (o : DbOptions K V) (db : Db K V) (m : Marks) : Prop where
  /-- The current version. -/
  layout : db.versions.current.Layout db.tables
  /-- The manifest. -/
  manifest : ManifestDescribes o.comparator db.manifest db.versions m.nextFile m.recorded
  /-- What tables hold. -/
  stored : ∀ e ∈ db.versions.current.contents db.tables, e.key.sequence ≤ m.flushed
  /-- The manifest was written after the tables. -/
  flushed_le : m.flushed ≤ m.recorded
  /-- The memtable that is being compacted. -/
  imm : db.ImmLogged m.flushed m.switched
  /-- The memtable. -/
  mem : db.mem = memTableOf db.log
  /-- The log of the memtable. -/
  log : Consecutive m.switched db.log db.versions.lastSequence
  /-- No log has the number 0. -/
  logNumber_pos : 0 < db.versions.logNumber
  /-- The current log is needed. -/
  logNumber_le : db.versions.logNumber ≤ db.logFileNumber
  /-- The number of the current log is in use. -/
  logFile_lt : db.logFileNumber < db.versions.nextFileNumber
  /-- There is no previous log. -/
  prevLogNumber : db.versions.prevLogNumber = 0
  /-- Sequence numbers fit. -/
  sequence_le : db.versions.lastSequence ≤ kMaxSequenceNumber
  /-- The compaction in flight. -/
  compacting : ∀ st, db.compacting = some st → st.InFlight db

end Defs

/-! ## Opening -/

variable [Inhabited V]

omit [LinearOrder K] [Inhabited V] in
/-- The logs that are needed, in the order of their numbers, are replayed in that order. -/
theorem logsToRecover_eq {vs : VersionSet K} {logs : List (ℕ × List (WriteBatch K V))}
    (hlogs : logs.Pairwise fun a b => a.1 < b.1) (hge : ∀ l ∈ logs, vs.logNumber ≤ l.1) :
    logsToRecover vs logs = logs := by
  have hfilter : logs.filter (fun l =>
      decide (vs.logNumber ≤ l.1) || decide (l.1 = vs.prevLogNumber)) = logs :=
    List.filter_eq_self.mpr fun l hl => by simp [hge l hl]
  rw [logsToRecover, hfilter]
  exact List.Pairwise.insertionSort_eq (hlogs.imp fun h => h.le)

omit [LinearOrder K] [Inhabited V] in
/-- `Recover` ends with the last sequence number of the logs. -/
theorem Recovery.setLastSequence_eq {r : Recovery K V} {bs : List (WriteBatch K V)}
    {first last : ℕ} (hbs : Consecutive first bs last)
    (hseq : r.maxSequence = bs.foldl (fun m b => max m (b.sequence + b.count - 1)) 0)
    (hfirst : first ≤ r.writer.versions.lastSequence)
    (hlast : r.writer.versions.lastSequence ≤ last) :
    r.setLastSequence = { r.writer.versions with lastSequence := last } := by
  unfold setLastSequence
  cases bs with
  | nil =>
    -- Without batches the manifest has the last sequence number.
    obtain rfl : first = last := hbs
    rw [hseq, List.foldl_nil, if_neg (Nat.not_lt_zero _), le_antisymm hfirst hlast]
  | cons b bs =>
    rw [hseq, hbs.foldl_max (by simp), Nat.zero_max]
    split_ifs with h
    · rfl
    · rw [show last = r.writer.versions.lastSequence by omega]

omit [Inhabited V] in
/-- The version set that `VersionSet::Recover` reads from a manifest has the files of the one that the
manifest describes, and so its layout. -/
theorem ManifestDescribes.recover_layout {comparator : Slice} {manifest : List (VersionEdit K)}
    {vs : VersionSet K} {tables : Tables K V} {nextFile recorded : ℕ}
    (h : ManifestDescribes comparator manifest vs nextFile recorded)
    (hlay : vs.current.Layout tables) :
    ∃ vs', VersionSet.recover comparator manifest = .ok vs' ∧
      vs'.current.files = vs.current.files ∧ vs'.current.Layout tables ∧
      vs'.logNumber = vs.logNumber ∧ vs'.prevLogNumber = vs.prevLogNumber ∧
      vs'.nextFileNumber = nextFile + 1 ∧ vs'.lastSequence = recorded ∧
      ∀ g ∈ vs'.current.liveFiles, g.number < nextFile := by
  obtain ⟨vs', v, hrec, hcur, hfiles, hto, hlog, hprev, hnext, hseq⟩ := h.recover hlay.sorted
  have hfiles' : vs'.current.files = vs.current.files := by rw [hcur, finalize_files, hfiles]
  refine ⟨vs', hrec, hfiles', hlay.of_files hfiles' ?_ ?_, hlog, hprev, hnext, hseq, ?_⟩
  · intro f l hf
    rw [hcur, finalize_fileToCompact, hto] at hf
    simp at hf
  · rw [hcur]
    exact bestLevel_lt v
  · rintro g ⟨l, hg⟩
    rw [hfiles'] at hg
    exact h.number_lt g (h.mem_manifestFiles hg)

/-- A version accepts the tables of a replay. -/
theorem NewTables.acceptsTables {v : Version K} {tables : Tables K V} {w w' : TableWriter K V}
    {bs : List (WriteBatch K V)} {news : List (NewTable K V)} {first last : ℕ}
    (h : NewTables bs news) (hadds : w.Adds w' news) (hbs : Consecutive first bs last)
    (hmax : last ≤ kMaxSequenceNumber) (hold : ∀ e ∈ v.contents tables, e.key.sequence ≤ first)
    (hnumber : ∀ g ∈ v.liveFiles, g.number < w.versions.nextFileNumber) :
    v.AcceptsTables tables first news := by
  have hmem : ∀ n ∈ news, ∀ e ∈ n.entries, e ∈ batchesEntries bs := fun n hn e he =>
    (h.mem_iff e).mp ⟨n, hn, he⟩
  refine ⟨fun n hn => ?_, fun n hn g hg => (hnumber g hg).trans_le (hadds.number_ge n hn),
    hadds.numbers, hadds.holds, hold, fun n hn e he => (hbs.sequence_range hmax (hmem n hn e he)).1,
    fun n hn m hm e he e' he' heq => ⟨?_, ?_⟩, fun n hn hl => ?_⟩
  · rw [h.level n hn]
    decide
  · rcases Lib.eq_or_rel_of_pairwise h.newer hn hm with hsame | hlt | hgt
    · exact hsame
    · exact absurd heq (hlt e he e' he').ne
    · exact absurd heq (hgt e' he' e he).ne'
  · exact hbs.eq_of_sequence hmax (hmem n hn e he) (hmem m hm e' he') heq
  · rw [h.level n hn] at hl
    omega

/-- What `DB::Open` needs of the files of a database: a manifest that describes them, and logs with
the batches that are in no table. -/
structure Openable (o : DbOptions K V) (manifest : List (VersionEdit K)) (tables : Tables K V)
    (logs : List (ℕ × List (WriteBatch K V))) (vs : VersionSet K) (m : Marks) (last : ℕ) :
    Prop where
  /-- The manifest. -/
  manifest : ManifestDescribes o.comparator manifest vs m.nextFile m.recorded
  /-- The version that it describes. -/
  layout : vs.current.Layout tables
  /-- What tables hold. -/
  stored : ∀ e ∈ vs.current.contents tables, e.key.sequence ≤ m.flushed
  /-- The manifest was written after the tables. -/
  flushed_le : m.flushed ≤ m.recorded
  /-- There is no previous log. -/
  prevLogNumber : vs.prevLogNumber = 0
  /-- The logs are in the order of their numbers. -/
  sorted : logs.Pairwise fun a b => a.1 < b.1
  /-- The logs are needed. -/
  needed : ∀ l ∈ logs, 0 < l.1 ∧ vs.logNumber ≤ l.1
  /-- The logs have what tables do not hold. -/
  log : Consecutive m.flushed (logs.flatMap (·.2)) last
  /-- The manifest was not written after the logs. -/
  recorded_le : m.recorded ≤ last
  /-- Sequence numbers fit. -/
  sequence_le : last ≤ kMaxSequenceNumber

omit [LinearOrder K] [Inhabited V] in
/-- Logs that are older than the current one, and not the previous one, are deleted. -/
theorem Db.deleteObsoleteFiles_oldLogs {db : Db K V}
    (h : ∀ l ∈ db.oldLogs, l.1 < db.versions.logNumber ∧ l.1 ≠ db.versions.prevLogNumber) :
    db.deleteObsoleteFiles.oldLogs = [] := by
  refine List.filter_eq_nil_iff.mpr fun l hl => ?_
  obtain ⟨hlt, hne⟩ := h l hl
  simp only [Bool.or_eq_true, decide_eq_true_eq]
  exact not_or.mpr ⟨not_le.mpr hlt, hne⟩

/-- The database that `DB::Open` returns after a replay, with the version set on which it applies its
first edit. -/
def openedDb (o : DbOptions K V) (vs : VersionSet K) (edit : VersionEdit K) (tables : Tables K V)
    (logs : List (ℕ × List (WriteBatch K V))) (number : ℕ) : Db K V :=
  Db.deleteObsoleteFiles
    { versions := vs.logAndApply edit
      manifest := [vs.snapshotEdit o.comparator, vs.completeEdit edit]
      tables := tables
      oldLogs := logs
      logFileNumber := number
      log := []
      mem := []
      imm := none
      snapshots := []
      compacting := none }

/-- `DB::Open` replays the logs into new tables, which it adds to the version of the manifest. -/
theorem Openable.openDb_eq {o : DbOptions K V} {manifest : List (VersionEdit K)}
    {tables : Tables K V} {logs : List (ℕ × List (WriteBatch K V))} {vs : VersionSet K} {m : Marks}
    {last : ℕ} (h : Openable o manifest tables logs vs m last) :
    ∃ (vs' : VersionSet K) (w : TableWriter K V) (news : List (NewTable K V)),
      openDb o manifest tables logs = .ok (openedDb o
        { vs' with lastSequence := last, nextFileNumber := w.versions.nextFileNumber + 1 }
        { newFiles := news.map fun n => (n.level, n.file)
          logNumber := some w.versions.nextFileNumber } w.tables logs w.versions.nextFileNumber) ∧
      TableWriter.Adds ⟨vs', tables, {}⟩ w news ∧ NewTables (logs.flatMap (·.2)) news ∧
      vs'.current.files = vs.current.files ∧ vs'.current.Layout tables ∧
      vs'.prevLogNumber = 0 ∧ vs'.nextFileNumber = m.nextFile + 1 ∧
      (∀ g ∈ vs'.current.liveFiles, g.number < m.nextFile) ∧
      ∀ l ∈ logs, l.1 < w.versions.nextFileNumber := by
  obtain ⟨vs', hrec, hfiles, hlay, hlog, hprev, hnext, hseq, hnumber⟩ :=
    h.manifest.recover_layout h.layout
  obtain ⟨news, hadds, hnews, hmaxseq, hused⟩ := Recovery.recoverLogFiles_spec o h.sequence_le logs
    ⟨⟨vs', tables, {}⟩, 0⟩ h.log
  generalize hr : logs.foldl (Recovery.recoverLogFile o) ⟨⟨vs', tables, {}⟩, 0⟩ = r at *
  refine ⟨vs', r.writer, news, ?_, hadds, hnews, hfiles, hlay, hprev.trans h.prevLogNumber, hnext,
    hnumber, hused⟩
  have hversions := hadds.versions
  have hedit : r.writer.edit = { newFiles := news.map fun n => (n.level, n.file) } := hadds.edit
  dsimp only at hversions
  have hset : r.setLastSequence = { r.writer.versions with lastSequence := last } := by
    refine Recovery.setLastSequence_eq h.log hmaxseq ?_ ?_
    · rw [hversions]
      exact hseq ▸ h.flushed_le
    · rw [hversions]
      exact hseq ▸ h.recorded_le
  unfold openDb openedDb
  rw [hrec]
  simp only [bind, Except.bind, pure, Except.pure]
  rw [logsToRecover_eq h.sorted fun l hl => hlog ▸ (h.needed l hl).2, hr, hset, hedit, hversions]

omit [Inhabited V] in
/-- The first edit of a database that was just opened adds the tables of the replay to the version, and the new
manifest describes it. -/
theorem Version.AcceptsTables.firstEdit {vs : VersionSet K} {tables tables' : Tables K V}
    {news : List (NewTable K V)} {first nextFile number : ℕ}
    (hacc : vs.current.AcceptsTables tables first news) (comparator : Slice)
    (hlay : vs.current.Layout tables) (hlive : ∀ g ∈ vs.current.liveFiles, g.number < nextFile)
    (hlt : ∀ n ∈ news, nextFile ≤ n.file.number ∧ n.file.number < number) (hle : nextFile ≤ number)
    (hnext : vs.nextFileNumber = number + 1) (hold : ∀ i < nextFile, tables' i = tables i)
    (hnew : ∀ n ∈ news, tables' n.file.number = n.entries) {edit : VersionEdit K}
    (hedit : edit = { newFiles := news.map fun n => (n.level, n.file), logNumber := some number }) :
    (vs.logAndApply edit).current.Layout tables' ∧
      ManifestDescribes comparator [vs.snapshotEdit comparator, vs.completeEdit edit] (vs.logAndApply edit)
        vs.nextFileNumber vs.lastSequence ∧
      vs.current.Gains tables news (vs.logAndApply edit).current tables' := by
  have hfiles : edit.newFiles = news.map fun n => (n.level, n.file) := by rw [hedit]
  obtain ⟨hfits, hlayout, hgains⟩ := hlay.addTables hacc hfiles (by rw [hedit])
    (fun g hg => hold g.number (hlive g hg)) hnew
  refine ⟨hlayout, manifestDescribes_snapshot (by rw [hedit]) hlay.wf.levels hlay.identify ?_ hfits ?_, hgains⟩
  · intro f hf
    have hnumber := hlive f hf
    omega
  · refine hacc.addsTo hfiles hlive (fun n hn => (hlt n hn).1) fun n hn => ?_
    have hnumber := (hlt n hn).2
    omega

/-- A database that was just opened satisfies the invariant, if its first edit leads to a layout that the new
manifest describes, and every log was replayed into the tables. -/
theorem openedDb_inv {o : DbOptions K V} {vs : VersionSet K} {edit : VersionEdit K} {tables : Tables K V}
    {logs : List (ℕ × List (WriteBatch K V))} {number last : ℕ}
    (hlayout : (vs.logAndApply edit).current.Layout tables)
    (hmanifest : ManifestDescribes o.comparator [vs.snapshotEdit o.comparator, vs.completeEdit edit]
      (vs.logAndApply edit) vs.nextFileNumber last)
    (hstored : ∀ e ∈ (vs.logAndApply edit).current.contents tables, e.key.sequence ≤ last)
    (hlast : (vs.logAndApply edit).lastSequence = last) (hmax : last ≤ kMaxSequenceNumber)
    (hlog : (vs.logAndApply edit).logNumber = number)
    (hprev : (vs.logAndApply edit).prevLogNumber = 0)
    (hnext : number < (vs.logAndApply edit).nextFileNumber) (hpos : 0 < number)
    (hlogs : ∀ l ∈ logs, 0 < l.1 ∧ l.1 < number) :
    (openedDb o vs edit tables logs number).Inv o ⟨last, last, vs.nextFileNumber, last⟩ := by
  -- No old log is needed any more.
  have hdel : (openedDb o vs edit tables logs number).oldLogs = [] := by
    refine Db.deleteObsoleteFiles_oldLogs fun l hl => ?_
    dsimp only
    rw [hlog, hprev]
    exact ⟨(hlogs l hl).2, (hlogs l hl).1.ne'⟩
  exact
    { layout := hlayout
      manifest := hmanifest
      stored := hstored
      flushed_le := le_refl last
      imm := ⟨hdel, rfl⟩
      mem := rfl
      log := hlast.symm
      logNumber_pos := hpos.trans_eq hlog.symm
      logNumber_le := le_of_eq hlog
      logFile_lt := hnext
      prevLogNumber := hprev
      sequence_le := hlast.trans_le hmax
      compacting := fun st hst => by simp [openedDb, Db.deleteObsoleteFiles] at hst }

/-- `DB::Open` returns a database that satisfies the invariant. Its tables are those of the manifest and those
into which the logs were replayed, and its memtables are empty. -/
theorem Openable.openDb_inv {o : DbOptions K V} {manifest : List (VersionEdit K)}
    {tables : Tables K V} {logs : List (ℕ × List (WriteBatch K V))} {vs : VersionSet K} {m : Marks}
    {last : ℕ} (h : Openable o manifest tables logs vs m last) :
    ∃ db news m', openDb o manifest tables logs = .ok db ∧
      NewTables (logs.flatMap (·.2)) news ∧ vs.current.AcceptsTables tables m.flushed news ∧
      vs.current.Gains tables news db.versions.current db.tables ∧
      db.versions.lastSequence = last ∧ db.mem = [] ∧ db.imm = none ∧ db.snapshots = [] ∧
      db.compacting = none ∧ db.Inv o m' := by
  obtain ⟨vs', w, news, hopen, hadds, hnews, hfiles, hlay, hprev, hnext, hnumber, hused⟩ :=
    h.openDb_eq
  generalize hn : w.versions.nextFileNumber = number at *
  generalize hvs : ({ vs' with lastSequence := last, nextFileNumber := number + 1 } :
    VersionSet K) = vs₂ at hopen
  generalize he : ({ newFiles := news.map fun n => (n.level, n.file), logNumber := some number } :
    VersionEdit K) = edit at hopen
  -- The version set with its counters has the files that the manifest describes.
  have hcur : vs₂.current = vs'.current := by rw [← hvs]
  have hlevels : vs₂.current.files = vs.current.files := by rw [hcur, hfiles]
  have hnumber₂ : ∀ g ∈ vs.current.liveFiles, g.number < m.nextFile := fun g hg => by
    obtain ⟨l, hg⟩ := hg
    exact hnumber g ⟨l, hfiles ▸ hg⟩
  have hfirst : m.nextFile < vs'.nextFileNumber := hnext ▸ Nat.lt_succ_self _
  have hacc : vs.current.AcceptsTables tables m.flushed news :=
    hnews.acceptsTables hadds h.log h.sequence_le h.stored fun g hg => (hnumber₂ g hg).trans hfirst
  have hacc₂ : vs₂.current.AcceptsTables tables m.flushed news := by
    refine hnews.acceptsTables hadds h.log h.sequence_le (fun e he => h.stored e ?_) fun g hg =>
      (hnumber g (hcur ▸ hg)).trans hfirst
    unfold Version.contents Version.levelContents at he ⊢
    rwa [hlevels] at he
  obtain ⟨hlayout, hmanifest, hgains⟩ := hacc₂.firstEdit o.comparator (hcur ▸ hlay) (hcur ▸ hnumber)
    (fun n hmem => ⟨hfirst.le.trans (hadds.number_ge n hmem), hn ▸ hadds.number_lt n hmem⟩)
    (hfirst.le.trans (hn ▸ hadds.next_le)) (by rw [← hvs])
    (fun i hi => hadds.tables_old i (hi.trans hfirst)) hadds.tables_new he.symm
  have hlast : (vs₂.logAndApply edit).lastSequence = last := by rw [← hvs]; rfl
  have hgains' := hgains.of_files hlevels
  have hstored : ∀ e ∈ (vs₂.logAndApply edit).current.contents w.tables,
      e.key.sequence ≤ last := by
    intro e he
    rcases hgains'.mem_contents.mp he with he | ⟨n, hn, he⟩
    · exact (h.stored e he).trans h.log.le
    · exact (h.log.sequence_range h.sequence_le ((hnews.mem_iff e).mp ⟨n, hn, he⟩)).2
  have hpos : 0 < number := (Nat.zero_le m.nextFile).trans_lt (hfirst.trans_le (hn ▸ hadds.next_le))
  have hsequence : vs₂.lastSequence = last := by rw [← hvs]
  rw [hsequence] at hmanifest
  refine ⟨_, news, ⟨last, last, vs₂.nextFileNumber, last⟩, hopen, hnews, hacc, hgains', hlast, rfl, rfl, rfl, rfl,
    openedDb_inv hlayout hmanifest hstored hlast h.sequence_le ?_ ?_ ?_ hpos fun l hl =>
      ⟨(h.needed l hl).1, hused l hl⟩⟩
  · rw [← he]
    rfl
  · rw [← he, ← hvs]
    exact hprev
  · rw [← hvs]
    exact Nat.lt_succ_self number

omit [Inhabited V] in
/-- A new database, with the manifest of `NewDB` and without logs and tables, can be opened. -/
theorem openable_create (o : DbOptions K V) :
    Openable o (newDbManifest o) (fun _ => []) [] ({} : VersionSet K) ⟨0, 0, 2, 0⟩ 0 := by
  have hnone : ∀ f, f ∉ manifestFiles (newDbManifest o) := by
    rintro f ⟨edit, hedit, l, hf⟩
    rw [List.mem_singleton.mp hedit] at hf
    simp at hf
  have hreplay : (newDbManifest o).foldlM (RecoverState.record o.comparator) {} =
      .ok { builder := {}, logNumber := some 0, nextFile := some 2, lastSequence := some 0 } := by
    rw [newDbManifest, List.foldlM_cons, RecoverState.record_ok _ (Or.inr rfl)]
    rfl
  refine ⟨⟨?_, fun f hf => absurd hf (hnone f), fun f hf => absurd hf (hnone f), le_refl _,
    le_refl _⟩, Version.layout_empty _, ?_, le_refl _, rfl, List.Pairwise.nil, by simp, rfl, le_refl _,
    Nat.zero_le _⟩
  · refine ⟨_, hreplay, ⟨⟨fun l f => by simp, fun l => List.Pairwise.nil⟩, rfl, rfl, rfl, rfl⟩, ?_⟩
    rintro f ⟨l, hf⟩
    simp at hf
  · rintro e ⟨l, f, hf, -⟩
    simp at hf

/-- The files of a database that is closed. -/
theorem Db.Inv.openable {o : DbOptions K V} {db : Db K V} {m : Marks} (h : db.Inv o m) :
    Openable o db.manifest db.tables (db.oldLogs ++ [(db.logFileNumber, db.log)]) db.versions m
      db.versions.lastSequence := by
  have himm := h.imm
  have hpos := h.logNumber_pos
  have hle := h.logNumber_le
  -- There is at most one older log, the one of the memtable that is being compacted.
  have hlogs : (db.oldLogs ++ [(db.logFileNumber, db.log)]).Pairwise (fun a b => a.1 < b.1) ∧
      (∀ l ∈ db.oldLogs, db.versions.logNumber ≤ l.1) ∧
      Consecutive m.flushed (db.oldLogs.flatMap (·.2)) m.switched := by
    unfold Db.ImmLogged at himm
    split at himm
    · rw [himm.1, himm.2]
      exact ⟨List.pairwise_singleton _ _, by simp, rfl⟩
    · obtain ⟨number, bs, hold, -, hbs, hge, hlt⟩ := himm
      rw [hold]
      refine ⟨?_, by simpa using hge, by simpa using hbs⟩
      simpa using hlt
  obtain ⟨hsorted, hneeded, hcons⟩ := hlogs
  refine ⟨h.manifest, h.layout, h.stored, h.flushed_le, h.prevLogNumber, hsorted, ?_, ?_,
    h.manifest.lastSequence_le, h.sequence_le⟩
  · intro l hl
    rcases List.mem_append.mp hl with hl | hl
    · exact ⟨hpos.trans_le (hneeded l hl), hneeded l hl⟩
    · rw [List.mem_singleton.mp hl]
      exact ⟨hpos.trans_le hle, hle⟩
  · rw [List.flatMap_append]
    refine hcons.append ?_
    simpa using h.log

/-! ## Steps that keep the files -/

omit [Inhabited V] in
/-- A compaction stays in flight while files, tables and manifest stay the same. -/
theorem CompactionState.InFlight.of_files {st : CompactionState K V} {db db' : Db K V}
    (h : st.InFlight db) (hfiles : db'.versions.current.files = db.versions.current.files)
    (htab : db'.tables = db.tables) (hman : db'.manifest = db.manifest)
    (hnext : db.versions.nextFileNumber ≤ db'.versions.nextFileNumber) : st.InFlight db' :=
  h.gain (fun l g hg => hfiles ▸ hg) (fun g hg => Or.inl (hfiles ▸ hg)) (fun g _ => by rw [htab])
    hnext fun f hf => Or.inl (hman ▸ hf)

/-- A write keeps the invariant, with the same marks, as long as its sequence numbers fit into 56 bits. -/
theorem Db.Inv.write {o : DbOptions K V} {db : Db K V} {m : Marks} (h : db.Inv o m)
    (updates : List (Update K V))
    (hle : db.versions.lastSequence + updates.length ≤ kMaxSequenceNumber) :
    (db.write updates).Inv o m :=
  { h with
    manifest := h.manifest.mono rfl rfl rfl (le_refl _) (Nat.le_add_right _ _)
    mem := by
      show insertInto db.mem _ = memTableOf (db.log ++ [_])
      rw [memTableOf_append, h.mem]
    log := h.log.append (consecutive_singleton _ updates)
    sequence_le := hle
    compacting := fun st hst => (h.compacting st hst).of_files rfl rfl rfl (le_refl _) }

omit [Inhabited V] in
/-- What a read changes: the current version, by its statistics. -/
theorem Db.get_snd (db : Db K V) (key : K) (snapshot : Option ℕ) :
    (db.get key snapshot).2 = db ∨
      (db.get key snapshot).2 = { db with versions := { db.versions with
        current := db.versions.current.updateStats (db.versions.current.get db.tables
          (lookupKey key (snapshot.getD db.versions.lastSequence))).2 } } := by
  unfold Db.get
  dsimp only
  split
  · exact Or.inl rfl
  · split
    · exact Or.inl rfl
    · exact Or.inr rfl

/-- The current version may get other statistics. -/
theorem Db.Inv.of_current {o : DbOptions K V} {db : Db K V} {m : Marks} (h : db.Inv o m) {v : Version K}
    (hfiles : v.files = db.versions.current.files)
    (hto : ∀ f l, v.fileToCompact = some (f, l) → f ∈ db.versions.current.files l ∧ l + 1 < kNumLevels)
    (hlevel : v.compactionLevel.toNat + 1 < kNumLevels) :
    { db with versions := { db.versions with current := v } }.Inv o m :=
  { h with
    layout := h.layout.of_files hfiles hto hlevel
    manifest := h.manifest.mono hfiles rfl rfl (le_refl _) (le_refl _)
    stored := by
      unfold Version.contents Version.levelContents
      rw [hfiles]
      exact h.stored
    compacting := fun st hst => (h.compacting st hst).of_files hfiles rfl rfl (le_refl _) }

/-- A read at any snapshot changes only seek statistics, and so keeps the invariant. -/
theorem Db.Inv.get {o : DbOptions K V} {db : Db K V} {m : Marks} (h : db.Inv o m) (key : K)
    (snapshot : Option ℕ) : (db.get key snapshot).2.Inv o m := by
  rcases db.get_snd key snapshot with heq | heq
  · rw [heq]
    exact h
  · rw [heq]
    generalize hstats : (db.versions.current.get db.tables
      (lookupKey key (snapshot.getD db.versions.lastSequence))).2 = stats
    have hlayout := h.layout.updateStats fun f l hf => Version.get_stats (hstats.trans hf)
    have hfiles := db.versions.current.updateStats_files stats
    exact h.of_current hfiles
      (fun f l hf => ⟨hfiles ▸ hlayout.wf.toCompact f l hf, hlayout.toCompact f l hf⟩)
      hlayout.compactionLevel

/-- The invariant does not depend on the snapshots that are held. -/
theorem Db.Inv.of_snapshots {o : DbOptions K V} {db : Db K V} {m : Marks} (h : db.Inv o m)
    (snapshots : List ℕ) : { db with snapshots := snapshots }.Inv o m :=
  { h with compacting := fun st hst => (h.compacting st hst).of_files rfl rfl rfl (le_refl _) }

/-- `GetSnapshot` adds a snapshot at the last sequence number, which keeps the invariant. -/
theorem Db.Inv.getSnapshot {o : DbOptions K V} {db : Db K V} {m : Marks} (h : db.Inv o m) :
    db.getSnapshot.Inv o m :=
  h.of_snapshots _

/-- `ReleaseSnapshot` only takes a snapshot away, which keeps the invariant. -/
theorem Db.Inv.releaseSnapshot {o : DbOptions K V} {db : Db K V} {m : Marks} (h : db.Inv o m)
    (snapshot : ℕ) : (db.releaseSnapshot snapshot).Inv o m :=
  h.of_snapshots _

/-- The counter of file numbers may move. -/
theorem Db.Inv.moveCounter {o : DbOptions K V} {db : Db K V} {m : Marks} (h : db.Inv o m) {next : ℕ}
    (hle : db.versions.nextFileNumber ≤ next) :
    { db with versions := { db.versions with nextFileNumber := next } }.Inv o m :=
  { h with
    manifest := h.manifest.mono rfl rfl rfl hle (le_refl _)
    logFile_lt := h.logFile_lt.trans_le hle
    compacting := fun st hst => (h.compacting st hst).of_files rfl rfl rfl hle }

/-- The pointers to the next compactions may move. -/
theorem Db.Inv.movePointer {o : DbOptions K V} {db : Db K V} {m : Marks} (h : db.Inv o m)
    (pointer : ℕ → Option (InternalKey K)) :
    { db with versions := { db.versions with compactPointer := pointer } }.Inv o m :=
  { h with
    manifest := h.manifest.mono rfl rfl rfl (le_refl _) (le_refl _)
    compacting := fun st hst => (h.compacting st hst).of_files rfl rfl rfl (le_refl _) }

/-- A memtable switch, when no memtable is being compacted. -/
theorem Db.Inv.newMemTable {o : DbOptions K V} {db : Db K V} {m : Marks} (h : db.Inv o m)
    (hnone : db.imm = none) :
    { db with
      oldLogs := db.oldLogs ++ [(db.logFileNumber, db.log)]
      logFileNumber := db.versions.nextFileNumber
      log := []
      imm := some db.mem
      mem := []
      versions := { db.versions with nextFileNumber := db.versions.nextFileNumber + 1 } }.Inv o
      { m with switched := db.versions.lastSequence } := by
  have himm := h.imm
  unfold Db.ImmLogged at himm
  rw [hnone] at himm
  exact
    { h.moveCounter (Nat.le_succ db.versions.nextFileNumber) with
      imm := ⟨db.logFileNumber, db.log, by rw [himm.1, List.nil_append], h.mem, himm.2 ▸ h.log,
        h.logNumber_le, h.logFile_lt⟩
      mem := rfl
      log := rfl
      logNumber_le := h.logNumber_le.trans h.logFile_lt.le
      logFile_lt := Nat.lt_succ_self _
      compacting := fun st hst =>
        (h.compacting st hst).of_files rfl rfl rfl (Nat.le_succ _) }

/-- After a memtable switch the invariant holds with the mark of the switched memtable moved to the
last sequence number. -/
theorem Db.Inv.switchMemTable {o : DbOptions K V} {db db' : Db K V} {m : Marks} (h : db.Inv o m)
    (hstep : db.switchMemTable = some db') :
    db'.Inv o { m with switched := db.versions.lastSequence } := by
  unfold Db.switchMemTable at hstep
  split_ifs at hstep with hcond
  obtain rfl := Option.some.inj hstep
  exact h.newMemTable (Option.isNone_iff_eq_none.mp hcond.1)

end LevelDb
