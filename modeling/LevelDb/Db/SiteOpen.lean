import LevelDb.Db.SiteSteps

/-!
# `DB::Open`, step by step

A crash between any two file operations leaves a directory in which `DB::Open` finds what was written
(`Session.Sound.ready`). While `DB::Open` replays logs and writes its manifest, the old manifest and the
logs stay as they are, and the tables that it has written are in no version, so that it may crash as well
(`Replaying.Sound`, `Opening.Sound`). When it gets to `SetCurrentFile`, the new manifest describes the same
entries.
-/

namespace LevelDb

open Lib

variable {K V : Type} [LinearOrder K] [Inhabited V]

/-! ## After a crash -/

section Crash

variable {o : DbOptions K V} {s : Session K V} {dir : Directory K V} {j : Journal K V}

/-- What a session leaves when no batch is being written. -/
theorem Session.On.ready {oldLogs : List (ℕ × List (WriteBatch K V))} {log : List (WriteBatch K V)}
    {m : Marks} (h : s.On o dir (dir.manifests s.versions.manifestFileNumber) oldLogs log m)
    (hcurrent : dir.current = some s.versions.manifestFileNumber) (hnone : s.writing = none)
    (hlt : s.versions.lastSequence < kMaxSequenceNumber) (hkeeps : j.Keeps (s.stored dir)) :
    dir.Ready o j s.versions.manifestFileNumber (oldLogs ++ [(s.logFileNumber, log)]) s.versions m
      s.versions.lastSequence := by
  have hlogs := h.logs_eq
  rw [hnone, Option.toList_none, List.append_nil] at hlogs
  refine ⟨hcurrent, h.inv.openable, hlogs, h.manifest_lt, Or.inr (by simp), hlt, ?_⟩
  unfold Session.stored at hkeeps
  rw [hlogs] at hkeeps
  exact hkeeps

/-- A crash leaves a directory in which `DB::Open` finds what was written. -/
theorem Session.Sound.ready (h : s.Sound o dir j) :
    ∃ manifest logs vs m last, dir.Ready o j manifest logs vs m last := by
  obtain ⟨oldLogs, log, m, hon⟩ := h.views _ s.committed_mem_views
  obtain ⟨hwriting, hsequence, hnumber⟩ := s.committed_spec
  rw [List.append_nil, ← hnumber] at hon
  have hcurrent : dir.current = some s.committed.versions.manifestFileNumber :=
    hnumber.symm ▸ h.steady.current
  cases hb : s.writing with
  | none =>
    exact ⟨_, _, _, _, _, hon.ready hcurrent (hwriting.trans hb) (hsequence ▸ h.steady.sequence_lt) h.keeps⟩
  | some b =>
    -- The batch is in the log, so it will be replayed.
    obtain ⟨-, hnext, hlt⟩ := h.steady.writing b hb
    rw [← hsequence] at hnext hlt
    have hadded := hon.insertInto (hwriting.trans hb) hnext hlt.le
    exact ⟨_, _, _, _, _, hadded.ready hcurrent rfl hlt h.keeps⟩

end Crash

/-! ## Replaying logs -/

/-- What `DBImpl::Recover` has done so far. -/
def Replaying.recovery (r : Replaying K V) (tables : Tables K V) : Recovery K V :=
  ⟨⟨r.versions, tables, r.edit⟩, r.maxSequence⟩

/-- `MarkFileNumberUsed` after a log file. -/
def Recovery.endLog (r : Recovery K V) (number : ℕ) : Recovery K V :=
  { r with writer := { r.writer with versions := r.writer.versions.markFileNumberUsed number } }

/-- What `DBImpl::Recover` will have done after the logs that are left. -/
def Replaying.finish (o : DbOptions K V) (r : Replaying K V) (tables : Tables K V) : Recovery K V :=
  match r.logs with
  | [] => r.recovery tables
  | (number, batches) :: logs =>
    logs.foldl (Recovery.recoverLogFile o)
      (((r.recovery tables).replay o batches r.mem).endLog number)

/-- In the middle of a log file. -/
theorem Replaying.finish_cons (o : DbOptions K V) {r : Replaying K V} {number : ℕ}
    {batches : List (WriteBatch K V)} {logs : List (ℕ × List (WriteBatch K V))}
    (hlogs : r.logs = (number, batches) :: logs) (tables : Tables K V) :
    r.finish o tables = logs.foldl (Recovery.recoverLogFile o)
      (((r.recovery tables).replay o batches r.mem).endLog number) := by
  unfold Replaying.finish
  rw [hlogs]

/-- Between two log files, what `DBImpl::Recover` still has to do is the loop over the log files that
are left. -/
theorem Replaying.finish_of_mem (o : DbOptions K V) {r : Replaying K V} (hmem : r.mem = none)
    (tables : Tables K V) :
    r.finish o tables = r.logs.foldl (Recovery.recoverLogFile o) (r.recovery tables) := by
  unfold Replaying.finish
  rw [hmem]
  cases r.logs <;> rfl

omit [Inhabited V] in
/-- `WriteLevel0Table` writes a table with the next number. -/
theorem TableWriter.writeLevel0Table_frame (o : DbOptions K V) (w : TableWriter K V)
    (mem : List (Entry K V)) :
    (w.writeLevel0Table o mem none).versions =
        { w.versions with nextFileNumber := w.versions.nextFileNumber + 1 } ∧
      ∀ i < w.versions.nextFileNumber, (w.writeLevel0Table o mem none).tables i = w.tables i := by
  unfold TableWriter.writeLevel0Table
  cases mem.head? with
  | none => exact ⟨rfl, fun _ _ => rfl⟩
  | some first =>
    cases mem.getLast? with
    | none => exact ⟨rfl, fun _ _ => rfl⟩
    | some last => exact ⟨rfl, fun i hi => Function.update_of_ne hi.ne _ _⟩

/-- What a round of the replay leaves alone. -/
structure Replaying.Frame (r : Replaying K V) (dir : Directory K V) (t : Directory K V × Replaying K V) :
    Prop where
  /-- Only tables change. -/
  dir_eq : t.1 = { dir with tables := t.1.tables }
  /-- Only the counter of the version set changes. -/
  versions : t.2.versions = { r.versions with nextFileNumber := t.2.versions.nextFileNumber }
  /-- It grows. -/
  next_le : r.versions.nextFileNumber ≤ t.2.versions.nextFileNumber
  /-- Tables with numbers that were in use are unchanged. -/
  tables : ∀ i < r.versions.nextFileNumber, t.1.tables i = dir.tables i

omit [Inhabited V] in
/-- `WriteLevel0Table` of `RecoverLogFile` creates one table and no other file, and does what the loop
of `Db.reopen` does there. -/
theorem Replaying.writeLevel0Table_spec (o : DbOptions K V) (r : Replaying K V) (dir : Directory K V)
    (mem : List (Entry K V)) :
    r.Frame dir (r.writeLevel0Table o dir mem) ∧
      (r.writeLevel0Table o dir mem).2.recovery (r.writeLevel0Table o dir mem).1.tables =
        { r.recovery dir.tables with
          writer := (r.recovery dir.tables).writer.writeLevel0Table o mem none } := by
  obtain ⟨hversions, htables⟩ := TableWriter.writeLevel0Table_frame o ⟨r.versions, dir.tables, r.edit⟩ mem
  refine ⟨⟨rfl, ?_, ?_, htables⟩, rfl⟩
  · unfold Replaying.writeLevel0Table
    dsimp only
    rw [hversions]
  · unfold Replaying.writeLevel0Table
    dsimp only
    rw [hversions]
    exact Nat.le_succ _

/-- How far `DBImpl::Recover` is from its end. -/
def Replaying.rank (r : Replaying K V) : ℕ :=
  (r.logs.map fun l => 2 * l.2.length + 2).sum + r.mem.toList.length

/-- A round of the replay does one file operation of the loop of `Db.reopen` at most, and leaves the
rest of the loop to do. -/
theorem Replaying.round_spec (o : DbOptions K V) (r : Replaying K V) (dir : Directory K V) {number : ℕ}
    {batches : List (WriteBatch K V)} {logs : List (ℕ × List (WriteBatch K V))}
    (hlogs : r.logs = (number, batches) :: logs) :
    r.Frame dir (r.round o dir number batches logs) ∧
      (r.round o dir number batches logs).2.finish o (r.round o dir number batches logs).1.tables =
        r.finish o dir.tables ∧
      ((r.round o dir number batches logs).2.logs = [] →
        (r.round o dir number batches logs).2.mem = none) ∧
      (r.round o dir number batches logs).2.rank < r.rank := by
  rw [Replaying.finish_cons o hlogs]
  unfold Replaying.rank
  rw [hlogs]
  cases batches with
  | nil =>
    cases hmem : r.mem with
    | none =>
      obtain ⟨hused, hle, -⟩ := r.versions.markFileNumberUsed_spec number
      have hround : r.round o dir number [] logs =
          (dir, { r with versions := r.versions.markFileNumberUsed number, logs := logs }) := by
        unfold Replaying.round
        rw [hmem]
      have hmem' : ({ r with
          versions := r.versions.markFileNumberUsed number
          logs := logs } : Replaying K V).mem = none := hmem
      rw [hround, Replaying.finish_of_mem o hmem']
      refine ⟨⟨rfl, hused, hle, fun _ _ => rfl⟩, rfl, fun _ => hmem, ?_⟩
      dsimp only
      rw [hmem]
      simp
    | some mem =>
      obtain ⟨hframe, hrecovery⟩ := r.writeLevel0Table_spec o dir mem
      have hround : r.round o dir number [] logs = r.writeLevel0Table o dir mem := by
        unfold Replaying.round
        rw [hmem]
      have hlogs' : (r.writeLevel0Table o dir mem).2.logs = (number, []) :: logs := hlogs
      rw [hround, Replaying.finish_cons o hlogs', hrecovery]
      refine ⟨hframe, rfl, fun _ => rfl, ?_⟩
      rw [hlogs', show (r.writeLevel0Table o dir mem).2.mem = none from rfl]
      simp
  | cons b batches =>
    set mem := LevelDb.insertInto (r.mem.getD []) b with hmem
    set t : Replaying K V := { r with
      maxSequence := max r.maxSequence (b.sequence + b.count - 1)
      logs := (number, batches) :: logs } with ht
    by_cases hbig : o.writeBufferSize < o.approximateMemoryUsage mem
    · have hround : r.round o dir number (b :: batches) logs = t.writeLevel0Table o dir mem := by
        unfold Replaying.round
        exact if_pos hbig
      have hreplay : (r.recovery dir.tables).replay o (b :: batches) r.mem =
          ({ t.recovery dir.tables with
            writer := (t.recovery dir.tables).writer.writeLevel0Table o mem none }).replay o batches
              none := by
        rw [Recovery.replay]
        exact if_pos hbig
      obtain ⟨hframe, hrecovery⟩ := t.writeLevel0Table_spec o dir mem
      have hlogs' : (t.writeLevel0Table o dir mem).2.logs = (number, batches) :: logs := rfl
      rw [hround, Replaying.finish_cons o hlogs', hrecovery, hreplay]
      refine ⟨⟨hframe.dir_eq, hframe.versions, hframe.next_le, hframe.tables⟩, rfl, fun _ => rfl, ?_⟩
      rw [hlogs', show (t.writeLevel0Table o dir mem).2.mem = none from rfl]
      simp only [List.map_cons, List.sum_cons, List.length_cons, Option.toList_none, List.length_nil]
      omega
    · have hround : r.round o dir number (b :: batches) logs = (dir, { t with mem := some mem }) := by
        unfold Replaying.round
        exact if_neg hbig
      have hreplay : (r.recovery dir.tables).replay o (b :: batches) r.mem =
          (t.recovery dir.tables).replay o batches (some mem) := by
        rw [Recovery.replay]
        exact if_neg hbig
      have hlogs' : ({ t with mem := some mem } : Replaying K V).logs = (number, batches) :: logs := rfl
      rw [hround, Replaying.finish_cons o hlogs', hreplay]
      refine ⟨⟨rfl, rfl, le_rfl, fun _ _ => rfl⟩, rfl, fun hnil => (by cases hnil), ?_⟩
      dsimp only
      rw [ht]
      simp only [List.map_cons, List.sum_cons, List.length_cons, Option.toList_some, List.length_nil]
      omega

/-- `DBImpl::Recover` is on its way to what it will have done with all logs, and a crash finds the
directory that it has started from, but for tables that no version names. -/
structure Replaying.From (o : DbOptions K V) (r : Replaying K V) (dir : Directory K V)
    (j : Journal K V) (manifest : ℕ) (logs : List (ℕ × List (WriteBatch K V))) (vs : VersionSet K)
    (m : Marks) (last : ℕ) (vs₀ : VersionSet K) (tables₀ : Tables K V) : Prop where
  /-- What a crash finds. -/
  ready : dir.Ready o j manifest logs vs m last
  /-- What `VersionSet::Recover` has read. -/
  recover : VersionSet.recover o.comparator (dir.manifests manifest) = .ok vs₀
  /-- What `DBImpl::Recover` will have done. -/
  finish : r.finish o dir.tables = logs.foldl (Recovery.recoverLogFile o) ⟨⟨vs₀, tables₀, {}⟩, 0⟩
  /-- Only the counter of the version set has changed. -/
  versions : r.versions = { vs₀ with nextFileNumber := r.versions.nextFileNumber }
  /-- It has grown. -/
  next_le : vs₀.nextFileNumber ≤ r.versions.nextFileNumber
  /-- The tables of the version are as they were. -/
  tables : ∀ g ∈ vs.current.liveFiles, dir.tables g.number = tables₀ g.number
  /-- The last memtable is written. -/
  mem : r.logs = [] → r.mem = none

/-- `DBImpl::Recover` is under way. -/
def Replaying.Sound (o : DbOptions K V) (r : Replaying K V) (dir : Directory K V) (j : Journal K V) :
    Prop :=
  ∃ manifest logs vs m last vs₀ tables₀, r.From o dir j manifest logs vs m last vs₀ tables₀

omit [Inhabited V] in
/-- `VersionSet::Recover` takes a number for the next manifest. -/
theorem VersionSet.recover_numbers {comparator : Slice} {manifest : List (VersionEdit K)}
    {vs : VersionSet K} (h : VersionSet.recover comparator manifest = .ok vs) :
    vs.nextFileNumber = vs.manifestFileNumber + 1 := by
  unfold VersionSet.recover at h
  cases hst : manifest.foldlM (RecoverState.record comparator) {} with
  | error e =>
    rw [hst] at h
    cases h
  | ok st =>
    rw [hst] at h
    simp only [bind, Except.bind] at h
    split at h
    · cases h
    · cases h
    · cases h
    · exact Except.ok.inj h ▸ rfl

/-- On a directory that can be opened, `VersionSet::Recover` succeeds with the version set that the
manifest describes. -/
theorem Directory.Ready.recover {o : DbOptions K V} {dir : Directory K V} {j : Journal K V} {manifest : ℕ}
    {logs : List (ℕ × List (WriteBatch K V))} {vs : VersionSet K} {m : Marks} {last : ℕ}
    (h : dir.Ready o j manifest logs vs m last) :
    ∃ vs₀, VersionSet.recover o.comparator (dir.manifests manifest) = .ok vs₀ ∧
      vs₀.logNumber = vs.logNumber ∧ vs₀.prevLogNumber = vs.prevLogNumber ∧
      vs₀.manifestFileNumber = m.nextFile ∧ vs₀.nextFileNumber = m.nextFile + 1 := by
  obtain ⟨vs₀, v, hrec, -, -, -, hlog, hprev, hnext, -⟩ := h.openable.manifest.recover
    h.openable.layout.sorted
  have hnumber := VersionSet.recover_numbers hrec
  exact ⟨vs₀, hrec, hlog, hprev, by omega, hnext⟩

/-- On a directory that can be opened, `VersionSet::Recover` succeeds and the replay of the logs starts
in a sound state. -/
theorem Directory.Ready.replaying {o : DbOptions K V} {dir : Directory K V} {j : Journal K V} {manifest : ℕ}
    {logs : List (ℕ × List (WriteBatch K V))} {vs : VersionSet K} {m : Marks} {last : ℕ}
    (h : dir.Ready o j manifest logs vs m last) :
    ∃ r : Replaying K V, dir.recover o manifest = .replaying r ∧ r.Sound o dir j := by
  obtain ⟨vs₀, hrec, hlog, hprev, -⟩ := h.recover
  have hlogs : logsToRecover vs₀ dir.logs = logs := (logsToRecover_congr hlog hprev _).trans h.logs_eq
  refine ⟨{ versions := vs₀, logs := logs }, ?_, manifest, logs, vs, m, last, vs₀, dir.tables, h, hrec, ?_,
    rfl, le_rfl, fun _ _ => rfl, fun _ => rfl⟩
  · unfold Directory.recover
    rw [hrec]
    exact congrArg (fun l => Stage.replaying { versions := vs₀, logs := l }) hlogs
  · exact Replaying.finish_of_mem o rfl dir.tables

/-- A round of the replay keeps it sound, with the file operation that the round may do. -/
theorem Replaying.Sound.round {o : DbOptions K V} {r : Replaying K V} {dir : Directory K V}
    {j : Journal K V} (h : r.Sound o dir j) {number : ℕ} {batches : List (WriteBatch K V)}
    {logs : List (ℕ × List (WriteBatch K V))} (hlogs : r.logs = (number, batches) :: logs) :
    (r.round o dir number batches logs).2.Sound o (r.round o dir number batches logs).1 j := by
  obtain ⟨manifest, all, vs, m, last, vs₀, tables₀, hfrom⟩ := h
  obtain ⟨hframe, hfinish, hmem, -⟩ := Replaying.round_spec o r dir hlogs
  obtain ⟨vs₁, hrec, -, -, -, hnext⟩ := hfrom.ready.recover
  obtain rfl : vs₁ = vs₀ := Except.ok.inj (hrec.symm.trans hfrom.recover)
  generalize r.round o dir number batches logs = t at *
  have hlive : ∀ g ∈ vs.current.liveFiles, t.1.tables g.number = dir.tables g.number := by
    intro g hg
    have hlt := hfrom.ready.openable.manifest.live_lt g hg
    have hle := hfrom.next_le
    exact hframe.tables g.number (by omega)
  have hready : t.1.Ready o j manifest all vs m last := by
    rw [hframe.dir_eq]
    exact hfrom.ready.of_files rfl rfl rfl hlive
  refine ⟨manifest, all, vs, m, last, vs₁, tables₀, hready, ?_, hfinish.trans hfrom.finish, ?_,
    hfrom.next_le.trans hframe.next_le, fun g hg => (hlive g hg).trans (hfrom.tables g hg), hmem⟩
  · rw [hframe.dir_eq]
    exact hfrom.recover
  · rw [hframe.versions, hfrom.versions]

/-! ## The new manifest -/

/-- The records of the new manifest. -/
def Opening.records (o : DbOptions K V) (r : Opening K) : List (VersionEdit K) :=
  [r.versions.snapshotEdit o.comparator, r.versions.completeEdit r.edit]

/-- How many of them the manifest has. -/
def ManifestStage.records : ManifestStage → ℕ
  | .missing | .created => 0
  | .snapshot => 1
  | .recorded => 2

/-- How many steps `LogAndApply` needs for the manifest. -/
def ManifestStage.left : ManifestStage → ℕ
  | .missing => 3
  | .created => 2
  | .snapshot => 1
  | .recorded => 0

/-- `DB::Open` is in its `LogAndApply`: a crash finds what it has started from, and the database that it
will return has all of it. -/
structure Opening.Sound (o : DbOptions K V) (r : Opening K) (dir : Directory K V) (j : Journal K V) :
    Prop where
  /-- What a crash finds, with another manifest. -/
  ready : ∃ manifest logs vs m last, dir.Ready o j manifest logs vs m last ∧
    manifest ≠ r.versions.manifestFileNumber
  /-- The new manifest, so far. -/
  records : r.stage ≠ .missing → dir.manifests r.versions.manifestFileNumber =
    (r.records o).take r.stage.records
  /-- The database. -/
  on : ∃ m, (r.session : Session K V).On o dir (r.records o) [] [] m
  /-- The last sequence number that fits is not in use. -/
  sequence_lt : r.versions.lastSequence < kMaxSequenceNumber
  /-- What it stores. -/
  keeps : j.Keeps ((r.session : Session K V).stored dir)

omit [LinearOrder K] [Inhabited V] in
/-- The number of the log file is the next one. -/
theorem Replaying.newLog_eq (r : Replaying K V) (dir : Directory K V) : ∃ lastSequence,
    r.newLog dir = (dir.createLog r.versions.nextFileNumber,
      { versions := { r.versions with
          lastSequence := lastSequence
          nextFileNumber := r.versions.nextFileNumber + 1 }
        edit := { r.edit with logNumber := some r.versions.nextFileNumber }
        logFileNumber := r.versions.nextFileNumber }) := by
  unfold Replaying.newLog Recovery.setLastSequence
  split_ifs
  · exact ⟨_, rfl⟩
  · exact ⟨_, rfl⟩

/-- `DBImpl::Recover` ends, and `DB::Open` creates a log file. -/
theorem Replaying.Sound.newLog {o : DbOptions K V} {r : Replaying K V} {dir : Directory K V}
    {j : Journal K V} (h : r.Sound o dir j) (hlogs : r.logs = []) :
    (r.newLog dir).2.Sound o (r.newLog dir).1 j := by
  obtain ⟨manifest, logs, vs, m, last, vs₀, tables₀, hfrom⟩ := h
  have hready := hfrom.ready
  have hopenable : Openable o (dir.manifests manifest) tables₀ logs vs m last :=
    hready.openable.of_tables fun g hg => (hfrom.tables g hg).symm
  obtain ⟨vs₁, hrec, hlog, hprev, hmanifest, hnext⟩ := hready.recover
  obtain rfl : vs₁ = vs₀ := Except.ok.inj (hrec.symm.trans hfrom.recover)
  -- All logs have been replayed.
  have hfinish : logs.foldl (Recovery.recoverLogFile o) ⟨⟨vs₁, tables₀, {}⟩, 0⟩ = r.recovery dir.tables := by
    rw [← hfrom.finish, Replaying.finish_of_mem o (hfrom.mem hlogs), hlogs]
    rfl
  obtain ⟨-, -, -, -, hused⟩ := Recovery.recoverLogFiles_spec o hready.openable.sequence_le logs
    ⟨⟨vs₁, tables₀, {}⟩, 0⟩ hready.openable.log
  rw [hfinish] at hused
  obtain ⟨db, news, m', hopen, hnews, -, hgains, hlast, -, himm, -, -, hinv⟩ := hopenable.openDb_inv
  set old := logs.filter fun l => decide (((r.newLog dir).2.session : Session K V).versions.logNumber ≤ l.1) ||
    decide (l.1 = ((r.newLog dir).2.session : Session K V).versions.prevLogNumber) with hold
  have hdb : openDb o (dir.manifests manifest) tables₀ logs =
      .ok ((r.newLog dir).2.session.db ((r.newLog dir).2.records o) dir.tables old []) := by
    unfold openDb
    rw [hrec]
    simp only [bind, Except.bind, pure, Except.pure]
    rw [logsToRecover_eq hready.openable.sorted fun l hl => hlog ▸ (hready.openable.needed l hl).2, hfinish]
    rfl
  obtain rfl := Except.ok.inj (hopen.symm.trans hdb)
  obtain ⟨lastSequence, hnew⟩ := r.newLog_eq dir
  generalize r.newLog dir = t at *
  obtain ⟨dir', t⟩ := t
  obtain ⟨rfl, ht⟩ := Prod.mk.inj hnew
  dsimp only at hinv hlast hgains hold ⊢
  have hnil : old = [] := hinv.imm.1
  rw [hnil] at hinv hlast hgains
  set number := r.versions.nextFileNumber with hnumber
  have hlt : ∀ l ∈ logs, l.1 < number := hused
  have hle : m.nextFile + 1 ≤ number := by
    have := hfrom.next_le
    omega
  have hmanifest' : t.versions.manifestFileNumber = m.nextFile := by
    rw [ht, hfrom.versions]
    exact hmanifest
  have hready' := hready.createLog (Nat.zero_lt_of_lt hle) hlt
  have hlogNumber : (t.session : Session K V).versions.logNumber = number := by rw [ht]; rfl
  have hlogFile : t.logFileNumber = number := by rw [ht]
  -- The old logs are no longer needed.
  have hcount := logsToRecover_last hready'.openable.sorted hready'.logs_eq
    (fun l hl => (hready.openable.needed l hl).1)
    (hready'.openable.needed (number, []) (List.mem_append_right _ (List.mem_singleton_self _))).2
    hready.openable.prevLogNumber hlogNumber hinv.prevLogNumber
  have hdesc : ManifestDescribes o.comparator
      ([t.versions.snapshotEdit o.comparator] ++ [t.versions.completeEdit t.edit])
      (t.session : Session K V).versions m'.nextFile m'.recorded := hinv.manifest
  have hnext' : m'.nextFile = number + 1 := hdesc.nextFile_eq.trans (by rw [ht])
  refine ⟨⟨manifest, _, vs, m, last, hready', ?_⟩, ?_, ⟨m', ?_, ?_, ?_⟩, ?_, ?_⟩
  · rw [hmanifest']
    exact hready.manifest_lt.ne
  · intro hstage
    rw [ht] at hstage
    exact absurd rfl hstage
  · exact hinv
  · show logsToRecover (t.session : Session K V).versions _ = [(t.logFileNumber, [])]
    rw [hcount, hlogFile]
  · show t.versions.manifestFileNumber < m'.nextFile
    omega
  · exact hlast.trans_lt hready.sequence_lt
  · have hstored : (t.session : Session K V).stored (dir.createLog number) =
        vs.current.contents dir.tables ∪ contents (batchesEntries (logs.flatMap (·.2))) := by
      rw [Version.contents_congr hfrom.tables]
      unfold Session.stored
      rw [hcount]
      ext e
      exact (or_iff_left List.not_mem_nil).trans
        (hgains.mem_contents.trans (or_congr Iff.rfl (hnews.mem_iff e)))
    rw [hstored]
    exact hready.keeps

section Manifest

variable {o : DbOptions K V} {r : Opening K} {dir : Directory K V} {j : Journal K V}

/-- The new manifest gets its next contents. -/
theorem Opening.Sound.createManifest (h : r.Sound o dir j) {records : List (VersionEdit K)}
    {stage : ManifestStage} (hrecords : records = (r.records o).take stage.records) :
    { r with stage := stage }.Sound o (dir.createManifest r.versions.manifestFileNumber records) j := by
  obtain ⟨manifest, logs, vs, m, last, hready, hne⟩ := h.ready
  obtain ⟨m', hon⟩ := h.on
  refine ⟨⟨manifest, logs, vs, m, last, ?_, hne⟩, fun _ => ?_, ⟨m', ?_⟩, h.sequence_lt, h.keeps⟩
  · exact hready.of_files rfl (Function.update_of_ne hne _ _) rfl fun _ _ => rfl
  · exact (Function.update_self _ _ _).trans hrecords
  · exact hon.of_files (fun _ _ => rfl) rfl

/-- A step of `LogAndApply` on its new manifest keeps `DB::Open` sound and comes nearer to its end. -/
theorem Opening.Sound.writeManifest (h : r.Sound o dir j) {t : Directory K V × Opening K}
    (hstep : r.writeManifest o dir = some t) : t.2.Sound o t.1 j ∧ t.2.stage.left < r.stage.left := by
  unfold Opening.writeManifest at hstep
  dsimp only at hstep
  have hrecords := h.records
  cases hstage : r.stage with
  | missing =>
    rw [hstage] at hstep
    obtain rfl := Option.some.inj hstep
    exact ⟨h.createManifest rfl, (by decide : ManifestStage.created.left < ManifestStage.missing.left)⟩
  | created =>
    rw [hstage] at hstep hrecords
    obtain rfl := Option.some.inj hstep
    refine ⟨h.createManifest ?_, (by decide : ManifestStage.snapshot.left < ManifestStage.created.left)⟩
    rw [hrecords (by decide)]
    rfl
  | snapshot =>
    rw [hstage] at hstep hrecords
    obtain rfl := Option.some.inj hstep
    refine ⟨h.createManifest ?_, (by decide : ManifestStage.recorded.left < ManifestStage.snapshot.left)⟩
    rw [hrecords (by decide)]
    rfl
  | recorded =>
    rw [hstage] at hstep
    cases hstep

omit [LinearOrder K] [Inhabited V] in
/-- `LogAndApply` has nothing more to write only when the manifest has its snapshot and its edit. -/
theorem Opening.writeManifest_eq_none (hstep : r.writeManifest o dir = none) : r.stage = .recorded := by
  unfold Opening.writeManifest at hstep
  dsimp only at hstep
  cases hstage : r.stage with
  | recorded => rfl
  | _ =>
    rw [hstage] at hstep
    cases hstep

/-- When the manifest is complete, `SetCurrentFile` makes it the one that counts, and the session is
sound on it. -/
theorem Opening.Sound.session (h : r.Sound o dir j) (hstage : r.stage = .recorded) :
    (r.session : Session K V).Sound o { dir with current := some r.versions.manifestFileNumber } j := by
  obtain ⟨m, hon⟩ := h.on
  have hrecords := h.records (by rw [hstage]; decide)
  rw [hstage] at hrecords
  refine (Session.sound_quiet (Or.inr rfl)).mpr ⟨⟨rfl, ?_, h.sequence_lt, ?_, ?_, ?_⟩, ⟨[], [], m, ?_⟩, h.keeps⟩
  · exact fun st hst => by cases hst
  · exact fun n hn => absurd hn List.not_mem_nil
  · exact fun st hst => by cases hst
  · exact fun b hb => by cases hb
  · have hman : dir.manifests (r.session : Session K V).versions.manifestFileNumber = r.records o :=
      hrecords
    rw [hman]
    exact ⟨hon.inv, hon.logs_eq, hon.manifest_lt⟩

end Manifest

end LevelDb
