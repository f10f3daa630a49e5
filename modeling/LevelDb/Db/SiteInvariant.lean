import LevelDb.Db.SiteFiles

/-!
# The invariant between two steps

A session, its files and the records of its manifest are a database in the sense of `Db.Inv`, with the
record that `Write` has added to the log still to come (`Session.On`). While the background thread is in
`LogAndApply`, this also holds of the session after it: both are kept until the record is in the manifest,
and then a crash leaves the second one (`Session.views`). What other threads do meanwhile keeps all of this
(`Session.Moves.sound`).
-/

namespace LevelDb

open Lib

variable {K V : Type} [LinearOrder K] [Inhabited V]

/-! ## A session over its files -/

/-- A session with such a manifest and such logs is a database. -/
structure Session.On (o : DbOptions K V) (s : Session K V) (dir : Directory K V)
    (manifest : List (VersionEdit K)) (oldLogs : List (ℕ × List (WriteBatch K V)))
    (log : List (WriteBatch K V)) (m : Marks) : Prop where
  /-- The invariant. -/
  inv : (s.db manifest dir.tables oldLogs log).Inv o m
  /-- The log files that count, with the batch that is being written. -/
  logs_eq : logsToRecover s.versions dir.logs =
    oldLogs ++ [(s.logFileNumber, log ++ s.writing.toList)]
  /-- The manifest is older than its last record. -/
  manifest_lt : s.versions.manifestFileNumber < m.nextFile

/-- A session with such a manifest is a database. -/
def Session.Matches (o : DbOptions K V) (s : Session K V) (dir : Directory K V)
    (manifest : List (VersionEdit K)) : Prop :=
  ∃ oldLogs log m, s.On o dir manifest oldLogs log m

section On

variable {o : DbOptions K V} {s : Session K V} {dir : Directory K V} {manifest : List (VersionEdit K)}
  {oldLogs : List (ℕ × List (WriteBatch K V))} {log : List (WriteBatch K V)} {m : Marks}

/-- The log files are in the order of their numbers. -/
theorem Session.On.sorted (h : s.On o dir manifest oldLogs log m) :
    (oldLogs ++ [(s.logFileNumber, log)]).Pairwise fun a b => a.1 < b.1 :=
  h.inv.openable.sorted

/-- A batch is added to the log. -/
theorem Session.On.addRecord (h : s.On o dir manifest oldLogs log m) (hnone : s.writing = none)
    (b : WriteBatch K V) :
    { s with writing := some b }.On o (dir.addBatch s.logFileNumber b) manifest oldLogs log m := by
  have hlogs := h.logs_eq
  rw [hnone, Option.toList_none, List.append_nil] at hlogs
  exact ⟨h.inv, logsToRecover_addBatch h.sorted hlogs b, h.manifest_lt⟩

/-- The batch is added to the memtable. -/
theorem Session.On.insertInto (h : s.On o dir manifest oldLogs log m) {b : WriteBatch K V}
    (hb : s.writing = some b) (hsequence : b.sequence = s.versions.lastSequence + 1)
    (hle : s.versions.lastSequence + b.count ≤ kMaxSequenceNumber) :
    (s.insertInto b).On o dir manifest oldLogs (log ++ [b]) m := by
  obtain ⟨sequence, updates⟩ := b
  obtain rfl : sequence = s.versions.lastSequence + 1 := hsequence
  have hlogs := h.logs_eq
  rw [hb, Option.toList_some] at hlogs
  refine ⟨h.inv.write updates hle, ?_, h.manifest_lt⟩
  show logsToRecover s.versions dir.logs = _
  rw [hlogs]
  exact congrArg (fun l => oldLogs ++ [(s.logFileNumber, l)]) (List.append_nil _).symm

/-- After a memtable switch the session is on its files with the log so far as one more old log and a
new empty one. -/
theorem Session.On.newMemTable (h : s.On o dir manifest oldLogs log m) (hnone : s.writing = none)
    (himm : s.imm = none) :
    s.newMemTable.On o (dir.createLog s.versions.nextFileNumber) manifest
      (oldLogs ++ [(s.logFileNumber, log)]) [] { m with switched := s.versions.lastSequence } := by
  have hlogs := h.logs_eq
  rw [hnone, Option.toList_none, List.append_nil] at hlogs
  refine ⟨h.inv.newMemTable himm, ?_, h.manifest_lt⟩
  have hlast : s.logFileNumber < s.versions.nextFileNumber := h.inv.logFile_lt
  have hlt : ∀ l ∈ oldLogs ++ [(s.logFileNumber, log)], l.1 < s.versions.nextFileNumber := by
    intro l hl
    rcases List.mem_append.mp hl with hl | hl
    · exact ((pairwise_number_concat h.sorted log).1 l hl).trans hlast
    · rw [List.mem_singleton.mp hl]
      exact hlast
  have hcreate := logsToRecover_createLog h.sorted hlogs hlt
    ((show s.versions.logNumber ≤ s.logFileNumber from h.inv.logNumber_le).trans hlast.le)
  show logsToRecover s.versions _ = _
  rw [hcreate, show s.newMemTable.writing = none from hnone]
  rfl

/-- A session stays on its files when the current version gets other seek statistics. -/
theorem Session.On.of_current (h : s.On o dir manifest oldLogs log m) {v : Version K}
    (hfiles : v.files = s.versions.current.files)
    (hto : ∀ f l, v.fileToCompact = some (f, l) → f ∈ s.versions.current.files l ∧ l + 1 < kNumLevels)
    (hlevel : v.compactionLevel.toNat + 1 < kNumLevels) :
    { s with versions := { s.versions with current := v } }.On o dir manifest oldLogs log m :=
  ⟨h.inv.of_current hfiles hto hlevel, h.logs_eq, h.manifest_lt⟩

/-- A session stays on its files whichever snapshots it holds. -/
theorem Session.On.of_snapshots (h : s.On o dir manifest oldLogs log m) (snapshots : List ℕ) :
    { s with snapshots := snapshots }.On o dir manifest oldLogs log m :=
  ⟨h.inv.of_snapshots snapshots, h.logs_eq, h.manifest_lt⟩

/-- A session stays on its files when it allocates file numbers. -/
theorem Session.On.moveCounter (h : s.On o dir manifest oldLogs log m) {next : ℕ}
    (hle : s.versions.nextFileNumber ≤ next) :
    { s with versions := { s.versions with nextFileNumber := next } }.On o dir manifest oldLogs log m :=
  ⟨h.inv.moveCounter hle, h.logs_eq, h.manifest_lt⟩

/-- Files change that the session does not name. -/
theorem Session.On.of_files {dir' : Directory K V} (h : s.On o dir manifest oldLogs log m)
    (htables : ∀ g ∈ s.versions.current.liveFiles, dir'.tables g.number = dir.tables g.number)
    (hlogs : logsToRecover s.versions dir'.logs = logsToRecover s.versions dir.logs) :
    s.On o dir' manifest oldLogs log m :=
  ⟨h.inv.of_tables htables, hlogs.trans h.logs_eq, h.manifest_lt⟩

omit [Inhabited V] in
/-- A read changes the statistics of the current version. -/
theorem Session.get_eq (s : Session K V) (dir : Directory K V) (key : K) (snapshot : Option ℕ) :
    ∃ stats : GetStats K, s.get dir key snapshot = { s with
        versions := { s.versions with current := s.versions.current.updateStats stats } } ∧
      ∀ f l, stats = some (f, l) → f ∈ s.versions.current.files l ∧ l + 1 < kNumLevels := by
  rcases (s.db [] dir.tables [] []).get_snd key snapshot with heq | heq
  · refine ⟨none, ?_, fun f l hf => by simp at hf⟩
    unfold Session.get
    rw [heq]
    rfl
  · refine ⟨(s.versions.current.get dir.tables
      (lookupKey key (snapshot.getD s.versions.lastSequence))).2, ?_, fun f l hf => Version.get_stats hf⟩
    unfold Session.get
    rw [heq]
    rfl

end On

/-! ## Between two steps -/

/-- The session before a flush has allocated the number of its table. -/
def Session.unallocated (s : Session K V) (number : ℕ) : Session K V :=
  { s with versions := { s.versions with nextFileNumber := number } }

/-- The sessions that the directory must match, each with the records that the manifest lacks for it: the
session itself, without the number that a flush has allocated, and the one after `LogAndApply`. -/
def Session.views (s : Session K V) : List (Session K V × List (VersionEdit K)) :=
  match s.background with
  | .idle | .deleting => [(s, [])]
  | .building number _ _ => [(s.unallocated number, [])]
  | .logging edit record cause false => [(s, []), (s.install edit cause, [record])]
  | .logging edit _ cause true => [(s.install edit cause, [])]

/-- The session that a crash leaves. -/
def Session.committed (s : Session K V) : Session K V :=
  match s.background with
  | .idle | .deleting | .logging _ _ _ false => s
  | .building number _ _ => s.unallocated number
  | .logging edit _ cause true => s.install edit cause

/-- The entries in the files of a session. -/
def Session.stored (s : Session K V) (dir : Directory K V) : Set (Entry K V) :=
  s.versions.current.contents dir.tables ∪
    contents (batchesEntries ((logsToRecover s.versions dir.logs).flatMap (·.2)))

/-- The compaction in flight has written a number of its outputs. -/
def Session.OutputsBuilt (o : DbOptions K V) (s : Session K V) (dir : Directory K V) : Prop :=
  ∀ st ∈ s.compacting, ∀ i < s.built, ∀ out ∈ (st.finished o.sizes)[i]?,
    dir.tables out.1.number = out.2

/-- What the background thread relies on while the mutex is released. -/
def Session.Underway (o : DbOptions K V) (s : Session K V) (dir : Directory K V) : Prop :=
  match s.background with
  | .idle | .deleting => True
  | .building number base built =>
    s.versions.nextFileNumber = number + 1 ∧ base.files = s.versions.current.files ∧
      s.imm.isSome = true ∧ (∀ st ∈ s.compacting, st.input ≠ []) ∧
      (built = true → ∀ imm ∈ s.imm, dir.tables number = imm)
  | .logging edit _ cause written =>
    (cause = .flush → s.imm.isSome = true) ∧ (written = false →
      Sheds (fun e => e.key.type = .deletion ∧ ∃ c ∈ s.compacted o dir cause, e ∈ c.1 ∧ e ∉ c.2)
        (s.stored dir) ((s.install edit cause).stored dir))

/-- What holds wherever the background thread is. -/
structure Session.Steady (o : DbOptions K V) (s : Session K V) (dir : Directory K V)
    (j : Journal K V) : Prop where
  /-- `CURRENT` names the manifest. -/
  current : dir.current = some s.versions.manifestFileNumber
  /-- The tables of the compaction in flight. -/
  outputs : s.OutputsBuilt o dir
  /-- The last sequence number that fits is not in use. -/
  sequence_lt : s.versions.lastSequence < kMaxSequenceNumber
  /-- Nor is it that of a snapshot. -/
  snapshots : ∀ n ∈ s.snapshots, n < kMaxSequenceNumber
  /-- The compaction in flight. -/
  compacting : ∀ st ∈ s.compacting,
    st.smallestSnapshot < kMaxSequenceNumber ∧ st.compaction.inputVersion.WellFormed
  /-- The batch that is being written. -/
  writing : ∀ b ∈ s.writing, b ∈ j.written ∧ b.sequence = s.versions.lastSequence + 1 ∧
    s.versions.lastSequence + b.count < kMaxSequenceNumber

/-- The directory has what the session relies on, and the session keeps what was written. -/
structure Session.Sound (o : DbOptions K V) (s : Session K V) (dir : Directory K V)
    (j : Journal K V) : Prop where
  /-- What does not depend on the background thread. -/
  steady : s.Steady o dir j
  /-- The manifest and the logs. -/
  views : ∀ v ∈ s.views,
    v.1.Matches o dir (dir.manifests s.versions.manifestFileNumber ++ v.2)
  /-- The background thread. -/
  underway : s.Underway o dir
  /-- What a crash leaves. -/
  keeps : j.Keeps (s.committed.stored dir)

section States

variable {o : DbOptions K V} {s : Session K V} {dir : Directory K V} {j : Journal K V}

/-- Without a flush and without `LogAndApply`, a session is sound if the files match it as it is. -/
theorem Session.sound_quiet (hb : s.background = .idle ∨ s.background = .deleting) :
    s.Sound o dir j ↔ s.Steady o dir j ∧
      s.Matches o dir (dir.manifests s.versions.manifestFileNumber) ∧ j.Keeps (s.stored dir) := by
  have hviews : s.views = [(s, [])] ∧ s.Underway o dir ∧ s.committed = s := by
    unfold Session.views Session.Underway Session.committed
    rcases hb with hb | hb <;> rw [hb] <;> exact ⟨rfl, trivial, rfl⟩
  obtain ⟨hviews, hunder, hcommitted⟩ := hviews
  constructor
  · intro h
    have hmatch := h.views _ (hviews ▸ List.mem_singleton_self _)
    rw [List.append_nil] at hmatch
    exact ⟨h.steady, hmatch, hcommitted ▸ h.keeps⟩
  · rintro ⟨hsteady, hmatch, hkeeps⟩
    refine ⟨hsteady, ?_, hunder, hcommitted.symm ▸ hkeeps⟩
    rw [hviews, List.forall_mem_singleton, List.append_nil]
    exact hmatch

/-- In `BuildTable` of a flush a session is sound if the files match it without the number of the new
table. -/
theorem Session.sound_building {number : ℕ} {base : Version K} {built : Bool}
    (hb : s.background = .building number base built) :
    s.Sound o dir j ↔ s.Steady o dir j ∧
      (s.unallocated number).Matches o dir (dir.manifests s.versions.manifestFileNumber) ∧
      (s.versions.nextFileNumber = number + 1 ∧ base.files = s.versions.current.files ∧
        s.imm.isSome = true ∧ (∀ st ∈ s.compacting, st.input ≠ []) ∧
        (built = true → ∀ imm ∈ s.imm, dir.tables number = imm)) ∧
      j.Keeps (s.stored dir) := by
  have hviews : s.views = [(s.unallocated number, [])] ∧ s.committed = s.unallocated number := by
    unfold Session.views Session.committed
    rw [hb]
    exact ⟨rfl, rfl⟩
  obtain ⟨hviews, hcommitted⟩ := hviews
  constructor
  · intro h
    have hmatch := h.views _ (hviews ▸ List.mem_singleton_self _)
    have hunder := h.underway
    have hkeeps := h.keeps
    unfold Session.Underway at hunder
    rw [hb] at hunder
    rw [List.append_nil] at hmatch
    rw [hcommitted] at hkeeps
    exact ⟨h.steady, hmatch, hunder, hkeeps⟩
  · rintro ⟨hsteady, hmatch, hunder, hkeeps⟩
    refine ⟨hsteady, ?_, ?_, hcommitted.symm ▸ hkeeps⟩
    · rw [hviews, List.forall_mem_singleton, List.append_nil]
      exact hmatch
    · unfold Session.Underway
      rw [hb]
      exact hunder

/-- In `LogAndApply`, before its record is in the manifest. -/
theorem Session.sound_logging {edit record : VersionEdit K} {cause : Cause}
    (hb : s.background = .logging edit record cause false) :
    s.Sound o dir j ↔ s.Steady o dir j ∧
      s.Matches o dir (dir.manifests s.versions.manifestFileNumber) ∧
      (s.install edit cause).Matches o dir (dir.manifests s.versions.manifestFileNumber ++ [record]) ∧
      (cause = .flush → s.imm.isSome = true) ∧
      Sheds (fun e => e.key.type = .deletion ∧ ∃ c ∈ s.compacted o dir cause, e ∈ c.1 ∧ e ∉ c.2)
        (s.stored dir) ((s.install edit cause).stored dir) ∧ j.Keeps (s.stored dir) := by
  have hviews : s.views = [(s, []), (s.install edit cause, [record])] ∧ s.committed = s := by
    unfold Session.views Session.committed
    rw [hb]
    exact ⟨rfl, rfl⟩
  obtain ⟨hviews, hcommitted⟩ := hviews
  constructor
  · intro h
    have hmatch := h.views
    have hunder := h.underway
    unfold Session.Underway at hunder
    rw [hb] at hunder
    rw [hviews, List.forall_mem_cons, List.forall_mem_singleton, List.append_nil] at hmatch
    exact ⟨h.steady, hmatch.1, hmatch.2, hunder.1, hunder.2 rfl, hcommitted ▸ h.keeps⟩
  · rintro ⟨hsteady, hmatch, hmatch', himm, hsheds, hkeeps⟩
    refine ⟨hsteady, ?_, ?_, hcommitted.symm ▸ hkeeps⟩
    · rw [hviews, List.forall_mem_cons, List.forall_mem_singleton, List.append_nil]
      exact ⟨hmatch, hmatch'⟩
    · unfold Session.Underway
      rw [hb]
      exact ⟨himm, fun _ => hsheds⟩

/-- In `LogAndApply`, with its record in the manifest. -/
theorem Session.sound_logged {edit record : VersionEdit K} {cause : Cause}
    (hb : s.background = .logging edit record cause true) :
    s.Sound o dir j ↔ s.Steady o dir j ∧
      (s.install edit cause).Matches o dir (dir.manifests s.versions.manifestFileNumber) ∧
      (cause = .flush → s.imm.isSome = true) ∧ j.Keeps ((s.install edit cause).stored dir) := by
  have hviews : s.views = [(s.install edit cause, [])] ∧ s.committed = s.install edit cause := by
    unfold Session.views Session.committed
    rw [hb]
    exact ⟨rfl, rfl⟩
  obtain ⟨hviews, hcommitted⟩ := hviews
  constructor
  · intro h
    have hmatch := h.views _ (hviews ▸ List.mem_singleton_self _)
    have hunder := h.underway
    unfold Session.Underway at hunder
    rw [hb] at hunder
    rw [List.append_nil] at hmatch
    exact ⟨h.steady, hmatch, hunder.1, hcommitted ▸ h.keeps⟩
  · rintro ⟨hsteady, hmatch, himm, hkeeps⟩
    refine ⟨hsteady, ?_, ?_, hcommitted.symm ▸ hkeeps⟩
    · rw [hviews, List.forall_mem_singleton, List.append_nil]
      exact hmatch
    · unfold Session.Underway
      rw [hb]
      exact ⟨himm, fun h => by cases h⟩

end States

omit [Inhabited V] in
/-- What a crash leaves has all its records in the manifest. -/
theorem Session.committed_mem_views (s : Session K V) : (s.committed, []) ∈ s.views := by
  unfold Session.committed Session.views
  cases s.background with
  | idle => exact List.mem_singleton_self _
  | building number base built => exact List.mem_singleton_self _
  | logging edit record cause written =>
    cases written with
    | false => exact List.mem_cons_self
    | true => exact List.mem_singleton_self _
  | deleting => exact List.mem_singleton_self _

omit [Inhabited V] in
/-- `LogAndApply` leaves alone what belongs to the writers. -/
theorem Session.install_spec (s : Session K V) (edit : VersionEdit K) (cause : Cause) :
    (s.install edit cause).writing = s.writing ∧
      (s.install edit cause).logFileNumber = s.logFileNumber ∧
      (s.install edit cause).versions = s.versions.logAndApply edit := by
  cases cause <;> exact ⟨rfl, rfl, rfl⟩

omit [Inhabited V] in
/-- A crash finds the batch and the counters of the session. -/
theorem Session.committed_spec (s : Session K V) :
    s.committed.writing = s.writing ∧
      s.committed.versions.lastSequence = s.versions.lastSequence ∧
      s.committed.versions.manifestFileNumber = s.versions.manifestFileNumber := by
  unfold Session.committed
  cases s.background with
  | idle => exact ⟨rfl, rfl, rfl⟩
  | building number base built => exact ⟨rfl, rfl, rfl⟩
  | deleting => exact ⟨rfl, rfl, rfl⟩
  | logging edit record cause written =>
    cases written with
    | false => exact ⟨rfl, rfl, rfl⟩
    | true =>
      obtain ⟨hwriting, -, hversions⟩ := s.install_spec edit cause
      exact ⟨hwriting, congrArg (·.lastSequence) hversions, congrArg (·.manifestFileNumber) hversions⟩

/-! ## Steps of other threads -/

/-- Where the directory matches one session, another directory matches another one, and has more
entries. -/
def Session.Advances (o : DbOptions K V) (s : Session K V) (dir : Directory K V) (s' : Session K V)
    (dir' : Directory K V) (more : Set (Entry K V)) : Prop :=
  ∀ manifest, s.Matches o dir manifest →
    s'.Matches o dir' manifest ∧ s'.stored dir' = s.stored dir ∪ more

/-- A step of a thread other than the background thread, which may be in the middle of a flush or of
`LogAndApply`. -/
structure Session.Moves (o : DbOptions K V) (s : Session K V) (dir : Directory K V) (s' : Session K V)
    (dir' : Directory K V) (more : Set (Entry K V)) : Prop where
  /-- Only log files change. -/
  dir_eq : dir' = { dir with logs := dir'.logs }
  /-- The background thread stays where it is. -/
  background : s'.background = s.background
  /-- So does the compaction in flight. -/
  compacting : s'.compacting = s.compacting ∧ s'.built = s.built
  /-- The manifest and the files of the current version are the same. -/
  versions : s'.versions.manifestFileNumber = s.versions.manifestFileNumber ∧
    s'.versions.current.files = s.versions.current.files
  /-- A memtable that is being compacted stays, and no number is allocated then. -/
  imm : s.imm.isSome = true →
    s'.imm = s.imm ∧ s'.versions.nextFileNumber = s.versions.nextFileNumber
  /-- The session itself. -/
  self : s.Advances o dir s' dir' more
  /-- The session without the number of a flush. -/
  unallocated : s.imm.isSome = true →
    ∀ number, (s.unallocated number).Advances o dir (s'.unallocated number) dir' more
  /-- The session after `LogAndApply`. -/
  install : ∀ edit cause, (cause = .flush → s.imm.isSome = true) →
    (s.install edit cause).Advances o dir (s'.install edit cause) dir' more

section Writers

variable {o : DbOptions K V} {s : Session K V} {dir : Directory K V} {j : Journal K V}

/-- A step of another thread keeps the session sound. -/
theorem Session.Moves.sound {s' : Session K V} {dir' : Directory K V} {more : Set (Entry K V)}
    (hmoves : s.Moves o dir s' dir' more) (h : s.Sound o dir j) {j' : Journal K V}
    (hsequence : s'.versions.lastSequence < kMaxSequenceNumber)
    (hsnapshots : ∀ n ∈ s'.snapshots, n < kMaxSequenceNumber)
    (hwriting : ∀ b ∈ s'.writing, b ∈ j'.written ∧ b.sequence = s'.versions.lastSequence + 1 ∧
      s'.versions.lastSequence + b.count < kMaxSequenceNumber)
    (hkeeps : j'.Keeps (s.committed.stored dir ∪ more)) : s'.Sound o dir' j' := by
  have htables : dir'.tables = dir.tables := congrArg (·.tables) hmoves.dir_eq
  have hmanifests : dir'.manifests s'.versions.manifestFileNumber =
      dir.manifests s.versions.manifestFileNumber := by
    rw [hmoves.versions.1]
    exact congrArg (fun d => d.manifests s.versions.manifestFileNumber) hmoves.dir_eq
  have hsteady : s'.Steady o dir' j' := by
    refine ⟨?_, ?_, hsequence, hsnapshots, hmoves.compacting.1 ▸ h.steady.compacting, hwriting⟩
    · rw [hmoves.versions.1, ← h.steady.current]
      exact congrArg (·.current) hmoves.dir_eq
    · unfold Session.OutputsBuilt
      rw [hmoves.compacting.1, hmoves.compacting.2, htables]
      exact h.steady.outputs
  -- What each state of the background thread needs.
  have hframe : (∀ v ∈ s'.views, v.1.Matches o dir' (dir.manifests s.versions.manifestFileNumber ++ v.2)) ∧
      s'.Underway o dir' ∧ s'.committed.stored dir' = s.committed.stored dir ∪ more := by
    have hviews := h.views
    have hunder := h.underway
    unfold Session.views at hviews ⊢
    unfold Session.Underway at hunder ⊢
    unfold Session.committed
    rw [hmoves.background]
    cases hb : s.background with
    | idle =>
      rw [hb] at hviews
      obtain ⟨hmatch, hstored⟩ := hmoves.self _ (hviews _ (List.mem_singleton_self _))
      exact ⟨List.forall_mem_singleton.mpr hmatch, trivial, hstored⟩
    | building number base built =>
      rw [hb] at hviews hunder
      obtain ⟨hnext, hbase, himm, hinput, hbuilt⟩ := hunder
      obtain ⟨himm', hnext'⟩ := hmoves.imm himm
      obtain ⟨hmatch, hstored⟩ := hmoves.unallocated himm number _ (hviews _ (List.mem_singleton_self _))
      refine ⟨List.forall_mem_singleton.mpr hmatch, ⟨hnext'.trans hnext, hbase.trans hmoves.versions.2.symm, himm' ▸ himm,
        hmoves.compacting.1 ▸ hinput, ?_⟩, hstored⟩
      rw [himm', htables]
      exact hbuilt
    | logging edit record cause written =>
      rw [hb] at hviews hunder
      obtain ⟨himm, hsheds⟩ := hunder
      have himm' : cause = .flush → s'.imm.isSome = true := fun hc =>
        (hmoves.imm (himm hc)).1 ▸ himm hc
      cases written with
      | true =>
        obtain ⟨hmatch, hstored⟩ := hmoves.install edit cause himm _ (hviews _ (List.mem_singleton_self _))
        exact ⟨List.forall_mem_singleton.mpr hmatch, ⟨himm', by simp⟩, hstored⟩
      | false =>
        obtain ⟨hmatch, hstored⟩ := hmoves.self _ (hviews _ List.mem_cons_self)
        obtain ⟨hmatch', hstored'⟩ := hmoves.install edit cause himm _
          (hviews _ (List.mem_cons_of_mem _ (List.mem_singleton_self _)))
        refine ⟨List.forall_mem_cons.mpr ⟨hmatch, List.forall_mem_singleton.mpr hmatch'⟩, ⟨himm', fun hw => ?_⟩, hstored⟩
        have hcompacted : s'.compacted o dir' cause = s.compacted o dir cause := by
          cases cause with
          | results =>
            unfold Session.compacted
            rw [hmoves.compacting.1, htables]
          | _ => rfl
        rw [hstored, hstored', hcompacted]
        exact (hsheds hw).union more
    | deleting =>
      rw [hb] at hviews
      obtain ⟨hmatch, hstored⟩ := hmoves.self _ (hviews _ (List.mem_singleton_self _))
      exact ⟨List.forall_mem_singleton.mpr hmatch, trivial, hstored⟩
  obtain ⟨hviews, hunder, hstored⟩ := hframe
  exact ⟨hsteady, hmanifests ▸ hviews, hunder, hstored ▸ hkeeps⟩

/-- A batch is added to the log. -/
theorem Session.advances_addRecord (s : Session K V) (dir : Directory K V) (hnone : s.writing = none)
    (b : WriteBatch K V) :
    s.Advances o dir { s with writing := some b } (dir.addBatch s.logFileNumber b)
      (contents (batchEntries b)) := by
  rintro manifest ⟨oldLogs, log, m, hon⟩
  refine ⟨⟨oldLogs, log, m, hon.addRecord hnone b⟩, ?_⟩
  have hlogs := hon.logs_eq
  rw [hnone, Option.toList_none, List.append_nil] at hlogs
  have hadd := logsToRecover_addBatch hon.sorted hlogs b
  have hflat : batchesEntries ((oldLogs ++ [(s.logFileNumber, log ++ [b])]).flatMap (·.2)) =
      batchesEntries ((oldLogs ++ [(s.logFileNumber, log)]).flatMap (·.2)) ++ batchEntries b := by
    simp only [batchesEntries, List.flatMap_append, List.flatMap_singleton, List.append_assoc]
  show s.versions.current.contents dir.tables ∪
    contents (batchesEntries ((logsToRecover s.versions _).flatMap (·.2))) = _
  unfold Session.stored
  rw [hadd, hlogs, hflat, Set.union_assoc]
  refine congrArg (fun S => s.versions.current.contents dir.tables ∪ S) (Set.ext fun e => ?_)
  exact List.mem_append

/-- `Write` adds its batch to the log. -/
theorem Session.moves_addRecord (hnone : s.writing = none) (b : WriteBatch K V) :
    s.Moves o dir { s with writing := some b } (dir.addBatch s.logFileNumber b)
      (contents (batchEntries b)) where
  dir_eq := rfl
  background := rfl
  compacting := ⟨rfl, rfl⟩
  versions := ⟨rfl, rfl⟩
  imm := fun _ => ⟨rfl, rfl⟩
  self := s.advances_addRecord dir hnone b
  unallocated := fun _ number => (s.unallocated number).advances_addRecord dir hnone b
  install := fun edit cause _ => by
    cases cause with
    | flush => exact (s.install edit .flush).advances_addRecord dir hnone b
    | move => exact (s.install edit .move).advances_addRecord dir hnone b
    | results => exact (s.install edit .results).advances_addRecord dir hnone b

/-- A batch is added to the memtable. -/
theorem Session.advances_insertInto (s : Session K V) (dir : Directory K V) {b : WriteBatch K V}
    (hb : s.writing = some b) (hsequence : b.sequence = s.versions.lastSequence + 1)
    (hle : s.versions.lastSequence + b.count ≤ kMaxSequenceNumber) :
    s.Advances o dir (s.insertInto b) dir ∅ := by
  rintro manifest ⟨oldLogs, log, m, hon⟩
  exact ⟨⟨oldLogs, log ++ [b], m, hon.insertInto hb hsequence hle⟩, (Set.union_empty _).symm⟩

/-- `Write` adds its batch to the memtable. -/
theorem Session.moves_insertInto {b : WriteBatch K V} (hb : s.writing = some b)
    (hsequence : b.sequence = s.versions.lastSequence + 1)
    (hle : s.versions.lastSequence + b.count ≤ kMaxSequenceNumber) :
    s.Moves o dir (s.insertInto b) dir ∅ where
  dir_eq := rfl
  background := rfl
  compacting := ⟨rfl, rfl⟩
  versions := ⟨rfl, rfl⟩
  imm := fun _ => ⟨rfl, rfl⟩
  self := s.advances_insertInto dir hb hsequence hle
  unallocated := fun _ number => (s.unallocated number).advances_insertInto dir hb hsequence hle
  install := fun edit cause _ => by
    cases cause with
    | flush => exact (s.install edit .flush).advances_insertInto dir hb hsequence hle
    | move => exact (s.install edit .move).advances_insertInto dir hb hsequence hle
    | results => exact (s.install edit .results).advances_insertInto dir hb hsequence hle

/-- Files that match a session before a memtable switch match it after the switch, with the new log
file, and store the same entries. -/
theorem Session.advances_newMemTable (s : Session K V) (dir : Directory K V) (hnone : s.writing = none)
    (himm : s.imm = none) :
    s.Advances o dir s.newMemTable (dir.createLog s.versions.nextFileNumber) ∅ := by
  rintro manifest ⟨oldLogs, log, m, hon⟩
  have hnew := hon.newMemTable hnone himm
  refine ⟨⟨_, _, _, hnew⟩, ?_⟩
  have hlogs := hon.logs_eq
  have hlogs' : logsToRecover s.versions (dir.createLog s.versions.nextFileNumber).logs = _ := hnew.logs_eq
  rw [hnone, Option.toList_none, List.append_nil] at hlogs
  rw [show s.newMemTable.writing = none from hnone] at hlogs'
  show s.versions.current.contents dir.tables ∪
    contents (batchesEntries ((logsToRecover s.versions _).flatMap (·.2))) = _
  unfold Session.stored
  rw [hlogs, hlogs', Set.union_empty, List.flatMap_append, List.flatMap_singleton, Option.toList_none,
    List.append_nil, List.append_nil]

/-- A memtable switch is a step beside the background thread, wherever this one stands, and stores
nothing more. -/
theorem Session.moves_newMemTable (hnone : s.writing = none) (himm : s.imm = none) :
    s.Moves o dir s.newMemTable (dir.createLog s.versions.nextFileNumber) ∅ where
  dir_eq := rfl
  background := rfl
  compacting := ⟨rfl, rfl⟩
  versions := ⟨rfl, rfl⟩
  imm := fun hsome => by simp [himm] at hsome
  self := s.advances_newMemTable dir hnone himm
  unallocated := fun hsome => by simp [himm] at hsome
  install := fun edit cause hflush => by
    cases cause with
    | flush => simp [himm] at hflush
    | move => exact (s.install edit .move).advances_newMemTable dir hnone himm
    | results => exact (s.install edit .results).advances_newMemTable dir hnone himm

/-- Files that match a session match it with any other snapshots, and store the same entries. -/
theorem Session.advances_snapshots (s : Session K V) (dir : Directory K V) (snapshots : List ℕ) :
    s.Advances o dir { s with snapshots := snapshots } dir ∅ := by
  rintro manifest ⟨oldLogs, log, m, hon⟩
  exact ⟨⟨oldLogs, log, m, hon.of_snapshots snapshots⟩, (Set.union_empty _).symm⟩

/-- `GetSnapshot` and `ReleaseSnapshot` are steps beside the background thread, and store nothing more. -/
theorem Session.moves_snapshots (snapshots : List ℕ) :
    s.Moves o dir { s with snapshots := snapshots } dir ∅ where
  dir_eq := rfl
  background := rfl
  compacting := ⟨rfl, rfl⟩
  versions := ⟨rfl, rfl⟩
  imm := fun _ => ⟨rfl, rfl⟩
  self := s.advances_snapshots dir snapshots
  unallocated := fun _ number => (s.unallocated number).advances_snapshots dir snapshots
  install := fun edit cause _ => by
    cases cause with
    | flush => exact (s.install edit .flush).advances_snapshots dir snapshots
    | move => exact (s.install edit .move).advances_snapshots dir snapshots
    | results => exact (s.install edit .results).advances_snapshots dir snapshots

/-- Files that match a session match it with another current version that has the same files. -/
theorem Session.advances_current (s : Session K V) (dir : Directory K V) {v : Version K}
    (hfiles : v.files = s.versions.current.files)
    (hto : ∀ f l, v.fileToCompact = some (f, l) → f ∈ s.versions.current.files l ∧ l + 1 < kNumLevels)
    (hlevel : v.compactionLevel.toNat + 1 < kNumLevels) :
    s.Advances o dir { s with versions := { s.versions with current := v } } dir ∅ := by
  rintro manifest ⟨oldLogs, log, m, hon⟩
  refine ⟨⟨oldLogs, log, m, hon.of_current hfiles hto hlevel⟩, ?_⟩
  show v.contents dir.tables ∪ _ = _
  unfold Session.stored Version.contents Version.levelContents
  rw [hfiles, Set.union_empty]
  rfl

/-- Files that match a session match it with other seek statistics, and store the same entries. -/
theorem Session.advances_updateStats (s : Session K V) (dir : Directory K V) {stats : GetStats K}
    (hstats : ∀ f l, stats = some (f, l) → f ∈ s.versions.current.files l ∧ l + 1 < kNumLevels) :
    s.Advances o dir { s with versions := { s.versions with
      current := s.versions.current.updateStats stats } } dir ∅ := by
  rintro manifest ⟨oldLogs, log, m, hon⟩
  have hlayout := (show s.versions.current.Layout dir.tables from hon.inv.layout).updateStats hstats
  have hfiles := s.versions.current.updateStats_files stats
  exact s.advances_current dir hfiles
    (fun f l hf => ⟨hfiles ▸ hlayout.wf.toCompact f l hf, hlayout.toCompact f l hf⟩)
    hlayout.compactionLevel manifest ⟨oldLogs, log, m, hon⟩

/-- The version that `LogAndApply` makes has the files, whatever the statistics of the current one. -/
theorem Session.advances_install (s : Session K V) (dir : Directory K V) (edit : VersionEdit K)
    (cause : Cause) {v : Version K} (hfiles : v.files = s.versions.current.files) :
    (s.install edit cause).Advances o dir
      ({ s with versions := { s.versions with current := v } }.install edit cause) dir ∅ := by
  have hsaved : ({ s.versions with current := v }.logAndApply edit).current.files =
      (s.versions.logAndApply edit).current.files := by
    funext l
    rw [VersionSet.logAndApply_files, VersionSet.logAndApply_files]
    dsimp only
    rw [hfiles]
    rfl
  cases cause with
  | flush =>
    exact (s.install edit .flush).advances_current dir hsaved (fun f l hf => by cases hf) (bestLevel_lt _)
  | move =>
    exact (s.install edit .move).advances_current dir hsaved (fun f l hf => by cases hf) (bestLevel_lt _)
  | results =>
    exact (s.install edit .results).advances_current dir hsaved (fun f l hf => by cases hf) (bestLevel_lt _)

/-- `Get` is a step beside the background thread, and stores nothing more. -/
theorem Session.moves_get (key : K) (snapshot : Option ℕ) :
    s.Moves o dir (s.get dir key snapshot) dir ∅ := by
  obtain ⟨stats, heq, hstats⟩ := s.get_eq dir key snapshot
  have hfiles := s.versions.current.updateStats_files stats
  rw [heq]
  exact
    { dir_eq := rfl
      background := rfl
      compacting := ⟨rfl, rfl⟩
      versions := ⟨rfl, hfiles⟩
      imm := fun _ => ⟨rfl, rfl⟩
      self := s.advances_updateStats dir hstats
      unallocated := fun _ number => (s.unallocated number).advances_updateStats dir hstats
      install := fun edit cause _ => s.advances_install dir edit cause hfiles }

end Writers

end LevelDb
