import LevelDb.Log.Failure
import LevelDb.Version.ManifestFile

/-!
# The version set and its files

`VersionSet::LogAndApply` with the files that it writes: the manifests, and `CURRENT`, which names one
of them. The first call after the database is opened starts a new manifest with a snapshot; later
calls append to it. Any `Append` or `Sync` may fail. A failed call leaves the current version, but not
always the manifest: what was appended stays in the file when `Sync` fails.
-/

namespace LevelDb

variable {K : Type} [LinearOrder K]

/-! ## The machine -/

/-- A version set with its descriptor, and the manifests. -/
structure Store (K : Type) where
  /-- The version set. -/
  versions : VersionSet K := {}
  /-- `descriptor_log_`, with the file that it writes. -/
  descriptor : Option Log.Writer := none
  /-- The manifests by number. -/
  files : ℕ → Option Slice
  /-- The number of the manifest that `CURRENT` names. -/
  current : ℕ

/-- What the file operations of a call of `LogAndApply` do. -/
structure Outcomes where
  /-- Whether `NewWritableFile` succeeds. -/
  newWritableFile : Bool := true
  /-- Which of the calls of `Append` fail. -/
  failures : List Bool := []
  /-- Whether `Sync` succeeds. -/
  sync : Bool := true

/-- `AddRecord` for each of some records, until one of them fails. -/
def Log.Writer.addWhileOk (w : Log.Writer) : List Slice → Bool × Log.Writer
  | [] => (true, w)
  | record :: records =>
    let r := w.addRecord record
    if r.1 then r.2.addWhileOk records else r

section Step

variable (bytes : K ≃ Slice) (comparator : Slice)

omit [LinearOrder K] in
/-- The version set while `LogAndApply` writes: `Builder::Apply` has set its compaction pointers. -/
def VersionSet.pointed (vs : VersionSet K) (edit : VersionEdit K) : VersionSet K :=
  { vs with compactPointer := applyCompactPointers vs.compactPointer edit }

omit [LinearOrder K] in
/-- The records that `LogAndApply` writes: a snapshot at the start of a manifest, and the edit. -/
def Store.newRecords (s : Store K) (edit : VersionEdit K) : List (VersionEdit K) :=
  match s.descriptor with
  | some _ => [s.versions.completeEdit edit]
  | none => [(s.versions.pointed edit).snapshotEdit comparator, s.versions.completeEdit edit]

omit [LinearOrder K] in
/-- The writer with which `LogAndApply` starts. -/
def Store.writer (s : Store K) (o : Outcomes) : Log.Writer :=
  match s.descriptor with
  | some w => { w with dest := { w.dest with failures := o.failures } }
  | none => { dest := { failures := o.failures } }

/-- `VersionSet::LogAndApply`, with `SetCurrentFile` succeeding. -/
def Store.logAndApply (s : Store K) (edit : VersionEdit K) (o : Outcomes) : Bool × Store K :=
  let number := s.versions.manifestFileNumber
  let r := (s.writer o).addWhileOk ((s.newRecords comparator edit).map (VersionEdit.encode bytes))
  match s.descriptor with
  | some _ =>
    let files := Function.update s.files number (some r.2.dest.bytes)
    if r.1 && o.sync then
      (true, ⟨s.versions.logAndApply edit, some r.2.clear, files, s.current⟩)
    else (false, ⟨s.versions.pointed edit, some r.2.clear, files, s.current⟩)
  | none =>
    if o.newWritableFile && r.1 && o.sync then
      (true, ⟨s.versions.logAndApply edit, some r.2.clear,
        Function.update s.files number (some r.2.dest.bytes), number⟩)
    else
      -- The new manifest is given up and deleted.
      (false, ⟨s.versions.pointed edit, none, Function.update s.files number none, s.current⟩)

/-- Closing the database and opening it again, up to `VersionSet::Recover`. -/
def Store.reopen (s : Store K) : Option (Store K) :=
  match s.files s.current with
  | none => none
  | some file =>
    match VersionSet.recoverFile bytes comparator file with
    | .error _ => none
    | .ok vs => some { s with versions := vs, descriptor := none }

omit [LinearOrder K] in
/-- The edit that `DBImpl::NewDB` writes. -/
def newDbEdit : VersionEdit K :=
  { comparator := some comparator
    logNumber := some 0
    nextFileNumber := some 2
    lastSequence := some 0 }

/-- `DBImpl::NewDB`: the first manifest. -/
def Store.newDb : Store K :=
  { files := Function.update (fun _ => none) 1 (some (manifestFile bytes [newDbEdit comparator]))
    current := 1 }

/-- What is done with a version set. -/
inductive StoreOp (K : Type) where
  /-- `NewFileNumber` -/
  | newFileNumber
  /-- `MarkFileNumberUsed` -/
  | markFileNumberUsed (number : ℕ)
  /-- `SetLastSequence` -/
  | setLastSequence (sequence : ℕ)
  /-- `SetupOtherInputs` sets a compaction pointer. -/
  | setCompactPointer (level : ℕ) (key : InternalKey K)
  /-- `LogAndApply` -/
  | logAndApply (edit : VersionEdit K) (o : Outcomes)
  /-- Closing and opening the database. -/
  | reopen

/-- One operation. A database that cannot be recovered is not opened. -/
def Store.step (s : Store K) : StoreOp K → Option (Store K)
  | .newFileNumber =>
    some { s with versions :=
      { s.versions with nextFileNumber := s.versions.nextFileNumber + 1 } }
  | .markFileNumberUsed number =>
    some { s with versions := s.versions.markFileNumberUsed number }
  | .setLastSequence sequence =>
    some { s with versions := { s.versions with lastSequence := sequence } }
  | .setCompactPointer level key =>
    some { s with versions := { s.versions with
      compactPointer := Function.update s.versions.compactPointer level (some key) } }
  | .logAndApply edit o => some (s.logAndApply bytes comparator edit o).2
  | .reopen => s.reopen bytes comparator

/-- The levels and numbers of the files that an operation adds, if it succeeds. -/
def Store.adds (s : Store K) : StoreOp K → List (ℕ × ℕ)
  | .logAndApply edit o =>
    if (s.logAndApply bytes comparator edit o).1 then
      edit.newFiles.map fun n => (n.1, n.2.number)
    else []
  | _ => []

/-- The records that an operation writes name no other comparator and can be spelled: their levels
exist, their numbers have 64 bits, and their strings are shorter than 4GB. -/
def Store.Spelled (s : Store K) : StoreOp K → Prop
  | .logAndApply edit _ => edit.comparator = none ∧
    ∀ record ∈ s.newRecords comparator edit, record.Encodable bytes
  | _ => True

/-- The states that are reached from a new database by operations that meet a condition, with the
levels and numbers of all files that were added. No pair of a level and a number is added twice. -/
inductive Store.Reaches (meets : Store K → StoreOp K → Prop) : List (ℕ × ℕ) → Store K → Prop
  /-- A new database is opened. -/
  | newDb {s : Store K} (h : (Store.newDb bytes comparator).reopen bytes comparator = some s) :
    Store.Reaches meets [] s
  /-- One more operation. -/
  | step {added : List (ℕ × ℕ)} {s s' : Store K} (op : StoreOp K) (h : Store.Reaches meets added s)
    (hmeets : meets s op) (hspelled : s.Spelled bytes comparator op)
    (hadds : (added ++ s.adds bytes comparator op).Nodup)
    (hstep : s.step bytes comparator op = some s') :
    Store.Reaches meets (added ++ s.adds bytes comparator op) s'

end Step

/-! ## Which failures are safe -/

/-- No file operation fails. -/
def Store.NoFailure (_ : Store K) : StoreOp K → Prop
  | .logAndApply _ o =>
    o.newWritableFile = true ∧ (∀ fails ∈ o.failures, fails = false) ∧ o.sync = true
  | _ => True

/-- Failures that leave the manifest that `CURRENT` names in agreement with the version set. In a call
that appends to it, either nothing fails and the writer is in step with the file, or the first append
fails, and is that of a header. A call that starts a new manifest may fail in any way, but it must not
lose the trailer between the snapshot and the edit. -/
def Store.Safe (bytes : K ≃ Slice) (comparator : Slice) (s : Store K) : StoreOp K → Prop
  | .logAndApply edit o =>
    match s.descriptor with
    | some w =>
      ((∀ fails ∈ o.failures, fails = false) ∧ o.sync = true ∧ w.InStep) ∨
        (o.failures.headD false = true ∧ Log.trailer w.blockOffset = [])
    | none => ((s.writer o).addRecord
        (((s.versions.pointed edit).snapshotEdit comparator).encode bytes)).2.TrailerFills
  | _ => True

/-! ## Replaying what was applied -/

/-- Everything that a builder has added is among the given levels and numbers, and these identify it. -/
structure Builder.AddsFrom (b : Builder K) (added : List (ℕ × ℕ)) : Prop where
  /-- The files are among the given ones. -/
  mem : ∀ l f, f ∈ (b.levels l).addedFiles → (l, f.number) ∈ added
  /-- Numbers identify the files of a level. -/
  identify : ∀ l, NumbersIdentify {f | f ∈ (b.levels l).addedFiles}

omit [LinearOrder K] in
/-- The levels and numbers of the files that an edit adds. -/
def VersionEdit.addedPairs (edit : VersionEdit K) : List (ℕ × ℕ) :=
  edit.newFiles.map fun n => (n.1, n.2.number)

omit [LinearOrder K] in
/-- Pairs that are not repeated identify the files of an edit. -/
theorem VersionEdit.identify_of_nodup {edit : VersionEdit K} (h : edit.addedPairs.Nodup) (l : ℕ) :
    NumbersIdentify {f | (l, f) ∈ edit.newFiles} := by
  intro f hf g hg hn
  have heq := List.inj_on_of_nodup_map h hf hg (by rw [hn])
  exact (Prod.mk.inj heq).2

omit [LinearOrder K] in
/-- The pair of an added file. -/
theorem VersionEdit.mem_addedPairs {edit : VersionEdit K} {l : ℕ} {f : FileMetaData K}
    (h : (l, f) ∈ edit.newFiles) : (l, f.number) ∈ edit.addedPairs :=
  List.mem_map.mpr ⟨(l, f), h, rfl⟩

/-- The files that are represented are among the given ones. -/
theorem Builder.AddsFrom.mem_files {b : Builder K} {added : List (ℕ × ℕ)} (h : b.AddsFrom added)
    {v : Version K} (hrep : b.Represents v) {l : ℕ} {f : FileMetaData K} (hf : f ∈ v.files l) :
    (l, f.number) ∈ added :=
  h.mem l f ((hrep.mem_iff l f).mp hf).2.1

/-- An edit that adds nothing twice fits the version that is represented. -/
theorem Builder.AddsFrom.fits {b : Builder K} {added : List (ℕ × ℕ)} (h : b.AddsFrom added)
    {v : Version K} (hrep : b.Represents v) {edit : VersionEdit K}
    (hlevels : ∀ l f, (l, f) ∈ edit.newFiles → l < kNumLevels)
    (hnew : (added ++ edit.addedPairs).Nodup) : edit.Fits v := by
  obtain ⟨-, hpairs, hdisjoint⟩ := List.nodup_append.mp hnew
  refine ⟨hlevels, fun l f hf g hg hn => ?_, edit.identify_of_nodup hpairs⟩
  exact hdisjoint _ (h.mem_files hrep hg) _ (VersionEdit.mem_addedPairs hf) (by rw [hn])

/-- After an edit that adds new files, the builder adds those before and the files of the edit. -/
theorem Builder.AddsFrom.apply {b : Builder K} {added : List (ℕ × ℕ)} (h : b.AddsFrom added)
    (edit : VersionEdit K) (hnew : (added ++ edit.addedPairs).Nodup) :
    (∀ l, NumbersIdentify {f | f ∈ (b.levels l).addedFiles ∨ (l, f) ∈ edit.newFiles}) ∧
      (b.apply edit).AddsFrom (added ++ edit.addedPairs) := by
  obtain ⟨-, hpairs, hdisjoint⟩ := List.nodup_append.mp hnew
  have hmixed : ∀ l f g, f ∈ (b.levels l).addedFiles → (l, g) ∈ edit.newFiles →
      f.number ≠ g.number := by
    intro l f g hf hg hn
    exact hdisjoint _ (h.mem l f hf) _ (VersionEdit.mem_addedPairs hg) (by rw [hn])
  have hid : ∀ l, NumbersIdentify
      {f | f ∈ (b.levels l).addedFiles ∨ (l, f) ∈ edit.newFiles} := by
    rintro l f (hf | hf) g (hg | hg) hn
    · exact h.identify l f hf g hg hn
    · exact absurd hn (hmixed l f g hf hg)
    · exact absurd hn.symm (hmixed l g f hg hf)
    · exact edit.identify_of_nodup hpairs l f hf g hg hn
  have hmem : ∀ l f, f ∈ ((b.apply edit).levels l).addedFiles →
      f ∈ (b.levels l).addedFiles ∨ (l, f) ∈ edit.newFiles := by
    intro l f hf
    exact (Builder.mem_apply_addedFiles (hid l)).mp hf
  refine ⟨hid, fun l f hf => ?_, fun l f hf g hg hn => hid l f (hmem l f hf) g (hmem l g hg) hn⟩
  rcases hmem l f hf with hf | hf
  · exact List.mem_append_left _ (h.mem l f hf)
  · exact List.mem_append_right _ (VersionEdit.mem_addedPairs hf)

/-- The record of a call of `LogAndApply` leads from the version set before the call to the one behind
it. -/
theorem RecoverState.record_canonical (comparator : Slice) {st : RecoverState K} {vs : VersionSet K}
    {edit : VersionEdit K} {added : List (ℕ × ℕ)} (hc : edit.comparator = none)
    (hlevels : ∀ l, kNumLevels ≤ l → vs.current.files l = [])
    (hrep : st.builder.Represents vs.current) (hadds : st.builder.AddsFrom added)
    (hedit : ∀ l f, (l, f) ∈ edit.newFiles → l < kNumLevels)
    (hnew : (added ++ edit.addedPairs).Nodup) :
    ∃ st', st.record comparator (vs.completeEdit edit).canonical = .ok st' ∧
      st'.Describes (vs.logAndApply edit) vs.nextFileNumber vs.lastSequence ∧
      st'.builder.AddsFrom (added ++ edit.addedPairs) := by
  have hfits := hadds.fits hrep hedit hnew
  have hturns : (vs.completeEdit edit).canonical.Turns vs.current (vs.logAndApply edit).current := by
    intro l f
    rw [VersionSet.logAndApply_turns hlevels hfits l f]
    show _ ↔ (f ∈ vs.current.files l ∧ (l, f.number) ∉ deletedFileSet edit.deletedFiles) ∨ _
    rw [mem_deletedFileSet]
    rfl
  obtain ⟨hid, hadds'⟩ := hadds.apply (vs.completeEdit edit).canonical hnew
  exact ⟨_, st.record_ok (Or.inl hc), ⟨hrep.apply hedit hturns hid, rfl, rfl, rfl, rfl⟩, hadds'⟩

/-! ## The invariant -/

/-- The records of a manifest, replayed, describe a version set, with the counters of the last
record. -/
def Replays (comparator : Slice) (records : List (VersionEdit K)) (vs : VersionSet K)
    (added : List (ℕ × ℕ)) (nextFile lastSequence : ℕ) : Prop :=
  ∃ st, (records.map VersionEdit.canonical).foldlM (RecoverState.record comparator) {} = .ok st ∧
    st.Describes vs nextFile lastSequence ∧ st.builder.AddsFrom added

/-- The manifest that `CURRENT` names holds records that describe the version set. -/
structure Store.OnDisk (bytes : K ≃ Slice) (comparator : Slice) (s : Store K) (added : List (ℕ × ℕ))
    (records : List (VersionEdit K)) (nextFile lastSequence : ℕ) : Prop where
  /-- The bytes of the manifest. -/
  file : s.files s.current = some (manifestFile bytes records)
  /-- The records can be spelled. -/
  encodable : ∀ record ∈ records, record.Encodable bytes
  /-- They describe the version set. -/
  replays : Replays comparator records s.versions added nextFile lastSequence
  /-- The levels are in order. -/
  sorted : ∀ l, FilesSorted (s.versions.current.files l)
  /-- There are no further levels. -/
  levels : ∀ l, kNumLevels ≤ l → s.versions.current.files l = []
  /-- The number of the manifest is in use. -/
  current_lt : s.current < nextFile

/-- The invariant of a database that is open. -/
structure Store.Holds (bytes : K ≃ Slice) (comparator : Slice) (s : Store K) (added : List (ℕ × ℕ))
    (records : List (VersionEdit K)) (nextFile lastSequence : ℕ) : Prop extends
    Store.OnDisk bytes comparator s added records nextFile lastSequence where
  /-- The counter has only grown since the last record. -/
  nextFile_le : nextFile ≤ s.versions.nextFileNumber
  /-- The descriptor writes the manifest that `CURRENT` names. -/
  descriptor : ∀ w, s.descriptor = some w → s.versions.manifestFileNumber = s.current ∧
    w.dest = { bytes := manifestFile bytes records } ∧ w.blockOffset ≤ Log.kBlockSize
  /-- Without a descriptor the number of the next manifest is another one. -/
  fresh : s.descriptor = none → s.current < s.versions.manifestFileNumber ∧
    s.versions.manifestFileNumber < s.versions.nextFileNumber

section Invariant

variable {bytes : K ≃ Slice} {comparator : Slice} {s : Store K} {added : List (ℕ × ℕ)}
  {records : List (VersionEdit K)} {nextFile lastSequence : ℕ}

/-- `VersionSet::Recover` succeeds on the manifest, and finds the files and the log numbers of the
version set. -/
theorem Store.OnDisk.recover (h : s.OnDisk bytes comparator added records nextFile lastSequence) :
    ∃ vs', VersionSet.recoverFile bytes comparator (manifestFile bytes records) = .ok vs' ∧
      vs'.current.files = s.versions.current.files ∧ vs'.logNumber = s.versions.logNumber ∧
      vs'.prevLogNumber = s.versions.prevLogNumber ∧ vs'.lastSequence = lastSequence ∧
      vs'.nextFileNumber = nextFile + 1 ∧ vs'.manifestFileNumber = nextFile := by
  obtain ⟨st, hst, hd, -⟩ := h.replays
  refine ⟨{ nextFileNumber := nextFile + 1
            manifestFileNumber := nextFile
            lastSequence := lastSequence
            logNumber := s.versions.logNumber
            prevLogNumber := st.prevLogNumber.getD 0
            current := finalize (st.builder.saveTo {})
            compactPointer := st.compactPointer }, ?_, hd.represents.saveTo_files h.sorted, rfl,
    hd.prevLogNumber, rfl, rfl, rfl⟩
  rw [VersionSet.recoverFile_manifestFile comparator h.encodable, VersionSet.recover_eq, hst]
  show st.install = _
  unfold RecoverState.install
  rw [hd.nextFile, hd.logNumber, hd.lastSequence]

/-- Only the files, the log numbers and the number of the manifest matter of the version set, and its
counter may grow. -/
theorem Store.Holds.of_versions
    (h : s.Holds bytes comparator added records nextFile lastSequence) (vs : VersionSet K)
    (hfiles : vs.current.files = s.versions.current.files)
    (hlog : vs.logNumber = s.versions.logNumber) (hprev : vs.prevLogNumber = s.versions.prevLogNumber)
    (hmanifest : vs.manifestFileNumber = s.versions.manifestFileNumber)
    (hnext : s.versions.nextFileNumber ≤ vs.nextFileNumber) :
    Store.Holds bytes comparator { s with versions := vs } added records nextFile lastSequence := by
  obtain ⟨st, hst, hd, hadds⟩ := h.replays
  refine ⟨⟨h.file, h.encodable, ⟨st, hst, ⟨⟨fun l f => ?_, hd.represents.sorted⟩, hlog ▸ hd.logNumber,
    hprev ▸ hd.prevLogNumber, hd.nextFile, hd.lastSequence⟩, hadds⟩, ?_, ?_, h.current_lt⟩,
    h.nextFile_le.trans hnext, ?_, ?_⟩
  · rw [hfiles]
    exact hd.represents.mem_iff l f
  · rw [hfiles]
    exact h.sorted
  · rw [hfiles]
    exact h.levels
  · intro w hw
    rw [hmanifest]
    exact h.descriptor w hw
  · intro hnone
    obtain ⟨hlt, hlt'⟩ := h.fresh hnone
    rw [hmanifest]
    exact ⟨hlt, hlt'.trans_le hnext⟩

/-- A failed call that leaves the manifest that `CURRENT` names. -/
theorem Store.Holds.failed (h : s.Holds bytes comparator added records nextFile lastSequence)
    (edit : VersionEdit K) {files : ℕ → Option Slice} {descriptor : Option Log.Writer}
    (hfile : files s.current = s.files s.current)
    (hsome : ∀ w, descriptor = some w → s.descriptor.isSome = true ∧
      w.dest = { bytes := manifestFile bytes records } ∧ w.blockOffset ≤ Log.kBlockSize)
    (hnone : descriptor = none → s.descriptor = none) :
    Store.Holds bytes comparator ⟨s.versions.pointed edit, descriptor, files, s.current⟩ added records
      nextFile lastSequence := by
  have hv := h.of_versions (s.versions.pointed edit) rfl rfl rfl rfl (le_refl _)
  refine ⟨⟨hfile.trans h.file, h.encodable, hv.replays, hv.sorted, hv.levels, hv.current_lt⟩,
    hv.nextFile_le, fun w hw => ?_, fun hn => hv.fresh (hnone hn)⟩
  obtain ⟨hdesc, hdest⟩ := hsome w hw
  obtain ⟨w', hw'⟩ := Option.isSome_iff_exists.mp hdesc
  exact ⟨(h.descriptor w' hw').1, hdest⟩

/-- The version set that recovery finds can be opened, and the same records describe it. -/
theorem Store.OnDisk.reopen (h : s.OnDisk bytes comparator added records nextFile lastSequence) :
    ∃ s', s.reopen bytes comparator = some s' ∧
      s'.Holds bytes comparator added records nextFile lastSequence := by
  obtain ⟨vs', hrecover, hfiles, hlog, hprev, hlast, hnext, hmanifest⟩ := h.recover
  obtain ⟨st, hst, hd, hadds⟩ := h.replays
  refine ⟨{ s with versions := vs', descriptor := none }, ?_, ?_⟩
  · unfold Store.reopen
    rw [h.file]
    dsimp only
    rw [hrecover]
  refine ⟨⟨h.file, h.encodable, ⟨st, hst, ⟨⟨fun l f => ?_, hd.represents.sorted⟩, hlog ▸ hd.logNumber,
    hprev ▸ hd.prevLogNumber, hd.nextFile, hd.lastSequence⟩, hadds⟩, ?_, ?_, h.current_lt⟩, ?_, ?_, ?_⟩
  · rw [hfiles]
    exact hd.represents.mem_iff l f
  · rw [hfiles]
    exact h.sorted
  · rw [hfiles]
    exact h.levels
  · rw [hnext]
    exact Nat.le_succ _
  · intro w hw
    cases hw
  · intro _
    rw [hmanifest, hnext]
    exact ⟨h.current_lt, Nat.lt_succ_self _⟩

/-! ## Calls that succeed -/

/-- The records before the edit in the manifest that `LogAndApply` writes: those that are there, or the
snapshot. -/
def Store.before (comparator : Slice) (s : Store K) (records : List (VersionEdit K))
    (edit : VersionEdit K) : List (VersionEdit K) :=
  match s.descriptor with
  | some _ => records
  | none => [(s.versions.pointed edit).snapshotEdit comparator]

/-- The records of the manifest behind a call that succeeds. -/
def Store.after (comparator : Slice) (s : Store K) (records : List (VersionEdit K))
    (edit : VersionEdit K) : List (VersionEdit K) :=
  s.before comparator records edit ++ [s.versions.completeEdit edit]

/-- The records before the edit lead to the current version. -/
theorem Store.Holds.before_represents
    (h : s.Holds bytes comparator added records nextFile lastSequence) (edit : VersionEdit K) :
    ∃ st, ((s.before comparator records edit).map VersionEdit.canonical).foldlM
        (RecoverState.record comparator) {} = .ok st ∧
      st.builder.Represents s.versions.current ∧ st.builder.AddsFrom added := by
  obtain ⟨st, hst, hd, hadds⟩ := h.replays
  cases hdesc : s.descriptor with
  | some w =>
    refine ⟨st, ?_, hd.represents, hadds⟩
    unfold Store.before
    rw [hdesc]
    exact hst
  -- The first record of a new manifest is the snapshot of the current version.
  | none =>
    have hid : ∀ l, NumbersIdentify {f | f ∈ s.versions.current.files l} := fun l f hf g hg hn =>
      hadds.identify l f ((hd.represents.mem_iff l f).mp hf).2.1 g
        ((hd.represents.mem_iff l g).mp hg).2.1 hn
    have hcanonical : ((s.versions.pointed edit).snapshotEdit comparator).canonical =
        (s.versions.pointed edit).snapshotEdit comparator := by
      obtain ⟨pointers, hsnap⟩ := (s.versions.pointed edit).snapshotEdit_eq comparator
      rw [hsnap]
      rfl
    obtain ⟨st₁, hst₁, hbuilder⟩ := (s.versions.pointed edit).record_snapshot comparator
    refine ⟨st₁, ?_, ?_, ?_⟩
    · unfold Store.before
      rw [hdesc]
      simp only [List.map_cons, List.map_nil, List.foldlM_cons, List.foldlM_nil, bind, Except.bind,
        hcanonical, hst₁, pure, Except.pure]
    · rw [hbuilder]
      exact (s.versions.pointed edit).snapshot_represents comparator h.levels hid
    · rw [hbuilder]
      refine ⟨fun l f hf => ?_, fun l f hf g hg hn => ?_⟩
      · have hlive := VersionSet.snapshot_addedFiles hf
        exact hadds.mem_files hd.represents hlive
      · have hlive := VersionSet.snapshot_addedFiles hf
        have hlive' := VersionSet.snapshot_addedFiles hg
        exact hid l f hlive g hlive' hn

/-- A call that succeeds, and writes what it means to write, describes the version set behind it. -/
theorem Store.Holds.applied (h : s.Holds bytes comparator added records nextFile lastSequence)
    {edit : VersionEdit K} {o : Outcomes}
    (hspelled : s.Spelled bytes comparator (.logAndApply edit o))
    (hnew : (added ++ edit.addedPairs).Nodup) {w : Log.Writer}
    (hw : w.dest = { bytes := manifestFile bytes (s.after comparator records edit) })
    (hle : w.blockOffset ≤ Log.kBlockSize) :
    Store.Holds bytes comparator ⟨s.versions.logAndApply edit, some w,
        Function.update s.files s.versions.manifestFileNumber (some w.dest.bytes),
        s.versions.manifestFileNumber⟩
      (added ++ edit.addedPairs) (s.after comparator records edit) s.versions.nextFileNumber
      s.versions.lastSequence := by
  obtain ⟨hc, hencodable⟩ := hspelled
  have hlast : (s.versions.completeEdit edit).Encodable bytes := by
    refine hencodable _ ?_
    unfold Store.newRecords
    split <;> simp
  have hedit : ∀ l f, (l, f) ∈ edit.newFiles → l < kNumLevels := by
    intro l f hf
    exact (hlast.newFiles _ (List.mem_map.mpr ⟨(l, f), hf, rfl⟩)).1
  obtain ⟨st, hst, hrep, hadds⟩ := h.before_represents edit
  obtain ⟨st', hst', hd', hadds'⟩ :=
    RecoverState.record_canonical comparator hc h.levels hrep hadds hedit hnew
  -- The edit is one that the version set can apply.
  have hfits := hadds.fits hrep hedit hnew
  have hnumber : s.versions.manifestFileNumber < s.versions.nextFileNumber := by
    cases hdesc : s.descriptor with
    | some w' => exact (h.descriptor w' hdesc).1 ▸ h.current_lt.trans_le h.nextFile_le
    | none => exact (h.fresh hdesc).2
  refine ⟨⟨?_, ?_, ⟨st', ?_, hd', hadds'⟩,
    fun l => VersionSet.logAndApply_sorted hfits (h.sorted l),
    fun l hl => s.versions.logAndApply_levels edit hl, hnumber⟩, le_refl _, fun w' hw' => ?_,
    fun hnone => ?_⟩
  · dsimp only
    rw [Function.update_self, hw]
  · intro record hrecord
    rcases List.mem_append.mp hrecord with hrecord | hrecord
    · unfold Store.before at hrecord
      unfold Store.newRecords at hencodable
      split at hrecord
      · exact h.encodable record hrecord
      · rename_i hdesc
        rw [hdesc] at hencodable
        exact hencodable record (List.mem_singleton.mp hrecord ▸ List.mem_cons_self)
    · rw [List.mem_singleton.mp hrecord]
      exact hlast
  · rw [Store.after, List.map_append, List.foldlM_append, hst]
    simp only [List.map_cons, List.map_nil, List.foldlM_cons, List.foldlM_nil, bind, Except.bind,
      hst', pure, Except.pure]
  · cases hw'
    exact ⟨rfl, hw, hle⟩
  · cases hnone

/-! ## What is written -/

omit [LinearOrder K] in
/-- The file of some records and one more. -/
theorem manifestFile_append (bytes : K ≃ Slice) (edits : List (VersionEdit K)) (edit : VersionEdit K) :
    ((Log.Writer.addRecords {} (edits.map (VersionEdit.encode bytes))).addRecord
        (edit.encode bytes)).2.dest.bytes = manifestFile bytes (edits ++ [edit]) := by
  rw [manifestFile, List.map_append, Log.Writer.addRecords, Log.Writer.addRecords, List.foldl_append]
  rfl

/-- The writer behind a call that wrote what it means to write. -/
structure WroteRecords (bytes : K ≃ Slice) (records : List (VersionEdit K)) (w : Log.Writer) : Prop where
  /-- The file holds the records. -/
  dest : w.dest = { bytes := manifestFile bytes records }
  /-- The writer is in step. -/
  inStep : w.InStep
  /-- The offset is one in a block. -/
  le : w.blockOffset ≤ Log.kBlockSize

omit [LinearOrder K] in
/-- A writer in step that appends a record without a failure. -/
theorem WroteRecords.addRecord {w : Log.Writer} (h : WroteRecords bytes records w) (edit : VersionEdit K) :
    (w.addRecord (edit.encode bytes)).1 = true ∧
      WroteRecords bytes (records ++ [edit]) (w.addRecord (edit.encode bytes)).2 := by
  obtain ⟨hfailures, hstep, hle⟩ := Log.Writer.addRecords_inStep
    (records.map (VersionEdit.encode bytes)) {} rfl rfl (Nat.zero_le _)
  have hfile : (Log.Writer.addRecords {} (records.map (VersionEdit.encode bytes))).dest = w.dest := by
    rw [h.dest]
    unfold manifestFile
    generalize (Log.Writer.addRecords {} (records.map (VersionEdit.encode bytes))).dest = dest at *
    obtain ⟨data, failures⟩ := dest
    dsimp only at hfailures ⊢
    rw [hfailures]
  have hsame := h.inStep.addRecord_eq hstep hfile h.le hle (edit.encode bytes)
  have hbytes := manifestFile_append bytes records edit
  rw [hsame] at hbytes
  obtain ⟨hok, hnone⟩ := w.addFragments_ok true (edit.encode bytes) (by rw [h.dest]; simp)
  obtain ⟨hfailures', hstep', hle'⟩ := w.addRecords_inStep [edit.encode bytes]
    (by rw [h.dest]) h.inStep h.le
  refine ⟨hok, ?_, hstep', hle'⟩
  have hdest : (w.addRecord (edit.encode bytes)).2.dest.failures = [] := hfailures'
  generalize (w.addRecord (edit.encode bytes)).2.dest = dest at *
  obtain ⟨data, failures⟩ := dest
  dsimp only at hbytes hdest
  rw [hbytes, hdest]

omit [LinearOrder K] in
/-- A new file holds no records. -/
theorem wroteRecords_nil (bytes : K ≃ Slice) : WroteRecords bytes [] {} := ⟨rfl, rfl, Nat.zero_le _⟩

/-- A call that appends to the manifest while nothing fails. -/
theorem Store.Holds.writes (h : s.Holds bytes comparator added records nextFile lastSequence)
    (edit : VersionEdit K) {o : Outcomes} {w : Log.Writer} (hdesc : s.descriptor = some w)
    (hfailures : ∀ fails ∈ o.failures, fails = false) (hstep : w.InStep) :
    let r := (s.writer o).addWhileOk ((s.newRecords comparator edit).map (VersionEdit.encode bytes))
    r.1 = true ∧ WroteRecords bytes (s.after comparator records edit) r.2.clear := by
  obtain ⟨-, hdest, hle⟩ := h.descriptor w hdesc
  have hclear : (s.writer o).clear = w := by
    unfold Store.writer
    rw [hdesc]
    obtain ⟨dest, offset⟩ := w
    dsimp only at hdest
    rw [hdest]
    rfl
  have hfails : (s.writer o).dest.failures = o.failures := by
    unfold Store.writer
    rw [hdesc]
  have htrailer : (s.writer o).TrailerFills := by
    intro _
    rw [hfails]
    cases hlist : o.failures with
    | nil => rfl
    | cons fails failures => exact hfailures fails (hlist ▸ List.mem_cons_self)
  have hok := ((s.writer o).addFragments_ok true ((s.versions.completeEdit edit).encode bytes)
    (by rw [hfails]; exact hfailures)).1
  have hrecord := Log.Writer.addRecord_clear htrailer hok
  rw [hclear] at hrecord
  have hwrote := (WroteRecords.addRecord ⟨hdest, hstep, hle⟩ (s.versions.completeEdit edit)).2
  unfold Store.newRecords Store.after Store.before
  rw [hdesc]
  simp only [List.map_cons, List.map_nil, Log.Writer.addWhileOk]
  have hok' : ((s.writer o).addRecord ((s.versions.completeEdit edit).encode bytes)).1 = true := hok
  rw [if_pos hok']
  rw [hrecord] at hwrote
  exact ⟨rfl, hwrote⟩

omit [LinearOrder K] in
/-- A call that starts a new manifest and writes its two records. -/
theorem Store.writes_new (records : List (VersionEdit K)) {edit : VersionEdit K} {o : Outcomes}
    (hdesc : s.descriptor = none)
    (htrailer : ((s.writer o).addRecord
      (((s.versions.pointed edit).snapshotEdit comparator).encode bytes)).2.TrailerFills)
    (hok : ((s.writer o).addWhileOk
      ((s.newRecords comparator edit).map (VersionEdit.encode bytes))).1 = true) :
    WroteRecords bytes (s.after comparator records edit) ((s.writer o).addWhileOk
      ((s.newRecords comparator edit).map (VersionEdit.encode bytes))).2.clear := by
  have hclear : (s.writer o).clear = {} := by
    unfold Store.writer
    rw [hdesc]
    rfl
  have hstart : (s.writer o).TrailerFills := by
    intro hne
    unfold Store.writer at hne
    rw [hdesc] at hne
    exact absurd Log.trailer_block_start hne
  unfold Store.newRecords at hok ⊢
  unfold Store.after Store.before
  rw [hdesc] at hok ⊢
  simp only [List.map_cons, List.map_nil, Log.Writer.addWhileOk] at hok ⊢
  generalize (s.versions.pointed edit).snapshotEdit comparator = snapshot at *
  split_ifs at hok ⊢ with hfirst hsecond
  · have hrecord := Log.Writer.addRecord_clear hstart hfirst
    have hrecord' := Log.Writer.addRecord_clear htrailer hsecond
    rw [hclear] at hrecord
    have hwrote := ((wroteRecords_nil bytes).addRecord snapshot).2
    rw [hrecord] at hwrote
    have hwrote' := (hwrote.addRecord (s.versions.completeEdit edit)).2
    rw [hrecord'] at hwrote'
    exact hwrote'
  · exact absurd hok hsecond
  · exact absurd hok hfirst

/-- A call whose first append is that of a header, and fails, leaves the manifest alone. -/
theorem Store.Holds.header_fails (h : s.Holds bytes comparator added records nextFile lastSequence)
    (edit : VersionEdit K) {o : Outcomes} {w : Log.Writer} (hdesc : s.descriptor = some w)
    (hfails : o.failures.headD false = true) (htrailer : Log.trailer w.blockOffset = []) :
    let r := (s.writer o).addWhileOk ((s.newRecords comparator edit).map (VersionEdit.encode bytes))
    r.1 = false ∧ r.2.clear.dest = { bytes := manifestFile bytes records } ∧
      r.2.clear.blockOffset ≤ Log.kBlockSize := by
  obtain ⟨-, hdest, -⟩ := h.descriptor w hdesc
  have hwriter : s.writer o = { w with dest := { w.dest with failures := o.failures } } := by
    unfold Store.writer
    rw [hdesc]
  obtain ⟨hno, hbytes, hle⟩ := (s.writer o).addRecord_header_fails
    ((s.versions.completeEdit edit).encode bytes) (by rw [hwriter]; exact hfails)
    (by rw [hwriter]; exact htrailer)
  unfold Store.newRecords
  rw [hdesc]
  simp only [List.map_cons, List.map_nil, Log.Writer.addWhileOk]
  rw [if_neg (by rw [hno]; exact Bool.false_ne_true)]
  refine ⟨hno, ?_, hle⟩
  unfold Log.Writer.clear
  rw [hbytes, hwriter]
  dsimp only
  rw [hdest]

/-! ## Steps and runs -/

/-- After a safe call of `LogAndApply` that succeeds, the records with the new one describe the version
set. -/
theorem Store.Holds.logAndApply_ok (h : s.Holds bytes comparator added records nextFile lastSequence)
    {edit : VersionEdit K} {o : Outcomes}
    (hspelled : s.Spelled bytes comparator (.logAndApply edit o))
    (hsafe : s.Safe bytes comparator (.logAndApply edit o))
    (hnew : (added ++ s.adds bytes comparator (.logAndApply edit o)).Nodup)
    (hok : (s.logAndApply bytes comparator edit o).1 = true) :
    (s.logAndApply bytes comparator edit o).2.Holds bytes comparator
        (added ++ s.adds bytes comparator (.logAndApply edit o)) (s.after comparator records edit)
        s.versions.nextFileNumber s.versions.lastSequence ∧
      (s.logAndApply bytes comparator edit o).2.versions = s.versions.logAndApply edit ∧
      ∀ w ∈ (s.logAndApply bytes comparator edit o).2.descriptor, w.InStep := by
  have hadds : s.adds bytes comparator (.logAndApply edit o) = edit.addedPairs := if_pos hok
  rw [hadds] at hnew ⊢
  unfold Store.logAndApply at hok ⊢
  unfold Store.Safe at hsafe
  dsimp only at hok hsafe ⊢
  cases hdesc : s.descriptor with
  | some w =>
    rw [hdesc] at hok hsafe
    dsimp only at hok hsafe ⊢
    split_ifs at hok ⊢ with hr
    obtain ⟨hwritten, hsync⟩ := Bool.and_eq_true_iff.mp hr
    rcases hsafe with ⟨hfailures, -, hstep⟩ | ⟨hfails, htrailer⟩
    · obtain ⟨-, hwrote⟩ := h.writes edit hdesc hfailures hstep
      have happlied := h.applied hspelled hnew hwrote.dest hwrote.le
      rw [(h.descriptor w hdesc).1] at happlied ⊢
      refine ⟨happlied, rfl, fun w' hw' => ?_⟩
      cases hw'
      exact hwrote.inStep
    · -- When the first append fails the call does not succeed.
      rw [(h.header_fails edit hdesc hfails htrailer).1] at hwritten
      cases hwritten
  | none =>
    rw [hdesc] at hok hsafe
    dsimp only at hok hsafe ⊢
    split_ifs at hok ⊢ with hr
    obtain ⟨hr', -⟩ := Bool.and_eq_true_iff.mp hr
    have hwrote := Store.writes_new records hdesc hsafe (Bool.and_eq_true_iff.mp hr').2
    refine ⟨h.applied hspelled hnew hwrote.dest hwrote.le, rfl, fun w' hw' => ?_⟩
    cases hw'
    exact hwrote.inStep

/-- After a safe call of `LogAndApply` that fails, the records before still describe the version set. -/
theorem Store.Holds.logAndApply_failed
    (h : s.Holds bytes comparator added records nextFile lastSequence) {edit : VersionEdit K}
    {o : Outcomes} (hsafe : s.Safe bytes comparator (.logAndApply edit o))
    (hno : (s.logAndApply bytes comparator edit o).1 = false) :
    (s.logAndApply bytes comparator edit o).2.Holds bytes comparator added records nextFile
      lastSequence := by
  unfold Store.logAndApply at hno ⊢
  unfold Store.Safe at hsafe
  dsimp only at hno hsafe ⊢
  cases hdesc : s.descriptor with
  | some w =>
    rw [hdesc] at hno hsafe
    dsimp only at hno hsafe ⊢
    split_ifs at hno ⊢ with hr
    rcases hsafe with ⟨hfailures, hsync, hstep⟩ | ⟨hfails, htrailer⟩
    · -- A call in which nothing fails succeeds.
      exact absurd (Bool.and_eq_true_iff.mpr ⟨(h.writes edit hdesc hfailures hstep).1, hsync⟩) hr
    · obtain ⟨-, hdest, hle⟩ := h.header_fails edit hdesc hfails htrailer
      have hbytes := congrArg Log.WritableFile.bytes hdest
      refine h.failed edit ?_ (fun w' hw' => ?_) (fun hn => by cases hn)
      · rw [(h.descriptor w hdesc).1, Function.update_self, h.file]
        exact congrArg some hbytes
      · cases hw'
        exact ⟨by rw [hdesc]; rfl, hdest, hle⟩
  | none =>
    rw [hdesc] at hno
    dsimp only at hno ⊢
    split_ifs at hno ⊢
    refine h.failed edit ?_ (fun w' hw' => by cases hw') fun _ => hdesc
    rw [Function.update_of_ne (h.fresh hdesc).1.ne]

/-- One safe operation keeps the invariant. -/
theorem Store.Holds.step (h : s.Holds bytes comparator added records nextFile lastSequence)
    {op : StoreOp K} {s' : Store K} (hsafe : s.Safe bytes comparator op)
    (hspelled : s.Spelled bytes comparator op)
    (hnew : (added ++ s.adds bytes comparator op).Nodup)
    (hstep : s.step bytes comparator op = some s') :
    ∃ records' nextFile' lastSequence', s'.Holds bytes comparator
      (added ++ s.adds bytes comparator op) records' nextFile' lastSequence' := by
  have hnone : added ++ [] = added := List.append_nil added
  cases op with
  | newFileNumber =>
    cases hstep
    exact ⟨records, nextFile, lastSequence,
      hnone.symm ▸ h.of_versions _ rfl rfl rfl rfl (Nat.le_succ _)⟩
  | markFileNumberUsed number =>
    cases hstep
    have hadds : s.adds bytes comparator (.markFileNumberUsed number) = [] := rfl
    rw [hadds, hnone]
    unfold VersionSet.markFileNumberUsed
    split_ifs with hle
    · exact ⟨records, nextFile, lastSequence,
        h.of_versions _ rfl rfl rfl rfl (hle.trans (Nat.le_succ _))⟩
    · exact ⟨records, nextFile, lastSequence, h⟩
  | setLastSequence sequence =>
    cases hstep
    exact ⟨records, nextFile, lastSequence,
      hnone.symm ▸ h.of_versions _ rfl rfl rfl rfl (le_refl _)⟩
  | setCompactPointer level key =>
    cases hstep
    exact ⟨records, nextFile, lastSequence,
      hnone.symm ▸ h.of_versions _ rfl rfl rfl rfl (le_refl _)⟩
  | logAndApply edit o =>
    cases hstep
    cases hok : (s.logAndApply bytes comparator edit o).1 with
    | true => exact ⟨_, _, _, (h.logAndApply_ok hspelled hsafe hnew hok).1⟩
    | false =>
      have hadds : s.adds bytes comparator (.logAndApply edit o) = [] :=
        if_neg (by rw [hok]; exact Bool.false_ne_true)
      rw [hadds, hnone]
      exact ⟨records, nextFile, lastSequence, h.logAndApply_failed hsafe hok⟩
  | reopen =>
    obtain ⟨s₁, hs₁, hholds⟩ := h.toOnDisk.reopen
    have heq : s₁ = s' := Option.some.inj (hs₁.symm.trans hstep)
    exact ⟨records, nextFile, lastSequence, hnone.symm ▸ heq ▸ hholds⟩

omit [LinearOrder K] in
/-- The edit of a new database can be spelled. -/
theorem newDbEdit_encodable (bytes : K ≃ Slice) (hname : comparator.length < 2^32) :
    (newDbEdit comparator).Encodable bytes := by
  refine ⟨?_, ?_, ?_, ?_, ?_, ?_, ?_, ?_⟩
  · intro str hstr
    cases hstr
    exact hname
  all_goals simp [VersionEdit.toRecord, newDbEdit, deletedFileSet]

/-- The manifest of a new database describes an empty version set. -/
theorem Store.newDb_onDisk (bytes : K ≃ Slice) (hname : comparator.length < 2^32) :
    (Store.newDb bytes comparator).OnDisk bytes comparator [] [newDbEdit comparator] 2 0 := by
  let st : RecoverState K := { logNumber := some 0, nextFile := some 2, lastSequence := some 0 }
  have hrecord : RecoverState.record comparator {} (newDbEdit comparator).canonical = .ok st :=
    RecoverState.record_ok ({} : RecoverState K) (Or.inr rfl)
  have hrep : st.builder.Represents ({} : Version K) :=
    ⟨fun l f => by simp [st], fun l => List.Pairwise.nil⟩
  constructor
  · simp [Store.newDb]
  · intro record hmem
    rw [List.mem_singleton.mp hmem]
    exact newDbEdit_encodable bytes hname
  · refine ⟨st, ?_, ⟨hrep, rfl, rfl, rfl, rfl⟩, fun l f hf => ?_, fun l f hf => ?_⟩
    · simp only [List.map_cons, List.map_nil, List.foldlM_cons, List.foldlM_nil, bind, Except.bind,
        hrecord, pure, Except.pure]
    · simp [st] at hf
    · simp [st] at hf
  · exact fun l => List.Pairwise.nil
  · exact fun l hl => rfl
  · exact Nat.lt_succ_self 1

/-- Every state that is reached by safe operations has the invariant. -/
theorem Store.Reaches.holds (hname : comparator.length < 2^32)
    (h : Store.Reaches bytes comparator (Store.Safe bytes comparator) added s) :
    ∃ records nextFile lastSequence,
      s.Holds bytes comparator added records nextFile lastSequence := by
  induction h with
  | newDb hopen =>
    obtain ⟨s₁, hs₁, hholds⟩ := (Store.newDb_onDisk bytes hname).reopen
    have heq := Option.some.inj (hs₁.symm.trans hopen)
    exact ⟨_, _, _, heq ▸ hholds⟩
  | step op _ hsafe hspelled hnew hstep ih =>
    obtain ⟨records, nextFile, lastSequence, hholds⟩ := ih
    exact hholds.step hsafe hspelled hnew hstep

/-! ## Runs without failures -/

/-- Calls of `AddRecord` in which no append fails succeed. -/
theorem Log.Writer.addWhileOk_ok : ∀ (records : List Slice) (w : Log.Writer),
    (∀ fails ∈ w.dest.failures, fails = false) → (w.addWhileOk records).1 = true
  | [], _, _ => rfl
  | record :: records, w, h => by
    obtain ⟨hok, hrest⟩ := w.addFragments_ok true record h
    unfold Log.Writer.addWhileOk
    dsimp only
    rw [if_pos (show (w.addRecord record).1 = true from hok)]
    exact addWhileOk_ok records _ hrest

omit [LinearOrder K] in
/-- A call in which nothing fails is safe while the writer is in step. -/
theorem Store.NoFailure.safe (bytes : K ≃ Slice) (comparator : Slice) {op : StoreOp K}
    (h : s.NoFailure op) (hstep : ∀ w ∈ s.descriptor, w.InStep) : s.Safe bytes comparator op := by
  cases op with
  | logAndApply edit o =>
    obtain ⟨-, hfailures, hsync⟩ := h
    unfold Store.Safe
    cases hdesc : s.descriptor with
    | some w => exact Or.inl ⟨hfailures, hsync, hstep w hdesc⟩
    | none =>
      -- No flag that is left says that an append fails.
      have hwriter : (s.writer o).dest.failures = o.failures := by
        unfold Store.writer
        rw [hdesc]
      have hrest := ((s.writer o).addFragments_ok true
        (((s.versions.pointed edit).snapshotEdit comparator).encode bytes)
        (by rw [hwriter]; exact hfailures)).2
      intro _
      cases hlist : ((s.writer o).addRecord
          (((s.versions.pointed edit).snapshotEdit comparator).encode bytes)).2.dest.failures with
      | nil => rfl
      | cons fails failures => exact hrest fails (by rw [← Log.Writer.addRecord, hlist]; simp)
  | newFileNumber => trivial
  | markFileNumberUsed number => trivial
  | setLastSequence sequence => trivial
  | setCompactPointer level key => trivial
  | reopen => trivial

omit [LinearOrder K] in
/-- A call whose first append fails is safe, if the manifest ends where a record can start. -/
theorem Store.safe_of_headFails {bytes : K ≃ Slice} {comparator : Slice} {w : Log.Writer} {edit : VersionEdit K}
    {o : Outcomes} (hdesc : s.descriptor = some w) (hfails : o.failures.headD false = true)
    (htrailer : Log.trailer w.blockOffset = []) : s.Safe bytes comparator (.logAndApply edit o) := by
  unfold Store.Safe
  rw [hdesc]
  exact Or.inr ⟨hfails, htrailer⟩

/-- A call in which nothing fails succeeds. -/
theorem Store.Holds.logAndApply_noFailure
    (h : s.Holds bytes comparator added records nextFile lastSequence)
    (hstep : ∀ w ∈ s.descriptor, w.InStep) {edit : VersionEdit K} {o : Outcomes}
    (hnone : s.NoFailure (.logAndApply edit o)) :
    (s.logAndApply bytes comparator edit o).1 = true := by
  obtain ⟨hnew, hfailures, hsync⟩ := hnone
  unfold Store.logAndApply
  dsimp only
  cases hdesc : s.descriptor with
  | some w =>
    have hok := (h.writes edit hdesc hfailures (hstep w hdesc)).1
    dsimp only
    rw [if_pos (Bool.and_eq_true_iff.mpr ⟨hok, hsync⟩)]
  | none =>
    have hok := Log.Writer.addWhileOk_ok
      ((s.newRecords comparator edit).map (VersionEdit.encode bytes)) (s.writer o) (by
        unfold Store.writer
        rw [hdesc]
        exact hfailures)
    dsimp only
    rw [if_pos (Bool.and_eq_true_iff.mpr ⟨Bool.and_eq_true_iff.mpr ⟨hnew, hok⟩, hsync⟩)]

/-- A database that was just opened has no descriptor. -/
theorem Store.reopen_descriptor {s' : Store K} (h : s.reopen bytes comparator = some s') :
    s'.descriptor = none := by
  unfold Store.reopen at h
  split at h
  · cases h
  · split at h
    · cases h
    · cases h
      rfl

/-- A run without failures is safe, and its writer stays in step. -/
theorem Store.Reaches.of_noFailure (hname : comparator.length < 2^32)
    (h : Store.Reaches bytes comparator Store.NoFailure added s) :
    Store.Reaches bytes comparator (Store.Safe bytes comparator) added s ∧
      ∀ w ∈ s.descriptor, w.InStep := by
  induction h with
  | newDb hopen =>
    refine ⟨.newDb hopen, fun w hw => ?_⟩
    rw [Store.reopen_descriptor hopen] at hw
    cases hw
  | step op _ hnone hspelled hnew hop ih =>
    obtain ⟨hreaches, hstep⟩ := ih
    have hsafe := hnone.safe bytes comparator hstep
    refine ⟨.step op hreaches hsafe hspelled hnew hop, ?_⟩
    -- Only `LogAndApply` writes to the manifest, and reopening closes its writer.
    cases op with
    | logAndApply edit o =>
      cases hop
      obtain ⟨records, nextFile, lastSequence, hholds⟩ := hreaches.holds hname
      have hok := hholds.logAndApply_noFailure hstep hnone
      exact (hholds.logAndApply_ok hspelled hsafe hnew hok).2.2
    | newFileNumber =>
      cases hop
      exact hstep
    | markFileNumberUsed number =>
      cases hop
      exact hstep
    | setLastSequence sequence =>
      cases hop
      exact hstep
    | setCompactPointer level key =>
      cases hop
      exact hstep
    | reopen =>
      intro w hw
      rw [Store.reopen_descriptor hop] at hw
      cases hw

/-! ## Recovering -/

/-- In every run without failures, across closing and opening the database, in which no pair of a level
and a file number is added twice: a further call of `LogAndApply` succeeds, and recovering the manifest
that `CURRENT` then names gives the ordered file lists of the live version set, its log numbers and its
last sequence number. -/
theorem recover_eq_live (hname : comparator.length < 2^32)
    (h : Store.Reaches bytes comparator Store.NoFailure added s) {edit : VersionEdit K}
    {o : Outcomes} (hnone : s.NoFailure (.logAndApply edit o))
    (hspelled : s.Spelled bytes comparator (.logAndApply edit o))
    (hnew : (added ++ s.adds bytes comparator (.logAndApply edit o)).Nodup) :
    let s' := (s.logAndApply bytes comparator edit o).2
    (s.logAndApply bytes comparator edit o).1 = true ∧ ∃ file vs',
      s'.files s'.current = some file ∧ VersionSet.recoverFile bytes comparator file = .ok vs' ∧
      (∀ l, vs'.current.files l = s'.versions.current.files l) ∧
      vs'.logNumber = s'.versions.logNumber ∧ vs'.prevLogNumber = s'.versions.prevLogNumber ∧
      vs'.lastSequence = s'.versions.lastSequence := by
  obtain ⟨hreaches, hstep⟩ := h.of_noFailure hname
  obtain ⟨records, nextFile, lastSequence, hholds⟩ := hreaches.holds hname
  have hok := hholds.logAndApply_noFailure hstep hnone
  obtain ⟨hholds', hversions, -⟩ :=
    hholds.logAndApply_ok hspelled (hnone.safe bytes comparator hstep) hnew hok
  obtain ⟨vs', hrecover, hfiles, hlog, hprev, hlast, -, -⟩ := hholds'.toOnDisk.recover
  refine ⟨hok, _, vs', hholds'.file, hrecover, fun l => congrFun hfiles l, hlog, hprev, ?_⟩
  rw [hlast, hversions]
  rfl

/-- In every run of safe operations recovering the manifest that `CURRENT` names gives the file lists of
the current version, so that it lists no file that is not live. -/
theorem recover_files_of_safe (hname : comparator.length < 2^32)
    (h : Store.Reaches bytes comparator (Store.Safe bytes comparator) added s) :
    ∃ file vs', s.files s.current = some file ∧
      VersionSet.recoverFile bytes comparator file = .ok vs' ∧
      vs'.current.files = s.versions.current.files := by
  obtain ⟨records, nextFile, lastSequence, hholds⟩ := h.holds hname
  obtain ⟨vs', hrecover, hfiles, -⟩ := hholds.toOnDisk.recover
  exact ⟨_, vs', hholds.file, hrecover, hfiles⟩

end Invariant

/-! ## Examples -/

/-- The comparator of the examples. -/
def exampleComparator : Slice := ascii "leveldb.BytewiseComparator"

/-- A database that was just made and opened. -/
def exampleStore : Store Slice :=
  ((Store.newDb (Equiv.refl Slice) exampleComparator).reopen (Equiv.refl Slice)
    exampleComparator).getD { files := fun _ => none, current := 0 }

/-- An edit that adds a table of one entry to level 0. -/
def exampleEdit (number : ℕ) : VersionEdit Slice :=
  { newFiles := [(0, ⟨number, 100, lookupKey [97] 1, lookupKey [97] 1⟩)] }

/-- The example database behind calls of `LogAndApply`. -/
def exampleStores (calls : List (VersionEdit Slice × Outcomes)) : Store Slice :=
  calls.foldl (fun s call =>
    (s.logAndApply (Equiv.refl Slice) exampleComparator call.1 call.2).2) exampleStore

/-- How many tables level 0 has in the version set, and in what recovering it gives. -/
def Store.tablesAndRecovered (s : Store Slice) : ℕ × Option ℕ :=
  ((s.versions.current.files 0).length,
    ((s.reopen (Equiv.refl Slice) exampleComparator).map
      fun s => (s.versions.current.files 0).length))

/-- `Sync` fails behind an append: the call fails and the table is not in the current version, but
recovering the manifest finds it. When the append of the payload fails, the manifest cannot be
recovered at all. -/
theorem recover_files_differ :
    (exampleStores [(exampleEdit 3, {}), (exampleEdit 4, { sync := false })]).tablesAndRecovered =
        (1, some 2) ∧
      (exampleStores [(exampleEdit 3, {}),
        (exampleEdit 4, { failures := [false, true] })]).tablesAndRecovered = (1, none) := by
  decide +kernel

/-- An edit that replaces the table of level 0 by one in level 1. -/
def exampleMove : VersionEdit Slice :=
  { deletedFiles := [(0, 3)], newFiles := [(1, ⟨5, 100, lookupKey [97] 1, lookupKey [97] 1⟩)] }

/-- The example database behind an addition and a replacement, after it was closed and opened. -/
def exampleReopened : Store Slice :=
  ((exampleStores [(exampleEdit 3, {}), (exampleMove, {})]).reopen (Equiv.refl Slice)
    exampleComparator).getD exampleStore

/-- The records of a call of `LogAndApply` can be spelled. -/
def Store.RecordsEncodable (s : Store Slice) (edit : VersionEdit Slice) : Prop :=
  ∀ record ∈ s.newRecords exampleComparator edit, record.Encodable (Equiv.refl Slice)

instance (s : Store Slice) (edit : VersionEdit Slice) : Decidable (s.RecordsEncodable edit) :=
  List.decidableBAll _ _

/-- What the runs of the examples give, in one evaluation: the new database and the one behind the replacement
can be opened, their records can be spelled, and the calls of `LogAndApply` add the tables of their edits. -/
theorem exampleStore_runs :
    ((Store.newDb (Equiv.refl Slice) exampleComparator).reopen (Equiv.refl Slice)
        exampleComparator).isSome = true ∧
      exampleStore.descriptor.isNone = true ∧
      exampleStore.RecordsEncodable (exampleEdit 3) ∧
      exampleStore.adds (Equiv.refl Slice) exampleComparator (.logAndApply (exampleEdit 3) {}) = [(0, 3)] ∧
      ((exampleStores [(exampleEdit 3, {})]).descriptor.map fun w => Log.trailer w.blockOffset) = some [] ∧
      (exampleStores [(exampleEdit 3, {})]).RecordsEncodable (exampleEdit 4) ∧
      (exampleStores [(exampleEdit 3, {})]).adds (Equiv.refl Slice) exampleComparator
        (.logAndApply (exampleEdit 4) { failures := [true] }) = [] ∧
      ((exampleStores [(exampleEdit 3, {}),
        (exampleEdit 4, { failures := [true] })]).versions.current.files 0).length = 1 ∧
      (exampleStores [(exampleEdit 3, {})]).RecordsEncodable exampleMove ∧
      (exampleStores [(exampleEdit 3, {})]).adds (Equiv.refl Slice) exampleComparator
        (.logAndApply exampleMove {}) = [(1, 5)] ∧
      ((exampleStores [(exampleEdit 3, {}), (exampleMove, {})]).reopen (Equiv.refl Slice)
        exampleComparator).isSome = true ∧
      exampleReopened.RecordsEncodable (exampleEdit 7) ∧
      exampleReopened.adds (Equiv.refl Slice) exampleComparator (.logAndApply (exampleEdit 7) {}) = [(0, 7)] ∧
      ([0, 1].map fun level => ((exampleReopened.logAndApply (Equiv.refl Slice) exampleComparator
        (exampleEdit 7) {}).2.versions.current.files level).map FileMetaData.number) = [[7], [5]] := by
  decide +kernel

/-- The new database can be opened. -/
theorem exampleStore_reaches (meets : Store Slice → StoreOp Slice → Prop) :
    Store.Reaches (Equiv.refl Slice) exampleComparator meets [] exampleStore := by
  obtain ⟨hopen, -⟩ := exampleStore_runs
  obtain ⟨s, hs⟩ := Option.isSome_iff_exists.mp hopen
  refine .newDb ?_
  unfold exampleStore
  rw [hs]
  rfl

/-- The first call is one on the new database. -/
theorem exampleStores_singleton (edit : VersionEdit Slice) (o : Outcomes) : exampleStores [(edit, o)] =
    (exampleStore.logAndApply (Equiv.refl Slice) exampleComparator edit o).2 := by
  unfold exampleStores
  rw [List.foldl_cons, List.foldl_nil]

/-- A further call goes on from the ones before. -/
theorem exampleStores_append (calls : List (VersionEdit Slice × Outcomes)) (edit : VersionEdit Slice)
    (o : Outcomes) : exampleStores (calls ++ [(edit, o)]) =
      ((exampleStores calls).logAndApply (Equiv.refl Slice) exampleComparator edit o).2 := by
  unfold exampleStores
  rw [List.foldl_append]
  rfl

/-- A run goes on with a call of `LogAndApply`. -/
theorem Store.Reaches.logAndApply {meets : Store Slice → StoreOp Slice → Prop} {added new : List (ℕ × ℕ)}
    {s s' : Store Slice} (h : Store.Reaches (Equiv.refl Slice) exampleComparator meets added s)
    {edit : VersionEdit Slice} {o : Outcomes}
    (hs' : s' = (s.logAndApply (Equiv.refl Slice) exampleComparator edit o).2)
    (hmeets : meets s (.logAndApply edit o)) (hedit : edit.comparator = none)
    (hrecords : s.RecordsEncodable edit)
    (hadds : s.adds (Equiv.refl Slice) exampleComparator (.logAndApply edit o) = new)
    (hnew : (added ++ new).Nodup) :
    Store.Reaches (Equiv.refl Slice) exampleComparator meets (added ++ new) s' := by
  subst hadds hs'
  exact .step _ h hmeets ⟨hedit, hrecords⟩ hnew rfl

/-- The run that leads to the database that was opened again. -/
theorem exampleReopened_reaches : Store.Reaches (Equiv.refl Slice) exampleComparator Store.NoFailure
    [(0, 3), (1, 5)] exampleReopened := by
  obtain ⟨-, -, hrecords, hadds, -, -, -, -, hmoved, hmoves, hopen, -⟩ := exampleStore_runs
  have hmeets : ∀ (s : Store Slice) (edit : VersionEdit Slice), s.NoFailure (.logAndApply edit {}) :=
    fun _ _ => ⟨rfl, fun _ hf => absurd hf List.not_mem_nil, rfl⟩
  have hfirst := (exampleStore_reaches Store.NoFailure).logAndApply (exampleStores_singleton _ _)
    (hmeets _ _) rfl hrecords hadds (by decide)
  have hsecond := hfirst.logAndApply (exampleStores_append [_] _ _) (hmeets _ _) rfl hmoved hmoves (by decide)
  obtain ⟨s, hs⟩ := Option.isSome_iff_exists.mp hopen
  have hreopened : exampleReopened = s := by
    unfold exampleReopened
    rw [hs, Option.getD_some]
  rw [hreopened]
  exact .step .reopen hsecond trivial trivial (by decide) hs

/-- A table is added to the database that was opened again. -/
theorem recover_eq_live_example :
    let s' := (exampleReopened.logAndApply (Equiv.refl Slice) exampleComparator (exampleEdit 7) {}).2
    ([0, 1].map fun level => (s'.versions.current.files level).map FileMetaData.number) = [[7], [5]] ∧
      (exampleReopened.logAndApply (Equiv.refl Slice) exampleComparator (exampleEdit 7) {}).1 = true ∧
      ∃ file vs', s'.files s'.current = some file ∧
        VersionSet.recoverFile (Equiv.refl Slice) exampleComparator file = .ok vs' ∧
        (∀ l, vs'.current.files l = s'.versions.current.files l) ∧
        vs'.logNumber = s'.versions.logNumber ∧ vs'.prevLogNumber = s'.versions.prevLogNumber ∧
        vs'.lastSequence = s'.versions.lastSequence := by
  obtain ⟨-, -, -, -, -, -, -, -, -, -, -, hrecords, hadds, hfiles⟩ := exampleStore_runs
  exact ⟨hfiles, recover_eq_live (by decide) exampleReopened_reaches
    ⟨rfl, fun _ hf => absurd hf List.not_mem_nil, rfl⟩ ⟨rfl, hrecords⟩ (by rw [hadds]; decide)⟩

/-- The example database behind a first call, and the descriptor that it then has. -/
theorem exampleStores_reaches : ∃ w,
    (exampleStores [(exampleEdit 3, {})]).descriptor = some w ∧ Log.trailer w.blockOffset = [] ∧
      Store.Reaches (Equiv.refl Slice) exampleComparator
        (Store.Safe (Equiv.refl Slice) exampleComparator) [(0, 3)]
        (exampleStores [(exampleEdit 3, {})]) := by
  obtain ⟨-, hnone, hrecords, hadds, hsome, -⟩ := exampleStore_runs
  obtain ⟨w, hw, htrailer⟩ := Option.map_eq_some_iff.mp hsome
  have hsafe : exampleStore.Safe (Equiv.refl Slice) exampleComparator
      (.logAndApply (exampleEdit 3) {}) := by
    refine Store.NoFailure.safe _ _ ⟨rfl, fun _ hf => absurd hf List.not_mem_nil, rfl⟩ fun w hw => ?_
    rw [Option.isNone_iff_eq_none.mp hnone] at hw
    cases hw
  exact ⟨w, hw, htrailer, (exampleStore_reaches _).logAndApply (exampleStores_singleton _ _) hsafe rfl hrecords
    hadds (by decide)⟩

/-- A table is added to a new database, and then the first append of a further call fails. -/
theorem recover_files_of_safe_example :
    let s := exampleStores [(exampleEdit 3, {}), (exampleEdit 4, { failures := [true] })]
    (s.versions.current.files 0).length = 1 ∧ ∃ file vs', s.files s.current = some file ∧
      VersionSet.recoverFile (Equiv.refl Slice) exampleComparator file = .ok vs' ∧
      vs'.current.files = s.versions.current.files := by
  obtain ⟨w, hdesc, htrailer, hreaches⟩ := exampleStores_reaches
  obtain ⟨-, -, -, -, -, hrecords, hadds, hlength, -⟩ := exampleStore_runs
  have hsafe : (exampleStores [(exampleEdit 3, {})]).Safe (Equiv.refl Slice) exampleComparator
      (.logAndApply (exampleEdit 4) { failures := [true] }) := Store.safe_of_headFails hdesc rfl htrailer
  exact ⟨hlength, recover_files_of_safe (by decide)
    (hreaches.logAndApply (exampleStores_append [_] _ _) hsafe rfl hrecords hadds (by decide))⟩

end LevelDb
