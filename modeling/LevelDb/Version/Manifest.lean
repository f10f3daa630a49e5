import LevelDb.Version.Save

/-!
# What a manifest describes

The records of a manifest describe a version set: replayed by `VersionSet::Recover` they give the
files of its current version, its log numbers, and bounds for its file numbers and its last sequence
number. `LogAndApply` keeps this by appending the edit that it applies, and the first `LogAndApply`
after a recovery starts a new manifest with a snapshot of the version that was recovered.
-/

namespace LevelDb

variable {K V : Type}

/-! ## `WriteSnapshot` -/

/-- Adding the files of a level to an edit. -/
theorem foldl_addFile_eq (l : ℕ) : ∀ (files : List (FileMetaData K)) (edit : VersionEdit K),
    files.foldl (fun edit f => edit.addFile l f.number f.fileSize f.smallest f.largest) edit =
      { edit with newFiles := edit.newFiles ++ files.map fun f => (l, f) }
  | [], edit => by simp
  | f :: files, edit => by
    rw [List.foldl_cons, foldl_addFile_eq l files]
    simp [VersionEdit.addFile]

/-- Adding the files of several levels to an edit. -/
theorem foldl_addLevels_eq (v : Version K) : ∀ (ls : List ℕ) (edit : VersionEdit K),
    ls.foldl (fun edit l => (v.files l).foldl
      (fun edit f => edit.addFile l f.number f.fileSize f.smallest f.largest) edit) edit =
      { edit with
        newFiles := edit.newFiles ++ ls.flatMap fun l => (v.files l).map fun f => (l, f) }
  | [], edit => by simp
  | l :: ls, edit => by
    rw [List.foldl_cons, foldl_addFile_eq, foldl_addLevels_eq v ls]
    simp

/-- Adding compaction pointers changes nothing else. -/
theorem foldl_setCompactPointer_eq (pointer : ℕ → Option (InternalKey K)) :
    ∀ (ls : List ℕ) (edit : VersionEdit K), ∃ pointers,
    ls.foldl (fun (edit : VersionEdit K) l =>
      match pointer l with
      | some key => edit.setCompactPointer l key
      | none => edit) edit = { edit with compactPointers := pointers }
  | [], edit => ⟨edit.compactPointers, rfl⟩
  | l :: ls, edit => by
    rw [List.foldl_cons]
    cases pointer l with
    | none => exact foldl_setCompactPointer_eq pointer ls edit
    | some key => exact foldl_setCompactPointer_eq pointer ls (edit.setCompactPointer l key)

/-- The record that `WriteSnapshot` writes: a comparator, compaction pointers, and the files of the
version. -/
theorem VersionSet.snapshotEdit_eq (vs : VersionSet K) (comparator : Slice) : ∃ pointers,
    vs.snapshotEdit comparator =
      { comparator := some comparator
        compactPointers := pointers
        newFiles := (List.range kNumLevels).flatMap fun l =>
          (vs.current.files l).map fun f => (l, f) } := by
  obtain ⟨pointers, h⟩ := foldl_setCompactPointer_eq vs.compactPointer (List.range kNumLevels)
    { comparator := some comparator }
  refine ⟨pointers, ?_⟩
  rw [snapshotEdit, foldl_addLevels_eq]
  exact congrArg (fun edit : VersionEdit K => { edit with
    newFiles := edit.newFiles ++ (List.range kNumLevels).flatMap fun l =>
      (vs.current.files l).map fun f => (l, f) }) h

/-- `WriteSnapshot` records the files of every level of the current version, and no others. -/
theorem VersionSet.mem_snapshotEdit_newFiles {vs : VersionSet K} {comparator : Slice} {l : ℕ}
    {f : FileMetaData K} :
    (l, f) ∈ (vs.snapshotEdit comparator).newFiles ↔
      l < kNumLevels ∧ f ∈ vs.current.files l := by
  obtain ⟨pointers, h⟩ := vs.snapshotEdit_eq comparator
  rw [h]
  simp

/-! ## Replaying -/

variable [LinearOrder K]

/-- All files that the records of a manifest add. -/
def manifestFiles (manifest : List (VersionEdit K)) : Set (FileMetaData K) :=
  {f | ∃ edit ∈ manifest, ∃ l, (l, f) ∈ edit.newFiles}

omit [LinearOrder K] in
/-- The files of a manifest with one more record. -/
theorem mem_manifestFiles_append {manifest : List (VersionEdit K)} {edit : VersionEdit K}
    {f : FileMetaData K} :
    f ∈ manifestFiles (manifest ++ [edit]) ↔
      f ∈ manifestFiles manifest ∨ ∃ l, (l, f) ∈ edit.newFiles := by
  simp [manifestFiles, or_and_right, exists_or]

/-- The state that `VersionSet::Recover` reaches describes a version set, with the file number
counter and the last sequence number of the last record. -/
structure RecoverState.Describes (st : RecoverState K) (vs : VersionSet K)
    (nextFile lastSequence : ℕ) : Prop where
  /-- The builder represents the current version. -/
  represents : st.builder.Represents vs.current
  /-- `log_number_` -/
  logNumber : st.logNumber = some vs.logNumber
  /-- `prev_log_number_` -/
  prevLogNumber : st.prevLogNumber.getD 0 = vs.prevLogNumber
  /-- `next_file_number_` of the last record. -/
  nextFile : st.nextFile = some nextFile
  /-- `last_sequence_` of the last record. -/
  lastSequence : st.lastSequence = some lastSequence

/-- The records of a manifest describe a version set. -/
structure ManifestDescribes (comparator : Slice) (manifest : List (VersionEdit K))
    (vs : VersionSet K) (nextFile lastSequence : ℕ) : Prop where
  /-- Replaying the records gives the version set. -/
  replay : ∃ st, manifest.foldlM (RecoverState.record comparator) {} = .ok st ∧
    st.Describes vs nextFile lastSequence ∧ st.builder.allFiles ⊆ manifestFiles manifest
  /-- Numbers identify the files of the manifest. -/
  identify : NumbersIdentify (manifestFiles manifest)
  /-- The numbers of all files of the manifest are in use. -/
  number_lt : ∀ f ∈ manifestFiles manifest, f.number < nextFile
  /-- The counter has only grown since the last record. -/
  nextFile_le : nextFile ≤ vs.nextFileNumber
  /-- The last sequence number has only grown since the last record. -/
  lastSequence_le : lastSequence ≤ vs.lastSequence

/-- Only the counters matter of what changes between two calls of `LogAndApply`. -/
theorem ManifestDescribes.mono {comparator : Slice} {manifest : List (VersionEdit K)}
    {vs vs' : VersionSet K} {nextFile lastSequence : ℕ}
    (h : ManifestDescribes comparator manifest vs nextFile lastSequence)
    (hfiles : vs'.current.files = vs.current.files) (hlog : vs'.logNumber = vs.logNumber)
    (hprev : vs'.prevLogNumber = vs.prevLogNumber)
    (hnext : vs.nextFileNumber ≤ vs'.nextFileNumber)
    (hlast : vs.lastSequence ≤ vs'.lastSequence) :
    ManifestDescribes comparator manifest vs' nextFile lastSequence := by
  obtain ⟨st, hst, hd, hall⟩ := h.replay
  refine ⟨⟨st, hst, ⟨⟨fun l f => ?_, hd.represents.sorted⟩, hlog ▸ hd.logNumber,
    hprev ▸ hd.prevLogNumber, hd.nextFile, hd.lastSequence⟩, hall⟩, h.identify, h.number_lt,
    h.nextFile_le.trans hnext, h.lastSequence_le.trans hlast⟩
  rw [hfiles]
  exact hd.represents.mem_iff l f

/-- Live files are files of the manifest. -/
theorem ManifestDescribes.mem_manifestFiles {comparator : Slice} {manifest : List (VersionEdit K)}
    {vs : VersionSet K} {nextFile lastSequence : ℕ}
    (h : ManifestDescribes comparator manifest vs nextFile lastSequence) {l : ℕ}
    {f : FileMetaData K} (hf : f ∈ vs.current.files l) : f ∈ manifestFiles manifest := by
  obtain ⟨st, -, hd, hall⟩ := h.replay
  exact hall ⟨l, ((hd.represents.mem_iff l f).mp hf).2.1⟩

/-- A record without another comparator is always accepted. -/
theorem RecoverState.record_ok {comparator : Slice} (st : RecoverState K) {edit : VersionEdit K}
    (h : edit.comparator = none ∨ edit.comparator = some comparator) :
    st.record comparator edit = .ok
      { builder := st.builder.apply edit
        logNumber := edit.logNumber <|> st.logNumber
        prevLogNumber := edit.prevLogNumber <|> st.prevLogNumber
        nextFile := edit.nextFileNumber <|> st.nextFile
        lastSequence := edit.lastSequence <|> st.lastSequence
        compactPointer := applyCompactPointers st.compactPointer edit } := by
  rw [record, if_neg]
  rcases h with h | h <;> simp [h]

/-- What an edit may add beside the files `known`: files of the known ones, and files with numbers
that no known file has, in use by now. -/
structure VersionEdit.AddsTo (edit : VersionEdit K) (known : Set (FileMetaData K))
    (nextFileNumber : ℕ) : Prop where
  /-- A file that is added is known, or its number is new. -/
  known_or_new : ∀ l f, (l, f) ∈ edit.newFiles → f ∈ known ∨ ∀ g ∈ known, g.number ≠ f.number
  /-- Numbers identify the files that are added, at whatever level. -/
  identify : NumbersIdentify {f | ∃ l, (l, f) ∈ edit.newFiles}
  /-- The numbers of added files are in use. -/
  number_lt : ∀ l f, (l, f) ∈ edit.newFiles → f.number < nextFileNumber

omit [LinearOrder K] in
/-- Numbers still identify files after an edit. -/
theorem VersionEdit.AddsTo.identify_union {edit : VersionEdit K} {known : Set (FileMetaData K)}
    {nextFileNumber : ℕ} (h : edit.AddsTo known nextFileNumber) (hid : NumbersIdentify known) :
    NumbersIdentify {f | f ∈ known ∨ ∃ l, (l, f) ∈ edit.newFiles} := by
  have hmixed : ∀ f ∈ known, ∀ l g, (l, g) ∈ edit.newFiles → f.number = g.number → f = g := by
    intro f hf l g hg hn
    rcases h.known_or_new l g hg with hg' | hg'
    · exact hid f hf g hg' hn
    · exact absurd hn (hg' f hf)
  rintro f (hf | ⟨l, hf⟩) g (hg | ⟨l', hg⟩) hn
  · exact hid f hf g hg hn
  · exact hmixed f hf l' g hg hn
  · exact (hmixed g hg l f hf hn.symm).symm
  · exact h.identify f ⟨l, hf⟩ g ⟨l', hg⟩ hn

/-- The record that `LogAndApply` writes describes the version set after it, whatever counters were
read before. -/
theorem RecoverState.record_describes (comparator : Slice) {st : RecoverState K}
    {vs : VersionSet K} {edit : VersionEdit K} {known : Set (FileMetaData K)} {nextFileNumber : ℕ}
    (hc : edit.comparator = none) (hlevels : ∀ l, kNumLevels ≤ l → vs.current.files l = [])
    (hrep : st.builder.Represents vs.current) (hall : st.builder.allFiles ⊆ known)
    (hid : NumbersIdentify known) (hfits : edit.Fits vs.current)
    (hadds : edit.AddsTo known nextFileNumber) :
    ∃ st', st.record comparator (vs.completeEdit edit) = .ok st' ∧
      st'.Describes (vs.logAndApply edit) vs.nextFileNumber vs.lastSequence ∧
      ∀ f ∈ st'.builder.allFiles, f ∈ known ∨ ∃ l, (l, f) ∈ edit.newFiles := by
  refine ⟨_, st.record_ok (Or.inl hc), ?_, ?_⟩
  · have hid' (l : ℕ) : NumbersIdentify
        {f | f ∈ (st.builder.levels l).addedFiles ∨ (l, f) ∈ (vs.completeEdit edit).newFiles} :=
      fun f hf g hg => hadds.identify_union hid f (hf.imp (hall ⟨l, ·⟩) (⟨l, ·⟩)) g
        (hg.imp (hall ⟨l, ·⟩) (⟨l, ·⟩))
    have hturns : edit.Turns vs.current (vs.logAndApply edit).current :=
      VersionSet.logAndApply_turns hlevels hfits
    exact ⟨hrep.apply hfits.levels hturns hid', rfl, rfl, rfl, rfl⟩
  · intro f hf
    exact (Builder.allFiles_apply hf).imp_left (hall ·)

/-- A manifest that describes a version set describes the next one with the edit that `LogAndApply`
appends. -/
theorem ManifestDescribes.logAndApply {comparator : Slice} {manifest : List (VersionEdit K)}
    {vs : VersionSet K} {nextFile lastSequence : ℕ}
    (h : ManifestDescribes comparator manifest vs nextFile lastSequence) {edit : VersionEdit K}
    (hc : edit.comparator = none) (hlevels : ∀ l, kNumLevels ≤ l → vs.current.files l = [])
    (hfits : edit.Fits vs.current)
    (hadds : edit.AddsTo (manifestFiles manifest) vs.nextFileNumber) :
    ManifestDescribes comparator (manifest ++ [vs.completeEdit edit]) (vs.logAndApply edit)
      vs.nextFileNumber vs.lastSequence := by
  obtain ⟨st, hst, hd, hall⟩ := h.replay
  obtain ⟨st', hst', hd', hall'⟩ := RecoverState.record_describes comparator hc
    hlevels hd.represents hall h.identify hfits hadds
  refine ⟨⟨st', ?_, hd', fun f hf => mem_manifestFiles_append.mpr (hall' f hf)⟩, ?_, ?_, le_refl _,
    le_refl _⟩
  · rw [List.foldlM_append, hst]
    simp [bind, Except.bind, hst', pure, Except.pure]
  · intro f hf g hg
    have hf' := mem_manifestFiles_append.mp hf
    have hg' := mem_manifestFiles_append.mp hg
    exact hadds.identify_union h.identify f hf' g hg'
  · intro f hf
    rcases mem_manifestFiles_append.mp hf with hf | ⟨l, hf⟩
    · exact (h.number_lt f hf).trans_le h.nextFile_le
    · exact hadds.number_lt l f hf

/-- The live files of a version. -/
def Version.liveFiles (v : Version K) : Set (FileMetaData K) := {f | ∃ l, f ∈ v.files l}

/-- The files that a fresh builder has added after a snapshot are those of the version. -/
theorem VersionSet.snapshot_addedFiles {vs : VersionSet K} {comparator : Slice} {l : ℕ}
    {f : FileMetaData K}
    (hf : f ∈ ((({} : Builder K).apply (vs.snapshotEdit comparator)).levels l).addedFiles) :
    f ∈ vs.current.files l := by
  rw [Builder.apply] at hf
  rcases mem_of_mem_foldl_addFile l hf with hf | hf
  · rw [(foldl_deleteFile l _ ({} : Builder K)).1] at hf
    simp at hf
  · exact (mem_snapshotEdit_newFiles.mp hf).2

/-- Applied to an empty builder, the snapshot of a version set represents the current version. -/
theorem VersionSet.snapshot_represents (vs : VersionSet K) (comparator : Slice)
    (hlevels : ∀ l, kNumLevels ≤ l → vs.current.files l = [])
    (hid : ∀ l, NumbersIdentify {f | f ∈ vs.current.files l}) :
    (({} : Builder K).apply (vs.snapshotEdit comparator)).Represents vs.current := by
  have hempty : ({} : Builder K).Represents ({} : Version K) :=
    ⟨fun l f => by simp, fun l => List.Pairwise.nil⟩
  have hlive : ∀ l f, f ∈ vs.current.files l → l < kNumLevels := by
    intro l f hf
    by_contra hl
    rw [hlevels l (by omega)] at hf
    simp at hf
  refine hempty.apply (fun l f hf => (mem_snapshotEdit_newFiles.mp hf).1) ?_ ?_
  · intro l f
    rw [mem_snapshotEdit_newFiles]
    simp only [List.not_mem_nil, false_and, false_or]
    exact ⟨fun hf => ⟨hlive l f hf, hf⟩, And.right⟩
  · rintro l f (hf | hf) g (hg | hg) hn
    · simp at hf
    · simp at hf
    · simp at hg
    · exact hid l f (mem_snapshotEdit_newFiles.mp hf).2 g (mem_snapshotEdit_newFiles.mp hg).2 hn

/-- A snapshot is accepted at the start of a manifest. -/
theorem VersionSet.record_snapshot (vs : VersionSet K) (comparator : Slice) :
    ∃ st, RecoverState.record comparator {} (vs.snapshotEdit comparator) = .ok st ∧
      st.builder = ({} : Builder K).apply (vs.snapshotEdit comparator) := by
  obtain ⟨pointers, hsnap⟩ := vs.snapshotEdit_eq comparator
  have hcomp : (vs.snapshotEdit comparator).comparator = some comparator := by rw [hsnap]
  exact ⟨_, ({} : RecoverState K).record_ok (Or.inr hcomp), rfl⟩

/-- The first `LogAndApply` after a recovery starts a new manifest. -/
theorem manifestDescribes_snapshot {comparator : Slice} {vs : VersionSet K}
    {edit : VersionEdit K} (hc : edit.comparator = none)
    (hlevels : ∀ l, kNumLevels ≤ l → vs.current.files l = [])
    (hid : NumbersIdentify vs.current.liveFiles)
    (hlt : ∀ f ∈ vs.current.liveFiles, f.number < vs.nextFileNumber) (hfits : edit.Fits vs.current)
    (hadds : edit.AddsTo vs.current.liveFiles vs.nextFileNumber) :
    ManifestDescribes comparator [vs.snapshotEdit comparator, vs.completeEdit edit]
      (vs.logAndApply edit) vs.nextFileNumber vs.lastSequence := by
  -- What the snapshot alone leads to.
  obtain ⟨st₁, hrec, hbuilder⟩ := vs.record_snapshot comparator
  have hrep₁ : st₁.builder.Represents vs.current := hbuilder ▸ vs.snapshot_represents comparator
    hlevels fun l f hf g hg => hid f ⟨l, hf⟩ g ⟨l, hg⟩
  have hall₁ : st₁.builder.allFiles ⊆ vs.current.liveFiles := by
    rintro f ⟨l, hf⟩
    rw [hbuilder] at hf
    exact ⟨l, VersionSet.snapshot_addedFiles hf⟩
  obtain ⟨st', hst', hd', hall'⟩ := RecoverState.record_describes comparator hc hlevels hrep₁ hall₁
    hid hfits hadds
  have hfiles : ∀ f, f ∈ manifestFiles [vs.snapshotEdit comparator, vs.completeEdit edit] ↔
      f ∈ vs.current.liveFiles ∨ ∃ l, (l, f) ∈ edit.newFiles := by
    intro f
    rw [show [vs.snapshotEdit comparator, vs.completeEdit edit] =
      [vs.snapshotEdit comparator] ++ [vs.completeEdit edit] from rfl, mem_manifestFiles_append]
    refine or_congr ?_ Iff.rfl
    constructor
    · rintro ⟨e, he, l, hf⟩
      rw [List.mem_singleton.mp he] at hf
      exact ⟨l, (VersionSet.mem_snapshotEdit_newFiles.mp hf).2⟩
    · rintro ⟨l, hf⟩
      exact ⟨_, List.mem_singleton_self _, l, VersionSet.mem_snapshotEdit_newFiles.mpr
        ⟨((hrep₁.mem_iff l f).mp hf).1, hf⟩⟩
  refine ⟨⟨st', ?_, hd', fun f hf => (hfiles f).mpr (hall' f hf)⟩, ?_, ?_, le_refl _, le_refl _⟩
  · simp only [List.foldlM_cons, List.foldlM_nil, hrec, bind, Except.bind]
    rw [hst']
    rfl
  · exact fun f hf g hg => hadds.identify_union hid f ((hfiles f).mp hf) g ((hfiles g).mp hg)
  · intro f hf
    rcases (hfiles f).mp hf with hf | ⟨l, hf⟩
    · exact hlt f hf
    · exact hadds.number_lt l f hf

/-- `VersionSet::Recover` on a manifest that describes a version set: it succeeds, with the same
files and log numbers, and the counters of the last record. -/
theorem ManifestDescribes.recover {comparator : Slice} {manifest : List (VersionEdit K)}
    {vs : VersionSet K} {nextFile lastSequence : ℕ}
    (h : ManifestDescribes comparator manifest vs nextFile lastSequence)
    (hv : ∀ l, FilesSorted (vs.current.files l)) :
    ∃ vs' v, VersionSet.recover comparator manifest = .ok vs' ∧ vs'.current = finalize v ∧
      v.files = vs.current.files ∧ v.fileToCompact = none ∧ vs'.logNumber = vs.logNumber ∧
      vs'.prevLogNumber = vs.prevLogNumber ∧ vs'.nextFileNumber = nextFile + 1 ∧
      vs'.lastSequence = lastSequence := by
  obtain ⟨st, hst, hd, -⟩ := h.replay
  refine ⟨{ nextFileNumber := nextFile + 1
            manifestFileNumber := nextFile
            lastSequence := lastSequence
            logNumber := vs.logNumber
            prevLogNumber := st.prevLogNumber.getD 0
            current := finalize (st.builder.saveTo {})
            compactPointer := st.compactPointer }, st.builder.saveTo {}, ?_, rfl,
    hd.represents.saveTo_files hv, rfl, rfl, hd.prevLogNumber, rfl, rfl⟩
  rw [VersionSet.recover, hst]
  simp [bind, Except.bind, hd.nextFile, hd.logNumber, hd.lastSequence]

end LevelDb
