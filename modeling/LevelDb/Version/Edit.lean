import LevelDb.Version.Files
import Mathlib.Logic.Function.Basic
import Mathlib.Data.List.Basic

/-!
# Version edits and the version set

A `VersionEdit` records a change of the file lists. `VersionSet::Builder` applies edits to a base
version, `VersionSet::LogAndApply` installs the result as the current version and appends the edit
to the manifest, and `VersionSet::Recover` replays the records of a manifest into one builder. Files
here are what the edits carry: the manifest's encoding of a record is not part of this model.
-/

namespace LevelDb

variable {K : Type}

/-- The errors of the modelled functions. -/
inductive Status where
  /-- `Status::NotFound` -/
  | notFound
  /-- `Status::Corruption` -/
  | corruption (msg : Slice)
  /-- `Status::InvalidArgument` -/
  | invalidArgument (msg : Slice)
  /-- `Status::IOError` -/
  | ioError (msg : Slice)
  deriving DecidableEq, Repr

/-- The text that a `Status` makes of two messages. -/
def statusText (msg msg2 : Slice) : Slice := if msg2 = [] then msg else msg ++ ascii ": " ++ msg2

/-- `VersionEdit`. A field that the edit does not have is `none`. -/
structure VersionEdit (K : Type) where
  /-- `comparator_` -/
  comparator : Option Slice := none
  /-- `log_number_` -/
  logNumber : Option ℕ := none
  /-- `prev_log_number_` -/
  prevLogNumber : Option ℕ := none
  /-- `next_file_number_` -/
  nextFileNumber : Option ℕ := none
  /-- `last_sequence_` -/
  lastSequence : Option ℕ := none
  /-- `compact_pointers_` -/
  compactPointers : List (ℕ × InternalKey K) := []
  /-- `deleted_files_`: pairs of a level and a file number. -/
  deletedFiles : List (ℕ × ℕ) := []
  /-- `new_files_`: files with their level. -/
  newFiles : List (ℕ × FileMetaData K) := []

/-- `VersionEdit::AddFile`. -/
def VersionEdit.addFile (edit : VersionEdit K) (level file fileSize : ℕ)
    (smallest largest : InternalKey K) : VersionEdit K :=
  { edit with newFiles := edit.newFiles ++ [(level, ⟨file, fileSize, smallest, largest⟩)] }

/-- `VersionEdit::DeleteFile`. -/
def VersionEdit.deleteFile (edit : VersionEdit K) (level file : ℕ) : VersionEdit K :=
  { edit with deletedFiles := edit.deletedFiles ++ [(level, file)] }

/-- `VersionEdit::SetCompactPointer`. -/
def VersionEdit.setCompactPointer (edit : VersionEdit K) (level : ℕ) (key : InternalKey K) :
    VersionEdit K :=
  { edit with compactPointers := edit.compactPointers ++ [(level, key)] }

/-! ## The builder -/

section Builder

variable [LinearOrder K]

/-- `Builder::BySmallestKey`: by smallest key, with ties broken by file number. -/
def bySmallestKey (f g : FileMetaData K) : Prop :=
  f.smallest < g.smallest ∨ (f.smallest = g.smallest ∧ f.number < g.number)

instance (f g : FileMetaData K) : Decidable (bySmallestKey f g) := instDecidableOr

/-- Insertion into a `FileSet`, a set ordered by `BySmallestKey`. A file that ties with one that is
already there is not inserted. -/
def insertFile (f : FileMetaData K) : List (FileMetaData K) → List (FileMetaData K)
  | [] => [f]
  | g :: files =>
    if bySmallestKey f g then f :: g :: files
    else if bySmallestKey g f then g :: insertFile f files
    else g :: files

/-- `Builder::LevelState`. -/
structure LevelState (K : Type) where
  /-- `deleted_files` -/
  deletedFiles : List ℕ := []
  /-- `added_files`, in the order of the set. -/
  addedFiles : List (FileMetaData K) := []

/-- `VersionSet::Builder`: the state of each level, and the seeks allowed to the files it adds. -/
structure Builder (K : Type) where
  /-- `levels_` -/
  levels : ℕ → LevelState K := fun _ => {}
  /-- `allowed_seeks` of the added files by their numbers. -/
  seeks : ℕ → Option ℤ := fun _ => none

/-- The part of `Builder::Apply` that deletes a file. -/
def Builder.deleteFile (b : Builder K) (d : ℕ × ℕ) : Builder K :=
  let state := { b.levels d.1 with deletedFiles := d.2 :: (b.levels d.1).deletedFiles }
  { b with levels := Function.update b.levels d.1 state }

/-- The seeks that `Builder::Apply` allows a new file: one for every 16KB, and at least 100. -/
def newAllowedSeeks (fileSize : ℕ) : ℤ :=
  if fileSize / 16384 < 100 then 100 else fileSize / 16384

/-- The part of `Builder::Apply` that adds a file. -/
def Builder.addFile (b : Builder K) (n : ℕ × FileMetaData K) : Builder K :=
  let state : LevelState K :=
    { deletedFiles := (b.levels n.1).deletedFiles.filter (· ≠ n.2.number)
      addedFiles := insertFile n.2 (b.levels n.1).addedFiles }
  { levels := Function.update b.levels n.1 state
    seeks := Function.update b.seeks n.2.number (some (newAllowedSeeks n.2.fileSize)) }

/-- `Builder::Apply`, without the compaction pointers: deletions first, then additions. -/
def Builder.apply (b : Builder K) (edit : VersionEdit K) : Builder K :=
  edit.newFiles.foldl Builder.addFile (edit.deletedFiles.foldl Builder.deleteFile b)

/-- The merge loop of `Builder::SaveTo` for one level: before each added file come the base files
up to `std::upper_bound`. -/
def mergeFiles : List (FileMetaData K) → List (FileMetaData K) → List (FileMetaData K)
  | base, [] => base
  | base, a :: added =>
    base.takeWhile (fun b => !decide (bySmallestKey a b)) ++
      a :: mergeFiles (base.dropWhile fun b => !decide (bySmallestKey a b)) added

/-- `Builder::SaveTo` for one level; `MaybeAddFile` skips the deleted files. -/
def saveLevel (base : List (FileMetaData K)) (state : LevelState K) : List (FileMetaData K) :=
  (mergeFiles base state.addedFiles).filter fun f => !state.deletedFiles.contains f.number

/-- `Builder::SaveTo` over the base version. -/
def Builder.saveTo (b : Builder K) (base : Version K) : Version K :=
  { files := fun level =>
      if level < kNumLevels then saveLevel (base.files level) (b.levels level) else []
    allowedSeeks := fun number => (b.seeks number).getD (base.allowedSeeks number) }

end Builder

/-! ## `Finalize` -/

/-- `TotalFileSize`. -/
def totalFileSize (files : List (FileMetaData K)) : ℕ := (files.map (·.fileSize)).sum

/-- `MaxBytesForLevel`: 10MB for levels 0 and 1, and ten times more for each further level. -/
def maxBytesForLevel (level : ℕ) : ℚ := 10 * 1048576 * 10 ^ (level - 1)

/-- The score of a level: the number of files against the trigger for level 0, the size of the level
against its limit otherwise. -/
def levelScore (files : List (FileMetaData K)) (level : ℕ) : ℚ :=
  if level = 0 then (files.length : ℚ) / kL0CompactionTrigger
  else (totalFileSize files : ℚ) / maxBytesForLevel level

/-- The loop of `VersionSet::Finalize`: the first level with the best score, and that score. -/
def bestLevel (v : Version K) : ℤ × ℚ :=
  (List.range (kNumLevels - 1)).foldl
    (fun best level =>
      if best.2 < levelScore (v.files level) level then
        ((level : ℤ), levelScore (v.files level) level)
      else best)
    ((-1 : ℤ), (-1 : ℚ))

/-- `VersionSet::Finalize`: precompute the best level for the next compaction. -/
def finalize (v : Version K) : Version K :=
  { v with compactionLevel := (bestLevel v).1, compactionScore := (bestLevel v).2 }

@[simp] theorem finalize_files (v : Version K) : (finalize v).files = v.files := by
  simp only [finalize]

@[simp] theorem finalize_fileToCompact (v : Version K) :
    (finalize v).fileToCompact = v.fileToCompact := by
  simp only [finalize]

/-! ## The version set -/

/-- The in-memory state of `VersionSet`. -/
structure VersionSet (K : Type) where
  /-- `next_file_number_` -/
  nextFileNumber : ℕ := 2
  /-- `manifest_file_number_` -/
  manifestFileNumber : ℕ := 0
  /-- `last_sequence_` -/
  lastSequence : ℕ := 0
  /-- `log_number_` -/
  logNumber : ℕ := 0
  /-- `prev_log_number_` -/
  prevLogNumber : ℕ := 0
  /-- `current_` -/
  current : Version K := {}
  /-- `compact_pointer_`: per level, the key at which the next compaction should start. -/
  compactPointer : ℕ → Option (InternalKey K) := fun _ => none

/-- The part of `Builder::Apply` that updates compaction pointers. -/
def applyCompactPointers (pointer : ℕ → Option (InternalKey K)) (edit : VersionEdit K) :
    ℕ → Option (InternalKey K) :=
  edit.compactPointers.foldl (fun p q => Function.update p q.1 (some q.2)) pointer

/-- The edit as `LogAndApply` completes and writes it. -/
def VersionSet.completeEdit (vs : VersionSet K) (edit : VersionEdit K) : VersionEdit K :=
  { edit with
    logNumber := some (edit.logNumber.getD vs.logNumber)
    prevLogNumber := some (edit.prevLogNumber.getD vs.prevLogNumber)
    nextFileNumber := some vs.nextFileNumber
    lastSequence := some vs.lastSequence }

/-- `VersionSet::MarkFileNumberUsed`. -/
def VersionSet.markFileNumberUsed (vs : VersionSet K) (number : ℕ) : VersionSet K :=
  if vs.nextFileNumber ≤ number then { vs with nextFileNumber := number + 1 } else vs

/-- `VersionSet::WriteSnapshot`: one edit that adds every file of the current version. -/
def VersionSet.snapshotEdit (vs : VersionSet K) (comparator : Slice) : VersionEdit K :=
  let withPointers := (List.range kNumLevels).foldl
    (fun (edit : VersionEdit K) level =>
      match vs.compactPointer level with
      | some key => edit.setCompactPointer level key
      | none => edit)
    { comparator := some comparator }
  (List.range kNumLevels).foldl
    (fun edit level => (vs.current.files level).foldl
      (fun edit f => edit.addFile level f.number f.fileSize f.smallest f.largest) edit)
    withPointers

section

variable [LinearOrder K]

/-- `VersionSet::LogAndApply` when every file operation succeeds; `completeEdit` is the record that
it appends to the manifest. -/
def VersionSet.logAndApply (vs : VersionSet K) (edit : VersionEdit K) : VersionSet K :=
  let record := vs.completeEdit edit
  { vs with
    current := finalize ((({} : Builder K).apply record).saveTo vs.current)
    logNumber := edit.logNumber.getD vs.logNumber
    prevLogNumber := edit.prevLogNumber.getD vs.prevLogNumber
    compactPointer := applyCompactPointers vs.compactPointer record }

/-- What the loop of `VersionSet::Recover` collects from the records of a manifest. -/
structure RecoverState (K : Type) where
  /-- The builder, over the empty current version. -/
  builder : Builder K := {}
  /-- The last `log_number_` seen. -/
  logNumber : Option ℕ := none
  /-- The last `prev_log_number_` seen. -/
  prevLogNumber : Option ℕ := none
  /-- The last `next_file_number_` seen. -/
  nextFile : Option ℕ := none
  /-- The last `last_sequence_` seen. -/
  lastSequence : Option ℕ := none
  /-- `compact_pointer_` of the version set. -/
  compactPointer : ℕ → Option (InternalKey K) := fun _ => none

/-- One round of the loop of `VersionSet::Recover`. A comparator of another name stops it. -/
def RecoverState.record (comparator : Slice) (st : RecoverState K) (edit : VersionEdit K) :
    Except Status (RecoverState K) :=
  if edit.comparator.any (· ≠ comparator) then
    .error (.invalidArgument (statusText
      (edit.comparator.getD [] ++ ascii "does not match existing comparator ") comparator))
  else
    .ok
      { builder := st.builder.apply edit
        logNumber := edit.logNumber <|> st.logNumber
        prevLogNumber := edit.prevLogNumber <|> st.prevLogNumber
        nextFile := edit.nextFileNumber <|> st.nextFile
        lastSequence := edit.lastSequence <|> st.lastSequence
        compactPointer := applyCompactPointers st.compactPointer edit }

/-- `VersionSet::Recover` on the records of the manifest that `CURRENT` names. -/
def VersionSet.recover (comparator : Slice) (manifest : List (VersionEdit K)) :
    Except Status (VersionSet K) := do
  let st ← manifest.foldlM (RecoverState.record comparator) {}
  match st.nextFile, st.logNumber, st.lastSequence with
  | none, _, _ => .error (.corruption (ascii "no meta-nextfile entry in descriptor"))
  | some _, none, _ => .error (.corruption (ascii "no meta-lognumber entry in descriptor"))
  | some _, some _, none =>
    .error (.corruption (ascii "no last-sequence-number entry in descriptor"))
  | some nextFile, some logNumber, some lastSequence =>
    .ok
      { nextFileNumber := nextFile + 1
        manifestFileNumber := nextFile
        lastSequence := lastSequence
        logNumber := logNumber
        prevLogNumber := st.prevLogNumber.getD 0
        current := finalize (st.builder.saveTo {})
        compactPointer := st.compactPointer }

end

end LevelDb
