import LevelDb.Env.FileName

/-!
# Switching `CURRENT` on Windows

`SetCurrentFile` of `db/filename.cc` writes the name of the new manifest to a temporary file and
renames it. `Win32Env::RenameFile` of `env_win32.cc` emulates the rename with `MoveFile`, which does
not replace a file, `DeleteFileW` and a second `MoveFileW`, and it looks at the error code of the
first of them only. Every call of the operating system is atomic here, and is asked to succeed or to
fail with some code; it succeeds when it can. Paths are taken to be in the form that `ModifyPath`
leaves as it is.
-/

namespace LevelDb.Win32

/-! ## The calls -/

/-- The contents of files by path. -/
abbrev Files := Slice → Option Slice

/-- What a call is asked to do. -/
inductive Outcome where
  /-- Succeed, if it can. -/
  | success
  /-- Fail with this code of `GetLastError`. -/
  | failure (code : ℕ)
  deriving DecidableEq

/-- `ERROR_FILE_NOT_FOUND` -/
def errorFileNotFound : ℕ := 0x02

/-- `ERROR_ALREADY_EXISTS` -/
def errorAlreadyExists : ℕ := 0xb7

/-- `MoveFileW`, which does not replace an existing file: an error code, and the files after it. -/
def moveFile (files : Files) (src target : Slice) : Outcome → Option ℕ × Files
  | .failure code => (some code, files)
  | .success =>
    match files src, files target with
    | _, some _ => (some errorAlreadyExists, files)
    | none, none => (some errorFileNotFound, files)
    | some data, none =>
      (none, Function.update (Function.update files target (some data)) src none)

/-- `DeleteFileW`: an error code, and the files after it. -/
def deleteFile (files : Files) (path : Slice) : Outcome → Option ℕ × Files
  | .failure code => (some code, files)
  | .success =>
    match files path with
    | none => (some errorFileNotFound, files)
    | some _ => (none, Function.update files path none)

/-- What the calls that `SetCurrentFile` makes are asked to do. -/
structure Outcomes where
  /-- `NewWritableFile` in `WriteStringToFile`. -/
  newWritableFile : Outcome := .success
  /-- `Append` in `WriteStringToFile`. -/
  append : Outcome := .success
  /-- What the mapped region holds behind the data until the file is closed. -/
  padding : Slice := []
  /-- `Close` in `WriteStringToFile`. -/
  close : Outcome := .success
  /-- `DeleteFile` in `WriteStringToFile`, after an error. -/
  deleteWritten : Outcome := .success
  /-- The first `MoveFile` in `RenameFile`. -/
  moveFile : Outcome := .success
  /-- `DeleteFileW` in `RenameFile`. -/
  deleteFile : Outcome := .success
  /-- The second `MoveFileW` in `RenameFile`. -/
  moveFileAgain : Outcome := .success
  /-- `DeleteFile` in `SetCurrentFile`, after an error. -/
  deleteTemp : Outcome := .success

/-- What a function returns, and the files after each of the calls that it makes. -/
structure Run where
  /-- Whether the status is OK. -/
  ok : Bool
  /-- The files after each call. -/
  states : List Files

/-- The files when a function returns. -/
def Run.final (r : Run) (files : Files) : Files := r.states.getLastD files

/-! ## The functions -/

/-- `WriteStringToFile`. -/
def writeStringToFile (files : Files) (data fname : Slice) (o : Outcomes) : Run :=
  if o.newWritableFile = .success then
    -- An existing file is opened without being truncated.
    let opened := Function.update files fname (some ((files fname).getD []))
    if o.append = .success then
      let appended := Function.update opened fname (some (data ++ o.padding))
      if o.close = .success then
        ⟨true, [opened, appended, Function.update appended fname (some data)]⟩
      else ⟨false, [opened, appended, appended, (deleteFile appended fname o.deleteWritten).2]⟩
    else ⟨false, [opened, opened, (deleteFile opened fname o.deleteWritten).2]⟩
  else ⟨false, [files]⟩

/-- `Win32Env::RenameFile`. -/
def renameFile (files : Files) (src target : Slice) (o : Outcomes) : Run :=
  let r := moveFile files src target o.moveFile
  match r.1 with
  | none => ⟨true, [r.2]⟩
  | some err =>
    if err = errorAlreadyExists then
      let r' := deleteFile r.2 target o.deleteFile
      if r'.1.isSome then ⟨false, [r.2, r'.2]⟩
      else
        let r'' := moveFile r'.2 src target o.moveFileAgain
        ⟨r''.1.isNone, [r.2, r'.2, r''.2]⟩
    else ⟨true, [r.2]⟩

/-- What `CURRENT` should hold: the name of the manifest without the directory, and a newline. -/
def currentContents (dbname : Slice) (descriptorNumber : ℕ) : Slice :=
  (descriptorFileName dbname descriptorNumber).drop (dbname.length + 1) ++ ascii "\n"

/-- `SetCurrentFile`. -/
def setCurrentFile (files : Files) (dbname : Slice) (descriptorNumber : ℕ) (o : Outcomes) : Run :=
  let tmp := tempFileName dbname descriptorNumber
  let written := writeStringToFile files (currentContents dbname descriptorNumber) tmp o
  if written.ok then
    let renamed := renameFile (written.final files) tmp (currentFileName dbname) o
    if renamed.ok then ⟨true, written.states ++ renamed.states⟩
    else
      ⟨false, written.states ++ renamed.states ++
        [(deleteFile (renamed.final files) tmp o.deleteTemp).2]⟩
  else
    ⟨false, written.states ++ [(deleteFile (written.final files) tmp o.deleteTemp).2]⟩

/-! ## All or nothing -/

/-- The files after a crash behind some calls, or, without a crash, when the function returns. -/
def Run.left (r : Run) (files : Files) : Option ℕ → Files
  | some calls => (files :: r.states).getD calls (r.final files)
  | none => r.final files

/-- The switch is all or nothing: when `SetCurrentFile` returns OK, `CURRENT` names the new manifest;
when it returns an error, `CURRENT` is what it was; and after a crash it is the one or the other. -/
def AllOrNothing (files : Files) (dbname : Slice) (descriptorNumber : ℕ) (o : Outcomes)
    (crash : Option ℕ) : Prop :=
  let r := setCurrentFile files dbname descriptorNumber o
  let old := files (currentFileName dbname)
  let new := some (currentContents dbname descriptorNumber)
  let found := r.left files crash (currentFileName dbname)
  if crash.isSome then found = old ∨ found = new
  else if r.ok then found = new
  else found = old

/-- The temporary file is written. -/
def Outcomes.Written (o : Outcomes) : Prop :=
  o.newWritableFile = .success ∧ o.append = .success ∧ o.close = .success

/-- The first `MoveFile` fails with a code that `RenameFile` does not look at, and `CURRENT` is left
as it was although OK is returned. -/
def RenameUnnoticed (files : Files) (dbname : Slice) (descriptorNumber : ℕ) (o : Outcomes)
    (crash : Option ℕ) : Prop :=
  o.Written ∧ crash = none ∧ (∃ code, o.moveFile = .failure code ∧ code ≠ errorAlreadyExists) ∧
    files (currentFileName dbname) ≠ some (currentContents dbname descriptorNumber)

/-- There is a `CURRENT`, so that the first `MoveFile` fails; `DeleteFileW` removes it; and nothing
takes its place, because of a crash right behind this fifth call, or because the second `MoveFileW`
fails. -/
def CurrentRemoved (files : Files) (dbname : Slice) (o : Outcomes) (crash : Option ℕ) : Prop :=
  o.Written ∧ (files (currentFileName dbname)).isSome = true ∧
    (o.moveFile = .success ∨ o.moveFile = .failure errorAlreadyExists) ∧
    o.deleteFile = .success ∧
    (crash = some 5 ∨ (crash.all (5 < ·) = true ∧ o.moveFileAgain ≠ .success))

/-! ## What the calls do to `CURRENT` -/

/-- Deleting another file leaves a file as it is. -/
theorem deleteFile_of_ne (files : Files) {path other : Slice} (h : other ≠ path) (o : Outcome) :
    (deleteFile files path o).2 other = files other := by
  unfold deleteFile
  split
  · rfl
  · split
    · rfl
    · exact Function.update_of_ne h _ _

/-- A file that is there is deleted when the call is asked to succeed. -/
theorem deleteFile_success {files : Files} {path data : Slice} (h : files path = some data) :
    deleteFile files path .success = (none, Function.update files path none) := by
  unfold deleteFile
  rw [h]

/-- A file that is not there cannot be deleted. -/
theorem deleteFile_missing {files : Files} {path : Slice} (h : files path = none) (o : Outcome) :
    (deleteFile files path o).1.isSome = true ∧ (deleteFile files path o).2 = files := by
  unfold deleteFile
  cases o with
  | failure code => exact ⟨rfl, rfl⟩
  | success => rw [h]; exact ⟨rfl, rfl⟩

/-- An existing file is not replaced. -/
theorem moveFile_existing {files : Files} {src target data : Slice} (h : files target = some data) :
    moveFile files src target .success = (some errorAlreadyExists, files) := by
  unfold moveFile
  rw [h]

/-- A file is moved where there is none. -/
theorem moveFile_success {files : Files} {src target data : Slice} (hsrc : files src = some data)
    (htarget : files target = none) :
    moveFile files src target .success =
      (none, Function.update (Function.update files target (some data)) src none) := by
  unfold moveFile
  rw [hsrc, htarget]

/-- `WriteStringToFile` leaves other files alone, and writes the file when every call succeeds. -/
theorem writeStringToFile_spec (files : Files) (data : Slice) {fname other : Slice}
    (h : other ≠ fname) (o : Outcomes) :
    (∀ f ∈ (writeStringToFile files data fname o).states, f other = files other) ∧
      ((writeStringToFile files data fname o).ok = true ↔ o.Written) ∧
      (o.Written → ∃ s₁ s₂ s₃, (writeStringToFile files data fname o).states = [s₁, s₂, s₃] ∧
        s₃ fname = some data) := by
  unfold writeStringToFile Outcomes.Written
  split_ifs with hnew happend hclose
  · refine ⟨?_, iff_of_true rfl ⟨hnew, happend, hclose⟩, fun _ => ⟨_, _, _, rfl, by simp⟩⟩
    simp [Function.update_of_ne h]
  · refine ⟨?_, iff_of_false not_false fun hw => hclose hw.2.2, fun hw => absurd hw.2.2 hclose⟩
    simp [Function.update_of_ne h, deleteFile_of_ne _ h]
  · refine ⟨?_, iff_of_false not_false fun hw => happend hw.2.1, fun hw => absurd hw.2.1 happend⟩
    simp [Function.update_of_ne h, deleteFile_of_ne _ h]
  · refine ⟨by simp, iff_of_false not_false fun hw => hnew hw.1, fun hw => absurd hw.1 hnew⟩

/-- A file that every call leaves alone is what it was, whenever the process stops. -/
theorem Run.left_unchanged {r : Run} {files : Files} {path : Slice}
    (h : ∀ f ∈ r.states, f path = files path) (crash : Option ℕ) :
    r.left files crash path = files path := by
  have hfinal : r.final files path = files path := by
    unfold final
    rw [List.getLastD_eq_getLast?]
    cases hlast : r.states.getLast? with
    | none => rfl
    | some f => exact h f (List.mem_of_getLast? hlast)
  cases crash with
  | none => exact hfinal
  | some calls =>
    show (files :: r.states).getD calls (r.final files) path = files path
    rw [List.getD_eq_getElem?_getD]
    cases hget : (files :: r.states)[calls]? with
    | none => exact hfinal
    | some f =>
      rcases List.mem_cons.mp (List.mem_of_getElem? hget) with rfl | hmem
      · rfl
      · exact h f hmem

/-- A run that leaves `CURRENT` alone and returns an error is all or nothing. -/
theorem allOrNothing_of_unchanged {files : Files} {dbname : Slice} {n : ℕ} {o : Outcomes}
    (hok : (setCurrentFile files dbname n o).ok = false)
    (h : ∀ f ∈ (setCurrentFile files dbname n o).states,
      f (currentFileName dbname) = files (currentFileName dbname)) (crash : Option ℕ) :
    AllOrNothing files dbname n o crash := by
  unfold AllOrNothing
  dsimp only
  rw [Run.left_unchanged h, hok, if_neg Bool.false_ne_true]
  split_ifs
  · exact Or.inl rfl
  · rfl

/-- `SetCurrentFile` after the temporary file was written: the three calls of `WriteStringToFile`, and
then `RenameFile`. -/
theorem setCurrentFile_written (files : Files) (dbname : Slice) (n : ℕ) {o : Outcomes}
    (h : o.Written) : ∃ s₁ s₂ s₃ : Files, s₁ (currentFileName dbname) = files (currentFileName dbname) ∧
      s₂ (currentFileName dbname) = files (currentFileName dbname) ∧
      s₃ (currentFileName dbname) = files (currentFileName dbname) ∧
      s₃ (tempFileName dbname n) = some (currentContents dbname n) ∧
      setCurrentFile files dbname n o =
        let renamed := renameFile s₃ (tempFileName dbname n) (currentFileName dbname) o
        if renamed.ok then ⟨true, s₁ :: s₂ :: s₃ :: renamed.states⟩
        else ⟨false, s₁ :: s₂ :: s₃ :: (renamed.states ++
          [(deleteFile (renamed.final files) (tempFileName dbname n) o.deleteTemp).2])⟩ := by
  have hne := (tempFileName_ne_currentFileName dbname n).symm
  obtain ⟨hstates, hok, hwritten⟩ :=
    writeStringToFile_spec files (currentContents dbname n) hne o
  obtain ⟨s₁, s₂, s₃, hlist, hdata⟩ := hwritten h
  rw [hlist] at hstates
  have hfinal : (writeStringToFile files (currentContents dbname n) (tempFileName dbname n)
      o).final files = s₃ := by
    rw [Run.final, hlist]
    rfl
  refine ⟨s₁, s₂, s₃, hstates s₁ (by simp), hstates s₂ (by simp), hstates s₃ (by simp), hdata, ?_⟩
  unfold setCurrentFile
  dsimp only
  rw [if_pos (hok.mpr h), hfinal, hlist]
  rfl

/-- Without its temporary file, `SetCurrentFile` returns an error and leaves `CURRENT` alone. -/
theorem setCurrentFile_not_written {files : Files} {dbname : Slice} {n : ℕ} {o : Outcomes}
    (h : ¬ o.Written) : (setCurrentFile files dbname n o).ok = false ∧
      ∀ f ∈ (setCurrentFile files dbname n o).states,
        f (currentFileName dbname) = files (currentFileName dbname) := by
  have hne := (tempFileName_ne_currentFileName dbname n).symm
  obtain ⟨hstates, hok, -⟩ := writeStringToFile_spec files (currentContents dbname n) hne o
  have hrun : setCurrentFile files dbname n o = ⟨false,
      (writeStringToFile files (currentContents dbname n) (tempFileName dbname n) o).states ++
        [(deleteFile ((writeStringToFile files (currentContents dbname n) (tempFileName dbname n)
          o).final files) (tempFileName dbname n) o.deleteTemp).2]⟩ := by
    unfold setCurrentFile
    dsimp only
    rw [if_neg (fun hw => h (hok.mp hw))]
  have hfinal := Run.left_unchanged hstates none
  rw [hrun]
  refine ⟨rfl, fun f hf => ?_⟩
  rcases List.mem_append.mp hf with hf | hf
  · exact hstates f hf
  · rw [List.mem_singleton.mp hf, deleteFile_of_ne _ hne]
    exact hfinal

/-! ## What `RenameFile` does to its target -/

/-- `RenameFile` onto a file that is there, when the first `MoveFile` reports so: what follows depends
on `DeleteFileW`. -/
theorem renameFile_existing {files : Files} {src target old : Slice} {o : Outcomes}
    (htarget : files target = some old)
    (h : o.moveFile = .success ∨ o.moveFile = .failure errorAlreadyExists) :
    renameFile files src target o =
      let r := deleteFile files target o.deleteFile
      if r.1.isSome then ⟨false, [files, r.2]⟩
      else ⟨(moveFile r.2 src target o.moveFileAgain).1.isNone,
        [files, r.2, (moveFile r.2 src target o.moveFileAgain).2]⟩ := by
  have hmove : moveFile files src target o.moveFile = (some errorAlreadyExists, files) := by
    rcases h with h | h
    · rw [h, moveFile_existing htarget]
    · rw [h]
      rfl
  unfold renameFile
  rw [hmove]
  dsimp only
  rw [if_pos rfl]

/-- The target is deleted and the source takes its place. -/
theorem renameFile_replaced {files : Files} {src target old data : Slice} {o : Outcomes}
    (hne : src ≠ target) (hsrc : files src = some data) (htarget : files target = some old)
    (h : o.moveFile = .success ∨ o.moveFile = .failure errorAlreadyExists)
    (hdelete : o.deleteFile = .success) (hagain : o.moveFileAgain = .success) :
    ∃ removed replaced : Files, removed target = none ∧ replaced target = some data ∧
      renameFile files src target o = ⟨true, [files, removed, replaced]⟩ := by
  have hsrc' : Function.update files target none src = some data := by
    rw [Function.update_of_ne hne, hsrc]
  have hnone : Function.update files target none target = none := Function.update_self ..
  refine ⟨_, Function.update (Function.update (Function.update files target none) target
    (some data)) src none, hnone, ?_, ?_⟩
  · rw [Function.update_of_ne hne.symm, Function.update_self]
  · rw [renameFile_existing htarget h, hdelete, deleteFile_success htarget]
    dsimp only
    rw [hagain, moveFile_success hsrc' hnone]
    rfl

/-- The target is deleted and nothing takes its place. -/
theorem renameFile_removed {files : Files} (src : Slice) {target old : Slice} {o : Outcomes}
    (htarget : files target = some old)
    (h : o.moveFile = .success ∨ o.moveFile = .failure errorAlreadyExists)
    (hdelete : o.deleteFile = .success) (hagain : o.moveFileAgain ≠ .success) :
    ∃ removed : Files, removed target = none ∧
      renameFile files src target o = ⟨false, [files, removed, removed]⟩ := by
  refine ⟨Function.update files target none, Function.update_self .., ?_⟩
  rw [renameFile_existing htarget h, hdelete, deleteFile_success htarget]
  cases hcode : o.moveFileAgain with
  | success => exact absurd hcode hagain
  | failure code => rfl

/-- The target is there and is not deleted. -/
theorem renameFile_kept {files : Files} {src target old : Slice} {o : Outcomes}
    (htarget : files target = some old)
    (h : o.moveFile = .success ∨ o.moveFile = .failure errorAlreadyExists)
    (hdelete : o.deleteFile ≠ .success) :
    renameFile files src target o = ⟨false, [files, files]⟩ := by
  rw [renameFile_existing htarget h]
  cases hcode : o.deleteFile with
  | success => exact absurd hcode hdelete
  | failure code => rfl

/-- There is no target, and the source is moved. -/
theorem renameFile_moved {files : Files} {src target data : Slice} {o : Outcomes} (hne : src ≠ target)
    (hsrc : files src = some data) (htarget : files target = none) (h : o.moveFile = .success) :
    ∃ moved : Files, moved target = some data ∧
      renameFile files src target o = ⟨true, [moved]⟩ := by
  refine ⟨Function.update (Function.update files target (some data)) src none, ?_, ?_⟩
  · rw [Function.update_of_ne hne.symm, Function.update_self]
  · unfold renameFile
    rw [h, moveFile_success hsrc htarget]

/-- `MoveFile` reports an existing target where there is none, so that `DeleteFileW` fails. -/
theorem renameFile_nothing_to_delete {files : Files} {src target : Slice} {o : Outcomes}
    (htarget : files target = none) (h : o.moveFile = .failure errorAlreadyExists) :
    renameFile files src target o = ⟨false, [files, files]⟩ := by
  obtain ⟨hcode, hfiles⟩ := deleteFile_missing htarget o.deleteFile
  unfold renameFile
  rw [h]
  simp only [moveFile, if_pos, hcode, hfiles]

/-- Every other code of the first `MoveFile` is taken for success. -/
theorem renameFile_unnoticed {files : Files} {src target : Slice} {o : Outcomes} {code : ℕ}
    (h : o.moveFile = .failure code) (hcode : code ≠ errorAlreadyExists) :
    renameFile files src target o = ⟨true, [files]⟩ := by
  unfold renameFile
  rw [h]
  dsimp only [moveFile]
  rw [if_neg hcode]

/-! ## When the switch is all or nothing -/

/-- A file that the first four calls leave alone, the fifth removes and the later ones leave in some
state: what is found of it, whenever the process stops. -/
theorem Run.left_removed {files s₁ s₂ s₃ s₄ s₅ s₆ : Files} {rest : List Files} {ok : Bool}
    {path : Slice} {found : Option Slice} (h₁ : s₁ path = files path) (h₂ : s₂ path = files path)
    (h₃ : s₃ path = files path) (h₄ : s₄ path = files path) (h₅ : s₅ path = none)
    (hrest : ∀ f ∈ s₆ :: rest, f path = found) (crash : Option ℕ) :
    (Run.mk ok (s₁ :: s₂ :: s₃ :: s₄ :: s₅ :: s₆ :: rest)).left files crash path =
      if crash = some 5 then none
      else if crash.all (5 < ·) = true then found else files path := by
  have hfinal : (Run.mk ok (s₁ :: s₂ :: s₃ :: s₄ :: s₅ :: s₆ :: rest)).final files path = found := by
    show (List.getLastD _ _ : Files) path = found
    simp only [List.getLastD_cons]
    exact hrest _ List.getLastD_mem_cons
  match crash with
  | none => simpa [left] using hfinal
  | some 0 => rfl
  | some 1 => simpa [left] using h₁
  | some 2 => simpa [left] using h₂
  | some 3 => simpa [left] using h₃
  | some 4 => simpa [left] using h₄
  | some 5 => simpa [left] using h₅
  | some (k + 6) =>
    have hlater : (s₆ :: rest).getD k ((Run.mk ok (s₁ :: s₂ :: s₃ :: s₄ :: s₅ :: s₆ :: rest)).final
        files) path = found := by
      rw [List.getD_eq_getElem?_getD]
      cases hget : (s₆ :: rest)[k]? with
      | none => exact hfinal
      | some f => exact hrest f (List.mem_of_getElem? hget)
    rw [if_neg (by simp), if_pos (by simp)]
    exact hlater

/-- What `AllOrNothing` says of a run that removes `CURRENT` with its fifth call and leaves it in some
state after that. -/
theorem allOrNothing_removed {files s₁ s₂ s₃ s₄ s₅ s₆ : Files} {rest : List Files} {ok : Bool}
    {dbname : Slice} {n : ℕ} {o : Outcomes} {old : Slice} {found : Option Slice}
    (hold : files (currentFileName dbname) = some old)
    (hrun : setCurrentFile files dbname n o = ⟨ok, s₁ :: s₂ :: s₃ :: s₄ :: s₅ :: s₆ :: rest⟩)
    (h₁ : s₁ (currentFileName dbname) = some old) (h₂ : s₂ (currentFileName dbname) = some old)
    (h₃ : s₃ (currentFileName dbname) = some old) (h₄ : s₄ (currentFileName dbname) = some old)
    (h₅ : s₅ (currentFileName dbname) = none)
    (hrest : ∀ f ∈ s₆ :: rest, f (currentFileName dbname) = found)
    (hfound : found = if ok then some (currentContents dbname n) else none) (crash : Option ℕ) :
    AllOrNothing files dbname n o crash ↔
      ¬ (crash = some 5 ∨ (crash.all (5 < ·) = true ∧ ok = false)) := by
  unfold AllOrNothing
  dsimp only
  rw [hrun, Run.left_removed (h₁.trans hold.symm) (h₂.trans hold.symm) (h₃.trans hold.symm)
    (h₄.trans hold.symm) h₅ hrest, hold, hfound]
  cases crash with
  | none => cases ok <;> simp
  | some calls =>
    rw [if_pos (Option.isSome_some)]
    by_cases hfive : calls = 5
    · simp [hfive]
    · by_cases hlater : 5 < calls
      · cases ok <;> simp [hfive, hlater]
      · simp [hfive, hlater]

/-- With a `CURRENT` that the first `MoveFile` does not replace, everything depends on `DeleteFileW` and
the second `MoveFileW`. -/
theorem allOrNothing_existing {files : Files} {dbname old : Slice} {n : ℕ} {o : Outcomes}
    (hw : o.Written) (hold : files (currentFileName dbname) = some old)
    (hmove : o.moveFile = .success ∨ o.moveFile = .failure errorAlreadyExists) (crash : Option ℕ) :
    AllOrNothing files dbname n o crash ↔ ¬ CurrentRemoved files dbname o crash := by
  have hne := tempFileName_ne_currentFileName dbname n
  obtain ⟨s₁, s₂, s₃, h₁, h₂, h₃, htmp, hrun⟩ := setCurrentFile_written files dbname n hw
  dsimp only at hrun
  rw [hold] at h₁ h₂ h₃
  by_cases hdelete : o.deleteFile = .success
  · by_cases hagain : o.moveFileAgain = .success
    · obtain ⟨removed, replaced, hremoved, hreplaced, heq⟩ :=
        renameFile_replaced hne htmp h₃ hmove hdelete hagain
      rw [heq, if_pos rfl] at hrun
      rw [allOrNothing_removed hold hrun h₁ h₂ h₃ h₃ hremoved (by simpa using hreplaced) rfl]
      unfold CurrentRemoved
      simp [hw, hold, hmove, hdelete, hagain]
    · obtain ⟨removed, hremoved, heq⟩ :=
        renameFile_removed (tempFileName dbname n) h₃ hmove hdelete hagain
      rw [heq, if_neg Bool.false_ne_true] at hrun
      have hlast : ∀ f ∈ [removed, (deleteFile removed (tempFileName dbname n) o.deleteTemp).2],
          f (currentFileName dbname) = none := by
        simp [deleteFile_of_ne _ hne.symm, hremoved]
      rw [allOrNothing_removed hold hrun h₁ h₂ h₃ h₃ hremoved hlast rfl]
      unfold CurrentRemoved
      simp [hw, hold, hmove, hdelete, hagain]
  · rw [renameFile_kept h₃ hmove hdelete, if_neg Bool.false_ne_true] at hrun
    refine iff_of_true (allOrNothing_of_unchanged (by rw [hrun]) ?_ crash)
      fun h => hdelete h.2.2.2.1
    rw [hrun]
    simp [Run.final, deleteFile_of_ne _ hne.symm, h₁, h₂, h₃, hold]

/-- Without a `CURRENT` the switch is all or nothing: `MoveFile` puts the file in its place, or
`DeleteFileW` has nothing to delete and an error is returned. -/
theorem allOrNothing_missing {files : Files} {dbname : Slice} {n : ℕ} {o : Outcomes}
    (hw : o.Written) (hold : files (currentFileName dbname) = none)
    (hmove : o.moveFile = .success ∨ o.moveFile = .failure errorAlreadyExists) (crash : Option ℕ) :
    AllOrNothing files dbname n o crash := by
  have hne := tempFileName_ne_currentFileName dbname n
  obtain ⟨s₁, s₂, s₃, h₁, h₂, h₃, htmp, hrun⟩ := setCurrentFile_written files dbname n hw
  dsimp only at hrun
  rw [hold] at h₁ h₂ h₃
  rcases hmove with hmove | hmove
  · obtain ⟨moved, hmoved, heq⟩ := renameFile_moved hne htmp h₃ hmove
    rw [heq, if_pos rfl] at hrun
    unfold AllOrNothing
    dsimp only
    rw [hrun]
    match crash with
    | none => simpa [Run.left, Run.final] using hmoved
    | some 0 => simp [Run.left]
    | some 1 => simp [Run.left, h₁, hold]
    | some 2 => simp [Run.left, h₂, hold]
    | some 3 => simp [Run.left, h₃, hold]
    | some (k + 4) => cases k <;> simp [Run.left, Run.final, hmoved]
  · rw [renameFile_nothing_to_delete h₃ hmove, if_neg Bool.false_ne_true] at hrun
    refine allOrNothing_of_unchanged (by rw [hrun]) ?_ crash
    rw [hrun]
    simp [Run.final, deleteFile_of_ne _ hne.symm, h₁, h₂, h₃, hold]

/-- When the first `MoveFile` fails with another code, OK is returned and `CURRENT` is what it was. -/
theorem allOrNothing_unnoticed {files : Files} {dbname : Slice} {n code : ℕ} {o : Outcomes}
    (hw : o.Written) (hcode : o.moveFile = .failure code) (hother : code ≠ errorAlreadyExists)
    (crash : Option ℕ) :
    AllOrNothing files dbname n o crash ↔ ¬ RenameUnnoticed files dbname n o crash := by
  obtain ⟨s₁, s₂, s₃, h₁, h₂, h₃, -, hrun⟩ := setCurrentFile_written files dbname n hw
  dsimp only at hrun
  rw [renameFile_unnoticed hcode hother, if_pos rfl] at hrun
  have hleft : (setCurrentFile files dbname n o).left files crash (currentFileName dbname) =
      files (currentFileName dbname) := by
    refine Run.left_unchanged ?_ crash
    rw [hrun]
    simp [h₁, h₂, h₃]
  unfold AllOrNothing RenameUnnoticed
  dsimp only
  rw [hleft, hrun]
  cases crash with
  | some calls => simp
  | none => simp [hw, hcode, hother]

/-- The switch is all or nothing unless the first `MoveFile` fails unnoticed, or `CURRENT` is deleted
and not replaced. -/
theorem setCurrentFile_allOrNothing_iff (files : Files) (dbname : Slice) (n : ℕ) (o : Outcomes)
    (crash : Option ℕ) : AllOrNothing files dbname n o crash ↔
      ¬ RenameUnnoticed files dbname n o crash ∧ ¬ CurrentRemoved files dbname o crash := by
  by_cases hw : o.Written
  swap
  · obtain ⟨hok, hstates⟩ := @setCurrentFile_not_written files dbname n o hw
    exact iff_of_true (allOrNothing_of_unchanged hok hstates crash) ⟨fun h => hw h.1, fun h => hw h.1⟩
  -- The code of the first `MoveFile` decides which path `RenameFile` takes.
  by_cases hmove : o.moveFile = .success ∨ o.moveFile = .failure errorAlreadyExists
  · have hnoticed : ¬ RenameUnnoticed files dbname n o crash := by
      rintro ⟨-, -, ⟨code, hcode, hne⟩, -⟩
      rcases hmove with h | h
      · cases hcode.symm.trans h
      · exact hne (Outcome.failure.inj (hcode.symm.trans h))
    rw [and_iff_right hnoticed]
    cases hold : files (currentFileName dbname) with
    | some old => exact allOrNothing_existing hw hold hmove crash
    | none =>
      refine iff_of_true (allOrNothing_missing hw hold hmove crash) fun h => ?_
      have hsome := h.2.1
      rw [hold] at hsome
      cases hsome
  · obtain ⟨code, hcode, hother⟩ : ∃ code, o.moveFile = .failure code ∧ code ≠ errorAlreadyExists := by
      cases h : o.moveFile with
      | success => exact absurd (Or.inl h) hmove
      | failure code => exact ⟨code, rfl, fun heq => hmove (Or.inr (by rw [h, heq]))⟩
    have hremoved : ¬ CurrentRemoved files dbname o crash := fun h => hmove h.2.2.1
    rw [and_iff_left hremoved]
    exact allOrNothing_unnoticed hw hcode hother crash

/-- A database `db` whose `CURRENT` names its first manifest. -/
def exampleFiles : Files :=
  Function.update (fun _ => none) (currentFileName (ascii "db"))
    (some (currentContents (ascii "db") 1))

/-- The switch to the second manifest is not all or nothing: when `MoveFile` fails with
`ERROR_ACCESS_DENIED`, OK is returned and `CURRENT` still names the first one; when the second
`MoveFileW` fails, an error is returned and `CURRENT` is gone; and it is gone after a crash behind
`DeleteFileW`, although no call fails. -/
theorem setCurrentFile_not_allOrNothing :
    ¬ AllOrNothing exampleFiles (ascii "db") 2 { moveFile := .failure 5 } none ∧
      ¬ AllOrNothing exampleFiles (ascii "db") 2 { moveFileAgain := .failure 5 } none ∧
      ¬ AllOrNothing exampleFiles (ascii "db") 2 {} (some 5) := by
  unfold AllOrNothing
  decide

end LevelDb.Win32
