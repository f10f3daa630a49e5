import LevelDb.Compaction.Work
import LevelDb.Db.KeyComparator
import LevelDb.Table.Builder
import LevelDb.Table.MergeErrors
import LevelDb.Version.Encode

/-!
# Compactions that cannot read their inputs

`DoCompactionWork` with the iterators that it really reads from, whose tables may fail to open and whose
blocks may fail to read. A level iterator is a two-level iterator over files, each of which is a
two-level iterator over blocks, and all are merged. Whatever happens to the outputs, a compaction
with an input that cannot be read ends with an error and does not install its results. User keys are
byte strings in some order: `bytes` is their spelling.
-/

namespace LevelDb

open Lib

variable {K : Type}

/-! ## The input iterator -/

/-- `Version::LevelFileNumIterator` -/
structure LevelFileNumIterator (K : Type) where
  /-- `icmp_` -/
  icmp : Comparator
  /-- The spelling of user keys. -/
  bytes : K ≃ Slice
  /-- `flist_` -/
  flist : List (FileMetaData K)
  /-- `index_` -/
  index : ℕ

namespace LevelFileNumIterator

/-- `key`: the largest key of the file. -/
def key (it : LevelFileNumIterator K) : Slice :=
  (it.flist[it.index]?.map fun f => f.largest.encode it.bytes).getD []

/-- `value`: the number and the size of the file. -/
def value (it : LevelFileNumIterator K) : Slice :=
  (it.flist[it.index]?.map fun f => encodeFixed64 f.number ++ encodeFixed64 f.fileSize).getD []

/-- `Seek`, with the binary search of `FindFile`. -/
def seek (target : Slice) (it : LevelFileNumIterator K) : LevelFileNumIterator K :=
  let before i := it.flist[i]?.any fun f => decide (it.icmp.Lt (f.largest.encode it.bytes) target)
  { it with index := bisect before it.flist.length 0 it.flist.length }

instance : Iterator (LevelFileNumIterator K) Slice Slice Status where
  valid it := decide (it.index < it.flist.length)
  key := key
  value := value
  status _ := none
  seekToFirst it := { it with index := 0 }
  seekToLast it := { it with index := it.flist.length - 1 }
  seek := seek
  next it := { it with index := it.index + 1 }
  prev it := { it with index := if it.index = 0 then it.flist.length else it.index - 1 }

instance : Bounded (LevelFileNumIterator K) where
  bound it := it.flist.length + 1

end LevelFileNumIterator

/-- How tables are opened: the files by their numbers, and the options. -/
structure TableCache where
  /-- `env_->NewRandomAccessFile` of a table. -/
  files : ℕ → Except Status RandomAccessFile
  /-- `options_` -/
  options : TableOptions
  /-- `paranoid_checks`, which asks for checksums to be verified. -/
  paranoidChecks : Bool

/-- The table of a file, opened if it is not in the cache. -/
def TableCache.findTable (cache : TableCache) (number size : ℕ) : Except Status Table := do
  let file ← cache.files number
  Table.open cache.options.comparator cache.options.snappy file size

/-- What `TableCache::NewIterator` returns. -/
abbrev FileIterator := EmptyIterator ⊕ TableIterator

/-- `TableCache::NewIterator` -/
def TableCache.newIterator (cache : TableCache) (number size : ℕ) : FileIterator :=
  match cache.findTable number size with
  | .ok table => .inr (table.newIterator cache.paranoidChecks)
  | .error s => .inl ⟨some s⟩

/-- `GetFileIterator` -/
def TableCache.getFileIterator (cache : TableCache) (fileValue : Slice) : FileIterator :=
  if fileValue.length ≠ 16 then
    .inl ⟨some (.corruption (ascii "FileReader invoked with unexpected value"))⟩
  else cache.newIterator (decodeFixed64 fileValue) (decodeFixed64 (fileValue.drop 8))

/-- The iterators that a compaction merges: those of files of level 0, and of the files of a level. -/
abbrev InputIterator (K : Type) := FileIterator ⊕ TwoLevelIterator (LevelFileNumIterator K) FileIterator

/-- The iterators of one of the two input levels. -/
def TableCache.levelIterators (cache : TableCache) (bytes : K ≃ Slice) (level : ℕ)
    (files : List (FileMetaData K)) : List (InputIterator K) :=
  if files.isEmpty then []
  else if level = 0 then files.map fun f => .inl (cache.newIterator f.number f.fileSize)
  else
    -- Create concatenating iterator for the files from this level
    [.inr
      { blockFunction := cache.getFileIterator
        index := ⟨cache.options.comparator, bytes, files, files.length⟩ }]

/-- `VersionSet::MakeInputIterator` -/
def TableCache.makeInputIterator (cache : TableCache) (bytes : K ≃ Slice) (c : Compaction K) :
    MergedIterator (InputIterator K) :=
  newMergingIterator cache.options.comparator
    (cache.levelIterators bytes c.level c.inputs0 ++ cache.levelIterators bytes (c.level + 1) c.inputs1)

/-! ## The work -/

/-- `ParseInternalKey` -/
def parseInternalKey (bytes : K ≃ Slice) (internalKey : Slice) : Option (InternalKey K) :=
  if internalKey.length < 8 then none
  else if extractTag internalKey % 2^8 ≤ ValueType.value.toNat then
    some (InternalKey.decode bytes internalKey)
  else none

/-- What `DoCompactionWork` meets. -/
structure WorkEnv (K : Type) where
  /-- The round from which on `shutting_down_` is set. -/
  shutdown : Option ℕ
  /-- What happens to `versions_` in a round while the mutex is free, and in `CompactMemTable`. -/
  others : ℕ → VersionSet K → VersionSet K
  /-- The error of `NewWritableFile` for an output. -/
  newWritableFile : ℕ → Option Status
  /-- The error of `Finish`, `Sync`, `Close` or opening the finished table, for an output. -/
  finishFile : ℕ → Option Status
  /-- The error of `LogAndApply`. -/
  logAndApply : Option Status

/-- `shutting_down_` -/
def WorkEnv.shuttingDown (env : WorkEnv K) (round : ℕ) : Bool :=
  env.shutdown.any fun start => decide (start ≤ round)

/-- The state of `DoCompactionWork`. -/
structure WorkState (K : Type) where
  /-- `input` -/
  input : MergedIterator (InputIterator K)
  /-- The state of the drop rules. -/
  dropping : DropState K := {}
  /-- The state of `ShouldStopBefore`. -/
  cutting : CutState K Slice := {}
  /-- `current_output()` and `builder`, if it is set. -/
  builder : Option (FileMetaData K × TableBuilder) := none
  /-- The other outputs. -/
  outputs : List (FileMetaData K) := []
  /-- `versions_` -/
  versions : VersionSet K

/-- How a part of the work ends: with a result, or with an error and a state. -/
abbrev WorkM (K α : Type) := Except (Status × WorkState K) α

/-- `FinishCompactionOutputFile`, if there is an output. -/
def WorkState.finishOutput (cache : TableCache) (env : WorkEnv K) (st : WorkState K) : WorkM K (WorkState K) :=
  match st.builder with
  | none => .ok st
  | some (f, b) =>
    -- Check for iterator errors
    match Iterator.status st.input with
    | some s =>
      .error (s, { st with builder := none, outputs := st.outputs ++ [{ f with fileSize := b.fileSize }] })
    | none =>
      let b := b.finish cache.options
      let st :=
        { st with builder := none, outputs := st.outputs ++ [{ f with fileSize := b.fileSize }] }
      match env.finishFile f.number with
      | some s => .error (s, st)
      | none => .ok st

/-- `OpenCompactionOutputFile`, if there is no output, for a first key. -/
def WorkState.openOutput (env : WorkEnv K) (st : WorkState K) (key : InternalKey K) :
    WorkM K ((FileMetaData K × TableBuilder) × WorkState K) :=
  match st.builder with
  | some out => .ok (out, st)
  | none =>
    let number := st.versions.nextFileNumber
    let st := { st with versions := { st.versions with nextFileNumber := number + 1 } }
    match env.newWritableFile number with
    | some s => .error (s, st)
    | none => .ok ((⟨number, 0, key, key⟩, {}), st)

/-- Adding an entry that is not dropped. -/
def WorkState.writeEntry (cache : TableCache) (env : WorkEnv K) (st : WorkState K)
    (ikey : InternalKey K) (key value : Slice) : WorkM K (WorkState K) := do
  let ((f, b), st) ← st.openOutput env ikey
  let f := { f with smallest := if b.numEntries = 0 then ikey else f.smallest, largest := ikey }
  let b := b.add cache.options key value
  let st := { st with builder := some (f, b) }
  -- Close output file if it is big enough
  if kTargetFileSize ≤ b.fileSize then st.finishOutput cache env else .ok st

section

variable [LinearOrder K]

/-- Whether an entry is dropped. -/
def Compaction.dropKey (c : Compaction K) (smallestSnapshot : ℕ) (st : DropState K)
    (ikey : Option (InternalKey K)) (value : Slice) : Bool × DropState K :=
  match ikey with
  -- Do not hide error keys
  | none => (false, { st with currentUserKey := none, lastSequenceForKey := kMaxSequenceNumber })
  | some k => c.dropEntry smallestSnapshot st ⟨k, value⟩

/-- The part of a round of the loop of `DoCompactionWork` that handles the current entry. -/
def WorkState.handleEntry (cache : TableCache) (bytes : K ≃ Slice) (env : WorkEnv K)
    (c : Compaction K) (smallestSnapshot : ℕ) (st : WorkState K) : WorkM K (WorkState K) := do
  let key := Iterator.key st.input
  let value := Iterator.value st.input
  let stop := c.shouldStopBefore st.cutting (InternalKey.decode bytes key)
  let st := { st with cutting := stop.2 }
  let stopped : WorkM K (WorkState K) := if stop.1 then st.finishOutput cache env else .ok st
  let st ← stopped
  -- Handle key/value, add to state, etc.
  let drop := c.dropKey smallestSnapshot st.dropping (parseInternalKey bytes key) value
  let st := { st with dropping := drop.2 }
  if drop.1 then .ok st else st.writeEntry cache env (InternalKey.decode bytes key) key value

/-- A round of the loop of `DoCompactionWork`. -/
def WorkState.round (cache : TableCache) (bytes : K ≃ Slice) (env : WorkEnv K) (c : Compaction K)
    (smallestSnapshot n : ℕ) (st : WorkState K) : WorkM K (WorkState K) := do
  -- Prioritize immutable compaction work
  let st := { st with versions := env.others n st.versions }
  let st ← st.handleEntry cache bytes env c smallestSnapshot
  .ok { st with input := Iterator.next st.input }

/-- The loop of `DoCompactionWork` from a round on, with the number of rounds when it ends. -/
def WorkState.loop (cache : TableCache) (bytes : K ≃ Slice) (env : WorkEnv K) (c : Compaction K)
    (smallestSnapshot : ℕ) :
    ℕ → ℕ → WorkState K → Option (WorkM K (ℕ × WorkState K))
  | 0, _, _ => none
  | fuel + 1, n, st =>
    if Iterator.valid st.input = true ∧ env.shuttingDown n = false then
      match st.round cache bytes env c smallestSnapshot n with
      | .error e => some (.error e)
      | .ok st' => loop cache bytes env c smallestSnapshot fuel (n + 1) st'
    else some (.ok (n, st))

/-- `DoCompactionWork` between the loop and `InstallCompactionResults`. -/
def WorkState.afterLoop (cache : TableCache) (env : WorkEnv K) (n : ℕ) (st : WorkState K) :
    WorkM K (WorkState K) := do
  let st := { st with versions := env.others n st.versions }
  if env.shuttingDown n then .error (.ioError (ascii "Deleting DB during compaction"), st)
  else
    let st ← st.finishOutput cache env
    match Iterator.status st.input with
    | some s => .error (s, st)
    | none => .ok st

/-- `InstallCompactionResults` -/
def WorkState.install (env : WorkEnv K) (c : Compaction K) (st : WorkState K) :
    Option Status × VersionSet K :=
  match env.logAndApply with
  | some s => (some s, st.versions)
  | none =>
    (none, st.versions.logAndApply
      (c.resultEdit (st.outputs.map fun f => (f, ([] : List (Entry K Slice))))))

/-- `DoCompactionWork`, with a bound for the rounds of its loop. -/
def TableCache.doCompactionWork (cache : TableCache) (bytes : K ≃ Slice) (env : WorkEnv K)
    (c : Compaction K) (smallestSnapshot fuel : ℕ) (versions : VersionSet K) :
    Option (Option Status × VersionSet K) :=
  let input := Iterator.seekToFirst (cache.makeInputIterator bytes c)
  let start : WorkState K := { input := input, versions := versions }
  (start.loop cache bytes env c smallestSnapshot fuel 0).map fun r =>
    match r.bind fun (n, st) => st.afterLoop cache env n with
    | .error (s, st) => (some s, st.versions)
    | .ok st => st.install env c

end

/-! ## Inputs that fail -/

/-- A table cannot be opened, or not be read to its end. -/
def TableCache.InputFails (cache : TableCache) (f : FileMetaData K) : Prop :=
  (∃ s, cache.findTable f.number f.fileSize = .error s) ∨
    ∃ t, cache.findTable f.number f.fileSize = .ok t ∧ t.ReadFails cache.paranoidChecks

/-- The states of a file iterator. -/
def FileIterator.Inv : FileIterator → Prop := Sum.elim (fun _ => True) TableIterator.Inv

/-- An iterator over one file keeps an error that it has met, whichever operation is called next. -/
theorem FileIterator.scannable : Scannable FileIterator.Inv :=
  EmptyIterator.scannable.sum TableIterator.scannable

namespace TableCache

variable (cache : TableCache)

/-- Opened tables have index blocks made of bytes. -/
theorem exists_of_findTable {number size : ℕ} {t : Table} (h : cache.findTable number size = .ok t) :
    ∃ data, t.indexBlock = Block.new data := by
  obtain ⟨file, -, h⟩ := exists_of_bind_eq_ok h
  exact exists_of_open h

/-- The iterator that `TableCache::NewIterator` returns, for any file, meets the invariant of file
iterators. -/
theorem newIterator_inv (number size : ℕ) : FileIterator.Inv (cache.newIterator number size) := by
  unfold newIterator
  split
  · rename_i t ht
    exact Table.newIterator_inv (cache.exists_of_findTable ht) cache.paranoidChecks
  · exact trivial

/-- If a file cannot be opened or read, the iterator that `TableCache::NewIterator` returns for it
fails. -/
theorem newIterator_fails {f : FileMetaData K} (h : cache.InputFails f) :
    Fails (cache.newIterator f.number f.fileSize) := by
  unfold newIterator
  obtain ⟨s, hs⟩ | ⟨t, ht, hfails⟩ := h
  · rw [hs]
    exact FileIterator.scannable.fails trivial (Option.some_ne_none s)
  · rw [ht]
    exact (Table.newIterator_fails (cache.exists_of_findTable ht) hfails).inr

/-- The iterator that `GetFileIterator` returns, for any value, meets the invariant of file iterators. -/
theorem getFileIterator_inv (fileValue : Slice) :
    FileIterator.Inv (cache.getFileIterator fileValue) := by
  unfold getFileIterator
  split_ifs
  · exact trivial
  · exact cache.newIterator_inv _ _

end TableCache

namespace LevelFileNumIterator

/-- Scans of the files of a level end. -/
theorem exists_final (it : LevelFileNumIterator K) :
    ∃ t, Final (it.flist.length - it.index) it t := by
  -- By induction on the files from the current one on.
  induction hleft : it.flist.length - it.index generalizing it with
  | zero => exact ⟨it, Final.stop (decide_eq_false (by omega))⟩
  | succ n ih =>
    obtain ⟨t, hfinal⟩ := ih (Iterator.next it) (by
      show it.flist.length - (it.index + 1) = n
      omega)
    exact ⟨t, Final.step (decide_eq_true (by omega)) hfinal⟩

/-- An iterator over the files of a level has no errors. -/
theorem scannable : Scannable fun _ : LevelFileNumIterator K => True where
  seekToFirst _ _ := ⟨trivial, id⟩
  seekToLast _ _ := ⟨trivial, id⟩
  seek _ _ _ := ⟨trivial, id⟩
  next _ _ := ⟨trivial, id⟩
  prev _ _ := ⟨trivial, id⟩
  ends {it} _ := by
    obtain ⟨t, hfinal⟩ := it.exists_final
    exact ⟨_, t, hfinal⟩

/-- The bound of an iterator over the files of a level. -/
theorem boundsScans : BoundsScans fun _ : LevelFileNumIterator K => True := by
  intro n it t _ hfinal
  obtain ⟨u, hfinal'⟩ := it.exists_final
  rw [(hfinal.unique hfinal').1]
  show it.flist.length - it.index ≤ it.flist.length + 1
  omega

/-- A scan comes to every file behind its start. -/
theorem visits (it : LevelFileNumIterator K) : ∀ n : ℕ, it.index + n < it.flist.length →
    Visits it { it with index := it.index + n } := by
  intro n
  induction n generalizing it with
  | zero => exact fun _ => Visits.here it
  | succ n ih =>
    intro hlt
    refine Visits.later (decide_eq_true (by omega)) ?_
    have hnext := ih (Iterator.next it) (by
      show it.index + 1 + n < it.flist.length
      omega)
    rw [show it.index + (n + 1) = it.index + 1 + n by omega]
    exact hnext

end LevelFileNumIterator

/-- The states of an input iterator. -/
def InputIterator.Inv : InputIterator K → Prop :=
  Sum.elim FileIterator.Inv (TwoLevelIterator.Inv (fun _ => True) FileIterator.Inv)

/-- Both kinds of inputs, files of level 0 and whole levels, keep an error that they have met. -/
theorem InputIterator.scannable : Scannable (InputIterator.Inv : InputIterator K → Prop) :=
  FileIterator.scannable.sum (TwoLevelIterator.scannable LevelFileNumIterator.scannable
    LevelFileNumIterator.boundsScans FileIterator.scannable)

namespace TableCache

variable (cache : TableCache) (bytes : K ≃ Slice)

/-- The iterators of a level start in the invariant. -/
theorem levelIterators_inv (level : ℕ) (files : List (FileMetaData K)) :
    ∀ it ∈ cache.levelIterators bytes level files, InputIterator.Inv it := by
  intro it hit
  unfold levelIterators at hit
  split_ifs at hit
  · exact absurd hit List.not_mem_nil
  · obtain ⟨f, -, rfl⟩ := List.mem_map.mp hit
    exact cache.newIterator_inv f.number f.fileSize
  · rw [List.mem_singleton.mp hit]
    exact ⟨trivial, fun hd => absurd hd.symm (Option.some_ne_none _), cache.getFileIterator_inv⟩

/-- A file that fails makes an iterator of its level fail. The number and the size have 64 bits. -/
theorem exists_levelIterator_fails (level : ℕ) {files : List (FileMetaData K)} {f : FileMetaData K}
    (hf : f ∈ files) (hnumber : f.number < 2^64) (hsize : f.fileSize < 2^64)
    (hfails : cache.InputFails f) : ∃ it ∈ cache.levelIterators bytes level files, Fails it := by
  have hnonempty : files.isEmpty = false := by
    rw [List.isEmpty_eq_false_iff]
    exact List.ne_nil_of_mem hf
  unfold levelIterators
  rw [hnonempty, if_neg Bool.false_ne_true]
  split_ifs
  · exact ⟨_, List.mem_map_of_mem hf, (cache.newIterator_fails hfails).inl⟩
  · refine ⟨_, List.mem_singleton_self _, Fails.inr ?_⟩
    obtain ⟨i, hi⟩ := List.mem_iff_getElem?.mp hf
    set index : LevelFileNumIterator K := ⟨cache.options.comparator, bytes, files, 0⟩ with hindex
    have hlt : i < files.length := (List.getElem?_eq_some_iff.mp hi).1
    have hvalue : Iterator.value ({ index with index := 0 + i } : LevelFileNumIterator K) =
        encodeFixed64 f.number ++ encodeFixed64 f.fileSize := by
      show LevelFileNumIterator.value _ = _
      unfold LevelFileNumIterator.value
      rw [Nat.zero_add, show index.flist[i]? = some f from hi]
      rfl
    have hiterator : cache.getFileIterator (encodeFixed64 f.number ++ encodeFixed64 f.fileSize) =
        cache.newIterator f.number f.fileSize := by
      unfold getFileIterator
      rw [if_neg (by simp), decodeFixed64_encodeFixed64_append hnumber,
        List.drop_left' (encodeFixed64_length _), decodeFixed64_encodeFixed64 hsize]
    refine TwoLevelIterator.fails LevelFileNumIterator.scannable LevelFileNumIterator.boundsScans
      FileIterator.scannable
      ⟨trivial, fun hd => absurd hd.symm (Option.some_ne_none _), cache.getFileIterator_inv⟩ rfl ?_
    refine Or.inr ⟨_, index.visits i (by rw [hindex, Nat.zero_add]; exact hlt), ?_, ?_⟩
    · exact decide_eq_true (by rw [hindex, Nat.zero_add]; exact hlt)
    · rw [hvalue]
      dsimp only
      rw [hiterator]
      exact cache.newIterator_fails hfails

/-- An input that fails makes the input iterator fail. -/
theorem makeInputIterator_fails (c : Compaction K) {f : FileMetaData K}
    (hf : f ∈ c.inputs0 ++ c.inputs1) (hnumber : f.number < 2^64) (hsize : f.fileSize < 2^64)
    (hfails : cache.InputFails f) :
    MergedIterator.Inv InputIterator.Inv (cache.makeInputIterator bytes c) ∧
      Fails (cache.makeInputIterator bytes c) := by
  have hchild : ∃ it ∈ cache.levelIterators bytes c.level c.inputs0 ++
      cache.levelIterators bytes (c.level + 1) c.inputs1, Fails it := by
    obtain hf | hf := List.mem_append.mp hf
    · obtain ⟨it, hit, hfails'⟩ :=
        cache.exists_levelIterator_fails bytes c.level hf hnumber hsize hfails
      exact ⟨it, List.mem_append_left _ hit, hfails'⟩
    · obtain ⟨it, hit, hfails'⟩ :=
        cache.exists_levelIterator_fails bytes (c.level + 1) hf hnumber hsize hfails
      exact ⟨it, List.mem_append_right _ hit, hfails'⟩
  obtain ⟨it, hit, hfails'⟩ := hchild
  refine newMergingIterator_fails InputIterator.scannable _ (fun it' hit' => ?_) hit hfails'
  obtain hit' | hit' := List.mem_append.mp hit'
  · exact cache.levelIterators_inv bytes _ _ it' hit'
  · exact cache.levelIterators_inv bytes _ _ it' hit'

end TableCache

/-! ## The loop -/

namespace WorkState

variable (cache : TableCache) (env : WorkEnv K)

/-- What a part of the work leaves alone: the input, and the current version. -/
def SameAs (st st' : WorkState K) : Prop :=
  st'.input = st.input ∧ st'.versions.current = st.versions.current

/-- What a part of the work may end with. -/
def EndsAs (r : WorkM K (WorkState K)) (st : WorkState K) : Prop :=
  match r with
  | .error e => st.SameAs e.2
  | .ok st' => st.SameAs st'

/-- `FinishCompactionOutputFile` leaves the input and the version alone. -/
theorem finishOutput_endsAs (st : WorkState K) : EndsAs (st.finishOutput cache env) st := by
  unfold finishOutput
  split
  · exact ⟨rfl, rfl⟩
  · split
    · exact ⟨rfl, rfl⟩
    · dsimp only
      split
      · exact ⟨rfl, rfl⟩
      · exact ⟨rfl, rfl⟩

/-- If a part of the work ends as it should, and so does every next part from there, then so do both
together. -/
theorem EndsAs.bind {r : WorkM K (WorkState K)} {st : WorkState K} (hr : EndsAs r st)
    {f : WorkState K → WorkM K (WorkState K)} (hf : ∀ st', st.SameAs st' → EndsAs (f st') st) :
    EndsAs (r >>= f) st := by
  cases r with
  | error e => exact hr
  | ok st' => exact hf st' hr

/-- What comes after a state that is the same. -/
theorem EndsAs.of_sameAs {r : WorkM K (WorkState K)} {st st' : WorkState K} (h : EndsAs r st')
    (hsame : st.SameAs st') : EndsAs r st := by
  cases r with
  | error e => exact ⟨h.1.trans hsame.1, h.2.trans hsame.2⟩
  | ok st'' => exact ⟨h.1.trans hsame.1, h.2.trans hsame.2⟩

/-- Adding an entry leaves the input and the version alone. -/
theorem writeEntry_endsAs (st : WorkState K) (ikey : InternalKey K) (key value : Slice) :
    EndsAs (st.writeEntry cache env ikey key value) st := by
  have hadd : ∀ (f : FileMetaData K) (b : TableBuilder) (st' : WorkState K), st.SameAs st' →
      EndsAs (if kTargetFileSize ≤ b.fileSize then
        ({ st' with builder := some (f, b) } : WorkState K).finishOutput cache env
        else .ok { st' with builder := some (f, b) }) st := by
    intro f b st' hsame
    split_ifs
    · exact (finishOutput_endsAs cache env _).of_sameAs hsame
    · exact hsame
  unfold writeEntry openOutput
  split
  · exact hadd _ _ st ⟨rfl, rfl⟩
  · dsimp only
    split
    · exact ⟨rfl, rfl⟩
    · exact hadd _ _ _ ⟨rfl, rfl⟩

/-- Behind the loop, an error of the input ends the work. -/
theorem afterLoop_fails (n : ℕ) (st : WorkState K)
    (h : Iterator.status st.input ≠ none ∨ env.shuttingDown n = true) :
    ∃ e, st.afterLoop cache env n = .error e ∧
      e.2.versions.current = (env.others n st.versions).current := by
  unfold afterLoop
  dsimp only
  split_ifs with hshutdown
  · exact ⟨_, rfl, rfl⟩
  · have hstatus := h.resolve_right hshutdown
    have hfinish := finishOutput_endsAs cache env { st with versions := env.others n st.versions }
    cases hr : ({ st with versions := env.others n st.versions } : WorkState K).finishOutput cache env with
    | error e =>
      rw [hr] at hfinish
      exact ⟨e, rfl, hfinish.2⟩
    | ok st' =>
      rw [hr] at hfinish
      obtain ⟨s, hs⟩ := Option.ne_none_iff_exists'.mp hstatus
      refine ⟨(s, st'), ?_, hfinish.2⟩
      show (match Iterator.status st'.input with
        | some s => Except.error (s, st')
        | none => Except.ok st') = _
      rw [hfinish.1, hs]

variable [LinearOrder K] (bytes : K ≃ Slice) (c : Compaction K) (smallestSnapshot : ℕ)

/-- Handling an entry leaves the input and the version alone. -/
theorem handleEntry_endsAs (st : WorkState K) :
    EndsAs (st.handleEntry cache bytes env c smallestSnapshot) st := by
  unfold handleEntry
  refine EndsAs.bind ?_ fun st' hsame => ?_
  · split_ifs
    · exact (finishOutput_endsAs cache env _).of_sameAs ⟨rfl, rfl⟩
    · exact ⟨rfl, rfl⟩
  · dsimp only
    split_ifs
    · exact hsame
    · exact (writeEntry_endsAs cache env _ _ _ _).of_sameAs hsame

/-- A round ends with an error, or moves the input on. The version is left to others. -/
theorem round_cases (n : ℕ) (st : WorkState K) :
    (∃ e, st.round cache bytes env c smallestSnapshot n = .error e ∧
      e.2.versions.current = (env.others n st.versions).current) ∨
    ∃ st', st.round cache bytes env c smallestSnapshot n = .ok st' ∧
      st'.input = Iterator.next st.input ∧
      st'.versions.current = (env.others n st.versions).current := by
  have hhandle := handleEntry_endsAs cache env bytes c smallestSnapshot
    { st with versions := env.others n st.versions }
  unfold round
  dsimp only
  cases hr : ({ st with versions := env.others n st.versions } : WorkState K).handleEntry cache bytes
      env c smallestSnapshot with
  | error e =>
    rw [hr] at hhandle
    exact Or.inl ⟨e, rfl, hhandle.2⟩
  | ok st' =>
    rw [hr] at hhandle
    exact Or.inr ⟨_, rfl, congrArg Iterator.next hhandle.1, hhandle.2⟩

/-- Only others change the version. -/
def LeftToOthers (env : WorkEnv K) (v v' : Version K) : Prop :=
  ∀ P : Version K → Prop, (∀ n vs, P vs.current → P (env.others n vs).current) → P v → P v'

/-- What the loop and the part after it end with, when the input fails: an error. -/
theorem loop_fails {k : ℕ} : ∀ {n : ℕ} {st : WorkState K} {t : MergedIterator (InputIterator K)},
    Final k st.input t → Iterator.status t ≠ none →
    ∃ e, (∀ fuel, k < fuel → ∃ r, st.loop cache bytes env c smallestSnapshot fuel n = some r ∧
      (r.bind fun (n, st) => st.afterLoop cache env n) = .error e) ∧
      LeftToOthers env st.versions.current e.2.versions.current := by
  induction k with
  | zero =>
    intro n st t hfinal hstatus
    cases hfinal with
    | stop hstop =>
      obtain ⟨e, he, hcurrent⟩ := afterLoop_fails cache env n st (Or.inl hstatus)
      refine ⟨e, fun fuel hfuel => ⟨.ok (n, st), ?_, he⟩, fun P hothers hP => ?_⟩
      · obtain ⟨fuel, rfl⟩ := Nat.exists_eq_add_one_of_ne_zero (Nat.ne_zero_of_lt hfuel)
        unfold loop
        rw [hstop]
        rfl
      · rw [hcurrent]
        exact hothers n _ hP
  | succ k ih =>
    intro n st t hfinal hstatus
    cases hfinal with
    | step hvalid hnext =>
      by_cases hshutdown : env.shuttingDown n = true
      · -- The database is being deleted.
        obtain ⟨e, he, hcurrent⟩ := afterLoop_fails cache env n st (Or.inr hshutdown)
        refine ⟨e, fun fuel hfuel => ⟨.ok (n, st), ?_, he⟩, fun P hothers hP => ?_⟩
        · obtain ⟨fuel, rfl⟩ := Nat.exists_eq_add_one_of_ne_zero (Nat.ne_zero_of_lt hfuel)
          unfold loop
          rw [if_neg fun h => Bool.false_ne_true (h.2.symm.trans hshutdown)]
        · rw [hcurrent]
          exact hothers n _ hP
      · have hgo : Iterator.valid st.input = true ∧ env.shuttingDown n = false :=
          ⟨hvalid, Bool.eq_false_iff.mpr hshutdown⟩
        obtain ⟨e, hround, hcurrent⟩ | ⟨st', hround, hinput, hcurrent⟩ :=
          round_cases cache env bytes c smallestSnapshot n st
        · refine ⟨e, fun fuel hfuel => ⟨.error e, ?_, rfl⟩, fun P hothers hP => ?_⟩
          · obtain ⟨fuel, rfl⟩ := Nat.exists_eq_add_one_of_ne_zero (Nat.ne_zero_of_lt hfuel)
            unfold loop
            rw [if_pos hgo, hround]
          · rw [hcurrent]
            exact hothers n _ hP
        · rw [← hinput] at hnext
          obtain ⟨e, hloop, hleft⟩ := ih hnext hstatus
          refine ⟨e, fun fuel hfuel => ?_, fun P hothers hP => ?_⟩
          · obtain ⟨fuel, rfl⟩ := Nat.exists_eq_add_one_of_ne_zero (Nat.ne_zero_of_lt hfuel)
            obtain ⟨r, hr, he⟩ := hloop fuel (Nat.lt_of_succ_lt_succ hfuel)
            refine ⟨r, ?_, he⟩
            unfold loop
            rw [if_pos hgo, hround]
            exact hr
          · apply hleft P hothers
            rw [hcurrent]
            exact hothers n _ hP

end WorkState

/-- A compaction with an input that cannot be opened or read ends with an error and does not install
anything. The iterators that it merges keep errors through all calls, and merging reports them. -/
theorem unread_input_not_installed [LinearOrder K] (cache : TableCache) (bytes : K ≃ Slice)
    (env : WorkEnv K) (c : Compaction K) (smallestSnapshot : ℕ) (versions : VersionSet K)
    (hnumbers : ∀ f ∈ c.inputs0 ++ c.inputs1, f.number < 2^64 ∧ f.fileSize < 2^64)
    (hfails : ∃ f ∈ c.inputs0 ++ c.inputs1, cache.InputFails f) :
    (∃ fuel s versions',
      (∀ fuel' ≥ fuel, cache.doCompactionWork bytes env c smallestSnapshot fuel' versions =
        some (some s, versions')) ∧
      WorkState.LeftToOthers env versions.current versions'.current) ∧
    (∀ level files, ∀ it₀ ∈ cache.levelIterators bytes level files, ∀ cs cs' it it',
      calls it₀ cs = some it → calls it cs' = some it' →
      Iterator.status it ≠ none → Iterator.status it' ≠ none) ∧
    ∀ it : MergingIterator (InputIterator K), (∃ child ∈ it.children, Iterator.status child ≠ none) →
      Iterator.status it ≠ none := by
  refine ⟨?_, ?_, fun it => MergingIterator.getStatus_ne_none.mpr⟩
  · obtain ⟨f, hf, hfails⟩ := hfails
    obtain ⟨-, k, t, hfinal, hstatus⟩ :=
      cache.makeInputIterator_fails bytes c hf (hnumbers f hf).1 (hnumbers f hf).2 hfails
    set start : WorkState K :=
      { input := Iterator.seekToFirst (cache.makeInputIterator bytes c), versions := versions }
    obtain ⟨⟨s, st⟩, hloop, hleft⟩ :=
      @WorkState.loop_fails K cache env _ bytes c smallestSnapshot k 0 start t hfinal hstatus
    refine ⟨k + 1, s, st.versions, fun fuel hfuel => ?_, hleft⟩
    obtain ⟨r, hr, he⟩ := hloop fuel hfuel
    unfold TableCache.doCompactionWork
    dsimp only
    rw [hr, Option.map_some, he]
  · intro level files it₀ hit₀ cs cs' it it' hcalls hcalls'
    have hsticky := (InputIterator.scannable : Scannable (InputIterator.Inv (K := K))).toSticky
    have hinv := (hsticky.calls cs (cache.levelIterators_inv bytes level files it₀ hit₀) hcalls).1
    exact (hsticky.calls cs' hinv hcalls').2

/-- A compaction of one table at level 0 whose file is missing. -/
def missingInput : Compaction Slice :=
  { level := 0
    inputVersion := {}
    inputs0 := [⟨5, 100, ⟨[97], 1, .value, by decide⟩, ⟨[98], 2, .value, by decide⟩⟩]
    inputs1 := []
    grandparents := []
    edit := {} }

/-- A table cache without any files. -/
def emptyCache : TableCache where
  files _ := .error .notFound
  options := ⟨internalKeyComparator bytewiseComparator, 4096, 16, .none, ⟨some, fun s => some s.length, some⟩⟩
  paranoidChecks := false

/-- Nothing else happens. -/
def quietEnv : WorkEnv Slice := ⟨none, fun _ vs => vs, fun _ => none, fun _ => none, none⟩

/-- A compaction of a missing table is not installed. -/
theorem unread_input_not_installed_example :
    (∃ f ∈ missingInput.inputs0 ++ missingInput.inputs1, emptyCache.InputFails f) ∧
      ∃ fuel s versions', (∀ fuel' ≥ fuel,
        emptyCache.doCompactionWork (Equiv.refl Slice) quietEnv missingInput 2 fuel' {} =
          some (some s, versions')) ∧
        WorkState.LeftToOthers quietEnv ({} : VersionSet Slice).current versions'.current := by
  have hfails : ∃ f ∈ missingInput.inputs0 ++ missingInput.inputs1, emptyCache.InputFails f :=
    ⟨_, List.mem_singleton_self _, Or.inl ⟨.notFound, rfl⟩⟩
  refine ⟨hfails, (unread_input_not_installed emptyCache (Equiv.refl Slice) quietEnv missingInput 2 {}
    (fun f hf => ?_) hfails).1⟩
  rw [List.mem_singleton.mp hf]
  decide

end LevelDb
