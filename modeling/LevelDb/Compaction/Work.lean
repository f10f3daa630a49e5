import LevelDb.Version.Inputs
import LevelDb.Version.Tables

/-!
# The compaction loop

`DBImpl::DoCompactionWork` reads the merged inputs of a compaction in order, drops entries that no
reader needs any more, and cuts the rest into output files. The loop is modelled round by round:
`dropEntry` is the decision whether an entry is dropped, with the stateful
`Compaction::IsBaseLevelForKey`; `writeEntry` adds an entry to the current output; `workStep` is one
round. The sizes of table files are a parameter, since they depend on the table format.
-/

namespace LevelDb

variable {K V : Type}

/-- The sizes that `TableBuilder::FileSize` reports for a table with the given entries. -/
structure TableSizes (K V : Type) where
  /-- While the table is being built. -/
  soFar : List (Entry K V) → ℕ
  /-- After `Finish`. -/
  finished : List (Entry K V) → ℕ

section

variable [LinearOrder K]

/-! ## `IsBaseLevelForKey` -/

/-- The loop of `IsBaseLevelForKey` over the files of one level from `ptr` on: where it stops, and
whether the file there contains the user key. -/
def scanLevel (k : K) : List (FileMetaData K) → ℕ → ℕ × Bool
  | [], ptr => (ptr, false)
  | f :: files, ptr =>
    if k ≤ f.largest.userKey then (ptr, decide (f.smallest.userKey ≤ k))
    else scanLevel k files (ptr + 1)

/-- The loop of `IsBaseLevelForKey` over levels. It returns at the first level that contains the
user key. -/
def scanLevels (v : Version K) (k : K) : List ℕ → (ℕ → ℕ) → Bool × (ℕ → ℕ)
  | [], ptrs => (true, ptrs)
  | lvl :: lvls, ptrs =>
    let r := scanLevel k ((v.files lvl).drop (ptrs lvl)) (ptrs lvl)
    if r.2 then (false, Function.update ptrs lvl r.1)
    else scanLevels v k lvls (Function.update ptrs lvl r.1)

/-- `Compaction::IsBaseLevelForKey`, with the `level_ptrs_` that it advances. -/
def Compaction.isBaseLevelForKey (c : Compaction K) (ptrs : ℕ → ℕ) (k : K) : Bool × (ℕ → ℕ) :=
  scanLevels c.inputVersion k (List.range' (c.level + 2) (kNumLevels - (c.level + 2))) ptrs

/-! ## Dropping entries -/

/-- The state from which `DoCompactionWork` decides whether to drop an entry. -/
structure DropState (K : Type) where
  /-- `current_user_key`, if `has_current_user_key`. -/
  currentUserKey : Option K := none
  /-- `last_sequence_for_key` -/
  lastSequenceForKey : ℕ := kMaxSequenceNumber
  /-- `level_ptrs_` -/
  levelPtrs : ℕ → ℕ := fun _ => 0

/-- At the first occurrence of a user key no sequence number of it has been seen. -/
def DropState.enter (st : DropState K) (k : K) : DropState K :=
  if st.currentUserKey = some k then st
  else { st with currentUserKey := some k, lastSequenceForKey := kMaxSequenceNumber }

/-- Whether `DoCompactionWork` drops an entry: (A) it is hidden by a newer entry for the same user
key, or it is a deletion marker that is obsolete because no deeper level has the key. -/
def Compaction.dropEntry (c : Compaction K) (smallestSnapshot : ℕ) (st : DropState K)
    (e : Entry K V) : Bool × DropState K :=
  let st := st.enter e.key.userKey
  if st.lastSequenceForKey ≤ smallestSnapshot then
    (true, { st with lastSequenceForKey := e.key.sequence })
  else if e.key.type = .deletion ∧ e.key.sequence ≤ smallestSnapshot then
    let base := c.isBaseLevelForKey st.levelPtrs e.key.userKey
    (base.1, { st with lastSequenceForKey := e.key.sequence, levelPtrs := base.2 })
  else (false, { st with lastSequenceForKey := e.key.sequence })

/-! ## Cutting outputs -/

/-- An output that is being built: `current_output()` with the entries of `builder`. -/
structure OpenOutput (K V : Type) where
  /-- The file number. -/
  number : ℕ
  /-- `smallest` -/
  smallest : InternalKey K
  /-- `largest` -/
  largest : InternalKey K
  /-- The entries added so far. -/
  entries : List (Entry K V)

/-- The state with which `DoCompactionWork` cuts its outputs. -/
structure CutState (K V : Type) where
  /-- `grandparent_index_` -/
  grandparentIndex : ℕ := 0
  /-- `seen_key_` -/
  seenKey : Bool := false
  /-- `overlapped_bytes_`, an `int64_t` -/
  overlappedBytes : ℤ := 0
  /-- The output that is being built, if `builder` is set. -/
  builder : Option (OpenOutput K V) := none
  /-- The finished outputs with their tables. -/
  outputs : List (FileMetaData K × List (Entry K V)) := []

/-- The value of an `int64_t` after it was assigned a number. -/
def toInt64 (n : ℤ) : ℤ := n.bmod (2^64)

/-- The loop of `ShouldStopBefore` over the grandparents from the current index on. -/
def skipGrandparents (key : InternalKey K) (seenKey : Bool) :
    List (FileMetaData K) → ℕ → ℤ → ℕ × ℤ
  | [], index, bytes => (index, bytes)
  | g :: grandparents, index, bytes =>
    if g.largest < key then
      skipGrandparents key seenKey grandparents (index + 1)
        (if seenKey then toInt64 (bytes + g.fileSize) else bytes)
    else (index, bytes)

/-- `Compaction::ShouldStopBefore`. -/
def Compaction.shouldStopBefore (c : Compaction K) (st : CutState K V) (key : InternalKey K) :
    Bool × CutState K V :=
  let r := skipGrandparents key st.seenKey (c.grandparents.drop st.grandparentIndex)
    st.grandparentIndex st.overlappedBytes
  if kMaxGrandParentOverlapBytes < r.2 then
    (true, { st with grandparentIndex := r.1, seenKey := true, overlappedBytes := 0 })
  else (false, { st with grandparentIndex := r.1, seenKey := true, overlappedBytes := r.2 })

/-- `DBImpl::FinishCompactionOutputFile`, if there is an output being built. -/
def CutState.finishOutput (sizes : TableSizes K V) (st : CutState K V) : CutState K V :=
  match st.builder with
  | none => st
  | some b =>
    { st with
      builder := none
      outputs := st.outputs ++
        [(⟨b.number, sizes.finished b.entries, b.smallest, b.largest⟩, b.entries)] }

/-- Adding an entry to the current output, which is opened with the next file number if there is
none, and closed when it is big enough. -/
def CutState.writeEntry (sizes : TableSizes K V) (st : CutState K V) (nextFileNumber : ℕ)
    (e : Entry K V) : CutState K V × ℕ :=
  let (b, next) : OpenOutput K V × ℕ :=
    match st.builder with
    | none => (⟨nextFileNumber, e.key, e.key, [e]⟩, nextFileNumber + 1)
    | some b => ({ b with largest := e.key, entries := b.entries ++ [e] }, nextFileNumber)
  let st := { st with builder := some b }
  if kTargetFileSize ≤ sizes.soFar b.entries then (st.finishOutput sizes, next) else (st, next)

/-! ## The loop -/

/-- `CompactionState`, with the state of the loop and the input that it has not read. -/
structure CompactionState (K V : Type) where
  /-- `compaction` -/
  compaction : Compaction K
  /-- `smallest_snapshot`: sequence numbers below it are not significant. -/
  smallestSnapshot : ℕ
  /-- The state of the drop rules. -/
  dropping : DropState K := {}
  /-- The state of the outputs. -/
  cutting : CutState K V := {}
  /-- The entries that the input iterator still has to yield. -/
  input : List (Entry K V)

/-- One round of the loop of `DoCompactionWork`, with the file number counter. -/
def CompactionState.workStep (sizes : TableSizes K V) (st : CompactionState K V)
    (nextFileNumber : ℕ) : CompactionState K V × ℕ :=
  match st.input with
  | [] => (st, nextFileNumber)
  | e :: input =>
    let stop := st.compaction.shouldStopBefore st.cutting e.key
    let cutting := if stop.1 then stop.2.finishOutput sizes else stop.2
    let drop := st.compaction.dropEntry st.smallestSnapshot st.dropping e
    let write :=
      if drop.1 then (cutting, nextFileNumber) else cutting.writeEntry sizes nextFileNumber e
    ({ st with input := input, dropping := drop.2, cutting := write.1 }, write.2)

/-- The rounds of the loop until the input is exhausted, `fuel` of which is the length of the
input. -/
def CompactionState.workLoop (sizes : TableSizes K V) :
    ℕ → CompactionState K V → ℕ → CompactionState K V × ℕ
  | 0, st, next => (st, next)
  | fuel + 1, st, next =>
    let r := st.workStep sizes next
    r.1.workLoop sizes fuel r.2

/-- `VersionSet::MakeInputIterator`: the inputs merged by internal key. -/
def Compaction.makeInputIterator (c : Compaction K) (tables : Tables K V) : List (Entry K V) :=
  ((c.inputs0 ++ c.inputs1).flatMap fun f => tables f.number).insertionSort
    fun a b => a.key ≤ b.key

/-- The state in which `DoCompactionWork` enters its loop. -/
def Compaction.start (c : Compaction K) (tables : Tables K V) (smallestSnapshot : ℕ) :
    CompactionState K V :=
  { compaction := c, smallestSnapshot := smallestSnapshot, input := c.makeInputIterator tables }

/-- The outputs of `DoCompactionWork` once the input is exhausted, with the last one finished. -/
def CompactionState.finalOutputs (sizes : TableSizes K V) (st : CompactionState K V) :
    List (FileMetaData K × List (Entry K V)) :=
  (st.cutting.finishOutput sizes).outputs

/-- The whole loop of `DoCompactionWork`: the outputs, and the file number counter after it. -/
def Compaction.doCompactionWork (c : Compaction K) (sizes : TableSizes K V) (tables : Tables K V)
    (smallestSnapshot nextFileNumber : ℕ) : List (FileMetaData K × List (Entry K V)) × ℕ :=
  let st := c.start tables smallestSnapshot
  let r := st.workLoop sizes st.input.length nextFileNumber
  (r.1.finalOutputs sizes, r.2)

/-- The edit of `InstallCompactionResults`: the inputs are deleted and the outputs added. -/
def Compaction.resultEdit (c : Compaction K) (outputs : List (FileMetaData K × List (Entry K V))) :
    VersionEdit K :=
  outputs.foldl
    (fun edit out =>
      edit.addFile (c.level + 1) out.1.number out.1.fileSize out.1.smallest out.1.largest)
    (c.addInputDeletions c.edit)

/-- The table files with those of the outputs. -/
def addTables (tables : Tables K V) (outputs : List (FileMetaData K × List (Entry K V))) :
    Tables K V :=
  outputs.foldl (fun tables out => Function.update tables out.1.number out.2) tables

/-- The edit of a trivial move: the file goes to the next level. -/
def Compaction.moveEdit (c : Compaction K) (f : FileMetaData K) : VersionEdit K :=
  (c.edit.deleteFile c.level f.number).addFile (c.level + 1) f.number f.fileSize f.smallest
    f.largest

end

end LevelDb
