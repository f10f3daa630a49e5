import LevelDb.Table.Block

/-!
# The two-level iterator

`TwoLevelIterator` of `table/two_level_iterator.cc`: the values of an index iterator are handles, from
which a function makes iterators over blocks. A block that has no entries, or no more of them, is left
for the next one, and an error of its iterator is saved.
-/

namespace LevelDb

open Lib

variable {ι δ : Type}

/-- `TwoLevelIterator`, with `block_function_` applied to its argument and options. -/
structure TwoLevelIterator (ι δ : Type) where
  /-- `block_function_` -/
  blockFunction : Slice → δ
  /-- `status_` -/
  status : Option Status := none
  /-- `index_iter_` -/
  index : ι
  /-- `data_iter_`. May be NULL. -/
  data : Option δ := none
  /-- `data_block_handle_`: if `data_iter_` is there, the handle that it was made of. -/
  handle : Slice := []

namespace TwoLevelIterator

section Index

variable [Iterator ι Slice Slice Status] [Bounded ι] [Iterator δ Slice Slice Status]

/-- `SaveError` -/
def saveError (it : TwoLevelIterator ι δ) (s : Option Status) : TwoLevelIterator ι δ :=
  if it.status = none ∧ s ≠ none then { it with status := s } else it

/-- `SetDataIterator` -/
def setDataIterator (it : TwoLevelIterator ι δ) (data : Option δ) : TwoLevelIterator ι δ :=
  match it.data with
  | none => { it with data := data }
  | some d => { it.saveError (Iterator.status d) with data := data }

/-- `InitDataBlock` -/
def initDataBlock (it : TwoLevelIterator ι δ) : TwoLevelIterator ι δ :=
  if Iterator.valid it.index then
    let handle := Iterator.value it.index
    -- `data_iter_` may already be constructed with this handle.
    if it.data.isSome ∧ handle = it.handle then it
    else { it.setDataIterator (some (it.blockFunction handle)) with handle := handle }
  else it.setDataIterator none

/-- `data_iter_.Valid()` -/
def dataValid (it : TwoLevelIterator ι δ) : Bool := it.data.any Iterator.valid

/-- An operation on `data_iter_`, if it is there. -/
def onData (f : δ → δ) (it : TwoLevelIterator ι δ) : TwoLevelIterator ι δ :=
  { it with data := it.data.map f }

/-- An operation on `index_iter_`. -/
def onIndex (f : ι → ι) (it : TwoLevelIterator ι δ) : TwoLevelIterator ι δ :=
  { it with index := f it.index }

/-- `SkipEmptyDataBlocksForward` and `SkipEmptyDataBlocksBackward`: while there is no entry, the index
moves on and the block is entered at one of its ends. The number of rounds is bounded by the index. -/
def skipEmptyDataBlocks (move : ι → ι) (enter : δ → δ) : ℕ → TwoLevelIterator ι δ → TwoLevelIterator ι δ
  | 0, it => it
  | fuel + 1, it =>
    if it.dataValid then it
    else if Iterator.valid it.index then
      skipEmptyDataBlocks move enter fuel (((it.onIndex move).initDataBlock).onData enter)
    else it.setDataIterator none

/-- `SkipEmptyDataBlocksForward` -/
def skipEmptyDataBlocksForward (it : TwoLevelIterator ι δ) : TwoLevelIterator ι δ :=
  it.skipEmptyDataBlocks Iterator.next Iterator.seekToFirst (Bounded.bound it.index + 1)

/-- `SkipEmptyDataBlocksBackward` -/
def skipEmptyDataBlocksBackward (it : TwoLevelIterator ι δ) : TwoLevelIterator ι δ :=
  it.skipEmptyDataBlocks Iterator.prev Iterator.seekToLast (Bounded.bound it.index + 1)

/-- `Seek` -/
def seek (target : Slice) (it : TwoLevelIterator ι δ) : TwoLevelIterator ι δ :=
  (((it.onIndex (Iterator.seek target)).initDataBlock).onData
    (Iterator.seek target)).skipEmptyDataBlocksForward

/-- `SeekToFirst` -/
def seekToFirst (it : TwoLevelIterator ι δ) : TwoLevelIterator ι δ :=
  (((it.onIndex Iterator.seekToFirst).initDataBlock).onData
    Iterator.seekToFirst).skipEmptyDataBlocksForward

/-- `SeekToLast` -/
def seekToLast (it : TwoLevelIterator ι δ) : TwoLevelIterator ι δ :=
  (((it.onIndex Iterator.seekToLast).initDataBlock).onData
    Iterator.seekToLast).skipEmptyDataBlocksBackward

/-- `Next` -/
def next (it : TwoLevelIterator ι δ) : TwoLevelIterator ι δ :=
  (it.onData Iterator.next).skipEmptyDataBlocksForward

/-- `Prev` -/
def prev (it : TwoLevelIterator ι δ) : TwoLevelIterator ι δ :=
  (it.onData Iterator.prev).skipEmptyDataBlocksBackward

/-- `status` -/
def getStatus (it : TwoLevelIterator ι δ) : Option Status :=
  (Iterator.status it.index).or ((it.data.bind Iterator.status).or it.status)

instance : Iterator (TwoLevelIterator ι δ) Slice Slice Status where
  valid := dataValid
  key it := (it.data.map Iterator.key).getD []
  value it := (it.data.map Iterator.value).getD []
  status := getStatus
  seekToFirst := seekToFirst
  seekToLast := seekToLast
  seek := seek
  next := next
  prev := prev

end Index

end TwoLevelIterator

end LevelDb
