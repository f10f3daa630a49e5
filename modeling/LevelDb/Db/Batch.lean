import LevelDb.Format
import LevelDb.Lib.SerialLog

/-!
# Write batches

A `WriteBatch` holds a sequence number and a list of updates. `WriteBatchInternal::InsertInto` hands
the updates to the memtable with consecutive sequence numbers, starting from that of the batch. A
batch here is well formed: its count is the number of its updates. Its byte encoding is not part of
this model.
-/

namespace LevelDb

variable {K V : Type}

/-- A record of a batch. -/
inductive Update (K V : Type) where
  /-- `WriteBatch::Put` -/
  | put (key : K) (value : V)
  /-- `WriteBatch::Delete` -/
  | delete (key : K)
  deriving DecidableEq

/-- `WriteBatch`. -/
abbrev WriteBatch (K V : Type) := Lib.Batch (Update K V)

/-- The entry that `MemTableInserter` adds for an update; a deletion has an empty value. -/
def Update.entry [Inhabited V] (u : Update K V) (sequence : ℕ) : Entry K V :=
  match u with
  | .put key value => ⟨.pack key sequence .value, value⟩
  | .delete key => ⟨.pack key sequence .deletion, default⟩

/-- The entries that `WriteBatchInternal::InsertInto` adds, in its order. -/
def batchEntries [Inhabited V] (b : WriteBatch K V) : List (Entry K V) :=
  b.numbered.map fun x => x.1.entry x.2

end LevelDb
