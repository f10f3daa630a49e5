import LevelDb.Db.MemTable
import Mathlib.Data.List.Induction

/-!
# The history of a database

What a database is for: a map with versions. Its history is the list of all updates that were written,
numbered from 1, and reading a key at a sequence number yields what the last update of the key up to
that number says (`lastOperation`).
-/

namespace LevelDb

open Lib

variable {K V : Type}

/-- The key of an update. -/
def Update.userKey : Update K V → K
  | .put key _ => key
  | .delete key => key

/-- The updates that the steps of a run write, in their order. -/
def writtenUpdates : List (Step K V) → List (Update K V)
  | [] => []
  | .write updates :: steps => updates ++ writtenUpdates steps
  | _ :: steps => writtenUpdates steps

section Entries

variable [Inhabited V]

/-- The entries of a history. -/
def historyEntries (history : List (Update K V)) : List (Entry K V) := batchEntries ⟨1, history⟩

omit [Inhabited V] in
/-- A history is one batch, from 1 on. -/
theorem consecutive_history (history : List (Update K V)) :
    Consecutive 0 [⟨1, history⟩] history.length := by
  simpa using consecutive_singleton 0 history

/-- The entries of a history as those of a batch. -/
theorem batchesEntries_history (history : List (Update K V)) :
    batchesEntries [⟨1, history⟩] = historyEntries history := by
  simp [batchesEntries, historyEntries]

/-- A history goes on with the next batch. -/
theorem historyEntries_append (history updates : List (Update K V)) :
    historyEntries (history ++ updates) =
      historyEntries history ++ batchEntries ⟨history.length + 1, updates⟩ := by
  unfold historyEntries batchEntries Batch.numbered
  rw [List.zipIdx_append, List.map_append, Nat.add_comm 1]

/-- The entries of a history have the sequence numbers from 1 to its length. -/
theorem historyEntries_range {history : List (Update K V)}
    (hmax : history.length ≤ kMaxSequenceNumber) {e : Entry K V} (he : e ∈ historyEntries history) :
    0 < e.key.sequence ∧ e.key.sequence ≤ history.length := by
  rw [← batchesEntries_history] at he
  exact (consecutive_history history).sequence_range hmax he

end Entries

end LevelDb
