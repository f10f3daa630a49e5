import LevelDb.Table.RoundTrip

/-!
# Well-formed tables

A table is well formed if every value that its index iterator can show is the handle of a block that can
be read, whether or not checksums are verified, and no two blocks begin at the same place. A table file
that `TableBuilder` wrote is well formed.
-/

namespace LevelDb

open Lib

/-- The index iterator of a table shows a value after some calls. -/
def Table.Indexes (t : Table) (indexValue : Slice) : Prop :=
  ∃ cs it, calls (t.indexBlock.newIterator t.comparator) cs = some it ∧ Iterator.valid it = true ∧
    Iterator.value it = indexValue

/-- A table whose blocks can be read. -/
structure Table.WellFormed (t : Table) : Prop where
  /-- A value of the index leads to a block. -/
  block : ∀ {indexValue : Slice}, t.Indexes indexValue →
    ∃ block, ∀ verify, t.blockOf verify indexValue = .ok block
  /-- The blocks begin at different places. -/
  offset : ∀ {v v' rest rest' : Slice} {h h' : BlockHandle}, t.Indexes v → t.Indexes v' →
    BlockHandle.decodeFrom v = .ok (h, rest) → BlockHandle.decodeFrom v' = .ok (h', rest') →
    h.offset = h'.offset → h = h'

/-- A table file that was written and has no block that is too long is well formed. -/
theorem wellFormed_writeTable {o : TableOptions} (hcmp : o.comparator.TotalPreorder)
    (hshort : o.comparator.Shortens) (hsnappy : o.snappy.Correct) {pairs : List (Slice × Slice)}
    (hsorted : pairs.Pairwise fun p q => o.comparator.Lt p.1 q.1)
    (hblocks : ∀ raw ∈ (writeTable o pairs).blocks, raw.length < 2^32)
    (hlength : (writeTable o pairs).file.length < 2^64) {file : RandomAccessFile}
    (hfile : file.Has (writeTable o pairs).file) {t : Table}
    (ht : Table.open o.comparator o.snappy file (writeTable o pairs).file.length = .ok t) :
    t.WellFormed := by
  obtain ⟨closed, hlayout⟩ := exists_tableLayout hcmp hshort hsorted
  obtain ⟨t', hopen, hcomparator, hsnappy', hfile', hindex⟩ := hlayout.open_eq hsnappy hfile hlength
  obtain rfl : t' = t := Except.ok.inj (hopen.symm.trans ht)
  have hparts := hlayout.parts hcmp hsorted hsnappy hblocks hfile hlength hcomparator hsnappy' hfile' hindex
    false
  have hentry : ∀ {v : Slice}, t'.Indexes v →
      ∃ w ∈ closed, (WrittenBlock.indexEntry o w).2 = v := by
    rintro v ⟨cs, it, hcs, hvalid, rfl⟩
    obtain ⟨R, hfollows, -, hstart⟩ := hparts.index_cursor
    have hmem := IsCursor.mem_of_valid ⟨R, hfollows, hstart⟩ hcs hvalid
    obtain ⟨w, hw, heq⟩ := List.mem_map.mp hmem
    exact ⟨w, hw, congrArg Prod.snd heq⟩
  constructor
  · intro v hv
    obtain ⟨w, hw, rfl⟩ := hentry hv
    exact ⟨_, fun verify => hlayout.blockOf hsnappy hfile hlength hw hsnappy' hfile' verify⟩
  · intro v v' rest rest' h h' hv hv' hdecode hdecode' hoffset
    obtain ⟨w, hw, rfl⟩ := hentry hv
    obtain ⟨w', hw', rfl⟩ := hentry hv'
    rw [hlayout.decodeFrom_indexEntry hlength hw] at hdecode
    rw [hlayout.decodeFrom_indexEntry hlength hw'] at hdecode'
    obtain ⟨rfl, -⟩ := Prod.mk.inj (Except.ok.inj hdecode)
    obtain ⟨rfl, -⟩ := Prod.mk.inj (Except.ok.inj hdecode')
    rw [(hlayout.handle_eq hlength hw).2, (hlayout.handle_eq hlength hw').2] at hoffset
    -- Two entries at one position are one entry.
    obtain ⟨i, hi, rfl⟩ := List.getElem_of_mem hw
    obtain ⟨j, hj, rfl⟩ := List.getElem_of_mem hw'
    have hpositions := List.pairwise_iff_getElem.mp hlayout.positions
    obtain hlt | rfl | hgt := Nat.lt_trichotomy i j
    · have hposition := hpositions i j hi hj hlt
      omega
    · rfl
    · have hposition := hpositions j i hj hi hgt
      omega

end LevelDb
