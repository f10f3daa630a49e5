import LevelDb.Table.WellFormed

/-!
# Approximate offsets in tables

`Table::ApproximateOffsetOf` of `table/table.cc`: the offset of the block in which a key would be, as the
index has it, or that of the metaindex block for a key behind all blocks. It does not decrease with the
key when the blocks are in the file in the order of the index and the metaindex block is behind them, as
in every table that `TableBuilder` wrote.
-/

namespace LevelDb

open Lib

namespace Table

/-- The offset in the handle that an index value has. If it has none, that of the metaindex block, which
is close to the whole file size. -/
def handleOffset (t : Table) (indexValue : Slice) : ℕ :=
  match BlockHandle.decodeFrom indexValue with
  | .ok (handle, _) => handle.offset
  | .error _ => t.metaindexHandle.offset

/-- `ApproximateOffsetOf` -/
def approximateOffsetOf (t : Table) (key : Slice) : ℕ :=
  let indexIter := Iterator.seek key (t.indexBlock.newIterator t.comparator)
  if Iterator.valid indexIter then t.handleOffset (Iterator.value indexIter)
  else t.metaindexHandle.offset

/-- The offsets of the blocks in an index, and that of the metaindex block. -/
def offsets (t : Table) (index : List (Slice × Slice)) : List ℕ :=
  (index.map fun p => t.handleOffset p.2) ++ [t.metaindexHandle.offset]

/-- The blocks of a table are in its file in the order of the index, and the metaindex block is behind
them. -/
structure InOrder (t : Table) (size : ℕ) : Prop where
  /-- The index and its offsets. -/
  index : ∃ index,
    IsCursor (fun a b => decide (t.comparator.Lt a b)) index (t.indexBlock.newIterator t.comparator) ∧
      (t.offsets index).Pairwise (· ≤ ·)
  /-- The metaindex block is in the file. -/
  metaindex : t.metaindexHandle.offset ≤ size

variable {t : Table} {index : List (Slice × Slice)} {size : ℕ}

/-- The metaindex block is the last one. -/
theorem le_metaindex (h : (t.offsets index).Pairwise (· ≤ ·)) {n : ℕ} (hn : n ∈ t.offsets index) :
    n ≤ t.metaindexHandle.offset := by
  obtain ⟨-, -, hle⟩ := List.pairwise_append.mp h
  obtain hn | hn := List.mem_append.mp hn
  · exact hle n hn _ (List.mem_singleton_self _)
  · exact (List.mem_singleton.mp hn).le

/-- The offset of a key is that at the position at which the index has it. -/
theorem approximateOffsetOf_eq
    (hindex : IsCursor (fun a b => decide (t.comparator.Lt a b)) index
      (t.indexBlock.newIterator t.comparator)) (key : Slice) :
    (t.offsets index)[seekPos (fun a b => decide (t.comparator.Lt a b)) index key]? =
      some (t.approximateOffsetOf key) := by
  obtain ⟨R, hfollows, hstart⟩ := hindex
  have hseek := hfollows.seek key hstart
  unfold offsets approximateOffsetOf
  dsimp only
  have hvalid := hfollows.valid hseek
  generalize hpos : seekPos (fun a b => decide (t.comparator.Lt a b)) index key = pos at hseek hvalid ⊢
  obtain hlt | heq := Nat.lt_or_eq_of_le (hpos ▸ seekPos_le_length _ index key)
  · -- a block is there
    rw [clip_of_lt hlt] at hseek hvalid
    rw [hvalid, Option.isSome_some, if_pos rfl, List.getElem?_append_left (by rwa [List.length_map]), List.getElem?_map,
      hfollows.entry hseek, Option.map_some]
  · rw [clip_of_le heq.ge] at hvalid
    rw [hvalid, Option.isSome_none, if_neg Bool.false_ne_true,
      List.getElem?_append_right (by rw [List.length_map, heq]), List.length_map, heq, Nat.sub_self]
    rfl

/-- The offset does not decrease with the key, and it is in the file. -/
theorem InOrder.approximateOffsetOf_mono (h : t.InOrder size) (hcmp : t.comparator.TotalPreorder)
    {key key' : Slice} (hle : t.comparator.Le key key') :
    t.approximateOffsetOf key ≤ t.approximateOffsetOf key' ∧ t.approximateOffsetOf key' ≤ size := by
  obtain ⟨index, hindex, hsorted⟩ := h.index
  obtain ⟨hlt, heq⟩ := List.getElem?_eq_some_iff.mp (approximateOffsetOf_eq hindex key)
  obtain ⟨hlt', heq'⟩ := List.getElem?_eq_some_iff.mp (approximateOffsetOf_eq hindex key')
  have hseek : seekPos (fun a b => decide (t.comparator.Lt a b)) index key ≤
      seekPos (fun a b => decide (t.comparator.Lt a b)) index key' := by
    refine List.findIdx_le_findIdx fun p _ hp => ?_
    rw [Bool.not_eq_true', decide_eq_false_iff_not, hcmp.not_lt] at hp ⊢
    exact hcmp.trans hle hp
  rw [← heq, ← heq']
  exact ⟨hsorted.sortedLE.getElem_le_getElem_of_le hseek,
    (le_metaindex hsorted (List.getElem_mem hlt')).trans h.metaindex⟩

/-- A table file that was written is in order. -/
theorem inOrder_writeTable {o : TableOptions} (hcmp : o.comparator.TotalPreorder)
    (hshort : o.comparator.Shortens) (hsnappy : o.snappy.Correct) {pairs : List (Slice × Slice)}
    (hsorted : pairs.Pairwise fun p q => o.comparator.Lt p.1 q.1)
    (hblocks : ∀ raw ∈ (writeTable o pairs).blocks, raw.length < 2^32)
    (hlength : (writeTable o pairs).file.length < 2^64) {file : RandomAccessFile}
    (hfile : file.Has (writeTable o pairs).file)
    (ht : Table.open o.comparator o.snappy file (writeTable o pairs).file.length = .ok t) :
    t.InOrder (writeTable o pairs).file.length := by
  obtain ⟨closed, hlayout⟩ := exists_tableLayout hcmp hshort hsorted
  obtain ⟨t', hopen, hcomparator, hsnappy', hfile', hindex⟩ := hlayout.open_eq hsnappy hfile hlength
  obtain rfl : t' = t := Except.ok.inj (hopen.symm.trans ht)
  have hparts := hlayout.parts hcmp hsorted hsnappy hblocks hfile hlength hcomparator hsnappy' hfile' hindex
    false
  obtain ⟨position, hle, hmetaindex, hbehind⟩ := hlayout.open_metaindex hsnappy hfile hlength ht
  rw [Nat.mod_eq_of_lt (lt_of_le_of_lt hle hlength)] at hmetaindex
  obtain ⟨R, hfollows, -, hstart⟩ := hparts.index_cursor
  refine ⟨⟨_, ⟨R, hcomparator ▸ hfollows, hstart⟩, ?_⟩, hmetaindex.trans_le hle⟩
  -- the offset of an index entry is the position of its block
  have hoffset : ∀ w ∈ closed,
      ((fun p => t'.handleOffset p.2) ∘ WrittenBlock.indexEntry o) w = w.1.position := by
    intro w hw
    change t'.handleOffset (WrittenBlock.indexEntry o w).2 = w.1.position
    unfold handleOffset
    rw [hlayout.decodeFrom_indexEntry hlength hw]
    exact (hlayout.handle_eq hlength hw).2
  unfold offsets
  rw [List.map_map, List.map_congr_left hoffset, hmetaindex]
  refine List.pairwise_append.mpr ⟨?_, List.pairwise_singleton _ _, ?_⟩
  · rw [List.pairwise_map]
    exact hlayout.positions.imp le_of_lt
  · intro n hn m hm
    obtain ⟨w, hw, rfl⟩ := List.mem_map.mp hn
    rw [List.mem_singleton.mp hm]
    exact (hbehind w hw).le

end Table

end LevelDb
