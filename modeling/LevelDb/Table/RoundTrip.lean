import LevelDb.Table.BlockCursor
import LevelDb.Table.Layout
import LevelDb.Table.TwoLevelCursor

/-!
# Tables read back

A table file that `TableBuilder` wrote is opened by `Table::Open`, and `Table::NewIterator` is a cursor
over the entries that were added (`TableLayout.parts`). The index block and the data blocks are cursors
over their entries, and every handle in the index leads to its block.
-/

namespace LevelDb

open Lib

namespace TableLayout

variable {o : TableOptions} {b : TableBuilder} {l : List (Slice × Slice)}
  {closed : List (WrittenBlock × Slice)} {file : RandomAccessFile}

/-- The handle of a block is made of 64-bit words, and has its offset. -/
theorem handle_eq (h : TableLayout o b l closed) (hlength : b.file.length < 2^64)
    {w : WrittenBlock × Slice} (hw : w ∈ closed) :
    (w.1.handle o).Valid ∧ (w.1.handle o).offset = w.1.position := by
  have hposition := (h.stored w hw).position_lt
  obtain ⟨front, back, hfront, hback⟩ := (h.stored w hw).file
  have hstored := TableBuilder.length_storedBlock o (w.1.raw o)
  rw [hback, List.length_append, List.length_append] at hlength
  have hoffset : (w.1.handle o).offset = w.1.position := Nat.mod_eq_of_lt (by omega)
  refine ⟨⟨?_, ?_⟩, hoffset⟩
  · rw [hoffset]
    omega
  · change (TableBuilder.blockContents o (w.1.raw o)).1.length < 2^64
    omega

/-- The separators of the index increase. -/
theorem index_sorted (h : TableLayout o b l closed) (hcmp : o.comparator.TotalPreorder) :
    (closed.map (WrittenBlock.indexEntry o)).Pairwise fun p q => o.comparator.Lt p.1 q.1 := by
  rw [List.pairwise_map]
  refine (List.Pairwise.imp_of_mem ?_) h.separated.separator_lt
  intro w w' _ hw' hlt
  -- A key of the later block is between the two.
  obtain ⟨q, hq⟩ := List.exists_mem_of_ne_nil _ (h.stored w' hw').nonempty
  exact hcmp.lt_of_lt_of_le (hlt q hq) (h.separated.le_separator w' hw' q hq)

/-- The keys of a block increase. -/
theorem block_sorted (h : TableLayout o b l closed)
    (hsorted : l.Pairwise fun p q => o.comparator.Lt p.1 q.1) {w : WrittenBlock × Slice}
    (hw : w ∈ closed) : w.1.entries.Pairwise fun p q => o.comparator.Lt p.1 q.1 := by
  refine hsorted.sublist ?_
  rw [← h.entries]
  obtain ⟨front, back, rfl⟩ := List.append_of_mem hw
  rw [List.flatMap_append, List.flatMap_cons]
  exact (List.sublist_append_left _ _).trans (List.sublist_append_right _ _)

/-- The value of an index entry is decoded to the handle of its block. -/
theorem decodeFrom_indexEntry (h : TableLayout o b l closed) (hlength : b.file.length < 2^64)
    {w : WrittenBlock × Slice} (hw : w ∈ closed) :
    BlockHandle.decodeFrom (WrittenBlock.indexEntry o w).2 = .ok (w.1.handle o, []) := by
  have hdecode := (h.handle_eq hlength hw).1.decodeFrom_encodeTo []
  rw [List.append_nil] at hdecode
  exact hdecode

/-- The handle of an index entry leads to the block that was written there. -/
theorem blockOf (h : TableLayout o b l closed) (hsnappy : o.snappy.Correct) (hfile : file.Has b.file)
    (hlength : b.file.length < 2^64) {w : WrittenBlock × Slice} (hw : w ∈ closed) {t : Table}
    (ht : t.snappy = o.snappy) (htfile : t.file = file) (verify : Bool) :
    t.blockOf verify (WrittenBlock.indexEntry o w).2 = .ok (Block.new (w.1.raw o)) := by
  obtain ⟨-, hoffset⟩ := h.handle_eq hlength hw
  obtain ⟨front, back, hfront, hback⟩ := (h.stored w hw).file
  have hread : readBlock o.snappy file verify (w.1.handle o) = .ok (Block.new (w.1.raw o)) := by
    have hhandle : w.1.handle o =
        ⟨front.length, (TableBuilder.blockContents o (w.1.raw o)).1.length⟩ := by
      rw [hfront, ← hoffset]
      rfl
    rw [hhandle]
    exact readBlock_stored hsnappy (hback ▸ hfile) (hback ▸ hlength) verify
  unfold Table.blockOf
  rw [h.decodeFrom_indexEntry hlength hw, ht, htfile]
  exact hread

/-- `BlockReader` finds the block of an index entry. -/
theorem blockReader (h : TableLayout o b l closed) (hsnappy : o.snappy.Correct) (hfile : file.Has b.file)
    (hlength : b.file.length < 2^64) {w : WrittenBlock × Slice} (hw : w ∈ closed) {t : Table}
    (hcomparator : t.comparator = o.comparator) (ht : t.snappy = o.snappy) (htfile : t.file = file)
    (verify : Bool) : t.blockReader verify (WrittenBlock.indexEntry o w).2 =
      (Block.new (w.1.raw o)).newIterator o.comparator := by
  unfold Table.blockReader
  rw [h.blockOf hsnappy hfile hlength hw ht htfile]
  dsimp only
  rw [hcomparator]

/-- Two blocks of a table have different handles, so that a handle says which block it is. -/
theorem handle_ne (h : TableLayout o b l closed) (hlength : b.file.length < 2^64) {i j : ℕ}
    {w w' : WrittenBlock × Slice} (hw : closed[i]? = some w) (hw' : closed[j]? = some w')
    (heq : (WrittenBlock.indexEntry o w).2 = (WrittenBlock.indexEntry o w').2) : i = j := by
  obtain ⟨-, hoffset⟩ := h.handle_eq hlength (List.mem_of_getElem? hw)
  obtain ⟨-, hoffset'⟩ := h.handle_eq hlength (List.mem_of_getElem? hw')
  have hdecode := h.decodeFrom_indexEntry hlength (List.mem_of_getElem? hw)
  rw [heq, h.decodeFrom_indexEntry hlength (List.mem_of_getElem? hw')] at hdecode
  have hposition : w'.1.position = w.1.position := by
    rw [← hoffset, ← hoffset', (Prod.mk.inj (Except.ok.inj hdecode)).1]
  obtain ⟨hi, rfl⟩ := List.getElem?_eq_some_iff.mp hw
  obtain ⟨hj, rfl⟩ := List.getElem?_eq_some_iff.mp hw'
  have hpositions := List.pairwise_iff_getElem.mp h.positions
  obtain hlt | heq | hgt := Nat.lt_trichotomy i j
  · have := hpositions i j hi hj hlt
    omega
  · exact heq
  · have := hpositions j i hj hi hgt
    omega

/-- The entries of a block, as a part of all entries. -/
theorem partAt_entries {i : ℕ} {w : WrittenBlock × Slice} (hw : closed[i]? = some w) :
    partAt (closed.map fun w => w.1.entries) i = w.1.entries := by
  unfold partAt
  rw [List.getD_eq_getElem?_getD, List.getElem?_map, hw]
  rfl

/-- A part with an entry belongs to a block. -/
theorem exists_of_mem_partAt {i : ℕ} {q : Slice × Slice}
    (hq : q ∈ partAt (closed.map fun w => w.1.entries) i) : ∃ w, closed[i]? = some w ∧ q ∈ w.1.entries := by
  unfold partAt at hq
  rw [List.getD_eq_getElem?_getD, List.getElem?_map] at hq
  cases hw : closed[i]? with
  | none =>
    rw [hw] at hq
    exact absurd hq List.not_mem_nil
  | some w =>
    rw [hw] at hq
    exact ⟨w, rfl, hq⟩

/-- The parts of the iterator of a table. -/
theorem parts (h : TableLayout o b l closed) (hcmp : o.comparator.TotalPreorder)
    (hsorted : l.Pairwise fun p q => o.comparator.Lt p.1 q.1) (hsnappy : o.snappy.Correct)
    (hblocks : ∀ raw ∈ b.blocks, raw.length < 2^32) (hfile : file.Has b.file)
    (hlength : b.file.length < 2^64) {t : Table} (hcomparator : t.comparator = o.comparator)
    (ht : t.snappy = o.snappy) (htfile : t.file = file)
    (hindex : t.indexBlock =
      Block.new (BlockBuilder.ofList 1 (closed.map (WrittenBlock.indexEntry o))).finish) (verify : Bool) :
    TwoLevelIterator.Parts o.comparator (closed.map (WrittenBlock.indexEntry o))
      (closed.map fun w => w.1.entries) (t.blockReader verify) (t.indexBlock.newIterator t.comparator) := by
  have hentry : ∀ {i : ℕ} {p : Slice × Slice}, (closed.map (WrittenBlock.indexEntry o))[i]? = some p →
      ∃ w, closed[i]? = some w ∧ WrittenBlock.indexEntry o w = p := by
    intro i p hp
    rw [List.getElem?_map, Option.map_eq_some_iff] at hp
    exact hp
  -- Index and data blocks are finished blocks, whose iterators are cursors.
  constructor
  case length_eq => rw [List.length_map, List.length_map]
  case index_cursor =>
    obtain ⟨raw, -, -, rfl, hmem, -⟩ := h.index
    obtain ⟨f, hf, hentries⟩ := (BlockBuilder.holds_ofList _ _).exists_finishedBlock (hblocks _ hmem)
    rw [hindex, hcomparator, ← hf, ← hentries]
    exact f.isBoundedCursor hcmp (hentries ▸ h.index_sorted hcmp)
  case block_cursor =>
    intro i p hp
    obtain ⟨w, hw, rfl⟩ := hentry hp
    have hmem := List.mem_of_getElem? hw
    obtain ⟨f, hf, hentries⟩ := (BlockBuilder.holds_ofList _ _).exists_finishedBlock
      (hblocks _ (h.stored w hmem).mem_blocks)
    rw [partAt_entries hw, h.blockReader hsnappy hfile hlength hmem hcomparator ht htfile,
      WrittenBlock.raw, ← hf, ← hentries]
    exact ⟨_, f.follows hcmp (hentries ▸ h.block_sorted hsorted hmem), f.stands_newIterator _⟩
  case distinct =>
    intro i j p q hp hq heq
    obtain ⟨w, hw, rfl⟩ := hentry hp
    obtain ⟨w', hw', rfl⟩ := hentry hq
    exact h.handle_ne hlength hw hw' heq
  case le_separator =>
    intro i p q hp hq
    obtain ⟨w, hw, rfl⟩ := hentry hp
    rw [partAt_entries hw] at hq
    exact h.separated.le_separator w (List.mem_of_getElem? hw) q hq
  case separator_lt =>
    intro i j p q hp hij hq
    obtain ⟨w, hw, rfl⟩ := hentry hp
    obtain ⟨w', hw', hq'⟩ := exists_of_mem_partAt hq
    obtain ⟨hi, rfl⟩ := List.getElem?_eq_some_iff.mp hw
    obtain ⟨hj, rfl⟩ := List.getElem?_eq_some_iff.mp hw'
    exact List.pairwise_iff_getElem.mp h.separated.separator_lt i j hi hj hij q hq'

/-- The footer is read back, and it leads to the index block. -/
theorem exists_footer (h : TableLayout o b l closed) (hsnappy : o.snappy.Correct) (hfile : file.Has b.file)
    (hlength : b.file.length < 2^64) :
    ∃ footer : Footer, kFooterLength ≤ b.file.length ∧
      file.read (b.file.length - kFooterLength) kFooterLength = .ok footer.encodeTo ∧
      Footer.decodeFrom footer.encodeTo = .ok footer ∧
      readBlock o.snappy file false footer.indexHandle =
        .ok (Block.new (BlockBuilder.ofList 1 (closed.map (WrittenBlock.indexEntry o))).finish) ∧
      footer.metaindexHandle.Behind b closed := by
  obtain ⟨raw, front, metaindexHandle, hraw, -, hbehind, hsize, hbytes⟩ := h.index
  have hstored := TableBuilder.length_storedBlock o raw
  generalize hfooter : (⟨metaindexHandle, ⟨front.length % 2^64,
    (TableBuilder.blockContents o raw).1.length⟩⟩ : Footer) = footer at hbytes
  have hlength' : b.file.length =
      front.length + (TableBuilder.storedBlock o raw).length + kFooterLength := by
    rw [hbytes, List.length_append, List.length_append, footer.encodeTo_length, Nat.add_assoc]
  -- The footer is at the end of the file.
  have hread : file.read (b.file.length - kFooterLength) kFooterLength = .ok footer.encodeTo := by
    rw [hfile (by omega), hlength', Nat.add_sub_cancel, hbytes, ← List.append_assoc,
      ← List.length_append, List.drop_left, ← footer.encodeTo_length, List.take_length]
  have hdecode : Footer.decodeFrom footer.encodeTo = .ok footer := by
    rw [← hfooter]
    refine Footer.decodeFrom_encodeTo ⟨hbehind.offset_lt, lt_of_le_of_lt hsize hlength⟩ ⟨?_, ?_⟩
    · exact Nat.mod_lt _ (by decide)
    · dsimp only
      omega
  have hindex : readBlock o.snappy file false footer.indexHandle = .ok (Block.new raw) := by
    rw [← hfooter]
    dsimp only
    rw [Nat.mod_eq_of_lt (by omega)]
    exact readBlock_stored hsnappy (hbytes ▸ hfile) (hbytes ▸ hlength) false
  exact ⟨footer, by omega, hread, hdecode, hraw ▸ hindex, hfooter ▸ hbehind⟩

/-- `Table::Open` accepts the file of a builder, and has its index block. -/
theorem open_eq (h : TableLayout o b l closed) (hsnappy : o.snappy.Correct) (hfile : file.Has b.file)
    (hlength : b.file.length < 2^64) :
    ∃ t : Table, Table.open o.comparator o.snappy file b.file.length = .ok t ∧
      t.comparator = o.comparator ∧ t.snappy = o.snappy ∧ t.file = file ∧ t.indexBlock =
        Block.new (BlockBuilder.ofList 1 (closed.map (WrittenBlock.indexEntry o))).finish := by
  obtain ⟨footer, hle, hread, hdecode, hindex, -⟩ := h.exists_footer hsnappy hfile hlength
  refine ⟨⟨o.comparator, o.snappy, file, footer.metaindexHandle,
    Block.new (BlockBuilder.ofList 1 (closed.map (WrittenBlock.indexEntry o))).finish⟩, ?_, rfl, rfl, rfl, rfl⟩
  unfold Table.open
  rw [if_neg (Nat.not_lt.mpr hle), hread]
  simp only [bind, Except.bind, hdecode, hindex]

/-- The metaindex block of an opened table is behind the data blocks. -/
theorem open_metaindex (h : TableLayout o b l closed) (hsnappy : o.snappy.Correct) (hfile : file.Has b.file)
    (hlength : b.file.length < 2^64) {t : Table}
    (ht : Table.open o.comparator o.snappy file b.file.length = .ok t) :
    t.metaindexHandle.Behind b closed := by
  obtain ⟨footer, hle, hread, hdecode, hindex, hbehind⟩ := h.exists_footer hsnappy hfile hlength
  unfold Table.open at ht
  rw [if_neg (Nat.not_lt.mpr hle), hread] at ht
  simp only [bind, Except.bind, hdecode, hindex] at ht
  rw [← Except.ok.inj ht]
  exact hbehind

end TableLayout

/-! ## Round trip -/

/-- A table file with a list of entries is read back: it is accepted, its size is known to the builder,
and its iterator is a cursor over the list. -/
def TableRoundTrips (o : TableOptions) (pairs : List (Slice × Slice)) (file : RandomAccessFile) : Prop :=
  (writeTable o pairs).fileSize = (writeTable o pairs).file.length ∧
    ∃ t, Table.open o.comparator o.snappy file (writeTable o pairs).fileSize = .ok t ∧
      ∀ (verifyChecksums : Bool) (cs : List (Call Slice)),
        (calls (t.newIterator verifyChecksums) cs).map observe =
          (cursorCalls (fun a b => decide (o.comparator.Lt a b)) pairs none cs).map (cursorObserve pairs)

/-- A table file is read back if no block of it is too long for 32-bit offsets, and the file is not too
long for 64-bit offsets. -/
theorem table_round_trip {o : TableOptions} (hcmp : o.comparator.TotalOrder)
    (hshort : o.comparator.Shortens) (hsnappy : o.snappy.Correct) {pairs : List (Slice × Slice)}
    (hsorted : pairs.Pairwise fun p q => o.comparator.Lt p.1 q.1)
    (hblocks : ∀ raw ∈ (writeTable o pairs).blocks, raw.length < 2^32)
    (hlength : (writeTable o pairs).file.length < 2^64) {file : RandomAccessFile}
    (hfile : file.Has (writeTable o pairs).file) : TableRoundTrips o pairs file := by
  obtain ⟨closed, hlayout⟩ := exists_tableLayout hcmp.toTotalPreorder hshort hsorted
  have hsize : (writeTable o pairs).fileSize = (writeTable o pairs).file.length := by
    unfold TableBuilder.fileSize
    rw [hlayout.offset, Nat.mod_eq_of_lt hlength]
  obtain ⟨t, hopen, hcomparator, ht, htfile, hindex⟩ := hlayout.open_eq hsnappy hfile hlength
  refine ⟨hsize, t, hsize ▸ hopen, fun verify cs => ?_⟩
  have hparts := hlayout.parts hcmp.toTotalPreorder hsorted hsnappy hblocks hfile hlength hcomparator ht
    htfile hindex verify
  have hflatten : (closed.map fun w => w.1.entries).flatten = pairs := hlayout.entries
  have hcursor := (hparts.isCursor hcmp.toTotalPreorder).run cs
  rw [hflatten] at hcursor
  exact hcursor

/-- A table of two blocks with one entry each is read back. -/
theorem table_round_trip_example :
    let o : TableOptions := ⟨bytewiseComparator, 1, 16, .snappy, ⟨fun _ => none, fun _ => none, fun _ => none⟩⟩
    let pairs : List (Slice × Slice) := [([97], [1]), ([98], [2])]
    TableRoundTrips o pairs ⟨fun offset n => .ok (((writeTable o pairs).file.drop offset).take n)⟩ := by
  intro o pairs
  refine table_round_trip bytewiseComparator_totalOrder bytewiseComparator_shortens ⟨?_, ?_⟩ ?_ ?_ ?_ ?_
  · exact fun h => absurd h.symm (Option.some_ne_none _)
  · exact fun h => absurd h.symm (Option.some_ne_none _)
  · decide
  · decide +kernel
  · decide +kernel
  · exact fun _ => rfl

/-! ## Blocks that are too long -/

/-- A block with one entry whose value has `2^32` bytes: the length of the value is stored as 0. -/
theorem finish_oversize {value : Slice} (hlength : value.length = 2^32) :
    (BlockBuilder.ofList 16 [([], value)]).finish =
      ([0, 0, 0] ++ value) ++ (encodeFixed32 0 ++ encodeFixed32 1) := by
  have hentry : blockEntry 0 [] value = [0, 0, 0] ++ value := by
    unfold blockEntry
    rw [hlength]
    rfl
  have hbuffer : (BlockBuilder.ofList 16 [([], value)]).buffer = [0, 0, 0] ++ value := hentry
  have hrestarts : (BlockBuilder.ofList 16 [([], value)]).restarts = [0] := rfl
  unfold BlockBuilder.finish
  rw [hbuffer, hrestarts, List.append_assoc]
  rfl

/-- The iterator over it takes the third byte for its end, and shows an entry with an empty value. -/
theorem observe_oversize {rest : Slice} (hlength : (0 :: 0 :: 0 :: 0 :: rest).length = 2^32)
    (cmp : Comparator) :
    observe (Iterator.seekToFirst
      ((Block.new (BlockBuilder.ofList 16 [([], 0 :: 0 :: 0 :: 0 :: rest)]).finish).newIterator cmp)) =
        (some ([], []), none) := by
  have hentries : ([0, 0, 0] ++ (0 :: 0 :: 0 :: 0 :: rest) : Slice).length = 2^32 + 3 := by
    rw [List.length_append, hlength]
    simp only [List.length_cons, List.length_nil]
    omega
  rw [finish_oversize hlength, newIterator_wraps hentries (by decide)]
  -- The restart point and the lengths of the entry are in the first seven bytes.
  rfl

/-- The length of a block with one entry. -/
theorem length_finish_singleton_le (p : Slice × Slice) :
    (BlockBuilder.ofList 1 [p]).finish.length ≤ 23 + p.1.length + p.2.length := by
  have hbuffer : (BlockBuilder.ofList 1 [p]).buffer = blockEntry 0 p.1 p.2 := by
    change [] ++ blockEntry (sharedLength [] p.1) p.1 p.2 = _
    rw [List.nil_append, sharedLength]
    exact fun _ _ _ _ h => absurd h (List.cons_ne_nil _ _).symm
  have hrestarts : (BlockBuilder.ofList 1 [p]).restarts = [0] := rfl
  rw [BlockBuilder.length_finish, BlockBuilder.currentSizeEstimate, hbuffer, hrestarts]
  have h1 := encodeVarint32_length_le (0 % 2^32)
  have h2 := encodeVarint32_length_le ((p.1.length - 0) % 2^32)
  have h3 := encodeVarint32_length_le (p.2.length % 2^32)
  unfold blockEntry
  simp only [List.length_append, List.length_drop, List.length_singleton]
  omega

/-- `SeekToFirst` of a table shows the first entry of the block of the first index entry. -/
theorem Table.observe_seekToFirst {t : Table} {verify : Bool} {handle : Slice} {p : Slice × Slice}
    (hindex : Iterator.valid (Iterator.seekToFirst (t.indexBlock.newIterator t.comparator)) = true)
    (hhandle : Iterator.value (Iterator.seekToFirst (t.indexBlock.newIterator t.comparator)) = handle)
    (hdata : (observe (Iterator.seekToFirst (t.blockReader verify handle))).1 = some p) :
    (observe (Iterator.seekToFirst (t.newIterator verify))).1 = some p := by
  obtain ⟨hvalid, hentry⟩ : Iterator.valid (Iterator.seekToFirst (t.blockReader verify handle)) = true ∧
      (Iterator.key (Iterator.seekToFirst (t.blockReader verify handle)),
        Iterator.value (Iterator.seekToFirst (t.blockReader verify handle))) = p := by
    unfold observe at hdata
    split_ifs at hdata with hvalid
    exact ⟨hvalid, Option.some.inj hdata⟩
  -- The first block is opened, and there is nothing to skip.
  have hopened : ((t.newIterator verify).onIndex Iterator.seekToFirst).initDataBlock =
      { blockFunction := t.blockReader verify
        index := Iterator.seekToFirst (t.indexBlock.newIterator t.comparator)
        data := some (t.blockReader verify handle)
        handle := handle } := by
    rw [← hhandle]
    exact if_pos hindex
  have hseek : Iterator.seekToFirst (t.newIterator verify) =
      { blockFunction := t.blockReader verify
        index := Iterator.seekToFirst (t.indexBlock.newIterator t.comparator)
        data := some (Iterator.seekToFirst (t.blockReader verify handle))
        handle := handle } := by
    change TwoLevelIterator.skipEmptyDataBlocksForward (TwoLevelIterator.onData _ _) = _
    rw [hopened]
    exact if_pos hvalid
  rw [hseek, ← hentry]
  exact if_pos hvalid

/-- A table with one entry has one block. -/
theorem TableLayout.closed_singleton {o : TableOptions} {b : TableBuilder} {p : Slice × Slice}
    {closed : List (WrittenBlock × Slice)} (h : TableLayout o b [p] closed) :
    ∃ w, closed = [(w, o.comparator.findShortSuccessor p.1)] ∧ w.entries = [p] := by
  have hentries := h.entries
  match closed, h with
  | [], _ => exact absurd hentries.symm (List.cons_ne_nil _ _)
  | [(w, separator)], h =>
    rw [List.flatMap_singleton] at hentries
    have hseparator : separator = o.comparator.findShortSuccessor p.1 :=
      h.last_separator (w, separator) rfl
    exact ⟨w, hseparator ▸ rfl, hentries⟩
  | w :: w' :: rest, h =>
    -- Both blocks would have an entry.
    have hw := List.length_pos_iff.mpr (h.stored w List.mem_cons_self).nonempty
    have hw' := List.length_pos_iff.mpr (h.stored w' (List.mem_cons_of_mem _ List.mem_cons_self)).nonempty
    have hlength := congrArg List.length hentries
    rw [List.flatMap_cons, List.flatMap_cons, List.length_append, List.length_append,
      List.length_singleton] at hlength
    omega

/-- A value of `2^32` bytes is lost: the table shows an empty one. -/
theorem not_tableRoundTrips_oversize {o : TableOptions} (hcomparator : o.comparator = bytewiseComparator)
    (hinterval : o.blockRestartInterval = 16) (hsnappy : o.snappy.Correct) {rest : Slice}
    (hlength : (0 :: 0 :: 0 :: 0 :: rest : Slice).length = 2^32) {file : RandomAccessFile}
    (hfile : file.Has (writeTable o [([], 0 :: 0 :: 0 :: 0 :: rest)]).file) :
    ¬TableRoundTrips o [([], 0 :: 0 :: 0 :: 0 :: rest)] file := by
  intro hround
  have hcmp := bytewiseComparator_totalOrder.toTotalPreorder
  have hshort := bytewiseComparator_shortens
  rw [← hcomparator] at hcmp hshort
  obtain ⟨closed, hlayout⟩ := exists_tableLayout hcmp hshort
    (List.pairwise_singleton _ (([], 0 :: 0 :: 0 :: 0 :: rest) : Slice × Slice))
  obtain ⟨hsize, t, hopen, hcursor⟩ := hround
  -- The size is that of the file, so it is a 64-bit word.
  have hlt : (writeTable o [([], 0 :: 0 :: 0 :: 0 :: rest)]).file.length < 2^64 := by
    rw [← hsize, TableBuilder.fileSize, hlayout.offset]
    exact Nat.mod_lt _ (by decide)
  obtain ⟨t', hopen', htcomparator, ht, htfile, hindex⟩ := hlayout.open_eq hsnappy hfile hlt
  obtain rfl : t = t' := by
    rw [hsize, hopen'] at hopen
    exact (Except.ok.inj hopen).symm
  obtain ⟨w, hclosed, hentries⟩ := hlayout.closed_singleton
  have hsuccessor : o.comparator.findShortSuccessor [] = [] := by
    rw [hcomparator]
    rfl
  rw [hsuccessor] at hclosed
  subst hclosed
  have hw : (w, []) ∈ [(w, ([] : Slice))] := List.mem_singleton_self _
  obtain ⟨hvalid, -⟩ := hlayout.handle_eq hlt hw
  -- The index block is not too long.
  have hindexLength : (BlockBuilder.ofList 1 [WrittenBlock.indexEntry o (w, [])]).finish.length < 2^32 := by
    have hle := length_finish_singleton_le (WrittenBlock.indexEntry o (w, []))
    have hhandle : (WrittenBlock.indexEntry o (w, [])).2.length ≤ kMaxHandleLength :=
      hvalid.encodeTo_length_le
    have hkey : (WrittenBlock.indexEntry o (w, [])).1.length = 0 := rfl
    unfold kMaxHandleLength at hhandle
    omega
  obtain ⟨f, hf, hfentries⟩ := (BlockBuilder.holds_ofList _ _).exists_finishedBlock hindexLength
  have hfollows := f.follows hcmp (hfentries ▸ List.pairwise_singleton _ _)
  have hfirst := hfollows.seekToFirst (f.stands_newIterator o.comparator)
  rw [hfentries, hf] at hfirst
  have hentry := hfollows.entry hfirst
  rw [hfentries] at hentry
  have hobserve : (observe (Iterator.seekToFirst (t.newIterator false))).1 = some ([], []) := by
    apply @Table.observe_seekToFirst t false (WrittenBlock.indexEntry o (w, [])).2
    · rw [hindex, htcomparator]
      exact hfollows.valid hfirst
    · rw [hindex, htcomparator]
      exact (congrArg Prod.snd (Option.some.inj hentry)).symm
    · rw [hlayout.blockReader hsnappy hfile hlt hw htcomparator ht htfile, WrittenBlock.raw, hentries,
        hinterval, observe_oversize hlength]
  have hclaim := congrArg (Option.map Prod.fst) (hcursor false [.seekToFirst])
  change some (observe (Iterator.seekToFirst (t.newIterator false))).1 =
    some (some ([], 0 :: 0 :: 0 :: 0 :: rest)) at hclaim
  rw [hobserve] at hclaim
  exact absurd (Prod.mk.inj (Option.some.inj (Option.some.inj hclaim))).2.symm (List.cons_ne_nil _ _)

/-- The same for a value of zeros, without compression. -/
theorem table_loses_value :
    let o : TableOptions := ⟨bytewiseComparator, 4096, 16, .none, ⟨fun _ => none, fun _ => none, fun _ => none⟩⟩
    let pairs : List (Slice × Slice) := [([], List.replicate (2^32) 0)]
    ¬TableRoundTrips o pairs ⟨fun offset n => .ok (((writeTable o pairs).file.drop offset).take n)⟩ := by
  have hfour : ∀ n, List.replicate (4 + n) (0 : UInt8) = 0 :: 0 :: 0 :: 0 :: List.replicate n 0 := by
    intro n
    rw [List.replicate_add]
    rfl
  have hvalue : List.replicate (2^32) (0 : UInt8) =
      0 :: 0 :: 0 :: 0 :: List.replicate (2^32 - 4) 0 := by
    rw [← hfour]
    congr 1
  have hlength : (0 :: 0 :: 0 :: 0 :: List.replicate (2^32 - 4) (0 : UInt8)).length = 2^32 := by
    rw [← hvalue, List.length_replicate]
  rw [hvalue]
  exact not_tableRoundTrips_oversize rfl rfl ⟨fun h => absurd h.symm (Option.some_ne_none _),
    fun h => absurd h.symm (Option.some_ne_none _)⟩ hlength (fun _ => rfl)

end LevelDb
