import LevelDb.Table.BlockImage
import LevelDb.Table.Builder

/-!
# The bytes of a table

What `TableBuilder` leaves in a file, and what the functions of `table/format.cc` read there: a handle
leads back to the block that was written for it (`readBlock_stored`), and the footer to the handles that
it was made of (`Footer.decodeFrom_encodeTo`). `TableBuilder.Holds` is what holds between the calls of a
builder: blocks that have an entry in the index, perhaps one that waits for it, and the entries of the
block that is being built.
-/

namespace LevelDb

/-! ## Handles and footers -/

/-- A number below `128^(k + 1)` takes at most `k + 1` bytes as a varint. -/
theorem encodeVarint64_length_le (k : ℕ) : ∀ {v : ℕ}, v < 128^(k + 1) → (encodeVarint64 v).length ≤ k + 1 := by
  induction k with
  | zero =>
    intro v hv
    rw [encodeVarint64_eq, if_neg (by omega)]
    exact le_rfl
  | succ k ih =>
    intro v hv
    rw [encodeVarint64_eq]
    split_ifs with hge
    · rw [List.length_cons]
      refine Nat.succ_le_succ (ih ?_)
      rw [Nat.div_lt_iff_lt_mul (by decide), ← pow_succ]
      exact hv
    · rw [List.length_singleton]
      omega

/-- A handle whose numbers are 64-bit words. -/
structure BlockHandle.Valid (h : BlockHandle) : Prop where
  /-- The offset. -/
  offset_lt : h.offset < 2^64
  /-- The size. -/
  size_lt : h.size < 2^64

/-- The encoding of a valid handle is not longer than `kMaxEncodedLength`. -/
theorem BlockHandle.Valid.encodeTo_length_le {h : BlockHandle} (hv : h.Valid) :
    h.encodeTo.length ≤ kMaxHandleLength := by
  have hlt : (2 : ℕ)^64 < 128^(9 + 1) := by decide
  have hoffset := encodeVarint64_length_le 9 (hv.offset_lt.trans hlt)
  have hsize := encodeVarint64_length_le 9 (hv.size_lt.trans hlt)
  unfold BlockHandle.encodeTo kMaxHandleLength
  rw [List.length_append]
  omega

/-- `DecodeFrom` reads the handle that `EncodeTo` has written, and leaves what follows. -/
theorem BlockHandle.Valid.decodeFrom_encodeTo {h : BlockHandle} (hv : h.Valid) (rest : Slice) :
    BlockHandle.decodeFrom (h.encodeTo ++ rest) = .ok (h, rest) := by
  unfold BlockHandle.decodeFrom BlockHandle.encodeTo
  rw [List.append_assoc, getVarint64_encodeVarint64 hv.offset_lt, Option.bind_some]
  dsimp only
  rw [getVarint64_encodeVarint64 hv.size_lt]
  rfl

/-- The encoding of a footer has `kEncodedLength` bytes, whatever its handles are. -/
theorem Footer.encodeTo_length (f : Footer) : f.encodeTo.length = kFooterLength := by
  unfold Footer.encodeTo kFooterLength
  rw [List.length_append, List.length_append, Lib.length_resize, encodeFixed32_length,
    encodeFixed32_length]

/-- `DecodeFrom` accepts the footer that `EncodeTo` has written, with its two handles. -/
theorem Footer.decodeFrom_encodeTo {f : Footer} (hmeta : f.metaindexHandle.Valid)
    (hindex : f.indexHandle.Valid) : Footer.decodeFrom f.encodeTo = .ok f := by
  have hle : (f.metaindexHandle.encodeTo ++ f.indexHandle.encodeTo).length ≤ 2 * kMaxHandleLength := by
    rw [List.length_append, two_mul]
    exact Nat.add_le_add hmeta.encodeTo_length_le hindex.encodeTo_length_le
  -- The magic number stands behind the padding.
  have hmagic : f.encodeTo.drop (kFooterLength - 8) =
      encodeFixed32 (kTableMagicNumber &&& 0xffffffff) ++ encodeFixed32 (kTableMagicNumber >>> 32) := by
    unfold Footer.encodeTo
    rw [List.append_assoc, List.drop_left' (by rw [Lib.length_resize]; rfl)]
  unfold Footer.decodeFrom
  rw [hmagic, if_neg (by decide)]
  unfold Footer.encodeTo Lib.resize
  rw [List.take_of_length_le hle]
  simp only [List.append_assoc, hmeta.decodeFrom_encodeTo, hindex.decodeFrom_encodeTo, bind, Except.bind]

/-! ## Reading blocks -/

/-- "assuming Snappy decompresses what it compressed" -/
structure Snappy.Correct (snappy : Snappy) : Prop where
  /-- The length of what was compressed. -/
  getUncompressedLength : ∀ {raw c : Slice}, snappy.compress raw = some c →
    snappy.getUncompressedLength c = some raw.length
  /-- What was compressed. -/
  uncompress : ∀ {raw c : Slice}, snappy.compress raw = some c → snappy.uncompress c = some raw

/-- A file with some bytes, all of which can be read. -/
def RandomAccessFile.Has (file : RandomAccessFile) (data : Slice) : Prop :=
  ∀ {offset n : ℕ}, offset + n ≤ data.length → file.read offset n = .ok ((data.drop offset).take n)

/-- What a block is stored as is what it was. -/
theorem TableBuilder.uncompressBlock_blockContents {o : TableOptions} (hsnappy : o.snappy.Correct)
    (raw : Slice) : uncompressBlock o.snappy (blockContents o raw).1 (blockContents o raw).2.toByte =
      .ok raw := by
  have hraw : uncompressBlock o.snappy raw CompressionType.none.toByte = .ok raw := if_pos rfl
  unfold TableBuilder.blockContents
  split
  · exact hraw
  · split
    · next c hc =>
      split_ifs
      · unfold uncompressBlock
        dsimp only
        rw [if_neg (by decide), if_pos rfl, hsnappy.getUncompressedLength hc, hsnappy.uncompress hc]
        dsimp only
        rw [List.take_length]
      · exact hraw
    · exact hraw

/-- The bytes of a block with its trailer. -/
def TableBuilder.storedBlock (o : TableOptions) (raw : Slice) : Slice :=
  (blockContents o raw).1 ++ trailer (blockContents o raw).1 (blockContents o raw).2

/-- The length of a block with its trailer. -/
theorem TableBuilder.length_storedBlock (o : TableOptions) (raw : Slice) :
    (storedBlock o raw).length = (blockContents o raw).1.length + kBlockTrailerSize := by
  unfold storedBlock trailer
  rw [List.length_append, List.length_cons, encodeFixed32_length]
  rfl

/-- `ReadBlock` returns the block that was written. -/
theorem readBlock_stored {o : TableOptions} (hsnappy : o.snappy.Correct) {file : RandomAccessFile}
    {front raw back : Slice} (hfile : file.Has (front ++ (TableBuilder.storedBlock o raw ++ back)))
    (hlength : (front ++ (TableBuilder.storedBlock o raw ++ back)).length < 2^64) (verify : Bool) :
    readBlock o.snappy file verify ⟨front.length, (TableBuilder.blockContents o raw).1.length⟩ =
      .ok (Block.new raw) := by
  have hstored := TableBuilder.length_storedBlock o raw
  have huncompress := TableBuilder.uncompressBlock_blockContents hsnappy raw
  have hbytes : TableBuilder.storedBlock o raw = (TableBuilder.blockContents o raw).1 ++
    TableBuilder.trailer (TableBuilder.blockContents o raw).1 (TableBuilder.blockContents o raw).2 := rfl
  rw [List.length_append, List.length_append] at hlength
  generalize TableBuilder.blockContents o raw = stored at *
  obtain ⟨contents, type⟩ := stored
  dsimp only at *
  have hread : file.read front.length ((contents.length + kBlockTrailerSize) % 2^64) =
      .ok (TableBuilder.storedBlock o raw) := by
    rw [Nat.mod_eq_of_lt (by omega), ← hstored]
    rw [hfile (by rw [List.length_append, List.length_append]; omega), List.drop_left, List.take_left]
  -- The builder extends the checksum by the type; the reader takes it over both at once.
  have hchecksum : Crc32c.value 0 ((TableBuilder.storedBlock o raw).take (contents.length + 1)) =
      Crc32c.unmask (decodeFixed32 ((TableBuilder.storedBlock o raw).drop (contents.length + 1))) := by
    have hsplit : TableBuilder.storedBlock o raw = contents ++ [type.toByte] ++ encodeFixed32
        (Crc32c.mask (Crc32c.extend 0 (Crc32c.value 0 contents) [type.toByte])) := by
      rw [hbytes, List.append_assoc]
      rfl
    have hcrc : Crc32c.value 0 contents < 2^32 := Crc32c.extend_lt (by decide) 0 contents
    have hlength' : (contents ++ [type.toByte]).length = contents.length + 1 := by
      rw [List.length_append, List.length_singleton]
    rw [hsplit, ← hlength', List.take_left, List.drop_left, ← List.append_nil (encodeFixed32 _),
      decodeFixed32_encodeFixed32 (Crc32c.mask_lt _),
      Crc32c.unmask_mask (Crc32c.extend_lt hcrc 0 _)]
    exact (Crc32c.extend_append (by decide) 0 0 0 _ _).symm
  have hdata : (TableBuilder.storedBlock o raw).take contents.length = contents := by
    rw [hbytes, List.take_left]
  have htype : (TableBuilder.storedBlock o raw).getD contents.length 0 = type.toByte := by
    rw [hbytes, List.getD_eq_getElem?_getD, List.getElem?_append_right le_rfl, Nat.sub_self]
    rfl
  unfold readBlock
  dsimp only
  rw [hread]
  simp only [bind, Except.bind]
  rw [hstored, Nat.mod_eq_of_lt (by omega), if_neg (not_not.mpr rfl), if_neg (fun h => h.2 hchecksum),
    hdata, htype, huncompress]

/-! ## The builder -/

/-- A data block that was written. -/
structure WrittenBlock where
  /-- The entries. -/
  entries : List (Slice × Slice)
  /-- Where it is in the file. -/
  position : ℕ

/-- The bytes of a block, before compression. -/
def WrittenBlock.raw (o : TableOptions) (w : WrittenBlock) : Slice :=
  (BlockBuilder.ofList o.blockRestartInterval w.entries).finish

/-- The handle of a block. -/
def WrittenBlock.handle (o : TableOptions) (w : WrittenBlock) : BlockHandle :=
  ⟨w.position % 2^64, (TableBuilder.blockContents o (w.raw o)).1.length⟩

/-- The entry of a block in the index, with a separator as its key. -/
def WrittenBlock.indexEntry (o : TableOptions) (w : WrittenBlock × Slice) : Slice × Slice :=
  (w.2, (w.1.handle o).encodeTo)

/-- A block is in a file, and was written by a builder. -/
structure WrittenBlock.Stored (o : TableOptions) (b : TableBuilder) (w : WrittenBlock) : Prop where
  /-- There is an entry. -/
  nonempty : w.entries ≠ []
  /-- The block was written. -/
  mem_blocks : w.raw o ∈ b.blocks
  /-- Where it is in the file. -/
  file : ∃ front back, front.length = w.position ∧
    b.file = front ++ (TableBuilder.storedBlock o (w.raw o) ++ back)

/-- A block stays in a file that gets longer. -/
theorem WrittenBlock.Stored.mono {o : TableOptions} {b b' : TableBuilder} {w : WrittenBlock}
    (h : w.Stored o b) (hblocks : b.blocks ⊆ b'.blocks) {more : Slice} (hfile : b'.file = b.file ++ more) :
    w.Stored o b' := by
  obtain ⟨front, back, hfront, hback⟩ := h.file
  refine ⟨h.nonempty, hblocks h.mem_blocks, front, back ++ more, hfront, ?_⟩
  rw [hfile, hback]
  simp only [List.append_assoc]

/-- A block ends in the file. -/
theorem WrittenBlock.Stored.position_lt {o : TableOptions} {b : TableBuilder} {w : WrittenBlock}
    (h : w.Stored o b) : w.position < b.file.length := by
  obtain ⟨front, back, hfront, hback⟩ := h.file
  have hstored := TableBuilder.length_storedBlock o (w.raw o)
  unfold kBlockTrailerSize at hstored
  rw [hback, List.length_append, List.length_append]
  omega

/-- The last key of a list, or the empty one. -/
def lastKeyOf (l : List (Slice × Slice)) : Slice := (l.getLast?.map Prod.fst).getD []

/-- What a builder has: blocks with a separator in the index, perhaps one that waits for it, and the
entries of the block that is being built. -/
structure TableBuilder.Holds (o : TableOptions) (b : TableBuilder) (closed : List (WrittenBlock × Slice))
    (pending : Option WrittenBlock) (current : List (Slice × Slice)) : Prop where
  /-- The offset is the length of the file, as a 64-bit word. -/
  offset : b.offset = b.file.length % 2^64
  /-- The blocks are in the file. -/
  stored : ∀ w ∈ closed.map Prod.fst ++ pending.toList, w.Stored o b
  /-- They are at different places. -/
  positions : (closed.map Prod.fst ++ pending.toList).Pairwise fun w w' => w.position < w'.position
  /-- The block that is being built. -/
  data : b.dataBlock = .ofList o.blockRestartInterval current
  /-- The index. -/
  index : b.indexBlock = .ofList 1 (closed.map (WrittenBlock.indexEntry o))
  /-- Whether a block waits for its entry. -/
  pendingIndexEntry : b.pendingIndexEntry = pending.isSome
  /-- Its handle. Then no other block is being built. -/
  pendingHandle : ∀ w ∈ pending, b.pendingHandle = w.handle o ∧ current = []

/-- The separators in the index are between the keys of the blocks. -/
structure Separated (cmp : Comparator) (closed : List (WrittenBlock × Slice)) (rest : List (Slice × Slice)) :
    Prop where
  /-- The keys of a block are not above its separator. -/
  le_separator : ∀ w ∈ closed, ∀ q ∈ w.1.entries, cmp.Le q.1 w.2
  /-- The keys of later blocks are. -/
  separator_lt : closed.Pairwise fun w w' => ∀ q ∈ w'.1.entries, cmp.Lt w.2 q.1
  /-- So are the keys that come behind them. -/
  separator_lt_rest : ∀ w ∈ closed, ∀ q ∈ rest, cmp.Lt w.2 q.1

/-- One more separator, behind the keys of its block and before those that follow. -/
theorem Separated.snoc {cmp : Comparator} {closed : List (WrittenBlock × Slice)} {w : WrittenBlock}
    (h : Separated cmp closed w.entries) {separator : Slice}
    (hle : ∀ q ∈ w.entries, cmp.Le q.1 separator) {rest : List (Slice × Slice)}
    (hlt : ∀ q ∈ rest, cmp.Lt separator q.1) (hrest : ∀ w ∈ closed, ∀ q ∈ rest, cmp.Lt w.2 q.1) :
    Separated cmp (closed ++ [(w, separator)]) rest := by
  refine ⟨?_, ?_, ?_⟩
  · rw [List.forall_mem_append, List.forall_mem_singleton]
    exact ⟨h.le_separator, hle⟩
  · rw [List.pairwise_append]
    refine ⟨h.separator_lt, List.pairwise_singleton _ _, fun w' hw' w'' hw'' => ?_⟩
    rw [List.mem_singleton.mp hw'']
    exact h.separator_lt_rest w' hw'
  · rw [List.forall_mem_append, List.forall_mem_singleton]
    exact ⟨hrest, hlt⟩

namespace TableBuilder

variable {o : TableOptions} {b : TableBuilder} {closed : List (WrittenBlock × Slice)}
  {pending : Option WrittenBlock} {current : List (Slice × Slice)}

/-- A new table builder holds no entries and has no closed blocks. -/
theorem Holds.nil (o : TableOptions) : Holds o {} [] none [] where
  offset := rfl
  stored _ hw := absurd hw List.not_mem_nil
  positions := List.Pairwise.nil
  data := rfl
  index := rfl
  pendingIndexEntry := rfl
  pendingHandle _ hw := absurd hw (Option.not_mem_none _)

/-- The index entry of the block that waits for it. -/
theorem Holds.addIndexEntry {w : WrittenBlock} (h : Holds o b closed (some w) current) (key : Slice) :
    Holds o (b.addIndexEntry key) (closed ++ [(w, key)]) none [] := by
  obtain ⟨hhandle, rfl⟩ := h.pendingHandle w rfl
  have hwritten : (closed ++ [(w, key)]).map Prod.fst ++ (none : Option WrittenBlock).toList =
      closed.map Prod.fst ++ (some w).toList := by simp
  refine ⟨h.offset, fun w' hw' => ?_, hwritten ▸ h.positions, h.data, ?_, rfl,
    fun _ hw => absurd hw (Option.not_mem_none _)⟩
  · have hstored := h.stored w' (hwritten ▸ hw')
    exact ⟨hstored.nonempty, hstored.mem_blocks, hstored.file⟩
  · rw [List.map_append]
    unfold TableBuilder.addIndexEntry
    dsimp only
    rw [hhandle, h.index, List.map_singleton, BlockBuilder.ofList_concat, WrittenBlock.indexEntry]

/-- An entry for the block that is being built. -/
theorem Holds.addData (h : Holds o b closed none current) (key value : Slice) {b' : TableBuilder}
    (hb' : b' = { b with
      lastKey := key
      numEntries := b.numEntries + 1
      dataBlock := b.dataBlock.add o.blockRestartInterval key value }) :
    Holds o b' closed none (current ++ [(key, value)]) := by
  subst hb'
  refine ⟨h.offset, fun w hw => ?_, h.positions, ?_, h.index, h.pendingIndexEntry,
    fun _ hw => absurd hw (Option.not_mem_none _)⟩
  · have hstored := h.stored w hw
    exact ⟨hstored.nonempty, hstored.mem_blocks, hstored.file⟩
  · dsimp only
    rw [h.data]
    exact (BlockBuilder.ofList_concat _ _ (key, value)).symm

/-- `WriteBlock` appends the stored block with its trailer to the file, and its handle names the place. -/
theorem writeBlock_eq (o : TableOptions) (b : TableBuilder) (raw : Slice) :
    b.writeBlock o raw =
      ({ b with
          file := b.file ++ storedBlock o raw
          offset := (b.offset + (storedBlock o raw).length) % 2^64
          blocks := b.blocks ++ [raw] },
        ⟨b.offset, (blockContents o raw).1.length⟩) := by
  rw [length_storedBlock, ← Nat.add_assoc]
  unfold writeBlock storedBlock
  dsimp only
  rw [List.append_assoc]

/-- A block that is not one of the data blocks. -/
theorem Holds.writeBlock (h : Holds o b closed pending current) (raw : Slice) :
    Holds o (b.writeBlock o raw).1 closed pending current := by
  rw [writeBlock_eq]
  refine ⟨?_, fun w hw => ?_, h.positions, h.data, h.index, h.pendingIndexEntry, h.pendingHandle⟩
  · dsimp only
    rw [h.offset, List.length_append]
    omega
  · exact (h.stored w hw).mono (List.subset_append_left _ _) rfl

/-- `Flush` of a block with entries writes this block, whose index entry is pending then. -/
theorem Holds.flush (h : Holds o b closed none current) (hcurrent : current ≠ []) :
    Holds o (b.flush o) closed (some ⟨current, b.file.length⟩) [] := by
  have hempty : b.dataBlock.empty = false := by
    unfold BlockBuilder.empty
    rw [List.isEmpty_eq_false_iff]
    rw [h.data]
    exact fun hnil => hcurrent ((BlockBuilder.holds_ofList _ _).buffer_nil.mp hnil)
  unfold TableBuilder.flush
  rw [if_neg (by rw [hempty]; exact Bool.false_ne_true), writeBlock_eq]
  dsimp only
  have hpositions := h.positions
  have hstored := h.stored
  simp only [Option.toList_none, List.append_nil] at hpositions hstored
  -- What was closed stays where it is; the block that is written becomes the pending one.
  refine ⟨?_, ?_, ?_, rfl, h.index, rfl, ?_⟩
  · dsimp only
    rw [h.offset, List.length_append]
    omega
  · rw [Option.toList_some, List.forall_mem_append]
    constructor
    · intro w hw
      exact (hstored w hw).mono (List.subset_append_left _ _) rfl
    · rw [List.forall_mem_singleton]
      refine ⟨hcurrent, List.mem_append_right _ ?_, b.file, [], rfl, ?_⟩
      · rw [h.data]
        exact List.mem_singleton_self _
      · rw [List.append_nil, h.data]
        rfl
  · rw [Option.toList_some, List.pairwise_append]
    refine ⟨hpositions, List.pairwise_singleton _ _, fun w hw w' hw' => ?_⟩
    rw [List.mem_singleton.mp hw']
    exact (hstored w hw).position_lt
  · intro w hw
    obtain rfl := Option.some.inj hw
    refine ⟨?_, rfl⟩
    rw [h.offset, h.data]
    rfl

/-! ## Runs of a builder -/

/-- The entries that come behind the blocks with a separator. -/
def rest (pending : Option WrittenBlock) (current : List (Slice × Slice)) : List (Slice × Slice) :=
  pending.elim [] WrittenBlock.entries ++ current

/-- What a builder has after it was given a list. -/
structure Built (o : TableOptions) (b : TableBuilder) (l : List (Slice × Slice))
    (closed : List (WrittenBlock × Slice)) (pending : Option WrittenBlock)
    (current : List (Slice × Slice)) : Prop extends Holds o b closed pending current where
  /-- The entries are those of the list. -/
  entries : l = closed.flatMap (fun w => w.1.entries) ++ rest pending current
  /-- The last key. -/
  lastKey : b.lastKey = lastKeyOf l
  /-- The separators are between the keys. -/
  separated : Separated o.comparator closed (rest pending current)
  /-- There is an entry behind the last separator. -/
  rest_ne_nil : closed ≠ [] → rest pending current ≠ []

/-- A new table builder has built nothing and has nothing in its blocks. -/
theorem Built.nil (o : TableOptions) : Built o {} [] [] none [] where
  toHolds := Holds.nil o
  entries := rfl
  lastKey := rfl
  separated := ⟨fun _ hw => absurd hw List.not_mem_nil, List.Pairwise.nil,
    fun _ hw => absurd hw List.not_mem_nil⟩
  rest_ne_nil hne := absurd rfl hne

/-- The last key is one of the keys. -/
theorem exists_lastKeyOf {l : List (Slice × Slice)} (hne : l ≠ []) : ∃ q ∈ l, lastKeyOf l = q.1 := by
  refine ⟨l.getLast hne, List.getLast_mem hne, ?_⟩
  unfold lastKeyOf
  rw [List.getLast?_eq_some_getLast hne]
  rfl

/-- The last key is the largest. -/
theorem le_lastKeyOf {cmp : Comparator} (hcmp : cmp.TotalPreorder) {l : List (Slice × Slice)}
    (hsorted : l.Pairwise fun p q => cmp.Lt p.1 q.1) {q : Slice × Slice} (hq : q ∈ l) :
    cmp.Le q.1 (lastKeyOf l) := by
  obtain ⟨front, p, rfl⟩ := List.eq_nil_or_concat l |>.resolve_left (List.ne_nil_of_mem hq)
  unfold lastKeyOf
  rw [List.concat_eq_append, List.getLast?_concat]
  obtain hfront | hlast := List.mem_append.mp (List.concat_eq_append ▸ hq)
  · exact ((List.pairwise_append.mp (List.concat_eq_append ▸ hsorted)).2.2 q hfront p
      (List.mem_singleton_self p)).le
  · rw [List.mem_singleton.mp hlast]
    exact (hcmp.refl _).le

/-- A new key is above all separators. -/
theorem Built.separator_lt {l : List (Slice × Slice)} (h : Built o b l closed pending current)
    (hcmp : o.comparator.TotalPreorder) {key : Slice} (hkey : ∀ q ∈ l, o.comparator.Lt q.1 key) :
    ∀ w ∈ closed, o.comparator.Lt w.2 key := by
  intro w hw
  obtain ⟨q, hq⟩ := List.exists_mem_of_ne_nil _ (h.rest_ne_nil (List.ne_nil_of_mem hw))
  have hql : q ∈ l := by
    rw [h.entries]
    exact List.mem_append_right _ hq
  exact hcmp.lt_trans (h.separated.separator_lt_rest w hw q hq) (hkey q hql)

/-- The keys of a block that waits for its entry are not above the last key. -/
theorem Built.le_lastKey {l : List (Slice × Slice)} (h : Built o b l closed pending current)
    (hcmp : o.comparator.TotalPreorder) (hsorted : l.Pairwise fun p q => o.comparator.Lt p.1 q.1)
    {w : WrittenBlock} (hw : pending = some w) : ∀ q ∈ w.entries, o.comparator.Le q.1 b.lastKey := by
  intro q hq
  rw [h.lastKey]
  apply le_lastKeyOf hcmp hsorted
  rw [h.entries, hw]
  exact List.mem_append_right _ (List.mem_append_left _ hq)

/-- `Flush` of a block with entries writes this block, and what has been built stays the same. -/
theorem Built.flush {l : List (Slice × Slice)} (h : Built o b l closed none current)
    (hcurrent : current ≠ []) :
    Built o (b.flush o) l closed (some ⟨current, b.file.length⟩) [] := by
  have hrest : rest (some ⟨current, b.file.length⟩) [] = rest none current :=
    List.append_nil _
  refine ⟨h.toHolds.flush hcurrent, hrest ▸ h.entries, ?_, hrest ▸ h.separated, hrest ▸ h.rest_ne_nil⟩
  rw [← h.lastKey]
  unfold TableBuilder.flush
  split_ifs
  · rfl
  · rw [writeBlock_eq]

/-- The first part of `Add`: a block that waits for its entry in the index gets it. -/
theorem Built.addPending (hcmp : o.comparator.TotalPreorder) (hshort : o.comparator.Shortens)
    {l : List (Slice × Slice)} (h : Built o b l closed pending current) {key value : Slice}
    (hsorted : (l ++ [(key, value)]).Pairwise fun p q => o.comparator.Lt p.1 q.1) :
    ∃ closed' current', Holds o
        (if b.pendingIndexEntry then
          b.addIndexEntry (o.comparator.findShortestSeparator b.lastKey key)
        else b) closed' none current' ∧
      l = closed'.flatMap (fun w => w.1.entries) ++ current' ∧
      Separated o.comparator closed' (current' ++ [(key, value)]) := by
  obtain ⟨hl, -, hbelow⟩ := List.pairwise_append.mp hsorted
  have hkey : ∀ q ∈ l, o.comparator.Lt q.1 key := fun q hq => hbelow q hq _ (List.mem_singleton_self _)
  have hseparators := h.separator_lt hcmp hkey
  have hentries := h.entries
  have hseparated := h.separated
  rw [h.pendingIndexEntry]
  cases hpending : pending with
  | none =>
    subst hpending
    refine ⟨closed, current, h.toHolds, hentries, hseparated.le_separator, hseparated.separator_lt, ?_⟩
    intro w hw
    rw [List.forall_mem_append, List.forall_mem_singleton]
    exact ⟨hseparated.separator_lt_rest w hw, hseparators w hw⟩
  | some w =>
    subst hpending
    obtain ⟨-, rfl⟩ := h.pendingHandle w rfl
    -- The separator is between the last key and the new one.
    have hlast : o.comparator.Lt b.lastKey key := by
      have hne : w.entries ≠ [] := (h.stored w (List.mem_append_right _ List.mem_cons_self)).nonempty
      obtain ⟨q, hq, hlastKey⟩ : ∃ q ∈ l, lastKeyOf l = q.1 := by
        apply exists_lastKeyOf
        rw [hentries]
        exact List.append_ne_nil_of_right_ne_nil _ (List.append_ne_nil_of_left_ne_nil hne _)
      rw [h.lastKey, hlastKey]
      exact hkey q hq
    obtain ⟨hle, hlt⟩ := hshort.separator hlast
    refine ⟨_, [], h.toHolds.addIndexEntry _, ?_, ?_⟩
    · rw [hentries, List.flatMap_append]
      simp [rest]
    · have hrest : rest (some w) [] = w.entries := List.append_nil _
      rw [hrest] at hseparated
      refine hseparated.snoc ?_ ?_ ?_
      · intro q hq
        exact hcmp.trans (h.le_lastKey hcmp hl rfl q hq) hle
      · rw [List.nil_append, List.forall_mem_singleton]
        exact hlt
      · intro w' hw'
        rw [List.nil_append, List.forall_mem_singleton]
        exact hseparators w' hw'

/-- `Add` of a key above all keys before it. -/
theorem Built.add (hcmp : o.comparator.TotalPreorder) (hshort : o.comparator.Shortens)
    {l : List (Slice × Slice)} (h : Built o b l closed pending current) {key value : Slice}
    (hsorted : (l ++ [(key, value)]).Pairwise fun p q => o.comparator.Lt p.1 q.1) :
    ∃ closed' pending' current', Built o (b.add o key value) (l ++ [(key, value)]) closed' pending'
      current' := by
  obtain ⟨closed', current', hholds, hentries, hseparated⟩ := h.addPending hcmp hshort hsorted
  unfold TableBuilder.add
  generalize (if b.pendingIndexEntry then
    b.addIndexEntry (o.comparator.findShortestSeparator b.lastKey key) else b) = b' at hholds ⊢
  have hne : current' ++ [(key, value)] ≠ [] :=
    List.append_ne_nil_of_right_ne_nil _ (List.cons_ne_nil _ _)
  have hbuilt : Built o
      { b' with
        lastKey := key
        numEntries := b'.numEntries + 1
        dataBlock := b'.dataBlock.add o.blockRestartInterval key value }
      (l ++ [(key, value)]) closed' none (current' ++ [(key, value)]) := by
    refine ⟨hholds.addData key value rfl, ?_, ?_, hseparated, fun _ => hne⟩
    · rw [hentries, List.append_assoc]
      rfl
    · unfold lastKeyOf
      rw [List.getLast?_concat]
      rfl
  dsimp only
  split_ifs
  · exact ⟨_, _, _, hbuilt.flush hne⟩
  · exact ⟨_, _, _, hbuilt⟩

/-- A run of `Add` calls with increasing keys. -/
theorem Built.foldl_add (hcmp : o.comparator.TotalPreorder) (hshort : o.comparator.Shortens) :
    ∀ (more : List (Slice × Slice)) {b : TableBuilder} {l : List (Slice × Slice)}
      {closed : List (WrittenBlock × Slice)} {pending : Option WrittenBlock}
      {current : List (Slice × Slice)}, Built o b l closed pending current →
      ((l ++ more).Pairwise fun p q => o.comparator.Lt p.1 q.1) →
      ∃ closed' pending' current', Built o (more.foldl (fun b p => b.add o p.1 p.2) b) (l ++ more)
        closed' pending' current'
  | [], b, l, closed, pending, current, h, _ => by
    rw [List.append_nil]
    exact ⟨closed, pending, current, h⟩
  | p :: more, b, l, closed, pending, current, h, hsorted => by
    rw [List.append_cons] at hsorted ⊢
    obtain ⟨closed', pending', current', hadd⟩ := h.add hcmp hshort (List.pairwise_append.mp hsorted).1
    exact Built.foldl_add hcmp hshort more hadd hsorted

/-- The last `Flush` leaves no entries in the block that is being built. -/
theorem Built.flushAll {l : List (Slice × Slice)} (h : Built o b l closed pending current) :
    ∃ pending', Built o (b.flush o) l closed pending' [] := by
  by_cases hcurrent : current = []
  · subst hcurrent
    have hempty : b.dataBlock.empty = true := by
      unfold BlockBuilder.empty
      rw [h.data]
      rfl
    refine ⟨pending, ?_⟩
    unfold TableBuilder.flush
    rw [if_pos hempty]
    exact h
  · -- No block waits for its entry while another one is being built.
    cases hpending : pending with
    | none =>
      subst hpending
      exact ⟨_, h.flush hcurrent⟩
    | some w => exact absurd (h.pendingHandle w hpending).2 hcurrent

/-- Every block has an entry in the index, after the last key got a short successor. -/
theorem Built.closePending (hcmp : o.comparator.TotalPreorder) (hshort : o.comparator.Shortens)
    {l : List (Slice × Slice)} (h : Built o b l closed pending [])
    (hsorted : l.Pairwise fun p q => o.comparator.Lt p.1 q.1) :
    ∃ closed', Holds o (if b.pendingIndexEntry then
          b.addIndexEntry (o.comparator.findShortSuccessor b.lastKey) else b) closed' none [] ∧
      closed'.map Prod.fst = closed.map Prod.fst ++ pending.toList ∧
      closed'.flatMap (fun w => w.1.entries) = l ∧ Separated o.comparator closed' [] ∧
      ∀ w ∈ closed'.getLast?, w.2 = o.comparator.findShortSuccessor (lastKeyOf l) := by
  have hentries := h.entries
  have hseparated := h.separated
  rw [h.pendingIndexEntry]
  cases hpending : pending with
  | none =>
    subst hpending
    refine ⟨closed, h.toHolds, (List.append_nil _).symm, ?_, hseparated, ?_⟩
    · rw [hentries]
      exact (List.append_nil _).symm
    · -- There would be an entry behind the last separator.
      obtain rfl : closed = [] := by
        by_contra hne
        exact h.rest_ne_nil hne rfl
      exact fun w hw => absurd hw (Option.not_mem_none w)
  | some w =>
    subst hpending
    have hrest : rest (some w) [] = w.entries := List.append_nil _
    rw [hrest] at hseparated hentries
    refine ⟨_, h.toHolds.addIndexEntry _, List.map_append, ?_, hseparated.snoc ?_ ?_ ?_, ?_⟩
    · rw [hentries, List.flatMap_append, List.flatMap_singleton]
    · intro q hq
      exact hcmp.trans (h.le_lastKey hcmp hsorted rfl q hq) (hshort.successor _)
    · exact fun q hq => absurd hq List.not_mem_nil
    · exact fun _ _ q hq => absurd hq List.not_mem_nil
    · intro w' hw'
      rw [List.getLast?_concat] at hw'
      rw [← Option.some.inj hw', h.lastKey]

/-- A block that is not one of the data blocks, and its handle. -/
theorem Built.writeMetaindex {l : List (Slice × Slice)} (h : Built o b l closed pending current)
    (raw : Slice) :
    Built o (b.writeBlock o raw).1 l closed pending current ∧
      (b.writeBlock o raw).2.offset = b.file.length % 2^64 ∧
      b.file.length ≤ (b.writeBlock o raw).1.file.length ∧
      (b.writeBlock o raw).2.size ≤ (b.writeBlock o raw).1.file.length := by
  refine ⟨⟨h.toHolds.writeBlock raw, h.entries, ?_, h.separated, h.rest_ne_nil⟩, ?_, ?_, ?_⟩
  · rw [writeBlock_eq]
    exact h.lastKey
  · rw [writeBlock_eq]
    exact h.offset
  · rw [writeBlock_eq]
    dsimp only
    rw [List.length_append]
    exact Nat.le_add_right _ _
  · rw [writeBlock_eq]
    dsimp only
    rw [List.length_append, length_storedBlock]
    omega

end TableBuilder

/-- A block is in a file, behind the data blocks. -/
def BlockHandle.Behind (h : BlockHandle) (b : TableBuilder) (closed : List (WrittenBlock × Slice)) : Prop :=
  ∃ position ≤ b.file.length, h.offset = position % 2^64 ∧ ∀ w ∈ closed, w.1.position < position

/-- Its offset is a 64-bit word. -/
theorem BlockHandle.Behind.offset_lt {h : BlockHandle} {b : TableBuilder}
    {closed : List (WrittenBlock × Slice)} (hbehind : h.Behind b closed) : h.offset < 2^64 := by
  obtain ⟨position, -, hoffset, -⟩ := hbehind
  rw [hoffset]
  exact Nat.mod_lt _ (by decide)

/-- What a finished table file has. -/
structure TableLayout (o : TableOptions) (b : TableBuilder) (l : List (Slice × Slice))
    (closed : List (WrittenBlock × Slice)) : Prop where
  /-- The entries of the blocks. -/
  entries : closed.flatMap (fun w => w.1.entries) = l
  /-- The blocks are in the file. -/
  stored : ∀ w ∈ closed, w.1.Stored o b
  /-- They are at different places. -/
  positions : closed.Pairwise fun w w' => w.1.position < w'.1.position
  /-- The separators are between the keys. -/
  separated : Separated o.comparator closed []
  /-- The last one is a successor of the last key. -/
  last_separator : ∀ w ∈ closed.getLast?, w.2 = o.comparator.findShortSuccessor (lastKeyOf l)
  /-- `FileSize` is the length of the file, as a 64-bit word. -/
  offset : b.offset = b.file.length % 2^64
  /-- The index block and the footer. -/
  index : ∃ (raw front : Slice) (metaindexHandle : BlockHandle),
    raw = (BlockBuilder.ofList 1 (closed.map (WrittenBlock.indexEntry o))).finish ∧ raw ∈ b.blocks ∧
      metaindexHandle.Behind b closed ∧ metaindexHandle.size ≤ b.file.length ∧
      b.file = front ++ (TableBuilder.storedBlock o raw ++ Footer.encodeTo ⟨metaindexHandle,
        ⟨front.length % 2^64, (TableBuilder.blockContents o raw).1.length⟩⟩)

/-- The file that a builder finishes. -/
theorem exists_tableLayout {o : TableOptions} (hcmp : o.comparator.TotalPreorder)
    (hshort : o.comparator.Shortens) {pairs : List (Slice × Slice)}
    (hsorted : pairs.Pairwise fun p q => o.comparator.Lt p.1 q.1) :
    ∃ closed, TableLayout o (writeTable o pairs) pairs closed := by
  obtain ⟨closed, pending, current, hbuilt⟩ := (TableBuilder.Built.nil o).foldl_add hcmp hshort pairs hsorted
  rw [List.nil_append] at hbuilt
  obtain ⟨pending, hbuilt⟩ := hbuilt.flushAll
  unfold writeTable TableBuilder.finish
  generalize TableBuilder.flush o _ = b at hbuilt ⊢
  dsimp only
  -- The metaindex block is no data block.
  obtain ⟨hmeta, hoffset, hposition, hsize⟩ := hbuilt.writeMetaindex ({} : BlockBuilder).finish
  generalize b.writeBlock o ({} : BlockBuilder).finish = written at hmeta hoffset hposition hsize ⊢
  obtain ⟨b', metaindexHandle⟩ := written
  dsimp only at hmeta hoffset hposition hsize ⊢
  obtain ⟨closed', hholds, hblocks, hentries, hseparated, hlast⟩ := hmeta.closePending hcmp hshort hsorted
  have hfile : (if b'.pendingIndexEntry then
      b'.addIndexEntry (o.comparator.findShortSuccessor b'.lastKey) else b').file = b'.file := by
    split_ifs <;> rfl
  generalize (if b'.pendingIndexEntry then
    b'.addIndexEntry (o.comparator.findShortSuccessor b'.lastKey) else b') = b'' at hholds hfile ⊢
  rw [TableBuilder.writeBlock_eq]
  dsimp only
  have hstored := hholds.stored
  have hpositions := hholds.positions
  rw [Option.toList_none, List.append_nil] at hstored hpositions
  have hpositions' := List.pairwise_map.mp hpositions
  refine ⟨closed', hentries, ?_, hpositions', hseparated, hlast, ?_, ?_⟩
  · intro w hw
    exact (hstored w.1 (List.mem_map_of_mem hw)).mono (List.subset_append_left _ _)
      (List.append_assoc _ _ _)
  · dsimp only
    rw [hholds.offset]
    simp only [List.length_append]
    omega
  · refine ⟨b''.indexBlock.finish, b''.file, metaindexHandle, by rw [hholds.index],
      List.mem_append_right _ (List.mem_singleton_self _), ⟨b.file.length, ?_, hoffset, ?_⟩, ?_, ?_⟩
    · rw [hfile]
      simp only [List.length_append]
      omega
    · -- The data blocks were there before.
      intro w hw
      exact (hbuilt.stored w.1 (hblocks ▸ List.mem_map_of_mem hw)).position_lt
    · rw [hfile]
      simp only [List.length_append]
      omega
    · rw [hholds.offset, List.append_assoc]

end LevelDb
