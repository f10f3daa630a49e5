import LevelDb.Table.Format

/-!
# Building a table

`TableBuilder` of `table/table_builder.cc`. The index entry of a block is not written until the first
key of the next one is known, so that a short key between the two can be used. All `Append` and `Flush`
calls on the file are taken to succeed.
-/

namespace LevelDb

/-- The `Options` that a table is built with, and Snappy. -/
structure TableOptions where
  /-- `comparator` -/
  comparator : Comparator
  /-- `block_size` -/
  blockSize : ℕ
  /-- `block_restart_interval` -/
  blockRestartInterval : ℕ
  /-- `compression` -/
  compression : CompressionType
  /-- The functions for compressed blocks. -/
  snappy : Snappy

/-- `TableBuilder::Rep`, with the bytes that the file has. -/
structure TableBuilder where
  /-- `file` -/
  file : Slice := []
  /-- `offset` -/
  offset : ℕ := 0
  /-- `data_block` -/
  dataBlock : BlockBuilder := {}
  /-- `index_block` -/
  indexBlock : BlockBuilder := {}
  /-- `last_key` -/
  lastKey : Slice := []
  /-- `num_entries` -/
  numEntries : ℕ := 0
  /-- `pending_index_entry` -/
  pendingIndexEntry : Bool := false
  /-- `pending_handle`: handle to add to index block. -/
  pendingHandle : BlockHandle := ⟨2^64 - 1, 2^64 - 1⟩
  /-- The blocks that were written, before compression. The code does not keep them. -/
  blocks : List Slice := []
  deriving DecidableEq

namespace TableBuilder

/-- What `WriteBlock` stores for a block, and its type. -/
def blockContents (o : TableOptions) (raw : Slice) : Slice × CompressionType :=
  match o.compression with
  | .none => (raw, .none)
  | .snappy =>
    match o.snappy.compress raw with
    | some compressed =>
      if compressed.length < raw.length - raw.length / 8 then (compressed, .snappy)
      -- Compressed less than 12.5%, so just store uncompressed form
      else (raw, .none)
    | none => (raw, .none)

/-- The trailer of a block: its type, and a checksum that covers the type. -/
def trailer (contents : Slice) (type : CompressionType) : Slice :=
  type.toByte ::
    encodeFixed32 (Crc32c.mask (Crc32c.extend 0 (Crc32c.value 0 contents) [type.toByte]))

/-- `WriteBlock` of a finished block. -/
def writeBlock (o : TableOptions) (b : TableBuilder) (raw : Slice) : TableBuilder × BlockHandle :=
  let (contents, type) := blockContents o raw
  ({ b with
      file := b.file ++ contents ++ trailer contents type
      offset := (b.offset + contents.length + kBlockTrailerSize) % 2^64
      blocks := b.blocks ++ [raw] },
    ⟨b.offset, contents.length⟩)

/-- The index entry for the block that was written last. -/
def addIndexEntry (b : TableBuilder) (key : Slice) : TableBuilder :=
  { b with
    lastKey := key
    -- `index_block_options.block_restart_interval` is 1.
    indexBlock := b.indexBlock.add 1 key b.pendingHandle.encodeTo
    pendingIndexEntry := false }

/-- `Flush` -/
def flush (o : TableOptions) (b : TableBuilder) : TableBuilder :=
  if b.dataBlock.empty then b
  else
    let (b', handle) := b.writeBlock o b.dataBlock.finish
    { b' with dataBlock := {}, pendingHandle := handle, pendingIndexEntry := true }

/-- `Add` -/
def add (o : TableOptions) (b : TableBuilder) (key value : Slice) : TableBuilder :=
  let b :=
    if b.pendingIndexEntry then
      b.addIndexEntry (o.comparator.findShortestSeparator b.lastKey key)
    else b
  let b :=
    { b with
      lastKey := key
      numEntries := b.numEntries + 1
      dataBlock := b.dataBlock.add o.blockRestartInterval key value }
  if o.blockSize ≤ b.dataBlock.currentSizeEstimate then b.flush o else b

/-- `Finish` -/
def finish (o : TableOptions) (b : TableBuilder) : TableBuilder :=
  let b := b.flush o
  let (b, metaindexHandle) := b.writeBlock o ({} : BlockBuilder).finish
  let b :=
    if b.pendingIndexEntry then b.addIndexEntry (o.comparator.findShortSuccessor b.lastKey) else b
  let (b, indexHandle) := b.writeBlock o b.indexBlock.finish
  let footer : Footer := ⟨metaindexHandle, indexHandle⟩
  { b with
    indexBlock := {}
    file := b.file ++ footer.encodeTo
    offset := (b.offset + footer.encodeTo.length) % 2^64 }

/-- `FileSize` -/
def fileSize (b : TableBuilder) : ℕ := b.offset

end TableBuilder

/-- The builder after `Add` calls and `Finish`. -/
def writeTable (o : TableOptions) (pairs : List (Slice × Slice)) : TableBuilder :=
  (pairs.foldl (fun b p => TableBuilder.add o b p.1 p.2) {}).finish o

end LevelDb
