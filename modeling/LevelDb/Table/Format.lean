import LevelDb.Lib.Buffer
import LevelDb.Table.TwoLevel
import LevelDb.Util.Crc32c

/-!
# Table files

The parts of a table file in `table/format.cc`, and `Table` of `table/table.cc` that reads it: the
footer at the end of the file leads to the index block, whose values are the handles of the data blocks.
A block is followed by its type and a checksum. Snappy is a parameter, and there is no block cache.
-/

namespace LevelDb

/-! ## Handles and footers -/

/-- `BlockHandle` -/
structure BlockHandle where
  /-- `offset_` -/
  offset : ℕ
  /-- `size_`, without the type and the checksum. -/
  size : ℕ
  deriving DecidableEq

/-- `BlockHandle::EncodeTo` -/
def BlockHandle.encodeTo (h : BlockHandle) : Slice := encodeVarint64 h.offset ++ encodeVarint64 h.size

/-- `BlockHandle::DecodeFrom`, with what follows the handle. -/
def BlockHandle.decodeFrom (input : Slice) : Except Status (BlockHandle × Slice) :=
  match (getVarint64 input).bind fun (offset, rest) =>
      (getVarint64 rest).map fun (size, rest) => (⟨offset, size⟩, rest) with
  | some r => .ok r
  | none => .error (.corruption (ascii "bad block handle"))

/-- `Footer` -/
structure Footer where
  /-- `metaindex_handle_` -/
  metaindexHandle : BlockHandle
  /-- `index_handle_` -/
  indexHandle : BlockHandle
  deriving DecidableEq

/-- `BlockHandle::kMaxEncodedLength` -/
def kMaxHandleLength : ℕ := 10 + 10

/-- `Footer::kEncodedLength` -/
def kFooterLength : ℕ := 2 * kMaxHandleLength + 8

/-- `kTableMagicNumber` -/
def kTableMagicNumber : ℕ := 0xdb4775248b80fb57

/-- `kBlockTrailerSize`: 1-byte type and 32-bit crc. -/
def kBlockTrailerSize : ℕ := 5

/-- `Footer::EncodeTo` an empty string. -/
def Footer.encodeTo (f : Footer) : Slice :=
  Lib.resize 0 (2 * kMaxHandleLength) (f.metaindexHandle.encodeTo ++ f.indexHandle.encodeTo) ++
    encodeFixed32 (kTableMagicNumber &&& 0xffffffff) ++ encodeFixed32 (kTableMagicNumber >>> 32)

/-- `Footer::DecodeFrom` -/
def Footer.decodeFrom (input : Slice) : Except Status Footer := do
  let magicPtr := input.drop (kFooterLength - 8)
  let magic := (decodeFixed32 (magicPtr.drop 4) <<< 32) ||| decodeFixed32 magicPtr
  if magic ≠ kTableMagicNumber then
    .error (.invalidArgument (ascii "not an sstable (bad magic number)"))
  else
    let (metaindexHandle, input) ← BlockHandle.decodeFrom input
    let (indexHandle, _) ← BlockHandle.decodeFrom input
    .ok ⟨metaindexHandle, indexHandle⟩

/-! ## Reading blocks -/

/-- The functions of `port` for Snappy. -/
structure Snappy where
  /-- `Snappy_Compress`, `none` if it is not supported. -/
  compress : Slice → Option Slice
  /-- `Snappy_GetUncompressedLength` -/
  getUncompressedLength : Slice → Option ℕ
  /-- `Snappy_Uncompress` -/
  uncompress : Slice → Option Slice

/-- `RandomAccessFile` -/
structure RandomAccessFile where
  /-- `Read` of a number of bytes at an offset. -/
  read : ℕ → ℕ → Except Status Slice

/-- `CompressionType` -/
inductive CompressionType where
  /-- `kNoCompression` -/
  | none
  /-- `kSnappyCompression` -/
  | snappy
  deriving DecidableEq

/-- The byte of a compression type. -/
def CompressionType.toByte : CompressionType → UInt8
  | .none => 0
  | .snappy => 1

/-- The contents of a block from its stored form and its type byte. -/
def uncompressBlock (snappy : Snappy) (data : Slice) (type : UInt8) : Except Status Slice :=
  if type = CompressionType.none.toByte then .ok data
  else if type = CompressionType.snappy.toByte then
    match snappy.getUncompressedLength data, snappy.uncompress data with
    | some ulength, some ubuf => .ok (ubuf.take ulength)
    | _, _ => .error (.corruption (ascii "corrupted compressed block contents"))
  else .error (.corruption (ascii "bad block type"))

/-- `ReadBlock`, with `verify_checksums`. The number of bytes to read is a `size_t`. -/
def readBlock (snappy : Snappy) (file : RandomAccessFile) (verifyChecksums : Bool)
    (handle : BlockHandle) : Except Status Block := do
  let n := handle.size
  let contents ← file.read handle.offset ((n + kBlockTrailerSize) % 2^64)
  if contents.length ≠ (n + kBlockTrailerSize) % 2^64 then
    .error (.corruption (ascii "truncated block read"))
  else if verifyChecksums = true ∧
      Crc32c.value 0 (contents.take (n + 1)) ≠ Crc32c.unmask (decodeFixed32 (contents.drop (n + 1))) then
    .error (.corruption (ascii "block checksum mismatch"))
  else
    let data ← uncompressBlock snappy (contents.take n) (contents.getD n 0)
    .ok (Block.new data)

/-! ## Tables -/

/-- `Table::Rep` -/
structure Table where
  /-- `options.comparator` -/
  comparator : Comparator
  /-- The functions for compressed blocks. -/
  snappy : Snappy
  /-- `file` -/
  file : RandomAccessFile
  /-- `metaindex_handle` -/
  metaindexHandle : BlockHandle
  /-- `index_block` -/
  indexBlock : Block

/-- `Table::Open`, for a file of a size. -/
def Table.open (comparator : Comparator) (snappy : Snappy) (file : RandomAccessFile) (size : ℕ) :
    Except Status Table := do
  if size < kFooterLength then
    .error (.invalidArgument (ascii "file is too short to be an sstable"))
  else
    let footerInput ← file.read (size - kFooterLength) kFooterLength
    let footer ← Footer.decodeFrom footerInput
    -- Read the index block
    let indexBlock ← readBlock snappy file false footer.indexHandle
    .ok
      { comparator := comparator
        snappy := snappy
        file := file
        metaindexHandle := footer.metaindexHandle
        indexBlock := indexBlock }

/-- The block of an index value. -/
def Table.blockOf (t : Table) (verifyChecksums : Bool) (indexValue : Slice) : Except Status Block := do
  -- We intentionally allow extra stuff in index_value.
  let (handle, _) ← BlockHandle.decodeFrom indexValue
  readBlock t.snappy t.file verifyChecksums handle

/-- `Table::BlockReader` -/
def Table.blockReader (t : Table) (verifyChecksums : Bool) (indexValue : Slice) : BlockIterator :=
  match t.blockOf verifyChecksums indexValue with
  | .ok block => block.newIterator t.comparator
  | .error s => .inl ⟨some s⟩

/-- The iterator of a table. -/
abbrev TableIterator := TwoLevelIterator BlockIterator BlockIterator

/-- `Table::NewIterator` -/
def Table.newIterator (t : Table) (verifyChecksums : Bool) : TableIterator where
  blockFunction := t.blockReader verifyChecksums
  index := t.indexBlock.newIterator t.comparator

end LevelDb
