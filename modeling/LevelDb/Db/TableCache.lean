import LevelDb.Table.WellFormed
import LevelDb.Util.Cache

/-!
# The table cache and the block cache

`TableCache` of `db/table_cache.cc` with `Table::BlockReader` of `table/table.cc`, as the threads of a
database run them. The caches, the iterators that are in use and the calls that have met a miss and are
still reading a file are a state, and the steps are the parts of the calls between which a mutex is free.
A step that would touch an entry that is gone from a cache has no result. The table files do not change.
-/

namespace LevelDb

/-! ## Files -/

/-- The table files of a database, and how they are read. -/
structure TableFiles where
  /-- `options.comparator` -/
  comparator : Comparator
  /-- The functions for compressed blocks. -/
  snappy : Snappy
  /-- `NewRandomAccessFile`, for a file number. -/
  newRandomAccessFile : UInt64 → Except Status RandomAccessFile
  /-- The size of a file, which the callers of `NewIterator` know. -/
  fileSize : UInt64 → ℕ

/-- A table is opened. -/
def TableFiles.openTable (files : TableFiles) (fileNumber : UInt64) : Except Status Table := do
  let file ← files.newRandomAccessFile fileNumber
  Table.open files.comparator files.snappy file (files.fileSize fileNumber)

/-- The files that can be opened are well formed. -/
def TableFiles.WellFormed (files : TableFiles) : Prop :=
  ∀ {fileNumber : UInt64} {t : Table}, files.openTable fileNumber = .ok t → t.WellFormed

/-! ## State -/

/-- `TableAndFile`, with the `cache_id` of the table. -/
structure TableAndFile where
  /-- `table`, which has the file. -/
  table : Table
  /-- `cache_id` -/
  cacheId : UInt64

/-- A call of `BlockReader` that is about to read its block. -/
structure BlockRead where
  /-- `options.verify_checksums` -/
  verifyChecksums : Bool
  /-- `options.fill_cache` -/
  fillCache : Bool
  /-- `index_value` -/
  indexValue : Slice
  /-- `handle` -/
  handle : BlockHandle

/-- An iterator that `TableCache::NewIterator` returned. -/
structure TableUser where
  /-- The handle that its cleanup function releases. -/
  handle : CacheHandle
  /-- The `file_number` that it was made for. -/
  fileNumber : UInt64
  /-- Its call of `BlockReader`, while there is one. -/
  reading : Option BlockRead := none

/-- Where a block is, and what the cleanup function of its iterator does. -/
inductive BlockPlace where
  /-- The iterator has the block: `DeleteBlock`. -/
  | owned (block : Block)
  /-- The block is in the block cache: `ReleaseBlock`. -/
  | cached (handle : CacheHandle)

/-- The handle that is released. -/
def BlockPlace.handle? : BlockPlace → Option CacheHandle
  | .owned _ => none
  | .cached handle => some handle

/-- An iterator that `BlockReader` returned, with what it was called for. -/
structure BlockUser where
  /-- The block. -/
  place : BlockPlace
  /-- The `file_number` of the table. -/
  fileNumber : UInt64
  /-- `options.verify_checksums` -/
  verifyChecksums : Bool
  /-- `index_value` -/
  indexValue : Slice

/-- The caches and their users. -/
structure Caches where
  /-- `cache_` -/
  cache : ShardedLRUCache TableAndFile
  /-- `options_->block_cache` -/
  blockCache : Option (ShardedLRUCache Block)
  /-- The calls of `NewIterator` that have found nothing in the cache. -/
  opening : List UInt64 := []
  /-- The table iterators. -/
  tables : List TableUser := []
  /-- The block iterators. -/
  blocks : List BlockUser := []
  /-- The files that got the numbers of the block cache so far, in their order. -/
  numbered : List UInt64 := []

namespace Caches

/-- `TableCache::TableCache`, with a block cache or without. -/
def new (entries : ℕ) (blockCapacity : Option ℕ) : Caches where
  cache := newLRUCache TableAndFile entries
  blockCache := blockCapacity.map (newLRUCache Block)

/-- The key of a table. -/
def tableKey (fileNumber : UInt64) : Slice := encodeFixed64 fileNumber.toNat

/-- The key of a block. -/
def blockKey (cacheId : UInt64) (offset : ℕ) : Slice := encodeFixed64 cacheId.toNat ++ encodeFixed64 offset

/-- The block at a place. -/
def blockIn (blockCache : Option (ShardedLRUCache Block)) : BlockPlace → Option Block
  | .owned block => some block
  | .cached handle => blockCache.bind fun c => c.value handle

/-! ## Steps -/

/-- The number of a table that is opened. -/
def nextCacheId (s : Caches) : UInt64 := (s.blockCache.map fun c => c.newId.1).getD 0

/-- `TableCache::NewIterator`, up to a miss. -/
def newIterator (s : Caches) (fileNumber : UInt64) : Option Caches := do
  let (r, cache) ← s.cache.lookup (tableKey fileNumber)
  match r with
  | some handle =>
    let _ ← cache.value handle
    some { s with cache := cache, tables := { handle := handle, fileNumber := fileNumber } :: s.tables }
  | none => some { s with cache := cache, opening := fileNumber :: s.opening }

/-- `TableCache::NewIterator`, from a miss on. -/
def openTable (files : TableFiles) (s : Caches) (i : ℕ) : Option Caches := do
  let fileNumber ← s.opening[i]?
  let s' := { s with opening := s.opening.eraseIdx i }
  match files.openTable fileNumber with
  | .error _ =>
    -- We do not cache error results.
    some s'
  | .ok table =>
    let (handle, cache) ← s.cache.insert (tableKey fileNumber) ⟨table, s.nextCacheId⟩ 1
    some
      { s' with
        cache := cache
        blockCache := s.blockCache.map fun c => c.newId.2
        tables := { handle := handle, fileNumber := fileNumber } :: s.tables
        numbered := if s.blockCache.isSome then s.numbered ++ [fileNumber] else s.numbered }

/-- `TableCache::Evict` -/
def evict (s : Caches) (fileNumber : UInt64) : Option Caches := do
  let cache ← s.cache.erase (tableKey fileNumber)
  some { s with cache := cache }

/-- `Table::BlockReader`, called by a table iterator, up to where it reads the file. -/
def blockReader (s : Caches) (i : ℕ) (verifyChecksums fillCache : Bool) (indexValue : Slice) :
    Option Caches := do
  let it ← s.tables[i]?
  let tf ← s.cache.value it.handle
  match BlockHandle.decodeFrom indexValue with
  | .error _ => some s
  | .ok (handle, _) =>
    let reading : BlockRead := ⟨verifyChecksums, fillCache, indexValue, handle⟩
    let s' := { s with tables := s.tables.set i { it with reading := some reading } }
    match s.blockCache with
    | none => some s'
    | some blockCache =>
      let (r, blockCache) ← blockCache.lookup (blockKey tf.cacheId handle.offset)
      match r with
      | some h =>
        let _ ← blockCache.value h
        some
          { s with
            blockCache := some blockCache
            blocks := ⟨.cached h, it.fileNumber, verifyChecksums, indexValue⟩ :: s.blocks }
      | none => some { s' with blockCache := some blockCache }

/-- `Table::BlockReader`, from where it reads the file. -/
def readBlock (s : Caches) (i : ℕ) : Option Caches := do
  let it ← s.tables[i]?
  let r ← it.reading
  let tf ← s.cache.value it.handle
  let s' := { s with tables := s.tables.set i { it with reading := none } }
  match LevelDb.readBlock tf.table.snappy tf.table.file r.verifyChecksums r.handle with
  | .error _ => some s'
  | .ok block =>
    match s.blockCache, r.fillCache with
    | some blockCache, true =>
      let (h, blockCache) ← blockCache.insert (blockKey tf.cacheId r.handle.offset) block block.size
      some
        { s' with
          blockCache := some blockCache
          blocks := ⟨.cached h, it.fileNumber, r.verifyChecksums, r.indexValue⟩ :: s.blocks }
    | _, _ =>
      some { s' with blocks := ⟨.owned block, it.fileNumber, r.verifyChecksums, r.indexValue⟩ :: s.blocks }

/-- A table iterator is destroyed: `UnrefEntry`. -/
def deleteTable (s : Caches) (i : ℕ) : Option Caches := do
  let it ← s.tables[i]?
  let cache ← s.cache.release it.handle
  some { s with cache := cache, tables := s.tables.eraseIdx i }

/-- A block iterator is destroyed: `DeleteBlock` or `ReleaseBlock`. -/
def deleteBlock (s : Caches) (i : ℕ) : Option Caches := do
  let b ← s.blocks[i]?
  let s' := { s with blocks := s.blocks.eraseIdx i }
  match b.place with
  | .owned _ => some s'
  | .cached handle =>
    let blockCache ← s.blockCache
    let blockCache ← blockCache.release handle
    some { s' with blockCache := some blockCache }

/-- The steps, with the index of the call or of the iterator that takes them. -/
inductive Action where
  /-- `NewIterator` is called. -/
  | newIterator (fileNumber : UInt64)
  /-- A call of `NewIterator` goes on. -/
  | openTable (i : ℕ)
  /-- `Evict` -/
  | evict (fileNumber : UInt64)
  /-- `BlockReader` is called. -/
  | blockReader (i : ℕ) (verifyChecksums fillCache : Bool) (indexValue : Slice)
  /-- A call of `BlockReader` goes on. -/
  | readBlock (i : ℕ)
  /-- A table iterator is destroyed. -/
  | deleteTable (i : ℕ)
  /-- A block iterator is destroyed. -/
  | deleteBlock (i : ℕ)

/-- A step. -/
def step (files : TableFiles) (s : Caches) : Action → Option Caches
  | .newIterator fileNumber => s.newIterator fileNumber
  | .openTable i => s.openTable files i
  | .evict fileNumber => s.evict fileNumber
  | .blockReader i verifyChecksums fillCache indexValue => s.blockReader i verifyChecksums fillCache indexValue
  | .readBlock i => s.readBlock i
  | .deleteTable i => s.deleteTable i
  | .deleteBlock i => s.deleteBlock i

/-- What the callers may do: an iterator is not used or destroyed while it is in a call, and `BlockReader`
is called for the values of the index. -/
def Enabled (s : Caches) : Action → Prop
  | .newIterator _ => True
  | .openTable i => i < s.opening.length
  | .evict _ => True
  | .blockReader i _ _ indexValue => ∃ it, s.tables[i]? = some it ∧ it.reading = none ∧
      ∀ tf, s.cache.value it.handle = some tf → tf.table.Indexes indexValue
  | .readBlock i => ∃ it r, s.tables[i]? = some it ∧ it.reading = some r
  | .deleteTable i => ∃ it, s.tables[i]? = some it ∧ it.reading = none
  | .deleteBlock i => i < s.blocks.length

/-- The states of a run in which every step is taken in a state with `cond`. -/
inductive Runs (files : TableFiles) (cond : Caches → Prop) (s : Caches) : Caches → Prop
  /-- The first state. -/
  | refl : Runs files cond s s
  /-- One more step. -/
  | step {x y : Caches} {a : Action} (hx : Runs files cond s x) (hcond : cond x) (ha : x.Enabled a)
    (hy : x.step files a = some y) : Runs files cond s y

end Caches

end LevelDb
