import LevelDb.Lib.Iterator
import LevelDb.Util.Comparator
import LevelDb.Util.Varint
import LevelDb.Version.Edit

/-!
# Blocks

`BlockBuilder` of `table/block_builder.cc` and `Block` with its iterator of `table/block.cc`. An entry
stores how much of its key it shares with the key before it; at a restart point it shares nothing. The
offsets of the restart points stand behind the entries. Offsets and lengths are `uint32_t`: what is
stored or compared as one is taken modulo `2^32`.
-/

namespace LevelDb

/-! ## Building a block -/

/-- `BlockBuilder` -/
structure BlockBuilder where
  /-- `buffer_` -/
  buffer : Slice := []
  /-- `restarts_`. The first restart point is at offset 0. -/
  restarts : List ℕ := [0]
  /-- `counter_`: the number of entries since the last restart point. -/
  counter : ℕ := 0
  /-- `last_key_` -/
  lastKey : Slice := []
  deriving DecidableEq

/-- `BlockBuilder::Reset` -/
def BlockBuilder.reset (b : BlockBuilder) : BlockBuilder :=
  { b with
    buffer := []
    -- First restart point is at offset 0
    restarts := [0]
    counter := 0
    lastKey := [] }

/-- The bytes of an entry that shares the given number of bytes with the key before it. -/
def blockEntry (shared : ℕ) (key value : Slice) : Slice :=
  encodeVarint32 (shared % 2^32) ++ encodeVarint32 ((key.length - shared) % 2^32) ++
    encodeVarint32 (value.length % 2^32) ++ key.drop shared ++ value

/-- `BlockBuilder::Add`, with `block_restart_interval`. -/
def BlockBuilder.add (interval : ℕ) (b : BlockBuilder) (key value : Slice) : BlockBuilder :=
  if b.counter < interval then
    -- See how much sharing to do with previous string
    let shared := sharedLength b.lastKey key
    { buffer := b.buffer ++ blockEntry shared key value
      restarts := b.restarts
      counter := b.counter + 1
      lastKey := b.lastKey.take shared ++ key.drop shared }
  else
    -- Restart compression
    { buffer := b.buffer ++ blockEntry 0 key value
      restarts := b.restarts ++ [b.buffer.length % 2^32]
      counter := 1
      lastKey := key }

/-- `BlockBuilder::Finish` -/
def BlockBuilder.finish (b : BlockBuilder) : Slice :=
  b.buffer ++ b.restarts.flatMap encodeFixed32 ++ encodeFixed32 b.restarts.length

/-- `BlockBuilder::CurrentSizeEstimate` -/
def BlockBuilder.currentSizeEstimate (b : BlockBuilder) : ℕ :=
  b.buffer.length + b.restarts.length * 4 + 4

/-- `BlockBuilder::empty` -/
def BlockBuilder.empty (b : BlockBuilder) : Bool := b.buffer.isEmpty

/-! ## Decoding an entry -/

/-- `DecodeEntry` on the bytes from `p` to `limit`: `shared`, `non_shared`, `value_length` and the bytes
behind them. -/
def decodeEntry : Slice → Option (ℕ × ℕ × ℕ × Slice)
  | b0 :: b1 :: b2 :: rest =>
    let lengths :=
      if (b0.toNat ||| b1.toNat ||| b2.toNat) < 128 then
        -- Fast path: all three values are encoded in one byte each
        some (b0.toNat, b1.toNat, b2.toNat, rest)
      else
        (getVarint32 (b0 :: b1 :: b2 :: rest)).bind fun (shared, rest) =>
          (getVarint32 rest).bind fun (nonShared, rest) =>
            (getVarint32 rest).map fun (valueLength, rest) => (shared, nonShared, valueLength, rest)
    lengths.bind fun (shared, nonShared, valueLength, rest) =>
      if rest.length % 2^32 < (nonShared + valueLength) % 2^32 then none
      else some (shared, nonShared, valueLength, rest)
  | _ => none

/-! ## The iterator -/

/-- `Block::Iter` -/
structure BlockIter where
  /-- `comparator_` -/
  comparator : Comparator
  /-- `data_` -/
  data : Slice
  /-- `restarts_`: offset of the restart array. -/
  restarts : ℕ
  /-- `num_restarts_` -/
  numRestarts : ℕ
  /-- `current_`: offset of the current entry, `restarts_` if the iterator is not valid. -/
  current : ℕ
  /-- `restart_index_` -/
  restartIndex : ℕ
  /-- `key_` -/
  key : Slice := []
  /-- The offset of `value_`. -/
  valueOffset : ℕ := 0
  /-- The size of `value_`. -/
  valueSize : ℕ := 0
  /-- `status_` -/
  status : Option Status := none

namespace BlockIter

/-- `value_` -/
def value (it : BlockIter) : Slice := (it.data.drop it.valueOffset).take it.valueSize

/-- `NextEntryOffset` -/
def nextEntryOffset (it : BlockIter) : ℕ := (it.valueOffset + it.valueSize) % 2^32

/-- `GetRestartPoint` -/
def getRestartPoint (it : BlockIter) (index : ℕ) : ℕ :=
  decodeFixed32 (it.data.drop (it.restarts + index * 4))

/-- `SeekToRestartPoint` -/
def seekToRestartPoint (it : BlockIter) (index : ℕ) : BlockIter :=
  { it with
    key := []
    restartIndex := index
    -- `ParseNextKey` starts at the end of `value_`.
    valueOffset := it.getRestartPoint index
    valueSize := 0 }

/-- `CorruptionError` -/
def corruptionError (it : BlockIter) : BlockIter :=
  { it with
    current := it.restarts
    restartIndex := it.numRestarts
    status := some (.corruption (ascii "bad entry in block"))
    key := []
    valueOffset := 0
    valueSize := 0 }

/-- The iterator after the last entry. -/
def noMoreEntries (it : BlockIter) : BlockIter :=
  { it with current := it.restarts, restartIndex := it.numRestarts }

/-- The bytes from an offset to the restart array. -/
def entriesFrom (it : BlockIter) (offset : ℕ) : Slice := (it.data.take it.restarts).drop offset

/-- The loop of `ParseNextKey` that moves `restart_index_` on, at most as often as there are restart
points. -/
def advanceRestart (it : BlockIter) (current : ℕ) : ℕ → ℕ → ℕ
  | 0, index => index
  | fuel + 1, index =>
    if index + 1 < it.numRestarts ∧ it.getRestartPoint (index + 1) < current then
      it.advanceRestart current fuel (index + 1)
    else index

/-- `ParseNextKey` -/
def parseNextKey (it : BlockIter) : Bool × BlockIter :=
  let current := it.nextEntryOffset
  if it.restarts ≤ current then
    -- No more entries to return. Mark as invalid.
    (false, it.noMoreEntries)
  else
    match decodeEntry (it.entriesFrom current) with
    | none => (false, it.corruptionError)
    | some (shared, nonShared, valueLength, rest) =>
      if it.key.length < shared then (false, it.corruptionError)
      else
        let p := it.restarts - rest.length
        (true, { it with
          current := current
          key := it.key.take shared ++ (it.data.drop p).take nonShared
          valueOffset := p + nonShared
          valueSize := valueLength
          restartIndex := it.advanceRestart current it.numRestarts it.restartIndex })

/-- A loop that calls `ParseNextKey` until it returns false or the iterator does not meet a condition.
There are fewer entries than bytes. -/
def parseWhile (cond : BlockIter → Bool) : ℕ → BlockIter → BlockIter
  | 0, it => it
  | fuel + 1, it =>
    let r := it.parseNextKey
    if r.1 && cond r.2 then parseWhile cond fuel r.2 else r.2

/-- The loop of `Prev` back to a restart point before the original offset. -/
def restartBefore (it : BlockIter) (original : ℕ) : ℕ → Option ℕ
  | 0 => if original ≤ it.getRestartPoint 0 then none else some 0
  | index + 1 =>
    if original ≤ it.getRestartPoint (index + 1) then it.restartBefore original index
    else some (index + 1)

/-- `Prev` -/
def prev (it : BlockIter) : BlockIter :=
  match it.restartBefore it.current it.restartIndex with
  | none => it.noMoreEntries
  | some index =>
    -- Loop until end of current entry hits the start of original entry
    parseWhile (fun it' => decide (it'.nextEntryOffset < it.current)) (it.restarts + 1)
      (it.seekToRestartPoint index)

/-- The binary search of `Seek` in the restart array for the last restart point with a key below the
target, `none` if an entry is corrupted. The interval shrinks in every round. -/
def searchRestart (it : BlockIter) (target : Slice) : ℕ → ℕ → ℕ → Option ℕ
  | 0, left, _ => some left
  | fuel + 1, left, right =>
    if left < right then
      let mid := (left + right + 1) % 2^32 / 2
      match decodeEntry (it.entriesFrom (it.getRestartPoint mid)) with
      | none => none
      | some (shared, nonShared, _, rest) =>
        if shared ≠ 0 then none
        else
          let midKey := (it.data.drop (it.restarts - rest.length)).take nonShared
          if it.comparator.Lt midKey target then it.searchRestart target fuel mid right
          -- `mid - 1` is a `uint32_t` too.
          else it.searchRestart target fuel left ((mid + (2^32 - 1)) % 2^32)
    else some left

/-- `Seek` -/
def seek (target : Slice) (it : BlockIter) : BlockIter :=
  match it.searchRestart target it.numRestarts 0 (it.numRestarts - 1) with
  | none => it.corruptionError
  | some left =>
    -- Linear search (within restart block) for first key >= target
    parseWhile (fun it' => decide (it'.comparator.Lt it'.key target)) (it.restarts + 1)
      (it.seekToRestartPoint left)

/-- `SeekToFirst` -/
def seekToFirst (it : BlockIter) : BlockIter := (it.seekToRestartPoint 0).parseNextKey.2

/-- `SeekToLast` -/
def seekToLast (it : BlockIter) : BlockIter :=
  parseWhile (fun it' => decide (it'.nextEntryOffset < it'.restarts)) (it.restarts + 1)
    (it.seekToRestartPoint (it.numRestarts - 1))

instance : Lib.Iterator BlockIter Slice Slice Status where
  valid it := decide (it.current < it.restarts)
  key := key
  value := value
  status := status
  seekToFirst := seekToFirst
  seekToLast := seekToLast
  seek := seek
  next it := it.parseNextKey.2
  prev := prev

instance : Lib.Bounded BlockIter where
  bound it := it.restarts + 1

end BlockIter

/-- `EmptyIterator`, with a status. -/
structure EmptyIterator where
  /-- `status_` -/
  status : Option Status

instance : Lib.Iterator EmptyIterator Slice Slice Status where
  valid _ := false
  key _ := []
  value _ := []
  status := EmptyIterator.status
  seekToFirst := id
  seekToLast := id
  seek _ := id
  next := id
  prev := id

instance : Lib.Bounded EmptyIterator where
  bound _ := 1

/-! ## Blocks -/

/-- `Block` -/
structure Block where
  /-- `data_` -/
  data : Slice
  /-- `size_` -/
  size : ℕ
  /-- `restart_offset_` -/
  restartOffset : ℕ := 0

/-- `Block::NumRestarts` -/
def Block.numRestarts (b : Block) : ℕ := decodeFixed32 (b.data.drop (b.size - 4))

/-- The constructor of `Block`. -/
def Block.new (data : Slice) : Block :=
  let b : Block := { data := data, size := data.length }
  if b.size < 4 then { b with size := 0 }  -- Error marker
  else
    let restartOffset := (b.size + 2^64 - (1 + b.numRestarts) % 2^32 * 4) % 2^32
    if b.size - 4 < restartOffset then
      -- The size is too small for NumRestarts() and therefore restart_offset_ wrapped around.
      { b with size := 0, restartOffset := restartOffset }
    else { b with restartOffset := restartOffset }

/-- An iterator over a block, or one without entries. -/
abbrev BlockIterator := EmptyIterator ⊕ BlockIter

/-- `Block::NewIterator` -/
def Block.newIterator (b : Block) (cmp : Comparator) : BlockIterator :=
  if b.size < 8 then .inl ⟨some (.corruption (ascii "bad block contents"))⟩
  else if b.numRestarts = 0 then .inl ⟨none⟩
  else
    .inr
      { comparator := cmp
        data := b.data
        restarts := b.restartOffset
        numRestarts := b.numRestarts
        current := b.restartOffset
        restartIndex := b.numRestarts }

end LevelDb
