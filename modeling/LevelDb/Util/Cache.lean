import LevelDb.Lib.RefWord
import LevelDb.Util.Coding

/-!
# The LRU cache

`LRUCache` and `ShardedLRUCache` of `util/cache.cc`. A handle is an address; what stands there is lost
when the last reference is given back, and an operation that would touch a handle after that has no
result. The hash table is a map from keys to handles, as `HandleTable` is one for fewer than `2^31` entries
(`CacheSession.Twins.call_eq`). The number of references is a `uint32_t`.
-/

namespace LevelDb

/-! ## One shard -/

/-- `LRUHandle` -/
structure LRUHandle (V : Type) where
  /-- `key_data` -/
  key : Slice
  /-- `value` -/
  value : V
  /-- `charge` -/
  charge : ℕ
  /-- `refs` -/
  refs : ℕ

/-- `LRUCache` -/
structure LRUCache (V : Type) where
  /-- `capacity_` -/
  capacity : ℕ
  /-- `usage_` -/
  usage : ℕ := 0
  /-- `lru_`, the list of the entries, the oldest one first. -/
  lru : List ℕ := []
  /-- `table_` -/
  table : Slice → Option ℕ := fun _ => none
  /-- The handles in memory. -/
  handles : ℕ → Option (LRUHandle V) := fun _ => none
  /-- The address that `malloc` returns next, which is not that of `lru_`. -/
  nextHandle : ℕ := 1

namespace LRUCache

variable {V : Type}

/-- `LRUCache::Unref`. The deleter destroys the value. -/
def unref (c : LRUCache V) (id : ℕ) : Option (LRUCache V) := do
  let e ← c.handles id
  let refs := Lib.wordPred 32 e.refs
  if refs = 0 then
    some
      { c with
        usage := (c.usage + 2^64 - e.charge % 2^64) % 2^64
        handles := Function.update c.handles id none }
  else some { c with handles := Function.update c.handles id (some { e with refs := refs }) }

/-- `LRUCache::Lookup` -/
def lookup (c : LRUCache V) (key : Slice) : Option (Option ℕ × LRUCache V) :=
  match c.table key with
  | none => some (none, c)
  | some id => do
    let e ← c.handles id
    some (some id,
      { c with
        handles := Function.update c.handles id (some { e with refs := Lib.wordSucc 32 e.refs })
        lru := c.lru.erase id ++ [id] })

/-- The loop of `LRUCache::Insert` that evicts old entries. -/
def evict : ℕ → LRUCache V → Option (LRUCache V)
  | 0, c => some c
  | fuel + 1, c =>
    match c.lru with
    | [] => some c
    | old :: rest =>
      if c.usage > c.capacity then do
        let e ← c.handles old
        let c' ← unref { c with lru := rest, table := Function.update c.table e.key none } old
        evict fuel c'
      else some c

/-- A new entry in the list and in the table. -/
def append (c : LRUCache V) (key : Slice) (value : V) (charge : ℕ) : LRUCache V :=
  let id := c.nextHandle
  { c with
    -- One from LRUCache, one for the returned handle
    handles := Function.update c.handles id (some ⟨key, value, charge, 2⟩)
    nextHandle := id + 1
    lru := c.lru ++ [id]
    usage := (c.usage + charge) % 2^64
    table := Function.update c.table key (some id) }

/-- The entry that the table had before for the key. -/
def dropOld (c : LRUCache V) : Option ℕ → Option (LRUCache V)
  | none => some c
  | some old => unref { c with lru := c.lru.erase old } old

/-- `LRUCache::Insert` -/
def insert (c : LRUCache V) (key : Slice) (value : V) (charge : ℕ) : Option (ℕ × LRUCache V) := do
  let c₁ ← (c.append key value charge).dropOld (c.table key)
  let c₂ ← evict c₁.lru.length c₁
  some (c.nextHandle, c₂)

/-- `LRUCache::Erase` -/
def erase (c : LRUCache V) (key : Slice) : Option (LRUCache V) :=
  match c.table key with
  | none => some c
  | some id => unref { c with table := Function.update c.table key none, lru := c.lru.erase id } id

/-- The key and the value at a handle. -/
def entry (c : LRUCache V) (id : ℕ) : Option (Slice × V) := (c.handles id).map fun e => (e.key, e.value)

end LRUCache

/-! ## Shards -/

/-- A `char` of a key, which is signed, as a `uint32_t`. -/
def charWord (b : UInt8) : UInt32 := b.toInt8.toInt32.toUInt32

/-- The multiplier of `Hash`. -/
def hashMultiplier : UInt32 := 0xc6a4a793

/-- Pick up four bytes at a time. -/
def hashWords (h : UInt32) : Slice → UInt32 × Slice
  | b0 :: b1 :: b2 :: b3 :: rest =>
    let h := (h + UInt32.ofNat (decodeFixed32 [b0, b1, b2, b3])) * hashMultiplier
    hashWords (h ^^^ (h >>> 16)) rest
  | rest => (h, rest)

/-- `Hash` of `util/hash.cc` -/
def hash (data : Slice) (seed : UInt32) : UInt32 :=
  let (h, rest) := hashWords (seed ^^^ (UInt32.ofNat data.length * hashMultiplier)) data
  -- Pick up remaining bytes
  let h := match rest with
    | [_, _, b2] => h + (charWord b2 <<< 16)
    | _ => h
  let h := match rest with
    | _ :: b1 :: _ => h + (charWord b1 <<< 8)
    | _ => h
  match rest with
  | b0 :: _ =>
    let h := (h + charWord b0) * hashMultiplier
    h ^^^ (h >>> 24)
  | [] => h

/-- `kNumShards` -/
def kNumShards : ℕ := 16

/-- `Shard` of the hash of a key: its first four bits. -/
def shardOf (key : Slice) : Fin kNumShards :=
  ⟨(hash key 0 >>> 28).toNat, by
    rw [UInt32.toNat_shiftRight]
    have hlt := (hash key 0).toNat_lt
    have hshift : (UInt32.toNat 28 % 32) = 28 := rfl
    rw [hshift, Nat.shiftRight_eq_div_pow, kNumShards]
    omega⟩

/-- `ShardedLRUCache` -/
structure ShardedLRUCache (V : Type) where
  /-- `shard_` -/
  shard : Fin kNumShards → LRUCache V
  /-- `last_id_` -/
  lastId : UInt64 := 0

/-- `Cache::Handle`: an address. The hash in a handle leads to its shard. -/
abbrev CacheHandle := Fin kNumShards × ℕ

/-- `NewLRUCache` -/
def newLRUCache (V : Type) (capacity : ℕ) : ShardedLRUCache V where
  shard _ := { capacity := (capacity + (kNumShards - 1)) % 2^64 / kNumShards }

namespace ShardedLRUCache

variable {V : Type}

/-- `ShardedLRUCache::Lookup` -/
def lookup (c : ShardedLRUCache V) (key : Slice) : Option (Option CacheHandle × ShardedLRUCache V) := do
  let s := shardOf key
  let (r, shard) ← (c.shard s).lookup key
  some (r.map fun id => (s, id), { c with shard := Function.update c.shard s shard })

/-- `ShardedLRUCache::Insert` -/
def insert (c : ShardedLRUCache V) (key : Slice) (value : V) (charge : ℕ) :
    Option (CacheHandle × ShardedLRUCache V) := do
  let s := shardOf key
  let (id, shard) ← (c.shard s).insert key value charge
  some ((s, id), { c with shard := Function.update c.shard s shard })

/-- `ShardedLRUCache::Release` -/
def release (c : ShardedLRUCache V) (h : CacheHandle) : Option (ShardedLRUCache V) := do
  let shard ← (c.shard h.1).unref h.2
  some { c with shard := Function.update c.shard h.1 shard }

/-- `ShardedLRUCache::Erase` -/
def erase (c : ShardedLRUCache V) (key : Slice) : Option (ShardedLRUCache V) := do
  let s := shardOf key
  let shard ← (c.shard s).erase key
  some { c with shard := Function.update c.shard s shard }

/-- The key and the value at a handle. -/
def entry (c : ShardedLRUCache V) (h : CacheHandle) : Option (Slice × V) := (c.shard h.1).entry h.2

/-- `ShardedLRUCache::Value` -/
def value (c : ShardedLRUCache V) (h : CacheHandle) : Option V := (c.entry h).map Prod.snd

/-- `ShardedLRUCache::NewId` -/
def newId (c : ShardedLRUCache V) : UInt64 × ShardedLRUCache V :=
  (c.lastId + 1, { c with lastId := c.lastId + 1 })

end ShardedLRUCache

end LevelDb
