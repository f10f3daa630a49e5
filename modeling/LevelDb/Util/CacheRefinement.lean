import LevelDb.Util.CacheRefs
import LevelDb.Util.CacheSession

/-!
# The hash table of a shard as a map

`LRUCache`, whose hash table is a map from keys to handles, against `CacheMemory`, which has `HandleTable` and
the links of the list. When a hash is a function of the key, they go through the same states and return the
same handles (`CacheSession.Twins.call_eq`), as long as there are fewer than `2^31` entries when one is
inserted, and an entry has fewer than `2^32 - 2` handles when one is looked up.
-/

namespace LevelDb

open Lib

variable {V : Type}

/-- `LRUHandle`, without its hash. -/
def CacheEntry.handle (e : CacheEntry V) : LRUHandle V := ⟨e.key, e.value, e.charge, e.refs⟩

namespace CacheMemory

variable {c c' : CacheMemory V} {d : LRUCache V} {hash : Slice → ℕ} {pins : ℕ → ℕ} {id : ℕ}

/-! ## States -/

/-- The same counters and the same entries in memory. -/
structure Mirrors (c : CacheMemory V) (d : LRUCache V) : Prop where
  /-- `capacity_` -/
  capacity : d.capacity = c.capacity
  /-- `usage_` -/
  usage : d.usage = c.usage
  /-- The next address. -/
  nextHandle : d.nextHandle = c.nextHandle
  /-- The entries. -/
  handles : d.handles = Option.map CacheEntry.handle ∘ c.entries

/-- The state of a shard, between two operations, and what it stands for: the table has the handles of the
list, under their keys. -/
structure Refines (c : CacheMemory V) (d : LRUCache V) (hash : Slice → ℕ) (pins : ℕ → ℕ) : Prop extends
    c.Mirrors d where
  /-- The list and the hash table. -/
  exact : c.Exact (fun key h => h = hash key) pins d.lru
  /-- The map. -/
  inv : d.Inv pins

/-- A new cache in memory stands for a new cache, with no handle out. -/
theorem refines_new (hash : Slice → ℕ) (capacity : ℕ) :
    ({ capacity := capacity } : CacheMemory V).Refines { capacity := capacity } hash fun _ => 0 where
  capacity := rfl
  usage := rfl
  nextHandle := rfl
  handles := rfl
  exact := (CacheSession.inv_start capacity).exact
  inv := LRUCache.inv_new capacity

/-- An entry in memory, without its hash. -/
theorem Mirrors.handles_eq (h : c.Mirrors d) {e : CacheEntry V} (he : c.entries id = some e) :
    d.handles id = some e.handle := by
  rw [h.handles, Function.comp_apply, he]
  rfl

/-- A write to the entries in memory is mirrored by the same write to the handles. -/
theorem Mirrors.handles_update (h : c.Mirrors d) (id : ℕ) (o : Option (CacheEntry V)) :
    Function.update d.handles id (o.map CacheEntry.handle) =
      Option.map CacheEntry.handle ∘ Function.update c.entries id o := by
  rw [Function.comp_update, h.handles]

/-- `Unref` does the same to the counters and the entries. -/
theorem Mirrors.unref (h : c.Mirrors d) (hc' : c.unref id = some c') :
    ∃ d', d.unref id = some d' ∧ c'.Mirrors d' := by
  obtain ⟨e, he, hc'⟩ := Option.bind_eq_some_iff.mp hc'
  have hrefs : e.handle.refs = e.refs := rfl
  have hcharge : e.handle.charge = e.charge := rfl
  unfold LRUCache.unref
  rw [h.handles_eq he, Option.bind_eq_bind, Option.bind_some, hrefs, hcharge, h.usage]
  dsimp only at hc' ⊢
  generalize (c.usage + 2^64 - e.charge % 2^64) % 2^64 = usage at hc' ⊢
  generalize wordPred 32 e.refs = refs at hc' ⊢
  by_cases hlast : refs = 0
  · rw [if_pos hlast] at hc' ⊢
    obtain ⟨-, -, rfl⟩ := Option.map_eq_some_iff.mp hc'
    exact ⟨_, rfl, h.capacity, rfl, h.nextHandle, h.handles_update id none⟩
  · rw [if_neg hlast] at hc' ⊢
    obtain rfl := Option.some.inj hc'
    exact ⟨_, rfl, h.capacity, rfl, h.nextHandle, h.handles_update id (some { e with refs := refs })⟩

/-- A new entry is counted and written in both. -/
theorem Mirrors.newEntry (h : c.Mirrors d) (key : Slice) (x : ℕ) (value : V) (charge : ℕ) :
    (c.newEntry key x value charge).Mirrors (d.append key value charge) := by
  have hentries := h.handles_update c.nextHandle (some ⟨key, x, value, charge, 2⟩)
  unfold LRUCache.append CacheMemory.newEntry lruAppend
  dsimp only
  rw [h.nextHandle, h.usage]
  exact ⟨h.capacity, rfl, rfl, hentries⟩

/-- The key of an entry of the list, in the table and in the map. -/
theorem Refines.info_eq_some_iff (h : c.Refines d hash pins) (hid : id ∈ d.lru) (key : Slice) :
    c.info id = some (key, hash key) ↔ (d.entry id).map Prod.fst = some key := by
  obtain ⟨e, he⟩ := (h.exact.alive id).mpr (h.exact.alive_of_mem hid)
  have hhash : e.hash = hash e.key := h.exact.paired he
  have hentry : (d.entry id).map Prod.fst = some e.key := by
    unfold LRUCache.entry
    rw [h.handles_eq he]
    rfl
  rw [h.exact.info_eq_some he, hentry, hhash]
  constructor
  · intro heq
    exact congrArg some (Prod.mk.inj (Option.some.inj heq)).1
  · intro heq
    rw [Option.some.inj heq]

/-- What the hash table finds is what the map has. -/
theorem Refines.table_eq (h : c.Refines d hash pins) {key : Slice} {r : Option ℕ}
    (hr : ∀ b, r = some b ↔ b ∈ d.lru ∧ c.info b = some (key, hash key)) : d.table key = r := by
  refine Option.ext fun b => ?_
  rw [hr, h.inv.table_iff]
  exact and_congr_right fun hb => (h.info_eq_some_iff hb key).symm

/-- Handles are counted in 32 bits. -/
theorem Refines.pins_lt (h : c.Refines d hash pins) (id : ℕ) : pins id < 2^32 :=
  (Nat.le_add_right _ _).trans_lt (h.exact.count_lt id)

/-! ## Operations -/

/-- `Lookup` returns the same handle in memory as on the abstract cache, and the states after it
correspond with one more handle out. -/
theorem Refines.lookup (h : c.Refines d hash pins) (hlt : ∀ id, pins id + 2 < 2^32) (key : Slice) :
    ∃ r c' d', c.lookup key (hash key) = some (r, c') ∧ d.lookup key = some (r, d') ∧
      c'.Refines d' hash (pin pins r) := by
  obtain ⟨r, c', hlookup, hr, hexact, -⟩ := h.exact.lookup hlt key (hash key)
  have htable := h.table_eq hr
  obtain ⟨r', hfind, hc'⟩ := Option.bind_eq_some_iff.mp hlookup
  cases r with
  | none =>
    cases r' with
    | some id =>
      obtain ⟨c₁, -, hpair⟩ := Option.map_eq_some_iff.mp hc'
      exact absurd (Prod.mk.inj hpair).1 (Option.some_ne_none id)
    | none =>
      obtain rfl := (Prod.mk.inj (Option.some.inj hc')).2
      refine ⟨none, c, d, hlookup, ?_, h⟩
      unfold LRUCache.lookup
      rw [htable]
  | some id =>
    cases r' with
    | none => exact absurd (Prod.mk.inj (Option.some.inj hc')).1.symm (Option.some_ne_none id)
    | some id' =>
      obtain ⟨c₁, hadd, hpair⟩ := Option.map_eq_some_iff.mp hc'
      obtain ⟨hid, rfl⟩ := Prod.mk.inj hpair
      obtain rfl := Option.some.inj hid
      obtain ⟨e, he, rfl⟩ := Option.map_eq_some_iff.mp hadd
      -- Both count the handle and make the entry the newest.
      have hrefs : e.handle.refs = e.refs := rfl
      have hhit : d.lookup key = some (some id', { d with
          handles := Function.update d.handles id' (some { e.handle with refs := wordSucc 32 e.refs })
          lru := d.lru.erase id' ++ [id'] }) := by
        unfold LRUCache.lookup
        rw [htable]
        dsimp only
        rw [h.handles_eq he, Option.bind_eq_bind, Option.bind_some, hrefs]
      obtain hmiss | ⟨id, d', value, hfound, hinv, -⟩ := h.inv.lookup key
      · exact absurd (Prod.mk.inj (Option.some.inj (hhit.symm.trans hmiss))).1 (Option.some_ne_none _)
      · obtain ⟨hid, rfl⟩ := Prod.mk.inj (Option.some.inj (hhit.symm.trans hfound))
        obtain rfl := Option.some.inj hid
        refine ⟨_, _, _, hlookup, hhit, ?_, hexact, hinv⟩
        exact ⟨h.capacity, h.usage, h.nextHandle,
          h.handles_update id' (some { e with refs := wordSucc 32 e.refs })⟩

/-- `Release` of a handle that is out succeeds on both sides, and the states after it correspond with
one handle less. -/
theorem Refines.release (h : c.Refines d hash pins) (hpins : 0 < pins id) :
    ∃ c' d', c.unref id = some c' ∧ d.unref id = some d' ∧
      c'.Refines d' hash (Function.update pins id (pins id - 1)) := by
  obtain ⟨c', hunref, hexact⟩ := h.exact.unref hpins
  obtain ⟨d', hunref', hmirrors⟩ := h.toMirrors.unref hunref
  have hpin : LRUCache.pin (Function.update pins id (pins id - 1)) id = pins := by
    unfold LRUCache.pin
    rw [Function.update_self, Function.update_idem, Nat.sub_add_cancel hpins, Function.update_eq_self]
  have hinv := h.inv
  rw [← hpin] at hinv
  obtain ⟨d'', hrelease, hinv', -⟩ := hinv.release fun id' => by
    rw [hpin]
    exact h.pins_lt id'
  obtain rfl := Option.some.inj (hunref'.symm.trans hrelease)
  rw [← LRUCache.unref_lru hunref'] at hexact
  exact ⟨c', d', hunref, hunref', hmirrors, hexact, hinv'⟩

/-- `Erase` succeeds on both sides, and the states after it correspond with the same handles out. -/
theorem Refines.erase (h : c.Refines d hash pins) (key : Slice) :
    ∃ c' d', c.erase key (hash key) = some c' ∧ d.erase key = some d' ∧ c'.Refines d' hash pins := by
  obtain ⟨r, table, c', hr, hdrop, hexact, herase⟩ := h.exact.eraseEntry key (hash key)
  have htable := h.table_eq hr
  obtain ⟨d', herase', hinv, -⟩ := h.inv.erase h.pins_lt key
  refine ⟨c', d', herase, herase', ?_⟩
  unfold LRUCache.erase at herase'
  rw [htable] at herase'
  cases r with
  | none =>
    obtain rfl := Option.some.inj herase'
    obtain rfl := Option.some.inj hdrop
    exact ⟨⟨h.capacity, h.usage, h.nextHandle, h.handles⟩, hexact, hinv⟩
  | some old =>
    have hmirrors : ({ c with table := table } : CacheMemory V).lruRemove old |>.Mirrors
        { d with table := Function.update d.table key none, lru := d.lru.erase old } :=
      ⟨h.capacity, h.usage, h.nextHandle, h.handles⟩
    obtain ⟨d'', hunref, hmirrors'⟩ := hmirrors.unref hdrop
    obtain rfl := Option.some.inj (hunref.symm.trans herase')
    have hlru : d''.lru = HandleTable.without d.lru (some old) := LRUCache.unref_lru hunref
    rw [← hlru] at hexact
    exact ⟨hmirrors', hexact, hinv⟩

/-- The loop of `Insert` evicts the same entries on both sides, from the oldest on, and the states
after it correspond. -/
theorem Refines.evict {lru : List ℕ} : ∀ {c : CacheMemory V} {d : LRUCache V} {fuel fuel' : ℕ},
    c.Refines d hash pins → d.lru = lru → lru.length < fuel → lru.length ≤ fuel' →
      ∃ c' d', CacheMemory.evict fuel c = some c' ∧ d.evict fuel' = some d' ∧ c'.Refines d' hash pins := by
  induction lru with
  | nil =>
    intro c d fuel fuel' h hlru hfuel _
    obtain ⟨fuel, rfl⟩ := Nat.exists_eq_succ_of_ne_zero (Nat.ne_of_gt hfuel)
    have hexact := h.exact
    rw [hlru] at hexact
    refine ⟨c, d, hexact.evict_nil, ?_, h⟩
    cases fuel' with
    | zero => rfl
    | succ fuel' =>
      unfold LRUCache.evict
      rw [hlru]
  | cons old rest ih =>
    intro c d fuel fuel' h hlru hfuel hfuel'
    obtain ⟨fuel, rfl⟩ := Nat.exists_eq_succ_of_ne_zero (Nat.ne_of_gt ((Nat.zero_le _).trans_lt hfuel))
    obtain ⟨fuel', rfl⟩ := Nat.exists_eq_succ_of_ne_zero (Nat.ne_of_gt ((Nat.succ_pos _).trans_le hfuel'))
    have hexact := h.exact
    rw [hlru] at hexact
    by_cases hfull : c.capacity < c.usage
    · obtain ⟨e, table, c₁, he, hunref, hexact₁, hevict⟩ := hexact.evict_cons hfull fuel
      have hmirrors : ({ c.lruRemove old with table := table } : CacheMemory V).Mirrors
          { d with lru := rest, table := Function.update d.table e.key none } :=
        ⟨h.capacity, h.usage, h.nextHandle, h.handles⟩
      obtain ⟨d₁, hunref', hmirrors₁⟩ := hmirrors.unref hunref
      -- The entry was in the map under its key.
      have hmem : old ∈ d.lru := hlru ▸ List.mem_cons_self
      have hid : d.table e.key = some old := by
        refine h.inv.table_iff.mpr ⟨hmem, ?_⟩
        unfold LRUCache.entry
        rw [h.handles_eq he]
        rfl
      obtain ⟨d₂, hunlink, hinv, -⟩ := h.inv.unlink_unref h.pins_lt hid
      have hrest : d.lru.erase old = rest := by rw [hlru, List.erase_cons_head]
      rw [hrest] at hunlink
      obtain rfl := Option.some.inj (hunref'.symm.trans hunlink)
      have hlru₁ : d₁.lru = rest := LRUCache.unref_lru hunref'
      rw [← hlru₁] at hexact₁
      obtain ⟨c', d', hc', hd', hrefines⟩ := ih ⟨hmirrors₁, hexact₁, hinv⟩ hlru₁
        (Nat.lt_of_succ_lt_succ hfuel) (Nat.le_of_succ_le_succ hfuel')
      refine ⟨c', d', hevict.trans hc', ?_, hrefines⟩
      have hfull' : d.usage > d.capacity := by
        rw [h.usage, h.capacity]
        exact hfull
      unfold LRUCache.evict
      rw [hlru]
      dsimp only
      rw [if_pos hfull', h.handles_eq he, Option.bind_eq_bind, Option.bind_some]
      change (LRUCache.unref _ old).bind _ = _
      have hkey : e.handle.key = e.key := rfl
      rw [hkey, hunref', Option.bind_some, hd']
    · refine ⟨c, d, ?_, ?_, h⟩
      · unfold CacheMemory.evict
        rw [if_neg fun hc => hfull hc.1]
      · unfold LRUCache.evict
        rw [hlru]
        dsimp only
        rw [if_neg]
        rw [h.usage, h.capacity]
        exact hfull

/-- `Insert` returns the same handle on both sides as long as the shard has less than `2^31` entries,
and the states after it correspond. -/
theorem Refines.insert (h : c.Refines d hash pins) (hlength : d.lru.length < 2^31) (key : Slice) (value : V)
    (charge : ℕ) : ∃ id c' d', c.insert key (hash key) value charge = some (id, c') ∧
      d.insert key value charge = some (id, d') ∧ c'.Refines d' hash (pin pins (some id)) := by
  have hpaired : hash key = hash key := rfl
  obtain ⟨r, table, c₁, hr, hdrop, hexact, hinsert⟩ := h.exact.insertEntry hlength hpaired value charge
  have htable := h.table_eq hr
  obtain ⟨d₁, hdrop', hinv, -⟩ := h.inv.append_dropOld h.pins_lt key value charge
  have hentry := h.toMirrors.newEntry key (hash key) value charge
  have hnext := h.nextHandle
  -- The entry that had the key goes, in both.
  obtain ⟨hmirrors, hlru⟩ : c₁.Mirrors d₁ ∧ d₁.lru = HandleTable.without d.lru r ++ [c.nextHandle] := by
    rw [htable] at hdrop'
    cases r with
    | none =>
      obtain rfl := Option.some.inj hdrop
      obtain rfl := Option.some.inj hdrop'
      refine ⟨⟨hentry.capacity, hentry.usage, hentry.nextHandle, hentry.handles⟩, ?_⟩
      rw [← hnext]
      rfl
    | some old =>
      have hmem : old ∈ d.lru := ((hr old).mp rfl).1
      have hmirrors : (({ c.newEntry key (hash key) value charge with table := table } :
          CacheMemory V).lruRemove old).Mirrors
          { d.append key value charge with lru := (d.append key value charge).lru.erase old } :=
        ⟨hentry.capacity, hentry.usage, hentry.nextHandle, hentry.handles⟩
      obtain ⟨d₂, hunref, hmirrors'⟩ := hmirrors.unref hdrop
      obtain rfl := Option.some.inj (hunref.symm.trans hdrop')
      refine ⟨hmirrors', ?_⟩
      rw [LRUCache.unref_lru hunref, ← hnext]
      exact List.erase_append_left _ hmem
  rw [← hlru] at hexact
  rw [hnext] at hinv
  obtain ⟨c', d', hevict, hevict', hrefines⟩ := Refines.evict ⟨hmirrors, hexact, hinv⟩ rfl
    hexact.length_lt (Nat.le_refl d₁.lru.length)
  refine ⟨c.nextHandle, c', d', ?_, ?_, hrefines⟩
  · rw [hinsert, hevict]
    rfl
  · unfold LRUCache.insert
    rw [hdrop', Option.bind_eq_bind, Option.bind_some, hevict', Option.bind_some, hnext]

end CacheMemory

/-! ## Runs -/

/-- One call, with the handle that it returns. -/
def LRUCache.call (d : LRUCache V) : CacheCall V → Option (Option ℕ × LRUCache V)
  | .insert key _ value charge => (d.insert key value charge).map fun (id, d) => (some id, d)
  | .lookup key _ => d.lookup key
  | .release id => (d.unref id).map fun d => (none, d)
  | .erase key _ => (d.erase key).map fun d => (none, d)

/-- One call in memory, with the handle that it returns. -/
def CacheMemory.call (c : CacheMemory V) : CacheCall V → Option (Option ℕ × CacheMemory V)
  | .insert key hash value charge => (c.insert key hash value charge).map fun (id, c) => (some id, c)
  | .lookup key hash => c.lookup key hash
  | .release id => (c.unref id).map fun c => (none, c)
  | .erase key hash => (c.erase key hash).map fun c => (none, c)

namespace CacheSession

variable {hash : Slice → ℕ} {capacity : ℕ} {s s' : CacheSession V} {d d' : LRUCache V}

/-- A call that clients may make, with the hash of its key. -/
def Permitted (hash : Slice → ℕ) (s : CacheSession V) (call : CacheCall V) : Prop :=
  s.Allowed (fun key x => x = hash key) call ∧
    match call with
    | .insert key x _ _ | .lookup key x | .erase key x => x = hash key
    | .release _ => True

/-- A session, and a shard that has got the same calls. -/
inductive Twins (hash : Slice → ℕ) (capacity : ℕ) : CacheSession V → LRUCache V → Prop
  /-- Two new caches. -/
  | start : Twins hash capacity (start V capacity) { capacity := capacity }
  /-- A call of both. -/
  | call {s s' : CacheSession V} {d d' : LRUCache V} {call : CacheCall V} {r : Option ℕ} :
    Twins hash capacity s d → s.Permitted hash call → s.step call = some s' →
      d.call call = some (r, d') → Twins hash capacity s' d'

/-- A call that is permitted returns the same handle in both, and leads to states that refine each other
again. -/
theorem step_refines (h : s.memory.Refines d hash s.pins) {call : CacheCall V}
    (hcall : s.Permitted hash call) :
    ∃ r s' d', s.memory.call call = some (r, s'.memory) ∧ s.step call = some s' ∧
      d.call call = some (r, d') ∧ s'.memory.Refines d' hash s'.pins := by
  obtain ⟨hallowed, hhash⟩ := hcall
  cases call with
  | insert key x value charge =>
    obtain ⟨rfl, helems⟩ := hallowed
    rw [h.exact.table.elems] at helems
    obtain ⟨id, c', d', hc', hd', hrefines⟩ := h.insert helems key value charge
    refine ⟨some id, { s.handOut (some id) with memory := c', inserted := s.inserted ++ [id] }, d', ?_, ?_, ?_,
      hrefines⟩
    · simp only [CacheMemory.call, hc', Option.map_some]
    · simp only [CacheSession.step, hc', Option.map_some]
    · simp only [LRUCache.call, hd', Option.map_some]
  | lookup key x =>
    subst hhash
    obtain ⟨r, c', d', hc', hd', hrefines⟩ := h.lookup hallowed key
    refine ⟨r, { s.handOut r with memory := c' }, d', hc', ?_, hd', hrefines⟩
    simp only [CacheSession.step, hc', Option.map_some]
  | release id =>
    obtain ⟨c', d', hc', hd', hrefines⟩ := h.release hallowed
    refine ⟨none, { s with memory := c', pins := Function.update s.pins id (s.pins id - 1) }, d', ?_, ?_, ?_,
      hrefines⟩
    · simp only [CacheMemory.call, hc', Option.map_some]
    · simp only [CacheSession.step, hc', Option.map_some]
    · simp only [LRUCache.call, hd', Option.map_some]
  | erase key x =>
    subst hhash
    obtain ⟨c', d', hc', hd', hrefines⟩ := h.erase key
    refine ⟨none, { s with memory := c' }, d', ?_, ?_, ?_, hrefines⟩
    · simp only [CacheMemory.call, hc', Option.map_some]
    · simp only [CacheSession.step, hc', Option.map_some]
    · simp only [LRUCache.call, hd', Option.map_some]

/-- The states that a session and its shard reach refine each other. -/
theorem Twins.refines (h : Twins hash capacity s d) : s.memory.Refines d hash s.pins := by
  induction h with
  | start => exact CacheMemory.refines_new hash capacity
  | call _ hcall hs hd ih =>
    obtain ⟨r, s'', d'', -, hs', hd', hrefines⟩ := step_refines ih hcall
    obtain rfl := Option.some.inj (hs'.symm.trans hs)
    obtain rfl := (Prod.mk.inj (Option.some.inj (hd'.symm.trans hd))).2
    exact hrefines

/-- In every run of calls that are permitted, a shard whose table is a map does what the one with the hash
table does: the list, the entries and `usage_` are the same, and so is what the next call returns. -/
theorem Twins.call_eq (h : Twins hash capacity s d) {call : CacheCall V} (hcall : s.Permitted hash call) :
    Ring s.memory.links CacheMemory.lruHead d.lru ∧ s.memory.Mirrors d ∧
      ∃ r s' d', s.memory.call call = some (r, s'.memory) ∧ d.call call = some (r, d') ∧
        Twins hash capacity s' d' := by
  have hrefines := h.refines
  refine ⟨hrefines.exact.ring, hrefines.toMirrors, ?_⟩
  obtain ⟨r, s', d', hc', hs', hd', -⟩ := step_refines hrefines hcall
  exact ⟨r, s', d', hc', hd', h.call hcall hs' hd'⟩

/-- An insertion is permitted when the shard has fewer than `2^31` entries. -/
theorem Twins.permitted_insert (h : Twins hash capacity s d) (hlength : d.lru.length < 2^31) (key : Slice)
    (value : V) (charge : ℕ) : s.Permitted hash (.insert key (hash key) value charge) := by
  refine ⟨⟨rfl, ?_⟩, rfl⟩
  rw [h.refines.exact.table.elems]
  exact hlength

end CacheSession

end LevelDb
