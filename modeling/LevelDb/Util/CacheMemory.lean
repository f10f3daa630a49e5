import LevelDb.Lib.RefWord
import LevelDb.Lib.Ring
import LevelDb.Util.HandleTable
import Mathlib.Algebra.BigOperators.Intervals

/-!
# The LRU cache in memory

`LRUCache` of `util/cache.cc` with the links of its list, its hash table and the counters of its entries.
An operation that would read an entry that is gone, or take the value of an entry for its key, has no
result. The list and the table have the same entries, in the order of their last use; the counters are
exact as long as no entry has almost `2^32` references and the table fewer than `2^31` entries; and an entry
is freed when its last reference is given back (`CacheMemory.Inv`).
-/

namespace LevelDb

open Lib

/-! ## The code -/

/-- `LRUHandle`, without its links. -/
structure CacheEntry (V : Type) where
  /-- `key_data` -/
  key : Slice
  /-- `hash` -/
  hash : ℕ
  /-- `value` -/
  value : V
  /-- `charge` -/
  charge : ℕ
  /-- `refs` -/
  refs : ℕ

/-- `LRUCache` -/
structure CacheMemory (V : Type) where
  /-- `capacity_` -/
  capacity : ℕ
  /-- `usage_` -/
  usage : ℕ := 0
  /-- `next` and `prev` of the entries and of `lru_`. -/
  links : Links ℕ := .empty 0
  /-- `table_` -/
  table : HandleTable := .new
  /-- The entries in memory. -/
  entries : ℕ → Option (CacheEntry V) := fun _ => none
  /-- The address that `malloc` returns next. -/
  nextHandle : ℕ := 1
  /-- History: the entries whose deleters ran. -/
  freed : List ℕ := []

namespace CacheMemory

variable {V : Type}

/-- The address of `lru_`. -/
def lruHead : ℕ := 0

/-- `key()` and the hash of an entry. Of an entry that is linked to itself, `key()` takes the value for a
key. -/
def info (c : CacheMemory V) : HandleInfo := fun id =>
  (c.entries id).bind fun e => if c.links.next id = id then none else some (e.key, e.hash)

/-- `LRU_Remove` -/
def lruRemove (c : CacheMemory V) (id : ℕ) : CacheMemory V := { c with links := c.links.remove id }

/-- `LRU_Append`: make `id` newest entry by inserting just before `lru_`. -/
def lruAppend (c : CacheMemory V) (id : ℕ) : CacheMemory V :=
  { c with links := c.links.insertLast lruHead id }

/-- `Unref`, and `Release` -/
def unref (c : CacheMemory V) (id : ℕ) : Option (CacheMemory V) :=
  (c.entries id).bind fun e =>
    let refs := wordPred 32 e.refs
    if refs = 0 then
      -- the deleter gets `key()`
      (c.info id).map fun _ =>
        { c with
          usage := (c.usage + 2^64 - e.charge % 2^64) % 2^64
          entries := Function.update c.entries id none
          freed := c.freed ++ [id] }
    else some { c with entries := Function.update c.entries id (some { e with refs := refs }) }

/-- `e->refs++` -/
def addRef (c : CacheMemory V) (id : ℕ) : Option (CacheMemory V) :=
  (c.entries id).map fun e =>
    { c with entries := Function.update c.entries id (some { e with refs := wordSucc 32 e.refs }) }

/-- `Lookup` -/
def lookup (c : CacheMemory V) (key : Slice) (hash : ℕ) : Option (Option ℕ × CacheMemory V) :=
  (c.table.lookup c.info key hash).bind fun r =>
    match r with
    | none => some (none, c)
    | some id => (c.addRef id).map fun c => (some id, (c.lruRemove id).lruAppend id)

/-- The loop of `Insert` that evicts old entries. There are fewer of them than addresses. -/
def evict : ℕ → CacheMemory V → Option (CacheMemory V)
  | 0, _ => none
  | fuel + 1, c =>
    if c.capacity < c.usage ∧ c.links.next lruHead ≠ lruHead then
      let old := c.links.next lruHead
      let c := c.lruRemove old
      (c.info old).bind fun (key, hash) =>
        (c.table.remove c.info key hash).bind fun (_, table) =>
          ({ c with table := table }.unref old).bind (evict fuel)
    else some c

/-- An entry that `table_` does not have any more. -/
def drop (c : CacheMemory V) : Option ℕ → Option (CacheMemory V)
  | none => some c
  | some old => (c.lruRemove old).unref old

/-- A new entry at the end of the list, with two references: one from LRUCache, one for the returned
handle. -/
def newEntry (c : CacheMemory V) (key : Slice) (hash : ℕ) (value : V) (charge : ℕ) : CacheMemory V :=
  { c with
      entries := Function.update c.entries c.nextHandle (some ⟨key, hash, value, charge, 2⟩)
      nextHandle := c.nextHandle + 1
      usage := (c.usage + charge) % 2^64 }.lruAppend c.nextHandle

/-- `Insert` -/
def insert (c : CacheMemory V) (key : Slice) (hash : ℕ) (value : V) (charge : ℕ) :
    Option (ℕ × CacheMemory V) :=
  let c' := c.newEntry key hash value charge
  (c'.table.insert c'.info c.nextHandle).bind fun (old, table) =>
    ({ c' with table := table }.drop old).bind fun c'' =>
      (evict c''.nextHandle c'').map fun result => (c.nextHandle, result)

/-- `Erase` -/
def erase (c : CacheMemory V) (key : Slice) (hash : ℕ) : Option (CacheMemory V) :=
  (c.table.remove c.info key hash).bind fun (e, table) => { c with table := table }.drop e

/-! ## What holds in memory -/

/-- The sum of the charges of the entries in memory. -/
def charges (c : CacheMemory V) : ℕ :=
  ∑ id ∈ Finset.range c.nextHandle, (c.entries id).elim 0 CacheEntry.charge

/-- The entries in memory are those with references, `count` of them; the list has the entries of `lru` and
the table those of `tab`. -/
structure Inv (c : CacheMemory V) (Paired : Slice → ℕ → Prop) (count : ℕ → ℕ) (lru tab : List ℕ) : Prop where
  /-- The list, from the oldest entry to the newest. -/
  ring : Ring c.links lruHead lru
  /-- The table. -/
  table : c.table.Holds c.info tab
  /-- The counters are exact. -/
  refs : ∀ {id : ℕ} {e : CacheEntry V}, c.entries id = some e → e.refs = count id
  /-- They do not wrap. -/
  count_lt : ∀ id, count id < 2^32
  /-- An entry is in memory as long as there are references to it. -/
  alive : ∀ id, (∃ e, c.entries id = some e) ↔ 0 < count id
  /-- The key of an entry is not taken from its value. -/
  next_ne : ∀ {id : ℕ}, 0 < count id → c.links.next id ≠ id
  /-- `lru_` is not an entry. -/
  nextHandle_pos : 0 < c.nextHandle
  /-- The entries have addresses that were allocated. -/
  allocated : ∀ {id : ℕ}, 0 < count id → 0 < id ∧ id < c.nextHandle
  /-- No deleter runs twice. -/
  nodup_freed : c.freed.Nodup
  /-- The deleters ran for the entries that are gone. -/
  freed_iff : ∀ id, id ∈ c.freed ↔ (0 < id ∧ id < c.nextHandle) ∧ c.entries id = none
  /-- `usage_` is the sum of the charges, as a word. -/
  usage : c.usage = c.charges % 2^64
  /-- The keys came with their hashes. -/
  paired : ∀ {id : ℕ} {e : CacheEntry V}, c.entries id = some e → Paired e.key e.hash

variable {c : CacheMemory V} {Paired : Slice → ℕ → Prop} {count pins : ℕ → ℕ} {lru tab : List ℕ} {id : ℕ}
  {e : CacheEntry V}

/-- An entry that can be read is in memory. -/
theorem entries_of_info {key : Slice} {hash : ℕ} (h : c.info id = some (key, hash)) :
    ∃ e, c.entries id = some e ∧ e.key = key ∧ e.hash = hash := by
  obtain ⟨e, he, hinfo⟩ := Option.bind_eq_some_iff.mp h
  by_cases hself : c.links.next id = id
  · rw [if_pos hself] at hinfo
    cases hinfo
  · rw [if_neg hself] at hinfo
    cases hinfo
    exact ⟨e, he, rfl, rfl⟩

/-- An entry in memory can be read, if it is not linked to itself. -/
theorem info_eq (he : c.entries id = some e) (hne : c.links.next id ≠ id) : c.info id = some (e.key, e.hash) := by
  unfold info
  rw [he, Option.bind_some, if_neg hne]

/-- The charges when an entry is written or freed. -/
theorem sum_charges_update (entries : ℕ → Option (CacheEntry V)) {n : ℕ} (hid : id < n)
    (o : Option (CacheEntry V)) :
    ∑ i ∈ Finset.range n, (Function.update entries id o i).elim 0 CacheEntry.charge +
        (entries id).elim 0 CacheEntry.charge =
      ∑ i ∈ Finset.range n, (entries i).elim 0 CacheEntry.charge + o.elim 0 CacheEntry.charge := by
  have hmem : id ∈ Finset.range n := Finset.mem_range.mpr hid
  have hrest : ∑ i ∈ (Finset.range n).erase id, (Function.update entries id o i).elim 0 CacheEntry.charge =
      ∑ i ∈ (Finset.range n).erase id, (entries i).elim 0 CacheEntry.charge := by
    refine Finset.sum_congr rfl fun i hi => ?_
    rw [Function.update_of_ne (Finset.ne_of_mem_erase hi)]
  rw [← Finset.add_sum_erase _ _ hmem, ← Finset.add_sum_erase _ (fun i => (entries i).elim 0 _) hmem, hrest,
    Function.update_self]
  omega

namespace Inv

/-- What is in the table is in memory. -/
theorem alive_of_mem (h : c.Inv Paired count lru tab) (hid : id ∈ tab) : 0 < count id := by
  obtain ⟨key, hash, hinfo⟩ := h.table.readable id hid
  obtain ⟨e, he, -⟩ := entries_of_info hinfo
  exact (h.alive id).mp ⟨e, he⟩

/-- What has references can be read. -/
theorem info_eq_some (h : c.Inv Paired count lru tab) (he : c.entries id = some e) :
    c.info id = some (e.key, e.hash) :=
  info_eq he (h.next_ne ((h.alive id).mp ⟨e, he⟩))

/-- The invariant holds after the links of the list have changed to another circle. -/
theorem relink (h : c.Inv Paired count lru tab) {links : Links ℕ} {lru' : List ℕ}
    (hring : Ring links lruHead lru') (hne : ∀ id, 0 < count id → links.next id ≠ id) :
    { c with links := links }.Inv Paired count lru' tab where
  ring := hring
  table := by
    refine h.table.congr fun a ha => ?_
    obtain ⟨e, he⟩ := (h.alive a).mpr (h.alive_of_mem ha)
    rw [h.info_eq_some he]
    exact info_eq he (hne a (h.alive_of_mem ha))
  refs := h.refs
  count_lt := h.count_lt
  alive := h.alive
  next_ne := hne _
  nextHandle_pos := h.nextHandle_pos
  allocated := h.allocated
  nodup_freed := h.nodup_freed
  freed_iff := h.freed_iff
  usage := h.usage
  paired := h.paired

/-- `LRU_Remove`, for an entry of the list. -/
theorem lruRemove (h : c.Inv Paired count lru tab) (hid : id ∈ lru) :
    (c.lruRemove id).Inv Paired count (lru.erase id) tab := by
  refine h.relink (h.ring.remove_mem hid) fun x hx => ?_
  by_cases hmem : x ∈ lru.erase id
  · exact (h.ring.remove_mem hid).next_ne_self hmem
  · have hhead : x ≠ lruHead := Nat.ne_of_gt (h.allocated hx).1
    rw [h.ring.next_remove hid (by simp [hhead, hmem])]
    exact h.next_ne hx

/-- `LRU_Append`, for an entry that is not in the list. -/
theorem lruAppend (h : c.Inv Paired count lru tab) (hpos : 0 < id) (hid : id ∉ lru) :
    (c.lruAppend id).Inv Paired count (lru ++ [id]) tab := by
  have hring : Ring (c.links.insertLast lruHead id) lruHead (lru ++ [id]) :=
    h.ring.insertLast (by simp [lruHead, hid, Nat.ne_of_gt hpos])
  refine h.relink hring fun x hx => ?_
  by_cases hmem : x ∈ lru ++ [id]
  · exact hring.next_ne_self hmem
  · have hhead : x ≠ lruHead := Nat.ne_of_gt (h.allocated hx).1
    rw [List.mem_append, List.mem_singleton, not_or] at hmem
    rw [h.ring.next_insertLast (by simp [hhead, hmem.1]) hmem.2]
    exact h.next_ne hx

/-- The invariant holds after the table has changed to one that holds other handles. -/
theorem withTable (h : c.Inv Paired count lru tab) {table : HandleTable} {tab' : List ℕ}
    (ht : table.Holds c.info tab') : { c with table := table }.Inv Paired count lru tab' :=
  { h with table := ht }

/-- Another counter of one entry is a 32-bit word as well. -/
theorem count_lt_update (h : c.Inv Paired count lru tab) {n : ℕ} (hlt : n < 2^32) :
    ∀ x, Function.update count id n x < 2^32 :=
  (Function.forall_update_iff count fun _ n => n < 2^32).mpr ⟨hlt, fun x _ => h.count_lt x⟩

/-- The counter of an entry changes, with its references. -/
theorem write (h : c.Inv Paired count lru tab) (he : c.entries id = some e) {n : ℕ} (hpos : 0 < n)
    (hlt : n < 2^32) :
    { c with entries := Function.update c.entries id (some { e with refs := n }) }.Inv Paired
      (Function.update count id n) lru tab := by
  have hcount : 0 < count id := (h.alive id).mp ⟨e, he⟩
  have hpos_iff : ∀ x, 0 < Function.update count id n x ↔ 0 < count x := by
    intro x
    by_cases hx : x = id
    · subst hx
      rw [Function.update_self]
      exact iff_of_true hpos hcount
    · rw [Function.update_of_ne hx]
  have hentries : ∀ x e', Function.update c.entries id (some { e with refs := n }) x = some e' →
      ∃ e'', c.entries x = some e'' ∧ e'.key = e''.key ∧ e'.hash = e''.hash ∧
        e'.refs = Function.update count id n x := by
    intro x e' he'
    by_cases hx : x = id
    · subst hx
      rw [Function.update_self] at he' ⊢
      cases he'
      exact ⟨e, he, rfl, rfl, rfl⟩
    · rw [Function.update_of_ne hx] at he' ⊢
      exact ⟨e', he', rfl, rfl, h.refs he'⟩
  have hnone : ∀ x, Function.update c.entries id (some { e with refs := n }) x = none ↔ c.entries x = none := by
    intro x
    by_cases hx : x = id
    · subst hx
      rw [Function.update_self, he]
      exact iff_of_false (Option.some_ne_none _) (Option.some_ne_none _)
    · rw [Function.update_of_ne hx]
  exact {
    ring := h.ring
    table := by
      refine h.table.congr fun a ha => ?_
      have hnext := h.next_ne (h.alive_of_mem ha)
      obtain ⟨e', he'⟩ := Option.ne_none_iff_exists'.mp fun hn =>
        Option.ne_none_iff_exists'.mpr ((h.alive a).mpr (h.alive_of_mem ha)) ((hnone a).mp hn)
      obtain ⟨e'', he'', hkey, hhash, -⟩ := hentries a e' he'
      rw [h.info_eq_some he'', ← hkey, ← hhash]
      exact info_eq he' hnext
    refs := fun he' => (hentries _ _ he').choose_spec.2.2.2
    count_lt := h.count_lt_update hlt
    alive := by
      intro x
      rw [hpos_iff, ← h.alive, ← Option.ne_none_iff_exists', ← Option.ne_none_iff_exists']
      exact not_congr (hnone x)
    next_ne := fun hx => h.next_ne ((hpos_iff _).mp hx)
    nextHandle_pos := h.nextHandle_pos
    allocated := fun hx => h.allocated ((hpos_iff _).mp hx)
    nodup_freed := h.nodup_freed
    freed_iff := fun x => (h.freed_iff x).trans (and_congr_right fun _ => (hnone x).symm)
    usage := by
      -- The charge is not changed with the counter.
      have hsum := sum_charges_update c.entries (h.allocated hcount).2 (some { e with refs := n })
      rw [he] at hsum
      exact h.usage.trans (congrArg (· % 2^64) (Nat.add_right_cancel hsum).symm)
    paired := fun he' => by
      obtain ⟨e'', he'', hkey, hhash, -⟩ := hentries _ _ he'
      rw [hkey, hhash]
      exact h.paired he'' }

/-- The last reference to an entry is given back. -/
theorem free (h : c.Inv Paired count lru tab) (he : c.entries id = some e) (hid : id ∉ tab) :
    { c with
      usage := (c.usage + 2^64 - e.charge % 2^64) % 2^64
      entries := Function.update c.entries id none
      freed := c.freed ++ [id] }.Inv Paired (Function.update count id 0) lru tab := by
  have hcount : 0 < count id := (h.alive id).mp ⟨e, he⟩
  have hpos_iff : ∀ x, 0 < Function.update count id 0 x ↔ x ≠ id ∧ 0 < count x := by
    intro x
    by_cases hx : x = id
    · subst hx
      simp
    · rw [Function.update_of_ne hx]
      exact (and_iff_right hx).symm
  have hentries : ∀ x e', Function.update c.entries id none x = some e' → x ≠ id ∧ c.entries x = some e' := by
    intro x e' he'
    by_cases hx : x = id
    · subst hx
      rw [Function.update_self] at he'
      cases he'
    · rw [Function.update_of_ne hx] at he'
      exact ⟨hx, he'⟩
  have hfreed : id ∉ c.freed := by
    rw [h.freed_iff, he]
    exact fun hc => Option.some_ne_none e hc.2
  exact {
    ring := h.ring
    table := by
      refine h.table.congr fun a ha => ?_
      unfold info
      dsimp only
      rw [Function.update_of_ne (ne_of_mem_of_not_mem ha hid)]
    refs := fun he' => by
      obtain ⟨hx, he'⟩ := hentries _ _ he'
      rw [Function.update_of_ne hx]
      exact h.refs he'
    count_lt := h.count_lt_update (Nat.two_pow_pos 32)
    alive := by
      intro x
      rw [hpos_iff, ← h.alive]
      constructor
      · rintro ⟨e', he'⟩
        obtain ⟨hx, he'⟩ := hentries x e' he'
        exact ⟨hx, e', he'⟩
      · rintro ⟨hx, e', he'⟩
        exact ⟨e', (Function.update_of_ne hx ..).trans he'⟩
    next_ne := fun hx => h.next_ne ((hpos_iff _).mp hx).2
    nextHandle_pos := h.nextHandle_pos
    allocated := fun hx => h.allocated ((hpos_iff _).mp hx).2
    nodup_freed := by
      refine List.nodup_append.mpr ⟨h.nodup_freed, List.nodup_singleton id, fun x hx y hy => ?_⟩
      rw [List.mem_singleton.mp hy]
      exact ne_of_mem_of_not_mem hx hfreed
    freed_iff := by
      intro x
      rw [List.mem_append, List.mem_singleton, h.freed_iff]
      dsimp only
      by_cases hx : x = id
      · subst hx
        rw [Function.update_self]
        exact iff_of_true (Or.inr rfl) ⟨h.allocated hcount, rfl⟩
      · rw [Function.update_of_ne hx]
        exact or_iff_left hx
    usage := by
      -- The charge of the entry leaves the sum, and the subtraction of words undoes its addition.
      have hsum := sum_charges_update c.entries (h.allocated hcount).2 none
      rw [he] at hsum
      change _ + e.charge = c.charges + 0 at hsum
      change (c.usage + 2^64 - e.charge % 2^64) % 2^64 = (∑ i ∈ Finset.range c.nextHandle,
        (Function.update c.entries id none i).elim 0 CacheEntry.charge) % 2^64
      rw [h.usage]
      omega
    paired := fun he' => h.paired (hentries _ _ he').2 }

/-- One more reference to an entry in memory is counted, unless the count would wrap. -/
theorem addRef (h : c.Inv Paired count lru tab) (hpos : 0 < count id) (hlt : count id + 1 < 2^32) :
    ∃ c', c.addRef id = some c' ∧ c'.Inv Paired (Function.update count id (count id + 1)) lru tab := by
  obtain ⟨e, he⟩ := (h.alive id).mpr hpos
  unfold CacheMemory.addRef
  rw [he, Option.map_some]
  refine ⟨_, rfl, ?_⟩
  have hrefs : wordSucc 32 e.refs = count id + 1 := by
    rw [h.refs he]
    exact Nat.mod_eq_of_lt hlt
  rw [hrefs]
  exact h.write he (by omega) hlt

/-- `Unref`: the entry goes with its last reference, which the table does not have. -/
theorem unref (h : c.Inv Paired count lru tab) (hpos : 0 < count id) (hlast : count id = 1 → id ∉ tab) :
    ∃ c', c.unref id = some c' ∧ c'.Inv Paired (Function.update count id (count id - 1)) lru tab := by
  obtain ⟨e, he⟩ := (h.alive id).mpr hpos
  have hrefs : wordPred 32 e.refs = count id - 1 := by
    rw [h.refs he]
    have hmod : count id % 2^32 = count id := Nat.mod_eq_of_lt (h.count_lt id)
    have hpred := wordPred_eq (w := 32) hpos (h.count_lt id).le
    rwa [hmod] at hpred
  unfold CacheMemory.unref
  rw [he, Option.bind_some]
  dsimp only
  rw [hrefs]
  by_cases hone : count id = 1
  · rw [if_pos (by omega), h.info_eq_some he, Option.map_some, show count id - 1 = 0 by omega]
    exact ⟨_, rfl, h.free he (hlast hone)⟩
  · rw [if_neg (by omega)]
    exact ⟨_, rfl, h.write he (by omega) ((Nat.sub_le _ _).trans_lt (h.count_lt id))⟩

/-- The charge of a new entry is counted. -/
theorem usage_addEntry (h : c.Inv Paired count lru tab) (hnone : c.entries c.nextHandle = none)
    (e : CacheEntry V) : (c.usage + e.charge) % 2^64 = (∑ i ∈ Finset.range (c.nextHandle + 1),
      (Function.update c.entries c.nextHandle (some e) i).elim 0 CacheEntry.charge) % 2^64 := by
  have hsum := sum_charges_update c.entries (Nat.lt_succ_self c.nextHandle) (some e)
  rw [hnone, Finset.sum_range_succ (fun i => (c.entries i).elim 0 _), hnone] at hsum
  change _ + 0 = c.charges + 0 + e.charge at hsum
  rw [h.usage, Nat.mod_add_mod]
  exact congrArg (· % 2^64) hsum.symm

/-- A new entry, of whose address nothing is known but its place in the list. -/
theorem addEntry (h : c.Inv Paired count lru tab) (hne : c.links.next c.nextHandle ≠ c.nextHandle)
    {key : Slice} {hash : ℕ} (value : V) (charge : ℕ) (hpaired : Paired key hash) :
    { c with
      entries := Function.update c.entries c.nextHandle (some ⟨key, hash, value, charge, 2⟩)
      nextHandle := c.nextHandle + 1
      usage := (c.usage + charge) % 2^64 }.Inv Paired (Function.update count c.nextHandle 2) lru tab := by
  -- Nothing has had the next address before.
  have hcount : ∀ x, 0 < count x → x ≠ c.nextHandle := fun x hx => (h.allocated hx).2.ne
  have hnone : c.entries c.nextHandle = none := by
    rw [← Option.not_isSome_iff_eq_none, Option.isSome_iff_exists, h.alive]
    exact fun hx => hcount _ hx rfl
  have hpos_iff : ∀ x, 0 < Function.update count c.nextHandle 2 x ↔ x = c.nextHandle ∨ 0 < count x := by
    intro x
    by_cases hx : x = c.nextHandle
    · rw [hx, Function.update_self]
      exact iff_of_true Nat.two_pos (Or.inl rfl)
    · rw [Function.update_of_ne hx]
      exact (or_iff_right hx).symm
  have hentries : ∀ x e', Function.update c.entries c.nextHandle (some ⟨key, hash, value, charge, 2⟩) x =
      some e' → (x = c.nextHandle ∧ e' = ⟨key, hash, value, charge, 2⟩) ∨
        (x ≠ c.nextHandle ∧ c.entries x = some e') := by
    intro x e' he'
    by_cases hx : x = c.nextHandle
    · rw [hx, Function.update_self] at he'
      exact Or.inl ⟨hx, (Option.some.inj he').symm⟩
    · rw [Function.update_of_ne hx] at he'
      exact Or.inr ⟨hx, he'⟩
  exact {
    ring := h.ring
    table := by
      refine h.table.congr fun a ha => ?_
      unfold info
      dsimp only
      rw [Function.update_of_ne (hcount a (h.alive_of_mem ha))]
    refs := fun he' => by
      obtain ⟨rfl, rfl⟩ | ⟨hx, he'⟩ := hentries _ _ he'
      · rw [Function.update_self]
      · rw [Function.update_of_ne hx]
        exact h.refs he'
    count_lt := h.count_lt_update (by decide)
    alive := by
      intro x
      rw [hpos_iff, ← h.alive]
      dsimp only
      by_cases hx : x = c.nextHandle
      · rw [hx, Function.update_self]
        exact iff_of_true ⟨_, rfl⟩ (Or.inl rfl)
      · rw [Function.update_of_ne hx]
        exact (or_iff_right hx).symm
    next_ne := fun {x} hx => by
      obtain rfl | hx := (hpos_iff x).mp hx
      · exact hne
      · exact h.next_ne hx
    nextHandle_pos := Nat.succ_pos _
    allocated := fun {x} hx => by
      obtain rfl | hx := (hpos_iff x).mp hx
      · exact ⟨h.nextHandle_pos, Nat.lt_succ_self _⟩
      · exact ⟨(h.allocated hx).1, (h.allocated hx).2.trans (Nat.lt_succ_self _)⟩
    nodup_freed := h.nodup_freed
    freed_iff := by
      intro x
      rw [h.freed_iff]
      dsimp only
      by_cases hx : x = c.nextHandle
      · rw [hx, Function.update_self]
        exact iff_of_false (fun hc => Nat.lt_irrefl _ hc.1.2) (fun hc => Option.some_ne_none _ hc.2)
      · rw [Function.update_of_ne hx]
        have hlt : x < c.nextHandle + 1 ↔ x < c.nextHandle := by omega
        rw [hlt]
    usage := h.usage_addEntry hnone ⟨key, hash, value, charge, 2⟩
    paired := fun he' => by
      obtain ⟨rfl, rfl⟩ | ⟨-, he'⟩ := hentries _ _ he'
      · exact hpaired
      · exact h.paired he' }

end Inv

/-! ## The operations -/

/-- The references to an entry: `pins` outstanding handles, and the cache if it has the entry. -/
def references (pins : ℕ → ℕ) (lru : List ℕ) (id : ℕ) : ℕ := pins id + if id ∈ lru then 1 else 0

/-- The references of an entry with other handles are these and the one of the cache. -/
theorem references_update (pins : ℕ → ℕ) (lru : List ℕ) (id n : ℕ) :
    references (Function.update pins id n) lru =
      Function.update (references pins lru) id (n + if id ∈ lru then 1 else 0) := by
  funext x
  unfold references
  by_cases hx : x = id
  · rw [hx, Function.update_self, Function.update_self]
  · rw [Function.update_of_ne hx, Function.update_of_ne hx]

/-- The cache does not have an entry any more. -/
theorem references_erase (pins : ℕ → ℕ) (hnodup : lru.Nodup) (hid : id ∈ lru) :
    references pins (lru.erase id) = Function.update (references pins lru) id (references pins lru id - 1) := by
  funext x
  unfold references
  by_cases hx : x = id
  · rw [hx, Function.update_self, if_neg hnodup.not_mem_erase, if_pos hid]
    rfl
  · rw [Function.update_of_ne hx]
    simp only [List.mem_erase_of_ne hx]

/-- Only the entries of the list matter, not their order. -/
theorem references_congr (pins : ℕ → ℕ) {lru' : List ℕ} (h : ∀ x, x ∈ lru ↔ x ∈ lru') :
    references pins lru = references pins lru' := by
  funext x
  unfold references
  simp only [h]

/-- Between two operations, the list and the table have the same entries. -/
abbrev Exact (c : CacheMemory V) (Paired : Slice → ℕ → Prop) (pins : ℕ → ℕ) (lru : List ℕ) : Prop :=
  c.Inv Paired (references pins lru) lru lru

/-- A reference to what was found. -/
def pin (pins : ℕ → ℕ) (r : Option ℕ) : ℕ → ℕ := r.elim pins fun id => Function.update pins id (pins id + 1)

/-- What was found comes to the end of the list. -/
def touch (lru : List ℕ) (r : Option ℕ) : List ℕ := HandleTable.without lru r ++ r.toList

/-- There are fewer entries than addresses. -/
theorem Inv.length_lt (h : c.Inv Paired count lru tab) : tab.length < c.nextHandle := by
  have hsub : tab ⊆ List.range' 1 (c.nextHandle - 1) := by
    intro id hid
    obtain ⟨hpos, hlt⟩ := h.allocated (h.alive_of_mem hid)
    rw [List.mem_range'_1]
    omega
  have hle := (h.table.nodup.subperm hsub).length_le
  rw [List.length_range'] at hle
  have hpos := h.nextHandle_pos
  omega

/-- There are fewer entries in the table than a 32-bit word can count. -/
theorem Inv.length_lt_two_pow (h : c.Inv Paired count lru tab) : tab.length < 2^32 := by
  obtain ⟨k, -, hk, hlength⟩ := h.table.length
  have hle := h.table.length_le
  have hpow : 2^k ≤ 2^31 := Nat.pow_le_pow_right Nat.two_pos hk
  omega

/-- Giving back a reference allocates nothing. -/
theorem nextHandle_unref {c' : CacheMemory V} (h : c.unref id = some c') : c'.nextHandle = c.nextHandle := by
  obtain ⟨e, -, h⟩ := Option.bind_eq_some_iff.mp h
  dsimp only at h
  by_cases hlast : wordPred 32 e.refs = 0
  · rw [if_pos hlast] at h
    obtain ⟨-, -, rfl⟩ := Option.map_eq_some_iff.mp h
    rfl
  · rw [if_neg hlast] at h
    cases h
    rfl

/-- Dropping an entry, with or without freeing it, allocates no address. -/
theorem nextHandle_drop {c' : CacheMemory V} {r : Option ℕ} (h : c.drop r = some c') :
    c'.nextHandle = c.nextHandle := by
  cases r with
  | none =>
    cases h
    rfl
  | some old => exact nextHandle_unref (c := c.lruRemove old) h

/-- An entry of the list that the table does not have any more is dropped. -/
theorem Inv.drop (h : c.Inv Paired (references pins lru) lru tab) {r : Option ℕ}
    (hr : ∀ b, r = some b → b ∈ lru ∧ b ∉ tab) :
    ∃ c', c.drop r = some c' ∧
      c'.Inv Paired (references pins (HandleTable.without lru r)) (HandleTable.without lru r) tab := by
  cases r with
  | none => exact ⟨c, rfl, h⟩
  | some old =>
    obtain ⟨hmem, hnot⟩ := hr old rfl
    have hpos : 0 < references pins lru old := by
      unfold references
      rw [if_pos hmem]
      exact Nat.succ_pos _
    obtain ⟨c', hunref, hinv⟩ := (h.lruRemove hmem).unref hpos fun _ => hnot
    rw [← references_erase pins (List.nodup_cons.mp h.ring.nodup).2 hmem] at hinv
    exact ⟨c', hunref, hinv⟩

/-- The oldest entry leaves the list, and then the table, and the cache gives its reference back. -/
theorem Exact.evictOldest {old : ℕ} {rest : List ℕ} (h : c.Exact Paired pins (old :: rest)) :
    ∃ e table c', c.entries old = some e ∧ (c.lruRemove old).info old = some (e.key, e.hash) ∧
      (c.lruRemove old).table.remove (c.lruRemove old).info e.key e.hash = some (some old, table) ∧
      ({ c.lruRemove old with table := table } : CacheMemory V).unref old = some c' ∧
      c'.Exact Paired pins rest := by
  have hremoved := h.lruRemove List.mem_cons_self
  obtain ⟨e, he⟩ := (hremoved.alive old).mpr (h.alive_of_mem List.mem_cons_self)
  have hinfo := hremoved.info_eq_some he
  obtain ⟨r, table, hremove, hr, htable⟩ := hremoved.table.remove hremoved.length_lt_two_pow e.key e.hash
  obtain rfl : r = some old := (hr old).mpr ⟨List.mem_cons_self, hinfo⟩
  have hrest : HandleTable.without (old :: rest) (some old) = rest := List.erase_cons_head ..
  rw [hrest] at htable
  have hnodup := (List.nodup_cons.mp h.ring.nodup).2
  have hpos : 0 < references pins (old :: rest) old := h.alive_of_mem List.mem_cons_self
  obtain ⟨c', hunref, hinv⟩ := (hremoved.withTable htable).unref hpos fun _ => (List.nodup_cons.mp hnodup).1
  rw [← references_erase pins hnodup List.mem_cons_self, List.erase_cons_head] at hinv
  exact ⟨e, table, c', he, hinfo, hremove, hunref, hinv⟩

/-- The loop of `Insert` ends when there is no entry left. -/
theorem Exact.evict_nil {fuel : ℕ} (h : c.Exact Paired pins []) : CacheMemory.evict (fuel + 1) c = some c := by
  unfold CacheMemory.evict
  rw [if_neg fun hc => hc.2 (h.ring.next_head_eq_iff.mpr rfl)]

/-- The loop goes on after the oldest entry as long as the entries do not fit. -/
theorem Exact.evict_cons {old : ℕ} {rest : List ℕ} (h : c.Exact Paired pins (old :: rest))
    (hfull : c.capacity < c.usage) (fuel : ℕ) : ∃ e table c', c.entries old = some e ∧
      ({ c.lruRemove old with table := table } : CacheMemory V).unref old = some c' ∧
      c'.Exact Paired pins rest ∧ CacheMemory.evict (fuel + 1) c = CacheMemory.evict fuel c' := by
  obtain ⟨e, table, c', he, hinfo, hremove, hunref, hexact⟩ := h.evictOldest
  refine ⟨e, table, c', he, hunref, hexact, ?_⟩
  have hold : c.links.next lruHead = old := h.ring.next_head
  have hne : c.links.next lruHead ≠ lruHead := fun heq =>
    List.cons_ne_nil old rest (h.ring.next_head_eq_iff.mp heq)
  rw [CacheMemory.evict, if_pos ⟨hfull, hne⟩]
  dsimp only
  rw [hold, hinfo, Option.bind_some]
  dsimp only
  rw [hremove, Option.bind_some]
  dsimp only
  rw [hunref, Option.bind_some]

/-- `Insert` evicts entries from the beginning of the list until the others fit, or none is left. -/
theorem Exact.evict {fuel : ℕ} : ∀ {c : CacheMemory V} {lru : List ℕ}, c.Exact Paired pins lru →
    lru.length < fuel → ∃ c' evicted lru', CacheMemory.evict fuel c = some c' ∧ lru = evicted ++ lru' ∧
      c'.Exact Paired pins lru' ∧ c'.nextHandle = c.nextHandle ∧ (c'.usage ≤ c'.capacity ∨ lru' = []) := by
  induction fuel with
  | zero =>
    intro c lru _ hlt
    exact absurd hlt (Nat.not_lt_zero _)
  | succ fuel ih =>
    intro c lru h hlt
    cases lru with
    | nil => exact ⟨c, [], [], h.evict_nil, rfl, h, rfl, Or.inr rfl⟩
    | cons old rest =>
      by_cases hfull : c.capacity < c.usage
      · obtain ⟨e, table, c₁, -, hunref, hexact₁, hevict₁⟩ := h.evict_cons hfull fuel
        obtain ⟨c', evicted, lru', hevict, hlru, hexact, hnext, hend⟩ :=
          ih hexact₁ (Nat.lt_of_succ_lt_succ hlt)
        have hnext₁ := nextHandle_unref hunref
        exact ⟨c', old :: evicted, lru', hevict₁.trans hevict, congrArg (old :: ·) hlru, hexact,
          hnext.trans hnext₁, hend⟩
      · refine ⟨c, [], old :: rest, ?_, rfl, h, rfl, Or.inl (Nat.le_of_not_lt hfull)⟩
        unfold CacheMemory.evict
        rw [if_neg fun hc => hfull hc.1]

/-- Nobody has a handle of an entry that was not inserted. -/
theorem Exact.pins_nextHandle (h : c.Exact Paired pins lru) : pins c.nextHandle = 0 := by
  have hzero : ¬0 < references pins lru c.nextHandle := fun hpos =>
    Nat.lt_irrefl _ (h.allocated hpos).2
  unfold references at hzero
  omega

/-- `Insert`, up to its loop: the new entry is the newest, and displaces the one with its key and its hash. -/
theorem Exact.insertEntry (h : c.Exact Paired pins lru) (hlength : lru.length < 2^31) {key : Slice} {hash : ℕ}
    (hpaired : Paired key hash) (value : V) (charge : ℕ) :
    ∃ r table c', (∀ b, r = some b ↔ b ∈ lru ∧ c.info b = some (key, hash)) ∧
      ({ c.newEntry key hash value charge with table := table } : CacheMemory V).drop r = some c' ∧
      c'.Exact Paired (pin pins (some c.nextHandle)) (HandleTable.without lru r ++ [c.nextHandle]) ∧
      c.insert key hash value charge =
        (CacheMemory.evict c'.nextHandle c').map fun result => (c.nextHandle, result) := by
  have hnew : c.nextHandle ∉ lru := fun hmem =>
    Nat.lt_irrefl _ (h.allocated (h.alive_of_mem hmem)).2
  have hring := h.lruAppend h.nextHandle_pos hnew
  have hne : (c.lruAppend c.nextHandle).links.next c.nextHandle ≠ c.nextHandle :=
    hring.ring.next_ne_self (List.mem_append_right lru List.mem_cons_self)
  have hentry := hring.addEntry hne value charge hpaired
  have hreferences : Function.update (references pins lru) c.nextHandle 2 =
      references (pin pins (some c.nextHandle)) (lru ++ [c.nextHandle]) := by
    unfold pin
    rw [Option.elim_some, references_update, h.pins_nextHandle,
      if_pos (List.mem_append_right lru List.mem_cons_self)]
    funext x
    by_cases hx : x = c.nextHandle
    · rw [hx, Function.update_self, Function.update_self]
    · rw [Function.update_of_ne hx, Function.update_of_ne hx]
      unfold references
      simp only [List.mem_append, List.mem_singleton, hx, or_false]
  change (c.newEntry key hash value charge).Inv Paired (Function.update (references pins lru) c.nextHandle 2)
    (lru ++ [c.nextHandle]) lru at hentry
  rw [hreferences] at hentry
  have hinfo : (c.newEntry key hash value charge).info c.nextHandle = some (key, hash) :=
    info_eq (e := ⟨key, hash, value, charge, 2⟩) (Function.update_self ..) hne
  obtain ⟨r, table, hinsert, hr, htable⟩ := hentry.table.insert hnew hinfo fun _ => hlength
  have hsame : ∀ b ∈ lru, (c.newEntry key hash value charge).info b = c.info b := by
    intro b hb
    obtain ⟨e, he⟩ := (h.alive b).mpr (h.alive_of_mem hb)
    have he' : (c.newEntry key hash value charge).entries b = some e :=
      (Function.update_of_ne (ne_of_mem_of_not_mem hb hnew) ..).trans he
    rw [h.info_eq_some he, hentry.info_eq_some he']
  have hr' : ∀ b, r = some b ↔ b ∈ lru ∧ c.info b = some (key, hash) := fun b =>
    (hr b).trans (and_congr_right fun hb => by rw [hsame b hb])
  -- the displaced entry leaves the list
  obtain ⟨c₁, hdrop, hinv⟩ := (hentry.withTable htable).drop (r := r) fun b hb => by
    obtain ⟨hmem, -⟩ := (hr b).mp hb
    refine ⟨List.mem_append_left _ hmem, fun hb' => ?_⟩
    rw [List.mem_append, HandleTable.mem_without h.table.nodup, List.mem_singleton] at hb'
    obtain ⟨-, hne⟩ | rfl := hb'
    · exact hne hb
    · exact hnew hmem
  have hlru : HandleTable.without (lru ++ [c.nextHandle]) r = HandleTable.without lru r ++ [c.nextHandle] := by
    cases hcase : r with
    | none => rfl
    | some old => exact List.erase_append_left _ ((hr old).mp hcase).1
  rw [hlru] at hinv
  refine ⟨r, table, c₁, hr', hdrop, hinv, ?_⟩
  unfold CacheMemory.insert
  dsimp only
  rw [hinsert, Option.bind_some]
  dsimp only
  rw [hdrop, Option.bind_some]

/-- `Insert`: the new entry is the newest, and displaces the one with its key and its hash. -/
theorem Exact.insert (h : c.Exact Paired pins lru) (hlength : lru.length < 2^31) {key : Slice} {hash : ℕ}
    (hpaired : Paired key hash) (value : V) (charge : ℕ) :
    ∃ r c' evicted lru', c.insert key hash value charge = some (c.nextHandle, c') ∧
      (∀ b, r = some b ↔ b ∈ lru ∧ c.info b = some (key, hash)) ∧
      HandleTable.without lru r ++ [c.nextHandle] = evicted ++ lru' ∧
      c'.Exact Paired (pin pins (some c.nextHandle)) lru' ∧ c'.nextHandle = c.nextHandle + 1 ∧
      (c'.usage ≤ c'.capacity ∨ lru' = []) := by
  obtain ⟨r, table, c₁, hr, hdrop, hexact₁, hinsert⟩ := h.insertEntry hlength hpaired value charge
  obtain ⟨c', evicted, lru', hevict, heq, hexact, hnext, hend⟩ := Exact.evict hexact₁ hexact₁.length_lt
  refine ⟨r, c', evicted, lru', ?_, hr, heq, hexact, hnext.trans (nextHandle_drop hdrop), hend⟩
  rw [hinsert, hevict, Option.map_some]

/-- `Lookup`: what is found becomes the newest entry. -/
theorem Exact.lookup (h : c.Exact Paired pins lru) (hlt : ∀ id, pins id + 2 < 2^32) (key : Slice) (hash : ℕ) :
    ∃ r c', c.lookup key hash = some (r, c') ∧
      (∀ b, r = some b ↔ b ∈ lru ∧ c.info b = some (key, hash)) ∧
      c'.Exact Paired (pin pins r) (touch lru r) ∧ c'.nextHandle = c.nextHandle := by
  obtain ⟨r, hlookup, hr⟩ := h.table.lookup key hash
  unfold CacheMemory.lookup
  rw [hlookup, Option.bind_some]
  cases hcase : r with
  | none =>
    subst hcase
    have htouch : touch lru none = lru := List.append_nil lru
    refine ⟨none, c, rfl, hr, ?_, rfl⟩
    rw [htouch]
    exact h
  | some id =>
    subst hcase
    have hmem : id ∈ lru := ((hr id).mp rfl).1
    have hnodup := (List.nodup_cons.mp h.ring.nodup).2
    have hcount : references pins lru id + 1 < 2^32 := by
      unfold references
      rw [if_pos hmem]
      exact hlt id
    obtain ⟨c₁, hadd, hinv⟩ := h.addRef (h.alive_of_mem hmem) hcount
    have hmoved := (hinv.lruRemove hmem).lruAppend (h.allocated (h.alive_of_mem hmem)).1 hnodup.not_mem_erase
    -- The entry moves behind the others, so the counts change for it alone.
    have hperm : lru.Perm (lru.erase id ++ [id]) :=
      (List.perm_cons_erase hmem).trans (List.perm_append_singleton id _).symm
    have hcounts : Function.update (references pins lru) id (references pins lru id + 1) =
        references (pin pins (some id)) (lru.erase id ++ [id]) := by
      rw [← references_congr (pin pins (some id)) fun x => hperm.mem_iff]
      unfold pin
      rw [Option.elim_some, references_update]
      unfold references
      rw [Nat.add_right_comm]
    rw [hcounts] at hmoved
    dsimp only
    rw [hadd]
    have hnext : c₁.nextHandle = c.nextHandle := by
      obtain ⟨e, -, rfl⟩ := Option.map_eq_some_iff.mp hadd
      rfl
    exact ⟨some id, _, rfl, hr, hmoved.withTable (hmoved.table.perm hperm), hnext⟩

/-- `Release` of a handle that is out succeeds, and the counts fit the handles that are still out. -/
theorem Exact.unref (h : c.Exact Paired pins lru) (hpins : 0 < pins id) :
    ∃ c', c.unref id = some c' ∧ c'.Exact Paired (Function.update pins id (pins id - 1)) lru := by
  have hpos : 0 < references pins lru id := Nat.add_pos_left hpins _
  obtain ⟨c', hunref, hinv⟩ := Inv.unref h hpos fun hone hmem => by
    unfold references at hone
    rw [if_pos hmem] at hone
    omega
  refine ⟨c', hunref, ?_⟩
  unfold Exact
  have hsub : references pins lru id - 1 = pins id - 1 + if id ∈ lru then 1 else 0 :=
    Nat.sub_add_comm hpins
  rw [references_update, ← hsub]
  exact hinv

/-- `Erase`: the entry with the key and the hash leaves the table, and then the list. -/
theorem Exact.eraseEntry (h : c.Exact Paired pins lru) (key : Slice) (hash : ℕ) :
    ∃ r table c', (∀ b, r = some b ↔ b ∈ lru ∧ c.info b = some (key, hash)) ∧
      ({ c with table := table } : CacheMemory V).drop r = some c' ∧
      c'.Exact Paired pins (HandleTable.without lru r) ∧ c.erase key hash = some c' := by
  obtain ⟨r, table, hremove, hr, htable⟩ := h.table.remove h.length_lt_two_pow key hash
  obtain ⟨c', hdrop, hinv⟩ := (h.withTable htable).drop (r := r) fun b hb => by
    refine ⟨((hr b).mp hb).1, fun hmem => ?_⟩
    exact ((HandleTable.mem_without h.table.nodup r b).mp hmem).2 hb
  refine ⟨r, table, c', hr, hdrop, hinv, ?_⟩
  unfold CacheMemory.erase
  rw [hremove, Option.bind_some]
  exact hdrop

/-- `Erase`: the entry with the key and the hash leaves the cache. -/
theorem Exact.erase (h : c.Exact Paired pins lru) (key : Slice) (hash : ℕ) :
    ∃ r c', c.erase key hash = some c' ∧ (∀ b, r = some b ↔ b ∈ lru ∧ c.info b = some (key, hash)) ∧
      c'.Exact Paired pins (HandleTable.without lru r) ∧ c'.nextHandle = c.nextHandle := by
  obtain ⟨r, table, c', hr, hdrop, hexact, herase⟩ := h.eraseEntry key hash
  exact ⟨r, c', herase, hr, hexact, nextHandle_drop (c := { c with table := table }) hdrop⟩

end CacheMemory

end LevelDb
