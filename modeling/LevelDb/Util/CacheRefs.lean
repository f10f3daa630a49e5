import Mathlib.Data.List.Nodup
import LevelDb.Util.Cache

/-!
# References to cache entries

The cache is right as long as callers hold a handle fewer than `2^32` times (`LRUCache.Inv`): a handle
that a caller has not released leads to the entry that it was returned for, whatever else is looked up,
inserted, erased and evicted, and no operation touches a handle that is gone.
-/

namespace LevelDb

/-! ## One shard -/

namespace LRUCache

variable {V : Type} {c : LRUCache V} {pins : ℕ → ℕ}

/-- One more reference of a caller. -/
def pin (pins : ℕ → ℕ) (id : ℕ) : ℕ → ℕ := Function.update pins id (pins id + 1)

/-- The references to a handle: those of the callers, and that of the list. -/
def count (pins : ℕ → ℕ) (lru : List ℕ) (id : ℕ) : ℕ := pins id + if id ∈ lru then 1 else 0

/-- What holds between two operations, when the callers have references `pins`. -/
structure Inv (c : LRUCache V) (pins : ℕ → ℕ) : Prop where
  /-- The references are those of the callers and of the list. -/
  accounted : Lib.Accounted LRUHandle.refs 32 c.handles (count pins c.lru)
  /-- The list has no handle twice. -/
  nodup : c.lru.Nodup
  /-- The table has the keys of the list. -/
  table_iff : ∀ {key : Slice} {id : ℕ}, c.table key = some id ↔
    id ∈ c.lru ∧ (c.entry id).map Prod.fst = some key
  /-- Addresses from `nextHandle` on are free. -/
  fresh : ∀ {id : ℕ}, c.nextHandle ≤ id → c.handles id = none

/-- No entry of a cache is new. -/
def Keeps (c' c : LRUCache V) : Prop :=
  ∀ {id : ℕ} {kv : Slice × V}, c'.entry id = some kv → c.entry id = some kv

/-- Two caches with the entries of a third. -/
theorem Keeps.trans {c'' c' c : LRUCache V} (h : Keeps c'' c') (h' : Keeps c' c) : Keeps c'' c :=
  fun hentry => h' (h hentry)

/-- A new shard has no entries, and its counts are right without handles. -/
theorem inv_new (capacity : ℕ) : (({ capacity := capacity } : LRUCache V)).Inv fun _ => 0 where
  accounted := by
    constructor
    · intro id e he
      exact absurd he.symm (Option.some_ne_none e)
    · intro id hpos
      exact absurd hpos (Nat.lt_irrefl 0)
  nodup := List.nodup_nil
  table_iff := by
    intro key id
    constructor
    · intro h
      exact absurd h.symm (Option.some_ne_none id)
    · intro h
      exact absurd h.1 List.not_mem_nil
  fresh := fun _ => rfl

/-- The entries when a handle was written or freed. -/
theorem entry_of_update {c' : LRUCache V} {id : ℕ} {x : Option (LRUHandle V)}
    (h : c'.handles = Function.update c.handles id x) (id' : ℕ) :
    c'.entry id' = if id' = id then x.map fun e => (e.key, e.value) else c.entry id' := by
  unfold entry
  rw [h, Function.update_apply]
  split_ifs
  · rfl
  · rfl

/-- The entries when the references to a handle were counted. -/
theorem entry_of_update_refs {c' : LRUCache V} {id : ℕ} {e e' : LRUHandle V} (he : c.handles id = some e)
    (h : c'.handles = Function.update c.handles id (some e')) (hkey : e'.key = e.key)
    (hvalue : e'.value = e.value) (id' : ℕ) : c'.entry id' = c.entry id' := by
  rw [entry_of_update h]
  split_ifs with heq
  · unfold entry
    rw [heq, he, Option.map_some, Option.map_some, hkey, hvalue]
  · rfl

/-- Handles that are free stay so when another one is written. -/
theorem Inv.fresh_update (h : c.Inv pins) {id : ℕ} {e : LRUHandle V} (he : c.handles id = some e)
    (x : Option (LRUHandle V)) {id' : ℕ} (hid' : c.nextHandle ≤ id') :
    Function.update c.handles id x id' = none := by
  have hne : id' ≠ id := by
    rintro rfl
    rw [h.fresh hid'] at he
    exact absurd he.symm (Option.some_ne_none e)
  rw [Function.update_of_ne hne, h.fresh hid']

/-- A handle with a reference has an entry. -/
theorem Inv.exists_entry (h : c.Inv pins) {id : ℕ} (hpos : 0 < count pins c.lru id) :
    ∃ kv, c.entry id = some kv := by
  obtain ⟨e, he⟩ := h.accounted.alive hpos
  refine ⟨(e.key, e.value), ?_⟩
  unfold entry
  rw [he]
  rfl

/-- A handle that a caller has not released has an entry. -/
theorem Inv.exists_entry_of_pinned (h : c.Inv pins) {id : ℕ} (hpos : 0 < pins id) :
    ∃ kv, c.entry id = some kv :=
  h.exists_entry (Nat.lt_of_lt_of_le hpos (Nat.le_add_right _ _))

/-- Nobody has a reference to the next handle. -/
theorem Inv.count_nextHandle (h : c.Inv pins) : count pins c.lru c.nextHandle = 0 := by
  by_contra hne
  obtain ⟨e, he⟩ := h.accounted.alive (Nat.pos_of_ne_zero hne)
  rw [h.fresh le_rfl] at he
  exact absurd he.symm (Option.some_ne_none e)

/-- A cache with the same list and table, and the same entries in them. -/
theorem Inv.of_entry {c' : LRUCache V} {pins' : ℕ → ℕ} (h : c.Inv pins)
    (haccounted : Lib.Accounted LRUHandle.refs 32 c'.handles (count pins' c'.lru))
    (hperm : c'.lru.Perm c.lru) (htable : c'.table = c.table)
    (hentry : ∀ id ∈ c.lru, c'.entry id = c.entry id)
    (hfresh : ∀ {id : ℕ}, c'.nextHandle ≤ id → c'.handles id = none) : c'.Inv pins' where
  accounted := haccounted
  nodup := hperm.nodup_iff.mpr h.nodup
  table_iff := by
    intro key id
    rw [htable, h.table_iff, hperm.mem_iff]
    constructor
    · rintro ⟨hmem, hkey⟩
      exact ⟨hmem, by rw [hentry id hmem, hkey]⟩
    · rintro ⟨hmem, hkey⟩
      exact ⟨hmem, by rw [← hentry id hmem, hkey]⟩
  fresh := hfresh

/-- The references with one more, where it is. -/
theorem count_pin_self (pins : ℕ → ℕ) (lru : List ℕ) (id : ℕ) :
    count (pin pins id) lru id = count pins lru id + 1 := by
  unfold count pin
  rw [Function.update_self]
  omega

/-- One more reference of a caller to one handle changes no count of another handle. -/
theorem count_pin_of_ne (pins : ℕ → ℕ) (lru : List ℕ) {id id' : ℕ} (hne : id' ≠ id) :
    count (pin pins id) lru id' = count pins lru id' := by
  unfold count pin
  rw [Function.update_of_ne hne]

/-- When a caller gives one reference back, the counts are those without it. -/
theorem update_count_pin (pins : ℕ → ℕ) (lru : List ℕ) (id : ℕ) :
    Function.update (count (pin pins id) lru) id (count pins lru id) = count pins lru := by
  funext id'
  by_cases heq : id' = id
  · rw [heq, Function.update_self]
  · rw [Function.update_of_ne heq, count_pin_of_ne pins lru heq]

/-- One more reference to a handle is one more reference of a caller. -/
theorem update_count (pins : ℕ → ℕ) (lru : List ℕ) (id : ℕ) :
    Function.update (count pins lru) id (count pins lru id + 1) = count (pin pins id) lru := by
  funext id'
  by_cases heq : id' = id
  · rw [heq, Function.update_self, count_pin_self]
  · rw [Function.update_of_ne heq, count_pin_of_ne pins lru heq]

/-! ### The operations -/

/-- `Unref`: a reference is given back, and the entry goes with the last one. -/
theorem Inv.unref {id : ℕ} (h : c.Inv (pin pins id)) (hle : count (pin pins id) c.lru id ≤ 2^32) :
    ∃ c', c.unref id = some c' ∧ c'.Inv pins ∧ Keeps c' c := by
  have hpos : 0 < count (pin pins id) c.lru id := by
    rw [count_pin_self]
    exact Nat.succ_pos _
  obtain ⟨e, he⟩ := h.accounted.alive hpos
  have hrefs : Lib.wordPred 32 e.refs = count pins c.lru id := by
    rw [h.accounted.refs_eq he, Lib.wordPred_eq hpos hle, count_pin_self, Nat.add_sub_cancel]
  have hlt : count pins c.lru id < 2^32 := by
    rw [count_pin_self] at hle
    exact hle
  unfold LRUCache.unref
  rw [he, Option.bind_eq_bind, Option.bind_some, hrefs]
  dsimp only
  generalize (c.usage + 2^64 - e.charge % 2^64) % 2^64 = usage
  split_ifs with hzero
  · -- The last reference is gone, and the list does not have the entry.
    have hnot : id ∉ c.lru := by
      intro hmem
      unfold count at hzero
      rw [if_pos hmem] at hzero
      omega
    have hentry : ∀ id', ({ c with usage := usage, handles := Function.update c.handles id none } :
        LRUCache V).entry id' = if id' = id then none else c.entry id' :=
      entry_of_update (x := none) rfl
    refine ⟨_, rfl, h.of_entry ?_ (List.Perm.refl _) rfl ?_ (h.fresh_update he none), ?_⟩
    · have hfree := h.accounted.free id
      rw [← hzero, update_count_pin] at hfree
      exact hfree
    · intro id' hmem
      have hne : id' ≠ id := fun heq => hnot (heq ▸ hmem)
      rw [hentry, if_neg hne]
    · intro id' kv hkv
      rw [hentry] at hkv
      split_ifs at hkv
      exact hkv
  · have hwrite := h.accounted.write id (a := { e with refs := count pins c.lru id })
      (Nat.mod_eq_of_lt hlt).symm
    rw [update_count_pin] at hwrite
    generalize hcell : ({ e with refs := count pins c.lru id } : LRUHandle V) = cell at hwrite ⊢
    have hentry : ∀ id', ({ c with handles := Function.update c.handles id (some cell) } :
        LRUCache V).entry id' = c.entry id' :=
      entry_of_update_refs he rfl (by rw [← hcell]) (by rw [← hcell])
    refine ⟨_, rfl, h.of_entry hwrite (List.Perm.refl _) rfl (fun id' _ => hentry id')
      (h.fresh_update he _), ?_⟩
    intro id' kv hkv
    rw [← hentry]
    exact hkv

/-- A handle leaves the list, whose reference is still to be given back. -/
theorem Inv.unlink {id : ℕ} {key : Slice} (h : c.Inv pins) (hid : c.table key = some id) :
    ({ c with table := Function.update c.table key none, lru := c.lru.erase id } : LRUCache V).Inv
      (pin pins id) := by
  obtain ⟨hmem, hkey⟩ := h.table_iff.mp hid
  constructor
  case accounted =>
    have hcount : count (pin pins id) (c.lru.erase id) = count pins c.lru := by
      funext id'
      by_cases heq : id' = id
      · subst heq
        unfold count pin
        rw [Function.update_self, if_neg h.nodup.not_mem_erase, if_pos hmem]
      · rw [count_pin_of_ne _ _ heq]
        unfold count
        simp only [List.mem_erase_of_ne heq]
    dsimp only
    rw [hcount]
    exact h.accounted
  case nodup => exact h.nodup.erase id
  case fresh => exact h.fresh
  case table_iff =>
    intro key' id'
    dsimp only
    rw [h.nodup.mem_erase_iff]
    change _ ↔ _ ∧ (c.entry id').map Prod.fst = some key'
    by_cases heq : key' = key
    · subst heq
      rw [Function.update_self]
      constructor
      · intro hnone
        exact absurd hnone.symm (Option.some_ne_none id')
      · rintro ⟨⟨hne, hmem'⟩, hkey'⟩
        -- The table has one handle for a key.
        have hid' := h.table_iff.mpr ⟨hmem', hkey'⟩
        exact absurd (Option.some.inj (hid'.symm.trans hid)) hne
    · rw [Function.update_of_ne heq, h.table_iff]
      constructor
      · rintro ⟨hmem', hkey'⟩
        refine ⟨⟨?_, hmem'⟩, hkey'⟩
        rintro rfl
        exact heq (Option.some.inj (hkey'.symm.trans hkey))
      · rintro ⟨⟨-, hmem'⟩, hkey'⟩
        exact ⟨hmem', hkey'⟩

/-- A handle leaves the list for good. -/
theorem Inv.unlink_unref {id : ℕ} {key : Slice} (h : c.Inv pins) (hpins : ∀ id, pins id < 2^32)
    (hid : c.table key = some id) :
    ∃ c', ({ c with table := Function.update c.table key none, lru := c.lru.erase id } :
      LRUCache V).unref id = some c' ∧ c'.Inv pins ∧ Keeps c' c := by
  have hle : count (pin pins id) (c.lru.erase id) id ≤ 2^32 := by
    unfold count pin
    rw [Function.update_self, if_neg h.nodup.not_mem_erase]
    exact hpins id
  exact (h.unlink hid).unref hle

/-- `LRUCache::Erase` succeeds, keeps the counts right and adds no entry. -/
theorem Inv.erase (h : c.Inv pins) (hpins : ∀ id, pins id < 2^32) (key : Slice) :
    ∃ c', c.erase key = some c' ∧ c'.Inv pins ∧ Keeps c' c := by
  unfold LRUCache.erase
  cases hid : c.table key with
  | none => exact ⟨c, rfl, h, fun hentry => hentry⟩
  | some id =>
    exact h.unlink_unref hpins hid

/-- `LRUCache::Release` of a handle that is out succeeds, keeps the counts right and adds no entry. -/
theorem Inv.release {id : ℕ} (h : c.Inv (pin pins id)) (hpins : ∀ id', pin pins id id' < 2^32) :
    ∃ c', c.unref id = some c' ∧ c'.Inv pins ∧ Keeps c' c := by
  have hle : count (pin pins id) c.lru id ≤ 2^32 := by
    have hlt := hpins id
    unfold count
    split_ifs
    · exact hlt
    · exact Nat.le_of_lt hlt
  exact h.unref hle

/-- The loop that evicts old entries succeeds, keeps the counts right and adds no entry. -/
theorem Inv.evict (hpins : ∀ id, pins id < 2^32) : ∀ (fuel : ℕ) {c : LRUCache V}, c.Inv pins →
    ∃ c', c.evict fuel = some c' ∧ c'.Inv pins ∧ Keeps c' c := by
  intro fuel
  induction fuel with
  | zero => exact fun h => ⟨_, rfl, h, fun hentry => hentry⟩
  | succ fuel ih =>
    intro c h
    unfold LRUCache.evict
    split
    · exact ⟨c, rfl, h, fun hentry => hentry⟩
    · next old rest hlru =>
      have hmem : old ∈ c.lru := hlru ▸ List.mem_cons_self
      split_ifs
      · have hpos : 0 < count pins c.lru old := by
          unfold count
          rw [if_pos hmem]
          exact Nat.succ_pos _
        obtain ⟨e, he⟩ := h.accounted.alive hpos
        have hid : c.table e.key = some old := h.table_iff.mpr ⟨hmem, by unfold entry; rw [he]; rfl⟩
        have hrest : c.lru.erase old = rest := by rw [hlru, List.erase_cons_head]
        obtain ⟨c', hc', hinv, hkeeps⟩ := h.unlink_unref hpins hid
        rw [hrest] at hc'
        obtain ⟨c'', hc'', hinv'', hkeeps''⟩ := ih hinv
        refine ⟨c'', ?_, hinv'', hkeeps''.trans hkeeps⟩
        simp only [he, Option.bind_eq_bind, Option.bind_some, hc', hc'']
      · exact ⟨c, rfl, h, fun hentry => hentry⟩

/-- `LRUCache::Lookup` returns a handle of an entry with the key, which the caller holds from then on. -/
theorem Inv.lookup (h : c.Inv pins) (key : Slice) :
    c.lookup key = some (none, c) ∨ ∃ id c' value, c.lookup key = some (some id, c') ∧
      c'.Inv (pin pins id) ∧ Keeps c' c ∧ c.entry id = some (key, value) := by
  unfold LRUCache.lookup
  cases hid : c.table key with
  | none => exact .inl rfl
  | some id =>
    obtain ⟨hmem, hkey⟩ := h.table_iff.mp hid
    have hpos : 0 < count pins c.lru id := by
      unfold count
      rw [if_pos hmem]
      exact Nat.succ_pos _
    obtain ⟨e, he⟩ := h.accounted.alive hpos
    have hvalue : c.entry id = some (key, e.value) := by
      unfold entry at hkey ⊢
      rw [he] at hkey ⊢
      exact congrArg some (Prod.ext (Option.some.inj hkey) rfl)
    -- The handle goes to the end of the list, which has the same handles as before.
    have hperm : (c.lru.erase id ++ [id]).Perm c.lru :=
      (List.perm_append_comm).trans (List.perm_cons_erase hmem).symm
    have hcount : count (pin pins id) (c.lru.erase id ++ [id]) = count (pin pins id) c.lru := by
      funext id'
      unfold count
      simp only [hperm.mem_iff]
    have hlookup : (do
        let e ← c.handles id
        some (some id, { c with
          handles := Function.update c.handles id (some { e with refs := Lib.wordSucc 32 e.refs })
          lru := c.lru.erase id ++ [id] })) = some (some id, { c with
            handles := Function.update c.handles id (some { e with refs := Lib.wordSucc 32 e.refs })
            lru := c.lru.erase id ++ [id] }) := by
      rw [he, Option.bind_eq_bind, Option.bind_some]
    generalize hcell : ({ e with refs := Lib.wordSucc 32 e.refs } : LRUHandle V) = cell at hlookup
    have hrefs : cell.refs = (count pins c.lru id + 1) % 2^32 := by
      rw [← hcell]
      dsimp only
      rw [h.accounted.refs_eq he, Lib.wordSucc_mod]
    have hentry : ∀ id', ({ c with
        handles := Function.update c.handles id (some cell)
        lru := c.lru.erase id ++ [id] } : LRUCache V).entry id' = c.entry id' :=
      entry_of_update_refs he rfl (by rw [← hcell]) (by rw [← hcell])
    refine .inr ⟨id, _, e.value, hlookup, h.of_entry ?_ hperm rfl (fun id' _ => hentry id')
      (h.fresh_update he _), ?_, hvalue⟩
    · dsimp only
      rw [hcount, ← update_count]
      exact h.accounted.write id hrefs
    · intro id' kv hkv
      rw [← hentry]
      exact hkv

/-- The list does not have the next handle. -/
theorem Inv.nextHandle_not_mem (h : c.Inv pins) : c.nextHandle ∉ c.lru := by
  intro hmem
  have hzero := h.count_nextHandle
  unfold count at hzero
  rw [if_pos hmem] at hzero
  omega

/-- The callers do not have the next handle. -/
theorem Inv.pins_nextHandle (h : c.Inv pins) : pins c.nextHandle = 0 :=
  Nat.eq_zero_of_add_eq_zero_right h.count_nextHandle

/-- A new entry is added to those of the cache, and these stay. -/
theorem entry_append (c : LRUCache V) (key : Slice) (value : V) (charge id : ℕ) :
    (c.append key value charge).entry id = if id = c.nextHandle then some (key, value) else c.entry id :=
  entry_of_update (x := some ⟨key, value, charge, 2⟩) rfl id

/-- A new handle enters the list, and the caller holds it. -/
theorem Inv.append (h : c.Inv pins) {key : Slice} (hkey : c.table key = none) (value : V) (charge : ℕ) :
    (c.append key value charge).Inv (pin pins c.nextHandle) := by
  have hnot := h.nextHandle_not_mem
  constructor
  case accounted =>
    have hcount : count (pin pins c.nextHandle) (c.lru ++ [c.nextHandle]) =
        Function.update (count pins c.lru) c.nextHandle 2 := by
      funext id
      by_cases heq : id = c.nextHandle
      · subst heq
        unfold count pin
        rw [Function.update_self, Function.update_self, h.pins_nextHandle,
          if_pos (List.mem_append_right _ List.mem_cons_self)]
      · rw [count_pin_of_ne _ _ heq, Function.update_of_ne heq]
        unfold count
        simp only [List.mem_append, List.mem_singleton, heq, or_false]
    -- One reference is the one of the cache, the other one that of the caller.
    have htwo : 2 = 2 % 2^32 := by decide
    unfold LRUCache.append
    dsimp only
    rw [hcount]
    exact h.accounted.write c.nextHandle htwo
  case nodup =>
    exact List.nodup_append'.mpr ⟨h.nodup, List.nodup_singleton _, by
      rw [List.disjoint_singleton]
      exact hnot⟩
  case fresh =>
    intro id hid
    unfold LRUCache.append at hid ⊢
    dsimp only at hid ⊢
    rw [Function.update_of_ne (by omega), h.fresh (by omega)]
  case table_iff =>
    intro key' id
    rw [entry_append]
    unfold LRUCache.append
    dsimp only
    rw [List.mem_append, List.mem_singleton]
    -- The key had no entry before, and the other keys keep theirs.
    by_cases heq : key' = key
    · subst heq
      rw [Function.update_self]
      constructor
      · intro hid
        obtain rfl := Option.some.inj hid
        rw [if_pos rfl]
        exact ⟨.inr rfl, rfl⟩
      · rintro ⟨hmem | rfl, hid⟩
        · have hne : id ≠ c.nextHandle := fun heq => hnot (heq ▸ hmem)
          rw [if_neg hne] at hid
          have htable := h.table_iff.mpr ⟨hmem, hid⟩
          exact absurd (htable.symm.trans hkey) (Option.some_ne_none id)
        · rfl
    · rw [Function.update_of_ne heq, h.table_iff]
      constructor
      · rintro ⟨hmem, hid⟩
        have hne : id ≠ c.nextHandle := fun heq => hnot (heq ▸ hmem)
        rw [if_neg hne]
        exact ⟨.inl hmem, hid⟩
      · rintro ⟨hmem | rfl, hid⟩
        · have hne : id ≠ c.nextHandle := fun heq => hnot (heq ▸ hmem)
          rw [if_neg hne] at hid
          exact ⟨hmem, hid⟩
        · rw [if_pos rfl] at hid
          exact absurd (Option.some.inj hid).symm heq

/-- A new handle enters the list, and the old one with the same key goes. -/
theorem Inv.append_dropOld (h : c.Inv pins) (hpins : ∀ id, pins id < 2^32) (key : Slice) (value : V)
    (charge : ℕ) : ∃ c', (c.append key value charge).dropOld (c.table key) = some c' ∧
      c'.Inv (pin pins c.nextHandle) ∧ Keeps c' (c.append key value charge) := by
  cases hold : c.table key with
  | none => exact ⟨_, rfl, h.append hold value charge, fun hentry => hentry⟩
  | some old =>
    have hmem := (h.table_iff.mp hold).1
    have hne : old ≠ c.nextHandle := fun heq => h.nextHandle_not_mem (heq ▸ hmem)
    -- It makes no difference when the old one leaves the list and the table.
    have hswap : ({ c with
          table := Function.update c.table key none
          lru := c.lru.erase old } : LRUCache V).append key value charge =
        { c.append key value charge with lru := (c.append key value charge).lru.erase old } := by
      unfold LRUCache.append
      dsimp only
      rw [Function.update_idem, ← List.erase_append_left _ hmem]
    have hinv := (h.unlink hold).append (Function.update_self ..) value charge
    rw [hswap] at hinv
    have hcomm : pin (pin pins old) c.nextHandle = pin (pin pins c.nextHandle) old := by
      unfold pin
      rw [Function.update_of_ne hne.symm, Function.update_of_ne hne, Function.update_comm hne]
    change LRUCache.Inv _ (pin (pin pins old) c.nextHandle) at hinv
    rw [hcomm] at hinv
    refine hinv.unref ?_
    have hnot : old ∉ (c.lru ++ [c.nextHandle]).erase old := by
      rw [List.erase_append_left _ hmem, List.mem_append, List.mem_singleton]
      exact not_or.mpr ⟨h.nodup.not_mem_erase, hne⟩
    change count _ ((c.lru ++ [c.nextHandle]).erase old) old ≤ 2^32
    unfold count pin
    rw [if_neg hnot, Function.update_self, Function.update_of_ne hne]
    exact hpins old

/-- `LRUCache::Insert` returns a handle of the new entry, which the caller holds from then on. -/
theorem Inv.insert (h : c.Inv pins) (hpins : ∀ id, pins id < 2^32) (key : Slice) (value : V) (charge : ℕ) :
    ∃ id c', c.insert key value charge = some (id, c') ∧ c'.Inv (pin pins id) ∧ c.entry id = none ∧
      c'.entry id = some (key, value) ∧ ∀ {id' : ℕ} {kv : Slice × V}, c'.entry id' = some kv →
        c.entry id' = some kv ∨ id' = id ∧ kv = (key, value) := by
  have hpins' : ∀ id, pin pins c.nextHandle id < 2^32 := by
    intro id
    unfold pin
    by_cases heq : id = c.nextHandle
    · rw [heq, Function.update_self, h.pins_nextHandle]
      decide
    · rw [Function.update_of_ne heq]
      exact hpins id
  obtain ⟨c₁, hc₁, hinv₁, hkeeps₁⟩ := h.append_dropOld hpins key value charge
  obtain ⟨c₂, hc₂, hinv₂, hkeeps₂⟩ := Inv.evict hpins' c₁.lru.length hinv₁
  have hentry : ∀ {id' : ℕ} {kv : Slice × V}, c₂.entry id' = some kv →
      (if id' = c.nextHandle then some (key, value) else c.entry id') = some kv := by
    intro id' kv hkv
    rw [← entry_append c key value charge]
    exact hkeeps₁ (hkeeps₂ hkv)
  refine ⟨c.nextHandle, c₂, ?_, hinv₂, ?_, ?_, ?_⟩
  · unfold LRUCache.insert
    rw [hc₁, Option.bind_eq_bind, Option.bind_some, hc₂, Option.bind_some]
  · unfold entry
    rw [h.fresh le_rfl]
    rfl
  · -- The caller holds the handle, so that it was not evicted.
    have hpinned : 0 < pin pins c.nextHandle c.nextHandle := by
      unfold pin
      rw [Function.update_self]
      exact Nat.succ_pos _
    obtain ⟨kv, hkv⟩ := hinv₂.exists_entry_of_pinned hpinned
    have hnew := hentry hkv
    rw [if_pos rfl] at hnew
    rw [hkv, hnew]
  · intro id' kv hkv
    have hnew := hentry hkv
    split_ifs at hnew with heq
    · exact .inr ⟨heq, (Option.some.inj hnew).symm⟩
    · exact .inl hnew

/-! ### The number of entries -/

/-- An operation has at most one entry more in the list afterwards. -/
def Grows (c' c : LRUCache V) : Prop := c'.lru.length ≤ c.lru.length + 1

/-- `Unref` changes counts and may free an entry, and leaves the list as it is. -/
theorem unref_lru {c' : LRUCache V} {id : ℕ} (h : c.unref id = some c') : c'.lru = c.lru := by
  unfold LRUCache.unref at h
  obtain ⟨e, -, hc'⟩ := Option.bind_eq_some_iff.mp h
  dsimp only at hc'
  split_ifs at hc'
  · rw [← Option.some.inj hc']
  · rw [← Option.some.inj hc']

/-- `Lookup` takes what it finds from its place in the list and puts it at the end. -/
theorem grows_lookup {c' : LRUCache V} {key : Slice} {r : Option ℕ} (h : c.lookup key = some (r, c')) :
    c'.Grows c := by
  unfold Grows
  unfold LRUCache.lookup at h
  cases hid : c.table key with
  | none =>
    rw [hid] at h
    rw [← (Prod.mk.inj (Option.some.inj h)).2]
    exact Nat.le_succ _
  | some id =>
    rw [hid] at h
    obtain ⟨e, -, h⟩ := Option.bind_eq_some_iff.mp h
    rw [← (Prod.mk.inj (Option.some.inj h)).2, List.length_append, List.length_singleton]
    exact Nat.succ_le_succ (List.length_erase_le)

/-- The eviction of old entries makes the list no longer. -/
theorem length_evict_le : ∀ {fuel : ℕ} {c c' : LRUCache V}, c.evict fuel = some c' →
    c'.lru.length ≤ c.lru.length := by
  intro fuel
  induction fuel with
  | zero =>
    intro c c' hc'
    rw [← Option.some.inj hc']
  | succ fuel ih =>
    intro c c' hc'
    unfold LRUCache.evict at hc'
    split at hc'
    · rw [← Option.some.inj hc']
    · next old rest hlru =>
      split_ifs at hc'
      · obtain ⟨e, -, hmore⟩ := Option.bind_eq_some_iff.mp hc'
        obtain ⟨c₁, hc₁, hend⟩ := Option.bind_eq_some_iff.mp hmore
        have hrest := ih hend
        rw [unref_lru hc₁] at hrest
        rw [hlru]
        exact hrest.trans (Nat.le_succ _)
      · rw [← Option.some.inj hc']

/-- `Insert` adds an entry before it drops others. -/
theorem grows_insert {c' : LRUCache V} {key : Slice} {value : V} {charge id : ℕ}
    (h : c.insert key value charge = some (id, c')) : c'.Grows c := by
  obtain ⟨c₁, hdrop, h⟩ := Option.bind_eq_some_iff.mp h
  obtain ⟨c₂, hevict, h⟩ := Option.bind_eq_some_iff.mp h
  obtain rfl := (Prod.mk.inj (Option.some.inj h)).2
  have happend : (c.append key value charge).lru.length = c.lru.length + 1 := List.length_append
  refine (length_evict_le hevict).trans (le_of_le_of_eq ?_ happend)
  cases hold : c.table key with
  | none =>
    rw [hold] at hdrop
    rw [← Option.some.inj hdrop]
  | some old =>
    rw [hold] at hdrop
    rw [unref_lru hdrop]
    exact List.length_erase_le

/-- `Erase` may take an entry out of the list, and adds none. -/
theorem grows_erase {c' : LRUCache V} {key : Slice} (h : c.erase key = some c') : c'.Grows c := by
  unfold Grows
  unfold LRUCache.erase at h
  cases hid : c.table key with
  | none =>
    rw [hid] at h
    rw [← Option.some.inj h]
    exact Nat.le_succ _
  | some id =>
    rw [hid] at h
    rw [unref_lru h]
    exact (List.length_erase_le).trans (Nat.le_succ _)

end LRUCache

/-! ## Shards -/

namespace ShardedLRUCache

variable {V : Type} {c : ShardedLRUCache V} {pins : List CacheHandle}

/-- What holds between two operations, when the callers hold handles `pins`. -/
def Inv (c : ShardedLRUCache V) (pins : List CacheHandle) : Prop :=
  ∀ s, (c.shard s).Inv fun id => pins.count (s, id)

/-- No entry of a cache is new. -/
def Keeps (c' c : ShardedLRUCache V) : Prop :=
  ∀ {h : CacheHandle} {kv : Slice × V}, c'.entry h = some kv → c.entry h = some kv

/-- The counts of a new cache are right in every shard, without handles. -/
theorem inv_new (capacity : ℕ) : (newLRUCache V capacity).Inv [] :=
  fun _ => LRUCache.inv_new _

/-- The order in which handles were taken makes no difference. -/
theorem Inv.perm {pins' : List CacheHandle} (h : c.Inv pins) (hperm : pins.Perm pins') : c.Inv pins' := by
  intro s
  simp only [← hperm.count_eq]
  exact h s

/-- A new number changes nothing else. -/
theorem Inv.newId (h : c.Inv pins) : c.newId.2.Inv pins := h

/-- A handle that a caller has not released has an entry. -/
theorem Inv.exists_entry (h : c.Inv pins) {handle : CacheHandle} (hmem : handle ∈ pins) :
    ∃ kv, c.entry handle = some kv :=
  (h handle.1).exists_entry_of_pinned (List.count_pos_iff.mpr hmem)

/-- The handles of a shard with one more. -/
theorem count_cons_shard (pins : List CacheHandle) (s : Fin kNumShards) (id : ℕ) :
    (fun id' => ((s, id) :: pins).count (s, id')) = LRUCache.pin (fun id' => pins.count (s, id')) id := by
  funext id'
  unfold LRUCache.pin
  by_cases heq : id' = id
  · rw [heq, Function.update_self, List.count_cons_self]
  · rw [Function.update_of_ne heq, List.count_cons_of_ne]
    exact fun hpair => heq (Prod.mk.inj hpair).2.symm

/-- A handle of one shard does not count among those of another shard. -/
theorem count_cons_other (pins : List CacheHandle) {s s' : Fin kNumShards} (hne : s' ≠ s) (id : ℕ) :
    (fun id' => ((s, id) :: pins).count (s', id')) = fun id' => pins.count (s', id') := by
  funext id'
  rw [List.count_cons_of_ne]
  exact fun hpair => hne (Prod.mk.inj hpair).1.symm

/-- An operation on a shard keeps the others. -/
theorem inv_update {s : Fin kNumShards} {shard : LRUCache V} {pins' : List CacheHandle} (h : c.Inv pins)
    (hshard : shard.Inv fun id => pins'.count (s, id))
    (hother : ∀ s' ≠ s, (fun id => pins'.count (s', id)) = fun id => pins.count (s', id)) :
    ({ c with shard := Function.update c.shard s shard } : ShardedLRUCache V).Inv pins' := by
  intro s'
  dsimp only
  by_cases heq : s' = s
  · rw [heq, Function.update_self]
    exact hshard
  · rw [Function.update_of_ne heq, hother s' heq]
    exact h s'

/-- The entries when a shard was changed. -/
theorem entry_update {s : Fin kNumShards} {shard : LRUCache V} {h : CacheHandle} {kv : Slice × V}
    (hkv : ({ c with shard := Function.update c.shard s shard } : ShardedLRUCache V).entry h = some kv) :
    h.1 = s ∧ shard.entry h.2 = some kv ∨ c.entry h = some kv := by
  unfold entry at hkv ⊢
  dsimp only at hkv
  by_cases heq : h.1 = s
  · rw [heq, Function.update_self] at hkv
    exact .inl ⟨heq, hkv⟩
  · rw [Function.update_of_ne heq] at hkv
    exact .inr hkv

/-- If one shard gets no new entries and the others stay, the cache has no new entries. -/
theorem keeps_update {s : Fin kNumShards} {shard : LRUCache V} (h : LRUCache.Keeps shard (c.shard s)) :
    Keeps ({ c with shard := Function.update c.shard s shard } : ShardedLRUCache V) c := by
  intro handle kv hkv
  obtain ⟨rfl, hshard⟩ | hother := entry_update hkv
  · exact h hshard
  · exact hother

/-- `Lookup` returns nothing, or a handle of an entry with the key that the caller holds from then on. -/
theorem Inv.lookup (h : c.Inv pins) (key : Slice) :
    (∃ c', c.lookup key = some (none, c') ∧ c'.Inv pins ∧ Keeps c' c ∧ c'.lastId = c.lastId) ∨
      ∃ handle c' value, c.lookup key = some (some handle, c') ∧ c'.Inv (handle :: pins) ∧ Keeps c' c ∧
        c'.lastId = c.lastId ∧ c.entry handle = some (key, value) := by
  unfold ShardedLRUCache.lookup
  obtain hmiss | ⟨id, shard, value, hhit, hinv, hkeeps, hentry⟩ := (h (shardOf key)).lookup key
  · left
    dsimp only
    rw [hmiss]
    exact ⟨_, rfl, inv_update h (h _) fun _ _ => rfl, keeps_update fun hkv => hkv, rfl⟩
  · right
    dsimp only
    rw [hhit]
    refine ⟨(shardOf key, id), _, value, rfl, inv_update h ?_ ?_, keeps_update hkeeps, rfl, hentry⟩
    · rw [count_cons_shard]
      exact hinv
    · exact fun s' hne => count_cons_other pins hne id

/-- `Insert` returns a handle of the new entry that the caller holds from then on. -/
theorem Inv.insert (h : c.Inv pins) (hpins : ∀ handle, pins.count handle < 2^32) (key : Slice) (value : V)
    (charge : ℕ) : ∃ handle c', c.insert key value charge = some (handle, c') ∧ c'.Inv (handle :: pins) ∧
      c'.lastId = c.lastId ∧ c.entry handle = none ∧ c'.entry handle = some (key, value) ∧
      ∀ {handle' : CacheHandle} {kv : Slice × V}, c'.entry handle' = some kv →
        c.entry handle' = some kv ∨ handle' = handle ∧ kv = (key, value) := by
  obtain ⟨id, shard, hinsert, hinv, hfree, hnew, hentry⟩ :=
    (h (shardOf key)).insert (fun id => hpins _) key value charge
  unfold ShardedLRUCache.insert
  dsimp only
  rw [hinsert]
  refine ⟨(shardOf key, id), _, rfl, inv_update h ?_ ?_, rfl, hfree, ?_, ?_⟩
  · rw [count_cons_shard]
    exact hinv
  · exact fun s' hne => count_cons_other pins hne id
  · unfold entry
    dsimp only
    rw [Function.update_self]
    exact hnew
  · intro handle' kv hkv
    obtain ⟨heq, hshard⟩ | hother := entry_update hkv
    · unfold entry
      rw [heq]
      obtain hold | ⟨hid, hkv'⟩ := hentry hshard
      · exact .inl hold
      · exact .inr ⟨Prod.ext heq hid, hkv'⟩
    · exact .inl hother

/-- `Release` of a handle that the caller holds succeeds and keeps all counts right. -/
theorem Inv.release {handle : CacheHandle} (h : c.Inv (handle :: pins))
    (hpins : ∀ handle', (handle :: pins).count handle' < 2^32) :
    ∃ c', c.release handle = some c' ∧ c'.Inv pins ∧ Keeps c' c ∧ c'.lastId = c.lastId := by
  obtain ⟨s, id⟩ := handle
  have hshard := h s
  have hlt : ∀ id', (fun id' => ((s, id) :: pins).count (s, id')) id' < 2^32 := fun id' => hpins (s, id')
  rw [count_cons_shard] at hshard hlt
  obtain ⟨shard, hunref, hinv, hkeeps⟩ := hshard.release hlt
  unfold ShardedLRUCache.release
  dsimp only
  rw [hunref]
  refine ⟨_, rfl, inv_update h hinv ?_, keeps_update hkeeps, rfl⟩
  exact fun s' hne => (count_cons_other pins hne id).symm

/-- `Erase` succeeds in the shard of its key, keeps all counts right and adds no entry. -/
theorem Inv.erase (h : c.Inv pins) (hpins : ∀ handle, pins.count handle < 2^32) (key : Slice) :
    ∃ c', c.erase key = some c' ∧ c'.Inv pins ∧ Keeps c' c ∧ c'.lastId = c.lastId := by
  obtain ⟨shard, herase, hinv, hkeeps⟩ := (h (shardOf key)).erase (fun id => hpins _) key
  unfold ShardedLRUCache.erase
  dsimp only
  rw [herase]
  exact ⟨_, rfl, inv_update h hinv fun _ _ => rfl, keeps_update hkeeps, rfl⟩

/-! ### The number of entries -/

/-- No shard has got more than one entry more. -/
def Grows (c' c : ShardedLRUCache V) : Prop := ∀ s, (c'.shard s).Grows (c.shard s)

/-- A cache that has not changed has no shard with more than one entry more. -/
theorem Grows.refl (c : ShardedLRUCache V) : c.Grows c := fun _ => Nat.le_succ _

/-- The cache has gained nothing but what its one changed shard has gained. -/
theorem grows_update {s : Fin kNumShards} {shard : LRUCache V} (h : shard.Grows (c.shard s)) :
    ({ c with shard := Function.update c.shard s shard } : ShardedLRUCache V).Grows c := by
  intro s'
  dsimp only
  by_cases heq : s' = s
  · rw [heq, Function.update_self]
    exact h
  · rw [Function.update_of_ne heq]
    exact Nat.le_succ _

/-- `Lookup` adds no entry to the other shards. -/
theorem grows_lookup {c' : ShardedLRUCache V} {key : Slice} {r : Option CacheHandle}
    (h : c.lookup key = some (r, c')) : c'.Grows c := by
  obtain ⟨⟨r', shard⟩, hlookup, h⟩ := Option.bind_eq_some_iff.mp h
  rw [← (Prod.mk.inj (Option.some.inj h)).2]
  exact grows_update (LRUCache.grows_lookup hlookup)

/-- `Insert` adds one entry, to the shard of the key. -/
theorem grows_insert {c' : ShardedLRUCache V} {key : Slice} {value : V} {charge : ℕ} {handle : CacheHandle}
    (h : c.insert key value charge = some (handle, c')) : c'.Grows c := by
  obtain ⟨⟨id, shard⟩, hinsert, h⟩ := Option.bind_eq_some_iff.mp h
  rw [← (Prod.mk.inj (Option.some.inj h)).2]
  exact grows_update (LRUCache.grows_insert hinsert)

/-- `Release` leaves no shard with more than one entry more. -/
theorem grows_release {c' : ShardedLRUCache V} {handle : CacheHandle} (h : c.release handle = some c') :
    c'.Grows c := by
  obtain ⟨shard, hunref, h⟩ := Option.bind_eq_some_iff.mp h
  rw [← Option.some.inj h]
  refine grows_update ?_
  unfold LRUCache.Grows
  rw [LRUCache.unref_lru hunref]
  exact Nat.le_succ _

/-- `Erase` leaves no shard with more than one entry more. -/
theorem grows_erase {c' : ShardedLRUCache V} {key : Slice} (h : c.erase key = some c') : c'.Grows c := by
  obtain ⟨shard, herase, h⟩ := Option.bind_eq_some_iff.mp h
  rw [← Option.some.inj h]
  exact grows_update (LRUCache.grows_erase herase)

end ShardedLRUCache

end LevelDb
