import LevelDb.Util.CacheMemory

/-!
# Clients of the cache

Runs of `Insert`, `Lookup`, `Release` and `Erase`, where a handle is released as often as it was handed out.
The list has the entries of the cache in the order of their last use; the counters count the outstanding
handles; and the deleter of an entry runs when there are no references left
(`CacheSession.bookkeeping_exact`). The counters and `usage_` are words: `usage_` is the sum of the charges
modulo `2^64`.
-/

namespace LevelDb

open Lib CacheMemory

/-! ## Runs -/

/-- The cache, and what its clients did. -/
structure CacheSession (V : Type) where
  /-- The cache. -/
  memory : CacheMemory V
  /-- The outstanding handles of the entries. -/
  pins : ℕ → ℕ := fun _ => 0
  /-- How often handles were handed out. -/
  clock : ℕ := 0
  /-- When the entries were inserted or found last. -/
  used : ℕ → ℕ := fun _ => 0
  /-- The entries that were inserted. -/
  inserted : List ℕ := []

/-- The calls of the clients. -/
inductive CacheCall (V : Type)
  /-- `Insert` -/
  | insert (key : Slice) (hash : ℕ) (value : V) (charge : ℕ)
  /-- `Lookup` -/
  | lookup (key : Slice) (hash : ℕ)
  /-- `Release` -/
  | release (handle : ℕ)
  /-- `Erase` -/
  | erase (key : Slice) (hash : ℕ)

namespace CacheSession

variable {V : Type}

/-- A new cache. -/
def start (V : Type) (capacity : ℕ) : CacheSession V where
  memory := { capacity := capacity }

/-- The clients get what was found. -/
def handOut (s : CacheSession V) (r : Option ℕ) : CacheSession V :=
  { s with
    pins := pin s.pins r
    clock := s.clock + 1
    used := r.elim s.used fun id => Function.update s.used id s.clock }

/-- One call. -/
def step (s : CacheSession V) : CacheCall V → Option (CacheSession V)
  | .insert key hash value charge =>
    (s.memory.insert key hash value charge).map fun (id, memory) =>
      { s.handOut (some id) with memory := memory, inserted := s.inserted ++ [id] }
  | .lookup key hash =>
    (s.memory.lookup key hash).map fun (r, memory) => { s.handOut r with memory := memory }
  | .release id =>
    (s.memory.unref id).map fun memory =>
      { s with memory := memory, pins := Function.update s.pins id (s.pins id - 1) }
  | .erase key hash => (s.memory.erase key hash).map fun memory => { s with memory := memory }

/-- What clients may do: they release outstanding handles, do not have `2^32 - 2` handles of an entry when
they look up another, and have fewer than `2^31` entries in the cache when they insert one. -/
def Allowed (Paired : Slice → ℕ → Prop) (s : CacheSession V) : CacheCall V → Prop
  | .insert key hash _ _ => Paired key hash ∧ s.memory.table.elems < 2^31
  | .lookup _ _ => ∀ id, s.pins id + 2 < 2^32
  | .release id => 0 < s.pins id
  | .erase _ _ => True

/-- The states that clients can reach. -/
inductive Run (Paired : Slice → ℕ → Prop) (capacity : ℕ) : CacheSession V → Prop
  /-- A new cache. -/
  | start : Run Paired capacity (start V capacity)
  /-- A call. -/
  | call {s s' : CacheSession V} {call : CacheCall V} : Run Paired capacity s → s.Allowed Paired call →
    s.step call = some s' → Run Paired capacity s'

/-! ## What holds in a run -/

/-- The cache has the entries of `lru`, and its books are exact. -/
structure Bookkeeping (s : CacheSession V) (Paired : Slice → ℕ → Prop) (lru : List ℕ) : Prop where
  /-- The list has them, from the oldest to the newest. -/
  list : Ring s.memory.links lruHead lru
  /-- The table has them. -/
  table : s.memory.table.Holds s.memory.info lru
  /-- Their last uses are in this order. -/
  recent : lru.Pairwise fun a b => s.used a < s.used b
  /-- Their keys with their hashes are different. -/
  distinct : ∀ a ∈ lru, ∀ b ∈ lru, ∀ e e', s.memory.entries a = some e → s.memory.entries b = some e' →
    e.key = e'.key → e.hash = e'.hash → a = b
  /-- Their keys are different, if a key always comes with the same hash. -/
  distinct_keys : (∀ key hash hash', Paired key hash → Paired key hash' → hash = hash') →
    ∀ a ∈ lru, ∀ b ∈ lru, ∀ e e', s.memory.entries a = some e → s.memory.entries b = some e' →
      e.key = e'.key → a = b
  /-- The counters count the outstanding handles, and the cache. -/
  refs : ∀ id e, s.memory.entries id = some e → e.refs = s.pins id + if id ∈ lru then 1 else 0
  /-- `usage_` is the sum of the charges of the entries in memory, as a word. -/
  usage : s.memory.usage = s.memory.charges % 2^64
  /-- No deleter runs twice. -/
  nodup_freed : s.memory.freed.Nodup
  /-- The deleter of an entry ran when there were no references left. -/
  freed_iff : ∀ id, id ∈ s.memory.freed ↔ id ∈ s.inserted ∧ s.pins id = 0 ∧ id ∉ lru
  /-- The other entries are in memory. -/
  present : ∀ id, (∃ e, s.memory.entries id = some e) ↔ id ∈ s.inserted ∧ id ∉ s.memory.freed

/-- The entry of the cache that has a key with a hash, if there is one. -/
def Names (s : CacheSession V) (lru : List ℕ) (key : Slice) (hash : ℕ) (r : Option ℕ) : Prop :=
  ∀ b, r = some b ↔ b ∈ lru ∧ ∃ e, s.memory.entries b = some e ∧ e.key = key ∧ e.hash = hash

/-- How the list goes on: `Insert` displaces the entry with the key, and evicts the oldest entries until the
others fit; `Lookup` makes the entry with the key the newest; and `Erase` takes it out. -/
def Follows (s : CacheSession V) (lru : List ℕ) (s' : CacheSession V) (lru' : List ℕ) : CacheCall V → Prop
  | .insert key hash _ _ => ∃ r evicted, s.Names lru key hash r ∧
      HandleTable.without lru r ++ [s.memory.nextHandle] = evicted ++ lru' ∧
      (s'.memory.usage ≤ s'.memory.capacity ∨ lru' = [])
  | .lookup key hash => ∃ r, s.Names lru key hash r ∧ lru' = touch lru r
  | .release _ => lru' = lru
  | .erase key hash => ∃ r, s.Names lru key hash r ∧ lru' = HandleTable.without lru r

/-- What holds between two calls. -/
structure Inv (s : CacheSession V) (Paired : Slice → ℕ → Prop) (lru : List ℕ) : Prop where
  /-- In memory. -/
  exact : s.memory.Exact Paired s.pins lru
  /-- The entries are in the order of their last use. -/
  recent : lru.Pairwise fun a b => s.used a < s.used b
  /-- No entry was used after now. -/
  used_lt : ∀ id ∈ lru, s.used id < s.clock
  /-- The addresses of the entries that were inserted. -/
  inserted_iff : ∀ id, id ∈ s.inserted ↔ 0 < id ∧ id < s.memory.nextHandle

variable {Paired : Slice → ℕ → Prop} {capacity : ℕ} {s s' : CacheSession V} {lru l : List ℕ} {id : ℕ}

/-- A new cache is empty, no handles are out, and the invariant holds. -/
theorem inv_start (capacity : ℕ) : (start V capacity).Inv Paired [] where
  exact :=
    { ring := Ring.empty lruHead
      table := HandleTable.holds_new _
      refs := fun he => absurd he.symm (Option.some_ne_none _)
      count_lt := fun _ => Nat.two_pow_pos 32
      alive := fun _ => iff_of_false (fun ⟨_, he⟩ => Option.some_ne_none _ he.symm) (Nat.lt_irrefl 0)
      next_ne := fun hpos => absurd hpos (Nat.lt_irrefl 0)
      nextHandle_pos := Nat.one_pos
      allocated := fun hpos => absurd hpos (Nat.lt_irrefl 0)
      nodup_freed := List.nodup_nil
      freed_iff := fun id => iff_of_false List.not_mem_nil fun h => by
        have hlt : id < 1 := h.1.2
        have hpos := h.1.1
        omega
      usage := rfl
      paired := fun he => absurd he.symm (Option.some_ne_none _) }
  recent := List.Pairwise.nil
  used_lt := fun _ h => absurd h List.not_mem_nil
  inserted_iff := fun id => iff_of_false List.not_mem_nil fun h => by
    have hlt : id < 1 := h.2
    have hpos := h.1
    omega

/-- The entries of the cache have different keys with hashes. -/
theorem Inv.distinct (h : s.Inv Paired lru) {a b : ℕ} {e e' : CacheEntry V} (ha : a ∈ lru) (hb : b ∈ lru)
    (he : s.memory.entries a = some e) (he' : s.memory.entries b = some e') (hkey : e.key = e'.key)
    (hhash : e.hash = e'.hash) : a = b := by
  refine h.exact.table.distinct a ha b hb ?_
  rw [h.exact.info_eq_some he, h.exact.info_eq_some he', hkey, hhash]

/-- The invariant of a session gives what its clients can count on. -/
theorem Inv.bookkeeping (h : s.Inv Paired lru) : s.Bookkeeping Paired lru where
  list := h.exact.ring
  table := h.exact.table
  recent := h.recent
  distinct _ ha _ hb _ _ he he' := h.distinct ha hb he he'
  distinct_keys hsame a ha b hb e e' he he' hkey := by
    have hpaired := h.exact.paired he
    rw [hkey] at hpaired
    exact h.distinct ha hb he he' hkey (hsame _ _ _ hpaired (h.exact.paired he'))
  refs id e he := h.exact.refs he
  usage := h.exact.usage
  nodup_freed := h.exact.nodup_freed
  freed_iff id := by
    have halive := h.exact.alive id
    unfold references at halive
    rw [h.exact.freed_iff, h.inserted_iff, ← Option.not_isSome_iff_eq_none, Option.isSome_iff_exists, halive]
    refine and_congr_right fun _ => ?_
    by_cases hmem : id ∈ lru
    · simp [hmem]
    · simp [hmem]
  present id := by
    rw [h.exact.freed_iff, h.inserted_iff, ← Option.isSome_iff_exists, ← Option.not_isSome_iff_eq_none]
    constructor
    · intro hsome
      obtain ⟨e, he⟩ := Option.isSome_iff_exists.mp hsome
      exact ⟨h.exact.allocated ((h.exact.alive id).mp ⟨e, he⟩), fun hc => hc.2 hsome⟩
    · rintro ⟨hid, hnot⟩
      by_contra hnone
      exact hnot ⟨hid, hnone⟩

/-- What the table finds has the key and the hash. -/
theorem Inv.names (h : s.Inv Paired lru) {key : Slice} {hash : ℕ} {r : Option ℕ}
    (hr : ∀ b, r = some b ↔ b ∈ lru ∧ s.memory.info b = some (key, hash)) : s.Names lru key hash r := by
  intro b
  rw [hr b]
  refine and_congr_right fun hb => ⟨entries_of_info, ?_⟩
  rintro ⟨e, he, rfl, rfl⟩
  exact h.exact.info_eq_some he

/-- An entry that is used now comes after those that were used before. -/
theorem Inv.recent_append (h : s.Inv Paired lru) (hsub : l.Sublist lru) (hid : id ∉ l) :
    (l ++ [id]).Pairwise (fun a b => (s.handOut (some id)).used a < (s.handOut (some id)).used b) ∧
      ∀ x ∈ l ++ [id], (s.handOut (some id)).used x < (s.handOut (some id)).clock := by
  have hself : (s.handOut (some id)).used id = s.clock := Function.update_self ..
  have hold : ∀ x ∈ l, (s.handOut (some id)).used x = s.used x := fun x hx =>
    Function.update_of_ne (ne_of_mem_of_not_mem hx hid) ..
  constructor
  · rw [List.pairwise_append]
    refine ⟨(h.recent.sublist hsub).imp_of_mem fun {a b} ha hb hlt => ?_, List.pairwise_singleton _ _,
      fun a ha b hb => ?_⟩
    · rw [hold a ha, hold b hb]
      exact hlt
    · rw [List.mem_singleton.mp hb, hself, hold a ha]
      exact h.used_lt a (hsub.subset ha)
  · intro x hx
    obtain hx | hx := List.mem_append.mp hx
    · rw [hold x hx]
      exact (h.used_lt x (hsub.subset hx)).trans (Nat.lt_succ_self _)
    · rw [List.mem_singleton.mp hx, hself]
      exact Nat.lt_succ_self _

/-- Taking an entry out leaves the order of the others. -/
theorem without_sublist (lru : List ℕ) (r : Option ℕ) : (HandleTable.without lru r).Sublist lru := by
  cases r with
  | none => exact List.Sublist.refl lru
  | some id => exact List.erase_sublist

/-- A call that is allowed returns, and the list goes on as it should. -/
theorem Inv.step (h : s.Inv Paired lru) {call : CacheCall V} (hallowed : s.Allowed Paired call) :
    ∃ s' lru', s.step call = some s' ∧ s'.Inv Paired lru' ∧ s.Follows lru s' lru' call := by
  have hnew : s.memory.nextHandle ∉ lru := fun hmem =>
    Nat.lt_irrefl _ (h.exact.allocated (h.exact.alive_of_mem hmem)).2
  cases call with
  | insert key hash value charge =>
    obtain ⟨hpaired, helems⟩ := hallowed
    rw [h.exact.table.elems] at helems
    obtain ⟨r, c', evicted, lru', hinsert, hr, hlru, hexact, hnext, hend⟩ :=
      h.exact.insert helems hpaired value charge
    -- An entry of the same key leaves the list, and the new one comes last.
    have hsub := without_sublist lru r
    obtain ⟨hrecent, hused⟩ := h.recent_append hsub fun hmem => hnew (hsub.subset hmem)
    rw [hlru] at hrecent hused
    unfold CacheSession.step
    dsimp only
    rw [hinsert, Option.map_some]
    refine ⟨_, lru', rfl, ⟨hexact, (List.pairwise_append.mp hrecent).2.1,
      fun id hid => hused id (List.mem_append_right evicted hid), fun id => ?_⟩,
      r, evicted, h.names hr, hlru, hend⟩
    dsimp only
    rw [List.mem_append, List.mem_singleton, h.inserted_iff, hnext]
    have hpos := h.exact.nextHandle_pos
    omega
  | lookup key hash =>
    obtain ⟨r, c', hlookup, hr, hexact, hnext⟩ := h.exact.lookup hallowed key hash
    unfold CacheSession.step
    dsimp only
    rw [hlookup, Option.map_some]
    refine ⟨_, touch lru r, rfl, ?_, r, h.names hr, rfl⟩
    have hinserted : ∀ id, id ∈ s.inserted ↔ 0 < id ∧ id < c'.nextHandle := by
      rw [hnext]
      exact h.inserted_iff
    cases r with
    | none =>
      have htouch : touch lru none = lru := List.append_nil lru
      rw [htouch] at hexact ⊢
      exact ⟨hexact, h.recent, fun id hid => (h.used_lt id hid).trans (Nat.lt_succ_self _), hinserted⟩
    | some id =>
      -- The entry that was found becomes the last one.
      have hnodup := (List.nodup_cons.mp h.exact.ring.nodup).2
      obtain ⟨hrecent, hused⟩ := h.recent_append (without_sublist lru (some id)) hnodup.not_mem_erase
      exact ⟨hexact, hrecent, hused, hinserted⟩
  | release id =>
    obtain ⟨c', hunref, hexact⟩ := h.exact.unref hallowed
    unfold CacheSession.step
    dsimp only
    rw [hunref, Option.map_some]
    refine ⟨_, lru, rfl, ⟨hexact, h.recent, h.used_lt, ?_⟩, rfl⟩
    dsimp only
    rw [nextHandle_unref hunref]
    exact h.inserted_iff
  | erase key hash =>
    obtain ⟨r, c', herase, hr, hexact, hnext⟩ := h.exact.erase key hash
    have hsub := without_sublist lru r
    unfold CacheSession.step
    dsimp only
    rw [herase, Option.map_some]
    refine ⟨_, HandleTable.without lru r, rfl, ⟨hexact, h.recent.sublist hsub,
      fun id hid => h.used_lt id (hsub.subset hid), ?_⟩, r, h.names hr, rfl⟩
    dsimp only
    rw [hnext]
    exact h.inserted_iff

/-- The invariant holds in every run. -/
theorem Run.inv (h : Run Paired capacity s) : ∃ lru, s.Inv Paired lru := by
  induction h with
  | start => exact ⟨[], inv_start capacity⟩
  | call _ hallowed hstep ih =>
    obtain ⟨lru, hinv⟩ := ih
    obtain ⟨s'', lru', hstep', hinv', -⟩ := hinv.step hallowed
    rw [hstep] at hstep'
    cases hstep'
    exact ⟨lru', hinv'⟩

/-- A call that returns goes on with a run. -/
theorem Run.call_get (h : Run Paired capacity s) (call : CacheCall V) (hallowed : s.Allowed Paired call)
    (hsome : (s.step call).isSome) : Run Paired capacity ((s.step call).get hsome) :=
  Run.call h hallowed (Option.some_get hsome).symm

/-- The books of the cache are exact in every run, and every call that is allowed returns and keeps the cache
in the order of last use. -/
theorem bookkeeping_exact (h : Run Paired capacity s) :
    ∃ lru, s.Bookkeeping Paired lru ∧ ∀ call, s.Allowed Paired call →
      ∃ s' lru', s.step call = some s' ∧ s'.Bookkeeping Paired lru' ∧ s.Follows lru s' lru' call := by
  obtain ⟨lru, hinv⟩ := h.inv
  refine ⟨lru, hinv.bookkeeping, fun call hallowed => ?_⟩
  obtain ⟨s', lru', hstep, hinv', hfollows⟩ := hinv.step hallowed
  exact ⟨s', lru', hstep, hinv'.bookkeeping, hfollows⟩

/-- An entry that was evicted is freed when its handle is released. -/
theorem bookkeeping_exact_example :
    ∃ s : CacheSession Unit, Run (fun _ _ => True) 1 s ∧ s.memory.freed = [1] ∧
      ∃ lru, s.Bookkeeping (fun _ _ => True) lru := by
  have h₀ : Run (fun _ _ => True) 1 (start Unit 1) := Run.start
  have h₁ := h₀.call_get (.insert [97] 7 () 1) ⟨trivial, by decide⟩ (by decide)
  have h₂ := h₁.call_get (.insert [98] 8 () 1) ⟨trivial, by decide⟩ (by decide)
  have h₃ := h₂.call_get (.release 1) (Nat.lt_of_succ_le (by decide)) (by decide)
  obtain ⟨lru, hbooks, -⟩ := bookkeeping_exact h₃
  exact ⟨_, h₃, by decide, lru, hbooks⟩

/-- The sum of two charges of `2^63` is 0 as a word, and a key that comes with two hashes is there twice. -/
theorem usage_wraps : ∃ s : CacheSession Unit, Run (fun _ _ => True) (2^64 - 1) s ∧
    s.memory.usage = 0 ∧ s.memory.charges = 2^64 ∧
    (s.memory.links.next lruHead = 1 ∧ s.memory.links.next 1 = 2 ∧ s.memory.links.next 2 = lruHead) ∧
    (s.memory.entries 1).map CacheEntry.key = some [97] ∧ (s.memory.entries 2).map CacheEntry.key = some [97] := by
  have h₀ : Run (fun _ _ => True) (2^64 - 1) (start Unit (2^64 - 1)) := Run.start
  have h₁ := h₀.call_get (.insert [97] 7 () (2^63)) ⟨trivial, by decide⟩ (by decide)
  have h₂ := h₁.call_get (.insert [97] 8 () (2^63)) ⟨trivial, by decide⟩ (by decide)
  exact ⟨_, h₂, by decide, by decide, by decide, by decide, by decide⟩

end CacheSession

end LevelDb
