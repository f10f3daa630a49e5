import LevelDb.Db.State

/-!
# Memtables of consecutive batches

The batches of a log have consecutive sequence numbers. The memtable of such batches holds exactly
their entries, sorted by internal key, with every sequence number of the range once.
-/

namespace LevelDb

open Lib

variable {K V : Type}

/-! ## Consecutive batches -/

/-- The batches take the sequence numbers after `first` up to `last`. -/
def Consecutive : ℕ → List (WriteBatch K V) → ℕ → Prop
  | first, [], last => first = last
  | first, b :: bs, last => b.sequence = first + 1 ∧ Consecutive (first + b.count) bs last

/-- The last sequence number of consecutive batches is not below the first one. -/
theorem Consecutive.le : ∀ {bs : List (WriteBatch K V)} {first last : ℕ},
    Consecutive first bs last → first ≤ last
  | [], first, last, h => le_of_eq h
  | b :: bs, first, last, h => by
    have := Consecutive.le h.2
    omega

/-- Consecutive batches split where a list of batches does. -/
theorem consecutive_append_iff : ∀ {bs cs : List (WriteBatch K V)} {first last : ℕ},
    Consecutive first (bs ++ cs) last ↔
      ∃ mid, Consecutive first bs mid ∧ Consecutive mid cs last
  | [], cs, first, last => by
    refine ⟨fun h => ⟨first, rfl, h⟩, ?_⟩
    rintro ⟨mid, rfl, h⟩
    exact h
  | b :: bs, cs, first, last => by
    rw [List.cons_append, Consecutive, consecutive_append_iff]
    exact ⟨fun ⟨hb, mid, h, h'⟩ => ⟨mid, ⟨hb, h⟩, h'⟩, fun ⟨mid, ⟨hb, h⟩, h'⟩ => ⟨hb, mid, h, h'⟩⟩

/-- Batches from one number to a second one, and from there to a third one, are consecutive from the
first to the third. -/
theorem Consecutive.append {bs cs : List (WriteBatch K V)} {first mid last : ℕ}
    (h : Consecutive first bs mid) (h' : Consecutive mid cs last) :
    Consecutive first (bs ++ cs) last :=
  consecutive_append_iff.mpr ⟨mid, h, h'⟩

/-- One batch with the next sequence number. -/
theorem consecutive_singleton (first : ℕ) (updates : List (Update K V)) :
    Consecutive first [⟨first + 1, updates⟩] (first + updates.length) :=
  ⟨rfl, rfl⟩

/-- The loop of `RecoverLogFile` over consecutive batches ends with their last sequence number in
`max_sequence`, unless there was a larger one. -/
theorem Consecutive.foldl_max : ∀ {bs : List (WriteBatch K V)} {first last m : ℕ},
    Consecutive first bs last → bs ≠ [] →
    bs.foldl (fun m b => max m (b.sequence + b.count - 1)) m = max m last
  | [b], first, last, m, h, _ => by
    obtain ⟨hb, hlast⟩ := h
    have hlast : first + b.count = last := hlast
    rw [List.foldl_cons, List.foldl_nil]
    omega
  | b :: c :: bs, first, last, m, h, _ => by
    have hle := Consecutive.le h.2
    have hb := h.1
    rw [List.foldl_cons, Consecutive.foldl_max h.2 (by simp)]
    omega

/-! ## Entries -/

section Entries

variable [Inhabited V]

/-- The entries of a list of batches, in the order of the log. -/
def batchesEntries (bs : List (WriteBatch K V)) : List (Entry K V) := bs.flatMap batchEntries

/-- An update keeps its sequence number if it fits. -/
theorem Update.entry_sequence (u : Update K V) {n : ℕ} (h : n ≤ kMaxSequenceNumber) :
    (u.entry n).key.sequence = n := by
  cases u with
  | put k v => exact InternalKey.pack_sequence h
  | delete k => exact InternalKey.pack_sequence h

/-- The sequence numbers of consecutive batches are the numbers of their range, in order. -/
theorem Consecutive.map_sequence : ∀ {bs : List (WriteBatch K V)} {first last : ℕ},
    Consecutive first bs last → last ≤ kMaxSequenceNumber →
    (batchesEntries bs).map (·.key.sequence) = List.range' (first + 1) (last - first)
  | [], first, last, h, _ => by
    obtain rfl : first = last := h
    simp [batchesEntries]
  | b :: bs, first, last, h, hmax => by
    have hle := Consecutive.le h.2
    have hone : (batchEntries b).map (·.key.sequence) = List.range' (first + 1) b.count := by
      have hmap : (batchEntries b).map (·.key.sequence) = b.numbered.map (·.2) := by
        unfold batchEntries
        rw [List.map_map]
        refine List.map_congr_left fun x hx => ?_
        have := (Batch.mem_range_of_mem_numbered hx).2
        have hb := h.1
        rw [Batch.limit] at this
        exact Update.entry_sequence x.1 (by omega)
      rw [hmap, Batch.numbered, ← h.1, Batch.count]
      exact List.zipIdx_map_snd _ _
    rw [batchesEntries, List.flatMap_cons, List.map_append, hone]
    have ih := Consecutive.map_sequence h.2 hmax
    rw [batchesEntries] at ih
    rw [ih, show first + b.count + 1 = first + 1 + 1 * b.count by omega, List.range'_append]
    congr 1
    omega

/-- The sequence numbers of consecutive batches lie in their range. -/
theorem Consecutive.sequence_range {bs : List (WriteBatch K V)} {first last : ℕ}
    (h : Consecutive first bs last) (hmax : last ≤ kMaxSequenceNumber) {e : Entry K V}
    (he : e ∈ batchesEntries bs) : first < e.key.sequence ∧ e.key.sequence ≤ last := by
  have hmem : e.key.sequence ∈ (batchesEntries bs).map (·.key.sequence) := List.mem_map_of_mem he
  rw [h.map_sequence hmax, List.mem_range'_1] at hmem
  have := h.le
  omega

/-- Consecutive batches tell their entries apart by sequence number. -/
theorem Consecutive.eq_of_sequence {bs : List (WriteBatch K V)} {first last : ℕ}
    (h : Consecutive first bs last) (hmax : last ≤ kMaxSequenceNumber) {e e' : Entry K V}
    (he : e ∈ batchesEntries bs) (he' : e' ∈ batchesEntries bs)
    (heq : e.key.sequence = e'.key.sequence) : e = e' := by
  have hnodup : ((batchesEntries bs).map (·.key.sequence)).Nodup := by
    rw [h.map_sequence hmax]
    exact List.nodup_range'
  exact List.inj_on_of_nodup_map hnodup he he' heq

end Entries

/-! ## Memtables -/

variable [LinearOrder K] [Inhabited V]

/-- The memtable of a list of batches. -/
def memTableOf (bs : List (WriteBatch K V)) : List (Entry K V) := bs.foldl insertInto []

omit [Inhabited V] in
/-- Inserting entries one after the other gives the old entries and the new ones, in some order. -/
theorem foldl_memTableAdd_perm : ∀ (es mem : List (Entry K V)),
    (es.foldl memTableAdd mem).Perm (mem ++ es)
  | [], mem => by simp
  | e :: es, mem => by
    rw [List.foldl_cons]
    refine (foldl_memTableAdd_perm es (memTableAdd mem e)).trans ?_
    refine ((List.perm_orderedInsert _ e mem).append_right es).trans ?_
    exact (List.perm_middle).symm

omit [Inhabited V] in
/-- Inserting entries one after the other into a sorted memtable leaves it sorted. -/
theorem foldl_memTableAdd_sorted : ∀ (es mem : List (Entry K V)),
    (mem.Pairwise fun a b => a.key ≤ b.key) →
    (es.foldl memTableAdd mem).Pairwise fun a b => a.key ≤ b.key
  | [], mem, h => h
  | e :: es, mem, h => by
    have : Std.Total fun a b : Entry K V => a.key ≤ b.key := ⟨fun a b => le_total a.key b.key⟩
    have : IsTrans (Entry K V) fun a b => a.key ≤ b.key := ⟨fun _ _ _ => le_trans⟩
    exact foldl_memTableAdd_sorted es _ (List.Pairwise.orderedInsert e mem h)

/-- The batches after which a memtable stands. -/
theorem foldl_insertInto (bs : List (WriteBatch K V)) : ∀ mem : List (Entry K V),
    bs.foldl insertInto mem = (batchesEntries bs).foldl memTableAdd mem := by
  induction bs with
  | nil => intro mem; rfl
  | cons b bs ih =>
    intro mem
    rw [List.foldl_cons, ih]
    simp only [batchesEntries, List.flatMap_cons, List.foldl_append]
    rfl

/-- A memtable holds the entries of its batches. -/
theorem mem_memTableOf {bs : List (WriteBatch K V)} {e : Entry K V} :
    e ∈ memTableOf bs ↔ e ∈ batchesEntries bs := by
  rw [memTableOf, foldl_insertInto, (foldl_memTableAdd_perm _ _).mem_iff]
  simp

/-- A further batch goes into the memtable. -/
theorem memTableOf_append (bs : List (WriteBatch K V)) (b : WriteBatch K V) :
    memTableOf (bs ++ [b]) = insertInto (memTableOf bs) b := by
  rw [memTableOf, List.foldl_append]
  rfl

/-- The memtable of consecutive batches is strictly increasing. -/
theorem Consecutive.keySorted {bs : List (WriteBatch K V)} {first last : ℕ}
    (h : Consecutive first bs last) (hmax : last ≤ kMaxSequenceNumber) :
    KeySorted (memTableOf bs) := by
  have hle : (memTableOf bs).Pairwise fun a b => a.key ≤ b.key := by
    rw [memTableOf, foldl_insertInto]
    exact foldl_memTableAdd_sorted _ _ List.Pairwise.nil
  -- No two entries have one key, since their sequence numbers differ.
  have hne : (memTableOf bs).Pairwise fun a b => a.key.sequence ≠ b.key.sequence := by
    have hperm : (memTableOf bs).Perm (batchesEntries bs) := by
      rw [memTableOf, foldl_insertInto]
      exact (foldl_memTableAdd_perm _ _).trans (by simp)
    have hnodup : ((memTableOf bs).map (·.key.sequence)).Nodup := by
      rw [(hperm.map _).nodup_iff, h.map_sequence hmax]
      exact List.nodup_range'
    exact List.pairwise_map.mp hnodup
  exact (hle.and hne).imp fun hab => lt_of_le_of_ne hab.1 fun heq => hab.2 (by rw [heq])

end LevelDb
