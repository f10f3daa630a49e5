import LevelDb.Compaction.Failure
import Mathlib.Data.List.Pairwise

/-!
# The tables that a repair keeps

`ExtractMetaData`, `ScanTable` and `WriteDescriptor` of `repair.cc` on table files with any bytes. A table
that can be read to its end without an error is kept, and its smallest and largest keys are the first and
the last of its keys that can be parsed. So the descriptor is valid exactly when every such table has a key
that can be parsed, and none that is outside of the first and the last one. `ScanTable` keeps `empty` but
does not look at it after the loop.
-/

namespace LevelDb

open Lib

/-! ## The code -/

/-- What the repairer reads: the sizes and the contents of table files. -/
structure RepairEnv where
  /-- `env_->GetFileSize` of a table file. -/
  getFileSize : ℕ → Except Status ℕ
  /-- `table_cache_`, for `ReadOptions()`, in which `verify_checksums` is false. -/
  cache : TableCache

/-- `TableInfo` and the local variable `empty` of `ScanTable`, with keys as byte strings. -/
structure TableScan where
  /-- `meta` -/
  file : FileRecord
  /-- `max_sequence` -/
  maxSequence : ℕ := 0
  /-- `empty` -/
  empty : Bool := true
  deriving DecidableEq

/-- `ParseInternalKey` of byte strings. -/
def parseKey (key : Slice) : Option (InternalKey Slice) := parseInternalKey (Equiv.refl Slice) key

/-- A round of the loop of `ScanTable`, for a key. -/
def TableScan.scanKey (t : TableScan) (key : Slice) : TableScan :=
  match parseKey key with
  -- unparsable key
  | none => t
  | some parsed =>
    { file := { t.file with smallest := if t.empty then key else t.file.smallest, largest := key }
      maxSequence := if t.maxSequence < parsed.sequence then parsed.sequence else t.maxSequence
      empty := false }

/-- The loop of `ScanTable`, with the iterator behind it. -/
def TableScan.scanLoop : ℕ → FileIterator → TableScan → Option (FileIterator × TableScan)
  | 0, _, _ => none
  | fuel + 1, it, t =>
    if Iterator.valid it then scanLoop fuel (Iterator.next it) (t.scanKey (Iterator.key it))
    else some (it, t)

namespace RepairEnv

/-- `ScanTable` -/
def scanTable (env : RepairEnv) (fuel number : ℕ) : Option (Except Status TableScan) :=
  match env.getFileSize number with
  | .error s => some (.error s)
  | .ok size =>
    (TableScan.scanLoop fuel (Iterator.seekToFirst (env.cache.newIterator number size))
      { file := ⟨number, size, [], []⟩ }).map fun (it, t) =>
      match Iterator.status it with
      | some s => .error s
      | none => .ok t

/-- `ExtractMetaData`, for the tables in `table_numbers_`: `tables_`, and the tables that are archived. -/
def extractMetaData (env : RepairEnv) (fuel : ℕ) : List ℕ → Option (List TableScan × List ℕ)
  | [] => some ([], [])
  | number :: numbers =>
    (env.scanTable fuel number).bind fun r =>
      (env.extractMetaData fuel numbers).map fun (tables, archived) =>
        match r with
        | .error _ => (tables, number :: archived)
        | .ok t => (t :: tables, archived)

end RepairEnv

/-- The record that `WriteDescriptor` writes for `tables_`. -/
def writeDescriptor (comparatorName : Slice) (nextFileNumber : ℕ) (tables : List TableScan) : EditRecord where
  comparator := some comparatorName
  logNumber := some 0
  nextFileNumber := some nextFileNumber
  lastSequence :=
    some (tables.foldl (fun m t => if m < t.maxSequence then t.maxSequence else m) 0)
  newFiles := tables.map fun t => (0, t.file)

/-! ## Keys of a table -/

/-- A table file that can be read to its end without an error, and the keys that it shows. -/
def RepairEnv.Reads (env : RepairEnv) (number : ℕ) (keys : List Slice) : Prop :=
  ∃ size l t, env.getFileSize number = .ok size ∧
    Shows (Iterator.seekToFirst (env.cache.newIterator number size)) l t ∧
    Iterator.status t = none ∧ l.map Prod.fst = keys

/-- The keys that can be parsed. -/
def parsableKeys (keys : List Slice) : List Slice := keys.filter fun key => (parseKey key).isSome

/-- The metadata of a file and the last sequence number are right for the keys of the table. -/
structure FileRecord.ValidFor (icmp : Comparator) (lastSequence : Option ℕ) (f : FileRecord)
    (keys : List Slice) : Prop where
  /-- The smallest key is an internal key. -/
  smallest_length : 8 ≤ f.smallest.length
  /-- The largest key is an internal key. -/
  largest_length : 8 ≤ f.largest.length
  /-- The keys are in between. -/
  between : ∀ key ∈ parsableKeys keys, icmp.Le f.smallest key ∧ icmp.Le key f.largest
  /-- The last sequence number is not behind. -/
  sequence : ∀ key ∈ keys, ∀ parsed, parseKey key = some parsed →
    ∃ last, lastSequence = some last ∧ parsed.sequence ≤ last

/-- Every file that an edit adds has the right metadata. -/
def EditRecord.ValidFor (edit : EditRecord) (icmp : Comparator) (env : RepairEnv) : Prop :=
  ∀ f ∈ edit.newFiles, ∀ keys, env.Reads f.2.number keys → f.2.ValidFor icmp edit.lastSequence keys

/-- The keys have a first and a last one among those that can be parsed, and the others are in between. -/
def EndsBound (icmp : Comparator) (keys : List Slice) : Prop :=
  ∃ first last, (parsableKeys keys).head? = some first ∧ (parsableKeys keys).getLast? = some last ∧
    ∀ key ∈ parsableKeys keys, icmp.Le first key ∧ icmp.Le key last

/-! ## What a scan finds -/

/-- What a scan of keys leaves. -/
structure TableScan.Scanned (t : TableScan) (number : ℕ) (keys : List Slice) : Prop where
  /-- The file number. -/
  number_eq : t.file.number = number
  /-- The smallest key is the first one that can be parsed, if there is one. -/
  smallest : t.file.smallest = (parsableKeys keys).head?.getD []
  /-- The largest key is the last one. -/
  largest : t.file.largest = (parsableKeys keys).getLast?.getD []
  /-- No key can be parsed. -/
  empty : t.empty = (parsableKeys keys).isEmpty
  /-- The sequence numbers of the keys. -/
  sequence : ∀ key ∈ keys, ∀ parsed, parseKey key = some parsed → parsed.sequence ≤ t.maxSequence

namespace TableScan

/-- A round keeps what is known about the keys so far. -/
theorem Scanned.scanKey {t : TableScan} {number : ℕ} {keys : List Slice} (h : t.Scanned number keys)
    (key : Slice) : (t.scanKey key).Scanned number (keys ++ [key]) := by
  unfold TableScan.scanKey
  -- A key that cannot be parsed is passed over, and counts for nothing.
  cases hparse : parseKey key with
  | none =>
    have hkeys : parsableKeys (keys ++ [key]) = parsableKeys keys := by
      unfold parsableKeys
      rw [List.filter_append, List.filter_cons_of_neg (by rw [hparse]; exact Bool.false_ne_true),
        List.filter_nil, List.append_nil]
    refine ⟨h.number_eq, hkeys ▸ h.smallest, hkeys ▸ h.largest, hkeys ▸ h.empty, ?_⟩
    intro k hk parsed hparsed
    obtain hk | hk := List.mem_append.mp hk
    · exact h.sequence k hk parsed hparsed
    · rw [List.mem_singleton.mp hk, hparse] at hparsed
      exact nomatch hparsed
  | some p =>
    have hkeys : parsableKeys (keys ++ [key]) = parsableKeys keys ++ [key] := by
      unfold parsableKeys
      rw [List.filter_append, List.filter_cons_of_pos (by rw [hparse]; rfl), List.filter_nil]
    refine ⟨h.number_eq, ?_, ?_, ?_, ?_⟩
    · dsimp only
      rw [h.empty, h.smallest, hkeys]
      cases parsableKeys keys <;> rfl
    · dsimp only
      rw [hkeys, List.getLast?_concat]
      rfl
    · rw [hkeys]
      exact (List.isEmpty_eq_false_iff.mpr (List.append_ne_nil_of_right_ne_nil _ (List.cons_ne_nil _ _))).symm
    · intro k hk parsed hparsed
      dsimp only
      obtain hk | hk := List.mem_append.mp hk
      · have hle := h.sequence k hk parsed hparsed
        split_ifs <;> omega
      · rw [List.mem_singleton.mp hk, hparse] at hparsed
        obtain rfl := Option.some.inj hparsed
        split_ifs <;> omega

/-- The loop of `ScanTable` over more keys has scanned these after the ones before. -/
theorem Scanned.foldl : ∀ (more : List Slice) {t : TableScan} {number : ℕ} {keys : List Slice},
    t.Scanned number keys → (more.foldl TableScan.scanKey t).Scanned number (keys ++ more)
  | [], _, _, keys, h => (List.append_nil keys).symm ▸ h
  | key :: more, t, number, keys, h => by
    have hrest := Scanned.foldl more (h.scanKey key)
    rwa [List.append_assoc] at hrest

/-- Before the loop of `ScanTable` nothing has been scanned. -/
theorem scanned_nil (number size : ℕ) :
    ({ file := ⟨number, size, [], []⟩ } : TableScan).Scanned number [] :=
  ⟨rfl, rfl, rfl, rfl, fun _ hkey => absurd hkey List.not_mem_nil⟩

/-- The loop goes through the entries of a scan, and ends with it. -/
theorem scanLoop_eq {it it' : FileIterator} {l : List (Slice × Slice)} (h : Shows it l it') :
    ∀ {fuel : ℕ}, l.length < fuel → ∀ t : TableScan,
      scanLoop fuel it t = some (it', (l.map Prod.fst).foldl TableScan.scanKey t) := by
  induction h with
  | stop hstop =>
    intro fuel hfuel t
    obtain ⟨fuel, rfl⟩ := Nat.exists_eq_add_one.mpr hfuel
    unfold scanLoop
    rw [hstop]
    rfl
  | step hvalid _ ih =>
    intro fuel hfuel t
    obtain ⟨fuel, rfl⟩ := Nat.exists_eq_add_one.mpr (Nat.zero_lt_of_lt hfuel)
    unfold scanLoop
    rw [hvalid, if_pos rfl, ih (Nat.lt_of_succ_lt_succ hfuel)]
    rfl

end TableScan

namespace RepairEnv

variable {env : RepairEnv}

/-- A file has one list of keys. -/
theorem Reads.unique {number : ℕ} {keys keys' : List Slice} (h : env.Reads number keys)
    (h' : env.Reads number keys') : keys = keys' := by
  obtain ⟨size, l, t, hsize, hshows, -, rfl⟩ := h
  obtain ⟨size', l', t', hsize', hshows', -, rfl⟩ := h'
  obtain rfl := Except.ok.inj (hsize.symm.trans hsize')
  rw [(hshows.unique hshows').1]

/-- `ScanTable` ends. It returns an error, or what it found in a table that can be read. -/
theorem scanTable_ends (env : RepairEnv) (number : ℕ) :
    ∃ r, (∃ n, ∀ fuel ≥ n, env.scanTable fuel number = some r) ∧
      ((∃ s, r = .error s ∧ ∀ keys, ¬env.Reads number keys) ∨
        ∃ t keys, r = .ok t ∧ env.Reads number keys ∧ t.Scanned number keys) := by
  cases hsize : env.getFileSize number with
  | error s =>
    refine ⟨.error s, ⟨0, fun fuel _ => ?_⟩, Or.inl ⟨s, rfl, ?_⟩⟩
    · unfold scanTable
      rw [hsize]
    · rintro keys ⟨size, l, t, hok, -⟩
      rw [hsize] at hok
      exact nomatch hok
  | ok size =>
    -- the scan of any file comes to an end
    have hinv := FileIterator.scannable.seekToFirst _ (env.cache.newIterator_inv number size)
    obtain ⟨n, it', hfinal⟩ := FileIterator.scannable.ends hinv.1
    obtain ⟨l, hshows, -⟩ := hfinal.exists_shows
    have hscan : ∀ fuel ≥ l.length + 1, env.scanTable fuel number = some
        (match Iterator.status it' with
          | some s => .error s
          | none => .ok ((l.map Prod.fst).foldl TableScan.scanKey { file := ⟨number, size, [], []⟩ })) := by
      intro fuel hfuel
      unfold scanTable
      rw [hsize]
      dsimp only
      rw [TableScan.scanLoop_eq hshows hfuel]
      rfl
    refine ⟨_, ⟨_, hscan⟩, ?_⟩
    cases hstatus : Iterator.status it' with
    | some s =>
      refine Or.inl ⟨s, rfl, ?_⟩
      rintro keys ⟨size', l', t, hok, hshows', hnone, -⟩
      obtain rfl := Except.ok.inj (hsize.symm.trans hok)
      rw [← (hshows.unique hshows').2, hstatus] at hnone
      exact nomatch hnone
    | none =>
      exact Or.inr ⟨_, _, rfl, ⟨size, l, it', hsize, hshows, hstatus, rfl⟩,
        (TableScan.scanned_nil number size).foldl _⟩

/-- `ExtractMetaData` ends, and keeps exactly the tables that can be read. -/
theorem extractMetaData_ends (env : RepairEnv) : ∀ numbers : List ℕ,
    ∃ tables archived, (∃ n, ∀ fuel ≥ n, env.extractMetaData fuel numbers = some (tables, archived)) ∧
      (∀ t ∈ tables, ∃ number ∈ numbers, ∃ keys, env.Reads number keys ∧ t.Scanned number keys) ∧
      ∀ number ∈ numbers, ∀ keys, env.Reads number keys → ∃ t ∈ tables, t.Scanned number keys
  | [] => ⟨[], [], ⟨0, fun _ _ => rfl⟩, by simp, by simp⟩
  | number :: numbers => by
    obtain ⟨r, ⟨n, hn⟩, hr⟩ := env.scanTable_ends number
    obtain ⟨tables, archived, ⟨m, hm⟩, hkept, hall⟩ := env.extractMetaData_ends numbers
    have heq : ∀ fuel ≥ max n m, env.extractMetaData fuel (number :: numbers) =
        (some r).bind fun r => (some (tables, archived)).map fun (tables, archived) =>
          match r with
          | .error _ => (tables, number :: archived)
          | .ok t => (t :: tables, archived) := by
      intro fuel hfuel
      unfold extractMetaData
      rw [hn fuel (le_of_max_le_left hfuel), hm fuel (le_of_max_le_right hfuel)]
    obtain ⟨s, rfl, hnot⟩ | ⟨t, keys, rfl, hreads, hscanned⟩ := hr
    · refine ⟨tables, number :: archived, ⟨_, heq⟩, fun t ht => ?_, ?_⟩
      · obtain ⟨k, hk, hrest⟩ := hkept t ht
        exact ⟨k, List.mem_cons_of_mem _ hk, hrest⟩
      · exact List.forall_mem_cons.mpr ⟨fun keys hreads => absurd hreads (hnot keys), hall⟩
    · refine ⟨t :: tables, archived, ⟨_, heq⟩, ?_, ?_⟩
      · refine List.forall_mem_cons.mpr ⟨⟨number, List.mem_cons_self, keys, hreads, hscanned⟩, ?_⟩
        intro t' ht'
        obtain ⟨k, hk, hrest⟩ := hkept t' ht'
        exact ⟨k, List.mem_cons_of_mem _ hk, hrest⟩
      · refine List.forall_mem_cons.mpr ⟨fun keys' hreads' => ⟨t, List.mem_cons_self, ?_⟩, ?_⟩
        · exact hreads.unique hreads' ▸ hscanned
        · intro k hk keys' hreads'
          obtain ⟨t', ht', hscanned'⟩ := hall k hk keys' hreads'
          exact ⟨t', List.mem_cons_of_mem _ ht', hscanned'⟩

end RepairEnv

/-! ## The descriptor -/

/-- The loop of `WriteDescriptor` for `max_sequence` finds the maximum. -/
theorem le_maxSequence {tables : List TableScan} {t : TableScan} (ht : t ∈ tables) : ∀ m : ℕ,
    t.maxSequence ≤ tables.foldl (fun m t => if m < t.maxSequence then t.maxSequence else m) m := by
  have hstart : ∀ (tables : List TableScan) (m : ℕ),
      m ≤ tables.foldl (fun m t => if m < t.maxSequence then t.maxSequence else m) m := by
    intro tables
    induction tables with
    | nil => exact fun m => le_refl m
    | cons t tables ih =>
      intro m
      rw [List.foldl_cons]
      refine le_trans ?_ (ih _)
      split_ifs <;> omega
  induction tables with
  | nil => exact absurd ht List.not_mem_nil
  | cons u tables ih =>
    intro m
    rw [List.foldl_cons]
    obtain rfl | ht := List.mem_cons.mp ht
    · refine le_trans ?_ (hstart tables _)
      split_ifs <;> omega
    · exact ih ht _

/-- Keys that can be parsed have at least eight bytes. -/
theorem length_of_mem_parsableKeys {keys : List Slice} {key : Slice} (h : key ∈ parsableKeys keys) :
    8 ≤ key.length := by
  have hsome := (List.mem_filter.mp h).2
  unfold parseKey parseInternalKey at hsome
  split_ifs at hsome
  all_goals first | omega | exact absurd hsome Bool.false_ne_true

/-- The metadata of a scanned table is right exactly when the first and the last key that can be parsed
are there and bound the others. -/
theorem TableScan.Scanned.validFor_iff {t : TableScan} {number : ℕ} {keys : List Slice}
    (h : t.Scanned number keys) {icmp : Comparator} {last : ℕ} (hlast : t.maxSequence ≤ last) :
    t.file.ValidFor icmp (some last) keys ↔ EndsBound icmp keys := by
  constructor
  · intro hvalid
    have hne : parsableKeys keys ≠ [] := by
      intro hnil
      have hlength := hvalid.smallest_length
      rw [h.smallest, hnil] at hlength
      exact absurd hlength (by decide)
    have hfirst := List.head?_eq_some_head hne
    have hfinal := List.getLast?_eq_some_getLast hne
    refine ⟨_, _, hfirst, hfinal, fun key hkey => ?_⟩
    have hbetween := hvalid.between key hkey
    rw [h.smallest, h.largest, hfirst, hfinal] at hbetween
    exact hbetween
  · rintro ⟨first, final, hfirst, hfinal, hbetween⟩
    have hsmallest : t.file.smallest = first := by
      rw [h.smallest, hfirst]
      rfl
    have hlargest : t.file.largest = final := by
      rw [h.largest, hfinal]
      rfl
    refine ⟨?_, ?_, ?_, fun key hkey parsed hparsed => ⟨last, rfl, ?_⟩⟩
    · rw [hsmallest]
      exact length_of_mem_parsableKeys (List.mem_of_head? hfirst)
    · rw [hlargest]
      exact length_of_mem_parsableKeys (List.mem_of_getLast? hfinal)
    · rw [hsmallest, hlargest]
      exact hbetween
    · exact (h.sequence key hkey parsed hparsed).trans hlast

/-- The descriptor that a repair writes has right metadata for all its files exactly when every table that
can be read has a key that can be parsed, and no such key is outside of the first and the last one. -/
theorem repair_descriptor_valid_iff (env : RepairEnv) (icmp : Comparator) (comparatorName : Slice)
    (nextFileNumber : ℕ) (numbers : List ℕ) :
    ∃ tables archived, (∃ n, ∀ fuel ≥ n, env.extractMetaData fuel numbers = some (tables, archived)) ∧
      ((writeDescriptor comparatorName nextFileNumber tables).ValidFor icmp env ↔
        ∀ number ∈ numbers, ∀ keys, env.Reads number keys → EndsBound icmp keys) := by
  obtain ⟨tables, archived, hends, hkept, hall⟩ := env.extractMetaData_ends numbers
  refine ⟨tables, archived, hends, fun hvalid number hnumber keys hreads => ?_, fun hbound f hf keys hreads => ?_⟩
  · obtain ⟨t, ht, hscanned⟩ := hall number hnumber keys hreads
    refine (hscanned.validFor_iff (le_maxSequence ht 0)).mp ?_
    exact hvalid (0, t.file) (List.mem_map_of_mem ht) keys (hscanned.number_eq.symm ▸ hreads)
  · obtain ⟨t, ht, rfl⟩ := List.mem_map.mp hf
    obtain ⟨number, hnumber, keys', hreads', hscanned⟩ := hkept t ht
    dsimp only at hreads
    rw [hscanned.number_eq] at hreads
    obtain rfl := hreads.unique hreads'
    exact (hscanned.validFor_iff (le_maxSequence ht 0)).mpr (hbound number hnumber keys hreads)

/-- A table file with the key "abc", which cannot be parsed. -/
def unparsableTable : Slice :=
  [0, 3, 1, 97, 98, 99, 1, 0, 0, 0, 0, 1, 0, 0, 0, 0, 162, 90, 111, 43, 0, 0, 0, 0, 1, 0, 0, 0, 0, 192, 242,
    161, 176, 0, 3, 2, 97, 98, 99, 0, 15, 0, 0, 0, 0, 1, 0, 0, 0, 0, 251, 138, 164, 204, 20, 8, 33, 16] ++
    List.replicate 36 0 ++ [87, 251, 128, 139, 36, 117, 71, 219]

/-- A directory with this table. -/
def unparsableEnv : RepairEnv where
  getFileSize _ := .ok unparsableTable.length
  cache := { emptyCache with files := fun _ => .ok ⟨fun offset n => .ok ((unparsableTable.drop offset).take n)⟩ }

/-- A table that can be read but has no key that can be parsed is added with empty keys. -/
theorem repair_adds_empty_keys :
    unparsableEnv.extractMetaData 2 [7] = some ([{ file := ⟨7, 102, [], []⟩ }], []) ∧
      ¬(writeDescriptor [] 8 [{ file := ⟨7, 102, [], []⟩ }]).ValidFor
        (internalKeyComparator bytewiseComparator) unparsableEnv := by
  refine ⟨by decide, fun h => ?_⟩
  have hreads : ∃ keys, unparsableEnv.Reads 7 keys :=
    ⟨_, _, _, _, rfl, Shows.step (by decide) (Shows.stop (by decide)), by decide, rfl⟩
  obtain ⟨keys, hreads⟩ := hreads
  have hvalid := h (0, ⟨7, 102, [], []⟩) (List.mem_singleton_self _) keys hreads
  exact absurd hvalid.smallest_length (by decide)

end LevelDb
