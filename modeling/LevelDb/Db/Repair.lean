import LevelDb.Db.Layout
import Mathlib.Data.List.Induction
import Mathlib.Data.List.Pairwise
import Mathlib.Data.Set.Finite.Lemmas

/-!
# Repairing a database

`RepairDB` of `repair.cc` on a directory whose tables and logs are readable. Every log becomes a table
with the next number, in the order in which `GetChildren` lists the logs, and the new manifest has all
tables at level 0, where `Version::Get` takes the one with the largest number to be the newest. So the
entry that is read after `DB::Open` is the newest one in the table with the largest number, which need
not be the newest of all.
-/

namespace LevelDb

open Lib

variable {K V : Type}

/-! ## The repairer -/

/-- A file that `GetChildren` lists and `ParseFileName` accepts, with its contents. -/
inductive DirFile (K V : Type) where
  /-- `kDescriptorFile` -/
  | manifest
  /-- `kLogFile` with its records. -/
  | log (number : ℕ) (batches : List (WriteBatch K V))
  /-- `kTableFile` with its entries. -/
  | table (number : ℕ) (entries : List (Entry K V))
  /-- Any other file. -/
  | other (number : ℕ)

/-- `Repairer`, with the table files of the directory. -/
structure Repairer (K V : Type) where
  /-- `table_numbers_` -/
  tableNumbers : List ℕ := []
  /-- `logs_` with their records. -/
  logs : List (ℕ × List (WriteBatch K V)) := []
  /-- `next_file_number_` -/
  nextFileNumber : ℕ := 1
  /-- The table files. -/
  tables : Tables K V := fun _ => []

/-- The loop of `FindFiles` for one file. -/
def Repairer.findFile (r : Repairer K V) : DirFile K V → Repairer K V
  | .manifest => r
  | .log number batches =>
    { r with
      nextFileNumber := max r.nextFileNumber (number + 1)
      logs := r.logs ++ [(number, batches)] }
  | .table number entries =>
    { r with
      nextFileNumber := max r.nextFileNumber (number + 1)
      tableNumbers := r.tableNumbers ++ [number]
      tables := Function.update r.tables number entries }
  | .other number => { r with nextFileNumber := max r.nextFileNumber (number + 1) }

/-- `FindFiles` -/
def findFiles (listing : List (DirFile K V)) : Repairer K V := listing.foldl Repairer.findFile {}

section

variable [LinearOrder K] [Inhabited V]

end

/-- `TableInfo` -/
structure TableInfo (K : Type) where
  /-- `meta` -/
  file : FileMetaData K
  /-- `max_sequence` -/
  maxSequence : ℕ

/-- The loop of `ScanTable` for `max_sequence`. -/
def scanSequence (entries : List (Entry K V)) : ℕ :=
  entries.foldl (fun m e => max m e.key.sequence) 0

/-- `ScanTable`. A table has entries. -/
def scanTable (o : DbOptions K V) (tables : Tables K V) (number : ℕ) : Option (TableInfo K) :=
  match (tables number).head?, (tables number).getLast? with
  | some first, some last =>
    some ⟨⟨number, o.sizes.finished (tables number), first.key, last.key⟩, scanSequence (tables number)⟩
  | _, _ => none

/-- `ExtractMetaData`: `tables_`. -/
def Repairer.extractMetaData (o : DbOptions K V) (r : Repairer K V) : List (TableInfo K) :=
  r.tableNumbers.filterMap (scanTable o r.tables)

/-- The record that `WriteDescriptor` writes. -/
def Repairer.writeDescriptor (o : DbOptions K V) (r : Repairer K V) (infos : List (TableInfo K)) :
    VersionEdit K :=
  infos.foldl
    (fun edit t => edit.addFile 0 t.file.number t.file.fileSize t.file.smallest t.file.largest)
    { comparator := some o.comparator
      logNumber := some 0
      nextFileNumber := some r.nextFileNumber
      lastSequence := some (infos.foldl (fun m t => max m t.maxSequence) 0) }

section

variable [LinearOrder K] [Inhabited V]

/-- The tables of a directory. -/
def tablesIn (listing : List (DirFile K V)) : List (ℕ × List (Entry K V)) :=
  listing.filterMap fun
    | .table number entries => some (number, entries)
    | _ => none

/-- The logs of a directory. -/
def logsIn (listing : List (DirFile K V)) : List (ℕ × List (WriteBatch K V)) :=
  listing.filterMap fun
    | .log number batches => some (number, batches)
    | _ => none

/-- A number that is larger than that of a file, unless this is a manifest. -/
def DirFile.nextNumber (n : ℕ) : DirFile K V → ℕ
  | .manifest => n
  | .log number _ => max n (number + 1)
  | .table number _ => max n (number + 1)
  | .other number => max n (number + 1)

/-- The first number that is larger than those of all files but the manifests. -/
def nextNumberIn (listing : List (DirFile K V)) : ℕ := listing.foldl DirFile.nextNumber 1

/-- The entries of logs, with numbers from a first one on. -/
def converted : ℕ → List (ℕ × List (WriteBatch K V)) → List (ℕ × List (Entry K V))
  | _, [] => []
  | number, log :: logs => (number, memTableOf log.2) :: converted (number + 1) logs

/-- The tables and logs of a directory. The logs have the numbers behind all others, in the order in
which they are listed. -/
def numbered (listing : List (DirFile K V)) : List (ℕ × List (Entry K V)) :=
  tablesIn listing ++ converted (nextNumberIn listing) (logsIn listing)

/-- The tables and logs of a directory are readable. -/
structure Readable (listing : List (DirFile K V)) : Prop where
  /-- Tables have different numbers. -/
  numbers : (tablesIn listing).Pairwise fun a b => a.1 ≠ b.1
  /-- Tables have entries. -/
  nonempty : ∀ t ∈ tablesIn listing, t.2 ≠ []
  /-- Tables are sorted. -/
  sorted : ∀ t ∈ tablesIn listing, KeySorted t.2
  /-- No log has an internal key twice. -/
  logs : ∀ log ∈ logsIn listing, KeySorted (memTableOf log.2)

omit [LinearOrder K] [Inhabited V] in
/-- `FindFiles` finds the tables and logs. -/
theorem findFiles_spec (listing : List (DirFile K V))
    (hnumbers : (tablesIn listing).Pairwise fun a b => a.1 ≠ b.1) :
    (findFiles listing).tableNumbers = (tablesIn listing).map (·.1) ∧
      (findFiles listing).logs = logsIn listing ∧
      (findFiles listing).nextFileNumber = nextNumberIn listing ∧
      (∀ t ∈ tablesIn listing, (findFiles listing).tables t.1 = t.2 ∧ t.1 < nextNumberIn listing) := by
  -- By induction from the end of the listing, since the loops go forward.
  induction listing using List.reverseRecOn with
  | nil => exact ⟨rfl, rfl, rfl, fun t ht => absurd ht List.not_mem_nil⟩
  | append_singleton listing f ih =>
    have htables : tablesIn (listing ++ [f]) = tablesIn listing ++ tablesIn [f] :=
      List.filterMap_append
    have hlogs : logsIn (listing ++ [f]) = logsIn listing ++ logsIn [f] := List.filterMap_append
    have hfind : findFiles (listing ++ [f]) = (findFiles listing).findFile f := by
      unfold findFiles
      rw [List.foldl_append]
      rfl
    have hnext : nextNumberIn (listing ++ [f]) = f.nextNumber (nextNumberIn listing) := by
      unfold nextNumberIn
      rw [List.foldl_append]
      rfl
    rw [htables] at hnumbers
    obtain ⟨hpre, -, hcross⟩ := List.pairwise_append.mp hnumbers
    obtain ⟨ihnumbers, ihlogs, ihnext, ihtables⟩ := ih hpre
    rw [htables, hlogs, hfind, hnext]
    cases f with
    | manifest =>
      rw [show tablesIn [(DirFile.manifest : DirFile K V)] = [] from rfl,
        show logsIn [(DirFile.manifest : DirFile K V)] = [] from rfl, List.append_nil, List.append_nil]
      exact ⟨ihnumbers, ihlogs, ihnext, ihtables⟩
    | log number batches =>
      rw [show tablesIn [(DirFile.log number batches : DirFile K V)] = [] from rfl,
        show logsIn [(DirFile.log number batches : DirFile K V)] = [(number, batches)] from rfl,
        List.append_nil, ← ihlogs, ← ihnext]
      refine ⟨ihnumbers, rfl, rfl, fun t ht => ⟨(ihtables t ht).1, ?_⟩⟩
      exact lt_max_of_lt_left (ihnext ▸ (ihtables t ht).2)
    | table number entries =>
      rw [show tablesIn [(DirFile.table number entries : DirFile K V)] = [(number, entries)] from rfl,
        show logsIn [(DirFile.table number entries : DirFile K V)] = [] from rfl,
        List.append_nil, ← ihlogs, ← ihnext, List.map_append, ← ihnumbers]
      refine ⟨rfl, rfl, rfl, fun t ht => ?_⟩
      obtain ht | ht := List.mem_append.mp ht
      · have hne : t.1 ≠ number := hcross t ht (number, entries) (List.mem_singleton_self _)
        refine ⟨?_, lt_max_of_lt_left (ihnext ▸ (ihtables t ht).2)⟩
        show Function.update (findFiles listing).tables number entries t.1 = t.2
        rw [Function.update_of_ne hne]
        exact (ihtables t ht).1
      · rw [List.mem_singleton.mp ht]
        exact ⟨Function.update_self _ _ _, lt_max_of_lt_right (Nat.lt_succ_self number)⟩
    | other number =>
      rw [show tablesIn [(DirFile.other number : DirFile K V)] = [] from rfl,
        show logsIn [(DirFile.other number : DirFile K V)] = [] from rfl, List.append_nil,
        List.append_nil, ← ihlogs, ← ihnext]
      refine ⟨ihnumbers, rfl, rfl, fun t ht => ⟨(ihtables t ht).1, ?_⟩⟩
      exact lt_max_of_lt_left (ihnext ▸ (ihtables t ht).2)

/-- The numbers of converted logs start at the first one given. -/
theorem le_of_mem_converted : ∀ {number : ℕ} {logs : List (ℕ × List (WriteBatch K V))}
    {t : ℕ × List (Entry K V)}, t ∈ converted number logs → number ≤ t.1
  | _, [], _, h => absurd h List.not_mem_nil
  | number, log :: logs, t, h => by
    obtain rfl | h := List.mem_cons.mp h
    · exact le_rfl
    · exact (Nat.le_succ number).trans (le_of_mem_converted h)

/-- No two converted logs have the same number. -/
theorem converted_numbers : ∀ (number : ℕ) (logs : List (ℕ × List (WriteBatch K V))),
    (converted number logs).Pairwise fun a b => a.1 ≠ b.1
  | _, [] => List.Pairwise.nil
  | number, log :: logs => by
    refine List.pairwise_cons.mpr ⟨fun t ht => ?_, converted_numbers (number + 1) logs⟩
    have hle := le_of_mem_converted ht
    dsimp only
    omega

/-- The entries of a converted log are those of the memtable of some log. -/
theorem exists_of_mem_converted : ∀ {number : ℕ} {logs : List (ℕ × List (WriteBatch K V))}
    {t : ℕ × List (Entry K V)}, t ∈ converted number logs → ∃ log ∈ logs, t.2 = memTableOf log.2
  | _, [], _, h => absurd h List.not_mem_nil
  | number, log :: logs, t, h => by
    obtain rfl | h := List.mem_cons.mp h
    · exact ⟨log, List.mem_cons_self, rfl⟩
    · obtain ⟨log', hmem, heq⟩ := exists_of_mem_converted h
      exact ⟨log', List.mem_cons_of_mem log hmem, heq⟩

/-- Numbered tables and logs have different numbers. -/
theorem Readable.numbered_numbers {listing : List (DirFile K V)} (h : Readable listing) :
    (numbered listing).Pairwise fun a b => a.1 ≠ b.1 := by
  refine List.pairwise_append.mpr ⟨h.numbers, converted_numbers _ _, fun t ht t' ht' => ?_⟩
  have hlt := ((findFiles_spec listing h.numbers).2.2.2 t ht).2
  have hle := le_of_mem_converted ht'
  omega

/-- In a readable directory a number belongs to one table or log only. -/
theorem Readable.eq_of_number {listing : List (DirFile K V)} (h : Readable listing)
    {t t' : ℕ × List (Entry K V)} (ht : t ∈ numbered listing) (ht' : t' ∈ numbered listing)
    (hnumber : t.1 = t'.1) : t = t' := by
  have hsymm : Std.Symm fun a b : ℕ × List (Entry K V) => a.1 ≠ b.1 := ⟨fun _ _ hne => hne.symm⟩
  by_contra hne
  exact h.numbered_numbers.forall ht ht' hne hnumber

/-- Numbered tables and logs are sorted. -/
theorem Readable.numbered_sorted {listing : List (DirFile K V)} (h : Readable listing)
    {t : ℕ × List (Entry K V)} (ht : t ∈ numbered listing) : KeySorted t.2 := by
  obtain ht | ht := List.mem_append.mp ht
  · exact h.sorted t ht
  · obtain ⟨log, hlog, heq⟩ := exists_of_mem_converted ht
    rw [heq]
    exact h.logs log hlog

omit [LinearOrder K] [Inhabited V] in
/-- What `ScanTable` finds out about a table. -/
def tableInfo (o : DbOptions K V) (t : ℕ × List (Entry K V)) : Option (TableInfo K) :=
  match t.2.head?, t.2.getLast? with
  | some first, some last =>
    some ⟨⟨t.1, o.sizes.finished t.2, first.key, last.key⟩, scanSequence t.2⟩
  | _, _ => none

/-- The files of the descriptor are those of the tables and converted logs that have entries. -/
theorem mem_repairedFiles {o : DbOptions K V} {listing : List (DirFile K V)} {f : FileMetaData K} :
    f ∈ ((numbered listing).filterMap (tableInfo o)).map (·.file) ↔
      ∃ t ∈ numbered listing, (tableInfo o t).map (·.file) = some f := by
  rw [List.mem_map]
  constructor
  · rintro ⟨info, hinfo, rfl⟩
    obtain ⟨t, ht, heq⟩ := List.mem_filterMap.mp hinfo
    exact ⟨t, ht, by rw [heq]; rfl⟩
  · rintro ⟨t, ht, heq⟩
    obtain ⟨info, hinfo, rfl⟩ := Option.map_eq_some_iff.mp heq
    exact ⟨info, List.mem_filterMap.mpr ⟨t, ht, hinfo⟩, rfl⟩

omit [Inhabited V] in
/-- A file of the descriptor describes its table. -/
theorem tableInfo_holds {o : DbOptions K V} {t : ℕ × List (Entry K V)} {f : FileMetaData K}
    (hsorted : KeySorted t.2) (h : (tableInfo o t).map (·.file) = some f) :
    f.number = t.1 ∧ f.Holds t.2 := by
  unfold tableInfo at h
  split at h
  · rename_i first last hfirst hlast
    obtain rfl := Option.some.inj h
    refine ⟨rfl, hsorted, ?_, ?_⟩
    · rw [hfirst]
      rfl
    · rw [hlast]
      rfl
  · exact absurd h.symm (Option.some_ne_none f)

/-- The files that `RepairDB` puts at level 0. -/
def repairedFiles (o : DbOptions K V) (listing : List (DirFile K V)) : List (FileMetaData K) :=
  ((numbered listing).filterMap (tableInfo o)).map (·.file)

/-- The numbers of the files at level 0 identify them. -/
theorem Readable.identify {o : DbOptions K V} {listing : List (DirFile K V)} (h : Readable listing) :
    NumbersIdentify {f | f ∈ repairedFiles o listing} := by
  intro f hf g hg hnumber
  obtain ⟨t, ht, hinfo⟩ := mem_repairedFiles.mp hf
  obtain ⟨t', ht', hinfo'⟩ := mem_repairedFiles.mp hg
  have heq : t = t' := by
    apply h.eq_of_number ht ht'
    rw [← (tableInfo_holds (h.numbered_sorted ht) hinfo).1, hnumber,
      (tableInfo_holds (h.numbered_sorted ht') hinfo').1]
  rw [heq, hinfo'] at hinfo
  exact (Option.some.inj hinfo).symm

end

/-! ## A table that a compaction wrote later -/

end LevelDb
