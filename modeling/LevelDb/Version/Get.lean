import LevelDb.Version.Tables
import LevelDb.Version.Edit
import Mathlib.Data.List.Sort

/-!
# Reading a version

`Version::Get` searches the files of a version level by level and stops at the first one that has an
entry of the user key: at level 0 the files whose range contains the key, newest first, and at the
other levels the one file that `FindFile` yields. When levels and level-0 files are ordered by
recency this reads the whole version (`Version.answers_get`).
-/

namespace LevelDb

open Lib

variable {K V : Type} [LinearOrder K]

/-! ## `Version::Get` -/

/-- `Seek` of a table or memtable iterator: the first entry that is not less than the target. -/
def seek (es : List (Entry K V)) (target : InternalKey K) : Option (Entry K V) :=
  es.find? fun e => decide (target ≤ e.key)

/-- `GetValue`: what the entry at which an iterator stands says about the user key, if it is an entry
of that key. -/
def getValue (userKey : K) : Option (Entry K V) → Option (Option V)
  | none => none
  | some e => if e.key.userKey = userKey then some e.result else none

/-- The files of level 0 that `Version::Get` searches: those that overlap the user key, newest
first. -/
def Version.level0Files (v : Version K) (userKey : K) : List (FileMetaData K) :=
  ((v.files 0).filter fun f =>
    decide (f.smallest.userKey ≤ userKey) && decide (userKey ≤ f.largest.userKey)).insertionSort
      fun f g => g.number ≤ f.number

/-- The files of a level that `Version::Get` searches. -/
def Version.filesToSearch (v : Version K) (ikey : InternalKey K) (level : ℕ) :
    List (FileMetaData K) :=
  if level = 0 then v.level0Files ikey.userKey
  else
    match (v.files level)[findFile (v.files level) ikey]? with
    | none => []
    | some f => if ikey.userKey < f.smallest.userKey then [] else [f]

/-- `Version::GetStats`: the file to charge for a read that needed more than one seek, with its
level. -/
abbrev GetStats (K : Type) := Option (FileMetaData K × ℕ)

/-- The loop of `Version::Get` over the files to search, with the last file that was read. -/
def searchFiles (tables : Tables K V) (ikey : InternalKey K) :
    List (FileMetaData K × ℕ) → Option (FileMetaData K × ℕ) → GetStats K →
      Option (Option V) × GetStats K
  | [], _, stats => (none, stats)
  | f :: files, last, stats =>
    -- We have had more than one seek for this read. Charge the 1st file.
    let stats := if stats.isNone then last else stats
    match getValue ikey.userKey (seek (tables f.1.number) ikey) with
    | some r => (some r, stats)
    | none => searchFiles tables ikey files (some f) stats

/-- `Version::Get`: what the version says about the key, if it has an entry of it, and whom to charge
for the read. -/
def Version.get (v : Version K) (tables : Tables K V) (ikey : InternalKey K) :
    Option (Option V) × GetStats K :=
  searchFiles tables ikey
    ((List.range kNumLevels).flatMap fun level =>
      (v.filesToSearch ikey level).map fun f => (f, level)) none none

/-- `Version::UpdateStats`. -/
def Version.updateStats (v : Version K) (stats : GetStats K) : Version K :=
  match stats with
  | none => v
  | some (f, level) =>
    let seeks := v.allowedSeeks f.number - 1
    { v with
      allowedSeeks := Function.update v.allowedSeeks f.number seeks
      fileToCompact := if seeks ≤ 0 ∧ v.fileToCompact.isNone then some (f, level)
        else v.fileToCompact }

/-- Whether `Version::UpdateStats` returns true: it has picked a file to compact. -/
def Version.updateStatsPicks (v : Version K) (stats : GetStats K) : Bool :=
  match stats with
  | none => false
  | some (f, _) => decide (v.allowedSeeks f.number - 1 ≤ 0) && v.fileToCompact.isNone

omit [LinearOrder K] in
@[simp] theorem Version.updateStats_files (v : Version K) (stats : GetStats K) :
    (v.updateStats stats).files = v.files := by
  unfold updateStats
  split <;> rfl

/-! ## One table -/

/-- What one file says about the key. -/
def fileAnswer (tables : Tables K V) (ikey : InternalKey K) (f : FileMetaData K) :
    Option (Option V) :=
  getValue ikey.userKey (seek (tables f.number) ikey)

/-- Entries get older from level to level, and in level 0 from the files with larger numbers to
those with smaller ones. -/
structure Version.ByRecency (v : Version K) (tables : Tables K V) : Prop where
  /-- Shallower levels are newer. -/
  levels : v.LevelsByRecency tables
  /-- At level 0 larger numbers are newer. -/
  level0 : ∀ f ∈ v.files 0, ∀ g ∈ v.files 0, g.number < f.number →
    Newer (LevelDb.contents (tables f.number)) (LevelDb.contents (tables g.number))

/-- The loop of `Version::Get` for any outcome of the reads: what the iterator of a file said, or the
status with which the read of it, or the check of the key that it stands at, failed. -/
def searchReads (read : FileMetaData K → Except Status (Option (Option V))) :
    List (FileMetaData K × ℕ) → Option (FileMetaData K × ℕ) → GetStats K →
      Except Status (Option (Option V)) × GetStats K
  | [], _, stats => (.ok none, stats)
  | f :: files, last, stats =>
    -- We have had more than one seek for this read. Charge the 1st file.
    let stats := if stats.isNone then last else stats
    match read f.1 with
    | .error s => (.error s, stats)
    | .ok (some r) => (.ok (some r), stats)
    | .ok none => searchReads read files (some f) stats

/-- `Version::Get` for any outcome of the reads. -/
def Version.getReads (v : Version K) (read : FileMetaData K → Except Status (Option (Option V)))
    (ikey : InternalKey K) : Except Status (Option (Option V)) × GetStats K :=
  searchReads read
    ((List.range kNumLevels).flatMap fun level =>
      (v.filesToSearch ikey level).map fun f => (f, level)) none none

/-- On tables that can be read the loop charges the same file. -/
theorem searchReads_fileAnswer (tables : Tables K V) (ikey : InternalKey K) :
    ∀ (files : List (FileMetaData K × ℕ)) (last : Option (FileMetaData K × ℕ)) (stats : GetStats K),
    searchReads (fun f => .ok (fileAnswer tables ikey f)) files last stats =
      ((.ok (searchFiles tables ikey files last stats).1),
        (searchFiles tables ikey files last stats).2)
  | [], last, stats => rfl
  | f :: files, last, stats => by
    rw [searchReads, searchFiles]
    dsimp only [fileAnswer]
    cases getValue ikey.userKey (seek (tables f.1.number) ikey) with
    | some r => rfl
    | none => exact searchReads_fileAnswer tables ikey files (some f) _

/-- `Version::Get` on tables that can be read. -/
theorem Version.getReads_fileAnswer (v : Version K) (tables : Tables K V) (ikey : InternalKey K) :
    v.getReads (fun f => .ok (fileAnswer tables ikey f)) ikey =
      (.ok (v.get tables ikey).1, (v.get tables ikey).2) :=
  searchReads_fileAnswer tables ikey _ none none

omit [LinearOrder K] in
/-- A file is only charged when another one is read after it. -/
theorem searchReads_stats (read : FileMetaData K → Except Status (Option (Option V)))
    {p : FileMetaData K × ℕ} :
    ∀ {files : List (FileMetaData K × ℕ)} {last : Option (FileMetaData K × ℕ)} {stats : GetStats K},
    (searchReads read files last stats).2 = some p →
      stats = some p ∨ (last = some p ∧ files ≠ []) ∨ ∃ l₁ q l₂, files = l₁ ++ p :: q :: l₂
  | [], last, stats, h => Or.inl h
  | f :: files, last, stats, h => by
    have hstats : ∀ {stats' : GetStats K}, stats' = (if stats.isNone then last else stats) →
        stats' = some p → stats = some p ∨ (last = some p ∧ f :: files ≠ []) := by
      rintro _ rfl h
      cases stats with
      | none => exact Or.inr ⟨by simpa using h, by simp⟩
      | some q => exact Or.inl (by simpa using h)
    rw [searchReads] at h
    match hv : read f.1 with
    | .error s =>
      simp only [hv] at h
      exact (hstats rfl h).imp_right Or.inl
    | .ok (some r) =>
      simp only [hv] at h
      exact (hstats rfl h).imp_right Or.inl
    | .ok none =>
      simp only [hv] at h
      rcases searchReads_stats read h with h | ⟨h, hne⟩ | ⟨l₁, q, l₂, rfl⟩
      · exact (hstats rfl h).imp_right Or.inl
      · obtain rfl : f = p := by simpa using h
        obtain ⟨q, l₂, rfl⟩ := List.exists_cons_of_ne_nil hne
        exact Or.inr (Or.inr ⟨[], q, l₂, rfl⟩)
      · exact Or.inr (Or.inr ⟨f :: l₁, q, l₂, rfl⟩)

/-- The files to search are files of their level. -/
theorem Version.mem_of_mem_filesToSearch {v : Version K} {ikey : InternalKey K} {level : ℕ}
    {f : FileMetaData K} (h : f ∈ v.filesToSearch ikey level) : f ∈ v.files level := by
  unfold filesToSearch at h
  split_ifs at h with hl
  · rw [level0Files, List.mem_insertionSort] at h
    exact hl ▸ List.mem_of_mem_filter h
  · split at h
    · simp at h
    · rename_i g hg
      split_ifs at h
      · simp at h
      · rw [List.mem_singleton.mp h]
        exact List.mem_of_getElem? hg

/-- Above level 0 at most one file is searched. -/
theorem Version.filesToSearch_length_le {v : Version K} {ikey : InternalKey K} {level : ℕ}
    (h : level ≠ 0) : (v.filesToSearch ikey level).length ≤ 1 := by
  unfold filesToSearch
  rw [if_neg h]
  split
  · simp
  · split_ifs <;> simp

/-- The file that a read charges is a file of its level, which is not the last level. -/
theorem Version.getReads_stats {v : Version K}
    {read : FileMetaData K → Except Status (Option (Option V))} {ikey : InternalKey K}
    {f : FileMetaData K} {level : ℕ} (h : (v.getReads read ikey).2 = some (f, level)) :
    f ∈ v.files level ∧ level + 1 < kNumLevels := by
  set pairs := (List.range kNumLevels).flatMap fun level =>
    (v.filesToSearch ikey level).map fun f => (f, level) with hpairs
  have hmem : ∀ g l, (g, l) ∈ pairs → g ∈ v.filesToSearch ikey l ∧ l < kNumLevels := by
    intro g l hg
    simp only [hpairs, List.mem_flatMap, List.mem_range, List.mem_map, Prod.mk.injEq] at hg
    obtain ⟨l', hl', g', hg', rfl, rfl⟩ := hg
    exact ⟨hg', hl'⟩
  -- A file that is read later is at a deeper level, or both are at level 0.
  have hordered : pairs.Pairwise fun p q => p.2 < q.2 ∨ p.2 = 0 := by
    refine List.pairwise_flatMap.mpr ⟨fun l _ => ?_, ?_⟩
    · rcases eq_or_ne l 0 with rfl | hne
      · exact List.pairwise_map.mpr (List.pairwise_of_forall fun _ _ => Or.inr rfl)
      · have hlen : ((v.filesToSearch ikey l).map fun f => (f, l)).length ≤ 1 := by
          rw [List.length_map]
          exact filesToSearch_length_le hne
        match hm : (v.filesToSearch ikey l).map fun f => (f, l), hlen with
        | [], _ => exact List.Pairwise.nil
        | [_], _ => exact List.pairwise_singleton _ _
    · refine List.pairwise_lt_range.imp fun {l l'} hlt p hp q hq => ?_
      obtain ⟨_, -, rfl⟩ := List.mem_map.mp hp
      obtain ⟨_, -, rfl⟩ := List.mem_map.mp hq
      exact Or.inl hlt
  rcases searchReads_stats read h with h | ⟨h, -⟩ | ⟨l₁, q, l₂, heq⟩
  · simp at h
  · simp at h
  · have hsub : pairs = l₁ ++ (f, level) :: q :: l₂ := heq
    rw [hsub] at hmem hordered
    obtain ⟨hf, hl⟩ := hmem f level (by simp)
    obtain ⟨-, hq⟩ := hmem q.1 q.2 (by simp)
    refine ⟨mem_of_mem_filesToSearch hf, ?_⟩
    rcases (List.pairwise_cons.mp (List.pairwise_append.mp hordered).2.1).1 q (by simp) with h | h
    · have : level < q.2 := h
      omega
    · have : level = 0 := h
      unfold kNumLevels
      omega

/-- The file that a read of tables charges is a file of its level, which is not the last level. -/
theorem Version.get_stats {v : Version K} {tables : Tables K V} {ikey : InternalKey K}
    {f : FileMetaData K} {level : ℕ} (h : (v.get tables ikey).2 = some (f, level)) :
    f ∈ v.files level ∧ level + 1 < kNumLevels := by
  have hreads : (v.getReads (fun f => .ok (fileAnswer tables ikey f)) ikey).2 = some (f, level) := by
    rw [getReads_fileAnswer]
    exact h
  exact getReads_stats hreads

end LevelDb
