import LevelDb.Format
import LevelDb.Lib.Bisect
import LevelDb.Lib.SortedList
import Mathlib.Algebra.Order.Ring.Rat

/-!
# Files of a version

A `Version` of `db/version_set.h` lists the table files of each level with their key ranges. Levels
above 0 are meant to be sorted and disjoint by internal key, which is what the debug check of
`VersionSet::Builder::SaveTo` tests; level 0 is sorted by smallest key only, and its files may
overlap. `FindFile` and `SomeFileOverlapsRange` search a level by bisection on the largest keys.
-/

namespace LevelDb

variable {K : Type}

/-- `FileMetaData`, without its reference count. `allowed_seeks`, its only field that changes, is
kept in the version. -/
structure FileMetaData (K : Type) where
  /-- The file number. -/
  number : ℕ
  /-- File size in bytes. -/
  fileSize : ℕ
  /-- Smallest internal key served by the table. -/
  smallest : InternalKey K
  /-- Largest internal key served by the table. -/
  largest : InternalKey K
  deriving DecidableEq

/-- `Version`: the files of each level, the file picked by seek statistics with its level, and the
level that should be compacted next with its score. `Finalize` sets the last two; its doubles are
exact rationals here. -/
structure Version (K : Type) where
  /-- `files_`: the files of each level. -/
  files : ℕ → List (FileMetaData K) := fun _ => []
  /-- `file_to_compact_` with `file_to_compact_level_`. -/
  fileToCompact : Option (FileMetaData K × ℕ) := none
  /-- `compaction_score_`. A score below 1 means that compaction is not strictly needed. -/
  compactionScore : ℚ := -1
  /-- `compaction_level_`. -/
  compactionLevel : ℤ := -1
  /-- `allowed_seeks` of the files by their numbers: seeks allowed until compaction. -/
  allowedSeeks : ℕ → ℤ := fun _ => 2^30

section

variable [LinearOrder K]

/-- The user-key range of the file meets `[lo, hi]`. -/
def FileMetaData.Meets (f : FileMetaData K) (lo hi : K) : Prop :=
  f.smallest.userKey ≤ hi ∧ lo ≤ f.largest.userKey

instance (f : FileMetaData K) (lo hi : K) : Decidable (f.Meets lo hi) := instDecidableAnd

/-- The user-key ranges of two files overlap. -/
def FileMetaData.Overlaps (f g : FileMetaData K) : Prop :=
  f.Meets g.smallest.userKey g.largest.userKey

instance (f g : FileMetaData K) : Decidable (f.Overlaps g) := instDecidableAnd

/-- If one file overlaps another, then so does the other the one. -/
theorem FileMetaData.Overlaps.symm {f g : FileMetaData K} (h : f.Overlaps g) : g.Overlaps f :=
  ⟨h.2, h.1⟩

/-- The key ranges of a list of files are not empty. -/
def Ranged (files : List (FileMetaData K)) : Prop := ∀ f ∈ files, f.smallest ≤ f.largest

/-- The order that `SaveTo` keeps in every level: files come by increasing smallest key. -/
def SmallestSorted (files : List (FileMetaData K)) : Prop :=
  files.Pairwise fun f g => f.smallest ≤ g.smallest

/-- Sorted and disjoint by internal key: each largest key is strictly less than the smallest keys of
the files after it. -/
def DisjointSorted (files : List (FileMetaData K)) : Prop :=
  files.Pairwise fun f g => f.largest < g.smallest
  deriving Decidable

/-- The shape of a version: it has `kNumLevels` levels, every file has a range, level 0 is sorted by
smallest key, the levels above 0 are disjoint, and the file picked by seek statistics is one of the
version's. -/
structure Version.WellFormed (v : Version K) : Prop where
  /-- There are only `kNumLevels` levels. -/
  levels : ∀ level, kNumLevels ≤ level → v.files level = []
  /-- Every file has a range. -/
  ranged : ∀ level, Ranged (v.files level)
  /-- Level 0 comes by increasing smallest key. -/
  sorted : SmallestSorted (v.files 0)
  /-- The other levels are disjoint by internal key. -/
  disjoint : ∀ level, 1 ≤ level → DisjointSorted (v.files level)
  /-- `file_to_compact_` points into its level. -/
  toCompact : ∀ f level, v.fileToCompact = some (f, level) → f ∈ v.files level

/-- The part of the shape that the levels alone have: `kNumLevels` of them, with ranges, those above
0 disjoint by internal key. Neighbouring files may share a boundary user key. -/
structure Version.Leveled (v : Version K) : Prop where
  /-- There are only `kNumLevels` levels. -/
  levels : ∀ level, kNumLevels ≤ level → v.files level = []
  /-- Every file has a range. -/
  ranged : ∀ level, Ranged (v.files level)
  /-- The levels above 0 are disjoint by internal key. -/
  disjoint : ∀ level, 1 ≤ level → DisjointSorted (v.files level)

/-- A well-formed version has levels as they should be, whatever its level 0 looks like. -/
theorem Version.WellFormed.leveled {v : Version K} (wf : v.WellFormed) : v.Leveled :=
  ⟨wf.levels, wf.ranged, wf.disjoint⟩

/-- A file with a range has a user-key range. -/
theorem Ranged.userKey_le {files : List (FileMetaData K)} (h : Ranged files) {f : FileMetaData K}
    (hf : f ∈ files) : f.smallest.userKey ≤ f.largest.userKey :=
  InternalKey.userKey_le (h f hf)

/-! ## `FindFile` and `SomeFileOverlapsRange` -/

/-- The test of `FindFile` at an index: the file there lies before the key. -/
def liesBefore (files : List (FileMetaData K)) (key : InternalKey K) (i : ℕ) : Bool :=
  match files[i]? with
  | some f => decide (f.largest < key)
  | none => false

/-- `FindFile`: a binary search for the smallest index whose largest key is at least `key`. -/
def findFile (files : List (FileMetaData K)) (key : InternalKey K) : ℕ :=
  Lib.bisect (liesBefore files key) files.length 0 files.length

/-- `SomeFileOverlapsRange`: whether the file that `FindFile` yields for the earliest internal key
of `lo` starts at or before `hi`. -/
def someFileOverlapsRange (files : List (FileMetaData K)) (lo hi : K) : Bool :=
  match files[findFile files (.pack lo kMaxSequenceNumber kValueTypeForSeek)]? with
  | some f => decide (f.smallest.userKey ≤ hi)
  | none => false

/-- `Version::OverlapInLevel`. -/
def Version.overlapInLevel (v : Version K) (level : ℕ) (lo hi : K) : Bool :=
  someFileOverlapsRange (v.files level) lo hi

theorem liesBefore_of_getElem? {files : List (FileMetaData K)} {key : InternalKey K} {i : ℕ}
    {f : FileMetaData K} (h : files[i]? = some f) :
    liesBefore files key i = decide (f.largest < key) := by
  simp [liesBefore, h]

/-- The largest keys of a disjoint level increase, so the test of `FindFile` turns off once. -/
theorem DisjointSorted.pairwise_before {files : List (FileMetaData K)} (hd : DisjointSorted files)
    (hr : Ranged files) (key : InternalKey K) :
    files.Pairwise fun f g => decide (g.largest < key) = true → decide (f.largest < key) = true := by
  refine hd.imp_of_mem fun {f g} hf hg h => ?_
  simp only [decide_eq_true_eq]
  exact fun hg' => (h.trans_le (hr g hg)).trans hg'

/-- The files of a disjoint level that end before a key are an initial part of it. -/
theorem findFile_eq_takeWhile {files : List (FileMetaData K)} (hd : DisjointSorted files)
    (hr : Ranged files) (key : InternalKey K) :
    findFile files key = (files.takeWhile fun f => decide (f.largest < key)).length :=
  Lib.bisect_eq_length_takeWhile (hd.pairwise_before hr key) liesBefore_of_getElem?

/-- `FindFile` on a disjoint level finds the first file whose largest key is at least the key. -/
theorem findFile_spec {files : List (FileMetaData K)} (hd : DisjointSorted files)
    (hr : Ranged files) {key : InternalKey K} {i : ℕ} {f : FileMetaData K}
    (h : files[i]? = some f) : i < findFile files key ↔ f.largest < key := by
  rw [findFile_eq_takeWhile hd hr,
    Lib.lt_length_takeWhile_iff (hd.pairwise_before hr key) h, decide_eq_true_eq]

/-- The result of `FindFile`, as a file, does not end before the key. This needs no order. -/
theorem findFile_not_before {files : List (FileMetaData K)} {key : InternalKey K}
    {f : FileMetaData K} (h : files[findFile files key]? = some f) : key ≤ f.largest := by
  have hlt : findFile files key < files.length := (List.getElem?_eq_some_iff.mp h).1
  rcases Lib.bisect_stop (liesBefore files key) files.length 0 files.length with hs | hs
  · have : findFile files key = files.length := hs
    omega
  · have hb : liesBefore files key (findFile files key) = false := hs
    rw [liesBefore_of_getElem? h] at hb
    simpa using hb

/-- A file that ends before the earliest internal key of `lo` is one that ends before `lo`. -/
theorem largest_lt_pack_max_iff {f : FileMetaData K} {lo : K} :
    f.largest < .pack lo kMaxSequenceNumber kValueTypeForSeek ↔ f.largest.userKey < lo :=
  lt_lookupKey_max_iff

/-- `SomeFileOverlapsRange` never claims an overlap that is not there, whatever the order of the
files. -/
theorem exists_meets_of_someFileOverlapsRange {files : List (FileMetaData K)} {lo hi : K}
    (h : someFileOverlapsRange files lo hi = true) : ∃ f ∈ files, f.Meets lo hi := by
  unfold someFileOverlapsRange at h
  split at h
  · rename_i f hf
    refine ⟨f, List.mem_of_getElem? hf, by simpa using h, ?_⟩
    have := findFile_not_before hf
    rwa [← not_lt, largest_lt_pack_max_iff, not_lt] at this
  · simp at h

/-- On a disjoint level `SomeFileOverlapsRange` is exact. -/
theorem someFileOverlapsRange_iff {files : List (FileMetaData K)} (hd : DisjointSorted files)
    (hr : Ranged files) {lo hi : K} :
    someFileOverlapsRange files lo hi = true ↔ ∃ f ∈ files, f.Meets lo hi := by
  refine ⟨exists_meets_of_someFileOverlapsRange, ?_⟩
  rintro ⟨f, hf, hlo, hhi⟩
  obtain ⟨i, hi'⟩ := List.mem_iff_getElem?.mp hf
  set key : InternalKey K := .pack lo kMaxSequenceNumber kValueTypeForSeek with hkey
  -- `f` does not end before `lo`, so the search stops at `f` or before it.
  have hle : findFile files key ≤ i := by
    by_contra hlt
    have := (findFile_spec hd hr hi').1 (not_le.mp hlt)
    rw [hkey, largest_lt_pack_max_iff] at this
    exact absurd hhi (not_le.mpr this)
  have hilen : i < files.length := (List.getElem?_eq_some_iff.mp hi').1
  have hget : files[findFile files key]? = some files[findFile files key] :=
    List.getElem?_eq_getElem (by omega)
  unfold someFileOverlapsRange
  rw [← hkey, hget]
  simp only [decide_eq_true_eq]
  rcases lt_or_eq_of_le hle with hlt | heq
  · -- An earlier file starts no later than `f`.
    have hfi : files[i] = f := (List.getElem?_eq_some_iff.mp hi').2
    have := List.pairwise_iff_getElem.mp hd _ i (by omega) hilen hlt
    rw [hfi] at this
    have hr' := hr _ (List.getElem_mem (show findFile files key < files.length by omega))
    exact (InternalKey.userKey_le (hr'.trans this.le)).trans hlo
  · rw [← heq, hget, Option.some.injEq] at hi'
    rw [hi']
    exact hlo

end

/-- A file of the examples: a number and a user-key range with the sequence numbers of its ends. -/
def exampleFile (number : ℕ) (lo : Slice) (loSeq : ℕ) (hi : Slice) (hiSeq : ℕ) :
    FileMetaData Slice :=
  ⟨number, 1, .pack lo loSeq .value, .pack hi hiSeq .value⟩

end LevelDb
