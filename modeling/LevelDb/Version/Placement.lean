import LevelDb.Version.Files

/-!
# The level of a new table

`DBImpl::WriteLevel0Table` pushes the table of a memtable below level 0 when `OverlapInLevel` finds
no overlap there. `OverlapInLevel` bisects on the largest keys, which the files of level 0 are not
sorted by, so it can miss a file that overlaps. `placement_iff` says exactly when it does not: when
one of the files that a bisection towards the first file starting after the range probes is an
overlapping one.
-/

namespace LevelDb

variable {K : Type} [LinearOrder K]

/-- The loop of `WriteLevel0Table` that pushes the new table to a higher level while the level
below has no overlap; `fuel` levels remain. -/
def pushLevel (base : Version K) (lo hi : K) : ℕ → ℕ → ℕ
  | 0, level => level
  | fuel + 1, level =>
    if base.overlapInLevel (level + 1) lo hi then level else pushLevel base lo hi fuel (level + 1)

/-- The level at which `WriteLevel0Table` adds a table with the user-key range `[lo, hi]`. Recovery
passes no base version. -/
def memTableLevel (base : Option (Version K)) (lo hi : K) : ℕ :=
  match base with
  | none => 0
  | some v =>
    if v.overlapInLevel 0 lo hi then 0 else pushLevel v lo hi kMaxMemCompactLevel 0

/-- The levels that the loop passes have no overlap. -/
theorem pushLevel_overlap (base : Version K) (lo hi : K) : ∀ fuel level l,
    level < l → l ≤ pushLevel base lo hi fuel level → base.overlapInLevel l lo hi = false
  | 0, level, l, h, h' => by
    rw [pushLevel] at h'
    omega
  | fuel + 1, level, l, h, h' => by
    rw [pushLevel] at h'
    split_ifs at h' with ho
    · omega
    · rcases Nat.lt_or_ge (level + 1) l with hl | hl
      · exact pushLevel_overlap base lo hi fuel (level + 1) l hl h'
      · obtain rfl : l = level + 1 := by omega
        simpa using ho

/-- The loop never leaves the range that its fuel allows. -/
theorem pushLevel_le (base : Version K) (lo hi : K) : ∀ fuel level,
    pushLevel base lo hi fuel level ≤ level + fuel
  | 0, level => by simp [pushLevel]
  | fuel + 1, level => by
    rw [pushLevel]
    split_ifs
    · omega
    · have := pushLevel_le base lo hi fuel (level + 1)
      omega

/-- A memtable's table goes no deeper than `kMaxMemCompactLevel`. -/
theorem memTableLevel_le (base : Option (Version K)) (lo hi : K) :
    memTableLevel base lo hi ≤ kMaxMemCompactLevel := by
  unfold memTableLevel
  split
  · simp
  · split_ifs
    · simp
    · simpa using pushLevel_le _ lo hi kMaxMemCompactLevel 0

/-- A table below level 0 was found to overlap no level down to its own. -/
theorem overlapInLevel_of_le_memTableLevel {base : Version K} {lo hi : K}
    (h : 0 < memTableLevel (some base) lo hi) {l : ℕ} (hl : l ≤ memTableLevel (some base) lo hi) :
    base.overlapInLevel l lo hi = false := by
  simp only [memTableLevel] at h hl
  split_ifs at h hl with ho
  · omega
  · rcases Nat.eq_zero_or_pos l with rfl | hpos
    · simpa using ho
    · exact pushLevel_overlap base lo hi _ 0 l hpos hl

/-- On the levels above 0, a table placed below level 0 overlaps nothing. -/
theorem not_meets_of_le_memTableLevel {base : Version K} (wf : base.WellFormed) {lo hi : K} {l : ℕ}
    (hl : 1 ≤ l) (hle : l ≤ memTableLevel (some base) lo hi) {f : FileMetaData K}
    (hf : f ∈ base.files l) : ¬ f.Meets lo hi := fun hm => by
  have ho := overlapInLevel_of_le_memTableLevel (by omega) hle
  have := (someFileOverlapsRange_iff (wf.disjoint l hl) (wf.ranged l)).2 ⟨f, hf, hm⟩
  rw [Version.overlapInLevel] at ho
  simp [this] at ho

/-! ## When the placement is right -/

/-- Placement respects recency for one base version and one memtable range: a table placed below
level 0 meets no file down to its level, and the test of level 0 is exact. -/
def PlacementRespectsRecency (base : Version K) (lo hi : K) : Prop :=
  (∀ level, memTableLevel (some base) lo hi = level → 0 < level →
    ∀ l ≤ level, ∀ f ∈ base.files l, ¬ f.Meets lo hi) ∧
  (base.overlapInLevel 0 lo hi = true ↔ ∃ f ∈ base.files 0, f.Meets lo hi)

/-- The number of files that start at or before `hi`. -/
def startsBy (files : List (FileMetaData K)) (hi : K) : ℕ :=
  (files.takeWhile fun f => decide (f.smallest.userKey ≤ hi)).length

/-- One of the files probed by a bisection towards the first file that starts after `hi` meets
`[lo, hi]`. The probed indices depend on the number of files and on that position only. -/
def ProbesMeet (files : List (FileMetaData K)) (lo hi : K) : Prop :=
  ∃ i ∈ Lib.probes (startsBy files hi) files.length 0 files.length,
    ∃ f, files[i]? = some f ∧ f.Meets lo hi

/-- In a level sorted by smallest key, the files that start at or before `hi` come first. -/
theorem SmallestSorted.lt_startsBy_iff {files : List (FileMetaData K)} (hs : SmallestSorted files)
    {hi : K} {i : ℕ} {f : FileMetaData K} (h : files[i]? = some f) :
    i < startsBy files hi ↔ f.smallest.userKey ≤ hi := by
  unfold startsBy
  rw [Lib.lt_length_takeWhile_iff (hs.imp fun {f g} hfg => ?_) h, decide_eq_true_eq]
  simp only [decide_eq_true_eq]
  exact fun hg => (InternalKey.userKey_le hfg).trans hg

/-- On a level sorted by smallest key, `SomeFileOverlapsRange` finds an overlap exactly when its
bisection probes an overlapping file. -/
theorem someFileOverlapsRange_iff_probesMeet {files : List (FileMetaData K)}
    (hs : SmallestSorted files) (hr : Ranged files) {lo hi : K} (hle : lo ≤ hi) :
    someFileOverlapsRange files lo hi = true ↔ ProbesMeet files lo hi := by
  set key : InternalKey K := .pack lo kMaxSequenceNumber kValueTypeForSeek with hkey
  have hbefore : ∀ {i f}, files[i]? = some f →
      (liesBefore files key i = false ↔ lo ≤ f.largest.userKey) := fun h => by
    rw [liesBefore_of_getElem? h, hkey, decide_eq_false_iff_not, largest_lt_pack_max_iff, not_lt]
  have hbound : startsBy files hi ≤ files.length := (List.takeWhile_sublist _).length_le
  -- A file that starts after the range also ends after it.
  have hafter : ∀ i, startsBy files hi ≤ i → i < files.length →
      liesBefore files key i = false := by
    intro i hi' hlt
    have hget : files[i]? = some files[i] := List.getElem?_eq_getElem hlt
    have hstart : ¬ files[i].smallest.userKey ≤ hi := fun h =>
      absurd ((hs.lt_startsBy_iff hget).2 h) (not_lt.mpr hi')
    exact (hbefore hget).2
      (hle.trans ((not_le.mp hstart).le.trans (hr.userKey_le (List.getElem_mem hlt))))
  -- The answer is whether the search stops at a file that starts within the range.
  have hanswer : someFileOverlapsRange files lo hi = true ↔
      findFile files key < startsBy files hi := by
    unfold someFileOverlapsRange
    rw [← hkey]
    cases hget : files[findFile files key]? with
    | some f => simp only [decide_eq_true_eq, hs.lt_startsBy_iff hget]
    | none =>
      have := List.getElem?_eq_none_iff.mp hget
      simp only [Bool.false_eq_true, false_iff]
      omega
  rw [hanswer, findFile,
    Lib.bisect_lt_iff_probe _ (startsBy files hi) files.length 0 files.length (by omega) hbound hafter]
  constructor
  · rintro ⟨i, hi', hlt, hb⟩
    have hget : files[i]? = some files[i] := List.getElem?_eq_getElem (by omega)
    exact ⟨i, hi', files[i], hget, (hs.lt_startsBy_iff hget).1 hlt, (hbefore hget).1 hb⟩
  · rintro ⟨i, hi', f, hget, hm⟩
    exact ⟨i, hi', (hs.lt_startsBy_iff hget).2 hm.1, (hbefore hget).2 hm.2⟩

/-- Placement respects recency exactly when an overlap with level 0, if there is one, is among the
files that the bisection probes. -/
theorem placement_iff (base : Version K) (wf : base.WellFormed) (lo hi : K) (hle : lo ≤ hi) :
    PlacementRespectsRecency base lo hi ↔
      ((∃ f ∈ base.files 0, f.Meets lo hi) → ProbesMeet (base.files 0) lo hi) := by
  have h0 := someFileOverlapsRange_iff_probesMeet wf.sorted (wf.ranged 0) hle
  constructor
  · rintro ⟨-, hiff⟩ hex
    exact h0.1 (hiff.2 hex)
  · intro hprobe
    have hiff : base.overlapInLevel 0 lo hi = true ↔ ∃ f ∈ base.files 0, f.Meets lo hi :=
      ⟨exists_meets_of_someFileOverlapsRange, fun hex => h0.2 (hprobe hex)⟩
    refine ⟨?_, hiff⟩
    rintro level rfl hpos l hl f hf hm
    rcases Nat.eq_zero_or_pos l with rfl | hl1
    · have := overlapInLevel_of_le_memTableLevel hpos hl
      rw [hiff.2 ⟨f, hf, hm⟩] at this
      simp at this
    · exact not_meets_of_le_memTableLevel wf hl1 hl hf hm

/-- Level 0 with a file `a..z` before a file `b..c`. -/
def wideBeforeNarrow : Version Slice :=
  { files := fun level =>
      if level = 0 then [exampleFile 3 [97] 1 [122] 3, exampleFile 4 [98] 4 [99] 5] else [] }

/-- The example is a well-formed version, with nothing above level 0. -/
theorem wideBeforeNarrow_wellFormed : wideBeforeNarrow.WellFormed where
  levels level h := by
    have : level ≠ 0 := by
      unfold kNumLevels at h
      omega
    simp [wideBeforeNarrow, this]
  ranged level := by
    by_cases h : level = 0
    · subst h
      unfold Ranged
      decide
    · simp [wideBeforeNarrow, h, Ranged]
  sorted := by
    unfold SmallestSorted
    decide
  disjoint level h := by
    have : level ≠ 0 := by omega
    simp [wideBeforeNarrow, this, DisjointSorted]
  toCompact f level h := by simp [wideBeforeNarrow] at h

/-- The condition at a range that the bisection does find. -/
theorem placement_iff_wideBeforeNarrow :
    PlacementRespectsRecency wideBeforeNarrow [98] [98] ↔
      ((∃ f ∈ wideBeforeNarrow.files 0, f.Meets [98] [98]) →
        ProbesMeet (wideBeforeNarrow.files 0) [98] [98]) :=
  placement_iff wideBeforeNarrow wideBeforeNarrow_wellFormed [98] [98] (le_refl _)

/-- The bisection probes `b..c`, which ends before `d`, and never sees `a..z`: the table of a
memtable that holds only `d` goes to level 2, below a level-0 file whose range contains `d`. -/
theorem wideBeforeNarrow_misplaced :
    wideBeforeNarrow.WellFormed ∧ memTableLevel (some wideBeforeNarrow) [100] [100] = 2 ∧
      ¬ PlacementRespectsRecency wideBeforeNarrow [100] [100] := by
  have hlevel : memTableLevel (some wideBeforeNarrow) [100] [100] = 2 := by decide
  refine ⟨wideBeforeNarrow_wellFormed, hlevel, fun h => ?_⟩
  have hno := h.1 2 hlevel (by decide) 0 (by decide) (exampleFile 3 [97] 1 [122] 3)
    (by decide)
  exact hno (by decide)

end LevelDb
