import LevelDb.Version.Manifest
import LevelDb.Version.Placement
import LevelDb.Version.Get

/-!
# The layout of a version

What holds of every version of a running database: its shape, the tables of its files, and that no
sequence number occurs in two places (`Version.Layout`). `Layout.logAndApply` says what an edit has to
satisfy to lead to a version with that layout again; the edits of a memtable's table and of a trivial
move do.
-/

namespace LevelDb

open Lib

variable {K V : Type} [LinearOrder K]

/-- Sequence numbers tell the stored entries apart, and each entry is in one file at one level. -/
def Version.Separate (v : Version K) (tables : Tables K V) : Prop :=
  ∀ l, ∀ f ∈ v.files l, ∀ l', ∀ g ∈ v.files l', ∀ e ∈ tables f.number, ∀ e' ∈ tables g.number,
    e.key.sequence = e'.key.sequence → l = l' ∧ f = g ∧ e = e'

/-- The layout of a version with its tables. -/
structure Version.Layout (v : Version K) (tables : Tables K V) : Prop where
  /-- The shape of the levels. -/
  wf : v.WellFormed
  /-- Levels are in the order of `BySmallestKey`. -/
  sorted : ∀ l, FilesSorted (v.files l)
  /-- Files have their tables. -/
  hasTables : v.HasTables tables
  /-- Entries are in one place. -/
  separate : v.Separate tables
  /-- A file picked by seek statistics is not at the last level. -/
  toCompact : ∀ f l, v.fileToCompact = some (f, l) → l + 1 < kNumLevels
  /-- The level that `Finalize` chose is not the last one. -/
  compactionLevel : v.compactionLevel.toNat + 1 < kNumLevels

/-- The version of a new database, which has no files, has a layout with any tables. -/
theorem Version.layout_empty (tables : Tables K V) : ({} : Version K).Layout tables :=
  ⟨⟨by simp, by simp [Ranged], by simp [SmallestSorted], by simp [DisjointSorted], by simp⟩,
    by simp [FilesSorted], by simp [HasTables], by simp [Separate], by simp, by simp [kNumLevels]⟩

/-- A file is at one level. -/
theorem Version.Layout.level_eq {v : Version K} {tables : Tables K V} (h : v.Layout tables)
    {l l' : ℕ} {f : FileMetaData K} (hf : f ∈ v.files l) (hf' : f ∈ v.files l') : l = l' := by
  obtain ⟨e, he, -⟩ := (h.hasTables l f hf).exists_smallest
  exact (h.separate l f hf l' f hf' e he e he rfl).1

/-- In a version with a layout, live files with the same number are the same file. -/
theorem Version.Layout.identify {v : Version K} {tables : Tables K V} (h : v.Layout tables) :
    NumbersIdentify v.liveFiles := by
  rintro f ⟨l, hf⟩ g ⟨l', hg⟩ hn
  obtain ⟨e, he, -⟩ := (h.hasTables l f hf).exists_smallest
  exact (h.separate l f hf l' g hg e he e (hn ▸ he) rfl).2.1

omit [LinearOrder K] in
/-- The level that `Finalize` chooses is one of those that it looks at. -/
theorem bestLevel_lt (v : Version K) : (bestLevel v).1.toNat + 1 < kNumLevels := by
  suffices h : ∀ (ls : List ℕ) (best : ℤ × ℚ), (∀ l ∈ ls, l + 1 < kNumLevels) →
      best.1.toNat + 1 < kNumLevels →
      (ls.foldl (fun best level =>
        if best.2 < levelScore (v.files level) level then
          ((level : ℤ), levelScore (v.files level) level)
        else best) best).1.toNat + 1 < kNumLevels by
    refine h _ _ (fun l hl => ?_) (by decide)
    have := List.mem_range.mp hl
    omega
  intro ls
  induction ls with
  | nil => exact fun best _ h => h
  | cons l ls ih =>
    intro best hls hbest
    rw [List.foldl_cons]
    refine ih _ (fun m hm => hls m (List.mem_cons_of_mem l hm)) ?_
    split_ifs
    · exact hls l List.mem_cons_self
    · exact hbest

/-- The layout only depends on the files, and on what points to the next compaction. -/
theorem Version.Layout.of_files {v v' : Version K} {tables : Tables K V} (h : v.Layout tables)
    (hfiles : v'.files = v.files)
    (hto : ∀ f l, v'.fileToCompact = some (f, l) → f ∈ v.files l ∧ l + 1 < kNumLevels)
    (hlevel : v'.compactionLevel.toNat + 1 < kNumLevels) : v'.Layout tables := by
  refine ⟨⟨hfiles ▸ h.wf.levels, hfiles ▸ h.wf.ranged, hfiles ▸ h.wf.sorted, hfiles ▸ h.wf.disjoint,
    fun f l hf => hfiles ▸ (hto f l hf).1⟩, hfiles ▸ h.sorted, ?_, ?_, fun f l hf => (hto f l hf).2,
    hlevel⟩
  · unfold Version.HasTables
    rw [hfiles]
    exact h.hasTables
  · unfold Version.Separate
    rw [hfiles]
    exact h.separate

/-- Reads keep the layout when they update the seek statistics. -/
theorem Version.Layout.updateStats {v : Version K} {tables : Tables K V} (h : v.Layout tables)
    {stats : GetStats K} (hstats : ∀ f l, stats = some (f, l) → f ∈ v.files l ∧ l + 1 < kNumLevels) :
    (v.updateStats stats).Layout tables := by
  refine h.of_files (v.updateStats_files stats) ?_ ?_
  · intro f l hf
    unfold Version.updateStats at hf
    split at hf
    · exact ⟨h.wf.toCompact f l hf, h.toCompact f l hf⟩
    · next g m =>
      dsimp only at hf
      split_ifs at hf
      · exact hstats f l hf
      · exact ⟨h.wf.toCompact f l hf, h.toCompact f l hf⟩
  · unfold Version.updateStats
    split
    · exact h.compactionLevel
    · exact h.compactionLevel

/-! ## Edits -/

/-- An edit leads to a version with a layout when the files that it adds have tables, are apart from
the other files of their level above level 0, and have entries of their own. -/
theorem Version.Layout.logAndApply {vs : VersionSet K} {tables tables' : Tables K V}
    {edit : VersionEdit K} (h : vs.current.Layout tables) (hfits : edit.Fits vs.current)
    (hsame : ∀ l, ∀ f ∈ vs.current.files l, tables' f.number = tables f.number)
    (hholds : ∀ l f, (l, f) ∈ edit.newFiles → f.Holds (tables' f.number))
    (hapart : ∀ l f, 1 ≤ l → (l, f) ∈ edit.newFiles →
      ∀ g ∈ (vs.logAndApply edit).current.files l, g ≠ f →
        f.largest < g.smallest ∨ g.largest < f.smallest)
    (hsep : ∀ l f, (l, f) ∈ edit.newFiles → ∀ l', ∀ g ∈ (vs.logAndApply edit).current.files l',
      ∀ e ∈ tables' f.number, ∀ e' ∈ tables' g.number,
        e.key.sequence = e'.key.sequence → l = l' ∧ f = g ∧ e = e') :
    (vs.logAndApply edit).current.Layout tables' := by
  have hturns := VersionSet.logAndApply_turns h.wf.levels hfits
  have hholds' : (vs.logAndApply edit).current.HasTables tables' := by
    intro l f hf
    rcases (hturns l f).mp hf with ⟨hf, -⟩ | hf
    · rw [hsame l f hf]
      exact h.hasTables l f hf
    · exact hholds l f hf
  have hranged : ∀ l, Ranged ((vs.logAndApply edit).current.files l) := fun l f hf =>
    (hholds' l f hf).smallest_le_largest
  have hsorted := fun l => VersionSet.logAndApply_sorted hfits (h.sorted l)
  refine
    { wf :=
        { levels := fun l hl => vs.logAndApply_levels edit hl
          ranged := hranged
          sorted := (hsorted 0).smallestSorted
          disjoint := fun l hl => ?_
          toCompact := fun f l hf => by simp [VersionSet.logAndApply, Builder.saveTo] at hf }
      sorted := hsorted
      hasTables := hholds'
      separate := ?_
      toCompact := fun f l hf => by simp [VersionSet.logAndApply, Builder.saveTo] at hf
      compactionLevel := bestLevel_lt _ }
  · refine (hsorted l).disjointSorted (hranged l) fun f hf g hg hne => ?_
    rcases (hturns l f).mp hf with ⟨hf', -⟩ | hf'
    · rcases (hturns l g).mp hg with ⟨hg', -⟩ | hg'
      · -- Two files that stay were apart before.
        have hd := h.wf.disjoint l hl
        exact (Lib.eq_or_rel_of_pairwise hd hf' hg').resolve_left hne
      · exact (hapart l g hl hg' f hf hne).symm
    · exact hapart l f hl hf' g hg hne.symm
  · intro l f hf l' g hg e he e' he' hseq
    rcases (hturns l f).mp hf with ⟨hf', -⟩ | hf'
    · rcases (hturns l' g).mp hg with ⟨hg', -⟩ | hg'
      · rw [hsame l f hf'] at he
        rw [hsame l' g hg'] at he'
        exact h.separate l f hf' l' g hg' e he e' he' hseq
      · obtain ⟨h1, h2, h3⟩ := hsep l' g hg' l f hf e' he' e he hseq.symm
        exact ⟨h1.symm, h2.symm, h3.symm⟩
    · exact hsep l f hf' l' g hg e he e' he' hseq

omit [LinearOrder K] in
/-- Entries that are newer than everything stored are nowhere else. -/
theorem Version.not_stored_of_newer {v : Version K} {tables : Tables K V} {bound : ℕ}
    (hold : ∀ e ∈ v.contents tables, e.key.sequence ≤ bound) {l : ℕ} {g : FileMetaData K}
    (hg : g ∈ v.files l) {e e' : Entry K V} (he' : e' ∈ tables g.number)
    (he : bound < e.key.sequence) : e.key.sequence ≠ e'.key.sequence := by
  have := hold e' ⟨l, g, hg, he'⟩
  omega

/-- A table that an edit adds: its level, its file and its entries. -/
structure NewTable (K V : Type) where
  /-- The level. -/
  level : ℕ
  /-- The file. -/
  file : FileMetaData K
  /-- The entries. -/
  entries : List (Entry K V)

/-- Tables of memtables that are new to a version: newer than everything that it stores, with numbers
and sequence numbers of their own, and at levels above 0 only where they meet no other file. -/
structure Version.AcceptsTables (v : Version K) (tables : Tables K V) (bound : ℕ)
    (news : List (NewTable K V)) : Prop where
  /-- The levels exist. -/
  level_lt : ∀ n ∈ news, n.level < kNumLevels
  /-- The numbers are new. -/
  number_lt : ∀ n ∈ news, ∀ g ∈ v.liveFiles, g.number < n.file.number
  /-- The numbers increase. -/
  numbers : news.Pairwise fun n m => n.file.number < m.file.number
  /-- The files have their entries. -/
  holds : ∀ n ∈ news, n.file.Holds n.entries
  /-- What is stored is old. -/
  old : ∀ e ∈ v.contents tables, e.key.sequence ≤ bound
  /-- The entries are newer. -/
  newer : ∀ n ∈ news, ∀ e ∈ n.entries, bound < e.key.sequence
  /-- Sequence numbers tell the entries apart. -/
  distinct : ∀ n ∈ news, ∀ m ∈ news, ∀ e ∈ n.entries, ∀ e' ∈ m.entries,
    e.key.sequence = e'.key.sequence → n = m ∧ e = e'
  /-- Above level 0 a table meets nothing. -/
  meets : ∀ n ∈ news, 1 ≤ n.level →
    (∀ g ∈ v.files n.level, ¬ g.Meets n.file.smallest.userKey n.file.largest.userKey) ∧
      ∀ m ∈ news, m.level = n.level → m = n

/-- Among the tables that a version accepts, those with the same number are the same table. -/
theorem Version.AcceptsTables.eq_of_number {v : Version K} {tables : Tables K V} {bound : ℕ}
    {news : List (NewTable K V)} (h : v.AcceptsTables tables bound news) {n m : NewTable K V}
    (hn : n ∈ news) (hm : m ∈ news) (heq : n.file.number = m.file.number) : n = m := by
  rcases Lib.eq_or_rel_of_pairwise h.numbers hn hm with hsame | hlt | hgt
  · exact hsame
  · exact absurd heq hlt.ne
  · exact absurd heq hgt.ne'

/-- A version has become another one by gaining new tables. -/
structure Version.Gains (v : Version K) (tables : Tables K V) (news : List (NewTable K V))
    (v' : Version K) (tables' : Tables K V) : Prop where
  /-- The new files are there beside the old ones. -/
  mem_iff : ∀ l g, g ∈ v'.files l ↔ g ∈ v.files l ∨ ∃ n ∈ news, n.level = l ∧ n.file = g
  /-- The tables of the old files. -/
  tables_old : ∀ g ∈ v.liveFiles, tables' g.number = tables g.number
  /-- The tables of the new files. -/
  tables_new : ∀ n ∈ news, tables' n.file.number = n.entries

omit [LinearOrder K] in
/-- What a version gains, a version with the same files gains. -/
theorem Version.Gains.of_files {u v v' : Version K} {tables tables' : Tables K V}
    {news : List (NewTable K V)} (h : v.Gains tables news v' tables') (hfiles : v.files = u.files) :
    u.Gains tables news v' tables' := by
  refine ⟨fun l g => ?_, fun g hg => h.tables_old g ?_, h.tables_new⟩
  · rw [h.mem_iff, hfiles]
  · obtain ⟨l, hl⟩ := hg
    exact ⟨l, hfiles ▸ hl⟩

omit [LinearOrder K] in
/-- What a version stores after it has gained tables. -/
theorem Version.Gains.mem_levelContents {v v' : Version K} {tables tables' : Tables K V}
    {news : List (NewTable K V)} (h : v.Gains tables news v' tables') {l : ℕ} {e : Entry K V} :
    e ∈ v'.levelContents tables' l ↔
      e ∈ v.levelContents tables l ∨ ∃ n ∈ news, n.level = l ∧ e ∈ n.entries := by
  constructor
  · rintro ⟨g, hg, he⟩
    rcases (h.mem_iff l g).mp hg with hg | ⟨n, hn, hl, rfl⟩
    · exact Or.inl ⟨g, hg, h.tables_old g ⟨l, hg⟩ ▸ he⟩
    · exact Or.inr ⟨n, hn, hl, h.tables_new n hn ▸ he⟩
  · rintro (⟨g, hg, he⟩ | ⟨n, hn, hl, he⟩)
    · exact ⟨g, (h.mem_iff l g).mpr (Or.inl hg), (h.tables_old g ⟨l, hg⟩).symm ▸ he⟩
    · exact ⟨n.file, (h.mem_iff l _).mpr (Or.inr ⟨n, hn, hl, rfl⟩), (h.tables_new n hn).symm ▸ he⟩

omit [LinearOrder K] in
/-- What all levels store after a version has gained tables. -/
theorem Version.Gains.mem_contents {v v' : Version K} {tables tables' : Tables K V}
    {news : List (NewTable K V)} (h : v.Gains tables news v' tables') {e : Entry K V} :
    e ∈ v'.contents tables' ↔ e ∈ v.contents tables ∨ ∃ n ∈ news, e ∈ n.entries := by
  constructor
  · rintro ⟨l, he⟩
    rcases h.mem_levelContents.mp he with he | ⟨n, hn, -, he⟩
    · exact Or.inl ⟨l, he⟩
    · exact Or.inr ⟨n, hn, he⟩
  · rintro (⟨l, he⟩ | ⟨n, hn, he⟩)
    · exact ⟨l, h.mem_levelContents.mpr (Or.inl he)⟩
    · exact ⟨n.level, h.mem_levelContents.mpr (Or.inr ⟨n, hn, rfl, he⟩)⟩

/-- The layout after an edit that adds tables of memtables. -/
theorem Version.Layout.addTables {vs : VersionSet K} {tables tables' : Tables K V}
    {edit : VersionEdit K} {bound : ℕ} {news : List (NewTable K V)} (h : vs.current.Layout tables)
    (hacc : vs.current.AcceptsTables tables bound news)
    (hnew : edit.newFiles = news.map fun n => (n.level, n.file)) (hdel : edit.deletedFiles = [])
    (hsame : ∀ g ∈ vs.current.liveFiles, tables' g.number = tables g.number)
    (htab : ∀ n ∈ news, tables' n.file.number = n.entries) :
    edit.Fits vs.current ∧ (vs.logAndApply edit).current.Layout tables' ∧
      vs.current.Gains tables news (vs.logAndApply edit).current tables' := by
  have hmem : ∀ l g, (l, g) ∈ edit.newFiles ↔ ∃ n ∈ news, n.level = l ∧ n.file = g := by
    intro l g
    rw [hnew]
    simp
  have hfits : edit.Fits vs.current := by
    refine ⟨?_, ?_, ?_⟩
    · intro l g hg
      obtain ⟨n, hn, rfl, rfl⟩ := (hmem l g).mp hg
      exact hacc.level_lt n hn
    · intro l g hg x hx
      obtain ⟨n, hn, rfl, rfl⟩ := (hmem l g).mp hg
      exact (hacc.number_lt n hn x ⟨_, hx⟩).ne
    · intro l g hg g' hg' heq
      obtain ⟨n, hn, -, rfl⟩ := (hmem l g).mp hg
      obtain ⟨m, hm, -, rfl⟩ := (hmem l g').mp hg'
      rw [hacc.eq_of_number hn hm heq]
  -- The edit turns the files of the version into those with the new tables.
  have hturns := VersionSet.logAndApply_turns h.wf.levels hfits
  have hgains : vs.current.Gains tables news (vs.logAndApply edit).current tables' := by
    refine ⟨fun l g => ?_, hsame, htab⟩
    rw [hturns l g, hmem l g, hdel]
    simp
  refine ⟨hfits, h.logAndApply hfits (fun l g hg => hsame g ⟨l, hg⟩) (fun l g hg => ?_) ?_ ?_,
    hgains⟩
  · obtain ⟨n, hn, -, rfl⟩ := (hmem l g).mp hg
    rw [htab n hn]
    exact hacc.holds n hn
  · intro l g hl hg x hx hne
    obtain ⟨n, hn, rfl, rfl⟩ := (hmem l g).mp hg
    rcases (hgains.mem_iff _ x).mp hx with hx | ⟨m, hm, hml, rfl⟩
    · rcases not_and_or.mp ((hacc.meets n hn hl).1 x hx) with hm | hm
      · exact Or.inl (InternalKey.lt_of_userKey_lt (not_le.mp hm))
      · exact Or.inr (InternalKey.lt_of_userKey_lt (not_le.mp hm))
    · exact absurd (by rw [(hacc.meets n hn hl).2 m hm hml]) hne
  · intro l g hg l' x hx e he e' he' hseq
    obtain ⟨n, hn, rfl, rfl⟩ := (hmem l g).mp hg
    rw [htab n hn] at he
    rcases (hgains.mem_iff l' x).mp hx with hx | ⟨m, hm, rfl, rfl⟩
    · rw [hsame x ⟨l', hx⟩] at he'
      exact absurd hseq
        (vs.current.not_stored_of_newer hacc.old hx he' (hacc.newer n hn e he))
    · rw [htab m hm] at he'
      obtain ⟨rfl, rfl⟩ := hacc.distinct n hn m hm e he e' he' hseq
      exact ⟨rfl, rfl, rfl⟩

/-- The files that an edit with new tables adds to a manifest. -/
theorem Version.AcceptsTables.addsTo {v : Version K} {tables : Tables K V} {bound : ℕ}
    {news : List (NewTable K V)} (h : v.AcceptsTables tables bound news) {edit : VersionEdit K}
    (hnew : edit.newFiles = news.map fun n => (n.level, n.file)) {known : Set (FileMetaData K)}
    {nextFile nextFileNumber : ℕ} (hknown : ∀ f ∈ known, f.number < nextFile)
    (hge : ∀ n ∈ news, nextFile ≤ n.file.number)
    (hlt : ∀ n ∈ news, n.file.number < nextFileNumber) : edit.AddsTo known nextFileNumber := by
  have hmem : ∀ l g, (l, g) ∈ edit.newFiles → ∃ n ∈ news, n.file = g := by
    intro l g hg
    rw [hnew] at hg
    obtain ⟨n, hn, heq⟩ := List.mem_map.mp hg
    exact ⟨n, hn, congrArg Prod.snd heq⟩
  refine ⟨fun l g hg => Or.inr fun f hf => ?_, ?_, fun l g hg => ?_⟩
  · obtain ⟨n, hn, rfl⟩ := hmem l g hg
    exact ((hknown f hf).trans_le (hge n hn)).ne
  · rintro f ⟨l, hf⟩ g ⟨l', hg⟩ heq
    obtain ⟨n, hn, rfl⟩ := hmem l f hf
    obtain ⟨m, hm, rfl⟩ := hmem l' g hg
    rw [h.eq_of_number hn hm heq]
  · obtain ⟨n, hn, rfl⟩ := hmem l g hg
    exact hlt n hn

end LevelDb
