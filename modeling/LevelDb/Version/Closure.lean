import LevelDb.Version.Inputs
import LevelDb.Version.Tables

/-!
# When compaction inputs are closed

Moving files to the next level is only safe when no older entry of their user keys stays behind.
Both selections of `PickCompaction` can leave such entries: at level 0 the searched range is fixed
before files that stick out of it are added, and at the other levels neighbouring files may share
the user key at their boundary. `level0_closed_iff` and `splitsNoUserKey_iff` say exactly when each
selection is closed, in terms of the version and the range that is searched. Which range that is, and when
it is a grown one, is said over the files of the version in `Version/Growth`.
-/

namespace LevelDb

variable {K V : Type} [LinearOrder K]

/-! ## Level 0 -/

/-- The user-key range in which the inputs of a level-0 compaction are searched last, for a first
search of `[lo, hi]`: that range itself, or the range of both levels' first inputs when the inputs
are grown. -/
def Version.searchedRange (v : Version K) (lo hi : InternalKey K) : K × K :=
  let inputs0 := v.getOverlappingInputs 0 lo hi
  match getRange inputs0 with
  | none => (lo.userKey, hi.userKey)
  | some (smallest, largest) =>
    match v.growInputs 0 inputs0 (v.getOverlappingInputs 1 smallest largest) with
    | some ((allStart, allLimit), _) => (allStart.userKey, allLimit.userKey)
    | none => (lo.userKey, hi.userKey)

/-- No level-0 file that stays out of the inputs is older than an input that it overlaps. -/
def Compaction.ClosedUnderOlder (c : Compaction K) (v : Version K) : Prop :=
  ∀ f ∈ c.inputs0, ∀ g ∈ v.files 0, g ∉ c.inputs0 → g.number < f.number → ¬ g.Overlaps f

/-- No file that reaches into `[lo, hi]` sticks out of it as far as an older file that lies wholly
outside. -/
def OlderOutOfReach (files : List (FileMetaData K)) (range : K × K) : Prop :=
  ∀ f ∈ files, f.Meets range.1 range.2 → ∀ g ∈ files, g.number < f.number →
    ¬ (range.2 < g.smallest.userKey ∧ g.smallest.userKey ≤ f.largest.userKey) ∧
    ¬ (g.largest.userKey < range.1 ∧ f.smallest.userKey ≤ g.largest.userKey)

/-- The level-0 inputs are the files that meet the range searched last. -/
theorem mem_inputs0_iff_meets {v : Version K} {lo hi : InternalKey K} {c : Compaction K}
    (h : v.setupOtherInputs 0 (v.getOverlappingInputs 0 lo hi) = some c) (f : FileMetaData K) :
    f ∈ c.inputs0 ↔
      f ∈ v.files 0 ∧ f.Meets (v.searchedRange lo hi).1 (v.searchedRange lo hi).2 := by
  obtain ⟨smallest, largest, hr, -, -, hfin, -⟩ := Version.setupOtherInputs_eq_some h
  have h0 : c.inputs0 = (v.finalInputs 0 (v.getOverlappingInputs 0 lo hi) smallest largest).1 :=
    congrArg Prod.fst hfin
  rw [h0, Version.finalInputs, Version.searchedRange, hr]
  dsimp only
  cases hg : v.growInputs 0 (v.getOverlappingInputs 0 lo hi)
    (v.getOverlappingInputs (0 + 1) smallest largest) with
  | none => simp
  | some r =>
    obtain ⟨⟨allStart, allLimit⟩, exp0, exp1⟩ := r
    obtain ⟨-, rfl, -⟩ := Version.growInputs_eq_some hg
    simp

/-- A level-0 selection is closed under older overlapping files exactly when no older file outside
the searched range is reached by a file inside it. -/
theorem closedUnderOlder_iff {v : Version K} (hr : Ranged (v.files 0)) {lo hi : InternalKey K}
    {c : Compaction K} (h : v.setupOtherInputs 0 (v.getOverlappingInputs 0 lo hi) = some c) :
    c.ClosedUnderOlder v ↔ OlderOutOfReach (v.files 0) (v.searchedRange lo hi) := by
  have hmem := mem_inputs0_iff_meets h
  generalize v.searchedRange lo hi = range at hmem ⊢
  constructor
  · intro hc f hf hm g hg hlt
    have hfr := hr.userKey_le hf
    have hgr := hr.userKey_le hg
    refine ⟨fun ⟨hout, hreach⟩ => ?_, fun ⟨hout, hreach⟩ => ?_⟩
    · -- `g` starts after the range and `f` reaches it.
      have hg' : g ∉ c.inputs0 := fun hin => absurd ((hmem g).1 hin).2.1 (not_le.mpr hout)
      exact hc f ((hmem f).2 ⟨hf, hm⟩) g hg hg' hlt ⟨hreach, hm.1.trans (hout.le.trans hgr)⟩
    · -- `g` ends before the range and `f` reaches it.
      have hg' : g ∉ c.inputs0 := fun hin => absurd ((hmem g).1 hin).2.2 (not_le.mpr hout)
      exact hc f ((hmem f).2 ⟨hf, hm⟩) g hg hg' hlt ⟨hgr.trans (hout.le.trans hm.2), hreach⟩
  · intro hc f hf g hg hg' hlt ho
    obtain ⟨hf0, hm⟩ := (hmem f).1 hf
    obtain ⟨h1, h2⟩ := hc f hf0 hm g hg hlt
    have hnot : ¬ g.Meets range.1 range.2 := fun hm' => hg' ((hmem g).2 ⟨hg, hm'⟩)
    rcases not_and_or.mp hnot with hn | hn
    · exact h1 ⟨not_le.mp hn, ho.1⟩
    · exact h2 ⟨not_le.mp hn, ho.2⟩

/-- Level-0 inputs, for a compaction picked by score or by seeks and for one of a given range: they
are closed under overlap with older files exactly when no older file outside the searched range is
reached by a file inside it. The first search is over the picked file's own range, or over the
given range. -/
theorem level0_closed_iff (vs : VersionSet K) (hr : Ranged (vs.current.files 0)) :
    (∀ c vs', vs.pickCompaction = some (c, vs') → c.level = 0 → ∀ f, vs.pickFile = some (0, f) →
      (c.ClosedUnderOlder vs.current ↔
        OlderOutOfReach (vs.current.files 0) (vs.current.searchedRange f.smallest f.largest))) ∧
    (∀ lo hi c vs', vs.compactRange 0 lo hi = some (c, vs') →
      (c.ClosedUnderOlder vs.current ↔
        OlderOutOfReach (vs.current.files 0) (vs.current.searchedRange lo hi))) := by
  constructor
  · intro c vs' h hlevel f hf
    obtain ⟨f', hf', hset, -⟩ := VersionSet.pickCompaction_eq_some h
    rw [hlevel] at hf' hset
    obtain rfl : f' = f := by simpa [hf] using hf'.symm
    rw [if_pos rfl] at hset
    exact closedUnderOlder_iff hr hset
  · intro lo hi c vs' h
    exact closedUnderOlder_iff hr (VersionSet.compactRange_eq_some h).1

/-- Three level-0 files in a chain: the newest, `a..d`, is picked by its seeks; it overlaps `c..f`,
which overlaps the oldest, `e..g`. -/
def chainOfThree : VersionSet Slice :=
  { current :=
      { files := fun level =>
          if level = 0 then
            [exampleFile 5 [97] 7 [100] 8, exampleFile 4 [99] 5 [102] 6,
              exampleFile 3 [101] 1 [103] 2]
          else []
        fileToCompact := some (exampleFile 5 [97] 7 [100] 8, 0)
        compactionScore := 3 / 4
        compactionLevel := 0 } }

/-- What `PickCompaction` selects from the chain: the oldest file stays out. -/
theorem chainOfThree_pick :
    (chainOfThree.pickCompaction.map fun p => (p.1.level, p.1.inputs0)) =
      some (0, [exampleFile 5 [97] 7 [100] 8, exampleFile 4 [99] 5 [102] 6]) := by
  decide +kernel

/-- The files of the chain have ranges. -/
theorem chainOfThree_ranged : Ranged (chainOfThree.current.files 0) := by
  unfold Ranged
  decide

/-- The chain, through the exact condition: a file inside `a..d` reaches the older one outside. -/
theorem level0_closed_iff_chainOfThree :
    Ranged (chainOfThree.current.files 0) ∧
      ∀ c vs', chainOfThree.pickCompaction = some (c, vs') →
        (c.ClosedUnderOlder chainOfThree.current ↔
          OlderOutOfReach (chainOfThree.current.files 0) ([97], [100])) := by
  refine ⟨chainOfThree_ranged, fun c vs' h => ?_⟩
  have hp := chainOfThree_pick
  rw [h, Option.map_some, Option.some.injEq, Prod.mk.injEq] at hp
  exact (level0_closed_iff chainOfThree chainOfThree_ranged).1 c vs' h hp.1
    (exampleFile 5 [97] 7 [100] 8) (by decide +kernel)

/-- The compaction of the chain moves `c..f` to level 1 underneath the older `e..g`. -/
theorem chainOfThree_not_closed :
    ∃ c vs', chainOfThree.pickCompaction = some (c, vs') ∧ c.level = 0 ∧
      ¬ c.ClosedUnderOlder chainOfThree.current := by
  obtain ⟨⟨c, vs'⟩, hpick, hc⟩ := Option.map_eq_some_iff.mp chainOfThree_pick
  obtain ⟨hlevel, hin⟩ := Prod.mk.inj hc
  refine ⟨c, vs', hpick, hlevel, fun h => ?_⟩
  have hf : exampleFile 4 [99] 5 [102] 6 ∈ c.inputs0 := by
    rw [hin]
    decide
  have hg : exampleFile 3 [101] 1 [103] 2 ∉ c.inputs0 := by
    rw [hin]
    decide
  exact h _ hf (exampleFile 3 [101] 1 [103] 2) (by decide) hg (by decide) (by decide)

/-! ## Levels above 0 -/

/-- No file outside the inputs of its level has a user key in common with an input of that level. -/
def Compaction.SplitsNoUserKey (c : Compaction K) (v : Version K) (tables : Tables K V) : Prop :=
  (∀ g ∈ v.files c.level, g ∉ c.inputs0 → ∀ f ∈ c.inputs0,
    ¬ ∃ k, OccursIn tables k f ∧ OccursIn tables k g) ∧
  (∀ g ∈ v.files (c.level + 1), g ∉ c.inputs1 → ∀ f ∈ c.inputs1,
    ¬ ∃ k, OccursIn tables k f ∧ OccursIn tables k g)

/-- A range cuts a level between two user keys: no file that reaches into `[lo, hi]` shares the user
key of its end with a file that lies wholly outside. -/
def CutsBetweenKeys (files : List (FileMetaData K)) (lo hi : K) : Prop :=
  ∀ f ∈ files, f.Meets lo hi → ∀ g ∈ files,
    ¬ (hi < g.smallest.userKey ∧ f.largest.userKey = g.smallest.userKey) ∧
    ¬ (g.largest.userKey < lo ∧ g.largest.userKey = f.smallest.userKey)

/-- The exact condition on the version and the picked file `f` of a level above 0. If the inputs are
not grown, no other file of the level overlaps `f`, and the range of `f` cuts the next level between
user keys. If they are grown, the range that is searched again cuts the level between user keys,
and the range of the files in it does so for the next level. -/
def Version.PickCutsBetweenKeys (v : Version K) (level : ℕ) (f : FileMetaData K) : Prop :=
  match v.growInputs level [f] (v.getOverlappingInputs (level + 1) f.smallest f.largest) with
  | none =>
    (∀ g ∈ v.files level, g ≠ f → ¬ g.Overlaps f) ∧
      CutsBetweenKeys (v.files (level + 1)) f.smallest.userKey f.largest.userKey
  | some ((allStart, allLimit), expanded0, _) =>
    CutsBetweenKeys (v.files level) allStart.userKey allLimit.userKey ∧
      ∀ newStart newLimit, getRange expanded0 = some (newStart, newLimit) →
        CutsBetweenKeys (v.files (level + 1)) newStart.userKey newLimit.userKey

/-- Of two different files of a disjoint level, one comes entirely before the other. -/
theorem DisjointSorted.lt_or_lt {files : List (FileMetaData K)} (hd : DisjointSorted files)
    {f g : FileMetaData K} (hf : f ∈ files) (hg : g ∈ files) (hne : f ≠ g) :
    f.largest < g.smallest ∨ g.largest < f.smallest :=
  (Lib.eq_or_rel_of_pairwise hd hf hg).resolve_left hne

/-- The files of a disjoint level that meet a range share no user key with the others exactly when
the range cuts the level between user keys. -/
theorem no_shared_key_iff_cutsBetweenKeys {tables : Tables K V} {files : List (FileMetaData K)}
    (hd : DisjointSorted files) (ht : ∀ f ∈ files, f.Holds (tables f.number)) {lo hi : K} :
    (∀ g ∈ files, ¬ g.Meets lo hi → ∀ f ∈ files, f.Meets lo hi →
      ¬ ∃ k, OccursIn tables k f ∧ OccursIn tables k g) ↔ CutsBetweenKeys files lo hi := by
  have hr : Ranged files := fun f hf => (ht f hf).smallest_le_largest
  -- On which side of a file inside the range a file outside it lies.
  have hafter : ∀ {f g}, f ∈ files → g ∈ files → f.Meets lo hi → hi < g.smallest.userKey →
      f.largest < g.smallest := by
    intro f g hf hg hm hout
    have hne : f ≠ g := fun h => absurd (h ▸ hm.1) (not_le.mpr hout)
    refine (hd.lt_or_lt hf hg hne).resolve_right fun h => ?_
    have := (hr.userKey_le hg).trans (InternalKey.userKey_le h.le)
    exact absurd (this.trans hm.1) (not_le.mpr hout)
  have hbefore : ∀ {f g}, f ∈ files → g ∈ files → f.Meets lo hi → g.largest.userKey < lo →
      g.largest < f.smallest := by
    intro f g hf hg hm hout
    have hne : f ≠ g := fun h => absurd (h ▸ hm.2) (not_le.mpr hout)
    refine (hd.lt_or_lt hf hg hne).resolve_left fun h => ?_
    have := (InternalKey.userKey_le h.le).trans (hr.userKey_le hg)
    exact absurd (hm.2.trans this) (not_le.mpr hout)
  constructor
  · intro h f hf hm g hg
    refine ⟨fun ⟨hout, heq⟩ => ?_, fun ⟨hout, heq⟩ => ?_⟩
    · have hlt := hafter hf hg hm hout
      exact h g hg (fun hm' => absurd hm'.1 (not_le.mpr hout)) f hf hm
        ((shares_userKey_iff (ht f hf) (ht g hg) hlt).2 heq)
    · have hlt := hbefore hf hg hm hout
      obtain ⟨k, h1, h2⟩ := (shares_userKey_iff (ht g hg) (ht f hf) hlt).2 heq
      exact h g hg (fun hm' => absurd hm'.2 (not_le.mpr hout)) f hf hm ⟨k, h2, h1⟩
  · rintro h g hg hg' f hf hm ⟨k, h1, h2⟩
    obtain ⟨c1, c2⟩ := h f hf hm g hg
    rcases not_and_or.mp hg' with hn | hn
    · have hlt := hafter hf hg hm (not_le.mp hn)
      exact c1 ⟨not_le.mp hn, (shares_userKey_iff (ht f hf) (ht g hg) hlt).1 ⟨k, h1, h2⟩⟩
    · have hlt := hbefore hf hg hm (not_le.mp hn)
      exact c2 ⟨not_le.mp hn, (shares_userKey_iff (ht g hg) (ht f hf) hlt).1 ⟨k, h2, h1⟩⟩

/-- One file of a disjoint level shares no user key with the others exactly when none of them
overlaps its user-key range. -/
theorem no_shared_key_iff_not_overlaps {tables : Tables K V} {files : List (FileMetaData K)}
    (hd : DisjointSorted files) (ht : ∀ f ∈ files, f.Holds (tables f.number)) {f : FileMetaData K}
    (hf : f ∈ files) :
    (∀ g ∈ files, g ≠ f → ¬ ∃ k, OccursIn tables k f ∧ OccursIn tables k g) ↔
      ∀ g ∈ files, g ≠ f → ¬ g.Overlaps f := by
  have hr : Ranged files := fun f hf => (ht f hf).smallest_le_largest
  refine forall₃_congr fun g hg hne => not_congr ?_
  rcases hd.lt_or_lt hf hg (Ne.symm hne) with hlt | hlt
  · rw [shares_userKey_iff (ht f hf) (ht g hg) hlt]
    have hle := InternalKey.userKey_le hlt.le
    exact ⟨fun h => ⟨h.ge, (hr.userKey_le hf).trans (hle.trans (hr.userKey_le hg))⟩,
      fun h => le_antisymm hle h.1⟩
  · have hle := InternalKey.userKey_le hlt.le
    have hshare := shares_userKey_iff (ht g hg) (ht f hf) hlt
    constructor
    · rintro ⟨k, h1, h2⟩
      have := hshare.1 ⟨k, h2, h1⟩
      exact ⟨(hr.userKey_le hg).trans (hle.trans (hr.userKey_le hf)), this.ge⟩
    · intro h
      obtain ⟨k, h1, h2⟩ := hshare.2 (le_antisymm hle h.2)
      exact ⟨k, h2, h1⟩

/-- The inputs of a compaction above level 0, told by membership: not grown, they are the picked file
and the files below it; grown, they are the files in the searched range and the files below
those. -/
theorem splitsNoUserKey_iff_pickCutsBetweenKeys {v : Version K} (wf : v.WellFormed)
    {tables : Tables K V} (ht : v.HasTables tables) {level : ℕ} (hlevel : 1 ≤ level)
    {f : FileMetaData K} (hf : f ∈ v.files level) {c : Compaction K}
    (h : v.setupOtherInputs level [f] = some c) :
    c.SplitsNoUserKey v tables ↔ v.PickCutsBetweenKeys level f := by
  obtain ⟨smallest, largest, hr, rfl, -, hfin, -⟩ := Version.setupOtherInputs_eq_some h
  obtain ⟨rfl, rfl⟩ : f.smallest = smallest ∧ f.largest = largest := by simpa [getRange] using hr
  have hd0 := wf.disjoint c.level hlevel
  have hd1 := wf.disjoint (c.level + 1) (by omega)
  have hin0 := congrArg Prod.fst hfin
  have hin1 := congrArg Prod.snd hfin
  unfold Compaction.SplitsNoUserKey Version.PickCutsBetweenKeys
  -- A selection by a range, in the form of the general lemma.
  have hrange : ∀ {l : ℕ} {lo hi : InternalKey K} {inputs : List (FileMetaData K)}, 1 ≤ l →
      inputs = v.getOverlappingInputs l lo hi →
      ((∀ g ∈ v.files l, g ∉ inputs → ∀ f ∈ inputs,
        ¬ ∃ k, OccursIn tables k f ∧ OccursIn tables k g) ↔
        CutsBetweenKeys (v.files l) lo.userKey hi.userKey) := by
    rintro l lo hi _ hl rfl
    rw [← no_shared_key_iff_cutsBetweenKeys (wf.disjoint l hl) (ht l)]
    simp only [Version.mem_getOverlappingInputs, not_and]
    exact ⟨fun h g hg hm f hf hm' => h g hg (fun _ => hm) f ⟨hf, hm'⟩,
      fun h g hg hm f hf => h g hg (hm hg) f hf.1 hf.2⟩
  simp only [Version.finalInputs] at hin0 hin1
  cases hg : v.growInputs c.level [f]
      (v.getOverlappingInputs (c.level + 1) f.smallest f.largest) with
  | none =>
    simp only [hg] at hin0 hin1
    rw [hrange (by omega) hin1, hin0]
    refine and_congr ?_ Iff.rfl
    rw [← no_shared_key_iff_not_overlaps hd0 (ht c.level) hf]
    simp only [List.mem_singleton, forall_eq]
  | some r =>
    obtain ⟨⟨allStart, allLimit⟩, exp0, exp1⟩ := r
    simp only [hg] at hin0 hin1
    obtain ⟨-, hexp0, newStart, newLimit, hrange0, hexp1⟩ := Version.growInputs_eq_some hg
    rw [hrange hlevel (hin0.trans hexp0), hrange (by omega) (hin1.trans hexp1)]
    refine and_congr Iff.rfl ?_
    rw [hrange0]
    simp only [Option.some.injEq, Prod.mk.injEq]
    exact ⟨fun h _ _ e => e.1 ▸ e.2 ▸ h, fun h => h newStart newLimit ⟨rfl, rfl⟩⟩

/-- Above level 0, the inputs that `PickCompaction` chooses split no user key exactly when the
ranges that it searches cut the two levels between user keys. -/
theorem splitsNoUserKey_iff (vs : VersionSet K) (wf : vs.current.WellFormed) (tables : Tables K V)
    (ht : vs.current.HasTables tables) (c : Compaction K) (vs' : VersionSet K)
    (h : vs.pickCompaction = some (c, vs')) (hlevel : 1 ≤ c.level) (f : FileMetaData K)
    (hf : vs.pickFile = some (c.level, f)) :
    c.SplitsNoUserKey vs.current tables ↔ vs.current.PickCutsBetweenKeys c.level f := by
  obtain ⟨f', hf', hset, -⟩ := VersionSet.pickCompaction_eq_some h
  obtain rfl : f' = f := by simpa [hf] using hf'.symm
  rw [if_neg (by omega)] at hset
  exact splitsNoUserKey_iff_pickCutsBetweenKeys wf ht hlevel (vs.pickFile_mem wf hf) hset

/-- Level 1 with two files that share the user key `k` at their boundary: `a..k@5` and `k@3..m`. The
first was picked by its seeks. -/
def sharedBoundary : VersionSet Slice :=
  { current :=
      { files := fun level =>
          if level = 1 then [exampleFile 7 [97] 1 [107] 5, exampleFile 8 [107] 3 [109] 2] else []
        fileToCompact := some (exampleFile 7 [97] 1 [107] 5, 1)
        compactionScore := 0
        compactionLevel := 0 } }

/-- The tables of `sharedBoundary`; values are empty. -/
def sharedBoundaryTables : Tables Slice Slice := fun number =>
  if number = 7 then [⟨.pack [97] 1 .value, []⟩, ⟨.pack [107] 5 .value, []⟩]
  else [⟨.pack [107] 3 .value, []⟩, ⟨.pack [109] 2 .value, []⟩]

/-- The example is a well-formed version: its files of level 1 are sorted and disjoint as internal
keys. -/
theorem sharedBoundary_wellFormed : sharedBoundary.current.WellFormed where
  levels level h := by
    have : level ≠ 1 := by
      unfold kNumLevels at h
      omega
    simp [sharedBoundary, this]
  ranged level := by
    by_cases h : level = 1
    · subst h
      unfold Ranged
      decide
    · simp [sharedBoundary, h, Ranged]
  sorted := by simp [sharedBoundary, SmallestSorted]
  disjoint level h := by
    by_cases h : level = 1
    · subst h
      unfold DisjointSorted
      decide
    · simp [sharedBoundary, h, DisjointSorted]
  toCompact f level h := by
    obtain ⟨rfl, rfl⟩ : exampleFile 7 [97] 1 [107] 5 = f ∧ 1 = level := by
      simpa [sharedBoundary] using h
    decide

/-- The tables of `sharedBoundary` are those that its files name. -/
theorem sharedBoundary_hasTables : sharedBoundary.current.HasTables sharedBoundaryTables := by
  intro level f hf
  by_cases h : level = 1
  · subst h
    have hf' : f = exampleFile 7 [97] 1 [107] 5 ∨ f = exampleFile 8 [107] 3 [109] 2 := by
      simpa [sharedBoundary] using hf
    rcases hf' with rfl | rfl
    · exact ⟨by unfold KeySorted; decide, by decide, by decide⟩
    · exact ⟨by unfold KeySorted; decide, by decide, by decide⟩
  · simp [sharedBoundary, h] at hf

/-- What `PickCompaction` selects from `sharedBoundary`: the first file alone. -/
theorem sharedBoundary_pick :
    (sharedBoundary.pickCompaction.map fun p => (p.1.level, p.1.inputs0)) =
      some (1, [exampleFile 7 [97] 1 [107] 5]) := by
  decide

/-- The condition and the property, both of them false, at `sharedBoundary`, where a pick cuts through
the user key `k`. -/
theorem splitsNoUserKey_iff_sharedBoundary :
    sharedBoundary.current.WellFormed ∧ sharedBoundary.current.HasTables sharedBoundaryTables ∧
      ∃ c vs', sharedBoundary.pickCompaction = some (c, vs') ∧ 1 ≤ c.level ∧
        (c.SplitsNoUserKey sharedBoundary.current sharedBoundaryTables ↔
          sharedBoundary.current.PickCutsBetweenKeys c.level (exampleFile 7 [97] 1 [107] 5)) := by
  refine ⟨sharedBoundary_wellFormed, sharedBoundary_hasTables, ?_⟩
  obtain ⟨⟨c, vs'⟩, hpick, hc⟩ := Option.map_eq_some_iff.mp sharedBoundary_pick
  obtain ⟨hlevel, -⟩ := Prod.mk.inj hc
  have hlevel' : c.level = 1 := hlevel
  refine ⟨c, vs', hpick, by omega, splitsNoUserKey_iff sharedBoundary sharedBoundary_wellFormed
    sharedBoundaryTables sharedBoundary_hasTables c vs' hpick (by omega)
    (exampleFile 7 [97] 1 [107] 5) ?_⟩
  rw [hlevel']
  decide

/-- The compaction of `sharedBoundary` takes the newer entry of `k` and leaves the older one. -/
theorem sharedBoundary_splits :
    sharedBoundary.current.WellFormed ∧ sharedBoundary.current.HasTables sharedBoundaryTables ∧
      ∃ c vs', sharedBoundary.pickCompaction = some (c, vs') ∧ 1 ≤ c.level ∧
        ¬ c.SplitsNoUserKey sharedBoundary.current sharedBoundaryTables := by
  refine ⟨sharedBoundary_wellFormed, sharedBoundary_hasTables, ?_⟩
  obtain ⟨⟨c, vs'⟩, hpick, hc⟩ := Option.map_eq_some_iff.mp sharedBoundary_pick
  obtain ⟨hlevel, hin⟩ := Prod.mk.inj hc
  have hlevel' : c.level = 1 := hlevel
  refine ⟨c, vs', hpick, by omega, fun h => ?_⟩
  have hf : exampleFile 7 [97] 1 [107] 5 ∈ c.inputs0 := by
    rw [hin]
    decide
  have hg : exampleFile 8 [107] 3 [109] 2 ∉ c.inputs0 := by
    rw [hin]
    decide
  have hg' : exampleFile 8 [107] 3 [109] 2 ∈ sharedBoundary.current.files c.level := by
    rw [hlevel']
    decide
  exact h.1 _ hg' hg _ hf ⟨[107], ⟨⟨.pack [107] 5 .value, []⟩, by decide, rfl⟩,
    ⟨.pack [107] 3 .value, []⟩, by decide, rfl⟩

end LevelDb
