import LevelDb.Version.Inputs
import Mathlib.Order.Bounds.Basic
import Mathlib.Order.Interval.Set.Basic

/-!
# Completeness of the selected inputs

`VersionSet::SetupOtherInputs` completes a first selection of files. What it has to achieve is said
here in sets of user keys: the hull of a list of files, and the files of a level whose range meets
it. Whatever the first selection is, the files of the next level and of the one after it are exactly
those that meet the hull of the files above them, although the code computes its hulls by internal
key and decides by comparing two lengths whether a larger selection adds a file of the next level.
-/

namespace LevelDb

variable {K V : Type} [LinearOrder K]

/-! ## Hulls of user keys -/

/-- The user keys between the ends of the file. -/
def FileMetaData.userRange (f : FileMetaData K) : Set K :=
  Set.Icc f.smallest.userKey f.largest.userKey

/-- The user-key hull of a list of files: what lies between the smallest key of one of them and the
largest key of one of them. -/
def userHull (files : List (FileMetaData K)) : Set K :=
  {k | (∃ f ∈ files, f.smallest.userKey ≤ k) ∧ ∃ f ∈ files, k ≤ f.largest.userKey}

/-- `GetRange` orders by internal key, and yields the hull of user keys. -/
theorem userHull_eq_Icc {files : List (FileMetaData K)} {lo hi : InternalKey K}
    (h : getRange files = some (lo, hi)) : userHull files = Set.Icc lo.userKey hi.userKey := by
  obtain ⟨hcover, ⟨f, hf, hlo⟩, g, hg, hhi⟩ := getRange_spec h
  ext k
  constructor
  · rintro ⟨⟨f', hf', hle⟩, g', hg', hge⟩
    have hlo' : lo.userKey ≤ f'.smallest.userKey := InternalKey.userKey_le (hcover f' hf').1
    have hhi' : g'.largest.userKey ≤ hi.userKey := InternalKey.userKey_le (hcover g' hg').2
    exact ⟨hlo'.trans hle, hge.trans hhi'⟩
  · rintro ⟨hle, hge⟩
    exact ⟨⟨f, hf, hlo ▸ hle⟩, g, hg, hhi ▸ hge⟩

/-- Two ranges that are not empty meet iff neither is before the other. -/
theorem FileMetaData.meets_iff {f : FileMetaData K} {lo hi : K}
    (hf : f.smallest.userKey ≤ f.largest.userKey) (h : lo ≤ hi) :
    f.Meets lo hi ↔ (f.userRange ∩ Set.Icc lo hi).Nonempty := by
  rw [userRange, Set.Icc_inter_Icc, Set.nonempty_Icc, sup_le_iff, le_inf_iff, le_inf_iff]
  constructor
  · rintro ⟨hle, hge⟩
    exact ⟨⟨hf, hle⟩, hge, h⟩
  · rintro ⟨⟨-, hle⟩, hge, -⟩
    exact ⟨hle, hge⟩

/-- The files of a level whose user-key range meets a set of user keys. -/
def Version.MeetingFiles (v : Version K) (level : ℕ) (s : Set K) : Set (FileMetaData K) :=
  {f | f ∈ v.files level ∧ (f.userRange ∩ s).Nonempty}

/-- The range of files with ranges is not empty. -/
theorem Ranged.getRange_le {files : List (FileMetaData K)} (hr : Ranged files)
    {lo hi : InternalKey K} (h : getRange files = some (lo, hi)) : lo.userKey ≤ hi.userKey := by
  obtain ⟨hcover, ⟨f, hf, rfl⟩, -⟩ := getRange_spec h
  exact InternalKey.userKey_le ((hr f hf).trans (hcover f hf).2)

/-- `GetOverlappingInputs` on the range of some files finds the files of a level that meet their
hull. -/
theorem Version.Leveled.mem_overlapping_iff {v : Version K} (wf : v.Leveled)
    {files : List (FileMetaData K)} (hr : Ranged files) {lo hi : InternalKey K}
    (h : getRange files = some (lo, hi)) {level : ℕ} {f : FileMetaData K} :
    f ∈ v.getOverlappingInputs level lo hi ↔ f ∈ v.MeetingFiles level (userHull files) := by
  rw [mem_getOverlappingInputs, userHull_eq_Icc h]
  refine and_congr_right fun hf => ?_
  exact FileMetaData.meets_iff ((wf.ranged level).userKey_le hf) (hr.getRange_le h)

/-- A wider range selects more files, in the same order. -/
theorem Version.getOverlappingInputs_sublist (v : Version K) (level : ℕ)
    {lo hi lo' hi' : InternalKey K} (hlo : lo' ≤ lo) (hhi : hi ≤ hi') :
    (v.getOverlappingInputs level lo hi).Sublist (v.getOverlappingInputs level lo' hi') := by
  apply List.monotone_filter_right
  intro f hf
  simp only [Bool.not_eq_true', Bool.or_eq_false_iff, decide_eq_false_iff_not, not_lt] at hf ⊢
  exact ⟨(InternalKey.userKey_le hlo).trans hf.1, hf.2.trans (InternalKey.userKey_le hhi)⟩

/-- The range of a larger list of files is wider. -/
theorem getRange_mono {files files' : List (FileMetaData K)} {lo hi lo' hi' : InternalKey K}
    (h : getRange files = some (lo, hi)) (h' : getRange files' = some (lo', hi'))
    (hsub : ∀ f ∈ files, f ∈ files') : lo' ≤ lo ∧ hi ≤ hi' := by
  obtain ⟨-, ⟨f, hf, rfl⟩, g, hg, rfl⟩ := getRange_spec h
  obtain ⟨hcover, -, -⟩ := getRange_spec h'
  exact ⟨(hcover f (hsub f hf)).1, (hcover g (hsub g hg)).2⟩

/-! ## Growing the inputs -/

/-- When growing succeeds, it has compared lengths only. The files of the next level are the same
before and after, since the later ones contain the earlier ones. -/
theorem Version.Leveled.growInputs_spec {v : Version K} (wf : v.Leveled) {level : ℕ}
    {inputs0 exp0 exp1 : List (FileMetaData K)} {smallest largest : InternalKey K}
    {range : InternalKey K × InternalKey K} (hin : ∀ f ∈ inputs0, f ∈ v.files level)
    (hr : getRange inputs0 = some (smallest, largest))
    (h : v.growInputs level inputs0 (v.getOverlappingInputs (level + 1) smallest largest) =
      some (range, exp0, exp1)) :
    (∀ f ∈ inputs0, f ∈ exp0) ∧ (∀ f ∈ exp0, f ∈ v.files level) ∧
      exp1 = v.getOverlappingInputs (level + 1) smallest largest ∧
      ∃ lo hi, getRange exp0 = some (lo, hi) ∧
        exp1 = v.getOverlappingInputs (level + 1) lo hi := by
  obtain ⟨start, limit⟩ := range
  have hlen : exp1.length = (v.getOverlappingInputs (level + 1) smallest largest).length := by
    unfold growInputs at h
    split_ifs at h
    split at h
    · simp at h
    · dsimp only at h
      split_ifs at h
      split at h
      · simp at h
      · split_ifs at h with heq
        simp only [Option.some.injEq, Prod.mk.injEq] at h
        rw [← h.2.2, heq]
  obtain ⟨hall, rfl, lo, hi, hexp, rfl⟩ := growInputs_eq_some h
  have hgrow : ∀ f ∈ inputs0, f ∈ v.getOverlappingInputs level start limit := by
    intro f hf
    have hcover := (getRange_spec hall).1 f (List.mem_append_left _ hf)
    have hle := wf.ranged level f (hin f hf)
    rw [mem_getOverlappingInputs]
    exact ⟨hin f hf, InternalKey.userKey_le (hle.trans hcover.2),
      InternalKey.userKey_le (hcover.1.trans hle)⟩
  obtain ⟨hlo, hhi⟩ := getRange_mono hr hexp hgrow
  refine ⟨hgrow, fun f hf => (mem_getOverlappingInputs.mp hf).1, ?_, lo, hi, hexp, rfl⟩
  exact ((v.getOverlappingInputs_sublist (level + 1) hlo hhi).eq_of_length hlen.symm).symm

/-- The inputs with which `SetupOtherInputs` ends have the first selection among them, are files of the
level, and come with the files of the next level in the range of the first selection. -/
theorem Version.Leveled.finalInputs_spec {v : Version K} (wf : v.Leveled) {level : ℕ}
    {inputs0 : List (FileMetaData K)} {smallest largest : InternalKey K}
    (hin : ∀ f ∈ inputs0, f ∈ v.files level) (hr : getRange inputs0 = some (smallest, largest)) :
    let inputs := v.finalInputs level inputs0 smallest largest
    (∀ f ∈ inputs0, f ∈ inputs.1) ∧ (∀ f ∈ inputs.1, f ∈ v.files level) ∧
      inputs.2 = v.getOverlappingInputs (level + 1) smallest largest ∧
      ∃ lo hi, getRange inputs.1 = some (lo, hi) ∧
        inputs.2 = v.getOverlappingInputs (level + 1) lo hi := by
  unfold finalInputs
  dsimp only
  split
  · rename_i range expanded h
    exact wf.growInputs_spec hin hr h
  · exact ⟨fun f hf => hf, hin, rfl, smallest, largest, hr, rfl⟩

/-! ## The result of `SetupOtherInputs` -/

/-- What `SetupOtherInputs` makes of a first selection `inputs0` of files of a level. -/
structure Compaction.Complete (c : Compaction K) (v : Version K) (level : ℕ)
    (inputs0 : List (FileMetaData K)) : Prop where
  /-- The compaction is one of the level, in the version. -/
  at_level : c.level = level ∧ c.inputVersion = v
  /-- `inputs_[0]` contains the first selection. -/
  initial : ∀ f ∈ inputs0, f ∈ c.inputs0
  /-- `inputs_[0]` has only files of the level. -/
  inputs0_mem : ∀ f ∈ c.inputs0, f ∈ v.files level
  /-- `inputs_[1]` is the set of files of the next level that meet the hull of `inputs_[0]`. -/
  inputs1_eq : {f | f ∈ c.inputs1} = v.MeetingFiles (level + 1) (userHull c.inputs0)
  /-- Growing `inputs_[0]` added no file of the next level. -/
  inputs1_initial : {f | f ∈ c.inputs1} = v.MeetingFiles (level + 1) (userHull inputs0)
  /-- `grandparents_` is the set of files two levels below that meet the hull of all inputs. -/
  grandparents_eq : {f | f ∈ c.grandparents} =
    v.MeetingFiles (level + 2) (userHull (c.inputs0 ++ c.inputs1))
  /-- The compaction pointer of the level, and no other, becomes the largest key of
  `inputs_[0]`. -/
  pointer : ∃ largest, IsGreatest {k | ∃ f ∈ c.inputs0, k = f.largest} largest ∧
    ∀ ptrs, applyCompactPointers ptrs c.edit = Function.update ptrs level (some largest)

/-- `SetupOtherInputs` picks complete inputs from every first selection that is not empty. -/
theorem Version.setupOtherInputs_complete {v : Version K} (wf : v.Leveled) {level : ℕ}
    {inputs0 : List (FileMetaData K)} (hne : inputs0 ≠ []) (hin : ∀ f ∈ inputs0, f ∈ v.files level) :
    ∃ c, v.setupOtherInputs level inputs0 = some c ∧ c.Complete v level inputs0 := by
  obtain ⟨⟨smallest, largest⟩, hr⟩ := Option.isSome_iff_exists.mp (getRange_isSome.mpr hne)
  obtain ⟨hinit, hmem, hfirst, lo, hi, hr0, hlast⟩ := wf.finalInputs_spec hin hr
  unfold setupOtherInputs
  rw [hr]
  dsimp only
  generalize hI : v.finalInputs level inputs0 smallest largest = inputs at *
  obtain ⟨files0, files1⟩ := inputs
  dsimp only at hinit hmem hfirst hr0 hlast ⊢
  have hne0 : files0 ++ files1 ≠ [] := by
    obtain ⟨f, hf⟩ := List.exists_mem_of_ne_nil _ hne
    exact List.ne_nil_of_mem (List.mem_append_left _ (hinit f hf))
  obtain ⟨⟨start, limit⟩, hall⟩ := Option.isSome_iff_exists.mp (getRange_isSome.mpr hne0)
  have hall' : getRange2 files0 files1 = some (start, limit) := hall
  rw [hr0, hall']
  -- all inputs are files of the version, so they have ranges
  have hranged : Ranged inputs0 := fun f hf => wf.ranged level f (hin f hf)
  have hranged0 : Ranged files0 := fun f hf => wf.ranged level f (hmem f hf)
  have hranged1 : Ranged files1 := by
    intro f hf
    rw [hfirst, mem_getOverlappingInputs] at hf
    exact wf.ranged (level + 1) f hf.1
  have hrangedAll : Ranged (files0 ++ files1) := by
    intro f hf
    rcases List.mem_append.mp hf with hf | hf
    · exact hranged0 f hf
    · exact hranged1 f hf
  refine ⟨_, rfl, ⟨⟨rfl, rfl⟩, hinit, hmem, ?_, ?_, ?_, hi, ?_, ?_⟩⟩
  · ext f
    show f ∈ files1 ↔ _
    rw [hlast]
    exact wf.mem_overlapping_iff hranged0 hr0
  · ext f
    show f ∈ files1 ↔ _
    rw [hfirst]
    exact wf.mem_overlapping_iff hranged hr
  · ext f
    show f ∈ (if level + 2 < kNumLevels then _ else []) ↔ _
    split_ifs with h
    · exact wf.mem_overlapping_iff hrangedAll hall
    · -- there is no level below the next one
      have hempty : v.files (level + 2) = [] := wf.levels _ (not_lt.mp h)
      simp [MeetingFiles, hempty]
  · obtain ⟨hcover, -, f, hf, rfl⟩ := getRange_spec hr0
    refine ⟨⟨f, hf, rfl⟩, ?_⟩
    rintro k ⟨g, hg, rfl⟩
    exact (hcover g hg).2
  · intro ptrs
    rfl

/-- Two files of level 1 around a wide file of level 2. -/
def wideParent : Version Slice where
  files level :=
    if level = 1 then [exampleFile 1 (ascii "b") 9 (ascii "c") 8,
      exampleFile 2 (ascii "e") 7 (ascii "f") 6]
    else if level = 2 then [exampleFile 3 (ascii "a") 5 (ascii "g") 4] else []

/-- The levels above 0 of the example are sorted and disjoint. -/
theorem wideParent_leveled : wideParent.Leveled where
  levels level h := by
    unfold kNumLevels at h
    exact (if_neg (by omega)).trans (if_neg (by omega))
  ranged level := by
    unfold wideParent Ranged
    dsimp only
    split_ifs
    · decide
    · decide
    · exact fun f hf => absurd hf List.not_mem_nil
  disjoint level _ := by
    unfold wideParent
    dsimp only
    split_ifs
    · decide
    · decide
    · exact List.Pairwise.nil

/-- A compaction that starts from the first file of level 1 of the example. -/
theorem Version.setupOtherInputs_complete_example :
    ([exampleFile 1 (ascii "b") 9 (ascii "c") 8] ≠ [] ∧
      ∀ f ∈ [exampleFile 1 (ascii "b") 9 (ascii "c") 8], f ∈ wideParent.files 1) ∧
    ∃ c, wideParent.setupOtherInputs 1 [exampleFile 1 (ascii "b") 9 (ascii "c") 8] = some c ∧
      c.Complete wideParent 1 [exampleFile 1 (ascii "b") 9 (ascii "c") 8] :=
  ⟨by decide, setupOtherInputs_complete wideParent_leveled (by decide) (by decide)⟩

end LevelDb
