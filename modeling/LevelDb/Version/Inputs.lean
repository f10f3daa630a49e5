import LevelDb.Version.Edit

/-!
# Compaction inputs

`VersionSet::PickCompaction` and `CompactRange` choose the files of a compaction: a first selection
at one level, the files of the next level that overlap it, and, if that adds no file of the next
level, a larger selection at the first level (`SetupOtherInputs`). All selections compare user keys
with one fixed range (`GetOverlappingInputs`).
-/

namespace LevelDb

variable {K V : Type} [LinearOrder K]

/-- `kTargetFileSize`, which is also `MaxFileSizeForLevel` of every level. -/
def kTargetFileSize : ℕ := 2 * 1048576

/-- `kMaxGrandParentOverlapBytes`: the overlap with level+2 at which an output file is cut. -/
def kMaxGrandParentOverlapBytes : ℕ := 10 * kTargetFileSize

/-- `VersionSet::GetOverlappingInputs`: the files of a level that are neither completely before
nor completely after the user keys of `[lo, hi]`. -/
def Version.getOverlappingInputs (v : Version K) (level : ℕ) (lo hi : InternalKey K) :
    List (FileMetaData K) :=
  (v.files level).filter fun f =>
    !(decide (f.largest.userKey < lo.userKey) || decide (hi.userKey < f.smallest.userKey))

/-- `VersionSet::GetRange`: the minimal range that covers all entries of a non-empty list of
files. -/
def getRange : List (FileMetaData K) → Option (InternalKey K × InternalKey K)
  | [] => none
  | f :: files => some (files.foldl
      (fun r g => (if g.smallest < r.1 then g.smallest else r.1,
        if r.2 < g.largest then g.largest else r.2))
      (f.smallest, f.largest))

/-- `VersionSet::GetRange2`. -/
def getRange2 (inputs1 inputs2 : List (FileMetaData K)) : Option (InternalKey K × InternalKey K) :=
  getRange (inputs1 ++ inputs2)

/-- `Compaction`, without the state of its output loop. -/
structure Compaction (K : Type) where
  /-- `level_` -/
  level : ℕ
  /-- `input_version_` -/
  inputVersion : Version K
  /-- `inputs_[0]` -/
  inputs0 : List (FileMetaData K)
  /-- `inputs_[1]` -/
  inputs1 : List (FileMetaData K)
  /-- `grandparents_` -/
  grandparents : List (FileMetaData K)
  /-- `edit_` -/
  edit : VersionEdit K

/-- The attempt of `SetupOtherInputs` to grow the inputs of `level` without changing the number of
files of the next level: the range that it searches again and the inputs that it finds, when the
attempt succeeds. -/
def Version.growInputs (v : Version K) (level : ℕ) (inputs0 inputs1 : List (FileMetaData K)) :
    Option ((InternalKey K × InternalKey K) × List (FileMetaData K) × List (FileMetaData K)) :=
  if inputs1.isEmpty then none
  else
    match getRange2 inputs0 inputs1 with
    | none => none
    | some (allStart, allLimit) =>
      let expanded0 := v.getOverlappingInputs level allStart allLimit
      if inputs0.length < expanded0.length then
        match getRange expanded0 with
        | none => none
        | some (newStart, newLimit) =>
          let expanded1 := v.getOverlappingInputs (level + 1) newStart newLimit
          if expanded1.length = inputs1.length then
            some ((allStart, allLimit), expanded0, expanded1)
          else none
      else none

/-- The inputs with which `SetupOtherInputs` ends, for a first selection `inputs0` with the range
`[smallest, largest]`. -/
def Version.finalInputs (v : Version K) (level : ℕ) (inputs0 : List (FileMetaData K))
    (smallest largest : InternalKey K) : List (FileMetaData K) × List (FileMetaData K) :=
  let inputs1 := v.getOverlappingInputs (level + 1) smallest largest
  match v.growInputs level inputs0 inputs1 with
  | some (_, expanded) => expanded
  | none => (inputs0, inputs1)

/-- `VersionSet::SetupOtherInputs`. There is no result for an empty selection, on which the source
asserts. -/
def Version.setupOtherInputs (v : Version K) (level : ℕ) (inputs0 : List (FileMetaData K)) :
    Option (Compaction K) :=
  match getRange inputs0 with
  | none => none
  | some (smallest, largest) =>
    let inputs := v.finalInputs level inputs0 smallest largest
    match getRange inputs.1, getRange2 inputs.1 inputs.2 with
    | some (_, limit), some (allStart, allLimit) =>
      some
        { level := level
          inputVersion := v
          inputs0 := inputs.1
          inputs1 := inputs.2
          grandparents :=
            if level + 2 < kNumLevels then v.getOverlappingInputs (level + 2) allStart allLimit
            else []
          edit := VersionEdit.setCompactPointer {} level limit }
    | _, _ => none

/-- The file from which `PickCompaction` starts, with its level: in the level that needs compaction
by its score, the first file after the compaction pointer, or the first file of the level; else the
file picked by seek statistics. -/
def VersionSet.pickFile (vs : VersionSet K) : Option (ℕ × FileMetaData K) :=
  if 1 ≤ vs.current.compactionScore then
    let level := vs.current.compactionLevel.toNat
    let files := vs.current.files level
    let next := files.find? fun f =>
      match vs.compactPointer level with
      | none => true
      | some pointer => decide (pointer < f.largest)
    (next <|> files.head?).map (level, ·)
  else vs.current.fileToCompact.map fun p => (p.2, p.1)

/-- `VersionSet::NeedsCompaction`. -/
def VersionSet.needsCompaction (vs : VersionSet K) : Bool :=
  decide (1 ≤ vs.current.compactionScore) || vs.current.fileToCompact.isSome

/-- `VersionSet::PickCompaction`, with the compaction pointer that it updates. Files in level 0 may
overlap each other, so there the picked file is replaced by all files that overlap it. -/
def VersionSet.pickCompaction (vs : VersionSet K) : Option (Compaction K × VersionSet K) :=
  match vs.pickFile with
  | none => none
  | some (level, f) =>
    let inputs0 :=
      if level = 0 then vs.current.getOverlappingInputs 0 f.smallest f.largest else [f]
    (vs.current.setupOtherInputs level inputs0).map fun c =>
      (c, { vs with compactPointer := applyCompactPointers vs.compactPointer c.edit })

/-- `VersionSet::CompactRange`. -/
def VersionSet.compactRange (vs : VersionSet K) (level : ℕ) (lo hi : InternalKey K) :
    Option (Compaction K × VersionSet K) :=
  (vs.current.setupOtherInputs level (vs.current.getOverlappingInputs level lo hi)).map fun c =>
    (c, { vs with compactPointer := applyCompactPointers vs.compactPointer c.edit })

/-- `Compaction::IsTrivialMove`. -/
def Compaction.isTrivialMove (c : Compaction K) : Bool :=
  decide (c.inputs0.length = 1 ∧ c.inputs1.length = 0 ∧
    totalFileSize c.grandparents ≤ kMaxGrandParentOverlapBytes)

/-- `Compaction::AddInputDeletions`. -/
def Compaction.addInputDeletions (c : Compaction K) (edit : VersionEdit K) : VersionEdit K :=
  c.inputs1.foldl (fun edit f => edit.deleteFile (c.level + 1) f.number)
    (c.inputs0.foldl (fun edit f => edit.deleteFile c.level f.number) edit)

/-! ## What the selections contain -/

/-- The files that `GetOverlappingInputs` selects are those that meet the user-key range. -/
@[simp] theorem Version.mem_getOverlappingInputs {v : Version K} {level : ℕ} {lo hi : InternalKey K}
    {f : FileMetaData K} :
    f ∈ v.getOverlappingInputs level lo hi ↔
      f ∈ v.files level ∧ f.Meets lo.userKey hi.userKey := by
  simp [getOverlappingInputs, FileMetaData.Meets, and_comm]

/-- The fold of `GetRange` only widens its range, and covers every file it has seen. -/
theorem getRange_foldl_spec (files : List (FileMetaData K)) : ∀ r : InternalKey K × InternalKey K,
    let r' := files.foldl
      (fun r g => (if g.smallest < r.1 then g.smallest else r.1,
        if r.2 < g.largest then g.largest else r.2)) r
    (r'.1 ≤ r.1 ∧ r.2 ≤ r'.2 ∧ ∀ f ∈ files, r'.1 ≤ f.smallest ∧ f.largest ≤ r'.2) ∧
      (r'.1 = r.1 ∨ ∃ f ∈ files, r'.1 = f.smallest) ∧
      (r'.2 = r.2 ∨ ∃ f ∈ files, r'.2 = f.largest) := by
  induction files with
  | nil => intro r; simp
  | cons g files ih =>
    intro r
    obtain ⟨⟨h1, h2, h3⟩, h4, h5⟩ := ih (if g.smallest < r.1 then g.smallest else r.1,
      if r.2 < g.largest then g.largest else r.2)
    simp only [List.foldl_cons, List.mem_cons, forall_eq_or_imp, exists_eq_or_imp]
    -- The range after the first file is wider than before and covers that file.
    have e1 : (if g.smallest < r.1 then g.smallest else r.1) ≤ r.1 ∧
        (if g.smallest < r.1 then g.smallest else r.1) ≤ g.smallest := by
      split_ifs with h
      · exact ⟨h.le, le_refl _⟩
      · exact ⟨le_refl _, not_lt.mp h⟩
    have e2 : r.2 ≤ (if r.2 < g.largest then g.largest else r.2) ∧
        g.largest ≤ (if r.2 < g.largest then g.largest else r.2) := by
      split_ifs with h
      · exact ⟨h.le, le_refl _⟩
      · exact ⟨le_refl _, not_lt.mp h⟩
    refine ⟨⟨h1.trans e1.1, e2.1.trans h2, ⟨h1.trans e1.2, e2.2.trans h2⟩, h3⟩, ?_, ?_⟩
    · rcases h4 with h4 | h4
      · by_cases hg : g.smallest < r.1
        · exact Or.inr (Or.inl (h4.trans (if_pos hg)))
        · exact Or.inl (h4.trans (if_neg hg))
      · exact Or.inr (Or.inr h4)
    · rcases h5 with h5 | h5
      · by_cases hg : r.2 < g.largest
        · exact Or.inr (Or.inl (h5.trans (if_pos hg)))
        · exact Or.inl (h5.trans (if_neg hg))
      · exact Or.inr (Or.inr h5)

/-- `GetRange` covers the files and is attained by them. -/
theorem getRange_spec {files : List (FileMetaData K)} {lo hi : InternalKey K}
    (h : getRange files = some (lo, hi)) :
    (∀ f ∈ files, lo ≤ f.smallest ∧ f.largest ≤ hi) ∧
      (∃ f ∈ files, lo = f.smallest) ∧ ∃ f ∈ files, hi = f.largest := by
  cases files with
  | nil => simp [getRange] at h
  | cons f files =>
    rw [getRange, Option.some.injEq] at h
    have hs := getRange_foldl_spec files (f.smallest, f.largest)
    simp only [h] at hs
    obtain ⟨⟨h1, h2, h3⟩, h4, h5⟩ := hs
    simp only [List.mem_cons, forall_eq_or_imp, exists_eq_or_imp]
    exact ⟨⟨⟨h1, h2⟩, h3⟩, h4, h5⟩

/-- A non-empty list of files has a range. -/
theorem getRange_isSome {files : List (FileMetaData K)} : (getRange files).isSome ↔ files ≠ [] := by
  cases files <;> simp [getRange]

/-- When growing succeeds: the searched range is that of the first inputs of both levels, and the
grown inputs are what lies in it, and what lies below them. -/
theorem Version.growInputs_eq_some {v : Version K} {level : ℕ}
    {inputs0 inputs1 exp0 exp1 : List (FileMetaData K)} {allStart allLimit : InternalKey K}
    (h : v.growInputs level inputs0 inputs1 = some ((allStart, allLimit), exp0, exp1)) :
    getRange2 inputs0 inputs1 = some (allStart, allLimit) ∧
      exp0 = v.getOverlappingInputs level allStart allLimit ∧
      ∃ newStart newLimit, getRange exp0 = some (newStart, newLimit) ∧
        exp1 = v.getOverlappingInputs (level + 1) newStart newLimit := by
  unfold growInputs at h
  split_ifs at h
  split at h
  · simp at h
  · rename_i s l hr
    dsimp only at h
    split_ifs at h
    split at h
    · simp at h
    · rename_i ns nl hr'
      split_ifs at h
      simp only [Option.some.injEq, Prod.mk.injEq] at h
      obtain ⟨⟨rfl, rfl⟩, rfl, rfl⟩ := h
      exact ⟨hr, rfl, ns, nl, hr', rfl⟩

/-- A compaction that `SetupOtherInputs` returns has the level, the version, and the inputs with which
the attempt to grow them ended. Its edit moves the compaction pointer behind them. -/
theorem Version.setupOtherInputs_eq_some {v : Version K} {level : ℕ}
    {inputs0 : List (FileMetaData K)} {c : Compaction K}
    (h : v.setupOtherInputs level inputs0 = some c) :
    ∃ smallest largest, getRange inputs0 = some (smallest, largest) ∧
      c.level = level ∧ c.inputVersion = v ∧
      (c.inputs0, c.inputs1) = v.finalInputs level inputs0 smallest largest ∧
      ∃ limit, (getRange c.inputs0).map Prod.snd = some limit ∧
        c.edit = VersionEdit.setCompactPointer {} level limit := by
  unfold setupOtherInputs at h
  split at h
  · simp at h
  · rename_i smallest largest hr
    dsimp only at h
    split at h
    · rename_i start limit allStart allLimit hr1 hr2
      obtain rfl := Option.some.inj h
      exact ⟨smallest, largest, hr, rfl, rfl, rfl, limit, by simp [hr1], rfl⟩
    · simp at h

/-- The picked file is a file of its level. -/
theorem VersionSet.pickFile_mem {vs : VersionSet K} (wf : vs.current.WellFormed) {level : ℕ}
    {f : FileMetaData K} (h : vs.pickFile = some (level, f)) : f ∈ vs.current.files level := by
  unfold pickFile at h
  split_ifs at h
  · dsimp only at h
    obtain ⟨g, hg, hgf⟩ := Option.map_eq_some_iff.mp h
    obtain ⟨rfl, rfl⟩ := Prod.mk.inj hgf
    rw [Option.orElse_eq_orElse, Option.orElse_eq_or] at hg
    rcases Option.or_eq_some_iff.mp hg with hg | ⟨-, hg⟩
    · exact List.mem_of_find?_eq_some hg
    · exact List.mem_of_mem_head? hg
  · obtain ⟨⟨g, l⟩, hg, hgf⟩ := Option.map_eq_some_iff.mp h
    obtain ⟨rfl, rfl⟩ := Prod.mk.inj hgf
    exact wf.toCompact g l hg

/-- A compaction of `PickCompaction` starts from the picked file. -/
theorem VersionSet.pickCompaction_eq_some {vs vs' : VersionSet K} {c : Compaction K}
    (h : vs.pickCompaction = some (c, vs')) :
    ∃ f, vs.pickFile = some (c.level, f) ∧
      vs.current.setupOtherInputs c.level
        (if c.level = 0 then vs.current.getOverlappingInputs 0 f.smallest f.largest else [f]) =
        some c ∧
      vs' = { vs with compactPointer := applyCompactPointers vs.compactPointer c.edit } := by
  unfold pickCompaction at h
  split at h
  · simp at h
  · rename_i level f hp
    dsimp only at h
    obtain ⟨c', hc', h⟩ := Option.map_eq_some_iff.mp h
    obtain ⟨rfl, rfl⟩ := Prod.mk.inj h
    obtain ⟨_, _, _, rfl, _⟩ := Version.setupOtherInputs_eq_some hc'
    exact ⟨f, hp, hc', rfl⟩

/-- A compaction of `CompactRange` starts from the files that meet its range. -/
theorem VersionSet.compactRange_eq_some {vs vs' : VersionSet K} {level : ℕ} {lo hi : InternalKey K}
    {c : Compaction K} (h : vs.compactRange level lo hi = some (c, vs')) :
    vs.current.setupOtherInputs level (vs.current.getOverlappingInputs level lo hi) = some c ∧
      vs' = { vs with compactPointer := applyCompactPointers vs.compactPointer c.edit } := by
  unfold compactRange at h
  obtain ⟨c', hc', h⟩ := Option.map_eq_some_iff.mp h
  obtain ⟨rfl, rfl⟩ := Prod.mk.inj h
  exact ⟨hc', rfl⟩

end LevelDb
