import LevelDb.Version.Get
import LevelDb.Version.Selection

/-!
# Picking compactions

`VersionSet::PickCompaction` takes its level from one of two places: `Finalize`, which compares the
scores of all levels but the last, and the seek statistics, where a read that had to look at several
files charges the first of them. Reads of a version go on while it is current, with any keys and any
outcomes, and `allowed_seeks` of its files also changes through the other versions that share them.
After any such run the picked compaction has a next level and real inputs.
-/

namespace LevelDb

variable {K V : Type} [LinearOrder K]

/-! ## The level of `Finalize` -/

omit [LinearOrder K] in
/-- A level without files has the score 0. -/
theorem levelScore_nil (level : ℕ) : levelScore ([] : List (FileMetaData K)) level = 0 := by
  unfold levelScore totalFileSize
  split_ifs <;> simp

omit [LinearOrder K] in
/-- The loop of `Finalize` ends where it started, or at a level that it has looked at, with its
score. -/
theorem foldl_score_cases (v : Version K) : ∀ (levels : List ℕ) (best : ℤ × ℚ),
    let r := levels.foldl
      (fun best level => if best.2 < levelScore (v.files level) level then
        ((level : ℤ), levelScore (v.files level) level) else best) best
    r = best ∨ ∃ level ∈ levels, r = ((level : ℤ), levelScore (v.files level) level)
  | [], best => Or.inl rfl
  | level :: levels, best => by
    rw [List.foldl_cons]
    rcases foldl_score_cases v levels (if best.2 < levelScore (v.files level) level then
        ((level : ℤ), levelScore (v.files level) level) else best) with h | ⟨l, hl, h⟩
    · split_ifs at h ⊢ with hlt
      · exact Or.inr ⟨level, List.mem_cons_self, h⟩
      · exact Or.inl h
    · exact Or.inr ⟨l, List.mem_cons_of_mem level hl, h⟩

omit [LinearOrder K] in
/-- A score that calls for a compaction is the score of a level with files, not the last one. -/
theorem bestLevel_of_one_le {v : Version K} (h : 1 ≤ (bestLevel v).2) :
    ∃ level : ℕ, (bestLevel v).1 = level ∧ level + 1 < kNumLevels ∧ v.files level ≠ [] := by
  rcases foldl_score_cases v (List.range (kNumLevels - 1)) (-1, -1) with hb | ⟨level, hl, hb⟩
  · have hscore : (bestLevel v).2 = -1 := congrArg Prod.snd hb
    rw [hscore] at h
    exact absurd h (by decide)
  · have hscore : (bestLevel v).2 = levelScore (v.files level) level := congrArg Prod.snd hb
    refine ⟨level, congrArg Prod.fst hb, ?_, ?_⟩
    · have := List.mem_range.mp hl
      omega
    · intro hnil
      rw [hscore, hnil, levelScore_nil] at h
      exact absurd h (by decide)

/-! ## Runs of reads -/

/-- The states of a version while it is read: a `Version::Get` with any key and any outcome of its
reads, with the `UpdateStats` that follows it, or a change of `allowed_seeks` through another version
that shares the files. -/
inductive Version.Run (V : Type) (v₀ : Version K) : Version K → Prop
  /-- Nothing was read yet. -/
  | start : Run V v₀ v₀
  /-- `Version::Get` and `UpdateStats`. -/
  | get {v : Version K} (h : Run V v₀ v) (ikey : InternalKey K)
      (read : FileMetaData K → Except Status (Option (Option V))) :
      Run V v₀ (v.updateStats (v.getReads read ikey).2)
  /-- Another version charged its files. -/
  | other {v : Version K} (h : Run V v₀ v) (seeks : ℕ → ℤ) :
      Run V v₀ { v with allowedSeeks := seeks }

/-- What stays of a version while it is read, and where its `file_to_compact_` points. -/
structure Version.Charged (v₀ v : Version K) : Prop where
  /-- The files stay. -/
  files : v.files = v₀.files
  /-- What `Finalize` computed stays. -/
  finalized : v.compactionLevel = v₀.compactionLevel ∧ v.compactionScore = v₀.compactionScore
  /-- `file_to_compact_` is a file of its level, which is not the last one. -/
  toCompact : ∀ f level, v.fileToCompact = some (f, level) →
    f ∈ v.files level ∧ level + 1 < kNumLevels

/-- A read with its statistics keeps this. -/
theorem Version.Charged.get {v₀ v : Version K} (h : v₀.Charged v) (ikey : InternalKey K)
    (read : FileMetaData K → Except Status (Option (Option V))) :
    v₀.Charged (v.updateStats (v.getReads read ikey).2) := by
  generalize hstats : (v.getReads read ikey).2 = stats
  unfold updateStats
  split
  · exact h
  · next f level =>
    refine ⟨h.files, h.finalized, fun g m hg => ?_⟩
    dsimp only at hg
    split_ifs at hg
    · obtain ⟨rfl, rfl⟩ := Prod.mk.inj (Option.some.inj hg)
      exact getReads_stats hstats
    · exact h.toCompact g m hg

/-- Whatever reads do to a version without a file to compact, its files and score stay, and a file that
is picked is a file of its level. -/
theorem Version.Run.charged {v₀ v : Version K} (h : Version.Run V v₀ v)
    (hnone : v₀.fileToCompact = none) : v₀.Charged v := by
  induction h with
  | start => exact ⟨rfl, ⟨rfl, rfl⟩, fun f level hf => by simp [hnone] at hf⟩
  | get h ikey read ih => exact ih.get ikey read
  | other h seeks ih => exact ⟨ih.files, ih.finalized, ih.toCompact⟩

/-! ## The picked compaction -/

/-- Growing the inputs only adds files of the level. -/
theorem Version.finalInputs_fst {v : Version K} {level : ℕ} {inputs0 : List (FileMetaData K)}
    (hne : inputs0 ≠ []) (hin : ∀ f ∈ inputs0, f ∈ v.files level) (smallest largest : InternalKey K) :
    (v.finalInputs level inputs0 smallest largest).1 ≠ [] ∧
      ∀ f ∈ (v.finalInputs level inputs0 smallest largest).1, f ∈ v.files level := by
  unfold finalInputs
  dsimp only
  split
  · rename_i range expanded h
    obtain ⟨exp0, exp1⟩ := expanded
    obtain ⟨-, rfl, newStart, newLimit, hexp, -⟩ := growInputs_eq_some h
    refine ⟨?_, fun f hf => (mem_getOverlappingInputs.mp hf).1⟩
    rw [← getRange_isSome, hexp]
    rfl
  · exact ⟨hne, hin⟩

/-- `SetupOtherInputs` keeps a selection of files of a level that is not empty. -/
theorem Version.setupOtherInputs_inputs0 {v : Version K} {level : ℕ}
    {inputs0 : List (FileMetaData K)} (hne : inputs0 ≠ []) (hin : ∀ f ∈ inputs0, f ∈ v.files level) :
    ∃ c, v.setupOtherInputs level inputs0 = some c ∧ c.level = level ∧ c.inputs0 ≠ [] ∧
      ∀ f ∈ c.inputs0, f ∈ v.files level := by
  obtain ⟨⟨smallest, largest⟩, hr⟩ := Option.isSome_iff_exists.mp (getRange_isSome.mpr hne)
  obtain ⟨hne0, hin0⟩ := finalInputs_fst hne hin smallest largest
  have hne1 : (v.finalInputs level inputs0 smallest largest).1 ++
      (v.finalInputs level inputs0 smallest largest).2 ≠ [] := List.append_ne_nil_of_left_ne_nil hne0 _
  obtain ⟨⟨lo, limit⟩, hr0⟩ := Option.isSome_iff_exists.mp (getRange_isSome.mpr hne0)
  obtain ⟨⟨start, stop⟩, hr1⟩ := Option.isSome_iff_exists.mp (getRange_isSome.mpr hne1)
  unfold setupOtherInputs getRange2
  rw [hr]
  dsimp only
  rw [hr0, hr1]
  exact ⟨_, rfl, rfl, hne0, hin0⟩

/-- A version that needs a compaction has a file to start it from, at a level that is not the last
one. -/
theorem VersionSet.pickFile_of_needsCompaction {vs : VersionSet K} {v₀ : Version K}
    (h : (finalize v₀).Charged vs.current) (hneeds : vs.needsCompaction = true) :
    ∃ level f, vs.pickFile = some (level, f) ∧ f ∈ vs.current.files level ∧
      level + 1 < kNumLevels ∧
      (1 ≤ vs.current.compactionScore → vs.current.compactionLevel = level) := by
  unfold pickFile
  by_cases hscore : 1 ≤ vs.current.compactionScore
  · have hbest : 1 ≤ (bestLevel v₀).2 := by
      rw [h.finalized.2] at hscore
      exact hscore
    obtain ⟨level, hlevel, hlast, hfiles⟩ := bestLevel_of_one_le hbest
    have hcl : vs.current.compactionLevel = level := h.finalized.1.trans hlevel
    have hne : vs.current.files level ≠ [] := by
      rw [h.files]
      exact hfiles
    rw [if_pos hscore, hcl]
    dsimp only [Int.toNat_natCast]
    generalize hn : List.find? _ (vs.current.files level) = next
    cases next with
    | some f => exact ⟨level, f, rfl, List.mem_of_find?_eq_some hn, hlast, fun _ => rfl⟩
    | none =>
      -- wrap-around to the beginning of the key space
      obtain ⟨f, files, hf⟩ := List.exists_cons_of_ne_nil hne
      refine ⟨level, f, ?_, ?_, hlast, fun _ => rfl⟩
      · rw [hf]
        rfl
      · rw [hf]
        exact List.mem_cons_self
  · have hsome : vs.current.fileToCompact.isSome := by
      unfold needsCompaction at hneeds
      simpa [hscore] using hneeds
    obtain ⟨⟨f, level⟩, hf⟩ := Option.isSome_iff_exists.mp hsome
    obtain ⟨hmem, hlast⟩ := h.toCompact f level hf
    rw [if_neg hscore, hf]
    exact ⟨level, f, rfl, hmem, hlast, fun hs => absurd hs hscore⟩

/-- A compaction with a target level and with inputs of its version. -/
structure Compaction.Proper (c : Compaction K) (v : Version K) : Prop where
  /-- The version is the current one. -/
  version : c.inputVersion = v
  /-- The level is not the last one. -/
  level : c.level < kNumLevels - 1
  /-- `inputs_[0]` is not empty. -/
  inputs0_ne : c.inputs0 ≠ []
  /-- `inputs_[0]` has files of the level. -/
  inputs0_mem : ∀ f ∈ c.inputs0, f ∈ v.files c.level

/-- After every run of reads a read charges a file of a level that is not the last one, and
`PickCompaction` returns a proper compaction, or no compaction if none is needed. -/
theorem VersionSet.pickCompaction_proper {v₀ : Version K} (hnone : v₀.fileToCompact = none)
    (hranged : ∀ f ∈ v₀.files 0, f.smallest.userKey ≤ f.largest.userKey) {vs : VersionSet K}
    (hrun : Version.Run V (finalize v₀) vs.current) :
    (∀ (ikey : InternalKey K) (read : FileMetaData K → Except Status (Option (Option V))) f level,
      (vs.current.getReads read ikey).2 = some (f, level) →
        f ∈ vs.current.files level ∧ level < kNumLevels - 1) ∧
    (vs.needsCompaction = false → vs.pickCompaction = none) ∧
    (vs.needsCompaction = true → ∃ c vs', vs.pickCompaction = some (c, vs') ∧
      c.Proper vs.current ∧
      (1 ≤ vs.current.compactionScore → vs.current.compactionLevel = c.level)) := by
  have hcharged : (finalize v₀).Charged vs.current := hrun.charged hnone
  refine ⟨fun ikey read f level h => ?_, fun hneeds => ?_, fun hneeds => ?_⟩
  · obtain ⟨hmem, hlast⟩ := Version.getReads_stats h
    exact ⟨hmem, by omega⟩
  · -- neither the score nor the statistics ask for a compaction
    obtain ⟨hscore, hfile⟩ : ¬ 1 ≤ vs.current.compactionScore ∧ vs.current.fileToCompact = none := by
      simpa [needsCompaction] using hneeds
    unfold pickCompaction pickFile
    rw [if_neg hscore, hfile]
    rfl
  · obtain ⟨level, f, hpick, hmem, hlast, hscore⟩ := pickFile_of_needsCompaction hcharged hneeds
    unfold pickCompaction
    rw [hpick]
    dsimp only
    set inputs0 :=
      if level = 0 then vs.current.getOverlappingInputs 0 f.smallest f.largest else [f] with hinputs
    have hsel : f ∈ inputs0 ∧ ∀ g ∈ inputs0, g ∈ vs.current.files level := by
      rw [hinputs]
      split_ifs with hzero
      · -- the search finds the picked file again, since the file has a range
        subst hzero
        have hle : f.smallest.userKey ≤ f.largest.userKey := hranged f (hcharged.files ▸ hmem)
        exact ⟨Version.mem_getOverlappingInputs.mpr ⟨hmem, hle, hle⟩,
          fun g hg => (Version.mem_getOverlappingInputs.mp hg).1⟩
      · refine ⟨List.mem_singleton_self f, fun g hg => ?_⟩
        rw [List.mem_singleton.mp hg]
        exact hmem
    obtain ⟨c, hc, rfl, hne, hin⟩ :=
      Version.setupOtherInputs_inputs0 (List.ne_nil_of_mem hsel.1) hsel.2
    obtain ⟨_, _, _, _, hversion, _⟩ := Version.setupOtherInputs_eq_some hc
    refine ⟨c, _, by rw [hc]; rfl, ⟨hversion, by omega, hne, hin⟩, hscore⟩

/-- The example after a read of `c` that had to look at two files, the last seek that the first of
them was allowed. -/
def chargedParent : Version Slice :=
  let v : Version Slice := { finalize wideParent with allowedSeeks := fun _ => 1 }
  v.updateStats (v.getReads (V := ℕ) (fun _ => .ok none) (.pack (ascii "c") 8 .value)).2

/-- A read of `c` that looks at two files leads to the charged version of the example. -/
theorem chargedParent_run : Version.Run ℕ (finalize wideParent) chargedParent := by
  have hstart : Version.Run ℕ (finalize wideParent) (finalize wideParent) := Version.Run.start
  have hother := hstart.other fun _ => 1
  exact hother.get (.pack (ascii "c") 8 .value) fun _ => .ok none

/-- The read has picked the first file. -/
theorem VersionSet.pickCompaction_proper_example :
    chargedParent.fileToCompact = some (exampleFile 1 (ascii "b") 9 (ascii "c") 8, 1) ∧
    (∀ (ikey : InternalKey Slice) (read : FileMetaData Slice → Except Status (Option (Option ℕ)))
      f level, (chargedParent.getReads read ikey).2 = some (f, level) →
        f ∈ chargedParent.files level ∧ level < kNumLevels - 1) ∧
    (({ current := chargedParent } : VersionSet Slice).needsCompaction = false →
      ({ current := chargedParent } : VersionSet Slice).pickCompaction = none) ∧
    (({ current := chargedParent } : VersionSet Slice).needsCompaction = true →
      ∃ c vs', ({ current := chargedParent } : VersionSet Slice).pickCompaction = some (c, vs') ∧
      c.Proper chargedParent ∧
      (1 ≤ chargedParent.compactionScore → chargedParent.compactionLevel = c.level)) :=
  ⟨by decide, @pickCompaction_proper Slice ℕ _ wideParent rfl (by decide) { current := chargedParent }
    chargedParent_run⟩

end LevelDb
