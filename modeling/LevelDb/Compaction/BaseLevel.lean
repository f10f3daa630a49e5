import LevelDb.Compaction.Drop

/-!
# `IsBaseLevelForKey` and the plain check

`Compaction::IsBaseLevelForKey` keeps one pointer for each level between its calls and returns at
the first level that has the key, so the pointers of the deeper levels lag behind. A compaction asks
for its user keys in order. Then no pointer is ever past a file that still matters, and each answer
is that of the plain check: whether some file of a deeper level has the key in its range.
-/

namespace LevelDb

variable {K : Type} [LinearOrder K]

/-- The answers of successive calls of `IsBaseLevelForKey` on one `Compaction`. -/
def Compaction.isBaseLevelForKeys (c : Compaction K) : List K → (ℕ → ℕ) → List Bool
  | [], _ => []
  | k :: ks, ptrs =>
    let r := c.isBaseLevelForKey ptrs k
    r.1 :: c.isBaseLevelForKeys ks r.2

/-- No file at least two levels below the compaction has the user key in its range. -/
def Compaction.NoDeeperFile (c : Compaction K) (k : K) : Prop :=
  ∀ level, c.level + 2 ≤ level → ∀ f ∈ c.inputVersion.files level, ¬ f.Covers k

/-- The scan of one level reports a file that has the key in its range. This needs no order. -/
theorem exists_covers_of_scanLevel {k : K} : ∀ {files : List (FileMetaData K)} {ptr : ℕ},
    (scanLevel k files ptr).2 = true → ∃ f ∈ files, f.Covers k
  | [], _, h => by simp [scanLevel] at h
  | g :: files, ptr, h => by
    rw [scanLevel] at h
    split_ifs at h with hle
    · have hge : g.smallest.userKey ≤ k := of_decide_eq_true h
      exact ⟨g, List.mem_cons_self, hge, hle⟩
    · obtain ⟨f, hf, hc⟩ := exists_covers_of_scanLevel h
      exact ⟨f, List.mem_cons_of_mem g hf, hc⟩

/-- When a scan of levels reports the key, a file of one of these levels has it in its range. -/
theorem exists_covers_of_scanLevels {v : Version K} {k : K} : ∀ {lvls : List ℕ} {ptrs : ℕ → ℕ},
    (scanLevels v k lvls ptrs).1 = false → ∃ lvl ∈ lvls, ∃ f ∈ v.files lvl, f.Covers k
  | [], _, h => by simp [scanLevels] at h
  | l :: lvls, ptrs, h => by
    rw [scanLevels] at h
    split_ifs at h with hr
    · obtain ⟨f, hf, hc⟩ := exists_covers_of_scanLevel hr
      exact ⟨l, List.mem_cons_self, f, List.mem_of_mem_drop hf, hc⟩
    · obtain ⟨lvl, hlvl, f, hf, hc⟩ := exists_covers_of_scanLevels h
      exact ⟨lvl, List.mem_cons_of_mem l hlvl, f, hf, hc⟩

/-- One call answers as the plain check, if the pointers are behind its key. -/
theorem Compaction.isBaseLevelForKey_iff {c : Compaction K} (wf : c.inputVersion.Leveled)
    {ptrs : ℕ → ℕ} {k : K} (hp : PtrsBehind c.inputVersion ptrs k) :
    (c.isBaseLevelForKey ptrs k).1 = true ↔ c.NoDeeperFile k := by
  constructor
  · intro h level hlevel f hf
    exact c.not_covers_of_isBaseLevelForKey wf hp h hlevel hf
  · intro hnone
    by_contra h
    obtain ⟨level, hlevel, f, hf, hc⟩ :=
      exists_covers_of_scanLevels (Bool.eq_false_iff.mpr h)
    have hle : c.level + 2 ≤ level := (List.mem_range'_1.mp hlevel).1
    exact hnone level hle f hf hc

/-- Successive calls answer as the plain check, if the pointers are behind the first key. -/
theorem Compaction.isBaseLevelForKeys_spec {c : Compaction K} (wf : c.inputVersion.Leveled) :
    ∀ {ks : List K} {ptrs : ℕ → ℕ}, ks.Pairwise (· ≤ ·) →
    (∀ k ∈ ks, PtrsBehind c.inputVersion ptrs k) →
    List.Forall₂ (fun k answer => answer = true ↔ c.NoDeeperFile k) ks (c.isBaseLevelForKeys ks ptrs)
  | [], _, _, _ => List.Forall₂.nil
  | k :: ks, ptrs, hsorted, hp => by
    obtain ⟨hk, hsorted⟩ := List.pairwise_cons.mp hsorted
    have hbehind : PtrsBehind c.inputVersion ptrs k := hp k List.mem_cons_self
    have hnext : PtrsBehind c.inputVersion (c.isBaseLevelForKey ptrs k).2 k :=
      scanLevels_ptrsBehind hbehind
    -- a pointer that is behind `k` is behind the later keys
    refine List.Forall₂.cons (c.isBaseLevelForKey_iff wf hbehind) ?_
    exact isBaseLevelForKeys_spec wf hsorted fun k' hk' => hnext.mono (hk k' hk')

/-- On a new `Compaction` and any user keys in order, every answer is that of the plain check. -/
theorem Compaction.isBaseLevelForKeys_iff_noDeeperFile {c : Compaction K}
    (wf : c.inputVersion.Leveled) {ks : List K} (hsorted : ks.Pairwise (· ≤ ·)) :
    List.Forall₂ (fun k answer => answer = true ↔ c.NoDeeperFile k) ks
      (c.isBaseLevelForKeys ks fun _ => 0) := by
  refine isBaseLevelForKeys_spec wf hsorted fun k _ level f hf => ?_
  simp at hf

/-- Two files of level 2 that share the boundary user key `b`. -/
def boundaryLevel : Version Slice where
  files level := if level = 2 then [exampleFile 1 (ascii "a") 9 (ascii "b") 5,
    exampleFile 2 (ascii "b") 4 (ascii "d") 7] else []

/-- Level 2 of the example is disjoint by internal key. -/
theorem boundaryLevel_leveled : boundaryLevel.Leveled where
  levels level h := if_neg (by unfold kNumLevels at h; omega)
  ranged level := by
    unfold boundaryLevel
    dsimp only
    split_ifs
    · unfold Ranged
      decide
    · exact fun f hf => absurd hf List.not_mem_nil
  disjoint level _ := by
    unfold boundaryLevel
    dsimp only
    split_ifs
    · decide
    · exact List.Pairwise.nil

/-- Calls for `a`, twice `b` and `e` on a compaction of level 0 over the example. -/
theorem Compaction.isBaseLevelForKeys_iff_noDeeperFile_example :
    ([ascii "a", ascii "b", ascii "b", ascii "e"] : List Slice).Pairwise (· ≤ ·) ∧
    List.Forall₂ (fun k answer => answer = true ↔
        (⟨0, boundaryLevel, [], [], [], {}⟩ : Compaction Slice).NoDeeperFile k)
      [ascii "a", ascii "b", ascii "b", ascii "e"]
      ((⟨0, boundaryLevel, [], [], [], {}⟩ : Compaction Slice).isBaseLevelForKeys
        [ascii "a", ascii "b", ascii "b", ascii "e"] fun _ => 0) :=
  ⟨by decide, isBaseLevelForKeys_iff_noDeeperFile boundaryLevel_leveled (by decide)⟩

end LevelDb
