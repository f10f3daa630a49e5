import LevelDb.Compaction.Drop

/-!
# A compaction preserves reads

What a version stores after the inputs of a compaction are replaced by its outputs.
`Compaction.reads_result_iff` is the general statement, with what the drop rules need of the files
that stay; a compaction that takes all entries of its user keys from its two levels meets it as soon
as the levels are ordered by recency.
-/

namespace LevelDb

open Lib

variable {K V : Type} [LinearOrder K]

/-! ## What a compaction replaces -/

/-- The inputs are files of their levels in the input version. -/
structure Compaction.FromVersion (c : Compaction K) : Prop where
  /-- `inputs_[0]` are files of the level. -/
  inputs0 : ∀ f ∈ c.inputs0, f ∈ c.inputVersion.files c.level
  /-- `inputs_[1]` are files of the next level. -/
  inputs1 : ∀ f ∈ c.inputs1, f ∈ c.inputVersion.files (c.level + 1)

/-- The files of a level that the compaction leaves where they are. -/
def Compaction.LeftOut (c : Compaction K) (level : ℕ) (f : FileMetaData K) : Prop :=
  f ∈ c.inputVersion.files level ∧ ¬ (level = c.level ∧ f ∈ c.inputs0) ∧
    ¬ (level = c.level + 1 ∧ f ∈ c.inputs1)

/-- The entries of the files that stay. -/
def Compaction.leftContents (c : Compaction K) (tables : Tables K V) : Set (Entry K V) :=
  {e | ∃ level f, c.LeftOut level f ∧ e ∈ tables f.number}

/-- The entries of the version with the inputs replaced by outputs. -/
def Compaction.resultContents (c : Compaction K) (tables : Tables K V)
    (outputs : List (FileMetaData K × List (Entry K V))) : Set (Entry K V) :=
  {e | ∃ out ∈ outputs, e ∈ out.2} ∪ c.leftContents tables

/-- The inputs contain all entries of their two levels for each user key that occurs in them. -/
def Compaction.ContainsAllOfItsKeys (c : Compaction K) (tables : Tables K V) : Prop :=
  ∀ f ∈ c.inputs0 ++ c.inputs1, ∀ level g, level = c.level ∨ level = c.level + 1 →
    c.LeftOut level g → ¬ ∃ k, OccursIn tables k f ∧ OccursIn tables k g

/-- The input iterator yields the entries of the inputs. -/
theorem Compaction.mem_makeInputIterator {c : Compaction K} {tables : Tables K V} {e : Entry K V} :
    e ∈ c.makeInputIterator tables ↔ ∃ f ∈ c.inputs0 ++ c.inputs1, e ∈ tables f.number := by
  unfold makeInputIterator
  rw [List.mem_insertionSort, List.mem_flatMap]

/-- The input iterator comes by increasing key. -/
theorem Compaction.makeInputIterator_sorted (c : Compaction K) (tables : Tables K V) :
    (c.makeInputIterator tables).Pairwise fun a b => a.key ≤ b.key := by
  have : Std.Total fun a b : Entry K V => a.key ≤ b.key := ⟨fun a b => le_total a.key b.key⟩
  have : IsTrans (Entry K V) fun a b => a.key ≤ b.key := ⟨fun _ _ _ => le_trans⟩
  exact List.pairwise_insertionSort _ _

/-- A version stores the inputs of a compaction and what stays. -/
theorem Compaction.FromVersion.contents_eq {c : Compaction K} (hc : c.FromVersion)
    (tables : Tables K V) :
    c.inputVersion.contents tables =
      LevelDb.contents (c.makeInputIterator tables) ∪ c.leftContents tables := by
  ext e
  simp only [Set.mem_union, mem_contents, mem_makeInputIterator]
  constructor
  · rintro ⟨level, f, hf, he⟩
    by_cases h0 : level = c.level ∧ f ∈ c.inputs0
    · exact Or.inl ⟨f, List.mem_append_left _ h0.2, he⟩
    · by_cases h1 : level = c.level + 1 ∧ f ∈ c.inputs1
      · exact Or.inl ⟨f, List.mem_append_right _ h1.2, he⟩
      · exact Or.inr ⟨level, f, ⟨hf, h0, h1⟩, he⟩
  · rintro (⟨f, hf, he⟩ | ⟨level, f, ⟨hf, -⟩, he⟩)
    · rcases List.mem_append.mp hf with hf | hf
      · exact ⟨c.level, f, hc.inputs0 f hf, he⟩
      · exact ⟨c.level + 1, f, hc.inputs1 f hf, he⟩
    · exact ⟨level, f, hf, he⟩

/-- Replacing the inputs by the outputs of `DoCompactionWork` changes no reading at or above
`smallest_snapshot`, as long as the entries of the inputs do not also stay, and older entries that
stay below a deletion marker of the inputs are in levels that `IsBaseLevelForKey` looks at. -/
theorem Compaction.reads_result_iff {c : Compaction K} (wf : c.inputVersion.WellFormed)
    (hc : c.FromVersion) {tables : Tables K V} (ht : c.inputVersion.HasTables tables)
    (hdist : Distinct (c.inputVersion.contents tables))
    (hleft : ∀ e ∈ c.makeInputIterator tables, e ∉ c.leftContents tables)
    (hdeep : ∀ d ∈ c.makeInputIterator tables, d.key.type = .deletion →
      ∀ level g, c.LeftOut level g → ∀ e ∈ tables g.number, e.key.userKey = d.key.userKey →
        e.key.sequence < d.key.sequence → c.level + 2 ≤ level)
    {ss : ℕ} (hss : ss < kMaxSequenceNumber) (sizes : TableSizes K V) (next : ℕ) {k : K} {s : ℕ}
    (hs : ss ≤ s) {r : Option V} :
    Reads (c.resultContents tables (c.doCompactionWork sizes tables ss next).1) k s r ↔
      Reads (c.inputVersion.contents tables) k s r := by
  have hout : {e | ∃ out ∈ (c.doCompactionWork sizes tables ss next).1, e ∈ out.2} =
      LevelDb.contents (c.kept ss (c.makeInputIterator tables)) := by
    ext e
    rw [← c.doCompactionWork_entries sizes tables ss next, mem_contents, List.mem_flatMap]
    rfl
  rw [hc.contents_eq] at hdist
  rw [resultContents, hout, hc.contents_eq]
  refine kept_reads_iff wf hss (c.makeInputIterator_sorted tables) hdist hleft ?_ hs
  rintro d hd hdel - e ⟨level, g, hg, he⟩ hk hlt
  refine ⟨level, hdeep d hd hdel level g hg e he hk hlt, g, hg.1, ?_⟩
  rw [← hk]
  exact (ht level g hg.1).userKey_range he

/-- With levels ordered by recency, a compaction that takes all entries of its user keys from its
two levels changes no reading at or above `smallest_snapshot`, as long as that is below the sentinel
`kMaxSequenceNumber` of `last_sequence_for_key`. -/
theorem compaction_preserves_reads (c : Compaction K) (tables : Tables K V)
    (wf : c.inputVersion.WellFormed) (hc : c.FromVersion) (ht : c.inputVersion.HasTables tables)
    (hdist : Distinct (c.inputVersion.contents tables))
    (hrec : c.inputVersion.LevelsByRecency tables) (hall : c.ContainsAllOfItsKeys tables) (ss : ℕ)
    (hss : ss < kMaxSequenceNumber) (sizes : TableSizes K V) (next : ℕ) (k : K) (s : ℕ)
    (hs : ss ≤ s) (r : Option V) :
    Reads (c.resultContents tables (c.doCompactionWork sizes tables ss next).1) k s r ↔
      Reads (c.inputVersion.contents tables) k s r := by
  -- Where an entry that stays can be when its user key occurs in the inputs.
  have hother : ∀ d ∈ c.makeInputIterator tables, ∀ level g, c.LeftOut level g →
      ∀ e ∈ tables g.number, e.key.userKey = d.key.userKey → level ≠ c.level ∧ level ≠ c.level + 1 ∧
        ∃ l, (l = c.level ∨ l = c.level + 1) ∧ d ∈ c.inputVersion.levelContents tables l := by
    intro d hd level g hg e he hk
    obtain ⟨f, hf, hdf⟩ := Compaction.mem_makeInputIterator.mp hd
    refine ⟨fun h => hall f hf level g (Or.inl h) hg ⟨_, ⟨d, hdf, rfl⟩, e, he, hk⟩,
      fun h => hall f hf level g (Or.inr h) hg ⟨_, ⟨d, hdf, rfl⟩, e, he, hk⟩, ?_⟩
    rcases List.mem_append.mp hf with hf | hf
    · exact ⟨c.level, Or.inl rfl, f, hc.inputs0 f hf, hdf⟩
    · exact ⟨c.level + 1, Or.inr rfl, f, hc.inputs1 f hf, hdf⟩
  refine Compaction.reads_result_iff wf hc ht hdist ?_ ?_ hss sizes next hs
  · rintro d hd ⟨level, g, hg, hdg⟩
    obtain ⟨hne, hne', l, hl, hdl⟩ := hother d hd level g hg d hdg rfl
    have hdlevel : d ∈ c.inputVersion.levelContents tables level := ⟨g, hg.1, hdg⟩
    rcases lt_or_gt_of_ne (show l ≠ level by omega) with h | h
    · exact absurd (hrec l level h d hdl d hdlevel rfl) (lt_irrefl _)
    · exact absurd (hrec level l h d hdlevel d hdl rfl) (lt_irrefl _)
  · intro d hd hdel level g hg e he hk hlt
    obtain ⟨hne, hne', l, hl, hdl⟩ := hother d hd level g hg e he hk
    by_contra hshallow
    -- A shallower level would hold newer entries.
    have := hrec level l (by omega) e ⟨g, hg.1, he⟩ d hdl hk
    simp only [versioned_seq] at this
    omega

/-! ## A marker above the value that it deletes -/

/-- A compaction of level 1, with a deletion of `a` and a value of `b`, into level 2, with an older
value of `a`. -/
def markerOverValue : Compaction Slice :=
  let marker : FileMetaData Slice := ⟨8, 1, .pack [97] 9 .deletion, .pack [98] 7 .value⟩
  let old : FileMetaData Slice := ⟨3, 1, .pack [97] 5 .value, .pack [97] 5 .value⟩
  { level := 1
    inputVersion :=
      { files := fun level => if level = 1 then [marker] else if level = 2 then [old] else []
        fileToCompact := none
        compactionScore := 1
        compactionLevel := 1 }
    inputs0 := [marker]
    inputs1 := [old]
    grandparents := []
    edit := {} }

/-- The tables of `markerOverValue`. -/
def markerOverValueTables : Tables Slice Slice := fun number =>
  if number = 8 then [⟨.pack [97] 9 .deletion, []⟩, ⟨.pack [98] 7 .value, [120]⟩]
  else [⟨.pack [97] 5 .value, [121]⟩]

/-- The files of `markerOverValue` level by level. -/
theorem markerOverValue_files {level : ℕ} {f : FileMetaData Slice}
    (hf : f ∈ markerOverValue.inputVersion.files level) :
    (level = 1 ∧ f ∈ markerOverValue.inputs0) ∨ (level = 2 ∧ f ∈ markerOverValue.inputs1) := by
  by_cases h1 : level = 1
  · subst h1
    exact Or.inl ⟨rfl, hf⟩
  · by_cases h2 : level = 2
    · subst h2
      exact Or.inr ⟨rfl, hf⟩
    · simp [markerOverValue, h1, h2] at hf

/-- The input version of `markerOverValue` is well formed. -/
theorem markerOverValue_wellFormed : markerOverValue.inputVersion.WellFormed where
  levels level h := by
    refine List.eq_nil_iff_forall_not_mem.mpr fun f hf => ?_
    unfold kNumLevels at h
    rcases markerOverValue_files hf with ⟨rfl, -⟩ | ⟨rfl, -⟩ <;> omega
  ranged level f hf := by
    rcases markerOverValue_files hf with ⟨-, hf⟩ | ⟨-, hf⟩
    · obtain rfl := List.mem_singleton.mp hf
      decide
    · obtain rfl := List.mem_singleton.mp hf
      decide
  sorted := List.Pairwise.nil
  disjoint level _ := by
    by_cases h1 : level = 1
    · subst h1
      exact List.pairwise_singleton _ _
    · by_cases h2 : level = 2
      · subst h2
        exact List.pairwise_singleton _ _
      · simp [markerOverValue, h1, h2, DisjointSorted]
  toCompact f level h := by simp [markerOverValue] at h

/-- The entries of `markerOverValue` level by level. -/
theorem markerOverValue_levels {e : Entry Slice Slice} {level : ℕ}
    (he : e ∈ markerOverValue.inputVersion.levelContents markerOverValueTables level) :
    (level = 1 ∧ e ∈ markerOverValueTables 8) ∨ (level = 2 ∧ e ∈ markerOverValueTables 3) := by
  obtain ⟨f, hf, he⟩ := he
  rcases markerOverValue_files hf with ⟨rfl, hf⟩ | ⟨rfl, hf⟩
  · obtain rfl := List.mem_singleton.mp hf
    exact Or.inl ⟨rfl, he⟩
  · obtain rfl := List.mem_singleton.mp hf
    exact Or.inr ⟨rfl, he⟩

/-- What `markerOverValue` needs to preserve reads, but for the bound on the snapshot. -/
theorem markerOverValue_ready :
    markerOverValue.FromVersion ∧
      markerOverValue.inputVersion.HasTables markerOverValueTables ∧
      Distinct (markerOverValue.inputVersion.contents markerOverValueTables) ∧
      markerOverValue.inputVersion.LevelsByRecency markerOverValueTables ∧
      markerOverValue.ContainsAllOfItsKeys markerOverValueTables := by
  refine ⟨⟨fun f hf => hf, fun f hf => hf⟩, ?_, ?_, ?_, ?_⟩
  · intro level f hf
    rcases markerOverValue_files hf with ⟨-, hf⟩ | ⟨-, hf⟩
    · obtain rfl := List.mem_singleton.mp hf
      exact ⟨by unfold KeySorted; decide, by decide, by decide⟩
    · obtain rfl := List.mem_singleton.mp hf
      exact ⟨by unfold KeySorted; decide, by decide, by decide⟩
  · rintro a ⟨i, ha⟩ b ⟨j, hb⟩
    have hab : ∀ a ∈ markerOverValueTables 8 ++ markerOverValueTables 3,
        ∀ b ∈ markerOverValueTables 8 ++ markerOverValueTables 3,
        a.key.userKey = b.key.userKey → a.key.sequence = b.key.sequence → a = b := by decide
    refine hab a (List.mem_append.mpr ?_) b (List.mem_append.mpr ?_)
    · exact (markerOverValue_levels ha).imp And.right And.right
    · exact (markerOverValue_levels hb).imp And.right And.right
  · intro i j hij a ha b hb
    have hab : ∀ a ∈ markerOverValueTables 8, ∀ b ∈ markerOverValueTables 3,
        a.key.userKey = b.key.userKey → b.key.sequence < a.key.sequence := by decide
    rcases markerOverValue_levels ha with ⟨rfl, ha'⟩ | ⟨rfl, ha'⟩
    · rcases markerOverValue_levels hb with ⟨rfl, hb'⟩ | ⟨rfl, hb'⟩
      · omega
      · exact hab a ha' b hb'
    · rcases markerOverValue_levels hb with ⟨rfl, -⟩ | ⟨rfl, -⟩ <;> omega
  · rintro f - level g hl ⟨hg, h0, h1⟩
    rcases markerOverValue_files hg with h | h
    · exact absurd h h0
    · exact absurd h h1

/-- At snapshot 9 the marker and the value below it are both dropped, and `a` still reads as
absent. -/
theorem compaction_preserves_reads_markerOverValue :
    (markerOverValue.doCompactionWork ⟨List.length, List.length⟩ markerOverValueTables 9 10).1.map
        (·.2) = [[⟨.pack [98] 7 .value, [120]⟩]] ∧
      (Reads (markerOverValue.resultContents markerOverValueTables (markerOverValue.doCompactionWork
          ⟨List.length, List.length⟩ markerOverValueTables 9 10).1) [97] 9 none ↔
        Reads (markerOverValue.inputVersion.contents markerOverValueTables) [97] 9 none) := by
  obtain ⟨hc, ht, hdist, hrec, hall⟩ := markerOverValue_ready
  exact ⟨by decide, compaction_preserves_reads markerOverValue markerOverValueTables
    markerOverValue_wellFormed hc ht hdist hrec hall 9 (by decide) _ 10 [97] 9 (le_refl _) none⟩

/-- With `smallest_snapshot` equal to `kMaxSequenceNumber` the sentinel counts as a visible entry,
and the only entry of `b` is dropped. -/
theorem markerOverValue_max_snapshot_drops :
    markerOverValue.inputVersion.WellFormed ∧ markerOverValue.FromVersion ∧
      markerOverValue.inputVersion.HasTables markerOverValueTables ∧
      Distinct (markerOverValue.inputVersion.contents markerOverValueTables) ∧
      markerOverValue.inputVersion.LevelsByRecency markerOverValueTables ∧
      markerOverValue.ContainsAllOfItsKeys markerOverValueTables ∧
      ¬ (Reads (markerOverValue.resultContents markerOverValueTables
          (markerOverValue.doCompactionWork ⟨List.length, List.length⟩ markerOverValueTables
            kMaxSequenceNumber 10).1) [98] kMaxSequenceNumber (some [120]) ↔
        Reads (markerOverValue.inputVersion.contents markerOverValueTables) [98]
          kMaxSequenceNumber (some [120])) := by
  obtain ⟨hc, ht, hdist, hrec, hall⟩ := markerOverValue_ready
  refine ⟨markerOverValue_wellFormed, hc, ht, hdist, hrec, hall, fun h => ?_⟩
  have hb : (⟨.pack [98] 7 .value, [120]⟩ : Entry Slice Slice) ∈
      markerOverValue.inputVersion.contents markerOverValueTables :=
    ⟨1, _, List.mem_singleton_self _, by decide⟩
  have hnew : ∀ e ∈ markerOverValue.inputVersion.contents markerOverValueTables,
      e.key.userKey = [98] → e.key.sequence ≤ 7 := by
    have hall : ∀ e ∈ markerOverValueTables 8 ++ markerOverValueTables 3,
        e.key.userKey = [98] → e.key.sequence ≤ 7 := by decide
    rintro e ⟨level, he⟩
    exact hall e (List.mem_append.mpr ((markerOverValue_levels he).imp And.right And.right))
  have hempty : (markerOverValue.doCompactionWork ⟨List.length, List.length⟩ markerOverValueTables
      kMaxSequenceNumber 10).1.map (·.2) = [] := by decide
  rcases h.mpr (Or.inl ⟨_, ⟨hb, rfl, by decide, fun e he hk _ => hnew e he hk⟩, rfl⟩) with
    ⟨e, ⟨he, -⟩, -⟩ | ⟨-, h⟩
  · -- Nothing is written, and nothing stays.
    rcases he with ⟨out, hout, -⟩ | ⟨level, g, ⟨hg, h0, h1⟩, -⟩
    · rw [List.map_eq_nil_iff.mp hempty] at hout
      simp at hout
    · rcases markerOverValue_files hg with h | h
      · exact h0 h
      · exact h1 h
  · simp at h

end LevelDb
