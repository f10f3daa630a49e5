import LevelDb.Version.Closure
import LevelDb.Version.Selection

/-!
# When inputs are grown

`SetupOtherInputs` grows its inputs after it has compared two numbers of files. In terms of the files of the
version it does so iff some file of the next level meets the hull of the inputs, the hull of both meets other
files of the level, and the hull of these meets no other file of the next level (`Version.CanGrow`). This gives
the ranges in the conditions of `Version/Closure`: `Version.searchedRange` is the hull of the inputs and of the
files of the next level if level 0 can be grown (`Version.searchedRange_eq`), and `Version.PickCutsBetweenKeys`
is about the hulls of these files (`Version.pickCutsBetweenKeys_iff`).
-/

namespace LevelDb

variable {K : Type} [LinearOrder K] {v : Version K} {level : ℕ}

/-! ## Growing in terms of files -/

/-- The user-key hull of a set of files. -/
def hullOf (s : Set (FileMetaData K)) : Set K :=
  {k | (∃ f ∈ s, f.smallest.userKey ≤ k) ∧ ∃ f ∈ s, k ≤ f.largest.userKey}

/-- The files of the next level that meet the hull of some files. -/
def Version.parents (v : Version K) (level : ℕ) (s : Set (FileMetaData K)) : Set (FileMetaData K) :=
  v.MeetingFiles (level + 1) (hullOf s)

/-- The files of the level that meet the hull of some of its files and of their parents. -/
def Version.grown (v : Version K) (level : ℕ) (s : Set (FileMetaData K)) : Set (FileMetaData K) :=
  v.MeetingFiles level (hullOf (s ∪ v.parents level s))

/-- The inputs can be grown: they have parents, and other files of the level come in, which have no other
parents. -/
def Version.CanGrow (v : Version K) (level : ℕ) (s : Set (FileMetaData K)) : Prop :=
  (v.parents level s).Nonempty ∧ (∃ f ∈ v.grown level s, f ∉ s) ∧
    v.parents level (v.grown level s) = v.parents level s

/-- The range of some files that `GetOverlappingInputs` gets selects what meets their hull. -/
theorem Version.Leveled.setOf_overlapping (wf : v.Leveled) {files : List (FileMetaData K)}
    (hfiles : Ranged files) {lo hi : InternalKey K} (h : getRange files = some (lo, hi)) (level : ℕ) :
    {f | f ∈ v.getOverlappingInputs level lo hi} = v.MeetingFiles level (hullOf {f | f ∈ files}) :=
  Set.ext fun _ => wf.mem_overlapping_iff hfiles h

/-- The files that `GetOverlappingInputs` selects begin before they end, as those of the version do. -/
theorem Version.Leveled.ranged_overlapping (wf : v.Leveled) (level : ℕ) (lo hi : InternalKey K) :
    Ranged (v.getOverlappingInputs level lo hi) :=
  fun f hf => wf.ranged level f (Version.mem_getOverlappingInputs.mp hf).1

/-- A selection that is contained in a second one is shorter iff the second one has another element. -/
theorem length_filter_lt_iff {α : Type} {l : List α} {p q : α → Bool}
    (h : ∀ a ∈ l, p a = true → q a = true) :
    (l.filter p).length < (l.filter q).length ↔ ∃ a ∈ l.filter q, a ∉ l.filter p := by
  have hsub : (l.filter p).Sublist (l.filter q) := by
    have hfilter : l.filter p = (l.filter q).filter p := by
      rw [List.filter_filter]
      refine List.filter_congr fun a ha => ?_
      cases hp : p a with
      | false => rfl
      | true => rw [h a ha hp]; rfl
    rw [hfilter]
    exact List.filter_sublist
  constructor
  · intro hlt
    by_contra hnone
    push Not at hnone
    have heq : l.filter q = l.filter p := List.filter_congr fun a ha => by
      rw [Bool.eq_iff_iff]
      exact ⟨fun hq => (List.mem_filter.mp (hnone a (List.mem_filter.mpr ⟨ha, hq⟩))).2, h a ha⟩
    rw [heq] at hlt
    exact Nat.lt_irrefl _ hlt
  · rintro ⟨a, ha, hnot⟩
    refine lt_of_le_of_ne hsub.length_le fun heq => hnot ?_
    rw [hsub.eq_of_length heq]
    exact ha

/-- Two selections from the files of a level are the same list if they have the same files. -/
theorem overlapping_eq_of_setOf_eq {lo hi lo' hi' : InternalKey K}
    (h : {f | f ∈ v.getOverlappingInputs level lo hi} = {f | f ∈ v.getOverlappingInputs level lo' hi'}) :
    v.getOverlappingInputs level lo hi = v.getOverlappingInputs level lo' hi' := by
  refine List.filter_congr fun f hf => ?_
  have hiff : f ∈ v.getOverlappingInputs level lo hi ↔ f ∈ v.getOverlappingInputs level lo' hi' :=
    Set.ext_iff.mp h f
  unfold Version.getOverlappingInputs at hiff
  rw [List.mem_filter, List.mem_filter] at hiff
  rw [Bool.eq_iff_iff]
  exact ⟨fun hq => (hiff.mp ⟨hf, hq⟩).2, fun hq => (hiff.mpr ⟨hf, hq⟩).2⟩

/-! ## The attempt of `SetupOtherInputs` -/

/-- The ranges of an attempt to grow a selection from a level: that of the selection, that of the selection and
its parents, and that of the files of the level which meet the latter. -/
structure Version.Attempt (v : Version K) (level : ℕ) (inputs0 : List (FileMetaData K))
    (range all new : InternalKey K × InternalKey K) : Prop where
  /-- The selection consists of files of the level, in their order. -/
  selected : ∃ p : FileMetaData K → Bool, inputs0 = (v.files level).filter p
  /-- The range of the selection. -/
  range_eq : getRange inputs0 = some range
  /-- The range of both levels. -/
  all_eq : getRange (inputs0 ++ v.getOverlappingInputs (level + 1) range.1 range.2) = some all
  /-- The range of what comes in. -/
  new_eq : getRange (v.getOverlappingInputs level all.1 all.2) = some new

namespace Version.Attempt

variable {inputs0 : List (FileMetaData K)} {range all new : InternalKey K × InternalKey K}

/-- The selection consists of files of the level. -/
theorem mem_files (h : v.Attempt level inputs0 range all new) : ∀ f ∈ inputs0, f ∈ v.files level := by
  obtain ⟨p, hp⟩ := h.selected
  intro f hf
  rw [hp] at hf
  exact (List.mem_filter.mp hf).1

/-- What `SetupOtherInputs` finds in the next level are the parents of the selection. -/
theorem parents_eq (h : v.Attempt level inputs0 range all new) (wf : v.Leveled) :
    {f | f ∈ v.getOverlappingInputs (level + 1) range.1 range.2} = v.parents level {f | f ∈ inputs0} :=
  wf.setOf_overlapping (fun f hf => wf.ranged level f (h.mem_files f hf)) h.range_eq (level + 1)

/-- The range of both levels is the hull of the selection and its parents, so that what comes in is what the
selection can be grown to. -/
theorem grown_eq (h : v.Attempt level inputs0 range all new) (wf : v.Leveled) :
    Set.Icc all.1.userKey all.2.userKey =
        hullOf ({f | f ∈ inputs0} ∪ v.parents level {f | f ∈ inputs0}) ∧
      {f | f ∈ v.getOverlappingInputs level all.1 all.2} = v.grown level {f | f ∈ inputs0} := by
  have hboth : {f | f ∈ inputs0 ++ v.getOverlappingInputs (level + 1) range.1 range.2} =
      {f | f ∈ inputs0} ∪ v.parents level {f | f ∈ inputs0} := by
    rw [← h.parents_eq wf]
    exact Set.ext fun f => List.mem_append
  have hranged : Ranged (inputs0 ++ v.getOverlappingInputs (level + 1) range.1 range.2) := fun f hf =>
    (List.mem_append.mp hf).elim (fun hf => wf.ranged level f (h.mem_files f hf))
      (wf.ranged_overlapping (level + 1) range.1 range.2 f)
  have hgrown := wf.setOf_overlapping hranged h.all_eq level
  rw [hboth] at hgrown
  refine ⟨?_, hgrown⟩
  rw [← hboth]
  exact (userHull_eq_Icc h.all_eq).symm

/-- The selection is among what comes in. -/
theorem covers (h : v.Attempt level inputs0 range all new) (wf : v.Leveled) :
    ∀ f ∈ inputs0, f ∈ v.getOverlappingInputs level all.1 all.2 := by
  intro f hf
  have hbounds := (getRange_spec h.all_eq).1 f (List.mem_append_left _ hf)
  have hle := wf.ranged level f (h.mem_files f hf)
  exact mem_getOverlappingInputs.mpr ⟨h.mem_files f hf, InternalKey.userKey_le (hle.trans hbounds.2),
    InternalKey.userKey_le (hbounds.1.trans hle)⟩

/-- What comes in is longer than the selection iff another file comes in. -/
theorem longer_iff (h : v.Attempt level inputs0 range all new) (wf : v.Leveled) :
    inputs0.length < (v.getOverlappingInputs level all.1 all.2).length ↔
      ∃ f ∈ v.grown level {f | f ∈ inputs0}, f ∉ {f | f ∈ inputs0} := by
  have hcover := h.covers wf
  rw [← (h.grown_eq wf).2]
  obtain ⟨p, hp⟩ := h.selected
  rw [hp] at hcover ⊢
  refine length_filter_lt_iff fun f hf hpf => ?_
  exact (List.mem_filter.mp (hcover f (List.mem_filter.mpr ⟨hf, hpf⟩))).2

/-- There are as many files in the next level as before iff they are the same parents. -/
theorem same_iff (h : v.Attempt level inputs0 range all new) (wf : v.Leveled) :
    (v.getOverlappingInputs (level + 1) new.1 new.2).length =
        (v.getOverlappingInputs (level + 1) range.1 range.2).length ↔
      v.parents level (v.grown level {f | f ∈ inputs0}) = v.parents level {f | f ∈ inputs0} := by
  have hparents := wf.setOf_overlapping (wf.ranged_overlapping level all.1 all.2) h.new_eq (level + 1)
  rw [(h.grown_eq wf).2] at hparents
  change _ = v.parents level (v.grown level {f | f ∈ inputs0}) at hparents
  rw [← hparents, ← h.parents_eq wf]
  obtain ⟨hlo, hhi⟩ := getRange_mono h.range_eq h.new_eq (h.covers wf)
  have hsub := v.getOverlappingInputs_sublist (level + 1) hlo hhi
  constructor
  · intro hlength
    rw [hsub.eq_of_length hlength.symm]
  · intro heq
    exact congrArg List.length (overlapping_eq_of_setOf_eq heq)

/-- The selection has parents iff `SetupOtherInputs` finds files in the next level. -/
theorem nonempty_iff (h : v.Attempt level inputs0 range all new) (wf : v.Leveled) :
    (v.parents level {f | f ∈ inputs0}).Nonempty ↔
      v.getOverlappingInputs (level + 1) range.1 range.2 ≠ [] := by
  rw [← h.parents_eq wf]
  constructor
  · intro hparent
    obtain ⟨f, hf⟩ := hparent
    exact List.ne_nil_of_mem hf
  · intro hnil
    exact List.exists_mem_of_ne_nil _ hnil

/-- The attempt to grow the inputs, with its conditions over the files of the version: more files of
the level, and no more parents. -/
theorem growInputs_eq (h : v.Attempt level inputs0 range all new) :
    v.growInputs level inputs0 (v.getOverlappingInputs (level + 1) range.1 range.2) =
      if v.getOverlappingInputs (level + 1) range.1 range.2 = [] then none
      else if inputs0.length < (v.getOverlappingInputs level all.1 all.2).length then
        if (v.getOverlappingInputs (level + 1) new.1 new.2).length =
            (v.getOverlappingInputs (level + 1) range.1 range.2).length then
          some (all, v.getOverlappingInputs level all.1 all.2,
            v.getOverlappingInputs (level + 1) new.1 new.2)
        else none
      else none := by
  have hrange2 : getRange2 inputs0 (v.getOverlappingInputs (level + 1) range.1 range.2) = some all := h.all_eq
  unfold growInputs
  simp only [List.isEmpty_iff, hrange2, h.new_eq]

end Version.Attempt

/-- A selection that is not empty has the ranges of an attempt. -/
theorem Version.Leveled.exists_attempt (wf : v.Leveled) {p : FileMetaData K → Bool}
    {inputs0 : List (FileMetaData K)} (hp : inputs0 = (v.files level).filter p)
    {range : InternalKey K × InternalKey K} (hr : getRange inputs0 = some range) :
    ∃ all new, v.Attempt level inputs0 range all new := by
  obtain ⟨f, hf⟩ : ∃ f, f ∈ inputs0 := by
    refine List.exists_mem_of_ne_nil _ fun hnil => ?_
    rw [hnil] at hr
    exact absurd hr (by simp [getRange])
  have hne : inputs0 ++ v.getOverlappingInputs (level + 1) range.1 range.2 ≠ [] :=
    List.ne_nil_of_mem (List.mem_append_left _ hf)
  obtain ⟨all, hall⟩ := Option.isSome_iff_exists.mp (getRange_isSome.mpr hne)
  -- The selection meets the range that it is in.
  have hmem : f ∈ v.files level := (List.mem_filter.mp (hp ▸ hf)).1
  have hle := wf.ranged level f hmem
  have hbounds := (getRange_spec hall).1 f (List.mem_append_left _ hf)
  have hcovers : f ∈ v.getOverlappingInputs level all.1 all.2 := mem_getOverlappingInputs.mpr
    ⟨hmem, InternalKey.userKey_le (hle.trans hbounds.2), InternalKey.userKey_le (hbounds.1.trans hle)⟩
  obtain ⟨new, hnew⟩ := Option.isSome_iff_exists.mp (getRange_isSome.mpr (List.ne_nil_of_mem hcovers))
  exact ⟨all, new, ⟨p, hp⟩, hr, hall, hnew⟩

/-- `SetupOtherInputs` grows a selection iff the version allows it. The range that it searches again is the hull
of the inputs of both levels, and the new inputs are the files of the level that meet it. -/
theorem Version.Leveled.growInputs_iff (wf : v.Leveled) {p : FileMetaData K → Bool}
    {inputs0 : List (FileMetaData K)} (hp : inputs0 = (v.files level).filter p) {smallest largest : InternalKey K}
    (hr : getRange inputs0 = some (smallest, largest)) :
    (v.CanGrow level {f | f ∈ inputs0} ↔
      (v.growInputs level inputs0 (v.getOverlappingInputs (level + 1) smallest largest)).isSome) ∧
    ∀ allStart allLimit exp0 exp1,
      v.growInputs level inputs0 (v.getOverlappingInputs (level + 1) smallest largest) =
        some ((allStart, allLimit), exp0, exp1) →
      Set.Icc allStart.userKey allLimit.userKey =
          hullOf ({f | f ∈ inputs0} ∪ v.parents level {f | f ∈ inputs0}) ∧
        {f | f ∈ exp0} = v.grown level {f | f ∈ inputs0} := by
  obtain ⟨all, new, h⟩ := wf.exists_attempt hp hr
  unfold CanGrow
  rw [h.nonempty_iff wf, ← h.longer_iff wf, ← h.same_iff wf, h.growInputs_eq]
  dsimp only
  constructor
  · -- The conditions of the attempt, one by one.
    by_cases hnil : v.getOverlappingInputs (level + 1) smallest largest = []
    · rw [if_pos hnil]
      exact iff_of_false (fun hgrow => hgrow.1 hnil) Bool.false_ne_true
    rw [if_neg hnil]
    by_cases hlt : inputs0.length < (v.getOverlappingInputs level all.1 all.2).length
    · rw [if_pos hlt]
      by_cases heq : (v.getOverlappingInputs (level + 1) new.1 new.2).length =
          (v.getOverlappingInputs (level + 1) smallest largest).length
      · rw [if_pos heq]
        exact iff_of_true ⟨hnil, hlt, heq⟩ rfl
      · rw [if_neg heq]
        exact iff_of_false (fun hgrow => heq hgrow.2.2) Bool.false_ne_true
    · rw [if_neg hlt]
      exact iff_of_false (fun hgrow => hlt hgrow.2.1) Bool.false_ne_true
  · intro start limit exp0 exp1 hgrow
    split_ifs at hgrow
    obtain ⟨rfl, hexp⟩ := Prod.mk.inj (Option.some.inj hgrow)
    exact ⟨(h.grown_eq wf).1, (Prod.mk.inj hexp).1 ▸ (h.grown_eq wf).2⟩

/-! ## The searched ranges -/

/-- The range in which the inputs of a level-0 compaction are searched last is the hull of the inputs found
first and of their parents, if these inputs can be grown, and the range of the first search otherwise. -/
theorem Version.searchedRange_eq (wf : v.Leveled) (lo hi : InternalKey K) :
    (v.CanGrow 0 {f | f ∈ v.getOverlappingInputs 0 lo hi} →
      Set.Icc (v.searchedRange lo hi).1 (v.searchedRange lo hi).2 =
        hullOf ({f | f ∈ v.getOverlappingInputs 0 lo hi} ∪
          v.parents 0 {f | f ∈ v.getOverlappingInputs 0 lo hi})) ∧
    (¬v.CanGrow 0 {f | f ∈ v.getOverlappingInputs 0 lo hi} →
      v.searchedRange lo hi = (lo.userKey, hi.userKey)) := by
  unfold searchedRange
  dsimp only
  cases hr : getRange (v.getOverlappingInputs 0 lo hi) with
  | none =>
    -- Without inputs there are no parents.
    have hnil : v.getOverlappingInputs 0 lo hi = [] := by
      by_contra hne
      obtain ⟨range, hrange⟩ := Option.isSome_iff_exists.mp (getRange_isSome.mpr hne)
      exact absurd (hr.symm.trans hrange) (Option.some_ne_none _).symm
    refine ⟨fun hgrow => ?_, fun _ => rfl⟩
    obtain ⟨⟨f, hf⟩, -⟩ := hgrow
    rw [hnil] at hf
    obtain ⟨-, k, -, ⟨g, hg, -⟩, -⟩ := hf
    exact absurd hg List.not_mem_nil
  | some range =>
    obtain ⟨smallest, largest⟩ := range
    have hfilter : v.getOverlappingInputs 0 lo hi = (v.files 0).filter _ := rfl
    obtain ⟨hiff, hrange⟩ := wf.growInputs_iff hfilter hr
    dsimp only
    cases hg : v.growInputs 0 (v.getOverlappingInputs 0 lo hi) (v.getOverlappingInputs 1 smallest largest) with
    | none =>
      refine ⟨fun hgrow => ?_, fun _ => rfl⟩
      have hsome := hiff.mp hgrow
      rw [hg] at hsome
      exact absurd hsome Bool.false_ne_true
    | some r =>
      obtain ⟨⟨allStart, allLimit⟩, exp0, exp1⟩ := r
      refine ⟨fun _ => (hrange _ _ _ _ hg).1, fun hnot => absurd (hiff.mpr ?_) hnot⟩
      rw [hg]
      rfl

/-- A range that is not empty has its ends. -/
theorem forall_icc_eq_iff {lo hi : K} (hle : lo ≤ hi) {C : K → K → Prop} :
    (∀ a b, a ≤ b → Set.Icc a b = Set.Icc lo hi → C a b) ↔ C lo hi := by
  refine ⟨fun h => h lo hi hle rfl, fun h a b hab heq => ?_⟩
  obtain ⟨hlo, hhi⟩ := (Set.Icc_subset_Icc_iff hab).mp heq.le
  obtain ⟨hlo', hhi'⟩ := (Set.Icc_subset_Icc_iff hle).mp heq.ge
  rw [le_antisymm hlo' hlo, le_antisymm hhi hhi']
  exact h

/-- A file of a level above 0 is there once. -/
theorem Version.Leveled.filter_eq_singleton (wf : v.Leveled) (hlevel : 1 ≤ level) {f : FileMetaData K}
    (hf : f ∈ v.files level) : [f] = (v.files level).filter (· = f) := by
  have hnodup : (v.files level).Nodup :=
    (wf.disjoint level hlevel).imp_of_mem fun {g h} hg _ hlt heq => by
      rw [← heq] at hlt
      exact absurd (wf.ranged level g hg) (not_le.mpr hlt)
  rw [List.filter_eq, List.count_eq_one_of_mem hnodup hf]
  rfl

/-- The condition on a file that is picked above level 0. If the inputs cannot be grown, no other file of the
level overlaps it, and its range cuts the next level between user keys. Otherwise the hull of the file and of
its parents cuts the level between user keys, and the hull of the files that come in does so for the next
level. -/
theorem Version.pickCutsBetweenKeys_iff (wf : v.Leveled) (hlevel : 1 ≤ level) {f : FileMetaData K}
    (hf : f ∈ v.files level) : v.PickCutsBetweenKeys level f ↔
    (¬v.CanGrow level {f} → (∀ g ∈ v.files level, g ≠ f → ¬g.Overlaps f) ∧
      CutsBetweenKeys (v.files (level + 1)) f.smallest.userKey f.largest.userKey) ∧
    (v.CanGrow level {f} →
      (∀ lo hi, lo ≤ hi → Set.Icc lo hi = hullOf ({f} ∪ v.parents level {f}) →
        CutsBetweenKeys (v.files level) lo hi) ∧
      ∀ lo hi, lo ≤ hi → Set.Icc lo hi = hullOf (v.grown level {f}) →
        CutsBetweenKeys (v.files (level + 1)) lo hi) := by
  have hr : getRange [f] = some (f.smallest, f.largest) := rfl
  obtain ⟨hiff, hrange⟩ := wf.growInputs_iff (wf.filter_eq_singleton hlevel hf) hr
  have hset : {g | g ∈ [f]} = {f} := Set.ext fun g => List.mem_singleton
  rw [hset] at hiff hrange
  unfold PickCutsBetweenKeys
  cases hg : v.growInputs level [f] (v.getOverlappingInputs (level + 1) f.smallest f.largest) with
  | none =>
    have hnot : ¬v.CanGrow level {f} := fun hgrow => by
      have hsome := hiff.mp hgrow
      rw [hg] at hsome
      exact Bool.false_ne_true hsome
    exact ⟨fun h => ⟨fun _ => h, fun hgrow => absurd hgrow hnot⟩, fun h => h.1 hnot⟩
  | some r =>
    obtain ⟨⟨allStart, allLimit⟩, exp0, exp1⟩ := r
    have hgrow : v.CanGrow level {f} := hiff.mpr (by rw [hg]; rfl)
    obtain ⟨hall, hgrown⟩ := hrange _ _ _ _ hg
    obtain ⟨hall', rfl, newStart, newLimit, hnew, -⟩ := growInputs_eq_some hg
    have hle : allStart.userKey ≤ allLimit.userKey := by
      obtain ⟨hcover, -, -⟩ := getRange_spec hall'
      have hbounds := hcover f (List.mem_append_left _ List.mem_cons_self)
      exact InternalKey.userKey_le (hbounds.1.trans ((wf.ranged level f hf).trans hbounds.2))
    have hranged := wf.ranged_overlapping level allStart allLimit
    have hhull : Set.Icc newStart.userKey newLimit.userKey = hullOf (v.grown level {f}) := by
      rw [← hgrown]
      exact (userHull_eq_Icc hnew).symm
    rw [← hall, ← hhull]
    dsimp only
    rw [forall_icc_eq_iff hle, forall_icc_eq_iff (hranged.getRange_le hnew), hnew]
    constructor
    · intro h
      exact ⟨fun hnot => absurd hgrow hnot, fun _ => ⟨h.1, h.2 newStart newLimit rfl⟩⟩
    · rintro ⟨-, h⟩
      refine ⟨(h hgrow).1, fun start limit heq => ?_⟩
      obtain ⟨rfl, rfl⟩ := Prod.mk.inj (Option.some.inj heq)
      exact (h hgrow).2

end LevelDb
