import LevelDb.Compaction.Drop

/-!
# The outputs of a compaction

The loop of `DoCompactionWork` writes its entries into files one after the other. This file says what
these files are in every round: their metadata name the ends of their tables, their numbers increase,
and, as the merged input is strictly increasing, they are disjoint (`outputs_disjoint`). It also
says where the inputs of a compaction lie: a file of the next level that is not an input is on one
side of all of them (`setupOtherInputs_spec`).
-/

namespace LevelDb

open Lib

variable {K V : Type}

/-! ## The shape of the outputs -/

/-- The keys `smallest` and `largest` are the ends of a list of entries. -/
def EndsOf (es : List (Entry K V)) (smallest largest : InternalKey K) : Prop :=
  es.head?.map (·.key) = some smallest ∧ es.getLast?.map (·.key) = some largest

/-- The file numbers of the finished outputs and of the one that is being built. -/
def CutState.numbers (st : CutState K V) : List ℕ :=
  st.outputs.map (·.1.number) ++ (st.builder.map (·.number)).toList

/-- The outputs so far are sound: their metadata fit their tables, and their numbers, which were
taken from the counter, satisfy `unused`. -/
structure CutState.Sound (st : CutState K V) (unused : ℕ → Prop) (nextFileNumber : ℕ) : Prop where
  /-- The finished outputs. -/
  outputs : ∀ out ∈ st.outputs, EndsOf out.2 out.1.smallest out.1.largest
  /-- The output that is being built. -/
  builder : ∀ b, st.builder = some b → EndsOf b.entries b.smallest b.largest
  /-- Numbers increase. -/
  numbers : st.numbers.Pairwise (· < ·)
  /-- Numbers come from the counter. -/
  number_lt : ∀ n ∈ st.numbers, n < nextFileNumber
  /-- Numbers were unused. -/
  unused : ∀ n ∈ st.numbers, unused n

/-- At the start of the loop no output is open and none is finished, so that the invariant holds. -/
theorem CutState.sound_nil (unused : ℕ → Prop) (next : ℕ) :
    ({} : CutState K V).Sound unused next :=
  ⟨by simp, by simp, by simp [numbers], by simp [numbers], by simp [numbers]⟩

/-- The counter may grow, and numbers may become used that no output has. -/
theorem CutState.Sound.mono {st : CutState K V} {unused unused' : ℕ → Prop} {next next' : ℕ}
    (h : st.Sound unused next) (hle : next ≤ next')
    (himp : ∀ n, n < next → unused n → unused' n) : st.Sound unused' next' :=
  ⟨h.outputs, h.builder, h.numbers, fun n hn => (h.number_lt n hn).trans_le hle,
    fun n hn => himp n (h.number_lt n hn) (h.unused n hn)⟩

/-- Finishing an output keeps the numbers. -/
@[simp] theorem CutState.finishOutput_numbers (sizes : TableSizes K V) (st : CutState K V) :
    (st.finishOutput sizes).numbers = st.numbers := by
  unfold finishOutput
  split
  · rfl
  · next b hb => simp [numbers, hb]

/-- Finishing an output keeps the outputs sound. -/
theorem CutState.Sound.finishOutput {st : CutState K V} {unused : ℕ → Prop} {next : ℕ}
    (h : st.Sound unused next) (sizes : TableSizes K V) :
    (st.finishOutput sizes).Sound unused next := by
  refine ⟨?_, ?_, by simpa using h.numbers, by simpa using h.number_lt, by simpa using h.unused⟩
  · intro out hout
    unfold CutState.finishOutput at hout
    split at hout
    · exact h.outputs out hout
    · next b hb =>
      rcases List.mem_append.mp hout with hout | hout
      · exact h.outputs out hout
      · rw [List.mem_singleton.mp hout]
        exact h.builder b hb
  · intro b hb
    unfold CutState.finishOutput at hb
    split at hb
    · exact h.builder b hb
    · simp at hb

/-- Adding an entry keeps the outputs sound. -/
theorem CutState.Sound.writeEntry {st : CutState K V} {unused : ℕ → Prop} {next : ℕ}
    (h : st.Sound unused next) (hun : unused next) (sizes : TableSizes K V) (e : Entry K V) :
    (st.writeEntry sizes next e).1.Sound unused (st.writeEntry sizes next e).2 ∧
      next ≤ (st.writeEntry sizes next e).2 := by
  -- The state before the output is closed, if it is.
  have hopen : ∀ (b : OpenOutput K V) (next' : ℕ), next ≤ next' →
      { st with builder := some b }.Sound unused next' →
      (if kTargetFileSize ≤ sizes.soFar b.entries then
        ({ st with builder := some b }.finishOutput sizes, next')
      else ({ st with builder := some b }, next')).1.Sound unused
        (if kTargetFileSize ≤ sizes.soFar b.entries then
          ({ st with builder := some b }.finishOutput sizes, next')
        else ({ st with builder := some b }, next')).2 ∧
      next ≤ (if kTargetFileSize ≤ sizes.soFar b.entries then
          ({ st with builder := some b }.finishOutput sizes, next')
        else ({ st with builder := some b }, next')).2 := by
    intro b next' hle hs
    split_ifs
    · exact ⟨hs.finishOutput sizes, hle⟩
    · exact ⟨hs, hle⟩
  unfold CutState.writeEntry
  cases hb : st.builder with
  | none =>
    refine hopen ⟨next, e.key, e.key, [e]⟩ (next + 1) (Nat.le_succ next) ⟨h.outputs, ?_, ?_, ?_, ?_⟩
    · rintro b' hb'
      obtain rfl := Option.some.inj hb'
      exact ⟨rfl, rfl⟩
    · have hold := h.numbers
      have hlt := h.number_lt
      simp only [CutState.numbers, hb, Option.map_none, Option.toList_none, List.append_nil] at hold hlt
      refine List.pairwise_append.mpr ⟨hold, List.pairwise_singleton _ _, fun n hn m hm => ?_⟩
      rw [show m = next from List.mem_singleton.mp hm]
      exact hlt n hn
    · intro n hn
      rcases List.mem_append.mp hn with hn | hn
      · exact Nat.lt_succ_of_lt (h.number_lt n (List.mem_append_left _ hn))
      · rw [show n = next from List.mem_singleton.mp hn]
        exact Nat.lt_succ_self _
    · intro n hn
      rcases List.mem_append.mp hn with hn | hn
      · exact h.unused n (List.mem_append_left _ hn)
      · rw [show n = next from List.mem_singleton.mp hn]
        exact hun
  | some b =>
    have hnum : CutState.numbers { st with
        builder := some { b with largest := e.key, entries := b.entries ++ [e] } } = st.numbers := by
      simp [CutState.numbers, hb]
    refine hopen { b with largest := e.key, entries := b.entries ++ [e] } next (le_refl _)
      ⟨h.outputs, ?_, hnum ▸ h.numbers, hnum ▸ h.number_lt, hnum ▸ h.unused⟩
    rintro b' hb'
    obtain rfl := Option.some.inj hb'
    obtain ⟨h1, h2⟩ := h.builder b hb
    refine ⟨?_, by simp⟩
    obtain ⟨a, ha, hak⟩ := Option.map_eq_some_iff.mp h1
    simp [List.head?_append, ha, hak]

section Order

variable [LinearOrder K]

/-- `ShouldStopBefore` changes no output, and keeps the outputs sound. -/
theorem CutState.Sound.shouldStopBefore {st : CutState K V} {unused : ℕ → Prop} {next : ℕ}
    (h : st.Sound unused next) (c : Compaction K) (key : InternalKey K) :
    (c.shouldStopBefore st key).2.Sound unused next := by
  unfold Compaction.shouldStopBefore
  dsimp only
  split_ifs
  · exact ⟨h.outputs, h.builder, h.numbers, h.number_lt, h.unused⟩
  · exact ⟨h.outputs, h.builder, h.numbers, h.number_lt, h.unused⟩

/-- A round keeps the outputs sound, and the counter does not decrease. -/
theorem CompactionState.workStep_sound {st : CompactionState K V} {unused : ℕ → Prop} {next : ℕ}
    (h : st.cutting.Sound unused next) (hun : unused next) (sizes : TableSizes K V) :
    (st.workStep sizes next).1.cutting.Sound unused (st.workStep sizes next).2 ∧
      next ≤ (st.workStep sizes next).2 := by
  unfold workStep
  cases hin : st.input with
  | nil => exact ⟨h, le_refl _⟩
  | cons e es =>
    have hstop := h.shouldStopBefore st.compaction e.key
    dsimp only
    split_ifs
    · exact ⟨hstop.finishOutput sizes, le_refl _⟩
    · exact ⟨hstop, le_refl _⟩
    · exact (hstop.finishOutput sizes).writeEntry hun sizes e
    · exact hstop.writeEntry hun sizes e

/-- Parts of a strictly increasing list, cut into files with the ends of their parts, are the tables
of disjoint files. -/
theorem outputs_disjoint {outputs : List (FileMetaData K × List (Entry K V))}
    (hends : ∀ out ∈ outputs, EndsOf out.2 out.1.smallest out.1.largest)
    (hsorted : KeySorted (outputs.flatMap (·.2))) :
    (∀ out ∈ outputs, out.1.Holds out.2) ∧ DisjointSorted (outputs.map (·.1)) := by
  obtain ⟨hparts, hcross⟩ := List.pairwise_flatMap.mp hsorted
  have hholds : ∀ out ∈ outputs, out.1.Holds out.2 := fun out hout =>
    ⟨hparts out hout, (hends out hout).1, (hends out hout).2⟩
  refine ⟨hholds, List.pairwise_map.mpr (hcross.imp_of_mem fun {a b} ha hb hab => ?_)⟩
  obtain ⟨x, hx, hxl⟩ := (hholds a ha).exists_largest
  obtain ⟨y, hy, hys⟩ := (hholds b hb).exists_smallest
  rw [← hxl, ← hys]
  exact hab x hx y hy

/-! ## Progress of the loop -/

/-- The loop has read `done` of its input, and has written what the drop rules keep of it. -/
def CompactionState.Progress (st : CompactionState K V) (done : List (Entry K V)) : Prop :=
  (st.dropping, st.cutting.written) =
    done.foldl (st.compaction.dropStep st.smallestSnapshot) ({}, [])

/-- A round of the loop reads one more entry, and what was written stands for the entries that were
read. -/
theorem CompactionState.Progress.workStep {st : CompactionState K V} {done es : List (Entry K V)}
    {e : Entry K V} (h : st.Progress done) (hin : st.input = e :: es) (sizes : TableSizes K V)
    (next : ℕ) : (st.workStep sizes next).1.Progress (done ++ [e]) := by
  obtain ⟨-, hc, hss, hstep⟩ := workStep_cons sizes hin next
  rw [Progress, hc, hss, hstep, List.foldl_append, ← h]
  rfl

/-- What the drop rules keep is part of what was read, in order. -/
theorem Compaction.kept_sublist (c : Compaction K) (ss : ℕ) (es : List (Entry K V)) :
    (c.kept ss es).Sublist es := by
  suffices h : ∀ (es P : List (Entry K V)) (r : DropState K × List (Entry K V)), r.2.Sublist P →
      (es.foldl (c.dropStep ss) r).2.Sublist (P ++ es) by
    simpa [kept] using h es [] ({}, []) (List.Sublist.refl _)
  intro es
  induction es with
  | nil => intro P r h; simpa using h
  | cons e es ih =>
    intro P r h
    rw [List.foldl_cons, show P ++ e :: es = P ++ [e] ++ es by simp]
    apply ih
    unfold dropStep
    dsimp only
    split_ifs
    · exact h.trans (List.sublist_append_left P [e])
    · exact h.append (List.Sublist.refl _)

/-- The outputs of a loop that has read its whole input hold what the drop rules keep. -/
theorem CompactionState.Progress.finalOutputs {st : CompactionState K V} {done : List (Entry K V)}
    (h : st.Progress done) (sizes : TableSizes K V) :
    (st.finalOutputs sizes).flatMap (·.2) = st.compaction.kept st.smallestSnapshot done := by
  have hno : (st.cutting.finishOutput sizes).builder = none := by
    unfold CutState.finishOutput
    split
    · next h => exact h
    · rfl
  have hw := CutState.finishOutput_written sizes st.cutting
  unfold CutState.written at hw
  rw [hno] at hw
  rw [CompactionState.finalOutputs, Compaction.kept, ← h]
  simpa [CutState.written] using hw

/-! ## Where the inputs lie -/

/-- A file lies on one side of all inputs of a compaction. -/
def Compaction.OutsideInputs (c : Compaction K) (g : FileMetaData K) : Prop :=
  (∀ f ∈ c.inputs0 ++ c.inputs1, g.largest < f.smallest) ∨
    ∀ f ∈ c.inputs0 ++ c.inputs1, f.largest < g.smallest

/-- A file of the next level that is not selected lies on one side of all inputs. -/
theorem Version.outside_of_range {v : Version K} {level : ℕ}
    {inputs0 inputs1 : List (FileMetaData K)} {lo hi : InternalKey K}
    (hd : DisjointSorted (v.files (level + 1))) (hr : Ranged (v.files (level + 1)))
    (hrange : getRange inputs0 = some (lo, hi))
    (h1 : inputs1 = v.getOverlappingInputs (level + 1) lo hi) {g : FileMetaData K}
    (hg : g ∈ v.files (level + 1)) (hout : g ∉ inputs1) :
    (∀ f ∈ inputs0 ++ inputs1, g.largest < f.smallest) ∨
      ∀ f ∈ inputs0 ++ inputs1, f.largest < g.smallest := by
  obtain ⟨hcover, -, -⟩ := getRange_spec hrange
  rw [h1, Version.mem_getOverlappingInputs] at hout
  have hmeets : ¬ g.Meets lo.userKey hi.userKey := fun hm => hout ⟨hg, hm⟩
  -- An input of the next level meets the range, and so differs from `g`.
  have hside : ∀ f ∈ inputs1, f ∈ v.files (level + 1) ∧ f.Meets lo.userKey hi.userKey ∧
      (f.largest < g.smallest ∨ g.largest < f.smallest) := by
    intro f hf
    rw [h1, Version.mem_getOverlappingInputs] at hf
    refine ⟨hf.1, hf.2, ?_⟩
    rcases Lib.eq_or_rel_of_pairwise hd hf.1 hg with heq | hsides
    · exact absurd (heq ▸ hf.2) hmeets
    · exact hsides
  rcases not_and_or.mp hmeets with hafter | hbefore
  · -- `g` starts after the range.
    right
    intro f hf
    rcases List.mem_append.mp hf with hf | hf
    · exact InternalKey.lt_of_userKey_lt
        ((InternalKey.userKey_le (hcover f hf).2).trans_lt (not_le.mp hafter))
    · obtain ⟨-, hm, hlt | hlt⟩ := hside f hf
      · exact hlt
      · have h1 := (hr.userKey_le hg).trans (InternalKey.userKey_le hlt.le)
        exact absurd (h1.trans hm.1) hafter
  · left
    intro f hf
    rcases List.mem_append.mp hf with hf | hf
    · exact InternalKey.lt_of_userKey_lt
        ((not_le.mp hbefore).trans_le (InternalKey.userKey_le (hcover f hf).1))
    · obtain ⟨-, hm, hlt | hlt⟩ := hside f hf
      · have h1 := (InternalKey.userKey_le hlt.le).trans (hr.userKey_le hg)
        exact absurd (hm.2.trans h1) hbefore
      · exact hlt

/-- What `SetupOtherInputs` makes of a selection of files of a level. -/
structure Compaction.SetUpFrom (c : Compaction K) (v : Version K) (level : ℕ) : Prop where
  /-- The level. -/
  level_eq : c.level = level
  /-- The input version. -/
  inputVersion : c.inputVersion = v
  /-- `inputs_[0]` are files of the level. -/
  inputs0 : c.inputs0.Sublist (v.files level)
  /-- `inputs_[1]` are files of the next level. -/
  inputs1 : c.inputs1.Sublist (v.files (level + 1))
  /-- There is something to compact. -/
  inputs0_ne : c.inputs0 ≠ []
  /-- Other files of the next level lie on one side of all inputs. -/
  outside : ∀ g ∈ v.files (level + 1), g ∉ c.inputs1 → c.OutsideInputs g
  /-- The edit has a compaction pointer only. -/
  edit : ∃ key, c.edit = VersionEdit.setCompactPointer {} level key

/-- `SetupOtherInputs` on a selection of files of a level. -/
theorem Version.setupOtherInputs_spec {v : Version K} (wf : v.WellFormed) {level : ℕ}
    {inputs0 : List (FileMetaData K)} (h0 : inputs0.Sublist (v.files level)) {c : Compaction K}
    (h : v.setupOtherInputs level inputs0 = some c) : c.SetUpFrom v level := by
  obtain ⟨smallest, largest, hr, hlevel, hv, hfin, limit, hlimit, hedit⟩ :=
    Version.setupOtherInputs_eq_some h
  have hd := wf.disjoint (level + 1) (by omega)
  have hne : c.inputs0 ≠ [] := by
    intro he
    rw [he] at hlimit
    simp [getRange] at hlimit
  -- The final inputs of the level with the range by which the next level was searched.
  have hfinal : ∃ lo hi, getRange c.inputs0 = some (lo, hi) ∧
      c.inputs1 = v.getOverlappingInputs (level + 1) lo hi ∧
      c.inputs0.Sublist (v.files level) := by
    have hin0 := congrArg Prod.fst hfin
    have hin1 := congrArg Prod.snd hfin
    simp only [Version.finalInputs] at hin0 hin1
    cases hg : v.growInputs level inputs0 (v.getOverlappingInputs (level + 1) smallest largest) with
    | none =>
      simp only [hg] at hin0 hin1
      exact ⟨smallest, largest, hin0 ▸ hr, hin1, hin0 ▸ h0⟩
    | some r =>
      obtain ⟨⟨allStart, allLimit⟩, exp0, exp1⟩ := r
      simp only [hg] at hin0 hin1
      obtain ⟨-, hexp0, newStart, newLimit, hrange0, hexp1⟩ := Version.growInputs_eq_some hg
      refine ⟨newStart, newLimit, hin0 ▸ hrange0, hin1.trans hexp1, ?_⟩
      rw [hin0, hexp0]
      exact List.filter_sublist
  obtain ⟨lo, hi, hrange, hin1, hin0⟩ := hfinal
  refine ⟨hlevel, hv, hin0, ?_, hne, fun g hg hout => ?_, limit, hedit⟩
  · rw [hin1]
    exact List.filter_sublist
  · exact v.outside_of_range hd (wf.ranged (level + 1)) hrange hin1 hg hout

end Order

end LevelDb
