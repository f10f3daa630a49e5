import LevelDb.Compaction.Outputs
import LevelDb.Compaction.Reads
import LevelDb.Version.Layout

/-!
# Installing a compaction

`InstallCompactionResults` replaces the inputs of a compaction by its outputs in the version that is
current then, which may have gained files since the compaction began; a trivial move is the case of
one file that is kept. The layout survives when every file of the output level that stays lies on one
side of all inputs (`Layout.install`, `Layout.move`).
-/

namespace LevelDb

open Lib

variable {K V : Type}

/-! ## The edits -/

/-- Deleting files of a level in an edit. -/
theorem foldl_deleteFile_eq (l : ℕ) : ∀ (files : List (FileMetaData K)) (edit : VersionEdit K),
    files.foldl (fun edit f => edit.deleteFile l f.number) edit =
      { edit with deletedFiles := edit.deletedFiles ++ files.map fun f => (l, f.number) }
  | [], edit => by simp
  | f :: files, edit => by
    rw [List.foldl_cons, foldl_deleteFile_eq l files]
    simp [VersionEdit.deleteFile]

section Edits

/-- The edit of `InstallCompactionResults`: the inputs are deleted and the outputs added. -/
theorem Compaction.resultEdit_eq (c : Compaction K)
    (outputs : List (FileMetaData K × List (Entry K V))) :
    c.resultEdit outputs =
      { c.edit with
        deletedFiles := c.edit.deletedFiles ++ c.inputs0.map (fun f => (c.level, f.number)) ++
          c.inputs1.map fun f => (c.level + 1, f.number)
        newFiles := c.edit.newFiles ++ outputs.map fun out => (c.level + 1, out.1) } := by
  have hadd : ∀ (outputs : List (FileMetaData K × List (Entry K V))) (edit : VersionEdit K),
      outputs.foldl (fun edit out => edit.addFile (c.level + 1) out.1.number out.1.fileSize
        out.1.smallest out.1.largest) edit =
        { edit with newFiles := edit.newFiles ++ outputs.map fun out => (c.level + 1, out.1) } := by
    intro outputs edit
    have := foldl_addFile_eq (c.level + 1) (outputs.map (·.1)) edit
    rw [List.foldl_map, List.map_map] at this
    exact this
  rw [resultEdit, hadd, addInputDeletions, foldl_deleteFile_eq, foldl_deleteFile_eq]

variable [LinearOrder K]

/-- What a compaction deletes from a version in which its inputs are live: exactly its inputs. -/
theorem Compaction.deleted_iff {c : Compaction K} {v : Version K} {tables : Tables K V}
    (h : v.Layout tables) (hdel : c.edit.deletedFiles = [])
    (h0 : ∀ f ∈ c.inputs0, f ∈ v.files c.level) (h1 : ∀ f ∈ c.inputs1, f ∈ v.files (c.level + 1))
    (outputs : List (FileMetaData K × List (Entry K V))) {l : ℕ} {g : FileMetaData K}
    (hg : g ∈ v.files l) :
    (l, g.number) ∈ (c.resultEdit outputs).deletedFiles ↔
      (l = c.level ∧ g ∈ c.inputs0) ∨ (l = c.level + 1 ∧ g ∈ c.inputs1) := by
  have hid : ∀ {f : FileMetaData K} {l' : ℕ}, f ∈ v.files l' → f.number = g.number → f = g :=
    fun hf hn => h.identify _ ⟨_, hf⟩ g ⟨_, hg⟩ hn
  rw [c.resultEdit_eq, hdel]
  simp only [List.nil_append, List.mem_append, List.mem_map, Prod.mk.injEq]
  refine or_congr ⟨?_, ?_⟩ ⟨?_, ?_⟩
  · rintro ⟨f, hf, rfl, hn⟩
    exact ⟨rfl, hid (h0 f hf) hn ▸ hf⟩
  · rintro ⟨rfl, hg'⟩
    exact ⟨g, hg', rfl, rfl⟩
  · rintro ⟨f, hf, rfl, hn⟩
    exact ⟨rfl, hid (h1 f hf) hn ▸ hf⟩
  · rintro ⟨rfl, hg'⟩
    exact ⟨g, hg', rfl, rfl⟩

end Edits

/-! ## The tables of the outputs -/

/-- Outputs do not touch other tables. -/
theorem addTables_of_ne : ∀ {outputs : List (FileMetaData K × List (Entry K V))}
    {tables : Tables K V} {n : ℕ}, (∀ out ∈ outputs, out.1.number ≠ n) →
    addTables tables outputs n = tables n
  | [], _, _, _ => rfl
  | out :: outputs, tables, n, h => by
    have hrest : addTables (Function.update tables out.1.number out.2) outputs n =
        Function.update tables out.1.number out.2 n :=
      addTables_of_ne fun o ho => h o (List.mem_cons_of_mem out ho)
    rw [addTables, List.foldl_cons]
    rw [addTables] at hrest
    rw [hrest, Function.update_of_ne (h out List.mem_cons_self).symm]

/-- Outputs have their tables, as their numbers differ. -/
theorem addTables_of_mem : ∀ {outputs : List (FileMetaData K × List (Entry K V))}
    {tables : Tables K V}, (outputs.map (·.1.number)).Pairwise (· < ·) →
    ∀ out ∈ outputs, addTables tables outputs out.1.number = out.2
  | out :: outputs, tables, h, out', hout' => by
    obtain ⟨hlt, hrest⟩ := List.pairwise_cons.mp (show (out.1.number ::
      outputs.map (·.1.number)).Pairwise (· < ·) from h)
    rw [addTables, List.foldl_cons]
    rcases List.mem_cons.mp hout' with rfl | hout'
    · have : addTables (Function.update tables out'.1.number out'.2) outputs out'.1.number =
          Function.update tables out'.1.number out'.2 out'.1.number :=
        addTables_of_ne fun o ho => (hlt _ (List.mem_map_of_mem ho)).ne'
      rw [addTables] at this
      rw [this, Function.update_self]
    · exact addTables_of_mem hrest out' hout'

variable [LinearOrder K]

/-! ## Inputs and outputs -/

/-- The outputs of a compaction: files with strictly increasing entries from the inputs, and numbers
that no live file has. -/
structure Compaction.Produces (c : Compaction K) (v : Version K) (tables : Tables K V)
    (outputs : List (FileMetaData K × List (Entry K V))) : Prop where
  /-- Metadata fit the entries. -/
  ends : ∀ out ∈ outputs, EndsOf out.2 out.1.smallest out.1.largest
  /-- Entries increase strictly over all outputs. -/
  sorted : KeySorted (outputs.flatMap (·.2))
  /-- Numbers increase. -/
  numbers : (outputs.map (·.1.number)).Pairwise (· < ·)
  /-- Numbers are new. -/
  number_ne : ∀ out ∈ outputs, ∀ g ∈ v.liveFiles, g.number ≠ out.1.number
  /-- Entries come from the inputs. -/
  entries : ∀ out ∈ outputs, ∀ e ∈ out.2, ∃ f ∈ c.inputs0 ++ c.inputs1, e ∈ tables f.number

/-- The inputs are live files of their levels, and every other file of the output level lies on one
side of all of them. -/
structure Compaction.LiveIn (c : Compaction K) (v : Version K) : Prop where
  /-- The output level exists. -/
  level_lt : c.level + 1 < kNumLevels
  /-- `inputs_[0]` are live. -/
  inputs0 : ∀ f ∈ c.inputs0, f ∈ v.files c.level
  /-- `inputs_[1]` are live. -/
  inputs1 : ∀ f ∈ c.inputs1, f ∈ v.files (c.level + 1)
  /-- Other files of the output level are outside. -/
  outside : ∀ g ∈ v.files (c.level + 1), g ∉ c.inputs1 → c.OutsideInputs g
  /-- The edit has a compaction pointer only. -/
  edit : ∃ l key, c.edit = VersionEdit.setCompactPointer {} l key

/-- The edit adds no files yet. -/
theorem Compaction.LiveIn.edit_newFiles {c : Compaction K} {v : Version K} (h : c.LiveIn v) :
    c.edit.newFiles = [] := by
  obtain ⟨l, key, he⟩ := h.edit
  rw [he]
  rfl

/-- The edit deletes no files yet. -/
theorem Compaction.LiveIn.edit_deletedFiles {c : Compaction K} {v : Version K} (h : c.LiveIn v) :
    c.edit.deletedFiles = [] := by
  obtain ⟨l, key, he⟩ := h.edit
  rw [he]
  rfl

/-- What `SetupOtherInputs` returns is live in the version. -/
theorem Compaction.SetUpFrom.liveIn {c : Compaction K} {v : Version K} {level : ℕ}
    (h : c.SetUpFrom v level) (hlevel : level + 1 < kNumLevels) : c.LiveIn v := by
  obtain rfl := h.level_eq
  exact ⟨hlevel, fun f hf => h.inputs0.subset hf, fun f hf => h.inputs1.subset hf, h.outside,
    c.level, h.edit⟩

/-- A compaction that `PickCompaction` returns was set up from the current version below the last
level. In the version set only a compaction pointer has moved. -/
theorem Version.Layout.pickCompaction_setUpFrom {vs vs' : VersionSet K} {tables : Tables K V}
    (h : vs.current.Layout tables) {c : Compaction K} (hpick : vs.pickCompaction = some (c, vs')) :
    c.SetUpFrom vs.current c.level ∧ c.level + 1 < kNumLevels ∧
      ∃ pointer, vs' = { vs with compactPointer := pointer } := by
  obtain ⟨f, hf, hset, hvs⟩ := VersionSet.pickCompaction_eq_some hpick
  have hmem := vs.pickFile_mem h.wf hf
  refine ⟨Version.setupOtherInputs_spec h.wf ?_ hset, ?_, _, hvs⟩
  · split_ifs with hl
    · rw [hl]
      exact List.filter_sublist
    · exact List.singleton_sublist.mpr hmem
  · unfold VersionSet.pickFile at hf
    split_ifs at hf
    · obtain ⟨g, -, hg⟩ := Option.map_eq_some_iff.mp hf
      rw [← (Prod.mk.inj hg).1]
      exact h.compactionLevel
    · obtain ⟨⟨g, l⟩, hg, hgf⟩ := Option.map_eq_some_iff.mp hf
      rw [← (Prod.mk.inj hgf).1]
      exact h.toCompact g l hg

/-- A compaction that `CompactRange` returns was set up from the current version. In the version set
only a compaction pointer has moved. -/
theorem Version.Layout.compactRange_setUpFrom {vs vs' : VersionSet K} {tables : Tables K V}
    (h : vs.current.Layout tables) {level : ℕ} {lo hi : InternalKey K} {c : Compaction K}
    (hrange : vs.compactRange level lo hi = some (c, vs')) :
    c.SetUpFrom vs.current level ∧ ∃ pointer, vs' = { vs with compactPointer := pointer } := by
  obtain ⟨hset, hvs⟩ := VersionSet.compactRange_eq_some hrange
  exact ⟨Version.setupOtherInputs_spec h.wf List.filter_sublist hset, _, hvs⟩

/-- A version may gain files, if those of the output level lie on one side of the inputs. -/
theorem Compaction.LiveIn.gain {c : Compaction K} {v v' : Version K} (h : c.LiveIn v)
    (hold : ∀ l g, g ∈ v.files l → g ∈ v'.files l)
    (hnew : ∀ g ∈ v'.files (c.level + 1), g ∈ v.files (c.level + 1) ∨ c.OutsideInputs g) :
    c.LiveIn v' := by
  refine ⟨h.level_lt, fun f hf => hold _ f (h.inputs0 f hf), fun f hf => hold _ f (h.inputs1 f hf),
    fun g hg hg1 => ?_, h.edit⟩
  rcases hnew g hg with hg | hg
  · exact h.outside g hg hg1
  · exact hg

/-- A file of a live compaction is in the version, at the level of the inputs to which it belongs. -/
theorem Compaction.LiveIn.mem_files {c : Compaction K} {v : Version K} (h : c.LiveIn v)
    {f : FileMetaData K} (hf : f ∈ c.inputs0 ++ c.inputs1) :
    (f ∈ c.inputs0 ∧ f ∈ v.files c.level) ∨ (f ∈ c.inputs1 ∧ f ∈ v.files (c.level + 1)) := by
  rcases List.mem_append.mp hf with hf | hf
  · exact Or.inl ⟨hf, h.inputs0 f hf⟩
  · exact Or.inr ⟨hf, h.inputs1 f hf⟩

/-- The input iterator over live files, each of them once, is strictly increasing. -/
theorem Version.Layout.makeInputIterator_keySorted {v : Version K} {tables : Tables K V}
    (h : v.Layout tables) {c : Compaction K} (hc : c.LiveIn v)
    (hnodup : (c.inputs0 ++ c.inputs1).Nodup) : KeySorted (c.makeInputIterator tables) := by
  have hlevel : ∀ f ∈ c.inputs0 ++ c.inputs1, ∃ l, f ∈ v.files l := by
    intro f hf
    rcases hc.mem_files hf with ⟨-, hf⟩ | ⟨-, hf⟩
    · exact ⟨_, hf⟩
    · exact ⟨_, hf⟩
  -- No two entries of the inputs have one sequence number.
  have hne : ((c.inputs0 ++ c.inputs1).flatMap fun f => tables f.number).Pairwise
      fun a b => a.key.sequence ≠ b.key.sequence := by
    refine List.pairwise_flatMap.mpr ⟨fun f hf => ?_, ?_⟩
    · obtain ⟨l, hl⟩ := hlevel f hf
      refine (h.hasTables l f hl).sorted.imp_of_mem fun {a b} ha hb hab heq => ?_
      rw [(h.separate l f hl l f hl a ha b hb heq).2.2] at hab
      exact lt_irrefl _ hab
    · refine List.Pairwise.imp_of_mem (fun {f g} hf hg hfg a ha b hb heq => ?_) hnodup
      obtain ⟨l, hl⟩ := hlevel f hf
      obtain ⟨l', hl'⟩ := hlevel g hg
      exact hfg (h.separate l f hl l' g hl' a ha b hb heq).2.1
  have hperm := List.perm_insertionSort (fun a b : Entry K V => a.key ≤ b.key)
    ((c.inputs0 ++ c.inputs1).flatMap fun f => tables f.number)
  have hne' : (c.makeInputIterator tables).Pairwise
      fun a b => a.key.sequence ≠ b.key.sequence :=
    hperm.symm.pairwise hne fun hab => hab.symm
  exact ((c.makeInputIterator_sorted tables).and hne').imp fun hab =>
    lt_of_le_of_ne hab.1 fun heq => hab.2 (by rw [heq])

/-- The inputs that `SetupOtherInputs` returns are different files. -/
theorem Compaction.SetUpFrom.nodup {c : Compaction K} {v : Version K} {tables : Tables K V}
    {level : ℕ} (h : c.SetUpFrom v level) (hv : v.Layout tables) :
    (c.inputs0 ++ c.inputs1).Nodup := by
  have hfiles : ∀ l, (v.files l).Nodup := by
    intro l
    refine List.Pairwise.imp (fun {f g} hfg heq => ?_) (hv.sorted l)
    subst heq
    exact bySmallestKey_asymm f f hfg hfg
  refine List.nodup_append.mpr ⟨(hfiles level).sublist h.inputs0,
    (hfiles (level + 1)).sublist h.inputs1, fun f hf g hg heq => ?_⟩
  have := hv.level_eq (h.inputs0.subset hf) (heq ▸ h.inputs1.subset hg)
  omega

/-- Two outputs that hold one key are the same. -/
theorem Compaction.Produces.eq_of_key {c : Compaction K} {v : Version K} {tables : Tables K V}
    {outputs : List (FileMetaData K × List (Entry K V))} (h : c.Produces v tables outputs)
    {a b : FileMetaData K × List (Entry K V)} (ha : a ∈ outputs) (hb : b ∈ outputs)
    {e : Entry K V} (hea : e ∈ a.2) (heb : e ∈ b.2) : a = b := by
  have hcross := (List.pairwise_flatMap.mp h.sorted).2
  rcases Lib.eq_or_rel_of_pairwise hcross ha hb with hsame | hlt | hgt
  · exact hsame
  · exact absurd (hlt e hea e heb) (lt_irrefl _)
  · exact absurd (hgt e heb e hea) (lt_irrefl _)

/-- Two outputs that have one number are the same. -/
theorem Compaction.Produces.eq_of_number {c : Compaction K} {v : Version K} {tables : Tables K V}
    {outputs : List (FileMetaData K × List (Entry K V))} (h : c.Produces v tables outputs)
    {a b : FileMetaData K × List (Entry K V)} (ha : a ∈ outputs) (hb : b ∈ outputs)
    (heq : a.1.number = b.1.number) : a = b := by
  rcases Lib.eq_or_rel_of_pairwise (List.pairwise_map.mp h.numbers) ha hb with hsame | hlt | hgt
  · exact hsame
  · exact absurd heq hlt.ne
  · exact absurd heq hgt.ne'

/-! ## The layout after a compaction -/

/-- A version has become another one by the outputs of a compaction in the place of its inputs. -/
structure Compaction.Replaces (c : Compaction K) (v : Version K) (tables : Tables K V)
    (outputs : List (FileMetaData K × List (Entry K V))) (v' : Version K) (tables' : Tables K V) :
    Prop where
  /-- Files that are no inputs stay, and the outputs are at the output level. -/
  mem_iff : ∀ l g, g ∈ v'.files l ↔
    (g ∈ v.files l ∧ ¬ (l = c.level ∧ g ∈ c.inputs0) ∧ ¬ (l = c.level + 1 ∧ g ∈ c.inputs1)) ∨
    (l = c.level + 1 ∧ ∃ out ∈ outputs, out.1 = g)
  /-- The tables of old files. -/
  tables_old : ∀ g ∈ v.liveFiles, tables' g.number = tables g.number
  /-- The tables of the outputs. -/
  tables_new : ∀ out ∈ outputs, tables' out.1.number = out.2

/-- Outputs hold entries of the inputs, so nothing new is stored. -/
theorem Compaction.Replaces.contents_subset {c : Compaction K} {v v' : Version K}
    {tables tables' : Tables K V} {outputs : List (FileMetaData K × List (Entry K V))}
    (h : c.Replaces v tables outputs v' tables') (hout : c.Produces v tables outputs)
    (hc : c.LiveIn v) : ∀ e ∈ v'.contents tables', e ∈ v.contents tables := by
  rintro e ⟨l, g, hg, he⟩
  rcases (h.mem_iff l g).mp hg with ⟨hg, -⟩ | ⟨-, out, ho, rfl⟩
  · exact ⟨l, g, hg, h.tables_old g ⟨l, hg⟩ ▸ he⟩
  · rw [h.tables_new out ho] at he
    obtain ⟨f, hf, hef⟩ := hout.entries out ho e he
    rcases hc.mem_files hf with ⟨-, hf⟩ | ⟨-, hf⟩
    · exact ⟨_, f, hf, hef⟩
    · exact ⟨_, f, hf, hef⟩

section

variable {vs : VersionSet K} {v : Version K} {tables : Tables K V} {c : Compaction K}
  {outputs : List (FileMetaData K × List (Entry K V))}

/-- The new files of the edit are the outputs. -/
theorem Compaction.LiveIn.mem_newFiles (hc : c.LiveIn v)
    (outputs : List (FileMetaData K × List (Entry K V))) (l : ℕ) (g : FileMetaData K) :
    (l, g) ∈ (c.resultEdit outputs).newFiles ↔ l = c.level + 1 ∧ ∃ out ∈ outputs, out.1 = g := by
  rw [c.resultEdit_eq, hc.edit_newFiles]
  simp only [List.nil_append, List.mem_map, Prod.mk.injEq]
  exact ⟨fun ⟨out, ho, h1, h2⟩ => ⟨h1.symm, out, ho, h2⟩, fun ⟨h1, out, ho, h2⟩ =>
    ⟨out, ho, h1.symm, h2⟩⟩

/-- The edit that installs the outputs adds files to existing levels, with new numbers that identify
them. -/
theorem Compaction.Produces.fits (hout : c.Produces v tables outputs) (hc : c.LiveIn v) :
    (c.resultEdit outputs).Fits v := by
  refine ⟨?_, ?_, ?_⟩
  · intro l g hg
    rw [((hc.mem_newFiles outputs l g).mp hg).1]
    exact hc.level_lt
  · intro l g hg x hx
    obtain ⟨-, out, ho, rfl⟩ := (hc.mem_newFiles outputs l g).mp hg
    exact hout.number_ne out ho x ⟨l, hx⟩
  · intro l g hg g' hg' hn
    obtain ⟨-, out, ho, rfl⟩ := (hc.mem_newFiles outputs l g).mp hg
    obtain ⟨-, out', ho', rfl⟩ := (hc.mem_newFiles outputs l g').mp hg'
    rw [hout.eq_of_number ho ho' hn]

/-- What is in the new version: files that are no inputs, and outputs. -/
theorem Compaction.Produces.mem_files_iff (hout : c.Produces vs.current tables outputs)
    (hc : c.LiveIn vs.current) (h : vs.current.Layout tables) (l : ℕ) (g : FileMetaData K) :
    g ∈ (vs.logAndApply (c.resultEdit outputs)).current.files l ↔
      (g ∈ vs.current.files l ∧ ¬(l = c.level ∧ g ∈ c.inputs0) ∧ ¬(l = c.level + 1 ∧ g ∈ c.inputs1)) ∨
        (l = c.level + 1 ∧ ∃ out ∈ outputs, out.1 = g) := by
  rw [VersionSet.logAndApply_turns h.wf.levels (hout.fits hc) l g, hc.mem_newFiles outputs l g]
  refine or_congr (and_congr_right fun hg => ?_) Iff.rfl
  rw [Compaction.deleted_iff h hc.edit_deletedFiles hc.inputs0 hc.inputs1 outputs hg, not_or]

/-- The range of an output lies within the ranges of inputs. -/
theorem Compaction.Produces.range (hout : c.Produces v tables outputs) (hc : c.LiveIn v)
    (h : v.Layout tables) {out : FileMetaData K × List (Entry K V)} (ho : out ∈ outputs) :
    (∃ f ∈ c.inputs0 ++ c.inputs1, f.smallest ≤ out.1.smallest) ∧
      ∃ f ∈ c.inputs0 ++ c.inputs1, out.1.largest ≤ f.largest := by
  have hin : ∀ e ∈ out.2, ∃ f ∈ c.inputs0 ++ c.inputs1, f.smallest ≤ e.key ∧ e.key ≤ f.largest := by
    intro e he
    obtain ⟨f, hf, hef⟩ := hout.entries out ho e he
    rcases hc.mem_files hf with ⟨-, hf'⟩ | ⟨-, hf'⟩
    · exact ⟨f, hf, (h.hasTables _ f hf').mem_range hef⟩
    · exact ⟨f, hf, (h.hasTables _ f hf').mem_range hef⟩
  have hholds := (outputs_disjoint hout.ends hout.sorted).1 out ho
  obtain ⟨a, ha, hak⟩ := hholds.exists_smallest
  obtain ⟨b, hb, hbk⟩ := hholds.exists_largest
  obtain ⟨f, hf, hfa, -⟩ := hin a ha
  obtain ⟨g, hg, -, hgb⟩ := hin b hb
  exact ⟨⟨f, hf, hak ▸ hfa⟩, g, hg, hbk ▸ hgb⟩

/-- A file that stays at the output level is on one side of the inputs, and so of an output. -/
theorem Compaction.Produces.beside (hout : c.Produces v tables outputs) (hc : c.LiveIn v)
    (h : v.Layout tables) {out : FileMetaData K × List (Entry K V)} (ho : out ∈ outputs)
    {g : FileMetaData K} (hg : g ∈ v.files (c.level + 1)) (hstay : g ∉ c.inputs1) :
    out.1.largest < g.smallest ∨ g.largest < out.1.smallest := by
  obtain ⟨⟨f, hf, hfs⟩, f', hf', hfl⟩ := hout.range hc h ho
  rcases hc.outside g hg hstay with hside | hside
  · exact Or.inr ((hside f hf).trans_le hfs)
  · exact Or.inl (hfl.trans_lt (hside f' hf'))

/-- Two entries with one sequence number, one of them in an output: the other one was in a file that is an
input, or it is in the same output. -/
theorem Compaction.Produces.entry_eq (hout : c.Produces v tables outputs) (hc : c.LiveIn v)
    (h : v.Layout tables) {out : FileMetaData K × List (Entry K V)} (ho : out ∈ outputs)
    {e e' : Entry K V} (he : e ∈ out.2) {l : ℕ} {g : FileMetaData K} (hg : g ∈ v.files l)
    (he' : e' ∈ tables g.number) (hseq : e.key.sequence = e'.key.sequence) :
    e = e' ∧ ((l = c.level ∧ g ∈ c.inputs0) ∨ (l = c.level + 1 ∧ g ∈ c.inputs1)) := by
  obtain ⟨f, hf, hef⟩ := hout.entries out ho e he
  rcases hc.mem_files hf with ⟨hf0, hlf⟩ | ⟨hf1, hlf⟩
  · obtain ⟨rfl, rfl, heq⟩ := h.separate _ f hlf l g hg e hef e' he' hseq
    exact ⟨heq, Or.inl ⟨rfl, hf0⟩⟩
  · obtain ⟨rfl, rfl, heq⟩ := h.separate _ f hlf l g hg e hef e' he' hseq
    exact ⟨heq, Or.inr ⟨rfl, hf1⟩⟩

/-- Installing the outputs of a compaction keeps the layout. -/
theorem Version.Layout.install (h : vs.current.Layout tables) (hc : c.LiveIn vs.current)
    (hout : c.Produces vs.current tables outputs) :
    (c.resultEdit outputs).Fits vs.current ∧
      (vs.logAndApply (c.resultEdit outputs)).current.Layout (LevelDb.addTables tables outputs) ∧
      c.Replaces vs.current tables outputs (vs.logAndApply (c.resultEdit outputs)).current
        (LevelDb.addTables tables outputs) := by
  have hfits := hout.fits hc
  have hmem := hc.mem_newFiles outputs
  have hstay := hout.mem_files_iff hc h
  obtain ⟨hholds, hdisj⟩ := outputs_disjoint hout.ends hout.sorted
  have htab : ∀ out ∈ outputs, LevelDb.addTables tables outputs out.1.number = out.2 :=
    addTables_of_mem hout.numbers
  have hsame : ∀ l, ∀ f ∈ vs.current.files l,
      LevelDb.addTables tables outputs f.number = tables f.number := fun l f hf =>
    addTables_of_ne fun out ho => (hout.number_ne out ho f ⟨l, hf⟩).symm
  refine ⟨hfits, h.logAndApply hfits hsame ?_ ?_ ?_, hstay, fun g ⟨l, hg⟩ => hsame l g hg, htab⟩
  · intro l g hg
    obtain ⟨-, out, ho, rfl⟩ := (hmem l g).mp hg
    rw [htab out ho]
    exact hholds out ho
  · intro l g _ hg x hx hne
    obtain ⟨rfl, out, ho, rfl⟩ := (hmem l g).mp hg
    rcases (hstay _ x).mp hx with ⟨hx, -, hx1⟩ | ⟨-, out', ho', rfl⟩
    · exact hout.beside hc h ho hx fun hin => hx1 ⟨rfl, hin⟩
    · rcases Lib.eq_or_rel_of_pairwise (List.pairwise_map.mp hdisj) ho ho' with rfl | hsides
      · exact absurd rfl hne
      · exact hsides
  · intro l g hg l' x hx e he e' he' hseq
    obtain ⟨rfl, out, ho, rfl⟩ := (hmem l g).mp hg
    rw [htab out ho] at he
    rcases (hstay l' x).mp hx with ⟨hx, hx0, hx1⟩ | ⟨rfl, out', ho', rfl⟩
    · -- A file that stays has no entry of an output.
      rw [hsame l' x hx] at he'
      exact absurd (hout.entry_eq hc h ho he hx he' hseq).2 (not_or.mpr ⟨hx0, hx1⟩)
    · rw [htab out' ho'] at he'
      obtain ⟨f', hf', hef'⟩ := hout.entries out' ho' e' he'
      have hentry : e = e' := by
        rcases hc.mem_files hf' with ⟨-, hlf'⟩ | ⟨-, hlf'⟩
        · exact (hout.entry_eq hc h ho he hlf' hef' hseq).1
        · exact (hout.entry_eq hc h ho he hlf' hef' hseq).1
      subst hentry
      exact ⟨rfl, by rw [hout.eq_of_key ho ho' he he'], rfl⟩

end

/-- A trivial move changes the level of its file only, and the version keeps its layout. -/
theorem Version.Layout.move {vs : VersionSet K} {tables : Tables K V}
    (h : vs.current.Layout tables) {c : Compaction K} (hc : c.LiveIn vs.current)
    {f : FileMetaData K} (h0 : c.inputs0 = [f]) (h1 : c.inputs1 = []) :
    (c.moveEdit f).Fits vs.current ∧
      (vs.logAndApply (c.moveEdit f)).current.Layout tables ∧
      ∀ l g, g ∈ (vs.logAndApply (c.moveEdit f)).current.files l ↔
        (g ∈ vs.current.files l ∧ g ≠ f) ∨ (l = c.level + 1 ∧ g = f) := by
  have hf : f ∈ vs.current.files c.level := hc.inputs0 f (by rw [h0]; simp)
  have hmem : ∀ l g, (l, g) ∈ (c.moveEdit f).newFiles ↔ l = c.level + 1 ∧ g = f := by
    intro l g
    simp [Compaction.moveEdit, VersionEdit.addFile, VersionEdit.deleteFile, hc.edit_newFiles]
  have hdel : ∀ l n, (l, n) ∈ (c.moveEdit f).deletedFiles ↔ l = c.level ∧ n = f.number := by
    intro l n
    simp [Compaction.moveEdit, VersionEdit.addFile, VersionEdit.deleteFile, hc.edit_deletedFiles]
  -- The file is at its old level only.
  have hother : ∀ l g, g ∈ vs.current.files l → g.number = f.number → l = c.level ∧ g = f := by
    intro l g hg hn
    obtain rfl := h.identify g ⟨l, hg⟩ f ⟨_, hf⟩ hn
    exact ⟨h.level_eq hg hf, rfl⟩
  have hfits : (c.moveEdit f).Fits vs.current := by
    refine ⟨?_, ?_, ?_⟩
    · intro l g hg
      rw [((hmem l g).mp hg).1]
      exact hc.level_lt
    · intro l g hg x hx hn
      obtain ⟨rfl, rfl⟩ := (hmem l g).mp hg
      have := (hother _ x hx hn).1
      omega
    · intro l g hg g' hg' _
      rw [((hmem l g).mp hg).2, ((hmem l g').mp hg').2]
  have hturns := VersionSet.logAndApply_turns h.wf.levels hfits
  have hstay : ∀ l g, g ∈ (vs.logAndApply (c.moveEdit f)).current.files l ↔
      (g ∈ vs.current.files l ∧ g ≠ f) ∨ (l = c.level + 1 ∧ g = f) := by
    intro l g
    rw [hturns l g, hmem l g]
    refine or_congr (and_congr_right fun hg => not_congr ?_) Iff.rfl
    rw [hdel]
    exact ⟨fun hd => (hother l g hg hd.2).2, fun he => ⟨(hother l g hg (by rw [he])).1, by rw [he]⟩⟩
  refine ⟨hfits, h.logAndApply hfits (fun _ _ _ => rfl) ?_ ?_ ?_, hstay⟩
  · intro l g hg
    rw [((hmem l g).mp hg).2]
    exact h.hasTables _ f hf
  · intro l g _ hg x hx hne
    obtain ⟨rfl, rfl⟩ := (hmem l g).mp hg
    rcases (hstay _ x).mp hx with ⟨hx, -⟩ | ⟨-, rfl⟩
    · rcases hc.outside x hx (by simp [h1]) with hside | hside
      · exact Or.inr (hside g (by simp [h0]))
      · exact Or.inl (hside g (by simp [h0]))
    · exact absurd rfl hne
  · intro l g hg l' x hx e he e' he' hseq
    obtain ⟨rfl, rfl⟩ := (hmem l g).mp hg
    rcases (hstay l' x).mp hx with ⟨hx, hne⟩ | ⟨rfl, rfl⟩
    · exact absurd (h.separate _ g hf l' x hx e he e' he' hseq).2.1 hne.symm
    · exact ⟨rfl, rfl, (h.separate _ x hf _ x hf e he e' he' hseq).2.2⟩

end LevelDb
