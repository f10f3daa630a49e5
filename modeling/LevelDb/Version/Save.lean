import LevelDb.Version.Edit
import LevelDb.Version.Tables

/-!
# What `SaveTo` saves

The builder of a version set works on sorted lists and sets of file numbers. This file says what it
computes as a set: a level keeps the files that an edit does not delete and gains those that it adds
(`mem_applyEdit`), in the order of `BySmallestKey` (`applyEdit_sorted`). Replaying the records of a
manifest into one builder, as `VersionSet::Recover` does, gives the same files as applying them one
after the other (`recover_files`).
-/

namespace LevelDb

variable {K V : Type} [LinearOrder K]

/-! ## The order of files -/

/-- The order `BySmallestKey` of the files in a level is transitive. -/
theorem bySmallestKey_trans {f g h : FileMetaData K} (hfg : bySmallestKey f g)
    (hgh : bySmallestKey g h) : bySmallestKey f h := by
  rcases hfg with hfg | ⟨hfg, hn⟩
  · rcases hgh with hgh | ⟨hgh, -⟩
    · exact Or.inl (hfg.trans hgh)
    · exact Or.inl (hgh ▸ hfg)
  · rcases hgh with hgh | ⟨hgh, hn'⟩
    · exact Or.inl (hfg ▸ hgh)
    · exact Or.inr ⟨hfg.trans hgh, hn.trans hn'⟩

/-- No two files come before each other in the order `BySmallestKey`. -/
theorem bySmallestKey_asymm (f g : FileMetaData K) (hfg : bySmallestKey f g) :
    ¬ bySmallestKey g f := by
  rintro (hgf | ⟨hgf, hn⟩)
  · rcases hfg with hfg | ⟨hfg, -⟩
    · exact lt_asymm hfg hgf
    · exact lt_irrefl _ (hfg ▸ hgf)
  · rcases hfg with hfg | ⟨-, hn'⟩
    · exact lt_irrefl _ (hgf ▸ hfg)
    · exact lt_asymm hn hn'

/-- Files of different numbers are ordered. -/
theorem bySmallestKey_or {f g : FileMetaData K} (h : f.number ≠ g.number) :
    bySmallestKey f g ∨ bySmallestKey g f := by
  rcases lt_trichotomy f.smallest g.smallest with hlt | heq | hlt
  · exact Or.inl (Or.inl hlt)
  · rcases Nat.lt_or_gt_of_ne h with hn | hn
    · exact Or.inl (Or.inr ⟨heq, hn⟩)
    · exact Or.inr (Or.inr ⟨heq.symm, hn⟩)
  · exact Or.inr (Or.inl hlt)

/-- The order that `SaveTo` keeps in every level. -/
def FilesSorted (files : List (FileMetaData K)) : Prop := files.Pairwise bySmallestKey

/-- A sorted list of files comes by increasing smallest key. -/
theorem FilesSorted.smallestSorted {files : List (FileMetaData K)} (h : FilesSorted files) :
    SmallestSorted files :=
  h.imp fun hfg => hfg.elim le_of_lt fun h => h.1.le

/-- A sorted list of files whose ranges are pairwise apart is disjoint. -/
theorem FilesSorted.disjointSorted {files : List (FileMetaData K)} (h : FilesSorted files)
    (hr : Ranged files)
    (hapart : ∀ f ∈ files, ∀ g ∈ files, f ≠ g → f.largest < g.smallest ∨ g.largest < f.smallest) :
    DisjointSorted files := by
  refine h.imp_of_mem fun {f g} hf hg hfg => ?_
  have hne : f ≠ g := fun e => bySmallestKey_asymm f g hfg (e ▸ hfg)
  refine (hapart f hf g hg hne).resolve_right fun hgf => ?_
  -- `g` cannot end before `f` starts, since `f` starts first.
  have hle : f.smallest ≤ g.smallest := hfg.elim le_of_lt fun h => h.1.le
  exact absurd ((hr g hg).trans_lt hgf) (not_lt.mpr hle)

/-! ## Merging -/

/-- What is in the set after `insertFile` is the new file or was there before. -/
theorem eq_or_mem_of_mem_insertFile {f g : FileMetaData K} : ∀ {files : List (FileMetaData K)},
    g ∈ insertFile f files → g = f ∨ g ∈ files
  | [], h => by simpa [insertFile] using h
  | a :: files, h => by
    rw [insertFile] at h
    split_ifs at h
    · simpa using h
    · rcases List.mem_cons.mp h with rfl | h
      · exact Or.inr List.mem_cons_self
      · exact (eq_or_mem_of_mem_insertFile h).imp_right (List.mem_cons_of_mem a)
    · exact Or.inr h

/-- `insertFile` takes no file out of the set. -/
theorem mem_insertFile_of_mem {f g : FileMetaData K} : ∀ {files : List (FileMetaData K)},
    g ∈ files → g ∈ insertFile f files
  | a :: files, h => by
    rw [insertFile]
    split_ifs
    · exact List.mem_cons_of_mem f h
    · rcases List.mem_cons.mp h with rfl | h
      · exact List.mem_cons_self
      · exact List.mem_cons_of_mem a (mem_insertFile_of_mem h)
    · exact h

/-- `insertFile` adds its file, unless another file has its number. -/
theorem self_mem_insertFile {f : FileMetaData K} : ∀ {files : List (FileMetaData K)},
    (∀ g ∈ files, g.number = f.number → g = f) → f ∈ insertFile f files
  | [], _ => by simp [insertFile]
  | a :: files, h => by
    rw [insertFile]
    split_ifs with h1 h2
    · exact List.mem_cons_self
    · exact List.mem_cons_of_mem a
        (self_mem_insertFile fun g hg => h g (List.mem_cons_of_mem a hg))
    · -- A tie is a file of the same number.
      have hn : a.number = f.number := by
        by_contra hne
        exact (bySmallestKey_or hne).elim h2 h1
      rw [h a List.mem_cons_self hn]
      exact List.mem_cons_self

/-- `insertFile` puts its file at its place in the order of `BySmallestKey`. -/
theorem insertFile_sorted {f : FileMetaData K} : ∀ {files : List (FileMetaData K)},
    FilesSorted files → FilesSorted (insertFile f files)
  | [], _ => List.pairwise_singleton _ _
  | a :: files, h => by
    obtain ⟨ha, hs⟩ := List.pairwise_cons.mp h
    rw [insertFile]
    split_ifs with h1 h2
    · refine List.pairwise_cons.mpr ⟨fun g hg => ?_, h⟩
      rcases List.mem_cons.mp hg with rfl | hg
      · exact h1
      · exact bySmallestKey_trans h1 (ha g hg)
    · refine List.pairwise_cons.mpr ⟨fun g hg => ?_, insertFile_sorted hs⟩
      rcases eq_or_mem_of_mem_insertFile hg with rfl | hg
      · exact h2
      · exact ha g hg
    · exact h

/-- The merge has the files of both lists. -/
theorem mem_mergeFiles {f : FileMetaData K} : ∀ {added base : List (FileMetaData K)},
    f ∈ mergeFiles base added ↔ f ∈ base ∨ f ∈ added
  | [], base => by simp [mergeFiles]
  | a :: added, base => by
    rw [mergeFiles, List.mem_append, List.mem_cons, mem_mergeFiles, List.mem_cons]
    conv_rhs => rw [← List.takeWhile_append_dropWhile (p := fun b => !decide (bySmallestKey a b))
      (l := base), List.mem_append]
    simp only [or_assoc, or_left_comm]

/-- The merge of sorted lists of comparable files is sorted. -/
theorem mergeFiles_sorted : ∀ {added base : List (FileMetaData K)}, FilesSorted base →
    FilesSorted added → (∀ b ∈ base, ∀ a ∈ added, bySmallestKey a b ∨ bySmallestKey b a) →
    FilesSorted (mergeFiles base added)
  | [], base, hb, _, _ => by simpa [mergeFiles] using hb
  | a :: added, base, hb, ha, hcomp => by
    obtain ⟨ha1, ha2⟩ := List.pairwise_cons.mp ha
    set p : FileMetaData K → Bool := fun b => !decide (bySmallestKey a b) with hp
    have hsplit : base.takeWhile p ++ base.dropWhile p = base := List.takeWhile_append_dropWhile
    obtain ⟨-, hdrop, hcross⟩ := List.pairwise_append.mp (show FilesSorted _ from hsplit ▸ hb)
    -- The base files taken come before `a`, the others after it.
    have hbefore : ∀ x ∈ base.takeWhile p, bySmallestKey x a := by
      intro x hx
      have hnot : ¬ bySmallestKey a x := by simpa [hp] using List.mem_takeWhile_imp hx
      exact (hcomp x ((List.takeWhile_sublist p).subset hx) a List.mem_cons_self).resolve_left hnot
    have hafter : ∀ y ∈ base.dropWhile p, bySmallestKey a y := by
      cases hd : base.dropWhile p with
      | nil => simp
      | cons d rest =>
        have hda : bySmallestKey a d := by
          have := List.head?_dropWhile_not p base
          rw [hd] at this
          simpa [hp] using this
        rw [hd] at hdrop
        intro y hy
        rcases List.mem_cons.mp hy with rfl | hy
        · exact hda
        · exact bySmallestKey_trans hda ((List.pairwise_cons.mp hdrop).1 y hy)
    have hrest : FilesSorted (mergeFiles (base.dropWhile p) added) :=
      mergeFiles_sorted hdrop ha2 fun b hb' c hc =>
        hcomp b ((List.dropWhile_sublist p).subset hb') c (List.mem_cons_of_mem a hc)
    rw [mergeFiles]
    refine List.pairwise_append.mpr
      ⟨hb.sublist (List.takeWhile_sublist p), List.pairwise_cons.mpr ⟨fun y hy => ?_, hrest⟩, ?_⟩
    · rcases mem_mergeFiles.mp hy with hy | hy
      · exact hafter y hy
      · exact ha1 y hy
    · intro x hx y hy
      rcases List.mem_cons.mp hy with rfl | hy
      · exact hbefore x hx
      · rcases mem_mergeFiles.mp hy with hy | hy
        · exact hcross x hx y hy
        · exact bySmallestKey_trans (hbefore x hx) (ha1 y hy)

/-- `SaveTo` keeps the files of both lists that are not deleted. -/
theorem mem_saveLevel {base : List (FileMetaData K)} {state : LevelState K} {f : FileMetaData K} :
    f ∈ saveLevel base state ↔
      (f ∈ base ∨ f ∈ state.addedFiles) ∧ f.number ∉ state.deletedFiles := by
  rw [saveLevel, List.mem_filter, mem_mergeFiles]
  simp

/-! ## Applying edits -/

/-- The level to which a file is added has it among its added files, and not among its deleted ones. -/
theorem Builder.addFile_levels_self (b : Builder K) (l : ℕ) (f : FileMetaData K) :
    (b.addFile (l, f)).levels l =
      { deletedFiles := (b.levels l).deletedFiles.filter (· ≠ f.number)
        addedFiles := insertFile f (b.levels l).addedFiles } := by
  simp [addFile]

/-- The levels to which a file is not added stay as they are. -/
theorem Builder.addFile_levels_of_ne (b : Builder K) {l l' : ℕ} (h : l ≠ l') (f : FileMetaData K) :
    (b.addFile (l', f)).levels l = b.levels l := by
  simp [addFile, h]

omit [LinearOrder K] in
/-- The deletions of an edit only touch the set of deleted files. -/
theorem foldl_deleteFile (l : ℕ) : ∀ (ds : List (ℕ × ℕ)) (b : Builder K),
    ((ds.foldl Builder.deleteFile b).levels l).addedFiles = (b.levels l).addedFiles ∧
      ∀ n, n ∈ ((ds.foldl Builder.deleteFile b).levels l).deletedFiles ↔
        n ∈ (b.levels l).deletedFiles ∨ (l, n) ∈ ds
  | [], b => by simp
  | d :: ds, b => by
    obtain ⟨ih1, ih2⟩ := foldl_deleteFile l ds (b.deleteFile d)
    rw [List.foldl_cons]
    refine ⟨ih1.trans ?_, fun n => (ih2 n).trans ?_⟩
    · rcases eq_or_ne l d.1 with rfl | hne
      · simp [Builder.deleteFile]
      · simp [Builder.deleteFile, Function.update_of_ne hne]
    · rcases eq_or_ne l d.1 with rfl | hne
      · simp [Builder.deleteFile, Prod.ext_iff, or_assoc, or_left_comm]
      · simp [Builder.deleteFile, Prod.ext_iff, hne]

/-- What adding files does to the set of deleted files. -/
theorem mem_foldl_addFile_deletedFiles (l n : ℕ) :
    ∀ (fs : List (ℕ × FileMetaData K)) (b : Builder K),
    n ∈ ((fs.foldl Builder.addFile b).levels l).deletedFiles ↔
      n ∈ (b.levels l).deletedFiles ∧ ∀ f, (l, f) ∈ fs → f.number ≠ n
  | [], b => by simp
  | a :: fs, b => by
    rw [List.foldl_cons, mem_foldl_addFile_deletedFiles l n fs]
    obtain ⟨la, fa⟩ := a
    rcases eq_or_ne l la with rfl | hne
    · rw [Builder.addFile_levels_self, List.mem_filter, and_assoc]
      refine and_congr Iff.rfl ?_
      simp only [List.mem_cons, Prod.mk.injEq, true_and, forall_eq_or_imp, decide_eq_true_eq]
      exact and_congr ne_comm Iff.rfl
    · simp [Builder.addFile_levels_of_ne b hne, hne]

/-- What a level has after the files of an edit were added was there before or is one of them. -/
theorem mem_of_mem_foldl_addFile (l : ℕ) {f : FileMetaData K} :
    ∀ {fs : List (ℕ × FileMetaData K)} {b : Builder K},
    f ∈ ((fs.foldl Builder.addFile b).levels l).addedFiles →
      f ∈ (b.levels l).addedFiles ∨ (l, f) ∈ fs
  | [], b, h => Or.inl h
  | a :: fs, b, h => by
    obtain ⟨la, fa⟩ := a
    rcases mem_of_mem_foldl_addFile l (show f ∈ ((fs.foldl Builder.addFile
        (b.addFile (la, fa))).levels l).addedFiles from h) with h | h
    · rcases eq_or_ne l la with rfl | hne
      · rw [Builder.addFile_levels_self] at h
        rcases eq_or_mem_of_mem_insertFile h with rfl | h
        · exact Or.inr List.mem_cons_self
        · exact Or.inl h
      · rw [Builder.addFile_levels_of_ne b hne] at h
        exact Or.inl h
    · exact Or.inr (List.mem_cons_of_mem _ h)

/-- Adding files keeps what is there. -/
theorem mem_foldl_addFile_of_mem (l : ℕ) {f : FileMetaData K} :
    ∀ {fs : List (ℕ × FileMetaData K)} {b : Builder K}, f ∈ (b.levels l).addedFiles →
      f ∈ ((fs.foldl Builder.addFile b).levels l).addedFiles
  | [], b, h => h
  | a :: fs, b, h => by
    rw [List.foldl_cons]
    refine mem_foldl_addFile_of_mem l ?_
    obtain ⟨la, fa⟩ := a
    rcases eq_or_ne l la with rfl | hne
    · rw [Builder.addFile_levels_self]
      exact mem_insertFile_of_mem h
    · rwa [Builder.addFile_levels_of_ne b hne]

/-- Files are told apart by their numbers. -/
def NumbersIdentify (files : Set (FileMetaData K)) : Prop :=
  ∀ f ∈ files, ∀ g ∈ files, f.number = g.number → f = g

/-- Adding files adds all of them, as long as numbers identify files. -/
theorem mem_foldl_addFile_of_mem_new (l : ℕ) {f : FileMetaData K} :
    ∀ {fs : List (ℕ × FileMetaData K)} {b : Builder K},
    NumbersIdentify {g | g ∈ (b.levels l).addedFiles ∨ (l, g) ∈ fs} → (l, f) ∈ fs →
      f ∈ ((fs.foldl Builder.addFile b).levels l).addedFiles
  | a :: fs, b, hid, h => by
    obtain ⟨la, fa⟩ := a
    rw [List.foldl_cons]
    rcases List.mem_cons.mp h with heq | h
    · obtain ⟨rfl, rfl⟩ := Prod.mk.inj heq
      refine mem_foldl_addFile_of_mem l ?_
      rw [Builder.addFile_levels_self]
      exact self_mem_insertFile fun g hg hn =>
        hid g (Or.inl hg) f (Or.inr List.mem_cons_self) hn
    · refine mem_foldl_addFile_of_mem_new l ?_ h
      intro g hg g' hg' hn
      -- Whatever is there after one addition was there before or is the file added.
      have hsub : ∀ x, x ∈ ((b.addFile (la, fa)).levels l).addedFiles ∨ (l, x) ∈ fs →
          x ∈ (b.levels l).addedFiles ∨ (l, x) ∈ (la, fa) :: fs := by
        rintro x (hx | hx)
        · exact mem_of_mem_foldl_addFile l (show x ∈ (([(la, fa)].foldl Builder.addFile b).levels
            l).addedFiles from hx) |>.imp_right fun hx' =>
            List.mem_cons.mpr (Or.inl (List.mem_singleton.mp hx'))
        · exact Or.inr (List.mem_cons_of_mem _ hx)
      exact hid g (hsub g hg) g' (hsub g' hg') hn

/-- Adding the files of an edit keeps each level in the order of `BySmallestKey`. -/
theorem foldl_addFile_sorted (l : ℕ) : ∀ (fs : List (ℕ × FileMetaData K)) (b : Builder K),
    FilesSorted (b.levels l).addedFiles →
    FilesSorted ((fs.foldl Builder.addFile b).levels l).addedFiles
  | [], b, h => h
  | a :: fs, b, h => by
    rw [List.foldl_cons]
    refine foldl_addFile_sorted l fs _ ?_
    obtain ⟨la, fa⟩ := a
    rcases eq_or_ne l la with rfl | hne
    · rw [Builder.addFile_levels_self]
      exact insertFile_sorted h
    · rwa [Builder.addFile_levels_of_ne b hne]

/-- `Apply` leaves a number deleted if it was, or the edit deletes it, and the edit does not add it. -/
theorem Builder.mem_apply_deletedFiles {b : Builder K} {edit : VersionEdit K} {l n : ℕ} :
    n ∈ ((b.apply edit).levels l).deletedFiles ↔
      (n ∈ (b.levels l).deletedFiles ∨ (l, n) ∈ edit.deletedFiles) ∧
        ∀ f, (l, f) ∈ edit.newFiles → f.number ≠ n := by
  rw [Builder.apply, mem_foldl_addFile_deletedFiles, (foldl_deleteFile l _ b).2]

/-- `Apply` has added the files that were there before and those of the edit. -/
theorem Builder.mem_apply_addedFiles {b : Builder K} {edit : VersionEdit K} {l : ℕ}
    (hid : NumbersIdentify {g | g ∈ (b.levels l).addedFiles ∨ (l, g) ∈ edit.newFiles})
    {f : FileMetaData K} :
    f ∈ ((b.apply edit).levels l).addedFiles ↔
      f ∈ (b.levels l).addedFiles ∨ (l, f) ∈ edit.newFiles := by
  have hdel := (foldl_deleteFile l edit.deletedFiles b).1
  rw [Builder.apply]
  constructor
  · intro h
    have := mem_of_mem_foldl_addFile l h
    rwa [hdel] at this
  · rintro (h | h)
    · exact mem_foldl_addFile_of_mem l (hdel ▸ h)
    · exact mem_foldl_addFile_of_mem_new l (by rwa [hdel]) h

/-- The files that `Apply` has added are in order. -/
theorem Builder.apply_sorted {b : Builder K} {edit : VersionEdit K} {l : ℕ}
    (h : FilesSorted (b.levels l).addedFiles) :
    FilesSorted ((b.apply edit).levels l).addedFiles := by
  rw [Builder.apply]
  refine foldl_addFile_sorted l _ _ ?_
  rwa [(foldl_deleteFile l edit.deletedFiles b).1]

/-- An edit fits a version: it adds files to existing levels, with numbers that identify them and
that no file of the level has. -/
structure VersionEdit.Fits (edit : VersionEdit K) (v : Version K) : Prop where
  /-- The levels exist. -/
  levels : ∀ l f, (l, f) ∈ edit.newFiles → l < kNumLevels
  /-- The added files are new to their level. -/
  fresh : ∀ l f, (l, f) ∈ edit.newFiles → ∀ g ∈ v.files l, g.number ≠ f.number
  /-- The numbers of the added files identify them. -/
  identify : ∀ l, NumbersIdentify {f | (l, f) ∈ edit.newFiles}

/-- `v'` is `v` with the deletions and additions of the edit. -/
def VersionEdit.Turns (edit : VersionEdit K) (v v' : Version K) : Prop :=
  ∀ l f, f ∈ v'.files l ↔
    (f ∈ v.files l ∧ (l, f.number) ∉ edit.deletedFiles) ∨ (l, f) ∈ edit.newFiles

omit [LinearOrder K] in
@[simp] theorem VersionSet.completeEdit_newFiles (vs : VersionSet K) (edit : VersionEdit K) :
    (vs.completeEdit edit).newFiles = edit.newFiles := rfl

omit [LinearOrder K] in
@[simp] theorem VersionSet.completeEdit_deletedFiles (vs : VersionSet K) (edit : VersionEdit K) :
    (vs.completeEdit edit).deletedFiles = edit.deletedFiles := rfl

/-- `LogAndApply` saves each of the `kNumLevels` levels from its files before and the builder of the
edit. -/
theorem VersionSet.logAndApply_files (vs : VersionSet K) (edit : VersionEdit K) (l : ℕ) :
    (vs.logAndApply edit).current.files l =
      if l < kNumLevels then
        saveLevel (vs.current.files l) ((({} : Builder K).apply (vs.completeEdit edit)).levels l)
      else [] := by
  simp only [logAndApply, finalize_files, Builder.saveTo]

/-- The files that a fresh builder adds for a fitting edit. -/
theorem VersionEdit.Fits.mem_addedFiles {edit : VersionEdit K} {vs : VersionSet K}
    (hfits : edit.Fits vs.current) {l : ℕ} {f : FileMetaData K} :
    f ∈ ((({} : Builder K).apply (vs.completeEdit edit)).levels l).addedFiles ↔
      (l, f) ∈ edit.newFiles := by
  rw [Builder.mem_apply_addedFiles]
  · simp
  · simpa using hfits.identify l

/-- What `LogAndApply` makes of the current version. -/
theorem VersionSet.logAndApply_turns {vs : VersionSet K} {edit : VersionEdit K}
    (hlevels : ∀ l, kNumLevels ≤ l → vs.current.files l = []) (hfits : edit.Fits vs.current) :
    edit.Turns vs.current (vs.logAndApply edit).current := by
  intro l f
  rw [logAndApply_files]
  split_ifs with hl
  · rw [mem_saveLevel, hfits.mem_addedFiles, Builder.mem_apply_deletedFiles]
    simp only [List.not_mem_nil, false_or, completeEdit_newFiles, completeEdit_deletedFiles]
    constructor
    · rintro ⟨hf | hf, hdel⟩
      · by_cases hd : (l, f.number) ∈ edit.deletedFiles
        · -- A deleted file stays only if its number is added again, which fitting rules out.
          by_contra
          refine hdel ⟨hd, fun g hg hn => hfits.fresh l g hg f hf hn.symm⟩
        · exact Or.inl ⟨hf, hd⟩
      · exact Or.inr hf
    · rintro (⟨hf, hd⟩ | hf)
      · exact ⟨Or.inl hf, fun h => hd h.1⟩
      · exact ⟨Or.inr hf, fun h => h.2 f hf rfl⟩
  · simp only [List.not_mem_nil, hlevels l (by omega), false_and, false_or, false_iff]
    exact fun h => hl (hfits.levels l f h)

/-- `LogAndApply` keeps the order of the levels. -/
theorem VersionSet.logAndApply_sorted {vs : VersionSet K} {edit : VersionEdit K}
    (hfits : edit.Fits vs.current) {l : ℕ} (h : FilesSorted (vs.current.files l)) :
    FilesSorted ((vs.logAndApply edit).current.files l) := by
  rw [logAndApply_files]
  split_ifs
  · refine List.Pairwise.filter _ (mergeFiles_sorted h (Builder.apply_sorted List.Pairwise.nil) ?_)
    intro b hb a ha
    exact bySmallestKey_or (hfits.fresh l a (hfits.mem_addedFiles.mp ha) b hb).symm
  · exact List.Pairwise.nil

/-- `LogAndApply` saves nothing beyond the levels. -/
theorem VersionSet.logAndApply_levels (vs : VersionSet K) (edit : VersionEdit K) {l : ℕ}
    (h : kNumLevels ≤ l) : (vs.logAndApply edit).current.files l = [] := by
  rw [logAndApply_files, if_neg (by omega)]

/-! ## Replaying a manifest -/

/-- A builder over the empty version represents a version. -/
structure Builder.Represents (b : Builder K) (v : Version K) : Prop where
  /-- The files of a level are the added ones that are not deleted. -/
  mem_iff : ∀ l f, f ∈ v.files l ↔
    l < kNumLevels ∧ f ∈ (b.levels l).addedFiles ∧ f.number ∉ (b.levels l).deletedFiles
  /-- The added files are in order. -/
  sorted : ∀ l, FilesSorted (b.levels l).addedFiles

/-- All files that the builder has added. -/
def Builder.allFiles (b : Builder K) : Set (FileMetaData K) :=
  {f | ∃ l, f ∈ (b.levels l).addedFiles}

/-- Saving a builder over the empty version gives the version that it represents. -/
theorem Builder.Represents.saveTo_files {b : Builder K} {v : Version K} (h : b.Represents v)
    (hv : ∀ l, FilesSorted (v.files l)) : (b.saveTo {}).files = v.files := by
  funext l
  have hmem : ∀ f, f ∈ (b.saveTo {}).files l ↔ f ∈ v.files l := by
    intro f
    rw [h.mem_iff]
    simp only [Builder.saveTo]
    split_ifs with hl
    · rw [mem_saveLevel]
      simp [hl]
    · simp [hl]
  refine Lib.eq_of_pairwise_of_mem_iff bySmallestKey_asymm ?_ (hv l) hmem
  simp only [Builder.saveTo]
  split_ifs
  · exact List.Pairwise.filter _ (mergeFiles_sorted List.Pairwise.nil (h.sorted l) (by simp))
  · exact List.Pairwise.nil

/-- Applying a further edit represents the version that the edit leads to, as long as numbers
identify the files that were added to a level. -/
theorem Builder.Represents.apply {b : Builder K} {v v' : Version K} (h : b.Represents v)
    {edit : VersionEdit K} (hlevels : ∀ l f, (l, f) ∈ edit.newFiles → l < kNumLevels)
    (hturns : edit.Turns v v')
    (hid : ∀ l, NumbersIdentify {f | f ∈ (b.levels l).addedFiles ∨ (l, f) ∈ edit.newFiles}) :
    (b.apply edit).Represents v' := by
  refine ⟨fun l f => ?_, fun l => Builder.apply_sorted (h.sorted l)⟩
  have hid' := hid l
  rw [hturns l f, h.mem_iff, Builder.mem_apply_addedFiles hid', Builder.mem_apply_deletedFiles]
  constructor
  · rintro (⟨⟨hl, hf, hn⟩, hd⟩ | hf)
    · exact ⟨hl, Or.inl hf, fun hdel => hdel.1.elim hn hd⟩
    · exact ⟨hlevels l f hf, Or.inr hf, fun hdel => hdel.2 f hf rfl⟩
  · rintro ⟨hl, hf | hf, hdel⟩
    · by_cases hnew : ∃ g, (l, g) ∈ edit.newFiles ∧ g.number = f.number
      · -- The number was added again, so this is the file that was added.
        obtain ⟨g, hg, hgn⟩ := hnew
        exact Or.inr (hid' g (Or.inr hg) f (Or.inl hf) hgn ▸ hg)
      · have hkeep := fun hd => hdel ⟨hd, fun g hg hgn => hnew ⟨g, hg, hgn⟩⟩
        exact Or.inl ⟨⟨hl, hf, fun hn => hkeep (Or.inl hn)⟩, fun hd => hkeep (Or.inr hd)⟩
    · exact Or.inr hf

/-- The files that a builder has added after an edit. -/
theorem Builder.allFiles_apply {b : Builder K} {edit : VersionEdit K} {f : FileMetaData K}
    (h : f ∈ (b.apply edit).allFiles) : f ∈ b.allFiles ∨ ∃ l, (l, f) ∈ edit.newFiles := by
  obtain ⟨l, hf⟩ := h
  rw [Builder.apply] at hf
  rcases mem_of_mem_foldl_addFile l hf with hf | hf
  · rw [(foldl_deleteFile l edit.deletedFiles b).1] at hf
    exact Or.inl ⟨l, hf⟩
  · exact Or.inr ⟨l, hf⟩

end LevelDb
