import LevelDb.Compaction.Failure
import LevelDb.Table.RoundTrip

/-!
# The iterator of a level

`Version::NewConcatenatingIterator` is a two-level iterator whose index are the files of a level. Its
index iterator, `LevelFileNumIterator`, is a cursor over the largest keys of the files, and `GetFileIterator`
opens the table of a file. Both the files of a level and the blocks of a table are parts of a two-level
iterator in the sense of `TwoLevelIterator.Parts`.
-/

namespace LevelDb

open Lib

variable {K : Type}

/-! ## The index -/

/-- The entries of `LevelFileNumIterator`: the largest key of a file, its number and its size. -/
def levelIndex (bytes : K ≃ Slice) (files : List (FileMetaData K)) : List (Slice × Slice) :=
  files.map fun f => (f.largest.encode bytes, encodeFixed64 f.number ++ encodeFixed64 f.fileSize)

namespace LevelFileNumIterator

variable {icmp : Comparator} {bytes : K ≃ Slice} {files : List (FileMetaData K)}
  {it : LevelFileNumIterator K} {pos : Option ℕ}

/-- The states of the iterator over the files of a level. -/
structure Stands (icmp : Comparator) (bytes : K ≃ Slice) (files : List (FileMetaData K))
    (it : LevelFileNumIterator K) (pos : Option ℕ) : Prop where
  /-- The order of the keys. -/
  icmp_eq : it.icmp = icmp
  /-- The spelling of the keys. -/
  bytes_eq : it.bytes = bytes
  /-- The files. -/
  flist_eq : it.flist = files
  /-- The position. -/
  index_eq : clip (levelIndex bytes files) it.index = pos

/-- The iterator over a level has one entry for each file. -/
theorem length_levelIndex (bytes : K ≃ Slice) (files : List (FileMetaData K)) :
    (levelIndex bytes files).length = files.length := List.length_map _

/-- `Seek` finds the first file whose largest key is not below the target. -/
theorem Stands.seek (h : Stands icmp bytes files it pos) (hcmp : icmp.TotalPreorder)
    (hsorted : (levelIndex bytes files).Pairwise fun p q => icmp.Lt p.1 q.1) (target : Slice) :
    (it.seek target).index = seekPos (fun a b => decide (icmp.Lt a b)) (levelIndex bytes files) target := by
  unfold LevelFileNumIterator.seek
  dsimp only
  rw [h.flist_eq, h.icmp_eq, h.bytes_eq]
  have hle := seekPos_le_length (fun a b => decide (icmp.Lt a b)) (levelIndex bytes files) target
  rw [length_levelIndex] at hle
  refine bisect_of_partition _ _ _ _ _ (Nat.sub_le _ _) (Nat.zero_le _) hle ?_
  intro i _ hi
  obtain ⟨f, hf⟩ : ∃ f, files[i]? = some f := ⟨_, List.getElem?_eq_getElem hi⟩
  have hentry : (levelIndex bytes files)[i]? = some (f.largest.encode bytes,
      encodeFixed64 f.number ++ encodeFixed64 f.fileSize) := by
    unfold levelIndex
    rw [List.getElem?_map, hf]
    rfl
  rw [hf, Option.any_some]
  constructor
  · -- The keys from the one that is found on are not below the target.
    intro hlt
    by_contra hge
    have hlt' := of_decide_eq_true hlt
    have hseek : seekPos (fun a b => decide (icmp.Lt a b)) (levelIndex bytes files) target <
        (levelIndex bytes files).length := by
      rw [length_levelIndex]
      omega
    have hnot := of_decide_eq_false (not_lt_seekPos (List.getElem?_eq_getElem hseek))
    obtain ⟨hi', hentry'⟩ := List.getElem?_eq_some_iff.mp hentry
    obtain heq | hlt'' := Nat.eq_or_lt_of_le (Nat.le_of_not_lt hge)
    · subst heq
      rw [hentry'] at hnot
      exact hnot hlt'
    · have hbetween := List.pairwise_iff_getElem.mp hsorted _ _ hseek hi' hlt''
      rw [hentry'] at hbetween
      exact hnot (hcmp.lt_trans hbetween hlt')
  · intro hlt
    exact lt_of_lt_seekPos hlt hentry

/-- An iterator that stands at a position has its index, which is that of a file. -/
theorem Stands.index_of_some {i : ℕ} (h : Stands icmp bytes files it (some i)) :
    it.index = i ∧ i < files.length := by
  obtain ⟨rfl, hlt⟩ := clip_eq_some h.index_eq
  rw [length_levelIndex] at hlt
  exact ⟨rfl, hlt⟩

/-- The iterator moves as a cursor over the files. -/
theorem follows (hcmp : icmp.TotalPreorder)
    (hsorted : (levelIndex bytes files).Pairwise fun p q => icmp.Lt p.1 q.1) :
    Lib.Follows (fun a b => decide (icmp.Lt a b)) (levelIndex bytes files)
      (Stands icmp bytes files) where
  valid {it pos} h := by
    change decide (it.index < it.flist.length) = pos.isSome
    rw [← h.index_eq, clip, length_levelIndex, h.flist_eq]
    split_ifs with hlt
    · exact decide_eq_true hlt
    · exact decide_eq_false hlt
  entry {it i} h := by
    obtain ⟨rfl, hlt⟩ := h.index_of_some
    change _ = some (it.key, it.value)
    unfold LevelFileNumIterator.key LevelFileNumIterator.value levelIndex
    rw [h.flist_eq, h.bytes_eq, List.getElem?_map, List.getElem?_eq_getElem hlt]
    rfl
  status _ := rfl
  seekToFirst h := ⟨h.icmp_eq, h.bytes_eq, h.flist_eq, rfl⟩
  seekToLast {it pos} h := by
    refine ⟨h.icmp_eq, h.bytes_eq, h.flist_eq, ?_⟩
    change clip _ (it.flist.length - 1) = _
    rw [h.flist_eq, before, length_levelIndex, clip, length_levelIndex]
    split_ifs <;> first | rfl | omega
  seek {it pos} target h := by
    refine ⟨h.icmp_eq, h.bytes_eq, h.flist_eq, ?_⟩
    change clip _ (it.seek target).index = _
    rw [h.seek hcmp hsorted]
  next {it i} h := by
    obtain ⟨rfl, -⟩ := h.index_of_some
    exact ⟨h.icmp_eq, h.bytes_eq, h.flist_eq, rfl⟩
  prev {it i} h := by
    obtain ⟨rfl, hlt⟩ := h.index_of_some
    refine ⟨h.icmp_eq, h.bytes_eq, h.flist_eq, ?_⟩
    change clip _ (if it.index = 0 then it.flist.length else it.index - 1) = _
    unfold before
    split_ifs with hzero hpos hpos
    · omega
    · exact clip_of_le (by rw [length_levelIndex, h.flist_eq])
    · exact clip_of_lt (by rw [length_levelIndex]; omega)
    · omega

/-- A new iterator is a cursor over the files. -/
theorem isBoundedCursor (hcmp : icmp.TotalPreorder)
    (hsorted : (levelIndex bytes files).Pairwise fun p q => icmp.Lt p.1 q.1) :
    IsBoundedCursor (fun a b => decide (icmp.Lt a b)) (levelIndex bytes files)
      (⟨icmp, bytes, files, files.length⟩ : LevelFileNumIterator K) := by
  refine ⟨Stands icmp bytes files, follows hcmp hsorted, ?_, rfl, rfl, rfl, ?_⟩
  · intro it pos h
    change _ ≤ it.flist.length + 1
    rw [length_levelIndex, h.flist_eq]
    exact Nat.le_succ _
  · exact clip_of_le (by rw [length_levelIndex])

end LevelFileNumIterator

/-! ## The files of a level -/

/-- The files of a level with the entries of their tables: the tables can be read, and the ranges of the
files follow each other. -/
structure LevelTables (cache : TableCache) (bytes : K ≃ Slice) (files : List (FileMetaData K))
    (tables : List (List (Slice × Slice))) : Prop where
  /-- Every file has a table. -/
  length_eq : files.length = tables.length
  /-- The iterator of a table is a cursor over its entries. -/
  cursor : ∀ {i : ℕ} {f : FileMetaData K}, files[i]? = some f →
    IsCursor (fun a b => decide (cache.options.comparator.Lt a b)) (partAt tables i)
      (cache.newIterator f.number f.fileSize)
  /-- File numbers and sizes are 64-bit words. -/
  number_lt : ∀ f ∈ files, f.number < 2^64 ∧ f.fileSize < 2^64
  /-- The file numbers are different. -/
  numbers : files.Pairwise fun f g => f.number ≠ g.number
  /-- The keys of a table are not below the smallest key of its file. -/
  smallest_le : ∀ {i : ℕ} {f : FileMetaData K} {q : Slice × Slice}, files[i]? = some f →
    q ∈ partAt tables i → cache.options.comparator.Le (f.smallest.encode bytes) q.1
  /-- They are not above the largest. -/
  le_largest : ∀ {i : ℕ} {f : FileMetaData K} {q : Slice × Slice}, files[i]? = some f →
    q ∈ partAt tables i → cache.options.comparator.Le q.1 (f.largest.encode bytes)
  /-- The range of a file is not empty. -/
  smallest_le_largest : ∀ f ∈ files,
    cache.options.comparator.Le (f.smallest.encode bytes) (f.largest.encode bytes)
  /-- A range ends before the next one begins. -/
  disjoint : files.Pairwise fun f g =>
    cache.options.comparator.Lt (f.largest.encode bytes) (g.smallest.encode bytes)

/-- The files of a level are parts of a two-level iterator. -/
theorem LevelTables.parts {cache : TableCache} {bytes : K ≃ Slice} {files : List (FileMetaData K)}
    {tables : List (List (Slice × Slice))} (h : LevelTables cache bytes files tables)
    (hcmp : cache.options.comparator.TotalPreorder) :
    TwoLevelIterator.Parts cache.options.comparator (levelIndex bytes files) tables cache.getFileIterator
      (⟨cache.options.comparator, bytes, files, files.length⟩ : LevelFileNumIterator K) := by
  have hentry : ∀ {i : ℕ} {p : Slice × Slice}, (levelIndex bytes files)[i]? = some p →
      ∃ f, files[i]? = some f ∧
        (f.largest.encode bytes, encodeFixed64 f.number ++ encodeFixed64 f.fileSize) = p := by
    intro i p hp
    unfold levelIndex at hp
    rw [List.getElem?_map, Option.map_eq_some_iff] at hp
    exact hp
  constructor
  case length_eq => rw [LevelFileNumIterator.length_levelIndex, h.length_eq]
  case index_cursor =>
    apply LevelFileNumIterator.isBoundedCursor hcmp
    unfold levelIndex
    rw [List.pairwise_map]
    refine List.Pairwise.imp_of_mem ?_ h.disjoint
    intro f g _ hg hlt
    exact hcmp.lt_of_lt_of_le hlt (h.smallest_le_largest g hg)
  case block_cursor =>
    intro i p hp
    obtain ⟨f, hf, rfl⟩ := hentry hp
    obtain ⟨hnumber, hsize⟩ := h.number_lt f (List.mem_of_getElem? hf)
    have hvalue : cache.getFileIterator (encodeFixed64 f.number ++ encodeFixed64 f.fileSize) =
        cache.newIterator f.number f.fileSize := by
      have hlength : (encodeFixed64 f.number ++ encodeFixed64 f.fileSize).length = 16 := rfl
      unfold TableCache.getFileIterator
      rw [if_neg (not_not.mpr hlength), decodeFixed64_encodeFixed64_append hnumber,
        List.drop_left' (encodeFixed64_length _), decodeFixed64_encodeFixed64 hsize]
    rw [hvalue]
    exact h.cursor hf
  case distinct =>
    intro i j p q hp hq heq
    obtain ⟨f, hf, rfl⟩ := hentry hp
    obtain ⟨g, hg, rfl⟩ := hentry hq
    -- A handle begins with the number of the file.
    have hnumber : f.number = g.number := by
      have hf' := (h.number_lt f (List.mem_of_getElem? hf)).1
      have hg' := (h.number_lt g (List.mem_of_getElem? hg)).1
      have hdecode := congrArg decodeFixed64 heq
      rw [decodeFixed64_encodeFixed64_append hf', decodeFixed64_encodeFixed64_append hg'] at hdecode
      exact hdecode
    obtain ⟨hi, rfl⟩ := List.getElem?_eq_some_iff.mp hf
    obtain ⟨hj, rfl⟩ := List.getElem?_eq_some_iff.mp hg
    have hnumbers := List.pairwise_iff_getElem.mp h.numbers
    obtain hlt | heq' | hgt := Nat.lt_trichotomy i j
    · exact absurd hnumber (hnumbers i j hi hj hlt)
    · exact heq'
    · exact absurd hnumber.symm (hnumbers j i hj hi hgt)
  case le_separator =>
    intro i p q hp hq
    obtain ⟨f, hf, rfl⟩ := hentry hp
    exact h.le_largest hf hq
  case separator_lt =>
    intro i j p q hp hij hq
    obtain ⟨f, hf, rfl⟩ := hentry hp
    have hj : j < files.length := by
      by_contra hge
      unfold partAt at hq
      rw [List.getD_eq_getElem?_getD, List.getElem?_eq_none (by rw [← h.length_eq]; omega)] at hq
      exact absurd hq List.not_mem_nil
    obtain ⟨hi, rfl⟩ := List.getElem?_eq_some_iff.mp hf
    exact hcmp.lt_of_lt_of_le (List.pairwise_iff_getElem.mp h.disjoint i j hi hj hij)
      (h.smallest_le (List.getElem?_eq_getElem hj) hq)

/-! ## Two-level iterators -/

/-- A two-level iterator is a cursor over the concatenation of its blocks, and both the iterator of a
table and that of a level have such parts. -/
theorem twoLevel_cursor :
    (∀ {ι δ : Type} [Iterator ι Slice Slice Status] [Bounded ι] [Iterator δ Slice Slice Status]
      {cmp : Comparator}, cmp.TotalOrder → ∀ {index : List (Slice × Slice)}
      {blocks : List (List (Slice × Slice))} {blockFunction : Slice → δ} {s : ι},
      TwoLevelIterator.Parts cmp index blocks blockFunction s → ∀ cs : List (Call Slice),
      (calls ({ blockFunction := blockFunction, index := s } : TwoLevelIterator ι δ) cs).map observe =
        (cursorCalls (fun a b => decide (cmp.Lt a b)) blocks.flatten none cs).map
          (cursorObserve blocks.flatten)) ∧
    (∀ {o : TableOptions}, o.comparator.TotalOrder → o.comparator.Shortens → o.snappy.Correct →
      ∀ {pairs : List (Slice × Slice)}, (pairs.Pairwise fun p q => o.comparator.Lt p.1 q.1) →
      (∀ raw ∈ (writeTable o pairs).blocks, raw.length < 2^32) →
      (writeTable o pairs).file.length < 2^64 → ∀ {file : RandomAccessFile},
      file.Has (writeTable o pairs).file →
      ∃ t, Table.open o.comparator o.snappy file (writeTable o pairs).fileSize = .ok t ∧
        ∀ verifyChecksums, ∃ index blocks, blocks.flatten = pairs ∧
          TwoLevelIterator.Parts o.comparator index blocks (t.newIterator verifyChecksums).blockFunction
            (t.newIterator verifyChecksums).index) ∧
    ∀ {K : Type} {cache : TableCache}, cache.options.comparator.TotalOrder → ∀ {bytes : K ≃ Slice}
      {files : List (FileMetaData K)} {tables : List (List (Slice × Slice))},
      LevelTables cache bytes files tables →
      TwoLevelIterator.Parts cache.options.comparator (levelIndex bytes files) tables
        cache.getFileIterator
        (⟨cache.options.comparator, bytes, files, files.length⟩ : LevelFileNumIterator K) := by
  refine ⟨?_, ?_, ?_⟩
  · intro ι δ _ _ _ cmp hcmp index blocks blockFunction s hparts cs
    exact (hparts.isCursor hcmp.toTotalPreorder).run cs
  -- A table: what `Open` reads back is the layout that the builder wrote.
  · intro o hcmp hshort hsnappy pairs hsorted hblocks hlength file hfile
    obtain ⟨closed, hlayout⟩ := exists_tableLayout hcmp.toTotalPreorder hshort hsorted
    obtain ⟨t, hopen, hcomparator, ht, htfile, hindex⟩ := hlayout.open_eq hsnappy hfile hlength
    refine ⟨t, ?_, fun verify => ⟨_, _, hlayout.entries, hlayout.parts hcmp.toTotalPreorder hsorted
      hsnappy hblocks hfile hlength hcomparator ht htfile hindex verify⟩⟩
    unfold TableBuilder.fileSize
    rw [hlayout.offset, Nat.mod_eq_of_lt hlength]
    exact hopen
  · intro K cache hcmp bytes files tables h
    exact h.parts hcmp.toTotalPreorder

/-- The iterator of a table with two blocks of one entry each. -/
theorem twoLevel_cursor_example :
    let o : TableOptions := ⟨bytewiseComparator, 1, 16, .none, ⟨fun _ => none, fun _ => none, fun _ => none⟩⟩
    let pairs : List (Slice × Slice) := [([97], [1]), ([98], [2])]
    let file : RandomAccessFile := ⟨fun offset n => .ok (((writeTable o pairs).file.drop offset).take n)⟩
    ∃ t, Table.open o.comparator o.snappy file (writeTable o pairs).fileSize = .ok t ∧
      ∀ cs, (calls (t.newIterator true) cs).map observe =
        (cursorCalls (fun a b => decide (o.comparator.Lt a b)) pairs none cs).map (cursorObserve pairs) := by
  intro o pairs file
  obtain ⟨hgeneral, htable, -⟩ := twoLevel_cursor
  have hcmp : o.comparator.TotalOrder := bytewiseComparator_totalOrder
  have hsnappy : o.snappy.Correct :=
    ⟨fun h => absurd h.symm (Option.some_ne_none _), fun h => absurd h.symm (Option.some_ne_none _)⟩
  have hsorted : pairs.Pairwise fun p q => o.comparator.Lt p.1 q.1 := by decide
  have hblocks : ∀ raw ∈ (writeTable o pairs).blocks, raw.length < 2^32 := by decide +kernel
  have hlength : (writeTable o pairs).file.length < 2^64 := by decide +kernel
  have hfile : file.Has (writeTable o pairs).file := fun _ => rfl
  obtain ⟨t, hopen, hparts⟩ := htable hcmp bytewiseComparator_shortens hsnappy hsorted hblocks hlength hfile
  obtain ⟨index, blocks, hflatten, hparts⟩ := hparts true
  refine ⟨t, hopen, fun cs => ?_⟩
  rw [← hflatten]
  exact hgeneral hcmp hparts cs

end LevelDb
