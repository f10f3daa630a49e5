import LevelDb.Compaction.Failure
import LevelDb.Table.Offset
import Mathlib.Algebra.Order.BigOperators.Group.List

/-!
# Approximate sizes

`VersionSet::ApproximateOffsetOf` and `DBImpl::GetApproximateSizes`. The offset of a key is a sum over the
files of a version: the whole file size before the key, nothing behind it, and the offset in the table
around it. No share decreases when the key goes up, and none is above the file size, so the same is true
of the sum as long as it fits into a `uint64_t`.
-/

namespace LevelDb

open Lib

variable {K : Type}

/-- The files of all levels. -/
def Version.allFiles (v : Version K) : List (FileMetaData K) := (List.range kNumLevels).flatMap v.files

namespace TableCache

/-- The offset of a key in the table of a file, which counts as nothing if it cannot be opened. -/
def tableOffset (cache : TableCache) (bytes : K ≃ Slice) (ikey : InternalKey K) (f : FileMetaData K) : ℕ :=
  match cache.findTable f.number f.fileSize with
  | .ok table => table.approximateOffsetOf (ikey.encode bytes)
  | .error _ => 0

/-- The loop of `ApproximateOffsetOf` over the files of a level. -/
def levelOffset (cache : TableCache) (bytes : K ≃ Slice) (ikey : InternalKey K) (level : ℕ) (result : ℕ) :
    List (FileMetaData K) → ℕ
  | [] => result
  | f :: files =>
    let icmp := cache.options.comparator
    if icmp.Le (f.largest.encode bytes) (ikey.encode bytes) then
      -- Entire file is before "ikey", so just add the file size
      cache.levelOffset bytes ikey level ((result + f.fileSize) % 2^64) files
    else if ¬icmp.Le (f.smallest.encode bytes) (ikey.encode bytes) then
      -- Entire file is after "ikey", so ignore. Behind level 0 so are all further files.
      if 0 < level then result else cache.levelOffset bytes ikey level result files
    else
      cache.levelOffset bytes ikey level ((result + cache.tableOffset bytes ikey f) % 2^64) files

/-- `ApproximateOffsetOf` -/
def approximateOffsetOf (cache : TableCache) (bytes : K ≃ Slice) (v : Version K) (ikey : InternalKey K) : ℕ :=
  (List.range kNumLevels).foldl
    (fun result level => cache.levelOffset bytes ikey level result (v.files level)) 0

/-- `GetApproximateSizes` for ranges of user keys. -/
def getApproximateSizes (cache : TableCache) (bytes : K ≃ Slice) (v : Version K) (ranges : List (K × K)) :
    List ℕ :=
  ranges.map fun (start, limit) =>
    -- Convert user_key into a corresponding internal key.
    let start := cache.approximateOffsetOf bytes v (lookupKey start kMaxSequenceNumber)
    let limit := cache.approximateOffsetOf bytes v (lookupKey limit kMaxSequenceNumber)
    if start ≤ limit then limit - start else 0

/-- What a file adds to the offset of a key. -/
def share (cache : TableCache) (bytes : K ≃ Slice) (ikey : InternalKey K) (f : FileMetaData K) : ℕ :=
  let icmp := cache.options.comparator
  if icmp.Le (f.largest.encode bytes) (ikey.encode bytes) then f.fileSize
  else if ¬icmp.Le (f.smallest.encode bytes) (ikey.encode bytes) then 0
  else cache.tableOffset bytes ikey f

/-- The files of a version have a range, those above level 0 are disjoint, and their tables can be opened
and are in order. -/
structure Opens (cache : TableCache) (bytes : K ≃ Slice) (v : Version K) : Prop where
  /-- Every file has a range. -/
  ranged : ∀ level, ∀ f ∈ v.files level,
    cache.options.comparator.Le (f.smallest.encode bytes) (f.largest.encode bytes)
  /-- The levels above 0 are sorted and disjoint. -/
  disjoint : ∀ level, 0 < level → (v.files level).Pairwise fun f g =>
    cache.options.comparator.Lt (f.largest.encode bytes) (g.smallest.encode bytes)
  /-- The tables. -/
  table : ∀ level, ∀ f ∈ v.files level,
    ∃ t, cache.findTable f.number f.fileSize = .ok t ∧ t.InOrder f.fileSize

variable {cache : TableCache} {bytes : K ≃ Slice} {v : Version K} {ikey ikey' : InternalKey K}

/-! ## Shares -/

/-- A table that was opened has the comparator of the options. -/
theorem comparator_of_findTable {number size : ℕ} {t : Table} (h : cache.findTable number size = .ok t) :
    t.comparator = cache.options.comparator := by
  obtain ⟨file, -, hopen⟩ := exists_of_bind_eq_ok h
  unfold Table.open at hopen
  split_ifs at hopen
  obtain ⟨footerInput, -, hopen⟩ := exists_of_bind_eq_ok hopen
  obtain ⟨footer, -, hopen⟩ := exists_of_bind_eq_ok hopen
  obtain ⟨indexBlock, -, hopen⟩ := exists_of_bind_eq_ok hopen
  rw [← Except.ok.inj hopen]

/-- The offset in a table does not decrease with the key, and it is in the file. -/
theorem Opens.tableOffset_mono (h : cache.Opens bytes v) (hcmp : cache.options.comparator.TotalPreorder)
    {level : ℕ} {f : FileMetaData K} (hf : f ∈ v.files level)
    (hle : cache.options.comparator.Le (ikey.encode bytes) (ikey'.encode bytes)) :
    cache.tableOffset bytes ikey f ≤ cache.tableOffset bytes ikey' f ∧
      cache.tableOffset bytes ikey' f ≤ f.fileSize := by
  obtain ⟨t, ht, horder⟩ := h.table level f hf
  have hcomparator := comparator_of_findTable ht
  unfold tableOffset
  rw [ht]
  exact horder.approximateOffsetOf_mono (hcomparator ▸ hcmp) (hcomparator ▸ hle)

/-- A share is at most the file size. -/
theorem Opens.share_le (h : cache.Opens bytes v) (hcmp : cache.options.comparator.TotalPreorder)
    {level : ℕ} {f : FileMetaData K} (hf : f ∈ v.files level) : cache.share bytes ikey f ≤ f.fileSize := by
  unfold share
  dsimp only
  split_ifs
  · exact le_refl _
  · exact (h.tableOffset_mono hcmp hf (hcmp.refl (ikey.encode bytes)).le).2
  · exact Nat.zero_le _

/-- A share does not decrease with the key. -/
theorem Opens.share_mono (h : cache.Opens bytes v) (hcmp : cache.options.comparator.TotalPreorder)
    {level : ℕ} {f : FileMetaData K} (hf : f ∈ v.files level)
    (hle : cache.options.comparator.Le (ikey.encode bytes) (ikey'.encode bytes)) :
    cache.share bytes ikey f ≤ cache.share bytes ikey' f := by
  by_cases hlargest : cache.options.comparator.Le (f.largest.encode bytes) (ikey'.encode bytes)
  · have hsize : cache.share bytes ikey' f = f.fileSize := if_pos hlargest
    rw [hsize]
    exact h.share_le hcmp hf
  · -- the file does not end before the smaller key, either
    have hlargest' : ¬cache.options.comparator.Le (f.largest.encode bytes) (ikey.encode bytes) :=
      fun hlt => hlargest (hcmp.trans hlt hle)
    unfold share
    dsimp only
    rw [if_neg hlargest, if_neg hlargest']
    by_cases hsmallest : cache.options.comparator.Le (f.smallest.encode bytes) (ikey.encode bytes)
    · rw [if_neg (not_not_intro hsmallest), if_neg (not_not_intro (hcmp.trans hsmallest hle))]
      exact (h.tableOffset_mono hcmp hf hle).1
    · rw [if_pos hsmallest]
      exact Nat.zero_le _

/-- A file that begins behind the key has no share. -/
theorem share_eq_zero (hcmp : cache.options.comparator.TotalPreorder) {f : FileMetaData K}
    (hranged : cache.options.comparator.Le (f.smallest.encode bytes) (f.largest.encode bytes))
    (hlt : ¬cache.options.comparator.Le (f.smallest.encode bytes) (ikey.encode bytes)) :
    cache.share bytes ikey f = 0 := by
  unfold share
  dsimp only
  rw [if_neg fun hle => hlt (hcmp.trans hranged hle), if_pos hlt]

/-! ## The sum -/

/-- The loop over the files of a level adds their shares. In level 0 it goes through all files; in a level
that is sorted, those that it leaves out have no share. -/
theorem levelOffset_eq (hcmp : cache.options.comparator.TotalPreorder) {level : ℕ} :
    ∀ {files : List (FileMetaData K)} {result : ℕ}, result < 2^64 →
    (∀ f ∈ files, cache.options.comparator.Le (f.smallest.encode bytes) (f.largest.encode bytes)) →
    (0 < level → files.Pairwise fun f g =>
      cache.options.comparator.Lt (f.largest.encode bytes) (g.smallest.encode bytes)) →
    cache.levelOffset bytes ikey level result files =
      (result + (files.map (cache.share bytes ikey)).sum) % 2^64
  | [], result, hresult, _, _ => (Nat.mod_eq_of_lt hresult).symm
  | f :: files, result, hresult, hranged, hdisjoint => by
    obtain ⟨hrange, hranged⟩ := List.forall_mem_cons.mp hranged
    have hrest : 0 < level → files.Pairwise fun f g =>
        cache.options.comparator.Lt (f.largest.encode bytes) (g.smallest.encode bytes) :=
      fun hlevel => (List.pairwise_cons.mp (hdisjoint hlevel)).2
    rw [List.map_cons, List.sum_cons]
    unfold levelOffset
    dsimp only
    split_ifs with hlargest hsmallest hlevel
    · have hshare : cache.share bytes ikey f = f.fileSize := if_pos hlargest
      rw [levelOffset_eq hcmp (Nat.mod_lt _ (by decide)) hranged hrest, hshare]
      omega
    · have hshare : cache.share bytes ikey f = cache.tableOffset bytes ikey f := by
        unfold share
        dsimp only
        rw [if_neg hlargest, if_neg (not_not_intro hsmallest)]
      rw [levelOffset_eq hcmp (Nat.mod_lt _ (by decide)) hranged hrest, hshare]
      omega
    · -- the loop stops here, and the files behind have no share
      have hzero : ∀ n ∈ files.map (cache.share bytes ikey), n = 0 := by
        intro n hn
        obtain ⟨g, hg, rfl⟩ := List.mem_map.mp hn
        have hlt := (List.pairwise_cons.mp (hdisjoint hlevel)).1 g hg
        refine share_eq_zero hcmp (hranged g hg) fun hle => hsmallest ?_
        exact hcmp.trans hrange (hcmp.trans hlt.le hle)
      rw [share_eq_zero hcmp hrange hsmallest, List.sum_eq_zero hzero]
      exact (Nat.mod_eq_of_lt hresult).symm
    · rw [levelOffset_eq hcmp hresult hranged hrest, share_eq_zero hcmp hrange hsmallest, zero_add]

/-- The offset is the sum of the shares of all files, as a 64-bit word. -/
theorem Opens.approximateOffsetOf_mod (h : cache.Opens bytes v)
    (hcmp : cache.options.comparator.TotalPreorder) (ikey : InternalKey K) :
    cache.approximateOffsetOf bytes v ikey =
      (v.allFiles.map (cache.share bytes ikey)).sum % 2^64 := by
  have hloop : ∀ (levels : List ℕ) {result : ℕ}, result < 2^64 →
      levels.foldl (fun result level => cache.levelOffset bytes ikey level result (v.files level)) result =
        (result + ((levels.flatMap v.files).map (cache.share bytes ikey)).sum) % 2^64 := by
    intro levels
    induction levels with
    | nil => exact fun hresult => (Nat.mod_eq_of_lt hresult).symm
    | cons level levels ih =>
      intro result hresult
      rw [List.foldl_cons, levelOffset_eq hcmp hresult (h.ranged level) (h.disjoint level),
        ih (Nat.mod_lt _ (by decide)), List.flatMap_cons, List.map_append, List.sum_append]
      omega
  rw [approximateOffsetOf, hloop _ (by decide), zero_add]
  rfl

/-- No 64-bit word overflows when the sizes of all files fit into one. -/
theorem Opens.approximateOffsetOf_eq (h : cache.Opens bytes v)
    (hcmp : cache.options.comparator.TotalPreorder) (hsize : totalFileSize v.allFiles < 2^64)
    (ikey : InternalKey K) :
    cache.approximateOffsetOf bytes v ikey = (v.allFiles.map (cache.share bytes ikey)).sum ∧
      (v.allFiles.map (cache.share bytes ikey)).sum ≤ totalFileSize v.allFiles := by
  have hle : (v.allFiles.map (cache.share bytes ikey)).sum ≤ totalFileSize v.allFiles := by
    refine List.sum_le_sum fun f hf => ?_
    obtain ⟨level, -, hlevel⟩ := List.mem_flatMap.mp hf
    exact h.share_le hcmp hlevel
  exact ⟨(h.approximateOffsetOf_mod hcmp ikey).trans (Nat.mod_eq_of_lt (hle.trans_lt hsize)), hle⟩

/-- The offset does not decrease with the key. -/
theorem Opens.approximateOffsetOf_mono (h : cache.Opens bytes v)
    (hcmp : cache.options.comparator.TotalPreorder) (hsize : totalFileSize v.allFiles < 2^64)
    (hle : cache.options.comparator.Le (ikey.encode bytes) (ikey'.encode bytes)) :
    cache.approximateOffsetOf bytes v ikey ≤ cache.approximateOffsetOf bytes v ikey' := by
  rw [(h.approximateOffsetOf_eq hcmp hsize ikey).1, (h.approximateOffsetOf_eq hcmp hsize ikey').1]
  refine List.sum_le_sum fun f hf => ?_
  obtain ⟨level, -, hlevel⟩ := List.mem_flatMap.mp hf
  exact h.share_mono hcmp hlevel hle

/-! ## Ranges of user keys -/

/-- The keys with which ranges are looked up are in the order of the user keys. -/
theorem le_encode_lookupKey {c : Comparator} {a b : K} (hle : c.Le (bytes a) (bytes b)) :
    (internalKeyComparator c).Le ((lookupKey a kMaxSequenceNumber).encode bytes)
      ((lookupKey b kMaxSequenceNumber).encode bytes) := by
  unfold InternalKey.encode
  rw [internalKeyComparator_le_iff, extractUserKey_append, extractUserKey_append]
  obtain hlt | heq := Comparator.le_iff_lt_or_equal.mp hle
  · exact Or.inl hlt
  · refine Or.inr ⟨heq, ?_⟩
    rw [extractTag_append _ (InternalKey.tag_lt _), extractTag_append _ (InternalKey.tag_lt _)]
    exact le_refl (kMaxSequenceNumber % 2^56 * 256 + kValueTypeForSeek.toNat)

/-- In a version whose tables can be opened and are in order, and whose files do not have `2^64` bytes
together, the offsets are in the order of the keys and at most the sum of the sizes. So the size of a range
is the difference of the offsets, and the sizes of adjacent ranges add up. -/
theorem approximate_offsets_monotone {c : Comparator} (hc : c.TotalPreorder) (bytes : K ≃ Slice)
    {v : Version K} (hcmp : cache.options.comparator = internalKeyComparator c)
    (h : cache.Opens bytes v) (hsize : totalFileSize v.allFiles < 2^64) :
    (∀ k1 k2 : InternalKey K, (internalKeyComparator c).Le (k1.encode bytes) (k2.encode bytes) →
      cache.approximateOffsetOf bytes v k1 ≤ cache.approximateOffsetOf bytes v k2 ∧
        cache.approximateOffsetOf bytes v k2 ≤ totalFileSize v.allFiles) ∧
      (∀ start limit : K, c.Le (bytes start) (bytes limit) → ∃ size,
        cache.getApproximateSizes bytes v [(start, limit)] = [size] ∧
        cache.approximateOffsetOf bytes v (lookupKey start kMaxSequenceNumber) + size =
          cache.approximateOffsetOf bytes v (lookupKey limit kMaxSequenceNumber)) ∧
      ∀ a b d : K, c.Le (bytes a) (bytes b) → c.Le (bytes b) (bytes d) → ∃ size size',
        cache.getApproximateSizes bytes v [(a, b), (b, d), (a, d)] = [size, size', size + size'] := by
  have hpre : cache.options.comparator.TotalPreorder :=
    hcmp ▸ internalKeyComparator_totalPreorder hc
  -- The keys that sizes are asked for are user keys with the largest sequence number.
  have hmono : ∀ {a b : K}, c.Le (bytes a) (bytes b) →
      cache.approximateOffsetOf bytes v (lookupKey a kMaxSequenceNumber) ≤
        cache.approximateOffsetOf bytes v (lookupKey b kMaxSequenceNumber) :=
    fun hle => h.approximateOffsetOf_mono hpre hsize (hcmp ▸ le_encode_lookupKey hle)
  refine ⟨fun k1 k2 hle => ⟨h.approximateOffsetOf_mono hpre hsize (hcmp ▸ hle), ?_⟩,
    fun start limit hle => ?_, fun a b d hab hbd => ?_⟩
  · obtain ⟨heq, htotal⟩ := h.approximateOffsetOf_eq hpre hsize k2
    exact heq.trans_le htotal
  · refine ⟨_, rfl, ?_⟩
    dsimp only
    rw [if_pos (hmono hle)]
    exact Nat.add_sub_cancel' (hmono hle)
  · have had := hmono (hc.trans hab hbd)
    have hab := hmono hab
    have hbd := hmono hbd
    unfold getApproximateSizes
    simp only [List.map_cons, List.map_nil, if_pos hab, if_pos hbd, if_pos had]
    generalize cache.approximateOffsetOf bytes v (lookupKey a kMaxSequenceNumber) = offset at hab ⊢
    generalize cache.approximateOffsetOf bytes v (lookupKey b kMaxSequenceNumber) = offset' at hab hbd ⊢
    generalize cache.approximateOffsetOf bytes v (lookupKey d kMaxSequenceNumber) = offset'' at hbd ⊢
    refine ⟨offset' - offset, offset'' - offset', ?_⟩
    rw [Nat.add_comm (offset' - offset), Nat.sub_add_sub_cancel hbd hab]

/-! ## Examples -/

/-- The sequence number 1 of the example is one that fits. -/
theorem one_le_kMaxSequenceNumber : 1 ≤ kMaxSequenceNumber := by decide

/-- An entry with a user key of one byte. -/
def keyOf (c : UInt8) : InternalKey Slice := ⟨[c], 1, .value, one_le_kMaxSequenceNumber⟩

/-- The index of a table with one entry. -/
def sparseIndex (c : UInt8) : List (Slice × Slice) :=
  [([c + 1] ++ encodeFixed64 earliestTag, BlockHandle.encodeTo ⟨0, 20⟩)]

/-- The data block and the metaindex block of the table. -/
def sparseFront (c : UInt8) : Slice :=
  TableBuilder.storedBlock emptyCache.options
      (BlockBuilder.ofList 16 [((keyOf c).encode (Equiv.refl _), [])]).finish ++
    TableBuilder.storedBlock emptyCache.options ({} : BlockBuilder).finish

/-- The blocks of the table. -/
def sparseBlocks (c : UInt8) : Slice :=
  sparseFront c ++
    (TableBuilder.storedBlock emptyCache.options (BlockBuilder.ofList 1 (sparseIndex c)).finish ++ [])

/-- The footer of the table. -/
def sparseFooter : Footer := ⟨⟨25, 8⟩, ⟨38, 22⟩⟩

/-- The table, with the end of the file far behind its blocks. -/
def sparseFile (c : UInt8) (size : ℕ) : RandomAccessFile where
  read offset n :=
    if offset = size - kFooterLength then .ok sparseFooter.encodeTo
    else .ok (((sparseBlocks c).drop offset).take n)

/-- File 1 is such a table with the key "a", and file 2 one with the key "b". -/
def sparseCache (size : ℕ) : TableCache :=
  { emptyCache with files := fun number => .ok (sparseFile (96 + UInt8.ofNat number) size) }

/-- The table when it is open. -/
def sparseTable (c : UInt8) (size : ℕ) : Table :=
  ⟨internalKeyComparator bytewiseComparator, emptyCache.options.snappy, sparseFile c size, ⟨25, 8⟩,
    Block.new (BlockBuilder.ofList 1 (sparseIndex c)).finish⟩

/-- The lengths of the blocks do not depend on the key. -/
theorem length_sparse (c : UInt8) : (sparseFront c).length = 38 ∧ (sparseBlocks c).length = 65 ∧
    (BlockBuilder.ofList 1 (sparseIndex c)).finish.length = 22 := by
  have hdata : (BlockBuilder.ofList 16 [((keyOf c).encode (Equiv.refl Slice), [])]).finish.length = 20 := rfl
  have hmeta : ({} : BlockBuilder).finish.length = 8 := rfl
  have hindex : (BlockBuilder.ofList 1 (sparseIndex c)).finish.length = 22 := by
    have hhandle : BlockHandle.encodeTo ⟨0, 20⟩ = [0, 20] := by decide +kernel
    rw [sparseIndex, hhandle]
    rfl
  have hstored : ∀ raw, (TableBuilder.storedBlock emptyCache.options raw).length = raw.length + 5 :=
    fun raw => TableBuilder.length_storedBlock emptyCache.options raw
  have hfront : (sparseFront c).length = 38 := by
    rw [sparseFront, List.length_append, hstored, hstored, hdata, hmeta]
  refine ⟨hfront, ?_, hindex⟩
  rw [sparseBlocks, List.length_append, hfront, List.length_append, hstored, hindex, List.length_nil]

/-- The table is opened, and is in order. -/
theorem findTable_sparse (number : ℕ) {size : ℕ} (hsize : 200 ≤ size) :
    (sparseCache size).findTable number size = .ok (sparseTable (96 + UInt8.ofNat number) size) ∧
      (sparseTable (96 + UInt8.ofNat number) size).InOrder size := by
  generalize hc : 96 + UInt8.ofNat number = c
  obtain ⟨hfront, hblocks, hraw⟩ := length_sparse c
  have hfile : (sparseFile c size).Has (sparseBlocks c) := by
    intro offset n hle
    refine if_neg fun heq => ?_
    unfold kFooterLength kMaxHandleLength at heq
    omega
  -- The rest of the file is a hole that only the footer is read from.
  have hfooter : (sparseFile c size).read (size - kFooterLength) kFooterLength =
      .ok sparseFooter.encodeTo := if_pos rfl
  have hdecode : Footer.decodeFrom sparseFooter.encodeTo = .ok sparseFooter := by decide +kernel
  have hindex : readBlock emptyCache.options.snappy (sparseFile c size) false sparseFooter.indexHandle =
      .ok (Block.new (BlockBuilder.ofList 1 (sparseIndex c)).finish) := by
    have hcontents : (TableBuilder.blockContents emptyCache.options
        (BlockBuilder.ofList 1 (sparseIndex c)).finish).1.length = 22 := hraw
    have hstored := readBlock_stored ⟨by simp [emptyCache], by simp [emptyCache]⟩ hfile
      (lt_of_eq_of_lt hblocks (by decide)) false
    rw [hfront, hcontents] at hstored
    exact hstored
  refine ⟨?_, ⟨sparseIndex c, ?_, ?_⟩, ?_⟩
  · change Table.open _ emptyCache.options.snappy (sparseFile (96 + UInt8.ofNat number) size) size = _
    rw [hc]
    unfold Table.open
    rw [if_neg (by unfold kFooterLength kMaxHandleLength; omega), hfooter]
    simp only [bind, Except.bind, hdecode, hindex]
    rfl
  · obtain ⟨f, hf, hentries⟩ := (BlockBuilder.holds_ofList 1 (sparseIndex c)).exists_finishedBlock
      (by rw [hraw]; decide)
    unfold sparseTable
    rw [← hf, ← hentries]
    exact ⟨_, f.follows (internalKeyComparator_totalPreorder bytewiseComparator_totalOrder.toTotalPreorder)
      (hentries ▸ List.pairwise_singleton _ _), f.stands_newIterator _⟩
  · have hhandle : BlockHandle.decodeFrom (BlockHandle.encodeTo ⟨0, 20⟩) = .ok (⟨0, 20⟩, []) := by
      decide +kernel
    unfold Table.offsets Table.handleOffset sparseIndex
    rw [List.map_singleton, hhandle]
    change ([0, 25] : List ℕ).Pairwise (· ≤ ·)
    decide
  · exact le_trans (by decide : 25 ≤ 200) hsize

/-- A version with such tables in level 1. -/
def sparseVersion (files : List (FileMetaData Slice)) : Version Slice where
  files level := if level = 1 then files else []

/-- Such a version is one whose tables can be opened. -/
theorem opens_sparseVersion {size : ℕ} (hsize : 200 ≤ size) {files : List (FileMetaData Slice)}
    (hfiles : ∀ f ∈ files, f.fileSize = size)
    (hranged : ∀ f ∈ files, (internalKeyComparator bytewiseComparator).Le
      (f.smallest.encode (Equiv.refl Slice)) (f.largest.encode (Equiv.refl Slice)))
    (hdisjoint : files.Pairwise fun f g => (internalKeyComparator bytewiseComparator).Lt
      (f.largest.encode (Equiv.refl Slice)) (g.smallest.encode (Equiv.refl Slice))) :
    (sparseCache size).Opens (Equiv.refl Slice) (sparseVersion files) := by
  have hmem : ∀ {level : ℕ} {f : FileMetaData Slice}, f ∈ (sparseVersion files).files level → f ∈ files := by
    intro level f hf
    unfold sparseVersion at hf
    dsimp only at hf
    split_ifs at hf
    · exact hf
    · exact absurd hf List.not_mem_nil
  refine ⟨fun level f hf => hranged f (hmem hf), fun level _ => ?_, fun level f hf => ?_⟩
  · unfold sparseVersion
    dsimp only
    split_ifs
    · exact hdisjoint
    · exact List.Pairwise.nil
  · rw [hfiles f (hmem hf)]
    exact ⟨_, findTable_sparse f.number hsize⟩

/-- A table with keys from "a" to "c". -/
theorem approximate_offsets_monotone_example :
    let v := sparseVersion [⟨1, 200, keyOf 97, keyOf 99⟩]
    (sparseCache 200).approximateOffsetOf (Equiv.refl Slice) v (keyOf 97) ≤
        (sparseCache 200).approximateOffsetOf (Equiv.refl Slice) v (keyOf 98) ∧
      ∃ size size', (sparseCache 200).getApproximateSizes (Equiv.refl Slice) v
        [([97], [98]), ([98], [100]), ([97], [100])] = [size, size', size + size'] := by
  have hopens : (sparseCache 200).Opens (Equiv.refl Slice) (sparseVersion [⟨1, 200, keyOf 97, keyOf 99⟩]) :=
    opens_sparseVersion (le_refl _) (by simp) (by decide) (List.pairwise_singleton _ _)
  obtain ⟨hmono, -, hadditive⟩ := approximate_offsets_monotone bytewiseComparator_totalOrder.toTotalPreorder
    (Equiv.refl Slice) rfl hopens (by decide)
  exact ⟨(hmono (keyOf 97) (keyOf 98) (by decide)).1,
    hadditive [97] [98] [100] (by decide) (by decide)⟩

/-- With two tables of `2^63` bytes the sum is 0 for a key behind both of them. Each has one entry, at its
recorded smallest and largest key. -/
theorem offset_sum_wraps :
    let files : List (FileMetaData Slice) := [⟨1, 2^63, keyOf 97, keyOf 97⟩, ⟨2, 2^63, keyOf 98, keyOf 98⟩]
    (sparseCache (2^63)).Opens (Equiv.refl Slice) (sparseVersion files) ∧
      (∀ f ∈ files, f.largest = f.smallest ∧ ∃ t : Table,
        (sparseCache (2^63)).findTable f.number f.fileSize = .ok t ∧
        observe (Iterator.seekToFirst (t.newIterator true)) =
          (some (f.smallest.encode (Equiv.refl Slice), []), none) ∧
        observe (Iterator.next (Iterator.seekToFirst (t.newIterator true))) = (none, none)) ∧
      (internalKeyComparator bytewiseComparator).Le ((keyOf 97).encode (Equiv.refl Slice))
        ((keyOf 98).encode (Equiv.refl Slice)) ∧
      (sparseCache (2^63)).approximateOffsetOf (Equiv.refl Slice) (sparseVersion files) (keyOf 97) = 2^63 ∧
      (sparseCache (2^63)).approximateOffsetOf (Equiv.refl Slice) (sparseVersion files) (keyOf 98) = 0 := by
  refine ⟨opens_sparseVersion (by decide) (by simp) (by decide) (by decide), fun f hf => ?_,
    by decide +kernel, by decide +kernel, by decide⟩
  rcases List.mem_cons.mp hf with rfl | hf
  · exact ⟨rfl, _, (findTable_sparse 1 (by decide)).1, by decide +kernel, by decide +kernel⟩
  · obtain rfl := List.mem_singleton.mp hf
    exact ⟨rfl, _, (findTable_sparse 2 (by decide)).1, by decide +kernel, by decide +kernel⟩

end TableCache

end LevelDb
