import LevelDb.Db.Lookup

/-!
# Searches in a sorted level

`FindFile` and `SomeFileOverlapsRange` of `db/version_set.cc` as they compute, for any comparator: the
bounds of the search are 32-bit words, and the index is returned as an `int`. As long as the middle of
the interval does not overflow, the search is the bisection of `findFileBy`; its result is the first file
that does not end before the key, and the file found for the earliest internal key of a user key answers
the question for the user keys of a whole range.
-/

namespace LevelDb

/-! ## The functions -/

/-- The test of `FindFile`: the file at an index ends before the key. -/
def fileEndsBefore (c : Comparator) (files : List (FileMetaData Slice)) (key : InternalKey Slice) (i : ℕ) :
    Bool :=
  files[i]?.any fun f => decide (c.KeyLt f.largest key)

/-- The loop of `FindFile` on its `uint32_t` bounds, for less than `fuel` rounds. -/
def findFileLoop (c : Comparator) (files : List (FileMetaData Slice)) (key : InternalKey Slice) :
    ℕ → UInt32 → UInt32 → Option UInt32
  | 0, _, _ => none
  | fuel + 1, left, right =>
    if left < right then
      let mid := (left + right) / 2
      if fileEndsBefore c files key mid.toNat then
        -- All files at or before `mid` are uninteresting.
        findFileLoop c files key fuel (mid + 1) right
      else
        -- All files after `mid` are uninteresting.
        findFileLoop c files key fuel left mid
    else some right

/-- `FindFile`: `right` starts as the low 32 bits of the number of files, and the result is an `int`. -/
def findFileInt (c : Comparator) (fuel : ℕ) (files : List (FileMetaData Slice))
    (key : InternalKey Slice) : Option Int32 :=
  (findFileLoop c files key fuel 0 (UInt32.ofNat files.length)).map UInt32.toInt32

/-- `SomeFileOverlapsRange` -/
def someFileOverlapsRangeBy (c : Comparator) (fuel : ℕ) (files : List (FileMetaData Slice))
    (smallestUserKey largestUserKey : Slice) : Option Bool :=
  -- Find the earliest possible internal key for the smallest user key.
  let small := InternalKey.pack smallestUserKey kMaxSequenceNumber kValueTypeForSeek
  (findFileInt c fuel files small).map fun r =>
    let index := r.toUInt32
    files[index.toNat]?.any fun f => decide (c.Le f.smallest.userKey largestUserKey)

/-! ## The words of the search -/

section

variable (c : Comparator) (files : List (FileMetaData Slice)) (key : InternalKey Slice)

/-- The middle of an interval below `2^31` does not overflow. -/
theorem toNat_mid {left right : UInt32} (hlt : left < right) (hright : right.toNat ≤ 2^31) :
    ((left + right) / 2).toNat = (left.toNat + right.toNat) / 2 := by
  have hlt' := UInt32.lt_iff_toNat_lt.mp hlt
  have hsum : left.toNat + right.toNat < 2^32 := by omega
  rw [UInt32.toNat_div, UInt32.toNat_add, Nat.mod_eq_of_lt hsum]
  rfl

/-- On an interval below `2^31` the loop ends, with the result of the bisection. -/
theorem findFileLoop_eq_bisect : ∀ (fuel n : ℕ) (left right : UInt32), right.toNat ≤ 2^31 →
    right.toNat - left.toNat < fuel → right.toNat - left.toNat ≤ n →
    ∃ r, findFileLoop c files key fuel left right = some r ∧
      r.toNat = Lib.bisect (fileEndsBefore c files key) n left.toNat right.toNat
  | 0, n, left, right, hright, hfuel, hn => by omega
  | fuel + 1, n, left, right, hright, hfuel, hn => by
    rw [findFileLoop]
    by_cases hlt : left < right
    · have hlt' := UInt32.lt_iff_toNat_lt.mp hlt
      have hmid := toNat_mid hlt hright
      obtain ⟨n, rfl⟩ := Nat.exists_eq_succ_of_ne_zero (show n ≠ 0 by omega)
      rw [if_pos hlt, Lib.bisect, if_pos hlt']
      dsimp only
      rw [hmid]
      -- Each half is shorter than the interval and lies below the same bound.
      by_cases hb : fileEndsBefore c files key ((left.toNat + right.toNat) / 2) = true
      · have hsucc : ((left + right) / 2 + 1).toNat = (left.toNat + right.toNat) / 2 + 1 := by
          rw [UInt32.toNat_add, hmid, UInt32.toNat_one]
          exact Nat.mod_eq_of_lt (by omega)
        rw [if_pos hb, if_pos hb, ← hsucc]
        exact findFileLoop_eq_bisect fuel n _ right hright (by omega) (by omega)
      · rw [if_neg hb, if_neg hb, ← hmid]
        exact findFileLoop_eq_bisect fuel n left _ (by omega) (by omega) (by omega)
    · refine ⟨right, if_neg hlt, ?_⟩
      have hnot : ¬left.toNat < right.toNat := fun h => hlt (UInt32.lt_iff_toNat_lt.mpr h)
      cases n with
      | zero => rfl
      | succ n => rw [Lib.bisect, if_neg hnot]

/-- `FindFile` on less than `2^31` files is the bisection. -/
theorem findFileInt_eq {fuel : ℕ} (hlen : files.length < 2^31) (hfuel : files.length < fuel) :
    ∃ r, findFileInt c fuel files key = some r ∧ r.toInt = findFileBy c files key ∧
      r.toUInt32.toNat = findFileBy c files key := by
  have hsize : (UInt32.ofNat files.length).toNat = files.length :=
    Nat.mod_eq_of_lt (by omega)
  obtain ⟨r, hr, heq⟩ := findFileLoop_eq_bisect c files key fuel files.length 0
    (UInt32.ofNat files.length) (by omega) (by omega) (by omega)
  have hby : r.toNat = findFileBy c files key := by
    rw [heq, hsize]
    rfl
  have hle : findFileBy c files key ≤ files.length :=
    (Lib.bisect_mem _ files.length 0 files.length (Nat.zero_le _)).2
  refine ⟨r.toInt32, ?_, ?_, ?_⟩
  · unfold findFileInt
    rw [hr, Option.map_some]
  · -- The sign bit of the index is zero.
    have hpos : r.toNat < 2^31 := by omega
    show r.toBitVec.toInt = _
    rw [BitVec.toInt_eq_toNat_of_lt (show 2 * r.toNat < 2^32 by omega)]
    exact congrArg _ hby
  · exact hby

end

/-! ## Exactness -/

/-- The smallest index of a file whose largest key is at least `key`, or the number of files if there is
none. -/
structure IsFirstFrom (c : Comparator) (files : List (FileMetaData Slice)) (key : InternalKey Slice)
    (i : ℕ) : Prop where
  /-- It is an index or the number of files. -/
  le_length : i ≤ files.length
  /-- The file there does not end before the key. -/
  reached : ∀ {f}, files[i]? = some f → c.KeyLe key f.largest
  /-- The files before it end before the key. -/
  before : ∀ {j f}, files[j]? = some f → j < i → ¬c.KeyLe key f.largest

section

variable {c : Comparator} {files : List (FileMetaData Slice)}

/-- A file does not end before the earliest internal key of a user key if it does not end before the
user key. -/
theorem pack_max_keyLe_iff {lo : Slice} {k : InternalKey Slice} :
    c.KeyLe (.pack lo kMaxSequenceNumber kValueTypeForSeek) k ↔ c.Le lo k.userKey := by
  have h := Comparator.lookupKey_keyLe_iff (c := c) (q := lo) (b := k) (le_refl kMaxSequenceNumber)
  rw [lookupKey] at h
  rw [h, Comparator.le_iff_lt_or_equal]
  constructor
  · rintro (hlt | ⟨heq, -⟩)
    · exact Or.inl hlt
    · exact Or.inr heq
  · rintro (hlt | heq)
    · exact Or.inl hlt
    · exact Or.inr ⟨heq, k.sequence_le⟩

/-- The bisection finds the first file that does not end before the key. -/
theorem findFileBy_isFirstFrom (hc : c.TotalPreorder)
    (hranged : ∀ f ∈ files, c.KeyLe f.smallest f.largest)
    (hdisjoint : files.Pairwise fun f g => c.KeyLt f.largest g.smallest) (key : InternalKey Slice) :
    IsFirstFrom c files key (findFileBy c files key) where
  le_length := (Lib.bisect_mem _ files.length 0 files.length (Nat.zero_le _)).2
  reached hf := by
    by_contra hnot
    exact absurd ((findFileBy_spec hc hranged hdisjoint hf).mpr (hc.not_keyLe.mp hnot)) (lt_irrefl _)
  before hf hlt := hc.not_keyLe.mpr ((findFileBy_spec hc hranged hdisjoint hf).mp hlt)

/-- The first file that does not end before a range starts within it if a file overlaps it. -/
theorem IsFirstFrom.overlap_iff (hc : c.TotalPreorder)
    (hranged : ∀ f ∈ files, c.KeyLe f.smallest f.largest)
    (hdisjoint : files.Pairwise fun f g => c.KeyLt f.largest g.smallest) {lo hi : Slice} {i : ℕ}
    (hi' : IsFirstFrom c files (.pack lo kMaxSequenceNumber kValueTypeForSeek) i) :
    (files[i]?.any fun f => decide (c.Le f.smallest.userKey hi)) = true ↔
      ∃ f ∈ files, c.Le f.smallest.userKey hi ∧ c.Le lo f.largest.userKey := by
  rw [Option.any_eq_true]
  constructor
  · rintro ⟨f, hget, hstart⟩
    rw [decide_eq_true_eq] at hstart
    exact ⟨f, List.mem_of_getElem? hget, hstart, pack_max_keyLe_iff.mp (hi'.reached hget)⟩
  · rintro ⟨f, hmem, hstart, hend⟩
    obtain ⟨j, hj⟩ := List.mem_iff_getElem?.mp hmem
    -- `f` does not end before the range, so the search stops at `f` or before it.
    have hij : i ≤ j := by
      by_contra hlt
      exact hi'.before hj (Nat.lt_of_not_le hlt) (pack_max_keyLe_iff.mpr hend)
    have hjlen : j < files.length := (List.getElem?_eq_some_iff.mp hj).1
    have hget : files[i]? = some files[i] := List.getElem?_eq_getElem (by omega)
    refine ⟨files[i], hget, decide_eq_true ?_⟩
    rcases Nat.eq_or_lt_of_le hij with rfl | hlt
    · rw [Option.some.inj (hget.symm.trans hj)]
      exact hstart
    · -- An earlier file ends before `f` starts.
      have hbefore : c.KeyLt files[i].largest f.smallest := by
        have hpair := List.pairwise_iff_getElem.mp hdisjoint i j (by omega) hjlen hlt
        rwa [(List.getElem?_eq_some_iff.mp hj).2] at hpair
      have hkey := hc.keyLe_trans (hranged _ (List.getElem_mem _)) hbefore.le
      exact hc.trans hkey.userKey_le hstart

/-- On a sorted and disjoint level of less than `2^31` files, `FindFile` returns the index of the first
file that does not end before the key, and `SomeFileOverlapsRange` tells whether a file overlaps the
range of user keys. Neighbouring files may share a user key. -/
theorem level_search_exact (hc : c.TotalPreorder)
    (hranged : ∀ f ∈ files, c.KeyLe f.smallest f.largest)
    (hdisjoint : files.Pairwise fun f g => c.KeyLt f.largest g.smallest)
    (hlen : files.length < 2^31) {fuel : ℕ} (hfuel : files.length < fuel) (key : InternalKey Slice)
    (lo hi : Slice) :
    (∃ r i, findFileInt c fuel files key = some r ∧ r.toInt = (i : ℕ) ∧ IsFirstFrom c files key i) ∧
      ∃ b, someFileOverlapsRangeBy c fuel files lo hi = some b ∧
        (b = true ↔ ∃ f ∈ files, c.Le f.smallest.userKey hi ∧ c.Le lo f.largest.userKey) := by
  constructor
  · obtain ⟨r, hr, hint, -⟩ := findFileInt_eq c files key hlen hfuel
    exact ⟨r, _, hr, hint, findFileBy_isFirstFrom hc hranged hdisjoint key⟩
  · set small : InternalKey Slice := .pack lo kMaxSequenceNumber kValueTypeForSeek with hsmall
    obtain ⟨r, hr, -, hindex⟩ := findFileInt_eq c files small hlen hfuel
    have hfirst := findFileBy_isFirstFrom hc hranged hdisjoint small
    refine ⟨files[findFileBy c files small]?.any fun f => decide (c.Le f.smallest.userKey hi), ?_, ?_⟩
    · unfold someFileOverlapsRangeBy
      dsimp only
      rw [← hsmall, hr, Option.map_some, hindex]
    · exact hfirst.overlap_iff hc hranged hdisjoint

end

/-- Two files with a common user key: the first one ends at `b` with sequence number 7, and the second
one starts at `b` with sequence number 5. -/
def filesSharingKey : List (FileMetaData Slice) :=
  [exampleFile 3 [97] 9 [98] 7, exampleFile 4 [98] 5 [99] 2]

/-- The search at a key between the two files, and for the range that consists of their common user
key. -/
theorem level_search_exact_sharedBoundary :
    (∃ r i, findFileInt bytewiseComparator 3 filesSharingKey (.pack [98] 6 .value) = some r ∧
        r.toInt = (i : ℕ) ∧ IsFirstFrom bytewiseComparator filesSharingKey (.pack [98] 6 .value) i) ∧
      ∃ b, someFileOverlapsRangeBy bytewiseComparator 3 filesSharingKey [98] [98] = some b ∧
        (b = true ↔ ∃ f ∈ filesSharingKey, bytewiseComparator.Le f.smallest.userKey [98] ∧
          bytewiseComparator.Le [98] f.largest.userKey) :=
  level_search_exact bytewiseComparator_totalOrder.toTotalPreorder (by decide) (by decide) (by decide)
    (by decide) _ _ _

/-! ## As many files as there are 32-bit words -/

/-- A file with one entry, a version of the empty user key. -/
def singleVersion (number sequence : ℕ) : FileMetaData Slice :=
  exampleFile number [] sequence [] sequence

/-- Files with one version of one user key each, newest first. -/
def manyVersions (n : ℕ) : List (FileMetaData Slice) :=
  (List.range n).map fun i => singleVersion i (n - i)

/-- The versions are sorted and disjoint by internal key. -/
theorem manyVersions_disjoint {n : ℕ} (h : n ≤ kMaxSequenceNumber) :
    (manyVersions n).Pairwise fun f g => bytewiseComparator.KeyLt f.largest g.smallest := by
  unfold manyVersions
  rw [List.pairwise_map]
  refine List.pairwise_lt_range.imp_of_mem fun {i j} hi hj hlt => ?_
  rw [List.mem_range] at hi hj
  refine Or.inr ⟨rfl, ?_⟩
  show (n - j) % 2^56 * 256 + 1 < (n - i) % 2^56 * 256 + 1
  unfold kMaxSequenceNumber at h
  rw [Nat.mod_eq_of_lt (by omega), Nat.mod_eq_of_lt (by omega)]
  omega

/-- The number of `2^32` files is zero as a 32-bit word: `FindFile` returns the first file for a key
that lies after all of them. -/
theorem findFile_wraps :
    ¬∀ (files : List (FileMetaData Slice)) (key : InternalKey Slice),
      (∀ f ∈ files, bytewiseComparator.KeyLe f.smallest f.largest) →
      (files.Pairwise fun f g => bytewiseComparator.KeyLt f.largest g.smallest) →
      ∃ fuel r i, findFileInt bytewiseComparator fuel files key = some r ∧ r.toInt = (i : ℕ) ∧
        IsFirstFrom bytewiseComparator files key i := by
  intro hall
  obtain ⟨fuel, r, i, hr, hint, hfirst⟩ := hall (manyVersions (2^32)) (.pack [] 0 .deletion)
    (by
      intro f hf
      obtain ⟨i, -, rfl⟩ := List.mem_map.mp hf
      exact Or.inr ⟨rfl, le_refl _⟩)
    (manyVersions_disjoint (by decide))
  have hlen : (manyVersions (2^32)).length = 2^32 := by
    unfold manyVersions
    rw [List.length_map, List.length_range]
  -- The interval is empty from the start.
  have hzero : r.toInt = 0 := by
    unfold findFileInt at hr
    rw [hlen] at hr
    cases fuel with
    | zero => cases hr
    | succ fuel =>
      rw [findFileLoop, if_neg (by decide)] at hr
      rw [← Option.some.inj hr]
      decide
  obtain rfl : i = 0 := by omega
  -- The first file ends before the key.
  have hget : (manyVersions (2^32))[0]? = some (singleVersion 0 (2^32)) := by
    unfold manyVersions
    rw [List.getElem?_map, List.getElem?_range (by decide)]
    rfl
  exact absurd (hfirst.reached hget) (by decide)

end LevelDb
