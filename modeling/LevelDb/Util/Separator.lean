import LevelDb.Lib.Buffer
import LevelDb.Util.Comparator
import LevelDb.Util.Coding
import Mathlib.Data.List.Lex

/-!
# Separators of the bytewise comparator

The loops of `BytewiseComparatorImpl` in `util/comparator.cc`, over strings of `char`, which is signed: a
byte is compared as a `uint8_t`, and incremented as a `char`. They compute the functions of
`bytewiseComparator` (`findShortestSeparator_eq`, `findShortSuccessor_eq`), and their contract holds for all
strings in the lexicographic order of unsigned bytes (`bytewise_separators`). That is the order of
`Slice::compare` as long as the common length fits into an `int` (`sliceCompare_eq`).
-/

namespace LevelDb

open Lib

/-! ## The loops -/

/-- `(*start)[i]++` for a `char`. -/
def charIncrement (b : UInt8) : UInt8 := (b.toInt8 + 1).toUInt8

/-- The loop of `FindShortestSeparator` that finds the length of the common prefix, with at most `fuel`
rounds. -/
def diffIndexLoop (start limit : Slice) (minLength : ℕ) : ℕ → ℕ → ℕ
  | 0, diffIndex => diffIndex
  | fuel + 1, diffIndex =>
    if diffIndex < minLength ∧ start.getD diffIndex 0 = limit.getD diffIndex 0 then
      diffIndexLoop start limit minLength fuel (diffIndex + 1)
    else diffIndex

/-- `BytewiseComparatorImpl::FindShortestSeparator`, which changes `start`. -/
def findShortestSeparator (start limit : Slice) : Slice :=
  -- Find length of common prefix
  let minLength := min start.length limit.length
  let diffIndex := diffIndexLoop start limit minLength minLength 0
  -- Do not shorten if one string is a prefix of the other
  if minLength ≤ diffIndex then start
  else
    let diffByte := start.getD diffIndex 0
    if diffByte < 0xff ∧ diffByte.toNat + 1 < (limit.getD diffIndex 0).toNat then
      resize 0 (diffIndex + 1) (start.set diffIndex (charIncrement (start.getD diffIndex 0)))
    else start

/-- The loop of `FindShortSuccessor`, with at most `fuel` rounds. -/
def successorLoop (key : Slice) : ℕ → ℕ → Slice
  | 0, _ => key
  | fuel + 1, i =>
    if i < key.length then
      let byte := key.getD i 0
      if byte ≠ 0xff then resize 0 (i + 1) (key.set i (byte + 1)) else successorLoop key fuel (i + 1)
    -- *key is a run of 0xffs.  Leave it alone.
    else key

/-- `BytewiseComparatorImpl::FindShortSuccessor`, which changes `key`. -/
def findShortSuccessor (key : Slice) : Slice := successorLoop key key.length 0

/-- `memcmp` on `n` bytes, of which there must be as many in both strings. -/
def memcmp (a b : Slice) (n : ℕ) : Option Ordering :=
  if n ≤ a.length ∧ n ≤ b.length then some (bytewiseCompare (a.take n) (b.take n)) else none

/-- `Slice::compare`. The common length is an `int`, and `memcmp` takes it for a `size_t`. -/
def sliceCompare (a b : Slice) : Option Ordering :=
  let minSize : ℕ := if a.length < b.length then a.length else b.length
  let minLen := toInt32 minSize
  (memcmp a b (minLen % 2^64).toNat).map fun r =>
    if r = .eq then
      if a.length < b.length then .lt else if b.length < a.length then .gt else r
    else r

/-! ## What they compute -/

/-- A `char` and an unsigned byte are incremented alike. -/
theorem charIncrement_eq (b : UInt8) : charIncrement b = b + 1 := by
  unfold charIncrement
  rw [Int8.toUInt8_add]
  rfl

/-- A byte that is written behind a front, with the rest cut off. -/
theorem resize_set {s : Slice} {i : ℕ} (h : i < s.length) (b : UInt8) :
    resize 0 (i + 1) (s.set i b) = s.take i ++ [b] := by
  unfold resize
  rw [List.length_set, Nat.sub_eq_zero_of_le h, List.replicate_zero, List.append_nil,
    List.take_succ_eq_append_getElem (by rwa [List.length_set]), List.getElem_set_self,
    List.take_set_of_le (le_refl i)]

/-- The loop finds the common front of what is left. -/
theorem diffIndexLoop_eq (start limit : Slice) : ∀ fuel i, i ≤ min start.length limit.length →
    min start.length limit.length - i ≤ fuel →
    diffIndexLoop start limit (min start.length limit.length) fuel i =
      i + sharedLength (start.drop i) (limit.drop i)
  | 0, i, hi, hfuel => by
    have hend : start.length ≤ i ∨ limit.length ≤ i := by omega
    rw [diffIndexLoop]
    obtain hend | hend := hend
    · rw [List.drop_eq_nil_of_le hend, sharedLength, Nat.add_zero]
      simp
    · rw [List.drop_eq_nil_of_le hend]
      cases start.drop i <;> rfl
  | fuel + 1, i, hi, hfuel => by
    rw [diffIndexLoop]
    by_cases hlt : i < min start.length limit.length
    · have hstart : i < start.length := by omega
      have hlimit : i < limit.length := by omega
      rw [List.drop_eq_getElem_cons hstart, List.drop_eq_getElem_cons hlimit, sharedLength,
        List.getElem_eq_getD 0, List.getElem_eq_getD 0]
      split_ifs with hsame heq heq
      · rw [diffIndexLoop_eq start limit fuel (i + 1) (by omega) (by omega)]
        omega
      · exact absurd hsame.2 heq
      · exact absurd ⟨hlt, heq⟩ hsame
      · rfl
    · have hend : start.length ≤ i ∨ limit.length ≤ i := by omega
      rw [if_neg fun h => hlt h.1]
      obtain hend | hend := hend
      · rw [List.drop_eq_nil_of_le hend, sharedLength, Nat.add_zero]
        simp
      · rw [List.drop_eq_nil_of_le hend]
        cases start.drop i <;> rfl

/-- `FindShortestSeparator` as it is written is the one of the comparator `bytewiseComparator`. -/
theorem findShortestSeparator_eq (start limit : Slice) :
    findShortestSeparator start limit = bytewiseComparator.findShortestSeparator start limit := by
  have hloop : diffIndexLoop start limit (min start.length limit.length)
      (min start.length limit.length) 0 = sharedLength start limit := by
    rw [diffIndexLoop_eq start limit _ 0 (Nat.zero_le _) (Nat.sub_le _ _), Nat.zero_add, List.drop_zero,
      List.drop_zero]
  show _ = bytewiseSeparator start limit
  unfold findShortestSeparator bytewiseSeparator
  dsimp only
  rw [hloop]
  split_ifs with hprefix hbyte
  · rfl
  · rw [resize_set (by omega), charIncrement_eq]
  · rfl

/-- The loop of `FindShortSuccessor` goes on behind the bytes that it has passed. -/
theorem successorLoop_eq (key : Slice) : ∀ fuel i, key.length - i ≤ fuel →
    successorLoop key fuel i = key.take i ++ bytewiseSuccessor (key.drop i)
  | 0, i, hfuel => by
    rw [successorLoop, List.drop_eq_nil_of_le (by omega), List.take_of_length_le (by omega),
      bytewiseSuccessor, List.append_nil]
  | fuel + 1, i, hfuel => by
    rw [successorLoop]
    dsimp only
    split_ifs with hlt hbyte
    · rw [← List.getElem_eq_getD (h := hlt) 0] at hbyte ⊢
      rw [resize_set hlt, List.drop_eq_getElem_cons hlt, bytewiseSuccessor, if_pos hbyte]
    · rw [← List.getElem_eq_getD (h := hlt) 0] at hbyte
      rw [successorLoop_eq key fuel (i + 1) (by omega), List.drop_eq_getElem_cons hlt, bytewiseSuccessor,
        if_neg hbyte, List.take_succ_eq_append_getElem hlt, List.append_assoc, List.singleton_append]
    · rw [List.drop_eq_nil_of_le (by omega), List.take_of_length_le (by omega), bytewiseSuccessor,
        List.append_nil]

/-- `FindShortSuccessor` as it is written is the one of the comparator `bytewiseComparator`. -/
theorem findShortSuccessor_eq (key : Slice) :
    findShortSuccessor key = bytewiseComparator.findShortSuccessor key := by
  unfold findShortSuccessor
  rw [successorLoop_eq key _ 0 (Nat.sub_le _ _)]
  rfl

/-! ## The order of byte strings -/

/-- The comparator is the lexicographic order of byte strings. -/
theorem bytewiseComparator_lt_iff : ∀ {a b : Slice}, bytewiseComparator.Lt a b ↔ a < b
  | [], [] => iff_of_false (by decide) (lt_irrefl _)
  | [], y :: b => iff_of_true rfl (List.nil_lt_cons y b)
  | x :: a, [] => iff_of_false (by rintro ⟨⟩) (List.not_lt_nil _)
  | x :: a, y :: b => by
    rw [List.cons_lt_cons_iff, ← @bytewiseComparator_lt_iff a b]
    show bytewiseCompare (x :: a) (y :: b) = .lt ↔ x < y ∨ x = y ∧ bytewiseCompare a b = .lt
    rw [bytewiseCompare]
    obtain hlt | rfl | hgt := lt_trichotomy x y
    · rw [if_pos hlt]
      exact iff_of_true rfl (Or.inl hlt)
    · rw [if_neg (lt_irrefl x), if_neg (lt_irrefl x)]
      exact ⟨fun h => Or.inr ⟨rfl, h⟩, fun h => (h.resolve_left (lt_irrefl x)).2⟩
    · rw [if_neg hgt.not_gt, if_pos hgt]
      refine iff_of_false (by rintro ⟨⟩) ?_
      rintro (hlt | ⟨heq, -⟩)
      · exact hgt.not_gt hlt
      · exact hgt.ne' heq

/-- The order of the bytewise comparator is the lexicographic order of byte strings. -/
theorem bytewiseComparator_le_iff {a b : Slice} : bytewiseComparator.Le a b ↔ a ≤ b := by
  rw [← bytewiseComparator_totalOrder.not_lt, bytewiseComparator_lt_iff, not_lt]

/-- Bytes behind the common length decide only if the bytes before it are the same. -/
theorem bytewiseCompare_take : ∀ {a b : Slice} {n : ℕ}, n = min a.length b.length →
    bytewiseCompare a b = (bytewiseCompare (a.take n) (b.take n)).then (compare a.length b.length)
  | [], [], n, h => by
    rw [List.take_nil]
    rfl
  | [], _ :: _, n, h => by
    obtain rfl : n = 0 := by simpa using h
    rw [List.take_zero, List.take_zero, List.length_nil, List.length_cons,
      Nat.compare_eq_lt.mpr (Nat.succ_pos _)]
    rfl
  | _ :: _, [], n, h => by
    obtain rfl : n = 0 := by simpa using h
    rw [List.take_zero, List.take_zero, List.length_nil, List.length_cons,
      Nat.compare_eq_gt.mpr (Nat.succ_pos _)]
    rfl
  | x :: a, y :: b, n, h => by
    rw [List.length_cons, List.length_cons, Nat.add_min_add_right] at h
    rw [h, List.take_succ_cons, List.take_succ_cons, bytewiseCompare, bytewiseCompare]
    split_ifs
    · rfl
    · rfl
    · rw [bytewiseCompare_take (rfl : min a.length b.length = _), List.length_cons, List.length_cons]
      simp only [Nat.compare_eq_ite_lt, Nat.add_lt_add_iff_right]

/-- `Slice::compare` is the comparator as long as the common length fits into an `int`. -/
theorem sliceCompare_eq {a b : Slice} (h : min a.length b.length < 2^31) :
    sliceCompare a b = some (bytewiseComparator.compare a b) := by
  have hmin : (if a.length < b.length then a.length else b.length) = min a.length b.length := by
    rw [min_def]
    split_ifs <;> omega
  have hint : (toInt32 (min a.length b.length : ℕ) % 2^64).toNat = min a.length b.length := by
    have hsmall : toInt32 (min a.length b.length : ℕ) = (min a.length b.length : ℕ) := by
      refine Int.bmod_eq_of_le ?_ ?_ <;> omega
    rw [hsmall]
    omega
  have hcommon : memcmp a b (min a.length b.length) =
      some (bytewiseCompare (a.take (min a.length b.length)) (b.take (min a.length b.length))) :=
    if_pos ⟨Nat.min_le_left _ _, Nat.min_le_right _ _⟩
  show sliceCompare a b = some (bytewiseCompare a b)
  unfold sliceCompare
  dsimp only
  rw [hmin, hint, hcommon, Option.map_some, bytewiseCompare_take (a := a) (b := b) rfl,
    Nat.compare_eq_ite_lt]
  cases bytewiseCompare (a.take (min a.length b.length)) (b.take (min a.length b.length)) with
  | lt => rfl
  | gt => rfl
  | eq => rfl

/-! ## The contract -/

/-- `FindShortestSeparator` changes only the smaller of two strings. -/
theorem bytewiseSeparator_of_not_lt {start limit : Slice} (h : ¬bytewiseComparator.Lt start limit) :
    bytewiseSeparator start limit = start := by
  unfold bytewiseSeparator
  dsimp only
  set n := sharedLength start limit with hn
  split_ifs with hprefix hbyte
  · rfl
  · -- The byte of `start` is less than that of `limit` behind the common front.
    refine absurd ?_ h
    have hstart : n < start.length := by omega
    have hlimit : n < limit.length := by omega
    rw [← List.getElem_eq_getD (h := hstart) 0, ← List.getElem_eq_getD (h := hlimit) 0] at hbyte
    have hlt : start[n] < limit[n] := by
      rw [UInt8.lt_iff_toNat_lt]
      omega
    have hsplit : start = start.take n ++ start[n] :: start.drop (n + 1) := by
      rw [← List.drop_eq_getElem_cons hstart, List.take_append_drop]
    have hsplit' : limit = start.take n ++ limit[n] :: limit.drop (n + 1) := by
      rw [take_sharedLength start limit, ← List.drop_eq_getElem_cons hlimit, List.take_append_drop]
    show bytewiseCompare start limit = .lt
    rw [hsplit, hsplit', bytewiseCompare_append, bytewiseCompare, if_pos hlt]
  · rfl

/-- A separator is not longer than the string that it replaces. -/
theorem bytewiseSeparator_length_le (start limit : Slice) :
    (bytewiseSeparator start limit).length ≤ start.length := by
  unfold bytewiseSeparator
  dsimp only
  split_ifs with hprefix hbyte
  · exact le_rfl
  · rw [List.length_append, List.length_take, List.length_singleton]
    omega
  · exact le_rfl

/-- A successor is not longer than the string that it replaces. -/
theorem bytewiseSuccessor_length_le : ∀ key, (bytewiseSuccessor key).length ≤ key.length
  | [] => le_rfl
  | b :: key => by
    have ih := bytewiseSuccessor_length_le key
    unfold bytewiseSuccessor
    split_ifs
    · simp
    · rw [List.length_cons, List.length_cons]
      omega

/-- For all strings, in the lexicographic order of unsigned bytes: `FindShortestSeparator` leaves `start`
unchanged unless `start < limit`, and then changes it to a string in `[start, limit)` that is not longer;
`FindShortSuccessor` changes `key` to a string that is not less, and not longer. -/
theorem bytewise_separators :
    (∀ start limit, ¬start < limit → findShortestSeparator start limit = start) ∧
      (∀ start limit, start < limit → start ≤ findShortestSeparator start limit ∧
        findShortestSeparator start limit < limit ∧
          (findShortestSeparator start limit).length ≤ start.length) ∧
      ∀ key, key ≤ findShortSuccessor key ∧ (findShortSuccessor key).length ≤ key.length := by
  refine ⟨fun start limit h => ?_, fun start limit h => ?_, fun key => ?_⟩
  · rw [findShortestSeparator_eq]
    exact bytewiseSeparator_of_not_lt (mt bytewiseComparator_lt_iff.mp h)
  · rw [findShortestSeparator_eq]
    obtain ⟨hle, hlt⟩ := bytewiseSeparator_spec start limit (bytewiseComparator_lt_iff.mpr h)
    exact ⟨bytewiseComparator_le_iff.mp hle, bytewiseComparator_lt_iff.mp hlt,
      bytewiseSeparator_length_le start limit⟩
  · rw [findShortSuccessor_eq]
    exact ⟨bytewiseComparator_le_iff.mp (bytewiseSuccessor_spec key), bytewiseSuccessor_length_le key⟩

end LevelDb
