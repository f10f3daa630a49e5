import LevelDb.Format

/-!
# Comparators

`Comparator` of `include/leveldb/comparator.h`: a three-way comparison of byte strings, and two functions
that shorten keys for index blocks. A user may give any of them; `BytewiseComparator` is the one of
`util/comparator.cc`. The sign of the `int` that `Compare` returns is an `Ordering`.
-/

namespace LevelDb

/-! ## The interface -/

/-- `Comparator` -/
structure Comparator where
  /-- `Compare` -/
  compare : Slice → Slice → Ordering
  /-- `FindShortestSeparator`, which changes its first argument. -/
  findShortestSeparator : Slice → Slice → Slice
  /-- `FindShortSuccessor`, which changes its argument. -/
  findShortSuccessor : Slice → Slice

namespace Comparator

/-- `a < b` for the comparator. -/
def Lt (c : Comparator) (a b : Slice) : Prop := c.compare a b = .lt

/-- `a <= b` for the comparator. -/
def Le (c : Comparator) (a b : Slice) : Prop := c.compare a b ≠ .gt

/-- `a == b` for the comparator. -/
def Equal (c : Comparator) (a b : Slice) : Prop := c.compare a b = .eq

instance (c : Comparator) (a b : Slice) : Decidable (c.Lt a b) := inferInstanceAs (Decidable (_ = _))

instance (c : Comparator) (a b : Slice) : Decidable (c.Le a b) := inferInstanceAs (Decidable (_ ≠ _))

instance (c : Comparator) (a b : Slice) : Decidable (c.Equal a b) :=
  inferInstanceAs (Decidable (_ = _))

/-- A total preorder: different strings may be equal for the comparator. -/
structure TotalPreorder (c : Comparator) : Prop where
  /-- Swapping the arguments swaps the result. -/
  swap : ∀ a b, c.compare a b = (c.compare b a).swap
  /-- `<=` is transitive. -/
  trans : ∀ {a b d}, c.Le a b → c.Le b d → c.Le a d

/-- "A Comparator object provides a total order across slices." -/
structure TotalOrder (c : Comparator) : Prop extends c.TotalPreorder where
  /-- Only a string itself is equal to it. -/
  eq_of_equal : ∀ {a b}, c.Equal a b → a = b

/-- The contract of the two functions that shorten keys. -/
structure Shortens (c : Comparator) : Prop where
  /-- "If *start < limit, changes *start to a short string in [start,limit)." -/
  separator : ∀ {start limit}, c.Lt start limit →
    c.Le start (c.findShortestSeparator start limit) ∧
      c.Lt (c.findShortestSeparator start limit) limit
  /-- "Changes *key to a short string >= *key." -/
  successor : ∀ key, c.Le key (c.findShortSuccessor key)

/-! ## The order -/

section Order

variable {c : Comparator} {a b d : Slice}

/-- Under any comparator, strings in the strict order are in the order with equality. -/
theorem Lt.le (h : c.Lt a b) : c.Le a b := by
  intro hgt
  rw [Lt, hgt] at h
  exact Ordering.noConfusion h

/-- Strings that a comparator takes for equal are in its order both ways. -/
theorem Equal.le (h : c.Equal a b) : c.Le a b := by
  intro hgt
  rw [Equal, hgt] at h
  exact Ordering.noConfusion h

/-- The order with equality holds exactly if the strict one does or the strings are equal for the
comparator. -/
theorem le_iff_lt_or_equal : c.Le a b ↔ c.Lt a b ∨ c.Equal a b := by
  unfold Le Lt Equal
  cases c.compare a b <;> decide

/-- A string is equal to itself. -/
theorem TotalPreorder.refl (h : c.TotalPreorder) (a : Slice) : c.Equal a a := by
  have hswap := h.swap a a
  unfold Equal
  cases hcompare : c.compare a a with
  | eq => rfl
  | lt =>
    rw [hcompare] at hswap
    exact Ordering.noConfusion hswap
  | gt =>
    rw [hcompare] at hswap
    exact Ordering.noConfusion hswap

/-- Under a total preorder, being equal for the comparator is symmetric. -/
theorem TotalPreorder.equal_symm (h : c.TotalPreorder) (hab : c.Equal a b) : c.Equal b a := by
  unfold Equal at hab ⊢
  rw [h.swap b a, hab]
  rfl

/-- `a < b` unless `b <= a`. -/
theorem TotalPreorder.not_le (h : c.TotalPreorder) : ¬c.Le b a ↔ c.Lt a b := by
  unfold Le Lt
  rw [h.swap a b, not_not]
  cases c.compare b a <;> decide

/-- `a <= b` unless `b < a`. -/
theorem TotalPreorder.not_lt (h : c.TotalPreorder) : ¬c.Lt b a ↔ c.Le a b := by
  rw [← h.not_le, not_not]

/-- Under a total preorder any two strings are in the strict order, one way or the other, or equal. -/
theorem TotalPreorder.lt_or_equal_or_gt (h : c.TotalPreorder) (a b : Slice) :
    c.Lt a b ∨ c.Equal a b ∨ c.Lt b a := by
  by_cases hle : c.Le a b
  · obtain hlt | heq := le_iff_lt_or_equal.mp hle
    · exact Or.inl hlt
    · exact Or.inr (Or.inl heq)
  · exact Or.inr (Or.inr (h.not_le.mp hle))

/-- Under a total preorder, `a <= b` and `b < d` give `a < d`. -/
theorem TotalPreorder.lt_of_le_of_lt (h : c.TotalPreorder) (hab : c.Le a b) (hbd : c.Lt b d) :
    c.Lt a d := by
  apply h.not_le.mp
  intro hda
  exact h.not_le.mpr hbd (h.trans hda hab)

/-- Under a total preorder, `a < b` and `b <= d` give `a < d`. -/
theorem TotalPreorder.lt_of_lt_of_le (h : c.TotalPreorder) (hab : c.Lt a b) (hbd : c.Le b d) :
    c.Lt a d := by
  apply h.not_le.mp
  intro hda
  exact h.not_le.mpr hab (h.trans hbd hda)

/-- Under a total preorder, the strict order is transitive. -/
theorem TotalPreorder.lt_trans (h : c.TotalPreorder) (hab : c.Lt a b) (hbd : c.Lt b d) : c.Lt a d :=
  h.lt_of_lt_of_le hab hbd.le

/-- Under a total preorder no string is less than itself. -/
theorem TotalPreorder.lt_irrefl (h : c.TotalPreorder) (a : Slice) : ¬c.Lt a a :=
  h.not_lt.mpr (h.refl a).le

/-- Under a total preorder, two strings are not in the strict order both ways. -/
theorem TotalPreorder.lt_asymm (h : c.TotalPreorder) (hab : c.Lt a b) : ¬c.Lt b a :=
  h.not_lt.mpr hab.le

/-- In a total order, equality is equality of the strings. -/
theorem TotalOrder.equal_iff (h : c.TotalOrder) : c.Equal a b ↔ a = b := by
  constructor
  · exact h.eq_of_equal
  · rintro rfl
    exact h.refl a

end Order

end Comparator

/-! ## The bytewise comparator -/

/-- `Slice::compare`: `memcmp` on the common length, then the lengths. -/
def bytewiseCompare : Slice → Slice → Ordering
  | [], [] => .eq
  | [], _ :: _ => .lt
  | _ :: _, [] => .gt
  | x :: a, y :: b => if x < y then .lt else if y < x then .gt else bytewiseCompare a b

/-- The length of the common front of two strings. -/
def sharedLength : Slice → Slice → ℕ
  | x :: a, y :: b => if x = y then sharedLength a b + 1 else 0
  | _, _ => 0

/-- `BytewiseComparatorImpl::FindShortestSeparator` -/
def bytewiseSeparator (start limit : Slice) : Slice :=
  let diffIndex := sharedLength start limit
  -- Do not shorten if one string is a prefix of the other
  if min start.length limit.length ≤ diffIndex then start
  else
    let diffByte := start.getD diffIndex 0
    if diffByte < 0xff ∧ diffByte.toNat + 1 < (limit.getD diffIndex 0).toNat then
      start.take diffIndex ++ [diffByte + 1]
    else start

/-- `BytewiseComparatorImpl::FindShortSuccessor`: the first byte that can be incremented is. -/
def bytewiseSuccessor : Slice → Slice
  | [] => []
  | b :: key => if b ≠ 0xff then [b + 1] else b :: bytewiseSuccessor key

/-- `BytewiseComparator` -/
def bytewiseComparator : Comparator where
  compare := bytewiseCompare
  findShortestSeparator := bytewiseSeparator
  findShortSuccessor := bytewiseSuccessor

section Bytewise

/-- A common front does not matter. -/
theorem bytewiseCompare_append (front a b : Slice) :
    bytewiseCompare (front ++ a) (front ++ b) = bytewiseCompare a b := by
  induction front with
  | nil => rfl
  | cons x front ih =>
    rw [List.cons_append, List.cons_append, bytewiseCompare, if_neg (lt_irrefl x),
      if_neg (lt_irrefl x), ih]

/-- A string is not less than its front. -/
theorem bytewise_not_append_lt (front rest : Slice) : ¬bytewiseComparator.Lt (front ++ rest) front := by
  have hcompare := bytewiseCompare_append front rest []
  rw [List.append_nil] at hcompare
  intro h
  have hlt : bytewiseCompare (front ++ rest) front = .lt := h
  rw [hcompare] at hlt
  cases rest with
  | nil => exact Ordering.noConfusion hlt
  | cons b rest => exact Ordering.noConfusion hlt

/-- Swapping the arguments swaps the result. -/
theorem bytewiseCompare_swap : ∀ a b, bytewiseCompare a b = (bytewiseCompare b a).swap
  | [], [] => rfl
  | [], _ :: _ => rfl
  | _ :: _, [] => rfl
  | x :: a, y :: b => by
    unfold bytewiseCompare
    obtain hlt | rfl | hgt := lt_trichotomy x y
    · rw [if_pos hlt, if_neg hlt.not_gt, if_pos hlt]
      rfl
    · simp only [if_neg (lt_irrefl x)]
      exact bytewiseCompare_swap a b
    · rw [if_neg hgt.not_gt, if_pos hgt, if_pos hgt]
      rfl

/-- The order of bytewise comparison, with equality, is transitive. -/
theorem bytewiseCompare_trans : ∀ {a b d}, bytewiseCompare a b ≠ .gt → bytewiseCompare b d ≠ .gt →
    bytewiseCompare a d ≠ .gt
  | [], _, [] => fun _ _ h => Ordering.noConfusion h
  | [], _, _ :: _ => by
    intro _ _ h
    exact Ordering.noConfusion h
  | _ :: _, [], _ => fun h => absurd rfl h
  | _ :: _, _ :: _, [] => fun _ h => absurd rfl h
  | x :: a, y :: b, z :: d => by
    unfold bytewiseCompare
    intro hab hbd
    obtain hxy | rfl | hyx := lt_trichotomy x y
    · obtain hyz | rfl | hzy := lt_trichotomy y z
      · rw [if_pos (hxy.trans hyz)]
        decide
      · rw [if_pos hxy]
        decide
      · rw [if_neg hzy.not_gt, if_pos hzy] at hbd
        exact absurd rfl hbd
    · obtain hyz | rfl | hzy := lt_trichotomy x z
      · rw [if_pos hyz]
        decide
      · rw [if_neg (lt_irrefl x), if_neg (lt_irrefl x)] at hab hbd ⊢
        exact bytewiseCompare_trans hab hbd
      · rw [if_neg hzy.not_gt, if_pos hzy] at hbd
        exact absurd rfl hbd
    · rw [if_neg hyx.not_gt, if_pos hyx] at hab
      exact absurd rfl hab

/-- Only a string itself is equal to it. -/
theorem eq_of_bytewiseCompare : ∀ {a b}, bytewiseCompare a b = .eq → a = b
  | [], [] => fun _ => rfl
  | [], _ :: _ => fun h => Ordering.noConfusion h
  | _ :: _, [] => fun h => Ordering.noConfusion h
  | x :: a, y :: b => by
    unfold bytewiseCompare
    intro h
    obtain hxy | rfl | hyx := lt_trichotomy x y
    · rw [if_pos hxy] at h
      exact Ordering.noConfusion h
    · rw [if_neg (lt_irrefl x), if_neg (lt_irrefl x)] at h
      rw [eq_of_bytewiseCompare h]
    · rw [if_neg hyx.not_gt, if_pos hyx] at h
      exact Ordering.noConfusion h

/-- The bytewise comparator is a total order. -/
theorem bytewiseComparator_totalOrder : bytewiseComparator.TotalOrder where
  swap := bytewiseCompare_swap
  trans := bytewiseCompare_trans
  eq_of_equal := eq_of_bytewiseCompare

/-- Two strings agree up to the length of their common front. -/
theorem take_sharedLength : ∀ a b : Slice, a.take (sharedLength a b) = b.take (sharedLength a b)
  | [], _ => by simp [sharedLength]
  | _ :: _, [] => by simp [sharedLength]
  | x :: a, y :: b => by
    unfold sharedLength
    split_ifs with h
    · rw [List.take_succ_cons, List.take_succ_cons, h, take_sharedLength a b]
    · rfl

/-- The common front is not longer than the strings. -/
theorem sharedLength_le : ∀ a b : Slice, sharedLength a b ≤ a.length ∧ sharedLength a b ≤ b.length
  | [], _ => by simp [sharedLength]
  | _ :: _, [] => by simp [sharedLength]
  | x :: a, y :: b => by
    have ih := sharedLength_le a b
    unfold sharedLength
    rw [List.length_cons, List.length_cons]
    split_ifs <;> omega

/-- A string is its common front with itself. -/
theorem sharedLength_self (a : Slice) : sharedLength a a = a.length := by
  induction a with
  | nil => rfl
  | cons x a ih => rw [sharedLength, if_pos rfl, ih, List.length_cons]

/-- A byte that is incremented gets larger. -/
theorem toNat_add_one {b : UInt8} (h : b < 0xff) : (b + 1).toNat = b.toNat + 1 := by
  have hlt : b.toNat < 255 := h
  rw [UInt8.toNat_add]
  exact Nat.mod_eq_of_lt (show b.toNat + 1 < 256 by omega)

/-- The string that the bytewise `FindShortestSeparator` leaves is not before `start`, and before
`limit`. -/
theorem bytewiseSeparator_spec (start limit : Slice) (h : bytewiseComparator.Lt start limit) :
    bytewiseComparator.Le start (bytewiseSeparator start limit) ∧
      bytewiseComparator.Lt (bytewiseSeparator start limit) limit := by
  have hsame : bytewiseComparator.Le start start ∧ bytewiseComparator.Lt start limit :=
    ⟨(bytewiseComparator_totalOrder.refl start).le, h⟩
  unfold bytewiseSeparator
  dsimp only
  set n := sharedLength start limit with hn
  split_ifs with hprefix hbyte
  · exact hsame
  · -- The strings differ in a byte that is incremented.
    have hstart : n < start.length := by omega
    have hlimit : n < limit.length := by omega
    have hfront : start.take n = limit.take n := take_sharedLength start limit
    have hget : start.getD n 0 = start[n] := List.getElem_eq_getD 0 |>.symm
    have hget' : limit.getD n 0 = limit[n] := List.getElem_eq_getD 0 |>.symm
    rw [hget] at hbyte ⊢
    rw [hget'] at hbyte
    have hinc := toNat_add_one hbyte.1
    have hsplit : start = start.take n ++ start[n] :: start.drop (n + 1) := by
      rw [← List.drop_eq_getElem_cons hstart, List.take_append_drop]
    have hsplit' : limit = start.take n ++ limit[n] :: limit.drop (n + 1) := by
      rw [hfront, ← List.drop_eq_getElem_cons hlimit, List.take_append_drop]
    constructor
    · have hlt : start[n] < start[n] + 1 := by
        rw [UInt8.lt_iff_toNat_lt, hinc]
        omega
      have hcompare : bytewiseCompare start (start.take n ++ [start[n] + 1]) = .lt := by
        conv_lhs =>
          arg 1
          rw [hsplit]
        rw [bytewiseCompare_append, bytewiseCompare, if_pos hlt]
      exact Comparator.Lt.le hcompare
    · have hlt : start[n] + 1 < limit[n] := by
        rw [UInt8.lt_iff_toNat_lt, hinc]
        exact hbyte.2
      show bytewiseCompare (start.take n ++ [start[n] + 1]) limit = .lt
      conv_lhs =>
        arg 2
        rw [hsplit']
      rw [bytewiseCompare_append, bytewiseCompare, if_pos hlt]
  · exact hsame

/-- The string that the bytewise `FindShortSuccessor` leaves is not before the key. -/
theorem bytewiseSuccessor_spec : ∀ key, bytewiseComparator.Le key (bytewiseSuccessor key)
  | [] => by decide
  | b :: key => by
    unfold bytewiseSuccessor
    split_ifs with hb
    · have hlt : b < b + 1 := by
        have hmax : b < 0xff := by
          have hle := b.toNat_lt
          have hne : b.toNat ≠ 255 := fun h => hb (UInt8.toNat_inj.mp h)
          show b.toNat < 255
          omega
        rw [UInt8.lt_iff_toNat_lt, toNat_add_one hmax]
        omega
      have hcompare : bytewiseCompare (b :: key) [b + 1] = .lt := by
        rw [bytewiseCompare, if_pos hlt]
      exact Comparator.Lt.le hcompare
    · show bytewiseCompare (b :: key) (b :: bytewiseSuccessor key) ≠ .gt
      rw [bytewiseCompare, if_neg (lt_irrefl b), if_neg (lt_irrefl b)]
      exact bytewiseSuccessor_spec key

/-- The bytewise comparator keeps the contract. -/
theorem bytewiseComparator_shortens : bytewiseComparator.Shortens where
  separator := @bytewiseSeparator_spec
  successor := bytewiseSuccessor_spec

end Bytewise

end LevelDb
