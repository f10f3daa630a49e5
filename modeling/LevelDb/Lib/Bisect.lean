import LevelDb.Lib.SortedList
import Mathlib.Data.Nat.Basic
import Mathlib.Tactic.Common
import Mathlib.Order.Basic

/-!
# Bisection

The loop of a binary search over an interval `[left, right)` of indices, for a test `before` that
says that the wanted position lies after the probed index. On a test that holds exactly on an
initial part of the interval the loop finds the end of that part (`bisect_of_partition`); when the
test asks the elements of a list for a predicate that only ever turns off, that part is the
`takeWhile` of the list (`bisect_eq_length_takeWhile`). On an arbitrary test only weaker facts hold: the result is the right end or an index on which the test
fails (`bisect_stop`), and which indices are probed decides whether the search stops below a given
bound (`bisect_lt_iff_probe`).
-/

namespace LevelDb.Lib

/-- A binary search of `[left, right)` with at most `fuel` probes. `right - left` probes are
enough. -/
def bisect (before : ℕ → Bool) : ℕ → ℕ → ℕ → ℕ
  | 0, _, right => right
  | fuel + 1, left, right =>
    if left < right then
      let mid := (left + right) / 2
      if before mid then bisect before fuel (mid + 1) right
      else bisect before fuel left mid
    else right

/-- The indices that a binary search of `[left, right)` for the position `target` probes. They are
a function of the interval and of the position only. -/
def probes (target : ℕ) : ℕ → ℕ → ℕ → List ℕ
  | 0, _, _ => []
  | fuel + 1, left, right =>
    if left < right then
      let mid := (left + right) / 2
      if mid < target then mid :: probes target fuel (mid + 1) right
      else mid :: probes target fuel left mid
    else []

/-- The result stays inside the interval. -/
theorem bisect_mem (before : ℕ → Bool) : ∀ fuel left right, left ≤ right →
    left ≤ bisect before fuel left right ∧ bisect before fuel left right ≤ right
  | 0, left, right, h => by simp [bisect, h]
  | fuel + 1, left, right, h => by
    rw [bisect]
    split_ifs with hlt
    · dsimp only
      split_ifs with hp
      · have := bisect_mem before fuel ((left + right) / 2 + 1) right (by omega)
        omega
      · have := bisect_mem before fuel left ((left + right) / 2) (by omega)
        omega
    · exact ⟨h, le_refl right⟩

/-- The search stops at the right end of its interval or at an index on which the test fails. -/
theorem bisect_stop (before : ℕ → Bool) : ∀ fuel left right,
    bisect before fuel left right = right ∨ before (bisect before fuel left right) = false
  | 0, left, right => by simp [bisect]
  | fuel + 1, left, right => by
    rw [bisect]
    split_ifs with hlt
    · dsimp only
      split_ifs with hp
      · exact bisect_stop before fuel _ right
      · -- The right end moved to `mid`, where the test fails.
        rcases bisect_stop before fuel left ((left + right) / 2) with h | h
        · right
          rw [h]
          simpa using hp
        · exact Or.inr h
    · exact Or.inl rfl

/-- On a test that holds exactly below `target`, the search finds `target`. -/
theorem bisect_of_partition (before : ℕ → Bool) (target : ℕ) : ∀ fuel left right,
    right - left ≤ fuel → left ≤ target → target ≤ right →
    (∀ i, left ≤ i → i < right → (before i = true ↔ i < target)) →
    bisect before fuel left right = target
  | 0, left, right, hf, hl, hr, _ => by
    rw [bisect]
    omega
  | fuel + 1, left, right, hf, hl, hr, hp => by
    rw [bisect]
    split_ifs with hlt
    · dsimp only
      have hmid := hp ((left + right) / 2) (by omega) (by omega)
      split_ifs with hb
      · have hm := hmid.1 hb
        exact bisect_of_partition before target fuel _ right (by omega) (by omega) hr
          fun i hi hi' => hp i (by omega) hi'
      · have hm : ¬ (left + right) / 2 < target := fun h => hb (hmid.2 h)
        exact bisect_of_partition before target fuel left _ (by omega) hl (by omega)
          fun i hi hi' => hp i hi (by omega)
    · omega

/-- The search of a list along which a predicate only ever turns off finds the end of its
`takeWhile`. -/
theorem bisect_eq_length_takeWhile {α : Type} {p : α → Bool} {l : List α} {before : ℕ → Bool}
    (hl : l.Pairwise fun a b => p b = true → p a = true)
    (hbefore : ∀ {i a}, l[i]? = some a → before i = p a) :
    bisect before l.length 0 l.length = (l.takeWhile p).length := by
  refine bisect_of_partition _ _ _ _ _ (Nat.sub_le _ _) (Nat.zero_le _)
    (List.takeWhile_sublist _).length_le fun i _ hi => ?_
  have hget : l[i]? = some l[i] := List.getElem?_eq_getElem hi
  rw [hbefore hget]
  exact (lt_length_takeWhile_iff hl hget).symm

/-- Whether an arbitrary search stops below a bound. When the test fails from `bound` on, the search
stops below `bound` exactly when one of the probes of a search for `bound` itself lies below it
and fails the test: until then both searches go the same way. -/
theorem bisect_lt_iff_probe (before : ℕ → Bool) (bound : ℕ) : ∀ fuel left right,
    right - left ≤ fuel → bound ≤ right →
    (∀ i, bound ≤ i → i < right → before i = false) →
    (bisect before fuel left right < bound ↔
      ∃ i ∈ probes bound fuel left right, i < bound ∧ before i = false)
  | 0, left, right, hf, hb, hp => by
    simp only [bisect, probes, List.not_mem_nil, false_and, exists_false, iff_false]
    omega
  | fuel + 1, left, right, hf, hb, hp => by
    rw [bisect, probes]
    split_ifs with hlt
    · dsimp only
      by_cases hm : (left + right) / 2 < bound
      · rw [if_pos hm]
        by_cases hpm : before ((left + right) / 2) = true
        · rw [if_pos hpm, bisect_lt_iff_probe before bound fuel _ right (by omega) hb hp]
          simp [hpm]
        · -- The probe fails below the bound, so the search ends at or below it.
          rw [if_neg hpm]
          have hle := (bisect_mem before fuel left ((left + right) / 2) (by omega)).2
          refine iff_of_true (by omega) ⟨_, List.mem_cons_self .., hm, by simpa using hpm⟩
      · have hpm : before ((left + right) / 2) = false := hp _ (by omega) (by omega)
        rw [if_neg hm, if_neg (by simp [hpm]),
          bisect_lt_iff_probe before bound fuel left _ (by omega) (by omega)
            fun i hi hi' => hp i hi (by omega)]
        constructor
        · rintro ⟨i, hi, h⟩
          exact ⟨i, List.mem_cons_of_mem _ hi, h⟩
        · rintro ⟨i, hi, h⟩
          rcases List.mem_cons.mp hi with rfl | hi
          · exact absurd h.1 hm
          · exact ⟨i, hi, h⟩
    · simp only [List.not_mem_nil, false_and, exists_false, iff_false]
      omega

end LevelDb.Lib
