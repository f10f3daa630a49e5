import Mathlib.Algebra.Group.Nat.Defs
import Mathlib.Logic.Function.Basic
import Mathlib.Tactic.Common

/-!
# Reference counters of a fixed width

Cells at addresses, where every cell has a counter of `w` bits for the references to it. A cell is freed
when its counter reaches 0. The counters agree with the number of references (`Accounted`) modulo `2^w`,
and as long as a cell has at most `2^w` references, a reference that is given back frees the cell if and
only if it was the last one (`wordPred_eq`).
-/

namespace LevelDb.Lib

variable {α : Type} {refs : α → ℕ} {w : ℕ} {heap : ℕ → Option α} {count : ℕ → ℕ}

/-- A counter goes up by one. -/
def wordSucc (w n : ℕ) : ℕ := (n + 1) % 2^w

/-- A counter goes down by one. -/
def wordPred (w n : ℕ) : ℕ := (n + 2^w - 1) % 2^w

/-- A counter that stands for a number goes up as the number does. -/
theorem wordSucc_mod (w n : ℕ) : wordSucc w (n % 2^w) = (n + 1) % 2^w := by
  unfold wordSucc
  exact Nat.mod_add_mod n (2^w) 1

/-- A counter that stands for a number of references goes down as the number does. -/
theorem wordPred_eq {n : ℕ} (hpos : 0 < n) (hle : n ≤ 2^w) : wordPred w (n % 2^w) = n - 1 := by
  unfold wordPred
  obtain hlt | rfl := Nat.lt_or_eq_of_le hle
  · rw [Nat.mod_eq_of_lt hlt, show n + 2^w - 1 = n - 1 + 2^w by omega, Nat.add_mod_right,
      Nat.mod_eq_of_lt (by omega)]
  · rw [Nat.mod_self, Nat.zero_add, Nat.mod_eq_of_lt (by omega)]

/-- Every reference is counted, and leads to a cell. -/
structure Accounted (refs : α → ℕ) (w : ℕ) (heap : ℕ → Option α) (count : ℕ → ℕ) : Prop where
  /-- The counters stand for the numbers of references. -/
  refs_eq : ∀ {id : ℕ} {a : α}, heap id = some a → refs a = count id % 2^w
  /-- What is referenced is there. -/
  alive : ∀ {id : ℕ}, 0 < count id → ∃ a, heap id = some a

/-- A cell is written, with its counter. -/
theorem Accounted.write (h : Accounted refs w heap count) (id : ℕ) {a : α} {n : ℕ}
    (ha : refs a = n % 2^w) :
    Accounted refs w (Function.update heap id (some a)) (Function.update count id n) := by
  constructor
  · intro id' b hb
    by_cases heq : id' = id
    · subst heq
      rw [Function.update_self] at hb ⊢
      rw [← Option.some.inj hb, ha]
    · rw [Function.update_of_ne heq] at hb ⊢
      exact h.refs_eq hb
  · intro id' hpos
    by_cases heq : id' = id
    · subst heq
      exact ⟨a, Function.update_self ..⟩
    · rw [Function.update_of_ne heq] at hpos ⊢
      exact h.alive hpos

/-- A cell without references is freed. -/
theorem Accounted.free (h : Accounted refs w heap count) (id : ℕ) :
    Accounted refs w (Function.update heap id none) (Function.update count id 0) := by
  constructor
  · intro id' b hb
    by_cases heq : id' = id
    · subst heq
      rw [Function.update_self] at hb
      exact absurd hb.symm (Option.some_ne_none b)
    · rw [Function.update_of_ne heq] at hb ⊢
      exact h.refs_eq hb
  · intro id' hpos
    by_cases heq : id' = id
    · subst heq
      rw [Function.update_self] at hpos
      exact absurd hpos (Nat.lt_irrefl 0)
    · rw [Function.update_of_ne heq] at hpos ⊢
      exact h.alive hpos

end LevelDb.Lib
