import Mathlib.Data.Sum.Basic
import Mathlib.Tactic.Common

/-!
# Loops

A loop is given by its round, which goes on with another state or ends with a result. `EndsWith` says
that a loop ends, and how; there is no bound on the number of rounds. A loop that keeps something true
that makes every round go on does not end.
-/

namespace LevelDb.Lib

variable {σ ρ : Type} {round : σ → σ ⊕ ρ}

/-- The loop from a state ends with a result. -/
inductive EndsWith (round : σ → σ ⊕ ρ) : σ → ρ → Prop
  /-- The round ends. -/
  | done {s : σ} {r : ρ} (h : round s = .inr r) : EndsWith round s r
  /-- The round goes on. -/
  | more {s s' : σ} {r : ρ} (h : round s = .inl s') (hmore : EndsWith round s' r) : EndsWith round s r

/-- A state is met at the beginning of a round. -/
inductive Meets (round : σ → σ ⊕ ρ) (s : σ) : σ → Prop
  /-- In the first round. -/
  | first : Meets round s s
  /-- In the round behind another one. -/
  | next {x y : σ} (hx : Meets round s x) (h : round x = .inl y) : Meets round s y

/-- What holds in the first round and is kept by every round holds in all of them. -/
theorem Meets.invariant {inv : σ → Prop} (hstep : ∀ {x y : σ}, inv x → round x = .inl y → inv y)
    {s x : σ} (h : Meets round s x) (hs : inv s) : inv x := by
  induction h with
  | first => exact hs
  | next _ hround ih => exact hstep ih hround

/-- From every state that is met, the loop ends in the same way. -/
theorem EndsWith.of_meets {s x : σ} {r : ρ} (h : EndsWith round s r) (hx : Meets round s x) :
    EndsWith round x r := by
  induction hx with
  | first => exact h
  | next _ hround ih =>
    cases ih with
    | done hdone => exact absurd (hdone.symm.trans hround) Sum.inr_ne_inl
    | more hmore hend =>
      rw [hround] at hmore
      exact Sum.inl.inj hmore ▸ hend

/-- The result of a round that ends is that of the loop. -/
theorem EndsWith.eq_of_round {s : σ} {r r' : ρ} (h : EndsWith round s r) (hround : round s = .inr r') :
    r = r' := by
  cases h with
  | done hdone => exact Sum.inr.inj (hdone.symm.trans hround)
  | more hmore _ => exact absurd (hround.symm.trans hmore) Sum.inr_ne_inl

/-- A loop ends in one of the states that it meets. -/
theorem EndsWith.exists_meets {s : σ} {r : ρ} (h : EndsWith round s r) :
    ∃ x, Meets round s x ∧ round x = .inr r := by
  induction h with
  | done hdone => exact ⟨_, Meets.first, hdone⟩
  | @more s s' r hmore _ ih =>
    obtain ⟨x, hx, hdone⟩ := ih
    refine ⟨x, ?_, hdone⟩
    clear hdone
    induction hx with
    | first => exact Meets.next Meets.first hmore
    | next _ hround ih => exact Meets.next ih hround

/-- A loop ends in one way only. -/
theorem EndsWith.unique {s : σ} {r r' : ρ} (h : EndsWith round s r) (h' : EndsWith round s r') : r = r' := by
  obtain ⟨x, hx, hround⟩ := h'.exists_meets
  exact (h.of_meets hx).eq_of_round hround

/-- A loop does not end if something that makes a round go on is kept by every round. -/
theorem not_endsWith {inv : σ → Prop} (hstep : ∀ {x : σ}, inv x → ∃ y, round x = .inl y ∧ inv y) {s : σ}
    (hs : inv s) (r : ρ) : ¬EndsWith round s r := by
  intro h
  induction h with
  | done hdone =>
    obtain ⟨y, hround, -⟩ := hstep hs
    exact absurd (hdone.symm.trans hround) Sum.inr_ne_inl
  | more hmore _ ih =>
    obtain ⟨y, hround, hy⟩ := hstep hs
    rw [hmore] at hround
    exact ih (Sum.inl.inj hround ▸ hy)

end LevelDb.Lib
