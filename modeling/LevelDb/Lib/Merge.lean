import LevelDb.Lib.Concat

/-!
# Merged lists

Sorted lists of pairs of keys and values are cut by a predicate that holds of a key if it holds of a
larger one. A merged list is cut where its parts are: the first element behind the cut is the least of
the first elements of the parts behind it, and the last element before the cut is the largest of the
last ones. Keys are compared by a function, and may be equal without being the same.
-/

namespace LevelDb.Lib

variable {K V : Type} {lt : K → K → Bool}

/-! ## Order -/

/-- The strict part of a total preorder. -/
structure IsWeakOrder (lt : K → K → Bool) : Prop where
  /-- `<` has one direction. -/
  asymm : ∀ {a b : K}, lt a b = true → lt b a = false
  /-- `<=` is transitive. -/
  le_trans : ∀ {a b c : K}, lt b a = false → lt c b = false → lt c a = false

/-- In a weak order no element is less than itself. -/
theorem IsWeakOrder.irrefl (h : IsWeakOrder lt) (a : K) : lt a a = false := by
  cases haa : lt a a with
  | false => rfl
  | true => exact haa.symm.trans (h.asymm haa)

/-- In a weak order, `a <= b` and `b < c` give `a < c`. -/
theorem IsWeakOrder.lt_of_le_of_lt (h : IsWeakOrder lt) {a b c : K} (hab : lt b a = false)
    (hbc : lt b c = true) : lt a c = true := by
  cases hac : lt a c with
  | true => rfl
  | false => exact (h.le_trans hac hab).symm.trans hbc

/-- In a weak order, `a < b` and `b <= c` give `a < c`. -/
theorem IsWeakOrder.lt_of_lt_of_le (h : IsWeakOrder lt) {a b c : K} (hab : lt a b = true)
    (hbc : lt c b = false) : lt a c = true := by
  cases hac : lt a c with
  | true => rfl
  | false => exact (h.le_trans hbc hac).symm.trans hab

/-! ## Cuts -/

/-- A predicate that holds of a key if it holds of a larger one. -/
def IsCut (lt : K → K → Bool) (p : K → Bool) : Prop :=
  ∀ {a b : K}, p b = true → lt b a = false → p a = true

/-- The keys below a key. -/
def isBelow (lt : K → K → Bool) (k a : K) : Bool := lt a k

/-- The keys that are not above a key. -/
def isUpTo (lt : K → K → Bool) (k a : K) : Bool := !lt k a

/-- The keys below a key are a cut. -/
theorem IsWeakOrder.isBelow (h : IsWeakOrder lt) (k : K) : IsCut lt (isBelow lt k) :=
  fun hb hle => h.lt_of_le_of_lt hle hb

/-- The keys that are not above a key are a cut. -/
theorem IsWeakOrder.isUpTo (h : IsWeakOrder lt) (k : K) : IsCut lt (isUpTo lt k) := by
  intro a b hb hle
  unfold Lib.isUpTo at hb ⊢
  rw [Bool.not_eq_true'] at hb ⊢
  exact h.le_trans hle hb

/-- The number of elements before a cut. -/
def cutPos (p : K → Bool) (l : List (K × V)) : ℕ := l.findIdx fun e => !p e.1

/-- A list that is sorted by its keys. -/
def SortedBy (lt : K → K → Bool) (l : List (K × V)) : Prop := l.Pairwise fun a b => lt a.1 b.1 = true

section Cut

variable {p : K → Bool} {l : List (K × V)} {i : ℕ} {e : K × V}

/-- There may be nothing behind a cut. -/
theorem cutPos_le_length (p : K → Bool) (l : List (K × V)) : cutPos p l ≤ l.length := List.findIdx_le_length

/-- In a sorted list an element at an earlier position has a smaller key. -/
theorem SortedBy.lt_of_lt (h : SortedBy lt l) {j : ℕ} {d : K × V} (hi : l[i]? = some d) (hj : l[j]? = some e)
    (hij : i < j) : lt d.1 e.1 = true := by
  obtain ⟨hilt, rfl⟩ := List.getElem?_eq_some_iff.mp hi
  obtain ⟨hjlt, rfl⟩ := List.getElem?_eq_some_iff.mp hj
  exact List.pairwise_iff_getElem.mp h i j hilt hjlt hij

/-- The elements before the cut are those that the predicate holds of. -/
theorem lt_cutPos_iff (horder : IsWeakOrder lt) (hsorted : SortedBy lt l) (hcut : IsCut lt p)
    (he : l[i]? = some e) : i < cutPos p l ↔ p e.1 = true := by
  obtain ⟨hi, rfl⟩ := List.getElem?_eq_some_iff.mp he
  constructor
  · intro hlt
    have hnot := List.not_of_lt_findIdx hlt
    simpa using hnot
  · intro hp
    by_contra hge
    -- The first element behind the cut is not larger.
    have hfirst : cutPos p l < l.length := by omega
    have hnot : p (l[cutPos p l]).1 = false := by
      have hfound := @List.findIdx_getElem _ (fun e : K × V => !p e.1) l hfirst
      exact (Bool.not_eq_true' _).mp hfound
    obtain heq | hlt := Nat.eq_or_lt_of_le (Nat.le_of_not_lt hge)
    · simp only [heq] at hnot
      exact absurd (hnot.symm.trans hp) Bool.false_ne_true
    · have hsmaller := hsorted.lt_of_lt (List.getElem?_eq_getElem hfirst) he hlt
      exact absurd (hnot.symm.trans (hcut hp (horder.asymm hsmaller))) Bool.false_ne_true

/-- If the predicate holds of the keys before a position exactly, the list is cut there. -/
theorem cutPos_eq {k : ℕ} (hk : k ≤ l.length)
    (h : ∀ {i : ℕ} {e : K × V}, l[i]? = some e → (i < k ↔ p e.1 = true)) : cutPos p l = k := by
  have hle : ∀ {i : ℕ} (hi : i < l.length), i < k ↔ p (l[i]).1 = true := fun hi =>
    h (List.getElem?_eq_getElem hi)
  unfold cutPos
  obtain hlt | rfl := Nat.lt_or_eq_of_le hk
  · rw [List.findIdx_eq hlt]
    constructor
    · rw [Bool.not_eq_true', ← Bool.not_eq_true]
      exact fun hp => absurd ((hle hlt).mpr hp) (Nat.lt_irrefl k)
    · intro j hj
      rw [Bool.not_eq_false', (hle (Nat.lt_trans hj hlt)).mp hj]
  · apply List.findIdx_eq_length.mpr
    intro e he
    obtain ⟨j, hj⟩ := List.mem_iff_getElem?.mp he
    rw [(h hj).mp (List.getElem?_eq_some_iff.mp hj).1]
    rfl

/-- Predicates that agree on the list cut it at the same place. -/
theorem cutPos_congr {q : K → Bool} (h : ∀ e ∈ l, p e.1 = q e.1) : cutPos p l = cutPos q l := by
  induction l with
  | nil => rfl
  | cons e l ih =>
    unfold cutPos at ih ⊢
    rw [List.findIdx_cons, List.findIdx_cons, h e List.mem_cons_self,
      ih fun e' he' => h e' (List.mem_cons_of_mem e he')]

/-- Nothing is before the first cut. -/
theorem cutPos_false (l : List (K × V)) : cutPos (fun _ => false) l = 0 :=
  cutPos_eq (Nat.zero_le _) fun _ => iff_of_false (Nat.not_lt_zero _) Bool.false_ne_true

/-- Everything is before the last cut. -/
theorem cutPos_true (l : List (K × V)) : cutPos (fun _ => true) l = l.length :=
  cutPos_eq (Nat.le_refl _) fun he => iff_of_true (List.getElem?_eq_some_iff.mp he).1 rfl

/-- The elements below an element are those before it. -/
theorem cutPos_isBelow (horder : IsWeakOrder lt) (hsorted : SortedBy lt l) (he : l[i]? = some e) :
    cutPos (isBelow lt e.1) l = i := by
  have hi := (List.getElem?_eq_some_iff.mp he).1
  apply cutPos_eq (Nat.le_of_lt hi)
  intro j d hj
  constructor
  · exact hsorted.lt_of_lt hj he
  · intro hlt
    by_contra hge
    obtain heq | hij := Nat.eq_or_lt_of_le (Nat.le_of_not_lt hge)
    · subst heq
      obtain rfl := Option.some.inj (he.symm.trans hj)
      exact absurd ((horder.irrefl _).symm.trans hlt) Bool.false_ne_true
    · have hgt := horder.asymm (hsorted.lt_of_lt he hj hij)
      exact absurd (hgt.symm.trans hlt) Bool.false_ne_true

/-- The elements that are not above an element are those before it, and it. -/
theorem cutPos_isUpTo (horder : IsWeakOrder lt) (hsorted : SortedBy lt l) (he : l[i]? = some e) :
    cutPos (isUpTo lt e.1) l = i + 1 := by
  have hi := (List.getElem?_eq_some_iff.mp he).1
  apply cutPos_eq hi
  intro j d hj
  unfold isUpTo
  rw [Bool.not_eq_true']
  constructor
  · intro hle
    obtain heq | hij := Nat.eq_or_lt_of_le (Nat.le_of_lt_succ hle)
    · subst heq
      obtain rfl := Option.some.inj (he.symm.trans hj)
      exact horder.irrefl _
    · exact horder.asymm (hsorted.lt_of_lt hj he hij)
  · intro hle
    by_contra hge
    have hlt := hsorted.lt_of_lt he hj (by omega)
    exact absurd (hle.symm.trans hlt) Bool.false_ne_true

/-- If no element is equal to a key, the two cuts at it are the same. -/
theorem cutPos_isUpTo_of_ne (horder : IsWeakOrder lt) {k : K}
    (hne : ∀ e ∈ l, lt e.1 k = true ∨ lt k e.1 = true) : cutPos (isUpTo lt k) l = cutPos (isBelow lt k) l := by
  apply cutPos_congr
  intro e he
  unfold isUpTo isBelow
  obtain hlt | hgt := hne e he
  · rw [hlt, horder.asymm hlt]
    rfl
  · rw [hgt, horder.asymm hgt]
    rfl

end Cut

/-! ## Merged lists -/

/-- A list that holds the elements of sorted parts with different keys, in order. -/
structure Merged (lt : K → K → Bool) (parts : List (List (K × V))) (l : List (K × V)) : Prop where
  /-- The parts are sorted. -/
  parts_sorted : ∀ i, SortedBy lt (partAt parts i)
  /-- The keys of different parts are different. -/
  distinct : ∀ {i j : ℕ} {a b : K × V}, i ≠ j → a ∈ partAt parts i → b ∈ partAt parts j →
    lt a.1 b.1 = true ∨ lt b.1 a.1 = true
  /-- The list is sorted. -/
  sorted : SortedBy lt l
  /-- It holds the elements of the parts. -/
  mem_iff : ∀ {e : K × V}, e ∈ l ↔ ∃ i, e ∈ partAt parts i

namespace Merged

variable {parts : List (List (K × V))} {l : List (K × V)} {p : K → Bool}

/-- Nothing is behind the cut of the list if nothing is behind the cuts of the parts. -/
theorem cutPos_eq_length (h : Merged lt parts l) (horder : IsWeakOrder lt) (hcut : IsCut lt p)
    (hall : ∀ i, (partAt parts i).length ≤ cutPos p (partAt parts i)) : cutPos p l = l.length := by
  apply cutPos_eq (Nat.le_refl _)
  intro j e he
  refine iff_of_true (List.getElem?_eq_some_iff.mp he).1 ?_
  obtain ⟨i, hi⟩ := h.mem_iff.mp (List.mem_of_getElem? he)
  obtain ⟨k, hk⟩ := List.mem_iff_getElem?.mp hi
  have hlt : k < cutPos p (partAt parts i) := Nat.lt_of_lt_of_le (List.getElem?_eq_some_iff.mp hk).1 (hall i)
  exact (lt_cutPos_iff horder (h.parts_sorted i) hcut hk).mp hlt

/-- Nothing is before the cut of the list if nothing is before the cuts of the parts. -/
theorem cutPos_eq_zero (h : Merged lt parts l) (horder : IsWeakOrder lt) (hcut : IsCut lt p)
    (hnone : ∀ i, cutPos p (partAt parts i) = 0) : cutPos p l = 0 := by
  apply cutPos_eq (Nat.zero_le _)
  intro j e he
  refine iff_of_false (Nat.not_lt_zero j) fun hp => ?_
  obtain ⟨i, hi⟩ := h.mem_iff.mp (List.mem_of_getElem? he)
  obtain ⟨k, hk⟩ := List.mem_iff_getElem?.mp hi
  have hlt := (lt_cutPos_iff horder (h.parts_sorted i) hcut hk).mpr hp
  rw [hnone i] at hlt
  exact Nat.not_lt_zero k hlt

/-- If an element is the least of those behind the cuts of the parts, the elements before the cut are
those below it. -/
theorem eq_isBelow_of_least (h : Merged lt parts l) (horder : IsWeakOrder lt) (hcut : IsCut lt p) {e : K × V}
    (he : p e.1 = false)
    (hleast : ∀ {i : ℕ} {d : K × V}, (partAt parts i)[cutPos p (partAt parts i)]? = some d →
      lt d.1 e.1 = false) {a : K × V} (ha : a ∈ l) : p a.1 = isBelow lt e.1 a.1 := by
  unfold isBelow
  cases hlt : lt a.1 e.1 with
  | false =>
    cases hp : p a.1 with
    | false => rfl
    | true => exact absurd (he.symm.trans (hcut hp hlt)) Bool.false_ne_true
  | true =>
    by_contra hp
    obtain ⟨i, hi⟩ := h.mem_iff.mp ha
    obtain ⟨k, hk⟩ := List.mem_iff_getElem?.mp hi
    -- The first element behind the cut of the part is not above.
    have hge : cutPos p (partAt parts i) ≤ k := Nat.le_of_not_lt fun hkcut =>
      hp ((lt_cutPos_iff horder (h.parts_sorted i) hcut hk).mp hkcut)
    have hfirst : cutPos p (partAt parts i) < (partAt parts i).length :=
      Nat.lt_of_le_of_lt hge (List.getElem?_eq_some_iff.mp hk).1
    obtain ⟨d, hd⟩ : ∃ d, (partAt parts i)[cutPos p (partAt parts i)]? = some d :=
      ⟨_, List.getElem?_eq_getElem hfirst⟩
    have hnot := hleast hd
    obtain heq | hlt' := Nat.eq_or_lt_of_le hge
    · rw [heq, hk] at hd
      rw [← Option.some.inj hd, hlt] at hnot
      exact Bool.false_ne_true hnot.symm
    · have hsmaller := (h.parts_sorted i).lt_of_lt hd hk hlt'
      have hdlt := horder.lt_of_le_of_lt (horder.asymm hsmaller) hlt
      exact Bool.false_ne_true (hnot.symm.trans hdlt)

/-- If an element is the largest of those before the cuts of the parts, the elements before the cut are
those that are not above it. -/
theorem eq_isUpTo_of_largest (h : Merged lt parts l) (horder : IsWeakOrder lt) (hcut : IsCut lt p) {e : K × V}
    (he : p e.1 = true)
    (hlargest : ∀ {i k : ℕ} {d : K × V}, cutPos p (partAt parts i) = k + 1 → (partAt parts i)[k]? = some d →
      lt e.1 d.1 = false) {a : K × V} (ha : a ∈ l) : p a.1 = isUpTo lt e.1 a.1 := by
  unfold isUpTo
  cases hlt : lt e.1 a.1 with
  | false => exact hcut he hlt
  | true =>
    rw [Bool.not_true, ← Bool.not_eq_true]
    intro hp
    obtain ⟨i, hi⟩ := h.mem_iff.mp ha
    obtain ⟨k, hk⟩ := List.mem_iff_getElem?.mp hi
    -- The last element before the cut of the part is not below.
    have hkcut := (lt_cutPos_iff horder (h.parts_sorted i) hcut hk).mpr hp
    obtain ⟨m, hm⟩ := Nat.exists_eq_add_of_lt hkcut
    have hlast : k + m < (partAt parts i).length :=
      Nat.lt_of_lt_of_le (hm ▸ Nat.lt_succ_self _) (cutPos_le_length p (partAt parts i))
    obtain ⟨d, hd⟩ : ∃ d, (partAt parts i)[k + m]? = some d := ⟨_, List.getElem?_eq_getElem hlast⟩
    have hnot := hlargest hm hd
    obtain hzero | hpos := Nat.eq_zero_or_pos m
    · rw [hzero, Nat.add_zero, hk] at hd
      rw [← Option.some.inj hd, hlt] at hnot
      exact Bool.false_ne_true hnot.symm
    · have hsmaller := (h.parts_sorted i).lt_of_lt hk hd (by omega)
      have hdlt := horder.lt_of_lt_of_le hlt (horder.asymm hsmaller)
      exact Bool.false_ne_true (hnot.symm.trans hdlt)

end Merged

end LevelDb.Lib
