import LevelDb.Lib.Merge
import LevelDb.Table.BlockCursor
import LevelDb.Table.Merger
import Mathlib.Data.List.Sort

/-!
# The merging iterator is a cursor

`MergingIterator` moves as a cursor over the merged list of the entries of its children, if they move as
cursors over sorted lists with different keys. In either direction all children are where one cut puts
them (`Placed`): when it moves forward, at the first entry that is not below the current one, and when it
moves backwards, at the last one that is not above it. The current child is at the current entry in both
cases, and the other children change between the two when the direction does.
-/

namespace LevelDb

open Lib

/-- `a < b` for the comparator, as a boolean. -/
def Comparator.ltb (cmp : Comparator) (a b : Slice) : Bool := decide (cmp.Lt a b)

/-- The strict order of a comparator that is a total preorder is a weak order. -/
theorem Comparator.TotalPreorder.isWeakOrder {cmp : Comparator} (h : cmp.TotalPreorder) :
    IsWeakOrder cmp.ltb where
  asymm hab := decide_eq_false (h.lt_asymm (of_decide_eq_true hab))
  le_trans hab hbc := by
    have hab := h.not_lt.mp (of_decide_eq_false hab)
    have hbc := h.not_lt.mp (of_decide_eq_false hbc)
    exact decide_eq_false (h.not_lt.mpr (h.trans hab hbc))

namespace MergingIterator

variable {χ : Type}

/-! ## The smallest and the largest child -/

section Best

variable [Iterator χ Slice Slice Status]

/-- The best of some children, or none if they are not valid. -/
def BestOf (better : Slice → Slice → Prop) (seen : ℕ × χ → Prop) : Option (ℕ × χ) → Prop
  | none => ∀ x, seen x → Iterator.valid x.2 = false
  | some y => seen y ∧ Iterator.valid y.2 = true ∧
      ∀ x, seen x → Iterator.valid x.2 = true → ¬better (Iterator.key x.2) (Iterator.key y.2)

/-- A child is looked at. -/
def betterOf (better : Slice → Slice → Prop) [DecidableRel better] (i : ℕ) (child : χ) :
    Option (ℕ × χ) → Option (ℕ × χ)
  | none => if Iterator.valid child then some (i, child) else none
  | some best =>
    if Iterator.valid child = true ∧ better (Iterator.key child) (Iterator.key best.2) then some (i, child)
    else some best

/-- The best of the children with one more. -/
theorem BestOf.betterOf {better : Slice → Slice → Prop} [DecidableRel better] (hirrefl : ∀ a, ¬better a a)
    (htrans : ∀ {a b c}, better a b → better b c → better a c) {seen : ℕ × χ → Prop} (i : ℕ) (child : χ) :
    ∀ {r : Option (ℕ × χ)}, BestOf better seen r →
      BestOf better (fun x => seen x ∨ x = (i, child)) (betterOf better i child r)
  | none, h => by
    unfold MergingIterator.betterOf
    split_ifs with hvalid
    · refine ⟨Or.inr rfl, hvalid, fun x hx hxvalid => ?_⟩
      obtain hx | rfl := hx
      · exact absurd ((h x hx).symm.trans hxvalid) Bool.false_ne_true
      · exact hirrefl _
    · intro x hx
      obtain hx | rfl := hx
      · exact h x hx
      · exact (Bool.not_eq_true _).mp hvalid
  | some best, h => by
    obtain ⟨hseen, hvalid, hbest⟩ := h
    change BestOf better _ (if Iterator.valid child = true ∧
      better (Iterator.key child) (Iterator.key best.2) then some (i, child) else some best)
    split_ifs with hchild
    · refine ⟨Or.inr rfl, hchild.1, fun x hx hxvalid hxbetter => ?_⟩
      obtain hx | rfl := hx
      · exact hbest x hx hxvalid (htrans hxbetter hchild.2)
      · exact hirrefl _ hxbetter
    · refine ⟨Or.inl hseen, hvalid, fun x hx hxvalid => ?_⟩
      obtain hx | rfl := hx
      · exact hbest x hx hxvalid
      · exact fun hbetter => hchild ⟨hxvalid, hbetter⟩

end Best

/-- The children from a number on. -/
def NumberedFrom (children : List χ) (i : ℕ) (x : ℕ × χ) : Prop :=
  ∃ j, x.1 = i + j ∧ children[j]? = some x.2

/-- The first of them, and the others. -/
theorem numberedFrom_cons {child : χ} {children : List χ} {i : ℕ} {x : ℕ × χ} :
    NumberedFrom (child :: children) i x ↔ x = (i, child) ∨ NumberedFrom children (i + 1) x := by
  constructor
  · intro h
    obtain ⟨j, hj, hchild⟩ := h
    cases j with
    | zero =>
      rw [List.getElem?_cons_zero] at hchild
      exact Or.inl (Prod.ext hj (Option.some.inj hchild).symm)
    | succ j =>
      rw [List.getElem?_cons_succ] at hchild
      exact Or.inr ⟨j, by omega, hchild⟩
  · intro h
    obtain rfl | ⟨j, hj, hchild⟩ := h
    · exact ⟨0, rfl, rfl⟩
    · exact ⟨j + 1, by omega, hchild⟩

/-- Numbered from zero, a child is at its index. -/
theorem numberedFrom_zero {children : List χ} {x : ℕ × χ} :
    NumberedFrom children 0 x ↔ children[x.1]? = some x.2 := by
  constructor
  · intro h
    obtain ⟨j, hj, hchild⟩ := h
    rw [hj, Nat.zero_add]
    exact hchild
  · intro h
    exact ⟨x.1, (Nat.zero_add _).symm, h⟩

/-- The current child moves in the same direction. -/
theorem onCurrent_direction (f : χ → χ) (it : MergingIterator χ) :
    (it.onCurrent f).direction = it.direction := by
  unfold MergingIterator.onCurrent
  cases it.current <;> rfl

variable [Iterator χ Slice Slice Status] {cmp : Comparator}

/-- The loop of `FindSmallest` finds the smallest of the children it has seen. -/
theorem bestOf_findSmallestFrom (hcmp : cmp.TotalPreorder) : ∀ {children : List χ} {i : ℕ}
    {seen : ℕ × χ → Prop} {r : Option (ℕ × χ)}, BestOf cmp.Lt seen r →
    BestOf cmp.Lt (fun x => seen x ∨ NumberedFrom children i x) (findSmallestFrom cmp children i r)
  | [], i, seen, r, h => by
    have hnone : ∀ x, ¬NumberedFrom ([] : List χ) i x := by
      intro x hx
      obtain ⟨j, -, hchild⟩ := hx
      exact absurd hchild.symm (Option.some_ne_none _)
    have hseen : (fun x => seen x ∨ NumberedFrom ([] : List χ) i x) = seen :=
      funext fun x => propext (or_iff_left (hnone x))
    rw [hseen]
    exact h
  | child :: children, i, seen, r, h => by
    have hround : smallerOf cmp i child r = MergingIterator.betterOf cmp.Lt i child r := by
      cases r <;> rfl
    have hseen : (fun x => seen x ∨ NumberedFrom (child :: children) i x) =
        fun x => (seen x ∨ x = (i, child)) ∨ NumberedFrom children (i + 1) x :=
      funext fun x => propext (by rw [numberedFrom_cons, or_assoc])
    unfold findSmallestFrom
    rw [hseen, hround]
    exact bestOf_findSmallestFrom hcmp (h.betterOf hcmp.lt_irrefl hcmp.lt_trans i child)

/-- The loop of `FindLargest` finds the largest of the children. -/
theorem bestOf_findLargestFrom (hcmp : cmp.TotalPreorder) : ∀ (children : List χ) (i : ℕ),
    BestOf (fun a b => cmp.Lt b a) (NumberedFrom children i) (findLargestFrom cmp children i)
  | [], i => by
    intro x hx
    obtain ⟨j, -, hchild⟩ := hx
    exact absurd hchild.symm (Option.some_ne_none _)
  | child :: children, i => by
    have hgt : ∀ a b, cmp.compare a b = .gt ↔ cmp.Lt b a := by
      intro a b
      unfold Comparator.Lt
      rw [hcmp.swap a b]
      cases cmp.compare b a <;> decide
    have hround : ∀ r, largerOf cmp i child r = MergingIterator.betterOf (fun a b => cmp.Lt b a) i child r := by
      intro r
      cases r with
      | none => rfl
      | some best =>
        unfold largerOf MergingIterator.betterOf
        simp only [hgt]
    have hseen : NumberedFrom (child :: children) i =
        fun x => NumberedFrom children (i + 1) x ∨ x = (i, child) :=
      funext fun x => propext (by rw [numberedFrom_cons, or_comm])
    unfold findLargestFrom
    rw [hseen, hround]
    refine BestOf.betterOf ?_ ?_ i child (bestOf_findLargestFrom hcmp children (i + 1))
    · exact hcmp.lt_irrefl
    · exact fun hab hbc => hcmp.lt_trans hbc hab

/-! ## States -/

/-- The lists of the children and the merged list, with what the children do. -/
structure Parts (χ : Type) [Iterator χ Slice Slice Status] (cmp : Comparator) where
  /-- The lists of the children. -/
  parts : List (List (Slice × Slice))
  /-- The merged list. -/
  list : List (Slice × Slice)
  /-- The positions of a child. -/
  childAt : ℕ → χ → Option ℕ → Prop
  /-- The list has the entries of the parts, in order. -/
  merged : Merged cmp.ltb parts list
  /-- The children are cursors. -/
  follows : ∀ {i : ℕ}, i < parts.length → Follows cmp.ltb (partAt parts i) (childAt i)

variable {P : Parts χ cmp} {it : MergingIterator χ} {c i n : ℕ} {e : Slice × Slice}

/-- The children are at positions that depend on their lists. -/
structure Placed (P : Parts χ cmp) (it : MergingIterator χ) (place : ℕ → Option ℕ → Prop) : Prop where
  /-- `comparator_` -/
  comparator : it.comparator = cmp
  /-- There is a child for every list. -/
  length_eq : it.children.length = P.parts.length
  /-- The children. -/
  child : ∀ {i : ℕ} {child : χ}, it.children[i]? = some child →
    ∃ pos, P.childAt i child pos ∧ place i pos

/-- Where a cut puts a child: at the first entry behind it, or at the last one before it. -/
def cutPlace (direction : MergeDirection) (p : Slice → Bool) (l : List (Slice × Slice)) : Option ℕ :=
  match direction with
  | .forward => clip l (cutPos p l)
  | .reverse => before (cutPos p l)

/-- All children are where a cut puts them. -/
def AtCut (P : Parts χ cmp) (it : MergingIterator χ) (direction : MergeDirection) (p : Slice → Bool) : Prop :=
  Placed P it fun i pos => pos = cutPlace direction p (partAt P.parts i)

/-- The cut at a key: the key is behind it, or before it. -/
def cutAt (cmp : Comparator) (direction : MergeDirection) (key : Slice) : Slice → Bool :=
  match direction with
  | .forward => isBelow cmp.ltb key
  | .reverse => isUpTo cmp.ltb key

/-- The states between calls. -/
def Stands (P : Parts χ cmp) (it : MergingIterator χ) : Option ℕ → Prop
  | none => it.current = none ∧ Placed P it fun _ _ => True
  | some n => ∃ c e, it.current = some c ∧ e ∈ partAt P.parts c ∧ P.list[n]? = some e ∧
      AtCut P it it.direction (cutAt cmp it.direction e.1)

/-- A list that has elements is that of a child. -/
theorem Parts.lt_length (P : Parts χ cmp) (he : e ∈ partAt P.parts i) : i < P.parts.length := by
  by_contra hge
  unfold partAt at he
  rw [List.getD_eq_getElem?_getD, List.getElem?_eq_none (Nat.le_of_not_lt hge)] at he
  exact absurd he List.not_mem_nil

section Placed

variable {place : ℕ → Option ℕ → Prop} {child : χ}

/-- The index of a child is the index of a list. -/
theorem Placed.lt_length (h : Placed P it place) (hchild : it.children[i]? = some child) :
    i < P.parts.length := h.length_eq ▸ (List.getElem?_eq_some_iff.mp hchild).1

/-- For every list there is a child over it, at a position that is known. -/
theorem Placed.exists_child (h : Placed P it place) (hi : i < P.parts.length) :
    ∃ child pos, it.children[i]? = some child ∧ P.childAt i child pos ∧ place i pos := by
  have hlt : i < it.children.length := h.length_eq.symm ▸ hi
  obtain ⟨pos, hat, hplace⟩ := h.child (List.getElem?_eq_getElem hlt)
  exact ⟨_, pos, List.getElem?_eq_getElem hlt, hat, hplace⟩

/-- What is known about the positions of children can be replaced by what follows from it. -/
theorem Placed.imp {place' : ℕ → Option ℕ → Prop} (h : Placed P it place)
    (himp : ∀ {i : ℕ} {pos : Option ℕ}, i < P.parts.length → place i pos → place' i pos) :
    Placed P it place' := by
  refine ⟨h.comparator, h.length_eq, fun hchild => ?_⟩
  obtain ⟨pos, hat, hplace⟩ := h.child hchild
  exact ⟨pos, hat, himp (h.lt_length hchild) hplace⟩

/-- Where the children stand does not depend on the other fields of the merging iterator. -/
theorem Placed.of_children {it' : MergingIterator χ} (h : Placed P it place)
    (hcomparator : it'.comparator = it.comparator) (hchildren : it'.children = it.children) :
    Placed P it' place :=
  ⟨hcomparator.trans h.comparator, hchildren.symm ▸ h.length_eq, fun hchild => h.child (hchildren ▸ hchild)⟩

/-- An operation on all children leaves each over its list, at the position to which the operation
leads. -/
theorem Placed.onChildren {place' : ℕ → Option ℕ → Prop} {f : χ → χ} (h : Placed P it place)
    (hf : ∀ {i : ℕ} {child : χ} {pos : Option ℕ}, i < P.parts.length → P.childAt i child pos →
      ∃ pos', P.childAt i (f child) pos' ∧ place' i pos') : Placed P (it.onChildren f) place' := by
  refine ⟨h.comparator, (List.length_map f).trans h.length_eq, fun hchild => ?_⟩
  unfold MergingIterator.onChildren at hchild
  rw [List.getElem?_map] at hchild
  obtain ⟨child', hget, rfl⟩ := Option.map_eq_some_iff.mp hchild
  obtain ⟨pos, hat, -⟩ := h.child hget
  exact hf (h.lt_length hget) hat

/-- An operation on all children but the current one. -/
theorem Placed.onOthers {place' : ℕ → Option ℕ → Prop} {f : χ → χ} (h : Placed P it place)
    (hcurrent : it.current = some c) (hc : ∀ {pos : Option ℕ}, place c pos → place' c pos)
    (hf : ∀ {i : ℕ} {child : χ} {pos : Option ℕ}, i < P.parts.length → i ≠ c → P.childAt i child pos →
      ∃ pos', P.childAt i (f child) pos' ∧ place' i pos') : Placed P (it.onOthers f) place' := by
  refine ⟨h.comparator, List.length_mapIdx.trans h.length_eq, ?_⟩
  intro i child' hchild
  unfold MergingIterator.onOthers at hchild
  rw [List.getElem?_mapIdx] at hchild
  obtain ⟨child, hget, hf'⟩ := Option.map_eq_some_iff.mp hchild
  obtain ⟨pos, hat, hplace⟩ := h.child hget
  rw [hcurrent] at hf'
  by_cases hic : i = c
  · subst hic
    rw [if_pos rfl] at hf'
    exact hf' ▸ ⟨pos, hat, hc hplace⟩
  · rw [if_neg fun heq => hic (Option.some.inj heq)] at hf'
    exact hf' ▸ hf (h.lt_length hget) hic hat

/-- An operation on the current child leads it to another position and leaves the others where they
are. -/
theorem Placed.onCurrent {place' : ℕ → Option ℕ → Prop} {f : χ → χ} (h : Placed P it place)
    (hcurrent : it.current = some c)
    (hothers : ∀ {i : ℕ} {pos : Option ℕ}, i ≠ c → place i pos → place' i pos)
    (hf : ∀ {child : χ} {pos : Option ℕ}, c < P.parts.length → P.childAt c child pos → place c pos →
      ∃ pos', P.childAt c (f child) pos' ∧ place' c pos') : Placed P (it.onCurrent f) place' := by
  unfold MergingIterator.onCurrent
  rw [hcurrent]
  dsimp only
  refine ⟨h.comparator, (List.length_modify f _ c).trans h.length_eq, ?_⟩
  intro i child' hchild
  rw [List.getElem?_modify] at hchild
  obtain ⟨child, hget, hf'⟩ := Option.map_eq_some_iff.mp hchild
  obtain ⟨pos, hat, hplace⟩ := h.child hget
  by_cases hci : c = i
  · subst hci
    rw [if_pos rfl] at hf'
    exact hf' ▸ hf (h.lt_length hget) hat hplace
  · rw [if_neg hci] at hf'
    exact hf' ▸ ⟨pos, hat, hothers (Ne.symm hci) hplace⟩

end Placed

/-! ## Finding the current child -/

section Find

variable {p : Slice → Bool} {child : χ}

/-- The entries of the children are those of the list. -/
theorem Parts.mem_list (P : Parts χ cmp) (he : e ∈ partAt P.parts i) : e ∈ P.list :=
  P.merged.mem_iff.mpr ⟨i, he⟩

/-- A cut that agrees with the cut at a key puts the children at the same places. -/
theorem AtCut.congr {direction : MergeDirection} {q : Slice → Bool} (h : AtCut P it direction p)
    (heq : ∀ {a : Slice × Slice}, a ∈ P.list → p a.1 = q a.1) : AtCut P it direction q := by
  refine h.imp fun {i pos} _ hpos => ?_
  have hcut : cutPos p (partAt P.parts i) = cutPos q (partAt P.parts i) :=
    cutPos_congr fun a ha => heq (P.mem_list ha)
  rw [hpos]
  unfold cutPlace
  rw [hcut]

/-- A child at the first entry behind a cut. -/
theorem AtCut.forward_entry (h : AtCut P it .forward p) (hchild : it.children[i]? = some child) :
    (Iterator.valid child = true →
      (partAt P.parts i)[cutPos p (partAt P.parts i)]? = some (Iterator.key child, Iterator.value child)) ∧
    (Iterator.valid child = false → (partAt P.parts i).length ≤ cutPos p (partAt P.parts i)) := by
  obtain ⟨pos, hat, hpos⟩ := h.child hchild
  have hfollows := P.follows (h.lt_length hchild)
  rw [hfollows.valid hat]
  constructor
  · intro hsome
    obtain ⟨j, rfl⟩ := Option.isSome_iff_exists.mp hsome
    rw [← (clip_eq_some hpos.symm).1]
    exact hfollows.entry hat
  · intro hnone
    by_contra hlt
    rw [hpos.trans (clip_of_lt (Nat.lt_of_not_le hlt))] at hnone
    exact Bool.false_ne_true hnone.symm

/-- A child at the last entry before a cut. -/
theorem AtCut.reverse_entry (h : AtCut P it .reverse p) (hchild : it.children[i]? = some child) :
    (Iterator.valid child = true → ∃ j, cutPos p (partAt P.parts i) = j + 1 ∧
      (partAt P.parts i)[j]? = some (Iterator.key child, Iterator.value child)) ∧
    (Iterator.valid child = false → cutPos p (partAt P.parts i) = 0) := by
  obtain ⟨pos, hat, hpos⟩ := h.child hchild
  have hfollows := P.follows (h.lt_length hchild)
  change pos = before _ at hpos
  unfold before at hpos
  rw [hfollows.valid hat]
  constructor
  · intro hsome
    obtain ⟨j, rfl⟩ := Option.isSome_iff_exists.mp hsome
    split_ifs at hpos with hpositive
    have hj := Option.some.inj hpos
    exact ⟨j, by omega, hfollows.entry hat⟩
  · intro hnone
    split_ifs at hpos with hpositive
    · rw [hpos] at hnone
      exact absurd hnone.symm Bool.false_ne_true
    · exact Nat.eq_zero_of_not_pos hpositive

/-- `FindSmallest` finds the first entry behind a cut. -/
theorem AtCut.findSmallest (hcmp : cmp.TotalPreorder) (hcut : IsCut cmp.ltb p)
    (h : AtCut P it .forward p) (hdirection : it.direction = .forward) :
    Stands P it.findSmallest (clip P.list (cutPos p P.list)) := by
  have horder := hcmp.isWeakOrder
  have hbest := @bestOf_findSmallestFrom χ _ cmp hcmp it.children 0 (fun _ => False) none fun _ hx => hx.elim
  simp only [false_or, numberedFrom_zero] at hbest
  have hcurrent : it.findSmallest.current = (findSmallestFrom cmp it.children 0 none).map (·.1) := by
    unfold MergingIterator.findSmallest
    rw [h.comparator]
  cases hfound : findSmallestFrom cmp it.children 0 none with
  | none =>
    rw [hfound] at hbest hcurrent
    have hall : ∀ i, (partAt P.parts i).length ≤ cutPos p (partAt P.parts i) := by
      intro i
      by_cases hi : i < P.parts.length
      · obtain ⟨child, -, hchild, -⟩ := h.exists_child hi
        exact (h.forward_entry hchild).2 (hbest (i, child) hchild)
      · unfold partAt
        rw [List.getD_eq_getElem?_getD, List.getElem?_eq_none (Nat.le_of_not_lt hi)]
        exact Nat.zero_le _
    rw [P.merged.cutPos_eq_length horder hcut hall, clip_of_le (Nat.le_refl _)]
    exact ⟨hcurrent, Placed.of_children (h.imp fun _ _ => trivial) rfl rfl⟩
  | some found =>
    obtain ⟨c, child⟩ := found
    rw [hfound] at hbest hcurrent
    obtain ⟨hchild, hvalid, hleast⟩ := hbest
    have hentry := (h.forward_entry hchild).1 hvalid
    have hmem := List.mem_of_getElem? hentry
    have hnot : p (Iterator.key child) = false := by
      have hiff := lt_cutPos_iff horder (P.merged.parts_sorted c) hcut hentry
      exact (Bool.not_eq_true _).mp fun hp => Nat.lt_irrefl _ (hiff.mpr hp)
    -- Before the cut are the entries below the one that was found.
    have heq : ∀ {a : Slice × Slice}, a ∈ P.list → p a.1 = isBelow cmp.ltb (Iterator.key child) a.1 := by
      intro a ha
      refine @Merged.eq_isBelow_of_least _ _ _ _ _ _ P.merged horder hcut
        (Iterator.key child, Iterator.value child) hnot (fun {i d} hd => ?_) a ha
      obtain ⟨child', -, hchild', -⟩ := h.exists_child (P.lt_length (List.mem_of_getElem? hd))
      cases hvalid' : Iterator.valid child' with
      | true =>
        have hentry' := (h.forward_entry hchild').1 hvalid'
        obtain rfl := Option.some.inj (hentry'.symm.trans hd)
        exact decide_eq_false (hleast (i, child') hchild' hvalid')
      | false =>
        have hle := (h.forward_entry hchild').2 hvalid'
        exact absurd (List.getElem?_eq_some_iff.mp hd).1 (Nat.not_lt.mpr hle)
    obtain ⟨n, hn⟩ := List.mem_iff_getElem?.mp (P.mem_list hmem)
    have hpos : cutPos p P.list = n :=
      (cutPos_congr fun a ha => heq ha).trans (cutPos_isBelow horder P.merged.sorted hn)
    rw [hpos, clip_of_lt (List.getElem?_eq_some_iff.mp hn).1]
    refine ⟨c, _, hcurrent, hmem, hn, ?_⟩
    change AtCut P it.findSmallest it.direction (cutAt cmp it.direction (Iterator.key child))
    rw [hdirection]
    exact Placed.of_children (h.congr heq) rfl rfl

/-- `FindLargest` finds the last entry before a cut. -/
theorem AtCut.findLargest (hcmp : cmp.TotalPreorder) (hcut : IsCut cmp.ltb p)
    (h : AtCut P it .reverse p) (hdirection : it.direction = .reverse) :
    Stands P it.findLargest (before (cutPos p P.list)) := by
  have horder := hcmp.isWeakOrder
  have hbest := bestOf_findLargestFrom hcmp it.children 0
  have hcurrent : it.findLargest.current = (findLargestFrom cmp it.children 0).map (·.1) := by
    unfold MergingIterator.findLargest
    rw [h.comparator]
  cases hfound : findLargestFrom cmp it.children 0 with
  | none =>
    rw [hfound] at hbest hcurrent
    have hnone : ∀ i, cutPos p (partAt P.parts i) = 0 := by
      intro i
      by_cases hi : i < P.parts.length
      · obtain ⟨child, -, hchild, -⟩ := h.exists_child hi
        exact (h.reverse_entry hchild).2 (hbest (i, child) (numberedFrom_zero.mpr hchild))
      · unfold partAt
        rw [List.getD_eq_getElem?_getD, List.getElem?_eq_none (Nat.le_of_not_lt hi)]
        rfl
    rw [P.merged.cutPos_eq_zero horder hcut hnone]
    exact ⟨hcurrent, Placed.of_children (h.imp fun _ _ => trivial) rfl rfl⟩
  | some found =>
    obtain ⟨c, child⟩ := found
    rw [hfound] at hbest hcurrent
    obtain ⟨hchild, hvalid, hlargest⟩ := hbest
    have hchild := numberedFrom_zero.mp hchild
    obtain ⟨j, hj, hentry⟩ := (h.reverse_entry hchild).1 hvalid
    have hmem := List.mem_of_getElem? hentry
    have hyes : p (Iterator.key child) = true := by
      have hiff := lt_cutPos_iff horder (P.merged.parts_sorted c) hcut hentry
      exact hiff.mp (hj ▸ Nat.lt_succ_self j)
    -- Before the cut are the entries that are not above the one that was found.
    have heq : ∀ {a : Slice × Slice}, a ∈ P.list → p a.1 = isUpTo cmp.ltb (Iterator.key child) a.1 := by
      intro a ha
      refine @Merged.eq_isUpTo_of_largest _ _ _ _ _ _ P.merged horder hcut
        (Iterator.key child, Iterator.value child) hyes (fun {i k d} hk hd => ?_) a ha
      obtain ⟨child', -, hchild', -⟩ := h.exists_child (P.lt_length (List.mem_of_getElem? hd))
      cases hvalid' : Iterator.valid child' with
      | true =>
        obtain ⟨j', hj', hentry'⟩ := (h.reverse_entry hchild').1 hvalid'
        obtain rfl : j' = k := Nat.succ.inj (hj'.symm.trans hk)
        obtain rfl := Option.some.inj (hentry'.symm.trans hd)
        exact decide_eq_false (hlargest (i, child') (numberedFrom_zero.mpr hchild') hvalid')
      | false =>
        have hzero := (h.reverse_entry hchild').2 hvalid'
        exact absurd (hk.symm.trans hzero) (Nat.succ_ne_zero k)
    obtain ⟨n, hn⟩ := List.mem_iff_getElem?.mp (P.mem_list hmem)
    have hpos : cutPos p P.list = n + 1 :=
      (cutPos_congr fun a ha => heq ha).trans (cutPos_isUpTo horder P.merged.sorted hn)
    rw [hpos]
    refine ⟨c, _, hcurrent, hmem, hn, ?_⟩
    change AtCut P it.findLargest it.direction (cutAt cmp it.direction (Iterator.key child))
    rw [hdirection]
    exact Placed.of_children (h.congr heq) rfl rfl

end Find

/-! ## Moves -/

/-- The cut at an entry of a list puts a cursor over the list at the entry. -/
theorem cutPlace_cutAt (hcmp : cmp.TotalPreorder) {l : List (Slice × Slice)} (hsorted : SortedBy cmp.ltb l)
    {j : ℕ} (he : l[j]? = some e) (direction : MergeDirection) :
    cutPlace direction (cutAt cmp direction e.1) l = some j := by
  cases direction with
  | forward =>
    change clip l (cutPos (isBelow cmp.ltb e.1) l) = some j
    rw [cutPos_isBelow hcmp.isWeakOrder hsorted he]
    exact clip_of_lt (List.getElem?_eq_some_iff.mp he).1
  | reverse =>
    change before (cutPos (isUpTo cmp.ltb e.1) l) = some j
    rw [cutPos_isUpTo hcmp.isWeakOrder hsorted he]
    rfl

/-- The two cuts at an entry of another child are the same. -/
theorem Parts.cutPos_eq (P : Parts χ cmp) (hcmp : cmp.TotalPreorder) (he : e ∈ partAt P.parts c)
    (hic : i ≠ c) :
    cutPos (isUpTo cmp.ltb e.1) (partAt P.parts i) = cutPos (isBelow cmp.ltb e.1) (partAt P.parts i) :=
  cutPos_isUpTo_of_ne hcmp.isWeakOrder fun _ ha => P.merged.distinct hic ha he

/-- The current child is at the current entry. -/
theorem AtCut.current (hcmp : cmp.TotalPreorder) {direction : MergeDirection}
    (h : AtCut P it direction (cutAt cmp direction e.1)) (he : e ∈ partAt P.parts c) :
    ∃ child j, it.children[c]? = some child ∧ P.childAt c child (some j) ∧
      (partAt P.parts c)[j]? = some e := by
  obtain ⟨j, hj⟩ := List.mem_iff_getElem?.mp he
  obtain ⟨child, pos, hchild, hat, hpos⟩ := h.exists_child (P.lt_length he)
  rw [hpos, cutPlace_cutAt hcmp (P.merged.parts_sorted c) hj] at hat
  exact ⟨child, j, hchild, hat, hj⟩

/-- `key` and `value` in a state between calls. -/
theorem AtCut.entry (hcmp : cmp.TotalPreorder) {direction : MergeDirection}
    (h : AtCut P it direction (cutAt cmp direction e.1)) (hcurrent : it.current = some c)
    (he : e ∈ partAt P.parts c) : (it.key, it.value) = e := by
  obtain ⟨child, j, hchild, hat, hj⟩ := h.current hcmp he
  have hentry := (P.follows (P.lt_length he)).entry hat
  have hcurrentChild : it.currentChild = some child := by
    unfold currentChild
    rw [hcurrent]
    exact hchild
  unfold MergingIterator.key MergingIterator.value
  rw [hcurrentChild]
  exact Option.some.inj (hentry.symm.trans hj)

/-- A change of the direction to forward. -/
theorem AtCut.turnForward (hcmp : cmp.TotalPreorder) (h : AtCut P it .reverse (cutAt cmp .reverse e.1))
    (hcurrent : it.current = some c) (he : e ∈ partAt P.parts c) :
    AtCut P (it.onOthers (placeAfter cmp e.1)) .forward (cutAt cmp .forward e.1) := by
  obtain ⟨j, hj⟩ := List.mem_iff_getElem?.mp he
  have hsame : cutPlace .reverse (cutAt cmp .reverse e.1) (partAt P.parts c) =
      cutPlace .forward (cutAt cmp .forward e.1) (partAt P.parts c) := by
    rw [cutPlace_cutAt hcmp (P.merged.parts_sorted c) hj, cutPlace_cutAt hcmp (P.merged.parts_sorted c) hj]
  refine Placed.onOthers h hcurrent (fun hpos => hpos.trans hsame) fun {i child pos} hi hic hat => ?_
  have hseek := (P.follows hi).seek e.1 hat
  refine ⟨_, ?_, rfl⟩
  -- No other child has an equal key.
  have hnot : ¬(Iterator.valid (Iterator.seek e.1 child) = true ∧
      cmp.compare e.1 (Iterator.key (Iterator.seek e.1 child)) = .eq) := by
    intro heq
    obtain ⟨hvalid, heq⟩ := heq
    rw [(P.follows hi).valid hseek] at hvalid
    obtain ⟨k, hk⟩ := Option.isSome_iff_exists.mp hvalid
    rw [hk] at hseek
    have hmem := List.mem_of_getElem? ((P.follows hi).entry hseek)
    obtain hlt | hgt := P.merged.distinct hic hmem he
    · have hlt := of_decide_eq_true hlt
      exact hcmp.not_le.mpr hlt (Comparator.Equal.le heq)
    · have hgt := of_decide_eq_true hgt
      exact hcmp.not_le.mpr hgt (Comparator.Equal.le (hcmp.equal_symm heq))
  unfold placeAfter
  dsimp only
  rw [if_neg hnot]
  exact hseek

/-- A change of the direction to reverse. -/
theorem AtCut.turnReverse (hcmp : cmp.TotalPreorder) (h : AtCut P it .forward (cutAt cmp .forward e.1))
    (hcurrent : it.current = some c) (he : e ∈ partAt P.parts c) :
    AtCut P (it.onOthers (placeBefore e.1)) .reverse (cutAt cmp .reverse e.1) := by
  obtain ⟨j, hj⟩ := List.mem_iff_getElem?.mp he
  have hsame : cutPlace .forward (cutAt cmp .forward e.1) (partAt P.parts c) =
      cutPlace .reverse (cutAt cmp .reverse e.1) (partAt P.parts c) := by
    rw [cutPlace_cutAt hcmp (P.merged.parts_sorted c) hj, cutPlace_cutAt hcmp (P.merged.parts_sorted c) hj]
  refine Placed.onOthers h hcurrent (fun hpos => hpos.trans hsame) fun {i child pos} hi hic hat => ?_
  have hseek := (P.follows hi).seek e.1 hat
  have hcut : seekPos cmp.ltb (partAt P.parts i) e.1 = cutPos (isUpTo cmp.ltb e.1) (partAt P.parts i) :=
    (P.cutPos_eq hcmp he hic).symm
  refine ⟨_, ?_, rfl⟩
  unfold placeBefore
  dsimp only
  rw [(P.follows hi).valid hseek]
  change P.childAt i _ (before (cutPos (isUpTo cmp.ltb e.1) (partAt P.parts i)))
  rw [← hcut]
  by_cases hlt : seekPos cmp.ltb (partAt P.parts i) e.1 < (partAt P.parts i).length
  · rw [clip_of_lt hlt] at hseek ⊢
    exact (P.follows hi).prev hseek
  · have hlength : seekPos cmp.ltb (partAt P.parts i) e.1 = (partAt P.parts i).length :=
      Nat.le_antisymm (seekPos_le_length _ _ _) (Nat.le_of_not_lt hlt)
    rw [hlength, clip_of_le (Nat.le_refl _)] at hseek ⊢
    exact (P.follows hi).seekToLast hseek

/-- When the current child moves on, the children are cut behind the entry that it has shown. -/
theorem AtCut.next (hcmp : cmp.TotalPreorder) (h : AtCut P it .forward (cutAt cmp .forward e.1))
    (hcurrent : it.current = some c) (he : e ∈ partAt P.parts c) :
    AtCut P (it.onCurrent Iterator.next) .forward (isUpTo cmp.ltb e.1) := by
  obtain ⟨j, hj⟩ := List.mem_iff_getElem?.mp he
  refine Placed.onCurrent h hcurrent (fun {i pos} hic hpos => ?_) fun {child pos} hc hat hpos => ?_
  · rw [hpos]
    change clip _ (cutPos (isBelow cmp.ltb e.1) _) = clip _ (cutPos (isUpTo cmp.ltb e.1) _)
    rw [P.cutPos_eq hcmp he hic]
  · rw [hpos, cutPlace_cutAt hcmp (P.merged.parts_sorted c) hj] at hat
    refine ⟨_, (P.follows hc).next hat, ?_⟩
    change clip _ (j + 1) = clip _ (cutPos (isUpTo cmp.ltb e.1) _)
    rw [cutPos_isUpTo hcmp.isWeakOrder (P.merged.parts_sorted c) hj]

/-- When the current child moves back, the children are cut before the entry that it has shown. -/
theorem AtCut.prev (hcmp : cmp.TotalPreorder) (h : AtCut P it .reverse (cutAt cmp .reverse e.1))
    (hcurrent : it.current = some c) (he : e ∈ partAt P.parts c) :
    AtCut P (it.onCurrent Iterator.prev) .reverse (isBelow cmp.ltb e.1) := by
  obtain ⟨j, hj⟩ := List.mem_iff_getElem?.mp he
  refine Placed.onCurrent h hcurrent (fun {i pos} hic hpos => ?_) fun {child pos} hc hat hpos => ?_
  · rw [hpos]
    change before (cutPos (isUpTo cmp.ltb e.1) _) = before (cutPos (isBelow cmp.ltb e.1) _)
    rw [P.cutPos_eq hcmp he hic]
  · rw [hpos, cutPlace_cutAt hcmp (P.merged.parts_sorted c) hj] at hat
    refine ⟨_, (P.follows hc).prev hat, ?_⟩
    change before j = before (cutPos (isBelow cmp.ltb e.1) _)
    rw [cutPos_isBelow hcmp.isWeakOrder (P.merged.parts_sorted c) hj]

/-- `Next` places all children for the forward direction first. -/
theorem AtCut.exists_forward (hcmp : cmp.TotalPreorder)
    (h : AtCut P it it.direction (cutAt cmp it.direction e.1)) (hcurrent : it.current = some c)
    (he : e ∈ partAt P.parts c) :
    ∃ it' : MergingIterator χ, it.next = (it'.onCurrent Iterator.next).findSmallest ∧
      it'.current = some c ∧ it'.direction = .forward ∧ AtCut P it' .forward (cutAt cmp .forward e.1) := by
  have hkey : it.key = e.1 := congrArg Prod.fst (h.entry hcmp hcurrent he)
  unfold MergingIterator.next
  rw [hkey, h.comparator]
  cases hdirection : it.direction with
  | forward =>
    rw [hdirection] at h
    exact ⟨it, rfl, hcurrent, hdirection, h⟩
  | reverse =>
    rw [hdirection] at h
    have hturned := h.turnForward hcmp hcurrent he
    exact ⟨_, rfl, hcurrent, rfl, Placed.of_children hturned rfl rfl⟩

/-- `Prev` places all children for the reverse direction first. -/
theorem AtCut.exists_reverse (hcmp : cmp.TotalPreorder)
    (h : AtCut P it it.direction (cutAt cmp it.direction e.1)) (hcurrent : it.current = some c)
    (he : e ∈ partAt P.parts c) :
    ∃ it' : MergingIterator χ, it.prev = (it'.onCurrent Iterator.prev).findLargest ∧
      it'.current = some c ∧ it'.direction = .reverse ∧ AtCut P it' .reverse (cutAt cmp .reverse e.1) := by
  have hkey : it.key = e.1 := congrArg Prod.fst (h.entry hcmp hcurrent he)
  unfold MergingIterator.prev
  rw [hkey]
  cases hdirection : it.direction with
  | reverse =>
    rw [hdirection] at h
    exact ⟨it, rfl, hcurrent, hdirection, h⟩
  | forward =>
    rw [hdirection] at h
    have hturned := h.turnReverse hcmp hcurrent he
    exact ⟨_, rfl, hcurrent, rfl, Placed.of_children hturned rfl rfl⟩

/-- The states between calls are those of iterators over the parts. -/
theorem Stands.placed {pos : Option ℕ} (h : Stands P it pos) : Placed P it fun _ _ => True := by
  cases pos with
  | none => exact h.2
  | some n =>
    obtain ⟨c, e, -, -, -, hcut⟩ := h
    exact Placed.imp hcut fun _ _ => trivial

/-- The merging iterator is a cursor over the merged list. -/
theorem follows (hcmp : cmp.TotalPreorder) (P : Parts χ cmp) : Follows cmp.ltb P.list (Stands P) where
  valid {it pos} h := by
    cases pos with
    | none => exact congrArg Option.isSome h.1
    | some n =>
      obtain ⟨c, e, hcurrent, -⟩ := h
      change it.current.isSome = true
      rw [hcurrent]
      rfl
  entry {it n} h := by
    obtain ⟨c, e, hcurrent, he, hn, hcut⟩ := h
    rw [hn, ← hcut.entry hcmp hcurrent he]
    rfl
  status {it pos} h := by
    apply List.findSome?_eq_none_iff.mpr
    intro child hchild
    obtain ⟨i, hi⟩ := List.mem_iff_getElem?.mp hchild
    obtain ⟨pos', hat, -⟩ := h.placed.child hi
    exact (P.follows (h.placed.lt_length hi)).status hat
  seekToFirst {it pos} h := by
    have hcut : AtCut P (it.onChildren Iterator.seekToFirst) .forward fun _ => false :=
      Placed.onChildren h.placed fun hi hat => ⟨_, (P.follows hi).seekToFirst hat, by
        change clip _ 0 = clip _ _
        rw [cutPos_false]⟩
    -- Nothing is before the first entries.
    have hnone : IsCut cmp.ltb fun _ => false := fun hb _ => hb
    have hstands := AtCut.findSmallest hcmp hnone
      (Placed.of_children hcut rfl rfl : AtCut P { it.onChildren Iterator.seekToFirst with
        direction := .forward } .forward _) rfl
    rw [cutPos_false] at hstands
    exact hstands
  seekToLast {it pos} h := by
    have hcut : AtCut P (it.onChildren Iterator.seekToLast) .reverse fun _ => true :=
      Placed.onChildren h.placed fun hi hat => ⟨_, (P.follows hi).seekToLast hat, by
        change before _ = before _
        rw [cutPos_true]⟩
    -- Everything is before the end.
    have hall : IsCut cmp.ltb fun _ => true := fun _ _ => rfl
    have hstands := AtCut.findLargest hcmp hall
      (Placed.of_children hcut rfl rfl : AtCut P { it.onChildren Iterator.seekToLast with
        direction := .reverse } .reverse _) rfl
    rw [cutPos_true] at hstands
    exact hstands
  seek {it pos} target h := by
    have hcut : AtCut P (it.onChildren (Iterator.seek target)) .forward (isBelow cmp.ltb target) :=
      Placed.onChildren h.placed fun hi hat => ⟨_, (P.follows hi).seek target hat, rfl⟩
    exact AtCut.findSmallest hcmp (hcmp.isWeakOrder.isBelow target)
      (Placed.of_children hcut rfl rfl : AtCut P { it.onChildren (Iterator.seek target) with
        direction := .forward } .forward _) rfl
  next {it n} h := by
    obtain ⟨c, e, hcurrent, he, hn, hcut⟩ := h
    -- The other children are turned around first if the iterator has moved backwards.
    obtain ⟨it', hnext, hcurrent', hdirection, hcut'⟩ := hcut.exists_forward hcmp hcurrent he
    have hstands := (hcut'.next hcmp hcurrent' he).findSmallest hcmp (hcmp.isWeakOrder.isUpTo e.1)
      ((it'.onCurrent_direction Iterator.next).trans hdirection)
    rw [cutPos_isUpTo hcmp.isWeakOrder P.merged.sorted hn, ← hnext] at hstands
    exact hstands
  prev {it n} h := by
    obtain ⟨c, e, hcurrent, he, hn, hcut⟩ := h
    obtain ⟨it', hprev, hcurrent', hdirection, hcut'⟩ := hcut.exists_reverse hcmp hcurrent he
    have hstands := (hcut'.prev hcmp hcurrent' he).findLargest hcmp (hcmp.isWeakOrder.isBelow e.1)
      ((it'.onCurrent_direction Iterator.prev).trans hdirection)
    rw [cutPos_isBelow hcmp.isWeakOrder P.merged.sorted hn, ← hprev] at hstands
    exact hstands

end MergingIterator

/-! ## New iterators -/

/-- A wrapper is a cursor if its iterator is one: what it keeps is always up to date. -/
theorem Lib.IsCursor.wrapper {χ : Type} [Iterator χ Slice Slice Status] {lt : Slice → Slice → Bool}
    {l : List (Slice × Slice)} {child : χ} (h : IsCursor lt l child) :
    IsCursor lt l (IteratorWrapper.set child) := by
  obtain ⟨R, hfollows, hchild⟩ := h
  have hupdate : ∀ {w : IteratorWrapper χ} {iter : χ} {pos : Option ℕ}, R iter pos →
      R (w.update iter).iter pos ∧ (w.update iter).valid = Iterator.valid (w.update iter).iter ∧
        ((w.update iter).valid = true → (w.update iter).key = Iterator.key (w.update iter).iter) :=
    fun hiter => ⟨hiter, rfl, fun hvalid => if_pos hvalid⟩
  refine ⟨fun w pos => R w.iter pos ∧ w.valid = Iterator.valid w.iter ∧
    (w.valid = true → w.key = Iterator.key w.iter), ?_, hupdate hchild⟩
  constructor
  case valid => exact fun h => h.2.1.trans (hfollows.valid h.1)
  case entry =>
    intro w i h
    have hvalid : w.valid = true := h.2.1.trans (hfollows.valid h.1)
    rw [hfollows.entry h.1, ← h.2.2 hvalid]
    rfl
  case status => exact fun h => hfollows.status h.1
  case seekToFirst => exact fun h => hupdate (hfollows.seekToFirst h.1)
  case seekToLast => exact fun h => hupdate (hfollows.seekToLast h.1)
  case seek => exact fun target h => hupdate (hfollows.seek target h.1)
  case next => exact fun h => hupdate (hfollows.next h.1)
  case prev => exact fun h => hupdate (hfollows.prev h.1)

/-- The empty iterator is a cursor over nothing. -/
theorem EmptyIterator.isCursor (lt : Slice → Slice → Bool) : IsCursor lt [] (⟨none⟩ : EmptyIterator) := by
  refine ⟨fun it pos => it.status = none ∧ pos = none, ?_, rfl, rfl⟩
  constructor
  case valid => rintro it pos ⟨-, rfl⟩; rfl
  case entry => rintro it i ⟨-, h⟩; exact absurd h (Option.some_ne_none i)
  case status => exact fun h => h.1
  case seekToFirst => exact fun h => ⟨h.1, rfl⟩
  case seekToLast => exact fun h => ⟨h.1, rfl⟩
  case seek => exact fun target h => ⟨h.1, rfl⟩
  case next => rintro it i ⟨-, h⟩; exact absurd h (Option.some_ne_none i)
  case prev => rintro it i ⟨-, h⟩; exact absurd h (Option.some_ne_none i)

section New

variable {cmp : Comparator} {lists : List (List (Slice × Slice))}

/-- The entries of some lists, sorted by their keys. -/
def mergedList (cmp : Comparator) (lists : List (List (Slice × Slice))) : List (Slice × Slice) :=
  lists.flatten.insertionSort fun a b => cmp.Le a.1 b.1

/-- Sorted lists with different keys are merged. -/
theorem merged_mergedList (hcmp : cmp.TotalPreorder)
    (hsorted : ∀ l ∈ lists, l.Pairwise fun a b => cmp.Lt a.1 b.1)
    (hdistinct : lists.Pairwise fun l l' => ∀ a ∈ l, ∀ b ∈ l', ¬cmp.Equal a.1 b.1) :
    Merged cmp.ltb lists (mergedList cmp lists) := by
  have hperm : (mergedList cmp lists).Perm lists.flatten := List.perm_insertionSort _ _
  have hget : ∀ {i : ℕ} {e : Slice × Slice}, e ∈ partAt lists i → lists[i]? = some (partAt lists i) := by
    intro i e he
    unfold partAt at he ⊢
    rw [List.getD_eq_getElem?_getD] at he ⊢
    cases hi : lists[i]? with
    | none =>
      rw [hi] at he
      exact absurd he List.not_mem_nil
    | some l => rfl
  -- The keys of a list in an earlier place are not equal to those of a later one.
  have hne : ∀ {i j : ℕ} {a b : Slice × Slice}, i < j → a ∈ partAt lists i → b ∈ partAt lists j →
      ¬cmp.Equal a.1 b.1 := by
    intro i j a b hij ha hb
    obtain ⟨hi, hgeti⟩ := List.getElem?_eq_some_iff.mp (hget ha)
    obtain ⟨hj, hgetj⟩ := List.getElem?_eq_some_iff.mp (hget hb)
    have hpair := List.pairwise_iff_getElem.mp hdistinct i j hi hj hij
    rw [hgeti, hgetj] at hpair
    exact hpair a ha b hb
  have hlt : ∀ {a b : Slice}, cmp.Lt a b → ¬cmp.Equal a b := by
    intro a b hab heq
    exact hcmp.not_le.mpr hab (hcmp.equal_symm heq).le
  constructor
  case parts_sorted =>
    intro i
    cases hpart : partAt lists i with
    | nil => exact List.Pairwise.nil
    | cons e l =>
      have hmem : e ∈ partAt lists i := hpart ▸ List.mem_cons_self
      rw [← hpart]
      exact (hsorted _ (List.mem_of_getElem? (hget hmem))).imp fun hab => decide_eq_true hab
  case distinct =>
    intro i j a b hij ha hb
    have hnot : ¬cmp.Equal a.1 b.1 := by
      obtain hlt | hgt := Nat.lt_or_gt_of_ne hij
      · exact hne hlt ha hb
      · exact fun heq => hne hgt hb ha (hcmp.equal_symm heq)
    obtain hab | heq | hba := hcmp.lt_or_equal_or_gt a.1 b.1
    · exact Or.inl (decide_eq_true hab)
    · exact absurd heq hnot
    · exact Or.inr (decide_eq_true hba)
  case sorted =>
    have hflatten : lists.flatten.Pairwise fun a b => ¬cmp.Equal a.1 b.1 :=
      List.pairwise_flatten.mpr ⟨fun l hl => (hsorted l hl).imp hlt, hdistinct⟩
    have hdiffer : (mergedList cmp lists).Pairwise fun a b => ¬cmp.Equal a.1 b.1 :=
      hperm.symm.pairwise hflatten fun hnot heq => hnot (hcmp.equal_symm heq)
    have htotal : Std.Total fun a b : Slice × Slice => cmp.Le a.1 b.1 := by
      constructor
      intro a b
      by_cases hab : cmp.Le a.1 b.1
      · exact Or.inl hab
      · exact Or.inr (hcmp.not_le.mp hab).le
    have htrans : IsTrans (Slice × Slice) fun a b => cmp.Le a.1 b.1 := ⟨fun _ _ _ hab hbc => hcmp.trans hab hbc⟩
    have hle : (mergedList cmp lists).Pairwise fun a b => cmp.Le a.1 b.1 := List.pairwise_insertionSort _ _
    refine (hle.and hdiffer).imp fun {a b} hab => decide_eq_true ?_
    obtain hlt | heq := Comparator.le_iff_lt_or_equal.mp hab.1
    · exact hlt
    · exact absurd heq hab.2
  case mem_iff =>
    intro e
    rw [hperm.mem_iff, List.mem_flatten]
    constructor
    · intro h
      obtain ⟨l, hl, he⟩ := h
      obtain ⟨i, hi⟩ := List.mem_iff_getElem?.mp hl
      refine ⟨i, ?_⟩
      unfold partAt
      rw [List.getD_eq_getElem?_getD, hi]
      exact he
    · intro h
      obtain ⟨i, hi⟩ := h
      exact ⟨_, List.mem_of_getElem? (hget hi), hi⟩

/-- A merging iterator over cursors is a cursor over the merged list. -/
theorem MergingIterator.isCursor {χ : Type} [Iterator χ Slice Slice Status] (hcmp : cmp.TotalPreorder)
    {children : List χ} (hcursors : List.Forall₂ (fun l child => IsCursor cmp.ltb l child) lists children)
    (hmerged : Merged cmp.ltb lists (mergedList cmp lists)) :
    IsCursor cmp.ltb (mergedList cmp lists) ({ comparator := cmp, children := children } : MergingIterator χ) := by
  have hchild : ∀ i, ∃ R : χ → Option ℕ → Prop,
      (i < lists.length → Follows cmp.ltb (partAt lists i) R) ∧
        ∀ {child}, children[i]? = some child → R child none := by
    intro i
    by_cases hi : i < lists.length
    · have hi' : i < children.length := hcursors.length_eq ▸ hi
      obtain ⟨R, hfollows, hnew⟩ := hcursors.get hi hi'
      have hpart : partAt lists i = lists.get ⟨i, hi⟩ := by
        unfold partAt
        rw [List.getD_eq_getElem?_getD, List.getElem?_eq_getElem hi]
        rfl
      refine ⟨R, fun _ => hpart ▸ hfollows, fun {child} hget => ?_⟩
      obtain ⟨-, rfl⟩ := List.getElem?_eq_some_iff.mp hget
      exact hnew
    · refine ⟨fun _ _ => True, fun hlt => absurd hlt hi, fun _ => trivial⟩
  choose childAt hfollows hnew using hchild
  let P : MergingIterator.Parts χ cmp := ⟨lists, mergedList cmp lists, childAt, hmerged, fun {i} hi => hfollows i hi⟩
  exact ⟨_, MergingIterator.follows hcmp P, rfl, ⟨rfl, hcursors.length_eq.symm,
    fun hget => ⟨none, hnew _ hget, trivial⟩⟩⟩

/-- A list is the merged list of itself. -/
theorem mergedList_singleton {l : List (Slice × Slice)} (hsorted : l.Pairwise fun a b => cmp.Lt a.1 b.1) :
    mergedList cmp [l] = l := by
  unfold mergedList
  rw [List.flatten_singleton]
  exact (hsorted.imp fun hab => hab.le).insertionSort_eq

/-- `NewMergingIterator` over any number of cursors over sorted lists, whose keys are all different, is a
cursor over the sorted list of all entries; the wrappers of the children do not matter. -/
theorem merging_cursor {χ : Type} [Iterator χ Slice Slice Status] (hcmp : cmp.TotalPreorder)
    {children : List χ}
    (hcursors : List.Forall₂ (fun l child => IsCursor (fun a b => decide (cmp.Lt a b)) l child) lists children)
    (hsorted : ∀ l ∈ lists, l.Pairwise fun a b => cmp.Lt a.1 b.1)
    (hdistinct : lists.Pairwise fun l l' => ∀ a ∈ l, ∀ b ∈ l', ¬cmp.Equal a.1 b.1) (cs : List (Call Slice)) :
    (calls (newWrappedMergingIterator cmp children) cs).map observe =
      (cursorCalls (fun a b => decide (cmp.Lt a b)) (mergedList cmp lists) none cs).map
        (cursorObserve (mergedList cmp lists)) ∧
    (calls (newMergingIterator cmp children) cs).map observe =
      (cursorCalls (fun a b => decide (cmp.Lt a b)) (mergedList cmp lists) none cs).map
        (cursorObserve (mergedList cmp lists)) := by
  have hmerged := merged_mergedList hcmp hsorted hdistinct
  match lists, children, hcursors with
  | [], [], _ => exact ⟨(EmptyIterator.isCursor _).inl.run cs, (EmptyIterator.isCursor _).inl.run cs⟩
  | [l], [child], List.Forall₂.cons hchild _ =>
    rw [mergedList_singleton (hsorted l List.mem_cons_self)]
    exact ⟨hchild.inl.inr.run cs, hchild.inl.inr.run cs⟩
  | l1 :: l2 :: lists, child1 :: child2 :: children, hcursors =>
    constructor
    · have hwrappers : List.Forall₂ (fun l child => IsCursor cmp.ltb l child) (l1 :: l2 :: lists)
          ((child1 :: child2 :: children).map IteratorWrapper.set) :=
        List.forall₂_map_right_iff.mpr (hcursors.imp fun _ _ h => h.wrapper)
      exact (MergingIterator.isCursor hcmp hwrappers hmerged).inr.inr.run cs
    · exact (MergingIterator.isCursor hcmp hcursors hmerged).inr.inr.run cs

/-- The iterators of two blocks whose keys alternate. -/
theorem merging_cursor_example :
    let l1 : List (Slice × Slice) := [([97], [1]), ([99], [3])]
    let l2 : List (Slice × Slice) := [([98], [2])]
    let iterator := fun l => (Block.new (BlockBuilder.ofList 16 l).finish).newIterator bytewiseComparator
    mergedList bytewiseComparator [l1, l2] = [([97], [1]), ([98], [2]), ([99], [3])] ∧
      ∀ cs, (calls (newWrappedMergingIterator bytewiseComparator [iterator l1, iterator l2]) cs).map observe =
        (cursorCalls (fun a b => decide (bytewiseComparator.Lt a b)) (mergedList bytewiseComparator [l1, l2])
          none cs).map (cursorObserve (mergedList bytewiseComparator [l1, l2])) := by
  intro l1 l2 iterator
  have hcmp := bytewiseComparator_totalOrder.toTotalPreorder
  have hcursor : ∀ l : List (Slice × Slice), (l.Pairwise fun p q => bytewiseComparator.Lt p.1 q.1) →
      (BlockBuilder.ofList 16 l).finish.length < 2^32 →
      IsCursor (fun a b => decide (bytewiseComparator.Lt a b)) l (iterator l) := by
    intro l hsorted hlength
    obtain ⟨f, hf, rfl⟩ := (BlockBuilder.holds_ofList 16 l).exists_finishedBlock hlength
    obtain ⟨R, hfollows, -, hnew⟩ := f.isBoundedCursor hcmp hsorted
    rw [hf] at hnew
    exact ⟨R, hfollows, hnew⟩
  refine ⟨by decide, fun cs => (merging_cursor hcmp (List.Forall₂.cons (hcursor l1 ?_ ?_)
    (List.Forall₂.cons (hcursor l2 ?_ ?_) List.Forall₂.nil)) ?_ ?_ cs).1⟩
  · decide
  · decide
  · decide
  · decide
  · decide
  · decide

end New

end LevelDb
