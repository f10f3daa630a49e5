import LevelDb.Table.Merger
import LevelDb.Table.ReadErrors

/-!
# Errors of the merging iterator

A merging iterator reports the error of every child, and its scan takes all children to their ends. So
it fails if one of them does.
-/

namespace LevelDb

open Lib

/-! ## Scans of all children -/

section Finals

variable {χ : Type} [Iterator χ Slice Slice Status]

/-- Scans of a list of iterators, with the steps of all of them. -/
inductive Finals : ℕ → List χ → List χ → Prop
  /-- No iterator. -/
  | nil : Finals 0 [] []
  /-- One more iterator. -/
  | cons {n m : ℕ} {c t : χ} {cs ts : List χ} (h : Final n c t) (hrest : Finals m cs ts) :
    Finals (n + m) (c :: cs) (t :: ts)

/-- If the scan of each iterator of a list ends, then the scans of all of them end. -/
theorem exists_finals : ∀ {cs : List χ}, (∀ c ∈ cs, ∃ n t, Final n c t) → ∃ n ts, Finals n cs ts
  | [], _ => ⟨0, [], Finals.nil⟩
  | c :: cs, h => by
    obtain ⟨n, t, hfinal⟩ := h c List.mem_cons_self
    obtain ⟨m, ts, hfinals⟩ := exists_finals fun c' hc' => h c' (List.mem_cons_of_mem c hc')
    exact ⟨n + m, t :: ts, Finals.cons hfinal hfinals⟩

/-- The end of an iterator of the list. -/
theorem Finals.mem {n : ℕ} {cs ts : List χ} (h : Finals n cs ts) {c : χ} (hc : c ∈ cs) :
    ∃ m, ∃ t ∈ ts, Final m c t := by
  induction h with
  | nil => exact absurd hc List.not_mem_nil
  | @cons n m c' t cs ts hfinal _ ih =>
    obtain rfl | hc := List.mem_cons.mp hc
    · exact ⟨n, t, List.mem_cons_self, hfinal⟩
    · obtain ⟨m', t', ht', hfinal'⟩ := ih hc
      exact ⟨m', t', List.mem_cons_of_mem t ht', hfinal'⟩

/-- Moving one valid iterator to its next entry leaves one step less until all scans have ended. -/
theorem Finals.modify {n : ℕ} {cs ts : List χ} (h : Finals n cs ts) : ∀ {i : ℕ} {c : χ},
    cs[i]? = some c → Iterator.valid c = true →
      ∃ m, n = m + 1 ∧ Finals m (cs.modify i Iterator.next) ts := by
  induction h with
  | nil =>
    intro i c hc
    exact absurd hc (by simp)
  | @cons n m c' t cs ts hfinal hrest ih =>
    intro i c hc hvalid
    cases i with
    | zero =>
      obtain rfl : c' = c := by simpa using hc
      cases hfinal with
      | stop hstop => exact absurd (hstop.symm.trans hvalid) Bool.false_ne_true
      | @step n' _ _ _ hnext =>
        exact ⟨n' + m, by omega, Finals.cons hnext hrest⟩
    | succ i =>
      obtain ⟨m', rfl, hrest'⟩ := ih (by simpa using hc) hvalid
      exact ⟨n + m', by omega, Finals.cons hfinal hrest'⟩

/-- Iterators that are all at their ends. -/
theorem Finals.eq_of_not_valid {n : ℕ} {cs ts : List χ} (h : Finals n cs ts)
    (hend : ∀ c ∈ cs, Iterator.valid c = false) : n = 0 ∧ ts = cs := by
  induction h with
  | nil => exact ⟨rfl, rfl⟩
  | cons hfinal _ ih =>
    obtain ⟨rfl, rfl⟩ := hfinal.eq_of_not_valid (hend _ List.mem_cons_self)
    obtain ⟨rfl, rfl⟩ := ih fun c hc => hend c (List.mem_cons_of_mem _ hc)
    exact ⟨rfl, rfl⟩

end Finals

/-! ## The merging iterator -/

namespace MergingIterator

variable {χ : Type} [Iterator χ Slice Slice Status] {C : χ → Prop}

/-- The states of the children are among those of their invariant. -/
def Inv (C : χ → Prop) (it : MergingIterator χ) : Prop := ∀ c ∈ it.children, C c

/-- `status` reports the error of every child. -/
theorem getStatus_ne_none {it : MergingIterator χ} :
    it.getStatus ≠ none ↔ ∃ c ∈ it.children, Iterator.status c ≠ none := by
  unfold getStatus
  rw [ne_eq, List.findSome?_eq_none_iff]
  push Not
  rfl

/-- Changing every child by an operation that keeps errors. -/
theorem keeps_of_children {it it' : MergingIterator χ} (h : Inv C it) {f : ℕ → χ → χ}
    (hf : ∀ i, Keeps C (f i)) (heq : ∀ i, it'.children[i]? = it.children[i]?.map (f i)) :
    Inv C it' ∧ (Iterator.status it ≠ none → Iterator.status it' ≠ none) := by
  constructor
  · intro c' hc'
    obtain ⟨i, hi⟩ := List.mem_iff_getElem?.mp hc'
    rw [heq] at hi
    obtain ⟨c, hc, rfl⟩ := Option.map_eq_some_iff.mp hi
    exact (hf i c (h c (List.mem_of_getElem? hc))).1
  · intro herror
    obtain ⟨c, hc, hstatus⟩ := getStatus_ne_none.mp herror
    obtain ⟨i, hi⟩ := List.mem_iff_getElem?.mp hc
    have hi' : it'.children[i]? = some (f i c) := by
      rw [heq, hi]
      rfl
    exact getStatus_ne_none.mpr ⟨f i c, List.mem_of_getElem? hi', (hf i c (h c hc)).2 hstatus⟩

omit [Iterator χ Slice Slice Status] in
/-- The children after an operation on the current one. -/
theorem onCurrent_children (f : χ → χ) (it : MergingIterator χ) (i : ℕ) :
    (it.onCurrent f).children[i]? =
      it.children[i]?.map (if it.current = some i then f else id) := by
  unfold onCurrent
  split
  · rename_i hcurrent
    rw [hcurrent, if_neg (by exact (Option.some_ne_none i).symm), Option.map_id_fun, id]
  · rename_i j hcurrent
    rw [hcurrent, List.getElem?_modify]
    by_cases hij : j = i
    · rw [hij, if_pos rfl]
      simp
    · rw [if_neg (fun h => hij (Option.some.inj h))]
      simp [hij]

/-- Moving the current child keeps errors. -/
theorem keeps_onCurrent {f : χ → χ} (hf : Keeps C f) {it : MergingIterator χ} (h : Inv C it) :
    Inv C (it.onCurrent f) ∧ (Iterator.status it ≠ none → Iterator.status (it.onCurrent f) ≠ none) :=
  keeps_of_children h (fun _ => hf.ite Keeps.id) (onCurrent_children f it)

/-- Moving the other children keeps errors. -/
theorem keeps_onOthers {f : χ → χ} (hf : Keeps C f) {it : MergingIterator χ} (h : Inv C it) :
    Inv C (it.onOthers f) ∧ (Iterator.status it ≠ none → Iterator.status (it.onOthers f) ≠ none) := by
  refine keeps_of_children h (fun i => @Keeps.ite χ _ _ _ _ C (some i = it.current) _ id f Keeps.id hf) ?_
  intro i
  unfold onOthers
  rw [List.getElem?_mapIdx]
  congr 1
  funext c
  split_ifs <;> rfl

/-- An operation that keeps the errors of children keeps them when it is done on all children. -/
theorem keeps_onChildren {f : χ → χ} (hf : Keeps C f) {it : MergingIterator χ} (h : Inv C it) :
    Inv C (it.onChildren f) ∧
      (Iterator.status it ≠ none → Iterator.status (it.onChildren f) ≠ none) :=
  keeps_of_children h (fun _ => hf) fun _ => List.getElem?_map

/-- `MergingIterator` does not forget errors, if its children do not. -/
theorem sticky (hC : Sticky C) : Sticky (Inv C : MergingIterator χ → Prop) where
  seekToFirst it h := keeps_onChildren hC.seekToFirst h
  seekToLast it h := keeps_onChildren hC.seekToLast h
  seek target it h := keeps_onChildren (hC.seek target) h
  next it h := by
    have hplace : Keeps C (placeAfter it.comparator it.key : χ → χ) := by
      intro c hc
      obtain ⟨hseek, hstatus⟩ := hC.seek it.key c hc
      unfold placeAfter
      dsimp only
      split_ifs
      · obtain ⟨hnext, hstatus'⟩ := hC.next _ hseek
        exact ⟨hnext, fun herror => hstatus' (hstatus herror)⟩
      · exact ⟨hseek, hstatus⟩
    show Inv C it.next ∧ (it.getStatus ≠ none → it.next.getStatus ≠ none)
    unfold next
    dsimp only
    split_ifs
    · exact keeps_onCurrent hC.next h
    · obtain ⟨hothers, hstatus⟩ := keeps_onOthers hplace h
      obtain ⟨hcurrent, hstatus'⟩ := @keeps_onCurrent χ _ C _ hC.next
        { it.onOthers (placeAfter it.comparator it.key) with direction := .forward } hothers
      exact ⟨hcurrent, fun herror => hstatus' (hstatus herror)⟩
  prev it h := by
    have hplace : Keeps C (placeBefore it.key : χ → χ) := by
      intro c hc
      obtain ⟨hseek, hstatus⟩ := hC.seek it.key c hc
      unfold placeBefore
      dsimp only
      split_ifs
      · obtain ⟨hprev, hstatus'⟩ := hC.prev _ hseek
        exact ⟨hprev, fun herror => hstatus' (hstatus herror)⟩
      · obtain ⟨hlast, hstatus'⟩ := hC.seekToLast _ hseek
        exact ⟨hlast, fun herror => hstatus' (hstatus herror)⟩
    show Inv C it.prev ∧ (it.getStatus ≠ none → it.prev.getStatus ≠ none)
    unfold prev
    dsimp only
    split_ifs
    · exact keeps_onCurrent hC.prev h
    · obtain ⟨hothers, hstatus⟩ := keeps_onOthers hplace h
      obtain ⟨hcurrent, hstatus'⟩ := @keeps_onCurrent χ _ C _ hC.prev
        { it.onOthers (placeBefore it.key) with direction := .reverse } hothers
      exact ⟨hcurrent, fun herror => hstatus' (hstatus herror)⟩

/-! ### Scans -/

/-- A round of the loop of `FindSmallest`. -/
theorem smallerOf_spec (comparator : Comparator) (i : ℕ) (child : χ) (smallest : Option (ℕ × χ)) :
    (smallerOf comparator i child smallest = none ↔ smallest = none ∧ Iterator.valid child = false) ∧
      ∀ r, smallerOf comparator i child smallest = some r →
        smallest = some r ∨ (r = (i, child) ∧ Iterator.valid child = true) := by
  cases smallest with
  | none =>
    unfold smallerOf
    cases hvalid : Iterator.valid child with
    | false => simp
    | true => simp
  | some s =>
    unfold smallerOf
    dsimp only
    split_ifs with hless
    · refine ⟨by simp, fun r hr => Or.inr ⟨(Option.some.inj hr).symm, hless.1⟩⟩
    · exact ⟨by simp, fun r hr => Or.inl hr⟩

/-- The loop of `FindSmallest` finds a valid child, or there is none. -/
theorem findSmallestFrom_spec (comparator : Comparator) : ∀ (children : List χ) (i : ℕ)
    (smallest : Option (ℕ × χ)),
    (findSmallestFrom comparator children i smallest = none ↔
      smallest = none ∧ ∀ c ∈ children, Iterator.valid c = false) ∧
    ∀ r, findSmallestFrom comparator children i smallest = some r →
      smallest = some r ∨ ∃ j, r.1 = i + j ∧ children[j]? = some r.2 ∧ Iterator.valid r.2 = true
  | [], i, smallest => by
    refine ⟨?_, fun r hr => Or.inl hr⟩
    exact ⟨fun h => ⟨h, fun c hc => absurd hc List.not_mem_nil⟩, fun h => h.1⟩
  | child :: children, i, smallest => by
    obtain ⟨hnone, hsome⟩ := findSmallestFrom_spec comparator children (i + 1)
      (smallerOf comparator i child smallest)
    obtain ⟨hround, hround'⟩ := smallerOf_spec comparator i child smallest
    unfold findSmallestFrom
    constructor
    · rw [hnone, hround, List.forall_mem_cons, and_assoc]
    · intro r hr
      obtain hr | ⟨j, hj, hchild, hvalid⟩ := hsome r hr
      · obtain hr | ⟨rfl, hvalid⟩ := hround' r hr
        · exact Or.inl hr
        · exact Or.inr ⟨0, rfl, rfl, hvalid⟩
      · exact Or.inr ⟨j + 1, by omega, hchild, hvalid⟩

/-- The iterator moves forward and is at its smallest child. -/
def AtSmallest (it : MergingIterator χ) : Prop :=
  it.direction = .forward ∧
    it.current = (findSmallestFrom it.comparator it.children 0 none).map (·.1)

/-- A merging iterator that moves forward is at its end when all children are, or `Next` moves one of
them. -/
theorem AtSmallest.cases {it : MergingIterator χ} (h : it.AtSmallest) :
    (Iterator.valid it = false ∧ ∀ c ∈ it.children, Iterator.valid c = false) ∨
      (Iterator.valid it = true ∧ (Iterator.next it).AtSmallest ∧
        ∃ i c, it.children[i]? = some c ∧ Iterator.valid c = true ∧
          (Iterator.next it).children = it.children.modify i Iterator.next) := by
  obtain ⟨hnone, hsome⟩ := findSmallestFrom_spec it.comparator it.children 0 none
  obtain ⟨hforward, hcurrent⟩ := h
  cases hsmallest : findSmallestFrom it.comparator it.children 0 none with
  | none =>
    rw [hsmallest] at hcurrent
    refine Or.inl ⟨?_, (hnone.mp hsmallest).2⟩
    show it.current.isSome = false
    rw [hcurrent]
    rfl
  | some r =>
    obtain hr | ⟨j, hj, hchild, hvalid⟩ := hsome r hsmallest
    · exact absurd hr.symm (Option.some_ne_none r)
    · have hj' : r.1 = j := by omega
      rw [hsmallest, Option.map_some, hj'] at hcurrent
      have hnext : Iterator.next it =
          ({ it with children := it.children.modify j Iterator.next } : MergingIterator χ).findSmallest := by
        show it.next = _
        unfold next onCurrent
        dsimp only
        rw [if_pos hforward, hcurrent]
      refine Or.inr ⟨?_, ?_, j, r.2, hchild, hvalid, ?_⟩
      · show it.current.isSome = true
        rw [hcurrent]
        rfl
      · rw [hnext]
        exact ⟨hforward, rfl⟩
      · rw [hnext]
        rfl

/-- The scan of a merging iterator takes its children to their ends. -/
theorem exists_final : ∀ {n : ℕ} {it : MergingIterator χ} {ts : List χ}, it.AtSmallest →
    Finals n it.children ts → ∃ t : MergingIterator χ, Final n it t ∧ t.children = ts := by
  intro n
  -- By induction on the steps of all children.
  induction n with
  | zero =>
    intro it ts h hfinals
    obtain ⟨hvalid, hend⟩ | ⟨-, -, i, c, hchild, hvalid, -⟩ := h.cases
    · exact ⟨it, Final.stop hvalid, (hfinals.eq_of_not_valid hend).2.symm⟩
    · obtain ⟨m, hm, -⟩ := hfinals.modify hchild hvalid
      exact absurd hm (Nat.succ_ne_zero m).symm
  | succ n ih =>
    intro it ts h hfinals
    obtain ⟨hvalid, hend⟩ | ⟨hvalid, hnext, i, c, hchild, hc, hchildren⟩ := h.cases
    · exact absurd (hfinals.eq_of_not_valid hend).1 (Nat.succ_ne_zero n)
    · obtain ⟨m, hm, hfinals'⟩ := hfinals.modify hchild hc
      obtain rfl := Nat.succ.inj hm
      rw [← hchildren] at hfinals'
      obtain ⟨t, hfinal, ht⟩ := ih hnext hfinals'
      exact ⟨t, Final.step hvalid hfinal, ht⟩

/-- `SeekToFirst` and `Next` leave the iterator at its smallest child. -/
theorem atSmallest_seekToFirst (it : MergingIterator χ) : (Iterator.seekToFirst it).AtSmallest :=
  ⟨rfl, rfl⟩

/-- `Next` leaves the iterator at its smallest child. -/
theorem atSmallest_next (it : MergingIterator χ) : (Iterator.next it).AtSmallest := by
  show it.next.AtSmallest
  unfold next
  dsimp only
  split_ifs with hforward
  · refine ⟨?_, rfl⟩
    show (it.onCurrent Iterator.next).direction = .forward
    unfold onCurrent
    split <;> exact hforward
  · refine ⟨?_, rfl⟩
    unfold findSmallest onCurrent
    dsimp only
    split <;> rfl

/-- No operation on a merging iterator forgets an error, and its scans come to an end. -/
theorem scannable (hC : Scannable C) : Scannable (Inv C : MergingIterator χ → Prop) where
  toSticky := sticky hC.toSticky
  ends {it} h := by
    cases hvalid : Iterator.valid it with
    | false => exact ⟨0, it, Final.stop hvalid⟩
    | true =>
      have hnext := ((sticky hC.toSticky).next it h).1
      obtain ⟨n, ts, hfinals⟩ := exists_finals fun c hc => hC.ends (hnext c hc)
      obtain ⟨t, hfinal, -⟩ := exists_final it.atSmallest_next hfinals
      exact ⟨n + 1, t, Final.step hvalid hfinal⟩

/-- A merging iterator fails if one of its children does. -/
theorem fails (hC : Scannable C) {it : MergingIterator χ} (h : Inv C it) {c : χ} (hc : c ∈ it.children)
    (hfails : Fails c) : Fails it := by
  have hfirst := ((sticky hC.toSticky).seekToFirst it h).1
  obtain ⟨n, ts, hfinals⟩ := exists_finals fun c' hc' => hC.ends (hfirst c' hc')
  obtain ⟨t, hfinal, ht⟩ := exists_final it.atSmallest_seekToFirst hfinals
  refine ⟨n, t, hfinal, getStatus_ne_none.mpr ?_⟩
  have hmem : Iterator.seekToFirst c ∈ (Iterator.seekToFirst it).children := List.mem_map_of_mem hc
  obtain ⟨m, u, hu, hfinal'⟩ := hfinals.mem hmem
  obtain ⟨m', u', hfinal'', hstatus⟩ := hfails
  rw [← (hfinal'.unique hfinal'').2] at hstatus
  exact ⟨u, ht ▸ hu, hstatus⟩

end MergingIterator

section NewMergingIterator

variable {χ : Type} [Iterator χ Slice Slice Status] {C : χ → Prop}

/-- The states of what `NewMergingIterator` returns. -/
def MergedIterator.Inv (C : χ → Prop) : MergedIterator χ → Prop :=
  Sum.elim (fun _ => True) (Sum.elim C (MergingIterator.Inv C))

/-- No operation on what `NewMergingIterator` returns forgets an error, and its scans come to an end. -/
theorem MergedIterator.scannable (hC : Scannable C) : Scannable (MergedIterator.Inv C) :=
  EmptyIterator.scannable.sum (hC.sum (MergingIterator.scannable hC))

/-- `NewMergingIterator` starts in the invariant, and fails if one of its children does. -/
theorem newMergingIterator_fails (hC : Scannable C) (cmp : Comparator) {children : List χ}
    (h : ∀ c ∈ children, C c) {c : χ} (hc : c ∈ children) (hfails : Fails c) :
    MergedIterator.Inv C (newMergingIterator cmp children) ∧
      Fails (newMergingIterator cmp children) := by
  unfold newMergingIterator
  split
  · exact absurd hc List.not_mem_nil
  · rw [List.mem_singleton.mp hc] at hfails
    exact ⟨h _ (List.mem_singleton_self _), hfails.inl.inr⟩
  · have hinv : MergingIterator.Inv C { comparator := cmp, children := children } := h
    exact ⟨hinv, (MergingIterator.fails hC hinv hc hfails).inr.inr⟩

end NewMergingIterator

end LevelDb
