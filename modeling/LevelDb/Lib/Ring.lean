import Mathlib.Data.List.Basic
import Mathlib.Data.List.Nodup
import Mathlib.Logic.Function.Basic
import Mathlib.Tactic.Common

/-!
# Circular doubly-linked lists

Nodes with links to their neighbours, in a circle through a dummy head. `Ring links head l` says that
the circle has the nodes of `l` between the head and the head. A node is inserted just before the head,
at the end of the list, or taken out anywhere; what the links of a node that is out of the circle say
does not matter.
-/

namespace LevelDb.Lib

variable {α : Type} [DecidableEq α]

/-- The links of all nodes. -/
structure Links (α : Type) where
  /-- The node before. -/
  prev : α → α
  /-- The node after. -/
  next : α → α

/-- The links of an empty circle. -/
def Links.empty (head : α) : Links α := ⟨fun _ => head, fun _ => head⟩

/-- The node `e` goes just before the head. -/
def Links.insertLast (links : Links α) (head e : α) : Links α where
  prev := Function.update (Function.update links.prev e (links.prev head)) head e
  next := Function.update (Function.update links.next e head) (links.prev head) e

/-- The neighbours of `e` are linked with each other. -/
def Links.remove (links : Links α) (e : α) : Links α where
  prev := Function.update links.prev (links.next e) (links.prev e)
  next := Function.update links.next (links.prev e) (links.next e)

/-! ## Arcs -/

omit [DecidableEq α] in
/-- From `a` the links lead through `l` to `b`, and back. -/
def Arc (links : Links α) : α → List α → α → Prop
  | a, [], b => links.next a = b ∧ links.prev b = a
  | a, x :: l, b => (links.next a = x ∧ links.prev x = a) ∧ Arc links x l b

variable {links links' : Links α} {a b b' e head x : α} {l l₁ l₂ : List α}

omit [DecidableEq α] in
/-- An arc through `x` is two arcs. -/
theorem arc_append : ∀ {l₁ : List α} {a : α},
    Arc links a (l₁ ++ x :: l₂) b ↔ Arc links a l₁ x ∧ Arc links x l₂ b
  | [], _ => Iff.rfl
  | y :: l₁, a => by
    rw [List.cons_append, Arc, Arc, arc_append]
    simp only [and_assoc]

omit [DecidableEq α] in
/-- Before the end of an arc is its last node. -/
theorem Arc.prev_eq : ∀ {l : List α} {a : α}, Arc links a l b →
    links.prev b = (a :: l).getLast (List.cons_ne_nil a l)
  | [], _, h => h.2
  | x :: l, _, h => by
    rw [List.getLast_cons (List.cons_ne_nil x l)]
    exact Arc.prev_eq h.2

omit [DecidableEq α] in
/-- The last node of an arc is one of its nodes. -/
theorem Arc.prev_mem (h : Arc links a l b) : links.prev b ∈ a :: l := by
  rw [h.prev_eq]
  exact List.getLast_mem _

omit [DecidableEq α] in
/-- After the start of an arc is its first node, or its end. -/
theorem Arc.next_eq (h : Arc links a l b) : links.next a = (l ++ [b]).head (by simp) := by
  cases l with
  | nil => exact h.1
  | cons x l => exact h.1.1

omit [DecidableEq α] in
/-- An arc only depends on its own links. -/
theorem Arc.congr : ∀ {l : List α} {a : α}, Arc links a l b →
    (∀ y ∈ a :: l, links'.next y = links.next y) → (∀ y ∈ l, links'.prev y = links.prev y) →
    links'.prev b = links.prev b → Arc links' a l b
  | [], a, h, hnext, _, hend => ⟨(hnext a List.mem_cons_self).trans h.1, hend.trans h.2⟩
  | x :: _, a, h, hnext, hprev, hend =>
    ⟨⟨(hnext a List.mem_cons_self).trans h.1.1, (hprev x List.mem_cons_self).trans h.1.2⟩,
      Arc.congr h.2 (fun y hy => hnext y (List.mem_cons_of_mem a hy))
        (fun y hy => hprev y (List.mem_cons_of_mem x hy)) hend⟩

omit [DecidableEq α] in
/-- The last link of an arc may lead to another end. -/
theorem Arc.retarget : ∀ {l : List α} {a : α}, Arc links a l b → (a :: l).Nodup →
    (∀ y ∈ a :: l, y ≠ links.prev b → links'.next y = links.next y) →
    (∀ y ∈ l, links'.prev y = links.prev y) →
    links'.next (links.prev b) = b' → links'.prev b' = links.prev b → Arc links' a l b'
  | [], a, h, _, _, _, hto, hback => by
    rw [h.2] at hto hback
    exact ⟨hto, hback⟩
  | x :: l, a, h, hnodup, hnext, hprev, hto, hback => by
    obtain ⟨ha, hnodup⟩ := List.nodup_cons.mp hnodup
    have hne : a ≠ links.prev b := by
      rintro rfl
      exact ha (Arc.prev_mem h.2)
    refine ⟨⟨?_, ?_⟩, ?_⟩
    · rw [hnext a List.mem_cons_self hne]
      exact h.1.1
    · rw [hprev x List.mem_cons_self]
      exact h.1.2
    · exact Arc.retarget h.2 hnodup (fun y hy => hnext y (List.mem_cons_of_mem a hy))
        (fun y hy => hprev y (List.mem_cons_of_mem x hy)) hto hback

/-! ## Rings -/

omit [DecidableEq α] in
/-- The circle through the head has the nodes of `l`, in this order and each once. -/
structure Ring (links : Links α) (head : α) (l : List α) : Prop where
  /-- The links. -/
  arc : Arc links head l head
  /-- No node comes twice. -/
  nodup : (head :: l).Nodup

namespace Ring

omit [DecidableEq α] in
/-- A head that links to itself is a circle without other nodes. -/
theorem empty (head : α) : Ring (Links.empty head) head [] := ⟨⟨rfl, rfl⟩, List.nodup_singleton head⟩

omit [DecidableEq α] in
/-- The head is not in the list. -/
theorem head_notMem (h : Ring links head l) : head ∉ l := (List.nodup_cons.mp h.nodup).1

omit [DecidableEq α] in
/-- After the head is the first node, if there is one. -/
theorem next_head (h : Ring links head l) : links.next head = l.headD head := by
  rw [h.arc.next_eq]
  cases l <;> rfl

omit [DecidableEq α] in
/-- The circle is empty iff the head is linked to itself. -/
theorem next_head_eq_iff (h : Ring links head l) : links.next head = head ↔ l = [] := by
  rw [h.next_head]
  cases l with
  | nil => simp
  | cons x l =>
    have hne : x ≠ head := fun hx => h.head_notMem (hx ▸ List.mem_cons_self)
    simp [hne]

omit [DecidableEq α] in
/-- No node in the circle is linked to itself. -/
theorem next_ne_self (h : Ring links head l) (he : e ∈ l) : links.next e ≠ e := by
  obtain ⟨l₁, l₂, rfl⟩ := List.append_of_mem he
  have hnext := (arc_append.mp h.arc).2.next_eq
  have hnodup : (e :: (l₂ ++ [head])).Nodup := by
    have hsub : List.Sublist (e :: l₂) (l₁ ++ e :: l₂) := List.sublist_append_right _ _
    have hrest := ((List.nodup_cons.mp h.nodup).2).sublist hsub
    obtain ⟨hl₂, hrest⟩ := List.nodup_cons.mp hrest
    have hhead : head ∉ l₁ ++ e :: l₂ := h.head_notMem
    simp only [List.mem_append, List.mem_cons, not_or] at hhead
    simp only [List.nodup_cons, List.mem_append, List.mem_singleton, not_or, List.nodup_append]
    refine ⟨⟨hl₂, fun heq => hhead.2.1 heq.symm⟩, hrest, by simp, ?_⟩
    rintro y hy z hz rfl
    obtain rfl := hz
    exact hhead.2.2 hy
  intro heq
  rw [hnext] at heq
  exact (List.nodup_cons.mp hnodup).1 (heq ▸ List.head_mem _)

/-- A new node goes to the end of the list. -/
theorem insertLast (h : Ring links head l) (he : e ∉ head :: l) :
    Ring (links.insertLast head e) head (l ++ [e]) := by
  have hlast : links.prev head ∈ head :: l := h.arc.prev_mem
  have hne_head : e ≠ head := fun heq => he (heq ▸ List.mem_cons_self)
  have hne_last : links.prev head ≠ e := fun heq => he (heq ▸ hlast)
  have hne : ∀ y ∈ head :: l, y ≠ e := fun y hy heq => he (heq ▸ hy)
  refine ⟨arc_append.mpr ⟨?_, ?_, ?_⟩, ?_⟩
  · -- the old nodes, whose last one now leads to `e`
    apply h.arc.retarget h.nodup
    · intro y hy hlasty
      show Function.update (Function.update links.next e head) (links.prev head) e y = _
      rw [Function.update_of_ne hlasty, Function.update_of_ne (hne y hy)]
    · intro y hy
      have hyhead : y ≠ head := fun heq => h.head_notMem (heq ▸ hy)
      show Function.update (Function.update links.prev e (links.prev head)) head e y = _
      rw [Function.update_of_ne hyhead, Function.update_of_ne (hne y (List.mem_cons_of_mem _ hy))]
    · exact Function.update_self _ _ _
    · show Function.update (Function.update links.prev e (links.prev head)) head e e = _
      rw [Function.update_of_ne hne_head, Function.update_self]
  · show Function.update (Function.update links.next e head) (links.prev head) e e = head
    rw [Function.update_of_ne hne_last.symm, Function.update_self]
  · exact Function.update_self _ _ _
  · rw [← List.cons_append, List.nodup_append]
    refine ⟨h.nodup, List.nodup_singleton e, fun y hy z hz => ?_⟩
    rw [List.mem_singleton.mp hz]
    exact hne y hy

/-- Taking a node out of a circle leaves the circle of the other nodes in their order. -/
theorem remove (h : Ring links head (l₁ ++ e :: l₂)) : Ring (links.remove e) head (l₁ ++ l₂) := by
  obtain ⟨hfront, hback⟩ := arc_append.mp h.arc
  have hnodup : (head :: l₁ ++ e :: l₂).Nodup := h.nodup
  obtain ⟨hnodup₁, hnodup₂, hdisjoint⟩ := List.nodup_append.mp hnodup
  have hnodup' : (head :: (l₁ ++ l₂)).Nodup :=
    hnodup.sublist (List.Sublist.append_left (List.sublist_cons_self e l₂) (head :: l₁))
  refine ⟨?_, hnodup'⟩
  have hprev : links.prev e ∈ head :: l₁ := hfront.prev_mem
  have hnext : links.next e = (l₂ ++ [head]).head (by simp) := hback.next_eq
  -- the nodes before `e` now lead to the node after it
  have hfront' : Arc (links.remove e) head l₁ (links.next e) := by
    apply hfront.retarget hnodup₁
    · intro y _ hy
      exact Function.update_of_ne hy _ _
    · intro y hy
      refine Function.update_of_ne ?_ _ _
      rintro rfl
      have hmem : links.next e ∈ l₂ ++ [head] := by
        rw [hnext]
        exact List.head_mem _
      rcases List.mem_append.mp hmem with hmem | hmem
      · exact hdisjoint _ (List.mem_cons_of_mem head hy) _ (List.mem_cons_of_mem e hmem) rfl
      · rw [List.mem_singleton.mp hmem] at hy
        exact (List.nodup_cons.mp hnodup₁).1 hy
    · exact Function.update_self _ _ _
    · exact Function.update_self _ _ _
  cases l₂ with
  | nil =>
    rw [List.append_nil]
    rw [hnext] at hfront'
    exact hfront'
  | cons x l₂ =>
    have hx : links.next e = x := hnext
    rw [hx] at hfront'
    refine arc_append.mpr ⟨hfront', hback.2.congr ?_ ?_ ?_⟩
    · intro y hy
      refine Function.update_of_ne ?_ _ _
      rintro rfl
      exact hdisjoint _ hprev _ (List.mem_cons_of_mem e hy) rfl
    · intro y hy
      refine Function.update_of_ne ?_ _ _
      rw [hx]
      rintro rfl
      exact (List.nodup_cons.mp (List.nodup_cons.mp hnodup₂).2).1 hy
    · refine Function.update_of_ne ?_ _ _
      rw [hx]
      rintro rfl
      exact hdisjoint _ List.mem_cons_self _ (List.mem_cons_of_mem e List.mem_cons_self) rfl

/-- Taking out a node of the list. -/
theorem remove_mem (h : Ring links head l) (he : e ∈ l) : Ring (links.remove e) head (l.erase e) := by
  obtain ⟨l₁, l₂, hnot, rfl, herase⟩ := List.exists_erase_eq he
  rw [herase]
  exact h.remove

/-- Inserting a node leaves the links of nodes that are not in the circle. -/
theorem next_insertLast (h : Ring links head l) (hx : x ∉ head :: l) (hxe : x ≠ e) :
    (links.insertLast head e).next x = links.next x := by
  have hlast : links.prev head ∈ head :: l := h.arc.prev_mem
  unfold Links.insertLast
  dsimp only
  rw [Function.update_of_ne (ne_of_mem_of_not_mem hlast hx).symm, Function.update_of_ne hxe]

/-- Taking a node out leaves its links, and those of nodes that are not in the circle. -/
theorem next_remove (h : Ring links head l) (he : e ∈ l) (hx : x ∉ head :: l.erase e) :
    (links.remove e).next x = links.next x := by
  obtain ⟨l₁, l₂, hnot, rfl, herase⟩ := List.exists_erase_eq he
  rw [herase] at hx
  have hprev : links.prev e ∈ head :: l₁ := (arc_append.mp h.arc).1.prev_mem
  refine Function.update_of_ne (ne_of_mem_of_not_mem ?_ hx).symm _ _
  exact (List.cons_subset_cons head (List.subset_append_left l₁ l₂)) hprev

end Ring

end LevelDb.Lib
