import Mathlib.Data.Set.Insert
import Mathlib.Data.List.Nodup
import Mathlib.Logic.Function.Basic
import Mathlib.Tactic.Common

/-!
# Chains of nodes

Singly-linked lists that begin at heads and go on through the links of nodes. A pointer to a pointer may
point to a head or to a link: both are cells (`Cell`). To put a node into a list, or to take one out, is to
change the cell before it (`Leads.splice`). `Buckets` says that there are many lists at once, each with the
nodes that belong to its head.
-/

namespace LevelDb.Lib

variable {β α : Type}

/-- What holds a pointer to a node. -/
inductive Cell (β α : Type) where
  /-- The beginning of a list. -/
  | head (b : β)
  /-- The link of a node. -/
  | next (a : α)
  deriving DecidableEq

/-- The pointers in all cells. -/
abbrev Cells (β α : Type) := Cell β α → Option α

/-- A pointer leads through the nodes of a list. -/
def Leads (cells : Cells β α) : Option α → List α → Prop
  | w, [] => w = none
  | w, a :: l => w = some a ∧ Leads cells (cells (.next a)) l

/-- The cell behind the nodes of a list that begins at a cell. -/
def behind : Cell β α → List α → Cell β α
  | p, [] => p
  | _, a :: l => behind (.next a) l

variable {cells cells' : Cells β α} {p : Cell β α} {w : Option α} {l l₁ l₂ : List α} {a b : α}

/-! ## One list -/

/-- The cell behind a list is its beginning or the link of a node. -/
theorem behind_mem : ∀ {l : List α} (p : Cell β α), behind p l ∈ p :: l.map Cell.next
  | [], _ => List.mem_cons_self
  | a :: _, _ => List.mem_cons_of_mem _ (behind_mem (.next a))

/-- The cell behind a list that ends with a node is the link of the node. -/
@[simp] theorem behind_append_singleton : ∀ (l : List α) (p : Cell β α) (a : α), behind p (l ++ [a]) = .next a
  | [], _, _ => rfl
  | b :: l, _, a => behind_append_singleton l (.next b) a

/-- A pointer leads to its first node. -/
theorem Leads.head?_eq (h : Leads cells w l) : l.head? = w := by
  cases l with
  | nil => exact Eq.symm h
  | cons a l => exact h.1.symm

/-- A list depends on the links of its nodes only. -/
theorem Leads.congr : ∀ {l : List α} {w : Option α}, Leads cells w l →
    (∀ a ∈ l, cells' (.next a) = cells (.next a)) → Leads cells' w l
  | [], _, h, _ => h
  | a :: _, _, h, hsame => by
    refine ⟨h.1, ?_⟩
    rw [hsame a List.mem_cons_self]
    exact Leads.congr h.2 fun b hb => hsame b (List.mem_cons_of_mem a hb)

/-- The cells lead from one start to one list only. -/
theorem Leads.unique : ∀ {l l' : List α} {w : Option α}, Leads cells w l → Leads cells w l' → l = l'
  | [], [], _, _, _ => rfl
  | [], a :: _, _, h, h' => absurd (h.symm.trans h'.1) (Option.some_ne_none a).symm
  | a :: _, [], _, h, h' => absurd (h'.symm.trans h.1) (Option.some_ne_none a).symm
  | a :: l, b :: l', _, h, h' => by
    obtain rfl := Option.some.inj (h.1.symm.trans h'.1)
    exact congrArg _ (Leads.unique h.2 h'.2)

/-- The rest of a list begins at the cell behind its front. -/
theorem Leads.append_right : ∀ {l₁ : List α} {p : Cell β α}, Leads cells (cells p) (l₁ ++ l₂) →
    Leads cells (cells (behind p l₁)) l₂
  | [], _, h => h
  | a :: l₁, _, h => by
    exact Leads.append_right (p := .next a) h.2

variable [DecidableEq (Cell β α)]

/-- When the cell behind the front of a list is changed, the front stays, and the rest is the list to which
the new pointer leads. -/
theorem Leads.splice : ∀ {l₁ : List α} {p : Cell β α}, Leads cells (cells p) (l₁ ++ l₂) →
    (p :: l₁.map Cell.next).Nodup → Leads (Function.update cells (behind p l₁) w) w l →
    Leads (Function.update cells (behind p l₁) w) (Function.update cells (behind p l₁) w p) (l₁ ++ l)
  | [], p, _, _, hrest => by
    change Leads (Function.update cells p w) (Function.update cells p w p) l
    rw [Function.update_self]
    exact hrest
  | a :: l₁, p, h, hnodup, hrest => by
    obtain ⟨hp, hnodup⟩ := List.nodup_cons.mp hnodup
    have hne : p ≠ behind p (a :: l₁) := by
      intro heq
      rw [heq] at hp
      exact hp (behind_mem (.next a))
    refine ⟨?_, Leads.splice h.2 hnodup hrest⟩
    rw [Function.update_of_ne hne]
    exact h.1

/-! ## Many lists -/

omit [DecidableEq (Cell β α)] in
/-- From every head leads a list with the nodes that belong to it. -/
def Buckets (cells : Cells β α) (bucketOf : α → β) (members : Set α) : Prop :=
  ∀ b, ∃ l, Leads cells (cells (.head b)) l ∧ l.Nodup ∧ ∀ a, a ∈ l ↔ a ∈ members ∧ bucketOf a = b

variable {bucketOf : α → β} {members members' : Set α}

omit [DecidableEq (Cell β α)] in
/-- Cells without pointers have no nodes. -/
theorem buckets_empty (hhead : ∀ b, cells (.head b) = none) : Buckets cells bucketOf ∅ := by
  intro b
  refine ⟨[], hhead b, List.nodup_nil, fun a => ?_⟩
  constructor
  · exact fun ha => absurd ha List.not_mem_nil
  · exact fun ha => absurd ha.1 (Set.notMem_empty a)

omit [DecidableEq (Cell β α)] in
/-- One list is changed, and the others are not touched. -/
theorem Buckets.change (h : Buckets cells bucketOf members) {b : β} {l' : List α}
    (hhead : ∀ b', b' ≠ b → cells' (.head b') = cells (.head b'))
    (hnext : ∀ x ∈ members, bucketOf x ≠ b → cells' (.next x) = cells (.next x))
    (hl' : Leads cells' (cells' (.head b)) l') (hnodup : l'.Nodup)
    (hmem : ∀ x, x ∈ l' ↔ x ∈ members' ∧ bucketOf x = b)
    (hothers : ∀ x, bucketOf x ≠ b → (x ∈ members' ↔ x ∈ members)) :
    Buckets cells' bucketOf members' := by
  intro b'
  by_cases heq : b' = b
  · subst heq
    exact ⟨l', hl', hnodup, hmem⟩
  · obtain ⟨l, hl, hlnodup, hlmem⟩ := h b'
    refine ⟨l, ?_, hlnodup, fun x => ?_⟩
    · rw [hhead b' heq]
      refine hl.congr fun x hx => ?_
      obtain ⟨hx, hxb⟩ := (hlmem x).mp hx
      exact hnext x hx (hxb ▸ heq)
    · rw [hlmem x]
      refine and_congr_left fun hxb => ?_
      exact (hothers x (hxb ▸ heq)).symm

omit [DecidableEq (Cell β α)] in
/-- The cells of a list are different. -/
theorem nodup_cells {b : β} {l : List α} (h : l.Nodup) : ((.head b : Cell β α) :: l.map Cell.next).Nodup := by
  refine List.nodup_cons.mpr ⟨?_, h.map fun x y hxy => Cell.next.inj hxy⟩
  intro hmem
  obtain ⟨x, -, hx⟩ := List.mem_map.mp hmem
  exact nomatch hx

omit [DecidableEq (Cell β α)] in
/-- The cell behind a front is the link of no other node. -/
theorem next_ne_behind {b : β} {x : α} (hx : x ∉ l) : (.next x : Cell β α) ≠ behind (.head b) l := by
  intro heq
  have hmem : (.next x : Cell β α) ∈ .head b :: l.map Cell.next := heq ▸ behind_mem (.head b)
  obtain hhead | hmap := List.mem_cons.mp hmem
  · exact nomatch hhead
  · obtain ⟨y, hy, hyx⟩ := List.mem_map.mp hmap
    exact hx (Cell.next.inj hyx ▸ hy)

omit [DecidableEq (Cell β α)] in
/-- The cell behind a front is not another head. -/
theorem head_ne_behind {b b' : β} (hne : b' ≠ b) : (.head b' : Cell β α) ≠ behind (.head b) l := by
  intro heq
  have hmem : (.head b' : Cell β α) ∈ .head b :: l.map Cell.next := heq ▸ behind_mem (.head b)
  obtain hhead | hmap := List.mem_cons.mp hmem
  · exact hne (Cell.head.inj hhead)
  · obtain ⟨y, -, hy⟩ := List.mem_map.mp hmap
    exact nomatch hy

/-- A node whose link leads to the rest of a list is put behind the front. -/
theorem Leads.put {b : β} {x : α} (h : Leads cells (cells (.head b)) (l₁ ++ l₂)) (hnodup : (l₁ ++ l₂).Nodup)
    (hx : x ∉ l₁) (hlink : cells (.next x) = l₂.head?) :
    Leads (Function.update cells (behind (.head b) l₁) (some x))
      (Function.update cells (behind (.head b) l₁) (some x) (.head b)) (l₁ ++ x :: l₂) := by
  obtain ⟨hnodup₁, -, hdisjoint⟩ := List.nodup_append.mp hnodup
  refine h.splice (nodup_cells hnodup₁) ⟨rfl, ?_⟩
  rw [Function.update_of_ne (next_ne_behind hx), hlink]
  have hrest := h.append_right
  rw [← hrest.head?_eq] at hrest
  exact hrest.congr fun a ha => Function.update_of_ne (next_ne_behind fun hin => hdisjoint a hin a ha rfl) _ _

/-- The rest of a list is exchanged for another one, after links of nodes that are in no list were
written. -/
theorem Buckets.splice (h : Buckets cells bucketOf members) {b : β}
    (hl : Leads cells (cells (.head b)) (l₁ ++ l₂)) (hmem : ∀ x, x ∈ l₁ ++ l₂ ↔ x ∈ members ∧ bucketOf x = b)
    (hhead : ∀ b', cells' (.head b') = cells (.head b'))
    (hnext : ∀ x ∈ members, cells' (.next x) = cells (.next x)) (hrest : Leads cells' w l)
    (hnodup : (l₁ ++ l).Nodup) (hmem' : ∀ x, x ∈ l₁ ++ l ↔ x ∈ members' ∧ bucketOf x = b)
    (hothers : ∀ x, bucketOf x ≠ b → (x ∈ members' ↔ x ∈ members)) :
    Buckets (Function.update cells' (behind (.head b) l₁) w) bucketOf members' := by
  have hl' : Leads cells' (cells' (.head b)) (l₁ ++ l₂) := by
    rw [hhead b]
    exact hl.congr fun x hx => hnext x ((hmem x).mp hx).1
  obtain ⟨hnodup₁, -, hdisjoint⟩ := List.nodup_append.mp hnodup
  have hspliced := hl'.splice (nodup_cells hnodup₁) (hrest.congr fun x hx =>
    Function.update_of_ne (next_ne_behind fun hx₁ => hdisjoint x hx₁ x hx rfl) w cells')
  refine h.change (fun b' hb' => ?_) (fun x hx hxb => ?_) hspliced hnodup hmem' hothers
  · rw [Function.update_of_ne (head_ne_behind hb'), hhead b']
  · have hx₁ : x ∉ l₁ := fun hin => hxb ((hmem x).mp (List.mem_append_left _ hin)).2
    rw [Function.update_of_ne (next_ne_behind hx₁), hnext x hx]

omit [DecidableEq (Cell β α)] in
/-- A list without the first node of its rest. -/
theorem mem_append_tail (hnodup : (l₁ ++ l₂).Nodup) (x : α) :
    x ∈ l₁ ++ l₂.tail ↔ x ∈ l₁ ++ l₂ ∧ l₂.head? ≠ some x := by
  cases l₂ with
  | nil => simp
  | cons y l₂ =>
    have hy : y ∉ l₁ ++ l₂ := (List.nodup_middle.mp hnodup).notMem
    simp only [List.tail_cons, List.mem_append, List.mem_cons, List.head?_cons, ne_eq, Option.some.injEq]
    constructor
    · intro hx
      refine ⟨hx.imp_right Or.inr, ?_⟩
      rintro rfl
      exact hy (List.mem_append.mpr hx)
    · rintro ⟨hx | rfl | hx, hne⟩
      · exact Or.inl hx
      · exact absurd rfl hne
      · exact Or.inr hx

omit [DecidableEq (Cell β α)] in
/-- The rest of a list without its first node. -/
theorem Leads.tail {cells : Cells β α} (hl : Leads cells w l) :
    Leads cells (l.head?.bind fun a => cells (.next a)) l.tail := by
  cases l with
  | nil => exact rfl
  | cons a l => exact hl.2

/-- A node that is new takes the place of the first node of the rest of a list, or comes behind the end. -/
theorem Buckets.put (h : Buckets cells bucketOf members) {b : β}
    (hl : Leads cells (cells (.head b)) (l₁ ++ l₂)) (hnodup : (l₁ ++ l₂).Nodup)
    (hmem : ∀ x, x ∈ l₁ ++ l₂ ↔ x ∈ members ∧ bucketOf x = b) (ha : a ∉ members) (hab : bucketOf a = b)
    (hmem' : ∀ x, x ∈ members' ↔ x = a ∨ (x ∈ members ∧ l₂.head? ≠ some x)) :
    Buckets (Function.update
        (Function.update cells (.next a) (l₂.head?.bind fun old => cells (.next old)))
        (behind (.head b) l₁) (some a))
      bucketOf members' := by
  have hnot : a ∉ l₁ ++ l₂ := fun hin => ha ((hmem a).mp hin).1
  have hnext : ∀ x, x ≠ a → (.next x : Cell β α) ≠ .next a := fun x hx heq => hx (Cell.next.inj heq)
  have hmiddle : ∀ x, x ∈ l₁ ++ a :: l₂.tail ↔ x = a ∨ x ∈ l₁ ++ l₂.tail := by
    intro x
    simp only [List.mem_append, List.mem_cons]
    tauto
  -- Only the cell before the new node and the cell of the new node change.
  refine h.splice (l := a :: l₂.tail) hl hmem (fun b' => Function.update_of_ne (by simp) _ _) ?_
    ⟨rfl, ?_⟩ ?_ ?_ ?_
  · exact fun x hx => Function.update_of_ne (hnext x fun heq => ha (heq ▸ hx)) _ _
  · rw [Function.update_self]
    refine hl.append_right.tail.congr fun x hx => Function.update_of_ne (hnext x ?_) _ _
    rintro rfl
    exact hnot (List.mem_append_right _ (List.mem_of_mem_tail hx))
  · refine List.nodup_middle.mpr (List.nodup_cons.mpr ⟨fun hin => hnot ?_, ?_⟩)
    · exact ((mem_append_tail hnodup a).mp hin).1
    · exact hnodup.sublist ((List.tail_sublist l₂).append_left l₁)
  · intro x
    rw [hmiddle, mem_append_tail hnodup, hmem, hmem']
    constructor
    · rintro (rfl | ⟨⟨hx, hxb⟩, hne⟩)
      · exact ⟨Or.inl rfl, hab⟩
      · exact ⟨Or.inr ⟨hx, hne⟩, hxb⟩
    · rintro ⟨rfl | ⟨hx, hne⟩, hxb⟩
      · exact Or.inl rfl
      · exact Or.inr ⟨⟨hx, hxb⟩, hne⟩
  · intro x hxb
    rw [hmem']
    constructor
    · rintro (rfl | ⟨hx, -⟩)
      · exact absurd hab hxb
      · exact hx
    · intro hx
      refine Or.inr ⟨hx, fun hhead => hxb ?_⟩
      exact ((hmem x).mp (List.mem_append_right _ (List.mem_of_mem_head? hhead))).2

/-- The first node of the rest of a list is taken out. -/
theorem Buckets.takeOut (h : Buckets cells bucketOf members) {b : β}
    (hl : Leads cells (cells (.head b)) (l₁ ++ a :: l₂)) (hnodup : (l₁ ++ a :: l₂).Nodup)
    (hmem : ∀ x, x ∈ l₁ ++ a :: l₂ ↔ x ∈ members ∧ bucketOf x = b)
    (hmem' : ∀ x, x ∈ members' ↔ x ∈ members ∧ x ≠ a) :
    Buckets (Function.update cells (behind (.head b) l₁) (cells (.next a))) bucketOf members' := by
  have hrest := hl.append_right.2
  refine h.splice hl hmem (fun _ => rfl) (fun _ _ => rfl) hrest ?_ ?_ ?_
  · exact hnodup.sublist ((List.sublist_cons_self a l₂).append_left l₁)
  · intro x
    have htail := mem_append_tail hnodup x
    rw [List.tail_cons, List.head?_cons, hmem] at htail
    rw [htail, hmem']
    constructor
    · rintro ⟨⟨hx, hxb⟩, hne⟩
      exact ⟨⟨hx, fun heq => hne (congrArg some heq.symm)⟩, hxb⟩
    · rintro ⟨⟨hx, hne⟩, hxb⟩
      exact ⟨⟨hx, hxb⟩, fun heq => hne (Option.some.inj heq).symm⟩
  · intro x hxb
    rw [hmem']
    refine and_iff_left_of_imp ?_
    rintro hx rfl
    exact hxb ((hmem x).mp (List.mem_append_right _ List.mem_cons_self)).2

/-- A node that is new comes to the beginning of a list. -/
theorem Buckets.push (h : Buckets cells bucketOf members) (ha : a ∉ members)
    (hmem' : ∀ x, x ∈ members' ↔ x = a ∨ x ∈ members) :
    Buckets (Function.update (Function.update cells (.next a) (cells (.head (bucketOf a))))
      (.head (bucketOf a)) (some a)) bucketOf members' := by
  obtain ⟨l, hl, hnodup, hmem⟩ := h (bucketOf a)
  have hnot : a ∉ l := fun hin => ha ((hmem a).mp hin).1
  have hnext : ∀ x, x ≠ a → (.next x : Cell β α) ≠ .next a := fun x hx heq => hx (Cell.next.inj heq)
  have hl' : Leads cells (cells (.head (bucketOf a))) ([] ++ l) := hl
  refine h.splice (l := a :: l) hl' hmem (fun b' => Function.update_of_ne (by simp) _ _) ?_
    ⟨rfl, ?_⟩ (List.nodup_cons.mpr ⟨hnot, hnodup⟩) ?_ ?_
  · exact fun x hx => Function.update_of_ne (hnext x fun heq => ha (heq ▸ hx)) _ _
  · rw [Function.update_self]
    exact hl.congr fun x hx => Function.update_of_ne (hnext x fun heq => hnot (heq ▸ hx)) _ _
  · intro x
    rw [List.nil_append, List.mem_cons, hmem, hmem']
    constructor
    · rintro (rfl | ⟨hx, hxb⟩)
      · exact ⟨Or.inl rfl, rfl⟩
      · exact ⟨Or.inr hx, hxb⟩
    · rintro ⟨rfl | hx, hxb⟩
      · exact Or.inl rfl
      · exact Or.inr ⟨hx, hxb⟩
  · intro x hxb
    rw [hmem']
    refine or_iff_right_of_imp ?_
    rintro rfl
    exact absurd rfl hxb

end LevelDb.Lib
