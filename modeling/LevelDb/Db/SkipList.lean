import LevelDb.Lib.Chains
import LevelDb.Lib.SortedList
import Mathlib.Data.List.Perm.Subperm

/-!
# Skip lists

`SkipList` of `db/skiplist.h`, with the links of its nodes. A node has as many `next_` pointers as it is
high, and reading or writing another one has no result. Each level is a list through the pointers of its
number, and has some of the nodes of the level below (`SkipList.Shape`). A search steps right and down from
`head_`; it stops at the last node of every level that is before the place it looks for
(`SkipList.Shape.search`), whatever the heights are. The comparator may fail.
-/

namespace LevelDb

open Lib

/-! ## The code -/

/-- `kMaxHeight` -/
def kMaxHeight : ℕ := 12

/-- `Node`, without its pointers. -/
structure SkipNode (K : Type) where
  /-- `key` -/
  key : K
  /-- The length of `next_`. -/
  height : ℕ

/-- `head_`, or the node at an address. -/
abbrev SkipCell := Cell Unit ℕ

/-- `SkipList` -/
structure SkipList (K : Type) where
  /-- `max_height_` -/
  maxHeight : ℕ := 1
  /-- The nodes in memory. -/
  nodes : ℕ → Option (SkipNode K) := fun _ => none
  /-- `next_[level]` of `head_` and of the nodes. -/
  links : ℕ → Cells Unit ℕ := fun _ _ => none
  /-- The address of the next node that is allocated. -/
  nextNode : ℕ := 0

namespace SkipList

variable {K : Type}

/-- The length of `next_`. -/
def heightOf (s : SkipList K) : SkipCell → Option ℕ
  | .head _ => some kMaxHeight
  | .next n => (s.nodes n).map SkipNode.height

/-- `Next` and `NoBarrier_Next` -/
def next (s : SkipList K) (x : SkipCell) (level : ℕ) : Option (Option ℕ) :=
  (s.heightOf x).bind fun height => if level < height then some (s.links level x) else none

/-- `SetNext` and `NoBarrier_SetNext` -/
def setNext (s : SkipList K) (x : SkipCell) (level : ℕ) (n : Option ℕ) : Option (SkipList K) :=
  (s.heightOf x).bind fun height =>
    if level < height then
      some { s with links := Function.update s.links level (Function.update (s.links level) x n) }
    else none

/-- `KeyIsAfterNode`, where `before` says whether a node is before the place that is looked for. -/
def keyIsAfterNode (s : SkipList K) (before : K → Option Bool) : Option ℕ → Option Bool
  -- NULL is considered infinite
  | none => some false
  | some n => (s.nodes n).bind fun node => before node.key

/-- The loop of `FindGreaterOrEqual`, `FindLessThan` and `FindLast`, from `x` at a level: the node before
the place, the node after it, and `prev`. -/
def search (s : SkipList K) (before : K → Option Bool) :
    ℕ → SkipCell → ℕ → (ℕ → SkipCell) → Option (SkipCell × Option ℕ × (ℕ → SkipCell))
  | 0, _, _, _ => none
  | fuel + 1, x, level, prev =>
    (s.next x level).bind fun next =>
      (s.keyIsAfterNode before next).bind fun after =>
        match next, after with
        | some n, true =>
          -- Keep searching in this list
          search s before fuel (.next n) level prev
        | next, _ =>
          let prev := Function.update prev level x
          if level = 0 then some (x, next, prev)
          else
            -- Switch to next list
            search s before fuel x (level - 1) prev

/-- The search from `head_` at the highest level. It takes fewer steps than there are nodes on all levels. -/
def searchAll (s : SkipList K) (before : K → Option Bool) : Option (SkipCell × Option ℕ × (ℕ → SkipCell)) :=
  s.search before (s.maxHeight * (s.nextNode + 1)) (.head ()) (s.maxHeight - 1) fun _ => .head ()

/-- `Equal` -/
def equal (compare : K → K → Option Ordering) (a b : K) : Option Bool := (compare a b).map (· == .eq)

/-- `compare_(k, key) < 0` -/
def less (compare : K → K → Option Ordering) (key k : K) : Option Bool := (compare k key).map (· == .lt)

/-- `FindGreaterOrEqual`, with `prev` -/
def findGreaterOrEqual (s : SkipList K) (compare : K → K → Option Ordering) (key : K) :
    Option (Option ℕ × (ℕ → SkipCell)) :=
  (s.searchAll (less compare key)).map fun (_, next, prev) => (next, prev)

/-- `FindLessThan` -/
def findLessThan (s : SkipList K) (compare : K → K → Option Ordering) (key : K) : Option SkipCell :=
  (s.searchAll (less compare key)).map fun (x, _, _) => x

/-- `FindLast` -/
def findLast (s : SkipList K) : Option SkipCell := (s.searchAll fun _ => some true).map fun (x, _, _) => x

/-- `Contains` -/
def contains (s : SkipList K) (compare : K → K → Option Ordering) (key : K) : Option Bool :=
  (s.findGreaterOrEqual compare key).bind fun (x, _) =>
    match x with
    | none => some false
    | some n => (s.nodes n).bind fun node => equal compare key node.key

/-- The part of `Insert` that sets `max_height_`. -/
def raise (s : SkipList K) (height : ℕ) : SkipList K :=
  if s.maxHeight < height then { s with maxHeight := height } else s

/-- `NewNode` -/
def newNode (s : SkipList K) (key : K) (height : ℕ) : SkipList K :=
  { s with
    nodes := Function.update s.nodes s.nextNode (some ⟨key, height⟩)
    nextNode := s.nextNode + 1 }

/-- A round of the loop of `Insert` that publishes a node. -/
def publish (s : SkipList K) (x : ℕ) (prev : ℕ → SkipCell) (i : ℕ) : Option (SkipList K) :=
  (s.next (prev i) i).bind fun n => (s.setNext (.next x) i n).bind fun s => s.setNext (prev i) i (some x)

/-- `Insert`. The height is what `RandomHeight` returns. -/
def insert (s : SkipList K) (compare : K → K → Option Ordering) (key : K) (height : ℕ) : Option (SkipList K) :=
  (s.findGreaterOrEqual compare key).bind fun (_, found) =>
    let prev : ℕ → SkipCell := fun i => if s.maxHeight ≤ i then .head () else found i
    (List.range height).foldlM (fun t i => t.publish s.nextNode prev i) ((s.raise height).newNode key height)

/-- A store of the loop of `Insert`: a round has two, to the new node and to the node before it. -/
def linkStore (s : SkipList K) (x : ℕ) (prev : ℕ → SkipCell) (j : ℕ) : Option (SkipList K) :=
  if j % 2 = 0 then (s.next (prev (j / 2)) (j / 2)).bind fun n => s.setNext (.next x) (j / 2) n
  else s.setNext (prev (j / 2)) (j / 2) (some x)

/-- The list after the first `k` steps of `Insert` that change something: the store to `max_height_`, the new
node, and the stores of the loop. -/
def insertUpTo (s : SkipList K) (compare : K → K → Option Ordering) (key : K) (height k : ℕ) :
    Option (SkipList K) :=
  (s.findGreaterOrEqual compare key).bind fun (_, found) =>
    let prev : ℕ → SkipCell := fun i => if s.maxHeight ≤ i then .head () else found i
    match k with
    | 0 => some s
    | 1 => some (s.raise height)
    | k + 2 =>
      (List.range k).foldlM (fun t j => t.linkStore s.nextNode prev j) ((s.raise height).newNode key height)

/-- The node of a cell: `head_` is no position of an iterator. -/
def nodeOf : SkipCell → Option ℕ
  | .head _ => none
  | .next n => some n

/-- `Iterator::Next`, from a node -/
def iterNext (s : SkipList K) (n : ℕ) : Option (Option ℕ) := s.next (.next n) 0

/-- `Iterator::Prev`, from a node. There are no "prev" links. -/
def iterPrev (s : SkipList K) (compare : K → K → Option Ordering) (n : ℕ) : Option (Option ℕ) :=
  (s.nodes n).bind fun node => (s.findLessThan compare node.key).map nodeOf

/-- `Iterator::Seek` -/
def iterSeek (s : SkipList K) (compare : K → K → Option Ordering) (target : K) : Option (Option ℕ) :=
  (s.findGreaterOrEqual compare target).map Prod.fst

/-- `Iterator::SeekToFirst` -/
def iterSeekToFirst (s : SkipList K) : Option (Option ℕ) := s.next (.head ()) 0

/-- `Iterator::SeekToLast` -/
def iterSeekToLast (s : SkipList K) : Option (Option ℕ) := s.findLast.map nodeOf

/-! ## Levels -/

/-- The lists of the levels. -/
structure Shape (s : SkipList K) (levels : ℕ → List ℕ) : Prop where
  /-- The pointers of a level lead through its list. -/
  leads : ∀ {l : ℕ}, l < kMaxHeight → Leads (s.links l) (s.links l (.head ())) (levels l)
  /-- A level has some of the nodes of the level below, in the same order. -/
  sublist : ∀ l, (levels (l + 1)).Sublist (levels l)
  /-- The nodes of a level are high enough. -/
  node : ∀ {l n : ℕ}, n ∈ levels l → ∃ node, s.nodes n = some node ∧ l < node.height
  /-- The levels from `max_height_` on are empty. -/
  empty : ∀ {l : ℕ}, s.maxHeight ≤ l → levels l = []
  /-- There is a level. -/
  maxHeight_pos : 0 < s.maxHeight
  /-- There are at most `kMaxHeight`. -/
  maxHeight_le : s.maxHeight ≤ kMaxHeight
  /-- No node comes twice. -/
  nodup : (levels 0).Nodup
  /-- The nodes were allocated. -/
  allocated : ∀ {n : ℕ}, n ∈ levels 0 → n < s.nextNode

variable {s : SkipList K} {levels : ℕ → List ℕ} {before : K → Option Bool} {p : ℕ → Bool} {l n : ℕ}

/-- A new list, in which `head_` leads nowhere, has the shape of empty levels. -/
theorem shape_empty : ({} : SkipList K).Shape fun _ => [] where
  leads := fun _ => rfl
  sublist := fun _ => List.Sublist.refl []
  node := fun hn => absurd hn List.not_mem_nil
  empty := fun _ => rfl
  maxHeight_pos := Nat.one_pos
  maxHeight_le := Nat.le_add_left 1 11
  nodup := List.nodup_nil
  allocated := fun hn => absurd hn List.not_mem_nil

namespace Shape

/-- All levels have nodes of level 0. -/
theorem sublist_zero (h : s.Shape levels) : ∀ l, (levels l).Sublist (levels 0)
  | 0 => List.Sublist.refl _
  | l + 1 => (h.sublist l).trans (sublist_zero h l)

/-- There are not more nodes than addresses. -/
theorem length_le (h : s.Shape levels) (l : ℕ) : (levels l).length ≤ s.nextNode := by
  have hsub : levels 0 ⊆ List.range s.nextNode := fun n hn => List.mem_range.mpr (h.allocated hn)
  have hle := (List.subperm_of_subset h.nodup hsub).length_le
  rw [List.length_range] at hle
  exact (h.sublist_zero l).length_le.trans hle

/-- The cell behind the front of a level has a pointer of that level. -/
theorem heightOf_behind (h : s.Shape levels) (hl : l < kMaxHeight) {l₁ l₂ : List ℕ}
    (hlevel : levels l = l₁ ++ l₂) : ∃ height, s.heightOf (behind (.head ()) l₁) = some height ∧ l < height := by
  obtain hhead | hmem := List.mem_cons.mp (behind_mem (l := l₁) (.head () : SkipCell))
  · rw [hhead]
    exact ⟨kMaxHeight, rfl, hl⟩
  · obtain ⟨n, hn, heq⟩ := List.mem_map.mp hmem
    obtain ⟨node, hnode, hheight⟩ := h.node (l := l) (n := n) (by
      rw [hlevel]
      exact List.mem_append_left l₂ hn)
    rw [← heq]
    refine ⟨node.height, ?_, hheight⟩
    unfold heightOf
    dsimp only
    rw [hnode, Option.map_some]

/-- The pointer of a level behind the front of its list. -/
theorem next_behind (h : s.Shape levels) (hl : l < kMaxHeight) {l₁ l₂ : List ℕ} (hlevel : levels l = l₁ ++ l₂) :
    s.next (behind (.head ()) l₁) l = some l₂.head? := by
  have hlink : s.links l (behind (.head ()) l₁) = l₂.head? := by
    have hleads := h.leads hl
    rw [hlevel] at hleads
    exact hleads.append_right.head?_eq.symm
  obtain ⟨height, hheight, hlt⟩ := h.heightOf_behind hl hlevel
  unfold next
  rw [hheight, Option.bind_some, if_pos hlt, hlink]

/-- The node at which the search of a level stopped is on the level below, behind nodes before the place. -/
theorem exists_front_below (h : s.Shape levels) (hmono : (levels 0).Pairwise fun a b => p b = true → p a = true)
    {l₁ l₂ : List ℕ} (hlevel : levels (l + 1) = l₁ ++ l₂) (hp : ∀ n ∈ l₁, p n = true) :
    ∃ l₁' l₂', levels l = l₁' ++ l₂' ∧ behind (.head () : SkipCell) l₁' = behind (.head ()) l₁ ∧
      ∀ n ∈ l₁', p n = true := by
  rcases List.eq_nil_or_concat l₁ with rfl | ⟨front, a, rfl⟩
  · exact ⟨[], levels l, rfl, rfl, fun n hn => absurd hn List.not_mem_nil⟩
  · rw [List.concat_eq_append] at hlevel hp ⊢
    have ha : a ∈ levels l := by
      apply (h.sublist l).subset
      rw [hlevel]
      exact List.mem_append_left l₂ (List.mem_append_right front List.mem_cons_self)
    obtain ⟨l₁', l₂', hsplit⟩ := List.append_of_mem ha
    refine ⟨l₁' ++ [a], l₂', ?_, ?_, fun n hn => ?_⟩
    · rw [hsplit, List.append_assoc]
      rfl
    · rw [behind_append_singleton, behind_append_singleton]
    · have hpa : p a = true := hp a (List.mem_append_right front List.mem_cons_self)
      obtain hn | hn := List.mem_append.mp hn
      · have hpair := hmono.sublist (h.sublist_zero l)
        rw [hsplit] at hpair
        exact (List.pairwise_append.mp hpair).2.2 n hn a List.mem_cons_self hpa
      · rw [List.mem_singleton.mp hn]
        exact hpa

/-- Whether the next node is before the place. -/
theorem keyIsAfterNode_head? (h : s.Shape levels)
    (hbefore : ∀ n ∈ levels 0, ∀ node, s.nodes n = some node → before node.key = some (p n))
    {l₁ l₂ : List ℕ} (hlevel : levels l = l₁ ++ l₂) :
    s.keyIsAfterNode before l₂.head? = some (l₂.head?.any p) := by
  cases l₂ with
  | nil => rfl
  | cons n l₂ =>
    have hn : n ∈ levels l := by
      rw [hlevel]
      exact List.mem_append_right l₁ List.mem_cons_self
    obtain ⟨node, hnode, -⟩ := h.node hn
    unfold keyIsAfterNode
    dsimp only [List.head?_cons]
    rw [hnode, Option.bind_some, hbefore n ((h.sublist_zero l).subset hn) node hnode]
    rfl

/-- The search from behind nodes of a level that are before the place. It ends at the last node of every
level that is. -/
theorem search_spec (h : s.Shape levels)
    (hbefore : ∀ n ∈ levels 0, ∀ node, s.nodes n = some node → before node.key = some (p n))
    (hmono : (levels 0).Pairwise fun a b => p b = true → p a = true) :
    ∀ (fuel : ℕ) {level : ℕ} {l₁ l₂ : List ℕ} {prev : ℕ → SkipCell}, level < s.maxHeight →
      levels level = l₁ ++ l₂ → (∀ n ∈ l₁, p n = true) → l₂.length + level * (s.nextNode + 1) < fuel →
      (∀ l, level < l → l < s.maxHeight → prev l = behind (.head ()) ((levels l).filter p)) →
      ∃ prev', s.search before fuel (behind (.head ()) l₁) level prev =
          some (behind (.head ()) ((levels 0).filter p), ((levels 0).filter fun n => !p n).head?, prev') ∧
        ∀ l, l < s.maxHeight → prev' l = behind (.head ()) ((levels l).filter p) := by
  intro fuel
  induction fuel with
  | zero =>
    intro level l₁ l₂ prev _ _ _ hfuel
    exact absurd hfuel (Nat.not_lt_zero _)
  | succ fuel ih =>
    intro level l₁ l₂ prev hlt hlevel hp hfuel hprev
    unfold search
    rw [h.next_behind (hlt.trans_le h.maxHeight_le) hlevel, Option.bind_some,
      h.keyIsAfterNode_head? hbefore hlevel, Option.bind_some]
    -- the next node is not before the place
    have hdown : (∀ n, l₂.head? = some n → p n = false) →
        ∃ prev', (if level = 0 then
            some (behind (.head ()) l₁, l₂.head?, Function.update prev level (behind (.head ()) l₁))
          else s.search before fuel (behind (.head ()) l₁) (level - 1)
            (Function.update prev level (behind (.head ()) l₁))) =
          some (behind (.head ()) ((levels 0).filter p), ((levels 0).filter fun n => !p n).head?, prev') ∧
        ∀ l, l < s.maxHeight → prev' l = behind (.head ()) ((levels l).filter p) := by
      intro hstop
      have hpair := hmono.sublist (h.sublist_zero level)
      rw [hlevel] at hpair
      obtain ⟨hfront, hrest⟩ := filter_eq_of_append hpair hp hstop
      rw [← hlevel] at hfront hrest
      have hprev' : ∀ l, level ≤ l → l < s.maxHeight →
          Function.update prev level (behind (.head ()) l₁) l = behind (.head ()) ((levels l).filter p) := by
        intro l hle hl
        obtain rfl | hgt := Nat.eq_or_lt_of_le hle
        · rw [Function.update_self, hfront]
        · rw [Function.update_of_ne (Nat.ne_of_gt hgt)]
          exact hprev l hgt hl
      cases level with
      | zero =>
        rw [if_pos rfl, hfront, hrest]
        exact ⟨_, rfl, fun l hl => hprev' l (Nat.zero_le l) hl⟩
      | succ level =>
        rw [if_neg (Nat.succ_ne_zero level), Nat.add_sub_cancel]
        obtain ⟨l₁', l₂', hlevel', hbehind, hp'⟩ := h.exists_front_below hmono hlevel hp
        rw [← hbehind] at hprev' ⊢
        refine ih (Nat.lt_of_succ_lt hlt) hlevel' hp' ?_ fun l hl => hprev' l hl
        have hlength := h.length_le level
        rw [hlevel', List.length_append] at hlength
        rw [Nat.add_mul, Nat.one_mul] at hfuel
        omega
    cases l₂ with
    | nil => exact hdown fun n hn => absurd hn (Option.some_ne_none n).symm
    | cons n l₂ =>
      cases hpn : p n with
      | false =>
        rw [List.head?_cons, Option.any_some, hpn]
        exact hdown fun n' hn' => Option.some.inj hn' ▸ hpn
      | true =>
        rw [List.head?_cons, Option.any_some, hpn]
        have hlevel' : levels level = (l₁ ++ [n]) ++ l₂ := by
          rw [List.append_assoc]
          exact hlevel
        have hp' : ∀ m ∈ l₁ ++ [n], p m = true := by
          intro m hm
          obtain hm | hm := List.mem_append.mp hm
          · exact hp m hm
          · rw [List.mem_singleton.mp hm]
            exact hpn
        have hnext := ih hlt hlevel' hp' (by rw [List.length_cons] at hfuel; omega) hprev
        rw [behind_append_singleton] at hnext
        exact hnext

/-- The whole search: the last node of level 0 that is before the place, and the one after it. -/
theorem searchAll_spec (h : s.Shape levels)
    (hbefore : ∀ n ∈ levels 0, ∀ node, s.nodes n = some node → before node.key = some (p n))
    (hmono : (levels 0).Pairwise fun a b => p b = true → p a = true) :
    ∃ prev, s.searchAll before =
        some (behind (.head ()) ((levels 0).filter p), ((levels 0).filter fun n => !p n).head?, prev) ∧
      ∀ l, l < s.maxHeight → prev l = behind (.head ()) ((levels l).filter p) := by
  have hpos := h.maxHeight_pos
  have hlevel : levels (s.maxHeight - 1) = [] ++ levels (s.maxHeight - 1) := rfl
  refine h.search_spec hbefore hmono _ (Nat.sub_lt hpos Nat.one_pos) hlevel
    (fun n hn => absurd hn List.not_mem_nil) ?_ fun l hl hl' => by omega
  have hlength := h.length_le (s.maxHeight - 1)
  have hmul : s.maxHeight * (s.nextNode + 1) = (s.maxHeight - 1) * (s.nextNode + 1) + (s.nextNode + 1) := by
    conv_lhs => rw [← Nat.sub_add_cancel hpos, Nat.add_mul, Nat.one_mul]
  omega

/-- Links of a node on a level that does not have it do not matter. -/
theorem setNext_new (h : s.Shape levels) {x i : ℕ} (hx : x ∉ levels i) (n : Option ℕ) :
    { s with links := Function.update s.links i (Function.update (s.links i) (.next x) n) }.Shape levels :=
  { h with
    leads := fun {l} hl => by
      dsimp only
      by_cases heq : l = i
      · subst heq
        rw [Function.update_self]
        refine (h.leads hl).congr fun a ha => Function.update_of_ne ?_ _ _
        intro hax
        exact hx (Cell.next.inj hax ▸ ha)
      · rw [Function.update_of_ne heq]
        exact h.leads hl }

end Shape

/-- A list with a new node at its place. -/
def place (p : ℕ → Bool) (x : ℕ) (l : List ℕ) : List ℕ := l.filter p ++ x :: l.filter fun n => !p n

/-- The nodes of a list with a new one. -/
theorem mem_place {x : ℕ} {l : List ℕ} : n ∈ place p x l ↔ n = x ∨ n ∈ l := by
  unfold place
  rw [List.mem_append, List.mem_cons, List.mem_filter, List.mem_filter]
  cases p n with
  | true => simp [or_comm]
  | false => simp

/-- A list in order stays in order, if the new node is at its place. -/
theorem pairwise_place {r : ℕ → ℕ → Prop} {x : ℕ} {l : List ℕ}
    (hmono : l.Pairwise fun a b => p b = true → p a = true) (h : l.Pairwise r)
    (hlt : ∀ n ∈ l, p n = true → r n x) (hgt : ∀ n ∈ l, p n = false → r x n) : (place p x l).Pairwise r := by
  rw [← filter_append_filter_not hmono] at h
  obtain ⟨hfront, hrest, hcross⟩ := List.pairwise_append.mp h
  refine List.pairwise_append.mpr ⟨hfront, List.pairwise_cons.mpr ⟨fun n hn => ?_, hrest⟩, fun n hn m hm => ?_⟩
  · obtain ⟨hmem, hp⟩ := List.mem_filter.mp hn
    rw [Bool.not_eq_true'] at hp
    exact hgt n hmem hp
  · obtain rfl | hm := List.mem_cons.mp hm
    · obtain ⟨hmem, hp⟩ := List.mem_filter.mp hn
      exact hlt n hmem hp
    · exact hcross n hn m hm

/-- A part of a list, with the new node in both. -/
theorem place_sublist {x : ℕ} {l l' : List ℕ} (h : l.Sublist l') : (place p x l).Sublist (place p x l') :=
  (h.filter p).append ((h.filter fun n => !p n).cons_cons x)

/-- A list has a new node more. -/
theorem sublist_place {x : ℕ} {l : List ℕ} (hmono : l.Pairwise fun a b => p b = true → p a = true) :
    l.Sublist (place p x l) := by
  conv_lhs => rw [← filter_append_filter_not hmono]
  exact (List.Sublist.refl _).append (List.sublist_cons_self x _)

namespace Shape

/-- The store that makes a level lead to a new node, which leads on to the nodes behind its place. -/
theorem setNext_prev (h : s.Shape levels) {x i : ℕ} {node : SkipNode K} (hi : i < s.maxHeight)
    (hnode : s.nodes x = some node) (hheight : i < node.height) (hx : x ∉ levels i)
    (hmono : (levels i).Pairwise fun a b => p b = true → p a = true)
    (hlink : s.links i (.next x) = ((levels i).filter fun n => !p n).head?) (hlt : x < s.nextNode)
    (hbelow : ∀ j, i = j + 1 → (place p x (levels i)).Sublist (levels j)) :
    { s with
      links := Function.update s.links i
        (Function.update (s.links i) (behind (.head ()) ((levels i).filter p)) (some x)) }.Shape
      (Function.update levels i (place p x (levels i))) := by
  have hsplit := filter_append_filter_not hmono
  have hnodup := h.nodup.sublist (h.sublist_zero i)
  have hlevel : ∀ {l m : ℕ}, m ∈ Function.update levels i (place p x (levels i)) l →
      (l = i ∧ m = x) ∨ m ∈ levels l := by
    intro l m hm
    by_cases heq : l = i
    · subst heq
      rw [Function.update_self, mem_place] at hm
      exact hm.imp_left fun hmx => ⟨rfl, hmx⟩
    · rw [Function.update_of_ne heq] at hm
      exact Or.inr hm
  exact {
    leads := fun {l} hl => by
      dsimp only
      by_cases heq : l = i
      · subst heq
        rw [Function.update_self, Function.update_self]
        -- The new node leads on already, so that one store puts it in.
        have hleads := h.leads hl
        rw [← hsplit] at hleads hnodup
        exact hleads.put hnodup (fun hin => hx (List.mem_of_mem_filter hin)) hlink
      · rw [Function.update_of_ne heq, Function.update_of_ne heq]
        exact h.leads hl
    sublist := fun l => by
      by_cases heq : l = i
      · subst heq
        rw [Function.update_self, Function.update_of_ne (Nat.succ_ne_self l)]
        exact (h.sublist l).trans (sublist_place hmono)
      · rw [Function.update_of_ne heq]
        by_cases hup : l + 1 = i
        · -- The level below has the new node already.
          subst hup
          rw [Function.update_self]
          exact hbelow l rfl
        · rw [Function.update_of_ne hup]
          exact h.sublist l
    node := fun {l m} hm => by
      obtain ⟨rfl, rfl⟩ | hm := hlevel hm
      · exact ⟨node, hnode, hheight⟩
      · exact h.node hm
    empty := fun {l} hl => by
      rw [Function.update_of_ne (Nat.ne_of_gt (lt_of_lt_of_le hi hl))]
      exact h.empty hl
    maxHeight_pos := h.maxHeight_pos
    maxHeight_le := h.maxHeight_le
    nodup := by
      by_cases hzero : 0 = i
      · subst hzero
        rw [Function.update_self]
        rw [← hsplit] at hnodup hx
        exact List.nodup_middle.mpr (List.nodup_cons.mpr ⟨hx, hnodup⟩)
      · rw [Function.update_of_ne hzero]
        exact h.nodup
    allocated := fun {m} hm => by
      obtain ⟨-, rfl⟩ | hm := hlevel hm
      · exact hlt
      · exact h.allocated hm }

/-- The levels do not change when `max_height_` is set. -/
theorem raised (h : s.Shape levels) {height : ℕ} (hle : height ≤ kMaxHeight) : (s.raise height).Shape levels := by
  unfold raise
  by_cases hlt : s.maxHeight < height
  · rw [if_pos hlt]
    exact { h with
      empty := fun hl => h.empty (hlt.le.trans hl)
      maxHeight_pos := h.maxHeight_pos.trans hlt
      maxHeight_le := hle }
  · rw [if_neg hlt]
    exact h

/-- Nor when a node is allocated after that. -/
theorem raise_newNode (h : s.Shape levels) (key : K) {height : ℕ} (hle : height ≤ kMaxHeight) :
    ((s.raise height).newNode key height).Shape levels := by
  have hraise := h.raised hle
  exact { hraise with
    node := fun {l n} hn => by
      have hne : n ≠ (s.raise height).nextNode :=
        (hraise.allocated ((hraise.sublist_zero l).subset hn)).ne
      obtain ⟨node, hnode, hheight⟩ := hraise.node hn
      exact ⟨node, (Function.update_of_ne hne ..).trans hnode, hheight⟩
    allocated := fun hn => (hraise.allocated hn).trans (Nat.lt_succ_self _) }

end Shape

/-- The levels when a node was published on the lowest ones. -/
def placeBelow (p : ℕ → Bool) (x : ℕ) (levels : ℕ → List ℕ) (i l : ℕ) : List ℕ :=
  if l < i then place p x (levels l) else levels l

/-- Publishing a node on one level more changes the list of this level only. -/
theorem placeBelow_succ (x : ℕ) (levels : ℕ → List ℕ) (i : ℕ) :
    placeBelow p x levels (i + 1) = Function.update (placeBelow p x levels i) i (place p x (levels i)) := by
  funext l
  unfold placeBelow
  by_cases heq : l = i
  · subst heq
    rw [Function.update_self, if_pos (Nat.lt_succ_self l)]
  · rw [Function.update_of_ne heq]
    by_cases hlt : l < i
    · rw [if_pos hlt, if_pos (hlt.trans (Nat.lt_succ_self i))]
    · rw [if_neg hlt, if_neg (by omega)]

/-- The stores of the loop of `Insert`. After an even number of them, the levels below are those with the new
node; after the next one, the new node leads on to what is behind its place. -/
theorem Shape.linkStores (h : s.Shape levels) {x height : ℕ} {key : K} (prev : ℕ → SkipCell)
    (hmono : (levels 0).Pairwise fun a b => p b = true → p a = true) (hheight : height ≤ s.maxHeight)
    (hnode : s.nodes x = some ⟨key, height⟩) (hx : x ∉ levels 0) (hlt : x < s.nextNode)
    (hprev : ∀ i, i < height → prev i = behind (.head ()) ((levels i).filter p)) :
    ∀ j, j ≤ 2 * height → ∃ links,
      (List.range j).foldlM (fun t j => t.linkStore x prev j) s = some { s with links := links } ∧
        { s with links := links }.Shape (placeBelow p x levels (j / 2)) ∧
        (j % 2 = 1 → links (j / 2) (.next x) = ((levels (j / 2)).filter fun n => !p n).head?)
  | 0, _ => by
    have hnone : placeBelow p x levels 0 = levels := by
      funext l
      exact if_neg (Nat.not_lt_zero l)
    refine ⟨s.links, rfl, ?_, fun hodd => absurd hodd (by decide)⟩
    rw [Nat.zero_div, hnone]
    exact h
  | j + 1, hj => by
    obtain ⟨links, hfold, hshape, hlink⟩ :=
      linkStores h prev hmono hheight hnode hx hlt hprev j (Nat.le_of_succ_le hj)
    have hi : j / 2 < height := by omega
    have hmax : j / 2 < s.maxHeight := lt_of_lt_of_le hi hheight
    have hlevel : placeBelow p x levels (j / 2) (j / 2) = levels (j / 2) := if_neg (Nat.lt_irrefl _)
    have hpair := hmono.sublist (h.sublist_zero (j / 2))
    have hxi : x ∉ placeBelow p x levels (j / 2) (j / 2) := by
      rw [hlevel]
      exact fun hin => hx ((h.sublist_zero (j / 2)).subset hin)
    have hsplit := (filter_append_filter_not hpair).symm
    rw [List.range_succ, List.foldlM_append, hfold, Option.bind_eq_bind, Option.bind_some, List.foldlM_cons]
    obtain heven | hodd := Nat.mod_two_eq_zero_or_one j
    · -- the pointer of the new node
      have hnext := hshape.next_behind (hmax.trans_le h.maxHeight_le) (hlevel.trans hsplit)
      have hstep : { s with links := links }.linkStore x prev j = some { s with
          links := Function.update links (j / 2)
            (Function.update (links (j / 2)) (.next x) ((levels (j / 2)).filter fun n => !p n).head?) } := by
        unfold linkStore setNext heightOf
        rw [if_pos heven, hprev _ hi, hnext, Option.bind_some]
        dsimp only
        rw [hnode, Option.map_some, Option.bind_some, if_pos hi]
      rw [hstep, Option.bind_eq_bind, Option.bind_some, List.foldlM_nil, show (j + 1) / 2 = j / 2 by omega]
      refine ⟨_, rfl, hshape.setNext_new hxi _, fun _ => ?_⟩
      rw [Function.update_self, Function.update_self]
    · -- the pointer to the new node
      obtain ⟨height', hheight', hlt'⟩ :=
        hshape.heightOf_behind (hmax.trans_le h.maxHeight_le) (hlevel.trans hsplit)
      have hstep : { s with links := links }.linkStore x prev j = some { s with
          links := Function.update links (j / 2) (Function.update (links (j / 2))
            (behind (.head ()) ((levels (j / 2)).filter p)) (some x)) } := by
        unfold linkStore setNext
        rw [if_neg (by omega), hprev _ hi, hheight', Option.bind_some, if_pos hlt']
      have hplaced := hshape.setNext_prev (p := p) hmax hnode hi hxi (by rw [hlevel]; exact hpair)
        (by rw [hlevel]; exact hlink hodd) hlt (by
          intro i hij
          rw [hlevel]
          unfold placeBelow
          rw [if_pos (by omega), hij]
          exact place_sublist (h.sublist i))
      rw [hlevel] at hplaced
      rw [hstep, Option.bind_eq_bind, Option.bind_some, List.foldlM_nil, show (j + 1) / 2 = j / 2 + 1 by omega,
        placeBelow_succ]
      exact ⟨_, rfl, hplaced, fun heven => absurd heven (by omega)⟩

/-- The levels after some steps of `Insert`. -/
theorem Shape.insertUpTo (h : s.Shape levels) {compare : K → K → Option Ordering} {key : K} {height : ℕ}
    (hcompare : ∀ n ∈ levels 0, ∀ node, s.nodes n = some node → less compare key node.key = some (p n))
    (hmono : (levels 0).Pairwise fun a b => p b = true → p a = true) (hle : height ≤ kMaxHeight) :
    ∀ k, k ≤ 2 * height + 2 → ∃ t, s.insertUpTo compare key height k = some t ∧
      t.Shape (placeBelow p s.nextNode levels ((k - 2) / 2)) ∧
      t.nodes = if k < 2 then s.nodes else Function.update s.nodes s.nextNode (some ⟨key, height⟩) := by
  obtain ⟨found, hfound, hprev⟩ := h.searchAll_spec hcompare hmono
  have hraise : (s.raise height).nodes = s.nodes ∧ (s.raise height).nextNode = s.nextNode ∧
      height ≤ (s.raise height).maxHeight := by
    unfold raise
    by_cases hlt : s.maxHeight < height
    · rw [if_pos hlt]
      exact ⟨rfl, rfl, le_refl _⟩
    · rw [if_neg hlt]
      exact ⟨rfl, rfl, Nat.le_of_not_lt hlt⟩
  obtain ⟨hnodes, hnext, hheight⟩ := hraise
  have hnew : ((s.raise height).newNode key height).nodes =
      Function.update s.nodes s.nextNode (some ⟨key, height⟩) := by
    unfold newNode
    rw [hnodes, hnext]
  have hnextNode : ((s.raise height).newNode key height).nextNode = s.nextNode + 1 :=
    congrArg (· + 1) hnext
  have hnode : ((s.raise height).newNode key height).nodes s.nextNode = some ⟨key, height⟩ := by
    rw [hnew, Function.update_self]
  -- The search has found the predecessors; above the old height they are the head.
  have hprev' : ∀ i, i < height → (if s.maxHeight ≤ i then .head () else found i : SkipCell) =
      behind (.head ()) ((levels i).filter p) := by
    intro i _
    by_cases hi : s.maxHeight ≤ i
    · rw [if_pos hi, h.empty hi]
      rfl
    · rw [if_neg hi]
      exact hprev i (Nat.lt_of_not_le hi)
  have hnone : placeBelow p s.nextNode levels 0 = levels := by
    funext l
    exact if_neg (Nat.not_lt_zero l)
  intro k hk
  unfold SkipList.insertUpTo findGreaterOrEqual
  rw [hfound, Option.map_some, Option.bind_some]
  match k, hk with
  | 0, _ => exact ⟨s, rfl, by rw [Nat.zero_sub, Nat.zero_div, hnone]; exact h, rfl⟩
  | 1, _ => exact ⟨_, rfl, by rw [show (1 - 2) / 2 = 0 from rfl, hnone]; exact h.raised hle, hnodes⟩
  | k + 2, hk =>
    obtain ⟨links, hfold, hshape, -⟩ := (h.raise_newNode key hle).linkStores _ hmono hheight hnode
      (fun hin => Nat.lt_irrefl _ (h.allocated hin)) (by rw [hnextNode]; exact Nat.lt_succ_self _) hprev' k
      (by omega)
    rw [Nat.add_sub_cancel, if_neg (by omega)]
    exact ⟨_, hfold, hshape, hnew⟩

/-- A round of the loop of `Insert` is its two stores. -/
theorem publish_eq (s : SkipList K) (x : ℕ) (prev : ℕ → SkipCell) (i : ℕ) :
    s.publish x prev i = (s.linkStore x prev (2 * i)).bind fun t => t.linkStore x prev (2 * i + 1) := by
  unfold publish linkStore
  rw [if_pos (Nat.mul_mod_right 2 i), show 2 * i / 2 = i by omega, show (2 * i + 1) / 2 = i by omega,
    Option.bind_assoc]
  simp only [show ¬(2 * i + 1) % 2 = 0 by omega, if_false]

/-- The loop of `Insert` is its stores. -/
theorem foldlM_publish (s : SkipList K) (x : ℕ) (prev : ℕ → SkipCell) : ∀ height : ℕ,
    (List.range height).foldlM (fun t i => t.publish x prev i) s =
      (List.range (2 * height)).foldlM (fun t j => t.linkStore x prev j) s
  | 0 => rfl
  | height + 1 => by
    rw [List.range_succ, List.foldlM_append, foldlM_publish s x prev height,
      show 2 * (height + 1) = 2 * height + 1 + 1 by omega, List.range_succ, List.range_succ, List.append_assoc,
      List.foldlM_append]
    congr 1
    funext t
    change (t.publish x prev height).bind some =
      (t.linkStore x prev (2 * height)).bind fun t => (t.linkStore x prev (2 * height + 1)).bind some
    rw [Option.bind_fun_some, publish_eq]
    simp only [Option.bind_fun_some]

/-- `Insert` is all of its steps. -/
theorem insert_eq (s : SkipList K) (compare : K → K → Option Ordering) (key : K) (height : ℕ) :
    s.insert compare key height = s.insertUpTo compare key height (2 * height + 2) := by
  unfold insert insertUpTo
  simp only [foldlM_publish]

/-- `Insert`: a new node comes to its place on level 0, and on the levels below its height. -/
theorem Shape.insert (h : s.Shape levels) {compare : K → K → Option Ordering} {key : K} {height : ℕ}
    (hcompare : ∀ n ∈ levels 0, ∀ node, s.nodes n = some node → less compare key node.key = some (p n))
    (hmono : (levels 0).Pairwise fun a b => p b = true → p a = true) (hpos : 0 < height)
    (hle : height ≤ kMaxHeight) :
    ∃ s' levels', s.insert compare key height = some s' ∧ s'.Shape levels' ∧
      levels' 0 = place p s.nextNode (levels 0) ∧
      s'.nodes = Function.update s.nodes s.nextNode (some ⟨key, height⟩) := by
  obtain ⟨t, hinsert, hshape, hnodes⟩ := h.insertUpTo hcompare hmono hle (2 * height + 2) (le_refl _)
  rw [Nat.add_sub_cancel, show 2 * height / 2 = height by omega] at hshape
  rw [if_neg (by omega)] at hnodes
  exact ⟨t, _, (s.insert_eq compare key height).trans hinsert, hshape, if_pos hpos, hnodes⟩

/-! ## Iterators -/

/-- The node of the cell behind a list is its last one. -/
theorem nodeOf_behind (l : List ℕ) : nodeOf (behind (.head ()) l) = l.getLast? := by
  rcases List.eq_nil_or_concat l with rfl | ⟨front, a, rfl⟩
  · rfl
  · rw [List.concat_eq_append, behind_append_singleton, List.getLast?_append_of_ne_nil _ (List.cons_ne_nil a [])]
    rfl

namespace Shape

/-- `Iterator::Next` goes from a node of level 0 to the next one of level 0, or behind the last. -/
theorem iterNext (h : s.Shape levels) {i : ℕ} (hn : (levels 0)[i]? = some n) :
    s.iterNext n = some (levels 0)[i + 1]? := by
  have hsplit := (List.take_append_drop (i + 1) (levels 0)).symm
  have hnext := h.next_behind (l := 0) (by decide) hsplit
  have htake : (levels 0).take (i + 1) = (levels 0).take i ++ [n] := by
    rw [List.take_add_one, hn]
    rfl
  rw [htake, behind_append_singleton, List.head?_drop] at hnext
  exact hnext

/-- `SeekToFirst` goes to the first node of level 0. -/
theorem iterSeekToFirst (h : s.Shape levels) : s.iterSeekToFirst = some (levels 0).head? :=
  h.next_behind (l := 0) (by decide) (List.nil_append _).symm

/-- The search for a key behind all others ends behind the last node. -/
theorem searchAll_all (h : s.Shape levels) :
    ∃ prev, (s.searchAll fun _ => some true) = some (behind (.head ()) (levels 0), none, prev) := by
  have hmono : (levels 0).Pairwise fun _ _ => true = true → true = true :=
    List.pairwise_iff_forall_sublist.mpr fun _ => id
  obtain ⟨prev, hsearch, -⟩ :=
    @searchAll_spec K s levels (fun _ => some true) (fun _ => true) h (fun _ _ _ _ => rfl) hmono
  rw [List.filter_true] at hsearch
  have hnone : (levels 0).filter (fun _ => !true) = [] := List.filter_eq_nil_iff.mpr fun _ _ => Bool.false_ne_true
  rw [hnone] at hsearch
  exact ⟨prev, hsearch⟩

/-- `SeekToLast` goes to the last node of level 0. -/
theorem iterSeekToLast (h : s.Shape levels) : s.iterSeekToLast = some (levels 0).getLast? := by
  obtain ⟨prev, hsearch⟩ := h.searchAll_all
  unfold SkipList.iterSeekToLast findLast
  rw [hsearch, Option.map_some, Option.map_some, nodeOf_behind]

/-- `Seek` goes to the first node of level 0 that is not less than the target. -/
theorem iterSeek (h : s.Shape levels) {compare : K → K → Option Ordering} {target : K}
    (hcompare : ∀ n ∈ levels 0, ∀ node, s.nodes n = some node → less compare target node.key = some (p n))
    (hmono : (levels 0).Pairwise fun a b => p b = true → p a = true) :
    s.iterSeek compare target = some ((levels 0).find? fun n => !p n) := by
  obtain ⟨prev, hsearch, -⟩ := h.searchAll_spec hcompare hmono
  unfold SkipList.iterSeek findGreaterOrEqual
  rw [hsearch, Option.map_some, Option.map_some, List.head?_filter]

/-- `Prev` goes to the last node of level 0 that is less. -/
theorem iterPrev (h : s.Shape levels) {compare : K → K → Option Ordering} {node : SkipNode K}
    (hnode : s.nodes n = some node)
    (hcompare : ∀ m ∈ levels 0, ∀ node', s.nodes m = some node' → less compare node.key node'.key = some (p m))
    (hmono : (levels 0).Pairwise fun a b => p b = true → p a = true) :
    s.iterPrev compare n = some ((levels 0).filter p).getLast? := by
  obtain ⟨prev, hsearch, -⟩ := h.searchAll_spec hcompare hmono
  unfold SkipList.iterPrev findLessThan
  rw [hnode, Option.bind_some, hsearch, Option.map_some, Option.map_some, nodeOf_behind]

end Shape

end SkipList

end LevelDb
