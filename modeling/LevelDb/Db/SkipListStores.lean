import LevelDb.Db.SkipList

/-!
# Skip lists between two stores

Readers of a skip list do not lock, so they may start between any two stores of `Insert`
(`SkipList.insertUpTo`). At all these points the levels are increasing lists, each a part of the one below;
level 0 has all keys whose `Insert` has finished, and maybe the one that is being inserted; and a search finds
the right node of level 0 (`SkipList.searchable_at_every_store`).
-/

namespace LevelDb

open Lib

namespace SkipList

variable {K : Type} {cmp : K → K → Ordering} {s t : SkipList K} {levels : ℕ → List ℕ} {done : List K}

/-- A comparator that does not fail. -/
abbrev total (cmp : K → K → Ordering) (a b : K) : Option Ordering := some (cmp a b)

/-- The key of `a` is less than the key of `b`. -/
def Increasing (cmp : K → K → Ordering) (s : SkipList K) (a b : ℕ) : Prop :=
  ∃ x y, s.nodes a = some x ∧ s.nodes b = some y ∧ cmp x.key y.key = .lt

/-- The key of a node is less than a target. -/
def below (cmp : K → K → Ordering) (s : SkipList K) (target : K) (n : ℕ) : Bool :=
  (s.nodes n).any fun node => cmp node.key target == .lt

/-- The key of a node is equal to a target. -/
def hits (cmp : K → K → Ordering) (s : SkipList K) (target : K) (n : ℕ) : Bool :=
  (s.nodes n).any fun node => cmp target node.key == .eq

/-- The lists of the levels are in order, have the keys that were inserted, and are what searches go by. -/
structure Searchable (cmp : K → K → Ordering) (s : SkipList K) (done : List K) (levels : ℕ → List ℕ) : Prop where
  /-- From `head_` the pointers of a level lead through its list. -/
  leads : ∀ l, l < kMaxHeight → Leads (s.links l) (s.links l (.head ())) (levels l)
  /-- The keys of a level increase. -/
  increasing : ∀ l, (levels l).Pairwise (s.Increasing cmp)
  /-- A level has some of the nodes of the one below. -/
  subset : ∀ l, levels (l + 1) ⊆ levels l
  /-- Level 0 has all keys whose `Insert` has finished. -/
  complete : ∀ key ∈ done, ∃ n ∈ levels 0, ∃ node, s.nodes n = some node ∧ node.key = key
  /-- `FindGreaterOrEqual` finds the first node of level 0 whose key is not less than the target. -/
  findGreaterOrEqual : ∀ target, (s.findGreaterOrEqual (total cmp) target).map Prod.fst =
    some ((levels 0).find? fun n => !s.below cmp target n)
  /-- `FindLessThan` finds the last node of level 0 whose key is less, or `head_`. -/
  findLessThan : ∀ target, s.findLessThan (total cmp) target =
    some (behind (.head ()) ((levels 0).filter (s.below cmp target)))
  /-- `FindLast` finds the last node of level 0, or `head_`. -/
  findLast : s.findLast = some (behind (.head ()) (levels 0))
  /-- `Contains` says whether a key of level 0 is equal to the target. -/
  contains : ∀ target, s.contains (total cmp) target = some ((levels 0).any (s.hits cmp target))

/-- The lists that calls of `Insert` with different keys lead to, with these keys. -/
inductive Inserts (cmp : K → K → Ordering) : SkipList K → List K → Prop
  /-- An empty list. -/
  | start : Inserts cmp {} []
  /-- A call. -/
  | insert {s s' : SkipList K} {done : List K} {key : K} {height : ℕ} : Inserts cmp s done →
    (∀ k ∈ done, cmp k key ≠ .eq) → 0 < height → height ≤ kMaxHeight →
    s.insert (total cmp) key height = some s' → Inserts cmp s' (done ++ [key])

/-! ## Searches -/

section Searches

variable [Std.TransCmp cmp]

/-- How the skip list compares a node. -/
theorem less_total (cmp : K → K → Ordering) (s : SkipList K) (target : K) (levels : ℕ → List ℕ) :
    ∀ n ∈ levels 0, ∀ node, s.nodes n = some node → less (total cmp) target node.key = some (s.below cmp target n) := by
  intro n _ node hnode
  unfold below
  rw [hnode]
  rfl

/-- In increasing order, the nodes below a target come first. -/
theorem mono_of_increasing {l : List ℕ} (h : l.Pairwise (s.Increasing cmp)) (target : K) :
    l.Pairwise fun a b => s.below cmp target b = true → s.below cmp target a = true := by
  refine h.imp fun {a b} hab hb => ?_
  obtain ⟨x, y, hx, hy, hlt⟩ := hab
  unfold below at hb ⊢
  rw [hx, Option.any_some, beq_iff_eq]
  rw [hy, Option.any_some, beq_iff_eq] at hb
  exact Std.TransCmp.lt_trans hlt hb

/-- A node below a target is not equal to it. -/
theorem hits_eq_false {target : K} {n : ℕ} (h : s.below cmp target n = true) : s.hits cmp target n = false := by
  unfold below at h
  obtain ⟨x, hx, hlt⟩ := (Option.any_eq_true ..).mp h
  rw [beq_iff_eq, ← Std.OrientedCmp.gt_iff_lt] at hlt
  unfold hits
  rw [hx, Option.any_some, hlt]
  rfl

/-- The first node that is not below a target is the only one that may be equal to it. -/
theorem any_hits {l : List ℕ} (h : l.Pairwise (s.Increasing cmp)) (target : K) {n : ℕ} {node : SkipNode K}
    (hfind : (l.find? fun n => !s.below cmp target n) = some n) (hnode : s.nodes n = some node) :
    l.any (s.hits cmp target) = (cmp target node.key == .eq) := by
  have hn := List.mem_of_find?_eq_some hfind
  have hhit : s.hits cmp target n = (cmp target node.key == .eq) := by
    unfold hits
    rw [hnode]
    rfl
  rw [Bool.eq_iff_iff, ← hhit, List.any_eq_true]
  refine ⟨?_, fun hit => ⟨n, hn, hit⟩⟩
  rintro ⟨m, hm, hit⟩
  obtain ⟨hstop, front, rest, rfl, hfront⟩ := List.find?_eq_some_iff_append.mp hfind
  obtain hm | hm := List.mem_append.mp hm
  · -- a node before is below the target
    have hbelow := hfront m hm
    rw [Bool.not_not] at hbelow
    rw [hits_eq_false hbelow] at hit
    cases hit
  · obtain rfl | hm := List.mem_cons.mp hm
    · exact hit
    · -- a node behind is above the first one that is not below
      obtain ⟨x, y, hx, hy, hlt⟩ := (List.pairwise_cons.mp (List.pairwise_append.mp h).2.1).1 m hm
      unfold hits at hit
      unfold below at hstop
      rw [hy, Option.any_some, beq_iff_eq] at hit
      rw [hx, Option.any_some, Bool.not_eq_true', beq_eq_false_iff_ne] at hstop
      exact absurd (Std.TransCmp.lt_of_lt_of_eq hlt (Std.OrientedCmp.eq_symm hit)) hstop

/-- Searches in levels that increase find the right nodes. -/
theorem Shape.searchable (h : s.Shape levels) (hsorted : (levels 0).Pairwise (s.Increasing cmp))
    (hcomplete : ∀ key ∈ done, ∃ n ∈ levels 0, ∃ node, s.nodes n = some node ∧ node.key = key) :
    s.Searchable cmp done levels where
  leads _ hl := h.leads hl
  increasing l := hsorted.sublist (h.sublist_zero l)
  subset l := (h.sublist l).subset
  complete := hcomplete
  findGreaterOrEqual target :=
    h.iterSeek (less_total cmp s target levels) (mono_of_increasing hsorted target)
  findLessThan target := by
    obtain ⟨prev, hsearch, -⟩ :=
      h.searchAll_spec (less_total cmp s target levels) (mono_of_increasing hsorted target)
    unfold SkipList.findLessThan
    rw [hsearch, Option.map_some]
  findLast := by
    obtain ⟨prev, hsearch⟩ := h.searchAll_all
    unfold SkipList.findLast
    rw [hsearch, Option.map_some]
  contains target := by
    obtain ⟨prev, hsearch, -⟩ :=
      h.searchAll_spec (less_total cmp s target levels) (mono_of_increasing hsorted target)
    unfold SkipList.contains SkipList.findGreaterOrEqual
    rw [hsearch, Option.map_some, Option.bind_some]
    dsimp only
    rw [List.head?_filter]
    -- `Contains` looks at the first node that is not below the target.
    cases hfind : (levels 0).find? fun n => !s.below cmp target n with
    | none =>
      have hnone : (levels 0).any (s.hits cmp target) = false := by
        rw [List.any_eq_false]
        intro n hn
        have hbelow := List.find?_eq_none.mp hfind n hn
        rw [Bool.not_eq_true', Bool.not_eq_false] at hbelow
        rw [hits_eq_false hbelow]
        exact Bool.false_ne_true
      rw [hnone]
    | some n =>
      obtain ⟨node, hnode, -⟩ := h.node (List.mem_of_find?_eq_some hfind)
      dsimp only
      rw [hnode, Option.bind_some, any_hits hsorted target hfind hnode]
      rfl

end Searches

/-! ## Runs -/

/-- What holds between two calls of `Insert`. -/
structure Inv (cmp : K → K → Ordering) (s : SkipList K) (done : List K) (levels : ℕ → List ℕ) : Prop where
  /-- The levels. -/
  shape : s.Shape levels
  /-- They increase. -/
  sorted : (levels 0).Pairwise (s.Increasing cmp)
  /-- The keys are those that were inserted. -/
  keys : ∀ key, key ∈ done ↔ ∃ n ∈ levels 0, ∃ node, s.nodes n = some node ∧ node.key = key

/-- A new list holds no keys and meets the invariant. -/
theorem inv_start (cmp : K → K → Ordering) : ({} : SkipList K).Inv cmp [] fun _ => [] where
  shape := shape_empty
  sorted := List.Pairwise.nil
  keys _ := iff_of_false List.not_mem_nil fun ⟨_, hn, _⟩ => List.not_mem_nil hn

section Runs

variable [Std.TransCmp cmp]

/-- The nodes that are there stay when a node is allocated. -/
theorem Shape.nodes_update (h : s.Shape levels) {n : ℕ} (hn : n ∈ levels 0) (node : SkipNode K) :
    Function.update s.nodes s.nextNode (some node) n = s.nodes n :=
  Function.update_of_ne (h.allocated hn).ne ..

/-- Level 0 increases at all points of `Insert`. -/
theorem Inv.increasing (h : s.Inv cmp done levels) {key : K} {height : ℕ}
    (hnew : ∀ k ∈ done, cmp k key ≠ .eq)
    (hnodes : t.nodes = s.nodes ∨ t.nodes = Function.update s.nodes s.nextNode (some ⟨key, height⟩)) :
    (levels 0).Pairwise (t.Increasing cmp) ∧
      (t.nodes = Function.update s.nodes s.nextNode (some ⟨key, height⟩) →
        (place (s.below cmp key) s.nextNode (levels 0)).Pairwise (t.Increasing cmp)) := by
  have hold : ∀ n ∈ levels 0, t.nodes n = s.nodes n := by
    intro n hn
    obtain hsame | hsame := hnodes
    · rw [hsame]
    · rw [hsame]
      exact h.shape.nodes_update hn _
  have hsorted : (levels 0).Pairwise (t.Increasing cmp) := by
    refine h.sorted.imp_of_mem fun {a b} ha hb hab => ?_
    obtain ⟨x, y, hx, hy, hlt⟩ := hab
    exact ⟨x, y, (hold a ha).trans hx, (hold b hb).trans hy, hlt⟩
  refine ⟨hsorted, fun halloc => ?_⟩
  have hself : t.nodes s.nextNode = some ⟨key, height⟩ := by
    rw [halloc, Function.update_self]
  refine pairwise_place (mono_of_increasing h.sorted key) hsorted (fun n hn hbelow => ?_) fun n hn hbelow => ?_
  · unfold below at hbelow
    obtain ⟨x, hx, hlt⟩ := (Option.any_eq_true ..).mp hbelow
    exact ⟨x, _, (hold n hn).trans hx, hself, beq_iff_eq.mp hlt⟩
  · obtain ⟨x, hx, -⟩ := h.shape.node hn
    refine ⟨_, x, hself, (hold n hn).trans hx, ?_⟩
    unfold below at hbelow
    rw [hx, Option.any_some, beq_eq_false_iff_ne] at hbelow
    have hne := hnew x.key ((h.keys x.key).mpr ⟨n, hn, x, hx, rfl⟩)
    rw [← Std.OrientedCmp.gt_iff_lt]
    cases hcmp : cmp x.key key with
    | lt => exact absurd hcmp hbelow
    | eq => exact absurd hcmp hne
    | gt => rfl

/-- At every point of `Insert` the list is searchable. -/
theorem Inv.insertUpTo (h : s.Inv cmp done levels) {key : K} (hnew : ∀ k ∈ done, cmp k key ≠ .eq) {height : ℕ}
    (hle : height ≤ kMaxHeight) {k : ℕ} (hk : k ≤ 2 * height + 2) :
    ∃ t levels', s.insertUpTo (total cmp) key height k = some t ∧ t.Searchable cmp done levels' := by
  obtain ⟨t, hinsert, hshape, hnodes⟩ := h.shape.insertUpTo (less_total cmp s key levels)
    (mono_of_increasing h.sorted key) hle k hk
  have hcases : t.nodes = s.nodes ∨ t.nodes = Function.update s.nodes s.nextNode (some ⟨key, height⟩) := by
    rw [hnodes]
    by_cases hlt : k < 2
    · exact Or.inl (if_pos hlt)
    · exact Or.inr (if_neg hlt)
  obtain ⟨hsorted, hplaced⟩ := h.increasing hnew hcases
  have hlevel : (placeBelow (s.below cmp key) s.nextNode levels ((k - 2) / 2) 0).Pairwise (t.Increasing cmp) ∧
      levels 0 ⊆ placeBelow (s.below cmp key) s.nextNode levels ((k - 2) / 2) 0 := by
    unfold placeBelow
    by_cases hlt : 0 < (k - 2) / 2
    · rw [if_pos hlt]
      refine ⟨hplaced ?_, fun n hn => mem_place.mpr (Or.inr hn)⟩
      rw [hnodes, if_neg (by omega)]
    · rw [if_neg hlt]
      exact ⟨hsorted, List.Subset.refl _⟩
  refine ⟨t, _, hinsert, hshape.searchable hlevel.1 fun key' hkey' => ?_⟩
  obtain ⟨n, hn, node, hnode, rfl⟩ := (h.keys key').mp hkey'
  refine ⟨n, hlevel.2 hn, node, ?_, rfl⟩
  obtain hsame | hsame := hcases
  · rw [hsame, hnode]
  · rw [hsame, h.shape.nodes_update hn, hnode]

/-- `Insert` of a new key at any allowed height succeeds, keeps the invariant, and adds the key. -/
theorem Inv.insert (h : s.Inv cmp done levels) {key : K} (hnew : ∀ k ∈ done, cmp k key ≠ .eq) {height : ℕ}
    (hpos : 0 < height) (hle : height ≤ kMaxHeight) :
    ∃ s' levels', s.insert (total cmp) key height = some s' ∧ s'.Inv cmp (done ++ [key]) levels' := by
  obtain ⟨s', levels', hinsert, hshape, hlevel, hnodes⟩ := h.shape.insert (less_total cmp s key levels)
    (mono_of_increasing h.sorted key) hpos hle
  have hplaced := (h.increasing hnew (Or.inr hnodes)).2 hnodes
  rw [← hlevel] at hplaced
  refine ⟨s', levels', hinsert, hshape, hplaced, fun key' => ?_⟩
  rw [List.mem_append, List.mem_singleton, h.keys, hlevel]
  constructor
  · rintro (⟨n, hn, node, hnode, rfl⟩ | rfl)
    · exact ⟨n, mem_place.mpr (Or.inr hn), node, by rw [hnodes, h.shape.nodes_update hn, hnode], rfl⟩
    · exact ⟨_, mem_place.mpr (Or.inl rfl), _, by rw [hnodes, Function.update_self], rfl⟩
  · rintro ⟨n, hn, node, hnode, rfl⟩
    rw [hnodes] at hnode
    obtain rfl | hn := mem_place.mp hn
    · rw [Function.update_self] at hnode
      cases hnode
      exact Or.inr rfl
    · rw [h.shape.nodes_update hn] at hnode
      exact Or.inl ⟨n, hn, node, hnode, rfl⟩

/-- The invariant holds after every sequence of calls. -/
theorem Inserts.inv (h : Inserts cmp s done) : ∃ levels, s.Inv cmp done levels := by
  induction h with
  | start => exact ⟨_, inv_start cmp⟩
  | insert _ hnew hpos hle hinsert ih =>
    obtain ⟨levels, hinv⟩ := ih
    obtain ⟨s', levels', hinsert', hinv'⟩ := hinv.insert hnew hpos hle
    rw [hinsert] at hinsert'
    cases hinsert'
    exact ⟨levels', hinv'⟩

/-- After every sequence of calls of `Insert` the list is searchable, and it stays so between any two stores of
the next call, which does not fail. -/
theorem searchable_at_every_store (h : Inserts cmp s done) :
    (∃ levels, s.Searchable cmp done levels) ∧
      ∀ key height, (∀ k ∈ done, cmp k key ≠ .eq) → 0 < height → height ≤ kMaxHeight →
        (∃ s', s.insert (total cmp) key height = some s' ∧
          s.insertUpTo (total cmp) key height (2 * height + 2) = some s') ∧
        ∀ k, k ≤ 2 * height + 2 →
          ∃ t levels, s.insertUpTo (total cmp) key height k = some t ∧ t.Searchable cmp done levels := by
  obtain ⟨levels, hinv⟩ := h.inv
  refine ⟨⟨levels, hinv.shape.searchable hinv.sorted fun key hkey => (hinv.keys key).mp hkey⟩,
    fun key height hnew hpos hle => ⟨?_, fun k hk => hinv.insertUpTo hnew hle hk⟩⟩
  obtain ⟨s', levels', hinsert, -⟩ := hinv.insert hnew hpos hle
  exact ⟨s', hinsert, (s.insert_eq (total cmp) key height).symm.trans hinsert⟩

/-- The second of two nodes is linked on its lowest level, but not yet on the next one. -/
theorem searchable_at_every_store_example : ∃ s t : SkipList ℕ, Inserts compare s [5] ∧
    s.insertUpTo (total compare) 3 2 4 = some t ∧ t.links 0 (.head ()) = some 1 ∧ t.links 1 (.head ()) = none ∧
    ∃ levels, t.Searchable compare [5] levels := by
  have hlinks : ∀ hsome : (({} : SkipList ℕ).insert (total compare) 5 1).isSome,
      ((Option.get _ hsome).insertUpTo (total compare) 3 2 4).map
        (fun t => (t.links 0 (.head ()), t.links 1 (.head ()))) = some (some 1, none) := by decide
  have hsome : (({} : SkipList ℕ).insert (total compare) 5 1).isSome := by decide
  have hrun : Inserts compare (Option.get _ hsome) [5] :=
    Inserts.insert Inserts.start (fun k hk => absurd hk List.not_mem_nil) (by decide) (by decide)
      (Option.some_get hsome).symm
  obtain ⟨-, hstores⟩ := searchable_at_every_store hrun
  obtain ⟨t, levels, hinsert, hsearchable⟩ := (hstores 3 2 (by decide) (by decide) (by decide)).2 4 (by decide)
  have hlink := hlinks hsome
  rw [hinsert] at hlink
  obtain ⟨hlink0, hlink1⟩ := Prod.mk.inj (Option.some.inj hlink)
  exact ⟨_, t, hrun, hinsert, hlink0, hlink1, levels, hsearchable⟩

end Runs

end SkipList

end LevelDb
