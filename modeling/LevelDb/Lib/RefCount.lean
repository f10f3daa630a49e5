import Mathlib.Algebra.GroupWithZero.Nat
import Mathlib.Data.List.Count
import Mathlib.Data.List.Nodup

/-!
# Reference counts

A pool of objects with reference counts. An object comes with one reference, and goes when its last
one is given back. When every reference is accounted for (`Counted`), whatever is referenced is in the
pool, as it was when it was put there.
-/

namespace LevelDb.Lib

variable {α : Type}

/-- An object of a pool. -/
structure Node (α : Type) where
  /-- Its address. -/
  id : ℕ
  /-- The number of its references. -/
  refs : ℕ
  /-- What it holds. -/
  value : α

/-- A reference, with what the object holds. -/
structure Held (α : Type) where
  /-- The address. -/
  id : ℕ
  /-- What the object holds. -/
  value : α

/-- A new reference to an object. -/
def ref (pool : List (Node α)) (id : ℕ) : List (Node α) :=
  pool.map fun n => if n.id = id then { n with refs := n.refs + 1 } else n

/-- A reference is given back, and the object goes with its last reference. -/
def unref (pool : List (Node α)) (id : ℕ) : List (Node α) :=
  pool.filterMap fun n =>
    if n.id = id then if n.refs ≤ 1 then none else some { n with refs := n.refs - 1 } else some n

/-- A new object with one reference. -/
def appendNode (pool : List (Node α)) (id : ℕ) (value : α) : List (Node α) := pool ++ [⟨id, 1, value⟩]

/-- The references to an address. -/
def refsTo (held : List (Held α)) (id : ℕ) : ℕ := held.countP fun h => h.id = id

/-- Every reference is counted, and leads to its object. -/
structure Counted (pool : List (Node α)) (held : List (Held α)) (next : ℕ) : Prop where
  /-- Addresses are distinct. -/
  nodup : (pool.map (·.id)).Nodup
  /-- Addresses from `next` on are free. -/
  fresh : ∀ n ∈ pool, n.id < next
  /-- The counts are right. -/
  refs : ∀ n ∈ pool, n.refs = refsTo held n.id
  /-- What is referenced is there. -/
  found : ∀ h ∈ held, ∃ n ∈ pool, n.id = h.id ∧ n.value = h.value

/-- The number of references to an address that one more reference makes. -/
theorem refsTo_cons (h : Held α) (held : List (Held α)) (id : ℕ) :
    refsTo (h :: held) id = refsTo held id + if h.id = id then 1 else 0 := by
  unfold refsTo
  rw [List.countP_cons]
  simp

/-- The order of the references does not matter. -/
theorem Counted.perm {pool : List (Node α)} {held held' : List (Held α)} {next : ℕ}
    (h : Counted pool held next) (hperm : held.Perm held') : Counted pool held' next := by
  refine ⟨h.nodup, h.fresh, fun n hn => ?_, fun x hx => h.found x (hperm.mem_iff.mpr hx)⟩
  rw [h.refs n hn]
  exact hperm.countP_eq _

/-- Addresses stay as they are when a reference is taken. -/
theorem ref_map_id (pool : List (Node α)) (id : ℕ) :
    (ref pool id).map (·.id) = pool.map (·.id) := by
  unfold ref
  rw [List.map_map]
  refine List.map_congr_left fun n _ => ?_
  show (if n.id = id then { n with refs := n.refs + 1 } else n).id = n.id
  split_ifs <;> rfl

/-- The objects of the pool after a reference was taken. -/
theorem mem_ref {pool : List (Node α)} {id : ℕ} {m : Node α} (h : m ∈ ref pool id) :
    ∃ n ∈ pool, m.id = n.id ∧ m.value = n.value ∧
      m.refs = n.refs + if id = n.id then 1 else 0 := by
  obtain ⟨n, hn, rfl⟩ := List.mem_map.mp h
  refine ⟨n, hn, ?_⟩
  by_cases hid : n.id = id
  · rw [if_pos hid, if_pos hid.symm]
    exact ⟨rfl, rfl, rfl⟩
  · rw [if_neg hid, if_neg (Ne.symm hid)]
    exact ⟨rfl, rfl, rfl⟩

/-- An object stays in the pool when a reference is taken. -/
theorem exists_mem_ref {pool : List (Node α)} (id : ℕ) {n : Node α} (h : n ∈ pool) :
    ∃ m ∈ ref pool id, m.id = n.id ∧ m.value = n.value := by
  refine ⟨_, List.mem_map_of_mem h, ?_⟩
  split_ifs <;> exact ⟨rfl, rfl⟩

/-- Taking one more reference to an object that is referenced. -/
theorem Counted.ref {pool : List (Node α)} {held : List (Held α)} {next : ℕ}
    (h : Counted pool held next) {x : Held α} (hx : x ∈ held) :
    Counted (ref pool x.id) (x :: held) next := by
  refine ⟨by rw [ref_map_id]; exact h.nodup, ?_, ?_, ?_⟩
  · intro m hm
    obtain ⟨n, hn, hid, -, -⟩ := mem_ref hm
    rw [hid]
    exact h.fresh n hn
  · intro m hm
    obtain ⟨n, hn, hid, -, hrefs⟩ := mem_ref hm
    rw [hrefs, hid, refsTo_cons, h.refs n hn]
  · intro y hy
    obtain ⟨n, hn, hid, hvalue⟩ : ∃ n ∈ pool, n.id = y.id ∧ n.value = y.value := by
      rcases List.mem_cons.mp hy with rfl | hy
      · exact h.found y hx
      · exact h.found y hy
    obtain ⟨m, hm, hid', hvalue'⟩ := exists_mem_ref x.id hn
    exact ⟨m, hm, hid'.trans hid, hvalue'.trans hvalue⟩

/-- The objects of the pool after a reference was given back. -/
theorem mem_unref {pool : List (Node α)} {id : ℕ} {m : Node α} :
    m ∈ unref pool id ↔ ∃ n ∈ pool, (n.id = id ∧ 1 < n.refs ∧ m = { n with refs := n.refs - 1 }) ∨
      (n.id ≠ id ∧ m = n) := by
  unfold unref
  rw [List.mem_filterMap]
  refine exists_congr fun n => and_congr_right fun _ => ?_
  by_cases hid : n.id = id
  · by_cases hrefs : n.refs ≤ 1
    · simp [hid, hrefs, Nat.not_lt.mpr hrefs]
    · have hlt : 1 < n.refs := Nat.lt_of_not_le hrefs
      simp [hid, hrefs, hlt, eq_comm]
  · simp [hid, eq_comm]

/-- The addresses after a reference was given back are among those before. -/
theorem unref_sublist (pool : List (Node α)) (id : ℕ) :
    ((unref pool id).map (·.id)).Sublist (pool.map (·.id)) := by
  induction pool with
  | nil => exact List.Sublist.refl _
  | cons n pool ih =>
    unfold unref at ih ⊢
    rw [List.filterMap_cons]
    by_cases hid : n.id = id
    · by_cases hrefs : n.refs ≤ 1
      · simpa [hid, hrefs] using ih.cons _
      · simpa [hid, hrefs] using ih
    · simpa [hid] using ih

/-- After one of the references is given back, the counts fit the references that are left. -/
theorem Counted.unref {pool : List (Node α)} {held : List (Held α)} {x : Held α} {next : ℕ}
    (h : Counted pool (x :: held) next) : Counted (unref pool x.id) held next := by
  refine ⟨h.nodup.sublist (unref_sublist pool x.id), ?_, ?_, ?_⟩
  · intro m hm
    obtain ⟨n, hn, ⟨-, -, rfl⟩ | ⟨-, rfl⟩⟩ := mem_unref.mp hm
    · exact h.fresh n hn
    · exact h.fresh m hn
  · intro m hm
    obtain ⟨n, hn, ⟨hid, -, rfl⟩ | ⟨hid, rfl⟩⟩ := mem_unref.mp hm
    · have hrefs := h.refs n hn
      rw [refsTo_cons, if_pos hid.symm] at hrefs
      show n.refs - 1 = refsTo held n.id
      omega
    · have hrefs := h.refs m hn
      rw [refsTo_cons, if_neg (Ne.symm hid)] at hrefs
      exact hrefs
  · intro y hy
    obtain ⟨n, hn, hid, hvalue⟩ := h.found y (List.mem_cons_of_mem _ hy)
    by_cases hx : n.id = x.id
    · -- The reference `y` is left, so that the object stays.
      have hrefs := h.refs n hn
      rw [refsTo_cons, if_pos hx.symm] at hrefs
      have hpos : 0 < refsTo held n.id := List.countP_pos_iff.mpr ⟨y, hy, by simpa using hid.symm⟩
      exact ⟨{ n with refs := n.refs - 1 }, mem_unref.mpr ⟨n, hn, Or.inl ⟨hx, by omega, rfl⟩⟩, hid,
        hvalue⟩
    · exact ⟨n, mem_unref.mpr ⟨n, hn, Or.inr ⟨hx, rfl⟩⟩, hid, hvalue⟩

/-- A new object comes with its first reference. -/
theorem Counted.append {pool : List (Node α)} {held : List (Held α)} {next : ℕ}
    (h : Counted pool held next) (value : α) :
    Counted (appendNode pool next value) (⟨next, value⟩ :: held) (next + 1) := by
  have hfree : ∀ y ∈ held, y.id ≠ next := by
    intro y hy heq
    obtain ⟨n, hn, hid, -⟩ := h.found y hy
    have := h.fresh n hn
    omega
  refine ⟨?_, ?_, ?_, ?_⟩
  · unfold appendNode
    rw [List.map_append, List.nodup_append]
    refine ⟨h.nodup, List.nodup_singleton _, ?_⟩
    intro a ha b hb
    obtain ⟨n, hn, rfl⟩ := List.mem_map.mp ha
    have hb' : b = next := by simpa using hb
    have := h.fresh n hn
    omega
  · intro m hm
    rcases List.mem_append.mp hm with hm | hm
    · exact Nat.lt_succ_of_lt (h.fresh m hm)
    · rw [List.mem_singleton.mp hm]
      exact Nat.lt_succ_self _
  · intro m hm
    rw [refsTo_cons]
    rcases List.mem_append.mp hm with hm | hm
    · rw [if_neg (Nat.ne_of_gt (h.fresh m hm)), h.refs m hm]
      rfl
    -- No one held the new number before.
    · have hnone : refsTo held next = 0 :=
        List.countP_eq_zero.mpr fun y hy => by simpa using hfree y hy
      rw [List.mem_singleton.mp hm]
      show 1 = refsTo held next + if next = next then 1 else 0
      rw [hnone, if_pos rfl]
  · intro y hy
    rcases List.mem_cons.mp hy with rfl | hy
    · exact ⟨⟨next, 1, value⟩, List.mem_append_right _ (List.mem_singleton_self _), rfl, rfl⟩
    · obtain ⟨n, hn, hid, hvalue⟩ := h.found y hy
      exact ⟨n, List.mem_append_left _ hn, hid, hvalue⟩

end LevelDb.Lib
