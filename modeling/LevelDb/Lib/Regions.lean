import Mathlib.Algebra.BigOperators.Group.List.Basic
import Mathlib.Algebra.GroupWithZero.Nat
import Mathlib.Order.Interval.Finset.Nat

/-!
# Regions of memory

Regions are intervals of addresses. Disjoint regions below an address have no more cells together than there
are addresses (`sum_size_le`). An allocator carves regions out of blocks, of which one has a free part
(`Carved`): it takes regions from the free part, gives whole blocks away, or goes on to the next block.
-/

namespace LevelDb.Lib

/-- `size` addresses from `base` on. -/
structure Region where
  /-- The first one. -/
  base : ℕ
  /-- How many there are. -/
  size : ℕ
  deriving DecidableEq, Repr

namespace Region

/-- The address behind a region. -/
def stop (r : Region) : ℕ := r.base + r.size

/-- One region ends before the other one. -/
def Disjoint (r s : Region) : Prop := r.stop ≤ s.base ∨ s.stop ≤ r.base

/-- A region is a part of another one. -/
def Within (r s : Region) : Prop := s.base ≤ r.base ∧ r.stop ≤ s.stop

instance (r s : Region) : Decidable (r.Disjoint s) := inferInstanceAs (Decidable (_ ∨ _))

instance (r s : Region) : Decidable (r.Within s) := inferInstanceAs (Decidable (_ ∧ _))

/-- If one region is disjoint from another, then so is the other from the one. -/
theorem Disjoint.symm {r s : Region} (h : r.Disjoint s) : s.Disjoint r := Or.symm h

/-- A region is a part of itself. -/
theorem within_rfl {r : Region} : r.Within r := ⟨le_rfl, le_rfl⟩

/-- A region within a region within a third one is within the third. -/
theorem Within.trans {r s t : Region} (h : r.Within s) (h' : s.Within t) : r.Within t :=
  ⟨h'.1.trans h.1, h.2.trans h'.2⟩

/-- Regions within disjoint regions are disjoint. -/
theorem Disjoint.mono {r r' s s' : Region} (h : r.Disjoint s) (hr : r'.Within r) (hs : s'.Within s) :
    r'.Disjoint s' :=
  h.imp (fun h => hr.2.trans (h.trans hs.1)) fun h => hs.2.trans (h.trans hr.1)

/-- Nothing is before a region that begins behind it. -/
theorem disjoint_of_stop_eq_zero {r s : Region} (h : r.stop = 0) : r.Disjoint s :=
  Or.inl (h.trans_le (Nat.zero_le _))

end Region

/-! ## Cells -/

/-- The addresses of some regions. -/
def cells : List Region → Finset ℕ
  | [] => ∅
  | r :: regions => Finset.Ico r.base r.stop ∪ cells regions

/-- An address is in one of the regions. -/
theorem mem_cells {a : ℕ} {regions : List Region} :
    a ∈ cells regions ↔ ∃ r ∈ regions, r.base ≤ a ∧ a < r.stop := by
  induction regions with
  | nil => simp [cells]
  | cons r regions ih => simp [cells, ih]

/-- Disjoint regions have as many addresses as their sizes say. -/
theorem card_cells {regions : List Region} (h : regions.Pairwise Region.Disjoint) :
    (cells regions).card = (regions.map Region.size).sum := by
  induction regions with
  | nil => rfl
  | cons r regions ih =>
    obtain ⟨hfirst, hrest⟩ := List.pairwise_cons.mp h
    have hdisjoint : Disjoint (Finset.Ico r.base r.stop) (cells regions) := by
      rw [Finset.disjoint_left]
      intro a ha hcells
      obtain ⟨s, hs, hbase, hstop⟩ := mem_cells.mp hcells
      have hmem := Finset.mem_Ico.mp ha
      obtain hle | hle := hfirst s hs <;> omega
    rw [cells, Finset.card_union_of_disjoint hdisjoint, ih hrest, Nat.card_Ico, List.map_cons,
      List.sum_cons, Region.stop, Nat.add_sub_cancel_left]

/-- Disjoint regions have no more cells than there are addresses. -/
theorem sum_size_le {regions : List Region} {n : ℕ} (h : regions.Pairwise Region.Disjoint)
    (hstop : ∀ r ∈ regions, r.stop ≤ n) : (regions.map Region.size).sum ≤ n := by
  have hsubset : cells regions ⊆ Finset.range n := by
    intro a ha
    obtain ⟨r, hr, -, hlt⟩ := mem_cells.mp ha
    exact Finset.mem_range.mpr (hlt.trans_le (hstop r hr))
  calc (regions.map Region.size).sum = (cells regions).card := (card_cells h).symm
    _ ≤ (Finset.range n).card := Finset.card_le_card hsubset
    _ = n := Finset.card_range n

/-! ## Carving -/

/-- Regions that have been carved out of blocks, and what is free in the block that is in use. -/
structure Carved (blocks served : List Region) (free : Region) : Prop where
  /-- They are parts of blocks. -/
  inside : ∀ r ∈ served, ∃ b ∈ blocks, r.Within b
  /-- They are disjoint. -/
  disjoint : served.Pairwise Region.Disjoint
  /-- What is free is a part of a block, or there is nothing yet. -/
  free_inside : free.stop = 0 ∨ ∃ b ∈ blocks, free.Within b
  /-- None of it has been given away. -/
  free_disjoint : ∀ r ∈ served, r.Disjoint free
  /-- The sizes. -/
  total : (served.map Region.size).sum + free.size ≤ (blocks.map Region.size).sum

/-- Without blocks nothing has been served and nothing is free. -/
theorem carved_nil : Carved [] [] ⟨0, 0⟩ :=
  ⟨fun _ h => absurd h List.not_mem_nil, List.Pairwise.nil, Or.inl rfl,
    fun _ h => absurd h List.not_mem_nil, le_rfl⟩

section Carved

variable {blocks served : List Region} {free b r rest : Region}

/-- A block that is disjoint from all blocks is disjoint from what was served of them and from what is
free. -/
theorem Carved.disjoint_new (h : Carved blocks served free) (hb : ∀ b' ∈ blocks, b.Disjoint b') :
    (∀ r ∈ served, b.Disjoint r) ∧ b.Disjoint free := by
  constructor
  · intro r hr
    obtain ⟨b', hb', hwithin⟩ := h.inside r hr
    exact (hb b' hb').mono Region.within_rfl hwithin
  · obtain hzero | ⟨b', hb', hwithin⟩ := h.free_inside
    · exact (Region.disjoint_of_stop_eq_zero hzero).symm
    · exact (hb b' hb').mono Region.within_rfl hwithin

/-- A region is taken from what is free. -/
theorem Carved.take (h : Carved blocks served free) (hinside : ∃ b ∈ blocks, free.Within b)
    (hr : r.Within free) (hrest : rest.Within free) (hdisjoint : r.Disjoint rest)
    (hsize : r.size + rest.size ≤ free.size) : Carved blocks (r :: served) rest where
  inside := by
    obtain ⟨b, hb, hwithin⟩ := hinside
    exact List.forall_mem_cons.mpr ⟨⟨b, hb, hr.trans hwithin⟩, h.inside⟩
  disjoint := List.pairwise_cons.mpr
    ⟨fun s hs => (h.free_disjoint s hs).symm.mono hr Region.within_rfl, h.disjoint⟩
  free_inside := by
    obtain ⟨b, hb, hwithin⟩ := hinside
    exact Or.inr ⟨b, hb, hrest.trans hwithin⟩
  free_disjoint := List.forall_mem_cons.mpr
    ⟨hdisjoint, fun s hs => (h.free_disjoint s hs).mono Region.within_rfl hrest⟩
  total := by
    have htotal := h.total
    rw [List.map_cons, List.sum_cons]
    omega

/-- A new block is given away as a whole. -/
theorem Carved.separate (h : Carved blocks served free) (hb : ∀ b' ∈ blocks, b.Disjoint b') :
    Carved (blocks ++ [b]) (b :: served) free where
  inside := List.forall_mem_cons.mpr ⟨⟨b, by simp, Region.within_rfl⟩, fun r hr => by
    obtain ⟨b', hb', hwithin⟩ := h.inside r hr
    exact ⟨b', List.mem_append_left _ hb', hwithin⟩⟩
  disjoint := List.pairwise_cons.mpr ⟨(h.disjoint_new hb).1, h.disjoint⟩
  free_inside := h.free_inside.imp_right fun ⟨b', hb', hwithin⟩ =>
    ⟨b', List.mem_append_left _ hb', hwithin⟩
  free_disjoint := List.forall_mem_cons.mpr ⟨(h.disjoint_new hb).2, h.free_disjoint⟩
  total := by
    have htotal := h.total
    rw [List.map_cons, List.sum_cons, List.map_append, List.sum_append, List.map_singleton,
      List.sum_singleton]
    omega

/-- A new block is the free part. What was left of the one before is given up. -/
theorem Carved.next (h : Carved blocks served free) (hb : ∀ b' ∈ blocks, b.Disjoint b') :
    Carved (blocks ++ [b]) served b where
  inside r hr := by
    obtain ⟨b', hb', hwithin⟩ := h.inside r hr
    exact ⟨b', List.mem_append_left _ hb', hwithin⟩
  disjoint := h.disjoint
  free_inside := Or.inr ⟨b, by simp, Region.within_rfl⟩
  free_disjoint r hr := ((h.disjoint_new hb).1 r hr).symm
  total := by
    have htotal := h.total
    rw [List.map_append, List.sum_append, List.map_singleton, List.sum_singleton]
    omega

end Carved

end LevelDb.Lib
