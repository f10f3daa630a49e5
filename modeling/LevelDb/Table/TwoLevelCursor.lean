import LevelDb.Lib.Concat
import LevelDb.Table.TwoLevel

/-!
# The two-level iterator is a cursor

`TwoLevelIterator` moves as a cursor over the concatenation of the blocks, if its index iterator moves as
one over entries of separators and handles, and every handle leads to an iterator that moves as one over
a block. Between calls either a block is open, at one of its entries, or none is (`Stands`). Inside of a
call the index may have moved on from the block that is open (`Kept`).
-/

namespace LevelDb

open Lib

namespace TwoLevelIterator

/-! ## Levels -/

/-- The index and the blocks of a two-level iterator, with what their iterators do. -/
structure Levels (ι δ : Type) [Iterator ι Slice Slice Status] [Bounded ι] [Iterator δ Slice Slice Status]
    (cmp : Comparator) where
  /-- The separators and handles of the blocks. -/
  index : List (Slice × Slice)
  /-- The blocks. -/
  blocks : List (List (Slice × Slice))
  /-- `block_function_` -/
  blockFunction : Slice → δ
  /-- The positions of the index iterator. -/
  indexAt : ι → Option ℕ → Prop
  /-- The positions of the iterators of a block. -/
  blockAt : ℕ → δ → Option ℕ → Prop
  /-- Every block has an entry in the index. -/
  length_eq : index.length = blocks.length
  /-- The index iterator is a cursor. -/
  index_follows : Follows (fun a b => decide (cmp.Lt a b)) index indexAt
  /-- The number of rounds is large enough. -/
  bound : ∀ {s : ι} {pos : Option ℕ}, indexAt s pos → index.length ≤ Bounded.bound s
  /-- The iterators of the blocks are cursors. -/
  block_follows : ∀ {i : ℕ}, i < index.length →
    Follows (fun a b => decide (cmp.Lt a b)) (partAt blocks i) (blockAt i)
  /-- What `block_function_` makes of a handle. -/
  opens : ∀ {i : ℕ} {p : Slice × Slice}, index[i]? = some p → blockAt i (blockFunction p.2) none
  /-- The handles are different. -/
  distinct : ∀ {i j : ℕ} {p q : Slice × Slice}, index[i]? = some p → index[j]? = some q → p.2 = q.2 → i = j
  /-- The keys of a block are not above its separator. -/
  le_separator : ∀ {i : ℕ} {p q : Slice × Slice}, index[i]? = some p → q ∈ partAt blocks i → cmp.Le q.1 p.1
  /-- The keys of later blocks are. -/
  separator_lt : ∀ {i j : ℕ} {p q : Slice × Slice}, index[i]? = some p → i < j → q ∈ partAt blocks j →
    cmp.Lt p.1 q.1

variable {ι δ : Type} [Iterator ι Slice Slice Status] [Bounded ι] [Iterator δ Slice Slice Status]
  {cmp : Comparator} {L : Levels ι δ cmp} {it : TwoLevelIterator ι δ} {i : ℕ} {pos : Option ℕ}

/-! ## States -/

/-- The fixed part of the iterator, without an error. -/
structure Over (L : Levels ι δ cmp) (it : TwoLevelIterator ι δ) : Prop where
  /-- How blocks are opened. -/
  blockFunction : it.blockFunction = L.blockFunction
  /-- There was no error. -/
  status : it.status = none

/-- An open block belongs to the handle. -/
structure Kept (L : Levels ι δ cmp) (it : TwoLevelIterator ι δ) : Prop extends Over L it where
  /-- The open block. -/
  data : ∀ {d : δ}, it.data = some d →
    ∃ i p pos, L.index[i]? = some p ∧ it.handle = p.2 ∧ L.blockAt i d pos

/-- A block is open, with its iterator at a position. -/
structure Opened (L : Levels ι δ cmp) (it : TwoLevelIterator ι δ) (i : ℕ) (pos : Option ℕ) : Prop
    extends Over L it where
  /-- The index is at the block. -/
  index : L.indexAt it.index (some i)
  /-- So is the handle. -/
  handle : ∃ p, L.index[i]? = some p ∧ it.handle = p.2
  /-- The iterator of the block. -/
  data : ∃ d, it.data = some d ∧ L.blockAt i d pos

/-- No block is open. -/
structure Closed (L : Levels ι δ cmp) (it : TwoLevelIterator ι δ) : Prop extends Over L it where
  /-- The index is somewhere. -/
  index : ∃ pos, L.indexAt it.index pos
  /-- There is no iterator of a block. -/
  data : it.data = none

/-- The iterator is at an entry of a block that is open, or no block is. -/
def Stands (L : Levels ι δ cmp) (it : TwoLevelIterator ι δ) : Option ℕ → Prop
  | none => Closed L it
  | some n => ∃ i j, Opened L it i (some j) ∧ n = start L.blocks i + j

/-- A block that is open is one of the blocks. -/
theorem Opened.lt_length (h : Opened L it i pos) : i < L.index.length := L.index_follows.lt_length h.index

/-- An open block belongs to the handle, wherever the index goes. -/
theorem Opened.kept (h : Opened L it i pos) (f : ι → ι) : Kept L (it.onIndex f) where
  blockFunction := h.blockFunction
  status := h.status
  data {d} hd := by
    obtain ⟨p, hp, hhandle⟩ := h.handle
    obtain ⟨d', hd', hblock⟩ := h.data
    obtain rfl : d' = d := Option.some.inj (hd'.symm.trans hd)
    exact ⟨i, p, pos, hp, hhandle, hblock⟩

/-- Between calls, the index may go anywhere. -/
theorem Stands.kept (h : Stands L it pos) (f : ι → ι) : Kept L (it.onIndex f) := by
  cases pos with
  | none => exact ⟨⟨h.blockFunction, h.status⟩, fun hd => absurd (hd.symm.trans h.data) (by simp)⟩
  | some n =>
    obtain ⟨i, j, hopened, -⟩ := h
    exact hopened.kept f

/-- Between calls the index iterator stands at a position of the index, or at none. -/
theorem Stands.index (h : Stands L it pos) : ∃ pos, L.indexAt it.index pos := by
  cases pos with
  | none => exact Closed.index h
  | some n =>
    obtain ⟨i, j, hopened, -⟩ := h
    exact ⟨some i, hopened.index⟩

/-! ## Blocks -/

/-- `SetDataIterator` has no error to save. -/
theorem Kept.setDataIterator (h : Kept L it) (data : Option δ) :
    it.setDataIterator data = { it with data := data } := by
  unfold TwoLevelIterator.setDataIterator
  split
  · rfl
  · next d hd =>
    obtain ⟨i, p, pos, hp, -, hblock⟩ := h.data hd
    have hstatus := (L.block_follows (List.getElem?_eq_some_iff.mp hp).1).status hblock
    unfold saveError
    rw [hstatus, if_neg (fun hne => hne.2 rfl)]

/-- `InitDataBlock` opens the block that the index is at, or keeps it open. -/
theorem Kept.initDataBlock_some (h : Kept L it) (hindex : L.indexAt it.index (some i)) :
    ∃ pos, Opened L it.initDataBlock i pos := by
  have hvalid : Iterator.valid it.index = true := L.index_follows.valid hindex
  have hentry := L.index_follows.entry hindex
  unfold TwoLevelIterator.initDataBlock
  rw [if_pos hvalid]
  dsimp only
  split_ifs with hkeep
  · -- A handle belongs to one block only.
    obtain ⟨hsome, hhandle⟩ := hkeep
    obtain ⟨d, hd⟩ := Option.isSome_iff_exists.mp hsome
    obtain ⟨j, p, pos, hp, hhandle', hblock⟩ := h.data hd
    obtain rfl := L.distinct hentry hp (hhandle.trans hhandle')
    exact ⟨pos, h.toOver, hindex, ⟨_, hentry, hhandle.symm⟩, d, hd, hblock⟩
  · rw [h.setDataIterator, h.blockFunction]
    exact ⟨none, ⟨rfl, h.status⟩, hindex, ⟨_, hentry, rfl⟩, _, rfl, L.opens hentry⟩

/-- `InitDataBlock` opens no block if the index is at none. -/
theorem Kept.initDataBlock_none (h : Kept L it) (hindex : L.indexAt it.index none) :
    Closed L it.initDataBlock ∧ L.indexAt it.initDataBlock.index none := by
  have hvalid : Iterator.valid it.index = false := L.index_follows.valid hindex
  unfold TwoLevelIterator.initDataBlock
  rw [if_neg (by rw [hvalid]; exact Bool.false_ne_true), h.setDataIterator]
  exact ⟨⟨⟨h.blockFunction, h.status⟩, ⟨none, hindex⟩, rfl⟩, hindex⟩

/-- An operation on the iterator of the open block. -/
theorem Opened.onData (h : Opened L it i pos) {f : δ → δ} {pos' : Option ℕ}
    (hf : ∀ {d : δ}, L.blockAt i d pos → L.blockAt i (f d) pos') : Opened L (it.onData f) i pos' := by
  obtain ⟨d, hd, hblock⟩ := h.data
  refine ⟨⟨h.blockFunction, h.status⟩, h.index, h.handle, f d, ?_, hf hblock⟩
  unfold TwoLevelIterator.onData
  dsimp only
  rw [hd]
  rfl

/-- Without an open block there is nothing to operate on. -/
theorem Closed.onData (h : Closed L it) (f : δ → δ) : Closed L (it.onData f) := by
  refine ⟨⟨h.blockFunction, h.status⟩, h.index, ?_⟩
  unfold TwoLevelIterator.onData
  dsimp only
  rw [h.data]
  rfl

/-- Whether the iterator of the open block is valid. -/
theorem Opened.dataValid (h : Opened L it i pos) : it.dataValid = pos.isSome := by
  obtain ⟨d, hd, hblock⟩ := h.data
  unfold TwoLevelIterator.dataValid
  rw [hd]
  exact (L.block_follows h.lt_length).valid hblock

/-! ## Skipping blocks -/

section Skip

variable {move : ι → ι} {enter : δ → δ}

/-- At an entry there is nothing to skip. -/
theorem Opened.skip_valid {j : ℕ} (h : Opened L it i (some j)) (fuel : ℕ) :
    it.skipEmptyDataBlocks move enter fuel = it := by
  cases fuel with
  | zero => rfl
  | succ fuel =>
    have hvalid : it.dataValid = true := h.dataValid
    rw [skipEmptyDataBlocks, if_pos hvalid]

/-- From a block without an entry, a round goes to another block. -/
theorem Opened.skip_some (h : Opened L it i none) {i' : ℕ} {pos' : Option ℕ}
    (hmove : L.indexAt (move it.index) (some i'))
    (henter : ∀ {d : δ} {pos : Option ℕ}, L.blockAt i' d pos → L.blockAt i' (enter d) pos') (fuel : ℕ) :
    ∃ it', Opened L it' i' pos' ∧
      it.skipEmptyDataBlocks move enter (fuel + 1) = it'.skipEmptyDataBlocks move enter fuel := by
  obtain ⟨pos, hopened⟩ := (h.kept move).initDataBlock_some hmove
  refine ⟨_, hopened.onData henter, ?_⟩
  have hvalid : Iterator.valid it.index = true := L.index_follows.valid h.index
  rw [skipEmptyDataBlocks, h.dataValid, if_neg (by decide), if_pos hvalid]

/-- At the end of the index no block is open. -/
theorem Closed.skip (h : Closed L it) (hindex : L.indexAt it.index none) (fuel : ℕ) :
    Closed L (it.skipEmptyDataBlocks move enter fuel) := by
  cases fuel with
  | zero => exact h
  | succ fuel =>
    have hvalid : Iterator.valid it.index = false := L.index_follows.valid hindex
    have hdata : it.dataValid = false := by
      unfold TwoLevelIterator.dataValid
      rw [h.data]
      rfl
    have hset : it.setDataIterator none = { it with data := none } := by
      unfold setDataIterator
      rw [h.data]
    rw [skipEmptyDataBlocks, hdata, hvalid, if_neg (by decide), if_neg (by decide), hset]
    exact ⟨⟨h.blockFunction, h.status⟩, h.index, rfl⟩

/-- From the last block without an entry, a round goes to the end. -/
theorem Opened.skip_none (h : Opened L it i none) (hmove : L.indexAt (move it.index) none) (fuel : ℕ) :
    Closed L (it.skipEmptyDataBlocks move enter (fuel + 1)) := by
  have hvalid : Iterator.valid it.index = true := L.index_follows.valid h.index
  obtain ⟨hclosed, hindex⟩ := (h.kept move).initDataBlock_none hmove
  rw [skipEmptyDataBlocks, h.dataValid, if_neg (by decide), if_pos hvalid]
  exact (hclosed.onData enter).skip hindex fuel

end Skip

/-- Forward from a position of a block, or from its end. -/
theorem Opened.skipForward : ∀ {fuel : ℕ} {it : TwoLevelIterator ι δ} {i k : ℕ},
    L.index.length - i < fuel → k ≤ (partAt L.blocks i).length →
    Opened L it i (clip (partAt L.blocks i) k) →
    Stands L (it.skipEmptyDataBlocks Iterator.next Iterator.seekToFirst fuel)
      (clip L.blocks.flatten (start L.blocks i + k))
  | 0, _, _, _, hfuel, _, _ => absurd hfuel (Nat.not_lt_zero _)
  | fuel + 1, it, i, k, hfuel, hk, h => by
    obtain hlt | rfl := Nat.lt_or_eq_of_le hk
    · -- There is an entry.
      rw [clip_of_lt hlt] at h
      have hentry := getElem?_flatten L.blocks hlt
      rw [List.getElem?_eq_getElem hlt] at hentry
      rw [h.skip_valid, clip_of_lt (List.getElem?_eq_some_iff.mp hentry).1]
      exact ⟨i, k, h, rfl⟩
    · rw [clip_of_le le_rfl] at h
      rw [← start_succ]
      have hmove := L.index_follows.next h.index
      obtain hlt | hge := Nat.lt_or_ge (i + 1) L.index.length
      · rw [clip_of_lt hlt] at hmove
        obtain ⟨it', hopened, hskip⟩ := h.skip_some hmove (L.block_follows hlt).seekToFirst fuel
        rw [hskip]
        exact Opened.skipForward (by omega) (Nat.zero_le _) hopened
      · rw [clip_of_le hge] at hmove
        rw [start_of_length_le (L.length_eq ▸ hge), clip_of_le le_rfl]
        exact h.skip_none hmove fuel

/-- Backward from before a position of a block. -/
theorem Opened.skipBackward : ∀ {fuel : ℕ} {it : TwoLevelIterator ι δ} {i k : ℕ},
    i < fuel → k ≤ (partAt L.blocks i).length → Opened L it i (before k) →
    Stands L (it.skipEmptyDataBlocks Iterator.prev Iterator.seekToLast fuel)
      (before (start L.blocks i + k))
  | 0, _, _, _, hfuel, _, _ => absurd hfuel (Nat.not_lt_zero _)
  | fuel + 1, it, i, k, hfuel, hk, h => by
    obtain rfl | hpos := Nat.eq_zero_or_pos k
    · have hmove := L.index_follows.prev h.index
      cases i with
      | zero => exact h.skip_none hmove fuel
      | succ i =>
        -- The block before this one ends where it starts.
        have hi := Nat.lt_of_succ_lt h.lt_length
        obtain ⟨it', hopened, hskip⟩ := h.skip_some hmove (L.block_follows hi).seekToLast fuel
        rw [hskip, Nat.add_zero, start_succ]
        exact Opened.skipBackward (by omega) le_rfl hopened
    · rw [before, if_pos hpos] at h
      rw [h.skip_valid, before, if_pos (by omega)]
      exact ⟨i, k - 1, h, by omega⟩

/-! ## Operations -/

/-- A target is sought in the block whose separator is found in the index. -/
theorem Levels.seekPos_flatten (L : Levels ι δ cmp) (hcmp : cmp.TotalPreorder) (target : Slice) {k : ℕ}
    (hk : seekPos (fun a b => decide (cmp.Lt a b)) L.index target = k) :
    seekPos (fun a b => decide (cmp.Lt a b)) L.blocks.flatten target =
      start L.blocks k + seekPos (fun a b => decide (cmp.Lt a b)) (partAt L.blocks k) target := by
  apply Lib.seekPos_flatten
  · intro q hq
    obtain ⟨j, hj, hq⟩ := exists_of_mem_take_flatten hq
    have hlength : j < L.index.length := by
      have hle := seekPos_le_length (fun a b => decide (cmp.Lt a b)) L.index target
      omega
    obtain ⟨p, hp⟩ : ∃ p, L.index[j]? = some p := ⟨_, List.getElem?_eq_getElem hlength⟩
    have hlt := lt_of_lt_seekPos (hk ▸ hj) hp
    exact decide_eq_true (hcmp.lt_of_le_of_lt (L.le_separator hp hq) (of_decide_eq_true hlt))
  · intro q hq
    obtain ⟨j, hj, hq⟩ := exists_of_mem_drop_flatten hq
    apply decide_eq_false
    obtain hlt | hge := Nat.lt_or_ge k L.index.length
    · obtain ⟨p, hp⟩ : ∃ p, L.index[k]? = some p := ⟨_, List.getElem?_eq_getElem hlt⟩
      have hnot := of_decide_eq_false (not_lt_seekPos (hk ▸ hp))
      have hlt' := L.separator_lt hp hj hq
      exact hcmp.not_lt.mpr (hcmp.trans (hcmp.not_lt.mp hnot) hlt'.le)
    · -- There are no blocks behind the end.
      have hempty : partAt L.blocks j = [] := by
        unfold partAt
        rw [List.getD_eq_getElem?_getD, List.getElem?_eq_none (by rw [← L.length_eq]; omega)]
        rfl
      rw [hempty] at hq
      exact absurd hq List.not_mem_nil

/-- The bound of the index iterator is enough for the rounds. -/
theorem Opened.bound (h : Opened L it i pos) : L.index.length < Bounded.bound it.index + 1 :=
  Nat.lt_succ_of_le (L.bound h.index)

/-- Forward in the open block, and then to later ones. -/
theorem Opened.forward {k : ℕ} (h : Opened L it i (clip (partAt L.blocks i) k))
    (hk : k ≤ (partAt L.blocks i).length) :
    Stands L it.skipEmptyDataBlocksForward (clip L.blocks.flatten (start L.blocks i + k)) :=
  h.skipForward (lt_of_le_of_lt (Nat.sub_le _ _) h.bound) hk

/-- Backward in the open block, and then to earlier ones. -/
theorem Opened.backward {k : ℕ} (h : Opened L it i (before k)) (hk : k ≤ (partAt L.blocks i).length) :
    Stands L it.skipEmptyDataBlocksBackward (before (start L.blocks i + k)) :=
  h.skipBackward (h.lt_length.trans h.bound) hk

/-- Without an open block and behind the index, the iterator is at the end. -/
theorem Kept.closed_of_length_le (h : Kept L it) (hindex : L.indexAt it.index none) (f : δ → δ)
    (fuel : ℕ) {move : ι → ι} {enter : δ → δ} :
    Closed L ((it.initDataBlock.onData f).skipEmptyDataBlocks move enter fuel) := by
  obtain ⟨hclosed, hend⟩ := h.initDataBlock_none hindex
  exact (hclosed.onData f).skip hend fuel

/-- The index goes to a block, and its iterator to a position from which it goes forward. -/
theorem Stands.enterForward (h : Stands L it pos) {f : ι → ι} {g : δ → δ} {n k : ℕ}
    (hf : ∀ {s : ι} {pos : Option ℕ}, L.indexAt s pos → L.indexAt (f s) (clip L.index n))
    (hg : n < L.index.length → ∀ {d : δ} {pos : Option ℕ}, L.blockAt n d pos →
      L.blockAt n (g d) (clip (partAt L.blocks n) k))
    (hk : k ≤ (partAt L.blocks n).length) :
    Stands L (((it.onIndex f).initDataBlock).onData g).skipEmptyDataBlocksForward
      (clip L.blocks.flatten (start L.blocks n + k)) := by
  obtain ⟨ipos, hindex⟩ := h.index
  have hindex' := hf hindex
  obtain hlt | hge := Nat.lt_or_ge n L.index.length
  · rw [clip_of_lt hlt] at hindex'
    obtain ⟨dpos, hopened⟩ := (h.kept f).initDataBlock_some hindex'
    exact (hopened.onData (hg hlt)).forward hk
  · rw [clip_of_le hge] at hindex'
    rw [clip_of_le (by rw [start_of_length_le (L.length_eq ▸ hge)]; exact Nat.le_add_right _ _)]
    exact (h.kept f).closed_of_length_le hindex' g _

/-- `SeekToLast` leads to the last entry of the last block that has one. -/
theorem Stands.seekToLast (h : Stands L it pos) :
    Stands L it.seekToLast (before L.blocks.flatten.length) := by
  obtain ⟨ipos, hindex⟩ := h.index
  have hindex' := L.index_follows.seekToLast hindex
  unfold TwoLevelIterator.seekToLast
  obtain hzero | hpos := Nat.eq_zero_or_pos L.index.length
  · -- There are no blocks.
    have hempty : L.blocks = [] := List.length_eq_zero_iff.mp (L.length_eq ▸ hzero)
    rw [hzero] at hindex'
    rw [hempty]
    exact (h.kept _).closed_of_length_le hindex' _ _
  · rw [before, if_pos hpos] at hindex'
    obtain ⟨dpos, hopened⟩ := (h.kept _).initDataBlock_some hindex'
    have hstands := (hopened.onData (L.block_follows (by omega)).seekToLast).backward le_rfl
    rw [← start_succ, Nat.sub_add_cancel hpos, start_of_length_le L.length_eq.ge] at hstands
    exact hstands

/-- The two-level iterator moves as a cursor over the concatenation of the blocks. -/
theorem follows (L : Levels ι δ cmp) (hcmp : cmp.TotalPreorder) :
    Follows (fun a b => decide (cmp.Lt a b)) L.blocks.flatten (Stands L) where
  valid {it pos} h := by
    cases pos with
    | none =>
      change it.dataValid = false
      unfold dataValid
      rw [h.data]
      rfl
    | some n =>
      obtain ⟨i, j, hopened, -⟩ := h
      exact hopened.dataValid
  entry {it n} h := by
    -- The position is that of an entry in one block.
    obtain ⟨i, j, hopened, rfl⟩ := h
    obtain ⟨d, hd, hblock⟩ := hopened.data
    have hentry := (L.block_follows hopened.lt_length).entry hblock
    rw [getElem?_flatten L.blocks (List.getElem?_eq_some_iff.mp hentry).1, hentry]
    change _ = some ((it.data.map Iterator.key).getD [], (it.data.map Iterator.value).getD [])
    rw [hd]
    rfl
  status {it pos} h := by
    obtain ⟨ipos, hindex⟩ := h.index
    change it.getStatus = none
    unfold getStatus
    rw [L.index_follows.status hindex, Option.none_or]
    cases pos with
    | none =>
      rw [h.data, h.status]
      rfl
    | some n =>
      obtain ⟨i, j, hopened, -⟩ := h
      obtain ⟨d, hd, hblock⟩ := hopened.data
      rw [hd, hopened.status, Option.bind_some, (L.block_follows hopened.lt_length).status hblock]
      rfl
  seekToFirst {it pos} h := by
    have hstands := h.enterForward (n := 0) (k := 0) L.index_follows.seekToFirst
      (fun hlt => (L.block_follows hlt).seekToFirst) (Nat.zero_le _)
    exact hstands
  seekToLast h := h.seekToLast
  seek {it pos} target h := by
    rw [L.seekPos_flatten hcmp target rfl]
    exact h.enterForward (L.index_follows.seek target)
      (fun hlt => (L.block_follows hlt).seek target) (seekPos_le_length _ _ _)
  next {it n} h := by
    obtain ⟨i, j, hopened, rfl⟩ := h
    have hfollows := L.block_follows hopened.lt_length
    obtain ⟨d, -, hblock⟩ := hopened.data
    exact (hopened.onData hfollows.next).forward (hfollows.lt_length hblock)
  prev {it n} h := by
    obtain ⟨i, j, hopened, rfl⟩ := h
    have hfollows := L.block_follows hopened.lt_length
    obtain ⟨d, -, hblock⟩ := hopened.data
    exact (hopened.onData hfollows.prev).backward (hfollows.lt_length hblock).le

/-! ## New iterators -/

/-- The parts of a new two-level iterator: an index that is a cursor over separators and handles, and
blocks that are cursors over the entries between the separators. -/
structure Parts (cmp : Comparator) (index : List (Slice × Slice)) (blocks : List (List (Slice × Slice)))
    (blockFunction : Slice → δ) (s : ι) : Prop where
  /-- Every block has an entry in the index. -/
  length_eq : index.length = blocks.length
  /-- The index iterator is a cursor. -/
  index_cursor : IsBoundedCursor (fun a b => decide (cmp.Lt a b)) index s
  /-- What `block_function_` makes of a handle is a cursor over the block. -/
  block_cursor : ∀ {i : ℕ} {p : Slice × Slice}, index[i]? = some p →
    IsCursor (fun a b => decide (cmp.Lt a b)) (partAt blocks i) (blockFunction p.2)
  /-- The handles are different. -/
  distinct : ∀ {i j : ℕ} {p q : Slice × Slice}, index[i]? = some p → index[j]? = some q → p.2 = q.2 → i = j
  /-- The keys of a block are not above its separator. -/
  le_separator : ∀ {i : ℕ} {p q : Slice × Slice}, index[i]? = some p → q ∈ partAt blocks i → cmp.Le q.1 p.1
  /-- The keys of later blocks are. -/
  separator_lt : ∀ {i j : ℕ} {p q : Slice × Slice}, index[i]? = some p → i < j → q ∈ partAt blocks j →
    cmp.Lt p.1 q.1

/-- A new two-level iterator is a cursor over the concatenation of the blocks. -/
theorem Parts.isCursor {index : List (Slice × Slice)} {blocks : List (List (Slice × Slice))}
    {blockFunction : Slice → δ} {s : ι} (h : Parts cmp index blocks blockFunction s)
    (hcmp : cmp.TotalPreorder) :
    IsCursor (fun a b => decide (cmp.Lt a b)) blocks.flatten
      ({ blockFunction := blockFunction, index := s } : TwoLevelIterator ι δ) := by
  obtain ⟨Ri, hindex, hbound, hs⟩ := h.index_cursor
  -- The states of the iterators of a block, whatever its number.
  have hblock : ∀ i : ℕ, ∃ R : δ → Option ℕ → Prop, ∀ p, index[i]? = some p →
      Follows (fun a b => decide (cmp.Lt a b)) (partAt blocks i) R ∧ R (blockFunction p.2) none := by
    intro i
    cases hp : index[i]? with
    | none => exact ⟨fun _ _ => True, fun p hp' => absurd hp'.symm (Option.some_ne_none p)⟩
    | some p =>
      obtain ⟨R, hR⟩ := h.block_cursor hp
      refine ⟨R, fun p' hp' => ?_⟩
      obtain rfl := Option.some.inj hp'
      exact hR
  choose Rd hRd using hblock
  let L : Levels ι δ cmp :=
    { index := index
      blocks := blocks
      blockFunction := blockFunction
      indexAt := Ri
      blockAt := Rd
      length_eq := h.length_eq
      index_follows := hindex
      bound := hbound
      block_follows := fun {i} hi => (hRd i _ (List.getElem?_eq_getElem hi)).1
      opens := fun {i} p hp => (hRd i p hp).2
      distinct := h.distinct
      le_separator := h.le_separator
      separator_lt := h.separator_lt }
  exact ⟨Stands L, follows L hcmp, ⟨rfl, rfl⟩, ⟨none, hs⟩, rfl⟩

end TwoLevelIterator

end LevelDb
