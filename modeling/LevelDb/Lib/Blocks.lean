import Mathlib.Data.List.Basic
import Mathlib.Algebra.BigOperators.Group.List.Basic
import LevelDb.Lib.Buffer

/-!
# Blocks of one size

A list that is stored in blocks of one size, one after the other, the last of which it may fill only in
part. What lies at a position is found by dividing it by the size. Elements are added by writing behind
those that the last block has.
-/

namespace LevelDb.Lib

variable {α : Type}

/-- The blocks have the size `k`, and the list is what they hold, up to a part of the last one. -/
structure Stored (k : ℕ) (blocks : List (List α)) (data : List α) : Prop where
  /-- The size of a block. -/
  length_block : ∀ b ∈ blocks, b.length = k
  /-- The list is at the front. -/
  front : data <+: blocks.flatten
  /-- The last block is in use. -/
  room : blocks.flatten.length < data.length + k

/-- Blocks of one size have together their number times this size of elements. -/
theorem length_flatten_blocks {k : ℕ} {blocks : List (List α)} (h : ∀ b ∈ blocks, b.length = k) :
    blocks.flatten.length = blocks.length * k := by
  induction blocks with
  | nil => simp
  | cons b blocks ih =>
    rw [List.flatten_cons, List.length_append, h b List.mem_cons_self,
      ih fun b' hb' => h b' (List.mem_cons_of_mem b hb'), List.length_cons, Nat.succ_mul, Nat.add_comm]

/-- What lies behind a position of a block. -/
theorem drop_flatten_blocks {k : ℕ} {blocks : List (List α)} (h : ∀ b ∈ blocks, b.length = k) {i o : ℕ}
    {b : List α} (hb : blocks[i]? = some b) (ho : o ≤ k) :
    blocks.flatten.drop (i * k + o) = b.drop o ++ (blocks.drop (i + 1)).flatten := by
  obtain ⟨hi, rfl⟩ := List.getElem?_eq_some_iff.mp hb
  have hbefore : (blocks.take i).flatten.length = i * k := by
    rw [length_flatten_blocks fun b' hb' => h b' (List.mem_of_mem_take hb'), List.length_take_of_le (Nat.le_of_lt hi)]
  have hlength : blocks[i].length = k := h _ (List.getElem_mem hi)
  have hsplit : blocks.flatten =
      (blocks.take i).flatten ++ (blocks[i] ++ (blocks.drop (i + 1)).flatten) := by
    rw [← List.flatten_cons, ← List.drop_eq_getElem_cons hi, ← List.flatten_append,
      List.take_append_drop]
  rw [hsplit, ← List.drop_drop, ← hbefore, List.drop_left, List.drop_append_of_le_length (by omega)]

/-- An empty list of blocks stores the empty list. -/
theorem stored_nil {k : ℕ} (hk : 0 < k) : Stored k ([] : List (List α)) [] :=
  ⟨fun _ hb => absurd hb List.not_mem_nil, List.prefix_rfl, by simpa using hk⟩

section Stored

variable {k : ℕ} {blocks : List (List α)} {data : List α}

/-- There is a block for every position. -/
theorem Stored.exists_block (h : Stored k blocks data) {p : ℕ} (hp : p < data.length) :
    ∃ b, blocks[p / k]? = some b ∧ b.length = k := by
  have hlength := length_flatten_blocks h.length_block
  have hle := h.front.length_le
  have hlt : p / k < blocks.length := Nat.div_lt_of_lt_mul (by rw [Nat.mul_comm]; omega)
  exact ⟨blocks[p / k], List.getElem?_eq_getElem hlt, h.length_block _ (List.getElem_mem hlt)⟩

/-- Elements that lie in one block can be read from this block. -/
theorem Stored.slice (h : Stored k blocks data) {i o n : ℕ} {b : List α} (hb : blocks[i]? = some b)
    (hblock : o + n ≤ k) (hdata : i * k + o + n ≤ data.length) :
    (b.drop o).take n = (data.drop (i * k + o)).take n := by
  obtain ⟨rest, hrest⟩ := h.front
  have hlength : b.length = k := h.length_block b (List.mem_of_getElem? hb)
  have hdrop := drop_flatten_blocks (o := o) h.length_block hb (by omega)
  have hleft : n ≤ (b.drop o).length := by rw [List.length_drop]; omega
  have hright : n ≤ (data.drop (i * k + o)).length := by rw [List.length_drop]; omega
  rw [← hrest, List.drop_append_of_le_length (by omega)] at hdrop
  calc (b.drop o).take n = (b.drop o ++ (blocks.drop (i + 1)).flatten).take n :=
        (List.take_append_of_le_length hleft).symm
    _ = (data.drop (i * k + o) ++ rest).take n := by rw [hdrop]
    _ = (data.drop (i * k + o)).take n := List.take_append_of_le_length hright

/-- Between the blocks, all blocks are full. -/
theorem Stored.full (h : Stored k blocks data) (hmod : data.length % k = 0) :
    data.length = blocks.length * k := by
  have hlength := length_flatten_blocks h.length_block
  have hle := h.front.length_le
  have hlt := h.room
  obtain ⟨q, hq⟩ := Nat.dvd_of_mod_eq_zero hmod
  rw [hlength, hq] at hle hlt
  have hle' : q ≤ blocks.length := by
    refine Nat.le_of_mul_le_mul_left (c := k) ?_ (by omega)
    rwa [Nat.mul_comm k blocks.length]
  have hlt' : blocks.length < q + 1 := by
    refine Nat.lt_of_mul_lt_mul_left (a := k) ?_
    rwa [Nat.mul_comm k blocks.length, Nat.mul_succ]
  rw [hq, Nat.le_antisymm hle' (Nat.le_of_lt_succ hlt'), Nat.mul_comm]

/-- Inside of a block, that block is the last one. -/
theorem Stored.partial_last (h : Stored k blocks data) (hmod : data.length % k ≠ 0) :
    ∃ init last, blocks = init ++ [last] ∧ data.length = init.length * k + data.length % k := by
  have hlength := length_flatten_blocks h.length_block
  have hle := h.front.length_le
  have hlt := h.room
  obtain rfl | ⟨init, last, rfl⟩ := List.eq_nil_or_concat blocks
  · have hdata : data.length = 0 := by simpa using hle
    exact absurd (by rw [hdata, Nat.zero_mod]) hmod
  · rw [hlength, List.concat_eq_append, List.length_append, List.length_singleton, Nat.succ_mul] at hle hlt
    refine ⟨init, last, List.concat_eq_append, ?_⟩
    -- the length is above `init.length * k`, at most one block more, and not at the end of that one
    obtain ⟨r, hr⟩ : ∃ r, data.length = init.length * k + r := ⟨data.length - init.length * k, by omega⟩
    have hne : r ≠ k := by
      rintro rfl
      exact hmod (by rw [hr, ← Nat.succ_mul, Nat.mul_mod_left])
    rw [hr, Nat.mul_add_mod_of_lt (by omega)]

/-- Elements are written behind those that the last block has. -/
theorem stored_overwrite {init : List (List α)} {last chunk : List α}
    (hblocks : ∀ b ∈ init ++ [last], b.length = k) (hfront : data <+: (init ++ [last]).flatten) {o : ℕ}
    (hdata : data.length = init.length * k + o) (hroom : o + chunk.length ≤ k) (hchunk : chunk ≠ []) :
    Stored k (init ++ [overwrite last o chunk]) (data ++ chunk) := by
  have hinit : init.flatten.length = init.length * k :=
    length_flatten_blocks fun b hb => hblocks b (List.mem_append_left _ hb)
  have hlast : last.length = k := hblocks last (by simp)
  have hpos := List.length_pos_iff.mpr hchunk
  have hnew : (overwrite last o chunk).length = k := by
    unfold overwrite
    rw [List.length_append, List.length_append, List.length_take, List.length_drop]
    omega
  have hall : ∀ b ∈ init ++ [overwrite last o chunk], b.length = k := by
    intro b hb
    obtain hb | hb := List.mem_append.mp hb
    · exact hblocks b (List.mem_append_left _ hb)
    · rw [List.mem_singleton.mp hb, hnew]
  have hsplit : data = init.flatten ++ last.take o := by
    rw [List.prefix_iff_eq_take.mp hfront, List.flatten_append, List.flatten_singleton, hdata, ← hinit,
      List.take_length_add_append]
  refine ⟨hall, ⟨last.drop (o + chunk.length), ?_⟩, ?_⟩
  · rw [hsplit, List.flatten_append, List.flatten_singleton]
    unfold overwrite
    simp only [List.append_assoc]
  · rw [length_flatten_blocks hall, List.length_append, List.length_append, List.length_singleton,
      Nat.succ_mul, hdata]
    omega

end Stored

end LevelDb.Lib
