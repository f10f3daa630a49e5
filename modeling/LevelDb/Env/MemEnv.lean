import LevelDb.Lib.Blocks
import LevelDb.Version.Edit

/-!
# The file in memory

`FileState` and `SequentialFileImpl` of `helpers/memenv/memenv.cc`. The bytes of a file are in blocks of
`kBlockSize` bytes, which `Append` allocates when it has a byte to put into them. `Read` returns a slice of
one block, or copies from several ones. The file is a string of bytes (`memFile_byte_string`): what has been
appended is read at every offset, and reads and skips from the front are those of a cursor over the string.

Sizes and offsets are below `2^64` as the bytes are in memory, and the code only adds to a position what it
has found to be there, so that no sum is out of range.
-/

namespace LevelDb.MemEnv

open Lib

/-! ## `FileState` -/

/-- `kBlockSize` -/
def kBlockSize : ℕ := 8 * 1024

/-- `FileState` -/
structure FileState where
  /-- `blocks_` -/
  blocks : List Slice
  /-- `size_` -/
  size : ℕ

/-- `FileState()` -/
def FileState.empty : FileState := ⟨[], 0⟩

/-- `new char[kBlockSize]` for block `i`, which has the bytes that were there before. -/
def newBlock (heap : ℕ → Slice) (i : ℕ) : Slice := resize 0 kBlockSize (heap i)

/-- `memcpy` to an offset of a block. There is no such call beyond the end of the block. -/
def memcpy (block : Slice) (offset : ℕ) (src : Slice) : Option Slice :=
  if offset + src.length ≤ block.length then some (overwrite block offset src) else none

/-- The loop of `Append`, with at most `fuel` rounds. There is no value when the fuel is not enough, and
when `blocks_.back()` is taken of no blocks. -/
def FileState.appendLoop (heap : ℕ → Slice) : ℕ → FileState → Slice → Option FileState
  | 0, f, src => if src.length > 0 then none else some f
  | fuel + 1, f, src =>
    if src.length > 0 then do
      let offset := f.size % kBlockSize
      -- There is some room in the last block, or no room, so that a new one is pushed.
      let blocks := if offset ≠ 0 then f.blocks else f.blocks ++ [newBlock heap f.blocks.length]
      let room := if offset ≠ 0 then kBlockSize - offset else kBlockSize
      let avail := if room > src.length then src.length else room
      let back ← blocks.getLast?
      let back ← memcpy back offset (src.take avail)
      appendLoop heap fuel ⟨blocks.dropLast ++ [back], f.size + avail⟩ (src.drop avail)
    else some f

/-- `FileState::Append` -/
def FileState.append (heap : ℕ → Slice) (f : FileState) (data : Slice) : Option FileState :=
  f.appendLoop heap data.length data

/-- One call of `Append` after the other. -/
def FileState.appendAll (heap : ℕ → Slice) (f : FileState) (datas : List Slice) : Option FileState :=
  datas.foldlM (fun f data => f.append heap data) f

/-- `blocks_[block] + block_offset` as the start of `n` bytes. There is no value outside of the block. -/
def FileState.bytesAt (f : FileState) (block blockOffset n : ℕ) : Option Slice := do
  let b ← f.blocks[block]?
  if blockOffset + n ≤ b.length then some ((b.drop blockOffset).take n) else none

/-- The loop of `Read` with what has been copied to `scratch`, with at most `fuel` rounds. -/
def FileState.copyLoop (f : FileState) : ℕ → ℕ → ℕ → ℕ → Slice → Option Slice
  | 0, bytesToCopy, _, _, scratch => if bytesToCopy > 0 then none else some scratch
  | fuel + 1, bytesToCopy, block, blockOffset, scratch =>
    if bytesToCopy > 0 then do
      let avail := kBlockSize - blockOffset
      let avail := if avail > bytesToCopy then bytesToCopy else avail
      let bytes ← f.bytesAt block blockOffset avail
      copyLoop f fuel (bytesToCopy - avail) (block + 1) 0 (scratch ++ bytes)
    else some scratch

/-- `FileState::Read`. There is no value when it reads outside of a block. -/
def FileState.read (f : FileState) (offset n : ℕ) : Option (Except Status Slice) :=
  if offset > f.size then some (.error (.ioError (ascii "Offset greater than file size.")))
  else
    let available := f.size - offset
    let n := if n > available then available else n
    if n = 0 then some (.ok [])
    else
      let block := offset / kBlockSize
      let blockOffset := offset % kBlockSize
      if n ≤ kBlockSize - blockOffset then
        -- The requested bytes are all in the first block.
        (f.bytesAt block blockOffset n).map .ok
      else (f.copyLoop n n block blockOffset []).map .ok

/-! ## `SequentialFileImpl` -/

/-- A call of a `SequentialFileImpl`. -/
inductive Call where
  /-- `Read` -/
  | read (n : ℕ)
  /-- `Skip` -/
  | skip (n : ℕ)

/-- `SequentialFileImpl::Read` at `pos_`, with the new `pos_`. -/
def sequentialRead (f : FileState) (pos n : ℕ) : Option (Except Status Slice × ℕ) :=
  (f.read pos n).map fun s =>
    match s with
    | .ok result => (.ok result, pos + result.length)
    | .error s => (.error s, pos)

/-- `SequentialFileImpl::Skip` at `pos_`, with the new `pos_`. It has no bytes to return. -/
def sequentialSkip (f : FileState) (pos n : ℕ) : Except Status Slice × ℕ :=
  if pos > f.size then (.error (.ioError (ascii "pos_ > file_->Size()")), pos)
  else
    let available := f.size - pos
    let n := if n > available then available else n
    (.ok [], pos + n)

/-- A call at `pos_`. -/
def sequentialCall (f : FileState) (pos : ℕ) : Call → Option (Except Status Slice × ℕ)
  | .read n => sequentialRead f pos n
  | .skip n => some (sequentialSkip f pos n)

/-- The results of some calls, and `pos_` after them. -/
def sequentialCalls (f : FileState) : ℕ → List Call → Option (List (Except Status Slice) × ℕ)
  | pos, [] => some ([], pos)
  | pos, call :: calls => do
    let (result, pos) ← sequentialCall f pos call
    let (results, pos) ← sequentialCalls f pos calls
    return (result :: results, pos)

/-! ## A string of bytes -/

/-- The bytes of a string that there are from `offset` on, at most `n`. -/
def bytesFrom (data : Slice) (offset n : ℕ) : Slice := data.extract offset (min (offset + n) data.length)

/-- A call of a cursor over a string: a read returns the bytes that are there, and both kinds of calls move
the cursor to the end at most. -/
def cursorCall (data : Slice) (pos : ℕ) : Call → Slice × ℕ
  | .read n => (bytesFrom data pos n, min (pos + n) data.length)
  | .skip n => ([], min (pos + n) data.length)

/-- The results of some calls of a cursor, and its position after them. -/
def cursorCalls (data : Slice) : ℕ → List Call → List Slice × ℕ
  | pos, [] => ([], pos)
  | pos, call :: calls =>
    let (result, pos) := cursorCall data pos call
    let (results, pos) := cursorCalls data pos calls
    (result :: results, pos)

/-- The file has the bytes. -/
structure FileState.Holds (f : FileState) (data : Slice) : Prop where
  /-- Its size is theirs. -/
  size : f.size = data.length
  /-- They are in its blocks. -/
  stored : Stored kBlockSize f.blocks data

/-- The bytes from an offset on are those that `drop` and `take` give. -/
theorem bytesFrom_eq (data : Slice) (offset n : ℕ) : bytesFrom data offset n = (data.drop offset).take n := by
  unfold bytesFrom
  rw [List.extract_eq_take_drop, List.take_eq_take_min (i := n), List.length_drop,
    ← Nat.sub_min_sub_right, Nat.add_sub_cancel_left]

/-- How the code bounds a size by what is available. -/
theorem clip_eq (n available : ℕ) : (if n > available then available else n) = min n available := by
  split_ifs <;> omega

/-- The new file has no bytes. -/
theorem empty_holds : FileState.empty.Holds [] := ⟨rfl, stored_nil (by decide)⟩

/-! ## What `Append` does -/

section Append

variable {f : FileState} {data : Slice}

/-- The blocks that a round of `Append` writes to: there is a last one, and behind the bytes of the file
there is room in it. -/
theorem FileState.Holds.room (h : f.Holds data) (heap : ℕ → Slice) :
    ∃ init last,
      (if f.size % kBlockSize ≠ 0 then f.blocks else f.blocks ++ [newBlock heap f.blocks.length]) =
        init ++ [last] ∧
      (∀ b ∈ init ++ [last], b.length = kBlockSize) ∧ data <+: (init ++ [last]).flatten ∧
      data.length = init.length * kBlockSize + f.size % kBlockSize := by
  rw [h.size]
  by_cases hmod : data.length % kBlockSize = 0
  -- All blocks are full, and a new one is pushed.
  · refine ⟨f.blocks, newBlock heap f.blocks.length, if_neg (not_not_intro hmod), ?_, ?_, ?_⟩
    · intro b hb
      obtain hb | hb := List.mem_append.mp hb
      · exact h.stored.length_block b hb
      · rw [List.mem_singleton.mp hb, newBlock, length_resize]
    · rw [List.flatten_append]
      exact h.stored.front.trans (List.prefix_append _ _)
    · rw [hmod, ← h.stored.full hmod, Nat.add_zero]
  · obtain ⟨init, last, hblocks, hlength⟩ := h.stored.partial_last hmod
    refine ⟨init, last, by rw [if_pos hmod, hblocks], ?_, ?_, hlength⟩
    · rw [← hblocks]
      exact h.stored.length_block
    · rw [← hblocks]
      exact h.stored.front

/-- The loop of `Append` ends, and adds the bytes that are left to the file. -/
theorem appendLoop_holds (heap : ℕ → Slice) : ∀ (fuel : ℕ) (f : FileState) (data src : Slice),
    src.length ≤ fuel → f.Holds data → ∃ f', f.appendLoop heap fuel src = some f' ∧ f'.Holds (data ++ src)
  | 0, f, data, src, hfuel, h => by
    have hnil : src = [] := List.eq_nil_of_length_eq_zero (Nat.le_zero.mp hfuel)
    refine ⟨f, ?_, by rwa [hnil, List.append_nil]⟩
    rw [FileState.appendLoop, if_neg (by simp [hnil])]
  | fuel + 1, f, data, src, hfuel, h => by
    by_cases hpos : src.length > 0
    · obtain ⟨init, last, hblocks, hall, hfront, hlength⟩ := h.room heap
      have hmod : f.size % kBlockSize < kBlockSize := Nat.mod_lt _ (by decide)
      rw [FileState.appendLoop, if_pos hpos]
      simp only [hblocks]
      generalize hoffset : f.size % kBlockSize = offset at hlength hmod ⊢
      have hroom : (if offset ≠ 0 then kBlockSize - offset else kBlockSize) = kBlockSize - offset := by
        split_ifs <;> omega
      rw [hroom, clip_eq]
      -- A round writes one byte at least, and no more than there is room for.
      generalize hmin : min (kBlockSize - offset) src.length = avail
      have hchunk : (src.take avail).length = avail := List.length_take_of_le (by omega)
      have hfits : offset + (src.take avail).length ≤ last.length := by
        rw [hchunk, hall last (by simp)]
        omega
      have hround : Stored kBlockSize (init ++ [overwrite last offset (src.take avail)])
          (data ++ src.take avail) :=
        stored_overwrite hall hfront hlength (by omega) (List.ne_nil_of_length_pos (by omega))
      obtain ⟨f', hf', hholds⟩ := appendLoop_holds heap fuel
        ⟨init ++ [overwrite last offset (src.take avail)], f.size + avail⟩ (data ++ src.take avail)
        (src.drop avail) (by rw [List.length_drop]; omega)
        ⟨by rw [List.length_append, hchunk, h.size], hround⟩
      refine ⟨f', ?_, ?_⟩
      · rw [← hf', List.getLast?_concat, Option.bind_eq_bind, Option.bind_some, memcpy, if_pos hfits,
          Option.bind_some, List.dropLast_concat]
      · rwa [List.append_assoc, List.take_append_drop] at hholds
    · have hnil : src = [] := List.eq_nil_of_length_eq_zero (by omega)
      refine ⟨f, ?_, by rwa [hnil, List.append_nil]⟩
      rw [FileState.appendLoop, if_neg hpos]

/-- `Append` adds bytes to the file. -/
theorem append_holds (heap : ℕ → Slice) (h : f.Holds data) (src : Slice) :
    ∃ f', f.append heap src = some f' ∧ f'.Holds (data ++ src) :=
  appendLoop_holds heap src.length f data src le_rfl h

/-- Calls of `Append` add all of their bytes. -/
theorem appendAll_holds (heap : ℕ → Slice) (datas : List Slice) : ∀ {f : FileState} {data : Slice},
    f.Holds data → ∃ f', f.appendAll heap datas = some f' ∧ f'.Holds (data ++ datas.flatten) := by
  induction datas with
  | nil =>
    intro f data h
    exact ⟨f, rfl, by rwa [List.flatten_nil, List.append_nil]⟩
  | cons src datas ih =>
    intro f data h
    obtain ⟨f₁, hf₁, h₁⟩ := append_holds heap h src
    obtain ⟨f', hf', h'⟩ := ih h₁
    refine ⟨f', ?_, by rwa [List.append_assoc] at h'⟩
    rw [← hf', FileState.appendAll, List.foldlM_cons, hf₁]
    rfl

end Append

/-! ## What `Read` returns -/

section Read

variable {f : FileState} {data : Slice}

/-- Bytes of the file that lie in one block. -/
theorem bytesAt_holds (h : f.Holds data) {block blockOffset n : ℕ} (hn : 0 < n)
    (hblock : blockOffset + n ≤ kBlockSize) (hdata : block * kBlockSize + blockOffset + n ≤ data.length) :
    f.bytesAt block blockOffset n = some ((data.drop (block * kBlockSize + blockOffset)).take n) := by
  have hdiv : (block * kBlockSize + blockOffset) / kBlockSize = block := by
    rw [Nat.mul_comm, Nat.mul_add_div (by decide), Nat.div_eq_of_lt (by omega), Nat.add_zero]
  obtain ⟨b, hb, hlength⟩ := h.stored.exists_block (p := block * kBlockSize + blockOffset) (by omega)
  rw [hdiv] at hb
  rw [FileState.bytesAt, hb, Option.bind_eq_bind, Option.bind_some, if_pos (by rw [hlength]; omega),
    h.stored.slice hb hblock hdata]

/-- The loop of `Read` ends, and copies the bytes from its position on. The position is only used as long as
there are bytes to copy. -/
theorem copyLoop_holds (h : f.Holds data) : ∀ (fuel bytesToCopy block blockOffset : ℕ) (scratch : Slice),
    bytesToCopy ≤ fuel → blockOffset < kBlockSize →
    (bytesToCopy = 0 ∨ block * kBlockSize + blockOffset + bytesToCopy ≤ data.length) →
    f.copyLoop fuel bytesToCopy block blockOffset scratch =
      some (scratch ++ (data.drop (block * kBlockSize + blockOffset)).take bytesToCopy)
  | 0, bytesToCopy, block, blockOffset, scratch, hfuel, _, _ => by
    obtain rfl : bytesToCopy = 0 := Nat.le_zero.mp hfuel
    rw [FileState.copyLoop, if_neg (lt_irrefl 0), List.take_zero, List.append_nil]
  | fuel + 1, bytesToCopy, block, blockOffset, scratch, hfuel, hoffset, hdata => by
    by_cases hpos : bytesToCopy > 0
    · rw [FileState.copyLoop, if_pos hpos]
      dsimp only
      rw [clip_eq]
      generalize hmin : min (kBlockSize - blockOffset) bytesToCopy = avail
      have hbytes : f.bytesAt block blockOffset avail =
          some ((data.drop (block * kBlockSize + blockOffset)).take avail) :=
        bytesAt_holds h (by omega) (by omega) (by omega)
      -- Either this round copies all, or the next one begins where a block begins.
      have hnext : bytesToCopy - avail = 0 ∨
          (block + 1) * kBlockSize = block * kBlockSize + blockOffset + avail := by
        rw [Nat.succ_mul]
        omega
      have hih := copyLoop_holds h fuel (bytesToCopy - avail) (block + 1) 0
        (scratch ++ (data.drop (block * kBlockSize + blockOffset)).take avail) (by omega) (by decide)
        (by omega)
      rw [hbytes, Option.bind_eq_bind, Option.bind_some, hih, List.append_assoc, Nat.add_zero]
      congr 2
      obtain hzero | hnext := hnext
      · rw [hzero, List.take_zero, List.append_nil, show avail = bytesToCopy by omega]
      · rw [hnext, ← List.drop_drop (i := avail), ← List.take_add, Nat.add_sub_cancel' (by omega)]
    · obtain rfl : bytesToCopy = 0 := by omega
      rw [FileState.copyLoop, if_neg hpos, List.take_zero, List.append_nil]

/-- `Read` returns the bytes that there are from the offset on, unless the offset is behind the file. -/
theorem read_holds (h : f.Holds data) (offset n : ℕ) :
    f.read offset n = some (if offset > data.length then
      .error (.ioError (ascii "Offset greater than file size.")) else .ok (bytesFrom data offset n)) := by
  rw [FileState.read, h.size]
  by_cases hoffset : offset > data.length
  · rw [if_pos hoffset, if_pos hoffset]
  · rw [if_neg hoffset, if_neg hoffset, bytesFrom_eq, List.take_eq_take_min, List.length_drop]
    dsimp only
    rw [clip_eq]
    generalize hmin : min n (data.length - offset) = m
    have hmod : offset % kBlockSize < kBlockSize := Nat.mod_lt _ (by decide)
    have hposition : offset / kBlockSize * kBlockSize + offset % kBlockSize = offset := by
      rw [Nat.mul_comm, Nat.div_add_mod]
    by_cases hzero : m = 0
    · rw [if_pos hzero, hzero, List.take_zero]
    · rw [if_neg hzero]
      by_cases hone : m ≤ kBlockSize - offset % kBlockSize
      · rw [if_pos hone, bytesAt_holds h (by omega) (by omega) (by omega), hposition]
        rfl
      · rw [if_neg hone, copyLoop_holds h m m _ _ [] le_rfl hmod (by omega), hposition]
        rfl

/-- A call of a `SequentialFileImpl` is one of a cursor. -/
theorem sequentialCall_holds (h : f.Holds data) {pos : ℕ} (hpos : pos ≤ data.length) (call : Call) :
    sequentialCall f pos call = some (.ok (cursorCall data pos call).1, (cursorCall data pos call).2) := by
  cases call with
  | read n =>
    have hlength : pos + (bytesFrom data pos n).length = min (pos + n) data.length := by
      rw [bytesFrom_eq, List.length_take, List.length_drop]
      omega
    rw [sequentialCall, sequentialRead, read_holds h, if_neg (by omega)]
    simp only [Option.map_some, cursorCall, hlength]
  | skip n =>
    have hend : pos + min n (data.length - pos) = min (pos + n) data.length := by omega
    rw [sequentialCall, sequentialSkip, h.size, if_neg (by omega), cursorCall]
    dsimp only
    rw [clip_eq, hend]

/-- Calls of a `SequentialFileImpl` are those of a cursor. -/
theorem sequentialCalls_holds (h : f.Holds data) (calls : List Call) : ∀ pos ≤ data.length,
    sequentialCalls f pos calls =
      some ((cursorCalls data pos calls).1.map .ok, (cursorCalls data pos calls).2) := by
  induction calls with
  | nil => exact fun pos _ => rfl
  | cons call calls ih =>
    intro pos hpos
    have hnext : (cursorCall data pos call).2 ≤ data.length := by
      cases call <;> exact min_le_right _ _
    rw [sequentialCalls, sequentialCall_holds h hpos, Option.bind_eq_bind, Option.bind_some]
    dsimp only
    rw [ih _ hnext]
    rfl

end Read

/-- A file in memory is a string of bytes. After appends of any sizes it has the concatenation, of which a
read at any offset returns what is there, and an error only when the offset is greater than the size. The
reads and skips of a `SequentialFileImpl` are those of a cursor that stops at the end. -/
theorem memFile_byte_string (heap : ℕ → Slice) (datas : List Slice) :
    ∃ f, FileState.empty.appendAll heap datas = some f ∧ f.size = datas.flatten.length ∧
      (∀ offset n, f.read offset n = some (if offset > datas.flatten.length then
        .error (.ioError (ascii "Offset greater than file size."))
        else .ok (datas.flatten.extract offset (min (offset + n) datas.flatten.length)))) ∧
      ∀ calls, sequentialCalls f 0 calls =
        some ((cursorCalls datas.flatten 0 calls).1.map .ok, (cursorCalls datas.flatten 0 calls).2) := by
  obtain ⟨f, hf, h⟩ := appendAll_holds heap datas empty_holds
  exact ⟨f, hf, h.size, read_holds h, fun calls => sequentialCalls_holds h calls 0 (Nat.zero_le _)⟩

end LevelDb.MemEnv
