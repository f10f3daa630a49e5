import LevelDb.Lib.Regions

/-!
# The arena

`Arena` of `util/arena.cc`, with sizes and addresses of a machine whose pointers have `2^k` bytes. A call
gets its memory from the run-time system, which may also throw; of `new char[]` and of the array that
`blocks_` allocates only their contract is assumed (`Supply.Sound`): new memory is in the address space and
disjoint from all that is still in use.

The regions that a run of calls returns are carved out of the blocks (`Carved`), as long as the sum
`bytes + slop` of `AllocateAligned` does not get out of the range of `size_t` (`Call.Fits`). If it does,
what is returned is not inside a block (`arena_good_iff`).
-/

namespace LevelDb

open Lib

/-! ## The state -/

/-- `Arena`. No function reads the last two fields. -/
structure Arena where
  /-- `alloc_ptr_`, where `NULL` is 0. -/
  allocPtr : ℕ
  /-- `alloc_bytes_remaining_` -/
  allocBytesRemaining : ℕ
  /-- `blocks_`. The run-time system knows the sizes of the blocks. -/
  blocks : List Region
  /-- The array of `blocks_`. -/
  array : ℕ
  /-- `blocks_.capacity()` -/
  capacity : ℕ
  /-- `blocks_memory_` -/
  blocksMemory : ℕ
  /-- The current block: the last one that `alloc_ptr_` has been set to. -/
  current : Option Region
  /-- The blocks for which `blocks_` did not get an array. -/
  leaked : List Region

namespace Arena

/-- `sizeof(void*)` -/
def pointerSize (k : ℕ) : ℕ := 2^k

/-- How many values a `size_t` has. -/
def sizeRange (k : ℕ) : ℕ := 2^(8 * pointerSize k)

/-- `kBlockSize` -/
def kBlockSize : ℕ := 4096

/-- `Arena()` -/
def new : Arena where
  allocPtr := 0
  allocBytesRemaining := 0
  blocks := []
  array := 0
  capacity := 0
  blocksMemory := 0
  current := none
  leaked := []

/-- What the run-time system has for a call. -/
structure Supply where
  /-- The address that `new char[]` returns, unless it throws. -/
  block : Option ℕ
  /-- The array, and the capacity, that `blocks_` gets when it has to grow, unless that throws. -/
  storage : Option (ℕ × ℕ)

/-! ## The functions -/

/-- `Arena::AllocateNewBlock`. There is no result if there is an exception. -/
def allocateNewBlock (k : ℕ) (a : Arena) (blockBytes : ℕ) (supply : Supply) : Option ℕ × Arena :=
  match supply.block with
  | none => (none, a)
  | some result =>
    let a := { a with blocksMemory := (a.blocksMemory + blockBytes) % sizeRange k }
    -- `blocks_.push_back(result)`
    if a.blocks.length < a.capacity then
      (some result, { a with blocks := a.blocks ++ [⟨result, blockBytes⟩] })
    else
      match supply.storage with
      | none => (none, { a with leaked := ⟨result, blockBytes⟩ :: a.leaked })
      | some (array, capacity) => (some result,
          { a with blocks := a.blocks ++ [⟨result, blockBytes⟩], array := array, capacity := capacity })

/-- `Arena::AllocateFallback` -/
def allocateFallback (k : ℕ) (a : Arena) (bytes : ℕ) (supply : Supply) : Option ℕ × Arena :=
  if bytes > kBlockSize / 4 then
    -- Object is more than a quarter of our block size.  Allocate it separately
    -- to avoid wasting too much space in leftover bytes.
    a.allocateNewBlock k bytes supply
  else
    -- We waste the remaining space in the current block.
    match a.allocateNewBlock k kBlockSize supply with
    | (none, a) => (none, a)
    | (some result, a) => (some result, { a with
        allocPtr := (result + bytes) % sizeRange k
        allocBytesRemaining := kBlockSize - bytes
        current := some ⟨result, kBlockSize⟩ })

/-- `Arena::Allocate` -/
def allocate (k : ℕ) (a : Arena) (bytes : ℕ) (supply : Supply) : Option ℕ × Arena :=
  if bytes ≤ a.allocBytesRemaining then
    (some a.allocPtr, { a with
      allocPtr := (a.allocPtr + bytes) % sizeRange k
      allocBytesRemaining := a.allocBytesRemaining - bytes })
  else a.allocateFallback k bytes supply

/-- `slop` in `AllocateAligned`. -/
def slop (k ptr : ℕ) : ℕ :=
  let align := pointerSize k
  let currentMod := ptr &&& (align - 1)
  if currentMod = 0 then 0 else align - currentMod

/-- `Arena::AllocateAligned` -/
def allocateAligned (k : ℕ) (a : Arena) (bytes : ℕ) (supply : Supply) : Option ℕ × Arena :=
  let needed := (bytes + slop k a.allocPtr) % sizeRange k
  if needed ≤ a.allocBytesRemaining then
    (some ((a.allocPtr + slop k a.allocPtr) % sizeRange k), { a with
      allocPtr := (a.allocPtr + needed) % sizeRange k
      allocBytesRemaining := a.allocBytesRemaining - needed })
  else a.allocateFallback k bytes supply

/-- `Arena::MemoryUsage` -/
def memoryUsage (k : ℕ) (a : Arena) : ℕ :=
  (a.blocksMemory + a.capacity * pointerSize k % sizeRange k) % sizeRange k

/-! ## Runs -/

/-- A call of `AllocateAligned` or of `Allocate`. -/
structure Call where
  /-- Which one it is. -/
  aligned : Bool
  /-- `bytes` -/
  bytes : ℕ

/-- What a call does. -/
def call (k : ℕ) (a : Arena) (c : Call) (supply : Supply) : Option ℕ × Arena :=
  if c.aligned then a.allocateAligned k c.bytes supply else a.allocate k c.bytes supply

/-- The size for which a call asks when it needs a new block. -/
def Call.blockBytes (c : Call) : ℕ := if c.bytes > kBlockSize / 4 then c.bytes else kBlockSize

/-- The memory of the array of `blocks_`. -/
def storage (k : ℕ) (a : Arena) : Region := ⟨a.array, a.capacity * pointerSize k⟩

/-- The contract of `new char[n]` and of the array of `blocks_`. There may be nothing that a call does not
need. -/
structure Supply.Sound (k : ℕ) (a : Arena) (n : ℕ) (supply : Supply) : Prop where
  /-- A block is in the address space, and nothing else is in it. -/
  block : ∀ p, supply.block = some p → 0 < p ∧ p + n < sizeRange k ∧
    (∀ b ∈ a.blocks ++ a.leaked, Region.Disjoint ⟨p, n⟩ b) ∧ Region.Disjoint ⟨p, n⟩ (a.storage k)
  /-- The array has room for one element more. It is in the address space, and nothing else is in it. -/
  storage : ∀ array capacity, supply.storage = some (array, capacity) → a.blocks.length < capacity ∧
    array + capacity * pointerSize k < sizeRange k ∧
    (∀ b ∈ a.blocks ++ a.leaked, Region.Disjoint ⟨array, capacity * pointerSize k⟩ b) ∧
    ∀ p, supply.block = some p → Region.Disjoint ⟨array, capacity * pointerSize k⟩ ⟨p, n⟩

/-- A call of a run. -/
structure Step where
  /-- The call. -/
  call : Call
  /-- What the run-time system has for it. -/
  supply : Supply

/-- A region that a call has returned. -/
structure Served where
  /-- The bytes that have been requested, from the result on. -/
  region : Region
  /-- It was `AllocateAligned`. -/
  aligned : Bool

/-- An arena, and what its calls have returned, the newest first. -/
structure Session where
  /-- The arena. -/
  arena : Arena
  /-- What has been returned. -/
  served : List Served

/-- A new arena. -/
def Session.new : Session := ⟨Arena.new, []⟩

/-- What a call does to a session. -/
def Session.step (k : ℕ) (s : Session) (x : Step) : Session :=
  match s.arena.call k x.call x.supply with
  | (none, arena) => ⟨arena, s.served⟩
  | (some result, arena) => ⟨arena, ⟨⟨result, x.call.bytes⟩, x.call.aligned⟩ :: s.served⟩

/-- The session after some calls. -/
def Session.after (k : ℕ) (s : Session) (steps : List Step) : Session := steps.foldl (Session.step k) s

/-- The calls are possible: no size is 0 or out of the range of `size_t`, and the run-time system keeps its
contract. -/
def Session.Possible (k : ℕ) (s : Session) : List Step → Prop
  | [] => True
  | x :: steps => 0 < x.call.bytes ∧ x.call.bytes < sizeRange k ∧
      x.supply.Sound k s.arena x.call.blockBytes ∧ (s.step k x).Possible k steps

/-- The sum of the size and the slop is in the range of `size_t`, or what it wraps to does not fit into the
current block. -/
def Call.Fits (k : ℕ) (a : Arena) (c : Call) : Prop :=
  c.aligned = true → c.bytes + slop k a.allocPtr < sizeRange k ∨
    a.allocBytesRemaining < (c.bytes + slop k a.allocPtr) % sizeRange k

/-- That is so for all calls of a run. -/
def Session.Fits (k : ℕ) (s : Session) : List Step → Prop
  | [] => True
  | x :: steps => x.call.Fits k s.arena ∧ (s.step k x).Fits k steps

/-- `alloc_ptr_` and `alloc_bytes_remaining_` lead to the end of the current block. -/
def EndsBlock (a : Arena) : Prop :=
  match a.current with
  | none => a.allocPtr = 0 ∧ a.allocBytesRemaining = 0
  | some b => b ∈ a.blocks ∧ a.allocPtr + a.allocBytesRemaining = b.stop

/-- What is expected of an arena. -/
structure Session.Good (k : ℕ) (s : Session) : Prop where
  /-- What has been returned is disjoint. -/
  disjoint : (s.served.map Served.region).Pairwise Region.Disjoint
  /-- It is inside of blocks. -/
  inside : ∀ r ∈ s.served, ∃ b ∈ s.arena.blocks, r.region.Within b
  /-- It is aligned if that has been requested, and blocks are. -/
  aligned : (∀ b ∈ s.arena.blocks, pointerSize k ∣ b.base) →
    ∀ r ∈ s.served, r.aligned = true → pointerSize k ∣ r.region.base
  /-- What is left of the current block is its end. -/
  ends : s.arena.EndsBlock
  /-- The memory in use is at least what has been requested. -/
  usage : (s.served.map fun r => r.region.size).sum ≤ s.arena.memoryUsage k

/-! ## Memory -/

/-- All memory in use. -/
def memory (k : ℕ) (a : Arena) : List Region := a.storage k :: (a.blocks ++ a.leaked)

/-- The arena keeps the memory that it has got, and counts it. -/
structure Allocated (k : ℕ) (a : Arena) : Prop where
  /-- It is in the address space. -/
  stop_lt : ∀ r ∈ a.memory k, r.stop < sizeRange k
  /-- No block is at `NULL`. -/
  pos : ∀ b ∈ a.blocks ++ a.leaked, 0 < b.base
  /-- It is disjoint. -/
  disjoint : (a.memory k).Pairwise Region.Disjoint
  /-- The counter. -/
  counted : a.blocksMemory = ((a.blocks ++ a.leaked).map Region.size).sum % sizeRange k

/-- `alloc_ptr_`, `alloc_bytes_remaining_` and the current block are kept. -/
structure Keeps (a a' : Arena) : Prop where
  /-- The pointer. -/
  allocPtr : a'.allocPtr = a.allocPtr
  /-- What remains. -/
  allocBytesRemaining : a'.allocBytesRemaining = a.allocBytesRemaining
  /-- The block. -/
  current : a'.current = a.current

section

variable {k n p : ℕ} {a a' : Arena} {supply : Supply}

/-- A new arena has no memory. -/
theorem allocated_new (k : ℕ) : Allocated k new := by
  have hpos : 0 < sizeRange k := Nat.two_pow_pos _
  have hmemory : new.memory k = [⟨0, 0⟩] := by
    simp only [memory, storage, new, Nat.zero_mul, List.append_nil]
  refine ⟨?_, fun b hb => absurd hb List.not_mem_nil, ?_, (Nat.zero_mod _).symm⟩
  · rw [hmemory]
    intro r hr
    rw [List.mem_singleton.mp hr]
    exact hpos
  · rw [hmemory]
    exact List.pairwise_singleton _ _

/-- The counters do not overflow: all memory in use has a place in the address space. -/
theorem Allocated.memoryUsage_eq (h : Allocated k a) :
    a.memoryUsage k =
      ((a.blocks ++ a.leaked).map Region.size).sum + a.capacity * pointerSize k := by
  have hpos : 0 < sizeRange k := Nat.two_pow_pos _
  have hsum := sum_size_le (n := sizeRange k - 1) h.disjoint fun r hr => Nat.le_sub_one_of_lt (h.stop_lt r hr)
  rw [memory, List.map_cons, List.sum_cons] at hsum
  dsimp only [storage] at hsum
  have hblocks : ((a.blocks ++ a.leaked).map Region.size).sum < sizeRange k := by omega
  have hstorage : a.capacity * pointerSize k < sizeRange k := by omega
  rw [memoryUsage, h.counted, Nat.mod_eq_of_lt hblocks, Nat.mod_eq_of_lt hstorage,
    Nat.mod_eq_of_lt (by omega)]

/-- The memory of an arena with one more block, and possibly a new array for its blocks, is allocated. -/
theorem Allocated.grow (h : Allocated k a) (hs : supply.Sound k a n) (hp : supply.block = some p)
    (hperm : (a'.blocks ++ a'.leaked).Perm (⟨p, n⟩ :: (a.blocks ++ a.leaked)))
    (hstorage : a'.storage k = a.storage k ∨
      ∃ array capacity, supply.storage = some (array, capacity) ∧
        a'.storage k = ⟨array, capacity * pointerSize k⟩)
    (hcounted : a'.blocksMemory = (a.blocksMemory + n) % sizeRange k) : Allocated k a' := by
  obtain ⟨hpos, hlt, hdisjoint, hold⟩ := hs.block p hp
  obtain ⟨hstored, hblocks⟩ := List.pairwise_cons.mp h.disjoint
  -- the array is in the address space, and apart from the blocks, whether it is a new one or not
  have harray : (a'.storage k).stop < sizeRange k ∧
      ∀ b ∈ (⟨p, n⟩ : Region) :: (a.blocks ++ a.leaked), (a'.storage k).Disjoint b := by
    obtain heq | ⟨array, capacity, hnew, heq⟩ := hstorage
    · rw [heq]
      exact ⟨h.stop_lt _ List.mem_cons_self, List.forall_mem_cons.mpr ⟨hold.symm, hstored⟩⟩
    · obtain ⟨-, hstop, hothers, hblock⟩ := hs.storage array capacity hnew
      rw [heq]
      exact ⟨hstop, List.forall_mem_cons.mpr ⟨hblock p hp, hothers⟩⟩
  constructor
  · refine List.forall_mem_cons.mpr ⟨harray.1, fun b hb => ?_⟩
    obtain rfl | hb := List.mem_cons.mp (hperm.mem_iff.mp hb)
    · exact hlt
    · exact h.stop_lt b (List.mem_cons_of_mem _ hb)
  · intro b hb
    obtain rfl | hb := List.mem_cons.mp (hperm.mem_iff.mp hb)
    · exact hpos
    · exact h.pos b hb
  · refine List.pairwise_cons.mpr ⟨fun b hb => harray.2 b (hperm.mem_iff.mp hb), ?_⟩
    exact (hperm.pairwise_iff Region.Disjoint.symm).mpr (List.pairwise_cons.mpr ⟨hdisjoint, hblocks⟩)
  · rw [hcounted, h.counted, (hperm.map Region.size).sum_eq, List.map_cons, List.sum_cons, Nat.mod_add_mod,
      Nat.add_comm]

/-- What `AllocateNewBlock` does: there is a new block, or there is none and an exception. -/
theorem allocateNewBlock_spec (h : Allocated k a) (hs : supply.Sound k a n) :
    (∃ a', a.allocateNewBlock k n supply = (none, a') ∧ Allocated k a' ∧ a.Keeps a' ∧
      a'.blocks = a.blocks) ∨
    ∃ p a', a.allocateNewBlock k n supply = (some p, a') ∧ Allocated k a' ∧ a.Keeps a' ∧
      a'.blocks = a.blocks ++ [⟨p, n⟩] ∧ p + n < sizeRange k ∧
      ∀ b ∈ a.blocks, Region.Disjoint ⟨p, n⟩ b := by
  cases hp : supply.block with
  | none => exact Or.inl ⟨a, by rw [allocateNewBlock, hp], h, ⟨rfl, rfl, rfl⟩, rfl⟩
  | some p =>
    obtain ⟨-, hlt, hdisjoint, -⟩ := hs.block p hp
    have hapart : ∀ b ∈ a.blocks, Region.Disjoint ⟨p, n⟩ b :=
      fun b hb => hdisjoint b (List.mem_append_left _ hb)
    have hpushed : (a.blocks ++ [(⟨p, n⟩ : Region)] ++ a.leaked).Perm (⟨p, n⟩ :: (a.blocks ++ a.leaked)) := by
      rw [List.append_assoc]
      exact List.perm_middle
    rw [allocateNewBlock, hp]
    dsimp only
    split_ifs with hcapacity
    · exact Or.inr ⟨p, _, rfl, h.grow hs hp hpushed (Or.inl rfl) rfl, ⟨rfl, rfl, rfl⟩, rfl, hlt, hapart⟩
    · cases hstorage : supply.storage with
      | none =>
        dsimp only
        exact Or.inl ⟨_, rfl, h.grow hs hp List.perm_middle (Or.inl rfl) rfl, ⟨rfl, rfl, rfl⟩, rfl⟩
      | some storage =>
        dsimp only
        exact Or.inr ⟨p, _, rfl, h.grow hs hp hpushed (Or.inr ⟨_, _, hstorage, rfl⟩) rfl,
          ⟨rfl, rfl, rfl⟩, rfl, hlt, hapart⟩

end

/-! ## Calls -/

/-- The slop is less than a pointer. -/
theorem slop_lt (k ptr : ℕ) : slop k ptr < pointerSize k := by
  have hpos : 0 < pointerSize k := Nat.two_pow_pos k
  unfold slop
  dsimp only
  split_ifs <;> omega

/-- It leads to the next multiple of the size of a pointer. -/
theorem dvd_add_slop (k ptr : ℕ) : pointerSize k ∣ ptr + slop k ptr := by
  have hmod : ptr &&& (pointerSize k - 1) = ptr % pointerSize k := Nat.and_two_pow_sub_one_eq_mod ptr k
  have hlt : ptr % pointerSize k < pointerSize k := Nat.mod_lt _ (Nat.two_pow_pos k)
  have hdiv := Nat.div_add_mod ptr (pointerSize k)
  unfold slop
  dsimp only
  rw [hmod]
  split_ifs with hzero
  · exact Nat.dvd_of_mod_eq_zero hzero
  · refine ⟨ptr / pointerSize k + 1, ?_⟩
    rw [Nat.mul_succ]
    omega

/-- Addresses end at a multiple of the size of a pointer. -/
theorem add_slop_le {k ptr : ℕ} (h : ptr < sizeRange k) : ptr + slop k ptr ≤ sizeRange k := by
  have hdvd : pointerSize k ∣ sizeRange k := by
    refine pow_dvd_pow 2 ?_
    have hlt : k < pointerSize k := Nat.lt_two_pow_self
    omega
  obtain ⟨m, hm⟩ := dvd_add_slop k ptr
  obtain ⟨n, hn⟩ := hdvd
  have hslop := slop_lt k ptr
  have hlt : m < n + 1 := by
    refine Nat.lt_of_mul_lt_mul_left (a := pointerSize k) ?_
    rw [← hm, Nat.mul_succ, ← hn]
    omega
  rw [hm, hn]
  exact Nat.mul_le_mul_left _ (Nat.le_of_lt_succ hlt)

/-- The slop of a call. -/
def Call.slop (k : ℕ) (a : Arena) (c : Call) : ℕ := if c.aligned then Arena.slop k a.allocPtr else 0

section

variable {k : ℕ} {a : Arena} {c : Call} {supply : Supply}

/-- Both functions do the same, with the slop or without it. -/
theorem call_eq (hptr : a.allocPtr < sizeRange k) (hbytes : c.bytes < sizeRange k) (supply : Supply) :
    a.call k c supply =
      if (c.bytes + c.slop k a) % sizeRange k ≤ a.allocBytesRemaining then
        (some ((a.allocPtr + c.slop k a) % sizeRange k), { a with
          allocPtr := (a.allocPtr + (c.bytes + c.slop k a) % sizeRange k) % sizeRange k
          allocBytesRemaining := a.allocBytesRemaining - (c.bytes + c.slop k a) % sizeRange k })
      else a.allocateFallback k c.bytes supply := by
  unfold call Call.slop
  by_cases haligned : c.aligned = true
  · rw [if_pos haligned, if_pos haligned]
    rfl
  · rw [if_neg haligned, if_neg haligned, Nat.add_zero, Nat.add_zero, Nat.mod_eq_of_lt hbytes,
      Nat.mod_eq_of_lt hptr]
    rfl

/-- What `AllocateFallback` does: there is an exception, or a block for the request, or a new current block
with the request in front. -/
theorem allocateFallback_spec (h : Allocated k a) (hs : supply.Sound k a c.blockBytes) :
    (∃ a', a.allocateFallback k c.bytes supply = (none, a') ∧ Allocated k a' ∧ a.Keeps a' ∧
      a'.blocks = a.blocks) ∨
    (∃ p a', a.allocateFallback k c.bytes supply = (some p, a') ∧ Allocated k a' ∧ a.Keeps a' ∧
      a'.blocks = a.blocks ++ [⟨p, c.bytes⟩] ∧ ∀ b ∈ a.blocks, Region.Disjoint ⟨p, c.bytes⟩ b) ∨
    ∃ p a', a.allocateFallback k c.bytes supply = (some p, a') ∧ Allocated k a' ∧
      a'.blocks = a.blocks ++ [⟨p, kBlockSize⟩] ∧ (∀ b ∈ a.blocks, Region.Disjoint ⟨p, kBlockSize⟩ b) ∧
      c.bytes ≤ kBlockSize ∧ a'.allocPtr = p + c.bytes ∧ a'.allocBytesRemaining = kBlockSize - c.bytes ∧
      a'.current = some ⟨p, kBlockSize⟩ := by
  unfold allocateFallback
  unfold Call.blockBytes at hs
  split_ifs at hs ⊢ with hlarge
  · obtain hnone | ⟨p, a', heq, halloc, hkeeps, hblocks, -, hapart⟩ := allocateNewBlock_spec h hs
    · exact Or.inl hnone
    · exact Or.inr (Or.inl ⟨p, a', heq, halloc, hkeeps, hblocks, hapart⟩)
  · have hle : c.bytes ≤ kBlockSize := le_trans (not_lt.mp hlarge) (Nat.div_le_self _ _)
    obtain ⟨a', heq, hnone⟩ | ⟨p, a', heq, halloc, -, hblocks, hlt, hapart⟩ := allocateNewBlock_spec h hs
    · exact Or.inl ⟨a', by rw [heq], hnone⟩
    · rw [heq]
      exact Or.inr (Or.inr ⟨p, _, rfl, ⟨halloc.stop_lt, halloc.pos, halloc.disjoint, halloc.counted⟩,
        hblocks, hapart, hle, Nat.mod_eq_of_lt (by omega), rfl, rfl⟩)

/-- No call loses memory, and the pointer stays an address, also when there is an overflow. -/
theorem Allocated.call (h : Allocated k a) (hptr : a.allocPtr < sizeRange k)
    (hbytes : c.bytes < sizeRange k) (hs : supply.Sound k a c.blockBytes) :
    Allocated k (a.call k c supply).2 ∧ (a.call k c supply).2.allocPtr < sizeRange k := by
  rw [call_eq hptr hbytes]
  split_ifs with hroom
  · exact ⟨⟨h.stop_lt, h.pos, h.disjoint, h.counted⟩, Nat.mod_lt _ (Nat.two_pow_pos _)⟩
  · obtain ⟨a', heq, halloc, hkeeps, -⟩ | ⟨p, a', heq, halloc, hkeeps, -⟩ |
        ⟨p, a', heq, halloc, hblocks, -, hle, hnext, -⟩ := allocateFallback_spec h hs
    · rw [heq]
      exact ⟨halloc, hkeeps.allocPtr ▸ hptr⟩
    · rw [heq]
      exact ⟨halloc, hkeeps.allocPtr ▸ hptr⟩
    · have hmem : (⟨p, kBlockSize⟩ : Region) ∈ a'.blocks := by simp [hblocks]
      have hstop := halloc.stop_lt _ (List.mem_cons_of_mem _ (List.mem_append_left _ hmem))
      rw [heq]
      refine ⟨halloc, ?_⟩
      dsimp only [Region.stop] at hstop ⊢
      omega

end

/-! ## Runs that fit -/

/-- The free part of the current block. -/
def free (a : Arena) : Region := ⟨a.allocPtr, a.allocBytesRemaining⟩

/-- The invariant of a session. -/
structure Session.Inv (k : ℕ) (s : Session) : Prop where
  /-- The memory in use. -/
  allocated : Allocated k s.arena
  /-- What has been returned is carved out of the blocks. -/
  carved : Carved s.arena.blocks (s.served.map Served.region) s.arena.free
  /-- The end of the current block. -/
  ends : s.arena.EndsBlock
  /-- Alignment. -/
  aligned : (∀ b ∈ s.arena.blocks, pointerSize k ∣ b.base) →
    ∀ r ∈ s.served, r.aligned = true → pointerSize k ∣ r.region.base

/-- A new arena, from which nothing was allocated, meets the invariant. -/
theorem inv_new (k : ℕ) : Session.new.Inv k :=
  ⟨allocated_new k, carved_nil, ⟨rfl, rfl⟩, fun _ _ h => absurd h List.not_mem_nil⟩

section

variable {k : ℕ} {a a' : Arena} {s : Session} {x : Step}

/-- The free part ends a block of the arena as long as this block stays. -/
theorem EndsBlock.keeps (h : a.EndsBlock) (hkeeps : a.Keeps a') (hblocks : ∀ b ∈ a.blocks, b ∈ a'.blocks) :
    a'.EndsBlock := by
  unfold EndsBlock at h ⊢
  rw [hkeeps.allocPtr, hkeeps.allocBytesRemaining, hkeeps.current]
  cases hcurrent : a.current with
  | none => rwa [hcurrent] at h
  | some b =>
    rw [hcurrent] at h
    exact ⟨hblocks b h.1, h.2⟩

/-- The end of the current block is in the address space. -/
theorem Session.Inv.end_lt (h : s.Inv k) :
    s.arena.allocPtr + s.arena.allocBytesRemaining < sizeRange k := by
  have hpos : 0 < sizeRange k := Nat.two_pow_pos _
  have hends := h.ends
  unfold EndsBlock at hends
  split at hends
  · omega
  · rw [hends.2]
    exact h.allocated.stop_lt _ (List.mem_cons_of_mem _ (List.mem_append_left _ hends.1))

/-- A call that is served from the current block. -/
theorem Session.Inv.take (h : s.Inv k) (hpos : 0 < x.call.bytes)
    (hroom : x.call.bytes + x.call.slop k s.arena ≤ s.arena.allocBytesRemaining) :
    Session.Inv k ⟨{ s.arena with
        allocPtr := s.arena.allocPtr + (x.call.bytes + x.call.slop k s.arena)
        allocBytesRemaining := s.arena.allocBytesRemaining - (x.call.bytes + x.call.slop k s.arena) },
      ⟨⟨s.arena.allocPtr + x.call.slop k s.arena, x.call.bytes⟩, x.call.aligned⟩ :: s.served⟩ where
  allocated := ⟨h.allocated.stop_lt, h.allocated.pos, h.allocated.disjoint, h.allocated.counted⟩
  carved := by
    have hinside : ∃ b ∈ s.arena.blocks, s.arena.free.Within b := by
      refine h.carved.free_inside.resolve_left fun hstop => ?_
      unfold free Region.stop at hstop
      dsimp only at hstop
      omega
    refine h.carved.take hinside ⟨?_, ?_⟩ ⟨?_, ?_⟩ (Or.inl ?_) ?_ <;>
      simp only [free, Region.stop] <;> omega
  ends := by
    have hends := h.ends
    unfold EndsBlock at hends ⊢
    dsimp only
    split at hends
    · omega
    · exact ⟨hends.1, by rw [← hends.2]; omega⟩
  aligned hblocks := by
    refine List.forall_mem_cons.mpr ⟨fun haligned => ?_, h.aligned hblocks⟩
    dsimp only at haligned ⊢
    rw [Call.slop, if_pos haligned]
    exact dvd_add_slop k s.arena.allocPtr

/-- What begins with a new block is as aligned as the block. -/
theorem Session.Inv.aligned_new (h : s.Inv k) {b : Region} (hblocks : a'.blocks = s.arena.blocks ++ [b])
    {r : Served} (hr : r.region.base = b.base) : (∀ b ∈ a'.blocks, pointerSize k ∣ b.base) →
      ∀ r' ∈ r :: s.served, r'.aligned = true → pointerSize k ∣ r'.region.base := by
  intro hbase
  rw [hblocks] at hbase
  obtain ⟨hold, hnew⟩ := List.forall_mem_append.mp hbase
  refine List.forall_mem_cons.mpr ⟨fun _ => ?_, h.aligned hold⟩
  rw [hr]
  exact hnew b (List.mem_singleton_self b)

/-- A call gets a block of its own. -/
theorem Session.Inv.separate (h : s.Inv k) {p : ℕ} (halloc : Allocated k a') (hkeeps : s.arena.Keeps a')
    (hblocks : a'.blocks = s.arena.blocks ++ [⟨p, x.call.bytes⟩])
    (hapart : ∀ b ∈ s.arena.blocks, Region.Disjoint ⟨p, x.call.bytes⟩ b) :
    Session.Inv k ⟨a', ⟨⟨p, x.call.bytes⟩, x.call.aligned⟩ :: s.served⟩ where
  allocated := halloc
  carved := by
    have hfree : a'.free = s.arena.free := by
      rw [free, hkeeps.allocPtr, hkeeps.allocBytesRemaining, free]
    have hcarved := h.carved.separate hapart
    rw [← hblocks, ← hfree] at hcarved
    exact hcarved
  ends := h.ends.keeps hkeeps fun b hb => hblocks ▸ List.mem_append_left _ hb
  aligned := h.aligned_new hblocks rfl

/-- A call gets the front of a new current block. -/
theorem Session.Inv.next (h : s.Inv k) {p : ℕ} (halloc : Allocated k a')
    (hblocks : a'.blocks = s.arena.blocks ++ [⟨p, kBlockSize⟩])
    (hapart : ∀ b ∈ s.arena.blocks, Region.Disjoint ⟨p, kBlockSize⟩ b) (hle : x.call.bytes ≤ kBlockSize)
    (hptr : a'.allocPtr = p + x.call.bytes)
    (hremaining : a'.allocBytesRemaining = kBlockSize - x.call.bytes)
    (hcurrent : a'.current = some ⟨p, kBlockSize⟩) :
    Session.Inv k ⟨a', ⟨⟨p, x.call.bytes⟩, x.call.aligned⟩ :: s.served⟩ where
  allocated := halloc
  carved := by
    have hmem : (⟨p, kBlockSize⟩ : Region) ∈ s.arena.blocks ++ [⟨p, kBlockSize⟩] := by simp
    have hcarved : Carved (s.arena.blocks ++ [⟨p, kBlockSize⟩])
        (⟨p, x.call.bytes⟩ :: s.served.map Served.region)
        ⟨p + x.call.bytes, kBlockSize - x.call.bytes⟩ := by
      refine (h.carved.next hapart).take ⟨_, hmem, Region.within_rfl⟩ ⟨?_, ?_⟩ ⟨?_, ?_⟩ (Or.inl ?_) ?_ <;>
        simp only [Region.stop] <;> omega
    rw [← hblocks, ← hptr, ← hremaining] at hcarved
    exact hcarved
  ends := by
    unfold EndsBlock
    rw [hcurrent, hptr, hremaining, hblocks]
    exact ⟨by simp, by rw [Region.stop]; dsimp only; omega⟩
  aligned := h.aligned_new hblocks rfl

/-- A call that fits and is served from the current block has no overflow. -/
theorem Call.Fits.lt {c : Call} (h : c.Fits k a) (hbytes : c.bytes < sizeRange k)
    (hroom : (c.bytes + c.slop k a) % sizeRange k ≤ a.allocBytesRemaining) :
    c.bytes + c.slop k a < sizeRange k := by
  unfold Call.slop at hroom ⊢
  split_ifs at hroom ⊢ with haligned
  · exact (h haligned).resolve_right (not_lt.mpr hroom)
  · exact hbytes

/-- A call that fits preserves the invariant. -/
theorem Session.Inv.step (h : s.Inv k) (hpos : 0 < x.call.bytes) (hbytes : x.call.bytes < sizeRange k)
    (hs : x.supply.Sound k s.arena x.call.blockBytes) (hfits : x.call.Fits k s.arena) :
    (s.step k x).Inv k := by
  have hend := h.end_lt
  rw [Session.step, call_eq (by omega) hbytes]
  by_cases hroom : (x.call.bytes + x.call.slop k s.arena) % sizeRange k ≤ s.arena.allocBytesRemaining
  · have hlt := hfits.lt hbytes hroom
    rw [if_pos hroom]
    rw [Nat.mod_eq_of_lt hlt] at hroom ⊢
    rw [Nat.mod_eq_of_lt (a := s.arena.allocPtr + x.call.slop k s.arena) (by omega),
      Nat.mod_eq_of_lt (by omega)]
    exact h.take hpos hroom
  · rw [if_neg hroom]
    obtain ⟨a', heq, halloc, hkeeps, hblocks⟩ | ⟨p, a', heq, halloc, hkeeps, hblocks, hapart⟩ |
        ⟨p, a', heq, halloc, hblocks, hapart, hle, hptr, hremaining, hcurrent⟩ :=
      allocateFallback_spec h.allocated hs
    · rw [heq]
      have hfree : a'.free = s.arena.free := by
        rw [free, hkeeps.allocPtr, hkeeps.allocBytesRemaining, free]
      refine ⟨halloc, ?_, h.ends.keeps hkeeps fun b hb => hblocks ▸ hb, ?_⟩ <;> dsimp only
      · rw [hblocks, hfree]
        exact h.carved
      · rw [hblocks]
        exact h.aligned
    · rw [heq]
      exact h.separate halloc hkeeps hblocks hapart
    · rw [heq]
      exact h.next halloc hblocks hapart hle hptr hremaining hcurrent

/-- The invariant says what is expected. -/
theorem Session.Inv.good (h : s.Inv k) : s.Good k where
  disjoint := h.carved.disjoint
  inside r hr := h.carved.inside r.region (List.mem_map_of_mem hr)
  aligned := h.aligned
  ends := h.ends
  usage := by
    have htotal := h.carved.total
    rw [List.map_map] at htotal
    rw [h.allocated.memoryUsage_eq, List.map_append, List.sum_append]
    change (s.served.map fun r => r.region.size).sum + _ ≤ _ at htotal
    omega

/-! ## Runs that do not fit -/

/-- What a call returns is kept. -/
theorem mem_served_step {r : Served} (hr : r ∈ s.served) : r ∈ (s.step k x).served := by
  unfold Session.step
  split
  · exact hr
  · exact List.mem_cons_of_mem _ hr

/-- What the calls of a run return is kept. -/
theorem mem_served_after {r : Served} (steps : List Step) : ∀ {s : Session}, r ∈ s.served →
    r ∈ (s.after k steps).served := by
  induction steps with
  | nil => exact fun h => h
  | cons x steps ih => exact fun h => ih (mem_served_step h)

/-- A call that does not fit returns memory that no block has: it begins at `NULL` or ends behind the
address space. -/
theorem Session.Inv.outside (h : s.Inv k) (hbytes : x.call.bytes < sizeRange k)
    (hfits : ¬x.call.Fits k s.arena) :
    ∃ r ∈ (s.step k x).served, r.region.base = 0 ∨ sizeRange k ≤ r.region.stop := by
  have hend := h.end_lt
  obtain ⟨haligned, hnot⟩ := Classical.not_imp.mp hfits
  obtain ⟨hwrap, hroom⟩ := not_or.mp hnot
  have hslop : x.call.slop k s.arena = slop k s.arena.allocPtr := if_pos haligned
  have hptr : s.arena.allocPtr < sizeRange k := by omega
  have hle := add_slop_le hptr
  rw [Session.step, call_eq hptr hbytes, hslop, if_pos (not_lt.mp hroom)]
  refine ⟨_, List.mem_cons_self, ?_⟩
  dsimp only [Region.stop]
  obtain heq | hlt := Nat.eq_or_lt_of_le hle
  · exact Or.inl (by rw [heq, Nat.mod_self])
  · rw [Nat.mod_eq_of_lt hlt]
    exact Or.inr (by omega)

/-- The memory in use after a run, whether its calls fit or not. -/
theorem allocated_after (steps : List Step) : ∀ {s : Session}, Allocated k s.arena →
    s.arena.allocPtr < sizeRange k → s.Possible k steps → Allocated k (s.after k steps).arena := by
  induction steps with
  | nil => exact fun h _ _ => h
  | cons x steps ih =>
    intro s h hptr ⟨_, hbytes, hs, hrest⟩
    have harena : (s.step k x).arena = (s.arena.call k x.call x.supply).2 := by
      unfold Session.step
      split <;> rename_i heq <;> rw [heq]
    obtain ⟨halloc, hlt⟩ := h.call hptr hbytes hs
    rw [← harena] at halloc hlt
    exact ih halloc hlt hrest

end

/-- A run either fits and preserves the invariant, or has returned memory that no block has. -/
theorem Session.Inv.after {k : ℕ} (steps : List Step) : ∀ {s : Session}, s.Inv k → s.Possible k steps →
    (s.Fits k steps ∧ (s.after k steps).Inv k) ∨
      (¬s.Fits k steps ∧ ∃ r ∈ (s.after k steps).served, r.region.base = 0 ∨ sizeRange k ≤ r.region.stop) := by
  induction steps with
  | nil => exact fun h _ => Or.inl ⟨trivial, h⟩
  | cons x steps ih =>
    intro s h ⟨hpos, hbytes, hs, hrest⟩
    by_cases hfits : x.call.Fits k s.arena
    · obtain ⟨hfit, hinv⟩ | ⟨hnot, hout⟩ := ih (h.step hpos hbytes hs hfits) hrest
      · exact Or.inl ⟨⟨hfits, hfit⟩, hinv⟩
      · exact Or.inr ⟨fun hall => hnot hall.2, hout⟩
    · obtain ⟨r, hr, hout⟩ := h.outside hbytes hfits
      exact Or.inr ⟨fun hall => hfits hall.1, r, mem_served_after steps hr, hout⟩

/-- In every run of calls, what has been returned is disjoint, inside of blocks and aligned, the pointer and
what remains lead to the end of the current block, and the memory in use is at least what has been requested,
if and only if no call of `AllocateAligned` computes a sum of its size and its slop that is out of the range
of `size_t` and wraps to one that fits into the current block. -/
theorem arena_good_iff (k : ℕ) (steps : List Step) (hrun : Session.new.Possible k steps) :
    (Session.new.after k steps).Good k ↔ Session.new.Fits k steps := by
  have halloc := allocated_after steps (allocated_new k) (Nat.two_pow_pos _) hrun
  obtain ⟨hfits, hinv⟩ | ⟨hnot, r, hr, hout⟩ := (inv_new k).after steps hrun
  · exact ⟨fun _ => hfits, fun _ => hinv.good⟩
  · refine ⟨fun hgood => ?_, fun hfits => absurd hfits hnot⟩
    -- every block is between `NULL` and the end of the address space
    obtain ⟨b, hb, hbase, hstop⟩ := hgood.inside r hr
    have hpos := halloc.pos b (List.mem_append_left _ hb)
    have hlt := halloc.stop_lt b (List.mem_cons_of_mem _ (List.mem_append_left _ hb))
    omega

/-- What the run-time system has when no new block is needed. -/
def Supply.nothing : Supply := ⟨none, none⟩

/-- A run-time system that has no memory to give meets the contract. -/
theorem Supply.nothing_sound (k : ℕ) (a : Arena) (n : ℕ) : Supply.nothing.Sound k a n :=
  ⟨fun _ h => absurd h (by simp [Supply.nothing]), fun _ _ h => absurd h (by simp [Supply.nothing])⟩

/-- A small request, an aligned one from the same block, and a large one. -/
def plainRun : List Step :=
  [⟨⟨false, 1⟩, ⟨some 65536, some (4096, 1)⟩⟩, ⟨⟨true, 16⟩, Supply.nothing⟩,
    ⟨⟨false, 2000⟩, ⟨some 131072, some (8192, 2)⟩⟩]

theorem arena_good_iff_plainRun : (Session.new.after 3 plainRun).Good 3 := by
  refine (arena_good_iff 3 plainRun ?_).mpr ⟨?_, ?_, ?_, trivial⟩
  · refine ⟨by decide, by decide, ⟨?_, ?_⟩, by decide, by decide, Supply.nothing_sound 3 _ _,
      by decide, by decide, ⟨?_, ?_⟩, trivial⟩
    all_goals
      intros
      rename_i h
      cases h
      decide
  · exact fun h => absurd h (by decide)
  · exact fun _ => Or.inl (by decide)
  · exact fun h => absurd h (by decide)

/-- An aligned request of `2^64 - 1` bytes, for which the sum wraps to 6, and a small one behind it. -/
def wrappingRun : List Step :=
  [⟨⟨false, 1⟩, ⟨some 65536, some (4096, 1)⟩⟩, ⟨⟨true, 2^64 - 1⟩, Supply.nothing⟩,
    ⟨⟨false, 100⟩, Supply.nothing⟩]

/-- What is returned for them overlaps, and is not inside of a block. -/
theorem arena_wraps : Session.new.Possible 3 wrappingRun ∧ ¬(Session.new.after 3 wrappingRun).Good 3 := by
  constructor
  · refine ⟨by decide, by decide, ⟨?_, ?_⟩, by decide, by decide, Supply.nothing_sound 3 _ _,
      by decide, by decide, Supply.nothing_sound 3 _ _, trivial⟩
    all_goals
      intros
      rename_i h
      cases h
      decide
  · exact fun h => absurd h.disjoint (by decide)

end Arena

end LevelDb
