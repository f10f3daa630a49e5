import LevelDb.Lib.Buffer
import LevelDb.Format
import Mathlib.Algebra.Order.Group.Nat
import Mathlib.Data.Nat.Bitwise

/-!
# Mapped files on Windows

`Win32MapFile` of `env_win32.cc`, the writable file of the Windows environment. It maps one region of
the file after the other, each of them at the end of a file that it has made longer, copies the data
there, and cuts the file to its length when it is closed. A pointer is the address that it holds, and
`NULL` is 0. An existing file is opened as it is. The calls on the handle of the file succeed, those
that map a view may fail, and those that flush may fail (`sync`).
-/

namespace LevelDb.Win32

open Lib

/-! ## The file -/

/-- What a mapped file depends on. -/
structure System where
  /-- `g_PageSize` -/
  pageSize : ℕ
  /-- It is a power of two. -/
  isPowerOfTwo : ∃ k, pageSize = 2 ^ k
  /-- Where `MapViewOfFile` puts the view of a file that begins at this offset. -/
  view : ℕ → ℕ

/-- Every view can be mapped. -/
def System.Succeeds (sys : System) : Prop := ∀ offset, sys.view offset ≠ 0

/-- `_Roundup` -/
def roundup (x y : ℕ) : ℕ := (x + y - 1) / y * y

/-- `_TruncateToPageBoundary` -/
def System.truncateToPageBoundary (sys : System) (s : ℕ) : ℕ := s - (s &&& (sys.pageSize - 1))

/-- A flush that has succeeded. -/
structure Flush where
  /-- The offset of the first byte in the file. -/
  first : ℕ
  /-- The number of bytes. -/
  length : ℕ
  /-- How many bytes had been appended by then. -/
  written : ℕ

/-- `Win32MapFile`, with the file. -/
structure MapFile where
  /-- The bytes of the file. -/
  file : Slice
  /-- `_map_size` -/
  mapSize : ℕ
  /-- `_base` -/
  base : ℕ := 0
  /-- `_limit` -/
  limit : ℕ := 0
  /-- `_dst` -/
  dst : ℕ := 0
  /-- `_last_sync` -/
  lastSync : ℕ := 0
  /-- `_file_offset` -/
  fileOffset : ℕ := 0
  /-- `_pending_sync` -/
  pendingSync : Bool := false
  /-- The views that have been mapped, by offset and size, the last one first. -/
  regions : List (ℕ × ℕ) := []
  /-- The flushes that have succeeded, the last one first. -/
  flushes : List Flush := []

/-- `SetFilePointerEx` and `SetEndOfFile`. -/
def setEndOfFile (n : ℕ) (file : Slice) : Slice := resize 0 n file

/-- The constructor, for the previous contents of the path. -/
def System.openFile (sys : System) (old : Option Slice) : MapFile :=
  { file := old.getD []
    mapSize := roundup 65536 sys.pageSize }

/-- The number of bytes up to `_dst`. -/
def MapFile.written (f : MapFile) : ℕ := f.fileOffset + (f.dst - f.base)

/-! ## The functions -/

/-- `_UnmapCurrentRegion` -/
def MapFile.unmapCurrentRegion (f : MapFile) : MapFile :=
  if f.base = 0 then f
  else
    { f with
      -- Defer syncing this data until next `Sync` call, if any
      pendingSync := f.pendingSync || decide (f.lastSync < f.limit)
      fileOffset := f.fileOffset + (f.limit - f.base)
      base := 0
      limit := 0
      lastSync := 0
      dst := 0
      -- Increase the amount we map the next time, but capped at 1MB
      mapSize := if f.mapSize < 2^20 then f.mapSize * 2 else f.mapSize }

/-- `_MapNewRegion` -/
def MapFile.mapNewRegion (f : MapFile) (sys : System) : MapFile × Bool :=
  let base := sys.view f.fileOffset
  let grown := { f with file := setEndOfFile (f.fileOffset + f.mapSize) f.file }
  if base = 0 then (grown, false)
  else
    ({ grown with
      base := base
      limit := base + f.mapSize
      dst := base
      lastSync := base
      regions := (f.fileOffset, f.mapSize) :: f.regions }, true)

/-- `memcpy` to `_dst`, which moves. -/
def MapFile.copy (f : MapFile) (data : Slice) : MapFile :=
  { f with
    file := overwrite f.file f.written data
    dst := f.dst + data.length }

/-- One round of the loop of `Append`: the file, and the data that are left unless there is an error.
The free space is taken before a new region is mapped. -/
def MapFile.appendRound (f : MapFile) (sys : System) (left : Slice) : MapFile × Option Slice :=
  let avail := f.limit - f.dst
  let r := if avail = 0 then f.unmapCurrentRegion.mapNewRegion sys else (f, true)
  if r.2 then
    let n := if left.length ≤ avail then left.length else avail
    (r.1.copy (left.take n), some (left.drop n))
  else (r.1, none)

/-- The loop of `Append`, for so many rounds: the file, and whether there was no error. -/
def MapFile.appendLoop (sys : System) : ℕ → MapFile → Slice → Option (MapFile × Bool)
  | _, f, [] => some (f, true)
  | 0, _, _ :: _ => none
  | fuel + 1, f, b :: left =>
    match f.appendRound sys (b :: left) with
    | (f', none) => some (f', false)
    | (f', some left') => MapFile.appendLoop sys fuel f' left'

/-- `Append` -/
def MapFile.append (f : MapFile) (sys : System) (data : Slice) : Option (MapFile × Bool) :=
  MapFile.appendLoop sys (2 * data.length) f data

/-- `Close` -/
def MapFile.close (f : MapFile) : MapFile :=
  let unused := f.limit - f.dst
  let g := f.unmapCurrentRegion
  -- Trim the extra space at the end of the file
  let trimmed :=
    if 0 < unused then { g with file := setEndOfFile (g.fileOffset - unused) g.file } else g
  { trimmed with base := 0, limit := 0 }

/-- What the calls of `Sync` do. -/
structure FlushResults where
  /-- Whether `FlushFileBuffers` succeeds. -/
  fileBuffers : Bool
  /-- Whether `FlushViewOfFile` succeeds. -/
  viewOfFile : Bool

/-- A flush that may succeed. -/
def MapFile.flush (f : MapFile) (first length : ℕ) (succeeds : Bool) : MapFile :=
  if succeeds then { f with flushes := ⟨first, length, f.written⟩ :: f.flushes } else f

/-- The first part of `Sync`: the file, and whether there was no error. `FlushFileBuffers` is taken to
make durable what is in regions that are not mapped any more. -/
def MapFile.syncUnmapped (f : MapFile) (o : FlushResults) : MapFile × Bool :=
  if f.pendingSync then
    -- Some unmapped data was not synced
    ({ f with pendingSync := false }.flush 0 f.fileOffset o.fileBuffers, o.fileBuffers)
  else (f, true)

/-- The second part of `Sync`: the file, and whether there was no error. -/
def MapFile.syncRegion (f : MapFile) (sys : System) (o : FlushResults) : MapFile × Bool :=
  if f.lastSync < f.dst then
    -- The beginnings of the pages that contain the first and last bytes to be synced
    let p1 := sys.truncateToPageBoundary (f.lastSync - f.base)
    let p2 := sys.truncateToPageBoundary (f.dst - f.base - 1)
    ({ f with lastSync := f.dst }.flush (f.fileOffset + p1) (p2 - p1 + sys.pageSize) o.viewOfFile,
      o.viewOfFile)
  else (f, true)

/-- `Sync`: the file, and whether the status is OK. -/
def MapFile.sync (f : MapFile) (sys : System) (o : FlushResults) : MapFile × Bool :=
  let r := f.syncUnmapped o
  let r' := r.1.syncRegion sys o
  (r'.1, r.2 && r'.2)

/-! ## The invariant -/

/-- Views tile the file up to an offset, from page boundary to page boundary. -/
def Tiles (sys : System) : List (ℕ × ℕ) → ℕ → Prop
  | [], n => n = 0
  | (offset, size) :: rest, n =>
    n = offset + size ∧ 0 < size ∧ sys.pageSize ∣ offset ∧ sys.pageSize ∣ size ∧ Tiles sys rest offset

/-- The size of the first region. -/
def System.firstSize (sys : System) : ℕ := roundup 65536 sys.pageSize

/-- What is behind the data that were appended, when views up to an offset have been mapped: the previous
contents in the first region, and zeros. -/
def System.background (sys : System) (old : Option Slice) (n : ℕ) : Slice :=
  setEndOfFile n (setEndOfFile sys.firstSize (old.getD []))

/-- The end of the region that is mapped. -/
def MapFile.regionEnd (f : MapFile) : ℕ := f.fileOffset + (f.limit - f.base)

/-- The file while it is written: some data have been appended to a path with some contents. -/
structure MapFile.Inv (f : MapFile) (sys : System) (old : Option Slice) (data : Slice) : Prop where
  /-- The size of the next region. -/
  mapSize_pos : 0 < f.mapSize
  /-- It is a number of pages. -/
  mapSize_dvd : sys.pageSize ∣ f.mapSize
  /-- `_base` is not behind `_last_sync`. -/
  base_le : f.base ≤ f.lastSync
  /-- `_last_sync` is not behind `_dst`. -/
  lastSync_le : f.lastSync ≤ f.dst
  /-- `_dst` is not behind `_limit`. -/
  dst_le : f.dst ≤ f.limit
  /-- Views tile the file. -/
  tiles : Tiles sys f.regions f.regionEnd
  /-- The offset is a number of pages. -/
  offset_dvd : sys.pageSize ∣ f.fileOffset
  /-- The region is a number of pages. -/
  region_dvd : sys.pageSize ∣ f.limit - f.base
  /-- When nothing has been mapped, nothing has been appended. -/
  unmapped : f.base = 0 → f = sys.openFile old ∧ data = []
  /-- The length of the data. -/
  length : f.written = data.length
  /-- The contents. -/
  contents : f.base ≠ 0 → sys.firstSize ≤ f.regionEnd ∧
    f.file = data ++ (sys.background old f.regionEnd).drop data.length

/-- A page has at least one byte, since its size is a power of two. -/
theorem System.pageSize_pos (sys : System) : 0 < sys.pageSize := by
  obtain ⟨k, hk⟩ := sys.isPowerOfTwo
  rw [hk]
  exact Nat.two_pow_pos k

/-- The first region is a positive number of pages. -/
theorem System.firstSize_spec (sys : System) : 0 < sys.firstSize ∧ sys.pageSize ∣ sys.firstSize := by
  have hpos := sys.pageSize_pos
  refine ⟨Nat.mul_pos (Nat.div_pos ?_ hpos) hpos, Nat.dvd_mul_left _ _⟩
  omega

/-- A file that was just opened meets the invariant with no data appended. -/
theorem System.openFile_inv (sys : System) (old : Option Slice) : (sys.openFile old).Inv sys old [] where
  mapSize_pos := sys.firstSize_spec.1
  mapSize_dvd := sys.firstSize_spec.2
  base_le := le_rfl
  lastSync_le := le_rfl
  dst_le := le_rfl
  tiles := rfl
  offset_dvd := Nat.dvd_zero _
  region_dvd := Nat.dvd_zero _
  unmapped := fun _ => ⟨rfl, rfl⟩
  length := rfl
  contents := fun h => absurd rfl h

/-- What is behind the data has the length up to which views were mapped. -/
theorem System.length_background (sys : System) (old : Option Slice) (n : ℕ) :
    (sys.background old n).length = n := length_resize _ _ _

/-- The background grows with the file. -/
theorem System.setEndOfFile_background (sys : System) (old : Option Slice) {m n : ℕ}
    (hm : sys.firstSize ≤ m) (hmn : m ≤ n) :
    setEndOfFile n (sys.background old m) = sys.background old n := by
  have hlen : (setEndOfFile sys.firstSize (old.getD [])).length ≤ m := by
    rw [setEndOfFile, length_resize]
    exact hm
  exact resize_resize 0 hlen hmn

/-- Before any data, what is in the first region is what the path had there, or zeros. -/
theorem System.background_firstSize (sys : System) (old : Option Slice) :
    sys.background old sys.firstSize = setEndOfFile sys.firstSize (old.getD []) := by
  have hlen : (setEndOfFile sys.firstSize (old.getD [])).length = sys.firstSize := length_resize _ _ _
  unfold System.background
  conv_lhs => rw [setEndOfFile, resize]
  rw [hlen, Nat.sub_self, List.take_of_length_le hlen.le]
  exact List.append_nil _

/-! ## `Append` -/

section Append

variable {sys : System} {old : Option Slice} {data : Slice} {f : MapFile}

/-- A new file whose first region is mapped meets the invariant with no data. -/
theorem System.firstRegion_inv (sys : System) (hsys : sys.Succeeds) (old : Option Slice) :
    ((sys.openFile old).mapNewRegion sys).1.Inv sys old [] := by
  obtain ⟨hpos, hdvd⟩ := sys.firstSize_spec
  have hsize : sys.view 0 + sys.firstSize - sys.view 0 = sys.firstSize := by omega
  unfold MapFile.mapNewRegion
  dsimp only
  rw [if_neg (hsys _)]
  constructor
  · exact hpos
  · exact hdvd
  · exact le_rfl
  · exact le_rfl
  · exact Nat.le_add_right _ _
  · show Tiles sys [(0, sys.firstSize)] (0 + (sys.view 0 + sys.firstSize - sys.view 0))
    rw [hsize]
    exact ⟨rfl, hpos, Nat.dvd_zero _, hdvd, rfl⟩
  · exact Nat.dvd_zero _
  · show sys.pageSize ∣ sys.view 0 + sys.firstSize - sys.view 0
    rw [hsize]
    exact hdvd
  · exact fun hnull => absurd hnull (hsys 0)
  · show 0 + (sys.view 0 - sys.view 0) = 0
    omega
  · intro _
    show sys.firstSize ≤ 0 + (sys.view 0 + sys.firstSize - sys.view 0) ∧
      setEndOfFile (0 + sys.firstSize) (old.getD []) =
        sys.background old (0 + (sys.view 0 + sys.firstSize - sys.view 0))
    rw [hsize, Nat.zero_add]
    exact ⟨le_rfl, (sys.background_firstSize old).symm⟩

/-- The size of the next region, which doubles until it is a megabyte. -/
theorem MapFile.Inv.nextSize (h : f.Inv sys old data) :
    0 < (if f.mapSize < 2^20 then f.mapSize * 2 else f.mapSize) ∧
      sys.pageSize ∣ if f.mapSize < 2^20 then f.mapSize * 2 else f.mapSize := by
  have hpos := h.mapSize_pos
  split_ifs
  · exact ⟨by omega, Dvd.dvd.mul_right h.mapSize_dvd 2⟩
  · exact ⟨hpos, h.mapSize_dvd⟩

/-- A region is full, and the next one begins at its end. -/
theorem MapFile.Inv.followingRegion (h : f.Inv sys old data) (hsys : sys.Succeeds) (hbase : f.base ≠ 0)
    (hfull : f.limit - f.dst = 0) : (f.unmapCurrentRegion.mapNewRegion sys).1.Inv sys old data := by
  obtain ⟨hfirst, hfile⟩ := h.contents hbase
  obtain ⟨hpos, hdvd⟩ := h.nextSize
  have hunmap : f.unmapCurrentRegion = { f with
      pendingSync := f.pendingSync || decide (f.lastSync < f.limit)
      fileOffset := f.regionEnd
      base := 0
      limit := 0
      lastSync := 0
      dst := 0
      mapSize := if f.mapSize < 2^20 then f.mapSize * 2 else f.mapSize } := if_neg hbase
  rw [hunmap]
  unfold MapFile.mapNewRegion
  dsimp only
  rw [if_neg (hsys _)]
  set size := if f.mapSize < 2^20 then f.mapSize * 2 else f.mapSize
  set base := sys.view f.regionEnd
  have hend : sys.pageSize ∣ f.regionEnd := Nat.dvd_add h.offset_dvd h.region_dvd
  have hregion : base + size - base = size := by omega
  -- All of the region before is data.
  have hlength : data.length = f.regionEnd := by
    have := h.length
    have := h.dst_le
    unfold MapFile.written at *
    unfold MapFile.regionEnd
    omega
  constructor
  · exact hpos
  · exact hdvd
  · exact le_rfl
  · exact le_rfl
  · exact Nat.le_add_right _ _
  · show Tiles sys ((f.regionEnd, size) :: f.regions) (f.regionEnd + (base + size - base))
    rw [hregion]
    exact ⟨rfl, hpos, hend, hdvd, h.tiles⟩
  · exact hend
  · show sys.pageSize ∣ base + size - base
    rw [hregion]
    exact hdvd
  · exact fun hnull => absurd hnull (hsys _)
  · show f.regionEnd + (base - base) = data.length
    omega
  · intro _
    show sys.firstSize ≤ f.regionEnd + (base + size - base) ∧
      setEndOfFile (f.regionEnd + size) f.file =
        data ++ (sys.background old (f.regionEnd + (base + size - base))).drop data.length
    rw [hregion]
    refine ⟨by omega, ?_⟩
    have hle : f.regionEnd ≤ f.regionEnd + size := Nat.le_add_right _ _
    rw [hfile, setEndOfFile, resize_append_drop 0 hle (sys.length_background old _) hlength.le]
    exact congrArg (fun l => data ++ l.drop data.length)
      (sys.setEndOfFile_background old hfirst hle)

/-- A new region is mapped when there is no free space. -/
theorem MapFile.Inv.nextRegion (h : f.Inv sys old data) (hsys : sys.Succeeds)
    (hfull : f.limit - f.dst = 0) : ∃ f' : MapFile,
      f.unmapCurrentRegion.mapNewRegion sys = (f', true) ∧ f'.Inv sys old data ∧
        f'.base ≠ 0 ∧ f'.dst < f'.limit := by
  have hinv : (f.unmapCurrentRegion.mapNewRegion sys).1.Inv sys old data := by
    by_cases hbase : f.base = 0
    · obtain ⟨rfl, rfl⟩ := h.unmapped hbase
      have hunmap : (sys.openFile old).unmapCurrentRegion = sys.openFile old := if_pos rfl
      rw [hunmap]
      exact sys.firstRegion_inv hsys old
    · exact h.followingRegion hsys hbase hfull
  have hview := hsys f.unmapCurrentRegion.fileOffset
  unfold MapFile.mapNewRegion at hinv ⊢
  dsimp only at hinv ⊢
  rw [if_neg hview] at hinv ⊢
  refine ⟨_, rfl, hinv, hview, ?_⟩
  -- The region is not empty.
  show sys.view _ < sys.view _ + f.unmapCurrentRegion.mapSize
  have hpos := h.mapSize_pos
  unfold MapFile.unmapCurrentRegion
  split_ifs with hbase hsize
  · omega
  · dsimp only
    omega
  · dsimp only
    omega

/-- Data are copied to the region that is mapped. -/
theorem MapFile.Inv.copy (h : f.Inv sys old data) (hbase : f.base ≠ 0) {more : Slice}
    (hroom : f.dst + more.length ≤ f.limit) : (f.copy more).Inv sys old (data ++ more) := by
  have hlength := h.length
  have hle := h.base_le.trans h.lastSync_le
  unfold MapFile.written at hlength
  obtain ⟨hfirst, hfile⟩ := h.contents hbase
  refine ⟨h.mapSize_pos, h.mapSize_dvd, h.base_le, h.lastSync_le.trans (Nat.le_add_right _ _), hroom,
    h.tiles, h.offset_dvd, h.region_dvd, fun hnull => absurd hnull hbase, ?_, fun _ => ⟨hfirst, ?_⟩⟩
  · show f.fileOffset + (f.dst + more.length - f.base) = (data ++ more).length
    rw [List.length_append]
    omega
  · show overwrite f.file f.written more = _
    rw [h.length, hfile]
    exact overwrite_append_drop _ _ _

/-- One round of the loop of `Append`: some of the data are copied, or there is free space after it. -/
theorem MapFile.Inv.appendRound (h : f.Inv sys old data) (hsys : sys.Succeeds) {left : Slice}
    (hleft : left ≠ []) : ∃ f' n, f.appendRound sys left = (f', some (left.drop n)) ∧
      f'.Inv sys old (data ++ left.take n) ∧
      ((n = 0 ∧ ¬f.dst < f.limit ∧ f'.dst < f'.limit) ∨ (0 < n ∧ f.dst < f.limit)) ∧
      (n < left.length → n = 0 ∨ ¬f'.dst < f'.limit) := by
  have hpos : 0 < left.length := List.length_pos_iff.mpr hleft
  have hdst := h.dst_le
  unfold MapFile.appendRound
  dsimp only
  by_cases hfull : f.limit - f.dst = 0
  · obtain ⟨f', hnext, hinv, hbase, hlt⟩ := h.nextRegion hsys hfull
    rw [if_pos hfull, hnext, hfull]
    -- The free space was taken before, so that nothing is copied in this round.
    simp only [if_true, if_neg (Nat.not_le.mpr hpos)]
    refine ⟨f'.copy [], 0, rfl, ?_, Or.inl ⟨rfl, by omega, ?_⟩, fun _ => Or.inl rfl⟩
    · exact hinv.copy hbase (by simpa using hlt.le)
    · exact hlt
  · have hbase : f.base ≠ 0 := by
      intro hnull
      obtain ⟨rfl, -⟩ := h.unmapped hnull
      exact hfull rfl
    rw [if_neg hfull]
    simp only [if_true]
    set n := if left.length ≤ f.limit - f.dst then left.length else f.limit - f.dst with hn
    have hn_pos : 0 < n := by
      rw [hn]
      split_ifs <;> omega
    have hn_le : n ≤ left.length ∧ n ≤ f.limit - f.dst := by
      rw [hn]
      split_ifs <;> omega
    have htake : (left.take n).length = n := by
      rw [List.length_take]
      omega
    refine ⟨_, n, rfl, h.copy hbase (by omega), Or.inr ⟨hn_pos, by omega⟩, fun hlt => Or.inr ?_⟩
    show ¬f.dst + (left.take n).length < f.limit
    rw [htake]
    rw [hn] at hlt ⊢
    split_ifs at hlt ⊢ <;> omega

/-- The loop of `Append` ends, and all of the data have been appended. -/
theorem MapFile.appendLoop_spec (hsys : sys.Succeeds) (fuel : ℕ) :
    ∀ {f : MapFile} {data left : Slice}, f.Inv sys old data →
      2 * left.length ≤ fuel + (if f.dst < f.limit then 1 else 0) →
      ∃ f', MapFile.appendLoop sys fuel f left = some (f', true) ∧ f'.Inv sys old (data ++ left) := by
  induction fuel with
  | zero =>
    intro f data left h hfuel
    have hnil : left = [] := by
      rw [← List.length_eq_zero_iff]
      split_ifs at hfuel <;> omega
    subst hnil
    exact ⟨f, rfl, by rw [List.append_nil]; exact h⟩
  | succ fuel ih =>
    intro f data left h hfuel
    cases left with
    | nil => exact ⟨f, rfl, by rw [List.append_nil]; exact h⟩
    | cons b left =>
      obtain ⟨f', n, hround, hinv, hcase, hrest⟩ := h.appendRound hsys (List.cons_ne_nil b left)
      have hfuel' : 2 * ((b :: left).drop n).length ≤ fuel + (if f'.dst < f'.limit then 1 else 0) := by
        rw [List.length_drop]
        rcases hcase with ⟨rfl, hnone, hsome⟩ | ⟨hpos, hsome⟩
        · rw [if_neg hnone] at hfuel
          rw [if_pos hsome]
          omega
        · rw [if_pos hsome] at hfuel
          by_cases hlt : n < (b :: left).length
          · omega
          · omega
      obtain ⟨f'', hloop, hinv'⟩ := ih hinv hfuel'
      refine ⟨f'', ?_, ?_⟩
      · rw [MapFile.appendLoop, hround]
        exact hloop
      · rw [List.append_assoc, List.take_append_drop] at hinv'
        exact hinv'

/-- `Append` succeeds and adds its data at the end, on a system on which views can be mapped. -/
theorem MapFile.Inv.append (h : f.Inv sys old data) (hsys : sys.Succeeds) (more : Slice) :
    ∃ f', f.append sys more = some (f', true) ∧ f'.Inv sys old (data ++ more) :=
  MapFile.appendLoop_spec hsys _ h (Nat.le_add_right _ _)

/-- A state at the head of the loop of `Append`, with the data that are left. -/
inductive MapFile.InAppend (sys : System) (f : MapFile) (data : Slice) : MapFile → Slice → Prop
  /-- The loop begins. -/
  | begin : InAppend sys f data f data
  /-- One more round. -/
  | round {g g' : MapFile} {left left' : Slice} (h : InAppend sys f data g left) (hleft : left ≠ [])
      (hround : g.appendRound sys left = (g', some left')) : InAppend sys f data g' left'

/-- The invariant at the head of the loop. -/
theorem MapFile.Inv.inAppend (h : f.Inv sys old data) (hsys : sys.Succeeds) {more left : Slice}
    {g : MapFile} (hg : MapFile.InAppend sys f more g left) :
    ∃ done, more = done ++ left ∧ g.Inv sys old (data ++ done) := by
  induction hg with
  | begin => exact ⟨[], rfl, by rw [List.append_nil]; exact h⟩
  | @round g g' left left' _ hleft hround ih =>
    obtain ⟨done, hmore, hinv⟩ := ih
    obtain ⟨g'', n, hround', hinv', -⟩ := hinv.appendRound hsys hleft
    obtain ⟨rfl, hsome⟩ := Prod.mk.inj (hround.symm.trans hround')
    obtain rfl := Option.some.inj hsome
    refine ⟨done ++ left.take n, ?_, ?_⟩
    · rw [List.append_assoc, List.take_append_drop]
      exact hmore
    · rw [← List.append_assoc]
      exact hinv'

end Append

/-! ## `Sync` and `Close` -/

section Calls

variable {sys : System} {old : Option Slice} {data : Slice} {f : MapFile}

/-- A flush does not touch the file. -/
theorem MapFile.flush_eq (f : MapFile) (first length : ℕ) (succeeds : Bool) :
    f.flush first length succeeds = { f with flushes := (f.flush first length succeeds).flushes } := by
  unfold MapFile.flush
  split_ifs <;> rfl

/-- The first part of `Sync` does not touch the file. -/
theorem MapFile.syncUnmapped_eq (f : MapFile) (o : FlushResults) :
    (f.syncUnmapped o).1 = { f with
      pendingSync := false
      flushes := (f.syncUnmapped o).1.flushes } := by
  unfold MapFile.syncUnmapped
  split_ifs with hpending
  · exact MapFile.flush_eq _ _ _ _
  · rw [Bool.not_eq_true] at hpending
    rw [← hpending]

/-- The second part of `Sync` moves `_last_sync` to `_dst`, and does not touch the file. -/
theorem MapFile.syncRegion_eq (f : MapFile) (sys : System) (o : FlushResults) :
    (f.syncRegion sys o).1 = { f with
      lastSync := max f.lastSync f.dst
      flushes := (f.syncRegion sys o).1.flushes } := by
  unfold MapFile.syncRegion
  split_ifs with hdst
  · rw [max_eq_right hdst.le]
    exact MapFile.flush_eq _ _ _ _
  · rw [max_eq_left (not_lt.mp hdst)]

/-- `Sync` moves `_last_sync` to `_dst`, and does not touch the file. -/
theorem MapFile.sync_eq (f : MapFile) (sys : System) (o : FlushResults) :
    (f.sync sys o).1 = { f with
      lastSync := max f.lastSync f.dst
      pendingSync := false
      flushes := (f.sync sys o).1.flushes } := by
  have hregion := (f.syncUnmapped o).1.syncRegion_eq sys o
  rw [f.syncUnmapped_eq o] at hregion
  unfold MapFile.sync
  dsimp only
  rw [f.syncUnmapped_eq o]
  exact hregion

/-- `Sync` changes no data, whether its flushes succeed or fail. -/
theorem MapFile.Inv.sync (h : f.Inv sys old data) (o : FlushResults) :
    (f.sync sys o).1.Inv sys old data := by
  by_cases hbase : f.base = 0
  · obtain ⟨rfl, -⟩ := h.unmapped hbase
    exact h
  · rw [f.sync_eq]
    refine ⟨h.mapSize_pos, h.mapSize_dvd, h.base_le.trans (le_max_left _ _), ?_, h.dst_le, h.tiles,
      h.offset_dvd, h.region_dvd, fun hnull => absurd hnull hbase, h.length, h.contents⟩
    exact max_le h.lastSync_le le_rfl

/-- `Close` leaves the data that were appended, or, if there are none, what was there. -/
theorem MapFile.Inv.close_file (h : f.Inv sys old data) :
    f.close.file = if f.base = 0 then old.getD [] else data := by
  unfold MapFile.close MapFile.unmapCurrentRegion
  dsimp only
  by_cases hbase : f.base = 0
  · obtain ⟨rfl, -⟩ := h.unmapped hbase
    rw [if_pos hbase]
    rfl
  · obtain ⟨-, hfile⟩ := h.contents hbase
    have hle := h.base_le.trans h.lastSync_le
    have hdst := h.dst_le
    have hlength := h.length
    unfold MapFile.written at hlength
    rw [if_neg hbase, if_neg hbase]
    by_cases hunused : 0 < f.limit - f.dst
    · rw [if_pos hunused]
      show setEndOfFile (f.fileOffset + (f.limit - f.base) - (f.limit - f.dst)) f.file = data
      have hcut : f.fileOffset + (f.limit - f.base) - (f.limit - f.dst) = data.length := by omega
      rw [hcut, hfile]
      exact resize_front 0 _ _
    · -- The last region is full.
      rw [if_neg hunused]
      show f.file = data
      have hfull : f.regionEnd = data.length := by
        unfold MapFile.regionEnd
        omega
      rw [hfile, hfull, List.drop_eq_nil_of_le (sys.length_background old _).le]
      exact List.append_nil _

/-- The calls between opening and closing a file. -/
inductive Call where
  /-- `Append` -/
  | append (data : Slice)
  /-- `Sync` -/
  | sync (o : FlushResults)

/-- The data that calls append. -/
def appended (calls : List Call) : Slice :=
  calls.flatMap fun
    | .append data => data
    | .sync _ => []

/-- The file after some calls, if they all return. -/
def MapFile.run (sys : System) : MapFile → List Call → Option MapFile
  | f, [] => some f
  | f, .append data :: calls => (f.append sys data).bind fun r => MapFile.run sys r.1 calls
  | f, .sync o :: calls => MapFile.run sys (f.sync sys o).1 calls

/-- Any calls on a file return, and leave the data that they have appended behind the data before. -/
theorem MapFile.Inv.run (hsys : sys.Succeeds) (calls : List Call) :
    ∀ {f : MapFile} {data : Slice}, f.Inv sys old data →
      ∃ f', MapFile.run sys f calls = some f' ∧ f'.Inv sys old (data ++ appended calls) := by
  induction calls with
  | nil =>
    intro f data h
    exact ⟨f, rfl, by rw [appended, List.flatMap_nil, List.append_nil]; exact h⟩
  | cons call calls ih =>
    intro f data h
    cases call with
    | append more =>
      obtain ⟨g, happend, hg⟩ := h.append hsys more
      obtain ⟨f', hrun, hf'⟩ := ih hg
      refine ⟨f', ?_, ?_⟩
      · rw [MapFile.run, happend]
        exact hrun
      · rw [List.append_assoc] at hf'
        exact hf'
    | sync o => exact ih (h.sync o)

/-! ## What is written -/

/-- The file is what was appended, followed by zeros, and its views and pointers are in order. -/
structure MapFile.Writes (f : MapFile) (sys : System) (data : Slice) : Prop where
  /-- Views tile the file from page boundary to page boundary. -/
  tiles : Tiles sys f.regions f.file.length
  /-- The offset of the region is at a page boundary. -/
  offset_dvd : sys.pageSize ∣ f.fileOffset
  /-- `_base` is not behind `_last_sync`. -/
  base_le : f.base ≤ f.lastSync
  /-- `_last_sync` is not behind `_dst`. -/
  lastSync_le : f.lastSync ≤ f.dst
  /-- `_dst` is not behind `_limit`. -/
  dst_le : f.dst ≤ f.limit
  /-- The contents. -/
  contents : ∃ zeros, f.file = data ++ List.replicate zeros 0

/-- The background of a new file is made of zeros. -/
theorem System.background_none (sys : System) {n : ℕ} (h : sys.firstSize ≤ n) :
    sys.background none n = List.replicate n 0 := by
  unfold System.background setEndOfFile
  rw [Option.getD_none, resize_nil, resize_replicate 0 h]

/-- The invariant for a path that did not exist. -/
theorem MapFile.Inv.writes (h : f.Inv sys none data) : f.Writes sys data := by
  by_cases hbase : f.base = 0
  · obtain ⟨rfl, rfl⟩ := h.unmapped hbase
    exact ⟨rfl, h.offset_dvd, h.base_le, h.lastSync_le, h.dst_le, 0, rfl⟩
  · obtain ⟨hfirst, hfile⟩ := h.contents hbase
    have hle : data.length ≤ f.regionEnd := by
      have := h.dst_le
      have := h.length
      unfold MapFile.written at *
      unfold MapFile.regionEnd
      omega
    refine ⟨?_, h.offset_dvd, h.base_le, h.lastSync_le, h.dst_le, f.regionEnd - data.length, ?_⟩
    · have hlen : f.file.length = f.regionEnd := by
        rw [hfile, List.length_append, List.length_drop, sys.length_background]
        omega
      rw [hlen]
      exact h.tiles
    · rw [hfile, sys.background_none hfirst, List.drop_replicate]

/-- On a path that did not exist, after any calls of `Append` and `Sync`, and at every step of the loop
of one more `Append`, the views tile the file, the pointers are in order, and the file is what was
appended so far, followed by zeros. `Close` leaves exactly what was appended. -/
theorem mapFile_writes (sys : System) (hsys : sys.Succeeds) (calls : List Call) :
    ∃ f, MapFile.run sys (sys.openFile none) calls = some f ∧
      (∀ data g left, MapFile.InAppend sys f data g left →
        ∃ done, data = done ++ left ∧ g.Writes sys (appended calls ++ done)) ∧
      f.close.file = appended calls := by
  obtain ⟨f, hrun, hinv⟩ := MapFile.Inv.run hsys calls (sys.openFile_inv none)
  rw [List.nil_append] at hinv
  refine ⟨f, hrun, fun data g left hg => ?_, ?_⟩
  · obtain ⟨done, hdata, hg'⟩ := hinv.inAppend hsys hg
    exact ⟨done, hdata, hg'.writes⟩
  · rw [hinv.close_file]
    split_ifs with hbase
    · rw [(hinv.unmapped hbase).2]
      rfl
    · rfl

/-- A system on which views can be mapped. -/
def exampleSystem : System := ⟨65536, ⟨16, rfl⟩, fun offset => offset + 65536⟩

/-- Two records that are appended to a new file are its contents after it was closed. -/
theorem mapFile_writes_example : exampleSystem.Succeeds ∧ ∃ f,
    MapFile.run exampleSystem (exampleSystem.openFile none)
      [.append (ascii "a"), .sync ⟨true, true⟩, .append (ascii "bc")] = some f ∧
    f.close.file = ascii "abc" := by
  have hsys : exampleSystem.Succeeds := fun offset => Nat.succ_ne_zero _
  obtain ⟨f, hrun, -, hclose⟩ := mapFile_writes exampleSystem hsys
    [.append (ascii "a"), .sync ⟨true, true⟩, .append (ascii "bc")]
  exact ⟨hsys, f, hrun, hclose⟩

end Calls

end LevelDb.Win32
