import LevelDb.Table.Format

/-!
# Accesses of a damaged table

`Footer::DecodeFrom`, `ReadBlock` and `Table::Open` once more, with every access to the bytes that
`RandomAccessFile::Read` returned: `none` stands for an access outside of them, after which nothing is
said. `size_t` has 32 or 64 bits. Where all accesses are inside, the functions are those of
`Table/Format.lean` (`readBlockAccess_eq`). The offsets in the footer are fixed, and the number of bytes
that `ReadBlock` asks for wraps around before it is compared with what was read, so that a short read of
the footer and a block size close to the limit are not noticed.
-/

namespace LevelDb

/-! ## Accesses -/

/-- A byte of a slice. -/
def byteAt (s : Slice) (i : ℕ) : Option UInt8 := s[i]?

/-- `DecodeFixed32` at an index of a slice. -/
def fixed32At (s : Slice) (i : ℕ) : Option ℕ :=
  if i + 4 ≤ s.length then some (decodeFixed32 (s.drop i)) else none

/-- The first bytes of a slice. -/
def frontOf (s : Slice) (n : ℕ) : Option Slice := if n ≤ s.length then some (s.take n) else none

/-- `Footer::DecodeFrom`. Behind the magic number it reads handles up to the end of the slice only. -/
def Footer.decodeFromAccess (input : Slice) : Option (Except Status Footer) := do
  let _ ← fixed32At input (kFooterLength - 8)
  let _ ← fixed32At input (kFooterLength - 8 + 4)
  some (Footer.decodeFrom input)

/-- The comparison of the checksums in `ReadBlock`, for a block of a size. -/
def checksumAccess (width n : ℕ) (contents : Slice) : Option Bool := do
  let crc ← fixed32At contents (n + 1)
  -- The number of bytes is a `size_t`.
  let checked ← frontOf contents ((n + 1) % 2^width)
  some (decide (Crc32c.value 0 checked = Crc32c.unmask crc))

/-- `ReadBlock` -/
def readBlockAccess (width : ℕ) (snappy : Snappy) (file : RandomAccessFile) (verifyChecksums : Bool)
    (handle : BlockHandle) : Option (Except Status Block) :=
  let n := handle.size % 2^width
  match file.read handle.offset ((n + kBlockTrailerSize) % 2^width) with
  | .error s => some (.error s)
  | .ok contents =>
    if contents.length ≠ (n + kBlockTrailerSize) % 2^width then
      some (.error (.corruption (ascii "truncated block read")))
    else do
      let matching ← if verifyChecksums then checksumAccess width n contents else some true
      if matching then
        let type ← byteAt contents n
        let data ← frontOf contents n
        some ((uncompressBlock snappy data type).map Block.new)
      else some (.error (.corruption (ascii "block checksum mismatch")))

/-- `Table::Open`: the index handle and the index block. -/
def openAccess (width : ℕ) (snappy : Snappy) (file : RandomAccessFile) (size : ℕ) :
    Option (Except Status (BlockHandle × Block)) :=
  if size < kFooterLength then
    some (.error (.invalidArgument (ascii "file is too short to be an sstable")))
  else
    match file.read (size - kFooterLength) kFooterLength with
    | .error s => some (.error s)
    | .ok footerInput => do
      match ← Footer.decodeFromAccess footerInput with
      | .error s => some (.error s)
      | .ok footer =>
        let r ← readBlockAccess width snappy file false footer.indexHandle
        some (r.map fun indexBlock => (footer.indexHandle, indexBlock))

/-- A file of some bytes. A read at its end returns what there is. -/
def RandomAccessFile.ofBytes (data : Slice) : RandomAccessFile where
  read offset n := .ok ((data.drop offset).take n)

/-- `ReadBlock` looks at bytes that were read only, and fails if the size of the handle wraps around. -/
def ReadBlockSafe (width : ℕ) (snappy : Snappy) (file : RandomAccessFile) (verifyChecksums : Bool)
    (handle : BlockHandle) : Prop :=
  ∃ r, readBlockAccess width snappy file verifyChecksums handle = some r ∧
    ∀ block, r = .ok block → handle.size + kBlockTrailerSize < 2^width

/-- `Table::Open` looks at bytes that were read only, and fails if the size of the index block wraps
around. -/
def OpenSafe (width : ℕ) (snappy : Snappy) (file : RandomAccessFile) (size : ℕ) : Prop :=
  ∃ r, openAccess width snappy file size = some r ∧
    ∀ handle block, r = .ok (handle, block) → handle.size + kBlockTrailerSize < 2^width

/-! ## `ReadBlock` -/

section ReadBlock

variable {width : ℕ} {snappy : Snappy} {file : RandomAccessFile} {verifyChecksums : Bool}
  {handle : BlockHandle}

/-- The bytes of a block, its type and its checksum, as `ReadBlock` accepts them. -/
def IsStoredBlock (snappy : Snappy) (verifyChecksums : Bool) (n : ℕ) (contents : Slice) : Prop :=
  (verifyChecksums = true →
    Crc32c.value 0 (contents.take (n + 1)) = Crc32c.unmask (decodeFixed32 (contents.drop (n + 1)))) ∧
  ∃ data, uncompressBlock snappy (contents.take n) (contents.getD n 0) = .ok data

/-- What `ReadBlock` makes of the bytes that it has read. -/
def storedBlock (snappy : Snappy) (verifyChecksums : Bool) (n : ℕ) (contents : Slice) : Except Status Block :=
  if verifyChecksums = true ∧
      Crc32c.value 0 (contents.take (n + 1)) ≠ Crc32c.unmask (decodeFixed32 (contents.drop (n + 1))) then
    .error (.corruption (ascii "block checksum mismatch"))
  else (uncompressBlock snappy (contents.take n) (contents.getD n 0)).map Block.new

/-- A block is accepted exactly if its bytes are those of a stored block. -/
theorem exists_storedBlock_iff {n : ℕ} {contents : Slice} :
    (∃ block, storedBlock snappy verifyChecksums n contents = .ok block) ↔
      IsStoredBlock snappy verifyChecksums n contents := by
  unfold storedBlock IsStoredBlock
  split_ifs with hcrc
  · refine iff_of_false (fun h => ?_) fun h => hcrc.2 (h.1 hcrc.1)
    obtain ⟨block, hblock⟩ := h
    cases hblock
  · have hmatches : verifyChecksums = true → Crc32c.value 0 (contents.take (n + 1)) =
        Crc32c.unmask (decodeFixed32 (contents.drop (n + 1))) :=
      fun hverify => by_contra fun hne => hcrc ⟨hverify, hne⟩
    cases uncompressBlock snappy (contents.take n) (contents.getD n 0) with
    | error s =>
      refine iff_of_false (fun h => ?_) fun h => ?_
      · obtain ⟨block, hblock⟩ := h
        cases hblock
      · obtain ⟨-, data, hdata⟩ := h
        cases hdata
    | ok data => exact iff_of_true ⟨_, rfl⟩ ⟨hmatches, data, rfl⟩

/-- All accesses to a block of the right length are inside of it. -/
theorem readBlockAccess_of_fits {contents : Slice} (hlt : handle.size % 2^width + kBlockTrailerSize < 2^width)
    (hread : file.read handle.offset (handle.size % 2^width + kBlockTrailerSize) = .ok contents)
    (hlength : contents.length = handle.size % 2^width + kBlockTrailerSize) :
    readBlockAccess width snappy file verifyChecksums handle =
      some (storedBlock snappy verifyChecksums (handle.size % 2^width) contents) := by
  unfold readBlockAccess storedBlock
  dsimp only
  generalize handle.size % 2^width = n at hlt hread hlength ⊢
  have hn : n < contents.length := by
    rw [hlength]
    exact Nat.lt_add_of_pos_right (by decide)
  have hbyte : byteAt contents n = some (contents.getD n 0) := by
    unfold byteAt
    rw [List.getElem?_eq_getElem hn, List.getD_eq_getElem?_getD, List.getElem?_eq_getElem hn]
    rfl
  have hfront : frontOf contents n = some (contents.take n) := if_pos hn.le
  have hchecksum : checksumAccess width n contents = some (decide
      (Crc32c.value 0 (contents.take (n + 1)) = Crc32c.unmask (decodeFixed32 (contents.drop (n + 1))))) := by
    have hcrc : n + 1 + 4 ≤ contents.length := le_of_eq hlength.symm
    have hmod : (n + 1) % 2^width = n + 1 := Nat.mod_eq_of_lt (by unfold kBlockTrailerSize at hlt; omega)
    unfold checksumAccess fixed32At frontOf
    rw [if_pos hcrc, hmod, if_pos (by omega)]
    rfl
  rw [Nat.mod_eq_of_lt hlt, hread]
  dsimp only
  rw [if_neg (not_not.mpr hlength), hchecksum, hbyte, hfront]
  cases verifyChecksums with
  | false => simp
  | true =>
    by_cases hcrc : Crc32c.value 0 (contents.take (n + 1)) =
        Crc32c.unmask (decodeFixed32 (contents.drop (n + 1)))
    · simp [hcrc]
    · simp [hcrc]

/-- Without wrapping around, `ReadBlock` looks at bytes that were read only, and is the function of
`Table/Format.lean`. -/
theorem readBlockAccess_eq (hwidth : width ≤ 64) (hlt : handle.size + kBlockTrailerSize < 2^width) :
    readBlockAccess width snappy file verifyChecksums handle =
      some (readBlock snappy file verifyChecksums handle) := by
  have hpow : 2^width ≤ 2^64 := Nat.pow_le_pow_right (by decide) hwidth
  have hsize : handle.size % 2^width = handle.size := Nat.mod_eq_of_lt (by omega)
  have hmod : (handle.size + kBlockTrailerSize) % 2^64 = handle.size + kBlockTrailerSize :=
    Nat.mod_eq_of_lt (by omega)
  unfold readBlock
  dsimp only
  rw [hmod]
  cases hread : file.read handle.offset (handle.size + kBlockTrailerSize) with
  | error s =>
    unfold readBlockAccess
    dsimp only
    rw [hsize, Nat.mod_eq_of_lt hlt, hread]
    rfl
  | ok contents =>
    by_cases hlength : contents.length = handle.size + kBlockTrailerSize
    · rw [readBlockAccess_of_fits (hsize.symm ▸ hlt) (hsize.symm ▸ hread) (hsize.symm ▸ hlength), hsize]
      unfold storedBlock
      dsimp only [bind, Except.bind]
      rw [if_neg (not_not.mpr hlength)]
      split_ifs
      · rfl
      · cases uncompressBlock snappy (contents.take handle.size) (contents.getD handle.size 0) <;> rfl
    · unfold readBlockAccess
      dsimp only
      rw [hsize, Nat.mod_eq_of_lt hlt, hread]
      dsimp only
      rw [if_pos hlength]
      dsimp only [bind, Except.bind]
      rw [if_pos hlength]

/-- The number of bytes to read wraps around to less than the size of the trailer. -/
theorem readBlockAccess_of_wraps {contents : Slice} (hwidth : 4 ≤ width)
    (hge : 2^width ≤ handle.size % 2^width + kBlockTrailerSize)
    (hread : file.read handle.offset ((handle.size % 2^width + kBlockTrailerSize) % 2^width) = .ok contents)
    (hlength : contents.length = (handle.size % 2^width + kBlockTrailerSize) % 2^width) :
    readBlockAccess width snappy file verifyChecksums handle = none := by
  have hpow : 2^4 ≤ 2^width := Nat.pow_le_pow_right (by decide) hwidth
  have hlt : handle.size % 2^width < 2^width := Nat.mod_lt _ (Nat.two_pow_pos width)
  unfold readBlockAccess
  dsimp only
  rw [hread]
  dsimp only
  rw [if_neg (not_not.mpr hlength)]
  generalize handle.size % 2^width = n at hge hlength hlt ⊢
  -- The type byte is behind the few bytes that were read.
  have hshort : contents.length < n := by
    rw [hlength, Nat.mod_eq_sub_mod hge, Nat.mod_eq_of_lt] <;> unfold kBlockTrailerSize at * <;> omega
  have hbyte : byteAt contents n = none := List.getElem?_eq_none hshort.le
  have hchecksum : checksumAccess width n contents = none := by
    unfold checksumAccess fixed32At
    rw [if_neg (by omega)]
    rfl
  rw [hchecksum, hbyte]
  cases verifyChecksums <;> rfl

/-- That the size of a handle wraps around is noticed: not so many bytes as the wrapped number can be
read, or they are not a block. -/
def WrapNoticed (width : ℕ) (snappy : Snappy) (file : RandomAccessFile) (verifyChecksums : Bool)
    (handle : BlockHandle) : Prop :=
  ∀ contents, file.read handle.offset ((handle.size + kBlockTrailerSize) % 2^width) = .ok contents →
    contents.length = (handle.size + kBlockTrailerSize) % 2^width →
    handle.size % 2^width + kBlockTrailerSize < 2^width ∧
      ¬IsStoredBlock snappy verifyChecksums (handle.size % 2^width) contents

/-- `ReadBlock` is safe if and only if the size of the handle does not wrap around, or this is noticed. -/
theorem readBlockSafe_iff (hwidth : width = 32 ∨ width = 64) :
    ReadBlockSafe width snappy file verifyChecksums handle ↔
      handle.size + kBlockTrailerSize < 2^width ∨ WrapNoticed width snappy file verifyChecksums handle := by
  by_cases hlt : handle.size + kBlockTrailerSize < 2^width
  · refine iff_of_true ?_ (Or.inl hlt)
    exact ⟨_, readBlockAccess_eq (by omega) hlt, fun _ _ => hlt⟩
  · rw [or_iff_right hlt]
    have hmod : (handle.size % 2^width + kBlockTrailerSize) % 2^width =
        (handle.size + kBlockTrailerSize) % 2^width := Nat.mod_add_mod _ _ _
    unfold ReadBlockSafe WrapNoticed
    -- The size has wrapped around, and so many bytes are read.
    cases hread : file.read handle.offset ((handle.size + kBlockTrailerSize) % 2^width) with
    | error s =>
      refine iff_of_true ⟨.error s, ?_, fun block hblock => by cases hblock⟩ fun contents hread' => by cases hread'
      unfold readBlockAccess
      dsimp only
      rw [hmod, hread]
    | ok contents =>
      by_cases hlength : contents.length = (handle.size + kBlockTrailerSize) % 2^width
      · by_cases hfits : handle.size % 2^width + kBlockTrailerSize < 2^width
        · rw [← hmod, Nat.mod_eq_of_lt hfits] at hread hlength
          rw [readBlockAccess_of_fits hfits hread hlength]
          have hsome := @exists_storedBlock_iff snappy verifyChecksums (handle.size % 2^width) contents
          constructor
          · intro h contents' hcontents _
            obtain ⟨r, hr, hok⟩ := h
            obtain rfl := Except.ok.inj hcontents
            refine ⟨hfits, fun hstored => ?_⟩
            obtain ⟨block, hblock⟩ := hsome.mpr hstored
            exact hlt (hok block ((Option.some.inj hr).symm.trans hblock))
          · intro h
            refine ⟨_, rfl, fun block hblock => ?_⟩
            rw [← hmod, Nat.mod_eq_of_lt hfits] at h
            exact absurd (hsome.mp ⟨block, hblock⟩) (h contents rfl hlength).2
        · rw [readBlockAccess_of_wraps (by omega) (Nat.le_of_not_lt hfits) (hmod ▸ hread) (hmod ▸ hlength)]
          refine iff_of_false (fun h => ?_) fun h => hfits (h contents rfl hlength).1
          obtain ⟨r, hr, -⟩ := h
          exact absurd hr.symm (Option.some_ne_none _)
      · refine iff_of_true ⟨.error (.corruption (ascii "truncated block read")), ?_,
          fun block hblock => by cases hblock⟩ fun contents' hcontents hlength' => ?_
        · unfold readBlockAccess
          dsimp only
          rw [hmod, hread]
          exact if_pos hlength
        · obtain rfl := Except.ok.inj hcontents
          exact absurd hlength' hlength

end ReadBlock

/-! ## `Table::Open` -/

section Open

variable {width size : ℕ} {snappy : Snappy} {data : Slice}

/-- `Footer::DecodeFrom` reads within its input exactly if this is long enough for a footer. -/
theorem Footer.decodeFromAccess_eq (input : Slice) :
    Footer.decodeFromAccess input =
      if kFooterLength ≤ input.length then some (Footer.decodeFrom input) else none := by
  unfold Footer.decodeFromAccess fixed32At
  have hlength : kFooterLength - 8 + 4 + 4 = kFooterLength := by decide
  rw [hlength]
  split_ifs <;> first | rfl | omega

/-- What the index handle of a footer at the end of the claimed size leads to: there is a whole footer, and
a size of the index block that wraps around is noticed. -/
def FooterChecked (width : ℕ) (snappy : Snappy) (data : Slice) (size : ℕ) : Prop :=
  size ≤ data.length ∧
    ∀ footer, Footer.decodeFrom ((data.drop (size - kFooterLength)).take kFooterLength) = .ok footer →
      footer.indexHandle.size + kBlockTrailerSize < 2^width ∨
        WrapNoticed width snappy (.ofBytes data) false footer.indexHandle

/-- `Table::Open` on a file of some bytes with a claimed size is safe if and only if the claimed size is too
small for a table, or the file is not shorter and the index handle is checked. -/
theorem openSafe_iff (hwidth : width = 32 ∨ width = 64) :
    OpenSafe width snappy (.ofBytes data) size ↔
      size < kFooterLength ∨ FooterChecked width snappy data size := by
  unfold OpenSafe openAccess
  by_cases hsmall : size < kFooterLength
  · rw [if_pos hsmall]
    exact iff_of_true ⟨_, rfl, fun handle block h => by cases h⟩ (Or.inl hsmall)
  · rw [if_neg hsmall, or_iff_right hsmall]
    unfold FooterChecked
    -- The footer is complete exactly if the file is as long as it is claimed to be.
    have hread : (RandomAccessFile.ofBytes data).read (size - kFooterLength) kFooterLength =
        .ok ((data.drop (size - kFooterLength)).take kFooterLength) := rfl
    have hlength : kFooterLength ≤ ((data.drop (size - kFooterLength)).take kFooterLength).length ↔
        size ≤ data.length := by
      rw [List.length_take, List.length_drop]
      unfold kFooterLength kMaxHandleLength at *
      omega
    rw [hread]
    generalize (data.drop (size - kFooterLength)).take kFooterLength = input at hlength ⊢
    dsimp only
    rw [Footer.decodeFromAccess_eq]
    by_cases hle : size ≤ data.length
    · rw [if_pos (hlength.mpr hle), and_iff_right hle]
      cases hfooter : Footer.decodeFrom input with
      | error s =>
        refine iff_of_true ⟨.error s, rfl, fun handle block h => by cases h⟩ fun footer h => by cases h
      | ok footer =>
        have hblock := @readBlockSafe_iff width snappy (.ofBytes data) false footer.indexHandle hwidth
        change (∃ r, ((readBlockAccess width snappy (.ofBytes data) false footer.indexHandle).bind
          fun r => some (r.map fun indexBlock => (footer.indexHandle, indexBlock))) = some r ∧ _) ↔ _
        constructor
        · intro h footer' hfooter'
          obtain ⟨r, hr, hok⟩ := h
          obtain rfl := Except.ok.inj hfooter'
          obtain ⟨r', hr', hmap⟩ := Option.bind_eq_some_iff.mp hr
          obtain rfl := Option.some.inj hmap
          refine hblock.mp ⟨r', hr', fun block heq => hok footer.indexHandle block ?_⟩
          rw [heq]
          rfl
        · intro h
          obtain ⟨r, hr, hok⟩ := hblock.mpr (h footer rfl)
          refine ⟨r.map fun indexBlock => (footer.indexHandle, indexBlock),
            Option.bind_eq_some_iff.mpr ⟨r, hr, rfl⟩, fun handle block heq => ?_⟩
          cases r with
          | error s => cases heq
          | ok indexBlock =>
            obtain ⟨rfl, rfl⟩ := Prod.mk.inj (Except.ok.inj heq)
            exact hok _ rfl
    · rw [if_neg (fun h => hle (hlength.mp h))]
      refine iff_of_false (fun h => ?_) fun h => hle h.1
      obtain ⟨r, hr, -⟩ := h
      exact absurd hr.symm (Option.some_ne_none _)

/-- With a whole footer and an index handle that does not wrap around, `Table::Open` is the function of
`Table/Format.lean`. -/
theorem openAccess_eq {cmp : Comparator} (hwidth : width ≤ 64) (hle : size ≤ data.length)
    (hfits : ∀ footer, Footer.decodeFrom ((data.drop (size - kFooterLength)).take kFooterLength) = .ok footer →
      footer.indexHandle.size + kBlockTrailerSize < 2^width) :
    (openAccess width snappy (.ofBytes data) size).map (fun r => r.map Prod.snd) =
      some ((Table.open cmp snappy (.ofBytes data) size).map Table.indexBlock) := by
  unfold openAccess Table.open
  split_ifs with hsmall
  · rfl
  · have hread : (RandomAccessFile.ofBytes data).read (size - kFooterLength) kFooterLength =
        .ok ((data.drop (size - kFooterLength)).take kFooterLength) := rfl
    have hlength : kFooterLength ≤ ((data.drop (size - kFooterLength)).take kFooterLength).length := by
      rw [List.length_take, List.length_drop]
      omega
    rw [hread]
    generalize (data.drop (size - kFooterLength)).take kFooterLength = input at hlength hfits ⊢
    dsimp only [bind, Except.bind]
    rw [Footer.decodeFromAccess_eq, if_pos hlength]
    cases hfooter : Footer.decodeFrom input with
    | error s => rfl
    | ok footer =>
      dsimp only [Option.bind]
      rw [readBlockAccess_eq hwidth (hfits footer hfooter)]
      cases readBlock snappy (RandomAccessFile.ofBytes data) false footer.indexHandle <;> rfl

end Open

/-- On a file of some bytes and with a `size_t` of 32 or 64 bits, `ReadBlock` and `Table::Open` only look
at bytes that were read, and fail if a size wraps around, exactly if: the size of the handle does not wrap
around or this is noticed, and the file is as long as claimed. -/
theorem damaged_table_accesses_iff {width : ℕ} (hwidth : width = 32 ∨ width = 64) (snappy : Snappy)
    (data : Slice) (size : ℕ) (verifyChecksums : Bool) (handle : BlockHandle) :
    (ReadBlockSafe width snappy (.ofBytes data) verifyChecksums handle ↔
      handle.size + kBlockTrailerSize < 2^width ∨
        WrapNoticed width snappy (.ofBytes data) verifyChecksums handle) ∧
    (OpenSafe width snappy (.ofBytes data) size ↔
      size < kFooterLength ∨ FooterChecked width snappy data size) :=
  ⟨readBlockSafe_iff hwidth, openSafe_iff hwidth⟩

/-- A port without Snappy. -/
def noSnappy : Snappy := ⟨fun _ => none, fun _ => none, fun _ => none⟩

/-- A file of five bytes, with a handle that leads behind its end, and a claimed size that is too small. -/
theorem damaged_table_accesses_iff_example :
    ReadBlockSafe 64 noSnappy (.ofBytes [0, 0, 0, 0, 0]) true ⟨3, 100⟩ ∧
      OpenSafe 64 noSnappy (.ofBytes [0, 0, 0, 0, 0]) 5 := by
  obtain ⟨hblock, hopen⟩ := damaged_table_accesses_iff (Or.inr rfl) noSnappy [0, 0, 0, 0, 0] 5 true ⟨3, 100⟩
  exact ⟨hblock.mpr (Or.inl (by decide)), hopen.mpr (Or.inl (by decide))⟩

/-- An empty file that is said to have 48 bytes; a block size of `2^64 - 5`; and one of `2^32` if `size_t` has
32 bits. -/
theorem damaged_table_looks_outside :
    ¬OpenSafe 64 noSnappy (.ofBytes []) 48 ∧
      ¬ReadBlockSafe 64 noSnappy (.ofBytes []) false ⟨0, 2^64 - 5⟩ ∧
      ¬ReadBlockSafe 32 noSnappy (.ofBytes [0, 0, 0, 0, 0]) false ⟨0, 2^32⟩ := by
  refine ⟨fun h => ?_, fun h => ?_, fun h => ?_⟩
  · obtain ⟨r, hr, -⟩ := h
    exact absurd hr.symm (Option.some_ne_none _)
  · obtain ⟨r, hr, -⟩ := h
    exact absurd hr.symm (Option.some_ne_none _)
  · obtain ⟨r, hr, hok⟩ := h
    obtain rfl := Option.some.inj hr
    exact absurd (hok _ rfl) (by decide)

end LevelDb
