import LevelDb.Util.Varint
import LevelDb.Version.Edit

/-!
# The encoding of version edits

`VersionEdit::EncodeTo` and `VersionEdit::DecodeFrom` of `db/version_edit.cc`. The source keeps the
keys of an edit as byte strings, and so does an `EditRecord`; `VersionEdit.toRecord` and
`EditRecord.toEdit` go between the two. What is decoded from an encoded edit is the edit, with its
deletions in the order of the set that the source keeps them in (`EditRecord.decodeFrom_encodeTo`). User
keys are byte strings in some order: `bytes` is their spelling.
-/

namespace LevelDb

variable {K : Type}

/-! ## Internal keys as bytes -/

/-- `AppendInternalKey`: the user key, and the packed tag in eight bytes. -/
def InternalKey.encode (bytes : K ≃ Slice) (k : InternalKey K) : Slice :=
  bytes k.userKey ++ encodeFixed64 k.tag

/-- What the accessors read from the string that `InternalKey::DecodeFrom` was given. They ask for at
least eight bytes. -/
def InternalKey.decode (bytes : K ≃ Slice) (rep : Slice) : InternalKey K :=
  let tag := decodeFixed64 (rep.drop (rep.length - 8))
  .pack (bytes.symm (rep.take (rep.length - 8))) (tag / 2^8)
    (if tag % 2^8 = 0 then .deletion else .value)

/-- The tag of every internal key fits into eight bytes. -/
theorem InternalKey.tag_lt (k : InternalKey K) : k.tag < 2^64 := by
  have hseq := k.sequence_le
  have htype := k.type.toNat_le_one
  unfold kMaxSequenceNumber at hseq
  unfold tag
  omega

/-- An internal key is read back from its string. -/
theorem InternalKey.decode_encode (bytes : K ≃ Slice) (k : InternalKey K) :
    InternalKey.decode bytes (k.encode bytes) = k := by
  have hlen : (k.encode bytes).length - 8 = (bytes k.userKey).length := by
    rw [encode, List.length_append, encodeFixed64_length, Nat.add_sub_cancel]
  have hseq := k.sequence_le
  have htype := k.type.toNat_le_one
  unfold decode
  rw [hlen, encode, List.drop_left, List.take_left, decodeFixed64_encodeFixed64 k.tag_lt,
    Equiv.symm_apply_apply]
  have hdiv : k.tag / 2^8 = k.sequence := by
    unfold tag
    omega
  have hmod : k.tag % 2^8 = k.type.toNat := by
    unfold tag
    omega
  dsimp only
  rw [hdiv, hmod]
  refine InternalKey.ext_of_tag rfl ?_
  unfold tag
  rw [pack_sequence hseq, pack_type]
  cases k.type <;> rfl

/-! ## Records -/

/-- `FileMetaData` as an edit keeps it, with keys as byte strings. -/
structure FileRecord where
  /-- `number` -/
  number : ℕ
  /-- `file_size` -/
  fileSize : ℕ
  /-- `smallest` -/
  smallest : Slice
  /-- `largest` -/
  largest : Slice
  deriving DecidableEq

/-- `VersionEdit` with keys as byte strings. A field that it does not have is `none`. -/
structure EditRecord where
  /-- `comparator_` -/
  comparator : Option Slice := none
  /-- `log_number_` -/
  logNumber : Option ℕ := none
  /-- `prev_log_number_` -/
  prevLogNumber : Option ℕ := none
  /-- `next_file_number_` -/
  nextFileNumber : Option ℕ := none
  /-- `last_sequence_` -/
  lastSequence : Option ℕ := none
  /-- `compact_pointers_` -/
  compactPointers : List (ℕ × Slice) := []
  /-- `deleted_files_`, in the order of the set. -/
  deletedFiles : List (ℕ × ℕ) := []
  /-- `new_files_` -/
  newFiles : List (ℕ × FileRecord) := []
  deriving DecidableEq

/-- The order of the pairs in `DeletedFileSet`. -/
def deletedBefore (a b : ℕ × ℕ) : Prop := a.1 < b.1 ∨ (a.1 = b.1 ∧ a.2 < b.2)

instance (a b : ℕ × ℕ) : Decidable (deletedBefore a b) := instDecidableOr

/-- Insertion into `DeletedFileSet`. -/
def insertDeleted (d : ℕ × ℕ) : List (ℕ × ℕ) → List (ℕ × ℕ)
  | [] => [d]
  | a :: ds =>
    if deletedBefore d a then d :: a :: ds
    else if deletedBefore a d then a :: insertDeleted d ds
    else a :: ds

/-- The set of deleted files that calls of `VersionEdit::DeleteFile` make. -/
def deletedFileSet (ds : List (ℕ × ℕ)) : List (ℕ × ℕ) :=
  ds.foldl (fun set d => insertDeleted d set) []

/-- An edit with its keys as byte strings. -/
def VersionEdit.toRecord (bytes : K ≃ Slice) (edit : VersionEdit K) : EditRecord where
  comparator := edit.comparator
  logNumber := edit.logNumber
  prevLogNumber := edit.prevLogNumber
  nextFileNumber := edit.nextFileNumber
  lastSequence := edit.lastSequence
  compactPointers := edit.compactPointers.map fun p => (p.1, p.2.encode bytes)
  deletedFiles := deletedFileSet edit.deletedFiles
  newFiles := edit.newFiles.map fun n =>
    (n.1, ⟨n.2.number, n.2.fileSize, n.2.smallest.encode bytes, n.2.largest.encode bytes⟩)

/-- An edit as the functions that use it read its keys. -/
def EditRecord.toEdit (bytes : K ≃ Slice) (r : EditRecord) : VersionEdit K where
  comparator := r.comparator
  logNumber := r.logNumber
  prevLogNumber := r.prevLogNumber
  nextFileNumber := r.nextFileNumber
  lastSequence := r.lastSequence
  compactPointers := r.compactPointers.map fun p => (p.1, InternalKey.decode bytes p.2)
  deletedFiles := r.deletedFiles
  newFiles := r.newFiles.map fun n =>
    (n.1, ⟨n.2.number, n.2.fileSize, InternalKey.decode bytes n.2.smallest,
      InternalKey.decode bytes n.2.largest⟩)

/-! ## `EncodeTo` -/

/-- The tags of the fields; 8 was used for large value refs. -/
inductive Tag where
  /-- `kComparator` -/
  | comparator
  /-- `kLogNumber` -/
  | logNumber
  /-- `kNextFileNumber` -/
  | nextFileNumber
  /-- `kLastSequence` -/
  | lastSequence
  /-- `kCompactPointer` -/
  | compactPointer
  /-- `kDeletedFile` -/
  | deletedFile
  /-- `kNewFile` -/
  | newFile
  /-- `kPrevLogNumber` -/
  | prevLogNumber
  deriving DecidableEq, Repr

/-- The number that stands for a tag. -/
def Tag.toNat : Tag → ℕ
  | .comparator => 1
  | .logNumber => 2
  | .nextFileNumber => 3
  | .lastSequence => 4
  | .compactPointer => 5
  | .deletedFile => 6
  | .newFile => 7
  | .prevLogNumber => 9

/-- The tag of a number. -/
def Tag.decode : ℕ → Option Tag
  | 1 => some .comparator
  | 2 => some .logNumber
  | 3 => some .nextFileNumber
  | 4 => some .lastSequence
  | 5 => some .compactPointer
  | 6 => some .deletedFile
  | 7 => some .newFile
  | 9 => some .prevLogNumber
  | _ => none

/-- A field: its tag and what follows it. -/
def encodeField (tag : Tag) (payload : Slice) : Slice := encodeVarint32 tag.toNat ++ payload

/-- An optional field. -/
def encodeOption {α : Type} (tag : Tag) (payload : α → Slice) : Option α → Slice
  | some a => encodeField tag (payload a)
  | none => []

/-- What follows the tag of a compaction pointer. -/
def encodeCompactPointer (p : ℕ × Slice) : Slice := encodeVarint32 p.1 ++ putLengthPrefixedSlice p.2

/-- What follows the tag of a deleted file. -/
def encodeDeletedFile (d : ℕ × ℕ) : Slice := encodeVarint32 d.1 ++ encodeVarint64 d.2

/-- What follows the tag of a new file. -/
def encodeNewFile (n : ℕ × FileRecord) : Slice :=
  encodeVarint32 n.1 ++ (encodeVarint64 n.2.number ++ (encodeVarint64 n.2.fileSize ++
    (putLengthPrefixedSlice n.2.smallest ++ putLengthPrefixedSlice n.2.largest)))

/-- `VersionEdit::EncodeTo`. -/
def EditRecord.encodeTo (r : EditRecord) : Slice :=
  encodeOption .comparator putLengthPrefixedSlice r.comparator ++
  (encodeOption .logNumber encodeVarint64 r.logNumber ++
  (encodeOption .prevLogNumber encodeVarint64 r.prevLogNumber ++
  (encodeOption .nextFileNumber encodeVarint64 r.nextFileNumber ++
  (encodeOption .lastSequence encodeVarint64 r.lastSequence ++
  (r.compactPointers.flatMap (fun p => encodeField .compactPointer (encodeCompactPointer p)) ++
  (r.deletedFiles.flatMap (fun d => encodeField .deletedFile (encodeDeletedFile d)) ++
  r.newFiles.flatMap (fun n => encodeField .newFile (encodeNewFile n))))))))

/-! ## `DecodeFrom` -/

/-- `VersionEdit::Clear`, which leaves the compaction pointers. -/
def EditRecord.clear (r : EditRecord) : EditRecord := { compactPointers := r.compactPointers }

/-- `GetLevel`. -/
def getLevel (input : Slice) : Option (ℕ × Slice) :=
  match getVarint32 input with
  | some (v, rest) => if v < kNumLevels then some (v, rest) else none
  | none => none

/-- The fields of a compaction pointer. -/
def getCompactPointer (input : Slice) : Option ((ℕ × Slice) × Slice) := do
  let (level, input) ← getLevel input
  let (key, input) ← getLengthPrefixedSlice input
  some ((level, key), input)

/-- The fields of a deleted file. -/
def getDeletedFile (input : Slice) : Option ((ℕ × ℕ) × Slice) := do
  let (level, input) ← getLevel input
  let (number, input) ← getVarint64 input
  some ((level, number), input)

/-- The fields of a new file. -/
def getNewFile (input : Slice) : Option ((ℕ × FileRecord) × Slice) := do
  let (level, input) ← getLevel input
  let (number, input) ← getVarint64 input
  let (fileSize, input) ← getVarint64 input
  let (smallest, input) ← getLengthPrefixedSlice input
  let (largest, input) ← getLengthPrefixedSlice input
  some ((level, ⟨number, fileSize, smallest, largest⟩), input)

/-- What a field makes of an edit, or the message of its error. -/
def setField {α : Type} (msg : String) (read : Option (α × Slice)) (set : α → EditRecord) :
    Except String (EditRecord × Slice) :=
  match read with
  | some (a, rest) => .ok (set a, rest)
  | none => .error msg

/-- One branch of the switch of `VersionEdit::DecodeFrom`. -/
def EditRecord.decodeField (r : EditRecord) (tag : ℕ) (input : Slice) :
    Except String (EditRecord × Slice) :=
  match Tag.decode tag with
  | some .comparator => setField "comparator name" (getLengthPrefixedSlice input)
      fun str => { r with comparator := some str }
  | some .logNumber => setField "log number" (getVarint64 input)
      fun n => { r with logNumber := some n }
  | some .prevLogNumber => setField "previous log number" (getVarint64 input)
      fun n => { r with prevLogNumber := some n }
  | some .nextFileNumber => setField "next file number" (getVarint64 input)
      fun n => { r with nextFileNumber := some n }
  | some .lastSequence => setField "last sequence number" (getVarint64 input)
      fun n => { r with lastSequence := some n }
  | some .compactPointer => setField "compaction pointer" (getCompactPointer input)
      fun p => { r with compactPointers := r.compactPointers ++ [p] }
  | some .deletedFile => setField "deleted file" (getDeletedFile input)
      fun d => { r with deletedFiles := insertDeleted d r.deletedFiles }
  | some .newFile => setField "new-file entry" (getNewFile input)
      fun n => { r with newFiles := r.newFiles ++ [n] }
  | none => .error "unknown tag"

/-! ### The loop of `DecodeFrom` -/

/-- A string takes at least one byte. -/
theorem getLengthPrefixedSlice_length {input rest str : Slice}
    (h : getLengthPrefixedSlice input = some (str, rest)) : rest.length < input.length := by
  unfold getLengthPrefixedSlice at h
  split at h
  · rename_i len after hlen
    split_ifs at h
    rw [Option.some.injEq, Prod.mk.injEq] at h
    have hlt := getVarint32_length hlen
    rw [← h.2, List.length_drop]
    omega
  · cases h

/-- A level takes at least one byte. -/
theorem getLevel_length {input rest : Slice} {level : ℕ} (h : getLevel input = some (level, rest)) :
    rest.length < input.length := by
  unfold getLevel at h
  split at h
  · rename_i v after hv
    split_ifs at h
    rw [Option.some.injEq, Prod.mk.injEq] at h
    rw [← h.2]
    exact getVarint32_length hv
  · cases h

/-- A reader that only consumes. -/
def Consumes {α : Type} (read : Slice → Option (α × Slice)) : Prop :=
  ∀ input a rest, read input = some (a, rest) → rest.length ≤ input.length

/-- Nothing is consumed at the end of a sequence of readers. -/
theorem consumes_pure {α : Type} (a : α) : Consumes fun input => some (a, input) := by
  intro input a' rest h
  cases h
  exact le_refl _

/-- If two readers take what they read off the front of the input, then so do both one after the other. -/
theorem Consumes.bind {α β : Type} {read : Slice → Option (α × Slice)}
    {next : α × Slice → Option (β × Slice)} (h : Consumes read)
    (hnext : ∀ a, Consumes fun input => next (a, input)) :
    Consumes fun input => read input >>= next := by
  intro input b rest hb
  obtain ⟨⟨a, mid⟩, hread, hrest⟩ := Option.bind_eq_some_iff.mp hb
  exact (hnext a mid b rest hrest).trans (h input a mid hread)

/-- What `GetLevel` reads it takes off the front of the input. -/
theorem consumes_getLevel : Consumes getLevel := fun _ _ _ h => (getLevel_length h).le

/-- What `GetVarint64` reads it takes off the front of the input. -/
theorem consumes_getVarint64 : Consumes getVarint64 := fun _ _ _ h => (getVarint64_length h).le

/-- What `GetLengthPrefixedSlice` reads it takes off the front of the input. -/
theorem consumes_getLengthPrefixedSlice : Consumes getLengthPrefixedSlice :=
  fun _ _ _ h => (getLengthPrefixedSlice_length h).le

/-- The fields of a compaction pointer are consumed. -/
theorem consumes_getCompactPointer : Consumes getCompactPointer :=
  consumes_getLevel.bind fun level =>
    consumes_getLengthPrefixedSlice.bind fun key => consumes_pure (level, key)

/-- The fields of a deleted file are consumed. -/
theorem consumes_getDeletedFile : Consumes getDeletedFile :=
  consumes_getLevel.bind fun level =>
    consumes_getVarint64.bind fun number => consumes_pure (level, number)

/-- The fields of a new file are consumed. -/
theorem consumes_getNewFile : Consumes getNewFile :=
  consumes_getLevel.bind fun level =>
    consumes_getVarint64.bind fun number =>
      consumes_getVarint64.bind fun fileSize =>
        consumes_getLengthPrefixedSlice.bind fun smallest =>
          consumes_getLengthPrefixedSlice.bind fun largest =>
            consumes_pure (level, (⟨number, fileSize, smallest, largest⟩ : FileRecord))

/-- A field leaves no more than there was. -/
theorem setField_length {α : Type} {msg : String} {read : Slice → Option (α × Slice)}
    {set : α → EditRecord} {input rest : Slice} {r : EditRecord} (hread : Consumes read)
    (h : setField msg (read input) set = .ok (r, rest)) : rest.length ≤ input.length := by
  unfold setField at h
  split at h
  · rename_i a after ha
    cases h
    exact hread _ _ _ ha
  · cases h

/-- Every branch of the switch leaves no more than there was. -/
theorem EditRecord.decodeField_length {r r' : EditRecord} {tag : ℕ} {input rest : Slice}
    (h : r.decodeField tag input = .ok (r', rest)) : rest.length ≤ input.length := by
  unfold decodeField at h
  split at h
  · exact setField_length consumes_getLengthPrefixedSlice h
  · exact setField_length consumes_getVarint64 h
  · exact setField_length consumes_getVarint64 h
  · exact setField_length consumes_getVarint64 h
  · exact setField_length consumes_getVarint64 h
  · exact setField_length consumes_getCompactPointer h
  · exact setField_length consumes_getDeletedFile h
  · exact setField_length consumes_getNewFile h
  · cases h

/-- The loop of `VersionEdit::DecodeFrom`. -/
def EditRecord.decodeLoop (r : EditRecord) (input : Slice) : Except String EditRecord :=
  match htag : getVarint32 input with
  | some (tag, rest) =>
    match hfield : r.decodeField tag rest with
    | .ok (r', rest') =>
      have : rest'.length < input.length :=
        (decodeField_length hfield).trans_lt (getVarint32_length htag)
      r'.decodeLoop rest'
    | .error msg => .error msg
  | none => if input.isEmpty then .ok r else .error "invalid tag"
termination_by input.length

/-- `VersionEdit::DecodeFrom`. -/
def EditRecord.decodeFrom (r : EditRecord) (src : Slice) : Except Status EditRecord :=
  match r.clear.decodeLoop src with
  | .ok r' => .ok r'
  | .error msg => .error (.corruption (statusText (ascii "VersionEdit") (ascii msg)))

/-! ## Round trip -/

/-- What `EncodeTo` can spell: levels that exist, numbers of 64 bits, and strings of less than 4GB. -/
structure EditRecord.Encodable (r : EditRecord) : Prop where
  /-- The comparator name. -/
  comparator : ∀ str ∈ r.comparator, str.length < 2^32
  /-- The log number. -/
  logNumber : ∀ n ∈ r.logNumber, n < 2^64
  /-- The previous log number. -/
  prevLogNumber : ∀ n ∈ r.prevLogNumber, n < 2^64
  /-- The next file number. -/
  nextFileNumber : ∀ n ∈ r.nextFileNumber, n < 2^64
  /-- The last sequence number. -/
  lastSequence : ∀ n ∈ r.lastSequence, n < 2^64
  /-- The compaction pointers. -/
  compactPointers : ∀ p ∈ r.compactPointers, p.1 < kNumLevels ∧ p.2.length < 2^32
  /-- The deleted files. -/
  deletedFiles : ∀ d ∈ r.deletedFiles, d.1 < kNumLevels ∧ d.2 < 2^64
  /-- The new files. -/
  newFiles : ∀ n ∈ r.newFiles, n.1 < kNumLevels ∧ n.2.number < 2^64 ∧ n.2.fileSize < 2^64 ∧
    n.2.smallest.length < 2^32 ∧ n.2.largest.length < 2^32

attribute [mk_iff] EditRecord.Encodable

/-- Whether a record can be encoded is decided field by field. -/
instance (r : EditRecord) : Decidable r.Encodable := decidable_of_iff' _ (EditRecord.encodable_iff r)

/-- `GetLevel` reads back the level that was encoded, and leaves what follows. -/
theorem getLevel_encode {level : ℕ} (h : level < kNumLevels) (suffix : Slice) :
    getLevel (encodeVarint32 level ++ suffix) = some (level, suffix) := by
  have hlt : level < 2^32 := h.trans (by decide)
  unfold getLevel
  rw [getVarint32_encodeVarint32 hlt]
  exact if_pos h

/-- The level and the key of an encoded compaction pointer are read back. -/
theorem getCompactPointer_encode {p : ℕ × Slice} (h : p.1 < kNumLevels ∧ p.2.length < 2^32)
    (suffix : Slice) :
    getCompactPointer (encodeCompactPointer p ++ suffix) = some (p, suffix) := by
  unfold getCompactPointer encodeCompactPointer
  rw [List.append_assoc, getLevel_encode h.1]
  simp only [Option.bind_eq_bind, Option.bind_some, getLengthPrefixedSlice_put h.2]

/-- The level and the number of an encoded deletion are read back. -/
theorem getDeletedFile_encode {d : ℕ × ℕ} (h : d.1 < kNumLevels ∧ d.2 < 2^64) (suffix : Slice) :
    getDeletedFile (encodeDeletedFile d ++ suffix) = some (d, suffix) := by
  unfold getDeletedFile encodeDeletedFile
  rw [List.append_assoc, getLevel_encode h.1]
  simp only [Option.bind_eq_bind, Option.bind_some, getVarint64_encodeVarint64 h.2]

/-- The level, numbers and keys of an encoded new file are read back. -/
theorem getNewFile_encode {n : ℕ × FileRecord} (h : n.1 < kNumLevels ∧ n.2.number < 2^64 ∧
      n.2.fileSize < 2^64 ∧ n.2.smallest.length < 2^32 ∧ n.2.largest.length < 2^32)
    (suffix : Slice) : getNewFile (encodeNewFile n ++ suffix) = some (n, suffix) := by
  obtain ⟨hlevel, hnumber, hsize, hsmallest, hlargest⟩ := h
  unfold getNewFile encodeNewFile
  simp only [List.append_assoc, getLevel_encode hlevel, getVarint64_encodeVarint64 hnumber,
    getVarint64_encodeVarint64 hsize, getLengthPrefixedSlice_put hsmallest,
    getLengthPrefixedSlice_put hlargest, Option.bind_eq_bind, Option.bind_some]

/-- The tag of a field is read back. -/
theorem Tag.decode_toNat (tag : Tag) : Tag.decode tag.toNat = some tag := by
  cases tag <;> rfl

/-- When no tag can be read, the loop of `DecodeFrom` ends, with an error unless the input is used up. -/
theorem EditRecord.decodeLoop_done {r : EditRecord} {input : Slice} (htag : getVarint32 input = none) :
    r.decodeLoop input = if input.isEmpty then .ok r else .error "invalid tag" := by
  rw [decodeLoop]
  split
  · next htag' => exact absurd (htag.symm.trans htag') (Option.some_ne_none _).symm
  · rfl

/-- One turn of the loop that ends with an error. -/
theorem EditRecord.decodeLoop_error {r : EditRecord} {input rest : Slice} {tag : ℕ} {msg : String}
    (htag : getVarint32 input = some (tag, rest)) (hfield : r.decodeField tag rest = .error msg) :
    r.decodeLoop input = .error msg := by
  rw [decodeLoop]
  split
  · next htag' =>
    obtain ⟨rfl, rfl⟩ := Prod.mk.inj (Option.some.inj (htag.symm.trans htag'))
    split
    · next hfield' => cases hfield.symm.trans hfield'
    · next hfield' => rw [Except.error.inj (hfield.symm.trans hfield')]
  · next htag' => exact absurd (htag.symm.trans htag') (Option.some_ne_none _)

/-- One turn of the loop: the tag, and then the field. -/
theorem EditRecord.decodeLoop_more {r r' : EditRecord} {input rest rest' : Slice} {tag : ℕ}
    (htag : getVarint32 input = some (tag, rest)) (hfield : r.decodeField tag rest = .ok (r', rest')) :
    r.decodeLoop input = r'.decodeLoop rest' := by
  rw [decodeLoop]
  split
  · next htag' =>
    obtain ⟨rfl, rfl⟩ := Prod.mk.inj (Option.some.inj (htag.symm.trans htag'))
    split
    · next hfield' =>
      obtain ⟨rfl, rfl⟩ := Prod.mk.inj (Except.ok.inj (hfield.symm.trans hfield'))
      rfl
    · next hfield' => cases hfield.symm.trans hfield'
  · next htag' => exact absurd (htag.symm.trans htag') (Option.some_ne_none _)

/-- One turn of the loop over what the encoder wrote for a field. -/
theorem EditRecord.decodeLoop_field {r r' : EditRecord} {tag : Tag} {payload suffix : Slice}
    (h : r.decodeField tag.toNat (payload ++ suffix) = .ok (r', suffix)) :
    r.decodeLoop (encodeField tag payload ++ suffix) = r'.decodeLoop suffix := by
  have htag : tag.toNat < 2^32 := by cases tag <;> decide
  have hread : getVarint32 (encodeField tag payload ++ suffix) = some (tag.toNat, payload ++ suffix) := by
    unfold encodeField
    rw [List.append_assoc, getVarint32_encodeVarint32 htag]
  exact decodeLoop_more hread h

/-- One turn of the loop over an optional field. -/
theorem EditRecord.decodeLoop_option {α : Type} (set : EditRecord → α → EditRecord) {tag : Tag}
    {payload : α → Slice} {a : Option α} (suffix : Slice) (r : EditRecord)
    (h : ∀ x ∈ a, r.decodeField tag.toNat (payload x ++ suffix) = .ok (set r x, suffix)) :
    r.decodeLoop (encodeOption tag payload a ++ suffix) = (a.elim r (set r)).decodeLoop suffix := by
  cases a with
  | none => rfl
  | some x => exact decodeLoop_field (h x rfl)

/-- The turns of the loop over a list of fields. -/
theorem EditRecord.decodeLoop_list {α : Type} (set : EditRecord → α → EditRecord) {tag : Tag}
    {payload : α → Slice} (suffix : Slice) : ∀ (xs : List α) (r : EditRecord),
    (∀ x ∈ xs, ∀ r suffix, EditRecord.decodeField r tag.toNat (payload x ++ suffix) =
      .ok (set r x, suffix)) →
    r.decodeLoop (xs.flatMap (fun x => encodeField tag (payload x)) ++ suffix) =
      (xs.foldl set r).decodeLoop suffix
  | [], r, _ => rfl
  | x :: xs, r, h => by
    rw [List.flatMap_cons, List.append_assoc, decodeLoop_field (h x List.mem_cons_self r _),
      decodeLoop_list set suffix xs _ fun y hy => h y (List.mem_cons_of_mem x hy)]
    rfl

/-- When the input is used up, the loop of `DecodeFrom` ends with the record so far. -/
theorem EditRecord.decodeLoop_nil (r : EditRecord) : r.decodeLoop [] = .ok r :=
  decodeLoop_done rfl

/-! ### The set of deleted files -/

/-- `insertDeleted` adds its pair and keeps the others. -/
theorem mem_insertDeleted {d x : ℕ × ℕ} : ∀ {ds : List (ℕ × ℕ)},
    x ∈ insertDeleted d ds ↔ x = d ∨ x ∈ ds
  | [] => by simp [insertDeleted]
  | a :: ds => by
    unfold insertDeleted
    split_ifs with h1 h2
    · simp
    · rw [List.mem_cons, mem_insertDeleted, List.mem_cons]
      tauto
    · -- Neither comes before the other, so they are the same pair.
      have heq : d = a := by
        unfold deletedBefore at h1 h2
        refine Prod.ext ?_ ?_ <;> omega
      rw [heq, List.mem_cons, ← or_assoc, or_self]

/-- The set holds the pairs that were inserted. -/
theorem mem_deletedFileSet {x : ℕ × ℕ} {ds : List (ℕ × ℕ)} : x ∈ deletedFileSet ds ↔ x ∈ ds := by
  have hall : ∀ (ds set : List (ℕ × ℕ)),
      x ∈ ds.foldl (fun set d => insertDeleted d set) set ↔ x ∈ set ∨ x ∈ ds := by
    intro ds
    induction ds with
    | nil => simp
    | cons d ds ih =>
      intro set
      rw [List.foldl_cons, ih, mem_insertDeleted, List.mem_cons]
      tauto
  rw [deletedFileSet, hall]
  simp

/-- The order of the pairs is transitive. -/
theorem deletedBefore_trans {a b c : ℕ × ℕ} (hab : deletedBefore a b) (hbc : deletedBefore b c) :
    deletedBefore a c := by
  unfold deletedBefore at *
  omega

/-- Inserting keeps the order of the set. -/
theorem insertDeleted_sorted {d : ℕ × ℕ} : ∀ {ds : List (ℕ × ℕ)}, ds.Pairwise deletedBefore →
    (insertDeleted d ds).Pairwise deletedBefore
  | [], _ => List.pairwise_singleton _ _
  | a :: ds, h => by
    obtain ⟨ha, hs⟩ := List.pairwise_cons.mp h
    unfold insertDeleted
    split_ifs with h1 h2
    · refine List.pairwise_cons.mpr ⟨fun x hx => ?_, h⟩
      rcases List.mem_cons.mp hx with rfl | hx
      · exact h1
      · exact deletedBefore_trans h1 (ha x hx)
    · refine List.pairwise_cons.mpr ⟨fun x hx => ?_, insertDeleted_sorted hs⟩
      rcases mem_insertDeleted.mp hx with rfl | hx
      · exact h2
      · exact ha x hx
    · exact h

/-- The set that calls of `DeleteFile` make is in the order of its levels and numbers. -/
theorem deletedFileSet_sorted (ds : List (ℕ × ℕ)) :
    (deletedFileSet ds).Pairwise deletedBefore := by
  have hall : ∀ (ds set : List (ℕ × ℕ)), set.Pairwise deletedBefore →
      (ds.foldl (fun set d => insertDeleted d set) set).Pairwise deletedBefore := by
    intro ds
    induction ds with
    | nil => exact fun set h => h
    | cons d ds ih => exact fun set h => ih _ (insertDeleted_sorted h)
  exact hall ds [] List.Pairwise.nil

/-- A pair behind all others is inserted at the end. -/
theorem insertDeleted_eq_append {d : ℕ × ℕ} : ∀ {ds : List (ℕ × ℕ)},
    (∀ a ∈ ds, deletedBefore a d) → insertDeleted d ds = ds ++ [d]
  | [], _ => rfl
  | a :: ds, h => by
    have ha := h a List.mem_cons_self
    have hnot : ¬ deletedBefore d a := by
      unfold deletedBefore at ha ⊢
      omega
    rw [insertDeleted, if_neg hnot, if_pos ha,
      insertDeleted_eq_append fun x hx => h x (List.mem_cons_of_mem a hx)]
    rfl

/-- Inserting the pairs of a set in their order gives the set. -/
theorem foldl_insertDeleted_sorted : ∀ (ds set : List (ℕ × ℕ)),
    (set ++ ds).Pairwise deletedBefore →
    ds.foldl (fun set d => insertDeleted d set) set = set ++ ds
  | [], set, _ => by simp
  | d :: ds, set, h => by
    have hbefore : ∀ a ∈ set, deletedBefore a d := fun a ha =>
      (List.pairwise_append.mp h).2.2 a ha d List.mem_cons_self
    rw [List.foldl_cons, insertDeleted_eq_append hbefore, foldl_insertDeleted_sorted ds]
    · rw [List.append_assoc, List.singleton_append]
    · rwa [List.append_assoc, List.singleton_append]

/-! ### Edits -/

/-- Every branch of the switch sets its field from what the encoder wrote for it. -/
theorem EditRecord.decodeField_encode (r : EditRecord) (suffix : Slice) :
    (∀ str : Slice, str.length < 2^32 → r.decodeField Tag.comparator.toNat
      (putLengthPrefixedSlice str ++ suffix) = .ok ({ r with comparator := some str }, suffix)) ∧
    (∀ n < 2^64, r.decodeField Tag.logNumber.toNat (encodeVarint64 n ++ suffix) =
      .ok ({ r with logNumber := some n }, suffix)) ∧
    (∀ n < 2^64, r.decodeField Tag.prevLogNumber.toNat (encodeVarint64 n ++ suffix) =
      .ok ({ r with prevLogNumber := some n }, suffix)) ∧
    (∀ n < 2^64, r.decodeField Tag.nextFileNumber.toNat (encodeVarint64 n ++ suffix) =
      .ok ({ r with nextFileNumber := some n }, suffix)) ∧
    (∀ n < 2^64, r.decodeField Tag.lastSequence.toNat (encodeVarint64 n ++ suffix) =
      .ok ({ r with lastSequence := some n }, suffix)) := by
  unfold decodeField
  simp only [Tag.decode_toNat]
  refine ⟨fun str h => ?_, fun n h => ?_, fun n h => ?_, fun n h => ?_, fun n h => ?_⟩
  · rw [getLengthPrefixedSlice_put h, setField]
  all_goals rw [getVarint64_encodeVarint64 h, setField]

/-- The record after the compaction pointers of a list. -/
theorem foldl_compactPointers (ps : List (ℕ × Slice)) : ∀ r : EditRecord,
    ps.foldl (fun r p => { r with compactPointers := r.compactPointers ++ [p] }) r =
      { r with compactPointers := r.compactPointers ++ ps } := by
  induction ps with
  | nil => simp
  | cons p ps ih => simp [ih]

/-- The record after the deleted files of a list. -/
theorem foldl_deletedFiles (ds : List (ℕ × ℕ)) : ∀ r : EditRecord,
    ds.foldl (fun r d => { r with deletedFiles := insertDeleted d r.deletedFiles }) r =
      { r with deletedFiles := ds.foldl (fun set d => insertDeleted d set) r.deletedFiles } := by
  induction ds with
  | nil => simp
  | cons d ds ih => simp [ih]

/-- The record after the new files of a list. -/
theorem foldl_newFiles (ns : List (ℕ × FileRecord)) : ∀ r : EditRecord,
    ns.foldl (fun r n => { r with newFiles := r.newFiles ++ [n] }) r =
      { r with newFiles := r.newFiles ++ ns } := by
  induction ns with
  | nil => simp
  | cons n ns ih => simp [ih]

/-- A record is read back from its encoding. -/
theorem EditRecord.decodeFrom_encodeTo {r : EditRecord} (h : r.Encodable)
    (hset : r.deletedFiles.Pairwise deletedBefore) :
    EditRecord.decodeFrom {} r.encodeTo = .ok r := by
  have hloop : EditRecord.decodeLoop {} r.encodeTo = .ok r := by
    unfold encodeTo
    -- The scalar fields, in the order in which they are written.
    rw [decodeLoop_option (fun r str => { r with comparator := some str }) _ _ fun str hs =>
      (decodeField_encode _ _).1 str (h.comparator str hs)]
    rw [decodeLoop_option (fun r n => { r with logNumber := some n }) _ _ fun n hn =>
      (decodeField_encode _ _).2.1 n (h.logNumber n hn)]
    rw [decodeLoop_option (fun r n => { r with prevLogNumber := some n }) _ _ fun n hn =>
      (decodeField_encode _ _).2.2.1 n (h.prevLogNumber n hn)]
    rw [decodeLoop_option (fun r n => { r with nextFileNumber := some n }) _ _ fun n hn =>
      (decodeField_encode _ _).2.2.2.1 n (h.nextFileNumber n hn)]
    rw [decodeLoop_option (fun r n => { r with lastSequence := some n }) _ _ fun n hn =>
      (decodeField_encode _ _).2.2.2.2 n (h.lastSequence n hn)]
    -- The lists.
    rw [decodeLoop_list (fun r p => { r with compactPointers := r.compactPointers ++ [p] })]
    swap
    · intro p hp r suffix
      unfold decodeField
      rw [Tag.decode_toNat]
      dsimp only
      rw [getCompactPointer_encode (h.compactPointers p hp), setField]
    rw [decodeLoop_list
      (fun r d => { r with deletedFiles := insertDeleted d r.deletedFiles })]
    swap
    · intro d hd r suffix
      unfold decodeField
      rw [Tag.decode_toNat]
      dsimp only
      rw [getDeletedFile_encode (h.deletedFiles d hd), setField]
    rw [← List.append_nil (r.newFiles.flatMap _),
      decodeLoop_list (fun r n => { r with newFiles := r.newFiles ++ [n] })]
    swap
    · intro n hn r suffix
      unfold decodeField
      rw [Tag.decode_toNat]
      dsimp only
      rw [getNewFile_encode (h.newFiles n hn), setField]
    rw [decodeLoop_nil, foldl_compactPointers, foldl_deletedFiles, foldl_newFiles]
    obtain ⟨comparator, logNumber, prevLogNumber, nextFileNumber, lastSequence, pointers, deleted,
      files⟩ := r
    cases comparator <;> cases logNumber <;> cases prevLogNumber <;> cases nextFileNumber <;>
      cases lastSequence <;>
      simp [foldl_insertDeleted_sorted deleted [] (by simpa using hset)]
  unfold decodeFrom
  rw [show EditRecord.clear {} = {} from rfl, hloop]

/-- An edit with its deletions as a set. -/
def VersionEdit.canonical (edit : VersionEdit K) : VersionEdit K :=
  { edit with deletedFiles := deletedFileSet edit.deletedFiles }

/-- The keys of an edit are read back. -/
theorem VersionEdit.toEdit_toRecord (bytes : K ≃ Slice) (edit : VersionEdit K) :
    (edit.toRecord bytes).toEdit bytes = edit.canonical := by
  unfold toRecord EditRecord.toEdit canonical
  simp only [List.map_map, Function.comp_def, InternalKey.decode_encode]
  simp

end LevelDb
