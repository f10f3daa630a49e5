import LevelDb.Version.Encode

/-!
# `VersionEdit` as an object

All fields of the class of `db/version_edit.h`, also the values of those that it does not have, and its
member functions, with the object that a failed `DecodeFrom` leaves. An `EditRecord` is what the flags
leave of an object, and decoding agrees with it (`EditObject.decodeFrom_toRecord`). `Clear` does not clear
`compact_pointers_`, so that an object that is decoded into again has the pointers of both.
-/

namespace LevelDb

/-! ## Fields -/

/-- What a setter or a branch of the switch of `DecodeFrom` is given. -/
inductive EditField where
  /-- `SetComparatorName` -/
  | comparator (name : Slice)
  /-- `SetLogNumber` -/
  | logNumber (num : ℕ)
  /-- `SetPrevLogNumber` -/
  | prevLogNumber (num : ℕ)
  /-- `SetNextFile` -/
  | nextFileNumber (num : ℕ)
  /-- `SetLastSequence` -/
  | lastSequence (seq : ℕ)
  /-- `SetCompactPointer` -/
  | compactPointer (level : ℕ) (key : Slice)
  /-- `DeleteFile` -/
  | deletedFile (level file : ℕ)
  /-- `AddFile` -/
  | newFile (level : ℕ) (f : FileRecord)
  deriving DecidableEq

/-- `VersionEdit`. -/
structure EditObject where
  /-- `comparator_` -/
  comparator : Slice := []
  /-- `log_number_` -/
  logNumber : ℕ := 0
  /-- `prev_log_number_` -/
  prevLogNumber : ℕ := 0
  /-- `next_file_number_` -/
  nextFileNumber : ℕ := 0
  /-- `last_sequence_` -/
  lastSequence : ℕ := 0
  /-- `has_comparator_` -/
  hasComparator : Bool := false
  /-- `has_log_number_` -/
  hasLogNumber : Bool := false
  /-- `has_prev_log_number_` -/
  hasPrevLogNumber : Bool := false
  /-- `has_next_file_number_` -/
  hasNextFileNumber : Bool := false
  /-- `has_last_sequence_` -/
  hasLastSequence : Bool := false
  /-- `compact_pointers_` -/
  compactPointers : List (ℕ × Slice) := []
  /-- `deleted_files_`, in the order of the set. -/
  deletedFiles : List (ℕ × ℕ) := []
  /-- `new_files_` -/
  newFiles : List (ℕ × FileRecord) := []
  deriving DecidableEq

namespace EditObject

/-- `VersionEdit::Clear` -/
def clear (o : EditObject) : EditObject :=
  { o with
    comparator := []
    logNumber := 0
    prevLogNumber := 0
    lastSequence := 0
    nextFileNumber := 0
    hasComparator := false
    hasLogNumber := false
    hasPrevLogNumber := false
    hasNextFileNumber := false
    hasLastSequence := false
    deletedFiles := []
    newFiles := [] }

/-- The setters of `VersionEdit`. -/
def set (o : EditObject) : EditField → EditObject
  | .comparator name => { o with hasComparator := true, comparator := name }
  | .logNumber num => { o with hasLogNumber := true, logNumber := num }
  | .prevLogNumber num => { o with hasPrevLogNumber := true, prevLogNumber := num }
  | .nextFileNumber num => { o with hasNextFileNumber := true, nextFileNumber := num }
  | .lastSequence seq => { o with hasLastSequence := true, lastSequence := seq }
  | .compactPointer level key => { o with compactPointers := o.compactPointers ++ [(level, key)] }
  | .deletedFile level file => { o with deletedFiles := insertDeleted (level, file) o.deletedFiles }
  | .newFile level f => { o with newFiles := o.newFiles ++ [(level, f)] }

/-- `VersionEdit::EncodeTo` -/
def encodeTo (o : EditObject) : Slice :=
  (if o.hasComparator then encodeField .comparator (putLengthPrefixedSlice o.comparator) else []) ++
  ((if o.hasLogNumber then encodeField .logNumber (encodeVarint64 o.logNumber) else []) ++
  ((if o.hasPrevLogNumber then encodeField .prevLogNumber (encodeVarint64 o.prevLogNumber) else []) ++
  ((if o.hasNextFileNumber then encodeField .nextFileNumber (encodeVarint64 o.nextFileNumber) else []) ++
  ((if o.hasLastSequence then encodeField .lastSequence (encodeVarint64 o.lastSequence) else []) ++
  (o.compactPointers.flatMap (fun p => encodeField .compactPointer (encodeCompactPointer p)) ++
  (o.deletedFiles.flatMap (fun d => encodeField .deletedFile (encodeDeletedFile d)) ++
  o.newFiles.flatMap (fun n => encodeField .newFile (encodeNewFile n))))))))

end EditObject

/-- What was read makes a field, or there is an error. -/
def readField {α : Type} (msg : String) (read : Option (α × Slice)) (make : α → EditField) :
    Except String (EditField × Slice) :=
  match read with
  | some (a, rest) => .ok (make a, rest)
  | none => .error msg

/-- The field that a branch of the switch of `VersionEdit::DecodeFrom` reads, or the message of its
error. -/
def getField (tag : ℕ) (input : Slice) : Except String (EditField × Slice) :=
  match Tag.decode tag with
  | some .comparator => readField "comparator name" (getLengthPrefixedSlice input) .comparator
  | some .logNumber => readField "log number" (getVarint64 input) .logNumber
  | some .prevLogNumber => readField "previous log number" (getVarint64 input) .prevLogNumber
  | some .nextFileNumber => readField "next file number" (getVarint64 input) .nextFileNumber
  | some .lastSequence => readField "last sequence number" (getVarint64 input) .lastSequence
  | some .compactPointer => readField "compaction pointer" (getCompactPointer input)
      fun p => .compactPointer p.1 p.2
  | some .deletedFile => readField "deleted file" (getDeletedFile input) fun d => .deletedFile d.1 d.2
  | some .newFile => readField "new-file entry" (getNewFile input) fun n => .newFile n.1 n.2
  | none => .error "unknown tag"

/-- The setters, on records. -/
def EditRecord.set (r : EditRecord) : EditField → EditRecord
  | .comparator name => { r with comparator := some name }
  | .logNumber num => { r with logNumber := some num }
  | .prevLogNumber num => { r with prevLogNumber := some num }
  | .nextFileNumber num => { r with nextFileNumber := some num }
  | .lastSequence seq => { r with lastSequence := some seq }
  | .compactPointer level key => { r with compactPointers := r.compactPointers ++ [(level, key)] }
  | .deletedFile level file => { r with deletedFiles := insertDeleted (level, file) r.deletedFiles }
  | .newFile level f => { r with newFiles := r.newFiles ++ [(level, f)] }

/-- A branch of the switch reads a field and sets it. -/
theorem EditRecord.decodeField_eq (r : EditRecord) (tag : ℕ) (input : Slice) :
    r.decodeField tag input = (getField tag input).map fun p => (r.set p.1, p.2) := by
  unfold decodeField getField setField readField
  cases Tag.decode tag with
  | none => rfl
  | some tag =>
    cases tag with
    | comparator => cases getLengthPrefixedSlice input <;> rfl
    | compactPointer => cases getCompactPointer input <;> rfl
    | deletedFile => cases getDeletedFile input <;> rfl
    | newFile => cases getNewFile input <;> rfl
    | _ => cases getVarint64 input <;> rfl

/-- A field leaves no more than there was. -/
theorem getField_length {tag : ℕ} {input rest : Slice} {f : EditField}
    (h : getField tag input = .ok (f, rest)) : rest.length ≤ input.length := by
  have hfield := EditRecord.decodeField_eq {} tag input
  rw [h] at hfield
  exact EditRecord.decodeField_length hfield

namespace EditObject

/-! ## `DecodeFrom` -/

/-- The loop of `VersionEdit::DecodeFrom`: the object it leaves, and the message of an error. -/
def decodeLoop (o : EditObject) (input : Slice) : EditObject × Option String :=
  match htag : getVarint32 input with
  | some (tag, rest) =>
    match hfield : getField tag rest with
    | .ok (f, rest') =>
      have : rest'.length < input.length := (getField_length hfield).trans_lt (getVarint32_length htag)
      (o.set f).decodeLoop rest'
    | .error msg => (o, some msg)
  | none => (o, if input.isEmpty then none else some "invalid tag")
termination_by input.length

/-- `VersionEdit::DecodeFrom` -/
def decodeFrom (o : EditObject) (src : Slice) : EditObject × Option Status :=
  let r := o.clear.decodeLoop src
  (r.1, r.2.map fun msg => .corruption (statusText (ascii "VersionEdit") (ascii msg)))

/-- When no tag can be read, the loop of `DecodeFrom` ends, with an error unless the input is used up. -/
theorem decodeLoop_done (o : EditObject) {input : Slice} (htag : getVarint32 input = none) :
    o.decodeLoop input = (o, if input.isEmpty then none else some "invalid tag") := by
  rw [decodeLoop]
  split
  · next htag' => exact absurd (htag.symm.trans htag') (Option.some_ne_none _).symm
  · rfl

/-- A field that cannot be read ends the loop of `DecodeFrom` with the error of its tag. -/
theorem decodeLoop_error (o : EditObject) {input rest : Slice} {tag : ℕ} {msg : String}
    (htag : getVarint32 input = some (tag, rest)) (hfield : getField tag rest = .error msg) :
    o.decodeLoop input = (o, some msg) := by
  rw [decodeLoop]
  split
  · next htag' =>
    obtain ⟨rfl, rfl⟩ := Prod.mk.inj (Option.some.inj (htag.symm.trans htag'))
    split
    · next hfield' => cases hfield.symm.trans hfield'
    · next hfield' => rw [Except.error.inj (hfield.symm.trans hfield')]
  · next htag' => exact absurd (htag.symm.trans htag') (Option.some_ne_none _)

/-- A field that is read and set. -/
theorem decodeLoop_more (o : EditObject) {input rest rest' : Slice} {tag : ℕ} {f : EditField}
    (htag : getVarint32 input = some (tag, rest)) (hfield : getField tag rest = .ok (f, rest')) :
    o.decodeLoop input = (o.set f).decodeLoop rest' := by
  rw [decodeLoop]
  split
  · next htag' =>
    obtain ⟨rfl, rfl⟩ := Prod.mk.inj (Option.some.inj (htag.symm.trans htag'))
    split
    · next hfield' =>
      obtain ⟨rfl, rfl⟩ := Prod.mk.inj (Except.ok.inj (hfield.symm.trans hfield'))
      rfl
    · next hfield' => cases hfield.symm.trans hfield'
  · next htag' => exact absurd (htag.symm.trans htag') (Option.some_ne_none _)

/-- Induction over the rounds of the loop: the end, an error, or a field and the rest. -/
theorem decode_induction {motive : Slice → Prop}
    (done : ∀ {input : Slice}, getVarint32 input = none → motive input)
    (error : ∀ {input rest : Slice} {tag : ℕ} {msg : String}, getVarint32 input = some (tag, rest) →
      getField tag rest = .error msg → motive input)
    (more : ∀ {input rest rest' : Slice} {tag : ℕ} {f : EditField}, getVarint32 input = some (tag, rest) →
      getField tag rest = .ok (f, rest') → motive rest' → motive input) (input : Slice) : motive input := by
  cases htag : getVarint32 input with
  | none => exact done htag
  | some read =>
    obtain ⟨tag, rest⟩ := read
    cases hfield : getField tag rest with
    | error msg => exact error htag hfield
    | ok read' =>
      obtain ⟨f, rest'⟩ := read'
      have hlt : rest'.length < input.length := (getField_length hfield).trans_lt (getVarint32_length htag)
      exact more htag hfield (decode_induction done error more rest')
termination_by input.length

/-! ## Records -/

/-- The record of an object: the fields that it has. -/
def toRecord (o : EditObject) : EditRecord where
  comparator := if o.hasComparator then some o.comparator else none
  logNumber := if o.hasLogNumber then some o.logNumber else none
  prevLogNumber := if o.hasPrevLogNumber then some o.prevLogNumber else none
  nextFileNumber := if o.hasNextFileNumber then some o.nextFileNumber else none
  lastSequence := if o.hasLastSequence then some o.lastSequence else none
  compactPointers := o.compactPointers
  deletedFiles := o.deletedFiles
  newFiles := o.newFiles

/-- Setting a field of an object sets it in its record. -/
theorem toRecord_set (o : EditObject) (f : EditField) : (o.set f).toRecord = o.toRecord.set f := by
  cases f <;> rfl

/-- An object is encoded as its record is. -/
theorem encodeTo_toRecord (o : EditObject) : o.toRecord.encodeTo = o.encodeTo := by
  have hoption : ∀ {α : Type} (has : Bool) (tag : Tag) (payload : α → Slice) (a : α),
      encodeOption tag payload (if has then some a else none) =
        if has then encodeField tag (payload a) else [] := by
    intro α has tag payload a
    cases has <;> rfl
  unfold EditRecord.encodeTo encodeTo toRecord
  simp only [hoption]

/-- The loop on an object does what the loop on its record does. -/
theorem decodeLoop_toRecord (input : Slice) : ∀ o : EditObject,
    o.toRecord.decodeLoop input = match o.decodeLoop input with
      | (o', none) => .ok o'.toRecord
      | (_, some msg) => .error msg := by
  induction input using decode_induction with
  | done htag =>
    intro o
    rw [o.decodeLoop_done htag, EditRecord.decodeLoop_done htag]
    split_ifs <;> rfl
  | @error _ rest tag _ htag hfield =>
    intro o
    have hrecord := EditRecord.decodeField_eq o.toRecord tag rest
    rw [hfield] at hrecord
    rw [o.decodeLoop_error htag hfield, EditRecord.decodeLoop_error htag hrecord]
  | @more _ rest _ tag f htag hfield ih =>
    intro o
    have hrecord := EditRecord.decodeField_eq o.toRecord tag rest
    rw [hfield] at hrecord
    rw [o.decodeLoop_more htag hfield, EditRecord.decodeLoop_more htag hrecord, ← ih (o.set f), toRecord_set]

/-- `DecodeFrom` on an object does what it does on its record. -/
theorem decodeFrom_toRecord (o : EditObject) (src : Slice) :
    o.toRecord.decodeFrom src = match o.decodeFrom src with
      | (o', none) => .ok o'.toRecord
      | (_, some status) => .error status := by
  have hclear : o.toRecord.clear = o.clear.toRecord := rfl
  unfold EditRecord.decodeFrom decodeFrom
  rw [hclear, decodeLoop_toRecord]
  rcases o.clear.decodeLoop src with ⟨o', _ | msg⟩ <;> rfl

/-! ## Earlier contents -/

/-- An object with more compaction pointers before its own. -/
def withPointers (ps : List (ℕ × Slice)) (o : EditObject) : EditObject :=
  { o with compactPointers := ps ++ o.compactPointers }

/-- Setters keep the pointers that are there. -/
theorem set_withPointers (ps : List (ℕ × Slice)) (o : EditObject) (f : EditField) :
    (o.withPointers ps).set f = (o.set f).withPointers ps := by
  cases f with
  | compactPointer level key =>
    have happend := List.append_assoc ps o.compactPointers [(level, key)]
    exact congrArg (fun pointers => { o with compactPointers := pointers }) happend
  | _ => rfl

/-- The loop keeps the pointers that are there, and does not look at them. -/
theorem decodeLoop_withPointers (ps : List (ℕ × Slice)) (input : Slice) : ∀ o : EditObject,
    (o.withPointers ps).decodeLoop input =
      ((o.decodeLoop input).1.withPointers ps, (o.decodeLoop input).2) := by
  induction input using decode_induction with
  | done htag =>
    intro o
    rw [decodeLoop_done _ htag, decodeLoop_done _ htag]
  | error htag hfield =>
    intro o
    rw [decodeLoop_error _ htag hfield, decodeLoop_error _ htag hfield]
  | more htag hfield ih =>
    intro o
    rw [decodeLoop_more _ htag hfield, decodeLoop_more _ htag hfield, set_withPointers, ih]

/-- `Clear` leaves a new object with the old pointers. -/
theorem clear_eq (o : EditObject) : o.clear = withPointers o.compactPointers {} := by
  have hpointers : withPointers o.compactPointers {} =
      { compactPointers := o.compactPointers ++ [] : EditObject } := rfl
  rw [hpointers, List.append_nil]
  rfl

/-- Decoding puts what a new object would have behind the old pointers. -/
theorem decodeFrom_eq (o : EditObject) (src : Slice) :
    o.decodeFrom src =
      ((decodeFrom {} src).1.withPointers o.compactPointers, (decodeFrom {} src).2) := by
  have hnew : clear {} = {} := rfl
  unfold decodeFrom
  rw [hnew, clear_eq, decodeLoop_withPointers]

end EditObject

/-- Two objects with any contents, and a string on which `DecodeFrom` returns OK: both have the same
fields after it, and are encoded to the same bytes, if and only if they had the same compaction pointers
before. -/
theorem decodeFrom_same_iff {a b : EditObject} {src : Slice} (hok : (a.decodeFrom src).2 = none) :
    ((b.decodeFrom src).2 = none ∧ (a.decodeFrom src).1 = (b.decodeFrom src).1 ∧
      (a.decodeFrom src).1.encodeTo = (b.decodeFrom src).1.encodeTo) ↔
    a.compactPointers = b.compactPointers := by
  rw [a.decodeFrom_eq] at hok ⊢
  rw [b.decodeFrom_eq]
  constructor
  · intro h
    obtain ⟨-, hsame, -⟩ := h
    have hpointers := congrArg EditObject.compactPointers hsame
    exact List.append_cancel_right hpointers
  · intro h
    rw [h]
    exact ⟨hok, rfl, rfl⟩

/-- Two objects that differ in a log number, and the encoding of an edit with a file to delete. -/
theorem decodeFrom_same_iff_example :
    let a := EditObject.set {} (.logNumber 7)
    (a.decodeFrom [6, 1, 12]).2 = none ∧ (a.decodeFrom [6, 1, 12]).1 = (EditObject.decodeFrom {} [6, 1, 12]).1 := by
  have hok : ((EditObject.set {} (.logNumber 7)).decodeFrom [6, 1, 12]).2 = none := by
    rw [EditObject.decodeFrom]
    have hmore := (EditObject.set {} (.logNumber 7)).clear.decodeLoop_more
      (show getVarint32 [6, 1, 12] = some (6, [1, 12]) from rfl)
      (show getField 6 [1, 12] = .ok (.deletedFile 1 12, []) from rfl)
    rw [hmore, EditObject.decodeLoop_done _ (show getVarint32 [] = none from rfl)]
    rfl
  exact ⟨hok, ((decodeFrom_same_iff hok).mpr rfl).2.1⟩

/-- An object with a compaction pointer, and a new one. -/
theorem decodeFrom_keeps_pointer :
    let a := EditObject.set {} (.compactPointer 1 [107, 1, 1, 0, 0, 0, 0, 0, 0])
    (a.decodeFrom []).2 = none ∧ (EditObject.decodeFrom {} []).2 = none ∧
      (a.decodeFrom []).1 ≠ (EditObject.decodeFrom {} []).1 ∧
      (a.decodeFrom []).1.encodeTo ≠ (EditObject.decodeFrom {} []).1.encodeTo := by
  have hempty : ∀ o : EditObject, o.decodeFrom [] = (o.clear, none) := by
    intro o
    unfold EditObject.decodeFrom
    rw [EditObject.decodeLoop_done _ (show getVarint32 [] = none from rfl)]
    rfl
  intro a
  rw [hempty, hempty]
  exact ⟨rfl, rfl, by decide, by decide⟩

end LevelDb
