import LevelDb.Util.Spelling
import LevelDb.Version.EditObject

/-!
# The grammar of version edits

What `VersionEdit::DecodeFrom` accepts, described without it: fields after one another, each of which is
a tag and what belongs to it. Setting the fields in their order gives the edit
(`EditObject.decodeLoop_eq_iff`). What `EncodeTo` writes is decoded to the same object.
-/

namespace LevelDb

open Lib

/-! ## Fields -/

/-- The tag of a field. -/
def EditField.tag : EditField → Tag
  | .comparator _ => .comparator
  | .logNumber _ => .logNumber
  | .prevLogNumber _ => .prevLogNumber
  | .nextFileNumber _ => .nextFileNumber
  | .lastSequence _ => .lastSequence
  | .compactPointer _ _ => .compactPointer
  | .deletedFile _ _ => .deletedFile
  | .newFile _ _ => .newFile

/-- The spellings of a level that exists. -/
def SpellsLevel (level : ℕ) (word : Slice) : Prop := SpellsVarint32 level word ∧ level < kNumLevels

/-- What may stand behind the tag of a field. -/
def EditField.SpellsPayload : EditField → Slice → Prop
  | .comparator name, word => SpellsString name word
  | .logNumber num, word => SpellsVarint64 num word
  | .prevLogNumber num, word => SpellsVarint64 num word
  | .nextFileNumber num, word => SpellsVarint64 num word
  | .lastSequence seq, word => SpellsVarint64 seq word
  | .compactPointer level key, word =>
    ∃ w1 w2, SpellsLevel level w1 ∧ SpellsString key w2 ∧ word = w1 ++ w2
  | .deletedFile level file, word =>
    ∃ w1 w2, SpellsLevel level w1 ∧ SpellsVarint64 file w2 ∧ word = w1 ++ w2
  | .newFile level f, word =>
    ∃ w1 w2 w3 w4 w5, SpellsLevel level w1 ∧ SpellsVarint64 f.number w2 ∧ SpellsVarint64 f.fileSize w3 ∧
      SpellsString f.smallest w4 ∧ SpellsString f.largest w5 ∧ word = w1 ++ (w2 ++ (w3 ++ (w4 ++ w5)))

/-- The spellings of a field: the tag and what belongs to it. -/
def SpellsField (f : EditField) (word : Slice) : Prop :=
  ∃ tag payload, SpellsVarint32 f.tag.toNat tag ∧ f.SpellsPayload payload ∧ word = tag ++ payload

/-- `GetLevel` accepts the spellings of levels. -/
theorem recognizes_getLevel : Recognizes getLevel SpellsLevel := by
  constructor
  intro input rest level
  have hvarint := @recognizes_getVarint32.iff input rest level
  unfold getLevel
  constructor
  · intro h
    cases hread : getVarint32 input with
    | none =>
      rw [hread] at h
      exact absurd h.symm (Option.some_ne_none _)
    | some read =>
      obtain ⟨v, after⟩ := read
      rw [hread] at h
      dsimp only at h
      split_ifs at h with hlt
      obtain ⟨rfl, rfl⟩ := Prod.mk.inj (Option.some.inj h)
      obtain ⟨word, hword, hinput⟩ := hvarint.mp hread
      exact ⟨word, ⟨hword, hlt⟩, hinput⟩
  · intro h
    obtain ⟨word, ⟨hword, hlt⟩, hinput⟩ := h
    rw [hvarint.mpr ⟨word, hword, hinput⟩]
    exact if_pos hlt

/-- The level and the key of a compaction pointer are read from their spellings, and from nothing else. -/
theorem recognizes_getCompactPointer :
    Recognizes getCompactPointer fun p => (EditField.compactPointer p.1 p.2).SpellsPayload := by
  have hread : Recognizes getCompactPointer _ :=
    recognizes_getLevel.bind fun level =>
      recognizes_getLengthPrefixedSlice.bind fun key => recognizes_pure (level, key)
  refine hread.congr fun p word => ⟨fun h => ?_, fun h => ?_⟩
  · obtain ⟨level, w1, v1, h1, ⟨key, w2, v2, h2, ⟨rfl, rfl⟩, rfl⟩, rfl⟩ := h
    exact ⟨w1, w2, h1, h2, by rw [List.append_nil]⟩
  · obtain ⟨w1, w2, h1, h2, rfl⟩ := h
    exact ⟨p.1, w1, w2, h1, ⟨p.2, w2, [], h2, ⟨rfl, rfl⟩, (List.append_nil _).symm⟩, rfl⟩

/-- The level and the number of a deletion are read from their spellings, and from nothing else. -/
theorem recognizes_getDeletedFile :
    Recognizes getDeletedFile fun d => (EditField.deletedFile d.1 d.2).SpellsPayload := by
  have hread : Recognizes getDeletedFile _ :=
    recognizes_getLevel.bind fun level =>
      recognizes_getVarint64.bind fun number => recognizes_pure (level, number)
  refine hread.congr fun d word => ⟨fun h => ?_, fun h => ?_⟩
  · obtain ⟨level, w1, v1, h1, ⟨number, w2, v2, h2, ⟨rfl, rfl⟩, rfl⟩, rfl⟩ := h
    exact ⟨w1, w2, h1, h2, by rw [List.append_nil]⟩
  · obtain ⟨w1, w2, h1, h2, rfl⟩ := h
    exact ⟨d.1, w1, w2, h1, ⟨d.2, w2, [], h2, ⟨rfl, rfl⟩, (List.append_nil _).symm⟩, rfl⟩

/-- The level, numbers and keys of a new file are read from their spellings, and from nothing else. -/
theorem recognizes_getNewFile :
    Recognizes getNewFile fun n => (EditField.newFile n.1 n.2).SpellsPayload := by
  have hread : Recognizes getNewFile _ :=
    recognizes_getLevel.bind fun level =>
      recognizes_getVarint64.bind fun number =>
        recognizes_getVarint64.bind fun fileSize =>
          recognizes_getLengthPrefixedSlice.bind fun smallest =>
            recognizes_getLengthPrefixedSlice.bind fun largest =>
              recognizes_pure (level, (⟨number, fileSize, smallest, largest⟩ : FileRecord))
  refine hread.congr fun n word => ⟨fun h => ?_, fun h => ?_⟩
  · obtain ⟨level, w1, v1, h1, ⟨number, w2, v2, h2, ⟨fileSize, w3, v3, h3, ⟨smallest, w4, v4, h4,
      ⟨largest, w5, v5, h5, ⟨rfl, rfl⟩, rfl⟩, rfl⟩, rfl⟩, rfl⟩, rfl⟩ := h
    exact ⟨w1, w2, w3, w4, w5, h1, h2, h3, h4, h5, by rw [List.append_nil]⟩
  · obtain ⟨w1, w2, w3, w4, w5, h1, h2, h3, h4, h5, rfl⟩ := h
    exact ⟨n.1, w1, _, h1, ⟨n.2.number, w2, _, h2, ⟨n.2.fileSize, w3, _, h3, ⟨n.2.smallest, w4, _, h4,
      ⟨n.2.largest, w5, [], h5, ⟨rfl, rfl⟩, (List.append_nil _).symm⟩, rfl⟩, rfl⟩, rfl⟩, rfl⟩

/-- A number is decoded to a tag exactly if it is the number of the tag. -/
theorem Tag.decode_eq_some_iff {n : ℕ} {tag : Tag} : Tag.decode n = some tag ↔ n = tag.toNat := by
  constructor
  · intro h
    unfold Tag.decode at h
    split at h
    case h_9 => exact absurd h.symm (Option.some_ne_none _)
    all_goals exact Option.some.inj h ▸ rfl
  · intro h
    rw [h, Tag.decode_toNat]

/-- A field is read exactly if its value is read and makes the field. -/
theorem readField_eq_ok_iff {α : Type} {msg : String} {read : Option (α × Slice)} {make : α → EditField}
    {f : EditField} {rest : Slice} :
    readField msg read make = .ok (f, rest) ↔ ∃ a, read = some (a, rest) ∧ make a = f := by
  unfold readField
  cases read with
  | none =>
    refine iff_of_false (fun h => by cases h) fun h => ?_
    obtain ⟨a, hread, -⟩ := h
    exact absurd hread.symm (Option.some_ne_none _)
  | some p =>
    obtain ⟨a, after⟩ := p
    constructor
    · intro h
      obtain ⟨rfl, rfl⟩ := Prod.mk.inj (Except.ok.inj h)
      exact ⟨a, rfl, rfl⟩
    · intro h
      obtain ⟨a', hread, rfl⟩ := h
      obtain ⟨rfl, rfl⟩ := Prod.mk.inj (Option.some.inj hread)
      rfl

/-- A branch of the switch accepts what belongs to its tag. -/
theorem getField_eq_ok_iff {n : ℕ} {input rest : Slice} {f : EditField} :
    getField n input = .ok (f, rest) ↔
      n = f.tag.toNat ∧ ∃ payload, f.SpellsPayload payload ∧ input = payload ++ rest := by
  constructor
  · intro h
    -- Every branch reads with a reader that recognizes what belongs to its tag.
    have hbranch : ∀ {α : Type} {msg : String} {read : Slice → Option (α × Slice)} {make : α → EditField}
        {tag : Tag}, Tag.decode n = some tag → (∀ a, (make a).tag = tag) →
        Recognizes read (fun a => (make a).SpellsPayload) → readField msg (read input) make = .ok (f, rest) →
        n = f.tag.toNat ∧ ∃ payload, f.SpellsPayload payload ∧ input = payload ++ rest := by
      intro α msg read make tag htag hmake hread hfield
      obtain ⟨a, hsome, rfl⟩ := readField_eq_ok_iff.mp hfield
      rw [hmake]
      exact ⟨Tag.decode_eq_some_iff.mp htag, hread.iff.mp hsome⟩
    unfold getField at h
    split at h
    · next htag => exact hbranch htag (fun _ => rfl) recognizes_getLengthPrefixedSlice h
    · next htag => exact hbranch htag (fun _ => rfl) recognizes_getVarint64 h
    · next htag => exact hbranch htag (fun _ => rfl) recognizes_getVarint64 h
    · next htag => exact hbranch htag (fun _ => rfl) recognizes_getVarint64 h
    · next htag => exact hbranch htag (fun _ => rfl) recognizes_getVarint64 h
    · next htag => exact hbranch htag (fun _ => rfl) recognizes_getCompactPointer h
    · next htag => exact hbranch htag (fun _ => rfl) recognizes_getDeletedFile h
    · next htag => exact hbranch htag (fun _ => rfl) recognizes_getNewFile h
    · cases h
  · intro h
    obtain ⟨rfl, hpayload⟩ := h
    unfold getField
    rw [Tag.decode_toNat]
    cases f with
    | comparator name =>
      exact readField_eq_ok_iff.mpr ⟨name, recognizes_getLengthPrefixedSlice.iff.mpr hpayload, rfl⟩
    | compactPointer level key =>
      exact readField_eq_ok_iff.mpr ⟨(level, key), recognizes_getCompactPointer.iff.mpr hpayload, rfl⟩
    | deletedFile level file =>
      exact readField_eq_ok_iff.mpr ⟨(level, file), recognizes_getDeletedFile.iff.mpr hpayload, rfl⟩
    | newFile level f =>
      exact readField_eq_ok_iff.mpr ⟨(level, f), recognizes_getNewFile.iff.mpr hpayload, rfl⟩
    | _ num => exact readField_eq_ok_iff.mpr ⟨num, recognizes_getVarint64.iff.mpr hpayload, rfl⟩

/-! ## Edits -/

/-- The tag of a field in front of an input. -/
theorem SpellsField.read {f : EditField} {word : Slice} (h : SpellsField f word) (rest : Slice) :
    ∃ after, getVarint32 (word ++ rest) = some (f.tag.toNat, after) ∧
      getField f.tag.toNat after = .ok (f, rest) := by
  obtain ⟨tag, payload, htag, hpayload, rfl⟩ := h
  refine ⟨payload ++ rest, ?_, getField_eq_ok_iff.mpr ⟨rfl, payload, hpayload, rfl⟩⟩
  exact recognizes_getVarint32.iff.mpr ⟨tag, htag, List.append_assoc ..⟩

/-- The loop of `DecodeFrom` accepts what spells fields, and sets them one after another. -/
theorem EditObject.decodeLoop_eq_iff (input : Slice) : ∀ {o o' : EditObject},
    o.decodeLoop input = (o', none) ↔
      ∃ fields, SpellsAll SpellsField fields input ∧ o' = fields.foldl EditObject.set o := by
  -- A string that does not begin with a field is not accepted, unless it is empty.
  have hstuck : ∀ {input : Slice} {o o' : EditObject}, input ≠ [] →
      (∀ tag rest f rest', getVarint32 input = some (tag, rest) → getField tag rest ≠ .ok (f, rest')) →
      ¬∃ fields, SpellsAll SpellsField fields input ∧ o' = fields.foldl EditObject.set o := by
    intro input o o' hinput hnot h
    obtain ⟨fields, ⟨words, hwords, rfl⟩, -⟩ := h
    cases hwords with
    | nil => exact hinput rfl
    | cons hfield _ =>
      obtain ⟨after, htag, hread⟩ := hfield.read _
      exact hnot _ _ _ _ htag hread
  induction input using EditObject.decode_induction with
  | @done input htag =>
    intro o o'
    rw [o.decodeLoop_done htag]
    cases input with
    | nil =>
      constructor
      · intro h
        exact ⟨[], spellsAll_nil _, (congrArg Prod.fst h).symm⟩
      · intro h
        obtain ⟨fields, ⟨words, hwords, hnil⟩, rfl⟩ := h
        cases hwords with
        | nil => rfl
        | cons hfield _ =>
          obtain ⟨after, htag', -⟩ := hfield.read _
          rw [List.flatten_cons] at hnil
          rw [← hnil] at htag'
          exact absurd (htag.symm.trans htag') (Option.some_ne_none _).symm
    | cons byte input =>
      refine iff_of_false (fun h => absurd (congrArg Prod.snd h) (Option.some_ne_none _)) ?_
      refine hstuck (List.cons_ne_nil _ _) fun tag rest f rest' htag' => ?_
      exact absurd (htag.symm.trans htag') (Option.some_ne_none _).symm
  | @error input rest tag msg htag hfield =>
    intro o o'
    rw [o.decodeLoop_error htag hfield]
    refine iff_of_false (fun h => absurd (congrArg Prod.snd h) (Option.some_ne_none _)) ?_
    refine hstuck (fun hnil => ?_) fun tag' rest' f rest'' htag' hfield' => ?_
    · rw [hnil] at htag
      exact absurd htag.symm (Option.some_ne_none _)
    · obtain ⟨rfl, rfl⟩ := Prod.mk.inj (Option.some.inj (htag.symm.trans htag'))
      cases hfield.symm.trans hfield'
  | @more input rest rest' tag f htag hfield ih =>
    intro o o'
    rw [o.decodeLoop_more htag hfield, ih]
    constructor
    · intro h
      obtain ⟨fields, hfields, rfl⟩ := h
      obtain ⟨rfl, payload, hpayload, rfl⟩ := getField_eq_ok_iff.mp hfield
      obtain ⟨word, hword, rfl⟩ := recognizes_getVarint32.iff.mp htag
      refine ⟨f :: fields, ?_, rfl⟩
      rw [← List.append_assoc]
      exact hfields.cons ⟨word, payload, hword, hpayload, rfl⟩
    · intro h
      obtain ⟨fields, ⟨words, hwords, rfl⟩, rfl⟩ := h
      cases hwords with
      | nil => exact absurd htag.symm (Option.some_ne_none _)
      | @cons f' word fields words hword hwords =>
        -- The first field is the one that was read.
        obtain ⟨after, htag', hfield'⟩ := hword.read words.flatten
        obtain ⟨rfl, rfl⟩ := Prod.mk.inj (Option.some.inj (htag.symm.trans htag'))
        obtain ⟨rfl, rfl⟩ := Prod.mk.inj (Except.ok.inj (hfield.symm.trans hfield'))
        exact ⟨fields, ⟨words, hwords, rfl⟩, rfl⟩

/-- `DecodeFrom` into a new object returns OK if and only if the string is a concatenation of spellings of
fields. -/
theorem EditObject.decodeFrom_ok_iff (src : Slice) :
    (EditObject.decodeFrom {} src).2 = none ↔
      ∃ words : List Slice, (∀ word ∈ words, ∃ f, SpellsField f word) ∧ src = words.flatten := by
  rw [← exists_spellsAll_iff]
  have hloop := @EditObject.decodeLoop_eq_iff src (EditObject.clear {})
  unfold EditObject.decodeFrom
  dsimp only
  rw [Option.map_eq_none_iff]
  constructor
  · intro hnone
    obtain ⟨fields, hfields, -⟩ := hloop.mp (Prod.ext rfl hnone)
    exact ⟨fields, hfields⟩
  · intro h
    obtain ⟨fields, hfields⟩ := h
    rw [hloop.mpr ⟨fields, hfields, rfl⟩]

/-! ## Round trip -/

/-- What a setter may be given: a level that exists, numbers of 64 bits, keys that are not empty, and
strings whose length the encoding can hold. -/
def EditField.Fits : EditField → Prop
  | .comparator name => name.length < 2^32
  | .logNumber num => num < 2^64
  | .prevLogNumber num => num < 2^64
  | .nextFileNumber num => num < 2^64
  | .lastSequence seq => seq < 2^64
  | .compactPointer level key => level < kNumLevels ∧ key ≠ [] ∧ key.length < 2^32
  | .deletedFile level file => level < kNumLevels ∧ file < 2^64
  | .newFile level f => level < kNumLevels ∧ f.number < 2^64 ∧ f.fileSize < 2^64 ∧
      (f.smallest ≠ [] ∧ f.smallest.length < 2^32) ∧ f.largest ≠ [] ∧ f.largest.length < 2^32

/-- The fields that an object does not have are as `Clear` sets them. -/
structure EditObject.Defaulted (o : EditObject) : Prop where
  /-- `comparator_` -/
  comparator : o.hasComparator = false → o.comparator = []
  /-- `log_number_` -/
  logNumber : o.hasLogNumber = false → o.logNumber = 0
  /-- `prev_log_number_` -/
  prevLogNumber : o.hasPrevLogNumber = false → o.prevLogNumber = 0
  /-- `next_file_number_` -/
  nextFileNumber : o.hasNextFileNumber = false → o.nextFileNumber = 0
  /-- `last_sequence_` -/
  lastSequence : o.hasLastSequence = false → o.lastSequence = 0

/-- The setters set the flags too. -/
theorem EditObject.Defaulted.set {o : EditObject} (h : o.Defaulted) (f : EditField) :
    (o.set f).Defaulted := by
  have hset : ∀ {p : Prop}, true = false → p := fun hfalse => absurd hfalse.symm Bool.false_ne_true
  cases f with
  | comparator name => exact { h with comparator := hset }
  | logNumber num => exact { h with logNumber := hset }
  | prevLogNumber num => exact { h with prevLogNumber := hset }
  | nextFileNumber num => exact { h with nextFileNumber := hset }
  | lastSequence seq => exact { h with lastSequence := hset }
  | compactPointer level key => exact { h with }
  | deletedFile level file => exact { h with }
  | newFile level f => exact { h with }

/-- An object that setters make of a new one. -/
theorem EditObject.Defaulted.foldl : ∀ (fields : List EditField) {o : EditObject}, o.Defaulted →
    (fields.foldl EditObject.set o).Defaulted
  | [], _, h => h
  | f :: fields, _, h => EditObject.Defaulted.foldl fields (h.set f)

/-- A new object has its defaults in the fields that it does not have. -/
theorem EditObject.defaulted_new : EditObject.Defaulted {} :=
  ⟨fun _ => rfl, fun _ => rfl, fun _ => rfl, fun _ => rfl, fun _ => rfl⟩

/-- A value and its flag can be seen from the record. -/
theorem eq_of_option_eq {α : Type} {has has' : Bool} {a a' default : α} (h : has = false → a = default)
    (h' : has' = false → a' = default)
    (heq : (if has then some a else none) = if has' then some a' else none) : has = has' ∧ a = a' := by
  cases has <;> cases has'
  · exact ⟨rfl, (h rfl).trans (h' rfl).symm⟩
  · exact absurd heq.symm (Option.some_ne_none _)
  · exact absurd heq (Option.some_ne_none _)
  · exact ⟨rfl, Option.some.inj heq⟩

/-- An object without leftovers is given by its record. -/
theorem EditObject.Defaulted.eq {o o' : EditObject} (h : o.Defaulted) (h' : o'.Defaulted)
    (hrecord : o.toRecord = o'.toRecord) : o = o' := by
  obtain ⟨h1, h2⟩ := eq_of_option_eq h.comparator h'.comparator (congrArg EditRecord.comparator hrecord)
  obtain ⟨h3, h4⟩ := eq_of_option_eq h.logNumber h'.logNumber (congrArg EditRecord.logNumber hrecord)
  obtain ⟨h5, h6⟩ := eq_of_option_eq h.prevLogNumber h'.prevLogNumber
    (congrArg EditRecord.prevLogNumber hrecord)
  obtain ⟨h7, h8⟩ := eq_of_option_eq h.nextFileNumber h'.nextFileNumber
    (congrArg EditRecord.nextFileNumber hrecord)
  obtain ⟨h9, h10⟩ := eq_of_option_eq h.lastSequence h'.lastSequence
    (congrArg EditRecord.lastSequence hrecord)
  have h11 : o.compactPointers = o'.compactPointers := congrArg EditRecord.compactPointers hrecord
  have h12 : o.deletedFiles = o'.deletedFiles := congrArg EditRecord.deletedFiles hrecord
  have h13 : o.newFiles = o'.newFiles := congrArg EditRecord.newFiles hrecord
  cases o
  cases o'
  simp only at h1 h2 h3 h4 h5 h6 h7 h8 h9 h10 h11 h12 h13
  subst h1 h2 h3 h4 h5 h6 h7 h8 h9 h10 h11 h12 h13
  rfl

/-- A record that can be spelled, with its deletions in order. -/
structure EditRecord.Spellable (r : EditRecord) : Prop extends r.Encodable where
  /-- The set of deleted files is in order. -/
  sorted : r.deletedFiles.Pairwise deletedBefore

/-- Setting a field that can be spelled. -/
theorem EditRecord.Spellable.set {r : EditRecord} (h : r.Spellable) {f : EditField} (hfits : f.Fits) :
    (r.set f).Spellable := by
  cases f with
  | comparator name => exact { h with comparator := fun _ hmem => Option.some.inj hmem ▸ hfits }
  | logNumber num => exact { h with logNumber := fun _ hmem => Option.some.inj hmem ▸ hfits }
  | prevLogNumber num => exact { h with prevLogNumber := fun _ hmem => Option.some.inj hmem ▸ hfits }
  | nextFileNumber num => exact { h with nextFileNumber := fun _ hmem => Option.some.inj hmem ▸ hfits }
  | lastSequence seq => exact { h with lastSequence := fun _ hmem => Option.some.inj hmem ▸ hfits }
  | compactPointer level key =>
    obtain ⟨hlevel, -, hkey⟩ := hfits
    refine { h with compactPointers := fun p hp => ?_ }
    obtain hp | hp := List.mem_append.mp hp
    · exact h.compactPointers p hp
    · rw [List.mem_singleton.mp hp]
      exact ⟨hlevel, hkey⟩
  | deletedFile level file =>
    refine { h with deletedFiles := fun d hd => ?_, sorted := insertDeleted_sorted h.sorted }
    obtain rfl | hd := mem_insertDeleted.mp hd
    · exact hfits
    · exact h.deletedFiles d hd
  | newFile level f =>
    obtain ⟨hlevel, hnumber, hsize, ⟨-, hsmallest⟩, -, hlargest⟩ := hfits
    refine { h with newFiles := fun n hn => ?_ }
    obtain hn | hn := List.mem_append.mp hn
    · exact h.newFiles n hn
    · rw [List.mem_singleton.mp hn]
      exact ⟨hlevel, hnumber, hsize, hsmallest, hlargest⟩

/-- The record of an object that setters make of a new one. -/
theorem EditObject.spellable_foldl : ∀ (fields : List EditField) {o : EditObject}, o.toRecord.Spellable →
    (∀ f ∈ fields, f.Fits) → (fields.foldl EditObject.set o).toRecord.Spellable
  | [], _, h, _ => h
  | f :: fields, o, h, hfits => by
    have hset : (o.set f).toRecord.Spellable := by
      rw [EditObject.toRecord_set]
      exact h.set (hfits f List.mem_cons_self)
    exact EditObject.spellable_foldl fields hset fun g hg => hfits g (List.mem_cons_of_mem f hg)

/-- The record of a new object has no fields, and can be spelled. -/
theorem EditObject.spellable_new : (EditObject.toRecord {}).Spellable where
  comparator _ h := absurd h.symm (Option.some_ne_none _)
  logNumber _ h := absurd h.symm (Option.some_ne_none _)
  prevLogNumber _ h := absurd h.symm (Option.some_ne_none _)
  nextFileNumber _ h := absurd h.symm (Option.some_ne_none _)
  lastSequence _ h := absurd h.symm (Option.some_ne_none _)
  compactPointers _ h := absurd h List.not_mem_nil
  deletedFiles _ h := absurd h List.not_mem_nil
  newFiles _ h := absurd h List.not_mem_nil
  sorted := List.Pairwise.nil

/-- The encoding of an object that setters have made is decoded to it. -/
theorem EditObject.decodeFrom_encodeTo {fields : List EditField} (hfits : ∀ f ∈ fields, f.Fits) :
    EditObject.decodeFrom {} (fields.foldl EditObject.set {}).encodeTo =
      (fields.foldl EditObject.set {}, none) := by
  have hspellable := EditObject.spellable_foldl fields EditObject.spellable_new hfits
  have hdecoded := EditObject.decodeFrom_toRecord {} (fields.foldl EditObject.set {}).encodeTo
  rw [← EditObject.encodeTo_toRecord] at hdecoded ⊢
  have hnew : EditObject.toRecord {} = {} := rfl
  rw [hnew, EditRecord.decodeFrom_encodeTo hspellable.toEncodable hspellable.sorted] at hdecoded
  generalize hsrc : (fields.foldl EditObject.set {}).toRecord.encodeTo = src at hdecoded ⊢
  rcases hread : EditObject.decodeFrom {} src with ⟨o', status⟩
  rw [hread] at hdecoded
  cases status with
  | some status => cases hdecoded
  | none =>
    have hrecord : (fields.foldl EditObject.set {}).toRecord = o'.toRecord := Except.ok.inj hdecoded
    -- The loop has called setters too.
    have hloop : EditObject.decodeLoop {} src = (o', none) := by
      have hfst := congrArg Prod.fst hread
      have hsnd := congrArg Prod.snd hread
      exact Prod.ext hfst (Option.map_eq_none_iff.mp hsnd)
    obtain ⟨fields', -, rfl⟩ := (EditObject.decodeLoop_eq_iff src).mp hloop
    have heq := (EditObject.defaulted_new.foldl fields).eq (EditObject.defaulted_new.foldl fields') hrecord
    rw [heq]

/-- The encoding of version edits is exact: an object that setters have made of a new one, with names and
keys that are shorter than `2^32` bytes, is decoded from its encoding with every field as it was; and a
string is accepted if and only if it is a concatenation of well-formed fields. -/
theorem versionEdit_encoding_exact :
    (∀ fields : List EditField, (∀ f ∈ fields, f.Fits) →
      EditObject.decodeFrom {} (fields.foldl EditObject.set {}).encodeTo =
        (fields.foldl EditObject.set {}, none)) ∧
    ∀ src : Slice, (EditObject.decodeFrom {} src).2 = none ↔
      ∃ words : List Slice, (∀ word ∈ words, ∃ f, SpellsField f word) ∧ src = words.flatten :=
  ⟨fun _ hfits => EditObject.decodeFrom_encodeTo hfits, EditObject.decodeFrom_ok_iff⟩

/-- An edit with a log number, a compaction pointer and a file, and the edits that a string with a long
spelling of a tag stands for. -/
theorem versionEdit_encoding_exact_example :
    let key : Slice := [107, 1, 1, 0, 0, 0, 0, 0, 0]
    let fields : List EditField := [.logNumber 7, .compactPointer 1 key, .deletedFile 2 5,
      .newFile 0 ⟨8, 100, key, key⟩]
    EditObject.decodeFrom {} (fields.foldl EditObject.set {}).encodeTo =
      (fields.foldl EditObject.set {}, none) ∧ (EditObject.decodeFrom {} [130, 0, 5]).2 = none := by
  refine ⟨versionEdit_encoding_exact.1 _ ?_, (versionEdit_encoding_exact.2 _).mpr ?_⟩
  · intro f hf
    simp only [List.mem_cons, List.not_mem_nil, or_false] at hf
    obtain rfl | rfl | rfl | rfl := hf
    · exact (by decide : 7 < 2^64)
    · exact ⟨by decide, by decide, by decide⟩
    · exact ⟨by decide, by decide⟩
    · exact ⟨by decide, by decide, by decide, ⟨by decide, by decide⟩, by decide, by decide⟩
  · refine ⟨[[130, 0, 5]], fun word hword => ⟨.logNumber 5, [130, 0], [5], ?_, ?_, ?_⟩, rfl⟩
    · exact ⟨CompleteVarint.more (by decide) (CompleteVarint.last (by decide)), rfl⟩
    · exact ⟨CompleteVarint.last (by decide), rfl⟩
    · exact List.mem_singleton.mp hword

/-- A comparator name of zeros is not read back, if there are so many that its length is stored as 0. -/
theorem EditObject.decodeFrom_long_name {n : ℕ} (hn : n % 2^32 = 0) (hpos : 0 < n) :
    (EditObject.decodeFrom {} (EditObject.set {} (.comparator (List.replicate n 0))).encodeTo).2 ≠ none := by
  obtain ⟨m, rfl⟩ := Nat.exists_eq_add_of_lt hpos
  have hencode : (EditObject.set {} (.comparator (List.replicate (0 + m + 1) 0))).encodeTo =
      1 :: 0 :: List.replicate (0 + m + 1) 0 := by
    unfold EditObject.encodeTo EditObject.set putLengthPrefixedSlice
    dsimp only
    rw [List.length_replicate, hn]
    exact List.append_nil _
  have htag : getVarint32 (1 :: 0 :: List.replicate (0 + m + 1) 0) =
      some (1, 0 :: List.replicate (0 + m + 1) 0) := rfl
  have hfield : getField 1 (0 :: List.replicate (0 + m + 1) 0) =
      .ok (.comparator [], List.replicate (0 + m + 1) 0) := rfl
  -- The bytes of the name are taken for a tag.
  have htag' : getVarint32 (List.replicate (0 + m + 1) 0) = some (0, List.replicate (0 + m) 0) := rfl
  have hfield' : getField 0 (List.replicate (0 + m) 0) = .error "unknown tag" := rfl
  rw [hencode]
  unfold EditObject.decodeFrom
  dsimp only
  rw [EditObject.decodeLoop_more _ htag hfield, EditObject.decodeLoop_error _ htag' hfield']
  exact Option.some_ne_none _

/-- The encoding of a comparator name of `2^32` bytes, whose length wraps to 0, is not decoded. -/
theorem long_comparator_name_lost :
    (EditObject.decodeFrom {} (EditObject.set {} (.comparator (List.replicate (2^32) 0))).encodeTo).2 ≠
      none :=
  EditObject.decodeFrom_long_name (Nat.mod_self _) (Nat.two_pow_pos 32)

end LevelDb
