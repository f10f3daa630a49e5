import LevelDb.Db.Batch
import LevelDb.Util.Spelling
import LevelDb.Version.Edit

/-!
# The bytes of a write batch

`WriteBatch::rep_` is a header of 12 bytes, a sequence number and a count, and the records after it. The
log hands the bytes on, so `InsertInto` may meet any. It adds what the longest sequence of complete
records says, whether or not something else follows them (`BatchRep.insertInto_spec`). What `Put` and
`Delete` write is read back (`BatchRep.iterate_build`), unless a length or the count does not fit into its
field.
-/

namespace LevelDb

open Lib

/-- The operations of a batch of bytes. -/
abbrev ByteUpdate := Update Slice Slice

/-- `WriteBatch::rep_` -/
abbrev BatchRep := Slice

/-- A call of `MemTable::Add`. -/
structure AddCall where
  /-- `s` -/
  sequence : ℕ
  /-- `type` -/
  type : ValueType
  /-- `key` -/
  key : Slice
  /-- `value` -/
  value : Slice
  deriving DecidableEq

namespace BatchRep

/-! ## Building a batch -/

/-- `WriteBatch::Clear` -/
def clear : BatchRep := List.replicate 12 0

/-- `WriteBatchInternal::Count`, an `int` -/
def count (rep : BatchRep) : ℤ := toInt32 (decodeFixed32 (rep.drop 8))

/-- `WriteBatchInternal::SetCount` -/
def setCount (rep : BatchRep) (n : ℤ) : BatchRep :=
  rep.take 8 ++ encodeFixed32 (n % 2^32).toNat ++ rep.drop 12

/-- `WriteBatchInternal::Sequence` -/
def sequence (rep : BatchRep) : ℕ := decodeFixed64 rep

/-- `WriteBatchInternal::SetSequence` -/
def setSequence (rep : BatchRep) (seq : ℕ) : BatchRep := encodeFixed64 seq ++ rep.drop 8

/-- The bytes of a record: the tag, the key, and the value of a `Put`. -/
def encodeRecord : ByteUpdate → Slice
  | .put key value => 1 :: (putLengthPrefixedSlice key ++ putLengthPrefixedSlice value)
  | .delete key => 0 :: putLengthPrefixedSlice key

/-- `WriteBatch::Put` and `WriteBatch::Delete` -/
def push (rep : BatchRep) (u : ByteUpdate) : BatchRep :=
  setCount rep (toInt32 (count rep + 1)) ++ encodeRecord u

/-- The batch of some operations. -/
def build (us : List ByteUpdate) : BatchRep := us.foldl push clear

/-! ## Reading a batch -/

/-- The two calls of `GetLengthPrefixedSlice` for a `Put`. -/
def getKeyValue (input : Slice) : Option ((Slice × Slice) × Slice) := do
  let (key, input) ← getLengthPrefixedSlice input
  let (value, input) ← getLengthPrefixedSlice input
  some ((key, value), input)

/-- A round of the loop of `WriteBatch::Iterate`: a record, or the message of the error. -/
def readRecord : Slice → Except String (ByteUpdate × Slice)
  | [] => .error "unknown WriteBatch tag"
  | tag :: input =>
    if tag = 1 then
      match getKeyValue input with
      | some ((key, value), input) => .ok (.put key value, input)
      | none => .error "bad WriteBatch Put"
    else if tag = 0 then
      match getLengthPrefixedSlice input with
      | some (key, input) => .ok (.delete key, input)
      | none => .error "bad WriteBatch Delete"
    else .error "unknown WriteBatch tag"

/-- The loop of `WriteBatch::Iterate`, from a value of `found` on: the operations that the handler is
called with, and the last value of `found` or the message of the error. The input gets shorter in every
round. -/
def iterateLoop : ℕ → Slice → ℤ → List ByteUpdate × Except String ℤ
  | 0, _, found => ([], .ok found)
  | fuel + 1, input, found =>
    if input.isEmpty then ([], .ok found)
    else
      match readRecord input with
      | .error msg => ([], .error msg)
      | .ok (u, rest) =>
        let r := iterateLoop fuel rest (toInt32 (found + 1))
        (u :: r.1, r.2)

/-- `WriteBatch::Iterate`: the operations that the handler is called with, and the status. -/
def iterate (rep : BatchRep) : List ByteUpdate × Except Status Unit :=
  if rep.length < 12 then ([], .error (.corruption (ascii "malformed WriteBatch (too small)")))
  else
    let input := rep.drop 12
    let r := iterateLoop input.length input 0
    (r.1,
      match r.2 with
      | .error msg => .error (.corruption (ascii msg))
      | .ok found =>
        if found ≠ count rep then .error (.corruption (ascii "WriteBatch has wrong count")) else .ok ())

/-- The call that `MemTableInserter` makes for an operation. -/
def addCall (seq : ℕ) : ByteUpdate → AddCall
  | .put key value => ⟨seq, .value, key, value⟩
  | .delete key => ⟨seq, .deletion, key, []⟩

/-- The calls of `MemTableInserter`, which counts up its `sequence_`. -/
def addCalls : ℕ → List ByteUpdate → List AddCall
  | _, [] => []
  | seq, u :: us => addCall seq u :: addCalls ((seq + 1) % 2^64) us

/-- `WriteBatchInternal::InsertInto`: the calls of `MemTable::Add`, and the status. -/
def insertInto (rep : BatchRep) : List AddCall × Except Status Unit :=
  (addCalls (sequence rep) (iterate rep).1, (iterate rep).2)

/-! ## The grammar of records -/

/-- The spellings of a record: the tag, and the strings that belong to it. -/
def SpellsRecord : ByteUpdate → Slice → Prop
  | .put key value, word => ∃ w1 w2, SpellsString key w1 ∧ SpellsString value w2 ∧ word = 1 :: (w1 ++ w2)
  | .delete key, word => ∃ w1, SpellsString key w1 ∧ word = 0 :: w1

/-- The two strings of a `Put` are read from the spelling of one behind the spelling of the other. -/
theorem recognizes_getKeyValue : Recognizes getKeyValue fun p word =>
    ∃ w1 w2, SpellsString p.1 w1 ∧ SpellsString p.2 w2 ∧ word = w1 ++ w2 := by
  have hread : Recognizes getKeyValue _ :=
    recognizes_getLengthPrefixedSlice.bind fun key =>
      recognizes_getLengthPrefixedSlice.bind fun value => recognizes_pure (key, value)
  refine hread.congr fun p word => ⟨fun h => ?_, fun h => ?_⟩
  · obtain ⟨key, w1, v1, h1, ⟨value, w2, v2, h2, ⟨rfl, rfl⟩, rfl⟩, rfl⟩ := h
    exact ⟨w1, w2, h1, h2, by rw [List.append_nil]⟩
  · obtain ⟨w1, w2, h1, h2, rfl⟩ := h
    exact ⟨p.1, w1, w2, h1, ⟨p.2, w2, [], h2, ⟨rfl, rfl⟩, (List.append_nil _).symm⟩, rfl⟩

/-- A record begins with its tag. -/
theorem SpellsRecord.exists_cons {u : ByteUpdate} {word : Slice} (h : SpellsRecord u word) :
    ∃ tag payload, word = tag :: payload := by
  cases u with
  | put key value =>
    obtain ⟨w1, w2, -, -, rfl⟩ := h
    exact ⟨_, _, rfl⟩
  | delete key =>
    obtain ⟨w1, -, rfl⟩ := h
    exact ⟨_, _, rfl⟩

/-- A record takes at least the byte of its tag. -/
theorem SpellsRecord.ne_nil (u : ByteUpdate) (word : Slice) (h : SpellsRecord u word) : word ≠ [] := by
  obtain ⟨tag, payload, rfl⟩ := h.exists_cons
  exact List.cons_ne_nil tag payload

/-- `Iterate` reads the spellings of records. -/
theorem readRecord_eq_ok_iff {input rest : Slice} {u : ByteUpdate} :
    readRecord input = .ok (u, rest) ↔ ∃ word, SpellsRecord u word ∧ input = word ++ rest := by
  constructor
  · intro h
    unfold readRecord at h
    split at h
    · exact nomatch h
    · next tag input =>
      split_ifs at h with hput hdelete
      · subst hput
        split at h
        · next key value after hread =>
          obtain ⟨rfl, rfl⟩ := Prod.mk.inj (Except.ok.inj h)
          obtain ⟨word, ⟨w1, w2, h1, h2, rfl⟩, rfl⟩ := recognizes_getKeyValue.iff.mp hread
          exact ⟨1 :: (w1 ++ w2), ⟨w1, w2, h1, h2, rfl⟩, rfl⟩
        · exact nomatch h
      · subst hdelete
        split at h
        · next key after hread =>
          obtain ⟨rfl, rfl⟩ := Prod.mk.inj (Except.ok.inj h)
          obtain ⟨word, hword, rfl⟩ := recognizes_getLengthPrefixedSlice.iff.mp hread
          exact ⟨0 :: word, ⟨word, hword, rfl⟩, rfl⟩
        · exact nomatch h
  -- Conversely a spelling is read tag by tag.
  · rintro ⟨word, hword, rfl⟩
    cases u with
    | put key value =>
      obtain ⟨w1, w2, h1, h2, rfl⟩ := hword
      have hread : getKeyValue (w1 ++ w2 ++ rest) = some ((key, value), rest) :=
        recognizes_getKeyValue.iff.mpr ⟨w1 ++ w2, ⟨w1, w2, h1, h2, rfl⟩, rfl⟩
      rw [List.cons_append, readRecord, if_pos rfl, hread]
    | delete key =>
      obtain ⟨w1, h1, rfl⟩ := hword
      have hread : getLengthPrefixedSlice (w1 ++ rest) = some (key, rest) :=
        recognizes_getLengthPrefixedSlice.iff.mpr ⟨w1, h1, rfl⟩
      rw [List.cons_append, readRecord, if_neg (by decide), if_pos rfl, hread]

/-- A round of `Iterate` reads what spells a record, and reads nothing else as one. -/
theorem recognizes_readRecord : Recognizes (fun input => (readRecord input).toOption) SpellsRecord := by
  constructor
  intro input rest u
  rw [← readRecord_eq_ok_iff]
  cases readRecord input with
  | error msg => exact iff_of_false (fun h => nomatch h) fun h => nomatch h
  | ok r => exact ⟨fun h => congrArg _ (Option.some.inj h), fun h => congrArg _ (Except.ok.inj h)⟩

/-! ## What is read -/

/-- A number that an `int` can hold is held. -/
theorem toInt32_eq {n : ℤ} (h0 : 0 ≤ n) (hn : n < 2^31) : toInt32 n = n := by
  unfold toInt32
  apply Int.bmod_eq_of_le <;> omega

/-- The bits of an `int` are those of the number. -/
theorem toInt32_emod (n : ℤ) : toInt32 n % 2^32 = n % 2^32 := by
  have h := @Int.bmod_emod n (2^32)
  exact_mod_cast h

/-- How the loop ends: it fails if something is left, and has counted the records else, if an `int` can
hold their number. -/
def LoopEnds (found : ℤ) (us : List ByteUpdate) (rest : Slice) : Except String ℤ → Prop
  | .error _ => rest ≠ []
  | .ok n => rest = [] ∧ (0 ≤ found → found + us.length < 2^31 → n = found + us.length)

/-- The loop reads the longest sequence of records. -/
theorem iterateLoop_spec : ∀ {fuel : ℕ} {input : Slice} (found : ℤ), input.length ≤ fuel →
    ∃ rest, LongestPrefix SpellsRecord input (iterateLoop fuel input found).1 rest ∧
      LoopEnds found (iterateLoop fuel input found).1 rest (iterateLoop fuel input found).2
  | fuel, [], found, _ => by
    have hdone : iterateLoop fuel [] found = ([], .ok found) := by
      cases fuel <;> rfl
    rw [hdone]
    refine ⟨[], LongestPrefix.nil ?_, rfl, fun _ _ => (add_zero found).symm⟩
    rintro u word rest' hword hnil
    obtain ⟨tag, payload, rfl⟩ := hword.exists_cons
    exact nomatch hnil
  | fuel + 1, tag :: input, found, hfuel => by
    rw [iterateLoop, if_neg (by simp)]
    -- A record that cannot be read ends the loop; one that can be is the first of the longest sequence.
    cases hread : readRecord (tag :: input) with
    | error msg =>
      refine ⟨tag :: input, LongestPrefix.nil ?_, List.cons_ne_nil _ _⟩
      rintro u word rest' hword hinput
      have hok : readRecord (tag :: input) = .ok (u, rest') :=
        readRecord_eq_ok_iff.mpr ⟨word, hword, hinput⟩
      rw [hread] at hok
      exact nomatch hok
    | ok r =>
      obtain ⟨u, after⟩ := r
      dsimp only
      obtain ⟨word, hword, hinput⟩ := readRecord_eq_ok_iff.mp hread
      have hlen : after.length ≤ fuel := by
        obtain ⟨t, payload, rfl⟩ := hword.exists_cons
        have hlength := congrArg List.length hinput
        simp only [List.length_cons, List.length_append] at hlength hfuel
        omega
      obtain ⟨rest, hlongest, hends⟩ := iterateLoop_spec (toInt32 (found + 1)) hlen
      rw [hinput]
      refine ⟨rest, hlongest.cons hword, ?_⟩
      generalize iterateLoop fuel after (toInt32 (found + 1)) = r at hends ⊢
      obtain ⟨us, result⟩ := r
      cases result with
      | error msg => exact hends
      | ok n =>
        obtain ⟨hnil, hcount⟩ := hends
        refine ⟨hnil, fun hfound hlt => ?_⟩
        dsimp only [List.length_cons] at hcount hlt ⊢
        have hnext : toInt32 (found + 1) = found + 1 := by
          apply toInt32_eq <;> omega
        rw [hnext] at hcount
        have hn := hcount (by omega) (by omega)
        omega

/-- The numbers that a counter of 64 bits gives to the operations, if it does not overflow. -/
theorem addCalls_eq : ∀ {us : List ByteUpdate} {seq : ℕ}, seq + us.length ≤ 2^64 →
    addCalls seq us = us.mapIdx fun i u => addCall (seq + i) u
  | [], _, _ => rfl
  | u :: us, seq, h => by
    rw [List.length_cons] at h
    rw [addCalls, List.mapIdx_cons, Nat.add_zero]
    cases us with
    | nil => rfl
    | cons u' us =>
      rw [List.length_cons] at h
      have hnext : (seq + 1) % 2^64 = seq + 1 := Nat.mod_eq_of_lt (by omega)
      rw [hnext, addCalls_eq (by rw [List.length_cons]; omega)]
      congr 1
      apply List.mapIdx_eq_mapIdx_iff.mpr
      intro i _
      rw [Nat.add_assoc, Nat.add_comm 1 i]

/-- The count of a header as a natural number. -/
def headerCount (rep : BatchRep) : ℕ := decodeFixed32 (rep.drop 8)

/-- A number below `2^31` is what `Count` says iff it is in the header. -/
theorem eq_count_iff {rep : BatchRep} {n : ℕ} (h : n < 2^31) :
    (n : ℤ) = count rep ↔ n = headerCount rep := by
  have hlt : headerCount rep < 2^32 := decodeFixed32_lt _
  unfold count
  change (n : ℤ) = toInt32 (headerCount rep) ↔ _
  generalize headerCount rep = c at hlt
  unfold toInt32
  rw [Int.bmod_def]
  split_ifs <;> omega

/-- The operations of the longest sequence of complete records in front of some bytes, and what is left
after them. -/
structure CompleteRecords (input : Slice) (us : List ByteUpdate) (rest : Slice) : Prop where
  /-- The operations are spelled in front. -/
  spelled : ∃ word, SpellsAll SpellsRecord us word ∧ input = word ++ rest
  /-- Every other sequence of records in front is a part of it. -/
  longest : ∀ us' word' rest', SpellsAll SpellsRecord us' word' → input = word' ++ rest' → us' <+: us

/-- The complete records at the front of a batch are the longest sequence of operations that is read. -/
theorem completeRecords {input rest : Slice} {us : List ByteUpdate}
    (h : LongestPrefix SpellsRecord input us rest) : CompleteRecords input us rest :=
  ⟨h.spelled, fun _ _ _ hword hinput => h.isPrefix recognizes_readRecord hword hinput⟩

/-- `InsertInto` on any bytes with a header: the calls of `MemTable::Add` are those for the longest
sequence of complete records, with consecutive sequence numbers from the header, and the status is OK iff
nothing is left after them and their number is in the header. -/
theorem insertInto_spec {rep : BatchRep} (hlen : 12 ≤ rep.length) (hseq : sequence rep < 2^55)
    (hcount : ∀ us word rest, SpellsAll SpellsRecord us word → rep.drop 12 = word ++ rest →
      us.length < 2^31) :
    ∃ us rest, CompleteRecords (rep.drop 12) us rest ∧
      (insertInto rep).1 = us.mapIdx (fun i u => addCall (sequence rep + i) u) ∧
      ((insertInto rep).2 = .ok () ↔ rest = [] ∧ us.length = headerCount rep) := by
  obtain ⟨rest, hlongest, hends⟩ := iterateLoop_spec 0 (le_refl (rep.drop 12).length)
  unfold insertInto iterate
  rw [if_neg (Nat.not_lt.mpr hlen)]
  dsimp only
  generalize iterateLoop (rep.drop 12).length (rep.drop 12) 0 = r at hlongest hends ⊢
  obtain ⟨us, result⟩ := r
  dsimp only at hlongest hends ⊢
  have hus : us.length < 2^31 := by
    obtain ⟨⟨word, hword, hrest⟩, -⟩ := hlongest
    exact hcount us word rest hword hrest
  refine ⟨us, rest, completeRecords hlongest, addCalls_eq (by omega), ?_⟩
  cases result with
  | error msg =>
    have hne : rest ≠ [] := hends
    exact iff_of_false (fun h => nomatch h) fun h => hne h.1
  | ok n =>
    obtain ⟨hnil, hn⟩ := hends
    have hn' : n = us.length := (hn (le_refl _) (by omega)).trans (zero_add _)
    dsimp only
    rw [hn']
    split_ifs with hne
    · refine iff_of_false (fun h => nomatch h) fun h => hne ?_
      exact (eq_count_iff hus).mpr h.2
    · exact iff_of_true rfl ⟨hnil, (eq_count_iff hus).mp (not_not.mp hne)⟩

/-! ## Batches that were built -/

/-- The lengths of an operation fit into their fields. -/
def Fits : ByteUpdate → Prop
  | .put key value => key.length < 2^32 ∧ value.length < 2^32
  | .delete key => key.length < 2^32

instance : DecidablePred Fits
  | .put _ _ => instDecidableAnd
  | .delete _ => Nat.decLt _ _

/-- The length of a string that is spelled has 32 bits. -/
theorem SpellsString.length_lt {str word : Slice} (h : SpellsString str word) : str.length < 2^32 := by
  obtain ⟨length, ⟨-, hvalue⟩, -⟩ := h
  rw [hvalue]
  exact Nat.mod_lt _ (Nat.two_pow_pos 32)

/-- An operation that is spelled fits. -/
theorem SpellsRecord.fits {u : ByteUpdate} {word : Slice} (h : SpellsRecord u word) : Fits u := by
  cases u with
  | put key value =>
    obtain ⟨w1, w2, h1, h2, -⟩ := h
    exact ⟨SpellsString.length_lt h1, SpellsString.length_lt h2⟩
  | delete key =>
    obtain ⟨w1, h1, -⟩ := h
    exact SpellsString.length_lt h1

/-- Operations that a batch spells have keys and values whose lengths fit into 32 bits. -/
theorem fits_of_spellsAll {us : List ByteUpdate} {word : Slice} (h : SpellsAll SpellsRecord us word) :
    ∀ u ∈ us, Fits u := by
  obtain ⟨words, hwords, -⟩ := h
  induction hwords with
  | nil => exact fun u hu => absurd hu List.not_mem_nil
  | cons hword _ ih => exact List.forall_mem_cons.mpr ⟨hword.fits, ih⟩

/-- `PutLengthPrefixedSlice` spells a string whose length fits. -/
theorem spellsString_put {value : Slice} (h : value.length < 2^32) :
    SpellsString value (putLengthPrefixedSlice value) := by
  have hread := getLengthPrefixedSlice_put h []
  obtain ⟨word, hword, hinput⟩ := recognizes_getLengthPrefixedSlice.iff.mp hread
  rw [List.append_nil, List.append_nil] at hinput
  exact hinput ▸ hword

/-- `Put` and `Delete` spell their record. -/
theorem spellsRecord_encode {u : ByteUpdate} (h : Fits u) : SpellsRecord u (encodeRecord u) := by
  cases u with
  | put key value => exact ⟨_, _, spellsString_put h.1, spellsString_put h.2, rfl⟩
  | delete key => exact ⟨_, spellsString_put h, rfl⟩

/-- The records of operations that fit spell them. -/
theorem spellsAll_encode : ∀ {us : List ByteUpdate}, (∀ u ∈ us, Fits u) →
    SpellsAll SpellsRecord us (us.flatMap encodeRecord)
  | [], _ => spellsAll_nil SpellsRecord
  | u :: _, h =>
    (spellsAll_encode fun u' hu' => h u' (List.mem_cons_of_mem u hu')).cons
      (spellsRecord_encode (h u List.mem_cons_self))

/-- One operation more, in a batch whose count is in its header. -/
theorem push_header {seq data : Slice} (hseq : seq.length = 8) (n : ℕ) (u : ByteUpdate) :
    push (seq ++ encodeFixed32 (n % 2^32) ++ data) u =
      seq ++ encodeFixed32 ((n + 1) % 2^32) ++ (data ++ encodeRecord u) := by
  have hcount : count (seq ++ encodeFixed32 (n % 2^32) ++ data) = toInt32 ((n % 2^32 : ℕ) : ℤ) := by
    unfold count
    rw [List.append_assoc, ← hseq, List.drop_left,
      decodeFixed32_encodeFixed32 (Nat.mod_lt _ (Nat.two_pow_pos 32))]
  have hnext : (toInt32 (toInt32 ((n % 2^32 : ℕ) : ℤ) + 1) % 2^32).toNat = (n + 1) % 2^32 := by
    rw [toInt32_emod, ← Int.emod_add_emod, toInt32_emod, Int.emod_add_emod]
    omega
  have htake : (seq ++ encodeFixed32 (n % 2^32) ++ data).take 8 = seq := by
    rw [List.append_assoc, ← hseq, List.take_left]
  have hdrop : (seq ++ encodeFixed32 (n % 2^32) ++ data).drop 12 = data := by
    have hlen : (seq ++ encodeFixed32 (n % 2^32)).length = 12 := by
      rw [List.length_append, hseq, encodeFixed32_length]
    rw [← hlen, List.drop_left]
  unfold push setCount
  rw [hcount, hnext, htake, hdrop, List.append_assoc]

/-- The bytes of a batch that was built: the count and the records. -/
theorem build_eq (us : List ByteUpdate) :
    build us = List.replicate 8 0 ++ encodeFixed32 (us.length % 2^32) ++ us.flatMap encodeRecord := by
  suffices hpush : ∀ (us : List ByteUpdate) (n : ℕ) (data : Slice),
      us.foldl push (List.replicate 8 0 ++ encodeFixed32 (n % 2^32) ++ data) =
        List.replicate 8 0 ++ encodeFixed32 ((n + us.length) % 2^32) ++
          (data ++ us.flatMap encodeRecord) by
    have h := hpush us 0 []
    rw [Nat.zero_add, List.nil_append] at h
    exact h
  intro us
  induction us with
  | nil => simp
  | cons u us ih =>
    intro n data
    rw [List.foldl_cons, push_header (List.length_replicate ..), ih, List.length_cons,
      List.flatMap_cons, Nat.add_assoc, Nat.add_comm 1, List.append_assoc data]

/-- What follows the sequence number of a header. -/
theorem header_drop {seq header : Slice} (data : Slice) (hseq : seq.length = 8)
    (hheader : header.length = 4) :
    (seq ++ header ++ data).drop 8 = header ++ data ∧ (seq ++ header ++ data).drop 12 = data := by
  have hlen : (seq ++ header).length = 12 := by
    rw [List.length_append, hseq, hheader]
  constructor
  · rw [List.append_assoc, ← hseq, List.drop_left]
  · rw [← hlen, List.drop_left]

/-- Setting the sequence number keeps the rest. -/
theorem setSequence_eq {seq header data : Slice} (hseq : seq.length = 8) (hheader : header.length = 4)
    (q : ℕ) : setSequence (seq ++ header ++ data) q = encodeFixed64 q ++ header ++ data := by
  unfold setSequence
  rw [(header_drop _ hseq hheader).1, List.append_assoc]

/-- A batch that was built means its operations: it iterates to them, it has their number as its count, and
inserting it with a sequence number adds them with consecutive numbers. -/
theorem iterate_build {us : List ByteUpdate} (hfits : ∀ u ∈ us, Fits u) (hlen : us.length < 2^31) :
    iterate (build us) = (us, .ok ()) ∧ count (build us) = us.length ∧
      ∀ q, q + us.length ≤ 2^56 → insertInto (setSequence (build us) q) =
        (us.mapIdx fun i u => addCall (q + i) u, .ok ()) := by
  -- the same holds with any sequence number in the header
  have hany : ∀ seq : Slice, seq.length = 8 →
      let rep := seq ++ encodeFixed32 (us.length % 2^32) ++ us.flatMap encodeRecord
      iterate rep = (us, .ok ()) ∧ count rep = us.length := by
    intro seq hseq
    dsimp only
    generalize hrep : seq ++ encodeFixed32 (us.length % 2^32) ++ us.flatMap encodeRecord = rep
    have hmod : us.length % 2^32 = us.length := Nat.mod_eq_of_lt (by omega)
    obtain ⟨hdrop8, hdrop12⟩ := header_drop (us.flatMap encodeRecord) hseq
      (encodeFixed32_length (us.length % 2^32))
    rw [hrep] at hdrop8 hdrop12
    have hcount : headerCount rep = us.length := by
      unfold headerCount
      rw [hdrop8, decodeFixed32_encodeFixed32 (Nat.mod_lt _ (Nat.two_pow_pos 32)), hmod]
    have hlength : 12 ≤ rep.length := by
      have h := congrArg List.length hrep
      simp only [List.length_append, hseq, encodeFixed32_length] at h
      omega
    have hint : (us.length : ℤ) = count rep := (eq_count_iff hlen).mpr hcount.symm
    -- the loop reads a sequence of which the operations are a part, and nothing can be left
    obtain ⟨rest, hlongest, hends⟩ := iterateLoop_spec 0 (le_refl (rep.drop 12).length)
    have hspelled : SpellsAll SpellsRecord us (rep.drop 12) := hdrop12 ▸ spellsAll_encode hfits
    have hus := hlongest.eq_of_spellsAll recognizes_readRecord SpellsRecord.ne_nil hspelled
    unfold iterate
    rw [if_neg (Nat.not_lt.mpr hlength)]
    dsimp only
    generalize iterateLoop (rep.drop 12).length (rep.drop 12) 0 = r at hlongest hends hus ⊢
    obtain ⟨us', result⟩ := r
    dsimp only at hus hends ⊢
    obtain ⟨rfl, rfl⟩ := hus
    cases result with
    | error msg => exact absurd rfl hends
    | ok n =>
      have hn := (hends.2 (le_refl _) (by omega)).trans (zero_add _)
      rw [hn]
      dsimp only
      rw [if_neg (not_not.mpr hint)]
      exact ⟨rfl, hint.symm⟩
  have hzero := hany (List.replicate 8 0) (List.length_replicate ..)
  dsimp only at hzero
  rw [← build_eq] at hzero
  refine ⟨hzero.1, hzero.2, fun q hq => ?_⟩
  have hset : setSequence (build us) q =
      encodeFixed64 q ++ encodeFixed32 (us.length % 2^32) ++ us.flatMap encodeRecord := by
    rw [build_eq]
    exact setSequence_eq (List.length_replicate ..) (encodeFixed32_length _) q
  have hsequence : sequence (setSequence (build us) q) = q := by
    rw [hset, List.append_assoc]
    exact decodeFixed64_encodeFixed64_append (by omega) _
  unfold insertInto
  rw [hsequence, hset, (hany (encodeFixed64 q) (encodeFixed64_length q)).1]
  dsimp only
  rw [addCalls_eq (by omega)]

/-- A value is not read back, if it has so many bytes that its length is stored as 0. -/
theorem iterate_long_value {n : ℕ} (hn : n % 2^32 = 0) (hpos : 0 < n) :
    iterate (build [.put [] (List.replicate n 255)]) ≠ ([.put [] (List.replicate n 255)], .ok ()) := by
  obtain ⟨m, rfl⟩ := Nat.exists_eq_add_of_lt hpos
  generalize hvalue : List.replicate (0 + m + 1) (255 : UInt8) = value
  have hlen : value.length % 2^32 = 0 := by
    rw [← hvalue, List.length_replicate]
    exact hn
  have hne : value ≠ [] := by
    rw [← hvalue]
    exact List.cons_ne_nil _ _
  have hempty : putLengthPrefixedSlice [] = [0] := by decide
  have hput : putLengthPrefixedSlice value = 0 :: value := by
    unfold putLengthPrefixedSlice
    rw [hlen]
    rfl
  have hrecord : [(Update.put [] value : ByteUpdate)].flatMap encodeRecord = 1 :: 0 :: 0 :: value := by
    rw [List.flatMap_singleton]
    unfold encodeRecord
    dsimp only
    rw [hempty, hput]
    rfl
  -- the record is read as one with an empty value
  have hread : readRecord (1 :: 0 :: 0 :: value) = .ok (.put [] [], value) := by
    refine readRecord_eq_ok_iff.mpr ⟨[1, 0, 0], ⟨[0], [0], ?_, ?_, rfl⟩, rfl⟩
    · exact hempty ▸ spellsString_put (by decide)
    · exact hempty ▸ spellsString_put (by decide)
  intro h
  have hfirst := congrArg (fun r => r.1.head?) h
  dsimp only at hfirst
  unfold iterate at hfirst
  rw [build_eq, hrecord] at hfirst
  rw [if_neg (by simp), (header_drop _ (List.length_replicate ..) (encodeFixed32_length _)).2] at hfirst
  dsimp only at hfirst
  rw [List.length_cons, iterateLoop, if_neg (by simp), hread] at hfirst
  have hvalues := Option.some.inj hfirst
  injection hvalues with _ hnil
  exact hne hnil.symm

/-- A batch of so many operations that an `int` cannot count them. -/
theorem count_many {n : ℕ} (h : n % 2^32 = 2^31) (u : ByteUpdate) :
    count (build (List.replicate n u)) = -2^31 := by
  unfold count
  rw [build_eq, List.length_replicate, h,
    (header_drop _ (List.length_replicate ..) (encodeFixed32_length _)).1,
    decodeFixed32_encodeFixed32 (by decide)]
  decide

end BatchRep

end LevelDb
