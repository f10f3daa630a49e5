import LevelDb.Db.BatchFormat
import LevelDb.Db.KeyComparator
import LevelDb.Db.SkipList
import LevelDb.Lib.Iterator

/-!
# Memtables in memory

`MemTable` of `db/memtable.cc`: a skip list of byte strings, each of which holds an internal key and a value
with their lengths. The comparator of the skip list decodes the lengths, and reading behind the end of a
string has no result. `Get` looks for a `LookupKey` and trusts the order of the tags: it never looks at the
sequence number that it finds. Whatever the heights of the nodes are, the memtable is the sorted list of what
was added (`MemTable.Holds`): `Get` finds the newest visible entry, and the iterator is a cursor over the list
(`MemTable.multi_version`).
-/

namespace LevelDb

open Lib

/-! ## Entries -/

/-- `GetLengthPrefixedSlice` of `memtable.cc`: the string at a pointer. -/
def getLengthPrefixedSliceAt (data : Slice) : Option Slice := (getLengthPrefixedSlice data).map Prod.fst

/-- `MemTable::KeyComparator`: internal keys are encoded as length-prefixed strings. -/
def keyComparator (cmp : Comparator) (aptr bptr : Slice) : Option Ordering :=
  (getLengthPrefixedSliceAt aptr).bind fun a =>
    (getLengthPrefixedSliceAt bptr).map fun b => (internalKeyComparator cmp).compare a b

/-- `EncodeKey` -/
def encodeKey (target : Slice) : Slice := encodeVarint32 (target.length % 2^32) ++ target

/-- The internal key of an entry. -/
def AddCall.internalKey (a : AddCall) : Slice := a.key ++ encodeFixed64 (packSequenceAndType a.sequence a.type)

/-- The bytes that `MemTable::Add` writes: the key with its length and its tag, and the value with its
length. -/
def AddCall.encode (a : AddCall) : Slice :=
  encodeVarint32 ((a.key.length + 8) % 2^32) ++
    (a.internalKey ++ (encodeVarint32 (a.value.length % 2^32) ++ a.value))

/-- What `Get` returns for an entry. -/
def AddCall.result (a : AddCall) : Except Status Slice :=
  match a.type with
  | .value => .ok a.value
  | .deletion => .error .notFound

/-- `LookupKey` -/
structure LookupKey where
  /-- The bytes from `start_` to `end_`. -/
  start : Slice
  /-- Where `kstart_` is in them. -/
  kstart : ℕ

namespace LookupKey

/-- The constructor of `LookupKey`. -/
def new (userKey : Slice) (s : ℕ) : LookupKey where
  start := encodeVarint32 ((userKey.length + 8) % 2^32) ++
    (userKey ++ encodeFixed64 (packSequenceAndType s kValueTypeForSeek))
  kstart := (encodeVarint32 ((userKey.length + 8) % 2^32)).length

/-- `memtable_key` -/
def memtableKey (key : LookupKey) : Slice := key.start

/-- `internal_key` -/
def internalKey (key : LookupKey) : Slice := key.start.drop key.kstart

/-- `user_key` -/
def userKey (key : LookupKey) : Slice := key.internalKey.take (key.internalKey.length - 8)

end LookupKey

/-! ## The memtable -/

/-- `MemTable` -/
structure MemTable where
  /-- The user comparator of `comparator_`. -/
  cmp : Comparator
  /-- `table_` -/
  table : SkipList Slice := {}

namespace MemTable

/-- `Add`, with the height that `RandomHeight` returns. -/
def add (m : MemTable) (a : AddCall) (height : ℕ) : Option MemTable :=
  (m.table.insert (keyComparator m.cmp) a.encode height).map fun table => { m with table := table }

/-- A sequence of `Add` calls. -/
def addAll (m : MemTable) (adds : List (AddCall × ℕ)) : Option MemTable :=
  adds.foldlM (fun m a => m.add a.1 a.2) m

/-- What `Get` does with the entry to which `Seek` leads. -/
def getEntry (m : MemTable) (key : LookupKey) (entry : Slice) : Option (Option (Except Status Slice)) :=
  (getVarint32 entry).bind fun (keyLength, keyPtr) =>
    if 8 ≤ keyLength ∧ keyLength ≤ keyPtr.length then
      -- Check that it belongs to same user key. The sequence number is not checked.
      if m.cmp.compare (keyPtr.take (keyLength - 8)) key.userKey = .eq then
        let tag := decodeFixed64 (keyPtr.drop (keyLength - 8))
        if tag &&& 0xff = ValueType.value.toNat then
          (getLengthPrefixedSliceAt (keyPtr.drop keyLength)).map fun v => some (.ok v)
        else if tag &&& 0xff = ValueType.deletion.toNat then some (some (.error .notFound))
        else some none
      else some none
    else none

/-- `Get`: a value, a deletion, or nothing. -/
def get (m : MemTable) (key : LookupKey) : Option (Option (Except Status Slice)) :=
  (m.table.iterSeek (keyComparator m.cmp) key.memtableKey).bind fun n =>
    match n with
    | none => some none
    | some n => (m.table.nodes n).bind fun node => m.getEntry key node.key

/-- A call on a `MemTableIterator` that is at a node. The last two may only be made at a node. -/
def iterCall (m : MemTable) (node : Option ℕ) : Call Slice → Option (Option ℕ)
  | .seekToFirst => m.table.iterSeekToFirst
  | .seekToLast => m.table.iterSeekToLast
  | .seek target => m.table.iterSeek (keyComparator m.cmp) (encodeKey target)
  | .next => node.bind m.table.iterNext
  | .prev => node.bind (m.table.iterPrev (keyComparator m.cmp))

/-- A sequence of calls on a new `MemTableIterator`. -/
def iterCalls (m : MemTable) (cs : List (Call Slice)) : Option (Option ℕ) := cs.foldlM m.iterCall none

/-- `key` and `value` of a `MemTableIterator`. -/
def iterEntry (m : MemTable) (n : ℕ) : Option (Slice × Slice) :=
  (m.table.nodes n).bind fun node =>
    (getLengthPrefixedSlice node.key).bind fun (key, rest) =>
      (getLengthPrefixedSliceAt rest).map fun value => (key, value)

/-- What a `MemTableIterator` shows. Its status is always OK. -/
def iterObserve (m : MemTable) : Option ℕ → Option (Option (Slice × Slice) × Option Status)
  | none => some (none, none)
  | some n => (m.iterEntry n).map fun kv => (some kv, none)

end MemTable

/-! ## Coding of entries -/

section Entries

variable {cmp : Comparator} {a b : AddCall}

/-- What a caller may add: sequence numbers of 56 bits, and internal keys and values whose lengths have 32 bits. -/
structure AddCall.Fits (a : AddCall) : Prop where
  /-- The sequence number. -/
  sequence_lt : a.sequence < 2^56
  /-- The key. -/
  key_lt : a.key.length < 2^32 - 8
  /-- The value. -/
  value_lt : a.value.length < 2^32

/-- The tag of a sequence number and a type. -/
theorem packSequenceAndType_eq (s : ℕ) (type : ValueType) : packSequenceAndType s type = s * 256 + type.toNat := by
  unfold packSequenceAndType
  rw [Nat.mul_comm, ← Nat.two_pow_add_eq_or_of_lt (lt_of_le_of_lt type.toNat_le_one (by decide)), Nat.mul_comm]

/-- The tag of a sequence number of 56 bits fits into 64 bits. -/
theorem packSequenceAndType_lt {s : ℕ} (hs : s < 2^56) (type : ValueType) : packSequenceAndType s type < 2^64 := by
  have htype := type.toNat_le_one
  rw [packSequenceAndType_eq]
  omega

/-- An internal key is eight bytes longer than its user key. -/
theorem AddCall.length_internalKey (a : AddCall) : a.internalKey.length = a.key.length + 8 := by
  unfold internalKey
  rw [List.length_append, encodeFixed64_length]

/-- An entry is its internal key and its value, each with its length. -/
theorem AddCall.encode_eq (a : AddCall) : a.encode =
    putLengthPrefixedSlice a.internalKey ++ (putLengthPrefixedSlice a.value ++ []) := by
  unfold encode putLengthPrefixedSlice
  rw [a.length_internalKey, List.append_nil, List.append_assoc]

/-- The internal key and the value of an entry are read back. -/
theorem AddCall.Fits.decode (h : a.Fits) :
    getLengthPrefixedSlice a.encode = some (a.internalKey, putLengthPrefixedSlice a.value ++ []) ∧
      getLengthPrefixedSlice (putLengthPrefixedSlice a.value ++ []) = some (a.value, []) := by
  have hkey := h.key_lt
  have hvalue := h.value_lt
  have hlength := a.length_internalKey
  rw [a.encode_eq]
  exact ⟨getLengthPrefixedSlice_put (by omega) _, getLengthPrefixedSlice_put (by omega) []⟩

/-- The comparator of the skip list compares the internal key of an entry with a target. -/
theorem AddCall.Fits.keyComparator_encodeKey (h : a.Fits) {target : Slice} (htarget : target.length < 2^32) :
    keyComparator cmp a.encode (encodeKey target) =
      some ((internalKeyComparator cmp).compare a.internalKey target) := by
  have hput : getLengthPrefixedSlice (encodeKey target) = some (target, []) := by
    have hput := getLengthPrefixedSlice_put htarget []
    rwa [List.append_nil] at hput
  unfold keyComparator getLengthPrefixedSliceAt
  rw [h.decode.1, hput]
  rfl

/-- The comparator of the skip list compares the internal keys of entries. -/
theorem AddCall.Fits.keyComparator_encode (ha : a.Fits) (hb : b.Fits) :
    keyComparator cmp a.encode b.encode =
      some ((internalKeyComparator cmp).compare a.internalKey b.internalKey) := by
  unfold keyComparator getLengthPrefixedSliceAt
  rw [ha.decode.1, hb.decode.1]
  rfl

/-- `a` comes before `b` in the memtable. -/
def AddCall.Before (cmp : Comparator) (a b : AddCall) : Prop :=
  (internalKeyComparator cmp).Lt a.internalKey b.internalKey

/-- The order of an entry and an internal key: increasing user key, then decreasing tag. -/
theorem AddCall.Fits.lt_iff (ha : a.Fits) {key : Slice} {tag : ℕ} (htag : tag < 2^64) :
    (internalKeyComparator cmp).Lt a.internalKey (key ++ encodeFixed64 tag) ↔
      cmp.Lt a.key key ∨ (cmp.Equal a.key key ∧ tag < packSequenceAndType a.sequence a.type) := by
  unfold AddCall.internalKey
  rw [internalKeyComparator_lt_iff, extractUserKey_append, extractUserKey_append, extractTag_append _ htag,
    extractTag_append _ (packSequenceAndType_lt ha.sequence_lt a.type)]

/-- One entry comes before another one if its user key does, or if the user keys are equal and its tag
is larger. -/
theorem AddCall.Fits.before_iff (ha : a.Fits) (hb : b.Fits) : a.Before cmp b ↔
    cmp.Lt a.key b.key ∨
      (cmp.Equal a.key b.key ∧ packSequenceAndType b.sequence b.type < packSequenceAndType a.sequence a.type) :=
  ha.lt_iff (packSequenceAndType_lt hb.sequence_lt b.type)

/-- Two entries of different keys or sequence numbers are in some order. -/
theorem AddCall.Fits.before_or_before (hcmp : cmp.TotalPreorder) (ha : a.Fits) (hb : b.Fits)
    (hne : ¬(cmp.Equal a.key b.key ∧ a.sequence = b.sequence)) : a.Before cmp b ∨ b.Before cmp a := by
  rw [ha.before_iff hb, hb.before_iff ha]
  obtain hlt | heq | hgt := hcmp.lt_or_equal_or_gt a.key b.key
  · exact Or.inl (Or.inl hlt)
  · have htypea := a.type.toNat_le_one
    have htypeb := b.type.toNat_le_one
    have hsequence : a.sequence ≠ b.sequence := fun hs => hne ⟨heq, hs⟩
    rw [packSequenceAndType_eq, packSequenceAndType_eq]
    obtain hlt | hgt := Nat.lt_or_gt_of_ne hsequence
    · exact Or.inr (Or.inr ⟨hcmp.equal_symm heq, by omega⟩)
    · exact Or.inl (Or.inr ⟨heq, by omega⟩)
  · exact Or.inr (Or.inl hgt)

end Entries

/-! ## What a memtable holds -/

namespace MemTable

variable {m : MemTable} {levels : ℕ → List ℕ} {call : ℕ → AddCall} {adds : List AddCall} {a : AddCall}

/-- The memtable holds what was added: the nodes of its list are the entries, in order. -/
structure Holds (m : MemTable) (levels : ℕ → List ℕ) (call : ℕ → AddCall) (adds : List AddCall) : Prop where
  /-- The skip list. -/
  shape : m.table.Shape levels
  /-- A node has the bytes of its entry. -/
  node : ∀ {n : ℕ}, n ∈ levels 0 → ∃ node, m.table.nodes n = some node ∧ node.key = (call n).encode
  /-- The entries are in order. -/
  sorted : (levels 0).Pairwise fun n n' => (call n).Before m.cmp (call n')
  /-- They are those that were added. -/
  perm : ((levels 0).map call).Perm adds
  /-- Everything fits. -/
  fits : ∀ a ∈ adds, a.Fits

/-- A memtable that was just made holds no entries. -/
theorem holds_new (cmp : Comparator) (call : ℕ → AddCall) : (⟨cmp, {}⟩ : MemTable).Holds (fun _ => []) call [] where
  shape := SkipList.shape_empty
  node hn := absurd hn List.not_mem_nil
  sorted := List.Pairwise.nil
  perm := List.Perm.refl []
  fits _ ha := absurd ha List.not_mem_nil

namespace Holds

/-- The entry of every node of the table has lengths and a sequence number that fit. -/
theorem fits_call (h : m.Holds levels call adds) {n : ℕ} (hn : n ∈ levels 0) : (call n).Fits :=
  h.fits _ (h.perm.mem_iff.mp (List.mem_map_of_mem hn))

/-- What was added is at a node. -/
theorem exists_node (h : m.Holds levels call adds) (ha : a ∈ adds) : ∃ n ∈ levels 0, call n = a :=
  List.mem_map.mp (h.perm.mem_iff.mpr ha)

/-- The nodes with entries below a target come first. -/
theorem mono (h : m.Holds levels call adds) (hcmp : m.cmp.TotalPreorder) (target : Slice) :
    (levels 0).Pairwise fun n n' =>
      decide ((internalKeyComparator m.cmp).Lt (call n').internalKey target) = true →
        decide ((internalKeyComparator m.cmp).Lt (call n).internalKey target) = true := by
  refine h.sorted.imp fun {n n'} hbefore hlt => ?_
  rw [decide_eq_true_eq] at hlt ⊢
  exact (internalKeyComparator_totalPreorder hcmp).lt_trans hbefore hlt

/-- How the skip list compares an entry with an encoded key. -/
theorem less_eq (h : m.Holds levels call adds) {word target : Slice}
    (hword : ∀ a : AddCall, a.Fits → keyComparator m.cmp a.encode word =
      some ((internalKeyComparator m.cmp).compare a.internalKey target)) :
    ∀ n ∈ levels 0, ∀ node, m.table.nodes n = some node → SkipList.less (keyComparator m.cmp) word node.key =
      some (decide ((internalKeyComparator m.cmp).Lt (call n).internalKey target)) := by
  intro n hn node hnode
  obtain ⟨node', hnode', hkey⟩ := h.node hn
  rw [hnode] at hnode'
  cases hnode'
  unfold SkipList.less
  rw [hkey, hword _ (h.fits_call hn), Option.map_some, Option.some_inj, Bool.eq_iff_iff, beq_iff_eq,
    decide_eq_true_iff]
  rfl

/-- `Add` puts an entry in, of a key and a sequence number that the memtable does not have together. -/
theorem add (h : m.Holds levels call adds) (hcmp : m.cmp.TotalPreorder) (ha : a.Fits)
    (hnew : ∀ b ∈ adds, ¬(m.cmp.Equal b.key a.key ∧ b.sequence = a.sequence)) {height : ℕ} (hpos : 0 < height)
    (hle : height ≤ kMaxHeight) :
    ∃ table levels' call', m.add a height = some { m with table := table } ∧
      { m with table := table }.Holds levels' call' (adds ++ [a]) := by
  obtain ⟨table, levels', hinsert, hshape, hlevel, hnodes⟩ := h.shape.insert
    (h.less_eq fun b hb => hb.keyComparator_encode ha) (h.mono hcmp a.internalKey) hpos hle
  have hnot : m.table.nextNode ∉ levels 0 := fun hmem => Nat.lt_irrefl _ (h.shape.allocated hmem)
  have hold : ∀ n ∈ levels 0, Function.update call m.table.nextNode a n = call n := fun n hn =>
    Function.update_of_ne (ne_of_mem_of_not_mem hn hnot) ..
  have hself : Function.update call m.table.nextNode a m.table.nextNode = a := Function.update_self ..
  refine ⟨table, levels', Function.update call m.table.nextNode a, ?_, hshape, ?_, ?_, ?_, ?_⟩
  · unfold MemTable.add
    rw [hinsert, Option.map_some]
  · intro n hn
    rw [hlevel, SkipList.mem_place] at hn
    dsimp only
    rw [hnodes]
    obtain rfl | hn := hn
    · rw [Function.update_self, hself]
      exact ⟨_, rfl, rfl⟩
    · rw [Function.update_of_ne (ne_of_mem_of_not_mem hn hnot), hold n hn]
      exact h.node hn
  · -- the entries that are not below the new one are above it
    have hsorted : (levels 0).Pairwise fun n n' =>
        (Function.update call m.table.nextNode a n).Before m.cmp (Function.update call m.table.nextNode a n') := by
      refine h.sorted.imp_of_mem fun {n n'} hn hn' hbefore => ?_
      rw [hold n hn, hold n' hn']
      exact hbefore
    rw [hlevel]
    refine SkipList.pairwise_place (h.mono hcmp a.internalKey) hsorted (fun n hn hlt => ?_) fun n hn hnlt => ?_
    · rw [decide_eq_true_eq] at hlt
      rw [hself, hold n hn]
      exact hlt
    · rw [decide_eq_false_iff_not] at hnlt
      rw [hself, hold n hn]
      have hadded := h.perm.mem_iff.mp (List.mem_map_of_mem hn)
      exact ((h.fits_call hn).before_or_before hcmp ha (hnew _ hadded)).resolve_left hnlt
  · rw [hlevel]
    unfold SkipList.place
    rw [List.map_append, List.map_cons, hself]
    refine List.perm_middle.trans (((List.Perm.cons a ?_).trans (List.perm_append_singleton a adds).symm))
    rw [← List.map_append, filter_append_filter_not (h.mono hcmp a.internalKey), List.map_congr_left hold]
    exact h.perm
  · intro b hb
    obtain hb | hb := List.mem_append.mp hb
    · exact h.fits b hb
    · rw [List.mem_singleton.mp hb]
      exact ha

end Holds

/-! ## Lookups -/

/-- The internal key of a lookup. -/
def lookupTarget (key : Slice) (s : ℕ) : Slice := key ++ encodeFixed64 (packSequenceAndType s kValueTypeForSeek)

/-- The key for the skip list is the encoded internal key. -/
theorem memtableKey_new (key : Slice) (s : ℕ) : (LookupKey.new key s).memtableKey = encodeKey (lookupTarget key s) := by
  unfold LookupKey.new LookupKey.memtableKey encodeKey lookupTarget
  rw [List.length_append, encodeFixed64_length]

/-- A `LookupKey` has the user key for which it was made. -/
theorem userKey_new (key : Slice) (s : ℕ) : (LookupKey.new key s).userKey = key := by
  unfold LookupKey.new LookupKey.userKey LookupKey.internalKey
  rw [List.drop_left, List.length_append, encodeFixed64_length, Nat.add_sub_cancel, List.take_left]

/-- `Get` decodes an entry: if it is one of the user key, it returns what the entry says. -/
theorem getEntry_encode (m : MemTable) (ha : a.Fits) (key : LookupKey) :
    m.getEntry key a.encode = some (if m.cmp.Equal a.key key.userKey then some a.result else none) := by
  have hkeyLength : a.key.length + 8 < 2^32 := by
    have hkey := ha.key_lt
    omega
  have hencode : a.encode = encodeVarint32 (a.key.length + 8) ++
      (a.key ++ (encodeFixed64 (packSequenceAndType a.sequence a.type) ++ (putLengthPrefixedSlice a.value ++ []))) := by
    rw [a.encode_eq]
    unfold putLengthPrefixedSlice AddCall.internalKey
    rw [List.length_append, encodeFixed64_length, Nat.mod_eq_of_lt hkeyLength, List.append_assoc, List.append_assoc]
  generalize hrest : putLengthPrefixedSlice a.value ++ [] = rest at hencode
  have hvalue : getLengthPrefixedSliceAt rest = some a.value := by
    unfold getLengthPrefixedSliceAt
    rw [← hrest, ha.decode.2]
    rfl
  have hle : 8 ≤ a.key.length + 8 ∧ a.key.length + 8 ≤
      (a.key ++ (encodeFixed64 (packSequenceAndType a.sequence a.type) ++ rest)).length := by
    rw [List.length_append, List.length_append, encodeFixed64_length]
    omega
  have hdrop : (a.key ++ (encodeFixed64 (packSequenceAndType a.sequence a.type) ++ rest)).drop (a.key.length + 8) =
      rest := by
    rw [← List.append_assoc]
    exact List.drop_left' (by rw [List.length_append, encodeFixed64_length])
  have htag : packSequenceAndType a.sequence a.type &&& 0xff = a.type.toNat := by
    have htype := a.type.toNat_le_one
    rw [packSequenceAndType_eq, show (0xff : ℕ) = 2^8 - 1 from rfl, Nat.and_two_pow_sub_one_eq_mod]
    omega
  unfold getEntry
  rw [hencode, getVarint32_encodeVarint32 hkeyLength, Option.bind_some]
  dsimp only
  rw [if_pos hle, Nat.add_sub_cancel, List.take_left, List.drop_left,
    decodeFixed64_encodeFixed64_append (packSequenceAndType_lt ha.sequence_lt a.type), hdrop, hvalue, htag]
  change (if m.cmp.Equal a.key key.userKey then _ else _) = _
  by_cases heq : m.cmp.Equal a.key key.userKey
  · rw [if_pos heq, if_pos heq]
    unfold AddCall.result
    cases a.type with
    | value => rfl
    | deletion => rfl
  · rw [if_neg heq, if_neg heq]

/-- An entry that a lookup at a sequence number sees. -/
def Visible (cmp : Comparator) (key : Slice) (s : ℕ) (a : AddCall) : Prop := cmp.Equal a.key key ∧ a.sequence ≤ s

/-- What a lookup should return: what the newest visible entry says, if there is one. -/
def Newest (cmp : Comparator) (adds : List AddCall) (key : Slice) (s : ℕ) : Option (Except Status Slice) → Prop
  | some r => ∃ a ∈ adds, Visible cmp key s a ∧ r = a.result ∧
      ∀ b ∈ adds, Visible cmp key s b → b.sequence ≤ a.sequence
  | none => ∀ a ∈ adds, ¬Visible cmp key s a

/-- An entry is not below the target of a lookup if it is visible, or one of a larger key. -/
theorem not_lt_lookupTarget (hcmp : m.cmp.TotalPreorder) (ha : a.Fits) {key : Slice} {s : ℕ} (hs : s < 2^56) :
    ¬(internalKeyComparator m.cmp).Lt a.internalKey (lookupTarget key s) ↔ m.cmp.Lt key a.key ∨ Visible m.cmp key s a := by
  have htype := a.type.toNat_le_one
  have hseek : kValueTypeForSeek.toNat = 1 := rfl
  unfold lookupTarget Visible
  rw [ha.lt_iff (packSequenceAndType_lt hs kValueTypeForSeek), packSequenceAndType_eq, packSequenceAndType_eq, hseek]
  constructor
  · intro hnot
    rw [not_or, not_and] at hnot
    obtain hlt | heq | hgt := hcmp.lt_or_equal_or_gt a.key key
    · exact absurd hlt hnot.1
    · have htag := hnot.2 heq
      exact Or.inr ⟨heq, by omega⟩
    · exact Or.inl hgt
  · rintro (hgt | ⟨heq, hle⟩) (hlt | ⟨heq', htag⟩)
    · exact hcmp.lt_asymm hlt hgt
    · exact hcmp.not_lt.mpr heq'.le hgt
    · exact hcmp.not_lt.mpr (hcmp.equal_symm heq).le hlt
    · omega

/-- `Get` returns what the newest visible entry says. -/
theorem Holds.get {levels : ℕ → List ℕ} {call : ℕ → AddCall} (h : m.Holds levels call adds)
    (hcmp : m.cmp.TotalPreorder) {key : Slice} (hkey : key.length < 2^32 - 8) {s : ℕ} (hs : s < 2^56) :
    ∃ r, m.get (LookupKey.new key s) = some r ∧ Newest m.cmp adds key s r := by
  have htarget : (lookupTarget key s).length < 2^32 := by
    unfold lookupTarget
    rw [List.length_append, encodeFixed64_length]
    omega
  have hseek := h.shape.iterSeek (h.less_eq fun a ha => ha.keyComparator_encodeKey htarget)
    (h.mono hcmp (lookupTarget key s))
  unfold MemTable.get
  rw [memtableKey_new, hseek, Option.bind_some]
  cases hfind : (levels 0).find? fun n => !decide ((internalKeyComparator m.cmp).Lt (call n).internalKey
      (lookupTarget key s)) with
  | none =>
    refine ⟨none, rfl, fun a ha hvisible => ?_⟩
    obtain ⟨n, hn, rfl⟩ := h.exists_node ha
    have hlt := List.find?_eq_none.mp hfind n hn
    rw [Bool.not_eq_true', decide_eq_false_iff_not, not_lt_lookupTarget hcmp (h.fits_call hn) hs] at hlt
    exact hlt (Or.inr hvisible)
  | some n =>
    obtain ⟨hstop, before, after, hlevel, hbefore⟩ := List.find?_eq_some_iff_append.mp hfind
    have hn : n ∈ levels 0 := List.mem_of_find?_eq_some hfind
    have hfits := h.fits_call hn
    rw [Bool.not_eq_true', decide_eq_false_iff_not, not_lt_lookupTarget hcmp hfits hs] at hstop
    -- a visible entry is the one at which the search stopped, or comes after it
    have hlater : ∀ b ∈ adds, Visible m.cmp key s b → b = call n ∨ (call n).Before m.cmp b := by
      intro b hb hvisible
      obtain ⟨n', hn', rfl⟩ := h.exists_node hb
      have hsorted := h.sorted
      rw [hlevel] at hn' hsorted
      obtain hn' | hn' := List.mem_append.mp hn'
      · have hlt := hbefore n' hn'
        have hmem : n' ∈ levels 0 := by
          rw [hlevel]
          exact List.mem_append_left _ hn'
        rw [Bool.not_not, decide_eq_true_eq] at hlt
        exact absurd hlt ((not_lt_lookupTarget hcmp (h.fits_call hmem) hs).mpr (Or.inr hvisible))
      · obtain rfl | hn' := List.mem_cons.mp hn'
        · exact Or.inl rfl
        · exact Or.inr ((List.pairwise_cons.mp (List.pairwise_append.mp hsorted).2.1).1 n' hn')
    obtain ⟨node, hnode, hencode⟩ := h.node hn
    dsimp only
    rw [hnode, Option.bind_some, hencode, getEntry_encode m hfits, userKey_new]
    by_cases hequal : m.cmp.Equal (call n).key key
    · rw [if_pos hequal]
      refine ⟨_, rfl, call n, h.perm.mem_iff.mp (List.mem_map_of_mem hn), ?_, rfl, fun b hb hvisible => ?_⟩
      · exact hstop.resolve_left fun hlt => hcmp.not_lt.mpr hequal.le hlt
      · obtain rfl | hbefore := hlater b hb hvisible
        · exact le_refl _
        · rw [hfits.before_iff (h.fits b hb), packSequenceAndType_eq, packSequenceAndType_eq] at hbefore
          have htype := (call n).type.toNat_le_one
          have htypeb := b.type.toNat_le_one
          obtain hlt | ⟨-, htag⟩ := hbefore
          · have hle := hcmp.trans hvisible.1.le (hcmp.equal_symm hequal).le
            exact absurd hlt (hcmp.not_lt.mpr hle)
          · omega
    · rw [if_neg hequal]
      refine ⟨_, rfl, fun b hb hvisible => ?_⟩
      have hgt : m.cmp.Lt key (call n).key := hstop.resolve_right fun hv => hequal hv.1
      obtain rfl | hbefore := hlater b hb hvisible
      · exact hequal hvisible.1
      · rw [hfits.before_iff (h.fits b hb)] at hbefore
        have hle : m.cmp.Le (call n).key b.key := by
          obtain hlt | ⟨heq, -⟩ := hbefore
          · exact hlt.le
          · exact heq.le
        exact hcmp.not_lt.mpr (hcmp.trans hle hvisible.1.le) hgt

/-! ## Iterators -/

namespace Holds

variable {levels : ℕ → List ℕ} {call : ℕ → AddCall}

/-- The entries as an iterator shows them. -/
def entries (levels : ℕ → List ℕ) (call : ℕ → AddCall) : List (Slice × Slice) :=
  (levels 0).map fun n => ((call n).internalKey, (call n).value)

/-- An iterator is at the node of a position. -/
def At (levels : ℕ → List ℕ) (node pos : Option ℕ) : Prop :=
  node = pos.bind ((levels 0)[·]?) ∧ ∀ i, pos = some i → i < (levels 0).length

/-- The node of a position that may be behind the end. -/
theorem at_clip (levels : ℕ → List ℕ) (call : ℕ → AddCall) (i : ℕ) :
    At levels (levels 0)[i]? (clip (entries levels call) i) := by
  have hlength : (entries levels call).length = (levels 0).length := List.length_map ..
  obtain hlt | hle := Nat.lt_or_ge i (levels 0).length
  · rw [clip_of_lt (by rw [hlength]; exact hlt)]
    exact ⟨rfl, fun j hj => Option.some.inj hj ▸ hlt⟩
  · rw [clip_of_le (by rw [hlength]; exact hle), List.getElem?_eq_none hle]
    exact ⟨rfl, fun j hj => absurd hj (Option.some_ne_none j).symm⟩

/-- The last node of a front. -/
theorem at_before (levels : ℕ → List ℕ) {i : ℕ} (hi : i ≤ (levels 0).length) :
    At levels ((levels 0).take i).getLast? (before i) := by
  unfold before
  cases i with
  | zero =>
    rw [if_neg (Nat.lt_irrefl 0), List.take_zero]
    exact ⟨rfl, fun j hj => absurd hj (Option.some_ne_none j).symm⟩
  | succ i =>
    rw [if_pos (Nat.succ_pos i), Nat.add_sub_cancel, List.getLast?_eq_getElem?, List.length_take, Nat.min_eq_left hi,
      Nat.add_sub_cancel, List.getElem?_take_of_lt (Nat.lt_succ_self i)]
    exact ⟨rfl, fun j hj => Option.some.inj hj ▸ hi⟩

/-- The nodes with smaller entries are those before a node. -/
theorem filter_less (h : m.Holds levels call adds) (hcmp : m.cmp.TotalPreorder) {i n : ℕ}
    (hn : (levels 0)[i]? = some n) :
    (levels 0).filter (fun n' => decide ((internalKeyComparator m.cmp).Lt (call n').internalKey
      (call n).internalKey)) = (levels 0).take i := by
  obtain ⟨hi, hvalue⟩ := List.getElem?_eq_some_iff.mp hn
  have hsplit : (levels 0).take i ++ (levels 0).drop i = levels 0 := List.take_append_drop i (levels 0)
  have hdrop : (levels 0).drop i = n :: (levels 0).drop (i + 1) := by
    rw [List.drop_eq_getElem_cons hi, hvalue]
  have hmono := h.mono hcmp (call n).internalKey
  have hsorted := h.sorted
  rw [← hsplit] at hmono hsorted
  rw [hdrop] at hsorted
  have hfront : ∀ n' ∈ (levels 0).take i,
      decide ((internalKeyComparator m.cmp).Lt (call n').internalKey (call n).internalKey) = true := fun n' hn' =>
    decide_eq_true ((List.pairwise_append.mp hsorted).2.2 n' hn' n List.mem_cons_self)
  have hrest : ∀ n', ((levels 0).drop i).head? = some n' →
      decide ((internalKeyComparator m.cmp).Lt (call n').internalKey (call n).internalKey) = false := by
    intro n' hn'
    rw [hdrop, List.head?_cons] at hn'
    obtain rfl := Option.some.inj hn'
    have horder := internalKeyComparator_totalPreorder hcmp
    exact decide_eq_false (horder.not_lt.mpr (horder.refl _).le)
  have hfilter := (filter_eq_of_append hmono hfront hrest).1
  rwa [hsplit] at hfilter

/-- A call moves an iterator as it moves a cursor over the entries. -/
theorem iterCall (h : m.Holds levels call adds) (hcmp : m.cmp.TotalPreorder) {node pos : Option ℕ}
    (hat : At levels node pos) {c : Call Slice} (hc : ∀ target, c = .seek target → target.length < 2^32) :
    (m.iterCall node c = none ∧
        cursorCall (fun a b => decide ((internalKeyComparator m.cmp).Lt a b)) (entries levels call) pos c = none) ∨
      ∃ node' pos', m.iterCall node c = some node' ∧
        cursorCall (fun a b => decide ((internalKeyComparator m.cmp).Lt a b)) (entries levels call) pos c =
          some pos' ∧ At levels node' pos' := by
  have hlength : (entries levels call).length = (levels 0).length := List.length_map ..
  cases c with
  | seekToFirst =>
    refine Or.inr ⟨_, _, h.shape.iterSeekToFirst, rfl, ?_⟩
    rw [List.head?_eq_getElem?]
    exact at_clip levels call 0
  | seekToLast =>
    refine Or.inr ⟨_, _, h.shape.iterSeekToLast, rfl, ?_⟩
    have hlast := at_before levels (le_refl (levels 0).length)
    rw [List.take_length] at hlast
    rw [hlength]
    exact hlast
  | seek target =>
    have hseek := h.shape.iterSeek (h.less_eq fun a ha => ha.keyComparator_encodeKey (hc target rfl))
      (h.mono hcmp target)
    refine Or.inr ⟨_, _, hseek, rfl, ?_⟩
    have hpos : seekPos (fun a b => decide ((internalKeyComparator m.cmp).Lt a b)) (entries levels call) target =
        (levels 0).findIdx fun n => !decide ((internalKeyComparator m.cmp).Lt (call n).internalKey target) := by
      unfold seekPos entries
      rw [List.findIdx_map]
      rfl
    rw [List.find?_eq_getElem?_findIdx, hpos]
    exact at_clip levels call _
  | next =>
    cases pos with
    | none =>
      -- Without a node there is nothing to step from.
      obtain ⟨rfl, -⟩ := hat
      exact Or.inl ⟨rfl, rfl⟩
    | some i =>
      obtain ⟨rfl, hlt⟩ := hat
      have hn := List.getElem?_eq_getElem (hlt i rfl)
      refine Or.inr ⟨_, _, ?_, rfl, at_clip levels call (i + 1)⟩
      change ((levels 0)[i]?).bind m.table.iterNext = _
      rw [hn, Option.bind_some]
      exact h.shape.iterNext hn
  | prev =>
    cases pos with
    | none =>
      obtain ⟨rfl, -⟩ := hat
      exact Or.inl ⟨rfl, rfl⟩
    | some i =>
      obtain ⟨rfl, hlt⟩ := hat
      obtain ⟨n, hn⟩ : ∃ n, (levels 0)[i]? = some n := ⟨_, List.getElem?_eq_getElem (hlt i rfl)⟩
      have hmem : n ∈ levels 0 := List.mem_of_getElem? hn
      obtain ⟨node, hnode, hencode⟩ := h.node hmem
      -- Nodes have no way back: `Prev` searches for the last one that is below this one.
      have hless := h.less_eq fun a (ha : a.Fits) => ha.keyComparator_encode (h.fits_call hmem)
      rw [← hencode] at hless
      have hprev := h.shape.iterPrev hnode hless (h.mono hcmp (call n).internalKey)
      rw [h.filter_less hcmp hn] at hprev
      refine Or.inr ⟨_, _, ?_, rfl, at_before levels (hlt i rfl).le⟩
      change ((levels 0)[i]?).bind (m.table.iterPrev (keyComparator m.cmp)) = _
      rw [hn, Option.bind_some]
      exact hprev

/-- An iterator shows the entry of its position. -/
theorem iterObserve (h : m.Holds levels call adds) {node pos : Option ℕ} (hat : At levels node pos) :
    m.iterObserve node = some (cursorObserve (entries levels call) pos) := by
  obtain ⟨rfl, hlt⟩ := hat
  cases pos with
  | none => rfl
  | some i =>
    obtain ⟨n, hn⟩ : ∃ n, (levels 0)[i]? = some n := ⟨_, List.getElem?_eq_getElem (hlt i rfl)⟩
    obtain ⟨node, hnode, hencode⟩ := h.node (List.mem_of_getElem? hn)
    obtain ⟨hkey, hvalue⟩ := (h.fits_call (List.mem_of_getElem? hn)).decode
    have hentry : (entries levels call)[i]? = some ((call n).internalKey, (call n).value) := by
      unfold entries
      rw [List.getElem?_map, hn]
      rfl
    unfold cursorObserve
    rw [Option.bind_some, Option.bind_some, hn, hentry]
    unfold MemTable.iterObserve iterEntry getLengthPrefixedSliceAt
    dsimp only
    rw [hnode, Option.bind_some, hencode, hkey, Option.bind_some, hvalue]
    rfl

/-- After every sequence of calls an iterator shows what a cursor over the entries shows. -/
theorem iterCalls (h : m.Holds levels call adds) (hcmp : m.cmp.TotalPreorder) : ∀ (cs : List (Call Slice))
    {node pos : Option ℕ}, At levels node pos → (∀ target, .seek target ∈ cs → target.length < 2^32) →
    (cs.foldlM m.iterCall node).bind m.iterObserve =
      (cursorCalls (fun a b => decide ((internalKeyComparator m.cmp).Lt a b)) (entries levels call) pos cs).map
        (cursorObserve (entries levels call))
  | [], _, _, hat, _ => h.iterObserve hat
  | c :: cs, _, _, hat, hcs => by
    unfold cursorCalls
    rw [List.foldlM_cons, List.foldlM_cons]
    obtain ⟨hnone, hnone'⟩ | ⟨node', pos', hsome, hsome', hat'⟩ :=
      h.iterCall hcmp hat fun target htarget => hcs target (htarget ▸ List.mem_cons_self)
    · rw [hnone, hnone']
      rfl
    · rw [hsome, hsome']
      exact h.iterCalls hcmp cs hat' fun target htarget => hcs target (List.mem_cons_of_mem c htarget)

/-- Any sequence of `Add` calls with new entries that fit succeeds, and the memtable holds these
entries with the ones before. -/
theorem addAll : ∀ {adds : List (AddCall × ℕ)} {m : MemTable} {levels : ℕ → List ℕ} {call : ℕ → AddCall}
    {done : List AddCall}, m.Holds levels call done → m.cmp.TotalPreorder → (∀ a ∈ adds, a.1.Fits) →
    (∀ a ∈ adds, 0 < a.2 ∧ a.2 ≤ kMaxHeight) →
    (adds.Pairwise fun a b => ¬(m.cmp.Equal a.1.key b.1.key ∧ a.1.sequence = b.1.sequence)) →
    (∀ b ∈ done, ∀ a ∈ adds, ¬(m.cmp.Equal b.key a.1.key ∧ b.sequence = a.1.sequence)) →
    ∃ table levels' call', m.addAll adds = some { m with table := table } ∧
      { m with table := table }.Holds levels' call' (done ++ adds.map Prod.fst)
  | [], m, levels, call, done, h, _, _, _, _, _ => by
    refine ⟨m.table, levels, call, rfl, ?_⟩
    rw [List.map_nil, List.append_nil]
    exact h
  | a :: adds, m, levels, call, done, h, hcmp, hfits, hheights, hpair, hdone => by
    obtain ⟨hhead, htail⟩ := List.pairwise_cons.mp hpair
    obtain ⟨hpos, hle⟩ := hheights a List.mem_cons_self
    obtain ⟨table, levels', call', hadd, hholds⟩ := h.add hcmp (hfits a List.mem_cons_self)
      (fun b hb => hdone b hb a List.mem_cons_self) hpos hle
    obtain ⟨table', levels'', call'', hall, hholds'⟩ := addAll hholds hcmp
      (fun b hb => hfits b (List.mem_cons_of_mem a hb)) (fun b hb => hheights b (List.mem_cons_of_mem a hb)) htail
      fun b hb c hc => by
        obtain hb | hb := List.mem_append.mp hb
        · exact hdone b hb c (List.mem_cons_of_mem a hc)
        · rw [List.mem_singleton.mp hb]
          exact hhead c hc
    refine ⟨table', levels'', call'', ?_, ?_⟩
    · unfold MemTable.addAll at hall ⊢
      rw [List.foldlM_cons, hadd]
      exact hall
    · rw [List.map_cons, ← List.singleton_append, ← List.append_assoc]
      exact hholds'

end Holds

/-- A memtable is a map from user keys to versions: whatever was added with whatever heights, `Get` returns
what the newest visible entry says, and an iterator is a cursor over the sorted list of all entries. -/
theorem multi_version {cmp : Comparator} (hcmp : cmp.TotalPreorder) {adds : List (AddCall × ℕ)}
    (hfits : ∀ a ∈ adds, a.1.Fits) (hheights : ∀ a ∈ adds, 0 < a.2 ∧ a.2 ≤ kMaxHeight)
    (hdistinct : adds.Pairwise fun a b => ¬(cmp.Equal a.1.key b.1.key ∧ a.1.sequence = b.1.sequence)) :
    ∃ m, (⟨cmp, {}⟩ : MemTable).addAll adds = some m ∧
      (∀ key s, key.length < 2^32 - 8 → s < 2^56 →
        ∃ r, m.get (LookupKey.new key s) = some r ∧ Newest cmp (adds.map Prod.fst) key s r) ∧
      ∃ es : List (Slice × Slice), es.Perm (adds.map fun a => (a.1.internalKey, a.1.value)) ∧
        (es.Pairwise fun e e' => (internalKeyComparator cmp).Lt e.1 e'.1) ∧
        ∀ cs, (∀ target, .seek target ∈ cs → target.length < 2^32) →
          (m.iterCalls cs).bind m.iterObserve =
            (cursorCalls (fun a b => decide ((internalKeyComparator cmp).Lt a b)) es none cs).map
              (cursorObserve es) := by
  obtain ⟨table, levels, call, hall, hholds⟩ := (holds_new cmp fun _ => ⟨0, .value, [], []⟩).addAll hcmp hfits
    hheights hdistinct fun b hb => absurd hb List.not_mem_nil
  rw [List.nil_append] at hholds
  refine ⟨_, hall, fun key s hkey hs => hholds.get hcmp hkey hs, Holds.entries levels call, ?_, ?_, fun cs hcs => ?_⟩
  · have hperm := hholds.perm.map fun a => (a.internalKey, a.value)
    rw [List.map_map, List.map_map] at hperm
    exact hperm
  · exact List.pairwise_map.mpr hholds.sorted
  · exact hholds.iterCalls hcmp cs ⟨rfl, fun i hi => absurd hi (Option.some_ne_none i).symm⟩ hcs

/-- Two versions of a key, of which the older one is read at an old sequence number. -/
theorem multi_version_example :
    let adds : List (AddCall × ℕ) := [(⟨1, .value, [97], [1]⟩, 1), (⟨5, .deletion, [97], []⟩, 3)]
    ∃ m, (⟨bytewiseComparator, {}⟩ : MemTable).addAll adds = some m ∧
      ∃ r, m.get (LookupKey.new [97] 4) = some r ∧ Newest bytewiseComparator (adds.map Prod.fst) [97] 4 r := by
  intro adds
  have hfits : ∀ a ∈ adds, a.1.Fits := by
    intro a ha
    obtain rfl | ha := List.mem_cons.mp ha
    · exact ⟨by decide, by decide, by decide⟩
    · rw [List.mem_singleton.mp ha]
      exact ⟨by decide, by decide, by decide⟩
  obtain ⟨m, hall, hget, -⟩ := multi_version bytewiseComparator_totalOrder.toTotalPreorder hfits (by decide)
    (by decide)
  exact ⟨m, hall, hget [97] 4 (by decide) (by decide)⟩

end MemTable

end LevelDb
