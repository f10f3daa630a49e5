import LevelDb.Compaction.Failure
import LevelDb.Db.MemTableBytes

/-!
# The order of internal keys

`AppendInternalKey`, `ParseInternalKey` and `LookupKey` of `db/dbformat.h` and `db/dbformat.cc`. The tag of
an internal key packs the sequence number and the type into one number, which stands in little-endian
order behind a user key of any length. Comparing the numbers is comparing sequence number and type, both
in decreasing order, so `InternalKeyComparator` orders internal keys lexicographically
(`compare_appendInternalKey`), and a lookup key comes right before what it has to find.
-/

namespace LevelDb

/-! ## Encoding and parsing -/

/-- `AppendInternalKey` -/
def appendInternalKey (result : Slice) (key : InternalKey Slice) : Slice :=
  result ++ key.userKey ++ encodeFixed64 (packSequenceAndType key.sequence key.type)

/-- Internal keys by increasing user key, decreasing sequence number and decreasing type. -/
def InternalKey.lexCompare (c : Comparator) (a b : InternalKey Slice) : Ordering :=
  ((c.compare a.userKey b.userKey).then (compare b.sequence a.sequence)).then
    (compare b.type.toNat a.type.toNat)

/-- `PackSequenceAndType` computes the tag of the model: the sequence number shifted by 8, with the
type below it. -/
theorem InternalKey.tag_eq {K : Type} (k : InternalKey K) :
    packSequenceAndType k.sequence k.type = k.tag := packSequenceAndType_eq k.sequence k.type

/-- `ParseInternalKey` reads back every key that `AppendInternalKey` has appended to an empty string. -/
theorem parseInternalKey_append (k : InternalKey Slice) :
    parseInternalKey (Equiv.refl Slice) (appendInternalKey [] k) = some k := by
  have hencode : appendInternalKey [] k = k.encode (Equiv.refl Slice) := by
    unfold appendInternalKey InternalKey.encode
    rw [List.nil_append, k.tag_eq]
    rfl
  have hlength : ¬(appendInternalKey [] k).length < 8 := by
    unfold appendInternalKey
    rw [List.length_append, encodeFixed64_length]
    omega
  have htype : extractTag (appendInternalKey [] k) % 2^8 ≤ ValueType.value.toNat := by
    have hle := k.type.toNat_le_one
    unfold appendInternalKey
    rw [k.tag_eq, extractTag_append _ k.tag_lt]
    show (k.sequence * 256 + k.type.toNat) % 2^8 ≤ 1
    omega
  unfold parseInternalKey
  rw [if_neg hlength, if_pos htype, hencode, InternalKey.decode_encode]

/-- The low byte of a tag stands in front of the others. -/
theorem extractTag_mod {s : Slice} (h : 8 ≤ s.length) :
    ∃ b, s[s.length - 8]? = some b ∧ extractTag s % 2^8 = b.toNat := by
  have hlength : (s.drop (s.length - 8)).length = 8 := by
    rw [List.length_drop]
    omega
  obtain ⟨b, rest, hcons⟩ := List.exists_cons_of_length_eq_add_one hlength
  refine ⟨b, ?_, ?_⟩
  · have hget := congrArg (fun l => l[0]?) hcons
    simpa only [List.getElem?_drop, Nat.add_zero, List.getElem?_cons_zero] using hget
  · have hlt := b.toNat_lt
    rw [hcons, List.length_cons] at hlength
    unfold extractTag
    rw [hcons]
    match rest, hlength with
    | [b1, b2, b3, b4, b5, b6, b7], _ =>
      simp only [decodeFixed64]
      omega

/-- `ParseInternalKey` accepts what has at least eight bytes and the number of a type where the type
stands. -/
theorem parseInternalKey_isSome_iff (s : Slice) :
    (parseInternalKey (Equiv.refl Slice) s).isSome ↔
      8 ≤ s.length ∧ ∃ b, s[s.length - 8]? = some b ∧ b ≤ 1 := by
  unfold parseInternalKey
  by_cases hlength : s.length < 8
  · rw [if_pos hlength]
    exact iff_of_false Bool.false_ne_true fun h => absurd h.1 (Nat.not_le.mpr hlength)
  · obtain ⟨b, hget, hmod⟩ := extractTag_mod (Nat.not_lt.mp hlength)
    have hone : (b ≤ 1) ↔ b.toNat ≤ ValueType.value.toNat := UInt8.le_iff_toNat_le
    rw [if_neg hlength, hmod]
    split_ifs with htype
    · exact iff_of_true rfl ⟨Nat.not_lt.mp hlength, b, hget, hone.mpr htype⟩
    · refine iff_of_false Bool.false_ne_true ?_
      rintro ⟨-, b', hget', hle⟩
      obtain rfl := Option.some.inj (hget.symm.trans hget')
      exact htype (hone.mp hle)

/-! ## The order -/

section Order

variable {c : Comparator}

/-- `ExtractUserKey` gives back the user key of an encoded internal key. -/
theorem extractUserKey_appendInternalKey (k : InternalKey Slice) :
    extractUserKey (appendInternalKey [] k) = k.userKey := extractUserKey_append _ _

/-- The last eight bytes of an encoded internal key give its tag. -/
theorem extractTag_appendInternalKey (k : InternalKey Slice) :
    extractTag (appendInternalKey [] k) = k.tag := by
  unfold appendInternalKey
  rw [k.tag_eq, extractTag_append _ k.tag_lt]

/-- Comparing tags is comparing sequence numbers, then types. -/
theorem InternalKey.compare_tag {K : Type} (a b : InternalKey K) :
    compare a.tag b.tag = (compare a.sequence b.sequence).then (compare a.type.toNat b.type.toNat) := by
  have hatype := a.type.toNat_le_one
  have hbtype := b.type.toNat_le_one
  unfold tag
  obtain hlt | heq | hgt := lt_trichotomy a.sequence b.sequence
  · rw [Nat.compare_eq_lt.mpr hlt, Nat.compare_eq_lt.mpr (by omega)]
    rfl
  · rw [Nat.compare_eq_eq.mpr heq, heq, Ordering.eq_then]
    obtain hlt | heq | hgt := lt_trichotomy a.type.toNat b.type.toNat
    · rw [Nat.compare_eq_lt.mpr hlt, Nat.compare_eq_lt.mpr (by omega)]
    · rw [Nat.compare_eq_eq.mpr heq, heq, Nat.compare_eq_eq.mpr rfl]
    · rw [Nat.compare_eq_gt.mpr hgt, Nat.compare_eq_gt.mpr (by omega)]
  · rw [Nat.compare_eq_gt.mpr hgt, Nat.compare_eq_gt.mpr (by omega)]
    rfl

/-- `InternalKeyComparator::Compare` on encodings is the lexicographic order. -/
theorem compare_appendInternalKey (c : Comparator) (a b : InternalKey Slice) :
    (internalKeyComparator c).compare (appendInternalKey [] a) (appendInternalKey [] b) =
      a.lexCompare c b := by
  unfold InternalKey.lexCompare internalKeyComparator
  dsimp only
  rw [extractUserKey_appendInternalKey, extractUserKey_appendInternalKey, extractTag_appendInternalKey,
    extractTag_appendInternalKey, Ordering.then_assoc, ← InternalKey.compare_tag b a]
  cases c.compare a.userKey b.userKey with
  | lt => rfl
  | gt => rfl
  | eq =>
    rw [Ordering.eq_then, Nat.compare_eq_ite_lt]

/-- On encodings it is a total order, if the user comparator is one. -/
theorem transCmp_lexCompare (hc : c.TotalPreorder) : Std.TransCmp (InternalKey.lexCompare c) where
  eq_swap {a b} := by
    rw [← compare_appendInternalKey, (internalKeyComparator_totalPreorder hc).swap,
      compare_appendInternalKey]
  isLE_trans {a b d} hab hbd := by
    rw [← compare_appendInternalKey, Ordering.isLE_iff_ne_gt] at *
    exact (internalKeyComparator_totalPreorder hc).trans hab hbd

/-- Only an encoding itself is equal to it. -/
theorem lawfulEqCmp_lexCompare (hc : c.TotalOrder) : Std.LawfulEqCmp (InternalKey.lexCompare c) where
  compare_self {a} := by
    rw [← compare_appendInternalKey]
    exact (internalKeyComparator_totalPreorder hc.toTotalPreorder).refl _
  eq_of_compare {a b} h := by
    unfold InternalKey.lexCompare at h
    rw [Ordering.then_eq_eq, Ordering.then_eq_eq, Nat.compare_eq_eq, Nat.compare_eq_eq] at h
    obtain ⟨⟨huser, hsequence⟩, htype⟩ := h
    refine InternalKey.ext_of_tag (hc.eq_of_equal huser) ?_
    unfold InternalKey.tag
    rw [hsequence, htype]

/-- `LookupKey::internal_key` is the encoding of the user key with the largest type. -/
theorem internalKey_lookupKey {key : Slice} {s : ℕ} (hs : s ≤ kMaxSequenceNumber) :
    (LookupKey.new key s).internalKey = appendInternalKey [] (lookupKey key s) := by
  have hpack : (lookupKey key s).sequence = s := InternalKey.pack_sequence hs
  unfold LookupKey.new LookupKey.internalKey appendInternalKey
  rw [List.drop_left, hpack]
  rfl

/-- A lookup key comes before the entries of its user key that it sees, and before those of larger user
keys. -/
theorem lookupKey_le_appendInternalKey (hc : c.TotalOrder) {key : Slice} {s : ℕ}
    (hs : s ≤ kMaxSequenceNumber) (e : InternalKey Slice) :
    (internalKeyComparator c).Le (LookupKey.new key s).internalKey (appendInternalKey [] e) ↔
      (e.userKey = key ∧ e.sequence ≤ s) ∨ c.Lt key e.userKey := by
  have htype := e.type.toNat_le_one
  have htag : e.tag ≤ (lookupKey key s).tag ↔ e.sequence ≤ s := by
    have hpack : (lookupKey key s).sequence = s := InternalKey.pack_sequence hs
    have hseek : (lookupKey key s).type.toNat = 1 := rfl
    unfold InternalKey.tag
    omega
  rw [internalKey_lookupKey hs, internalKeyComparator_le_iff, extractUserKey_appendInternalKey,
    extractUserKey_appendInternalKey, extractTag_appendInternalKey, extractTag_appendInternalKey, htag,
    lookupKey_userKey, hc.equal_iff, or_comm, eq_comm]

end Order

/-- Internal keys encode their order. `ParseInternalKey` undoes `AppendInternalKey`, and accepts a string
if and only if it has at least eight bytes and a type byte that is at most 1. For every user comparator
that is a total order, `InternalKeyComparator` is a total order on encodings, the lexicographic one, and
`LookupKey(k, s).internal_key()` is `<=` exactly those entries of `k` with sequence numbers up to `s` and
all entries of larger user keys. -/
theorem internalKeys_encode_order (c : Comparator) (hc : c.TotalOrder) :
    (∀ k, parseInternalKey (Equiv.refl Slice) (appendInternalKey [] k) = some k) ∧
      (∀ s, (parseInternalKey (Equiv.refl Slice) s).isSome ↔
        8 ≤ s.length ∧ ∃ b, s[s.length - 8]? = some b ∧ b ≤ 1) ∧
      (∀ a b, (internalKeyComparator c).compare (appendInternalKey [] a) (appendInternalKey [] b) =
        a.lexCompare c b) ∧
      Std.TransCmp (InternalKey.lexCompare c) ∧ Std.LawfulEqCmp (InternalKey.lexCompare c) ∧
      ∀ key s, s < 2^56 → ∀ e : InternalKey Slice,
        (internalKeyComparator c).Le (LookupKey.new key s).internalKey (appendInternalKey [] e) ↔
          (e.userKey = key ∧ e.sequence ≤ s) ∨ c.Lt key e.userKey := by
  refine ⟨parseInternalKey_append, parseInternalKey_isSome_iff, compare_appendInternalKey c,
    transCmp_lexCompare hc.toTotalPreorder, lawfulEqCmp_lexCompare hc, fun key s hs e => ?_⟩
  have hle : s ≤ kMaxSequenceNumber := by
    unfold kMaxSequenceNumber
    omega
  exact lookupKey_le_appendInternalKey hc hle e

/-- A user key that is a front of another one, and two sequence numbers of it. -/
theorem internalKeys_encode_order_example :
    (internalKeyComparator bytewiseComparator).Le (LookupKey.new (ascii "a") 5).internalKey
        (appendInternalKey [] (.pack (ascii "a") 5 .deletion)) ∧
      ¬(internalKeyComparator bytewiseComparator).Le (LookupKey.new (ascii "a") 5).internalKey
        (appendInternalKey [] (.pack (ascii "a") 6 .deletion)) ∧
      (internalKeyComparator bytewiseComparator).Le (LookupKey.new (ascii "a") 5).internalKey
        (appendInternalKey [] (.pack (ascii "ab") 6 .deletion)) := by
  obtain ⟨-, -, -, -, -, hlookup⟩ :=
    internalKeys_encode_order bytewiseComparator bytewiseComparator_totalOrder
  refine ⟨(hlookup _ _ (by decide) _).mpr (by decide), fun h => ?_,
    (hlookup _ _ (by decide) _).mpr (by decide)⟩
  exact absurd ((hlookup _ _ (by decide) _).mp h) (by decide)

end LevelDb
