import LevelDb.Util.Comparator
import LevelDb.Util.Coding

/-!
# The comparator of internal keys

`InternalKeyComparator` of `dbformat.cc`, on bytes: an internal key is a user key followed by eight
bytes with its tag. It lifts the functions of the user comparator that shorten keys: when the user part
has become larger, it gets the largest tag, which comes first. `FindShortSuccessor` compares the user
parts to find that out. `FindShortestSeparator` compares the whole of `*start`, tag included, with the
new user part, which is the same only for some comparators.
-/

namespace LevelDb

/-! ## The functions -/

/-- `ExtractUserKey` -/
def extractUserKey (internalKey : Slice) : Slice := internalKey.take (internalKey.length - 8)

/-- The number in the last eight bytes of an internal key. -/
def extractTag (internalKey : Slice) : ℕ := decodeFixed64 (internalKey.drop (internalKey.length - 8))

/-- `PackSequenceAndType` -/
def packSequenceAndType (sequence : ℕ) (type : ValueType) : ℕ := sequence * 2^8 ||| type.toNat

/-- The earliest tag of a user key. -/
def earliestTag : ℕ := packSequenceAndType kMaxSequenceNumber kValueTypeForSeek

/-- `InternalKeyComparator` -/
def internalKeyComparator (c : Comparator) : Comparator where
  -- Increasing user key, then decreasing sequence number and type.
  compare a b :=
    match c.compare (extractUserKey a) (extractUserKey b) with
    | .eq =>
      if extractTag b < extractTag a then .lt
      else if extractTag a < extractTag b then .gt
      else .eq
    | r => r
  findShortestSeparator start limit :=
    let tmp := c.findShortestSeparator (extractUserKey start) (extractUserKey limit)
    if c.Lt start tmp then tmp ++ encodeFixed64 earliestTag else start
  findShortSuccessor key :=
    let userKey := extractUserKey key
    let tmp := c.findShortSuccessor userKey
    if c.Lt userKey tmp then tmp ++ encodeFixed64 earliestTag else key

/-! ## The order -/

/-- The earliest tag fits in 64 bits. -/
theorem earliestTag_lt : earliestTag < 2^64 := by decide

/-- The user part of a user key with a tag. -/
theorem extractUserKey_append (userKey : Slice) (tag : ℕ) :
    extractUserKey (userKey ++ encodeFixed64 tag) = userKey := by
  unfold extractUserKey
  rw [List.length_append, encodeFixed64_length, Nat.add_sub_cancel]
  exact List.take_left' rfl

/-- The tag of a user key with a tag. -/
theorem extractTag_append (userKey : Slice) {tag : ℕ} (h : tag < 2^64) :
    extractTag (userKey ++ encodeFixed64 tag) = tag := by
  unfold extractTag
  rw [List.length_append, encodeFixed64_length, Nat.add_sub_cancel, List.drop_left' rfl,
    decodeFixed64_encodeFixed64 h]

section Order

variable {c : Comparator} {a b : Slice}

/-- Under the internal comparator one key is less than another if its user key is, or if the user keys
are equal and its tag is larger. -/
theorem internalKeyComparator_lt_iff : (internalKeyComparator c).Lt a b ↔
    c.Lt (extractUserKey a) (extractUserKey b) ∨
      (c.Equal (extractUserKey a) (extractUserKey b) ∧ extractTag b < extractTag a) := by
  unfold Comparator.Lt Comparator.Equal internalKeyComparator
  dsimp only
  cases c.compare (extractUserKey a) (extractUserKey b) with
  | lt => simp
  | gt => simp
  | eq => split_ifs <;> simp_all

/-- The order of internal keys, when they may be equal. -/
theorem internalKeyComparator_le_iff : (internalKeyComparator c).Le a b ↔
    c.Lt (extractUserKey a) (extractUserKey b) ∨
      (c.Equal (extractUserKey a) (extractUserKey b) ∧ extractTag b ≤ extractTag a) := by
  unfold Comparator.Le Comparator.Lt Comparator.Equal internalKeyComparator
  dsimp only
  cases c.compare (extractUserKey a) (extractUserKey b) with
  | lt => simp
  | gt => simp
  | eq =>
    split_ifs
    · simp_all
      omega
    · simp_all
    · simp_all

/-- A user key with the earliest tag is not less than an internal key. -/
theorem le_append_earliestTag_iff {userKey : Slice} :
    (internalKeyComparator c).Le a (userKey ++ encodeFixed64 earliestTag) ↔
      c.Lt (extractUserKey a) userKey ∨
        (c.Equal (extractUserKey a) userKey ∧ earliestTag ≤ extractTag a) := by
  rw [internalKeyComparator_le_iff, extractUserKey_append, extractTag_append _ earliestTag_lt]

/-- A user key with the earliest tag is less than an internal key. -/
theorem append_earliestTag_lt_iff {userKey : Slice} :
    (internalKeyComparator c).Lt (userKey ++ encodeFixed64 earliestTag) b ↔
      c.Lt userKey (extractUserKey b) ∨
        (c.Equal userKey (extractUserKey b) ∧ extractTag b < earliestTag) := by
  rw [internalKeyComparator_lt_iff, extractUserKey_append, extractTag_append _ earliestTag_lt]

/-- The order is a total preorder if that of the user keys is one. -/
theorem internalKeyComparator_totalPreorder (h : c.TotalPreorder) :
    (internalKeyComparator c).TotalPreorder where
  swap a b := by
    unfold internalKeyComparator
    dsimp only
    rw [h.swap (extractUserKey a) (extractUserKey b)]
    cases c.compare (extractUserKey b) (extractUserKey a) with
    | lt => rfl
    | gt => rfl
    | eq =>
      show (if _ then _ else _) = Ordering.swap (if _ then _ else _)
      split_ifs <;> first | rfl | omega
  trans := by
    intro a b d hab hbd
    rw [internalKeyComparator_le_iff] at hab hbd ⊢
    obtain hab | ⟨hab, htag⟩ := hab
    · obtain hbd | ⟨hbd, -⟩ := hbd
      · exact Or.inl (h.lt_trans hab hbd)
      · exact Or.inl (h.lt_of_lt_of_le hab hbd.le)
    · obtain hbd | ⟨hbd, htag'⟩ := hbd
      · exact Or.inl (h.lt_of_le_of_lt hab.le hbd)
      · obtain hlt | heq := Comparator.le_iff_lt_or_equal.mp (h.trans hab.le hbd.le)
        · exact Or.inl hlt
        · exact Or.inr ⟨heq, htag'.trans htag⟩

end Order

/-! ## The contract -/

/-- `FindShortestSeparator` changes `*start` to an internal key in `[start, limit)`. -/
def Comparator.SeparatorOk (c : Comparator) (start limit : Slice) : Prop :=
  8 ≤ ((internalKeyComparator c).findShortestSeparator start limit).length ∧
    (internalKeyComparator c).Le start ((internalKeyComparator c).findShortestSeparator start limit) ∧
    (internalKeyComparator c).Lt ((internalKeyComparator c).findShortestSeparator start limit) limit

/-- `FindShortSuccessor` changes `*key` to an internal key that is not less. -/
def Comparator.SuccessorOk (c : Comparator) (key : Slice) : Prop :=
  8 ≤ ((internalKeyComparator c).findShortSuccessor key).length ∧
    (internalKeyComparator c).Le key ((internalKeyComparator c).findShortSuccessor key)

/-- When `FindShortestSeparator` takes the new user part, it is larger, and the user parts of the keys
differ; or it is the same, and the earliest tag is between the tags. -/
def Comparator.GuardRight (c : Comparator) (start limit : Slice) : Prop :=
  let tmp := c.findShortestSeparator (extractUserKey start) (extractUserKey limit)
  c.Lt start tmp →
    (tmp ≠ extractUserKey start ∧ extractUserKey start ≠ extractUserKey limit) ∨
      (tmp = extractUserKey start ∧ earliestTag ≤ extractTag start ∧
        (extractUserKey start = extractUserKey limit → extractTag limit < earliestTag))

section Contract

variable {c : Comparator}

/-- Over a comparator that keeps its contract, `FindShortSuccessor` of the internal comparator keeps it
too. -/
theorem Comparator.successorOk (hc : c.TotalOrder) {key : Slice} (hkey : 8 ≤ key.length) :
    c.SuccessorOk key := by
  unfold Comparator.SuccessorOk internalKeyComparator
  dsimp only
  split_ifs with hgrown
  · constructor
    · rw [List.length_append, encodeFixed64_length]
      omega
    · exact le_append_earliestTag_iff.mpr (Or.inl hgrown)
  · exact ⟨hkey, ((internalKeyComparator_totalPreorder hc.toTotalPreorder).refl key).le⟩

/-- `FindShortestSeparator` keeps the contract exactly if its guard is right. -/
theorem Comparator.separatorOk_iff (hc : c.TotalOrder) (hshort : c.Shortens) {start limit : Slice}
    (hstart : 8 ≤ start.length) (hlt : (internalKeyComparator c).Lt start limit) :
    c.SeparatorOk start limit ↔ c.GuardRight start limit := by
  have horder := internalKeyComparator_totalPreorder hc.toTotalPreorder
  unfold Comparator.SeparatorOk Comparator.GuardRight
  set tmp := c.findShortestSeparator (extractUserKey start) (extractUserKey limit) with htmp
  have hresult : (internalKeyComparator c).findShortestSeparator start limit =
      if c.Lt start tmp then tmp ++ encodeFixed64 earliestTag else start := rfl
  rw [hresult]
  dsimp only
  -- The guard decides whether the shortened key is taken.
  by_cases htaken : c.Lt start tmp
  · rw [if_pos htaken, le_append_earliestTag_iff, append_earliestTag_lt_iff]
    have hlength : 8 ≤ (tmp ++ encodeFixed64 earliestTag).length := by
      rw [List.length_append, encodeFixed64_length]
      omega
    obtain huser | ⟨huser, htag⟩ := internalKeyComparator_lt_iff.mp hlt
    · -- The user part is between those of the keys.
      obtain ⟨hge, hless⟩ := hshort.separator huser
      rw [← htmp] at hge hless
      have hne : extractUserKey start ≠ extractUserKey limit := by
        intro heq
        rw [heq] at huser
        exact hc.lt_irrefl _ huser
      constructor
      · rintro ⟨-, hlarger | ⟨hsame, hearliest⟩, -⟩ -
        · refine Or.inl ⟨?_, hne⟩
          intro heq
          rw [heq] at hlarger
          exact hc.lt_irrefl _ hlarger
        · exact Or.inr ⟨(hc.equal_iff.mp hsame).symm, hearliest, fun heq => absurd heq hne⟩
      · intro hguard
        refine ⟨hlength, ?_, Or.inl hless⟩
        obtain ⟨hgrown, -⟩ | ⟨hsame, hearliest, -⟩ := hguard htaken
        · obtain hlarger | hequal := Comparator.le_iff_lt_or_equal.mp hge
          · exact Or.inl hlarger
          · exact absurd (hc.equal_iff.mp hequal).symm hgrown
        · exact Or.inr ⟨hc.equal_iff.mpr hsame.symm, hearliest⟩
    · -- The keys have the same user part, for which the user comparator promises nothing.
      have heq := hc.equal_iff.mp huser
      rw [← heq]
      constructor
      · rintro ⟨-, hge, hle⟩ -
        obtain hlarger | ⟨hsame, hearliest⟩ := hge
        · obtain hless | ⟨hsame, -⟩ := hle
          · exact absurd hless (hc.lt_asymm hlarger)
          · rw [hc.equal_iff.mp hsame] at hlarger
            exact absurd hlarger (hc.lt_irrefl _)
        · have hsame' := (hc.equal_iff.mp hsame).symm
          obtain hless | ⟨-, hlimit⟩ := hle
          · rw [hsame'] at hless
            exact absurd hless (hc.lt_irrefl _)
          · exact Or.inr ⟨hsame', hearliest, fun _ => hlimit⟩
      · intro hguard
        obtain ⟨-, hne⟩ | ⟨hsame, hearliest, hlimit⟩ := hguard htaken
        · exact absurd rfl hne
        · have hequal : c.Equal tmp (extractUserKey start) := hc.equal_iff.mpr hsame
          exact ⟨hlength, Or.inr ⟨hc.equal_symm hequal, hearliest⟩, Or.inr ⟨hequal, hlimit rfl⟩⟩
  · rw [if_neg htaken]
    constructor
    · intro _ h
      exact absurd h htaken
    · intro _
      exact ⟨hstart, (horder.refl start).le, hlt⟩

/-- For every user comparator that is a total order and keeps its contract, and all internal keys with
`start < limit`, the comparator of internal keys keeps the contract exactly if the guard of
`FindShortestSeparator` is right. -/
theorem shortens_internalKeys_iff (c : Comparator) (hc : c.TotalOrder) (hshort : c.Shortens)
    (start limit : Slice) (hstart : 8 ≤ start.length) (_hlimit : 8 ≤ limit.length)
    (hlt : (internalKeyComparator c).Lt start limit) :
    (c.SeparatorOk start limit ∧ ∀ key, 8 ≤ key.length → c.SuccessorOk key) ↔
      c.GuardRight start limit := by
  constructor
  · rintro ⟨hseparator, -⟩
    exact (Comparator.separatorOk_iff hc hshort hstart hlt).mp hseparator
  · intro hguard
    refine ⟨(Comparator.separatorOk_iff hc hshort hstart hlt).mpr hguard, fun key hkey => ?_⟩
    exact Comparator.successorOk hc hkey

end Contract

/-! ## Two comparators -/

/-- With the bytewise comparator the guard is right: an internal key is not less than its user part. -/
theorem guardRight_bytewise (start limit : Slice) : bytewiseComparator.GuardRight start limit := by
  have hstart : ¬bytewiseComparator.Lt start (extractUserKey start) := by
    have hnot := bytewise_not_append_lt (extractUserKey start) (start.drop (start.length - 8))
    unfold extractUserKey at hnot ⊢
    rw [List.take_append_drop] at hnot
    exact hnot
  unfold Comparator.GuardRight
  intro tmp htaken
  refine Or.inl ⟨?_, ?_⟩
  · intro hsame
    rw [hsame] at htaken
    exact hstart htaken
  · -- A key is not shortened against itself.
    intro heq
    have hsame : tmp = extractUserKey start := by
      show bytewiseSeparator (extractUserKey start) (extractUserKey limit) = extractUserKey start
      unfold bytewiseSeparator
      rw [← heq, sharedLength_self, min_self, if_pos le_rfl]
    rw [hsame] at htaken
    exact hstart htaken

/-- The keys of a test of `dbformat_test.cc`. -/
theorem shortens_internalKeys_iff_example :
    bytewiseComparator.SeparatorOk (ascii "foo" ++ encodeFixed64 (packSequenceAndType 100 .value))
      (ascii "hello" ++ encodeFixed64 (packSequenceAndType 200 .value)) :=
  ((shortens_internalKeys_iff bytewiseComparator bytewiseComparator_totalOrder
    bytewiseComparator_shortens (ascii "foo" ++ encodeFixed64 (packSequenceAndType 100 .value))
    (ascii "hello" ++ encodeFixed64 (packSequenceAndType 200 .value)) (by decide) (by decide)
    (by decide)).mpr (guardRight_bytewise _ _)).1

/-- The reverse of the bytewise order, without shortening. -/
def reverseComparator : Comparator where
  compare a b := bytewiseCompare b a
  findShortestSeparator start _ := start
  findShortSuccessor key := key

/-- The reverse of the bytewise order is a total order. -/
theorem reverseComparator_totalOrder : reverseComparator.TotalOrder where
  swap a b := bytewiseCompare_swap b a
  trans := fun hab hbd => bytewiseCompare_trans hbd hab
  eq_of_equal := fun h => (eq_of_bytewiseCompare h).symm

/-- The reverse comparator shortens nothing, and so keeps the contract of the shortening functions. -/
theorem reverseComparator_shortens : reverseComparator.Shortens where
  separator := fun h => ⟨(reverseComparator_totalOrder.refl _).le, h⟩
  successor := fun key => (reverseComparator_totalOrder.refl key).le

/-- With the reverse order, the separator of two keys is less than the first. -/
theorem separator_less_than_start :
    reverseComparator.TotalOrder ∧ reverseComparator.Shortens ∧
      (internalKeyComparator reverseComparator).Lt
        (ascii "b" ++ encodeFixed64 (packSequenceAndType 100 .value))
        (ascii "a" ++ encodeFixed64 (packSequenceAndType 100 .value)) ∧
      ¬reverseComparator.SeparatorOk (ascii "b" ++ encodeFixed64 (packSequenceAndType 100 .value))
        (ascii "a" ++ encodeFixed64 (packSequenceAndType 100 .value)) := by
  refine ⟨reverseComparator_totalOrder, reverseComparator_shortens, by decide, ?_⟩
  rintro ⟨-, hle, -⟩
  exact absurd hle (by decide)

end LevelDb
