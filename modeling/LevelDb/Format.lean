import LevelDb.Lib.MultiVersion
import Mathlib.Algebra.Group.Int.Defs
import Mathlib.Algebra.GroupWithZero.Nat
import Mathlib.Data.List.Lex
import Mathlib.Data.List.Sort
import Mathlib.Order.Defs.LinearOrder

/-!
# Internal keys

The format of `db/dbformat.h`: an internal key is a user key with a 56-bit sequence number and a
value type, ordered by increasing user key, then by decreasing packed tag. User keys are an
arbitrary linear order, which stands for the user comparator; `BytewiseComparator` is the
lexicographic order of `Slice`. `a < b` is `InternalKeyComparator::Compare(a, b) < 0`.
-/

namespace LevelDb

/-! ## Constants -/

/-- `config::kNumLevels`. -/
def kNumLevels : ℕ := 7

/-- `config::kL0_CompactionTrigger`: level-0 compaction is started when we hit this many files. -/
def kL0CompactionTrigger : ℕ := 4

/-- `config::kL0_SlowdownWritesTrigger`: the number of level-0 files at which writes slow down. -/
def kL0SlowdownWritesTrigger : ℕ := 8

/-- `config::kL0_StopWritesTrigger`: maximum number of level-0 files, at which writes stop. -/
def kL0StopWritesTrigger : ℕ := 12

/-- `config::kMaxMemCompactLevel`: the maximum level to which a new compacted memtable is pushed. -/
def kMaxMemCompactLevel : ℕ := 2

/-- `kMaxSequenceNumber`: eight bits are left empty at the bottom of a 64-bit tag. -/
def kMaxSequenceNumber : ℕ := 2^56 - 1

/-! ## Bytes -/

/-- A byte string. -/
abbrev Slice := List UInt8

/-- A string of ASCII characters. -/
def ascii (s : String) : Slice := s.toList.map fun c => UInt8.ofNat c.toNat

/-- The order of bytes as unsigned numbers, which `memcmp` uses. -/
instance byteOrder : LinearOrder UInt8 where
  le_refl := UInt8.le_refl
  le_trans _ _ _ := UInt8.le_trans
  le_antisymm _ _ := UInt8.le_antisymm
  le_total := UInt8.le_total
  lt_iff_le_not_ge a b := by
    rw [UInt8.lt_iff_toNat_lt, UInt8.le_iff_toNat_le, UInt8.le_iff_toNat_le]
    omega
  toDecidableLE := inferInstance
  toDecidableLT := inferInstance
  toDecidableEq := inferInstance

/-! ## Internal keys -/

/-- `ValueType`: the type of an entry, embedded in the low byte of its tag. -/
inductive ValueType where
  /-- `kTypeDeletion` -/
  | deletion
  /-- `kTypeValue` -/
  | value
  deriving DecidableEq, Repr

/-- The numeric value of a `ValueType`. -/
def ValueType.toNat : ValueType → ℕ
  | .deletion => 0
  | .value => 1

/-- `kValueTypeForSeek`: the highest-numbered type, since tags sort in decreasing order. -/
def kValueTypeForSeek : ValueType := .value

/-- `InternalKey`: a user key with the sequence number and type of its tag. The tag has 56 bits
for the sequence number. -/
structure InternalKey (K : Type) where
  /-- The user key. -/
  userKey : K
  /-- The sequence number. -/
  sequence : ℕ
  /-- The type of the entry. -/
  type : ValueType
  /-- The sequence number fits in its 56 bits. -/
  sequence_le : sequence ≤ kMaxSequenceNumber
  deriving DecidableEq

variable {K V : Type}

/-- `PackSequenceAndType` on the parts of an internal key: the upper 56 bits of the tag keep the
sequence number modulo `2^56`. -/
def InternalKey.pack (userKey : K) (sequence : ℕ) (type : ValueType) : InternalKey K :=
  ⟨userKey, sequence % 2^56, type, by
    have := Nat.mod_lt sequence (Nat.two_pow_pos 56)
    unfold kMaxSequenceNumber
    omega⟩

/-- The packed tag `(sequence << 8) | type`. -/
def InternalKey.tag (k : InternalKey K) : ℕ := k.sequence * 256 + k.type.toNat

/-- `LookupKey`: the internal key at which a lookup of `userKey` at `sequence` starts. -/
def lookupKey (userKey : K) (sequence : ℕ) : InternalKey K :=
  .pack userKey sequence kValueTypeForSeek

@[simp] theorem InternalKey.pack_userKey (k : K) (s : ℕ) (t : ValueType) :
    (InternalKey.pack k s t).userKey = k := rfl

@[simp] theorem InternalKey.pack_type (k : K) (s : ℕ) (t : ValueType) :
    (InternalKey.pack k s t).type = t := rfl

@[simp] theorem lookupKey_userKey (k : K) (s : ℕ) : (lookupKey k s).userKey = k := rfl

/-- A sequence number of at most 56 bits is packed exactly. -/
theorem InternalKey.pack_sequence {k : K} {s : ℕ} {t : ValueType} (h : s ≤ kMaxSequenceNumber) :
    (InternalKey.pack k s t).sequence = s := by
  unfold kMaxSequenceNumber at h
  exact Nat.mod_eq_of_lt (by omega)

/-- A value type is at most one. -/
theorem ValueType.toNat_le_one (t : ValueType) : t.toNat ≤ 1 := by cases t <;> simp [toNat]

/-- The numbers of the value types differ. -/
theorem ValueType.toNat_injective : Function.Injective ValueType.toNat := by
  intro a b h
  cases a <;> cases b <;> simp_all [toNat]

/-- The tag determines sequence number and type. -/
theorem InternalKey.ext_of_tag {a b : InternalKey K} (hu : a.userKey = b.userKey)
    (ht : a.tag = b.tag) : a = b := by
  obtain ⟨ua, sa, ta, ha⟩ := a
  obtain ⟨ub, sb, tb, hb⟩ := b
  have h1 := ta.toNat_le_one
  have h2 := tb.toNat_le_one
  simp only [tag] at hu ht
  obtain rfl : sa = sb := by omega
  obtain rfl : ta = tb := ValueType.toNat_injective (by omega)
  rw [hu]

section Order

variable [LinearOrder K]

/-- The order of `InternalKeyComparator::Compare`: increasing user key, then decreasing tag. -/
instance : LinearOrder (InternalKey K) where
  lt a b := a.userKey < b.userKey ∨ (a.userKey = b.userKey ∧ b.tag < a.tag)
  le a b := a.userKey < b.userKey ∨ (a.userKey = b.userKey ∧ b.tag ≤ a.tag)
  le_refl a := Or.inr ⟨rfl, le_refl _⟩
  le_trans a b c := by
    rintro (h1 | ⟨h1, h1'⟩) (h2 | ⟨h2, h2'⟩)
    · exact Or.inl (h1.trans h2)
    · exact Or.inl (h2 ▸ h1)
    · exact Or.inl (h1 ▸ h2)
    · exact Or.inr ⟨h1.trans h2, h2'.trans h1'⟩
  le_antisymm a b := by
    rintro (h1 | ⟨h1, h1'⟩) (h2 | ⟨h2, h2'⟩)
    · exact absurd h2 (lt_asymm h1)
    · exact absurd h1 (h2 ▸ lt_irrefl _)
    · exact absurd h2 (h1 ▸ lt_irrefl _)
    · exact InternalKey.ext_of_tag h1 (le_antisymm h2' h1')
  le_total a b := by
    rcases lt_trichotomy a.userKey b.userKey with h | h | h
    · exact Or.inl (Or.inl h)
    · rcases le_total b.tag a.tag with ht | ht
      · exact Or.inl (Or.inr ⟨h, ht⟩)
      · exact Or.inr (Or.inr ⟨h.symm, ht⟩)
    · exact Or.inr (Or.inl h)
  lt_iff_le_not_ge a b := by
    constructor
    · rintro (h | ⟨h, ht⟩)
      · refine ⟨Or.inl h, ?_⟩
        rintro (h' | ⟨h', -⟩)
        · exact lt_asymm h h'
        · exact lt_irrefl _ (h' ▸ h)
      · refine ⟨Or.inr ⟨h, ht.le⟩, ?_⟩
        rintro (h' | ⟨-, ht'⟩)
        · exact lt_irrefl _ (h ▸ h')
        · omega
    · rintro ⟨h | ⟨h, ht⟩, hn⟩
      · exact Or.inl h
      · refine Or.inr ⟨h, ?_⟩
        by_contra hlt
        exact hn (Or.inr ⟨h.symm, by omega⟩)
  toDecidableLE := fun _ _ => instDecidableOr
  toDecidableLT := fun _ _ => instDecidableOr
  toDecidableEq := inferInstance

/-- The strict order of internal keys, unfolded. -/
theorem InternalKey.lt_iff {a b : InternalKey K} :
    a < b ↔ a.userKey < b.userKey ∨ (a.userKey = b.userKey ∧ b.tag < a.tag) := Iff.rfl

/-- The order of internal keys, unfolded. -/
theorem InternalKey.le_iff {a b : InternalKey K} :
    a ≤ b ↔ a.userKey < b.userKey ∨ (a.userKey = b.userKey ∧ b.tag ≤ a.tag) := Iff.rfl

/-- The order of internal keys refines the order of user keys. -/
theorem InternalKey.userKey_le {a b : InternalKey K} (h : a ≤ b) : a.userKey ≤ b.userKey := by
  rcases h with h | ⟨h, -⟩
  · exact h.le
  · exact h.le

/-- Smaller user keys give smaller internal keys. -/
theorem InternalKey.lt_of_userKey_lt {a b : InternalKey K} (h : a.userKey < b.userKey) : a < b :=
  Or.inl h

/-- Of one user key, the smaller internal key does not have the smaller sequence number. -/
theorem InternalKey.sequence_le_of_le {a b : InternalKey K} (h : a ≤ b)
    (hu : a.userKey = b.userKey) : b.sequence ≤ a.sequence := by
  rcases h with h | ⟨-, h⟩
  · exact absurd h (hu ▸ lt_irrefl _)
  · have := a.type.toNat_le_one
    simp only [tag] at h
    omega

/-- Where a lookup starts: at the entries of the key that are visible at the sequence number, and
before all larger user keys. -/
theorem lookupKey_le_iff {k : K} {s : ℕ} (hs : s ≤ kMaxSequenceNumber) {b : InternalKey K} :
    lookupKey k s ≤ b ↔ k < b.userKey ∨ (k = b.userKey ∧ b.sequence ≤ s) := by
  have ht := b.type.toNat_le_one
  have hseek : kValueTypeForSeek.toNat = 1 := rfl
  rw [InternalKey.le_iff]
  simp only [lookupKey, InternalKey.tag, InternalKey.pack_userKey, InternalKey.pack_type,
    InternalKey.pack_sequence hs, hseek]
  constructor
  · rintro (h | ⟨h, h'⟩)
    · exact Or.inl h
    · exact Or.inr ⟨h, by omega⟩
  · rintro (h | ⟨h, h'⟩)
    · exact Or.inl h
    · exact Or.inr ⟨h, by omega⟩

/-- The earliest internal key of a user key: nothing of that user key is smaller. -/
theorem lt_lookupKey_max_iff {k : K} {a : InternalKey K} :
    a < lookupKey k kMaxSequenceNumber ↔ a.userKey < k := by
  rw [← not_le, lookupKey_le_iff (le_refl _), not_or, not_lt]
  constructor
  · rintro ⟨h1, h2⟩
    exact lt_of_le_of_ne h1 fun h => h2 ⟨h.symm, a.sequence_le⟩
  · exact fun h => ⟨h.le, fun h' => lt_irrefl _ (h'.1 ▸ h)⟩

end Order

/-! ## Entries -/

/-- One entry of a memtable or of a table: an internal key with its value. -/
structure Entry (K V : Type) where
  /-- The internal key. -/
  key : InternalKey K
  /-- The value; it is empty for a deletion. -/
  value : V
  deriving DecidableEq

/-- What reading an entry yields: `NotFound` for a deletion. -/
def Entry.result (e : Entry K V) : Option V :=
  match e.key.type with
  | .deletion => none
  | .value => some e.value

/-- Entries are told apart by user key and sequence number. -/
instance : Lib.Versioned (Entry K V) K V where
  key e := e.key.userKey
  seq e := e.key.sequence
  val e := e.result

@[simp] theorem versioned_key (e : Entry K V) : Lib.Versioned.key e = e.key.userKey := rfl

@[simp] theorem versioned_seq (e : Entry K V) : Lib.Versioned.seq e = e.key.sequence := rfl

@[simp] theorem versioned_val (e : Entry K V) : Lib.Versioned.val e = e.result := rfl

end LevelDb
