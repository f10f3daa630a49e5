import LevelDb.Version.Files

/-!
# Tables

The contents of a table file are a strictly increasing list of entries. `FileMetaData` names the
ends of that list; `FileMetaData.Holds` ties the two together. The encoding of tables is not part of
this model: a table iterator is a cursor over the list, and `Seek` stops at the first entry that is
not less than its target.
-/

namespace LevelDb

variable {K V : Type}

/-- The table files of a database by their numbers. -/
abbrev Tables (K V : Type) := ℕ → List (Entry K V)

/-- The contents of a list of entries as a set. -/
def contents (es : List (Entry K V)) : Set (Entry K V) := {e | e ∈ es}

@[simp] theorem mem_contents {es : List (Entry K V)} {e : Entry K V} : e ∈ contents es ↔ e ∈ es :=
  Iff.rfl

variable [LinearOrder K]

/-- Strictly increasing by internal key. -/
def KeySorted (es : List (Entry K V)) : Prop := es.Pairwise fun a b => a.key < b.key

/-- The entries of the table of `f`: sorted, with the ends that the metadata names. -/
structure FileMetaData.Holds (f : FileMetaData K) (es : List (Entry K V)) : Prop where
  /-- The entries come by increasing key. -/
  sorted : KeySorted es
  /-- The first key is the smallest. -/
  smallest : es.head?.map (·.key) = some f.smallest
  /-- The last key is the largest. -/
  largest : es.getLast?.map (·.key) = some f.largest

/-- A table has an entry with the smallest key of its file, the first one. -/
theorem FileMetaData.Holds.exists_smallest {f : FileMetaData K} {es : List (Entry K V)}
    (h : f.Holds es) : ∃ e ∈ es, e.key = f.smallest := by
  obtain ⟨e, he, hk⟩ := Option.map_eq_some_iff.mp h.smallest
  exact ⟨e, List.mem_of_mem_head? he, hk⟩

/-- A table has an entry with the largest key of its file, the last one. -/
theorem FileMetaData.Holds.exists_largest {f : FileMetaData K} {es : List (Entry K V)}
    (h : f.Holds es) : ∃ e ∈ es, e.key = f.largest := by
  obtain ⟨e, he, hk⟩ := Option.map_eq_some_iff.mp h.largest
  exact ⟨e, List.mem_of_mem_getLast? he, hk⟩

/-- The first entry of a sorted list has the smallest key. -/
theorem KeySorted.head_le {es : List (Entry K V)} (hs : KeySorted es) {a : Entry K V}
    (ha : es.head? = some a) {e : Entry K V} (he : e ∈ es) : a.key ≤ e.key := by
  cases es with
  | nil => simp at he
  | cons b es =>
    obtain rfl : b = a := by simpa using ha
    rcases List.mem_cons.mp he with rfl | he
    · exact le_refl _
    · exact ((List.pairwise_cons.mp hs).1 e he).le

/-- The last entry of a sorted list has the largest key. -/
theorem KeySorted.le_getLast {es : List (Entry K V)} (hs : KeySorted es) {a : Entry K V}
    (ha : es.getLast? = some a) {e : Entry K V} (he : e ∈ es) : e.key ≤ a.key := by
  obtain ⟨init, rfl⟩ := List.getLast?_eq_some_iff.mp ha
  rcases List.mem_append.mp he with he | he
  · exact ((List.pairwise_append.mp hs).2.2 e he a (by simp)).le
  · rw [List.mem_singleton.mp he]

/-- Every key of a table lies in the range of its metadata. -/
theorem FileMetaData.Holds.mem_range {f : FileMetaData K} {es : List (Entry K V)} (h : f.Holds es)
    {e : Entry K V} (he : e ∈ es) : f.smallest ≤ e.key ∧ e.key ≤ f.largest := by
  obtain ⟨a, ha, hak⟩ := Option.map_eq_some_iff.mp h.smallest
  obtain ⟨b, hb, hbk⟩ := Option.map_eq_some_iff.mp h.largest
  exact ⟨hak ▸ h.sorted.head_le ha he, hbk ▸ h.sorted.le_getLast hb he⟩

/-- A table is not empty, so its metadata has a range. -/
theorem FileMetaData.Holds.smallest_le_largest {f : FileMetaData K} {es : List (Entry K V)}
    (h : f.Holds es) : f.smallest ≤ f.largest := by
  obtain ⟨e, he, -⟩ := h.exists_smallest
  exact (h.mem_range he).1.trans (h.mem_range he).2

/-- The user keys of a table lie in the user-key range of its metadata. -/
theorem FileMetaData.Holds.userKey_range {f : FileMetaData K} {es : List (Entry K V)}
    (h : f.Holds es) {e : Entry K V} (he : e ∈ es) :
    f.smallest.userKey ≤ e.key.userKey ∧ e.key.userKey ≤ f.largest.userKey :=
  ⟨InternalKey.userKey_le (h.mem_range he).1, InternalKey.userKey_le (h.mem_range he).2⟩

/-- Every file of the version has its table. -/
def Version.HasTables (v : Version K) (tables : Tables K V) : Prop :=
  ∀ level, ∀ f ∈ v.files level, f.Holds (tables f.number)

/-- A user key occurs in the table of a file. -/
def OccursIn (tables : Tables K V) (k : K) (f : FileMetaData K) : Prop :=
  ∃ e ∈ tables f.number, e.key.userKey = k

/-- Two files of which one comes entirely before the other share a user key exactly when the first
ends with the user key with which the second starts. -/
theorem shares_userKey_iff {tables : Tables K V} {f g : FileMetaData K}
    (hf : f.Holds (tables f.number)) (hg : g.Holds (tables g.number)) (hlt : f.largest < g.smallest) :
    (∃ k, OccursIn tables k f ∧ OccursIn tables k g) ↔ f.largest.userKey = g.smallest.userKey := by
  constructor
  · rintro ⟨k, ⟨a, ha, hak⟩, b, hb, hbk⟩
    have h1 := (hf.userKey_range ha).2
    have h2 := (hg.userKey_range hb).1
    have h3 := InternalKey.userKey_le hlt.le
    rw [hak] at h1
    rw [hbk] at h2
    exact le_antisymm h3 (h2.trans h1)
  · intro h
    obtain ⟨a, ha, hak⟩ := hf.exists_largest
    obtain ⟨b, hb, hbk⟩ := hg.exists_smallest
    exact ⟨f.largest.userKey, ⟨a, ha, by rw [hak]⟩, b, hb, by rw [hbk, h]⟩

/-! ## What a version stores -/

/-- The entries of one level. -/
def Version.levelContents (v : Version K) (tables : Tables K V) (level : ℕ) : Set (Entry K V) :=
  {e | ∃ f ∈ v.files level, e ∈ tables f.number}

/-- The entries of all levels. -/
def Version.contents (v : Version K) (tables : Tables K V) : Set (Entry K V) :=
  {e | ∃ level, e ∈ v.levelContents tables level}

/-- For each user key, all entries in a shallower level are newer than those in deeper levels. -/
def Version.LevelsByRecency (v : Version K) (tables : Tables K V) : Prop :=
  ∀ i j, i < j → Lib.Newer (v.levelContents tables i) (v.levelContents tables j)

end LevelDb
