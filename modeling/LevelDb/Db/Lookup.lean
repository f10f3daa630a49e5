import LevelDb.Util.Comparator
import LevelDb.Version.Get

/-!
# Lookups with an arbitrary comparator

`DBImpl::Get` for user keys that are compared by a `Comparator`, for which different byte strings may be
equal. `MemTable::Get` asks the comparator whether the entry at which it stands belongs to the user key;
`GetValue`, which `Version::Get` calls for a table, compares the bytes. A database is well formed when
its memtables and tables are sorted, its files have the ranges of their tables, and what is searched
first is newer.
-/

namespace LevelDb

/-! ## Internal keys -/

section Keys

variable {c : Comparator} {a b d : InternalKey Slice}

/-- `InternalKeyComparator::Compare(a, b) < 0` -/
def Comparator.KeyLt (c : Comparator) (a b : InternalKey Slice) : Prop :=
  c.Lt a.userKey b.userKey ∨ (c.Equal a.userKey b.userKey ∧ b.tag < a.tag)

/-- `InternalKeyComparator::Compare(a, b) <= 0` -/
def Comparator.KeyLe (c : Comparator) (a b : InternalKey Slice) : Prop :=
  c.Lt a.userKey b.userKey ∨ (c.Equal a.userKey b.userKey ∧ b.tag ≤ a.tag)

instance (c : Comparator) (a b : InternalKey Slice) : Decidable (c.KeyLt a b) :=
  inferInstanceAs (Decidable (_ ∨ _))

instance (c : Comparator) (a b : InternalKey Slice) : Decidable (c.KeyLe a b) :=
  inferInstanceAs (Decidable (_ ∨ _))

/-- The strict order of keys under a comparator implies the order with equality. -/
theorem Comparator.KeyLt.le (h : c.KeyLt a b) : c.KeyLe a b := by
  obtain h | ⟨h, htag⟩ := h
  · exact Or.inl h
  · exact Or.inr ⟨h, htag.le⟩

/-- `a < b` unless `b <= a`. -/
theorem Comparator.TotalPreorder.not_keyLe (h : c.TotalPreorder) : ¬c.KeyLe b a ↔ c.KeyLt a b := by
  unfold Comparator.KeyLe Comparator.KeyLt
  constructor
  · intro hnot
    obtain hlt | heq | hgt := h.lt_or_equal_or_gt a.userKey b.userKey
    · exact Or.inl hlt
    · refine Or.inr ⟨heq, ?_⟩
      by_contra htag
      exact hnot (Or.inr ⟨h.equal_symm heq, Nat.le_of_not_lt htag⟩)
    · exact absurd (Or.inl hgt) hnot
  · intro hlt hle
    obtain hlt | ⟨heq, htag⟩ := hlt
    · obtain hgt | ⟨heq, -⟩ := hle
      · exact h.lt_asymm hlt hgt
      · exact h.not_lt.mpr heq.le hlt
    · obtain hgt | ⟨-, htag'⟩ := hle
      · exact h.not_lt.mpr heq.le hgt
      · omega

/-- Under a total preorder on user keys, `<=` on internal keys is transitive. -/
theorem Comparator.TotalPreorder.keyLe_trans (h : c.TotalPreorder) (hab : c.KeyLe a b)
    (hbd : c.KeyLe b d) : c.KeyLe a d := by
  obtain hab | ⟨hab, htag⟩ := hab
  · obtain hbd | ⟨hbd, -⟩ := hbd
    · exact Or.inl (h.lt_trans hab hbd)
    · exact Or.inl (h.lt_of_lt_of_le hab hbd.le)
  · obtain hbd | ⟨hbd, htag'⟩ := hbd
    · exact Or.inl (h.lt_of_le_of_lt hab.le hbd)
    · obtain hlt | heq := Comparator.le_iff_lt_or_equal.mp (h.trans hab.le hbd.le)
      · exact Or.inl hlt
      · exact Or.inr ⟨heq, htag'.trans htag⟩

/-- Under a total preorder on user keys, a strict step before one of `<=` gives a strict one. -/
theorem Comparator.TotalPreorder.keyLt_of_lt_of_le (h : c.TotalPreorder) (hab : c.KeyLt a b)
    (hbd : c.KeyLe b d) : c.KeyLt a d := by
  apply h.not_keyLe.mp
  intro hda
  exact h.not_keyLe.mpr hab (h.keyLe_trans hbd hda)

/-- The order of internal keys refines that of user keys. -/
theorem Comparator.KeyLe.userKey_le (h : c.KeyLe a b) : c.Le a.userKey b.userKey := by
  obtain h | ⟨h, -⟩ := h
  · exact h.le
  · exact h.le

/-- Of one user key, the smaller internal key does not have the smaller sequence number. -/
theorem Comparator.TotalPreorder.sequence_le (h : c.TotalPreorder) (hab : c.KeyLe a b)
    (heq : c.Equal a.userKey b.userKey) : b.sequence ≤ a.sequence := by
  obtain hlt | ⟨-, htag⟩ := hab
  · exact absurd hlt (h.not_lt.mpr (h.equal_symm heq).le)
  · have := a.type.toNat_le_one
    unfold InternalKey.tag at htag
    omega

/-- Where a lookup starts: at the entries of the key that are visible at the sequence number, and before
all larger user keys. -/
theorem Comparator.lookupKey_keyLe_iff {q : Slice} {s : ℕ} (hs : s ≤ kMaxSequenceNumber) :
    c.KeyLe (lookupKey q s) b ↔
      c.Lt q b.userKey ∨ (c.Equal q b.userKey ∧ b.sequence ≤ s) := by
  have htype := b.type.toNat_le_one
  have htag : (lookupKey q s).tag = s * 256 + 1 := by
    show (InternalKey.pack q s kValueTypeForSeek).sequence * 256 + 1 = s * 256 + 1
    rw [InternalKey.pack_sequence hs]
  unfold Comparator.KeyLe
  rw [lookupKey_userKey, htag]
  unfold InternalKey.tag
  constructor
  · rintro (hlt | ⟨heq, hle⟩)
    · exact Or.inl hlt
    · exact Or.inr ⟨heq, by omega⟩
  · rintro (hlt | ⟨heq, hle⟩)
    · exact Or.inl hlt
    · exact Or.inr ⟨heq, by omega⟩

end Keys

/-! ## The functions -/

variable {V : Type}

/-- `Seek` of a memtable or table iterator. -/
def seekBy (c : Comparator) (es : List (Entry Slice V)) (target : InternalKey Slice) :
    Option (Entry Slice V) :=
  es.find? fun e => decide (c.KeyLe target e.key)

/-- `MemTable::Get` -/
def memTableGetBy (c : Comparator) (mem : List (Entry Slice V)) (lkey : InternalKey Slice) :
    Option (Option V) :=
  match seekBy c mem lkey with
  | none => none
  | some e => if c.Equal e.key.userKey lkey.userKey then some e.result else none

/-- `FindFile` -/
def findFileBy (c : Comparator) (files : List (FileMetaData Slice)) (key : InternalKey Slice) : ℕ :=
  Lib.bisect (fun i => files[i]?.any fun f => decide (c.KeyLt f.largest key)) files.length 0
    files.length

/-- The files of a level that `Version::Get` searches. -/
def Version.filesToSearchBy (c : Comparator) (v : Version Slice) (ikey : InternalKey Slice)
    (level : ℕ) : List (FileMetaData Slice) :=
  if level = 0 then
    -- Find all files that overlap the user key and process them in order from newest to oldest.
    ((v.files 0).filter fun f =>
      decide (¬c.Lt ikey.userKey f.smallest.userKey ∧ c.Le ikey.userKey f.largest.userKey)).insertionSort
        fun f g => g.number ≤ f.number
  else
    match (v.files level)[findFileBy c (v.files level) ikey]? with
    | none => []
    | some f => if c.Lt ikey.userKey f.smallest.userKey then [] else [f]

/-- `Version::Get`, without its statistics. `GetValue` compares the bytes of the user keys. -/
def Version.getBy (c : Comparator) (v : Version Slice) (tables : Tables Slice V)
    (ikey : InternalKey Slice) : Option (Option V) :=
  ((List.range kNumLevels).flatMap (v.filesToSearchBy c ikey)).findSome? fun f =>
    getValue ikey.userKey (seekBy c (tables f.number) ikey)

/-- What `DBImpl::Get` reads. -/
structure Stores (V : Type) where
  /-- `mem_` -/
  mem : List (Entry Slice V)
  /-- `imm_` -/
  imm : Option (List (Entry Slice V))
  /-- `versions_->current()` -/
  current : Version Slice
  /-- The table files. -/
  tables : Tables Slice V

/-- `DBImpl::Get` at a sequence number. -/
def Stores.get (c : Comparator) (db : Stores V) (key : Slice) (snapshot : ℕ) : Option V :=
  let lkey := lookupKey key snapshot
  -- First look in the memtable, then in the immutable memtable (if any).
  match memTableGetBy c db.mem lkey with
  | some r => r
  | none =>
    match db.imm.bind fun imm => memTableGetBy c imm lkey with
    | some r => r
    | none => (db.current.getBy c db.tables lkey).getD none

/-! ## Well-formed databases -/

/-- Where an entry is. -/
inductive Place where
  /-- In the memtable. -/
  | mem
  /-- In the immutable memtable. -/
  | imm
  /-- In a table of a level. -/
  | table (level : Fin kNumLevels)

/-- An entry is at a place. -/
def Stores.At (db : Stores V) (e : Entry Slice V) : Place → Prop
  | .mem => e ∈ db.mem
  | .imm => ∃ imm, db.imm = some imm ∧ e ∈ imm
  | .table level => ∃ f ∈ db.current.files level, e ∈ db.tables f.number

/-- What is searched first. -/
def Place.rank : Place → ℕ
  | .mem => 0
  | .imm => 1
  | .table level => level + 2

/-- The file has the range of its table. -/
structure FileMetaData.HoldsBy (c : Comparator) (f : FileMetaData Slice) (es : List (Entry Slice V)) :
    Prop where
  /-- The table is sorted. -/
  sorted : es.Pairwise fun a b => c.KeyLt a.key b.key
  /-- The smallest key. -/
  smallest_le : ∀ e ∈ es, c.KeyLe f.smallest e.key
  /-- The largest key. -/
  le_largest : ∀ e ∈ es, c.KeyLe e.key f.largest
  /-- It is the key of an entry. -/
  exists_largest : ∃ e ∈ es, e.key = f.largest

/-- A database as the code keeps it. -/
structure Stores.WellFormed (c : Comparator) (db : Stores V) : Prop where
  /-- The memtable is sorted. -/
  mem_sorted : db.mem.Pairwise fun a b => c.KeyLt a.key b.key
  /-- The immutable memtable is sorted. -/
  imm_sorted : ∀ imm, db.imm = some imm → imm.Pairwise fun a b => c.KeyLt a.key b.key
  /-- Files have the ranges of their tables. -/
  holds : ∀ level : Fin kNumLevels, ∀ f ∈ db.current.files level, f.HoldsBy c (db.tables f.number)
  /-- Deeper levels are disjoint. -/
  disjoint : ∀ level : Fin kNumLevels, level.val ≠ 0 →
    (db.current.files level).Pairwise fun f g => c.KeyLt f.largest g.smallest
  /-- The files of level 0 have different numbers. -/
  numbers : (db.current.files 0).Pairwise fun f g => f.number ≠ g.number
  /-- Sequence numbers tell the entries of a user key apart. -/
  distinct : ∀ {a b p p'}, db.At a p → db.At b p' → c.Equal a.key.userKey b.key.userKey →
    a.key.sequence = b.key.sequence → a = b
  /-- What is searched first is newer. -/
  newer : ∀ {a b p p'}, db.At a p → db.At b p' → p.rank < p'.rank →
    c.Equal a.key.userKey b.key.userKey → b.key.sequence < a.key.sequence
  /-- At level 0 larger numbers are newer. -/
  level0_newer : ∀ f ∈ db.current.files 0, ∀ g ∈ db.current.files 0, g.number < f.number →
    ∀ a ∈ db.tables f.number, ∀ b ∈ db.tables g.number, c.Equal a.key.userKey b.key.userKey →
      b.key.sequence < a.key.sequence

/-- The newest visible entry of the keys that are equal to a key. -/
structure Stores.Newest (c : Comparator) (db : Stores V) (q : Slice) (s : ℕ) (e : Entry Slice V) :
    Prop where
  /-- It is stored. -/
  stored : ∃ p, db.At e p
  /-- Its key is equal. -/
  equal : c.Equal e.key.userKey q
  /-- It is visible. -/
  visible : e.key.sequence ≤ s
  /-- It is the newest. -/
  newest : ∀ {a p}, db.At a p → c.Equal a.key.userKey q → a.key.sequence ≤ s →
    a.key.sequence ≤ e.key.sequence

/-! ## Searching -/

section Search

variable {c : Comparator} {q : Slice} {s : ℕ}

/-- The entry at which a lookup stands. -/
theorem seekBy_eq_some {es : List (Entry Slice V)} {target : InternalKey Slice} {a : Entry Slice V}
    (h : seekBy c es target = some a) : a ∈ es ∧ c.KeyLe target a.key := by
  have hfound := List.find?_some h
  exact ⟨List.mem_of_find?_eq_some h, of_decide_eq_true hfound⟩

/-- A lookup stands at an entry of the key that is visible, if it is equal to the key. -/
theorem seekBy_visible (hc : c.TotalPreorder) (hs : s ≤ kMaxSequenceNumber)
    {es : List (Entry Slice V)} {a : Entry Slice V} (h : seekBy c es (lookupKey q s) = some a)
    (hequal : c.Equal a.key.userKey q) : a ∈ es ∧ a.key.sequence ≤ s := by
  obtain ⟨hmem, hle⟩ := seekBy_eq_some h
  refine ⟨hmem, ?_⟩
  obtain hlt | ⟨-, hvisible⟩ := (Comparator.lookupKey_keyLe_iff hs).mp hle
  · exact absurd hlt (hc.not_lt.mpr hequal.le)
  · exact hvisible

/-- A lookup in a sorted run stands at an entry of the key that is not older than any visible one. -/
theorem seekBy_of_mem (hc : c.TotalPreorder) (hs : s ≤ kMaxSequenceNumber)
    {es : List (Entry Slice V)} (hsorted : es.Pairwise fun a b => c.KeyLt a.key b.key)
    {e : Entry Slice V} (he : e ∈ es) (hequal : c.Equal e.key.userKey q)
    (hvisible : e.key.sequence ≤ s) :
    ∃ a, seekBy c es (lookupKey q s) = some a ∧ c.Equal a.key.userKey q ∧
      e.key.sequence ≤ a.key.sequence := by
  have hstart : c.KeyLe (lookupKey q s) e.key :=
    (Comparator.lookupKey_keyLe_iff hs).mpr (Or.inr ⟨hc.equal_symm hequal, hvisible⟩)
  have hsome : (seekBy c es (lookupKey q s)).isSome := by
    rw [seekBy, List.find?_isSome]
    exact ⟨e, he, decide_eq_true hstart⟩
  obtain ⟨a, ha⟩ := Option.isSome_iff_exists.mp hsome
  refine ⟨a, ha, ?_⟩
  obtain ⟨hge, l₁, l₂, rfl, hl₁⟩ := List.find?_eq_some_iff_append.mp ha
  have hle : c.KeyLe a.key e.key := by
    obtain hmem | hmem := List.mem_append.mp he
    · -- Entries before the one found are not visible.
      have hnot := hl₁ e hmem
      rw [decide_eq_true hstart] at hnot
      exact absurd hnot (by decide)
    · obtain rfl | hmem := List.mem_cons.mp hmem
      · exact Or.inr ⟨hc.refl _, le_rfl⟩
      · exact ((List.pairwise_cons.mp (List.pairwise_append.mp hsorted).2.1).1 e hmem).le
  have hqa : c.Le q a.key.userKey := by
    have huser := (of_decide_eq_true hge : c.KeyLe (lookupKey q s) a.key).userKey_le
    rw [lookupKey_userKey] at huser
    exact huser
  have haq : c.Le a.key.userKey q := hc.trans hle.userKey_le hequal.le
  have haequal : c.Equal a.key.userKey q := by
    obtain hlt | heq := Comparator.le_iff_lt_or_equal.mp haq
    · exact absurd hlt (hc.not_lt.mpr hqa)
    · exact heq
  have hae : c.Equal a.key.userKey e.key.userKey := by
    obtain hlt | heq := Comparator.le_iff_lt_or_equal.mp hle.userKey_le
    · exact absurd (hc.lt_of_lt_of_le hlt hequal.le) (hc.not_lt.mpr hqa)
    · exact heq
  exact ⟨haequal, hc.sequence_le hle hae⟩

/-- A memtable or a table that `DBImpl::Get` searches. -/
structure Source (V : Type) where
  /-- The entries. -/
  run : List (Entry Slice V)
  /-- Whether it compares the bytes of user keys. -/
  byBytes : Bool

/-- What a source says about a user key. -/
def Source.answer (c : Comparator) (lkey : InternalKey Slice) (src : Source V) : Option (Option V) :=
  if src.byBytes then getValue lkey.userKey (seekBy c src.run lkey)
  else memTableGetBy c src.run lkey

/-- The sources that `DBImpl::Get` searches, in their order. -/
def Stores.sources (c : Comparator) (db : Stores V) (lkey : InternalKey Slice) : List (Source V) :=
  ⟨db.mem, false⟩ :: (db.imm.toList.map fun imm => ⟨imm, false⟩) ++
    ((List.range kNumLevels).flatMap (db.current.filesToSearchBy c lkey)).map
      fun f => ⟨db.tables f.number, true⟩

/-- A memtable answers a lookup as `MemTable::Get` does on its entries. -/
theorem Source.answer_memTable (c : Comparator) (lkey : InternalKey Slice)
    (run : List (Entry Slice V)) : (⟨run, false⟩ : Source V).answer c lkey = memTableGetBy c run lkey :=
  rfl

/-- `DBImpl::Get` stops at the first source that answers. -/
theorem Stores.get_eq_findSome (db : Stores V) : db.get c q s =
    ((db.sources c (lookupKey q s)).findSome? (Source.answer c (lookupKey q s))).getD none := by
  have htables : db.current.getBy c db.tables (lookupKey q s) =
      (((List.range kNumLevels).flatMap (db.current.filesToSearchBy c (lookupKey q s))).map
        fun f => (⟨db.tables f.number, true⟩ : Source V)).findSome?
          (Source.answer c (lookupKey q s)) := by
    rw [List.findSome?_map]
    rfl
  unfold Stores.get Stores.sources
  dsimp only
  rw [htables, List.cons_append, List.findSome?_cons, List.findSome?_append, Source.answer_memTable]
  cases memTableGetBy c db.mem (lookupKey q s) with
  | some r => rfl
  | none =>
    cases db.imm with
    | none => rfl
    | some imm =>
      rw [Option.toList_some, List.map_singleton, List.findSome?_singleton, Source.answer_memTable,
        Option.bind_some]
      cases memTableGetBy c imm (lookupKey q s) <;> rfl

/-- What a source that answers has found. -/
theorem Source.answer_eq_some (hc : c.TotalPreorder) {src : Source V} {r : Option V}
    (h : src.answer c (lookupKey q s) = some r) :
    ∃ a, seekBy c src.run (lookupKey q s) = some a ∧ c.Equal a.key.userKey q ∧ a.result = r := by
  unfold Source.answer at h
  cases hseek : seekBy c src.run (lookupKey q s) with
  | none =>
    split_ifs at h with hbytes
    · rw [hseek] at h
      exact absurd h.symm (Option.some_ne_none r)
    · rw [memTableGetBy, hseek] at h
      exact absurd h.symm (Option.some_ne_none r)
  | some a =>
    refine ⟨a, rfl, ?_⟩
    split_ifs at h with hbytes
    · rw [hseek, getValue, lookupKey_userKey] at h
      split_ifs at h with heq
      exact ⟨by rw [heq]; exact hc.refl q, Option.some.inj h⟩
    · rw [memTableGetBy, hseek] at h
      dsimp only at h
      split_ifs at h with heq
      exact ⟨heq, Option.some.inj h⟩

/-- A source that stands at an entry of the key answers, if it compares the keys right. -/
theorem Source.answer_of_seek {src : Source V} {a : Entry Slice V}
    (hseek : seekBy c src.run (lookupKey q s) = some a) (hequal : c.Equal a.key.userKey q)
    (hbytes : src.byBytes = true → a.key.userKey = q) :
    src.answer c (lookupKey q s) = some a.result := by
  unfold Source.answer
  split_ifs with h
  · rw [hseek, getValue, lookupKey_userKey, if_pos (hbytes h)]
  · rw [memTableGetBy, hseek]
    exact if_pos hequal

/-- Sources that are ordered by recency answer with the newest entry, if the one that holds it compares
the keys right. -/
theorem findSome_sources (hc : c.TotalPreorder) (hs : s ≤ kMaxSequenceNumber) {e : Entry Slice V}
    (hequal : c.Equal e.key.userKey q) (hvisible : e.key.sequence ≤ s) (sources : List (Source V))
    (hsorted : ∀ src ∈ sources, src.run.Pairwise fun a b => c.KeyLt a.key b.key)
    (hnewest : ∀ src ∈ sources, ∀ a ∈ src.run, c.Equal a.key.userKey q → a.key.sequence ≤ s →
      a.key.sequence ≤ e.key.sequence)
    (hdistinct : ∀ src ∈ sources, ∀ a ∈ src.run, c.Equal a.key.userKey q →
      a.key.sequence = e.key.sequence → a = e)
    (hrecent : sources.Pairwise fun x y => ∀ a ∈ x.run, ∀ b ∈ y.run,
      c.Equal a.key.userKey b.key.userKey → b.key.sequence < a.key.sequence)
    (hholds : ∃ src ∈ sources, e ∈ src.run ∧ (src.byBytes = true → e.key.userKey = q)) :
    sources.findSome? (Source.answer c (lookupKey q s)) = some e.result := by
  induction sources with
  | nil =>
    obtain ⟨src, hsrc, -⟩ := hholds
    exact absurd hsrc List.not_mem_nil
  | cons src sources ih =>
    obtain ⟨holder, hmem, he, hbytes⟩ := hholds
    obtain ⟨hhead, htail⟩ := List.pairwise_cons.mp hrecent
    rw [List.findSome?_cons]
    obtain rfl | hmem := List.mem_cons.mp hmem
    · -- The source that holds the entry stands at it.
      obtain ⟨a, hseek, haequal, hle⟩ := seekBy_of_mem hc hs (hsorted holder List.mem_cons_self) he
        hequal hvisible
      obtain ⟨hamem, havisible⟩ := seekBy_visible hc hs hseek haequal
      have hge := hnewest holder List.mem_cons_self a hamem haequal havisible
      have heq := hdistinct holder List.mem_cons_self a hamem haequal (by omega)
      rw [heq] at hseek
      rw [Source.answer_of_seek hseek hequal hbytes]
    · cases hanswer : src.answer c (lookupKey q s) with
      | some r =>
        -- It would have found a newer entry.
        obtain ⟨a, hseek, haequal, -⟩ := Source.answer_eq_some hc hanswer
        obtain ⟨hamem, havisible⟩ := seekBy_visible hc hs hseek haequal
        have hge := hnewest src List.mem_cons_self a hamem haequal havisible
        have hae : c.Equal a.key.userKey e.key.userKey := by
          obtain hlt | heq | hgt := hc.lt_or_equal_or_gt a.key.userKey e.key.userKey
          · exact absurd (hc.lt_of_lt_of_le hlt hequal.le)
              (hc.not_lt.mpr (hc.equal_symm haequal).le)
          · exact heq
          · exact absurd (hc.lt_of_lt_of_le hgt haequal.le)
              (hc.not_lt.mpr (hc.equal_symm hequal).le)
        have hlt := hhead holder hmem a hamem e he hae
        omega
      | none =>
        exact ih (fun x hx => hsorted x (List.mem_cons_of_mem src hx))
          (fun x hx => hnewest x (List.mem_cons_of_mem src hx))
          (fun x hx => hdistinct x (List.mem_cons_of_mem src hx)) htail ⟨holder, hmem, he, hbytes⟩

end Search

/-! ## The sources of a well-formed database -/

section Sources

variable {c : Comparator} {q : Slice} {s : ℕ} {db : Stores V}

/-- The files that are searched are files of the level. -/
theorem Version.mem_of_mem_filesToSearchBy {v : Version Slice} {ikey : InternalKey Slice} {level : ℕ}
    {f : FileMetaData Slice} (h : f ∈ v.filesToSearchBy c ikey level) : f ∈ v.files level := by
  unfold Version.filesToSearchBy at h
  split_ifs at h with hlevel
  · rw [List.mem_insertionSort] at h
    rw [hlevel]
    exact List.mem_of_mem_filter h
  · split at h
    · exact absurd h List.not_mem_nil
    · rename_i g hg
      split_ifs at h
      · exact absurd h List.not_mem_nil
      · rw [List.mem_singleton.mp h]
        exact List.mem_of_getElem? hg

/-- At level 0 the newest files are searched first. -/
theorem Stores.WellFormed.level0_sorted (hwf : db.WellFormed c) (ikey : InternalKey Slice) :
    (db.current.filesToSearchBy c ikey 0).Pairwise fun f g => g.number < f.number := by
  unfold Version.filesToSearchBy
  rw [if_pos rfl]
  exact Lib.pairwise_insertionSort_gt (hwf.numbers.sublist List.filter_sublist)

/-- The files that are searched, by recency. -/
theorem Stores.WellFormed.files_recent (hwf : db.WellFormed c) (ikey : InternalKey Slice) :
    ((List.range kNumLevels).flatMap (db.current.filesToSearchBy c ikey)).Pairwise fun f g =>
      ∀ a ∈ db.tables f.number, ∀ b ∈ db.tables g.number,
        c.Equal a.key.userKey b.key.userKey → b.key.sequence < a.key.sequence := by
  rw [List.pairwise_flatMap]
  constructor
  · intro level hlevel
    by_cases hzero : level = 0
    · subst hzero
      refine (hwf.level0_sorted ikey).imp_of_mem fun {f g} hf hg hlt => ?_
      exact hwf.level0_newer f (Version.mem_of_mem_filesToSearchBy hf) g
        (Version.mem_of_mem_filesToSearchBy hg) hlt
    · -- At most one file is searched.
      unfold Version.filesToSearchBy
      rw [if_neg hzero]
      split
      · exact List.Pairwise.nil
      · split_ifs
        · exact List.Pairwise.nil
        · exact List.pairwise_singleton _ _
  · refine List.pairwise_lt_range.imp_of_mem fun {i j} hi hj hlt f hf g hg a ha b hb => ?_
    have hfirst : db.At a (.table ⟨i, List.mem_range.mp hi⟩) :=
      ⟨f, Version.mem_of_mem_filesToSearchBy hf, ha⟩
    have hsecond : db.At b (.table ⟨j, List.mem_range.mp hj⟩) :=
      ⟨g, Version.mem_of_mem_filesToSearchBy hg, hb⟩
    exact hwf.newer hfirst hsecond (Nat.add_lt_add_right hlt 2)

/-- What a source holds is stored. -/
theorem Stores.at_of_mem_sources {lkey : InternalKey Slice} {src : Source V}
    (h : src ∈ db.sources c lkey) {a : Entry Slice V} (ha : a ∈ src.run) : ∃ p, db.At a p := by
  unfold Stores.sources at h
  rw [List.cons_append, List.mem_cons, List.mem_append, List.mem_map, List.mem_map] at h
  obtain rfl | ⟨imm, himm, rfl⟩ | ⟨f, hf, rfl⟩ := h
  · exact ⟨.mem, ha⟩
  · exact ⟨.imm, imm, Option.mem_toList.mp himm, ha⟩
  · obtain ⟨level, hlevel, hf⟩ := List.mem_flatMap.mp hf
    exact ⟨.table ⟨level, List.mem_range.mp hlevel⟩, f, Version.mem_of_mem_filesToSearchBy hf, ha⟩

/-- In a well-formed database every source that `Get` searches is strictly sorted by internal key. -/
theorem Stores.WellFormed.sources_sorted (hwf : db.WellFormed c) {lkey : InternalKey Slice}
    {src : Source V} (h : src ∈ db.sources c lkey) :
    src.run.Pairwise fun a b => c.KeyLt a.key b.key := by
  unfold Stores.sources at h
  rw [List.cons_append, List.mem_cons, List.mem_append, List.mem_map, List.mem_map] at h
  obtain rfl | ⟨imm, himm, rfl⟩ | ⟨f, hf, rfl⟩ := h
  · exact hwf.mem_sorted
  · exact hwf.imm_sorted imm (Option.mem_toList.mp himm)
  · obtain ⟨level, hlevel, hf⟩ := List.mem_flatMap.mp hf
    exact (hwf.holds ⟨level, List.mem_range.mp hlevel⟩ f
      (Version.mem_of_mem_filesToSearchBy hf)).sorted

/-- What `Get` searches first has the newer versions of every user key. -/
theorem Stores.WellFormed.sources_recent (hwf : db.WellFormed c) (lkey : InternalKey Slice) :
    (db.sources c lkey).Pairwise fun x y => ∀ a ∈ x.run, ∀ b ∈ y.run,
      c.Equal a.key.userKey b.key.userKey → b.key.sequence < a.key.sequence := by
  unfold Stores.sources
  rw [List.cons_append, List.pairwise_cons, List.pairwise_append, List.pairwise_map,
    List.pairwise_map]
  refine ⟨?_, ?_, hwf.files_recent lkey, ?_⟩
  · intro src hsrc a ha b hb
    have hmem : db.At a .mem := ha
    rw [List.mem_append, List.mem_map, List.mem_map] at hsrc
    obtain ⟨imm, himm, rfl⟩ | ⟨f, hf, rfl⟩ := hsrc
    · have himm' : db.At b .imm := ⟨imm, Option.mem_toList.mp himm, hb⟩
      exact hwf.newer hmem himm' Nat.zero_lt_one
    · obtain ⟨level, hlevel, hf⟩ := List.mem_flatMap.mp hf
      have htable : db.At b (.table ⟨level, List.mem_range.mp hlevel⟩) :=
        ⟨f, Version.mem_of_mem_filesToSearchBy hf, hb⟩
      exact hwf.newer hmem htable (Nat.zero_lt_succ _)
  · cases db.imm with
    | none => exact List.Pairwise.nil
    | some imm => exact List.pairwise_singleton _ _
  · intro x hx y hy a ha b hb
    obtain ⟨imm, himm, rfl⟩ := List.mem_map.mp hx
    obtain ⟨f, hf, rfl⟩ := List.mem_map.mp hy
    obtain ⟨level, hlevel, hf⟩ := List.mem_flatMap.mp hf
    have himm' : db.At a .imm := ⟨imm, Option.mem_toList.mp himm, ha⟩
    have htable : db.At b (.table ⟨level, List.mem_range.mp hlevel⟩) :=
      ⟨f, Version.mem_of_mem_filesToSearchBy hf, hb⟩
    exact hwf.newer himm' htable (Nat.succ_lt_succ (Nat.zero_lt_succ _))

/-- `FindFile` on a disjoint level finds the first file whose largest key is not less than the key. -/
theorem findFileBy_spec (hc : c.TotalPreorder) {files : List (FileMetaData Slice)}
    (hranged : ∀ f ∈ files, c.KeyLe f.smallest f.largest)
    (hdisjoint : files.Pairwise fun f g => c.KeyLt f.largest g.smallest) {key : InternalKey Slice}
    {i : ℕ} {f : FileMetaData Slice} (h : files[i]? = some f) :
    i < findFileBy c files key ↔ c.KeyLt f.largest key := by
  have hmono : files.Pairwise fun f g =>
      decide (c.KeyLt g.largest key) = true → decide (c.KeyLt f.largest key) = true := by
    refine hdisjoint.imp_of_mem fun {f g} hf hg hlt hbefore => decide_eq_true ?_
    have hle := hc.keyLt_of_lt_of_le hlt (hranged g hg)
    exact hc.keyLt_of_lt_of_le hle (of_decide_eq_true hbefore).le
  have htake : findFileBy c files key =
      (files.takeWhile fun f => decide (c.KeyLt f.largest key)).length :=
    Lib.bisect_eq_length_takeWhile hmono fun hget => by rw [hget, Option.any_some]
  rw [htake, Lib.lt_length_takeWhile_iff hmono h, decide_eq_true_eq]

/-- The ranges of the files of a level. -/
theorem Stores.WellFormed.ranged (hwf : db.WellFormed c) {level : Fin kNumLevels} :
    ∀ g ∈ db.current.files level, c.KeyLe g.smallest g.largest := by
  intro g hg
  obtain ⟨a, ha, hkey⟩ := (hwf.holds level g hg).exists_largest
  rw [← hkey]
  exact (hwf.holds level g hg).smallest_le a ha

/-- `FindFile` does not pass the file of the newest visible entry, and on a disjoint level the file
that it finds has that entry. -/
theorem Stores.WellFormed.found_has_newest (hc : c.TotalPreorder) (hwf : db.WellFormed c)
    (hs : s ≤ kMaxSequenceNumber) {e : Entry Slice V} (h : db.Newest c q s e)
    {level : Fin kNumLevels} (hlevel : level.val ≠ 0) {f : FileMetaData Slice}
    (hf : f ∈ db.current.files level) (he : e ∈ db.tables f.number) :
    ∃ g, (db.current.files level)[findFileBy c (db.current.files level) (lookupKey q s)]? = some g ∧
      g ∈ db.current.files level ∧ e ∈ db.tables g.number := by
  have hspec := fun {i g} => @findFileBy_spec c hc _ hwf.ranged (hwf.disjoint level hlevel)
    (lookupKey q s) i g
  have hstart : c.KeyLe (lookupKey q s) e.key :=
    (Comparator.lookupKey_keyLe_iff hs).mpr (Or.inr ⟨hc.equal_symm h.equal, h.visible⟩)
  obtain ⟨i, hi, rfl⟩ := List.getElem_of_mem hf
  set n := findFileBy c (db.current.files level) (lookupKey q s) with hn
  have hlargest := (hwf.holds level _ hf).le_largest e he
  -- The file with the entry does not lie before the lookup key.
  have hle : n ≤ i := by
    by_contra hlt
    have hbefore := (hspec (List.getElem?_eq_getElem hi)).mp (Nat.lt_of_not_le hlt)
    exact hc.not_keyLe.mpr hbefore (hc.keyLe_trans hstart hlargest)
  have hlen : n < (db.current.files level).length := by omega
  have hget : (db.current.files level)[n]? = some (db.current.files level)[n] :=
    List.getElem?_eq_getElem hlen
  have hgmem : (db.current.files level)[n] ∈ db.current.files level := List.getElem_mem hlen
  refine ⟨_, hget, hgmem, ?_⟩
  obtain heq | hlt := Nat.eq_or_lt_of_le hle
  · have hsame : (db.current.files level)[i] = (db.current.files level)[n] := by
      simp only [heq]
    rw [← hsame]
    exact he
  · -- If it comes behind the one that is found, the last entry of that one is as new.
    obtain ⟨b, hb, hkey⟩ := (hwf.holds level _ hgmem).exists_largest
    have hend : c.KeyLe (lookupKey q s) b.key := by
      rw [hkey]
      by_contra hbefore
      have := (hspec hget).mpr (hc.not_keyLe.mp hbefore)
      omega
    have hbe : c.KeyLt b.key e.key := by
      have hpair := List.pairwise_iff_getElem.mp (hwf.disjoint level hlevel) n i hlen hi hlt
      rw [hkey]
      exact hc.keyLt_of_lt_of_le hpair ((hwf.holds level _ hf).smallest_le e he)
    have hbq : c.Le b.key.userKey q := hc.trans hbe.le.userKey_le h.equal.le
    obtain hqb | ⟨hqb, hvisible⟩ := (Comparator.lookupKey_keyLe_iff hs).mp hend
    · exact absurd hqb (hc.not_lt.mpr hbq)
    · have hbat : db.At b (.table level) := ⟨_, hgmem, hb⟩
      have heat : db.At e (.table level) := ⟨_, hf, he⟩
      have hbequal : c.Equal b.key.userKey e.key.userKey := by
        obtain hlt | heq := Comparator.le_iff_lt_or_equal.mp hbe.le.userKey_le
        · exact absurd (hc.lt_of_lt_of_le hlt h.equal.le) (hc.not_lt.mpr hqb.le)
        · exact heq
      have hnew := h.newest hbat (hc.equal_symm hqb) hvisible
      have hold := hc.sequence_le hbe.le hbequal
      rw [hwf.distinct hbat heat hbequal (by omega)] at hb
      exact hb

/-- The newest visible entry is in a table that is searched. -/
theorem Stores.WellFormed.table_searched (hc : c.TotalPreorder) (hwf : db.WellFormed c)
    (hs : s ≤ kMaxSequenceNumber) {e : Entry Slice V} (h : db.Newest c q s e)
    {level : Fin kNumLevels} (hat : db.At e (.table level)) :
    ∃ f ∈ db.current.filesToSearchBy c (lookupKey q s) level, e ∈ db.tables f.number := by
  obtain ⟨f, hf, he⟩ := hat
  have hsmall : ∀ {g : FileMetaData Slice}, c.KeyLe g.smallest e.key →
      ¬c.Lt q g.smallest.userKey := fun hle =>
    hc.not_lt.mpr (hc.trans hle.userKey_le h.equal.le)
  by_cases hzero : level.val = 0
  · refine ⟨f, ?_, he⟩
    rw [hzero] at hf ⊢
    have hholds := hwf.holds ⟨0, by decide⟩ f hf
    unfold Version.filesToSearchBy
    rw [if_pos rfl, List.mem_insertionSort]
    refine List.mem_filter.mpr ⟨hf, decide_eq_true ⟨?_, ?_⟩⟩
    · rw [lookupKey_userKey]
      exact hsmall (hholds.smallest_le e he)
    · rw [lookupKey_userKey]
      exact hc.trans (hc.equal_symm h.equal).le (hholds.le_largest e he).userKey_le
  · obtain ⟨g, hget, hgmem, heg⟩ := hwf.found_has_newest hc hs h hzero hf he
    refine ⟨g, ?_, heg⟩
    unfold Version.filesToSearchBy
    rw [if_neg hzero, hget]
    show g ∈ if c.Lt (lookupKey q s).userKey g.smallest.userKey then [] else [g]
    rw [lookupKey_userKey, if_neg (hsmall ((hwf.holds level g hgmem).smallest_le e heg))]
    exact List.mem_singleton_self g

end Sources

/-! ## Where an entry lives -/

/-- `DBImpl::Get` for a key finds the newest visible entry, whenever this is at a place and has a user
key that is equal to the key. -/
def FindsAt (c : Comparator) (V : Type) (place : Place) (userKey key : Slice) : Prop :=
  ∀ (db : Stores V) (s : ℕ) (e : Entry Slice V), db.WellFormed c → s ≤ kMaxSequenceNumber →
    db.Newest c key s e → db.At e place → e.key.userKey = userKey → db.get c key s = e.result

/-- The place is a memtable. -/
def Place.InMemory : Place → Prop
  | .mem => True
  | .imm => True
  | .table _ => False

section Place

variable {c : Comparator} {userKey key : Slice}

/-- Entries in memory are found, and so are those whose user key is the key. -/
theorem findsAt_of (hc : c.TotalPreorder) {place : Place} (h : place.InMemory ∨ userKey = key) :
    FindsAt c V place userKey key := by
  intro db s e hwf hs hnewest hat heq
  have hholds : ∃ src ∈ db.sources c (lookupKey key s), e ∈ src.run ∧
      (src.byBytes = true → e.key.userKey = key) := by
    unfold Stores.sources
    cases place with
    | mem => exact ⟨⟨db.mem, false⟩, List.mem_cons_self, hat, fun hfalse => absurd hfalse Bool.false_ne_true⟩
    | imm =>
      obtain ⟨imm, himm, he⟩ := hat
      refine ⟨⟨imm, false⟩, ?_, he, fun hfalse => absurd hfalse Bool.false_ne_true⟩
      rw [himm]
      exact List.mem_cons_of_mem _ (List.mem_append_left _ List.mem_cons_self)
    -- A table is searched with the bytes of the key, so the user keys have to be the same.
    | table level =>
      obtain ⟨f, hf, he⟩ := hwf.table_searched hc hs hnewest hat
      refine ⟨⟨db.tables f.number, true⟩, ?_, he, fun _ => ?_⟩
      · refine List.mem_cons_of_mem _ (List.mem_append_right _ (List.mem_map.mpr ⟨f, ?_, rfl⟩))
        exact List.mem_flatMap.mpr ⟨level, List.mem_range.mpr level.isLt, hf⟩
      · rw [heq]
        exact h.resolve_left id
  rw [Stores.get_eq_findSome, findSome_sources hc hs hnewest.equal hnewest.visible
    (db.sources c (lookupKey key s)) (fun src => hwf.sources_sorted) ?_ ?_ (hwf.sources_recent _) hholds]
  · rfl
  · intro src hsrc a ha haequal havisible
    obtain ⟨p, hp⟩ := Stores.at_of_mem_sources hsrc ha
    exact hnewest.newest hp haequal havisible
  · intro src hsrc a ha haequal hsequence
    obtain ⟨p, hp⟩ := Stores.at_of_mem_sources hsrc ha
    have hae : c.Equal a.key.userKey e.key.userKey := by
      obtain hlt | hequal := Comparator.le_iff_lt_or_equal.mp
        (hc.trans haequal.le (hc.equal_symm hnewest.equal).le)
      · exact absurd (hc.lt_of_lt_of_le hlt hnewest.equal.le)
          (hc.not_lt.mpr (hc.equal_symm haequal).le)
      · exact hequal
    exact hwf.distinct hp hat hae hsequence

/-- An entry with the sequence number 1. -/
def firstEntry (userKey value : Slice) : Entry Slice Slice := ⟨.pack userKey 1 .value, value⟩

/-- A database with one entry, which is in a table of a level. -/
def oneTable (level : Fin kNumLevels) (e : Entry Slice V) : Stores V where
  mem := []
  imm := none
  current := { files := fun i => if i = level.val then [⟨1, 0, e.key, e.key⟩] else [] }
  tables := fun _ => [e]

/-- The database with one table stores its one entry in it, and nothing else. -/
theorem oneTable_at {level : Fin kNumLevels} {e a : Entry Slice V} {p : Place} :
    (oneTable level e).At a p ↔ p = .table level ∧ a = e := by
  cases p with
  | mem =>
    constructor
    · intro h
      exact absurd h List.not_mem_nil
    · rintro ⟨h, -⟩
      exact Place.noConfusion h
  | imm =>
    constructor
    · rintro ⟨imm, himm, -⟩
      exact absurd himm.symm (Option.some_ne_none imm)
    · rintro ⟨h, -⟩
      exact Place.noConfusion h
  | table i =>
    constructor
    · rintro ⟨f, hf, ha⟩
      have hfile : f ∈ if i.val = level.val then [⟨1, 0, e.key, e.key⟩] else [] := hf
      split_ifs at hfile with heq
      · exact ⟨by rw [Fin.ext heq], List.mem_singleton.mp ha⟩
      · exact absurd hfile List.not_mem_nil
    · rintro ⟨h, rfl⟩
      obtain rfl := Place.table.inj h
      refine ⟨⟨1, 0, a.key, a.key⟩, ?_, List.mem_singleton_self a⟩
      show _ ∈ if i.val = i.val then _ else _
      rw [if_pos rfl]
      exact List.mem_singleton_self _

/-- The database with one entry in one table is well formed, at whichever level the table is. -/
theorem oneTable_wellFormed (hc : c.TotalPreorder) (level : Fin kNumLevels) (e : Entry Slice V) :
    (oneTable level e).WellFormed c := by
  have hfiles : ∀ i, (oneTable level e).current.files i =
      if i = level.val then [⟨1, 0, e.key, e.key⟩] else [] := fun i => rfl
  have hpairwise : ∀ i (R : FileMetaData Slice → FileMetaData Slice → Prop),
      ((oneTable level e).current.files i).Pairwise R := by
    intro i R
    rw [hfiles]
    split_ifs
    · exact List.pairwise_singleton _ _
    · exact List.Pairwise.nil
  have hnumber : ∀ i, ∀ f ∈ (oneTable level e).current.files i, f = ⟨1, 0, e.key, e.key⟩ := by
    intro i f hf
    rw [hfiles] at hf
    split_ifs at hf
    · exact List.mem_singleton.mp hf
    · exact absurd hf List.not_mem_nil
  have hrefl : c.KeyLe e.key e.key := Or.inr ⟨hc.refl _, le_rfl⟩
  -- Every part speaks of two files or two entries, and there is one of each.
  constructor
  · exact List.Pairwise.nil
  · intro imm himm
    exact absurd himm.symm (Option.some_ne_none imm)
  · intro i f hf
    rw [hnumber i f hf]
    refine ⟨List.pairwise_singleton _ _, ?_, ?_, e, List.mem_singleton_self e, rfl⟩
    · intro a ha
      rw [List.mem_singleton.mp ha]
      exact hrefl
    · intro a ha
      rw [List.mem_singleton.mp ha]
      exact hrefl
  · exact fun i _ => hpairwise i _
  · exact hpairwise 0 _
  · intro a b p p' ha hb _ _
    rw [(oneTable_at.mp ha).2, (oneTable_at.mp hb).2]
  · intro a b p p' ha hb hrank
    rw [(oneTable_at.mp ha).1, (oneTable_at.mp hb).1] at hrank
    exact absurd hrank (lt_irrefl _)
  · intro f hf g hg hlt
    rw [hnumber 0 f hf, hnumber 0 g hg] at hlt
    exact absurd hlt (lt_irrefl _)

/-- Its entry is the newest one of its keys. -/
theorem oneTable_newest (level : Fin kNumLevels) {e : Entry Slice V} {s : ℕ}
    (hequal : c.Equal e.key.userKey key) (hvisible : e.key.sequence ≤ s) :
    (oneTable level e).Newest c key s e where
  stored := ⟨.table level, oneTable_at.mpr ⟨rfl, rfl⟩⟩
  equal := hequal
  visible := hvisible
  newest := fun {a p} ha _ _ => by rw [(oneTable_at.mp ha).2]

/-- A key with other bytes is not found in it. -/
theorem oneTable_get (level : Fin kNumLevels) {e : Entry Slice V} (hne : e.key.userKey ≠ key) (s : ℕ) :
    (oneTable level e).get c key s = none := by
  have hnone : ((oneTable level e).sources c (lookupKey key s)).findSome?
      (Source.answer c (lookupKey key s)) = none := by
    rw [List.findSome?_eq_none_iff]
    intro src hsrc
    unfold Stores.sources at hsrc
    rw [List.cons_append, List.mem_cons, List.mem_append, List.mem_map, List.mem_map] at hsrc
    obtain rfl | ⟨imm, himm, rfl⟩ | ⟨f, -, rfl⟩ := hsrc
    · rfl
    · exact absurd himm List.not_mem_nil
    · show getValue key (seekBy c [e] (lookupKey key s)) = none
      cases hseek : seekBy c [e] (lookupKey key s) with
      | none => rfl
      | some a =>
        rw [List.mem_singleton.mp (seekBy_eq_some hseek).1, getValue, if_neg hne]
  rw [Stores.get_eq_findSome, hnone]
  rfl

/-- Where an entry is found: in memory always, in a table only under its own bytes. -/
theorem findsAt_iff (hc : c.TotalPreorder) (hequal : c.Equal userKey key) (place : Place) :
    FindsAt c Slice place userKey key ↔ place.InMemory ∨ userKey = key := by
  constructor
  · intro h
    by_contra hnot
    rw [not_or] at hnot
    cases place with
    | mem => exact hnot.1 trivial
    | imm => exact hnot.1 trivial
    | table level =>
      set e := firstEntry userKey []
      have hfound := h (oneTable level e) 1 e (oneTable_wellFormed hc level e) (by decide)
        (oneTable_newest level hequal le_rfl) (oneTable_at.mpr ⟨rfl, rfl⟩) rfl
      rw [oneTable_get level hnot.2] at hfound
      exact Option.some_ne_none _ hfound.symm
  · exact findsAt_of hc

end Place

/-- For every total preorder and every lookup key that is equal to a user key, `DBImpl::Get` finds the
newest visible entry with this user key wherever it lives exactly if the two are the same bytes. -/
theorem get_finds_everywhere_iff (c : Comparator) (hc : c.TotalPreorder) (userKey key : Slice)
    (hequal : c.Equal userKey key) :
    (∀ place, FindsAt c Slice place userKey key) ↔ userKey = key := by
  constructor
  · intro h
    exact ((findsAt_iff hc hequal _).mp (h (.table ⟨0, by decide⟩))).resolve_left id
  · intro heq place
    exact (findsAt_iff hc hequal place).mpr (Or.inr heq)

/-- With the bytewise comparator entries are found wherever they live. -/
theorem get_finds_everywhere_iff_example :
    bytewiseComparator.Equal (ascii "key") (ascii "key") ∧
      ∀ place, FindsAt bytewiseComparator Slice place (ascii "key") (ascii "key") :=
  ⟨bytewiseComparator_totalOrder.refl _,
    (get_finds_everywhere_iff bytewiseComparator bytewiseComparator_totalOrder.toTotalPreorder
      (ascii "key") (ascii "key") (bytewiseComparator_totalOrder.refl _)).mpr rfl⟩

/-- The lower case of an ASCII letter. -/
def lowerCase (b : UInt8) : UInt8 := if 65 ≤ b ∧ b ≤ 90 then b + 32 else b

/-- A comparator that ignores case. -/
def caseInsensitive : Comparator where
  compare a b := bytewiseCompare (a.map lowerCase) (b.map lowerCase)
  findShortestSeparator start _ := start
  findShortSuccessor key := key

/-- The comparator that ignores case is a total preorder on strings. -/
theorem caseInsensitive_totalPreorder : caseInsensitive.TotalPreorder where
  swap _ _ := bytewiseCompare_swap _ _
  trans := fun hab hbd => bytewiseCompare_trans hab hbd

/-- An entry is found under another spelling of its key while it is in the memtable, but not when it is
in a table. -/
theorem spelling_lost_after_flush :
    caseInsensitive.TotalPreorder ∧ caseInsensitive.Equal (ascii "KEY") (ascii "key") ∧
      (⟨[firstEntry (ascii "KEY") (ascii "v")], none, {}, fun _ => []⟩ : Stores Slice).get
        caseInsensitive (ascii "key") 1 = some (ascii "v") ∧
      (oneTable ⟨0, by decide⟩ (firstEntry (ascii "KEY") (ascii "v"))).get
        caseInsensitive (ascii "key") 1 = none ∧
      ¬FindsAt caseInsensitive Slice (.table ⟨0, by decide⟩) (ascii "KEY") (ascii "key") := by
  have hequal : caseInsensitive.Equal (ascii "KEY") (ascii "key") := by decide
  refine ⟨caseInsensitive_totalPreorder, hequal, by decide, by decide, fun h => ?_⟩
  obtain hmem | heq := (findsAt_iff caseInsensitive_totalPreorder hequal _).mp h
  · exact hmem
  · exact absurd heq (by decide)

end LevelDb
