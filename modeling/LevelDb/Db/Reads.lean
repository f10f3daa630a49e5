import LevelDb.Db.History
import LevelDb.Db.Layout
import LevelDb.Compaction.Recency

/-!
# A database reads its history

The entries that a database stores, in its memtables and tables, read like its history at every
sequence number from the oldest snapshot on, and `Get` finds them: memtables, levels and level-0 files
are in the order of recency. Both hold in every run in which no memtable is written below an older
entry of its keys and no compaction leaves an older entry of its keys behind.
-/

namespace LevelDb

open Lib

variable {K V : Type} [LinearOrder K]

/-! ## What a database stores -/

/-- The entries of a memtable that may be missing. -/
def immContents (imm : Option (List (Entry K V))) : Set (Entry K V) := {e | ∃ es ∈ imm, e ∈ es}

/-- The entries that a database stores. -/
def Db.stored (db : Db K V) : Set (Entry K V) :=
  contents db.mem ∪ (immContents db.imm ∪ db.versions.current.contents db.tables)

/-- What a compaction in flight needs at its end: the files that it did not take are those of its input
version or newer than its inputs, and it has taken what it has to. -/
structure CompactionState.Faithful (st : CompactionState K V) (db : Db K V) : Prop where
  /-- The input version. -/
  wf : st.compaction.inputVersion.WellFormed
  /-- Files that were added since are newer than the inputs. -/
  added : ∀ l, ∀ g ∈ db.versions.current.files l, g ∈ st.compaction.inputVersion.files l ∨
    ∀ f ∈ st.compaction.inputs0 ++ st.compaction.inputs1, ∀ e ∈ db.tables f.number,
      ∀ e' ∈ db.tables g.number, e.key.sequence < e'.key.sequence
  /-- Older entries are taken. -/
  older : st.compaction.TakesOlder db.versions.current db.tables
  /-- What deletion markers hide is taken. -/
  deleted : st.compaction.TakesDeleted db.versions.current db.tables st.smallestSnapshot
  /-- No reader is below `smallest_snapshot`. -/
  snapshot_le : st.smallestSnapshot ≤ db.smallestSnapshot

section Defs

variable [Inhabited V]

/-- A database reads its history. -/
structure Db.ReadsHistory (db : Db K V) (history : List (Update K V)) : Prop where
  /-- The current version is in the order of recency. -/
  recency : db.versions.current.ByRecency db.tables
  /-- Every update has a sequence number. -/
  sequence : db.versions.lastSequence = history.length
  /-- Sequence numbers fit. -/
  sequence_lt : db.versions.lastSequence < kMaxSequenceNumber
  /-- Snapshots come in the order in which they were taken. -/
  sorted : db.snapshots.Pairwise (· ≤ ·)
  /-- Snapshots are of the past. -/
  snapshots_le : ∀ s ∈ db.snapshots, s ≤ db.versions.lastSequence
  /-- What is stored reads like the history. -/
  reads : ∀ k s r, db.smallestSnapshot ≤ s →
    (Reads db.stored k s r ↔ Reads (contents (historyEntries history)) k s r)
  /-- The compaction in flight. -/
  compacting : ∀ st, db.compacting = some st → st.Faithful db

end Defs

/-! ## Where sequence numbers are -/

section Inv

variable [Inhabited V] {o : DbOptions K V} {db : Db K V} {m : Marks}

/-- The entries of the memtable are newer than the last memtable switch and not newer than the last
write. -/
theorem Db.Inv.mem_range (h : db.Inv o m) {e : Entry K V} (he : e ∈ db.mem) :
    m.switched < e.key.sequence ∧ e.key.sequence ≤ db.versions.lastSequence := by
  rw [h.mem, mem_memTableOf] at he
  exact h.log.sequence_range h.sequence_le he

/-- The entries of the memtable that is being compacted. -/
theorem Db.Inv.imm_range (h : db.Inv o m) {e : Entry K V} (he : e ∈ immContents db.imm) :
    m.flushed < e.key.sequence ∧ e.key.sequence ≤ m.switched := by
  obtain ⟨imm, himm, he⟩ := he
  have hlogged := h.imm
  unfold Db.ImmLogged at hlogged
  rw [show db.imm = some imm from himm] at hlogged
  obtain ⟨number, bs, -, rfl, hbs, -⟩ := hlogged
  exact hbs.sequence_range (h.log.le.trans h.sequence_le) (mem_memTableOf.mp he)

/-- The memtable that is being compacted is sorted. -/
theorem Db.Inv.imm_sorted (h : db.Inv o m) {imm : List (Entry K V)} (himm : db.imm = some imm) :
    KeySorted imm := by
  have hlogged := h.imm
  unfold Db.ImmLogged at hlogged
  rw [himm] at hlogged
  obtain ⟨number, bs, -, rfl, hbs, -⟩ := hlogged
  exact hbs.keySorted (h.log.le.trans h.sequence_le)

/-- The last sequence number of tables is at most that of the memtable that is being compacted. -/
theorem Db.Inv.flushed_le_switched (h : db.Inv o m) : m.flushed ≤ m.switched := by
  have hlogged := h.imm
  unfold Db.ImmLogged at hlogged
  split at hlogged
  · exact hlogged.2.le
  · obtain ⟨number, bs, -, -, hbs, -⟩ := hlogged
    exact hbs.le

/-- The memtables are newer than every entry a table holds. -/
theorem Db.Inv.tables_lt_memtables (h : db.Inv o m) {x e : Entry K V}
    (hx : x ∈ db.versions.current.contents db.tables)
    (he : e ∈ db.mem ∨ e ∈ immContents db.imm) : x.key.sequence < e.key.sequence := by
  have hstored := h.stored x hx
  have hfs := h.flushed_le_switched
  rcases he with hm | hm
  · have := (h.mem_range hm).1
    omega
  · have := (h.imm_range hm).1
    omega

/-- Everything stored is of the past. -/
theorem Db.Inv.stored_le (h : db.Inv o m) {e : Entry K V} (he : e ∈ db.stored) :
    e.key.sequence ≤ db.versions.lastSequence := by
  have h1 := h.flushed_le_switched
  have h2 := h.log.le
  rcases he with he | he | he
  · exact (h.mem_range he).2
  · have := (h.imm_range he).2
    omega
  · have := h.stored e he
    omega

/-- Sequence numbers tell apart what is stored. -/
theorem Db.Inv.distinct (h : db.Inv o m) : Distinct db.stored := by
  have hfs := h.flushed_le_switched
  have hmax : m.switched ≤ kMaxSequenceNumber := h.log.le.trans h.sequence_le
  rintro a (ha | ha | ha) b (hb | hb | hb) - hseq <;> simp only [versioned_seq] at hseq
  · rw [mem_contents, h.mem, mem_memTableOf] at ha hb
    exact h.log.eq_of_sequence h.sequence_le ha hb hseq
  · have h1 := (h.mem_range ha).1
    have h2 := (h.imm_range hb).2
    omega
  · have h1 := (h.mem_range ha).1
    have h2 := h.stored b hb
    omega
  · have h1 := (h.imm_range ha).2
    have h2 := (h.mem_range hb).1
    omega
  -- Two entries of one source; otherwise the ranges of the sources do not meet.
  · obtain ⟨imm, himm, ha⟩ := ha
    obtain ⟨imm', himm', hb⟩ := hb
    obtain rfl : imm = imm' := Option.some.inj (himm.symm.trans himm')
    have hlogged := h.imm
    unfold Db.ImmLogged at hlogged
    rw [show db.imm = some imm from himm] at hlogged
    obtain ⟨number, bs, -, rfl, hbs, -⟩ := hlogged
    exact hbs.eq_of_sequence hmax (mem_memTableOf.mp ha) (mem_memTableOf.mp hb) hseq
  · have h1 := (h.imm_range ha).1
    have h2 := h.stored b hb
    omega
  · have h1 := h.stored a ha
    have h2 := (h.mem_range hb).1
    omega
  · have h1 := h.stored a ha
    have h2 := (h.imm_range hb).1
    omega
  · obtain ⟨l, f, hf, haf⟩ := ha
    obtain ⟨l', g, hg, hbg⟩ := hb
    exact (h.layout.separate l f hf l' g hg a haf b hbg hseq).2.2

/-! ## `Get` -/

end Inv

/-! ## Steps that keep what is stored -/

omit [LinearOrder K] in
/-- Snapshots and the last sequence number are at or above the oldest snapshot. -/
theorem Db.smallestSnapshot_le {db : Db K V} (hsorted : db.snapshots.Pairwise (· ≤ ·))
    (hle : ∀ s ∈ db.snapshots, s ≤ db.versions.lastSequence) :
    db.smallestSnapshot ≤ db.versions.lastSequence ∧
      ∀ s ∈ db.snapshots, db.smallestSnapshot ≤ s := by
  unfold Db.smallestSnapshot
  cases hs : db.snapshots with
  | nil => simp
  | cons a rest =>
    rw [hs] at hsorted hle
    refine ⟨hle a List.mem_cons_self, fun s hmem => ?_⟩
    rcases List.mem_cons.mp hmem with rfl | hmem
    · exact le_refl _
    · exact (List.pairwise_cons.mp hsorted).1 s hmem

/-- A compaction in flight goes on while files and tables stay. -/
theorem CompactionState.Faithful.of_files {st st' : CompactionState K V} {db db' : Db K V}
    (h : st.Faithful db) (hc : st'.compaction = st.compaction)
    (hss : st'.smallestSnapshot = st.smallestSnapshot)
    (hfiles : db'.versions.current.files = db.versions.current.files)
    (htab : db'.tables = db.tables) (hle : db.smallestSnapshot ≤ db'.smallestSnapshot) :
    st'.Faithful db' := by
  refine ⟨hc ▸ h.wf, ?_, ?_, ?_, ?_⟩
  · rw [hfiles, htab, hc]
    exact h.added
  · unfold Compaction.TakesOlder
    rw [hfiles, htab, hc]
    exact h.older
  · unfold Compaction.TakesDeleted
    rw [hfiles, htab, hc, hss]
    exact h.deleted
  · rw [hss]
    exact h.snapshot_le.trans hle

omit [LinearOrder K] in
/-- The order of recency depends on the files only. -/
theorem Version.ByRecency.of_files {v v' : Version K} {tables : Tables K V} (h : v.ByRecency tables)
    (hfiles : v'.files = v.files) : v'.ByRecency tables := by
  refine ⟨?_, by rw [hfiles]; exact h.level0⟩
  unfold Version.LevelsByRecency Version.levelContents
  rw [hfiles]
  exact h.levels

variable [Inhabited V]

/-- A database that stores the same reads the same. -/
theorem Db.ReadsHistory.of_stored {db db' : Db K V} {history : List (Update K V)}
    (h : db.ReadsHistory history) (hrec : db'.versions.current.ByRecency db'.tables)
    (hseq : db'.versions.lastSequence = db.versions.lastSequence)
    (hsorted : db'.snapshots.Pairwise (· ≤ ·))
    (hle : ∀ s ∈ db'.snapshots, s ≤ db.versions.lastSequence)
    (hsmall : db.smallestSnapshot ≤ db'.smallestSnapshot) (hstored : db'.stored = db.stored)
    (hcomp : ∀ st, db'.compacting = some st → st.Faithful db') : db'.ReadsHistory history :=
  { recency := hrec
    sequence := hseq.trans h.sequence
    sequence_lt := hseq.trans_lt h.sequence_lt
    sorted := hsorted
    snapshots_le := fun s hs => (hle s hs).trans_eq hseq.symm
    reads := fun k s r hs => by
      rw [hstored]
      exact h.reads k s r (hsmall.trans hs)
    compacting := hcomp }

/-- A read changes seek statistics only, so that later reads still see the history. -/
theorem Db.ReadsHistory.get {db : Db K V} {history : List (Update K V)}
    (h : db.ReadsHistory history) (key : K) (snapshot : Option ℕ) :
    (db.get key snapshot).2.ReadsHistory history := by
  rcases db.get_snd key snapshot with heq | heq
  · rw [heq]
    exact h
  · rw [heq]
    generalize (db.versions.current.get db.tables
      (lookupKey key (snapshot.getD db.versions.lastSequence))).2 = stats
    have hfiles := db.versions.current.updateStats_files stats
    refine h.of_stored (h.recency.of_files hfiles) rfl h.sorted h.snapshots_le (le_refl _) ?_
      fun st hst => (h.compacting st hst).of_files rfl rfl hfiles rfl (le_refl _)
    unfold Db.stored Version.contents Version.levelContents
    rw [hfiles]

/-- A new snapshot is at the end of the history, and reads at it see the history. -/
theorem Db.ReadsHistory.getSnapshot {db : Db K V} {history : List (Update K V)}
    (h : db.ReadsHistory history) : db.getSnapshot.ReadsHistory history := by
  have hsmall : db.getSnapshot.smallestSnapshot = db.smallestSnapshot := by
    unfold Db.smallestSnapshot Db.getSnapshot
    cases db.snapshots <;> rfl
  refine h.of_stored h.recency rfl ?_ ?_ hsmall.ge rfl fun st hst =>
    (h.compacting st hst).of_files rfl rfl rfl rfl hsmall.ge
  · refine List.pairwise_append.mpr ⟨h.sorted, List.pairwise_singleton _ _, fun s hs s' hs' => ?_⟩
    rw [List.mem_singleton.mp hs']
    exact h.snapshots_le s hs
  · intro s hs
    rcases List.mem_append.mp hs with hs | hs
    · exact h.snapshots_le s hs
    · rw [List.mem_singleton.mp hs]

/-- Fewer snapshots ask for fewer reads, which still see the history. -/
theorem Db.ReadsHistory.releaseSnapshot {db : Db K V} {history : List (Update K V)}
    (h : db.ReadsHistory history) (snapshot : ℕ) :
    (db.releaseSnapshot snapshot).ReadsHistory history := by
  have hsub : (db.snapshots.erase snapshot).Sublist db.snapshots := List.erase_sublist
  obtain ⟨hlast, hmem⟩ := Db.smallestSnapshot_le h.sorted h.snapshots_le
  have hsmall : db.smallestSnapshot ≤ (db.releaseSnapshot snapshot).smallestSnapshot := by
    show _ ≤ (db.snapshots.erase snapshot).head?.getD db.versions.lastSequence
    cases hh : (db.snapshots.erase snapshot).head? with
    | none => exact hlast
    | some s => exact hmem s (hsub.subset (List.mem_of_mem_head? hh))
  exact h.of_stored h.recency rfl (h.sorted.sublist hsub)
    (fun s hs => h.snapshots_le s (hsub.subset hs)) hsmall rfl fun st hst =>
      (h.compacting st hst).of_files rfl rfl rfl rfl hsmall

/-- A memtable switch moves entries from the memtable to the immutable one, and reads see the same
history. -/
theorem Db.ReadsHistory.switchMemTable {db db' : Db K V} {history : List (Update K V)}
    (h : db.ReadsHistory history) (hstep : db.switchMemTable = some db') :
    db'.ReadsHistory history := by
  unfold Db.switchMemTable at hstep
  split_ifs at hstep with hcond
  obtain rfl := Option.some.inj hstep
  refine h.of_stored h.recency rfl h.sorted h.snapshots_le (le_refl _) ?_ fun st hst =>
    (h.compacting st hst).of_files rfl rfl rfl rfl (le_refl _)
  ext e
  simp [Db.stored, immContents, Option.isNone_iff_eq_none.mp hcond.1]

/-- After a write, reads see the history with the updates of the write at its end. -/
theorem Db.ReadsHistory.write {o : DbOptions K V} {db : Db K V} {m : Marks}
    {history : List (Update K V)} (hinv : db.Inv o m) (h : db.ReadsHistory history)
    (updates : List (Update K V))
    (hlt : db.versions.lastSequence + updates.length < kMaxSequenceNumber) :
    (db.write updates).ReadsHistory (history ++ updates) := by
  have hsmall : db.smallestSnapshot ≤ (db.write updates).smallestSnapshot := by
    unfold Db.smallestSnapshot Db.write
    cases db.snapshots with
    | nil => exact Nat.le_add_right _ _
    | cons a rest => exact le_refl _
  set batch : WriteBatch K V := ⟨db.versions.lastSequence + 1, updates⟩ with hbatch
  have hcons : Consecutive db.versions.lastSequence [batch]
      (db.versions.lastSequence + updates.length) := consecutive_singleton _ updates
  have hentries : batchesEntries [batch] = batchEntries batch := by simp [batchesEntries]
  -- The new entries are newer than all that is stored, and than the history.
  have hnew : ∀ e ∈ batchEntries batch, db.versions.lastSequence < e.key.sequence := by
    intro e he
    rw [← hentries] at he
    exact (hcons.sequence_range hlt.le he).1
  have hstored : (db.write updates).stored = contents (batchEntries batch) ∪ db.stored := by
    have hmem : ∀ e, e ∈ (db.write updates).mem ↔ e ∈ batchEntries batch ∨ e ∈ db.mem := by
      intro e
      rw [(hinv.write updates hlt.le).mem, hinv.mem, mem_memTableOf, mem_memTableOf]
      show e ∈ batchesEntries (db.log ++ [batch]) ↔ _
      rw [batchesEntries, List.flatMap_append, List.mem_append, or_comm, ← hentries]
      rfl
    ext e
    show (e ∈ (db.write updates).mem ∨ _) ↔ _ ∨ (e ∈ db.mem ∨ _)
    rw [hmem, or_assoc]
    rfl
  have hhistory : contents (historyEntries (history ++ updates)) =
      contents (batchEntries batch) ∪ contents (historyEntries history) := by
    ext e
    rw [mem_contents, historyEntries_append, List.mem_append, or_comm, hbatch, h.sequence]
    rfl
  refine
    { recency := h.recency
      sequence := ?_
      sequence_lt := hlt
      sorted := h.sorted
      snapshots_le := fun s hs => (h.snapshots_le s hs).trans (Nat.le_add_right _ _)
      reads := fun k s r hs => ?_
      compacting := fun st hst => (h.compacting st hst).of_files rfl rfl rfl rfl hsmall }
  · rw [List.length_append, ← h.sequence]
    rfl
  · rw [hstored, hhistory]
    refine reads_union_congr ?_ ?_ (h.reads k s r (hsmall.trans hs))
    · exact fun a ha b hb _ => (hinv.stored_le hb).trans_lt (hnew a ha)
    · intro a ha b hb _
      have := (historyEntries_range (h.sequence ▸ h.sequence_lt.le) hb).2
      exact (this.trans_eq h.sequence.symm).trans_lt (hnew a ha)

/-! ## Steps that change the current version -/

/-- A memtable that is being compacted and goes below level 0 has no user key of a level-0 file. -/
def Db.FlushRecent (db : Db K V) : Prop :=
  ∀ imm ∈ db.imm, ∀ first ∈ imm.head?, ∀ last ∈ imm.getLast?,
    0 < memTableLevel (some db.versions.current) first.key.userKey last.key.userKey →
    ∀ f ∈ db.versions.current.files 0, ∀ e ∈ imm, ∀ e' ∈ db.tables f.number,
      e'.key.userKey ≠ e.key.userKey
  deriving Decidable

/-- A flush moves the entries of the memtable into its table. -/
theorem Db.Flushes.stored_eq {db db' : Db K V} {m : Marks} {imm : List (Entry K V)}
    {news : List (NewTable K V)} (hflush : db.Flushes m imm news db') : db'.stored = db.stored := by
  obtain ⟨himm', hmem', -⟩ := hflush.rest
  ext e
  have hnews : (∃ n ∈ news, e ∈ n.entries) ↔ e ∈ immContents db.imm := by
    constructor
    · rintro ⟨n, hn, he⟩
      exact ⟨imm, hflush.imm_eq, (hflush.new n hn).1 ▸ he⟩
    · rintro ⟨imm', himm, he⟩
      obtain rfl : imm = imm' := Option.some.inj (hflush.imm_eq.symm.trans himm)
      obtain ⟨n, hn⟩ := List.exists_mem_of_ne_nil news
        (hflush.news_ne (List.ne_nil_of_mem he))
      exact ⟨n, hn, (hflush.new n hn).1.symm ▸ he⟩
  unfold Db.stored
  rw [hmem', himm']
  show (_ ∨ e ∈ immContents none ∨ e ∈ db'.versions.current.contents db'.tables) ↔ (_ ∨ _ ∨ _)
  rw [hflush.gains.mem_contents, hnews]
  simp [immContents, or_comm]

/-- No shallower level has a user key of the table that a flush writes. -/
theorem Db.Flushes.not_above {o : DbOptions K V} {db db' : Db K V} {m : Marks} (hinv : db.Inv o m)
    {imm : List (Entry K V)} {news : List (NewTable K V)} (hflush : db.Flushes m imm news db')
    (hrecent : db.FlushRecent) {n : NewTable K V} (hn : n ∈ news) {l : ℕ} (hl : l < n.level)
    {e e' : Entry K V} (he : e ∈ db.versions.current.levelContents db.tables l)
    (he' : e' ∈ n.entries) : e.key.userKey ≠ e'.key.userKey := by
  intro hk
  obtain ⟨g, hg, he⟩ := he
  obtain ⟨hentries, hlevel⟩ := hflush.new n hn
  have hholds := hflush.accepts.holds n hn
  rcases Nat.eq_zero_or_pos l with rfl | hpos
  · obtain ⟨first, hfirst, hfk⟩ := Option.map_eq_some_iff.mp hholds.smallest
    obtain ⟨last, hlast, hlk⟩ := Option.map_eq_some_iff.mp hholds.largest
    rw [hentries] at hfirst hlast he'
    refine hrecent imm hflush.imm_eq first hfirst last hlast ?_ g hg e' he' e he hk
    rw [hfk, hlk, ← hlevel]
    exact hl
  · refine not_meets_of_le_memTableLevel hinv.layout.wf hpos (hlevel ▸ hl.le) hg ?_
    have h1 := (hinv.layout.hasTables l g hg).userKey_range he
    have h2 := hholds.userKey_range he'
    rw [hk] at h1
    exact ⟨h1.1.trans h2.2, h2.1.trans h1.2⟩

/-- A flush keeps the order of recency. -/
theorem Db.Flushes.byRecency {o : DbOptions K V} {db db' : Db K V} {m : Marks} (hinv : db.Inv o m)
    {imm : List (Entry K V)} {news : List (NewTable K V)} (hflush : db.Flushes m imm news db')
    (hrecent : db.FlushRecent) (hrec : db.versions.current.ByRecency db.tables) :
    db'.versions.current.ByRecency db'.tables := by
  refine hrec.gain hflush.accepts hflush.gains ?_ ?_
    fun n hn l hl e he e' he' => hflush.not_above hinv hrecent hn hl he he'
  -- There is one table at most.
  · intro n hn n' hn'
    match news, hflush.length_le with
    | [_], _ => rw [List.mem_singleton.mp hn, List.mem_singleton.mp hn']
  · match news, hflush.length_le with
    | [], _ => exact List.Pairwise.nil
    | [_], _ => exact List.pairwise_singleton _ _

/-- The table of a flush is newer than the inputs of the compaction in flight. -/
theorem CompactionState.Faithful.flush {db db' : Db K V} {m : Marks} {st : CompactionState K V}
    (hfl : st.Faithful db) (hlive : st.compaction.LiveIn db.versions.current)
    {imm : List (Entry K V)} {news : List (NewTable K V)} (hflush : db.Flushes m imm news db')
    (hsmall : db'.smallestSnapshot = db.smallestSnapshot) : st.Faithful db' := by
  have hgains := hflush.gains
  have hinputs : ∀ f ∈ st.compaction.inputs0 ++ st.compaction.inputs1,
      f ∈ db.versions.current.liveFiles := by
    intro f hf
    rcases hlive.mem_files hf with ⟨-, hf⟩ | ⟨-, hf⟩
    · exact ⟨_, hf⟩
    · exact ⟨_, hf⟩
  have hnewer : ∀ n ∈ news, ∀ f ∈ st.compaction.inputs0 ++ st.compaction.inputs1,
      ∀ e ∈ db'.tables f.number, ∀ e' ∈ db'.tables n.file.number,
        e.key.sequence < e'.key.sequence := by
    intro n hn f hf e he e' he'
    obtain ⟨l, hl⟩ := hinputs f hf
    rw [hgains.tables_old f ⟨l, hl⟩] at he
    rw [hgains.tables_new n hn] at he'
    exact (hflush.accepts.old e ⟨l, f, hl, he⟩).trans_lt (hflush.accepts.newer n hn e' he')
  -- In each part a file of the version is an old one, or one that the flush added.
  refine ⟨hfl.wf, fun l g hg => ?_, fun g hg hg0 f hf => ?_, fun g hg hg1 f hf => ?_, ?_⟩
  · rcases (hgains.mem_iff l g).mp hg with hg | ⟨n, hn, -, rfl⟩
    · refine (hfl.added l g hg).imp_right fun hold f hf => ?_
      rw [hgains.tables_old f (hinputs f hf), hgains.tables_old g ⟨l, hg⟩]
      exact hold f hf
    · exact Or.inr (hnewer n hn)
  · rcases (hgains.mem_iff _ g).mp hg with hg | ⟨n, hn, -, rfl⟩
    · rw [hgains.tables_old f (hinputs f (List.mem_append_left _ hf)),
        hgains.tables_old g ⟨_, hg⟩]
      exact hfl.older g hg hg0 f hf
    · exact fun e he e' he' _ => (hnewer n hn f (List.mem_append_left _ hf) e he e' he').le
  · rcases (hgains.mem_iff _ g).mp hg with hg | ⟨n, hn, -, rfl⟩
    · rw [hgains.tables_old f (hinputs f hf), hgains.tables_old g ⟨_, hg⟩]
      exact hfl.deleted g hg hg1 f hf
    · exact fun e he e' he' _ => (hnewer n hn f hf e (List.mem_of_mem_filter he) e' he').le
  · rw [hsmall]
    exact hfl.snapshot_le

/-- `CompactMemTable` keeps reads, if its table does not come below older entries of its keys. -/
theorem Db.ReadsHistory.compactMemTable {o : DbOptions K V} {db db' : Db K V} {m : Marks}
    {history : List (Update K V)} (hinv : db.Inv o m) (h : db.ReadsHistory history)
    {imm : List (Entry K V)} {news : List (NewTable K V)} (hflush : db.Flushes m imm news db')
    (hrecent : db.FlushRecent) : db'.ReadsHistory history := by
  obtain ⟨-, -, hsnap', hcomp', hseq'⟩ := hflush.rest
  have hsmall : db'.smallestSnapshot = db.smallestSnapshot := by
    unfold Db.smallestSnapshot
    rw [hsnap', hseq']
  refine h.of_stored (hflush.byRecency hinv hrecent h.recency) hseq' (hsnap'.symm ▸ h.sorted)
    (hsnap'.symm ▸ h.snapshots_le) hsmall.ge hflush.stored_eq fun st hst => ?_
  rw [hcomp'] at hst
  exact (h.compacting st hst).flush (hinv.compacting st hst).live hflush hsmall

/-- A compaction takes what it has to, at the time when it begins. -/
def Db.TakesAll (db : Db K V) (c : Compaction K) : Prop :=
  c.TakesOlder db.versions.current db.tables ∧
    c.TakesDeleted db.versions.current db.tables db.smallestSnapshot

instance (db : Db K V) (c : Compaction K) : Decidable (db.TakesAll c) :=
  inferInstanceAs (Decidable (c.TakesOlder db.versions.current db.tables ∧
    c.TakesDeleted db.versions.current db.tables db.smallestSnapshot))

/-- A compaction that takes all versions of its keys may begin: reads see the same history, now and
after its end. -/
theorem Db.ReadsHistory.start {o : DbOptions K V} {db : Db K V} {m : Marks}
    {history : List (Update K V)} (hinv : db.Inv o m) (h : db.ReadsHistory history)
    {c : Compaction K} {level : ℕ} (hset : c.SetUpFrom db.versions.current level)
    (htakes : db.TakesAll c) (pointer : ℕ → Option (InternalKey K)) :
    { db with
      versions := { db.versions with compactPointer := pointer }
      compacting := some (c.start db.tables db.smallestSnapshot) }.ReadsHistory history := by
  refine h.of_stored h.recency rfl h.sorted h.snapshots_le (le_refl _) rfl fun st hst => ?_
  obtain rfl := Option.some.inj hst
  refine ⟨?_, fun l g hg => Or.inl ?_, htakes.1, htakes.2, le_refl _⟩
  · show c.inputVersion.WellFormed
    rw [hset.inputVersion]
    exact hinv.layout.wf
  · show g ∈ c.inputVersion.files l
    rw [hset.inputVersion]
    exact hg

omit [LinearOrder K] [Inhabited V] in
/-- A file that goes to the next level keeps its entries. -/
theorem Version.contents_moved {v v' : Version K} {f : FileMetaData K} {level : ℕ}
    (hf : f ∈ v.files level)
    (hmem : ∀ l g, g ∈ v'.files l ↔ (g ∈ v.files l ∧ g ≠ f) ∨ (l = level + 1 ∧ g = f))
    (tables : Tables K V) : v'.contents tables = v.contents tables := by
  ext e
  constructor
  · rintro ⟨l, g, hg, he⟩
    rcases (hmem l g).mp hg with ⟨hg, -⟩ | ⟨rfl, rfl⟩
    · exact ⟨l, g, hg, he⟩
    · exact ⟨level, g, hf, he⟩
  · rintro ⟨l, g, hg, he⟩
    rcases eq_or_ne g f with rfl | hne
    · exact ⟨level + 1, g, (hmem _ g).mpr (Or.inr ⟨rfl, rfl⟩), he⟩
    · exact ⟨l, g, (hmem l g).mpr (Or.inl ⟨hg, hne⟩), he⟩

/-- A trivial move keeps reads, if the file has all versions of its keys in its level. -/
theorem Db.ReadsHistory.move {o : DbOptions K V} {db : Db K V} {m : Marks}
    {history : List (Update K V)} (hinv : db.Inv o m) (h : db.ReadsHistory history)
    (hnone : db.compacting = none) {c : Compaction K} {level : ℕ}
    (hset : c.SetUpFrom db.versions.current level) (hlevel : level + 1 < kNumLevels)
    {f : FileMetaData K} (h0 : c.inputs0 = [f]) (h1 : c.inputs1 = []) (htakes : db.TakesAll c)
    (pointer : ℕ → Option (InternalKey K)) :
    ({ db with versions := { db.versions with compactPointer := pointer } }.logAndApply
      (c.moveEdit f)).ReadsHistory history := by
  have hlive := hset.liveIn hlevel
  have hf : f ∈ db.versions.current.files c.level := hlive.inputs0 f (by rw [h0]; simp)
  obtain ⟨hmem, -⟩ := hinv.move hnone hset hlevel h0 h1 pointer
  have hrec : (db.versions.logAndApply (c.moveEdit f)).current.ByRecency db.tables := by
    refine h.recency.replace hinv.layout hlive htakes.1 fun l x hx => ?_
    rcases (hmem l x).mp hx with ⟨hx, hne⟩ | ⟨rfl, rfl⟩
    · exact Or.inl ⟨⟨hx, by simp [h0, hne], by simp [h1]⟩, rfl⟩
    · exact Or.inr ⟨rfl, fun e he => ⟨x, by simp [h0], he⟩⟩
  refine h.of_stored hrec rfl h.sorted h.snapshots_le (le_refl _) ?_ fun st hst => ?_
  -- The file is the same one, so what is stored does not change.
  · have hcontents := Version.contents_moved hf hmem db.tables
    show contents db.mem ∪ (immContents db.imm ∪
      (db.versions.logAndApply (c.moveEdit f)).current.contents db.tables) = db.stored
    rw [hcontents]
    rfl
  · rw [show db.compacting = some st from hst] at hnone
    simp at hnone

/-- A round of the loop of a compaction changes nothing that reads see. -/
theorem Db.ReadsHistory.workCompaction {o : DbOptions K V} {db db' : Db K V}
    {history : List (Update K V)} (h : db.ReadsHistory history)
    (hstep : db.workCompaction o = some db') : db'.ReadsHistory history := by
  unfold Db.workCompaction at hstep
  split at hstep
  · simp at hstep
  · next st hst =>
    split_ifs at hstep with hempty
    obtain rfl := Option.some.inj hstep
    refine h.of_stored h.recency rfl h.sorted h.snapshots_le (le_refl _) rfl fun st' hst' => ?_
    obtain rfl := Option.some.inj hst'
    cases hin : st.input with
    | nil => simp [hin] at hempty
    | cons e es =>
      obtain ⟨-, hcomp, hss, -⟩ :=
        CompactionState.workStep_cons o.sizes hin db.versions.nextFileNumber
      exact (h.compacting st hst).of_files hcomp hss rfl rfl (le_refl _)

/-- What the database stores beside the input of a compaction: the memtables, and the files that are
no inputs. -/
def Db.besideInput (db : Db K V) (c : Compaction K) : Set (Entry K V) :=
  contents db.mem ∪ (immContents db.imm ∪
    {e | ∃ l g, c.Leaves db.versions.current l g ∧ e ∈ db.tables g.number})

omit [Inhabited V] in
/-- An entry of the input lies in a file of the level its half of the inputs is taken from. -/
theorem Compaction.LiveIn.mem_input {c : Compaction K} {db : Db K V}
    (hlive : c.LiveIn db.versions.current) {e : Entry K V} (he : e ∈ c.makeInputIterator db.tables) :
    ∃ l f, f ∈ c.inputs0 ++ c.inputs1 ∧ f ∈ db.versions.current.files l ∧
      e ∈ db.tables f.number ∧
        ((l = c.level ∧ f ∈ c.inputs0) ∨ (l = c.level + 1 ∧ f ∈ c.inputs1)) := by
  obtain ⟨f, hf, hef⟩ := Compaction.mem_makeInputIterator.mp he
  rcases hlive.mem_files hf with ⟨hf0, hfl⟩ | ⟨hf1, hfl⟩
  · exact ⟨_, f, hf, hfl, hef, Or.inl ⟨rfl, hf0⟩⟩
  · exact ⟨_, f, hf, hfl, hef, Or.inr ⟨rfl, hf1⟩⟩

omit [Inhabited V] in
/-- What is stored is the input of a compaction and what lies beside it. -/
theorem Compaction.LiveIn.stored_eq {c : Compaction K} {db : Db K V}
    (hlive : c.LiveIn db.versions.current) :
    db.stored = contents (c.makeInputIterator db.tables) ∪ db.besideInput c := by
  ext e
  constructor
  · rintro (he | he | ⟨l, g, hg, he⟩)
    · exact Or.inr (Or.inl he)
    · exact Or.inr (Or.inr (Or.inl he))
    · by_cases h0 : l = c.level ∧ g ∈ c.inputs0
      · exact Or.inl (Compaction.mem_makeInputIterator.mpr ⟨g, List.mem_append_left _ h0.2, he⟩)
      · by_cases h1 : l = c.level + 1 ∧ g ∈ c.inputs1
        · exact Or.inl
            (Compaction.mem_makeInputIterator.mpr ⟨g, List.mem_append_right _ h1.2, he⟩)
        · exact Or.inr (Or.inr (Or.inr ⟨l, g, ⟨hg, h0, h1⟩, he⟩))
  · rintro (he | he | he | ⟨l, g, hg, he⟩)
    · obtain ⟨l, f, -, hfl, hef, -⟩ := hlive.mem_input he
      exact Or.inr (Or.inr ⟨l, f, hfl, hef⟩)
    · exact Or.inl he
    · exact Or.inr (Or.inl he)
    · exact Or.inr (Or.inr ⟨l, g, hg.1, he⟩)

omit [Inhabited V] in
/-- After the end of a compaction the tables hold what it kept and the files it left alone. -/
theorem Db.Finishes.mem_contents {db db' : Db K V} {st : CompactionState K V}
    {outputs : List (FileMetaData K × List (Entry K V))} (hfin : db.Finishes st outputs db')
    {e : Entry K V} :
    e ∈ db'.versions.current.contents db'.tables ↔
      e ∈ st.compaction.kept st.smallestSnapshot (st.compaction.makeInputIterator db.tables) ∨
        ∃ l g, st.compaction.Leaves db.versions.current l g ∧ e ∈ db.tables g.number := by
  have hrep := hfin.replaces
  rw [← hfin.kept, List.mem_flatMap]
  constructor
  · rintro ⟨l, g, hg, he⟩
    rcases (hrep.mem_iff l g).mp hg with hg | ⟨-, out, ho, rfl⟩
    · exact Or.inr ⟨l, g, hg, hrep.tables_old g ⟨l, hg.1⟩ ▸ he⟩
    · exact Or.inl ⟨out, ho, hrep.tables_new out ho ▸ he⟩
  · rintro (⟨out, ho, he⟩ | ⟨l, g, hg, he⟩)
    · exact ⟨st.compaction.level + 1, out.1, (hrep.mem_iff _ _).mpr (Or.inr ⟨rfl, out, ho, rfl⟩),
        (hrep.tables_new out ho).symm ▸ he⟩
    · exact ⟨l, g, (hrep.mem_iff l g).mpr (Or.inl hg), (hrep.tables_old g ⟨l, hg.1⟩).symm ▸ he⟩

omit [Inhabited V] in
/-- The end of a compaction puts what it kept in the place of its input. -/
theorem Db.Finishes.stored_eq {db db' : Db K V} {st : CompactionState K V}
    {outputs : List (FileMetaData K × List (Entry K V))} (hfin : db.Finishes st outputs db') :
    db'.stored = contents (st.compaction.kept st.smallestSnapshot
      (st.compaction.makeInputIterator db.tables)) ∪ db.besideInput st.compaction := by
  ext e
  obtain ⟨hmem', himm', -⟩ := hfin.rest
  unfold Db.stored Db.besideInput
  rw [hmem', himm']
  show (_ ∨ _ ∨ e ∈ db'.versions.current.contents db'.tables) ↔ (_ ∨ _ ∨ _ ∨ _)
  rw [hfin.mem_contents]
  simp only [LevelDb.mem_contents, Set.mem_ofPred_eq]
  tauto

/-- The end of a compaction changes no reading from `smallest_snapshot` on. -/
theorem Db.Finishes.reads_iff {o : DbOptions K V} {db db' : Db K V} {m : Marks} (hinv : db.Inv o m)
    (hrec : db.versions.current.ByRecency db.tables) {st : CompactionState K V}
    {outputs : List (FileMetaData K × List (Entry K V))} (hfin : db.Finishes st outputs db')
    (hfl : st.Faithful db) (hss : st.smallestSnapshot < kMaxSequenceNumber) {k : K} {s : ℕ}
    (hs : st.smallestSnapshot ≤ s) {r : Option V} :
    Reads db'.stored k s r ↔ Reads db.stored k s r := by
  have hlive := (hinv.compacting st hfin.compacting_eq).live
  set c := st.compaction with hcdef
  rw [hfin.stored_eq, hlive.stored_eq]
  refine Compaction.kept_reads_iff hfl.wf hss (c.makeInputIterator_sorted db.tables)
    (hlive.stored_eq ▸ hinv.distinct) ?_ ?_ hs
  · intro e he hbeside
    obtain ⟨lf, f, -, hfl, hef, hwhich⟩ := hlive.mem_input he
    rcases hbeside with hm | hm | ⟨l, g, hg, heg⟩
    · exact (hinv.tables_lt_memtables ⟨lf, f, hfl, hef⟩ (Or.inl hm)).false
    · exact (hinv.tables_lt_memtables ⟨lf, f, hfl, hef⟩ (Or.inr hm)).false
    · obtain ⟨rfl, rfl, -⟩ := hinv.layout.separate lf f hfl l g hg.1 e hef e heg rfl
      exact absurd hwhich (not_or.mpr hg.2)
  · -- What is older than a marker lies where `IsBaseLevelForKey` looks.
    intro d hd hdel hdss e hbeside hk hlt
    obtain ⟨lf, f, hf, hfl', hdf, -⟩ := hlive.mem_input hd
    rcases hbeside with hm | hm | ⟨l, g, hg, heg⟩
    · exact absurd hlt (hinv.tables_lt_memtables ⟨lf, f, hfl', hdf⟩ (Or.inl hm)).not_gt
    · exact absurd hlt (hinv.tables_lt_memtables ⟨lf, f, hfl', hdf⟩ (Or.inr hm)).not_gt
    · obtain ⟨hshallow, -⟩ := hrec.inputs hinv.layout hlive hfl.older hg hf heg hdf hk
      have hl1 : l ≠ c.level + 1 := by
        rintro rfl
        have := hfl.deleted g hg.1 (fun hin => hg.2.2 ⟨rfl, hin⟩) f hf d
          (List.mem_filter.mpr ⟨hdf, by simp [hdel, hdss]⟩) e heg hk
        omega
      refine ⟨l, ?_, g, ?_, ?_⟩
      · by_contra hcon
        have hlevel : c.level = st.compaction.level := rfl
        have := hshallow (by omega)
        omega
      · rcases hfl.added l g hg.1 with hg' | hnew
        · exact hg'
        · have := hnew f hf d hdf e heg
          omega
      · rw [← hk]
        exact (hinv.layout.hasTables l g hg.1).userKey_range heg

/-- The results of a compaction are installed. -/
theorem Db.ReadsHistory.finishCompaction {o : DbOptions K V} {db db' : Db K V} {m : Marks}
    {history : List (Update K V)} (hinv : db.Inv o m) (h : db.ReadsHistory history)
    {st : CompactionState K V} {outputs : List (FileMetaData K × List (Entry K V))}
    (hfin : db.Finishes st outputs db') : db'.ReadsHistory history := by
  have hfl := h.compacting st hfin.compacting_eq
  have hlive := (hinv.compacting st hfin.compacting_eq).live
  obtain ⟨hmem', himm', hsnap', hcomp', hseq'⟩ := hfin.rest
  have hsmall : db'.smallestSnapshot = db.smallestSnapshot := by
    unfold Db.smallestSnapshot
    rw [hsnap', hseq']
  have hss : st.smallestSnapshot < kMaxSequenceNumber :=
    (hfl.snapshot_le.trans (Db.smallestSnapshot_le h.sorted h.snapshots_le).1).trans_lt h.sequence_lt
  refine
    { recency := ?_
      sequence := hseq'.trans h.sequence
      sequence_lt := hseq'.trans_lt h.sequence_lt
      sorted := hsnap'.symm ▸ h.sorted
      snapshots_le := fun s hs => (h.snapshots_le s (hsnap' ▸ hs)).trans_eq hseq'.symm
      reads := fun k s r hs => ?_
      compacting := fun st' hst' => by simp [hcomp'] at hst' }
  · refine h.recency.replace hinv.layout hlive hfl.older fun l x hx => ?_
    rcases (hfin.replaces.mem_iff l x).mp hx with hx | ⟨rfl, out, ho, rfl⟩
    · exact Or.inl ⟨hx, hfin.replaces.tables_old x ⟨l, hx.1⟩⟩
    · refine Or.inr ⟨rfl, fun e he => ?_⟩
      rw [hfin.replaces.tables_new out ho] at he
      exact hfin.produces.entries out ho e he
  · rw [hsmall] at hs
    rw [hfin.reads_iff hinv h.recency hfl hss (hfl.snapshot_le.trans hs)]
    exact h.reads k s r hs

/-! ## Opening -/

/-- A database that is opened stores what its tables and logs held, in the order of recency. -/
theorem Openable.stored_openDb {o : DbOptions K V} {manifest : List (VersionEdit K)}
    {tables : Tables K V} {logs : List (ℕ × List (WriteBatch K V))} {vs : VersionSet K} {m : Marks}
    {last : ℕ} (h : Openable o manifest tables logs vs m last)
    (hrec : vs.current.ByRecency tables) :
    ∃ db m', openDb o manifest tables logs = .ok db ∧ db.Inv o m' ∧
      db.versions.current.ByRecency db.tables ∧ db.versions.lastSequence = last ∧
      db.snapshots = [] ∧ db.compacting = none ∧
      ∀ e, e ∈ db.stored ↔ e ∈ batchesEntries (logs.flatMap (·.2)) ∨ e ∈ vs.current.contents tables := by
  obtain ⟨db, news, m', hopen, hnews, hacc, hgains, hlast, hmem, himm, hsnap, hcomp, hinv⟩ :=
    h.openDb_inv
  refine ⟨db, m', hopen, hinv, ?_, hlast, hsnap, hcomp, fun e => ?_⟩
  · refine hrec.gain hacc hgains ?_ hnews.newer ?_
    · exact fun n hn n' hn' => by rw [hnews.level n hn, hnews.level n' hn']
    · intro n hn l hl
      rw [hnews.level n hn] at hl
      omega
  · unfold Db.stored
    rw [hmem, himm]
    show (e ∈ ([] : List (Entry K V)) ∨ e ∈ immContents none ∨ _) ↔ _
    rw [hgains.mem_contents, hnews.mem_iff]
    simp [immContents, or_comm]

/-- The logs of a database hold the entries of its memtables. -/
theorem Db.Inv.mem_logs {o : DbOptions K V} {db : Db K V} {m : Marks} (h : db.Inv o m)
    {e : Entry K V} :
    e ∈ batchesEntries ((db.oldLogs ++ [(db.logFileNumber, db.log)]).flatMap (·.2)) ↔
      e ∈ db.mem ∨ e ∈ immContents db.imm := by
  have hold : e ∈ batchesEntries (db.oldLogs.flatMap (·.2)) ↔ e ∈ immContents db.imm := by
    have himm := h.imm
    unfold Db.ImmLogged at himm
    split at himm
    · next hnone => simp [himm.1, hnone, batchesEntries, immContents]
    · next imm hsome =>
      obtain ⟨number, bs, hlogs, rfl, -⟩ := himm
      rw [hlogs, hsome]
      simp [immContents, mem_memTableOf]
  rw [List.flatMap_append, batchesEntries, List.flatMap_append, List.mem_append, ← batchesEntries,
    hold, h.mem, mem_memTableOf, or_comm]
  simp [batchesEntries]

/-- After close and reopen, reads see the same history, from the tables that recovery has written. -/
theorem Db.ReadsHistory.reopen {o : DbOptions K V} {db db' : Db K V} {m : Marks}
    {history : List (Update K V)} (hinv : db.Inv o m) (h : db.ReadsHistory history)
    (hstep : db.reopen o = .ok db') : db'.ReadsHistory history := by
  obtain ⟨db₂, m', hopen, -, hrec, hlast, hsnap, hcomp, hstored⟩ :=
    hinv.openable.stored_openDb h.recency
  obtain rfl : db₂ = db' := Except.ok.inj (hopen.symm.trans hstep)
  obtain ⟨hsmall, -⟩ := Db.smallestSnapshot_le h.sorted h.snapshots_le
  have hsmall' : db₂.smallestSnapshot = db.versions.lastSequence := by
    unfold Db.smallestSnapshot
    rw [hsnap, hlast]
    rfl
  refine h.of_stored hrec hlast (by simp [hsnap]) (by simp [hsnap]) (hsmall'.symm ▸ hsmall) ?_
    (by simp [hcomp])
  ext e
  rw [hstored, hinv.mem_logs, or_assoc]
  rfl

/-- What a step must satisfy for reads to stay right: sequence numbers fit, a memtable is neither
written in the way of the compaction in flight nor below an older entry of its keys, and a compaction
leaves no older entry of its keys behind. -/
def Db.KeepsReads (db : Db K V) : Step K V → Prop
  | .write updates => db.versions.lastSequence + updates.length < kMaxSequenceNumber
  | .compactMemTable => db.FlushClear ∧ db.FlushRecent
  | .beginCompaction => ∀ p ∈ db.versions.pickCompaction, db.TakesAll p.1
  | .beginManual level first last =>
    ∀ p ∈ db.versions.compactRange level (.pack first kMaxSequenceNumber kValueTypeForSeek)
      (.pack last 0 .deletion), db.TakesAll p.1
  | _ => True

instance (db : Db K V) : ∀ s : Step K V, Decidable (db.KeepsReads s)
  | .write updates =>
    inferInstanceAs (Decidable (db.versions.lastSequence + updates.length < kMaxSequenceNumber))
  | .compactMemTable => inferInstanceAs (Decidable (db.FlushClear ∧ db.FlushRecent))
  | .beginCompaction =>
    inferInstanceAs (Decidable (∀ p ∈ db.versions.pickCompaction, db.TakesAll p.1))
  | .beginManual level first last =>
    inferInstanceAs (Decidable (∀ p ∈ db.versions.compactRange level
      (.pack first kMaxSequenceNumber kValueTypeForSeek) (.pack last 0 .deletion),
      db.TakesAll p.1))
  | .get _ _ => isTrue trivial
  | .getSnapshot => isTrue trivial
  | .releaseSnapshot _ => isTrue trivial
  | .switchMemTable => isTrue trivial
  | .workCompaction => isTrue trivial
  | .finishCompaction => isTrue trivial
  | .reopen => isTrue trivial

omit [Inhabited V] in
/-- The condition for reads to stay right implies the condition for levels to stay disjoint. -/
theorem Db.KeepsReads.keepsLevels {db : Db K V} : ∀ {s : Step K V}, db.KeepsReads s → db.KeepsLevels s
  | .write _, h => le_of_lt h
  | .compactMemTable, h => h.1
  | .get _ _, _ => trivial
  | .getSnapshot, _ => trivial
  | .releaseSnapshot _, _ => trivial
  | .switchMemTable, _ => trivial
  | .beginCompaction, _ => trivial
  | .beginManual _ _ _, _ => trivial
  | .workCompaction, _ => trivial
  | .finishCompaction, _ => trivial
  | .reopen, _ => trivial

/-- A step keeps reads, and adds what it writes to the history. -/
theorem Db.ReadsHistory.step {o : DbOptions K V} {db db' : Db K V} {m : Marks}
    {history : List (Update K V)} (hinv : db.Inv o m) (h : db.ReadsHistory history) {s : Step K V}
    (hkeeps : db.KeepsReads s) (hstep : db.step o s = some db') :
    db'.ReadsHistory (history ++ writtenUpdates [s]) := by
  cases s with
  | write updates =>
    obtain rfl := Option.some.inj hstep
    simpa [writtenUpdates] using h.write hinv updates hkeeps
  | get key snapshot =>
    simp only [Db.step] at hstep
    split_ifs at hstep
    obtain rfl := Option.some.inj hstep
    simpa [writtenUpdates] using h.get key snapshot
  | getSnapshot =>
    obtain rfl := Option.some.inj hstep
    simpa [writtenUpdates] using h.getSnapshot
  | releaseSnapshot snapshot =>
    obtain rfl := Option.some.inj hstep
    simpa [writtenUpdates] using h.releaseSnapshot snapshot
  -- The steps from here on move entries between the sources, and write nothing.
  | switchMemTable => simpa [writtenUpdates] using h.switchMemTable hstep
  | compactMemTable =>
    obtain ⟨imm, news, hflush, -⟩ := hinv.compactMemTable hstep
    simpa [writtenUpdates] using h.compactMemTable hinv hflush hkeeps.2
  | beginCompaction =>
    obtain ⟨-, hnone, c, vs, hpick, hcase⟩ := Db.beginCompaction_eq_some hstep
    obtain ⟨hset, hlevel, pointer, rfl⟩ := hinv.layout.pickCompaction_setUpFrom hpick
    have htakes := hkeeps _ hpick
    rcases hcase with ⟨f, h0, h1, rfl⟩ | rfl
    · simpa [writtenUpdates] using h.move hinv hnone hset hlevel h0 h1 htakes pointer
    · simpa [writtenUpdates] using h.start hinv hset htakes pointer
  | beginManual level first last =>
    obtain ⟨-, -, hlevel, c, vs, hrange, rfl⟩ := Db.beginManual_eq_some hstep
    obtain ⟨hset, pointer, rfl⟩ := hinv.layout.compactRange_setUpFrom hrange
    simpa [writtenUpdates] using h.start hinv hset (hkeeps _ hrange) pointer
  | workCompaction => simpa [writtenUpdates] using h.workCompaction hstep
  | finishCompaction =>
    obtain ⟨st, outputs, hfin, -⟩ := hinv.finishCompaction hstep
    simpa [writtenUpdates] using h.finishCompaction hinv hfin
  | reopen =>
    have hopen : db.reopen o = .ok db' := by
      cases hr : db.reopen o with
      | error e => simp [Db.step, hr, Except.toOption] at hstep
      | ok db₂ => simpa [Db.step, hr, Except.toOption] using hstep
    simpa [writtenUpdates] using h.reopen hinv hopen

omit [LinearOrder K] [Inhabited V] in
/-- What a run writes, step by step. -/
theorem writtenUpdates_cons (s : Step K V) (steps : List (Step K V)) :
    writtenUpdates (s :: steps) = writtenUpdates [s] ++ writtenUpdates steps := by
  cases s <;> simp [writtenUpdates]

/-- In a run whose steps meet the condition, reads in every state see the updates that have been
written so far. -/
theorem Db.ReadsHistory.run {o : DbOptions K V} : ∀ {steps : List (Step K V)} {db db' : Db K V}
    {m : Marks} {history : List (Update K V)}, db.Inv o m → db.ReadsHistory history →
    db.RunMeets o Db.KeepsReads steps → db.run o steps = some db' →
    (∃ m', db'.Inv o m') ∧ db'.ReadsHistory (history ++ writtenUpdates steps)
  | [], db, db', m, history, hinv, h, _, hrun => by
    obtain rfl := Option.some.inj hrun
    exact ⟨⟨m, hinv⟩, by simpa [writtenUpdates] using h⟩
  | s :: steps, db, db', m, history, hinv, h, hmeets, hrun => by
    obtain ⟨db₁, hstep, hrest⟩ := Option.bind_eq_some_iff.mp hrun
    obtain ⟨m₁, hinv₁⟩ := hinv.step hmeets.1.keepsLevels hstep
    have h₁ := h.step hinv hmeets.1 hstep
    rw [writtenUpdates_cons, ← List.append_assoc]
    exact h₁.run hinv₁ (hmeets.2 db₁ hstep) hrest

end LevelDb
