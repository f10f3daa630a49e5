import LevelDb.Db.Invariant

/-!
# Levels stay sorted and disjoint

The steps that change the current version keep the invariant of a database, but for one: a memtable
that is written to the output level of the compaction in flight, between its inputs, is in the way of
the outputs. Runs without such a step keep the levels disjoint (`Db.Inv.run`); the last section has a
run with one.
-/

namespace LevelDb

open Lib

variable {K V : Type} [LinearOrder K]

/-! ## `CompactMemTable` -/

/-- The user-key range `[lo, hi]` meets the range that the inputs of a compaction span. -/
def Compaction.Spans (c : Compaction K) (lo hi : K) : Prop :=
  (∃ f ∈ c.inputs0 ++ c.inputs1, f.smallest.userKey ≤ hi) ∧
    ∃ f ∈ c.inputs0 ++ c.inputs1, lo ≤ f.largest.userKey
  deriving Decidable

/-- A file whose range does not meet that of the inputs lies on one side of them. -/
theorem Compaction.outsideInputs_of_not_spans {c : Compaction K} {g : FileMetaData K}
    (h : ¬ c.Spans g.smallest.userKey g.largest.userKey) : c.OutsideInputs g := by
  rcases not_and_or.mp h with h | h
  · exact Or.inl fun f hf => InternalKey.lt_of_userKey_lt (not_le.mp fun hle => h ⟨f, hf, hle⟩)
  · exact Or.inr fun f hf => InternalKey.lt_of_userKey_lt (not_le.mp fun hle => h ⟨f, hf, hle⟩)

/-- The memtable that is being compacted does not go to the output level of the compaction in flight
with a range that meets the range of its inputs. -/
def Db.FlushClear (db : Db K V) : Prop :=
  ∀ imm ∈ db.imm, ∀ st ∈ db.compacting, ∀ first ∈ imm.head?, ∀ last ∈ imm.getLast?,
    memTableLevel (some db.versions.current) first.key.userKey last.key.userKey =
      st.compaction.level + 1 →
    ¬ st.compaction.Spans first.key.userKey last.key.userKey
  deriving Decidable

variable [Inhabited V]

/-- What `CompactMemTable` does: the memtable becomes at most one new table, at the level that the
current version allows. -/
structure Db.Flushes (db : Db K V) (m : Marks) (imm : List (Entry K V))
    (news : List (NewTable K V)) (db' : Db K V) : Prop where
  /-- There is a memtable to compact. -/
  imm_eq : db.imm = some imm
  /-- It holds the entries of its log. -/
  logged : ∃ bs, imm = memTableOf bs ∧ Consecutive m.flushed bs m.switched
  /-- It is written unless it is empty. -/
  news_ne : imm ≠ [] → news ≠ []
  /-- It is one table. -/
  length_le : news.length ≤ 1
  /-- The table has its entries, and its level. -/
  new : ∀ n ∈ news, n.entries = imm ∧ n.level =
    memTableLevel (some db.versions.current) n.file.smallest.userKey n.file.largest.userKey
  /-- The current version accepts it. -/
  accepts : db.versions.current.AcceptsTables db.tables m.flushed news
  /-- It is added. -/
  gains : db.versions.current.Gains db.tables news db'.versions.current db'.tables
  /-- Other parts of the state. -/
  rest : db'.imm = none ∧ db'.mem = db.mem ∧ db'.snapshots = db.snapshots ∧
    db'.compacting = db.compacting ∧ db'.versions.lastSequence = db.versions.lastSequence

/-- The database after `CompactMemTable`, from the writer of its table. -/
def Db.flushed (db : Db K V) (w : TableWriter K V) : Db K V :=
  { { db with versions := w.versions, tables := w.tables }.logAndApply
      { w.edit with prevLogNumber := some 0, logNumber := some db.logFileNumber } with
    imm := none }.deleteObsoleteFiles

omit [Inhabited V] in
/-- `CompactMemTable` runs only if there is an immutable memtable, and writes it on the current
version. -/
theorem Db.compactMemTable_eq_some {o : DbOptions K V} {db db' : Db K V}
    (h : db.compactMemTable o = some db') :
    ∃ imm, db.imm = some imm ∧ db' = db.flushed
      (TableWriter.writeLevel0Table o ⟨db.versions, db.tables, {}⟩ imm
        (some db.versions.current)) := by
  unfold Db.compactMemTable at h
  split at h
  · simp at h
  · next imm himm =>
    split_ifs at h
    obtain rfl := Option.some.inj h
    exact ⟨imm, himm, rfl⟩

/-- The current version accepts the table of a memtable at the level that it allows. -/
theorem Version.Layout.acceptsFlush {vs : VersionSet K} {tables : Tables K V}
    (h : vs.current.Layout tables) {w : TableWriter K V} {news : List (NewTable K V)}
    {bs : List (WriteBatch K V)} {first last : ℕ}
    (hadds : TableWriter.Adds ⟨vs, tables, {}⟩ w news) (hlen : news.length ≤ 1)
    (hnew : ∀ n ∈ news, n.entries = memTableOf bs ∧ n.level =
      memTableLevel (some vs.current) n.file.smallest.userKey n.file.largest.userKey)
    (hbs : Consecutive first bs last) (hmax : last ≤ kMaxSequenceNumber)
    (hold : ∀ e ∈ vs.current.contents tables, e.key.sequence ≤ first)
    (hnumber : ∀ g ∈ vs.current.liveFiles, g.number < vs.nextFileNumber) :
    vs.current.AcceptsTables tables first news := by
  have hmem : ∀ n ∈ news, ∀ e ∈ n.entries, e ∈ batchesEntries bs := by
    intro n hn e he
    rw [(hnew n hn).1] at he
    exact mem_memTableOf.mp he
  have hone : ∀ n ∈ news, ∀ n' ∈ news, n = n' := by
    intro n hn n' hn'
    match news, hlen with
    | [_], _ => rw [List.mem_singleton.mp hn, List.mem_singleton.mp hn']
  refine ⟨fun n hn => ?_, fun n hn g hg => (hnumber g hg).trans_le (hadds.number_ge n hn),
    hadds.numbers, hadds.holds, hold, fun n hn e he => (hbs.sequence_range hmax (hmem n hn e he)).1,
    fun n hn n' hn' e he e' he' heq => ⟨hone n hn n' hn', ?_⟩, fun n hn hl => ⟨fun g hg => ?_, ?_⟩⟩
  · have := memTableLevel_le (some vs.current) n.file.smallest.userKey n.file.largest.userKey
    rw [← (hnew n hn).2] at this
    unfold kMaxMemCompactLevel at this
    unfold kNumLevels
    omega
  · exact hbs.eq_of_sequence hmax (hmem n hn e he) (hmem n' hn' e' he') heq
  · exact not_meets_of_le_memTableLevel h.wf hl (hnew n hn).2.le hg
  · exact fun n' hn' _ => hone n' hn' n hn

omit [Inhabited V] in
/-- A table that is not in the way of the compaction in flight lies outside its inputs. -/
theorem Db.FlushClear.outsideInputs {db : Db K V} (hclear : db.FlushClear) {n : NewTable K V}
    (himm : db.imm = some n.entries) (hholds : n.file.Holds n.entries) {st : CompactionState K V}
    (hst : db.compacting = some st)
    (hlevel : memTableLevel (some db.versions.current) n.file.smallest.userKey
      n.file.largest.userKey = st.compaction.level + 1) :
    st.compaction.OutsideInputs n.file := by
  obtain ⟨first, hfirst, hfk⟩ := Option.map_eq_some_iff.mp hholds.smallest
  obtain ⟨last, hlast, hlk⟩ := Option.map_eq_some_iff.mp hholds.largest
  refine Compaction.outsideInputs_of_not_spans ?_
  rw [← hfk, ← hlk] at hlevel ⊢
  exact hclear _ himm st hst first hfirst last hlast hlevel

omit [Inhabited V] in
/-- The record of a flush keeps the manifest a description of the version set. -/
theorem ManifestDescribes.addTables {comparator : Slice} {manifest : List (VersionEdit K)}
    {vs : VersionSet K} {tables : Tables K V} {nextFile recorded bound : ℕ}
    (h : ManifestDescribes comparator manifest vs nextFile recorded) (hlevels : vs.current.WellFormed)
    {w : TableWriter K V} {news : List (NewTable K V)}
    (hadds : TableWriter.Adds ⟨vs, tables, {}⟩ w news)
    (hacc : vs.current.AcceptsTables tables bound news) {edit : VersionEdit K}
    (hnew : edit.newFiles = news.map fun n => (n.level, n.file)) (hc : edit.comparator = none)
    (hfits : edit.Fits w.versions.current) :
    ManifestDescribes comparator (manifest ++ [w.versions.completeEdit edit])
      (w.versions.logAndApply edit) w.versions.nextFileNumber w.versions.lastSequence := by
  have hversions := hadds.versions
  have hnle := hadds.next_le
  dsimp only at hversions hnle
  have hcur : w.versions.current = vs.current := by rw [hversions]
  have hmono : ManifestDescribes comparator manifest w.versions nextFile recorded := by
    refine h.mono (by rw [hcur]) ?_ ?_ hnle ?_
    · rw [hversions]
    · rw [hversions]
    · rw [hversions]
  refine hmono.logAndApply hc (hcur ▸ hlevels.levels) hfits ?_
  exact hacc.addsTo hnew h.number_lt
    (fun n hn => h.nextFile_le.trans (hadds.number_ge n hn)) hadds.number_lt

/-- After a flush the log of the memtable that was compacted is not needed any more. -/
theorem Db.Inv.flushed_oldLogs {o : DbOptions K V} {db : Db K V} {m : Marks} (h : db.Inv o m)
    {imm : List (Entry K V)} (himm : db.imm = some imm) (w : TableWriter K V) :
    (db.flushed w).oldLogs = [] := by
  have hlogged := h.imm
  unfold Db.ImmLogged at hlogged
  rw [himm] at hlogged
  obtain ⟨number, bs, hold, -, -, hge, hlt⟩ := hlogged
  refine Db.deleteObsoleteFiles_oldLogs fun l hl => ?_
  obtain rfl : l = (number, bs) := List.mem_singleton.mp (hold ▸ hl)
  have hpos := h.logNumber_pos
  show number < db.logFileNumber ∧ number ≠ 0
  omega

/-- `CompactMemTable` writes the memtable, and keeps the invariant if the table is not in the way of
the compaction in flight. -/
theorem Db.Inv.compactMemTable {o : DbOptions K V} {db db' : Db K V} {m : Marks} (h : db.Inv o m)
    (hstep : db.compactMemTable o = some db') :
    ∃ imm news, db.Flushes m imm news db' ∧ (db.FlushClear → ∃ m', db'.Inv o m') := by
  obtain ⟨imm, himm, rfl⟩ := Db.compactMemTable_eq_some hstep
  have hlogged := h.imm
  unfold Db.ImmLogged at hlogged
  rw [himm] at hlogged
  obtain ⟨number, bs, -, rfl, hbs, -, -⟩ := hlogged
  have hmax : m.switched ≤ kMaxSequenceNumber := h.log.le.trans h.sequence_le
  obtain ⟨news, hadds, hlen, hne, hnew⟩ := TableWriter.writeLevel0Table_adds o
    ⟨db.versions, db.tables, {}⟩ (hbs.keySorted hmax) (some db.versions.current)
  have hdel := h.flushed_oldLogs himm (TableWriter.writeLevel0Table o
    ⟨db.versions, db.tables, {}⟩ (memTableOf bs) (some db.versions.current))
  generalize TableWriter.writeLevel0Table o ⟨db.versions, db.tables, {}⟩ (memTableOf bs)
    (some db.versions.current) = w at *
  have hnumber : ∀ g ∈ db.versions.current.liveFiles, g.number < db.versions.nextFileNumber := by
    rintro g ⟨l, hg⟩
    exact (h.manifest.number_lt g (h.manifest.mem_manifestFiles hg)).trans_le h.manifest.nextFile_le
  have hacc := h.layout.acceptsFlush hadds hlen hnew hbs hmax h.stored hnumber
  -- The edit, on the version set in which only the counter has moved.
  have hversions := hadds.versions
  have hnle := hadds.next_le
  have hedit := hadds.edit
  dsimp only at hversions hnle hedit
  have hcur : w.versions.current = db.versions.current := by rw [hversions]
  generalize he : ({ w.edit with
    prevLogNumber := some 0, logNumber := some db.logFileNumber } : VersionEdit K) = edit
  have heq : edit.newFiles = news.map fun n => (n.level, n.file) := by
    rw [← he, hedit]
    rfl
  have hlay : w.versions.current.Layout db.tables := hcur ▸ h.layout
  obtain ⟨hfits, hlayout, hgains⟩ := hlay.addTables (hcur ▸ hacc) heq (by rw [← he, hedit])
    (fun g hg => hadds.tables_old g.number (hnumber g (hcur ▸ hg))) hadds.tables_new
  rw [hcur] at hgains
  refine ⟨memTableOf bs, news, ⟨himm, ⟨bs, rfl, hbs⟩, hne, hlen, hnew, hacc, ?_, ?_⟩, fun hclear => ?_⟩
  · rw [← he] at hgains
    exact hgains
  · refine ⟨rfl, rfl, rfl, rfl, ?_⟩
    show w.versions.lastSequence = _
    rw [hversions]
  have hdesc := h.manifest.addTables h.layout.wf hadds hacc heq (by rw [← he, hedit]) hfits
  have hlog : (w.versions.logAndApply edit).logNumber = db.logFileNumber := by rw [← he]; rfl
  have hprev : (w.versions.logAndApply edit).prevLogNumber = 0 := by rw [← he]; rfl
  have hlast : (w.versions.logAndApply edit).lastSequence = db.versions.lastSequence := by
    show w.versions.lastSequence = _
    rw [hversions]
  refine ⟨⟨m.switched, m.switched, w.versions.nextFileNumber, w.versions.lastSequence⟩, ?_⟩
  have hstored : ∀ e ∈ (w.versions.logAndApply edit).current.contents w.tables,
      e.key.sequence ≤ m.switched := by
    intro e he
    rcases hgains.mem_contents.mp he with he | ⟨n, hn, he⟩
    · exact (h.stored e he).trans hbs.le
    · rw [(hnew n hn).1] at he
      exact (hbs.sequence_range hmax (mem_memTableOf.mp he)).2
  subst he
  exact
    { layout := hlayout
      manifest := hdesc
      stored := hstored
      flushed_le := by
        show m.switched ≤ w.versions.lastSequence
        rw [hversions]
        exact h.log.le
      imm := ⟨hdel, rfl⟩
      mem := h.mem
      log := hlast.symm ▸ h.log
      logNumber_pos := hlog.symm ▸ h.logNumber_pos.trans_le h.logNumber_le
      logNumber_le := le_of_eq hlog
      logFile_lt := h.logFile_lt.trans_le hnle
      prevLogNumber := hprev
      sequence_le := hlast.symm ▸ h.sequence_le
      compacting := fun st hst => (h.compacting st hst).gain
        (fun l g hg => (hgains.mem_iff l g).mpr (Or.inl hg))
        (fun g hg => by
          rcases (hgains.mem_iff _ g).mp hg with hg | ⟨n, hn, hl, rfl⟩
          · exact Or.inl hg
          · exact Or.inr (hclear.outsideInputs ((hnew n hn).1 ▸ himm) (hadds.holds n hn) hst
              ((hnew n hn).2.symm.trans hl)))
        (fun g hg => hgains.tables_old g hg) hnle
        (fun f hf => by
          rcases mem_manifestFiles_append.mp hf with hf | ⟨l, hf⟩
          · exact Or.inl hf
          · obtain ⟨n, hn, hnf⟩ := List.mem_map.mp (heq ▸ hf)
            obtain ⟨-, rfl⟩ := Prod.mk.inj hnf
            exact Or.inr (hadds.number_ge n hn)) }

/-! ## Compactions -/

/-- An edit that leaves the logs alone keeps the invariant, while no compaction is in flight. -/
theorem Db.Inv.logAndApply {o : DbOptions K V} {db : Db K V} {m : Marks} (h : db.Inv o m)
    (hnone : db.compacting = none) {edit : VersionEdit K} {tables : Tables K V}
    (hc : edit.comparator = none) (hlog : edit.logNumber = none) (hprev : edit.prevLogNumber = none)
    (hfits : edit.Fits db.versions.current)
    (hadds : edit.AddsTo (manifestFiles db.manifest) db.versions.nextFileNumber)
    (hlayout : (db.versions.logAndApply edit).current.Layout tables)
    (hstored : ∀ e ∈ (db.versions.logAndApply edit).current.contents tables,
      e ∈ db.versions.current.contents db.tables) :
    ({ db with tables := tables }.logAndApply edit).Inv o
      { m with nextFile := db.versions.nextFileNumber, recorded := db.versions.lastSequence } := by
  have hlogn : (db.versions.logAndApply edit).logNumber = db.versions.logNumber := by
    show edit.logNumber.getD _ = _
    rw [hlog]
    rfl
  have hprevn : (db.versions.logAndApply edit).prevLogNumber = db.versions.prevLogNumber := by
    show edit.prevLogNumber.getD _ = _
    rw [hprev]
    rfl
  exact
    { h with
      layout := hlayout
      manifest := h.manifest.logAndApply hc h.layout.wf.levels hfits hadds
      stored := fun e he => h.stored e (hstored e he)
      flushed_le := h.flushed_le.trans h.manifest.lastSequence_le
      imm := h.imm.congr rfl rfl hlogn rfl
      logNumber_pos := hlogn.symm ▸ h.logNumber_pos
      logNumber_le := hlogn.symm ▸ h.logNumber_le
      prevLogNumber := hprevn.trans h.prevLogNumber
      compacting := fun st hst => by
        rw [show db.compacting = some st from hst] at hnone
        simp at hnone }

/-- `DeleteObsoleteFiles` keeps the log of the memtable that is being compacted. -/
theorem Db.Inv.deleteObsoleteFiles {o : DbOptions K V} {db : Db K V} {m : Marks} (h : db.Inv o m) :
    db.deleteObsoleteFiles.Inv o m := by
  have hkeep : db.deleteObsoleteFiles.oldLogs = db.oldLogs := by
    have himm := h.imm
    unfold Db.ImmLogged at himm
    refine List.filter_eq_self.mpr fun l hl => ?_
    split at himm
    · rw [himm.1] at hl
      simp at hl
    · obtain ⟨number, bs, hold, -, -, hge, -⟩ := himm
      rw [hold] at hl
      rw [List.mem_singleton.mp hl]
      simp [hge]
  rwa [show db.deleteObsoleteFiles = db by
    unfold Db.deleteObsoleteFiles at hkeep ⊢
    dsimp only at hkeep
    rw [hkeep]]

/-- The invariant holds with a compaction that has begun, whichever compaction of the current version
it is. -/
theorem Db.Inv.start {o : DbOptions K V} {db : Db K V} {m : Marks} (h : db.Inv o m)
    {c : Compaction K} {level : ℕ} (hset : c.SetUpFrom db.versions.current level)
    (hlevel : level + 1 < kNumLevels) (pointer : ℕ → Option (InternalKey K)) (ss : ℕ) :
    { db with
      versions := { db.versions with compactPointer := pointer }
      compacting := some (c.start db.tables ss) }.Inv o m :=
  { h with
    manifest := h.manifest.mono rfl rfl rfl (le_refl _) (le_refl _)
    compacting := fun st hst => by
      obtain rfl := Option.some.inj hst
      have hlive := hset.liveIn hlevel
      exact ⟨hlive, h.layout.makeInputIterator_keySorted hlive (hset.nodup h.layout),
        ⟨[], rfl, rfl⟩, CutState.sound_nil _ _⟩ }

/-- A trivial move takes its file from the level to the next one, changes no other file, and keeps the
invariant. -/
theorem Db.Inv.move {o : DbOptions K V} {db : Db K V} {m : Marks} (h : db.Inv o m)
    (hnone : db.compacting = none) {c : Compaction K} {level : ℕ}
    (hset : c.SetUpFrom db.versions.current level) (hlevel : level + 1 < kNumLevels)
    {f : FileMetaData K} (h0 : c.inputs0 = [f]) (h1 : c.inputs1 = [])
    (pointer : ℕ → Option (InternalKey K)) :
    (∀ l g, g ∈ (db.versions.logAndApply (c.moveEdit f)).current.files l ↔
        (g ∈ db.versions.current.files l ∧ g ≠ f) ∨ (l = c.level + 1 ∧ g = f)) ∧
      ∃ m', ({ db with versions := { db.versions with compactPointer := pointer } }.logAndApply
        (c.moveEdit f)).Inv o m' := by
  have hlive := hset.liveIn hlevel
  have hf : f ∈ db.versions.current.files c.level := hlive.inputs0 f (by rw [h0]; simp)
  obtain ⟨hfits, hlayout, hmem⟩ := h.layout.move hlive h0 h1
  have hmanf := h.manifest.mem_manifestFiles hf
  have hedit : (c.moveEdit f).comparator = none ∧ (c.moveEdit f).logNumber = none ∧
      (c.moveEdit f).prevLogNumber = none ∧ (c.moveEdit f).newFiles = [(c.level + 1, f)] := by
    obtain ⟨key, hkey⟩ := hset.edit
    unfold Compaction.moveEdit
    rw [hkey]
    exact ⟨rfl, rfl, rfl, rfl⟩
  obtain ⟨hcomp, hlog, hprev, hnew⟩ := hedit
  have hadds : (c.moveEdit f).AddsTo (manifestFiles db.manifest) db.versions.nextFileNumber := by
    have hone : ∀ l g, (l, g) ∈ (c.moveEdit f).newFiles → g = f := by
      intro l g hg
      rw [hnew, List.mem_singleton] at hg
      exact congrArg Prod.snd hg
    refine ⟨fun l g hg => Or.inl ?_, ?_, fun l g hg => ?_⟩
    · rw [hone l g hg]
      exact hmanf
    · rintro a ⟨l, ha⟩ b ⟨l', hb⟩ -
      rw [hone l a ha, hone l' b hb]
    · rw [hone l g hg]
      exact (h.manifest.number_lt f hmanf).trans_le h.manifest.nextFile_le
  refine ⟨hmem, _, (h.movePointer pointer).logAndApply hnone hcomp hlog hprev hfits hadds hlayout ?_⟩
  rintro e ⟨l, g, hg, he⟩
  rcases (hmem l g).mp hg with ⟨hg, -⟩ | ⟨-, rfl⟩
  · exact ⟨l, g, hg, he⟩
  · exact ⟨c.level, g, hf, he⟩

/-- A round of the loop of a compaction keeps the invariant: only the compaction and the counter of
file numbers change. -/
theorem Db.Inv.workCompaction {o : DbOptions K V} {db db' : Db K V} {m : Marks} (h : db.Inv o m)
    (hstep : db.workCompaction o = some db') : db'.Inv o m := by
  unfold Db.workCompaction at hstep
  split at hstep
  · simp at hstep
  · next st hst =>
    split_ifs at hstep with hempty
    obtain rfl := Option.some.inj hstep
    have hfl := h.compacting st hst
    -- The counter is not the number of any file.
    have hun : ∀ f ∈ manifestFiles db.manifest, f.number ≠ db.versions.nextFileNumber := by
      intro f hf
      have := h.manifest.number_lt f hf
      have := h.manifest.nextFile_le
      omega
    obtain ⟨hsound, hle⟩ := CompactionState.workStep_sound hfl.cutting hun o.sizes
    exact
      { h with
        manifest := h.manifest.mono rfl rfl rfl hle (le_refl _)
        logFile_lt := h.logFile_lt.trans_le hle
        compacting := fun st' hst' => by
          obtain rfl := Option.some.inj hst'
          obtain ⟨done, hdone, hprog⟩ := hfl.progress
          cases hin : st.input with
          | nil => simp [hin] at hempty
          | cons e es =>
            obtain ⟨hrest, hcomp, -, -⟩ :=
              CompactionState.workStep_cons o.sizes hin db.versions.nextFileNumber
            refine ⟨hcomp.symm ▸ hfl.live, hcomp.symm ▸ hfl.sorted, ⟨done ++ [e], ?_,
              hprog.workStep hin o.sizes db.versions.nextFileNumber⟩, hsound⟩
            rw [hcomp, hrest, hdone, hin]
            simp }

omit [Inhabited V] in
/-- What a compaction in flight that has read its whole input installs. -/
theorem CompactionState.InFlight.finalOutputs {st : CompactionState K V} {db : Db K V}
    (h : st.InFlight db) (hin : st.input = []) (sizes : TableSizes K V)
    (hlive : ∀ g ∈ db.versions.current.liveFiles, g ∈ manifestFiles db.manifest) :
    st.compaction.Produces db.versions.current db.tables (st.finalOutputs sizes) ∧
      (st.finalOutputs sizes).flatMap (·.2) =
        st.compaction.kept st.smallestSnapshot (st.compaction.makeInputIterator db.tables) ∧
      ∀ out ∈ st.finalOutputs sizes, out.1.number < db.versions.nextFileNumber ∧
        ∀ f ∈ manifestFiles db.manifest, f.number ≠ out.1.number := by
  obtain ⟨done, hdone, hprog⟩ := h.progress
  rw [hin, List.append_nil] at hdone
  have hsound := h.cutting.finishOutput sizes
  have hkept := hprog.finalOutputs sizes
  rw [← hdone] at hkept
  -- The numbers of the outputs are among those of the loop.
  have hnumber : ∀ out ∈ st.finalOutputs sizes,
      out.1.number ∈ (st.cutting.finishOutput sizes).numbers := fun out hout =>
    List.mem_append_left _ (List.mem_map_of_mem (f := fun o => o.1.number) hout)
  have hsub := st.compaction.kept_sublist st.smallestSnapshot
    (st.compaction.makeInputIterator db.tables)
  refine ⟨⟨hsound.outputs, ?_, ?_, ?_, ?_⟩, hkept, fun out hout => ⟨?_, ?_⟩⟩
  · rw [hkept]
    exact List.Pairwise.sublist hsub h.sorted
  · exact (List.pairwise_append.mp hsound.numbers).1
  · exact fun out hout g hg => hsound.unused _ (hnumber out hout) g (hlive g hg)
  · intro out hout e he
    have hmem : e ∈ (st.finalOutputs sizes).flatMap (·.2) := List.mem_flatMap.mpr ⟨out, hout, he⟩
    rw [hkept] at hmem
    exact Compaction.mem_makeInputIterator.mp (hsub.subset hmem)
  · exact hsound.number_lt _ (hnumber out hout)
  · exact hsound.unused _ (hnumber out hout)

/-- What the end of a compaction does: its inputs are replaced by what the drop rules keep of
them. -/
structure Db.Finishes (db : Db K V) (st : CompactionState K V)
    (outputs : List (FileMetaData K × List (Entry K V))) (db' : Db K V) : Prop where
  /-- The compaction in flight. -/
  compacting_eq : db.compacting = some st
  /-- What it installs. -/
  produces : st.compaction.Produces db.versions.current db.tables outputs
  /-- The entries that it writes. -/
  kept : outputs.flatMap (·.2) =
    st.compaction.kept st.smallestSnapshot (st.compaction.makeInputIterator db.tables)
  /-- The current version. -/
  replaces : st.compaction.Replaces db.versions.current db.tables outputs db'.versions.current
    db'.tables
  /-- Other parts of the state. -/
  rest : db'.mem = db.mem ∧ db'.imm = db.imm ∧ db'.snapshots = db.snapshots ∧
    db'.compacting = none ∧ db'.versions.lastSequence = db.versions.lastSequence

/-- The results of a compaction are installed. -/
theorem Db.Inv.finishCompaction {o : DbOptions K V} {db db' : Db K V} {m : Marks} (h : db.Inv o m)
    (hstep : db.finishCompaction o = some db') :
    ∃ st outputs, db.Finishes st outputs db' ∧ ∃ m', db'.Inv o m' := by
  unfold Db.finishCompaction at hstep
  split at hstep
  · simp at hstep
  · next st hst =>
    split_ifs at hstep with hempty
    obtain rfl := Option.some.inj hstep
    have hfl := h.compacting st hst
    obtain ⟨hprod, hkept, hnumber⟩ := hfl.finalOutputs (List.isEmpty_iff.mp hempty) o.sizes
      fun g ⟨l, hg⟩ => h.manifest.mem_manifestFiles hg
    generalize st.finalOutputs o.sizes = outputs at *
    obtain ⟨hfits, hlayout, hrep⟩ := h.layout.install hfl.live hprod
    refine ⟨st, outputs, ⟨hst, hprod, hkept, hrep, rfl, rfl, rfl, rfl, rfl⟩,
      ⟨m.flushed, m.switched, db.versions.nextFileNumber, db.versions.lastSequence⟩, ?_⟩
    -- The edit is that of a compaction: it has new files, and no log numbers.
    have hedit : (st.compaction.resultEdit outputs).comparator = none ∧
        (st.compaction.resultEdit outputs).logNumber = none ∧
        (st.compaction.resultEdit outputs).prevLogNumber = none ∧
        (st.compaction.resultEdit outputs).newFiles =
          outputs.map fun out => (st.compaction.level + 1, out.1) := by
      obtain ⟨l, key, hkey⟩ := hfl.live.edit
      rw [st.compaction.resultEdit_eq, hkey]
      exact ⟨rfl, rfl, rfl, rfl⟩
    obtain ⟨hcomp, hlog, hprev, hnew⟩ := hedit
    have hadds : (st.compaction.resultEdit outputs).AddsTo (manifestFiles db.manifest)
        db.versions.nextFileNumber := by
      have hout : ∀ l g, (l, g) ∈ (st.compaction.resultEdit outputs).newFiles →
          l = st.compaction.level + 1 ∧ ∃ out ∈ outputs, out.1 = g := by
        intro l g hg
        rw [hnew] at hg
        obtain ⟨out, ho, heq⟩ := List.mem_map.mp hg
        exact ⟨(Prod.mk.inj heq).1.symm, out, ho, (Prod.mk.inj heq).2⟩
      refine ⟨fun l g hg => Or.inr ?_, ?_, fun l g hg => ?_⟩
      · obtain ⟨-, out, ho, rfl⟩ := hout l g hg
        exact (hnumber out ho).2
      · rintro a ⟨l, ha⟩ b ⟨l', hb⟩ hn
        rw [(hout l a ha).1] at ha
        rw [(hout l' b hb).1] at hb
        exact hfits.identify _ a ha b hb hn
      · obtain ⟨-, out, ho, rfl⟩ := hout l g hg
        exact (hnumber out ho).1
    have hidle : { db with compacting := none }.Inv o m :=
      { h with compacting := fun st hst => by simp at hst }
    exact Db.Inv.deleteObsoleteFiles (hidle.logAndApply rfl hcomp hlog hprev hfits hadds hlayout
      (hrep.contents_subset hprod hfl.live))

/-! ## Runs -/

/-- What a step must satisfy for the levels to stay disjoint: sequence numbers fit, and a memtable is
not written in the way of the compaction in flight. -/
def Db.KeepsLevels (db : Db K V) : Step K V → Prop
  | .write updates => db.versions.lastSequence + updates.length ≤ kMaxSequenceNumber
  | .compactMemTable => db.FlushClear
  | _ => True

instance (db : Db K V) : ∀ s : Step K V, Decidable (db.KeepsLevels s)
  | .write updates =>
    inferInstanceAs (Decidable (db.versions.lastSequence + updates.length ≤ kMaxSequenceNumber))
  | .compactMemTable => inferInstanceAs (Decidable db.FlushClear)
  | .get _ _ => isTrue trivial
  | .getSnapshot => isTrue trivial
  | .releaseSnapshot _ => isTrue trivial
  | .switchMemTable => isTrue trivial
  | .beginCompaction => isTrue trivial
  | .beginManual _ _ _ => isTrue trivial
  | .workCompaction => isTrue trivial
  | .finishCompaction => isTrue trivial
  | .reopen => isTrue trivial

omit [Inhabited V] in
/-- The parts of `BackgroundCompaction` before the loop. -/
theorem Db.beginCompaction_eq_some {db db' : Db K V} (h : db.beginCompaction = some db') :
    db.imm = none ∧ db.compacting = none ∧ ∃ c vs, db.versions.pickCompaction = some (c, vs) ∧
      ((∃ f, c.inputs0 = [f] ∧ c.inputs1 = [] ∧
        db' = { db with versions := vs }.logAndApply (c.moveEdit f)) ∨
      db' = { db with
        versions := vs
        compacting := some (c.start db.tables db.smallestSnapshot) }) := by
  unfold Db.beginCompaction at h
  split_ifs at h with hidle
  rw [not_or, Option.not_isSome_iff_eq_none, Option.not_isSome_iff_eq_none] at hidle
  refine ⟨hidle.1, hidle.2, ?_⟩
  split at h
  · simp at h
  · next c vs hpick =>
    refine ⟨c, vs, hpick, ?_⟩
    split at h
    · next f htriv hhead =>
      left
      unfold Compaction.isTrivialMove at htriv
      obtain ⟨hlen0, hlen1, -⟩ := of_decide_eq_true htriv
      obtain ⟨g, hg⟩ := List.length_eq_one_iff.mp hlen0
      rw [hg, List.head?_cons, Option.some.injEq] at hhead
      exact ⟨f, by rw [hg, hhead], List.length_eq_zero_iff.mp hlen1, (Option.some.inj h).symm⟩
    · exact Or.inr (Option.some.inj h).symm

omit [Inhabited V] in
/-- A manual compaction begins only when no memtable waits and no compaction is in flight, with what
`CompactRange` returns. -/
theorem Db.beginManual_eq_some {db db' : Db K V} {level : ℕ} {first last : K}
    (h : db.beginManual level first last = some db') :
    db.imm = none ∧ db.compacting = none ∧ level + 1 < kNumLevels ∧ ∃ c vs,
      db.versions.compactRange level (.pack first kMaxSequenceNumber kValueTypeForSeek)
        (.pack last 0 .deletion) = some (c, vs) ∧
      db' = { db with
        versions := vs
        compacting := some (c.start db.tables db.smallestSnapshot) } := by
  unfold Db.beginManual at h
  split_ifs at h with hidle
  rw [not_or, not_or, Option.not_isSome_iff_eq_none, Option.not_isSome_iff_eq_none] at hidle
  refine ⟨hidle.1, hidle.2.1, not_le.mp hidle.2.2, ?_⟩
  split at h
  · simp at h
  · next c vs hrange => exact ⟨c, vs, hrange, (Option.some.inj h).symm⟩

/-- Every step that keeps the levels keeps the invariant, with marks that fit. -/
theorem Db.Inv.step {o : DbOptions K V} {db db' : Db K V} {m : Marks} (h : db.Inv o m)
    {s : Step K V} (hkeeps : db.KeepsLevels s) (hstep : db.step o s = some db') :
    ∃ m', db'.Inv o m' := by
  cases s with
  | write updates =>
    obtain rfl := Option.some.inj hstep
    exact ⟨m, h.write updates hkeeps⟩
  | get key snapshot =>
    simp only [Db.step] at hstep
    split_ifs at hstep
    obtain rfl := Option.some.inj hstep
    exact ⟨m, h.get key snapshot⟩
  | getSnapshot =>
    obtain rfl := Option.some.inj hstep
    exact ⟨m, h.getSnapshot⟩
  | releaseSnapshot snapshot =>
    obtain rfl := Option.some.inj hstep
    exact ⟨m, h.releaseSnapshot snapshot⟩
  | switchMemTable => exact ⟨_, h.switchMemTable hstep⟩
  | compactMemTable =>
    obtain ⟨imm, news, -, hinv⟩ := h.compactMemTable hstep
    exact hinv hkeeps
  | beginCompaction =>
    obtain ⟨-, hnone, c, vs, hpick, hcase⟩ := Db.beginCompaction_eq_some hstep
    obtain ⟨hset, hlevel, pointer, rfl⟩ := h.layout.pickCompaction_setUpFrom hpick
    rcases hcase with ⟨f, h0, h1, rfl⟩ | rfl
    · exact (h.move hnone hset hlevel h0 h1 pointer).2
    · exact ⟨m, h.start hset hlevel pointer _⟩
  | beginManual level first last =>
    obtain ⟨-, -, hlevel, c, vs, hrange, rfl⟩ := Db.beginManual_eq_some hstep
    obtain ⟨hset, pointer, rfl⟩ := h.layout.compactRange_setUpFrom hrange
    exact ⟨m, h.start hset hlevel pointer _⟩
  | workCompaction => exact ⟨m, h.workCompaction hstep⟩
  | finishCompaction =>
    obtain ⟨st, outputs, -, hinv⟩ := h.finishCompaction hstep
    exact hinv
  -- The marks of the recovered database start anew.
  | reopen =>
    obtain ⟨db₂, news, m', hopen, -, -, -, -, -, -, -, -, hinv⟩ := h.openable.openDb_inv
    have heq : db' = db₂ := by
      have : (openDb o db.manifest db.tables (db.oldLogs ++ [(db.logFileNumber, db.log)])).toOption =
          some db' := hstep
      rw [hopen] at this
      exact (Option.some.inj this).symm
    exact ⟨m', heq ▸ hinv⟩

/-- A run whose steps keep the levels keeps the invariant, by induction on its steps. -/
theorem Db.Inv.run {o : DbOptions K V} : ∀ {steps : List (Step K V)} {db db' : Db K V} {m : Marks},
    db.Inv o m → db.RunMeets o Db.KeepsLevels steps → db.run o steps = some db' →
    ∃ m', db'.Inv o m'
  | [], db, db', m, h, _, hrun => by
    obtain rfl := Option.some.inj hrun
    exact ⟨m, h⟩
  | s :: steps, db, db', m, h, hmeets, hrun => by
    obtain ⟨db₁, hstep, hrest⟩ := Option.bind_eq_some_iff.mp hrun
    obtain ⟨m₁, h₁⟩ := h.step hmeets.1 hstep
    exact h₁.run (hmeets.2 db₁ hstep) hrest

/-- Creating a database succeeds and establishes the invariant. -/
theorem createDb_inv (o : DbOptions K V) : ∃ db m, createDb o = .ok db ∧ db.Inv o m := by
  obtain ⟨db, news, m, hopen, -, -, -, -, -, -, -, -, hinv⟩ := (openable_create o).openDb_inv
  exact ⟨db, m, hopen, hinv⟩

end LevelDb
