import LevelDb.Db.MemTable
import LevelDb.Version.Layout

/-!
# The tables of memtables

What `WriteLevel0Table` and the replay of log files add: a list of new tables with fresh numbers
(`TableWriter.Adds`). A replay of consecutive batches writes exactly their entries, newer entries into
files with larger numbers (`Recovery.replay_spec`).
-/

namespace LevelDb

open Lib

variable {K V : Type} [LinearOrder K]

/-- A writer has become another one by adding tables with new numbers to its edit. -/
structure TableWriter.Adds (w w' : TableWriter K V) (news : List (NewTable K V)) : Prop where
  /-- The tables are in the edit. -/
  edit : w'.edit = { w.edit with
    newFiles := w.edit.newFiles ++ news.map fun n => (n.level, n.file) }
  /-- Only the counter of the version set has changed. -/
  versions : w'.versions = { w.versions with nextFileNumber := w'.versions.nextFileNumber }
  /-- The counter has grown. -/
  next_le : w.versions.nextFileNumber ≤ w'.versions.nextFileNumber
  /-- The tables are there. -/
  tables_new : ∀ n ∈ news, w'.tables n.file.number = n.entries
  /-- Tables with numbers that were in use are unchanged. -/
  tables_old : ∀ i < w.versions.nextFileNumber, w'.tables i = w.tables i
  /-- Numbers increase. -/
  numbers : news.Pairwise fun n m => n.file.number < m.file.number
  /-- Numbers are new. -/
  number_ge : ∀ n ∈ news, w.versions.nextFileNumber ≤ n.file.number
  /-- Numbers come from the counter. -/
  number_lt : ∀ n ∈ news, n.file.number < w'.versions.nextFileNumber
  /-- Metadata fit the tables. -/
  holds : ∀ n ∈ news, n.file.Holds n.entries

/-- A writer that has written nothing has added no tables. -/
theorem TableWriter.Adds.refl (w : TableWriter K V) : w.Adds w [] :=
  ⟨by simp, rfl, le_refl _, by simp, fun _ _ => rfl, List.Pairwise.nil, by simp, by simp, by simp⟩

/-- Tables are added one after the other. -/
theorem TableWriter.Adds.trans {w w' w'' : TableWriter K V} {news news' : List (NewTable K V)}
    (h : w.Adds w' news) (h' : w'.Adds w'' news') : w.Adds w'' (news ++ news') := by
  refine ⟨?_, ?_, h.next_le.trans h'.next_le, ?_, ?_, ?_, ?_, ?_, ?_⟩
  · rw [h'.edit, h.edit]
    simp
  · rw [h'.versions, h.versions]
  · intro n hn
    rcases List.mem_append.mp hn with hn | hn
    · rw [h'.tables_old _ (h.number_lt n hn)]
      exact h.tables_new n hn
    · exact h'.tables_new n hn
  · intro i hi
    rw [h'.tables_old i (hi.trans_le h.next_le), h.tables_old i hi]
  · exact List.pairwise_append.mpr ⟨h.numbers, h'.numbers, fun n hn m hm =>
      (h.number_lt n hn).trans_le (h'.number_ge m hm)⟩
  · intro n hn
    rcases List.mem_append.mp hn with hn | hn
    · exact h.number_ge n hn
    · exact h.next_le.trans (h'.number_ge n hn)
  · intro n hn
    rcases List.mem_append.mp hn with hn | hn
    · exact (h.number_lt n hn).trans_le h'.next_le
    · exact h'.number_lt n hn
  · intro n hn
    rcases List.mem_append.mp hn with hn | hn
    · exact h.holds n hn
    · exact h'.holds n hn

/-- `WriteLevel0Table` on a sorted memtable: one table with its entries, or none if there are
none. -/
theorem TableWriter.writeLevel0Table_adds (o : DbOptions K V) (w : TableWriter K V)
    {mem : List (Entry K V)} (hmem : KeySorted mem) (base : Option (Version K)) :
    ∃ news, w.Adds (w.writeLevel0Table o mem base) news ∧ news.length ≤ 1 ∧
      (mem ≠ [] → news ≠ []) ∧
      ∀ n ∈ news, n.entries = mem ∧
        n.level = memTableLevel base n.file.smallest.userKey n.file.largest.userKey := by
  cases hfirst : mem.head? with
  | none =>
    refine ⟨[], ?_, by simp, fun hne => absurd (List.head?_eq_none_iff.mp hfirst) hne, by simp⟩
    unfold writeLevel0Table
    simp only [hfirst]
    exact ⟨by simp, rfl, Nat.le_succ _, by simp, fun _ _ => rfl, List.Pairwise.nil, by simp, by simp,
      by simp⟩
  | some first =>
    cases hlast : mem.getLast? with
    | none =>
      rw [List.getLast?_eq_none_iff.mp hlast] at hfirst
      simp at hfirst
    | some last =>
      refine ⟨[⟨memTableLevel base first.key.userKey last.key.userKey,
        ⟨w.versions.nextFileNumber, o.sizes.finished mem, first.key, last.key⟩, mem⟩], ?_, by simp,
        by simp, by simp⟩
      unfold writeLevel0Table
      simp only [hfirst, hlast]
      refine ⟨rfl, rfl, Nat.le_succ _, by simp, fun i hi => Function.update_of_ne hi.ne _ _,
        List.pairwise_singleton _ _, by simp, by simp, ?_⟩
      intro n hn
      rw [List.mem_singleton.mp hn]
      exact ⟨hmem, by simp [hfirst], by simp [hlast]⟩

/-! ## Replaying a log -/

variable [Inhabited V]

/-- New tables of level 0 that hold the entries of consecutive batches, from old to new. -/
structure NewTables (bs : List (WriteBatch K V)) (news : List (NewTable K V)) : Prop where
  /-- They go to level 0. -/
  level : ∀ n ∈ news, n.level = 0
  /-- They hold the entries of the batches. -/
  mem_iff : ∀ e, (∃ n ∈ news, e ∈ n.entries) ↔ e ∈ batchesEntries bs
  /-- Later tables are newer. -/
  newer : news.Pairwise fun n m => ∀ e ∈ n.entries, ∀ e' ∈ m.entries,
    e.key.sequence < e'.key.sequence

omit [LinearOrder K] in
/-- No tables hold the entries of no batches. -/
theorem newTables_nil : NewTables ([] : List (WriteBatch K V)) [] :=
  ⟨by simp, by simp [batchesEntries], List.Pairwise.nil⟩

omit [LinearOrder K] in
/-- Tables of consecutive batches follow each other. -/
theorem NewTables.append {bs cs : List (WriteBatch K V)} {first mid last : ℕ}
    {news news' : List (NewTable K V)} (h : NewTables bs news) (h' : NewTables cs news')
    (hbs : Consecutive first bs mid) (hcs : Consecutive mid cs last)
    (hmax : last ≤ kMaxSequenceNumber) : NewTables (bs ++ cs) (news ++ news') := by
  refine ⟨?_, ?_, ?_⟩
  · intro n hn
    rcases List.mem_append.mp hn with hn | hn
    · exact h.level n hn
    · exact h'.level n hn
  · intro e
    rw [batchesEntries, List.flatMap_append, List.mem_append]
    rw [show (e ∈ bs.flatMap batchEntries) ↔ _ from (h.mem_iff e).symm,
      show (e ∈ cs.flatMap batchEntries) ↔ _ from (h'.mem_iff e).symm]
    simp only [List.mem_append, or_and_right, exists_or]
  · refine List.pairwise_append.mpr ⟨h.newer, h'.newer, fun n hn m hm e he e' he' => ?_⟩
    have h1 := hbs.sequence_range (hcs.le.trans hmax) ((h.mem_iff e).mp ⟨n, hn, he⟩)
    have h2 := hcs.sequence_range hmax ((h'.mem_iff e').mp ⟨m, hm, he'⟩)
    omega

/-- The table of one memtable, written without a base version. -/
theorem TableWriter.writeLevel0Table_newTables (o : DbOptions K V) (w : TableWriter K V)
    {bs : List (WriteBatch K V)} {first last : ℕ} (hbs : Consecutive first bs last)
    (hmax : last ≤ kMaxSequenceNumber) :
    ∃ news, w.Adds (w.writeLevel0Table o (memTableOf bs) none) news ∧ NewTables bs news := by
  obtain ⟨news, hadds, hlen, hne, hnews⟩ :=
    w.writeLevel0Table_adds o (hbs.keySorted hmax) none
  refine ⟨news, hadds, ⟨fun n hn => (hnews n hn).2, fun e => ?_, ?_⟩⟩
  · rw [← mem_memTableOf]
    constructor
    · rintro ⟨n, hn, he⟩
      exact (hnews n hn).1 ▸ he
    · intro he
      obtain ⟨n, hn⟩ := List.exists_mem_of_ne_nil news (hne (List.ne_nil_of_mem he))
      exact ⟨n, hn, (hnews n hn).1 ▸ he⟩
  · match news, hlen with
    | [], _ => exact List.Pairwise.nil
    | [_], _ => exact List.pairwise_singleton _ _

/-- Replaying batches on top of the memtable of earlier ones writes all of them, and finds their last
sequence number. The induction is on the batches that are left. -/
theorem Recovery.replay_spec (o : DbOptions K V) {last : ℕ} (hmax : last ≤ kMaxSequenceNumber) :
    ∀ (bs : List (WriteBatch K V)) (mem : Option (List (WriteBatch K V))) (r : Recovery K V)
      {first mid : ℕ}, Consecutive first (mem.getD []) mid → Consecutive mid bs last →
    ∃ news, r.writer.Adds (r.replay o bs (mem.map memTableOf)).writer news ∧
      NewTables (mem.getD [] ++ bs) news ∧
      (r.replay o bs (mem.map memTableOf)).maxSequence =
        bs.foldl (fun m b => max m (b.sequence + b.count - 1)) r.maxSequence
  | [], none, r, first, mid, _, _ => ⟨[], TableWriter.Adds.refl _, newTables_nil, rfl⟩
  | [], some cs, r, first, mid, hcs, hbs => by
    obtain rfl : mid = last := hbs
    obtain ⟨news, hadds, hnews⟩ := r.writer.writeLevel0Table_newTables o hcs hmax
    exact ⟨news, hadds, by simpa using hnews, rfl⟩
  | b :: bs, mem, r, first, mid, hcs, hbs => by
    have hb : Consecutive mid [b] (mid + b.count) := ⟨hbs.1, rfl⟩
    have hcb := hcs.append hb
    have hbound : mid + b.count ≤ kMaxSequenceNumber := hbs.2.le.trans hmax
    have hmem : insertInto ((mem.map memTableOf).getD []) b = memTableOf (mem.getD [] ++ [b]) := by
      rw [memTableOf_append]
      cases mem <;> rfl
    rw [replay]
    dsimp only
    rw [hmem]
    split_ifs
    · -- The memtable is big enough to be written.
      set r' : Recovery K V :=
        { r with maxSequence := max r.maxSequence (b.sequence + b.count - 1) } with hr'
      obtain ⟨news, hadds, hnews⟩ := r'.writer.writeLevel0Table_newTables o hcb hbound
      obtain ⟨news', hadds', hnews', hseq⟩ := replay_spec o hmax bs none
        { r' with writer := r'.writer.writeLevel0Table o (memTableOf (mem.getD [] ++ [b])) none }
        (show Consecutive (mid + b.count) [] (mid + b.count) from rfl) hbs.2
      refine ⟨news ++ news', hadds.trans hadds', ?_, hseq⟩
      have := hnews.append hnews' hcb hbs.2 hmax
      simpa using this
    · obtain ⟨news, hadds, hnews, hseq⟩ := replay_spec o hmax bs (some (mem.getD [] ++ [b]))
        { r with maxSequence := max r.maxSequence (b.sequence + b.count - 1) } hcb hbs.2
      exact ⟨news, hadds, by simpa using hnews, hseq⟩

omit [LinearOrder K] in
/-- `MarkFileNumberUsed` only moves the counter, past the number. -/
theorem VersionSet.markFileNumberUsed_spec (vs : VersionSet K) (number : ℕ) :
    vs.markFileNumberUsed number =
        { vs with nextFileNumber := (vs.markFileNumberUsed number).nextFileNumber } ∧
      vs.nextFileNumber ≤ (vs.markFileNumberUsed number).nextFileNumber ∧
      number < (vs.markFileNumberUsed number).nextFileNumber := by
  unfold markFileNumberUsed
  split_ifs with h
  · exact ⟨rfl, h.trans (Nat.le_succ _), Nat.lt_succ_self _⟩
  · exact ⟨rfl, le_refl _, not_le.mp h⟩

omit [Inhabited V] in
/-- The counter of a writer may move. -/
theorem TableWriter.Adds.moveCounter {w w' : TableWriter K V} {news : List (NewTable K V)}
    (h : w.Adds w' news) {vs : VersionSet K}
    (hvs : vs = { w'.versions with nextFileNumber := vs.nextFileNumber })
    (hle : w'.versions.nextFileNumber ≤ vs.nextFileNumber) :
    w.Adds { w' with versions := vs } news := by
  refine ⟨h.edit, ?_, h.next_le.trans hle, h.tables_new, h.tables_old, h.numbers, h.number_ge,
    fun n hn => (h.number_lt n hn).trans_le hle, h.holds⟩
  show vs = { w.versions with nextFileNumber := vs.nextFileNumber }
  rw [hvs, h.versions]

/-- The loop of `Recover` over log files whose batches are consecutive. -/
theorem Recovery.recoverLogFiles_spec (o : DbOptions K V) {last : ℕ}
    (hmax : last ≤ kMaxSequenceNumber) :
    ∀ (logs : List (ℕ × List (WriteBatch K V))) (r : Recovery K V) {first : ℕ},
    Consecutive first (logs.flatMap (·.2)) last →
    ∃ news, r.writer.Adds (logs.foldl (recoverLogFile o) r).writer news ∧
      NewTables (logs.flatMap (·.2)) news ∧
      (logs.foldl (recoverLogFile o) r).maxSequence =
        (logs.flatMap (·.2)).foldl (fun m b => max m (b.sequence + b.count - 1)) r.maxSequence ∧
      ∀ l ∈ logs, l.1 < (logs.foldl (recoverLogFile o) r).writer.versions.nextFileNumber
  | [], r, first, _ => ⟨[], TableWriter.Adds.refl _, newTables_nil, rfl, by simp⟩
  | log :: logs, r, first, h => by
    rw [List.flatMap_cons] at h
    obtain ⟨mid, hlog, hlogs⟩ := consecutive_append_iff.mp h
    have hmid : mid ≤ kMaxSequenceNumber := hlogs.le.trans hmax
    obtain ⟨news, hadds, hnews, hseq⟩ := replay_spec o hmid log.2 none r
      (show Consecutive first [] first from rfl) hlog
    obtain ⟨hused, hle, hlt⟩ :=
      (r.replay o log.2 none).writer.versions.markFileNumberUsed_spec log.1
    obtain ⟨news', hadds', hnews', hseq', hnums⟩ :=
      recoverLogFiles_spec o hmax logs (r.recoverLogFile o log) hlogs
    have hone : r.writer.Adds (r.recoverLogFile o log).writer news := hadds.moveCounter hused hle
    refine ⟨news ++ news', hone.trans hadds', ?_, ?_, ?_⟩
    · exact hnews.append hnews' hlog hlogs hmax
    · rw [List.foldl_cons, hseq', List.flatMap_cons, List.foldl_append]
      congr 1
    · intro l hl
      rcases List.mem_cons.mp hl with rfl | hl
      · exact hlt.trans_le hadds'.next_le
      · exact hnums l hl

end LevelDb
