import LevelDb.Db.SiteInvariant

/-!
# The steps of an open database

Each step of the background thread keeps what a crash must find (`Session.Sound`). A flush, a trivial move
and the results of a compaction are compared with the same work done at once (`Db.compactMemTable`,
`Db.finishCompaction`), up to the record of `LogAndApply`.
-/

namespace LevelDb

open Lib

variable {K V : Type} [LinearOrder K] [Inhabited V]

/-! ## The outputs of the compaction in flight -/

section Outputs

variable (sizes : TableSizes K V)

omit [LinearOrder K] [Inhabited V] in
/-- Finished outputs stay when another one is finished. -/
theorem CutState.outputs_finishOutput (st : CutState K V) :
    st.outputs <+: (st.finishOutput sizes).outputs := by
  unfold CutState.finishOutput
  split
  · exact List.prefix_rfl
  · exact List.prefix_append _ _

omit [LinearOrder K] [Inhabited V] in
/-- Finished outputs stay when an entry is written. -/
theorem CutState.outputs_writeEntry (st : CutState K V) (next : ℕ) (e : Entry K V) :
    st.outputs <+: (st.writeEntry sizes next e).1.outputs := by
  unfold CutState.writeEntry
  cases st.builder with
  | none =>
    dsimp only
    split_ifs
    · exact CutState.outputs_finishOutput sizes { st with builder := some _ }
    · exact List.prefix_rfl
  | some b =>
    dsimp only
    split_ifs
    · exact CutState.outputs_finishOutput sizes { st with builder := some _ }
    · exact List.prefix_rfl

omit [Inhabited V] in
/-- Finished outputs stay when a round begins. -/
theorem Compaction.shouldStopBefore_outputs (c : Compaction K) (st : CutState K V) (key : InternalKey K) :
    (c.shouldStopBefore st key).2.outputs = st.outputs := by
  unfold Compaction.shouldStopBefore
  dsimp only
  split_ifs <;> rfl

omit [Inhabited V] in
/-- Finished outputs stay in a round of the loop. -/
theorem CompactionState.outputs_workStep (st : CompactionState K V) (next : ℕ) :
    st.cutting.outputs <+: (st.workStep sizes next).1.cutting.outputs := by
  unfold CompactionState.workStep
  cases st.input with
  | nil => exact List.prefix_rfl
  | cons e input =>
    have hstop := st.compaction.shouldStopBefore_outputs st.cutting e.key
    have hfinish := CutState.outputs_finishOutput sizes (st.compaction.shouldStopBefore st.cutting e.key).2
    rw [hstop] at hfinish
    dsimp only
    split_ifs
    · exact hfinish
    · rw [hstop]
    · exact hfinish.trans (CutState.outputs_writeEntry sizes _ next e)
    · exact hstop ▸ CutState.outputs_writeEntry sizes _ next e

omit [LinearOrder K] [Inhabited V] in
/-- The outputs that are finished are the first ones. -/
theorem CompactionState.outputs_finished (st : CompactionState K V) :
    st.cutting.outputs <+: st.finished sizes := by
  unfold CompactionState.finished
  split_ifs
  · exact CutState.outputs_finishOutput sizes st.cutting
  · exact List.prefix_rfl

omit [Inhabited V] in
/-- The outputs that are finished before a round are still the first ones after it. -/
theorem CompactionState.getElem?_workStep (st : CompactionState K V) (next : ℕ) {i : ℕ}
    (hi : i < st.cutting.outputs.length) :
    ((st.workStep sizes next).1.finished sizes)[i]? = (st.finished sizes)[i]? := by
  obtain ⟨old, hold⟩ := st.outputs_finished sizes
  obtain ⟨new, hnew⟩ := (st.outputs_workStep sizes next).trans (CompactionState.outputs_finished sizes _)
  rw [← hnew, ← hold, List.getElem?_append_left hi, List.getElem?_append_left hi]

omit [LinearOrder K] [Inhabited V] in
/-- The numbers of the finished outputs are some of those that the compaction has allocated, in their
order. -/
theorem CompactionState.finished_numbers (st : CompactionState K V) :
    ((st.finished sizes).map (·.1.number)).Sublist st.cutting.numbers := by
  unfold CompactionState.finished
  split_ifs
  · rw [← CutState.finishOutput_numbers sizes st.cutting]
    exact List.sublist_append_left _ _
  · exact List.sublist_append_left _ _

omit [LinearOrder K] [Inhabited V] in
/-- Outputs that are all there as files change nothing. -/
theorem addTables_eq_self {tables : Tables K V} : ∀ {outputs : List (FileMetaData K × List (Entry K V))},
    (∀ out ∈ outputs, tables out.1.number = out.2) → addTables tables outputs = tables
  | [], _ => rfl
  | out :: outputs, h => by
    have hfirst : Function.update tables out.1.number out.2 = tables :=
      Function.update_eq_self_iff.mpr (h out List.mem_cons_self).symm
    show addTables (Function.update tables out.1.number out.2) outputs = tables
    rw [hfirst]
    exact addTables_eq_self fun out' hout => h out' (List.mem_cons_of_mem _ hout)

end Outputs

/-! ## What table compactions keep -/

/-- The end of a compaction keeps every entry, unless the compaction has read a newer one of its key, or
the entry is a deletion marker. -/
theorem Db.Finishes.sheds {o : DbOptions K V} {db db' : Db K V} {m : Marks} {st : CompactionState K V}
    {outputs : List (FileMetaData K × List (Entry K V))} (h : db.Finishes st outputs db')
    (hinv : db.Inv o m) (wf : st.compaction.inputVersion.WellFormed)
    (hss : st.smallestSnapshot < kMaxSequenceNumber) :
    Sheds (fun e => e.key.type = .deletion ∧ e ∈ st.compaction.makeInputIterator db.tables ∧
        e ∉ outputs.flatMap (·.2))
      (db.versions.current.contents db.tables) (db'.versions.current.contents db'.tables) := by
  have hfl := hinv.compacting st h.compacting_eq
  set c := st.compaction with hc
  have hlive : ∀ e ∈ c.makeInputIterator db.tables, ∃ l, ∃ f ∈ db.versions.current.files l,
      e ∈ db.tables f.number := by
    intro e he
    obtain ⟨f, hf, he⟩ := Compaction.mem_makeInputIterator.mp he
    rcases hfl.live.mem_files hf with ⟨-, hf⟩ | ⟨-, hf⟩
    · exact ⟨_, f, hf, he⟩
    · exact ⟨_, f, hf, he⟩
  have hdist : Distinct (contents (c.makeInputIterator db.tables)) := by
    intro e he e' he' _ hseq
    obtain ⟨l, f, hf, he⟩ := hlive e he
    obtain ⟨l', f', hf', he'⟩ := hlive e' he'
    exact (hinv.layout.separate l f hf l' f' hf' e he e' he' hseq).2.2
  have hdrop : c.DropInv st.smallestSnapshot ([] ++ c.makeInputIterator db.tables) _ :=
    Compaction.DropInv.run wf hss _ [] _ (c.dropInv_nil st.smallestSnapshot)
      (c.makeInputIterator_sorted db.tables) hdist
  refine ⟨h.replaces.contents_subset h.produces hfl.live, ?_⟩
  rintro e ⟨l, f, hf, he⟩
  by_cases hinput : (l = c.level ∧ f ∈ c.inputs0) ∨ (l = c.level + 1 ∧ f ∈ c.inputs1)
  · have hread : e ∈ c.makeInputIterator db.tables :=
      Compaction.mem_makeInputIterator.mpr ⟨f, List.mem_append.mpr (hinput.imp And.right And.right), he⟩
    by_cases hkept : e ∈ outputs.flatMap (·.2)
    · obtain ⟨out, hout, he'⟩ := List.mem_flatMap.mp hkept
      exact Or.inl ⟨c.level + 1, out.1, (h.replaces.mem_iff _ _).mpr (Or.inr ⟨rfl, out, hout, rfl⟩),
        (h.replaces.tables_new out hout).symm ▸ he'⟩
    · rcases hdrop.reason e hread with hk | ⟨q, hq, hqk, hlt, -⟩ | ⟨hdel, -, -⟩
      · exact absurd (h.kept ▸ hk) hkept
      · exact Or.inr (Or.inl ⟨q, hlive q hq, hqk, hlt⟩)
      · exact Or.inr (Or.inr ⟨hdel, hread, hkept⟩)
  · rw [not_or] at hinput
    exact Or.inl ⟨l, f, (h.replaces.mem_iff l f).mpr (Or.inl ⟨hf, hinput.1, hinput.2⟩),
      (h.replaces.tables_old f ⟨l, hf⟩).symm ▸ he⟩

/-! ## Steps of the background thread -/

section Background

variable {o : DbOptions K V} {s : Session K V} {dir : Directory K V} {j : Journal K V}

/-- Where the background thread stands, and what it has built, is not part of a database. -/
theorem Session.Matches.of_background {manifest : List (VersionEdit K)} (h : s.Matches o dir manifest)
    (b : Background K) (built : ℕ) :
    { s with background := b, built := built }.Matches o dir manifest := by
  obtain ⟨oldLogs, log, m, hon⟩ := h
  exact ⟨oldLogs, log, m, ⟨hon.inv, hon.logs_eq, hon.manifest_lt⟩⟩

/-- The numbers of live files are in use. -/
theorem Session.Matches.live_lt {manifest : List (VersionEdit K)} (h : s.Matches o dir manifest) :
    ∀ g ∈ s.versions.current.liveFiles, g.number < s.versions.nextFileNumber := by
  obtain ⟨oldLogs, log, m, hon⟩ := h
  exact fun g hg => (hon.inv.manifest.live_lt g hg).trans_le hon.inv.manifest.nextFile_le

/-- The numbers of the outputs of the compaction in flight are in use, and no live file has one. -/
theorem Session.Matches.numbers {manifest : List (VersionEdit K)} (h : s.Matches o dir manifest)
    {st : CompactionState K V} (hst : s.compacting = some st) :
    st.cutting.numbers.Pairwise (· < ·) ∧ ∀ n ∈ st.cutting.numbers, n < s.versions.nextFileNumber ∧
      ∀ g ∈ s.versions.current.liveFiles, g.number ≠ n := by
  obtain ⟨oldLogs, log, m, hon⟩ := h
  have hcutting := (hon.inv.compacting st hst).cutting
  refine ⟨hcutting.numbers, fun n hn => ⟨hcutting.number_lt n hn, ?_⟩⟩
  rintro g ⟨l, hg⟩
  exact hcutting.unused n hn g (hon.inv.manifest.mem_manifestFiles hg)

/-- Tables change that the session does not name. -/
theorem Session.Matches.of_tables {manifest : List (VersionEdit K)} (h : s.Matches o dir manifest)
    {tables : Tables K V}
    (hsame : ∀ g ∈ s.versions.current.liveFiles, tables g.number = dir.tables g.number) :
    s.Matches o { dir with tables := tables } manifest := by
  obtain ⟨oldLogs, log, m, hon⟩ := h
  exact ⟨oldLogs, log, m, hon.of_files hsame rfl⟩

omit [LinearOrder K] in
/-- What is stored depends on the tables of the live files. -/
theorem Session.stored_of_tables {tables : Tables K V}
    (hsame : ∀ g ∈ s.versions.current.liveFiles, tables g.number = dir.tables g.number) :
    s.stored { dir with tables := tables } = s.stored dir := by
  unfold Session.stored
  rw [Version.contents_congr hsame]

/-- When `CompactMemTable` begins, it only allocates the number of its table, and the session stays
sound. -/
theorem Session.Sound.beginFlush (h : s.Sound o dir j) (hb : s.background = .idle) {t : Session K V}
    (hstep : s.beginFlush = some t) : t.Sound o dir j := by
  obtain ⟨hsteady, hmatch, hkeeps⟩ := (Session.sound_quiet (Or.inl hb)).mp h
  unfold Session.beginFlush at hstep
  split_ifs at hstep with hcond
  obtain rfl := Option.some.inj hstep
  refine (Session.sound_building rfl).mpr ⟨⟨hsteady.current, hsteady.outputs, hsteady.sequence_lt,
    hsteady.snapshots, hsteady.compacting, hsteady.writing⟩, hmatch.of_background _ s.built,
    ⟨rfl, rfl, hcond.1, fun st hst hin => hcond.2 ?_, fun hbuilt => by cases hbuilt⟩, hkeeps⟩
  rw [show s.compacting = some st from hst]
  exact List.isEmpty_iff.mpr hin

/-- A table that `CompactMemTable` builds belongs to no version yet, and the session stays sound. -/
theorem Session.Sound.buildTable (h : s.Sound o dir j) {number : ℕ} {base : Version K}
    (hb : s.background = .building number base false) {imm : List (Entry K V)} (himm : s.imm = some imm) :
    { s with background := .building number base true }.Sound o (dir.buildTable number imm) j := by
  obtain ⟨hsteady, hmatch, ⟨hnext, hbase, hsome, hinput, -⟩, hkeeps⟩ := (Session.sound_building hb).mp h
  -- Nothing has this number yet.
  have hsame : ∀ g ∈ s.versions.current.liveFiles,
      Function.update dir.tables number imm g.number = dir.tables g.number := fun g hg =>
    Function.update_of_ne (hmatch.live_lt g hg).ne _ _
  refine (Session.sound_building rfl).mpr ⟨{ hsteady with outputs := ?_ },
    (hmatch.of_tables hsame).of_background _ s.built, ⟨hnext, hbase, hsome, hinput, fun _ imm' himm' => ?_⟩,
    (Session.stored_of_tables hsame).symm ▸ hkeeps⟩
  · intro st hst i hi out hout
    have hmem : out.1.number ∈ st.cutting.numbers := (st.finished_numbers o.sizes).subset
      (List.mem_map_of_mem (List.mem_of_getElem? hout))
    have hlt : out.1.number < number := ((hmatch.numbers hst).2 _ hmem).1
    show Function.update dir.tables number imm out.1.number = out.2
    rw [Function.update_of_ne hlt.ne]
    exact hsteady.outputs st hst i hi out hout
  · rw [show s.imm = some imm' from himm', Option.some.injEq] at himm
    show Function.update dir.tables number imm number = imm'
    rw [Function.update_self, himm]

/-- A session in which `LogAndApply` begins is sound, if its files match it both without the record
and, after the install, with it. -/
theorem Session.sound_beginLog {edit : VersionEdit K} {cause : Cause} (hsteady : s.Steady o dir j)
    (hmatch : s.Matches o dir (dir.manifests s.versions.manifestFileNumber))
    (hinstall : (s.install edit cause).Matches o dir
      (dir.manifests s.versions.manifestFileNumber ++ [s.versions.completeEdit edit]))
    (hflush : cause = .flush → s.imm.isSome = true)
    (hsheds : Sheds (fun e => e.key.type = .deletion ∧ ∃ c ∈ s.compacted o dir cause, e ∈ c.1 ∧ e ∉ c.2)
      (s.stored dir) ((s.install edit cause).stored dir))
    (hkeeps : j.Keeps (s.stored dir)) : (s.beginLog edit cause).Sound o dir j := by
  refine (Session.sound_logging rfl).mpr ⟨⟨hsteady.current, hsteady.outputs, hsteady.sequence_lt,
    hsteady.snapshots, hsteady.compacting, hsteady.writing⟩, hmatch.of_background _ s.built, ?_, hflush, ?_,
    hkeeps⟩
  · cases cause with
    | flush => exact hinstall.of_background _ s.built
    | move => exact hinstall.of_background _ s.built
    | results => exact hinstall.of_background _ s.built
  · cases cause with
    | flush => exact hsheds
    | move => exact hsheds
    | results => exact hsheds

/-- The level of a new table depends on the files of the base version. -/
theorem memTableLevel_congr {u v : Version K} (h : u.files = v.files) (lo hi : K) :
    memTableLevel (some u) lo hi = memTableLevel (some v) lo hi := by
  have hoverlap : ∀ level, u.overlapInLevel level lo hi = v.overlapInLevel level lo hi := by
    intro level
    unfold Version.overlapInLevel
    rw [h]
  have hpush : ∀ fuel level, pushLevel u lo hi fuel level = pushLevel v lo hi fuel level := by
    intro fuel
    induction fuel with
    | zero => exact fun _ => rfl
    | succ fuel ih =>
      intro level
      unfold pushLevel
      rw [hoverlap, ih]
  unfold memTableLevel
  dsimp only
  rw [hoverlap, hpush]

omit [Inhabited V] in
/-- `WriteLevel0Table` of a flush, with the table already there. -/
theorem Session.writeLevel0Table_eq (o : DbOptions K V) {number : ℕ} {base : Version K} {imm : List (Entry K V)}
    (hnext : s.versions.nextFileNumber = number + 1) (hbase : base.files = s.versions.current.files)
    (hbuilt : dir.tables number = imm) :
    ∃ edit, TableWriter.writeLevel0Table o ⟨(s.unallocated number).versions, dir.tables, {}⟩ imm
        (some s.versions.current) = ⟨s.versions, dir.tables, edit⟩ ∧
      { edit with prevLogNumber := some 0, logNumber := some s.logFileNumber } =
        s.flushEdit o imm number base := by
  have hversions : { s.versions with nextFileNumber := number + 1 } = s.versions := by
    rw [← hnext]
  have htables : Function.update dir.tables number imm = dir.tables :=
    Function.update_eq_self_iff.mpr hbuilt.symm
  unfold TableWriter.writeLevel0Table Session.flushEdit Session.unallocated
  cases imm.head? with
  | none => exact ⟨{}, congrArg (fun vs => TableWriter.mk vs dir.tables {}) hversions, rfl⟩
  | some first =>
    cases imm.getLast? with
    | none => exact ⟨{}, congrArg (fun vs => TableWriter.mk vs dir.tables {}) hversions, rfl⟩
    | some last =>
      dsimp only
      rw [hversions, htables, memTableLevel_congr hbase]
      exact ⟨_, rfl, rfl⟩

/-- The files of a session store what it has in memory and in tables, and the batch that is being
written. -/
theorem Session.On.stored_eq {manifest : List (VersionEdit K)}
    {oldLogs : List (ℕ × List (WriteBatch K V))} {log : List (WriteBatch K V)} {m : Marks}
    (h : s.On o dir manifest oldLogs log m) :
    s.stored dir = (s.db manifest dir.tables oldLogs log).stored ∪
      contents (batchesEntries s.writing.toList) := by
  have hmem : s.mem = memTableOf log := h.inv.mem
  have hold : ∀ e, e ∈ batchesEntries (oldLogs.flatMap (·.2)) ↔ e ∈ immContents s.imm := by
    intro e
    have himm := h.inv.imm
    unfold Db.ImmLogged at himm
    split at himm
    · next hnone =>
      rw [show oldLogs = [] from himm.1, show s.imm = none from hnone]
      simp [batchesEntries, immContents]
    · next imm hsome =>
      obtain ⟨number, bs, hlogs, rfl, -⟩ := himm
      rw [show oldLogs = [(number, bs)] from hlogs, show s.imm = some (memTableOf bs) from hsome]
      simp [immContents, mem_memTableOf]
  unfold Session.stored Db.stored
  rw [h.logs_eq]
  ext e
  have hlogs : e ∈ batchesEntries ((oldLogs ++ [(s.logFileNumber, log ++ s.writing.toList)]).flatMap (·.2)) ↔
      e ∈ batchesEntries (oldLogs.flatMap (·.2)) ∨ e ∈ batchesEntries log ∨
        e ∈ batchesEntries s.writing.toList := by
    simp only [batchesEntries, List.flatMap_append, List.flatMap_singleton, List.mem_append]
  show e ∈ s.versions.current.contents dir.tables ∨ e ∈ batchesEntries _ ↔
    ((e ∈ s.mem ∨ e ∈ immContents s.imm ∨ e ∈ s.versions.current.contents dir.tables) ∨
      e ∈ batchesEntries s.writing.toList)
  rw [hlogs, hold, hmem, mem_memTableOf]
  tauto

omit [Inhabited V] in
/-- When `CompactMemTable` runs, it ends with the database after it. -/
theorem Db.compactMemTable_eq {db : Db K V} {imm : List (Entry K V)} {w : TableWriter K V}
    (himm : db.imm = some imm) (hinput : ∀ st ∈ db.compacting, st.input ≠ [])
    (hw : TableWriter.writeLevel0Table o ⟨db.versions, db.tables, {}⟩ imm (some db.versions.current) = w) :
    db.compactMemTable o = some (db.flushed w) := by
  have hleft : ¬db.compacting.any (fun st => st.input.isEmpty) = true := by
    intro hany
    obtain ⟨st, hst, hempty⟩ := (Option.any_eq_true _ _).mp hany
    exact hinput st hst (List.isEmpty_iff.mp hempty)
  unfold Db.compactMemTable
  rw [himm]
  dsimp only
  rw [if_neg hleft, hw]
  rfl

/-- The record of a `LogAndApply` makes the session after it a database. -/
theorem Session.On.install {manifest : List (VersionEdit K)}
    {oldLogs oldLogs' : List (ℕ × List (WriteBatch K V))} {log : List (WriteBatch K V)} {m m' : Marks}
    (h : s.On o dir manifest oldLogs log m) {edit : VersionEdit K} {cause : Cause}
    (hinv : ((s.install edit cause).db (manifest ++ [s.versions.completeEdit edit]) dir.tables
      oldLogs' log).Inv o m')
    (hlogs : logsToRecover (s.versions.logAndApply edit) dir.logs =
      oldLogs' ++ [(s.logFileNumber, log ++ s.writing.toList)]) :
    (s.install edit cause).On o dir (manifest ++ [s.versions.completeEdit edit]) oldLogs' log m' := by
  obtain ⟨hwriting, hnumber, hversions⟩ := s.install_spec edit cause
  refine ⟨hinv, ?_, ?_⟩
  · rw [hwriting, hnumber, hversions]
    exact hlogs
  · have h1 := h.manifest_lt
    have h2 : m.nextFile ≤ s.versions.nextFileNumber := h.inv.manifest.nextFile_le
    have h3 : m'.nextFile = s.versions.nextFileNumber := hinv.manifest.nextFile_eq
    rw [hversions]
    show s.versions.manifestFileNumber < m'.nextFile
    omega

/-- `CompactMemTable` calls `LogAndApply`, while its table is not in the way of the compaction in flight. -/
theorem Session.Sound.logFlush (h : s.Sound o dir j) {number : ℕ} {base : Version K}
    (hb : s.background = .building number base true) {imm : List (Entry K V)} (himm : s.imm = some imm)
    (hclear : (s.db [] dir.tables [] []).FlushClear) :
    (s.beginLog (s.flushEdit o imm number base) .flush).Sound o dir j := by
  obtain ⟨hsteady, ⟨oldLogs, log, m, hon⟩, ⟨hnext, hbase, hsome, hinput, hbuilt⟩, hkeeps⟩ :=
    (Session.sound_building hb).mp h
  generalize hM : dir.manifests s.versions.manifestFileNumber = manifest at hon
  obtain ⟨edit, hwriter, hedit⟩ :=
    Session.writeLevel0Table_eq o hnext hbase (hbuilt rfl imm himm)
  -- The flush as one step on the database before it.
  have hstep : ((s.unallocated number).db manifest dir.tables oldLogs log).compactMemTable o =
      some (((s.unallocated number).db manifest dir.tables oldLogs log).flushed
        ⟨s.versions, dir.tables, edit⟩) := Db.compactMemTable_eq himm hinput hwriter
  have hold := hon.inv.flushed_oldLogs himm ⟨s.versions, dir.tables, edit⟩
  have hflushed : ((s.unallocated number).db manifest dir.tables oldLogs log).flushed
      ⟨s.versions, dir.tables, edit⟩ =
      (s.install (s.flushEdit o imm number base) .flush).db
        (manifest ++ [s.versions.completeEdit (s.flushEdit o imm number base)]) dir.tables [] log := by
    rw [← hedit]
    exact congrArg (fun logs => { ((s.unallocated number).db manifest dir.tables oldLogs log).flushed
      ⟨s.versions, dir.tables, edit⟩ with oldLogs := logs }) hold
  rw [hflushed] at hstep
  obtain ⟨imm', news, hflush, hinv⟩ := hon.inv.compactMemTable hstep
  obtain ⟨m', hinv⟩ := hinv hclear
  have hself : s.On o dir manifest oldLogs log m :=
    hon.moveCounter (show number ≤ s.versions.nextFileNumber by omega)
  have hinstall : (s.install (s.flushEdit o imm number base) .flush).On o dir
      (manifest ++ [s.versions.completeEdit (s.flushEdit o imm number base)]) [] log m' := by
    -- The old log is not replayed any more.
    obtain ⟨-, hsorted⟩ := pairwise_number_concat hself.sorted (log ++ s.writing.toList)
    refine hself.install hinv (logsToRecover_last hsorted hself.logs_eq (fun l hl => ?_)
      hself.inv.logNumber_le hself.inv.prevLogNumber rfl rfl)
    exact (hself.inv.openable.needed l (List.mem_append_left _ hl)).1
  have hstored : (s.install (s.flushEdit o imm number base) .flush).stored dir = s.stored dir := by
    rw [hinstall.stored_eq, hself.stored_eq, hflush.stored_eq]
    rfl
  refine Session.sound_beginLog hsteady ⟨oldLogs, log, m, ?_⟩ ⟨[], log, m', ?_⟩ (fun _ => hsome) ?_ hkeeps
  · exact hM.symm ▸ hself
  · exact hM.symm ▸ hinstall
  · rw [hstored]
    exact Sheds.refl _ _

omit [Inhabited V] in
/-- The parts of `BackgroundCompaction` before the loop. -/
theorem Session.beginCompaction_eq_some {t : Session K V} (h : s.beginCompaction dir = some t) :
    s.compacting = none ∧ ∃ c vs, s.versions.pickCompaction = some (c, vs) ∧
      ((∃ f, c.inputs0 = [f] ∧ c.inputs1 = [] ∧
        t = { s with versions := vs }.beginLog (c.moveEdit f) .move) ∨
      t = { s with
        versions := vs
        compacting := some (c.start dir.tables (s.snapshots.head?.getD s.versions.lastSequence))
        built := 0 }) := by
  unfold Session.beginCompaction at h
  split_ifs at h with hidle
  rw [not_or, Option.not_isSome_iff_eq_none, Option.not_isSome_iff_eq_none] at hidle
  refine ⟨hidle.2, ?_⟩
  split at h
  · simp at h
  · next c vs hpick =>
    refine ⟨c, vs, hpick, ?_⟩
    split at h
    · next f htriv hhead =>
      left
      unfold Compaction.isTrivialMove at htriv
      obtain ⟨hlen0, hlen1, -⟩ := of_decide_eq_true htriv
      obtain ⟨g, hg⟩ := List.length_eq_one_iff.mp hlen0
      rw [hg, List.head?_cons, Option.some.injEq] at hhead
      exact ⟨f, by rw [hg, hhead], List.length_eq_zero_iff.mp hlen1, (Option.some.inj h).symm⟩
    · exact Or.inr (Option.some.inj h).symm

/-- A compaction of the current version may begin in a sound session, which changes no file. -/
theorem Session.Sound.start (h : s.Sound o dir j) (hb : s.background = .idle) {c : Compaction K}
    {level : ℕ} (hset : c.SetUpFrom s.versions.current level) (hlevel : level + 1 < kNumLevels)
    (pointer : ℕ → Option (InternalKey K)) :
    { s with
      versions := { s.versions with compactPointer := pointer }
      compacting := some (c.start dir.tables (s.snapshots.head?.getD s.versions.lastSequence))
      built := 0 }.Sound o dir j := by
  obtain ⟨hsteady, ⟨oldLogs, log, m, hon⟩, hkeeps⟩ := (Session.sound_quiet (Or.inl hb)).mp h
  have hinv := hon.inv.start hset hlevel pointer (s.snapshots.head?.getD s.versions.lastSequence)
  refine Iff.mpr (Session.sound_quiet (Or.inl hb))
    ⟨⟨hsteady.current, fun st _ i hi => absurd hi (Nat.not_lt_zero i), hsteady.sequence_lt,
      hsteady.snapshots, fun st hst => ?_, hsteady.writing⟩,
    ⟨oldLogs, log, m, ⟨hinv, hon.logs_eq, hon.manifest_lt⟩⟩, hkeeps⟩
  obtain rfl := Option.some.inj hst
  refine ⟨?_, ?_⟩
  · show s.snapshots.head?.getD s.versions.lastSequence < kMaxSequenceNumber
    cases hhead : s.snapshots.head? with
    | none => exact hsteady.sequence_lt
    | some n => exact hsteady.snapshots n (List.mem_of_mem_head? hhead)
  · show c.inputVersion.WellFormed
    rw [hset.inputVersion]
    exact hon.inv.layout.wf

/-- A trivial move may call `LogAndApply` in a sound session: its record only moves a file to the next
level. -/
theorem Session.Sound.move (h : s.Sound o dir j) (hb : s.background = .idle)
    (hnone : s.compacting = none) {c : Compaction K} {level : ℕ}
    (hset : c.SetUpFrom s.versions.current level) (hlevel : level + 1 < kNumLevels)
    {f : FileMetaData K} (h0 : c.inputs0 = [f]) (h1 : c.inputs1 = [])
    (pointer : ℕ → Option (InternalKey K)) :
    ({ s with versions := { s.versions with compactPointer := pointer } }.beginLog (c.moveEdit f)
      .move).Sound o dir j := by
  obtain ⟨hsteady, ⟨oldLogs, log, m, hon⟩, hkeeps⟩ := (Session.sound_quiet (Or.inl hb)).mp h
  obtain ⟨hmem, m', hinv⟩ := hon.inv.move hnone hset hlevel h0 h1 pointer
  have hself : { s with versions := { s.versions with compactPointer := pointer } }.On o dir
      (dir.manifests s.versions.manifestFileNumber) oldLogs log m :=
    ⟨hon.inv.movePointer pointer, hon.logs_eq, hon.manifest_lt⟩
  have hlogs : logsToRecover ({ s.versions with compactPointer := pointer }.logAndApply (c.moveEdit f))
      dir.logs = logsToRecover s.versions dir.logs := by
    obtain ⟨key, hkey⟩ := hset.edit
    refine logsToRecover_congr ?_ ?_ dir.logs
    · show (c.moveEdit f).logNumber.getD _ = _
      unfold Compaction.moveEdit
      rw [hkey]
      rfl
    · show (c.moveEdit f).prevLogNumber.getD _ = _
      unfold Compaction.moveEdit
      rw [hkey]
      rfl
  have hf : f ∈ s.versions.current.files c.level := (hset.liveIn hlevel).inputs0 f (by rw [h0]; simp)
  have hcontents : (s.versions.logAndApply (c.moveEdit f)).current.contents dir.tables =
      s.versions.current.contents dir.tables := Version.contents_moved hf hmem dir.tables
  have hstored : ({ s with versions := { s.versions with compactPointer := pointer } }.install
      (c.moveEdit f) .move).stored dir = s.stored dir := by
    show (s.versions.logAndApply (c.moveEdit f)).current.contents dir.tables ∪
      contents (batchesEntries ((logsToRecover _ dir.logs).flatMap (·.2))) = _
    unfold Session.stored
    rw [hcontents]
    exact congrArg (fun logs => _ ∪ contents (batchesEntries (logs.flatMap (·.2)))) hlogs
  refine Session.sound_beginLog ⟨hsteady.current, hsteady.outputs, hsteady.sequence_lt, hsteady.snapshots,
    hsteady.compacting, hsteady.writing⟩ ⟨oldLogs, log, m, hself⟩
    ⟨oldLogs, log, m', hself.install hinv (hlogs.trans hon.logs_eq)⟩ (fun hc => by cases hc) ?_ hkeeps
  rw [hstored]
  exact Sheds.refl _ _

/-- A compaction chosen by `PickCompaction` may begin in a sound session, also as a trivial move. -/
theorem Session.Sound.beginCompaction (h : s.Sound o dir j) (hb : s.background = .idle) {t : Session K V}
    (hstep : s.beginCompaction dir = some t) : t.Sound o dir j := by
  obtain ⟨hnone, c, vs, hpick, hcase⟩ := Session.beginCompaction_eq_some hstep
  obtain ⟨-, ⟨oldLogs, log, m, hon⟩, -⟩ := (Session.sound_quiet (Or.inl hb)).mp h
  obtain ⟨hset, hlevel, pointer, rfl⟩ :=
    (show s.versions.current.Layout dir.tables from hon.inv.layout).pickCompaction_setUpFrom hpick
  rcases hcase with ⟨f, h0, h1, rfl⟩ | rfl
  · exact h.move hb hnone hset hlevel h0 h1 pointer
  · exact h.start hb hset hlevel pointer

/-- A compaction chosen by `CompactRange` may begin in a sound session. -/
theorem Session.Sound.beginManual (h : s.Sound o dir j) (hb : s.background = .idle) {level : ℕ}
    {first last : K} {t : Session K V} (hstep : s.beginManual dir level first last = some t) :
    t.Sound o dir j := by
  obtain ⟨-, ⟨oldLogs, log, m, hon⟩, -⟩ := (Session.sound_quiet (Or.inl hb)).mp h
  unfold Session.beginManual at hstep
  split_ifs at hstep with hidle
  rw [not_or, not_or] at hidle
  split at hstep
  · simp at hstep
  · next c vs hrange =>
    obtain rfl := Option.some.inj hstep
    obtain ⟨hset, pointer, rfl⟩ :=
      (show s.versions.current.Layout dir.tables from hon.inv.layout).compactRange_setUpFrom hrange
    exact h.start hb hset (not_le.mp hidle.2.2) pointer

omit [Inhabited V] in
/-- A round of the loop, while there is input left. -/
theorem Db.workCompaction_eq {db : Db K V} {st : CompactionState K V} (hst : db.compacting = some st)
    (hinput : st.input ≠ []) :
    db.workCompaction o = some
      { db with
        compacting := some (st.workStep o.sizes db.versions.nextFileNumber).1
        versions :=
          { db.versions with
            nextFileNumber := (st.workStep o.sizes db.versions.nextFileNumber).2 } } := by
  unfold Db.workCompaction
  rw [hst]
  exact if_neg fun hempty => hinput (List.isEmpty_iff.mp hempty)

/-- One round of the loop of `DoCompactionWork`. -/
theorem Session.Sound.workCompaction (h : s.Sound o dir j) (hb : s.background = .idle) {t : Session K V}
    (hstep : s.workCompaction o = some t) : t.Sound o dir j := by
  obtain ⟨hsteady, ⟨oldLogs, log, m, hon⟩, hkeeps⟩ := (Session.sound_quiet (Or.inl hb)).mp h
  unfold Session.workCompaction at hstep
  split at hstep
  · simp at hstep
  · next st hst =>
    split_ifs at hstep with hcond
    obtain rfl := Option.some.inj hstep
    rw [not_or, not_not] at hcond
    have hinput : st.input ≠ [] := fun hnil => hcond.1 (List.isEmpty_iff.mpr hnil)
    have hinv := hon.inv.workCompaction (Db.workCompaction_eq hst hinput)
    obtain ⟨e, input, hcons⟩ := List.exists_cons_of_ne_nil hinput
    obtain ⟨-, hcompaction, hsnapshot, -⟩ :=
      CompactionState.workStep_cons o.sizes hcons s.versions.nextFileNumber
    refine Iff.mpr (Session.sound_quiet (Or.inl hb))
      ⟨⟨hsteady.current, fun st' hst' i hi out hout => ?_, hsteady.sequence_lt, hsteady.snapshots,
        fun st' hst' => ?_, hsteady.writing⟩, ⟨oldLogs, log, m, ⟨hinv, hon.logs_eq, hon.manifest_lt⟩⟩, hkeeps⟩
    · -- The outputs that were complete are still the first ones.
      obtain rfl := Option.some.inj hst'
      have hi : i < st.cutting.outputs.length := hcond.2 ▸ hi
      rw [st.getElem?_workStep o.sizes s.versions.nextFileNumber hi] at hout
      exact hsteady.outputs st hst i (hcond.2.symm ▸ hi) out hout
    · obtain rfl := Option.some.inj hst'
      rw [hcompaction, hsnapshot]
      exact hsteady.compacting st hst

omit [LinearOrder K] [Inhabited V] in
/-- `FinishCompactionOutputFile` leaves the outputs that are files already: their numbers are smaller. -/
theorem Session.OutputsBuilt.buildOutput (h : s.OutputsBuilt o dir) {st : CompactionState K V}
    (hst : s.compacting = some st) (hpairwise : st.cutting.numbers.Pairwise (· < ·))
    {out : FileMetaData K × List (Entry K V)} (hout : (st.finished o.sizes)[s.built]? = some out) :
    { s with built := s.built + 1 }.OutputsBuilt o (dir.buildTable out.1.number out.2) := by
  intro st' hst' i hi out' hout'
  obtain rfl : st = st' := Option.some.inj (hst.symm.trans hst')
  show Function.update dir.tables out.1.number out.2 out'.1.number = out'.2
  rcases Nat.lt_succ_iff_lt_or_eq.mp hi with hi | rfl
  · have hlt : out'.1.number < out.1.number := by
      have hsorted := hpairwise.sublist (st.finished_numbers o.sizes)
      rw [List.pairwise_iff_getElem] at hsorted
      obtain ⟨hi', heq'⟩ := List.getElem?_eq_some_iff.mp hout'
      obtain ⟨hn', heq⟩ := List.getElem?_eq_some_iff.mp hout
      have := hsorted i s.built (by simpa using hi') (by simpa using hn') hi
      simpa [heq, heq'] using this
    rw [Function.update_of_ne hlt.ne]
    exact h st hst i hi out' hout'
  · obtain rfl : out = out' := Option.some.inj (hout.symm.trans hout')
    exact Function.update_self _ _ _

/-- `FinishCompactionOutputFile` writes a table that no version names yet, and the session stays sound. -/
theorem Session.Sound.buildOutput (h : s.Sound o dir j) (hb : s.background = .idle) {dir' : Directory K V}
    {t : Session K V} (hstep : s.buildOutput o dir = some (dir', t)) : t.Sound o dir' j := by
  obtain ⟨hsteady, hmatch, hkeeps⟩ := (Session.sound_quiet (Or.inl hb)).mp h
  unfold Session.buildOutput at hstep
  obtain ⟨st, hst, hstep⟩ := Option.bind_eq_some_iff.mp hstep
  obtain ⟨out, hout, heq⟩ := Option.map_eq_some_iff.mp hstep
  obtain ⟨rfl, rfl⟩ := Prod.mk.inj heq
  obtain ⟨hpairwise, hnumbers⟩ := hmatch.numbers hst
  have hsub := st.finished_numbers o.sizes
  have hmem : out.1.number ∈ st.cutting.numbers :=
    hsub.subset (List.mem_map_of_mem (List.mem_of_getElem? hout))
  have hsame : ∀ g ∈ s.versions.current.liveFiles,
      Function.update dir.tables out.1.number out.2 g.number = dir.tables g.number := fun g hg =>
    Function.update_of_ne ((hnumbers _ hmem).2 g hg) _ _
  refine Iff.mpr (Session.sound_quiet (Or.inl hb))
    ⟨{ hsteady with outputs := hsteady.outputs.buildOutput hst hpairwise hout },
      (hmatch.of_tables hsame).of_background _ (s.built + 1), (Session.stored_of_tables hsame).symm ▸ hkeeps⟩

omit [LinearOrder K] [Inhabited V] in
/-- If all old logs still count, `DeleteObsoleteFiles` leaves the database as it is. -/
theorem Db.deleteObsoleteFiles_eq_self {db : Db K V}
    (h : ∀ l ∈ db.oldLogs, db.versions.logNumber ≤ l.1) : db.deleteObsoleteFiles = db := by
  have hkeep : db.deleteObsoleteFiles.oldLogs = db.oldLogs :=
    List.filter_eq_self.mpr fun l hl => by rw [decide_eq_true (h l hl), Bool.true_or]
  unfold Db.deleteObsoleteFiles at hkeep ⊢
  dsimp only at hkeep
  rw [hkeep]

/-- The end of `DoCompactionWork`, when its outputs are complete. -/
theorem Session.Sound.beginResults (h : s.Sound o dir j) (hb : s.background = .idle) {t : Session K V}
    (hstep : s.beginResults o = some t) : t.Sound o dir j := by
  obtain ⟨hsteady, ⟨oldLogs, log, m, hon⟩, hkeeps⟩ := (Session.sound_quiet (Or.inl hb)).mp h
  generalize hM : dir.manifests s.versions.manifestFileNumber = manifest at hon
  unfold Session.beginResults at hstep
  split at hstep
  · simp at hstep
  · next st hst =>
    split_ifs at hstep with hcond
    obtain rfl := Option.some.inj hstep
    have hinput : st.input = [] := List.isEmpty_iff.mp hcond.1
    have htables : addTables dir.tables (st.finalOutputs o.sizes) = dir.tables := by
      refine addTables_eq_self fun out hout => ?_
      obtain ⟨i, hi, heq⟩ := List.mem_iff_getElem.mp hout
      refine hsteady.outputs st hst i (hcond.2.symm ▸ hi) out ?_
      unfold CompactionState.finished
      rw [if_pos hcond.1]
      exact List.getElem?_eq_some_iff.mpr ⟨hi, heq⟩
    have hedit : (st.compaction.resultEdit (st.finalOutputs o.sizes)).logNumber = none ∧
        (st.compaction.resultEdit (st.finalOutputs o.sizes)).prevLogNumber = none := by
      obtain ⟨l, key, hkey⟩ := (hon.inv.compacting st hst).live.edit
      rw [st.compaction.resultEdit_eq, hkey]
      exact ⟨rfl, rfl⟩
    generalize he : st.compaction.resultEdit (st.finalOutputs o.sizes) = edit at hedit
    have hnumber : (s.versions.logAndApply edit).logNumber = s.versions.logNumber := by
      show edit.logNumber.getD _ = _
      rw [hedit.1]
      rfl
    have hprev : (s.versions.logAndApply edit).prevLogNumber = s.versions.prevLogNumber := by
      show edit.prevLogNumber.getD _ = _
      rw [hedit.2]
      rfl
    -- The end of the compaction as one step on the database before it.
    have hfinish : (s.db manifest dir.tables oldLogs log).finishCompaction o =
        some ((s.install edit .results).db (manifest ++ [s.versions.completeEdit edit]) dir.tables
          oldLogs log) := by
      unfold Db.finishCompaction
      rw [show (s.db manifest dir.tables oldLogs log).compacting = some st from hst]
      dsimp only
      rw [if_pos hcond.1, he]
      refine congrArg some ((Db.deleteObsoleteFiles_eq_self fun l hl => ?_).trans ?_)
      · show (s.versions.logAndApply edit).logNumber ≤ l.1
        rw [hnumber]
        exact (hon.inv.openable.needed l (List.mem_append_left _ hl)).2
      · rw [show (s.db manifest dir.tables oldLogs log).tables = dir.tables from rfl, htables]
        rfl
    obtain ⟨st', outputs, hfinishes, m', hinv⟩ := hon.inv.finishCompaction hfinish
    obtain rfl : st = st' := Option.some.inj (hst.symm.trans hfinishes.compacting_eq)
    obtain ⟨hss, wf⟩ := hsteady.compacting st hst
    have hlogs := logsToRecover_congr hnumber hprev dir.logs
    have hkept : (st.finalOutputs o.sizes).flatMap (·.2) = outputs.flatMap (·.2) := by
      obtain ⟨-, hkept, -⟩ := (hon.inv.compacting st hst).finalOutputs hinput o.sizes
        fun g ⟨l, hg⟩ => hon.inv.manifest.mem_manifestFiles hg
      exact hkept.trans hfinishes.kept.symm
    refine Session.sound_beginLog hsteady ⟨oldLogs, log, m, hM.symm ▸ hon⟩ ⟨oldLogs, log, m', hM.symm ▸
      hon.install hinv (hlogs.trans hon.logs_eq)⟩ (fun hc => by cases hc) ?_ hkeeps
    have hsheds : Sheds (fun e => e.key.type = .deletion ∧
        ∃ c ∈ s.compacted o dir .results, e ∈ c.1 ∧ e ∉ c.2) (s.versions.current.contents dir.tables)
        ((s.versions.logAndApply edit).current.contents dir.tables) := by
      refine (hfinishes.sheds hon.inv wf hss).mono fun e ⟨hdel, hread, hnot⟩ => ⟨hdel, ?_⟩
      refine ⟨(st.compaction.makeInputIterator dir.tables, (st.finalOutputs o.sizes).flatMap (·.2)), ?_,
        hread, hkept.symm ▸ hnot⟩
      unfold Session.compacted
      rw [hst]
      exact List.mem_singleton_self _
    have hstored : (s.install edit .results).stored dir =
        (s.versions.logAndApply edit).current.contents dir.tables ∪
          contents (batchesEntries ((logsToRecover s.versions dir.logs).flatMap (·.2))) := by
      unfold Session.stored
      exact congrArg (fun logs => _ ∪ contents (batchesEntries (logs.flatMap (·.2)))) hlogs
    rw [hstored]
    exact hsheds.union _

/-- `LogAndApply` adds its record to the manifest. -/
theorem Session.Sound.addEdit (h : s.Sound o dir j) {edit record : VersionEdit K} {cause : Cause}
    (hb : s.background = .logging edit record cause false) :
    { s with background := .logging edit record cause true }.Sound o
      (dir.addEdit s.versions.manifestFileNumber record)
      { j with compacted := j.compacted ++ s.compacted o dir cause } := by
  obtain ⟨hsteady, -, ⟨oldLogs, log, m, hon⟩, himm, hsheds, hkeeps⟩ := (Session.sound_logging hb).mp h
  refine (Session.sound_logged rfl).mpr ⟨⟨hsteady.current, hsteady.outputs, hsteady.sequence_lt,
    hsteady.snapshots, hsteady.compacting, hsteady.writing⟩, ⟨oldLogs, log, m, ?_⟩, himm, ?_⟩
  · have hmanifest : (dir.addEdit s.versions.manifestFileNumber record).manifests
        s.versions.manifestFileNumber = dir.manifests s.versions.manifestFileNumber ++ [record] :=
      Function.update_self _ _ _
    show Session.On _ _ _ ((dir.addEdit s.versions.manifestFileNumber record).manifests
      s.versions.manifestFileNumber) _ _ _
    rw [hmanifest]
    cases cause with
    | flush => exact ⟨hon.inv, hon.logs_eq, hon.manifest_lt⟩
    | move => exact ⟨hon.inv, hon.logs_eq, hon.manifest_lt⟩
    | results => exact ⟨hon.inv, hon.logs_eq, hon.manifest_lt⟩
  · have hshed := hkeeps.shed hsheds
    cases cause with
    | flush => exact hshed
    | move => exact hshed
    | results => exact hshed

/-- When its record is in the manifest, `LogAndApply` may install the new version, and the session
stays sound. -/
theorem Session.Sound.install (h : s.Sound o dir j) {edit record : VersionEdit K} {cause : Cause}
    (hb : s.background = .logging edit record cause true) {next : Background K}
    (hnext : next = .idle ∨ next = .deleting) :
    { s.install edit cause with background := next }.Sound o dir j := by
  obtain ⟨hsteady, hmatch, -, hkeeps⟩ := (Session.sound_logged hb).mp h
  have hidle : { s.install edit cause with background := next }.Steady o dir j := by
    cases cause with
    | flush =>
      exact ⟨hsteady.current, hsteady.outputs, hsteady.sequence_lt, hsteady.snapshots, hsteady.compacting,
        hsteady.writing⟩
    | move =>
      exact ⟨hsteady.current, hsteady.outputs, hsteady.sequence_lt, hsteady.snapshots, hsteady.compacting,
        hsteady.writing⟩
    | results =>
      exact ⟨hsteady.current, fun st hst => (Option.not_mem_none st hst).elim, hsteady.sequence_lt, hsteady.snapshots,
        fun st hst => (Option.not_mem_none st hst).elim, hsteady.writing⟩
  have hnumber : (s.install edit cause).versions.manifestFileNumber = s.versions.manifestFileNumber := by
    rw [(s.install_spec edit cause).2.2]
    rfl
  refine Iff.mpr (Session.sound_quiet hnext) ⟨hidle, ?_, hkeeps⟩
  show Session.Matches _ _ _ (dir.manifests (s.install edit cause).versions.manifestFileNumber)
  rw [hnumber]
  exact hmatch.of_background next (s.install edit cause).built

/-- `DeleteObsoleteFiles` deletes files that are not needed. -/
theorem Session.Sound.deleteFile (h : s.Sound o dir j) (hb : s.background = .deleting)
    {dir' : Directory K V} (hcurrent : dir'.current = dir.current)
    (hmanifest : dir'.manifests s.versions.manifestFileNumber = dir.manifests s.versions.manifestFileNumber)
    (hlogs : logsToRecover s.versions dir'.logs = logsToRecover s.versions dir.logs)
    (htables : ∀ g ∈ s.versions.current.liveFiles, dir'.tables g.number = dir.tables g.number)
    (hpending : ∀ st ∈ s.compacting, ∀ n ∈ st.cutting.numbers, dir'.tables n = dir.tables n) :
    s.Sound o dir' j := by
  obtain ⟨hsteady, ⟨oldLogs, log, m, hon⟩, hkeeps⟩ := (Session.sound_quiet (Or.inr hb)).mp h
  refine (Session.sound_quiet (Or.inr hb)).mpr ⟨{ hsteady with
    current := hcurrent.trans hsteady.current
    outputs := ?_ }, ⟨oldLogs, log, m, hmanifest.symm ▸ hon.of_files htables hlogs⟩, ?_⟩
  · intro st hst i hi out hout
    rw [hpending st hst out.1.number ((st.finished_numbers o.sizes).subset
      (List.mem_map_of_mem (List.mem_of_getElem? hout)))]
    exact hsteady.outputs st hst i hi out hout
  · unfold Session.stored
    rw [Version.contents_congr htables, hlogs]
    exact hkeeps

end Background

/-! ## Steps -/

/-- What a step must satisfy: sequence numbers fit, and a memtable is not written in the way of the
compaction in flight. -/
def Session.KeepsLevels (s : Session K V) (dir : Directory K V) : SiteAction K V → Prop
  | .addRecord updates => s.versions.lastSequence + updates.length < kMaxSequenceNumber
  | .background .logFlush => (s.db [] dir.tables [] []).FlushClear
  | _ => True

section Steps

variable {o : DbOptions K V} {s : Session K V} {dir : Directory K V} {j : Journal K V}

/-- Every step of the background thread that keeps the levels keeps the session sound. -/
theorem Session.Sound.work (h : s.Sound o dir j) {a : BackgroundAction K}
    (hkeeps : s.KeepsLevels dir (.background a)) {dir' : Directory K V} {s' : Session K V}
    {j' : Journal K V} (hstep : s.work o dir j a = some (dir', s', j')) : s'.Sound o dir' j' := by
  unfold Session.work at hstep
  split at hstep
  · next hb =>
    obtain ⟨t, ht, ⟨⟩⟩ := Option.map_eq_some_iff.mp hstep
    exact h.beginFlush hb ht
  · next hb =>
    obtain ⟨imm, himm, ⟨⟩⟩ := Option.map_eq_some_iff.mp hstep
    exact h.buildTable hb himm
  · next hb =>
    obtain ⟨imm, himm, ⟨⟩⟩ := Option.map_eq_some_iff.mp hstep
    exact h.logFlush hb himm hkeeps
  · next hb =>
    obtain ⟨t, ht, ⟨⟩⟩ := Option.map_eq_some_iff.mp hstep
    exact h.beginCompaction hb ht
  · next hb =>
    obtain ⟨t, ht, ⟨⟩⟩ := Option.map_eq_some_iff.mp hstep
    exact h.beginManual hb ht
  · next hb =>
    obtain ⟨t, ht, ⟨⟩⟩ := Option.map_eq_some_iff.mp hstep
    exact h.workCompaction hb ht
  · next hb =>
    obtain ⟨r, hr, ⟨⟩⟩ := Option.map_eq_some_iff.mp hstep
    exact h.buildOutput hb hr
  · next hb =>
    obtain ⟨t, ht, ⟨⟩⟩ := Option.map_eq_some_iff.mp hstep
    exact h.beginResults hb ht
  · next hb =>
    obtain ⟨⟩ := hstep
    exact h.addEdit hb
  · next cause hb =>
    obtain ⟨⟩ := hstep
    refine h.install hb ?_
    cases cause with
    | flush => exact Or.inr rfl
    | move => exact Or.inl rfl
    | results => exact Or.inr rfl
  · next number hb =>
    split_ifs at hstep with hold
    obtain ⟨⟩ := hstep
    exact h.deleteFile hb rfl rfl (logsToRecover_deleteLog dir hold.1 hold.2) (fun _ _ => rfl)
      fun _ _ _ _ => rfl
  · next number hb =>
    split_ifs at hstep with hold
    obtain ⟨⟩ := hstep
    exact h.deleteFile hb rfl (Function.update_of_ne hold.ne' _ _) rfl (fun _ _ => rfl)
      fun _ _ _ _ => rfl
  · next number hb =>
    split_ifs at hstep with hobsolete
    obtain ⟨⟩ := hstep
    refine h.deleteFile hb rfl rfl rfl (fun g hg => Function.update_of_ne ?_ _ _)
      fun st hst n hn => Function.update_of_ne ?_ _ _
    · obtain ⟨-, ⟨oldLogs, log, m, hon⟩, -⟩ := (Session.sound_quiet (Or.inr hb)).mp h
      obtain ⟨l, hg⟩ := hg
      refine hobsolete.2 l (List.mem_range.mpr (not_le.mp fun hl => ?_)) g hg
      rw [show s.versions.current.files l = [] from hon.inv.layout.wf.levels l hl] at hg
      exact List.not_mem_nil hg
    · rintro rfl
      refine hobsolete.1 (List.mem_flatMap.mpr ⟨st, ?_, hn⟩)
      rw [show s.compacting = some st from hst]
      exact List.mem_singleton_self _
  · next hb =>
    obtain ⟨⟩ := hstep
    obtain ⟨hsteady, hmatch, hstored⟩ := (Session.sound_quiet (Or.inr hb)).mp h
    exact (Session.sound_quiet (Or.inl rfl)).mpr ⟨⟨hsteady.current, hsteady.outputs, hsteady.sequence_lt,
      hsteady.snapshots, hsteady.compacting, hsteady.writing⟩, hmatch.of_background _ s.built, hstored⟩
  · simp at hstep

/-- Every step of an open database that keeps the levels keeps the session sound. -/
theorem Session.Sound.step (h : s.Sound o dir j) {a : SiteAction K V} (hkeeps : s.KeepsLevels dir a)
    {dir' : Directory K V} {s' : Session K V} {j' : Journal K V}
    (hstep : s.step o dir j a = some (dir', s', j')) : s'.Sound o dir' j' := by
  have hcommitted := h.keeps
  have hsteady := h.steady
  cases a with
  | «open» => cases hstep
  | crash => cases hstep
  | addRecord updates =>
    obtain ⟨r, hr, ⟨⟩⟩ := Option.map_eq_some_iff.mp hstep
    unfold Session.addRecord at hr
    dsimp only at hr
    split_ifs at hr with hwriting
    obtain ⟨⟩ := hr
    refine (Session.moves_addRecord (Option.not_isSome_iff_eq_none.mp hwriting) _).sound h hsteady.sequence_lt
      hsteady.snapshots (fun b hb => ?_) (hcommitted.write _)
    obtain rfl := Option.some.inj hb
    exact ⟨List.mem_append_right _ (List.mem_singleton_self _), rfl, hkeeps⟩
  | insertInto =>
    obtain ⟨b, hb, ⟨⟩⟩ := Option.map_eq_some_iff.mp hstep
    obtain ⟨hwritten, hsequence, hlt⟩ := hsteady.writing b hb
    refine (Session.moves_insertInto hb hsequence hlt.le).sound h hlt hsteady.snapshots
      (fun b' hb' => by cases hb') ?_
    rw [Set.union_empty]
    exact hcommitted.acknowledge hwritten
  | switchMemTable =>
    obtain ⟨r, hr, ⟨⟩⟩ := Option.map_eq_some_iff.mp hstep
    unfold Session.switchMemTable at hr
    split_ifs at hr with hcond
    obtain ⟨⟩ := hr
    refine (Session.moves_newMemTable (Option.isNone_iff_eq_none.mp hcond.1)
      (Option.isNone_iff_eq_none.mp hcond.2.1)).sound h hsteady.sequence_lt hsteady.snapshots
      hsteady.writing ?_
    rw [Set.union_empty]
    exact hcommitted
  | get key snapshot =>
    unfold Session.step at hstep
    dsimp only at hstep
    split_ifs at hstep
    obtain ⟨⟩ := hstep
    have hmoves : s.Moves o dir (s.get dir key snapshot) dir ∅ := Session.moves_get key snapshot
    obtain ⟨stats, heq, -⟩ := s.get_eq dir key snapshot
    rw [heq] at hmoves ⊢
    refine hmoves.sound h hsteady.sequence_lt hsteady.snapshots hsteady.writing ?_
    rw [Set.union_empty]
    exact hcommitted
  | getSnapshot =>
    obtain ⟨⟩ := hstep
    refine (Session.moves_snapshots _).sound h hsteady.sequence_lt (fun n hn => ?_) hsteady.writing ?_
    · rcases List.mem_append.mp hn with hn | hn
      · exact hsteady.snapshots n hn
      · exact List.mem_singleton.mp hn ▸ hsteady.sequence_lt
    · rw [Set.union_empty]
      exact hcommitted
  | releaseSnapshot snapshot =>
    obtain ⟨⟩ := hstep
    refine (Session.moves_snapshots _).sound h hsteady.sequence_lt
      (fun n hn => hsteady.snapshots n (List.mem_of_mem_erase hn)) hsteady.writing ?_
    rw [Set.union_empty]
    exact hcommitted
  | background a => exact h.work hkeeps hstep

end Steps

end LevelDb
