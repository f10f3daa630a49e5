import LevelDb.Db.Reads
import LevelDb.Db.Site

/-!
# What `DB::Open` finds

What a directory must hold for `DB::Open` to find a database there that has lost nothing
(`Directory.Ready`), and which operations on files keep it so: new tables, new logs and new manifests that
`CURRENT` does not name, and the deletion of what no longer counts. The invariant of an open database only
depends on the tables that its version names.
-/

namespace LevelDb

open Lib

variable {K V : Type}

/-! ## Log files -/

/-- Whether `DBImpl::Recover` replays the log file of this number. -/
def VersionSet.replays (vs : VersionSet K) (number : ℕ) : Bool :=
  decide (vs.logNumber ≤ number) || decide (number = vs.prevLogNumber)

/-- The log files that recovery replays are those that count, in the order of their numbers. -/
theorem logsToRecover_eq_iff {vs : VersionSet K} {logs l : List (ℕ × List (WriteBatch K V))}
    (hsorted : l.Pairwise fun a b => a.1 < b.1) :
    logsToRecover vs logs = l ↔ (logs.filter fun a => vs.replays a.1).Perm l := by
  constructor
  · rintro rfl
    exact (List.perm_insertionSort _ _).symm
  · intro hperm
    have hsort : (logsToRecover vs logs).Perm l := (List.perm_insertionSort _ _).trans hperm
    have : Std.Total fun a b : ℕ × List (WriteBatch K V) => a.1 ≤ b.1 := ⟨fun a b => le_total a.1 b.1⟩
    have : IsTrans (ℕ × List (WriteBatch K V)) fun a b => a.1 ≤ b.1 := ⟨fun _ _ _ => le_trans⟩
    have hby : (logsToRecover vs logs).Pairwise fun a b => a.1 ≤ b.1 := List.pairwise_insertionSort _ _
    refine List.Perm.eq_of_pairwise (fun a b ha hb hab hba => ?_) hby (hsorted.imp fun h => h.le) hsort
    rcases Lib.eq_or_rel_of_pairwise hsorted (hsort.mem_iff.mp ha) hb with heq | hlt | hgt
    · exact heq
    · omega
    · omega

/-- Log files in the order of their numbers, the last one with other records. -/
theorem pairwise_number_concat {old : List (ℕ × List (WriteBatch K V))} {n : ℕ}
    {log : List (WriteBatch K V)} (h : (old ++ [(n, log)]).Pairwise fun a b => a.1 < b.1)
    (log' : List (WriteBatch K V)) :
    (∀ l ∈ old, l.1 < n) ∧ (old ++ [(n, log')]).Pairwise fun a b => a.1 < b.1 := by
  obtain ⟨hold, -, hlast⟩ := List.pairwise_append.mp h
  have hlt : ∀ l ∈ old, l.1 < n := fun l hl => hlast l hl _ (List.mem_singleton_self _)
  refine ⟨hlt, List.pairwise_append.mpr ⟨hold, List.pairwise_singleton _ _, fun l hl c hc => ?_⟩⟩
  rw [List.mem_singleton.mp hc]
  exact hlt l hl

/-- A record that is added to the log file with the largest number changes the last one only. -/
theorem map_addRecord {old : List (ℕ × List (WriteBatch K V))} {n : ℕ} (hold : ∀ l ∈ old, l.1 < n)
    (log : List (WriteBatch K V)) (b : WriteBatch K V) :
    (old ++ [(n, log)]).map (fun l => if l.1 = n then (l.1, l.2 ++ [b]) else l) =
      old ++ [(n, log ++ [b])] := by
  have hid : old.map (fun l => if l.1 = n then (l.1, l.2 ++ [b]) else l) = old :=
    (List.map_congr_left fun l hl => if_neg (hold l hl).ne).trans (List.map_id' old)
  rw [List.map_append, List.map_singleton, hid]
  exact congrArg (fun l => old ++ [l]) (if_pos rfl)

/-- A record is added to the last one of the log files that count. -/
theorem logsToRecover_addBatch {vs : VersionSet K} {dir : Directory K V}
    {old : List (ℕ × List (WriteBatch K V))} {n : ℕ} {log : List (WriteBatch K V)}
    (hsorted : (old ++ [(n, log)]).Pairwise fun a b => a.1 < b.1)
    (h : logsToRecover vs dir.logs = old ++ [(n, log)]) (b : WriteBatch K V) :
    logsToRecover vs (dir.addBatch n b).logs = old ++ [(n, log ++ [b])] := by
  obtain ⟨hold, hsorted'⟩ := pairwise_number_concat hsorted (log ++ [b])
  have hmap := map_addRecord hold log b
  set add : ℕ × List (WriteBatch K V) → ℕ × List (WriteBatch K V) :=
    fun l => if l.1 = n then (l.1, l.2 ++ [b]) else l with hadd
  have hnumber : ∀ l, (add l).1 = l.1 := by
    intro l
    rw [hadd]
    dsimp only
    split_ifs <;> rfl
  have hfilter : (dir.logs.map add).filter (fun a => vs.replays a.1) =
      (dir.logs.filter fun a => vs.replays a.1).map add := by
    rw [List.filter_map]
    refine congrArg (List.map add) (List.filter_congr fun l _ => ?_)
    exact congrArg vs.replays (hnumber l)
  refine (logsToRecover_eq_iff hsorted').mpr ?_
  change ((dir.logs.map add).filter _).Perm _
  rw [hfilter, ← hmap]
  exact ((logsToRecover_eq_iff hsorted).mp h).map add

/-- A new log file comes after those that count. -/
theorem logsToRecover_createLog {vs : VersionSet K} {dir : Directory K V}
    {logs : List (ℕ × List (WriteBatch K V))} {n : ℕ} (hsorted : logs.Pairwise fun a b => a.1 < b.1)
    (h : logsToRecover vs dir.logs = logs) (hlt : ∀ l ∈ logs, l.1 < n) (hn : vs.logNumber ≤ n) :
    logsToRecover vs (dir.createLog n).logs = logs ++ [(n, [])] := by
  have hperm := (logsToRecover_eq_iff hsorted).mp h
  refine (logsToRecover_eq_iff (List.pairwise_append.mpr
    ⟨hsorted, List.pairwise_singleton _ _, fun l hl c hc => ?_⟩)).mpr ?_
  · rw [List.mem_singleton.mp hc]
    exact hlt l hl
  · have hreplays : vs.replays n = true := by
      unfold VersionSet.replays
      rw [decide_eq_true hn, Bool.true_or]
    -- No file that counts had this number.
    have hne : ∀ l ∈ dir.logs.filter fun a => vs.replays a.1, decide (l.1 ≠ n) = true := fun l hl =>
      decide_eq_true (hlt l (hperm.mem_iff.mp hl)).ne
    unfold Directory.createLog
    dsimp only
    rw [List.filter_append, List.filter_filter, List.filter_singleton]
    dsimp only
    rw [hreplays, cond_true]
    refine List.Perm.append_right _ ?_
    refine (List.Perm.of_eq ?_).trans hperm
    rw [← List.filter_eq_self.mpr hne, List.filter_filter]
    exact List.filter_congr fun l _ => Bool.and_comm _ _

/-- A log file is deleted that does not count. -/
theorem logsToRecover_deleteLog {vs : VersionSet K} (dir : Directory K V) {n : ℕ}
    (hn : n < vs.logNumber) (hprev : n ≠ vs.prevLogNumber) :
    logsToRecover vs (dir.deleteLog n).logs = logsToRecover vs dir.logs := by
  have hreplays : vs.replays n = false := by
    unfold VersionSet.replays
    rw [decide_eq_false (not_le.mpr hn), decide_eq_false hprev, Bool.or_false]
  have hfilter : ((dir.deleteLog n).logs.filter fun a => vs.replays a.1) =
      dir.logs.filter fun a => vs.replays a.1 := by
    unfold Directory.deleteLog
    dsimp only
    rw [List.filter_filter]
    refine List.filter_congr fun l _ => ?_
    by_cases hl : l.1 = n
    · rw [hl, hreplays, Bool.false_and]
    · rw [decide_eq_true hl, Bool.and_true]
  unfold logsToRecover
  exact congrArg _ hfilter

/-- The old log files count no more when the number of the last one becomes `log_number_`. -/
theorem logsToRecover_last {vs vs' : VersionSet K} {dir : Directory K V}
    {old : List (ℕ × List (WriteBatch K V))} {n : ℕ} {log : List (WriteBatch K V)}
    (hsorted : (old ++ [(n, log)]).Pairwise fun a b => a.1 < b.1)
    (h : logsToRecover vs dir.logs = old ++ [(n, log)]) (hpos : ∀ l ∈ old, 0 < l.1)
    (hle : vs.logNumber ≤ n) (hprev : vs.prevLogNumber = 0) (hlog' : vs'.logNumber = n)
    (hprev' : vs'.prevLogNumber = 0) : logsToRecover vs' dir.logs = [(n, log)] := by
  obtain ⟨hold, -⟩ := pairwise_number_concat hsorted log
  have hless : ∀ k, vs'.replays k = true → vs.replays k = true := by
    intro k hk
    unfold VersionSet.replays at hk ⊢
    simp only [Bool.or_eq_true, decide_eq_true_eq] at hk ⊢
    omega
  have hfilter : (dir.logs.filter fun a => vs'.replays a.1) =
      (dir.logs.filter fun a => vs.replays a.1).filter fun a => vs'.replays a.1 := by
    rw [List.filter_filter]
    refine List.filter_congr fun l _ => ?_
    cases hk : vs'.replays l.1 with
    | false => rfl
    | true => rw [hless _ hk, Bool.and_true]
  have hdrop : (old ++ [(n, log)]).filter (fun a => vs'.replays a.1) = [(n, log)] := by
    have hn : vs'.replays n = true := by
      unfold VersionSet.replays
      rw [hlog', decide_eq_true le_rfl, Bool.true_or]
    have hnone : old.filter (fun a => vs'.replays a.1) = [] := by
      refine List.filter_eq_nil_iff.mpr fun l hl => ?_
      have h1 := hold l hl
      have h2 := hpos l hl
      unfold VersionSet.replays
      simp only [Bool.or_eq_true, decide_eq_true_eq]
      omega
    rw [List.filter_append, hnone, List.filter_singleton, List.nil_append]
    dsimp only
    rw [hn, cond_true]
  refine (logsToRecover_eq_iff (List.pairwise_singleton _ _)).mpr ?_
  rw [hfilter, ← hdrop]
  exact ((logsToRecover_eq_iff hsorted).mp h).filter _

/-- Which log files count depends on two numbers only. -/
theorem logsToRecover_congr {vs vs' : VersionSet K} (hlog : vs'.logNumber = vs.logNumber)
    (hprev : vs'.prevLogNumber = vs.prevLogNumber) (logs : List (ℕ × List (WriteBatch K V))) :
    logsToRecover vs' logs = logsToRecover vs logs := by
  unfold logsToRecover
  rw [hlog, hprev]

/-! ## Tables that no version names -/

/-- What a version stores depends on the tables of its files. -/
theorem Version.contents_congr {v : Version K} {tables tables' : Tables K V}
    (hsame : ∀ g ∈ v.liveFiles, tables' g.number = tables g.number) :
    v.contents tables' = v.contents tables := by
  ext e
  constructor
  · rintro ⟨l, f, hf, he⟩
    exact ⟨l, f, hf, hsame f ⟨l, hf⟩ ▸ he⟩
  · rintro ⟨l, f, hf, he⟩
    exact ⟨l, f, hf, (hsame f ⟨l, hf⟩).symm ▸ he⟩

variable [LinearOrder K]

/-- The layout depends on the tables of the live files. -/
theorem Version.Layout.of_tables {v : Version K} {tables tables' : Tables K V} (h : v.Layout tables)
    (hsame : ∀ g ∈ v.liveFiles, tables' g.number = tables g.number) : v.Layout tables' :=
  { h with
    hasTables := fun l f hf => (hsame f ⟨l, hf⟩).symm ▸ h.hasTables l f hf
    separate := by
      intro l f hf l' g hg e he e' he'
      rw [hsame f ⟨l, hf⟩] at he
      rw [hsame g ⟨l', hg⟩] at he'
      exact h.separate l f hf l' g hg e he e' he' }

variable [Inhabited V]

/-- The invariant depends on the tables of the live files. -/
theorem Db.Inv.of_tables {o : DbOptions K V} {db : Db K V} {m : Marks} (h : db.Inv o m)
    {tables : Tables K V}
    (hsame : ∀ g ∈ db.versions.current.liveFiles, tables g.number = db.tables g.number) :
    { db with tables := tables }.Inv o m :=
  { h with
    layout := h.layout.of_tables hsame
    stored := fun e he => h.stored e (Version.contents_congr hsame ▸ he)
    compacting := fun st hst => (h.compacting st hst).gain (fun _ _ hg => hg) (fun _ hg => Or.inl hg)
      hsame (le_refl _) fun _ hf => Or.inl hf }

omit [Inhabited V] in
/-- What `DB::Open` needs depends on the tables of the live files. -/
theorem Openable.of_tables {o : DbOptions K V} {manifest : List (VersionEdit K)} {tables tables' : Tables K V}
    {logs : List (ℕ × List (WriteBatch K V))} {vs : VersionSet K} {m : Marks} {last : ℕ}
    (h : Openable o manifest tables logs vs m last)
    (hsame : ∀ g ∈ vs.current.liveFiles, tables' g.number = tables g.number) :
    Openable o manifest tables' logs vs m last :=
  { h with
    layout := h.layout.of_tables hsame
    stored := fun e he => h.stored e (Version.contents_congr hsame ▸ he) }

omit [LinearOrder K] [Inhabited V] in
/-- The numbers of live files are in use. -/
theorem ManifestDescribes.live_lt [LinearOrder K] {comparator : Slice} {manifest : List (VersionEdit K)}
    {vs : VersionSet K} {nextFile lastSequence : ℕ}
    (h : ManifestDescribes comparator manifest vs nextFile lastSequence) :
    ∀ g ∈ vs.current.liveFiles, g.number < nextFile := by
  rintro g ⟨l, hg⟩
  exact h.number_lt g (h.mem_manifestFiles hg)

/-- The counter that a manifest names is the one at its last record. -/
theorem ManifestDescribes.nextFile_eq {comparator : Slice} {manifest : List (VersionEdit K)}
    {vs vs' : VersionSet K} {edit : VersionEdit K} {nextFile lastSequence : ℕ}
    (h : ManifestDescribes comparator (manifest ++ [vs.completeEdit edit]) vs' nextFile lastSequence) :
    nextFile = vs.nextFileNumber := by
  obtain ⟨st, hst, hd, -⟩ := h.replay
  rw [List.foldlM_append] at hst
  cases hfirst : manifest.foldlM (RecoverState.record comparator) ({} : RecoverState K) with
  | error e =>
    rw [hfirst] at hst
    cases hst
  | ok st₁ =>
    rw [hfirst] at hst
    simp only [bind, Except.bind, List.foldlM_cons, List.foldlM_nil] at hst
    unfold RecoverState.record at hst
    split_ifs at hst with hcomparator
    obtain rfl := Except.ok.inj hst
    exact (Option.some.inj hd.nextFile).symm

/-! ## What has been written -/

/-- A deletion marker that a compaction has left out. -/
def Journal.Dropped (j : Journal K V) (e : Entry K V) : Prop :=
  e.key.type = .deletion ∧ ∃ c ∈ j.compacted, e ∈ c.1 ∧ e ∉ c.2

/-- An entry of a set is newer, and of the same user key. -/
def HiddenIn (S : Set (Entry K V)) (e : Entry K V) : Prop :=
  ∃ e' ∈ S, e'.key.userKey = e.key.userKey ∧ e.key.sequence < e'.key.sequence

/-- A set of entries is what is left of the written ones: of those that are missing, each one is hidden
by a newer written one, or it is a deletion marker that a compaction has left out. -/
structure Journal.Keeps (j : Journal K V) (S : Set (Entry K V)) : Prop where
  /-- Every acknowledged batch was written. -/
  acknowledged : ∀ b ∈ j.acknowledged, b ∈ j.written
  /-- Every entry was written. -/
  written : ∀ e ∈ S, e ∈ batchesEntries j.written
  /-- Every written entry is kept, hidden or dropped. -/
  kept : ∀ e ∈ batchesEntries j.written,
    e ∈ S ∨ HiddenIn (contents (batchesEntries j.written)) e ∨ j.Dropped e

omit [LinearOrder K] in
/-- When a batch is written, its entries join both what was written and what is kept. -/
theorem Journal.Keeps.write {j : Journal K V} {S : Set (Entry K V)} (h : j.Keeps S)
    (b : WriteBatch K V) :
    { j with written := j.written ++ [b] }.Keeps (S ∪ contents (batchEntries b)) := by
  have hmem : ∀ e : Entry K V, e ∈ batchesEntries (j.written ++ [b]) ↔
      e ∈ batchesEntries j.written ∨ e ∈ batchEntries b := by
    intro e
    unfold batchesEntries
    rw [List.flatMap_append, List.flatMap_singleton, List.mem_append]
  refine ⟨fun b hb => List.mem_append_left _ (h.acknowledged b hb),
    fun e he => (hmem e).mpr (he.imp_left (h.written e)), fun e he => ?_⟩
  rcases (hmem e).mp he with he | he
  · refine (h.kept e he).imp Or.inl (Or.imp_left ?_)
    rintro ⟨e', he', hnewer⟩
    exact ⟨e', (hmem e').mpr (Or.inl he'), hnewer⟩
  · exact Or.inl (Or.inr he)

/-- A set of entries loses only those that are hidden by another one, or that may be dropped. -/
def Sheds (dropped : Entry K V → Prop) (S S' : Set (Entry K V)) : Prop :=
  (∀ e ∈ S', e ∈ S) ∧ ∀ e ∈ S, e ∈ S' ∨ HiddenIn S e ∨ dropped e

omit [LinearOrder K] [Inhabited V] in
/-- A set of entries loses nothing on the way to itself. -/
theorem Sheds.refl (dropped : Entry K V → Prop) (S : Set (Entry K V)) : Sheds dropped S S :=
  ⟨fun _ he => he, fun _ he => Or.inl he⟩

omit [LinearOrder K] [Inhabited V] in
/-- If only some entries were lost, then only entries of any larger kind were lost. -/
theorem Sheds.mono {dropped dropped' : Entry K V → Prop} {S S' : Set (Entry K V)}
    (h : Sheds dropped S S') (himp : ∀ e, dropped e → dropped' e) : Sheds dropped' S S' :=
  ⟨h.1, fun e he => (h.2 e he).imp_right (Or.imp_right (himp e))⟩

omit [LinearOrder K] [Inhabited V] in
/-- More entries that are in both sets. -/
theorem Sheds.union {dropped : Entry K V → Prop} {S S' : Set (Entry K V)} (h : Sheds dropped S S')
    (T : Set (Entry K V)) : Sheds dropped (S ∪ T) (S' ∪ T) := by
  refine ⟨fun e he => he.imp_left (h.1 e), fun e he => ?_⟩
  rcases he with he | he
  · refine (h.2 e he).imp Or.inl (Or.imp_left ?_)
    rintro ⟨e', he', hnewer⟩
    exact ⟨e', Or.inl he', hnewer⟩
  · exact Or.inl (Or.inr he)

omit [LinearOrder K] in
/-- A batch that has been written can be acknowledged, since its entries are kept. -/
theorem Journal.Keeps.acknowledge {j : Journal K V} {S : Set (Entry K V)} (h : j.Keeps S)
    {b : WriteBatch K V} (hb : b ∈ j.written) :
    { j with acknowledged := j.acknowledged ++ [b] }.Keeps S := by
  refine ⟨fun b' hb' => ?_, h.written, h.kept⟩
  rcases List.mem_append.mp hb' with hb' | hb'
  · exact h.acknowledged b' hb'
  · exact List.mem_singleton.mp hb' ▸ hb

omit [LinearOrder K] in
/-- What is shed is accounted for once the compaction is in the journal. -/
theorem Journal.Keeps.shed {j : Journal K V} {S S' : Set (Entry K V)} (h : j.Keeps S)
    {compacted : List (List (Entry K V) × List (Entry K V))}
    (hshed : Sheds (fun e => e.key.type = .deletion ∧ ∃ c ∈ compacted, e ∈ c.1 ∧ e ∉ c.2) S S') :
    { j with compacted := j.compacted ++ compacted }.Keeps S' := by
  refine ⟨h.acknowledged, fun e he => h.written e (hshed.1 e he), fun e he => ?_⟩
  have hdropped : ∀ {cs : List (List (Entry K V) × List (Entry K V))},
      (∀ c ∈ cs, c ∈ j.compacted ++ compacted) →
      (e.key.type = .deletion ∧ ∃ c ∈ cs, e ∈ c.1 ∧ e ∉ c.2) →
      { j with compacted := j.compacted ++ compacted }.Dropped e := by
    rintro cs hsub ⟨htype, c, hc, hin⟩
    exact ⟨htype, c, hsub c hc, hin⟩
  rcases h.kept e he with hkept | hhidden | hdrop
  · rcases hshed.2 e hkept with hkept | ⟨e', he', hnewer⟩ | hdrop
    · exact Or.inl hkept
    · exact Or.inr (Or.inl ⟨e', h.written e' he', hnewer⟩)
    · exact Or.inr (Or.inr (hdropped (fun c hc => List.mem_append_right _ hc) hdrop))
  · exact Or.inr (Or.inl hhidden)
  · exact Or.inr (Or.inr (hdropped (fun c hc => List.mem_append_left _ hc) hdrop))

/-! ## A directory with a database -/

/-- `DB::Open` finds a database that has what was written: its manifest describes a version set, the log
files that count have the batches that are in no table, and the number of the manifest is in use. -/
structure Directory.Ready (o : DbOptions K V) (dir : Directory K V) (j : Journal K V) (manifest : ℕ)
    (logs : List (ℕ × List (WriteBatch K V))) (vs : VersionSet K) (m : Marks) (last : ℕ) : Prop where
  /-- `CURRENT` -/
  current : dir.current = some manifest
  /-- What the files say. -/
  openable : Openable o (dir.manifests manifest) dir.tables logs vs m last
  /-- The log files that count. -/
  logs_eq : logsToRecover vs dir.logs = logs
  /-- The manifest is older than its last record. -/
  manifest_lt : manifest < m.nextFile
  /-- `log_number_` is the number of a log file, except in a new database. -/
  logNumber : vs.logNumber = 0 ∨ logs ≠ []
  /-- The last sequence number that fits is not in use. -/
  sequence_lt : last < kMaxSequenceNumber
  /-- What the files store. -/
  keeps : j.Keeps (vs.current.contents dir.tables ∪ contents (batchesEntries (logs.flatMap (·.2))))

/-- Other tables, other logs that do not count, and other manifests do not matter. -/
theorem Directory.Ready.of_files {o : DbOptions K V} {dir dir' : Directory K V} {j : Journal K V}
    {manifest : ℕ} {logs : List (ℕ × List (WriteBatch K V))} {vs : VersionSet K} {m : Marks} {last : ℕ}
    (h : dir.Ready o j manifest logs vs m last) (hcurrent : dir'.current = dir.current)
    (hmanifest : dir'.manifests manifest = dir.manifests manifest) (hlogs : dir'.logs = dir.logs)
    (htables : ∀ g ∈ vs.current.liveFiles, dir'.tables g.number = dir.tables g.number) :
    dir'.Ready o j manifest logs vs m last :=
  { h with
    current := hcurrent.trans h.current
    openable := hmanifest ▸ h.openable.of_tables htables
    logs_eq := hlogs ▸ h.logs_eq
    keeps := by
      rw [Version.contents_congr htables]
      exact h.keeps }

/-- A new log file does not matter. -/
theorem Directory.Ready.createLog {o : DbOptions K V} {dir : Directory K V} {j : Journal K V}
    {manifest : ℕ} {logs : List (ℕ × List (WriteBatch K V))} {vs : VersionSet K} {m : Marks} {last : ℕ}
    (h : dir.Ready o j manifest logs vs m last) {n : ℕ} (hn : 0 < n) (hlt : ∀ l ∈ logs, l.1 < n) :
    (dir.createLog n).Ready o j manifest (logs ++ [(n, [])]) vs m last := by
  have hneeded : vs.logNumber ≤ n := by
    rcases h.logNumber with hzero | hne
    · omega
    · obtain ⟨l, hl⟩ := List.exists_mem_of_ne_nil logs hne
      exact (h.openable.needed l hl).2.trans (hlt l hl).le
  have hflat : (logs ++ [(n, ([] : List (WriteBatch K V)))]).flatMap (·.2) = logs.flatMap (·.2) := by
    rw [List.flatMap_append, List.flatMap_singleton, List.append_nil]
  refine ⟨h.current, { h.openable with sorted := ?_, needed := ?_, log := ?_ },
    logsToRecover_createLog h.openable.sorted h.logs_eq hlt hneeded, h.manifest_lt, Or.inr (by simp),
    h.sequence_lt, ?_⟩
  · refine List.pairwise_append.mpr ⟨h.openable.sorted, List.pairwise_singleton _ _, fun l hl c hc => ?_⟩
    rw [List.mem_singleton.mp hc]
    exact hlt l hl
  · intro l hl
    rcases List.mem_append.mp hl with hl | hl
    · exact h.openable.needed l hl
    · rw [List.mem_singleton.mp hl]
      exact ⟨hn, hneeded⟩
  · rw [hflat]
    exact h.openable.log
  · rw [hflat]
    exact h.keeps

end LevelDb
