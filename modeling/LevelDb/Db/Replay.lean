import LevelDb.Db.Schedule

/-!
# Replaying logs

The loop of `DBImpl::Recover` over the log files, with any result of each `RecoverLogFile`. The loop
keeps one status, which the next call overwrites, so that `Recover` returns what the call for the last
log returned.
-/

namespace LevelDb

variable {K : Type}

/-- How a call of `RecoverLogFile` ends. -/
inductive ReplayEnd where
  /-- With OK. -/
  | ok
  /-- With the error of its `WriteLevel0Table`, which may leave a file. -/
  | tableFailed (left : Bool)
  /-- With another error. -/
  | corrupted

/-- What a call of `RecoverLogFile` does. -/
structure LogReplay (K : Type) where
  /-- The tables that it writes. -/
  tables : List (BuildResult K) := []
  /-- They are written without an error. -/
  tables_ok : ∀ result ∈ tables, result.ok = true := by simp
  /-- How it ends. -/
  finish : ReplayEnd

/-- Whether `RecoverLogFile` returns OK. -/
def LogReplay.ok (replay : LogReplay K) : Bool :=
  match replay.finish with
  | .ok => true
  | .tableFailed _ | .corrupted => false

/-- The steps of a call of `RecoverLogFile`. -/
def LogReplay.actions (replay : LogReplay K) : List (HostAction K) :=
  replay.tables.map .writeLevel0Table ++
    [match replay.finish with
      | .ok => .endLog true
      | .tableFailed left => .writeLevel0Table (.failed left)
      | .corrupted => .endLog false]

/-- The steps of the loop of `DBImpl::Recover`. -/
def replayActions (logs : List ℕ) (replay : ℕ → LogReplay K) : List (HostAction K) :=
  logs.flatMap fun log => (replay log).actions

/-- The steps of `DB::Open` after `DBImpl::Recover`. -/
def startActions (maxSequence : ℕ) (result : SwitchResult) (undeleted : List FileName) :
    List (HostAction K) :=
  [.newLog maxSequence, .writeManifest, .writeManifest, .writeManifest,
    .switchCurrent result undeleted]

section

variable [LinearOrder K]

/-- Recovery reports every failure of `RecoverLogFile`: `Recover` returns OK only if every call did, and
`DB::Open` neither moves the log number past a log that was not recovered nor deletes that log. -/
def ReportsFailures (r : Recovering K) (replay : ℕ → LogReplay K) : Prop :=
  ∀ t, (Host.recovering { r with results := [] }).run (replayActions r.logs replay) =
      some (.recovering t) →
    (t.ok = true → ∀ log ∈ r.logs, (replay log).ok = true) ∧
    ∀ maxSequence result undeleted s,
      (Host.recovering t).run (startActions maxSequence result undeleted) = some (.up s) →
      ∀ log ∈ r.logs, (replay log).ok = false → s.versions.logNumber ≤ log ∧
        ((⟨.logFile, log⟩ : FileName) ∈ r.disk.files → (⟨.logFile, log⟩ : FileName) ∈ s.disk.files)

/-- One list of actions after the other. -/
theorem Host.run_append (h : Host K) (as bs : List (HostAction K)) :
    h.run (as ++ bs) = (h.run as).bind fun h' => h'.run bs := by
  induction as generalizing h with
  | nil => rfl
  | cons a as ih =>
    show (h.step a).bind _ = ((h.step a).bind _).bind _
    rw [Option.bind_assoc]
    exact congrArg _ (funext fun h' => ih h')

/-- A run in which all tables of one log are written goes on with the same log and the same results. -/
theorem Recovering.run_tables (tables : List (BuildResult K)) :
    ∀ r : Recovering K, r.logs ≠ [] → (∀ result ∈ tables, result.ok = true) →
      ∃ t : Recovering K, (Host.recovering r).run (tables.map .writeLevel0Table) =
        some (.recovering t) ∧ t.logs = r.logs ∧ t.results = r.results := by
  induction tables with
  | nil => exact fun r _ _ => ⟨r, rfl, rfl, rfl⟩
  | cons result tables ih =>
    intro r hlogs hok
    obtain ⟨log, logs, hcons⟩ := List.exists_cons_of_ne_nil hlogs
    have hone : ∃ r₁ : Recovering K, r.writeLevel0Table result = some r₁ ∧ r₁.logs = r.logs ∧
        r₁.results = r.results := by
      unfold Recovering.writeLevel0Table
      cases result with
      | failed left => exact absurd (hok _ List.mem_cons_self) (by simp [BuildResult.ok])
      | empty => simp [hcons]
      | table size lo hi => simp [hcons]
    obtain ⟨r₁, hstep, hlogs₁, hresults₁⟩ := hone
    obtain ⟨t, hrun, hlogs_t, hresults_t⟩ := ih r₁ (by rw [hlogs₁]; exact hlogs)
      fun b hb => hok b (List.mem_cons_of_mem _ hb)
    refine ⟨t, ?_, hlogs_t.trans hlogs₁, hresults_t.trans hresults₁⟩
    show ((r.writeLevel0Table result).map Host.recovering).bind _ = _
    rw [hstep]
    exact hrun

/-- `RecoverLogFile` takes its log off the list and leaves its result. -/
theorem LogReplay.run_actions (replay : LogReplay K) {r : Recovering K} {log : ℕ} {logs : List ℕ}
    (hlogs : r.logs = log :: logs) : ∃ t : Recovering K,
      (Host.recovering r).run replay.actions = some (.recovering t) ∧ t.logs = logs ∧
      t.results = (log, replay.ok) :: r.results := by
  obtain ⟨t, hrun, hlogs_t, hresults_t⟩ := Recovering.run_tables replay.tables r
    (by rw [hlogs]; exact List.cons_ne_nil _ _) replay.tables_ok
  rw [hlogs] at hlogs_t
  unfold LogReplay.actions
  rw [Host.run_append, hrun]
  unfold LogReplay.ok
  cases replay.finish with
  | ok => simp [Host.run, Host.step, Recovering.endLog, hlogs_t, hresults_t]
  | corrupted => simp [Host.run, Host.step, Recovering.endLog, hlogs_t, hresults_t]
  | tableFailed left =>
    simp [Host.run, Host.step, Recovering.writeLevel0Table, Recovering.endLog, hlogs_t, hresults_t]

/-- The loop of `DBImpl::Recover` ends, with the results of all logs. -/
theorem Recovering.run_replay (replay : ℕ → LogReplay K) (logs : List ℕ) : ∀ r : Recovering K,
    r.logs = logs → ∃ t : Recovering K,
      (Host.recovering r).run (replayActions logs replay) = some (.recovering t) ∧ t.logs = [] ∧
      t.results = (logs.map fun log => (log, (replay log).ok)).reverse ++ r.results := by
  induction logs with
  | nil => exact fun r hlogs => ⟨r, rfl, hlogs, rfl⟩
  | cons log logs ih =>
    intro r hlogs
    obtain ⟨r₁, hrun₁, hlogs₁, hresults₁⟩ := (replay log).run_actions hlogs
    obtain ⟨t, hrun, hlogs_t, hresults_t⟩ := ih r₁ hlogs₁
    refine ⟨t, ?_, hlogs_t, ?_⟩
    · show (Host.recovering r).run ((replay log).actions ++ replayActions logs replay) = _
      rw [Host.run_append, hrun₁]
      exact hrun
    · rw [hresults_t, hresults₁]
      simp

omit [LinearOrder K] in
/-- `Recover` returns what the last `RecoverLogFile` returned. -/
theorem Recovering.ok_of_results {t : Recovering K} (logs : List ℕ) (replay : ℕ → LogReplay K)
    (h : t.results = (logs.map fun log => (log, (replay log).ok)).reverse) :
    t.ok = (logs.getLast?.map fun log => (replay log).ok).getD true := by
  unfold Recovering.ok
  rw [h, List.head?_reverse, List.getLast?_map, Option.map_map]
  rfl

/-- Without an OK of `Recover`, `DB::Open` does not go on. -/
theorem Recovering.run_start_eq_none {t : Recovering K} (h : t.ok = false) (maxSequence : ℕ)
    (result : SwitchResult) (undeleted : List FileName) :
    (Host.recovering t).run (startActions maxSequence result undeleted) = none := by
  have hnew : t.newLog maxSequence = none := by
    unfold Recovering.newLog
    cases t.logs with
    | nil => simp [h]
    | cons => rfl
  show ((t.newLog maxSequence).map Host.starting).bind _ = none
  rw [hnew]
  rfl

/-- Recovery reports every failure of `RecoverLogFile` exactly when no call fails, or the one for the
last log does. -/
theorem reportsFailures_iff (r : Recovering K) (replay : ℕ → LogReplay K) :
    ReportsFailures r replay ↔ (∀ log ∈ r.logs, (replay log).ok = true) ∨
      ∃ last, r.logs.getLast? = some last ∧ (replay last).ok = false := by
  -- `Recover` keeps the status of the last call only.
  obtain ⟨t, hrun, -, hresults⟩ :=
    Recovering.run_replay replay r.logs { r with results := [] } rfl
  have hok : t.ok = (r.logs.getLast?.map fun log => (replay log).ok).getD true :=
    Recovering.ok_of_results _ _ (by simpa using hresults)
  constructor
  · intro h
    by_cases hall : ∀ log ∈ r.logs, (replay log).ok = true
    · exact Or.inl hall
    · cases hlast : r.logs.getLast? with
      | none =>
        rw [List.getLast?_eq_none_iff.mp hlast] at hall
        exact absurd (fun log hlog => absurd hlog List.not_mem_nil) hall
      | some last =>
        refine Or.inr ⟨last, rfl, ?_⟩
        by_contra hlastOk
        refine hall ((h t hrun).1 ?_)
        rw [hok, hlast]
        exact (Bool.not_eq_false _).mp hlastOk
  · intro h t' hrun'
    obtain rfl : t = t' := Host.recovering.inj (Option.some.inj (hrun.symm.trans hrun'))
    rcases h with hall | ⟨last, hlast, hfail⟩
    · refine ⟨fun _ => hall, fun _ _ _ _ _ log hlog hbad => ?_⟩
      rw [hall log hlog] at hbad
      cases hbad
    · have hfalse : t.ok = false := by
        rw [hok, hlast]
        exact hfail
      refine ⟨fun htrue => ?_, fun maxSequence result undeleted s hs => ?_⟩
      · rw [hfalse] at htrue
        cases htrue
      · rw [Recovering.run_start_eq_none hfalse] at hs
        cases hs

end

/-- Two logs are left by a process that crashed after it had switched to a new log. -/
def exampleTwoLogs : List (HostAction Slice) :=
  exampleOpen ++ [.step (.acquireLogger true), .step (.makeRoomForWrite false none), .crash,
    .open exampleOpenOptions]

/-- The table of the first log cannot be written. -/
def exampleFullDisk (log : ℕ) : LogReplay Slice :=
  { finish := if log = 3 then .tableFailed false else .ok }

/-- The disk is full while the first of two logs is replayed. `DB::Open` succeeds all the same, with a
log number behind that log, and deletes it. -/
theorem failed_log_deleted : (∃ r : Recovering Slice, Host.Reachable (.recovering r) ∧
      r.logs = [3, 4] ∧ ¬ReportsFailures r exampleFullDisk) ∧
    ∃ s : DbImpl Slice, Host.empty.run (exampleTwoLogs ++ replayActions [3, 4] exampleFullDisk ++
      startActions 0 .switched []) = some (.up s) ∧ 3 < s.versions.logNumber ∧
      (⟨.logFile, 3⟩ : FileName) ∉ s.disk.files := by
  constructor
  · obtain ⟨h, hrun, hp⟩ := (Option.any_eq_true _ _).mp (show ((Host.empty : Host Slice).run
      exampleTwoLogs).any (fun h => match h with
        | .recovering r => decide (r.logs = [3, 4])
        | _ => false) = true by decide +kernel)
    have hreach : h.Reachable := Host.reaches_of_run (fun _ _ _ => trivial) hrun
    cases h with
    | recovering r =>
      have hlogs : r.logs = [3, 4] := of_decide_eq_true hp
      refine ⟨r, hreach, hlogs, fun hreports => ?_⟩
      obtain ⟨t, hrun, -, hresults⟩ :=
        Recovering.run_replay exampleFullDisk r.logs { r with results := [] } rfl
      have hok : t.ok = true := by
        rw [Recovering.ok_of_results r.logs exampleFullDisk (by simpa using hresults), hlogs]
        rfl
      have hfirst := (hreports t hrun).1 hok 3 (by rw [hlogs]; exact List.mem_cons_self)
      cases hfirst
    | _ => cases hp
  · exact Host.exists_of_run _ _ (P := fun s => 3 < s.versions.logNumber ∧
      (⟨.logFile, 3⟩ : FileName) ∉ s.disk.files) (by decide +kernel)

end LevelDb
