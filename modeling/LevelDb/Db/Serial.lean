import LevelDb.Db.Write

/-!
# Writes are serial

Every step of the machine of `Threads` is a step of the serial log of `Lib.SerialLog`, or leaves it
as it is: the phase of the log is where the thread that holds `logger_` is in `Write`. What holds of
serial logs thus holds in every interleaving.
-/

namespace LevelDb

variable {T K V : Type}

/-- The pcs between `AcquireLoggingResponsibility` and `ReleaseLoggingResponsibility`. -/
def Pc.logs : Pc K V → Bool
  | .makeRoom .. | .sleep .. | .waitRoom .. | .madeRoom .. | .addRecord _ | .insertInto .. => true
  | .relock .. | .setLastSequence .. | .release .. => true
  | _ => false

/-- The phase of the serial log while the logger is at a pc. -/
def Pc.phase : Pc K V → Lib.Phase (Update K V)
  | .addRecord w => .reserved w.batch
  | .insertInto w rest => .applying w.batch rest
  | .relock w _ => .written w.batch
  | .setLastSequence w _ => .written w.batch
  | _ => .quiet

/-- The serial log of a state. -/
def Threads.serial (st : Threads T K V) : Lib.SerialLog (Update K V) :=
  { last := st.lastSequence
    closed := st.oldLogs.map (·.2)
    current := ⟨st.log, st.mem⟩
    phase := match st.logger with
      | none => .quiet
      | some t => (st.pcs t).phase
    chosen := st.chosen }

/-- What holds of the threads in every state. -/
structure Threads.Inv (st : Threads T K V) : Prop where
  /-- At most one thread is the logger. -/
  logging : ∀ t, (st.pcs t).logs = true → st.logger = some t
  /-- A write that is about to return has published its last sequence number. -/
  released : ∀ t post l ok, st.pcs t = .release post l ok → l = st.lastSequence
  /-- Snapshots are at sequence numbers that were chosen. -/
  snapshots : ∀ n ∈ st.snapshots, n ∈ st.chosen
  /-- Log files are numbered in the order of their creation. -/
  numbers : (st.oldLogs.map (·.1) ++ [st.logFileNumber]).Pairwise (· < ·)
  /-- The number of the log file is in use. -/
  logFileNumber : st.logFileNumber < st.nextFileNumber
  /-- `imm_` is the memtable of the log file before the current one. -/
  imm : ∀ m, st.imm = some m → (st.oldLogs.getLast?.map (·.2.applied)) = some m

variable [DecidableEq T]

@[simp] theorem Threads.goto_pcs_self (st : Threads T K V) (t : T) (pc : Pc K V) :
    (st.goto t pc).pcs t = pc := by
  simp [goto]

/-! ## The phase -/

/-- A step of the logger moves the phase to that of its new pc. -/
theorem Threads.serial_goto_logger {st : Threads T K V} {t : T} (h : st.logger = some t)
    (pc : Pc K V) : (st.goto t pc).serial = { st.serial with phase := pc.phase } := by
  simp [serial, goto, h]

/-- A step to a pc of the same phase leaves the serial log as it is. -/
theorem Threads.serial_goto {st : Threads T K V} {t : T} {pc : Pc K V}
    (h : pc.phase = (st.pcs t).phase) : (st.goto t pc).serial = st.serial := by
  simp only [serial, goto]
  cases hl : st.logger with
  | none => rfl
  | some t' =>
    rcases eq_or_ne t' t with rfl | hne
    · simp [h]
    · simp [Function.update_of_ne hne]

/-- Without a logger the phase is quiet; a logger that resigns was in that phase before. -/
theorem Threads.serial_resign {st : Threads T K V} {t : T} (ht : st.logger = some t)
    (hphase : (st.pcs t).phase = .quiet) (m : Option T) (pc : Pc K V) :
    ({ st with logger := none, mutex := m }.goto t pc).serial = st.serial := by
  simp [serial, goto, ht, hphase]

/-! ## The invariant of the threads -/

/-- Going to another pc keeps the invariant when that pc keeps the role of the thread. -/
theorem Threads.Inv.goto {st : Threads T K V} (h : st.Inv) {t : T} {pc : Pc K V}
    (hlog : pc.logs = true → st.logger = some t)
    (hrel : ∀ post l ok, pc = .release post l ok → l = st.lastSequence) : (st.goto t pc).Inv where
  logging t' ht' := by
    rcases eq_or_ne t' t with rfl | hne
    · exact hlog (by simpa using ht')
    · exact h.logging t' (by simpa [Threads.goto, Function.update_of_ne hne] using ht')
  released t' post l ok ht' := by
    rcases eq_or_ne t' t with rfl | hne
    · exact hrel post l ok (by simpa using ht')
    · exact h.released t' post l ok (by simpa [Threads.goto, Function.update_of_ne hne] using ht')
  snapshots := h.snapshots
  numbers := h.numbers
  logFileNumber := h.logFileNumber
  imm := h.imm

omit [DecidableEq T] in
/-- The mutex does not matter for the invariant. -/
theorem Threads.Inv.mutex {st : Threads T K V} (h : st.Inv) (m : Option T) :
    { st with mutex := m }.Inv :=
  ⟨h.logging, h.released, h.snapshots, h.numbers, h.logFileNumber, h.imm⟩

/-- When the logger gives its role up and goes on to a place without it, the invariant holds. -/
theorem Threads.Inv.resign {st : Threads T K V} (h : st.Inv) {t : T} (ht : st.logger = some t)
    {pc : Pc K V} (hpc : pc.logs = false) : ({ st with logger := none }.goto t pc).Inv where
  logging t' ht' := by
    rcases eq_or_ne t' t with rfl | hne
    · rw [goto_pcs_self, hpc] at ht'
      simp at ht'
    · have := h.logging t' (by simpa [Threads.goto, Function.update_of_ne hne] using ht')
      rw [ht, Option.some.injEq] at this
      exact absurd this.symm hne
  released t' post l ok ht' := by
    rcases eq_or_ne t' t with rfl | hne
    · rw [goto_pcs_self] at ht'
      rw [ht'] at hpc
      simp [Pc.logs] at hpc
    · exact h.released t' post l ok (by simpa [Threads.goto, Function.update_of_ne hne] using ht')
  snapshots := h.snapshots
  numbers := h.numbers
  logFileNumber := h.logFileNumber
  imm := h.imm

/-- What one step of the machine does: it keeps the invariant of the threads, and it is a step of
the serial log or none. -/
def Threads.Simulates (st st' : Threads T K V) : Prop :=
  st'.Inv ∧ (st'.serial = st.serial ∨ Lib.SerialLog.Step st.serial st'.serial)

/-- A step that moves a thread within its role and phase. -/
theorem Threads.Inv.stutter {st : Threads T K V} (h : st.Inv) {t : T} {pc : Pc K V}
    (m : Option T) (hlog : pc.logs = true → st.logger = some t)
    (hrel : ∀ post l ok, pc = .release post l ok → l = st.lastSequence)
    (hphase : pc.phase = (st.pcs t).phase) : st.Simulates ({ st with mutex := m }.goto t pc) :=
  ⟨(h.mutex m).goto hlog hrel, Or.inl ((serial_goto hphase).trans rfl)⟩

/-- A thread that takes the mutex and goes to a pc of the same role and phase leaves the serial log as it
is. -/
theorem Threads.Inv.lock {st st' : Threads T K V} (h : st.Inv) {t : T} {pc pc' : Pc K V}
    (hpc : st.pcs t = pc) (hstep : st.lock t pc' = some st') (hlog : pc'.logs = true → pc.logs = true)
    (hrel : ∀ post l ok, pc' ≠ .release post l ok) (hphase : pc'.phase = pc.phase) :
    st.Simulates st' := by
  unfold Threads.lock at hstep
  split_ifs at hstep
  obtain rfl := Option.some.inj hstep
  exact h.stutter _ (fun hlogs => h.logging t (by rw [hpc]; exact hlog hlogs))
    (fun post l ok he => absurd he (hrel post l ok)) (by rw [hpc]; exact hphase)

/-- The switch to a new memtable and log file. -/
theorem Threads.Inv.switch {st : Threads T K V} (h : st.Inv) {t : T} (ht : st.logger = some t)
    (hphase : (st.pcs t).phase = .quiet) {pc : Pc K V} (hpc : pc.phase = .quiet)
    (hrel : ∀ post l ok, pc ≠ .release post l ok) : st.Simulates (st.switch.goto t pc) := by
  have hinv : st.switch.Inv := by
    refine ⟨h.logging, h.released, h.snapshots, ?_, Nat.lt_succ_self _, ?_⟩
    · simp only [Threads.switch, List.map_append, List.map_cons, List.map_nil]
      refine List.pairwise_append.mpr ⟨h.numbers, List.pairwise_singleton _ _, ?_⟩
      intro n hn n' hn'
      obtain rfl := List.mem_singleton.mp hn'
      -- All numbers so far are at most that of the current log file.
      have hle : n ≤ st.logFileNumber := by
        rcases List.mem_append.mp hn with hn | hn
        · exact le_of_lt ((List.pairwise_append.mp h.numbers).2.2 n hn _ (List.mem_singleton_self _))
        · exact le_of_eq (List.mem_singleton.mp hn)
      have := h.logFileNumber
      omega
    · intro m hm
      simpa [Threads.switch] using hm
  refine ⟨hinv.goto (fun _ => ht) fun post l ok hpc => absurd hpc (hrel post l ok), Or.inr ?_⟩
  have hser : (st.switch.goto t pc).serial =
      { st.serial with closed := st.serial.closed ++ [st.serial.current], current := {} } := by
    rw [serial_goto_logger (show Threads.logger (st.switch) = some t from ht)]
    simp [serial, Threads.switch, ht, hphase, hpc]
  rw [hser]
  exact .switch st.serial (by simp [serial, ht, hphase])

/-- A round of `MakeRoomForWrite` of the logger simulates a step of the serial log, in each of its
branches. -/
theorem Threads.Inv.makeRoomForWrite {st : Threads T K V} (h : st.Inv) (o : WriteOptions K V)
    {t : T} {job : Job K V} {force allowDelay : Bool} (ok : Bool)
    (hpc : st.pcs t = .makeRoom job force allowDelay) :
    st.Simulates (st.makeRoomForWrite o t job force allowDelay ok) := by
  have ht : st.logger = some t := h.logging t (by rw [hpc]; rfl)
  have hphase : (st.pcs t).phase = .quiet := by rw [hpc]; rfl
  have hmove : ∀ (m : Option T) (pc : Pc K V), pc.phase = .quiet →
      (∀ post l ok, pc ≠ .release post l ok) → st.Simulates ({ st with mutex := m }.goto t pc) :=
    fun m pc hq hrel => h.stutter m (fun _ => ht) (fun post l ok e => absurd e (hrel post l ok))
      (hq.trans hphase.symm)
  unfold Threads.makeRoomForWrite
  split_ifs
  · exact hmove st.mutex _ rfl (by simp)
  · exact hmove none _ rfl (by simp)
  · exact hmove st.mutex _ rfl (by simp)
  · exact hmove none _ rfl (by simp)
  · exact hmove none _ rfl (by simp)
  · exact h.switch ht hphase rfl (by simp)
  · -- `NewWritableFile` failed: only a file number is gone.
    have hinv : Threads.Inv { st with nextFileNumber := st.nextFileNumber + 1 } :=
      ⟨h.logging, h.released, h.snapshots, h.numbers, Nat.lt_succ_of_lt h.logFileNumber, h.imm⟩
    exact ⟨hinv.goto (fun _ => ht) (by simp), Or.inl ((serial_goto (by rw [hphase]; rfl)).trans rfl)⟩

/-! ## The steps of `Write` -/

/-- `AddRecord`: the record is the last one of the log from here on. -/
theorem Threads.Inv.addRecord {st : Threads T K V} (h : st.Inv) {t : T} {w : Logging K V}
    (hpc : st.pcs t = .addRecord w) (ok : Bool) :
    st.Simulates ((st.append ⟨w.batch, ok⟩).goto t
      (if ok then .insertInto w w.batch.numbered else .relock w false)) := by
  have ht : st.logger = some t := h.logging t (by rw [hpc]; rfl)
  have hphase : st.serial.phase = .reserved w.batch := by simp [serial, ht, hpc, Pc.phase]
  have hinv : (st.append ⟨w.batch, ok⟩).Inv :=
    ⟨h.logging, h.released, h.snapshots, h.numbers, h.logFileNumber, h.imm⟩
  refine ⟨hinv.goto (fun _ => ht) (by intro post l ok' hpc'; cases ok <;> simp at hpc'), Or.inr ?_⟩
  rw [serial_goto_logger (show Threads.logger (st.append ⟨w.batch, ok⟩) = some t from ht)]
  cases ok with
  | true => exact .accept st.serial w.batch hphase
  | false => exact .refuse st.serial w.batch hphase

/-- Inserting one update into the memtable simulates a step of the serial log. -/
theorem Threads.Inv.add {st : Threads T K V} (h : st.Inv) {t : T} {w : Logging K V}
    {x : Update K V × ℕ} {rest : List (Update K V × ℕ)}
    (hpc : st.pcs t = .insertInto w (x :: rest)) :
    st.Simulates ((st.add x).goto t (.insertInto w rest)) := by
  have ht : st.logger = some t := h.logging t (by rw [hpc]; rfl)
  have hinv : (st.add x).Inv :=
    ⟨h.logging, h.released, h.snapshots, h.numbers, h.logFileNumber, h.imm⟩
  refine ⟨hinv.goto (fun _ => ht) (by simp), Or.inr ?_⟩
  rw [serial_goto_logger (show Threads.logger (st.add x) = some t from ht)]
  exact .apply st.serial w.batch x rest (by simp [serial, ht, hpc, Pc.phase])

/-- `SetLastSequence`. The last sequence number that the write computed before it released the mutex
is still the next one, since no other thread was the logger meanwhile. -/
theorem Threads.Inv.setLastSequence {st : Threads T K V} (h : st.Inv) (hlog : st.serial.Inv) {t : T}
    {w : Logging K V} {made : Bool} (hpc : st.pcs t = .setLastSequence w made) :
    st.Simulates ({ st with lastSequence := w.lastSequence }.goto t
      (.release w.postWriteSnapshot w.lastSequence made)) := by
  have ht : st.logger = some t := h.logging t (by rw [hpc]; rfl)
  have hphase : st.serial.phase = .written w.batch := by simp [serial, ht, hpc, Pc.phase]
  have hlast : w.lastSequence = st.lastSequence + w.batch.count := by
    have hw := hlog.writing
    unfold Lib.SerialLog.Writing at hw
    rw [hphase] at hw
    have h1 : w.batch.sequence = st.lastSequence + 1 := hw.1
    have h2 := w.lastSequence_eq
    rw [Lib.Batch.limit] at h2
    omega
  refine ⟨⟨?_, ?_, h.snapshots, h.numbers, h.logFileNumber, h.imm⟩, Or.inr ?_⟩
  · intro t' ht'
    rcases eq_or_ne t' t with rfl | hne
    · exact ht
    · exact h.logging t' (by simpa [Threads.goto, Function.update_of_ne hne] using ht')
  · intro t' post l ok ht'
    rcases eq_or_ne t' t with rfl | hne
    · rw [goto_pcs_self] at ht'
      cases ht'
      rfl
    · -- Another thread that is about to return would be the logger.
      have hpc' : st.pcs t' = .release post l ok := by
        simpa [Threads.goto, Function.update_of_ne hne] using ht'
      have := h.logging t' (by rw [hpc']; rfl)
      rw [ht, Option.some.injEq] at this
      exact absurd this.symm hne
  · have hser : ({ st with lastSequence := w.lastSequence }.goto t
        (.release w.postWriteSnapshot w.lastSequence made)).serial =
        { st.serial with last := st.serial.last + w.batch.count, phase := .quiet } := by
      rw [serial_goto_logger (show Threads.logger { st with lastSequence := w.lastSequence } = some t from ht)]
      simp [serial, hlast, Pc.phase]
    rw [hser]
    exact .publish st.serial w.batch hphase

/-- The end of `Write`, with the snapshot that it may take. -/
theorem Threads.Inv.release {st : Threads T K V} (h : st.Inv) {t : T} {post made : Bool} {l : ℕ}
    (hpc : st.pcs t = .release post l made) :
    st.Simulates ({ (if post ∧ made then
        { st with snapshots := st.snapshots ++ [l], chosen := st.chosen ++ [l] }
      else st) with logger := none }.unlock t .idle) := by
  have ht : st.logger = some t := h.logging t (by rw [hpc]; rfl)
  have hl : l = st.lastSequence := h.released t post l made hpc
  have hphase : (st.pcs t).phase = .quiet := by rw [hpc]; rfl
  split_ifs
  · have hinv : Threads.Inv { st with snapshots := st.snapshots ++ [l], chosen := st.chosen ++ [l] } := by
      refine ⟨h.logging, h.released, ?_, h.numbers, h.logFileNumber, h.imm⟩
      intro n hn
      rcases List.mem_append.mp hn with hn | hn
      · exact List.mem_append_left _ (h.snapshots n hn)
      · exact List.mem_append_right _ hn
    refine ⟨(hinv.mutex none).resign ht rfl, Or.inr ?_⟩
    have hser := serial_resign (show Threads.logger
      { st with snapshots := st.snapshots ++ [l], chosen := st.chosen ++ [l] } = some t from ht)
      hphase none .idle
    exact hser ▸ .choose st.serial l (Or.inl hl)
  · exact ⟨(h.mutex none).resign ht rfl, Or.inl (serial_resign ht hphase none .idle)⟩

/-- A thread becomes the logger when there is none. -/
theorem Threads.Inv.acquire {st : Threads T K V} (h : st.Inv) {t : T} (hl : st.logger = none)
    {pc : Pc K V} (hrel : ∀ post l ok, pc ≠ .release post l ok) (hphase : pc.phase = .quiet) :
    st.Simulates ({ st with logger := some t }.goto t pc) := by
  have hnone : ∀ t', (st.pcs t').logs = false := fun t' => by
    by_contra hlog
    have := h.logging t' (by simpa using hlog)
    simp [hl] at this
  have hinv : Threads.Inv { st with logger := some t } :=
    ⟨fun t' ht' => by simp [hnone t'] at ht', h.released, h.snapshots, h.numbers, h.logFileNumber,
      h.imm⟩
  refine ⟨hinv.goto (fun _ => rfl) fun post l ok e => absurd e (hrel post l ok), Or.inl ?_⟩
  rw [serial_goto_logger (show Threads.logger { st with logger := some t } = some t from rfl)]
  simp [serial, hl, hphase]

/-- `AcquireLoggingResponsibility` makes a thread the logger or lets it wait, and leaves the serial log as it
is. -/
theorem Threads.Inv.acquireLogger {st : Threads T K V} (h : st.Inv) {t : T} {job : Job K V}
    (hpc : st.pcs t = .acquire job) : st.Simulates (match st.logger with
      | none => { st with logger := some t }.goto t (.makeRoom job job.force (!job.force))
      | some _ => st.unlock t (.waitLogger job)) := by
  cases hl : st.logger with
  | none => exact h.acquire hl (by simp) rfl
  | some t' => exact h.stutter none (by simp [Pc.logs]) (by simp) (by rw [hpc]; rfl)

/-- A write for which there is room takes the sequence numbers behind the published one for its updates. -/
theorem Threads.Inv.setSequence {st : Threads T K V} (h : st.Inv) {t : T} {updates : List (Update K V)}
    {sync post : Bool} (hpc : st.pcs t = .madeRoom (.write updates sync post) true) :
    st.Simulates (st.unlock t (.addRecord (.start st.lastSequence updates sync post))) := by
  have ht : st.logger = some t := h.logging t (by rw [hpc]; rfl)
  refine ⟨(h.mutex none).goto (fun _ => ht) (by simp), Or.inr ?_⟩
  have hser : (st.unlock t (.addRecord (.start st.lastSequence updates sync post))).serial =
      { st.serial with phase := .reserved ⟨st.serial.last + 1, updates⟩ } :=
    serial_goto_logger (show Threads.logger { st with mutex := none } = some t from ht) _
  rw [hser]
  exact .reserve st.serial updates (by simp [serial, ht, hpc, Pc.phase])

/-- `TEST_CompactMemTable` gives up the role of the logger behind `MakeRoomForWrite`, whatever this has
returned. -/
theorem Threads.Inv.madeRoomToCompact {st : Threads T K V} (h : st.Inv) {t : T} {made : Bool}
    (hpc : st.pcs t = .madeRoom .compactMemTable made) :
    st.Simulates (if made then { st with logger := none }.goto t .checkImm
      else { st with logger := none }.unlock t .idle) := by
  have ht : st.logger = some t := h.logging t (by rw [hpc]; rfl)
  have hphase : (st.pcs t).phase = .quiet := by rw [hpc]; rfl
  cases made with
  | true => exact ⟨h.resign ht rfl, Or.inl (serial_resign ht hphase st.mutex .checkImm)⟩
  | false => exact ⟨(h.mutex none).resign ht rfl, Or.inl (serial_resign ht hphase none .idle)⟩

/-- When all updates of a batch are inserted, the serial log has written it. -/
theorem Threads.Inv.inserted {st : Threads T K V} (h : st.Inv) {t : T} {w : Logging K V}
    (hpc : st.pcs t = .insertInto w []) : st.Simulates (st.goto t (.relock w true)) := by
  have ht : st.logger = some t := h.logging t (by rw [hpc]; rfl)
  refine ⟨h.goto (fun _ => ht) (by simp), Or.inr ?_⟩
  rw [serial_goto_logger ht]
  exact .finish st.serial w.batch (by simp [serial, ht, hpc, Pc.phase])

/-- A thread that waits for the memtable, or returns, is no logger and leaves the serial log as it is. -/
theorem Threads.Inv.checkImm {st : Threads T K V} (h : st.Inv) {t : T} (hpc : st.pcs t = .checkImm)
    {pc : Pc K V} (hwait : pc = .waitImm ∨ pc = .idle) : st.Simulates (st.unlock t pc) := by
  rcases hwait with rfl | rfl
  · exact h.stutter none (by simp [Pc.logs]) (by simp) (by rw [hpc]; rfl)
  · exact h.stutter none (by simp [Pc.logs]) (by simp) (by rw [hpc]; rfl)

/-- Every step of a thread keeps the invariant, and is a step of the serial log or none. -/
theorem Threads.Inv.next {st st' : Threads T K V} (h : st.Inv) (hlog : st.serial.Inv)
    (o : WriteOptions K V) {t : T} {ok synced : Bool} (hstep : st.next o t ok synced = some st') :
    st.Simulates st' := by
  unfold Threads.next at hstep
  -- Where the thread is.
  cases hpc : st.pcs t with
  | idle => simp [hpc] at hstep
  | lock job =>
    simp only [hpc] at hstep
    exact h.lock hpc hstep id (by simp) rfl
  | acquire job =>
    have hacquire := h.acquireLogger hpc
    simp only [hpc] at hstep
    cases hl : st.logger with
    | none =>
      simp only [hl] at hstep hacquire
      exact Option.some.inj hstep ▸ hacquire
    | some t' =>
      simp only [hl] at hstep hacquire
      exact Option.some.inj hstep ▸ hacquire
  | waitLogger job =>
    simp only [hpc] at hstep
    exact h.lock hpc hstep id (by simp) rfl
  | makeRoom job force allowDelay =>
    simp only [hpc] at hstep
    exact Option.some.inj hstep ▸ h.makeRoomForWrite o ok hpc
  | sleep job force =>
    simp only [hpc] at hstep
    exact h.lock hpc hstep id (by simp) rfl
  | waitRoom job force allowDelay =>
    simp only [hpc] at hstep
    exact h.lock hpc hstep id (by simp) rfl
  | madeRoom job made =>
    cases job with
    | write updates sync post =>
      cases made with
      | true =>
        simp only [hpc] at hstep
        exact Option.some.inj hstep ▸ h.setSequence hpc
      | false =>
        simp only [hpc] at hstep
        obtain rfl := Option.some.inj hstep
        exact h.stutter st.mutex (fun _ => h.logging t (by rw [hpc]; rfl))
          (by rintro _ _ _ ⟨rfl, rfl, rfl⟩; rfl) (by rw [hpc]; rfl)
    | compactMemTable =>
      have hmade := h.madeRoomToCompact hpc
      simp only [hpc] at hstep
      split_ifs at hstep hmade
      · exact Option.some.inj hstep ▸ hmade
      · exact Option.some.inj hstep ▸ hmade
  | addRecord w =>
    simp only [hpc] at hstep
    exact Option.some.inj hstep ▸ h.addRecord hpc _
  | insertInto w rest =>
    cases rest with
    | nil =>
      simp only [hpc] at hstep
      exact Option.some.inj hstep ▸ h.inserted hpc
    | cons x rest =>
      simp only [hpc] at hstep
      exact Option.some.inj hstep ▸ h.add hpc
  | relock w made =>
    simp only [hpc] at hstep
    exact h.lock hpc hstep id (by simp) rfl
  | setLastSequence w made =>
    simp only [hpc] at hstep
    exact Option.some.inj hstep ▸ h.setLastSequence hlog hpc
  | release post l made =>
    simp only [hpc] at hstep
    exact Option.some.inj hstep ▸ h.release hpc
  | checkImm =>
    simp only [hpc] at hstep
    split_ifs at hstep
    · exact Option.some.inj hstep ▸ h.checkImm hpc (Or.inl rfl)
    · exact Option.some.inj hstep ▸ h.checkImm hpc (Or.inr rfl)
  | waitImm =>
    simp only [hpc] at hstep
    exact h.lock hpc hstep id (by simp) rfl

/-! ## Readers and the background thread -/

omit [DecidableEq T] in
/-- A reader chooses the published sequence number, or that of a snapshot. -/
theorem Threads.Inv.choose {st : Threads T K V} (h : st.Inv) {n : ℕ}
    (hn : n = st.lastSequence ∨ n ∈ st.chosen) : st.Simulates (st.choose n) :=
  ⟨⟨h.logging, h.released, fun m hm => List.mem_append_left _ (h.snapshots m hm), h.numbers,
    h.logFileNumber, h.imm⟩, Or.inr (.choose st.serial n hn)⟩

/-- Every step of the machine keeps the invariant, and is a step of the serial log or none. -/
theorem Threads.Inv.step {st st' : Threads T K V} (h : st.Inv) (hlog : st.serial.Inv)
    (o : WriteOptions K V) {ev : Event T K V} (hstep : st.step o ev = some st') :
    st.Simulates st' := by
  cases ev with
  | call t job =>
    rw [Threads.step] at hstep
    split at hstep
    · rename_i hpc
      obtain rfl := Option.some.inj hstep
      exact h.stutter st.mutex (by simp [Pc.logs]) (by simp) (by rw [hpc]; rfl)
    · simp at hstep
  | next t ok synced => exact h.next hlog o hstep
  | read =>
    rw [Threads.step] at hstep
    split_ifs at hstep
    obtain rfl := Option.some.inj hstep
    exact h.choose (Or.inl rfl)
  | readAt snapshot =>
    rw [Threads.step] at hstep
    split_ifs at hstep with hs
    obtain rfl := Option.some.inj hstep
    exact h.choose (Or.inr (h.snapshots _ hs.2))
  | getSnapshot =>
    rw [Threads.step] at hstep
    split_ifs at hstep
    obtain rfl := Option.some.inj hstep
    -- The number of the snapshot is one that a reader has chosen.
    refine ⟨⟨h.logging, h.released, ?_, h.numbers, h.logFileNumber, h.imm⟩,
      Or.inr (.choose st.serial st.lastSequence (Or.inl rfl))⟩
    intro n hn
    rcases List.mem_append.mp hn with hn | hn
    · exact List.mem_append_left _ (h.snapshots n hn)
    · exact List.mem_append_right _ hn
  | releaseSnapshot snapshot =>
    rw [Threads.step] at hstep
    split_ifs at hstep
    obtain rfl := Option.some.inj hstep
    exact ⟨⟨h.logging, h.released, fun n hn => h.snapshots n (List.mem_of_mem_erase hn), h.numbers,
      h.logFileNumber, h.imm⟩, Or.inl rfl⟩
  | flushBegin =>
    rw [Threads.step] at hstep
    split_ifs at hstep
    obtain rfl := Option.some.inj hstep
    exact ⟨⟨h.logging, h.released, h.snapshots, h.numbers, Nat.lt_succ_of_lt h.logFileNumber, h.imm⟩,
      Or.inl rfl⟩
  | flushBuilt ok =>
    rw [Threads.step] at hstep
    split at hstep
    · obtain rfl := Option.some.inj hstep
      exact ⟨⟨h.logging, h.released, h.snapshots, h.numbers, h.logFileNumber, h.imm⟩, Or.inl rfl⟩
    · simp at hstep
  | flushEnd ok level0Files =>
    rw [Threads.step] at hstep
    split_ifs at hstep
    · obtain rfl := Option.some.inj hstep
      exact ⟨⟨h.logging, h.released, h.snapshots, h.numbers, h.logFileNumber, by simp⟩, Or.inl rfl⟩
    · obtain rfl := Option.some.inj hstep
      exact ⟨⟨h.logging, h.released, h.snapshots, h.numbers, h.logFileNumber, h.imm⟩, Or.inl rfl⟩
  | compactionFile =>
    rw [Threads.step] at hstep
    split_ifs at hstep
    obtain rfl := Option.some.inj hstep
    exact ⟨⟨h.logging, h.released, h.snapshots, h.numbers, Nat.lt_succ_of_lt h.logFileNumber, h.imm⟩,
      Or.inl rfl⟩
  | compactionEnd ok level0Files =>
    rw [Threads.step] at hstep
    split_ifs at hstep
    · obtain rfl := Option.some.inj hstep
      exact ⟨⟨h.logging, h.released, h.snapshots, h.numbers, h.logFileNumber, h.imm⟩, Or.inl rfl⟩
    · obtain rfl := Option.some.inj hstep
      exact ⟨⟨h.logging, h.released, h.snapshots, h.numbers, h.logFileNumber, h.imm⟩, Or.inl rfl⟩

/-! ## Runs -/

/-- A run keeps the invariants, and never makes the last sequence number smaller. -/
theorem Threads.Inv.run (o : WriteOptions K V) : ∀ {evs : List (Event T K V)}
    {st st' : Threads T K V}, st.Inv → st.serial.Inv → st.run o evs = some st' →
    st'.Inv ∧ st'.serial.Inv ∧ st.lastSequence ≤ st'.lastSequence
  | [], st, st', h, hlog, hrun => by
    obtain rfl := Option.some.inj hrun
    exact ⟨h, hlog, le_refl _⟩
  | ev :: evs, st, st', h, hlog, hrun => by
    obtain ⟨st1, hstep, hrest⟩ := Option.bind_eq_some_iff.mp hrun
    obtain ⟨h1, hsim⟩ := h.step hlog o hstep
    have hlog1 : st1.serial.Inv ∧ st.serial.last ≤ st1.serial.last := by
      rcases hsim with heq | hstep
      · rw [heq]
        exact ⟨hlog, le_refl _⟩
      · exact ⟨hstep.inv hlog, hstep.last_le⟩
    obtain ⟨h2, hlog2, hle⟩ := Threads.Inv.run o h1 hlog1.1 hrest
    exact ⟨h2, hlog2, le_trans hlog1.2 hle⟩

end LevelDb
