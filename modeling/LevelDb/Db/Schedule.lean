import LevelDb.Db.Host
import Mathlib.Data.Nat.Cast.Order.Ring

/-!
# Background scheduling

`bg_compaction_scheduled_` is set exactly while a `BGWork` is queued or running, so that there is never
a second one; and while the mutex is free there is one whenever there is something to do. Whatever
gives the background thread something to do is followed by `MaybeScheduleCompaction`, and the end of
`BackgroundCall` calls it once more. A writer that `MakeRoomForWrite` blocks waits for a memtable to be
compacted or for level 0 to shrink, and both are things to do.
-/

namespace LevelDb

open Lib

variable {K : Type}

/-! ## Scores -/

/-- The loop of `Finalize` ends with a score that is at least those of the levels it has seen. -/
theorem le_foldl_score (v : Version K) (levels : List ℕ) : ∀ best : ℤ × ℚ,
    let r := levels.foldl
      (fun best level => if best.2 < levelScore (v.files level) level then
        ((level : ℤ), levelScore (v.files level) level) else best) best
    best.2 ≤ r.2 ∧ ∀ level ∈ levels, levelScore (v.files level) level ≤ r.2 := by
  induction levels with
  | nil => intro best; simp
  | cons level levels ih =>
    intro best
    rw [List.foldl_cons]
    by_cases hlt : best.2 < levelScore (v.files level) level
    · obtain ⟨hbest, hlevels⟩ := ih ((level : ℤ), levelScore (v.files level) level)
      rw [if_pos hlt]
      refine ⟨hlt.le.trans hbest, fun l hl => ?_⟩
      rcases List.mem_cons.mp hl with rfl | hl
      · exact hbest
      · exact hlevels l hl
    · obtain ⟨hbest, hlevels⟩ := ih best
      rw [if_neg hlt]
      refine ⟨hbest, fun l hl => ?_⟩
      rcases List.mem_cons.mp hl with rfl | hl
      · exact (not_lt.mp hlt).trans hbest
      · exact hlevels l hl

/-- The score of a version is that of its files. -/
def Version.Scored (v : Version K) : Prop := v.compactionScore = (bestLevel v).2

/-- Only the files of a version matter for its best level. -/
theorem bestLevel_congr {v v' : Version K} (h : v'.files = v.files) : bestLevel v' = bestLevel v := by
  unfold bestLevel
  rw [h]

/-- The score that `Finalize` computes is up to date for the files of the version. -/
theorem finalize_scored (v : Version K) : (finalize v).Scored :=
  congrArg Prod.snd (bestLevel_congr (finalize_files v)).symm

/-- A version that stops writes needs a compaction. -/
theorem Version.Scored.one_le {v : Version K} (h : v.Scored)
    (hfiles : kL0StopWritesTrigger ≤ (v.files 0).length) : 1 ≤ v.compactionScore := by
  have hbest : levelScore (v.files 0) 0 ≤ (bestLevel v).2 :=
    (le_foldl_score v (List.range (kNumLevels - 1)) (-1, -1)).2 0 (by decide)
  have hscore : levelScore (v.files 0) 0 = (v.files 0).length / kL0CompactionTrigger := if_pos rfl
  have htrigger : kL0CompactionTrigger ≤ (v.files 0).length := le_trans (by decide) hfiles
  have hpos : (0 : ℚ) < kL0CompactionTrigger := Nat.cast_pos.mpr (by decide)
  calc (1 : ℚ) ≤ (v.files 0).length / kL0CompactionTrigger := by
        rw [le_div_iff₀ hpos, one_mul]
        exact_mod_cast htrigger
    _ = levelScore (v.files 0) 0 := hscore.symm
    _ ≤ (bestLevel v).2 := hbest
    _ = v.compactionScore := h.symm

/-- Seek statistics leave the score alone. -/
theorem Version.Scored.updateStats {v : Version K} (h : v.Scored) (stats : GetStats K) :
    (v.updateStats stats).Scored := by
  have hscore : (v.updateStats stats).compactionScore = v.compactionScore := by
    unfold Version.updateStats
    split <;> rfl
  unfold Version.Scored at h ⊢
  rw [hscore, bestLevel_congr (v.updateStats_files stats), h]

/-- Shared seeks leave the score alone. -/
theorem Version.Scored.shareSeeks {v : Version K} (h : v.Scored) (stats : GetStats K)
    (shared : Bool) : (v.shareSeeks stats shared).Scored := by
  unfold Version.shareSeeks
  split_ifs
  · exact h
  · exact h

/-! ## The invariant -/

/-- There is something for the background thread to do. -/
def DbImpl.hasWork (s : DbImpl K) : Bool :=
  s.imm.isSome || s.manualCompaction.isSome || s.versions.needsCompaction

/-- A thread is blocked on `bg_cv_` in `MakeRoomForWrite`. -/
def DbImpl.Blocked (s : DbImpl K) : Prop :=
  ∃ write force allowDelay, s.logger = some ⟨write, .waiting force allowDelay⟩

instance (s : DbImpl K) : Decidable s.Blocked :=
  match h : s.logger with
  | some ⟨write, .waiting force allowDelay⟩ => isTrue ⟨write, force, allowDelay, h⟩
  | none | some ⟨_, .room _ _⟩ | some ⟨_, .sleeping _⟩ | some ⟨_, .writing⟩ =>
    isFalse fun ⟨_, _, _, hb⟩ => by rw [h] at hb; cases hb

/-- `bg_compaction_scheduled_` is set exactly while one `BGWork` is queued or running. -/
def DbImpl.Exclusive (s : DbImpl K) : Prop :=
  s.queued + s.running.length = if s.bgCompactionScheduled then 1 else 0

/-- The invariant of scheduling. -/
structure DbImpl.Scheduled (s : DbImpl K) : Prop where
  /-- There is one `BGWork`, or none. -/
  exclusive : s.Exclusive
  /-- There is one when there is something to do. -/
  hasWork : s.shuttingDown = false → s.hasWork = true → s.bgCompactionScheduled = true
  /-- There is one when a writer is blocked. -/
  blocked : s.shuttingDown = false → s.Blocked → s.bgCompactionScheduled = true
  /-- The score of the current version is up to date. -/
  scored : s.versions.current.Scored

/-- `MaybeScheduleCompaction` only sets the flag and queues. -/
theorem DbImpl.maybeScheduleCompaction_eq (s : DbImpl K) :
    s.maybeScheduleCompaction =
      { s with
        bgCompactionScheduled := s.maybeScheduleCompaction.bgCompactionScheduled
        queued := s.maybeScheduleCompaction.queued } := by
  unfold DbImpl.maybeScheduleCompaction
  split_ifs <;> rfl

/-- While a `BGWork` is queued or running, `MaybeScheduleCompaction` queues no second one. -/
theorem DbImpl.Exclusive.maybeScheduleCompaction {s : DbImpl K} (h : s.Exclusive) :
    s.maybeScheduleCompaction.Exclusive := by
  unfold DbImpl.Exclusive at h
  unfold DbImpl.maybeScheduleCompaction
  split_ifs with hscheduled hshut hwork
  · unfold DbImpl.Exclusive
    rw [h]
  · unfold DbImpl.Exclusive
    rw [h]
  · unfold DbImpl.Exclusive
    rw [h]
  · rw [if_neg hscheduled] at h
    unfold DbImpl.Exclusive
    show s.queued + 1 + s.running.length = if true = true then 1 else 0
    rw [if_pos rfl]
    omega

/-- After `MaybeScheduleCompaction` there is a `BGWork` if there is something to do. -/
theorem DbImpl.maybeScheduleCompaction_scheduled {s : DbImpl K} (hshut : s.shuttingDown = false)
    (h : s.bgCompactionScheduled = true ∨ s.hasWork = true) :
    s.maybeScheduleCompaction.bgCompactionScheduled = true := by
  unfold DbImpl.maybeScheduleCompaction
  split_ifs with hscheduled hshut' hwork
  · exact hscheduled
  · rw [hshut] at hshut'
    cases hshut'
  · rcases h with h | h
    · exact h
    · unfold DbImpl.hasWork at h
      revert h hwork
      cases s.imm <;> cases s.manualCompaction <;> cases s.versions.needsCompaction <;> simp
  · rfl

/-- What `MaybeScheduleCompaction` makes of a state whose flag is right. -/
theorem DbImpl.Exclusive.scheduled {s : DbImpl K} (h : s.Exclusive)
    (hblocked : s.shuttingDown = false → s.Blocked →
      s.bgCompactionScheduled = true ∨ s.hasWork = true)
    (hscored : s.versions.current.Scored) : s.maybeScheduleCompaction.Scheduled := by
  have hframe := s.maybeScheduleCompaction_eq
  refine ⟨h.maybeScheduleCompaction, ?_, ?_, ?_⟩
  · intro hshut hwork
    rw [hframe] at hshut hwork
    exact maybeScheduleCompaction_scheduled hshut (Or.inr hwork)
  · intro hshut hblock
    rw [hframe] at hshut hblock
    exact maybeScheduleCompaction_scheduled hshut (hblocked hshut hblock)
  · rw [hframe]
    exact hscored

/-- `MaybeScheduleCompaction` keeps the invariant of scheduling, and does not queue a second call. -/
theorem DbImpl.Scheduled.maybeScheduleCompaction {s : DbImpl K} (h : s.Scheduled) :
    s.maybeScheduleCompaction.Scheduled :=
  h.exclusive.scheduled (fun hshut hblock => Or.inl (h.blocked hshut hblock)) h.scored

/-- Nobody is blocked after a signal. -/
theorem DbImpl.signalAll_not_blocked (s : DbImpl K) : ¬ s.signalAll.Blocked := by
  rintro ⟨write, force, allowDelay, h⟩
  unfold DbImpl.signalAll at h
  obtain ⟨l, -, hl⟩ := Option.map_eq_some_iff.mp h
  unfold Logger.wake at hl
  split at hl
  · cases hl
  · rename_i hne
    exact hne _ _ (congrArg Logger.point hl)

/-- A signal to the threads on `bg_cv_` keeps the invariant of scheduling. -/
theorem DbImpl.Scheduled.signalAll {s : DbImpl K} (h : s.Scheduled) : s.signalAll.Scheduled :=
  ⟨h.exclusive, h.hasWork, fun _ hblock => absurd hblock s.signalAll_not_blocked, h.scored⟩

/-- The end of `BackgroundCall`, when it was the only one. -/
theorem DbImpl.endCall_scheduled {s : DbImpl K} (h : s.queued + s.running.length = 0)
    (hscored : s.versions.current.Scored) : s.endCall.Scheduled := by
  set t : DbImpl K := { s with bgCompactionScheduled := false } with ht
  have hexclusive : t.Exclusive := h
  have hframe := t.maybeScheduleCompaction_eq
  refine ⟨hexclusive.maybeScheduleCompaction, ?_, ?_, ?_⟩
  · intro hshut hwork
    have hshut' : t.maybeScheduleCompaction.shuttingDown = false := hshut
    have hwork' : t.maybeScheduleCompaction.hasWork = true := hwork
    rw [hframe] at hshut' hwork'
    exact maybeScheduleCompaction_scheduled hshut' (Or.inr hwork')
  · intro _ hblock
    exact absurd hblock t.maybeScheduleCompaction.signalAll_not_blocked
  · show t.maybeScheduleCompaction.versions.current.Scored
    rw [hframe]
    exact hscored

/-! ## Client steps -/

/-- Steps that concern neither the flag nor its reasons keep the invariant. -/
theorem DbImpl.Scheduled.congr {s t : DbImpl K} (h : s.Scheduled)
    (hqueued : t.queued = s.queued) (hrunning : t.running = s.running)
    (hflag : t.bgCompactionScheduled = s.bgCompactionScheduled)
    (hshut : t.shuttingDown = false → s.shuttingDown = false)
    (himm : t.imm = s.imm) (hmanual : t.manualCompaction = s.manualCompaction)
    (hcurrent : t.versions.current = s.versions.current)
    (hblocked : t.Blocked → s.Blocked ∨ s.hasWork = true) : t.Scheduled := by
  have hwork : t.hasWork = s.hasWork := by
    unfold DbImpl.hasWork VersionSet.needsCompaction
    rw [himm, hmanual, hcurrent]
  refine ⟨?_, ?_, ?_, ?_⟩
  · unfold DbImpl.Exclusive
    rw [hqueued, hrunning, hflag]
    exact h.exclusive
  · intro hs hw
    rw [hflag]
    exact h.hasWork (hshut hs) (hwork ▸ hw)
  · intro hs hb
    rw [hflag]
    rcases hblocked hb with hb | hw
    · exact h.blocked (hshut hs) hb
    · exact h.hasWork (hshut hs) hw
  · rw [hcurrent]
    exact h.scored

/-- A version that is given back gives the background thread nothing to do, and the invariant is kept. -/
theorem DbImpl.Scheduled.release {s t : DbImpl K} (h : s.Scheduled) {reader : ℕ}
    (ht : s.release reader = some t) : t.Scheduled := by
  obtain ⟨r, -, rfl⟩ := Option.map_eq_some_iff.mp ht
  exact h.congr rfl rfl rfl id rfl rfl rfl Or.inl

/-- A version that had no file picked, and of which `UpdateStats` picks none, still has none. -/
theorem Version.updateStats_fileToCompact {v : Version K} {stats : GetStats K}
    (h : v.updateStatsPicks stats = false) :
    (v.updateStats stats).fileToCompact = v.fileToCompact := by
  unfold Version.updateStatsPicks at h
  unfold Version.updateStats
  split
  · rfl
  · rename_i f level
    dsimp only at h ⊢
    rw [if_neg]
    rintro ⟨hseeks, hnone⟩
    rw [Bool.and_eq_false_iff] at h
    rcases h with h | h
    · exact absurd hseeks (of_decide_eq_false h)
    · rw [hnone] at h
      cases h

/-- `Get` schedules a compaction when it has picked a file. -/
theorem DbImpl.Scheduled.endGet [DecidableEq K] {s t : DbImpl K} (h : s.Scheduled) {reader : ℕ} {stats : GetStats K}
    {shared picked : Bool} (ht : s.endGet reader stats shared picked = some t) : t.Scheduled := by
  unfold DbImpl.endGet at ht
  obtain ⟨r, -, ht⟩ := Option.bind_eq_some_iff.mp ht
  dsimp only at ht
  refine DbImpl.Scheduled.release ?_ ht
  set updated := if decide (r.id = s.currentId) then s.versions.current.updateStats stats
    else s.versions.current.shareSeeks stats shared with hupdated
  have hscored : updated.Scored := by
    rw [hupdated]
    split_ifs
    · exact h.scored.updateStats stats
    · exact h.scored.shareSeeks stats shared
  have hexclusive : DbImpl.Exclusive { s with toFileState := s.setCurrent updated } := h.exclusive
  by_cases hpicks : (if decide (r.id = s.currentId) then s.versions.current.updateStatsPicks stats
      else picked) = true
  · rw [if_pos hpicks]
    exact hexclusive.scheduled (fun hshut hb => Or.inl (h.blocked hshut hb)) hscored
  · -- Nothing was picked in the current version, so that there is as much to do as before.
    rw [if_neg hpicks]
    have hneeds : (s.setCurrent updated).versions.needsCompaction = s.versions.needsCompaction := by
      have hscore : updated.compactionScore = s.versions.current.compactionScore := by
        rw [hupdated]
        unfold Version.updateStats Version.shareSeeks
        split_ifs
        · split <;> rfl
        · rfl
        · rfl
      have hfile : updated.fileToCompact = s.versions.current.fileToCompact := by
        rw [hupdated]
        by_cases hid : decide (r.id = s.currentId) = true
        · rw [if_pos hid] at hpicks ⊢
          exact Version.updateStats_fileToCompact (Bool.eq_false_iff.mpr hpicks)
        · rw [if_neg hid]
          unfold Version.shareSeeks
          split_ifs <;> rfl
      show (decide (1 ≤ updated.compactionScore) || updated.fileToCompact.isSome) = _
      rw [hscore, hfile]
      rfl
    refine ⟨hexclusive, fun hshut hwork => h.hasWork hshut ?_, h.blocked, hscored⟩
    have hwork' : (s.imm.isSome || s.manualCompaction.isSome ||
        (s.setCurrent updated).versions.needsCompaction) = true := hwork
    rw [hneeds] at hwork'
    exact hwork'

/-- A memtable that is switched is something to do, and `MaybeScheduleCompaction` follows. -/
theorem DbImpl.Scheduled.switchMemTable {s : DbImpl K} (h : s.Scheduled) (l : Logger)
    (allowDelay : Bool) (newLog : Option Status) :
    (s.switchMemTable l allowDelay newLog).Scheduled := by
  unfold DbImpl.switchMemTable
  dsimp only
  split_ifs
  · refine DbImpl.Exclusive.scheduled h.exclusive ?_ h.scored
    rintro - ⟨_, _, _, hblock⟩
    cases hblock
  · refine h.congr rfl rfl rfl id rfl rfl rfl ?_
    rintro ⟨_, _, _, hblock⟩
    cases hblock

/-- A writer is blocked only when there is something to do. -/
theorem DbImpl.Scheduled.makeRoomForWrite {s t : DbImpl K} (h : s.Scheduled)
    {hasRoom : Bool} {newLog : Option Status} (ht : s.makeRoomForWrite hasRoom newLog = some t) :
    t.Scheduled := by
  have hkeep : ∀ (logger : Option Logger) (returned : List (Bool × Option Status)),
      ((∃ write force allowDelay, logger = some ⟨write, .waiting force allowDelay⟩) →
        s.hasWork = true) → DbImpl.Scheduled { s with logger := logger, returned := returned } :=
    fun logger _ hb => h.congr rfl rfl rfl id rfl rfl rfl fun hblock => Or.inr (hb hblock)
  unfold DbImpl.makeRoomForWrite at ht
  split at ht
  · obtain rfl := Option.some.inj ht
    split_ifs with herror hdelay hroom hwrite himm hstop
    · exact hkeep none _ (by rintro ⟨_, _, _, hb⟩; cases hb)
    · exact hkeep _ _ (by rintro ⟨_, _, _, hb⟩; cases hb)
    · exact hkeep _ _ (by rintro ⟨_, _, _, hb⟩; cases hb)
    · exact hkeep none _ (by rintro ⟨_, _, _, hb⟩; cases hb)
    · refine hkeep _ _ fun _ => ?_
      unfold DbImpl.hasWork
      rw [himm]
      rfl
    · -- Too many level-0 files are a reason to compact.
      refine hkeep _ _ fun _ => ?_
      unfold DbImpl.hasWork VersionSet.needsCompaction
      simp [h.scored.one_le hstop]
    · exact h.switchMemTable _ _ _
  · cases ht

/-! ## Background steps -/

/-- What the critical sections of the background thread leave alone. -/
structure DbImpl.SameWork (s t : DbImpl K) : Prop where
  /-- The queue. -/
  queued : t.queued = s.queued
  /-- The running calls. -/
  running : t.running = s.running
  /-- The flag. -/
  flag : t.bgCompactionScheduled = s.bgCompactionScheduled
  /-- The current version is up to date. -/
  scored : s.versions.current.Scored → t.versions.current.Scored

/-- A section that does nothing leaves queue, running calls, flag and version alone. -/
theorem DbImpl.SameWork.refl (s : DbImpl K) : s.SameWork s := ⟨rfl, rfl, rfl, id⟩

/-- Two sections that leave the scheduling alone, one after the other, leave it alone. -/
theorem DbImpl.SameWork.trans {s t u : DbImpl K} (h : s.SameWork t) (h' : t.SameWork u) :
    s.SameWork u :=
  ⟨h'.queued.trans h.queued, h'.running.trans h.running, h'.flag.trans h.flag,
    fun hs => h'.scored (h.scored hs)⟩

/-- When `CompactMemTable` returns, queue, running calls and flag are what they were. -/
theorem DbImpl.endFlush_sameWork (s : DbImpl K) (outer : Option (BgCompaction K)) :
    s.SameWork (s.endFlush outer).1 := by
  cases outer <;> exact ⟨rfl, rfl, rfl, id⟩

variable [LinearOrder K]

/-- The sections that a successful `LogAndApply` ends. -/
theorem DbImpl.endLogAndApply_sameWork (s : DbImpl K) (edit record : VersionEdit K)
    (undeleted : List FileName) (work : Work K) :
    s.SameWork (s.endLogAndApply edit record undeleted work).1 := by
  have hinstall : s.SameWork { s with toFileState := (s.logRecord record).install edit } :=
    ⟨rfl, rfl, rfl, fun _ => finalize_scored _⟩
  cases work with
  | flush outer =>
    refine DbImpl.SameWork.trans ?_ (DbImpl.endFlush_sameWork _ outer)
    exact hinstall.trans ⟨rfl, rfl, rfl, id⟩
  | move job => exact hinstall.trans ⟨rfl, rfl, rfl, id⟩
  | results job => exact hinstall.trans ⟨rfl, rfl, rfl, id⟩

omit [LinearOrder K] in
/-- The sections that a failed `LogAndApply` ends. -/
theorem DbImpl.failLogAndApply_sameWork (s : DbImpl K) (record : VersionEdit K) (written : Bool)
    (error : Status) (work : Work K) : s.SameWork (s.failLogAndApply record written error work).1 := by
  have hlog : s.SameWork
      (if written then { s with toFileState := s.logRecord record } else s) := by
    split_ifs
    · exact ⟨rfl, rfl, rfl, id⟩
    · exact .refl s
  unfold DbImpl.failLogAndApply
  dsimp only
  cases work with
  | flush outer => exact hlog.trans (DbImpl.endFlush_sameWork _ outer)
  | move job => exact hlog.trans ⟨rfl, rfl, rfl, id⟩
  | results job => exact hlog.trans ⟨rfl, rfl, rfl, id⟩

/-- The section after `BuildTable` leaves queue, running calls and flag alone, whatever the result is. -/
theorem DbImpl.endBuild_sameWork (s : DbImpl K) (number : ℕ) (base : Held (LevelFiles K))
    (outer : Option (BgCompaction K)) (result : BuildResult K) :
    s.SameWork (s.endBuild number base outer result).1 := by
  unfold DbImpl.endBuild
  dsimp only
  split_ifs
  · exact ⟨rfl, rfl, rfl, id⟩
  · refine DbImpl.SameWork.trans ?_ (DbImpl.endFlush_sameWork _ outer)
    exact ⟨rfl, rfl, rfl, id⟩

/-- Every critical section of a running `BGWork`. -/
theorem DbImpl.background_sameWork {s : DbImpl K} {p : BgPoint K} {a : BgAction K} {r : BgResult K}
    (h : s.background p a = some r) : s.SameWork r.1 := by
  unfold DbImpl.background at h
  split at h
  · obtain rfl := Option.some.inj h
    exact s.endBuild_sameWork _ _ _ _
  · obtain rfl := Option.some.inj h
    exact s.endLogAndApply_sameWork _ _ _ _
  · obtain rfl := Option.some.inj h
    exact s.failLogAndApply_sameWork _ _ _ _
  · obtain rfl := Option.some.inj h
    split_ifs <;> exact ⟨rfl, rfl, rfl, id⟩
  · obtain rfl := Option.some.inj h
    unfold DbImpl.openOutput
    dsimp only
    split_ifs <;> exact ⟨rfl, rfl, rfl, id⟩
  · obtain rfl := Option.some.inj h
    unfold DbImpl.endCompaction
    dsimp only
    split_ifs <;> exact ⟨rfl, rfl, rfl, id⟩
  · cases h

/-- The first critical section of a `BGWork`. -/
theorem DbImpl.backgroundCompaction_sameWork (s : DbImpl K) :
    s.SameWork s.backgroundCompaction.1 := by
  unfold DbImpl.backgroundCompaction
  split_ifs
  · exact ⟨rfl, rfl, rfl, id⟩
  · split
    · split
      · exact ⟨rfl, rfl, rfl, id⟩
      · rename_i c versions hc
        obtain ⟨-, rfl⟩ := VersionSet.compactRange_eq_some hc
        exact ⟨rfl, rfl, rfl, id⟩
    · split
      · exact .refl s
      · rename_i c versions hc
        obtain ⟨_, -, -, rfl⟩ := VersionSet.pickCompaction_eq_some hc
        dsimp only
        split <;> exact ⟨rfl, rfl, rfl, id⟩

/-- A `BGWork` that starts was the only one in the queue. -/
theorem DbImpl.Scheduled.startWork {s t : DbImpl K} (h : s.Scheduled) (ht : s.startWork = some t) :
    t.Scheduled := by
  unfold DbImpl.startWork at ht
  split_ifs at ht with hqueue hshut
  · obtain rfl := Option.some.inj ht
    refine DbImpl.endCall_scheduled ?_ h.scored
    have := h.exclusive
    unfold DbImpl.Exclusive at this
    show s.queued - 1 + s.running.length = 0
    split_ifs at this <;> omega
  · have hcount := h.exclusive
    unfold DbImpl.Exclusive at hcount
    have hflag : s.bgCompactionScheduled = true := by
      by_contra hne
      rw [if_neg hne] at hcount
      omega
    rw [if_pos hflag] at hcount
    -- The queued work was all there is, so after it was taken none is queued or running.
    set u : DbImpl K := { s with queued := s.queued - 1 } with hu
    have hsame := u.backgroundCompaction_sameWork
    have hzero : u.backgroundCompaction.1.queued + u.backgroundCompaction.1.running.length = 0 := by
      rw [hsame.queued, hsame.running]
      show s.queued - 1 + s.running.length = 0
      omega
    have hflag' : u.backgroundCompaction.1.bgCompactionScheduled = true := hsame.flag.trans hflag
    dsimp only at ht
    split at ht
    · rename_i t' hr
      obtain rfl := Option.some.inj ht
      rw [hr] at hzero hsame
      exact DbImpl.endCall_scheduled hzero (hsame.scored h.scored)
    · rename_i t' p hr
      obtain rfl := Option.some.inj ht
      rw [hr] at hzero hsame hflag'
      have hzero' : t'.queued + t'.running.length = 0 := hzero
      refine ⟨?_, fun _ _ => hflag', fun _ _ => hflag', hsame.scored h.scored⟩
      unfold DbImpl.Exclusive
      show t'.queued + (t'.running.length + 1) = if t'.bgCompactionScheduled then 1 else 0
      rw [if_pos hflag']
      omega

/-- A `BGWork` that goes on is the only one. -/
theorem DbImpl.Scheduled.continueWork {s t : DbImpl K} (h : s.Scheduled) {i : ℕ} {a : BgAction K}
    (ht : s.continueWork i a = some t) : t.Scheduled := by
  unfold DbImpl.continueWork at ht
  obtain ⟨p, hp, ht⟩ := Option.bind_eq_some_iff.mp ht
  obtain ⟨r, hr, ht⟩ := Option.map_eq_some_iff.mp ht
  have hsame := DbImpl.background_sameWork hr
  have hi : i < s.running.length := (List.getElem?_eq_some_iff.mp hp).1
  have hcount := h.exclusive
  unfold DbImpl.Exclusive at hcount
  have hflag : s.bgCompactionScheduled = true := by
    by_contra hne
    rw [if_neg hne] at hcount
    omega
  rw [if_pos hflag] at hcount
  have hflag' : r.1.bgCompactionScheduled = true := hsame.flag.trans hflag
  obtain ⟨u, next⟩ := r
  cases next with
  | none =>
    obtain rfl := ht
    refine DbImpl.endCall_scheduled ?_ (hsame.scored h.scored)
    show u.queued + (u.running.eraseIdx i).length = 0
    rw [hsame.queued, hsame.running, List.length_eraseIdx_of_lt hi]
    omega
  | some p' =>
    obtain rfl := ht
    refine ⟨?_, fun _ _ => hflag', fun _ _ => hflag', hsame.scored h.scored⟩
    unfold DbImpl.Exclusive
    show u.queued + (u.running.set i p').length = if u.bgCompactionScheduled then 1 else 0
    rw [if_pos hflag', hsame.queued, hsame.running, List.length_set]
    omega

/-! ## Every history -/

/-- Every step of the process keeps the invariant. -/
theorem DbImpl.Scheduled.step {s t : DbImpl K} (h : s.Scheduled) {a : Action K}
    (ht : s.step a = some t) : t.Scheduled := by
  -- Steps of readers and of the logger leave the background work as it is.
  cases a with
  | acquire =>
    obtain rfl := Option.some.inj ht
    exact h.congr rfl rfl rfl id rfl rfl rfl Or.inl
  | release reader => exact h.release ht
  | endGet reader stats shared picked => exact h.endGet ht
  | acquireLogger write =>
    unfold DbImpl.step DbImpl.acquireLogger at ht
    dsimp only at ht
    split_ifs at ht
    obtain rfl := Option.some.inj ht
    refine h.congr rfl rfl rfl id rfl rfl rfl ?_
    rintro ⟨_, _, _, hb⟩
    cases hb
  | makeRoomForWrite hasRoom newLog => exact h.makeRoomForWrite ht
  | endSleep =>
    unfold DbImpl.step DbImpl.endSleep at ht
    dsimp only at ht
    split at ht
    · obtain rfl := Option.some.inj ht
      refine h.congr rfl rfl rfl id rfl rfl rfl ?_
      rintro ⟨_, _, _, hb⟩
      cases hb
    · cases ht
  | wake =>
    obtain rfl := Option.some.inj ht
    exact h.signalAll
  | endWrite count status =>
    unfold DbImpl.step DbImpl.endWrite at ht
    dsimp only at ht
    split at ht
    · obtain rfl := Option.some.inj ht
      refine h.congr rfl rfl rfl id rfl rfl rfl ?_
      rintro ⟨_, _, _, hb⟩
      cases hb
    · cases ht
  | compactRange m =>
    unfold DbImpl.step DbImpl.compactRange at ht
    dsimp only at ht
    split_ifs at ht
    obtain rfl := Option.some.inj ht
    exact DbImpl.Exclusive.scheduled h.exclusive
      (fun hshut hb => Or.inl (h.blocked hshut hb)) h.scored
  | shutDown =>
    obtain rfl := Option.some.inj ht
    exact h.congr rfl rfl rfl (fun hshut => by cases hshut) rfl rfl rfl Or.inl
  | startWork => exact h.startWork ht
  | continueWork i a => exact h.continueWork ht

/-- `DB::Open` returns a database whose background work is scheduled if there is some. -/
theorem Starting.finish_scheduled (r : Starting K) (undeleted : List FileName) :
    (r.finish undeleted).Scheduled := by
  refine DbImpl.Exclusive.scheduled rfl ?_ (finalize_scored _)
  rintro - ⟨_, _, _, hb⟩
  cases hb

/-- The invariant of a history. -/
def Host.Scheduled : Host K → Prop
  | .up s => s.Scheduled
  | _ => True

/-- `DB::Open` begins without a background thread. -/
theorem Disk.recover_scheduled (disk : Disk K) (options : OpenOptions) :
    (disk.recover options).Scheduled := by
  unfold Disk.recover
  split
  · trivial
  · split_ifs
    · split <;> trivial
    · trivial

/-- Every step of a history keeps the invariant. -/
theorem Host.Scheduled.step {h h' : Host K} (hinv : h.Scheduled) {a : HostAction K}
    (hs : h.step a = some h') : h'.Scheduled := by
  cases Host.hostStep hs with
  | opened | created => exact Disk.recover_scheduled _ _
  | finished => exact Starting.finish_scheduled _ _
  | step ht => exact DbImpl.Scheduled.step hinv ht
  | newDb | refused | notCreated | failNewDb | writeLevel0Table | endLog | newLog | writeManifest
  | failManifest | notFinished | crash => trivial

/-- The invariant holds in every open database. -/
theorem Host.Reachable.scheduled {s : DbImpl K} (h : Host.Reachable (.up s)) : s.Scheduled :=
  h.induct (P := Host.Scheduled) trivial fun _ _ _ hinv _ hs => hinv.step hs

/-- In every state of an open database there is at most one `BGWork`, queued or running, and
`bg_compaction_scheduled_` is set exactly when there is one. While the database is not shutting down
there is one if a memtable waits to be compacted, a manual compaction is requested or a compaction is
needed, and so a writer that `MakeRoomForWrite` blocks is never left without one. -/
theorem background_work_exclusive {s : DbImpl K} (h : Host.Reachable (.up s)) :
    s.queued + s.running.length ≤ 1 ∧
      (s.bgCompactionScheduled = true ↔ s.queued + s.running.length = 1) ∧
      (s.shuttingDown = false →
        (s.imm.isSome = true ∨ s.manualCompaction.isSome = true ∨
          s.versions.needsCompaction = true) → s.bgCompactionScheduled = true) ∧
      (s.shuttingDown = false → s.Blocked → s.bgCompactionScheduled = true) := by
  have hinv := h.scheduled
  have hcount := hinv.exclusive
  unfold DbImpl.Exclusive at hcount
  refine ⟨?_, ?_, ?_, hinv.blocked⟩
  · split_ifs at hcount <;> omega
  · constructor
    · intro hflag
      rw [if_pos hflag] at hcount
      exact hcount
    · intro hone
      by_contra hflag
      rw [if_neg hflag] at hcount
      omega
  · intro hshut hwork
    refine hinv.hasWork hshut ?_
    unfold DbImpl.hasWork
    rcases hwork with hwork | hwork | hwork <;> simp [hwork]

/-- The options of the examples. -/
def exampleOpenOptions : OpenOptions :=
  { comparator := ascii "leveldb.BytewiseComparator"
    createIfMissing := true
    errorIfExists := false
    paranoidChecks := false }

/-- A new database is opened. -/
def exampleOpen : List (HostAction Slice) :=
  [.open exampleOpenOptions, .switchCurrent .switched [], .newLog 0, .writeManifest, .writeManifest,
    .writeManifest, .switchCurrent .switched []]

/-- In a new database the memtable is switched, and the writer waits because the next one is full. -/
theorem background_work_exclusive_example : ∃ s : DbImpl Slice, s.Blocked ∧
    s.shuttingDown = false ∧ s.queued + s.running.length ≤ 1 ∧ s.bgCompactionScheduled = true := by
  obtain ⟨s, hs, hblocked, hshut⟩ := Host.exists_of_run Host.empty
    (exampleOpen ++ [.step (.acquireLogger false), .step (.makeRoomForWrite false none),
      .step (.makeRoomForWrite false none)])
    (P := fun s => s.Blocked ∧ s.shuttingDown = false) (by decide +kernel)
  have hreach : Host.Reachable (.up s) := Host.reaches_of_run (fun _ _ _ => trivial) hs
  obtain ⟨hone, -, -, hflag⟩ := background_work_exclusive hreach
  exact ⟨s, hblocked, hshut, hone, hflag hshut hblocked⟩

end LevelDb
