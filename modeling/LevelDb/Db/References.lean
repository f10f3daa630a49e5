import LevelDb.Db.FileSteps

/-!
# References to versions, and pending outputs

Every reference to a version is counted: that of `current_`, those of readers, and those of a flush or
a compaction under way. So a version that somebody uses is in the list that `AddLiveFiles` goes
through. And `pending_outputs_` has exactly the numbers that the background work in progress has put
there, whichever way its parts end.
-/

namespace LevelDb

open Lib

variable {K : Type}

/-! ## Counted references -/

/-- The references of what calls `LogAndApply`. -/
def Work.held : Work K → List (Held (LevelFiles K))
  | .flush outer => outer.toList.map (·.input)
  | .move job | .results job => [job.input]

/-- The references of a running `BGWork`. -/
def BgPoint.held : BgPoint K → List (Held (LevelFiles K))
  | .flushing _ base outer => base :: outer.toList.map (·.input)
  | .logging _ _ work => work.held
  | .compacting job => [job.input]

/-- All references to versions. -/
def FileState.held (s : FileState K) (ps : List (BgPoint K)) : List (Held (LevelFiles K)) :=
  s.currentVersion :: (s.readers ++ ps.flatMap BgPoint.held)

/-- The references after `CompactMemTable` are those of the compaction around it. -/
@[simp] theorem resumed_held (outer : Option (BgCompaction K)) :
    (resumed outer).flatMap BgPoint.held = outer.toList.map (·.input) := by
  cases outer <;> rfl

/-- What a single thread holds is what the list of this thread holds. -/
@[simp] theorem singleton_held (p : BgPoint K) : [p].flatMap BgPoint.held = p.held := by
  simp

/-- `CompactMemTable` holds a version while it builds its table, beside those of the compaction around it. -/
theorem flushing_held (number : ℕ) (base : Held (LevelFiles K)) (outer : Option (BgCompaction K)) :
    [BgPoint.flushing number base outer].flatMap BgPoint.held =
      base :: (resumed outer).flatMap BgPoint.held := by
  rw [singleton_held, resumed_held]
  rfl

/-- It does not hold one any more in `LogAndApply`. -/
theorem loggingFlush_held (edit record : VersionEdit K) (outer : Option (BgCompaction K)) :
    [BgPoint.logging edit record (.flush outer)].flatMap BgPoint.held =
      (resumed outer).flatMap BgPoint.held := by
  rw [singleton_held, resumed_held]
  rfl

/-- Every reference is counted. -/
def FileState.Referenced (s : FileState K) (ps : List (BgPoint K)) : Prop :=
  Counted s.pool (s.held ps) s.nextId

/-- A reference in the middle comes to the front. -/
theorem perm_held (c x : Held (LevelFiles K)) (readers rest : List (Held (LevelFiles K))) :
    (c :: (readers ++ x :: rest)).Perm (x :: c :: (readers ++ rest)) :=
  (List.perm_middle.cons c).trans (List.Perm.swap x c _)

/-- When a reader gives its reference back, the counts fit the references that are left. -/
theorem FileState.Referenced.release {s : FileState K} {ps : List (BgPoint K)}
    (h : s.Referenced ps) {i : ℕ} {r : Held (LevelFiles K)} (hr : s.readers[i]? = some r) :
    (s.release i r).Referenced ps := by
  obtain ⟨hi, hget⟩ := List.getElem?_eq_some_iff.mp hr
  have hreaders : s.readers.Perm (r :: s.readers.eraseIdx i) := by
    rw [← hget]
    exact (List.getElem_cons_eraseIdx_perm hi).symm
  have hperm : (s.held ps).Perm
      (r :: s.currentVersion :: (s.readers.eraseIdx i ++ ps.flatMap BgPoint.held)) :=
    ((hreaders.append_right _).cons _).trans (List.Perm.swap _ _ _)
  exact (Counted.perm h hperm).unref

/-- A thread gives back the reference that is its first. -/
theorem FileState.Referenced.unref {s : FileState K} {ps qs : List (BgPoint K)} (h : s.Referenced ps)
    {x : Held (LevelFiles K)} (hps : ps.flatMap BgPoint.held = x :: qs.flatMap BgPoint.held) :
    (s.unref x.id).Referenced qs := by
  unfold FileState.Referenced FileState.held at h
  rw [hps] at h
  exact (h.perm (perm_held _ _ _ _)).unref

/-- A thread takes a reference to the current version. -/
theorem FileState.Referenced.refCurrent {s : FileState K} {ps qs : List (BgPoint K)}
    (h : s.Referenced ps)
    (hqs : qs.flatMap BgPoint.held = s.currentVersion :: ps.flatMap BgPoint.held) :
    s.refCurrent.Referenced qs := by
  have hcount := Counted.ref h (x := s.currentVersion) List.mem_cons_self
  unfold FileState.Referenced FileState.held
  rw [hqs]
  exact hcount.perm (perm_held _ _ _ _).symm

/-- References depend on the list of versions, on who has them, and on the current version. -/
theorem FileState.Referenced.congr {s t : FileState K} {ps qs : List (BgPoint K)}
    (h : s.Referenced ps) (hpool : t.pool = s.pool) (hnext : t.nextId = s.nextId)
    (hreaders : t.readers = s.readers) (hcurrent : t.currentVersion = s.currentVersion)
    (hps : qs.flatMap BgPoint.held = ps.flatMap BgPoint.held) : t.Referenced qs := by
  unfold FileState.Referenced FileState.held
  rw [hpool, hnext, hreaders, hcurrent, hps]
  exact h

variable [LinearOrder K]

/-- The new version takes the place of the current one. -/
theorem FileState.Referenced.install {s : FileState K} {ps : List (BgPoint K)} (h : s.Referenced ps)
    (edit : VersionEdit K) : (s.install edit).Referenced ps :=
  (Counted.unref h).append _

/-- Every step keeps the counts right. -/
theorem FileStep.referenced {s t : FileState K} {ps qs : List (BgPoint K)} (h : FileStep s ps t qs)
    (hs : s.Referenced ps) : t.Referenced qs := by
  cases h with
  | skip => exact hs
  | acquire => exact Counted.ref hs List.mem_cons_self
  | release hr => exact hs.release hr
  | @endGet _ i r v hr hfiles =>
    have hset : (s.setCurrent v).Referenced ps := by
      refine hs.congr rfl rfl rfl ?_ rfl
      show (⟨s.currentId, v.files⟩ : Held (LevelFiles K)) = s.currentVersion
      rw [hfiles]
      rfl
    exact hset.release hr
  | newFileNumber => exact hs
  | addSequence => exact hs
  | switchMemTable => exact hs
  -- The current version gets one reference more, or a version gets one less.
  | beginFlush outer =>
    have hnew : s.newOutput.Referenced (resumed outer) := hs
    exact hnew.refCurrent (flushing_held _ _ _)
  | failFlush number base outer result =>
    have hunref : (s.unref base.id).Referenced (resumed outer) := hs.unref (flushing_held _ _ _)
    exact hunref
  | logFlush number base outer result =>
    have hunref : (s.unref base.id).Referenced (resumed outer) := hs.unref (flushing_held _ _ _)
    exact hunref.congr rfl rfl rfl rfl (loggingFlush_held _ _ _)
  | @beginJob job _ hinput =>
    have href : s.refCurrent.Referenced [.compacting job] := by
      refine hs.refCurrent ?_
      rw [singleton_held, ← hinput]
      rfl
    exact href
  | @beginMove job _ f hinput =>
    have href : s.refCurrent.Referenced [.compacting job] := by
      refine hs.refCurrent ?_
      rw [singleton_held, ← hinput]
      rfl
    exact href
  | openOutput job => exact hs
  | failOutput job =>
    have hnew : (s.newOutput.erasePending
        (job.outputs ++ [s.versions.nextFileNumber])).Referenced [.compacting job] := hs
    exact hnew.unref (singleton_held _)
  | giveUp job =>
    have hnew : (s.erasePending job.outputs).Referenced [.compacting job] := hs
    exact hnew.unref (singleton_held _)
  | logResults job outputs => exact hs
  | installFlush edit record outer undeleted =>
    have hlog : (s.logRecord record).Referenced [.logging edit record (.flush outer)] := hs
    exact (hlog.install edit).congr rfl rfl rfl rfl (loggingFlush_held _ _ _).symm
  | installMove edit record job =>
    have hlog : (s.logRecord record).Referenced [.logging edit record (.move job)] := hs
    exact (hlog.install edit).unref (singleton_held _)
  | installResults edit record job undeleted =>
    have hlog : (s.logRecord record).Referenced [.logging edit record (.results job)] := hs
    exact (hlog.install edit).unref (singleton_held _)
  | failLogFlush edit record outer written =>
    refine hs.congr ?_ ?_ ?_ ?_ (loggingFlush_held _ _ _).symm
    · cases written <;> rfl
    · cases written <;> rfl
    · cases written <;> rfl
    · cases written <;> rfl
  | failLogMove edit record job written =>
    have hlog : (if written then s.logRecord record else s).Referenced
        [.logging edit record (.move job)] := by
      cases written <;> exact hs
    exact hlog.unref (singleton_held _)
  | failLogResults edit record job written =>
    have hlog : (if written then s.logRecord record else s).Referenced
        [.logging edit record (.results job)] := by
      cases written <;> exact hs
    exact hlog.unref (singleton_held _)

omit [LinearOrder K] in
/-- A reference to the current version has its files. -/
theorem FileState.Referenced.eq_current {s : FileState K} {ps : List (BgPoint K)}
    (h : s.Referenced ps) {r : Held (LevelFiles K)} (hr : r ∈ s.held ps)
    (hid : r.id = s.currentId) : r.value = s.versions.current.files := by
  obtain ⟨n, hn, hnid, hnvalue⟩ := Counted.found h r hr
  obtain ⟨m, hm, hmid, hmvalue⟩ := Counted.found h s.currentVersion List.mem_cons_self
  have heq : n = m := List.inj_on_of_nodup_map h.nodup hn hm (by rw [hnid, hmid, hid]; rfl)
  rw [← hnvalue, heq, hmvalue]
  rfl

/-! ## Pending outputs -/

/-- The outputs of the compaction around `CompactMemTable`. -/
def outerOutputs (outer : Option (BgCompaction K)) : List ℕ := outer.toList.flatMap (·.outputs)

/-- What the background work has put into `pending_outputs_` and not taken out again. -/
def BgPoint.pending : BgPoint K → List ℕ
  | .flushing number _ outer => number :: outerOutputs outer
  | .logging _ _ (.flush outer) => outerOutputs outer
  | .logging _ _ (.move _) | .logging _ _ (.results _) => []
  | .compacting job => job.outputs

/-- `pending_outputs_` has the numbers of the work in progress, which are numbers in use. -/
structure FileState.Pending (s : FileState K) (ps : List (BgPoint K)) : Prop where
  /-- The numbers of the work in progress. -/
  eq : s.pendingOutputs = (ps.flatMap BgPoint.pending).toFinset
  /-- Numbers in use. -/
  lt : ∀ n ∈ s.pendingOutputs, n < s.versions.nextFileNumber
  /-- The table of a memtable is no output of the compaction around it. -/
  fresh : ∀ number base outer, .flushing number base outer ∈ ps → number ∉ outerOutputs outer

omit [LinearOrder K] in
/-- Where the background thread goes on after `CompactMemTable`, the outputs of the outer compaction
are pending. -/
@[simp] theorem resumed_pending (outer : Option (BgCompaction K)) :
    (resumed outer).flatMap BgPoint.pending = outerOutputs outer := by
  cases outer <;> rfl

omit [LinearOrder K] in
/-- What is pending for a list of one thread is what is pending for this thread. -/
@[simp] theorem singleton_pending (p : BgPoint K) : [p].flatMap BgPoint.pending = p.pending := by
  simp

omit [LinearOrder K] in
/-- After `CompactMemTable` there is no flush. -/
theorem flushing_notMem_resumed {number : ℕ} {base : Held (LevelFiles K)}
    {outer' outer : Option (BgCompaction K)} : .flushing number base outer' ∉ resumed outer := by
  cases outer <;> simp [resumed]

/-- Erasing numbers one after the other leaves those that are none of them. -/
theorem foldl_erase (outputs : List ℕ) : ∀ s : Finset ℕ,
    outputs.foldl Finset.erase s = s \ outputs.toFinset := by
  induction outputs with
  | nil => intro s; simp
  | cons n outputs ih =>
    intro s
    rw [List.foldl_cons, ih]
    ext m
    simp only [Finset.mem_sdiff, Finset.mem_erase, List.mem_toFinset, List.mem_cons]
    tauto

omit [LinearOrder K] in
/-- The same numbers are pending, and no flush begins. -/
theorem FileState.Pending.congr {s t : FileState K} {ps qs : List (BgPoint K)} (h : s.Pending ps)
    (hpending : t.pendingOutputs = s.pendingOutputs)
    (hnext : s.versions.nextFileNumber ≤ t.versions.nextFileNumber)
    (hps : qs.flatMap BgPoint.pending = ps.flatMap BgPoint.pending)
    (hfresh : ∀ number base outer, .flushing number base outer ∈ qs → .flushing number base outer ∈ ps) :
    t.Pending qs := by
  refine ⟨?_, ?_, fun number base outer hmem => h.fresh number base outer (hfresh _ _ _ hmem)⟩
  · rw [hpending, hps]
    exact h.eq
  · rw [hpending]
    exact fun n hn => (h.lt n hn).trans_le hnext

omit [LinearOrder K] in
/-- An empty `pending_outputs_` is right when no background work has begun an output. -/
theorem FileState.Pending.none {t : FileState K} {ps : List (BgPoint K)}
    (hpending : t.pendingOutputs = ∅) (hps : ps.flatMap BgPoint.pending = [])
    (hfresh : ∀ number base outer, .flushing number base outer ∉ ps) : t.Pending ps := by
  refine ⟨?_, ?_, fun number base outer hmem => absurd hmem (hfresh _ _ _)⟩
  · rw [hpending, hps]
    rfl
  · rw [hpending]
    exact fun n hn => absurd hn (Finset.notMem_empty n)

omit [LinearOrder K] in
/-- The outputs of a compaction that is given up, or that is installed, are not pending any more. -/
theorem FileState.Pending.erase {s : FileState K} {job : BgCompaction K}
    (h : s.Pending [.compacting job]) : (s.erasePending job.outputs).pendingOutputs = ∅ := by
  show job.outputs.foldl Finset.erase s.pendingOutputs = ∅
  rw [foldl_erase, h.eq, singleton_pending]
  exact Finset.sdiff_self _

omit [LinearOrder K] in
/-- The table of a memtable is not pending any more. -/
theorem FileState.Pending.eraseFlush {s : FileState K} {number : ℕ} {base : Held (LevelFiles K)}
    {outer : Option (BgCompaction K)} (h : s.Pending [.flushing number base outer]) :
    s.pendingOutputs.erase number = (outerOutputs outer).toFinset := by
  have hfresh := h.fresh number base outer (List.mem_singleton_self _)
  rw [h.eq, singleton_pending]
  show (number :: outerOutputs outer).toFinset.erase number = _
  rw [List.toFinset_cons, Finset.erase_insert]
  rwa [List.mem_toFinset]

/-- Every step keeps `pending_outputs_` in step with the background work. -/
theorem FileStep.pending {s t : FileState K} {ps qs : List (BgPoint K)} (h : FileStep s ps t qs)
    (hs : s.Pending ps) : t.Pending qs := by
  cases h with
  | skip => exact hs
  | acquire => exact hs.congr rfl le_rfl rfl fun _ _ _ => id
  | release hr => exact hs.congr rfl le_rfl rfl fun _ _ _ => id
  | endGet hr => exact hs.congr rfl le_rfl rfl fun _ _ _ => id
  | newFileNumber => exact hs.congr rfl (Nat.le_succ _) rfl fun _ _ _ => id
  | addSequence => exact hs.congr rfl le_rfl rfl fun _ _ _ => id
  | switchMemTable => exact hs.congr rfl (Nat.le_succ _) rfl fun _ _ _ => id
  | beginFlush outer =>
    refine ⟨?_, ?_, ?_⟩
    · show insert s.versions.nextFileNumber s.pendingOutputs = _
      rw [hs.eq, resumed_pending, singleton_pending]
      exact List.toFinset_cons.symm
    · intro n hn
      rcases Finset.mem_insert.mp hn with rfl | hn
      · exact Nat.lt_succ_self _
      · exact (hs.lt n hn).trans (Nat.lt_succ_self _)
    · intro number base outer' hmem hout
      obtain ⟨rfl, -, rfl⟩ := BgPoint.flushing.inj (List.mem_singleton.mp hmem)
      -- Numbers that are pending are in use, and this one is new.
      have hpending : s.versions.nextFileNumber ∈ s.pendingOutputs := by
        rw [hs.eq, resumed_pending, List.mem_toFinset]
        exact hout
      exact absurd (hs.lt _ hpending) (Nat.lt_irrefl _)
  | failFlush number base outer result =>
    refine ⟨?_, ?_, fun _ _ _ hmem => absurd hmem flushing_notMem_resumed⟩
    · rw [resumed_pending]
      exact hs.eraseFlush
    · exact fun n hn => hs.lt n (Finset.mem_of_mem_erase hn)
  | logFlush number base outer result =>
    refine ⟨?_, ?_, fun _ _ _ hmem => by cases List.mem_singleton.mp hmem⟩
    · rw [singleton_pending]
      exact hs.eraseFlush
    · exact fun n hn => hs.lt n (Finset.mem_of_mem_erase hn)
  | @beginJob job _ _ houtputs =>
    refine FileState.Pending.none hs.eq ?_ fun _ _ _ hmem => by cases List.mem_singleton.mp hmem
    rw [singleton_pending]
    exact houtputs
  | beginMove =>
    refine FileState.Pending.none hs.eq ?_ fun _ _ _ hmem => by cases List.mem_singleton.mp hmem
    rw [singleton_pending]
    rfl
  | openOutput job =>
    refine ⟨?_, ?_, fun _ _ _ hmem => by cases List.mem_singleton.mp hmem⟩
    · show insert s.versions.nextFileNumber s.pendingOutputs = _
      rw [hs.eq, singleton_pending, singleton_pending]
      show insert _ job.outputs.toFinset = (job.outputs ++ [s.versions.nextFileNumber]).toFinset
      ext n
      simp only [Finset.mem_insert, List.mem_toFinset, List.mem_append, List.mem_singleton,
        or_comm]
    · intro n hn
      rcases Finset.mem_insert.mp hn with rfl | hn
      · exact Nat.lt_succ_self _
      · exact (hs.lt n hn).trans (Nat.lt_succ_self _)
  | failOutput job =>
    refine FileState.Pending.none ?_ rfl fun _ _ _ => List.not_mem_nil
    show (job.outputs ++ [s.versions.nextFileNumber]).foldl Finset.erase
      (insert s.versions.nextFileNumber s.pendingOutputs) = ∅
    rw [foldl_erase, hs.eq, singleton_pending, Finset.sdiff_eq_empty_iff_subset]
    intro n hn
    rw [List.mem_toFinset, List.mem_append, List.mem_singleton]
    rcases Finset.mem_insert.mp hn with rfl | hn
    · exact Or.inr rfl
    · exact Or.inl (List.mem_toFinset.mp hn)
  | giveUp job => exact FileState.Pending.none hs.erase rfl fun _ _ _ => List.not_mem_nil
  | logResults job outputs =>
    refine FileState.Pending.none hs.erase ?_ fun _ _ _ hmem => by
      cases List.mem_singleton.mp hmem
    rw [singleton_pending]
    rfl
  | installFlush edit record outer undeleted =>
    refine hs.congr rfl le_rfl ?_ fun _ _ _ hmem => absurd hmem flushing_notMem_resumed
    rw [singleton_pending, resumed_pending]
    rfl
  | installMove edit record job => exact hs.congr rfl le_rfl rfl fun _ _ _ => by simp
  | installResults edit record job undeleted => exact hs.congr rfl le_rfl rfl fun _ _ _ => by simp
  | failLogFlush edit record outer written =>
    refine hs.congr ?_ ?_ ?_ fun _ _ _ hmem => absurd hmem flushing_notMem_resumed
    · cases written <;> rfl
    · cases written <;> exact le_rfl
    · rw [singleton_pending, resumed_pending]
      rfl
  | failLogMove edit record job written =>
    refine hs.congr ?_ ?_ rfl fun _ _ _ => by simp
    · cases written <;> rfl
    · cases written <;> exact le_rfl
  | failLogResults edit record job written =>
    refine hs.congr ?_ ?_ rfl fun _ _ _ => by simp
    · cases written <;> rfl
    · cases written <;> exact le_rfl

end LevelDb
