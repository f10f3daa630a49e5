import LevelDb.Env.MapFile

/-!
# What a successful `Sync` means

A byte is durable when a flush that covers it has succeeded after it was written. `Sync` clears
`_pending_sync` and moves `_last_sync` before it knows whether its flushes succeed, so that a `Sync`
after one that failed may have nothing to do. It is still right when what was appended before the
failure has left the mapped region and `_pending_sync` was set again.
-/

namespace LevelDb.Win32

/-- A flush that has succeeded covers a byte that had been appended by then. -/
def MapFile.Durable (f : MapFile) (p : ℕ) : Prop :=
  ∃ flush ∈ f.flushes, flush.first ≤ p ∧ p < flush.first + flush.length ∧ p < flush.written

/-- How many bytes had been appended at the last `Sync`, if it failed. -/
def MapFile.failedAfter (f : MapFile) (sys : System) (o : FlushResults) : ℕ :=
  if (f.sync sys o).2 then 0 else f.written

/-- A `Sync` after one that failed, when so many bytes had been appended: they have all left the mapped
region, and `_pending_sync` is set. -/
def MapFile.CanRetry (f : MapFile) (failed : ℕ) : Prop :=
  0 < failed → f.pendingSync = true ∧ failed ≤ f.fileOffset

/-- In some calls, every `Sync` after one that failed can make up for it. -/
def MapFile.Retries (sys : System) : MapFile → ℕ → List Call → Prop
  | _, _, [] => True
  | f, failed, .append data :: calls =>
    ∀ g r, f.append sys data = some (g, r) → MapFile.Retries sys g failed calls
  | f, failed, .sync o :: calls =>
    f.CanRetry failed ∧ MapFile.Retries sys (f.sync sys o).1 (f.failedAfter sys o) calls

/-- Every byte is durable, or a `Sync` that failed should have made it durable, or the next `Sync` will
do so. -/
def MapFile.Accounted (f : MapFile) (failed : ℕ) : Prop :=
  ∀ p < f.written, f.Durable p ∨ p < failed ∨ (p < f.fileOffset ∧ f.pendingSync = true) ∨
    f.fileOffset + (f.lastSync - f.base) ≤ p

section Accounting

variable {sys : System} {old : Option Slice} {data : Slice} {f : MapFile} {failed : ℕ}

/-- A full region is unmapped and another one is mapped. -/
theorem MapFile.Inv.nextRegion_accounted (hinv : f.Inv sys old data) (hsys : sys.Succeeds)
    (h : f.Accounted failed) (hfull : f.limit - f.dst = 0) :
    (f.unmapCurrentRegion.mapNewRegion sys).1.Accounted failed := by
  unfold MapFile.mapNewRegion
  dsimp only
  rw [if_neg (hsys f.unmapCurrentRegion.fileOffset)]
  intro p hp
  by_cases hbase : f.base = 0
  · -- Nothing has been appended.
    obtain ⟨rfl, -⟩ := hinv.unmapped hbase
    have hzero : p < 0 + (sys.view 0 - sys.view 0) := hp
    omega
  · have hunmap : f.unmapCurrentRegion = { f with
        pendingSync := f.pendingSync || decide (f.lastSync < f.limit)
        fileOffset := f.regionEnd
        base := 0
        limit := 0
        lastSync := 0
        dst := 0
        mapSize := if f.mapSize < 2^20 then f.mapSize * 2 else f.mapSize } := if_neg hbase
    rw [hunmap] at hp ⊢
    have hlt : p < f.regionEnd + (sys.view f.regionEnd - sys.view f.regionEnd) := hp
    have hend : p < f.regionEnd := by omega
    have hwritten : p < f.written := by
      have := hinv.dst_le
      unfold MapFile.regionEnd at hend
      unfold MapFile.written
      omega
    show f.Durable p ∨ p < failed ∨
      (p < f.regionEnd ∧ (f.pendingSync || decide (f.lastSync < f.limit)) = true) ∨ _
    obtain hdurable | hfailed | ⟨-, hpending⟩ | hregion := h p hwritten
    · exact Or.inl hdurable
    · exact Or.inr (Or.inl hfailed)
    · exact Or.inr (Or.inr (Or.inl ⟨hend, by rw [hpending, Bool.true_or]⟩))
    · -- Some of the region was not synced.
      have hlast : f.lastSync < f.limit := by
        unfold MapFile.written at hwritten
        have := hinv.dst_le
        omega
      exact Or.inr (Or.inr (Or.inl ⟨hend, by rw [decide_eq_true hlast, Bool.or_true]⟩))

/-- Data are copied to the region that is mapped. -/
theorem MapFile.Accounted.copy (h : f.Accounted failed) (hle : f.lastSync ≤ f.dst) (more : Slice) :
    (f.copy more).Accounted failed := by
  intro p hp
  by_cases hold : p < f.written
  · exact h p hold
  · refine Or.inr (Or.inr (Or.inr ?_))
    show f.fileOffset + (f.lastSync - f.base) ≤ p
    unfold MapFile.written at hold
    omega

/-- One round of the loop of `Append`. -/
theorem MapFile.Inv.appendRound_accounted (hinv : f.Inv sys old data) (hsys : sys.Succeeds)
    (h : f.Accounted failed) (left : Slice) : (f.appendRound sys left).1.Accounted failed := by
  unfold MapFile.appendRound
  dsimp only
  by_cases hfull : f.limit - f.dst = 0
  · obtain ⟨f', hnext, hinv', -⟩ := hinv.nextRegion hsys hfull
    have haccounted := hinv.nextRegion_accounted hsys h hfull
    rw [hnext] at haccounted
    rw [if_pos hfull, hnext, if_pos rfl]
    exact haccounted.copy hinv'.lastSync_le _
  · rw [if_neg hfull, if_pos rfl]
    exact h.copy hinv.lastSync_le _

/-- The loop of `Append` keeps every byte accounted for, by induction on its rounds. -/
theorem MapFile.appendLoop_accounted (hsys : sys.Succeeds) (fuel : ℕ) :
    ∀ {f : MapFile} {data left : Slice}, f.Inv sys old data → f.Accounted failed →
      ∀ {g : MapFile} {r : Bool}, MapFile.appendLoop sys fuel f left = some (g, r) →
        g.Accounted failed := by
  induction fuel with
  | zero =>
    intro f data left hinv h g r hloop
    cases left with
    | nil =>
      obtain ⟨rfl, -⟩ := Prod.mk.inj (Option.some.inj hloop)
      exact h
    | cons b left => exact absurd hloop (Option.some_ne_none _).symm
  | succ fuel ih =>
    intro f data left hinv h g r hloop
    cases left with
    | nil =>
      obtain ⟨rfl, -⟩ := Prod.mk.inj (Option.some.inj hloop)
      exact h
    | cons b left =>
      obtain ⟨f', n, hround, hinv', -⟩ := hinv.appendRound hsys (List.cons_ne_nil b left)
      have hround' := hinv.appendRound_accounted hsys h (b :: left)
      rw [hround] at hround'
      rw [MapFile.appendLoop, hround] at hloop
      exact ih hinv' hround' hloop

/-- The region of `f` is still mapped, and nothing more of it has been synced, or it was left, and
`_pending_sync` was set. -/
def MapFile.Leaves (f g : MapFile) : Prop :=
  (g.fileOffset = f.fileOffset ∧ g.base = f.base ∧ g.limit = f.limit ∧ g.lastSync = f.lastSync) ∨
    (g.pendingSync = true ∧ f.regionEnd ≤ g.fileOffset)

/-- One round of the loop of `Append` leaves the region with a `Sync` to do, if some of it was not synced. -/
theorem MapFile.Leaves.appendRound {g : MapFile} (h : f.Leaves g) (hsys : sys.Succeeds) (hbase : f.base ≠ 0)
    (hsync : f.lastSync < f.limit) (left : Slice) : f.Leaves (g.appendRound sys left).1 := by
  unfold MapFile.appendRound
  dsimp only
  by_cases hfull : g.limit - g.dst = 0
  · rw [if_pos hfull]
    unfold MapFile.mapNewRegion
    dsimp only
    rw [if_neg (hsys g.unmapCurrentRegion.fileOffset), if_pos rfl]
    right
    change g.unmapCurrentRegion.pendingSync = true ∧ f.regionEnd ≤ g.unmapCurrentRegion.fileOffset
    unfold MapFile.unmapCurrentRegion
    obtain ⟨hoffset, hbase', hlimit, hlast⟩ | ⟨hpending, hend⟩ := h
    · rw [if_neg (hbase'.trans_ne hbase), hoffset, hbase', hlimit, hlast, decide_eq_true hsync, Bool.or_true]
      exact ⟨rfl, le_rfl⟩
    · by_cases hnull : g.base = 0
      · rw [if_pos hnull]
        exact ⟨hpending, hend⟩
      · rw [if_neg hnull, hpending, Bool.true_or]
        exact ⟨rfl, hend.trans (Nat.le_add_right _ _)⟩
  · rw [if_neg hfull, if_pos rfl]
    exact h

/-- The loop of `Append` leaves the region so. -/
theorem MapFile.Leaves.appendLoop (hsys : sys.Succeeds) (hbase : f.base ≠ 0) (hsync : f.lastSync < f.limit)
    (fuel : ℕ) : ∀ {g g' : MapFile} {left : Slice} {r : Bool}, f.Leaves g →
      MapFile.appendLoop sys fuel g left = some (g', r) → f.Leaves g' := by
  induction fuel with
  | zero =>
    intro g g' left r h hloop
    cases left with
    | nil =>
      obtain ⟨rfl, -⟩ := Prod.mk.inj (Option.some.inj hloop)
      exact h
    | cons b left => exact absurd hloop (Option.some_ne_none _).symm
  | succ fuel ih =>
    intro g g' left r h hloop
    cases left with
    | nil =>
      obtain ⟨rfl, -⟩ := Prod.mk.inj (Option.some.inj hloop)
      exact h
    | cons b left =>
      have hround := h.appendRound hsys hbase hsync (b :: left)
      rw [MapFile.appendLoop] at hloop
      split at hloop
      · next f' heq =>
        obtain ⟨rfl, -⟩ := Prod.mk.inj (Option.some.inj hloop)
        rw [heq] at hround
        exact hround
      · next f' left' heq =>
        rw [heq] at hround
        exact ih hround hloop

/-- After more data than the region has room for, the next `Sync` can make up for one that failed before. -/
theorem MapFile.Inv.canRetry_append (hinv : f.Inv sys old data) (hsys : sys.Succeeds) (hbase : f.base ≠ 0)
    (hsync : f.lastSync < f.limit) {more : Slice} (hmore : f.limit < f.dst + more.length) {g : MapFile}
    {r : Bool} (happend : f.append sys more = some (g, r)) : g.CanRetry f.written := by
  intro _
  obtain ⟨g', happend', hinv'⟩ := hinv.append hsys more
  obtain ⟨rfl, -⟩ := Prod.mk.inj (Option.some.inj (happend.symm.trans happend'))
  have hlength := hinv.length
  have hlength' := hinv'.length
  have hle := hinv.base_le.trans hinv.lastSync_le
  have hdst := hinv.dst_le
  have hdst' := hinv'.dst_le
  rw [List.length_append] at hlength'
  have hleaves : f.Leaves g := MapFile.Leaves.appendLoop hsys hbase hsync _ (Or.inl ⟨rfl, rfl, rfl, rfl⟩) happend
  unfold MapFile.written at hlength hlength' ⊢
  obtain ⟨hoffset, hbase', hlimit, -⟩ | ⟨hpending, hend⟩ := hleaves
  · -- The region is too small for all of the data.
    rw [hoffset, hbase'] at hlength'
    rw [hlimit] at hdst'
    omega
  · unfold MapFile.regionEnd at hend
    exact ⟨hpending, by omega⟩

/-- A page boundary is not behind the address, and the next one is. -/
theorem System.truncateToPageBoundary_spec (sys : System) (s : ℕ) :
    sys.truncateToPageBoundary s ≤ s ∧ s < sys.truncateToPageBoundary s + sys.pageSize := by
  obtain ⟨k, hk⟩ := sys.isPowerOfTwo
  have hmod : s &&& (sys.pageSize - 1) = s % sys.pageSize := by
    rw [hk]
    exact Nat.and_two_pow_sub_one_eq_mod s k
  have hlt : s % sys.pageSize < sys.pageSize := Nat.mod_lt s sys.pageSize_pos
  have hle : s % sys.pageSize ≤ s := Nat.mod_le s _
  unfold System.truncateToPageBoundary
  rw [hmod]
  omega

/-- A byte that is durable stays durable after another flush. -/
theorem MapFile.Durable.flush {p : ℕ} (h : f.Durable p) (first length : ℕ) (succeeds : Bool) :
    (f.flush first length succeeds).Durable p := by
  obtain ⟨fl, hmem, hcovers⟩ := h
  unfold MapFile.flush
  split_ifs with hsucceeds
  · exact ⟨fl, List.mem_cons_of_mem _ hmem, hcovers⟩
  · exact ⟨fl, hmem, hcovers⟩

/-- A flush that succeeds makes its range durable. -/
theorem MapFile.flush_durable {first length p : ℕ} (hfirst : first ≤ p) (hlength : p < first + length)
    (hwritten : p < f.written) : (f.flush first length true).Durable p :=
  ⟨⟨first, length, f.written⟩, List.mem_cons_self, hfirst, hlength, hwritten⟩

/-- The first part of `Sync`, when it succeeds: what is left is in the mapped region. -/
theorem MapFile.Accounted.syncUnmapped (h : f.Accounted failed) (hretry : f.CanRetry failed)
    (o : FlushResults) (hok : (f.syncUnmapped o).2 = true) {p : ℕ} (hp : p < f.written) :
    (f.syncUnmapped o).1.Durable p ∨ f.fileOffset + (f.lastSync - f.base) ≤ p := by
  have hpending : p < f.fileOffset → f.pendingSync = true → (f.syncUnmapped o).1.Durable p := by
    intro hlt hpending
    unfold MapFile.syncUnmapped at hok ⊢
    rw [if_pos hpending] at hok ⊢
    have hflush : o.fileBuffers = true := hok
    rw [hflush]
    exact MapFile.flush_durable (Nat.zero_le p) (by omega) hp
  obtain hdurable | hfailed | ⟨hlt, hset⟩ | hregion := h p hp
  · left
    unfold MapFile.syncUnmapped
    split_ifs with hset
    · exact MapFile.Durable.flush (f := { f with pendingSync := false }) hdurable _ _ _
    · exact hdurable
  · obtain ⟨hset, hle⟩ := hretry (by omega)
    exact Or.inl (hpending (by omega) hset)
  · exact Or.inl (hpending hlt hset)
  · exact Or.inr hregion

/-- `Sync` returns OK, and every byte is durable. -/
theorem MapFile.Inv.durable_of_ok (hinv : f.Inv sys old data) (h : f.Accounted failed)
    (hretry : f.CanRetry failed) (o : FlushResults) (hok : (f.sync sys o).2 = true) :
    ∀ p < f.written, (f.sync sys o).1.Durable p := by
  intro p hp
  obtain ⟨hok₁, hok₂⟩ := Bool.and_eq_true_iff.mp hok
  have hunmapped := h.syncUnmapped hretry o hok₁ hp
  have heq := f.syncUnmapped_eq o
  show ((f.syncUnmapped o).1.syncRegion sys o).1.Durable p
  set g := (f.syncUnmapped o).1
  have hfields : g.lastSync = f.lastSync ∧ g.dst = f.dst ∧ g.base = f.base ∧
      g.fileOffset = f.fileOffset := by
    rw [heq]
    exact ⟨rfl, rfl, rfl, rfl⟩
  obtain ⟨hlast, hdst, hbase, hoffset⟩ := hfields
  unfold MapFile.syncRegion at hok₂ ⊢
  obtain hdurable | hregion := hunmapped
  · split_ifs
    · exact MapFile.Durable.flush (f := { g with lastSync := g.dst }) hdurable _ _ _
    · exact hdurable
  · -- The byte is in a page between `p1` and `p2`.
    have hle := hinv.base_le
    unfold MapFile.written at hp
    have hsome : g.lastSync < g.dst := by omega
    rw [if_pos hsome] at hok₂ ⊢
    have hflush : o.viewOfFile = true := hok₂
    rw [hflush]
    obtain ⟨hp₁, -⟩ := sys.truncateToPageBoundary_spec (g.lastSync - g.base)
    obtain ⟨hp₂, hp₂'⟩ := sys.truncateToPageBoundary_spec (g.dst - g.base - 1)
    refine MapFile.flush_durable ?_ ?_ ?_
    · omega
    · omega
    · show p < g.fileOffset + (g.dst - g.base)
      omega

/-- After `Sync` every byte is accounted for, with what had been appended if it failed. -/
theorem MapFile.Inv.sync_accounted (hinv : f.Inv sys old data) (h : f.Accounted failed)
    (hretry : f.CanRetry failed) (o : FlushResults) :
    (f.sync sys o).1.Accounted (f.failedAfter sys o) := by
  intro p hp
  have hwritten : (f.sync sys o).1.written = f.written := by
    rw [f.sync_eq]
    rfl
  rw [hwritten] at hp
  unfold MapFile.failedAfter
  split_ifs with hok
  · exact Or.inl (hinv.durable_of_ok h hretry o hok p hp)
  · exact Or.inr (Or.inl hp)

/-- Calls in which every `Sync` after one that failed can make up for it. -/
theorem MapFile.Inv.run_durable (hsys : sys.Succeeds) (o : FlushResults) (rest calls : List Call) :
    ∀ {f : MapFile} {data : Slice} {failed : ℕ}, f.Inv sys old data → f.Accounted failed →
      MapFile.Retries sys f failed (calls ++ .sync o :: rest) →
      ∃ g, MapFile.run sys f calls = some g ∧
        ((g.sync sys o).2 = true → ∀ p < (data ++ appended calls).length,
          (g.sync sys o).1.Durable p) := by
  induction calls with
  | nil =>
    intro f data failed hinv h hretries
    refine ⟨f, rfl, fun hok p hp => hinv.durable_of_ok h hretries.1 o hok p ?_⟩
    rw [appended, List.flatMap_nil, List.append_nil, ← hinv.length] at hp
    exact hp
  | cons call calls ih =>
    intro f data failed hinv h hretries
    cases call with
    | append more =>
      obtain ⟨g, happend, hg⟩ := hinv.append hsys more
      have hg' : g.Accounted failed := MapFile.appendLoop_accounted hsys _ hinv h happend
      obtain ⟨f', hrun, hdurable⟩ := ih hg hg' (hretries g true happend)
      refine ⟨f', ?_, ?_⟩
      · rw [MapFile.run, happend]
        exact hrun
      · rw [List.append_assoc] at hdurable
        exact hdurable
    | sync o' => exact ih (hinv.sync o') (hinv.sync_accounted h hretries.1 o') hretries.2

end Accounting

/-- In calls of `Append` and `Sync` in which any flush may fail, and every `Sync` after one that failed
can make up for it, whenever `Sync` returns OK every byte that was appended before it is durable. -/
theorem sync_durable (sys : System) (hsys : sys.Succeeds) (old : Option Slice) (calls : List Call)
    (h : MapFile.Retries sys (sys.openFile old) 0 calls) :
    ∀ before o after, calls = before ++ .sync o :: after →
      ∃ f, MapFile.run sys (sys.openFile old) before = some f ∧
        ((f.sync sys o).2 = true → ∀ p < (appended before).length, (f.sync sys o).1.Durable p) := by
  intro before o after hcalls
  rw [hcalls] at h
  have haccounted : (sys.openFile old).Accounted 0 := fun p hp => absurd hp (Nat.not_lt_zero p)
  exact MapFile.Inv.run_durable hsys o after before (sys.openFile_inv old) haccounted h

/-- When the flushes succeed, `Sync` returns OK. -/
theorem MapFile.sync_ok (f : MapFile) (sys : System) : (f.sync sys ⟨true, true⟩).2 = true := by
  unfold MapFile.sync MapFile.syncUnmapped MapFile.syncRegion
  dsimp only
  split_ifs <;> rfl

/-- A `Sync` fails, so much is appended that the first region is full, and the next `Sync` makes up for the
first one. -/
theorem sync_durable_example : exampleSystem.Succeeds ∧
    ∃ f, MapFile.run exampleSystem (exampleSystem.openFile none)
        [.append (ascii "a"), .sync ⟨true, false⟩, .append (List.replicate 65536 98)] = some f ∧
      (f.sync exampleSystem ⟨true, true⟩).1.Durable 0 ∧ (f.sync exampleSystem ⟨true, true⟩).1.Durable 65536 := by
  have hsys : exampleSystem.Succeeds := fun offset => Nat.succ_ne_zero _
  have hretries : MapFile.Retries exampleSystem (exampleSystem.openFile none) 0
      [.append (ascii "a"), .sync ⟨true, false⟩, .append (List.replicate 65536 98), .sync ⟨true, true⟩] := by
    intro g r happend
    refine ⟨fun h => absurd h (lt_irrefl 0), fun g' r' happend' => ⟨?_, trivial⟩⟩
    -- After the `Sync` that fails, the region has room for 65535 bytes.
    obtain ⟨file, hfirst⟩ : ∃ file, (exampleSystem.openFile none).append exampleSystem (ascii "a") =
        some ({ file := file, mapSize := 65536, base := 65536, limit := 131072, dst := 65537,
                lastSync := 65536, regions := [(0, 65536)] }, true) := ⟨_, rfl⟩
    obtain ⟨f, happended, hinv⟩ := (exampleSystem.openFile_inv none).append hsys (ascii "a")
    obtain ⟨rfl, -⟩ := Prod.mk.inj (Option.some.inj (hfirst.symm.trans happended))
    obtain ⟨rfl, -⟩ := Prod.mk.inj (Option.some.inj (hfirst.symm.trans happend))
    have hroom : 131072 < 65537 + (List.replicate 65536 (98 : UInt8)).length := by
      rw [List.length_replicate]
      decide
    exact (hinv.sync ⟨true, false⟩).canRetry_append hsys (show 65536 ≠ 0 by decide)
      (show 65537 < 131072 by decide) hroom happend'
  obtain ⟨f, hrun, hdurable⟩ := sync_durable exampleSystem hsys none _ hretries
    [.append (ascii "a"), .sync ⟨true, false⟩, .append (List.replicate 65536 98)] ⟨true, true⟩ [] rfl
  have hlength : (appended [.append (ascii "a"), .sync ⟨true, false⟩, .append (List.replicate 65536 98)]).length =
      65537 := by
    change (ascii "a" ++ ([] ++ (List.replicate 65536 98 ++ []))).length = 65537
    rw [List.length_append, List.nil_append, List.append_nil, List.length_replicate]
    rfl
  rw [hlength] at hdurable
  have hall := hdurable (f.sync_ok _)
  exact ⟨hsys, f, hrun, hall 0 (by decide), hall 65536 (by decide)⟩

/-- A byte is appended, `FlushViewOfFile` fails, and a second `Sync` returns OK without flushing it. -/
theorem retried_sync_not_durable : exampleSystem.Succeeds ∧
    ∃ f, MapFile.run exampleSystem (exampleSystem.openFile none)
        [.append (ascii "a"), .sync ⟨true, false⟩] = some f ∧
      (f.sync exampleSystem ⟨true, true⟩).2 = true ∧ ¬(f.sync exampleSystem ⟨true, true⟩).1.Durable 0 := by
  have hrun : (MapFile.run exampleSystem (exampleSystem.openFile none)
      [.append (ascii "a"), .sync ⟨true, false⟩]).any
        (fun f => (f.sync exampleSystem ⟨true, true⟩).1.flushes.isEmpty) = true := by decide
  obtain ⟨f, hf, hempty⟩ := (Option.any_eq_true _ _).mp hrun
  refine ⟨fun offset => Nat.succ_ne_zero _, f, hf, f.sync_ok _, ?_⟩
  rintro ⟨flush, hmem, -⟩
  rw [List.isEmpty_iff.mp hempty] at hmem
  exact List.not_mem_nil hmem

end LevelDb.Win32
