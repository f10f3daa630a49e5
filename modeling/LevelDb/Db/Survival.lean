import LevelDb.Db.SiteOpen
import Mathlib.Data.List.MinMax

/-!
# Acknowledged writes survive

A crash leaves a directory that `DB::Open` makes a database of, whatever the process was doing: writing,
flushing a memtable, compacting, installing a version, deleting files or opening the database after an
earlier crash. The database has every batch for which `Write` has returned OK, but for what newer entries
hide and for deletion markers that compactions have left out.
-/

namespace LevelDb

open Lib

variable {K V : Type} [LinearOrder K] [Inhabited V]

/-- There is no database yet. -/
structure Directory.Fresh (dir : Directory K V) (j : Journal K V) : Prop where
  /-- `CURRENT` -/
  current : dir.current = none
  /-- The log files. -/
  logs : dir.logs = []
  /-- The table files. -/
  tables : dir.tables = fun _ => []
  /-- Nothing has been written. -/
  written : j.written = []
  /-- Nor acknowledged. -/
  acknowledged : j.acknowledged = []

/-- What holds between any two steps. -/
def Site.Sound (o : DbOptions K V) (x : Site K V) : Prop :=
  match x.stage with
  | .down => x.dir.Fresh x.journal ∨
    ∃ manifest logs vs m last, x.dir.Ready o x.journal manifest logs vs m last
  | .creating => x.dir.Fresh x.journal ∧ x.dir.manifests 1 = newDbManifest o
  | .replaying r => r.Sound o x.dir x.journal
  | .opening r => r.Sound o x.dir x.journal
  | .up s => s.Sound o x.dir x.journal

section Steps

variable {o : DbOptions K V}

/-- A new database, once `CURRENT` names its manifest. -/
theorem Directory.Fresh.ready {dir : Directory K V} {j : Journal K V} (h : dir.Fresh j)
    (hmanifest : dir.manifests 1 = newDbManifest o) :
    { dir with current := some 1 }.Ready o j 1 [] ({} : VersionSet K) ⟨0, 0, 2, 0⟩ 0 := by
  refine ⟨rfl, ?_, ?_, by decide, Or.inl rfl, by decide, ?_⟩
  · show Openable o (dir.manifests 1) dir.tables [] _ _ _
    rw [hmanifest, h.tables]
    exact openable_create o
  · show logsToRecover _ dir.logs = []
    rw [h.logs]
    rfl
  · refine ⟨fun b hb => ?_, ?_, fun e he => ?_⟩
    · rw [h.acknowledged] at hb
      exact absurd hb List.not_mem_nil
    · rintro e (⟨l, f, hf, -⟩ | he)
      · simp at hf
      · exact absurd he List.not_mem_nil
    · rw [h.written] at he
      exact absurd he List.not_mem_nil

/-- A crash at any point of a sound history leaves files that the next `DB::Open` can read. -/
theorem Site.Sound.crash {x : Site K V} (h : x.Sound o) : { x with stage := .down }.Sound o := by
  unfold Site.Sound at h
  cases hstage : x.stage with
  | down =>
    rw [hstage] at h
    exact h
  | creating =>
    rw [hstage] at h
    exact Or.inl h.1
  | replaying r =>
    rw [hstage] at h
    obtain ⟨manifest, logs, vs, m, last, vs₀, tables₀, hfrom⟩ := h
    exact Or.inr ⟨manifest, logs, vs, m, last, hfrom.ready⟩
  | opening r =>
    rw [hstage] at h
    obtain ⟨manifest, logs, vs, m, last, hready, -⟩ := h.ready
    exact Or.inr ⟨manifest, logs, vs, m, last, hready⟩
  | up s =>
    rw [hstage] at h
    exact Or.inr h.ready

/-- How far `DB::Open` is from its end, in `DBImpl::Recover` and behind it. -/
def Stage.rank : Stage K V → ℕ
  | .down | .creating | .up _ => 0
  | .replaying r => r.rank + 5
  | .opening r => r.stage.left + 1

/-- `DB::Open` starts, or goes on after `NewDB`. -/
theorem Site.Sound.recover {x : Site K V} (h : x.Sound o) :
    (x.stage = .down → ∃ y, x.open o = some y ∧ y.Sound o ∧ y.journal = x.journal ∧
      (y.stage = .creating ∨ ∃ r, y.stage = .replaying r)) ∧
    (x.stage = .creating → ∃ y, x.open o = some y ∧ y.Sound o ∧ y.journal = x.journal ∧
      ∃ r, y.stage = .replaying r) := by
  obtain ⟨dir, stage, j⟩ := x
  refine ⟨?_, ?_⟩
  · rintro rfl
    rcases h with hfresh | ⟨manifest, logs, vs, m, last, hready⟩
    · have hmanifest : (dir.createManifest 1 (newDbManifest o)).manifests 1 = newDbManifest o := by
        simp [Directory.createManifest]
      refine ⟨⟨dir.createManifest 1 (newDbManifest o), .creating, j⟩, ?_, ⟨?_, hmanifest⟩, rfl, Or.inl rfl⟩
      · unfold Site.open
        dsimp only
        rw [hfresh.current]
      · exact ⟨hfresh.current, hfresh.logs, hfresh.tables, hfresh.written, hfresh.acknowledged⟩
    · obtain ⟨r, hr, hsound⟩ := hready.replaying
      refine ⟨⟨dir, .replaying r, j⟩, ?_, hsound, rfl, Or.inr ⟨r, rfl⟩⟩
      unfold Site.open
      dsimp only
      rw [hready.current]
      dsimp only
      rw [hr]
  · rintro rfl
    obtain ⟨hfresh, hmanifest⟩ := h
    obtain ⟨r, hr, hsound⟩ := (hfresh.ready hmanifest).replaying
    refine ⟨⟨{ dir with current := some 1 }, .replaying r, j⟩, ?_, hsound, rfl, ⟨r, rfl⟩⟩
    show some (Site.mk { dir with current := some 1 } (dir.recover o 1) j) = _
    rw [show dir.recover o 1 = .replaying r from hr]

/-- A `DB::Open` that is not at its end can take its next step, which keeps the files sound and the
history as it was, and comes nearer to the end. -/
theorem Site.Sound.advance {x : Site K V} (h : x.Sound o) (hrank : 0 < x.stage.rank) :
    ∃ y, x.open o = some y ∧ y.Sound o ∧ y.journal = x.journal ∧ y.stage.rank < x.stage.rank ∧
      (y.stage.rank = 0 → ∃ t : Opening K, y.stage = .up t.session) := by
  obtain ⟨dir, stage, j⟩ := x
  cases stage with
  | down => exact absurd hrank (lt_irrefl 0)
  | creating => exact absurd hrank (lt_irrefl 0)
  | up s => exact absurd hrank (lt_irrefl 0)
  | replaying r =>
    cases hlogs : r.logs with
    | nil =>
      refine ⟨⟨(r.newLog dir).1, .opening (r.newLog dir).2, j⟩, ?_, Replaying.Sound.newLog h hlogs, rfl, ?_,
        fun hzero => (by cases hzero)⟩
      · unfold Site.open
        dsimp only
        rw [hlogs]
      · show 3 + 1 < r.rank + 5
        omega
    | cons log logs =>
      obtain ⟨number, batches⟩ := log
      obtain ⟨-, -, -, hlt⟩ := Replaying.round_spec o r dir hlogs
      refine ⟨⟨(r.round o dir number batches logs).1, .replaying (r.round o dir number batches logs).2, j⟩,
        ?_, Replaying.Sound.round h hlogs, rfl, Nat.add_lt_add_right hlt 5, fun hzero => (by cases hzero)⟩
      unfold Site.open
      dsimp only
      rw [hlogs]
  | opening r =>
    cases hstep : r.writeManifest o dir with
    | some t =>
      obtain ⟨hsound, hlt⟩ := Opening.Sound.writeManifest h hstep
      refine ⟨⟨t.1, .opening t.2, j⟩, ?_, hsound, rfl, Nat.add_lt_add_right hlt 1,
        fun hzero => (by cases hzero)⟩
      unfold Site.open
      dsimp only
      rw [hstep]
    | none =>
      refine ⟨⟨{ dir with current := some r.versions.manifestFileNumber }, .up r.session, j⟩, ?_,
        Opening.Sound.session h (r.writeManifest_eq_none hstep), rfl, Nat.succ_pos _,
        fun _ => ⟨r, rfl⟩⟩
      unfold Site.open
      dsimp only
      rw [hstep]

/-- `DB::Open` ends with the database open. -/
def Site.Opens (o : DbOptions K V) (x : Site K V) : Prop :=
  ∃ k y, ∃ t : Opening K, x.run o (List.replicate k .open) = some y ∧ y.stage = .up t.session ∧
    y.Sound o ∧ y.journal = x.journal

/-- If `DB::Open` reaches an open database from the state after a step, it does so from the state
before. -/
theorem Site.Opens.of_open {x y : Site K V} (h : y.Opens o) (hopen : x.open o = some y)
    (hjournal : y.journal = x.journal) : x.Opens o := by
  obtain ⟨k, z, s, hrun, hs, hz, hjournal'⟩ := h
  refine ⟨k + 1, z, s, ?_, hs, hz, hjournal'.trans hjournal⟩
  show (x.open o).bind _ = some z
  rw [hopen]
  exact hrun

/-- From a sound state in `DBImpl::Recover` or behind it, `DB::Open` reaches an open database, by
induction on how far it is from its end. -/
theorem Site.Sound.opens_of_rank : ∀ (n : ℕ) {x : Site K V}, x.stage.rank = n → x.Sound o → 0 < n →
    x.Opens o := by
  intro n
  induction n using Nat.strong_induction_on with
  | _ n ih =>
    intro x hn h hpos
    obtain ⟨y, hopen, hy, hjournal, hlt, hzero⟩ := h.advance (hn ▸ hpos)
    refine Site.Opens.of_open ?_ hopen hjournal
    rcases Nat.eq_zero_or_pos y.stage.rank with hrank | hrank
    · obtain ⟨s, hs⟩ := hzero hrank
      exact ⟨0, y, s, rfl, hs, hy, rfl⟩
    · exact ih _ (hn ▸ hlt) rfl hy hrank

/-- From files that a sound history has left, `DB::Open` reaches an open database. -/
theorem Site.Sound.opens {x : Site K V} (h : x.Sound o) (hdown : x.stage = .down) : x.Opens o := by
  have hreplaying : ∀ {y : Site K V}, y.Sound o → (∃ r, y.stage = .replaying r) → y.Opens o := by
    rintro y hy ⟨r, hr⟩
    refine hy.opens_of_rank _ rfl ?_
    rw [hr]
    exact Nat.succ_pos _
  obtain ⟨y, hopen, hy, hjournal, hcreating | hr⟩ := h.recover.1 hdown
  · obtain ⟨z, hopen', hz, hjournal', hr⟩ := hy.recover.2 hcreating
    exact ((hreplaying hz hr).of_open hopen' hjournal').of_open hopen hjournal
  · exact (hreplaying hy hr).of_open hopen hjournal

end Steps

/-! ## Runs -/

section Runs

variable {o : DbOptions K V}

/-- The steps that keep the levels of the version: those of an open database do. -/
def Site.KeepsLevels (x : Site K V) (a : SiteAction K V) : Prop :=
  match x.stage with
  | .up s => s.KeepsLevels x.dir a
  | _ => True

/-- Every step of `DB::Open`, which may also give up, keeps the files and the process sound. -/
theorem Site.Sound.open {x y : Site K V} (h : x.Sound o) (hstep : x.open o = some y) : y.Sound o := by
  have hsame : ∀ {z : Site K V}, x.open o = some z → z.Sound o → y.Sound o := fun hz hsound =>
    Option.some.inj (hz.symm.trans hstep) ▸ hsound
  cases hstage : x.stage with
  | down =>
    obtain ⟨z, hz, hsound, -⟩ := h.recover.1 hstage
    exact hsame hz hsound
  | creating =>
    obtain ⟨z, hz, hsound, -⟩ := h.recover.2 hstage
    exact hsame hz hsound
  | replaying r =>
    obtain ⟨z, hz, hsound, -⟩ := h.advance (by rw [hstage]; exact Nat.succ_pos _)
    exact hsame hz hsound
  | opening r =>
    obtain ⟨z, hz, hsound, -⟩ := h.advance (by rw [hstage]; exact Nat.succ_pos _)
    exact hsame hz hsound
  | up s =>
    unfold Site.open at hstep
    rw [hstage] at hstep
    cases hstep

/-- Every step that keeps the levels, a crash among them, keeps the files and the process sound. -/
theorem Site.Sound.step {x y : Site K V} (h : x.Sound o) {a : SiteAction K V} (hkeeps : x.KeepsLevels a)
    (hstep : x.step o a = some y) : y.Sound o := by
  unfold Site.step at hstep
  split at hstep
  · exact h.open hstep
  · obtain rfl := Option.some.inj hstep
    exact h.crash
  · next hup =>
    obtain ⟨⟨dir', s', j'⟩, hr, rfl⟩ := Option.map_eq_some_iff.mp hstep
    unfold Site.Sound at h
    unfold Site.KeepsLevels at hkeeps
    rw [hup] at h hkeeps
    exact Session.Sound.step h hkeeps hr
  · cases hstep

/-- After a run whose steps keep the levels, the files and the process are sound, by induction on the
run. -/
theorem Site.Sound.run : ∀ {as : List (SiteAction K V)} {x y : Site K V}, x.Sound o →
    x.RunMeets o Site.KeepsLevels as → x.run o as = some y → y.Sound o
  | [], x, y, h, _, hrun => Option.some.inj hrun ▸ h
  | a :: as, x, y, h, hmeets, hrun => by
    obtain ⟨z, hstep, hrun⟩ := Option.bind_eq_some_iff.mp hrun
    exact Site.Sound.run (h.step hmeets.1 hstep) (hmeets.2 z hstep) hrun

/-- The newest entry of a user key is kept, or it is a deletion marker that a compaction has left out. -/
theorem Journal.Keeps.newest {j : Journal K V} {S : Set (Entry K V)} (h : j.Keeps S) {e : Entry K V}
    (he : e ∈ batchesEntries j.written) : ∃ e' ∈ batchesEntries j.written,
      e'.key.userKey = e.key.userKey ∧ e.key.sequence ≤ e'.key.sequence ∧ (e' ∈ S ∨ j.Dropped e') := by
  set same := (batchesEntries j.written).filter fun e' => decide (e'.key.userKey = e.key.userKey) with hsame
  have hmem : ∀ {e'}, e' ∈ same ↔ e' ∈ batchesEntries j.written ∧ e'.key.userKey = e.key.userKey := by
    intro e'
    rw [hsame, List.mem_filter, decide_eq_true_eq]
  cases hmax : same.argmax fun e' => e'.key.sequence with
  | none =>
    rw [List.argmax_eq_none] at hmax
    exact absurd (hmem.mpr ⟨he, rfl⟩) (hmax ▸ List.not_mem_nil)
  | some e' =>
    obtain ⟨he', hkey⟩ := hmem.mp (List.argmax_mem hmax)
    have hle : ∀ a ∈ same, a.key.sequence ≤ e'.key.sequence := by
      intro a ha
      have hle := List.le_of_mem_argmax ha hmax
      exact hle
    refine ⟨e', he', hkey, hle e (hmem.mpr ⟨he, rfl⟩), ?_⟩
    rcases h.kept e' he' with hkept | ⟨e'', he'', hkey', hlt⟩ | hdropped
    · exact Or.inl hkept
    · exact absurd hlt (not_lt.mpr (hle e'' (hmem.mpr ⟨he'', hkey'.trans hkey⟩)))
    · exact Or.inr hdropped

end Runs

instance (s : Session K V) (dir : Directory K V) (a : SiteAction K V) : Decidable (s.KeepsLevels dir a) := by
  unfold Session.KeepsLevels
  split <;> infer_instance

instance (x : Site K V) (a : SiteAction K V) : Decidable (x.KeepsLevels a) := by
  unfold Site.KeepsLevels
  split <;> infer_instance

instance instDecidableSiteRunMeets (o : DbOptions K V) (cond : Site K V → SiteAction K V → Prop)
    [∀ x a, Decidable (cond x a)] :
    ∀ (as : List (SiteAction K V)) (x : Site K V), Decidable (x.RunMeets o cond as)
  | [], _ => isTrue trivial
  | a :: as, x =>
    have (y : Site K V) : Decidable (y.RunMeets o cond as) := instDecidableSiteRunMeets o cond as y
    inferInstanceAs (Decidable (cond x a ∧ ∀ y ∈ x.step o a, y.RunMeets o cond as))

end LevelDb
