import LevelDb.Compaction.Install

/-!
# Recency after an edit

`Version::Get` relies on the order of levels and level-0 files by recency. A new table keeps that
order if no shallower level has an entry of its user keys (`ByRecency.gain`), and a compaction keeps it
if it leaves no older entry of its user keys behind (`ByRecency.replace`).
-/

namespace LevelDb

open Lib

variable {K V : Type} [LinearOrder K]

/-! ## New tables -/

/-- A version that gains tables of memtables stays in the order of recency. -/
theorem Version.ByRecency.gain {v v' : Version K} {tables tables' : Tables K V} {bound : ℕ}
    {news : List (NewTable K V)} (h : v.ByRecency tables)
    (hacc : v.AcceptsTables tables bound news) (hgain : v.Gains tables news v' tables')
    (hlevel : ∀ n ∈ news, ∀ n' ∈ news, n.level = n'.level)
    (hnewer : news.Pairwise fun n n' => ∀ e ∈ n.entries, ∀ e' ∈ n'.entries,
      e.key.sequence < e'.key.sequence)
    (hshallow : ∀ n ∈ news, ∀ l < n.level, ∀ e ∈ v.levelContents tables l, ∀ e' ∈ n.entries,
      e.key.userKey ≠ e'.key.userKey) : v'.ByRecency tables' := by
  refine ⟨fun i j hij a ha b hb hk => ?_, fun f hf g hg hlt a ha b hb hk => ?_⟩
  · rcases hgain.mem_levelContents.mp ha with ha | ⟨n, hn, rfl, han⟩
    · rcases hgain.mem_levelContents.mp hb with hb | ⟨n, hn, rfl, hbn⟩
      · exact h.levels i j hij a ha b hb hk
      · exact absurd hk (hshallow n hn i hij a ha b hbn)
    · rcases hgain.mem_levelContents.mp hb with hb | ⟨n', hn', rfl, -⟩
      · exact (hacc.old b ⟨j, hb⟩).trans_lt (hacc.newer n hn a han)
      · have := hlevel n hn n' hn'
        omega
  · rcases (hgain.mem_iff 0 f).mp hf with hf | ⟨n, hn, -, rfl⟩
    · rcases (hgain.mem_iff 0 g).mp hg with hg | ⟨n, hn, -, rfl⟩
      · rw [hgain.tables_old f ⟨0, hf⟩] at ha
        rw [hgain.tables_old g ⟨0, hg⟩] at hb
        exact h.level0 f hf g hg hlt a ha b hb hk
      · -- A new file has a larger number than an old one.
        have := hacc.number_lt n hn f ⟨0, hf⟩
        omega
    · rw [hgain.tables_new n hn] at ha
      rcases (hgain.mem_iff 0 g).mp hg with hg | ⟨n', hn', -, rfl⟩
      · rw [hgain.tables_old g ⟨0, hg⟩] at hb
        exact (hacc.old b ⟨0, g, hg, hb⟩).trans_lt (hacc.newer n hn a ha)
      · rw [hgain.tables_new n' hn'] at hb
        rcases Lib.eq_or_rel_of_pairwise (hacc.numbers.and hnewer) hn hn' with rfl | hij | hij
        · omega
        · have := hij.1
          omega
        · exact hij.2 b hb a ha

/-! ## Compactions -/

/-- No entry of `es'` is older than an entry of `es` with the same user key. -/
def NoneOlder (es es' : List (Entry K V)) : Prop :=
  ∀ e ∈ es, ∀ e' ∈ es', e'.key.userKey = e.key.userKey → e.key.sequence ≤ e'.key.sequence

instance (es es' : List (Entry K V)) : Decidable (NoneOlder es es') :=
  inferInstanceAs (Decidable (∀ e ∈ es, ∀ e' ∈ es', e'.key.userKey = e.key.userKey →
    e.key.sequence ≤ e'.key.sequence))

/-- No file of the level that a compaction leaves out has an older entry of a user key that
`inputs_[0]` have. -/
def Compaction.TakesOlder (c : Compaction K) (v : Version K) (tables : Tables K V) : Prop :=
  ∀ g ∈ v.files c.level, g ∉ c.inputs0 → ∀ f ∈ c.inputs0,
    NoneOlder (tables f.number) (tables g.number)

instance (c : Compaction K) (v : Version K) (tables : Tables K V) :
    Decidable (c.TakesOlder v tables) :=
  inferInstanceAs (Decidable (∀ g ∈ v.files c.level, g ∉ c.inputs0 → ∀ f ∈ c.inputs0,
    NoneOlder (tables f.number) (tables g.number)))

/-- No file of the output level that a compaction leaves out has an entry below a deletion marker of
the inputs that every reader sees. -/
def Compaction.TakesDeleted (c : Compaction K) (v : Version K) (tables : Tables K V) (ss : ℕ) :
    Prop :=
  ∀ g ∈ v.files (c.level + 1), g ∉ c.inputs1 → ∀ f ∈ c.inputs0 ++ c.inputs1,
    NoneOlder ((tables f.number).filter fun d => d.key.type = .deletion ∧ d.key.sequence ≤ ss)
      (tables g.number)

instance (c : Compaction K) (v : Version K) (tables : Tables K V) (ss : ℕ) :
    Decidable (c.TakesDeleted v tables ss) :=
  inferInstanceAs (Decidable (∀ g ∈ v.files (c.level + 1), g ∉ c.inputs1 →
    ∀ f ∈ c.inputs0 ++ c.inputs1, NoneOlder
      ((tables f.number).filter fun d => d.key.type = .deletion ∧ d.key.sequence ≤ ss)
      (tables g.number)))

/-- A file of a version that a compaction does not replace. -/
def Compaction.Leaves (c : Compaction K) (v : Version K) (l : ℕ) (g : FileMetaData K) : Prop :=
  g ∈ v.files l ∧ ¬ (l = c.level ∧ g ∈ c.inputs0) ∧ ¬ (l = c.level + 1 ∧ g ∈ c.inputs1)

/-- Entries of inputs are newer than those at deeper levels, and older than those that stay at the
two levels of the compaction or above it, if the compaction takes the older entries of its level. -/
theorem Version.ByRecency.inputs {v : Version K} {tables : Tables K V} (h : v.ByRecency tables)
    (hlay : v.Layout tables) {c : Compaction K} (hc : c.LiveIn v) (htakes : c.TakesOlder v tables)
    {l : ℕ} {g f : FileMetaData K} (hg : c.Leaves v l g) (hf : f ∈ c.inputs0 ++ c.inputs1)
    {a b : Entry K V} (ha : a ∈ tables g.number) (hb : b ∈ tables f.number)
    (hk : a.key.userKey = b.key.userKey) :
    (l ≤ c.level → b.key.sequence < a.key.sequence) ∧
      (c.level + 2 ≤ l → a.key.sequence < b.key.sequence) := by
  rcases hc.mem_files hf with ⟨hf0, hfl⟩ | ⟨hf1, hfl⟩
  · refine ⟨fun hl => ?_, fun hl => ?_⟩
    · rcases lt_or_eq_of_le hl with hlt | rfl
      · exact h.levels l c.level hlt a ⟨g, hg.1, ha⟩ b ⟨f, hfl, hb⟩ hk
      · -- Both files are at the level, so their sequence numbers differ.
        refine lt_of_le_of_ne (htakes g hg.1 (fun hin => hg.2.1 ⟨rfl, hin⟩) f hf0 b hb a ha hk) ?_
        intro heq
        have := (hlay.separate _ f hfl _ g hg.1 b hb a ha heq).2.1
        exact hg.2.1 ⟨rfl, this ▸ hf0⟩
    · exact h.levels c.level l (by omega) b ⟨f, hfl, hb⟩ a ⟨g, hg.1, ha⟩ hk.symm
  · exact ⟨fun hl => h.levels l (c.level + 1) (by omega) a ⟨g, hg.1, ha⟩ b ⟨f, hfl, hb⟩ hk,
      fun hl => h.levels (c.level + 1) l (by omega) b ⟨f, hfl, hb⟩ a ⟨g, hg.1, ha⟩ hk.symm⟩

/-- A version in which entries of the inputs of a compaction have moved to its output level, or are
gone, stays in the order of recency. -/
theorem Version.ByRecency.replace {v v' : Version K} {tables tables' : Tables K V}
    (h : v.ByRecency tables) (hlay : v.Layout tables) {c : Compaction K} (hc : c.LiveIn v)
    (htakes : c.TakesOlder v tables)
    (hstay : ∀ l, ∀ x ∈ v'.files l, (c.Leaves v l x ∧ tables' x.number = tables x.number) ∨
      (l = c.level + 1 ∧ ∀ e ∈ tables' x.number,
        ∃ f ∈ c.inputs0 ++ c.inputs1, e ∈ tables f.number)) : v'.ByRecency tables' := by
  refine ⟨?_, fun f hf g hg hlt a ha b hb hk => ?_⟩
  · rintro i j hij a ⟨x, hx, ha⟩ b ⟨y, hy, hb⟩ hk
    rcases hstay i x hx with ⟨hxl, htx⟩ | ⟨rfl, hin⟩
    · rw [htx] at ha
      rcases hstay j y hy with ⟨hyl, hty⟩ | ⟨rfl, hin⟩
      · rw [hty] at hb
        exact h.levels i j hij a ⟨x, hxl.1, ha⟩ b ⟨y, hyl.1, hb⟩ hk
      · obtain ⟨f, hf, hbf⟩ := hin b hb
        exact (h.inputs hlay hc htakes hxl hf ha hbf hk).1 (by omega)
    · obtain ⟨f, hf, haf⟩ := hin a ha
      rcases hstay j y hy with ⟨hyl, hty⟩ | ⟨rfl, -⟩
      · rw [hty] at hb
        exact (h.inputs hlay hc htakes hyl hf hb haf hk.symm).2 (by omega)
      · omega
  · -- Level 0 only loses files.
    rcases hstay 0 f hf with ⟨hfl, htf⟩ | ⟨h0, -⟩
    · rcases hstay 0 g hg with ⟨hgl, htg⟩ | ⟨h0, -⟩
      · rw [htf] at ha
        rw [htg] at hb
        exact h.level0 f hfl.1 g hgl.1 hlt a ha b hb hk
      · omega
    · omega

end LevelDb
