import Mathlib.Data.List.Basic
import Mathlib.Data.Set.Basic
import Mathlib.Tactic.Common

/-!
# Serial logs

A writer appends batches of operations to a log, applies the accepted ones to a store one operation
at a time, and then publishes the number of the last operation. Readers choose the published number.
`SerialLog` states this protocol over an arbitrary type of operations, with the log split into
segments that each have a store of their own; `Serial` is what follows for the numbers of batches,
for the order in which operations are applied, and for what a reader sees.
-/

namespace LevelDb.Lib

variable {α : Type}

/-! ## Batches -/

/-- A batch of operations with the sequence number of the first one. -/
structure Batch (α : Type) where
  /-- The sequence number of the first operation. -/
  sequence : ℕ
  /-- The operations. -/
  ops : List α
  deriving DecidableEq

/-- The number of operations. -/
def Batch.count (b : Batch α) : ℕ := b.ops.length

/-- One past the sequence number of the last operation. -/
def Batch.limit (b : Batch α) : ℕ := b.sequence + b.count

/-- The operations with their sequence numbers. -/
def Batch.numbered (b : Batch α) : List (α × ℕ) := b.ops.zipIdx b.sequence

/-- The range of sequence numbers given to a batch. -/
def Batch.range (b : Batch α) : Set ℕ := {i | b.sequence ≤ i ∧ i < b.limit}

/-- A numbered operation of a batch has a number of its range. -/
theorem Batch.mem_range_of_mem_numbered {b : Batch α} {x : α × ℕ} (h : x ∈ b.numbered) :
    x.2 ∈ b.range := by
  obtain ⟨h1, h2, -⟩ := List.mem_zipIdx (show (x.1, x.2) ∈ b.ops.zipIdx b.sequence from h)
  exact ⟨h1, h2⟩

/-- The range of `a` comes before the range of `b`. -/
def Batch.Before (a b : Batch α) : Prop := a.limit ≤ b.sequence

/-- Ranges that come one before the other increase strictly. -/
theorem Batch.Before.lt {a b : Batch α} (h : a.Before b) {i j : ℕ} (hi : i ∈ a.range)
    (hj : j ∈ b.range) : i < j :=
  lt_of_lt_of_le hi.2 (le_trans h hj.1)

/-- A number of the range rules out that the batch lies on the other side of it. -/
theorem Batch.not_before_of_mem {a b : Batch α} {i : ℕ} (hi : i ∈ a.range) (hj : i ∈ b.range) :
    ¬ a.Before b :=
  fun h => lt_irrefl i (h.lt hi hj)

/-! ## The protocol -/

/-- A record of the log: a batch, and whether it was accepted. -/
structure Record (α : Type) where
  /-- The batch. -/
  batch : Batch α
  /-- Whether the batch goes on to the store. -/
  accepted : Bool

/-- A segment of the log with its store. -/
structure Segment (α : Type) where
  /-- The records in the order of the log. -/
  records : List (Record α) := []
  /-- The operations in the order in which they were applied to the store. -/
  applied : List (α × ℕ) := []

/-- The segment with one more record. -/
def Segment.log (g : Segment α) (r : Record α) : Segment α :=
  { g with records := g.records ++ [r] }

/-- The operations of the accepted records, in the order of the log. -/
def Segment.due (g : Segment α) : List (α × ℕ) :=
  (g.records.filter (·.accepted)).flatMap (·.batch.numbered)

/-- What the writer is doing. -/
inductive Phase (α : Type) where
  /-- No batch is being written. -/
  | quiet
  /-- The batch has its sequence number and is not in the log yet. -/
  | reserved (b : Batch α)
  /-- The batch was accepted, and these of its operations are still to be applied. -/
  | applying (b : Batch α) (rest : List (α × ℕ))
  /-- The batch is done with, and its numbers are not published yet. -/
  | written (b : Batch α)

/-- The state of the protocol. -/
structure SerialLog (α : Type) where
  /-- The published sequence number. -/
  last : ℕ
  /-- The closed segments, oldest first. -/
  closed : List (Segment α) := []
  /-- The segment that is being written. -/
  current : Segment α := {}
  /-- What the writer is doing. -/
  phase : Phase α := .quiet
  /-- The sequence numbers that readers have chosen. -/
  chosen : List ℕ := []

/-- All records in the order of the log. -/
def SerialLog.records (s : SerialLog α) : List (Record α) :=
  s.closed.flatMap (·.records) ++ s.current.records

/-- All applied operations in the order of their application. -/
def SerialLog.applied (s : SerialLog α) : List (α × ℕ) :=
  s.closed.flatMap (·.applied) ++ s.current.applied

/-- A step of the protocol. -/
inductive SerialLog.Step : SerialLog α → SerialLog α → Prop
  /-- The writer goes on to a new segment. -/
  | switch (s : SerialLog α) (h : s.phase = .quiet) :
    Step s { s with closed := s.closed ++ [s.current], current := {} }
  /-- A batch gets the numbers after the published one. -/
  | reserve (s : SerialLog α) (ops : List α) (h : s.phase = .quiet) :
    Step s { s with phase := .reserved ⟨s.last + 1, ops⟩ }
  /-- The batch is logged, but not accepted. -/
  | refuse (s : SerialLog α) (b : Batch α) (h : s.phase = .reserved b) :
    Step s { s with current := s.current.log ⟨b, false⟩, phase := .written b }
  /-- The batch is logged and accepted. -/
  | accept (s : SerialLog α) (b : Batch α) (h : s.phase = .reserved b) :
    Step s { s with current := s.current.log ⟨b, true⟩, phase := .applying b b.numbered }
  /-- One operation is applied. -/
  | apply (s : SerialLog α) (b : Batch α) (x : α × ℕ) (rest : List (α × ℕ))
    (h : s.phase = .applying b (x :: rest)) :
    Step s { s with
      current := { s.current with applied := s.current.applied ++ [x] }
      phase := .applying b rest }
  /-- Every operation is applied. -/
  | finish (s : SerialLog α) (b : Batch α) (h : s.phase = .applying b []) :
    Step s { s with phase := .written b }
  /-- The numbers of the batch are published. -/
  | publish (s : SerialLog α) (b : Batch α) (h : s.phase = .written b) :
    Step s { s with last := s.last + b.count, phase := .quiet }
  /-- A reader chooses the published number, or one that was chosen before. -/
  | choose (s : SerialLog α) (n : ℕ) (h : n = s.last ∨ n ∈ s.chosen) :
    Step s { s with chosen := s.chosen ++ [n] }

/-! ## The invariant -/

/-- Every record is published, and every accepted operation is applied. -/
structure SerialLog.Settled (last : ℕ) (records : List (Record α)) (current : Segment α) :
    Prop where
  /-- The numbers of the records are published. -/
  published : ∀ r ∈ records, r.batch.limit ≤ last + 1
  /-- The store has what the segment gives it. -/
  applied : current.applied = current.due

/-- The part of the invariant that depends on the phase. The record of a batch that is being written
is the last one. -/
def SerialLog.Writing (s : SerialLog α) : Prop :=
  match s.phase with
  | .quiet => Settled s.last s.records s.current
  | .reserved b => b.sequence = s.last + 1 ∧ Settled s.last s.records s.current
  | .applying b rest => b.sequence = s.last + 1 ∧
    ∃ g : Segment α, Settled s.last (s.closed.flatMap (·.records) ++ g.records) g ∧
      s.current.records = g.records ++ [⟨b, true⟩] ∧
      ∃ done, b.numbered = done ++ rest ∧ s.current.applied = g.applied ++ done
  | .written b => b.sequence = s.last + 1 ∧
    ∃ g : Segment α, Settled s.last (s.closed.flatMap (·.records) ++ g.records) g ∧
      ∃ accepted, s.current.records = g.records ++ [⟨b, accepted⟩] ∧
        s.current.applied = s.current.due

/-- The invariant of the protocol. -/
structure SerialLog.Inv (s : SerialLog α) : Prop where
  /-- The ranges of the records come in the order of the log. -/
  ordered : s.records.Pairwise fun a b => a.batch.Before b.batch
  /-- The store of a closed segment has what the segment gives it. -/
  closed : ∀ g ∈ s.closed, g.applied = g.due
  /-- The phase fits the log and the store. -/
  writing : s.Writing
  /-- Readers chose published numbers. -/
  chosen : ∀ n ∈ s.chosen, n ≤ s.last
  /-- A chosen number lies inside no batch. -/
  separated : ∀ n ∈ s.chosen, ∀ r ∈ s.records, r.batch.limit ≤ n + 1 ∨ n < r.batch.sequence

/-- The numbers of every record are published, or come right after the published one. -/
theorem SerialLog.Writing.limit_or {s : SerialLog α} (h : s.Writing) :
    ∀ r ∈ s.records, r.batch.limit ≤ s.last + 1 ∨ s.last < r.batch.sequence := by
  intro r hr
  unfold Writing at h
  -- While a batch is written, its record is the last one.
  have hlast : ∀ {b : Batch α} {accepted : Bool} {g : Segment α}, b.sequence = s.last + 1 →
      Settled s.last (s.closed.flatMap (·.records) ++ g.records) g →
      s.current.records = g.records ++ [⟨b, accepted⟩] →
      r.batch.limit ≤ s.last + 1 ∨ s.last < r.batch.sequence := by
    intro b accepted g hb hg hrec
    rw [records, hrec, ← List.append_assoc] at hr
    rcases List.mem_append.mp hr with hr | hr
    · exact Or.inl (hg.published r hr)
    · obtain rfl := List.mem_singleton.mp hr
      exact Or.inr (by simp only; omega)
  cases hp : s.phase with
  | quiet =>
    rw [hp] at h
    exact Or.inl (h.published r hr)
  | reserved b =>
    rw [hp] at h
    exact Or.inl (h.2.published r hr)
  | applying b rest =>
    rw [hp] at h
    obtain ⟨hb, g, hg, hrec, -⟩ := h
    exact hlast hb hg hrec
  | written b =>
    rw [hp] at h
    obtain ⟨hb, g, hg, accepted, hrec, -⟩ := h
    exact hlast hb hg hrec

/-- A record of the next numbers goes at the end of the log. -/
theorem SerialLog.Inv.log_record {s : SerialLog α} (h : s.Inv) (s' : SerialLog α) {r : Record α}
    (hp : s.phase = .reserved r.batch) (hclosed : s'.closed = s.closed)
    (hcur : s'.current = s.current.log r) (hch : s'.chosen = s.chosen) :
    s'.records.Pairwise (fun a b => a.batch.Before b.batch) ∧
      ∀ n ∈ s'.chosen, ∀ r ∈ s'.records, r.batch.limit ≤ n + 1 ∨ n < r.batch.sequence := by
  have hw := h.writing
  unfold Writing at hw
  rw [hp] at hw
  obtain ⟨hb, hset⟩ := hw
  have hrec : s'.records = s.records ++ [r] := by
    rw [records, records, hclosed, hcur, Segment.log, List.append_assoc]
  rw [hrec, hch]
  refine ⟨List.pairwise_append.mpr ⟨h.ordered, List.pairwise_singleton _ _, ?_⟩, ?_⟩
  · intro a ha b hb'
    obtain rfl := List.mem_singleton.mp hb'
    have := hset.published a ha
    rw [Batch.Before]
    omega
  · intro n hn a ha
    rcases List.mem_append.mp ha with ha | ha
    · exact h.separated n hn a ha
    · obtain rfl := List.mem_singleton.mp ha
      have := h.chosen n hn
      omega

/-- What an accepted or refused record adds to the due operations. -/
theorem Segment.due_of_records {g g' : Segment α} {r : Record α}
    (h : g'.records = g.records ++ [r]) :
    g'.due = g.due ++ if r.accepted then r.batch.numbered else [] := by
  unfold due
  rw [h]
  cases hr : r.accepted <;> simp [hr]

/-- Every step of the serial log, in each phase, keeps the invariant. -/
theorem SerialLog.Step.inv {s s' : SerialLog α} (hstep : SerialLog.Step s s') (h : s.Inv) :
    s'.Inv := by
  have hw := h.writing
  unfold Writing at hw
  cases hstep with
  | switch hp =>
    rw [hp] at hw
    have hrec : SerialLog.records { s with closed := s.closed ++ [s.current], current := {} } =
        s.records := by simp [records]
    refine ⟨hrec ▸ h.ordered, ?_, ?_, h.chosen, hrec ▸ h.separated⟩
    · -- The segment that is closed was settled.
      intro g hg
      rcases List.mem_append.mp hg with hg | hg
      · exact h.closed g hg
      · obtain rfl := List.mem_singleton.mp hg
        exact hw.applied
    · unfold Writing
      rw [hrec]
      simp only [hp]
      exact ⟨hw.published, rfl⟩
  | reserve ops hp =>
    rw [hp] at hw
    exact ⟨h.ordered, h.closed, ⟨rfl, hw⟩, h.chosen, h.separated⟩
  | refuse b hp =>
    -- A record that is refused is never due, so that the segment is settled at once.
    obtain ⟨hord, hsep⟩ := h.log_record
      { s with current := s.current.log ⟨b, false⟩, phase := .written b } hp rfl rfl rfl
    rw [hp] at hw
    refine ⟨hord, h.closed, ⟨hw.1, s.current, hw.2, false, rfl, ?_⟩, h.chosen, hsep⟩
    rw [Segment.due_of_records (g := s.current) (r := ⟨b, false⟩) rfl]
    simpa [Segment.log] using hw.2.applied
  | accept b hp =>
    obtain ⟨hord, hsep⟩ := h.log_record
      { s with current := s.current.log ⟨b, true⟩, phase := .applying b b.numbered } hp rfl rfl rfl
    rw [hp] at hw
    exact ⟨hord, h.closed, ⟨hw.1, s.current, hw.2, rfl, [], rfl, by simp [Segment.log]⟩, h.chosen,
      hsep⟩
  | apply b x rest hp =>
    rw [hp] at hw
    obtain ⟨hb, g, hg, hrec, done, hdone, happ⟩ := hw
    refine ⟨h.ordered, h.closed, ⟨hb, g, hg, hrec, done ++ [x], ?_, ?_⟩, h.chosen, h.separated⟩
    · simpa using hdone
    · simp [happ]
  | finish b hp =>
    rw [hp] at hw
    obtain ⟨hb, g, hg, hrec, done, hdone, happ⟩ := hw
    refine ⟨h.ordered, h.closed, ⟨hb, g, hg, true, hrec, ?_⟩, h.chosen, h.separated⟩
    rw [happ, Segment.due_of_records hrec, hg.applied]
    simp [hdone]
  | publish b hp =>
    have hlim := h.writing.limit_or
    rw [hp] at hw
    obtain ⟨hb, g, hg, accepted, hrec, happ⟩ := hw
    refine ⟨h.ordered, h.closed, ⟨?_, happ⟩, ?_, h.separated⟩
    · -- The last record ends where the published number now is.
      intro r hr
      simp only [records, hrec, ← List.append_assoc] at hr
      rcases List.mem_append.mp hr with hr | hr
      · have := hg.published r hr
        simp only
        omega
      · obtain rfl := List.mem_singleton.mp hr
        simp only [Batch.limit]
        omega
    · intro n hn
      have := h.chosen n hn
      simp only
      omega
  | choose n hn =>
    have hlim := h.writing.limit_or
    refine ⟨h.ordered, h.closed, h.writing, ?_, ?_⟩
    · intro m hm
      rcases List.mem_append.mp hm with hm | hm
      · exact h.chosen m hm
      · obtain rfl := List.mem_singleton.mp hm
        rcases hn with rfl | hn
        · exact le_refl _
        · exact h.chosen m hn
    · intro m hm r hr
      rcases List.mem_append.mp hm with hm | hm
      · exact h.separated m hm r hr
      · obtain rfl := List.mem_singleton.mp hm
        rcases hn with rfl | hn
        · exact hlim r hr
        · exact h.separated m hn r hr

/-- No step makes the published number smaller. -/
theorem SerialLog.Step.last_le {s s' : SerialLog α} (h : SerialLog.Step s s') :
    s.last ≤ s'.last := by
  cases h with
  | publish b _ => exact Nat.le_add_right _ _
  | _ => exact le_refl _

/-! ## What follows -/

/-- Batch `b` is visible at `n` either completely or not at all: every operation of it is applied and
has a number up to `n`, or none has. -/
def SerialLog.Atomic (s : SerialLog α) (n : ℕ) (b : Batch α) : Prop :=
  (∀ x ∈ b.numbered, x ∈ s.applied ∧ x.2 ≤ n) ∨ (∀ x ∈ b.numbered, ¬ (x ∈ s.applied ∧ x.2 ≤ n))

/-- Serial writing: what the numbers, the order and the readers have to satisfy. -/
structure SerialLog.Serial (s : SerialLog α) : Prop where
  /-- The ranges of batches increase strictly in the order of the log. -/
  increasing : s.records.Pairwise fun a b =>
    ∀ i ∈ a.batch.range, ∀ j ∈ b.batch.range, i < j
  /-- A closed segment applied its accepted records in the order of the log. -/
  closed : ∀ g ∈ s.closed, g.applied = g.due
  /-- The current segment has come to some point of that order. -/
  current : s.current.applied <+: s.current.due
  /-- A reader sees whole batches. -/
  atomic : ∀ n ∈ s.chosen, ∀ r ∈ s.records, s.Atomic n r.batch

/-- The current segment applies its accepted records in the order of the log. -/
theorem SerialLog.Writing.applied_prefix {s : SerialLog α} (h : s.Writing) :
    s.current.applied <+: s.current.due := by
  unfold Writing at h
  cases hp : s.phase with
  | quiet =>
    rw [hp] at h
    exact h.applied ▸ List.prefix_refl _
  | reserved b =>
    rw [hp] at h
    exact h.2.applied ▸ List.prefix_refl _
  | applying b rest =>
    rw [hp] at h
    obtain ⟨hb, g, hg, hrec, done, hdone, happ⟩ := h
    refine ⟨rest, ?_⟩
    rw [happ, Segment.due_of_records hrec, hg.applied, List.append_assoc, ← hdone]
    rfl
  | written b =>
    rw [hp] at h
    obtain ⟨-, -, -, -, -, happ⟩ := h
    exact happ ▸ List.prefix_refl _

/-- A published record is not the one that is being written, so its operations were applied if it was
accepted. An empty batch has none. -/
theorem SerialLog.Writing.applied_of_published {s : SerialLog α} (h : s.Writing) {r : Record α}
    (hr : r ∈ s.current.records) (hacc : r.accepted = true) (hlim : r.batch.limit ≤ s.last + 1)
    {x : α × ℕ} (hx : x ∈ r.batch.numbered) : x ∈ s.current.applied := by
  have hdue : ∀ {g : Segment α}, r ∈ g.records → x ∈ g.due := fun hr =>
    List.mem_flatMap.mpr ⟨r, List.mem_filter.mpr ⟨hr, hacc⟩, hx⟩
  unfold Writing at h
  cases hp : s.phase with
  | quiet =>
    rw [hp] at h
    exact h.applied ▸ hdue hr
  | reserved b =>
    rw [hp] at h
    exact h.2.applied ▸ hdue hr
  | applying b rest =>
    rw [hp] at h
    obtain ⟨hb, g, hg, hrec, done, -, happ⟩ := h
    rw [hrec] at hr
    rcases List.mem_append.mp hr with hr | hr
    · rw [happ, hg.applied]
      exact List.mem_append_left _ (hdue hr)
    · obtain rfl := List.mem_singleton.mp hr
      -- The range of the batch being written starts after the published number.
      obtain ⟨h1, h2⟩ := Batch.mem_range_of_mem_numbered hx
      simp only at hlim h1 h2
      omega
  | written b =>
    rw [hp] at h
    obtain ⟨-, -, -, -, -, happ⟩ := h
    exact happ ▸ hdue hr

/-- An applied operation belongs to an accepted record. -/
theorem SerialLog.Inv.mem_of_applied {s : SerialLog α} (h : s.Inv) {x : α × ℕ}
    (hx : x ∈ s.applied) : ∃ r ∈ s.records, r.accepted = true ∧ x ∈ r.batch.numbered := by
  have hdue : ∀ g : Segment α, x ∈ g.due →
      ∃ r ∈ g.records, r.accepted = true ∧ x ∈ r.batch.numbered := by
    intro g hg
    obtain ⟨r, hr, hxr⟩ := List.mem_flatMap.mp hg
    obtain ⟨hr, hacc⟩ := List.mem_filter.mp hr
    exact ⟨r, hr, hacc, hxr⟩
  rcases List.mem_append.mp hx with hx | hx
  · obtain ⟨g, hg, hxg⟩ := List.mem_flatMap.mp hx
    obtain ⟨r, hr, hr'⟩ := hdue g (h.closed g hg ▸ hxg)
    exact ⟨r, List.mem_append_left _ (List.mem_flatMap.mpr ⟨g, hg, hr⟩), hr'⟩
  · obtain ⟨r, hr, hr'⟩ := hdue s.current (h.writing.applied_prefix.subset hx)
    exact ⟨r, List.mem_append_right _ hr, hr'⟩

/-- Of two records whose ranges share a number, both are the same one or accept the same. -/
theorem SerialLog.Inv.eq_of_mem_range {s : SerialLog α} (h : s.Inv) {r r' : Record α}
    (hr : r ∈ s.records) (hr' : r' ∈ s.records) {i : ℕ} (hi : i ∈ r.batch.range)
    (hi' : i ∈ r'.batch.range) : r = r' := by
  obtain ⟨m, hm, rfl⟩ := List.getElem_of_mem hr
  obtain ⟨n, hn, rfl⟩ := List.getElem_of_mem hr'
  rcases lt_trichotomy m n with hlt | rfl | hlt
  · exact absurd (List.pairwise_iff_getElem.mp h.ordered m n hm hn hlt)
      (Batch.not_before_of_mem hi hi')
  · rfl
  · exact absurd (List.pairwise_iff_getElem.mp h.ordered n m hn hm hlt)
      (Batch.not_before_of_mem hi' hi)

/-- Under the invariant what was written is serial. -/
theorem SerialLog.Inv.serial {s : SerialLog α} (h : s.Inv) : s.Serial := by
  refine ⟨h.ordered.imp fun hab i hi j hj => Batch.Before.lt hab hi hj, h.closed, h.writing.applied_prefix, ?_⟩
  intro n hn r hr
  by_cases hacc : r.accepted = true
  · rcases h.separated n hn r hr with hlim | hlim
    · -- The whole range is visible, and published since the reader chose.
      left
      intro x hx
      have hxr := Batch.mem_range_of_mem_numbered hx
      have hxn : x.2 ≤ n := by
        have := hxr.2
        omega
      have hpub : r.batch.limit ≤ s.last + 1 := by
        have := h.chosen n hn
        omega
      refine ⟨?_, hxn⟩
      rcases List.mem_append.mp hr with hr | hr
      · obtain ⟨g, hg, hrg⟩ := List.mem_flatMap.mp hr
        refine List.mem_append_left _ (List.mem_flatMap.mpr ⟨g, hg, ?_⟩)
        rw [h.closed g hg]
        exact List.mem_flatMap.mpr ⟨r, List.mem_filter.mpr ⟨hrg, hacc⟩, hx⟩
      · exact List.mem_append_right _ (h.writing.applied_of_published hr hacc hpub hx)
    · right
      rintro x hx ⟨-, hle⟩
      have := (Batch.mem_range_of_mem_numbered hx).1
      omega
  · -- A refused batch is never applied.
    right
    rintro x hx ⟨hxa, -⟩
    obtain ⟨r', hr', hacc', hx'⟩ := h.mem_of_applied hxa
    obtain rfl := h.eq_of_mem_range hr hr' (Batch.mem_range_of_mem_numbered hx)
      (Batch.mem_range_of_mem_numbered hx')
    exact hacc hacc'

end LevelDb.Lib
