import LevelDb.Lib.Ring
import LevelDb.Util.Coding

/-!
# Snapshots

The list of `db/snapshot.h` with its links, and the parts of `DBImpl` that read or change it or the last
sequence number, each of which holds `mutex_` from its start to its end: the sections of `Write` before
and after it appends to the log, `GetSnapshot`, `ReleaseSnapshot`, and the start of a compaction, which
picks its `smallest_snapshot`. In every interleaving the list is in the order of the sequence numbers,
and no snapshot that is live when a compaction starts, or later, is below what it picked
(`Snapshots.floor_le`).
-/

namespace LevelDb

open Lib

/-! ## `SnapshotList` -/

/-- `SnapshotList` with the nodes in memory. -/
structure SnapshotList where
  /-- `prev_` and `next_` -/
  links : Links ℕ
  /-- `number_` -/
  number : ℕ → ℕ

namespace SnapshotList

/-- The address of `list_`, the dummy head. -/
def head : ℕ := 0

/-- An empty list. -/
def new : SnapshotList := ⟨Links.empty head, fun _ => 0⟩

/-- `empty` -/
def empty (l : SnapshotList) : Bool := decide (l.links.next head = head)

/-- `oldest` -/
def oldest (l : SnapshotList) : ℕ := l.links.next head

/-- `New`, which puts the snapshot at address `s` at the end of the list. -/
def insert (l : SnapshotList) (s seq : ℕ) : SnapshotList where
  links := l.links.insertLast head s
  number := Function.update l.number s seq

/-- `Delete` -/
def delete (l : SnapshotList) (s : ℕ) : SnapshotList := { l with links := l.links.remove s }

/-- The list has these snapshots in this order, and their numbers do not decrease. -/
structure Holds (l : SnapshotList) (live : List ℕ) : Prop where
  /-- The links go through the snapshots. -/
  ring : Ring l.links head live
  /-- The numbers are in order. -/
  sorted : (live.map l.number).Pairwise (· ≤ ·)

variable {l : SnapshotList} {live : List ℕ} {s seq : ℕ}

/-- A new list of snapshots is a circle that holds none. -/
theorem holds_new : new.Holds [] := ⟨Ring.empty head, List.Pairwise.nil⟩

/-- A new snapshot leaves the numbers of the others. -/
theorem map_number_insert (hs : s ∉ live) :
    live.map (l.insert s seq).number = live.map l.number := by
  apply List.map_congr_left
  intro x hx
  exact Function.update_of_ne (ne_of_mem_of_not_mem hx hs) _ _

/-- A snapshot that is not below the others keeps the order. -/
theorem Holds.insert (h : l.Holds live) (hs : s ∉ head :: live) (hle : ∀ x ∈ live, l.number x ≤ seq) :
    (l.insert s seq).Holds (live ++ [s]) where
  ring := h.ring.insertLast hs
  sorted := by
    have hnot : s ∉ live := fun hmem => hs (List.mem_cons_of_mem head hmem)
    rw [List.map_append, map_number_insert hnot, List.map_singleton]
    refine List.pairwise_append.mpr ⟨h.sorted, List.pairwise_singleton _ _, fun n hn m hm => ?_⟩
    obtain ⟨x, hx, rfl⟩ := List.mem_map.mp hn
    rw [List.mem_singleton.mp hm]
    exact (hle x hx).trans_eq (Function.update_self s seq l.number).symm

/-- Any snapshot that is held may be deleted, and the list holds the others in their order. -/
theorem Holds.delete (h : l.Holds live) (hs : s ∈ live) : (l.delete s).Holds (live.erase s) where
  ring := h.ring.remove_mem hs
  sorted := h.sorted.sublist (List.erase_sublist.map _)

/-- The list is empty when no snapshot is live. -/
theorem Holds.empty_iff (h : l.Holds live) : l.empty = true ↔ live = [] := by
  unfold empty
  rw [decide_eq_true_iff]
  exact h.ring.next_head_eq_iff

/-- `oldest` is a live snapshot with the least number. -/
theorem Holds.oldest (h : l.Holds live) (hne : live ≠ []) :
    l.oldest ∈ live ∧ ∀ s ∈ live, l.number l.oldest ≤ l.number s := by
  obtain ⟨x, rest, rfl⟩ := List.exists_cons_of_ne_nil hne
  have hold : l.oldest = x := h.ring.next_head
  obtain ⟨hle, -⟩ := List.pairwise_cons.mp h.sorted
  rw [hold]
  refine ⟨List.mem_cons_self, fun s hs => ?_⟩
  rcases List.mem_cons.mp hs with rfl | hs
  · exact le_refl _
  · exact hle _ (List.mem_map_of_mem hs)

end SnapshotList

/-! ## The sections -/

/-- Where a thread is in `Write`. -/
inductive WriteSection where
  /-- Outside. -/
  | idle
  /-- In `MakeRoomForWrite`, with logging responsibility: the count in the header of the batch, and whether
  `options.post_write_snapshot` is set. -/
  | makeRoom (count : ℕ) (post : Bool)
  /-- Without the mutex, at the log and the memtable: `last_sequence`. -/
  | logging (lastSequence : ℕ) (post : Bool)
  deriving DecidableEq

/-- What the sections share. -/
structure Snapshots (T : Type) where
  /-- `versions_->LastSequence()` -/
  lastSequence : ℕ
  /-- `logger_` -/
  logger : Option T := none
  /-- Where each thread is. -/
  writes : T → WriteSection := fun _ => .idle
  /-- `snapshots_` -/
  list : SnapshotList := .new
  /-- History: the snapshots that callers have, in the order of their creation. -/
  live : List ℕ := []
  /-- History: the `smallest_snapshot` of each compaction. -/
  floors : List ℕ := []

/-- A section. A `SnapshotImpl` that it makes is at address `s`. -/
inductive SnapshotEvent (T : Type) where
  /-- `Write` acquires logging responsibility. -/
  | acquire (t : T) (count : ℕ) (post : Bool)
  /-- `MakeRoomForWrite` returns with a status, and `Write` goes on to the log or returns. -/
  | madeRoom (t : T) (ok : Bool)
  /-- The log and the memtable are done with a status, and `Write` returns. -/
  | logged (t : T) (ok : Bool) (s : ℕ)
  /-- `GetSnapshot` -/
  | getSnapshot (s : ℕ)
  /-- `ReleaseSnapshot` -/
  | releaseSnapshot (s : ℕ)
  /-- `DoCompactionWork` picks `smallest_snapshot`. -/
  | compaction

namespace Snapshots

variable {T : Type} [DecidableEq T]

/-- `last_sequence += Count(updates)`: a `uint64_t` to which an `int` is added. -/
def addCount (lastSequence count : ℕ) : ℕ := ((lastSequence + toInt32 count) % 2^64).toNat

/-- `snapshots_.New` at an address that is not in use. -/
def newSnapshot (st : Snapshots T) (s seq : ℕ) : Option (Snapshots T) :=
  if s ∈ SnapshotList.head :: st.live then none
  else some { st with list := st.list.insert s seq, live := st.live ++ [s] }

/-- `Write` returns, and gives logging responsibility up. -/
def returns (st : Snapshots T) (t : T) : Snapshots T :=
  { st with logger := none, writes := Function.update st.writes t .idle }

/-- The `smallest_snapshot` that a compaction picks. -/
def smallestSnapshot (st : Snapshots T) : ℕ :=
  if st.list.empty then st.lastSequence else st.list.number st.list.oldest

/-- A section runs. -/
def step (st : Snapshots T) : SnapshotEvent T → Option (Snapshots T)
  | .acquire t count post =>
    if st.logger = none ∧ st.writes t = .idle then
      some { st with logger := some t, writes := Function.update st.writes t (.makeRoom count post) }
    else none
  | .madeRoom t ok =>
    match st.writes t with
    | .makeRoom count post =>
      if ok then
        let last := addCount st.lastSequence count
        some { st with writes := Function.update st.writes t (.logging last post) }
      else some (st.returns t)
    | _ => none
  | .logged t ok s =>
    match st.writes t with
    | .logging last post =>
      let st := { st with lastSequence := last }
      if post ∧ ok then (st.newSnapshot s last).map fun st => st.returns t
      else some (st.returns t)
    | _ => none
  | .getSnapshot s => st.newSnapshot s st.lastSequence
  | .releaseSnapshot s =>
    if s ∈ st.live then some { st with list := st.list.delete s, live := st.live.erase s } else none
  | .compaction => some { st with floors := st.floors ++ [st.smallestSnapshot] }

/-- The count of a batch fits into an `int`, and the sequence numbers do not overflow. -/
def CountFits (st : Snapshots T) : SnapshotEvent T → Prop
  | .madeRoom t true => ∀ count post, st.writes t = .makeRoom count post →
      count < 2^31 ∧ st.lastSequence + count < 2^64
  | _ => True

/-- The states of a run after `DB::Open`, in which all counts fit. -/
inductive Run (lastSequence : ℕ) : Snapshots T → Prop
  /-- After `DB::Open`. -/
  | opened : Run lastSequence { lastSequence := lastSequence }
  /-- One more section. -/
  | step {st st' : Snapshots T} {ev : SnapshotEvent T} (h : Run lastSequence st)
    (hfits : st.CountFits ev) (hstep : st.step ev = some st') : Run lastSequence st'

/-! ## What holds in every state -/

/-- The list is in order, and nothing that was picked is above a live snapshot or the last sequence number.
Only the thread with logging responsibility is in `Write`, and it does not go back. -/
structure Inv (st : Snapshots T) : Prop where
  /-- The list. -/
  holds : st.list.Holds st.live
  /-- Snapshots are not ahead. -/
  live_le : ∀ s ∈ st.live, st.list.number s ≤ st.lastSequence
  /-- Only the logger is in `Write`. -/
  logging : ∀ t, st.writes t ≠ .idle → st.logger = some t
  /-- A write does not go back. -/
  last_le : ∀ t last post, st.writes t = .logging last post → st.lastSequence ≤ last
  /-- What was picked is not above a live snapshot. -/
  floor_live : ∀ f ∈ st.floors, ∀ s ∈ st.live, f ≤ st.list.number s
  /-- What was picked is not above the last sequence number. -/
  floor_last : ∀ f ∈ st.floors, f ≤ st.lastSequence

variable {st st' : Snapshots T} {t : T} {s seq : ℕ}

omit [DecidableEq T] in
/-- After `DB::Open` there are no snapshots and no logger, and the invariant holds. -/
theorem inv_opened (lastSequence : ℕ) : ({ lastSequence := lastSequence } : Snapshots T).Inv where
  holds := SnapshotList.holds_new
  live_le := by simp
  logging t h := absurd rfl h
  last_le t last post h := nomatch h
  floor_live := by simp
  floor_last := by simp

omit [DecidableEq T] in
/-- A new snapshot at the last sequence number. -/
theorem Inv.newSnapshot (h : st.Inv) (hnew : st.newSnapshot s st.lastSequence = some st') : st'.Inv := by
  unfold Snapshots.newSnapshot at hnew
  split_ifs at hnew with hs
  obtain rfl := Option.some.inj hnew
  have hnot : s ∉ st.live := fun hmem => hs (List.mem_cons_of_mem _ hmem)
  -- the numbers of the snapshots after it was made
  have hnumber : ∀ x ∈ st.live ++ [s],
      (x ∈ st.live ∧ (st.list.insert s st.lastSequence).number x = st.list.number x) ∨
        (st.list.insert s st.lastSequence).number x = st.lastSequence := by
    intro x hx
    rcases List.mem_append.mp hx with hx | hx
    · exact Or.inl ⟨hx, Function.update_of_ne (ne_of_mem_of_not_mem hx hnot) _ _⟩
    · rw [List.mem_singleton.mp hx]
      exact Or.inr (Function.update_self _ _ _)
  refine ⟨h.holds.insert hs h.live_le, ?_, h.logging, h.last_le, ?_, h.floor_last⟩
  · intro x hx
    rcases hnumber x hx with ⟨hlive, heq⟩ | heq
    · exact heq.trans_le (h.live_le x hlive)
    · exact heq.le
  · intro f hf x hx
    rcases hnumber x hx with ⟨hlive, heq⟩ | heq
    · exact (h.floor_live f hf x hlive).trans_eq heq.symm
    · exact (h.floor_last f hf).trans_eq heq.symm

omit [DecidableEq T] in
/-- The last sequence number goes up to that of the logger. -/
theorem Inv.setLastSequence (h : st.Inv) {last : ℕ} {post : Bool}
    (ht : st.writes t = .logging last post) : { st with lastSequence := last }.Inv where
  holds := h.holds
  live_le x hx := (h.live_le x hx).trans (h.last_le t last post ht)
  logging := h.logging
  last_le t' last' post' ht' := by
    -- the other thread would be the logger, too
    have h1 := h.logging t (by rw [ht]; exact nofun)
    have h2 := h.logging t' (by rw [ht']; exact nofun)
    obtain rfl : t = t' := Option.some.inj (h1.symm.trans h2)
    rw [ht] at ht'
    obtain ⟨rfl, -⟩ := WriteSection.logging.inj ht'
    exact le_refl _
  floor_live := h.floor_live
  floor_last f hf := (h.floor_last f hf).trans (h.last_le t last post ht)

/-- The invariant holds when the logger moves on in `Write` with a sequence number that is not below
the last one. -/
theorem Inv.move (h : st.Inv) (ht : st.logger = some t) {w : WriteSection}
    (hw : ∀ last post, w = .logging last post → st.lastSequence ≤ last) :
    { st with writes := Function.update st.writes t w }.Inv where
  holds := h.holds
  live_le := h.live_le
  logging t' ht' := by
    rcases eq_or_ne t' t with rfl | hne
    · exact ht
    · exact h.logging t' (by
        change Function.update st.writes t w t' ≠ _ at ht'
        rwa [Function.update_of_ne hne] at ht')
  last_le t' last post ht' := by
    change Function.update st.writes t w t' = _ at ht'
    rcases eq_or_ne t' t with rfl | hne
    · rw [Function.update_self] at ht'
      exact hw last post ht'
    · rw [Function.update_of_ne hne] at ht'
      exact h.last_le t' last post ht'
  floor_live := h.floor_live
  floor_last := h.floor_last

/-- The invariant holds after the thread that was the logger has returned from `Write`. -/
theorem Inv.returns (h : st.Inv) (ht : st.logger = some t) : (st.returns t).Inv where
  holds := h.holds
  live_le := h.live_le
  logging t' ht' := by
    rcases eq_or_ne t' t with rfl | hne
    · exact absurd (Function.update_self ..) ht'
    · have hlogger := h.logging t' (by
        change Function.update st.writes t .idle t' ≠ _ at ht'
        rwa [Function.update_of_ne hne] at ht')
      exact absurd (Option.some.inj (hlogger.symm.trans ht)) hne
  last_le t' last post ht' := by
    change Function.update st.writes t .idle t' = _ at ht'
    rcases eq_or_ne t' t with rfl | hne
    · rw [Function.update_self] at ht'
      exact nomatch ht'
    · rw [Function.update_of_ne hne] at ht'
      exact h.last_le t' last post ht'
  floor_live := h.floor_live
  floor_last := h.floor_last

omit [DecidableEq T] in
/-- What a compaction picks is not above a live snapshot, nor above the last sequence number. -/
theorem Inv.smallestSnapshot_le (h : st.Inv) :
    (∀ s ∈ st.live, st.smallestSnapshot ≤ st.list.number s) ∧
      st.smallestSnapshot ≤ st.lastSequence := by
  unfold smallestSnapshot
  split_ifs with hempty
  · rw [h.holds.empty_iff.mp hempty]
    exact ⟨fun s hs => absurd hs List.not_mem_nil, le_refl _⟩
  · obtain ⟨hmem, hle⟩ := h.holds.oldest fun hnil => hempty (h.holds.empty_iff.mpr hnil)
    exact ⟨hle, h.live_le _ hmem⟩

/-- Adding a count that fits does not wrap, since the sum is below `2^64`. -/
theorem addCount_eq {lastSequence count : ℕ} (hcount : count < 2^31)
    (hlast : lastSequence + count < 2^64) : addCount lastSequence count = lastSequence + count := by
  have hint : toInt32 count = count := by
    unfold toInt32
    apply Int.bmod_eq_of_le <;> omega
  unfold addCount
  rw [hint]
  omega

/-- Every section that runs, and whose count fits, keeps the invariant. -/
theorem Inv.step (h : st.Inv) {ev : SnapshotEvent T} (hfits : st.CountFits ev)
    (hstep : st.step ev = some st') : st'.Inv := by
  cases ev with
  | acquire t count post =>
    unfold Snapshots.step at hstep
    dsimp only at hstep
    split_ifs at hstep with hidle
    obtain rfl := Option.some.inj hstep
    -- While nobody holds `logger_`, no write is between its two sections.
    have hnone : ∀ t', st.writes t' = .idle := by
      intro t'
      by_contra hne
      have hlogger := h.logging t' hne
      rw [hidle.1] at hlogger
      exact nomatch hlogger
    have hinv : { st with logger := some t }.Inv :=
      ⟨h.holds, h.live_le, fun t' ht' => absurd (hnone t') ht', h.last_le, h.floor_live,
        h.floor_last⟩
    exact hinv.move rfl fun last post hw => nomatch hw
  | madeRoom t ok =>
    unfold Snapshots.step at hstep
    dsimp only at hstep
    split at hstep
    · next count post hw =>
      have ht : st.logger = some t := h.logging t (by rw [hw]; exact nofun)
      split_ifs at hstep with hok
      · obtain rfl := Option.some.inj hstep
        subst hok
        obtain ⟨hcount, hlast⟩ := hfits count post hw
        -- The numbers are taken here, but published only when the batch is in the memtable.
        refine h.move ht fun last post' hlogging => ?_
        obtain ⟨rfl, -⟩ := WriteSection.logging.inj hlogging
        rw [addCount_eq hcount hlast]
        exact Nat.le_add_right _ _
      · obtain rfl := Option.some.inj hstep
        exact h.returns ht
    · exact nomatch hstep
  | logged t ok s =>
    unfold Snapshots.step at hstep
    dsimp only at hstep
    split at hstep
    · next last post hw =>
      have ht : st.logger = some t := h.logging t (by rw [hw]; exact nofun)
      have hset := h.setLastSequence hw
      split_ifs at hstep with hpost
      · obtain ⟨st1, hnew, rfl⟩ := Option.map_eq_some_iff.mp hstep
        have ht1 : st1.logger = some t := by
          unfold Snapshots.newSnapshot at hnew
          split_ifs at hnew
          rw [← Option.some.inj hnew]
          exact ht
        exact (hset.newSnapshot hnew).returns ht1
      · obtain rfl := Option.some.inj hstep
        exact hset.returns ht
    · exact nomatch hstep
  | getSnapshot s => exact h.newSnapshot hstep
  | releaseSnapshot s =>
    unfold Snapshots.step at hstep
    dsimp only at hstep
    split_ifs at hstep with hs
    obtain rfl := Option.some.inj hstep
    exact ⟨h.holds.delete hs, fun x hx => h.live_le x (List.mem_of_mem_erase hx), h.logging, h.last_le,
      fun f hf x hx => h.floor_live f hf x (List.mem_of_mem_erase hx), h.floor_last⟩
  | compaction =>
    obtain rfl := Option.some.inj hstep
    -- The floor of the new compaction is below every snapshot, and below those that are yet to come.
    obtain ⟨hlive, hlast⟩ := h.smallestSnapshot_le
    refine ⟨h.holds, h.live_le, h.logging, h.last_le, fun f hf x hx => ?_, fun f hf => ?_⟩
    · rcases List.mem_append.mp hf with hf | hf
      · exact h.floor_live f hf x hx
      · rw [List.mem_singleton.mp hf]
        exact hlive x hx
    · rcases List.mem_append.mp hf with hf | hf
      · exact h.floor_last f hf
      · rw [List.mem_singleton.mp hf]
        exact hlast

/-- The invariant holds in every state that a run reaches from `DB::Open`. -/
theorem Run.inv {lastSequence : ℕ} (h : Run lastSequence st) : st.Inv := by
  induction h with
  | opened => exact inv_opened lastSequence
  | step _ hfits hstep ih => exact ih.step hfits hstep

/-! ## The floor of a compaction -/

/-- In every state of every run the snapshots are in the order of their numbers, `oldest` is the least of
them, and whatever a compaction picked, now or earlier, is not above the number of a live snapshot. -/
theorem floor_le {lastSequence : ℕ} (h : Run lastSequence st) :
    st.list.Holds st.live ∧
      (st.live ≠ [] →
        st.list.oldest ∈ st.live ∧ ∀ s ∈ st.live, st.list.number st.list.oldest ≤ st.list.number s) ∧
      ∀ f ∈ st.floors, ∀ s ∈ st.live, f ≤ st.list.number s :=
  ⟨h.inv.holds, h.inv.holds.oldest, h.inv.floor_live⟩

/-- Two snapshots, a compaction while a write with a snapshot is at the log, and the second snapshot is
released before the first. -/
theorem floor_le_example :
    ∃ st : Snapshots Bool,
      List.foldlM step { lastSequence := 7 }
        [.getSnapshot 1, .acquire true 2 true, .madeRoom true true, .getSnapshot 2, .compaction,
          .logged true true 3, .releaseSnapshot 2, .compaction, .releaseSnapshot 1, .compaction] =
        some st ∧
      st.live = [3] ∧ st.list.number 3 = 9 ∧ st.floors = [7, 7, 9] ∧
      ∀ f ∈ st.floors, ∀ s ∈ st.live, f ≤ st.list.number s := by
  have hfits : ∀ count post, (WriteSection.makeRoom 2 true) = .makeRoom count post →
      count < 2^31 ∧ 7 + count < 2^64 := by
    intro count post heq
    obtain ⟨rfl, -⟩ := WriteSection.makeRoom.inj heq
    decide
  have h1 := @Run.step Bool _ 7 _ _ (.getSnapshot 1) Run.opened trivial rfl
  have h2 := @Run.step Bool _ 7 _ _ (.acquire true 2 true) h1 trivial rfl
  have h3 := @Run.step Bool _ 7 _ _ (.madeRoom true true) h2 hfits rfl
  have h4 := @Run.step Bool _ 7 _ _ (.getSnapshot 2) h3 trivial rfl
  have h5 := @Run.step Bool _ 7 _ _ .compaction h4 trivial rfl
  have h6 := @Run.step Bool _ 7 _ _ (.logged true true 3) h5 trivial rfl
  have h7 := @Run.step Bool _ 7 _ _ (.releaseSnapshot 2) h6 trivial rfl
  have h8 := @Run.step Bool _ 7 _ _ .compaction h7 trivial rfl
  have h9 := @Run.step Bool _ 7 _ _ (.releaseSnapshot 1) h8 trivial rfl
  have h10 := @Run.step Bool _ 7 _ _ .compaction h9 trivial rfl
  exact ⟨_, rfl, rfl, rfl, rfl, (floor_le h10).2.2⟩

/-- A batch with `2^31` updates takes the last sequence number back, because its count is an `int`: the
next snapshot is below the one before it, and below what a compaction picked. -/
theorem count_int_overflows :
    ∃ st : Snapshots Bool,
      List.foldlM step { lastSequence := 2^31 }
        [.getSnapshot 1, .acquire true (2^31) false, .madeRoom true true, .compaction,
          .logged true true 0, .getSnapshot 2] = some st ∧
      st.live = [1, 2] ∧ st.list.number 1 = 2^31 ∧ st.list.number 2 = 0 ∧ st.floors = [2^31] ∧
      ¬ st.list.Holds st.live := by
  refine ⟨_, rfl, rfl, rfl, rfl, rfl, fun h => ?_⟩
  exact absurd h.sorted (by decide)

end Snapshots

end LevelDb
