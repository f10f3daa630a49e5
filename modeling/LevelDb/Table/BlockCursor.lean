import LevelDb.Table.BlockImage

/-!
# The iterator of a block is a cursor

`Block::Iter` over the bytes of a finished block moves as a cursor over its entries. Its states are of
two kinds: between calls it stands at an entry or at the end (`Stands`), and inside of a call it is ready
to read an entry (`Ready`), because it has as much of the key before it as the entry shares. Where
`restart_index_` points to does not matter as long as it is a restart point: `Prev` goes back from it to
one before the entry, and reads on from there.
-/

namespace LevelDb

open Lib

namespace BlockIter

variable {f : FinishedBlock} {cmp : Comparator} {it : BlockIter} {i : ℕ}

/-! ## States -/

/-- An iterator over a finished block, without an error. -/
structure Over (f : FinishedBlock) (cmp : Comparator) (it : BlockIter) : Prop where
  /-- The order of the keys. -/
  comparator : it.comparator = cmp
  /-- The bytes. -/
  data : it.data = f.builder.finish
  /-- The restart array stands behind the entries. -/
  restarts : it.restarts = f.builder.buffer.length
  /-- The number of restart points. -/
  numRestarts : it.numRestarts = f.builder.restarts.length
  /-- There was no error. -/
  status : it.status = none

/-- `ParseNextKey` reads an entry next, or the end. -/
structure Ready (f : FinishedBlock) (cmp : Comparator) (it : BlockIter) (i : ℕ) : Prop
    extends Over f cmp it where
  /-- The number of an entry, or the end. -/
  le : i ≤ f.entries.length
  /-- Where it starts. -/
  next : it.nextEntryOffset = f.offset i
  /-- What it shares is in `key_`. -/
  key : ∀ {p : Slice × Slice}, f.entries[i]? = some p →
    f.shared i ≤ it.key.length ∧ it.key.take (f.shared i) = p.1.take (f.shared i)
  /-- There is a restart point. -/
  restartIndex : it.restartIndex < f.builder.restarts.length

/-- The iterator is at an entry. -/
structure At (f : FinishedBlock) (cmp : Comparator) (it : BlockIter) (i : ℕ) : Prop
    extends Over f cmp it where
  /-- Where the entry starts. -/
  current : it.current = f.offset i
  /-- The key and the value. -/
  entry : f.entries[i]? = some (it.key, it.value)
  /-- The value ends with the entry. -/
  valueEnd : it.valueOffset + it.valueSize = f.offset (i + 1)
  /-- There is a restart point. -/
  restartIndex : it.restartIndex < f.builder.restarts.length

/-- The iterator is at an entry or at the end. -/
def Stands (f : FinishedBlock) (cmp : Comparator) (it : BlockIter) : Option ℕ → Prop
  | none => Over f cmp it ∧ it.current = f.builder.buffer.length
  | some i => At f cmp it i

/-- The fixed part is there in every state. -/
theorem Stands.over {pos : Option ℕ} (h : Stands f cmp it pos) : Over f cmp it := by
  cases pos with
  | none => exact h.1
  | some i => exact h.toOver

/-! ## Reading entries -/

/-- The entries that the iterator parses from an offset are the bytes of the builder's buffer behind
it. -/
theorem Over.entriesFrom (h : Over f cmp it) (offset : ℕ) :
    it.entriesFrom offset = f.builder.buffer.drop offset := by
  unfold BlockIter.entriesFrom
  rw [h.data, h.restarts]
  unfold BlockBuilder.finish
  rw [List.append_assoc, List.take_left]

/-- The bytes from an offset on begin with those of the entries. -/
theorem Over.drop_data (h : Over f cmp it) {offset : ℕ} (hle : offset ≤ f.builder.buffer.length) :
    ∃ back, it.data.drop offset = f.builder.buffer.drop offset ++ back := by
  rw [h.data]
  unfold BlockBuilder.finish
  rw [List.append_assoc, List.drop_append_of_le_length hle]
  exact ⟨_, rfl⟩

/-- The loop of `ParseNextKey` leaves `restart_index_` below the number of restart points. -/
theorem advanceRestart_lt (it : BlockIter) (current : ℕ) : ∀ {fuel index : ℕ}, index < it.numRestarts →
    it.advanceRestart current fuel index < it.numRestarts
  | 0, _, h => h
  | fuel + 1, index, h => by
    unfold BlockIter.advanceRestart
    split_ifs with hnext
    · exact it.advanceRestart_lt current hnext.1
    · exact h

/-- After an entry comes the next one. -/
theorem At.ready (h : At f cmp it i) : Ready f cmp it (i + 1) where
  toOver := h.toOver
  le := (List.getElem?_eq_some_iff.mp h.entry).1
  next := by
    unfold nextEntryOffset
    rw [h.valueEnd, Nat.mod_eq_of_lt]
    exact lt_of_le_of_lt (f.image.offset_le_length (List.getElem?_eq_some_iff.mp h.entry).1) f.buffer_lt
  key hp := f.image.shared_key h.entry hp
  restartIndex := h.restartIndex

/-- An iterator that is put behind the last entry is valid nowhere and parses nothing more. -/
theorem Over.noMoreEntries (h : Over f cmp it) : Stands f cmp it.noMoreEntries none :=
  ⟨⟨h.comparator, h.data, h.restarts, h.numRestarts, h.status⟩, h.restarts⟩

/-- Behind the last entry `ParseNextKey` returns false, and the iterator is not valid. -/
theorem Ready.parseNextKey_end (h : Ready f cmp it i) (hi : i = f.entries.length) :
    it.parseNextKey.1 = false ∧ Stands f cmp it.parseNextKey.2 none := by
  have hend : it.restarts ≤ it.nextEntryOffset := by
    rw [h.restarts, h.next, hi, f.image.offset_length]
  unfold parseNextKey
  rw [if_pos hend]
  exact ⟨rfl, h.noMoreEntries⟩

/-- At an entry `ParseNextKey` returns true, and the iterator is at this entry. -/
theorem Ready.parseNextKey_entry (h : Ready f cmp it i) (hi : i < f.entries.length) :
    it.parseNextKey.1 = true ∧ At f cmp it.parseNextKey.2 i := by
  obtain ⟨p, hp⟩ : ∃ p, f.entries[i]? = some p := ⟨_, List.getElem?_eq_getElem hi⟩
  have hlt := f.image.offset_lt hi le_rfl
  obtain ⟨rest, hdecode, hrest, hend⟩ := f.image.decodeEntry_drop f.buffer_lt hp
  obtain ⟨hshared, hkey⟩ := h.key hp
  obtain ⟨back, hback⟩ := h.drop_data (Nat.sub_le f.builder.buffer.length rest.length)
  rw [hrest] at hback
  unfold parseNextKey
  rw [if_neg (by rw [h.restarts, h.next, ← f.image.offset_length]; omega)]
  dsimp only
  rw [h.entriesFrom, h.next, hdecode]
  dsimp only
  rw [if_neg (Nat.not_lt.mpr hshared)]
  refine ⟨rfl, ⟨h.comparator, h.data, h.restarts, h.numRestarts, h.status⟩, rfl, ?_, ?_, ?_⟩
  · -- The key is what it shares, from `key_`, and the rest, from the entry.
    have hlength : p.1.length - f.shared i = (p.1.drop (f.shared i)).length := List.length_drop.symm
    dsimp only [BlockIter.value]
    rw [h.restarts, hback, ← List.drop_drop, hback, hlength, List.append_assoc, List.append_assoc,
      List.take_left, List.drop_left, List.take_left, hkey, List.take_append_drop]
    exact hp
  · dsimp only
    rw [h.restarts]
    exact hend
  · have hindex : it.restartIndex < it.numRestarts := h.numRestarts ▸ h.restartIndex
    exact h.numRestarts ▸ it.advanceRestart_lt (f.offset i) hindex

/-- A loop of `ParseNextKey` stops at the first entry that does not meet the condition, or at the
end. -/
theorem Ready.parseWhile {cond : BlockIter → Bool} {q : ℕ → Bool}
    (hq : ∀ {it : BlockIter} {i : ℕ}, At f cmp it i → cond it = q i) : ∀ {fuel : ℕ} {it : BlockIter} {i : ℕ},
    f.entries.length - i < fuel → Ready f cmp it i →
    ∃ k, i ≤ k ∧ k ≤ f.entries.length ∧ (∀ j, i ≤ j → j < k → q j = true) ∧
      (k < f.entries.length → q k = false) ∧
      Stands f cmp (BlockIter.parseWhile cond fuel it) (clip f.entries k)
  | 0, _, _, hfuel, _ => absurd hfuel (Nat.not_lt_zero _)
  | fuel + 1, it, i, hfuel, h => by
    unfold BlockIter.parseWhile
    dsimp only
    obtain hi | hi := Nat.lt_or_eq_of_le h.le
    · obtain ⟨htrue, hat⟩ := h.parseNextKey_entry hi
      rw [htrue, hq hat, Bool.true_and]
      cases hcond : q i with
      | true =>
        -- The loop goes on behind this entry.
        have hfuel' : f.entries.length - (i + 1) < fuel := by omega
        obtain ⟨k, hik, hk, hbefore, hstop, hstands⟩ := Ready.parseWhile hq hfuel' hat.ready
        refine ⟨k, by omega, hk, fun j hij hjk => ?_, hstop, hstands⟩
        obtain rfl | hlt := Nat.eq_or_lt_of_le hij
        · exact hcond
        · exact hbefore j hlt hjk
      | false =>
        refine ⟨i, le_rfl, hi.le, fun j hij hji => ?_, fun _ => hcond, ?_⟩
        · omega
        · rw [clip_of_lt hi]
          exact hat
    · obtain ⟨hfalse, hstands⟩ := h.parseNextKey_end hi
      rw [hfalse]
      refine ⟨i, le_rfl, h.le, fun j hij hji => ?_, fun hlt => ?_, ?_⟩
      · omega
      · omega
      · rw [clip_of_le hi.ge]
        exact hstands

/-! ## Restart points -/

/-- The first restart point, which is there also without entries. -/
theorem Over.restartPoint_zero (h : Over f cmp it) : it.getRestartPoint 0 = f.offset 0 := by
  rw [f.image.offset_zero]
  exact BlockBuilder.getRestartPoint_finish h.data h.restarts f.image.points_zero (by decide)

/-- The other restart points, and the entries there. -/
theorem Over.restartPoint (h : Over f cmp it) {index : ℕ} (hindex : index < f.builder.restarts.length)
    (hpos : 0 < index) :
    ∃ i < f.entries.length, it.getRestartPoint index = f.offset i ∧ f.shared i = 0 := by
  obtain ⟨r, hr⟩ : ∃ r, f.builder.restarts[index]? = some r := ⟨_, List.getElem?_eq_getElem hindex⟩
  obtain hzero | ⟨i, hi, hoffset, hshared⟩ := f.image.point hr
  · omega
  · refine ⟨i, hi, ?_, hshared⟩
    rw [hoffset]
    apply BlockBuilder.getRestartPoint_finish h.data h.restarts hr
    exact lt_of_le_of_lt (hoffset ▸ f.image.offset_le_length hi.le) f.buffer_lt

/-- After `SeekToRestartPoint` the entry of the restart point is the next one to be parsed, which
shares nothing. -/
theorem Over.seekToRestartPoint (h : Over f cmp it) {index : ℕ}
    (hindex : index < f.builder.restarts.length) (hi : i ≤ f.entries.length)
    (hpoint : it.getRestartPoint index = f.offset i) (hshared : f.shared i = 0) :
    Ready f cmp (it.seekToRestartPoint index) i where
  comparator := h.comparator
  data := h.data
  restarts := h.restarts
  numRestarts := h.numRestarts
  status := h.status
  le := hi
  next := by
    unfold nextEntryOffset BlockIter.seekToRestartPoint
    dsimp only
    rw [hpoint, Nat.add_zero, Nat.mod_eq_of_lt]
    exact lt_of_le_of_lt (f.image.offset_le_length hi) f.buffer_lt
  key _ := by
    rw [hshared]
    exact ⟨Nat.zero_le _, rfl⟩
  restartIndex := hindex

/-- The number of rounds is large enough. -/
theorem Over.fuel (h : Over f cmp it) (i : ℕ) : f.entries.length - i < it.restarts + 1 := by
  have hle := f.image.le_offset le_rfl
  rw [f.image.offset_length, ← h.restarts] at hle
  omega

/-- At a restart point there is an entry, or there are none at all. -/
theorem Over.exists_ready (h : Over f cmp it) {index : ℕ} (hindex : index < f.builder.restarts.length) :
    ∃ i, Ready f cmp (it.seekToRestartPoint index) i ∧ it.getRestartPoint index = f.offset i ∧
      (f.entries ≠ [] → i < f.entries.length) := by
  obtain rfl | hpos := Nat.eq_zero_or_pos index
  · refine ⟨0, h.seekToRestartPoint hindex (Nat.zero_le _) h.restartPoint_zero f.image.shared_zero,
      h.restartPoint_zero, ?_⟩
    exact List.length_pos_iff.mpr
  · obtain ⟨i, hi, hpoint, hshared⟩ := h.restartPoint hindex hpos
    exact ⟨i, h.seekToRestartPoint hindex hi.le hpoint hshared, hpoint, fun _ => hi⟩

/-! ## Operations -/

/-- When `ParseNextKey` reads an entry next, it leads to this entry, or to no entry behind the last
one. -/
theorem Ready.parseNextKey (h : Ready f cmp it i) :
    Stands f cmp it.parseNextKey.2 (clip f.entries i) := by
  obtain hi | hi := Nat.lt_or_eq_of_le h.le
  · rw [clip_of_lt hi]
    exact (h.parseNextKey_entry hi).2
  · rw [clip_of_le hi.ge]
    exact (h.parseNextKey_end hi).2

/-- `SeekToFirst` leads to the first entry, or to no entry if there is none. -/
theorem Over.seekToFirst (h : Over f cmp it) : Stands f cmp it.seekToFirst (clip f.entries 0) :=
  (h.seekToRestartPoint f.restarts_pos (Nat.zero_le _) h.restartPoint_zero
    f.image.shared_zero).parseNextKey

/-- `SeekToLast` leads to the last entry, or to no entry if there is none. -/
theorem Over.seekToLast (h : Over f cmp it) :
    Stands f cmp it.seekToLast (before f.entries.length) := by
  have hpos := f.restarts_pos
  unfold BlockIter.seekToLast
  rw [h.numRestarts]
  obtain ⟨i, hready, -, hi⟩ := h.exists_ready (show f.builder.restarts.length - 1 < _ by omega)
  -- An entry is not the last one if it ends before the entries do.
  have hq : ∀ {it : BlockIter} {i : ℕ}, At f cmp it i →
      decide (it.nextEntryOffset < it.restarts) = decide (i + 1 < f.entries.length) := by
    intro it i hat
    have hlt := (List.getElem?_eq_some_iff.mp hat.entry).1
    rw [hat.ready.next, hat.restarts, ← f.image.offset_length]
    apply decide_eq_decide.mpr
    constructor
    · intro hoffset
      by_contra hge
      rw [show i + 1 = f.entries.length by omega] at hoffset
      exact lt_irrefl _ hoffset
    · intro hlt'
      exact f.image.offset_lt hlt' le_rfl
  obtain ⟨k, hik, hk, hbefore, hstop, hstands⟩ := hready.parseWhile hq (h.fuel i)
  have hpos : clip f.entries k = before f.entries.length := by
    by_cases hempty : f.entries = []
    · rw [hempty]
      rfl
    · have hlast := hbefore (k - 1)
      have hi := hi hempty
      simp only [decide_eq_true_eq, decide_eq_false_iff_not] at hlast hstop
      rw [clip_of_lt (by omega), before, if_pos (by omega)]
      congr 1
      omega
  exact hpos ▸ hstands

/-- The loop of `Prev` finds a restart point before the entry, or there is none. -/
theorem restartBefore_cases (it : BlockIter) (original : ℕ) : ∀ index : ℕ,
    (it.restartBefore original index = none ∧ original ≤ it.getRestartPoint 0) ∨
      ∃ j ≤ index, it.restartBefore original index = some j ∧ it.getRestartPoint j < original
  | 0 => by
    unfold restartBefore
    split_ifs with hle
    · exact Or.inl ⟨rfl, hle⟩
    · exact Or.inr ⟨0, le_rfl, rfl, Nat.lt_of_not_le hle⟩
  | index + 1 => by
    unfold restartBefore
    split_ifs with hle
    · obtain hnone | ⟨j, hj, hsome⟩ := it.restartBefore_cases original index
      · exact Or.inl hnone
      · exact Or.inr ⟨j, Nat.le_succ_of_le hj, hsome⟩
    · exact Or.inr ⟨index + 1, le_rfl, rfl, Nat.lt_of_not_le hle⟩

/-- Offsets are in the order of the entries. -/
theorem offset_lt_iff (f : FinishedBlock) {i j : ℕ} (hi : i ≤ f.entries.length)
    (hj : j ≤ f.entries.length) : f.offset i < f.offset j ↔ i < j := by
  constructor
  · intro hlt
    by_contra hge
    exact absurd (f.image.offset_le (Nat.le_of_not_lt hge) hi) (Nat.not_le.mpr hlt)
  · intro hlt
    exact f.image.offset_lt hlt hj

/-- `Prev` leads to the entry before, or to no entry at the first one. -/
theorem At.prev (h : At f cmp it i) : Stands f cmp it.prev (before i) := by
  have hi := (List.getElem?_eq_some_iff.mp h.entry).1
  unfold BlockIter.prev
  rw [h.current]
  obtain ⟨hnone, hfirst⟩ | ⟨index, hindex, hsome, hlt⟩ :=
    it.restartBefore_cases (f.offset i) it.restartIndex
  · -- Only the first entry has no restart point before it.
    rw [h.restartPoint_zero, ← Nat.not_lt, offset_lt_iff f (Nat.zero_le _) hi.le] at hfirst
    rw [hnone, before, if_neg hfirst]
    exact h.noMoreEntries
  · rw [hsome]
    obtain ⟨m, hready, hpoint, -⟩ := h.exists_ready (lt_of_le_of_lt hindex h.restartIndex)
    rw [hpoint, offset_lt_iff f hready.le hi.le] at hlt
    have hq : ∀ {it : BlockIter} {j : ℕ}, At f cmp it j →
        decide (it.nextEntryOffset < f.offset i) = decide (j + 1 < i) := by
      intro it j hat
      rw [hat.ready.next]
      exact decide_eq_decide.mpr (offset_lt_iff f hat.ready.le hi.le)
    obtain ⟨k, hmk, hk, hbefore, hstop, hstands⟩ := hready.parseWhile hq (h.fuel m)
    have hlast := hbefore (k - 1)
    simp only [decide_eq_true_eq, decide_eq_false_iff_not] at hlast hstop
    have hpos : clip f.entries k = before i := by
      rw [clip_of_lt (by omega), before, if_pos (by omega)]
      congr 1
      omega
    exact hpos ▸ hstands

/-- A restart point from which `Seek` may go forward: all entries before it are below the target. -/
def SeekFrom (f : FinishedBlock) (cmp : Comparator) (it : BlockIter) (target : Slice) (index : ℕ) : Prop :=
  index < f.builder.restarts.length ∧ (index = 0 ∨ ∃ i p, it.getRestartPoint index = f.offset i ∧
    f.shared i = 0 ∧ f.entries[i]? = some p ∧ cmp.Lt p.1 target)

/-- The binary search of `Seek` meets no corrupted entry. -/
theorem Over.searchRestart (h : Over f cmp it) (target : Slice) : ∀ {fuel left right : ℕ},
    right < f.builder.restarts.length → SeekFrom f cmp it target left →
    ∃ index, it.searchRestart target fuel left right = some index ∧ SeekFrom f cmp it target index
  | 0, left, _, _, hleft => ⟨left, rfl, hleft⟩
  | fuel + 1, left, right, hright, hleft => by
    unfold BlockIter.searchRestart
    split_ifs with hlt
    · have hlength := f.length_lt
      rw [f.builder.length_finish, BlockBuilder.currentSizeEstimate] at hlength
      dsimp only
      -- There are fewer than `2^30` restart points.
      obtain ⟨mid, hmid, hleftmid, hmidright⟩ :
          ∃ mid, (left + right + 1) % 2^32 / 2 = mid ∧ left < mid ∧ mid ≤ right :=
        ⟨_, rfl, by omega, by omega⟩
      obtain ⟨i, hi, hpoint, hshared⟩ := h.restartPoint (lt_of_le_of_lt hmidright hright)
        (Nat.zero_lt_of_lt hleftmid)
      obtain ⟨p, hp⟩ : ∃ p, f.entries[i]? = some p := ⟨_, List.getElem?_eq_getElem hi⟩
      obtain ⟨rest, hdecode, hrest, -⟩ := f.image.decodeEntry_drop f.buffer_lt hp
      obtain ⟨back, hback⟩ := h.drop_data (Nat.sub_le f.builder.buffer.length rest.length)
      have hkey : (it.data.drop (it.restarts - rest.length)).take (p.1.length - f.shared i) = p.1 := by
        rw [h.restarts, hback, hrest, hshared, List.drop_zero, Nat.sub_zero, List.append_assoc,
          List.take_left]
      rw [hmid, hpoint, h.entriesFrom, hdecode]
      dsimp only
      rw [if_neg (not_not.mpr hshared), hkey, h.comparator]
      split_ifs with hbelow
      · exact h.searchRestart target hright
          ⟨lt_of_le_of_lt hmidright hright, Or.inr ⟨i, p, hpoint, hshared, hp, hbelow⟩⟩
      · exact h.searchRestart target (by omega) hleft
    · exact ⟨left, rfl, hleft⟩

/-- In entries whose keys increase, `Seek` leads to the first one that is not before the target, or to
none. -/
theorem Over.seek (h : Over f cmp it) (hcmp : cmp.TotalPreorder)
    (hsorted : f.entries.Pairwise fun p q => cmp.Lt p.1 q.1) (target : Slice) :
    Stands f cmp (it.seek target)
      (clip f.entries (seekPos (fun a b => decide (cmp.Lt a b)) f.entries target)) := by
  unfold BlockIter.seek
  have hright : f.builder.restarts.length - 1 < f.builder.restarts.length :=
    Nat.sub_lt f.restarts_pos Nat.one_pos
  obtain ⟨index, hsearch, hindex, hfrom⟩ := @Over.searchRestart f cmp it h target it.numRestarts 0 _
    hright ⟨f.restarts_pos, Or.inl rfl⟩
  rw [h.numRestarts] at hsearch ⊢
  rw [hsearch]
  dsimp only
  -- All entries before the restart point are below the target.
  obtain ⟨i, hready, hbelow⟩ : ∃ i, Ready f cmp (it.seekToRestartPoint index) i ∧
      ∀ {j : ℕ} {p : Slice × Slice}, j < i → f.entries[j]? = some p → cmp.Lt p.1 target := by
    obtain rfl | ⟨i, p, hpoint, hshared, hp, hlt⟩ := hfrom
    · refine ⟨0, h.seekToRestartPoint hindex (Nat.zero_le _) h.restartPoint_zero f.image.shared_zero, ?_⟩
      intro j p hj
      exact absurd hj (Nat.not_lt_zero j)
    · obtain ⟨hi, rfl⟩ := List.getElem?_eq_some_iff.mp hp
      refine ⟨i, h.seekToRestartPoint hindex hi.le hpoint hshared, ?_⟩
      intro j p' hj hp'
      obtain ⟨hj', rfl⟩ := List.getElem?_eq_some_iff.mp hp'
      exact hcmp.lt_trans (List.pairwise_iff_getElem.mp hsorted j i hj' hi hj) hlt
  have hq : ∀ {it : BlockIter} {j : ℕ}, At f cmp it j → decide (it.comparator.Lt it.key target) =
      f.entries[j]?.any fun p => decide (cmp.Lt p.1 target) := by
    intro it j hat
    rw [hat.entry, hat.comparator]
    rfl
  obtain ⟨k, hik, hk, hbefore, hstop, hstands⟩ := hready.parseWhile hq (h.fuel i)
  have hpos : seekPos (fun a b => decide (cmp.Lt a b)) f.entries target = k := by
    apply seekPos_eq hk
    · intro j p hj hp
      obtain hlt | hge := Nat.lt_or_ge j i
      · exact decide_eq_true (hbelow hlt hp)
      · have htrue := hbefore j hge hj
        rw [hp] at htrue
        exact htrue
    · intro p hp
      have hfalse := hstop (List.getElem?_eq_some_iff.mp hp).1
      rw [hp] at hfalse
      exact hfalse
  exact hpos ▸ hstands

/-- The iterator of a block moves as a cursor over its entries. -/
theorem follows (hcmp : cmp.TotalPreorder) (hsorted : f.entries.Pairwise fun p q => cmp.Lt p.1 q.1) :
    Follows (fun a b => decide (cmp.Lt a b)) f.entries (Stands f cmp) where
  valid {it pos} h := by
    cases pos with
    | none => exact decide_eq_false (by rw [h.over.restarts, h.2]; exact lt_irrefl _)
    | some i =>
      apply decide_eq_true
      rw [h.over.restarts, h.current, ← f.image.offset_length]
      exact f.image.offset_lt (List.getElem?_eq_some_iff.mp h.entry).1 le_rfl
  entry h := h.entry
  status h := h.over.status
  seekToFirst h := h.over.seekToFirst
  seekToLast h := h.over.seekToLast
  seek target h := h.over.seek hcmp hsorted target
  next h := h.ready.parseNextKey
  prev h := h.prev

end BlockIter

/-- The states of an iterator over a finished block. -/
def FinishedBlock.Stands (f : FinishedBlock) (cmp : Comparator) (it : BlockIterator) (pos : Option ℕ) :
    Prop :=
  ∃ it', it = .inr it' ∧ BlockIter.Stands f cmp it' pos

/-- They move as a cursor over the entries. -/
theorem FinishedBlock.follows (f : FinishedBlock) {cmp : Comparator} (hcmp : cmp.TotalPreorder)
    (hsorted : f.entries.Pairwise fun p q => cmp.Lt p.1 q.1) :
    Follows (fun a b => decide (cmp.Lt a b)) f.entries (f.Stands cmp) :=
  (BlockIter.follows hcmp hsorted).inr

/-- A new iterator is one of them. -/
theorem FinishedBlock.stands_newIterator (f : FinishedBlock) (cmp : Comparator) :
    f.Stands cmp ((Block.new f.builder.finish).newIterator cmp) none := by
  rw [BlockBuilder.newIterator_finish (List.length_pos_iff.mp f.restarts_pos) f.length_lt]
  exact ⟨_, rfl, ⟨rfl, rfl, rfl, rfl, rfl⟩, rfl⟩

/-- There are fewer entries than the bound of the iterator. -/
theorem FinishedBlock.Stands.length_le {f : FinishedBlock} {cmp : Comparator} {it : BlockIterator}
    {pos : Option ℕ} (h : f.Stands cmp it pos) : f.entries.length ≤ Bounded.bound it := by
  obtain ⟨it', rfl, hstands⟩ := h
  exact Nat.le_of_lt (hstands.over.fuel 0)

/-- A new iterator over a finished block is a cursor over its entries. -/
theorem FinishedBlock.isBoundedCursor (f : FinishedBlock) {cmp : Comparator} (hcmp : cmp.TotalPreorder)
    (hsorted : f.entries.Pairwise fun p q => cmp.Lt p.1 q.1) :
    IsBoundedCursor (fun a b => decide (cmp.Lt a b)) f.entries
      ((Block.new f.builder.finish).newIterator cmp) :=
  ⟨f.Stands cmp, f.follows hcmp hsorted, Stands.length_le, f.stands_newIterator cmp⟩

/-- A block with a list of entries is read back: its iterator is a cursor over the list, without an error.
A builder that was reset writes the same block. -/
theorem block_round_trip {cmp : Comparator} (hcmp : cmp.TotalPreorder) (interval : ℕ)
    {l : List (Slice × Slice)} (hsorted : l.Pairwise fun p q => cmp.Lt p.1 q.1)
    (hlength : (BlockBuilder.ofList interval l).finish.length < 2^32) :
    (∀ cs : List (Call Slice),
      (calls ((Block.new (BlockBuilder.ofList interval l).finish).newIterator cmp) cs).map observe =
        (cursorCalls (fun a b => decide (cmp.Lt a b)) l none cs).map (cursorObserve l)) ∧
    ∀ b : BlockBuilder, (l.foldl (fun b p => b.add interval p.1 p.2) b.reset).finish =
      (BlockBuilder.ofList interval l).finish := by
  constructor
  · intro cs
    obtain ⟨f, hf, rfl⟩ := (BlockBuilder.holds_ofList interval l).exists_finishedBlock hlength
    obtain ⟨R, hfollows, -, hnew⟩ := f.isBoundedCursor hcmp hsorted
    rw [← hf]
    exact hfollows.calls cs hnew
  · intro b
    rfl

/-- Three entries with a restart point at the third. -/
theorem block_round_trip_example :
    let l : List (Slice × Slice) := [([97], [1]), ([97, 98], [2]), ([99], [])]
    (∀ cs : List (Call Slice),
      (calls ((Block.new (BlockBuilder.ofList 2 l).finish).newIterator bytewiseComparator) cs).map observe =
        (cursorCalls (fun a b => decide (bytewiseComparator.Lt a b)) l none cs).map (cursorObserve l)) ∧
    ∀ b : BlockBuilder, (l.foldl (fun b p => b.add 2 p.1 p.2) b.reset).finish =
      (BlockBuilder.ofList 2 l).finish :=
  block_round_trip bytewiseComparator_totalOrder.toTotalPreorder 2 (by decide) (by decide)

/-! ## Blocks that are too long -/

/-- The iterator over entries of `2^32` bytes and more takes the offset of their end modulo `2^32` for their
end. -/
theorem newIterator_wraps {entries : Slice} {n : ℕ} (hlength : entries.length = 2^32 + n) (hn : n < 2^31)
    (cmp : Comparator) :
    (Block.new (entries ++ (encodeFixed32 0 ++ encodeFixed32 1))).newIterator cmp = .inr
      { comparator := cmp
        data := entries ++ (encodeFixed32 0 ++ encodeFixed32 1)
        restarts := n
        numRestarts := 1
        current := n
        restartIndex := 1 } := by
  have hsize : (entries ++ (encodeFixed32 0 ++ encodeFixed32 1)).length = 2^32 + n + 8 := by
    rw [List.length_append, List.length_append, encodeFixed32_length, encodeFixed32_length, hlength]
  have hnum : decodeFixed32 ((entries ++ (encodeFixed32 0 ++ encodeFixed32 1)).drop
      (2^32 + n + 8 - 4)) = 1 := by
    have hfront : (entries ++ encodeFixed32 0).length = 2^32 + n + 8 - 4 := by
      rw [List.length_append, encodeFixed32_length, hlength]
      omega
    rw [← List.append_assoc, ← hfront, List.drop_left]
    rfl
  generalize entries ++ (encodeFixed32 0 ++ encodeFixed32 1) = data at hsize hnum ⊢
  have hoffset : (2^32 + n + 8 + 2^64 - (1 + 1) % 2^32 * 4) % 2^32 = n := by omega
  have hnew : Block.new data = { data := data, size := 2^32 + n + 8, restartOffset := n } := by
    unfold Block.new Block.numRestarts
    dsimp only
    rw [hsize, hnum, hoffset, if_neg (by omega), if_neg (by omega)]
  rw [hnew]
  unfold Block.newIterator Block.numRestarts
  dsimp only
  rw [hnum, if_neg (by omega), if_neg (by decide)]

/-- A block of one entry whose value has `2^32 - 2` bytes. Its length takes five bytes. -/
theorem finish_long {value : Slice} (hlength : value.length = 2^32 - 2) :
    (BlockBuilder.ofList 16 [([], value)]).finish =
      ([0, 0, 254, 255, 255, 255, 15] ++ value) ++ (encodeFixed32 0 ++ encodeFixed32 1) := by
  have hentry : blockEntry 0 [] value = [0, 0, 254, 255, 255, 255, 15] ++ value := by
    unfold blockEntry
    rw [hlength]
    rfl
  have hbuffer : (BlockBuilder.ofList 16 [([], value)]).buffer =
      [0, 0, 254, 255, 255, 255, 15] ++ value := hentry
  have hrestarts : (BlockBuilder.ofList 16 [([], value)]).restarts = [0] := rfl
  unfold BlockBuilder.finish
  rw [hbuffer, hrestarts, List.append_assoc]
  rfl

/-- It shows no entry: bytes of the entry are taken for the first restart point, which is behind that end. -/
theorem observe_long {rest : Slice} (hlength : (0 :: 0 :: rest : Slice).length = 2^32 - 2) (cmp : Comparator) :
    observe (Iterator.seekToFirst
      ((Block.new (BlockBuilder.ofList 16 [([], 0 :: 0 :: rest)]).finish).newIterator cmp)) =
        (none, none) := by
  have hentries : ([0, 0, 254, 255, 255, 255, 15] ++ (0 :: 0 :: rest) : Slice).length = 2^32 + 5 := by
    rw [List.length_append, hlength]
    simp only [List.length_cons, List.length_nil]
    omega
  rw [finish_long hlength, newIterator_wraps hentries (by decide)]
  rfl

/-- An iterator over a block with one value of `2^32 - 2` bytes is no cursor over its entry. -/
theorem not_cursor_long {rest : Slice} (hlength : (0 :: 0 :: rest : Slice).length = 2^32 - 2)
    (cmp : Comparator) :
    ¬∀ cs : List (Call Slice),
      (calls ((Block.new (BlockBuilder.ofList 16 [([], 0 :: 0 :: rest)]).finish).newIterator cmp) cs).map
          observe =
        (cursorCalls (fun a b => decide (cmp.Lt a b)) [([], 0 :: 0 :: rest)] none cs).map
          (cursorObserve [([], 0 :: 0 :: rest)]) := by
  intro hclaim
  have hfirst := congrArg (Option.map Prod.fst) (hclaim [.seekToFirst])
  change some (observe (Iterator.seekToFirst _)).1 = some (some ([], 0 :: 0 :: rest)) at hfirst
  rw [observe_long hlength] at hfirst
  cases hfirst

/-- One pair of less than `2^32` bytes is not read back from its block, which has more. -/
theorem long_block_not_read_back :
    let l : List (Slice × Slice) := [([], List.replicate (2^32 - 2) 0)]
    (l.map fun p => p.1.length + p.2.length).sum < 2^32 ∧
      (l.Pairwise fun p q => bytewiseComparator.Lt p.1 q.1) ∧
      ¬∀ cs : List (Call Slice),
        (calls ((Block.new (BlockBuilder.ofList 16 l).finish).newIterator bytewiseComparator) cs).map
            observe =
          (cursorCalls (fun a b => decide (bytewiseComparator.Lt a b)) l none cs).map (cursorObserve l) := by
  have hvalue : List.replicate (2^32 - 2) (0 : UInt8) = 0 :: 0 :: List.replicate (2^32 - 4) 0 := by
    have hsplit : 2^32 - 2 = 2 + (2^32 - 4) := by norm_num
    rw [hsplit, List.replicate_add]
    rfl
  have hlength : (0 :: 0 :: List.replicate (2^32 - 4) (0 : UInt8)).length = 2^32 - 2 := by
    rw [← hvalue, List.length_replicate]
  have hsum : ∀ value : Slice,
      ([(([] : Slice), value)].map fun p => p.1.length + p.2.length).sum = value.length := by
    intro value
    rw [List.map_singleton, List.sum_singleton, List.length_nil, Nat.zero_add]
  refine ⟨?_, List.pairwise_singleton _ _, ?_⟩
  · exact Nat.lt_of_le_of_lt (Nat.le_of_eq ((hsum _).trans List.length_replicate))
      (Nat.sub_lt (Nat.two_pow_pos 32) Nat.two_pos)
  · have hnot := not_cursor_long hlength bytewiseComparator
    rwa [← hvalue] at hnot

end LevelDb
