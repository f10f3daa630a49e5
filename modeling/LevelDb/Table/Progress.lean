import LevelDb.Lib.Loop
import LevelDb.Table.BlockBounds
import LevelDb.Table.BlockCursor

/-!
# The iterator of a block makes progress

`Block::Iter` over arbitrary bytes, as long as the restart array is inside of the block and the lengths of
its entries do not wrap around: restart points may be anything, and so may entries. The loops of its
operations are stated without a bound on their rounds here, and end with what the functions of
`Table/Block.lean` return. The binary search of `Seek` adds two indices of 32 bits, which wraps around if
there are more than `2^31` restart points.
-/

namespace LevelDb

open Lib

namespace BlockIter

/-! ## Loops -/

/-- A round of a loop that calls `ParseNextKey`. -/
def parseRound (cond : BlockIter → Bool) (it : BlockIter) : BlockIter ⊕ BlockIter :=
  let r := it.parseNextKey
  if r.1 && cond r.2 then .inl r.2 else .inr r.2

/-- A round of the loop of `ParseNextKey`, which moves `restart_index_` on. -/
def advanceRound (it : BlockIter) (current index : ℕ) : ℕ ⊕ ℕ :=
  if index + 1 < it.numRestarts ∧ it.getRestartPoint (index + 1) < current then .inl (index + 1)
  else .inr index

/-- A round of the first loop of `Prev`, which moves `restart_index_` back. -/
def prevRound (it : BlockIter) (original index : ℕ) : ℕ ⊕ Option ℕ :=
  if original ≤ it.getRestartPoint index then
    if index = 0 then .inr none else .inl (index - 1)
  else .inr (some index)

/-- A round of the binary search of `Seek`, which ends with nothing at a corrupted entry. -/
def searchRound (it : BlockIter) (target : Slice) (range : ℕ × ℕ) : (ℕ × ℕ) ⊕ Option ℕ :=
  if range.1 < range.2 then
    let mid := (range.1 + range.2 + 1) % 2^32 / 2
    match decodeEntry (it.entriesFrom (it.getRestartPoint mid)) with
    | none => .inr none
    | some (shared, nonShared, _, rest) =>
      if shared ≠ 0 then .inr none
      else
        let midKey := (it.data.drop (it.restarts - rest.length)).take nonShared
        if it.comparator.Lt midKey target then .inl (mid, range.2)
        else .inl (range.1, (mid + (2^32 - 1)) % 2^32)
  else .inr (some range.1)

/-- The loop of `ParseNextKey` over restart points ends, since it stays below their number. -/
theorem advance_ends (it : BlockIter) (current : ℕ) : ∀ {fuel index : ℕ},
    it.numRestarts ≤ index + 1 + fuel →
    EndsWith (it.advanceRound current) index (it.advanceRestart current fuel index)
  | 0, index, hfuel => EndsWith.done (if_neg (by omega))
  | fuel + 1, index, hfuel => by
    unfold advanceRestart
    split_ifs with hnext
    · exact EndsWith.more (if_pos hnext) (it.advance_ends current (by omega))
    · exact EndsWith.done (if_neg hnext)

/-- The first loop of `Prev` ends. -/
theorem prev_ends (it : BlockIter) (original : ℕ) : ∀ index : ℕ,
    EndsWith (it.prevRound original) index (it.restartBefore original index)
  | 0 => by
    unfold restartBefore
    apply EndsWith.done
    unfold prevRound
    rw [if_pos rfl]
    split_ifs <;> rfl
  | index + 1 => by
    unfold restartBefore
    split_ifs with hle
    · refine EndsWith.more ?_ (it.prev_ends original index)
      unfold prevRound
      rw [if_pos hle, if_neg (Nat.succ_ne_zero index)]
      rfl
    · exact EndsWith.done (if_neg hle)

/-- The binary search ends, if the sum of two indices does not wrap around. -/
theorem search_ends (it : BlockIter) (target : Slice) : ∀ {fuel left right : ℕ},
    right - left ≤ fuel → right < 2^31 →
    EndsWith (it.searchRound target) (left, right) (it.searchRestart target fuel left right)
  | 0, left, right, hfuel, _ => EndsWith.done (if_neg (by dsimp only; omega))
  | fuel + 1, left, right, hfuel, hright => by
    unfold searchRestart
    by_cases hlt : left < right
    · have hround : it.searchRound target (left, right) = _ := if_pos hlt
      rw [if_pos hlt]
      dsimp only at hround ⊢
      generalize hmid : (left + right + 1) % 2^32 / 2 = mid at hround ⊢
      cases hentry : decodeEntry (it.entriesFrom (it.getRestartPoint mid)) with
      | none =>
        rw [hentry] at hround
        exact EndsWith.done hround
      | some entry =>
        obtain ⟨shared, nonShared, valueLength, rest⟩ := entry
        rw [hentry] at hround
        dsimp only at hround ⊢
        split_ifs at hround ⊢ with hshared hbelow
        · exact EndsWith.done hround
        · exact EndsWith.more hround (it.search_ends target (by omega) hright)
        · exact EndsWith.more hround (it.search_ends target (by omega) (by omega))
    · rw [if_neg hlt]
      exact EndsWith.done (if_neg hlt)

/-! ## States -/

/-- Where entries start: at restart points and where other entries end. -/
inductive EntryOffset (it : BlockIter) : ℕ → Prop
  /-- At a restart point. -/
  | restart {index : ℕ} (hindex : index < it.numRestarts) : EntryOffset it (it.getRestartPoint index)
  /-- Behind an entry. -/
  | next {offset shared nonShared valueLength : ℕ} {rest : Slice} (hoffset : EntryOffset it offset)
      (hentry : decodeEntry (it.entriesFrom offset) = some (shared, nonShared, valueLength, rest)) :
      EntryOffset it (it.restarts - rest.length + nonShared + valueLength)

/-- A block whose restart array is inside of it and whose entries are. -/
structure InBounds (it : BlockIter) : Prop where
  /-- There is a restart point. -/
  numRestarts_pos : 0 < it.numRestarts
  /-- Offsets are 32-bit words. -/
  restarts_lt : it.restarts < 2^32
  /-- The restart array is inside of the block. -/
  restarts_le : it.restarts ≤ it.data.length
  /-- The lengths of entries do not wrap around. -/
  inside : ∀ {offset : ℕ}, it.EntryOffset offset → it.EntryInside offset

/-- Two states of an iterator over the same block. -/
structure SameBlock (it it' : BlockIter) : Prop where
  /-- The order of the keys. -/
  comparator : it'.comparator = it.comparator
  /-- The bytes. -/
  data : it'.data = it.data
  /-- The offset of the restart array. -/
  restarts : it'.restarts = it.restarts
  /-- The number of restart points. -/
  numRestarts : it'.numRestarts = it.numRestarts

variable {it0 it : BlockIter}

/-- The restart points are the same. -/
theorem SameBlock.getRestartPoint (h : SameBlock it0 it) (index : ℕ) :
    it.getRestartPoint index = it0.getRestartPoint index := by
  unfold BlockIter.getRestartPoint
  rw [h.data, h.restarts]

/-- The bytes of the entries are the same. -/
theorem SameBlock.entriesFrom (h : SameBlock it0 it) (offset : ℕ) :
    it.entriesFrom offset = it0.entriesFrom offset := by
  unfold BlockIter.entriesFrom
  rw [h.data, h.restarts]

/-- An entry is next, or what is behind the entries. -/
structure BeforeEntry (it0 it : BlockIter) : Prop extends SameBlock it0 it where
  /-- It is where an entry starts. -/
  offset : it0.EntryOffset it.nextEntryOffset
  /-- There is a restart point. -/
  restartIndex : it.restartIndex < it0.numRestarts

/-- A state between calls. If it is valid, it is at an entry. -/
structure Steady (it0 it : BlockIter) : Prop extends SameBlock it0 it where
  /-- A valid state is at an entry that ends behind its offset. -/
  entry : it.current < it0.restarts → BeforeEntry it0 it ∧ it.current < it.nextEntryOffset

/-- `ParseNextKey` cannot read the next entry. -/
def BadEntry (it : BlockIter) : Prop :=
  it.nextEntryOffset < it.restarts ∧
    ((decodeEntry (it.entriesFrom it.nextEntryOffset)).all fun entry => decide (it.key.length < entry.1)) =
      true

/-- Behind the entries the iterator is not valid. -/
theorem SameBlock.not_lt_restarts (h : SameBlock it0 it) : ¬it.restarts < it0.restarts := by
  rw [h.restarts]
  exact lt_irrefl _

/-- After a bad entry the iterator is behind the entries with an error, and is steady there. -/
theorem SameBlock.corruptionError (h : SameBlock it0 it) : Steady it0 it.corruptionError :=
  ⟨⟨h.comparator, h.data, h.restarts, h.numRestarts⟩, fun hlt => absurd hlt h.not_lt_restarts⟩

/-- An iterator that is put behind the entries of its block is steady there. -/
theorem SameBlock.noMoreEntries (h : SameBlock it0 it) : Steady it0 it.noMoreEntries :=
  ⟨⟨h.comparator, h.data, h.restarts, h.numRestarts⟩, fun hlt => absurd hlt h.not_lt_restarts⟩

/-- After `SeekToRestartPoint` of an index in range the iterator is before an entry of its block, at
the restart point. -/
theorem SameBlock.seekToRestartPoint (h : SameBlock it0 it) {index : ℕ} (hindex : index < it0.numRestarts) :
    BeforeEntry it0 (it.seekToRestartPoint index) ∧
      (it.seekToRestartPoint index).nextEntryOffset = it0.getRestartPoint index := by
  have hnext : (it.seekToRestartPoint index).nextEntryOffset = it0.getRestartPoint index := by
    unfold nextEntryOffset BlockIter.seekToRestartPoint
    dsimp only
    rw [Nat.add_zero, h.getRestartPoint, Nat.mod_eq_of_lt]
    exact decodeFixed32_lt _
  refine ⟨⟨⟨h.comparator, h.data, h.restarts, h.numRestarts⟩, ?_, hindex⟩, hnext⟩
  rw [hnext]
  exact EntryOffset.restart hindex

/-- What `ParseNextKey` does: it is at the end, or at a bad entry, or reads an entry that ends behind its
offset. -/
theorem BeforeEntry.parseNextKey (h : BeforeEntry it0 it) (hbounds : InBounds it0) :
    (it0.restarts ≤ it.nextEntryOffset ∧ ¬it.BadEntry ∧ it.parseNextKey = (false, it.noMoreEntries)) ∨
      (it.BadEntry ∧ it.parseNextKey = (false, it.corruptionError)) ∨
      (¬it.BadEntry ∧ it.parseNextKey.1 = true ∧ BeforeEntry it0 it.parseNextKey.2 ∧
        it.parseNextKey.2.current = it.nextEntryOffset ∧ it.nextEntryOffset < it0.restarts ∧
        it.nextEntryOffset < it.parseNextKey.2.nextEntryOffset) := by
  unfold BlockIter.parseNextKey BadEntry
  dsimp only
  rw [h.restarts]
  by_cases hend : it0.restarts ≤ it.nextEntryOffset
  · left
    rw [if_pos hend]
    exact ⟨hend, fun hbad => absurd hbad.1 (Nat.not_lt.mpr hend), rfl⟩
  · right
    rw [if_neg hend]
    have hlt := Nat.lt_of_not_le hend
    cases hentry : decodeEntry (it.entriesFrom it.nextEntryOffset) with
    | none => exact Or.inl ⟨⟨hlt, rfl⟩, rfl⟩
    | some entry =>
      obtain ⟨shared, nonShared, valueLength, rest⟩ := entry
      dsimp only
      by_cases hshared : it.key.length < shared
      · rw [if_pos hshared]
        exact Or.inl ⟨⟨hlt, decide_eq_true hshared⟩, rfl⟩
      · rw [if_neg hshared]
        right
        -- The entry takes at least three bytes, and ends before the restart array.
        have hinside := hbounds.inside h.offset (h.entriesFrom _ ▸ hentry)
        obtain ⟨-, hlengths, -⟩ := decodeLengths_of_decodeEntry hentry
        obtain ⟨-, -, hrest⟩ := decodeLengths_bounds hlengths
        have hlength : (it.entriesFrom it.nextEntryOffset).length = it0.restarts - it.nextEntryOffset := by
          unfold BlockIter.entriesFrom
          rw [List.length_drop, List.length_take, h.restarts, h.data, Nat.min_eq_left hbounds.restarts_le]
        have hrestarts := hbounds.restarts_lt
        have hnext : (it0.restarts - rest.length + nonShared + valueLength) % 2^32 =
            it0.restarts - rest.length + nonShared + valueLength := Nat.mod_eq_of_lt (by omega)
        refine ⟨fun hbad => hshared (of_decide_eq_true hbad.2), rfl, ⟨⟨h.comparator, h.data, rfl,
          h.numRestarts⟩, ?_, ?_⟩, rfl, hlt, ?_⟩
        · change it0.EntryOffset ((it0.restarts - rest.length + nonShared + valueLength) % 2^32)
          rw [hnext]
          exact EntryOffset.next h.offset (h.entriesFrom _ ▸ hentry)
        · have hindex : it.restartIndex < it.numRestarts := h.numRestarts ▸ h.restartIndex
          exact h.numRestarts ▸ it.advanceRestart_lt _ hindex
        · change it.nextEntryOffset < (it0.restarts - rest.length + nonShared + valueLength) % 2^32
          rw [hnext]
          omega

/-- After `ParseNextKey` the iterator is at the entry that was next, or not valid. -/
theorem BeforeEntry.steady (h : BeforeEntry it0 it) (hbounds : InBounds it0) :
    Steady it0 it.parseNextKey.2 ∧
      (it.parseNextKey.2.current < it0.restarts → it.parseNextKey.2.current = it.nextEntryOffset) := by
  obtain ⟨-, -, heq⟩ | ⟨-, heq⟩ | ⟨-, -, hbefore, hcurrent, -, hlt⟩ := h.parseNextKey hbounds
  · rw [heq]
    exact ⟨h.noMoreEntries, fun hlt => absurd hlt h.not_lt_restarts⟩
  · rw [heq]
    exact ⟨h.corruptionError, fun hlt => absurd hlt h.not_lt_restarts⟩
  · exact ⟨⟨hbefore.toSameBlock, fun _ => ⟨hbefore, hcurrent ▸ hlt⟩⟩, fun _ => hcurrent⟩

/-- A round of a loop of `ParseNextKey` that goes on. -/
theorem parseRound_eq_inl {cond : BlockIter → Bool} {x y : BlockIter} (h : parseRound cond x = .inl y) :
    x.parseNextKey.1 = true ∧ cond x.parseNextKey.2 = true ∧ y = x.parseNextKey.2 := by
  unfold parseRound at h
  dsimp only at h
  split_ifs at h with hcond
  obtain ⟨htrue, hcond⟩ := Bool.and_eq_true_iff.mp hcond
  exact ⟨htrue, hcond, (Sum.inl.inj h).symm⟩

/-- A loop that stops after a round leaves the iterator that `ParseNextKey` has left. -/
theorem parseRound_eq_inr {cond : BlockIter → Bool} {x r : BlockIter} (h : parseRound cond x = .inr r) :
    r = x.parseNextKey.2 := by
  unfold parseRound at h
  dsimp only at h
  split_ifs at h
  exact (Sum.inr.inj h).symm

/-- A round that goes on is followed by an entry. -/
theorem BeforeEntry.parseRound (hbounds : InBounds it0) {cond : BlockIter → Bool} {x y : BlockIter}
    (h : BeforeEntry it0 x) (hround : BlockIter.parseRound cond x = .inl y) :
    BeforeEntry it0 y ∧ x.nextEntryOffset < it0.restarts ∧ x.nextEntryOffset < y.nextEntryOffset := by
  obtain ⟨htrue, -, rfl⟩ := parseRound_eq_inl hround
  obtain ⟨-, -, heq⟩ | ⟨-, heq⟩ | ⟨-, -, hbefore, -, hrestarts, hlt⟩ := h.parseNextKey hbounds
  · rw [heq] at htrue
    exact absurd htrue Bool.false_ne_true
  · rw [heq] at htrue
    exact absurd htrue Bool.false_ne_true
  · exact ⟨hbefore, hrestarts, hlt⟩

/-- A loop of `ParseNextKey` ends, because every entry takes some bytes. -/
theorem BeforeEntry.parse_ends (hbounds : InBounds it0) (cond : BlockIter → Bool) :
    ∀ {fuel : ℕ} {it : BlockIter}, it0.restarts - it.nextEntryOffset < fuel → BeforeEntry it0 it →
    EndsWith (BlockIter.parseRound cond) it (parseWhile cond fuel it)
  | 0, _, hfuel, _ => absurd hfuel (Nat.not_lt_zero _)
  | fuel + 1, it, hfuel, h => by
    unfold parseWhile
    dsimp only
    by_cases hcond : (it.parseNextKey.1 && cond it.parseNextKey.2) = true
    · rw [if_pos hcond]
      have hround : BlockIter.parseRound cond it = .inl it.parseNextKey.2 := if_pos hcond
      obtain ⟨hbefore, hrestarts, hlt⟩ := h.parseRound hbounds hround
      exact EndsWith.more hround (BeforeEntry.parse_ends hbounds cond (by omega) hbefore)
    · rw [if_neg hcond]
      exact EndsWith.done (if_neg hcond)

/-- The states that a loop of `ParseNextKey` meets. -/
theorem BeforeEntry.meets (hbounds : InBounds it0) {cond : BlockIter → Bool} {x : BlockIter}
    (h : BeforeEntry it0 it) (hx : Meets (BlockIter.parseRound cond) it x) : BeforeEntry it0 x :=
  hx.invariant (fun hx hround => (BeforeEntry.parseRound hbounds hx hround).1) h

/-- A loop of `ParseNextKey` ends at an entry, or behind the entries of the block. -/
theorem BeforeEntry.parse_result (hbounds : InBounds it0) {cond : BlockIter → Bool} {r : BlockIter}
    (h : BeforeEntry it0 it) (hend : EndsWith (BlockIter.parseRound cond) it r) :
    ∃ x, Meets (BlockIter.parseRound cond) it x ∧ Steady it0 r ∧
      (r.current < it0.restarts → r.current = x.nextEntryOffset) := by
  obtain ⟨x, hx, hround⟩ := hend.exists_meets
  obtain rfl := parseRound_eq_inr hround
  exact ⟨x, hx, (h.meets hbounds hx).steady hbounds⟩

/-- A loop that meets a bad entry ends there. -/
theorem BeforeEntry.parse_bad (hbounds : InBounds it0) {cond : BlockIter → Bool} {x r : BlockIter}
    (h : BeforeEntry it0 it) (hend : EndsWith (BlockIter.parseRound cond) it r)
    (hx : Meets (BlockIter.parseRound cond) it x) (hbad : x.BadEntry) : r = x.corruptionError := by
  obtain ⟨-, hnot, -⟩ | ⟨-, heq⟩ | ⟨hnot, -⟩ := (h.meets hbounds hx).parseNextKey hbounds
  · exact absurd hbad hnot
  · apply (hend.of_meets hx).eq_of_round
    unfold BlockIter.parseRound
    dsimp only
    rw [heq]
    rfl
  · exact absurd hbad hnot

/-! ## Calls -/

/-- The condition under which `SeekToLast` reads on. -/
def notLast (it : BlockIter) : Bool := decide (it.nextEntryOffset < it.restarts)

/-- The condition under which `Prev` reads on. -/
def endsBefore (original : ℕ) (it : BlockIter) : Bool := decide (it.nextEntryOffset < original)

/-- The condition under which `Seek` reads on. -/
def keyBelow (target : Slice) (it : BlockIter) : Bool := decide (it.comparator.Lt it.key target)

/-- The loop of `ParseNextKey` ends. -/
def ParseEnds (it : BlockIter) : Prop :=
  EndsWith (it.advanceRound it.nextEntryOffset) it.restartIndex
    (it.advanceRestart it.nextEntryOffset it.numRestarts it.restartIndex)

/-- A loop of `ParseNextKey` ends with a result, and so does every call in it. -/
def ReadsUntil (cond : BlockIter → Bool) (it r : BlockIter) : Prop :=
  EndsWith (parseRound cond) it r ∧ ∀ x, Meets (parseRound cond) it x → x.ParseEnds

/-- A call ends, with its result: all its loops do. -/
def CallEnds (it : BlockIter) : Call Slice → Prop
  | .seekToFirst => (it.seekToRestartPoint 0).ParseEnds
  | .next => it.ParseEnds
  | .seekToLast => ReadsUntil notLast (it.seekToRestartPoint (it.numRestarts - 1)) it.seekToLast
  | .seek target => ∃ found, EndsWith (it.searchRound target) (0, it.numRestarts - 1) found ∧
      match found with
      | none => it.seek target = it.corruptionError
      | some left => ReadsUntil (keyBelow target) (it.seekToRestartPoint left) (it.seek target)
  | .prev => ∃ found, EndsWith (it.prevRound it.current) it.restartIndex found ∧
      match found with
      | none => it.prev = it.noMoreEntries
      | some index => ReadsUntil (endsBefore it.current) (it.seekToRestartPoint index) it.prev

/-- A call calls `ParseNextKey` in a state. -/
def Reads (it : BlockIter) : Call Slice → BlockIter → Prop
  | .seekToFirst, x => x = it.seekToRestartPoint 0
  | .next, x => x = it
  | .seekToLast, x => Meets (parseRound notLast) (it.seekToRestartPoint (it.numRestarts - 1)) x
  | .seek target, x => ∃ left, EndsWith (it.searchRound target) (0, it.numRestarts - 1) (some left) ∧
      Meets (parseRound (keyBelow target)) (it.seekToRestartPoint left) x
  | .prev, x => ∃ index, EndsWith (it.prevRound it.current) it.restartIndex (some index) ∧
      Meets (parseRound (endsBefore it.current)) (it.seekToRestartPoint index) x

/-- A call meets an entry that cannot be read, or `Seek` one at a restart point. -/
def MeetsBadEntry (it : BlockIter) (c : Call Slice) : Prop :=
  (∃ x, it.Reads c x ∧ x.BadEntry) ∨
    ∃ target, c = .seek target ∧ EndsWith (it.searchRound target) (0, it.numRestarts - 1) none

/-- What holds in a state of an iterator that makes progress. -/
structure Progress (it : BlockIter) : Prop where
  /-- Every call that may be made ends. -/
  ends : ∀ {c : Call Slice} {it' : BlockIter}, call it c = some it' → it.CallEnds c
  /-- `Next` moves forward. -/
  next : Iterator.valid it = true → Iterator.valid (Iterator.next it) = true →
    it.current < (Iterator.next it).current
  /-- `Prev` moves back. -/
  prev : Iterator.valid it = true → Iterator.valid (Iterator.prev it) = true →
    (Iterator.prev it).current < it.current
  /-- `restart_index_` is a restart point. -/
  restartIndex : Iterator.valid it = true → it.restartIndex < it.numRestarts
  /-- A bad entry leaves the iterator invalid with an error. -/
  corruption : ∀ {c : Call Slice} {it' : BlockIter}, call it c = some it' → it.MeetsBadEntry c →
    Iterator.valid it' = false ∧ it'.status = some (.corruption (ascii "bad entry in block"))

/-- The loop of `ParseNextKey` always ends. -/
theorem parseEnds (it : BlockIter) : it.ParseEnds := it.advance_ends _ (Nat.le_add_left _ _)

/-- A valid state is before the restart array. -/
theorem SameBlock.valid_iff (h : SameBlock it0 it) : Iterator.valid it = true ↔ it.current < it0.restarts := by
  rw [← h.restarts]
  exact decide_eq_true_iff

/-- The rounds that the functions allow are enough. -/
theorem SameBlock.readsUntil (h : SameBlock it0 it) (hbounds : InBounds it0) (cond : BlockIter → Bool)
    {index : ℕ} (hindex : index < it0.numRestarts) :
    BeforeEntry it0 (it.seekToRestartPoint index) ∧ ReadsUntil cond (it.seekToRestartPoint index)
      (parseWhile cond (it.restarts + 1) (it.seekToRestartPoint index)) := by
  obtain ⟨hbefore, -⟩ := h.seekToRestartPoint hindex
  refine ⟨hbefore, hbefore.parse_ends hbounds cond ?_, fun x _ => x.parseEnds⟩
  rw [h.restarts]
  omega

/-- The binary search of `Seek` finds a restart point. -/
theorem SameBlock.search_lt (h : SameBlock it0 it) (hbounds : InBounds it0) (hnum : it0.numRestarts ≤ 2^31)
    {target : Slice} {left : ℕ}
    (hend : EndsWith (it.searchRound target) (0, it.numRestarts - 1) (some left)) :
    left < it0.numRestarts := by
  obtain ⟨range, hmeets, hround⟩ := hend.exists_meets
  -- Both ends stay restart points.
  have hrange : range.1 < it0.numRestarts ∧ range.2 < it0.numRestarts := by
    refine @Meets.invariant _ _ _ (fun range => range.1 < it0.numRestarts ∧ range.2 < it0.numRestarts)
      ?_ _ _ hmeets ?_
    · intro x y hx hround
      unfold searchRound at hround
      split_ifs at hround with hlt
      dsimp only at hround
      split at hround
      · exact absurd hround Sum.inr_ne_inl
      · split_ifs at hround
        · obtain rfl := Sum.inl.inj hround
          exact ⟨by omega, hx.2⟩
        · obtain rfl := Sum.inl.inj hround
          exact ⟨hx.1, by omega⟩
    · have hpos := hbounds.numRestarts_pos
      rw [h.numRestarts]
      exact ⟨hpos, by omega⟩
  unfold searchRound at hround
  split_ifs at hround with hlt
  · dsimp only at hround
    split at hround
    · exact absurd (Sum.inr.inj hround) (Option.some_ne_none _).symm
    · split_ifs at hround
      exact absurd (Sum.inr.inj hround) (Option.some_ne_none _).symm
  · exact Option.some.inj (Sum.inr.inj hround) ▸ hrange.1

/-- `Seek` ends on a block whose offsets are in bounds and that has at most `2^31` restart points. -/
theorem SameBlock.seek (h : SameBlock it0 it) (hbounds : InBounds it0) (hnum : it0.numRestarts ≤ 2^31)
    (target : Slice) : it.CallEnds (.seek target) ∧ Steady it0 (it.seek target) := by
  have hpos := hbounds.numRestarts_pos
  have hsearch : EndsWith (it.searchRound target) (0, it.numRestarts - 1)
      (it.searchRestart target it.numRestarts 0 (it.numRestarts - 1)) := by
    apply it.search_ends target
    · omega
    · rw [h.numRestarts]
      omega
  cases hfound : it.searchRestart target it.numRestarts 0 (it.numRestarts - 1) with
  | none =>
    have hseek : it.seek target = it.corruptionError := by
      unfold BlockIter.seek
      rw [hfound]
    rw [hfound] at hsearch
    exact ⟨⟨none, hsearch, hseek⟩, hseek ▸ h.corruptionError⟩
  | some left =>
    have hseek : it.seek target =
        parseWhile (keyBelow target) (it.restarts + 1) (it.seekToRestartPoint left) := by
      unfold BlockIter.seek
      rw [hfound]
      rfl
    rw [hfound] at hsearch
    obtain ⟨hbefore, hreads⟩ := h.readsUntil hbounds (keyBelow target) (h.search_lt hbounds hnum hsearch)
    rw [← hseek] at hreads
    obtain ⟨x, -, hsteady, -⟩ := hbefore.parse_result hbounds hreads.1
    exact ⟨⟨some left, hsearch, hreads⟩, hsteady⟩

/-- `Prev` from a valid position ends, and leads to a smaller offset or to none. -/
theorem Steady.prev (h : Steady it0 it) (hbounds : InBounds it0) (hvalid : it.current < it0.restarts) :
    it.CallEnds .prev ∧ Steady it0 it.prev ∧
      (it.prev.current < it0.restarts → it.prev.current < it.current) := by
  have hloop := it.prev_ends it.current it.restartIndex
  unfold CallEnds BlockIter.prev
  obtain ⟨hnone, -⟩ | ⟨index, hle, hsome, hlt⟩ := it.restartBefore_cases it.current it.restartIndex
  · rw [hnone] at hloop ⊢
    exact ⟨⟨none, hloop, rfl⟩, h.noMoreEntries, fun hlt => absurd hlt h.not_lt_restarts⟩
  · rw [hsome] at hloop ⊢
    have hindex : index < it0.numRestarts := lt_of_le_of_lt hle (h.entry hvalid).1.restartIndex
    obtain ⟨hbefore, hreads⟩ := h.readsUntil hbounds (endsBefore it.current) hindex
    obtain ⟨x, hx, hsteady, hcurrent⟩ := hbefore.parse_result hbounds hreads.1
    refine ⟨⟨some index, hloop, hreads⟩, hsteady, fun hvalid' => ?_⟩
    -- All entries that are read start before the original one.
    have hxlt : x.nextEntryOffset < it.current := by
      refine @Meets.invariant _ _ _ (fun x => x.nextEntryOffset < it.current) ?_ _ _ hx ?_
      · intro x y _ hround
        obtain ⟨-, hcond, rfl⟩ := parseRound_eq_inl hround
        exact of_decide_eq_true hcond
      · rw [(h.seekToRestartPoint hindex).2, ← h.getRestartPoint]
        exact hlt
    rw [← hcurrent hvalid'] at hxlt
    exact hxlt

/-- Every call from a state between calls ends, and leaves such a state. -/
theorem Steady.call (h : Steady it0 it) (hbounds : InBounds it0) (hnum : it0.numRestarts ≤ 2^31)
    {c : Call Slice} {it' : BlockIter} (hcall : call it c = some it') : it.CallEnds c ∧ Steady it0 it' := by
  have hpos := hbounds.numRestarts_pos
  cases c with
  | seekToFirst =>
    obtain rfl := Option.some.inj hcall
    exact ⟨parseEnds _, ((h.seekToRestartPoint hpos).1.steady hbounds).1⟩
  | seekToLast =>
    obtain rfl := Option.some.inj hcall
    have hindex : it.numRestarts - 1 < it0.numRestarts := by
      rw [h.numRestarts]
      omega
    obtain ⟨hbefore, hreads⟩ := h.readsUntil hbounds notLast hindex
    obtain ⟨x, -, hsteady, -⟩ := hbefore.parse_result hbounds hreads.1
    exact ⟨hreads, hsteady⟩
  | seek target =>
    obtain rfl := Option.some.inj hcall
    exact h.seek hbounds hnum target
  | next =>
    unfold Lib.call at hcall
    split_ifs at hcall with hvalid
    obtain rfl := Option.some.inj hcall
    exact ⟨it.parseEnds, ((h.entry (h.valid_iff.mp hvalid)).1.steady hbounds).1⟩
  | prev =>
    unfold Lib.call at hcall
    split_ifs at hcall with hvalid
    obtain rfl := Option.some.inj hcall
    obtain ⟨hends, hsteady, -⟩ := h.prev hbounds (h.valid_iff.mp hvalid)
    exact ⟨hends, hsteady⟩

/-- A call that meets a bad entry ends with an error. -/
theorem Steady.meetsBadEntry (h : Steady it0 it) (hbounds : InBounds it0) (hnum : it0.numRestarts ≤ 2^31)
    {c : Call Slice} {it' : BlockIter} (hcall : Lib.call it c = some it') (hbad : it.MeetsBadEntry c) :
    ∃ x : BlockIter, it' = x.corruptionError := by
  have hpos := hbounds.numRestarts_pos
  obtain ⟨hends, -⟩ := h.call hbounds hnum hcall
  -- A single call of `ParseNextKey`.
  have hparse : ∀ {x : BlockIter}, BeforeEntry it0 x → x.BadEntry → x.parseNextKey.2 = x.corruptionError := by
    intro x hx hbad
    have hdone : BlockIter.parseRound (fun _ => false) x = .inr x.parseNextKey.2 := by
      unfold BlockIter.parseRound
      dsimp only
      rw [Bool.and_false, if_neg Bool.false_ne_true]
    exact hx.parse_bad hbounds (EndsWith.done hdone) Meets.first hbad
  obtain ⟨x, hreads, hbad⟩ | ⟨target, rfl, hsearch⟩ := hbad
  · cases c with
    | seekToFirst =>
      obtain rfl := Option.some.inj hcall
      subst hreads
      exact ⟨_, hparse (h.seekToRestartPoint hpos).1 hbad⟩
    | next =>
      unfold Lib.call at hcall
      split_ifs at hcall with hvalid
      obtain rfl := Option.some.inj hcall
      subst hreads
      exact ⟨_, hparse (h.entry (h.valid_iff.mp hvalid)).1 hbad⟩
    | seekToLast =>
      obtain rfl := Option.some.inj hcall
      have hindex : it.numRestarts - 1 < it0.numRestarts := by
        rw [h.numRestarts]
        omega
      exact ⟨x, (h.seekToRestartPoint hindex).1.parse_bad hbounds hends.1 hreads hbad⟩
    | seek target =>
      obtain rfl := Option.some.inj hcall
      obtain ⟨left, hsearch, hmeets⟩ := hreads
      obtain ⟨found, hfound, hmatch⟩ := hends
      obtain rfl := hfound.unique hsearch
      have hindex := h.search_lt hbounds hnum hsearch
      exact ⟨x, (h.seekToRestartPoint hindex).1.parse_bad hbounds hmatch.1 hmeets hbad⟩
    | prev =>
      unfold Lib.call at hcall
      split_ifs at hcall with hvalid
      obtain rfl := Option.some.inj hcall
      obtain ⟨index, hloop, hmeets⟩ := hreads
      obtain ⟨found, hfound, hmatch⟩ := hends
      obtain rfl := hfound.unique hloop
      have hindex : index < it0.numRestarts := by
        have hlt := (h.entry (h.valid_iff.mp hvalid)).1.restartIndex
        have hbefore := hloop.unique (it.prev_ends it.current it.restartIndex)
        obtain ⟨hnone, -⟩ | ⟨index', hle, hsome, -⟩ := it.restartBefore_cases it.current it.restartIndex
        · exact absurd (hbefore.trans hnone) (Option.some_ne_none _)
        · obtain rfl := Option.some.inj (hbefore.trans hsome)
          exact lt_of_le_of_lt hle hlt
      exact ⟨x, (h.seekToRestartPoint hindex).1.parse_bad hbounds hmatch.1 hmeets hbad⟩
  · obtain rfl := Option.some.inj hcall
    obtain ⟨found, hfound, hmatch⟩ := hends
    obtain rfl := hfound.unique hsearch
    exact ⟨it, hmatch⟩

/-- A state between calls makes progress. -/
theorem Steady.progress (h : Steady it0 it) (hbounds : InBounds it0) (hnum : it0.numRestarts ≤ 2^31) :
    it.Progress where
  ends hcall := (h.call hbounds hnum hcall).1
  next hvalid hvalid' := by
    obtain ⟨hbefore, hlt⟩ := h.entry (h.valid_iff.mp hvalid)
    obtain ⟨hsteady, hcurrent⟩ := hbefore.steady hbounds
    have hnext := hcurrent (hsteady.valid_iff.mp hvalid')
    change it.current < it.parseNextKey.2.current
    rw [hnext]
    exact hlt
  prev hvalid hvalid' := by
    obtain ⟨-, hsteady, hlt⟩ := h.prev hbounds (h.valid_iff.mp hvalid)
    exact hlt (hsteady.valid_iff.mp hvalid')
  restartIndex hvalid := h.numRestarts ▸ (h.entry (h.valid_iff.mp hvalid)).1.restartIndex
  corruption hcall hbad := by
    obtain ⟨x, rfl⟩ := h.meetsBadEntry hbounds hnum hcall hbad
    exact ⟨decide_eq_false (lt_irrefl _), rfl⟩

/-- What holds between calls holds after every sequence of them. -/
theorem Steady.calls (hbounds : InBounds it0) (hnum : it0.numRestarts ≤ 2^31) : ∀ (cs : List (Call Slice))
    {it it' : BlockIter}, Steady it0 it → Lib.calls it cs = some it' → Steady it0 it'
  | [], it, it', h, hcalls => Option.some.inj hcalls ▸ h
  | c :: cs, it, it', h, hcalls => by
    unfold Lib.calls at hcalls
    rw [List.foldlM_cons] at hcalls
    obtain ⟨next, hcall, hcalls⟩ := Option.bind_eq_some_iff.mp hcalls
    exact Steady.calls hbounds hnum cs (h.call hbounds hnum hcall).2 hcalls

end BlockIter

/-! ## Blocks -/

/-- No entry of the block has lengths whose sum wraps around. -/
def BlockIter.LengthsFit (it : BlockIter) : Prop :=
  ∀ {offset shared nonShared valueLength : ℕ} {rest : Slice}, it.EntryOffset offset →
    decodeLengths (it.entriesFrom offset) = some (shared, nonShared, valueLength, rest) →
    nonShared + valueLength < 2^32

/-- A block whose restart array ends with the block and whose lengths do not wrap around is in bounds. -/
theorem Block.inBounds {data : Slice} {cmp : Comparator} {it : BlockIter}
    (hit : (Block.new data).newIterator cmp = .inr it)
    (hrestarts : it.restarts + 4 * (it.numRestarts + 1) = data.length) (hfit : it.LengthsFit) :
    it.InBounds := by
  obtain ⟨-, hdata, hoffset, -, hzero⟩ := Block.newIterator_eq_inr hit
  have hbytes : it.data = data := by
    rw [hdata, Block.new_eq]
    split_ifs <;> rfl
  have hlt : it.restarts < 2^32 := hoffset ▸ Block.restartOffset_lt data
  refine ⟨Nat.pos_of_ne_zero hzero, hlt, ?_, ?_⟩
  · rw [hbytes]
    omega
  · intro offset hentry shared nonShared valueLength rest hdecode
    obtain ⟨-, hlengths, hcheck⟩ := decodeLengths_of_decodeEntry hdecode
    obtain ⟨-, -, hrest⟩ := decodeLengths_bounds hlengths
    have hsum := hfit hentry hlengths
    have hlength : (it.entriesFrom offset).length ≤ it.restarts := by
      unfold BlockIter.entriesFrom
      rw [List.length_drop, List.length_take]
      omega
    rw [Nat.mod_eq_of_lt hsum, Nat.mod_eq_of_lt (by omega)] at hcheck
    exact Nat.le_of_not_lt hcheck

/-- A new iterator is not valid. -/
theorem Block.steady {b : Block} {cmp : Comparator} {it : BlockIter} (hit : b.newIterator cmp = .inr it) :
    BlockIter.Steady it it := by
  have hcurrent : it.current = it.restarts := by
    unfold Block.newIterator at hit
    split_ifs at hit
    exact Sum.inr.inj hit ▸ rfl
  refine ⟨⟨rfl, rfl, rfl, rfl⟩, fun hlt => absurd hlt ?_⟩
  rw [hcurrent]
  exact lt_irrefl _

/-- A block whose restart array is inside of it, with arbitrary restart points and entries whose lengths
do not wrap around: in every state that a sequence of calls leads to, the iterator makes progress, if there
are not so many restart points that the binary search wraps around. -/
theorem block_progress {data : Slice} {cmp : Comparator} {it : BlockIter}
    (hit : (Block.new data).newIterator cmp = .inr it)
    (hrestarts : it.restarts + 4 * (it.numRestarts + 1) = data.length) (hfit : it.LengthsFit)
    (hnum : it.numRestarts ≤ 2^31) {cs : List (Lib.Call Slice)} {it' : BlockIter}
    (hcalls : Lib.calls it cs = some it') : it'.Progress := by
  have hbounds := Block.inBounds hit hrestarts hfit
  exact (BlockIter.Steady.calls hbounds hnum cs (Block.steady hit) hcalls).progress hbounds hnum

/-- A block whose second entry shares more bytes than the key before it has, at its first entry. -/
theorem block_progress_example :
    ∃ it it', (Block.new [0, 1, 0, 97, 5, 0, 0, 0, 0, 0, 0, 1, 0, 0, 0]).newIterator bytewiseComparator =
      .inr it ∧ Lib.calls it [.seekToFirst] = some it' ∧ Lib.Iterator.valid it' = true ∧ it'.Progress := by
  refine ⟨_, _, rfl, rfl, by decide, ?_⟩
  refine @block_progress [0, 1, 0, 97, 5, 0, 0, 0, 0, 0, 0, 1, 0, 0, 0] bytewiseComparator _ rfl (by decide)
    ?_ (by decide) [.seekToFirst] _ rfl
  intro offset shared nonShared valueLength rest _ hlengths
  have hsmall : ∀ offset < 7, ((decodeLengths (([0, 1, 0, 97, 5, 0, 0] : Slice).drop offset)).all
      fun entry => decide (entry.2.1 + entry.2.2.1 < 2^32)) = true := by decide
  by_cases hoffset : offset < 7
  · have hentry := hsmall offset hoffset
    change decodeLengths (([0, 1, 0, 97, 5, 0, 0] : Slice).drop offset) = _ at hlengths
    rw [hlengths] at hentry
    exact of_decide_eq_true hentry
  · change decodeLengths (([0, 1, 0, 97, 5, 0, 0] : Slice).drop offset) = _ at hlengths
    rw [List.drop_eq_nil_of_le (Nat.le_of_not_lt hoffset)] at hlengths
    exact absurd hlengths.symm (Option.some_ne_none _)

/-- A block with an entry of an empty key and an empty value, and restart points that all are at it. -/
def zeroBlock (num : ℕ) : Slice := List.replicate (4 * num + 3) 0 ++ encodeFixed32 num

/-- The iterator over such a block. -/
def zeroIter (num : ℕ) : BlockIter where
  comparator := bytewiseComparator
  data := zeroBlock num
  restarts := 3
  numRestarts := num
  current := 3
  restartIndex := num

/-- The length of such a block. -/
theorem zeroBlock_length (num : ℕ) : (zeroBlock num).length = 3 + 4 * (num + 1) := by
  unfold zeroBlock
  rw [List.length_append, List.length_replicate, encodeFixed32_length]
  omega

/-- The block of zeros is accepted, and its iterator has all its restart points. -/
theorem zeroBlock_newIterator {num : ℕ} (hpos : 0 < num) (hlt : num < 2^32) :
    (Block.new (zeroBlock num)).newIterator bytewiseComparator = .inr (zeroIter num) := by
  have hlength := zeroBlock_length num
  have hcount : restartCount (zeroBlock num) = num := by
    have hdrop : (zeroBlock num).drop ((zeroBlock num).length - 4) = encodeFixed32 num := by
      rw [hlength]
      unfold zeroBlock
      apply List.drop_left'
      rw [List.length_replicate]
      omega
    unfold restartCount
    rw [hdrop, ← List.append_nil (encodeFixed32 num), decodeFixed32_encodeFixed32 hlt]
  have hnew : Block.new (zeroBlock num) = ⟨zeroBlock num, (zeroBlock num).length, 3⟩ := by
    rw [Block.new_eq, hcount, hlength, if_neg (by omega), if_neg (by omega)]
    congr 1
    omega
  rw [hnew]
  unfold Block.newIterator
  have hnum : (⟨zeroBlock num, (zeroBlock num).length, 3⟩ : Block).numRestarts = num := hcount
  have hsize : ¬(zeroBlock num).length < 8 := by
    rw [hlength]
    omega
  rw [hnum, if_neg hsize, if_neg (Nat.ne_of_gt hpos)]
  rfl

/-- There are zeros in front of the restart array. -/
theorem zeroIter_entriesFrom (num offset : ℕ) :
    (zeroIter num).entriesFrom offset = List.replicate (3 - offset) 0 := by
  change ((zeroBlock num).take 3).drop offset = _
  unfold zeroBlock
  rw [List.take_append_of_le_length (by rw [List.length_replicate]; omega), List.take_replicate,
    List.drop_replicate, Nat.min_eq_left (Nat.le_add_left 3 _)]

/-- All restart points are at the only entry. -/
theorem zeroIter_getRestartPoint {num index : ℕ} (hindex : index < num) :
    (zeroIter num).getRestartPoint index = 0 := by
  obtain ⟨k, hk⟩ : ∃ k, 4 * num + 3 - (3 + index * 4) = k + 4 := ⟨4 * num + 3 - (3 + index * 4) - 4, by omega⟩
  change decodeFixed32 ((zeroBlock num).drop (3 + index * 4)) = 0
  unfold zeroBlock
  rw [List.drop_append_of_le_length (by rw [List.length_replicate]; omega), List.drop_replicate, hk]
  rfl

/-- The lengths of the only entry are 0. -/
theorem zeroIter_lengthsFit (num : ℕ) : (zeroIter num).LengthsFit := by
  intro offset shared nonShared valueLength rest _ hlengths
  rw [zeroIter_entriesFrom] at hlengths
  have hsmall : ∀ k < 4, ((decodeLengths (List.replicate k 0)).all
      fun entry => decide (entry.2.1 + entry.2.2.1 < 2^32)) = true := by decide
  have hentry := hsmall (3 - offset) (by omega)
  rw [hlengths] at hentry
  exact of_decide_eq_true hentry

/-- A round of the binary search for a key that is behind the only one. -/
theorem zeroIter_searchRound {num left right mid : ℕ} (hlt : left < right)
    (hmid : (left + right + 1) % 2^32 / 2 = mid) (hnum : mid < num) :
    (zeroIter num).searchRound [1] (left, right) = .inl (mid, right) := by
  unfold BlockIter.searchRound
  rw [if_pos hlt]
  dsimp only
  rw [hmid, zeroIter_getRestartPoint hnum, zeroIter_entriesFrom]
  rfl

/-- The binary search goes round and round, if the sum of the last two indices wraps around. -/
theorem zeroIter_search_diverges {last : ℕ} (hlast : last = 2^31) (found : Option ℕ) :
    ¬Lib.EndsWith ((zeroIter (last + 1)).searchRound [1]) (0, last) found := by
  apply @Lib.not_endsWith _ _ _ fun range : ℕ × ℕ => range.1 < last ∧ range.2 = last
  · intro range hrange
    obtain ⟨left, right⟩ := range
    obtain ⟨hleft, hright⟩ := hrange
    dsimp only at hleft hright
    have hmid : (left + right + 1) % 2^32 / 2 < last := by omega
    rw [hright] at hmid ⊢
    exact ⟨_, zeroIter_searchRound hleft rfl (by omega), hmid, rfl⟩
  · exact ⟨by dsimp only; omega, rfl⟩

/-- A block with `2^31 + 1` restart points, in which `Seek` does not end. -/
theorem block_seek_diverges :
    ∃ it, (Block.new (zeroBlock (2^31 + 1))).newIterator bytewiseComparator = .inr it ∧
      it.restarts + 4 * (it.numRestarts + 1) = (zeroBlock (2^31 + 1)).length ∧ it.LengthsFit ∧
      ¬it.Progress := by
  refine ⟨zeroIter (2^31 + 1), zeroBlock_newIterator (Nat.succ_pos _) (by omega),
    (zeroBlock_length _).symm, zeroIter_lengthsFit _, fun hprogress => ?_⟩
  obtain ⟨found, hsearch, -⟩ := @BlockIter.Progress.ends _ hprogress (.seek [1]) _ rfl
  exact zeroIter_search_diverges rfl found hsearch

end LevelDb
