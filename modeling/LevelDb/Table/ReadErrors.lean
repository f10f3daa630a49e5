import LevelDb.Lib.Scan
import LevelDb.Table.Format

/-!
# Errors of table iterators

No iterator of a table forgets an error, and a scan of a table with a block that cannot be read ends
with an error, although the entries behind the block are still yielded. A scan of a block comes to an
end for any bytes: every entry takes at least three of them.
-/

namespace LevelDb

open Lib

/-! ## Blocks -/

/-- What `DecodeEntry` has checked: the lengths take at least three bytes, and what they announce is
there if it is counted modulo `2^32`. -/
theorem decodeEntry_spec {input rest : Slice} {shared nonShared valueLength : ℕ}
    (h : decodeEntry input = some (shared, nonShared, valueLength, rest)) :
    rest.length + 3 ≤ input.length ∧ (nonShared + valueLength) % 2^32 ≤ rest.length % 2^32 := by
  unfold decodeEntry at h
  split at h
  · rename_i b0 b1 b2 tail
    obtain ⟨⟨s, n, v, r⟩, hlengths, hcheck⟩ := Option.bind_eq_some_iff.mp h
    dsimp only at hcheck
    split_ifs at hcheck with hlt
    cases hcheck
    refine ⟨?_, Nat.le_of_not_lt hlt⟩
    split_ifs at hlengths
    · cases hlengths
      simp only [List.length_cons]
      omega
    · obtain ⟨⟨s', r1⟩, h1, hlengths⟩ := Option.bind_eq_some_iff.mp hlengths
      obtain ⟨⟨n', r2⟩, h2, hlengths⟩ := Option.bind_eq_some_iff.mp hlengths
      obtain ⟨⟨v', r3⟩, h3, hlengths⟩ := Option.map_eq_some_iff.mp hlengths
      cases hlengths
      have hlen1 := getVarint32_length h1
      have hlen2 := getVarint32_length h2
      have hlen3 := getVarint32_length h3
      omega
  · exact absurd h.symm (Option.some_ne_none _)

namespace BlockIter

/-- What `ParseNextKey` does: nothing is left, an entry is corrupted, or the iterator comes to the next
entry, whose end is behind its start. -/
theorem parseNextKey_cases (it : BlockIter) (hrestarts : it.restarts < 2^32) :
    it.parseNextKey = (false, it.noMoreEntries) ∨ it.parseNextKey = (false, it.corruptionError) ∨
      ∃ it', it.parseNextKey = (true, it') ∧ it'.current = it.nextEntryOffset ∧
        it'.current < it.restarts ∧ it'.current < it'.nextEntryOffset ∧
        it'.restarts = it.restarts ∧ it'.status = it.status := by
  unfold parseNextKey
  dsimp only
  split_ifs with hend
  · exact Or.inl rfl
  · split
    · exact Or.inr (Or.inl rfl)
    · rename_i shared nonShared valueLength rest hdecode
      split_ifs
      · exact Or.inr (Or.inl rfl)
      · obtain ⟨hrest, hsize⟩ := decodeEntry_spec hdecode
        refine Or.inr (Or.inr ⟨_, rfl, rfl, Nat.lt_of_not_le hend, ?_, rfl, rfl⟩)
        unfold entriesFrom at hrest
        rw [List.length_drop, List.length_take] at hrest
        -- The end of the entry does not wrap around.
        show it.nextEntryOffset < (it.restarts - rest.length + nonShared + valueLength) % 2^32
        omega

/-- `ParseNextKey` does not change the bounds. -/
theorem parseNextKey_restarts (it : BlockIter) (hrestarts : it.restarts < 2^32) :
    it.parseNextKey.2.restarts = it.restarts := by
  obtain h | h | ⟨it', h, -, -, -, hkeep, -⟩ := it.parseNextKey_cases hrestarts
  · rw [h]
    rfl
  · rw [h]
    rfl
  · rw [h]
    exact hkeep

/-- `ParseNextKey` of an iterator with an error leaves one with an error. -/
theorem parseNextKey_status (it : BlockIter) (hrestarts : it.restarts < 2^32)
    (h : it.status ≠ none) : it.parseNextKey.2.status ≠ none := by
  obtain heq | heq | ⟨it', heq, -, -, -, -, hkeep⟩ := it.parseNextKey_cases hrestarts
  · rw [heq]
    exact h
  · rw [heq]
    exact Option.some_ne_none _
  · rw [heq]
    exact hkeep.trans_ne h

/-- An iterator that is not valid, or at an entry whose end is behind its start. -/
def Moving (it : BlockIter) : Prop :=
  it.restarts < 2^32 ∧ (it.current < it.restarts → it.current < it.nextEntryOffset)

/-- `ParseNextKey` leaves an iterator that moves. -/
theorem parseNextKey_moving (it : BlockIter) (hrestarts : it.restarts < 2^32) :
    it.parseNextKey.2.Moving := by
  refine ⟨?_, ?_⟩
  · rw [it.parseNextKey_restarts hrestarts]
    exact hrestarts
  · obtain heq | heq | ⟨it', heq, -, -, hlt, -⟩ := it.parseNextKey_cases hrestarts
    · rw [heq]
      exact fun h => absurd h (Nat.lt_irrefl it.restarts)
    · rw [heq]
      exact fun h => absurd h (Nat.lt_irrefl it.restarts)
    · rw [heq]
      exact fun _ => hlt

/-- A scan of a block ends, after no more steps than there are bytes left. -/
theorem exists_final {it : BlockIter} (h : it.Moving) :
    ∃ n t, Final n it t ∧ n ≤ it.restarts - it.current := by
  -- By induction on the bytes from the current entry on.
  induction hleft : it.restarts - it.current using Nat.strongRecOn generalizing it with
  | ind left ih =>
    by_cases hvalid : it.current < it.restarts
    · have hmoving := it.parseNextKey_moving h.1
      have hrestarts := it.parseNextKey_restarts h.1
      have hforward : it.parseNextKey.2.current < it.parseNextKey.2.restarts →
          it.current < it.parseNextKey.2.current := by
        obtain heq | heq | ⟨it', heq, hcurrent, -⟩ := it.parseNextKey_cases h.1
        · rw [heq]
          exact fun h => absurd h (Nat.lt_irrefl it.restarts)
        · rw [heq]
          exact fun h => absurd h (Nat.lt_irrefl it.restarts)
        · rw [heq]
          exact fun _ => hcurrent ▸ h.2 hvalid
      obtain ⟨n, t, hfinal, hn⟩ := ih _ (by omega) hmoving rfl
      exact ⟨n + 1, t, Final.step (decide_eq_true hvalid) hfinal, by omega⟩
    · exact ⟨0, it, Final.stop (decide_eq_false hvalid), Nat.zero_le _⟩

/-- `ParseNextKey` leaves a moving iterator, with an error if there was one. -/
theorem keeps_parseNextKey {it : BlockIter} (h : it.restarts < 2^32) :
    it.parseNextKey.2.Moving ∧ (it.status ≠ none → it.parseNextKey.2.status ≠ none) :=
  ⟨it.parseNextKey_moving h, it.parseNextKey_status h⟩

/-- The loops over `ParseNextKey` keep errors. -/
theorem keeps_parseWhile (cond : BlockIter → Bool) : ∀ (fuel : ℕ) {it : BlockIter}, it.restarts < 2^32 →
    (parseWhile cond (fuel + 1) it).Moving ∧
      (it.status ≠ none → (parseWhile cond (fuel + 1) it).status ≠ none)
  | 0, it, hrestarts => by
    unfold parseWhile
    dsimp only
    split_ifs <;> exact keeps_parseNextKey hrestarts
  | fuel + 1, it, hrestarts => by
    obtain ⟨hmoving, hstatus⟩ := keeps_parseNextKey hrestarts
    unfold parseWhile
    dsimp only
    split_ifs
    · obtain ⟨hmoving', hstatus'⟩ := keeps_parseWhile cond fuel hmoving.1
      exact ⟨hmoving', fun h => hstatus' (hstatus h)⟩
    · exact ⟨hmoving, hstatus⟩

/-- A state behind the last entry moves. -/
theorem moving_of_current_eq {it : BlockIter} (hrestarts : it.restarts < 2^32)
    (h : it.current = it.restarts) : it.Moving :=
  ⟨hrestarts, fun hlt => absurd hlt (Nat.not_lt.mpr h.ge)⟩

/-- Scans of blocks end, and their errors are kept. -/
theorem scannable : Scannable Moving where
  seekToFirst it h := keeps_parseNextKey h.1
  seekToLast it h := keeps_parseWhile _ it.restarts h.1
  seek target it h := by
    show (it.seek target).Moving ∧ (it.status ≠ none → (it.seek target).status ≠ none)
    unfold seek
    split
    · exact ⟨moving_of_current_eq h.1 rfl, fun _ => Option.some_ne_none _⟩
    · exact keeps_parseWhile _ it.restarts h.1
  next it h := keeps_parseNextKey h.1
  prev it h := by
    show it.prev.Moving ∧ (it.status ≠ none → it.prev.status ≠ none)
    unfold prev
    split
    · exact ⟨moving_of_current_eq h.1 rfl, id⟩
    · exact keeps_parseWhile _ it.restarts h.1
  ends {it} h := by
    obtain ⟨n, t, hfinal, -⟩ := exists_final h
    exact ⟨n, t, hfinal⟩

end BlockIter

/-- An iterator without entries ends where it starts. -/
theorem EmptyIterator.scannable : Scannable fun _ : EmptyIterator => True where
  seekToFirst _ _ := ⟨trivial, id⟩
  seekToLast _ _ := ⟨trivial, id⟩
  seek _ _ _ := ⟨trivial, id⟩
  next _ _ := ⟨trivial, id⟩
  prev _ _ := ⟨trivial, id⟩
  ends {it} _ := ⟨0, it, Final.stop rfl⟩

/-! ## The two-level iterator -/

namespace TwoLevelIterator

variable {ι δ : Type} [Iterator ι Slice Slice Status] [Iterator δ Slice Slice Status]
variable {I : ι → Prop} {D : δ → Prop}

/-- The states of the two iterators are among those of their invariants. -/
structure Inv (I : ι → Prop) (D : δ → Prop) (it : TwoLevelIterator ι δ) : Prop where
  /-- The state of the index. -/
  index : I it.index
  /-- The state of the block. -/
  data : ∀ {d}, it.data = some d → D d
  /-- The blocks that can be opened. -/
  blockFunction : ∀ handle, D (it.blockFunction handle)

/-! ### Errors are saved -/

/-- `status` of a two-level iterator reports an error exactly if the index, the data block or the
iterator has kept one. -/
theorem getStatus_ne_none {it : TwoLevelIterator ι δ} : it.getStatus ≠ none ↔
    Iterator.status it.index ≠ none ∨ (∃ d, it.data = some d ∧ Iterator.status d ≠ none) ∨
      it.status ≠ none := by
  unfold getStatus
  rw [ne_eq, Option.or_eq_none_iff, Option.or_eq_none_iff, not_and_or, not_and_or,
    Option.bind_eq_none_iff]
  push Not
  rfl

omit [Iterator ι Slice Slice Status] in
/-- `SetDataIterator` changes the block and saves its error. -/
theorem setDataIterator_spec (it : TwoLevelIterator ι δ) (data : Option δ) :
    (it.setDataIterator data).index = it.index ∧ (it.setDataIterator data).data = data ∧
      (it.setDataIterator data).blockFunction = it.blockFunction ∧
      (it.status ≠ none ∨ (∃ d, it.data = some d ∧ Iterator.status d ≠ none) →
        (it.setDataIterator data).status ≠ none) := by
  unfold setDataIterator
  cases hdata : it.data with
  | none =>
    refine ⟨rfl, rfl, rfl, ?_⟩
    rintro (h | ⟨d, hd, -⟩)
    · exact h
    · exact absurd hd.symm (Option.some_ne_none d)
  | some d =>
    dsimp only
    unfold saveError
    split_ifs with hsave
    · exact ⟨rfl, rfl, rfl, fun _ => hsave.2⟩
    · refine ⟨rfl, rfl, rfl, ?_⟩
      rintro (h | ⟨d', hd', h⟩)
      · exact h
      · obtain rfl := Option.some.inj hd'
        exact fun hnone => hsave ⟨hnone, h⟩

variable [Bounded ι]

/-- An operation on the index keeps errors. -/
theorem keeps_onIndex {f : ι → ι} (hf : Keeps I f) :
    Keeps (Inv I D) (onIndex f : TwoLevelIterator ι δ → _) := by
  intro it h
  obtain ⟨hindex, hstatus⟩ := hf it.index h.index
  refine ⟨⟨hindex, h.data, h.blockFunction⟩, fun herror => ?_⟩
  exact getStatus_ne_none.mpr ((getStatus_ne_none.mp herror).imp_left hstatus)

/-- An operation on the block keeps errors. -/
theorem keeps_onData {f : δ → δ} (hf : Keeps D f) :
    Keeps (Inv I D) (onData f : TwoLevelIterator ι δ → _) := by
  intro it h
  refine ⟨⟨h.index, fun {d'} hd' => ?_, h.blockFunction⟩, fun herror => ?_⟩
  · obtain ⟨d, hd, rfl⟩ := Option.map_eq_some_iff.mp hd'
    exact (hf d (h.data hd)).1
  · refine getStatus_ne_none.mpr ((getStatus_ne_none.mp herror).imp_right (Or.imp_left ?_))
    rintro ⟨d, hd, hstatus⟩
    refine ⟨f d, ?_, (hf d (h.data hd)).2 hstatus⟩
    show it.data.map f = _
    rw [hd]
    rfl

/-- `SetDataIterator` saves the error of the data block that it closes. -/
theorem keeps_setDataIterator {it : TwoLevelIterator ι δ} (h : Inv I D it) {data : Option δ}
    (hdata : ∀ {d}, data = some d → D d) :
    Inv I D (it.setDataIterator data) ∧
      (Iterator.status it ≠ none → Iterator.status (it.setDataIterator data) ≠ none) := by
  obtain ⟨hindex, hset, hfunction, hsave⟩ := it.setDataIterator_spec data
  refine ⟨⟨hindex ▸ h.index, fun hd => hdata (hset ▸ hd), hfunction ▸ h.blockFunction⟩,
    fun herror => getStatus_ne_none.mpr ?_⟩
  rw [hindex]
  exact (getStatus_ne_none.mp herror).imp_right fun hrest => Or.inr (hsave hrest.symm)

/-- `InitDataBlock` keeps errors, whether or not it opens another block. -/
theorem keeps_initDataBlock : Keeps (Inv I D) (initDataBlock : TwoLevelIterator ι δ → _) := by
  intro it h
  unfold initDataBlock
  dsimp only
  split_ifs
  · exact ⟨h, id⟩
  · obtain ⟨hinv, hstatus⟩ := keeps_setDataIterator h (fun {d} hd =>
      Option.some.inj hd ▸ h.blockFunction (Iterator.value it.index))
    exact ⟨⟨hinv.index, hinv.data, hinv.blockFunction⟩, hstatus⟩
  · exact keeps_setDataIterator h fun hd => absurd hd.symm (Option.some_ne_none _)

/-- Skipping empty blocks in either direction keeps errors, for any number of rounds. -/
theorem keeps_skipEmptyDataBlocks {move : ι → ι} {enter : δ → δ} (hmove : Keeps I move)
    (henter : Keeps D enter) : ∀ fuel : ℕ,
    Keeps (Inv I D) (skipEmptyDataBlocks move enter fuel : TwoLevelIterator ι δ → _)
  | 0 => fun _ h => ⟨h, id⟩
  | fuel + 1 => by
    intro it h
    unfold skipEmptyDataBlocks
    split_ifs
    · exact ⟨h, id⟩
    · have hround := (keeps_skipEmptyDataBlocks hmove henter fuel).comp
        ((keeps_onData henter).comp (keeps_initDataBlock.comp (keeps_onIndex hmove)))
      exact hround it h
    · exact keeps_setDataIterator h fun hd => absurd hd.symm (Option.some_ne_none _)

/-- `TwoLevelIterator` does not forget errors, if the iterators that it is made of do not. -/
theorem sticky (hI : Sticky I) (hD : Sticky D) :
    Sticky (Inv I D : TwoLevelIterator ι δ → Prop) := by
  have hforward : Keeps (Inv I D) (skipEmptyDataBlocksForward : TwoLevelIterator ι δ → _) :=
    fun it => keeps_skipEmptyDataBlocks hI.next hD.seekToFirst _ it
  have hbackward : Keeps (Inv I D) (skipEmptyDataBlocksBackward : TwoLevelIterator ι δ → _) :=
    fun it => keeps_skipEmptyDataBlocks hI.prev hD.seekToLast _ it
  have hposition : ∀ {f : ι → ι} {g : δ → δ}, Keeps I f → Keeps D g →
      Keeps (Inv I D) fun it : TwoLevelIterator ι δ => ((it.onIndex f).initDataBlock).onData g :=
    fun hf hg => (keeps_onData hg).comp (keeps_initDataBlock.comp (keeps_onIndex hf))
  constructor
  · exact hforward.comp (hposition hI.seekToFirst hD.seekToFirst)
  · exact hbackward.comp (hposition hI.seekToLast hD.seekToLast)
  · exact fun target => hforward.comp (hposition (hI.seek target) (hD.seek target))
  · exact hforward.comp (keeps_onData hD.next)
  · exact hbackward.comp (keeps_onData hD.prev)

/-! ### Scans -/

/-- Entering the block of the index at its first entry. -/
def enterBlock (it : TwoLevelIterator ι δ) : TwoLevelIterator ι δ :=
  it.initDataBlock.onData Iterator.seekToFirst

omit [Bounded ι] in
/-- Where `enterBlock` leads: to no block, to the same one or to a new one. -/
theorem enterBlock_cases (it : TwoLevelIterator ι δ) :
    (Iterator.valid it.index = false ∧ it.enterBlock = it.setDataIterator none) ∨
      (Iterator.valid it.index = true ∧ it.handle = Iterator.value it.index ∧
        ∃ d, it.data = some d ∧ it.enterBlock = { it with data := some (Iterator.seekToFirst d) }) ∨
      (Iterator.valid it.index = true ∧ it.enterBlock =
        { it.setDataIterator
            (some (Iterator.seekToFirst (it.blockFunction (Iterator.value it.index)))) with
          handle := Iterator.value it.index }) := by
  unfold enterBlock initDataBlock
  cases hvalid : Iterator.valid it.index with
  | false =>
    refine Or.inl ⟨rfl, ?_⟩
    unfold onData setDataIterator
    cases it.data <;> rfl
  | true =>
    refine Or.inr ?_
    dsimp only
    rw [if_pos rfl]
    split_ifs with hsame
    · obtain ⟨d, hd⟩ := Option.isSome_iff_exists.mp hsame.1
      refine Or.inl ⟨rfl, hsame.2.symm, d, hd, ?_⟩
      unfold onData
      rw [hd]
      rfl
    · refine Or.inr ⟨rfl, ?_⟩
      unfold onData setDataIterator
      cases it.data <;> rfl


omit [Bounded ι] in
/-- Entering a block leaves the index and the function. -/
theorem enterBlock_index (it : TwoLevelIterator ι δ) :
    it.enterBlock.index = it.index ∧ it.enterBlock.blockFunction = it.blockFunction := by
  obtain ⟨-, heq⟩ | ⟨-, -, d, -, heq⟩ | ⟨-, heq⟩ := it.enterBlock_cases
  · rw [heq]
    exact ⟨(it.setDataIterator_spec none).1, (it.setDataIterator_spec none).2.2.1⟩
  · rw [heq]
    exact ⟨rfl, rfl⟩
  · rw [heq]
    exact ⟨(it.setDataIterator_spec _).1, (it.setDataIterator_spec _).2.2.1⟩

/-- Entering a block at its first entry keeps the errors of the two-level iterator. -/
theorem keeps_enterBlock (hD : Keeps D Iterator.seekToFirst) :
    Keeps (Inv I D) (enterBlock : TwoLevelIterator ι δ → _) :=
  (keeps_onData hD).comp keeps_initDataBlock

/-- An error that the iterator has saved, or that its block will end with. -/
def Pending (it : TwoLevelIterator ι δ) : Prop :=
  it.status ≠ none ∨ ∃ d, it.data = some d ∧ FailsFrom d

/-- If the block of the current handle fails, then so does what is left of it. -/
def Inherits (it : TwoLevelIterator ι δ) : Prop :=
  ∀ d, it.data = some d → Fails (it.blockFunction it.handle) → FailsFrom d

omit [Bounded ι] in
/-- Entering a block from the end of another one: errors stay pending, and the block is one that fails
if its handle says so. -/
theorem enterBlock_pending (hD : Scannable D) {it : TwoLevelIterator ι δ} (h : Inv I D it)
    (hend : it.dataValid = false) (hinherits : it.Inherits) :
    (it.Pending → it.enterBlock.Pending) ∧ it.enterBlock.Inherits ∧
      (Iterator.valid it.index = true → Fails (it.blockFunction (Iterator.value it.index)) →
        it.enterBlock.Pending) := by
  -- The block that is left is at its end.
  have hdata : ∀ d, it.data = some d → FailsFrom d → Iterator.status d ≠ none := by
    intro d hd hfails
    apply hfails.status_ne_none
    unfold dataValid at hend
    rw [hd] at hend
    exact hend
  have hsaved : it.Pending →
      it.status ≠ none ∨ ∃ d, it.data = some d ∧ Iterator.status d ≠ none :=
    Or.imp_right fun ⟨d, hd, hfails⟩ => ⟨d, hd, hdata d hd hfails⟩
  obtain ⟨hvalid, heq⟩ | ⟨hvalid, hhandle, d, hd, heq⟩ | ⟨hvalid, heq⟩ := it.enterBlock_cases
  · obtain ⟨-, hset, -, hsave⟩ := it.setDataIterator_spec none
    rw [heq]
    refine ⟨fun hpending => Or.inl (hsave (hsaved hpending)), fun d hd => ?_, fun hvalid' => ?_⟩
    · rw [hset] at hd
      exact absurd hd.symm (Option.some_ne_none d)
    · exact absurd (hvalid.symm.trans hvalid') Bool.false_ne_true
  · rw [heq]
    have hagain : Iterator.status d ≠ none → FailsFrom (Iterator.seekToFirst d) := fun hstatus =>
      hD.failsFrom (hD.seekToFirst d (h.data hd)).1 ((hD.seekToFirst d (h.data hd)).2 hstatus)
    refine ⟨fun hpending => ?_, fun d' hd' hfails => ?_, fun _ hfails => ?_⟩
    · obtain hstatus | ⟨d', hd', hstatus⟩ := hsaved hpending
      · exact Or.inl hstatus
      · obtain rfl := Option.some.inj (hd.symm.trans hd')
        exact Or.inr ⟨_, rfl, hagain hstatus⟩
    · rw [← Option.some.inj hd']
      exact hagain (hdata d hd (hinherits d hd hfails))
    · rw [← hhandle] at hfails
      exact Or.inr ⟨_, rfl, hagain (hdata d hd (hinherits d hd hfails))⟩
  · obtain ⟨-, hset, hfunction, hsave⟩ := it.setDataIterator_spec
      (some (Iterator.seekToFirst (it.blockFunction (Iterator.value it.index))))
    rw [heq]
    refine ⟨fun hpending => Or.inl (hsave (hsaved hpending)), fun d' hd' hfails => ?_,
      fun _ hfails => Or.inr ⟨_, hset, hfails⟩⟩
    rw [← Option.some.inj (hset.symm.trans hd')]
    dsimp only at hfails
    rw [hfunction] at hfails
    exact hfails

omit [Bounded ι] in
/-- The rounds of a loop that is long enough do not depend on its bound. -/
theorem skipEmptyDataBlocks_fuel {n : ℕ} {i t : ι} (hfinal : Final n i t) :
    ∀ (fuel fuel' : ℕ) (it : TwoLevelIterator ι δ), it.index = i → n < fuel → n < fuel' →
      it.skipEmptyDataBlocks Iterator.next Iterator.seekToFirst fuel =
        it.skipEmptyDataBlocks Iterator.next Iterator.seekToFirst fuel' := by
  induction hfinal with
  | stop hstop =>
    intro fuel fuel' it hindex hlt hlt'
    obtain ⟨fuel, rfl⟩ := Nat.exists_eq_add_one_of_ne_zero (Nat.ne_zero_of_lt hlt)
    obtain ⟨fuel', rfl⟩ := Nat.exists_eq_add_one_of_ne_zero (Nat.ne_zero_of_lt hlt')
    rw [← hindex] at hstop
    unfold skipEmptyDataBlocks
    rw [hstop]
    rfl
  | step _ _ ih =>
    intro fuel fuel' it hindex hlt hlt'
    obtain ⟨fuel, rfl⟩ := Nat.exists_eq_add_one_of_ne_zero (Nat.ne_zero_of_lt hlt)
    obtain ⟨fuel', rfl⟩ := Nat.exists_eq_add_one_of_ne_zero (Nat.ne_zero_of_lt hlt')
    unfold skipEmptyDataBlocks
    have hround := ih fuel fuel' (it.onIndex Iterator.next).enterBlock
      ((enterBlock_index _).1.trans (congrArg Iterator.next hindex)) (by omega) (by omega)
    unfold enterBlock at hround
    rw [hround]

/-- `SkipEmptyDataBlocksForward` stops at a data block that is valid or at the end of the index, and
otherwise enters the next block and goes on. -/
theorem skipEmptyDataBlocksForward_eq (hI : Scannable I) (hbound : BoundsScans I)
    {it : TwoLevelIterator ι δ} (h : I it.index) :
    it.skipEmptyDataBlocksForward =
      if it.dataValid then it
      else if Iterator.valid it.index then
        (it.onIndex Iterator.next).enterBlock.skipEmptyDataBlocksForward
      else it.setDataIterator none := by
  conv_lhs => unfold skipEmptyDataBlocksForward skipEmptyDataBlocks
  split_ifs with hdata hindex
  · rfl
  · obtain ⟨n, t, hfinal⟩ := hI.ends h
    cases hfinal with
    | stop hstop => exact absurd (hstop.symm.trans hindex) Bool.false_ne_true
    | @step n _ _ hvalid hnext =>
      have hle := hbound h (Final.step hvalid hnext)
      have hle' := hbound (hI.next it.index h).1 hnext
      apply skipEmptyDataBlocks_fuel hnext
      · exact (enterBlock_index (it.onIndex Iterator.next)).1
      · exact hle
      · rw [(enterBlock_index (it.onIndex Iterator.next)).1]
        exact Nat.lt_succ_of_le hle'
  · rfl

/-- Where the scan from a state ends: behind the last block, with every error that was met. -/
def ScansTo (it : TwoLevelIterator ι δ) (i : ι) : Prop :=
  ∃ n t, Final n it.skipEmptyDataBlocksForward t ∧ t.data = none ∧ t.index = i ∧
    (it.Inherits →
      it.Pending ∨ (Iterator.valid it.index = true ∧ ∃ j, Visits (Iterator.next it.index) j ∧
        Iterator.valid j = true ∧ Fails (it.blockFunction (Iterator.value j))) → t.status ≠ none)

/-- From the end of a block the scan goes on with the next one. -/
theorem ScansTo.of_not_dataValid (hI : Scannable I) (hbound : BoundsScans I) (hD : Scannable D)
    {it : TwoLevelIterator ι δ} (h : Inv I D it) (hend : it.dataValid = false) {n : ℕ} {t : ι}
    (hfinal : Final n it.index t)
    (hnext : Iterator.valid it.index = true → (it.onIndex Iterator.next).enterBlock.ScansTo t) :
    it.ScansTo t := by
  have heq := skipEmptyDataBlocksForward_eq hI hbound h.index
  rw [if_neg (by rw [hend]; exact Bool.false_ne_true)] at heq
  cases hvalid : Iterator.valid it.index with
  | false =>
    rw [hvalid, if_neg Bool.false_ne_true] at heq
    obtain ⟨hindex, hset, -, hsave⟩ := it.setDataIterator_spec none
    refine ⟨0, it.setDataIterator none, ?_, hset, ?_, fun _ => ?_⟩
    · rw [heq]
      apply Final.stop
      show (it.setDataIterator none).dataValid = false
      unfold dataValid
      rw [hset]
      rfl
    · rw [hindex, (hfinal.eq_of_not_valid hvalid).2]
    · rintro ((hstatus | ⟨d, hd, hfails⟩) | ⟨hvalid', -⟩)
      · exact hsave (Or.inl hstatus)
      · refine hsave (Or.inr ⟨d, hd, hfails.status_ne_none ?_⟩)
        unfold dataValid at hend
        rw [hd] at hend
        exact hend
      · exact absurd (hvalid.symm.trans hvalid') Bool.false_ne_true
  | true =>
    rw [hvalid, if_pos rfl] at heq
    obtain ⟨m, u, hscan, hdata, hindex, herror⟩ := hnext hvalid
    refine ⟨m, u, heq ▸ hscan, hdata, hindex, fun hinherits hcause => ?_⟩
    have hmoved : Inv I D (it.onIndex Iterator.next) :=
      ⟨(hI.next it.index h.index).1, h.data, h.blockFunction⟩
    obtain ⟨hpending, hinherits', hfirst⟩ := enterBlock_pending hD hmoved hend hinherits
    obtain ⟨hindex', hfunction⟩ := enterBlock_index (it.onIndex Iterator.next)
    apply herror hinherits'
    rw [hindex', hfunction]
    obtain hp | ⟨-, j, hvisits, hj, hfails⟩ := hcause
    · exact Or.inl (hpending hp)
    · -- The failing block is the next one, or one behind it.
      cases hvisits with
      | here => exact Or.inl (hfirst hj hfails)
      | later hv hlater => exact Or.inr ⟨hv, j, hlater, hj, hfails⟩

/-- The scan of the current block leads to its end. -/
theorem ScansTo.of_data (hI : Scannable I) (hbound : BoundsScans I) (hD : Scannable D) {t : ι}
    {n : ℕ} {d e : δ} (hfinal : Final n d e) : ∀ it : TwoLevelIterator ι δ, Inv I D it →
    it.data = some d →
    (∀ it' : TwoLevelIterator ι δ, Inv I D it' → it'.index = it.index → it'.dataValid = false →
      it'.ScansTo t) → it.ScansTo t := by
  induction hfinal with
  | stop hstop =>
    intro it h hd hexhausted
    apply hexhausted it h rfl
    unfold dataValid
    rw [hd]
    exact hstop
  | @step n d e hvalid hnext ih =>
    intro it h hd hexhausted
    have hdata : it.dataValid = true := by
      unfold dataValid
      rw [hd]
      exact hvalid
    have hdata' : (it.onData Iterator.next).data = some (Iterator.next d) := by
      show it.data.map Iterator.next = _
      rw [hd]
      rfl
    -- One entry is passed, and the induction scans the rest of the block.
    obtain ⟨m, u, hscan, hnone, hindex, herror⟩ :=
      ih (it.onData Iterator.next) (keeps_onData hD.next it h).1 hdata' hexhausted
    have heq := skipEmptyDataBlocksForward_eq hI hbound h.index
    rw [if_pos hdata] at heq
    refine ⟨m + 1, u, ?_, hnone, hindex, fun hinherits hcause => herror ?_ ?_⟩
    · rw [heq]
      exact Final.step hdata hscan
    · intro d' hd' hfails
      rw [← Option.some.inj (hdata'.symm.trans hd')]
      exact (hinherits d hd hfails).next hvalid
    · refine hcause.imp_left (Or.imp_right ?_)
      rintro ⟨d', hd', hfails⟩
      obtain rfl := Option.some.inj (hd.symm.trans hd')
      exact ⟨_, hdata', hfails.next hvalid⟩

/-- A scan ends if it does so from the end of the current block. -/
theorem ScansTo.of_exhausted (hI : Scannable I) (hbound : BoundsScans I) (hD : Scannable D) {t : ι}
    {it : TwoLevelIterator ι δ} (h : Inv I D it)
    (hexhausted : ∀ it' : TwoLevelIterator ι δ, Inv I D it' → it'.index = it.index →
      it'.dataValid = false → it'.ScansTo t) : it.ScansTo t := by
  cases hdata : it.data with
  | none =>
    apply hexhausted it h rfl
    unfold dataValid
    rw [hdata]
    rfl
  | some d =>
    obtain ⟨n, e, hfinal⟩ := hD.ends (h.data hdata)
    exact ScansTo.of_data hI hbound hD hfinal it h hdata hexhausted

/-- The scan from every state ends where the index does. -/
theorem scansTo (hI : Scannable I) (hbound : BoundsScans I) (hD : Scannable D) {n : ℕ} {i t : ι}
    (hfinal : Final n i t) : ∀ it : TwoLevelIterator ι δ, Inv I D it → it.index = i → it.ScansTo t := by
  induction hfinal with
  | @stop i hstop =>
    intro it h hindex
    refine ScansTo.of_exhausted hI hbound hD h fun it' h' hindex' hend => ?_
    rw [← hindex, ← hindex'] at hstop ⊢
    refine ScansTo.of_not_dataValid hI hbound hD h' hend (Final.stop hstop) fun hvalid => ?_
    exact absurd (hstop.symm.trans hvalid) Bool.false_ne_true
  | @step n i t hvalid hnext ih =>
    intro it h hindex
    refine ScansTo.of_exhausted hI hbound hD h fun it' h' hindex' hend => ?_
    rw [← hindex, ← hindex'] at hvalid hnext
    refine ScansTo.of_not_dataValid hI hbound hD h' hend (Final.step hvalid hnext) fun _ => ?_
    apply ih _ (keeps_enterBlock hD.seekToFirst _ (keeps_onIndex hI.next it' h').1).1
    rw [(enterBlock_index _).1, ← hindex, ← hindex']
    rfl

/-- Scans of a two-level iterator end. -/
theorem scannable (hI : Scannable I) (hbound : BoundsScans I) (hD : Scannable D) :
    Scannable (Inv I D : TwoLevelIterator ι δ → Prop) where
  toSticky := sticky hI.toSticky hD.toSticky
  ends {it} h := by
    obtain ⟨n, t, hfinal⟩ := hI.ends h.index
    cases hdata : it.dataValid with
    | false => exact ⟨0, it, Final.stop hdata⟩
    | true =>
      obtain ⟨m, u, hscan, -⟩ := scansTo hI hbound hD hfinal it h rfl
      rw [skipEmptyDataBlocksForward_eq hI hbound h.index, if_pos hdata] at hscan
      exact ⟨m, u, hscan⟩

/-- A new two-level iterator fails if its index does, or a block that the index leads to. -/
theorem fails (hI : Scannable I) (hbound : BoundsScans I) (hD : Scannable D)
    {it : TwoLevelIterator ι δ} (h : Inv I D it) (hnew : it.data = none)
    (hcause : Fails it.index ∨ ∃ j, Visits (Iterator.seekToFirst it.index) j ∧
      Iterator.valid j = true ∧ Fails (it.blockFunction (Iterator.value j))) : Fails it := by
  obtain ⟨n, t, hfinal⟩ := hI.ends (hI.seekToFirst it.index h.index).1
  have hmoved := (keeps_onIndex hI.seekToFirst it h).1
  have hend : (it.onIndex Iterator.seekToFirst).dataValid = false := by
    show it.data.any Iterator.valid = false
    rw [hnew]
    rfl
  have hinherits : (it.onIndex Iterator.seekToFirst).Inherits := by
    intro d hd
    rw [show (it.onIndex Iterator.seekToFirst).data = none from hnew] at hd
    exact absurd hd.symm (Option.some_ne_none d)
  obtain ⟨-, hinherits', hfirst⟩ := enterBlock_pending hD hmoved hend hinherits
  obtain ⟨hindex, hfunction⟩ := enterBlock_index (it.onIndex Iterator.seekToFirst)
  have hentered := (keeps_enterBlock hD.seekToFirst _ hmoved).1
  obtain ⟨m, u, hscan, -, hlast, herror⟩ := scansTo hI hbound hD hfinal _ hentered hindex
  refine ⟨m, u, hscan, getStatus_ne_none.mpr ?_⟩
  obtain ⟨m', t', hfinal', hstatus⟩ | ⟨j, hvisits, hj, hfails⟩ := hcause
  · -- The error of the index.
    rw [hlast, (hfinal.unique hfinal').2]
    exact Or.inl hstatus
  · refine Or.inr (Or.inr (herror hinherits' ?_))
    rw [hindex, hfunction]
    cases hvisits with
    | here => exact Or.inl (hfirst hj hfails)
    | later hvalid hlater => exact Or.inr ⟨hvalid, j, hlater, hj, hfails⟩

end TwoLevelIterator

/-! ## Tables -/

/-- The states of a block iterator. -/
def BlockIterator.Inv : BlockIterator → Prop := Sum.elim (fun _ => True) BlockIter.Moving

/-- No operation on a block iterator forgets an error, and its scans come to an end. -/
theorem BlockIterator.scannable : Scannable BlockIterator.Inv :=
  EmptyIterator.scannable.sum BlockIter.scannable

/-- The scan of a block iterator takes no more steps than its block has bytes behind it. -/
theorem BlockIterator.boundsScans : BoundsScans BlockIterator.Inv := by
  refine BoundsScans.sum EmptyIterator.scannable BlockIter.scannable ?_ ?_
  · intro n s t _ hfinal
    rw [(hfinal.eq_of_not_valid rfl).1]
    exact Nat.zero_le _
  · intro n s t hs hfinal
    obtain ⟨m, u, hfinal', hm⟩ := BlockIter.exists_final hs
    rw [(hfinal.unique hfinal').1]
    show m ≤ s.restarts + 1
    omega

/-- The iterator that `Block::NewIterator` returns, for any data, meets the invariant. -/
theorem Block.newIterator_inv (data : Slice) (cmp : Comparator) :
    BlockIterator.Inv ((Block.new data).newIterator cmp) := by
  unfold Block.newIterator
  split_ifs with hsize hrestarts
  · exact trivial
  · exact trivial
  · refine BlockIter.moving_of_current_eq ?_ rfl
    show (Block.new data).restartOffset < 2^32
    unfold Block.new
    dsimp only
    split_ifs
    · exact Nat.two_pow_pos 32
    · exact Nat.mod_lt _ (Nat.two_pow_pos 32)
    · exact Nat.mod_lt _ (Nat.two_pow_pos 32)

/-- The first step of a computation that succeeds. -/
theorem exists_of_bind_eq_ok {ε α β : Type} {x : Except ε α} {f : α → Except ε β} {b : β}
    (h : x >>= f = .ok b) : ∃ a, x = .ok a ∧ f a = .ok b := by
  cases x with
  | error e => exact absurd h (by simp [bind, Except.bind])
  | ok a => exact ⟨a, rfl, h⟩

/-- What `ReadBlock` returns was made of bytes. -/
theorem exists_of_readBlock {snappy : Snappy} {file : RandomAccessFile} {verifyChecksums : Bool}
    {handle : BlockHandle} {b : Block} (h : readBlock snappy file verifyChecksums handle = .ok b) :
    ∃ data, b = Block.new data := by
  obtain ⟨contents, -, h⟩ := exists_of_bind_eq_ok h
  split_ifs at h
  obtain ⟨data, -, h⟩ := exists_of_bind_eq_ok h
  exact ⟨data, (Except.ok.inj h).symm⟩

/-- The block of an index value cannot be read, or its iterator comes to a corrupted entry. -/
def Table.BlockFails (t : Table) (verifyChecksums : Bool) (indexValue : Slice) : Prop :=
  (∃ s, t.blockOf verifyChecksums indexValue = .error s) ∨
    ∃ b, t.blockOf verifyChecksums indexValue = .ok b ∧ Fails (b.newIterator t.comparator)

/-- The index of a table is corrupted, or a data block fails that it leads to. -/
def Table.ReadFails (t : Table) (verifyChecksums : Bool) : Prop :=
  Fails (t.indexBlock.newIterator t.comparator) ∨
    ∃ j, Visits (Iterator.seekToFirst (t.indexBlock.newIterator t.comparator)) j ∧
      Iterator.valid j = true ∧ t.BlockFails verifyChecksums (Iterator.value j)

/-- The iterator that `Table::BlockReader` returns, for any index value, meets the invariant. -/
theorem Table.blockReader_inv (t : Table) (verifyChecksums : Bool) (indexValue : Slice) :
    BlockIterator.Inv (t.blockReader verifyChecksums indexValue) := by
  unfold Table.blockReader
  split
  · rename_i b hb
    obtain ⟨⟨handle, rest⟩, -, hb⟩ := exists_of_bind_eq_ok hb
    obtain ⟨data, rfl⟩ := exists_of_readBlock hb
    exact Block.newIterator_inv data t.comparator
  · exact trivial

/-- `Table::BlockReader` hands on the error of a block. -/
theorem Table.blockReader_fails {t : Table} {verifyChecksums : Bool} {indexValue : Slice}
    (h : t.BlockFails verifyChecksums indexValue) : Fails (t.blockReader verifyChecksums indexValue) := by
  unfold Table.blockReader
  obtain ⟨s, hs⟩ | ⟨b, hb, hfails⟩ := h
  · rw [hs]
    exact BlockIterator.scannable.fails trivial (Option.some_ne_none s)
  · rw [hb]
    exact hfails

/-- The states of a table iterator. -/
def TableIterator.Inv : TableIterator → Prop :=
  TwoLevelIterator.Inv BlockIterator.Inv BlockIterator.Inv

/-- No operation on a table iterator forgets an error, and its scans come to an end. -/
theorem TableIterator.scannable : Scannable TableIterator.Inv :=
  TwoLevelIterator.scannable BlockIterator.scannable BlockIterator.boundsScans BlockIterator.scannable

/-- What `Table::Open` returns has an index block made of bytes. -/
theorem exists_of_open {cmp : Comparator} {snappy : Snappy} {file : RandomAccessFile} {size : ℕ}
    {t : Table} (h : Table.open cmp snappy file size = .ok t) : ∃ data, t.indexBlock = Block.new data := by
  unfold Table.open at h
  split_ifs at h
  obtain ⟨footerInput, -, h⟩ := exists_of_bind_eq_ok h
  obtain ⟨footer, -, h⟩ := exists_of_bind_eq_ok h
  obtain ⟨indexBlock, hindex, h⟩ := exists_of_bind_eq_ok h
  obtain ⟨data, rfl⟩ := exists_of_readBlock hindex
  obtain rfl := Except.ok.inj h
  exact ⟨data, rfl⟩

/-- The iterator that `Table::NewIterator` returns for an open table meets the invariant. -/
theorem Table.newIterator_inv {t : Table} (h : ∃ data, t.indexBlock = Block.new data)
    (verifyChecksums : Bool) : TableIterator.Inv (t.newIterator verifyChecksums) := by
  obtain ⟨data, hdata⟩ := h
  refine ⟨?_, fun hd => absurd hd.symm (Option.some_ne_none _), t.blockReader_inv verifyChecksums⟩
  show BlockIterator.Inv (t.indexBlock.newIterator t.comparator)
  rw [hdata]
  exact Block.newIterator_inv data t.comparator

/-- The scan of a table that cannot be read ends with an error. -/
theorem Table.newIterator_fails {t : Table} (h : ∃ data, t.indexBlock = Block.new data)
    {verifyChecksums : Bool} (hfails : t.ReadFails verifyChecksums) :
    Fails (t.newIterator verifyChecksums) := by
  refine TwoLevelIterator.fails BlockIterator.scannable BlockIterator.boundsScans
    BlockIterator.scannable (Table.newIterator_inv h verifyChecksums) rfl ?_
  obtain hindex | ⟨j, hvisits, hj, hblock⟩ := hfails
  · exact Or.inl hindex
  · exact Or.inr ⟨j, hvisits, hj, Table.blockReader_fails hblock⟩

end LevelDb
