import LevelDb.Table.BlockImage

/-!
# Bounds of a block

What the checks of `table/block.cc` make sure for arbitrary bytes. `DecodeEntry` compares with a sum of
32 bits, and the constructor of `Block` computes the offset of the restart array in 32 bits: both can
wrap around. The exact conditions under which the results are in bounds nevertheless are in terms of the
bytes.
-/

namespace LevelDb

/-! ## Entries -/

/-- The offset of the restart array is a 32-bit word. -/
theorem Block.restartOffset_lt (data : Slice) : (Block.new data).restartOffset < 2^32 := by
  unfold Block.new
  dsimp only
  split_ifs
  · exact Nat.two_pow_pos 32
  · exact Nat.mod_lt _ (Nat.two_pow_pos 32)
  · exact Nat.mod_lt _ (Nat.two_pow_pos 32)

/-- What an iterator over a block has. -/
theorem Block.newIterator_eq_inr {b : Block} {cmp : Comparator} {it : BlockIter}
    (h : b.newIterator cmp = .inr it) :
    8 ≤ b.size ∧ it.data = b.data ∧ it.restarts = b.restartOffset ∧ it.numRestarts = b.numRestarts ∧
      it.numRestarts ≠ 0 := by
  unfold Block.newIterator at h
  split_ifs at h with hsize hzero
  obtain rfl := Sum.inr.inj h
  exact ⟨Nat.le_of_not_lt hsize, rfl, rfl, rfl, hzero⟩

/-- The key and the value of the entry at an offset end before the restart array, if `DecodeEntry`
accepts it. -/
def BlockIter.EntryInside (it : BlockIter) (offset : ℕ) : Prop :=
  ∀ {shared nonShared valueLength : ℕ} {rest : Slice},
    decodeEntry (it.entriesFrom offset) = some (shared, nonShared, valueLength, rest) →
    nonShared + valueLength ≤ rest.length

/-- The lengths at an offset have a sum that does not wrap around, or wraps to more than there is. -/
def BlockIter.LengthsChecked (it : BlockIter) (offset : ℕ) : Prop :=
  ∀ {shared nonShared valueLength : ℕ} {rest : Slice}, 3 ≤ (it.entriesFrom offset).length →
    decodeLengths (it.entriesFrom offset) = some (shared, nonShared, valueLength, rest) →
    nonShared + valueLength < 2^32 ∨ rest.length < nonShared + valueLength - 2^32

/-- The lengths are 32-bit words, and behind them are fewer bytes. -/
theorem decodeLengths_bounds {input rest : Slice} {shared nonShared valueLength : ℕ}
    (h : decodeLengths input = some (shared, nonShared, valueLength, rest)) :
    nonShared < 2^32 ∧ valueLength < 2^32 ∧ rest.length + 3 ≤ input.length := by
  unfold decodeLengths at h
  obtain ⟨⟨shared', rest1⟩, h1, h⟩ := Option.bind_eq_some_iff.mp h
  obtain ⟨⟨nonShared', rest2⟩, h2, h⟩ := Option.bind_eq_some_iff.mp h
  obtain ⟨⟨valueLength', rest3⟩, h3, h⟩ := Option.map_eq_some_iff.mp h
  simp only [Prod.mk.injEq] at h
  obtain ⟨-, rfl, rfl, rfl⟩ := h
  have hlength1 := getVarint32_length h1
  have hlength2 := getVarint32_length h2
  have hlength3 := getVarint32_length h3
  exact ⟨getVarint32_lt h2, getVarint32_lt h3, by omega⟩

/-- An entry that is accepted has lengths that pass the check. -/
theorem decodeLengths_of_decodeEntry {input rest : Slice} {shared nonShared valueLength : ℕ}
    (h : decodeEntry input = some (shared, nonShared, valueLength, rest)) :
    3 ≤ input.length ∧ decodeLengths input = some (shared, nonShared, valueLength, rest) ∧
      ¬rest.length % 2^32 < (nonShared + valueLength) % 2^32 := by
  have hthree : 3 ≤ input.length := by
    match input, h with
    | [], h => exact absurd h.symm (Option.some_ne_none _)
    | [_], h => exact absurd h.symm (Option.some_ne_none _)
    | [_, _], h => exact absurd h.symm (Option.some_ne_none _)
    | _ :: _ :: _ :: _, _ => exact Nat.le_add_left 3 _
  rw [decodeEntry_eq hthree] at h
  obtain ⟨⟨shared', nonShared', valueLength', rest'⟩, hlengths, hcheck⟩ := Option.bind_eq_some_iff.mp h
  dsimp only at hcheck
  split_ifs at hcheck with hsmall
  simp only [Option.some.injEq, Prod.mk.injEq] at hcheck
  obtain ⟨rfl, rfl, rfl, rfl⟩ := hcheck
  exact ⟨hthree, hlengths, hsmall⟩

/-- An entry of a block ends before the restart array unless the sum of its lengths wraps around and
passes the check. -/
theorem entryInside_iff {data : Slice} {cmp : Comparator} {it : BlockIter}
    (hit : (Block.new data).newIterator cmp = .inr it) (offset : ℕ) :
    it.EntryInside offset ↔ it.LengthsChecked offset := by
  obtain ⟨-, -, hrestarts, -, -⟩ := Block.newIterator_eq_inr hit
  have hlt : (it.entriesFrom offset).length < 2^32 := by
    have hoffset := Block.restartOffset_lt data
    unfold BlockIter.entriesFrom
    rw [List.length_drop, List.length_take, hrestarts]
    omega
  constructor
  · -- A sum that wraps around without being noticed is accepted.
    intro hinside shared nonShared valueLength rest hthree hlengths
    obtain ⟨hnonShared, hvalue, hrest⟩ := decodeLengths_bounds hlengths
    by_contra hwraps
    have hdecode : decodeEntry (it.entriesFrom offset) = some (shared, nonShared, valueLength, rest) := by
      rw [decodeEntry_eq hthree, hlengths]
      exact if_neg (by omega)
    have hle := hinside hdecode
    omega
  · intro hchecked shared nonShared valueLength rest hdecode
    obtain ⟨hthree, hlengths, hcheck⟩ := decodeLengths_of_decodeEntry hdecode
    obtain ⟨hnonShared, hvalue, hrest⟩ := decodeLengths_bounds hlengths
    have hfits := hchecked hthree hlengths
    omega

/-- An entry with lengths 0, 1 and 1, whose key and value are there. -/
theorem entryInside_iff_example :
    ∃ it, (Block.new [0, 1, 1, 97, 98, 0, 0, 0, 0, 1, 0, 0, 0]).newIterator bytewiseComparator = .inr it ∧
      (it.EntryInside 0 ↔ it.LengthsChecked 0) :=
  ⟨_, rfl, @entryInside_iff [0, 1, 1, 97, 98, 0, 0, 0, 0, 1, 0, 0, 0] bytewiseComparator _ rfl 0⟩

/-- An entry with lengths 0, `2^32 - 1` and 1, behind which there is nothing. -/
theorem entry_reaches_outside :
    ∃ it, (Block.new [0, 255, 255, 255, 255, 15, 1, 0, 0, 0, 0, 1, 0, 0, 0]).newIterator bytewiseComparator =
      .inr it ∧ 0 < it.restarts ∧ ¬it.EntryInside 0 := by
  refine ⟨_, rfl, by decide, fun hinside => ?_⟩
  have hle := @hinside 0 (2^32 - 1) 1 [] (by decide)
  exact absurd hle (by decide)

/-! ## The restart array -/

/-- The restart array of a block ends with the block, if there is an iterator: every restart point can be
read. -/
def RestartsInside (data : Slice) (cmp : Comparator) : Prop :=
  ∀ {it : BlockIter}, (Block.new data).newIterator cmp = .inr it →
    it.restarts + 4 * (it.numRestarts + 1) = data.length ∧
      ∀ i < it.numRestarts, it.restarts + 4 * i + 4 ≤ data.length

/-- The number in the last four bytes. -/
def restartCount (data : Slice) : ℕ := decodeFixed32 (data.drop (data.length - 4))

/-- The constructor of `Block` notices all that is wrong: the block has no iterator over entries, or the
restart array fits, or its offset wraps around to behind the block. -/
def RestartsChecked (data : Slice) : Prop :=
  data.length < 8 ∨ restartCount data = 0 ∨
    (4 * (restartCount data + 1) ≤ data.length ∧ data.length < 4 * (restartCount data + 1) + 2^32) ∨
    data.length - 4 < (data.length + 2^34 - 4 * (restartCount data + 1)) % 2^32

/-- The constructor of `Block`, by the number in the last four bytes. -/
theorem Block.new_eq (data : Slice) :
    Block.new data =
      if data.length < 4 then { data := data, size := 0 }
      else if data.length - 4 < (data.length + 2^34 - 4 * (restartCount data + 1)) % 2^32 then
        { data := data
          size := 0
          restartOffset := (data.length + 2^34 - 4 * (restartCount data + 1)) % 2^32 }
      else
        { data := data
          size := data.length
          restartOffset := (data.length + 2^34 - 4 * (restartCount data + 1)) % 2^32 } := by
  have hlt : restartCount data < 2^32 := decodeFixed32_lt _
  have hoffset : (data.length + 2^64 - (1 + restartCount data) % 2^32 * 4) % 2^32 =
      (data.length + 2^34 - 4 * (restartCount data + 1)) % 2^32 := by omega
  rw [← hoffset]
  rfl

/-- The restart array is inside of the block unless its offset wraps around without being noticed. -/
theorem restartsInside_iff (data : Slice) (cmp : Comparator) :
    RestartsInside data cmp ↔ RestartsChecked data := by
  have hlt : restartCount data < 2^32 := decodeFixed32_lt _
  have hnew := Block.new_eq data
  unfold RestartsInside RestartsChecked
  generalize hoffset : (data.length + 2^34 - 4 * (restartCount data + 1)) % 2^32 = offset at hnew ⊢
  split_ifs at hnew with hfour hwraps
  · -- The block is too short for a number of restart points.
    refine iff_of_true ?_ (Or.inl (by omega))
    intro it hit
    rw [hnew] at hit
    exact absurd (Block.newIterator_eq_inr hit).1 (Nat.not_succ_le_zero 7)
  · refine iff_of_true ?_ (Or.inr (Or.inr (Or.inr hwraps)))
    intro it hit
    rw [hnew] at hit
    exact absurd (Block.newIterator_eq_inr hit).1 (Nat.not_succ_le_zero 7)
  · rw [hnew]
    have hcount : (⟨data, data.length, offset⟩ : Block).numRestarts = restartCount data := rfl
    constructor
    · intro hinside
      by_contra hnot
      simp only [not_or] at hnot
      obtain ⟨height, hzero, hfits, -⟩ := hnot
      have hiterator : (⟨data, data.length, offset⟩ : Block).newIterator cmp = .inr
          { comparator := cmp
            data := data
            restarts := offset
            numRestarts := restartCount data
            current := offset
            restartIndex := restartCount data } := by
        unfold Block.newIterator
        rw [hcount, if_neg height, if_neg hzero]
      have hend := (hinside hiterator).1
      dsimp only at hend
      omega
    · intro hchecked it hit
      obtain ⟨height, -, hrestarts, hnum, hzero⟩ := Block.newIterator_eq_inr hit
      dsimp only at height hrestarts
      rw [hnum, hcount] at hzero ⊢
      have hend : it.restarts + 4 * (restartCount data + 1) = data.length := by omega
      refine ⟨hend, fun i hi => ?_⟩
      omega

/-- One restart point, behind an entry of three bytes. -/
theorem restartsInside_iff_example :
    RestartsInside [0, 0, 0, 0, 0, 0, 0, 1, 0, 0, 0] bytewiseComparator ∧
      RestartsChecked [0, 0, 0, 0, 0, 0, 0, 1, 0, 0, 0] := by
  have hchecked : RestartsChecked [0, 0, 0, 0, 0, 0, 0, 1, 0, 0, 0] := Or.inr (Or.inr (Or.inl (by decide)))
  exact ⟨(restartsInside_iff _ _).mpr hchecked, hchecked⟩

/-- Eight bytes that claim to have `2^30` restart points. -/
theorem restarts_reach_outside :
    ¬RestartsInside [0, 0, 0, 0, 0, 0, 0, 64] bytewiseComparator := by
  intro hinside
  have hend := (@hinside _ rfl).1
  exact absurd hend (by decide)

end LevelDb
