import LevelDb.SnappySrc.ArrayWriter

/-!
# Uncompressing strings

`Uncompress` and `IsValidCompressedBuffer` of a flat array. `SnappyDecompressionValidator` only counts, and
accepts what `RawUncompress` does as long as its counter does not wrap. `Uncompress` looks at the length with a function of its own, which is
stricter: the fifth byte of a length may not have bits that are shifted out of a word.
-/

namespace LevelDb.SnappySrc

open Lib

/-! ## Lengths -/

/-- The steps of `Varint::Parse32WithLimit`, from a shift on. -/
def parse32Loop (shift result : ℕ) : Slice → Option (ℕ × Slice)
  | [] => none
  | b :: rest =>
    let result := result ||| ((b.toNat &&& 127) <<< shift) % 2^32
    if shift < 28 then
      if b.toNat < 128 then some (result, rest) else parse32Loop (shift + 7) result rest
    else if b.toNat < 16 then some (result, rest)
    -- Value is too long to be a varint32
    else none

/-- `Varint::Parse32WithLimit` -/
def parse32WithLimit (input : Slice) : Option (ℕ × Slice) := parse32Loop 0 0 input

/-- `GetUncompressedLength` of a flat array. -/
def getUncompressedLength (compressed : Slice) : Option ℕ := (parse32WithLimit compressed).map Prod.fst

/-! ## Validation -/

/-- `Uncompress`: what it returns, and the string. Strings have at most `maxSize` bytes. -/
def uncompress (maxSize : ℕ) (scratch compressed uncompressed : Slice) : Option (Bool × Slice) :=
  match getUncompressedLength compressed with
  | none => some (false, uncompressed)
  | some ulength =>
    -- Protect against possible DoS attack
    if maxSize < ulength + uncompressed.length then some (false, uncompressed)
    else rawUncompress byteArraySource scratch compressed (resize 0 ulength uncompressed)

/-! ## Properties -/

/-- A length takes five bytes, and its fifth byte has bits that are not in the word. -/
def ExcessBits (input : Slice) : Prop :=
  ∃ v rest, getVarint32PtrFallback input = some (v, rest) ∧ input.length = rest.length + 5 ∧
    16 ≤ (input.getD 4 0).toNat

/-- A varint is accepted unless it has too many bits. The shifts are multiples of 7. -/
theorem parse32Loop_eq_some_iff : ∀ (k : ℕ) (result v : ℕ) (input rest : Slice), k ≤ 4 →
    (parse32Loop (28 - 7 * k) result input = some (v, rest) ↔
      getVarintLoop 32 28 (28 - 7 * k) result input = some (v, rest) ∧
        (input.length = rest.length + (k + 1) → (input.getD k 0).toNat < 16))
  | k, result, v, [], rest, _ => by
    rw [parse32Loop, getVarintLoop]
    exact ⟨fun h => (by cases h), fun h => h.1⟩
  | k, result, v, b :: tail, rest, hk => by
    have hlow : b.toNat < 128 → b.toNat &&& 127 = b.toNat := fun hlt =>
      (Nat.and_two_pow_sub_one_eq_mod b.toNat 7).trans (Nat.mod_eq_of_lt hlt)
    have hhigh := and_high_eq_zero_iff b
    rw [parse32Loop, getVarintLoop, if_pos (show 28 - 7 * k ≤ 28 by omega)]
    cases k with
    | zero =>
      rw [if_neg (by omega), List.getD_cons_zero, List.length_cons]
      split_ifs with hsmall hmore hmore
      · exact absurd (hhigh.mpr (by omega)) hmore
      · rw [hlow (by omega)]
        exact ⟨fun h => ⟨h, fun _ => hsmall⟩, fun h => h.1⟩
      · -- a sixth byte is not looked at
        have hnone : ∀ r, getVarintLoop 32 28 (28 - 7 * 0 + 7) r tail = none := fun r => by
          cases tail with
          | nil => rw [getVarintLoop]
          | cons b tail => rw [getVarintLoop, if_neg (by omega)]
        rw [hnone]
        exact ⟨fun h => (by cases h), fun h => (by cases h.1)⟩
      · constructor
        · intro h
          cases h
        · rintro ⟨h, hbits⟩
          obtain ⟨-, rfl⟩ := Prod.mk.inj (Option.some.inj h)
          exact absurd (hbits (by omega)) hsmall
    | succ k =>
      rw [if_pos (by omega), List.getD_cons_succ, List.length_cons]
      split_ifs with hlast hmore hmore
      · exact absurd (hhigh.mpr hlast) hmore
      · rw [hlow hlast]
        refine ⟨fun h => ⟨h, fun hlength => ?_⟩, fun h => h.1⟩
        obtain ⟨-, rfl⟩ := Prod.mk.inj (Option.some.inj h)
        omega
      · have ih := parse32Loop_eq_some_iff k (result ||| ((b.toNat &&& 127) <<< (28 - 7 * (k + 1))) % 2^32) v
          tail rest (by omega)
        rw [show 28 - 7 * (k + 1) + 7 = 28 - 7 * k by omega, ih]
        refine and_congr_right fun _ => imp_congr_left ?_
        omega
      · exact absurd (hhigh.mp (not_not.mp hmore)) hlast

/-- The length of a flat array is that of a source, unless it has too many bits. -/
theorem getUncompressedLength_eq_some_iff (compressed : Slice) (n : ℕ) :
    getUncompressedLength compressed = some n ↔
      (∃ rest, getVarint32PtrFallback compressed = some (n, rest)) ∧ ¬ExcessBits compressed := by
  have hloop := fun rest => parse32Loop_eq_some_iff 4 0 n compressed rest le_rfl
  unfold getUncompressedLength parse32WithLimit
  rw [Option.map_eq_some_iff]
  constructor
  · rintro ⟨⟨_, rest⟩, hparse, rfl⟩
    obtain ⟨hvarint, hbits⟩ := (hloop rest).mp hparse
    refine ⟨⟨rest, hvarint⟩, ?_⟩
    rintro ⟨v, rest', hvarint', hlength, hlarge⟩
    obtain ⟨-, rfl⟩ := Prod.mk.inj (Option.some.inj (hvarint.symm.trans hvarint'))
    have := hbits hlength
    omega
  · rintro ⟨⟨rest, hvarint⟩, hexcess⟩
    refine ⟨(n, rest), (hloop rest).mpr ⟨hvarint, fun hlength => ?_⟩, rfl⟩
    by_contra hlarge
    exact hexcess ⟨n, rest, hvarint, hlength, not_lt.mp hlarge⟩

/-- What is uncompressed has a length that a word can hold. -/
theorem Uncompresses.length_lt {data out : Slice} (h : Uncompresses data out) : out.length < 2^32 := by
  obtain ⟨rest, _, hlength, -⟩ := h
  exact getVarintLoop_lt (by decide) hlength

end LevelDb.SnappySrc
