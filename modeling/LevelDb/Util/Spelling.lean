import LevelDb.Lib.Reader
import LevelDb.Util.Varint

/-!
# Spellings of numbers and strings

The byte strings that the decoders of `util/coding.cc` accept, described without the decoders. A varint
need not be the shortest one, and its last byte may have bits above the width of the value: these are
dropped.
-/

namespace LevelDb

open Lib

/-! ## Varints -/

/-- At most so many bytes, of which all but the last have the high bit set. -/
inductive CompleteVarint : ℕ → Slice → Prop
  /-- The last byte. -/
  | last {n : ℕ} {byte : UInt8} (h : byte.toNat < 128) : CompleteVarint (n + 1) [byte]
  /-- More bytes are present. -/
  | more {n : ℕ} {byte : UInt8} {word : Slice} (h : 128 ≤ byte.toNat) (hword : CompleteVarint n word) :
      CompleteVarint (n + 1) (byte :: word)

/-- The number that the groups of seven bits stand for, lowest first. -/
def varintValue : Slice → ℕ
  | [] => 0
  | byte :: word => byte.toNat % 128 + 128 * varintValue word

/-- The spellings of a 32-bit value. -/
def SpellsVarint32 (v : ℕ) (word : Slice) : Prop := CompleteVarint 5 word ∧ v = varintValue word % 2^32

/-- The spellings of a 64-bit value. -/
def SpellsVarint64 (v : ℕ) (word : Slice) : Prop := CompleteVarint 10 word ∧ v = varintValue word % 2^64

/-- The spellings of a string: its length and its bytes. -/
def SpellsString (str : Slice) (word : Slice) : Prop :=
  ∃ length, SpellsVarint32 str.length length ∧ word = length ++ str

/-- Adding a group of bits above the bits that are there, if some of them may not fit. -/
theorem or_shiftLeft_mod {result group shift width : ℕ} (hshift : shift ≤ width) (hresult : result < 2^shift) :
    result ||| (group <<< shift) % 2^width = (result + group * 2^shift) % 2^width := by
  obtain ⟨k, rfl⟩ := Nat.exists_eq_add_of_le hshift
  have hpow : (2 : ℕ)^(shift + k) = 2^shift * 2^k := pow_add 2 shift k
  have hgroup : (group <<< shift) % 2^(shift + k) = 2^shift * (group % 2^k) := by
    rw [Nat.shiftLeft_eq, hpow, Nat.mul_comm, Nat.mul_mod_mul_left]
  have hsum : (result + group * 2^shift) % 2^(shift + k) = result + 2^shift * (group % 2^k) := by
    rw [hpow, Nat.mod_mul, Nat.mul_comm group, Nat.add_mul_mod_self_left, Nat.mod_eq_of_lt hresult,
      Nat.add_mul_div_left _ _ (Nat.two_pow_pos shift), Nat.div_eq_of_lt hresult, Nat.zero_add]
  rw [hgroup, hsum, Nat.or_comm, ← Nat.two_pow_add_eq_or_of_lt hresult, Nat.add_comm]

/-- The low seven bits of a byte are below the next shift. -/
theorem add_group_lt {result shift : ℕ} (byte : UInt8) (hresult : result < 2^shift) :
    result + byte.toNat % 128 * 2^shift < 2^(shift + 7) := by
  have hgroup : byte.toNat % 128 * 2^shift ≤ 127 * 2^shift := Nat.mul_le_mul_right _ (by omega)
  rw [pow_add, show (2 : ℕ)^7 = 128 from rfl]
  omega

/-- The loop of the decoders accepts the complete varints that its shifts allow, with the bits that were
read before them. -/
theorem getVarintLoop_eq_some_iff {width lastShift : ℕ} (hwidth : lastShift < width) :
    ∀ {input rest : Slice} {shift result v n : ℕ}, result < 2^shift → lastShift + 7 = shift + 7 * n →
    (getVarintLoop width lastShift shift result input = some (v, rest) ↔
      ∃ word, (CompleteVarint n word ∧ v = (result + varintValue word * 2^shift) % 2^width) ∧
        input = word ++ rest)
  | [], rest, shift, result, v, n, _, _ => by
    refine iff_of_false (Option.some_ne_none _).symm ?_
    intro h
    obtain ⟨word, ⟨hword, -⟩, hnil⟩ := h
    cases hword with
    | last => exact absurd hnil.symm (List.cons_ne_nil _ _)
    | more => exact absurd hnil.symm (List.cons_ne_nil _ _)
  | byte :: input, rest, shift, result, v, 0, _, hlast => by
    -- There have been too many bytes.
    rw [getVarintLoop, if_neg (by omega)]
    refine iff_of_false (Option.some_ne_none _).symm ?_
    intro h
    obtain ⟨word, ⟨hword, -⟩, -⟩ := h
    cases hword
  | byte :: input, rest, shift, result, v, n + 1, hresult, hlast => by
    have hshift : shift ≤ lastShift := by omega
    rw [getVarintLoop, if_pos hshift]
    by_cases hhigh : byte.toNat &&& 128 = 0
    · have hlt := (and_high_eq_zero_iff byte).mp hhigh
      rw [if_neg (not_not.mpr hhigh), or_shiftLeft_mod (by omega) hresult]
      have hvalue : byte.toNat = varintValue [byte] := by
        unfold varintValue varintValue
        omega
      constructor
      · intro h
        obtain ⟨rfl, rfl⟩ := Prod.mk.inj (Option.some.inj h)
        exact ⟨[byte], ⟨CompleteVarint.last hlt, by rw [← hvalue]⟩, rfl⟩
      · intro h
        obtain ⟨word, ⟨hword, rfl⟩, hinput⟩ := h
        cases hword with
        | last =>
          obtain ⟨rfl, rfl⟩ := List.cons.inj hinput
          rw [← hvalue]
        | more hmore =>
          obtain ⟨rfl, -⟩ := List.cons.inj hinput
          exact absurd hlt (Nat.not_lt.mpr hmore)
    · have hge : 128 ≤ byte.toNat := Nat.le_of_not_lt fun hlt => hhigh ((and_high_eq_zero_iff byte).mpr hlt)
      have hnext := add_group_lt byte hresult
      have hmask : byte.toNat &&& 127 = byte.toNat % 128 := Nat.and_two_pow_sub_one_eq_mod _ 7
      have hresult' : (result + byte.toNat % 128 * 2^shift) % 2^width < 2^(shift + 7) :=
        lt_of_le_of_lt (Nat.mod_le _ _) hnext
      -- The value of the whole varint, from that of the bytes behind the first one.
      have hvalue : ∀ word : Slice,
          ((result + byte.toNat % 128 * 2^shift) % 2^width + varintValue word * 2^(shift + 7)) % 2^width =
            (result + varintValue (byte :: word) * 2^shift) % 2^width := by
        intro word
        rw [Nat.mod_add_mod, varintValue, pow_add]
        congr 1
        ring
      rw [if_pos hhigh, hmask, or_shiftLeft_mod (by omega) hresult,
        getVarintLoop_eq_some_iff hwidth hresult' (show lastShift + 7 = shift + 7 + 7 * n by omega)]
      constructor
      · intro h
        obtain ⟨word, ⟨hword, rfl⟩, rfl⟩ := h
        exact ⟨byte :: word, ⟨CompleteVarint.more hge hword, hvalue word⟩, rfl⟩
      · intro h
        obtain ⟨word, ⟨hword, rfl⟩, hinput⟩ := h
        cases hword with
        | last hlt =>
          obtain ⟨rfl, -⟩ := List.cons.inj hinput
          exact absurd hlt (Nat.not_lt.mpr hge)
        | @more _ _ word _ hword =>
          obtain ⟨rfl, rfl⟩ := List.cons.inj hinput
          exact ⟨word, ⟨hword, (hvalue word).symm⟩, rfl⟩

/-- `GetVarint32` accepts the spellings of 32-bit values. -/
theorem recognizes_getVarint32 : Recognizes getVarint32 SpellsVarint32 := by
  constructor
  intro input rest v
  have hloop := @getVarintLoop_eq_some_iff 32 28 (by decide) input rest 0 0 v 5 (by decide) rfl
  rw [getVarint32_eq]
  simp only [Nat.zero_add, pow_zero, Nat.mul_one] at hloop
  exact hloop

/-- `GetVarint64` accepts the spellings of 64-bit values. -/
theorem recognizes_getVarint64 : Recognizes getVarint64 SpellsVarint64 := by
  constructor
  intro input rest v
  have hloop := @getVarintLoop_eq_some_iff 64 63 (by decide) input rest 0 0 v 10 (by decide) rfl
  simp only [Nat.zero_add, pow_zero, Nat.mul_one] at hloop
  exact hloop

/-! ## Strings -/

/-- `GetLengthPrefixedSlice` accepts the spellings of strings. -/
theorem recognizes_getLengthPrefixedSlice : Recognizes getLengthPrefixedSlice SpellsString := by
  constructor
  intro input rest str
  unfold getLengthPrefixedSlice
  constructor
  · intro h
    cases hlen : getVarint32 input with
    | none =>
      rw [hlen] at h
      exact absurd h.symm (Option.some_ne_none _)
    | some read =>
      obtain ⟨len, after⟩ := read
      rw [hlen] at h
      dsimp only at h
      split_ifs at h with hle
      obtain ⟨rfl, rfl⟩ := Prod.mk.inj (Option.some.inj h)
      obtain ⟨word, hword, rfl⟩ := recognizes_getVarint32.iff.mp hlen
      refine ⟨word ++ after.take len, ⟨word, ?_, rfl⟩, ?_⟩
      · rw [List.length_take, Nat.min_eq_left hle]
        exact hword
      · rw [List.append_assoc, List.take_append_drop]
  · intro h
    obtain ⟨word, ⟨length, hlength, rfl⟩, rfl⟩ := h
    have hlen : getVarint32 (length ++ str ++ rest) = some (str.length, str ++ rest) :=
      recognizes_getVarint32.iff.mpr ⟨length, hlength, List.append_assoc ..⟩
    rw [hlen]
    dsimp only
    rw [if_pos (by rw [List.length_append]; omega), List.take_left, List.drop_left]

end LevelDb
