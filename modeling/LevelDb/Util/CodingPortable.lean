import LevelDb.Util.Coding

/-!
# Fixed-width coding without a copy

The branches of `EncodeFixed32`, `EncodeFixed64` and their decoders for machines that are not
little-endian, which take a value apart and put it together byte by byte. A `char` is a signed type of
eight bits. The encoders write what the copy writes. The decoders turn a `char` into an unsigned word
without going through `unsigned char`, so a byte from `0x80` on also sets all the bits above it.
-/

namespace LevelDb

/-! ## The functions -/

/-- `EncodeFixed32`, byte by byte. -/
def encodeFixed32Portable (value : UInt32) : Slice :=
  [(value &&& 0xff).toUInt8, (value >>> 8 &&& 0xff).toUInt8, (value >>> 16 &&& 0xff).toUInt8,
    (value >>> 24 &&& 0xff).toUInt8]

/-- `EncodeFixed64`, byte by byte. -/
def encodeFixed64Portable (value : UInt64) : Slice :=
  [(value &&& 0xff).toUInt8, (value >>> 8 &&& 0xff).toUInt8, (value >>> 16 &&& 0xff).toUInt8,
    (value >>> 24 &&& 0xff).toUInt8, (value >>> 32 &&& 0xff).toUInt8, (value >>> 40 &&& 0xff).toUInt8,
    (value >>> 48 &&& 0xff).toUInt8, (value >>> 56 &&& 0xff).toUInt8]

/-- `static_cast<uint32_t>` of a `char`, which is signed. -/
def charToUInt32 (c : UInt8) : UInt32 := c.toInt8.toInt32.toUInt32

/-- `DecodeFixed32`, byte by byte. -/
def decodeFixed32Portable : Slice → UInt32
  | b0 :: b1 :: b2 :: b3 :: _ =>
    charToUInt32 b0 ||| charToUInt32 b1 <<< 8 ||| charToUInt32 b2 <<< 16 ||| charToUInt32 b3 <<< 24
  | _ => 0

/-- `DecodeFixed64`, from two values of 32 bits. -/
def decodeFixed64Portable (ptr : Slice) : UInt64 :=
  let lo := (decodeFixed32Portable ptr).toUInt64
  let hi := (decodeFixed32Portable (ptr.drop 4)).toUInt64
  hi <<< 32 ||| lo

/-- Every byte that is negative as a `char` has only bytes `0xff` behind it. -/
def SignSafe (s : Slice) : Prop := s.Pairwise fun b later => 0x80 ≤ b → later = 0xff
  deriving Decidable

/-! ## The encoders -/

/-- The mask keeps the low byte of a 32-bit word. -/
theorem toUInt8_and_mask32 (x : UInt32) : (x &&& 0xff).toUInt8 = UInt8.ofNat x.toNat := by
  apply UInt8.toNat_inj.mp
  rw [UInt32.toNat_toUInt8, UInt32.toNat_and, UInt8.toNat_ofNat',
    show (0xff : UInt32).toNat = 2^8 - 1 from rfl, Nat.and_two_pow_sub_one_eq_mod, Nat.mod_mod]

/-- The mask keeps the low byte of a 64-bit word. -/
theorem toUInt8_and_mask64 (x : UInt64) : (x &&& 0xff).toUInt8 = UInt8.ofNat x.toNat := by
  apply UInt8.toNat_inj.mp
  rw [UInt64.toNat_toUInt8, UInt64.toNat_and, UInt8.toNat_ofNat',
    show (0xff : UInt64).toNat = 2^8 - 1 from rfl, Nat.and_two_pow_sub_one_eq_mod, Nat.mod_mod]

/-- Both branches of `EncodeFixed32` write the same bytes. -/
theorem encodeFixed32Portable_eq (value : UInt32) :
    encodeFixed32Portable value = encodeFixed32 value.toNat := by
  unfold encodeFixed32Portable encodeFixed32
  rw [toUInt8_and_mask32, toUInt8_and_mask32, toUInt8_and_mask32, toUInt8_and_mask32,
    UInt32.toNat_shiftRight, UInt32.toNat_shiftRight, UInt32.toNat_shiftRight,
    Nat.shiftRight_eq_div_pow, Nat.shiftRight_eq_div_pow, Nat.shiftRight_eq_div_pow]
  rfl

/-- Both branches of `EncodeFixed64` write the same bytes. -/
theorem encodeFixed64Portable_eq (value : UInt64) :
    encodeFixed64Portable value = encodeFixed64 value.toNat := by
  unfold encodeFixed64Portable encodeFixed64
  simp only [toUInt8_and_mask64, UInt64.toNat_shiftRight, Nat.shiftRight_eq_div_pow]
  rfl

/-! ## The decoders -/

/-- A `char` as an unsigned word, shifted by whole bytes: a negative one is extended by ones. -/
theorem toNat_charToUInt32 (c : UInt8) :
    (charToUInt32 c).toNat = (if c.toNat < 128 then c.toNat else c.toNat + 2^8 * (2^24 - 1)) ∧
    (charToUInt32 c <<< 8).toNat =
      2^8 * (if c.toNat < 128 then c.toNat else c.toNat + 2^8 * (2^16 - 1)) ∧
    (charToUInt32 c <<< 16).toNat =
      2^16 * (if c.toNat < 128 then c.toNat else c.toNat + 2^8 * (2^8 - 1)) ∧
    (charToUInt32 c <<< 24).toNat = 2^24 * c.toNat := by
  have hall : ∀ n : Fin 256, (charToUInt32 (UInt8.ofNat n.val)).toNat =
        (if n.val < 128 then n.val else n.val + 2^8 * (2^24 - 1)) ∧
      (charToUInt32 (UInt8.ofNat n.val) <<< 8).toNat =
        2^8 * (if n.val < 128 then n.val else n.val + 2^8 * (2^16 - 1)) ∧
      (charToUInt32 (UInt8.ofNat n.val) <<< 16).toNat =
        2^16 * (if n.val < 128 then n.val else n.val + 2^8 * (2^8 - 1)) ∧
      (charToUInt32 (UInt8.ofNat n.val) <<< 24).toNat = 2^24 * n.val := by decide +kernel
  have h := hall ⟨c.toNat, c.toNat_lt⟩
  rwa [UInt8.ofNat_toNat] at h

/-- A number of ones absorbs what has no other bits. -/
theorem ones_or {n k : ℕ} (h : k < 2^n) : (2^n - 1) ||| k = 2^n - 1 := by
  have hlt : (2^n - 1) ||| k < 2^n := Nat.or_lt_two_pow (Nat.sub_one_lt (Nat.two_pow_pos n).ne') h
  have hle : 2^n - 1 ≤ (2^n - 1) ||| k := Nat.left_le_or
  omega

/-- Shifting a bitwise `or` to the left shifts both of its arguments. -/
theorem two_pow_mul_or (i x y : ℕ) : 2^i * x ||| 2^i * y = 2^i * (x ||| y) := by
  rw [Nat.mul_comm, Nat.mul_comm _ y, Nat.mul_comm _ (x ||| y), ← Nat.shiftLeft_eq, ← Nat.shiftLeft_eq,
    ← Nat.shiftLeft_eq, Nat.shiftLeft_or_distrib]

/-- A byte or'ed with the bytes above it: if it is extended by ones, they are lost. -/
theorem or_extended {b n k : ℕ} (hb : b < 2^8) (hk : k < 2^n) :
    (if b < 128 then b else b + 2^8 * (2^n - 1)) ||| 2^8 * k =
      b + 2^8 * (if b < 128 then k else 2^n - 1) := by
  by_cases hsign : b < 128
  · rw [if_pos hsign, if_pos hsign, Nat.or_comm, ← Nat.two_pow_add_eq_or_of_lt hb, Nat.add_comm]
  · rw [if_neg hsign, if_neg hsign]
    calc (b + 2^8 * (2^n - 1)) ||| 2^8 * k
        = (2^8 * (2^n - 1) ||| b) ||| 2^8 * k := by
          rw [Nat.add_comm, Nat.two_pow_add_eq_or_of_lt hb]
      _ = (2^8 * (2^n - 1) ||| 2^8 * k) ||| b := by
          rw [Nat.or_assoc, Nat.or_comm b, Nat.or_assoc]
      _ = 2^8 * (2^n - 1) ||| b := by
          rw [two_pow_mul_or, ones_or hk]
      _ = b + 2^8 * (2^n - 1) := by
          rw [← Nat.two_pow_add_eq_or_of_lt hb, Nat.add_comm]

/-- `DecodeFixed32` byte by byte: up to the first byte that is extended the bytes are those of the
string, and above it there are ones. -/
theorem toNat_decodeFixed32Portable (b0 b1 b2 b3 : UInt8) (rest : Slice) :
    (decodeFixed32Portable (b0 :: b1 :: b2 :: b3 :: rest)).toNat =
      b0.toNat + 2^8 * (if b0.toNat < 128 then
        b1.toNat + 2^8 * (if b1.toNat < 128 then
          b2.toNat + 2^8 * (if b2.toNat < 128 then b3.toNat else 2^8 - 1)
        else 2^16 - 1)
      else 2^24 - 1) := by
  have h0 := b0.toNat_lt
  have h1 := b1.toNat_lt
  have h2 := b2.toNat_lt
  have h3 := b3.toNat_lt
  -- The upper two bytes, then the upper three, then all four.
  have htwo : (charToUInt32 b2 <<< 16).toNat ||| (charToUInt32 b3 <<< 24).toNat =
      2^16 * (b2.toNat + 2^8 * (if b2.toNat < 128 then b3.toNat else 2^8 - 1)) := by
    rw [(toNat_charToUInt32 b2).2.2.1, (toNat_charToUInt32 b3).2.2.2,
      show 2^24 * b3.toNat = 2^16 * (2^8 * b3.toNat) by omega, two_pow_mul_or, or_extended h2 h3]
  set upper := b2.toNat + 2^8 * (if b2.toNat < 128 then b3.toNat else 2^8 - 1) with hupper
  have hupper_lt : upper < 2^16 := by
    rw [hupper]
    split <;> omega
  have hthree : (charToUInt32 b1 <<< 8).toNat ||| 2^16 * upper =
      2^8 * (b1.toNat + 2^8 * (if b1.toNat < 128 then upper else 2^16 - 1)) := by
    rw [(toNat_charToUInt32 b1).2.1, show 2^16 * upper = 2^8 * (2^8 * upper) by omega, two_pow_mul_or,
      or_extended h1 hupper_lt]
  set three := b1.toNat + 2^8 * (if b1.toNat < 128 then upper else 2^16 - 1) with hthree_eq
  have hthree_lt : three < 2^24 := by
    rw [hthree_eq]
    split <;> omega
  unfold decodeFixed32Portable
  rw [UInt32.toNat_or, UInt32.toNat_or, UInt32.toNat_or, Nat.or_assoc, Nat.or_assoc, htwo, hthree,
    (toNat_charToUInt32 b0).1, or_extended h0 hthree_lt]

/-- A byte is `0xff` exactly if its number is 255. -/
theorem eq_ff_iff (b : UInt8) : b = 0xff ↔ b.toNat = 255 := by
  rw [← UInt8.toNat_inj]
  rfl

/-- A byte is negative as a `char`. -/
theorem ff_half_le_iff (b : UInt8) : 0x80 ≤ b ↔ 128 ≤ b.toNat := UInt8.le_iff_toNat_le

/-- The two branches of `DecodeFixed32` agree on four bytes exactly when no extension is visible. -/
theorem decodeFixed32Portable_iff (b0 b1 b2 b3 : UInt8) (rest : Slice) :
    (decodeFixed32Portable (b0 :: b1 :: b2 :: b3 :: rest)).toNat =
        decodeFixed32 (b0 :: b1 :: b2 :: b3 :: rest) ↔ SignSafe [b0, b1, b2, b3] := by
  have h0 := b0.toNat_lt
  have h1 := b1.toNat_lt
  have h2 := b2.toNat_lt
  have h3 := b3.toNat_lt
  rw [toNat_decodeFixed32Portable]
  unfold SignSafe decodeFixed32
  simp only [List.pairwise_cons, List.mem_cons, List.not_mem_nil, or_false, forall_eq_or_imp, forall_eq,
    List.Pairwise.nil, and_true, eq_ff_iff, ff_half_le_iff, false_imp_iff, implies_true]
  by_cases hs0 : b0.toNat < 128
  · rw [if_pos hs0]
    by_cases hs1 : b1.toNat < 128
    · rw [if_pos hs1]
      by_cases hs2 : b2.toNat < 128
      · rw [if_pos hs2]
        omega
      · rw [if_neg hs2]
        omega
    · rw [if_neg hs1]
      omega
  · rw [if_neg hs0]
    omega

/-- `DecodeFixed64` puts two values of 32 bits together. -/
theorem toNat_decodeFixed64Portable (ptr : Slice) :
    (decodeFixed64Portable ptr).toNat =
      (decodeFixed32Portable ptr).toNat + 2^32 * (decodeFixed32Portable (ptr.drop 4)).toNat := by
  have hlo := (decodeFixed32Portable ptr).toNat_lt
  have hhi := (decodeFixed32Portable (ptr.drop 4)).toNat_lt
  unfold decodeFixed64Portable
  dsimp only
  rw [UInt64.toNat_or, UInt64.toNat_shiftLeft, UInt32.toNat_toUInt64, UInt32.toNat_toUInt64,
    show (32 : UInt64).toNat % 64 = 32 from rfl, Nat.shiftLeft_eq, Nat.mod_eq_of_lt (by omega),
    Nat.mul_comm, ← Nat.two_pow_add_eq_or_of_lt hlo, Nat.add_comm]

/-- The copy of eight bytes is that of twice four bytes. -/
theorem decodeFixed64_eq (b0 b1 b2 b3 b4 b5 b6 b7 : UInt8) :
    decodeFixed64 [b0, b1, b2, b3, b4, b5, b6, b7] =
      decodeFixed32 [b0, b1, b2, b3, b4, b5, b6, b7] + 2^32 * decodeFixed32 [b4, b5, b6, b7] := by
  unfold decodeFixed64 decodeFixed32
  dsimp only
  omega

/-- The two branches of `DecodeFixed64` agree on eight bytes exactly when no extension is visible in
either half. -/
theorem decodeFixed64Portable_iff (b0 b1 b2 b3 b4 b5 b6 b7 : UInt8) :
    (decodeFixed64Portable [b0, b1, b2, b3, b4, b5, b6, b7]).toNat =
        decodeFixed64 [b0, b1, b2, b3, b4, b5, b6, b7] ↔
      SignSafe [b0, b1, b2, b3] ∧ SignSafe [b4, b5, b6, b7] := by
  rw [← decodeFixed32Portable_iff b0 b1 b2 b3 [b4, b5, b6, b7], ← decodeFixed32Portable_iff b4 b5 b6 b7 [],
    toNat_decodeFixed64Portable, decodeFixed64_eq, List.drop_succ_cons, List.drop_succ_cons,
    List.drop_succ_cons, List.drop_succ_cons, List.drop_zero]
  have hlo := (decodeFixed32Portable [b0, b1, b2, b3, b4, b5, b6, b7]).toNat_lt
  have hlo' := decodeFixed32_lt [b0, b1, b2, b3, b4, b5, b6, b7]
  omega

/-! ## All branches -/

/-- All four combinations of an encoder and a decoder of 32 bits give the value back. -/
def RoundTrips32 (v : UInt32) : Prop :=
  ∀ encoded ∈ [encodeFixed32 v.toNat, encodeFixed32Portable v],
    decodeFixed32 encoded = v.toNat ∧ decodeFixed32Portable encoded = v

/-- All four combinations of an encoder and a decoder of 64 bits give the value back. -/
def RoundTrips64 (v : UInt64) : Prop :=
  ∀ encoded ∈ [encodeFixed64 v.toNat, encodeFixed64Portable v],
    decodeFixed64 encoded = v.toNat ∧ decodeFixed64Portable encoded = v

/-- A value of 32 bits comes back in all ways exactly when its bytes are decoded alike. -/
theorem roundTrips32_iff (v : UInt32) : RoundTrips32 v ↔ SignSafe (encodeFixed32 v.toNat) := by
  have hcopy : decodeFixed32 (encodeFixed32 v.toNat) = v.toNat := by
    have h := decodeFixed32_encodeFixed32 v.toNat_lt []
    rwa [List.append_nil] at h
  have hiff : decodeFixed32Portable (encodeFixed32 v.toNat) = v ↔ SignSafe (encodeFixed32 v.toNat) := by
    have h : (decodeFixed32Portable (encodeFixed32 v.toNat)).toNat =
        decodeFixed32 (encodeFixed32 v.toNat) ↔ SignSafe (encodeFixed32 v.toNat) :=
      decodeFixed32Portable_iff _ _ _ _ []
    rwa [hcopy, UInt32.toNat_inj] at h
  unfold RoundTrips32
  simp only [encodeFixed32Portable_eq, List.mem_cons, List.not_mem_nil, or_false, or_self, forall_eq,
    hcopy, true_and]
  exact hiff

/-- A value of 64 bits comes back in all ways exactly when the bytes of its halves are decoded alike. -/
theorem roundTrips64_iff (v : UInt64) : RoundTrips64 v ↔
    SignSafe ((encodeFixed64 v.toNat).take 4) ∧ SignSafe ((encodeFixed64 v.toNat).drop 4) := by
  have hcopy : decodeFixed64 (encodeFixed64 v.toNat) = v.toNat := decodeFixed64_encodeFixed64 v.toNat_lt
  have hiff : decodeFixed64Portable (encodeFixed64 v.toNat) = v ↔
      SignSafe ((encodeFixed64 v.toNat).take 4) ∧ SignSafe ((encodeFixed64 v.toNat).drop 4) := by
    have h : (decodeFixed64Portable (encodeFixed64 v.toNat)).toNat =
        decodeFixed64 (encodeFixed64 v.toNat) ↔
          SignSafe ((encodeFixed64 v.toNat).take 4) ∧ SignSafe ((encodeFixed64 v.toNat).drop 4) :=
      decodeFixed64Portable_iff _ _ _ _ _ _ _ _
    rwa [hcopy, UInt64.toNat_inj] at h
  unfold RoundTrips64
  simp only [encodeFixed64Portable_eq, List.mem_cons, List.not_mem_nil, or_false, or_self, forall_eq,
    hcopy, true_and]
  exact hiff

/-- When fixed-width coding does not depend on the branches: a value comes back through every encoder
and decoder, and the decoders agree on a string, exactly when in each group of four bytes every byte
from `0x80` on has only bytes `0xff` behind it. -/
theorem fixed_coding_neutral_iff (v : UInt32) (x : UInt64) (b0 b1 b2 b3 b4 b5 b6 b7 : UInt8) :
    (RoundTrips32 v ↔ SignSafe (encodeFixed32 v.toNat)) ∧
    (RoundTrips64 x ↔
      SignSafe ((encodeFixed64 x.toNat).take 4) ∧ SignSafe ((encodeFixed64 x.toNat).drop 4)) ∧
    ((decodeFixed32Portable [b0, b1, b2, b3]).toNat = decodeFixed32 [b0, b1, b2, b3] ↔
      SignSafe [b0, b1, b2, b3]) ∧
    ((decodeFixed64Portable [b0, b1, b2, b3, b4, b5, b6, b7]).toNat =
        decodeFixed64 [b0, b1, b2, b3, b4, b5, b6, b7] ↔
      SignSafe [b0, b1, b2, b3] ∧ SignSafe [b4, b5, b6, b7]) :=
  ⟨roundTrips32_iff v, roundTrips64_iff x, decodeFixed32Portable_iff b0 b1 b2 b3 [],
    decodeFixed64Portable_iff b0 b1 b2 b3 b4 b5 b6 b7⟩

/-- On the portable branch 128 is read back as `0xffffff80`. -/
theorem fixed_coding_128 :
    decodeFixed32Portable (encodeFixed32Portable 128) = 0xffffff80 ∧ ¬RoundTrips32 128 ∧
      (decodeFixed32Portable [128, 0, 0, 0]).toNat ≠ decodeFixed32 [128, 0, 0, 0] := by
  have hread : decodeFixed32Portable (encodeFixed32Portable 128) = 0xffffff80 := by decide
  refine ⟨hread, fun h => ?_, by decide⟩
  have hback := (h (encodeFixed32Portable 128) (by simp)).2
  rw [hread] at hback
  exact absurd hback (by decide)

end LevelDb
