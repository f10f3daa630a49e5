import LevelDb.Format

/-!
# Fixed-width coding

`EncodeFixed32`, `EncodeFixed64` and their decoders in `util/coding.h` on a little-endian machine,
where all are a copy of the bytes of the value. A `uint32_t` is a natural number; encoding keeps its
low 32 bits.
-/

namespace LevelDb

/-- `EncodeFixed32`. -/
def encodeFixed32 (value : ℕ) : Slice :=
  [UInt8.ofNat value, UInt8.ofNat (value / 2^8), UInt8.ofNat (value / 2^16),
    UInt8.ofNat (value / 2^24)]

/-- `DecodeFixed32`, which reads the first four bytes. -/
def decodeFixed32 : Slice → ℕ
  | b0 :: b1 :: b2 :: b3 :: _ =>
    b0.toNat + 2^8 * b1.toNat + 2^16 * b2.toNat + 2^24 * b3.toNat
  | _ => 0

/-- The value of an `int` after it was assigned a number. -/
def toInt32 (n : ℤ) : ℤ := n.bmod (2^32)

/-- A value of four bytes is a 32-bit word. -/
theorem decodeFixed32_lt (input : Slice) : decodeFixed32 input < 2^32 := by
  unfold decodeFixed32
  split
  · next b0 b1 b2 b3 _ =>
    have h0 := b0.toNat_lt
    have h1 := b1.toNat_lt
    have h2 := b2.toNat_lt
    have h3 := b3.toNat_lt
    omega
  · exact Nat.two_pow_pos 32

/-- A fixed-width value takes four bytes. -/
@[simp] theorem encodeFixed32_length (value : ℕ) : (encodeFixed32 value).length = 4 := rfl

/-- Decoding an encoded value gives it back, whatever follows. -/
theorem decodeFixed32_encodeFixed32 {value : ℕ} (h : value < 2^32) (rest : Slice) :
    decodeFixed32 (encodeFixed32 value ++ rest) = value := by
  simp only [encodeFixed32, List.cons_append, decodeFixed32, UInt8.toNat_ofNat']
  omega

/-- `EncodeFixed64`. -/
def encodeFixed64 (value : ℕ) : Slice :=
  [UInt8.ofNat value, UInt8.ofNat (value / 2^8), UInt8.ofNat (value / 2^16),
    UInt8.ofNat (value / 2^24), UInt8.ofNat (value / 2^32), UInt8.ofNat (value / 2^40),
    UInt8.ofNat (value / 2^48), UInt8.ofNat (value / 2^56)]

/-- `DecodeFixed64`, which reads the first eight bytes. -/
def decodeFixed64 : Slice → ℕ
  | b0 :: b1 :: b2 :: b3 :: b4 :: b5 :: b6 :: b7 :: _ =>
    b0.toNat + 2^8 * b1.toNat + 2^16 * b2.toNat + 2^24 * b3.toNat + 2^32 * b4.toNat +
      2^40 * b5.toNat + 2^48 * b6.toNat + 2^56 * b7.toNat
  | _ => 0

/-- A value of 64 bits takes eight bytes. -/
@[simp] theorem encodeFixed64_length (value : ℕ) : (encodeFixed64 value).length = 8 := rfl

/-- Decoding an encoded value of 64 bits gives it back, whatever follows. -/
theorem decodeFixed64_encodeFixed64_append {value : ℕ} (h : value < 2^64) (rest : Slice) :
    decodeFixed64 (encodeFixed64 value ++ rest) = value := by
  simp only [encodeFixed64, List.cons_append, decodeFixed64, UInt8.toNat_ofNat']
  omega

/-- Decoding an encoded value of 64 bits gives it back. -/
theorem decodeFixed64_encodeFixed64 {value : ℕ} (h : value < 2^64) :
    decodeFixed64 (encodeFixed64 value) = value := by
  have happend := decodeFixed64_encodeFixed64_append h []
  rwa [List.append_nil] at happend

end LevelDb
