import LevelDb.Log.Writer

/-!
# The checksum, bit by bit

The reflected CRC-32C in its defining form: the bits of the data are fed into a 32-bit register one
after the other, the lowest bit of each byte first, and whenever the bit that leaves the register
differs from the one that is fed, the polynomial is added. `crc32c::Extend`, which works on bytes and
words by tables, computes it, so that the checksums the writer prepares for the record types fit those
that the reader computes.
-/

namespace LevelDb.Crc32c

/-- The polynomial of CRC-32C with its bits reversed. -/
def polynomial : ℕ := 0x82f63b78

/-- The register after one bit of the data. -/
def feedBit (l : ℕ) (bit : Bool) : ℕ := l / 2 ^^^ if (l.testBit 0 ^^ bit) then polynomial else 0

/-- The low bits of a number, lowest first. -/
def lowBits (n x : ℕ) : List Bool := (List.range n).map x.testBit

/-- The bits of a string in the order in which they are fed. -/
def bits (data : Slice) : List Bool := data.flatMap fun b => lowBits 8 b.toNat

/-- The checksum of data that continues a string with a checksum, bit by bit. -/
def extendBitwise (crc : ℕ) (data : Slice) : ℕ :=
  (bits data).foldl feedBit (crc ^^^ 0xffffffff) ^^^ 0xffffffff

/-! ## Bits and bytes -/

/-- The lowest bit, then the others. -/
theorem lowBits_succ (n x : ℕ) : lowBits (n + 1) x = x.testBit 0 :: lowBits n (x / 2) := by
  unfold lowBits
  rw [List.range_succ_eq_map, List.map_cons, List.map_map]
  refine congrArg _ (List.map_congr_left fun i _ => ?_)
  exact Nat.testBit_succ x i

/-- A bit may be fed, or be added to the register before the step, with the bits that come after it. -/
theorem bitStep_xor_eq_feedBit (l x : ℕ) : bitStep (l ^^^ x) = feedBit l (x.testBit 0) ^^^ x / 2 := by
  have hbit : ((l ^^^ x) % 2 = 1) ↔ (l.testBit 0 ^^ x.testBit 0) = true := by
    rw [← Nat.testBit_xor, Nat.testBit_zero, decide_eq_true_eq]
  unfold bitStep feedBit polynomial
  rw [Nat.xor_div_two]
  simp only [hbit]
  ac_rfl

/-- Feeding the bits of a number is adding it to the register and taking as many steps. -/
theorem foldl_lowBits : ∀ (n l x : ℕ), x < 2^n →
    (lowBits n x).foldl feedBit l = bitStep^[n] (l ^^^ x)
  | 0, l, x, h => by
    obtain rfl : x = 0 := by omega
    exact (Nat.xor_zero l).symm
  | n + 1, l, x, h => by
    rw [lowBits_succ, List.foldl_cons, foldl_lowBits n _ (x / 2) (by omega), Function.iterate_succ_apply,
      bitStep_xor_eq_feedBit]

/-- The bits of the data do what its byte steps do. -/
theorem foldl_bits (data : Slice) (l : ℕ) : (bits data).foldl feedBit l = data.foldl step1 l := by
  induction data generalizing l with
  | nil => rfl
  | cons b data ih =>
    have hbyte : (lowBits 8 b.toNat).foldl feedBit l = step1 l b := by
      rw [foldl_lowBits 8 l b.toNat b.toNat_lt, step1_eq]
      rfl
    rw [bits, List.flatMap_cons, List.foldl_append, hbyte]
    exact ih (step1 l b)

/-- `Extend` is the checksum bit by bit, wherever the data lies. -/
theorem extend_eq_extendBitwise {crc : ℕ} (hcrc : crc < 2^32) (address : ℕ) (data : Slice) :
    extend address crc data = extendBitwise crc data := by
  rw [extend_eq_foldl hcrc, extendBitwise, foldl_bits]

/-- The checksum of a record type, extended by a payload, is that of the type byte and the payload. -/
theorem extend_typeCrc (address address' : ℕ) (t : Log.RecordType) (payload : Slice) :
    extend address (Log.typeCrc t) payload = value address' (UInt8.ofNat t.toNat :: payload) :=
  extend_append (by decide) address 0 address' [UInt8.ofNat t.toNat] payload

/-- The table-driven checksum is the one bit by bit, for all data at all addresses and from all initial
values. It can be computed in parts, so that the writer's checksum of a record is the reader's. Masking
can be undone. -/
theorem table_driven_eq_bitwise :
    (∀ (address : ℕ) (crc : UInt32) (data : Slice),
      extend address crc.toNat data = extendBitwise crc.toNat data) ∧
    (∀ (address address' address'' : ℕ) (crc : UInt32) (a b : Slice),
      extend address (extend address' crc.toNat a) b = extend address'' crc.toNat (a ++ b)) ∧
    (∀ (address address' : ℕ) (t : Log.RecordType) (payload : Slice),
      extend address (Log.typeCrc t) payload = value address' (UInt8.ofNat t.toNat :: payload)) ∧
    (∀ x : UInt32, unmask (mask x.toNat) = x.toNat) :=
  ⟨fun address crc data => extend_eq_extendBitwise crc.toNat_lt address data,
    fun address address' address'' crc => extend_append crc.toNat_lt address address' address'',
    extend_typeCrc, fun x => unmask_mask x.toNat_lt⟩

end LevelDb.Crc32c
