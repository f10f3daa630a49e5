import LevelDb.Util.Coding
import Mathlib.Tactic.Ring

/-!
# Variable-length coding

The varints and the length-prefixed strings of `util/coding.cc`. A value is cut into groups of seven
bits, lowest first, and every byte but the last one has its high bit set. `EncodeVarint32` is unrolled
in the source, `EncodeVarint64` is a loop, and the two agree (`encodeVarint32_eq`). A decoder returns
the value and what follows it.
-/

namespace LevelDb

/-! ## Encoding -/

/-- `EncodeVarint32`: an unsigned character keeps the low eight bits. -/
def encodeVarint32 (v : ℕ) : Slice :=
  if v < 2^7 then [UInt8.ofNat v]
  else if v < 2^14 then [UInt8.ofNat (v ||| 128), UInt8.ofNat (v >>> 7)]
  else if v < 2^21 then
    [UInt8.ofNat (v ||| 128), UInt8.ofNat (v >>> 7 ||| 128), UInt8.ofNat (v >>> 14)]
  else if v < 2^28 then
    [UInt8.ofNat (v ||| 128), UInt8.ofNat (v >>> 7 ||| 128), UInt8.ofNat (v >>> 14 ||| 128),
      UInt8.ofNat (v >>> 21)]
  else
    [UInt8.ofNat (v ||| 128), UInt8.ofNat (v >>> 7 ||| 128), UInt8.ofNat (v >>> 14 ||| 128),
      UInt8.ofNat (v >>> 21 ||| 128), UInt8.ofNat (v >>> 28)]

/-- `EncodeVarint64`. -/
def encodeVarint64 (v : ℕ) : Slice :=
  if 128 ≤ v then UInt8.ofNat (v &&& (128 - 1) ||| 128) :: encodeVarint64 (v >>> 7)
  else [UInt8.ofNat v]
termination_by v
decreasing_by
  rw [Nat.shiftRight_eq_div_pow]
  omega

/-- `PutLengthPrefixedSlice`, which keeps the low 32 bits of the length. -/
def putLengthPrefixedSlice (value : Slice) : Slice :=
  encodeVarint32 (value.length % 2^32) ++ value

/-! ## Decoding -/

/-- The loop of `GetVarint32PtrFallback` and `GetVarint64Ptr`, for values of a width and shifts up to a
last one. -/
def getVarintLoop (width lastShift : ℕ) : ℕ → ℕ → Slice → Option (ℕ × Slice)
  | _, _, [] => none
  | shift, result, byte :: rest =>
    if shift ≤ lastShift then
      if byte.toNat &&& 128 ≠ 0 then
        -- More bytes are present
        getVarintLoop width lastShift (shift + 7)
          (result ||| ((byte.toNat &&& 127) <<< shift) % 2^width) rest
      else some (result ||| (byte.toNat <<< shift) % 2^width, rest)
    else none

/-- `GetVarint32PtrFallback`. -/
def getVarint32PtrFallback (input : Slice) : Option (ℕ × Slice) := getVarintLoop 32 28 0 0 input

/-- `GetVarint32Ptr` and `GetVarint32`: a single byte is looked at first. -/
def getVarint32 : Slice → Option (ℕ × Slice)
  | [] => getVarint32PtrFallback []
  | byte :: rest =>
    if byte.toNat &&& 128 = 0 then some (byte.toNat, rest)
    else getVarint32PtrFallback (byte :: rest)

/-- `GetVarint64Ptr` and `GetVarint64`. -/
def getVarint64 (input : Slice) : Option (ℕ × Slice) := getVarintLoop 64 63 0 0 input

/-- `GetLengthPrefixedSlice` on a `Slice`. -/
def getLengthPrefixedSlice (input : Slice) : Option (Slice × Slice) :=
  match getVarint32 input with
  | some (len, rest) => if len ≤ rest.length then some (rest.take len, rest.drop len) else none
  | none => none

/-! ## Bytes of a varint -/

/-- Setting the high bit of a byte. -/
theorem or_high_eq {b : ℕ} (h : b < 256) : b ||| 128 = b % 128 + 128 := by
  have hall : ∀ b : Fin 256, b.val ||| 128 = b.val % 128 + 128 := by decide +kernel
  exact hall ⟨b, h⟩

/-- Testing the high bit of a byte. -/
theorem and_high_eq_zero_iff (byte : UInt8) : byte.toNat &&& 128 = 0 ↔ byte.toNat < 128 := by
  have hall : ∀ b : Fin 256, b.val &&& 128 = 0 ↔ b.val < 128 := by decide +kernel
  exact hall ⟨byte.toNat, byte.toNat_lt⟩

/-- The byte of a group that is not the last one. -/
theorem toNat_ofNat_or_high (v : ℕ) : (UInt8.ofNat (v ||| 128)).toNat = v % 128 + 128 := by
  rw [UInt8.toNat_ofNat', Nat.or_mod_two_pow, show 128 % 2^8 = 128 from rfl,
    or_high_eq (Nat.mod_lt _ (by decide))]
  omega

/-- The byte of the last group. -/
theorem toNat_ofNat_of_lt {v : ℕ} (h : v < 128) : (UInt8.ofNat v).toNat = v := by
  rw [UInt8.toNat_ofNat']
  omega

/-- The loop of `EncodeVarint64` writes one byte for seven bits and goes on with the others. -/
theorem encodeVarint64_eq (v : ℕ) : encodeVarint64 v =
    if 128 ≤ v then UInt8.ofNat (v ||| 128) :: encodeVarint64 (v / 128) else [UInt8.ofNat v] := by
  rw [encodeVarint64]
  split_ifs
  · rw [Nat.shiftRight_eq_div_pow]
    refine congrArg (· :: _) (UInt8.toNat_inj.mp ?_)
    rw [toNat_ofNat_or_high, toNat_ofNat_or_high, Nat.and_two_pow_sub_one_eq_mod v 7]
    omega
  · rfl

/-- The unrolled encoder and the loop write the same bytes. -/
theorem encodeVarint32_eq {v : ℕ} (h : v < 2^32) : encodeVarint32 v = encodeVarint64 v := by
  unfold encodeVarint32
  simp only [Nat.shiftRight_eq_div_pow]
  -- The loop makes one turn for every branch.
  rw [encodeVarint64_eq v]
  split_ifs with h1 h2 h2 h3 h3 h4 h4
  all_goals first | omega | rfl | skip
  · rw [encodeVarint64_eq, if_neg (by omega)]
  · rw [encodeVarint64_eq, if_pos (by omega), encodeVarint64_eq, if_neg (by omega),
      Nat.div_div_eq_div_mul]
  · rw [encodeVarint64_eq, if_pos (by omega), encodeVarint64_eq, if_pos (by omega),
      encodeVarint64_eq, if_neg (by omega), Nat.div_div_eq_div_mul, Nat.div_div_eq_div_mul]
  · rw [encodeVarint64_eq, if_pos (by omega), encodeVarint64_eq, if_pos (by omega),
      encodeVarint64_eq, if_pos (by omega), encodeVarint64_eq, if_neg (by omega),
      Nat.div_div_eq_div_mul, Nat.div_div_eq_div_mul, Nat.div_div_eq_div_mul]

/-! ## Round trips -/

/-- Adding a group of bits above the bits that are there. -/
theorem or_shiftLeft_eq {result group shift width : ℕ} (hresult : result < 2^shift)
    (hgroup : group * 2^shift < 2^width) :
    result ||| (group <<< shift) % 2^width = result + group * 2^shift := by
  rw [Nat.shiftLeft_eq, Nat.mod_eq_of_lt hgroup, Nat.or_comm, Nat.mul_comm,
    ← Nat.two_pow_add_eq_or_of_lt hresult, Nat.add_comm]

/-- The loop of the decoders reads what the loop of the encoder has written, with the bits that were
read before it. -/
theorem getVarintLoop_encodeVarint64 (width lastShift : ℕ) (suffix : Slice) (v : ℕ) :
    ∀ shift result, result < 2^shift → v * 2^shift < 2^width → v < 2^(lastShift + 7 - shift) →
      shift ≤ lastShift → 7 ∣ lastShift - shift →
      getVarintLoop width lastShift shift result (encodeVarint64 v ++ suffix) =
        some (result + v * 2^shift, suffix) := by
  induction v using Nat.strong_induction_on with
  | _ v ih =>
    intro shift result hresult hwidth hbits hshift hseven
    rw [encodeVarint64_eq]
    split_ifs with hmore
    · have hbyte := toNat_ofNat_or_high v
      have hlow : (v % 128) * 2^shift < 2^width :=
        lt_of_le_of_lt (Nat.mul_le_mul_right _ (Nat.mod_le _ _)) hwidth
      have hsum : v * 2^shift = (v % 128) * 2^shift + v / 128 * 2^(shift + 7) := by
        rw [pow_add, show (2 : ℕ)^7 = 128 from rfl]
        conv_lhs => rw [← Nat.div_add_mod v 128]
        ring
      rw [List.cons_append, getVarintLoop, if_pos hshift, if_pos (by
        rw [Ne, and_high_eq_zero_iff, hbyte]
        omega), hbyte, Nat.and_two_pow_sub_one_eq_mod _ 7,
        show (v % 128 + 128) % 2^7 = v % 128 by omega, or_shiftLeft_eq hresult hlow]
      rw [ih (v / 128) (by omega) (shift + 7) _ ?_ ?_ ?_ ?_ ?_]
      · rw [hsum, Nat.add_assoc]
      · rw [pow_add, show (2 : ℕ)^7 = 128 from rfl]
        have hle : v % 128 * 2^shift ≤ 127 * 2^shift := Nat.mul_le_mul_right _ (by omega)
        omega
      · omega
      · -- There are seven bits less.
        have hpow : 2^(lastShift + 7 - shift) = 128 * 2^(lastShift + 7 - (shift + 7)) := by
          rw [show (128 : ℕ) = 2^7 from rfl, ← pow_add]
          congr 1
          omega
        rw [hpow] at hbits
        exact Nat.div_lt_of_lt_mul hbits
      · by_contra hlast
        have hexp : lastShift + 7 - shift ≤ 7 := by omega
        have hle : 2^(lastShift + 7 - shift) ≤ 2^7 := Nat.pow_le_pow_right (by decide) hexp
        omega
      · omega
    · have hbyte := toNat_ofNat_of_lt (not_le.mp hmore)
      rw [List.singleton_append, getVarintLoop, if_pos hshift, if_neg (by
        rw [not_not, and_high_eq_zero_iff, hbyte]
        omega), hbyte, or_shiftLeft_eq hresult hwidth]

/-- A 64-bit value is read back, whatever follows it. -/
theorem getVarint64_encodeVarint64 {v : ℕ} (h : v < 2^64) (suffix : Slice) :
    getVarint64 (encodeVarint64 v ++ suffix) = some (v, suffix) := by
  unfold getVarint64
  rw [getVarintLoop_encodeVarint64 64 63 suffix v 0 0 (by decide) (by omega)
    (lt_of_lt_of_le h (by decide)) (by decide) (by decide)]
  simp

/-- The fast path for one byte reads what the loop reads. -/
theorem getVarint32_eq (input : Slice) : getVarint32 input = getVarint32PtrFallback input := by
  cases input with
  | nil => rfl
  | cons byte rest =>
    unfold getVarint32
    dsimp only
    split_ifs with hhigh
    · have hlt := (and_high_eq_zero_iff byte).mp hhigh
      unfold getVarint32PtrFallback
      rw [getVarintLoop, if_pos (Nat.zero_le _), if_neg (not_not.mpr hhigh),
        or_shiftLeft_eq (by decide) (by omega)]
      simp
    · rfl

/-- A 32-bit value is read back, whatever follows it. -/
theorem getVarint32_encodeVarint32 {v : ℕ} (h : v < 2^32) (suffix : Slice) :
    getVarint32 (encodeVarint32 v ++ suffix) = some (v, suffix) := by
  rw [getVarint32_eq, encodeVarint32_eq h]
  unfold getVarint32PtrFallback
  rw [getVarintLoop_encodeVarint64 32 28 suffix v 0 0 (by decide) (by omega)
    (lt_of_lt_of_le h (by decide)) (by decide) (by decide)]
  simp

/-- A string of less than 4GB is read back, whatever follows it. -/
theorem getLengthPrefixedSlice_put {value : Slice} (h : value.length < 2^32) (suffix : Slice) :
    getLengthPrefixedSlice (putLengthPrefixedSlice value ++ suffix) = some (value, suffix) := by
  unfold putLengthPrefixedSlice getLengthPrefixedSlice
  rw [Nat.mod_eq_of_lt h, List.append_assoc, getVarint32_encodeVarint32 h]
  dsimp only
  rw [if_pos (by rw [List.length_append]; omega), List.take_left, List.drop_left]

/-! ## Lengths -/

/-- The loop of the varint decoders consumes something. -/
theorem getVarintLoop_length {width lastShift : ℕ} : ∀ {input rest : Slice} {shift result v : ℕ},
    getVarintLoop width lastShift shift result input = some (v, rest) → rest.length < input.length
  | byte :: input, rest, shift, result, v, h => by
    rw [getVarintLoop] at h
    split_ifs at h
    · have hlt := getVarintLoop_length h
      rw [List.length_cons]
      omega
    · rw [Option.some.injEq, Prod.mk.injEq] at h
      rw [← h.2, List.length_cons]
      omega

/-- A varint of 32 bits takes at least one byte. -/
theorem getVarint32_length {input rest : Slice} {v : ℕ} (h : getVarint32 input = some (v, rest)) :
    rest.length < input.length := by
  rw [getVarint32_eq] at h
  exact getVarintLoop_length h

/-- A varint of 64 bits takes at least one byte. -/
theorem getVarint64_length {input rest : Slice} {v : ℕ} (h : getVarint64 input = some (v, rest)) :
    rest.length < input.length :=
  getVarintLoop_length h

/-- What the loop reads has as many bits as it says. -/
theorem getVarintLoop_lt {width lastShift : ℕ} : ∀ {input rest : Slice} {shift result v : ℕ},
    result < 2^width → getVarintLoop width lastShift shift result input = some (v, rest) → v < 2^width
  | byte :: input, rest, shift, result, v, hresult, h => by
    have hor : ∀ m : ℕ, result ||| m % 2^width < 2^width := fun m =>
      Nat.or_lt_two_pow hresult (Nat.mod_lt _ (Nat.two_pow_pos width))
    rw [getVarintLoop] at h
    split_ifs at h
    · exact getVarintLoop_lt (hor _) h
    · rw [Option.some.injEq, Prod.mk.injEq] at h
      rw [← h.1]
      exact hor _

/-- What `GetVarint32Ptr` reads fits into 32 bits. -/
theorem getVarint32_lt {input rest : Slice} {v : ℕ} (h : getVarint32 input = some (v, rest)) :
    v < 2^32 := by
  rw [getVarint32_eq] at h
  exact getVarintLoop_lt (by decide) h

end LevelDb
