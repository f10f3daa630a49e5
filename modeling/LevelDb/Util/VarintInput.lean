import LevelDb.Util.Varint

/-!
# Varints off an input

The functions of `util/coding.cc` that take a varint or a length-prefixed string off the front of a
`Slice*`, with what they leave behind when they fail, and `VarintLength`. Every byte of an encoding but
the last one has its high bit set, so a decoder that is given less than the whole of it runs out of
input; and a decoder looks at no more bytes than an encoding can have.
-/

namespace LevelDb

/-! ## The functions -/

/-- The loop of `VarintLength`. -/
def varintLengthLoop (v len : ℕ) : ℕ :=
  if 128 ≤ v then varintLengthLoop (v >>> 7) (len + 1) else len
termination_by v
decreasing_by
  rw [Nat.shiftRight_eq_div_pow]
  omega

/-- `VarintLength` -/
def varintLength (v : ℕ) : ℕ := varintLengthLoop v 1

/-- What a `Get` function returns, and what its two pointers point to afterwards. -/
structure Got (α : Type) where
  /-- The result. -/
  ok : Bool
  /-- `*input` -/
  input : Slice
  /-- `*value` -/
  value : α
  deriving DecidableEq

/-- The end of `GetVarint32` and `GetVarint64`: `*input` is moved behind the value, unless the decoder
returned `NULL`. The decoder sets `*value` only with a result. -/
def Got.ofPtr {α : Type} (input : Slice) (value : α) : Option (α × Slice) → Got α
  | none => ⟨false, input, value⟩
  | some (v, rest) => ⟨true, rest, v⟩

/-- `GetVarint32` -/
def getVarint32From (input : Slice) (value : ℕ) : Got ℕ := .ofPtr input value (getVarint32 input)

/-- `GetVarint64` -/
def getVarint64From (input : Slice) (value : ℕ) : Got ℕ := .ofPtr input value (getVarint64 input)

/-- `GetLengthPrefixedSlice` on a `Slice*`. The length is taken off `*input` before it is compared with
the bytes that are left. -/
def getLengthPrefixedSliceFrom (input result : Slice) : Got Slice :=
  let len := getVarint32From input 0
  if len.ok ∧ len.value ≤ len.input.length then
    ⟨true, len.input.drop len.value, len.input.take len.value⟩
  else ⟨false, len.input, result⟩

/-- `GetLengthPrefixedSlice` on two pointers `p` and `limit`, with the bytes behind the string. -/
def getLengthPrefixedSlicePtr (input : Slice) : Option (Slice × Slice) :=
  match getVarint32 input with
  | none => none
  | some (len, rest) => if rest.length < len then none else some (rest.take len, rest.drop len)

/-! ## Lengths -/

/-- The loop counts the bytes that `EncodeVarint64` writes. -/
theorem varintLengthLoop_eq (v : ℕ) : ∀ len,
    varintLengthLoop v len + 1 = (encodeVarint64 v).length + len := by
  induction v using Nat.strong_induction_on with
  | _ v ih =>
    intro len
    rw [varintLengthLoop, encodeVarint64_eq]
    by_cases hmore : 128 ≤ v
    · rw [if_pos hmore, if_pos hmore, Nat.shiftRight_eq_div_pow, List.length_cons]
      have hrest := ih (v / 2^7) (by omega) (len + 1)
      rw [show (2 : ℕ)^7 = 128 from rfl] at hrest ⊢
      omega
    · rw [if_neg hmore, if_neg hmore, List.length_singleton]
      omega

/-- `VarintLength` is the length of the encoding. -/
theorem length_encodeVarint64 (v : ℕ) : (encodeVarint64 v).length = varintLength v := by
  have h := varintLengthLoop_eq v 1
  unfold varintLength
  omega

/-- A decoder looks at the first `n` bytes only: it does with any input what it does with these. -/
def StopsWithin (n : ℕ) (decode : Slice → Option (ℕ × Slice)) : Prop :=
  ∀ input, decode input = (decode (input.take n)).map fun r => (r.1, r.2 ++ input.drop n)

/-- The loop of the decoders makes as many rounds as there are shifts. -/
theorem getVarintLoop_take {width lastShift : ℕ} : ∀ (n : ℕ) (input : Slice) (shift result : ℕ),
    lastShift < shift + 7 * n →
    getVarintLoop width lastShift shift result input =
      (getVarintLoop width lastShift shift result (input.take n)).map
        fun r => (r.1, r.2 ++ input.drop n)
  | _, [], shift, result, h => by
    rw [List.take_nil, getVarintLoop]
    rfl
  | 0, byte :: rest, shift, result, h => by
    rw [List.take_zero, getVarintLoop, getVarintLoop, if_neg (by omega)]
    rfl
  | n + 1, byte :: rest, shift, result, h => by
    rw [List.take_succ_cons, List.drop_succ_cons, getVarintLoop, getVarintLoop]
    by_cases hshift : shift ≤ lastShift
    · rw [if_pos hshift, if_pos hshift]
      by_cases hhigh : byte.toNat &&& 128 ≠ 0
      · rw [if_pos hhigh, if_pos hhigh]
        exact getVarintLoop_take n rest (shift + 7) _ (by omega)
      · rw [if_neg hhigh, if_neg hhigh, Option.map_some, List.take_append_drop]
    · rw [if_neg hshift, if_neg hshift]
      rfl

/-- `GetVarint32Ptr` reads at most five bytes, whether or not it succeeds. -/
theorem getVarint32_stopsWithin : StopsWithin 5 getVarint32 := by
  intro input
  rw [getVarint32_eq, getVarint32_eq]
  exact getVarintLoop_take 5 input 0 0 (by decide)

/-- `GetVarint64Ptr` reads at most ten bytes, whether or not it succeeds. -/
theorem getVarint64_stopsWithin : StopsWithin 10 getVarint64 :=
  fun input => getVarintLoop_take 10 input 0 0 (by decide)

/-! ## Truncated encodings -/

/-- Bytes with their high bit set are not the whole of a varint. -/
theorem getVarintLoop_eq_none {width lastShift : ℕ} : ∀ {input : Slice} {shift result : ℕ},
    (∀ byte ∈ input, 128 ≤ byte.toNat) → getVarintLoop width lastShift shift result input = none
  | [], shift, result, h => by rw [getVarintLoop]
  | byte :: rest, shift, result, h => by
    have hhigh : byte.toNat &&& 128 ≠ 0 := by
      rw [Ne, and_high_eq_zero_iff]
      exact Nat.not_lt.mpr (h byte List.mem_cons_self)
    rw [getVarintLoop, if_pos hhigh]
    by_cases hshift : shift ≤ lastShift
    · rw [if_pos hshift]
      exact getVarintLoop_eq_none fun b hb => h b (List.mem_cons_of_mem _ hb)
    · rw [if_neg hshift]

/-- Every byte of an encoding but the last one has its high bit set. -/
theorem high_of_mem_start (v : ℕ) : ∀ p : Slice, p <+: encodeVarint64 v → p ≠ encodeVarint64 v →
    ∀ byte ∈ p, 128 ≤ byte.toNat := by
  induction v using Nat.strong_induction_on with
  | _ v ih =>
    intro p hp hne
    rw [encodeVarint64_eq] at hp hne
    cases p with
    | nil => simp
    | cons b p =>
      by_cases hmore : 128 ≤ v
      · rw [if_pos hmore] at hp hne
        obtain ⟨rfl, hp'⟩ := List.cons_prefix_cons.mp hp
        have hrest := ih (v / 128) (by omega) p hp' fun h => hne (by rw [h])
        intro byte hbyte
        rcases List.mem_cons.mp hbyte with rfl | hbyte
        · rw [toNat_ofNat_or_high]
          omega
        · exact hrest byte hbyte
      · -- A prefix of one byte that is not empty is the whole.
        rw [if_neg hmore] at hp hne
        obtain ⟨rfl, hp'⟩ := List.cons_prefix_cons.mp hp
        rw [List.prefix_nil.mp hp'] at hne
        exact absurd rfl hne

/-- A part of an encoding that ends before the last byte has no 64-bit value. -/
theorem getVarint64_cut_short {v : ℕ} {p : Slice} (hp : p <+: encodeVarint64 v)
    (hne : p ≠ encodeVarint64 v) : getVarint64 p = none :=
  getVarintLoop_eq_none (high_of_mem_start v p hp hne)

/-- A part of an encoding that ends before the last byte has no 32-bit value. -/
theorem getVarint32_cut_short {v : ℕ} (hv : v < 2^32) {p : Slice} (hp : p <+: encodeVarint32 v)
    (hne : p ≠ encodeVarint32 v) : getVarint32 p = none := by
  rw [encodeVarint32_eq hv] at hp hne
  rw [getVarint32_eq]
  exact getVarintLoop_eq_none (high_of_mem_start v p hp hne)

/-- A length-prefixed string that is cut off ends within its length, or before the length is reached. -/
theorem prefix_of_putLengthPrefixedSlice {s p : Slice} (hs : s.length < 2^32)
    (hp : p <+: putLengthPrefixedSlice s) (hne : p ≠ putLengthPrefixedSlice s) :
    getVarint32 p = none ∨ ∃ rest, getVarint32 p = some (s.length, rest) ∧ rest.length < s.length := by
  unfold putLengthPrefixedSlice at hp hne
  rw [Nat.mod_eq_of_lt hs] at hp hne
  by_cases hlen : encodeVarint32 s.length <+: p
  · -- The length is there, and some of the string is missing.
    obtain ⟨rest, rfl⟩ := hlen
    have hrest := (List.prefix_append_right_inj _).mp hp
    refine Or.inr ⟨rest, getVarint32_encodeVarint32 hs rest, ?_⟩
    refine Nat.lt_of_le_of_ne hrest.length_le fun heq => ?_
    rw [hrest.eq_of_length heq] at hne
    exact hne rfl
  · have hcut := (List.prefix_or_prefix_of_prefix hp (List.prefix_append _ s)).resolve_right hlen
    exact Or.inl (getVarint32_cut_short hs hcut fun heq => hlen (heq ▸ List.prefix_rfl))

/-! ## The coding -/

/-- `GetLengthPrefixedSlice` reads the string that `PutLengthPrefixedSlice` has written, and moves the
input behind it. -/
theorem getLengthPrefixedSliceFrom_put {s : Slice} (hs : s.length < 2^32) (suffix result : Slice) :
    getLengthPrefixedSliceFrom (putLengthPrefixedSlice s ++ suffix) result = ⟨true, suffix, s⟩ := by
  have hlen : getVarint32From (putLengthPrefixedSlice s ++ suffix) 0 = ⟨true, s ++ suffix, s.length⟩ := by
    unfold getVarint32From putLengthPrefixedSlice
    rw [Nat.mod_eq_of_lt hs, List.append_assoc, getVarint32_encodeVarint32 hs]
    rfl
  unfold getLengthPrefixedSliceFrom
  rw [hlen]
  dsimp only
  rw [if_pos ⟨rfl, by rw [List.length_append]; omega⟩, List.take_left, List.drop_left]

/-- `GetLengthPrefixedSlice` fails when some of the string is missing. -/
theorem getLengthPrefixedSliceFrom_cut_short {s p : Slice} (hs : s.length < 2^32)
    (hp : p <+: putLengthPrefixedSlice s) (hne : p ≠ putLengthPrefixedSlice s) (result : Slice) :
    (getLengthPrefixedSliceFrom p result).ok = false := by
  unfold getLengthPrefixedSliceFrom getVarint32From
  rcases prefix_of_putLengthPrefixedSlice hs hp hne with hnone | ⟨rest, hsome, hlt⟩
  · rw [hnone]
    rfl
  · rw [hsome]
    dsimp only [Got.ofPtr]
    rw [if_neg fun h => absurd h.2 (Nat.not_le.mpr hlt)]

/-- The two forms of `GetLengthPrefixedSlice` find the same strings. -/
theorem getLengthPrefixedSlicePtr_eq (input : Slice) :
    getLengthPrefixedSlicePtr input = getLengthPrefixedSlice input := by
  unfold getLengthPrefixedSlicePtr getLengthPrefixedSlice
  cases getVarint32 input with
  | none => rfl
  | some r =>
    dsimp only
    by_cases hlen : r.1 ≤ r.2.length
    · rw [if_pos hlen, if_neg (Nat.not_lt.mpr hlen)]
    · rw [if_neg hlen, if_pos (Nat.lt_of_not_le hlen)]

/-- The form on pointers returns `NULL` when some of the string is missing. -/
theorem getLengthPrefixedSlicePtr_cut_short {s p : Slice} (hs : s.length < 2^32)
    (hp : p <+: putLengthPrefixedSlice s) (hne : p ≠ putLengthPrefixedSlice s) :
    getLengthPrefixedSlicePtr p = none := by
  unfold getLengthPrefixedSlicePtr
  rcases prefix_of_putLengthPrefixedSlice hs hp hne with hnone | ⟨rest, hsome, hlt⟩
  · rw [hnone]
  · rw [hsome]
    exact if_pos hlt

/-- Variable-length coding. Values and strings are read back whatever follows them, and nothing is read
from a part of an encoding; the unrolled encoder is the loop and writes `VarintLength` bytes; the fast
path of `GetVarint32Ptr` is its fallback; and the decoders stop within five and ten bytes. -/
theorem variable_length_coding :
    (∀ (v : UInt32) (suffix : Slice) (value : ℕ),
      getVarint32From (encodeVarint32 v.toNat ++ suffix) value = ⟨true, suffix, v.toNat⟩) ∧
    (∀ (v : UInt64) (suffix : Slice) (value : ℕ),
      getVarint64From (encodeVarint64 v.toNat ++ suffix) value = ⟨true, suffix, v.toNat⟩) ∧
    (∀ (v : UInt32) (p : Slice) (value : ℕ), p <+: encodeVarint32 v.toNat →
      p ≠ encodeVarint32 v.toNat → getVarint32From p value = ⟨false, p, value⟩) ∧
    (∀ (v : UInt64) (p : Slice) (value : ℕ), p <+: encodeVarint64 v.toNat →
      p ≠ encodeVarint64 v.toNat → getVarint64From p value = ⟨false, p, value⟩) ∧
    (∀ v : UInt32, encodeVarint32 v.toNat = encodeVarint64 v.toNat ∧
      (encodeVarint32 v.toNat).length = varintLength v.toNat) ∧
    (∀ v : UInt64, (encodeVarint64 v.toNat).length = varintLength v.toNat) ∧
    (∀ input, getVarint32 input = getVarint32PtrFallback input) ∧
    StopsWithin 5 getVarint32 ∧ StopsWithin 5 getVarint32PtrFallback ∧ StopsWithin 10 getVarint64 ∧
    (∀ s suffix result : Slice, s.length < 2^32 →
      getLengthPrefixedSliceFrom (putLengthPrefixedSlice s ++ suffix) result = ⟨true, suffix, s⟩ ∧
      getLengthPrefixedSlicePtr (putLengthPrefixedSlice s ++ suffix) = some (s, suffix)) ∧
    (∀ s p result : Slice, s.length < 2^32 → p <+: putLengthPrefixedSlice s →
      p ≠ putLengthPrefixedSlice s →
      (getLengthPrefixedSliceFrom p result).ok = false ∧ getLengthPrefixedSlicePtr p = none) := by
  -- The round trips are those of the pointer functions, with what is left of the input.
  refine ⟨?_, ?_, ?_, ?_, ?_, ?_, getVarint32_eq, getVarint32_stopsWithin, ?_,
    getVarint64_stopsWithin, ?_, ?_⟩
  · intro v suffix value
    unfold getVarint32From
    rw [getVarint32_encodeVarint32 v.toNat_lt]
    rfl
  · intro v suffix value
    unfold getVarint64From
    rw [getVarint64_encodeVarint64 v.toNat_lt]
    rfl
  · intro v p value hp hne
    unfold getVarint32From
    rw [getVarint32_cut_short v.toNat_lt hp hne]
    rfl
  · intro v p value hp hne
    unfold getVarint64From
    rw [getVarint64_cut_short hp hne]
    rfl
  · intro v
    have heq := encodeVarint32_eq v.toNat_lt
    refine ⟨heq, ?_⟩
    rw [heq, length_encodeVarint64]
  · exact fun v => length_encodeVarint64 v.toNat
  · exact fun input => getVarintLoop_take 5 input 0 0 (by decide)
  · intro s suffix result hs
    refine ⟨getLengthPrefixedSliceFrom_put hs suffix result, ?_⟩
    rw [getLengthPrefixedSlicePtr_eq, getLengthPrefixedSlice_put hs]
  · intro s p result hs hp hne
    exact ⟨getLengthPrefixedSliceFrom_cut_short hs hp hne result,
      getLengthPrefixedSlicePtr_cut_short hs hp hne⟩

/-- The first of the two bytes of 300, and a string of two bytes that lacks the second one. -/
theorem variable_length_coding_300 :
    getVarint32From [0xac] 7 = ⟨false, [0xac], 7⟩ ∧ getLengthPrefixedSlicePtr [2, 97] = none := by
  obtain ⟨-, -, hshort, -, -, -, -, -, -, -, -, hslice⟩ := variable_length_coding
  exact ⟨hshort 300 [0xac] 7 (by decide) (by decide),
    (hslice [97, 98] [2, 97] [] (by decide) (by decide) (by decide)).2⟩

end LevelDb
