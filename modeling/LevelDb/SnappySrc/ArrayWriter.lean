import LevelDb.SnappySrc.Stream

/-!
# Uncompressing into an array

`SnappyArrayWriter` stores more bytes than it has to where there is room for them, and copies words of
eight bytes between regions that overlap. None of this can be seen: the array gets what the items stand
for, nothing behind it changes, and there is no access outside of it (`SnappyArrayWriter.models`).
-/

namespace LevelDb.SnappySrc

open Lib

/-! ## Copies -/

/-- `UNALIGNED_STORE64(op, UNALIGNED_LOAD64(src))` -/
def copy64 (src op : ℕ) (mem : Slice) : Option Slice := (load mem src 8).bind (store mem op)

/-- `IncrementalCopy` -/
def incrementalCopy (src op len : ℕ) (mem : Slice) : Option Slice :=
  ((load mem src 1).bind (store mem op)).bind fun mem =>
    if _h : 0 < len - 1 then incrementalCopy (src + 1) (op + 1) (len - 1) mem else some mem
  termination_by len

/-- The second loop of `IncrementalCopyFastPath`. -/
def copyWords (src op : ℕ) (len : ℤ) (mem : Slice) : Option Slice :=
  if _h : 0 < len then (copy64 src op mem).bind fun mem => copyWords (src + 8) (op + 8) (len - 8) mem
  else some mem
  termination_by len.toNat

/-- `kMaxIncrementCopyOverflow` -/
def kMaxIncrementCopyOverflow : ℕ := 10

/-- `IncrementalCopyFastPath`, with the number of rounds that are left for its first loop. -/
def incrementalCopyFastPath : ℕ → ℕ → ℕ → ℤ → Slice → Option Slice
  | 0, _, _, _, _ => none
  | rounds + 1, src, op, len, mem =>
    if op - src < 8 then
      (copy64 src op mem).bind fun mem =>
        incrementalCopyFastPath rounds src (op + (op - src)) (len - (op - src : ℕ)) mem
    else copyWords src op len mem

/-! ## The writer -/

/-- `SnappyArrayWriter`. `op_` and `op_limit_` are positions in the array at `base_`. -/
structure SnappyArrayWriter where
  /-- The array that begins at `base_`. -/
  mem : Slice
  /-- `op_` -/
  op : ℕ := 0
  /-- `op_limit_` -/
  opLimit : ℕ := 0

/-- `space_left`, which is an `int`. -/
def SnappyArrayWriter.spaceLeft (w : SnappyArrayWriter) : ℤ := toInt32 (w.opLimit - w.op)

/-- The array has other bytes, and `op_` is advanced. -/
def SnappyArrayWriter.advance (w : SnappyArrayWriter) (len : ℕ) (mem : Slice) : Bool × SnappyArrayWriter :=
  (true, { w with mem := mem, op := w.op + len })

/-- `Append` -/
def SnappyArrayWriter.append (w : SnappyArrayWriter) (ip : Slice) (len : ℕ) (allowFastPath : Bool) :
    Option (Bool × SnappyArrayWriter) :=
  if allowFastPath = true ∧ len ≤ 16 ∧ 16 ≤ w.spaceLeft then
    (((load ip 0 8).bind (store w.mem w.op)).bind fun mem =>
      (load ip 8 8).bind (store mem (w.op + 8))).map (w.advance len)
  else if w.spaceLeft % 2^32 < len then some (false, w)
  else ((load ip 0 len).bind (store w.mem w.op)).map (w.advance len)

/-- `AppendFromSelf` -/
def SnappyArrayWriter.appendFromSelf (w : SnappyArrayWriter) (offset len : ℕ) :
    Option (Bool × SnappyArrayWriter) :=
  -- -1u catches offset==0
  if (w.op : ℤ) ≤ ((offset : ℤ) - 1) % 2^32 then some (false, w)
  else if len ≤ 16 ∧ 8 ≤ offset ∧ 16 ≤ w.spaceLeft then
    ((copy64 (w.op - offset) w.op w.mem).bind (copy64 (w.op - offset + 8) (w.op + 8))).map (w.advance len)
  else if len + kMaxIncrementCopyOverflow ≤ w.spaceLeft % 2^32 then
    (incrementalCopyFastPath 4 (w.op - offset) w.op len w.mem).map (w.advance len)
  else if w.spaceLeft % 2^32 < len then some (false, w)
  else (incrementalCopy (w.op - offset) w.op len w.mem).map (w.advance len)

/-- The writer as a parameter of the decompressor. -/
def arrayWriter : Writer SnappyArrayWriter where
  setExpectedLength w len := { w with opLimit := w.op + len }
  checkLength w := w.op == w.opLimit
  append := SnappyArrayWriter.append
  appendFromSelf := SnappyArrayWriter.appendFromSelf

/-- `RawUncompress` of a source into an array: what it returns, and the array. -/
def rawUncompress {σ : Type} (S : Source σ) (scratch : Slice) (compressed : σ) (uncompressed : Slice) :
    Option (Bool × Slice) :=
  (internalUncompress S arrayWriter scratch compressed { mem := uncompressed } (2^32 - 1)).map
    fun r => (r.1, r.2.mem)

/-! ## Copies of what is there -/

variable {mem l : Slice} {limit : ℕ}

/-- `IncrementalCopy`. The induction is on the bytes that are left. -/
theorem incrementalCopy_spec {distance : ℕ} (hdistance : 0 < distance) : ∀ (len p : ℕ) (mem : Slice),
    0 < len → SameUpTo p mem l → distance ≤ p → p + len ≤ limit → limit ≤ mem.length →
    (∀ i, p ≤ i → i < p + len → l[i]? = l[i - distance]?) →
    Fills mem limit (p + len) l (incrementalCopy (p - distance) p len mem)
  | 0, _, _, hlen, _, _, _, _, _ => absurd hlen (Nat.not_lt_zero _)
  | len + 1, p, mem, _, h, hle, hlimit, hroom, hrepeat => by
    rw [incrementalCopy]
    refine (fills_repeat h hle (show 1 ≤ distance by omega) le_rfl (by omega) hroom
      fun i hi hlt => hrepeat i hi (by omega)).bind fun mem' hsame hlength => ?_
    rw [Nat.add_sub_cancel]
    split_ifs with hmore
    · rw [show p - distance + 1 = p + 1 - distance by omega, show p + (len + 1) = p + 1 + len by omega]
      exact incrementalCopy_spec hdistance len (p + 1) mem' hmore hsame (by omega) (by omega) (by omega)
        fun i hi hlt => hrepeat i (by omega) (by omega)
    · obtain rfl : len = 0 := by omega
      exact ⟨mem', rfl, hsame, rfl, rfl⟩

/-- The second loop of `IncrementalCopyFastPath`, up to an end behind which there is room for seven
bytes. -/
theorem copyWords_spec {distance e : ℕ} (hdistance : 8 ≤ distance) (hlimit : e + 7 ≤ limit) (p : ℕ) (len : ℤ)
    (mem : Slice) (he : (e : ℤ) = p + len) (h : SameUpTo p mem l) (hle : distance ≤ p)
    (hroom : limit ≤ mem.length) (hrepeat : ∀ i, p ≤ i → i < limit → l[i]? = l[i - distance]?) :
    Fills mem limit e l (copyWords (p - distance) p len mem) := by
  rw [copyWords]
  split_ifs with hmore
  · refine (fills_repeat h hle hdistance le_rfl (by omega) hroom
      fun i hi hlt => hrepeat i hi (by omega)).bind fun mem' hsame hlength => ?_
    rw [show p - distance + 8 = p + 8 - distance by omega]
    exact copyWords_spec hdistance hlimit (p + 8) (len - 8) mem' (by omega) hsame (by omega) (by omega)
      fun i hi hlt => hrepeat i (by omega) hlt
  · exact ⟨mem, rfl, h.mono (by omega), rfl, rfl⟩
  termination_by len.toNat

/-- `IncrementalCopyFastPath`. In its first loop, what is copied has been repeated once, twice or four times:
it repeats itself at this distance as well. -/
theorem incrementalCopyFastPath_spec {p offset e : ℕ} (hoffset : 0 < offset) (hend : p < e)
    (hlimit : e + kMaxIncrementCopyOverflow ≤ limit) : ∀ (rounds distance : ℕ) (len : ℤ) (mem : Slice),
    8 ≤ 2^rounds * distance →
    distance = offset ∨ distance = 2 * offset ∨ distance = 4 * offset ∨ 8 ≤ distance →
    offset ≤ distance → offset ≤ p → (e : ℤ) = (p - offset + distance : ℕ) + len →
    SameUpTo (p - offset + distance) mem l → limit ≤ mem.length →
    (∀ i, p - offset + distance ≤ i → i < limit → l[i]? = l[i - distance]?) →
    Fills mem limit e l
      (incrementalCopyFastPath (rounds + 1) (p - offset) (p - offset + distance) len mem)
  | rounds, distance, len, mem, hrounds, hdistance, hle, hp, he, h, hroom, hrepeat => by
    have hlimit' : e + 10 ≤ limit := hlimit
    rw [incrementalCopyFastPath, Nat.add_sub_cancel_left]
    split_ifs with hnear
    · cases rounds with
      | zero => omega
      | succ rounds =>
        have hsrc : p - offset + distance - distance = p - offset := by omega
        have hcopy : Fills mem limit (p - offset + distance + distance) l
            (copy64 (p - offset) (p - offset + distance) mem) := by
          have hfills := fills_repeat h (show distance ≤ p - offset + distance by omega)
            (show distance ≤ distance from le_rfl) (show distance ≤ 8 by omega) (by omega) hroom
            fun i hi hlt => hrepeat i hi (by omega)
          rw [hsrc] at hfills
          exact hfills
        refine hcopy.bind fun mem' hsame hlength => ?_
        rw [show p - offset + distance + distance = p - offset + (distance + distance) by omega] at hsame ⊢
        refine incrementalCopyFastPath_spec hoffset hend hlimit rounds (distance + distance) _ mem' ?_
          (by omega) (by omega) hp (by push_cast at he ⊢; omega) hsame (by omega) fun i hi hlt => ?_
        · rw [Nat.pow_succ, Nat.mul_assoc] at hrounds
          rw [← Nat.two_mul]
          exact hrounds
        · rw [hrepeat i (by omega) hlt, hrepeat (i - distance) (by omega) (by omega), Nat.sub_sub]
    · have hwords := copyWords_spec (show 8 ≤ distance by omega) (show e + 7 ≤ limit by omega) _ len mem he h
        (show distance ≤ p - offset + distance by omega) hroom hrepeat
      rw [Nat.add_sub_cancel] at hwords
      exact hwords

/-! ## What the writer has been fed -/

/-- The array begins with what the writer has been fed, and is what it was from `n` on. -/
structure SnappyArrayWriter.Holds (dest : Slice) (n : ℕ) (w : SnappyArrayWriter) (out : Slice) : Prop where
  /-- `op_limit_` -/
  opLimit : w.opLimit = n
  /-- `op_` -/
  op : w.op = out.length
  /-- There are no more bytes than expected. -/
  length_le : out.length ≤ n
  /-- The size of the array. -/
  length_mem : w.mem.length = dest.length
  /-- What has been fed. -/
  front : w.mem.take out.length = out
  /-- What is behind. -/
  behind : w.mem.drop n = dest.drop n

variable {dest out : Slice} {n : ℕ} {w : SnappyArrayWriter}

/-- What has been fed, with anything behind it. -/
theorem SnappyArrayWriter.Holds.sameUpTo (h : w.Holds dest n out) (hn : n ≤ dest.length)
    (hinitial : out <+: l) : SameUpTo w.op w.mem l := by
  have hle := h.length_le
  refine sameUpTo_of_take ?_ (by rw [h.length_mem, h.op]; omega)
  rw [h.op, h.front]
  exact hinitial

/-- A word is enough for the space that is left. -/
theorem SnappyArrayWriter.Holds.spaceLeft (h : w.Holds dest n out) (hword : n < 2^32) :
    w.spaceLeft % 2^32 = (n - out.length : ℕ) ∧ (16 ≤ w.spaceLeft → 16 ≤ n - out.length) := by
  have hle := h.length_le
  have hnat : (n : ℤ) - out.length = (n - out.length : ℕ) := by omega
  have hmod := Int.bmod_emod (x := ((n - out.length : ℕ) : ℤ)) (m := 2^32)
  have hbmod : ((n - out.length : ℕ) : ℤ).bmod (2^32) ≤ (n - out.length : ℕ) := by
    unfold Int.bmod
    dsimp only
    split_ifs <;> omega
  unfold SnappyArrayWriter.spaceLeft toInt32
  rw [h.op, h.opLimit, hnat]
  refine ⟨?_, fun hspace => by omega⟩
  rw [show (2 : ℤ)^32 = ((2^32 : ℕ) : ℤ) by norm_num, hmod]
  omega

/-- A store that fills the array behind `op_` adds its bytes to the output, as far as `op_` is
advanced. -/
theorem SnappyArrayWriter.Holds.advance (h : w.Holds dest n out) {len : ℕ} {r : Option Slice}
    (hfills : Fills w.mem n k l r) (hk : w.op + len ≤ k) (hlength : out.length + len ≤ l.length)
    (hle : out.length + len ≤ n) :
    ∃ w', r.map (w.advance len) = some (true, w') ∧ w'.Holds dest n (l.take (out.length + len)) := by
  obtain ⟨mem, rfl, hsame, hsize, hdrop⟩ := hfills
  have htake : (l.take (out.length + len)).length = out.length + len := List.length_take_of_le hlength
  refine ⟨(w.advance len mem).2, rfl, h.opLimit, ?_, htake.le.trans hle, hsize.trans h.length_mem, ?_,
    hdrop.trans h.behind⟩
  · show w.op + len = _
    rw [h.op, htake]
  · show mem.take _ = _
    rw [htake, ← h.op, (hsame.mono hk).take_eq]

/-- `Append` returns true if its bytes fit, and has then added them to the output. -/
theorem SnappyArrayWriter.Holds.append (h : w.Holds dest n out) (hn : n ≤ dest.length) (hword : n < 2^32)
    (ip : Slice) (len : ℕ) (fast : Bool) (hlen : len ≤ ip.length) (hfast : fast = true → 16 ≤ ip.length) :
    ∃ w', w.append ip len fast = some (decide (out.length + len ≤ n), w') ∧
      (out.length + len ≤ n → w'.Holds dest n (out ++ ip.take len)) := by
  obtain ⟨hspace, hsixteen⟩ := h.spaceLeft hword
  have hle := h.length_le
  have hroom : n ≤ w.mem.length := h.length_mem ▸ hn
  have hop := h.op
  -- the array is to go on with the input
  have hsame : SameUpTo w.op w.mem (out ++ ip) := h.sameUpTo hn (List.prefix_append _ _)
  have hnext : ∀ i, (out ++ ip)[w.op + i]? = ip[i]? := fun i => by
    rw [hop, List.getElem?_append_right (Nat.le_add_right _ _), Nat.add_sub_cancel_left]
  have htake : (out ++ ip).take (out.length + len) = out ++ ip.take len := List.take_length_add_append _
  have hlength : out.length + len ≤ (out ++ ip).length := by rw [List.length_append]; omega
  unfold SnappyArrayWriter.append
  split_ifs with hcond hshort
  · obtain ⟨hf, hfew, hmuch⟩ := hcond
    have hlong := hsixteen hmuch
    have hip := hfast hf
    have hfits : out.length + len ≤ n := by omega
    have hfirst : Fills w.mem n (w.op + 8) (out ++ ip) ((load ip 0 8).bind (store w.mem w.op)) :=
      fills_load hsame (by omega) (by omega) hroom fun i _ => by rw [hnext, Nat.zero_add]
    have hboth : Fills w.mem n (w.op + 8 + 8) (out ++ ip)
        (((load ip 0 8).bind (store w.mem w.op)).bind fun mem => (load ip 8 8).bind (store mem (w.op + 8))) :=
      hfirst.bind fun mem' hsame' hsize => fills_load hsame' (by omega) (by omega) (by omega) fun i _ => by
        rw [Nat.add_assoc, hnext]
    obtain ⟨w', hr, hw'⟩ := h.advance hboth (show w.op + len ≤ w.op + 8 + 8 by omega) hlength hfits
    rw [decide_eq_true hfits]
    exact ⟨w', hr, fun _ => htake ▸ hw'⟩
  · have hmany : ¬out.length + len ≤ n := by omega
    rw [decide_eq_false hmany]
    exact ⟨w, rfl, fun hfits => absurd hfits hmany⟩
  · have hfits : out.length + len ≤ n := by omega
    have hstore : Fills w.mem n (w.op + len) (out ++ ip) ((load ip 0 len).bind (store w.mem w.op)) :=
      fills_load hsame (by omega) (by omega) hroom fun i _ => by rw [hnext, Nat.zero_add]
    obtain ⟨w', hr, hw'⟩ := h.advance hstore le_rfl hlength hfits
    rw [decide_eq_true hfits]
    exact ⟨w', hr, fun _ => htake ▸ hw'⟩

/-- `AppendFromSelf` returns true if its offset lies in the output and the copy fits, and has then
added the copy. -/
theorem SnappyArrayWriter.Holds.appendFromSelf (h : w.Holds dest n out) (hn : n ≤ dest.length)
    (hword : n < 2^32) (offset len : ℕ) (hpos : 0 < len) (hlen : len ≤ 64) (hoffset : offset < 2^32) :
    ∃ w', w.appendFromSelf offset len =
        some (decide ((0 < offset ∧ offset ≤ out.length) ∧ out.length + len ≤ n), w') ∧
      (0 < offset → offset ≤ out.length → out.length + len ≤ n →
        w'.Holds dest n (copyBack offset len out)) := by
  obtain ⟨hspace, hsixteen⟩ := h.spaceLeft hword
  have hle := h.length_le
  have hroom : n ≤ w.mem.length := h.length_mem ▸ hn
  have hop := h.op
  unfold SnappyArrayWriter.appendFromSelf
  by_cases hinside : 0 < offset ∧ offset ≤ out.length
  · have hcompare : ¬(w.op : ℤ) ≤ ((offset : ℤ) - 1) % 2^32 := by omega
    rw [if_neg hcompare]
    -- the array is to go on with a repetition that is longer than needed
    obtain ⟨l, hl⟩ : ∃ l, l = copyBack offset (len + 16) out := ⟨_, rfl⟩
    have hlong := length_copyBack hinside.1 (len + 16) hinside.2
    obtain ⟨hinitial, hrepeat⟩ := copyBack_spec hinside.1 (len + 16) hinside.2
    have htake : l.take (out.length + len) = copyBack offset len out := by
      have hfront := length_copyBack hinside.1 len hinside.2
      have hp := (copyBack_spec hinside.1 16 (show offset ≤ (copyBack offset len out).length by omega)).1
      rw [copyBack_copyBack hinside.1 16 len hinside.2, ← hl] at hp
      rw [← hfront]
      exact (List.prefix_iff_eq_take.mp hp).symm
    rw [← hl] at hlong hinitial hrepeat
    rw [← hop] at hrepeat
    have hsame : SameUpTo w.op w.mem l := h.sameUpTo hn hinitial
    -- each of the copies stores it
    have hdone : ∀ {r : Option Slice} {k : ℕ}, Fills w.mem n k l r → w.op + len ≤ k →
        out.length + len ≤ n → ∃ w', r.map (w.advance len) =
          some (decide ((0 < offset ∧ offset ≤ out.length) ∧ out.length + len ≤ n), w') ∧
        (0 < offset → offset ≤ out.length → out.length + len ≤ n →
          w'.Holds dest n (copyBack offset len out)) := by
      intro r k hfills hk hfits
      obtain ⟨w', hr, hw'⟩ := h.advance hfills hk (by omega) hfits
      rw [decide_eq_true ⟨hinside, hfits⟩]
      exact ⟨w', hr, fun _ _ _ => htake ▸ hw'⟩
    split_ifs with hfast hmuch hshort
    · obtain ⟨hfew, hfar, hmuch⟩ := hfast
      have hspace' := hsixteen hmuch
      have hfirst : Fills w.mem n (w.op + 8) l (copy64 (w.op - offset) w.op w.mem) :=
        fills_repeat hsame (by omega) hfar le_rfl (by omega) hroom fun i hi hlt => hrepeat i hi (by omega)
      refine hdone (k := w.op + 8 + 8) (hfirst.bind fun mem' hsame' hsize => ?_) (by omega) (by omega)
      rw [show w.op - offset + 8 = w.op + 8 - offset by omega]
      exact fills_repeat hsame' (by omega) hfar le_rfl (by omega) (by omega)
        fun i hi hlt => hrepeat i (by omega) (by omega)
    · have hk : kMaxIncrementCopyOverflow = 10 := rfl
      have hback : w.op - offset + offset = w.op := by omega
      have hfills := incrementalCopyFastPath_spec hinside.1 (show w.op < w.op + len by omega)
        (show w.op + len + kMaxIncrementCopyOverflow ≤ w.op + len + kMaxIncrementCopyOverflow from le_rfl)
        3 offset len w.mem (by omega) (Or.inl rfl) le_rfl (hop ▸ hinside.2)
        (by rw [hback]; exact Nat.cast_add _ _) (hback.symm ▸ hsame) (by omega)
        fun i hi hlt => hrepeat i (by omega) (by omega)
      rw [hback] at hfills
      exact hdone (hfills.mono (by omega)) le_rfl (by omega)
    · have hmany : ¬((0 < offset ∧ offset ≤ out.length) ∧ out.length + len ≤ n) := by omega
      rw [decide_eq_false hmany]
      exact ⟨w, rfl, fun _ _ hfits => absurd ⟨hinside, hfits⟩ hmany⟩
    · have hfills := incrementalCopy_spec hinside.1 len w.op w.mem hpos hsame (by omega)
        (show w.op + len ≤ n by omega) hroom fun i hi hlt => hrepeat i hi (by omega)
      exact hdone hfills le_rfl (by omega)
  · have hcompare : (w.op : ℤ) ≤ ((offset : ℤ) - 1) % 2^32 := by omega
    rw [if_pos hcompare, decide_eq_false fun hcond => hinside hcond.1]
    exact ⟨w, rfl, fun hpos' hle' _ => absurd ⟨hpos', hle'⟩ hinside⟩

/-- The array is what the writer has been fed. -/
theorem arrayWriter_models {limit : ℕ} (hn : n ≤ dest.length) (hword : n < 2^32) :
    arrayWriter.Models limit n (SnappyArrayWriter.Holds dest n) where
  length_le h := h.length_le
  checkLength {w out} h := by
    show (w.op == w.opLimit) = true ↔ _
    rw [beq_iff_eq, h.op, h.opLimit]
  append h ip len fast hlen _ hfast := h.append hn hword ip len fast hlen hfast
  appendFromSelf h offset len hpos hlen hoffset := h.appendFromSelf hn hword offset len hpos hlen hoffset

/-- `RawUncompress` into an array with room for as many bytes as the source says, before what it returns is
looked at. -/
theorem rawUncompress_holds {σ : Type} (S : Source σ) (scratch : Slice) (compressed : σ)
    (uncompressed : Slice) (hscratch : scratch.length = 5) (hsource : (S.bytes compressed).length < 2^32)
    (hroom : ∀ n rest, getVarint32PtrFallback (S.bytes compressed) = some (n, rest) →
      n ≤ uncompressed.length) :
    ∃ b w', rawUncompress S scratch compressed uncompressed = some (b, w'.mem) ∧
      (b = true ↔ ∃ out, Uncompresses (S.bytes compressed) out) ∧
      (∀ out, Uncompresses (S.bytes compressed) out →
        SnappyArrayWriter.Holds uncompressed out.length w' out) := by
  have hword : ∀ n rest, getVarint32PtrFallback (S.bytes compressed) = some (n, rest) → n < 2^32 :=
    fun n rest h => getVarintLoop_lt (by decide) h
  have hshort : ∀ out, Uncompresses (S.bytes compressed) out → out.length ≤ 2^32 - 1 := by
    rintro out ⟨rest, _, hlength, -⟩
    have := hword _ _ hlength
    omega
  obtain ⟨b, w', hrun, hiff, hfed⟩ := internalUncompress_spec (S := S) (W := arrayWriter)
    (w := { mem := uncompressed }) (R := SnappyArrayWriter.Holds uncompressed) hscratch hsource
    (show ∀ n rest, getVarint32PtrFallback (S.bytes compressed) = some (n, rest) → n ≤ 2^32 - 1 → _ from
      fun n rest h _ => ⟨arrayWriter_models (hroom n rest h) (hword n rest h),
        Nat.zero_add n, rfl, Nat.zero_le _, rfl, rfl, rfl⟩)
  refine ⟨b, w', ?_, hiff.trans ?_, fun out h => hfed out (hshort out h) h⟩
  · unfold rawUncompress
    rw [hrun, Option.map_some]
  · exact exists_congr fun out => and_iff_right_of_imp (hshort out)

/-- An array that holds a string has it in front, and keeps what is behind. -/
theorem SnappyArrayWriter.Holds.mem_eq (h : SnappyArrayWriter.Holds dest out.length w out) :
    w.mem = out ++ dest.drop out.length := by
  rw [← h.behind]
  nth_rewrite 1 [← h.front]
  exact (List.take_append_drop _ _).symm

end LevelDb.SnappySrc
