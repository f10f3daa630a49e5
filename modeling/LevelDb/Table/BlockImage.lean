import Mathlib.Data.List.Induction
import LevelDb.Table.Block

/-!
# The bytes of a block

What `BlockBuilder` leaves in a block, entry by entry: a `BlockImage` says at which offset every entry
starts, how much of its key it shares with the key before it, and that restart points are offsets of
entries that share nothing. All lengths and offsets are below `2^32` here, so that nothing is cut off.
-/

namespace LevelDb

/-! ## Entries -/

/-- The three lengths of an entry, read one after another. -/
def decodeLengths (input : Slice) : Option (ℕ × ℕ × ℕ × Slice) :=
  (getVarint32 input).bind fun (shared, rest) =>
    (getVarint32 rest).bind fun (nonShared, rest) =>
      (getVarint32 rest).map fun (valueLength, rest) => (shared, nonShared, valueLength, rest)

/-- The fast path of `DecodeEntry` reads what the three varints say. -/
theorem decodeEntry_eq {input : Slice} (h : 3 ≤ input.length) :
    decodeEntry input = (decodeLengths input).bind fun (shared, nonShared, valueLength, rest) =>
      if rest.length % 2^32 < (nonShared + valueLength) % 2^32 then none
      else some (shared, nonShared, valueLength, rest) := by
  match input, h with
  | b0 :: b1 :: b2 :: rest, _ =>
    unfold decodeEntry
    dsimp only
    split_ifs with hfast
    · -- A byte below 128 is a varint.
      have hone : ∀ {b : UInt8} (rest : Slice), b.toNat < 128 →
          getVarint32 (b :: rest) = some (b.toNat, rest) := by
        intro b rest hb
        exact if_pos ((and_high_eq_zero_iff b).mpr hb)
      have h0 : b0.toNat < 128 := lt_of_le_of_lt (Nat.left_le_or.trans Nat.left_le_or) hfast
      have h1 : b1.toNat < 128 := lt_of_le_of_lt (Nat.right_le_or.trans Nat.left_le_or) hfast
      have h2 : b2.toNat < 128 := lt_of_le_of_lt Nat.right_le_or hfast
      have hlengths : decodeLengths (b0 :: b1 :: b2 :: rest) =
          some (b0.toNat, b1.toNat, b2.toNat, rest) := by
        unfold decodeLengths
        simp only [hone _ h0, hone _ h1, hone _ h2, Option.bind_some, Option.map_some]
      rw [hlengths]
    · rfl

/-- A varint has at least one byte. -/
theorem encodeVarint32_length_pos (v : ℕ) : 1 ≤ (encodeVarint32 v).length := by
  unfold encodeVarint32
  split_ifs <;> simp

/-- A varint has at most five bytes. -/
theorem encodeVarint32_length_le (v : ℕ) : (encodeVarint32 v).length ≤ 5 := by
  unfold encodeVarint32
  split_ifs <;> simp

/-- An entry has at least three bytes. -/
theorem blockEntry_length_ge (shared : ℕ) (key value : Slice) :
    3 + (key.length - shared) + value.length ≤ (blockEntry shared key value).length := by
  unfold blockEntry
  simp only [List.length_append, List.length_drop]
  have h1 := encodeVarint32_length_pos (shared % 2^32)
  have h2 := encodeVarint32_length_pos ((key.length - shared) % 2^32)
  have h3 := encodeVarint32_length_pos (value.length % 2^32)
  omega

/-- `DecodeEntry` reads the lengths of an entry. -/
theorem decodeEntry_blockEntry {shared : ℕ} {key value : Slice} (hkey : key.length < 2^32)
    (hshared : shared ≤ key.length) {rest : Slice}
    (hlength : (blockEntry shared key value ++ rest).length < 2^32) :
    decodeEntry (blockEntry shared key value ++ rest) =
      some (shared, key.length - shared, value.length, key.drop shared ++ value ++ rest) := by
  have hge := blockEntry_length_ge shared key value
  rw [List.length_append] at hlength
  have hvalue : value.length < 2^32 := by omega
  have hlengths : decodeLengths (blockEntry shared key value ++ rest) =
      some (shared, key.length - shared, value.length, key.drop shared ++ value ++ rest) := by
    unfold decodeLengths blockEntry
    rw [Nat.mod_eq_of_lt (lt_of_le_of_lt hshared hkey),
      Nat.mod_eq_of_lt (lt_of_le_of_lt (Nat.sub_le _ _) hkey), Nat.mod_eq_of_lt hvalue]
    simp only [List.append_assoc, getVarint32_encodeVarint32 (lt_of_le_of_lt hshared hkey),
      getVarint32_encodeVarint32 (lt_of_le_of_lt (Nat.sub_le key.length shared) hkey),
      getVarint32_encodeVarint32 hvalue, Option.bind_some, Option.map_some]
  rw [decodeEntry_eq (by rw [List.length_append]; omega), hlengths]
  refine if_neg ?_
  rw [List.length_append, List.length_append, List.length_drop]
  omega

/-! ## Blocks -/

/-- The entries of a block in its bytes: where they start, and how much of their keys they share. -/
structure BlockImage (buffer : Slice) (points : List ℕ) (l : List (Slice × Slice))
    (offset shared : ℕ → ℕ) : Prop where
  /-- The first entry starts at 0. -/
  offset_zero : offset 0 = 0
  /-- The last entry ends with the bytes. -/
  offset_length : offset l.length = buffer.length
  /-- The bytes of an entry. -/
  entry : ∀ {i : ℕ} {p : Slice × Slice}, l[i]? = some p → ∃ front back, front.length = offset i ∧
    buffer = front ++ (blockEntry (shared i) p.1 p.2 ++ back) ∧
    offset (i + 1) = offset i + (blockEntry (shared i) p.1 p.2).length
  /-- The first entry shares nothing. -/
  shared_zero : shared 0 = 0
  /-- A key has what it shares. -/
  shared_le : ∀ {i : ℕ} {p : Slice × Slice}, l[i]? = some p → shared i ≤ p.1.length
  /-- The key before it has it too. -/
  shared_key : ∀ {i : ℕ} {p q : Slice × Slice}, l[i]? = some p → l[i + 1]? = some q →
    shared (i + 1) ≤ p.1.length ∧ p.1.take (shared (i + 1)) = q.1.take (shared (i + 1))
  /-- The first restart point. -/
  points_zero : points[0]? = some 0
  /-- Other restart points are offsets of entries that share nothing. -/
  point : ∀ {j r : ℕ}, points[j]? = some r → j = 0 ∨ ∃ i < l.length, offset i = r ∧ shared i = 0

/-- An element of a list with one more at the end. -/
theorem getElem?_concat_cases {α : Type} {l : List α} {x y : α} {i : ℕ} (h : (l ++ [x])[i]? = some y) :
    (i < l.length ∧ l[i]? = some y) ∨ (i = l.length ∧ y = x) := by
  obtain hlt | hge := Nat.lt_or_ge i l.length
  · rw [List.getElem?_append_left hlt] at h
    exact Or.inl ⟨hlt, h⟩
  · rw [List.getElem?_append_right hge, List.getElem?_singleton] at h
    split_ifs at h with hzero
    exact Or.inr ⟨by omega, (Option.some.inj h).symm⟩

namespace BlockImage

variable {buffer : Slice} {points : List ℕ} {l : List (Slice × Slice)} {offset shared : ℕ → ℕ}

/-- An entry takes at least three bytes, and those of its key and value. -/
theorem offset_succ (h : BlockImage buffer points l offset shared) {i : ℕ} {p : Slice × Slice}
    (hp : l[i]? = some p) :
    offset i + 3 + (p.1.length - shared i) + p.2.length ≤ offset (i + 1) := by
  obtain ⟨front, back, -, -, hnext⟩ := h.entry hp
  have hge := blockEntry_length_ge (shared i) p.1 p.2
  omega

/-- An entry that comes before another one is at a smaller offset. -/
theorem offset_lt (h : BlockImage buffer points l offset shared) {i j : ℕ} (hij : i < j)
    (hj : j ≤ l.length) : offset i < offset j := by
  induction j with
  | zero => exact absurd hij (Nat.not_lt_zero i)
  | succ j ih =>
    have hp : l[j]? = some (l.get ⟨j, hj⟩) := List.getElem?_eq_getElem hj
    have hstep := h.offset_succ hp
    obtain hlt | rfl := Nat.lt_succ_iff_lt_or_eq.mp hij
    · have hbefore := ih hlt (Nat.le_of_succ_le hj)
      omega
    · omega

/-- An entry that does not come after another one is at no larger offset. -/
theorem offset_le (h : BlockImage buffer points l offset shared) {i j : ℕ} (hij : i ≤ j)
    (hj : j ≤ l.length) : offset i ≤ offset j := by
  obtain hlt | rfl := Nat.lt_or_eq_of_le hij
  · exact (h.offset_lt hlt hj).le
  · exact le_rfl

/-- The offset of an entry, and the one behind the last, lie in the bytes of the block. -/
theorem offset_le_length (h : BlockImage buffer points l offset shared) {i : ℕ} (hi : i ≤ l.length) :
    offset i ≤ buffer.length := h.offset_length ▸ h.offset_le hi le_rfl

/-- There are fewer entries than bytes. -/
theorem le_offset (h : BlockImage buffer points l offset shared) : ∀ {i : ℕ}, i ≤ l.length → i ≤ offset i
  | 0, _ => Nat.zero_le _
  | i + 1, hi => by
    have hbefore := h.le_offset (Nat.le_of_succ_le hi)
    have hlt : offset i < offset (i + 1) := h.offset_lt (Nat.lt_succ_self i) hi
    omega

/-- A key is not longer than the bytes up to its end. -/
theorem key_length_le (h : BlockImage buffer points l offset shared) : ∀ {i : ℕ} {p : Slice × Slice},
    l[i]? = some p → p.1.length ≤ offset (i + 1)
  | 0, p, hp => by
    have hstep := h.offset_succ hp
    rw [h.shared_zero] at hstep
    omega
  | i + 1, p, hp => by
    have hlt : i < l.length := Nat.lt_of_succ_lt (List.getElem?_eq_some_iff.mp hp).1
    have hq : l[i]? = some (l.get ⟨i, hlt⟩) := List.getElem?_eq_getElem hlt
    have hbefore := h.key_length_le hq
    have hshared := (h.shared_key hq hp).1
    have hstep := h.offset_succ hp
    omega

/-- The bytes from an entry on are its encoding and the bytes from the next one on. -/
theorem drop_offset (h : BlockImage buffer points l offset shared) {i : ℕ} {p : Slice × Slice}
    (hp : l[i]? = some p) :
    buffer.drop (offset i) = blockEntry (shared i) p.1 p.2 ++ buffer.drop (offset (i + 1)) := by
  obtain ⟨front, back, hfront, hbuffer, hnext⟩ := h.entry hp
  rw [hnext, ← hfront, hbuffer, List.drop_left, ← List.append_assoc, ← List.length_append,
    List.drop_left]

/-- `DecodeEntry` on an entry, and where the rest of its key and its value are. -/
theorem decodeEntry_drop (h : BlockImage buffer points l offset shared) (hlength : buffer.length < 2^32)
    {i : ℕ} {p : Slice × Slice} (hp : l[i]? = some p) :
    ∃ rest, decodeEntry (buffer.drop (offset i)) =
        some (shared i, p.1.length - shared i, p.2.length, rest) ∧
      buffer.drop (buffer.length - rest.length) =
        p.1.drop (shared i) ++ (p.2 ++ buffer.drop (offset (i + 1))) ∧
      buffer.length - rest.length + (p.1.length - shared i) + p.2.length = offset (i + 1) := by
  have hi : i + 1 ≤ l.length := (List.getElem?_eq_some_iff.mp hp).1
  have hnext := h.offset_le_length hi
  have hkey := h.key_length_le hp
  have hdrop := h.drop_offset hp
  refine ⟨p.1.drop (shared i) ++ p.2 ++ buffer.drop (offset (i + 1)), ?_, ?_⟩
  · rw [hdrop]
    refine decodeEntry_blockEntry (lt_of_le_of_lt (hkey.trans hnext) hlength) (h.shared_le hp) ?_
    rw [← hdrop, List.length_drop]
    omega
  · -- What is left is at the end of the bytes.
    have hsuffix : p.1.drop (shared i) ++ p.2 ++ buffer.drop (offset (i + 1)) <:+ buffer := by
      refine List.IsSuffix.trans ?_ (List.drop_suffix (offset i) buffer)
      rw [hdrop]
      unfold blockEntry
      simp only [List.append_assoc]
      exact (List.suffix_append _ _).trans ((List.suffix_append _ _).trans (List.suffix_append _ _))
    have hle := hsuffix.length_le
    constructor
    · rw [← List.suffix_iff_eq_drop.mp hsuffix, List.append_assoc]
    · rw [List.length_append, List.length_append, List.length_drop, List.length_drop] at hle ⊢
      omega

/-- An empty buffer with the restart point 0 is the image of no entries. -/
theorem nil : BlockImage [] [0] [] (fun _ => 0) (fun _ => 0) where
  offset_zero := rfl
  offset_length := rfl
  entry hp := absurd hp.symm (Option.some_ne_none _)
  shared_zero := rfl
  shared_le hp := absurd hp.symm (Option.some_ne_none _)
  shared_key hp := absurd hp.symm (Option.some_ne_none _)
  points_zero := rfl
  point hr := by
    left
    have hj := (List.getElem?_eq_some_iff.mp hr).1
    rw [List.length_singleton] at hj
    omega

/-- One more entry, which may be at a new restart point. -/
theorem snoc (h : BlockImage buffer points l offset shared) {key : Slice} (value : Slice) {s : ℕ}
    (hkey : s ≤ key.length) (hfirst : l = [] → s = 0)
    (hlast : ∀ p ∈ l.getLast?, s ≤ p.1.length ∧ p.1.take s = key.take s) {points' : List ℕ}
    (hzero : points'[0]? = some 0)
    (hpoints : ∀ {j r : ℕ}, points'[j]? = some r → points[j]? = some r ∨ r = buffer.length ∧ s = 0) :
    BlockImage (buffer ++ blockEntry s key value) points' (l ++ [(key, value)])
      (fun i => if i ≤ l.length then offset i else buffer.length + (blockEntry s key value).length)
      (fun i => if i < l.length then shared i else s) where
  offset_zero := by rw [if_pos (Nat.zero_le _), h.offset_zero]
  offset_length := by
    rw [List.length_append, List.length_append, List.length_singleton, if_neg (by omega)]
  entry {i p} hp := by
    obtain ⟨hlt, hp⟩ | ⟨rfl, rfl⟩ := getElem?_concat_cases hp
    · -- An entry from before.
      obtain ⟨front, back, hfront, hbuffer, hnext⟩ := h.entry hp
      refine ⟨front, back ++ blockEntry s key value, ?_, ?_, ?_⟩
      · rw [if_pos hlt.le, hfront]
      · rw [if_pos hlt, hbuffer]
        simp only [List.append_assoc]
      · rw [if_pos hlt.le, if_pos hlt, if_pos (Nat.succ_le_of_lt hlt), hnext]
    · -- The new one.
      refine ⟨buffer, [], ?_, ?_, ?_⟩
      · rw [if_pos le_rfl, h.offset_length]
      · rw [if_neg (lt_irrefl _), List.append_nil]
      · rw [if_neg (by omega), if_pos le_rfl, if_neg (lt_irrefl _), h.offset_length]
  shared_zero := by
    by_cases hl : l = []
    · rw [hl, List.length_nil, if_neg (lt_irrefl _)]
      exact hfirst hl
    · rw [if_pos (List.length_pos_iff.mpr hl), h.shared_zero]
  shared_le {i p} hp := by
    obtain ⟨hlt, hp⟩ | ⟨rfl, rfl⟩ := getElem?_concat_cases hp
    · rw [if_pos hlt]
      exact h.shared_le hp
    · rw [if_neg (lt_irrefl _)]
      exact hkey
  shared_key {i p q} hp hq := by
    have hi : i < l.length := by
      have hlength := (List.getElem?_eq_some_iff.mp hq).1
      rw [List.length_append, List.length_singleton] at hlength
      omega
    rw [List.getElem?_append_left hi] at hp
    obtain ⟨hlt, hq⟩ | ⟨heq, rfl⟩ := getElem?_concat_cases hq
    · rw [if_pos hlt]
      exact h.shared_key hp hq
    · -- The key before the new one is the last one from before.
      rw [heq, if_neg (lt_irrefl _)]
      apply hlast
      rw [List.getLast?_eq_getElem?, show l.length - 1 = i by omega]
      exact hp
  points_zero := hzero
  point {j r} hr := by
    rw [List.length_append, List.length_singleton]
    obtain hold | ⟨rfl, hs⟩ := hpoints hr
    · obtain hzero | ⟨i, hi, hoffset, hshared⟩ := h.point hold
      · exact Or.inl hzero
      · right
        refine ⟨i, by omega, ?_, ?_⟩
        · rw [if_pos hi.le, hoffset]
        · rw [if_pos hi, hshared]
    · right
      refine ⟨l.length, by omega, ?_, ?_⟩
      · rw [if_pos le_rfl, h.offset_length]
      · rw [if_neg (lt_irrefl _), hs]

end BlockImage

/-! ## The builder -/

/-- What a builder has after some entries. Offsets are only right as long as they are below `2^32`. -/
structure BlockBuilder.Holds (b : BlockBuilder) (l : List (Slice × Slice)) : Prop where
  /-- The entries are in the buffer. -/
  image : b.buffer.length < 2^32 → ∃ offset shared, BlockImage b.buffer b.restarts l offset shared
  /-- The last key, or the empty one. -/
  lastKey : b.lastKey = (l.getLast?.map Prod.fst).getD []
  /-- There is a restart point. -/
  restarts : b.restarts ≠ []
  /-- There are bytes if there are entries. -/
  buffer_nil : b.buffer = [] ↔ l = []

/-- A new builder has no entries. -/
theorem BlockBuilder.Holds.nil : ({} : BlockBuilder).Holds [] where
  image _ := ⟨_, _, BlockImage.nil⟩
  lastKey := rfl
  restarts := List.cons_ne_nil _ _
  buffer_nil := ⟨fun _ => rfl, fun _ => rfl⟩

/-- After `Add` the builder holds the entries before and the new one behind them. -/
theorem BlockBuilder.Holds.add {b : BlockBuilder} {l : List (Slice × Slice)} (h : b.Holds l)
    (interval : ℕ) (key value : Slice) : (b.add interval key value).Holds (l ++ [(key, value)]) := by
  have hlastKey : ((l ++ [(key, value)]).getLast?.map Prod.fst).getD [] = key := by
    rw [List.getLast?_concat]
    rfl
  have hnil : ∀ shared, b.buffer ++ blockEntry shared key value = [] ↔ l ++ [(key, value)] = [] := by
    intro shared
    have hge := blockEntry_length_ge shared key value
    constructor
    · intro hempty
      rw [(List.append_eq_nil_iff.mp hempty).2, List.length_nil] at hge
      omega
    · intro hempty
      exact absurd hempty (List.append_ne_nil_of_right_ne_nil _ (List.cons_ne_nil _ _))
  unfold BlockBuilder.add
  -- Between restart points a key shares what it can, at a new one nothing.
  split_ifs with hcounter
  · have hle := sharedLength_le b.lastKey key
    have htake := take_sharedLength b.lastKey key
    refine ⟨fun hlength => ?_, ?_, h.restarts, hnil _⟩
    · rw [List.length_append] at hlength
      obtain ⟨offset, shared, himage⟩ := h.image (by omega)
      refine ⟨_, _, himage.snoc value hle.2 ?_ ?_ himage.points_zero Or.inl⟩
      · intro hl
        have hempty : b.lastKey = [] := by rw [h.lastKey, hl]; rfl
        rw [hempty]
        unfold sharedLength
        rfl
      · intro p hp
        have hlast : b.lastKey = p.1 := by rw [h.lastKey, Option.mem_def.mp hp]; rfl
        rw [← hlast]
        exact ⟨hle.1, htake⟩
    · dsimp only
      rw [hlastKey, htake, List.take_append_drop]
  · refine ⟨fun hlength => ?_, hlastKey.symm, List.append_ne_nil_of_left_ne_nil h.restarts _, hnil 0⟩
    rw [List.length_append] at hlength
    obtain ⟨offset, shared, himage⟩ := h.image (by omega)
    refine ⟨_, _, himage.snoc value (Nat.zero_le _) (fun _ => rfl) ?_ ?_ ?_⟩
    · intro p _
      exact ⟨Nat.zero_le _, rfl⟩
    · exact List.getElem?_append_left (List.length_pos_iff.mpr h.restarts) ▸ himage.points_zero
    · intro j r hr
      obtain ⟨-, hr⟩ | ⟨-, rfl⟩ := getElem?_concat_cases hr
      · exact Or.inl hr
      · exact Or.inr ⟨Nat.mod_eq_of_lt (by omega), rfl⟩

/-- The builder after `Add` calls. -/
def BlockBuilder.ofList (interval : ℕ) (l : List (Slice × Slice)) : BlockBuilder :=
  l.foldl (fun b p => b.add interval p.1 p.2) {}

/-- The builder of a list with one more entry has got one more call of `Add`. -/
theorem BlockBuilder.ofList_concat (interval : ℕ) (l : List (Slice × Slice)) (p : Slice × Slice) :
    ofList interval (l ++ [p]) = (ofList interval l).add interval p.1 p.2 := by
  unfold ofList
  rw [List.foldl_append]
  rfl

/-- The builder has what it was given. -/
theorem BlockBuilder.holds_ofList (interval : ℕ) (l : List (Slice × Slice)) :
    (ofList interval l).Holds l := by
  induction l using List.reverseRecOn with
  | nil => exact BlockBuilder.Holds.nil
  | append_singleton l p ih =>
    rw [ofList_concat]
    exact ih.add interval p.1 p.2

/-! ## Opening a block -/

/-- A finished block with its entries, whose offsets are all right. -/
structure FinishedBlock where
  /-- The builder that is finished. -/
  builder : BlockBuilder
  /-- The entries. -/
  entries : List (Slice × Slice)
  /-- Where they start. -/
  offset : ℕ → ℕ
  /-- What they share. -/
  shared : ℕ → ℕ
  /-- They are in the bytes. -/
  image : BlockImage builder.buffer builder.restarts entries offset shared
  /-- The bytes are not too many. -/
  length_lt : builder.finish.length < 2^32

/-- The number of bytes of a list of offsets. -/
theorem length_flatMap_encodeFixed32 (points : List ℕ) :
    (points.flatMap encodeFixed32).length = points.length * 4 := by
  induction points with
  | nil => rfl
  | cons r points ih =>
    rw [List.flatMap_cons, List.length_append, encodeFixed32_length, ih, List.length_cons]
    omega

/-- The bytes from one of the offsets on. -/
theorem drop_flatMap_encodeFixed32 (rest : Slice) : ∀ {points : List ℕ} {j r : ℕ}, points[j]? = some r →
    ∃ back, (points.flatMap encodeFixed32 ++ rest).drop (j * 4) = encodeFixed32 r ++ back
  | [], _, _, hr => absurd hr.symm (Option.some_ne_none _)
  | r' :: points, 0, r, hr => by
    obtain rfl : r' = r := Option.some.inj hr
    exact ⟨points.flatMap encodeFixed32 ++ rest, List.append_assoc _ _ _⟩
  | r' :: points, j + 1, r, hr => by
    obtain ⟨back, hback⟩ := @drop_flatMap_encodeFixed32 rest points j r hr
    refine ⟨back, ?_⟩
    rw [← hback, List.flatMap_cons, List.append_assoc, show (j + 1) * 4 = 4 + j * 4 by omega,
      ← List.drop_drop]
    rfl

/-- The number of bytes of a finished block, as `CurrentSizeEstimate` says. -/
theorem BlockBuilder.length_finish (b : BlockBuilder) : b.finish.length = b.currentSizeEstimate := by
  unfold BlockBuilder.finish BlockBuilder.currentSizeEstimate
  rw [List.length_append, List.length_append, length_flatMap_encodeFixed32, encodeFixed32_length]

/-- What a builder has is a finished block, if it is not too long. -/
theorem BlockBuilder.Holds.exists_finishedBlock {b : BlockBuilder} {l : List (Slice × Slice)}
    (h : b.Holds l) (hlength : b.finish.length < 2^32) :
    ∃ f : FinishedBlock, f.builder = b ∧ f.entries = l := by
  have hbuffer : b.buffer.length < 2^32 := by
    rw [b.length_finish, BlockBuilder.currentSizeEstimate] at hlength
    omega
  obtain ⟨offset, shared, himage⟩ := h.image hbuffer
  exact ⟨⟨b, l, offset, shared, himage, hlength⟩, rfl, rfl⟩

/-- The offsets of the entries fit into 32 bits. -/
theorem FinishedBlock.buffer_lt (f : FinishedBlock) : f.builder.buffer.length < 2^32 := by
  have hlength := f.length_lt
  rw [f.builder.length_finish, BlockBuilder.currentSizeEstimate] at hlength
  omega

/-- A finished block has at least one restart point, also without entries. -/
theorem FinishedBlock.restarts_pos (f : FinishedBlock) : 0 < f.builder.restarts.length :=
  (List.getElem?_eq_some_iff.mp f.image.points_zero).1

/-- The iterator over a finished block has its bytes and restart points, and is not valid yet. -/
theorem BlockBuilder.newIterator_finish {b : BlockBuilder} (hrestarts : b.restarts ≠ [])
    (hlength : b.finish.length < 2^32) (cmp : Comparator) :
    (Block.new b.finish).newIterator cmp = .inr
      { comparator := cmp
        data := b.finish
        restarts := b.buffer.length
        numRestarts := b.restarts.length
        current := b.buffer.length
        restartIndex := b.restarts.length } := by
  have hsize := b.length_finish
  unfold BlockBuilder.currentSizeEstimate at hsize
  have hpos : 0 < b.restarts.length := List.length_pos_iff.mpr hrestarts
  -- The last four bytes are the number of restart points.
  have hnum : decodeFixed32 (b.finish.drop (b.finish.length - 4)) = b.restarts.length := by
    rw [hsize, Nat.add_sub_cancel]
    unfold BlockBuilder.finish
    rw [← length_flatMap_encodeFixed32, ← List.length_append, List.drop_left,
      ← List.append_nil (encodeFixed32 _)]
    exact decodeFixed32_encodeFixed32 (by omega) []
  have hoffset : (b.finish.length + 2^64 - (1 + b.restarts.length) % 2^32 * 4) % 2^32 =
      b.buffer.length := by omega
  have hnew : Block.new b.finish =
      { data := b.finish, size := b.finish.length, restartOffset := b.buffer.length } := by
    unfold Block.new Block.numRestarts
    dsimp only
    rw [hnum, hoffset, if_neg (by omega), if_neg (by omega)]
  rw [hnew]
  unfold Block.newIterator Block.numRestarts
  dsimp only
  rw [hnum, if_neg (by omega), if_neg (by omega)]

/-- The restart points of a finished block. -/
theorem BlockBuilder.getRestartPoint_finish {b : BlockBuilder} {it : BlockIter}
    (hdata : it.data = b.finish) (hrestarts : it.restarts = b.buffer.length) {j r : ℕ}
    (hr : b.restarts[j]? = some r) (hlt : r < 2^32) : it.getRestartPoint j = r := by
  unfold BlockIter.getRestartPoint
  obtain ⟨back, hback⟩ := drop_flatMap_encodeFixed32 (encodeFixed32 b.restarts.length) hr
  have hdrop : it.data.drop (it.restarts + j * 4) = encodeFixed32 r ++ back := by
    rw [hdata, hrestarts, ← hback]
    unfold BlockBuilder.finish
    rw [List.append_assoc, ← List.drop_drop, List.drop_left]
  rw [hdrop]
  exact decodeFixed32_encodeFixed32 hlt back

end LevelDb
