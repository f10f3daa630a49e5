import LevelDb.SnappySrc.Fragment
import LevelDb.SnappySrc.Uncompress

/-!
# Compressing and uncompressing

`Compress` writes the length and the items of each block, one block after the other, into an array of
`MaxCompressedLength` bytes, and what it writes is the compressed form of its source: unless this has 2GB or
more, where an `int` cannot hold the length any more (`compress_spec`, `uncompresses_iff`).
-/

namespace LevelDb.SnappySrc

open Lib

variable {σ : Type}

/-! ## Blocks -/

/-- The loop that reads a block into the scratch buffer. The induction is on the rounds. -/
theorem gather_spec (S : Source σ) (numToRead : ℕ) : ∀ (rounds : ℕ) (buffer : Slice) (reader : σ),
    numToRead < buffer.length + rounds → buffer.length ≤ numToRead →
    numToRead ≤ (buffer ++ S.bytes reader).length →
    ∃ reader', gather S numToRead rounds buffer reader =
        some ((buffer ++ S.bytes reader).take numToRead, reader') ∧
      S.bytes reader' = (buffer ++ S.bytes reader).drop numToRead
  | 0, buffer, _, hrounds, hle, _ => by omega
  | rounds + 1, buffer, reader, hrounds, hle, henough => by
    rw [gather]
    split_ifs with hmore
    · have hpeek : 0 < (S.peek reader).length := by
        rw [List.length_append] at henough
        refine List.length_pos_iff.mpr (S.peek_ne_nil reader fun hnil => ?_)
        rw [hnil, List.length_nil] at henough
        omega
      have hle' := S.length_peek_le reader
      dsimp only
      generalize hn : min (S.peek reader).length (numToRead - buffer.length) = n
      -- the bytes that are copied are the next ones
      have htake : (S.peek reader).take n = (S.bytes reader).take n := by
        obtain ⟨rest, hrest⟩ := S.peek_isPrefix reader
        rw [← hrest, List.take_append_of_le_length (by omega)]
      have hsame : buffer ++ (S.peek reader).take n ++ S.bytes (S.skip n reader) =
          buffer ++ S.bytes reader := by
        rw [S.bytes_skip n reader (by omega), htake, List.append_assoc, List.take_append_drop]
      have hlength : (buffer ++ (S.peek reader).take n).length = buffer.length + n := by
        rw [List.length_append, List.length_take_of_le (by omega)]
      have ih := gather_spec S numToRead rounds (buffer ++ (S.peek reader).take n) (S.skip n reader)
        (by omega) (by omega) (hsame ▸ henough)
      rw [hsame] at ih
      exact ih
    · obtain hfull : numToRead = buffer.length := by omega
      exact ⟨reader, by rw [hfull, List.take_left], by rw [hfull, List.drop_left]⟩

/-- The next block has the next bytes. -/
theorem nextBlock_spec (S : Source σ) (numToRead : ℕ) (reader : σ)
    (henough : numToRead ≤ (S.bytes reader).length) :
    ∃ reader', nextBlock S numToRead reader = some ((S.bytes reader).take numToRead, reader') ∧
      S.bytes reader' = (S.bytes reader).drop numToRead := by
  have hle := S.length_peek_le reader
  obtain ⟨rest, hrest⟩ := S.peek_isPrefix reader
  unfold nextBlock
  dsimp only
  split_ifs with hflat
  · refine ⟨_, ?_, S.bytes_skip numToRead reader henough⟩
    rw [← hrest, List.take_append_of_le_length hflat]
  · have hsame : S.peek reader ++ S.bytes (S.skip (S.peek reader).length reader) = S.bytes reader := by
      rw [S.bytes_skip _ reader hle, ← hrest, List.drop_left]
    have hgather := gather_spec S numToRead (numToRead + 1) (S.peek reader)
      (S.skip (S.peek reader).length reader) (by omega) (by omega) (hsame ▸ henough)
    rw [hsame] at hgather
    exact hgather

/-- The number of entries of a hash table is a power of two. -/
theorem getHashTable_eq (inputSize : ℕ) : ∃ k < 32, getHashTable inputSize = List.replicate (2^k) 0 := by
  have hloop : ∀ k, k ≤ 14 → ∃ k' < 32, hashTableSize inputSize (2^k) = 2^k' := by
    intro k hk
    induction hn : 14 - k generalizing k with
    | zero =>
      obtain rfl : k = 14 := by omega
      refine ⟨14, by decide, ?_⟩
      rw [hashTableSize, dif_neg]
      unfold kMaxHashTableSize
      omega
    | succ n ih =>
      rw [hashTableSize]
      split_ifs with hgrow
      · rw [Nat.shiftLeft_eq, Nat.pow_one, ← Nat.pow_succ]
        exact ih (k + 1) (by omega) (by omega)
      · exact ⟨k, by omega, rfl⟩
  obtain ⟨k, hk, hsize⟩ := hloop 8 (by decide)
  exact ⟨k, hk, congrArg (fun size => List.replicate size 0) hsize⟩

/-- The main loop of `Compress`. The induction is on the rounds: a block that is not the last one has
32768 bytes, and none of them more than it is allowed. -/
theorem compressBlocks_spec {word : ℕ} (hword : word = 4 ∨ word = 8) (S : Source σ) :
    ∀ (rounds : ℕ) (n : ℤ) (reader : σ) (out : Output), n < rounds → n ≤ (S.bytes reader).length →
    0 < rounds → (0 < n → 6 * out.op + 7 * n.toNat + 107 ≤ 6 * out.mem.length) →
    ∃ o items written, compressBlocks word S rounds n reader out = some o ∧ Wrote out o written ∧
      SpellsAll SpellsItem items written ∧ expand items [] = some ((S.bytes reader).take n.toNat) ∧
      6 * written.length ≤ 7 * n.toNat + (if 0 < n then 5 else 0)
  | 0, _, _, _, _, _, hrounds, _ => absurd hrounds (Nat.lt_irrefl _)
  | rounds + 1, n, reader, out, hn, hle, _, hroom => by
    have hsize : kBlockSize = 32768 := rfl
    rw [compressBlocks]
    split_ifs with hmore
    · have hroom' := hroom hmore
      dsimp only
      generalize hm : min n.toNat kBlockSize = m
      obtain ⟨reader', hblock, hrest⟩ := nextBlock_spec S m reader (by omega)
      have hlength : ((S.bytes reader).take m).length = m := List.length_take_of_le (by omega)
      obtain ⟨k, hk, htable⟩ := getHashTable_eq m
      obtain ⟨o₁, hfragment, hemitted⟩ := compressFragment_spec hword hk
        (show ((S.bytes reader).take m).length ≤ kBlockSize by omega)
        (show Room ((S.bytes reader).take m) out by unfold Room; omega)
      obtain ⟨hmem, hop⟩ := hemitted.op_le
      obtain ⟨items₁, written₁, hwrote₁, hspells₁, hexpand₁, hlength₁⟩ := hemitted
      rw [List.take_length] at hexpand₁
      rw [hlength] at hop hlength₁
      have hdebt : (if 6 ≤ m then 0 else 5 : ℤ) ≤ 5 ∧ (6 ≤ m → (if 6 ≤ m then 0 else 5 : ℤ) = 0) :=
        ⟨by split_ifs <;> omega, fun h => if_pos h⟩
      have hrest' : (S.bytes reader').length = (S.bytes reader).length - m := by rw [hrest, List.length_drop]
      obtain ⟨o, items, written, hrun, hwrote, hspells, hexpand, hbound⟩ := compressBlocks_spec hword S rounds
        (n - m) reader' o₁ (by omega) (by omega) (by omega) (fun _ => by omega)
      rw [hblock, Option.bind_some, htable, hfragment, Option.bind_some]
      refine ⟨o, items₁ ++ items, written₁ ++ written, hrun, hwrote₁.trans hwrote, hspells₁.append hspells,
        ?_, ?_⟩
      · have hfront := expand_front ((S.bytes reader).take m) hexpand
        rw [List.append_nil] at hfront
        rw [expand_append, hexpand₁, Option.bind_some, hfront, hrest,
          show n.toNat = m + (n - m).toNat by omega, List.take_add]
      · rw [List.length_append]
        split_ifs at hbound with hlast <;> omega
    · refine ⟨out, [], [], rfl, Wrote.refl out, spellsAll_nil _, ?_, Nat.zero_le _⟩
      rw [show n.toNat = 0 by omega]
      rfl

/-! ## Strings -/

/-- How many bytes `Compress` takes to have, since `N` is an `int`. -/
def blockBytes (length : ℕ) : ℕ := (toInt32 length).toNat

/-- An `int` is not more than the number that it was assigned, and has its bits. -/
theorem toInt32_spec (length : ℕ) :
    toInt32 length ≤ length ∧ (toInt32 length % 2^32).toNat = length % 2^32 := by
  unfold toInt32 Int.bmod
  dsimp only
  split_ifs <;> omega

/-- The low 32 bits, unless the highest of them is set. -/
theorem blockBytes_eq (length : ℕ) :
    blockBytes length = if length % 2^32 < 2^31 then length % 2^32 else 0 := by
  unfold blockBytes toInt32 Int.bmod
  dsimp only
  split_ifs <;> omega

/-- An `int` does not hold more than there is, and holds everything below 2GB. -/
theorem blockBytes_spec (length : ℕ) : blockBytes length ≤ length ∧
    (length < 2^31 → blockBytes length = length) ∧ (blockBytes length = length → length < 2^31) := by
  rw [blockBytes_eq]
  split_ifs <;> omega

/-- A length takes five bytes at most. -/
theorem length_encodeVarint32_le (v : ℕ) : (encodeVarint32 v).length ≤ 5 := by
  unfold encodeVarint32
  split_ifs <;> simp

/-- `Compress` into an array of `MaxCompressedLength` bytes accesses nothing outside of it, and writes the
length and the items that stand for the bytes of the source, as far as an `int` can count them. -/
theorem compress_spec {word : ℕ} (hword : word = 4 ∨ word = 8) (S : Source σ) (reader : σ) (dest : Slice)
    (hdest : maxCompressedLength (S.bytes reader).length ≤ dest.length) :
    ∃ o items body, compress word S reader dest = some o ∧ o.mem.length = dest.length ∧
      o.op ≤ dest.length ∧ o.mem.take o.op = encodeVarint32 ((S.bytes reader).length % 2^32) ++ body ∧
      SpellsAll SpellsItem items body ∧
      expand items [] = some ((S.bytes reader).take (blockBytes (S.bytes reader).length)) ∧
      6 * body.length ≤ 7 * blockBytes (S.bytes reader).length + 5 := by
  obtain ⟨hle, -⟩ := blockBytes_spec (S.bytes reader).length
  obtain ⟨hint, hmod⟩ := toInt32_spec (S.bytes reader).length
  have hheader := length_encodeVarint32_le ((S.bytes reader).length % 2^32)
  have hbytes : blockBytes (S.bytes reader).length = (toInt32 (S.bytes reader).length).toNat := rfl
  unfold maxCompressedLength at hdest
  unfold compress
  dsimp only
  rw [hmod, hbytes]
  rw [hbytes] at hle
  generalize toInt32 (S.bytes reader).length = n at hle hint ⊢
  obtain ⟨o₁, hput, hwrote₁⟩ := Output.put_spec ⟨dest, 0⟩
    (encodeVarint32 ((S.bytes reader).length % 2^32)) (by show 0 + _ ≤ dest.length; omega)
  have hmem := hwrote₁.length_mem
  have hop := hwrote₁.op
  dsimp only at hmem hop
  obtain ⟨o, items, body, hrun, hwrote, hspells, hexpand, hlength⟩ := compressBlocks_spec hword S
    ((S.bytes reader).length + 1) n reader o₁ (by omega) hint (by omega) (fun _ => by omega)
  have hboth := hwrote₁.trans hwrote
  have hbody : 6 * body.length ≤ 7 * n.toNat + 5 := by
    refine hlength.trans ?_
    split_ifs <;> omega
  rw [hput, Option.bind_some]
  refine ⟨o, items, body, hrun, hboth.length_mem, ?_, ?_, hspells, hexpand, hbody⟩
  · have hop' := hwrote.op
    omega
  · have hfront := hboth.front
    rw [List.take_zero, List.nil_append] at hfront
    exact hfront

/-- A varint and items are the compressed form of what the items stand for, if this has the right length. -/
theorem uncompresses_items {items : List (Item UInt8)} {body out : Slice} {n : ℕ} (hn : n < 2^32)
    (hspells : SpellsAll SpellsItem items body) (hexpand : expand items [] = some out) (out' : Slice) :
    Uncompresses (encodeVarint32 n ++ body) out' ↔ out' = out ∧ out.length = n := by
  have hhead : getVarint32PtrFallback (encodeVarint32 n ++ body) = some (n, body) := by
    rw [← getVarint32_eq, getVarint32_encodeVarint32 hn]
  have hreads : ReadsAll readItem body items := hspells.readsAll fun _ _ rest h => h rest
  constructor
  · rintro ⟨rest, items', hhead', hreads', hexpand'⟩
    obtain ⟨hn', rfl⟩ := Prod.mk.inj (Option.some.inj (hhead.symm.trans hhead'))
    rw [hreads'.unique rfl hreads, hexpand] at hexpand'
    obtain rfl := Option.some.inj hexpand'
    exact ⟨rfl, hn'.symm⟩
  · rintro ⟨rfl, hlength⟩
    exact ⟨body, items, hlength ▸ hhead, hreads, hexpand⟩

/-- A length that was encoded does not have bits in excess. -/
theorem not_excessBits {n : ℕ} (hn : n < 2^32) (body : Slice) : ¬ExcessBits (encodeVarint32 n ++ body) := by
  rintro ⟨v, rest, hvarint, hlength, hlarge⟩
  rw [← getVarint32_eq, getVarint32_encodeVarint32 hn] at hvarint
  obtain ⟨rfl, rfl⟩ := Prod.mk.inj (Option.some.inj hvarint)
  rw [List.length_append] at hlength
  unfold encodeVarint32 at hlength hlarge
  split_ifs at hlength hlarge with h1 h2 h3 h4
  all_goals simp only [List.length_cons, List.length_nil] at hlength
  any_goals omega
  -- the fifth byte has the highest four bits
  change 16 ≤ (UInt8.ofNat (n >>> 28)).toNat at hlarge
  rw [Nat.shiftRight_eq_div_pow, UInt8.toNat_ofNat'] at hlarge
  omega

/-- What `Snappy_Compress` leaves in a string: the length of its input as a word, and items that stand for as
much of it as an `int` can count. -/
theorem snappyCompress_eq {word : ℕ} (hword : word = 4 ∨ word = 8) (input output : Slice) :
    ∃ body, snappyCompress word input output = some (encodeVarint32 (input.length % 2^32) ++ body) ∧
      (encodeVarint32 (input.length % 2^32) ++ body).length ≤ maxCompressedLength input.length ∧
      6 * (encodeVarint32 (input.length % 2^32) ++ body).length ≤ 7 * blockBytes input.length + 35 ∧
      ∀ out, Uncompresses (encodeVarint32 (input.length % 2^32) ++ body) out ↔
        out = input.take (blockBytes input.length) ∧ out.length = input.length % 2^32 := by
  have hlength : (resize 0 (maxCompressedLength input.length) output).length =
      maxCompressedLength input.length := length_resize _ _ _
  obtain ⟨o, items, body, hrun, hmem, hop, hfront, hspells, hexpand, hsize⟩ :=
    compress_spec hword byteArraySource input (resize 0 (maxCompressedLength input.length) output)
      hlength.ge
  change expand items [] = some (input.take (blockBytes input.length)) at hexpand
  change o.mem.take o.op = encodeVarint32 (input.length % 2^32) ++ body at hfront
  change 6 * body.length ≤ 7 * blockBytes input.length + 5 at hsize
  obtain ⟨hle, -, -⟩ := blockBytes_spec input.length
  have htake : (input.take (blockBytes input.length)).length = blockBytes input.length :=
    List.length_take_of_le hle
  have hheader := length_encodeVarint32_le (input.length % 2^32)
  have hword' : input.length % 2^32 < 2^32 := Nat.mod_lt _ (by decide)
  have hiff := uncompresses_items hword' hspells hexpand
  refine ⟨body, ?_, ?_, ?_, fun out => (hiff out).trans ?_⟩
  · unfold snappyCompress rawCompress
    rw [hrun, Option.map_some, ← hfront]
    unfold resize
    rw [show o.op - o.mem.length = 0 by omega, List.replicate_zero, List.append_nil]
  · have hall := congrArg List.length hfront
    rw [List.length_take_of_le (by omega)] at hall
    rw [← hall, ← hlength]
    exact hop
  · rw [List.length_append]
    omega
  · refine and_congr_right fun hout => ?_
    rw [hout]

/-- An `int` counts an input of less than 2GB. -/
theorem take_blockBytes_iff (input : Slice) :
    (input = input.take (blockBytes input.length) ∧ input.length = input.length % 2^32) ↔
      input.length < 2^31 := by
  obtain ⟨hle, hint, hint'⟩ := blockBytes_spec input.length
  constructor
  · rintro ⟨hsame, -⟩
    have hlen := congrArg List.length hsame
    rw [List.length_take_of_le hle] at hlen
    exact hint' hlen.symm
  · intro hshort
    rw [hint hshort, List.take_length]
    exact ⟨rfl, by omega⟩

/-- What `Snappy_Compress` leaves in a string is the length of its input and the items that stand for as
much of it as an `int` can count: the compressed form of the input, if and only if this has less than 2GB.
Nothing outside of the input and of the string is accessed. -/
theorem snappyCompress_spec {word : ℕ} (hword : word = 4 ∨ word = 8) (input output : Slice) :
    ∃ c, snappyCompress word input output = some c ∧ c.length ≤ maxCompressedLength input.length ∧
      6 * c.length ≤ 7 * blockBytes input.length + 35 ∧ ¬ExcessBits c ∧
      (∀ out, Uncompresses c out ↔ out = input.take (blockBytes input.length) ∧
        out.length = input.length % 2^32) ∧
      (Uncompresses c input ↔ input.length < 2^31) := by
  obtain ⟨body, hcompress, hroom, hsize, hall⟩ := snappyCompress_eq hword input output
  exact ⟨_, hcompress, hroom, hsize, not_excessBits (Nat.mod_lt _ (by decide)) body, hall,
    (hall input).trans (take_blockBytes_iff input)⟩

/-- The result at a hundred equal bytes, on a machine with words of eight bytes. -/
theorem snappyCompress_spec_repetition :
    ∃ c, snappyCompress 8 (List.replicate 100 97) [] = some c ∧
      c.length ≤ maxCompressedLength (List.replicate 100 97 : Slice).length ∧
      6 * c.length ≤ 7 * blockBytes (List.replicate 100 97 : Slice).length + 35 ∧ ¬ExcessBits c ∧
      (∀ out, Uncompresses c out ↔
        out = (List.replicate 100 97).take (blockBytes (List.replicate 100 97 : Slice).length) ∧
        out.length = (List.replicate 100 97 : Slice).length % 2^32) ∧
      (Uncompresses c (List.replicate 100 97) ↔ (List.replicate 100 97 : Slice).length < 2^31) :=
  snappyCompress_spec (Or.inr rfl) (List.replicate 100 97) []

/-- What `Snappy_Compress` has compressed is uncompressed again, whatever regions it comes in, by whichever
match lengths were found. -/
theorem rawUncompress_snappyCompress {word : ℕ} (hword : word = 4 ∨ word = 8) (input output : Slice)
    (hshort : input.length < 2^31) :
    ∃ c, snappyCompress word input output = some c ∧
      ∀ {σ : Type} (S : Source σ) (reader : σ) (scratch dest : Slice), S.bytes reader = c →
        scratch.length = 5 → input.length ≤ dest.length →
        rawUncompress S scratch reader dest = some (true, input ++ dest.drop input.length) := by
  obtain ⟨body, hcompress, -, hsize, hall⟩ := snappyCompress_eq hword input output
  obtain ⟨-, hint, -⟩ := blockBytes_spec input.length
  rw [hint hshort] at hsize
  have hc := (hall input).mpr ((take_blockBytes_iff input).mpr hshort)
  generalize encodeVarint32 (input.length % 2^32) ++ body = c at *
  obtain ⟨rest, items, hhead, -⟩ := id hc
  refine ⟨c, hcompress, fun S reader scratch dest hbytes hscratch hdest => ?_⟩
  obtain ⟨b, w, hrun, hb, hholds⟩ := rawUncompress_holds S scratch reader dest hscratch
    (by rw [hbytes]; omega) fun n rest' h => by
      rw [hbytes] at h
      obtain ⟨rfl, -⟩ := Prod.mk.inj (Option.some.inj (hhead.symm.trans h))
      exact hdest
  rw [hbytes] at hb hholds
  rw [hrun, hb.mpr ⟨input, hc⟩, (hholds input hc).mem_eq]

/-- Bytes that come in regions of three. -/
theorem rawUncompress_snappyCompress_regions :
    ∃ c, snappyCompress 4 [1, 2, 3] [] = some c ∧
      rawUncompress (regionSource 2) [0, 0, 0, 0, 0] c [9, 9, 9, 9] = some (true, [1, 2, 3, 9]) := by
  obtain ⟨c, hcompress, hrun⟩ := rawUncompress_snappyCompress (Or.inl rfl) [1, 2, 3] [] (by decide)
  exact ⟨c, hcompress, hrun (regionSource 2) c [0, 0, 0, 0, 0] [9, 9, 9, 9] rfl rfl (by decide)⟩

/-- The regions of a source do not make a difference to `Compress`. -/
theorem compress_eq (word : ℕ) (S : Source σ) (reader : σ) (dest : Slice) :
    compress word S reader dest = compress word byteArraySource (S.bytes reader) dest := by
  have hloop : ∀ (rounds : ℕ) (n : ℤ) (reader : σ) (out : Output), n ≤ (S.bytes reader).length →
      compressBlocks word S rounds n reader out =
        compressBlocks word byteArraySource rounds n (S.bytes reader) out := by
    intro rounds
    induction rounds with
    | zero => exact fun _ _ _ _ => rfl
    | succ rounds ih =>
      intro n reader out hle
      rw [compressBlocks, compressBlocks]
      split_ifs with hmore
      · dsimp only
        generalize hm : min n.toNat kBlockSize = m
        obtain ⟨reader', hblock, hrest⟩ := nextBlock_spec S m reader (by omega)
        obtain ⟨rest, hblock', hrest'⟩ := nextBlock_spec byteArraySource m (S.bytes reader)
          (show m ≤ (S.bytes reader).length by omega)
        change rest = (S.bytes reader).drop m at hrest'
        have hshort : n - m ≤ (S.bytes reader').length := by
          rw [hrest, List.length_drop]
          omega
        rw [hblock, hblock', Option.bind_some, Option.bind_some, hrest', ← hrest]
        exact congrArg _ (funext fun out => ih (n - m) reader' out hshort)
      · rfl
  obtain ⟨hint, -⟩ := toInt32_spec (S.bytes reader).length
  have hbytes : byteArraySource.bytes (S.bytes reader) = S.bytes reader := rfl
  unfold compress
  dsimp only
  rw [hbytes]
  generalize toInt32 (S.bytes reader).length = n at hint ⊢
  exact congrArg _ (funext fun out => hloop _ n reader out hint)

end LevelDb.SnappySrc
