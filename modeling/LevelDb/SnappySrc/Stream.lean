import LevelDb.SnappySrc.Decompressor

/-!
# The decompressor reads the format

Whatever regions a source hands out, `DecompressAllTags` reads the items of its bytes one after the other,
accesses nothing outside of regions and `scratch_`, and feeds them to its writer. What it returns depends
on the bytes alone (`internalUncompress_spec`).
-/

namespace LevelDb.SnappySrc

open Lib

variable {σ ω : Type} {S : Source σ} {W : Writer ω}

/-! ## The buffer -/

/-- The bytes that are not consumed yet. -/
def SnappyDecompressor.pending (S : Source σ) (d : SnappyDecompressor σ) : Slice :=
  d.ip.take d.left ++ (S.bytes d.reader).drop d.peeked

/-- The buffer is inside of an array, and the peeked bytes are there. -/
structure SnappyDecompressor.Buffered (S : Source σ) (d : SnappyDecompressor σ) : Prop where
  /-- The buffered bytes can be read. -/
  left_le : d.left ≤ d.ip.length
  /-- `scratch_` -/
  scratch : d.scratch.length = 5
  /-- The peeked bytes have not been skipped. -/
  peeked_le : d.peeked ≤ (S.bytes d.reader).length
  /-- A word can count the bytes. -/
  bounded : (d.pending S).length < 2^32
  /-- A word can count the bytes of the source as well. -/
  source : (S.bytes d.reader).length < 2^32

variable {d : SnappyDecompressor σ}

/-- The pending bytes are those that are left in the buffer and those behind the peeked ones. -/
theorem SnappyDecompressor.Buffered.length_pending (h : d.Buffered S) :
    (d.pending S).length = d.left + ((S.bytes d.reader).length - d.peeked) := by
  unfold SnappyDecompressor.pending
  rw [List.length_append, List.length_take_of_le h.left_le, List.length_drop]

/-- A word can count the buffered bytes. -/
theorem SnappyDecompressor.Buffered.left_lt (h : d.Buffered S) : d.left % 2^32 = d.left := by
  have hlength := h.length_pending
  have hbounded := h.bounded
  exact Nat.mod_eq_of_lt (by omega)

/-- Skipping the peeked bytes leaves the reader with the bytes behind them. -/
theorem SnappyDecompressor.Buffered.bytes_skipPeeked (h : d.Buffered S) :
    S.bytes (d.skipPeeked S).reader = (S.bytes d.reader).drop d.peeked :=
  S.bytes_skip _ _ h.peeked_le

/-- A region of a source is not longer than what is left. -/
theorem Source.length_peek_le (S : Source σ) (s : σ) : (S.peek s).length ≤ (S.bytes s).length :=
  (S.peek_isPrefix s).length_le

/-- When the buffer is used up, the next region of the source becomes the buffer, or there is none. -/
theorem SnappyDecompressor.peekRegion_spec (hscratch : d.scratch.length = 5)
    (hsource : (S.bytes d.reader).length < 2^32) :
    (d.peekRegion S).Buffered S ∧ (d.peekRegion S).pending S = S.bytes d.reader ∧
      (d.peekRegion S).peeked = (d.peekRegion S).left ∧
      ((d.peekRegion S).left = 0 ↔ S.bytes d.reader = []) := by
  have hle := S.length_peek_le d.reader
  have hmod : (S.peek d.reader).length % 2^32 = (S.peek d.reader).length := Nat.mod_eq_of_lt (by omega)
  have hpending : (d.peekRegion S).pending S = S.bytes d.reader := by
    unfold SnappyDecompressor.peekRegion SnappyDecompressor.pending
    dsimp only
    rw [hmod, List.take_length]
    obtain ⟨rest, hrest⟩ := S.peek_isPrefix d.reader
    rw [← hrest, List.drop_left]
  refine ⟨⟨le_rfl, hscratch, ?_, hpending ▸ hsource, hsource⟩, hpending, hmod, ?_⟩
  · show (S.peek d.reader).length % 2^32 ≤ (S.bytes d.reader).length
    omega
  · show (S.peek d.reader).length = 0 ↔ _
    rw [List.length_eq_zero_iff]
    constructor
    · intro hnil
      by_contra hne
      exact S.peek_ne_nil _ hne hnil
    · intro hnil
      rw [hnil] at hle
      exact List.length_eq_zero_iff.mp (Nat.le_zero.mp hle)

/-- A new region, once the buffer is used up. -/
theorem SnappyDecompressor.Buffered.peekRegion (h : d.Buffered S) :
    ((d.skipPeeked S).peekRegion S).Buffered S ∧
      ((d.skipPeeked S).peekRegion S).pending S = (d.pending S).drop d.left ∧
      ((d.skipPeeked S).peekRegion S).peeked = ((d.skipPeeked S).peekRegion S).left ∧
      (((d.skipPeeked S).peekRegion S).left = 0 ↔ (d.pending S).drop d.left = []) := by
  have hpending : S.bytes (d.skipPeeked S).reader = (d.pending S).drop d.left := by
    unfold SnappyDecompressor.pending
    rw [List.drop_left' (List.length_take_of_le h.left_le), h.bytes_skipPeeked]
  have hbounded := h.bounded
  have hspec := SnappyDecompressor.peekRegion_spec (S := S) (d := d.skipPeeked S) h.scratch (by
    rw [hpending, List.length_drop]
    omega)
  rw [hpending] at hspec
  exact hspec

/-! ## Tags -/

/-- Bytes are stitched together in `scratch_`. The induction is on the rounds. -/
theorem stitch_spec {needed : ℕ} (hneeded : needed ≤ 5) : ∀ (rounds nbuf : ℕ)
    (d : SnappyDecompressor σ), needed - nbuf < rounds → nbuf ≤ needed → d.scratch.length = 5 →
    d.peeked = 0 → (d.scratch.take nbuf ++ S.bytes d.reader).length < 2^32 →
    (S.bytes d.reader).length < 2^32 →
    ∃ b d', stitch S needed rounds nbuf d = some (b, d') ∧ d'.eof = d.eof ∧
      (b = true → d'.Buffered S ∧ d'.pending S = d.scratch.take nbuf ++ S.bytes d.reader ∧
        d'.ip.length = 5 ∧ d'.left = needed) ∧
      (b = false → (d.scratch.take nbuf ++ S.bytes d.reader).length < needed)
  | 0, _, _, hrounds, _, _, _, _, _ => absurd hrounds (Nat.not_lt_zero _)
  | rounds + 1, nbuf, d, hrounds, hnbuf, hscratch, hpeeked, hbounded, hsource => by
    rw [stitch]
    have htake : (d.scratch.take nbuf).length = nbuf := List.length_take_of_le (by omega)
    split_ifs with hlt
    · dsimp only
      split_ifs with hnil
      · have hempty := ((SnappyDecompressor.peekRegion_spec hscratch hsource).2.2.2).mp hnil
        refine ⟨false, d, rfl, rfl, fun hb => (by cases hb), fun _ => ?_⟩
        rw [hempty, List.append_nil, htake]
        exact hlt
      · have hle := S.length_peek_le d.reader
        rw [Nat.mod_eq_of_lt (show (S.peek d.reader).length < 2^32 by omega)]
        set toAdd := min (needed - nbuf) (S.peek d.reader).length with htoAdd
        have hlen : ((S.peek d.reader).take toAdd).length = toAdd := List.length_take_of_le (by omega)
        have hroom : nbuf + ((S.peek d.reader).take toAdd).length ≤ d.scratch.length := by omega
        have hskip : S.bytes (S.skip toAdd d.reader) = (S.bytes d.reader).drop toAdd :=
          S.bytes_skip _ _ (by omega)
        -- the stitched bytes are the next ones
        have hbytes : (overwrite d.scratch nbuf ((S.peek d.reader).take toAdd)).take (nbuf + toAdd) ++
            S.bytes (S.skip toAdd d.reader) = d.scratch.take nbuf ++ S.bytes d.reader := by
          have hfront := take_overwrite hroom
          rw [hlen] at hfront
          obtain ⟨rest, hrest⟩ := S.peek_isPrefix d.reader
          have hpeek : (S.peek d.reader).take toAdd = (S.bytes d.reader).take toAdd := by
            rw [← hrest, List.take_append_of_le_length (by omega)]
          rw [hfront, hskip, List.append_assoc, hpeek, List.take_append_drop]
        have hpos : 0 < (S.peek d.reader).length := Nat.pos_of_ne_zero hnil
        rw [store_eq hroom, Option.bind_some]
        have ih := stitch_spec hneeded rounds (nbuf + toAdd)
          { d with
            scratch := overwrite d.scratch nbuf ((S.peek d.reader).take toAdd)
            reader := S.skip toAdd d.reader } (by omega) (by omega)
          ((length_overwrite hroom).trans hscratch) hpeeked (hbytes ▸ hbounded) ?_
        · dsimp only at ih
          rw [hbytes] at ih
          exact ih
        · show (S.bytes (S.skip toAdd d.reader)).length < 2^32
          rw [hskip, List.length_drop]
          omega
    · obtain rfl : nbuf = needed := by omega
      refine ⟨true, _, rfl, rfl, fun _ => ⟨⟨?_, hscratch, ?_, ?_, hsource⟩, ?_, hscratch, rfl⟩,
        fun hb => (by cases hb)⟩
      · show nbuf ≤ d.scratch.length
        omega
      · show d.peeked ≤ _
        omega
      all_goals
        unfold SnappyDecompressor.pending
        dsimp only
        rw [hpeeked, List.drop_zero]
      exact hbounded

/-- A buffer that is not empty begins with the next byte. -/
theorem SnappyDecompressor.Buffered.head (h : d.Buffered S) (hleft : d.left ≠ 0) :
    ∃ c rest, d.ip = c :: rest ∧ ∃ rest', d.pending S = c :: rest' := by
  have hle := h.left_le
  cases hip : d.ip with
  | nil =>
    rw [hip, List.length_nil] at hle
    omega
  | cons c rest =>
    refine ⟨c, rest, rfl, ?_⟩
    unfold SnappyDecompressor.pending
    rw [hip]
    cases hn : d.left with
    | zero => exact absurd hn hleft
    | succ n => exact ⟨_, rfl⟩

/-- No item can be read when the extra bytes of its tag are not all there. -/
theorem readItem_eq_none_of_short {c : UInt8} {rest : Slice} (h : rest.length < extraBytes c.toNat) :
    readItem (c :: rest) = none := by
  unfold readItem
  dsimp only
  rw [if_pos h]

/-- A tag has at most five bytes. -/
theorem extraBytes_le (c : UInt8) : extraBytes c.toNat ≤ 4 := by
  have hall : ∀ b : Fin 256, extraBytes b.val ≤ 4 := by decide +kernel
  exact hall ⟨c.toNat, c.toNat_lt⟩

/-- The next tag is in the buffer. -/
structure SnappyDecompressor.AtTag (S : Source σ) (d : SnappyDecompressor σ) (c : UInt8) : Prop where
  /-- The buffer. -/
  buffered : d.Buffered S
  /-- The tag byte. -/
  head : d.ip.head? = some c
  /-- "Also ensures that [ip,ip+4] is readable". -/
  readable : 5 ≤ d.ip.length
  /-- The bytes behind it. -/
  tag_le : extraBytes c.toNat + 1 ≤ d.left

/-- A buffer that has all bytes of its first tag is at this tag. -/
theorem SnappyDecompressor.Buffered.atTag (h : d.Buffered S) {c : UInt8} {rest : Slice}
    (hpending : d.pending S = c :: rest) (hreadable : 5 ≤ d.ip.length)
    (htag : extraBytes c.toNat + 1 ≤ d.left) : d.AtTag S c := by
  obtain ⟨c', rest', hip, rest'', hpending'⟩ := h.head (by omega)
  obtain ⟨rfl, -⟩ := List.cons.inj (hpending.symm.trans hpending')
  exact ⟨h, by rw [hip]; rfl, hreadable, htag⟩

/-- `RefillTag` behind the fetching of a new fragment. -/
theorem SnappyDecompressor.Buffered.refillBuffer (h : d.Buffered S) (hleft : d.left ≠ 0) :
    ∃ b d', d.refillBuffer S = some (b, d') ∧ d'.eof = d.eof ∧
      (b = true → d'.pending S = d.pending S ∧ ∃ c, d'.AtTag S c) ∧
      (b = false → readItem (d.pending S) = none) := by
  obtain ⟨c, rest, hip, rest', hpending⟩ := h.head hleft
  have hextra := extraBytes_le c
  have hlength := h.length_pending
  have hleftle := h.left_le
  have hskip := h.bytes_skipPeeked
  have hscratch := h.scratch
  have hsource : (S.bytes (d.skipPeeked S).reader).length < 2^32 := by
    have := h.source
    rw [hskip, List.length_drop]
    omega
  have htake : (d.ip.take d.left).length = d.left := List.length_take_of_le hleftle
  unfold SnappyDecompressor.refillBuffer
  rw [hip, List.head?_cons, Option.bind_some, (entryOf_spec c).1, h.left_lt, ← hip]
  dsimp only
  -- what is moved to the front of `scratch_`
  have hmoved : d.left < 5 → (overwrite d.scratch 0 (d.ip.take d.left)).take d.left = d.ip.take d.left := by
    intro hlt
    have hfront : (overwrite d.scratch 0 (d.ip.take d.left)).take (0 + (d.ip.take d.left).length) =
        d.scratch.take 0 ++ d.ip.take d.left := take_overwrite (by omega)
    rw [htake, Nat.zero_add] at hfront
    rw [hfront]
    rfl
  split_ifs with hshort hfew
  · rw [store_eq (by omega), Option.bind_some]
    have hbytes : (overwrite d.scratch 0 (d.ip.take d.left)).take d.left ++
        S.bytes (d.skipPeeked S).reader = d.pending S := by
      rw [hmoved (by omega), hskip]
      rfl
    obtain ⟨b, d', hstitch, heof, htrue, hfalse⟩ := stitch_spec (S := S)
      (show extraBytes c.toNat + 1 ≤ 5 by omega) (extraBytes c.toNat + 1 + 1) d.left
      { d.skipPeeked S with scratch := overwrite d.scratch 0 (d.ip.take d.left), peeked := 0 } (by omega)
      (by omega) ((length_overwrite (by omega)).trans hscratch) rfl (hbytes ▸ h.bounded) hsource
    rw [hbytes] at htrue hfalse
    refine ⟨b, d', hstitch, heof, fun hb => ?_, fun hb => ?_⟩
    · obtain ⟨hbuffered, hsame, hip', hleft'⟩ := htrue hb
      exact ⟨hsame, c, hbuffered.atTag (hsame.trans hpending) hip'.ge hleft'.ge⟩
    · have hlt := hfalse hb
      rw [hpending, List.length_cons] at hlt
      rw [hpending]
      exact readItem_eq_none_of_short (by omega)
  · rw [store_eq (by omega), Option.map_some]
    have hsize : (overwrite d.scratch 0 (d.ip.take d.left)).length = 5 :=
      (length_overwrite (by omega)).trans hscratch
    set t : SnappyDecompressor σ := { d.skipPeeked S with
      scratch := overwrite d.scratch 0 (d.ip.take d.left)
      peeked := 0
      ip := overwrite d.scratch 0 (d.ip.take d.left)
      left := d.left } with ht
    have hsame : t.pending S = d.pending S := by
      unfold SnappyDecompressor.pending
      rw [ht]
      dsimp only
      rw [hmoved hfew, hskip, List.drop_zero]
    have hbuffered : t.Buffered S :=
      ⟨by rw [ht]; dsimp only; omega, hsize, Nat.zero_le _, hsame ▸ h.bounded, hsource⟩
    exact ⟨true, t, rfl, rfl, fun _ => ⟨hsame, c, hbuffered.atTag (hsame.trans hpending) hsize.ge
      (not_lt.mp hshort)⟩, fun hb => (by cases hb)⟩
  · exact ⟨true, d, rfl, rfl, fun _ => ⟨rfl, c, h.atTag hpending (by omega) (not_lt.mp hshort)⟩,
      fun hb => (by cases hb)⟩

/-- `RefillTag` keeps the bytes that are pending. It returns true at a tag whose bytes are all there,
and false at the end of the input or when the rest of it is no item. -/
theorem SnappyDecompressor.Buffered.refillTag (h : d.Buffered S) (heof : d.eof = false) :
    ∃ b d', d.refillTag S = some (b, d') ∧
      (b = true → d'.eof = false ∧ d'.pending S = d.pending S ∧ ∃ c, d'.AtTag S c) ∧
      (b = false → (d'.eof = true ∧ d.pending S = []) ∨
        (d'.eof = false ∧ d.pending S ≠ [] ∧ readItem (d.pending S) = none)) := by
  have hne : ∀ {d' : SnappyDecompressor σ}, d'.Buffered S → d'.left ≠ 0 → d'.pending S ≠ [] := by
    intro d' h' hleft
    obtain ⟨c, _, _, rest, hpending⟩ := h'.head hleft
    rw [hpending]
    exact List.cons_ne_nil _ _
  unfold SnappyDecompressor.refillTag
  by_cases hleft : d.left = 0
  · obtain ⟨hbuffered, hsame, -, hnil⟩ := h.peekRegion
    rw [hleft, List.drop_zero] at hsame hnil
    rw [if_pos hleft]
    dsimp only
    split_ifs with hnew
    · exact ⟨false, _, rfl, fun hb => (by cases hb), fun _ => Or.inl ⟨rfl, hnil.mp hnew⟩⟩
    · obtain ⟨b, d', hrefill, heof', htrue, hfalse⟩ := hbuffered.refillBuffer hnew
      rw [hsame] at htrue hfalse
      exact ⟨b, d', hrefill, fun hb => ⟨heof'.trans heof, htrue hb⟩,
        fun hb => Or.inr ⟨heof'.trans heof, fun hempty => hnew (hnil.mpr hempty), hfalse hb⟩⟩
  · rw [if_neg hleft]
    obtain ⟨b, d', hrefill, heof', htrue, hfalse⟩ := h.refillBuffer hleft
    exact ⟨b, d', hrefill, fun hb => ⟨heof'.trans heof, htrue hb⟩,
      fun hb => Or.inr ⟨heof'.trans heof, hne h hleft, hfalse hb⟩⟩

/-! ## Items -/

/-- Taking bytes from the buffer leaves the pending bytes behind them. -/
theorem SnappyDecompressor.Buffered.take (h : d.Buffered S) {k : ℕ} (hk : k ≤ d.left) :
    { d with ip := d.ip.drop k, left := d.left - k }.Buffered S ∧
      { d with ip := d.ip.drop k, left := d.left - k }.pending S = (d.pending S).drop k := by
  have hleft := h.left_le
  have hpending : { d with ip := d.ip.drop k, left := d.left - k }.pending S = (d.pending S).drop k := by
    unfold SnappyDecompressor.pending
    dsimp only
    rw [List.drop_append_of_le_length (by rw [List.length_take_of_le hleft]; exact hk), List.drop_take]
  refine ⟨⟨?_, h.scratch, h.peeked_le, ?_, h.source⟩, hpending⟩
  · show d.left - k ≤ (d.ip.drop k).length
    rw [List.length_drop]
    omega
  · have hbounded := h.bounded
    rw [hpending, List.length_drop]
    omega

/-- What a writer does, in terms of what it has been fed: a string of which there may be `n` bytes. No more
than `limit` bytes are appended at once. -/
structure Writer.Models (W : Writer ω) (limit n : ℕ) (R : ω → Slice → Prop) : Prop where
  /-- There are no more than expected. -/
  length_le : ∀ {w out}, R w out → out.length ≤ n
  /-- `CheckLength` -/
  checkLength : ∀ {w out}, R w out → (W.checkLength w = true ↔ out.length = n)
  /-- `Append`, which fails if there are too many. -/
  append : ∀ {w out}, R w out → ∀ (ip : Slice) (len : ℕ) (fast : Bool), len ≤ ip.length → len ≤ limit →
    (fast = true → 16 ≤ ip.length) →
    ∃ w', W.append w ip len fast = some (decide (out.length + len ≤ n), w') ∧
      (out.length + len ≤ n → R w' (out ++ ip.take len))
  /-- `AppendFromSelf`, which also fails if the offset is not inside of the string. -/
  appendFromSelf : ∀ {w out}, R w out → ∀ offset len : ℕ, 0 < len → len ≤ 64 → offset < 2^32 →
    ∃ w', W.appendFromSelf w offset len =
        some (decide ((0 < offset ∧ offset ≤ out.length) ∧ out.length + len ≤ n), w') ∧
      (0 < offset → offset ≤ out.length → out.length + len ≤ n → R w' (copyBack offset len out))

section Items

variable {limit n : ℕ} {R : ω → Slice → Prop} {w : ω} {out : Slice}

/-- A literal that may go over several regions. The induction is on the rounds, of which there are enough:
after the first one, the buffer is not empty. -/
theorem SnappyDecompressor.literal_spec (hW : W.Models limit n R) : ∀ (rounds len : ℕ) (d : SnappyDecompressor σ)
    (w : ω) (out : Slice), d.Buffered S → R w out → (d.pending S).length ≤ limit →
    (len + 1 ≤ rounds ∨ (0 < d.left ∧ 0 < rounds ∧ len ≤ rounds)) →
    ∃ b d' w', d.literal S W rounds len w = some (b, d', w') ∧ d'.eof = d.eof ∧
      (b = true → len ≤ (d.pending S).length ∧ d'.Buffered S ∧ d'.pending S = (d.pending S).drop len ∧
        R w' (out ++ (d.pending S).take len)) ∧
      (b = false → (d.pending S).length < len ∨ n < out.length + len)
  | 0, len, d, w, out, _, _, _, hrounds => by omega
  | rounds + 1, len, d, w, out, h, hR, hlimit, hrounds => by
    have hleftle := h.left_le
    have hlength := h.length_pending
    rw [SnappyDecompressor.literal]
    dsimp only
    rw [h.left_lt]
    by_cases hmore : d.left < len
    · -- The buffer is used up.
      rw [if_pos hmore]
      obtain ⟨w₁, happend, hR₁⟩ := hW.append hR d.ip d.left false hleftle (by omega) fun hf => by cases hf
      obtain ⟨hbuffered, hsame, hpeeked, hnil⟩ := h.peekRegion
      rw [happend, Option.bind_some]
      dsimp only
      have heof : ((d.skipPeeked S).peekRegion S).eof = d.eof := rfl
      generalize (d.skipPeeked S).peekRegion S = t at *
      by_cases hfits : out.length + d.left ≤ n
      · rw [if_pos (decide_eq_true hfits)]
        have ht : ({ t with left := t.peeked } : SnappyDecompressor σ) = t :=
          congrArg (fun left => ({ t with left := left } : SnappyDecompressor σ)) hpeeked
        rw [ht]
        by_cases hzero : t.peeked = 0
        · rw [if_pos hzero]
          refine ⟨false, t, w₁, rfl, heof, fun hb => (by cases hb), fun _ => Or.inl ?_⟩
          have hlast := List.drop_eq_nil_iff.mp (hnil.mp (hpeeked.symm.trans hzero))
          omega
        · rw [if_neg hzero]
          have htake : d.ip.take d.left = (d.pending S).take d.left := by
            unfold SnappyDecompressor.pending
            rw [List.take_left' (List.length_take_of_le hleftle)]
          obtain ⟨b, d', w', hrest, heof', htrue, hfalse⟩ := literal_spec hW rounds (len - d.left) t w₁
            (out ++ d.ip.take d.left) hbuffered (hR₁ hfits) (by rw [hsame, List.length_drop]; omega)
            (Or.inr ⟨by omega, by omega, by omega⟩)
          rw [hsame, List.length_drop, List.drop_drop, htake, List.append_assoc,
            ← List.take_add, show d.left + (len - d.left) = len by omega] at htrue
          rw [hsame, List.length_drop, List.length_append, List.length_take_of_le hleftle] at hfalse
          refine ⟨b, d', w', hrest, heof'.trans heof, fun hb => ?_, fun hb => ?_⟩
          · obtain ⟨hle, hbuffered', hpending', hR'⟩ := htrue hb
            exact ⟨by omega, hbuffered', hpending', hR'⟩
          · rcases hfalse hb with hshort | hlong
            · exact Or.inl (by omega)
            · exact Or.inr (by omega)
      · rw [if_neg (by simpa using hfits)]
        refine ⟨false, d, w₁, rfl, rfl, fun hb => (by cases hb), fun _ => Or.inr ?_⟩
        omega
    · obtain ⟨w', happend, hR'⟩ := hW.append hR d.ip len (decide (16 ≤ d.left))
        ((not_lt.mp hmore).trans hleftle) (by omega) fun hf => (of_decide_eq_true hf).trans hleftle
      obtain ⟨hbuffered, hpending⟩ := h.take (not_lt.mp hmore)
      have htake : (d.pending S).take len = d.ip.take len := by
        unfold SnappyDecompressor.pending
        rw [List.take_append_of_le_length (by rw [List.length_take_of_le hleftle]; omega), List.take_take,
          Nat.min_eq_left (not_lt.mp hmore)]
      rw [if_neg hmore, happend, Option.map_some]
      refine ⟨_, _, w', rfl, rfl, fun hb => ⟨by omega, hbuffered, hpending, ?_⟩, fun hb => Or.inr ?_⟩
      · rw [htake]
        exact hR' (of_decide_eq_true hb)
      · exact not_le.mp (of_decide_eq_false hb)

omit n R w out in
/-- The value of the bytes behind a tag byte. -/
theorem loadTrailer_eq {ip : Slice} {extra : ℕ} (hip : 4 ≤ ip.length) (hextra : extra ≤ 4) :
    loadTrailer ip extra = some (leValue (ip.take extra)) := by
  match ip, hip with
  | b0 :: b1 :: b2 :: b3 :: rest, hip =>
    have hload : load (b0 :: b1 :: b2 :: b3 :: rest) 0 4 = some [b0, b1, b2, b3] := by
      rw [load_eq (by simp)]
      rfl
    have h0 := b0.toNat_lt
    have h1 := b1.toNat_lt
    have h2 := b2.toNat_lt
    have h3 := b3.toNat_lt
    have hmask : ∀ k ≤ 4, wordmask.getD k 0 = 2^(8 * k) - 1 := by decide
    unfold loadTrailer
    rw [hload, Option.map_some, hmask extra hextra, Nat.and_two_pow_sub_one_eq_mod]
    unfold decodeFixed32
    have hcases : extra = 0 ∨ extra = 1 ∨ extra = 2 ∨ extra = 3 ∨ extra = 4 := by omega
    rcases hcases with rfl | rfl | rfl | rfl | rfl <;>
      simp only [List.take_succ_cons, List.take_zero, leValue, Option.some.injEq] <;> omega

omit n R w out in
/-- The number that some bytes stand for is below two to the power of their bits. -/
theorem leValue_lt : ∀ bytes : Slice, leValue bytes < 2^(8 * bytes.length)
  | [] => Nat.one_pos
  | b :: rest => by
    have hb := b.toNat_lt
    have hrest := leValue_lt rest
    rw [leValue, List.length_cons, Nat.mul_succ, Nat.pow_add]
    omega

omit n R w out in
/-- A literal, of a length that may be behind the tag. -/
theorem readItem_literal {c : UInt8} {rest : Slice} (h : c.toNat % 4 = 0) :
    readItem (c :: rest) =
      if rest.length < extraBytes c.toNat then none
      else
        let len := if c.toNat / 4 < 60 then c.toNat / 4 + 1
          else (leValue (rest.take (extraBytes c.toNat)) + 1) % 2^32
        if rest.length < extraBytes c.toNat + len then none
        else some (.literal ((rest.drop (extraBytes c.toNat)).take len),
          rest.drop (extraBytes c.toNat + len)) := by
  unfold readItem
  dsimp only
  rw [h]
  rfl

omit n R w out in
/-- A copy, of an offset that is partly behind the tag. -/
theorem readItem_copy {c : UInt8} {rest : Slice} (h : c.toNat % 4 ≠ 0) :
    readItem (c :: rest) =
      if rest.length < extraBytes c.toNat then none
      else some (.copy (copyHigh c.toNat + leValue (rest.take (extraBytes c.toNat))) (copyLength c.toNat),
        rest.drop (extraBytes c.toNat)) := by
  unfold readItem
  dsimp only
  split
  · rfl
  · split
    · exact absurd ‹_› h
    · rfl

omit n R w out in
/-- A copy has from 1 to 64 bytes, and its offset is a word. -/
theorem copy_bounds {c : UInt8} {rest : Slice} (h : c.toNat % 4 ≠ 0)
    (hlength : extraBytes c.toNat ≤ rest.length) :
    0 < copyLength c.toNat ∧ copyLength c.toNat ≤ 64 ∧
      copyHigh c.toNat + leValue (rest.take (extraBytes c.toNat)) < 2^32 := by
  have hall : ∀ b : Fin 256, b.val % 4 ≠ 0 → 0 < copyLength b.val ∧ copyLength b.val ≤ 64 ∧
      copyHigh b.val + 2^(8 * extraBytes b.val) ≤ 2^32 := by
    decide +kernel
  obtain ⟨hpos, hle, hhigh⟩ := hall ⟨c.toNat, c.toNat_lt⟩ h
  have hvalue := leValue_lt (rest.take (extraBytes c.toNat))
  rw [List.length_take_of_le hlength] at hvalue
  exact ⟨hpos, hle, lt_of_lt_of_le (Nat.add_lt_add_left hvalue _) hhigh⟩

/-- What the rest of a round does with the item that some bytes begin with. -/
def ItemDone (S : Source σ) (n : ℕ) (R : ω → Slice → Prop) (data out : Slice) (eof : Bool)
    (r : Option (Bool × SnappyDecompressor σ × ω)) : Prop :=
  ∃ b d' w', r = some (b, d', w') ∧ d'.eof = eof ∧
    (b = true → ∃ item out', readItem data = some (item, d'.pending S) ∧
      item.apply out = some out' ∧ d'.Buffered S ∧ R w' out') ∧
    (b = false → ∀ item rest, readItem data = some (item, rest) →
      ∀ out', item.apply out = some out' → n < out'.length)

/-- The bytes of a literal come next. -/
theorem SnappyDecompressor.Buffered.literal (h : d.Buffered S) (hW : W.Models limit n R) (hR : R w out)
    {data rest : Slice} {extra len : ℕ} (hpending : d.pending S = rest.drop extra)
    (hextra : extra ≤ rest.length) (hlimit : (d.pending S).length ≤ limit)
    (hread : readItem data = if rest.length < extra + len then none
      else some (.literal ((rest.drop extra).take len), rest.drop (extra + len))) :
    ItemDone S n R data out d.eof (d.literal S W (len + 1) len w) := by
  obtain ⟨b, d', w', hitem, heof, htrue, hfalse⟩ :=
    literal_spec hW (len + 1) len d w out h hR hlimit (Or.inl le_rfl)
  rw [hpending, List.length_drop] at htrue hfalse
  refine ⟨b, d', w', hitem, heof, fun hb => ?_, fun hb item rest' hdata out' hout' => ?_⟩
  · obtain ⟨hle, hbuffered, hpending', hR'⟩ := htrue hb
    rw [List.drop_drop] at hpending'
    refine ⟨.literal ((rest.drop extra).take len), _, ?_, rfl, hbuffered, hR'⟩
    rw [hread, if_neg (by omega), hpending']
  · rw [hread] at hdata
    split_ifs at hdata with hshort
    obtain ⟨rfl, -⟩ := Prod.mk.inj (Option.some.inj hdata)
    obtain rfl := Option.some.inj hout'
    rw [List.length_append, length_take_drop (by omega)]
    rcases hfalse hb with hfew | hmany
    · omega
    · exact hmany

/-- The rest of a round, for an item whose tag is in the buffer. -/
theorem SnappyDecompressor.AtTag.item {c : UInt8} (h : d.AtTag S c) (hW : W.Models limit n R) (hR : R w out)
    (hlimit : (d.pending S).length ≤ limit) :
    ItemDone S n R (d.pending S) out d.eof
      ({ d with ip := d.ip.tail, left := d.left - 1 }.item S W c w) := by
  obtain ⟨rest, hpending⟩ : ∃ rest, d.pending S = c :: rest := by
    obtain ⟨c', _, hip, rest, hpending⟩ := h.buffered.head (by have := h.tag_le; omega)
    have hhead := h.head
    rw [hip, List.head?_cons] at hhead
    exact ⟨rest, Option.some.inj hhead ▸ hpending⟩
  have htag := h.tag_le
  have hreadable := h.readable
  have hextra := extraBytes_le c
  obtain ⟨hbuffered, hrest⟩ := h.buffered.take (show 1 ≤ d.left by omega)
  rw [List.drop_one] at hrest hbuffered
  rw [hpending] at hrest hlimit ⊢
  change _ = rest at hrest
  rw [List.length_cons] at hlimit
  have htip : 4 ≤ d.ip.tail.length := by
    rw [List.length_tail]
    omega
  -- the buffer behind the tag
  generalize ht : ({ d with ip := d.ip.tail, left := d.left - 1 } : SnappyDecompressor σ) = t at *
  have heof : d.eof = t.eof := by rw [← ht]
  have htleft : extraBytes c.toNat ≤ t.left := by
    rw [← ht]
    dsimp only
    omega
  replace htip : 4 ≤ t.ip.length := by rw [← ht]; exact htip
  have hlength := hbuffered.length_pending
  rw [hrest] at hlength
  have hload : loadTrailer t.ip (extraBytes c.toNat) =
      some (leValue (rest.take (extraBytes c.toNat))) := by
    have htake : rest.take (extraBytes c.toNat) = t.ip.take (extraBytes c.toNat) := by
      rw [← hrest]
      unfold SnappyDecompressor.pending
      rw [List.take_append_of_le_length (by rw [List.length_take_of_le hbuffered.left_le]; exact htleft),
        List.take_take, Nat.min_eq_left htleft]
    rw [loadTrailer_eq htip hextra, htake]
  obtain ⟨hbuffered', hrest'⟩ := hbuffered.take htleft
  rw [hrest] at hrest'
  have hlow : c.toNat &&& 0x3 = c.toNat % 4 := Nat.and_two_pow_sub_one_eq_mod c.toNat 2
  have hhigh : c.toNat >>> 2 = c.toNat / 4 := Nat.shiftRight_eq_div_pow c.toNat 2
  unfold SnappyDecompressor.item
  rw [hlow, hhigh, heof]
  dsimp only
  split_ifs with hliteral hlong
  · -- a literal whose length is behind the tag
    have htagBytes : extraBytes c.toNat = c.toNat / 4 - 59 := by
      unfold extraBytes
      rw [hliteral]
      rfl
    rw [← htagBytes, hload, Option.bind_some]
    refine hbuffered'.literal hW hR hrest' (by omega) (by rw [hrest', List.length_drop]; omega) ?_
    rw [readItem_literal hliteral, if_neg (show ¬rest.length < extraBytes c.toNat by omega)]
    dsimp only
    rw [if_neg (show ¬c.toNat / 4 < 60 by omega)]
  · -- a literal whose length is in the tag
    have htagBytes : extraBytes c.toNat = 0 := by
      unfold extraBytes
      rw [hliteral]
      show c.toNat / 4 - 59 = 0
      omega
    refine hbuffered.literal hW hR (hrest.trans List.drop_zero.symm) (Nat.zero_le _)
      (by rw [hrest]; omega) ?_
    rw [readItem_literal hliteral, htagBytes, if_neg (Nat.not_lt_zero _)]
    dsimp only
    rw [if_pos (show c.toNat / 4 < 60 by omega)]
  · -- a copy
    obtain ⟨hextraEntry, hentry⟩ := entryOf_spec c
    obtain ⟨hlenEntry, hhighEntry⟩ := hentry hliteral
    obtain ⟨hpos, hle, hoffset⟩ := copy_bounds hliteral (show _ ≤ rest.length by omega)
    rw [hextraEntry, hload, Option.bind_some, hlenEntry, hhighEntry, Nat.mod_eq_of_lt hoffset]
    obtain ⟨w', happend, hR'⟩ := hW.appendFromSelf hR _ _ hpos hle hoffset
    have hread : readItem (c :: rest) = _ := readItem_copy hliteral
    rw [if_neg (by omega)] at hread
    rw [happend, Option.map_some]
    refine ⟨_, _, w', rfl, rfl, fun hb => ?_, fun hb item rest' hdata out' hout' => ?_⟩
    · obtain ⟨hcond, hfits⟩ := of_decide_eq_true hb
      refine ⟨_, _, hrest'.symm ▸ hread, ?_, hbuffered', hR' hcond.1 hcond.2 hfits⟩
      exact if_pos hcond
    · obtain ⟨rfl, -⟩ := Prod.mk.inj (Option.some.inj (hread.symm.trans hdata))
      unfold Item.apply at hout'
      dsimp only at hout'
      split_ifs at hout' with hcond
      obtain rfl := Option.some.inj hout'
      rw [length_copyBack hcond.1 _ hcond.2]
      exact not_le.mp fun hfits => of_decide_eq_false hb ⟨hcond, hfits⟩

omit n R w out in
/-- Reading an item takes at least its tag from the data. -/
theorem readItem_length_lt {data rest : Slice} {item : Item UInt8} (h : readItem data = some (item, rest)) :
    rest.length < data.length := by
  cases data with
  | nil => cases h
  | cons c data =>
    rw [List.length_cons, Nat.lt_succ_iff]
    by_cases hliteral : c.toNat % 4 = 0
    · rw [readItem_literal hliteral] at h
      dsimp only at h
      generalize (if c.toNat / 4 < 60 then c.toNat / 4 + 1
        else (leValue (data.take (extraBytes c.toNat)) + 1) % 2^32) = len at h
      split_ifs at h
      obtain ⟨-, rfl⟩ := Prod.mk.inj (Option.some.inj h)
      exact (List.drop_suffix _ _).length_le
    · rw [readItem_copy hliteral] at h
      split_ifs at h
      obtain ⟨-, rfl⟩ := Prod.mk.inj (Option.some.inj h)
      exact (List.drop_suffix _ _).length_le

/-! ## The loop -/

omit n R w out in
/-- The start of a round: the next tag is in the buffer, if there is one. -/
theorem SnappyDecompressor.Buffered.round (h : d.Buffered S) (heof : d.eof = false) :
    ∃ b d', (if d.left < 5 then d.refillTag S else some (true, d)) = some (b, d') ∧
      (b = true → d'.eof = false ∧ d'.pending S = d.pending S ∧ ∃ c, d'.AtTag S c) ∧
      (b = false → (d'.eof = true ∧ d.pending S = []) ∨
        (d'.eof = false ∧ d.pending S ≠ [] ∧ readItem (d.pending S) = none)) := by
  split_ifs with hfew
  · exact h.refillTag heof
  · obtain ⟨c, rest, hip, rest', hpending⟩ := h.head (by omega)
    have hextra := extraBytes_le c
    have hleft := h.left_le
    exact ⟨true, d, rfl, fun _ => ⟨heof, rfl, c, h.atTag hpending (by omega) (by omega)⟩,
      fun hb => (by cases hb)⟩

omit w out in
/-- `DecompressAllTags` feeds the items to the writer, and reaches the end unless there is something wrong
with them. The induction is on the rounds, each of which consumes a tag. -/
theorem SnappyDecompressor.decompressAllTags_spec (hW : W.Models limit n R) : ∀ (rounds : ℕ)
    (d : SnappyDecompressor σ) (w : ω) (out : Slice), d.Buffered S → d.eof = false → R w out →
    (d.pending S).length ≤ limit → (d.pending S).length < rounds →
    ∃ d' w', d.decompressAllTags S W rounds w = some (d', w') ∧
      (d'.eof = true → ∃ items out', ReadsAll readItem (d.pending S) items ∧
        expand items out = some out' ∧ R w' out') ∧
      (d'.eof = false → ∀ items out', ReadsAll readItem (d.pending S) items →
        expand items out = some out' → n < out'.length)
  | 0, _, _, _, _, _, _, _, hrounds => absurd hrounds (Nat.not_lt_zero _)
  | rounds + 1, d, w, out, h, heof, hR, hlimit, hrounds => by
    rw [SnappyDecompressor.decompressAllTags]
    obtain ⟨b, d₁, hround, htrue, hfalse⟩ := h.round heof
    rw [hround, Option.bind_some]
    dsimp only
    cases b with
    | false =>
      refine ⟨d₁, w, rfl, fun hend => ?_, fun hend items out' hreads _ => ?_⟩
      · obtain ⟨-, hnil⟩ | ⟨hopen, -, -⟩ := hfalse rfl
        · exact ⟨[], out, hnil ▸ ReadsAll.nil, rfl, hR⟩
        · rw [hend] at hopen
          cases hopen
      · obtain ⟨hopen, -⟩ | ⟨-, hne, hnone⟩ := hfalse rfl
        · rw [hend] at hopen
          cases hopen
        · generalize d.pending S = data at *
          cases hreads with
          | nil => exact absurd rfl hne
          | cons hread _ =>
            rw [hnone] at hread
            cases hread
    | true =>
      obtain ⟨heof₁, hsame, c, hat⟩ := htrue rfl
      obtain ⟨b, d₂, w₂, hitem, heof₂, htrue, hfalse⟩ := hat.item hW hR (hsame ▸ hlimit)
      rw [hsame] at htrue hfalse
      rw [if_pos rfl, hat.head, Option.bind_some, hitem, Option.bind_some]
      dsimp only
      cases b with
      | false =>
        refine ⟨d₂, w₂, rfl, fun hend => ?_, fun _ items out' hreads hexpand => ?_⟩
        · rw [heof₂, heof₁] at hend
          cases hend
        · obtain ⟨c, _, _, rest, hcons⟩ := hat.buffered.head (by have := hat.tag_le; omega)
          rw [hsame] at hcons
          generalize d.pending S = data at *
          cases hreads with
          | nil => cases hcons
          | cons hread _ =>
            rw [expand_cons] at hexpand
            obtain ⟨mid, hmid, hexpand⟩ := Option.bind_eq_some_iff.mp hexpand
            exact lt_of_lt_of_le (hfalse rfl _ _ hread _ hmid) (expand_length_le hexpand)
      | true =>
        obtain ⟨item, mid, hread, hmid, hbuffered, hR₂⟩ := htrue rfl
        have hshorter := readItem_length_lt hread
        obtain ⟨d', w', hrest, hdone, hbad⟩ := decompressAllTags_spec hW rounds d₂ w₂ mid hbuffered
          (heof₂.trans heof₁) hR₂ (by omega) (by omega)
        refine ⟨d', w', hrest, fun hend => ?_, fun hend items out' hreads hexpand => ?_⟩
        · obtain ⟨items, out', hreads, hexpand, hR'⟩ := hdone hend
          refine ⟨item :: items, out', ReadsAll.cons hread hreads, ?_, hR'⟩
          rw [expand_cons, hmid, Option.bind_some]
          exact hexpand
        · generalize d.pending S = data at *
          cases hreads with
          | nil => cases hread
          | cons hread' hreads' =>
            obtain ⟨rfl, rfl⟩ := Prod.mk.inj (Option.some.inj (hread.symm.trans hread'))
            rw [expand_cons, hmid, Option.bind_some] at hexpand
            exact hbad hend _ _ hreads' hexpand

end Items

/-! ## Lengths -/

/-- The first byte of a region that a source hands out is the next one of its bytes. -/
theorem Source.head_peek (S : Source σ) (s : σ) : (S.peek s).head? = (S.bytes s).head? := by
  obtain ⟨rest, hrest⟩ := S.peek_isPrefix s
  cases hpeek : S.peek s with
  | nil =>
    cases hbytes : S.bytes s with
    | nil => rfl
    | cons c data => exact absurd hpeek (S.peek_ne_nil s (by rw [hbytes]; exact List.cons_ne_nil _ _))
  | cons c data =>
    rw [← hrest, hpeek]
    rfl

/-- `ReadUncompressedLength` reads a varint. The shifts are multiples of 7. -/
theorem readLengthLoop_eq (S : Source σ) (shift result : ℕ) (s : σ) (h : shift % 7 = 0) :
    (readLengthLoop S shift result s).map (fun r => (r.1, S.bytes r.2)) =
      getVarintLoop 32 28 shift result (S.bytes s) := by
  rw [readLengthLoop, S.head_peek]
  cases hbytes : S.bytes s with
  | nil =>
    rw [getVarintLoop]
    split_ifs <;> rfl
  | cons c rest =>
    rw [getVarintLoop]
    by_cases hend : 32 ≤ shift
    · rw [dif_pos hend, if_neg (by omega)]
      rfl
    · have hskip : S.bytes (S.skip 1 s) = rest := by
        rw [S.bytes_skip 1 s (by rw [hbytes, List.length_cons]; omega), hbytes]
        rfl
      rw [dif_neg hend, if_pos (by omega), List.head?_cons, Option.bind_some]
      dsimp only
      by_cases hlast : c.toNat < 128
      · have hlow : c.toNat &&& 0x7f = c.toNat :=
          (Nat.and_two_pow_sub_one_eq_mod c.toNat 7).trans (Nat.mod_eq_of_lt hlast)
        rw [if_pos hlast, if_neg (not_not.mpr ((and_high_eq_zero_iff c).mpr hlast)), hlow, Option.map_some,
          hskip]
      · rw [if_neg hlast, if_pos (mt (and_high_eq_zero_iff c).mp hlast),
          readLengthLoop_eq S (shift + 7) _ (S.skip 1 s) (by omega), hskip]
  termination_by 32 - shift

/-- The length in front of a source. -/
theorem readUncompressedLength_eq (S : Source σ) (s : σ) :
    (readUncompressedLength S s).map (fun r => (r.1, S.bytes r.2)) = getVarint32PtrFallback (S.bytes s) :=
  readLengthLoop_eq S 0 0 s (by decide)

/-- `InternalUncompress` succeeds if and only if the bytes of its source are the compressed form of a string
that is not too long, which the writer has been fed then. -/
theorem internalUncompress_spec {R : ℕ → ω → Slice → Prop} {s : σ} {w : ω} {scratch : Slice} {maxLen : ℕ}
    (hscratch : scratch.length = 5) (hsource : (S.bytes s).length < 2^32)
    (hW : ∀ n rest, getVarint32PtrFallback (S.bytes s) = some (n, rest) → n ≤ maxLen →
      W.Models (S.bytes s).length n (R n) ∧ R n (W.setExpectedLength w n) []) :
    ∃ b w', internalUncompress S W scratch s w maxLen = some (b, w') ∧
      (b = true ↔ ∃ out, out.length ≤ maxLen ∧ Uncompresses (S.bytes s) out) ∧
      (∀ out, out.length ≤ maxLen → Uncompresses (S.bytes s) out → R out.length w' out) := by
  have hlen := readUncompressedLength_eq S s
  unfold internalUncompress
  cases hread : readUncompressedLength S s with
  | none =>
    rw [hread, Option.map_none] at hlen
    have hnone : ∀ out, ¬Uncompresses (S.bytes s) out := by
      rintro out ⟨rest, items, hhead, -⟩
      rw [← hlen] at hhead
      cases hhead
    refine ⟨false, w, rfl, ⟨fun hb => (by cases hb), fun hex => ?_⟩, fun out _ h => absurd h (hnone out)⟩
    obtain ⟨out, -, h⟩ := hex
    exact absurd h (hnone out)
  | some r =>
    obtain ⟨n, s'⟩ := r
    rw [hread, Option.map_some] at hlen
    dsimp only at hlen ⊢
    split_ifs with hlong
    · have hnone : ∀ out, out.length ≤ maxLen → ¬Uncompresses (S.bytes s) out := by
        rintro out hle ⟨rest, items, hhead, -⟩
        rw [← hlen] at hhead
        obtain ⟨rfl, -⟩ := Prod.mk.inj (Option.some.inj hhead)
        omega
      refine ⟨false, w, rfl, ⟨fun hb => (by cases hb), fun hex => ?_⟩,
        fun out hle h => absurd h (hnone out hle)⟩
      obtain ⟨out, hle, h⟩ := hex
      exact absurd h (hnone out hle)
    · obtain ⟨hmodels, hR⟩ := hW n _ hlen.symm (not_lt.mp hlong)
      have hshort : (S.bytes s').length < 2^32 := (getVarintLoop_length hlen.symm).trans hsource
      set d : SnappyDecompressor σ := { reader := s', scratch := scratch } with hd
      have hpending : d.pending S = S.bytes s' := rfl
      have hbuffered : d.Buffered S := ⟨le_rfl, hscratch, Nat.zero_le _, hshort, hshort⟩
      obtain ⟨d', w', hloop, hdone, hbad⟩ := SnappyDecompressor.decompressAllTags_spec hmodels
        ((S.bytes s').length + 1) d (W.setExpectedLength w n) [] hbuffered rfl hR
        (hpending ▸ (getVarintLoop_length hlen.symm).le) (by rw [hpending]; omega)
      rw [hpending] at hdone hbad
      rw [hloop, Option.map_some]
      -- what the bytes are the compressed form of has been fed
      have hfed : ∀ out, Uncompresses (S.bytes s) out → d'.eof = true ∧ out.length = n ∧ R n w' out := by
        rintro out ⟨rest, items, hhead, hreads, hexpand⟩
        obtain ⟨rfl, rfl⟩ := Prod.mk.inj (Option.some.inj (hlen.trans hhead))
        cases heof : d'.eof with
        | false => exact absurd (hbad heof items out hreads hexpand) (lt_irrefl _)
        | true =>
          obtain ⟨items', out', hreads', hexpand', hR'⟩ := hdone heof
          rw [hreads'.unique rfl hreads, hexpand] at hexpand'
          exact ⟨rfl, rfl, Option.some.inj hexpand' ▸ hR'⟩
      refine ⟨_, w', rfl, ⟨fun hb => ?_, ?_⟩, fun out _ hout => ?_⟩
      · obtain ⟨heof, hcheck⟩ := Bool.and_eq_true_iff.mp hb
        obtain ⟨items, out, hreads, hexpand, hR'⟩ := hdone heof
        have hout := (hmodels.checkLength hR').mp hcheck
        exact ⟨out, hout ▸ not_lt.mp hlong, S.bytes s', items, hout ▸ hlen.symm, hreads, hexpand⟩
      · rintro ⟨out, -, hout⟩
        obtain ⟨heof, hn, hR'⟩ := hfed out hout
        exact Bool.and_eq_true_iff.mpr ⟨heof, (hmodels.checkLength hR').mpr hn⟩
      · obtain ⟨-, rfl, hR'⟩ := hfed out hout
        exact hR'

end LevelDb.SnappySrc
