import LevelDb.Lib.Memory
import LevelDb.SnappySrc.Format

/-!
# The decompressor

`SnappyDecompressor` reads from any `Source`, which hands out its bytes region by region, and feeds any
writer. A tag that goes over the end of a region, or is within its last bytes, is first copied to
`scratch_`. A pointer is a list of what can be read from there on, and loads and stores outside of an array
are failures (`none`).
-/

namespace LevelDb.SnappySrc

open Lib

variable {σ ω : Type}

/-! ## Sources and writers -/

/-- `Source`. The interface allows a region that is larger than `Available()`; such sources are not modelled,
as a region here is a part of what is left. -/
structure Source (σ : Type) where
  /-- The bytes that are left to read. There are `Available()` of them. -/
  bytes : σ → Slice
  /-- `Peek` -/
  peek : σ → Slice
  /-- `Skip` -/
  skip : ℕ → σ → σ
  /-- The next flat region of the source, which is not larger than what is left. -/
  peek_isPrefix : ∀ s, peek s <+: bytes s
  /-- "The returned region is empty iff Available()==0." -/
  peek_ne_nil : ∀ s, bytes s ≠ [] → peek s ≠ []
  /-- The next bytes are skipped. -/
  bytes_skip : ∀ n s, n ≤ (bytes s).length → bytes (skip n s) = (bytes s).drop n

/-- `ByteArraySource` -/
def byteArraySource : Source Slice where
  bytes s := s
  peek s := s
  skip n s := s.drop n
  peek_isPrefix _ := List.prefix_rfl
  peek_ne_nil _ h := h
  bytes_skip _ _ _ := rfl

/-- A source that hands out its bytes in regions that have no more than a number of bytes. -/
def regionSource (size : ℕ) : Source Slice where
  bytes s := s
  peek s := s.take (size + 1)
  skip n s := s.drop n
  peek_isPrefix s := List.take_prefix (size + 1) s
  peek_ne_nil s h := by
    cases s with
    | nil => exact absurd rfl h
    | cons c rest => exact List.cons_ne_nil _ _
  bytes_skip _ _ _ := rfl

/-- What `DecompressAllTags` is a template for. -/
structure Writer (ω : Type) where
  /-- `SetExpectedLength` -/
  setExpectedLength : ω → ℕ → ω
  /-- `CheckLength` -/
  checkLength : ω → Bool
  /-- `Append` of a number of bytes at a pointer. -/
  append : ω → Slice → ℕ → Bool → Option (Bool × ω)
  /-- `AppendFromSelf` with an offset and a length. -/
  appendFromSelf : ω → ℕ → ℕ → Option (Bool × ω)

/-! ## Tags -/

/-- `SnappyDecompressor` -/
structure SnappyDecompressor (σ : Type) where
  /-- `reader_` -/
  reader : σ
  /-- `scratch_`, which is not initialized. -/
  scratch : Slice
  /-- `ip_` -/
  ip : Slice := []
  /-- `ip_limit_ - ip_` -/
  left : ℕ := 0
  /-- `peeked_` -/
  peeked : ℕ := 0
  /-- `eof_` -/
  eof : Bool := false

/-- `LittleEndian::Load32(ip) & wordmask[extra]` -/
def loadTrailer (ip : Slice) (extra : ℕ) : Option ℕ :=
  (load ip 0 4).map fun bytes => decodeFixed32 bytes &&& wordmask.getD extra 0

/-- "All peeked bytes are used up". -/
def SnappyDecompressor.skipPeeked (S : Source σ) (d : SnappyDecompressor σ) : SnappyDecompressor σ :=
  { d with reader := S.skip d.peeked d.reader }

/-- A new region becomes the buffer. -/
def SnappyDecompressor.peekRegion (S : Source σ) (d : SnappyDecompressor σ) : SnappyDecompressor σ :=
  let region := S.peek d.reader
  { d with ip := region, left := region.length, peeked := region.length % 2^32 }

/-- The loop of `RefillTag` that stitches bytes together in `scratch_`, with the number of rounds that are
left. -/
def stitch (S : Source σ) (needed : ℕ) : ℕ → ℕ → SnappyDecompressor σ → Option (Bool × SnappyDecompressor σ)
  | 0, _, _ => none
  | rounds + 1, nbuf, d =>
    if nbuf < needed then
      let src := S.peek d.reader
      if src.length = 0 then some (false, d)
      else
        let toAdd := min (needed - nbuf) (src.length % 2^32)
        (store d.scratch nbuf (src.take toAdd)).bind fun scratch =>
          stitch S needed rounds (nbuf + toAdd)
            { d with scratch := scratch, reader := S.skip toAdd d.reader }
    else some (true, { d with ip := d.scratch, left := needed })

/-- `RefillTag` behind the fetching of a new fragment: the tag character is read. -/
def SnappyDecompressor.refillBuffer (S : Source σ) (d : SnappyDecompressor σ) :
    Option (Bool × SnappyDecompressor σ) :=
  d.ip.head?.bind fun c =>
    let needed := entryOf c >>> 11 + 1
    let nbuf := d.left % 2^32
    if nbuf < needed then
      (store d.scratch 0 (d.ip.take nbuf)).bind fun scratch =>
        stitch S needed (needed + 1) nbuf { d.skipPeeked S with scratch := scratch, peeked := 0 }
    else if nbuf < 5 then
      (store d.scratch 0 (d.ip.take nbuf)).map fun scratch =>
        (true, { d.skipPeeked S with scratch := scratch, peeked := 0, ip := scratch, left := nbuf })
    else some (true, d)

/-- `RefillTag` -/
def SnappyDecompressor.refillTag (S : Source σ) (d : SnappyDecompressor σ) :
    Option (Bool × SnappyDecompressor σ) :=
  if d.left = 0 then
    -- Fetch a new fragment from the reader
    let d' := (d.skipPeeked S).peekRegion S
    if d'.left = 0 then some (false, { d' with eof := true }) else d'.refillBuffer S
  else d.refillBuffer S

/-! ## Items -/

/-- The loop over the regions of a literal, and the last `Append`, with the number of rounds that are
left. -/
def SnappyDecompressor.literal (S : Source σ) (W : Writer ω) :
    ℕ → ℕ → SnappyDecompressor σ → ω → Option (Bool × SnappyDecompressor σ × ω)
  | 0, _, _, _ => none
  | rounds + 1, literalLength, d, w =>
    let avail := d.left % 2^32
    if avail < literalLength then
      (W.append w d.ip avail false).bind fun r =>
        if r.1 then
          let d := (d.skipPeeked S).peekRegion S
          -- Premature end of input
          if d.peeked = 0 then some (false, d, r.2)
          else literal S W rounds (literalLength - avail) { d with left := d.peeked } r.2
        else some (false, d, r.2)
    else
      (W.append w d.ip literalLength (decide (16 ≤ avail))).map fun r =>
        (r.1, { d with ip := d.ip.drop literalLength, left := d.left - literalLength }, r.2)

/-- The rest of a round of `DecompressAllTags`, for a tag character. -/
def SnappyDecompressor.item (S : Source σ) (W : Writer ω) (c : UInt8) (d : SnappyDecompressor σ) (w : ω) :
    Option (Bool × SnappyDecompressor σ × ω) :=
  if c.toNat &&& 0x3 = 0 then
    let literalLength := c.toNat >>> 2
    if 60 ≤ literalLength then
      -- Long literal.
      (loadTrailer d.ip (literalLength - 59)).bind fun length =>
        let d := { d with ip := d.ip.drop (literalLength - 59), left := d.left - (literalLength - 59) }
        d.literal S W ((length + 1) % 2^32 + 1) ((length + 1) % 2^32) w
    else d.literal S W (literalLength + 1 + 1) (literalLength + 1) w
  else
    let entry := entryOf c
    (loadTrailer d.ip (entry >>> 11)).bind fun trailer =>
      let d := { d with ip := d.ip.drop (entry >>> 11), left := d.left - entry >>> 11 }
      (W.appendFromSelf w (((entry &&& 0x700) + trailer) % 2^32) (entry &&& 0xff)).map fun r => (r.1, d, r.2)

/-- `DecompressAllTags`, with the number of rounds that are left. -/
def SnappyDecompressor.decompressAllTags (S : Source σ) (W : Writer ω) :
    ℕ → SnappyDecompressor σ → ω → Option (SnappyDecompressor σ × ω)
  | 0, _, _ => none
  | rounds + 1, d, w =>
    (if d.left < 5 then d.refillTag S else some (true, d)).bind fun r =>
      if r.1 then
        r.2.ip.head?.bind fun c =>
          ({ r.2 with ip := r.2.ip.tail, left := r.2.left - 1 }.item S W c w).bind fun t =>
            if t.1 then t.2.1.decompressAllTags S W rounds t.2.2 else some t.2
      else some (r.2, w)

/-! ## Lengths -/

/-- The loop of `ReadUncompressedLength`: the length, if there is one, and the source behind it. -/
def readLengthLoop (S : Source σ) (shift result : ℕ) (s : σ) : Option (ℕ × σ) :=
  if _h : 32 ≤ shift then none
  else
    (S.peek s).head?.bind fun c =>
      let s := S.skip 1 s
      let result := result ||| ((c.toNat &&& 0x7f) <<< shift) % 2^32
      if c.toNat < 128 then some (result, s) else readLengthLoop S (shift + 7) result s
  termination_by 32 - shift

/-- `ReadUncompressedLength`, and `GetUncompressedLength` of a `Source`. -/
def readUncompressedLength (S : Source σ) (s : σ) : Option (ℕ × σ) := readLengthLoop S 0 0 s

/-- `InternalUncompress`, with what is in `scratch_` before it: what it returns, and the writer. -/
def internalUncompress (S : Source σ) (W : Writer ω) (scratch : Slice) (s : σ) (w : ω) (maxLen : ℕ) :
    Option (Bool × ω) :=
  match readUncompressedLength S s with
  | none => some (false, w)
  | some (uncompressedLen, s) =>
    -- Protect against possible DoS attack
    if maxLen < uncompressedLen then some (false, w)
    else
      let d : SnappyDecompressor σ := { reader := s, scratch := scratch }
      (d.decompressAllTags S W ((S.bytes s).length + 1) (W.setExpectedLength w uncompressedLen)).map
        fun r => (r.1.eof && W.checkLength r.2, r.2)

end LevelDb.SnappySrc
