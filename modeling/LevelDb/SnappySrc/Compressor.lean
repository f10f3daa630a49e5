import LevelDb.SnappySrc.Decompressor

/-!
# The compressor

`CompressFragment` looks for earlier occurrences of the next four bytes with a hash table of positions, and
emits literals and copies into an array. `Compress` does so for blocks of 32KB, each with a new table.
Positions are offsets into the arrays, and loads and stores outside of them are failures (`none`). Match
lengths are found word by word, where a word has four or eight bytes depending on the architecture.
-/

namespace LevelDb.SnappySrc

open Lib

/-! ## Bits -/

/-- The loop of `Bits::FindLSBSetNonZero`: the word and `rc`, for the remaining shifts. -/
def findLSBLoop : List ℕ → ℕ → ℕ → ℕ
  | [], _, rc => rc
  | shift :: shifts, n, rc =>
    let x := (n <<< shift) % 2^32
    if x ≠ 0 then findLSBLoop shifts x (rc - shift) else findLSBLoop shifts n rc

/-- `Bits::FindLSBSetNonZero` -/
def findLSBSetNonZero (n : ℕ) : ℕ := findLSBLoop [16, 8, 4, 2, 1] n 31

/-- `Bits::FindLSBSetNonZero64` -/
def findLSBSetNonZero64 (n : ℕ) : ℕ :=
  let bottombits := n % 2^32
  if bottombits = 0 then
    -- Bottom bits are zero, so scan in top bits
    32 + findLSBSetNonZero (n >>> 32 % 2^32)
  else findLSBSetNonZero bottombits

/-- The loop of `Bits::Log2Floor`: the value and `log`, for the remaining shifts. -/
def log2FloorLoop : List ℕ → ℕ → ℕ → ℕ
  | [], _, log => log
  | shift :: shifts, value, log =>
    let x := value >>> shift
    if x ≠ 0 then log2FloorLoop shifts x (log + shift) else log2FloorLoop shifts value log

/-- `Bits::Log2Floor` of a number that is not zero. -/
def log2Floor (n : ℕ) : ℕ := log2FloorLoop [16, 8, 4, 2, 1] n 0

/-- An unaligned load of a word of some bytes, as on a little-endian machine. -/
def loadWord (mem : Slice) (p bytes : ℕ) : Option ℕ := (load mem p bytes).map leValue

/-- `GetUint32AtOffset` -/
def getUint32AtOffset (v offset : ℕ) : ℕ := v >>> (8 * offset) % 2^32

/-! ## Matches -/

/-- The last loop of `FindMatchLength`, byte by byte. -/
def findMatchBytes (input : Slice) (s1 s2 s2Limit matched : ℕ) : Option ℕ :=
  if _h : s2 < s2Limit then
    (load input (s1 + matched) 1).bind fun b1 => (load input s2 1).bind fun b2 =>
      if b1 = b2 then findMatchBytes input s1 (s2 + 1) s2Limit (matched + 1) else some matched
  else some matched
  termination_by s2Limit - s2

/-- The loop of `FindMatchLength`, word by word. -/
def findMatchLoop (word : ℕ) (input : Slice) (s1 s2 s2Limit matched : ℕ) : Option ℕ :=
  if _h : 0 < word ∧ s2 + word ≤ s2Limit then
    (loadWord input s2 word).bind fun w2 => (loadWord input (s1 + matched) word).bind fun w1 =>
      if w2 = w1 then findMatchLoop word input s1 (s2 + word) s2Limit (matched + word)
      else
        let x := w2 ^^^ w1
        let matchingBits := if word = 8 then findLSBSetNonZero64 x else findLSBSetNonZero x
        some (matched + matchingBits >>> 3)
  else findMatchBytes input s1 s2 s2Limit matched
  termination_by s2Limit - s2

/-- `FindMatchLength`, for words of four or eight bytes. `matched` is an `int`: there are fewer than `2^31`
bytes up to the limit. -/
def findMatchLength (word : ℕ) (input : Slice) (s1 s2 s2Limit : ℕ) : Option ℕ :=
  findMatchLoop word input s1 s2 s2Limit 0

/-! ## Output -/

/-- The array that is written to, and the position in it. -/
structure Output where
  /-- The array. -/
  mem : Slice
  /-- `op` -/
  op : ℕ

/-- `*op++` for some bytes. -/
def Output.put (data : Slice) (o : Output) : Option Output :=
  (store o.mem o.op data).map fun mem => ⟨mem, o.op + data.length⟩

/-- The bytes of a length in `EmitLiteral`. -/
def lengthBytes (n : ℕ) : Slice :=
  if 0 < n then UInt8.ofNat (n &&& 0xff) :: lengthBytes (n >>> 8) else []
  termination_by n
  decreasing_by
    rw [Nat.shiftRight_eq_div_pow]
    omega

/-- `EmitLiteral`, from a position of the input. -/
def emitLiteral (input : Slice) (literal len : ℕ) (allowFastPath : Bool) (o : Output) : Option Output :=
  let n := len - 1
  if n < 60 then
    -- Fits in tag byte
    (o.put [UInt8.ofNat (n <<< 2)]).bind fun o =>
      if allowFastPath = true ∧ len ≤ 16 then
        (((load input literal 8).bind (store o.mem o.op)).bind fun mem =>
          (load input (literal + 8) 8).bind (store mem (o.op + 8))).map fun mem => ⟨mem, o.op + len⟩
      else ((load input literal len).bind (store o.mem o.op)).map fun mem => ⟨mem, o.op + len⟩
  else
    -- Encode in upcoming bytes
    let bytes := lengthBytes n
    (o.put (UInt8.ofNat ((59 + bytes.length) <<< 2) :: bytes)).bind fun o =>
      ((load input literal len).bind (store o.mem o.op)).map fun mem => ⟨mem, o.op + len⟩

/-- `EmitCopyLessThan64` -/
def emitCopyLessThan64 (offset len : ℕ) (o : Output) : Option Output :=
  if len < 12 ∧ offset < 2048 then
    o.put [UInt8.ofNat (1 ||| (len - 4) <<< 2 ||| offset >>> 8 <<< 5), UInt8.ofNat (offset &&& 0xff)]
  else o.put [UInt8.ofNat (2 ||| (len - 1) <<< 2), UInt8.ofNat offset, UInt8.ofNat (offset >>> 8)]

/-- `EmitCopy` -/
def emitCopy (offset len : ℕ) (o : Output) : Option Output :=
  if 68 ≤ len then (emitCopyLessThan64 offset 64 o).bind (emitCopy offset (len - 64))
  else if 64 < len then (emitCopyLessThan64 offset 60 o).bind (emitCopyLessThan64 offset (len - 60))
  else emitCopyLessThan64 offset len o
  termination_by len

/-! ## Fragments -/

/-- `kMaxHashTableSize` -/
def kMaxHashTableSize : ℕ := 1 <<< 14

/-- The loop of `GetHashTable`. -/
def hashTableSize (inputSize htsize : ℕ) : ℕ :=
  if _h : 0 < htsize ∧ htsize < kMaxHashTableSize ∧ htsize < inputSize then
    hashTableSize inputSize (htsize <<< 1)
  else htsize
  termination_by kMaxHashTableSize - htsize
  decreasing_by
    rw [Nat.shiftLeft_eq]
    omega

/-- `GetHashTable`. The table has no more entries than are used. -/
def getHashTable (inputSize : ℕ) : List ℕ := List.replicate (hashTableSize inputSize 256) 0

/-- `HashBytes` -/
def hashBytes (bytes shift : ℕ) : ℕ := (bytes * 0x1e35a7bd % 2^32) >>> shift

/-- `Hash` -/
def hash (input : Slice) (p shift : ℕ) : Option ℕ :=
  (loadWord input p 4).map fun bytes => hashBytes bytes shift

/-- What the loop of step 1 does: `goto emit_remainder`, or a match of the bytes at `ip` and `candidate`. -/
abbrev ScanResult := Option (ℕ × ℕ) × List ℕ

/-- The loop of step 1 of `CompressFragment`, with the number of rounds that are left. -/
def scan (input : Slice) (shift ipLimit : ℕ) : ℕ → ℕ → ℕ → ℕ → List ℕ → Option ScanResult
  | 0, _, _, _, _ => none
  | rounds + 1, nextIp, nextHash, skip, table =>
    let ip := nextIp
    let nextIp := ip + skip >>> 5
    if ipLimit < nextIp then some (none, table)
    else
      (hash input nextIp shift).bind fun nextHash' =>
        table[nextHash]?.bind fun candidate =>
          (store table nextHash [ip % 2^16]).bind fun table =>
            (loadWord input ip 4).bind fun bytes => (loadWord input candidate 4).bind fun candidateBytes =>
              if bytes ≠ candidateBytes then
                scan input shift ipLimit rounds nextIp nextHash' ((skip + 1) % 2^32) table
              else some (some (ip, candidate), table)

/-- The variables of `CompressFragment`. -/
structure Fragment where
  /-- `table` -/
  table : List ℕ
  /-- `next_emit` -/
  nextEmit : ℕ
  /-- `op` and its array. -/
  out : Output

/-- The loop of step 3 of `CompressFragment`, with the number of rounds that are left: `ip` and `next_hash`
for the next round of the main loop, or `goto emit_remainder`. -/
def emitCopies (word : ℕ) (input : Slice) (shift ipLimit : ℕ) :
    ℕ → ℕ → ℕ → Fragment → Option (Option (ℕ × ℕ) × Fragment)
  | 0, _, _, _ => none
  | rounds + 1, base, candidate, s =>
    (findMatchLength word input (candidate + 4) (base + 4) input.length).bind fun more =>
      let matched := 4 + more
      let ip := base + matched
      (emitCopy (base - candidate) matched s.out).bind fun out =>
        let s := { s with nextEmit := ip, out := out }
        if ipLimit ≤ ip then some (none, s)
        else
          (loadWord input (ip - 1) 8).bind fun inputBytes =>
            (store s.table (hashBytes (getUint32AtOffset inputBytes 0) shift) [(ip - 1) % 2^16]).bind
              fun table =>
                let curHash := hashBytes (getUint32AtOffset inputBytes 1) shift
                table[curHash]?.bind fun candidate =>
                  (loadWord input candidate 4).bind fun candidateBytes =>
                    (store table curHash [ip % 2^16]).bind fun table =>
                      let s := { s with table := table }
                      if getUint32AtOffset inputBytes 1 = candidateBytes then
                        emitCopies word input shift ipLimit rounds ip candidate s
                      else some (some (ip + 1, hashBytes (getUint32AtOffset inputBytes 2) shift), s)

/-- The main loop of `CompressFragment`, with the number of rounds that are left. -/
def compressLoop (word : ℕ) (input : Slice) (shift ipLimit : ℕ) :
    ℕ → ℕ → ℕ → Fragment → Option Fragment
  | 0, _, _, _ => none
  | rounds + 1, ip, nextHash, s =>
    (scan input shift ipLimit (input.length + 1) ip nextHash 32 s.table).bind fun r =>
      match r with
      | (none, table) => some { s with table := table }
      | (some (ip, candidate), table) =>
        -- Step 2: A 4-byte match has been found.
        (emitLiteral input s.nextEmit (ip - s.nextEmit) true s.out).bind fun out =>
          (emitCopies word input shift ipLimit (input.length + 1) ip candidate
              { s with table := table, out := out }).bind fun r =>
            match r with
            | (none, s) => some s
            | (some (ip, nextHash), s) => compressLoop word input shift ipLimit rounds ip nextHash s

/-- `kInputMarginBytes` -/
def kInputMarginBytes : ℕ := 15

/-- `CompressFragment` -/
def compressFragment (word : ℕ) (input : Slice) (out : Output) (table : List ℕ) : Option Output :=
  let shift := 32 - log2Floor table.length
  let s : Fragment := ⟨table, 0, out⟩
  let r :=
    if kInputMarginBytes ≤ input.length then
      (hash input 1 shift).bind fun nextHash =>
        compressLoop word input shift (input.length - kInputMarginBytes) (input.length + 1) 1 nextHash s
    else some s
  r.bind fun s =>
    -- Emit the remaining bytes as a literal
    if s.nextEmit < input.length then
      emitLiteral input s.nextEmit (input.length - s.nextEmit) false s.out
    else some s.out

/-! ## Blocks -/

/-- `kBlockSize` -/
def kBlockSize : ℕ := 1 <<< 15

/-- `MaxCompressedLength` -/
def maxCompressedLength (sourceLen : ℕ) : ℕ := 32 + sourceLen + sourceLen / 6

variable {σ : Type}

/-- The loop of `Compress` that reads into its scratch buffer, with what is there and the number of rounds
that are left. -/
def gather (S : Source σ) (numToRead : ℕ) : ℕ → Slice → σ → Option (Slice × σ)
  | 0, _, _ => none
  | rounds + 1, buffer, reader =>
    if buffer.length < numToRead then
      let fragment := S.peek reader
      let n := min fragment.length (numToRead - buffer.length)
      gather S numToRead rounds (buffer ++ fragment.take n) (S.skip n reader)
    else some (buffer, reader)

/-- The next block to compress, and the reader behind it. -/
def nextBlock (S : Source σ) (numToRead : ℕ) (reader : σ) : Option (Slice × σ) :=
  let fragment := S.peek reader
  -- Buffer returned by reader is large enough
  if numToRead ≤ fragment.length then some (fragment.take numToRead, S.skip numToRead reader)
  else gather S numToRead (numToRead + 1) fragment (S.skip fragment.length reader)

/-- The main loop of `Compress` into a flat array, with `N` and the number of rounds that are left. -/
def compressBlocks (word : ℕ) (S : Source σ) : ℕ → ℤ → σ → Output → Option Output
  | 0, _, _, _ => none
  | rounds + 1, n, reader, out =>
    if 0 < n then
      let numToRead := min n.toNat kBlockSize
      (nextBlock S numToRead reader).bind fun r =>
        (compressFragment word r.1 out (getHashTable numToRead)).bind fun out =>
          compressBlocks word S rounds (n - numToRead) r.2 out
    else some out

/-- `Compress` into a flat array: the array and how many bytes were written. -/
def compress (word : ℕ) (S : Source σ) (reader : σ) (dest : Slice) : Option Output :=
  let n := toInt32 (S.bytes reader).length
  -- `ulength`
  ((⟨dest, 0⟩ : Output).put (encodeVarint32 (n % 2^32).toNat)).bind fun out =>
    compressBlocks word S ((S.bytes reader).length + 1) n reader out

/-- `RawCompress`: the array and `compressed_length`. -/
def rawCompress (word : ℕ) (input compressed : Slice) : Option Output :=
  compress word byteArraySource input compressed

/-- `Snappy_Compress` -/
def snappyCompress (word : ℕ) (input output : Slice) : Option Slice :=
  (rawCompress word input (resize 0 (maxCompressedLength input.length) output)).map
    fun o => resize 0 o.op o.mem

end LevelDb.SnappySrc
