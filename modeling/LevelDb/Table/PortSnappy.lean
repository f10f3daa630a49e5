import LevelDb.SnappySrc.RoundTrip
import LevelDb.Table.Layout

/-!
# Tables with Snappy

The functions of `port` on Windows, with `USE_SNAPPY`, and the blocks that are stored with them. `Correct`
does not hold for them: a block of 2GB or more is not read back (`uncompressBlock_portSnappy_iff`). A smaller
one is.
-/

namespace LevelDb

open SnappySrc

/-- The functions of `port` in `win32_impl_src/port_win32.cc`. The new array of `ReadBlock` is not
initialized. -/
def portSnappy (word : ℕ) (scratch : Slice) (fill : UInt8) : Snappy where
  compress raw := snappyCompress word raw []
  getUncompressedLength := SnappySrc.getUncompressedLength
  uncompress data :=
    (SnappySrc.getUncompressedLength data).bind fun ulength =>
      (rawUncompress byteArraySource scratch data (List.replicate ulength fill)).bind fun r =>
        if r.1 then some r.2 else none

variable {word : ℕ} {scratch : Slice} {fill : UInt8}

/-- `Snappy_Uncompress` of the port returns a string exactly for the compressed forms of it whose
length has no excess bits. -/
theorem portSnappy_uncompress_eq_some_iff (hscratch : scratch.length = 5) {data : Slice}
    (hshort : data.length < 2^32) (out : Slice) :
    (portSnappy word scratch fill).uncompress data = some out ↔ Uncompresses data out ∧ ¬ExcessBits data := by
  have hlength := getUncompressedLength_eq_some_iff data
  unfold portSnappy
  dsimp only
  cases hparse : SnappySrc.getUncompressedLength data with
  | none =>
    rw [Option.bind_none]
    refine ⟨fun h => (by cases h), ?_⟩
    rintro ⟨⟨rest, items, hhead, -⟩, hbits⟩
    rw [(hlength _).mpr ⟨⟨rest, hhead⟩, hbits⟩] at hparse
    cases hparse
  | some n =>
    obtain ⟨⟨rest, hhead⟩, hbits⟩ := (hlength n).mp hparse
    have heq : ∀ out, Uncompresses data out → out.length = n := by
      rintro out ⟨_, _, hhead', -⟩
      exact (Prod.mk.inj (Option.some.inj (hhead'.symm.trans hhead))).1
    obtain ⟨b, w, hrun, hiff, hholds⟩ := rawUncompress_holds byteArraySource scratch data
      (List.replicate n fill) hscratch hshort fun n' rest' h => by
        rw [List.length_replicate]
        exact (Prod.mk.inj (Option.some.inj (h.symm.trans hhead))).1.le
    have hfull : ∀ out, Uncompresses data out → w.mem = out := by
      intro out hout
      rw [(hholds out hout).mem_eq, List.drop_eq_nil_of_le (by rw [List.length_replicate, heq out hout]),
        List.append_nil]
    rw [Option.bind_some, hrun, Option.bind_some]
    dsimp only
    constructor
    · intro h
      split_ifs at h with hb
      obtain ⟨out', hout'⟩ := hiff.mp hb
      obtain rfl := Option.some.inj h
      exact ⟨hfull out' hout' ▸ hout', hbits⟩
    · rintro ⟨hout, -⟩
      rw [if_pos (hiff.mpr ⟨out, hout⟩), hfull out hout]

/-- What a compressed block is read as. -/
theorem uncompressBlock_portSnappy (hscratch : scratch.length = 5) {data : Slice}
    (hshort : data.length < 2^32) (out : Slice) :
    uncompressBlock (portSnappy word scratch fill) data CompressionType.snappy.toByte = .ok out ↔
      Uncompresses data out ∧ ¬ExcessBits data := by
  have hdata : ∀ out, (portSnappy word scratch fill).uncompress data = some out ↔ _ :=
    portSnappy_uncompress_eq_some_iff hscratch hshort
  unfold uncompressBlock
  rw [if_neg (by decide), if_pos rfl]
  constructor
  · intro h
    split at h
    · next n ubuf hlength hubuf =>
      obtain ⟨hout, hbits⟩ := (hdata ubuf).mp hubuf
      obtain ⟨⟨rest, hhead⟩, -⟩ := (getUncompressedLength_eq_some_iff data n).mp hlength
      obtain ⟨_, _, hhead', -⟩ := id hout
      obtain ⟨hn, -⟩ := Prod.mk.inj (Option.some.inj (hhead'.symm.trans hhead))
      rw [← hn, List.take_length] at h
      exact ⟨Except.ok.inj h ▸ hout, hbits⟩
    · cases h
  · rintro ⟨hout, hbits⟩
    obtain ⟨rest, _, hhead, -⟩ := id hout
    have hlength : (portSnappy word scratch fill).getUncompressedLength data = some out.length :=
      (getUncompressedLength_eq_some_iff data out.length).mpr ⟨⟨rest, hhead⟩, hbits⟩
    rw [hlength, (hdata out).mpr ⟨hout, hbits⟩]
    dsimp only
    rw [List.take_length]

/-- A block is read back from what it is stored as if and only if it is not to be compressed, or has less
than 2GB. -/
theorem uncompressBlock_portSnappy_iff (hword : word = 4 ∨ word = 8) (hscratch : scratch.length = 5)
    {o : TableOptions} (hsnappy : o.snappy = portSnappy word scratch fill) (raw : Slice) :
    uncompressBlock o.snappy (TableBuilder.blockContents o raw).1
        (TableBuilder.blockContents o raw).2.toByte = .ok raw ↔
      o.compression = .none ∨ raw.length < 2^31 := by
  have hraw : uncompressBlock o.snappy raw CompressionType.none.toByte = .ok raw := if_pos rfl
  obtain ⟨body, hcompress, -, hsize, hall⟩ := snappyCompress_eq hword raw []
  have hbits := not_excessBits (Nat.mod_lt raw.length (show 0 < 2^32 by decide)) body
  have hiff := (hall raw).trans (take_blockBytes_iff raw)
  generalize encodeVarint32 (raw.length % 2^32) ++ body = c at *
  have hbytes := blockBytes_eq raw.length
  unfold TableBuilder.blockContents
  cases hcompression : o.compression with
  | none => exact iff_of_true hraw (Or.inl rfl)
  | snappy =>
    have hport : o.snappy.compress raw = some c := by
      rw [hsnappy]
      unfold portSnappy
      dsimp only
      rw [hcompress]
    have hfew : raw.length < 2^31 ∨ c.length < raw.length - raw.length / 8 := by
      split_ifs at hbytes <;> omega
    have hshort : c.length < 2^32 := by split_ifs at hbytes <;> omega
    dsimp only
    rw [hport]
    dsimp only
    split_ifs with hsaved
    · rw [hsnappy, uncompressBlock_portSnappy hscratch hshort raw, and_iff_left hbits, hiff]
      exact ⟨Or.inr, fun h => h.resolve_left fun h => (by cases h)⟩
    · exact iff_of_true hraw (Or.inr (hfew.resolve_right hsaved))

/-- The options of a table with Snappy. -/
def portOptions : TableOptions :=
  ⟨bytewiseComparator, 4096, 16, .snappy, portSnappy 8 [0, 0, 0, 0, 0] 0xcd⟩

/-- A block of a hundred equal bytes is stored compressed. -/
theorem uncompressBlock_portSnappy_iff_repetition :
    (TableBuilder.blockContents portOptions (List.replicate 100 97)).2 = .snappy ∧
      (uncompressBlock portOptions.snappy (TableBuilder.blockContents portOptions (List.replicate 100 97)).1
          (TableBuilder.blockContents portOptions (List.replicate 100 97)).2.toByte =
            .ok (List.replicate 100 97) ↔
        portOptions.compression = .none ∨ (List.replicate 100 97 : Slice).length < 2^31) := by
  have hsnappy : portOptions.snappy = portSnappy 8 [0, 0, 0, 0, 0] 0xcd := rfl
  exact ⟨by decide +kernel, uncompressBlock_portSnappy_iff (Or.inr rfl) rfl hsnappy (List.replicate 100 97)⟩

end LevelDb
