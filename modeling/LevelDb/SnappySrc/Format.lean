import LevelDb.Lib.BackReference
import LevelDb.Lib.Reader
import LevelDb.Util.Varint

/-!
# The format of compressed data

A compressed string is the length of what it stands for, as a varint, followed by literals and copies
(`Lib.Item`). The low two bits of a tag byte say which; the lengths of literals from 61 on and the offsets
of copies follow in one to four bytes. The decompressor looks most of this up in a table of 256 entries,
which `ComputeTable` has generated (`charTable_eq_computeTable`).
-/

namespace LevelDb.SnappySrc

open Lib

/-! ## The table -/

/-- `char_table`: the length in bits 0 to 7, the offset of a copy divided by 256 in bits 8 to 10, and the
number of bytes behind the tag in bits 11 to 13. -/
def charTable : List ℕ :=
  [0x0001, 0x0804, 0x1001, 0x2001, 0x0002, 0x0805, 0x1002, 0x2002, 0x0003, 0x0806, 0x1003, 0x2003,
    0x0004, 0x0807, 0x1004, 0x2004, 0x0005, 0x0808, 0x1005, 0x2005, 0x0006, 0x0809, 0x1006, 0x2006,
    0x0007, 0x080a, 0x1007, 0x2007, 0x0008, 0x080b, 0x1008, 0x2008, 0x0009, 0x0904, 0x1009, 0x2009,
    0x000a, 0x0905, 0x100a, 0x200a, 0x000b, 0x0906, 0x100b, 0x200b, 0x000c, 0x0907, 0x100c, 0x200c,
    0x000d, 0x0908, 0x100d, 0x200d, 0x000e, 0x0909, 0x100e, 0x200e, 0x000f, 0x090a, 0x100f, 0x200f,
    0x0010, 0x090b, 0x1010, 0x2010, 0x0011, 0x0a04, 0x1011, 0x2011, 0x0012, 0x0a05, 0x1012, 0x2012,
    0x0013, 0x0a06, 0x1013, 0x2013, 0x0014, 0x0a07, 0x1014, 0x2014, 0x0015, 0x0a08, 0x1015, 0x2015,
    0x0016, 0x0a09, 0x1016, 0x2016, 0x0017, 0x0a0a, 0x1017, 0x2017, 0x0018, 0x0a0b, 0x1018, 0x2018,
    0x0019, 0x0b04, 0x1019, 0x2019, 0x001a, 0x0b05, 0x101a, 0x201a, 0x001b, 0x0b06, 0x101b, 0x201b,
    0x001c, 0x0b07, 0x101c, 0x201c, 0x001d, 0x0b08, 0x101d, 0x201d, 0x001e, 0x0b09, 0x101e, 0x201e,
    0x001f, 0x0b0a, 0x101f, 0x201f, 0x0020, 0x0b0b, 0x1020, 0x2020, 0x0021, 0x0c04, 0x1021, 0x2021,
    0x0022, 0x0c05, 0x1022, 0x2022, 0x0023, 0x0c06, 0x1023, 0x2023, 0x0024, 0x0c07, 0x1024, 0x2024,
    0x0025, 0x0c08, 0x1025, 0x2025, 0x0026, 0x0c09, 0x1026, 0x2026, 0x0027, 0x0c0a, 0x1027, 0x2027,
    0x0028, 0x0c0b, 0x1028, 0x2028, 0x0029, 0x0d04, 0x1029, 0x2029, 0x002a, 0x0d05, 0x102a, 0x202a,
    0x002b, 0x0d06, 0x102b, 0x202b, 0x002c, 0x0d07, 0x102c, 0x202c, 0x002d, 0x0d08, 0x102d, 0x202d,
    0x002e, 0x0d09, 0x102e, 0x202e, 0x002f, 0x0d0a, 0x102f, 0x202f, 0x0030, 0x0d0b, 0x1030, 0x2030,
    0x0031, 0x0e04, 0x1031, 0x2031, 0x0032, 0x0e05, 0x1032, 0x2032, 0x0033, 0x0e06, 0x1033, 0x2033,
    0x0034, 0x0e07, 0x1034, 0x2034, 0x0035, 0x0e08, 0x1035, 0x2035, 0x0036, 0x0e09, 0x1036, 0x2036,
    0x0037, 0x0e0a, 0x1037, 0x2037, 0x0038, 0x0e0b, 0x1038, 0x2038, 0x0039, 0x0f04, 0x1039, 0x2039,
    0x003a, 0x0f05, 0x103a, 0x203a, 0x003b, 0x0f06, 0x103b, 0x203b, 0x003c, 0x0f07, 0x103c, 0x203c,
    0x0801, 0x0f08, 0x103d, 0x203d, 0x1001, 0x0f09, 0x103e, 0x203e, 0x1801, 0x0f0a, 0x103f, 0x203f,
    0x2001, 0x0f0b, 0x1040, 0x2040]

/-- `wordmask`: masks for the low bytes of a word. -/
def wordmask : List ℕ := [0, 0xff, 0xffff, 0xffffff, 0xffffffff]

/-- `MakeEntry` -/
def makeEntry (extra len copyOffset : ℕ) : ℕ := len ||| copyOffset <<< 8 ||| extra <<< 11

/-- `ComputeTable`, up to its checks. -/
def computeTable : List ℕ :=
  let dst := List.replicate 256 0xffff
  let dst := (List.range' 1 60).foldl (fun dst len => dst.set ((len - 1) <<< 2) (makeEntry 0 len 0)) dst
  let dst := (List.range' 1 4).foldl
    (fun dst extra => dst.set ((extra + 59) <<< 2) (makeEntry extra 1 0)) dst
  let dst := (List.range' 4 8).foldl
    (fun dst len => (List.range 8).foldl
      (fun dst high => dst.set (1 ||| (len - 4) <<< 2 ||| high <<< 5) (makeEntry 1 len high)) dst) dst
  let dst := (List.range' 1 64).foldl
    (fun dst len => dst.set (2 ||| (len - 1) <<< 2) (makeEntry 2 len 0)) dst
  (List.range' 1 64).foldl (fun dst len => dst.set (3 ||| (len - 1) <<< 2) (makeEntry 4 len 0)) dst

/-- The table is the computed one. -/
theorem charTable_eq_computeTable : charTable = computeTable := by decide +kernel

/-- The entry of a tag byte. -/
def entryOf (c : UInt8) : ℕ := charTable.getD c.toNat 0

/-! ## Items -/

/-- The value of some bytes, the lowest first. -/
def leValue : Slice → ℕ
  | [] => 0
  | b :: rest => b.toNat + 2^8 * leValue rest

/-- How many bytes of the tag are behind its first one. -/
def extraBytes (tag : ℕ) : ℕ :=
  match tag % 4 with
  | 0 => tag / 4 - 59
  | 1 => 1
  | 2 => 2
  | _ => 4

/-- The length of a copy. -/
def copyLength (tag : ℕ) : ℕ := if tag % 4 = 1 then tag / 4 % 8 + 4 else tag / 4 + 1

/-- The part of the offset of a copy that is in the tag byte. -/
def copyHigh (tag : ℕ) : ℕ := if tag % 4 = 1 then tag / 32 * 256 else 0

/-- The item in front of some bytes, and what is behind it. The length of a literal is a 32-bit word. -/
def readItem : Slice → Option (Item UInt8 × Slice)
  | [] => none
  | c :: rest =>
    let tag := c.toNat
    let extra := extraBytes tag
    let trailer := leValue (rest.take extra)
    if rest.length < extra then none
    else
      match tag % 4 with
      | 0 =>
        let len := if tag / 4 < 60 then tag / 4 + 1 else (trailer + 1) % 2^32
        if rest.length < extra + len then none
        else some (.literal ((rest.drop extra).take len), rest.drop (extra + len))
      | _ => some (.copy (copyHigh tag + trailer) (copyLength tag), rest.drop extra)

/-- Some bytes are the compressed form of others. -/
def Uncompresses (data out : Slice) : Prop :=
  ∃ rest items, getVarint32PtrFallback data = some (out.length, rest) ∧ ReadsAll readItem rest items ∧
    expand items [] = some out

/-- What the table says about a tag byte. -/
theorem entryOf_spec (c : UInt8) : entryOf c >>> 11 = extraBytes c.toNat ∧
    (c.toNat % 4 ≠ 0 → entryOf c &&& 0xff = copyLength c.toNat ∧ entryOf c &&& 0x700 = copyHigh c.toNat) := by
  have hall : ∀ p ∈ charTable.zipIdx, p.1 >>> 11 = extraBytes p.2 ∧
      (p.2 % 4 ≠ 0 → p.1 &&& 0xff = copyLength p.2 ∧ p.1 &&& 0x700 = copyHigh p.2) := by
    decide +kernel
  have hlength : charTable.length = 256 := by decide +kernel
  have hlt : c.toNat < charTable.length := hlength ▸ c.toNat_lt
  have hentry : charTable[c.toNat]? = some (entryOf c) := by
    unfold entryOf
    rw [List.getD_eq_getElem?_getD, List.getElem?_eq_getElem hlt, Option.getD_some]
  exact hall (entryOf c, c.toNat) (List.mem_zipIdx_iff_getElem?.mpr hentry)

end LevelDb.SnappySrc
