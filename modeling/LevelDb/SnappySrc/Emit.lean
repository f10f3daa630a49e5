import LevelDb.SnappySrc.Matches

/-!
# Emitting items

What `EmitLiteral` and `EmitCopy` write is read back as the items that they are given, and does not take
more than seven bytes for six of the input, except for a short literal. `EmitLiteral` may store up to 15
bytes more than it emits.
-/

namespace LevelDb.SnappySrc

open Lib

/-! ## What is written -/

/-- Some bytes are written to the array. -/
structure Wrote (o o' : Output) (data : Slice) : Prop where
  /-- The size of the array. -/
  length_mem : o'.mem.length = o.mem.length
  /-- `op` -/
  op : o'.op = o.op + data.length
  /-- The bytes are behind what was there. -/
  front : o'.mem.take o'.op = o.mem.take o.op ++ data

variable {o o' o'' : Output} {data data' : Slice}

/-- The array and its position, as they are, are what writing no bytes leaves. -/
theorem Wrote.refl (o : Output) : Wrote o o [] := ⟨rfl, rfl, (List.append_nil _).symm⟩

/-- Bytes that are written after others are behind them in the array. -/
theorem Wrote.trans (h : Wrote o o' data) (h' : Wrote o' o'' data') : Wrote o o'' (data ++ data') := by
  refine ⟨h'.length_mem.trans h.length_mem, ?_, ?_⟩
  · rw [h'.op, h.op, List.length_append, Nat.add_assoc]
  · rw [h'.front, h.front, List.append_assoc]

/-- Bytes that are put into the array. -/
theorem Output.put_spec (o : Output) (data : Slice) (h : o.op + data.length ≤ o.mem.length) :
    ∃ o', o.put data = some o' ∧ Wrote o o' data := by
  refine ⟨⟨overwrite o.mem o.op data, o.op + data.length⟩, ?_, length_overwrite h, rfl, take_overwrite h⟩
  unfold Output.put
  rw [store_eq h, Option.map_some]

/-- Bytes that are stored in the array. There may be more than count. -/
theorem Output.stored {r : Option Slice} {limit k : ℕ}
    (hfills : Fills o.mem limit k (o.mem.take o.op ++ data) r) (hop : o.op ≤ o.mem.length) {len : ℕ}
    (hk : o.op + len ≤ k) (hlen : len ≤ data.length) :
    ∃ o', (r.map fun mem => (⟨mem, o.op + len⟩ : Output)) = some o' ∧ Wrote o o' (data.take len) := by
  obtain ⟨mem, rfl, hsame, hlength, -⟩ := hfills
  refine ⟨⟨mem, o.op + len⟩, rfl, hlength, ?_, ?_⟩
  · show o.op + len = _
    rw [List.length_take_of_le hlen]
  · have htake : (o.mem.take o.op).length = o.op := List.length_take_of_le hop
    show mem.take (o.op + len) = _
    rw [(hsame.mono hk).take_eq]
    nth_rewrite 1 [← htake]
    exact List.take_length_add_append _

/-- A word is read as an item, whatever follows. -/
def SpellsItem (item : Item UInt8) (word : Slice) : Prop :=
  ∀ rest, readItem (word ++ rest) = some (item, rest)

/-! ## Literals -/

/-- The bytes that `EmitLiteral` writes for a length stand for this length. -/
theorem leValue_lengthBytes (n : ℕ) : leValue (lengthBytes n) = n := by
  rw [lengthBytes]
  split_ifs with hpos
  · have hbyte : (UInt8.ofNat (n &&& 0xff)).toNat = n % 2^8 := by
      rw [Nat.and_two_pow_sub_one_eq_mod n 8, UInt8.toNat_ofNat']
      exact Nat.mod_mod n _
    rw [leValue, hbyte, leValue_lengthBytes (n >>> 8), Nat.shiftRight_eq_div_pow]
    omega
  · show 0 = n
    omega
  termination_by n
  decreasing_by
    rw [Nat.shiftRight_eq_div_pow]
    omega

/-- A length below `2^(8 * k)` takes at most `k` bytes. -/
theorem length_lengthBytes (k n : ℕ) (h : n < 2^(8 * k)) : (lengthBytes n).length ≤ k := by
  induction k generalizing n with
  | zero =>
    obtain rfl : n = 0 := by omega
    rw [lengthBytes]
    exact le_rfl
  | succ k ih =>
    rw [lengthBytes]
    split_ifs with hpos
    · rw [List.length_cons, Nat.shiftRight_eq_div_pow]
      refine Nat.succ_le_succ (ih (n / 2^8) ?_)
      rw [Nat.mul_succ, Nat.pow_add] at h
      exact Nat.div_lt_of_lt_mul (Nat.mul_comm _ _ ▸ h)
    · exact Nat.zero_le _

/-- A length takes few bytes, compared with itself. -/
theorem six_mul_length_lengthBytes (n : ℕ) (h : 60 ≤ n) : 6 * (lengthBytes n).length + 6 ≤ n := by
  rw [lengthBytes, if_pos (by omega), List.length_cons, Nat.shiftRight_eq_div_pow]
  by_cases hlong : 60 ≤ n / 2^8
  · have ih := six_mul_length_lengthBytes (n / 2^8) hlong
    omega
  · have hshort := length_lengthBytes 1 (n / 2^8) (by omega)
    by_cases hzero : n / 2^8 = 0
    · have hnil : (lengthBytes (n / 2^8)).length ≤ 0 := length_lengthBytes 0 _ (by omega)
      omega
    · omega

/-- The tag of a literal, with the bytes of its length. -/
def literalTag (len : ℕ) : Slice :=
  if len - 1 < 60 then [UInt8.ofNat ((len - 1) <<< 2)]
  else UInt8.ofNat ((59 + (lengthBytes (len - 1)).length) <<< 2) :: lengthBytes (len - 1)

/-- A literal takes a seventh byte for six of its bytes at most, or for a shorter literal. -/
theorem six_mul_length_literalTag {len : ℕ} (hpos : 0 < len) :
    6 * (literalTag len).length ≤ len + 5 ∧ (6 ≤ len → 6 * (literalTag len).length ≤ len) := by
  unfold literalTag
  split_ifs with hfew
  · rw [List.length_singleton]
    omega
  · have hbytes := six_mul_length_lengthBytes (len - 1) (not_lt.mp hfew)
    rw [List.length_cons]
    omega

/-- The tag of a literal and its bytes spell the literal, whatever its length is. -/
theorem spellsItem_literal (data : Slice) (hpos : 0 < data.length) (hshort : data.length < 2^32) :
    SpellsItem (.literal data) (literalTag data.length ++ data) := by
  intro rest
  unfold literalTag
  split_ifs with hfew
  · have htag : (UInt8.ofNat ((data.length - 1) <<< 2)).toNat = 4 * (data.length - 1) := by
      rw [Nat.shiftLeft_eq, UInt8.toNat_ofNat']
      omega
    have hextra : extraBytes (4 * (data.length - 1)) = 0 := by
      unfold extraBytes
      rw [Nat.mul_mod_right]
      show 4 * (data.length - 1) / 4 - 59 = 0
      omega
    rw [List.append_assoc, List.singleton_append, readItem_literal (by omega), htag, hextra,
      if_neg (Nat.not_lt_zero _)]
    dsimp only
    rw [if_pos (show 4 * (data.length - 1) / 4 < 60 by omega),
      show 4 * (data.length - 1) / 4 + 1 = data.length by omega, Nat.zero_add, List.drop_zero,
      if_neg (by rw [List.length_append]; omega), List.take_left, List.drop_left]
  · have hbytes : (lengthBytes (data.length - 1)).length ≤ 4 := length_lengthBytes 4 _ (by omega)
    have hvalue := leValue_lengthBytes (data.length - 1)
    have hlong := six_mul_length_lengthBytes (data.length - 1) (not_lt.mp hfew)
    have hne : 1 ≤ (lengthBytes (data.length - 1)).length := by
      rw [lengthBytes, if_pos (by omega), List.length_cons]
      omega
    generalize lengthBytes (data.length - 1) = bytes at hbytes hvalue hne
    have htag : (UInt8.ofNat ((59 + bytes.length) <<< 2)).toNat = 4 * (59 + bytes.length) := by
      rw [Nat.shiftLeft_eq, UInt8.toNat_ofNat']
      omega
    have hextra : extraBytes (4 * (59 + bytes.length)) = bytes.length := by
      unfold extraBytes
      rw [Nat.mul_mod_right]
      show 4 * (59 + bytes.length) / 4 - 59 = bytes.length
      omega
    have hlength : (bytes ++ (data ++ rest)).length = bytes.length + (data.length + rest.length) := by
      rw [List.length_append, List.length_append]
    rw [List.cons_append, List.cons_append, List.append_assoc, readItem_literal (by omega), htag, hextra,
      if_neg (by omega), List.take_left, hvalue]
    dsimp only
    rw [if_neg (show ¬4 * (59 + bytes.length) / 4 < 60 by omega),
      show (data.length - 1 + 1) % 2^32 = data.length by omega, if_neg (by omega), List.drop_left,
      List.take_left, ← List.drop_drop, List.drop_left, List.drop_left]

/-- The bytes of a literal are stored behind its tag. -/
theorem Output.store_literal {input : Slice} {literal len m : ℕ} (hip : literal + m ≤ input.length)
    (hlen : len ≤ m) (hroom : o.op + m ≤ o.mem.length)
    {r : Option Slice} (hr : ∀ l, SameUpTo o.op o.mem l → (∀ i < m, l[o.op + i]? = input[literal + i]?) →
      Fills o.mem (o.op + m) (o.op + m) l r) :
    ∃ o', (r.map fun mem => (⟨mem, o.op + len⟩ : Output)) = some o' ∧
      Wrote o o' ((input.drop literal).take len) := by
  have hop : o.op ≤ o.mem.length := by omega
  have htake : (o.mem.take o.op).length = o.op := List.length_take_of_le hop
  refine Output.stored (hr _ (sameUpTo_of_take (List.prefix_append _ _) hop) fun i _ => ?_) hop
    (show o.op + len ≤ o.op + m by omega) (by rw [List.length_drop]; omega)
  rw [List.getElem?_append_right (by omega), htake, Nat.add_sub_cancel_left, List.getElem?_drop]

/-- `EmitLiteral` writes a word that spells the literal: its tag and its bytes. -/
theorem emitLiteral_spec {input : Slice} {literal len : ℕ} {fast : Bool} (hpos : 0 < len)
    (hip : literal + len ≤ input.length) (hshort : input.length < 2^32)
    (hfast : fast = true → literal + 16 ≤ input.length ∧ o.op + 17 ≤ o.mem.length)
    (hroom : o.op + (literalTag len).length + len ≤ o.mem.length) :
    ∃ o' word, emitLiteral input literal len fast o = some o' ∧ Wrote o o' word ∧
      SpellsItem (.literal ((input.drop literal).take len)) word ∧
      word.length = (literalTag len).length + len := by
  have hdata : ((input.drop literal).take len).length = len := length_take_drop hip
  have hspells := spellsItem_literal ((input.drop literal).take len) (by omega) (by omega)
  rw [hdata] at hspells
  obtain ⟨o₁, hput, hwrote⟩ := Output.put_spec o (literalTag len) (by omega)
  have hmem := hwrote.length_mem
  have hop := hwrote.op
  -- the tag is there, and the bytes of the literal are to be stored
  have hrest : ∀ {r : Option Output}, (∃ o', r = some o' ∧ Wrote o₁ o' ((input.drop literal).take len)) →
      ∃ o' word, r = some o' ∧ Wrote o o' word ∧
        SpellsItem (.literal ((input.drop literal).take len)) word ∧
        word.length = (literalTag len).length + len := by
    rintro r ⟨o', rfl, hwrote'⟩
    exact ⟨o', _, rfl, hwrote.trans hwrote', hspells, by rw [List.length_append, hdata]⟩
  have hslow : ∃ o', (((load input literal len).bind (store o₁.mem o₁.op)).map
        fun mem => (⟨mem, o₁.op + len⟩ : Output)) = some o' ∧
      Wrote o₁ o' ((input.drop literal).take len) :=
    Output.store_literal hip le_rfl (by omega) fun l hsame hnext =>
      fills_load hsame hip le_rfl (by omega) hnext
  unfold emitLiteral
  dsimp only
  unfold literalTag at hput hop
  split_ifs with hfew hcond
  · rw [if_pos hfew] at hput hop
    rw [hput, Option.bind_some]
    obtain ⟨hip', hroom'⟩ := hfast hcond.1
    rw [List.length_singleton] at hop
    refine hrest (Output.store_literal hip' hcond.2 (by omega) fun l hsame hnext => ?_)
    refine (fills_load hsame (by omega) (by omega) (by omega) fun i hi => hnext i (by omega)).bind
      fun mem' hsame' hlength => fills_load hsame' (by omega) (by omega) (by omega) fun i hi => ?_
    rw [Nat.add_assoc, Nat.add_assoc]
    exact hnext (8 + i) (by omega)
  · rw [if_pos hfew] at hput
    rw [hput, Option.bind_some]
    exact hrest hslow
  · rw [if_neg hfew] at hput
    rw [hput, Option.bind_some]
    exact hrest hslow

/-! ## Copies -/

/-- The tag byte of a copy with a one-byte offset. -/
theorem copyTag_eq {a h : ℕ} (ha : a < 8) (hh : h < 8) :
    (UInt8.ofNat (1 ||| a <<< 2 ||| h <<< 5)).toNat = 1 + 4 * a + 32 * h := by
  have hall : ∀ a < 8, ∀ h < 8, (UInt8.ofNat (1 ||| a <<< 2 ||| h <<< 5)).toNat = 1 + 4 * a + 32 * h := by
    decide
  exact hall a ha h hh

/-- The tag byte of a copy with a two-byte offset. -/
theorem copyTag_eq' {n : ℕ} (hn : n < 64) : (UInt8.ofNat (2 ||| n <<< 2)).toNat = 2 + 4 * n := by
  have hall : ∀ n < 64, (UInt8.ofNat (2 ||| n <<< 2)).toNat = 2 + 4 * n := by decide
  exact hall n hn

/-- A copy with a one-byte offset is read back. -/
theorem spellsItem_copy1 {offset len : ℕ} (hlen : 4 ≤ len) (hlen' : len < 12) (hoffset : offset < 2048) :
    SpellsItem (.copy offset len) [UInt8.ofNat (1 ||| (len - 4) <<< 2 ||| offset >>> 8 <<< 5),
      UInt8.ofNat (offset &&& 0xff)] := by
  intro rest
  have htag := copyTag_eq (show len - 4 < 8 by omega)
    (show offset >>> 8 < 8 by rw [Nat.shiftRight_eq_div_pow]; omega)
  have hbyte : (UInt8.ofNat (offset &&& 0xff)).toNat = offset % 2^8 := by
    rw [Nat.and_two_pow_sub_one_eq_mod offset 8, UInt8.toNat_ofNat']
    exact Nat.mod_mod offset _
  rw [Nat.shiftRight_eq_div_pow] at htag ⊢
  generalize hc : UInt8.ofNat (1 ||| (len - 4) <<< 2 ||| (offset / 2^8) <<< 5) = c at htag ⊢
  have hmod : c.toNat % 4 = 1 := by omega
  have hextra : extraBytes c.toNat = 1 := by
    unfold extraBytes
    rw [hmod]
    rfl
  rw [List.cons_append, readItem_copy (by omega), hextra, if_neg (by simp)]
  unfold copyHigh copyLength
  rw [if_pos hmod, if_pos hmod]
  simp only [List.cons_append, List.nil_append, List.take_succ_cons, List.take_zero, leValue, hbyte,
    List.drop_succ_cons, List.drop_zero]
  congr 2
  congr 1 <;> omega

/-- A copy with a two-byte offset is read back. -/
theorem spellsItem_copy2 {offset len : ℕ} (hlen : 0 < len) (hlen' : len ≤ 64) (hoffset : offset < 65536) :
    SpellsItem (.copy offset len) [UInt8.ofNat (2 ||| (len - 1) <<< 2), UInt8.ofNat offset,
      UInt8.ofNat (offset >>> 8)] := by
  intro rest
  have htag := copyTag_eq' (show len - 1 < 64 by omega)
  generalize hc : UInt8.ofNat (2 ||| (len - 1) <<< 2) = c at htag ⊢
  have hmod : c.toNat % 4 = 2 := by omega
  have hextra : extraBytes c.toNat = 2 := by
    unfold extraBytes
    rw [hmod]
    rfl
  have hlow : (UInt8.ofNat offset).toNat = offset % 2^8 := UInt8.toNat_ofNat'
  have hhigh : (UInt8.ofNat (offset >>> 8)).toNat = offset / 2^8 := by
    rw [Nat.shiftRight_eq_div_pow, UInt8.toNat_ofNat']
    omega
  rw [List.cons_append, readItem_copy (by omega), hextra, if_neg (by simp)]
  unfold copyHigh copyLength
  rw [if_neg (by omega), if_neg (by omega)]
  simp only [List.cons_append, List.nil_append, List.take_succ_cons, List.take_zero, leValue, hlow, hhigh,
    List.drop_succ_cons, List.drop_zero]
  congr 2
  congr 1 <;> omega

/-- `EmitCopyLessThan64` writes a word of at most three bytes that spells the copy. -/
theorem emitCopyLessThan64_spec (offset len : ℕ) (o : Output) (hlen : 4 ≤ len) (hlen' : len ≤ 64)
    (hoffset : offset < 65536) (hroom : o.op + 3 ≤ o.mem.length) :
    ∃ o' word, emitCopyLessThan64 offset len o = some o' ∧ Wrote o o' word ∧
      SpellsItem (.copy offset len) word ∧ word.length ≤ 3 := by
  unfold emitCopyLessThan64
  split_ifs with hnear
  · obtain ⟨o', hput, hwrote⟩ := Output.put_spec o
      [UInt8.ofNat (1 ||| (len - 4) <<< 2 ||| offset >>> 8 <<< 5), UInt8.ofNat (offset &&& 0xff)]
      (show o.op + 2 ≤ _ by omega)
    exact ⟨o', _, hput, hwrote, spellsItem_copy1 hlen hnear.1 hnear.2, show 2 ≤ 3 by decide⟩
  · obtain ⟨o', hput, hwrote⟩ := Output.put_spec o
      [UInt8.ofNat (2 ||| (len - 1) <<< 2), UInt8.ofNat offset, UInt8.ofNat (offset >>> 8)] hroom
    exact ⟨o', _, hput, hwrote, spellsItem_copy2 (by omega) hlen' hoffset, le_rfl⟩

/-- What `EmitCopy` writes: copies that are a copy together. -/
structure Copies (offset len : ℕ) (word : Slice) : Prop where
  /-- The copies. -/
  spelled : ∃ items, SpellsAll SpellsItem items word ∧
    ∀ out, 0 < offset → offset ≤ out.length → expand items out = some (copyBack offset len out)
  /-- They take three bytes for four of the input, or less. -/
  length_le : 6 * word.length + 10 ≤ 7 * len

/-- A word of at most three bytes that spells a copy of at least four bytes is a sequence of copies. -/
theorem Copies.single {offset len : ℕ} {word : Slice} (hlen : 4 ≤ len)
    (h : SpellsItem (.copy offset len) word) (hlength : word.length ≤ 3) : Copies offset len word := by
  refine ⟨⟨[.copy offset len], ?_, fun out hpos hle => ?_⟩, by omega⟩
  · have hword := (spellsAll_nil SpellsItem).cons h
    rw [List.append_nil] at hword
    exact hword
  · rw [expand_cons]
    show (if _ then _ else _ : Option _).bind _ = _
    rw [if_pos ⟨hpos, hle⟩]
    rfl

/-- Two sequences of copies at one offset, one after the other, copy the sum of their lengths. -/
theorem Copies.append {offset len len' : ℕ} {word word' : Slice} (h : Copies offset len word)
    (h' : Copies offset len' word') : Copies offset (len + len') (word ++ word') := by
  obtain ⟨⟨items, hspells, hexpand⟩, hlength⟩ := h
  obtain ⟨⟨items', hspells', hexpand'⟩, hlength'⟩ := h'
  refine ⟨⟨items ++ items', hspells.append hspells', fun out hpos hle => ?_⟩, ?_⟩
  · have hmore := length_copyBack hpos len hle
    rw [expand_append, hexpand out hpos hle, Option.bind_some, hexpand' _ hpos (by omega),
      copyBack_copyBack hpos len' len hle]
  · rw [List.length_append]
    omega

/-- `EmitCopy` writes a sequence of copies at its offset that copy its length, for which seven bytes of
room for six of the length are enough. -/
theorem emitCopy_spec {offset : ℕ} (hoffset : offset < 65536) (len : ℕ) (o : Output) (hlen : 4 ≤ len)
    (hroom : 6 * o.op + 7 * len ≤ 6 * o.mem.length + 10) :
    ∃ o' word, emitCopy offset len o = some o' ∧ Wrote o o' word ∧ Copies offset len word := by
  rw [emitCopy]
  split_ifs with hmany hmore
  · obtain ⟨o₁, word₁, hfirst, hwrote₁, hspells₁, hlength₁⟩ :=
      emitCopyLessThan64_spec offset 64 o (by omega) le_rfl hoffset (by omega)
    have hmem := hwrote₁.length_mem
    have hop := hwrote₁.op
    obtain ⟨o₂, word₂, hrest, hwrote₂, hcopies₂⟩ := emitCopy_spec hoffset (len - 64) o₁ (by omega) (by omega)
    rw [hfirst, Option.bind_some]
    refine ⟨o₂, _, hrest, hwrote₁.trans hwrote₂, ?_⟩
    have hboth := (Copies.single (by omega) hspells₁ hlength₁).append hcopies₂
    rwa [show 64 + (len - 64) = len by omega] at hboth
  · obtain ⟨o₁, word₁, hfirst, hwrote₁, hspells₁, hlength₁⟩ :=
      emitCopyLessThan64_spec offset 60 o (by omega) (by omega) hoffset (by omega)
    have hmem := hwrote₁.length_mem
    have hop := hwrote₁.op
    obtain ⟨o₂, word₂, hrest, hwrote₂, hspells₂, hlength₂⟩ :=
      emitCopyLessThan64_spec offset (len - 60) o₁ (by omega) (by omega) hoffset (by omega)
    rw [hfirst, Option.bind_some]
    refine ⟨o₂, _, hrest, hwrote₁.trans hwrote₂, ?_⟩
    have hboth := (Copies.single (by omega) hspells₁ hlength₁).append
      (Copies.single (by omega) hspells₂ hlength₂)
    rwa [show 60 + (len - 60) = len by omega] at hboth
  · obtain ⟨o₁, word₁, hfirst, hwrote₁, hspells₁, hlength₁⟩ :=
      emitCopyLessThan64_spec offset len o hlen (by omega) hoffset (by omega)
    exact ⟨o₁, word₁, hfirst, hwrote₁, Copies.single hlen hspells₁ hlength₁⟩

end LevelDb.SnappySrc
