import LevelDb.SnappySrc.Emit

/-!
# Compressing a fragment

Whatever the hash table leads to, `CompressFragment` only emits a copy after it has compared the bytes, so
that the items that are emitted always stand for the input up to `next_emit` (`Emitted`). The entries of the
table are positions before `ip`, and the output does not grow faster than the input, up to one byte: nothing
outside of the arrays is accessed (`compressFragment_spec`).
-/

namespace LevelDb.SnappySrc

open Lib

/-! ## The hash table -/

/-- The entries of a hash table are positions before `ip`. -/
structure TableOk (size ip : ℕ) (table : List ℕ) : Prop where
  /-- The number of entries. -/
  length_eq : table.length = size
  /-- "DCHECK_LT(candidate, ip)" -/
  lt : ∀ h p : ℕ, table[h]? = some p → p < ip

variable {size ip : ℕ} {table : List ℕ}

/-- The hash table has an entry for each hash, and the candidate in it is before `ip`. -/
theorem TableOk.get (h : TableOk size ip table) {hash : ℕ} (hhash : hash < size) :
    ∃ candidate, table[hash]? = some candidate ∧ candidate < ip := by
  have hlt : hash < table.length := h.length_eq ▸ hhash
  exact ⟨table[hash], List.getElem?_eq_getElem hlt, h.lt hash _ (List.getElem?_eq_getElem hlt)⟩

/-- A position of a block is inserted. -/
theorem TableOk.insert (h : TableOk size ip table) {hash p ip' : ℕ} (hhash : hash < size) (hp : p < ip')
    (hle : ip ≤ ip') (hword : p < 2^16) :
    ∃ table', store table hash [p % 2^16] = some table' ∧ TableOk size ip' table' := by
  have hroom : hash + [p % 2^16].length ≤ table.length := h.length_eq ▸ hhash
  refine ⟨_, store_eq hroom, (length_overwrite hroom).trans h.length_eq, fun i q hq => ?_⟩
  rw [getElem?_overwrite hroom] at hq
  split_ifs at hq with hin
  · obtain rfl : i = hash := by
      rw [List.length_singleton] at hin
      omega
    rw [Nat.sub_self, List.getElem?_cons_zero, Nat.mod_eq_of_lt hword] at hq
    exact Option.some.inj hq ▸ hp
  · exact lt_of_lt_of_le (h.lt i q hq) hle

/-- The hash of four bytes is an index of the table for which it is shifted. -/
theorem hashBytes_lt {k : ℕ} (hk : k ≤ 32) (bytes : ℕ) : hashBytes bytes (32 - k) < 2^k := by
  unfold hashBytes
  rw [Nat.shiftRight_eq_div_pow]
  refine Nat.div_lt_of_lt_mul ?_
  rw [← Nat.pow_add, Nat.sub_add_cancel hk]
  exact Nat.mod_lt _ (by decide)

/-- A loaded word, from one of its bytes on. -/
theorem getUint32AtOffset_eq (bytes : Slice) (k : ℕ) :
    getUint32AtOffset (leValue bytes) k = leValue ((bytes.drop k).take 4) := by
  unfold getUint32AtOffset
  rw [Nat.shiftRight_eq_div_pow, leValue_div]
  exact leValue_mod 4 _

/-! ## What is emitted -/

/-- The items that have been emitted stand for the first `p` bytes of the input, and take seven bytes for
six of these, up to `debt`. -/
def Emitted (input : Slice) (start : Output) (p : ℕ) (o : Output) (debt : ℤ) : Prop :=
  ∃ items word, Wrote start o word ∧ SpellsAll SpellsItem items word ∧
    expand items [] = some (input.take p) ∧ (6 * word.length : ℤ) ≤ 7 * p + debt

variable {input : Slice} {start o : Output} {p : ℕ} {debt : ℤ}

/-- At the start of a fragment nothing has been emitted, and it stands for no input. -/
theorem emitted_zero (input : Slice) (start : Output) : Emitted input start 0 start 0 :=
  ⟨[], [], Wrote.refl start, spellsAll_nil _, rfl, le_rfl⟩

/-- What was emitted within some debt was emitted within a larger one. -/
theorem Emitted.mono (h : Emitted input start p o debt) {debt' : ℤ} (hle : debt ≤ debt') :
    Emitted input start p o debt' := by
  obtain ⟨items, word, hwrote, hspells, hexpand, hlength⟩ := h
  exact ⟨items, word, hwrote, hspells, hexpand, by omega⟩

/-- How much of the array is used. -/
theorem Emitted.op_le (h : Emitted input start p o debt) :
    o.mem.length = start.mem.length ∧ (6 * o.op : ℤ) ≤ 6 * start.op + 7 * p + debt := by
  obtain ⟨items, word, hwrote, -, -, hlength⟩ := h
  have hop := hwrote.op
  exact ⟨hwrote.length_mem, by omega⟩

/-- There is enough room for the input, and 17 bytes more. -/
def Room (input : Slice) (start : Output) : Prop :=
  6 * start.op + 7 * input.length + 107 ≤ 6 * start.mem.length

/-- The next bytes are emitted as a literal. -/
theorem Emitted.literal (h : Emitted input start p o debt) (hroom : Room input start)
    (hshort : input.length < 2^32) {len : ℕ} {fast : Bool} (hpos : 0 < len) (hle : p + len ≤ input.length)
    (hfast : fast = true → p + 16 ≤ input.length) (hdebt : debt ≤ 0) :
    ∃ o', emitLiteral input p len fast o = some o' ∧ Emitted input start (p + len) o' (debt + 5) ∧
      (6 ≤ len → Emitted input start (p + len) o' debt) := by
  obtain ⟨hmem, hop⟩ := h.op_le
  obtain ⟨hsix, hsix'⟩ := six_mul_length_literalTag hpos
  unfold Room at hroom
  obtain ⟨o', word, hemit, hwrote, hspells, hlength⟩ := emitLiteral_spec (o := o) hpos hle hshort
    (fun hf => ⟨hfast hf, by omega⟩) (by omega)
  obtain ⟨items, word₀, hwrote₀, hspells₀, hexpand, hlength₀⟩ := h
  have hmore : ∀ debt' : ℤ, (6 * (word₀ ++ word).length : ℤ) ≤ 7 * (p + len : ℕ) + debt' →
      Emitted input start (p + len) o' debt' := by
    intro debt' hlength'
    have hsingle := (spellsAll_nil SpellsItem).cons hspells
    rw [List.append_nil] at hsingle
    refine ⟨_, _, hwrote₀.trans hwrote, hspells₀.append hsingle, ?_, hlength'⟩
    rw [expand_append, hexpand, Option.bind_some, List.take_add]
    rfl
  refine ⟨o', hemit, hmore _ ?_, fun hlong => hmore _ ?_⟩
  · rw [List.length_append]
    push_cast
    omega
  · have := hsix' hlong
    rw [List.length_append]
    push_cast
    omega

/-- The next bytes are emitted as copies, since they match earlier ones. -/
theorem Emitted.copy (h : Emitted input start p o debt) (hroom : Room input start) {candidate len : ℕ}
    (hlen : 4 ≤ len) (hle : p + len ≤ input.length) (hcandidate : candidate < p) (hblock : p < 65536)
    (hsame : ∀ i < len, input[candidate + i]? = input[p + i]?) (hdebt : debt ≤ 5) :
    ∃ o', emitCopy (p - candidate) len o = some o' ∧ Emitted input start (p + len) o' (debt - 10) := by
  obtain ⟨hmem, hop⟩ := h.op_le
  unfold Room at hroom
  obtain ⟨o', word, hemit, hwrote, ⟨items', hspells', hexpand'⟩, hlength⟩ :=
    emitCopy_spec (show p - candidate < 65536 by omega) len o hlen (by omega)
  obtain ⟨items, word₀, hwrote₀, hspells₀, hexpand, hlength₀⟩ := h
  refine ⟨o', hemit, items ++ items', word₀ ++ word, hwrote₀.trans hwrote, hspells₀.append hspells', ?_, ?_⟩
  · have htake : (input.take p).length = p := List.length_take_of_le (by omega)
    rw [expand_append, hexpand, Option.bind_some, hexpand' _ (by omega) (by omega),
      copyBack_take (by omega) (Nat.sub_le _ _) hle fun i hi => ?_]
    rw [Nat.sub_sub_self hcandidate.le]
    exact (hsame i hi).symm
  · rw [List.length_append]
    push_cast
    omega

/-! ## The loops -/

section Loops

variable {k ipLimit word : ℕ}

/-- The loop of step 1. A match of four bytes is found, unless it comes close to the end of the input. The
induction is on the rounds. -/
theorem scan_spec (hk : k ≤ 32) (hblock : input.length ≤ kBlockSize) (hlimit : ipLimit + 15 ≤ input.length) :
    ∀ (rounds nextIp nextHash skip : ℕ) (table : List ℕ), input.length < nextIp + rounds →
    nextIp ≤ input.length → 1 ≤ nextIp → nextHash < 2^k → 32 ≤ skip → skip ≤ 31 + nextIp →
    TableOk (2^k) nextIp table →
    ∃ r, scan input (32 - k) ipLimit rounds nextIp nextHash skip table = some r ∧
      ∀ ip candidate, r.1 = some (ip, candidate) → nextIp ≤ ip ∧ ip < ipLimit ∧ candidate < ip ∧
        (∀ i < 4, input[candidate + i]? = input[ip + i]?) ∧ TableOk (2^k) (ip + 1) r.2
  | 0, nextIp, _, _, _, hrounds, hle, _, _, _, _, _ => by omega
  | rounds + 1, ip, nextHash, skip, table, hrounds, hle, hpos, hhash, hskip, hskip', htable => by
    have hsize : kBlockSize = 32768 := rfl
    have hstep : 1 ≤ skip >>> 5 := by
      rw [Nat.shiftRight_eq_div_pow]
      omega
    rw [scan]
    generalize skip >>> 5 = step at hstep
    split_ifs with hend
    · exact ⟨_, rfl, fun _ _ h => (by cases h)⟩
    · obtain ⟨candidate, hget, hbefore⟩ := htable.get hhash
      obtain ⟨table', hstore, htable'⟩ := htable.insert hhash (show ip < ip + 1 by omega)
        (show ip ≤ ip + 1 by omega) (by omega)
      unfold hash
      rw [loadWord_eq (by omega), Option.map_some, Option.bind_some, hget, Option.bind_some, hstore,
        Option.bind_some, loadWord_eq (by omega), Option.bind_some, loadWord_eq (by omega), Option.bind_some]
      split_ifs with hne
      · rw [Nat.mod_eq_of_lt (show skip + 1 < 2^32 by omega)]
        obtain ⟨r, hr, hspec⟩ := scan_spec hk hblock hlimit rounds (ip + step) _ (skip + 1) table' (by omega)
          (by omega) (by omega) (hashBytes_lt hk _) (by omega) (by omega)
          ⟨htable'.length_eq, fun i q hq => lt_of_lt_of_le (htable'.lt i q hq) (by omega)⟩
        refine ⟨r, hr, fun ip' candidate' h => ?_⟩
        obtain ⟨hle', hrest⟩ := hspec ip' candidate' h
        exact ⟨by omega, hrest⟩
      · refine ⟨_, rfl, fun ip' candidate' h => ?_⟩
        obtain ⟨rfl, rfl⟩ := Prod.mk.inj (Option.some.inj h)
        exact ⟨le_rfl, by omega, hbefore,
          loadWord_inj (by omega) (by omega) (not_not.mp hne).symm, htable'⟩

/-- The loop of step 3. The items that are emitted stand for the input up to `next_emit`. The induction is on
the rounds. -/
theorem emitCopies_spec (hk : k ≤ 32) (hword : word = 4 ∨ word = 8) (hblock : input.length ≤ kBlockSize)
    (hlimit : ipLimit + 15 ≤ input.length) (hroom : Room input start) :
    ∀ (rounds base candidate : ℕ) (s : Fragment), input.length < base + rounds → base + 4 ≤ input.length →
    candidate < base → (∀ i < 4, input[candidate + i]? = input[base + i]?) →
    TableOk (2^k) (base + 1) s.table → Emitted input start base s.out 5 →
    ∃ r, emitCopies word input (32 - k) ipLimit rounds base candidate s = some r ∧
      Emitted input start r.2.nextEmit r.2.out (-5) ∧ 0 < r.2.nextEmit ∧ r.2.nextEmit ≤ input.length ∧
      ∀ ip nextHash, r.1 = some (ip, nextHash) → r.2.nextEmit < ip ∧ base < ip ∧ ip ≤ ipLimit ∧
        nextHash < 2^k ∧ TableOk (2^k) ip r.2.table
  | 0, base, _, _, hrounds, hle, _, _, _, _ => by omega
  | rounds + 1, base, candidate, s, hrounds, hle, hbefore, hfour, htable, hemitted => by
    have hsize : kBlockSize = 32768 := rfl
    obtain ⟨more, hmatch, hends, hmore, -⟩ := findMatchLength_isMatchLength hword
      (show candidate + 4 ≤ base + 4 by omega) hle (le_refl input.length)
    obtain ⟨o', hcopy, hemitted'⟩ := hemitted.copy hroom (show 4 ≤ 4 + more by omega) (by omega)
      hbefore (by omega) (same_add hfour hmore) le_rfl
    rw [emitCopies, hmatch, Option.bind_some]
    dsimp only
    rw [hcopy, Option.bind_some]
    generalize hip : base + (4 + more) = ip at hemitted' ⊢
    split_ifs with hend
    · exact ⟨_, rfl, hemitted'.mono (by omega), (show 0 < ip by omega), (show ip ≤ input.length by omega),
        fun _ _ h => (by cases h)⟩
    · -- `ip` is inserted into the table, and the byte before it as well
      obtain ⟨table₁, hstore₁, htable₁⟩ := htable.insert
        (hashBytes_lt hk (getUint32AtOffset (leValue ((input.drop (ip - 1)).take 8)) 0))
        (show ip - 1 < ip by omega) (by omega) (by omega)
      have hhash := hashBytes_lt hk (getUint32AtOffset (leValue ((input.drop (ip - 1)).take 8)) 1)
      obtain ⟨candidate', hget, hbefore'⟩ := htable₁.get hhash
      obtain ⟨table₂, hstore₂, htable₂⟩ := htable₁.insert hhash (show ip < ip + 1 by omega) (by omega)
        (by omega)
      rw [loadWord_eq (by omega), Option.bind_some, hstore₁, Option.bind_some, hget, Option.bind_some,
        loadWord_eq (by omega), Option.bind_some, hstore₂, Option.bind_some]
      split_ifs with hagain
      · have hbytes : ((((input.drop (ip - 1)).take 8).drop 1).take 4) = (input.drop ip).take 4 := by
          rw [List.drop_take, List.drop_drop, List.take_take, Nat.sub_add_cancel (show 1 ≤ ip by omega)]
          rfl
        rw [getUint32AtOffset_eq, hbytes] at hagain
        obtain ⟨r, hr, hdone, hpos, hle', hspec⟩ := emitCopies_spec hk hword hblock hlimit hroom rounds ip
          candidate' { s with table := table₂, nextEmit := ip, out := o' } (by omega) (by omega) hbefore'
          (loadWord_inj (by omega) (by omega) hagain.symm) htable₂ (hemitted'.mono (by omega))
        refine ⟨r, hr, hdone, hpos, hle', fun ip' nextHash h => ?_⟩
        obtain ⟨hnext, hlt, hrest⟩ := hspec ip' nextHash h
        exact ⟨hnext, by omega, hrest⟩
      · refine ⟨_, rfl, hemitted'.mono (by omega), (show 0 < ip by omega), (show ip ≤ input.length by omega),
          fun ip' nextHash h => ?_⟩
        obtain ⟨rfl, rfl⟩ := Prod.mk.inj (Option.some.inj h)
        exact ⟨Nat.lt_succ_self ip, by omega, by omega, hashBytes_lt hk _, htable₂⟩

/-- What `CompressFragment` has done when it gets to its remaining bytes, or to step 1. -/
structure Fragment.Done (input : Slice) (start : Output) (s : Fragment) : Prop where
  /-- The items stand for what is in front of `next_emit`. Once there is a copy, five bytes of the input
  have been gained. -/
  emitted : Emitted input start s.nextEmit s.out (if s.nextEmit = 0 then 0 else -5)
  /-- A position of the input. -/
  nextEmit_le : s.nextEmit ≤ input.length

/-- The main loop. The induction is on the rounds. -/
theorem compressLoop_spec (hk : k ≤ 32) (hword : word = 4 ∨ word = 8) (hblock : input.length ≤ kBlockSize)
    (hlimit : ipLimit + 15 ≤ input.length) (hroom : Room input start) :
    ∀ (rounds ip nextHash : ℕ) (s : Fragment), input.length < ip + rounds → ip ≤ input.length →
    nextHash < 2^k → s.nextEmit < ip → TableOk (2^k) ip s.table → s.Done input start →
    ∃ s', compressLoop word input (32 - k) ipLimit rounds ip nextHash s = some s' ∧ s'.Done input start
  | 0, ip, _, _, hrounds, hle, _, _, _, _ => by omega
  | rounds + 1, ip, nextHash, s, hrounds, hle, hhash, hnext, htable, hdone => by
    have hsize : kBlockSize = 32768 := rfl
    obtain ⟨r, hscan, hfound⟩ := scan_spec hk hblock hlimit (input.length + 1) ip nextHash 32 s.table
      (by omega) hle (by omega) hhash le_rfl (by omega) htable
    rw [compressLoop, hscan, Option.bind_some]
    match r, hfound with
    | (none, table), _ => exact ⟨_, rfl, hdone.emitted, hdone.nextEmit_le⟩
    | (some (ip', candidate), table), hfound =>
      obtain ⟨hle', hlt, hbefore, hfour, htable'⟩ := hfound ip' candidate rfl
      have hdebt : (if s.nextEmit = 0 then 0 else -5 : ℤ) ≤ 0 := by split_ifs <;> omega
      obtain ⟨o', hliteral, hemitted, -⟩ := (hdone.emitted.mono hdebt).literal hroom (by omega)
        (show 0 < ip' - s.nextEmit by omega) (by omega) (fun _ : true = true => by omega) le_rfl
      rw [Nat.add_sub_cancel' (by omega)] at hemitted
      obtain ⟨r, hcopies, hemitted', hpos, hle'', hrest⟩ := emitCopies_spec hk hword hblock hlimit hroom
        (input.length + 1) ip' candidate { s with table := table, out := o' } (by omega) (by omega) hbefore
        hfour htable' hemitted
      dsimp only
      rw [hliteral, Option.bind_some, hcopies, Option.bind_some]
      have hdone' : r.2.Done input start := ⟨by rw [if_neg hpos.ne']; exact hemitted', hle''⟩
      match r, hrest with
      | (none, s'), _ => exact ⟨s', rfl, hdone'⟩
      | (some (ip'', nextHash'), s'), hrest =>
        obtain ⟨hnext', hgrow, hinside, hhash', htable''⟩ := hrest ip'' nextHash' rfl
        exact compressLoop_spec hk hword hblock hlimit hroom rounds ip'' nextHash' s' (by omega) (by omega)
          hhash' hnext' htable'' hdone'

end Loops

/-- `Log2Floor` of the size of a hash table. -/
theorem log2Floor_two_pow {k : ℕ} (hk : k < 32) : log2Floor (2^k) = k := by
  have hall : ∀ k < 32, log2Floor (2^k) = k := by decide +kernel
  exact hall k hk

/-- `CompressFragment` emits items that stand for the whole input, and accesses nothing outside of it, of the
table and of the array. -/
theorem compressFragment_spec {word k : ℕ} (hword : word = 4 ∨ word = 8) (hk : k < 32)
    (hblock : input.length ≤ kBlockSize) (hroom : Room input start) :
    ∃ o, compressFragment word input start (List.replicate (2^k) 0) = some o ∧
      Emitted input start input.length o (if 6 ≤ input.length then 0 else 5) := by
  have hsize : kBlockSize = 32768 := rfl
  have hmargin : kInputMarginBytes = 15 := rfl
  have hstart : (⟨List.replicate (2^k) 0, 0, start⟩ : Fragment).Done input start :=
    ⟨emitted_zero input start, Nat.zero_le _⟩
  unfold compressFragment
  rw [List.length_replicate, log2Floor_two_pow hk]
  dsimp only
  obtain ⟨s, hrun, hdone⟩ : ∃ s : Fragment, (if kInputMarginBytes ≤ input.length then
        (hash input 1 (32 - k)).bind fun nextHash =>
          compressLoop word input (32 - k) (input.length - kInputMarginBytes) (input.length + 1) 1 nextHash
            ⟨List.replicate (2^k) 0, 0, start⟩
      else some ⟨List.replicate (2^k) 0, 0, start⟩) = some s ∧ s.Done input start := by
    split_ifs with hlong
    · unfold hash
      rw [loadWord_eq (by omega), Option.map_some, Option.bind_some]
      refine compressLoop_spec hk.le hword hblock (by omega) hroom _ 1 _ _ (by omega) (by omega)
        (hashBytes_lt hk.le _) Nat.one_pos ⟨List.length_replicate, fun i q hq => ?_⟩ hstart
      have hzero := List.eq_of_mem_replicate (List.mem_of_getElem? hq)
      omega
    · exact ⟨_, rfl, hstart⟩
  rw [hrun, Option.bind_some]
  have hemitted := hdone.emitted
  have hle := hdone.nextEmit_le
  have hdebt : (if s.nextEmit = 0 then 0 else -5 : ℤ) ≤ 0 := by split_ifs <;> omega
  by_cases hrest : s.nextEmit < input.length
  · obtain ⟨o, hliteral, hfive, hsix⟩ := hemitted.literal hroom (by omega)
      (show 0 < input.length - s.nextEmit by omega) (by omega) (fun hf : false = true => (by cases hf)) hdebt
    rw [Nat.add_sub_cancel' hle] at hfive hsix
    rw [if_pos hrest]
    refine ⟨o, hliteral, ?_⟩
    by_cases hzero : s.nextEmit = 0
    · rw [if_pos hzero] at hfive hsix
      split_ifs with hlong
      · exact hsix (by omega)
      · exact hfive
    · rw [if_neg hzero] at hfive
      exact hfive.mono (by split_ifs <;> omega)
  · obtain hend : s.nextEmit = input.length := by omega
    rw [if_neg hrest]
    refine ⟨s.out, rfl, ?_⟩
    rw [hend] at hemitted
    exact hemitted.mono (by split_ifs <;> omega)

end LevelDb.SnappySrc
