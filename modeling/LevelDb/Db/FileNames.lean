import LevelDb.Db.Naming
import LevelDb.Util.Coding
import Mathlib.Data.Nat.Digits.Defs

/-!
# Parsing file names

`ParseFileName` of `db/filename.cc` with `ConsumeDecimalNumber` of `util/logging.cc`. What it accepts is
described by a grammar (`FileName.Spelled`), in which a number is a string of decimal digits of any length.
The guard of the digit loop is exact (`consumeDigits_eq`): a digit is refused if and only if the value would
not fit into 64 bits. But the digits are counted in an `int`, and a name is refused if that count has
become zero or negative.
-/

namespace LevelDb

/-! ## The parser -/

/-- `c >= '0' && c <= '9'` -/
def isDecimalDigit (c : UInt8) : Bool := decide (48 ≤ c.toNat ∧ c.toNat ≤ 57)

/-- `kMaxUint64` -/
def kMaxUint64 : ℕ := 2^64 - 1

/-- The loop of `ConsumeDecimalNumber`, with `v` and `digits`. -/
def consumeDigits : Slice → ℕ → ℤ → Option (ℕ × ℤ × Slice)
  | [], v, digits => some (v, digits, [])
  | c :: rest, v, digits =>
    if isDecimalDigit c then
      let delta := c.toNat - '0'.toNat
      -- Overflow
      if kMaxUint64 / 10 < v ∨ (v = kMaxUint64 / 10 ∧ kMaxUint64 % 10 < delta) then none
      else consumeDigits rest ((v * 10 + delta) % 2^64) (toInt32 (digits + 1))
    else some (v, digits, c :: rest)

/-- `ConsumeDecimalNumber`: the number, and what is left of the input. -/
def consumeDecimalNumber (input : Slice) : Option (ℕ × Slice) :=
  (consumeDigits input 0 0).bind fun (v, digits, rest) => if 0 < digits then some (v, rest) else none

/-- `ParseFileName` -/
def parseFileName (fname : Slice) : Option FileName :=
  if fname = ascii "CURRENT" then some ⟨.currentFile, 0⟩
  else if fname = ascii "LOCK" then some ⟨.dbLockFile, 0⟩
  else if fname = ascii "LOG" ∨ fname = ascii "LOG.old" then some ⟨.infoLogFile, 0⟩
  else if (ascii "MANIFEST-").isPrefixOf fname then
    (consumeDecimalNumber (fname.drop (ascii "MANIFEST-").length)).bind fun (num, rest) =>
      if rest.isEmpty then some ⟨.descriptorFile, num⟩ else none
  else
    (consumeDecimalNumber fname).bind fun (num, suffix) =>
      if suffix = ascii ".log" then some ⟨.logFile, num⟩
      else if suffix = ascii ".sst" then some ⟨.tableFile, num⟩
      else if suffix = ascii ".dbtmp" then some ⟨.tempFile, num⟩
      else none

/-! ## The grammar -/

/-- A non-empty string of decimal digits, leading zeros allowed, with a value of 64 bits. -/
structure Decimal (digits : Slice) (n : ℕ) : Prop where
  /-- There is a digit. -/
  ne_nil : digits ≠ []
  /-- There are only digits. -/
  digit : ∀ b ∈ digits, isDecimalDigit b = true
  /-- Their value. -/
  value : decimalValue digits = n
  /-- It fits into 64 bits. -/
  value_le : n ≤ kMaxUint64

/-- The file names of a database. -/
inductive FileName.Spelled : Slice → FileName → Prop
  | current : Spelled (ascii "CURRENT") ⟨.currentFile, 0⟩
  | lock : Spelled (ascii "LOCK") ⟨.dbLockFile, 0⟩
  | infoLog : Spelled (ascii "LOG") ⟨.infoLogFile, 0⟩
  | oldInfoLog : Spelled (ascii "LOG.old") ⟨.infoLogFile, 0⟩
  | descriptor {digits : Slice} {n : ℕ} (h : Decimal digits n) :
      Spelled (ascii "MANIFEST-" ++ digits) ⟨.descriptorFile, n⟩
  | log {digits : Slice} {n : ℕ} (h : Decimal digits n) : Spelled (digits ++ ascii ".log") ⟨.logFile, n⟩
  | table {digits : Slice} {n : ℕ} (h : Decimal digits n) :
      Spelled (digits ++ ascii ".sst") ⟨.tableFile, n⟩
  | temp {digits : Slice} {n : ℕ} (h : Decimal digits n) :
      Spelled (digits ++ ascii ".dbtmp") ⟨.tempFile, n⟩

/-- The number of the digits of a name is positive as an `int`. -/
def DigitsFit (fname : Slice) : Prop :=
  ∀ digits n, Decimal digits n → (fname = ascii "MANIFEST-" ++ digits ∨ fname = digits ++ ascii ".log" ∨
    fname = digits ++ ascii ".sst" ∨ fname = digits ++ ascii ".dbtmp") →
    0 < digits.length % 2^32 ∧ digits.length % 2^32 < 2^31

/-! ## The digit loop -/

/-- What a digit does to the value. -/
def addDigit (n : ℕ) (b : UInt8) : ℕ := 10 * n + (b.toNat - '0'.toNat)

/-- More digits do not make the value smaller. -/
theorem le_foldl_addDigit (digits : Slice) : ∀ n : ℕ, n ≤ digits.foldl addDigit n := by
  induction digits with
  | nil => exact fun n => le_rfl
  | cons b digits ih =>
    intro n
    refine le_trans ?_ (ih (addDigit n b))
    unfold addDigit
    omega

/-- The guard of the loop is exact: it stops at a digit if and only if the value gets too large. -/
theorem overflow_iff {v delta : ℕ} (hdelta : delta ≤ 9) :
    (kMaxUint64 / 10 < v ∨ (v = kMaxUint64 / 10 ∧ kMaxUint64 % 10 < delta)) ↔
      ¬v * 10 + delta ≤ kMaxUint64 := by
  unfold kMaxUint64
  omega

/-- One more digit on a counter that is an `int`. -/
theorem toInt32_add_one (d : ℤ) : toInt32 (toInt32 d + 1) = toInt32 (d + 1) := Int.bmod_add_bmod

/-- The loop takes the digits in front, unless their value does not fit into 64 bits. -/
theorem consumeDigits_eq {rest : Slice} (hrest : ∀ b ∈ rest.head?, isDecimalDigit b = false) :
    ∀ (digits : Slice) (v : ℕ) (d : ℤ), (∀ b ∈ digits, isDecimalDigit b = true) → v ≤ kMaxUint64 →
      consumeDigits (digits ++ rest) v (toInt32 d) =
        if digits.foldl addDigit v ≤ kMaxUint64 then
          some (digits.foldl addDigit v, toInt32 (d + digits.length), rest)
        else none
  | [], v, d, _, hv => by
    rw [List.nil_append, List.foldl_nil, if_pos hv, List.length_nil, Nat.cast_zero, add_zero]
    cases rest with
    | nil => rfl
    | cons b rest => rw [consumeDigits, if_neg (Bool.eq_false_iff.mp (hrest b rfl))]
  | b :: digits, v, d, hdigits, hv => by
    have hb := hdigits b List.mem_cons_self
    have hdelta : b.toNat - '0'.toNat ≤ 9 := by
      have hrange : 48 ≤ b.toNat ∧ b.toNat ≤ 57 := of_decide_eq_true hb
      have hzero : '0'.toNat = 48 := rfl
      omega
    have hnext : v * 10 + (b.toNat - '0'.toNat) = addDigit v b := by
      unfold addDigit
      omega
    rw [List.cons_append, consumeDigits, if_pos hb, List.foldl_cons]
    dsimp only
    -- The test of the source compares with the largest value divided by ten.
    by_cases hsmall : addDigit v b ≤ kMaxUint64
    · have hmod : (v * 10 + (b.toNat - '0'.toNat)) % 2^64 = addDigit v b := by
        rw [hnext]
        unfold kMaxUint64 at hsmall
        omega
      have hcount : d + 1 + digits.length = d + (b :: digits).length := by
        rw [List.length_cons]
        omega
      rw [if_neg (mt (overflow_iff hdelta).mp (not_not.mpr (hnext ▸ hsmall))), hmod, toInt32_add_one,
        consumeDigits_eq hrest digits _ _ (fun x hx => hdigits x (List.mem_cons_of_mem b hx)) hsmall,
        hcount]
    · have hlarge : ¬digits.foldl addDigit (addDigit v b) ≤ kMaxUint64 := fun hle =>
        hsmall ((le_foldl_addDigit digits _).trans hle)
      rw [if_pos ((overflow_iff hdelta).mpr (hnext ▸ hsmall)), if_neg hlarge]

/-- When a count is positive as an `int`. -/
theorem toInt32_pos_iff (n : ℕ) : 0 < toInt32 n ↔ 0 < n % 2^32 ∧ n % 2^32 < 2^31 := by
  unfold toInt32 Int.bmod
  dsimp only
  split_ifs <;> omega

/-- `ConsumeDecimalNumber` takes the digits in front of something else. -/
theorem consumeDecimalNumber_eq {digits rest : Slice} (hdigits : ∀ b ∈ digits, isDecimalDigit b = true)
    (hrest : ∀ b ∈ rest.head?, isDecimalDigit b = false) :
    consumeDecimalNumber (digits ++ rest) =
      if decimalValue digits ≤ kMaxUint64 ∧ 0 < toInt32 digits.length then
        some (decimalValue digits, rest)
      else none := by
  have hloop := consumeDigits_eq hrest digits 0 0 hdigits (Nat.zero_le _)
  have hvalue : digits.foldl addDigit 0 = decimalValue digits := rfl
  rw [show toInt32 0 = 0 from rfl, zero_add, hvalue] at hloop
  unfold consumeDecimalNumber
  rw [hloop, ite_and]
  split_ifs with hle hpos
  · rw [Option.bind_some]
    dsimp only
    rw [if_pos hpos]
  · rw [Option.bind_some]
    dsimp only
    rw [if_neg hpos]
  · rfl

/-- What `ConsumeDecimalNumber` has taken is a decimal number. -/
theorem consumeDecimalNumber_sound {input rest : Slice} {n : ℕ}
    (h : consumeDecimalNumber input = some (n, rest)) : ∃ digits, Decimal digits n ∧ input = digits ++ rest := by
  have hsplit : input.takeWhile isDecimalDigit ++ input.dropWhile isDecimalDigit = input :=
    List.takeWhile_append_dropWhile
  have hdigits : ∀ b ∈ input.takeWhile isDecimalDigit, isDecimalDigit b = true := fun b hb =>
    List.mem_takeWhile_imp hb
  have hrest : ∀ b ∈ (input.dropWhile isDecimalDigit).head?, isDecimalDigit b = false := by
    intro b hb
    have hnot := List.head?_dropWhile_not isDecimalDigit input
    rw [Option.mem_def.mp hb] at hnot
    exact hnot
  have heq := consumeDecimalNumber_eq hdigits hrest
  rw [hsplit, h] at heq
  split_ifs at heq with hfits
  obtain ⟨rfl, rfl⟩ := Prod.mk.inj (Option.some.inj heq)
  refine ⟨input.takeWhile isDecimalDigit, ⟨?_, hdigits, rfl, hfits.1⟩, hsplit.symm⟩
  intro hnil
  rw [hnil] at hfits
  exact absurd hfits.2 (by decide)

/-! ## The names -/

/-- `ParseFileName` accepts only names of the grammar. -/
theorem spelled_of_parseFileName {fname : Slice} {name : FileName} (h : parseFileName fname = some name) :
    FileName.Spelled fname name := by
  unfold parseFileName at h
  split_ifs at h with hcurrent hlock hlog hmanifest
  · obtain rfl := Option.some.inj h
    exact hcurrent ▸ .current
  · obtain rfl := Option.some.inj h
    exact hlock ▸ .lock
  · obtain rfl := Option.some.inj h
    obtain rfl | rfl := hlog
    · exact .infoLog
    · exact .oldInfoLog
  · obtain ⟨tail, rfl⟩ := List.isPrefixOf_iff_prefix.mp hmanifest
    rw [List.drop_left] at h
    obtain ⟨⟨num, rest⟩, hnumber, hfile⟩ := Option.bind_eq_some_iff.mp h
    obtain ⟨digits, hdecimal, rfl⟩ := consumeDecimalNumber_sound hnumber
    dsimp only at hfile
    split_ifs at hfile with hempty
    obtain rfl := Option.some.inj hfile
    rw [List.isEmpty_iff.mp hempty, List.append_nil]
    exact .descriptor hdecimal
  · obtain ⟨⟨num, suffix⟩, hnumber, hfile⟩ := Option.bind_eq_some_iff.mp h
    obtain ⟨digits, hdecimal, rfl⟩ := consumeDecimalNumber_sound hnumber
    dsimp only at hfile
    split_ifs at hfile with hlogFile htable htemp
    · obtain rfl := Option.some.inj hfile
      exact hlogFile ▸ .log hdecimal
    · obtain rfl := Option.some.inj hfile
      exact htable ▸ .table hdecimal
    · obtain rfl := Option.some.inj hfile
      exact htemp ▸ .temp hdecimal

/-- `ParseFileName` of the name of a manifest. -/
theorem parseFileName_descriptor {digits : Slice} {n : ℕ} (h : Decimal digits n) :
    parseFileName (ascii "MANIFEST-" ++ digits) =
      if 0 < toInt32 digits.length then some ⟨.descriptorFile, n⟩ else none := by
  have hne : ∀ s : Slice, s.head? ≠ some 77 → ascii "MANIFEST-" ++ digits ≠ s := by
    rintro _ hhead rfl
    exact hhead rfl
  have hend : ∀ b ∈ ([] : Slice).head?, isDecimalDigit b = false := fun b hb => absurd hb (by simp)
  have hnumber := consumeDecimalNumber_eq h.digit hend
  rw [List.append_nil, h.value] at hnumber
  unfold parseFileName
  rw [if_neg (hne _ (by decide)), if_neg (hne _ (by decide)),
    if_neg (not_or.mpr ⟨hne _ (by decide), hne _ (by decide)⟩),
    if_pos (List.isPrefixOf_iff_prefix.mpr (List.prefix_append _ _)), List.drop_left, hnumber,
    ite_and, if_pos h.value_le]
  split_ifs <;> rfl

/-- A name that begins with a digit is none of the other names. -/
theorem parseFileName_of_digit {fname : Slice} {b : UInt8} (hhead : fname.head? = some b)
    (hb : isDecimalDigit b = true) :
    parseFileName fname = (consumeDecimalNumber fname).bind fun (num, suffix) =>
      if suffix = ascii ".log" then some ⟨.logFile, num⟩
      else if suffix = ascii ".sst" then some ⟨.tableFile, num⟩
      else if suffix = ascii ".dbtmp" then some ⟨.tempFile, num⟩
      else none := by
  have hne : ∀ (s : Slice) (b' : UInt8), s.head? = some b' → isDecimalDigit b' = false → fname ≠ s := by
    rintro s b' hs hb' rfl
    rw [hhead] at hs
    obtain rfl := Option.some.inj hs
    rw [hb] at hb'
    exact Bool.noConfusion hb'
  have hprefix : ¬(ascii "MANIFEST-").isPrefixOf fname = true := by
    intro h
    obtain ⟨tail, rfl⟩ := List.isPrefixOf_iff_prefix.mp h
    exact hne (ascii "MANIFEST-" ++ tail) 77 rfl (by decide) rfl
  unfold parseFileName
  rw [if_neg (hne _ 67 rfl (by decide)), if_neg (hne _ 76 rfl (by decide)),
    if_neg (not_or.mpr ⟨hne _ 76 rfl (by decide), hne _ 76 rfl (by decide)⟩), if_neg hprefix]

/-- `ParseFileName` reads the number and the type of a name that consists of digits and a suffix it
knows. -/
theorem parseFileName_numbered {digits : Slice} {n : ℕ} (h : Decimal digits n) (suffix : Slice)
    (type : FileType) (hsuffix : (suffix, type) ∈ [(ascii ".log", FileType.logFile),
      (ascii ".sst", FileType.tableFile), (ascii ".dbtmp", FileType.tempFile)]) :
    parseFileName (digits ++ suffix) =
      if 0 < toInt32 digits.length then some ⟨type, n⟩ else none := by
  obtain ⟨b, rest, hcons⟩ := List.exists_cons_of_ne_nil h.ne_nil
  have hhead : (digits ++ suffix).head? = some b := by
    rw [hcons]
    rfl
  have hdot : ∀ b' ∈ suffix.head?, isDecimalDigit b' = false := by
    have hfirst : suffix.head? = some 46 := by
      simp only [List.mem_cons, Prod.mk.injEq, List.not_mem_nil, or_false] at hsuffix
      obtain ⟨rfl, -⟩ | ⟨rfl, -⟩ | ⟨rfl, -⟩ := hsuffix <;> rfl
    intro b' hb'
    rw [hfirst] at hb'
    obtain rfl := Option.some.inj hb'
    rfl
  rw [parseFileName_of_digit hhead (h.digit b (hcons ▸ List.mem_cons_self)),
    consumeDecimalNumber_eq h.digit hdot, h.value, ite_and, if_pos h.value_le]
  simp only [List.mem_cons, Prod.mk.injEq, List.not_mem_nil, or_false] at hsuffix
  split_ifs with hpos
  · obtain ⟨rfl, rfl⟩ | ⟨rfl, rfl⟩ | ⟨rfl, rfl⟩ := hsuffix <;> rfl
  · rfl

/-- `ParseFileName` accepts exactly the names of the grammar, when their digits can be counted. -/
theorem parseFileName_iff (fname : Slice) :
    (∀ name, parseFileName fname = some name ↔ FileName.Spelled fname name) ↔ DigitsFit fname := by
  constructor
  · intro h digits n hdecimal hfname
    rw [← toInt32_pos_iff]
    by_contra hcount
    -- The count has wrapped: a name of the grammar with such digits is refused.
    have hnone : ∃ name, FileName.Spelled fname name ∧ parseFileName fname = none := by
      obtain rfl | rfl | rfl | rfl := hfname
      · exact ⟨_, .descriptor hdecimal, (parseFileName_descriptor hdecimal).trans (if_neg hcount)⟩
      · exact ⟨_, .log hdecimal,
          (parseFileName_numbered hdecimal _ .logFile (by simp)).trans (if_neg hcount)⟩
      · exact ⟨_, .table hdecimal,
          (parseFileName_numbered hdecimal _ .tableFile (by simp)).trans (if_neg hcount)⟩
      · exact ⟨_, .temp hdecimal,
          (parseFileName_numbered hdecimal _ .tempFile (by simp)).trans (if_neg hcount)⟩
    obtain ⟨name, hspelled, hparse⟩ := hnone
    rw [(h name).mpr hspelled] at hparse
    exact Option.some_ne_none _ hparse
  · intro hfits name
    refine ⟨spelled_of_parseFileName, fun hspelled => ?_⟩
    cases hspelled with
    | current => rfl
    | lock => rfl
    | infoLog => rfl
    | oldInfoLog => rfl
    | descriptor hdecimal =>
      have hcount := (toInt32_pos_iff _).mpr (hfits _ _ hdecimal (Or.inl rfl))
      exact (parseFileName_descriptor hdecimal).trans (if_pos hcount)
    | log hdecimal =>
      have hcount := (toInt32_pos_iff _).mpr (hfits _ _ hdecimal (Or.inr (Or.inl rfl)))
      exact (parseFileName_numbered hdecimal _ _ (by simp)).trans (if_pos hcount)
    | table hdecimal =>
      have hcount := (toInt32_pos_iff _).mpr (hfits _ _ hdecimal (Or.inr (Or.inr (Or.inl rfl))))
      exact (parseFileName_numbered hdecimal _ _ (by simp)).trans (if_pos hcount)
    | temp hdecimal =>
      have hcount := (toInt32_pos_iff _).mpr (hfits _ _ hdecimal (Or.inr (Or.inr (Or.inr rfl))))
      exact (parseFileName_numbered hdecimal _ _ (by simp)).trans (if_pos hcount)

/-! ## Names that are written -/

/-- The name without the directory and the slash behind it. -/
def baseName (dbname path : Slice) : Slice := path.drop (dbname.length + 1)

/-- The types of the files that have numbers, and the numbers of 64 bits that they may have. -/
structure FileName.Numbered (name : FileName) : Prop where
  /-- The type. -/
  type : name.type = .logFile ∨ name.type = .tableFile ∨ name.type = .tempFile ∨
    name.type = .descriptorFile
  /-- `assert(number > 0)` -/
  pos : 0 < name.number
  /-- It is a `uint64_t`. -/
  lt : name.number < 2^64

/-- The digits that `%06llu` writes are a decimal spelling of the number. -/
theorem decimal_sixDigits {n : ℕ} (h : n < 2^64) : Decimal (sixDigits n) n where
  ne_nil := by
    rw [sixDigits_eq]
    refine (List.map_eq_nil_iff.not).mpr fun hnil => ?_
    exact (List.length_pos_iff.mp (Nat.length_toDigits_pos (b := 10) (n := n)))
      (List.append_eq_nil_iff.mp hnil).2
  digit b hb := by
    rw [sixDigits_eq] at hb
    obtain ⟨c, hc, rfl⟩ := List.mem_map.mp hb
    have hrange := isDigit_of_mem_sixDigitChars hc
    unfold isDecimalDigit
    rw [toNat_byte hrange.2]
    exact decide_eq_true hrange
  value := decimalValue_sixDigits n
  value_le := by
    unfold kMaxUint64
    omega

/-- There are at most twenty of them. -/
theorem length_sixDigits_le {n : ℕ} (h : n < 2^64) : (sixDigits n).length ≤ 20 := by
  have hlength := Nat.toDigits_length 10 n 20 (by decide) (by omega)
  rw [sixDigits_eq, sixDigitChars, List.length_map, List.length_append, List.length_replicate]
  omega

/-- The digits of a 64-bit number are so few that an `int` can count them. -/
theorem toInt32_sixDigits_pos {n : ℕ} (h : n < 2^64) : 0 < toInt32 (sixDigits n).length := by
  have hpos := List.length_pos_iff.mpr (decimal_sixDigits h).ne_nil
  have hle := length_sixDigits_le h
  rw [toInt32_pos_iff]
  omega

/-- The base name is what stands behind the slash. -/
theorem baseName_append (dbname rest : Slice) : baseName dbname (dbname ++ (ascii "/" ++ rest)) = rest := by
  unfold baseName
  rw [← List.drop_drop, List.drop_left]
  rfl

/-- The base name of a file with a suffix. -/
theorem baseName_makeFileName (dbname : Slice) (number : ℕ) (suffix : String) :
    baseName dbname (makeFileName dbname number suffix) =
      sixDigits number ++ (ascii "." ++ ascii suffix) := by
  unfold makeFileName
  rw [List.append_assoc, List.append_assoc, baseName_append]

/-- The base name of a manifest is its name without the directory. -/
theorem baseName_descriptorFileName (dbname : Slice) (number : ℕ) :
    baseName dbname (descriptorFileName dbname number) = ascii "MANIFEST-" ++ sixDigits number :=
  baseName_append dbname (ascii "MANIFEST-" ++ sixDigits number)

/-- `ParseFileName` reads back the names that are written. -/
theorem FileName.Numbered.parseFileName_path {name : FileName} (h : name.Numbered) (dbname : Slice) :
    parseFileName (baseName dbname (name.path dbname)) = some name := by
  obtain ⟨type, number⟩ := name
  have hdecimal : Decimal (sixDigits number) number := decimal_sixDigits h.lt
  have hcount : 0 < toInt32 (sixDigits number).length := toInt32_sixDigits_pos h.lt
  unfold FileName.path
  obtain rfl | rfl | rfl | rfl := h.type
  · exact (congrArg parseFileName (baseName_makeFileName ..)).trans
      ((parseFileName_numbered hdecimal _ .logFile (by simp [ascii])).trans (if_pos hcount))
  · exact (congrArg parseFileName (baseName_makeFileName ..)).trans
      ((parseFileName_numbered hdecimal _ .tableFile (by simp [ascii])).trans (if_pos hcount))
  · exact (congrArg parseFileName (baseName_makeFileName ..)).trans
      ((parseFileName_numbered hdecimal _ .tempFile (by simp [ascii])).trans (if_pos hcount))
  · exact (congrArg parseFileName (baseName_descriptorFileName ..)).trans
      ((parseFileName_descriptor hdecimal).trans (if_pos hcount))

/-- Two numbered files that differ in type or number have different names in the directory. -/
theorem FileName.Numbered.path_ne {a b : FileName} (ha : a.Numbered) (hb : b.Numbered) (hne : a ≠ b)
    (dbname : Slice) : a.path dbname ≠ b.path dbname := by
  intro heq
  have hparse := ha.parseFileName_path dbname
  rw [heq, hb.parseFileName_path dbname] at hparse
  exact hne (Option.some.inj hparse).symm

/-- The base names that are written for logs, tables, temporary files and manifests are read back, and
differ; and `ParseFileName` accepts exactly the names of the grammar, for every string whose digits can be
counted in an `int`, and for no other. -/
theorem fileNames_parse_back_iff (fname : Slice) :
    ((∀ (dbname : Slice) (name : FileName), name.Numbered →
        parseFileName (baseName dbname (name.path dbname)) = some name) ∧
      (∀ (dbname : Slice) (a b : FileName), a.Numbered → b.Numbered → a ≠ b →
        a.path dbname ≠ b.path dbname) ∧
      ∀ name, parseFileName fname = some name ↔ FileName.Spelled fname name) ↔ DigitsFit fname := by
  rw [← parseFileName_iff]
  constructor
  · exact fun h => h.2.2
  · exact fun h => ⟨fun dbname name hname => hname.parseFileName_path dbname,
      fun dbname a b ha hb hne => ha.path_ne hb hne dbname, h⟩

/-! ## A name that is refused -/

/-- Any positive number of zeros is a decimal spelling of 0. -/
theorem decimal_zeros {n : ℕ} (hn : n ≠ 0) : Decimal (List.replicate n 48) 0 where
  ne_nil := fun h => hn (by rw [← List.length_replicate (n := n) (a := (48 : UInt8)), h, List.length_nil])
  digit b hb := by
    rw [List.eq_of_mem_replicate hb]
    rfl
  value := by
    have hzeros : ∀ n, (List.replicate n (48 : UInt8)).foldl addDigit 0 = 0 := by
      intro n
      induction n with
      | zero => rfl
      | succ n ih =>
        rw [List.replicate_succ, List.foldl_cons]
        exact ih
    exact hzeros n
  value_le := Nat.zero_le _

/-- The log number 0, with as many zeros as make the count of the digits negative. -/
theorem parseFileName_zeros_fails {n : ℕ} (hn : n ≠ 0) (hcount : 2^31 ≤ n % 2^32) :
    ¬∀ name, parseFileName (List.replicate n 48 ++ ascii ".log") = some name ↔
      FileName.Spelled (List.replicate n 48 ++ ascii ".log") name := by
  rw [parseFileName_iff]
  intro hfits
  have hlt := (hfits _ 0 (decimal_zeros hn) (Or.inr (Or.inl rfl))).2
  rw [List.length_replicate] at hlt
  exact Nat.not_lt.mpr hcount hlt

/-- The name `000...0.log` with `2^31` zeros is not accepted. -/
theorem long_log_name_refused :
    ¬∀ name, parseFileName (List.replicate (2^31) 48 ++ ascii ".log") = some name ↔
      FileName.Spelled (List.replicate (2^31) 48 ++ ascii ".log") name :=
  parseFileName_zeros_fails (by decide) (by decide)

end LevelDb
