import LevelDb.Format
import Mathlib.Logic.Function.Basic

/-!
# File names

The names of `db/filename.cc`, as strings of bytes.
-/

namespace LevelDb

/-- The conversion `%06llu`: decimal digits, with zeros in front up to six of them. -/
def sixDigits (number : ℕ) : Slice :=
  let digits := (Nat.toDigits 10 number).map fun c => UInt8.ofNat c.toNat
  List.replicate (6 - digits.length) (UInt8.ofNat '0'.toNat) ++ digits

/-- `MakeFileName`. -/
def makeFileName (name : Slice) (number : ℕ) (suffix : String) : Slice :=
  name ++ (ascii "/" ++ sixDigits number ++ ascii "." ++ ascii suffix)

/-- `DescriptorFileName`. -/
def descriptorFileName (dbname : Slice) (number : ℕ) : Slice :=
  dbname ++ (ascii "/MANIFEST-" ++ sixDigits number)

/-- `CurrentFileName`. -/
def currentFileName (dbname : Slice) : Slice := dbname ++ ascii "/CURRENT"

/-- `LockFileName`. -/
def lockFileName (dbname : Slice) : Slice := dbname ++ ascii "/LOCK"

/-- `InfoLogFileName`. -/
def infoLogFileName (dbname : Slice) : Slice := dbname ++ ascii "/LOG"

/-- `TempFileName`. -/
def tempFileName (dbname : Slice) (number : ℕ) : Slice := makeFileName dbname number "dbtmp"

/-- A temporary file is not `CURRENT`. -/
theorem tempFileName_ne_currentFileName (dbname : Slice) (number : ℕ) :
    tempFileName dbname number ≠ currentFileName dbname := by
  intro h
  have hsuffix := List.append_cancel_left h
  have hlast := congrArg List.getLast? hsuffix
  -- The one ends with a `p`, the other with a `T`.
  have hp : (ascii "/" ++ sixDigits number ++ ascii "." ++ ascii "dbtmp").getLast? =
      some (UInt8.ofNat 'p'.toNat) := by
    rw [List.getLast?_append]
    rfl
  rw [hp] at hlast
  exact absurd hlast (by decide)

/-- `LogFileName`. -/
def logFileName (dbname : Slice) (number : ℕ) : Slice := makeFileName dbname number "log"

/-- `TableFileName`. -/
def tableFileName (dbname : Slice) (number : ℕ) : Slice := makeFileName dbname number "sst"

/-! ## Names determine numbers -/

/-- The characters of `%06llu`. -/
def sixDigitChars (number : ℕ) : List Char :=
  List.replicate (6 - (Nat.toDigits 10 number).length) '0' ++ Nat.toDigits 10 number

/-- The conversion `%06llu` writes its characters as bytes. -/
theorem sixDigits_eq (number : ℕ) :
    sixDigits number = (sixDigitChars number).map fun c => UInt8.ofNat c.toNat := by
  simp [sixDigits, sixDigitChars]

/-- The conversion `%06llu` yields decimal digits only. -/
theorem isDigit_of_mem_sixDigitChars {number : ℕ} {c : Char} (h : c ∈ sixDigitChars number) :
    48 ≤ c.toNat ∧ c.toNat ≤ 57 := by
  rcases List.mem_append.mp h with h | h
  · rw [List.eq_of_mem_replicate h]
    decide
  · exact Char.isDigit_iff_toNat.mp (Nat.isDigit_of_mem_toDigits (by decide) (by decide) h)

/-- The byte of a decimal digit has the number of the character. -/
theorem toNat_byte {c : Char} (h : c.toNat ≤ 57) : (UInt8.ofNat c.toNat).toNat = c.toNat := by
  rw [UInt8.toNat_ofNat']
  exact Nat.mod_eq_of_lt (by omega)

/-- The number that some decimal digits denote. -/
def decimalValue (digits : Slice) : ℕ := digits.foldl (fun n b => 10 * n + (b.toNat - '0'.toNat)) 0

/-- Digits denote the same number as their bytes. -/
theorem foldl_bytes_eq (cs : List Char) (hcs : ∀ c ∈ cs, c.toNat ≤ 57) : ∀ n : ℕ,
    (cs.map fun c => UInt8.ofNat c.toNat).foldl (fun n b => 10 * n + (b.toNat - '0'.toNat)) n =
      Nat.ofDigitChars 10 cs n := by
  induction cs with
  | nil => intro n; rfl
  | cons c cs ih =>
    intro n
    rw [List.map_cons, List.foldl_cons, toNat_byte (hcs c List.mem_cons_self),
      ih fun d hd => hcs d (List.mem_cons_of_mem _ hd), Nat.ofDigitChars_cons]

/-- The digits of a number denote it. -/
theorem decimalValue_sixDigits (number : ℕ) : decimalValue (sixDigits number) = number := by
  rw [decimalValue, sixDigits_eq, foldl_bytes_eq _ fun c hc => (isDigit_of_mem_sixDigitChars hc).2]
  rw [sixDigitChars, Nat.ofDigitChars_append, Nat.ofDigitChars_replicate_zero, Nat.mul_zero,
    Nat.ofDigitChars_ten_toDigits]

/-- The conversion `%06llu` writes different digits for different numbers. -/
theorem sixDigits_injective : Function.Injective sixDigits := by
  intro m n h
  rw [← decimalValue_sixDigits m, h, decimalValue_sixDigits]

/-- In one directory and with one suffix, files with different numbers have different names. -/
theorem makeFileName_injective {dbname : Slice} {suffix : String} {m n : ℕ}
    (h : makeFileName dbname m suffix = makeFileName dbname n suffix) : m = n := by
  have h₁ := List.append_cancel_left h
  have h₂ := List.append_cancel_right (List.append_cancel_right h₁)
  exact sixDigits_injective (List.append_cancel_left h₂)

/-- In one directory, manifests with different numbers have different names. -/
theorem descriptorFileName_injective {dbname : Slice} {m n : ℕ}
    (h : descriptorFileName dbname m = descriptorFileName dbname n) : m = n :=
  sixDigits_injective (List.append_cancel_left (List.append_cancel_left h))

/-- A log is not a table. -/
theorem logFileName_ne_tableFileName (dbname : Slice) (m n : ℕ) :
    logFileName dbname m ≠ tableFileName dbname n := by
  intro h
  have hlast := congrArg List.getLast? (List.append_cancel_left h)
  -- The one ends with a `g`, the other with a `t`.
  have hg : (ascii "/" ++ sixDigits m ++ ascii "." ++ ascii "log").getLast? =
      some (UInt8.ofNat 'g'.toNat) := by
    rw [List.getLast?_append]
    rfl
  have ht : (ascii "/" ++ sixDigits n ++ ascii "." ++ ascii "sst").getLast? =
      some (UInt8.ofNat 't'.toNat) := by
    rw [List.getLast?_append]
    rfl
  rw [hg, ht] at hlast
  exact absurd hlast (by decide)

/-- Files with a suffix are not manifests. -/
theorem makeFileName_ne_descriptorFileName (dbname : Slice) (m n : ℕ) (suffix : String) :
    makeFileName dbname m suffix ≠ descriptorFileName dbname n := by
  intro h
  have hsuffix := List.append_cancel_left h
  -- There is no dot in the name of a manifest.
  have hdot : UInt8.ofNat '.'.toNat ∈ ascii "/MANIFEST-" ++ sixDigits n := by
    rw [← hsuffix]
    exact List.mem_append_left _ (List.mem_append_right _ (List.mem_singleton_self _))
  rcases List.mem_append.mp hdot with hdot | hdot
  · exact absurd hdot (by decide)
  · rw [sixDigits_eq] at hdot
    obtain ⟨c, hc, heq⟩ := List.mem_map.mp hdot
    obtain ⟨hlo, hhi⟩ := isDigit_of_mem_sixDigitChars hc
    have hnat := congrArg UInt8.toNat heq
    rw [toNat_byte hhi] at hnat
    have hdotNat : (UInt8.ofNat '.'.toNat).toNat = 46 := by decide
    omega

end LevelDb
