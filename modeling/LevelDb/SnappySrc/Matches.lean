import LevelDb.SnappySrc.Compressor
import LevelDb.SnappySrc.Stream
import Mathlib.Data.LawfulXor.Basic

/-!
# Match lengths

`FindMatchLength` compares words, and finds the first byte that differs by the lowest bit in which two words
do. It returns the length of the longest match, with words of four and of eight bytes
(`findMatchLength_spec`).
-/

namespace LevelDb.SnappySrc

open Lib

/-! ## The lowest bit -/

/-- Powers of two, the highest first. -/
def halvings : ℕ → List ℕ
  | 0 => []
  | k + 1 => 2^k :: halvings k

/-- What `FindLSBSetNonZero` has found: the word is shifted to the left until nothing but its lowest bits is
left, so many that another shift by `k` bits would clear it. -/
structure LSBFound (n₀ k n rc : ℕ) : Prop where
  /-- The word has been shifted. -/
  shifted : n = n₀ * 2^(31 - rc) % 2^32
  /-- It has not been cleared. -/
  ne_zero : n ≠ 0
  /-- It would be. -/
  cleared : n * 2^k % 2^32 = 0
  /-- `rc` is a position. -/
  rc_le : rc ≤ 31

/-- A round of `FindLSBSetNonZero` may shift the word if that does not clear it. -/
theorem LSBFound.shift {n₀ k n rc : ℕ} (h : LSBFound n₀ (2 * k) n rc) (hx : n * 2^k % 2^32 ≠ 0) :
    LSBFound n₀ k (n * 2^k % 2^32) (rc - k) := by
  have hrc := h.rc_le
  -- a word that is shifted by 32 bits is cleared
  have hk : k ≤ rc := by
    by_contra hlt
    obtain ⟨more, hmore⟩ : ∃ more, 31 - rc + k = 32 + more := ⟨31 - rc + k - 32, by omega⟩
    refine hx ?_
    rw [h.shifted, Nat.mod_mul_mod, Nat.mul_assoc, ← Nat.pow_add, hmore, Nat.pow_add, Nat.mul_left_comm,
      Nat.mul_mod_right]
  refine ⟨?_, hx, ?_, by omega⟩
  · rw [h.shifted, Nat.mod_mul_mod, Nat.mul_assoc, ← Nat.pow_add, show 31 - rc + k = 31 - (rc - k) by omega]
  · rw [Nat.mod_mul_mod, Nat.mul_assoc, ← Nat.pow_add, ← Nat.two_mul]
    exact h.cleared

/-- The loop of `FindLSBSetNonZero`. The induction is on the shifts that are left. -/
theorem findLSBLoop_spec {n₀ : ℕ} : ∀ (k n rc : ℕ), LSBFound n₀ (2^k) n rc →
    ∃ n', LSBFound n₀ 1 n' (findLSBLoop (halvings k) n rc)
  | 0, n, rc, h => ⟨n, h⟩
  | k + 1, n, rc, h => by
    rw [Nat.pow_succ, Nat.mul_comm] at h
    rw [halvings, findLSBLoop, Nat.shiftLeft_eq]
    split_ifs with hx
    · exact findLSBLoop_spec k _ _ (h.shift hx)
    · exact findLSBLoop_spec k n rc ⟨h.shifted, h.ne_zero, not_not.mp hx, h.rc_le⟩

/-- `FindLSBSetNonZero` finds the lowest bit of a word of 32 bits that is not zero. -/
theorem findLSBSetNonZero_spec {n : ℕ} (hn : n ≠ 0) (hlt : n < 2^32) :
    n % 2^(findLSBSetNonZero n + 1) = 2^findLSBSetNonZero n := by
  have hinit : LSBFound n (2^5) n 31 :=
    ⟨by rw [Nat.sub_self, Nat.pow_zero, Nat.mul_one, Nat.mod_eq_of_lt hlt], hn, by omega, le_rfl⟩
  obtain ⟨n', h⟩ := findLSBLoop_spec 5 n 31 hinit
  change LSBFound n 1 n' (findLSBSetNonZero n) at h
  generalize findLSBSetNonZero n = rc at h
  have hshifted := h.shifted
  have hne := h.ne_zero
  have hcleared := h.cleared
  have hrc := h.rc_le
  -- only the highest bit is left
  have htop : n * 2^(31 - rc) % 2^32 = 2^31 := by omega
  have hsplit : 2^32 = 2^(rc + 1) * 2^(31 - rc) := by
    rw [← Nat.pow_add]
    congr 1
    omega
  have hsplit' : 2^31 = 2^rc * 2^(31 - rc) := by
    rw [← Nat.pow_add]
    congr 1
    omega
  rw [hsplit, hsplit', Nat.mul_mod_mul_right] at htop
  exact Nat.eq_of_mul_eq_mul_right (Nat.two_pow_pos _) htop

/-- `FindLSBSetNonZero64` finds the lowest bit of a word of 64 bits that is not zero. -/
theorem findLSBSetNonZero64_spec {n : ℕ} (hn : n ≠ 0) (hlt : n < 2^64) :
    n % 2^(findLSBSetNonZero64 n + 1) = 2^findLSBSetNonZero64 n := by
  unfold findLSBSetNonZero64
  dsimp only
  split_ifs with hbottom
  · rw [Nat.shiftRight_eq_div_pow, Nat.mod_eq_of_lt (show n / 2^32 < 2^32 by omega)]
    have htop := findLSBSetNonZero_spec (show n / 2^32 ≠ 0 by omega) (by omega)
    generalize findLSBSetNonZero (n / 2^32) = rc at htop
    rw [Nat.add_assoc, Nat.pow_add, Nat.mod_mul, hbottom, htop, Nat.zero_add, Nat.pow_add]
  · have hlow := findLSBSetNonZero_spec hbottom (Nat.mod_lt _ (by decide))
    -- the lowest bit is one of the bottom bits
    have hrc : findLSBSetNonZero (n % 2^32) + 1 ≤ 32 := by
      by_contra hge
      have hmod : n % 2^32 % 2^(findLSBSetNonZero (n % 2^32) + 1) = n % 2^32 :=
        Nat.mod_eq_of_lt (lt_of_lt_of_le (Nat.mod_lt _ (by decide))
          (Nat.pow_le_pow_right (by decide) (show 32 ≤ findLSBSetNonZero (n % 2^32) + 1 by omega)))
      have hge' : 2^32 ≤ 2^findLSBSetNonZero (n % 2^32) := Nat.pow_le_pow_right (by decide) (by omega)
      have := Nat.mod_lt n (show 2^32 > 0 by decide)
      omega
    rw [Nat.mod_mod_of_dvd _ (Nat.pow_dvd_pow 2 hrc)] at hlow
    exact hlow

/-! ## Words -/

/-- Shifting a little-endian number to the right by some bytes drops these bytes. -/
theorem leValue_div : ∀ (k : ℕ) (bytes : Slice), leValue bytes / 2^(8 * k) = leValue (bytes.drop k)
  | 0, bytes => Nat.div_one _
  | k + 1, [] => Nat.zero_div _
  | k + 1, b :: bytes => by
    have hb := b.toNat_lt
    rw [List.drop_succ_cons, ← leValue_div k bytes, leValue, Nat.mul_succ, Nat.add_comm (8 * k),
      Nat.pow_add, ← Nat.div_div_eq_div_mul]
    congr 1
    omega

/-- The low bits of a little-endian number are its first bytes. -/
theorem leValue_mod : ∀ (k : ℕ) (bytes : Slice), leValue bytes % 2^(8 * k) = leValue (bytes.take k)
  | 0, bytes => Nat.mod_one _
  | k + 1, [] => Nat.zero_mod _
  | k + 1, b :: bytes => by
    have hb := b.toNat_lt
    have ih := leValue_mod k bytes
    have hdiv : (b.toNat + 2^8 * leValue bytes) / 2^8 = leValue bytes := by omega
    have hmod : (b.toNat + 2^8 * leValue bytes) % 2^8 = b.toNat := by omega
    rw [List.take_succ_cons, leValue, leValue, Nat.mul_succ, Nat.add_comm (8 * k), Nat.pow_add, Nat.mod_mul,
      hdiv, hmod, ih]

/-- A value has one spelling of a given length. -/
theorem leValue_inj : ∀ {a b : Slice}, a.length = b.length → leValue a = leValue b → a = b
  | [], [], _, _ => rfl
  | x :: a, y :: b, hlength, h => by
    rw [leValue, leValue] at h
    have hx := x.toNat_lt
    have hy := y.toNat_lt
    obtain rfl : x = y := UInt8.toNat_inj.mp (by omega)
    rw [leValue_inj (Nat.succ.inj hlength) (by omega)]

/-- The lowest bit in which two words differ is in the first byte that does. -/
theorem leValue_xor {a b : Slice} (hlength : a.length = b.length) {rc : ℕ}
    (h : (leValue a ^^^ leValue b) % 2^(rc + 1) = 2^rc) :
    a.take (rc / 8) = b.take (rc / 8) ∧ a[rc / 8]? ≠ b[rc / 8]? := by
  -- prefixes of the same length are equal if and only if no bit in them differs
  have hinitial : ∀ k, a.take k = b.take k ↔ (leValue a ^^^ leValue b) % 2^(8 * k) = 0 := by
    intro k
    rw [Nat.xor_mod_two_pow, leValue_mod, leValue_mod, xor_eq_zero_iff]
    refine ⟨congrArg leValue, leValue_inj ?_⟩
    rw [List.length_take, List.length_take, hlength]
  have hlow : a.take (rc / 8) = b.take (rc / 8) := by
    rw [hinitial, ← Nat.mod_mod_of_dvd _ (Nat.pow_dvd_pow 2 (show 8 * (rc / 8) ≤ rc + 1 by omega)), h]
    exact Nat.mod_eq_zero_of_dvd (Nat.pow_dvd_pow 2 (by omega))
  refine ⟨hlow, fun hbyte => ?_⟩
  have hmore : a.take (rc / 8 + 1) = b.take (rc / 8 + 1) := by
    rw [List.take_add_one, List.take_add_one, hlow, hbyte]
  have hzero := (hinitial (rc / 8 + 1)).mp hmore
  rw [← Nat.mod_mod_of_dvd _ (Nat.pow_dvd_pow 2 (show rc + 1 ≤ 8 * (rc / 8 + 1) by omega)), hzero,
    Nat.zero_mod] at h
  exact absurd h.symm (Nat.two_pow_pos rc).ne'

/-! ## Matches -/

/-- "The largest n such that s1[0,n-1] == s2[0,n-1] and n <= (s2_limit - s2)". -/
structure IsMatchLength (input : Slice) (s1 s2 s2Limit n : ℕ) : Prop where
  /-- The match ends at the limit. -/
  le : s2 + n ≤ s2Limit
  /-- The bytes match. -/
  same : ∀ i < n, input[s1 + i]? = input[s2 + i]?
  /-- The next ones do not. -/
  longest : s2 + n < s2Limit → input[s1 + n]? ≠ input[s2 + n]?

variable {input : Slice} {s1 s2 s2Limit : ℕ}

/-- If two places of the input agree on some bytes, and again on the bytes behind, they agree on all of
them. -/
theorem same_add {s1 s2 m k : ℕ} (h : ∀ i < m, input[s1 + i]? = input[s2 + i]?)
    (h' : ∀ i < k, input[s1 + m + i]? = input[s2 + m + i]?) :
    ∀ i < m + k, input[s1 + i]? = input[s2 + i]? := by
  intro i hi
  by_cases hlt : i < m
  · exact h i hlt
  · have hmore := h' (i - m) (by omega)
    rw [show s1 + m + (i - m) = s1 + i by omega, show s2 + m + (i - m) = s2 + i by omega] at hmore
    exact hmore

/-- The last loop of `FindMatchLength`, which has matched some bytes, returns the length of the whole
match. -/
theorem findMatchBytes_spec (hle : s1 ≤ s2) (hlimit : s2Limit ≤ input.length) (m : ℕ)
    (hm : s2 + m ≤ s2Limit) (hsame : ∀ i < m, input[s1 + i]? = input[s2 + i]?) :
    ∃ n, findMatchBytes input s1 (s2 + m) s2Limit m = some n ∧ IsMatchLength input s1 s2 s2Limit n := by
  rw [findMatchBytes]
  split_ifs with hmore
  · have hbyte : ∀ p (hp : p < input.length), load input p 1 = some [input[p]] := fun p hp => by
      rw [load_eq hp, List.drop_eq_getElem_cons hp]
      rfl
    have h1 : s1 + m < input.length := by omega
    have h2 : s2 + m < input.length := by omega
    have hget : input[s1 + m]? = input[s2 + m]? ↔ [input[s1 + m]] = [input[s2 + m]] := by
      rw [List.getElem?_eq_getElem h1, List.getElem?_eq_getElem h2, Option.some_inj, List.singleton_inj]
    rw [hbyte _ h1, Option.bind_some, hbyte _ h2, Option.bind_some]
    split_ifs with heq
    · obtain ⟨n, hn, hspec⟩ := findMatchBytes_spec hle hlimit (m + 1) hmore
        (same_add hsame fun i hi => by
          obtain rfl : i = 0 := by omega
          exact hget.mpr heq)
      exact ⟨n, hn, hspec⟩
    · exact ⟨m, rfl, hm, hsame, fun _ hnext => heq (hget.mp hnext)⟩
  · exact ⟨m, rfl, hm, hsame, fun hlt => absurd hlt hmore⟩
  termination_by s2Limit - (s2 + m)

/-- A load of a word within the input gives the number that its bytes stand for. -/
theorem loadWord_eq {p bytes : ℕ} (h : p + bytes ≤ input.length) :
    loadWord input p bytes = some (leValue ((input.drop p).take bytes)) := by
  unfold loadWord
  rw [load_eq h, Option.map_some]

/-- If two places of the input give equal words, they have equal bytes. -/
theorem loadWord_inj {p q bytes : ℕ} (hp : p + bytes ≤ input.length) (hq : q + bytes ≤ input.length)
    (h : leValue ((input.drop p).take bytes) = leValue ((input.drop q).take bytes)) :
    ∀ i < bytes, input[p + i]? = input[q + i]? := by
  intro i hi
  have heq := leValue_inj ((length_take_drop hp).trans (length_take_drop hq).symm) h
  have hi' : ((input.drop p).take bytes)[i]? = ((input.drop q).take bytes)[i]? := by rw [heq]
  rw [List.getElem?_take_of_lt hi, List.getElem?_take_of_lt hi, List.getElem?_drop, List.getElem?_drop] at hi'
  exact hi'

/-- `FindLSBSetNonZero` and `FindLSBSetNonZero64` find the lowest bit in which two words differ. -/
theorem lowest_difference {word : ℕ} (hword : word = 4 ∨ word = 8) {a b : Slice} (ha : a.length = word)
    (hb : b.length = word) (hne : leValue a ≠ leValue b) :
    ∃ rc, (if word = 8 then findLSBSetNonZero64 (leValue a ^^^ leValue b)
        else findLSBSetNonZero (leValue a ^^^ leValue b)) = rc ∧
      (leValue a ^^^ leValue b) % 2^(rc + 1) = 2^rc := by
  have hx : leValue a ^^^ leValue b ≠ 0 := mt xor_eq_zero_iff.mp hne
  have hlt : leValue a ^^^ leValue b < 2^(8 * word) :=
    Nat.xor_lt_two_pow (ha ▸ leValue_lt a) (hb ▸ leValue_lt b)
  generalize leValue a ^^^ leValue b = x at hx hlt
  rcases hword with rfl | rfl
  · exact ⟨_, if_neg (by decide), findLSBSetNonZero_spec hx hlt⟩
  · exact ⟨_, if_pos rfl, findLSBSetNonZero64_spec hx hlt⟩

/-- The loop of `FindMatchLength`, which has matched some bytes, returns the length of the whole match,
with words of either size. -/
theorem findMatchLoop_spec {word : ℕ} (hword : word = 4 ∨ word = 8) (hle : s1 ≤ s2)
    (hlimit : s2Limit ≤ input.length) (m : ℕ) (hm : s2 + m ≤ s2Limit)
    (hsame : ∀ i < m, input[s1 + i]? = input[s2 + i]?) :
    ∃ n, findMatchLoop word input s1 (s2 + m) s2Limit m = some n ∧
      IsMatchLength input s1 s2 s2Limit n := by
  rw [findMatchLoop]
  by_cases hmore : 0 < word ∧ s2 + m + word ≤ s2Limit
  · have h1 : s1 + m + word ≤ input.length := by omega
    have h2 : s2 + m + word ≤ input.length := by omega
    rw [dif_pos hmore, loadWord_eq h2, Option.bind_some, loadWord_eq h1, Option.bind_some]
    by_cases heq : leValue ((input.drop (s2 + m)).take word) = leValue ((input.drop (s1 + m)).take word)
    · obtain ⟨n, hn, hspec⟩ := findMatchLoop_spec hword hle hlimit (m + word) (by omega)
        (same_add hsame (loadWord_inj h1 h2 heq.symm))
      rw [← Nat.add_assoc] at hn
      exact ⟨n, (if_pos heq).trans hn, hspec⟩
    · rw [if_neg heq]
      have hlength2 := length_take_drop h2
      have hlength1 := length_take_drop h1
      -- the words as lists of bytes
      have hget : ∀ p i, i < word → ((input.drop p).take word)[i]? = input[p + i]? := fun p i hi => by
        rw [List.getElem?_take_of_lt hi, List.getElem?_drop]
      obtain ⟨rc, hrc, hlow⟩ := lowest_difference hword hlength2 hlength1 heq
      obtain ⟨htake, hnext⟩ := leValue_xor (hlength2.trans hlength1.symm) hlow
      have hinside : rc / 8 < word := by
        by_contra hge
        refine hnext ?_
        rw [List.getElem?_eq_none (by omega), List.getElem?_eq_none (by omega)]
      refine ⟨m + rc / 8, ?_, by omega, same_add hsame fun i hi => ?_, fun _ hsame' => hnext ?_⟩
      · dsimp only
        rw [hrc, Nat.shiftRight_eq_div_pow]
      · have hi' := congrArg (fun l : Slice => l[i]?) htake
        rw [List.getElem?_take_of_lt hi, List.getElem?_take_of_lt hi, hget _ _ (by omega),
          hget _ _ (by omega)] at hi'
        exact hi'.symm
      · rw [hget _ _ hinside, hget _ _ hinside, Nat.add_assoc, Nat.add_assoc]
        exact hsame'.symm
  · rw [dif_neg hmore]
    exact findMatchBytes_spec hle hlimit m hm hsame
  termination_by s2Limit - (s2 + m)

/-- `FindMatchLength` returns the length of the longest match within the limit. -/
theorem findMatchLength_isMatchLength {word : ℕ} (hword : word = 4 ∨ word = 8) (hle : s1 ≤ s2)
    (hlimit : s2 ≤ s2Limit) (hlength : s2Limit ≤ input.length) :
    ∃ n, findMatchLength word input s1 s2 s2Limit = some n ∧ IsMatchLength input s1 s2 s2Limit n :=
  findMatchLoop_spec hword hle hlength 0 hlimit fun _ hi => absurd hi (Nat.not_lt_zero _)

/-- With fewer than `2^31` bytes up to the limit, `FindMatchLength` returns the length of the longest match
within the limit, and `matched` does not overflow. -/
theorem findMatchLength_spec {word : ℕ} (hword : word = 4 ∨ word = 8) (hle : s1 ≤ s2)
    (hlimit : s2 ≤ s2Limit) (hlength : s2Limit ≤ input.length) (hint : s2Limit - s2 < 2^31) :
    ∃ n, findMatchLength word input s1 s2 s2Limit = some n ∧ IsMatchLength input s1 s2 s2Limit n ∧
      n < 2^31 := by
  obtain ⟨n, hmatch, hn⟩ := findMatchLength_isMatchLength hword hle hlimit hlength
  exact ⟨n, hmatch, hn, lt_of_le_of_lt (Nat.le_sub_of_add_le' hn.1) hint⟩

/-- Five bytes match, of which four are in a word. -/
theorem findMatchLength_spec_five :
    ∃ n, findMatchLength 4 [1, 2, 3, 4, 5, 6, 1, 2, 3, 4, 5, 7] 0 6 12 = some n ∧
      IsMatchLength [1, 2, 3, 4, 5, 6, 1, 2, 3, 4, 5, 7] 0 6 12 n ∧ n < 2^31 :=
  findMatchLength_spec (Or.inl rfl) (by decide) (by decide) (by decide) (by decide)

end LevelDb.SnappySrc
