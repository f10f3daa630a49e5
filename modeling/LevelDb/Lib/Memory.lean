import LevelDb.Lib.BackReference
import LevelDb.Lib.Buffer

/-!
# Arrays

Loads and stores of several elements of an array, which fail outside of it. Where an array is the same as
a list up to a position (`SameUpTo`), a store of what lies a fixed distance before that position goes on
with a list that repeats itself at that distance, however much more is stored.
-/

namespace LevelDb.Lib

variable {α : Type}

/-- `n` elements of an array from a position on. -/
def load (mem : List α) (p n : ℕ) : Option (List α) :=
  if p + n ≤ mem.length then some ((mem.drop p).take n) else none

/-- An array with other elements from a position on. -/
def store (mem : List α) (p : ℕ) (data : List α) : Option (List α) :=
  if p + data.length ≤ mem.length then some (overwrite mem p data) else none

/-- A load inside of the array gives the elements that are there. -/
theorem load_eq {mem : List α} {p n : ℕ} (h : p + n ≤ mem.length) :
    load mem p n = some ((mem.drop p).take n) := if_pos h

/-- A store inside of the array succeeds and overwrites the elements there. -/
theorem store_eq {mem data : List α} {p : ℕ} (h : p + data.length ≤ mem.length) :
    store mem p data = some (overwrite mem p data) := if_pos h

/-- A region that lies in the memory has as many elements as its size says. -/
theorem length_take_drop {mem : List α} {p n : ℕ} (h : p + n ≤ mem.length) :
    ((mem.drop p).take n).length = n := by
  rw [List.length_take, List.length_drop]
  omega

/-- A store within the memory does not change its size. -/
theorem length_overwrite {mem data : List α} {p : ℕ} (h : p + data.length ≤ mem.length) :
    (overwrite mem p data).length = mem.length := by
  unfold overwrite
  rw [List.length_append, List.length_append, List.length_take, List.length_drop]
  omega

/-- A store changes nothing behind its last element. -/
theorem drop_overwrite {mem data : List α} {p k : ℕ} (h : p + data.length ≤ mem.length)
    (hk : p + data.length ≤ k) : (overwrite mem p data).drop k = mem.drop k := by
  have hfront : (mem.take p ++ data).length = p + data.length := by
    rw [List.length_append, List.length_take_of_le (by omega)]
  unfold overwrite
  rw [List.drop_append, hfront, List.drop_eq_nil_of_le (by omega), List.nil_append, List.drop_drop]
  congr 1
  omega

/-- What is in front of a store, with what is stored. -/
theorem take_overwrite {mem data : List α} {p : ℕ} (h : p + data.length ≤ mem.length) :
    (overwrite mem p data).take (p + data.length) = mem.take p ++ data := by
  have hfront : (mem.take p ++ data).length = p + data.length := by
    rw [List.length_append, List.length_take_of_le (by omega)]
  unfold overwrite
  exact List.take_left' hfront

/-- After a store the memory has the stored elements in the region of the store, and the old ones
elsewhere. -/
theorem getElem?_overwrite {mem data : List α} {p : ℕ} (h : p + data.length ≤ mem.length) (i : ℕ) :
    (overwrite mem p data)[i]? =
      if p ≤ i ∧ i < p + data.length then data[i - p]? else mem[i]? := by
  have htake : (mem.take p).length = p := List.length_take_of_le (by omega)
  unfold overwrite
  by_cases hlt : i < p
  · rw [if_neg (by omega), List.append_assoc, List.getElem?_append_left (by omega),
      List.getElem?_take_of_lt hlt]
  · by_cases hin : i < p + data.length
    · rw [if_pos ⟨Nat.le_of_not_lt hlt, hin⟩, List.append_assoc, List.getElem?_append_right (by omega),
        List.getElem?_append_left (by omega), htake]
    · rw [if_neg (by omega), List.getElem?_append_right (by rw [List.length_append]; omega),
        List.length_append, htake, List.getElem?_drop]
      congr 1
      omega

/-! ## Arrays that are like a list -/

/-- An array has the elements of a list, up to a position. -/
def SameUpTo (k : ℕ) (mem l : List α) : Prop := ∀ i < k, mem[i]? = l[i]?

/-- A part of what is the same. -/
theorem SameUpTo.mono {k k' : ℕ} {mem l : List α} (h : SameUpTo k mem l) (hle : k' ≤ k) :
    SameUpTo k' mem l := fun i hi => h i (Nat.lt_of_lt_of_le hi hle)

/-- The front of the array is that of the list. -/
theorem SameUpTo.take_eq {k : ℕ} {mem l : List α} (h : SameUpTo k mem l) : mem.take k = l.take k := by
  refine List.ext_getElem? fun i => ?_
  by_cases hi : i < k
  · rw [List.getElem?_take_of_lt hi, List.getElem?_take_of_lt hi, h i hi]
  · rw [List.getElem?_take_eq_none (by omega), List.getElem?_take_eq_none (by omega)]

/-- An array whose front goes on as a list is like that list up to its front. -/
theorem sameUpTo_of_take {mem l : List α} {k : ℕ} (hinitial : mem.take k <+: l) (hk : k ≤ mem.length) :
    SameUpTo k mem l := by
  obtain ⟨rest, rfl⟩ := hinitial
  intro i hi
  rw [List.getElem?_append_left (by rw [List.length_take_of_le hk]; exact hi), List.getElem?_take_of_lt hi]

/-- The next elements of the list are stored. -/
theorem SameUpTo.store {mem l data : List α} {p : ℕ} (h : SameUpTo p mem l)
    (hroom : p + data.length ≤ mem.length) (hdata : ∀ i < data.length, l[p + i]? = data[i]?) :
    SameUpTo (p + data.length) (overwrite mem p data) l := by
  intro i hi
  rw [getElem?_overwrite hroom]
  by_cases hlt : i < p
  · rw [if_neg (by omega), h i hlt]
  · have hnext := hdata (i - p) (by omega)
    rw [Nat.add_sub_cancel' (Nat.le_of_not_lt hlt)] at hnext
    rw [if_pos ⟨Nat.le_of_not_lt hlt, hi⟩, hnext]

/-- What lies `distance` before the position is stored there, perhaps with more behind it. -/
theorem SameUpTo.repeat {mem l data : List α} {p distance m n : ℕ} (h : SameUpTo p mem l)
    (hload : load mem (p - distance) n = some data) (hdistance : distance ≤ p) (hm : m ≤ distance)
    (hn : m ≤ n) (hroom : p + n ≤ mem.length)
    (hrepeat : ∀ i, p ≤ i → i < p + m → l[i]? = l[i - distance]?) :
    SameUpTo (p + m) (overwrite mem p data) l := by
  unfold load at hload
  split_ifs at hload with hin
  obtain rfl := Option.some.inj hload
  have hlength := length_take_drop hin
  intro i hi
  rw [getElem?_overwrite (by omega), hlength]
  by_cases hlt : i < p
  · rw [if_neg (by omega), h i hlt]
  · rw [if_pos ⟨Nat.le_of_not_lt hlt, by omega⟩, List.getElem?_take_of_lt (by omega), List.getElem?_drop,
      hrepeat i (Nat.le_of_not_lt hlt) hi, ← h (i - distance) (by omega)]
    congr 1
    omega

/-! ## What is stored -/

/-- Up to some position, an array becomes like a list. It does not change from the limit on. -/
def Fills (mem : List α) (limit k : ℕ) (l : List α) (r : Option (List α)) : Prop :=
  ∃ mem', r = some mem' ∧ SameUpTo k mem' l ∧ mem'.length = mem.length ∧ mem'.drop limit = mem.drop limit

variable {mem l : List α} {limit k k' : ℕ}

/-- If a store fills the memory up to some position and the next store goes on from there, both
together fill it up to where the second one ends. -/
theorem Fills.bind {r : Option (List α)} {f : List α → Option (List α)} (h : Fills mem limit k l r)
    (hf : ∀ mem', SameUpTo k mem' l → mem'.length = mem.length → Fills mem' limit k' l (f mem')) :
    Fills mem limit k' l (r.bind f) := by
  obtain ⟨mem', rfl, hsame, hlength, hdrop⟩ := h
  obtain ⟨mem'', hr, hsame', hlength', hdrop'⟩ := hf mem' hsame hlength
  exact ⟨mem'', hr, hsame', hlength'.trans hlength, hdrop'.trans hdrop⟩

/-- A store that stays below a limit stays below a later one. -/
theorem Fills.mono {r : Option (List α)} {limit' : ℕ} (h : Fills mem limit k l r) (hle : limit ≤ limit') :
    Fills mem limit' k l r := by
  obtain ⟨mem', rfl, hsame, hlength, hdrop⟩ := h
  have hdrop' := congrArg (List.drop (limit' - limit)) hdrop
  rw [List.drop_drop, List.drop_drop, Nat.add_sub_cancel' hle] at hdrop'
  exact ⟨mem', rfl, hsame, hlength, hdrop'⟩

/-- Elements that are loaded `distance` before the position are stored there, of which those from before the
position count. -/
theorem fills_repeat {p distance m n : ℕ} (h : SameUpTo p mem l) (hdistance : distance ≤ p)
    (hm : m ≤ distance) (hn : m ≤ n) (hlimit : p + n ≤ limit) (hroom : limit ≤ mem.length)
    (hrepeat : ∀ i, p ≤ i → i < p + m → l[i]? = l[i - distance]?) :
    Fills mem limit (p + m) l ((load mem (p - distance) n).bind (store mem p)) := by
  have hload := load_eq (show p - distance + n ≤ mem.length by omega)
  have hlength := length_take_drop (show p - distance + n ≤ mem.length by omega)
  rw [hload, Option.bind_some, store_eq (by omega)]
  refine ⟨_, rfl, h.repeat hload hdistance hm hn (by omega) hrepeat, length_overwrite (by omega), ?_⟩
  exact drop_overwrite (by omega) (by omega)

/-- Storing elements that were loaded from another array fills the memory, if they are the next ones. -/
theorem fills_load {ip : List α} {p q m : ℕ} (h : SameUpTo p mem l) (hip : q + m ≤ ip.length)
    (hlimit : p + m ≤ limit) (hroom : limit ≤ mem.length) (hnext : ∀ i < m, l[p + i]? = ip[q + i]?) :
    Fills mem limit (p + m) l ((load ip q m).bind (store mem p)) := by
  have hlength := length_take_drop hip
  rw [load_eq hip, Option.bind_some, store_eq (by omega)]
  refine ⟨_, rfl, ?_, length_overwrite (by omega), drop_overwrite (by omega) (by omega)⟩
  have hstored := h.store (show p + ((ip.drop q).take m).length ≤ mem.length by omega) fun i hi => by
    rw [hnext i (by omega), List.getElem?_take_of_lt (by omega), List.getElem?_drop]
  rw [hlength] at hstored
  exact hstored

end LevelDb.Lib
