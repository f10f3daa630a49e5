import LevelDb.Lib.Iterator

/-!
# Concatenated lists

Positions in the concatenation of a list of parts: where a part starts, which element is at a position
of a part, and where a target is found if it belongs to a part.
-/

namespace LevelDb.Lib

variable {α K V : Type}

/-- A part. -/
def partAt (parts : List (List α)) (i : ℕ) : List α := parts.getD i []

/-- Where a part starts in the concatenation. -/
def start (parts : List (List α)) (i : ℕ) : ℕ := (parts.take i).flatten.length

/-- The parts before a part, the part, and the parts behind it. -/
theorem flatten_eq_append (parts : List (List α)) (i : ℕ) : parts.flatten =
    (parts.take i).flatten ++ (partAt parts i ++ (parts.drop (i + 1)).flatten) := by
  unfold partAt
  rw [List.getD_eq_getElem?_getD]
  obtain hlt | hge := Nat.lt_or_ge i parts.length
  · rw [List.getElem?_eq_getElem hlt, Option.getD_some, ← List.flatten_cons, ← List.flatten_append,
      ← List.drop_eq_getElem_cons hlt, List.take_append_drop]
  · rw [List.getElem?_eq_none hge, List.take_of_length_le hge, List.drop_of_length_le (by omega)]
    simp only [Option.getD_none, List.flatten_nil, List.append_nil]

/-- The first part starts at 0. -/
@[simp] theorem start_zero (parts : List (List α)) : start parts 0 = 0 := rfl

/-- A part starts where the one before it ends. -/
theorem start_succ (parts : List (List α)) (i : ℕ) :
    start parts (i + 1) = start parts i + (partAt parts i).length := by
  unfold start partAt
  rw [List.take_add_one, List.flatten_append, List.length_append, List.getD_eq_getElem?_getD]
  cases parts[i]? with
  | none => rfl
  | some part =>
    rw [Option.toList_some, List.flatten_singleton]
    rfl

/-- The last part ends with the concatenation. -/
theorem start_of_length_le {parts : List (List α)} {i : ℕ} (h : parts.length ≤ i) :
    start parts i = parts.flatten.length := by
  unfold start
  rw [List.take_of_length_le h]

/-- The elements of a part in the concatenation. -/
theorem getElem?_flatten (parts : List (List α)) {i j : ℕ} (h : j < (partAt parts i).length) :
    parts.flatten[start parts i + j]? = (partAt parts i)[j]? := by
  unfold start
  rw [flatten_eq_append parts i, List.getElem?_append_right (Nat.le_add_right _ _),
    Nat.add_sub_cancel_left, List.getElem?_append_left h]

/-- An element before a part is in an earlier part. -/
theorem exists_of_mem_take_flatten {parts : List (List α)} {i : ℕ} {a : α}
    (h : a ∈ (parts.take i).flatten) : ∃ j < i, a ∈ partAt parts j := by
  obtain ⟨part, hpart, ha⟩ := List.mem_flatten.mp h
  obtain ⟨j, hj⟩ := List.mem_iff_getElem?.mp hpart
  rw [List.getElem?_take] at hj
  split_ifs at hj with hlt
  refine ⟨j, hlt, ?_⟩
  unfold partAt
  rw [List.getD_eq_getElem?_getD, hj]
  exact ha

/-- An element behind a part is in a later part. -/
theorem exists_of_mem_drop_flatten {parts : List (List α)} {i : ℕ} {a : α}
    (h : a ∈ (parts.drop i).flatten) : ∃ j ≥ i, a ∈ partAt parts j := by
  obtain ⟨part, hpart, ha⟩ := List.mem_flatten.mp h
  obtain ⟨j, hj⟩ := List.mem_iff_getElem?.mp hpart
  rw [List.getElem?_drop] at hj
  refine ⟨i + j, Nat.le_add_right i j, ?_⟩
  unfold partAt
  rw [List.getD_eq_getElem?_getD, hj]
  exact ha

/-- The first entry that is not below a target is sought in a part, if everything before the part is
below the target and nothing behind it is. -/
theorem seekPos_flatten {lt : K → K → Bool} (parts : List (List (K × V))) {i : ℕ} {target : K}
    (hbelow : ∀ p ∈ (parts.take i).flatten, lt p.1 target = true)
    (habove : ∀ p ∈ (parts.drop (i + 1)).flatten, lt p.1 target = false) :
    seekPos lt parts.flatten target = start parts i + seekPos lt (partAt parts i) target := by
  unfold seekPos
  -- Behind the part, the first entry is one to stop at.
  have hrest : (parts.drop (i + 1)).flatten.findIdx (fun p => !lt p.1 target) = 0 := by
    cases hdrop : (parts.drop (i + 1)).flatten with
    | nil => rfl
    | cons p rest =>
      have hp := habove p (hdrop ▸ List.mem_cons_self)
      rw [List.findIdx_cons, hp]
      rfl
  have hfront : (parts.take i).flatten.findIdx (fun p => !lt p.1 target) = start parts i := by
    apply List.findIdx_eq_length.mpr
    intro p hp
    rw [hbelow p hp]
    rfl
  have hlength : (parts.take i).flatten.length = start parts i := rfl
  have hle := @List.findIdx_le_length _ (fun p => !lt p.1 target) (partAt parts i)
  rw [flatten_eq_append parts i, List.findIdx_append, hfront, hlength, if_neg (Nat.lt_irrefl _),
    List.findIdx_append, hrest]
  split_ifs with hlt
  · exact Nat.add_comm _ _
  · omega

end LevelDb.Lib
