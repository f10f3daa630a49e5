import Mathlib.Data.List.Basic

/-!
# Back references

A list that is built from literals and from copies of what is already there. A copy may overlap with what
it adds, so that a pattern is repeated: the elements that it adds are those that are a fixed distance
before them, and this determines them (`eq_copyBack`). A list that has a repetition is therefore built by
copying from its front.
-/

namespace LevelDb.Lib

variable {α : Type}

/-- Elements are added one by one, each one a copy of what is `offset` before it. -/
def copyBack (offset : ℕ) : ℕ → List α → List α
  | 0, out => out
  | len + 1, out => copyBack offset len (out ++ (out[out.length - offset]?).toList)

/-- What a list is built from. -/
inductive Item (α : Type) where
  /-- These elements come next. -/
  | literal (data : List α)
  /-- So many elements are copied from so far behind. -/
  | copy (offset len : ℕ)

/-- A list with one more item. -/
def Item.apply (out : List α) : Item α → Option (List α)
  | .literal data => some (out ++ data)
  | .copy offset len => if 0 < offset ∧ offset ≤ out.length then some (copyBack offset len out) else none

/-- A list with more items. -/
def expand (items : List (Item α)) (out : List α) : Option (List α) := items.foldlM Item.apply out

section CopyBack

variable {offset : ℕ} {out : List α}

/-- Copying one element more copies the element at the offset first, which there is. -/
theorem copyBack_succ (hpos : 0 < offset) (hle : offset ≤ out.length) (len : ℕ) :
    ∃ a, out[out.length - offset]? = some a ∧
      copyBack offset (len + 1) out = copyBack offset len (out ++ [a]) := by
  have hlt : out.length - offset < out.length := by omega
  refine ⟨out[out.length - offset], List.getElem?_eq_getElem hlt, ?_⟩
  rw [copyBack, List.getElem?_eq_getElem hlt]
  rfl

/-- A copy whose offset lies in the list makes the list longer by the length of the copy. -/
theorem length_copyBack (hpos : 0 < offset) : ∀ (len : ℕ) {out : List α}, offset ≤ out.length →
    (copyBack offset len out).length = out.length + len
  | 0, _, _ => rfl
  | len + 1, out, hle => by
    obtain ⟨a, -, heq⟩ := copyBack_succ hpos hle len
    have hle' : offset ≤ (out ++ [a]).length := by rw [List.length_append]; omega
    rw [heq, length_copyBack hpos len hle', List.length_append, List.length_singleton]
    omega

/-- A list of the right length that goes on from the given one, every element being what is `offset`
before it, is the copy. The induction is on the elements that are added. -/
theorem eq_copyBack (hpos : 0 < offset) : ∀ (len : ℕ) {out l : List α}, offset ≤ out.length → out <+: l →
    l.length = out.length + len → (∀ i, out.length ≤ i → i < l.length → l[i]? = l[i - offset]?) →
    l = copyBack offset len out
  | 0, out, l, _, hinitial, hlength, _ => (hinitial.eq_of_length hlength.symm).symm
  | len + 1, out, l, hle, hinitial, hlength, hrepeat => by
    obtain ⟨a, ha, heq⟩ := copyBack_succ hpos hle len
    obtain ⟨rest, rfl⟩ := hinitial
    rw [List.length_append] at hlength
    cases rest with
    | nil => simp at hlength
    | cons b rest =>
      -- the next element is the one that is copied
      have hnext := hrepeat out.length (Nat.le_refl _) (by rw [List.length_append, List.length_cons]; omega)
      rw [List.getElem?_append_right (Nat.le_refl _), Nat.sub_self, List.getElem?_cons_zero,
        List.getElem?_append_left (by omega), ha] at hnext
      obtain rfl := Option.some.inj hnext
      have hsplit : out ++ b :: rest = (out ++ [b]) ++ rest := by simp
      rw [heq, hsplit]
      refine eq_copyBack hpos len ?_ (List.prefix_append _ _) ?_ fun i hi hlt => ?_
      · rw [List.length_append]
        omega
      · rw [List.length_cons] at hlength
        simp only [List.length_append, List.length_singleton]
        omega
      · rw [← hsplit] at hlt ⊢
        rw [List.length_append, List.length_singleton] at hi
        exact hrepeat i (by omega) hlt

/-- The elements of a copy are those that are `offset` before them. -/
theorem copyBack_spec (hpos : 0 < offset) : ∀ (len : ℕ) {out : List α}, offset ≤ out.length →
    out <+: copyBack offset len out ∧ ∀ i, out.length ≤ i → i < out.length + len →
      (copyBack offset len out)[i]? = (copyBack offset len out)[i - offset]?
  | 0, out, _ => ⟨List.prefix_rfl, fun i hi hlt => by omega⟩
  | len + 1, out, hle => by
    obtain ⟨a, ha, heq⟩ := copyBack_succ hpos hle len
    have hle' : offset ≤ (out ++ [a]).length := by rw [List.length_append]; omega
    obtain ⟨⟨rest, hrest⟩, hrepeat⟩ := copyBack_spec hpos len hle'
    rw [List.length_append, List.length_singleton] at hrepeat
    rw [heq]
    refine ⟨⟨[a] ++ rest, by rw [← hrest, List.append_assoc]⟩, fun i hi hlt => ?_⟩
    rcases Nat.eq_or_lt_of_le hi with rfl | hi
    · have hold : (out ++ ([a] ++ rest))[out.length - offset]? = some a :=
        (List.getElem?_append_left (by omega)).trans ha
      have hnew : (out ++ ([a] ++ rest))[out.length]? = some a := by
        rw [List.getElem?_append_right (Nat.le_refl _), Nat.sub_self]
        rfl
      rw [← hrest, List.append_assoc, hold, hnew]
    · exact hrepeat i (by omega) (by omega)

/-- A copy can be done in two parts with the same offset. -/
theorem copyBack_copyBack (hpos : 0 < offset) (b : ℕ) : ∀ (a : ℕ) {out : List α}, offset ≤ out.length →
    copyBack offset b (copyBack offset a out) = copyBack offset (a + b) out
  | 0, _, _ => by rw [copyBack, Nat.zero_add]
  | a + 1, out, hle => by
    obtain ⟨x, hx, heq⟩ := copyBack_succ hpos hle a
    obtain ⟨y, hy, heq'⟩ := copyBack_succ hpos hle (a + b)
    obtain rfl := Option.some.inj (hx.symm.trans hy)
    have hle' : offset ≤ (out ++ [x]).length := by rw [List.length_append]; omega
    rw [heq, copyBack_copyBack hpos b a hle', Nat.add_right_comm, heq']

/-- What is in front of everything does not matter. -/
theorem copyBack_append (hpos : 0 < offset) (front : List α) : ∀ (len : ℕ) {out : List α},
    offset ≤ out.length → copyBack offset len (front ++ out) = front ++ copyBack offset len out
  | 0, _, _ => rfl
  | len + 1, out, hle => by
    obtain ⟨a, ha, heq⟩ := copyBack_succ hpos hle len
    have hle' : offset ≤ (out ++ [a]).length := by rw [List.length_append]; omega
    have hget : (front ++ out)[(front ++ out).length - offset]? = some a := by
      rw [List.getElem?_append_right (by rw [List.length_append]; omega), ← ha]
      congr 1
      rw [List.length_append]
      omega
    rw [heq, ← copyBack_append hpos front len hle', copyBack, hget]
    simp

/-- A list that repeats itself from a position on is built by copying from there. -/
theorem copyBack_take {l : List α} {p len : ℕ} (hpos : 0 < offset) (hle : offset ≤ p)
    (hlength : p + len ≤ l.length) (hmatch : ∀ i < len, l[p + i]? = l[p - offset + i]?) :
    copyBack offset len (l.take p) = l.take (p + len) := by
  have htake : (l.take p).length = p := List.length_take_of_le (by omega)
  refine (eq_copyBack hpos len (htake.symm ▸ hle) ?_ ?_ fun i hi hlt => ?_).symm
  · exact List.take_prefix_take_left (by omega)
  · rw [htake, List.length_take_of_le hlength]
  · rw [htake] at hi
    rw [List.length_take_of_le hlength] at hlt
    rw [List.getElem?_take_of_lt hlt, List.getElem?_take_of_lt (by omega)]
    have hi' := hmatch (i - p) (by omega)
    rw [show p + (i - p) = i by omega, show p - offset + (i - p) = i - offset by omega] at hi'
    exact hi'

end CopyBack

/-! ## Sequences of items -/

/-- Expanding a list of items applies the first one, and then the others to its result. -/
theorem expand_cons (item : Item α) (items : List (Item α)) (out : List α) :
    expand (item :: items) out = (item.apply out).bind (expand items) := rfl

/-- Items after others expand on what the ones before have expanded to. -/
theorem expand_append (items items' : List (Item α)) (out : List α) :
    expand (items ++ items') out = (expand items out).bind (expand items') := by
  unfold expand
  rw [List.foldlM_append]
  rfl

/-- An item, literal or copy, takes nothing away from the list. -/
theorem Item.apply_length_le {item : Item α} {out out' : List α} (h : item.apply out = some out') :
    out.length ≤ out'.length := by
  cases item with
  | literal data =>
    obtain rfl := Option.some.inj h
    rw [List.length_append]
    exact Nat.le_add_right _ _
  | copy offset len =>
    unfold Item.apply at h
    dsimp only at h
    split_ifs at h with hcond
    obtain rfl := Option.some.inj h
    rw [length_copyBack hcond.1 len hcond.2]
    exact Nat.le_add_right _ _

/-- Items that can be expanded take nothing away from the list. -/
theorem expand_length_le : ∀ {items : List (Item α)} {out out' : List α},
    expand items out = some out' → out.length ≤ out'.length
  | [], out, out', h => by
    obtain rfl := Option.some.inj h
    exact Nat.le_refl _
  | item :: items, out, out', h => by
    rw [expand_cons] at h
    obtain ⟨mid, hmid, h⟩ := Option.bind_eq_some_iff.mp h
    exact Nat.le_trans (Item.apply_length_le hmid) (expand_length_le h)

/-- What is in front of everything stays there. -/
theorem expand_front (front : List α) : ∀ {items : List (Item α)} {out out' : List α},
    expand items out = some out' → expand items (front ++ out) = some (front ++ out')
  | [], out, out', h => by
    obtain rfl := Option.some.inj h
    rfl
  | item :: items, out, out', h => by
    rw [expand_cons] at h ⊢
    obtain ⟨mid, hmid, h⟩ := Option.bind_eq_some_iff.mp h
    have hitem : item.apply (front ++ out) = some (front ++ mid) := by
      cases item with
      | literal data =>
        obtain rfl := Option.some.inj hmid
        exact congrArg some (List.append_assoc _ _ _)
      | copy offset len =>
        unfold Item.apply at hmid ⊢
        dsimp only at hmid ⊢
        split_ifs at hmid with hcond
        obtain rfl := Option.some.inj hmid
        rw [if_pos ⟨hcond.1, by rw [List.length_append]; omega⟩, copyBack_append hcond.1 front len hcond.2]
    rw [hitem]
    exact expand_front front h

end LevelDb.Lib
