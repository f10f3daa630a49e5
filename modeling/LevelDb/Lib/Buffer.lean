import Mathlib.Data.List.Basic

/-!
# Buffers

Lists as buffers of fixed size: they are resized, with a filler for new space, and overwritten from
some position on. A buffer that is written from its front to its back is what was written, followed by
the rest of what was there before.
-/

namespace LevelDb.Lib

variable {α : Type}

/-- The buffer with another size. New space has the filler. -/
def resize (filler : α) (n : ℕ) (l : List α) : List α :=
  l.take n ++ List.replicate (n - l.length) filler

/-- The buffer with some data from a position on. -/
def overwrite (l : List α) (position : ℕ) (data : List α) : List α :=
  l.take position ++ data ++ l.drop (position + data.length)

/-- A buffer that is resized has the new size, whether it grows or shrinks. -/
@[simp] theorem length_resize (filler : α) (n : ℕ) (l : List α) : (resize filler n l).length = n := by
  simp only [resize, List.length_append, List.length_take, List.length_replicate]
  omega

/-- A buffer that is resized has at each position the old element, or the filler where there was none. -/
theorem getElem?_resize (filler : α) {n p : ℕ} (l : List α) (hp : p < n) :
    (resize filler n l)[p]? = some (l.getD p filler) := by
  unfold resize
  by_cases hlen : p < l.length
  · have htake : p < (l.take n).length := by rw [List.length_take]; omega
    rw [List.getElem?_append_left htake, List.getElem?_take_of_lt hp, List.getD_eq_getElem?_getD,
      List.getElem?_eq_getElem hlen]
    rfl
  · have htake : (l.take n).length = l.length := by rw [List.length_take]; omega
    have hnone : l[p]? = none := List.getElem?_eq_none (by omega)
    rw [List.getElem?_append_right (by omega), htake, List.getElem?_replicate_of_lt (by omega),
      List.getD_eq_getElem?_getD, hnone]
    rfl

/-- Two lists that are resized agree behind a position exactly if they have the same elements there, or
fillers. -/
theorem resize_inj_iff (filler : α) (n k : ℕ) (l l' : List α) :
    (resize filler n l).drop k = (resize filler n l').drop k ↔
      ∀ p, k ≤ p → p < n → l.getD p filler = l'.getD p filler := by
  constructor
  · intro h p hkp hpn
    have hget := congrArg (fun m => m[p - k]?) h
    simp only [List.getElem?_drop, Nat.add_sub_cancel' hkp] at hget
    rw [getElem?_resize filler l hpn, getElem?_resize filler l' hpn] at hget
    exact Option.some.inj hget
  · intro h
    refine List.ext_getElem? fun i => ?_
    rw [List.getElem?_drop, List.getElem?_drop]
    by_cases hi : k + i < n
    · rw [getElem?_resize filler l hi, getElem?_resize filler l' hi, h _ (Nat.le_add_right k i) hi]
    · rw [List.getElem?_eq_none (by simpa using hi), List.getElem?_eq_none (by simpa using hi)]

/-- The empty buffer gets fillers only. -/
theorem resize_nil (filler : α) (n : ℕ) : resize filler n [] = List.replicate n filler := by
  simp [resize]

/-- A buffer of fillers keeps having fillers only. -/
theorem resize_replicate (filler : α) {m n : ℕ} (h : m ≤ n) :
    resize filler n (List.replicate m filler) = List.replicate n filler := by
  simp only [resize, List.take_replicate, List.length_replicate, List.replicate_append_replicate]
  congr 1
  omega

/-- Growing a buffer twice is growing it once to the larger size. -/
theorem resize_resize (filler : α) {m n : ℕ} {l : List α} (hl : l.length ≤ m) (h : m ≤ n) :
    resize filler n (resize filler m l) = resize filler n l := by
  have hmid : resize filler m l = l ++ List.replicate (m - l.length) filler := by
    rw [resize, List.take_of_length_le hl]
  have hlen : (l ++ List.replicate (m - l.length) filler).length = m := by simp; omega
  rw [hmid]
  unfold resize
  rw [hlen, List.take_of_length_le (by omega), List.take_of_length_le (by omega), List.append_assoc,
    List.replicate_append_replicate]
  congr 2
  omega

/-- The front of a buffer that gets larger. -/
theorem resize_append_drop (filler : α) {m n : ℕ} (h : m ≤ n) {front back : List α}
    (hback : back.length = m) (hfront : front.length ≤ m) :
    resize filler n (front ++ back.drop front.length) =
      front ++ (resize filler n back).drop front.length := by
  have hlen : (front ++ back.drop front.length).length = m := by simp; omega
  unfold resize
  rw [hlen, hback, List.take_of_length_le (by omega), List.take_of_length_le (by omega),
    List.drop_append_of_le_length (by omega), List.append_assoc]

/-- The front of a buffer is extended. -/
theorem overwrite_append_drop (front back data : List α) :
    overwrite (front ++ back.drop front.length) front.length data =
      (front ++ data) ++ back.drop (front ++ data).length := by
  unfold overwrite
  rw [List.take_left' rfl, List.drop_append, List.drop_eq_nil_of_le (Nat.le_add_right _ _),
    List.drop_drop, List.length_append, Nat.add_sub_cancel_left, List.nil_append]

/-- A buffer that is cut behind its front. -/
theorem resize_front (filler : α) (front rest : List α) :
    resize filler front.length (front ++ rest) = front := by
  unfold resize
  rw [List.take_left' rfl, List.length_append, Nat.sub_eq_zero_of_le (Nat.le_add_right _ _)]
  exact List.append_nil _

end LevelDb.Lib
