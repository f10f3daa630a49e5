import Mathlib.Data.List.Basic
import Mathlib.Tactic.Common

/-!
# Iterators

The interface of an iterator over pairs of keys and values, and what it means that one behaves as a
cursor over a list: a relation connects its states with positions of the list (`Follows`), and every
operation moves both sides alike. A cursor that is not valid has no position. Then every sequence of
calls shows the same on the iterator and on the cursor (`IsCursor.run`).
-/

namespace LevelDb.Lib

/-! ## The interface -/

/-- The operations of an iterator. -/
class Iterator (σ : Type) (K V E : outParam Type) where
  /-- The iterator is at an entry. -/
  valid : σ → Bool
  /-- The key of the entry. -/
  key : σ → K
  /-- The value of the entry. -/
  value : σ → V
  /-- An error that was met. -/
  status : σ → Option E
  /-- To the first entry. -/
  seekToFirst : σ → σ
  /-- To the last entry. -/
  seekToLast : σ → σ
  /-- To the first entry that is not below a target. -/
  seek : K → σ → σ
  /-- To the next entry, from a valid state. -/
  next : σ → σ
  /-- To the previous entry, from a valid state. -/
  prev : σ → σ

/-- A bound for the number of entries, which loops over an iterator use. -/
class Bounded (σ : Type) where
  /-- More steps than there are entries. -/
  bound : σ → ℕ

variable {σ τ K V E : Type}

/-- An iterator of one of two types. -/
instance [Iterator σ K V E] [Iterator τ K V E] : Iterator (σ ⊕ τ) K V E where
  valid := Sum.elim Iterator.valid Iterator.valid
  key := Sum.elim Iterator.key Iterator.key
  value := Sum.elim Iterator.value Iterator.value
  status := Sum.elim Iterator.status Iterator.status
  seekToFirst := Sum.map Iterator.seekToFirst Iterator.seekToFirst
  seekToLast := Sum.map Iterator.seekToLast Iterator.seekToLast
  seek target := Sum.map (Iterator.seek target) (Iterator.seek target)
  next := Sum.map Iterator.next Iterator.next
  prev := Sum.map Iterator.prev Iterator.prev

instance [Bounded σ] [Bounded τ] : Bounded (σ ⊕ τ) where
  bound := Sum.elim Bounded.bound Bounded.bound

/-- A call. -/
inductive Call (K : Type) where
  /-- To the first entry. -/
  | seekToFirst
  /-- To the last entry. -/
  | seekToLast
  /-- To the first entry that is not below a target. -/
  | seek (target : K)
  /-- To the next entry. -/
  | next
  /-- To the previous entry. -/
  | prev

section Calls

variable [Iterator σ K V E]

/-- A call on an iterator. The last two may only be made in a valid state. -/
def call (s : σ) : Call K → Option σ
  | .seekToFirst => some (Iterator.seekToFirst s)
  | .seekToLast => some (Iterator.seekToLast s)
  | .seek target => some (Iterator.seek target s)
  | .next => if Iterator.valid s then some (Iterator.next s) else none
  | .prev => if Iterator.valid s then some (Iterator.prev s) else none

/-- A sequence of calls. -/
def calls (s : σ) (cs : List (Call K)) : Option σ := cs.foldlM call s

/-- What an iterator shows: the entry if it is valid, and the status. -/
def observe (s : σ) : Option (K × V) × Option E :=
  (if Iterator.valid s then some (Iterator.key s, Iterator.value s) else none, Iterator.status s)

end Calls

/-! ## Cursors -/

/-- The position `i`, if it is one. -/
def clip (l : List (K × V)) (i : ℕ) : Option ℕ := if i < l.length then some i else none

/-- The position before `i`, if there is one. -/
def before (i : ℕ) : Option ℕ := if 0 < i then some (i - 1) else none

/-- The number of the first entry that is not below a target. -/
def seekPos (lt : K → K → Bool) (l : List (K × V)) (target : K) : ℕ := l.findIdx fun p => !lt p.1 target

/-- A call on a cursor. -/
def cursorCall (lt : K → K → Bool) (l : List (K × V)) (pos : Option ℕ) : Call K → Option (Option ℕ)
  | .seekToFirst => some (clip l 0)
  | .seekToLast => some (before l.length)
  | .seek target => some (clip l (seekPos lt l target))
  | .next => pos.map fun i => clip l (i + 1)
  | .prev => pos.map before

/-- A sequence of calls on a cursor. -/
def cursorCalls (lt : K → K → Bool) (l : List (K × V)) (pos : Option ℕ) (cs : List (Call K)) :
    Option (Option ℕ) :=
  cs.foldlM (cursorCall lt l) pos

/-- What a cursor shows, always without an error. -/
def cursorObserve (l : List (K × V)) (pos : Option ℕ) : Option (K × V) × Option E :=
  (pos.bind (l[·]?), none)

/-- A position is followed by one, or is the last. -/
theorem clip_eq_some {l : List (K × V)} {i j : ℕ} (h : clip l i = some j) : j = i ∧ i < l.length := by
  unfold clip at h
  split_ifs at h with hlt
  exact ⟨(Option.some.inj h).symm, hlt⟩

/-- A position within the list is kept by clipping. -/
theorem clip_of_lt {l : List (K × V)} {i : ℕ} (h : i < l.length) : clip l i = some i := if_pos h

/-- A position behind the end of the list is clipped to no position. -/
theorem clip_of_le {l : List (K × V)} {i : ℕ} (h : l.length ≤ i) : clip l i = none :=
  if_neg (Nat.not_lt.mpr h)

/-- What makes a number that of the first entry that is not below a target. -/
theorem seekPos_eq {lt : K → K → Bool} {l : List (K × V)} {target : K} {k : ℕ} (hk : k ≤ l.length)
    (hbelow : ∀ {j : ℕ} {p : K × V}, j < k → l[j]? = some p → lt p.1 target = true)
    (hstop : ∀ {p : K × V}, l[k]? = some p → lt p.1 target = false) : seekPos lt l target = k := by
  unfold seekPos
  obtain hlt | rfl := Nat.lt_or_eq_of_le hk
  · rw [List.findIdx_eq hlt]
    constructor
    · rw [hstop (List.getElem?_eq_getElem hlt)]
      rfl
    · intro j hj
      rw [hbelow hj (List.getElem?_eq_getElem (Nat.lt_trans hj hlt))]
      rfl
  · apply List.findIdx_eq_length.mpr
    intro p hp
    obtain ⟨j, hj⟩ := List.mem_iff_getElem?.mp hp
    rw [hbelow (List.getElem?_eq_some_iff.mp hj).1 hj]
    rfl

/-- The entries before it are below the target. -/
theorem lt_of_lt_seekPos {lt : K → K → Bool} {l : List (K × V)} {target : K} {j : ℕ} {p : K × V}
    (hj : j < seekPos lt l target) (hp : l[j]? = some p) : lt p.1 target = true := by
  obtain ⟨hlength, rfl⟩ := List.getElem?_eq_some_iff.mp hp
  have hbelow := List.not_of_lt_findIdx hj
  simpa using hbelow

/-- It is not below the target itself. -/
theorem not_lt_seekPos {lt : K → K → Bool} {l : List (K × V)} {target : K} {p : K × V}
    (hp : l[seekPos lt l target]? = some p) : lt p.1 target = false := by
  obtain ⟨hlength, rfl⟩ := List.getElem?_eq_some_iff.mp hp
  have hstop := @List.findIdx_getElem _ (fun p : K × V => !lt p.1 target) l hlength
  exact (Bool.not_eq_true' _).mp hstop

/-- There may be no such entry. -/
theorem seekPos_le_length (lt : K → K → Bool) (l : List (K × V)) (target : K) :
    seekPos lt l target ≤ l.length := List.findIdx_le_length

/-! ## Iterators as cursors -/

section Follows

variable [Iterator σ K V E]

/-- The iterator moves as a cursor over the list, in all states that a relation connects with a
position. -/
structure Follows (lt : K → K → Bool) (l : List (K × V)) (R : σ → Option ℕ → Prop) : Prop where
  /-- Valid states have a position. -/
  valid : ∀ {s pos}, R s pos → Iterator.valid s = pos.isSome
  /-- The entry at the position. -/
  entry : ∀ {s i}, R s (some i) → l[i]? = some (Iterator.key s, Iterator.value s)
  /-- There is no error. -/
  status : ∀ {s pos}, R s pos → Iterator.status s = none
  /-- To the first entry. -/
  seekToFirst : ∀ {s pos}, R s pos → R (Iterator.seekToFirst s) (clip l 0)
  /-- To the last entry. -/
  seekToLast : ∀ {s pos}, R s pos → R (Iterator.seekToLast s) (before l.length)
  /-- To the first entry that is not below a target. -/
  seek : ∀ {s pos} (target : K), R s pos → R (Iterator.seek target s) (clip l (seekPos lt l target))
  /-- To the next entry. -/
  next : ∀ {s i}, R s (some i) → R (Iterator.next s) (clip l (i + 1))
  /-- To the previous entry. -/
  prev : ∀ {s i}, R s (some i) → R (Iterator.prev s) (before i)

/-- A new iterator that behaves as a cursor over the list. -/
def IsCursor (lt : K → K → Bool) (l : List (K × V)) (s : σ) : Prop :=
  ∃ R, Follows lt l R ∧ R s none

/-- A new iterator that behaves as a cursor over the list, whose bound is never too small. -/
def IsBoundedCursor [Bounded σ] (lt : K → K → Bool) (l : List (K × V)) (s : σ) : Prop :=
  ∃ R, Follows lt l R ∧ (∀ {s : σ} {pos : Option ℕ}, R s pos → l.length ≤ Bounded.bound s) ∧ R s none

variable {lt : K → K → Bool} {l : List (K × V)} {R : σ → Option ℕ → Prop}

/-- The positions are in the list. -/
theorem Follows.lt_length (h : Follows lt l R) {s : σ} {i : ℕ} (hs : R s (some i)) : i < l.length :=
  (List.getElem?_eq_some_iff.mp (h.entry hs)).1

/-- An iterator that follows a cursor shows what the cursor shows. -/
theorem Follows.observe (h : Follows lt l R) {s : σ} {pos : Option ℕ} (hs : R s pos) :
    Lib.observe s = cursorObserve l pos := by
  unfold Lib.observe cursorObserve
  rw [h.status hs, h.valid hs]
  cases pos with
  | none => rfl
  | some i =>
    rw [Option.bind_some, h.entry hs]
    rfl

/-- A call moves both sides, or is allowed on neither. -/
theorem Follows.call (h : Follows lt l R) {s : σ} {pos : Option ℕ} (hs : R s pos) (c : Call K) :
    (call s c = none ∧ cursorCall lt l pos c = none) ∨
      ∃ s' pos', call s c = some s' ∧ cursorCall lt l pos c = some pos' ∧ R s' pos' := by
  cases c with
  | seekToFirst => exact Or.inr ⟨_, _, rfl, rfl, h.seekToFirst hs⟩
  | seekToLast => exact Or.inr ⟨_, _, rfl, rfl, h.seekToLast hs⟩
  | seek target => exact Or.inr ⟨_, _, rfl, rfl, h.seek target hs⟩
  | next =>
    have hvalid := h.valid hs
    cases pos with
    | none => exact Or.inl ⟨if_neg (by rw [hvalid]; exact Bool.false_ne_true), rfl⟩
    | some i => exact Or.inr ⟨_, _, if_pos hvalid, rfl, h.next hs⟩
  | prev =>
    have hvalid := h.valid hs
    cases pos with
    | none => exact Or.inl ⟨if_neg (by rw [hvalid]; exact Bool.false_ne_true), rfl⟩
    | some i => exact Or.inr ⟨_, _, if_pos hvalid, rfl, h.prev hs⟩

/-- After every sequence of calls both sides show the same. -/
theorem Follows.calls (h : Follows lt l R) : ∀ (cs : List (Call K)) {s : σ} {pos : Option ℕ}, R s pos →
    (Lib.calls s cs).map Lib.observe = (cursorCalls lt l pos cs).map (cursorObserve l)
  | [], s, pos, hs => congrArg some (h.observe hs)
  | c :: cs, s, pos, hs => by
    unfold Lib.calls cursorCalls
    rw [List.foldlM_cons, List.foldlM_cons]
    obtain ⟨hnone, hnone'⟩ | ⟨s', pos', hsome, hsome', hs'⟩ := h.call hs c
    · rw [hnone, hnone']
      rfl
    · rw [hsome, hsome']
      exact h.calls cs hs'

/-- A new iterator shows what a cursor shows, after every sequence of calls. -/
theorem IsCursor.run {s : σ} (h : IsCursor lt l s) (cs : List (Call K)) :
    (calls s cs).map observe = (cursorCalls lt l none cs).map (cursorObserve l) := by
  obtain ⟨R, hfollows, hs⟩ := h
  exact hfollows.calls cs hs

/-- A cursor shows entries of its list only. -/
theorem IsCursor.mem_of_valid {s it : σ} (h : IsCursor lt l s) {cs : List (Call K)}
    (hcs : calls s cs = some it) (hvalid : Iterator.valid it = true) :
    (Iterator.key it, Iterator.value it) ∈ l := by
  have hrun := h.run cs
  rw [hcs] at hrun
  cases hpos : cursorCalls lt l none cs with
  | none =>
    rw [hpos] at hrun
    exact absurd hrun (Option.some_ne_none _)
  | some pos =>
    rw [hpos] at hrun
    have hobserve := (Prod.mk.inj (Option.some.inj hrun)).1
    rw [if_pos hvalid] at hobserve
    obtain ⟨i, -, hi⟩ := Option.bind_eq_some_iff.mp hobserve.symm
    exact List.mem_of_getElem? hi

/-- An iterator of one of two types. -/
theorem Follows.inr [Iterator τ K V E] (h : Follows lt l R) :
    Follows lt l fun (x : τ ⊕ σ) pos => ∃ s, x = Sum.inr s ∧ R s pos := by
  constructor
  case valid => rintro _ _ ⟨s, rfl, hs⟩; exact h.valid hs
  case entry => rintro _ _ ⟨s, rfl, hs⟩; exact h.entry hs
  case status => rintro _ _ ⟨s, rfl, hs⟩; exact h.status hs
  case seekToFirst => rintro _ _ ⟨s, rfl, hs⟩; exact ⟨_, rfl, h.seekToFirst hs⟩
  case seekToLast => rintro _ _ ⟨s, rfl, hs⟩; exact ⟨_, rfl, h.seekToLast hs⟩
  case seek => rintro _ _ target ⟨s, rfl, hs⟩; exact ⟨_, rfl, h.seek target hs⟩
  case next => rintro _ _ ⟨s, rfl, hs⟩; exact ⟨_, rfl, h.next hs⟩
  case prev => rintro _ _ ⟨s, rfl, hs⟩; exact ⟨_, rfl, h.prev hs⟩

/-- An iterator of one of two types. -/
theorem Follows.inl [Iterator τ K V E] (h : Follows lt l R) :
    Follows lt l fun (x : σ ⊕ τ) pos => ∃ s, x = Sum.inl s ∧ R s pos := by
  constructor
  case valid => rintro _ _ ⟨s, rfl, hs⟩; exact h.valid hs
  case entry => rintro _ _ ⟨s, rfl, hs⟩; exact h.entry hs
  case status => rintro _ _ ⟨s, rfl, hs⟩; exact h.status hs
  case seekToFirst => rintro _ _ ⟨s, rfl, hs⟩; exact ⟨_, rfl, h.seekToFirst hs⟩
  case seekToLast => rintro _ _ ⟨s, rfl, hs⟩; exact ⟨_, rfl, h.seekToLast hs⟩
  case seek => rintro _ _ target ⟨s, rfl, hs⟩; exact ⟨_, rfl, h.seek target hs⟩
  case next => rintro _ _ ⟨s, rfl, hs⟩; exact ⟨_, rfl, h.next hs⟩
  case prev => rintro _ _ ⟨s, rfl, hs⟩; exact ⟨_, rfl, h.prev hs⟩

/-- A new iterator of one of two types. -/
theorem IsCursor.inr [Iterator τ K V E] {s : σ} (h : IsCursor lt l s) :
    IsCursor lt l (Sum.inr s : τ ⊕ σ) := by
  obtain ⟨R, hfollows, hs⟩ := h
  exact ⟨_, hfollows.inr, s, rfl, hs⟩

/-- A new iterator of the other type. -/
theorem IsCursor.inl [Iterator τ K V E] {s : σ} (h : IsCursor lt l s) :
    IsCursor lt l (Sum.inl s : σ ⊕ τ) := by
  obtain ⟨R, hfollows, hs⟩ := h
  exact ⟨_, hfollows.inl, s, rfl, hs⟩

end Follows

end LevelDb.Lib
