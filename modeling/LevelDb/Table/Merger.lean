import LevelDb.Table.Block

/-!
# The merging iterator

`MergingIterator` of `table/merger.cc`: the current entry is the smallest one of its children, or the
largest one when it moves backwards. Its status is the first error of a child. The children may be any
iterators; the source has them in an `IteratorWrapper` each, of `table/iterator_wrapper.h`, which keeps
copies of what `Valid` and `key` return.
-/

namespace LevelDb

open Lib

variable {χ : Type}

/-- `MergingIterator::Direction` -/
inductive MergeDirection where
  /-- `kForward` -/
  | forward
  /-- `kReverse` -/
  | reverse
  deriving DecidableEq

/-- `MergingIterator` -/
structure MergingIterator (χ : Type) where
  /-- `comparator_` -/
  comparator : Comparator
  /-- `children_` -/
  children : List χ
  /-- `current_`, as the number of a child. -/
  current : Option ℕ := none
  /-- `direction_` -/
  direction : MergeDirection := .forward

namespace MergingIterator

variable [Iterator χ Slice Slice Status]

/-- A round of the loop of `FindSmallest` with a child and its number. -/
def smallerOf (comparator : Comparator) (i : ℕ) (child : χ) : Option (ℕ × χ) → Option (ℕ × χ)
  | none => if Iterator.valid child then some (i, child) else none
  | some smallest =>
    if Iterator.valid child = true ∧
        comparator.compare (Iterator.key child) (Iterator.key smallest.2) = .lt then some (i, child)
    else some smallest

/-- The loop of `FindSmallest` over the children from a number on. -/
def findSmallestFrom (comparator : Comparator) : List χ → ℕ → Option (ℕ × χ) → Option (ℕ × χ)
  | [], _, smallest => smallest
  | child :: children, i, smallest =>
    findSmallestFrom comparator children (i + 1) (smallerOf comparator i child smallest)

/-- `FindSmallest` -/
def findSmallest (it : MergingIterator χ) : MergingIterator χ :=
  { it with current := (findSmallestFrom it.comparator it.children 0 none).map (·.1) }

/-- A round of the loop of `FindLargest` with a child and its number. -/
def largerOf (comparator : Comparator) (i : ℕ) (child : χ) : Option (ℕ × χ) → Option (ℕ × χ)
  | none => if Iterator.valid child then some (i, child) else none
  | some largest =>
    if Iterator.valid child = true ∧
        comparator.compare (Iterator.key child) (Iterator.key largest.2) = .gt then some (i, child)
    else some largest

/-- The loop of `FindLargest` over the children from the last one down to a number. -/
def findLargestFrom (comparator : Comparator) : List χ → ℕ → Option (ℕ × χ)
  | [], _ => none
  | child :: children, i => largerOf comparator i child (findLargestFrom comparator children (i + 1))

/-- `FindLargest` -/
def findLargest (it : MergingIterator χ) : MergingIterator χ :=
  { it with current := (findLargestFrom it.comparator it.children 0).map (·.1) }

/-- The child that `current_` points to. -/
def currentChild (it : MergingIterator χ) : Option χ := it.current.bind (it.children[·]?)

/-- `key` -/
def key (it : MergingIterator χ) : Slice := (it.currentChild.map Iterator.key).getD []

/-- `value` -/
def value (it : MergingIterator χ) : Slice := (it.currentChild.map Iterator.value).getD []

/-- An operation on all children. -/
def onChildren (f : χ → χ) (it : MergingIterator χ) : MergingIterator χ :=
  { it with children := it.children.map f }

/-- An operation on all children but the current one. -/
def onOthers (f : χ → χ) (it : MergingIterator χ) : MergingIterator χ :=
  { it with children := it.children.mapIdx fun i child => if some i = it.current then child else f child }

/-- An operation on the current child. -/
def onCurrent (f : χ → χ) (it : MergingIterator χ) : MergingIterator χ :=
  match it.current with
  | none => it
  | some i => { it with children := it.children.modify i f }

/-- `SeekToFirst` -/
def seekToFirst (it : MergingIterator χ) : MergingIterator χ :=
  { (it.onChildren Iterator.seekToFirst).findSmallest with direction := .forward }

/-- `SeekToLast` -/
def seekToLast (it : MergingIterator χ) : MergingIterator χ :=
  { (it.onChildren Iterator.seekToLast).findLargest with direction := .reverse }

/-- `Seek` -/
def seek (target : Slice) (it : MergingIterator χ) : MergingIterator χ :=
  { (it.onChildren (Iterator.seek target)).findSmallest with direction := .forward }

/-- A child is positioned after a key. -/
def placeAfter (comparator : Comparator) (key : Slice) (child : χ) : χ :=
  let child := Iterator.seek key child
  if Iterator.valid child = true ∧ comparator.compare key (Iterator.key child) = .eq then
    Iterator.next child
  else child

/-- A child is positioned before a key. -/
def placeBefore (key : Slice) (child : χ) : χ :=
  let child := Iterator.seek key child
  -- Child is at first entry >= key(). Step back one to be < key()
  if Iterator.valid child then Iterator.prev child
  -- Child has no entries >= key(). Position at last entry.
  else Iterator.seekToLast child

/-- `Next` -/
def next (it : MergingIterator χ) : MergingIterator χ :=
  -- Ensure that all children are positioned after key().
  let it :=
    if it.direction = .forward then it
    else { it.onOthers (placeAfter it.comparator it.key) with direction := .forward }
  (it.onCurrent Iterator.next).findSmallest

/-- `Prev` -/
def prev (it : MergingIterator χ) : MergingIterator χ :=
  -- Ensure that all children are positioned before key().
  let it :=
    if it.direction = .reverse then it
    else { it.onOthers (placeBefore it.key) with direction := .reverse }
  (it.onCurrent Iterator.prev).findLargest

/-- `status`: the first error of a child. -/
def getStatus (it : MergingIterator χ) : Option Status := it.children.findSome? Iterator.status

instance : Iterator (MergingIterator χ) Slice Slice Status where
  valid it := it.current.isSome
  key := key
  value := value
  status := getStatus
  seekToFirst := seekToFirst
  seekToLast := seekToLast
  seek := seek
  next := next
  prev := prev

end MergingIterator

/-- What `NewMergingIterator` returns. -/
abbrev MergedIterator (χ : Type) := EmptyIterator ⊕ (χ ⊕ MergingIterator χ)

/-- `NewMergingIterator` -/
def newMergingIterator (cmp : Comparator) : List χ → MergedIterator χ
  | [] => .inl ⟨none⟩
  | [child] => .inr (.inl child)
  | children => .inr (.inr { comparator := cmp, children := children })

/-! ## Wrappers -/

/-- `IteratorWrapper` -/
structure IteratorWrapper (χ : Type) where
  /-- `iter_` -/
  iter : χ
  /-- `valid_` -/
  valid : Bool
  /-- `key_` -/
  key : Slice

namespace IteratorWrapper

variable [Iterator χ Slice Slice Status]

/-- `Update`, after `iter_` has changed. -/
def update (w : IteratorWrapper χ) (iter : χ) : IteratorWrapper χ where
  iter := iter
  valid := Iterator.valid iter
  key := if Iterator.valid iter then Iterator.key iter else w.key

/-- A new `IteratorWrapper` after `Set`. -/
def set (iter : χ) : IteratorWrapper χ := update { iter := iter, valid := false, key := [] } iter

instance : Iterator (IteratorWrapper χ) Slice Slice Status where
  valid := valid
  key := key
  value w := Iterator.value w.iter
  status w := Iterator.status w.iter
  seekToFirst w := w.update (Iterator.seekToFirst w.iter)
  seekToLast w := w.update (Iterator.seekToLast w.iter)
  seek target w := w.update (Iterator.seek target w.iter)
  next w := w.update (Iterator.next w.iter)
  prev w := w.update (Iterator.prev w.iter)

end IteratorWrapper

/-- `NewMergingIterator`, with the children in wrappers. -/
def newWrappedMergingIterator [Iterator χ Slice Slice Status] (cmp : Comparator) :
    List χ → EmptyIterator ⊕ (χ ⊕ MergingIterator (IteratorWrapper χ))
  | [] => .inl ⟨none⟩
  | [child] => .inr (.inl child)
  | children => .inr (.inr { comparator := cmp, children := children.map IteratorWrapper.set })

end LevelDb
