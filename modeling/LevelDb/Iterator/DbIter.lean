import LevelDb.Version.Tables

/-!
# `DBIter`

The iterator of `db/db_iter.cc`, which combines the entries of one user key that an internal iterator
yields into a single entry as seen by a snapshot. The internal iterator is a cursor over the list of
internal entries: `iter` is its position, and `none` says that it is not `Valid()`. All entries
parse, so `ParseKey` never fails. `saved_key_` and `saved_value_` are `none` when they are cleared,
and when `saved_key_` holds the encoded internal key that `Seek` leaves in it.
-/

namespace LevelDb

variable {K V : Type}

/-- Which direction is the iterator currently moving? -/
inductive Direction where
  /-- `kForward`: `iter_` is at the exact entry that yields `key()` and `value()`. -/
  | forward
  /-- `kReverse`: `iter_` is just before all entries whose user key is `key()`. -/
  | reverse
  deriving DecidableEq, Repr

/-- The state of a `DBIter` over a list of entries. -/
structure DbIter (K V : Type) where
  /-- `iter_` -/
  iter : Option ℕ := none
  /-- `saved_key_`: the current key when moving backwards. -/
  savedKey : Option K := none
  /-- `saved_value_`: the current raw value when moving backwards. -/
  savedValue : Option V := none
  /-- `direction_` -/
  direction : Direction := .forward
  /-- `valid_` -/
  valid : Bool := false

/-! ## The internal iterator -/

/-- `iter_->SeekToFirst()`. -/
def firstPos (es : List (Entry K V)) : Option ℕ := if es.isEmpty then none else some 0

/-- `iter_->SeekToLast()`. -/
def lastPos (es : List (Entry K V)) : Option ℕ :=
  if es.isEmpty then none else some (es.length - 1)

/-- `iter_->Next()`. -/
def nextPos (es : List (Entry K V)) (i : ℕ) : Option ℕ :=
  if i + 1 < es.length then some (i + 1) else none

variable [LinearOrder K]

/-! ## `FindNextUserEntry` -/

/-- `skipping && Compare(user_key, *skip) <= 0`. -/
def skips (skipping : Bool) (skip : Option K) (k : K) : Bool :=
  skipping && skip.any fun k' => decide (k ≤ k')

/-- The loop of `FindNextUserEntry` over the entries from position `i` on: the position of an
acceptable entry to yield. -/
def findNextLoop (s : ℕ) : Bool → Option K → List (Entry K V) → ℕ → Option ℕ
  | _, _, [], _ => none
  | skipping, skip, e :: rest, i =>
    if e.key.sequence ≤ s then
      match e.key.type with
      | .deletion => findNextLoop s true (some e.key.userKey) rest (i + 1)
      | .value =>
        if skips skipping skip e.key.userKey then findNextLoop s skipping skip rest (i + 1)
        else some i
    else findNextLoop s skipping skip rest (i + 1)

/-- `DBIter::FindNextUserEntry` from the position `i` of `iter_`. -/
def DbIter.findNextUserEntry (es : List (Entry K V)) (s : ℕ) (it : DbIter K V) (i : ℕ)
    (skipping : Bool) (skip : Option K) : DbIter K V :=
  let pos := findNextLoop s skipping skip (es.drop i) i
  { it with iter := pos, valid := pos.isSome, savedKey := none }

/-! ## `FindPrevUserEntry` -/

/-- The result of the loop of `FindPrevUserEntry`. -/
structure PrevResult (K V : Type) where
  /-- `value_type` -/
  valueType : ValueType
  /-- `saved_key_` -/
  savedKey : Option K
  /-- `saved_value_` -/
  savedValue : Option V
  /-- Where `iter_` stands. -/
  iter : Option ℕ

/-- The loop of `FindPrevUserEntry` over the entries from the position of `iter_` backwards; the
position of an entry is the number of entries that are left after it. -/
def findPrevLoop (s : ℕ) :
    List (Entry K V) → ValueType → Option K → Option V → PrevResult K V
  | [], valueType, savedKey, savedValue => ⟨valueType, savedKey, savedValue, none⟩
  | e :: rest, valueType, savedKey, savedValue =>
    if e.key.sequence ≤ s then
      if valueType ≠ .deletion ∧ savedKey.any (fun k => decide (e.key.userKey < k)) = true then
        ⟨valueType, savedKey, savedValue, some rest.length⟩
      else
        match e.key.type with
        | .deletion => findPrevLoop s rest .deletion none none
        | .value => findPrevLoop s rest .value (some e.key.userKey) (some e.value)
    else findPrevLoop s rest valueType savedKey savedValue

/-- The entries from a position backwards. -/
def backFrom (es : List (Entry K V)) : Option ℕ → List (Entry K V)
  | none => []
  | some i => (es.take (i + 1)).reverse

/-- `DBIter::FindPrevUserEntry`. -/
def DbIter.findPrevUserEntry (es : List (Entry K V)) (s : ℕ) (it : DbIter K V) : DbIter K V :=
  let r := findPrevLoop s (backFrom es it.iter) .deletion it.savedKey it.savedValue
  if r.valueType = .deletion then
    { iter := r.iter, savedKey := none, savedValue := none, direction := .forward, valid := false }
  else { it with iter := r.iter, savedKey := r.savedKey, savedValue := r.savedValue, valid := true }

/-! ## The calls -/

/-- Where `Next` starts to skip: when it switches directions, it first advances `iter_` into the
range of entries for `key()`. -/
def DbIter.switchForward (es : List (Entry K V)) (it : DbIter K V) : Option ℕ :=
  match it.direction, it.iter with
  | .reverse, none => firstPos es
  | .reverse, some i => nextPos es i
  | .forward, pos => pos

/-- `DBIter::Next`. -/
def DbIter.next (es : List (Entry K V)) (s : ℕ) (it : DbIter K V) : DbIter K V :=
  let pos := it.switchForward es
  let it := { it with direction := .forward, iter := pos }
  match pos.bind fun i => es[i]?.map fun e => (i, e) with
  | none => { it with valid := false, savedKey := none }
  | some (i, e) => it.findNextUserEntry es s i true (some e.key.userKey)

/-- The scan of `Prev` backwards until the user key changes. -/
def scanBack (k : K) : List (Entry K V) → Option ℕ
  | [] => none
  | e :: rest => if e.key.userKey < k then some rest.length else scanBack k rest

/-- `DBIter::Prev`. -/
def DbIter.prev (es : List (Entry K V)) (s : ℕ) (it : DbIter K V) : DbIter K V :=
  match it.direction with
  | .reverse => it.findPrevUserEntry es s
  | .forward =>
    match it.iter.bind fun i => es[i]?.map fun e => (i, e) with
    | none => it
    | some (i, e) =>
      match scanBack e.key.userKey (es.take i).reverse with
      | none => { it with iter := none, valid := false, savedKey := none, savedValue := none }
      | some j =>
        let it :=
          { it with iter := some j, savedKey := some e.key.userKey, direction := .reverse }
        it.findPrevUserEntry es s

/-- `DBIter::Seek`. -/
def DbIter.seek (es : List (Entry K V)) (s : ℕ) (it : DbIter K V) (target : K) : DbIter K V :=
  let pos := es.findIdx? fun e => decide (lookupKey target s ≤ e.key)
  let it := { it with direction := .forward, savedValue := none, savedKey := none, iter := pos }
  match pos with
  | some i => it.findNextUserEntry es s i false it.savedKey
  | none => { it with valid := false }

/-- `DBIter::SeekToFirst`. -/
def DbIter.seekToFirst (es : List (Entry K V)) (s : ℕ) (it : DbIter K V) : DbIter K V :=
  let pos := firstPos es
  let it := { it with direction := .forward, savedValue := none, iter := pos }
  match pos with
  | some i => it.findNextUserEntry es s i false it.savedKey
  | none => { it with valid := false }

/-- `DBIter::SeekToLast`. -/
def DbIter.seekToLast (es : List (Entry K V)) (s : ℕ) (it : DbIter K V) : DbIter K V :=
  let it := { it with direction := .reverse, savedValue := none, iter := lastPos es }
  it.findPrevUserEntry es s

/-- The calls that move an iterator. -/
inductive IterCall (K : Type) where
  /-- `SeekToFirst()` -/
  | seekToFirst
  /-- `SeekToLast()` -/
  | seekToLast
  /-- `Seek(target)` -/
  | seek (target : K)
  /-- `Next()`, which requires `Valid()`. -/
  | next
  /-- `Prev()`, which requires `Valid()`. -/
  | prev
  deriving DecidableEq, Repr

/-- One call. `Next` and `Prev` assert `Valid()`. -/
def DbIter.call (es : List (Entry K V)) (s : ℕ) (it : DbIter K V) : IterCall K → Option (DbIter K V)
  | .seekToFirst => some (it.seekToFirst es s)
  | .seekToLast => some (it.seekToLast es s)
  | .seek target => some (it.seek es s target)
  | .next => if it.valid then some (it.next es s) else none
  | .prev => if it.valid then some (it.prev es s) else none

/-- A sequence of calls. -/
def DbIter.run (es : List (Entry K V)) (s : ℕ) (it : DbIter K V) (calls : List (IterCall K)) :
    Option (DbIter K V) :=
  calls.foldlM (DbIter.call es s) it

/-- `Valid()`, and `key()` and `value()` when it holds. -/
def DbIter.observe (es : List (Entry K V)) (it : DbIter K V) : Bool × Option (K × V) :=
  (it.valid,
    if it.valid then
      match it.direction with
      | .forward => (it.iter.bind (es[·]?)).map fun e => (e.key.userKey, e.value)
      | .reverse => it.savedKey.bind fun k => it.savedValue.map fun v => (k, v)
    else none)

end LevelDb
