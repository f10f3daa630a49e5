import LevelDb.Lib.Chains
import LevelDb.Util.Coding
import Mathlib.Data.List.Perm.Subperm

/-!
# The hash table of the cache

`HandleTable` of `util/cache.cc`: buckets, each of which is a list of handles through their `next_hash`. A
pointer to a pointer is a cell, which is a bucket or the `next_hash` of a handle. The table does not own the
handles: `info` reads the key and the hash of the one at an address, or fails. `length_` and `elems_` are
32-bit words, so `Resize` never finds a length for more than `2^31` handles.
-/

namespace LevelDb

open Lib

/-! ## The code -/

/-- `HandleTable`. The cells of the buckets are `list_`; those of handles are their `next_hash`. -/
structure HandleTable where
  /-- `length_` -/
  length : ℕ
  /-- `elems_` -/
  elems : ℕ
  /-- The pointers. -/
  cells : Cells ℕ ℕ

/-- The key and the hash of a handle, if they can be read. -/
abbrev HandleInfo := ℕ → Option (Slice × ℕ)

namespace HandleTable

/-- The number of the bucket of a hash. -/
def bucket (length hash : ℕ) : ℕ := hash &&& (length - 1)

/-- The loop of `FindPointer`. -/
def find (info : HandleInfo) (cells : Cells ℕ ℕ) (key : Slice) (hash : ℕ) : ℕ → Cell ℕ ℕ → Option (Cell ℕ ℕ)
  | 0, _ => none
  | fuel + 1, ptr =>
    match cells ptr with
    | none => some ptr
    | some a =>
      (info a).bind fun (k, h) =>
        if h ≠ hash ∨ key ≠ k then find info cells key hash fuel (.next a) else some ptr

/-- `FindPointer`. A list has at most `elems_` handles. -/
def findPointer (t : HandleTable) (info : HandleInfo) (key : Slice) (hash : ℕ) : Option (Cell ℕ ℕ) :=
  find info t.cells key hash (t.elems + 1) (.head (bucket t.length hash))

/-- `Lookup` -/
def lookup (t : HandleTable) (info : HandleInfo) (key : Slice) (hash : ℕ) : Option (Option ℕ) :=
  (t.findPointer info key hash).map t.cells

/-- The loop of `Resize` for `new_length`. -/
def grow (elems : ℕ) : ℕ → ℕ → Option ℕ
  | 0, _ => none
  | fuel + 1, newLength =>
    if newLength < elems then grow elems fuel (newLength * 2 % 2^32) else some newLength

/-- The loop of `Resize` over the handles of an old bucket, which come to the beginnings of new ones. -/
def moveBucket (info : HandleInfo) (newLength : ℕ) : ℕ → Option ℕ → Cells ℕ ℕ → Option (Cells ℕ ℕ)
  | 0, _, _ => none
  | _ + 1, none, cells => some cells
  | fuel + 1, some a, cells =>
    (info a).bind fun (_, hash) =>
      let ptr : Cell ℕ ℕ := .head (bucket newLength hash)
      moveBucket info newLength fuel (cells (.next a))
        (Function.update (Function.update cells (.next a) (cells ptr)) ptr (some a))

/-- A new array of buckets, with the `next_hash` of the handles. -/
def clearBuckets (cells : Cells ℕ ℕ) : Cells ℕ ℕ
  | .head _ => none
  | .next a => cells (.next a)

/-- `Resize`. The length is doubled 32 times at most before it is 0. -/
def resize (t : HandleTable) (info : HandleInfo) : Option HandleTable :=
  (grow t.elems 32 4).bind fun newLength =>
    ((List.range t.length).foldlM
        (fun cells i => moveBucket info newLength (t.elems + 1) (t.cells (.head i)) cells)
        (clearBuckets t.cells)).map fun cells =>
      { t with length := newLength, cells := cells }

/-- `HandleTable`, after the constructor, which calls `Resize`. -/
def new : HandleTable := ⟨4, 0, fun _ => none⟩

/-- `Insert`, with the handle that it returns. -/
def insert (t : HandleTable) (info : HandleInfo) (a : ℕ) : Option (Option ℕ × HandleTable) :=
  (info a).bind fun (key, hash) =>
    (t.findPointer info key hash).bind fun ptr =>
      let old := t.cells ptr
      let cells := Function.update t.cells (.next a) (old.bind fun old => t.cells (.next old))
      let t := { t with cells := Function.update cells ptr (some a) }
      match old with
      | some _ => some (old, t)
      | none =>
        let t := { t with elems := (t.elems + 1) % 2^32 }
        -- aim for a small average linked list length (<= 1)
        if t.length < t.elems then (t.resize info).map fun t => (old, t) else some (old, t)

/-- `Remove`, with the handle that it returns. -/
def remove (t : HandleTable) (info : HandleInfo) (key : Slice) (hash : ℕ) :
    Option (Option ℕ × HandleTable) :=
  (t.findPointer info key hash).map fun ptr =>
    match t.cells ptr with
    | none => (none, t)
    | some a =>
      (some a,
        { t with
          cells := Function.update t.cells ptr (t.cells (.next a))
          elems := (t.elems + 2^32 - 1) % 2^32 })

/-- The constructor makes the table by `Resize`. -/
theorem resize_nothing (info : HandleInfo) : (⟨0, 0, fun _ => none⟩ : HandleTable).resize info = some new := by
  have hclear : clearBuckets (fun _ => none) = fun _ => none := by
    funext c
    cases c <;> rfl
  unfold resize
  dsimp only
  rw [hclear]
  rfl

/-! ## What the table holds -/

/-- The hash of a handle. -/
def hashAt (info : HandleInfo) (a : ℕ) : ℕ := ((info a).map Prod.snd).getD 0

/-- The table has these handles, and the keys with their hashes are different. -/
structure Has (t : HandleTable) (info : HandleInfo) (l : List ℕ) : Prop where
  /-- Each bucket has the handles that belong to it. -/
  buckets : Buckets t.cells (fun a => bucket t.length (hashAt info a)) {a | a ∈ l}
  /-- The keys and hashes can be read. -/
  readable : ∀ a ∈ l, ∃ k h, info a = some (k, h)
  /-- No handle is there twice. -/
  nodup : l.Nodup
  /-- The keys with their hashes are different. -/
  distinct : ∀ a ∈ l, ∀ b ∈ l, info a = info b → a = b
  /-- `elems_` is the number of handles. -/
  elems : t.elems = l.length
  /-- The number of buckets is a power of 2. -/
  length : ∃ k, 2 ≤ k ∧ k ≤ 31 ∧ t.length = 2^k

/-- Between two operations there are not more handles than buckets. -/
structure Holds (t : HandleTable) (info : HandleInfo) (l : List ℕ) : Prop extends t.Has info l where
  /-- The lists are short on average. -/
  length_le : l.length ≤ t.length

variable {t : HandleTable} {info info' : HandleInfo} {l : List ℕ} {key : Slice} {hash a : ℕ}

/-- Every hash leads to one of the buckets, if there is any. -/
theorem bucket_lt {length : ℕ} (h : 0 < length) (hash : ℕ) : bucket length hash < length := by
  have hle : hash &&& (length - 1) ≤ length - 1 := Nat.and_le_right
  exact lt_of_le_of_lt hle (by omega)

/-- A new table has its first buckets and no handles in them. -/
theorem holds_new (info : HandleInfo) : new.Holds info [] where
  buckets := by
    have hempty : {a : ℕ | a ∈ []} = ∅ := by simp
    rw [hempty]
    exact buckets_empty fun _ => rfl
  readable := by simp
  nodup := List.nodup_nil
  distinct := by simp
  elems := rfl
  length_le := Nat.zero_le _
  length := ⟨2, le_refl _, by decide, rfl⟩

/-- Only the keys and the hashes of the handles in the table matter. -/
theorem Holds.congr (h : t.Holds info l) (hsame : ∀ a ∈ l, info' a = info a) : t.Holds info' l where
  buckets := by
    intro b
    obtain ⟨chain, hleads, hnodup, hmem⟩ := h.buckets b
    refine ⟨chain, hleads, hnodup, fun a => (hmem a).trans (and_congr_right fun ha => ?_)⟩
    unfold hashAt
    dsimp only
    rw [hsame a ha]
  readable a ha := by
    rw [hsame a ha]
    exact h.readable a ha
  nodup := h.nodup
  distinct a ha b hb := by
    rw [hsame a ha, hsame b hb]
    exact h.distinct a ha b hb
  elems := h.elems
  length_le := h.length_le
  length := h.length

/-- A table that holds some handles holds them in any order. -/
theorem Holds.perm {l' : List ℕ} (h : t.Holds info l) (hperm : l.Perm l') : t.Holds info l' where
  buckets := by
    have hset : {a | a ∈ l'} = {a | a ∈ l} := Set.ext fun a => hperm.mem_iff.symm
    rw [hset]
    exact h.buckets
  readable a ha := h.readable a (hperm.mem_iff.mpr ha)
  nodup := hperm.nodup_iff.mp h.nodup
  distinct a ha b hb := h.distinct a (hperm.mem_iff.mpr ha) b (hperm.mem_iff.mpr hb)
  elems := h.elems.trans hperm.length_eq
  length_le := hperm.length_eq ▸ h.length_le
  length := h.length

/-! ## `FindPointer` -/

/-- The loop goes on to the first handle with the key and the hash, or to the end of the list. -/
theorem find_spec {cells : Cells ℕ ℕ} : ∀ {chain : List ℕ} {p : Cell ℕ ℕ} {fuel : ℕ},
    Leads cells (cells p) chain → chain.length < fuel → (∀ a ∈ chain, ∃ k h, info a = some (k, h)) →
    ∃ l₁ l₂, chain = l₁ ++ l₂ ∧ find info cells key hash fuel p = some (behind p l₁) ∧
      (∀ a ∈ l₁, info a ≠ some (key, hash)) ∧ ∀ a, l₂.head? = some a → info a = some (key, hash)
  | [], p, fuel + 1, hleads, _, _ => by
    refine ⟨[], [], rfl, ?_, by simp, by simp⟩
    unfold find
    rw [show cells p = none from hleads]
    rfl
  | a :: chain, p, fuel + 1, hleads, hfuel, hread => by
    obtain ⟨k, h, hinfo⟩ := hread a List.mem_cons_self
    by_cases hfound : h ≠ hash ∨ key ≠ k
    · obtain ⟨l₁, l₂, hchain, hfind, hbefore, hstop⟩ := find_spec hleads.2 (Nat.lt_of_succ_lt_succ hfuel)
        fun b hb => hread b (List.mem_cons_of_mem a hb)
      refine ⟨a :: l₁, l₂, congrArg _ hchain, ?_, ?_, hstop⟩
      · unfold find
        rw [hleads.1]
        dsimp only
        rw [hinfo, Option.bind_some, if_pos hfound]
        exact hfind
      · refine List.forall_mem_cons.mpr ⟨fun heq => ?_, hbefore⟩
        obtain ⟨rfl, rfl⟩ := Prod.mk.inj (Option.some.inj (hinfo.symm.trans heq))
        exact hfound.elim (fun hne => hne rfl) (fun hne => hne rfl)
    · have hsame := not_or.mp hfound
      refine ⟨[], a :: chain, rfl, ?_, by simp, ?_⟩
      · unfold find
        rw [hleads.1]
        dsimp only
        rw [hinfo, Option.bind_some, if_neg hfound]
        rfl
      · intro b hb
        rw [← Option.some.inj hb, hinfo, not_not.mp hsame.1, not_not.mp hsame.2]

/-- `FindPointer` finds the cell in the bucket of the hash that points to the handle with the key, or the
one at the end. -/
theorem Has.findPointer (h : t.Has info l) (key : Slice) (hash : ℕ) :
    ∃ l₁ l₂, Leads t.cells (t.cells (.head (bucket t.length hash))) (l₁ ++ l₂) ∧ (l₁ ++ l₂).Nodup ∧
      (∀ x, x ∈ l₁ ++ l₂ ↔ x ∈ l ∧ bucket t.length (hashAt info x) = bucket t.length hash) ∧
      t.findPointer info key hash = some (behind (.head (bucket t.length hash)) l₁) ∧
      ∀ a, l₂.head? = some a ↔ a ∈ l ∧ info a = some (key, hash) := by
  obtain ⟨chain, hleads, hnodup, hmem⟩ := h.buckets (bucket t.length hash)
  have hsub : ∀ a ∈ chain, a ∈ l := fun a ha => ((hmem a).mp ha).1
  have hlength : chain.length < t.elems + 1 := by
    rw [h.elems]
    exact Nat.lt_succ_of_le (List.subperm_of_subset hnodup hsub).length_le
  obtain ⟨l₁, l₂, rfl, hfind, hbefore, hstop⟩ := find_spec hleads hlength fun a ha => h.readable a (hsub a ha)
  refine ⟨l₁, l₂, hleads, hnodup, hmem, hfind, fun a => ⟨fun ha => ?_, fun ⟨ha, hinfo⟩ => ?_⟩⟩
  · exact ⟨hsub a (List.mem_append_right _ (List.mem_of_mem_head? ha)), hstop a ha⟩
  · have hbucket : bucket t.length (hashAt info a) = bucket t.length hash := by
      unfold hashAt
      rw [hinfo]
      rfl
    -- the handle is in the list of its bucket, and not in front of the cell
    obtain hfront | hrest := List.mem_append.mp ((hmem a).mpr ⟨ha, hbucket⟩)
    · exact absurd hinfo (hbefore a hfront)
    · obtain ⟨b, rest, rfl⟩ := List.exists_cons_of_ne_nil (List.ne_nil_of_mem hrest)
      have hb := hstop b rfl
      have hbl := hsub b (List.mem_append_right _ List.mem_cons_self)
      rw [h.distinct a ha b hbl (hinfo.trans hb.symm)]
      rfl

/-- `Lookup` finds the handle with the key and the hash. -/
theorem Has.lookup (h : t.Has info l) (key : Slice) (hash : ℕ) :
    ∃ r, t.lookup info key hash = some r ∧ ∀ a, r = some a ↔ a ∈ l ∧ info a = some (key, hash) := by
  obtain ⟨l₁, l₂, hleads, -, -, hfind, hfound⟩ := h.findPointer key hash
  refine ⟨l₂.head?, ?_, hfound⟩
  unfold HandleTable.lookup
  rw [hfind, Option.map_some, hleads.append_right.head?_eq]

/-! ## `Resize` -/

/-- The buckets have numbers below `length_`. -/
theorem Has.length_pos (h : t.Has info l) : 0 < t.length := by
  obtain ⟨k, -, -, hlength⟩ := h.length
  rw [hlength]
  exact Nat.two_pow_pos k

/-- The loop for `new_length` finds a power of 2 that is not below `elems_`. -/
theorem grow_spec {elems : ℕ} (helems : elems ≤ 2^31) : ∀ (fuel : ℕ) {k : ℕ}, 2 ≤ k → k ≤ 31 → 31 < k + fuel →
    ∃ k', 2 ≤ k' ∧ k' ≤ 31 ∧ grow elems fuel (2^k) = some (2^k') ∧ elems ≤ 2^k'
  | 0, k, _, hle, hfuel => absurd hfuel (by omega)
  | fuel + 1, k, htwo, hle, hfuel => by
    unfold grow
    split_ifs with hlt
    · have hk : k < 31 := by
        by_contra hnot
        obtain rfl : k = 31 := by omega
        omega
      have hdouble : 2^k * 2 % 2^32 = 2^(k + 1) := by
        rw [← Nat.pow_succ]
        exact Nat.mod_eq_of_lt (Nat.pow_lt_pow_right (by decide) (by omega))
      rw [hdouble]
      exact grow_spec helems fuel (by omega) (by omega) (by omega)
    · exact ⟨k, htwo, hle, rfl, Nat.le_of_not_lt hlt⟩

/-- The handles of an old bucket come to their new ones. -/
theorem moveBucket_spec (newLength : ℕ) : ∀ {chain : List ℕ} {fuel : ℕ} {w : Option ℕ} {cells : Cells ℕ ℕ}
    {moved : Set ℕ}, Leads cells w chain → chain.length < fuel → chain.Nodup →
    (∀ a ∈ chain, a ∉ moved ∧ ∃ k h, info a = some (k, h)) →
    Buckets cells (fun a => bucket newLength (hashAt info a)) moved →
    ∃ cells', moveBucket info newLength fuel w cells = some cells' ∧
      Buckets cells' (fun a => bucket newLength (hashAt info a)) (moved ∪ {a | a ∈ chain}) ∧
      ∀ a, a ∉ chain → cells' (.next a) = cells (.next a)
  | [], fuel + 1, w, cells, moved, hleads, _, _, _, hbuckets => by
    obtain rfl : w = none := hleads
    refine ⟨cells, rfl, ?_, fun _ _ => rfl⟩
    have hset : moved ∪ {a | a ∈ ([] : List ℕ)} = moved := by simp
    rw [hset]
    exact hbuckets
  | a :: chain, fuel + 1, w, cells, moved, hleads, hfuel, hnodup, hnew, hbuckets => by
    obtain ⟨rfl, hleads⟩ := hleads
    obtain ⟨hnot, hnodup⟩ := List.nodup_cons.mp hnodup
    obtain ⟨⟨ha, k, hash, hinfo⟩, hnew⟩ := List.forall_mem_cons.mp hnew
    have hhash : hashAt info a = hash := by
      unfold hashAt
      rw [hinfo]
      rfl
    -- The handle goes to the front of its new bucket. This changes its pointer, which was read before.
    have hpush : Buckets (Function.update (Function.update cells (.next a)
          (cells (.head (bucket newLength (hashAt info a)))))
          (.head (bucket newLength (hashAt info a))) (some a))
        (fun a => bucket newLength (hashAt info a)) {x | x = a ∨ x ∈ moved} :=
      hbuckets.push ha fun _ => Iff.rfl
    rw [hhash] at hpush
    unfold moveBucket
    rw [hinfo, Option.bind_some]
    dsimp only
    generalize hcells : Function.update (Function.update cells (.next a)
      (cells (.head (bucket newLength hash)))) (.head (bucket newLength hash)) (some a) = cells₁ at hpush ⊢
    have hnext : ∀ x, x ≠ a → cells₁ (.next x) = cells (.next x) := by
      intro x hx
      rw [← hcells, Function.update_of_ne (by simp), Function.update_of_ne (fun heq => hx (Cell.next.inj heq))]
    obtain ⟨cells', hmove, hmoved, hsame⟩ := moveBucket_spec newLength
      (hleads.congr fun x hx => hnext x (ne_of_mem_of_not_mem hx hnot)) (Nat.lt_of_succ_lt_succ hfuel) hnodup
      (fun x hx => ⟨fun hin => hin.elim (fun heq => hnot (heq ▸ hx)) (hnew x hx).1,
        (hnew x hx).2⟩) hpush
    refine ⟨cells', hmove, ?_, fun x hx => ?_⟩
    · have hset : moved ∪ {x | x ∈ a :: chain} = {x | x = a ∨ x ∈ moved} ∪ {x | x ∈ chain} := by
        ext x
        simp only [Set.mem_union, Set.mem_ofPred_eq, List.mem_cons]
        tauto
      rw [hset]
      exact hmoved
    · obtain ⟨hxa, hx⟩ := List.ne_and_not_mem_of_not_mem_cons hx
      rw [hsame x hx, hnext x hxa]

/-- `Resize` goes through all old buckets. -/
theorem Has.moveAll (h : t.Has info l) (newLength : ℕ) : ∀ n : ℕ,
    ∃ cells, (List.range n).foldlM
        (fun cells i => moveBucket info newLength (t.elems + 1) (t.cells (.head i)) cells)
        (clearBuckets t.cells) = some cells ∧
      Buckets cells (fun a => bucket newLength (hashAt info a))
        {a | a ∈ l ∧ bucket t.length (hashAt info a) < n} ∧
      ∀ a ∈ l, n ≤ bucket t.length (hashAt info a) → cells (.next a) = t.cells (.next a)
  | 0 => by
    refine ⟨clearBuckets t.cells, rfl, ?_, fun _ _ _ => rfl⟩
    have hset : {a | a ∈ l ∧ bucket t.length (hashAt info a) < 0} = ∅ := by simp
    rw [hset]
    exact buckets_empty fun _ => rfl
  | n + 1 => by
    obtain ⟨cells, hfold, hbuckets, hsame⟩ := h.moveAll newLength n
    obtain ⟨chain, hleads, hnodup, hmem⟩ := h.buckets n
    -- the handles of this bucket have not been touched yet
    have hchain : ∀ a ∈ chain, a ∈ l ∧ bucket t.length (hashAt info a) = n := fun a ha => (hmem a).mp ha
    have hlength : chain.length < t.elems + 1 := by
      rw [h.elems]
      exact Nat.lt_succ_of_le (List.subperm_of_subset hnodup fun a ha => (hchain a ha).1).length_le
    obtain ⟨cells', hmove, hmoved, hothers⟩ := moveBucket_spec newLength
      (hleads.congr fun a ha => hsame a (hchain a ha).1 (hchain a ha).2.ge) hlength hnodup
      (fun a ha => ⟨fun hin => absurd hin.2 (Nat.not_lt.mpr (hchain a ha).2.ge),
        h.readable a (hchain a ha).1⟩) hbuckets
    refine ⟨cells', ?_, ?_, fun a ha hle => ?_⟩
    · rw [List.range_succ, List.foldlM_append, hfold]
      change (moveBucket info newLength (t.elems + 1) (t.cells (.head n)) cells).bind some = _
      rw [Option.bind_fun_some]
      exact hmove
    · have hset : {a | a ∈ l ∧ bucket t.length (hashAt info a) < n + 1} =
          {a | a ∈ l ∧ bucket t.length (hashAt info a) < n} ∪ {a | a ∈ chain} := by
        ext a
        have hin := hmem a
        simp only [Set.mem_union, Set.mem_ofPred_eq] at hin ⊢
        rw [hin, Nat.lt_succ_iff_lt_or_eq]
        tauto
      rw [hset]
      exact hmoved
    · have hnot : a ∉ chain := fun hin => by
        have heq := (hchain a hin).2
        omega
      rw [hothers a hnot, hsame a ha (by omega)]

/-- `Resize` ends and keeps the handles, as long as there are at most `2^31`. -/
theorem Has.resize (h : t.Has info l) (hle : l.length ≤ 2^31) :
    ∃ t', t.resize info = some t' ∧ t'.Holds info l := by
  obtain ⟨k, htwo, hk, hgrow, helems⟩ := grow_spec (h.elems ▸ hle) 32 (le_refl 2) (by decide)
    (by decide)
  obtain ⟨cells, hfold, hbuckets, -⟩ := h.moveAll (2^k) t.length
  have hset : {a | a ∈ l ∧ bucket t.length (hashAt info a) < t.length} = {a | a ∈ l} := by
    ext a
    exact and_iff_left (bucket_lt h.length_pos _)
  rw [hset] at hbuckets
  refine ⟨{ t with length := 2^k, cells := cells }, ?_,
    ⟨⟨hbuckets, h.readable, h.nodup, h.distinct, h.elems, ⟨k, htwo, hk, rfl⟩⟩, h.elems ▸ helems⟩⟩
  unfold HandleTable.resize
  rw [show (4 : ℕ) = 2^2 from rfl, hgrow, Option.bind_some, hfold]
  rfl

/-! ## `Insert` and `Remove` -/

/-- A list without a handle that was displaced. -/
def without (l : List ℕ) (r : Option ℕ) : List ℕ := r.elim l l.erase

/-- What is left of a list without a handle are its other handles. -/
theorem mem_without (hnodup : l.Nodup) (r : Option ℕ) (x : ℕ) : x ∈ without l r ↔ x ∈ l ∧ r ≠ some x := by
  cases r with
  | none => exact (and_iff_left (Option.some_ne_none x).symm).symm
  | some old =>
    change x ∈ l.erase old ↔ _
    rw [hnodup.mem_erase_iff, and_comm]
    refine and_congr_right fun _ => not_congr ?_
    rw [Option.some_inj]
    exact eq_comm

/-- The handles that are left are different. -/
theorem nodup_without (hnodup : l.Nodup) (r : Option ℕ) : (without l r).Nodup := by
  cases r with
  | none => exact hnodup
  | some old => exact hnodup.erase old

/-- A list without one of its handles has one handle less. -/
theorem length_without {r : Option ℕ} (hr : ∀ b, r = some b → b ∈ l) :
    (without l r).length + (if r = none then 0 else 1) = l.length := by
  cases r with
  | none => rfl
  | some old =>
    have hmem := hr old rfl
    change (l.erase old).length + 1 = l.length
    rw [List.length_erase_of_mem hmem]
    have hpos := List.length_pos_of_mem hmem
    omega

/-- `Insert` puts a handle in, and returns the one that had the key and the hash. -/
theorem Holds.insert (h : t.Holds info l) (ha : a ∉ l) (hinfo : info a = some (key, hash))
    (hlength : (∀ b ∈ l, info b ≠ some (key, hash)) → l.length < 2^31) :
    ∃ r t', t.insert info a = some (r, t') ∧ (∀ b, r = some b ↔ b ∈ l ∧ info b = some (key, hash)) ∧
      t'.Holds info (without l r ++ [a]) := by
  obtain ⟨l₁, l₂, hleads, hnodup, hmem, hfind, hfound⟩ := h.findPointer key hash
  have hhash : hashAt info a = hash := by
    unfold hashAt
    rw [hinfo]
    rfl
  have hold : t.cells (behind (.head (bucket t.length hash)) l₁) = l₂.head? := hleads.append_right.head?_eq.symm
  have hmem' : ∀ x, x ∈ without l l₂.head? ++ [a] ↔ x = a ∨ (x ∈ l ∧ l₂.head? ≠ some x) := by
    intro x
    rw [List.mem_append, List.mem_singleton, mem_without h.nodup, or_comm]
  have hput := h.buckets.put hleads hnodup hmem ha (congrArg (bucket t.length) hhash) hmem'
  have hcount := length_without fun b hb => ((hfound b).mp hb).1
  generalize hcells : Function.update (Function.update t.cells (.next a)
    (l₂.head?.bind fun old => t.cells (.next old))) (behind (.head (bucket t.length hash)) l₁) (some a) =
    cells at hput
  -- what holds but for the number of handles
  have hnew : ∀ elems, elems = (without l l₂.head? ++ [a]).length →
      (⟨t.length, elems, cells⟩ : HandleTable).Has info (without l l₂.head? ++ [a]) := by
    intro elems helems
    refine ⟨hput, fun x hx => ?_, ?_, fun x hx y hy heq => ?_, helems, h.length⟩
    · obtain rfl | ⟨hx, -⟩ := (hmem' x).mp hx
      · exact ⟨key, hash, hinfo⟩
      · exact h.readable x hx
    · refine List.nodup_append.mpr ⟨nodup_without h.nodup _, List.nodup_singleton a, fun x hx y hy => ?_⟩
      rw [List.mem_singleton.mp hy]
      exact ne_of_mem_of_not_mem ((mem_without h.nodup _ x).mp hx).1 ha
    · -- the handle that had the key is displaced
      obtain hxa | ⟨hxl, hxne⟩ := (hmem' x).mp hx
      · obtain hya | ⟨hyl, hyne⟩ := (hmem' y).mp hy
        · exact hxa.trans hya.symm
        · exact absurd ((hfound y).mpr ⟨hyl, heq.symm.trans (hxa ▸ hinfo)⟩) hyne
      · obtain hya | ⟨hyl, hyne⟩ := (hmem' y).mp hy
        · exact absurd ((hfound x).mpr ⟨hxl, heq.trans (hya ▸ hinfo)⟩) hxne
        · exact h.distinct x hxl y hyl heq
  refine ⟨l₂.head?, ?_⟩
  unfold HandleTable.insert
  rw [hinfo, Option.bind_some]
  dsimp only
  rw [hfind, Option.bind_some, hold, hcells]
  rw [List.length_append, List.length_singleton] at hnew
  cases hr : l₂.head? with
  | some old =>
    rw [hr] at hnew hcount hfound
    rw [if_neg (Option.some_ne_none old)] at hcount
    exact ⟨_, rfl, hfound, hnew _ (by rw [h.elems]; exact hcount.symm), by
      rw [List.length_append, List.length_singleton]
      exact hcount.trans_le h.length_le⟩
  | none =>
    rw [hr] at hnew hcount hfound
    rw [if_pos rfl, Nat.add_zero] at hcount
    have hlength := hlength fun b hb heq => Option.some_ne_none b ((hfound b).mpr ⟨hb, heq⟩).symm
    have helems : (t.elems + 1) % 2^32 = (without l none).length + 1 := by
      rw [h.elems, hcount]
      exact Nat.mod_eq_of_lt (by omega)
    dsimp only
    rw [helems]
    by_cases hgrow : t.length < (without l none).length + 1
    · obtain ⟨t', hresize, hholds⟩ := (hnew _ rfl).resize (by
        rw [List.length_append, List.length_singleton, hcount]
        omega)
      rw [if_pos hgrow, hresize]
      exact ⟨t', rfl, hfound, hholds⟩
    · rw [if_neg hgrow]
      exact ⟨_, rfl, hfound, hnew _ rfl, by
        rw [List.length_append, List.length_singleton]
        exact Nat.le_of_not_lt hgrow⟩

/-- `Insert` of a handle that the table has already returns it, and changes nothing. -/
theorem Holds.insert_mem (h : t.Holds info l) (ha : a ∈ l) (hinfo : info a = some (key, hash)) :
    t.insert info a = some (some a, t) := by
  obtain ⟨l₁, l₂, hleads, -, -, hfind, hfound⟩ := h.findPointer key hash
  have hold : t.cells (behind (.head (bucket t.length hash)) l₁) = some a :=
    hleads.append_right.head?_eq.symm.trans ((hfound a).mpr ⟨ha, hinfo⟩)
  unfold HandleTable.insert
  rw [hinfo, Option.bind_some]
  dsimp only
  rw [hfind, Option.bind_some, hold]
  dsimp only
  rw [Option.bind_some, Function.update_eq_self, ← hold, Function.update_eq_self]

/-- `Insert` of a new key goes on for ever when there are `2^31` handles: no length is large enough. -/
theorem Holds.insert_full (h : t.Holds info l) (hinfo : info a = some (key, hash))
    (hnew : ∀ b ∈ l, info b ≠ some (key, hash)) (hlength : l.length = 2^31) : t.insert info a = none := by
  obtain ⟨l₁, l₂, hleads, -, -, hfind, hfound⟩ := h.findPointer key hash
  have hold : t.cells (behind (.head (bucket t.length hash)) l₁) = none := by
    rw [hleads.append_right.head?_eq.symm]
    cases hhead : l₂.head? with
    | none => rfl
    | some b =>
      obtain ⟨hb, heq⟩ := (hfound b).mp hhead
      exact absurd heq (hnew b hb)
  obtain ⟨k, -, hk, htable⟩ := h.length
  have hpow : 2^k ≤ 2^31 := Nat.pow_le_pow_right Nat.two_pos hk
  have hgrow : grow (2^31 + 1) 32 4 = none := by decide
  unfold HandleTable.insert
  rw [hinfo, Option.bind_some]
  dsimp only
  rw [hfind, Option.bind_some, hold]
  dsimp only
  rw [h.elems, hlength, show (2^31 + 1) % 2^32 = 2^31 + 1 from rfl, if_pos (by omega)]
  unfold resize
  dsimp only
  rw [hgrow]
  rfl

/-- `Remove` takes the handle with the key and the hash out, and returns it. -/
theorem Holds.remove (h : t.Holds info l) (hlength : l.length < 2^32) (key : Slice) (hash : ℕ) :
    ∃ r t', t.remove info key hash = some (r, t') ∧ (∀ b, r = some b ↔ b ∈ l ∧ info b = some (key, hash)) ∧
      t'.Holds info (without l r) := by
  obtain ⟨l₁, l₂, hleads, hnodup, hmem, hfind, hfound⟩ := h.findPointer key hash
  have hold : t.cells (behind (.head (bucket t.length hash)) l₁) = l₂.head? := hleads.append_right.head?_eq.symm
  refine ⟨l₂.head?, ?_⟩
  unfold HandleTable.remove
  rw [hfind, Option.map_some, hold]
  cases l₂ with
  | nil => exact ⟨t, rfl, hfound, h⟩
  | cons a l₂ =>
    have ha : a ∈ l := ((hfound a).mp rfl).1
    have hmem' : ∀ x, x ∈ l.erase a ↔ x ∈ l ∧ x ≠ a := by
      intro x
      rw [h.nodup.mem_erase_iff, and_comm]
    have hsub : ∀ x ∈ l.erase a, x ∈ l := fun x hx => List.mem_of_mem_erase hx
    have hpos := List.length_pos_of_mem ha
    have hcount := List.length_erase_of_mem ha
    refine ⟨_, rfl, hfound, ⟨h.buckets.takeOut hleads hnodup hmem hmem', fun x hx => h.readable x (hsub x hx),
      h.nodup.erase a, fun x hx y hy => h.distinct x (hsub x hx) y (hsub y hy), ?_, h.length⟩, ?_⟩
    · change (t.elems + 2^32 - 1) % 2^32 = (l.erase a).length
      rw [h.elems, hcount, show l.length + 2^32 - 1 = l.length - 1 + 2^32 by omega, Nat.add_mod_right]
      exact Nat.mod_eq_of_lt (by omega)
    · change (l.erase a).length ≤ t.length
      rw [hcount]
      exact (Nat.sub_le _ _).trans h.length_le

end HandleTable

end LevelDb
