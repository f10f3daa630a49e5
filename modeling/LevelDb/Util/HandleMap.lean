import LevelDb.Util.HandleTable
import Mathlib.Data.Set.Card

/-!
# The hash table as a map

When a key always comes with the same hash, the hash table of the cache is a finite map from keys to handles
(`HandleTable.finite_map`), whatever the hashes are. It has room for `2^31` keys.
-/

namespace LevelDb

open Lib

/-! ## Calls -/

/-- A call. A handle has its key and its hash. -/
inductive TableCall
  /-- `Insert` -/
  | insert (h : ℕ)
  /-- `Lookup` -/
  | lookup (key : Slice)
  /-- `Remove` -/
  | remove (key : Slice)

namespace HandleTable

/-- The keys of the handles, with their hashes. -/
def pairs (keyOf : ℕ → Slice) (hashOf : Slice → ℕ) : HandleInfo := fun h => some (keyOf h, hashOf (keyOf h))

/-- A call on the table, and the handle that it returns. -/
def call (keyOf : ℕ → Slice) (hashOf : Slice → ℕ) (t : HandleTable) : TableCall → Option (Option ℕ × HandleTable)
  | .insert h => t.insert (pairs keyOf hashOf) h
  | .lookup key => (t.lookup (pairs keyOf hashOf) key (hashOf key)).map fun r => (r, t)
  | .remove key => t.remove (pairs keyOf hashOf) key (hashOf key)

/-- A sequence of calls, and what they return. -/
def calls (keyOf : ℕ → Slice) (hashOf : Slice → ℕ) (t : HandleTable) (cs : List TableCall) :
    Option (List (Option ℕ) × HandleTable) :=
  cs.foldlM (fun (rs, t) c => (t.call keyOf hashOf c).map fun (r, t) => (rs ++ [r], t)) ([], t)

/-! ## The map -/

/-- A call on a map from keys to handles, and the handle that it returns. -/
def mapCall (keyOf : ℕ → Slice) (m : Slice → Option ℕ) : TableCall → Option ℕ × (Slice → Option ℕ)
  | .insert h => (m (keyOf h), Function.update m (keyOf h) (some h))
  | .lookup key => (m key, m)
  | .remove key => (m key, Function.update m key none)

/-- A sequence of calls on a map. -/
def mapCalls (keyOf : ℕ → Slice) (m : Slice → Option ℕ) (cs : List TableCall) :
    List (Option ℕ) × (Slice → Option ℕ) :=
  cs.foldl (fun (rs, m) c => (rs ++ [(mapCall keyOf m c).1], (mapCall keyOf m c).2)) ([], m)

/-- The keys of a map. -/
def keys (m : Slice → Option ℕ) : Set Slice := {key | (m key).isSome}

/-- The map never has more than `2^31` keys. -/
def Small (keyOf : ℕ → Slice) : (Slice → Option ℕ) → List TableCall → Prop
  | _, [] => True
  | m, c :: cs => (keys (mapCall keyOf m c).2).ncard ≤ 2^31 ∧ Small keyOf (mapCall keyOf m c).2 cs

/-- The table has the entries of a map, each in the bucket of its hash. -/
structure Represents (keyOf : ℕ → Slice) (hashOf : Slice → ℕ) (t : HandleTable) (m : Slice → Option ℕ) : Prop where
  /-- `elems_` is the number of entries. -/
  elems : t.elems = (keys m).ncard
  /-- `length_` is a power of 2, and at least 4. -/
  length : ∃ k, 2 ≤ k ∧ t.length = 2^k
  /-- The list of a bucket has the entries with hashes that lead to it, each once. -/
  bucket : ∀ b, ∃ l, Leads t.cells (t.cells (.head b)) l ∧ l.Nodup ∧
    ∀ h, h ∈ l ↔ m (keyOf h) = some h ∧ hashOf (keyOf h) &&& (t.length - 1) = b

/-- The handles of a map. -/
structure Lists (keyOf : ℕ → Slice) (m : Slice → Option ℕ) (l : List ℕ) : Prop where
  /-- The map has these handles, at their keys. -/
  mem_iff : ∀ {key : Slice} {h : ℕ}, m key = some h ↔ h ∈ l ∧ keyOf h = key

variable {keyOf : ℕ → Slice} {hashOf : Slice → ℕ} {t : HandleTable} {m : Slice → Option ℕ} {l : List ℕ}

/-- The keys of a map are those of its handles. -/
theorem Lists.keys_eq (h : Lists keyOf m l) : keys m = keyOf '' {a | a ∈ l} := by
  ext key
  unfold keys
  simp only [Set.mem_ofPred_eq, Set.mem_image, Option.isSome_iff_exists]
  exact ⟨fun ⟨a, ha⟩ => ⟨a, h.mem_iff.mp ha⟩, fun ⟨a, ha⟩ => ⟨a, h.mem_iff.mpr ha⟩⟩

/-- Different handles of a map have different keys. -/
theorem Lists.eq_of_key (h : Lists keyOf m l) {a b : ℕ} (ha : a ∈ l) (hb : b ∈ l) (hkey : keyOf a = keyOf b) :
    a = b :=
  Option.some.inj ((h.mem_iff.mpr ⟨ha, rfl⟩).symm.trans (h.mem_iff.mpr ⟨hb, hkey.symm⟩))

/-- There are as many keys as handles. -/
theorem Lists.ncard_keys (h : Lists keyOf m l) (hnodup : l.Nodup) : (keys m).ncard = l.length := by
  have hinj : Set.InjOn keyOf {a | a ∈ l} := fun a ha b hb hkey => h.eq_of_key ha hb hkey
  have hset : {a | a ∈ l} = (l.toFinset : Set ℕ) := by
    ext a
    simp
  rw [h.keys_eq, hinj.ncard_image, hset, Set.ncard_coe_finset, List.toFinset_card_of_nodup hnodup]

/-- What a table holds as a map. -/
theorem Lists.represents (h : Lists keyOf m l) (ht : t.Holds (pairs keyOf hashOf) l) :
    t.Represents keyOf hashOf m where
  elems := ht.elems.trans (h.ncard_keys ht.nodup).symm
  length := by
    obtain ⟨k, hk, -, hlength⟩ := ht.length
    exact ⟨k, hk, hlength⟩
  bucket b := by
    obtain ⟨chain, hleads, hnodup, hmem⟩ := ht.buckets b
    refine ⟨chain, hleads, hnodup, fun a => (hmem a).trans (and_congr_left fun _ => ?_)⟩
    rw [h.mem_iff]
    exact (and_iff_left rfl).symm

/-- The map without keys has no handles to list. -/
theorem lists_empty (keyOf : ℕ → Slice) : Lists keyOf (fun _ => none) [] where
  mem_iff := iff_of_false (fun h => absurd h.symm (Option.some_ne_none _)) fun h => List.not_mem_nil h.1

/-- What the table finds for a key is what the map has. -/
theorem Lists.result_eq (h : Lists keyOf m l) {key : Slice} {r : Option ℕ}
    (hr : ∀ a, r = some a ↔ a ∈ l ∧ pairs keyOf hashOf a = some (key, hashOf key)) : r = m key := by
  ext a
  rw [hr, h.mem_iff]
  refine and_congr_right fun _ => ?_
  unfold pairs
  rw [Option.some_inj, Prod.mk.injEq]
  exact ⟨And.left, fun hkey => ⟨hkey, congrArg hashOf hkey⟩⟩

/-- An insertion puts a handle in the place of the one with its key. -/
theorem Lists.insert (h : Lists keyOf m l) (hnodup : l.Nodup) (a : ℕ) :
    Lists keyOf (Function.update m (keyOf a) (some a)) (without l (m (keyOf a)) ++ [a]) := by
  constructor
  intro key b
  rw [List.mem_append, List.mem_singleton, mem_without hnodup]
  by_cases hkey : key = keyOf a
  · rw [hkey, Function.update_self, Option.some_inj]
    constructor
    · rintro rfl
      exact ⟨Or.inr rfl, rfl⟩
    · rintro ⟨⟨hb, hne⟩ | rfl, hsame⟩
      · exact absurd (h.mem_iff.mpr ⟨hb, hsame⟩) hne
      · rfl
  · rw [Function.update_of_ne hkey, h.mem_iff]
    constructor
    · rintro ⟨hb, rfl⟩
      exact ⟨Or.inl ⟨hb, fun hold => hkey (h.mem_iff.mp hold).2⟩, rfl⟩
    · rintro ⟨⟨hb, -⟩ | rfl, hsame⟩
      · exact ⟨hb, hsame⟩
      · exact absurd hsame.symm hkey

/-- A removal takes the handle with the key out. -/
theorem Lists.remove (h : Lists keyOf m l) (hnodup : l.Nodup) (key : Slice) :
    Lists keyOf (Function.update m key none) (without l (m key)) := by
  constructor
  intro key' b
  rw [mem_without hnodup]
  by_cases hkey : key' = key
  · rw [hkey, Function.update_self]
    refine iff_of_false (Option.some_ne_none b).symm ?_
    rintro ⟨⟨hb, hne⟩, hsame⟩
    exact hne (h.mem_iff.mpr ⟨hb, hsame⟩)
  · rw [Function.update_of_ne hkey, h.mem_iff]
    constructor
    · rintro ⟨hb, rfl⟩
      exact ⟨⟨hb, fun hold => hkey (h.mem_iff.mp hold).2⟩, rfl⟩
    · rintro ⟨⟨hb, -⟩, hsame⟩
      exact ⟨hb, hsame⟩

/-- A handle with a new key makes one more key. -/
theorem Lists.length_lt_ncard_keys (h : Lists keyOf m l) (hnodup : l.Nodup) {a : ℕ} (ha : a ∉ l)
    (hnew : ∀ b ∈ l, keyOf b ≠ keyOf a) :
    l.length < (keys (Function.update m (keyOf a) (some a))).ncard := by
  have hnone : m (keyOf a) = none := by
    rw [Option.eq_none_iff_forall_ne_some]
    intro b hb
    obtain ⟨hb, hkey⟩ := h.mem_iff.mp hb
    exact hnew b hb hkey
  have hwithout : without l none = l := rfl
  have hlists := h.insert hnodup a
  rw [hnone, hwithout] at hlists
  have hnodup' : (l ++ [a]).Nodup :=
    List.nodup_append.mpr ⟨hnodup, List.nodup_singleton a, fun b hb b' hb' => by
      rw [List.mem_singleton.mp hb']
      exact ne_of_mem_of_not_mem hb ha⟩
  have hcount := hlists.ncard_keys hnodup'
  rw [List.length_append, List.length_singleton] at hcount
  omega

/-- A call returns what the map has, and changes the table as it changes the map. -/
theorem Lists.call (h : Lists keyOf m l) (ht : t.Holds (pairs keyOf hashOf) l) {c : TableCall}
    (hsmall : (keys (mapCall keyOf m c).2).ncard ≤ 2^31) :
    ∃ t' l', t.call keyOf hashOf c = some ((mapCall keyOf m c).1, t') ∧
      Lists keyOf (mapCall keyOf m c).2 l' ∧ t'.Holds (pairs keyOf hashOf) l' := by
  cases c with
  | insert a =>
    unfold HandleTable.call mapCall
    dsimp only
    by_cases ha : a ∈ l
    · have hmap : m (keyOf a) = some a := h.mem_iff.mpr ⟨ha, rfl⟩
      refine ⟨t, l, ?_, ?_, ht⟩
      · rw [hmap]
        exact ht.insert_mem ha rfl
      · rw [← hmap, Function.update_eq_self]
        exact h
    -- A new key makes the map larger, so the bound on the map is one on the list.
    · obtain ⟨r, t', hinsert, hr, hholds⟩ := ht.insert ha (rfl : pairs keyOf hashOf a = _) fun hnew => by
        have hlt := h.length_lt_ncard_keys ht.nodup ha fun b hb hkey => hnew b hb (by
          unfold pairs
          rw [hkey])
        have hle : (keys (Function.update m (keyOf a) (some a))).ncard ≤ 2^31 := hsmall
        omega
      obtain rfl := h.result_eq hr
      exact ⟨t', _, hinsert, h.insert ht.nodup a, hholds⟩
  | lookup key =>
    obtain ⟨r, hlookup, hr⟩ := ht.lookup key (hashOf key)
    obtain rfl := h.result_eq hr
    refine ⟨t, l, ?_, h, ht⟩
    unfold HandleTable.call
    dsimp only
    rw [hlookup]
    rfl
  | remove key =>
    have hlength : l.length < 2^32 := by
      obtain ⟨k, -, hk, hlength⟩ := ht.length
      have hle := ht.length_le
      have hpow : 2^k ≤ 2^31 := Nat.pow_le_pow_right Nat.two_pos hk
      omega
    obtain ⟨r, t', hremove, hr, hholds⟩ := ht.remove hlength key (hashOf key)
    obtain rfl := h.result_eq hr
    exact ⟨t', _, hremove, h.remove ht.nodup key, hholds⟩

/-- Sequences of calls return the same on the table and on the map. -/
theorem Lists.calls : ∀ (cs : List TableCall) {t : HandleTable} {m : Slice → Option ℕ} {l : List ℕ}
    (rs : List (Option ℕ)), Lists keyOf m l → t.Holds (pairs keyOf hashOf) l → Small keyOf m cs →
    ∃ t' l', cs.foldlM (fun (rs, t) c => (t.call keyOf hashOf c).map fun (r, t) => (rs ++ [r], t)) (rs, t) =
        some ((cs.foldl (fun (rs, m) c => (rs ++ [(mapCall keyOf m c).1], (mapCall keyOf m c).2)) (rs, m)).1, t') ∧
      Lists keyOf
        (cs.foldl (fun (rs, m) c => (rs ++ [(mapCall keyOf m c).1], (mapCall keyOf m c).2)) (rs, m)).2 l' ∧
      t'.Holds (pairs keyOf hashOf) l'
  | [], t, _, l, _, h, ht, _ => ⟨t, l, rfl, h, ht⟩
  | c :: cs, _, _, _, rs, h, ht, hsmall => by
    obtain ⟨t', l', hcall, h', ht'⟩ := h.call ht hsmall.1
    rw [List.foldlM_cons]
    dsimp only
    rw [hcall]
    exact Lists.calls cs _ h' ht' hsmall.2

/-- The hash table is a finite map: every sequence of calls returns the same on both, if there are never more
than `2^31` keys, and the table has the entries of the map. -/
theorem finite_map (keyOf : ℕ → Slice) (hashOf : Slice → ℕ) {cs : List TableCall}
    (hsmall : Small keyOf (fun _ => none) cs) :
    ∃ t, new.calls keyOf hashOf cs = some ((mapCalls keyOf (fun _ => none) cs).1, t) ∧
      t.Represents keyOf hashOf (mapCalls keyOf (fun _ => none) cs).2 := by
  obtain ⟨t, l, hcalls, h, ht⟩ := (lists_empty keyOf).calls cs [] (holds_new (pairs keyOf hashOf)) hsmall
  exact ⟨t, hcalls, h.represents ht⟩

/-- Two handles of a key and one of another key, all with hash 0. -/
theorem finite_map_example :
    let keyOf : ℕ → Slice := fun h => if h = 3 then [98] else [97]
    let cs : List TableCall := [.insert 1, .insert 3, .insert 2, .lookup [97], .remove [98]]
    ∃ t, new.calls keyOf (fun _ => 0) cs = some ([none, none, some 1, some 2, some 3], t) ∧
      t.Represents keyOf (fun _ => 0) (mapCalls keyOf (fun _ => none) cs).2 := by
  intro keyOf cs
  have hsub : ∀ m : Slice → Option ℕ, (∀ key, key ≠ [97] → key ≠ [98] → m key = none) →
      (keys m).ncard ≤ 2^31 := by
    intro m hm
    have hkeys : keys m ⊆ {[97], [98]} := by
      intro key hkey
      by_contra hnot
      simp only [Set.mem_insert_iff, Set.mem_singleton_iff, not_or] at hnot
      unfold keys at hkey
      rw [Set.mem_ofPred_eq, hm key hnot.1 hnot.2] at hkey
      cases hkey
    have hle := Set.ncard_le_ncard hkeys (Set.toFinite _)
    have hpair := Set.ncard_pair (a := ([97] : Slice)) (b := [98]) (by decide)
    omega
  have hsmall : Small keyOf (fun _ => none) cs := by
    refine ⟨hsub _ ?_, hsub _ ?_, hsub _ ?_, hsub _ ?_, hsub _ ?_, trivial⟩ <;> intro key h97 h98 <;>
      simp [mapCall, keyOf, Function.update, h97, h98]
  exact finite_map keyOf (fun _ => 0) hsmall

/-- Handles with different keys fill the table. -/
theorem exists_filled {keyOf : ℕ → Slice} (hinj : Function.Injective keyOf) (hashOf : Slice → ℕ) :
    ∀ n, n ≤ 2^31 → ∃ rs t, new.calls keyOf hashOf ((List.range n).map .insert) = some (rs, t) ∧
      t.Holds (pairs keyOf hashOf) (List.range n)
  | 0, _ => ⟨[], new, rfl, holds_new _⟩
  | n + 1, hn => by
    obtain ⟨rs, t, hcalls, ht⟩ := exists_filled hinj hashOf n (Nat.le_of_succ_le hn)
    have hnot : n ∉ List.range n := List.not_mem_range_self
    have hnew : ∀ b ∈ List.range n, pairs keyOf hashOf b ≠ some (keyOf n, hashOf (keyOf n)) := by
      intro b hb heq
      obtain ⟨hkey, -⟩ := Prod.mk.inj (Option.some.inj heq)
      exact hnot (hinj hkey ▸ hb)
    obtain ⟨r, t', hinsert, hr, ht'⟩ := ht.insert hnot (rfl : pairs keyOf hashOf n = _) fun _ => by
      rw [List.length_range]
      exact hn
    have hnone : r = none := by
      rw [Option.eq_none_iff_forall_ne_some]
      intro b hb
      obtain ⟨hmem, heq⟩ := (hr b).mp hb
      exact hnew b hmem heq
    subst hnone
    unfold HandleTable.calls at hcalls ⊢
    rw [List.range_succ, List.map_append, List.foldlM_append, hcalls]
    refine ⟨rs ++ [none], t', ?_, ht'⟩
    rw [Option.bind_eq_bind, Option.bind_some, List.map_singleton, List.foldlM_cons]
    change ((t.insert (pairs keyOf hashOf) n).map _).bind _ = _
    rw [hinsert]
    rfl

/-- Inserting `2^31 + 1` keys does not come to an end. -/
theorem resize_goes_on : ¬∀ (keyOf : ℕ → Slice) (hashOf : Slice → ℕ) (cs : List TableCall),
    ∃ rs t, new.calls keyOf hashOf cs = some (rs, t) := by
  intro hall
  have hinj : Function.Injective fun n => (List.replicate n 0 : Slice) := fun a b hab => by
    have hlength := congrArg List.length hab
    dsimp only at hlength
    rwa [List.length_replicate, List.length_replicate] at hlength
  generalize hn : 2^31 = n
  obtain ⟨rs, t, hcalls, ht⟩ := exists_filled hinj (fun _ => 0) n hn.ge
  obtain ⟨rs', t', hmore⟩ := hall (fun n => List.replicate n 0) (fun _ => 0) ((List.range (n + 1)).map .insert)
  have hfull := ht.insert_full (a := n) rfl (fun b hb heq => by
    obtain ⟨hkey, -⟩ := Prod.mk.inj (Option.some.inj heq)
    exact List.not_mem_range_self (hinj hkey ▸ hb)) (List.length_range.trans hn.symm)
  unfold HandleTable.calls at hcalls hmore
  rw [List.range_succ, List.map_append, List.foldlM_append, hcalls, Option.bind_eq_bind, Option.bind_some,
    List.map_singleton, List.foldlM_cons] at hmore
  change ((t.insert (pairs _ _) n).map _).bind _ = _ at hmore
  rw [hfull] at hmore
  cases hmore

end HandleTable

end LevelDb
