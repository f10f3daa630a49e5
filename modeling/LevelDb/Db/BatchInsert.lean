import LevelDb.Db.MemTableBytes

/-!
# Write batches and memtables

`WriteBatchInternal::InsertInto` with the memtable that it writes to. The memtable gets the operations of the
batch with consecutive sequence numbers: all of them from a batch that was built, and those of the longest
sequence of complete records from any bytes (`BatchRep.batch_exact`). `MemTable::Add` stores the length of the
internal key in 32 bits, so that a user key has to be 8 bytes shorter than a batch can hold.
-/

namespace LevelDb

open Lib

namespace BatchRep

/-! ## The code -/

/-- The key of an operation. -/
def userKey : ByteUpdate → Slice
  | .put key _ => key
  | .delete key => key

/-- `WriteBatchInternal::InsertInto`, with the heights that `RandomHeight` returns: the memtable and the
status. -/
def insertIntoMemTable (rep : BatchRep) (m : MemTable) (height : ℕ → ℕ) :
    Option (MemTable × Except Status Unit) :=
  (m.addAll ((insertInto rep).1.mapIdx fun i a => (a, height i))).map fun m => (m, (insertInto rep).2)

/-! ## What is added -/

/-- The memtable holds the operations with consecutive numbers from `q` on afterwards, if it had no entry with
the key and the number of one of them before. -/
def Adds (rep : BatchRep) (q : ℕ) (us : List ByteUpdate) : Prop :=
  ∀ (m : MemTable) (levels : ℕ → List ℕ) (call : ℕ → AddCall) (done : List AddCall) (height : ℕ → ℕ),
    m.Holds levels call done → m.cmp.TotalPreorder → (∀ i, 0 < height i ∧ height i ≤ kMaxHeight) →
    (∀ b ∈ done, ∀ i u, us[i]? = some u → ¬(m.cmp.Equal b.key (userKey u) ∧ b.sequence = q + i)) →
    ∃ table levels' call', rep.insertIntoMemTable m height =
        some ({ m with table := table }, (insertInto rep).2) ∧
      { m with table := table }.Holds levels' call' (done ++ us.mapIdx fun i u => addCall (q + i) u)

/-- The key and the number of a call are those of the operation. -/
theorem addCall_key (q : ℕ) (u : ByteUpdate) : (addCall q u).key = userKey u ∧ (addCall q u).sequence = q := by
  cases u with
  | put key value => exact ⟨rfl, rfl⟩
  | delete key => exact ⟨rfl, rfl⟩

/-- A call fits, if its number has 56 bits and its internal key a length of 32 bits. -/
theorem fits_addCall {q : ℕ} {u : ByteUpdate} (hq : q < 2^56) (hu : Fits u)
    (hkey : (userKey u).length < 2^32 - 8) : (addCall q u).Fits := by
  cases u with
  | put key value => exact ⟨hq, hkey, hu.2⟩
  | delete key => exact ⟨hq, hkey, Nat.two_pow_pos 32⟩

/-- The calls of `InsertInto` add the operations. -/
theorem adds_of_calls {rep : BatchRep} {q : ℕ} {us : List ByteUpdate}
    (hcalls : (insertInto rep).1 = us.mapIdx fun i u => addCall (q + i) u) (hq : q + us.length ≤ 2^56)
    (hfits : ∀ u ∈ us, Fits u) (hkeys : ∀ u ∈ us, (userKey u).length < 2^32 - 8) : rep.Adds q us := by
  intro m levels call done height hholds hcmp hheight hnew
  generalize hadds : ((insertInto rep).1.mapIdx fun i a => (a, height i)) = adds
  -- The call and the height at an index.
  have hget : ∀ i (hi : i < adds.length), ∃ u, us[i]? = some u ∧
      adds[i] = (addCall (q + i) u, height i) := by
    intro i hi
    subst hadds
    rw [List.length_mapIdx, hcalls, List.length_mapIdx] at hi
    refine ⟨us[i], List.getElem?_eq_getElem hi, ?_⟩
    simp only [List.getElem_mapIdx, hcalls]
  have hlength : adds.length = us.length := by
    rw [← hadds, List.length_mapIdx, hcalls, List.length_mapIdx]
  have hmem : ∀ a ∈ adds, ∃ i u, us[i]? = some u ∧ a = (addCall (q + i) u, height i) := by
    intro a ha
    obtain ⟨i, hi, rfl⟩ := List.getElem_of_mem ha
    obtain ⟨u, hu, hvalue⟩ := hget i hi
    exact ⟨i, u, hu, hvalue⟩
  have haddsFit : ∀ a ∈ adds, a.1.Fits := by
    intro a ha
    obtain ⟨i, u, hu, rfl⟩ := hmem a ha
    obtain ⟨hi, -⟩ := List.getElem?_eq_some_iff.mp hu
    have hmem := List.mem_of_getElem? hu
    exact fits_addCall (by omega) (hfits u hmem) (hkeys u hmem)
  have hheights : ∀ a ∈ adds, 0 < a.2 ∧ a.2 ≤ kMaxHeight := by
    intro a ha
    obtain ⟨i, u, -, rfl⟩ := hmem a ha
    exact hheight i
  -- Two calls have different numbers.
  have hdistinct : adds.Pairwise fun a b => ¬(m.cmp.Equal a.1.key b.1.key ∧ a.1.sequence = b.1.sequence) := by
    rw [List.pairwise_iff_getElem]
    intro i j hi hj hij heq
    obtain ⟨u, -, hu⟩ := hget i hi
    obtain ⟨v, -, hv⟩ := hget j hj
    rw [hu, hv] at heq
    have hsequence := heq.2
    rw [(addCall_key _ u).2, (addCall_key _ v).2] at hsequence
    omega
  obtain ⟨table, levels', call', hall, hholds'⟩ :=
    hholds.addAll hcmp haddsFit hheights hdistinct fun b hb a ha => by
      obtain ⟨i, u, hu, rfl⟩ := hmem a ha
      rw [(addCall_key _ u).1, (addCall_key _ u).2]
      exact hnew b hb i u hu
  have hfst : adds.map Prod.fst = us.mapIdx fun i u => addCall (q + i) u := by
    rw [← hadds, ← hcalls]
    exact List.ext_getElem (by simp) fun i _ _ => by simp
  rw [hfst] at hholds'
  refine ⟨table, levels', call', ?_, hholds'⟩
  unfold insertIntoMemTable
  rw [hadds, hall, Option.map_some]

/-- What batches mean: those that were built mean their operations, and any bytes mean the longest sequence of
complete records. Both add them to a memtable, if their keys are not too long. -/
theorem batch_exact :
    (∀ us : List ByteUpdate, (∀ u ∈ us, Fits u) → us.length < 2^31 →
      iterate (build us) = (us, .ok ()) ∧ count (build us) = us.length ∧
        ∀ q, q + us.length ≤ 2^56 →
          insertInto (setSequence (build us) q) = (us.mapIdx fun i u => addCall (q + i) u, .ok ()) ∧
          ((∀ u ∈ us, (userKey u).length < 2^32 - 8) → (setSequence (build us) q).Adds q us)) ∧
    ∀ rep : BatchRep, 12 ≤ rep.length → sequence rep < 2^55 →
      (∀ us word rest, SpellsAll SpellsRecord us word → rep.drop 12 = word ++ rest →
        us.length < 2^31) →
      ∃ us rest, CompleteRecords (rep.drop 12) us rest ∧
        (insertInto rep).1 = us.mapIdx (fun i u => addCall (sequence rep + i) u) ∧
        ((insertInto rep).2 = .ok () ↔ rest = [] ∧ us.length = headerCount rep) ∧
        ((∀ u ∈ us, (userKey u).length < 2^32 - 8) → rep.Adds (sequence rep) us) := by
  constructor
  · intro us hfits hlen
    obtain ⟨hiterate, hcount, hinsert⟩ := iterate_build hfits hlen
    refine ⟨hiterate, hcount, fun q hq => ⟨hinsert q hq, fun hkeys => ?_⟩⟩
    exact adds_of_calls (congrArg Prod.fst (hinsert q hq)) hq hfits hkeys
  · intro rep hlen hseq hcount
    obtain ⟨us, rest, hcomplete, hcalls, hstatus⟩ := insertInto_spec hlen hseq hcount
    refine ⟨us, rest, hcomplete, hcalls, hstatus, fun hkeys => ?_⟩
    obtain ⟨word, hword, hinput⟩ := hcomplete.spelled
    have hus := hcount us word rest hword hinput
    exact adds_of_calls hcalls (by omega) (fits_of_spellsAll hword) hkeys

/-- A batch with the sequence number 100 whose last record is cut off adds the two operations before it. -/
def tornBatch : BatchRep :=
  setSequence (build [.put (ascii "foo") (ascii "bar"), .delete (ascii "box")]) 100 ++ [1, 3, 98]

/-- The operations that a batch was built from, and those before the torn record, come into a memtable. -/
theorem batch_exact_example :
    (insertInto tornBatch).1 =
      [⟨100, .value, ascii "foo", ascii "bar"⟩, ⟨101, .deletion, ascii "box", []⟩] ∧
    (insertInto tornBatch).2 = .error (.corruption (ascii "bad WriteBatch Put")) ∧
    iterate (build [.put (ascii "foo") (ascii "bar")]) = ([.put (ascii "foo") (ascii "bar")], .ok ()) ∧
    (∃ m levels call, (setSequence (build [.put (ascii "foo") (ascii "bar")]) 7).insertIntoMemTable
        ⟨bytewiseComparator, {}⟩ (fun _ => 2) = some (m, .ok ()) ∧
      m.Holds levels call [⟨7, .value, ascii "foo", ascii "bar"⟩]) ∧
    ∃ m levels call, tornBatch.insertIntoMemTable ⟨bytewiseComparator, {}⟩ (fun _ => 1) =
        some (m, .error (.corruption (ascii "bad WriteBatch Put"))) ∧
      m.Holds levels call
        [⟨100, .value, ascii "foo", ascii "bar"⟩, ⟨101, .deletion, ascii "box", []⟩] := by
  have hempty := MemTable.holds_new bytewiseComparator fun _ => ⟨0, .value, [], []⟩
  have hcmp := bytewiseComparator_totalOrder.toTotalPreorder
  obtain ⟨hiterate, -, hinsert⟩ :=
    batch_exact.1 [.put (ascii "foo") (ascii "bar")] (by decide) (by decide)
  obtain ⟨hcalls, hadds⟩ := hinsert 7 (by decide)
  have hstatus : (insertInto tornBatch).2 = .error (.corruption (ascii "bad WriteBatch Put")) := by decide
  refine ⟨by decide, hstatus, hiterate, ?_, ?_⟩
  · obtain ⟨table, levels, call, hm, hholds⟩ := hadds (by decide) _ _ _ _ (fun _ => 2) hempty hcmp
      (fun _ => by decide) fun b hb => absurd hb List.not_mem_nil
    rw [hcalls] at hm
    exact ⟨_, levels, call, hm, hholds⟩
  · obtain ⟨us, rest, -, hcalls', -, hadds'⟩ := batch_exact.2 tornBatch (by decide) (by decide)
      fun us word rest hword hinput => by
        have hle := hword.length_le SpellsRecord.ne_nil
        have hlength := congrArg List.length hinput
        rw [show (tornBatch.drop 12).length = 17 by decide, List.length_append] at hlength
        omega
    have hshort : ∀ a ∈ (insertInto tornBatch).1, a.key.length < 2^32 - 8 := by decide
    have hkeys : ∀ u ∈ us, (userKey u).length < 2^32 - 8 := by
      intro u hu
      obtain ⟨i, hi, rfl⟩ := List.getElem_of_mem hu
      have ha : addCall (sequence tornBatch + i) us[i] ∈ (insertInto tornBatch).1 := by
        rw [hcalls']
        exact List.mem_mapIdx.mpr ⟨i, hi, rfl⟩
      have hkey := hshort _ ha
      rwa [(addCall_key _ _).1] at hkey
    obtain ⟨table, levels, call, hm, hholds⟩ := hadds' hkeys _ _ _ _ (fun _ => 1) hempty hcmp
      (fun _ => by decide) fun b hb => absurd hb List.not_mem_nil
    rw [hstatus] at hm
    rw [← hcalls'] at hholds
    exact ⟨_, levels, call, hm, hholds⟩

/-- A key whose length wraps around to 0 with the 8 bytes of the tag is stored as an empty one. -/
theorem getLengthPrefixedSlice_long_key {a : AddCall} (h : (a.key.length + 8) % 2^32 = 0) :
    ∃ rest, getLengthPrefixedSlice a.encode = some ([], rest) := by
  unfold AddCall.encode
  rw [h]
  generalize a.internalKey ++ _ = rest
  have hempty : ([] : Slice).length < 2^32 := Nat.two_pow_pos 32
  exact ⟨rest, getLengthPrefixedSlice_put hempty rest⟩

/-- The iterator over a memtable into which an operation with such a key was inserted does not show the
operation. -/
theorem insert_long_key {key : Slice} (hwrap : (key.length + 8) % 2^32 = 0) (hlt : key.length < 2^32) :
    ∃ m, (setSequence (build [.delete key]) 7).insertIntoMemTable ⟨bytewiseComparator, {}⟩ (fun _ => 1) =
        some (m, .ok ()) ∧
      (m.iterCalls [.seekToFirst]).bind m.iterObserve ≠
        some (some ((addCall 7 (.delete key)).internalKey, []), none) := by
  have hfits : ∀ u ∈ [(Update.delete key : ByteUpdate)], Fits u := by
    intro u hu
    rw [List.mem_singleton.mp hu]
    exact hlt
  have hinsert := (iterate_build hfits (by simp)).2.2 7 (by simp)
  have hcompare : ∀ n ∈ ([] : List ℕ), ∀ node, ({} : SkipList Slice).nodes n = some node →
      SkipList.less (keyComparator bytewiseComparator) (addCall 7 (.delete key)).encode node.key = some true :=
    fun n hn => absurd hn List.not_mem_nil
  obtain ⟨table, levels, htable, hshape, hlevel, hnodes⟩ :=
    SkipList.shape_empty.insert hcompare List.Pairwise.nil Nat.one_pos (by decide)
  have hadd : (⟨bytewiseComparator, {}⟩ : MemTable).add (addCall 7 (.delete key)) 1 =
      some ⟨bytewiseComparator, table⟩ := by
    unfold MemTable.add
    rw [htable, Option.map_some]
  have hall : (⟨bytewiseComparator, {}⟩ : MemTable).addAll [(addCall 7 (.delete key), 1)] =
      some ⟨bytewiseComparator, table⟩ := by
    unfold MemTable.addAll
    rw [List.foldlM_cons, hadd]
    rfl
  refine ⟨⟨bytewiseComparator, table⟩, ?_, ?_⟩
  · unfold insertIntoMemTable
    rw [hinsert]
    simp only [List.mapIdx_cons, List.mapIdx_nil, Nat.add_zero, hall, Option.map_some]
  · -- There is one node, whose key is read as an empty one.
    have hfirst : (⟨bytewiseComparator, table⟩ : MemTable).iterCalls [.seekToFirst] = some (some 0) := by
      change (table.iterSeekToFirst.bind fun n => some n) = _
      rw [hshape.iterSeekToFirst, hlevel]
      rfl
    have hnode : table.nodes 0 = some ⟨(addCall 7 (.delete key)).encode, 1⟩ := by
      rw [hnodes]
      exact Function.update_self ..
    obtain ⟨rest, hrest⟩ := getLengthPrefixedSlice_long_key (a := addCall 7 (.delete key)) hwrap
    rw [hfirst, Option.bind_some]
    intro hshows
    obtain ⟨kv, hentry, hkv⟩ := Option.map_eq_some_iff.mp hshows
    obtain ⟨node, hnode', hread⟩ := Option.bind_eq_some_iff.mp hentry
    obtain rfl := Option.some.inj (hnode.symm.trans hnode')
    dsimp only at hread
    rw [hrest, Option.bind_some] at hread
    obtain ⟨value, -, rfl⟩ := Option.map_eq_some_iff.mp hread
    have hkey := congrArg List.length (Prod.mk.inj (Option.some.inj (Prod.mk.inj hkv).1)).1
    rw [AddCall.length_internalKey] at hkey
    exact absurd hkey.symm (Nat.succ_ne_zero _)

/-- A value of `2^32` bytes is lost, a batch of `2^31` deletions has a negative count, and a key of `2^32 - 8`
bytes does not come into the memtable. -/
theorem long_batch_not_exact :
    iterate (build [.put [] (List.replicate (2^32) 255)]) ≠
      ([.put [] (List.replicate (2^32) 255)], .ok ()) ∧
    count (build (List.replicate (2^31) (.delete []))) = -2^31 ∧
    ∃ m, (setSequence (build [.delete (List.replicate (2^32 - 8) 0)]) 7).insertIntoMemTable
        ⟨bytewiseComparator, {}⟩ (fun _ => 1) = some (m, .ok ()) ∧
      (m.iterCalls [.seekToFirst]).bind m.iterObserve ≠
        some (some ((addCall 7 (.delete (List.replicate (2^32 - 8) 0))).internalKey, []), none) := by
  refine ⟨iterate_long_value (Nat.mod_self _) (Nat.two_pow_pos 32), count_many (by decide) _,
    insert_long_key ?_ ?_⟩
  · rw [List.length_replicate, Nat.sub_add_cancel (by decide), Nat.mod_self]
  · rw [List.length_replicate]
    exact Nat.sub_lt (Nat.two_pow_pos 32) (by decide)

end BatchRep

end LevelDb
