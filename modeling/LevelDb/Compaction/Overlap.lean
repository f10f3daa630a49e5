import LevelDb.Compaction.Failure
import LevelDb.Version.Selection

/-!
# The overlap of outputs with grandparents

`DoCompactionWork` cuts an output when `Compaction::ShouldStopBefore` says that too many bytes of the
level after the next one lie under it, and also when the output is big enough. The running count goes
on across entries that are dropped and is reset even when no output is open. For every pattern of
drops and cuts, what lies under a finished output between its first and its last key is within
`kMaxGrandParentOverlapBytes`, as long as the count, an `int64_t`, does not overflow.
-/

namespace LevelDb

open Lib

variable {K V : Type} [LinearOrder K]

/-! ## The cuts of the loop -/

/-- A round of the loop of `DoCompactionWork`, as far as it cuts outputs. -/
structure CutRound (K : Type) where
  /-- `key` -/
  key : InternalKey K
  /-- `drop` -/
  drop : Bool
  /-- Whether the output is big enough to be closed after the entry was added. -/
  big : Bool

/-- The outputs of a compaction by their smallest and largest keys, with the state of
`ShouldStopBefore`. -/
structure CutOutputs (K V : Type) where
  /-- The state of `ShouldStopBefore`. -/
  cutting : CutState K V := {}
  /-- `current_output()`, if `builder` is set. -/
  builder : Option (InternalKey K × InternalKey K) := none
  /-- The finished outputs. -/
  outputs : List (InternalKey K × InternalKey K) := []

omit [LinearOrder K] in
/-- `FinishCompactionOutputFile`, if there is an output. -/
def CutOutputs.finish (st : CutOutputs K V) : CutOutputs K V :=
  { st with builder := none, outputs := st.outputs ++ st.builder.toList }

omit [LinearOrder K] in
/-- An entry is added to the output, which it opens if there is none. -/
def CutOutputs.add (st : CutOutputs K V) (key : InternalKey K) : CutOutputs K V :=
  { st with builder := some ((st.builder.map Prod.fst).getD key, key) }

/-- A round of the loop. -/
def Compaction.cutRound (c : Compaction K) (st : CutOutputs K V) (r : CutRound K) :
    CutOutputs K V :=
  let stop := c.shouldStopBefore st.cutting r.key
  let st := { st with cutting := stop.2 }
  let st := if stop.1 then st.finish else st
  if r.drop then st
  else
    let st := st.add r.key
    if r.big then st.finish else st

/-- The outputs of a compaction. -/
def Compaction.cutOutputs (c : Compaction K) (V : Type) (rounds : List (CutRound K)) :
    List (InternalKey K × InternalKey K) :=
  (rounds.foldl c.cutRound ({} : CutOutputs K V)).finish.outputs

/-- The bytes of the grandparents that end between two keys. -/
def overlapBytes (grandparents : List (FileMetaData K)) (smallest largest : InternalKey K) : ℕ :=
  totalFileSize (grandparents.filter fun g => decide (smallest ≤ g.largest ∧ g.largest < largest))

/-! ## Files that end before a key -/

/-- Files by increasing largest keys. -/
def LargestSorted (files : List (FileMetaData K)) : Prop :=
  files.Pairwise fun f g => f.largest ≤ g.largest

/-- A disjoint level has its largest keys in order. -/
theorem DisjointSorted.largestSorted {files : List (FileMetaData K)} (hd : DisjointSorted files)
    (hr : Ranged files) : LargestSorted files :=
  hd.imp_of_mem fun {_ g} _ hg h => h.le.trans (hr g hg)

/-- The file ends before the last key that was read, if there is one. -/
def endsBefore (last : Option (InternalKey K)) (g : FileMetaData K) : Bool :=
  last.any fun key => decide (g.largest < key)

/-- In a sorted list the files that end before a key come first. -/
theorem LargestSorted.filter_append {files : List (FileMetaData K)} (h : LargestSorted files)
    (last : Option (InternalKey K)) :
    files.filter (endsBefore last) ++ files.filter (fun g => !endsBefore last g) = files := by
  induction files with
  | nil => rfl
  | cons f files ih =>
    obtain ⟨hf, hsorted⟩ := List.pairwise_cons.mp h
    by_cases hb : endsBefore last f = true
    · simp only [List.filter_cons, hb, if_true, Bool.not_true, Bool.false_eq_true, if_false,
        List.cons_append, ih hsorted]
    · -- no later file ends before the key
      have hrest : ∀ g ∈ f :: files, endsBefore last g = false := by
        intro g hg
        rcases List.mem_cons.mp hg with rfl | hg
        · exact Bool.eq_false_iff.mpr hb
        · have hle := hf g hg
          cases last with
          | none => rfl
          | some key =>
            have hnot : ¬ f.largest < key := fun hlt => hb (decide_eq_true hlt)
            exact decide_eq_false fun hlt => hnot (hle.trans_lt hlt)
      rw [List.filter_eq_nil_iff.mpr fun g hg => by simp [hrest g hg],
        List.filter_eq_self.mpr fun g hg => by simp [hrest g hg], List.nil_append]

/-- What is left after the files that end before a key. -/
theorem LargestSorted.drop_length {files : List (FileMetaData K)} (h : LargestSorted files)
    (last : Option (InternalKey K)) :
    files.drop (files.filter (endsBefore last)).length =
      files.filter fun g => !endsBefore last g := by
  conv_lhs => rw [← h.filter_append last]
  rw [List.filter_append, List.filter_filter, List.filter_filter]
  simp

omit [LinearOrder K] in
/-- Sizes add up over a split of the files. -/
theorem totalFileSize_filter_add (files : List (FileMetaData K)) (p : FileMetaData K → Bool) :
    totalFileSize (files.filter p) + totalFileSize (files.filter fun g => !p g) =
      totalFileSize files := by
  unfold totalFileSize
  induction files with
  | nil => rfl
  | cons f files ih =>
    simp only [List.filter_cons]
    cases p f <;> simp <;> omega

/-- One file more counts with its size if it ends between the two keys. -/
theorem overlapBytes_cons (f : FileMetaData K) (files : List (FileMetaData K))
    (smallest largest : InternalKey K) :
    overlapBytes (f :: files) smallest largest =
      (if smallest ≤ f.largest ∧ f.largest < largest then f.fileSize else 0) +
        overlapBytes files smallest largest := by
  unfold overlapBytes totalFileSize
  rw [List.filter_cons]
  by_cases h : smallest ≤ f.largest ∧ f.largest < largest
  · rw [if_pos (decide_eq_true h), if_pos h, List.map_cons, List.sum_cons]
  · rw [if_neg (by simpa using h), if_neg h, Nat.zero_add]

/-- The overlap up to a later key adds what ends between the two keys. -/
theorem overlapBytes_add (files : List (FileMetaData K)) {s m k : InternalKey K} (hs : s ≤ m)
    (hk : m ≤ k) : overlapBytes files s k = overlapBytes files s m + overlapBytes files m k := by
  induction files with
  | nil => rfl
  | cons f files ih =>
    rw [overlapBytes_cons, overlapBytes_cons, overlapBytes_cons, ih]
    rcases lt_or_ge f.largest m with hm | hm
    · -- `f` ends before `m`
      have hk' : f.largest < k := hm.trans_le hk
      have hm' : ¬ m ≤ f.largest := not_le.mpr hm
      simp only [hm, hk', hm', and_true, if_false]
      omega
    · have hm' : ¬ f.largest < m := not_lt.mpr hm
      have hs' : s ≤ f.largest := hs.trans hm
      simp only [hm, hm', hs', true_and, and_false, if_false]
      omega

/-- Nothing ends between a key and itself. -/
theorem overlapBytes_self (files : List (FileMetaData K)) (k : InternalKey K) :
    overlapBytes files k k = 0 := by
  unfold overlapBytes
  rw [List.filter_eq_nil_iff.mpr]
  · rfl
  · intro f _ h
    obtain ⟨hle, hlt⟩ := of_decide_eq_true h
    exact absurd hlt (not_lt.mpr hle)

/-! ## `ShouldStopBefore` -/

/-- A number that an `int64_t` can hold is held. -/
theorem toInt64_eq {n : ℤ} (h0 : 0 ≤ n) (hn : n < 2^63) : toInt64 n = n := by
  unfold toInt64
  apply Int.bmod_eq_of_le <;> omega

/-- The loop of `ShouldStopBefore` passes the files that end before the key. -/
theorem skipGrandparents_eq (key : InternalKey K) (seenKey : Bool) :
    ∀ (files : List (FileMetaData K)) (index : ℕ) (bytes : ℤ), LargestSorted files →
    0 ≤ bytes → bytes + totalFileSize files < 2^63 →
    skipGrandparents key seenKey files index bytes =
      (index + (files.filter (endsBefore (some key))).length,
        if seenKey then bytes + totalFileSize (files.filter (endsBefore (some key))) else bytes)
  | [], index, bytes, _, _, _ => by
    simp [skipGrandparents, totalFileSize]
  | f :: files, index, bytes, hsorted, h0, hlt => by
    obtain ⟨hf, hsorted⟩ := List.pairwise_cons.mp hsorted
    have htotal : totalFileSize (f :: files) = f.fileSize + totalFileSize files := by
      simp [totalFileSize]
    rw [htotal] at hlt
    push_cast at hlt
    rw [skipGrandparents]
    by_cases hb : f.largest < key
    · rw [if_pos hb]
      have hends : endsBefore (some key) f = true := decide_eq_true hb
      have hfit : toInt64 (bytes + f.fileSize) = bytes + f.fileSize := by
        apply toInt64_eq <;> omega
      rw [List.filter_cons, if_pos hends, hfit]
      have hsum : totalFileSize (f :: files.filter (endsBefore (some key))) =
          f.fileSize + totalFileSize (files.filter (endsBefore (some key))) := by
        simp [totalFileSize]
      rw [hsum]
      cases seenKey with
      | true =>
        rw [if_pos rfl, if_pos rfl]
        rw [skipGrandparents_eq key true files _ _ hsorted (by omega) (by omega)]
        simp only [if_true, List.length_cons, Prod.mk.injEq]
        push_cast
        constructor <;> omega
      | false =>
        rw [if_neg Bool.false_ne_true, if_neg Bool.false_ne_true]
        rw [skipGrandparents_eq key false files _ _ hsorted (by omega) (by omega)]
        simp only [Bool.false_eq_true, if_false, List.length_cons, Prod.mk.injEq, and_true]
        omega
    · -- the scan stops here, and no later file ends before the key
      rw [if_neg hb]
      have hnone : (f :: files).filter (endsBefore (some key)) = [] := by
        refine List.filter_eq_nil_iff.mpr fun g hg h => hb ?_
        have hends : g.largest < key := of_decide_eq_true h
        rcases List.mem_cons.mp hg with rfl | hg
        · exact hends
        · exact (hf g hg).trans_lt hends
      rw [hnone]
      simp [totalFileSize]

/-- What `ShouldStopBefore` has counted when it has been asked for keys up to `last`: no more than
the sizes of the grandparents that it has passed. -/
structure CutState.Counts (st : CutState K V) (grandparents : List (FileMetaData K))
    (last : Option (InternalKey K)) : Prop where
  /-- `grandparent_index_` is behind the files that end before the last key. -/
  index : st.grandparentIndex = (grandparents.filter (endsBefore last)).length
  /-- The count is not negative. -/
  nonneg : 0 ≤ st.overlappedBytes
  /-- The count and what is still to come are at most everything. -/
  le : st.overlappedBytes + totalFileSize (grandparents.filter fun g => !endsBefore last g) ≤
    totalFileSize grandparents

/-- The bytes of the files that end between the last key and a later one. -/
theorem filter_endsBefore_some (files : List (FileMetaData K)) (m k : InternalKey K) :
    totalFileSize ((files.filter fun g => !endsBefore (some m) g).filter (endsBefore (some k))) =
      overlapBytes files m k := by
  unfold overlapBytes
  rw [List.filter_filter]
  congr 2
  funext g
  simp only [endsBefore, Option.any_some, ← not_lt, Bool.decide_and, decide_not]
  exact Bool.and_comm _ _

/-- A call of `ShouldStopBefore` counts on. When it does not ask for a cut, the count is within the
limit, and once a key was seen it has grown by what lies between the keys. -/
theorem CutState.Counts.shouldStopBefore {st : CutState K V} {c : Compaction K}
    {last : Option (InternalKey K)} (h : st.Counts c.grandparents last)
    (hsorted : LargestSorted c.grandparents) (hsum : totalFileSize c.grandparents < 2^63)
    {k : InternalKey K} (hle : ∀ m ∈ last, m ≤ k) :
    (c.shouldStopBefore st k).2.Counts c.grandparents (some k) ∧
      (c.shouldStopBefore st k).2.seenKey = true ∧
      ((c.shouldStopBefore st k).1 = false →
        (c.shouldStopBefore st k).2.overlappedBytes ≤ kMaxGrandParentOverlapBytes ∧
        ∀ m ∈ last, st.seenKey = true → (c.shouldStopBefore st k).2.overlappedBytes =
          st.overlappedBytes + overlapBytes c.grandparents m k) := by
  obtain ⟨hindex, hnonneg, hbytes⟩ := h
  set rest := c.grandparents.filter fun g => !endsBefore last g with hrest
  have hdrop : c.grandparents.drop st.grandparentIndex = rest := by
    rw [hindex]
    exact hsorted.drop_length last
  have hskip := skipGrandparents_eq k st.seenKey rest st.grandparentIndex st.overlappedBytes
    (hsorted.sublist List.filter_sublist) hnonneg (by omega)
  -- what is passed is what ends between the keys, and what is left is what does not end before `k`
  have hback : ∀ g : FileMetaData K, endsBefore last g = true → endsBefore (some k) g = true := by
    intro g hg
    cases last with
    | none => exact absurd hg Bool.false_ne_true
    | some m => exact decide_eq_true ((of_decide_eq_true hg).trans_le (hle m rfl))
  have hleft : c.grandparents.filter (fun g => !endsBefore (some k) g) =
      rest.filter fun g => !endsBefore (some k) g := by
    rw [hrest, List.filter_filter]
    apply List.filter_congr
    intro g _
    cases hl : endsBefore last g with
    | true => simp [hback g hl]
    | false => simp
  have hpassed : (c.grandparents.filter (endsBefore (some k))).length =
      st.grandparentIndex + (rest.filter (endsBefore (some k))).length := by
    have h1 := List.length_eq_length_filter_add (l := c.grandparents) (endsBefore (some k))
    have h2 := List.length_eq_length_filter_add (l := c.grandparents) (endsBefore last)
    have h3 := List.length_eq_length_filter_add (l := rest) (endsBefore (some k))
    rw [hleft] at h1
    rw [← hrest, ← hindex] at h2
    omega
  have hsplit := totalFileSize_filter_add rest (endsBefore (some k))
  unfold Compaction.shouldStopBefore
  dsimp only
  rw [hdrop, hskip]
  dsimp only
  generalize hcount : (if st.seenKey then st.overlappedBytes +
    totalFileSize (rest.filter (endsBefore (some k))) else st.overlappedBytes) = bytes
  have hbounds : 0 ≤ bytes ∧ bytes + totalFileSize (rest.filter fun g => !endsBefore (some k) g) ≤
      totalFileSize c.grandparents := by
    rw [← hcount]
    split_ifs <;> constructor <;> omega
  by_cases hstop : (kMaxGrandParentOverlapBytes : ℤ) < bytes
  · rw [if_pos hstop]
    refine ⟨⟨hpassed.symm, le_refl _, ?_⟩, rfl, fun hf => nomatch (show true = false from hf)⟩
    rw [hleft]
    show (0 : ℤ) + _ ≤ _
    omega
  · rw [if_neg hstop]
    refine ⟨⟨hpassed.symm, hbounds.1, ?_⟩, rfl, fun _ => ⟨not_lt.mp hstop, ?_⟩⟩
    · rw [hleft]
      exact hbounds.2
    · intro m hm hseen
      obtain rfl : last = some m := hm
      rw [if_pos hseen, hrest, filter_endsBefore_some] at hcount
      exact hcount.symm

/-! ## The bound -/

/-- The overlap of the outputs is bounded when the loop has read the keys up to `last`. What lies
under the open output up to the last key was counted, although the entry of that key may have been
dropped. -/
structure CutOutputs.Bounded (st : CutOutputs K V) (grandparents : List (FileMetaData K))
    (last : Option (InternalKey K)) : Prop where
  /-- What was counted. -/
  counts : st.cutting.Counts grandparents last
  /-- The open output. -/
  builder : ∀ smallest largest, st.builder = some (smallest, largest) →
    ∃ m, last = some m ∧ st.cutting.seenKey = true ∧ smallest ≤ largest ∧ largest ≤ m ∧
      overlapBytes grandparents smallest m ≤ st.cutting.overlappedBytes ∧
      overlapBytes grandparents smallest largest ≤ kMaxGrandParentOverlapBytes
  /-- The finished outputs. -/
  outputs : ∀ out ∈ st.outputs, overlapBytes grandparents out.1 out.2 ≤ kMaxGrandParentOverlapBytes

namespace CutOutputs

variable {st : CutOutputs K V} {grandparents : List (FileMetaData K)} {last : Option (InternalKey K)}

/-- Without outputs there is no overlap to bound. -/
theorem bounded_nil (grandparents : List (FileMetaData K)) :
    ({} : CutOutputs K V).Bounded grandparents none where
  counts := by
    have hnone : grandparents.filter (endsBefore none) = [] :=
      List.filter_eq_nil_iff.mpr fun _ _ => Bool.false_ne_true
    refine ⟨?_, le_refl _, ?_⟩
    · rw [hnone]
      rfl
    · have hall := totalFileSize_filter_add grandparents (endsBefore none)
      show (0 : ℤ) + _ ≤ _
      omega
  builder := by simp
  outputs := by simp

/-- Finishing an output keeps the bound. -/
theorem Bounded.finish (h : st.Bounded grandparents last) : st.finish.Bounded grandparents last where
  counts := h.counts
  builder := by simp [CutOutputs.finish]
  outputs := by
    intro out hout
    rcases List.mem_append.mp hout with hout | hout
    · exact h.outputs out hout
    · obtain ⟨m, -, -, -, -, -, hbound⟩ := h.builder out.1 out.2 (Option.mem_toList.mp hout)
      exact hbound

/-- Adding the last key keeps the bound, when the count is within the limit or no output is open. -/
theorem Bounded.add {k : InternalKey K} (h : st.Bounded grandparents (some k))
    (hseen : st.cutting.seenKey = true)
    (hcount : st.builder ≠ none → st.cutting.overlappedBytes ≤ kMaxGrandParentOverlapBytes) :
    (st.add k).Bounded grandparents (some k) where
  counts := h.counts
  outputs := h.outputs
  builder := by
    intro smallest largest hadd
    obtain ⟨hs, rfl⟩ := Prod.mk.inj (Option.some.inj hadd)
    refine ⟨k, rfl, hseen, ?_⟩
    cases hb : st.builder with
    | none =>
      -- a new output starts and ends with the key
      rw [hb] at hs
      obtain rfl : k = smallest := hs
      rw [overlapBytes_self]
      exact ⟨le_refl _, le_refl _, h.counts.nonneg, Nat.zero_le _⟩
    | some out =>
      obtain ⟨s, l⟩ := out
      rw [hb] at hs
      obtain rfl : s = smallest := hs
      obtain ⟨m, hm, -, hsl, hlm, hle, -⟩ := h.builder s l hb
      obtain rfl : k = m := Option.some.inj hm
      have hlimit := hcount (by simp [hb])
      exact ⟨hsl.trans hlm, le_refl _, hle, by exact_mod_cast hle.trans hlimit⟩

/-- A round of the loop keeps the bound on the overlap, for the key that it has read. -/
theorem Bounded.cutRound {c : Compaction K} (h : st.Bounded c.grandparents last)
    (hsorted : LargestSorted c.grandparents) (hsum : totalFileSize c.grandparents < 2^63)
    (r : CutRound K) (hle : ∀ m ∈ last, m ≤ r.key) :
    (c.cutRound st r).Bounded c.grandparents (some r.key) := by
  obtain ⟨hcounts, hseen, hcount⟩ := h.counts.shouldStopBefore hsorted hsum hle
  unfold Compaction.cutRound
  dsimp only
  generalize c.shouldStopBefore st.cutting r.key = stop at hcounts hseen hcount ⊢
  obtain ⟨cut, cutting⟩ := stop
  dsimp only at hcounts hseen hcount ⊢
  -- the outputs after a cut, if `ShouldStopBefore` asks for one
  obtain ⟨st', hst', hbounded, hseen', hlimit⟩ : ∃ st' : CutOutputs K V,
      (if cut then { st with cutting := cutting }.finish else { st with cutting := cutting }) = st' ∧
      st'.Bounded c.grandparents (some r.key) ∧ st'.cutting.seenKey = true ∧
      (st'.builder ≠ none → st'.cutting.overlappedBytes ≤ kMaxGrandParentOverlapBytes) := by
    refine ⟨_, rfl, ?_⟩
    cases cut with
    | true =>
      refine ⟨⟨hcounts, by simp [CutOutputs.finish], ?_⟩, hseen, fun hb => absurd rfl hb⟩
      intro out hout
      rcases List.mem_append.mp hout with hout | hout
      · exact h.outputs out hout
      · obtain ⟨m, -, -, -, -, -, hbound⟩ := h.builder out.1 out.2 (Option.mem_toList.mp hout)
        exact hbound
    | false =>
      obtain ⟨hlimit, hgrown⟩ := hcount rfl
      refine ⟨⟨hcounts, ?_, h.outputs⟩, hseen, fun _ => hlimit⟩
      intro s l hb
      obtain ⟨m, hm, hold, hsl, hlm, hbytes, hbound⟩ := h.builder s l hb
      have hmk : m ≤ r.key := hle m hm
      refine ⟨r.key, rfl, hseen, hsl, hlm.trans hmk, ?_, hbound⟩
      show _ ≤ cutting.overlappedBytes
      rw [hgrown m hm hold, overlapBytes_add c.grandparents (hsl.trans hlm) hmk]
      push_cast
      omega
  rw [hst']
  cases r.drop with
  | true => exact hbounded
  | false =>
    have hadded := hbounded.add hseen' hlimit
    cases r.big with
    | true => exact hadded.finish
    | false => exact hadded

/-- The rounds of the loop over sorted keys keep the bound on the overlap, by induction. -/
theorem Bounded.cutRounds {c : Compaction K} (hsorted : LargestSorted c.grandparents)
    (hsum : totalFileSize c.grandparents < 2^63) :
    ∀ {rounds : List (CutRound K)} {st : CutOutputs K V} {last : Option (InternalKey K)},
    (rounds.map (·.key)).Pairwise (· ≤ ·) → (∀ m ∈ last, ∀ r ∈ rounds, m ≤ r.key) →
    st.Bounded c.grandparents last →
    ∃ last, (rounds.foldl c.cutRound st).Bounded c.grandparents last
  | [], _, last, _, _, h => ⟨last, h⟩
  | r :: rounds, _, last, hkeys, hle, h => by
    obtain ⟨hr, hkeys⟩ := List.pairwise_cons.mp hkeys
    have hstep := h.cutRound hsorted hsum r fun m hm => hle m hm r List.mem_cons_self
    rw [List.foldl_cons]
    refine cutRounds hsorted hsum hkeys ?_ hstep
    rintro m hm r' hr'
    obtain rfl : r.key = m := Option.some.inj hm
    exact hr r'.key (List.mem_map_of_mem hr')

end CutOutputs

/-- The grandparents that `SetupOtherInputs` chooses are in order. -/
theorem Version.Leveled.grandparents_sorted {v : Version K} (wf : v.Leveled) {level : ℕ}
    {inputs0 : List (FileMetaData K)} {c : Compaction K}
    (hc : v.setupOtherInputs level inputs0 = some c) : LargestSorted c.grandparents := by
  have hlevel := (wf.disjoint (level + 2) (by omega)).largestSorted (wf.ranged _)
  unfold Version.setupOtherInputs at hc
  split at hc
  · exact absurd hc (by simp)
  · dsimp only at hc
    split at hc
    · rw [← Option.some.inj hc]
      show LargestSorted (if level + 2 < kNumLevels then _ else [])
      split_ifs
      · exact hlevel.sublist List.filter_sublist
      · exact List.Pairwise.nil
    · exact absurd hc (by simp)

/-- Compaction outputs have bounded grandparent overlap, for every input in order and every pattern of
dropped entries and of outputs closed for their size. -/
theorem Compaction.cutOutputs_overlap_le {v : Version K} (wf : v.Leveled) {level : ℕ}
    {inputs0 : List (FileMetaData K)} {c : Compaction K}
    (hc : v.setupOtherInputs level inputs0 = some c)
    (hsum : totalFileSize c.grandparents < 2^63) {rounds : List (CutRound K)}
    (hkeys : (rounds.map (·.key)).Pairwise (· ≤ ·)) :
    ∀ out ∈ c.cutOutputs V rounds,
      overlapBytes c.grandparents out.1 out.2 ≤ kMaxGrandParentOverlapBytes := by
  obtain ⟨last, h⟩ := CutOutputs.Bounded.cutRounds (V := V) (wf.grandparents_sorted hc) hsum hkeys
    (by simp) (CutOutputs.bounded_nil c.grandparents)
  exact h.finish.outputs

/-- A file of level 0 over two files of level 2 of the given sizes. -/
def overGrandparents (size1 size2 : ℕ) : Version Slice where
  files level :=
    if level = 0 then [exampleFile 1 (ascii "a") 9 (ascii "e") 8]
    else if level = 2 then [⟨2, size1, .pack (ascii "a") 7 .value, .pack (ascii "b") 6 .value⟩,
      ⟨3, size2, .pack (ascii "c") 5 .value, .pack (ascii "d") 4 .value⟩]
    else []

/-- The levels above 0 of the example are sorted and disjoint. -/
theorem overGrandparents_leveled (size1 size2 : ℕ) : (overGrandparents size1 size2).Leveled where
  levels level h := by
    unfold kNumLevels at h
    exact (if_neg (by omega)).trans (if_neg (by omega))
  ranged level := by
    unfold overGrandparents Ranged
    dsimp only
    split_ifs
    · decide
    · simp only [List.mem_cons, List.not_mem_nil, or_false, forall_eq_or_imp, forall_eq]
      decide
    · exact fun f hf => absurd hf List.not_mem_nil
  disjoint level h := by
    unfold overGrandparents DisjointSorted
    dsimp only
    split_ifs
    · exact List.pairwise_singleton _ _
    · simp only [List.pairwise_cons, List.mem_cons, List.not_mem_nil, or_false, forall_eq,
        List.Pairwise.nil, and_true, false_imp_iff, implies_true]
      decide
    · exact List.Pairwise.nil

/-- The compaction of the file of level 0 of the example. -/
def overCompaction (size1 size2 : ℕ) : Compaction Slice where
  level := 0
  inputVersion := overGrandparents size1 size2
  inputs0 := [exampleFile 1 (ascii "a") 9 (ascii "e") 8]
  inputs1 := []
  grandparents := (overGrandparents size1 size2).files 2
  edit := VersionEdit.setCompactPointer {} 0 (.pack (ascii "e") 8 .value)

/-- From the one file of level 0, `SetupOtherInputs` sets up the compaction of the example. -/
theorem setupOtherInputs_overCompaction (size1 size2 : ℕ) :
    (overGrandparents size1 size2).setupOtherInputs 0 [exampleFile 1 (ascii "a") 9 (ascii "e") 8] =
      some (overCompaction size1 size2) := by
  rfl

/-- The keys `a`, `c` and `e`, all kept and never cut for size. -/
def overRounds : List (CutRound Slice) :=
  [⟨.pack (ascii "a") 9 .value, false, false⟩, ⟨.pack (ascii "c") 9 .value, false, false⟩,
    ⟨.pack (ascii "e") 8 .value, false, false⟩]

/-- With two files of 15 megabytes the output is cut before `e`. -/
theorem Compaction.cutOutputs_overlap_le_example :
    (overCompaction (15 * 2^20) (15 * 2^20)).cutOutputs ℕ overRounds =
      [(.pack (ascii "a") 9 .value, .pack (ascii "c") 9 .value),
        (.pack (ascii "e") 8 .value, .pack (ascii "e") 8 .value)] ∧
    ∀ out ∈ (overCompaction (15 * 2^20) (15 * 2^20)).cutOutputs ℕ overRounds,
      overlapBytes (overCompaction (15 * 2^20) (15 * 2^20)).grandparents out.1 out.2 ≤
        kMaxGrandParentOverlapBytes :=
  ⟨by decide, cutOutputs_overlap_le (overGrandparents_leveled _ _)
    (setupOtherInputs_overCompaction _ _) (by decide) (by decide)⟩

/-- With a file of `2^63` bytes the count is negative, and the output is not cut. -/
theorem Compaction.overlap_count_overflows :
    (overGrandparents (2^63) 1).setupOtherInputs 0 [exampleFile 1 (ascii "a") 9 (ascii "e") 8] =
      some (overCompaction (2^63) 1) ∧
    (overRounds.map (·.key)).Pairwise (· ≤ ·) ∧
    ¬ ∀ out ∈ (overCompaction (2^63) 1).cutOutputs ℕ overRounds,
      overlapBytes (overCompaction (2^63) 1).grandparents out.1 out.2 ≤
        kMaxGrandParentOverlapBytes :=
  ⟨setupOtherInputs_overCompaction _ _, by decide, by decide⟩

/-! ## The loop of `DoCompactionWork` -/

/-- `TableBuilder::Add` counts its entry once, whether or not it writes a block. -/
theorem TableBuilder.add_numEntries (o : TableOptions) (b : TableBuilder) (key value : Slice) :
    (b.add o key value).numEntries = b.numEntries + 1 := by
  unfold add flush addIndexEntry
  dsimp only
  split_ifs <;> rfl

namespace WorkState

variable {cache : TableCache} {bytes : K ≃ Slice} {env : WorkEnv K} {c : Compaction K}
  {smallestSnapshot : ℕ}

/-- What the loop has cut so far. -/
def cuts (st : WorkState K) : CutOutputs K Slice where
  cutting := st.cutting
  builder := st.builder.map fun out => (out.1.smallest, out.1.largest)
  outputs := st.outputs.map fun f => (f.smallest, f.largest)

/-- An output that is being built has an entry. -/
def Started (st : WorkState K) : Prop := ∀ f b, st.builder = some (f, b) → b.numEntries ≠ 0

omit [LinearOrder K] in
/-- An output that was finished is cut where the loop of the model cuts it. -/
theorem finishOutput_cuts {st st' : WorkState K} (h : st.finishOutput cache env = .ok st') :
    st'.cuts = st.cuts.finish ∧ st'.Started := by
  unfold finishOutput at h
  split at h
  · next hb =>
    obtain rfl := Except.ok.inj h
    refine ⟨?_, fun f b hb' => absurd (hb.symm.trans hb') (by simp)⟩
    simp [cuts, CutOutputs.finish, hb]
  · next f b hb =>
    split at h
    · exact nomatch h
    · dsimp only at h
      split at h
      · exact nomatch h
      · obtain rfl := Except.ok.inj h
        refine ⟨?_, fun f b hb' => absurd hb' (by simp)⟩
        simp [cuts, CutOutputs.finish, hb]

omit [LinearOrder K] in
/-- Adding an entry, after which the output may be big enough. -/
theorem writeEntry_cuts {st st' : WorkState K} {ikey : InternalKey K} {key value : Slice}
    (h : st.writeEntry cache env ikey key value = .ok st') (hs : st.Started) :
    (st'.cuts = st.cuts.add ikey ∨ st'.cuts = (st.cuts.add ikey).finish) ∧ st'.Started := by
  obtain ⟨⟨⟨f, b⟩, st1⟩, hopen, h⟩ := exists_of_bind_eq_ok h
  -- the output is the open one, or a new one without entries
  have hout : st1.cutting = st.cutting ∧ st1.outputs = st.outputs ∧
      (if b.numEntries = 0 then ikey else f.smallest) =
        ((st.builder.map fun out => out.1.smallest).getD ikey) := by
    unfold openOutput at hopen
    split at hopen
    · next out hb =>
      obtain ⟨rfl, rfl⟩ := Prod.mk.inj (Except.ok.inj hopen)
      refine ⟨rfl, rfl, ?_⟩
      rw [if_neg (hs f b hb), hb]
      rfl
    · next hb =>
      dsimp only at hopen
      split at hopen
      · exact nomatch hopen
      · obtain ⟨hout, rfl⟩ := Prod.mk.inj (Except.ok.inj hopen)
        obtain ⟨rfl, rfl⟩ := Prod.mk.inj hout
        rw [hb]
        exact ⟨rfl, rfl, rfl⟩
  obtain ⟨hcutting, houtputs, hsmallest⟩ := hout
  dsimp only at h
  rw [hsmallest] at h
  have hadded : ∀ b', ({ st1 with builder := some ({ f with
      smallest := (st.builder.map fun out => out.1.smallest).getD ikey, largest := ikey }, b') } :
        WorkState K).cuts = st.cuts.add ikey := by
    intro b'
    unfold cuts CutOutputs.add
    simp only [hcutting, houtputs, Option.map_some, Option.map_map]
    rfl
  split_ifs at h
  · obtain ⟨hcuts, hstarted⟩ := finishOutput_cuts h
    rw [hadded] at hcuts
    exact ⟨Or.inr hcuts, hstarted⟩
  · obtain rfl := Except.ok.inj h
    refine ⟨Or.inl (hadded _), fun f' b' hb' => ?_⟩
    obtain ⟨-, rfl⟩ := Prod.mk.inj (Option.some.inj hb')
    rw [TableBuilder.add_numEntries]
    exact Nat.succ_ne_zero _

/-- A round of the loop is a round of cuts at the key that was read. -/
theorem round_cuts {st st' : WorkState K} (hs : st.Started) {n : ℕ}
    (h : st.round cache bytes env c smallestSnapshot n = .ok st') :
    (∃ drop big, st'.cuts =
      c.cutRound st.cuts ⟨InternalKey.decode bytes (Iterator.key st.input), drop, big⟩) ∧
    st'.Started := by
  obtain ⟨st2, hentry, h⟩ := exists_of_bind_eq_ok h
  obtain rfl := Except.ok.inj h
  suffices hsuff : (∃ drop big, st2.cuts =
      c.cutRound st.cuts ⟨InternalKey.decode bytes (Iterator.key st.input), drop, big⟩) ∧
      st2.Started from hsuff
  unfold handleEntry at hentry
  dsimp only at hentry
  generalize InternalKey.decode bytes (Iterator.key st.input) = key at hentry ⊢
  generalize hstop : c.shouldStopBefore st.cutting key = stop at hentry
  obtain ⟨st1, hstopped, hrest⟩ := exists_of_bind_eq_ok hentry
  -- the state after a cut, if `ShouldStopBefore` asks for one
  obtain ⟨hcuts, hstarted⟩ : st1.cuts =
      (if stop.1 then { st.cuts with cutting := stop.2 }.finish
        else { st.cuts with cutting := stop.2 }) ∧ st1.Started := by
    split_ifs at hstopped ⊢
    · exact finishOutput_cuts hstopped
    · obtain rfl := Except.ok.inj hstopped
      exact ⟨rfl, hs⟩
  have hround : ∀ drop big, c.cutRound st.cuts ⟨key, drop, big⟩ =
      if drop then st1.cuts else if big then (st1.cuts.add key).finish else st1.cuts.add key := by
    intro drop big
    rw [hcuts]
    unfold Compaction.cutRound
    dsimp only [cuts]
    rw [hstop]
  split_ifs at hrest
  · obtain rfl := Except.ok.inj hrest
    refine ⟨⟨true, false, ?_⟩, hstarted⟩
    rw [hround]
    rfl
  · obtain ⟨hwritten | hwritten, hstarted⟩ := writeEntry_cuts hrest hstarted
    · refine ⟨⟨false, false, ?_⟩, hstarted⟩
      rw [hround, hwritten]
      rfl
    · refine ⟨⟨false, true, ?_⟩, hstarted⟩
      rw [hround, hwritten]
      rfl

/-- The states between the rounds of the loop, with the keys that were read. -/
inductive Rounds (cache : TableCache) (bytes : K ≃ Slice) (env : WorkEnv K) (c : Compaction K)
    (smallestSnapshot : ℕ) (start : WorkState K) : List (InternalKey K) → WorkState K → Prop
  /-- No round yet. -/
  | nil : Rounds cache bytes env c smallestSnapshot start [] start
  /-- One more round. -/
  | round {keys : List (InternalKey K)} {st st' : WorkState K}
      (h : Rounds cache bytes env c smallestSnapshot start keys st) {n : ℕ}
      (hround : st.round cache bytes env c smallestSnapshot n = .ok st') :
      Rounds cache bytes env c smallestSnapshot start
        (keys ++ [InternalKey.decode bytes (Iterator.key st.input)]) st'

/-- The rounds of the loop cut as rounds with the keys that were read. -/
theorem Rounds.cuts {input : MergedIterator (InputIterator K)} {versions : VersionSet K}
    {keys : List (InternalKey K)} {st : WorkState K}
    (h : Rounds cache bytes env c smallestSnapshot { input := input, versions := versions } keys st) :
    st.Started ∧ ∃ rounds : List (CutRound K), rounds.map (·.key) = keys ∧
      st.cuts = rounds.foldl c.cutRound {} := by
  induction h with
  | nil => exact ⟨fun f b hb => absurd hb (by simp), [], rfl, rfl⟩
  | @round keys st st' _ n hround ih =>
    obtain ⟨hstarted, rounds, rfl, hcuts⟩ := ih
    obtain ⟨⟨drop, big, hstep⟩, hstarted⟩ := round_cuts hstarted hround
    refine ⟨hstarted, rounds ++ [⟨_, drop, big⟩], List.map_append, ?_⟩
    rw [List.foldl_append, ← hcuts, hstep]
    rfl

/-- The outputs of every run of the loop over inputs in order have bounded overlap, and so has the last
one when it is finished. -/
theorem Rounds.overlap_le {v : Version K} (wf : v.Leveled) {level : ℕ}
    {inputs0 : List (FileMetaData K)} (hc : v.setupOtherInputs level inputs0 = some c)
    (hsum : totalFileSize c.grandparents < 2^63) {input : MergedIterator (InputIterator K)}
    {versions : VersionSet K} {keys : List (InternalKey K)} {st : WorkState K}
    (h : Rounds cache bytes env c smallestSnapshot { input := input, versions := versions } keys st)
    (hkeys : keys.Pairwise (· ≤ ·)) :
    ∀ out ∈ st.cuts.finish.outputs,
      overlapBytes c.grandparents out.1 out.2 ≤ kMaxGrandParentOverlapBytes := by
  obtain ⟨-, rounds, rfl, hcuts⟩ := h.cuts
  obtain ⟨last, hbounded⟩ := CutOutputs.Bounded.cutRounds (V := Slice) (wf.grandparents_sorted hc)
    hsum hkeys (by simp) (CutOutputs.bounded_nil c.grandparents)
  rw [hcuts]
  exact hbounded.finish.outputs

end WorkState

end LevelDb
