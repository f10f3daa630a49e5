import LevelDb.Compaction.Work

/-!
# Dropping entries preserves reads

The two drop rules of `DoCompactionWork` rest on what the loop has seen and on the deeper levels:
rule (A) drops what a newer entry of the same user key hides from every reader, and a deletion marker
is dropped when no deeper level holds its key and rule (A) will drop what is older in the inputs.
`compaction_reads_iff` shows that replacing the inputs by the outputs changes no reading at or above
`smallest_snapshot`. The sentinel `kMaxSequenceNumber` of `last_sequence_for_key` stands for "no
entry of this key yet", so the rules need `smallest_snapshot` below it.
-/

namespace LevelDb

open Lib

variable {K V : Type} [LinearOrder K]

/-! ## `IsBaseLevelForKey` -/

/-- A file of the version has `k` in its user-key range. -/
def FileMetaData.Covers (f : FileMetaData K) (k : K) : Prop :=
  f.smallest.userKey ≤ k ∧ k ≤ f.largest.userKey

/-- `level_ptrs_` only ever passed files that end before `k`. -/
def PtrsBehind (v : Version K) (ptrs : ℕ → ℕ) (k : K) : Prop :=
  ∀ lvl, ∀ f ∈ (v.files lvl).take (ptrs lvl), f.largest.userKey < k

/-- The scan of one level passes the files that end before the key. -/
theorem scanLevel_fst (k : K) : ∀ (files : List (FileMetaData K)) (ptr : ℕ),
    (scanLevel k files ptr).1 =
      ptr + (files.takeWhile fun f => decide (f.largest.userKey < k)).length
  | [], ptr => by simp [scanLevel]
  | f :: files, ptr => by
    rw [scanLevel]
    split_ifs with h
    · simp [not_lt.mpr h]
    · rw [scanLevel_fst k files (ptr + 1)]
      simp only [not_le.mp h, decide_true, List.takeWhile_cons_of_pos, List.length_cons]
      omega

/-- When the scan of a disjoint level reports nothing, no file of it has the key in its range. -/
theorem not_covers_of_scanLevel {k : K} : ∀ {files : List (FileMetaData K)} {ptr : ℕ},
    DisjointSorted files → Ranged files → (scanLevel k files ptr).2 = false →
    ∀ f ∈ files, ¬ f.Covers k
  | [], _, _, _, _, f, hf => by simp at hf
  | g :: files, ptr, hd, hr, h, f, hf => by
    obtain ⟨hg, hd'⟩ := List.pairwise_cons.mp hd
    rw [scanLevel] at h
    split_ifs at h with hle
    · -- The scan stopped at `g`, which starts after the key, and so do all files after it.
      have hlt : k < g.smallest.userKey := by simpa using h
      have hstart : g.smallest.userKey ≤ f.smallest.userKey := by
        rcases List.mem_cons.mp hf with rfl | hf
        · exact le_refl _
        · exact (hr.userKey_le List.mem_cons_self).trans (InternalKey.userKey_le (hg f hf).le)
      exact fun hc => absurd hc.1 (not_le.mpr (hlt.trans_le hstart))
    · rcases List.mem_cons.mp hf with rfl | hf
      · exact fun hc => hle hc.2
      · exact not_covers_of_scanLevel hd' (fun f hf => hr f (List.mem_cons_of_mem g hf)) h f hf

/-- A scan of levels leaves the pointers behind the key. -/
theorem scanLevels_ptrsBehind {v : Version K} {k : K} : ∀ {lvls : List ℕ} {ptrs : ℕ → ℕ},
    PtrsBehind v ptrs k → PtrsBehind v (scanLevels v k lvls ptrs).2 k
  | [], _, h => h
  | lvl :: lvls, ptrs, h => by
    have hup : PtrsBehind v (Function.update ptrs lvl
        (scanLevel k ((v.files lvl).drop (ptrs lvl)) (ptrs lvl)).1) k := by
      intro l f hf
      rcases eq_or_ne l lvl with rfl | hne
      · rw [Function.update_self, scanLevel_fst, List.take_add, List.mem_append] at hf
        rcases hf with hf | hf
        · exact h l f hf
        · have hf' : f ∈ ((v.files l).drop (ptrs l)).takeWhile
              fun f => decide (f.largest.userKey < k) := by
            rwa [List.prefix_iff_eq_take.mp (List.takeWhile_prefix _)]
          simpa using List.mem_takeWhile_imp hf'
      · rw [Function.update_of_ne hne] at hf
        exact h l f hf
    rw [scanLevels]
    split_ifs
    · exact hup
    · exact scanLevels_ptrsBehind hup

/-- When a scan of disjoint levels reports nothing, no file of these levels has the key in its
range. -/
theorem not_covers_of_scanLevels {v : Version K} (wf : v.Leveled) {k : K} :
    ∀ {lvls : List ℕ} {ptrs : ℕ → ℕ}, (∀ lvl ∈ lvls, 1 ≤ lvl) → PtrsBehind v ptrs k →
    (scanLevels v k lvls ptrs).1 = true → ∀ lvl ∈ lvls, ∀ f ∈ v.files lvl, ¬ f.Covers k
  | [], _, _, _, _, lvl, hlvl, f, hf => by simp at hlvl
  | l :: lvls, ptrs, hl, hp, h, lvl, hlvl, f, hf => by
    have hnext : PtrsBehind v (scanLevels v k [l] ptrs).2 k := scanLevels_ptrsBehind hp
    rw [scanLevels] at h
    split_ifs at h with hr
    have hbehind : PtrsBehind v (Function.update ptrs l
        (scanLevel k ((v.files l).drop (ptrs l)) (ptrs l)).1) k := by
      rw [scanLevels, if_neg hr] at hnext
      exact hnext
    rcases List.mem_cons.mp hlvl with rfl | hlvl
    · -- Files before the pointer end before the key; the scan has seen the others.
      rw [← List.take_append_drop (ptrs lvl) (v.files lvl), List.mem_append] at hf
      rcases hf with hf | hf
      · exact fun hc => absurd hc.2 (not_le.mpr (hp lvl f hf))
      · refine not_covers_of_scanLevel ?_ ?_ (by simpa using hr) f hf
        · exact (wf.disjoint lvl (hl lvl List.mem_cons_self)).sublist (List.drop_sublist _ _)
        · exact fun f hf => wf.ranged lvl f (List.mem_of_mem_drop hf)
    · exact not_covers_of_scanLevels wf (fun m hm => hl m (List.mem_cons_of_mem l hm)) hbehind h lvl
        hlvl f hf

/-- `IsBaseLevelForKey` only answers yes when no file of the deeper levels has the key in its
range. -/
theorem Compaction.not_covers_of_isBaseLevelForKey {c : Compaction K}
    (wf : c.inputVersion.Leveled) {ptrs : ℕ → ℕ} {k : K}
    (hp : PtrsBehind c.inputVersion ptrs k) (h : (c.isBaseLevelForKey ptrs k).1 = true) {level : ℕ}
    (hlevel : c.level + 2 ≤ level) {f : FileMetaData K} (hf : f ∈ c.inputVersion.files level) :
    ¬ f.Covers k := by
  refine not_covers_of_scanLevels wf (fun l hl => ?_) hp h level ?_ f hf
  · have := (List.mem_range'_1.mp hl).1
    omega
  · have hlt : level < kNumLevels := by
      by_contra hge
      rw [wf.levels level (by omega)] at hf
      simp at hf
    rw [List.mem_range'_1]
    omega

/-! ## The entries that are kept -/

/-- One round of the loop, as far as the drop rules go: their state, and the entries kept so far. -/
def Compaction.dropStep (c : Compaction K) (smallestSnapshot : ℕ)
    (r : DropState K × List (Entry K V)) (e : Entry K V) : DropState K × List (Entry K V) :=
  let d := c.dropEntry smallestSnapshot r.1 e
  (d.2, if d.1 then r.2 else r.2 ++ [e])

/-- The entries that the loop keeps of its input. -/
def Compaction.kept (c : Compaction K) (smallestSnapshot : ℕ) (es : List (Entry K V)) :
    List (Entry K V) :=
  (es.foldl (c.dropStep smallestSnapshot) ({}, [])).2

/-- A deletion marker that is dropped as obsolete: every reader sees it, and no deeper level has its
key. -/
def Compaction.BaseMarker (c : Compaction K) (smallestSnapshot : ℕ) (d : Entry K V) : Prop :=
  d.key.type = .deletion ∧ d.key.sequence ≤ smallestSnapshot ∧
    ∀ level, c.level + 2 ≤ level → ∀ f ∈ c.inputVersion.files level, ¬ f.Covers d.key.userKey

/-- What the loop knows after it has read `P`. -/
structure Compaction.DropInv (c : Compaction K) (smallestSnapshot : ℕ) (P : List (Entry K V))
    (r : DropState K × List (Entry K V)) : Prop where
  /-- Only entries of the input are kept. -/
  kept_mem : ∀ e ∈ r.2, e ∈ P
  /-- `current_user_key` is that of the last entry. -/
  current : r.1.currentUserKey = P.getLast?.map (·.key.userKey)
  /-- `last_sequence_for_key` is that of the last entry. -/
  last : ∀ q, P.getLast? = some q → r.1.lastSequenceForKey = q.key.sequence
  /-- `level_ptrs_` have not passed a file that a later key needs. -/
  ptrs : ∀ k, (∀ p ∈ P, p.key.userKey ≤ k) → PtrsBehind c.inputVersion r.1.levelPtrs k
  /-- Of one key, nothing is kept below an entry that every reader sees. -/
  hidden : ∀ p ∈ P, p.key.sequence ≤ smallestSnapshot → ∀ e ∈ r.2,
    e.key.userKey = p.key.userKey → p.key.sequence ≤ e.key.sequence
  /-- What is not kept is shadowed or an obsolete marker. -/
  reason : ∀ d ∈ P, d ∈ r.2 ∨ Shadowed (contents P) smallestSnapshot d ∨
    c.BaseMarker smallestSnapshot d

/-- Before the loop nothing has been read. -/
theorem Compaction.dropInv_nil (c : Compaction K) (ss : ℕ) :
    c.DropInv ss ([] : List (Entry K V)) ({}, []) where
  kept_mem := by simp
  current := by simp
  last := by simp
  ptrs := by simp [PtrsBehind]
  hidden := by simp
  reason := by simp

/-- After `enter`, `last_sequence_for_key` is `kMaxSequenceNumber` when no entry of the key has been
read, and else the sequence number of the last one. -/
theorem Compaction.DropInv.enter_last {c : Compaction K} {ss : ℕ} {P : List (Entry K V)}
    {r : DropState K × List (Entry K V)} (h : c.DropInv ss P r) {e : Entry K V}
    (hle : ∀ p ∈ P, p.key ≤ e.key) (hP : P.Pairwise fun a b => a.key ≤ b.key) :
    ((r.1.enter e.key.userKey).lastSequenceForKey = kMaxSequenceNumber ∧
      ∀ p ∈ P, p.key.userKey ≠ e.key.userKey) ∨
    ∃ q ∈ P, q.key.userKey = e.key.userKey ∧
      (r.1.enter e.key.userKey).lastSequenceForKey = q.key.sequence ∧
      ∀ p ∈ P, p.key.userKey = e.key.userKey → q.key.sequence ≤ p.key.sequence := by
  rcases List.eq_nil_or_concat P with rfl | ⟨init, q, rfl⟩
  · left
    have hc : r.1.currentUserKey = none := by simpa using h.current
    simp [DropState.enter, hc]
  · rw [List.concat_eq_append] at *
    have hc : r.1.currentUserKey = some q.key.userKey := by simpa using h.current
    have hl : r.1.lastSequenceForKey = q.key.sequence := h.last q (by simp)
    have hq : q ∈ init ++ [q] := by simp
    have hlast : ∀ p ∈ init ++ [q], p.key ≤ q.key := by
      intro p hp
      rcases List.mem_append.mp hp with hp | hp
      · exact (List.pairwise_append.mp hP).2.2 p hp q (by simp)
      · rw [List.mem_singleton.mp hp]
    by_cases hk : q.key.userKey = e.key.userKey
    · refine Or.inr ⟨q, hq, hk, by simp [DropState.enter, hc, hk, hl], fun p hp hpk => ?_⟩
      exact InternalKey.sequence_le_of_le (hlast p hp) (hpk.trans hk.symm)
    · refine Or.inl ⟨by simp [DropState.enter, hc, hk], fun p hp hpk => hk ?_⟩
      -- An earlier entry of the key would come between `q` and `e`.
      have h1 := InternalKey.userKey_le (hlast p hp)
      have h2 := InternalKey.userKey_le (hle q hq)
      exact le_antisymm h2 (hpk ▸ h1)

@[simp] theorem DropState.enter_currentUserKey (st : DropState K) (k : K) :
    (st.enter k).currentUserKey = some k := by
  unfold enter
  split_ifs with h
  · exact h
  · rfl

@[simp] theorem DropState.enter_levelPtrs (st : DropState K) (k : K) :
    (st.enter k).levelPtrs = st.levelPtrs := by
  unfold enter
  split_ifs <;> rfl

/-- The rules of `dropEntry` one by one: rule (A), an obsolete marker, or neither. -/
theorem Compaction.dropEntry_cases (c : Compaction K) (ss : ℕ) (st : DropState K) (e : Entry K V) :
    ((st.enter e.key.userKey).lastSequenceForKey ≤ ss ∧ (c.dropEntry ss st e).1 = true ∧
      (c.dropEntry ss st e).2.levelPtrs = st.levelPtrs) ∨
    (ss < (st.enter e.key.userKey).lastSequenceForKey ∧ e.key.type = .deletion ∧
      e.key.sequence ≤ ss ∧
      (c.dropEntry ss st e).1 = (c.isBaseLevelForKey st.levelPtrs e.key.userKey).1 ∧
      (c.dropEntry ss st e).2.levelPtrs = (c.isBaseLevelForKey st.levelPtrs e.key.userKey).2) ∨
    (ss < (st.enter e.key.userKey).lastSequenceForKey ∧ (c.dropEntry ss st e).1 = false ∧
      (c.dropEntry ss st e).2.levelPtrs = st.levelPtrs) := by
  unfold dropEntry
  dsimp only
  split_ifs with h1 h2
  · exact Or.inl ⟨h1, rfl, by simp⟩
  · exact Or.inr (Or.inl ⟨not_le.mp h1, h2.1, h2.2, by simp, by simp⟩)
  · exact Or.inr (Or.inr ⟨not_le.mp h1, rfl, by simp⟩)

/-- After any round the state names the entry that was read. -/
theorem Compaction.dropEntry_snd (c : Compaction K) (ss : ℕ) (st : DropState K) (e : Entry K V) :
    (c.dropEntry ss st e).2.currentUserKey = some e.key.userKey ∧
      (c.dropEntry ss st e).2.lastSequenceForKey = e.key.sequence := by
  unfold dropEntry
  dsimp only
  split_ifs <;> simp

/-- Pointers that are behind a key are behind every larger one. -/
theorem PtrsBehind.mono {v : Version K} {ptrs : ℕ → ℕ} {k k' : K} (h : PtrsBehind v ptrs k)
    (hk : k ≤ k') : PtrsBehind v ptrs k' :=
  fun lvl f hf => (h lvl f hf).trans_le hk

/-- The pointers after a round are behind the entry that was read. -/
theorem Compaction.dropEntry_ptrsBehind {c : Compaction K} {ss : ℕ} {st : DropState K}
    {e : Entry K V} (h : PtrsBehind c.inputVersion st.levelPtrs e.key.userKey) :
    PtrsBehind c.inputVersion (c.dropEntry ss st e).2.levelPtrs e.key.userKey := by
  rcases c.dropEntry_cases ss st e with ⟨-, -, hp⟩ | ⟨-, -, -, -, hp⟩ | ⟨-, -, hp⟩
  · rwa [hp]
  · rw [hp]
    exact scanLevels_ptrsBehind h
  · rwa [hp]

/-- What a round knows about the entry that it drops. -/
theorem Compaction.DropInv.reason_dropped {c : Compaction K} (wf : c.inputVersion.WellFormed)
    {ss : ℕ} (hss : ss < kMaxSequenceNumber) {P : List (Entry K V)}
    {r : DropState K × List (Entry K V)} (h : c.DropInv ss P r) {e : Entry K V}
    (hle : ∀ p ∈ P, p.key ≤ e.key) (hP : P.Pairwise fun a b => a.key ≤ b.key)
    (hdist : Distinct (contents (P ++ [e]))) (hdrop : (c.dropEntry ss r.1 e).1 = true) :
    e ∈ P ∨ Shadowed (contents (P ++ [e])) ss e ∨ c.BaseMarker ss e := by
  rcases c.dropEntry_cases ss r.1 e with ⟨hl, -, -⟩ | ⟨-, hdel, hseq, hbase, -⟩ | ⟨-, hf, -⟩
  · rcases h.enter_last hle hP with ⟨hmax, -⟩ | ⟨q, hq, hqk, hql, -⟩
    · omega
    · -- The last entry of the key was `q`, which is newer unless it is the same entry.
      have hge := InternalKey.sequence_le_of_le (hle q hq) hqk
      rcases lt_or_eq_of_le hge with hlt | heq
      · exact Or.inr (Or.inl ⟨q, by simp [hq], hqk, hlt, by simpa [← hql] using hl⟩)
      · left
        obtain rfl : e = q := hdist e (by simp) q (by simp [hq]) hqk.symm heq
        exact hq
  · refine Or.inr (Or.inr ⟨hdel, hseq, fun level hlevel f hf => ?_⟩)
    exact c.not_covers_of_isBaseLevelForKey wf.leveled
      (h.ptrs _ fun p hp => InternalKey.userKey_le (hle p hp)) (hbase ▸ hdrop) hlevel hf
  · rw [hf] at hdrop
    simp at hdrop

/-- A round preserves what the loop knows. -/
theorem Compaction.DropInv.step {c : Compaction K} (wf : c.inputVersion.WellFormed) {ss : ℕ}
    (hss : ss < kMaxSequenceNumber) {P : List (Entry K V)} {r : DropState K × List (Entry K V)}
    (h : c.DropInv ss P r) {e : Entry K V} (hle : ∀ p ∈ P, p.key ≤ e.key)
    (hP : P.Pairwise fun a b => a.key ≤ b.key) (hdist : Distinct (contents (P ++ [e]))) :
    c.DropInv ss (P ++ [e]) (c.dropStep ss r e) := by
  have hsub : ∀ x ∈ r.2, x ∈ (c.dropStep ss r e).2 := by
    intro x hx
    unfold dropStep
    dsimp only
    split_ifs
    · exact hx
    · exact List.mem_append_left _ hx
  have hnew : ∀ x ∈ (c.dropStep ss r e).2,
      x ∈ r.2 ∨ (x = e ∧ (c.dropEntry ss r.1 e).1 = false) := by
    intro x hx
    unfold dropStep at hx
    dsimp only at hx
    split_ifs at hx with hd
    · exact Or.inl hx
    · rcases List.mem_append.mp hx with hx | hx
      · exact Or.inl hx
      · exact Or.inr ⟨List.mem_singleton.mp hx, by simpa using hd⟩
  -- What is kept, the state behind the round, what hides what, and why something was dropped.
  refine ⟨?_, ?_, ?_, ?_, ?_, ?_⟩
  · intro x hx
    rcases hnew x hx with hx | ⟨rfl, -⟩
    · exact List.mem_append_left _ (h.kept_mem x hx)
    · simp
  · simpa [dropStep] using (c.dropEntry_snd ss r.1 e).1
  · intro q hq
    obtain rfl : e = q := by simpa using hq
    exact (c.dropEntry_snd ss r.1 e).2
  · intro k hk
    have hbehind := h.ptrs e.key.userKey fun p hp => InternalKey.userKey_le (hle p hp)
    exact (c.dropEntry_ptrsBehind hbehind).mono (hk e (by simp))
  · intro p hp hps x hx hxk
    rcases hnew x hx with hxr | ⟨rfl, hd⟩
    · rcases List.mem_append.mp hp with hp | hp
      · exact h.hidden p hp hps x hxr hxk
      · obtain rfl := List.mem_singleton.mp hp
        exact InternalKey.sequence_le_of_le (hle x (h.kept_mem x hxr)) hxk
    · rcases List.mem_append.mp hp with hp | hp
      · -- An entry that is kept has no entry before it that every reader sees.
        exfalso
        have hgt : ss < (r.1.enter x.key.userKey).lastSequenceForKey := by
          rcases c.dropEntry_cases ss r.1 x with ⟨-, ht, -⟩ | ⟨hgt, -⟩ | ⟨hgt, -⟩
          · simp [ht] at hd
          · exact hgt
          · exact hgt
        rcases h.enter_last hle hP with ⟨-, hno⟩ | ⟨q, -, -, hql, hmin⟩
        · exact hno p hp hxk.symm
        · have := hmin p hp hxk.symm
          omega
      · rw [List.mem_singleton.mp hp]
  · have hmono : contents P ⊆ contents (P ++ [e]) := fun x hx => List.mem_append_left _ hx
    have hold : ∀ d ∈ P, d ∈ (c.dropStep ss r e).2 ∨ Shadowed (contents (P ++ [e])) ss d ∨
        c.BaseMarker ss d := by
      intro d hd
      rcases h.reason d hd with hd | ⟨q, hq, hq'⟩ | hd
      · exact Or.inl (hsub d hd)
      · exact Or.inr (Or.inl ⟨q, hmono hq, hq'⟩)
      · exact Or.inr (Or.inr hd)
    intro d hd
    rcases List.mem_append.mp hd with hd | hd
    · exact hold d hd
    · obtain rfl := List.mem_singleton.mp hd
      cases hdrop : (c.dropEntry ss r.1 d).1 with
      | false =>
        left
        simp [dropStep, hdrop]
      | true =>
        rcases h.reason_dropped wf hss hle hP hdist hdrop with hd | hd
        · exact hold d hd
        · exact Or.inr hd

/-- The rounds over the whole input keep what the loop knows. -/
theorem Compaction.DropInv.run {c : Compaction K} (wf : c.inputVersion.WellFormed) {ss : ℕ}
    (hss : ss < kMaxSequenceNumber) : ∀ (es P : List (Entry K V))
    (r : DropState K × List (Entry K V)), c.DropInv ss P r →
    (P ++ es).Pairwise (fun a b => a.key ≤ b.key) → Distinct (contents (P ++ es)) →
    c.DropInv ss (P ++ es) (es.foldl (c.dropStep ss) r)
  | [], P, r, h, _, _ => by simpa using h
  | e :: es, P, r, h, hs, hdist => by
    have hsplit : P ++ e :: es = P ++ [e] ++ es := by simp
    rw [hsplit] at hs hdist ⊢
    obtain ⟨hPe, -, -⟩ := List.pairwise_append.mp hs
    obtain ⟨hP, -, hle⟩ := List.pairwise_append.mp hPe
    exact run wf hss es (P ++ [e]) _
      (h.step wf hss (fun p hp => hle p hp e (by simp)) hP
        (hdist.mono fun x hx => List.mem_append_left _ hx)) hs hdist

/-- Replacing a sorted input by what the loop keeps of it, beside entries `rest` that stay, changes
no reading at or above `smallest_snapshot`. What stays below a deletion marker of the input must lie
in files that `IsBaseLevelForKey` looks at. -/
theorem Compaction.kept_reads_iff {c : Compaction K} (wf : c.inputVersion.WellFormed) {ss : ℕ}
    (hss : ss < kMaxSequenceNumber) {es : List (Entry K V)} {rest : Set (Entry K V)}
    (hs : es.Pairwise fun a b => a.key ≤ b.key) (hdist : Distinct (contents es ∪ rest))
    (hrest : ∀ e ∈ es, e ∉ rest)
    (hdeep : ∀ d ∈ es, d.key.type = .deletion → d.key.sequence ≤ ss → ∀ e ∈ rest,
      e.key.userKey = d.key.userKey → e.key.sequence < d.key.sequence → ∃ level, c.level + 2 ≤ level ∧
        ∃ f ∈ c.inputVersion.files level, f.Covers d.key.userKey)
    {k : K} {s : ℕ} (hle : ss ≤ s) {r : Option V} :
    Reads (contents (c.kept ss es) ∪ rest) k s r ↔ Reads (contents es ∪ rest) k s r := by
  have inv : c.DropInv ss es (es.foldl (c.dropStep ss) ({}, [])) :=
    Compaction.DropInv.run wf hss es [] _ (c.dropInv_nil ss) hs
      (hdist.mono fun x hx => Or.inl hx)
  have hkept : (contents es ∪ rest) \ {e | e ∈ es ∧ e ∉ c.kept ss es} =
      contents (c.kept ss es) ∪ rest := by
    ext e
    simp only [Set.mem_sdiff, Set.mem_union, mem_contents, Set.mem_ofPred_eq, not_and, not_not]
    constructor
    · rintro ⟨he | he, hk⟩
      · exact Or.inl (hk he)
      · exact Or.inr he
    · rintro (he | he)
      · exact ⟨Or.inl (inv.kept_mem e he), fun _ => he⟩
      · exact ⟨Or.inr he, fun h => absurd he (hrest e h)⟩
  rw [← hkept]
  refine reads_diff hdist ?_ hle
  rintro d ⟨hd, hdk⟩
  rcases inv.reason d hd with h | ⟨q, hq, hq'⟩ | ⟨hdel, hseq, hbase⟩
  · exact absurd h hdk
  · exact Or.inl ⟨q, Or.inl hq, hq'⟩
  · refine Or.inr ⟨by simp [Entry.result, hdel], hseq, ?_⟩
    rintro e (he | he) hek hlt
    · -- Rule (A) drops what is older than the marker.
      refine ⟨he, fun h => ?_⟩
      have := inv.hidden d hd hseq e h hek
      simp only [versioned_seq] at hlt
      omega
    · obtain ⟨level, hlevel, f, hf, hcov⟩ := hdeep d hd hdel hseq e he hek hlt
      exact absurd hcov (hbase level hlevel f hf)

/-! ## What the outputs hold -/

/-- The entries written so far, in order. -/
def CutState.written (st : CutState K V) : List (Entry K V) :=
  st.outputs.flatMap (·.2) ++ (st.builder.map (·.entries)).getD []

omit [LinearOrder K] in
/-- Closing an output adds no entry to what was written. -/
@[simp] theorem CutState.finishOutput_written (sizes : TableSizes K V) (st : CutState K V) :
    (st.finishOutput sizes).written = st.written := by
  unfold finishOutput
  split
  · rfl
  · next b hb => simp [written, hb]

/-- `ShouldStopBefore` looks at grandparents only, and leaves what was written as it is. -/
@[simp] theorem Compaction.shouldStopBefore_written (c : Compaction K) (st : CutState K V)
    (key : InternalKey K) : (c.shouldStopBefore st key).2.written = st.written := by
  unfold shouldStopBefore
  dsimp only
  split_ifs <;> rfl

omit [LinearOrder K] in
/-- Adding an entry writes it at the end. -/
@[simp] theorem CutState.writeEntry_written (sizes : TableSizes K V) (st : CutState K V) (next : ℕ)
    (e : Entry K V) : (st.writeEntry sizes next e).1.written = st.written ++ [e] := by
  unfold writeEntry
  cases hb : st.builder with
  | none =>
    dsimp only
    split_ifs <;> simp [written, hb, finishOutput]
  | some b =>
    dsimp only
    split_ifs <;> simp [written, hb, finishOutput]

/-- A round of the loop takes the next entry and writes it unless the rules drop it. -/
theorem CompactionState.workStep_cons (sizes : TableSizes K V) {st : CompactionState K V}
    {e : Entry K V} {es : List (Entry K V)} (h : st.input = e :: es) (next : ℕ) :
    (st.workStep sizes next).1.input = es ∧
    (st.workStep sizes next).1.compaction = st.compaction ∧
    (st.workStep sizes next).1.smallestSnapshot = st.smallestSnapshot ∧
    ((st.workStep sizes next).1.dropping, (st.workStep sizes next).1.cutting.written) =
      st.compaction.dropStep st.smallestSnapshot (st.dropping, st.cutting.written) e := by
  unfold workStep
  rw [h]
  refine ⟨rfl, rfl, rfl, ?_⟩
  dsimp only [Compaction.dropStep]
  split_ifs <;> simp

/-- The rounds of the loop write what the drop rules keep. -/
theorem CompactionState.workLoop_written (sizes : TableSizes K V) : ∀ (es : List (Entry K V))
    (st : CompactionState K V) (next : ℕ), st.input = es →
    (st.workLoop sizes es.length next).1.cutting.written =
      (es.foldl (st.compaction.dropStep st.smallestSnapshot) (st.dropping, st.cutting.written)).2
  | [], st, next, _ => rfl
  | e :: es, st, next, h => by
    obtain ⟨hin, hc, hss, hstep⟩ := workStep_cons sizes h next
    rw [List.length_cons, workLoop, workLoop_written sizes es _ _ hin, hc, hss, hstep,
      List.foldl_cons]

/-- The outputs of `DoCompactionWork` together hold the entries that the drop rules keep. -/
theorem Compaction.doCompactionWork_entries (c : Compaction K) (sizes : TableSizes K V)
    (tables : Tables K V) (ss next : ℕ) :
    (c.doCompactionWork sizes tables ss next).1.flatMap (·.2) =
      c.kept ss (c.makeInputIterator tables) := by
  have hno : ∀ st : CutState K V, (st.finishOutput sizes).builder = none := by
    intro st
    unfold CutState.finishOutput
    split
    · next h => exact h
    · rfl
  have hw := CompactionState.workLoop_written sizes (c.makeInputIterator tables)
    (c.start tables ss) next rfl
  rw [← CutState.finishOutput_written sizes] at hw
  unfold CutState.written at hw
  rw [hno] at hw
  simpa [doCompactionWork, CompactionState.finalOutputs, Compaction.kept, start] using hw

end LevelDb
