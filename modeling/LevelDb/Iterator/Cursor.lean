import LevelDb.Iterator.DbIter
import Mathlib.Data.List.Find

/-!
# `DBIter` against a cursor over the visible map

The specification of `DBIter` is a cursor over the sorted map of the keys that are live at the
snapshot. The two simulate each other (`Follows`) through every call but one: `Next` after moving
backwards. There the internal iterator is not just before the entries of the current key when a key
that the snapshot does not see at all lies in between, and `Next` yields the current key once more.
`refinesCursor_iff` says that these keys are the only obstacle.
-/

namespace LevelDb

variable {K V : Type} [LinearOrder K]

/-! ## The cursor -/

/-- `e` is a value, and the newest entry of its user key that the snapshot sees. -/
def isLive (es : List (Entry K V)) (s : ℕ) (e : Entry K V) : Bool :=
  decide (e.key.sequence ≤ s ∧ e.key.type = .value ∧
    ∀ x ∈ es, x.key.userKey = e.key.userKey → x.key.sequence ≤ s → x.key.sequence ≤ e.key.sequence)

/-- The key and value that an entry yields. -/
def Entry.pair (e : Entry K V) : K × V := (e.key.userKey, e.value)

/-- The sorted map that the snapshot sees. -/
def visibleMap (es : List (Entry K V)) (s : ℕ) : List (K × V) :=
  (es.filter (isLive es s)).map Entry.pair

/-- One call on a cursor over the sorted map; `none` is a cursor that is not valid. -/
def cursorCall (m : List (K × V)) (c : Option (K × V)) : IterCall K → Option (Option (K × V))
  | .seekToFirst => some m.head?
  | .seekToLast => some m.getLast?
  | .seek target => some (m.find? fun p => decide (target ≤ p.1))
  | .next => c.map fun p => m.find? fun q => decide (p.1 < q.1)
  | .prev => c.map fun p => m.reverse.find? fun q => decide (q.1 < p.1)

/-- A sequence of calls on a cursor. -/
def cursorRun (m : List (K × V)) (c : Option (K × V)) (calls : List (IterCall K)) :
    Option (Option (K × V)) :=
  calls.foldlM (cursorCall m) c

/-- After every sequence of calls a new `DBIter` shows what the cursor shows. -/
def RefinesCursor (es : List (Entry K V)) (s : ℕ) : Prop :=
  ∀ calls, (DbIter.run es s {} calls).map (DbIter.observe es) =
    (cursorRun (visibleMap es s) none calls).map fun c => (c.isSome, c)

/-- A user key that occurs only above the snapshot lies between a key that is live at the snapshot
and the entries before it that the snapshot sees. -/
def HiddenKeyBeforeLive (es : List (Entry K V)) (s : ℕ) : Prop :=
  ∃ x ∈ es, ∃ e ∈ es, isLive es s e = true ∧ x.key.userKey < e.key.userKey ∧
    ∀ y ∈ es, y.key.sequence ≤ s → y.key.userKey < x.key.userKey ∨ e.key.userKey ≤ y.key.userKey

/-- The entries that an internal iterator yields: increasing, and told apart by user key and
sequence number. -/
structure IterEntries (es : List (Entry K V)) : Prop where
  /-- The entries come by increasing key. -/
  sorted : KeySorted es
  /-- No two entries share user key and sequence number. -/
  distinct : Lib.Distinct (contents es)

/-! ## Live entries -/

variable {es : List (Entry K V)} {s : ℕ}

/-- What it means to be live. -/
theorem isLive_iff {e : Entry K V} :
    isLive es s e = true ↔ e.key.sequence ≤ s ∧ e.key.type = .value ∧
      ∀ x ∈ es, x.key.userKey = e.key.userKey → x.key.sequence ≤ s →
        x.key.sequence ≤ e.key.sequence := by
  rw [isLive, decide_eq_true_eq]

/-- A search of the visible map is a search of the live entries. -/
theorem visibleMap_find? (q : K → Bool) :
    (visibleMap es s).find? (fun p => q p.1) =
      (es.find? fun e => isLive es s e && q e.key.userKey).map Entry.pair := by
  rw [visibleMap, List.find?_map, List.find?_filter]
  congr 1
  refine List.find?_congr fun e _ => ?_
  rw [Bool.decide_and, Bool.decide_eq_true, Bool.decide_eq_true]
  rfl

/-- A search of the visible map from the end. -/
theorem visibleMap_reverse_find? (q : K → Bool) :
    (visibleMap es s).reverse.find? (fun p => q p.1) =
      (es.reverse.find? fun e => isLive es s e && q e.key.userKey).map Entry.pair := by
  rw [visibleMap, ← List.map_reverse, ← List.filter_reverse, List.find?_map, List.find?_filter]
  congr 1
  refine List.find?_congr fun e _ => ?_
  rw [Bool.decide_and, Bool.decide_eq_true, Bool.decide_eq_true]
  rfl

/-- Two live entries of one user key are the same. -/
theorem IterEntries.live_unique (h : IterEntries es) {a b : Entry K V} (ha : a ∈ es) (hb : b ∈ es)
    (hla : isLive es s a = true) (hlb : isLive es s b = true) (hk : a.key.userKey = b.key.userKey) :
    a = b := by
  rw [isLive_iff] at hla hlb
  have h1 := hla.2.2 b hb hk.symm hlb.1
  have h2 := hlb.2.2 a ha hk hla.1
  exact h.distinct a ha b hb hk (le_antisymm h2 h1)

/-- Of one user key, what comes later in the list is older. -/
theorem IterEntries.sequence_lt (h : IterEntries es) {a b : Entry K V} (ha : a ∈ es) (hb : b ∈ es)
    (hlt : a.key < b.key) (hk : a.key.userKey = b.key.userKey) :
    b.key.sequence < a.key.sequence := by
  have hle := InternalKey.sequence_le_of_le hlt.le hk
  refine lt_of_le_of_ne hle fun heq => ?_
  rw [h.distinct a ha b hb hk heq.symm] at hlt
  exact lt_irrefl _ hlt

/-- What the snapshot does not see is not live. -/
theorem isLive_of_unseen {e : Entry K V} (h : ¬e.key.sequence ≤ s) : isLive es s e = false := by
  rw [← Bool.not_eq_true, isLive_iff]
  exact fun hl => h hl.1

/-- An entry that the snapshot sees hides those behind it of the same user key. -/
theorem IterEntries.not_live_behind (h : IterEntries es) {a b : Entry K V} (ha : a ∈ es) (hb : b ∈ es)
    (hlt : a.key < b.key) (hk : a.key.userKey = b.key.userKey) (hseq : a.key.sequence ≤ s) :
    isLive es s b = false := by
  rw [← Bool.not_eq_true, isLive_iff]
  rintro ⟨-, -, hnewest⟩
  have hle := hnewest a ha hk hseq
  have hnewer := h.sequence_lt ha hb hlt hk
  omega

/-! ## `FindNextUserEntry` -/

/-- The internal iterator is at the entry `r`, or not valid when there is none. -/
def PointsAt (es : List (Entry K V)) (pos : Option ℕ) (r : Option (Entry K V)) : Prop :=
  match r with
  | none => pos = none
  | some e => ∃ i, pos = some i ∧ es[i]? = some e

/-- What `FindNextUserEntry` relies on after it has passed `P` and before it reads `R`: visible
entries in `P` hide no entry of `R` but skipped ones, and the key to skip does not lie after `R`. -/
structure NextReady (s : ℕ) (P R : List (Entry K V)) (skipping : Bool) (skip : Option K) :
    Prop where
  /-- An entry of `R` whose key was seen in `P` is skipped. -/
  seen : ∀ p ∈ P, p.key.sequence ≤ s → ∀ r ∈ R, r.key.userKey = p.key.userKey →
    skips skipping skip r.key.userKey = true
  /-- The key to skip is not after any entry of `R`. -/
  le : ∀ k, skipping = true → skip = some k → ∀ r ∈ R, k ≤ r.key.userKey

/-- Passing an entry that the snapshot does not see. -/
theorem NextReady.pass_unseen {P R : List (Entry K V)} {e : Entry K V} {skipping : Bool}
    {skip : Option K} (h : NextReady s P (e :: R) skipping skip) (he : ¬ e.key.sequence ≤ s) :
    NextReady s (P ++ [e]) R skipping skip where
  seen p hp hps r hr hk := by
    rcases List.mem_append.mp hp with hp | hp
    · exact h.seen p hp hps r (List.mem_cons_of_mem e hr) hk
    · rw [List.mem_singleton.mp hp] at hps
      exact absurd hps he
  le k h1 h2 r hr := h.le k h1 h2 r (List.mem_cons_of_mem e hr)

/-- The scan of `FindNextUserEntry` may pass an entry that it skips, and is ready for the next one. -/
theorem NextReady.pass_skipped {P R : List (Entry K V)} {e : Entry K V} {skipping : Bool}
    {skip : Option K} (h : NextReady s P (e :: R) skipping skip)
    (he : skips skipping skip e.key.userKey = true) : NextReady s (P ++ [e]) R skipping skip where
  seen p hp hps r hr hk := by
    rcases List.mem_append.mp hp with hp | hp
    · exact h.seen p hp hps r (List.mem_cons_of_mem e hr) hk
    · rw [List.mem_singleton.mp hp] at hk
      rwa [hk]
  le k h1 h2 r hr := h.le k h1 h2 r (List.mem_cons_of_mem e hr)

/-- Passing a visible deletion, whose key is skipped from then on. -/
theorem NextReady.pass_deletion {P R : List (Entry K V)} {e : Entry K V} {skipping : Bool}
    {skip : Option K} (h : NextReady s P (e :: R) skipping skip)
    (hle : ∀ r ∈ R, e.key.userKey ≤ r.key.userKey) :
    NextReady s (P ++ [e]) R true (some e.key.userKey) where
  seen p hp hps r hr hk := by
    have hskip : r.key.userKey ≤ e.key.userKey := by
      rcases List.mem_append.mp hp with hp | hp
      · -- A key that was seen before is skipped, so it is at most the key to skip.
        have hs := h.seen p hp hps r (List.mem_cons_of_mem e hr) hk
        rw [skips, Bool.and_eq_true, Option.any_eq_true] at hs
        obtain ⟨hskipping, k, hk', hrk⟩ := hs
        exact (of_decide_eq_true hrk).trans (h.le k hskipping hk' e List.mem_cons_self)
      · rw [hk, List.mem_singleton.mp hp]
    simpa [skips] using hskip
  le k _ hk r hr := by
    rw [← Option.some.inj hk]
    exact hle r hr

/-- The loop of `FindNextUserEntry` stops at the first live entry that is not skipped. -/
theorem findNextLoop_spec (h : IterEntries es) : ∀ (R P : List (Entry K V)) (skipping : Bool)
    (skip : Option K), es = P ++ R → NextReady s P R skipping skip →
    PointsAt es (findNextLoop s skipping skip R P.length)
      (R.find? fun e => isLive es s e && !skips skipping skip e.key.userKey)
  | [], P, skipping, skip, hes, hready => by
    rw [findNextLoop]
    rfl
  | e :: R, P, skipping, skip, hes, hready => by
    have hes' : es = (P ++ [e]) ++ R := by rw [hes, List.append_cons]
    have hlen : P.length + 1 = (P ++ [e]).length := by rw [List.length_append, List.length_singleton]
    have hmem : ∀ r ∈ e :: R, r ∈ es := by
      intro r hr
      rw [hes]
      exact List.mem_append_right P hr
    have hsorted := h.sorted
    rw [KeySorted, hes, List.pairwise_append, List.pairwise_cons] at hsorted
    obtain ⟨-, ⟨hafter, -⟩, -⟩ := hsorted
    rw [findNextLoop]
    by_cases hseq : e.key.sequence ≤ s
    · rw [if_pos hseq]
      cases htype : e.key.type with
      | deletion =>
        dsimp only
        have hno : isLive es s e = false := by
          rw [← Bool.not_eq_true, isLive_iff, htype]
          simp
        have hready' := hready.pass_deletion fun r hr => InternalKey.userKey_le (hafter r hr).le
        rw [List.find?_cons_of_neg (by simp [hno]), hlen]
        have hrec := findNextLoop_spec h R (P ++ [e]) true (some e.key.userKey) hes' hready'
        -- The deletion hides the entries of its key; larger keys were not skipped before either.
        convert hrec using 1
        refine List.find?_congr fun r hr => ?_
        cases hl : isLive es s r with
        | false => rfl
        | true =>
          have hne : r.key.userKey ≠ e.key.userKey := by
            intro hk
            have h1 := (isLive_iff.mp hl).2.2 e (hmem e List.mem_cons_self) hk.symm hseq
            have h2 := h.sequence_lt (hmem e List.mem_cons_self)
              (hmem r (List.mem_cons_of_mem e hr)) (hafter r hr) hk.symm
            omega
          have hlt : e.key.userKey < r.key.userKey :=
            lt_of_le_of_ne (InternalKey.userKey_le (hafter r hr).le) hne.symm
          have hold : skips skipping skip r.key.userKey = false := by
            rw [← Bool.not_eq_true, skips, Bool.and_eq_true, Option.any_eq_true]
            rintro ⟨hskipping, k, hk, hrk⟩
            have := hready.le k hskipping hk e List.mem_cons_self
            exact absurd ((of_decide_eq_true hrk).trans this) (not_le.mpr hlt)
          have hnew : skips true (some e.key.userKey) r.key.userKey = false := by
            simpa [skips] using hlt
          rw [hold, hnew]
      | value =>
        dsimp only
        by_cases hskip : skips skipping skip e.key.userKey = true
        · rw [if_pos hskip, List.find?_cons_of_neg (by simp [hskip]), hlen]
          exact findNextLoop_spec h R (P ++ [e]) skipping skip hes' (hready.pass_skipped hskip)
        · rw [if_neg hskip]
          -- All visible entries of the key of `e` are in `R`, and so older than `e`.
          have hlive : isLive es s e = true := by
            refine isLive_iff.mpr ⟨hseq, htype, fun x hx hk hxs => ?_⟩
            rw [hes, List.mem_append, List.mem_cons] at hx
            rcases hx with hx | rfl | hx
            · have := hready.seen x hx hxs e List.mem_cons_self hk.symm
              exact absurd this hskip
            · exact le_refl _
            · exact InternalKey.sequence_le_of_le (hafter x hx).le hk.symm
          rw [List.find?_cons_of_pos (by simp [hlive, hskip])]
          refine ⟨P.length, rfl, ?_⟩
          rw [hes, List.getElem?_append_right (le_refl _), Nat.sub_self, List.getElem?_cons_zero]
    · rw [if_neg hseq]
      have hno : isLive es s e = false := isLive_of_unseen hseq
      rw [List.find?_cons_of_neg (by simp [hno]), hlen]
      exact findNextLoop_spec h R (P ++ [e]) skipping skip hes' (hready.pass_unseen hseq)

/-! ## `FindPrevUserEntry` -/

/-- The internal iterator is at the last entry that the snapshot sees of a user key below `k`. -/
def JustBefore (es : List (Entry K V)) (s : ℕ) (k : K) (pos : Option ℕ) : Prop :=
  match pos with
  | none => ∀ x ∈ es, x.key.sequence ≤ s → k ≤ x.key.userKey
  | some i => (∃ q, es[i]? = some q ∧ q.key.sequence ≤ s ∧ q.key.userKey < k) ∧
      ∀ x ∈ es.drop (i + 1), x.key.sequence ≤ s → k ≤ x.key.userKey

/-- What `FindPrevUserEntry` knows after it has read `T` backwards: either nothing in `T` is live, or
it has saved the first visible entry of `T`, and nothing else in `T` is live. -/
inductive PrevReady (s : ℕ) (es T : List (Entry K V)) : ValueType → Option K → Option V → Prop
  /-- Nothing that was read is live. -/
  | nothing {savedKey : Option K} {savedValue : Option V}
      (hno : ∀ x ∈ T, isLive es s x = false) : PrevReady s es T .deletion savedKey savedValue
  /-- `e` was saved. -/
  | saved (e : Entry K V) (he : e ∈ T) (hseq : e.key.sequence ≤ s) (htype : e.key.type = .value)
      (hfirst : ∀ x ∈ T, x.key.sequence ≤ s → e.key ≤ x.key)
      (hno : ∀ x ∈ T, x ≠ e → isLive es s x = false) :
      PrevReady s es T .value (some e.key.userKey) (some e.value)

/-- What `FindPrevUserEntry` leaves behind when it looks for the entry `r`. -/
def PrevFinds (es : List (Entry K V)) (s : ℕ) (res : PrevResult K V) (r : Option (Entry K V)) :
    Prop :=
  match r with
  | none => res.valueType = .deletion
  | some e => res.valueType = .value ∧ res.savedKey = some e.key.userKey ∧
      res.savedValue = some e.value ∧ JustBefore es s e.key.userKey res.iter

/-- A saved entry is live when no visible entry of its key lies before what was read. -/
theorem isLive_of_saved {P T U : List (Entry K V)}
    (hes : es = P ++ T ++ U) (hU : ∀ u ∈ U, u.key.sequence ≤ s → ∀ x ∈ T,
      x.key.userKey ≠ u.key.userKey) {e : Entry K V} (he : e ∈ T) (hseq : e.key.sequence ≤ s)
    (htype : e.key.type = .value) (hfirst : ∀ x ∈ T, x.key.sequence ≤ s → e.key ≤ x.key)
    (hP : ∀ x ∈ P, x.key.sequence ≤ s → x.key.userKey ≠ e.key.userKey) :
    isLive es s e = true := by
  refine isLive_iff.mpr ⟨hseq, htype, fun x hx hk hxs => ?_⟩
  rw [hes, List.mem_append, List.mem_append] at hx
  rcases hx with (hx | hx) | hx
  · exact absurd hk (hP x hx hxs)
  · exact InternalKey.sequence_le_of_le (hfirst x hx hxs) hk.symm
  · exact absurd hk.symm (hU x hx hxs e he)

/-- The only live entry of a list is what a search backwards finds. -/
theorem find?_reverse_append_of_unique {T Q : List (Entry K V)} {e : Entry K V} (he : e ∈ T)
    (hlive : isLive es s e = true) (hno : ∀ x ∈ T, x ≠ e → isLive es s x = false) :
    (T.reverse ++ Q).find? (isLive es s) = some e := by
  rw [List.find?_append]
  cases hf : T.reverse.find? (isLive es s) with
  | none =>
    have := List.find?_eq_none.mp hf e (List.mem_reverse.mpr he)
    exact absurd hlive this
  | some x =>
    have hx := List.mem_reverse.mp (List.mem_of_find?_eq_some hf)
    have hxl := List.find?_some hf
    by_cases hne : x = e
    · rw [hne, Option.some_or]
    · rw [hno x hx hne] at hxl
      exact absurd hxl Bool.false_ne_true

section

variable {T U : List (Entry K V)} {q : Entry K V} {vt : ValueType} {savedKey : Option K}
  {savedValue : Option V}

/-- An entry that the snapshot does not see changes nothing. -/
theorem PrevReady.unseen (h : PrevReady s es T vt savedKey savedValue) (hq : ¬q.key.sequence ≤ s) :
    PrevReady s es (q :: T) vt savedKey savedValue := by
  have hqdead : isLive es s q = false := isLive_of_unseen hq
  cases h with
  | nothing hno =>
    refine .nothing fun x hx => ?_
    rcases List.mem_cons.mp hx with rfl | hx
    · exact hqdead
    · exact hno x hx
  | saved e he hseq htype hfirst hno =>
    refine .saved e (List.mem_cons_of_mem q he) hseq htype (fun x hx hxs => ?_) fun x hx hne => ?_
    · rcases List.mem_cons.mp hx with rfl | hx
      · exact absurd hxs hq
      · exact hfirst x hx hxs
    · rcases List.mem_cons.mp hx with rfl | hx
      · exact hqdead
      · exact hno x hx hne

/-- Nothing that was read before stays live once an entry `q` is read at which the loop does not stop. -/
theorem PrevReady.not_live (h : PrevReady s es T vt savedKey savedValue) (hes : IterEntries es)
    (hmem : ∀ x ∈ q :: T, x ∈ es) (hqT : ∀ x ∈ T, q.key < x.key) (hq : q.key.sequence ≤ s)
    (hgo : ¬(vt ≠ .deletion ∧ savedKey.any (fun k => decide (q.key.userKey < k)) = true)) :
    ∀ x ∈ T, isLive es s x = false := by
  intro x hx
  cases h with
  | nothing hno => exact hno x hx
  | saved e he hseq htype hfirst hno =>
    by_cases hne : x = e
    · -- The saved entry has the user key of `q`, which is newer.
      have hge : e.key.userKey ≤ q.key.userKey := by
        by_contra hlt
        exact hgo ⟨by simp, by simpa using hlt⟩
      have hle := InternalKey.userKey_le (hqT e he).le
      rw [hne]
      exact hes.not_live_behind (hmem q List.mem_cons_self) (hmem e (List.mem_cons_of_mem q he))
        (hqT e he) (le_antisymm hle hge) hq
    · exact hno x hx hne

/-- Nothing that the snapshot sees behind a saved entry has a smaller user key. -/
theorem userKey_le_behind {e : Entry K V} (he : e ∈ T)
    (hfirst : ∀ x ∈ T, x.key.sequence ≤ s → e.key ≤ x.key)
    (hTU : ∀ a ∈ T, ∀ b ∈ U, a.key < b.key) :
    ∀ x ∈ T ++ U, x.key.sequence ≤ s → e.key.userKey ≤ x.key.userKey := by
  intro x hx hxs
  rcases List.mem_append.mp hx with hx | hx
  · exact InternalKey.userKey_le (hfirst x hx hxs)
  · exact InternalKey.userKey_le (hTU e he x hx).le

/-- At the start of the entries, what was saved is the last live entry. -/
theorem PrevReady.finds_end (h : PrevReady s es T vt savedKey savedValue) (hsorted : KeySorted es)
    (hes : es = T ++ U) (hU : ∀ u ∈ U, u.key.sequence ≤ s → ∀ x ∈ T, x.key.userKey ≠ u.key.userKey) :
    PrevFinds es s ⟨vt, savedKey, savedValue, none⟩ (T.reverse.find? (isLive es s)) := by
  cases h with
  | nothing hno =>
    have hnone : T.reverse.find? (isLive es s) = none := List.find?_eq_none.mpr fun x hx => by
      rw [hno x (List.mem_reverse.mp hx)]
      exact Bool.false_ne_true
    rw [hnone]
    rfl
  | saved e he hseq htype hfirst hno =>
    have hlive : isLive es s e = true := isLive_of_saved (P := []) hes hU he hseq htype hfirst (by simp)
    have hfind := find?_reverse_append_of_unique (Q := []) he hlive hno
    rw [List.append_nil] at hfind
    rw [hfind]
    rw [KeySorted, hes, List.pairwise_append] at hsorted
    refine ⟨rfl, rfl, rfl, fun x hx => ?_⟩
    rw [hes] at hx
    exact userKey_le_behind he hfirst hsorted.2.2 x hx

/-- At an entry with a smaller user key, what was saved is the last live entry. -/
theorem PrevReady.finds_stop {Q : List (Entry K V)} (h : PrevReady s es T vt savedKey savedValue)
    (hsorted : KeySorted es) (hes : es = Q.reverse ++ (q :: T) ++ U)
    (hU : ∀ u ∈ U, u.key.sequence ≤ s → ∀ x ∈ T, x.key.userKey ≠ u.key.userKey)
    (hq : q.key.sequence ≤ s)
    (hstop : vt ≠ .deletion ∧ savedKey.any (fun k => decide (q.key.userKey < k)) = true) :
    PrevFinds es s ⟨vt, savedKey, savedValue, some Q.length⟩
      ((T.reverse ++ q :: Q).find? (isLive es s)) := by
  cases h with
  | nothing hno => exact absurd rfl hstop.1
  | saved e he hseq htype hfirst hno =>
    have hlt : q.key.userKey < e.key.userKey := by simpa using hstop.2
    have hes' : es = (Q.reverse ++ [q]) ++ T ++ U := by rw [hes]; simp
    have hordered := hsorted
    rw [KeySorted, hes, List.append_assoc, List.pairwise_append, List.cons_append, List.pairwise_cons,
      List.pairwise_append] at hordered
    obtain ⟨-, ⟨-, -, -, hTU⟩, hQ⟩ := hordered
    have hP : ∀ x ∈ Q.reverse ++ [q], x.key.sequence ≤ s → x.key.userKey ≠ e.key.userKey := by
      intro x hx _
      rcases List.mem_append.mp hx with hx | hx
      · have hxq := hQ x hx q List.mem_cons_self
        exact ((InternalKey.userKey_le hxq.le).trans_lt hlt).ne
      · rw [List.mem_singleton.mp hx]
        exact hlt.ne
    have hlive := isLive_of_saved hes' hU he hseq htype hfirst hP
    rw [find?_reverse_append_of_unique he hlive hno]
    refine ⟨rfl, rfl, rfl, ⟨q, ?_, hq, hlt⟩, ?_⟩
    · rw [hes, List.append_assoc, List.getElem?_append_right (by rw [List.length_reverse]),
        List.length_reverse, Nat.sub_self, List.cons_append, List.getElem?_cons_zero]
    · have hdrop : es.drop (Q.length + 1) = T ++ U := by
        rw [hes, List.append_assoc, List.drop_append]
        simp
      rw [hdrop]
      exact userKey_le_behind he hfirst hTU

end

/-- The loop of `FindPrevUserEntry` finds the last live entry, if the visible entries after the
part that it reads have other user keys. -/
theorem findPrevLoop_spec (h : IterEntries es) : ∀ (Q T U : List (Entry K V)) (vt : ValueType)
    (savedKey : Option K) (savedValue : Option V), es = Q.reverse ++ T ++ U →
    (∀ u ∈ U, u.key.sequence ≤ s → ∀ x ∈ Q.reverse ++ T, x.key.userKey ≠ u.key.userKey) →
    PrevReady s es T vt savedKey savedValue →
    PrevFinds es s (findPrevLoop s Q vt savedKey savedValue)
      ((T.reverse ++ Q).find? (isLive es s))
  | [], T, U, vt, savedKey, savedValue, hes, hU, hready => by
    rw [findPrevLoop, List.append_nil]
    exact hready.finds_end h.sorted hes hU
  | q :: Q, T, U, vt, savedKey, savedValue, hes, hU, hready => by
    have hes' : es = Q.reverse ++ (q :: T) ++ U := by rw [hes]; simp
    have hU' : ∀ u ∈ U, u.key.sequence ≤ s → ∀ x ∈ Q.reverse ++ (q :: T),
        x.key.userKey ≠ u.key.userKey := by
      intro u hu hus x hx
      refine hU u hu hus x ?_
      simpa [or_assoc, or_comm, or_left_comm] using hx
    have hsearch : T.reverse ++ q :: Q = (q :: T).reverse ++ Q := by simp
    have hsorted := h.sorted
    rw [KeySorted, hes', List.append_assoc, List.pairwise_append, List.cons_append,
      List.pairwise_cons] at hsorted
    have hqT : ∀ x ∈ T, q.key < x.key := fun x hx => hsorted.2.1.1 x (List.mem_append_left U hx)
    have hmem : ∀ x ∈ q :: T, x ∈ es := by
      intro x hx
      rw [hes']
      exact List.mem_append_left U (List.mem_append_right _ hx)
    rw [findPrevLoop]
    -- The invariant is `PrevReady`; an entry that is too new leaves it as it is.
    by_cases hq : q.key.sequence ≤ s
    · rw [if_pos hq]
      by_cases hbreak : vt ≠ .deletion ∧
          savedKey.any (fun k => decide (q.key.userKey < k)) = true
      · rw [if_pos hbreak]
        exact hready.finds_stop h.sorted hes'
          (fun u hu hus x hx => hU u hu hus x (List.mem_append_right _ hx)) hq hbreak
      · rw [if_neg hbreak, hsearch]
        have hdead := hready.not_live h hmem hqT hq hbreak
        -- A deletion forgets what was saved, a value takes its place.
        cases htype : q.key.type with
        | deletion =>
          dsimp only
          refine findPrevLoop_spec h Q (q :: T) U _ _ _ hes' hU' (.nothing fun x hx => ?_)
          rcases List.mem_cons.mp hx with rfl | hx
          · rw [← Bool.not_eq_true, isLive_iff, htype]
            simp
          · exact hdead x hx
        | value =>
          dsimp only
          refine findPrevLoop_spec h Q (q :: T) U _ _ _ hes' hU'
            (.saved q List.mem_cons_self hq htype (fun x hx _ => ?_) fun x hx hne => ?_)
          · rcases List.mem_cons.mp hx with rfl | hx
            · exact le_refl _
            · exact (hqT x hx).le
          · rcases List.mem_cons.mp hx with rfl | hx
            · exact absurd rfl hne
            · exact hdead x hx
    · rw [if_neg hq, hsearch]
      exact findPrevLoop_spec h Q (q :: T) U _ _ _ hes' hU' (hready.unseen hq)

/-! ## The calls -/

/-- The iterator shows `c`: it is not valid when there is nothing to show; else it is at a live entry,
or moving backwards with that entry saved. -/
def Follows (es : List (Entry K V)) (s : ℕ) (it : DbIter K V) (c : Option (K × V)) : Prop :=
  match c with
  | none => it.valid = false
  | some p => it.valid = true ∧ ∃ e ∈ es, isLive es s e = true ∧ e.pair = p ∧
      ((it.direction = .forward ∧ ∃ i, it.iter = some i ∧ es[i]? = some e) ∨
        (it.direction = .reverse ∧ it.savedKey = some e.key.userKey ∧
          it.savedValue = some e.value ∧ JustBefore es s e.key.userKey it.iter))

/-- What an iterator shows is what is observed of it. -/
theorem Follows.observe {it : DbIter K V} {c : Option (K × V)} (h : Follows es s it c) :
    it.observe es = (c.isSome, c) := by
  cases c with
  | none =>
    have hv : it.valid = false := h
    simp [DbIter.observe, hv]
  | some p =>
    obtain ⟨hv, e, -, -, rfl, ⟨hd, i, hi, he⟩ | ⟨hd, hk, hval, -⟩⟩ := h
    · simp [DbIter.observe, hv, hd, hi, he, Entry.pair]
    · simp [DbIter.observe, hv, hd, hk, hval, Entry.pair]

/-- `FindNextUserEntry` shows the first live entry that is not skipped. -/
theorem follows_findNextUserEntry (h : IterEntries es) {P R : List (Entry K V)} (hes : es = P ++ R)
    {skipping : Bool} {skip : Option K} (hready : NextReady s P R skipping skip) {it : DbIter K V}
    (hd : it.direction = .forward) :
    Follows es s (it.findNextUserEntry es s P.length skipping skip)
      ((R.find? fun e => isLive es s e && !skips skipping skip e.key.userKey).map Entry.pair) := by
  have hloop := findNextLoop_spec h R P skipping skip hes hready
  have hdrop : es.drop P.length = R := by rw [hes, List.drop_left]
  unfold DbIter.findNextUserEntry
  rw [hdrop]
  cases hf : R.find? fun e => isLive es s e && !skips skipping skip e.key.userKey with
  | none =>
    rw [hf] at hloop
    have hnone : findNextLoop s skipping skip R P.length = none := hloop
    rw [hnone]
    rfl
  | some e =>
    rw [hf] at hloop
    obtain ⟨i, hi, hget⟩ := hloop
    have hlive := List.find?_some hf
    rw [Bool.and_eq_true] at hlive
    rw [hi]
    exact ⟨rfl, e, List.mem_of_getElem? hget, hlive.1, rfl, Or.inl ⟨hd, i, rfl, hget⟩⟩

/-- `FindPrevUserEntry` shows the last live entry with a property that all entries up to the
position of the internal iterator have, and no visible entry after it. -/
theorem follows_findPrevUserEntry (h : IterEntries es) {it : DbIter K V}
    (hd : it.direction = .reverse) {P U : List (Entry K V)} (hes : es = P ++ U)
    (hback : backFrom es it.iter = P.reverse) (q : K → Bool)
    (hP : ∀ x ∈ P, q x.key.userKey = true)
    (hU : ∀ u ∈ U, u.key.sequence ≤ s → q u.key.userKey = false) :
    Follows es s (it.findPrevUserEntry es s)
      ((visibleMap es s).reverse.find? fun p => q p.1) := by
  have hne : ∀ u ∈ U, u.key.sequence ≤ s → ∀ x ∈ P.reverse.reverse ++ [],
      x.key.userKey ≠ u.key.userKey := by
    intro u hu hus x hx hk
    rw [List.append_nil, List.reverse_reverse] at hx
    have h1 := hP x hx
    rw [hk, hU u hu hus] at h1
    exact Bool.false_ne_true h1
  have hloop := findPrevLoop_spec h P.reverse [] U .deletion it.savedKey it.savedValue
    (by rw [List.reverse_reverse, List.append_nil, hes]) hne (.nothing (by simp))
  rw [List.reverse_nil, List.nil_append] at hloop
  -- The search of the visible map only ever finds entries of `P`.
  have hfind : (es.reverse.find? fun e => isLive es s e && q e.key.userKey) =
      P.reverse.find? (isLive es s) := by
    have hnone : (U.reverse.find? fun e => isLive es s e && q e.key.userKey) = none := by
      refine List.find?_eq_none.mpr fun u hu hl => ?_
      rw [Bool.and_eq_true, isLive_iff] at hl
      rw [hU u (List.mem_reverse.mp hu) hl.1.1] at hl
      exact Bool.false_ne_true hl.2
    rw [hes, List.reverse_append, List.find?_append, ← hes, hnone, Option.none_or]
    refine List.find?_congr fun x hx => ?_
    rw [hP x (List.mem_reverse.mp hx), Bool.and_true]
  rw [visibleMap_reverse_find?, hfind]
  unfold DbIter.findPrevUserEntry
  rw [hback]
  cases hf : P.reverse.find? (isLive es s) with
  | none =>
    rw [hf] at hloop
    have hdel : (findPrevLoop s P.reverse .deletion it.savedKey it.savedValue).valueType =
        .deletion := hloop
    rw [if_pos hdel]
    rfl
  | some e =>
    rw [hf] at hloop
    obtain ⟨hvt, hk, hv, hjb⟩ := hloop
    have hmem : e ∈ es := by
      rw [hes]
      exact List.mem_append_left U (List.mem_reverse.mp (List.mem_of_find?_eq_some hf))
    rw [if_neg (by rw [hvt]; simp)]
    exact ⟨rfl, e, hmem, List.find?_some hf, rfl, Or.inr ⟨hd, hk, hv, hjb⟩⟩

/-- With nothing to skip, nothing is skipped. -/
theorem nextReady_nil (R : List (Entry K V)) (skip : Option K) : NextReady s [] R false skip where
  seen p hp := by simp at hp
  le k hk := by simp at hk

/-- `SeekToFirst` shows the first key that the snapshot sees, from any state of the iterator. -/
theorem follows_seekToFirst (h : IterEntries es) (it : DbIter K V) :
    Follows es s (it.seekToFirst es s) (visibleMap es s).head? := by
  have hhead : (visibleMap es s).head? =
      (es.find? fun e => isLive es s e && !skips false it.savedKey e.key.userKey).map
        Entry.pair := by
    rw [visibleMap, List.head?_map, List.head?_filter]
    congr 1
    refine List.find?_congr fun e _ => ?_
    rw [skips, Bool.false_and, Bool.not_false, Bool.and_true]
  rw [hhead]
  unfold DbIter.seekToFirst
  cases es with
  | nil => rfl
  | cons e es' =>
    exact follows_findNextUserEntry h (P := []) rfl (nextReady_nil _ _) rfl

/-- `SeekToLast` shows the last key that the snapshot sees, from any state of the iterator. -/
theorem follows_seekToLast (h : IterEntries es) (it : DbIter K V) :
    Follows es s (it.seekToLast es s) (visibleMap es s).getLast? := by
  have hlast : (visibleMap es s).getLast? =
      (visibleMap es s).reverse.find? fun p => (fun _ => true) p.1 := by
    rw [List.getLast?_eq_head?_reverse]
    cases (visibleMap es s).reverse <;> rfl
  rw [hlast]
  refine follows_findPrevUserEntry h rfl (P := es) (U := []) (by simp) ?_ (fun _ => true)
    (fun _ _ => rfl) (by simp)
  cases es with
  | nil => rfl
  | cons e es' => simp [backFrom, lastPos]

/-- `Seek` shows the first key at or after the target. -/
theorem follows_seek (h : IterEntries es) (hs : s ≤ kMaxSequenceNumber) (it : DbIter K V)
    (target : K) : Follows es s (it.seek es s target)
      ((visibleMap es s).find? fun p => decide (target ≤ p.1)) := by
  -- An entry that lies before the position has a smaller user key, or is not visible.
  have hbefore : ∀ x : Entry K V, ¬ lookupKey target s ≤ x.key → x.key.sequence ≤ s →
      x.key.userKey < target := by
    intro x hx hxs
    rw [lookupKey_le_iff hs, not_or, not_lt] at hx
    exact lt_of_le_of_ne hx.1 fun hk => hx.2 ⟨hk.symm, hxs⟩
  rw [visibleMap_find? fun k => decide (target ≤ k)]
  unfold DbIter.seek
  cases hpos : es.findIdx? fun e => decide (lookupKey target s ≤ e.key) with
  | none =>
    have hnone : (es.find? fun e => isLive es s e && decide (target ≤ e.key.userKey)) = none := by
      refine List.find?_eq_none.mpr fun x hx hl => ?_
      rw [Bool.and_eq_true, isLive_iff, decide_eq_true_eq] at hl
      have hx' := List.findIdx?_eq_none_iff.mp hpos x hx
      exact absurd hl.2 (not_le.mpr (hbefore x (of_decide_eq_false hx') hl.1.1))
    rw [hnone]
    rfl
  | some i =>
    obtain ⟨hi, hat, hmin⟩ := List.findIdx?_eq_some_iff_getElem.mp hpos
    have hes : es = es.take i ++ es.drop i := (List.take_append_drop i es).symm
    have hlen : (es.take i).length = i := by rw [List.length_take]; omega
    have hP : ∀ x ∈ es.take i, x.key.sequence ≤ s → x.key.userKey < target := by
      intro x hx hxs
      obtain ⟨j, hj, rfl⟩ := List.mem_iff_getElem.mp hx
      rw [List.getElem_take] at hxs ⊢
      rw [List.length_take] at hj
      exact hbefore _ (by simpa using hmin j (by omega)) hxs
    have hR : ∀ r ∈ es.drop i, target ≤ r.key.userKey := by
      intro r hr
      have hhead : es[i].key ≤ r.key := by
        have hdrop : es.drop i = es[i] :: es.drop (i + 1) := List.drop_eq_getElem_cons hi
        have hsorted := h.sorted.sublist (List.drop_sublist i es)
        exact KeySorted.head_le hsorted (by rw [hdrop]; rfl) hr
      have hle := (of_decide_eq_true hat).trans hhead
      rw [lookupKey_le_iff hs] at hle
      rcases hle with hle | ⟨hle, -⟩
      · exact hle.le
      · exact hle.le
    have hready : NextReady s (es.take i) (es.drop i) false (none : Option K) :=
      ⟨fun p hp hps r hr hk => absurd (hR r hr) (not_le.mpr (hk ▸ hP p hp hps)),
        fun k hk => by simp at hk⟩
    let it' : DbIter K V :=
      { it with direction := .forward, savedValue := none, savedKey := none, iter := some i }
    have hfollow := follows_findNextUserEntry h hes hready (show it'.direction = .forward from rfl)
    rw [hlen] at hfollow
    convert hfollow using 2
    have hnone : ((es.take i).find? fun e => isLive es s e && decide (target ≤ e.key.userKey)) =
        none := by
      refine List.find?_eq_none.mpr fun x hx hl => ?_
      rw [Bool.and_eq_true, isLive_iff, decide_eq_true_eq] at hl
      exact absurd hl.2 (not_le.mpr (hP x hx hl.1.1))
    conv_lhs => rw [hes]
    rw [List.find?_append, ← hes, hnone, Option.none_or]
    refine List.find?_congr fun r hr => ?_
    rw [skips, Bool.false_and, Bool.not_false, decide_eq_true (hR r hr)]

/-- Entries from a position on come after those before it. -/
theorem KeySorted.take_lt_drop (h : KeySorted es) (i : ℕ) :
    ∀ x ∈ es.take i, ∀ y ∈ es.drop i, x.key < y.key := by
  have hsplit : KeySorted (es.take i ++ es.drop i) := by rwa [List.take_append_drop]
  exact (List.pairwise_append.mp hsplit).2.2

/-- `FindNextUserEntry` that skips the user key of the entry where it starts shows the next key. -/
theorem follows_skip (h : IterEntries es) {i : ℕ} {e : Entry K V} (he : es[i]? = some e)
    (hseen : ∀ p ∈ es.take i, p.key.sequence ≤ s → ∀ r ∈ es.drop i,
      r.key.userKey = p.key.userKey → r.key.userKey ≤ e.key.userKey) {it : DbIter K V}
    (hd : it.direction = .forward) :
    Follows es s (it.findNextUserEntry es s i true (some e.key.userKey))
      ((visibleMap es s).find? fun p => decide (e.key.userKey < p.1)) := by
  obtain ⟨hi, hget⟩ := List.getElem?_eq_some_iff.mp he
  have hes : es = es.take i ++ es.drop i := (List.take_append_drop i es).symm
  have hlen : (es.take i).length = i := by rw [List.length_take]; omega
  have hdrop : es.drop i = e :: es.drop (i + 1) := by rw [← hget, List.drop_eq_getElem_cons hi]
  have hskips : ∀ k, skips true (some e.key.userKey) k = decide (k ≤ e.key.userKey) :=
    fun k => by simp [skips]
  have hready : NextReady s (es.take i) (es.drop i) true (some e.key.userKey) := by
    refine ⟨fun p hp hps r hr hk => ?_, fun k _ hk r hr => ?_⟩
    · rw [hskips, decide_eq_true (hseen p hp hps r hr hk)]
    · rw [← Option.some.inj hk]
      have hsorted := h.sorted.sublist (List.drop_sublist i es)
      exact InternalKey.userKey_le (KeySorted.head_le hsorted (by rw [hdrop]; rfl) hr)
  have hfollow := follows_findNextUserEntry h hes hready hd
  rw [hlen] at hfollow
  convert hfollow using 1
  rw [visibleMap_find? fun k => decide (e.key.userKey < k)]
  congr 1
  -- Before the position there are only smaller or equal user keys.
  have hnone : ((es.take i).find? fun x => isLive es s x && decide (e.key.userKey < x.key.userKey)) =
      none := by
    refine List.find?_eq_none.mpr fun x hx hl => ?_
    rw [Bool.and_eq_true, decide_eq_true_eq] at hl
    have hlt := h.sorted.take_lt_drop i x hx e (by rw [hdrop]; exact List.mem_cons_self)
    exact absurd hl.2 (not_lt.mpr (InternalKey.userKey_le hlt.le))
  conv_lhs => rw [hes]
  rw [List.find?_append, ← hes, hnone, Option.none_or]
  refine List.find?_congr fun r _ => ?_
  rw [hskips, ← decide_not, decide_eq_decide.mpr not_le]

/-- `Next` while moving forward shows the next key. -/
theorem follows_next_forward (h : IterEntries es) {it : DbIter K V} {e : Entry K V}
    (hd : it.direction = .forward) {i : ℕ} (hi : it.iter = some i) (he : es[i]? = some e) :
    Follows es s (it.next es s)
      ((visibleMap es s).find? fun p => decide (e.key.userKey < p.1)) := by
  have hpos : it.switchForward es = some i := by rw [DbIter.switchForward, hd, hi]
  unfold DbIter.next
  rw [hpos]
  dsimp only [Option.bind_some]
  rw [he]
  refine follows_skip h he (fun p hp _ r hr hk => ?_) rfl
  obtain ⟨hlt, hget⟩ := List.getElem?_eq_some_iff.mp he
  have hmem : e ∈ es.drop i := by
    rw [List.drop_eq_getElem_cons hlt, hget]
    exact List.mem_cons_self
  rw [hk]
  exact InternalKey.userKey_le (h.sorted.take_lt_drop i p hp e hmem).le

/-- The first position after the internal iterator. -/
def afterPos : Option ℕ → ℕ
  | none => 0
  | some i => i + 1

/-- What lies behind the internal iterator when it is just before a user key. -/
theorem JustBefore.lt_of_mem_take (h : KeySorted es) {k : K} {pos : Option ℕ}
    (hjb : JustBefore es s k pos) : ∀ x ∈ es.take (afterPos pos), x.key.userKey < k := by
  intro x hx
  cases pos with
  | none => simp [afterPos] at hx
  | some i =>
    obtain ⟨⟨q, hq, -, hqk⟩, -⟩ := hjb
    obtain ⟨hlt, hget⟩ := List.getElem?_eq_some_iff.mp hq
    have hle : x.key ≤ q.key := by
      have hsplit : es.take (i + 1) = es.take i ++ [q] := by
        rw [List.take_add_one, hq, Option.toList_some]
      rw [afterPos, hsplit, List.mem_append, List.mem_singleton] at hx
      rcases hx with hx | rfl
      · refine (h.take_lt_drop i x hx q ?_).le
        rw [List.drop_eq_getElem_cons hlt, hget]
        exact List.mem_cons_self
      · exact le_refl _
    exact (InternalKey.userKey_le hle).trans_lt hqk

/-- What the snapshot sees of the entries after the internal iterator. -/
theorem JustBefore.le_of_mem_drop {k : K} {pos : Option ℕ} (hjb : JustBefore es s k pos) :
    ∀ x ∈ es.drop (afterPos pos), x.key.sequence ≤ s → k ≤ x.key.userKey := by
  cases pos with
  | none => exact fun x hx => hjb x (List.mem_of_mem_drop hx)
  | some i => exact hjb.2

/-- `Prev` while moving backwards shows the previous key. -/
theorem follows_prev_reverse (h : IterEntries es) {it : DbIter K V} {k : K}
    (hd : it.direction = .reverse) (hjb : JustBefore es s k it.iter) :
    Follows es s (it.prev es s) ((visibleMap es s).reverse.find? fun p => decide (p.1 < k)) := by
  unfold DbIter.prev
  rw [hd]
  dsimp only
  refine follows_findPrevUserEntry h hd (List.take_append_drop (afterPos it.iter) es).symm ?_
    (fun k' => decide (k' < k)) (fun x hx => ?_) fun u hu hus => ?_
  · cases it.iter with
    | none => rfl
    | some i => rfl
  · exact decide_eq_true (hjb.lt_of_mem_take h.sorted x hx)
  · exact decide_eq_false (not_lt.mpr (hjb.le_of_mem_drop u hu hus))

/-- The scan of `Prev` stops at the last entry with a smaller user key. -/
theorem scanBack_spec (k : K) : ∀ Q : List (Entry K V),
    (scanBack k Q = none ∧ ∀ x ∈ Q, k ≤ x.key.userKey) ∨
    ∃ A q B, Q = A ++ q :: B ∧ scanBack k Q = some B.length ∧ q.key.userKey < k ∧
      ∀ x ∈ A, k ≤ x.key.userKey
  | [] => Or.inl ⟨rfl, by simp⟩
  | q :: Q => by
    rw [scanBack]
    by_cases hq : q.key.userKey < k
    · rw [if_pos hq]
      exact Or.inr ⟨[], q, Q, rfl, rfl, hq, by simp⟩
    · rw [if_neg hq]
      rcases scanBack_spec k Q with ⟨hnone, hall⟩ | ⟨A, q', B, rfl, hpos, hq', hA⟩
      · refine Or.inl ⟨hnone, fun x hx => ?_⟩
        rcases List.mem_cons.mp hx with rfl | hx
        · exact not_lt.mp hq
        · exact hall x hx
      · refine Or.inr ⟨q :: A, q', B, rfl, hpos, hq', fun x hx => ?_⟩
        rcases List.mem_cons.mp hx with rfl | hx
        · exact not_lt.mp hq
        · exact hA x hx

/-- `Prev` while moving forward shows the previous key. -/
theorem follows_prev_forward (h : IterEntries es) {it : DbIter K V} {e : Entry K V}
    (hd : it.direction = .forward) {i : ℕ} (hi : it.iter = some i) (he : es[i]? = some e) :
    Follows es s (it.prev es s)
      ((visibleMap es s).reverse.find? fun p => decide (p.1 < e.key.userKey)) := by
  obtain ⟨hlt, hget⟩ := List.getElem?_eq_some_iff.mp he
  have hdrop : ∀ x ∈ es.drop i, e.key.userKey ≤ x.key.userKey := by
    intro x hx
    have hsorted := h.sorted.sublist (List.drop_sublist i es)
    refine InternalKey.userKey_le (KeySorted.head_le hsorted ?_ hx)
    rw [List.drop_eq_getElem_cons hlt, hget]
    rfl
  unfold DbIter.prev
  rw [hd, hi]
  dsimp only [Option.bind_some]
  rw [he]
  dsimp only [Option.map_some]
  rcases scanBack_spec e.key.userKey (es.take i).reverse with
    ⟨hnone, hall⟩ | ⟨A, q, B, hQ, hpos, hq, hA⟩
  · -- Every entry before the position has the current user key, and no key is smaller.
    rw [hnone, visibleMap_reverse_find? fun k => decide (k < e.key.userKey)]
    have hno : (es.reverse.find? fun x => isLive es s x && decide (x.key.userKey < e.key.userKey)) =
        none := by
      refine List.find?_eq_none.mpr fun x hx hl => ?_
      rw [Bool.and_eq_true, decide_eq_true_eq] at hl
      rw [List.mem_reverse, ← List.take_append_drop i es, List.mem_append] at hx
      rcases hx with hx | hx
      · exact absurd hl.2 (not_lt.mpr (hall x (List.mem_reverse.mpr hx)))
      · exact absurd hl.2 (not_lt.mpr (hdrop x hx))
    rw [hno]
    rfl
  · rw [hpos]
    have htake : es.take i = (B.reverse ++ [q]) ++ A.reverse := by
      rw [← List.reverse_reverse (es.take i), hQ]
      simp
    have hes : es = (B.reverse ++ [q]) ++ (A.reverse ++ es.drop i) := by
      rw [← List.append_assoc, ← htake, List.take_append_drop]
    have hlen : (B.reverse ++ [q]).length = B.length + 1 := by simp
    refine follows_findPrevUserEntry h rfl hes ?_ (fun k => decide (k < e.key.userKey))
      (fun x hx => ?_) fun u hu hus => ?_
    · show (es.take (B.length + 1)).reverse = _
      rw [← hlen, hes, List.take_left]
    · rw [decide_eq_true_eq]
      rw [List.mem_append, List.mem_singleton] at hx
      rcases hx with hx | rfl
      · have hsorted := h.sorted
        rw [KeySorted, hes, List.pairwise_append, List.pairwise_append] at hsorted
        have hxq := hsorted.1.2.2 x hx q (List.mem_singleton_self q)
        exact (InternalKey.userKey_le hxq.le).trans_lt hq
      · exact hq
    · rw [decide_eq_false_iff_not, not_lt]
      rcases List.mem_append.mp hu with hu | hu
      · exact hA u (List.mem_reverse.mp hu)
      · exact hdrop u hu

/-! ## `Next` after moving backwards -/

/-- `Next` while moving backwards skips the user key of the first entry after the internal
iterator. -/
theorem follows_next_reverse (h : IterEntries es) {it : DbIter K V} {e : Entry K V}
    (hd : it.direction = .reverse) (he : e ∈ es) (hjb : JustBefore es s e.key.userKey it.iter) :
    ∃ x, es[afterPos it.iter]? = some x ∧ x.key ≤ e.key ∧
      (∀ p ∈ es.take (afterPos it.iter), p.key.sequence ≤ s → p.key.userKey < x.key.userKey) ∧
      Follows es s (it.next es s)
        ((visibleMap es s).find? fun p => decide (x.key.userKey < p.1)) := by
  -- The current key lies after the internal iterator.
  have hdrop : e ∈ es.drop (afterPos it.iter) := by
    rw [← List.take_append_drop (afterPos it.iter) es, List.mem_append] at he
    refine he.resolve_left fun hmem => ?_
    exact lt_irrefl _ (hjb.lt_of_mem_take h.sorted e hmem)
  have hlt : afterPos it.iter < es.length := by
    by_contra hge
    rw [List.drop_eq_nil_of_le (by omega)] at hdrop
    simp at hdrop
  obtain ⟨x, hx⟩ : ∃ x, es[afterPos it.iter]? = some x := ⟨_, List.getElem?_eq_getElem hlt⟩
  have hhead : (es.drop (afterPos it.iter)).head? = some x := by rw [List.head?_drop, hx]
  have hsorted : KeySorted (es.drop (afterPos it.iter)) :=
    h.sorted.sublist (List.drop_sublist (afterPos it.iter) es)
  -- Visible entries before the position have smaller user keys than those after it.
  have hless : ∀ p ∈ es.take (afterPos it.iter), p.key.sequence ≤ s →
      ∀ r ∈ es.drop (afterPos it.iter), p.key.userKey < r.key.userKey := by
    intro p hp hps r hr
    have hpr := h.sorted.take_lt_drop _ p hp r hr
    refine lt_of_le_of_ne (InternalKey.userKey_le hpr.le) fun hk => ?_
    have hrs := (InternalKey.sequence_le_of_le hpr.le hk).trans hps
    have hge := hjb.le_of_mem_drop r hr hrs
    rw [← hk] at hge
    exact absurd (hjb.lt_of_mem_take h.sorted p hp) (not_lt.mpr hge)
  refine ⟨x, hx, hsorted.head_le hhead hdrop,
    fun p hp hps => hless p hp hps x (List.mem_of_mem_head? hhead), ?_⟩
  have hpos : it.switchForward es = some (afterPos it.iter) := by
    rw [DbIter.switchForward, hd]
    cases hi : it.iter with
    | none =>
      rw [hi] at hlt
      have hne : es ≠ [] := List.ne_nil_of_mem he
      simp [firstPos, hne, afterPos]
    | some i =>
      rw [hi] at hlt
      exact if_pos hlt
  unfold DbIter.next
  rw [hpos]
  dsimp only [Option.bind_some]
  rw [hx]
  refine follows_skip h hx (fun p hp hps r hr hk => ?_) rfl
  exact absurd hk (hless p hp hps r hr).ne'

/-- Without a hidden key before the current one, `Next` after moving backwards shows the next key. -/
theorem follows_next_of_not_hidden (h : IterEntries es) (hno : ¬ HiddenKeyBeforeLive es s)
    {it : DbIter K V} {e : Entry K V} (hd : it.direction = .reverse) (he : e ∈ es)
    (hlive : isLive es s e = true) (hjb : JustBefore es s e.key.userKey it.iter) :
    Follows es s (it.next es s)
      ((visibleMap es s).find? fun p => decide (e.key.userKey < p.1)) := by
  obtain ⟨x, hx, hxe, hbefore, hfollow⟩ := follows_next_reverse h hd he hjb
  have hk : x.key.userKey = e.key.userKey := by
    by_contra hne
    refine hno ⟨x, List.mem_of_getElem? hx, e, he, hlive,
      lt_of_le_of_ne (InternalKey.userKey_le hxe) hne, fun y hy hys => ?_⟩
    rw [← List.take_append_drop (afterPos it.iter) es, List.mem_append] at hy
    rcases hy with hy | hy
    · exact Or.inl (hbefore y hy hys)
    · exact Or.inr (hjb.le_of_mem_drop y hy hys)
  rwa [hk] at hfollow

/-- With a hidden key before the current one, `Next` after moving backwards shows something that is
not after the current key. -/
theorem not_follows_next_of_hidden (h : IterEntries es) {x e : Entry K V} (hx : x ∈ es)
    (he : e ∈ es) (hlive : isLive es s e = true) (hxe : x.key.userKey < e.key.userKey)
    (hgap : ∀ y ∈ es, y.key.sequence ≤ s →
      y.key.userKey < x.key.userKey ∨ e.key.userKey ≤ y.key.userKey)
    {it : DbIter K V} (hd : it.direction = .reverse) (hjb : JustBefore es s e.key.userKey it.iter) :
    ∃ p, Follows es s (it.next es s) (some p) ∧ p.1 ≤ e.key.userKey := by
  obtain ⟨x', hx', -, -, hfollow⟩ := follows_next_reverse h hd he hjb
  -- The hidden key lies after the internal iterator, so the skipped key is not after it.
  have hxdrop : x ∈ es.drop (afterPos it.iter) := by
    rw [← List.take_append_drop (afterPos it.iter) es, List.mem_append] at hx
    refine hx.resolve_left fun hmem => ?_
    cases hi : it.iter with
    | none =>
      rw [hi] at hmem
      simp [afterPos] at hmem
    | some i =>
      rw [hi] at hmem hjb
      obtain ⟨⟨q, hq, hqs, hqe⟩, -⟩ := hjb
      have hqx : q.key.userKey < x.key.userKey :=
        (hgap q (List.mem_of_getElem? hq) hqs).resolve_right (not_le.mpr hqe)
      have hsplit : es.take (i + 1) = es.take i ++ [q] := by
        rw [List.take_add_one, hq, Option.toList_some]
      rw [afterPos, hsplit, List.mem_append, List.mem_singleton] at hmem
      obtain ⟨hlt, hget⟩ := List.getElem?_eq_some_iff.mp hq
      rcases hmem with hmem | rfl
      · have hxq := h.sorted.take_lt_drop i x hmem q (by
          rw [List.drop_eq_getElem_cons hlt, hget]
          exact List.mem_cons_self)
        exact absurd hqx (not_lt.mpr (InternalKey.userKey_le hxq.le))
      · exact lt_irrefl _ hqx
  have hhead : (es.drop (afterPos it.iter)).head? = some x' := by rw [List.head?_drop, hx']
  have hsorted : KeySorted (es.drop (afterPos it.iter)) :=
    h.sorted.sublist (List.drop_sublist (afterPos it.iter) es)
  have hx'x : x'.key.userKey ≤ x.key.userKey :=
    InternalKey.userKey_le (hsorted.head_le hhead hxdrop)
  have hlt : x'.key.userKey < e.key.userKey := hx'x.trans_lt hxe
  -- So the current entry itself is found, or one before it.
  rw [visibleMap_find? fun k => decide (x'.key.userKey < k)] at hfollow
  cases hf : es.find? fun y => isLive es s y && decide (x'.key.userKey < y.key.userKey) with
  | none =>
    have hno := List.find?_eq_none.mp hf e he
    rw [hlive, decide_eq_true hlt] at hno
    exact absurd rfl hno
  | some y =>
    rw [hf] at hfollow
    refine ⟨y.pair, hfollow, ?_⟩
    obtain ⟨-, A, B, hsplit, hA⟩ := List.find?_eq_some_iff_append.mp hf
    rw [hsplit] at he
    have hsorted' := h.sorted
    rw [KeySorted, hsplit, List.pairwise_append, List.pairwise_cons] at hsorted'
    rcases List.mem_append.mp he with he | he
    · have := hA e he
      rw [hlive, decide_eq_true hlt] at this
      exact absurd this (by decide)
    · rcases List.mem_cons.mp he with rfl | he
      · exact le_refl _
      · exact InternalKey.userKey_le (hsorted'.2.1.1 e he).le

/-! ## Every sequence of calls -/

/-- Without hidden keys, one call keeps the iterator with the cursor. -/
theorem Follows.call (h : IterEntries es) (hs : s ≤ kMaxSequenceNumber)
    (hno : ¬ HiddenKeyBeforeLive es s) {it : DbIter K V} {c : Option (K × V)}
    (hf : Follows es s it c) (call : IterCall K) :
    match it.call es s call, cursorCall (visibleMap es s) c call with
    | some it', some c' => Follows es s it' c'
    | none, none => True
    | _, _ => False := by
  cases call with
  | seekToFirst => exact follows_seekToFirst h it
  | seekToLast => exact follows_seekToLast h it
  | seek target => exact follows_seek h hs it target
  | next =>
    cases c with
    | none =>
      have hv : it.valid = false := hf
      simp [DbIter.call, cursorCall, hv]
    | some p =>
      obtain ⟨hv, e, he, hlive, rfl, ⟨hd, i, hi, hget⟩ | ⟨hd, -, -, hjb⟩⟩ := hf
      · simp only [DbIter.call, hv, if_true, cursorCall, Option.map_some]
        exact follows_next_forward h hd hi hget
      · simp only [DbIter.call, hv, if_true, cursorCall, Option.map_some]
        exact follows_next_of_not_hidden h hno hd he hlive hjb
  | prev =>
    cases c with
    | none =>
      have hv : it.valid = false := hf
      simp [DbIter.call, cursorCall, hv]
    | some p =>
      obtain ⟨hv, e, he, hlive, rfl, ⟨hd, i, hi, hget⟩ | ⟨hd, -, -, hjb⟩⟩ := hf
      · simp only [DbIter.call, hv, if_true, cursorCall, Option.map_some]
        exact follows_prev_forward h hd hi hget
      · simp only [DbIter.call, hv, if_true, cursorCall, Option.map_some]
        exact follows_prev_reverse h hd hjb

/-- Without hidden keys, every sequence of calls keeps the iterator with the cursor. -/
theorem Follows.run (h : IterEntries es) (hs : s ≤ kMaxSequenceNumber)
    (hno : ¬ HiddenKeyBeforeLive es s) : ∀ (calls : List (IterCall K)) {it : DbIter K V}
    {c : Option (K × V)}, Follows es s it c →
    (it.run es s calls).map (DbIter.observe es) =
      (cursorRun (visibleMap es s) c calls).map fun c => (c.isSome, c)
  | [], it, c, hf => by
    simp only [DbIter.run, cursorRun, List.foldlM_nil, pure, Option.map_some]
    rw [hf.observe]
  | call :: calls, it, c, hf => by
    have hstep := hf.call h hs hno call
    simp only [DbIter.run, cursorRun, List.foldlM_cons, bind]
    cases hit : it.call es s call with
    | none =>
      cases hc : cursorCall (visibleMap es s) c call with
      | none => rfl
      | some c' =>
        rw [hit, hc] at hstep
        exact hstep.elim
    | some it' =>
      cases hc : cursorCall (visibleMap es s) c call with
      | none =>
        rw [hit, hc] at hstep
        exact hstep.elim
      | some c' =>
        rw [hit, hc] at hstep
        exact Follows.run h hs hno calls hstep

/-- `FindPrevUserEntry` keeps moving backwards as long as it is valid. -/
theorem findPrevUserEntry_direction {it : DbIter K V} (hd : it.direction = .reverse)
    (hv : (it.findPrevUserEntry es s).valid = true) :
    (it.findPrevUserEntry es s).direction = .reverse := by
  unfold DbIter.findPrevUserEntry at hv ⊢
  dsimp only at hv ⊢
  split_ifs at hv ⊢ with hvt
  exact hd

/-- An iterator that moves backwards and shows a live entry is just before it. -/
theorem Follows.justBefore {it : DbIter K V} {e : Entry K V} (hf : Follows es s it (some e.pair))
    (hd : it.direction = .reverse) : JustBefore es s e.key.userKey it.iter := by
  obtain ⟨-, e', -, -, hpair, ⟨hd', -⟩ | ⟨-, -, -, hjb⟩⟩ := hf
  · rw [hd] at hd'
    exact absurd hd' (by decide)
  · have hk : e'.key.userKey = e.key.userKey := (Prod.mk.inj hpair).1
    rwa [hk] at hjb

/-- Calls of `SeekToLast` and `Prev` reach every live key backwards. -/
theorem reach_backwards (h : IterEntries es) : ∀ (A : List (Entry K V)) {e : Entry K V}
    {B : List (Entry K V)}, es.filter (isLive es s) = B ++ e :: A →
    ∃ calls it, DbIter.run es s {} calls = some it ∧
      cursorRun (visibleMap es s) none calls = some (some e.pair) ∧ it.direction = .reverse ∧
      Follows es s it (some e.pair)
  | [], e, B, hsplit => by
    have hlast : (visibleMap es s).getLast? = some e.pair := by
      rw [visibleMap, hsplit, List.map_append, List.map_cons, List.map_nil,
        List.getLast?_append, List.getLast?_singleton, Option.some_or]
    have hf := follows_seekToLast (s := s) h {}
    rw [hlast] at hf
    refine ⟨[.seekToLast], _, rfl, ?_, findPrevUserEntry_direction rfl hf.1, hf⟩
    simp only [cursorRun, List.foldlM_cons, List.foldlM_nil, cursorCall, hlast, bind, pure,
      Option.bind_some]
  | e' :: A, e, B, hsplit => by
    have hsplit' : es.filter (isLive es s) = (B ++ [e]) ++ e' :: A := by
      rw [hsplit, List.append_assoc, List.singleton_append]
    obtain ⟨calls, it, hrun, hcur, hd, hf⟩ := reach_backwards h A hsplit'
    have hjb := hf.justBefore hd
    have hprev := follows_prev_reverse h hd hjb
    -- The entries of the visible map up to `e'` are not before it; `e` is.
    have hsorted : KeySorted (es.filter (isLive es s)) := h.sorted.sublist List.filter_sublist
    have hlive : ∀ y ∈ es.filter (isLive es s), y ∈ es ∧ isLive es s y = true :=
      fun y hy => List.mem_filter.mp hy
    have hee' : e.key.userKey < e'.key.userKey := by
      rw [hsplit, KeySorted, List.pairwise_append, List.pairwise_cons] at hsorted
      have hlt := hsorted.2.1.1 e' List.mem_cons_self
      refine lt_of_le_of_ne (InternalKey.userKey_le hlt.le) fun hk => ?_
      have he := hlive e (by rw [hsplit]; simp)
      have he' := hlive e' (by rw [hsplit]; simp)
      rw [h.live_unique he.1 he'.1 he.2 he'.2 hk] at hlt
      exact lt_irrefl _ hlt
    have hge : ∀ y ∈ e' :: A, ¬ y.key.userKey < e'.key.userKey := by
      intro y hy
      rcases List.mem_cons.mp hy with rfl | hy
      · exact lt_irrefl _
      · rw [hsplit', KeySorted, List.pairwise_append, List.pairwise_cons] at hsorted
        exact not_lt.mpr (InternalKey.userKey_le (hsorted.2.1.1 y hy).le)
    have hfind : ((visibleMap es s).reverse.find? fun p => decide (p.1 < e'.key.userKey)) =
        some e.pair := by
      have hnone : ((e' :: A).map Entry.pair).reverse.find?
          (fun p => decide (p.1 < e'.key.userKey)) = none := by
        refine List.find?_eq_none.mpr fun p hp => ?_
        obtain ⟨y, hy, rfl⟩ := List.mem_map.mp (List.mem_reverse.mp hp)
        rw [decide_eq_true_eq]
        exact hge y hy
      rw [visibleMap, hsplit', List.map_append, List.map_append, List.map_singleton,
        List.reverse_append, List.find?_append, hnone, Option.none_or, List.reverse_append,
        List.reverse_singleton, List.singleton_append, List.find?_cons_of_pos]
      exact decide_eq_true hee'
    rw [hfind] at hprev
    have hcall : it.call es s .prev = some (it.prev es s) := by
      rw [DbIter.call, if_pos hf.1]
    refine ⟨calls ++ [.prev], it.prev es s, ?_, ?_, ?_, hprev⟩
    · rw [DbIter.run, List.foldlM_append]
      rw [DbIter.run] at hrun
      rw [hrun]
      simp only [bind, Option.bind_some, List.foldlM_cons, List.foldlM_nil, hcall, pure]
    · rw [cursorRun, List.foldlM_append]
      rw [cursorRun] at hcur
      rw [hcur]
      simp only [bind, Option.bind_some, List.foldlM_cons, List.foldlM_nil, cursorCall, pure,
        Option.map_some]
      exact congrArg some hfind
    · have hprev' : it.prev es s = it.findPrevUserEntry es s := by
        unfold DbIter.prev
        rw [hd]
      rw [hprev'] at hprev ⊢
      exact findPrevUserEntry_direction hd hprev.1

/-- A new `DBIter` shows what a cursor over the visible map shows, after every sequence of calls,
exactly when no user key that the snapshot does not see at all lies between a live key and what the
snapshot sees before it. -/
theorem refinesCursor_iff (es : List (Entry K V)) (h : IterEntries es) (s : ℕ)
    (hs : s ≤ kMaxSequenceNumber) : RefinesCursor es s ↔ ¬ HiddenKeyBeforeLive es s := by
  constructor
  · rintro href ⟨x, hx, e, he, hlive, hxe, hgap⟩
    obtain ⟨B, A, hsplit⟩ := List.append_of_mem (List.mem_filter.mpr ⟨he, hlive⟩)
    obtain ⟨calls, it, hrun, hcur, hd, hf⟩ := reach_backwards h A hsplit
    obtain ⟨p, hp, hle⟩ := not_follows_next_of_hidden h hx he hlive hxe hgap hd (hf.justBefore hd)
    -- The call of `Next` that shows the current key once more.
    have hcall := href (calls ++ [.next])
    rw [DbIter.run] at hcall hrun
    rw [cursorRun] at hcall hcur
    rw [List.foldlM_append, List.foldlM_append, hrun, hcur] at hcall
    simp only [bind, Option.bind_some, List.foldlM_cons, List.foldlM_nil, DbIter.call, hf.1,
      if_true, pure, cursorCall, Option.map_some, Option.some.injEq] at hcall
    rw [hp.observe] at hcall
    have hfind := (Prod.mk.inj hcall).2
    have hgt := List.find?_some hfind.symm
    rw [decide_eq_true_eq] at hgt
    exact absurd hgt (not_lt.mpr hle)
  · intro hno calls
    exact Follows.run h hs hno calls (show Follows es s {} none from rfl)

/-- A snapshot at 3 of a database with `b` at 1, after which `a` was written at 5. -/
def writtenAfterSnapshot : List (Entry Slice Slice) :=
  [⟨.pack [97] 5 .value, [120]⟩, ⟨.pack [98] 1 .value, [121]⟩]

/-- The entries of `writtenAfterSnapshot` are what an internal iterator yields. -/
theorem writtenAfterSnapshot_iterEntries : IterEntries writtenAfterSnapshot where
  sorted := by
    unfold KeySorted
    decide
  distinct := by
    have hall : ∀ a ∈ writtenAfterSnapshot, ∀ b ∈ writtenAfterSnapshot,
        a.key.userKey = b.key.userKey → a.key.sequence = b.key.sequence → a = b := by decide
    exact hall

/-- At `writtenAfterSnapshot` the iterator is no cursor, and the condition says so. -/
theorem refinesCursor_iff_writtenAfterSnapshot :
    RefinesCursor writtenAfterSnapshot 3 ↔ ¬ HiddenKeyBeforeLive writtenAfterSnapshot 3 :=
  refinesCursor_iff writtenAfterSnapshot writtenAfterSnapshot_iterEntries 3 (by decide)

/-- `SeekToLast` shows `b`, and `Next` shows it once more instead of coming to the end. -/
theorem writtenAfterSnapshot_repeats_key :
    IterEntries writtenAfterSnapshot ∧
      (DbIter.run writtenAfterSnapshot 3 {} [.seekToLast, .next]).map
        (DbIter.observe writtenAfterSnapshot) = some (true, some ([98], [121])) ∧
      (cursorRun (visibleMap writtenAfterSnapshot 3) none [.seekToLast, .next]) = some none ∧
      ¬ RefinesCursor writtenAfterSnapshot 3 := by
  have hrun : (DbIter.run writtenAfterSnapshot 3 {} [.seekToLast, .next]).map
      (DbIter.observe writtenAfterSnapshot) = some (true, some ([98], [121])) := by decide
  have hcur : cursorRun (visibleMap writtenAfterSnapshot 3) none [.seekToLast, .next] =
      some none := by decide
  refine ⟨writtenAfterSnapshot_iterEntries, hrun, hcur, fun href => ?_⟩
  have hcall := href [.seekToLast, .next]
  rw [hrun, hcur] at hcall
  exact absurd hcall (by decide)

end LevelDb
