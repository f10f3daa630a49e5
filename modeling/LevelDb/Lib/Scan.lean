import LevelDb.Lib.Iterator

/-!
# Scans and errors

Reading an iterator from its first entry to its end. An iterator that does not forget errors and whose
scans come to an end (`Scannable`) shows at the end of a scan every error that it has met on the way
(`Fails`). Iterators that are made of others have to hand these errors on.
-/

namespace LevelDb.Lib

variable {σ K V E : Type} [Iterator σ K V E]

/-- Calling `next` for a number of times leads to the end. -/
inductive Final : ℕ → σ → σ → Prop
  /-- The iterator is at its end. -/
  | stop {s : σ} (h : Iterator.valid s = false) : Final 0 s s
  /-- There is an entry before the end. -/
  | step {n : ℕ} {s t : σ} (h : Iterator.valid s = true) (hnext : Final n (Iterator.next s) t) :
    Final (n + 1) s t

/-- The scan of an iterator ends with an error. -/
def Fails (s : σ) : Prop := ∃ n t, Final n (Iterator.seekToFirst s) t ∧ Iterator.status t ≠ none

/-- The rest of a scan ends with an error. -/
def FailsFrom (s : σ) : Prop := ∃ n t, Final n s t ∧ Iterator.status t ≠ none

/-- The entries that the rest of a scan shows, and its end. -/
inductive Shows : σ → List (K × V) → σ → Prop
  /-- The iterator is at its end. -/
  | stop {s : σ} (h : Iterator.valid s = false) : Shows s [] s
  /-- There is an entry before the end. -/
  | step {s t : σ} {l : List (K × V)} (h : Iterator.valid s = true) (hnext : Shows (Iterator.next s) l t) :
    Shows s ((Iterator.key s, Iterator.value s) :: l) t

/-- A state that a scan from another state comes to. -/
inductive Visits : σ → σ → Prop
  /-- The state itself. -/
  | here (s : σ) : Visits s s
  /-- A state behind the next entry. -/
  | later {s t : σ} (h : Iterator.valid s = true) (hnext : Visits (Iterator.next s) t) : Visits s t

/-- An operation keeps an invariant, and an error that has been met. -/
def Keeps (I : σ → Prop) (f : σ → σ) : Prop :=
  ∀ s, I s → I (f s) ∧ (Iterator.status s ≠ none → Iterator.status (f s) ≠ none)

/-- No operation forgets an error, in the states of an invariant. -/
structure Sticky (I : σ → Prop) : Prop where
  /-- To the first entry. -/
  seekToFirst : Keeps I Iterator.seekToFirst
  /-- To the last entry. -/
  seekToLast : Keeps I Iterator.seekToLast
  /-- To the first entry that is not below a target. -/
  seek : ∀ target, Keeps I (Iterator.seek target)
  /-- To the next entry. -/
  next : Keeps I Iterator.next
  /-- To the previous entry. -/
  prev : Keeps I Iterator.prev

/-- No operation forgets an error, and scans come to an end. -/
structure Scannable (I : σ → Prop) : Prop extends Sticky I where
  /-- A scan comes to an end. -/
  ends : ∀ {s}, I s → ∃ n t, Final n s t

/-- If two operations keep errors, then so does one after the other. -/
theorem Keeps.comp {I : σ → Prop} {f g : σ → σ} (hg : Keeps I g) (hf : Keeps I f) :
    Keeps I fun s => g (f s) := by
  intro s hs
  obtain ⟨hfs, hstatus⟩ := hf s hs
  obtain ⟨hgs, hstatus'⟩ := hg (f s) hfs
  exact ⟨hgs, fun h => hstatus' (hstatus h)⟩

/-- Any call on an iterator that keeps errors keeps the invariant and an error. -/
theorem Sticky.call {I : σ → Prop} (h : Sticky I) {s s' : σ} (hs : I s) {c : Call K}
    (hcall : call s c = some s') :
    I s' ∧ (Iterator.status s ≠ none → Iterator.status s' ≠ none) := by
  cases c with
  | seekToFirst => exact Option.some.inj hcall ▸ h.seekToFirst s hs
  | seekToLast => exact Option.some.inj hcall ▸ h.seekToLast s hs
  | seek target => exact Option.some.inj hcall ▸ h.seek target s hs
  | next =>
    unfold Lib.call at hcall
    split_ifs at hcall
    exact Option.some.inj hcall ▸ h.next s hs
  | prev =>
    unfold Lib.call at hcall
    split_ifs at hcall
    exact Option.some.inj hcall ▸ h.prev s hs

/-- A sequence of calls keeps an error. -/
theorem Sticky.calls {I : σ → Prop} (h : Sticky I) : ∀ (cs : List (Call K)) {s s' : σ}, I s →
    calls s cs = some s' → I s' ∧ (Iterator.status s ≠ none → Iterator.status s' ≠ none)
  | [], s, s', hs, hcalls => Option.some.inj hcalls ▸ ⟨hs, fun herror => herror⟩
  | c :: cs, s, s', hs, hcalls => by
    obtain ⟨t, hcall, hrest⟩ := Option.bind_eq_some_iff.mp hcalls
    obtain ⟨ht, hstatus⟩ := h.call hs hcall
    obtain ⟨hs', hstatus'⟩ := h.calls cs ht hrest
    exact ⟨hs', fun herror => hstatus' (hstatus herror)⟩

/-- The operation that does nothing keeps errors. -/
theorem Keeps.id {I : σ → Prop} : Keeps I id := fun _ hs => ⟨hs, fun h => h⟩

/-- If two operations keep errors, then so does a choice between them. -/
theorem Keeps.ite {I : σ → Prop} {p : Prop} [Decidable p] {f g : σ → σ} (hf : Keeps I f)
    (hg : Keeps I g) : Keeps I (if p then f else g) := by
  split_ifs
  · exact hf
  · exact hg

/-- A scan has one end, after one number of steps. -/
theorem Final.unique {n m : ℕ} {s t u : σ} (h : Final n s t) (h' : Final m s u) : n = m ∧ t = u := by
  induction h generalizing m with
  | stop hstop =>
    cases h' with
    | stop _ => exact ⟨rfl, rfl⟩
    | step hvalid _ => exact absurd (hstop.symm.trans hvalid) Bool.false_ne_true
  | step hvalid _ ih =>
    cases h' with
    | stop hstop => exact absurd (hstop.symm.trans hvalid) Bool.false_ne_true
    | step _ hnext =>
      obtain ⟨hn, ht⟩ := ih hnext
      exact ⟨congrArg Nat.succ hn, ht⟩

/-- A scan to the end shows as many entries as it has steps. -/
theorem Final.exists_shows {n : ℕ} {s t : σ} (h : Final n s t) : ∃ l, Shows s l t ∧ l.length = n := by
  induction h with
  | stop hstop => exact ⟨[], Shows.stop hstop, rfl⟩
  | step hvalid _ ih =>
    obtain ⟨l, hshows, hlength⟩ := ih
    exact ⟨_, Shows.step hvalid hshows, congrArg Nat.succ hlength⟩

/-- A scan shows the same entries every time. -/
theorem Shows.unique {s t u : σ} {l l' : List (K × V)} (h : Shows s l t) (h' : Shows s l' u) :
    l = l' ∧ t = u := by
  induction h generalizing l' with
  | stop hstop =>
    cases h' with
    | stop _ => exact ⟨rfl, rfl⟩
    | step hvalid _ => exact absurd (hstop.symm.trans hvalid) Bool.false_ne_true
  | step hvalid _ ih =>
    cases h' with
    | stop hstop => exact absurd (hstop.symm.trans hvalid) Bool.false_ne_true
    | step _ hnext =>
      obtain ⟨hl, ht⟩ := ih hnext
      exact ⟨congrArg _ hl, ht⟩

/-- A state at the end is its own end. -/
theorem Final.eq_of_not_valid {n : ℕ} {s t : σ} (h : Final n s t) (hs : Iterator.valid s = false) :
    n = 0 ∧ t = s := h.unique (Final.stop hs)

/-- At the end of a scan, the rest fails if there is an error. -/
theorem FailsFrom.status_ne_none {s : σ} (h : FailsFrom s) (hs : Iterator.valid s = false) :
    Iterator.status s ≠ none := by
  obtain ⟨n, t, hfinal, hstatus⟩ := h
  rw [(hfinal.eq_of_not_valid hs).2] at hstatus
  exact hstatus

/-- The rest of a failing scan behind an entry. -/
theorem FailsFrom.next {s : σ} (h : FailsFrom s) (hs : Iterator.valid s = true) :
    FailsFrom (Iterator.next s) := by
  obtain ⟨n, t, hfinal, hstatus⟩ := h
  cases hfinal with
  | stop hstop => exact absurd (hstop.symm.trans hs) Bool.false_ne_true
  | step _ hnext => exact ⟨_, _, hnext, hstatus⟩

namespace Scannable

variable {I : σ → Prop} (h : Scannable I)
include h

/-- The invariant holds to the end of a scan. -/
theorem final {n : ℕ} {s t : σ} (hfinal : Final n s t) (hs : I s) : I t := by
  induction hfinal with
  | stop _ => exact hs
  | step _ _ ih => exact ih (h.next _ hs).1

/-- An error stays to the end of a scan. -/
theorem final_status {n : ℕ} {s t : σ} (hfinal : Final n s t) (hs : I s)
    (hstatus : Iterator.status s ≠ none) : Iterator.status t ≠ none := by
  induction hfinal with
  | stop _ => exact hstatus
  | step _ _ ih => exact ih (h.next _ hs).1 ((h.next _ hs).2 hstatus)

/-- A scan that has met an error fails. -/
theorem failsFrom {s : σ} (hs : I s) (hstatus : Iterator.status s ≠ none) : FailsFrom s := by
  obtain ⟨n, t, hfinal⟩ := h.ends hs
  exact ⟨n, t, hfinal, h.final_status hfinal hs hstatus⟩

/-- An iterator with an error fails. -/
theorem fails {s : σ} (hs : I s) (hstatus : Iterator.status s ≠ none) : Fails s :=
  h.failsFrom (h.seekToFirst s hs).1 ((h.seekToFirst s hs).2 hstatus)

end Scannable

/-- The bound of an iterator is not less than the steps of its scans. -/
def BoundsScans [Bounded σ] (I : σ → Prop) : Prop :=
  ∀ {n : ℕ} {s t : σ}, I s → Final n s t → n ≤ Bounded.bound s

/-! ## Iterators of two types -/

section Sum

variable {τ : Type} [Iterator τ K V E]

/-- The scan of an iterator of the left kind ends as it does on its own. -/
theorem Final.inl {n : ℕ} {s t : σ} (h : Final n s t) : Final n (Sum.inl s : σ ⊕ τ) (Sum.inl t) := by
  induction h with
  | stop hstop => exact Final.stop hstop
  | step hvalid _ ih => exact Final.step hvalid ih

/-- The scan of an iterator of the right kind ends as it does on its own. -/
theorem Final.inr {n : ℕ} {s t : τ} (h : Final n s t) : Final n (Sum.inr s : σ ⊕ τ) (Sum.inr t) := by
  induction h with
  | stop hstop => exact Final.stop hstop
  | step hvalid _ ih => exact Final.step hvalid ih

/-- An iterator on the left fails as it does alone. -/
theorem Fails.inl {s : σ} (h : Fails s) : Fails (Sum.inl s : σ ⊕ τ) := by
  obtain ⟨n, t, hfinal, hstatus⟩ := h
  exact ⟨n, Sum.inl t, hfinal.inl, hstatus⟩

/-- An iterator on the right fails as it does alone. -/
theorem Fails.inr {s : τ} (h : Fails s) : Fails (Sum.inr s : σ ⊕ τ) := by
  obtain ⟨n, t, hfinal, hstatus⟩ := h
  exact ⟨n, Sum.inr t, hfinal.inr, hstatus⟩

variable {I : σ → Prop} {J : τ → Prop}

/-- Operations on both sides keep errors. -/
theorem Keeps.sum {f : σ → σ} {g : τ → τ} (hf : Keeps I f) (hg : Keeps J g) :
    Keeps (Sum.elim I J) (Sum.map f g)
  | .inl s, hs => hf s hs
  | .inr s, hs => hg s hs

/-- Iterators on both sides keep errors. -/
theorem Scannable.sum (hI : Scannable I) (hJ : Scannable J) : Scannable (Sum.elim I J) where
  seekToFirst := hI.seekToFirst.sum hJ.seekToFirst
  seekToLast := hI.seekToLast.sum hJ.seekToLast
  seek target := (hI.seek target).sum (hJ.seek target)
  next := hI.next.sum hJ.next
  prev := hI.prev.sum hJ.prev
  ends {s} hs := by
    cases s with
    | inl s =>
      obtain ⟨n, t, hfinal⟩ := hI.ends hs
      exact ⟨n, Sum.inl t, hfinal.inl⟩
    | inr s =>
      obtain ⟨n, t, hfinal⟩ := hJ.ends hs
      exact ⟨n, Sum.inr t, hfinal.inr⟩

/-- If the bounds of two kinds of iterators are large enough, then so is the bound of an iterator of
either kind. -/
theorem BoundsScans.sum [Bounded σ] [Bounded τ] (hI : Scannable I) (hJ : Scannable J)
    (hboundI : BoundsScans I) (hboundJ : BoundsScans J) : BoundsScans (Sum.elim I J) := by
  intro n s t hs hfinal
  cases s with
  | inl s =>
    obtain ⟨m, u, hfinal'⟩ := hI.ends hs
    rw [(hfinal.unique hfinal'.inl).1]
    exact hboundI hs hfinal'
  | inr s =>
    obtain ⟨m, u, hfinal'⟩ := hJ.ends hs
    rw [(hfinal.unique hfinal'.inr).1]
    exact hboundJ hs hfinal'

end Sum

end LevelDb.Lib
