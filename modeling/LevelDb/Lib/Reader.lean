import Mathlib.Data.List.Basic
import Mathlib.Data.List.Forall2

/-!
# Readers

A reader takes a value from the front of its input and gives back the rest. What it accepts is
described by a relation between values and the words that spell them, which says nothing about how they
are read. A value may have several spellings, but a reader recognizes them only if no spelling goes on
as another one.
-/

namespace LevelDb.Lib

variable {τ α β : Type}

/-- A reader accepts exactly the inputs that begin with a spelling of a value. -/
structure Recognizes (read : List τ → Option (α × List τ)) (spells : α → List τ → Prop) : Prop where
  /-- A value is read if and only if it is spelled in front. -/
  iff : ∀ {input rest : List τ} {a : α}, read input = some (a, rest) ↔
    ∃ word, spells a word ∧ input = word ++ rest

/-- Spellings after one another. -/
def spellsThen (spells : α → List τ → Prop) (next : α → β → List τ → Prop) (b : β) (word : List τ) : Prop :=
  ∃ a first second, spells a first ∧ next a b second ∧ word = first ++ second

/-- Nothing is spelled at the end of a sequence of readers. -/
theorem recognizes_pure (a : α) :
    Recognizes (fun input : List τ => some (a, input)) fun a' word => a' = a ∧ word = [] := by
  constructor
  intro input rest a'
  constructor
  · intro h
    obtain ⟨rfl, rfl⟩ := Prod.mk.inj (Option.some.inj h)
    exact ⟨[], ⟨rfl, rfl⟩, rfl⟩
  · intro h
    obtain ⟨word, ⟨rfl, rfl⟩, rfl⟩ := h
    rfl

/-- Readers after one another recognize spellings after one another. -/
theorem Recognizes.bind {read : List τ → Option (α × List τ)} {spells : α → List τ → Prop}
    {next : α × List τ → Option (β × List τ)} {spells' : α → β → List τ → Prop}
    (h : Recognizes read spells) (hnext : ∀ a, Recognizes (fun input => next (a, input)) (spells' a)) :
    Recognizes (fun input => read input >>= next) (spellsThen spells spells') := by
  constructor
  intro input rest b
  constructor
  · intro hread
    obtain ⟨⟨a, mid⟩, hfirst, hsecond⟩ := Option.bind_eq_some_iff.mp hread
    obtain ⟨first, hspells, rfl⟩ := h.iff.mp hfirst
    obtain ⟨second, hspells', rfl⟩ := (hnext a).iff.mp hsecond
    exact ⟨first ++ second, ⟨a, first, second, hspells, hspells', rfl⟩, (List.append_assoc ..).symm⟩
  · intro hword
    obtain ⟨word, ⟨a, first, second, hspells, hspells', rfl⟩, rfl⟩ := hword
    have hfirst : read (first ++ second ++ rest) = some (a, second ++ rest) :=
      h.iff.mpr ⟨first, hspells, List.append_assoc ..⟩
    have hsecond : next (a, second ++ rest) = some (b, rest) := (hnext a).iff.mpr ⟨second, hspells', rfl⟩
    exact Option.bind_eq_some_iff.mpr ⟨(a, second ++ rest), hfirst, hsecond⟩

/-- A reader that is used for other values. -/
theorem Recognizes.congr {read : List τ → Option (α × List τ)} {spells spells' : α → List τ → Prop}
    (h : Recognizes read spells) (heq : ∀ a word, spells a word ↔ spells' a word) :
    Recognizes read spells' := by
  constructor
  intro input rest a
  rw [h.iff]
  exact exists_congr fun word => and_congr_left' (heq a word)

/-- Spellings of several values after one another. -/
def SpellsAll (spells : α → List τ → Prop) (values : List α) (word : List τ) : Prop :=
  ∃ words, List.Forall₂ spells values words ∧ word = words.flatten

/-- The empty word spells the empty list of values. -/
theorem spellsAll_nil (spells : α → List τ → Prop) : SpellsAll spells [] [] :=
  ⟨[], List.Forall₂.nil, rfl⟩

/-- A spelling of one value before a spelling of others spells all of them. -/
theorem SpellsAll.cons {spells : α → List τ → Prop} {a : α} {values : List α} {first rest : List τ}
    (hrest : SpellsAll spells values rest) (ha : spells a first) :
    SpellsAll spells (a :: values) (first ++ rest) := by
  obtain ⟨words, hwords, rfl⟩ := hrest
  exact ⟨first :: words, List.Forall₂.cons ha hwords, rfl⟩

/-- There are no more values than letters, if no spelling is empty. -/
theorem SpellsAll.length_le {spells : α → List τ → Prop} (hne : ∀ a word, spells a word → word ≠ [])
    {values : List α} {word : List τ} (h : SpellsAll spells values word) :
    values.length ≤ word.length := by
  obtain ⟨words, hwords, rfl⟩ := h
  induction hwords with
  | nil => exact Nat.le_refl _
  | cons ha _ ih =>
    have hpos := List.length_pos_iff.mpr (hne _ _ ha)
    rw [List.length_cons, List.flatten_cons, List.length_append]
    omega

/-- The words that spell some values are the concatenations of spellings. -/
theorem exists_spellsAll_iff {spells : α → List τ → Prop} {word : List τ} :
    (∃ values, SpellsAll spells values word) ↔
      ∃ words : List (List τ), (∀ w ∈ words, ∃ a, spells a w) ∧ word = words.flatten := by
  constructor
  · intro h
    obtain ⟨values, words, hwords, rfl⟩ := h
    refine ⟨words, ?_, rfl⟩
    induction hwords with
    | nil => exact fun w hw => absurd hw List.not_mem_nil
    | cons ha _ ih =>
      intro w hw
      obtain rfl | hw := List.mem_cons.mp hw
      · exact ⟨_, ha⟩
      · exact ih w hw
  · intro h
    obtain ⟨words, hwords, rfl⟩ := h
    induction words with
    | nil => exact ⟨[], spellsAll_nil spells⟩
    | cons w words ih =>
      obtain ⟨a, ha⟩ := hwords w List.mem_cons_self
      obtain ⟨values, hvalues⟩ := ih fun w' hw' => hwords w' (List.mem_cons_of_mem w hw')
      exact ⟨a :: values, hvalues.cons ha⟩

/-- Values are read one after the other, up to the end of the input. -/
inductive ReadsAll (read : List τ → Option (α × List τ)) : List τ → List α → Prop
  /-- The input is at its end. -/
  | nil : ReadsAll read [] []
  /-- One more value is read. -/
  | cons {input rest : List τ} {a : α} {values : List α} (h : read input = some (a, rest))
    (hrest : ReadsAll read rest values) : ReadsAll read input (a :: values)

/-- What is read is determined by the input. -/
theorem ReadsAll.unique {read : List τ → Option (α × List τ)} (hnil : read [] = none) {input : List τ}
    {values : List α} (h : ReadsAll read input values) :
    ∀ {values' : List α}, ReadsAll read input values' → values = values' := by
  induction h with
  | nil =>
    intro values' h'
    cases h' with
    | nil => rfl
    | cons hread _ =>
      rw [hnil] at hread
      cases hread
  | cons hread _ ih =>
    intro values' h'
    cases h' with
    | nil =>
      rw [hnil] at hread
      cases hread
    | cons hread' hrest' =>
      obtain ⟨rfl, rfl⟩ := Prod.mk.inj (Option.some.inj (hread.symm.trans hread'))
      rw [ih hrest']

/-- A reader that reads the spelling of each value reads the spelling of a list of values. -/
theorem SpellsAll.readsAll {read : List τ → Option (α × List τ)} {spells : α → List τ → Prop}
    (hread : ∀ a word rest, spells a word → read (word ++ rest) = some (a, rest)) {values : List α}
    {word : List τ} (h : SpellsAll spells values word) : ReadsAll read word values := by
  obtain ⟨words, hwords, rfl⟩ := h
  induction hwords with
  | nil => exact ReadsAll.nil
  | cons ha _ ih => exact ReadsAll.cons (hread _ _ _ ha) ih

/-- The spellings of two lists of values, one after the other, spell the two lists one after the other. -/
theorem SpellsAll.append {spells : α → List τ → Prop} {values values' : List α} {word word' : List τ}
    (h : SpellsAll spells values word) (h' : SpellsAll spells values' word') :
    SpellsAll spells (values ++ values') (word ++ word') := by
  obtain ⟨words, hwords, rfl⟩ := h
  obtain ⟨words', hwords', rfl⟩ := h'
  exact ⟨words ++ words', List.rel_append hwords hwords', List.flatten_append.symm⟩

/-! ## Reading as far as possible -/

/-- The values in front of an input, of which there can be no more: what is left does not begin with a
spelling. -/
structure LongestPrefix (spells : α → List τ → Prop) (input : List τ) (values : List α)
    (rest : List τ) : Prop where
  /-- The values are spelled in front. -/
  spelled : ∃ word, SpellsAll spells values word ∧ input = word ++ rest
  /-- No further value is. -/
  stuck : ∀ a word rest', spells a word → rest ≠ word ++ rest'

/-- If no value is spelled by a front of the input, the empty prefix is the longest. -/
theorem LongestPrefix.nil {spells : α → List τ → Prop} {input : List τ}
    (hstuck : ∀ a word rest', spells a word → input ≠ word ++ rest') :
    LongestPrefix spells input [] input :=
  ⟨⟨[], spellsAll_nil spells, rfl⟩, hstuck⟩

/-- A value in front of an input makes the longest prefix that can be read longer by this value. -/
theorem LongestPrefix.cons {spells : α → List τ → Prop} {input rest word : List τ} {values : List α}
    {a : α} (h : LongestPrefix spells input values rest) (ha : spells a word) :
    LongestPrefix spells (word ++ input) (a :: values) rest := by
  obtain ⟨⟨words, hwords, rfl⟩, hstuck⟩ := h
  exact ⟨⟨word ++ words, hwords.cons ha, (List.append_assoc ..).symm⟩, hstuck⟩

/-- Other values that are spelled in front are the first ones of the longest prefix. -/
theorem LongestPrefix.isPrefix {read : List τ → Option (α × List τ)} {spells : α → List τ → Prop}
    (hread : Recognizes read spells) :
    ∀ {values values' : List α} {input rest : List τ}, LongestPrefix spells input values rest →
    ∀ {word rest' : List τ}, SpellsAll spells values' word → input = word ++ rest' →
    values' <+: values
  | values, [], _, _, _, _, _, _, _ => List.nil_prefix
  | [], a' :: values', input, rest, h, word, rest', hword', hinput => by
    -- a value is spelled in front, although nothing could be read
    obtain ⟨⟨word, ⟨words, hwords, rfl⟩, hrest⟩, hstuck⟩ := h
    obtain rfl := List.forall₂_nil_left_iff.mp hwords
    obtain ⟨words', hwords', rfl⟩ := hword'
    obtain ⟨first, words', hfirst, -, rfl⟩ := List.forall₂_cons_left_iff.mp hwords'
    refine absurd ?_ (hstuck a' first (words'.flatten ++ rest') hfirst)
    rw [← List.append_assoc, ← List.flatten_cons, ← hinput, hrest]
    rfl
  | a :: values, a' :: values', input, rest, h, word, rest', hword', hinput => by
    obtain ⟨⟨word, ⟨words, hwords, rfl⟩, hrest⟩, hstuck⟩ := h
    obtain ⟨first, words, hfirst, htail, rfl⟩ := List.forall₂_cons_left_iff.mp hwords
    obtain ⟨words', hwords', rfl⟩ := hword'
    obtain ⟨first', words', hfirst', htail', rfl⟩ := List.forall₂_cons_left_iff.mp hwords'
    -- both first values are what the reader reads
    have hleft : read input = some (a, words.flatten ++ rest) :=
      hread.iff.mpr ⟨first, hfirst, by rw [hrest, List.flatten_cons, List.append_assoc]⟩
    have hright : read input = some (a', words'.flatten ++ rest') :=
      hread.iff.mpr ⟨first', hfirst', by rw [hinput, List.flatten_cons, List.append_assoc]⟩
    obtain ⟨rfl, hmid⟩ := Prod.mk.inj (Option.some.inj (hleft.symm.trans hright))
    have hlongest : LongestPrefix spells (words.flatten ++ rest) values rest :=
      ⟨⟨words.flatten, ⟨words, htail, rfl⟩, rfl⟩, hstuck⟩
    exact List.cons_prefix_cons.mpr ⟨rfl, hlongest.isPrefix hread ⟨words', htail', rfl⟩ hmid⟩

/-- Values that the whole input spells are the longest prefix, if no spelling is empty. -/
theorem LongestPrefix.eq_of_spellsAll {read : List τ → Option (α × List τ)}
    {spells : α → List τ → Prop} (hread : Recognizes read spells)
    (hne : ∀ a word, spells a word → word ≠ []) :
    ∀ {values values' : List α} {input rest : List τ}, LongestPrefix spells input values rest →
    SpellsAll spells values' input → values = values' ∧ rest = []
  | [], [], _, _, h, ⟨words', hwords', hinput⟩ => by
    obtain ⟨⟨word, ⟨words, hwords, rfl⟩, hrest⟩, -⟩ := h
    obtain rfl := List.forall₂_nil_left_iff.mp hwords
    obtain rfl := List.forall₂_nil_left_iff.mp hwords'
    exact ⟨rfl, hrest.symm.trans hinput⟩
  | a :: values, [], _, _, h, ⟨words', hwords', hinput⟩ => by
    -- the input is empty, but the spelling of `a` is not
    obtain ⟨⟨word, ⟨words, hwords, rfl⟩, hrest⟩, -⟩ := h
    obtain ⟨first, words, hfirst, -, rfl⟩ := List.forall₂_cons_left_iff.mp hwords
    obtain rfl := List.forall₂_nil_left_iff.mp hwords'
    rw [hinput] at hrest
    have hnil := (List.append_eq_nil_iff.mp hrest.symm).1
    exact absurd (List.append_eq_nil_iff.mp hnil).1 (hne a first hfirst)
  | [], a' :: values', _, _, h, hword' => by
    have hprefix := h.isPrefix hread hword' (List.append_nil _).symm
    exact absurd (List.prefix_nil.mp hprefix) (List.cons_ne_nil a' values')
  | a :: values, a' :: values', input, rest, h, ⟨words', hwords', hinput⟩ => by
    obtain ⟨⟨word, ⟨words, hwords, rfl⟩, hrest⟩, hstuck⟩ := h
    obtain ⟨first, words, hfirst, htail, rfl⟩ := List.forall₂_cons_left_iff.mp hwords
    obtain ⟨first', words', hfirst', htail', rfl⟩ := List.forall₂_cons_left_iff.mp hwords'
    have hleft : read input = some (a, words.flatten ++ rest) :=
      hread.iff.mpr ⟨first, hfirst, by rw [hrest, List.flatten_cons, List.append_assoc]⟩
    have hright : read input = some (a', words'.flatten) :=
      hread.iff.mpr ⟨first', hfirst', by rw [hinput, List.flatten_cons]⟩
    obtain ⟨rfl, hmid⟩ := Prod.mk.inj (Option.some.inj (hleft.symm.trans hright))
    have hlongest : LongestPrefix spells (words.flatten ++ rest) values rest :=
      ⟨⟨words.flatten, ⟨words, htail, rfl⟩, rfl⟩, hstuck⟩
    obtain ⟨rfl, hnil⟩ := hlongest.eq_of_spellsAll hread hne ⟨words', htail', hmid⟩
    exact ⟨rfl, hnil⟩

end LevelDb.Lib
