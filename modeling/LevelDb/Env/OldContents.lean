import LevelDb.Env.MapFile

/-!
# What a new writable file keeps of an old one

`NewWritableFile` promises to delete an existing file, but `Win32MapFile::_Init` opens it as it is. The
same calls are made on two paths that differ in their previous contents. Only the bytes of the first
region are at stake: `SetEndOfFile` cuts what is behind it, and `Close` cuts the file to what was
appended. They are seen until they are overwritten, and when nothing is appended, nothing is cut.
-/

namespace LevelDb.Win32

open Lib

/-! ## Two runs -/

/-- The contents of the file after each call: some calls of `Append`, and possibly `Close`. -/
def MapFile.contentsAfter (sys : System) : MapFile → List Slice → Bool → Option (List Slice)
  | _, [], false => some []
  | f, [], true => some [f.close.file]
  | f, data :: rest, close =>
    (f.append sys data).bind fun r =>
      (MapFile.contentsAfter sys r.1 rest close).map fun contents => r.1.file :: contents

/-- The previous contents of the path do not matter for what is there after each call. -/
def ForgetsOld (sys : System) (c₁ c₂ : Option Slice) (appends : List Slice) (close : Bool) : Prop :=
  MapFile.contentsAfter sys (sys.openFile c₁) appends close =
    MapFile.contentsAfter sys (sys.openFile c₂) appends close

/-- Everything but the bytes of the file is the same. -/
def MapFile.SameLayout (f g : MapFile) : Prop := { f with file := [] } = { g with file := [] }

/-- Previous contents agree in the first region, from a position on. -/
def System.AgreeFrom (sys : System) (c₁ c₂ : Option Slice) (n : ℕ) : Prop :=
  ∀ p, n ≤ p → p < sys.firstSize → (c₁.getD []).getD p 0 = (c₂.getD []).getD p 0

section TwoRuns

variable {sys : System} {c₁ c₂ : Option Slice} {data : Slice} {f g : MapFile}

/-- Two files with the same layout are the same up to their bytes. -/
theorem MapFile.SameLayout.eq (h : f.SameLayout g) : g = { f with file := g.file } := by
  unfold MapFile.SameLayout at h
  cases f
  cases g
  simp only [MapFile.mk.injEq, true_and] at h ⊢
  simp only [h, and_self]

/-- Files that are opened have the same layout. -/
theorem MapFile.openFile_sameLayout (sys : System) (c₁ c₂ : Option Slice) :
    (sys.openFile c₁).SameLayout (sys.openFile c₂) := rfl

/-- A round of the loop of `Append` does not look at the bytes of the file. -/
theorem MapFile.SameLayout.appendRound (h : f.SameLayout g) (left : Slice) :
    (f.appendRound sys left).1.SameLayout (g.appendRound sys left).1 ∧
      (f.appendRound sys left).2 = (g.appendRound sys left).2 := by
  rw [h.eq]
  unfold MapFile.appendRound MapFile.unmapCurrentRegion MapFile.mapNewRegion
  dsimp only
  split_ifs <;> exact ⟨rfl, rfl⟩

/-- The loop of `Append` does not look at the bytes of the file. -/
theorem MapFile.SameLayout.appendLoop (fuel : ℕ) : ∀ {f g : MapFile} {left : Slice}, f.SameLayout g →
    ∀ {f' g' : MapFile} {r r' : Bool}, MapFile.appendLoop sys fuel f left = some (f', r) →
      MapFile.appendLoop sys fuel g left = some (g', r') → f'.SameLayout g' := by
  induction fuel with
  | zero =>
    intro f g left h f' g' r r' hf hg
    cases left with
    | nil =>
      obtain ⟨rfl, -⟩ := Prod.mk.inj (Option.some.inj hf)
      obtain ⟨rfl, -⟩ := Prod.mk.inj (Option.some.inj hg)
      exact h
    | cons b left => exact absurd hf (Option.some_ne_none _).symm
  | succ fuel ih =>
    intro f g left h f' g' r r' hf hg
    cases left with
    | nil =>
      obtain ⟨rfl, -⟩ := Prod.mk.inj (Option.some.inj hf)
      obtain ⟨rfl, -⟩ := Prod.mk.inj (Option.some.inj hg)
      exact h
    | cons b left =>
      obtain ⟨hlayout, hleft⟩ := @MapFile.SameLayout.appendRound sys f g h (b :: left)
      unfold MapFile.appendLoop at hf hg
      rcases hrf : f.appendRound sys (b :: left) with ⟨f₁, left₁⟩
      rcases hrg : g.appendRound sys (b :: left) with ⟨g₁, left₂⟩
      rw [hrf, hrg] at hlayout hleft
      rw [hrf] at hf
      rw [hrg] at hg
      obtain rfl : left₁ = left₂ := hleft
      cases left₁ with
      | none =>
        obtain ⟨rfl, -⟩ := Prod.mk.inj (Option.some.inj hf)
        obtain ⟨rfl, -⟩ := Prod.mk.inj (Option.some.inj hg)
        exact hlayout
      | some left₁ => exact ih hlayout hf hg

/-- The bytes of a background in the first region. -/
theorem System.background_agree_iff (sys : System) (c₁ c₂ : Option Slice) {n : ℕ}
    (hn : sys.firstSize ≤ n) (k : ℕ) :
    (sys.background c₁ n).drop k = (sys.background c₂ n).drop k ↔ sys.AgreeFrom c₁ c₂ k := by
  have hget : ∀ (c : Option Slice) p, p < sys.firstSize →
      (setEndOfFile sys.firstSize (c.getD [])).getD p 0 = (c.getD []).getD p 0 := by
    intro c p hp
    rw [List.getD_eq_getElem?_getD, setEndOfFile, getElem?_resize 0 _ hp]
    rfl
  have hbehind : ∀ (c : Option Slice) p, ¬p < sys.firstSize →
      (setEndOfFile sys.firstSize (c.getD [])).getD p 0 = 0 := by
    intro c p hp
    rw [List.getD_eq_getElem?_getD, List.getElem?_eq_none]
    · rfl
    · rw [setEndOfFile, length_resize]
      exact not_lt.mp hp
  refine Iff.trans (resize_inj_iff 0 n k _ _) ?_
  constructor
  · intro h p hkp hp
    have heq := h p hkp (lt_of_lt_of_le hp hn)
    rw [hget c₁ p hp, hget c₂ p hp] at heq
    exact heq
  · intro h p hkp _
    by_cases hp : p < sys.firstSize
    · rw [hget c₁ p hp, hget c₂ p hp]
      exact h p hkp hp
    · rw [hbehind c₁ p hp, hbehind c₂ p hp]

/-- Two files with the same layout have the same bytes when the previous contents agree behind the data. -/
theorem MapFile.Inv.file_eq_iff (hf : f.Inv sys c₁ data) (hg : g.Inv sys c₂ data)
    (hlayout : f.SameLayout g) (hdata : data ≠ []) :
    f.file = g.file ↔ sys.AgreeFrom c₁ c₂ data.length := by
  have hbase : f.base ≠ 0 := fun hnull => hdata (hf.unmapped hnull).2
  have hbase' : g.base ≠ 0 := fun hnull => hdata (hg.unmapped hnull).2
  obtain ⟨hfirst, hfile⟩ := hf.contents hbase
  obtain ⟨-, hfile'⟩ := hg.contents hbase'
  have hend : g.regionEnd = f.regionEnd := by rw [hlayout.eq]; rfl
  rw [hfile, hfile', hend, List.append_cancel_left_eq]
  exact sys.background_agree_iff c₁ c₂ hfirst data.length

/-- When data have been appended and the previous contents agree behind them, all further calls give the
same contents. -/
theorem MapFile.Inv.contentsAfter_eq (hsys : sys.Succeeds) (close : Bool) (appends : List Slice) :
    ∀ {f g : MapFile} {data : Slice}, f.Inv sys c₁ data → g.Inv sys c₂ data → f.SameLayout g →
      data ≠ [] → sys.AgreeFrom c₁ c₂ data.length →
      MapFile.contentsAfter sys f appends close = MapFile.contentsAfter sys g appends close := by
  induction appends with
  | nil =>
    intro f g data hf hg _ hdata _
    cases close with
    | false => rfl
    | true =>
      have hbase : f.base ≠ 0 := fun hnull => hdata (hf.unmapped hnull).2
      have hbase' : g.base ≠ 0 := fun hnull => hdata (hg.unmapped hnull).2
      have hclose : f.close.file = g.close.file := by
        rw [hf.close_file, hg.close_file, if_neg hbase, if_neg hbase']
      show some [f.close.file] = some [g.close.file]
      rw [hclose]
  | cons more appends ih =>
    intro f g data hf hg hlayout hdata hagree
    obtain ⟨f', hf', hinv⟩ := hf.append hsys more
    obtain ⟨g', hg', hinv'⟩ := hg.append hsys more
    have hlayout' : f'.SameLayout g' := MapFile.SameLayout.appendLoop _ hlayout hf' hg'
    have hdata' : data ++ more ≠ [] := List.append_ne_nil_of_left_ne_nil hdata more
    have hagree' : sys.AgreeFrom c₁ c₂ (data ++ more).length := by
      intro p hp
      rw [List.length_append] at hp
      exact hagree p (by omega)
    have hfile := (hinv.file_eq_iff hinv' hlayout' hdata').mpr hagree'
    rw [MapFile.contentsAfter, MapFile.contentsAfter, hf', hg', Option.bind_some, Option.bind_some,
      ih hinv hinv' hlayout' hdata' hagree', hfile]

/-- All calls of `Append`, and `Close` after them, return, so that there are contents after each. -/
theorem MapFile.Inv.contentsAfter_some (hsys : sys.Succeeds) (close : Bool) (appends : List Slice) :
    ∀ {f : MapFile} {data : Slice}, f.Inv sys c₁ data →
      ∃ contents, MapFile.contentsAfter sys f appends close = some contents := by
  induction appends with
  | nil =>
    intro f data _
    cases close with
    | false => exact ⟨[], rfl⟩
    | true => exact ⟨[f.close.file], rfl⟩
  | cons more appends ih =>
    intro f data hf
    obtain ⟨f', hf', hinv⟩ := hf.append hsys more
    obtain ⟨contents, hcontents⟩ := ih hinv
    refine ⟨f'.file :: contents, ?_⟩
    rw [MapFile.contentsAfter, hf', Option.bind_some, hcontents]
    rfl

end TwoRuns

/-! ## When the old contents are forgotten -/

/-- The previous contents of the path do not matter exactly if no call is made, or they are the same, or
the first call appends some data and they agree in the first region behind these. -/
theorem forgetsOld_iff (sys : System) (hsys : sys.Succeeds) (c₁ c₂ : Option Slice)
    (appends : List Slice) (close : Bool) :
    ForgetsOld sys c₁ c₂ appends close ↔
      (appends = [] ∧ close = false) ∨ c₁.getD [] = c₂.getD [] ∨
        ∃ data rest, appends = data :: rest ∧ data ≠ [] ∧ sys.AgreeFrom c₁ c₂ data.length := by
  have hsame : c₁.getD [] = c₂.getD [] → ForgetsOld sys c₁ c₂ appends close := by
    intro h
    unfold ForgetsOld System.openFile
    rw [h]
  constructor
  · intro h
    cases appends with
    | nil =>
      cases close with
      | false => exact Or.inl ⟨rfl, rfl⟩
      | true =>
        -- `Close` leaves what was there.
        have hlist : [c₁.getD []] = [c₂.getD []] := Option.some.inj h
        exact Or.inr (Or.inl (List.cons.inj hlist).1)
    | cons data rest =>
      obtain ⟨f, hf, hinv⟩ := (sys.openFile_inv c₁).append hsys data
      obtain ⟨g, hg, hinv'⟩ := (sys.openFile_inv c₂).append hsys data
      -- The contents after the first call.
      have hfile : f.file = g.file := by
        obtain ⟨contents, hcontents⟩ := hinv.contentsAfter_some hsys close rest
        obtain ⟨contents', hcontents'⟩ := hinv'.contentsAfter_some hsys close rest
        unfold ForgetsOld at h
        rw [MapFile.contentsAfter, MapFile.contentsAfter, hf, hg, Option.bind_some, Option.bind_some,
          hcontents, hcontents'] at h
        exact (List.cons.inj (Option.some.inj h)).1
      by_cases hdata : data = []
      · subst hdata
        obtain ⟨rfl, -⟩ := Prod.mk.inj (Option.some.inj hf)
        obtain ⟨rfl, -⟩ := Prod.mk.inj (Option.some.inj hg)
        exact Or.inr (Or.inl hfile)
      · have hlayout : f.SameLayout g :=
          MapFile.SameLayout.appendLoop _ (MapFile.openFile_sameLayout sys c₁ c₂) hf hg
        exact Or.inr (Or.inr ⟨data, rest, rfl, hdata, (hinv.file_eq_iff hinv' hlayout hdata).mp hfile⟩)
  · intro h
    obtain ⟨rfl, rfl⟩ | h | ⟨data, rest, rfl, hdata, hagree⟩ := h
    · rfl
    · exact hsame h
    · obtain ⟨f, hf, hinv⟩ := (sys.openFile_inv c₁).append hsys data
      obtain ⟨g, hg, hinv'⟩ := (sys.openFile_inv c₂).append hsys data
      have hlayout : f.SameLayout g :=
        MapFile.SameLayout.appendLoop _ (MapFile.openFile_sameLayout sys c₁ c₂) hf hg
      have hfile := (hinv.file_eq_iff hinv' hlayout hdata).mpr hagree
      unfold ForgetsOld
      rw [MapFile.contentsAfter, MapFile.contentsAfter, hf, hg, Option.bind_some, Option.bind_some,
        hinv.contentsAfter_eq hsys close rest hinv' hlayout hdata hagree, hfile]

/-- A record is written over an old file that had nothing behind it. -/
theorem forgetsOld_iff_example : exampleSystem.Succeeds ∧
    ForgetsOld exampleSystem (some (ascii "old")) none [ascii "new"] true := by
  have hsys : exampleSystem.Succeeds := fun offset => Nat.succ_ne_zero _
  refine ⟨hsys, (forgetsOld_iff exampleSystem hsys (some (ascii "old")) none [ascii "new"] true).mpr ?_⟩
  refine Or.inr (Or.inr ⟨ascii "new", [], rfl, by decide, fun p hp _ => ?_⟩)
  have hold : (ascii "old").length ≤ p := hp
  show (ascii "old").getD p 0 = ([] : Slice).getD p 0
  rw [List.getD_eq_getElem?_getD, List.getElem?_eq_none hold]
  rfl

/-- A file that is closed without an `Append` keeps the old contents, where a new file is empty. -/
theorem old_contents_kept : exampleSystem.Succeeds ∧
    ¬ForgetsOld exampleSystem (some (ascii "old")) none [] true ∧
    MapFile.contentsAfter exampleSystem (exampleSystem.openFile (some (ascii "old"))) [] true =
      some [ascii "old"] := by
  refine ⟨fun offset => Nat.succ_ne_zero _, ?_, rfl⟩
  intro h
  have hlist : [ascii "old"] = [[]] := Option.some.inj h
  exact absurd hlist (by decide)

end LevelDb.Win32
