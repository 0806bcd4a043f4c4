import Mathlib.Tactic.Common

/-!
Cells that share pages.

A cell holds a page or nothing, and it may be marked as shared. A page presents something, and
an empty cell presents a blank. As long as a page in a cell that is not marked is in no other
cell, a cell can be given a new page, emptied, or written to, and what the other cells present
stays the same; and marking both sides is enough to let one cell present what another does.
-/

namespace Corey.Cow

structure Sheet (C P B : Type) where
  page : C → Option P
  shared : C → Prop
  text : P → B

variable {C P B : Type} {z : B} {s s' : Sheet C P B} {c c' : C} {p : P}

def Sheet.view (z : B) (s : Sheet C P B) (c : C) : B := (s.page c).elim z s.text

/-- A page in an unmarked cell is nowhere else, and a marked cell is not empty. -/
structure Tidy (s : Sheet C P B) : Prop where
  alone : ∀ {c c' p}, s.page c = some p → ¬ s.shared c → s.page c' = some p → c' = c
  full : ∀ {c}, s.shared c → s.page c ≠ none

lemma Tidy.congr (h : Tidy s) (hp : s'.page = s.page) (hs : s'.shared = s.shared) : Tidy s' where
  alone {c1 c2 p} h1 hc h2 := by
    rw [hp] at h1 h2
    rw [hs] at hc
    exact h.alone h1 hc h2
  full {c1} hc := by
    rw [hs] at hc
    rw [hp]
    exact h.full hc

lemma view_of_page (h : s.page c = some p) : s.view z c = s.text p := by
  simp [Sheet.view, h]

lemma view_of_none (h : s.page c = none) : s.view z c = z := by
  simp [Sheet.view, h]

/-- What a cell presents depends on its page and on what that presents. -/
lemma view_congr (hp : s'.page c = s.page c) (ht : ∀ p, s.page c = some p → s'.text p = s.text p) :
    s'.view z c = s.view z c := by
  cases h : s.page c with
  | none => rw [view_of_none h, view_of_none (hp.trans h)]
  | some p => rw [view_of_page h, view_of_page (hp.trans h), ht p h]

/-- Every cell keeps its page and its mark, and the pages in cells present what they did. -/
structure Still (s s' : Sheet C P B) : Prop where
  page : ∀ c, s'.page c = s.page c
  shared : ∀ c, s'.shared c ↔ s.shared c
  text : ∀ c p, s.page c = some p → s'.text p = s.text p

namespace Still

lemma tidy (h : Still s s') (ht : Tidy s) : Tidy s' :=
  ht.congr (funext h.page) (funext fun c => propext (h.shared c))

lemma view (h : Still s s') (c : C) : s'.view z c = s.view z c :=
  view_congr (h.page c) (h.text c)

end Still

/-- One cell is emptied or gets a page no other cell has; the others do not notice. -/
structure Renewed (c : C) (s s' : Sheet C P B) : Prop where
  fresh : ∀ p, s'.page c = some p → ∀ c' ≠ c, s.page c' ≠ some p
  owned : ¬ s'.shared c
  page : ∀ c' ≠ c, s'.page c' = s.page c'
  shared : ∀ c' ≠ c, s'.shared c' ↔ s.shared c'
  text : ∀ c' ≠ c, ∀ p, s.page c' = some p → s'.text p = s.text p

namespace Renewed

lemma tidy (h : Renewed c s s') (ht : Tidy s) : Tidy s' where
  alone {c1 c2 p} h1 hs h2 := by
    by_cases hc1 : c1 = c
    · subst hc1
      by_contra hne
      exact h.fresh p h1 c2 hne ((h.page c2 hne).symm.trans h2)
    · rw [h.page c1 hc1] at h1
      rw [h.shared c1 hc1] at hs
      by_cases hc2 : c2 = c
      · subst hc2
        exact (h.fresh p h2 c1 hc1 h1).elim
      · exact ht.alone h1 hs ((h.page c2 hc2).symm.trans h2)
  full {c1} h1 := by
    by_cases hc1 : c1 = c
    · exact (h.owned (hc1 ▸ h1)).elim
    · rw [h.page c1 hc1]
      exact ht.full ((h.shared c1 hc1).mp h1)

lemma view_of_ne (h : Renewed c s s') (hne : c' ≠ c) : s'.view z c' = s.view z c' :=
  view_congr (h.page c' hne) (h.text c' hne)

end Renewed

/-- The cells `d` with `origin d = some c` are made to present what the cells `c` do: they get
the same pages, and both sides are marked where there is a page. -/
structure Spread (origin : C → Option C) (s s' : Sheet C P B) : Prop where
  apart : ∀ d c, origin d = some c → origin c = none
  page : ∀ d c, origin d = some c → s'.page d = s.page c
  mark : ∀ d c, origin d = some c → (s'.shared d ↔ s.page c ≠ none)
  source : ∀ d c, origin d = some c → (s'.shared c ↔ s.page c ≠ none)
  keep : ∀ c, origin c = none → s'.page c = s.page c
  other : ∀ c, origin c = none → (∀ d, origin d ≠ some c) → (s'.shared c ↔ s.shared c)
  text : ∀ c p, origin c = none → s.page c = some p → s'.text p = s.text p

namespace Spread

variable {origin : C → Option C} {d : C}

lemma view_copy (h : Spread origin s s') (hd : origin d = some c) :
    s'.view z d = s.view z c := by
  have hc := h.apart d c hd
  cases hp : s.page c with
  | none => rw [view_of_none hp, view_of_none ((h.page d c hd).trans hp)]
  | some p => rw [view_of_page hp, view_of_page ((h.page d c hd).trans hp), h.text c p hc hp]

lemma view_keep (h : Spread origin s s') (hc : origin c = none) :
    s'.view z c = s.view z c :=
  view_congr (h.keep c hc) fun p hp => h.text c p hc hp

lemma tidy (h : Spread origin s s') (ht : Tidy s) : Tidy s' where
  alone {c1 c2 p} h1 hs h2 := by
    -- an unmarked cell with a page is neither a copy nor a source
    have hnot : origin c1 = none ∧ ∀ d, origin d ≠ some c1 := by
      refine ⟨Option.eq_none_iff_forall_ne_some.mpr fun c hc => hs ?_, fun d hd => hs ?_⟩
      · rw [h.mark c1 c hc, ← h.page c1 c hc, h1]
        simp
      · rw [h.source d c1 hd, ← h.keep c1 (h.apart d c1 hd), h1]
        simp
    rw [h.keep c1 hnot.1] at h1
    rw [h.other c1 hnot.1 hnot.2] at hs
    cases hc2 : origin c2 with
    | none => exact ht.alone h1 hs ((h.keep c2 hc2).symm.trans h2)
    | some c =>
      have hcc := ht.alone h1 hs ((h.page c2 c hc2).symm.trans h2)
      exact (hnot.2 c2 (hcc ▸ hc2)).elim
  full {c1} h1 := by
    cases hc1 : origin c1 with
    | some c =>
      rw [h.page c1 c hc1]
      exact (h.mark c1 c hc1).mp h1
    | none =>
      rw [h.keep c1 hc1]
      by_cases hsrc : ∃ d, origin d = some c1
      · obtain ⟨d, hd⟩ := hsrc
        exact (h.source d c1 hd).mp h1
      · exact ht.full ((h.other c1 hc1 fun d hd => hsrc ⟨d, hd⟩).mp h1)

end Spread

structure Written (p : P) (s s' : Sheet C P B) : Prop where
  page : s'.page = s.page
  shared : s'.shared = s.shared
  text : ∀ q ≠ p, s'.text q = s.text q

namespace Written

lemma tidy (h : Written p s s') (ht : Tidy s) : Tidy s' := ht.congr h.page h.shared

/-- A write to the page of an unmarked cell is seen in that cell only. -/
lemma view_of_ne (h : Written p s s') (ht : Tidy s) (hp : s.page c = some p)
    (hs : ¬ s.shared c) (hne : c' ≠ c) : s'.view z c' = s.view z c' :=
  view_congr (by rw [h.page]) fun q hq => h.text q fun hqp =>
    hne (ht.alone hp hs (hqp ▸ hq))

end Written

end Corey.Cow
