import Corey.Lib.Cow
import Corey.Mem.Forest

/-!
What the page trees of a forest present.

A page that has not been cleared since it was handed out presents zeros, because whoever maps
it clears it first. The places of the trees are cells that share pages; each operation on a
tree is one of the few things that can happen to such cells.
-/

namespace Corey.Mem

open Function Corey.Comp Corey.Cow Finset Pagetree Memory

variable {ι : Type} [DecidableEq ι] {U : Finset Ppn} {T : Finset ι} {L : Set ι} {s s' : Forest ι}
  {t u : ι} {p : EntPtr} {pt pt1 : Pagetree} {m m' m1 : Memory} {e : PagetreeEntry} {q q' : Ppn}
  {pid : ℕ}

/-- A page's `pi_clear` and its bytes. -/
def Memory.text (m : Memory) (q : Ppn) : Bool × Page := ((m.info q).piClear, m.bytes q)

def shown (x : Bool × Page) : Page := if x.1 then x.2 else zeroPage

def blank : Bool × Page := (true, zeroPage)

lemma Kept.text {R : Ledger} (h : Kept R m m') (hq : 0 < R (.ent q)) : m'.text q = m.text q := by
  rw [Memory.text, Memory.text, h.bytes q hq, h.clear q hq]

lemma init_get {demand : Bool} : ∀ p : EntPtr, (pagetreeInit demand pid).get p = {}
  | .direct _ => rfl
  | .indirect _ _ => rfl

lemma Pagetree.Empty.get (h : pt.Empty) (hmode : ∀ i, (pt.ptDirect i).mode = 0) :
    ∀ p : EntPtr, p.Valid → pt.get p = {}
  | .direct i, hi => by
    rw [Pagetree.get, ← h.direct i hi, ← hmode i]
  | .indirect i _, hi => by
    rw [Pagetree.get, h.indir i hi.1]
    rfl

/-- The two modes in which an entry shares its page. -/
def PagetreeEntry.Shared (e : PagetreeEntry) : Prop :=
  e.mode = pageSharedCow ∨ e.mode = pageSharedCor

abbrev Cell (ι : Type) := ι × EntPtr

namespace Forest

def ent (s : Forest ι) (c : Cell ι) : PagetreeEntry := (s.tree c.1).get c.2

/-- A place in one of the trees `L`. -/
def InUse (L : Set ι) (c : Cell ι) : Prop := c.1 ∈ L ∧ c.2.Valid

open Classical in
/-- The cells of the trees in `L`; the places of other trees count as empty. -/
noncomputable def sheet (L : Set ι) (s : Forest ι) : Sheet (Cell ι) Ppn (Bool × Page) where
  page c := if InUse L c then (s.ent c).page else none
  shared c := InUse L c ∧ (s.ent c).Shared
  text := s.mem.text

omit [DecidableEq ι] in
lemma sheet_page {c : Cell ι} (hc : InUse L c) : (s.sheet L).page c = (s.ent c).page :=
  if_pos hc

omit [DecidableEq ι] in
lemma sheet_page_some {c : Cell ι} :
    (s.sheet L).page c = some q ↔ InUse L c ∧ (s.ent c).page = some q := by
  simp only [sheet]
  split_ifs with hc <;> simp [hc]

/-! ### The pages in cells are in the ledger -/

lemma ent_pos (hp : p.Valid) (hq : (pt.get p).page = some q) : 0 < pt.ledger (.ent q) := by
  have hle := ledger_get_le pt hp (.ent q)
  simp only [ledger_of_page hq, one_apply, if_true] at hle
  exact hle

lemma others_pos {p' : EntPtr} (hp : p.Valid) (hp' : p'.Valid) (hne : p' ≠ p)
    (hq : (pt.get p').page = some q) : 0 < pt.others p (.ent q) :=
  ent_pos hp' (by rwa [get_set_of_ne hp hp' hne])

omit [DecidableEq ι] in
lemma sum_ent_pos (hu : u ∈ T) (hp : p.Valid) (hq : (s.ent (u, p)).page = some q) :
    0 < (∑ v ∈ T, (s.tree v).ledger + handLedger s.hand) (.ent q) := by
  have hle : (s.tree u).ledger (.ent q) ≤ ∑ v ∈ T, (s.tree v).ledger (.ent q) :=
    single_le_sum (f := fun v => (s.tree v).ledger (.ent q)) (fun _ _ => Nat.zero_le _) hu
  have hpos : 0 < (s.tree u).ledger (.ent q) := ent_pos hp hq
  simp only [Pi.add_apply, Finset.sum_apply]
  omega

lemma rest_pos (hu : u ∈ T) (hne : u ≠ t) (hp : p.Valid) (hq : (s.ent (u, p)).page = some q) :
    0 < s.rest T t (.ent q) :=
  sum_ent_pos (mem_erase.mpr ⟨hne, hu⟩) hp hq

/-! ### Walking to a place, and writing to it -/

lemma withTree_tree_self : (s.withTree t pt m).tree t = pt := by simp [withTree]

lemma withTree_tree_of_ne (h : u ≠ t) : (s.withTree t pt m).tree u = s.tree u := by
  simp [withTree, h]

@[simp] lemma withTree_withTree :
    (s.withTree t pt m).withTree t pt1 m1 = s.withTree t pt1 m1 := by
  simp [withTree]

@[simp] lemma rest_withTree : (s.withTree t pt m).rest T t = s.rest T t := by
  simp only [rest, withTree]
  congr 1
  exact sum_congr rfl fun v hv => by
    rw [update_of_ne (ne_of_mem_erase hv)]

lemma ledger_init {demand : Bool} (ht : t ∉ T) :
    (s.withTree t (pagetreeInit demand pid) m).ledger (insert t T) = s.ledger T := by
  have hempty : (pagetreeInit demand pid).ledger = 0 :=
    Pagetree.Empty.ledger ⟨fun _ _ => rfl, fun _ _ => rfl⟩
  rw [ledger_split (mem_insert_self t T), withTree_tree_self, hempty, zero_add,
    rest_withTree, rest, erase_insert ht]
  rfl

lemma walked_still (hL : L ⊆ T) (ht : t ∈ T)
    (hw : TreeWalked U (s.rest T t) (s.tree t) s.mem (pt1, m1)) :
    Still (s.sheet L) ((s.withTree t pt1 m1).sheet L) := by
  have hent : ∀ c : Cell ι, c.2.Valid → (s.withTree t pt1 m1).ent c = s.ent c := by
    rintro ⟨v, p⟩ hp
    by_cases hv : v = t
    · subst hv
      simp only [ent, withTree_tree_self]
      exact hw.same.get p hp
    · simp only [ent, withTree_tree_of_ne hv]
  refine ⟨fun c => ?_, fun c => ?_, fun c q hq => ?_⟩
  · by_cases hc : InUse L c
    · rw [sheet_page hc, sheet_page hc, hent c hc.2]
    · simp [sheet, hc]
  · exact and_congr_right fun hc => by rw [hent c hc.2]
  · obtain ⟨hc, hpage⟩ := sheet_page_some.mp hq
    refine hw.kept.text ?_
    by_cases hv : c.1 = t
    · exact Nat.lt_of_lt_of_le (ent_pos hc.2 (by rw [← hv]; exact hpage)) (Nat.le_add_right _ _)
    · exact Nat.lt_of_lt_of_le (rest_pos (hL hc.1) hv hc.2 hpage) (Nat.le_add_left _ _)

lemma set_renewed (hL : L ⊆ T) (htree : s.tree t = pt) (hp : p.Valid)
    (hr : pt.Reached p) (hk : Kept (pt.others p + s.rest T t) s.mem m')
    (hown : ¬ e.Shared)
    (hfresh : ∀ q, e.page = some q → m'.refs (pt.others p + s.rest T t) q = 0) :
    Renewed (t, p) (s.sheet L) ((s.withTree t (pt.set e p) m').sheet L) := by
  have hself : (s.withTree t (pt.set e p) m').ent (t, p) = e := by
    simp only [ent, withTree_tree_self, get_set_self hr]
  have hother : ∀ c : Cell ι, c ≠ (t, p) → c.2.Valid →
      (s.withTree t (pt.set e p) m').ent c = s.ent c := by
    rintro ⟨v, p'⟩ hne hp'
    by_cases hv : v = t
    · subst hv
      have : p' ≠ p := fun h => hne (by rw [h])
      simp only [ent, withTree_tree_self, htree, get_set_of_ne hp hp' this]
    · simp only [ent, withTree_tree_of_ne hv]
  -- the pages of the other cells are in the frame
  have hframe : ∀ c : Cell ι, c ≠ (t, p) → ∀ q, (s.sheet L).page c = some q →
      0 < (pt.others p + s.rest T t) (.ent q) := by
    rintro ⟨v, p'⟩ hne q hq
    obtain ⟨hc, hpage⟩ := sheet_page_some.mp hq
    by_cases hv : v = t
    · subst hv
      have : p' ≠ p := fun h => hne (by rw [h])
      exact Nat.lt_of_lt_of_le (others_pos hp hc.2 this (by rw [← htree]; exact hpage))
        (Nat.le_add_right _ _)
    · exact Nat.lt_of_lt_of_le (rest_pos (hL hc.1) hv hc.2 hpage) (Nat.le_add_left _ _)
  refine ⟨fun q hq c hne hcq => ?_, fun hs => ?_, fun c hne => ?_, fun c hne => ?_,
    fun c hne q hq => hk.text (hframe c hne q hq)⟩
  · have hpos := hframe c hne q hcq
    have hzero := hfresh q (by
      have := (sheet_page_some.mp hq).2
      rwa [hself] at this)
    simp only [refs] at hzero
    omega
  · exact hown (by rw [← hself]; exact hs.2)
  · by_cases hc : InUse L c
    · rw [sheet_page hc, sheet_page hc, hother c hne hc.2]
    · simp [sheet, hc]
  · exact and_congr_right fun hc => by rw [hother c hne hc.2]

lemma walked_renewed {pt1 : Pagetree} {m1 m2 : Memory} {e : PagetreeEntry} (hL : L ⊆ T)
    (hp : p.Valid) (hr : pt1.Reached p) (hk : Kept (pt1.others p + s.rest T t) m1 m2)
    (he : e.mode = pageExcl)
    (hfresh : ∀ q, e.page = some q → m2.refs (pt1.others p + s.rest T t) q = 0) :
    Renewed (t, p) ((s.withTree t pt1 m1).sheet L) ((s.withTree t (pt1.set e p) m2).sheet L) := by
  have hren := set_renewed (s := s.withTree t pt1 m1) (e := e) hL withTree_tree_self hp hr
    (by rwa [rest_withTree])
    (by simp [PagetreeEntry.Shared, he, pageExcl, pageSharedCow, pageSharedCor])
    fun q hq => by rw [rest_withTree, hfresh q hq]
  rwa [withTree_withTree] at hren

/-! ### The operations -/

/-- What is seen at a place of a tree. -/
noncomputable def view (L : Set ι) (s : Forest ι) (c : Cell ι) : Page :=
  shown ((s.sheet L).view blank c)

/-- The pages in cells have been cleared. -/
def Cleared (L : Set ι) (s : Forest ι) : Prop :=
  ∀ c q, (s.sheet L).page c = some q → (s.mem.info q).piClear = true

/-- One tree and the memory have changed, no pin has, and no allocation has failed. -/
structure Only (t : ι) (s s' : Forest ι) : Prop where
  tree : ∃ pt' m', s' = s.withTree t pt' m' ∧ pt'.demand = (s.tree t).demand
  pins : ∀ p, (s'.mem.info p).piHwRef = (s.mem.info p).piHwRef
  failures : s'.mem.failures = s.mem.failures

lemma Only.demand (h : Only t s s') (v : ι) : (s'.tree v).demand = (s.tree v).demand := by
  obtain ⟨pt', m', rfl, hdem⟩ := h.tree
  by_cases hv : v = t
  · rw [hv, withTree_tree_self, hdem]
  · rw [withTree_tree_of_ne hv]

lemma Only.hand (h : Only t s s') : s'.hand = s.hand := by
  obtain ⟨pt', m', rfl, -⟩ := h.tree
  rfl

/-- A page has been fetched from a cell: every cell presents what it did, and the cell holds the
page, alone if it was fetched for writing. -/
structure Fetched (L : Set ι) (mode : PageSharingMode) (c : Cell ι) (q : Ppn)
    (s s' : Forest ι) : Prop where
  tidy : Tidy (s'.sheet L)
  view : ∀ c', s'.view L c' = s.view L c'
  page : (s'.sheet L).page c = some q
  others : ∀ c' ≠ c, (s'.sheet L).page c' = (s.sheet L).page c'
  own : mode = pageSharedCow → ¬ (s'.sheet L).shared c
  clear : ∀ c' q', (s'.sheet L).page c' = some q' → q' ≠ q → (s'.mem.info q').piClear = true

variable {mode : PageSharingMode}

section

omit [DecidableEq ι]

lemma Cleared.mono (h : s.Cleared L) {c : Cell ι} (hp : (s'.sheet L).page c = (s.sheet L).page c)
    (ht : ∀ q, (s.sheet L).page c = some q → (s'.sheet L).text q = (s.sheet L).text q)
    (hq : (s'.sheet L).page c = some q) : (s'.mem.info q).piClear = true := by
  rw [hp] at hq
  rw [← h c q hq]
  exact congrArg Prod.fst (ht q hq)

lemma Fetched.of_still {c : Cell ι}
    (hst : Still (s.sheet L) (s'.sheet L)) (htidy : Tidy (s.sheet L)) (hclear : s.Cleared L)
    (hpage : (s.sheet L).page c = some q) (hown : mode = pageSharedCow → ¬ (s.sheet L).shared c) :
    Fetched L mode c q s s' where
  tidy := hst.tidy htidy
  view c' := congrArg shown (hst.view c')
  page := (hst.page c).trans hpage
  others c' _ := hst.page c'
  own hm := fun h => hown hm ((hst.shared c).mp h)
  clear c' _ hq _ := hclear.mono (hst.page c') (hst.text c') hq

lemma Fetched.of_renewed {c : Cell ι} {s1 : Forest ι}
    (hst : Still (s.sheet L) (s1.sheet L)) (hren : Renewed c (s1.sheet L) (s'.sheet L))
    (htidy : Tidy (s.sheet L)) (hclear : s.Cleared L) (hpage : (s'.sheet L).page c = some q)
    (hview : shown (s'.mem.text q) = s.view L c) : Fetched L mode c q s s' where
  tidy := hren.tidy (hst.tidy htidy)
  view c' := by
    by_cases hc : c' = c
    · subst hc
      exact (congrArg shown (view_of_page hpage)).trans hview
    · exact congrArg shown ((hren.view_of_ne hc).trans (hst.view c'))
  page := hpage
  others c' hc := (hren.page c' hc).trans (hst.page c')
  own _ := hren.owned
  clear c' q' hq hne := by
    have hc : c' ≠ c := fun h => hne (Option.some.inj ((h ▸ hq).symm.trans hpage))
    refine hclear.mono ((hren.page c' hc).trans (hst.page c')) (fun x hx => ?_) hq
    rw [hren.text c' hc x ((hst.page c').trans hx), hst.text c' x hx]

end

/-- **Fetching a page changes nothing that is seen.** -/
lemma getPage_spec (h : s.Sound U T) (hL : L ⊆ T) (ht : t ∈ L)
    (htidy : Tidy (s.sheet L)) (hclear : s.Cleared L) (hdemand : (s.tree t).demand = true)
    (hmode : mode ≠ pageExcl) (npage : ℕ) : wp (getPage t npage mode)
      (fun r s' => ∃ p q, locate npage = some p ∧ r = some q ∧ Fetched L mode (t, p) q s s' ∧
        Only t s s') ⟨fun x s' => x = .noMem ∧ s.mem.failures < s'.mem.failures ∨
          x = .noSpace ∧ treePages ≤ npage ∧ s' = s,
       fun _ s' => s.mem.failures < s'.mem.failures⟩ s := by
  obtain ⟨hb, hf⟩ := h.backed (hL ht)
  rw [getPage, onTree, wp_zoom]
  refine wp_imp (pagetreeGetPage_spec hb hf npage mode) (fun r x hx => ?_) (fun e x hx => ?_)
    fun w x hx => ?_
  · obtain ⟨p, pt1, m1, e, hgot⟩ := hx
    obtain ⟨pt2, m2⟩ := x
    have hvalid := locate_valid hgot.place
    have hc : InUse L (t, p) := ⟨ht, hvalid⟩
    have hst := walked_still hL (hL ht) hgot.walked
    have honly : Only t s (s.withTree t (pt1.set e p) m2) :=
      ⟨⟨_, _, rfl, by rw [set_demand, hgot.walked.same.demand]⟩,
        fun q => (hgot.kept.hw q).trans (hgot.walked.kept.hw q), hgot.failures⟩
    have hpage : ∀ {q : Ppn} {m' : Memory},
        ((s.withTree t (pt1.set ⟨some q, pageExcl⟩ p) m').sheet L).page (t, p) = some q := by
      intro q m'
      rw [sheet_page hc, ent, withTree_tree_self, get_set_self hgot.reached]
    obtain rfl : pt2 = pt1.set e p := hgot.tree
    refine ⟨p, ?_⟩
    cases hgot.got with
    | @copied old pp _ need page fresh bytes clear =>
      refine ⟨pp, hgot.place, hgot.page, ?_, honly⟩
      refine Fetched.of_renewed hst (walked_renewed hL hvalid hgot.reached hgot.kept rfl
        fun _ hq => by cases hq; exact fresh) htidy hclear hpage ?_
      have hold : (s.sheet L).page (t, p) = some old := (sheet_page hc).trans page
      rw [view, view_of_page hold, ← hst.text _ _ hold]
      have hm1 : (m1.info old).piClear = true := by
        rw [← hclear _ _ hold]
        exact congrArg Prod.fst (hst.text _ _ hold)
      replace clear : (m2.info pp).piClear = true := clear
      replace bytes : m2.bytes pp = m1.bytes old := bytes
      show shown (m2.text pp) = shown (m1.text old)
      simp [shown, text, clear, hm1, bytes]
    | kept need page =>
      have hsame : pt1.set ((s.tree t).get p) p = pt1 := by
        rw [← hgot.walked.same.get p hvalid, set_get_self]
      obtain ⟨q, hq⟩ : ∃ q, ((s.tree t).get p).page = some q := by
        rw [← Option.ne_none_iff_exists']
        exact fun hnone => Bool.false_ne_true ((page hnone).symm.trans hdemand)
      refine ⟨q, hgot.place, hgot.page.trans hq, ?_, honly⟩
      rw [hsame]
      refine Fetched.of_still hst htidy hclear ((sheet_page hc).trans hq) fun hmode hs => ?_
      rcases hs.2 with h1 | h1
      · exact need (Or.inr ⟨h1, hmode⟩)
      · exact need (Or.inl h1)
    | @demanded q _ need page dem fresh clear =>
      replace clear : (m2.info q).piClear = false := clear
      refine ⟨q, hgot.place, hgot.page, ?_, honly⟩
      refine Fetched.of_renewed hst (walked_renewed hL hvalid hgot.reached hgot.kept rfl
        fun _ hq => by cases hq; exact fresh) htidy hclear hpage ?_
      rw [view, view_of_none ((sheet_page hc).trans page)]
      simp [shown, text, blank, clear]
  · rcases hx.2 with ⟨he, hfail⟩ | ⟨he, hn, hx⟩
    · exact Or.inl ⟨he, hfail⟩
    · refine Or.inr ⟨he, hn, ?_⟩
      rw [hx]
      simp
  · obtain ⟨-, p, hplace, hexcl | ⟨hneed, hnone⟩ | hfail⟩ := hx
    · exact absurd hexcl.1 hmode
    · -- a shared entry has a page
      have hc : InUse L (t, p) := ⟨ht, locate_valid hplace⟩
      refine absurd ((sheet_page hc).trans hnone) (htidy.full ⟨hc, ?_⟩)
      exact hneed.elim Or.inr fun hcow => Or.inl hcow.1
    · exact hfail

/-- A cell has been emptied, and the others present what they did. -/
structure Dropped (L : Set ι) (c : Cell ι) (s s' : Forest ι) : Prop where
  tidy : Tidy (s'.sheet L)
  clear : s'.Cleared L
  page : (s'.sheet L).page c = none
  others : ∀ c' ≠ c, (s'.sheet L).page c' = (s.sheet L).page c'
  view : ∀ c' ≠ c, s'.view L c' = s.view L c'

lemma putNull_spec (h : s.Sound U T) (hL : L ⊆ T) (ht : t ∈ L) (htidy : Tidy (s.sheet L))
    (hclear : s.Cleared L) (npage : ℕ) :
    wp (putNull t npage)
      (fun _ s' => ∃ p, locate npage = some p ∧ Dropped L (t, p) s s' ∧ Only t s s')
      ⟨fun x s' => x = .noMem ∧ s.mem.failures < s'.mem.failures ∨
          x = .noSpace ∧ treePages ≤ npage ∧ s' = s, fun _ _ => False⟩ s := by
  obtain ⟨hb, hf⟩ := h.null (hL ht)
  rw [putNull, onTree, wp_zoom]
  refine wp_mono (pagetreePutPage_spec hb hf npage) (fun _ x hx => ?_) fun e x hx => ?_
  · obtain ⟨p, pt1, m1, hplace, hwalk, hreach, htree, -, hkept, hfail⟩ := hx
    obtain ⟨pt2, m2⟩ := x
    obtain rfl : pt2 = pt1.set ⟨none, pageExcl⟩ p := htree
    have hvalid := locate_valid hplace
    have hc : InUse L (t, p) := ⟨ht, hvalid⟩
    rw [inHand, zero_add] at hwalk
    have hst := walked_still hL (hL ht) hwalk
    have hren := walked_renewed (e := ⟨none, pageExcl⟩) hL hvalid hreach hkept rfl
      fun _ hq => by cases hq
    have hpage : ((s.withTree t (pt1.set ⟨none, pageExcl⟩ p) m2).sheet L).page (t, p) = none := by
      rw [sheet_page hc, ent, withTree_tree_self, get_set_self hreach]
    have hothers : ∀ c' ≠ (t, p), ((s.withTree t (pt1.set ⟨none, pageExcl⟩ p) m2).sheet L).page c' =
          (s.sheet L).page c' := fun c' hne => (hren.page c' hne).trans (hst.page c')
    refine ⟨p, hplace, ⟨hren.tidy (hst.tidy htidy), fun c' q hq => ?_, hpage, hothers,
      fun c' hne => congrArg shown ((hren.view_of_ne hne).trans (hst.view c'))⟩,
      ⟨⟨_, _, rfl, by rw [set_demand, hwalk.same.demand]⟩,
        fun q => (hkept.hw q).trans (hwalk.kept.hw q), hfail⟩⟩
    have hne : c' ≠ (t, p) := by
      rintro rfl
      exact Option.some_ne_none q (hq.symm.trans hpage)
    exact hclear.mono (hothers c' hne) (fun x hx =>
      (hren.text c' hne x ((hst.page c').trans hx)).trans (hst.text c' x hx)) hq
  · rcases hx.2 with ⟨he, hfail⟩ | ⟨he, hn, hx⟩
    · exact Or.inl ⟨he, hfail⟩
    · refine Or.inr ⟨he, hn, ?_⟩
      rw [hx]
      simp

lemma putPage_own {x : Ppn} (ht : t ∈ T) (hx : x ∈ s.hand) (h : s.Sound U T) (npage : ℕ) :
    wp (putPage t npage x) (fun _ s' => s'.Sound U T ∧
        (∃ p, locate npage = some p ∧ s'.ent (t, p) = ⟨some x, pageExcl⟩ ∧
          ∀ p', p'.Valid → p' ≠ p → s'.ent (t, p') = s.ent (t, p')) ∧
        (∀ u ≠ t, s'.tree u = s.tree u) ∧ s'.mem.failures = s.mem.failures)
      ⟨fun e s' => s'.Sound U T ∧ (e = .noMem ∧ s.mem.failures < s'.mem.failures ∨
        e = .noSpace ∧ treePages ≤ npage), fun _ _ => False⟩ s := by
  refine (putPage_sound ht hx h npage).and ?_
  obtain ⟨hb, hf⟩ := h.hand ht hx
  simp only [putPage, onTree, drop, wp_rules, wp_zoom]
  refine wp_mono (pagetreePutPage_spec hb hf npage) (fun _ r hr => ?_)
    fun e r hr => hr.2.imp id fun he => ⟨he.1, he.2.1⟩
  obtain ⟨p, pt1, m1, hp, hwalk, hreach, htree, -, -, hfail⟩ := hr
  have hvalid := locate_valid hp
  refine ⟨⟨p, hp, ?_, fun p' hp' hne => ?_⟩, fun u hu => by simp [hu], hfail⟩
  · simp only [ent, update_self, htree, get_set_self hreach]
  · simp only [ent, update_self, htree, get_set_of_ne hvalid hp' hne]
    exact hwalk.same.get p' hp'

lemma free_spec (h : s.Sound U T) (hL : L ⊆ T) (ht : t ∈ T) (htL : t ∉ L) :
    wp (free t) (fun _ s' => Still (s.sheet L) (s'.sheet L) ∧ Only t s s' ∧ (s'.tree t).Empty)
      .never s := by
  obtain ⟨hb, hf⟩ := h.backed ht
  rw [free, onTree, wp_zoom]
  refine wp_of_never (pagetreeFree_spec hb hf) fun _ x hx => ?_
  obtain ⟨hempty, -, hdem, -, -, hk, hfail⟩ := hx
  have hent : ∀ c : Cell ι, InUse L c → (s.withTree t x.1 x.2).ent c = s.ent c := fun c hc => by
    have hct : c.1 ≠ t := fun heq => htL (heq ▸ hc.1)
    rw [ent, withTree_tree_of_ne hct, ent]
  refine ⟨⟨fun c => ?_, fun c => ?_, fun c q hq => ?_⟩, ⟨⟨x.1, x.2, rfl, hdem⟩, hk.hw, hfail⟩,
    (by simpa using hempty)⟩
  · by_cases hc : InUse L c
    · rw [sheet_page hc, sheet_page hc]
      exact congrArg _ (hent c hc)
    · simp [sheet, hc]
  · exact and_congr_right fun hc => iff_of_eq (congrArg _ (hent c hc))
  · obtain ⟨hc, hpage⟩ := sheet_page_some.mp hq
    exact hk.text (rest_pos (hL hc.1) (fun hct => htL (hct ▸ hc.1)) hc.2 hpage)

open Classical in
/-- Where a copy from `t` to `u` takes the contents of its cells from. -/
noncomputable def copyOrigin (t u : ι) (c : Cell ι) : Option (Cell ι) :=
  if c.1 = u ∧ c.2.Valid then some (t, c.2) else none

lemma copyOrigin_some {c d : Cell ι} :
    copyOrigin t u d = some c ↔ ∃ p : EntPtr, p.Valid ∧ d = (u, p) ∧ c = (t, p) := by
  obtain ⟨v, p⟩ := d
  simp only [copyOrigin]
  split_ifs with h
  · obtain ⟨rfl, hp⟩ := h
    simp [hp, eq_comm]
  · simp only [false_iff]
    rintro ⟨p', hp', hd, -⟩
    cases hd
    exact h ⟨rfl, hp'⟩

lemma copied_shared {e e' d' : PagetreeEntry}
    (h : CopiedEnt mode m m' e {} e' d') (hmode : mode = pageSharedCow ∨ mode = pageSharedCor) :
    d'.page = e.page ∧ e'.page = e.page ∧ (d'.Shared ↔ e.page ≠ none) ∧
      (e.page ≠ none → e'.Shared) ∧ (e.page = none → e' = e) := by
  cases h with
  | null page =>
    simp [page, PagetreeEntry.Shared, pageSharedCow, pageSharedCor]
  | excl page hm =>
    rcases hmode with rfl | rfl <;> exact absurd hm (by decide)
  | shared page =>
    refine ⟨page.symm, rfl, ?_, fun _ => Or.inl rfl, fun hnone => ?_⟩
    · simp [PagetreeEntry.Shared, page, hmode]
    · simp [page] at hnone

lemma copy_spread {pt' pu' d1 : Pagetree} (hL : L ⊆ T) (ht : t ∈ L)
    (hu : u ∈ L) (hne : t ≠ u) (htidy : Tidy (s.sheet L))
    (hmode : mode = pageSharedCow ∨ mode = pageSharedCor)
    (hd1 : ∀ p : EntPtr, p.Valid → d1.get p = {})
    (hcopied : TreeCopied mode s.mem m' (s.tree t) d1 pt' pu')
    (hk : Kept ((s.tree t).ledger + s.rest₂ T t u) s.mem m') :
    Spread (copyOrigin t u) (s.sheet L) (((s.withTree t pt' m').withTree u pu' m').sheet L) := by
  have hdst : ∀ p, ((s.withTree t pt' m').withTree u pu' m').ent (u, p) = pu'.get p := fun p => by
    rw [ent, withTree_tree_self]
  have hsrc : ∀ p, ((s.withTree t pt' m').withTree u pu' m').ent (t, p) = pt'.get p := fun p => by
    rw [ent, withTree_tree_of_ne hne, withTree_tree_self]
  have hoth : ∀ v p, v ≠ u → v ≠ t →
      ((s.withTree t pt' m').withTree u pu' m').ent (v, p) = s.ent (v, p) := fun v p hvu hvt => by
    rw [ent, withTree_tree_of_ne hvu, withTree_tree_of_ne hvt, ent]
  have hpair : ∀ p : EntPtr, p.Valid → CopiedEnt mode s.mem m' (s.ent (t, p)) {} (pt'.get p)
      (pu'.get p) := fun p hp => hd1 p hp ▸ hcopied.get p hp
  have hpages : ∀ c, copyOrigin t u c = none →
      (((s.withTree t pt' m').withTree u pu' m').sheet L).page c = (s.sheet L).page c := by
    rintro ⟨v, p⟩ hc
    by_cases huse : InUse L (v, p)
    · have hvu : v ≠ u := fun h => by simp [copyOrigin, h, huse.2] at hc
      rw [sheet_page huse, sheet_page huse]
      by_cases hvt : v = t
      · subst hvt
        rw [hsrc, (copied_shared (hpair p huse.2) hmode).2.1]
      · rw [hoth v p hvu hvt]
    · simp [sheet, huse]
  refine ⟨fun d c hdc => ?_, fun d c hdc => ?_, fun d c hdc => ?_, fun d c hdc => ?_, hpages,
    fun c hc hnot => ?_, fun c q hc hq => ?_⟩
  · obtain ⟨p, -, -, rfl⟩ := copyOrigin_some.mp hdc
    simp [copyOrigin, hne]
  · obtain ⟨p, hp, rfl, rfl⟩ := copyOrigin_some.mp hdc
    rw [sheet_page ⟨hu, hp⟩, sheet_page ⟨ht, hp⟩, hdst, (copied_shared (hpair p hp) hmode).1]
  · obtain ⟨p, hp, rfl, rfl⟩ := copyOrigin_some.mp hdc
    rw [sheet_page ⟨ht, hp⟩, ← (copied_shared (hpair p hp) hmode).2.2.1, ← hdst p]
    exact and_iff_right ⟨hu, hp⟩
  · obtain ⟨p, hp, rfl, rfl⟩ := copyOrigin_some.mp hdc
    obtain ⟨-, hpage, -, hmark, hnull⟩ := copied_shared (hpair p hp) hmode
    rw [sheet_page ⟨ht, hp⟩]
    refine ⟨fun hs hnone => ?_, fun hsome => ⟨⟨ht, hp⟩, by rw [hsrc]; exact hmark hsome⟩⟩
    -- a null entry is not marked, and the copy has left it alone
    refine htidy.full (c := (t, p)) ⟨⟨ht, hp⟩, ?_⟩ ((sheet_page ⟨ht, hp⟩).trans hnone)
    rw [← hnull hnone, ← hsrc p]
    exact hs.2
  · obtain ⟨v, p⟩ := c
    refine and_congr_right fun huse => ?_
    have hvu : v ≠ u := fun h => by simp [copyOrigin, h, huse.2] at hc
    have hvt : v ≠ t := fun h => hnot (u, p) (copyOrigin_some.mpr ⟨p, huse.2, rfl, by rw [h]⟩)
    rw [hoth v p hvu hvt]
  · obtain ⟨v, p⟩ := c
    obtain ⟨huse, hpage⟩ := sheet_page_some.mp hq
    have hvu : v ≠ u := fun h => by simp [copyOrigin, h, huse.2] at hc
    refine hk.text ?_
    by_cases hvt : v = t
    · subst hvt
      exact Nat.lt_of_lt_of_le (ent_pos huse.2 hpage) (Nat.le_add_right _ _)
    · exact Nat.lt_of_lt_of_le (sum_ent_pos (mem_erase.mpr
        ⟨hvt, mem_erase.mpr ⟨hvu, hL huse.1⟩⟩) huse.2 hpage) (Nat.le_add_left _ _)

/-! ### Pages of callers, and writing to a page -/

omit [DecidableEq ι] in
lemma Handed.still {l : List Ppn} (h : Handed U T l s s') (hL : L ⊆ T) :
    Still (s.sheet L) (s'.sheet L) where
  page c := by simp only [sheet, ent, h.tree]
  shared c := by simp only [sheet, ent, h.tree]
  text c q hq := by
    obtain ⟨hc, hpage⟩ := sheet_page_some.mp hq
    exact h.kept.text (sum_ent_pos (hL hc.1) hc.2 hpage)

omit [DecidableEq ι] in
lemma Handed.fresh (h : Handed U T (q :: s.hand) s s') : s.ledger T (.ent q) = 0 ∧ q ∉ s.hand := by
  have hl : s'.ledger T = s.ledger T + one (.held q) := by
    simp only [ledger, h.tree, h.hand, handLedger_cons, add_assoc]
  obtain ⟨hent, -, hheld, -⟩ := Balanced.held_alone (hl ▸ h.sound.balanced)
  rw [ledger_held] at hheld
  exact ⟨hent, List.count_eq_zero.mp hheld⟩

/-! ### Trees that come and go -/

section

omit [DecidableEq ι]

variable {L' : Set ι}

lemma sheet_mono (h : L' ⊆ L) {c : Cell ι} (hq : (s.sheet L').page c = some q) :
    (s.sheet L).page c = some q := by
  rw [sheet_page_some] at hq ⊢
  exact ⟨⟨h hq.1.1, hq.1.2⟩, hq.2⟩

lemma sheet_of_mem (h : L' ⊆ L) {c : Cell ι} (hc : c.1 ∈ L') :
    (s.sheet L').page c = (s.sheet L).page c ∧ ((s.sheet L').shared c ↔ (s.sheet L).shared c) := by
  have huse : InUse L' c ↔ InUse L c := and_congr_left' (iff_of_true hc (h hc))
  refine ⟨?_, and_congr_left' huse⟩
  by_cases hin : InUse L c
  · rw [sheet_page hin, sheet_page (huse.mpr hin)]
  · simp [sheet, hin, huse]

lemma tidy_mono (h : L' ⊆ L) (ht : Tidy (s.sheet L)) : Tidy (s.sheet L') where
  alone {c c' q} hq hs hq' := by
    have hc : c.1 ∈ L' := (sheet_page_some.mp hq).1.1
    exact ht.alone (sheet_mono h hq) (fun hsh => hs ((sheet_of_mem h hc).2.mpr hsh))
      (sheet_mono h hq')
  full {c} hs := by
    have hc : c.1 ∈ L' := hs.1.1
    rw [(sheet_of_mem h hc).1]
    exact ht.full ((sheet_of_mem h hc).2.mp hs)

lemma view_mono (h : L' ⊆ L) {c : Cell ι} (hc : c.1 ∈ L') : s.view L' c = s.view L c :=
  congrArg shown (view_congr (sheet_of_mem h hc).1 fun _ _ => rfl)

end

lemma sheet_insert (hnew : ∀ p : EntPtr, p.Valid → pt.get p = {}) (ht : t ∉ L) :
    sheet (insert t L) (s.withTree t pt s.mem) = s.sheet L := by
  have hpage : ∀ c, InUse (insert t L) c → ¬ InUse L c → (s.withTree t pt s.mem).ent c = {} := by
    rintro ⟨v, p⟩ ⟨hv, hp⟩ hnot
    obtain rfl : v = t := hv.resolve_right fun h => hnot ⟨h, hp⟩
    rw [ent, withTree_tree_self, hnew p hp]
  have hold : ∀ c, InUse L c → (s.withTree t pt s.mem).ent c = s.ent c := fun c hc => by
    have hct : c.1 ≠ t := fun h => ht (h ▸ hc.1)
    rw [ent, withTree_tree_of_ne hct, ent]
  have huse : ∀ c, InUse L c → InUse (insert t L) c := fun c hc =>
    ⟨Set.mem_insert_of_mem _ hc.1, hc.2⟩
  simp only [sheet, Sheet.mk.injEq]
  refine ⟨funext fun c => ?_, funext fun c => propext ⟨fun h => ?_, fun h => ?_⟩, rfl⟩
  · by_cases hc : InUse L c
    · rw [if_pos (huse c hc), if_pos hc, hold c hc]
    · rw [if_neg hc]
      split_ifs with h
      · rw [hpage c h hc]
      · rfl
  · by_cases hc : InUse L c
    · exact ⟨hc, hold c hc ▸ h.2⟩
    · have := h.2
      rw [hpage c h.1 hc] at this
      simp [PagetreeEntry.Shared, pageSharedCow, pageSharedCor] at this
  · exact ⟨huse c h.1, (hold c h.1).symm ▸ h.2⟩

lemma ledger_erase (ht : t ∈ T) (h0 : (s.tree t).ledger = 0) :
    s.ledger (T.erase t) = s.ledger T := by
  rw [ledger_split ht, h0, zero_add]
  rfl

end Forest

/-- The memory after a page has been given its contents and marked as cleared. -/
def Memory.fill (m : Memory) (q : Ppn) (x : Page) : Memory :=
  (m.setBytes q x).setInfo q { m.info q with piClear := true }

lemma fill_text_self (x : Page) : (m.fill q x).text q = (true, x) := by
  simp [fill, text]

lemma fill_text_of_ne (x : Page) (h : q' ≠ q) : (m.fill q x).text q' = m.text q' := by
  simp [fill, text, h]

lemma fill_hw (x : Page) (q' : Ppn) : ((m.fill q x).info q').piHwRef = (m.info q').piHwRef := by
  by_cases h : q' = q
  · subst h
    simp [fill]
  · simp [fill, h]

lemma fill_of_clear (x : Page) (h : (m.info q).piClear = true) : m.fill q x = m.setBytes q x := by
  have hinfo : { m.info q with piClear := true } = m.info q := by rw [← h]
  rw [fill, hinfo]
  simp [setInfo, setBytes]

/-- The memory after a page has been made ready to be mapped. -/
def Memory.ready (m : Memory) (q : Ppn) : Memory :=
  if (m.info q).piClear = true then m else m.fill q zeroPage

lemma shown_of_clear (h : (m.info q).piClear = true) : shown (m.text q) = m.bytes q := by
  simp [shown, text, h]

lemma ready_clear_self : ((m.ready q).info q).piClear = true := by
  rw [ready]
  split_ifs with h
  · exact h
  · simp [fill]

lemma ready_clear_of_ne (h : q' ≠ q) : ((m.ready q).info q').piClear = (m.info q').piClear := by
  rw [ready]
  split_ifs
  · rfl
  · simp [fill, h]

lemma ready_hw (q' : Ppn) : ((m.ready q).info q').piHwRef = (m.info q').piHwRef := by
  rw [ready]
  split_ifs
  · rfl
  · exact fill_hw zeroPage q'

lemma ready_failures : (m.ready q).failures = m.failures := by
  rw [ready]
  split_ifs <;> rfl

lemma ready_shown (q' : Ppn) : shown ((m.ready q).text q') = shown (m.text q') := by
  rw [ready]
  split_ifs with h
  · rfl
  · by_cases hq : q' = q
    · subst hq
      rw [fill_text_self]
      simp [shown, text, h]
    · rw [fill_text_of_ne _ hq]

namespace Forest

omit [DecidableEq ι]

lemma Sound.fill (h : s.Sound U T) (hL : L ⊆ T) {c : Cell ι} (hq : (s.sheet L).page c = some q)
    (x : Page) : Sound U T { s with mem := s.mem.fill q x } := by
  obtain ⟨hc, hpage⟩ := sheet_page_some.mp hq
  have hpos : 0 < s.ledger T (.ent q) := sum_ent_pos (hL hc.1) hc.2 hpage
  have hfree : s.mem.freeCount q = 0 := by
    have := (h.balanced.page q).once
    simp only [refs] at this
    split_ifs at this <;> omega
  refine ⟨(h.balanced.setBytes q x).setClear hfree, fun p => ?_⟩
  rw [refs, fill_hw]
  exact h.fits p

lemma Sound.ready (h : s.Sound U T) (hL : L ⊆ T) {c : Cell ι}
    (hq : (s.sheet L).page c = some q) : Sound U T { s with mem := s.mem.ready q } := by
  rw [Memory.ready]
  split_ifs
  · exact h
  · exact h.fill hL hq zeroPage

lemma ready_view (c : Cell ι) : view L { s with mem := s.mem.ready q } c = s.view L c := by
  have hpage : (sheet L { s with mem := s.mem.ready q }).page c = (s.sheet L).page c := rfl
  cases hc : (s.sheet L).page c with
  | none => rw [view, view, view_of_none hc, view_of_none (hpage.trans hc)]
  | some x =>
    rw [view, view, view_of_page hc, view_of_page (hpage.trans hc)]
    exact ready_shown x

lemma fill_written (x : Page) :
    Written q (s.sheet L) (sheet L { s with mem := s.mem.fill q x }) :=
  ⟨rfl, rfl, fun _ hne => fill_text_of_ne x hne⟩

end Forest

end Corey.Mem
