import Corey.Kern.FaultPath

/-!
Which pages `page_map_free` frees (`arch/amd64/pmap.c`).

The pages of the tables of a pagemap are those that were taken from the allocator for it, whatever
walks and invalidations there have been. Freeing starts at the level of a root in every pagemap.
For a root that is right. The table of an interior pagemap is of level 1, so that the pages of user
data it maps are taken for tables, and the tables of its upper half are left out.
-/

namespace Corey.Kern

open Function Corey.Comp Corey.Mem Corey.Mem.Forest Finset PmTable Multiset

variable {l i : ℕ} {U : Finset Ppn} {T : Finset TreeId} {w w' w'' : Forest TreeId}
  {P P' P'' : Multiset Ppn} {va : ℕ}

lemma pdx_entries (l va : ℕ) : pdx l va < nptentries := pdx_lt l va

lemma half_le : nptentries / 2 ≤ nptentries := Nat.div_le_self _ _

lemma half_eq : nptentries / 2 = 256 := rfl

-- sums over the entries of a table are never computed
attribute [local irreducible] nptentries

/-! ### The pages of a table -/

/-- The pages of the tables an entry leads to, not looking behind links. -/
def PmEnt.pages : {l : ℕ} → PmEnt l → Multiset Ppn
  | _, .table p ent => p ::ₘ ∑ i ∈ Finset.range nptentries, (ent i).pages
  | _, _ => 0

def PmTable.pages (t : PmTable l) : Multiset Ppn := ∑ i ∈ Finset.range nptentries, (t i).pages

/-- All pages of a pagemap: its own and those of its tables. -/
def Pagemap.pages (pm : Pagemap) : Multiset Ppn :=
  pm.page ::ₘ if pm.int then pm.inner.pages else pm.root.pages

lemma pages_table (p : Ppn) (ent : PmTable l) :
    (PmEnt.table p ent).pages = p ::ₘ ent.pages := by
  rw [PmEnt.pages, pages]

lemma pages_leaf (e : PmEnt 0) : e.pages = 0 := by cases e <;> rfl

lemma pages_emptyTable : (emptyTable : PmTable l).pages = 0 :=
  sum_eq_zero fun _ _ => rfl

lemma pages_leaves (t : PmTable 0) : t.pages = 0 := sum_eq_zero fun i _ => pages_leaf (t i)

lemma pages_update (hi : i < nptentries) (t : PmTable l) (e : PmEnt l) :
    PmTable.pages (update t i e) + (t i).pages = t.pages + e.pages := by
  have hmem : i ∈ Finset.range nptentries := Finset.mem_range.mpr hi
  have hrest : ∑ j ∈ (Finset.range nptentries).erase i, (update t i e j).pages =
      ∑ j ∈ (Finset.range nptentries).erase i, (t j).pages :=
    Finset.sum_congr rfl fun j hj => by rw [update_of_ne (Finset.ne_of_mem_erase hj)]
  rw [PmTable.pages, PmTable.pages, ← Finset.add_sum_erase _ _ hmem,
    ← Finset.add_sum_erase _ _ hmem, hrest, update_self, add_right_comm, add_comm e.pages,
    add_right_comm]

/-! ### Walks draw pages for their tables -/

/-- Pages have been taken from the allocator, and all of them have become pages of tables. -/
structure Drew (U : Finset Ppn) (T : Finset TreeId) (P P' : Multiset Ppn) (w w' : Forest TreeId) :
    Prop where
  drawn : ∃ new, P' = P + new ∧ (w'.hand : Multiset Ppn) = w.hand + new
  sound : w'.Sound U T

lemma Drew.refl (h : w.Sound U T) : Drew U T P P w w := ⟨⟨0, by simp⟩, h⟩

lemma Drew.trans (h : Drew U T P P' w w') (h' : Drew U T P' P'' w' w'') :
    Drew U T P P'' w w'' := by
  obtain ⟨n, hP, hw⟩ := h.drawn
  obtain ⟨n', hP', hw'⟩ := h'.drawn
  exact ⟨⟨n + n', by rw [hP', hP, add_assoc], by rw [hw', hw, add_assoc]⟩, h'.sound⟩

/-- The same for a table of which only entry `i` has changed. -/
structure DrewAt (U : Finset Ppn) (T : Finset TreeId) (i : ℕ) (x x' : PmTable l × Forest TreeId) :
    Prop where
  drew : Drew U T x.1.pages x'.1.pages x.2 x'.2
  frame : ∀ j ≠ i, x'.1 j = x.1 j

variable {x x' x'' : PmTable l × Forest TreeId} {y : PmTable (l + 1) × Forest TreeId} {p : Ppn}
  {ent : PmTable l} {α : Type} {body : ℕ → ForestM TreeId Unit} {f : ℕ → Multiset Ppn} {n : ℕ}

lemma DrewAt.refl (h : x.2.Sound U T) : DrewAt U T i x x :=
  ⟨.refl h, fun _ _ => rfl⟩

lemma DrewAt.trans (h : DrewAt U T i x x')
    (h' : DrewAt U T i x' x'') : DrewAt U T i x x'' :=
  ⟨h.drew.trans h'.drew, fun j hj => (h'.frame j hj).trans (h.frame j hj)⟩

lemma ensureTable_drew (hi : i < nptentries) (h : y.2.Sound U T)
    (hlink : (y.1 i).link? = none) (pid : ℕ) :
    wp (ensureTable pid i) (fun _ y' => DrewAt U T i y y' ∧ ∃ p ent, y'.1 i = .table p ent)
      (.both (DrewAt U T i y)) y := by
  simp only [ensureTable, wp_rules, wp_shared]
  refine ⟨fun hnone => ?_, fun hsome => ⟨.refl h, ?_⟩⟩
  · have hent : y.1 i = .none := by
      cases he : y.1 i <;> simp [he, PmEnt.isNone] at hnone ⊢
    refine wp_imp (takePage_spec h pid) (fun p w hw => ?_)
      (fun _ w hw => ⟨⟨⟨0, (add_zero _).symm, ?_⟩, hw.1.sound⟩, fun _ _ => rfl⟩) fun _ _ _ => trivial
    swap
    · rw [show w.hand = y.2.hand from hw.1.hand, add_zero]
    simp only [onMem, pageZero, wp_zoom, wp_change]
    have hpages := pages_update hi y.1 (.table p emptyTable)
    have hzero : (PmEnt.none : PmEnt (l + 1)).pages = 0 := rfl
    rw [hent, hzero, add_zero, pages_table, pages_emptyTable, cons_zero] at hpages
    obtain ⟨⟨hsound, -, hhand, -⟩, -⟩ := hw
    refine ⟨⟨⟨⟨{p}, ?_, ?_⟩, hsound.balanced.setBytes p zeroPage, hsound.fits⟩, fun j hj => ?_⟩, p,
      emptyTable, update_self _ _ _⟩
    · exact hpages
    · rw [hhand, ← cons_coe, ← singleton_add, add_comm]
    · exact update_of_ne hj _ _
  · cases he : y.1 i with
    | none => simp [he, PmEnt.isNone] at hsome
    | link a p => simp [he, PmEnt.link?] at hlink
    | table p ent => exact ⟨p, ent, rfl⟩

lemma DrewAt.under (hi : i < nptentries) (ht : y.1 i = .table p ent)
    (h : Drew U T ent.pages x.1.pages y.2 x.2) :
    DrewAt U T i y (update y.1 i (.table p x.1), x.2) := by
  obtain ⟨new, hP, hw⟩ := h.drawn
  have hpages := pages_update hi y.1 (.table p x.1)
  rw [ht, pages_table, pages_table, hP, ← cons_add, ← add_assoc, add_right_comm] at hpages
  exact ⟨⟨⟨new, add_right_cancel hpages, hw⟩, h.sound⟩, fun j hj => update_of_ne hj _ _⟩

lemma descend_drew {m : PmM TreeId l α} (hi : i < nptentries) (h : y.2.Sound U T)
    (hlink : (y.1 i).link? = none) (pid : ℕ) (hm : ∀ ent w, Forest.Sound U T w →
      m.Leaves (fun x => Drew U T ent.pages x.1.pages w x.2) (ent, w)) :
    (do
      ensureTable pid i
      focus (under i) m).Leaves (DrewAt U T i y) y := by
  rw [Leaves, wp_bind]
  refine wp_post (ensureTable_drew hi h hlink pid) fun _ z ht => ?_
  obtain ⟨hz, p, ent, hent⟩ := ht
  exact (wp_under hent).mpr ((hm ent z.2 hz.drew.sound).mono fun _ hx => hz.trans (.under hi hent hx))

lemma pgdirWalk_drew (pid va : ℕ) : ∀ (l : ℕ) (x : PmTable l × Forest TreeId), x.2.Sound U T →
    (pgdirWalk pid va l).Leaves (DrewAt U T (pdx l va) x) x
  | 0, _, h => .refl h
  | l + 1, x, h => by
    simp only [Leaves, pgdirWalk, wp_rules]
    cases hlink : (x.1 (pdx (l + 1) va)).link? with
    | some r => exact .refl h
    | none =>
      exact descend_drew (pdx_entries _ _) h hlink pid fun ent w hw =>
        (pgdirWalk_drew pid va l (ent, w) hw).mono fun _ hz => hz.drew

lemma Drew.leaf {e : PmEnt l} (hi : i < nptentries)
    (h : x.2.Sound U T) (hold : (x.1 i).pages = 0) (hnew : e.pages = 0) :
    Drew U T x.1.pages (pages (update x.1 i e)) x.2 x.2 := by
  have hpages := pages_update hi x.1 e
  rw [hold, hnew, add_zero] at hpages
  exact ⟨⟨0, hpages, (add_zero _).symm⟩, h⟩

lemma asArchPutinterior_drew (pid va : ℕ) (a : Kobj) (pimap : Ppn)
    (x : PmTable 3 × Forest TreeId) (h : x.2.Sound U T) :
    (asArchPutinterior pid va a pimap).Leaves
      (fun x' => va < ulim ∧ DrewAt U T (pdx 3 va) x x') x := by
  rw [Leaves, asArchPutinterior, wp_bind, wp_require]
  refine ⟨fun hva => ?_, fun _ => trivial⟩
  refine Leaves.mono (descend_drew (pdx_entries _ _) h (by cases x.1 (pdx 3 va) <;> rfl) pid
    fun ent w hw => ?_) fun _ => .intro hva
  simp only [Leaves, wp_rules]
  refine ⟨fun hnone => ?_, fun _ => ⟨fun _ => .refl hw, fun _ => trivial⟩⟩
  refine Drew.leaf (x := (ent, w)) (pdx_entries 2 va) hw ?_ rfl
  cases he : ent (pdx 2 va) <;> simp [he, PmEnt.isNone] at hnone ⊢
  rfl

lemma asArchPutinteriorLow_drew (pid va : ℕ) (a : Kobj) (pimap : Ppn)
    (x : PmTable 1 × Forest TreeId) (h : x.2.Sound U T) :
    (asArchPutinteriorLow pid va a pimap).Leaves (DrewAt U T (pdx 3 va) x) x := by
  rw [Leaves, asArchPutinteriorLow, wp_bind, wp_require]
  refine ⟨fun _ => ?_, fun _ => trivial⟩
  refine descend_drew (pdx_entries _ _) h (by cases x.1 (pdx 3 va) <;> rfl) pid fun ent w hw => ?_
  simp only [Leaves, wp_rules]
  cases (ent (pdx 2 va)).pte? with
  | none => exact Drew.leaf (x := (ent, w)) (pdx_entries 2 va) hw (pages_leaf _) (pages_leaf _)
  | some e =>
    simp only [wp_require]
    exact ⟨fun _ => .refl hw, fun _ => trivial⟩

/-! ### What keeps the tables -/

lemma pages_setSub (e : PmEnt (l + 1)) (t : PmTable l) (h : t.pages = e.sub.pages) :
    (e.setSub t).pages = e.pages := by
  cases e with
  | none => rfl
  | link a p => rfl
  | table p ent =>
    show (PmEnt.table p t).pages = _
    rw [pages_table, pages_table, h]
    rfl

lemma pages_setLeaf (va : ℕ) (e : Pte) : ∀ {l : ℕ} (t : PmTable l), (t.setLeaf va e).pages = t.pages
  | 0, t => by rw [pages_leaves, pages_leaves]
  | l + 1, t => by
    have hi : pdx (l + 1) va < nptentries := pdx_entries _ _
    have hpages := pages_update hi t ((t (pdx (l + 1) va)).setSub
      (setLeaf (t (pdx (l + 1) va)).sub va e))
    rw [pages_setSub _ _ (pages_setLeaf va e _)] at hpages
    exact add_right_cancel hpages

lemma pages_invalidate : ∀ {l : ℕ} (first last : ℕ) (t : PmTable l),
    (t.invalidate first last).pages = t.pages
  | 0, first, last, t => by rw [pages_leaves, pages_leaves]
  | l + 1, first, last, t => sum_congr rfl fun i _ => by
    rw [invalidate]
    dsimp only
    by_cases hr : pdx (l + 1) first ≤ i ∧ i ≤ pdx (l + 1) last
    · rw [if_pos hr]
      cases t i with
      | none => rfl
      | link a p => rfl
      | table p ent =>
        show (PmEnt.table p (invalidate _ _ ent)).pages = _
        rw [pages_table, pages_table, pages_invalidate]
    · rw [if_neg hr]

/-- A root has no tables for its upper half. -/
def Pagemap.Low (pm : Pagemap) : Prop := pm.int = false → ∀ i, 256 ≤ i → pm.root i = .none

lemma low_setLeaf {pm : Pagemap} (h : pm.Low) (va : ℕ) (e : Pte) : (pm.setLeaf va e).Low := by
  cases hint : pm.int with
  | true =>
    intro h'
    simp [Pagemap.setLeaf, hint] at h'
  | false =>
    intro _ i hi
    have hnone := h hint i hi
    simp only [Pagemap.setLeaf, hint, Bool.false_eq_true, if_false]
    show update pm.root (pdx 3 va) ((pm.root (pdx 3 va)).setSub _) i = .none
    by_cases hiv : i = pdx 3 va
    · rw [← hiv, update_self, hnone]
      rfl
    · rw [update_of_ne hiv, hnone]

lemma low_invalidate {pm : Pagemap} (h : pm.Low) (first last : ℕ) :
    (pm.invalidate first last).Low := by
  cases hint : pm.int with
  | true =>
    intro h'
    simp [Pagemap.invalidate, hint] at h'
  | false =>
    intro _ i hi
    have hnone := h hint i hi
    simp only [Pagemap.invalidate, hint, Bool.false_eq_true, if_false, invalidate, hnone]
    split_ifs <;> rfl

lemma pages_pagemap_setLeaf (pm : Pagemap) (va : ℕ) (e : Pte) :
    (pm.setLeaf va e).pages = pm.pages := by
  cases hint : pm.int <;> simp [Pagemap.setLeaf, Pagemap.pages, hint, pages_setLeaf]

lemma pages_pagemap_invalidate (pm : Pagemap) (first last : ℕ) :
    (pm.invalidate first last).pages = pm.pages := by
  cases hint : pm.int <;> simp [Pagemap.invalidate, Pagemap.pages, hint, pages_invalidate]

/-! ### Histories of a pagemap -/

section

variable {s s' : Machine} {a : Kobj} {pm pm' : Pagemap}

/-- A step in which the pagemap of a tree changes, and the pages drawn in it are for its tables. -/
structure MapDrew (U : Finset Ppn) (T : Finset TreeId) (a : Kobj) (pm : Pagemap)
    (s s' : Machine) : Prop where
  map : ∃ pm', (s'.obj a).tree.atPgmap = some pm' ∧ (pm.Low → pm'.Low) ∧
    Drew U T pm.pages pm'.pages s.forest s'.forest

lemma Drew.map (h : Drew U T P P' s.forest w) (hpages : pm.pages = pm.page ::ₘ P)
    (hpages' : pm'.pages = pm.page ::ₘ P') (hlow : pm.Low → pm'.Low) :
    MapDrew U T a pm s (Machine.modObj a (fun o => { o with tree := { o.tree with
      atPgmap := some pm' } }) { s with forest := w }) := by
  obtain ⟨new, hP, hw⟩ := h.drawn
  refine ⟨pm', by rw [modObj_self], hlow, ⟨new, ?_, hw⟩, h.sound⟩
  rw [hpages', hpages, hP, cons_add]

lemma onPagemap_drew {m1 : PmM TreeId 1 α} {m3 : PmM TreeId 3 α} {i j : ℕ}
    (hpm : (s.obj a).tree.atPgmap = some pm)
    (h1 : m1.Leaves (DrewAt U T i (pm.inner, s.forest)) (pm.inner, s.forest))
    (h3 : m3.Leaves (fun x => j < 256 ∧ DrewAt U T j (pm.root, s.forest) x) (pm.root, s.forest)) :
    (onPagemap a (focus theMap (if pm.int then focus innerOf m1 else focus rootOf m3))).Leaves
      (MapDrew U T a pm s) s := by
  simp only [onPagemap, wp_zoom, wp_focus, hpm, theMap, Option.getD_some, Option.map_some]
  cases hint : pm.int with
  | true =>
    rw [if_pos rfl, wp_focus]
    refine h1.mono fun x hx => hx.drew.map ?_ ?_ fun _ h => ?_
    · simp only [Pagemap.pages, hint, if_true]
    · simp only [Pagemap.pages, innerOf, hint, if_true]
    · simp [innerOf, hint] at h
  | false =>
    rw [if_neg (by simp), wp_focus]
    refine h3.mono fun x hx => hx.2.drew.map ?_ ?_ fun hlow _ k hk => ?_
    · simp only [Pagemap.pages, hint, Bool.false_eq_true, if_false]
    · simp only [Pagemap.pages, rootOf, hint, Bool.false_eq_true, if_false]
    · rw [← hlow hint k hk]
      exact hx.2.frame k (by omega)

lemma pdx_user_lt (hva : va < ulim) : pdx 3 va < 256 := by
  have hlt : va / 2 ^ (12 + 9 * 3) < 256 := Nat.div_lt_of_lt_mul hva
  rw [pdx, Nat.mod_eq_of_lt (by rw [nptentries]; omega)]
  exact hlt

lemma pgdirWalkIn_drew (hpm : (s.obj a).tree.atPgmap = some pm) (h : s.forest.Sound U T)
    (va pid : ℕ) :
    (pgdirWalkIn a va pid).Leaves (MapDrew U T a pm s) s := by
  simp only [pgdirWalkIn, wp_rules, wp_derefAs_any, hpm]
  refine fun _ _ => ⟨?_, by simp⟩
  rintro _ ⟨⟩
  refine ⟨fun hva => ?_, fun _ => trivial⟩
  have hj := pdx_user_lt hva
  exact onPagemap_drew hpm (pgdirWalk_drew pid va 1 _ h)
    ((pgdirWalk_drew pid va 3 _ h).mono fun _ hx => ⟨hj, hx⟩)

lemma putInterior_drew (hpm : (s.obj a).tree.atPgmap = some pm) (h : s.forest.Sound U T)
    (va : ℕ) (b : Kobj) :
    (putInterior a va b).Leaves (MapDrew U T a pm s) s := by
  simp only [putInterior, wp_rules, wp_derefAs, hpm]
  refine ⟨fun _ _ => ⟨fun _ _ => ⟨?_, nofun⟩, fun _ _ => trivial, fun _ => trivial⟩,
    fun _ _ => trivial, fun _ => trivial⟩
  rintro _ ⟨⟩
  refine ⟨fun im him => ?_, fun _ => trivial⟩
  exact onPagemap_drew hpm (asArchPutinteriorLow_drew _ va b _ _ h)
    ((asArchPutinterior_drew _ va b _ _ h).mono fun _ hx => ⟨pdx_user_lt hx.1, hx.2⟩)

/-- What can happen to the pagemap of a tree. The steps of `as_arch_putpage` are those of its
walk and of its last line; through a link it takes them in the pagemap of another tree. -/
inductive FillOp
  | walk (va pid : ℕ)
  | leaf (va : ℕ) (e : Pte)
  | link (va : ℕ) (b : Kobj)
  | invalidate (first last : ℕ)
  | other (m : KM Unit)

/-- The machine, and the pages that have been taken from the allocator for the pagemap. -/
abbrev Filling := Machine × Multiset Ppn

/-- A computation on behalf of the pagemap: what it takes it takes for it. -/
def own {α : Type} (m : KM α) (x : Filling) : Option Filling :=
  (m.next x.1).map fun s => (s, x.2 + ((s.forest.hand : Multiset Ppn) - x.1.forest.hand))

/-- The pagemap of a tree, from `page_map_alloc` on. -/
def filling (U : Finset Ppn) (T : Finset TreeId) (a : Kobj) : System Filling FillOp where
  init x := ∃ s interior pid, s.forest.Sound U T ∧ newPagemap a interior pid s = (.ok (), x.1) ∧
    x.2 = (x.1.forest.hand : Multiset Ppn) - s.forest.hand
  step
    | .walk va pid, x => own (pgdirWalkIn a va pid) x
    | .leaf va e, x =>
      own (modTree a fun t => { t with atPgmap := t.atPgmap.map (·.setLeaf va e) }) x
    | .link va b, x => own (putInterior a va b) x
    | .invalidate first last, x => own (atInvalidateRange a first last) x
    | .other m, x => (m.next x.1).map fun s => (s, x.2)

/-- What goes on elsewhere leaves the pagemap alone and keeps the pages accounted for, and does not
free pages of the pagemap. -/
def Apart (U : Finset Ppn) (T : Finset TreeId) (a : Kobj) (x : Filling) : FillOp → Prop
  | .other m => ∀ s, m.next x.1 = some s → s.forest.Sound U T ∧ x.2 ≤ s.forest.hand ∧
      (s.obj a).tree.atPgmap = (x.1.obj a).tree.atPgmap
  | _ => True

/-- The pages that were taken for a pagemap are its own page and those of its tables. -/
structure Tracked (U : Finset Ppn) (T : Finset TreeId) (a : Kobj) (x : Filling) : Prop where
  map : ∃ pm, (x.1.obj a).tree.atPgmap = some pm ∧ x.2 = pm.pages ∧ pm.Low
  sound : x.1.forest.Sound U T
  held : x.2 ≤ x.1.forest.hand

lemma Tracked.own {m : KM α} {x x' : Filling} (h : Tracked U T a x)
    (hm : ∀ pm, (x.1.obj a).tree.atPgmap = some pm → m.Leaves (MapDrew U T a pm x.1) x.1)
    (hstep : own m x = some x') : Tracked U T a x' := by
  obtain ⟨s', hs', rfl⟩ := Option.map_eq_some_iff.mp hstep
  obtain ⟨pm, hpm, hpages, hlow⟩ := h.map
  obtain ⟨pm', hpm', hlow', ⟨new, hP, hw⟩, hsound⟩ := next_of_wp (hm pm hpm) hs'
  have hnew : (s'.forest.hand : Multiset Ppn) - x.1.forest.hand = new := by
    rw [hw, add_tsub_cancel_left]
  refine ⟨⟨pm', hpm', ?_, hlow' hlow⟩, hsound, ?_⟩
  · rw [hnew, hpages, hP]
  · rw [hnew, hw]
    exact add_le_add_left h.held new

lemma modTree_drew {f : Pagemap → Pagemap} (hpm : (s.obj a).tree.atPgmap = some pm)
    (h : s.forest.Sound U T) (hlow : pm.Low → (f pm).Low) (hpages : (f pm).pages = pm.pages) :
    MapDrew U T a pm s (s.modObj a fun o => { o with tree := { o.tree with
      atPgmap := o.tree.atPgmap.map f } }) :=
  ⟨f pm, by rw [modObj_self, hpm]; rfl, hlow, hpages ▸ .refl h⟩

lemma atInvalidateRange_drew (hpm : (s.obj a).tree.atPgmap = some pm) (h : s.forest.Sound U T)
    (first last : ℕ) : (atInvalidateRange a first last).Leaves (MapDrew U T a pm s) s := by
  simp only [atInvalidateRange, wp_rules, wp_derefAs, wp_halt, wp_modTree, Exits.both, implies_true,
    and_true, true_and]
  intro _ _ _ _ _ _
  exact modTree_drew hpm h (low_invalidate · first last) (pages_pagemap_invalidate pm first last)

lemma newPagemap_tracked (h : s.forest.Sound U T) (interior pid : ℕ) :
    wp (newPagemap a interior pid) (fun _ s' => Tracked U T a
      (s', (s'.forest.hand : Multiset Ppn) - s.forest.hand)) .any s := by
  simp only [newPagemap, pageMapAlloc, wp_rules, wp_onForest, wp_archCpu, wp_modTree]
  refine wp_weaken (takePage_spec h pid) fun p w ht => ?_
  obtain ⟨⟨hsound, -, hhand, -⟩, -⟩ := ht
  have hnew : (w.hand : Multiset Ppn) - s.forest.hand = {p} := by
    rw [hhand, ← cons_coe, ← singleton_add, add_tsub_cancel_right]
  -- cleared or not, the new pagemap has no tables of its own
  have hempty : ∀ pm : Pagemap, pm.page = p → pm.root = emptyTable → pm.inner = emptyTable →
      (w.hand : Multiset Ppn) - s.forest.hand = pm.pages ∧ pm.Low := by
    intro pm hpage hroot hinner
    refine ⟨?_, fun _ i _ => by rw [hroot]; rfl⟩
    rw [hnew, Pagemap.pages, hpage, hroot, hinner, pages_emptyTable, pages_emptyTable, ite_self,
      cons_zero]
  refine ⟨⟨_, by rw [modObj_self], ?_⟩, hsound, ?_⟩
  · split_ifs
    · exact hempty _ rfl rfl rfl
    · exact hempty _ rfl rfl rfl
  · exact tsub_le_self

lemma tracked_of_reach {x : Filling} (h : (filling U T a).Reach (Apart U T a) x) :
    Tracked U T a x := by
  refine System.Reach.invariant (I := Tracked U T a) (fun x hx => ?_)
    (fun x op x' ih hok hstep => ?_) h
  · obtain ⟨s0, interior, pid, hsound, hnew, hpages⟩ := hx
    have htracked := wp_ok (newPagemap_tracked hsound interior pid) hnew
    rwa [← hpages] at htracked
  · cases op with
    | walk va pid => exact ih.own (fun pm hpm => pgdirWalkIn_drew hpm ih.sound va pid) hstep
    | leaf va e =>
      have hleaf : own (modTree a fun t => { t with atPgmap := t.atPgmap.map (·.setLeaf va e) }) x =
        some x' := hstep
      refine ih.own (fun pm hpm => wp_modTree.mpr ?_) hleaf
      exact modTree_drew hpm ih.sound (low_setLeaf · va e) (pages_pagemap_setLeaf pm va e)
    | link va b => exact ih.own (fun pm hpm => putInterior_drew hpm ih.sound va b) hstep
    | invalidate first last =>
      exact ih.own (fun pm hpm => atInvalidateRange_drew hpm ih.sound first last) hstep
    | other m =>
      obtain ⟨s', hs', rfl⟩ := Option.map_eq_some_iff.mp hstep
      obtain ⟨hsound, hheld, hsame⟩ := hok s' hs'
      obtain ⟨pm, hpm, hpages, hlow⟩ := ih.map
      exact ⟨⟨pm, hsame.trans hpm, hpages, hlow⟩, hsound, hheld⟩

end

/-! ### What freeing does to the free lists -/

/-- The pages `P` have been put on the free lists. Pages of devices are never put there. -/
structure PutFree (P : Multiset Ppn) (m m' : Memory) : Prop where
  hwpage : ∀ p, (m'.info p).piHwpage = (m.info p).piHwpage
  free : ∀ p, m'.freeCount p = m.freeCount p + if (m.info p).piHwpage then 0 else P.count p

namespace PutFree

variable {m m' m'' : Memory}

lemma refl (m : Memory) : PutFree 0 m m := ⟨fun _ => rfl, fun _ => by simp⟩

lemma trans (h : PutFree P m m') (h' : PutFree P' m' m'') : PutFree (P + P') m m'' := by
  refine ⟨fun p => (h'.hwpage p).trans (h.hwpage p), fun p => ?_⟩
  rw [h'.free p, h.free p, h.hwpage, count_add]
  split_ifs <;> omega

end PutFree

/-- The pages `P` have left the hand of the kernel. -/
structure Freed (U : Finset Ppn) (T : Finset TreeId) (P : Multiset Ppn) (w w' : Forest TreeId) :
    Prop where
  sound : w'.Sound U T
  hand : (w'.hand : Multiset Ppn) + P = w.hand

lemma Freed.trans (h : Freed U T P w w') (h' : Freed U T P' w' w'') :
    Freed U T (P + P') w w'' :=
  ⟨h'.sound, by rw [← h.hand, ← h'.hand, add_assoc, add_comm P']⟩

lemma Freed.le (h : Freed U T P w w') (hle : P + P' ≤ w.hand) : P' ≤ w'.hand := by
  rw [← h.hand, add_comm (w'.hand : Multiset Ppn)] at hle
  exact le_of_add_le_add_left hle

/-- If `m` ends it has put the pages `P` on the free lists and found that `C` holds. If `C` and
`D` hold and the kernel has the pages then it does end, and the kernel has them no more. -/
def Frees (U : Finset Ppn) (T : Finset TreeId) (P : Multiset Ppn) (C D : Prop)
    (m : ForestM TreeId Unit) : Prop :=
  ∀ w, wp m (fun _ w' => PutFree P w.mem w'.mem ∧ C ∧
      (D ∧ w.Sound U T ∧ P ≤ w.hand → Freed U T P w w'))
    ⟨fun _ _ => ¬ (C ∧ D ∧ w.Sound U T ∧ P ≤ w.hand),
      fun _ _ => ¬ (C ∧ D ∧ w.Sound U T ∧ P ≤ w.hand)⟩ w

namespace Frees

variable {C C' D D' : Prop} {m m' : ForestM TreeId Unit} {c d : ℕ → Prop}

lemma done : Frees U T 0 True True (pure ()) := fun _ =>
  ⟨.refl _, trivial, fun h => ⟨h.2.1, add_zero _⟩⟩

lemma guard (b : Bool) (w : Stop) :
    Frees U T 0 (b = true) True (if b then pure () else halt w) := by
  cases b with
  | true => simpa using done
  | false => exact fun _ h => nomatch h.1

lemma congr (h : Frees U T P C D m) (hP : P = P') (hC : C ↔ C') (hD : D ↔ D') :
    Frees U T P' C' D' m := hP ▸ propext hC ▸ propext hD ▸ h

lemma seq (h : Frees U T P C D m) (h' : Frees U T P' C' D' m') :
    Frees U T (P + P') (C ∧ C') (D ∧ D') (do m; m') := by
  intro w
  have hfirst : (C ∧ C') ∧ (D ∧ D') ∧ w.Sound U T ∧ P + P' ≤ w.hand →
      C ∧ D ∧ w.Sound U T ∧ P ≤ w.hand := fun ⟨hC, hD, hs, hle⟩ =>
    ⟨hC.1, hD.1, hs, (le_add_right _ _).trans hle⟩
  rw [wp_seq]
  refine wp_imp (h w) (fun _ w1 ⟨h1, hC, hF⟩ => ?_) (fun _ _ => mt hfirst) fun _ _ => mt hfirst
  have hsecond : (C ∧ C') ∧ (D ∧ D') ∧ w.Sound U T ∧ P + P' ≤ w.hand →
      C' ∧ D' ∧ w1.Sound U T ∧ P' ≤ w1.hand := fun hr =>
    have hf := hF (hfirst hr).2
    ⟨hr.1.2, hr.2.1.2, hf.sound, hf.le hr.2.2.2⟩
  refine wp_imp (h' w1) (fun _ w2 ⟨h2, hC', hF'⟩ => ?_) (fun _ _ => mt hsecond)
    fun _ _ => mt hsecond
  refine ⟨h1.trans h2, ⟨hC, hC'⟩, fun hr => ?_⟩
  exact (hF (hfirst ⟨⟨hC, hC'⟩, hr⟩).2).trans (hF' (hsecond ⟨⟨hC, hC'⟩, hr⟩).2)

lemma loopFrom (h : ∀ i, Frees U T (f i) (c i) (d i) (body i)) : ∀ k i,
    Frees U T (∑ j ∈ range k, f (i + j)) (∀ j < k, c (i + j)) (∀ j < k, d (i + j)) (loop body i k)
  | 0, _ => done.congr rfl (by simp) (by simp)
  | k + 1, i => by
    refine ((h i).seq (loopFrom h k (i + 1))).congr ?_ ?_ ?_
    · rw [sum_range_succ', add_comm]
      simp only [add_zero, add_assoc, add_comm 1]
    all_goals
      simp only [Nat.forall_lt_succ_left, add_zero, add_assoc, add_comm 1]

lemma loop (h : ∀ i, Frees U T (f i) (c i) (d i) (body i)) (n : ℕ) :
    Frees U T (∑ i ∈ range n, f i) (∀ i < n, c i) (∀ i < n, d i) (loop body 0 n) := by
  simpa only [Nat.zero_add] using loopFrom h n 0

end Frees

lemma pageFree_puts (p : Ppn) (m : Memory) :
    wp (pageFree p) (fun _ m' => PutFree {p} m m') .any m := by
  simp only [pageFree, wp_rules, implies_true, and_true]
  refine ⟨fun hhw => ⟨fun _ => rfl, fun q => ?_⟩, fun hhw n hn _ => ⟨fun q => ?_, fun q => ?_⟩⟩
  · rw [count_singleton]
    split_ifs with hq hqp
    · rfl
    · rw [hqp] at hq
      exact absurd hhw hq
    · rfl
  · show ((m.setInfo p _).info q).piHwpage = _
    rw [setInfo_info]
    by_cases hqp : q = p
    · rw [hqp, update_self]
    · rw [update_of_ne hqp]
  · refine (freeCount_insertHead (m := m.setInfo p _) hn q).trans (congrArg _ ?_)
    rw [count_singleton]
    split_ifs with hqp hq
    · rw [hqp] at hq
      exact absurd hq hhw
    · rfl
    · rfl
    · rfl

lemma givePage_frees (p : Ppn) : Frees U T {p} True True (givePage p) := by
  intro w
  have hputs : wp (givePage p) (fun _ w' => PutFree {p} w.mem w'.mem) .any w := by
    simp only [givePage, onMem, drop, wp_rules, wp_zoom]
    exact wp_weaken (pageFree_puts p w.mem) fun _ _ => id
  by_cases hr : w.Sound U T ∧ {p} ≤ (w.hand : Multiset Ppn)
  · have hmem : p ∈ w.hand := mem_coe.mp (singleton_le.mp hr.2)
    refine wp_imp (wp_and hputs (givePage_spec hr.1 hmem)) (fun _ w' hw => ?_)
      (fun _ _ h => h.2.elim) fun _ _ h => h.2.elim
    refine ⟨hw.1, trivial, fun _ => ⟨hw.2.1.sound, ?_⟩⟩
    rw [hw.2.1.hand, ← Multiset.coe_erase, add_comm, singleton_add, cons_erase (mem_coe.mpr hmem)]
  · have hno : ∀ {X : Prop}, ¬ (X ∧ True ∧ w.Sound U T ∧ {p} ≤ (w.hand : Multiset Ppn)) :=
      fun h => hr h.2.2
    exact wp_imp hputs (fun _ w' hw => ⟨hw, trivial, fun h => absurd h.2 hr⟩) (fun _ _ _ => hno)
      fun _ _ _ => hno

lemma freeDataAsTable_frees (p : Ppn) :
    Frees U T {p} True False (onMem (freeDataAsTable p)) := by
  intro w
  have hputs : wp (onMem (freeDataAsTable p)) (fun _ w' => PutFree {p} w.mem w'.mem) .any w := by
    simp only [onMem, freeDataAsTable, pageZero, wp_zoom, wp_rules, wp_halt, implies_true, true_and]
    intro _
    exact wp_post (pageFree_puts p _) fun _ m' hm => ⟨hm.hwpage, hm.free⟩
  exact wp_imp hputs (fun _ w' hw => ⟨hw, trivial, fun h => h.1.elim⟩) (fun _ _ _ h => h.2.1)
    fun _ _ _ h => h.2.1

/-- The links an entry leads to are to trees that live. -/
def PmEnt.LinksLive (live : Kobj → Bool) : {l : ℕ} → PmEnt l → Prop
  | _, .link a _ => live a = true
  | _, .table _ ent => ∀ i < nptentries, (ent i).LinksLive live
  | _, .none => True
  | _, .map _ => True

instance PmEnt.LinksLive.decidable (live : Kobj → Bool) : {l : ℕ} → (e : PmEnt l) →
    Decidable (e.LinksLive live)
  | _, .link a _ => inferInstanceAs (Decidable (live a = true))
  | _, .table _ ent =>
    have := fun i => decidable live (ent i)
    inferInstanceAs (Decidable (∀ i < nptentries, (ent i).LinksLive live))
  | _, .none => isTrue trivial
  | _, .map _ => isTrue trivial

variable {live : Kobj → Bool}

lemma pageMapFreeEnt_frees (e : PmEnt l) :
    Frees U T e.pages (e.LinksLive live) True (pageMapFreeEnt live e) := by
  induction e with
  | none | map _ => exact .done
  | link a p => exact .guard (live a) .gone
  | table p ent ih =>
    refine ((Frees.loop ih nptentries).seq (givePage_frees p)).congr ?_ ?_ (by simp)
    · rw [PmEnt.pages, ← singleton_add, add_comm]
    · exact iff_of_eq (and_true _)

/-- The page of user data an entry of level 0 maps. -/
def PmEnt.data : PmEnt 0 → Multiset Ppn
  | .none => 0
  | .map e =>
    match e.src with
    | .page _ _ => {e.page}
    | .root _ => 0

/-- A root that is linked to from level 0 is one of a tree that lives. -/
def PmEnt.RootsLive (live : Kobj → Bool) : PmEnt 0 → Prop
  | .none => True
  | .map e =>
    match e.src with
    | .page _ _ => True
    | .root b => live b = true

lemma freeInnerEnt_frees (e : PmEnt 1) :
    Frees U T (e.pages + ∑ j ∈ range nptentries, (e.sub j).data)
      (∀ j < nptentries, (e.sub j).RootsLive live) (∀ j < nptentries, (e.sub j).data = 0)
      (freeInnerEnt live e) := by
  cases e with
  | none =>
    refine Frees.done.congr ?_ ?_ ?_ <;>
      simp [PmEnt.pages, PmEnt.sub, emptyTable, PmEnt.data, PmEnt.RootsLive]
  | table p ent =>
    refine ((Frees.loop (f := fun j => (ent j).data) (c := fun j => (ent j).RootsLive live)
      (d := fun j => (ent j).data = 0) (fun j => ?_) nptentries).seq (givePage_frees p)).congr ?_
      (iff_of_eq (and_true _)) (iff_of_eq (and_true _))
    · cases ent j with
      | none => exact Frees.done.congr rfl Iff.rfl (by simp [PmEnt.data])
      | map e =>
        dsimp only
        rw [PmEnt.data, PmEnt.RootsLive]
        cases e.src with
        | page sg n => exact (freeDataAsTable_frees e.page).congr rfl Iff.rfl (by simp)
        | root b => exact (Frees.guard (live b) .gone).congr rfl Iff.rfl (by simp)
    · rw [pages_table, pages_leaves, cons_zero, add_comm]
      rfl

/-- What `page_map_free` puts on the free lists if it ends. -/
def Pagemap.freed (pm : Pagemap) : Multiset Ppn :=
  pm.page ::ₘ if pm.int then ∑ i ∈ Finset.range (nptentries / 2),
      ((pm.inner i).pages + ∑ j ∈ Finset.range nptentries, ((pm.inner i).sub j).data)
    else ∑ i ∈ Finset.range (nptentries / 2), (pm.root i).pages

structure Pagemap.Linked (live : Kobj → Bool) (pm : Pagemap) : Prop where
  root : pm.int = false → ∀ i < nptentries / 2, (pm.root i).LinksLive live
  inner : pm.int = true → ∀ i < nptentries / 2, ∀ j < nptentries,
    ((pm.inner i).sub j).RootsLive live

lemma pageMapFree_frees (a : Kobj) (pm : Pagemap) :
    Frees U T pm.freed (pm.Linked (others live a))
    (pm.int = true → ∀ i < nptentries / 2, ∀ j < nptentries, ((pm.inner i).sub j).data = 0)
    (pageMapFree live a pm) := by
  unfold pageMapFree freeTables Pagemap.freed
  rw [← singleton_add, add_comm]
  cases hint : pm.int with
  | true =>
    refine ((Frees.loop (fun i => freeInnerEnt_frees (pm.inner i)) _).seq
      (givePage_frees pm.page)).congr rfl ?_ (by simp)
    exact ⟨fun h => ⟨by simp [hint], fun _ => h.1⟩, fun h => ⟨h.inner hint, trivial⟩⟩
  | false =>
    refine ((Frees.loop (fun i => pageMapFreeEnt_frees (pm.root i)) _).seq
      (givePage_frees pm.page)).congr rfl ?_ (by simp)
    exact ⟨fun h => ⟨fun _ => h.1, by simp [hint]⟩, fun h => ⟨h.root hint, trivial⟩⟩

/-- What `page_map_free` of the tree `a` needs to do what it is for. -/
structure Pagemap.Freeable (live : Kobj → Bool) (a : Kobj) (pm : Pagemap) : Prop where
  linked : pm.Linked (others live a)
  data : pm.int = true → ∀ i < nptentries / 2, ∀ j < nptentries, ((pm.inner i).sub j).data = 0
  upper : pm.int = true → ∀ i < nptentries, nptentries / 2 ≤ i → pm.inner i = .none

lemma sum_lower (h : ∀ i < nptentries, nptentries / 2 ≤ i → f i = 0) :
    ∑ i ∈ Finset.range (nptentries / 2), f i = ∑ i ∈ Finset.range nptentries, f i :=
  Finset.sum_subset (Finset.range_subset_range.mpr half_le) fun i hi hno =>
    h i (Finset.mem_range.mp hi) (by simpa using hno)

variable {pm : Pagemap} {a : Kobj}

lemma freed_eq (hlow : pm.Low) (h : pm.Freeable live a) : pm.freed = pm.pages := by
  rw [Pagemap.freed, Pagemap.pages]
  cases hint : pm.int with
  | true =>
    rw [if_pos rfl, if_pos rfl, pages,
      ← sum_lower fun i hi hup => by rw [h.upper hint i hi hup]; rfl]
    refine congrArg _ (Finset.sum_congr rfl fun i hi => ?_)
    rw [Finset.sum_eq_zero fun j hj => h.data hint i (Finset.mem_range.mp hi) j
      (Finset.mem_range.mp hj), add_zero]
  | false =>
    rw [if_neg nofun, if_neg nofun, pages,
      ← sum_lower fun i _ hup => by rw [hlow hint i (by rwa [half_eq] at hup)]; rfl]

/-- `page_map_free` ends, and of all pages it puts those on the free lists that were taken for the
pagemap. -/
def FreesExactly (live : Kobj → Bool) (a : Kobj) (pm : Pagemap) (pages : Multiset Ppn)
    (w : Forest TreeId) : Prop :=
  ∃ w', pageMapFree live a pm w = (.ok (), w') ∧
    ∀ p, w'.mem.freeCount p = w.mem.freeCount p + pages.count p

/-- Pages of user data that would be taken for tables. -/
def Pagemap.Exposed (pm : Pagemap) (p : Ppn) : Prop :=
  pm.int = true ∧ ∃ i < nptentries / 2, ∃ j < nptentries, p ∈ ((pm.inner i).sub j).data

lemma hwpage_of_held (h : w.Sound U T) (hp : p ∈ w.hand) : (w.mem.info p).piHwpage = false := by
  have hused : 0 < w.ledger T (.held p) := by
    rw [ledger_held]
    exact List.count_pos_iff.mpr hp
  exact (h.balanced.page p).hwpage (h.balanced.mem_of_used (.inr (.inr hused)))

lemma not_held_of_entry (h : w.Sound U T) (hp : 0 < w.entries T p) :
    p ∉ w.hand ∧ (w.mem.info p).piHwpage = false := by
  rw [← ledger_ent] at hp
  have hU := h.balanced.mem_of_used (.inl hp)
  have honce := (h.balanced.page p).once
  rw [if_pos hU, ledger_held, Memory.refs] at honce
  refine ⟨fun hmem => ?_, (h.balanced.page p).hwpage hU⟩
  have hcount := List.count_pos_iff.mpr hmem
  omega

lemma freesExactly_of_freeable (h : w.Sound U T) (hle : pm.pages ≤ w.hand)
    (hlow : pm.Low) (hfree : pm.Freeable live a) : FreesExactly live a pm pm.pages w := by
  have heq := freed_eq hlow hfree
  have hready := And.intro hfree.linked (And.intro hfree.data (And.intro h (heq.trans_le hle)))
  obtain ⟨_, w', hrun, -⟩ := ok_of_never (wp_imp (pageMapFree_frees a pm w) (fun _ _ hw => hw)
    (fun _ _ hno => hno hready) fun _ _ hno => hno hready)
  refine ⟨w', hrun, fun p => ?_⟩
  rw [(wp_ok (pageMapFree_frees (U := U) (T := T) a pm w) hrun).1.free p, heq]
  split_ifs with hhw
  · have hno : p ∉ pm.pages := fun hp => by
      rw [hwpage_of_held h (mem_coe.mp (mem_of_le hle hp))] at hhw
      exact absurd hhw (by decide)
    rw [count_eq_zero_of_notMem hno]
  · rfl

lemma freeable_of_freesExactly (h : w.Sound U T) (hle : pm.pages ≤ w.hand)
    (hdata : ∀ p, pm.Exposed p → 0 < w.entries T p) (hfrees : FreesExactly live a pm pm.pages w) :
    pm.Freeable live a := by
  obtain ⟨w', hrun, hexact⟩ := hfrees
  obtain ⟨hcount, hlinked, -⟩ := wp_ok (pageMapFree_frees (U := U) (T := T) a pm w) hrun
  have hsame : ∀ p, (w.mem.info p).piHwpage = false → pm.freed.count p = pm.pages.count p := by
    intro p hp
    have hfree := hcount.free p
    rw [hp, if_neg nofun, hexact p] at hfree
    omega
  have hnone : pm.int = true → ∀ i < nptentries / 2, ∀ j < nptentries,
      ((pm.inner i).sub j).data = 0 := by
    -- a page of user data is freed, but it was not taken for the pagemap
    intro hint i hi j hj
    refine Multiset.eq_zero_of_forall_notMem fun p hp => ?_
    obtain ⟨hheld, hhw⟩ := not_held_of_entry h (hdata p ⟨hint, i, hi, j, hj, hp⟩)
    have hzero : pm.pages.count p = 0 := Multiset.count_eq_zero_of_notMem fun hmem =>
      hheld (Multiset.mem_coe.mp (Multiset.mem_of_le hle hmem))
    refine absurd (hsame p hhw) ?_
    rw [hzero, Multiset.count_eq_zero, not_not, Pagemap.freed, hint, if_pos rfl]
    refine Multiset.mem_cons_of_mem (Multiset.mem_sum.mpr ⟨i, Finset.mem_range.mpr hi, ?_⟩)
    exact Multiset.mem_add.mpr (.inr (Multiset.mem_sum.mpr ⟨j, Finset.mem_range.mpr hj, hp⟩))
  refine ⟨hlinked, hnone, fun hint i hi hup => ?_⟩
  cases hent : pm.inner i with
  | none => rfl
  | table p ent =>
    -- the page of a table in the upper half is not freed, but it was taken for the pagemap
    have hp : p ∈ (pm.inner i).pages := by
      rw [hent, pages_table]
      exact Multiset.mem_cons_self _ _
    have hsum : (pm.inner i).pages + ∑ j ∈ Finset.range (nptentries / 2), (pm.inner j).pages ≤
        ∑ j ∈ Finset.range nptentries, (pm.inner j).pages := by
      have hnot : i ∉ Finset.range (nptentries / 2) := by simpa using hup
      rw [← Finset.sum_insert (f := fun j => (pm.inner j).pages) hnot]
      refine Finset.sum_le_sum_of_subset (Finset.insert_subset (Finset.mem_range.mpr hi) ?_)
      exact Finset.range_subset_range.mpr half_le
    have hmem : p ∈ pm.pages := by
      rw [Pagemap.pages, hint, if_pos rfl]
      exact Multiset.mem_cons_of_mem (Multiset.mem_sum.mpr ⟨i, Finset.mem_range.mpr hi, hp⟩)
    have hhw := hwpage_of_held h (Multiset.mem_coe.mp (Multiset.mem_of_le hle hmem))
    have heq := hsame p hhw
    have hfreed : pm.freed = pm.page ::ₘ ∑ j ∈ Finset.range (nptentries / 2),
        (pm.inner j).pages := by
      rw [Pagemap.freed, hint, if_pos rfl]
      refine congrArg _ (Finset.sum_congr rfl fun k hk => ?_)
      rw [Finset.sum_eq_zero fun j hj => hnone hint k (Finset.mem_range.mp hk) j
        (Finset.mem_range.mp hj), add_zero]
    rw [hfreed, Pagemap.pages, hint, if_pos rfl, Multiset.count_cons, Multiset.count_cons,
      PmTable.pages] at heq
    have hcle := Multiset.count_le_of_le p hsum
    rw [Multiset.count_add] at hcle
    have hpos := Multiset.count_pos.mpr hp
    omega

/-- **What freeing a pagemap frees**, after every history of the pagemap. If the links lead to other
trees, which live, and if an interior pagemap maps nothing in its lower half and has no tables in
its upper half, then exactly the pages are freed that were taken for the pagemap. If one of these
things is missing then other pages are freed, or some are not, or the kernel gets lost; this is
where the pages that are mapped do hold user data. -/
theorem page_map_free_exact {x : Filling} {a : Kobj} {pm : Pagemap}
    (h : (filling U T a).Reach (Apart U T a) x) (hpm : (x.1.obj a).tree.atPgmap = some pm) :
    (pm.Freeable live a → FreesExactly live a pm x.2 x.1.forest) ∧
    ((∀ p, pm.Exposed p → 0 < x.1.forest.entries T p) →
      FreesExactly live a pm x.2 x.1.forest → pm.Freeable live a) := by
  obtain ⟨⟨pm', hpm', hpages, hlow⟩, hsound, hheld⟩ := tracked_of_reach h
  cases hpm.symm.trans hpm'
  rw [hpages] at hheld ⊢
  exact ⟨freesExactly_of_freeable hsound hheld hlow, freeable_of_freesExactly hsound hheld⟩

/-- A machine of eight pages with an address tree that has no pagemap yet. -/
def oneTree : Machine :=
  { bareMachine 8 1 1 with obj := fun _ => { live := true, koType := .addressTree } }

/-- The tree gets a root, which maps a page. -/
def rootRun : Option Filling := do
  let r ← (newPagemap 0 0 0).result oneTree
  let x ← own (pgdirWalkIn 0 0x1000 0) (r.2, (r.2.forest.hand : Multiset Ppn) - oneTree.forest.hand)
  own (modTree 0 fun t => { t with
    atPgmap := t.atPgmap.map (·.setLeaf 0x1000 (pteOf 7 6 (.page 1 0))) }) x

/-- What is to be seen of the root. -/
def rootCheck (x : Filling) : Bool :=
  match (x.1.obj 0).tree.atPgmap with
  | none => false
  | some pm => decide (x.2.card = 4 ∧ pm.int = false ∧
      ∀ i < nptentries / 2, (pm.root i).LinksLive (others (fun _ => false) 0))

theorem page_map_free_exact_root :
    ∃ x pm, (filling (Finset.range 8) ∅ 0).Reach (Apart (Finset.range 8) ∅ 0) x ∧
      (x.1.obj 0).tree.atPgmap = some pm ∧ x.2.card = 4 ∧
      FreesExactly (fun _ => false) 0 pm x.2 x.1.forest := by
  have hrun : rootRun.map rootCheck = some true := by decide +kernel
  obtain ⟨x, hx, hcheck⟩ := Option.map_eq_some_iff.mp hrun
  simp only [rootRun, Option.bind_eq_bind, Option.bind_eq_some_iff] at hx
  obtain ⟨⟨_, s1⟩, hnew, x2, hwalk, hleaf⟩ := hx
  have hsound : oneTree.forest.Sound (range 8) ∅ :=
    Forest.Sound.init ⟨bootMemory_boot 8, rfl, fun _ h => absurd h (notMem_empty _)⟩
  have hreach : (filling (range 8) ∅ 0).Reach (Apart (range 8) ∅ 0) x := by
    refine .next (a := .leaf 0x1000 (pteOf 7 6 (.page 1 0))) (.next (a := .walk 0x1000 0)
      (.start ?_) trivial hwalk) trivial hleaf
    exact ⟨oneTree, 0, 0, hsound, result_eq_some.mp hnew, rfl⟩
  rw [rootCheck] at hcheck
  cases hpm : (x.1.obj 0).tree.atPgmap with
  | none => simp [hpm] at hcheck
  | some pm =>
    rw [hpm] at hcheck
    obtain ⟨hcard, hint, hlinks⟩ := of_decide_eq_true hcheck
    refine ⟨x, pm, hreach, hpm, hcard, (page_map_free_exact hreach hpm).1 ?_⟩
    exact ⟨⟨fun _ => hlinks, fun h => by simp [hint] at h⟩, fun h => by simp [hint] at h,
      fun h => by simp [hint] at h⟩

/-- An interior tree that has been mapped and has got a page loses its last reference. -/
def dyingRun : List Event :=
  innerRun [pageSlot 0 0x1000] 0x40000000 ++
  [⟨0, .fault 2 0x40001000 6⟩, ⟨0, .syscall (.atSetSlot ⟨1, 3⟩ (pageSlot 1 0x1000))⟩,
    ⟨0, .fault 1 0x1000 6⟩] ++ List.replicate 5 ⟨0, .gc⟩ ++
  [⟨0, .syscall (.shareUnref 1 5)⟩] ++ List.replicate 8 ⟨0, .scan⟩

/-- What the collection of the tree does to page 15. -/
def dyingCheck (s : Machine) : Bool :=
  match kernel.step ⟨0, .gc⟩ s with
  | none => false
  | some s' => decide ((s.obj 4).live = true ∧ s.forest.mem.freeCount 15 = 0 ∧
      (s'.obj 4).live = false ∧ (s'.obj 3).live = true ∧
      ((s'.forest.tree (sgPages 3)).get (.direct 0)).page = some 15 ∧
      s'.forest.mem.freeCount 15 = 1)

/-- The collection of the tree frees a page that a segment holds. -/
theorem page_map_free_frees_data :
    ∃ s s' p, kernel.Reachable s ∧ kernel.step ⟨0, .gc⟩ s = some s' ∧ (s.obj 4).live = true ∧
      s.forest.mem.freeCount p = 0 ∧ (s'.obj 4).live = false ∧ (s'.obj 3).live = true ∧
      ((s'.forest.tree (sgPages 3)).get (.direct 0)).page = some p ∧
      s'.forest.mem.freeCount p = 1 := by
  obtain ⟨s, hs, hx⟩ := reachable_of_bootRun 60 1 dyingRun (P := (dyingCheck · = true))
    (by decide +kernel)
  rw [dyingCheck] at hx
  cases hgc : kernel.step ⟨0, .gc⟩ s with
  | none => simp [hgc] at hx
  | some s' =>
    rw [hgc] at hx
    exact ⟨s, s', 15, hs, hgc, of_decide_eq_true hx⟩

end Corey.Kern
