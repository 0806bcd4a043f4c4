import Corey.Mem.Places

/-!
What happens to the counts of a page, whatever the state of the memory.

Only a page that is put into a tree, or taken out of it, gets another number of references. The
pages allocated for blocks do not count, and nothing here changes a pin.
-/

namespace Corey.Mem

open Function Corey.Comp Memory Pagetree

variable {m m' m'' : Memory} {p q x : Ppn} {e : PagetreeEntry} {pt : Pagetree} {k pid : ℕ}
  {mode : PageSharingMode} {demand : Bool} {old : Option Ppn}

/-- No count has changed, and no page has become free. -/
structure Memory.SameCounts (m m' : Memory) : Prop where
  memnode : m'.memnode = m.memnode
  nodeid : m'.nodeid = m.nodeid
  ref : ∀ x, (m'.info x).piRef = (m.info x).piRef
  pins : ∀ x, (m'.info x).piHwRef = (m.info x).piHwRef
  free : ∀ x, (m'.info x).piFreepage = true → (m.info x).piFreepage = true

/-- Nor has a page changed that was in use. -/
structure Memory.Drawn (m m' : Memory) : Prop extends m.SameCounts m' where
  kept : ∀ x, (m.info x).piFreepage = false → m'.info x = m.info x

namespace Memory.Drawn

lemma of_info (hmem : m'.memnode = m.memnode) (hid : m'.nodeid = m.nodeid)
    (h : m'.info = m.info) : m.Drawn m' := by
  refine ⟨⟨hmem, hid, fun x => ?_, fun x => ?_, fun x => ?_⟩, fun x _ => ?_⟩ <;> rw [h]
  exact id

lemma refl (m : Memory) : m.Drawn m := of_info rfl rfl rfl

lemma still (h : m.Drawn m') (hx : (m.info x).piFreepage = false) :
    (m'.info x).piFreepage = false := by
  rw [h.kept x hx]
  exact hx

lemma trans (h : m.Drawn m') (h' : m'.Drawn m'') : m.Drawn m'' :=
  ⟨⟨h'.memnode.trans h.memnode, h'.nodeid.trans h.nodeid, fun x => (h'.ref x).trans (h.ref x),
    fun x => (h'.pins x).trans (h.pins x), fun x hx => h.free x (h'.free x hx)⟩,
    fun x hx => (h'.kept x (h.still hx)).trans (h.kept x hx)⟩

end Memory.Drawn

/-- The counts of one page are new, and all other pages are as they were. -/
structure Memory.Recounted (p : Ppn) (ref pins : ℕ) (m m' : Memory) : Prop where
  memnode : m'.memnode = m.memnode
  nodeid : m'.nodeid = m.nodeid
  ref : (m'.info p).piRef = ref
  pins : (m'.info p).piHwRef = pins
  other : ∀ x ≠ p, m'.info x = m.info x

lemma pageFree_recounted (m : Memory) (p : Ppn) :
    wp (pageFree p) (fun _ m' => Recounted p (m.info p).piRef (m.info p).piHwRef m m')
      .mayStop m := by
  simp only [pageFree, wp_rules]
  refine ⟨fun _ => ⟨rfl, rfl, rfl, rfl, fun _ _ => rfl⟩, fun _ => ⟨fun _ _ => ⟨fun _ => ?_,
    fun _ => trivial⟩, fun _ => trivial⟩⟩
  refine ⟨rfl, rfl, ?_, ?_, fun x hx => update_of_ne hx _ _⟩
  · simp only [insertHead, setInfo_info, update_self]
  · simp only [insertHead, setInfo_info, update_self]

lemma Memory.Recounted.setInfo {i : PageInfo} {r w : ℕ} (hr : i.piRef = r) (hw : i.piHwRef = w) :
    Recounted p r w m (m.setInfo p i) :=
  ⟨rfl, rfl, by simp [hr], by simp [hw], fun x hx => by simp [hx]⟩

lemma Memory.Recounted.of_setInfo {i : PageInfo} {r w : ℕ} (h : Recounted p r w (m.setInfo p i) m') :
    Recounted p r w m m' :=
  ⟨h.memnode, h.nodeid, h.ref, h.pins, fun x hx => (h.other x hx).trans (update_of_ne hx _ _)⟩

lemma pagetreeDecref_recounted (m : Memory) (p : Ppn) :
    wp (pagetreeDecref p) (fun _ m' =>
        Recounted p (atomicDec (m.info p).piRef) (m.info p).piHwRef m m' ∧
          (atomicDec (m.info p).piRef ≠ 0 → (m'.info p).piFreepage = (m.info p).piFreepage))
      .mayStop m := by
  simp only [pagetreeDecref, wp_rules, setInfo_info, update_self]
  refine ⟨fun hzero => ⟨fun _ => ?_, fun _ => trivial⟩, fun _ => ⟨.setInfo rfl rfl, fun _ => trivial⟩⟩
  refine wp_post (pageFree_recounted _ p) fun _ m' hm => ⟨?_, fun hpos => absurd hzero hpos⟩
  simpa only [setInfo_info, update_self] using hm.of_setInfo

lemma pagetreeIncrefHw_recounted (m : Memory) (p : Ppn) :
    wp (pagetreeIncrefHw p) (fun _ m' => (m.info p).piRef ≠ 0 ∧
        Recounted p (atomicInc (m.info p).piRef) (atomicInc (m.info p).piHwRef) m m' ∧
          m.Alike m' ∧ (m'.info p).piFreepage = (m.info p).piFreepage)
      .mayStop m := by
  simp only [pagetreeIncrefHw, pagetreeIncref, wp_rules]
  refine ⟨fun hpos => ⟨fun _ => ⟨hpos, ?_, ⟨rfl, rfl, rfl, rfl, rfl, rfl⟩, ?_⟩, fun _ => trivial⟩,
    fun _ => trivial⟩ <;> simp only [setInfo_info, update_self]
  exact .of_setInfo (.setInfo rfl rfl)

lemma pagetreeDecrefHw_recounted (m : Memory) (p : Ppn) :
    wp (pagetreeDecrefHw p) (fun _ m' =>
        Recounted p (atomicDec (m.info p).piRef) (atomicDec (m.info p).piHwRef) m m' ∧
          (atomicDec (m.info p).piRef ≠ 0 → (m'.info p).piFreepage = (m.info p).piFreepage))
      .mayStop m := by
  simp only [pagetreeDecrefHw, wp_rules]
  refine ⟨fun _ => ⟨fun _ => ?_, fun _ => trivial⟩, fun _ => trivial⟩
  refine wp_post (pagetreeDecref_recounted _ p) fun _ m' hm => ⟨?_, ?_⟩
  · simpa only [setInfo_info, update_self] using hm.1.of_setInfo
  · simpa only [setInfo_info, update_self] using hm.2

/-! ### Walks -/

lemma pageAlloc_drawn (pid : ℕ) (m : Memory) :
    wp (pageAlloc pid) (fun p m' => m.Drawn m' ∧ (m.info p).piFreepage = true ∧
        (m'.info p).piFreepage = false)
      (.both m.Drawn) m := by
  simp only [pageAlloc, pageAllocFail, wp_rules]
  refine ⟨fun _ => .of_info rfl rfl rfl, fun _ => ?_⟩
  rcases pickNode m _ with _ | _ | node
  · trivial
  · exact Memory.Drawn.of_info rfl rfl rfl
  · simp only [wp_rules, removeHead_info]
    refine ⟨fun p _ => ⟨fun hfree => ⟨⟨⟨rfl, rfl, fun x => ?_, fun x => ?_, fun x hx => ?_⟩,
        fun x hx => ?_⟩, hfree, ?_⟩,
      fun _ => trivial⟩, fun _ => trivial⟩
    · simp only [setInfo_info, removeHead_info, update_apply]
      split_ifs with h
      · rw [h]
      · rfl
    · simp only [setInfo_info, removeHead_info, update_apply]
      split_ifs with h
      · rw [h]
      · rfl
    · simp only [setInfo_info, removeHead_info, update_apply] at hx
      split_ifs at hx with h
      exact hx
    · have hne : x ≠ p := by
        rintro rfl
        exact Bool.false_ne_true (hx.symm.trans hfree)
      rw [setInfo_info, update_of_ne hne]
      rfl
    · simp only [setInfo_info, update_self]

lemma ensureBlock_drawn {l : ℕ} (s : Slot (l + 1)) (m : Memory) :
    wp (ensureBlock pid) (fun _ t => (∃ p f, t.1 = .block p f) ∧ s.Same t.1 ∧ m.Drawn t.2)
      (.both fun t => s.Same t.1 ∧ m.Drawn t.2) (s, m) := by
  simp only [ensureBlock, wp_rules, wp_shared, pageZero]
  cases s with
  | block p f => exact ⟨by rintro ⟨⟩, fun _ => ⟨⟨p, f, rfl⟩, .refl _, .refl m⟩⟩
  | null =>
    refine ⟨fun _ => wp_mono (pageAlloc_drawn pid m) (fun p m1 h1 => ?_) (fun _ m1 h1 => ?_),
      fun hno => (hno rfl).elim⟩
    · exact ⟨⟨p, _, rfl⟩, Slot.same_zeroBlock l p, h1.1.trans (.of_info rfl rfl rfl)⟩
    · exact ⟨.refl _, h1⟩

lemma pagetreeGetEntpIndirect_drawn (pid : ℕ) : ∀ (l n : ℕ) (s : Slot l) (m : Memory),
    n < span l →
    wp (pagetreeGetEntpIndirect pid l n) (fun _ t => s.Same t.1 ∧ m.Drawn t.2 ∧ t.1.Reached n)
      (.both fun t => s.Same t.1 ∧ m.Drawn t.2) (s, m)
  | 0, _, .ent _, m, _ => ⟨.refl _, .refl m, trivial⟩
  | l + 1, n, s, m, hn => by
    have hi := index_lt hn
    simp only [pagetreeGetEntpIndirect, wp_rules, wp_focus]
    refine wp_post (ensureBlock_drawn s m) fun _ t ht => ?_
    obtain ⟨s1, m1⟩ := t
    obtain ⟨⟨p, f, rfl⟩, hsame, hcounts⟩ := ht
    have ih := pagetreeGetEntpIndirect_drawn pid l (n % span l) (f (n / span l)) m1
      (Nat.mod_lt _ (span_pos l))
    refine ⟨fun _ => ?_, fun _ => trivial⟩
    refine wp_mono ih (fun _ t ht => ⟨hsame.trans (ht.1.below hi), hcounts.trans ht.2.1, ?_⟩)
      fun _ t ht => ⟨hsame.trans (ht.1.below hi), hcounts.trans ht.2⟩
    show Slot.Reached (update f (n / span l) t.1 (n / span l)) _
    rw [update_self]
    exact ht.2.2

lemma pagetreeGetEntp_drawn (pt : Pagetree) (m : Memory) (k : ℕ) :
    wp (pagetreeGetEntp k)
      (fun y t => locate k = some y ∧ pt.Same t.1 ∧ m.Drawn t.2 ∧ t.1.Reached y)
      (.both fun t => pt.Same t.1 ∧ m.Drawn t.2) (pt, m) := by
  rw [pagetreeGetEntp]
  rcases hloc : locate k with _ | ⟨i⟩ | ⟨i, n⟩
  · exact ⟨.refl _, .refl m⟩
  · exact ⟨rfl, .refl _, .refl m, trivial⟩
  · have hvalid := locate_valid hloc
    simp only [wp_rules, wp_focus]
    refine wp_mono (pagetreeGetEntpIndirect_drawn pt.pid (i + 1) n (pt.ptIndir i) m hvalid.2)
      (fun _ t ht => ⟨trivial, ht.1.indirAt hvalid.1, ht.2.1, ?_⟩)
      fun _ t ht => ⟨ht.1.indirAt hvalid.1, ht.2⟩
    show Slot.Reached (update pt.ptIndir i t.1 i) n
    rw [update_self]
    exact ht.2.2

/-! ### Pages of a tree -/

def Pagetree.ent (pt : Pagetree) (k : ℕ) : PagetreeEntry :=
  match locate k with
  | some y => pt.get y
  | none => {}

lemma Pagetree.ent_of_locate {y : EntPtr} (h : locate k = some y) : pt.ent k = pt.get y := by
  rw [ent, h]

lemma Pagetree.page_eq (pt : Pagetree) (k : ℕ) : pt.page k = (pt.ent k).page := by
  rw [page, ent]
  cases locate k <;> rfl

/-- A page that was free has taken the place of the page of an entry. -/
structure Fresh (q : Ppn) (old : Option Ppn) (m m' : Memory) : Prop where
  was : (m.info q).piFreepage = true
  now : (m'.info q).piFreepage = false
  ref : (m'.info q).piRef = atomicInc (m.info q).piRef
  pins : ∀ x, (m'.info x).piHwRef = (m.info x).piHwRef
  other : ∀ x, x ≠ q → old ≠ some x → (m'.info x).piRef = (m.info x).piRef ∧
    ((m'.info x).piFreepage = true → (m.info x).piFreepage = true)

lemma Fresh.of_sameCounts (h : m.SameCounts m') (h' : Fresh q old m' m'') : Fresh q old m m'' where
  was := h.free q h'.was
  now := h'.now
  ref := by rw [h'.ref, h.ref]
  pins x := (h'.pins x).trans (h.pins x)
  other x hq hold :=
    ⟨(h'.other x hq hold).1.trans (h.ref x), fun hx => h.free x ((h'.other x hq hold).2 hx)⟩

lemma fresh_incref (h : m.SameCounts m') (hwas : (m.info q).piFreepage = true)
    (hnow : (m'.info q).piFreepage = false) :
    Fresh q old m (m'.setInfo q { m'.info q with piRef := atomicInc (m'.info q).piRef }) where
  was := hwas
  now := by simpa only [setInfo_info, update_self] using hnow
  ref := by simp only [setInfo_info, update_self, h.ref]
  pins x := by
    rw [setInfo_info, update_apply]
    split_ifs with hx
    · rw [hx]
      exact h.pins q
    · exact h.pins x
  other x hx _ := by
    rw [setInfo_info, update_of_ne hx]
    exact ⟨h.ref x, h.free x⟩

/-- A page that was free is in the place of another one, which need not have been in use. -/
structure Taken (q : Ppn) (old : Option Ppn) (m m' : Memory) : Prop where
  was : (m.info q).piFreepage = true
  pins : ∀ x, (m'.info x).piHwRef = (m.info x).piHwRef
  kept : ∀ x, (m.info x).piFreepage = false → old ≠ some x → m'.info x = m.info x
  fresh : (∀ x, old = some x → (m.info x).piFreepage = false) → Fresh q old m m'

lemma Taken.of_drawn (h : m.Drawn m') (h' : Taken q old m' m'') : Taken q old m m'' where
  was := h.free q h'.was
  pins x := (h'.pins x).trans (h.pins x)
  kept x hx hold := (h'.kept x (h.still hx) hold).trans (h.kept x hx)
  fresh hold := (h'.fresh fun x hx => h.still (hold x hx)).of_sameCounts h.toSameCounts

lemma ne_of_free (hq : (m.info q).piFreepage = true) (hx : (m.info x).piFreepage = false) :
    x ≠ q := by
  rintro rfl
  exact Bool.false_ne_true (hx.symm.trans hq)

lemma taken_incref (h : m.Drawn m') (hwas : (m.info q).piFreepage = true)
    (hnow : (m'.info q).piFreepage = false) :
    Taken q old m (m'.setInfo q { m'.info q with piRef := atomicInc (m'.info q).piRef }) :=
  have hfresh := fresh_incref h.toSameCounts hwas hnow
  ⟨hwas, hfresh.pins, fun x hx _ => by
    rw [setInfo_info, update_of_ne (ne_of_free hwas hx), h.kept x hx], fun _ => hfresh⟩

lemma pagetreeCopyPage_taken (pid : ℕ) (e : PagetreeEntry) (m : Memory) :
    wp (pagetreeCopyPage pid) (fun _ t => ∃ q, t.1 = ⟨some q, pageExcl⟩ ∧ Taken q e.page m t.2)
      (.both fun t => t.1 = e ∧ m.Drawn t.2) (e, m) := by
  simp only [pagetreeCopyPage, wp_rules, wp_shared]
  refine wp_mono (pageAlloc_drawn pid m) (fun q m1 h1 => ⟨fun old he => ?_, fun _ => trivial⟩)
    fun _ m1 h1 => ⟨rfl, h1⟩
  obtain ⟨hdrawn, hwas, hnow⟩ := h1
  simp only [memcpy, setClear, pagetreeIncref, wp_change, setInfo_info, setBytes_info,
    setInfo_setInfo, update_self]
  set m2 := (m1.setBytes q (m1.bytes old)).setInfo q
    { piRef := atomicInc (m1.info q).piRef, piFreepage := (m1.info q).piFreepage,
      piHwpage := (m1.info q).piHwpage, piClear := true, piHwRef := (m1.info q).piHwRef } with hm2
  have hinfo : m2.info q = { m1.info q with
      piRef := atomicInc (m1.info q).piRef, piClear := true } := by
    rw [hm2, setInfo_info, update_self]
  have hrest : ∀ x ≠ q, m2.info x = m1.info x := fun x hx => by
    rw [hm2, setInfo_info, update_of_ne hx, setBytes_info]
  have hpins : ∀ x, (m2.info x).piHwRef = (m.info x).piHwRef := fun x => by
    rw [← hdrawn.pins x]
    by_cases hx : x = q
    · rw [hx, hinfo]
    · rw [hrest x hx]
  refine wp_mono (pagetreeDecref_recounted m2 old) (fun _ m3 h3 => ⟨q, rfl, ?_⟩)
    fun _ _ => False.elim
  obtain ⟨hdec, -⟩ := h3
  have hother : ∀ x, x ≠ q → e.page ≠ some x → m3.info x = m1.info x := fun x hx hxold => by
    rw [hdec.other x fun h => hxold (h ▸ he), hrest x hx]
  have hpins3 : ∀ x, (m3.info x).piHwRef = (m.info x).piHwRef := fun x => by
    by_cases hx : x = old
    · rw [hx, hdec.pins, hpins]
    · rw [hdec.other x hx, hpins]
  refine ⟨hwas, hpins3, fun x hx hxold => ?_,
    fun hold => ⟨hwas, ?_, ?_, hpins3, fun x hx hxold => ?_⟩⟩
  · rw [hother x (ne_of_free hwas hx) hxold, hdrawn.kept x hx]
  · rw [hdec.other q (ne_of_free hwas (hold old he)).symm, hinfo]
    exact hnow
  · rw [hdec.other q (ne_of_free hwas (hold old he)).symm, hinfo, ← hdrawn.ref q]
  · rw [hother x hx hxold]
    exact ⟨hdrawn.ref x, hdrawn.free x⟩

lemma pagetreeGetEnt_taken (pid : ℕ) (demand : Bool) (mode : PageSharingMode) (e : PagetreeEntry)
    (m : Memory) :
    wp (pagetreeGetEnt pid demand mode) (fun r t => (t = (e, m) ∧ r = e.page ∧ ¬ NeedsCopy e mode) ∨
        ((e.page = none ∨ NeedsCopy e mode) ∧
          ∃ q, r = some q ∧ t.1.page = some q ∧ Taken q e.page m t.2))
      (.both fun t => t.1 = e ∧ m.Drawn t.2) (e, m) := by
  have hbreak : wp (breakSharing pid mode) (fun _ t => (t = (e, m) ∧ ¬ NeedsCopy e mode) ∨
        (NeedsCopy e mode ∧ ∃ q, t.1 = ⟨some q, pageExcl⟩ ∧ Taken q e.page m t.2))
      (.both fun t => t.1 = e ∧ m.Drawn t.2) (e, m) :=
    wp_breakSharing (fun hneed => wp_post (pagetreeCopyPage_taken pid e m) fun _ t ht =>
      .inr ⟨hneed, ht⟩) (fun hno => .inl ⟨rfl, hno⟩) fun _ _ => trivial
  simp only [pagetreeGetEnt, wp_bind]
  refine wp_post hbreak fun _ t ht => ?_
  simp only [demandPage, wp_rules]
  rcases ht with ⟨rfl, hno⟩ | ⟨hneed, q, hq, htaken⟩
  · refine ⟨fun hd => ?_, fun _ => .inl ⟨rfl, rfl, hno⟩⟩
    simp only [wp_attempt, wp_shared]
    refine wp_mono (pageAlloc_drawn pid m) (fun q m1 h1 => ?_) fun _ _ _ => trivial
    obtain ⟨hcounts, hwas, hnow⟩ := h1
    simp only [wp_rules, wp_shared, pagetreeIncref]
    exact .inr ⟨.inl hd.1, q, rfl, rfl, taken_incref hcounts hwas hnow⟩
  · refine ⟨fun hd => ?_, fun _ => .inr ⟨.inr hneed, q, ?_, ?_, htaken⟩⟩
    · rw [hq] at hd
      cases hd.1
    · rw [hq]
    · rw [hq]

/-- The page is there, and need not be copied first. -/
def Pagetree.Ready (pt : Pagetree) (k : ℕ) (mode : PageSharingMode) : Prop :=
  (pt.ent k).page ≠ none ∧ ¬ NeedsCopy (pt.ent k) mode
  deriving Decidable

lemma pagetreeGetPage_taken (pt : Pagetree) (m : Memory) (k : ℕ) (mode : PageSharingMode) :
    wp (pagetreeGetPage k mode)
      (fun r t => (r = pt.page k ∧ (r ≠ none → pt.Ready k mode) ∧ (∀ j, t.1.page j = pt.page j) ∧
          m.Drawn t.2) ∨
        (¬ pt.Ready k mode ∧ ∃ q, r = some q ∧ t.1.page k = some q ∧
          (∀ j ≠ k, t.1.page j = pt.page j) ∧ Taken q (pt.page k) m t.2))
      (.both fun t => (∀ j, t.1.page j = pt.page j) ∧ m.Drawn t.2) (pt, m) := by
  simp only [pagetreeGetPage, wp_rules, wp_focus]
  refine wp_mono (pagetreeGetEntp_drawn pt m k) (fun y t ht => ?_)
    fun _ t ht => ⟨fun j => ht.1.page j, ht.2⟩
  obtain ⟨pt1, m1⟩ := t
  obtain ⟨hy, hsame, hdrawn, hreach⟩ := ht
  have hget : pt1.get y = pt.ent k := by
    rw [hsame.get y (locate_valid hy), ent_of_locate hy]
  have hkept : pt1.set (pt.ent k) y = pt1 := by rw [← hget, set_get_self]
  simp only [entAt, hget]
  refine wp_mono (pagetreeGetEnt_taken _ _ _ _ m1) (fun r z hz => ?_) fun _ z hz => ?_
  · rcases hz with ⟨rfl, rfl, hno⟩ | ⟨hneed, q, rfl, hq, htaken⟩
    · refine .inl ⟨(page_eq pt k).symm, fun hr => ⟨hr, hno⟩, fun j => ?_, hdrawn⟩
      rw [hkept]
      exact hsame.page j
    · refine .inr ⟨fun hready => ?_, q, rfl, ?_, fun j hj => ?_, ?_⟩
      · exact hneed.elim hready.1 hready.2
      · rw [page_of_locate hy, get_set_self hreach, hq]
      · rw [page_set_of_ne hy hj, hsame.page]
      · rw [page_eq]
        exact htaken.of_drawn hdrawn
  · refine ⟨fun j => ?_, hdrawn.trans hz.2⟩
    simp only [hz.1, hkept]
    exact hsame.page j

lemma pagetreeGetPage_counts (hold : ∀ x, pt.page k = some x → (m.info x).piFreepage = false) :
    wp (pagetreeGetPage k mode)
      (fun r t => (r = pt.page k ∧ (r ≠ none → pt.Ready k mode) ∧ (∀ j, t.1.page j = pt.page j) ∧
          m.SameCounts t.2) ∨
        (¬ pt.Ready k mode ∧ ∃ q, r = some q ∧ t.1.page k = some q ∧
          (∀ j ≠ k, t.1.page j = pt.page j) ∧ Fresh q (pt.page k) m t.2))
      (.both fun t => (∀ j, t.1.page j = pt.page j) ∧ m.SameCounts t.2) (pt, m) := by
  refine wp_mono (pagetreeGetPage_taken pt m k mode) (fun r t ht => ?_)
    fun _ t ht => ⟨ht.1, ht.2.toSameCounts⟩
  rcases ht with ⟨hr, hready, hsame, hdrawn⟩ | ⟨hno, q, hr, hq, hsame, htaken⟩
  · exact .inl ⟨hr, hready, hsame, hdrawn.toSameCounts⟩
  · exact .inr ⟨hno, q, hr, hq, hsame, htaken.fresh hold⟩

lemma pagetreeGetPage_away (hq : (m.info q).piFreepage = false) (hpage : pt.page k ≠ some q) :
    wp (pagetreeGetPage k mode)
      (fun r t => (r ≠ some q ∧ t.1.page k ≠ some q ∧ (∀ j ≠ k, t.1.page j = pt.page j) ∧
        t.2.info q = m.info q) ∧ ∀ x, (t.2.info x).piHwRef = (m.info x).piHwRef)
      (.both fun t => ((∀ j, t.1.page j = pt.page j) ∧ t.2.info q = m.info q) ∧
        ∀ x, (t.2.info x).piHwRef = (m.info x).piHwRef) (pt, m) := by
  refine wp_mono (pagetreeGetPage_taken pt m k mode) (fun r t ht => ?_)
    fun _ t ht => ⟨⟨ht.1, ht.2.kept q hq⟩, ht.2.pins⟩
  rcases ht with ⟨hr, -, hsame, hdrawn⟩ | ⟨-, p, hr, hp, hsame, htaken⟩
  · exact ⟨⟨hr ▸ hpage, hsame k ▸ hpage, fun j _ => hsame j, hdrawn.kept q hq⟩, hdrawn.pins⟩
  · have hne : some p ≠ some q := fun h => ne_of_free htaken.was hq (Option.some.inj h).symm
    exact ⟨⟨hr ▸ hne, hp ▸ hne, hsame, htaken.kept q hq hpage⟩, htaken.pins⟩

lemma pagetreeGetPage_ready (h : pt.Ready k mode) (hmode : mode ≠ pageExcl) :
    wp (pagetreeGetPage k mode) (fun r t => r = pt.page k ∧ t = (pt, m)) .never (pt, m) := by
  obtain ⟨hpage, hno⟩ := h
  obtain ⟨p, hp⟩ := Option.ne_none_iff_exists'.mp hpage
  rw [← page_eq] at hp
  obtain ⟨y, hy, hget⟩ := page_some.mp hp
  rw [ent_of_locate hy, NeedsCopy, not_or, not_and] at hno
  rw [hp]
  exact pagetreeGetPage_there hy hget hno.1 fun hcow => ⟨hmode, hno.2 hcow⟩

/-! ### Calls that fail -/

/-- `pagetree_get_page` returns an error: there is no place for the page, or no page for the
blocks on the way or for the copy. -/
def Pagetree.Fails (pt : Pagetree) (m : Memory) (k : ℕ) (mode : PageSharingMode) : Prop :=
  treePages ≤ k ∨ m.grants pt.pid ((pt.missing (way k)).card +
    if NeedsCopy (pt.ent k) mode then 1 else 0) = false

lemma Pagetree.Fails.congr (h : m.Alike m') : pt.Fails m' k mode ↔ pt.Fails m k mode := by
  rw [Pagetree.Fails, Pagetree.Fails, h.grants]

lemma pagetreeGetEnt_supply (hw : ∀ pid, m.nodeid pid < m.nmemnode) :
    wp (pagetreeGetEnt pid demand mode) (fun _ _ => NeedsCopy e mode → m.grants pid 1 = true)
      ⟨fun _ _ => NeedsCopy e mode ∧ m.grants pid 1 = false, fun _ _ => True⟩ (e, m) := by
  have hbreak : wp (breakSharing pid mode) (fun _ _ => NeedsCopy e mode → m.grants pid 1 = true)
      ⟨fun _ _ => NeedsCopy e mode ∧ m.grants pid 1 = false, fun _ _ => True⟩ (e, m) := by
    refine wp_breakSharing (fun hneed => ?_) (fun hno hneed => absurd hneed hno) fun _ _ => trivial
    simp only [pagetreeCopyPage, wp_rules, wp_shared, memcpy, setClear, pagetreeIncref]
    refine wp_mono (pageAlloc_supply pid hw) (fun q m1 h1 => ⟨fun old _ => ?_, fun _ => trivial⟩)
      fun _ _ h1 => ⟨hneed, h1⟩
    exact wp_mono (pagetreeDecref_recounted _ old) (fun _ _ _ _ => h1.1) fun _ _ => False.elim
  simp only [pagetreeGetEnt, wp_rules]
  refine wp_post hbreak fun _ t ht => ?_
  simp only [demandPage, wp_rules, wp_attempt, wp_shared]
  refine ⟨fun _ => ?_, fun _ => ht⟩
  exact wp_any_of fun _ _ => ht

lemma pagetreeGetPage_supply (hw : ∀ pid, m.nodeid pid < m.nmemnode) :
    wp (pagetreeGetPage k mode) (fun _ _ => ¬ pt.Fails m k mode)
      ⟨fun _ _ => pt.Fails m k mode, fun _ _ => True⟩ (pt, m) := by
  simp only [pagetreeGetPage, wp_rules, wp_focus]
  refine wp_mono (wp_and (pagetreeGetEntp_supply pt hw k) (pagetreeGetEntp_drawn pt m k))
    (fun y t ht => ?_) fun _ t ht => ?_
  · obtain ⟨pt1, m1⟩ := t
    obtain ⟨⟨hpaid, -⟩, hy, hsame, -, -⟩ := ht
    have hget : pt1.get y = pt.ent k := by
      rw [hsame.get y (locate_valid hy), ent_of_locate hy]
    have hplace : ¬ treePages ≤ k := fun hge => by
      rw [locate_eq_none.mpr hge] at hy
      cases hy
    have hpid : pt1.pid = pt.pid := hsame.pid
    simp only [entAt, hget, Pagetree.Fails, hplace, false_or, Bool.not_eq_false, hpid]
    refine wp_mono (pagetreeGetEnt_supply hpaid.spends.wired') (fun _ _ hz => ?_) fun _ _ hz => ?_
    · split_ifs with hneed
      · rw [← hpaid.spends.grants]
        exact hz hneed
      · exact hpaid.grants
    · show m.grants pt.pid _ = false
      rw [if_pos hz.1, ← hpaid.spends.grants]
      exact hz.2
  · rcases ht.1 with ⟨hplace, -⟩ | ⟨hno, -⟩
    · exact .inl hplace
    · exact .inr (not_grants_of_le hno (Nat.le_add_right _ _))

end Corey.Mem
