import Corey.Kern.SegmentRuns

/-!
Exclusive copies.

An exclusive copy duplicates the bytes of every page, but the new pages are not marked as
cleared, and so whoever maps one clears it.
-/

namespace Corey.Kern

open Function Corey.Comp Corey.Mem Corey.Cow Forest

variable {ι : Type} [DecidableEq ι] {U : Finset Ppn} {L : Finset ι}
  {w w' : (ι → Darray) × Forest ι} {n : ι → ℕ} {b : ι → ℕ → Page} {t u : ι} {k : ℕ}
  {mode : PageSharingMode}

/-- No page of a tree is shared, and none has been cleared. -/
def Uncleared (s : Forest ι) (t : ι) : Prop :=
  ∀ p : EntPtr, p.Valid → ¬ (s.ent (t, p)).Shared ∧
    ∀ q, (s.ent (t, p)).page = some q → (s.mem.info q).piClear = false

lemma copied_excl {m m' : Memory} {e e' d : PagetreeEntry}
    (h : CopiedEnt pageExcl m m' e {} e' d) :
    ¬ d.Shared ∧ ∀ q, d.page = some q → (m'.info q).piClear = false := by
  cases h with
  | null page => simp [PagetreeEntry.Shared, pageSharedCow, pageSharedCor]
  | excl page hmode bytes clear =>
    exact ⟨by simp [PagetreeEntry.Shared, pageExcl, pageSharedCow, pageSharedCor],
      fun q hq => by cases hq; exact clear⟩
  | shared page hmode => exact absurd rfl hmode

lemma darrayCopy_excl_spec (h : Shows U L w n b) (ht : t ∈ L) (hu : u ∈ L) (hne : t ≠ u)
    {demand : Bool} {pid : ℕ} (hfresh : w.2.tree u = pagetreeInit demand pid) (hzero : n u = 0)
    (hroots : directEntries * L.card ≤ width 0 * w.2.hand.length) (hU : U.card ≤ maxPages) :
    wp (darrayCopy t u pageExcl)
      (fun _ w' => w'.2.Sound U L ∧ Uncleared w'.2 u ∧ (w'.2.tree u).demand = true ∧
        (w'.1 u).daPp = 1 ∧ (w'.1 u).daNent = n t)
      ⟨fun _ _ => True, fun _ _ => False⟩ w := by
  simp only [darrayCopy, head, wp_rules, (h.head t ht).2.2, (h.head u hu).2.2, hzero]
  refine ⟨fun _ => trivial, fun _ => ?_⟩
  simp only [wp_shared, setHead, wp_change, update_self]
  refine wp_mono (Forest.copy_spec ht hu hne h.sound
    (Forest.roomToCopy_of_capacity ht hu hne h.pins hroots hU)) (fun _ s hs => ?_)
    (fun _ _ _ => trivial)
  obtain ⟨hsound, -, pt', pu', d1, m', rfl, hempty, hdem, hmodes, hcopied, -⟩ := hs
  have hd1 : ∀ p : EntPtr, p.Valid → d1.get p = {} :=
    hempty.get fun i => (hmodes i).trans (by rw [hfresh]; rfl)
  refine ⟨hsound, fun p hp => ?_, ?_, (h.head u hu).1, trivial⟩
  · have hent : ((w.2.withTree t pt' m').withTree u pu' m').ent (u, p) = pu'.get p := by
      rw [Forest.ent, Forest.withTree_tree_self]
    rw [hent]
    exact copied_excl (hd1 p hp ▸ hcopied.get p hp)
  · rw [Forest.withTree_tree_self, hcopied.dstDemand, hdem, h.demand t ht]

lemma faultPage_uncleared (hs : w.2.Sound U L) (hu : u ∈ L) (hblind : Uncleared w.2 u)
    (hdem : (w.2.tree u).demand = true) (hpp : (w.1 u).daPp = 1) (hk : k < (w.1 u).daNent)
    (htree : k < treePages) (hmode : mode ≠ pageExcl) :
    wp (faultPage u k mode) (fun q w' => w'.2.mem.bytes q = zeroPage)
      ⟨fun _ w' => Failed w w', fun _ w' => Failed w w'⟩ w := by
  have hb := hs.balanced
  have hf := hs.fits
  rw [ledger_split hu] at hb hf
  simp only [faultPage, darrayGet, head, wp_rules, hpp, Nat.div_one]
  refine ⟨fun hle => absurd hk (Nat.not_lt.mpr hle), fun _ => ?_⟩
  simp only [wp_shared, getPage, onTree, wp_zoom]
  refine wp_imp (pagetreeGetPage_spec hb hf k mode) (fun r x hx => ?_) (fun e x hx => ?_)
    fun _ x hx => ?_
  · obtain ⟨p, pt1, m1, e, hgot⟩ := hx
    obtain ⟨hown, hclear⟩ := hblind p (locate_valid hgot.place)
    -- the page that is returned has not been cleared
    have hpage : ∃ q, e.page = some q ∧ (x.2.info q).piClear = false := by
      obtain ⟨pt2, m2⟩ := x
      cases hgot.got with
      | copied need => exact absurd (need.elim Or.inr fun hcow => Or.inl hcow.1) hown
      | kept need page =>
        obtain ⟨q, hq⟩ : ∃ q, (w.2.ent (u, p)).page = some q := by
          rw [← Option.ne_none_iff_exists']
          exact fun hnone => by simp [page hnone] at hdem
        refine ⟨q, hq, ?_⟩
        rw [← hclear q hq]
        exact hgot.walked.kept.clear q (Nat.lt_of_lt_of_le
          (ent_pos (locate_valid hgot.place) hq) (Nat.le_add_right _ _))
      | demanded need page dem fresh clear => exact ⟨_, rfl, clear⟩
    obtain ⟨q, hq, hnot⟩ := hpage
    rw [hgot.page, hq]
    refine ⟨fun q' hq' => ?_, by simp⟩
    cases hq'
    rw [onMem, wp_zoom]
    refine wp_of_never (clearOnce_spec x.2 q) fun _ m hm => ?_
    subst hm
    simp [Memory.ready, hnot, Memory.fill]
  · rcases hx.2 with ⟨-, hfail⟩ | ⟨-, hle, -⟩
    · exact hfail
    · exact absurd htree (Nat.not_lt.mpr hle)
  · obtain ⟨-, p, hplace, hexcl | ⟨hneed, -⟩ | hfail⟩ := hx
    · exact absurd hexcl.1 hmode
    · exact absurd (hneed.elim Or.inr fun hcow => Or.inl hcow.1) (hblind p (locate_valid hplace)).1
    · exact hfail

/-! ### Segments -/

variable {s s' : Machine} {r : Eager} {src dst : Kobj}

lemma exclCopy_spec {L : Finset TreeId} (hU : U.card ≤ maxPages) (h : Presents U L s r)
    (hmode : mode ≠ pageExcl) (hk : k < r.npages src) (htree : k < treePages) (pid : ℕ) :
    wp (segmentCopy src pageExcl pid)
      (fun dst s1 => wp (segmentFaultPage dst k mode) (fun q s2 => s2.mem.bytes q = zeroPage)
        ⟨fun _ s2 => Starved s1 s2, fun _ s2 => Starved s1 s2⟩ s1)
      .any s := by
  simp only [segmentCopy, wp_bind, wp_derefAs_any]
  intro hl _
  rw [wp_ite]
  refine ⟨fun hno => absurd rfl hno.2.2, fun _ => ?_⟩
  simp only [wp_rules]
  refine wp_weaken (segmentAlloc_spec h pid) fun dst s1 h1 => ?_
  obtain ⟨rfl, h1, -, hinit⟩ := h1
  have hne : src ≠ r.born := by
    rintro rfl
    have := h.unborn _ (Nat.le_refl s.born)
    rw [← h.born, Machine.live, hl] at this
    cases this
  have hsrc : sgPages src ∈ insert (sgPages r.born) L := Finset.mem_insert_of_mem (h.mem.mpr hl)
  have hdst := Finset.mem_insert_self (sgPages r.born) L
  have hl1 : s1.live r.born = true := h1.mem.mp hdst
  have hnpages : r.alloc.npages src = r.npages src := update_of_ne hne _ _
  rw [invalidateShared, if_neg (by decide), wp_pure, wp_onArrays]
  refine wp_weaken (darrayCopy_excl_spec h1.shows hsrc hdst (by rwa [Ne, sgPages_inj]) hinit
    (update_self ..) ?_ hU) fun _ w hw => ?_
  · have hcount := h1.count
    rw [show directEntries = 3 from rfl, show width 0 = 170 from rfl]
    simp only [hcount]
    omega
  · obtain ⟨hsound, hblind, hdem, hpp, hnent⟩ := hw
    rw [wp_segmentFaultPage, wp_derefAs]
    refine ⟨fun _ _ => ?_, fun _ ht => absurd (h1.unmapped _ hl1).1 ht,
      fun hf => absurd (hl1.symm.trans hf) (by decide)⟩
    rw [wp_onArrays]
    refine faultPage_uncleared hsound hdst hblind hdem hpp ?_ htree hmode
    rw [hnent]
    exact hnpages ▸ hk

/-- **An exclusive copy presents zeros.** After any run of segments from boot, let a segment be
copied with `page_excl`, and let a page of the copy that a tree has a place for be accessed for
the first time. Unless `page_alloc` fails, the access gets a page, and the page presents what the
source presents at its index exactly when the source presents zeros there. -/
theorem excl_copy_presents_source_iff {U : Finset Ppn} (hU : U.card ≤ maxPages) {s0 s s1 : Machine}
    (hs : s0.Fresh U) {ops : List SegmentOp} {answers : List Answer} {r : Eager}
    (h : segments.trace ops s0 = some (answers, s))
    (hr : eager.trace ops Eager.init = some (answers, r)) {src dst : Kobj} {pid : ℕ}
    (hcopy : segmentCopy src pageExcl pid s = (.ok dst, s1)) {k : ℕ} (hk : k < r.npages src)
    (htree : k < treePages) {mode : PageSharingMode}
    (hmode : mode = pageSharedCow ∨ mode = pageSharedCor) :
    Starved s1 (segmentFaultPage dst k mode s1).2 ∨
      ∃ q s2, segmentFaultPage dst k mode s1 = (.ok q, s2) ∧
        (s2.mem.bytes q = r.bytes src k ↔ r.bytes src k = zeroPage) := by
  obtain ⟨r', hr', L, hp⟩ := trace_presents hU hs h
  cases hr'.symm.trans hr
  have hexcl : mode ≠ pageExcl := by
    rcases hmode with rfl | rfl <;> decide
  have hspec := wp_ok (exclCopy_spec hU hp hexcl hk htree pid) hcopy
  simp only [wp] at hspec
  rcases hf : segmentFaultPage dst k mode s1 with ⟨q | e | x, s2⟩ <;> simp only [hf] at hspec
  · exact Or.inr ⟨q, s2, rfl, by rw [hspec]; exact eq_comm⟩
  · exact Or.inl hspec
  · exact Or.inl hspec

def oneByte (offset : Fin pgsize) : List SegmentOp :=
  [.alloc 0, .setNbytes 0 4096, .store 0 0 offset 1]

lemma oneByte_copied : ∃ s s1 s2 r q,
    segments.trace (oneByte ⟨7, by decide⟩) (bareMachine 8 1 0) =
      some ([.segment 0, .done, .done], s) ∧
    eager.trace (oneByte ⟨7, by decide⟩) Eager.init = some ([.segment 0, .done, .done], r) ∧
    segmentCopy 0 pageExcl 0 s = (.ok 1, s1) ∧
    segmentFaultPage 1 0 pageSharedCor s1 = (.ok q, s2) ∧
    r.npages 0 = 1 ∧ r.bytes 0 0 ⟨7, by decide⟩ = 1 ∧ s2.mem.bytes q ⟨7, by decide⟩ = 0 := by
  obtain ⟨⟨_, s⟩, hs, rfl, ⟨_, s1⟩, hcopy, rfl, ⟨q, s2⟩, hfault, hbyte⟩ :
      ∃ x ∈ segments.trace (oneByte ⟨7, by decide⟩) (bareMachine 8 1 0),
        x.1 = [.segment 0, .done, .done] ∧ ∃ y ∈ (segmentCopy 0 pageExcl 0).result x.2, y.1 = 1 ∧
        ∃ z ∈ (segmentFaultPage 1 0 pageSharedCor).result y.2,
          z.2.mem.bytes z.1 ⟨7, by decide⟩ = 0 := by decide +kernel
  exact ⟨s, s1, s2, _, q, hs, rfl, result_eq_some.mp hcopy, result_eq_some.mp hfault, rfl, rfl,
    hbyte⟩

theorem excl_copy_presents_source_iff_oneByte : ∃ s s1 r,
    segments.trace (oneByte ⟨7, by decide⟩) (bareMachine 8 1 0) =
      some ([.segment 0, .done, .done], s) ∧
    eager.trace (oneByte ⟨7, by decide⟩) Eager.init = some ([.segment 0, .done, .done], r) ∧
    segmentCopy 0 pageExcl 0 s = (.ok 1, s1) ∧ 0 < r.npages 0 ∧
    (Starved s1 (segmentFaultPage 1 0 pageSharedCor s1).2 ∨
      ∃ q s2, segmentFaultPage 1 0 pageSharedCor s1 = (.ok q, s2) ∧
        (s2.mem.bytes q = r.bytes 0 0 ↔ r.bytes 0 0 = zeroPage)) := by
  obtain ⟨s, s1, s2, r, q, hs, hr, hcopy, -, hn, -, -⟩ := oneByte_copied
  exact ⟨s, s1, r, hs, hr, hcopy, by omega, excl_copy_presents_source_iff (by decide)
    (bareMachine_fresh 8 1 0) hs hr hcopy (by omega) (by decide) (Or.inr rfl)⟩

/-- **The data is lost.** The source has a byte 1 in its page. The copy succeeds, and the first
read of the page of the copy gets 0. -/
theorem excl_copy_loses_byte : ∃ s s1 s2 r q,
    segments.trace (oneByte ⟨7, by decide⟩) (bareMachine 8 1 0) =
      some ([.segment 0, .done, .done], s) ∧
    eager.trace (oneByte ⟨7, by decide⟩) Eager.init = some ([.segment 0, .done, .done], r) ∧
    segmentCopy 0 pageExcl 0 s = (.ok 1, s1) ∧
    segmentFaultPage 1 0 pageSharedCor s1 = (.ok q, s2) ∧ 0 < r.npages 0 ∧
    r.bytes 0 0 ⟨7, by decide⟩ = 1 ∧ s2.mem.bytes q ⟨7, by decide⟩ = 0 := by
  obtain ⟨s, s1, s2, r, q, hs, hr, hcopy, hfault, hn, hsrc, hdst⟩ := oneByte_copied
  exact ⟨s, s1, s2, r, q, hs, hr, hcopy, hfault, by omega, hsrc, hdst⟩

end Corey.Kern
