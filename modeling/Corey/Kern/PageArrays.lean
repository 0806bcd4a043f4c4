import Corey.Kern.Segment
import Corey.Mem.Capacity
import Corey.Mem.Contents

/-!
Families of on-demand arrays of pages.

The arrays of a family share one memory. What matters about them is how many pages each of them
has and what these pages present; every operation is described by what it does to the two. An
operation that an allocation has failed in says so by the allocator's own counter.
-/

namespace Corey.Kern

open Function Corey.Comp Corey.Mem Corey.Cow Finset Forest

variable {ι : Type} [DecidableEq ι] {U : Finset Ppn} {L : Finset ι} {w w' : (ι → Darray) × Forest ι}
  {n n' : ι → ℕ} {b b' : ι → ℕ → Page} {t u : ι} {p : EntPtr} {q : Ppn} {k m : ℕ}
  {mode : PageSharingMode} {s : Forest ι}

/-- The arrays in `L` have `n` pages each and present `b`; nothing else uses the memory but the
pages in callers' hands. -/
structure Shows (U : Finset Ppn) (L : Finset ι) (w : (ι → Darray) × Forest ι) (n : ι → ℕ)
    (b : ι → ℕ → Page) : Prop where
  sound : w.2.Sound U L
  pins : ∀ p, (w.2.mem.info p).piHwRef = 0
  tidy : Tidy (w.2.sheet L)
  clear : w.2.Cleared L
  head : ∀ t ∈ L, (w.1 t).daPp = 1 ∧ (w.1 t).daDemand = true ∧ (w.1 t).daNent = n t
  demand : ∀ t ∈ L, (w.2.tree t).demand = true
  small : ∀ t ∈ L, n t < word64
  beyond : ∀ t ∈ L, ∀ k p, n t ≤ k → locate k = some p → (w.2.sheet L).page (t, p) = none
  seen : ∀ t ∈ L, ∀ k p, k < n t → locate k = some p → w.2.view L (t, p) = b t k

/-- What an operation leaves alone: callers' pages, and the count of failed allocations. -/
structure Calm (w w' : (ι → Darray) × Forest ι) : Prop where
  hand : w'.2.hand = w.2.hand
  failures : w'.2.mem.failures = w.2.mem.failures

omit [DecidableEq ι] in
lemma Calm.trans {w'' : (ι → Darray) × Forest ι} (h : Calm w w') (h' : Calm w' w'') : Calm w w'' :=
  ⟨h'.hand.trans h.hand, h'.failures.trans h.failures⟩

/-- An allocation has failed since `w`. -/
def Failed (w w' : (ι → Darray) × Forest ι) : Prop := w.2.mem.failures < w'.2.mem.failures

namespace Shows

omit [DecidableEq ι] in
lemma congr (h : Shows U L w n b) (hn : ∀ t ∈ L, n' t = n t)
    (hb : ∀ t ∈ L, ∀ k < n t, b' t k = b t k) : Shows U L w n' b' where
  sound := h.sound
  pins := h.pins
  tidy := h.tidy
  clear := h.clear
  head t ht := by
    rw [hn t ht]
    exact h.head t ht
  demand := h.demand
  small t ht := by
    rw [hn t ht]
    exact h.small t ht
  beyond t ht k p hk := h.beyond t ht k p (hn t ht ▸ hk)
  seen t ht k p hk hp := by
    rw [hn t ht] at hk
    rw [hb t ht k hk, h.seen t ht k p hk hp]

omit [DecidableEq ι] in
lemma view_of_none {L : Set ι} {c : Cell ι} (h : (s.sheet L).page c = none) :
    s.view L c = zeroPage := by
  rw [Forest.view, Cow.view_of_none h]
  rfl

end Shows

lemma npages_one {a : Darray} (ha : a.daPp = 1) (hn : k < word64) : a.npages k = k := by
  simp [Darray.npages, roundup, rounddown, ha, Nat.mod_one, Nat.mod_eq_of_lt hn]

/-! ### Resizing -/

lemma dropPage_spec (h : Shows U L w n b) (ht : t ∈ L) (k : ℕ) :
    wp (dropPage t k) (fun _ w' => Shows U L w' n (update b t (update (b t) k zeroPage)) ∧
        w'.1 = w.1 ∧ Calm w w' ∧
        (∀ p, locate k = some p → (w'.2.sheet L).page (t, p) = none) ∧
        ∀ j p, j ≠ k → locate j = some p → (w'.2.sheet L).page (t, p) = (w.2.sheet L).page (t, p))
      ⟨fun _ _ => False, fun _ w' => Failed w w' ∨ treePages ≤ k⟩ w := by
  simp only [dropPage, wp_bind, wp_attempt, wp_shared]
  refine wp_imp (wp_and (putNull_sound ht h.sound k)
    (putNull_spec h.sound (subset_refl _) ht h.tidy h.clear k))
    (fun _ s hs => ?_) (fun e s hs => ?_) fun _ _ hs => hs.2.elim
  · obtain ⟨hsound, p, hp, hdrop, honly⟩ := hs
    have hne : ∀ {v : ι} {j : ℕ} {p' : EntPtr}, locate j = some p' → (v ≠ t ∨ j ≠ k) →
        (v, p') ≠ (t, p) := by
      rintro v j p' hj hvj heq
      cases heq
      exact hvj.elim (fun h => h rfl) fun h => h (locate_inj hj hp)
    have hpage : ∀ p', locate k = some p' → (s.sheet L).page (t, p') = none := by
      intro p' hp'
      cases hp.symm.trans hp'
      exact hdrop.page
    refine ⟨⟨hsound, fun q => (honly.pins q).trans (h.pins q), hdrop.tidy, hdrop.clear, h.head,
      fun v hv => (honly.demand v).trans (h.demand v hv), h.small, fun v hv j p' hj hp' => ?_,
      fun v hv j p' hj hp' => ?_⟩, rfl, ⟨honly.hand, honly.failures⟩, hpage,
      fun j p' hjk hp' => hdrop.others _ (hne hp' (Or.inr hjk))⟩
    · by_cases hc : (v, p') = (t, p)
      · rw [hc]
        exact hdrop.page
      · rw [hdrop.others _ hc]
        exact h.beyond v hv j p' hj hp'
    · by_cases hvt : v = t
      · subst hvt
        rw [update_self]
        by_cases hjk : j = k
        · subst hjk
          rw [update_self]
          exact Shows.view_of_none (hpage p' hp')
        · rw [update_of_ne hjk, hdrop.view _ (hne hp' (Or.inr hjk))]
          exact h.seen v hv j p' hj hp'
      · rw [update_of_ne hvt, hdrop.view _ (hne hp' (Or.inl hvt))]
        exact h.seen v hv j p' hj hp'
  · exact hs.2.imp (fun h1 => h1.2) fun h1 => h1.2.1

lemma Shows.resize (h : Shows U L w n b) (hm : m < word64)
    (hempty : ∀ k p, m ≤ k → locate k = some p → (w.2.sheet L).page (t, p) = none) :
    Shows U L (update w.1 t { w.1 t with daNent := m }, w.2) (update n t m)
      (update b t fun k => if k < n t then b t k else zeroPage) where
  sound := h.sound
  pins := h.pins
  tidy := h.tidy
  clear := h.clear
  head v hv := by
    by_cases hvt : v = t
    · subst hvt
      simpa using ⟨(h.head v hv).1, (h.head v hv).2.1⟩
    · simpa [hvt] using h.head v hv
  demand := h.demand
  small v hv := by
    by_cases hvt : v = t
    · simpa [hvt] using hm
    · simpa [hvt] using h.small v hv
  beyond v hv k p hk hp := by
    by_cases hvt : v = t
    · subst hvt
      rw [update_self] at hk
      exact hempty k p hk hp
    · rw [update_of_ne hvt] at hk
      exact h.beyond v hv k p hk hp
  seen v hv k p hk hp := by
    by_cases hvt : v = t
    · subst hvt
      rw [update_self]
      split_ifs with hlt
      · exact h.seen v hv k p hlt hp
      · exact Shows.view_of_none (h.beyond v hv k p (Nat.le_of_not_lt hlt) hp)
    · rw [update_of_ne hvt] at hk ⊢
      exact h.seen v hv k p hk hp

/-- The first pages of a resized array stay, and new ones are zero. Shrinking fails where the
array was larger than its tree. -/
lemma darraySetNent_spec (h : Shows U L w n b) (ht : t ∈ L) (hm : m < word64) (clear : Bool) :
    wp (darraySetNent t m clear) (fun _ w' => Shows U L w' (update n t m)
        (update b t fun k => if k < n t then b t k else zeroPage) ∧ Calm w w')
      ⟨fun _ _ => False, fun _ w' => Failed w w' ∨ m < n t ∧ treePages < n t⟩ w := by
  obtain ⟨hpp, hdem, hnent⟩ := h.head t ht
  simp only [darraySetNent, head, wp_rules]
  rw [npages_one hpp hm, npages_one hpp (hnent ▸ h.small t ht), hnent]
  refine wp_post (wp_loop (fun j w' => w'.1 = w.1 ∧ Calm w w' ∧
    (∃ b', Shows U L w' n b' ∧ ∀ v k, (v = t → k < m) → b' v k = b v k) ∧
    ∀ k p, m ≤ k → k < j → locate k = some p → (w'.2.sheet L).page (t, p) = none) (n t - m) m w
    ⟨rfl, ⟨rfl, rfl⟩, ⟨b, h, fun _ _ _ => rfl⟩, fun k p h1 h2 => absurd h1 (by omega)⟩ ?_)
    fun _ w1 h1 => ?_
  · rintro j w1 hj1 hj2 ⟨hheads, hcalm, ⟨b1, h1, hb1⟩, hnone⟩
    refine wp_imp (dropPage_spec h1 ht j) (fun _ w2 h2 => ?_) (fun _ _ => False.elim)
      fun _ w2 h2 => ?_
    · obtain ⟨hshow, hheads2, hcalm2, hpage, hothers⟩ := h2
      refine ⟨hheads2.trans hheads, hcalm.trans hcalm2, ⟨_, hshow, fun v k hvk => ?_⟩,
        fun k p hk1 hk2 hp => ?_⟩
      · rw [← hb1 v k hvk]
        by_cases hvt : v = t
        · subst hvt
          have hkj : k ≠ j := fun heq => absurd (hvk rfl) (by omega)
          rw [update_self, update_of_ne hkj]
        · rw [update_of_ne hvt]
      · by_cases hkj : k = j
        · exact hpage p (hkj ▸ hp)
        · rw [hothers k p hkj hp]
          exact hnone k p hk1 (by omega) hp
    · refine h2.imp (fun hf => ?_) fun hle => by omega
      simp only [Failed, hcalm.failures] at hf ⊢
      exact hf
  obtain ⟨hheads, hcalm, ⟨b1, hshow, hb1⟩, hnone⟩ := h1
  simp only [growPages, head, wp_rules, setHead]
  refine ⟨fun hno => ?_, fun _ => ⟨?_, hcalm.hand, hcalm.failures⟩⟩
  · simp [hheads, hdem] at hno
  have hres := hshow.resize (t := t) hm fun k p hk hp => by
    by_cases hlt : k < n t
    · exact hnone k p hk (by omega) hp
    · exact hshow.beyond t ht k p (by omega) hp
  rw [← hheads]
  refine hres.congr (fun _ _ => rfl) fun v _ k hk => ?_
  by_cases hvt : v = t
  · subst hvt
    rw [update_self] at hk
    simp only [update_self, hb1 v k fun _ => hk]
  · simp only [update_of_ne hvt]
    exact (hb1 v k fun heq => absurd heq hvt).symm

/-! ### Access -/

/-- A page of an array as the fault path gets it: `darray_get`, and the clearing of a page that
is new. -/
def faultPage (t : ι) (k : ℕ) (mode : PageSharingMode) : DaM ι Ppn := do
  let r ← darrayGet t k mode
  let p ← need .panic r.1
  shared (Forest.onMem (clearOnce p))
  pure p

lemma clearOnce_spec (s : Memory) (q : Ppn) :
    wp (clearOnce q) (fun _ s' => s' = s.ready q) .never s := by
  simp only [clearOnce, wp_rules, pageZero, setClear, Memory.ready]
  refine ⟨fun hc => ?_, fun hc => ?_⟩
  · rw [if_neg (by simp [hc])]
    rfl
  · rw [if_pos (by simpa using hc)]

/-- **Access through the fault path.** The page presents what the array does at its index, and
no array presents anything else than before. A page fetched for writing is in no other place. -/
lemma faultPage_spec (h : Shows U L w n b) (ht : t ∈ L) (hmode : mode ≠ pageExcl) (k : ℕ) :
    wp (faultPage t k mode)
      (fun q w' => Shows U L w' n b ∧ Calm w w' ∧ k < n t ∧ w'.2.mem.bytes q = b t k ∧
        ∃ p, locate k = some p ∧ (w'.2.sheet L).page (t, p) = some q ∧
          (mode = pageSharedCow → ¬ (w'.2.sheet L).shared (t, p)))
      ⟨fun e w' => Failed w w' ∨ w' = w ∧
          (e = .inval ∧ n t ≤ k ∨ e = .noSpace ∧ k < n t ∧ treePages ≤ k),
       fun _ w' => Failed w w'⟩ w := by
  obtain ⟨hpp, -, hnent⟩ := h.head t ht
  simp only [faultPage, darrayGet, head, wp_rules, hnent, hpp, Nat.div_one]
  refine ⟨fun hge => Or.inr ⟨trivial, Or.inl ⟨trivial, hge⟩⟩, fun hlt => ?_⟩
  rw [Nat.not_le] at hlt
  simp only [wp_shared]
  refine wp_imp (wp_and (getPage_sound ht h.sound k mode)
    (getPage_spec h.sound (subset_refl _) ht h.tidy h.clear (h.demand t ht) hmode k))
    (fun r s hs => ⟨fun q hq => ?_, fun hnone => ?_⟩) (fun e s hs => ?_) fun _ _ hs => hs.2
  · obtain ⟨hsound, p, q', hp, rfl, hfetch, honly⟩ := hs
    cases hq
    rw [onMem, wp_zoom]
    refine wp_of_never (clearOnce_spec s.mem q) fun _ m hm => ?_
    subst hm
    have hsame : (sheet L { s with mem := s.mem.ready q }).page = (s.sheet L).page := rfl
    have hview : ∀ c, view L { s with mem := s.mem.ready q } c = w.2.view L c := fun c =>
      (ready_view c).trans (hfetch.view c)
    have hseen := hview (t, p)
    rw [h.seen t ht k p hlt hp, view, view_of_page (hsame ▸ hfetch.page)] at hseen
    refine ⟨⟨hsound.ready (subset_refl _) hfetch.page, fun x => ?_, hfetch.tidy.congr rfl rfl,
      fun c x hx => ?_, h.head, fun v hv => (honly.demand v).trans (h.demand v hv), h.small,
      fun v hv j p' hj hp' => ?_, fun v hv j p' hj hp' => ?_⟩, ⟨honly.hand, ?_⟩, hlt, ?_,
      p, hp, hfetch.page, hfetch.own⟩
    · rw [ready_hw, honly.pins, h.pins]
    · by_cases hxq : x = q
      · rw [hxq, ready_clear_self]
      · rw [ready_clear_of_ne hxq]
        exact hfetch.clear c x hx hxq
    · by_cases hc : (v, p') = (t, p)
      · cases hc
        cases locate_inj hp hp'
        omega
      · exact (hfetch.others _ hc).trans (h.beyond v hv j p' hj hp')
    · exact (hview (v, p')).trans (h.seen v hv j p' hj hp')
    · rw [ready_failures]
      exact honly.failures
    · rw [← hseen]
      exact (shown_of_clear ready_clear_self).symm
  · obtain ⟨-, p, q, -, hr, -⟩ := hs
    simp [hr] at hnone
  · rcases hs.2 with hf | ⟨he, hle, hs⟩
    · exact Or.inl hf.2
    · exact Or.inr ⟨by rw [hs], Or.inr ⟨he, hlt, hle⟩⟩

lemma Shows.store (h : Shows U L w n b) (ht : t ∈ L) (hp : locate k = some p)
    (hq : (w.2.sheet L).page (t, p) = some q) (hown : ¬ (w.2.sheet L).shared (t, p)) (x : Page) :
    Shows U L (w.1, { w.2 with mem := w.2.mem.setBytes q x }) n
      (update b t (update (b t) k x)) := by
  have hfill := fill_of_clear x (h.clear _ _ hq)
  rw [← hfill]
  have hwr := fill_written (L := (L : Set ι)) (s := w.2) (q := q) x
  have hpage : ∀ c, (sheet L { w.2 with mem := w.2.mem.fill q x }).page c =
      (w.2.sheet L).page c := fun _ => rfl
  have hother : ∀ c ≠ (t, p), view L { w.2 with mem := w.2.mem.fill q x } c =
      w.2.view L c := fun c hc => congrArg shown (hwr.view_of_ne h.tidy hq hown hc)
  have hself : view L { w.2 with mem := w.2.mem.fill q x } (t, p) = x := by
    rw [view, view_of_page ((hpage _).trans hq)]
    show shown ((w.2.mem.fill q x).text q) = x
    rw [fill_text_self]
    rfl
  refine ⟨h.sound.fill (subset_refl _) hq x, fun y => (fill_hw x y).trans (h.pins y),
    hwr.tidy h.tidy, fun c y hy => ?_, h.head, h.demand, h.small, h.beyond,
    fun v hv j p' hj hp' => ?_⟩
  · rw [hpage] at hy
    by_cases hyq : y = q
    · rw [hyq]
      exact congrArg Prod.fst (fill_text_self (m := w.2.mem) (q := q) x)
    · rw [← h.clear c y hy]
      exact congrArg Prod.fst (fill_text_of_ne (m := w.2.mem) x hyq)
  · by_cases hc : (v, p') = (t, p)
    · cases hc
      cases locate_inj hp hp'
      rw [update_self, update_self, hself]
    · rw [hother _ hc, h.seen v hv j p' hj hp']
      by_cases hvt : v = t
      · subst hvt
        have hjk : j ≠ k := by
          rintro rfl
          exact hc (by rw [Option.some.inj (hp'.symm.trans hp)])
        rw [update_self, update_of_ne hjk]
      · rw [update_of_ne hvt]

/-! ### Copying -/

/-- **A shared copy presents what its source does.** -/
lemma darrayCopy_spec (h : Shows U L w n b) (ht : t ∈ L) (hu : u ∈ L) (hne : t ≠ u)
    {demand : Bool} {pid : ℕ} (hfresh : w.2.tree u = pagetreeInit demand pid) (hzero : n u = 0)
    (hmode : mode = pageSharedCow ∨ mode = pageSharedCor)
    (hroots : directEntries * L.card ≤ width 0 * w.2.hand.length) (hU : U.card ≤ maxPages) :
    wp (darrayCopy t u mode) (fun _ w' => 0 < n t ∧ Calm w w' ∧
        Shows U L w' (update n u (n t)) (update b u (b t)))
      ⟨fun e w' => Failed w w' ∨ e = .inval ∧ n t = 0 ∧ w' = w, fun _ _ => False⟩ w := by
  simp only [darrayCopy, head, wp_rules, (h.head t ht).2.2, (h.head u hu).2.2, hzero]
  refine ⟨fun hz => Or.inr ⟨trivial, by simpa using hz, trivial⟩, fun hnz => ?_⟩
  have hpos : 0 < n t := by
    rw [not_or] at hnz
    exact Nat.pos_of_ne_zero hnz.2
  simp only [wp_shared, setHead, wp_change]
  refine wp_mono (copy_spec ht hu hne h.sound
    (roomToCopy_of_capacity ht hu hne h.pins hroots hU)) (fun _ s hs => ?_)
    fun e s hs => Or.inl hs.2.2
  obtain ⟨hsound, hfail, pt', pu', d1, m', rfl, hempty, hdem, hmodes, hcopied, hk⟩ := hs
  have hd1 : ∀ p : EntPtr, p.Valid → d1.get p = {} :=
    hempty.get fun i => (hmodes i).trans (by rw [hfresh]; rfl)
  have hsp := copy_spread (L := (L : Set ι)) (subset_refl _) ht hu hne h.tidy hmode hd1 hcopied hk
  set s' := (w.2.withTree t pt' m').withTree u pu' m' with hs'
  have hdst : ∀ {j : ℕ} {p : EntPtr}, locate j = some p →
      copyOrigin t u (u, p) = some (t, p) := fun hj =>
    copyOrigin_some.mpr ⟨_, locate_valid hj, rfl, rfl⟩
  have hold : ∀ {v : ι} {p : EntPtr}, v ≠ u → copyOrigin t u (v, p) = none := by
    intro v p hv
    rw [copyOrigin, if_neg fun hc => hv hc.1]
  refine ⟨hpos, ⟨rfl, hfail⟩, hsound, fun x => (hk.hw x).trans (h.pins x), hsp.tidy h.tidy,
    fun c x hx => ?_, fun v hv => ?_, fun v hv => ?_, fun v hv => ?_, fun v hv j p hj hp => ?_,
    fun v hv j p hj hp => ?_⟩
  · -- the page of a copy is the page of its source
    obtain ⟨c0, hc0, hx0⟩ : ∃ c0, copyOrigin t u c0 = none ∧ (w.2.sheet L).page c0 = some x := by
      cases ho : copyOrigin t u c with
      | none => exact ⟨c, ho, (hsp.keep c ho).symm.trans hx⟩
      | some c0 => exact ⟨c0, hsp.apart c c0 ho, (hsp.page c c0 ho).symm.trans hx⟩
    rw [← h.clear c0 x hx0]
    exact congrArg Prod.fst (hsp.text c0 x hc0 hx0)
  · by_cases hvu : v = u
    · subst hvu
      simpa using ⟨(h.head v hv).1, (h.head v hv).2.1⟩
    · simpa [hvu] using h.head v hv
  · show (s'.tree v).demand = true
    by_cases hvu : v = u
    · rw [hvu, hs', withTree_tree_self, hcopied.dstDemand, hdem, h.demand t ht]
    · rw [hs', withTree_tree_of_ne hvu]
      by_cases hvt : v = t
      · rw [hvt, withTree_tree_self, hcopied.srcDemand, h.demand t ht]
      · rw [withTree_tree_of_ne hvt, h.demand v hv]
  · by_cases hvu : v = u
    · simpa [hvu] using h.small t ht
    · simpa [hvu] using h.small v hv
  · by_cases hvu : v = u
    · subst hvu
      rw [update_self] at hj
      exact (hsp.page _ _ (hdst hp)).trans (h.beyond t ht j p hj hp)
    · rw [update_of_ne hvu] at hj
      exact (hsp.keep _ (hold hvu)).trans (h.beyond v hv j p hj hp)
  · by_cases hvu : v = u
    · subst hvu
      rw [update_self] at hj ⊢
      exact (congrArg shown (hsp.view_copy (hdst hp))).trans (h.seen t ht j p hj hp)
    · rw [update_of_ne hvu] at hj ⊢
      exact (congrArg shown (hsp.view_keep (hold hvu))).trans (h.seen v hv j p hj hp)

/-! ### Arrays that come and go -/

lemma Shows.handed {l : List Ppn} (h : Shows U L w n b) (hs : Handed U L l w.2 s) :
    Shows U L (w.1, s) n b where
  sound := hs.sound
  pins q := (hs.kept.hw q).trans (h.pins q)
  tidy := (hs.still (subset_refl _)).tidy h.tidy
  clear c _ hq := by
    have hst := hs.still (subset_refl _)
    exact h.clear.mono (hst.page c) (hst.text c) hq
  head := h.head
  demand := hs.tree ▸ h.demand
  small := h.small
  beyond v hv k p hk hp := ((hs.still (subset_refl _)).page _).trans (h.beyond v hv k p hk hp)
  seen v hv k p hk hp :=
    (congrArg shown ((hs.still (subset_refl _)).view _)).trans (h.seen v hv k p hk hp)

lemma darrayInit_spec (h : Shows U L w n b) (ht : t ∉ L) (pid : ℕ) :
    wp (darrayInit t pgsize true pid)
      (fun _ w' => Shows U (insert t L) w' (update n t 0) b ∧ Calm w w' ∧
        w'.2.tree t = pagetreeInit true pid) .never w := by
  simp only [darrayInit, wp_seq, wp_shared, wp_change, setHead]
  set s : Forest ι := w.2.withTree t (pagetreeInit true pid) w.2.mem with hs
  have htree : s.tree t = pagetreeInit true pid := withTree_tree_self
  have hsheet : s.sheet ↑(insert t L) = w.2.sheet L := by
    rw [coe_insert]
    exact sheet_insert (fun p _ => init_get p) ht
  have hview : ∀ c, s.view ↑(insert t L) c = w.2.view L c := fun c => by
    rw [view, hsheet, view]
  have hledger : s.ledger (insert t L) = w.2.ledger L := ledger_init ht
  have hnone : ∀ p, (w.2.sheet L).page (t, p) = none := fun p => if_neg fun hc => ht hc.1
  refine ⟨⟨⟨hledger ▸ h.sound.balanced, hledger ▸ h.sound.fits⟩, h.pins, hsheet ▸ h.tidy,
    fun c q hq => h.clear c q (hsheet ▸ hq), fun v hv => ?_, fun v hv => ?_, fun v hv => ?_,
    fun v hv k p hk hp => ?_, fun v hv k p hk hp => ?_⟩, ⟨rfl, rfl⟩, htree⟩
  · by_cases hvt : v = t
    · simp [hvt, pgsize]
    · simpa [hvt] using h.head v (mem_of_mem_insert_of_ne hv hvt)
  · show (s.tree v).demand = true
    by_cases hvt : v = t
    · rw [hvt, htree]
      rfl
    · rw [hs, withTree_tree_of_ne hvt]
      exact h.demand v (mem_of_mem_insert_of_ne hv hvt)
  · by_cases hvt : v = t
    · simp [hvt, word64]
    · simpa [hvt] using h.small v (mem_of_mem_insert_of_ne hv hvt)
  · show (s.sheet ↑(insert t L)).page (v, p) = none
    rw [hsheet]
    by_cases hvt : v = t
    · rw [hvt]
      exact hnone p
    · rw [update_of_ne hvt] at hk
      exact h.beyond v (mem_of_mem_insert_of_ne hv hvt) k p hk hp
  · show s.view ↑(insert t L) (v, p) = b v k
    have hvt : v ≠ t := by
      rintro rfl
      rw [update_self] at hk
      omega
    rw [update_of_ne hvt] at hk
    rw [hview]
    exact h.seen v (mem_of_mem_insert_of_ne hv hvt) k p hk hp

lemma darrayFree_spec (h : Shows U L w n b) (ht : t ∈ L) :
    wp (darrayFree t) (fun _ w' => Shows U (L.erase t) w' n b ∧ Calm w w') .never w := by
  have hsub : (↑(L.erase t) : Set ι) ⊆ (L : Set ι) := by
    exact_mod_cast erase_subset t L
  rw [darrayFree, wp_shared]
  refine wp_imp (wp_and (free_sound ht h.sound)
    (free_spec h.sound hsub ht (by simp))) (fun _ s hs => ?_)
    (fun _ _ hs => hs.2) fun _ _ hs => hs.2
  obtain ⟨hsound, hst, honly, hempty⟩ := hs
  have hmem : ∀ v ∈ L.erase t, v ∈ L := fun v => mem_of_mem_erase
  have hledger := ledger_erase ht hempty.ledger
  refine ⟨⟨⟨hledger ▸ hsound.balanced, hledger ▸ hsound.fits⟩,
    fun q => (honly.pins q).trans (h.pins q), hst.tidy (tidy_mono hsub h.tidy),
    fun c q hq => ?_, fun v hv => h.head v (hmem v hv),
    fun v hv => (honly.demand v).trans (h.demand v (hmem v hv)),
    fun v hv => h.small v (hmem v hv), fun v hv k p hk hp => ?_, fun v hv k p hk hp => ?_⟩,
    ⟨honly.hand, honly.failures⟩⟩
  · rw [hst.page] at hq
    rw [← h.clear c q (sheet_mono hsub hq)]
    exact congrArg Prod.fst (hst.text c q hq)
  · exact (hst.page _).trans (((sheet_of_mem hsub hv).1).trans (h.beyond v (hmem v hv) k p hk hp))
  · exact (congrArg shown (hst.view _)).trans ((view_mono hsub hv).trans
      (h.seen v (hmem v hv) k p hk hp))

end Corey.Kern
